/-
  GluaLs.Syntax.Lexer — the Lua lexer (`glua_parser/src/lexer/{lexer_config, mod,
  token_data, lua_lexer}.rs`, `parser_error/mod.rs`).

  `tokenize` goes over the text token by token.  A lexer can start inside a string, a long
  string or a long comment that an earlier reader left open (`LexerState`): code blocks in
  comments are lexed line by line.  The Unicode classes the source asks `char` for are a
  parameter, as is everything the configuration decides.
-/
import GluaLs.Syntax.Reader

namespace GluaLs.Syntax

/-! ## §1. Tokens, errors and the configuration -/

structure LuaTokenData where
  kind : LuaTokenKind
  range : SourceRange
  deriving DecidableEq

inductive LuaParseErrorKind where
  | SyntaxError
  | DocError
  deriving DecidableEq, Repr

structure LuaParseError where
  kind : LuaParseErrorKind
  message : String
  range : SourceRange
  deriving DecidableEq, Repr

def LuaParseError.syntaxErrorFrom (message : String) (range : SourceRange) : LuaParseError :=
  ⟨.SyntaxError, message, range⟩

/-- `char::is_alphabetic` and `char::is_alphanumeric`: tables of the Unicode standard. -/
structure UnicodeClasses where
  isAlphabetic : Char → Bool
  isAlphanumeric : Char → Bool

structure LexerConfig where
  languageLevel : LuaLanguageLevel
  nonStdSymbols : LuaNonStdSymbolSet
  unicode : UnicodeClasses

namespace LexerConfig

def supportGoto (config : LexerConfig) : Bool :=
  match config.languageLevel with
  | .Lua51 => false
  | .LuaJIT | .Lua52 | .Lua53 | .Lua54 | .Lua55 => true

def supportComplexNumber (config : LexerConfig) : Bool := config.languageLevel == .LuaJIT

def supportLlInteger (config : LexerConfig) : Bool := config.languageLevel == .LuaJIT

def supportBinaryInteger (config : LexerConfig) : Bool := config.languageLevel == .LuaJIT

/-- GMod's Lua has no native bitwise or integer-division operators. -/
def supportIntegerOperation (_config : LexerConfig) : Bool := false

def isNameStart (config : LexerConfig) (ch : Char) : Bool :=
  config.unicode.isAlphabetic ch || ch == '_'

def isNameContinue (config : LexerConfig) (ch : Char) : Bool :=
  config.unicode.isAlphanumeric ch || ch == '_'

end LexerConfig

/-- What an earlier reader left open. -/
inductive LexerState where
  | Normal
  | String (quote : Char)
  | LongString (sep : Nat)
  | LongComment (sep : Nat)
  deriving DecidableEq, Repr

structure LuaLexer where
  reader : Reader
  lexerConfig : LexerConfig
  errors : Option (List LuaParseError)
  state : LexerState

def isAsciiDigit (ch : Char) : Bool := '0' ≤ ch && ch ≤ '9'

def isHexDigit (ch : Char) : Bool :=
  isAsciiDigit ch || ('a' ≤ ch && ch ≤ 'f') || ('A' ≤ ch && ch ≤ 'F')

def isLineBreak (ch : Char) : Bool := ch == '\n' || ch == '\r'

namespace LuaLexer

def newWithState (reader : Reader) (state : LexerState) (lexerConfig : LexerConfig)
    (errors : Option (List LuaParseError)) : LuaLexer :=
  ⟨reader, lexerConfig, errors, state⟩

def current (l : LuaLexer) : Char := l.reader.current

def bump (l : LuaLexer) : LuaLexer := { l with reader := l.reader.bump }

def resetBuff (l : LuaLexer) : LuaLexer := { l with reader := l.reader.resetBuff }

def eatWhile (l : LuaLexer) (func : Char → Bool) : LuaLexer :=
  { l with reader := (l.reader.eatWhile func).2 }

def setState (l : LuaLexer) (state : LexerState) : LuaLexer := { l with state := state }

def support (l : LuaLexer) (symbol : LuaNonStdSymbol) : Bool :=
  l.lexerConfig.nonStdSymbols.support symbol

def error (l : LuaLexer) (message : String) : LuaLexer :=
  { l with
    errors := l.errors.map fun errors =>
      errors ++ [LuaParseError.syntaxErrorFrom message l.reader.currentRange] }

def nameToKind (l : LuaLexer) (name : String) : LuaTokenKind :=
  match name with
  | "and" => .TkAnd
  | "break" => .TkBreak
  | "do" => .TkDo
  | "else" => .TkElse
  | "elseif" => .TkElseIf
  | "end" => .TkEnd
  | "false" => .TkFalse
  | "for" => .TkFor
  | "function" => .TkFunction
  | "goto" => if l.lexerConfig.supportGoto then .TkGoto else .TkName
  | "if" => .TkIf
  | "in" => .TkIn
  | "local" => .TkLocal
  | "nil" => .TkNil
  | "not" => .TkNot
  | "or" => .TkOr
  | "repeat" => .TkRepeat
  | "return" => .TkReturn
  | "then" => .TkThen
  | "true" => .TkTrue
  | "until" => .TkUntil
  | "while" => .TkWhile
  | "continue" => if l.support .Continue then .TkBreak else .TkName
  | _ => .TkName

/-! ## §2. Line breaks, blanks and names -/

/-- Takes one line break: `\n`, `\r`, `\n\r` or `\r\n`. -/
def lexNewLine (l : LuaLexer) : LuaLexer :=
  if l.current = '\n' then
    if l.bump.current = '\r' then l.bump.bump else l.bump
  else if l.current = '\r' then
    if l.bump.current = '\n' then l.bump.bump else l.bump
  else l

def lexWhiteSpace (l : LuaLexer) : LuaLexer := l.eatWhile fun ch => ch == ' ' || ch == '\t'

/-- Takes the rest of the line. -/
def eatLine (l : LuaLexer) : LuaLexer := l.eatWhile fun ch => !isLineBreak ch

def lexName (l : LuaLexer) : LuaTokenKind × LuaLexer :=
  let l := l.bump.eatWhile l.lexerConfig.isNameContinue
  (l.nameToKind (String.ofList l.reader.currentText), l)

/-! ## §3. Strings -/

/-- One escape of a string, behind its backslash. -/
def lexEscape (l : LuaLexer) : LuaLexer :=
  if l.current = 'z' then
    l.bump.eatWhile fun c => c == ' ' || c == '\t' || c == '\r' || c == '\n'
  else if isLineBreak l.current then l.lexNewLine
  else l.bump

/-! ### The lexer moves its reader by bumps alone -/

/-- The second lexer's reader is the first's after some bumps. -/
def Advances (l l' : LuaLexer) : Prop := l.reader.Advances l'.reader

namespace Advances

variable {l l' : LuaLexer}

theorem refl (l : LuaLexer) : Advances l l := Reader.Advances.refl _

theorem trans {l'' : LuaLexer} (h : Advances l l') (h' : Advances l' l'') : Advances l l'' :=
  Reader.Advances.trans h h'

theorem bump (h : Advances l l') : Advances l l'.bump := Reader.Advances.bump h

theorem eatWhile {func : Char → Bool} (h : Advances l l') : Advances l (l'.eatWhile func) :=
  Reader.Advances.eatWhile h

theorem error {message : String} (h : Advances l l') : Advances l (l'.error message) := h

theorem lexNewLine (h : Advances l l') : Advances l l'.lexNewLine := by
  unfold LuaLexer.lexNewLine
  split_ifs <;> apply_rules [Advances.bump]

theorem lexEscape (h : Advances l l') : Advances l l'.lexEscape := by
  unfold LuaLexer.lexEscape
  split_ifs <;> apply_rules [Advances.bump, Advances.eatWhile, Advances.lexNewLine]

theorem left_le (h : Advances l l') : l'.reader.left ≤ l.reader.left :=
  Reader.Advances.left_le h

end Advances

/-- What follows a bump of a lexer that is not at its end has less ahead. -/
theorem left_lt_of_advances {l l' : LuaLexer} (hne : l.current ≠ EOF)
    (h : Advances l.bump l') : l'.reader.left < l.reader.left :=
  Nat.lt_of_le_of_lt h.left_le (Reader.left_bump_lt l.reader hne)

/-- The body of a string up to its quote, a line break or the end. -/
def stringBody (quote : Char) (l : LuaLexer) : LuaLexer :=
  if _hne : l.current ≠ EOF then
    if l.current = quote ∨ isLineBreak l.current then l
    else if l.current ≠ '\\' then stringBody quote l.bump
    else stringBody quote l.bump.lexEscape
  else l
termination_by l.reader.left
decreasing_by
  · exact left_lt_of_advances _hne (Advances.refl _)
  · exact left_lt_of_advances _hne (Advances.refl _).lexEscape

def lexString (quote : Char) (l : LuaLexer) : LuaTokenKind × LuaLexer :=
  let l := l.stringBody quote
  let l := if l.current = quote ∨ l.current ≠ EOF then l.setState .Normal else l
  if l.current ≠ quote then (.TkString, l.error "unfinished string")
  else (.TkString, l.bump)

/-- The body of a long string; returns whether its end was found. -/
def longStringBody (sep : Nat) (l : LuaLexer) : Bool × LuaLexer :=
  if _hne : l.current ≠ EOF then
    if l.current = ']' then
      let count := (l.bump.reader.eatWhen '=').1
      let l' := l.bump.eatWhile fun c => c == '='
      if count = sep ∧ l'.current = ']' then (true, l'.bump)
      else longStringBody sep l'
    else longStringBody sep l.bump
  else (false, l)
termination_by l.reader.left
decreasing_by
  · exact left_lt_of_advances _hne (Advances.refl _).eatWhile
  · exact left_lt_of_advances _hne (Advances.refl _)

def lexLongString (sep : Nat) (l : LuaLexer) : LuaTokenKind × LuaLexer :=
  let r := l.longStringBody sep
  let l := if r.1 ∨ r.2.current ≠ EOF then r.2.setState .Normal else r.2
  (.TkLongString, if r.1 then l else l.error "unfinished long string or comment")

/-! ## §4. Numbers -/

inductive NumberState where
  | Int
  | Float
  | Hex
  | HexFloat
  | WithExpo
  | Bin
  deriving DecidableEq, Repr

/-- Takes the mark of an exponent if a sign follows it: the digit loop takes the sign. -/
def bumpSign (l : LuaLexer) : LuaLexer :=
  if l.reader.next = '+' ∨ l.reader.next = '-' then l.bump else l

/-- One character of a number: whether it goes on, the state behind it, and the lexer. -/
def numberStep (state : NumberState) (l : LuaLexer) : Bool × NumberState × LuaLexer :=
  let ch := l.current
  match state with
  | .Int =>
    if isAsciiDigit ch then (true, .Int, l)
    else if ch = '.' then (true, .Float, l)
    else if ch = 'e' ∨ ch = 'E' then (true, .WithExpo, l.bumpSign)
    else (false, .Int, l)
  | .Float =>
    if isAsciiDigit ch then (true, .Float, l)
    else if ch = 'e' ∨ ch = 'E' then (true, .WithExpo, l.bumpSign)
    else (false, .Float, l)
  | .Hex =>
    if isHexDigit ch then (true, .Hex, l)
    else if ch = '.' then (true, .HexFloat, l)
    else if ch = 'P' ∨ ch = 'p' then (true, .WithExpo, l.bumpSign)
    else (false, .Hex, l)
  | .HexFloat =>
    if isHexDigit ch then (true, .HexFloat, l)
    else if ch = 'P' ∨ ch = 'p' then (true, .WithExpo, l.bumpSign)
    else (false, .HexFloat, l)
  | .WithExpo => (isAsciiDigit ch, .WithExpo, l)
  | .Bin => (ch == '0' || ch == '1', .Bin, l)

theorem Advances.numberStep {l l' : LuaLexer} {state : NumberState} (h : Advances l l') :
    Advances l (l'.numberStep state).2.2 := by
  have hsign : Advances l l'.bumpSign := by
    unfold LuaLexer.bumpSign
    split_ifs <;> apply_rules [Advances.bump]
  unfold LuaLexer.numberStep
  cases state with
  | WithExpo => exact h
  | Bin => exact h
  | _ => dsimp only; split_ifs <;> assumption

theorem numberStep_left_lt {l : LuaLexer} (state : NumberState) (hne : l.current ≠ EOF) :
    (l.numberStep state).2.2.bump.reader.left < l.reader.left := by
  -- whether the sign was taken or not, the loop's own bump moves on
  have key : ∀ l' : LuaLexer, l' = l ∨ l' = l.bumpSign → l'.bump.reader.left < l.reader.left := by
    intro l' h
    obtain h | h := h
    · rw [h]
      exact left_lt_of_advances hne (.refl _)
    · rw [h]
      unfold LuaLexer.bumpSign
      split_ifs
      · exact left_lt_of_advances hne (Advances.refl _).bump
      · exact left_lt_of_advances hne (.refl _)
  apply key
  unfold LuaLexer.numberStep
  cases state with
  | WithExpo => exact .inl rfl
  | Bin => exact .inl rfl
  | _ => dsimp only; split_ifs <;> simp

def numberBody (state : NumberState) (l : LuaLexer) : NumberState × LuaLexer :=
  if _hne : l.current ≠ EOF then
    let step := l.numberStep state
    if step.1 then numberBody step.2.1 step.2.2.bump else (step.2.1, step.2.2)
  else (state, l)
termination_by l.reader.left
decreasing_by exact numberStep_left_lt state _hne

/-- The state a number starts in, behind its first character and its base. -/
def numberStart (l : LuaLexer) : NumberState × LuaLexer :=
  let first := l.current
  let l := l.bump
  if first = '0' ∧ (l.current = 'X' ∨ l.current = 'x') then (.Hex, l.bump)
  else if first = '0' ∧ (l.current = 'B' ∨ l.current = 'b')
      ∧ l.lexerConfig.supportBinaryInteger then (.Bin, l.bump)
  else if first = '.' then (.Float, l)
  else (.Int, l)

def lexNumber (l : LuaLexer) : LuaTokenKind × LuaLexer :=
  let start := l.numberStart
  let r := start.2.numberBody start.1
  let l := r.2
  if l.lexerConfig.supportComplexNumber ∧ l.current = 'i' then (.TkComplex, l.bump)
  else if l.lexerConfig.supportLlInteger ∧ (r.1 = .Int ∨ r.1 = .Hex ∨ r.1 = .Bin) then
    (.TkInt, l.eatWhile fun ch => ch == 'u' || ch == 'U' || ch == 'l' || ch == 'L')
  else
    let l :=
      if l.lexerConfig.unicode.isAlphabetic l.current then
        l.error ("unexpected character '" ++ l.current.toString ++ "' after number literal")
      else l
    (if r.1 = .Int ∨ r.1 = .Hex then .TkInt else .TkFloat, l)

/-! ## §5. Comments and operators -/

/-- The body of a C comment, behind its opening. -/
def slashStarBody (l : LuaLexer) : LuaLexer :=
  if _hne : l.current ≠ EOF then
    if l.current = '*' then
      if l.bump.current = '/' then l.bump.bump else slashStarBody l.bump
    else slashStarBody l.bump
  else l.error "unfinished long comment"
termination_by l.reader.left
decreasing_by
  all_goals exact left_lt_of_advances _hne (Advances.refl _)

/-- Notes that the language has no integer operators. -/
def noteIntegerOperation (l : LuaLexer) (message : String) : LuaLexer :=
  if l.lexerConfig.supportIntegerOperation then l else l.error message

/-- One character, and `=` behind it where that spells the non-standard `symbol`. -/
def lexAssignable (l : LuaLexer) (symbol : LuaNonStdSymbol) (assign plain : LuaTokenKind) :
    LuaTokenKind × LuaLexer :=
  let l := l.bump
  if l.current = '=' ∧ l.support symbol then (assign, l.bump) else (plain, l)

/-- One character, and `second` behind it if it is there. -/
def lexPair (l : LuaLexer) (second : Char) (both single : LuaTokenKind) : LuaTokenKind × LuaLexer :=
  let l := l.bump
  if l.current ≠ second then (single, l) else (both, l.bump)

def lexMinus (l : LuaLexer) : LuaTokenKind × LuaLexer :=
  let l := l.bump
  if l.current = '=' ∧ l.support .MinusAssign then (.TkMinusAssign, l.bump)
  else if l.current ≠ '-' then (.TkMinus, l)
  else
    let l := l.bump
    if l.current = '[' then
      let l := l.bump
      let sep := (l.reader.eatWhen '=').1
      let l := l.eatWhile fun c => c == '='
      if l.current = '[' then
        (.TkLongComment, (lexLongString sep (l.bump.setState (.LongComment sep))).2)
      else (.TkShortComment, l.eatLine)
    else (.TkShortComment, l.eatLine)

def lexLeftBracket (l : LuaLexer) : LuaTokenKind × LuaLexer :=
  let l := l.bump
  let sep := (l.reader.eatWhen '=').1
  let l := l.eatWhile fun c => c == '='
  if sep = 0 ∧ l.current ≠ '[' then (.TkLeftBracket, l)
  else if l.current ≠ '[' then (.TkLongString, l.error "invalid long string delimiter")
  else lexLongString sep (l.bump.setState (.LongString sep))

/-- `<`, `<=`, `<<` and `<<=`, or the same with `>`. -/
def lexAngle (l : LuaLexer) (angle : Char) (symbol : LuaNonStdSymbol)
    (orEqual shift shiftAssign single : LuaTokenKind) : LuaTokenKind × LuaLexer :=
  let l := l.bump
  if l.current = '=' then (orEqual, l.bump)
  else if l.current = angle then
    (l.noteIntegerOperation "bitwise operation is not supported").lexAssignable symbol
      shiftAssign shift
  else (single, l)

def lexTilde (l : LuaLexer) : LuaTokenKind × LuaLexer :=
  let l := l.bump
  if l.current ≠ '=' then
    (.TkBitXor, l.noteIntegerOperation "bitwise operation is not supported")
  else (.TkNe, l.bump)

def lexQuote (l : LuaLexer) : LuaTokenKind × LuaLexer :=
  let quote := l.current
  if quote = '\x60' ∧ ¬ l.support .Backtick then (.TkUnknown, l.bump)
  else lexString quote (l.bump.setState (.String quote))

def lexDot (l : LuaLexer) : LuaTokenKind × LuaLexer :=
  if isAsciiDigit l.reader.next then l.lexNumber
  else
    let l := l.bump
    if l.current ≠ '.' then (.TkDot, l)
    else if l.bump.current ≠ '.' then (.TkConcat, l.bump)
    else (.TkDots, l.bump.bump)

def lexSlash (l : LuaLexer) : LuaTokenKind × LuaLexer :=
  let l := l.bump
  if l.current = '*' ∧ l.support .SlashStar then (.TkLongComment, l.bump.slashStarBody)
  else if l.current = '=' ∧ l.support .SlashAssign then (.TkSlashAssign, l.bump)
  else if l.current ≠ '/' then (.TkDiv, l)
  else if l.support .DoubleSlash then (.TkShortComment, l.bump.eatLine)
  else
    (l.noteIntegerOperation "integer division is not supported").lexAssignable
      .DoubleSlashAssign .TkDoubleSlashAssign .TkIDiv

def lexExclamation (l : LuaLexer) : LuaTokenKind × LuaLexer :=
  if ¬ l.support .Exclamation then (.TkUnknown, l.bump)
  else l.lexAssignable .NotEqual .TkNe .TkNot

/-- `&` or `|`, doubled or before `=`. -/
def lexLogic (l : LuaLexer) (sign : Char) (double assign : LuaNonStdSymbol)
    (logic assigned bitwise : LuaTokenKind) : LuaTokenKind × LuaLexer :=
  let l := l.bump
  if l.current = sign ∧ l.support double then (logic, l.bump)
  else if l.current = '=' ∧ l.support assign then (assigned, l.bump)
  else (bitwise, l.noteIntegerOperation "bitwise operation is not supported")

/-- The tokens that are one character whatever follows. -/
def singleKind (ch : Char) : Option LuaTokenKind :=
  if ch = '#' then some .TkLen
  else if ch = '(' then some .TkLeftParen
  else if ch = ')' then some .TkRightParen
  else if ch = '\x7b' then some .TkLeftBrace
  else if ch = '\x7d' then some .TkRightBrace
  else if ch = ']' then some .TkRightBracket
  else if ch = ';' then some .TkSemicolon
  else if ch = ',' then some .TkComma
  else if ch = '@' then some .TkAt
  else none

/-- The tokens that start with an operator other than those of one character. -/
def lexOperator (l : LuaLexer) : Option (LuaTokenKind × LuaLexer) :=
  let ch := l.current
  if ch = '-' then some l.lexMinus
  else if ch = '[' then some l.lexLeftBracket
  else if ch = '=' then some (l.lexPair '=' .TkEq .TkAssign)
  else if ch = '<' then
    some (l.lexAngle '<' .ShiftLeftAssign .TkLe .TkShl .TkShiftLeftAssign .TkLt)
  else if ch = '>' then
    some (l.lexAngle '>' .ShiftRightAssign .TkGe .TkShr .TkShiftRightAssign .TkGt)
  else if ch = '~' then some l.lexTilde
  else if ch = ':' then some (l.lexPair ':' .TkDbColon .TkColon)
  else if ch = '.' then some l.lexDot
  else if ch = '/' then some l.lexSlash
  else if ch = '*' then some (l.lexAssignable .StarAssign .TkStarAssign .TkMul)
  else if ch = '+' then some (l.lexAssignable .PlusAssign .TkPlusAssign .TkPlus)
  else if ch = '%' then some (l.lexAssignable .PercentAssign .TkPercentAssign .TkMod)
  else if ch = '^' then some (l.lexAssignable .CaretAssign .TkCaretAssign .TkPow)
  else if ch = '!' then some l.lexExclamation
  else if ch = '&' then
    some (l.lexLogic '&' .DoubleAmp .AmpAssign .TkAnd .TkAmpAssign .TkBitAnd)
  else if ch = '|' then
    some (l.lexLogic '|' .DoublePipe .PipeAssign .TkOr .TkPipeAssign .TkBitOr)
  else none

/-! ## §6. One token, and all of them -/

/-- The token that starts at the current character. -/
def lexToken (l : LuaLexer) : LuaTokenKind × LuaLexer :=
  let ch := l.current
  if isLineBreak ch then (.TkEndOfLine, l.lexNewLine)
  else if ch = ' ' ∨ ch = '\t' then (.TkWhitespace, l.lexWhiteSpace)
  else if ch = '"' ∨ ch = '\'' ∨ ch = '\x60' then l.lexQuote
  else if isAsciiDigit ch then l.lexNumber
  else match l.lexOperator with
    | some r => r
    | none =>
      match singleKind ch with
      | some kind => (kind, l.bump)
      | none =>
        if ch = EOF then (.TkEof, l)
        else if l.lexerConfig.isNameStart ch then l.lexName
        else (.TkUnknown, l.bump)

/-- One token in the normal state: it starts a new buffer. -/
def lex (l : LuaLexer) : LuaTokenKind × LuaLexer := l.resetBuff.lexToken

/-- One token in the state the lexer is in. -/
def lexInState (l : LuaLexer) : LuaTokenKind × LuaLexer :=
  match l.state with
  | .Normal => l.lex
  | .String quote => l.lexString quote
  | .LongString sep => l.lexLongString sep
  | .LongComment sep => (.TkLongComment, (l.lexLongString sep).2)

/-! ### Every token moves the reader by bumps alone -/

namespace Advances

variable {l l' : LuaLexer}

theorem stringBody {quote : Char} (h : Advances l l') : Advances l (l'.stringBody quote) := by
  apply h.trans
  clear h
  induction l' using LuaLexer.stringBody.induct quote with
  | case1 l hne hq => rw [LuaLexer.stringBody, dif_pos hne, if_pos hq]; exact refl l
  | case2 l hne hq hb ih =>
    rw [LuaLexer.stringBody, dif_pos hne, if_neg hq, if_pos hb]
    exact (refl l).bump.trans ih
  | case3 l hne hq hb ih =>
    rw [LuaLexer.stringBody, dif_pos hne, if_neg hq, if_neg hb]
    exact (refl l).bump.lexEscape.trans ih
  | case4 l hne => rw [LuaLexer.stringBody, dif_neg hne]; exact refl l

theorem lexString {quote : Char} (h : Advances l l') : Advances l (l'.lexString quote).2 := by
  have hb : Advances l (l'.stringBody quote) := h.stringBody
  unfold LuaLexer.lexString
  dsimp only
  split_ifs <;> apply_rules [Advances.bump, Advances.error]

theorem longStringBody {sep : Nat} (h : Advances l l') : Advances l (l'.longStringBody sep).2 := by
  apply h.trans
  clear h
  induction l' using LuaLexer.longStringBody.induct sep with
  | case1 l hne hb _ _ hend =>
    rw [LuaLexer.longStringBody, dif_pos hne, if_pos hb]
    rw [if_pos hend]
    exact (refl l).bump.eatWhile.bump
  | case2 l hne hb _ _ hend ih =>
    rw [LuaLexer.longStringBody, dif_pos hne, if_pos hb]
    rw [if_neg hend]
    exact (refl l).bump.eatWhile.trans ih
  | case3 l hne hb ih =>
    rw [LuaLexer.longStringBody, dif_pos hne, if_neg hb]
    exact (refl l).bump.trans ih
  | case4 l hne => rw [LuaLexer.longStringBody, dif_neg hne]; exact refl l

theorem lexLongString {sep : Nat} (h : Advances l l') : Advances l (l'.lexLongString sep).2 := by
  have hb : Advances l (l'.longStringBody sep).2 := h.longStringBody
  unfold LuaLexer.lexLongString
  dsimp only
  split_ifs <;> apply_rules [Advances.error]

theorem numberBody (h : Advances l l') (state : NumberState) :
    Advances l (l'.numberBody state).2 := by
  apply h.trans
  clear h
  induction state, l' using LuaLexer.numberBody.induct with
  | case1 state l hne _ hgo ih =>
    rw [LuaLexer.numberBody, dif_pos hne]
    rw [if_pos hgo]
    exact (refl l).numberStep.bump.trans ih
  | case2 state l hne _ hgo =>
    rw [LuaLexer.numberBody, dif_pos hne]
    rw [if_neg hgo]
    exact (refl l).numberStep
  | case3 state l hne => rw [LuaLexer.numberBody, dif_neg hne]; exact refl l

theorem slashStarBody (h : Advances l l') : Advances l l'.slashStarBody := by
  apply h.trans
  clear h
  induction l' using LuaLexer.slashStarBody.induct with
  | case1 l hne hs he =>
    rw [LuaLexer.slashStarBody, dif_pos hne, if_pos hs, if_pos he]
    exact (refl l).bump.bump
  | case2 l hne hs he ih =>
    rw [LuaLexer.slashStarBody, dif_pos hne, if_pos hs, if_neg he]
    exact (refl l).bump.trans ih
  | case3 l hne hs ih =>
    rw [LuaLexer.slashStarBody, dif_pos hne, if_neg hs]
    exact (refl l).bump.trans ih
  | case4 l hne => rw [LuaLexer.slashStarBody, dif_neg hne]; exact (refl l).error

theorem lexAssignable {symbol : LuaNonStdSymbol} {assign plain : LuaTokenKind}
    (h : Advances l l'.bump) : Advances l (l'.lexAssignable symbol assign plain).2 := by
  unfold LuaLexer.lexAssignable
  dsimp only
  split_ifs <;> apply_rules [Advances.bump]

theorem lexNumber (h : Advances l l'.bump) : Advances l l'.lexNumber.2 := by
  have hs : Advances l l'.numberStart.2 := by
    unfold LuaLexer.numberStart
    dsimp only
    split_ifs <;> apply_rules [Advances.bump]
  have hb := hs.numberBody l'.numberStart.1
  unfold LuaLexer.lexNumber
  dsimp only
  split_ifs <;> apply_rules [Advances.bump, Advances.eatWhile, Advances.error]

theorem lexMinus (h : Advances l l'.bump) : Advances l l'.lexMinus.2 := by
  unfold LuaLexer.lexMinus LuaLexer.eatLine
  dsimp only
  split_ifs <;>
    apply_rules [Advances.bump, Advances.eatWhile, Advances.lexLongString]

theorem lexLeftBracket (h : Advances l l'.bump) : Advances l l'.lexLeftBracket.2 := by
  unfold LuaLexer.lexLeftBracket
  dsimp only
  split_ifs <;>
    apply_rules [Advances.bump, Advances.eatWhile, Advances.lexLongString, Advances.error]

theorem lexAngle {angle : Char} {symbol : LuaNonStdSymbol} {k₁ k₂ k₃ k₄ : LuaTokenKind}
    (h : Advances l l'.bump) : Advances l (l'.lexAngle angle symbol k₁ k₂ k₃ k₄).2 := by
  unfold LuaLexer.lexAngle
  dsimp only
  split_ifs <;> apply_rules [Advances.bump, Advances.lexAssignable]

theorem lexQuote (h : Advances l l'.bump) : Advances l l'.lexQuote.2 := by
  unfold LuaLexer.lexQuote
  dsimp only
  split_ifs <;> apply_rules [Advances.lexString]

theorem lexSlash (h : Advances l l'.bump) : Advances l l'.lexSlash.2 := by
  unfold LuaLexer.lexSlash LuaLexer.eatLine
  dsimp only
  split_ifs <;>
    apply_rules [Advances.bump, Advances.eatWhile, Advances.slashStarBody, Advances.lexAssignable]

theorem lexPair {second : Char} {both single : LuaTokenKind} (h : Advances l l'.bump) :
    Advances l (l'.lexPair second both single).2 := by
  unfold LuaLexer.lexPair
  dsimp only
  split_ifs <;> apply_rules [Advances.bump]

theorem lexTilde (h : Advances l l'.bump) : Advances l l'.lexTilde.2 := by
  unfold LuaLexer.lexTilde
  dsimp only
  split_ifs <;> apply_rules [Advances.bump]

theorem lexDot (h : Advances l l'.bump) : Advances l l'.lexDot.2 := by
  unfold LuaLexer.lexDot
  dsimp only
  split_ifs <;> apply_rules [Advances.bump, Advances.lexNumber]

theorem lexExclamation (h : Advances l l'.bump) : Advances l l'.lexExclamation.2 := by
  unfold LuaLexer.lexExclamation
  split_ifs <;> apply_rules [Advances.lexAssignable]

theorem lexLogic {sign : Char} {double assign : LuaNonStdSymbol} {k₁ k₂ k₃ : LuaTokenKind}
    (h : Advances l l'.bump) : Advances l (l'.lexLogic sign double assign k₁ k₂ k₃).2 := by
  unfold LuaLexer.lexLogic
  dsimp only
  split_ifs <;> apply_rules [Advances.bump]

end Advances

end LuaLexer

end GluaLs.Syntax
