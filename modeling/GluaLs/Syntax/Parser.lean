/-
  GluaLs.Syntax.Parser — the parser's state, its markers and its token cursor
  (`glua_parser/src/parser/{marker, lua_parser, parser_config}.rs`).

  A grammar rule opens a node with `mark`, eats tokens with `bump` and closes the node with
  `Marker.complete`; all of it is a list of events, from which the tree is built later.  A
  rule may go wrong in two ways that are not in its result: the source PANICS (an index out
  of range, a level below zero), or a loop of the model runs out of its turns.  Both stop
  the program (`Stop`).

  The doc-comment parser is a parameter (`DocParser`); it plays no part where the
  configuration turns doc comments off.  What is left of the stack is asked of an oracle
  that may answer anything at each check.
-/
import GluaLs.Lib.Runs
import GluaLs.Syntax.Lexer

namespace GluaLs.Syntax

open GluaLs.Lib

/-! ## §1. Events and the state -/

inductive MarkEvent where
  | NodeStart (kind : LuaSyntaxKind) (parent : Nat)
  | EatToken (kind : LuaTokenKind) (range : SourceRange)
  | NodeEnd
  | Trivia
  deriving DecidableEq

inductive SpecialFunction where
  | None
  | Require
  | Error
  | Assert
  | Type
  | Setmetaatable
  deriving DecidableEq, Repr

structure ParserConfig where
  level : LuaLanguageLevel
  specialLike : String → Option SpecialFunction
  enableEmmyluaDoc : Bool

namespace ParserConfig

/-- GMod's Lua has no `<const>` and `<close>` attributes. -/
def supportLocalAttrib (_config : ParserConfig) : Bool := false

def supportEmmyluaDoc (config : ParserConfig) : Bool := config.enableEmmyluaDoc

/-- GMod's Lua has no named varargs. -/
def supportNamedVarArgs (_config : ParserConfig) : Bool := false

def getSpecialFunction (config : ParserConfig) (name : String) : SpecialFunction :=
  match name with
  | "require" => .Require
  | "error" => .Error
  | "assert" => .Assert
  | "type" => .Type
  | "setmetatable" => .Setmetaatable
  | _ => (config.specialLike name).getD .None

end ParserConfig

/-- How a run can end other than by returning. -/
inductive Stop where
  | panic
  | outOfTurns
  deriving DecidableEq, Repr

/-- The parser.  `text` is the source text the ranges of the tokens lie in, `exhausted` the
    answer of each check of the stack and `checks` how many were made. -/
structure LuaParser where
  text : List Char
  events : List MarkEvent
  tokens : List LuaTokenData
  tokenIndex : Nat
  currentToken : LuaTokenKind
  markLevel : Nat
  parseConfig : ParserConfig
  errors : List LuaParseError
  exhausted : Nat → Bool
  checks : Nat

/-- The parser as `parse` makes it, behind the lexer. -/
def LuaParser.new (text : List Char) (tokens : List LuaTokenData) (config : ParserConfig)
    (errors : List LuaParseError) (exhausted : Nat → Bool) : LuaParser where
  text := text
  events := []
  tokens := tokens
  tokenIndex := 0
  currentToken := .None
  markLevel := 0
  parseConfig := config
  errors := errors
  exhausted := exhausted
  checks := 0

/-- What a grammar rule does. -/
abbrev Parse (α : Type) : Type := Prog LuaParser Stop α

/-- Parses the tokens of a comment group. -/
abbrev DocParser : Type := List LuaTokenData → Parse Unit

inductive ParseFailReason where
  | Eof
  | UnexpectedToken
  deriving DecidableEq, Repr

structure Marker where
  position : Nat

structure CompleteMarker where
  start : Nat
  kind : LuaSyntaxKind

abbrev ParseResult : Type := Except ParseFailReason CompleteMarker

/-- `m?`: goes on with what `m` returns, or returns the reason it failed for. -/
def propagate {α β : Type} (m : Parse (Except ParseFailReason α))
    (k : α → Parse (Except ParseFailReason β)) : Parse (Except ParseFailReason β) := do
  let r ← m
  match r with
  | .ok a => k a
  | .error reason => pure (.error reason)

/-- `if c { m }` -/
def onlyIf (c : Prop) [Decidable c] (m : Parse Unit) : Parse Unit := if c then m else pure ()

/-- `if let Err(_) = r { m }` -/
def onError {ε α : Type} (r : Except ε α) (m : Parse Unit) : Parse Unit :=
  match r with
  | .ok _ => pure ()
  | .error _ => m

/-! ## §2. Markers -/

def mark (kind : LuaSyntaxKind) : Parse Marker := do
  let p ← get
  set { p with events := p.events ++ [MarkEvent.NodeStart kind 0], markLevel := p.markLevel + 1 }
  pure ⟨p.events.length⟩

/-- Closes a node; a level below zero panics. -/
def pushNodeEnd : Parse Unit := do
  let p ← get
  if p.markLevel = 0 then throw .panic
  else set { p with events := p.events ++ [MarkEvent.NodeEnd], markLevel := p.markLevel - 1 }

/-- Rewrites the node start at `position`; anything else there is unreachable. -/
def modifyStart (position : Nat) (f : LuaSyntaxKind → Nat → MarkEvent) : Parse LuaSyntaxKind := do
  let p ← get
  match p.events[position]? with
  | some (.NodeStart kind parent) =>
    set { p with events := p.events.set position (f kind parent) }
    pure kind
  | _ => throw .panic

namespace Marker

def setKind (m : Marker) (kind : LuaSyntaxKind) : Parse Unit := do
  let _ ← modifyStart m.position fun _ parent => .NodeStart kind parent

/-- Closes the node; one without any event since its start is given up instead. -/
def complete (m : Marker) : Parse CompleteMarker := do
  let kind ← modifyStart m.position fun kind parent => .NodeStart kind parent
  let p ← get
  if p.events.length = m.position + 1 then
    m.setKind .None
    pure ⟨0, .None⟩
  else
    pushNodeEnd
    pure ⟨m.position, kind⟩

/-- Gives the node up. -/
def undo (m : Marker) : Parse CompleteMarker := do
  m.setKind .None
  pure ⟨m.position, .None⟩

end Marker

namespace CompleteMarker

/-- Opens a node that starts where this one did. -/
def precede (cm : CompleteMarker) (kind : LuaSyntaxKind) : Parse Marker := do
  let m ← mark kind
  let _ ← modifyStart cm.start fun kind _ => .NodeStart kind m.position
  modify fun p => { p with events := p.events ++ [MarkEvent.Trivia] }
  pure m

def empty : CompleteMarker := ⟨0, .None⟩

end CompleteMarker

/-! ## §3. The token cursor -/

def isTriviaKind : LuaTokenKind → Bool
  | .TkShortComment | .TkLongComment | .TkEndOfLine | .TkWhitespace | .TkShebang => true
  | _ => false

def isInvalidKind : LuaTokenKind → Bool
  | .None | .TkEof | .TkWhitespace | .TkShebang | .TkEndOfLine | .TkShortComment
  | .TkLongComment => true
  | _ => false

def eatToken (token : LuaTokenData) : MarkEvent := .EatToken token.kind token.range

def pushEvents (events : List MarkEvent) : Parse Unit :=
  modify fun p => { p with events := p.events ++ events }

/-- `self.tokens[i]` -/
def tokenAt (i : Nat) : Parse LuaTokenData := do
  let p ← get
  match p.tokens[i]? with
  | some token => pure token
  | none => throw .panic

/-- The first index from `index` on that holds no trivia. -/
def skipTrivia (tokens : List LuaTokenData) (index : Nat) : Nat :=
  index + ((tokens.drop index).takeWhile fun token => isTriviaKind token.kind).length

/-- Parses a comment group, or eats its tokens as they are. -/
def parseComments (doc : DocParser) (commentTokens : List LuaTokenData) : Parse Unit := do
  let p ← get
  if !p.parseConfig.supportEmmyluaDoc then pushEvents (commentTokens.map eatToken)
  else
    -- the blanks and line breaks behind the last comment stay outside the group
    let trailing := (commentTokens.reverse.takeWhile fun token =>
      token.kind == .TkWhitespace || token.kind == .TkEndOfLine).length
    let triviaTokenStart := commentTokens.length - trailing
    doc (commentTokens.take triviaTokenStart)
    pushEvents ((commentTokens.drop triviaTokenStart).map eatToken)

/-- Whether a comment stands behind something on its line: the first token before `index`
    that is no blank is no line break either. -/
def isInlineComment (tokens : List LuaTokenData) (index : Nat) : Bool :=
  match (tokens.take index).reverse.dropWhile fun token => token.kind == .TkWhitespace with
  | [] => false
  | token :: _ => token.kind != .TkEndOfLine

/-- One token of `parse_trivia_tokens`, at index `i`: the line breaks since the last comment
    and the comment group collected so far. -/
def parseTriviaToken (doc : DocParser) (i : Nat) (token : LuaTokenData)
    (acc : Nat × List LuaTokenData) : Parse (Nat × List LuaTokenData) := do
  let (lineCount, docTokens) := acc
  match token.kind with
  | .TkShortComment | .TkLongComment => pure (0, docTokens ++ [token])
  | .TkEndOfLine =>
    let docTokens' := if docTokens = [] then docTokens else docTokens ++ [token]
    if docTokens = [] then pushEvents [eatToken token]
    let p ← get
    -- two line breaks behind a comment end its group
    if lineCount + 1 > 1 ∧ docTokens' ≠ [] then
      parseComments doc docTokens'
      pure (lineCount + 1, [])
    else if docTokens'.length = 2 ∧ i ≥ 2 ∧ isInlineComment p.tokens (i - 1) then
      parseComments doc docTokens'
      pure (lineCount + 1, [])
    else pure (lineCount + 1, docTokens')
  | .TkShebang | .TkWhitespace =>
    if docTokens = [] then do
      pushEvents [eatToken token]
      pure (lineCount, docTokens)
    else pure (lineCount, docTokens ++ [token])
  | _ =>
    if docTokens ≠ [] then do
      parseComments doc docTokens
      pure (lineCount, [])
    else pure (lineCount, docTokens)

/-- The tokens from `start` on, `count` of them. -/
def parseTriviaFrom (doc : DocParser) : Nat → Nat → Nat × List LuaTokenData →
    Parse (Nat × List LuaTokenData)
  | _, 0, acc => pure acc
  | start, count + 1, acc => do
      let token ← tokenAt start
      let acc ← parseTriviaToken doc start token acc
      parseTriviaFrom doc (start + 1) count acc

/-- Goes over the trivia before `nextIndex`. -/
def parseTriviaTokens (doc : DocParser) (nextIndex : Nat) : Parse Unit := do
  let p ← get
  let acc ← parseTriviaFrom doc p.tokenIndex (nextIndex - p.tokenIndex) (0, [])
  if acc.2 ≠ [] then parseComments doc acc.2

/-- Eats the current token, unless it is trivia or none. -/
def eatCurrent : Parse Unit := do
  let p ← get
  if !isInvalidKind p.currentToken then
    match p.tokens[p.tokenIndex]? with
    | some token => pushEvents [eatToken token]
    | none => pure ()

/-- Eats the current token and the trivia behind it. -/
def bump (doc : DocParser) : Parse Unit := do
  let p ← get
  eatCurrent
  let nextIndex := skipTrivia p.tokens (p.tokenIndex + 1)
  parseTriviaTokens doc nextIndex
  modify fun p => { p with
    tokenIndex := nextIndex
    currentToken := match p.tokens[nextIndex]? with
      | some token => token.kind
      | none => .TkEof }

def init (doc : DocParser) : Parse Unit := do
  modify fun p => { p with
    currentToken := match p.tokens[0]? with
      | some token => token.kind
      | none => .TkEof }
  let p ← get
  if isTriviaKind p.currentToken then bump doc

def currentToken : Parse LuaTokenKind := do
  let p ← get
  pure p.currentToken

/-- The range of the current token, of the last one behind the end. -/
def LuaParser.currentRange (p : LuaParser) : SourceRange :=
  match p.tokens[p.tokenIndex]? with
  | some token => token.range
  | none =>
    match p.tokens.getLast? with
    | some token => token.range
    | none => .EMPTY

def currentTokenRange : Parse SourceRange := do
  let p ← get
  pure p.currentRange

/-- The range of the last token before the current one that is no trivia, or else of the
    first token. -/
def previousTokenRange : Parse SourceRange := do
  let p ← get
  if p.tokenIndex = 0 ∨ p.tokens = [] then pure .EMPTY
  else if p.tokenIndex > p.tokens.length then throw .panic
  else
    match (p.tokens.take p.tokenIndex).reverse.find? fun token => !isTriviaKind token.kind with
    | some token => pure token.range
    | none => do
        let token ← tokenAt 0
        pure token.range

def peekNextToken : Parse LuaTokenKind := do
  let p ← get
  match p.tokens[skipTrivia p.tokens (p.tokenIndex + 1)]? with
  | some token => pure token.kind
  | none => pure .None

/-- `text.is_char_boundary(offset)` -/
def isCharBoundary : List Char → Nat → Bool
  | [], offset => offset == 0
  | c :: rest, offset =>
    offset == 0 || (decide (c.utf8Size ≤ offset) && isCharBoundary rest (offset - c.utf8Size))

/-- The range can be cut out of the text. -/
def inText (text : List Char) (range : SourceRange) : Bool :=
  isCharBoundary text range.startOffset && isCharBoundary text range.endOffset

/-- The text of the current token; there is one, and its range lies in the text. -/
def currentTokenText : Parse String := do
  let p ← get
  let token ← tokenAt p.tokenIndex
  if inText p.text token.range then pure (String.ofList (slice p.text token.range))
  else throw .panic

def pushError (message : String) (range : SourceRange) : Parse Unit :=
  modify fun p => { p with
    errors := p.errors ++ [LuaParseError.syntaxErrorFrom message range] }

/-- Pushes an error at the current token. -/
def pushErrorHere (message : String) : Parse Unit := do
  let range ← currentTokenRange
  pushError message range

/-- Asks what is left of the stack. -/
def parserStackExhausted : Parse Bool := do
  let p ← get
  set { p with checks := p.checks + 1 }
  pure (p.exhausted p.checks)

end GluaLs.Syntax
