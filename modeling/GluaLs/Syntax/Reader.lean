/-
  GluaLs.Syntax.Reader — reading a source text character by character
  (`glua_parser/src/text/{text_range, reader}.rs`).

  The reader keeps the current and the next character; what lies behind them is left in
  the iterator `chars`.  The end of the text is IN BAND: the character NUL stands for it, so
  a text that holds one reads as if it ended there.

  A reader `At pre buf rest` has passed `pre`, has `buf` in its buffer and `rest` ahead of
  it.  Every function of the lexer moves the reader by `bump` alone (`Advances`), which
  takes a word without NUL off `rest` (`Advances.at_eaten`).
-/
import Mathlib.Algebra.GroupWithZero.Nat
import Mathlib.Data.List.Basic
import Mathlib.Logic.Basic
import Mathlib.Logic.Function.Iterate
import GluaLs.Lib.TextPosition

namespace GluaLs.Syntax

open GluaLs.Lib (byteLen byteLen_cons)

/-! ## §1. Token and node kinds -/

/-- Every token of Lua and of doc comments, in the source's order. -/
inductive LuaTokenKind where
  | None | TkAnd | TkBreak | TkDo | TkElse | TkElseIf | TkEnd | TkFalse | TkFor | TkFunction
  | TkGoto | TkIf | TkIn | TkLocal | TkNil | TkNot | TkOr | TkRepeat | TkReturn | TkThen | TkTrue
  | TkUntil | TkWhile | TkGlobal | TkWhitespace | TkEndOfLine | TkPlus | TkMinus | TkMul | TkDiv
  | TkIDiv | TkDot | TkConcat | TkDots | TkComma | TkAssign | TkEq | TkGe | TkLe | TkNe | TkShl
  | TkShr | TkLt | TkGt | TkMod | TkPow | TkLen | TkBitAnd | TkBitOr | TkBitXor | TkColon
  | TkDbColon | TkSemicolon | TkPlusAssign | TkMinusAssign | TkStarAssign | TkSlashAssign
  | TkPercentAssign | TkCaretAssign | TkDoubleSlashAssign | TkPipeAssign | TkAmpAssign
  | TkShiftLeftAssign | TkShiftRightAssign | TkLeftBracket | TkRightBracket | TkLeftParen
  | TkRightParen | TkLeftBrace | TkRightBrace | TkComplex | TkInt | TkFloat | TkName | TkString
  | TkLongString | TkShortComment | TkLongComment | TkShebang | TkEof | TkUnknown | TkNormalStart
  | TkLongCommentStart | TkDocLongStart | TkDocStart | TKDocTriviaStart | TkDocTrivia
  | TkLongCommentEnd | TKNonStdComment | TkTagClass | TkTagEnum | TkTagInterface | TkTagAlias
  | TkTagModule | TkTagField | TkTagType | TkTagParam | TkTagReturn | TkTagOverload
  | TkTagGeneric | TkTagSee | TkTagDeprecated | TkTagAsync | TkTagCast | TkTagOther
  | TkTagVisibility | TkTagReadonly | TkTagDiagnostic | TkTagMeta | TkTagVersion | TkTagAs
  | TkTagNodiscard | TkTagOperator | TkTagMapping | TkTagNamespace | TkTagUsing | TkTagSource
  | TkTagReturnCast | TkTagExport | TkLanguage | TKTagSchema | TkTagAttribute | TkTagRealm
  | TkTagFileparam | TkTagOutparam | TkCallGeneric | TkDocOr | TkDocAnd | TkDocKeyOf
  | TkDocExtends | TkDocNew | TkDocAs | TkDocIn | TkDocInfer | TkDocElse | TkDocContinue
  | TkDocContinueOr | TkDocDetail | TkDocQuestion | TkDocVisibility | TkDocReadonly | TkAt
  | TkDocVersionNumber | TkStringTemplateType | TkDocMatch | TKDocPath | TkDocRegion
  | TkDocEndRegion | TkDocSeeContent | TkDocAttributeUse
  deriving DecidableEq

namespace LuaTokenKind

/-- The names the source prints kinds with, in the order of the kinds. -/
def names : List String :=
  ["None", "TkAnd", "TkBreak", "TkDo", "TkElse", "TkElseIf", "TkEnd", "TkFalse", "TkFor",
   "TkFunction", "TkGoto", "TkIf", "TkIn", "TkLocal", "TkNil", "TkNot", "TkOr", "TkRepeat",
   "TkReturn", "TkThen", "TkTrue", "TkUntil", "TkWhile", "TkGlobal", "TkWhitespace",
   "TkEndOfLine", "TkPlus", "TkMinus", "TkMul", "TkDiv", "TkIDiv", "TkDot", "TkConcat", "TkDots",
   "TkComma", "TkAssign", "TkEq", "TkGe", "TkLe", "TkNe", "TkShl", "TkShr", "TkLt", "TkGt",
   "TkMod", "TkPow", "TkLen", "TkBitAnd", "TkBitOr", "TkBitXor", "TkColon", "TkDbColon",
   "TkSemicolon", "TkPlusAssign", "TkMinusAssign", "TkStarAssign", "TkSlashAssign",
   "TkPercentAssign", "TkCaretAssign", "TkDoubleSlashAssign", "TkPipeAssign", "TkAmpAssign",
   "TkShiftLeftAssign", "TkShiftRightAssign", "TkLeftBracket", "TkRightBracket", "TkLeftParen",
   "TkRightParen", "TkLeftBrace", "TkRightBrace", "TkComplex", "TkInt", "TkFloat", "TkName",
   "TkString", "TkLongString", "TkShortComment", "TkLongComment", "TkShebang", "TkEof",
   "TkUnknown", "TkNormalStart", "TkLongCommentStart", "TkDocLongStart", "TkDocStart",
   "TKDocTriviaStart", "TkDocTrivia", "TkLongCommentEnd", "TKNonStdComment", "TkTagClass",
   "TkTagEnum", "TkTagInterface", "TkTagAlias", "TkTagModule", "TkTagField", "TkTagType",
   "TkTagParam", "TkTagReturn", "TkTagOverload", "TkTagGeneric", "TkTagSee", "TkTagDeprecated",
   "TkTagAsync", "TkTagCast", "TkTagOther", "TkTagVisibility", "TkTagReadonly",
   "TkTagDiagnostic", "TkTagMeta", "TkTagVersion", "TkTagAs", "TkTagNodiscard", "TkTagOperator",
   "TkTagMapping", "TkTagNamespace", "TkTagUsing", "TkTagSource", "TkTagReturnCast",
   "TkTagExport", "TkLanguage", "TKTagSchema", "TkTagAttribute", "TkTagRealm", "TkTagFileparam",
   "TkTagOutparam", "TkCallGeneric", "TkDocOr", "TkDocAnd", "TkDocKeyOf", "TkDocExtends",
   "TkDocNew", "TkDocAs", "TkDocIn", "TkDocInfer", "TkDocElse", "TkDocContinue",
   "TkDocContinueOr", "TkDocDetail", "TkDocQuestion", "TkDocVisibility", "TkDocReadonly", "TkAt",
   "TkDocVersionNumber", "TkStringTemplateType", "TkDocMatch", "TKDocPath", "TkDocRegion",
   "TkDocEndRegion", "TkDocSeeContent", "TkDocAttributeUse"]

def toString (kind : LuaTokenKind) : String := names.getD kind.ctorIdx ""

end LuaTokenKind

/-- Every node of the syntax tree; `None` is a node that was opened and given up. -/
inductive LuaSyntaxKind where
  | None | Chunk | Block | EmptyStat | LocalStat | LocalFuncStat | IfStat | ElseIfClauseStat
  | ElseClauseStat | WhileStat | DoStat | ForStat | ForRangeStat | RepeatStat | FuncStat
  | LabelStat | BreakStat | ReturnStat | GotoStat | CallExprStat | AssignStat | GlobalStat
  | UnknownStat | ParenExpr | LiteralExpr | ClosureExpr | UnaryExpr | BinaryExpr | TableArrayExpr
  | TableObjectExpr | TableEmptyExpr | CallExpr | RequireCallExpr | ErrorCallExpr
  | AssertCallExpr | TypeCallExpr | SetmetatableCallExpr | IndexExpr | NameExpr | LocalName
  | ParamName | ParamList | CallArgList | TableFieldAssign | TableFieldValue | Attribute
  | Comment | DocTagClass | DocTagEnum | DocTagInterface | DocTagAlias | DocTagField | DocTagType
  | DocTagParam | DocTagReturn | DocTagGeneric | DocTagSee | DocTagDeprecated | DocTagCast
  | DocTagOverload | DocTagAsync | DocTagVisibility | DocTagMeta | DocTagOther | DocTagDiagnostic
  | DocTagVersion | DocTagAs | DocTagNodiscard | DocTagOperator | DocTagModule | DocTagMapping
  | DocTagNamespace | DocTagUsing | DocTagSource | DocTagReadonly | DocTagReturnCast
  | DocTagExport | DocTagLanguage | DocTagAttribute | DocTagAttributeUse | DocTagRealm
  | DocTagFileparam | DocTagOutparam | DocTagCallGeneric | DocTagSchema | TypeArray | TypeUnary
  | TypeBinary | TypeConditional | TypeFun | TypeGeneric | TypeTuple | TypeObject | TypeLiteral
  | TypeName | TypeInfer | TypeVariadic | TypeNullable | TypeStringTemplate | TypeMultiLineUnion
  | TypeAttribute | TypeMatch | TypeIndexAccess | TypeMapped | DocObjectField
  | DocContinueOrField | DocTypedParameter | DocNamedReturnType | DocGenericParameter
  | DocGenericDeclareList | DocDiagnosticNameList | DocTypeList | DocTypeFlag | DocAttributeUse
  | DocAttributeCallArgList | DocOpType | DocEnumFieldList | DocMappedKey | DocEnumField
  | DocOneLineField | DocDiagnosticCodeList | DocDefaultValue | DocDescription | DocVersion
  deriving DecidableEq

/-! ## §2. Language levels -/

inductive LuaLanguageLevel where
  | Lua51 | LuaJIT | Lua52 | Lua53 | Lua54 | Lua55
  deriving DecidableEq, Repr

def LuaLanguageLevel.toString : LuaLanguageLevel → String
  | .Lua51 => "Lua 5.1"
  | .Lua52 => "Lua 5.2"
  | .Lua53 => "Lua 5.3"
  | .Lua54 => "Lua 5.4"
  | .LuaJIT => "LuaJIT"
  | .Lua55 => "Lua 5.5"

/-! ## §3. Non-standard symbols -/

inductive LuaNonStdSymbol where
  | DoubleSlash | SlashStar | Backtick | PlusAssign | MinusAssign | StarAssign | SlashAssign
  | PercentAssign | CaretAssign | DoubleSlashAssign | PipeAssign | AmpAssign | ShiftLeftAssign
  | ShiftRightAssign | DoublePipe | DoubleAmp | Exclamation | NotEqual | Continue
  deriving DecidableEq, Repr

/-- A bit per symbol; the first symbol has bit 1. -/
structure LuaNonStdSymbolSet where
  bits : UInt64
  deriving DecidableEq, Repr

namespace LuaNonStdSymbolSet

def new : LuaNonStdSymbolSet := ⟨0⟩

def bit (symbol : LuaNonStdSymbol) : UInt64 := 1 <<< UInt64.ofNat (symbol.ctorIdx + 1)

def add (set : LuaNonStdSymbolSet) (symbol : LuaNonStdSymbol) : LuaNonStdSymbolSet :=
  ⟨set.bits ||| bit symbol⟩

def support (set : LuaNonStdSymbolSet) (symbol : LuaNonStdSymbol) : Bool :=
  set.bits &&& bit symbol != 0

end LuaNonStdSymbolSet

/-! ## §4. Ranges and texts -/

structure SourceRange where
  startOffset : Nat
  length : Nat
  deriving DecidableEq, Repr

namespace SourceRange

def EMPTY : SourceRange := ⟨0, 0⟩

def endOffset (range : SourceRange) : Nat := range.startOffset + range.length

end SourceRange

/-- The longest prefix of at most `n` bytes. -/
def takeBytes : Nat → List Char → List Char
  | _, [] => []
  | n, c :: rest => if c.utf8Size ≤ n then c :: takeBytes (n - c.utf8Size) rest else []

/-- What is left behind that prefix. -/
def dropBytes : Nat → List Char → List Char
  | _, [] => []
  | n, c :: rest => if c.utf8Size ≤ n then dropBytes (n - c.utf8Size) rest else c :: rest

/-- `&text[range]`, for a range between character boundaries. -/
def slice (text : List Char) (range : SourceRange) : List Char :=
  takeBytes range.length (dropBytes range.startOffset text)

/-- The offset is one a character starts at, or the end of the text. -/
def IsBoundary (text : List Char) (offset : Nat) : Prop :=
  ∃ pre rest, text = pre ++ rest ∧ offset = byteLen pre

theorem byteLen_pos (cs : List Char) (h : cs ≠ []) : 0 < byteLen cs := by
  cases cs with
  | nil => exact absurd rfl h
  | cons c cs =>
    have hc := c.utf8Size_pos
    rw [byteLen_cons]
    omega

theorem takeBytes_append (cs rest : List Char) : takeBytes (byteLen cs) (cs ++ rest) = cs := by
  induction cs with
  | nil =>
    cases rest with
    | nil => rfl
    | cons c rest =>
      have hc := c.utf8Size_pos
      simp [takeBytes]
      omega
  | cons c cs ih => simp [takeBytes, ih]

theorem dropBytes_append (cs rest : List Char) : dropBytes (byteLen cs) (cs ++ rest) = rest := by
  induction cs with
  | nil =>
    cases rest with
    | nil => rfl
    | cons c rest =>
      have hc := c.utf8Size_pos
      simp [dropBytes]
      omega
  | cons c cs ih => simp [dropBytes, ih]

theorem slice_eq (pre word rest : List Char) :
    slice (pre ++ word ++ rest) ⟨byteLen pre, byteLen word⟩ = word := by
  show takeBytes (byteLen word) (dropBytes (byteLen pre) (pre ++ word ++ rest)) = word
  rw [List.append_assoc, dropBytes_append, takeBytes_append]

/-! ## §5. The reader -/

/-- The character that stands for the end of the text. -/
def EOF : Char := '\x00'

structure Reader where
  text : List Char
  validRange : SourceRange
  chars : List Char
  currentBufferBytePos : Nat
  currentBufferByteLen : Nat
  next : Char
  current : Char
  prev : Char

namespace Reader

def new (text : List Char) : Reader where
  text := text
  validRange := ⟨0, byteLen text⟩
  chars := text.drop 2
  currentBufferBytePos := 0
  currentBufferByteLen := 0
  next := (text.drop 1).headD EOF
  current := text.headD EOF
  prev := EOF

def bump (r : Reader) : Reader :=
  if r.current ≠ EOF then
    { r with
      currentBufferByteLen := r.currentBufferByteLen + r.current.utf8Size
      prev := r.current
      current := r.next
      next := r.chars.headD EOF
      chars := r.chars.tail }
  else r

def resetBuff (r : Reader) : Reader :=
  { r with
    currentBufferBytePos := r.currentBufferBytePos + r.currentBufferByteLen
    currentBufferByteLen := 0 }

def isEof (r : Reader) : Bool := r.current == EOF

def currentRange (r : Reader) : SourceRange :=
  ⟨r.validRange.startOffset + r.currentBufferBytePos, r.currentBufferByteLen⟩

def currentText (r : Reader) : List Char :=
  slice r.text ⟨r.currentBufferBytePos, r.currentBufferByteLen⟩

/-- How many characters can still be bumped, at most. -/
def left (r : Reader) : Nat :=
  r.chars.length + (if r.next = EOF then 0 else 1) + (if r.current = EOF then 0 else 1)

theorem left_bump_lt (r : Reader) (h : r.current ≠ EOF) : r.bump.left < r.left := by
  unfold bump left
  rw [if_pos h]
  cases hc : r.chars with
  | nil => simp [h]
  | cons c cs =>
    simp only [List.headD_cons, List.tail_cons, List.length_cons, h, if_false]
    by_cases hce : c = EOF
    · simp only [hce, if_true]
      omega
    · simp only [hce, if_false]
      omega

theorem left_bump_le (r : Reader) : r.bump.left ≤ r.left := by
  by_cases h : r.current = EOF
  · simp [bump, h]
  · exact Nat.le_of_lt (left_bump_lt r h)

/-- Bumps while the current character meets `func`; returns how often. -/
def eatWhile (func : Char → Bool) (r : Reader) : Nat × Reader :=
  if _h : r.current ≠ EOF then
    if func r.current then
      let rest := eatWhile func r.bump
      (rest.1 + 1, rest.2)
    else (0, r)
  else (0, r)
termination_by r.left
decreasing_by exact left_bump_lt r _h

/-- Bumps while the current character is `ch`. -/
def eatWhen (ch : Char) (r : Reader) : Nat × Reader := eatWhile (fun c => c == ch) r

/-! ## §6. Moving by bumps alone -/

/-- The second reader is the first after some bumps. -/
def Advances (r r' : Reader) : Prop := ∃ n, r' = bump^[n] r

namespace Advances

theorem refl (r : Reader) : Advances r r := ⟨0, rfl⟩

theorem trans {r r' r'' : Reader} (h : Advances r r') (h' : Advances r' r'') : Advances r r'' := by
  obtain ⟨n, rfl⟩ := h
  obtain ⟨m, rfl⟩ := h'
  exact ⟨m + n, (Function.iterate_add_apply bump m n r).symm⟩

theorem bump {r r' : Reader} (h : Advances r r') : Advances r r'.bump :=
  h.trans ⟨1, rfl⟩

theorem eatWhile {func : Char → Bool} {r r' : Reader} (h : Advances r r') :
    Advances r (r'.eatWhile func).2 := by
  apply h.trans
  clear h
  induction r' using Reader.eatWhile.induct func with
  | case1 r hne hf ih =>
    rw [Reader.eatWhile, dif_pos hne, if_pos hf]
    exact (refl r).bump.trans ih
  | case2 r hne hf =>
    rw [Reader.eatWhile, dif_pos hne, if_neg hf]
    exact refl r
  | case3 r hne =>
    rw [Reader.eatWhile, dif_neg hne]
    exact refl r

theorem left_le {r r' : Reader} (h : Advances r r') : r'.left ≤ r.left := by
  obtain ⟨n, rfl⟩ := h
  induction n generalizing r with
  | zero => exact Nat.le_refl _
  | succ n ih => exact Nat.le_trans (ih (r := r.bump)) (left_bump_le r)

end Advances

/-! ## §7. What a reader has read -/

/-- The reader has passed `pre`, holds `buf` in its buffer and has `rest` ahead. -/
structure At (r : Reader) (pre buf rest : List Char) : Prop where
  text_eq : r.text = pre ++ buf ++ rest
  start_eq : r.validRange.startOffset = 0
  pos_eq : r.currentBufferBytePos = byteLen pre
  len_eq : r.currentBufferByteLen = byteLen buf
  current_eq : r.current = rest.headD EOF
  next_eq : r.next = (rest.drop 1).headD EOF
  chars_eq : r.chars = rest.drop 2

theorem new_at (text : List Char) : (new text).At [] [] text :=
  ⟨rfl, rfl, rfl, rfl, rfl, rfl, rfl⟩

section

variable {r : Reader} {pre buf rest : List Char} (h : r.At pre buf rest)
include h

theorem At.resetBuff : r.resetBuff.At (pre ++ buf) [] rest where
  text_eq := by simpa [Reader.resetBuff] using h.text_eq
  start_eq := h.start_eq
  pos_eq := by simp [Reader.resetBuff, h.pos_eq, h.len_eq]
  len_eq := rfl
  current_eq := h.current_eq
  next_eq := h.next_eq
  chars_eq := h.chars_eq

theorem At.currentRange : r.currentRange = ⟨byteLen pre, byteLen buf⟩ := by
  simp [Reader.currentRange, h.start_eq, h.pos_eq, h.len_eq]

/-- A reader that is not at its end has the current character ahead. -/
theorem At.rest_eq (hne : r.current ≠ EOF) : rest = r.current :: rest.tail := by
  cases rest with
  | nil => exact absurd h.current_eq hne
  | cons c rest => rw [h.current_eq]; rfl

theorem At.bump (hne : r.current ≠ EOF) : r.bump.At pre (buf ++ [r.current]) rest.tail := by
  have hrest := h.rest_eq hne
  unfold Reader.bump
  rw [if_pos hne]
  constructor
  · show r.text = pre ++ (buf ++ [r.current]) ++ rest.tail
    rw [h.text_eq]
    conv_lhs => rw [hrest]
    simp
  · exact h.start_eq
  · exact h.pos_eq
  · show r.currentBufferByteLen + r.current.utf8Size = byteLen (buf ++ [r.current])
    simp [h.len_eq]
  · show r.next = rest.tail.headD EOF
    rw [h.next_eq, List.drop_one]
  · show r.chars.headD EOF = (rest.tail.drop 1).headD EOF
    rw [h.chars_eq, ← List.drop_one, List.drop_drop]
  · show r.chars.tail = rest.tail.drop 2
    rw [h.chars_eq, ← List.drop_one, List.drop_drop, ← List.drop_one, List.drop_drop]

end

/-- **Bumps take a word without NUL off what lies ahead.** -/
theorem Advances.at_eaten {r r' : Reader} (h : Advances r r') {pre buf rest : List Char}
    (hat : r.At pre buf rest) :
    ∃ word rest', rest = word ++ rest' ∧ EOF ∉ word ∧ r'.At pre (buf ++ word) rest' := by
  obtain ⟨n, rfl⟩ := h
  induction n generalizing r buf rest with
  | zero => exact ⟨[], rest, rfl, by simp, by simpa using hat⟩
  | succ n ih =>
    rw [Function.iterate_succ_apply]
    by_cases hne : r.current = EOF
    · have hb : r.bump = r := by simp [Reader.bump, hne]
      rw [hb]
      exact ih hat
    · obtain ⟨word, rest', heq, hmem, hat'⟩ := ih (hat.bump hne)
      refine ⟨r.current :: word, rest', ?_, ?_, ?_⟩
      · rw [hat.rest_eq hne, heq]
        rfl
      · simp only [List.mem_cons, not_or]
        exact ⟨fun h => hne h.symm, hmem⟩
      · simpa using hat'

end Reader

end GluaLs.Syntax
