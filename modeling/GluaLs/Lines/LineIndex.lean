/-
  GluaLs.Lines.LineIndex — lines, UTF-16 columns and offsets of a text
  (`glua_parser/src/text/line_index.rs`).

  The index keeps, for each line, the byte offset it starts at and whether it is plain ASCII;
  on a plain line bytes and columns are the same.  Offsets are `TextSize`, a `u32`: an
  `as u32` wraps (`u32`), `TextSize::of` panics past it.  A slice off a character boundary
  and an index out of range panic (`Panic`).

  | source | model |
  |---|---|
  | `&str` | `Text` (its characters) |
  | `text.char_indices()` | the loop's characters and byte index |
  | `&text[start..end]` | `slice` |
  | `s.encode_utf16().count()` | `utf16Len` |
  | `line_offsets.binary_search(&offset)` | `binarySearch` (strictly increasing slice) |
-/
import GluaLs.Edit.PositionMap
import GluaLs.Lib.TextPosition

namespace GluaLs.Lines

open GluaLs.Lib
open GluaLs.Edit (u32 U32_SIZE)

/-! ## §1. What the standard library does -/

structure Panic where
  deriving DecidableEq, Repr

/-- `&text[start..stop]` -/
def slice (text : Text) (start stop : Nat) : Except Panic Text :=
  if stop < start then .error ⟨⟩
  else
    match splitBytes text start with
    | none => .error ⟨⟩
    | some (_, tail) =>
      match splitBytes tail (stop - start) with
      | none => .error ⟨⟩
      | some (part, _) => .ok part

/-- `c.is_ascii()` -/
def isAscii (c : Char) : Bool := c.val.toNat < 128

/-- `TextSize::of` -/
def textSizeOf (text : Text) : Except Panic Nat :=
  if byteLen text < U32_SIZE then .ok (byteLen text) else .error ⟨⟩

/-- The index of a value, or the index it would be inserted at. -/
def binarySearch (offsets : List Nat) (offset : Nat) : Except Nat Nat :=
  let at' := (offsets.takeWhile fun start => start < offset).length
  if offsets[at']? = some offset then .ok at' else .error at'

/-! ## §2. `LineIndex` -/

structure LineIndex where
  lineOffsets : List Nat
  lineOnlyAsciiVec : List Bool
  deriving DecidableEq, Repr

/-- The loop of `parse`, at byte `i`. -/
def parseLoop : Text → (i : Nat) → List Nat → List Bool → (isLineOnlyAscii : Bool) → LineIndex
  | [], _, lineOffsets, onlyAscii, isLineOnlyAscii =>
    ⟨lineOffsets, onlyAscii ++ [isLineOnlyAscii]⟩
  | c :: text, i, lineOffsets, onlyAscii, isLineOnlyAscii =>
    if c = '\n' then
      parseLoop text (i + c.utf8Size) (lineOffsets ++ [u32 (i + 1)])
        (onlyAscii ++ [isLineOnlyAscii]) true
    else if !isAscii c then parseLoop text (i + c.utf8Size) lineOffsets onlyAscii false
    else parseLoop text (i + c.utf8Size) lineOffsets onlyAscii isLineOnlyAscii

namespace LineIndex

/-- `LineIndex::parse` -/
def parse (text : Text) : LineIndex := parseLoop text 0 [u32 0] [] true

variable (index : LineIndex)

/-- The line an offset is on, from zero. -/
def getLine (offset : Nat) : Option Nat :=
  match binarySearch index.lineOffsets offset with
  | .ok line => some line
  | .error line => if line > 0 then some (line - 1) else none

/-- `self.line_offsets[line]` is in range wherever `get_line` answers. -/
def getLineWithStartOffset (offset : Nat) : Except Panic (Option (Nat × Nat)) :=
  match index.getLine offset with
  | none => .ok none
  | some line =>
    match index.lineOffsets[line]? with
    | some start => .ok (some (line, start))
    | none => .error ⟨⟩

def isLineOnlyAscii (line : Nat) : Bool := index.lineOnlyAsciiVec[line]?.getD false

def lineCount : Nat := index.lineOffsets.length

/-- Byte range of `line` without its line terminator. -/
def lineContentRange (line : Nat) (sourceText : Text) : Except Panic (Option (Nat × Nat)) :=
  match index.lineOffsets[line]? with
  | none => .ok none
  | some start =>
    match index.lineOffsets[line + 1]? with
    | some next => do
        let content ← slice sourceText start (next - 1)
        .ok (some (start, start + byteLen (stripSuffix '\r' content)))
    | none => .ok (some (start, byteLen sourceText))

/-- Line and UTF-16 column of `offset`, both base 0. -/
def getLineCol (offset : Nat) (sourceText : Text) : Except Panic (Option (Nat × Nat)) := do
  match ← index.getLineWithStartOffset offset with
  | none => .ok none
  | some (line, startOffset) =>
    if index.isLineOnlyAscii line then .ok (some (line, offset - startOffset))
    else
      let part ← slice sourceText startOffset offset
      .ok (some (line, utf16Len part))

end LineIndex

/-- The `find_map` over `char_indices`: the byte index of the first character behind which
    there are more than `col` units. -/
def findColumn (width : Char → Nat) (col : Nat) : Text → (units i : Nat) → Option Nat
  | [], _, _ => none
  | c :: text, units, i =>
    if units + width c > col then some i
    else findColumn width col text (units + width c) (i + c.utf8Size)

namespace LineIndex

variable (index : LineIndex)

def offsetAtColumn (line col : Nat) (sourceText : Text) (width : Char → Nat) :
    Except Panic Nat := do
  match ← index.lineContentRange line sourceText with
  | none => textSizeOf sourceText
  | some (start, stop) =>
    if index.isLineOnlyAscii line then .ok (u32 (start + min col (stop - start)))
    else
      let content ← slice sourceText start stop
      .ok (u32 (((findColumn width col content 0 0).map fun i => start + i).getD stop))

/-- Offset of a line and UTF-16 column. A column past the line end clamps to the line end
    (before its terminator); a line past the last line clamps to the end of the text. -/
def getOffset (line col : Nat) (sourceText : Text) : Except Panic Nat :=
  index.offsetAtColumn line col sourceText lenUtf16

end LineIndex

end GluaLs.Lines
