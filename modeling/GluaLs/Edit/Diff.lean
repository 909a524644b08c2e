/-
  GluaLs.Edit.Diff — the hunks between two texts (`position_map.rs`, module `diff`).

  A text is the list of its UTF-8 bytes, as `as_bytes` gives it.  The `while` loops of the
  source that step two indices together are `sharedStart` and `sharedEnd`, with the guards
  on the two ranges as their bound on rounds.  `matchLines` recurses on ranges of lines; the
  bound it recurses on is the length of the old range, and `matchLines_eq` (in
  `Edit.MatchLines`) says that the bound is never what ends it.
-/
import GluaLs.Lib.FiniteMap
import GluaLs.Lib.SharedEnds
import GluaLs.Edit.PositionMap

namespace GluaLs.Edit

open GluaLs.Lib

namespace Diff

/-! ## §1. Bytes and lines -/

/-- The bytes of a text. -/
abbrev Bytes : Type := List UInt8

/-- A line's byte range, its line break included. -/
abbrev Line : Type := Nat × Nat

/-- `u8::is_ascii_whitespace`: space, tab, line feed, form feed, carriage return. -/
def isAsciiWhitespace (byte : UInt8) : Bool :=
  byte == 0x20 || byte == 0x09 || byte == 0x0A || byte == 0x0C || byte == 0x0D

/-- `str::is_char_boundary`: the start, the end, or a byte that does not continue a
    character (`byte as i8 >= -0x40`). -/
def isCharBoundary (text : Bytes) (index : Nat) : Bool :=
  if index = 0 then true
  else
    match text[index]? with
    | none => index == text.length
    | some byte => byte < 0x80 || byte ≥ 0xC0

/-- The loop of `lines`, at byte `at` of a line that starts at `start`. -/
def linesFrom (start pos : Nat) : Bytes → List Line
  | [] => if start < pos then [(start, pos)] else []
  | byte :: rest =>
    if byte = 0x0A then (start, pos + 1) :: linesFrom (pos + 1) (pos + 1) rest
    else linesFrom start (pos + 1) rest

/-- Each line's byte range, its line break included. -/
def lines (text : Bytes) : List Line := linesFrom 0 0 text

/-- The part of a line between its leading and trailing whitespace. -/
def content (text : Bytes) (line : Line) : Nat × Nat :=
  let bytes := slice text line.1 line.2
  let leading := (bytes.takeWhile isAsciiWhitespace).length
  let trailing := ((bytes.drop leading).reverse.takeWhile isAsciiWhitespace).length
  (line.1 + leading, line.2 - trailing)

/-- The bytes of a line's content. -/
def key (text : Bytes) (line : Line) : Bytes :=
  slice text (content text line).1 (content text line).2

/-- Whether two lines are the same line, perhaps indented or ended differently.  A blank
    line matches only a blank line ended the same way. -/
def sameLine (old new : Bytes) (oldLine newLine : Line) : Bool :=
  key old oldLine == key new newLine
    && (!(key old oldLine).isEmpty
      || slice old oldLine.1 oldLine.2 == slice new newLine.1 newLine.2)

/-- Whether two lines are one line edited: the bytes they share at either end are at least
    half the longer one. -/
def similar (old new : Bytes) : Bool :=
  if old.isEmpty || new.isEmpty then false
  else
    let shorter := min old.length new.length
    let shared := ((old.zip new).takeWhile (fun p => p.1 == p.2)).length
    let suffix := (((((old.drop shared).reverse.zip (new.drop shared).reverse)).take
      (shorter - shared)).takeWhile (fun p => p.1 == p.2)).length
    2 * (shared + suffix) ≥ max old.length new.length

/-- Line `i` of a text; the source indexes in bounds only. -/
def lineAt (ls : List Line) (i : Nat) : Line := ls.getD i (0, 0)

/-- The bytes lines `start..stop` cover, or where they would start. -/
def span (ls : List Line) (start stop len : Nat) : Nat × Nat :=
  let first := (ls[start]?.map Prod.fst).getD len
  (first, if stop > start then (lineAt ls (stop - 1)).2 else first)

/-! ## §2. Narrowing a mismatch to the bytes that differ -/

/-- The loop that backs off to a character boundary of both texts. -/
def backOff (old new : Bytes) : Nat → Nat → Nat × Nat
  | 0, newStart => (0, newStart)
  | oldStart + 1, newStart =>
    if isCharBoundary old (oldStart + 1) && isCharBoundary new newStart then
      (oldStart + 1, newStart)
    else backOff old new oldStart (newStart - 1)

/-- The loop that goes on to a character boundary of both texts, with `left` bytes of the
    old text to go. -/
def goOn (old new : Bytes) : Nat → Nat → Nat → Nat × Nat
  | 0, oldEnd, newEnd => (oldEnd, newEnd)
  | left + 1, oldEnd, newEnd =>
    if isCharBoundary old oldEnd && isCharBoundary new newEnd then (oldEnd, newEnd)
    else goOn old new left (oldEnd + 1) (newEnd + 1)

/-- The hunk `oldSpan` → `newSpan` became, less the bytes it shares at either end, unless it
    shares them all. -/
def narrowed (old new : Bytes) (oldSpan newSpan : Nat × Nat) : List Hunk :=
  let shared := sharedStart (sameAt old new)
    (min (oldSpan.2 - oldSpan.1) (newSpan.2 - newSpan.1)) oldSpan.1 newSpan.1
  let start := backOff old new (oldSpan.1 + shared) (newSpan.1 + shared)
  let sharedTail := sharedEnd (sameAt old new)
    (min (oldSpan.2 - start.1) (newSpan.2 - start.2)) oldSpan.2 newSpan.2
  let stop := goOn old new (old.length - (oldSpan.2 - sharedTail))
    (oldSpan.2 - sharedTail) (newSpan.2 - sharedTail)
  if start.1 = stop.1 ∧ start.2 = stop.2 then []
  else [⟨u32 start.1, u32 stop.1, u32 start.2, u32 stop.2⟩]

/-! ## §3. Matching lines -/

/-- The state of the loop of `longest_increasing`: for each length, the index of the last
    pair of a run of that length, and for each pair the one before it in its run
    (`usize::MAX` in the source is `none`). -/
structure Runs where
  tails : List Nat
  previous : List (Option Nat)

/-- The second element of pair `i`; the source indexes in bounds only. -/
def secondAt (pairs : List (Nat × Nat)) (i : Nat) : Nat := (pairs.getD i (0, 0)).2

/-- One round: the pair numbered `previous.length`, whose second element is `newAt`. -/
def Runs.push (pairs : List (Nat × Nat)) (runs : Runs) (newAt : Nat) : Runs :=
  let pos := runs.previous.length
  let place := partitionPoint runs.tails (fun tail => secondAt pairs tail < newAt)
  { tails := if place = runs.tails.length then runs.tails ++ [pos] else runs.tails.set place pos
    previous := runs.previous ++ [if place > 0 then runs.tails[place - 1]? else none] }

/-- The loop that follows `previous` back from pair `at`; `fuel` is a bound on `at`. -/
def unwind (pairs : List (Nat × Nat)) (previous : List (Option Nat)) :
    Nat → Option Nat → List (Nat × Nat)
  | 0, _ => []
  | _ + 1, none => []
  | fuel + 1, some i =>
    pairs.getD i (0, 0) :: unwind pairs previous fuel (previous[i]?.getD none)

/-- The longest run of `pairs`, sorted by their first element, whose second elements
    increase too. -/
def longestIncreasing (pairs : List (Nat × Nat)) : List (Nat × Nat) :=
  let runs := (pairs.map Prod.snd).foldl (Runs.push pairs) ⟨[], []⟩
  (unwind pairs runs.previous pairs.length runs.tails.getLast?).reverse

/-- How often a line's content was seen on either side, and where last: the value type of
    `seen`. -/
structure Seen where
  inOld : Nat
  oldAt : Nat
  inNew : Nat
  newAt : Nat

/-- `seen.entry(key).or_insert((0, 0, 0, 0))`, then `update`. -/
def seeLine (update : Seen → Nat → Seen) (keyAt : Nat → Bytes) (seen : HashMap Bytes Seen)
    (pos : Nat) : HashMap Bytes Seen :=
  seen.insert (keyAt pos) (update ((seen.lookup (keyAt pos)).getD ⟨0, 0, 0, 0⟩) pos)

/-- The order `sort_unstable` sorts pairs by. -/
def pairLe (p q : Nat × Nat) : Bool := p.1 < q.1 || (p.1 == q.1 && p.2 ≤ q.2)

/-- The lines of `start..stop`, in order. -/
def rangeOf (start stop : Nat) : List Nat := List.range' start (stop - start)

/-- The lines that occur once on each side of the stretch, paired, keeping the longest run
    whose order both sides agree on. -/
def uniqueAnchors (old new : Bytes) (oldLines newLines : List Line)
    (oldFrom oldTo newFrom newTo : Nat) : List (Nat × Nat) :=
  let seenOld := (rangeOf oldFrom oldTo).foldl
    (seeLine (fun seen pos => { seen with inOld := seen.inOld + 1, oldAt := pos })
      (fun pos => key old (lineAt oldLines pos))) ∅
  let seen := (rangeOf newFrom newTo).foldl
    (seeLine (fun seen pos => { seen with inNew := seen.inNew + 1, newAt := pos })
      (fun pos => key new (lineAt newLines pos))) seenOld
  let pairs := (seen.entries.filter
      (fun e => !e.1.isEmpty && e.2.inOld == 1 && e.2.inNew == 1)).map
    (fun e => (e.2.oldAt, e.2.newAt))
  longestIncreasing (pairs.mergeSort pairLe)

/-- The stretches between the anchors, each matched by `recurse`, with the anchors. -/
def matchBetween (recurse : Nat → Nat → Nat → Nat → List (Nat × Nat)) (oldTo newTo : Nat) :
    List (Nat × Nat) → Nat → Nat → List (Nat × Nat)
  | [], oldAt, newAt => recurse oldAt oldTo newAt newTo
  | anchor :: rest, oldAt, newAt =>
    recurse oldAt anchor.1 newAt anchor.2
      ++ anchor :: matchBetween recurse oldTo newTo rest (anchor.1 + 1) (anchor.2 + 1)

/-- The body of `match_lines`, with its recursive calls as `recurse`: the lines the ranges
    share at their start, what the anchors between give, the lines shared at the end. -/
def matchStep (old new : Bytes) (oldLines newLines : List Line)
    (recurse : Nat → Nat → Nat → Nat → List (Nat × Nat)) (oldFrom oldTo newFrom newTo : Nat) :
    List (Nat × Nat) :=
  let same := fun i j => sameLine old new (lineAt oldLines i) (lineAt newLines j)
  let head := sharedStart same (min (oldTo - oldFrom) (newTo - newFrom)) oldFrom newFrom
  let oldAt := oldFrom + head
  let newAt := newFrom + head
  let tail := sharedEnd same (min (oldTo - oldAt) (newTo - newAt)) oldTo newTo
  let oldStop := oldTo - tail
  let newStop := newTo - tail
  let middle :=
    if oldAt < oldStop ∧ newAt < newStop then
      let anchors := uniqueAnchors old new oldLines newLines oldAt oldStop newAt newStop
      if anchors.isEmpty then [] else matchBetween recurse oldStop newStop anchors oldAt newAt
    else []
  diagonal oldFrom newFrom head ++ middle ++ diagonal oldStop newStop tail

/-- `match_lines` on ranges whose old side has at most `bound` lines.  An empty range has no
    lines to match. -/
def matchUpTo (old new : Bytes) (oldLines newLines : List Line) :
    Nat → Nat → Nat → Nat → Nat → List (Nat × Nat)
  | 0, _, _, _, _ => []
  | bound + 1, oldFrom, oldTo, newFrom, newTo =>
    matchStep old new oldLines newLines (matchUpTo old new oldLines newLines bound)
      oldFrom oldTo newFrom newTo

/-- Pairs the lines of two ranges whose content matches, in order. -/
def matchLines (old new : Bytes) (oldLines newLines : List Line)
    (oldFrom oldTo newFrom newTo : Nat) : List (Nat × Nat) :=
  matchUpTo old new oldLines newLines (oldTo - oldFrom) oldFrom oldTo newFrom newTo

/-! ## §4. Hunks -/

/-- The hunks of the line pairs `pairs`, each narrowed on its own. -/
def narrowedLines (old new : Bytes) (oldLines newLines : List Line) (pairs : List (Nat × Nat)) :
    List Hunk :=
  pairs.flatMap (fun p => narrowed old new (lineAt oldLines p.1) (lineAt newLines p.2))

/-- The hunks of lines no line matched: a line edited in place, at either end of the
    stretch, is narrowed on its own. -/
def editedLines (old new : Bytes) (oldLines newLines : List Line)
    (oldFrom oldTo newFrom newTo : Nat) : List Hunk :=
  let same := fun i j => similar (key old (lineAt oldLines i)) (key new (lineAt newLines j))
  let head := sharedStart same (min (oldTo - oldFrom) (newTo - newFrom)) oldFrom newFrom
  let oldAt := oldFrom + head
  let newAt := newFrom + head
  let tail := sharedEnd same (min (oldTo - oldAt) (newTo - newAt)) oldTo newTo
  let oldStop := oldTo - tail
  let newStop := newTo - tail
  narrowedLines old new oldLines newLines (diagonal oldFrom newFrom head)
    ++ narrowed old new (span oldLines oldAt oldStop old.length)
        (span newLines newAt newStop new.length)
    ++ narrowedLines old new oldLines newLines (diagonal oldStop newStop tail)

/-- The hunks of a matched pair of lines: what differs before its content and after it. -/
def matchedLine (old new : Bytes) (oldLine newLine : Line) : List Hunk :=
  narrowed old new (oldLine.1, (content old oldLine).1) (newLine.1, (content new newLine).1)
    ++ narrowed old new ((content old oldLine).2, oldLine.2) ((content new newLine).2, newLine.2)

/-- The loop of `hunks` over the matched lines and the end of both texts, from the lines
    `oldLine` and `newLine` on. -/
def hunksFrom (old new : Bytes) (oldLines newLines : List Line) :
    List (Nat × Nat) → Nat → Nat → List Hunk
  | [], _, _ => []
  | (oldAt, newAt) :: rest, oldLine, newLine =>
    editedLines old new oldLines newLines oldLine oldAt newLine newAt
      ++ (if oldAt < oldLines.length then
            matchedLine old new (lineAt oldLines oldAt) (lineAt newLines newAt)
          else [])
      ++ hunksFrom old new oldLines newLines rest (oldAt + 1) (newAt + 1)

/-- The hunks turning `old` into `new`. -/
def hunks (old new : Bytes) : List Hunk :=
  if old = new then []
  else
    let oldLines := lines old
    let newLines := lines new
    let matched := matchLines old new oldLines newLines 0 oldLines.length 0 newLines.length
    hunksFrom old new oldLines newLines (matched ++ [(oldLines.length, newLines.length)]) 0 0

end Diff

/-- The bytes of a `str`. -/
def asBytes (text : String) : Diff.Bytes := text.toByteArray.data.toList

/-- The map between two versions of a file's text (`PositionMap::new`). -/
def PositionMap.new (oldText newText : String) : PositionMap :=
  PositionMap.fromHunks (Diff.hunks (asBytes oldText) (asBytes newText))

end GluaLs.Edit
