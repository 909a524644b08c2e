/-
  GluaLs.Edit.PositionMap — how offsets move when a file's text is edited
  (`db_index/edit/position_map.rs`).

  An edit is a list of HUNKS, each a stretch of the old text that became a stretch of the
  new one.  Everything between two hunks is text both versions share.  Offsets are `u32` in
  the source; here they are `Nat`, and every addition or cast that can leave the range of a
  `u32` is written with `u32` (it wraps) or `saturatingAdd` (it stops at `u32::MAX`).

  `then` is a keyword, so `PositionMap::then` is `thenLater`.
-/
import Mathlib.Data.List.Basic
import Mathlib.Tactic

namespace GluaLs.Edit

/-! ## §1. `u32` arithmetic -/

/-- How many values a `u32` has. -/
abbrev U32_SIZE : Nat := 4294967296

/-- The value of an `as u32` cast, or of a `u32` sum that may wrap. -/
def u32 (n : Nat) : Nat := n % U32_SIZE

theorem u32_of_lt (n : Nat) (h : n < U32_SIZE) : u32 n = n := Nat.mod_eq_of_lt h

/-- The length a map's last kept stretch runs for: to the end of either text (`u32::MAX`). -/
def OPEN : Nat := 4294967295

/-- `u32::saturating_add`. -/
def saturatingAdd (a b : Nat) : Nat := min (a + b) OPEN

theorem saturatingAdd_of_lt (a b : Nat) (h : a + b ≤ OPEN) : saturatingAdd a b = a + b :=
  Nat.min_eq_left h

theorem saturatingAdd_open (a : Nat) : saturatingAdd a OPEN = OPEN :=
  Nat.min_eq_right (Nat.le_add_left OPEN a)

/-- `<[T]>::partition_point`: how many elements stand before the first one that fails
    `pred`, on a slice whose elements that satisfy `pred` come first. -/
def partitionPoint {α : Type} (l : List α) (pred : α → Bool) : Nat :=
  (l.takeWhile pred).length

/-! ## §2. Hunks and maps -/

/-- One stretch an edit changed: `oldStart..oldEnd` of the old text became
    `newStart..newEnd` of the new one. -/
structure Hunk where
  oldStart : Nat
  oldEnd : Nat
  newStart : Nat
  newEnd : Nat
  deriving DecidableEq, Repr

/-- The hunks an edit changed, as byte offsets, in order and apart. -/
@[ext] structure PositionMap where
  hunks : List Hunk
  deriving DecidableEq, Repr

/-- A stretch both texts share: `len` bytes from `old` in the old text and from `new` in the
    new one. -/
structure Stretch where
  old : Nat
  new : Nat
  len : Nat
  deriving DecidableEq, Repr

namespace PositionMap

/-- The map for "nothing moved": every offset is its own image. -/
def identity : PositionMap := ⟨[]⟩

/-- Whether every offset maps to itself. -/
def isIdentity (f : PositionMap) : Bool := f.hunks.isEmpty

/-- The loop body of `from_hunks`: skip an empty hunk, let one that touches the last grow
    it, push any other. -/
def pushHunk (merged : List Hunk) (hunk : Hunk) : List Hunk :=
  if hunk.oldStart = hunk.oldEnd ∧ hunk.newStart = hunk.newEnd then merged
  else
    match merged.getLast? with
    | some last =>
      if last.oldEnd ≥ hunk.oldStart ∨ last.newEnd ≥ hunk.newStart then
        merged.dropLast ++ [{ last with oldEnd := hunk.oldEnd, newEnd := hunk.newEnd }]
      else merged ++ [hunk]
    | none => merged ++ [hunk]

/-- `PositionMap::from_hunks`. -/
def fromHunks (hunks : List Hunk) : PositionMap := ⟨hunks.foldl pushHunk []⟩

/-- The loop of `kept`, with the ends `old`, `new` of the last hunk passed. -/
def keptFrom (old new : Nat) : List Hunk → List Stretch
  | [] => [⟨old, new, OPEN⟩]
  | hunk :: rest =>
    (if hunk.oldStart > old then [⟨old, new, hunk.oldStart - old⟩] else [])
      ++ keptFrom hunk.oldEnd hunk.newEnd rest

/-- The stretches both texts share, the last one running to the end of the text. -/
def kept (f : PositionMap) : List Stretch := keptFrom 0 0 f.hunks

/-- The loop of `from_kept`: the gaps between the stretches. -/
def gapsFrom (old new : Nat) : List Stretch → List Hunk
  | [] => []
  | s :: rest =>
    ⟨old, s.old, new, s.new⟩
      :: gapsFrom (saturatingAdd s.old s.len) (saturatingAdd s.new s.len) rest

/-- The map whose shared stretches are `kept`, in order: the gaps between them are its
    hunks. -/
def fromKept (kept : List Stretch) : PositionMap := fromHunks (gapsFrom 0 0 kept)

/-- The two-pointer loop of `then`: `first` and `second` are what the indices `i` and `j`
    have not passed. -/
def intersect : List Stretch → List Stretch → List Stretch
  | s :: first, t :: second =>
    let firstEnd := saturatingAdd s.new s.len
    let secondEnd := saturatingAdd t.old t.len
    let start := max s.new t.old
    let stop := min firstEnd secondEnd
    let shared : List Stretch :=
      if start < stop then
        [⟨u32 (s.old + (start - s.new)), u32 (t.new + (start - t.old)), stop - start⟩]
      else []
    if firstEnd ≤ secondEnd then shared ++ intersect first (t :: second)
    else shared ++ intersect (s :: first) second
  | [], _ => []
  | _ :: _, [] => []
termination_by first second => first.length + second.length

/-- This edit followed by `later`, an edit of the text this one produced
    (`PositionMap::then`). -/
def thenLater (f later : PositionMap) : PositionMap :=
  if f.isIdentity then later
  else if later.isIdentity then f
  else fromKept (intersect f.kept later.kept)

/-- One hunk read from the new text to the old one. -/
def flip (hunk : Hunk) : Hunk := ⟨hunk.newStart, hunk.newEnd, hunk.oldStart, hunk.oldEnd⟩

/-- The map from the new text back to the old one. -/
def inverse (f : PositionMap) : PositionMap := ⟨f.hunks.map flip⟩

/-- `PositionMap::map`: an offset before the first hunk is unmoved, one inside a hunk has no
    image, any other shifts with the last hunk that starts at or before it. -/
def map (f : PositionMap) (p : Nat) : Option Nat :=
  match partitionPoint f.hunks (fun hunk => hunk.oldStart ≤ p) with
  | 0 => some p
  | i + 1 =>
    match f.hunks[i]? with
    | some hunk =>
      if p ≥ hunk.oldEnd then some (u32 (p - hunk.oldEnd + hunk.newEnd)) else none
    | none => some p

end PositionMap

end GluaLs.Edit
