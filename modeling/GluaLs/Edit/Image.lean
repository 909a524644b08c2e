/-
  GluaLs.Edit.Image — what a well-formed position map means.

  A map is WELL-FORMED between a text of `a` bytes and one of `b` bytes when its hunks are
  in order and apart, none is empty, and every stretch before, between and after them is as
  long in the old text as in the new one.  `image` reads such a map as a partial function on
  offsets, without any bound on the size of a number.  Main results:

    • `image_strictMono` — images come in the order of their offsets,
    • `map_eq_image` — `map` computes `image`, up to `u32` wrap-around,
    • `hunks_of_image` — **a well-formed map is determined by its images**, so two ways of
      building a map agree as hunk lists as soon as they agree on every offset,
    • `image_inverse_iff` — the inverse map has the inverse images.
-/
import GluaLs.Edit.PositionMap

namespace GluaLs.Edit

/-! ## §1. Well-formed maps -/

/-- A hunk runs forwards on both sides and is not empty on both. -/
structure Hunk.Valid (h : Hunk) : Prop where
  old_le : h.oldStart ≤ h.oldEnd
  new_le : h.newStart ≤ h.newEnd
  nonempty : h.oldStart < h.oldEnd ∨ h.newStart < h.newEnd

/-- The hunks `hs` come after `(o, n)`, where the last hunk ended: each starts strictly
    later than the one before it ended, as far on in the old text as in the new, and the
    texts end, at `a` and `b`, equally far behind the last. -/
def After (a b : Nat) : Nat → Nat → List Hunk → Prop
  | o, n, [] => o ≤ a ∧ n ≤ b ∧ a - o = b - n
  | o, n, h :: rest =>
    o < h.oldStart ∧ n < h.newStart ∧ h.oldStart - o = h.newStart - n ∧ h.Valid
      ∧ After a b h.oldEnd h.newEnd rest

/-- As `After`, but the first hunk may start at `(o, n)` itself. -/
def From (a b o n : Nat) : List Hunk → Prop
  | [] => o ≤ a ∧ n ≤ b ∧ a - o = b - n
  | h :: rest =>
    o ≤ h.oldStart ∧ n ≤ h.newStart ∧ h.oldStart - o = h.newStart - n ∧ h.Valid
      ∧ After a b h.oldEnd h.newEnd rest

/-- **A well-formed position map** between texts of `a` and of `b` bytes. -/
def PositionMap.WellFormed (f : PositionMap) (a b : Nat) : Prop := From a b 0 0 f.hunks

theorem After.toFrom (a b o n : Nat) (hs : List Hunk) (h : After a b o n hs) : From a b o n hs := by
  cases hs with
  | nil => exact h
  | cons h' rest => exact ⟨h.1.le, h.2.1.le, h.2.2⟩

theorem From.le (a b : Nat) (hs : List Hunk) : ∀ (o n : Nat), From a b o n hs → o ≤ a ∧ n ≤ b := by
  induction hs with
  | nil => intro o n h; exact ⟨h.1, h.2.1⟩
  | cons h rest ih =>
    intro o n hw
    obtain ⟨ho, hn, _, hv, hrest⟩ := hw
    have hle := ih h.oldEnd h.newEnd hrest.toFrom
    have hold := hv.old_le
    have hnew := hv.new_le
    omega

/-! ## §2. Images -/

/-- Where offset `p` goes, read off the hunks that come after `(o, n)`. -/
def imageFrom : Nat → Nat → List Hunk → Nat → Option Nat
  | o, n, [], p => some (p - o + n)
  | o, n, h :: rest, p =>
    if p < h.oldStart then some (p - o + n)
    else if p < h.oldEnd then none
    else imageFrom h.oldEnd h.newEnd rest p

/-- Where offset `p` goes, with no bound on the size of an offset. -/
def PositionMap.image (f : PositionMap) (p : Nat) : Option Nat := imageFrom 0 0 f.hunks p

theorem imageFrom_before (o n p : Nat) (h : Hunk) (rest : List Hunk) (hp : p < h.oldStart) :
    imageFrom o n (h :: rest) p = some (p - o + n) := if_pos hp

theorem imageFrom_inside (o n p : Nat) (h : Hunk) (rest : List Hunk) (h1 : h.oldStart ≤ p)
    (h2 : p < h.oldEnd) : imageFrom o n (h :: rest) p = none := by
  unfold imageFrom
  rw [if_neg (by omega), if_pos h2]

theorem imageFrom_behind (o n p : Nat) (h : Hunk) (rest : List Hunk) (hv : h.Valid)
    (hp : h.oldEnd ≤ p) :
    imageFrom o n (h :: rest) p = imageFrom h.oldEnd h.newEnd rest p := by
  have hle := hv.old_le
  unfold imageFrom
  rw [if_neg (by omega), if_neg (by omega)]
  cases rest <;> rfl

/-- An offset lies before a hunk, inside it or behind it. -/
theorem offset_cases (h : Hunk) (p : Nat) :
    p < h.oldStart ∨ (h.oldStart ≤ p ∧ p < h.oldEnd) ∨ (h.oldStart ≤ p ∧ h.oldEnd ≤ p) := by
  omega

/-- An offset that has an image lies before the first hunk or behind it. -/
theorem imageFrom_some {o n p q : Nat} {h : Hunk} {rest : List Hunk} (hv : h.Valid)
    (hq : imageFrom o n (h :: rest) p = some q) :
    (p < h.oldStart ∧ p - o + n = q) ∨
      (h.oldEnd ≤ p ∧ imageFrom h.oldEnd h.newEnd rest p = some q) := by
  obtain h1 | ⟨h1, h2⟩ | ⟨-, h2⟩ := offset_cases h p
  · rw [imageFrom_before o n p h rest h1] at hq
    exact .inl ⟨h1, Option.some.inj hq⟩
  · rw [imageFrom_inside o n p h rest h1 h2] at hq
    cases hq
  · rw [imageFrom_behind o n p h rest hv h2] at hq
    exact .inr ⟨h2, hq⟩

/-- No image lies before the point the hunks come after. -/
theorem imageFrom_ge (a b : Nat) (hs : List Hunk) :
    ∀ (o n p q : Nat), From a b o n hs → o ≤ p → imageFrom o n hs p = some q → n ≤ q := by
  induction hs with
  | nil =>
    intro o n p q _ _ hq
    have : p - o + n = q := Option.some.inj hq
    omega
  | cons h rest ih =>
    intro o n p q hw hp hq
    obtain ⟨ho, hn, hgap, hv, hrest⟩ := hw
    have hle := hv.new_le
    obtain ⟨h1, heq⟩ | ⟨h2, hq⟩ := imageFrom_some hv hq
    · omega
    · have := ih h.oldEnd h.newEnd p q hrest.toFrom h2 hq
      omega

theorem imageFrom_strictMono (a b : Nat) (hs : List Hunk) :
    ∀ (o n p p' q q' : Nat), From a b o n hs → o ≤ p → p < p' →
      imageFrom o n hs p = some q → imageFrom o n hs p' = some q' → q < q' := by
  induction hs with
  | nil =>
    intro o n p p' q q' _ hp hpp hq hq'
    have h1 : p - o + n = q := Option.some.inj hq
    have h2 : p' - o + n = q' := Option.some.inj hq'
    omega
  | cons h rest ih =>
    intro o n p p' q q' hw hp hpp hq hq'
    obtain ⟨ho, hn, hgap, hv, hrest⟩ := hw
    have hle := hv.new_le
    obtain ⟨h1, e1⟩ | ⟨h2, hq⟩ := imageFrom_some hv hq
    · obtain ⟨h3, e2⟩ | ⟨h4, hq'⟩ := imageFrom_some hv hq'
      · omega
      · -- `p` stands before the hunk and `p'` behind it: the hunk's new side parts them
        have e2 := imageFrom_ge a b rest h.oldEnd h.newEnd p' q' hrest.toFrom h4 hq'
        omega
    · rw [imageFrom_behind o n p' h rest hv (by omega)] at hq'
      exact ih h.oldEnd h.newEnd p p' q q' hrest.toFrom h2 hpp hq hq'

/-- **Images come in the order of their offsets.** -/
theorem image_strictMono (f : PositionMap) (a b : Nat) (hw : f.WellFormed a b) (p p' q q' : Nat)
    (hpp : p < p') (hq : f.image p = some q) (hq' : f.image p' = some q') : q < q' :=
  imageFrom_strictMono a b f.hunks 0 0 p p' q q' hw (Nat.zero_le p) hpp hq hq'

/-- The image of an offset of the old text is an offset of the new one; an offset past the
    old text's end lands as far past the new text's. -/
theorem imageFrom_le (a b : Nat) (hs : List Hunk) :
    ∀ (o n p q : Nat), From a b o n hs → o ≤ p → imageFrom o n hs p = some q →
      q ≤ p - a + b ∧ (p < a → q < b) := by
  induction hs with
  | nil =>
    intro o n p q hw hp hq
    obtain ⟨ho, hn, hgap⟩ := hw
    have : p - o + n = q := Option.some.inj hq
    omega
  | cons h rest ih =>
    intro o n p q hw hp hq
    obtain ⟨ho, hn, hgap, hv, hrest⟩ := hw
    have hle := From.le a b rest h.oldEnd h.newEnd hrest.toFrom
    have hnew := hv.new_le
    obtain ⟨h1, heq⟩ | ⟨h2, hq⟩ := imageFrom_some hv hq
    · omega
    · exact ih h.oldEnd h.newEnd p q hrest.toFrom h2 hq

theorem image_le (f : PositionMap) (a b : Nat) (hw : f.WellFormed a b) (p q : Nat)
    (hq : f.image p = some q) : q ≤ p - a + b ∧ (p < a → q < b) :=
  imageFrom_le a b f.hunks 0 0 p q hw (Nat.zero_le p) hq

/-! ## §3. `map` computes images -/

/-- The element a partition point stands behind is the last one that satisfies the
    predicate. -/
theorem getElem?_takeWhile_pred {α : Type} (l : List α) (pred : α → Bool) (i : Nat)
    (h : (l.takeWhile pred).length = i + 1) : l[i]? = (l.takeWhile pred).getLast? := by
  have hi : i < (l.takeWhile pred).length := by omega
  have hpre : l.takeWhile pred <+: l := List.takeWhile_prefix pred
  rw [List.getLast?_eq_getElem?, h, Nat.add_sub_cancel, List.getElem?_eq_getElem hi]
  exact List.prefix_iff_getElem?.1 hpre i hi

/-- The image of `p` when `last` is the last hunk that starts at or before it. -/
def shiftBy (o n : Nat) (last : Option Hunk) (p : Nat) : Option Nat :=
  match last with
  | some h => if p ≥ h.oldEnd then some (p - h.oldEnd + h.newEnd) else none
  | none => some (p - o + n)

theorem shiftBy_some (o n p : Nat) (h : Hunk) :
    shiftBy o n (some h) p = if p ≥ h.oldEnd then some (p - h.oldEnd + h.newEnd) else none := rfl

/-- The last of the hunks `hs` that starts at or before `p`. -/
def lastStarted (hs : List Hunk) (p : Nat) : Option Hunk :=
  (hs.takeWhile (fun h => decide (h.oldStart ≤ p))).getLast?

theorem lastStarted_before (h : Hunk) (rest : List Hunk) (p : Nat) (hp : p < h.oldStart) :
    lastStarted (h :: rest) p = none := by
  unfold lastStarted
  rw [List.takeWhile_cons_of_neg (by simpa using hp)]
  rfl

theorem lastStarted_cons (h : Hunk) (rest : List Hunk) (p : Nat) (hp : h.oldStart ≤ p) :
    lastStarted (h :: rest) p = some ((lastStarted rest p).getD h) := by
  unfold lastStarted
  rw [List.takeWhile_cons_of_pos (by simpa using hp), List.getLast?_cons]

/-- No hunk that comes after `(o, n)` starts at or before an offset up to `o`. -/
theorem lastStarted_after (a b o n p : Nat) (hs : List Hunk) (hw : After a b o n hs)
    (hp : p ≤ o) : lastStarted hs p = none := by
  cases hs with
  | nil => rfl
  | cons h rest => exact lastStarted_before h rest p (by have := hw.1; omega)

theorem imageFrom_eq_shiftBy (a b : Nat) (hs : List Hunk) :
    ∀ (o n p : Nat), From a b o n hs → o ≤ p →
      imageFrom o n hs p = shiftBy o n (lastStarted hs p) p := by
  induction hs with
  | nil => intro o n p _ _; rfl
  | cons h rest ih =>
    intro o n p hw hp
    obtain ⟨ho, hn, hgap, hv, hrest⟩ := hw
    obtain h1 | ⟨h1, h2⟩ | ⟨h1, h2⟩ := offset_cases h p
    · rw [imageFrom_before o n p h rest h1, lastStarted_before h rest p h1]
      rfl
    · -- no later hunk starts at or before an offset inside `h`
      rw [imageFrom_inside o n p h rest h1 h2, lastStarted_cons h rest p h1,
        lastStarted_after a b h.oldEnd h.newEnd p rest hrest h2.le]
      show none = shiftBy o n (some h) p
      rw [shiftBy_some, if_neg (by omega)]
    · rw [imageFrom_behind o n p h rest hv h2, ih h.oldEnd h.newEnd p hrest.toFrom h2,
        lastStarted_cons h rest p h1]
      cases lastStarted rest p with
      | none =>
        show some (p - h.oldEnd + h.newEnd) = shiftBy o n (some h) p
        rw [shiftBy_some, if_pos h2]
      | some last => rfl

/-- **`map` computes images**, its sum wrapped to a `u32`. -/
theorem map_eq_image (f : PositionMap) (a b : Nat) (hw : f.WellFormed a b) (p : Nat)
    (hp : p < U32_SIZE) : f.map p = (f.image p).map u32 := by
  have himage : f.image p = shiftBy 0 0 (lastStarted f.hunks p) p :=
    imageFrom_eq_shiftBy a b f.hunks 0 0 p hw (Nat.zero_le p)
  rw [himage]
  unfold PositionMap.map partitionPoint
  split
  · rename_i h0
    have hnil : lastStarted f.hunks p = none := by
      unfold lastStarted
      rw [List.length_eq_zero_iff.1 h0]
      rfl
    rw [hnil]
    show some p = some (u32 (p - 0 + 0))
    rw [u32_of_lt _ (by omega)]
    rfl
  · rename_i i hi
    have hlast : f.hunks[i]? = lastStarted f.hunks p :=
      getElem?_takeWhile_pred f.hunks (fun hunk => decide (hunk.oldStart ≤ p)) i hi
    rw [hlast]
    cases hl : lastStarted f.hunks p with
    | none =>
      show some p = some (u32 (p - 0 + 0))
      rw [u32_of_lt _ (by omega)]
      rfl
    | some last =>
      rw [shiftBy_some]
      show (if p ≥ last.oldEnd then _ else _) = _
      split_ifs with h1
      · rfl
      · rfl

/-- No wrap-around happens at an offset whose image is a `u32`. -/
theorem map_eq_image_of_fits (f : PositionMap) (a b : Nat) (hw : f.WellFormed a b) (p : Nat)
    (hp : p < U32_SIZE) (hfit : ∀ q, f.image p = some q → q < U32_SIZE) :
    f.map p = f.image p := by
  rw [map_eq_image f a b hw p hp]
  cases hq : f.image p with
  | none => rfl
  | some q =>
    show some (u32 q) = some q
    rw [u32_of_lt q (hfit q hq)]

/-! ## §4. A well-formed map is determined by its images -/

/-- The point the hunks come after maps to its counterpart. -/
theorem imageFrom_start (a b o n : Nat) (hs : List Hunk) (hw : After a b o n hs) :
    imageFrom o n hs o = some n := by
  cases hs with
  | nil =>
    show some (o - o + n) = some n
    rw [Nat.sub_self, Nat.zero_add]
  | cons h rest =>
    rw [imageFrom_before o n o h rest hw.1, Nat.sub_self, Nat.zero_add]

/-- A hunk moves the offset it starts at, or loses it. -/
theorem imageFrom_hunk_start (a b o n : Nat) (h : Hunk) (rest : List Hunk)
    (hw : From a b o n (h :: rest)) :
    imageFrom o n (h :: rest) h.oldStart ≠ some (h.oldStart - o + n) := by
  obtain ⟨ho, hn, hgap, hv, hrest⟩ := hw
  have hne := hv.nonempty
  by_cases hins : h.oldStart < h.oldEnd
  · rw [imageFrom_inside o n h.oldStart h rest le_rfl hins]
    exact nofun
  · -- a pure insertion: its offset belongs to what follows it
    have heq : h.oldStart = h.oldEnd := by have := hv.old_le; omega
    rw [imageFrom_behind o n h.oldStart h rest hv heq.ge]
    have hs := imageFrom_start a b h.oldEnd h.newEnd rest hrest
    rw [← heq] at hs
    rw [← heq, hs]
    intro hc
    have : h.newEnd = h.oldStart - o + n := Option.some.inj hc
    omega

/-- Two hunk lists with the same images start with hunks at the same offset: the list whose
    first hunk came later would keep the other's start in place. -/
theorem head_oldStart_le (a b a' b' o n : Nat) (h h' : Hunk) (rest rest' : List Hunk)
    (hw : From a b o n (h :: rest)) (_hw' : From a' b' o n (h' :: rest'))
    (himg : ∀ p, o ≤ p → imageFrom o n (h :: rest) p = imageFrom o n (h' :: rest') p) :
    h'.oldStart ≤ h.oldStart := by
  by_contra hlt
  have hne := imageFrom_hunk_start a b o n h rest hw
  rw [himg h.oldStart hw.1, imageFrom_before o n h.oldStart h' rest' (by omega)] at hne
  exact hne rfl

/-- ... and with hunks of the same length: a longer one would lose the other's end. -/
theorem head_oldEnd_le (a b a' b' o n : Nat) (h h' : Hunk) (rest rest' : List Hunk)
    (hw : From a b o n (h :: rest)) (_hw' : From a' b' o n (h' :: rest'))
    (hs : h.oldStart = h'.oldStart)
    (himg : ∀ p, o ≤ p → imageFrom o n (h :: rest) p = imageFrom o n (h' :: rest') p) :
    h'.oldEnd ≤ h.oldEnd := by
  by_contra hlt
  obtain ⟨ho, hn, hgap, hv, hrest⟩ := hw
  have hle := hv.old_le
  have hend := himg h.oldEnd (by omega)
  rw [imageFrom_behind o n h.oldEnd h rest hv le_rfl,
    imageFrom_start a b h.oldEnd h.newEnd rest hrest,
    imageFrom_inside o n h.oldEnd h' rest' (by omega) (by omega)] at hend
  cases hend

/-- **A hunk list is determined by its images.** -/
theorem hunks_of_imageFrom (a b a' b' : Nat) (hs : List Hunk) :
    ∀ (hs' : List Hunk) (o n : Nat), From a b o n hs → From a' b' o n hs' →
      (∀ p, o ≤ p → imageFrom o n hs p = imageFrom o n hs' p) → hs = hs' := by
  induction hs with
  | nil =>
    intro hs' o n _ hw' himg
    cases hs' with
    | nil => rfl
    | cons h' rest' =>
      exfalso
      apply imageFrom_hunk_start a' b' o n h' rest' hw'
      exact (himg h'.oldStart hw'.1).symm
  | cons h rest ih =>
    intro hs' o n hw hw' himg
    cases hs' with
    | nil =>
      exfalso
      apply imageFrom_hunk_start a b o n h rest hw
      exact himg h.oldStart hw.1
    | cons h' rest' =>
      have himg' : ∀ p, o ≤ p → imageFrom o n (h' :: rest') p = imageFrom o n (h :: rest) p :=
        fun p hp => (himg p hp).symm
      have hstart : h.oldStart = h'.oldStart := by
        apply Nat.le_antisymm
        · exact head_oldStart_le a' b' a b o n h' h rest' rest hw' hw himg'
        · exact head_oldStart_le a b a' b' o n h h' rest rest' hw hw' himg
      have hend : h.oldEnd = h'.oldEnd := by
        apply Nat.le_antisymm
        · exact head_oldEnd_le a' b' a b o n h' h rest' rest hw' hw hstart.symm himg'
        · exact head_oldEnd_le a b a' b' o n h h' rest rest' hw hw' hstart himg
      obtain ⟨ho, hn, hgap, hv, hrest⟩ := hw
      obtain ⟨ho', hn', hgap', hv', hrest'⟩ := hw'
      have hold := hv.old_le
      -- the end of a hunk maps to the end of its new side
      have hnewEnd : h.newEnd = h'.newEnd := by
        have himgEnd := himg h.oldEnd (by omega)
        rw [imageFrom_behind o n h.oldEnd h rest hv le_rfl,
          imageFrom_start a b h.oldEnd h.newEnd rest hrest, hend,
          imageFrom_behind o n h'.oldEnd h' rest' hv' le_rfl,
          imageFrom_start a' b' h'.oldEnd h'.newEnd rest' hrest'] at himgEnd
        exact Option.some.inj himgEnd
      have hhead : h = h' := by
        obtain ⟨os, oe, ns, ne⟩ := h
        obtain ⟨os', oe', ns', ne'⟩ := h'
        have hns : ns = ns' := by
          simp only at hgap hgap' hstart hn hn'
          omega
        simp only at hstart hend hnewEnd
        rw [hstart, hend, hns, hnewEnd]
      subst hhead
      have hrests : rest = rest' := by
        apply ih rest' h.oldEnd h.newEnd hrest.toFrom hrest'.toFrom
        intro p hp
        have := himg p (by omega)
        rw [imageFrom_behind o n p h rest hv hp, imageFrom_behind o n p h rest' hv hp] at this
        exact this
      rw [hrests]

/-- **Two well-formed maps with the same images are the same map.** -/
theorem hunks_of_image (f g : PositionMap) (a b a' b' : Nat) (hf : f.WellFormed a b)
    (hg : g.WellFormed a' b') (himg : ∀ p, f.image p = g.image p) : f = g := by
  apply PositionMap.ext
  exact hunks_of_imageFrom a b a' b' f.hunks g.hunks 0 0 hf hg (fun p _ => himg p)

/-! ## §5. The inverse map -/

theorem Hunk.Valid.flip (h : Hunk) (hv : h.Valid) : (PositionMap.flip h).Valid :=
  ⟨hv.new_le, hv.old_le, hv.nonempty.symm⟩

theorem After.inverse (a b : Nat) (hs : List Hunk) :
    ∀ (o n : Nat), After a b o n hs → After b a n o (hs.map PositionMap.flip) := by
  induction hs with
  | nil => intro o n h; exact ⟨h.2.1, h.1, h.2.2.symm⟩
  | cons h rest ih =>
    intro o n hw
    obtain ⟨ho, hn, hgap, hv, hrest⟩ := hw
    exact ⟨hn, ho, hgap.symm, hv.flip, ih h.oldEnd h.newEnd hrest⟩

theorem From.inverse (a b o n : Nat) (hs : List Hunk) (hw : From a b o n hs) :
    From b a n o (hs.map PositionMap.flip) := by
  cases hs with
  | nil => exact ⟨hw.2.1, hw.1, hw.2.2.symm⟩
  | cons h rest =>
    obtain ⟨ho, hn, hgap, hv, hrest⟩ := hw
    exact ⟨hn, ho, hgap.symm, hv.flip, hrest.inverse⟩

/-- Reading a map backwards keeps it well-formed. -/
theorem wellFormed_inverse (f : PositionMap) (a b : Nat) (hw : f.WellFormed a b) :
    f.inverse.WellFormed b a := From.inverse a b 0 0 f.hunks hw

theorem imageFrom_inverse (a b : Nat) (hs : List Hunk) :
    ∀ (o n p q : Nat), From a b o n hs → o ≤ p → imageFrom o n hs p = some q →
      imageFrom n o (hs.map PositionMap.flip) q = some p := by
  induction hs with
  | nil =>
    intro o n p q _ hp hq
    have : p - o + n = q := Option.some.inj hq
    show some (q - n + o) = some p
    congr 1
    omega
  | cons h rest ih =>
    intro o n p q hw hp hq
    obtain ⟨ho, hn, hgap, hv, hrest⟩ := hw
    obtain ⟨h1, hpq⟩ | ⟨h2, hq⟩ := imageFrom_some hv hq
    · have hlt : q < (PositionMap.flip h).oldStart := by
        show q < h.newStart
        omega
      show imageFrom n o (PositionMap.flip h :: rest.map PositionMap.flip) q = some p
      rw [imageFrom_before n o q _ _ hlt]
      congr 1
      omega
    · have hge : (PositionMap.flip h).oldEnd ≤ q :=
        imageFrom_ge a b rest h.oldEnd h.newEnd p q hrest.toFrom h2 hq
      show imageFrom n o (PositionMap.flip h :: rest.map PositionMap.flip) q = some p
      rw [imageFrom_behind n o q _ _ hv.flip hge]
      exact ih h.oldEnd h.newEnd p q hrest.toFrom h2 hq

theorem inverse_inverse (f : PositionMap) : f.inverse.inverse = f := by
  apply PositionMap.ext
  show (f.hunks.map PositionMap.flip).map PositionMap.flip = f.hunks
  rw [List.map_map]
  exact List.map_id f.hunks

/-- **The inverse map has the inverse images.** -/
theorem image_inverse_iff (f : PositionMap) (a b : Nat) (hw : f.WellFormed a b) (p q : Nat) :
    f.image p = some q ↔ f.inverse.image q = some p := by
  constructor
  · exact imageFrom_inverse a b f.hunks 0 0 p q hw (Nat.zero_le p)
  · intro h
    have hback := imageFrom_inverse b a f.inverse.hunks 0 0 q p
      (wellFormed_inverse f a b hw) (Nat.zero_le q) h
    have heq : f.inverse.hunks.map PositionMap.flip = f.hunks :=
      congrArg PositionMap.hunks (inverse_inverse f)
    rw [heq] at hback
    exact hback

end GluaLs.Edit
