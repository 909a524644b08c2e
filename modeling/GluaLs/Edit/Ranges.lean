/-
  GluaLs.Edit.Ranges — the laws of `map`, `inverse` and `map_range`
  (`db_index/edit/position_map.rs`).

  A range starts and ends by two functions of their own: a start at a hunk takes the hunk in,
  an end there stops before it.  Both are read off the hunks in order (`startFrom`,
  `endFrom`), have images at the same offsets, and

      end p  ≤  start p,      start p  ≤  end p'   for p < p'       (`startFrom_le_endFrom`)

  which is all that containment and order of ranges rest on.  Sums are `u32`s: an offset is
  `Fitting` if its image is one, as every offset of the old text is.
-/
import GluaLs.Edit.DiffSound
import GluaLs.Edit.TypeRemap

namespace GluaLs.Edit

open GluaLs.Lib GluaLs.Types Diff PositionMap

/-! ## §1. The inverse law -/

theorem From.le_of_mem (a b : Nat) (hs : List Hunk) :
    ∀ (o n : Nat), From a b o n hs → ∀ h ∈ hs, o ≤ h.oldStart := by
  induction hs with
  | nil => exact nofun
  | cons h rest ih =>
    intro o n hw h' hmem
    obtain ⟨ho, _, _, hv, hrest⟩ := hw
    obtain rfl | hmem := List.mem_cons.1 hmem
    · exact ho
    · have := ih h.oldEnd h.newEnd hrest.toFrom h' hmem
      have := hv.old_le
      omega

/-- The offsets without an image are those inside a hunk. -/
theorem imageFrom_eq_none_iff (a b : Nat) (hs : List Hunk) :
    ∀ (o n p : Nat), From a b o n hs →
      (imageFrom o n hs p = none ↔ ∃ h ∈ hs, h.oldStart ≤ p ∧ p < h.oldEnd) := by
  induction hs with
  | nil =>
    intro o n p _
    simp [imageFrom]
  | cons h rest ih =>
    intro o n p hw
    obtain ⟨_, _, _, hv, hrest⟩ := hw
    have hle := hv.old_le
    have hlater := From.le_of_mem a b rest h.oldEnd h.newEnd hrest.toFrom
    obtain h1 | ⟨h1, h2⟩ | ⟨h1, h2⟩ := offset_cases h p
    · rw [imageFrom_before o n p h rest h1]
      refine iff_of_false nofun ?_
      rintro ⟨h', hmem, h3, h4⟩
      obtain rfl | hmem := List.mem_cons.1 hmem
      · omega
      · have := hlater h' hmem
        omega
    · rw [imageFrom_inside o n p h rest h1 h2]
      exact iff_of_true rfl ⟨h, .head _, h1, h2⟩
    · rw [imageFrom_behind o n p h rest hv h2, ih h.oldEnd h.newEnd p hrest.toFrom]
      refine ⟨fun ⟨h', hmem, hin⟩ => ⟨h', .tail h hmem, hin⟩, ?_⟩
      rintro ⟨h', hmem, h3, h4⟩
      obtain rfl | hmem := List.mem_cons.1 hmem
      · omega
      · exact ⟨h', hmem, h3, h4⟩

/-- An offset whose image between texts of `a` and of `b` bytes is a `u32`. -/
def Fitting (a b p : Nat) : Prop := p < U32_SIZE ∧ p - a + b < U32_SIZE

theorem map_eq_image_of_fitting {f : PositionMap} {a b p : Nat} (hw : f.WellFormed a b)
    (hp : Fitting a b p) : f.map p = f.image p := by
  apply map_eq_image_of_fits f a b hw p hp.1
  intro q hq
  have hle := (image_le f a b hw p q hq).1
  exact lt_of_le_of_lt hle hp.2

/-- **The inverse law.**  `map` and the `map` of the inverse undo each other; `map` is strictly
increasing, and has no image for the offsets inside a hunk and for no others. -/
theorem inverse_law (f : PositionMap) (a b : Nat) (hw : f.WellFormed a b) :
    (∀ p q, Fitting a b p → Fitting b a q → (f.map p = some q ↔ f.inverse.map q = some p)) ∧
    (∀ p p' q q', Fitting a b p → Fitting a b p' → p < p' → f.map p = some q →
      f.map p' = some q' → q < q') ∧
    f.inverse.inverse = f ∧
    ∀ p, p < U32_SIZE → (f.map p = none ↔ ∃ h ∈ f.hunks, h.oldStart ≤ p ∧ p < h.oldEnd) := by
  refine ⟨?_, ?_, inverse_inverse f, ?_⟩
  · intro p q hp hq
    rw [map_eq_image_of_fitting hw hp, map_eq_image_of_fitting (wellFormed_inverse f a b hw) hq]
    exact image_inverse_iff f a b hw p q
  · intro p p' q q' hp hp' hlt hq hq'
    rw [map_eq_image_of_fitting hw hp] at hq
    rw [map_eq_image_of_fitting hw hp'] at hq'
    exact image_strictMono f a b hw p p' q q' hlt hq hq'
  · intro p hp
    rw [map_eq_image f a b hw p hp, Option.map_eq_none_iff]
    exact imageFrom_eq_none_iff a b f.hunks 0 0 p hw

/-- Ten bytes written at the start of a text of five. -/
def tenAtStart : PositionMap := ⟨[⟨0, 0, 0, 10⟩]⟩

theorem wellFormed_tenAtStart : tenAtStart.WellFormed 5 15 :=
  ⟨le_rfl, le_rfl, rfl, ⟨le_rfl, Nat.zero_le 10, .inr (by decide)⟩, by decide, by decide, rfl⟩

theorem inverse_law_tenAtStart : tenAtStart.map 3 = some 13 ↔ tenAtStart.inverse.map 13 = some 3 :=
  (inverse_law tenAtStart 5 15 wellFormed_tenAtStart).1 3 13 ⟨by decide, by decide⟩
    ⟨by decide, by decide⟩

/-- Behind the text the sum wraps: five bytes before the last offset, the image is an offset
inside the ten bytes written. -/
theorem inverse_law_wraps : tenAtStart.WellFormed 5 15 ∧
    tenAtStart.map 4294967291 = some 5 ∧ tenAtStart.inverse.map 5 = none :=
  ⟨wellFormed_tenAtStart, rfl, rfl⟩

/-! ## §2. Starts and ends -/

/-- Where a range that starts at `p` starts, read off the hunks that come after `(o, n)`. -/
def startFrom : Nat → Nat → List Hunk → Nat → Option Nat
  | o, n, [], p => some (p - o + n)
  | o, n, h :: rest, p =>
    if p < h.oldStart then some (p - o + n)
    else if h.oldEnd ≤ p then startFrom h.oldEnd h.newEnd rest p
    else if h.oldStart = p then some h.newStart
    else none

/-- Where a range that ends at `p` ends. -/
def endFrom : Nat → Nat → List Hunk → Nat → Option Nat
  | o, n, [], p => some (p - o + n)
  | o, n, h :: rest, p =>
    if p ≤ h.oldStart then some (p - o + n)
    else if h.oldEnd ≤ p then endFrom h.oldEnd h.newEnd rest p
    else none

/-- The last hunk a predicate holds of. -/
theorem hunkBefore_eq (f : PositionMap) (pred : Hunk → Bool) :
    f.hunkBefore pred = (f.hunks.takeWhile pred).getLast? := by
  unfold hunkBefore partitionPoint
  split
  · rename_i h0
    rw [List.length_eq_zero_iff.1 h0]
    rfl
  · rename_i i hi
    exact getElem?_takeWhile_pred f.hunks pred i hi

/-- No hunk starts at the point the hunks come after. -/
theorem takeWhile_after (a b o n : Nat) (hs : List Hunk) (hw : After a b o n hs)
    (pred : Hunk → Bool) (hpred : ∀ h, pred h = true → h.oldStart ≤ o) :
    hs.takeWhile pred = [] := by
  cases hs with
  | nil => rfl
  | cons h rest =>
    apply List.takeWhile_cons_of_neg
    intro hh
    have := hpred h hh
    have := hw.1
    omega

/-- What `start_image` answers, with no bound on the size of an offset. -/
def startBy (o n p : Nat) : Option Hunk → Option Nat
  | none => some (p - o + n)
  | some h =>
    if h.oldStart = p then some (if h.oldStart = h.oldEnd then h.newEnd else h.newStart)
    else if p ≥ h.oldEnd then some (p - h.oldEnd + h.newEnd)
    else none

theorem startFrom_eq (a b : Nat) (hs : List Hunk) : ∀ o n p, From a b o n hs →
    startFrom o n hs p =
      startBy o n p (hs.takeWhile fun h => decide (h.oldStart ≤ p)).getLast? := by
  induction hs with
  | nil => exact fun _ _ _ _ => rfl
  | cons h rest ih =>
    intro o n p hw
    obtain ⟨_, _, _, hv, hrest⟩ := hw
    have hle := hv.old_le
    unfold startFrom
    split_ifs with h1 h2 h3
    · rw [List.takeWhile_cons_of_neg (by simpa using h1)]
      rfl
    · rw [List.takeWhile_cons_of_pos (by simpa using h1), List.getLast?_cons,
        ih h.oldEnd h.newEnd p hrest.toFrom]
      cases (rest.takeWhile fun h => decide (h.oldStart ≤ p)).getLast? with
      | none =>
        show some (p - h.oldEnd + h.newEnd) = startBy o n p (some h)
        simp only [startBy]
        split_ifs
        · simp only [Option.some.injEq]
          omega
        · omega
        · rfl
      | some last => rfl
    all_goals
      rw [List.takeWhile_cons_of_pos (by simpa using h1), takeWhile_after a b h.oldEnd h.newEnd rest
        hrest _ fun h' hh' => by have := of_decide_eq_true hh'; omega]
      show _ = startBy o n p (some h)
      simp only [startBy]
    · rw [if_pos h3, if_neg (by omega)]
    · rw [if_neg h3, if_neg h2]

/-- What `end_image` answers, with no bound on the size of an offset. -/
def endBy (o n p : Nat) : Option Hunk → Option Nat
  | none => some (p - o + n)
  | some h => if p ≥ h.oldEnd then some (p - h.oldEnd + h.newEnd) else none

theorem endFrom_eq (a b : Nat) (hs : List Hunk) : ∀ o n p, From a b o n hs →
    endFrom o n hs p = endBy o n p (hs.takeWhile fun h => decide (h.oldStart < p)).getLast? := by
  induction hs with
  | nil => exact fun _ _ _ _ => rfl
  | cons h rest ih =>
    intro o n p hw
    obtain ⟨_, _, _, hv, hrest⟩ := hw
    unfold endFrom
    split_ifs with h1 h2
    · rw [List.takeWhile_cons_of_neg (by simpa using h1)]
      rfl
    · rw [List.takeWhile_cons_of_pos (by simpa using h1), List.getLast?_cons,
        ih h.oldEnd h.newEnd p hrest.toFrom]
      cases (rest.takeWhile fun h => decide (h.oldStart < p)).getLast? with
      | none => exact (if_pos h2).symm
      | some last => rfl
    · rw [List.takeWhile_cons_of_pos (by simpa using h1), takeWhile_after a b h.oldEnd h.newEnd rest
        hrest _ fun h' hh' => by have := of_decide_eq_true hh'; omega]
      exact (if_neg h2).symm

/-! ## §3. Where they lie -/

theorem startFrom_start (a b o n : Nat) (hs : List Hunk) (hw : After a b o n hs) :
    startFrom o n hs o = some n := by
  cases hs with
  | nil => simp [startFrom]
  | cons h rest => simp [startFrom, hw.1]

/-- **Both have images at the same offsets**, and an end does not lie behind a start. -/
theorem imagesFrom_cases (a b : Nat) (hs : List Hunk) : ∀ o n p, From a b o n hs → o ≤ p →
    (startFrom o n hs p = none ∧ endFrom o n hs p = none) ∨
      ∃ x y, endFrom o n hs p = some x ∧ startFrom o n hs p = some y ∧
        n ≤ x ∧ x ≤ y ∧ y ≤ p - a + b := by
  induction hs with
  | nil =>
    intro o n p hw hp
    obtain ⟨ho, hn, hgap⟩ := hw
    exact .inr ⟨_, _, rfl, rfl, by omega, le_rfl, by omega⟩
  | cons h rest ih =>
    intro o n p hw hp
    obtain ⟨ho, hn, hgap, hv, hrest⟩ := hw
    have hold := hv.old_le
    have hnew := hv.new_le
    have hle := From.le a b rest h.oldEnd h.newEnd hrest.toFrom
    unfold startFrom endFrom
    obtain h1 | rfl | h1 := lt_trichotomy p h.oldStart
    · rw [if_pos h1, if_pos h1.le]
      exact .inr ⟨_, _, rfl, rfl, by omega, le_rfl, by omega⟩
    · rw [if_neg (lt_irrefl _), if_pos le_rfl]
      by_cases h2 : h.oldEnd ≤ h.oldStart
      · -- an insertion: the range ends before it, and starts behind it
        have hstart : startFrom h.oldEnd h.newEnd rest h.oldStart = some h.newEnd := by
          rw [le_antisymm hold h2]
          exact startFrom_start a b _ _ rest hrest
        rw [if_pos h2, hstart]
        exact .inr ⟨_, _, rfl, rfl, by omega, by omega, by omega⟩
      · rw [if_neg h2, if_pos rfl]
        exact .inr ⟨_, _, rfl, rfl, by omega, by omega, by omega⟩
    · rw [if_neg h1.not_gt, if_neg h1.not_ge]
      by_cases h2 : h.oldEnd ≤ p
      · rw [if_pos h2, if_pos h2]
        obtain hnone | ⟨x, y, hx, hy, hle', hxy, hya⟩ := ih h.oldEnd h.newEnd p hrest.toFrom h2
        · exact .inl hnone
        · exact .inr ⟨x, y, hx, hy, by omega, hxy, hya⟩
      · rw [if_neg h2, if_neg h2, if_neg h1.ne]
        exact .inl ⟨rfl, rfl⟩

/-- **A start does not lie behind a later end.** -/
theorem startFrom_le_endFrom (a b : Nat) (hs : List Hunk) : ∀ o n p q y x, From a b o n hs →
    o ≤ p → p < q → startFrom o n hs p = some y → endFrom o n hs q = some x → y ≤ x := by
  induction hs with
  | nil =>
    intro o n p q y x _ _ _ hy hx
    have hy : p - o + n = y := Option.some.inj hy
    have hx : q - o + n = x := Option.some.inj hx
    omega
  | cons h rest ih =>
    intro o n p q y x hw hp hpq hy hx
    obtain ⟨ho, hn, hgap, hv, hrest⟩ := hw
    have hnew := hv.new_le
    have hbehind : h.oldEnd ≤ q → endFrom h.oldEnd h.newEnd rest q = some x → h.newEnd ≤ x := by
      intro hq hx
      obtain ⟨-, hnone⟩ | ⟨x', y', hx', -, hle, -, -⟩ :=
        imagesFrom_cases a b rest h.oldEnd h.newEnd q hrest.toFrom hq
      · rw [hnone] at hx
        cases hx
      · rw [hx'] at hx
        exact Option.some.inj hx ▸ hle
    unfold startFrom at hy
    unfold endFrom at hx
    split_ifs at hy with h1 h2 h3
    · have hy : p - o + n = y := Option.some.inj hy
      split_ifs at hx with h4 h5
      · have hx : q - o + n = x := Option.some.inj hx
        omega
      · have := hbehind h5 hx
        omega
    · rw [if_neg (by omega), if_pos (by omega)] at hx
      exact ih h.oldEnd h.newEnd p q y x hrest.toFrom h2 hpq hy hx
    · have hy : h.newStart = y := Option.some.inj hy
      rw [if_neg (by omega)] at hx
      split_ifs at hx with h5
      have := hbehind h5 hx
      omega

/-- **Where no hunk meets a range**, one constant moves its start, its end and every offset in
it. -/
theorem imagesFrom_apart (a b : Nat) (hs : List Hunk) : ∀ o n p q, From a b o n hs → o ≤ p →
    p ≤ q → (∀ h ∈ hs, ¬ (h.oldStart < q ∧ p < h.oldEnd)) →
    ∃ o' n', o' ≤ p ∧ endFrom o n hs q = some (q - o' + n') ∧
      (p < q → startFrom o n hs p = some (p - o' + n')) ∧
      ∀ i, p ≤ i → i < q → imageFrom o n hs i = some (i - o' + n') := by
  induction hs with
  | nil => exact fun o n p q _ hp _ _ => ⟨o, n, hp, rfl, fun _ => rfl, fun _ _ _ => rfl⟩
  | cons h rest ih =>
    intro o n p q hw hp hpq happart
    obtain ⟨ho, hn, hgap, hv, hrest⟩ := hw
    have hold := hv.old_le
    by_cases hq : q ≤ h.oldStart
    · refine ⟨o, n, hp, if_pos hq, fun hlt => if_pos (by omega), fun i _ hi => ?_⟩
      exact imageFrom_before o n i h rest (by omega)
    · have hbehind : h.oldEnd ≤ p := by
        have := happart h (.head _)
        omega
      obtain ⟨o', n', ho', hend, hstart, hinner⟩ :=
        ih h.oldEnd h.newEnd p q hrest.toFrom hbehind hpq
        fun h' hmem => happart h' (.tail h hmem)
      refine ⟨o', n', ho', ?_, fun hlt => ?_, fun i hi hlt => ?_⟩
      · unfold endFrom
        rw [if_neg hq, if_pos (by omega), hend]
      · unfold startFrom
        rw [if_neg (by omega), if_pos hbehind, hstart hlt]
      · rw [imageFrom_behind o n i h rest hv (by omega)]
        exact hinner i hi hlt

section

variable {f : PositionMap} {a b p : Nat}

section

variable (hw : f.WellFormed a b) (hp : Fitting a b p)
include hw hp

theorem images_lt :
    (∀ y, startFrom 0 0 f.hunks p = some y → y < U32_SIZE) ∧
      ∀ x, endFrom 0 0 f.hunks p = some x → x < U32_SIZE := by
  have hfits := hp.2
  obtain ⟨hs, he⟩ | ⟨x, y, he, hs, _, hxy, hy⟩ :=
    imagesFrom_cases a b f.hunks 0 0 p hw (Nat.zero_le p)
  · rw [hs, he]
    exact ⟨nofun, nofun⟩
  · rw [hs, he]
    refine ⟨?_, ?_⟩ <;>
    · rintro z ⟨⟩
      omega

theorem startImage_eq : f.startImage p = startFrom 0 0 f.hunks p := by
  have hlt := (images_lt hw hp).1
  rw [startFrom_eq a b f.hunks 0 0 p hw] at hlt ⊢
  unfold startImage
  rw [hunkBefore_eq]
  cases hlast : (f.hunks.takeWhile fun h => decide (h.oldStart ≤ p)).getLast? with
  | none => rfl
  | some h =>
    rw [hlast] at hlt
    simp only [startBy] at hlt ⊢
    split_ifs at hlt ⊢
    · rfl
    · rfl
    · rw [u32_of_lt _ (hlt _ rfl)]
    · rfl

theorem endImage_eq : f.endImage p = endFrom 0 0 f.hunks p := by
  have hlt := (images_lt hw hp).2
  rw [endFrom_eq a b f.hunks 0 0 p hw] at hlt ⊢
  unfold endImage
  rw [hunkBefore_eq]
  cases hlast : (f.hunks.takeWhile fun h => decide (h.oldStart < p)).getLast? with
  | none => rfl
  | some h =>
    rw [hlast] at hlt
    simp only [endBy] at hlt ⊢
    split_ifs at hlt ⊢
    · rw [u32_of_lt _ (hlt _ rfl)]
    · rfl

end

end

/-! ## §4. Ranges -/

/-- A range with a start, an end and images that are `u32`s. -/
def FittingRange (a b : Nat) (r : TextRange) : Prop :=
  r.start ≤ r.stop ∧ Fitting a b r.start ∧ Fitting a b r.stop

def ContainsRange (s r : TextRange) : Prop := s.start ≤ r.start ∧ r.stop ≤ s.stop

/-- What `map_range` does to ranges between texts of `a` and of `b` bytes. -/
structure RangeLaws (f : PositionMap) (a b : Nat) : Prop where
  runs_forwards : ∀ r r', FittingRange a b r → f.mapRange r = some r' → r'.start ≤ r'.stop
  never_rejects : ∀ r start stop, FittingRange a b r → r.start < r.stop →
    f.startImage r.start = some start → f.endImage r.stop = some stop →
    f.mapRange r = some ⟨start, stop⟩
  within : ∀ r s r' s', FittingRange a b r → FittingRange a b s → r.start < r.stop →
    s.start < s.stop → f.mapRange r = some r' → f.mapRange s = some s' →
    ContainsRange s r → ContainsRange s' r'
  before : ∀ r s r' s', FittingRange a b r → FittingRange a b s → r.start < r.stop →
    s.start < s.stop → f.mapRange r = some r' → f.mapRange s = some s' → r.stop ≤ s.start →
    r'.stop ≤ s'.start
  shifted : ∀ r, FittingRange a b r →
    (∀ h ∈ f.hunks, ¬ (h.oldStart < r.stop ∧ r.start < h.oldEnd)) →
    ∃ o n, o ≤ r.start ∧ f.mapRange r = some ⟨r.start - o + n, r.stop - o + n⟩ ∧
      ∀ i, r.start ≤ i → i < r.stop → f.image i = some (i - o + n)

section

variable {f : PositionMap} {a b : Nat}

theorem mapRange_nonempty {r r' : TextRange} (hlt : r.start < r.stop)
    (hr' : f.mapRange r = some r') :
    f.startImage r.start = some r'.start ∧ f.endImage r.stop = some r'.stop := by
  unfold mapRange at hr'
  rw [if_neg hlt.ne] at hr'
  split at hr'
  · rename_i start stop hstart hstop
    split_ifs at hr'
    cases hr'
    exact ⟨hstart, hstop⟩
  · cases hr'

/-- **The laws of `map_range`.** -/
theorem rangeLaws (hw : f.WellFormed a b) : RangeLaws f a b := by
  have hcases := fun p => imagesFrom_cases a b f.hunks 0 0 p hw (Nat.zero_le p)
  -- an end between two starts, and a start between two ends
  have hlater : ∀ p q x y, p < q → startFrom 0 0 f.hunks p = some y →
      endFrom 0 0 f.hunks q = some x → y ≤ x := fun p q x y hpq =>
    startFrom_le_endFrom a b f.hunks 0 0 p q y x hw (Nat.zero_le p) hpq
  have hends : ∀ p x y, endFrom 0 0 f.hunks p = some x → startFrom 0 0 f.hunks p = some y →
      x ≤ y := by
    intro p x y hx hy
    obtain ⟨hnone, -⟩ | ⟨x', y', hx', hy', _, hxy, _⟩ := hcases p
    · rw [hnone] at hy
      cases hy
    · rw [hx'] at hx
      rw [hy'] at hy
      cases hx
      cases hy
      exact hxy
  have hstarts : ∀ p q y z, p ≤ q → startFrom 0 0 f.hunks p = some y →
      startFrom 0 0 f.hunks q = some z → y ≤ z := by
    intro p q y z hpq hy hz
    obtain rfl | hlt := hpq.eq_or_lt
    · rw [hy] at hz
      exact (Option.some.inj hz).le
    · obtain ⟨hnone, -⟩ | ⟨x, z', hx, hz', _, hxz, _⟩ := hcases q
      · rw [hnone] at hz
        cases hz
      · exact (hlater p q x y hlt hy hx).trans (hends q x z hx hz)
  have hstops : ∀ p q x z, p ≤ q → endFrom 0 0 f.hunks p = some x →
      endFrom 0 0 f.hunks q = some z → x ≤ z := by
    intro p q x z hpq hx hz
    obtain rfl | hlt := hpq.eq_or_lt
    · rw [hx] at hz
      exact (Option.some.inj hz).le
    · obtain ⟨-, hnone⟩ | ⟨x', y, hx', hy, _, hxy, _⟩ := hcases p
      · rw [hnone] at hx
        cases hx
      · exact (hends p x y hx hy).trans (hlater p q z y hlt hy hz)
  have himages : ∀ r r', FittingRange a b r → r.start < r.stop → f.mapRange r = some r' →
      startFrom 0 0 f.hunks r.start = some r'.start ∧
        endFrom 0 0 f.hunks r.stop = some r'.stop := by
    intro r r' hr hlt hr'
    rw [← startImage_eq hw hr.2.1, ← endImage_eq hw hr.2.2]
    exact mapRange_nonempty hlt hr'
  have hguard : ∀ r start stop, FittingRange a b r → r.start < r.stop →
      f.startImage r.start = some start → f.endImage r.stop = some stop →
      f.mapRange r = some ⟨start, stop⟩ := by
    intro r start stop hr hlt hstart hstop
    unfold mapRange
    rw [if_neg hlt.ne, hstart, hstop]
    rw [startImage_eq hw hr.2.1] at hstart
    rw [endImage_eq hw hr.2.2] at hstop
    exact if_pos (hlater _ _ _ _ hlt hstart hstop)
  refine ⟨?_, hguard, ?_, ?_, ?_⟩
  · intro r r' hr hr'
    obtain heq | hlt := hr.1.eq_or_lt
    · unfold mapRange at hr'
      rw [if_pos heq] at hr'
      obtain ⟨x, -, rfl⟩ := Option.map_eq_some_iff.1 hr'
      exact le_rfl
    · obtain ⟨hstart, hstop⟩ := himages r r' hr hlt hr'
      exact hlater _ _ _ _ hlt hstart hstop
  · intro r s r' s' hr hs hrlt hslt hr' hs' hwithin
    obtain ⟨hr1, hr2⟩ := himages r r' hr hrlt hr'
    obtain ⟨hs1, hs2⟩ := himages s s' hs hslt hs'
    exact ⟨hstarts _ _ _ _ hwithin.1 hs1 hr1, hstops _ _ _ _ hwithin.2 hr2 hs2⟩
  · intro r s r' s' hr hs hrlt hslt hr' hs' hbefore
    obtain ⟨-, hr2⟩ := himages r r' hr hrlt hr'
    obtain ⟨hs1, -⟩ := himages s s' hs hslt hs'
    obtain ⟨hnone, -⟩ | ⟨x, y, hx, hy, _, _, _⟩ := hcases s.start
    · rw [hnone] at hs1
      cases hs1
    · exact (hstops _ _ _ _ hbefore hr2 hx).trans (hends _ _ _ hx hs1)
  · intro r hr happart
    obtain ⟨o, n, ho, hend, hstart, hinner⟩ :=
      imagesFrom_apart a b f.hunks 0 0 r.start r.stop hw (Nat.zero_le _) hr.1 happart
    rw [← endImage_eq hw hr.2.2] at hend
    refine ⟨o, n, ho, ?_, hinner⟩
    obtain heq | hlt := hr.1.eq_or_lt
    · unfold mapRange
      rw [if_pos heq, hend, heq]
      rfl
    · have hstart := hstart hlt
      rw [← startImage_eq hw hr.2.1] at hstart
      exact hguard r _ _ hr hlt hstart hend

end

/-- **Ranges under a map**, and the text in them under a diff: a range that no hunk meets holds
the bytes it held. -/
theorem mapRange_laws :
    (∀ f a b, PositionMap.WellFormed f a b → RangeLaws f a b) ∧
    ∀ (old new : String), old.utf8ByteSize < U32_SIZE → new.utf8ByteSize < U32_SIZE →
      ∀ r r', r.start ≤ r.stop → r.stop ≤ old.utf8ByteSize →
        (∀ h ∈ (PositionMap.new old new).hunks, ¬ (h.oldStart < r.stop ∧ r.start < h.oldEnd)) →
        (PositionMap.new old new).mapRange r = some r' →
        slice (asBytes new) r'.start r'.stop = slice (asBytes old) r.start r.stop := by
  refine ⟨fun f a b hw => rangeLaws hw, ?_⟩
  intro old new hold hnew r r' hle hin happart hr'
  obtain ⟨hwf, hscript⟩ := new_script old new hold hnew
  have hfits : ∀ p, p ≤ r.stop → Fitting old.utf8ByteSize new.utf8ByteSize p := by
    intro p hp
    unfold Fitting
    omega
  obtain ⟨o, n, ho, hmap, hinner⟩ :=
    (rangeLaws hwf).shifted r ⟨hle, hfits _ hle, hfits _ le_rfl⟩ happart
  rw [hmap] at hr'
  cases hr'
  rw [← length_asBytes, ← length_asBytes] at hscript
  have hagree : Agree (asBytes old) (asBytes new) r.start (r.start - o + n) r.stop
      (r.stop - o + n) := by
    refine ⟨r.stop - r.start, by omega, by omega, fun i hi => ?_⟩
    have hbyte := imageFrom_same_byte (asBytes old) (asBytes new) _ 0 0 _ _ hscript (Nat.zero_le _)
      (by rw [length_asBytes]; omega) (hinner (r.start + i) (by omega) (by omega))
    rwa [show r.start + i - o + n = r.start - o + n + i by omega] at hbyte
  exact (slice_of_agree _ _ _ _ _ _ hagree).symm

theorem mapRange_laws_tenAtStart :
    tenAtStart.mapRange ⟨1, 3⟩ = some ⟨11, 13⟩ ∧
      (PositionMap.new "ab" "xab").mapRange ⟨0, 2⟩ = some ⟨1, 3⟩ ∧
      slice (asBytes "xab") 1 3 = slice (asBytes "ab") 0 2 := by
  have hmap : (PositionMap.new "ab" "xab").mapRange ⟨0, 2⟩ = some ⟨1, 3⟩ := by decide +kernel
  exact ⟨(mapRange_laws.1 tenAtStart 5 15 wellFormed_tenAtStart).never_rejects ⟨1, 3⟩ 11 13
      ⟨by decide, ⟨by decide, by decide⟩, by decide, by decide⟩ (by decide) rfl rfl,
    hmap, mapRange_laws.2 "ab" "xab" (by decide) (by decide) ⟨0, 2⟩ ⟨1, 3⟩ (by decide) (by decide)
      (by decide +kernel) hmap⟩

/-- Behind the text the sum wraps: both ends of the range have images, and it has none. -/
theorem mapRange_laws_wraps : tenAtStart.WellFormed 5 15 ∧
    tenAtStart.startImage 4294967281 = some 4294967291 ∧
    tenAtStart.endImage 4294967291 = some 5 ∧
    tenAtStart.mapRange ⟨4294967281, 4294967291⟩ = none :=
  ⟨wellFormed_tenAtStart, rfl, rfl, rfl⟩

end GluaLs.Edit
