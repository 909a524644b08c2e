/-
  GluaLs.Lib.SharedEnds — what two sequences share at their ends.

  Two scans recur in any comparison of sequences: step both indices forwards while the
  elements match, and step both end indices backwards while they do.  `sharedStart` and
  `sharedEnd` count the rounds of these loops for ANY match relation; `Agree` says that two
  index intervals hold the same elements, and composes.
-/
import Mathlib.Data.List.Basic
import Mathlib.Tactic

namespace GluaLs.Lib

/-! ## §1. The two scans -/

/-- The rounds of `while 0 < rounds && same i j { i += 1; j += 1 }`, at most `rounds`. -/
def sharedStart (same : Nat → Nat → Bool) : Nat → Nat → Nat → Nat
  | 0, _, _ => 0
  | rounds + 1, i, j => if same i j then sharedStart same rounds (i + 1) (j + 1) + 1 else 0

/-- The rounds of `while 0 < rounds && same (i - 1) (j - 1) { i -= 1; j -= 1 }`. -/
def sharedEnd (same : Nat → Nat → Bool) : Nat → Nat → Nat → Nat
  | 0, _, _ => 0
  | rounds + 1, i, j =>
    if same (i - 1) (j - 1) then sharedEnd same rounds (i - 1) (j - 1) + 1 else 0

section

variable (same : Nat → Nat → Bool) (rounds : Nat)

theorem sharedStart_le : ∀ (i j : Nat), sharedStart same rounds i j ≤ rounds := by
  induction rounds with
  | zero => intro i j; exact le_rfl
  | succ rounds ih =>
    intro i j
    unfold sharedStart
    split_ifs with h
    · exact Nat.succ_le_succ (ih (i + 1) (j + 1))
    · exact Nat.zero_le _

theorem sharedEnd_le : ∀ (i j : Nat), sharedEnd same rounds i j ≤ rounds := by
  induction rounds with
  | zero => intro i j; exact le_rfl
  | succ rounds ih =>
    intro i j
    unfold sharedEnd
    split_ifs with h
    · exact Nat.succ_le_succ (ih (i - 1) (j - 1))
    · exact Nat.zero_le _

/-- Every round of the forward scan found a match. -/
theorem sharedStart_same :
    ∀ (i j k : Nat), k < sharedStart same rounds i j → same (i + k) (j + k) = true := by
  induction rounds with
  | zero => intro i j k hk; exact absurd hk (Nat.not_lt_zero k)
  | succ rounds ih =>
    intro i j k hk
    unfold sharedStart at hk
    split_ifs at hk with h
    · cases k with
      | zero => exact h
      | succ k =>
        have := ih (i + 1) (j + 1) k (by omega)
        rw [show i + (k + 1) = i + 1 + k by omega, show j + (k + 1) = j + 1 + k by omega]
        exact this
    · omega

/-- Every round of the backward scan found a match. -/
theorem sharedEnd_same :
    ∀ (i j k : Nat), rounds ≤ i → rounds ≤ j → k < sharedEnd same rounds i j →
      same (i - (k + 1)) (j - (k + 1)) = true := by
  induction rounds with
  | zero => intro i j k _ _ hk; exact absurd hk (Nat.not_lt_zero k)
  | succ rounds ih =>
    intro i j k hi hj hk
    unfold sharedEnd at hk
    split_ifs at hk with h
    · cases k with
      | zero => exact h
      | succ k =>
        have := ih (i - 1) (j - 1) k (by omega) (by omega) (by omega)
        rw [show i - (k + 1 + 1) = i - 1 - (k + 1) by omega,
          show j - (k + 1 + 1) = j - 1 - (k + 1) by omega]
        exact this
    · omega

end

/-- The pairs a scan passes: `(i, j), (i + 1, j + 1), …`. -/
def diagonal (i j : Nat) : Nat → List (Nat × Nat)
  | 0 => []
  | k + 1 => (i, j) :: diagonal (i + 1) (j + 1) k

/-! ## §2. Intervals that hold the same elements -/

section

variable {α : Type} (xs ys : List α)

/-- From `(o, n)` to `(o', n')` the two lists hold the same elements. -/
def Agree (o n o' n' : Nat) : Prop :=
  ∃ len, o' = o + len ∧ n' = n + len ∧ ∀ i, i < len → xs[o + i]? = ys[n + i]?

theorem Agree.refl (o n : Nat) : Agree xs ys o n o n :=
  ⟨0, rfl, rfl, fun i hi => absurd hi (Nat.not_lt_zero i)⟩

theorem Agree.trans (o n o' n' o'' n'' : Nat) (h : Agree xs ys o n o' n')
    (h' : Agree xs ys o' n' o'' n'') : Agree xs ys o n o'' n'' := by
  obtain ⟨len, ho, hn, hsame⟩ := h
  obtain ⟨len', ho', hn', hsame'⟩ := h'
  refine ⟨len + len', by omega, by omega, ?_⟩
  intro i hi
  by_cases h1 : i < len
  · exact hsame i h1
  · have := hsame' (i - len) (by omega)
    rw [show o' + (i - len) = o + i by omega, show n' + (i - len) = n + i by omega] at this
    exact this

/-- The start of an interval that agrees agrees. -/
theorem Agree.take (o n o' n' d : Nat) (h : Agree xs ys o n o' n') (hd : o + d ≤ o') :
    Agree xs ys o n (o + d) (n + d) := by
  obtain ⟨len, ho, hn, hsame⟩ := h
  exact ⟨d, rfl, rfl, fun i hi => hsame i (by omega)⟩

/-- So does its rest. -/
theorem Agree.drop (o n o' n' d : Nat) (h : Agree xs ys o n o' n') (hd : o + d ≤ o') :
    Agree xs ys (o + d) (n + d) o' n' := by
  obtain ⟨len, ho, hn, hsame⟩ := h
  refine ⟨len - d, by omega, by omega, ?_⟩
  intro i hi
  have := hsame (d + i) (by omega)
  rw [← Nat.add_assoc, ← Nat.add_assoc] at this
  exact this

/-- The slice of a list between two indices. -/
def slice (xs : List α) (i j : Nat) : List α := (xs.drop i).take (j - i)

theorem getElem?_slice (i j k : Nat) (hk : k < j - i) : (slice xs i j)[k]? = xs[i + k]? := by
  unfold slice
  rw [List.getElem?_take, if_pos hk, List.getElem?_drop]

theorem length_slice (i j : Nat) (hj : j ≤ xs.length) : (slice xs i j).length = j - i := by
  unfold slice
  rw [List.length_take, List.length_drop]
  omega

/-- Intervals that agree are equal as slices. -/
theorem slice_of_agree (o n o' n' : Nat) (h : Agree xs ys o n o' n') :
    slice xs o o' = slice ys n n' := by
  obtain ⟨len, ho, hn, hsame⟩ := h
  apply List.ext_getElem?
  intro k
  by_cases hk : k < len
  · rw [getElem?_slice xs o o' k (by omega), getElem?_slice ys n n' k (by omega)]
    exact hsame k hk
  · have h1 : (slice xs o o').length ≤ k := by
      unfold slice
      rw [List.length_take]
      omega
    have h2 : (slice ys n n').length ≤ k := by
      unfold slice
      rw [List.length_take]
      omega
    rw [List.getElem?_eq_none h1, List.getElem?_eq_none h2]

/-- Slices that are equal agree, inside the lists. -/
theorem agree_of_slice (o n o' n' : Nat) (ho : o ≤ o') (hn : n ≤ n') (ho' : o' ≤ xs.length)
    (hn' : n' ≤ ys.length) (h : slice xs o o' = slice ys n n') : Agree xs ys o n o' n' := by
  have hlen : o' - o = n' - n := by
    rw [← length_slice xs o o' ho', h, length_slice ys n n' hn']
  refine ⟨o' - o, by omega, by omega, ?_⟩
  intro i hi
  rw [← getElem?_slice xs o o' i hi, h, getElem?_slice ys n n' i (by omega)]

theorem slice_append (i j k : Nat) (hij : i ≤ j) (hjk : j ≤ k) :
    slice xs i j ++ slice xs j k = slice xs i k := by
  unfold slice
  rw [show k - i = (j - i) + (k - j) by omega, List.take_add, List.drop_drop,
    show i + (j - i) = j by omega]

variable [DecidableEq α]

/-- Whether two lists hold the same element at two indices. -/
def sameAt (i j : Nat) : Bool := decide (xs[i]? = ys[j]?)

theorem agree_sharedStart (rounds o n : Nat) :
    Agree xs ys o n (o + sharedStart (sameAt xs ys) rounds o n)
      (n + sharedStart (sameAt xs ys) rounds o n) := by
  refine ⟨_, rfl, rfl, ?_⟩
  intro i hi
  exact of_decide_eq_true (sharedStart_same (sameAt xs ys) rounds o n i hi)

theorem agree_sharedEnd (rounds o n : Nat) (ho : rounds ≤ o) (hn : rounds ≤ n) :
    Agree xs ys (o - sharedEnd (sameAt xs ys) rounds o n)
      (n - sharedEnd (sameAt xs ys) rounds o n) o n := by
  have hle := sharedEnd_le (sameAt xs ys) rounds o n
  refine ⟨sharedEnd (sameAt xs ys) rounds o n, by omega, by omega, ?_⟩
  intro i hi
  have := sharedEnd_same (sameAt xs ys) rounds o n
    (sharedEnd (sameAt xs ys) rounds o n - (i + 1)) ho hn (by omega)
  have hsame := of_decide_eq_true this
  rw [show o - sharedEnd (sameAt xs ys) rounds o n + i
      = o - (sharedEnd (sameAt xs ys) rounds o n - (i + 1) + 1) by omega,
    show n - sharedEnd (sameAt xs ys) rounds o n + i
      = n - (sharedEnd (sameAt xs ys) rounds o n - (i + 1) + 1) by omega]
  exact hsame

end

end GluaLs.Lib
