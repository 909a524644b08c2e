/-
  GluaLs.Lib.StableSort — lists sorted by a key, members of one key in the order they came.

  A sorted list is determined by its RUNS, the members of each key in their order
  (`eq_of_sameRuns`), and a stable sort leaves the runs as they were
  (`sameRuns_insertionSort`).  So two lists sort to the same if their runs are the same, and
  a sort can be taken in steps.
-/
import Mathlib.Data.List.Sort
import Mathlib.Data.List.TakeWhile

namespace GluaLs.Lib

variable {α κ : Type} [LinearOrder κ] {key : α → κ}

/-- Two lists have the same members of each key, in the same order. -/
def SameRuns (key : α → κ) (l l' : List α) : Prop :=
  ∀ k, (l.filter fun a => key a = k) = l'.filter fun a => key a = k

namespace SameRuns

theorem refl (l : List α) : SameRuns key l l := fun _ => rfl

theorem symm {l l' : List α} (hruns : SameRuns key l l') : SameRuns key l' l :=
  fun k => (hruns k).symm

theorem trans {l l' l'' : List α} (hruns : SameRuns key l l') (hruns' : SameRuns key l' l'') :
    SameRuns key l l'' :=
  fun k => (hruns k).trans (hruns' k)

theorem append {l l' m m' : List α} (hruns : SameRuns key l l') (hruns' : SameRuns key m m') :
    SameRuns key (l ++ m) (l' ++ m') := by
  intro k
  rw [List.filter_append, List.filter_append, hruns k, hruns' k]

/-- Two members of different keys can stand in either order. -/
theorem swap (a b : α) (hne : key a ≠ key b) : SameRuns key [a, b] [b, a] := by
  intro k
  by_cases ha : key a = k
  · have hb : key b ≠ k := fun hb => hne (ha.trans hb.symm)
    simp [ha, hb]
  · by_cases hb : key b = k <;> simp [ha, hb]

theorem mem_iff {l l' : List α} (hruns : SameRuns key l l') (a : α) : a ∈ l ↔ a ∈ l' := by
  have hmem : ∀ l : List α, a ∈ l ↔ a ∈ l.filter fun b => key b = key a := by
    intro l
    simp
  rw [hmem l, hmem l', hruns (key a)]

end SameRuns

/-- A member put between the smaller and the larger ones is in its run: behind the members of
    its key, or alone. -/
theorem sameRuns_insert (key : α → κ) (smaller larger : List α) (a : α)
    (hlarger : ∀ b ∈ larger, key b ≠ key a) :
    SameRuns key (smaller ++ a :: larger) (smaller ++ larger ++ [a]) := by
  intro k
  by_cases ha : key a = k
  · have hnone : (larger.filter fun b => key b = k) = [] := by
      rw [List.filter_eq_nil_iff]
      intro b hb hbk
      exact hlarger b hb ((of_decide_eq_true hbk).trans ha.symm)
    simp [ha, hnone]
  · simp [ha]

/-! ## Sorting -/

theorem sameRuns_orderedInsert (a : α) (l : List α) :
    SameRuns key (l.orderedInsert (fun a b => key a ≤ key b) a) (a :: l) := by
  induction l with
  | nil => exact .refl _
  | cons b l ih =>
    rw [List.orderedInsert_cons]
    split
    · exact .refl _
    · rename_i hle
      -- what the member passes has a smaller key
      have hne : key b ≠ key a := fun heq => hle heq.symm.le
      have hpast : SameRuns key ([b] ++ l.orderedInsert (fun a b => key a ≤ key b) a)
          ([b, a] ++ l) := (SameRuns.refl [b]).append ih
      exact hpast.trans ((SameRuns.swap b a hne).append (.refl l))

/-- **A stable sort leaves the runs as they were.** -/
theorem sameRuns_insertionSort (l : List α) :
    SameRuns key (l.insertionSort fun a b => key a ≤ key b) l := by
  induction l with
  | nil => exact .refl _
  | cons a l ih =>
    rw [List.insertionSort_cons]
    exact (sameRuns_orderedInsert a _).trans ((SameRuns.refl [a]).append ih)

theorem key_le_of_mem {a : α} {l : List α} (hsorted : (a :: l).Pairwise fun a b => key a ≤ key b)
    (b : α) (hb : b ∈ a :: l) : key a ≤ key b := by
  obtain rfl | hb := List.mem_cons.1 hb
  · exact le_rfl
  · exact (List.pairwise_cons.1 hsorted).1 b hb

/-- **A sorted list is determined by its runs.** -/
theorem eq_of_sameRuns (l : List α) : ∀ l' : List α,
    l.Pairwise (fun a b => key a ≤ key b) → l'.Pairwise (fun a b => key a ≤ key b) →
      SameRuns key l l' → l = l' := by
  induction l with
  | nil =>
    intro l' _ _ hruns
    cases l' with
    | nil => rfl
    | cons b l' => exact absurd ((hruns.mem_iff b).2 (.head _)) List.not_mem_nil
  | cons a l ih =>
    intro l' hsorted hsorted' hruns
    cases l' with
    | nil => exact absurd ((hruns.mem_iff a).1 (.head _)) List.not_mem_nil
    | cons b l' =>
      have hab : key a = key b := by
        have hle := key_le_of_mem hsorted b ((hruns.mem_iff b).2 (.head _))
        exact le_antisymm hle
          (key_le_of_mem hsorted' a ((hruns.mem_iff a).1 (.head _)))
      have hfirst := hruns (key a)
      simp only [List.filter_cons, hab, decide_true, if_true] at hfirst
      have heq : a = b := (List.cons.inj hfirst).1
      subst heq
      have htail : SameRuns key l l' := by
        intro k
        have hk := hruns k
        by_cases ha : key a = k
        · rw [List.filter_cons_of_pos (by simp [ha]), List.filter_cons_of_pos (by simp [ha])] at hk
          exact (List.cons.inj hk).2
        · rwa [List.filter_cons_of_neg (by simp [ha]), List.filter_cons_of_neg (by simp [ha])] at hk
      rw [ih l' (List.pairwise_cons.1 hsorted).2 (List.pairwise_cons.1 hsorted').2 htail]

theorem pairwise_insertionSort_key (l : List α) :
    (l.insertionSort fun a b => key a ≤ key b).Pairwise fun a b => key a ≤ key b := by
  have : Std.Total fun a b : α => key a ≤ key b := ⟨fun a b => le_total _ _⟩
  have : IsTrans α fun a b : α => key a ≤ key b := ⟨fun _ _ _ hab hbc => le_trans hab hbc⟩
  exact List.pairwise_insertionSort _ l

/-- **Lists of the same runs sort to the same list.** -/
theorem SameRuns.insertionSort_eq {l l' : List α} (hruns : SameRuns key l l') :
    (l.insertionSort fun a b => key a ≤ key b) = l'.insertionSort fun a b => key a ≤ key b :=
  eq_of_sameRuns _ _ (pairwise_insertionSort_key l) (pairwise_insertionSort_key l')
    ((sameRuns_insertionSort l).trans (hruns.trans (sameRuns_insertionSort l').symm))

/-- A sorted list with the runs of another is that one sorted. -/
theorem SameRuns.eq_insertionSort {l l' : List α} (hruns : SameRuns key l l')
    (hsorted : l.Pairwise fun a b => key a ≤ key b) :
    l = l'.insertionSort fun a b => key a ≤ key b :=
  eq_of_sameRuns _ _ hsorted (pairwise_insertionSort_key l')
    (hruns.trans (sameRuns_insertionSort l').symm)

end GluaLs.Lib
