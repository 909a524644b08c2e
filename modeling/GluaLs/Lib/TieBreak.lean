/-
  GluaLs.Lib.TieBreak — choosing by rank, and then by a tie-break.

  A choice takes an element of least RANK, and of those that tie the one whose tie-break is
  least.  An element without a rank (`⊤`) is no choice.  `Finds` says what a choice comes to,
  whatever loop it is made by.

  Two choices by one rank, with different tie-breaks, come to the same element exactly when
  what is first among the TIES by one tie-break is first by the other (`finds_eq_iff`).
-/
import Mathlib.Data.List.MinMax
import Mathlib.Order.WithBot

namespace GluaLs.Lib.TieBreak

variable {A B R T : Type} [LinearOrder R] [LinearOrder T]

/-! ## §1. The choice -/

/-- `a` has the least rank, and is first of those that tie. -/
structure Best (rank : A → WithTop R) (tie : A → T) (l : List A) (a : A) : Prop where
  mem : a ∈ l
  ranked : rank a ≠ ⊤
  least : ∀ b ∈ l, rank a ≤ rank b
  first : ∀ b ∈ l, rank b = rank a → tie a ≤ tie b

/-- What a choice comes to. -/
def Finds (rank : A → WithTop R) (tie : A → T) (l : List A) : Option A → Prop
  | none => ∀ a ∈ l, rank a = ⊤
  | some a => Best rank tie l a

/-- The elements that tie. -/
def ties (rank : A → WithTop R) (l : List A) : List A :=
  l.filter fun a => decide (rank a ≠ ⊤) && l.all fun b => decide (rank a ≤ rank b)

/-- What is first of a list by one tie-break is first by another. -/
def KeepsFirst (tie tie' : A → T) (l : List A) : Prop :=
  ∀ a ∈ l, (∀ b ∈ l, tie a ≤ tie b) → ∀ b ∈ l, tie' a ≤ tie' b

instance (tie tie' : A → T) (l : List A) : Decidable (KeepsFirst tie tie' l) :=
  inferInstanceAs (Decidable (∀ a ∈ l, (∀ b ∈ l, tie a ≤ tie b) → ∀ b ∈ l, tie' a ≤ tie' b))

variable {rank : A → WithTop R} {tie tie' : A → T} {l l' : List A}

theorem mem_ties (a : A) : a ∈ ties rank l ↔ a ∈ l ∧ rank a ≠ ⊤ ∧ ∀ b ∈ l, rank a ≤ rank b := by
  unfold ties
  rw [List.mem_filter, Bool.and_eq_true, List.all_eq_true]
  simp only [decide_eq_true_iff]

/-- The best is the first of the ties. -/
theorem best_iff (a : A) :
    Best rank tie l a ↔ a ∈ ties rank l ∧ ∀ b ∈ ties rank l, tie a ≤ tie b := by
  constructor
  · intro h
    refine ⟨(mem_ties a).2 ⟨h.mem, h.ranked, h.least⟩, ?_⟩
    intro b hb
    obtain ⟨hmem, -, hleast⟩ := (mem_ties b).1 hb
    exact h.first b hmem (le_antisymm (hleast a h.mem) (h.least b hmem))
  · intro h
    obtain ⟨hmem, hranked, hleast⟩ := (mem_ties a).1 h.1
    refine ⟨hmem, hranked, hleast, ?_⟩
    intro b hb heq
    apply h.2
    rw [mem_ties, heq]
    exact ⟨hb, hranked, hleast⟩

/-- Where no two elements have one tie-break, there is one best element. -/
theorem best_unique (hinj : ∀ a ∈ l, ∀ b ∈ l, tie a = tie b → a = b) {a b : A}
    (ha : Best rank tie l a) (hb : Best rank tie l b) : a = b := by
  have hrank : rank a = rank b := le_antisymm (ha.least b hb.mem) (hb.least a ha.mem)
  apply hinj a ha.mem b hb.mem
  exact le_antisymm (ha.first b hb.mem hrank.symm) (hb.first a ha.mem hrank)

theorem best_congr (hmem : ∀ a, a ∈ l ↔ a ∈ l') {a : A} (h : Best rank tie l a) :
    Best rank tie l' a where
  mem := (hmem a).1 h.mem
  ranked := h.ranked
  least := fun b hb => h.least b ((hmem b).2 hb)
  first := fun b hb => h.first b ((hmem b).2 hb)

theorem finds_congr (hmem : ∀ a, a ∈ l ↔ a ∈ l') {r : Option A} (h : Finds rank tie l r) :
    Finds rank tie l' r := by
  cases r with
  | none => exact fun a ha => h a ((hmem a).2 ha)
  | some a => exact best_congr hmem h

theorem finds_tie_congr (htie : ∀ a ∈ l, tie a = tie' a) {r : Option A}
    (h : Finds rank tie l r) : Finds rank tie' l r := by
  cases r with
  | none => exact h
  | some a =>
    refine ⟨h.mem, h.ranked, h.least, ?_⟩
    intro b hb heq
    rw [← htie a h.mem, ← htie b hb]
    exact h.first b hb heq

/-- Something is found exactly where something ties. -/
theorem finds_isSome_iff {r : Option A} (h : Finds rank tie l r) : r.isSome ↔ ties rank l ≠ [] := by
  cases r with
  | none =>
    refine ⟨fun hsome => absurd hsome Bool.false_ne_true, ?_⟩
    intro hne
    obtain ⟨a, ha⟩ := List.exists_mem_of_ne_nil _ hne
    obtain ⟨hmem, hranked, -⟩ := (mem_ties a).1 ha
    exact absurd (h a hmem) hranked
  | some a =>
    refine ⟨fun _ => ?_, fun _ => rfl⟩
    exact List.ne_nil_of_mem ((best_iff a).1 h).1

/-- **Two tie-breaks come to the same element exactly when the ties keep their first.** -/
theorem finds_eq_iff (hinj : ∀ a ∈ l, ∀ b ∈ l, tie a = tie b → a = b)
    (hinj' : ∀ a ∈ l, ∀ b ∈ l, tie' a = tie' b → a = b) {r r' : Option A}
    (h : Finds rank tie l r) (h' : Finds rank tie' l r') :
    r = r' ↔ KeepsFirst tie tie' (ties rank l) := by
  cases r with
  | none =>
    have hnil : ties rank l = [] := by
      by_contra hne
      have hsome := (finds_isSome_iff h).2 hne
      cases hsome
    cases r' with
    | none =>
      refine ⟨?_, fun _ => rfl⟩
      intro _ a ha
      rw [hnil] at ha
      cases ha
    | some a => exact absurd (h a h'.mem) h'.ranked
  | some a =>
    cases r' with
    | none => exact absurd (h' a h.mem) h.ranked
    | some a' =>
      constructor
      · intro heq b hb hfirst
        rw [best_unique hinj ((best_iff b).2 ⟨hb, hfirst⟩) h, Option.some.inj heq]
        exact ((best_iff a').1 h').2
      · intro hkeeps
        obtain ⟨hties, hfirst⟩ := (best_iff a).1 h
        have hbest := (best_iff a).2 ⟨hties, hkeeps a hties hfirst⟩
        rw [best_unique hinj' hbest h']

/-! ## §2. Ways to choose -/

/-- It is enough to compare with the elements that have a rank. -/
theorem best_of_ranked {a : A} (hmem : a ∈ l) (hranked : rank a ≠ ⊤)
    (hbest : ∀ b ∈ l, rank b ≠ ⊤ → rank a ≤ rank b ∧ (rank b = rank a → tie a ≤ tie b)) :
    Best rank tie l a := by
  refine ⟨hmem, hranked, ?_, fun b hb heq => (hbest b hb (heq.trans_ne hranked)).2 heq⟩
  intro b hb
  by_cases htop : rank b = ⊤
  · rw [htop]
    exact le_top
  · exact (hbest b hb htop).1

section

variable {K : Type} [LinearOrder K]

/-- The least by a key that orders by rank and then by the tie-break. -/
theorem finds_argmin (key : A → K) (hranked : ∀ a, rank a ≠ ⊤)
    (hkey : ∀ a b, key a ≤ key b → rank a ≤ rank b ∧ (rank b = rank a → tie a ≤ tie b))
    (l : List A) : Finds rank tie l (l.argmin key) := by
  cases harg : l.argmin key with
  | none =>
    intro a ha
    rw [List.argmin_eq_none.1 harg] at ha
    cases ha
  | some a =>
    apply best_of_ranked (List.argmin_mem harg) (hranked a)
    intro b hb _
    exact hkey a b (List.le_of_mem_argmin hb harg)

/-- The same, where the key looks at what the ranked elements are paired with. -/
theorem finds_argmin_paired {P : Type} (f : A → Option P) (key : A × P → K)
    (hnone : ∀ a, f a = none ↔ rank a = ⊤)
    (hkey : ∀ a p b q, f a = some p → f b = some q → key (a, p) ≤ key (b, q) →
      rank a ≤ rank b ∧ (rank b = rank a → tie a ≤ tie b)) (l : List A) :
    Finds rank tie l
      (((l.filterMap fun a => (f a).map fun p => (a, p)).argmin key).map Prod.fst) := by
  have hmem : ∀ a p, (a, p) ∈ (l.filterMap fun a => (f a).map fun p => (a, p)) ↔
      a ∈ l ∧ f a = some p := by
    intro a p
    rw [List.mem_filterMap]
    constructor
    · intro h
      obtain ⟨b, hb, h⟩ := h
      obtain ⟨q, hq, h⟩ := Option.map_eq_some_iff.1 h
      cases h
      exact ⟨hb, hq⟩
    · intro h
      exact ⟨a, h.1, by rw [h.2]; rfl⟩
  have hpaired : ∀ b, rank b ≠ ⊤ → ∃ q, f b = some q := by
    intro b hb
    exact Option.ne_none_iff_exists'.1 fun hnil => hb ((hnone b).1 hnil)
  cases harg : (l.filterMap fun a => (f a).map fun p => (a, p)).argmin key with
  | none =>
    intro a ha
    by_contra htop
    obtain ⟨p, hp⟩ := hpaired a htop
    have hin := (hmem a p).2 ⟨ha, hp⟩
    rw [List.argmin_eq_none.1 harg] at hin
    cases hin
  | some pair =>
    obtain ⟨a, p⟩ := pair
    obtain ⟨ha, hp⟩ := (hmem a p).1 (List.argmin_mem harg)
    have hranked : rank a ≠ ⊤ := by
      intro htop
      rw [(hnone a).2 htop] at hp
      cases hp
    apply best_of_ranked ha hranked
    intro b hb htop
    obtain ⟨q, hq⟩ := hpaired b htop
    exact hkey a p b q hp hq (List.le_of_mem_argmin ((hmem b q).2 ⟨hb, hq⟩) harg)

end

/-- A choice among some of the elements. -/
theorem finds_filter {keep : A → Bool} {r : Option A} (h : Finds rank tie (l.filter keep) r) :
    Finds (fun a => if keep a then rank a else ⊤) tie l r := by
  cases r with
  | none =>
    intro a ha
    show (if keep a = true then rank a else ⊤) = ⊤
    by_cases hkeep : keep a = true
    · rw [if_pos hkeep]
      exact h a (List.mem_filter.2 ⟨ha, hkeep⟩)
    · rw [if_neg hkeep]
  | some a =>
    obtain ⟨ha, hkeep⟩ := List.mem_filter.1 h.mem
    refine ⟨ha, by rw [if_pos hkeep]; exact h.ranked, ?_, ?_⟩
    · intro b hb
      rw [if_pos hkeep]
      by_cases hkeep' : keep b = true
      · rw [if_pos hkeep']
        exact h.least b (List.mem_filter.2 ⟨hb, hkeep'⟩)
      · rw [if_neg hkeep']
        exact le_top
    · intro b hb heq
      rw [if_pos hkeep] at heq
      by_cases hkeep' : keep b = true
      · rw [if_pos hkeep'] at heq
        exact h.first b (List.mem_filter.2 ⟨hb, hkeep'⟩) heq
      · rw [if_neg hkeep'] at heq
        exact absurd heq.symm h.ranked

/-- A choice by what the elements carry is a choice among what they carry. -/
theorem finds_map {rank : B → WithTop R} {tie : B → T} (g : A → B) {r : Option A}
    (h : Finds (fun a => rank (g a)) (fun a => tie (g a)) l r) :
    Finds rank tie (l.map g) (r.map g) := by
  cases r with
  | none =>
    intro b hb
    obtain ⟨a, ha, rfl⟩ := List.mem_map.1 hb
    exact h a ha
  | some a =>
    refine ⟨List.mem_map.2 ⟨a, h.mem, rfl⟩, h.ranked, ?_, ?_⟩
    · intro b hb
      obtain ⟨c, hc, rfl⟩ := List.mem_map.1 hb
      exact h.least c hc
    · intro b hb heq
      obtain ⟨c, hc, rfl⟩ := List.mem_map.1 hb
      exact h.first c hc heq

end GluaLs.Lib.TieBreak
