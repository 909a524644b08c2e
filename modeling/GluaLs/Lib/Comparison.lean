/-
  GluaLs.Lib.Comparison — the laws of a comparison, one value at a time.

  A comparison of trees compares what they are made of.  `LawfulAt` says of ONE value that
  the comparison is symmetric and transitive there, `ExactAt` that only the value itself is
  equal to it; both are lifted through pairs, options and lists, so that a law for a tree
  follows from the laws for its parts (`ComparisonLaw`).  Nothing is said to be equal to
  itself: a float need not be.

  `firstOccurrences` are the elements of a list that are equal to none before them; keeping
  an element when none of the kept ones is equal to it comes to the same (`foldl_keep_eq`).
-/
import Mathlib.Data.List.Basic

namespace GluaLs.Lib

/-! ## §1. Laws at a value -/

variable {A B : Type}

/-- Symmetry and transitivity, at one left side. -/
structure LawfulAt (eq : A → A → Bool) (a : A) : Prop where
  symm : ∀ b, eq a b = eq b a
  trans : ∀ b c, eq a b = true → eq b c = true → eq a c = true

def pairEq (eqA : A → A → Bool) (eqB : B → B → Bool) (x y : A × B) : Bool :=
  eqA x.1 y.1 && eqB x.2 y.2

def optionEq (eq : A → A → Bool) : Option A → Option A → Bool
  | none, none => true
  | some a, some b => eq a b
  | _, _ => false

def listEq (eq : A → A → Bool) : List A → List A → Bool
  | [], [] => true
  | a :: as, b :: bs => eq a b && listEq eq as bs
  | _, _ => false

/-- A comparison that goes through two lists side by side. -/
theorem eq_listEq {eq : A → A → Bool} {eqs : List A → List A → Bool} (hnil : eqs [] [] = true)
    (hleft : ∀ a l, eqs (a :: l) [] = false) (hright : ∀ b l', eqs [] (b :: l') = false)
    (hcons : ∀ a l b l', eqs (a :: l) (b :: l') = (eq a b && eqs l l')) (l : List A) :
    ∀ l', eqs l l' = listEq eq l l' := by
  induction l with
  | nil =>
    intro l'
    cases l' with
    | nil => exact hnil
    | cons b l' => exact hright b l'
  | cons a l ih =>
    intro l'
    cases l' with
    | nil => exact hleft a l
    | cons b l' => rw [hcons, ih, listEq]

theorem length_eq_of_listEq {eq : A → A → Bool} (l : List A) :
    ∀ l', listEq eq l l' = true → l.length = l'.length := by
  induction l with
  | nil =>
    intro l' heq
    cases l' with
    | nil => rfl
    | cons b l' => cases heq
  | cons a l ih =>
    intro l' heq
    cases l' with
    | nil => cases heq
    | cons b l' => exact congrArg (· + 1) (ih l' (Bool.and_eq_true_iff.1 heq).2)

theorem listEq_append {eq : A → A → Bool} (m m' l : List A) : ∀ l', l.length = l'.length →
    listEq eq (l ++ m) (l' ++ m') = (listEq eq l l' && listEq eq m m') := by
  induction l with
  | nil =>
    intro l' hlen
    rw [List.length_eq_zero_iff.1 hlen.symm]
    rfl
  | cons a l ih =>
    intro l' hlen
    cases l' with
    | nil => cases hlen
    | cons b l' =>
      show (eq a b && listEq eq (l ++ m) (l' ++ m')) = (eq a b && listEq eq l l' && _)
      rw [ih l' (Nat.succ.inj hlen), Bool.and_assoc]

theorem listEq_map_map {eq : A → A → Bool} {eq' : B → B → Bool} {f : A → B} (l : List A)
    (h : ∀ a ∈ l, ∀ b, eq a b = true → eq' (f a) (f b) = true) :
    ∀ l', listEq eq l l' = true → listEq eq' (l.map f) (l'.map f) = true := by
  induction l with
  | nil =>
    intro l' heq
    cases l' with
    | nil => rfl
    | cons b l' => cases heq
  | cons a l ih =>
    intro l' heq
    cases l' with
    | nil => cases heq
    | cons b l' =>
      obtain ⟨hab, hrest⟩ := Bool.and_eq_true_iff.1 heq
      exact Bool.and_eq_true_iff.2 ⟨h a (.head _) b hab,
        ih (fun a' ha' => h a' (.tail a ha')) l' hrest⟩

theorem listEq_map_self {eq : A → A → Bool} {f : A → A} (l : List A)
    (heq : listEq eq (l.map f) l = true) : ∀ a ∈ l, eq (f a) a = true := by
  induction l with
  | nil => exact nofun
  | cons a l ih =>
    obtain ⟨ha, hrest⟩ := Bool.and_eq_true_iff.1 heq
    exact List.forall_mem_cons.2 ⟨ha, ih hrest⟩

namespace LawfulAt

variable {eq : A → A → Bool} {eqA : A → A → Bool} {eqB : B → B → Bool}

theorem beq [BEq A] [LawfulBEq A] (a : A) : LawfulAt (fun a b : A => a == b) a where
  symm b := by rw [Bool.eq_iff_iff, beq_iff_eq, beq_iff_eq, eq_comm]
  trans b c hab hbc := by
    rw [beq_iff_eq] at *
    rw [hab, hbc]

theorem pair {x : A × B} (ha : LawfulAt eqA x.1) (hb : LawfulAt eqB x.2) :
    LawfulAt (pairEq eqA eqB) x where
  symm y := by
    unfold pairEq
    rw [ha.symm, hb.symm]
  trans y z hxy hyz := by
    unfold pairEq at *
    rw [Bool.and_eq_true] at *
    exact ⟨ha.trans _ _ hxy.1 hyz.1, hb.trans _ _ hxy.2 hyz.2⟩

theorem option {o : Option A} (h : ∀ a ∈ o.toList, LawfulAt eq a) : LawfulAt (optionEq eq) o := by
  cases o with
  | none =>
    refine ⟨?_, ?_⟩
    · intro p
      cases p <;> rfl
    · intro p q hp hq
      cases p with
      | none => exact hq
      | some b => cases hp
  | some a =>
    have ha : LawfulAt eq a := h a (by simp)
    refine ⟨?_, ?_⟩
    · intro p
      cases p with
      | none => rfl
      | some b => exact ha.symm b
    · intro p q hp hq
      cases p with
      | none => cases hp
      | some b =>
        cases q with
        | none => cases hq
        | some c => exact ha.trans b c hp hq

theorem list {l : List A} (h : ∀ a ∈ l, LawfulAt eq a) : LawfulAt (listEq eq) l := by
  induction l with
  | nil =>
    refine ⟨?_, ?_⟩
    · intro p
      cases p <;> rfl
    · intro p q hp hq
      cases p with
      | nil => exact hq
      | cons b bs => cases hp
  | cons a as ih =>
    have ha : LawfulAt eq a := h a (.head _)
    have has : LawfulAt (listEq eq) as := ih (List.forall_mem_cons.1 h).2
    refine ⟨?_, ?_⟩
    · intro p
      cases p with
      | nil => rfl
      | cons b bs =>
        show (eq a b && listEq eq as bs) = (eq b a && listEq eq bs as)
        rw [ha.symm, has.symm]
    · intro p q hp hq
      cases p with
      | nil => cases hp
      | cons b bs =>
        cases q with
        | nil => cases hq
        | cons c cs =>
          have hab := Bool.and_eq_true_iff.1 hp
          have hbc := Bool.and_eq_true_iff.1 hq
          exact Bool.and_eq_true_iff.2
            ⟨ha.trans b c hab.1 hbc.1, has.trans bs cs hab.2 hbc.2⟩

/-- A comparison that looks through a constructor, and tells it from all others. -/
theorem constructor {eqB : B → B → Bool} (mk : B → A) (b : B) (h : LawfulAt eqB b)
    (hmk : ∀ c d, eq (mk c) (mk d) = eqB c d)
    (hother : ∀ c a, (∀ d, a ≠ mk d) → eq (mk c) a = false ∧ eq a (mk c) = false) :
    LawfulAt eq (mk b) := by
  refine ⟨?_, ?_⟩
  · intro a
    by_cases ha : ∃ c, a = mk c
    · obtain ⟨c, rfl⟩ := ha
      rw [hmk, hmk]
      exact h.symm c
    · have hfalse := hother b a fun c hc => ha ⟨c, hc⟩
      rw [hfalse.1, hfalse.2]
  · intro a a' hba haa
    by_cases ha : ∃ c, a = mk c
    · obtain ⟨c, rfl⟩ := ha
      by_cases ha' : ∃ d, a' = mk d
      · obtain ⟨d, rfl⟩ := ha'
        rw [hmk] at *
        exact h.trans c d hba haa
      · rw [(hother c a' fun d hd => ha' ⟨d, hd⟩).1] at haa
        cases haa
    · rw [(hother b a fun c hc => ha ⟨c, hc⟩).1] at hba
      cases hba

end LawfulAt

/-- Nothing else is equal to the left side. -/
def ExactAt (eq : A → A → Bool) (a : A) : Prop := ∀ b, eq a b = true → a = b

namespace ExactAt

variable {eq : A → A → Bool} {eqA : A → A → Bool} {eqB : B → B → Bool}

theorem beq [BEq A] [LawfulBEq A] (a : A) : ExactAt (fun a b : A => a == b) a :=
  fun _ hab => beq_iff_eq.1 hab

theorem pair {x : A × B} (ha : ExactAt eqA x.1) (hb : ExactAt eqB x.2) :
    ExactAt (pairEq eqA eqB) x := by
  intro y hxy
  obtain ⟨hfst, hsnd⟩ := Bool.and_eq_true_iff.1 hxy
  exact Prod.ext (ha y.1 hfst) (hb y.2 hsnd)

theorem option {o : Option A} (h : ∀ a ∈ o.toList, ExactAt eq a) : ExactAt (optionEq eq) o := by
  intro p hp
  cases o with
  | none =>
    cases p with
    | none => rfl
    | some b => cases hp
  | some a =>
    cases p with
    | none => cases hp
    | some b => rw [h a (by simp) b hp]

theorem list {l : List A} (h : ∀ a ∈ l, ExactAt eq a) : ExactAt (listEq eq) l := by
  induction l with
  | nil =>
    intro p hp
    cases p with
    | nil => rfl
    | cons b bs => cases hp
  | cons a as ih =>
    intro p hp
    cases p with
    | nil => cases hp
    | cons b bs =>
      obtain ⟨hab, hrest⟩ := Bool.and_eq_true_iff.1 hp
      rw [h a List.mem_cons_self b hab, ih (List.forall_mem_cons.1 h).2 bs hrest]

theorem constructor {eqB : B → B → Bool} (mk : B → A) (b : B) (h : ExactAt eqB b)
    (hmk : ∀ c d, eq (mk c) (mk d) = eqB c d)
    (hother : ∀ c a, (∀ d, a ≠ mk d) → eq (mk c) a = false ∧ eq a (mk c) = false) :
    ExactAt eq (mk b) := by
  intro a hba
  by_cases ha : ∃ c, a = mk c
  · obtain ⟨c, rfl⟩ := ha
    rw [hmk] at hba
    rw [h c hba]
  · rw [(hother b a fun c hc => ha ⟨c, hc⟩).1] at hba
    cases hba

end ExactAt

/-- A law of comparisons that follows from the law for the parts. -/
structure ComparisonLaw where
  At : ∀ {A : Type}, (A → A → Bool) → A → Prop
  beq : ∀ {A : Type} [BEq A] [LawfulBEq A] (a : A), At (fun a b : A => a == b) a
  pair : ∀ {A B : Type} {eqA : A → A → Bool} {eqB : B → B → Bool} {a : A} {b : B},
    At eqA a → At eqB b → At (pairEq eqA eqB) (a, b)
  option : ∀ {A : Type} {eq : A → A → Bool} {o : Option A},
    (∀ a ∈ o.toList, At eq a) → At (optionEq eq) o
  list : ∀ {A : Type} {eq : A → A → Bool} {l : List A},
    (∀ a ∈ l, At eq a) → At (listEq eq) l
  /-- A comparison that looks through a constructor, and tells it from all others. -/
  constructor : ∀ {A B : Type} {eq : A → A → Bool} {eqB : B → B → Bool} (mk : B → A) (b : B),
    At eqB b → (∀ c d, eq (mk c) (mk d) = eqB c d) →
    (∀ c a, (∀ d, a ≠ mk d) → eq (mk c) a = false ∧ eq a (mk c) = false) → At eq (mk b)

def ComparisonLaw.lawful : ComparisonLaw where
  At := LawfulAt
  beq := LawfulAt.beq
  pair := fun ha hb => LawfulAt.pair (x := (_, _)) ha hb
  option := LawfulAt.option
  list := LawfulAt.list
  constructor := LawfulAt.constructor

def ComparisonLaw.exact : ComparisonLaw where
  At := ExactAt
  beq := ExactAt.beq
  pair := fun ha hb => ExactAt.pair (x := (_, _)) ha hb
  option := ExactAt.option
  list := ExactAt.list
  constructor := ExactAt.constructor

/-! ## §2. First occurrences -/

/-- The elements that are equal to none before them, `earlier` ones included. -/
def firstOccurrencesAfter (eq : A → A → Bool) (earlier : List A) : List A → List A
  | [] => []
  | a :: as =>
    if earlier.any (eq · a) then firstOccurrencesAfter eq (earlier ++ [a]) as
    else a :: firstOccurrencesAfter eq (earlier ++ [a]) as

def firstOccurrences (eq : A → A → Bool) (l : List A) : List A :=
  firstOccurrencesAfter eq [] l

/-- An element is kept when none that is kept is equal to it. -/
def keep (eq : A → A → Bool) (kept : List A) (a : A) : List A :=
  if kept.any (eq · a) then kept else kept ++ [a]

variable {eq : A → A → Bool}

/-- **Keeping what none of the kept ones is equal to leaves the first occurrences.** -/
theorem foldl_keep_after (l : List A) : ∀ kept earlier : List A,
    (∀ k ∈ kept, LawfulAt eq k) → (∀ a ∈ l, LawfulAt eq a) →
    (∀ a, kept.any (eq · a) = earlier.any (eq · a)) →
    l.foldl (keep eq) kept = kept ++ firstOccurrencesAfter eq earlier l := by
  induction l with
  | nil => simp [firstOccurrencesAfter]
  | cons a l ih =>
    intro kept earlier hkept hl hany
    have hl' : ∀ b ∈ l, LawfulAt eq b := (List.forall_mem_cons.1 hl).2
    rw [List.foldl_cons, firstOccurrencesAfter, ← hany a, keep]
    split
    · rename_i hfound
      refine ih kept (earlier ++ [a]) hkept hl' fun b => ?_
      rw [List.any_append, ← hany b]
      -- What is equal to `a` is equal to the kept one that `a` is equal to.
      cases hab : eq a b with
      | false => simp [hab]
      | true =>
        obtain ⟨k, hk, hka⟩ := List.any_eq_true.1 hfound
        have hkb : kept.any (eq · b) = true :=
          List.any_eq_true.2 ⟨k, hk, (hkept k hk).trans a b hka hab⟩
        rw [hkb, Bool.true_or]
    · have hkept' : ∀ k ∈ kept ++ [a], LawfulAt eq k := by
        intro k hk
        rcases List.mem_append.1 hk with hk | hk
        · exact hkept k hk
        · rw [List.mem_singleton.1 hk]
          exact hl a (.head _)
      have hany' : ∀ b, (kept ++ [a]).any (eq · b) = (earlier ++ [a]).any (eq · b) := by
        intro b
        rw [List.any_append, List.any_append, hany b]
      rw [ih (kept ++ [a]) (earlier ++ [a]) hkept' hl' hany', List.append_assoc]
      rfl

theorem foldl_keep_eq (l : List A) (hl : ∀ a ∈ l, LawfulAt eq a) :
    l.foldl (keep eq) [] = firstOccurrences eq l := by
  have h := foldl_keep_after l [] [] nofun hl fun _ => rfl
  rwa [List.nil_append] at h

theorem mem_of_mem_firstOccurrencesAfter (l : List A) : ∀ (earlier : List A) {a : A},
    a ∈ firstOccurrencesAfter eq earlier l → a ∈ l := by
  induction l with
  | nil => exact fun _ _ ha => ha
  | cons b l ih =>
    intro earlier a ha
    rw [firstOccurrencesAfter] at ha
    split at ha
    · exact .tail b (ih _ ha)
    · rcases List.mem_cons.1 ha with rfl | ha
      · exact .head _
      · exact .tail b (ih _ ha)

theorem ne_of_mem_firstOccurrencesAfter (l : List A) : ∀ (earlier : List A) {a e : A},
    a ∈ firstOccurrencesAfter eq earlier l → e ∈ earlier → eq e a = false := by
  induction l with
  | nil => exact nofun
  | cons b l ih =>
    intro earlier a e ha he
    rw [firstOccurrencesAfter] at ha
    split at ha
    · exact ih _ ha (List.mem_append_left _ he)
    · rename_i hnone
      rcases List.mem_cons.1 ha with rfl | ha
      · by_contra heq
        exact hnone (List.any_eq_true.2 ⟨e, he, by simpa using heq⟩)
      · exact ih _ ha (List.mem_append_left _ he)

/-- First occurrences are not equal to one another. -/
theorem pairwise_firstOccurrencesAfter (l : List A) : ∀ earlier : List A,
    (firstOccurrencesAfter eq earlier l).Pairwise fun a b => eq a b = false := by
  induction l with
  | nil => exact fun _ => .nil
  | cons a l ih =>
    intro earlier
    rw [firstOccurrencesAfter]
    split
    · exact ih _
    · refine List.pairwise_cons.2 ⟨fun b hb => ?_, ih _⟩
      exact ne_of_mem_firstOccurrencesAfter l _ hb (List.mem_append_right _ (by simp))

/-- Elements that are not equal to one another are the first occurrences. -/
theorem firstOccurrencesAfter_eq_self (l : List A) : ∀ earlier : List A,
    ((earlier ++ l).Pairwise fun a b => eq a b = false) →
      firstOccurrencesAfter eq earlier l = l := by
  induction l with
  | nil => exact fun _ _ => rfl
  | cons a l ih =>
    intro earlier hapart
    have hnone : ¬ earlier.any (eq · a) = true := by
      intro hany
      obtain ⟨e, he, hea⟩ := List.any_eq_true.1 hany
      rw [(List.pairwise_append.1 hapart).2.2 e he a List.mem_cons_self] at hea
      cases hea
    rw [firstOccurrencesAfter, if_neg hnone, ih _ (by simpa using hapart)]

/-- Where equality is identity, everything occurs. -/
theorem mem_firstOccurrencesAfter_iff (l : List A) : ∀ (earlier : List A),
    (∀ s ∈ earlier ++ l, ∀ t ∈ l, eq s t = true ↔ s = t) → ∀ a,
      (a ∈ firstOccurrencesAfter eq earlier l ↔ a ∈ l ∧ a ∉ earlier) := by
  induction l with
  | nil => simp [firstOccurrencesAfter]
  | cons b l ih =>
    intro earlier hid a
    have hany : earlier.any (eq · b) = true ↔ b ∈ earlier := by
      rw [List.any_eq_true]
      refine ⟨fun ⟨e, he, heb⟩ => ?_, fun hb => ⟨b, hb, ?_⟩⟩
      · exact (hid e (List.mem_append_left _ he) b (.head _)).1 heb ▸ he
      · exact (hid b (List.mem_append_left _ hb) b (.head _)).2 rfl
    have hrest := ih (earlier ++ [b]) (fun s hs t ht =>
      hid s (by simpa using hs) t (.tail b ht)) a
    rw [firstOccurrencesAfter]
    split
    · rename_i hfound
      rw [hrest]
      have := hany.1 hfound
      grind
    · rename_i hnone
      rw [List.mem_cons, hrest]
      have := mt hany.2 hnone
      grind

end GluaLs.Lib
