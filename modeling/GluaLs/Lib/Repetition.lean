/-
  GluaLs.Lib.Repetition — patterns with repeatable letters.

  A pattern is a word some of whose letters are REPEATABLE.  An expansion takes every other
  letter exactly once, and a repeatable one any number of times, zero included; the order is
  kept.  Two patterns MEET by a relation when they have expansions of one length that are
  related letter by letter.

  `meets_cons_cons` says what meeting comes to at the two heads: one of them is dropped, or
  they are paired and at most one of them is kept for more.  Keeping both would come back to
  where it started, with shorter expansions.
-/
import Mathlib.Data.List.Forall2

namespace GluaLs.Lib.Repetition

variable {A B : Type} {again : A → Bool} {more : B → Bool} {R : A → B → Prop}

/-! ## §1. Expansions -/

/-- The expansions of a pattern. -/
inductive Expands (again : A → Bool) : List A → List A → Prop
  | nil : Expands again [] []
  | fixed {a as xs} : again a = false → Expands again as xs → Expands again (a :: as) (a :: xs)
  | repeated {a as xs} (k : Nat) : again a = true → Expands again as xs →
      Expands again (a :: as) (List.replicate k a ++ xs)

theorem expands_nil {xs : List A} : Expands again [] xs ↔ xs = [] := by
  constructor
  · intro h
    cases h
    rfl
  · intro h
    rw [h]
    exact .nil

theorem Expands.skip {a : A} {as xs : List A} (ha : again a = true) (h : Expands again as xs) :
    Expands again (a :: as) xs :=
  .repeated 0 ha h

theorem Expands.once {a : A} {as xs : List A} (h : Expands again as xs) :
    Expands again (a :: as) (a :: xs) := by
  cases ha : again a with
  | false => exact .fixed ha h
  | true => exact .repeated 1 ha h

theorem Expands.onceMore {a : A} {as xs : List A} (ha : again a = true)
    (h : Expands again (a :: as) xs) : Expands again (a :: as) (a :: xs) := by
  cases h with
  | fixed hfixed => rw [ha] at hfixed; cases hfixed
  | repeated k _ h => exact .repeated (k + 1) ha h

/-- A pattern's first letter is dropped, or it is the first of the expansion; the rest then
expands what is left, with or without that letter. -/
theorem expands_cons {a : A} {as xs : List A} :
    Expands again (a :: as) xs ↔
      (again a = true ∧ Expands again as xs) ∨
      ∃ xs', xs = a :: xs' ∧
        (Expands again as xs' ∨ again a = true ∧ Expands again (a :: as) xs') := by
  constructor
  · intro h
    cases h with
    | fixed _ h => exact .inr ⟨_, rfl, .inl h⟩
    | repeated k ha h =>
      cases k with
      | zero => exact .inl ⟨ha, h⟩
      | succ k => exact .inr ⟨_, rfl, .inr ⟨ha, .repeated k ha h⟩⟩
  · rintro (⟨ha, h⟩ | ⟨xs', rfl, h | ⟨ha, h⟩⟩)
    · exact h.skip ha
    · exact h.once
    · exact h.onceMore ha

/-- The expansion that takes every letter once. -/
theorem expands_self (as : List A) : Expands again as as := by
  induction as with
  | nil => exact .nil
  | cons a as ih => exact ih.once

/-- Without repeatable letters a pattern has no other expansion. -/
theorem expands_fixed {as xs : List A} (hfixed : ∀ a ∈ as, again a = false)
    (h : Expands again as xs) : xs = as := by
  induction h with
  | nil => rfl
  | fixed _ _ ih => rw [ih fun a ha => hfixed a (List.mem_cons_of_mem _ ha)]
  | repeated k ha _ _ =>
    rw [hfixed _ List.mem_cons_self] at ha
    cases ha

theorem expands_to_nil {as : List A} : Expands again as [] ↔ ∀ a ∈ as, again a = true := by
  induction as with
  | nil => simp [expands_nil]
  | cons a as ih =>
    rw [expands_cons, ih]
    simp

/-! ## §2. Patterns that meet -/

/-- Two patterns have expansions of one length, related letter by letter. -/
def Meets (again : A → Bool) (more : B → Bool) (R : A → B → Prop)
    (as : List A) (bs : List B) : Prop :=
  ∃ xs ys, Expands again as xs ∧ Expands more bs ys ∧ List.Forall₂ R xs ys

theorem meets_nil_left {bs : List B} : Meets again more R [] bs ↔ ∀ b ∈ bs, more b = true := by
  rw [← expands_to_nil]
  constructor
  · rintro ⟨xs, ys, hxs, hys, hpairs⟩
    rw [expands_nil.1 hxs, List.forall₂_nil_left_iff] at hpairs
    rwa [hpairs] at hys
  · intro h
    exact ⟨[], [], .nil, h, .nil⟩

theorem meets_nil_right {as : List A} : Meets again more R as [] ↔ ∀ a ∈ as, again a = true := by
  rw [← expands_to_nil]
  constructor
  · rintro ⟨xs, ys, hxs, hys, hpairs⟩
    rw [expands_nil.1 hys, List.forall₂_nil_right_iff] at hpairs
    rwa [hpairs] at hxs
  · intro h
    exact ⟨[], [], h, .nil, .nil⟩

/-- Patterns related letter by letter meet. -/
theorem meets_of_forall₂ {as : List A} {bs : List B} (h : List.Forall₂ R as bs) :
    Meets again more R as bs :=
  ⟨as, bs, expands_self as, expands_self bs, h⟩

/-- Without repeatable letters there is no other way to meet. -/
theorem meets_fixed {as : List A} {bs : List B} (has : ∀ a ∈ as, again a = false)
    (hbs : ∀ b ∈ bs, more b = false) :
    Meets again more R as bs ↔ List.Forall₂ R as bs := by
  constructor
  · rintro ⟨xs, ys, hxs, hys, hpairs⟩
    rwa [expands_fixed has hxs, expands_fixed hbs hys] at hpairs
  · exact meets_of_forall₂

/-- What the two heads of patterns that meet may do. -/
def HeadMoves (again : A → Bool) (more : B → Bool) (R : A → B → Prop)
    (a : A) (as : List A) (b : B) (bs : List B) : Prop :=
  (again a = true ∧ Meets again more R as (b :: bs)) ∨
  (more b = true ∧ Meets again more R (a :: as) bs) ∨
  (R a b ∧ Meets again more R as bs) ∨
  (R a b ∧ again a = true ∧ Meets again more R (a :: as) bs) ∨
  (R a b ∧ more b = true ∧ Meets again more R as (b :: bs))

theorem headMoves_of_expands {a : A} {as : List A} {b : B} {bs : List B} {xs : List A}
    {ys : List B} (hxs : Expands again (a :: as) xs) (hys : Expands more (b :: bs) ys)
    (hpairs : List.Forall₂ R xs ys) : HeadMoves again more R a as b bs := by
  -- The induction is on the expansions: when both heads are kept, they get shorter.
  induction hpairs with
  | nil =>
    have ha := expands_to_nil.1 hxs
    refine .inl ⟨ha a (.head _), [], [], ?_, hys, .nil⟩
    exact expands_to_nil.2 (List.forall_mem_cons.1 ha).2
  | @cons x y xs ys hxy hpairs ih =>
    rcases expands_cons.1 hxs with ⟨ha, has⟩ | ⟨xs', hx, has⟩
    · exact .inl ⟨ha, _, _, has, hys, .cons hxy hpairs⟩
    rcases expands_cons.1 hys with ⟨hb, hbs⟩ | ⟨ys', hy, hbs⟩
    · exact .inr (.inl ⟨hb, _, _, hxs, hbs, .cons hxy hpairs⟩)
    cases hx
    cases hy
    rcases has with has | ⟨ha, has⟩
    · rcases hbs with hbs | ⟨hb, hbs⟩
      · exact .inr (.inr (.inl ⟨hxy, _, _, has, hbs, hpairs⟩))
      · exact .inr (.inr (.inr (.inr ⟨hxy, hb, _, _, has, hbs, hpairs⟩)))
    · rcases hbs with hbs | ⟨hb, hbs⟩
      · exact .inr (.inr (.inr (.inl ⟨hxy, ha, _, _, has, hbs, hpairs⟩)))
      · exact ih has hbs

/-- **Meeting at the heads.** -/
theorem meets_cons_cons {a : A} {as : List A} {b : B} {bs : List B} :
    Meets again more R (a :: as) (b :: bs) ↔ HeadMoves again more R a as b bs := by
  constructor
  · rintro ⟨xs, ys, hxs, hys, hpairs⟩
    exact headMoves_of_expands hxs hys hpairs
  · rintro (⟨ha, xs, ys, hxs, hys, h⟩ | ⟨hb, xs, ys, hxs, hys, h⟩ | ⟨hr, xs, ys, hxs, hys, h⟩ |
      ⟨hr, ha, xs, ys, hxs, hys, h⟩ | ⟨hr, hb, xs, ys, hxs, hys, h⟩)
    · exact ⟨xs, ys, hxs.skip ha, hys, h⟩
    · exact ⟨xs, ys, hxs, hys.skip hb, h⟩
    · exact ⟨a :: xs, b :: ys, hxs.once, hys.once, .cons hr h⟩
    · exact ⟨a :: xs, b :: ys, hxs.onceMore ha, hys.once, .cons hr h⟩
    · exact ⟨a :: xs, b :: ys, hxs.once, hys.onceMore hb, .cons hr h⟩

end GluaLs.Lib.Repetition
