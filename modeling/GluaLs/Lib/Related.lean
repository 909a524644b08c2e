/-
  GluaLs.Lib.Related — lists related member by member.

  A function that asks of the members of a list only what a relation keeps gives related
  results for related lists.  Mathlib has this for `map`, `append`, `filter`, `flatMap` and the
  folds (`List.rel_map` and so on); here are the remaining list functions, searching and
  sorting among them.
-/
import Mathlib.Data.List.Destutter
import Mathlib.Data.List.Forall2
import Mathlib.Data.List.Sort
import Mathlib.Data.Option.Basic

namespace GluaLs.Lib

variable {α β : Type} {R : α → β → Prop}

/-! ## §1. Tests -/

/-- Two tests that agree on related members. -/
def SameTest (R : α → β → Prop) (p : α → Bool) (q : β → Bool) : Prop := ∀ a b, R a b → p a = q b

/-- Two orders that agree on related members. -/
def AgreeOn (R : α → β → Prop) (r : α → α → Prop) (s : β → β → Prop) : Prop :=
  ∀ a b a' b', R a b → R a' b' → (r a a' ↔ s b b')

section

variable {xs : List α} {ys : List β}

theorem any_eq {p : α → Bool} {q : β → Bool} (hpq : SameTest R p q) (hxs : List.Forall₂ R xs ys) :
    xs.any p = ys.any q := by
  induction hxs with
  | nil => rfl
  | cons hab _ ih => rw [List.any_cons, List.any_cons, hpq _ _ hab, ih]

theorem all_eq {p : α → Bool} {q : β → Bool} (hpq : SameTest R p q) (hxs : List.Forall₂ R xs ys) :
    xs.all p = ys.all q := by
  induction hxs with
  | nil => rfl
  | cons hab _ ih => rw [List.all_cons, List.all_cons, hpq _ _ hab, ih]

theorem isEmpty_eq (hxs : List.Forall₂ R xs ys) : xs.isEmpty = ys.isEmpty := by
  cases hxs <;> rfl

theorem isChain_iff {r : α → α → Prop} {s : β → β → Prop} (hrs : AgreeOn R r s)
    (hxs : List.Forall₂ R xs ys) : xs.IsChain r ↔ ys.IsChain s := by
  induction hxs with
  | nil => exact iff_of_true .nil .nil
  | cons hab hrest ih =>
    cases hrest with
    | nil => exact iff_of_true (.singleton _) (.singleton _)
    | cons hab' hrest' =>
      rw [List.isChain_cons_cons, List.isChain_cons_cons, hrs _ _ _ _ hab hab', ih]

/-! ## §2. Parts of lists -/

theorem forall₂_takeWhile {p : α → Bool} {q : β → Bool} (hpq : SameTest R p q)
    (hxs : List.Forall₂ R xs ys) : List.Forall₂ R (xs.takeWhile p) (ys.takeWhile q) := by
  induction hxs with
  | nil => exact .nil
  | @cons a b xs ys hab _ ih =>
    rw [List.takeWhile_cons, List.takeWhile_cons, hpq a b hab]
    cases q b with
    | true => exact .cons hab ih
    | false => exact .nil

theorem forall₂_dropWhile {p : α → Bool} {q : β → Bool} (hpq : SameTest R p q)
    (hxs : List.Forall₂ R xs ys) : List.Forall₂ R (xs.dropWhile p) (ys.dropWhile q) := by
  induction hxs with
  | nil => exact .nil
  | @cons a b xs ys hab hrest ih =>
    rw [List.dropWhile_cons, List.dropWhile_cons, hpq a b hab]
    cases q b with
    | true => exact ih
    | false => exact .cons hab hrest

theorem forall₂_eraseIdx (n : Nat) (hxs : List.Forall₂ R xs ys) :
    List.Forall₂ R (xs.eraseIdx n) (ys.eraseIdx n) := by
  induction hxs generalizing n with
  | nil => exact .nil
  | cons hab hrest ih =>
    cases n with
    | zero => exact hrest
    | succ n => exact .cons hab (ih n)

theorem insertIdx_length {B : Type} (before after : List B) (e : B) :
    (before ++ after).insertIdx before.length e = before ++ e :: after := by
  induction before with
  | nil => rfl
  | cons b before ih => exact congrArg (b :: ·) ih

theorem forall₂_insertIdx (n : Nat) {a : α} {b : β} (hab : R a b) (hxs : List.Forall₂ R xs ys) :
    List.Forall₂ R (xs.insertIdx n a) (ys.insertIdx n b) := by
  induction n generalizing xs ys with
  | zero => exact .cons hab hxs
  | succ n ih =>
    cases hxs with
    | nil => exact .nil
    | cons hab' hrest => exact .cons hab' (ih hrest)

theorem rel_find? {p : α → Bool} {q : β → Bool} (hpq : SameTest R p q)
    (hxs : List.Forall₂ R xs ys) :
    Option.Rel R (xs.find? p) (ys.find? q) := by
  induction hxs with
  | nil => exact .none
  | @cons a b xs ys hab _ ih =>
    rw [List.find?_cons, List.find?_cons, hpq a b hab]
    cases q b with
    | true => exact .some hab
    | false => exact ih

theorem rel_head? (hxs : List.Forall₂ R xs ys) : Option.Rel R xs.head? ys.head? := by
  cases hxs with
  | nil => exact .none
  | cons hab _ => exact .some hab

end

/-- Related options are both there or both missing. -/
theorem rel_cases {o : Option α} {o' : Option β} (ho : Option.Rel R o o') :
    (o = none ∧ o' = none) ∨ ∃ a b, o = some a ∧ o' = some b ∧ R a b := by
  cases ho with
  | none => exact .inl ⟨rfl, rfl⟩
  | some hab => exact .inr ⟨_, _, rfl, rfl, hab⟩

/-- A member put at the end. -/
theorem forall₂_concat {xs : List α} {ys : List β} (hxs : List.Forall₂ R xs ys) {a : α} {b : β}
    (hab : R a b) : List.Forall₂ R (xs ++ [a]) (ys ++ [b]) :=
  List.rel_append hxs (.cons hab .nil)

/-! ## §3. Sorting -/

section

variable {r : α → α → Prop} {s : β → β → Prop} [DecidableRel r] [DecidableRel s]
variable (hrs : AgreeOn R r s)

include hrs in
theorem forall₂_orderedInsert {a : α} {b : β} (hab : R a b) {xs : List α} {ys : List β}
    (hxs : List.Forall₂ R xs ys) :
    List.Forall₂ R (xs.orderedInsert r a) (ys.orderedInsert s b) := by
  induction hxs with
  | nil => exact .cons hab .nil
  | @cons a' b' xs ys hab' hrest ih =>
    rw [List.orderedInsert_cons, List.orderedInsert_cons]
    by_cases hle : r a a'
    · rw [if_pos hle, if_pos ((hrs _ _ _ _ hab hab').1 hle)]
      exact .cons hab (.cons hab' hrest)
    · rw [if_neg hle, if_neg (mt (hrs _ _ _ _ hab hab').2 hle)]
      exact .cons hab' ih

include hrs in
/-- **Related lists are sorted the same way.** -/
theorem forall₂_insertionSort {xs : List α} {ys : List β} (hxs : List.Forall₂ R xs ys) :
    List.Forall₂ R (xs.insertionSort r) (ys.insertionSort s) := by
  induction hxs with
  | nil => exact .nil
  | cons hab _ ih => exact forall₂_orderedInsert hrs hab ih

include hrs in
theorem forall₂_destutter' {xs : List α} {ys : List β} (hxs : List.Forall₂ R xs ys) :
    ∀ {a : α} {b : β}, R a b → List.Forall₂ R (xs.destutter' r a) (ys.destutter' s b) := by
  induction hxs with
  | nil => exact fun hab => .cons hab .nil
  | @cons a' b' xs ys hab' _ ih =>
    intro a b hab
    rw [List.destutter'_cons, List.destutter'_cons]
    by_cases hkeep : r a a'
    · rw [if_pos hkeep, if_pos ((hrs _ _ _ _ hab hab').1 hkeep)]
      exact .cons hab (ih hab')
    · rw [if_neg hkeep, if_neg (mt (hrs _ _ _ _ hab hab').2 hkeep)]
      exact ih hab

include hrs in
theorem forall₂_destutter {xs : List α} {ys : List β} (hxs : List.Forall₂ R xs ys) :
    List.Forall₂ R (xs.destutter r) (ys.destutter s) := by
  cases hxs with
  | nil => exact .nil
  | cons hab hrest => exact forall₂_destutter' hrs hrest hab

end

end GluaLs.Lib
