/-
  GluaLs.Lib.Layers — levels of a relation that may have cycles.

  `E a b` says that `a` rests on `b`.  A LAYERING settles some of the points and puts each of
  them above all it rests on, by as little as it can.  What it says of the settled points:

    • none of them is on a cycle, or rests on one (`Layering.not_aboveCycle`),
    • the level of a point is the length of its longest chain (`Layering.level_eq_iff`).

  Points of a finite set each of which rests on another one all rest on a cycle
  (`aboveCycle_of_serial`): what a layering that got stuck has left over.
-/
import Mathlib.Data.Set.Finite.Basic
import Mathlib.Data.Fintype.EquivFin
import Mathlib.Logic.Relation
import Mathlib.Order.Monotone.Basic

namespace GluaLs.Lib.Layers

open Relation

variable {V : Type} {E : V → V → Prop}

/-! ## §1. Chains and cycles -/

/-- There is a chain of so many edges from a point. -/
inductive Chain (E : V → V → Prop) : V → Nat → Prop
  | stop (a : V) : Chain E a 0
  | step {a b : V} {k : Nat} : E a b → Chain E b k → Chain E a (k + 1)

/-- The longest chain from a point has so many edges. -/
def LongestChain (E : V → V → Prop) (a : V) (k : Nat) : Prop :=
  Chain E a k ∧ ∀ m, Chain E a m → m ≤ k

/-- A point is on a cycle, or comes to one. -/
def AboveCycle (E : V → V → Prop) (a : V) : Prop :=
  ∃ c, ReflTransGen E a c ∧ TransGen E c c

/-! ## §2. A layering -/

/-- The settled points, each above all it rests on, and no higher than it must be. -/
structure Layering (E : V → V → Prop) (settled : V → Prop) (level : V → Nat) : Prop where
  closed : ∀ {a b}, settled a → E a b → settled b
  above : ∀ {a b}, settled a → E a b → level b < level a
  tight : ∀ {a}, settled a → level a = 0 ∨ ∃ b, E a b ∧ level a = level b + 1

namespace Layering

variable {settled : V → Prop} {level : V → Nat} (h : Layering E settled level)

include h

theorem settled_of_reaches {a b : V} (ha : settled a) (hab : ReflTransGen E a b) : settled b := by
  induction hab with
  | refl => exact ha
  | tail _ hbc ih => exact h.closed ih hbc

theorem level_lt {a b : V} (ha : settled a) (hab : TransGen E a b) : level b < level a := by
  induction hab with
  | single hab => exact h.above ha hab
  | tail hab hbc ih =>
    have hb := h.settled_of_reaches ha hab.to_reflTransGen
    exact lt_trans (h.above hb hbc) ih

/-- A settled point has nothing to do with a cycle. -/
theorem not_aboveCycle {a : V} (ha : settled a) : ¬ AboveCycle E a := by
  rintro ⟨c, hac, hcycle⟩
  exact lt_irrefl _ (h.level_lt (h.settled_of_reaches ha hac) hcycle)

theorem le_level {a : V} {m : Nat} (ha : settled a) (hm : Chain E a m) : m ≤ level a := by
  induction hm with
  | stop a => exact Nat.zero_le _
  | step hab _ ih =>
    have hb := ih (h.closed ha hab)
    have hlt := h.above ha hab
    omega

theorem chain_level : ∀ {k : Nat} {a : V}, settled a → level a = k → Chain E a k := by
  intro k
  induction k with
  | zero => exact fun _ _ => .stop _
  | succ k ih =>
    intro a ha hk
    rcases h.tight ha with h0 | ⟨b, hab, hb⟩
    · omega
    · exact .step hab (ih (h.closed ha hab) (by omega))

/-- **The level is the length of the longest chain.** -/
theorem level_eq_iff {a : V} (ha : settled a) (k : Nat) : level a = k ↔ LongestChain E a k := by
  constructor
  · rintro rfl
    exact ⟨h.chain_level ha rfl, fun m hm => h.le_level ha hm⟩
  · rintro ⟨hchain, hmax⟩
    exact le_antisymm (hmax _ (h.chain_level ha rfl)) (h.le_level ha hchain)

end Layering

/-! ## §3. What is left over -/

theorem transGen_iterate {next : V → V} {a : V} (hnext : ∀ k, E (next^[k] a) (next^[k + 1] a)) :
    ∀ d i, TransGen E (next^[i] a) (next^[i + d + 1] a) := by
  intro d
  induction d with
  | zero => exact fun i => .single (hnext i)
  | succ d ih => exact fun i => .tail (ih i) (hnext (i + d + 1))

/-- **Points each of which rests on another one rest on a cycle.** -/
theorem aboveCycle_of_serial {U : Set V} (hfinite : U.Finite)
    (hserial : ∀ a ∈ U, ∃ b ∈ U, E a b) {a : V} (ha : a ∈ U) : AboveCycle E a := by
  choose! next hmem hnext using hserial
  have hiterate : ∀ k, next^[k] a ∈ U := by
    intro k
    induction k with
    | zero => exact ha
    | succ k ih =>
      rw [Function.iterate_succ_apply']
      exact hmem _ ih
  have hedge : ∀ k, E (next^[k] a) (next^[k + 1] a) := by
    intro k
    rw [Function.iterate_succ_apply']
    exact hnext _ (hiterate k)
  -- Among so many steps two come to the same point.
  have hrepeat : ¬ Set.InjOn (fun k : Nat => next^[k] a) Set.univ := by
    intro hinj
    exact Set.infinite_of_injOn_mapsTo hinj (fun k _ => hiterate k) Set.infinite_univ hfinite
  obtain ⟨i, -, j, -, hij, hne⟩ : ∃ i ∈ Set.univ, ∃ j ∈ Set.univ,
      next^[i] a = next^[j] a ∧ i ≠ j := by
    simpa [Set.InjOn] using hrepeat
  have hreach : ∀ k, ReflTransGen E a (next^[k] a) := by
    intro k
    induction k with
    | zero => exact .refl
    | succ k ih => exact .tail ih (hedge k)
  wlog hlt : i < j generalizing i j
  · exact this j i hij.symm hne.symm (by omega)
  obtain ⟨d, rfl⟩ : ∃ d, j = i + d + 1 := ⟨j - i - 1, by omega⟩
  refine ⟨next^[i] a, hreach i, ?_⟩
  have hround := transGen_iterate hedge d i
  rwa [← hij] at hround

end GluaLs.Lib.Layers
