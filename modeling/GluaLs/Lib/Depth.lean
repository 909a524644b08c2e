/-
  GluaLs.Lib.Depth — recursion that is given a depth.

  A function that may not end is given a depth and answers `none` when it is used up.  What
  it answers at one depth it answers at every greater one, if that holds from each depth to
  the next; going over a list keeps it.
-/
import Mathlib.Data.List.Basic

namespace GluaLs.Lib

variable {A B C : Type}

/-- The second function answers what the first one answers. -/
def Extends (f g : A → Option B) : Prop := ∀ a b, f a = some b → g a = some b

theorem Extends.mapM {f g : A → Option B} (hfg : Extends f g) (l : List A) :
    ∀ bs, l.mapM f = some bs → l.mapM g = some bs := by
  induction l with
  | nil => exact fun _ h => h
  | cons a l ih =>
    intro bs hbs
    rw [List.mapM_cons] at hbs ⊢
    cases hb : f a with
    | none =>
      rw [hb] at hbs
      cases hbs
    | some b =>
      cases hrest : l.mapM f with
      | none =>
        rw [hb, hrest] at hbs
        cases hbs
      | some rest =>
        rw [hb, hrest] at hbs
        rw [hfg a b hb, ih rest hrest]
        exact hbs

theorem Extends.map_mapM {f g : A → Option B} (hfg : Extends f g) (k : List B → C) (l : List A)
    (c : C) (hc : (l.mapM f).map k = some c) : (l.mapM g).map k = some c := by
  obtain ⟨bs, hbs, hk⟩ := Option.map_eq_some_iff.1 hc
  rw [hfg.mapM l bs hbs]
  exact congrArg some hk

/-- From each depth to the next, and so to every greater one. -/
theorem extends_of_le {f : Nat → A → Option B} (hstep : ∀ depth, Extends (f depth) (f (depth + 1)))
    {depth depth' : Nat} (hle : depth ≤ depth') : Extends (f depth) (f depth') := by
  induction hle with
  | refl => exact fun _ _ h => h
  | step _ ih => exact fun a b h => hstep _ a b (ih a b h)

/-- Going over a list when every element has an answer. -/
theorem exists_mapM {f : A → Option B} {P : A → B → Prop} (l : List A)
    (hf : ∀ a ∈ l, ∃ b, f a = some b ∧ P a b) :
    ∃ bs, l.mapM f = some bs ∧ (∀ a ∈ l, ∃ b ∈ bs, P a b) ∧ ∀ b ∈ bs, ∃ a ∈ l, P a b := by
  induction l with
  | nil =>
    refine ⟨[], rfl, ?_, ?_⟩ <;> intro _ hmem <;> cases hmem
  | cons a l ih =>
    obtain ⟨b, hb, hab⟩ := hf a (.head _)
    obtain ⟨bs, hbs, hl, hr⟩ := ih fun a' ha' => hf a' (.tail _ ha')
    refine ⟨b :: bs, ?_, ?_, ?_⟩
    · rw [List.mapM_cons, hb, hbs]
      rfl
    · intro a' ha'
      obtain rfl | ha' := List.mem_cons.1 ha'
      · exact ⟨b, .head _, hab⟩
      · obtain ⟨b', hb', hab'⟩ := hl a' ha'
        exact ⟨b', .tail _ hb', hab'⟩
    · intro b' hb'
      obtain rfl | hb' := List.mem_cons.1 hb'
      · exact ⟨a, .head _, hab⟩
      · obtain ⟨a', ha', hab'⟩ := hr b' hb'
        exact ⟨a', .tail _ ha', hab'⟩

end GluaLs.Lib
