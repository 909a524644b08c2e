/-
  GluaLs.Lib.Decodes — codes that can be read back from the front of a longer word.

  A value DECODES under a code if no word that starts with its code starts with the code of
  another value.  Codes written one behind the other keep this, and so does a list behind
  its length; nothing is asked of the values that do not occur.
-/
import Mathlib.Data.List.Basic

namespace GluaLs.Lib

variable {W α β : Type}

/-- In front of anything, the code of `a` is the code of nothing else. -/
def Decodes (code : α → List W) (a : α) : Prop :=
  ∀ b u v, code a ++ u = code b ++ v → a = b ∧ u = v

/-- A code of one word each. -/
theorem decodes_word (word : α → W) (hword : Function.Injective word) (a : α) :
    Decodes (fun a => [word a]) a := by
  intro b u v h
  obtain ⟨hab, huv⟩ := List.cons.inj h
  exact ⟨hword hab, huv⟩

theorem Decodes.pair {f : α → List W} {g : β → List W} {a : α} {b : β} (hf : Decodes f a)
    (hg : Decodes g b) : Decodes (fun x : α × β => f x.1 ++ g x.2) (a, b) := by
  intro x u v h
  rw [List.append_assoc, List.append_assoc] at h
  obtain ⟨ha, h'⟩ := hf x.1 _ _ h
  obtain ⟨hb, huv⟩ := hg x.2 u v h'
  exact ⟨Prod.ext ha hb, huv⟩

/-- Lists of one length. -/
theorem Decodes.flatMap {code : α → List W} (l : List α) (h : ∀ a ∈ l, Decodes code a) :
    ∀ l' u v, l.length = l'.length → l.flatMap code ++ u = l'.flatMap code ++ v →
      l = l' ∧ u = v := by
  induction l with
  | nil =>
    intro l' u v hlen heq
    cases l' with
    | nil => exact ⟨rfl, heq⟩
    | cons b l' => cases hlen
  | cons a l ih =>
    intro l' u v hlen heq
    cases l' with
    | nil => cases hlen
    | cons b l' =>
      rw [List.flatMap_cons, List.flatMap_cons, List.append_assoc, List.append_assoc] at heq
      obtain ⟨hab, heq'⟩ := h a (by simp) b _ _ heq
      obtain ⟨hll, huv⟩ := ih (fun x hx => h x (by simp [hx])) l' u v (by simpa using hlen) heq'
      exact ⟨by rw [hab, hll], huv⟩

/-- A list behind its length. -/
theorem Decodes.list {code : α → List W} (word : Nat → W) (hword : Function.Injective word)
    (l : List α) (h : ∀ a ∈ l, Decodes code a) :
    Decodes (fun l => word l.length :: l.flatMap code) l := by
  intro l' u v heq
  rw [List.cons_append, List.cons_append] at heq
  obtain ⟨hlen, heq'⟩ := List.cons.inj heq
  exact Decodes.flatMap l h l' u v (hword hlen) heq'

/-- A value that may be absent, behind a word that says so. -/
theorem Decodes.option {code : α → List W} (no yes : W) (hne : no ≠ yes) (o : Option α)
    (h : ∀ a ∈ o.toList, Decodes code a) :
    Decodes (fun o => match o with | none => [no] | some a => yes :: code a) o := by
  intro o' u v heq
  cases o with
  | none =>
    cases o' with
    | none => exact ⟨rfl, (List.cons.inj heq).2⟩
    | some b => exact absurd (List.cons.inj heq).1 hne
  | some a =>
    cases o' with
    | none => exact absurd (List.cons.inj heq).1.symm hne
    | some b =>
      obtain ⟨hab, huv⟩ := h a (by simp) b u v (List.cons.inj heq).2
      exact ⟨by rw [hab], huv⟩

end GluaLs.Lib
