/-
  GluaLs.Lib.StoppingLoop — loops whose body may end them.

  `for a in l { if body(a) { return } }`: the body reads a member, changes a state and says
  whether the loop ends there.  Loops in a row and loops in loops are loops over the members
  they come to; a loop that never ends early folds, and one that ends at what it looks for
  finds the first.
-/
import Mathlib.Data.List.Basic

namespace GluaLs.Lib

section

variable {α β σ : Type}

/-- Runs `body` over the members until it says to stop: the state it leaves, and whether it
    stopped. -/
def loopUntil (body : α → σ → σ × Bool) : List α → σ → σ × Bool
  | [], s => (s, false)
  | a :: rest, s =>
    match body a s with
    | (s', true) => (s', true)
    | (s', false) => loopUntil body rest s'

variable (body : α → σ → σ × Bool)

theorem loopUntil_cons (a : α) (rest : List α) (s : σ) :
    loopUntil body (a :: rest) s =
      if (body a s).2 then body a s else loopUntil body rest (body a s).1 := by
  show (match body a s with | (s', true) => _ | (s', false) => _) = _
  rcases body a s with ⟨s', _ | _⟩ <;> rfl

/-- One loop after another. -/
theorem loopUntil_append (l l' : List α) (s : σ) :
    loopUntil body (l ++ l') s =
      if (loopUntil body l s).2 then loopUntil body l s
      else loopUntil body l' (loopUntil body l s).1 := by
  induction l generalizing s with
  | nil => rfl
  | cons a l ih =>
    rw [List.cons_append, loopUntil_cons, loopUntil_cons, ih]
    by_cases hstop : (body a s).2 = true
    · rw [if_pos hstop, if_pos hstop, if_pos hstop]
    · rw [if_neg hstop, if_neg hstop]

/-- A loop in a loop. -/
theorem loopUntil_flatMap (visits : β → List α) (l : List β) (s : σ) :
    loopUntil (fun b => loopUntil body (visits b)) l s = loopUntil body (l.flatMap visits) s := by
  induction l generalizing s with
  | nil => rfl
  | cons b l ih => rw [loopUntil_cons, List.flatMap_cons, loopUntil_append, ih]

/-- A loop that never stops folds. -/
theorem loopUntil_of_continues (step : σ → α → σ) (hbody : ∀ a s, body a s = (step s a, false))
    (l : List α) (s : σ) : loopUntil body l s = (l.foldl step s, false) := by
  induction l generalizing s with
  | nil => rfl
  | cons a l ih =>
    rw [loopUntil_cons, hbody, List.foldl_cons]
    exact ih (step s a)

end

/-- **A loop that stops at what it looks for finds the first.** -/
theorem loopUntil_search {α β : Type} (body : α → Option β → Option β × Bool) (f : α → Option β)
    (hbody : ∀ a, body a none = (f a, (f a).isSome)) (l : List α) :
    loopUntil body l none = (l.findSome? f, (l.findSome? f).isSome) := by
  induction l with
  | nil => rfl
  | cons a l ih =>
    rw [loopUntil_cons, hbody, List.findSome?_cons]
    cases f a with
    | none => exact ih
    | some b => rfl

end GluaLs.Lib
