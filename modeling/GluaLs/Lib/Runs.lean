/-
  GluaLs.Lib.Runs — total correctness of programs with a state that may stop.

  A program takes a state and either stops with an error or returns a value and the state it
  leaves.  `Runs m s Q` says that `m`, started in `s`, does NOT stop and that what it returns
  meets `Q`.  The rules below take a program apart along its `do` block; loops are bounded
  by a number of turns, and a loop whose turns shrink a measure never uses them up
  (`runs_loop`).
-/
import Mathlib.Order.Basic

namespace GluaLs.Lib

/-- Programs over a state `σ` that may stop with an error `ε`. -/
abbrev Prog (σ ε α : Type) : Type := StateT σ (Except ε) α

section

variable {σ ε α β : Type}

/-- Started in `s`, the program returns a value and a state that meet `Q`. -/
def Runs (m : Prog σ ε α) (s : σ) (Q : α → σ → Prop) : Prop :=
  ∃ a s', m s = .ok (a, s') ∧ Q a s'

theorem Runs.mono {m : Prog σ ε α} {s : σ} {Q Q' : α → σ → Prop} (h : Runs m s Q)
    (hQ : ∀ a s', Q a s' → Q' a s') : Runs m s Q' := by
  obtain ⟨a, s', hrun, hq⟩ := h
  exact ⟨a, s', hrun, hQ a s' hq⟩

theorem runs_pure {a : α} {s : σ} {Q : α → σ → Prop} (h : Q a s) : Runs (pure a : Prog σ ε α) s Q :=
  ⟨a, s, rfl, h⟩

theorem runs_bind {m : Prog σ ε α} {k : α → Prog σ ε β} {s : σ} {Q : α → σ → Prop}
    {Q' : β → σ → Prop} (h : Runs m s Q) (hk : ∀ a s', Q a s' → Runs (k a) s' Q') :
    Runs (m >>= k) s Q' := by
  obtain ⟨a, s', hrun, hq⟩ := h
  obtain ⟨b, s'', hrun', hq'⟩ := hk a s' hq
  refine ⟨b, s'', ?_, hq'⟩
  show (m s >>= fun r => k r.1 r.2) = _
  rw [hrun]
  exact hrun'

theorem runs_get {s : σ} {Q : σ → σ → Prop} (h : Q s s) : Runs (get : Prog σ ε σ) s Q :=
  ⟨s, s, rfl, h⟩

theorem runs_bind_get {k : σ → Prog σ ε β} {s : σ} {Q : β → σ → Prop} (hk : Runs (k s) s Q) :
    Runs (get >>= k) s Q :=
  hk

theorem runs_modify {f : σ → σ} {s : σ} {Q : PUnit → σ → Prop} (h : Q ⟨⟩ (f s)) :
    Runs (modify f : Prog σ ε PUnit) s Q :=
  ⟨⟨⟩, f s, rfl, h⟩

/-! ## Loops -/

/-- Runs `body` on the loop's value until it says so, at most `turns` times. -/
def loop (stop : ε) (body : β → Prog σ ε (Bool × β)) : Nat → β → Prog σ ε β
  | 0, _ => throw stop
  | turns + 1, b => do
      let r ← body b
      if r.1 then loop stop body turns r.2 else pure r.2

/-- **A loop whose turns keep an invariant and shrink a measure ends**, given more turns
    than the measure, where its last turn leaves it. -/
theorem runs_loop (stop : ε) (body : β → Prog σ ε (Bool × β)) (inv : β → σ → Prop)
    (size : β → σ → Nat) (Q : β → σ → Prop)
    (hbody : ∀ b s, inv b s → Runs (body b) s fun r s' =>
      if r.1 then inv r.2 s' ∧ size r.2 s' < size b s else Q r.2 s') :
    ∀ (turns : Nat) (b : β) (s : σ), inv b s → size b s < turns →
      Runs (loop stop body turns b) s Q := by
  intro turns
  induction turns with
  | zero => intro b s _ hlt; omega
  | succ turns ih =>
    intro b s hinv hlt
    apply runs_bind (hbody b s hinv)
    intro r s' hr
    by_cases hgo : r.1 = true
    · rw [if_pos hgo] at hr ⊢
      exact ih r.2 s' hr.1 (by omega)
    · rw [if_neg hgo] at hr ⊢
      exact runs_pure hr

/-- Runs `body` while the state meets `cond`, at most `turns` times. -/
def whileLoop (stop : ε) (cond : σ → Bool) (body : Prog σ ε PUnit) : Nat → Prog σ ε PUnit
  | 0 => throw stop
  | turns + 1 => do
      let s ← get
      if cond s then do
        body
        whileLoop stop cond body turns
      else pure ⟨⟩

theorem runs_whileLoop (stop : ε) (cond : σ → Bool) (body : Prog σ ε PUnit) (inv : σ → Prop)
    (size : σ → Nat)
    (hbody : ∀ s, inv s → cond s = true → Runs body s fun _ s' => inv s' ∧ size s' < size s) :
    ∀ (turns : Nat) (s : σ), inv s → size s < turns →
      Runs (whileLoop stop cond body turns) s fun _ s' => inv s' ∧ cond s' = false := by
  intro turns
  induction turns with
  | zero => intro s _ hlt; omega
  | succ turns ih =>
    intro s hinv hlt
    apply runs_bind (runs_get (Q := fun a s' => a = s ∧ s' = s) ⟨rfl, rfl⟩)
    intro a s' h
    rw [h.1, h.2]
    by_cases hcond : cond s = true
    · rw [if_pos hcond]
      apply runs_bind (hbody s hinv hcond)
      intro _ s'' hs
      exact ih s'' hs.1 (by omega)
    · rw [if_neg hcond]
      exact runs_pure ⟨hinv, by simpa using hcond⟩

end

end GluaLs.Lib
