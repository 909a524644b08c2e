/-
  GluaLs.Lib.LabelledRuns — runs of a labelled step function.

  A system takes labelled steps, each of them enabled or not.  A RUN is a list of labels
  that are enabled one after the other.  Two rules carry what one step does to a whole run:

    • `everyState_of_everyStep` — what every step that meets a condition keeps holds in
      every state of a run whose steps all meet it,
    • `everyState_iff_everyStep` — where a step keeps it ONLY if it meets the condition,
      the two are the same.

  A third asks this of the runs whose steps all meet a second condition.
-/
import Mathlib.Logic.Basic

namespace GluaLs.Lib.LabelledRuns

variable {S L : Type} (step : S → L → Option S)

/-- The state a run ends in. -/
def run (labels : List L) (s : S) : Option S := labels.foldlM step s

/-- Every step of a run meets a condition in the state it is taken in. -/
def everyStep (condition : S → L → Bool) : List L → S → Bool
  | [], _ => true
  | label :: labels, s =>
    condition s label &&
      match step s label with
      | some s' => everyStep condition labels s'
      | none => true

/-- Something holds in every state of a run, the first and the last included. -/
def EveryState (P : S → Prop) : List L → S → Prop
  | [], s => P s
  | label :: labels, s => P s ∧ ∀ s', step s label = some s' → EveryState P labels s'

variable {step}

theorem run_cons (label : L) (labels : List L) (s : S) :
    run step (label :: labels) s = (step s label).bind (run step labels) := rfl

theorem run_append (l₁ l₂ : List L) (s : S) :
    run step (l₁ ++ l₂) s = (run step l₁ s).bind (run step l₂) := by
  unfold run
  rw [List.foldlM_append]
  rfl

theorem EveryState.imp {P Q : S → Prop} (hPQ : ∀ s, P s → Q s) (labels : List L) : ∀ s : S,
    EveryState step P labels s → EveryState step Q labels s := by
  induction labels with
  | nil => exact fun s h => hPQ s h
  | cons label labels ih => exact fun s h => ⟨hPQ s h.1, fun s' hs' => ih s' (h.2 s' hs')⟩

/-- What holds in every state holds in the last. -/
theorem EveryState.last {P : S → Prop} (labels : List L) : ∀ s last : S,
    EveryState step P labels s → run step labels s = some last → P last := by
  induction labels with
  | nil =>
    intro s last h hrun
    cases hrun
    exact h
  | cons label labels ih =>
    intro s last h hrun
    rw [run_cons] at hrun
    obtain ⟨s', hs', hrest⟩ := Option.bind_eq_some_iff.1 hrun
    exact ih s' last (h.2 s' hs') hrest

/-- **Invariants over a run**, of the steps that meet a condition. -/
theorem everyState_of_everyStep (P : S → Prop) (condition : S → L → Bool)
    (hstep : ∀ s label s', P s → condition s label = true → step s label = some s' → P s')
    (labels : List L) : ∀ s : S, P s → everyStep step condition labels s = true →
      EveryState step P labels s := by
  induction labels with
  | nil =>
    intro s hs _
    exact hs
  | cons label labels ih =>
    intro s hs hall
    refine ⟨hs, ?_⟩
    intro s' hs'
    simp only [everyStep, hs', Bool.and_eq_true] at hall
    exact ih s' (hstep s label s' hs hall.1 hs') hall.2

/-- **Exactly the steps that meet the condition keep what holds**, in runs whose steps all meet
    a second one.  That is what the invariant `I` needs to be kept. -/
theorem everyState_iff_everyStep_guarded (I P : S → Prop) (guard condition : S → L → Bool)
    (hI : ∀ s label s', I s → guard s label = true → step s label = some s' → I s')
    (hP : ∀ s label s', I s → guard s label = true → P s → step s label = some s' →
      (P s' ↔ condition s label = true))
    (labels : List L) : ∀ s : S, I s → P s → everyStep step guard labels s = true →
      (∃ s', run step labels s = some s') →
      (EveryState step P labels s ↔ everyStep step condition labels s = true) := by
  induction labels with
  | nil =>
    intro s _ hs _ _
    exact ⟨fun _ => rfl, fun _ => hs⟩
  | cons label labels ih =>
    intro s hIs hs hguard hrun
    obtain ⟨last, hlast⟩ := hrun
    rw [run_cons] at hlast
    obtain ⟨s', hs', hrest⟩ := Option.bind_eq_some_iff.1 hlast
    simp only [everyStep, hs', Bool.and_eq_true] at hguard
    have hone := hP s label s' hIs hguard.1 hs hs'
    have hnext : I s' := hI s label s' hIs hguard.1 hs'
    simp only [EveryState, everyStep, hs', Bool.and_eq_true, Option.some.injEq, forall_eq']
    constructor
    · intro h
      have hs'P : P s' := by
        cases labels with
        | nil => exact h.2
        | cons _ _ => exact h.2.1
      exact ⟨hone.1 hs'P, (ih s' hnext hs'P hguard.2 ⟨last, hrest⟩).1 h.2⟩
    · intro h
      have hs'P : P s' := hone.2 h.1
      exact ⟨hs, (ih s' hnext hs'P hguard.2 ⟨last, hrest⟩).2 h.2⟩

theorem everyStep_true (labels : List L) : ∀ s : S,
    everyStep step (fun _ _ => true) labels s = true := by
  induction labels with
  | nil => exact fun _ => rfl
  | cons label labels ih =>
    intro s
    rw [everyStep, Bool.true_and]
    cases step s label with
    | none => rfl
    | some s' => exact ih s'

/-- **Exactly the steps that meet the condition keep what holds.**  `I` is an invariant of
    every step. -/
theorem everyState_iff_everyStep (I P : S → Prop) (condition : S → L → Bool)
    (hI : ∀ s label s', I s → step s label = some s' → I s')
    (hP : ∀ s label s', I s → P s → step s label = some s' →
      (P s' ↔ condition s label = true)) (labels : List L) (s : S) (hs : I s) (hPs : P s)
    (hrun : ∃ s', run step labels s = some s') :
    EveryState step P labels s ↔ everyStep step condition labels s = true :=
  everyState_iff_everyStep_guarded I P (fun _ _ => true) condition
    (fun s label s' h _ => hI s label s' h) (fun s label s' h _ => hP s label s' h) labels s hs hPs
    (everyStep_true labels s) hrun

end GluaLs.Lib.LabelledRuns
