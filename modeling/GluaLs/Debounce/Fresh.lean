/-
  GluaLs.Debounce.Fresh — the workspace is not reported fresh while work is outstanding.

  `refresh_dirty_state` reads two sets under their locks and three atomics outside any, and
  then OVERWRITES the flag with what it read.  Nothing outstanding at its loads does not mean
  nothing outstanding at its store: a change may have begun, a rebuild may have been
  requested or taken from its request in between.  That store is the only step that can lose
  the flag, and it loses the flag exactly when something it read no longer holds:

    in every state of a run the flag covers what is outstanding
      ↔ every store of `false` still finds what it read (`readStillHolds`).
-/
import GluaLs.Debounce.Locked

namespace GluaLs.Debounce

open GluaLs.Lib Shared

variable {U : Type}

namespace System

/-! ## §1. The loop's variables -/

/-- What backs the loop where it stands.  It marks a re-analysis settling only while one
    settles already or a file is being re-indexed, and takes changed text in only while one
    settles. -/
def Backed (s : System U) : Prop :=
  match s.loop.pc with
  | .top | .rebuilding | .rebuilt | .look | .looked _ | .parked | .debounce | .refresh _ .top =>
    s.loop.textChanged = true → s.shared.settling = true
  | .takeIn _ next | .taken _ next =>
    (s.shared.settling = true ∨ s.shared.reindexingFiles ≠ ∅) ∧ next ≠ .top
  | .recover next | .recovered next =>
    (s.shared.settling = true ∨ s.shared.reindexingFiles ≠ ∅) ∧
      (next = .top → s.loop.textChanged = false)
  | .giveUp next | .abandon next => next = .top → s.loop.textChanged = false
  | .refresh _ _ | .stopped => True
  | .canStart | .slice | .release _ _ =>
    s.shared.settling = true ∧ s.loop.textChanged = false
  | .settle | .releaseSettled _ => s.loop.textChanged = false

theorem Backed.initial : Backed (initial : System U) := by
  intro h
  exact absurd h (by simp [System.initial])

/-- A step that leaves the loop, what settles and what is re-indexed alone. -/
theorem Backed.other {s s' : System U} (h : s.Backed) (hloop : s'.loop = s.loop)
    (hsettling : s'.shared.settling = s.shared.settling)
    (hreindexing : s'.shared.reindexingFiles = s.shared.reindexingFiles) : s'.Backed := by
  unfold Backed at h ⊢
  rw [hloop, hsettling, hreindexing]
  exact h

theorem backed_loop {s s' : System U} (h : s.Backed) (shared : Shared U) (loop : Loop)
    (hs' : s' = { s with shared := shared, loop := loop })
    (hnext : s.loop.next s.shared = some (shared, loop)) : s'.Backed := by
  subst hs'
  unfold Loop.next at hnext
  unfold Backed at h
  cases hp : s.loop.pc with
  | top =>
    simp only [hp] at hnext h
    split_ifs at hnext <;>
    · cases hnext
      exact h
  | rebuilding | giveUp next | settle =>
    simp only [hp] at hnext h
    cases hnext
    exact h
  | rebuilt =>
    simp only [hp] at hnext h
    cases hnext
    exact fun _ => rfl
  | look =>
    simp only [hp] at hnext h
    obtain ⟨-, heq⟩ := s.shared.unlessLocked_eq _ _ hnext
    cases heq
    exact h
  | looked scheduled =>
    simp only [hp] at hnext h
    split_ifs at hnext with hpark hdeb <;> cases hnext
    · exact h
    · exact h
    · -- neither parked nor debouncing: nothing scheduled, settling, no text changed
      cases scheduled <;> cases hset : s.shared.settling <;>
        cases htext : s.loop.textChanged <;> simp_all [Backed]
  | parked => simp [hp] at hnext
  | debounce =>
    simp only [hp] at hnext h
    obtain ⟨hlocks, heq⟩ := s.shared.unlessLocked_eq _ _ hnext
    cases heq
    split_ifs with hempty
    · exact fun htext => absurd htext (by simp [Loop.continueAt])
    · refine ⟨.inr ?_, by simp⟩
      intro hun
      exact hempty (Finset.union_eq_empty.1 hun).2
  | takeIn ids next =>
    simp only [hp] at hnext h
    split_ifs at hnext <;> cases hnext
    · exact ⟨h.1, fun htop => absurd htop h.2⟩
    · exact h
  | taken ids next =>
    simp only [hp] at hnext h
    cases hnext
    cases next with
    | top => exact absurd rfl h.2
    | drained => exact fun _ => rfl
    | unscheduled => exact fun _ => rfl
  | recover next =>
    simp only [hp] at hnext h
    split_ifs at hnext <;> cases hnext
    · exact h.2
    · exact h
  | recovered next =>
    simp only [hp] at hnext h
    cases hnext
    cases next with
    | top => exact fun _ => rfl
    | drained => trivial
    | unscheduled => trivial
  | abandon next =>
    simp only [hp] at hnext h
    obtain ⟨rfl, -⟩ := callRelease_eq hnext
    cases next with
    | top => exact fun htext => absurd htext (by simp [h rfl])
    | drained => trivial
    | unscheduled => trivial
  | refresh r next =>
    simp only [hp, Option.map_eq_some_iff, Prod.mk.injEq] at hnext h
    obtain ⟨⟨shared', after⟩, hacc, hsh, hlo⟩ := hnext
    simp only at hsh hlo
    obtain ⟨flag, locks, rfl⟩ := refresh_frame hacc
    subst hsh hlo
    cases after with
    | some r' =>
      cases next with
      | top => exact h
      | drained => trivial
      | unscheduled => trivial
    | none =>
      cases next with
      | top => exact h
      | drained | unscheduled => exact fun htext => absurd htext (by simp [Loop.continueAt])
  | canStart =>
    simp only [hp] at hnext h
    cases hnext
    split_ifs
    · exact h
    · exact fun _ => h.1
  | slice => simp [hp] at hnext
  | release ids progress =>
    simp only [hp] at hnext h
    obtain ⟨hlo, hsh⟩ := callRelease_eq hnext
    have hset : shared.settling = s.shared.settling := by
      obtain hsh | ⟨-, hsh⟩ := hsh <;> rw [hsh]
      rfl
    subst hlo
    cases progress with
    | Settling => exact fun _ => hset.trans h.1
    | Settled => exact h.2
    | TextChanged => exact fun _ => hset.trans h.1
  | releaseSettled ids =>
    simp only [hp] at hnext h
    obtain ⟨rfl, -⟩ := callRelease_eq hnext
    exact fun htext => absurd htext (by simp [h])
  | stopped => simp [hp] at hnext

theorem backed_fails {s : System U} (h : s.Backed) (loop : Loop)
    (hfails : s.loop.fails = some loop) : Backed { s with loop := loop } := by
  unfold Backed at h
  obtain ⟨hp, hl⟩ | ⟨ids, next, hp, hl⟩ | ⟨next, hp, hl⟩ | ⟨hp, hl⟩ := Loop.fails_cases hfails
  all_goals
    rw [hp] at h
    subst hl
  · exact h
  · exact ⟨h.1, fun htop => absurd htop h.2⟩
  · exact h.2
  · exact ⟨.inl h.1, fun _ => h.2⟩

variable [DecidableEq U] {uriOf : FileId → U}

/-- What a task does to the shared state. -/
theorem Task.next_frame {s s' : Shared U} {id : Nat} {task : Task} {phase : Phase}
    (h : task.next uriOf s id = some (s', phase)) :
    s'.settling = s.settling ∧ s'.reindexingFiles = s.reindexingFiles ∧
      s'.rebuildRequested = s.rebuildRequested := by
  cases Task.next_moves uriOf s s' id task phase h with
  | counts _ hs _ | begins _ hs _ | applies _ hs _ | skips _ _ hs _ | blocks _ hs _
  | schedules _ hs _ | queues _ _ hs _ | uncounts _ hs _ =>
    subst hs
    exact ⟨rfl, rfl, rfl⟩
  | withdraws _ hs _ =>
    subst hs
    unfold withdraw
    split_ifs <;> exact ⟨rfl, rfl, rfl⟩
  | refreshes r next _ hs _ _ =>
    obtain ⟨flag, locks, rfl⟩ := refresh_frame hs
    exact ⟨rfl, rfl, rfl⟩

/-- **Every step keeps the loop backed.** -/
theorem backed_step (s : System U) (label : Label) (s' : System U) (h : s.Backed)
    (hstep : s.step uriOf label = some s') : s'.Backed := by
  cases label with
  | begin change =>
    cases hstep
    refine h.other rfl ?_ ?_ <;> (unfold announce; split_ifs <;> rfl)
  | task id =>
    obtain ⟨task, shared, phase, ht, hnext, rfl⟩ := step_task hstep
    obtain ⟨hset, hre, -⟩ := Task.next_frame hnext
    exact h.other rfl hset hre
  | drop id =>
    obtain ⟨task, -, -, rfl⟩ := step_drop hstep
    refine h.other rfl ?_ ?_ <;> (unfold withdraw; split_ifs <;> rfl)
  | requestRebuild =>
    cases hstep
    exact h.other rfl rfl rfl
  | requestNoted =>
    simp only [step] at hstep
    split_ifs at hstep
    cases hstep
    exact h.other rfl rfl rfl
  | loop =>
    obtain ⟨shared, loop, hnext, heq⟩ := step_loop hstep
    exact backed_loop h shared loop heq hnext
  | fails =>
    simp only [step, Option.map_eq_some_iff] at hstep
    obtain ⟨loop, hfails, rfl⟩ := hstep
    exact backed_fails h loop hfails
  | notified =>
    simp only [step] at hstep
    split_ifs at hstep
    cases hstep
    exact fun htext => absurd htext (by simp)
  | timer =>
    simp only [step] at hstep
    split_ifs at hstep with hcond hstaged
    · cases hstep
      exact fun htext => absurd htext (by simp [Loop.continueAt])
    · cases hstep
      unfold Backed at h
      rw [hcond.1] at h
      exact ⟨.inl (h hcond.2), by simp⟩
  | slice progress settledFirst =>
    simp only [step] at hstep
    unfold Backed at h
    split_ifs at hstep with hcond hset
    all_goals
      cases hstep
      rw [hcond.1] at h
      exact h
  | shutdown =>
    simp only [step] at hstep
    split_ifs at hstep
    cases hstep
    trivial

/-! ## §2. What is outstanding -/

section

omit [DecidableEq U]

/-- Work is outstanding: a change is in flight, a file is queued or being re-indexed, a
    re-analysis settles, or a requested rebuild has neither failed nor settled. -/
def Outstanding (s : System U) : Prop :=
  s.shared.inFlightChanges > 0 ∨ s.shared.pendingFiles ≠ ∅ ∨ s.shared.reindexingFiles ≠ ∅ ∨
    s.shared.settling = true ∨ s.shared.rebuildRequested = true ∨ s.loop.rebuilding = true

/-- The flag covers what is outstanding, unless a call that will set it is half-way. -/
def FlagCovers (s : System U) : Prop :=
  s.halfWay = false → s.Outstanding → s.shared.hasPendingChanges = true

/-- The next access clears the flag. -/
def clearsFlag (s : System U) : Label → Bool
  | .task id => decide (s.refreshing (.task id) = some (.loadedInFlight false))
  | .loop => decide (s.refreshing .loop = some (.loadedInFlight false))
  | _ => false

/-- A store of `false` still finds the atomics as `refresh_dirty_state` read them, and no
    rebuild that the loop took from its request and has not marked settling; or a call that
    will set the flag is half-way. -/
def readStillHolds (s : System U) (label : Label) : Bool :=
  !s.clearsFlag label || s.halfWay ||
    (decide (s.shared.inFlightChanges = 0) && !s.shared.settling && !s.shared.rebuildRequested &&
      !s.loop.rebuilding)

theorem Outstanding.imp {s s' : System U}
    (hin : s'.shared.inFlightChanges > 0 → s.shared.inFlightChanges > 0)
    (hsets : s'.shared.pendingFiles ≠ ∅ ∨ s'.shared.reindexingFiles ≠ ∅ →
      s.shared.pendingFiles ≠ ∅ ∨ s.shared.reindexingFiles ≠ ∅)
    (hsettling : s'.shared.settling = true → s.shared.settling = true)
    (hrequested : s'.shared.rebuildRequested = true → s.shared.rebuildRequested = true)
    (hrebuilding : s'.loop.rebuilding = true → s.loop.rebuilding = true) :
    s'.Outstanding → s.Outstanding := by
  intro h
  obtain h | h | h | h | h | h := h
  · exact .inl (hin h)
  · exact .inr ((or_assoc.1 (.inl (hsets (.inl h)))))
  · exact .inr ((or_assoc.1 (.inl (hsets (.inr h)))))
  · exact .inr (.inr (.inr (.inl (hsettling h))))
  · exact .inr (.inr (.inr (.inr (.inl (hrequested h)))))
  · exact .inr (.inr (.inr (.inr (.inr (hrebuilding h)))))

/-! ## §3. One step -/

theorem FlagCovers.mono {s s' : System U} (h : s.FlagCovers)
    (hhalf : s.halfWay = true → s'.halfWay = true) (hout : s'.Outstanding → s.Outstanding)
    (hflag : s.shared.hasPendingChanges = true → s'.shared.hasPendingChanges = true) :
    s'.FlagCovers := by
  intro hnot hout'
  refine hflag (h ?_ (hout hout'))
  cases hs : s.halfWay with
  | false => rfl
  | true => rw [hhalf hs] at hnot; exact hnot

theorem flagCovers_of_flag {s : System U} (h : s.shared.hasPendingChanges = true) :
    s.FlagCovers := fun _ _ => h

theorem flagCovers_of_halfWay {s : System U} (h : s.halfWay = true) : s.FlagCovers := by
  intro hnot
  rw [h] at hnot
  exact absurd hnot (by simp)

/-- A task that is not half-way does not change whether some other call is. -/
theorem halfWay_set {s : System U} (shared : Shared U) {id : Nat} {task : Task}
    (ht : s.tasks[id]? = some task) (hnot : task.halfWay = false) (phase : Phase)
    (h : s.halfWay = true) :
    ({ s with shared := shared, tasks := s.tasks.set id { task with phase := phase } } :
      System U).halfWay = true := by
  unfold halfWay at h ⊢
  rw [Bool.or_eq_true] at h ⊢
  obtain h | h := h
  · left
    obtain ⟨other, hmem, hother⟩ := List.any_eq_true.1 h
    obtain ⟨i, hi⟩ := List.mem_iff_getElem?.1 hmem
    have hne : id ≠ i := by
      intro heq
      rw [heq, hi] at ht
      rw [Option.some.inj ht, hnot] at hother
      exact absurd hother (by simp)
    refine List.any_eq_true.2 ⟨other, ?_, hother⟩
    refine List.mem_iff_getElem?.2 ⟨i, ?_⟩
    rw [List.getElem?_set_ne hne]
    exact hi
  · exact .inr h

theorem halfWay_set_self {s : System U} (shared : Shared U) {id : Nat} {task : Task}
    (ht : s.tasks[id]? = some task) (phase : Phase)
    (h : ({ task with phase := phase } : Task).halfWay = true) :
    ({ s with shared := shared, tasks := s.tasks.set id { task with phase := phase } } :
      System U).halfWay = true := by
  unfold halfWay
  rw [Bool.or_eq_true]
  left
  obtain ⟨hlt, -⟩ := List.getElem?_eq_some_iff.1 ht
  exact List.any_eq_true.2 ⟨_, List.mem_set hlt _, h⟩

theorem halfWay_of_set {s : System U} (shared : Shared U) {id : Nat} {task : Task}
    (phase : Phase) (hnot : ({ task with phase := phase } : Task).halfWay = false)
    (h : ({ s with shared := shared, tasks := s.tasks.set id { task with phase := phase } } :
      System U).halfWay = true) : s.halfWay = true := by
  unfold halfWay at h ⊢
  rw [Bool.or_eq_true] at h ⊢
  obtain h | h := h
  · obtain ⟨other, hmem, hother⟩ := List.any_eq_true.1 h
    obtain hmem | heq := List.mem_or_eq_of_mem_set hmem
    · exact .inl (List.any_eq_true.2 ⟨other, hmem, hother⟩)
    · rw [heq, hnot] at hother
      exact absurd hother (by simp)
  · exact .inr h

/-- An access of `refresh_dirty_state` that does not clear the flag never lowers it. -/
theorem refresh_flag {s s' : Shared U} {who : Who} {r : Refresh} {next : Option Refresh}
    (h : s.refresh who r = some (s', next)) (hr : r ≠ .loadedInFlight false) :
    s.hasPendingChanges = true → s'.hasPendingChanges = true := by
  intro hflag
  cases r with
  | start =>
    rw [(refresh_start h).2.1]
    exact hflag
  | locked | loadedSettling | loadedRebuild | stored =>
    simp only [refresh, Option.some.injEq, Prod.mk.injEq] at h
    rw [← h.1]
    exact hflag
  | loadedInFlight dirty =>
    simp only [refresh, Option.some.injEq, Prod.mk.injEq] at h
    rw [← h.1]
    cases dirty with
    | true => rfl
    | false => exact absurd rfl hr
  | reloaded inFlight =>
    simp only [refresh, Option.some.injEq, Prod.mk.injEq] at h
    rw [← h.1]
    show (s.hasPendingChanges || inFlight) = true
    rw [hflag]
    rfl

/-- The store of `false`, with both sets empty: the flag covers what is outstanding exactly
    where the read still holds. -/
theorem flagCovers_cleared {s s' : System U} (hhalf : s'.halfWay = s.halfWay)
    (hflag : s'.shared.hasPendingChanges = false)
    (hpending : s'.shared.pendingFiles = ∅) (hreindexing : s'.shared.reindexingFiles = ∅)
    (hin : s'.shared.inFlightChanges = s.shared.inFlightChanges)
    (hsettling : s'.shared.settling = s.shared.settling)
    (hrequested : s'.shared.rebuildRequested = s.shared.rebuildRequested)
    (hrebuilding : s'.loop.rebuilding = s.loop.rebuilding) (label : Label)
    (hclears : s.clearsFlag label = true) :
    s'.FlagCovers ↔ s.readStillHolds label = true := by
  have hout : s'.Outstanding ↔ ¬ (s.shared.inFlightChanges = 0 ∧ s.shared.settling = false ∧
      s.shared.rebuildRequested = false ∧ s.loop.rebuilding = false) := by
    unfold Outstanding
    rw [hpending, hreindexing, hin, hsettling, hrequested, hrebuilding]
    cases s.shared.settling <;> cases s.shared.rebuildRequested <;> cases s.loop.rebuilding <;>
      simp [Nat.pos_iff_ne_zero]
  have hread : s.readStillHolds label = true ↔ s.halfWay = true ∨
      (s.shared.inFlightChanges = 0 ∧ s.shared.settling = false ∧
        s.shared.rebuildRequested = false ∧ s.loop.rebuilding = false) := by
    unfold readStillHolds
    rw [hclears]
    simp [and_assoc]
  unfold FlagCovers
  rw [hread, hhalf, hflag, hout]
  cases s.halfWay <;> simp

end

theorem flagCovers_task {s s' : System U} (hl : s.Locked) (h : s.FlagCovers) (id : Nat)
    (hstep : s.step uriOf (.task id) = some s') :
    s'.FlagCovers ↔ s.readStillHolds (.task id) = true := by
  obtain ⟨task, shared, phase, ht, hnext, rfl⟩ := step_task hstep
  obtain ⟨hset, hre, hreq⟩ := Task.next_frame hnext
  have hself : s.refreshing (.task id) = task.phase.refreshing := by
    show (s.tasks[id]?).bind _ = _
    rw [ht]
    rfl
  have hclears : s.clearsFlag (.task id)
      = decide (task.phase.refreshing = some (.loadedInFlight false)) := by
    show decide (s.refreshing (.task id) = _) = _
    rw [hself]
  -- the steps that do not clear the flag
  have hkeeps : s.clearsFlag (.task id) = false → ∀ t : System U, t.FlagCovers →
      (t.FlagCovers ↔ s.readStillHolds (.task id) = true) := by
    intro hno t ht
    unfold readStillHolds
    rw [hno]
    exact ⟨fun _ => rfl, fun _ => ht⟩
  cases Task.next_moves uriOf s.shared shared id task phase hnext with
  | counts hp hs hp' | queues hp _ hs hp' | blocks hp hs hp' =>
    refine hkeeps (by rw [hclears, hp]; rfl) _ (flagCovers_of_halfWay ?_)
    subst hp'
    exact halfWay_set_self shared ht _ rfl
  | begins hp hs hp' | schedules hp hs hp' =>
    subst hs
    exact hkeeps (by rw [hclears, hp]; rfl) _ (flagCovers_of_flag rfl)
  | applies hp hs hp' | skips hp _ hs hp' =>
    subst hs
    refine hkeeps (by rw [hclears, hp]; rfl) _ (h.mono ?_ (fun ho => ho) (fun hf => hf))
    exact halfWay_set _ ht (by simp [Task.halfWay, hp]) _
  | withdraws hp hs hp' =>
    subst hs
    refine hkeeps (by rw [hclears, hp]; rfl) _ (h.mono ?_ ?_ ?_)
    · exact halfWay_set _ ht (by simp [Task.halfWay, hp]) _
    · unfold Outstanding withdraw
      split_ifs <;> exact fun ho => ho
    · unfold withdraw
      split_ifs <;> exact fun hf => hf
  | uncounts hp hs hp' =>
    subst hs
    refine hkeeps (by rw [hclears, hp]; rfl) _ (h.mono ?_ ?_ (fun hf => hf))
    · exact halfWay_set _ ht (by simp [Task.halfWay, hp]) _
    · exact Outstanding.imp (fun ho => Nat.lt_of_lt_of_le ho (Nat.sub_le _ _))
        (fun ho => ho) (fun ho => ho) (fun ho => ho) (fun ho => ho)
  | refreshes r next hp hs hp' _ =>
    obtain ⟨flag, locks, hframe⟩ := refresh_frame hs
    have hnot : task.halfWay = false := by simp [Task.halfWay, hp]
    by_cases hr : r = .loadedInFlight false
    · subst hr
      have hempty := hl.empty (.task id) (.loadedInFlight false)
        (by rw [hself, hp]; rfl) rfl
      have hnot' : ({ task with phase := phase } : Task).halfWay = false := by
        simp only [refresh, Option.some.injEq, Prod.mk.injEq] at hs
        rw [← hs.2] at hp'
        cases phase <;> simp_all [Phase.refreshing, Task.halfWay]
      have hhalf : ({ s with
          shared := shared
          tasks := s.tasks.set id { task with phase := phase } } : System U).halfWay
          = s.halfWay := by
        rw [Bool.eq_iff_iff]
        exact ⟨halfWay_of_set shared phase hnot', halfWay_set shared ht hnot phase⟩
      refine flagCovers_cleared hhalf ?_ ?_ ?_ ?_ hset hreq rfl _ (by rw [hclears, hp]; rfl)
      · simp only [refresh, Option.some.injEq, Prod.mk.injEq] at hs
        rw [← hs.1]
      · subst hframe
        exact hempty.1
      · subst hframe
        exact hempty.2
      · subst hframe
        rfl
    · refine hkeeps ?_ _ (h.mono ?_ ?_ (refresh_flag hs hr))
      · rw [hclears, hp]
        simp [Phase.refreshing, hr]
      · exact halfWay_set _ ht hnot _
      · subst hframe
        exact fun ho => ho

theorem flagCovers_loop {s s' : System U} (hl : s.Locked) (hb : s.Backed) (h : s.FlagCovers)
    (hstep : s.step uriOf .loop = some s') :
    s'.FlagCovers ↔ s.readStillHolds .loop = true := by
  obtain ⟨shared, loop, hnext, rfl⟩ := step_loop hstep
  by_cases hpc : s.refreshing .loop = some (.loadedInFlight false)
  · -- the store of `false`
    have hclears : s.clearsFlag .loop = true := decide_eq_true hpc
    have hempty := hl.empty .loop _ hpc rfl
    cases hp : s.loop.pc with
    | refresh r next =>
      have hr : r = .loadedInFlight false := by
        have hr' : s.loop.pc.refreshing = some (.loadedInFlight false) := hpc
        rw [hp] at hr'
        exact Option.some.inj hr'
      subst hr
      simp only [Loop.next, hp, refresh, Option.map_some, Option.some.injEq, Prod.mk.injEq] at hnext
      obtain ⟨rfl, rfl⟩ := hnext
      refine flagCovers_cleared ?_ ?_ ?_ ?_ ?_ ?_ ?_ ?_ _ hclears
      · rfl
      · rfl
      · exact hempty.1
      · exact hempty.2
      · rfl
      · rfl
      · rfl
      · simp [Loop.rebuilding, hp]
    | _ =>
      have hr' : s.loop.pc.refreshing = some (.loadedInFlight false) := hpc
      rw [hp] at hr'
      exact absurd hr' (by simp [LoopPc.refreshing])
  · have hclears : s.clearsFlag .loop = false := decide_eq_false hpc
    have hgoal : FlagCovers { s with shared := shared, loop := loop } := by
      -- the flag and the half-way calls stay; what is outstanding was so before
      have hmono : shared.hasPendingChanges = s.shared.hasPendingChanges →
          (Outstanding { s with shared := shared, loop := loop } → s.Outstanding) →
          FlagCovers { s with shared := shared, loop := loop } :=
        fun hflag hout => h.mono id hout (fun hf => hflag.trans hf)
      cases Loop.next_moves s.shared shared s.loop loop hnext with
      | idles hs _ hr | takesText hs _ hr =>
        subst hs
        exact hmono rfl (Outstanding.imp id id id
          id hr)
      | takesRequest hreq hs _ =>
        subst hs
        exact hmono rfl (fun _ => .inr (.inr (.inr (.inr (.inl hreq)))))
      | settles hpc hs _ _ =>
        subst hs
        refine hmono rfl (fun _ => ?_)
        unfold Backed at hb
        obtain hp | ⟨ids, next, hp⟩ | ⟨next, hp⟩ := hpc
        · exact .inr (.inr (.inr (.inr (.inr (by simp [Loop.rebuilding, hp])))))
        all_goals
          rw [hp] at hb
          obtain hset | hre := hb.1
          · exact .inr (.inr (.inr (.inl hset)))
          · exact .inr (.inr (.inl hre))
      | stopsSettling hs _ hr =>
        subst hs
        exact hmono rfl (Outstanding.imp id id
          (fun ho => absurd ho (by simp)) id (fun ho => absurd ho (by simp [hr])))
      | drains _ _ hs _ hr =>
        subst hs
        refine hmono rfl (Outstanding.imp id ?_ id id
          (fun ho => absurd ho (by simp [hr])))
        intro ho
        by_contra hnone
        obtain ⟨hpe, hre⟩ := not_or.1 hnone
        obtain ho | ho := ho
        · exact ho rfl
        · exact ho (Finset.union_eq_empty.2 ⟨not_not.1 hre, not_not.1 hpe⟩)
      | releases ids _ _ hs _ hr =>
        subst hs
        refine hmono rfl (Outstanding.imp id ?_ id id
          (fun ho => absurd ho (by simp [hr])))
        refine Or.imp_right ?_
        intro ho hre
        apply ho
        show s.shared.reindexingFiles \ ids = ∅
        rw [hre, Finset.empty_sdiff]
      | refreshes r after next hp hs _ hr =>
        have hne : r ≠ .loadedInFlight false := by
          intro heq
          apply hpc
          show s.loop.pc.refreshing = _
          rw [hp, heq]
          rfl
        obtain ⟨flag, locks, hframe⟩ := refresh_frame hs
        refine h.mono id ?_ (refresh_flag hs hne)
        subst hframe
        exact Outstanding.imp id id id id
          (fun ho => absurd ho (by simp [hr]))
    unfold readStillHolds
    rw [hclears]
    exact ⟨fun _ => rfl, fun _ => hgoal⟩

/-- **One step**: the flag goes on covering what is outstanding exactly where a store of
    `false` still finds what it read. -/
theorem flagCovers_step (s : System U) (label : Label) (s' : System U) (hl : s.Locked)
    (hb : s.Backed) (h : s.FlagCovers) (hstep : s.step uriOf label = some s') :
    s'.FlagCovers ↔ s.readStillHolds label = true := by
  have hkeeps : s.clearsFlag label = false → s'.FlagCovers →
      (s'.FlagCovers ↔ s.readStillHolds label = true) := by
    intro hno hs'
    unfold readStillHolds
    rw [hno]
    exact ⟨fun _ => rfl, fun _ => hs'⟩
  cases label with
  | begin change =>
    refine hkeeps rfl ?_
    cases hstep
    refine h.mono ?_ ?_ ?_
    · intro hhalf
      unfold halfWay at hhalf ⊢
      rw [Bool.or_eq_true] at hhalf ⊢
      refine Or.imp_left ?_ hhalf
      intro hany
      rw [List.any_append, hany]
      rfl
    · unfold Outstanding announce
      split_ifs <;> exact fun ho => ho
    · unfold announce
      split_ifs <;> exact fun hf => hf
  | task id => exact flagCovers_task hl h id hstep
  | drop id =>
    refine hkeeps rfl ?_
    obtain ⟨task, ht, hphase, rfl⟩ := step_drop hstep
    refine h.mono ?_ ?_ ?_
    · exact halfWay_set _ ht (by simp [Task.halfWay, hphase]) _
    · unfold Outstanding withdraw
      split_ifs <;> exact fun ho => ho
    · unfold withdraw
      split_ifs <;> exact fun hf => hf
  | requestRebuild =>
    refine hkeeps rfl ?_
    cases hstep
    apply flagCovers_of_halfWay
    simp [halfWay]
  | requestNoted =>
    refine hkeeps rfl ?_
    simp only [step] at hstep
    split_ifs at hstep
    cases hstep
    exact flagCovers_of_flag rfl
  | loop => exact flagCovers_loop hl hb h hstep
  | fails | notified | timer | slice | shutdown =>
    refine hkeeps rfl ?_
    obtain ⟨unsettled, loop, rfl, -, hr⟩ := step_waits rfl hstep
    refine h.mono id ?_ id
    exact Outstanding.imp id id id id (fun ho => absurd ho (by simp [hr]))

/-! ## §4. Whole runs -/

omit [DecidableEq U] in
theorem FlagCovers.initial : FlagCovers (initial : System U) := by
  intro _ ho
  simp [Outstanding, System.initial, Loop.rebuilding] at ho

/-- **The workspace is never reported fresh while work is outstanding**, in every state of a
    run, exactly where every store of `false` in it still finds what it read. -/
theorem fresh_only_when_settled (uriOf : FileId → U) (labels : List Label)
    (hrun : ∃ s, run uriOf labels initial = some s) :
    LabelledRuns.EveryState (step uriOf) FlagCovers labels initial ↔
      LabelledRuns.everyStep (step uriOf) readStillHolds labels initial = true := by
  refine LabelledRuns.everyState_iff_everyStep (fun s => s.Locked ∧ s.Backed) FlagCovers
    readStillHolds ?_ ?_ labels initial ⟨Locked.initial, Backed.initial⟩ FlagCovers.initial hrun
  · intro s label s' hI hstep
    exact ⟨locked_step s label s' hI.1 hstep, backed_step s label s' hI.2 hstep⟩
  · intro s label s' hI hP hstep
    exact flagCovers_step s label s' hI.1 hI.2 hP hstep

/-- A change begun, applied, scheduled and finished, and a rebuild requested before the
    change's `refresh_dirty_state` reads the request: the flag covers them throughout. -/
theorem fresh_only_when_settled_requested :
    LabelledRuns.EveryState (step fun _ => 7) FlagCovers
      (.begin ⟨[⟨1⟩], true⟩ :: List.replicate 8 (.task 0) ++
        [.requestRebuild, .requestNoted] ++ List.replicate 7 (.task 0)) (initial : System Nat) := by
  refine (fresh_only_when_settled (fun _ => 7) _ ⟨_, rfl⟩).2 ?_
  rfl

/-- **A rebuild requested between the load and the store.**  A change's
    `refresh_dirty_state` has read that none is requested; the request sets the flag and
    returns; the store clears it. -/
theorem rebuild_request_lost :
    ¬ ∀ (uriOf : FileId → Nat) (labels : List Label) (s : System Nat),
      run uriOf labels initial = some s → s.FlagCovers := by
  intro h
  have hbad := h (fun _ => 7)
    ([.begin ⟨[⟨1⟩], true⟩, .task 0, .task 0, .drop 0] ++ List.replicate 5 (.task 0) ++
      [.requestRebuild, .requestNoted, .task 0]) _ rfl
  have hflag := hbad rfl (.inr (.inr (.inr (.inr (.inl rfl)))))
  exact absurd hflag (by decide)

end System

end GluaLs.Debounce
