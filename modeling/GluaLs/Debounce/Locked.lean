/-
  GluaLs.Debounce.Locked — what holds between the accesses of a call.

  Two invariants of every step, whoever takes it:

    • `Locked` — a call of `refresh_dirty_state` past its first access holds both locks, and
      one that is about to clear the flag has seen both sets empty: they still are,
    • `Backed` — the local variables of the loop: wherever it is about to mark a re-analysis
      settling, one is settling already or some file is being re-indexed, and the text a
      slice found changed is taken only while it settles.
-/
import GluaLs.Debounce.System

namespace GluaLs.Debounce

open GluaLs.Lib Shared Loop Refresh

variable {U : Type}

/-! ## §1. What a step can do -/

namespace Refresh

/-- The call holds the locks. -/
def holds : Refresh → Bool
  | .start => false
  | _ => true

/-- The call has found nothing outstanding so far. -/
def clears : Refresh → Bool
  | .loadedSettling false | .loadedRebuild false | .loadedInFlight false => true
  | _ => false

theorem holds_of_clears (r : Refresh) (h : r.clears = true) : r.holds = true := by
  cases r <;> simp_all [clears, holds]

end Refresh

def Phase.refreshing : Phase → Option Refresh
  | .finishing r => some r
  | _ => none

def LoopPc.refreshing : LoopPc → Option Refresh
  | .refresh r _ => some r
  | _ => none

/-- The access that takes the locks. -/
theorem Shared.refresh_start {s s' : Shared U} {who : Who} {next : Option Refresh}
    (h : s.refresh who .start = some (s', next)) :
    s.locks = none ∧ s' = { s with locks := some who } ∧ next = some .locked := by
  unfold refresh at h
  cases hl : s.locks with
  | none =>
    rw [hl] at h
    cases h
    exact ⟨rfl, rfl, rfl⟩
  | some w => simp [hl] at h

/-- An access of `refresh_dirty_state` touches the flag and the locks only. -/
theorem Shared.refresh_frame {s s' : Shared U} {who : Who} {r : Refresh} {next : Option Refresh}
    (h : s.refresh who r = some (s', next)) :
    ∃ flag locks, s' = { s with hasPendingChanges := flag, locks := locks } := by
  cases r with
  | start => exact ⟨_, _, (refresh_start h).2.1⟩
  | locked | loadedSettling | loadedRebuild | loadedInFlight | stored | reloaded =>
    cases h
    exact ⟨_, _, rfl⟩

/-- Everything the next access of a change task can do. -/
inductive Task.Moves (uriOf : FileId → U) [DecidableEq U] (s s' : Shared U) (id : Nat)
    (task : Task) (phase' : Phase) : Prop where
  | counts (h : task.phase = .announced)
      (hs : s' = { s with inFlightChanges := s.inFlightChanges + 1 }) (hp : phase' = .counted)
  | begins (h : task.phase = .counted) (hs : s' = { s with hasPendingChanges := true })
      (hp : phase' = .begun)
  | applies (h : task.phase = .begun)
      (hs : s' = { s with
        staged := s.staged ∪ task.change.files.toFinset
        unsettled := s.unsettled ∪ task.change.files.toFinset }) (hp : phase' = .applied)
  | skips (h : task.phase = .applied) (hfiles : task.change.files = []) (hs : s' = s)
      (hp : phase' = .scheduled)
  | queues (h : task.phase = .applied) (hlocks : s.locks = none)
      (hs : s' = { s with pendingFiles := s.pendingFiles ∪ task.change.files.toFinset })
      (hp : phase' = .queued)
  | blocks (h : task.phase = .queued)
      (hs : s' = { s with
        blockedDocuments := task.change.files.foldl
          (fun blocked fileId => blocked.insert fileId (uriOf fileId)) s.blockedDocuments })
      (hp : phase' = .blocked)
  | schedules (h : task.phase = .blocked) (hs : s' = { s with hasPendingChanges := true })
      (hp : phase' = .scheduled)
  | withdraws (h : task.phase = .scheduled) (hs : s' = s.withdraw uriOf task.change)
      (hp : phase' = .withdrawn)
  | uncounts (h : task.phase = .withdrawn)
      (hs : s' = { s with inFlightChanges := s.inFlightChanges - 1 })
      (hp : phase' = .finishing .start)
  | refreshes (r : Refresh) (next : Option Refresh) (h : task.phase = .finishing r)
      (hs : s.refresh (.task id) r = some (s', next)) (hp : phase'.refreshing = next)
      (hlast : next = none → phase' = .finished)

theorem Task.next_moves (uriOf : FileId → U) [DecidableEq U] (s s' : Shared U) (id : Nat)
    (task : Task) (phase' : Phase) (h : task.next uriOf s id = some (s', phase')) :
    Task.Moves uriOf s s' id task phase' := by
  unfold Task.next at h
  cases hp : task.phase with
  | announced =>
    simp only [hp, Option.some.injEq, Prod.mk.injEq] at h
    exact .counts hp h.1.symm h.2.symm
  | counted =>
    simp only [hp, Option.some.injEq, Prod.mk.injEq] at h
    exact .begins hp h.1.symm h.2.symm
  | begun =>
    simp only [hp, Option.some.injEq, Prod.mk.injEq] at h
    exact .applies hp h.1.symm h.2.symm
  | applied =>
    simp only [hp] at h
    split_ifs at h with hfiles
    · simp only [Option.some.injEq, Prod.mk.injEq] at h
      exact .skips hp hfiles h.1.symm h.2.symm
    · cases hl : s.locks with
      | none =>
        simp only [hl, Option.some.injEq, Prod.mk.injEq] at h
        refine .queues hp hl ?_ h.2.symm
        rw [← h.1, hl]
      | some w => simp [hl] at h
  | queued =>
    simp only [hp, Option.some.injEq, Prod.mk.injEq] at h
    exact .blocks hp h.1.symm h.2.symm
  | blocked =>
    simp only [hp, Option.some.injEq, Prod.mk.injEq] at h
    exact .schedules hp h.1.symm h.2.symm
  | scheduled =>
    simp only [hp, Option.some.injEq, Prod.mk.injEq] at h
    exact .withdraws hp h.1.symm h.2.symm
  | withdrawn =>
    simp only [hp, Option.some.injEq, Prod.mk.injEq] at h
    exact .uncounts hp h.1.symm h.2.symm
  | finishing r =>
    simp only [hp, Option.map_eq_some_iff, Prod.mk.injEq] at h
    obtain ⟨⟨shared, next⟩, hacc, hs, hphase⟩ := h
    simp only at hs hphase
    subst hs hphase
    cases next with
    | none => exact .refreshes r none hp hacc rfl (fun _ => rfl)
    | some r' => exact .refreshes r (some r') hp hacc rfl (fun hn => absurd hn (by simp))
  | finished => simp [hp] at h

/-- The loop has not taken the locks of a call of `refresh_dirty_state`. -/
def Loop.Unlocked (loop : Loop) : Prop := ∀ r, loop.pc.refreshing = some r → r = .start

/-- Everything the next access of the loop can do to the shared state. -/
inductive Loop.Moves (s s' : Shared U) (loop loop' : Loop) : Prop where
  | idles (hs : s' = s) (hl : loop'.Unlocked)
      (hr : loop'.rebuilding = true → loop.rebuilding = true)
  | takesRequest (hreq : s.rebuildRequested = true)
      (hs : s' = { s with rebuildRequested := false }) (hl : loop'.Unlocked)
  | takesText (hs : s' = { s with staged := ∅ }) (hl : loop'.Unlocked)
      (hr : loop'.rebuilding = true → loop.rebuilding = true)
  | settles (hpc : loop.pc = .rebuilt ∨ (∃ ids next, loop.pc = .taken ids next) ∨
        ∃ next, loop.pc = .recovered next)
      (hs : s' = { s with settling := true }) (hl : loop'.Unlocked)
      (hr : loop'.rebuilding = false)
  | stopsSettling (hs : s' = { s with settling := false }) (hl : loop'.Unlocked)
      (hr : loop'.rebuilding = false)
  | drains (hpc : loop.pc = .debounce) (hlocks : s.locks = none)
      (hs : s' = { s with
        pendingFiles := ∅
        reindexingFiles := s.reindexingFiles ∪ s.pendingFiles }) (hl : loop'.Unlocked)
      (hr : loop'.rebuilding = false)
  | releases (ids : Finset FileId) (hpc : (∃ progress, loop.pc = .release ids progress) ∨
        loop.pc = .releaseSettled ids ∨ ((∃ next, loop.pc = .abandon next) ∧ ids = loop.edited))
      (hlocks : s.locks = none) (hs : s' = s.releaseDocuments ids) (hl : loop'.Unlocked)
      (hr : loop'.rebuilding = false)
  | refreshes (r : Refresh) (after : Next) (next : Option Refresh)
      (hpc : loop.pc = .refresh r after) (hs : s.refresh .loop r = some (s', next))
      (hp : ∀ q, loop'.pc.refreshing = some q → q.holds = true → next = some q)
      (hr : loop'.rebuilding = false)

theorem Loop.continueAt_unlocked (loop : Loop) (next : Next) : (loop.continueAt next).Unlocked := by
  intro r hr
  cases next <;> simp_all [continueAt, LoopPc.refreshing]

theorem Loop.continueAt_rebuilding (loop : Loop) (next : Next) :
    (loop.continueAt next).rebuilding = false := by
  cases next <;> rfl

theorem Shared.unlessLocked_eq {α : Type} (s : Shared U) (x y : α)
    (h : s.unlessLocked x = some y) : s.locks = none ∧ y = x := by
  unfold unlessLocked at h
  cases hl : s.locks with
  | none =>
    rw [hl] at h
    exact ⟨rfl, (Option.some.inj h).symm⟩
  | some w =>
    rw [hl] at h
    exact absurd h (by simp)

theorem Shared.callRelease_eq {s s' : Shared U} {ids : Finset FileId} {after loop' : Loop}
    (h : s.callRelease ids after = some (s', loop')) :
    loop' = after ∧ (s' = s ∨ (s.locks = none ∧ s' = s.releaseDocuments ids)) := by
  unfold callRelease at h
  split_ifs at h
  · simp only [Option.some.injEq, Prod.mk.injEq] at h
    exact ⟨h.2.symm, .inl h.1.symm⟩
  · obtain ⟨hlocks, heq⟩ := s.unlessLocked_eq _ _ h
    simp only [Prod.mk.injEq] at heq
    exact ⟨heq.2, .inr ⟨hlocks, heq.1⟩⟩

theorem Loop.callRelease_moves (s s' : Shared U) (loop loop' after : Loop) (ids : Finset FileId)
    (hpc : (∃ progress, loop.pc = .release ids progress) ∨ loop.pc = .releaseSettled ids ∨
      ((∃ next, loop.pc = .abandon next) ∧ ids = loop.edited))
    (hl : after.Unlocked) (hr : after.rebuilding = false)
    (h : s.callRelease ids after = some (s', loop')) : Moves s s' loop loop' := by
  obtain ⟨hloop, hs | ⟨hlocks, hs⟩⟩ := callRelease_eq h
  · subst hloop
    exact .idles hs hl (fun hr' => absurd hr' (by simp [hr]))
  · subst hloop
    exact .releases ids hpc hlocks hs hl hr

/-- What a panic leaves the loop to do. -/
theorem Loop.fails_cases {loop loop' : Loop} (h : loop.fails = some loop') :
    (loop.pc = .rebuilding ∧
      loop' = { loop with rebuild := .Owed, pc := .refresh .start .top }) ∨
    (∃ ids next, loop.pc = .takeIn ids next ∧
      loop' = { loop with edited := loop.edited ∪ ids, pc := .recover next }) ∨
    (∃ next, loop.pc = .recover next ∧
      loop' = { loop with rebuild := .Owed, pc := .giveUp next }) ∨
    (loop.pc = .slice ∧ loop' = { loop with pc := .recover .top }) := by
  unfold fails at h
  cases hp : loop.pc <;> simp only [hp] at h <;> (try split_ifs at h) <;> cases h
  · exact .inl ⟨rfl, rfl⟩
  · exact .inr (.inl ⟨_, _, rfl, rfl⟩)
  · exact .inr (.inr (.inl ⟨_, rfl, rfl⟩))
  · exact .inr (.inr (.inr ⟨rfl, rfl⟩))

/-- **Inversion of the loop's accesses.** -/
theorem Loop.next_moves (s s' : Shared U) (loop loop' : Loop)
    (h : loop.next s = some (s', loop')) : Moves s s' loop loop' := by
  have hplain : ∀ pc : LoopPc, pc.refreshing = none → ∀ q, pc.refreshing = some q → q = .start := by
    intro pc hpc q hq
    rw [hpc] at hq
    exact absurd hq (by simp)
  have hstart : ∀ next q, (LoopPc.refresh .start next).refreshing = some q → q = .start := by
    intro next q hq
    exact (Option.some.inj hq).symm
  unfold next at h
  cases hp : loop.pc with
  | top =>
    simp only [hp] at h
    split_ifs at h with hreq
    · cases h
      exact .takesRequest hreq rfl (hplain _ rfl)
    · cases h
      exact .idles rfl (hplain _ rfl) (by simp [rebuilding])
  | rebuilding =>
    simp only [hp] at h
    cases h
    exact .takesText rfl (hplain _ rfl) (fun _ => by simp [rebuilding, hp])
  | rebuilt =>
    simp only [hp] at h
    cases h
    exact .settles (.inl hp) rfl (hstart _) rfl
  | look =>
    simp only [hp] at h
    obtain ⟨-, heq⟩ := s.unlessLocked_eq _ _ h
    cases heq
    exact .idles rfl (hplain _ rfl) (by simp [rebuilding])
  | looked scheduled =>
    simp only [hp] at h
    split_ifs at h <;>
    · cases h
      exact .idles rfl (hplain _ rfl) (by simp [rebuilding])
  | parked => simp [hp] at h
  | debounce =>
    simp only [hp] at h
    obtain ⟨hlocks, heq⟩ := s.unlessLocked_eq _ _ h
    cases heq
    refine .drains hp hlocks rfl ?_ ?_
    · split_ifs
      · exact loop.continueAt_unlocked .drained
      · exact hplain _ rfl
    · split_ifs
      · exact loop.continueAt_rebuilding .drained
      · rfl
  | takeIn ids next | recover next =>
    simp only [hp] at h
    split_ifs at h
    · cases h
      exact .idles rfl (hplain _ rfl) (by simp [rebuilding])
    · cases h
      exact .takesText rfl (hplain _ rfl) (by simp [rebuilding])
  | taken ids next =>
    simp only [hp] at h
    cases h
    exact .settles (.inr (.inl ⟨ids, next, hp⟩)) rfl (continueAt_unlocked _ _)
      (continueAt_rebuilding _ _)
  | recovered next =>
    simp only [hp] at h
    cases h
    exact .settles (.inr (.inr ⟨next, hp⟩)) rfl (hstart _) rfl
  | giveUp next | settle =>
    simp only [hp] at h
    cases h
    exact .stopsSettling rfl (hplain _ rfl) rfl
  | abandon next =>
    simp only [hp] at h
    refine loop.callRelease_moves s s' loop' _ _ (.inr (.inr ⟨⟨next, hp⟩, rfl⟩)) ?_ ?_ h
    · exact hstart _
    · rfl
  | refresh r next =>
    simp only [hp, Option.map_eq_some_iff, Prod.mk.injEq] at h
    obtain ⟨⟨shared, after⟩, hacc, hs, hloop⟩ := h
    simp only at hs hloop
    subst hs hloop
    refine .refreshes r next after hp hacc ?_ ?_
    · intro q hq hold
      cases after with
      | none =>
        rw [loop.continueAt_unlocked next q hq] at hold
        exact absurd hold (by simp [holds])
      | some r' => exact hq
    · cases after with
      | none => exact loop.continueAt_rebuilding next
      | some r' => rfl
  | canStart =>
    simp only [hp] at h
    cases h
    refine .idles rfl ?_ ?_
    · split_ifs <;> exact hplain _ rfl
    · split_ifs <;> exact fun hr => absurd hr (by simp [rebuilding])
  | slice => simp [hp] at h
  | release ids progress =>
    simp only [hp] at h
    refine loop.callRelease_moves s s' loop' _ ids (.inl ⟨progress, hp⟩) ?_ ?_ h
    · cases progress <;> exact hplain _ rfl
    · cases progress <;> rfl
  | releaseSettled ids =>
    simp only [hp] at h
    refine loop.callRelease_moves s s' loop' _ ids (.inr (.inl hp)) ?_ ?_ h
    · exact hstart _
    · rfl
  | stopped => simp [hp] at h

/-- Steps of the loop that are no access of its own: it waits, or what it does panics. -/
def Label.waits : Label → Bool
  | .fails | .notified | .timer | .slice _ _ | .shutdown => true
  | _ => false

namespace System

/-- They touch the loop and the unsettled text only. -/
theorem step_waits [DecidableEq U] {uriOf : FileId → U} {s s' : System U} {label : Label}
    (hlabel : label.waits = true) (h : s.step uriOf label = some s') :
    ∃ unsettled loop, s' = { s with
        shared := { s.shared with unsettled := unsettled }
        loop := loop } ∧ loop.Unlocked ∧ loop.rebuilding = false := by
  have hplain : ∀ loop : Loop, loop.pc.refreshing = none → loop.Unlocked := by
    intro loop hpc q hq
    rw [hpc] at hq
    exact absurd hq (by simp)
  cases label with
  | begin | task | drop | requestRebuild | requestNoted | loop => cases hlabel
  | fails =>
    obtain ⟨loop, hfails, rfl⟩ := Option.map_eq_some_iff.1 h
    refine ⟨s.shared.unsettled, loop, rfl, ?_⟩
    obtain ⟨-, rfl⟩ | ⟨ids, next, -, rfl⟩ | ⟨next, -, rfl⟩ | ⟨-, rfl⟩ := fails_cases hfails
    · exact ⟨fun r hr => (Option.some.inj hr).symm, rfl⟩
    all_goals exact ⟨hplain _ rfl, rfl⟩
  | notified | shutdown =>
    simp only [step] at h
    split_ifs at h
    cases h
    exact ⟨s.shared.unsettled, _, rfl, hplain _ rfl, rfl⟩
  | timer =>
    simp only [step] at h
    split_ifs at h <;> cases h
    · exact ⟨s.shared.unsettled, _, rfl, continueAt_unlocked _ _, continueAt_rebuilding _ _⟩
    · exact ⟨s.shared.unsettled, _, rfl, hplain _ rfl, rfl⟩
  | slice progress settledFirst =>
    simp only [step] at h
    split_ifs at h <;>
    · cases h
      exact ⟨_, _, rfl, hplain _ rfl, rfl⟩

/-! ## §2. The two locks -/

/-- Where `who` stands in a call of `refresh_dirty_state`. -/
def refreshing (s : System U) : Who → Option Refresh
  | .task id => s.tasks[id]?.bind fun task => task.phase.refreshing
  | .loop => s.loop.pc.refreshing

structure Locked (s : System U) : Prop where
  holder : ∀ who r, s.refreshing who = some r → r.holds = true → s.shared.locks = some who
  empty : ∀ who r, s.refreshing who = some r → r.clears = true →
    s.shared.pendingFiles = ∅ ∧ s.shared.reindexingFiles = ∅

theorem Locked.initial : Locked (initial : System U) := by
  refine ⟨?_, ?_⟩
  · intro who r h
    cases who <;> simp [refreshing, System.initial, LoopPc.refreshing] at h
  · intro who r h
    cases who <;> simp [refreshing, System.initial, LoopPc.refreshing] at h

/-- A step that is no access of `refresh_dirty_state`: it leaves the sets as they are, or is
    a section of their locks. -/
theorem Locked.other {s s' : System U} (h : s.Locked)
    (hsame : ∀ who r, s'.refreshing who = some r → r.holds = true → s.refreshing who = some r)
    (hlocks : s'.shared.locks = s.shared.locks)
    (hsets : (s'.shared.pendingFiles = s.shared.pendingFiles ∧
      s'.shared.reindexingFiles = s.shared.reindexingFiles) ∨ s.shared.locks = none) :
    s'.Locked := by
  refine ⟨?_, ?_⟩
  · intro who r hr hold
    rw [hlocks]
    exact h.holder who r (hsame who r hr hold) hold
  · intro who r hr hclear
    have hold := holds_of_clears r hclear
    have hr' := hsame who r hr hold
    obtain ⟨hp, hre⟩ | hnone := hsets
    · rw [hp, hre]
      exact h.empty who r hr' hclear
    · have hheld := h.holder who r hr' hold
      rw [hnone] at hheld
      exact absurd hheld (by simp)

/-- An access of `refresh_dirty_state`. -/
theorem Locked.access {s s' : System U} (h : s.Locked) (who : Who) (r : Refresh)
    (next : Option Refresh) (hr : s.refreshing who = some r)
    (hstep : s.shared.refresh who r = some (s'.shared, next))
    (hself : ∀ q, s'.refreshing who = some q → q.holds = true → next = some q)
    (hothers : ∀ w q, w ≠ who → s'.refreshing w = some q → q.holds = true →
      s.refreshing w = some q) : s'.Locked := by
  -- no other call holds the locks, before or after
  have halone : ∀ w q, w ≠ who → s'.refreshing w = some q → q.holds = true → False := by
    intro w q hw hq hold
    have hheld := h.holder w q (hothers w q hw hq hold) hold
    cases r with
    | start =>
      rw [(refresh_start hstep).1] at hheld
      exact absurd hheld (by simp)
    | locked | loadedSettling | loadedRebuild | loadedInFlight | stored | reloaded =>
      have hmine := h.holder who _ hr rfl
      rw [hheld] at hmine
      exact hw (Option.some.inj hmine)
  have hset : s'.shared.pendingFiles = s.shared.pendingFiles ∧
      s'.shared.reindexingFiles = s.shared.reindexingFiles := by
    obtain ⟨flag, locks, hframe⟩ := refresh_frame hstep
    rw [hframe]
    exact ⟨rfl, rfl⟩
  have hlock : ∀ q, next = some q → s'.shared.locks = some who := by
    intro q hq
    cases r with
    | start => rw [(refresh_start hstep).2.1]
    | locked | loadedSettling | loadedRebuild | loadedInFlight | stored =>
      have hmine := h.holder who _ hr rfl
      simp only [refresh, Option.some.injEq, Prod.mk.injEq] at hstep
      rw [← hstep.1]
      exact hmine
    | reloaded =>
      simp only [refresh, Option.some.injEq, Prod.mk.injEq] at hstep
      rw [← hstep.2] at hq
      exact absurd hq (by simp)
  have hempty : ∀ q, next = some q → q.clears = true →
      s.shared.pendingFiles = ∅ ∧ s.shared.reindexingFiles = ∅ := by
    intro q hq hclear
    cases r with
    | start =>
      rw [(refresh_start hstep).2.2] at hq
      cases hq
      exact absurd hclear (by simp [clears])
    | locked =>
      simp only [refresh, Option.some.injEq, Prod.mk.injEq] at hstep
      rw [← hstep.2] at hq
      cases hq
      cases hw : (decide (s.shared.pendingFiles ≠ ∅) || decide (s.shared.reindexingFiles ≠ ∅) ||
          s.shared.settling) with
      | true =>
        rw [hw] at hclear
        exact absurd hclear (by simp [clears])
      | false =>
        simp only [Bool.or_eq_false_iff, decide_eq_false_iff_not, not_not] at hw
        exact ⟨hw.1.1, hw.1.2⟩
    | loadedSettling work | loadedRebuild work =>
      simp only [refresh, Option.some.injEq, Prod.mk.injEq] at hstep
      rw [← hstep.2] at hq
      cases hq
      cases work with
      | true => exact absurd hclear (by simp [clears])
      | false => exact h.empty who _ hr rfl
    | loadedInFlight | stored | reloaded =>
      simp only [refresh, Option.some.injEq, Prod.mk.injEq] at hstep
      rw [← hstep.2] at hq
      cases hq <;> exact absurd hclear (by simp [clears])
  refine ⟨?_, ?_⟩
  · intro w q hq hold
    by_cases hw : w = who
    · subst hw
      exact hlock q (hself q hq hold)
    · exact (halone w q hw hq hold).elim
  · intro w q hq hclear
    have hold := holds_of_clears q hclear
    by_cases hw : w = who
    · subst hw
      rw [hset.1, hset.2]
      exact hempty q (hself q hq hold) hclear
    · exact (halone w q hw hq hold).elim

/-- A task's step is the task's alone. -/
theorem refreshing_set (s : System U) (shared : Shared U) (id : Nat) (task : Task) (phase : Phase)
    (h : s.tasks[id]? = some task) (who : Who) :
    ({ s with shared := shared, tasks := s.tasks.set id { task with phase := phase } } :
        System U).refreshing who
      = if who = .task id then phase.refreshing else s.refreshing who := by
  cases who with
  | loop => rfl
  | task id' =>
    show ((s.tasks.set id _)[id']?).bind _ = _
    by_cases hid : id' = id
    · subst hid
      obtain ⟨hlt, -⟩ := List.getElem?_eq_some_iff.1 h
      rw [if_pos rfl, List.getElem?_set_self hlt]
      rfl
    · rw [if_neg (fun heq => hid (Who.task.inj heq)), List.getElem?_set_ne (Ne.symm hid)]
      rfl

variable [DecidableEq U] {uriOf : FileId → U}

theorem locked_task {s s' : System U} (h : s.Locked) (id : Nat)
    (hstep : s.step uriOf (.task id) = some s') : s'.Locked := by
  obtain ⟨task, shared, phase, ht, hnext, rfl⟩ := step_task hstep
  have href := s.refreshing_set shared id task phase ht
  -- a phase that is no call of `refresh_dirty_state` holds no lock
  have hother : (∀ r, phase.refreshing = some r → r = .start) →
      shared.locks = s.shared.locks →
      ((shared.pendingFiles = s.shared.pendingFiles ∧
        shared.reindexingFiles = s.shared.reindexingFiles) ∨ s.shared.locks = none) →
      Locked { s with
        shared := shared, tasks := s.tasks.set id { task with phase := phase } } := by
    intro hphase hlocks hsets
    refine h.other ?_ hlocks hsets
    intro who r hr hold
    rw [href] at hr
    split_ifs at hr with hwho
    · rw [hphase r hr] at hold
      exact absurd hold (by simp [holds])
    · exact hr
  cases Task.next_moves uriOf s.shared shared id task phase hnext with
  | counts _ hs hp | begins _ hs hp | applies _ hs hp | skips _ _ hs hp | blocks _ hs hp
  | schedules _ hs hp =>
    subst hs hp
    exact hother (fun r hr => absurd hr (by simp [Phase.refreshing])) rfl (.inl ⟨rfl, rfl⟩)
  | queues _ hlocks hs hp =>
    subst hs hp
    exact hother (fun r hr => absurd hr (by simp [Phase.refreshing])) rfl (.inr hlocks)
  | withdraws _ hs hp =>
    subst hs hp
    refine hother (fun r hr => absurd hr (by simp [Phase.refreshing])) ?_ (.inl ⟨?_, ?_⟩) <;>
      unfold withdraw <;> split_ifs <;> rfl
  | uncounts _ hs hp =>
    subst hs hp
    exact hother (fun r hr => (Option.some.inj hr).symm) rfl (.inl ⟨rfl, rfl⟩)
  | refreshes r next hphase hs hp _ =>
    refine h.access (.task id) r next ?_ hs ?_ ?_
    · show (s.tasks[id]?).bind _ = _
      rw [ht]
      show task.phase.refreshing = some r
      rw [hphase]
      rfl
    · intro q hq _
      rw [href, if_pos rfl, hp] at hq
      exact hq
    · intro w q hw hq _
      rw [href, if_neg hw] at hq
      exact hq

omit [DecidableEq U] in
/-- A step of the loop that takes no lock. -/
theorem Locked.loop_other {s : System U} (h : s.Locked) {shared : Shared U} {loop : Loop}
    (hunlocked : loop.Unlocked) (hlocks : shared.locks = s.shared.locks)
    (hsets : (shared.pendingFiles = s.shared.pendingFiles ∧
      shared.reindexingFiles = s.shared.reindexingFiles) ∨ s.shared.locks = none) :
    Locked { s with shared := shared, loop := loop } := by
  refine h.other ?_ hlocks hsets
  intro who r hr hold
  cases who with
  | task id => exact hr
  | loop =>
    rw [hunlocked r hr] at hold
    exact absurd hold (by simp [holds])

theorem locked_loop {s s' : System U} (h : s.Locked) (hstep : s.step uriOf .loop = some s') :
    s'.Locked := by
  obtain ⟨shared, loop, hnext, rfl⟩ := step_loop hstep
  cases next_moves s.shared shared s.loop loop hnext with
  | idles hs hl _ | takesRequest _ hs hl | takesText hs hl _ | settles _ hs hl _
  | stopsSettling hs hl _ =>
    subst hs
    exact h.loop_other hl rfl (.inl ⟨rfl, rfl⟩)
  | drains _ hlocks hs hl _ | releases ids _ hlocks hs hl _ =>
    subst hs
    exact h.loop_other hl rfl (.inr hlocks)
  | refreshes r after next hpc hs hp _ =>
    refine h.access .loop r next ?_ hs hp ?_
    · show s.loop.pc.refreshing = some r
      rw [hpc]
      rfl
    · intro w q hw hq _
      cases w with
      | task id => exact hq
      | loop => exact absurd rfl hw

/-- **Every step keeps the locks.** -/
theorem locked_step (s : System U) (label : Label) (s' : System U) (h : s.Locked)
    (hstep : s.step uriOf label = some s') : s'.Locked := by
  cases label with
  | begin change =>
    cases hstep
    refine h.other ?_ ?_ (.inl ⟨?_, ?_⟩)
    · intro who r hr hold
      cases who with
      | loop => exact hr
      | task id =>
        have hr' : ((s.tasks ++ [⟨change, .announced⟩])[id]?).bind
            (fun task => task.phase.refreshing) = some r := hr
        show (s.tasks[id]?).bind (fun task => task.phase.refreshing) = some r
        rw [List.getElem?_append] at hr'
        split_ifs at hr' with hlt
        · exact hr'
        · obtain ⟨task, htask, hphase⟩ := Option.bind_eq_some_iff.1 hr'
          have hmem := List.mem_of_getElem? htask
          rw [List.mem_singleton] at hmem
          rw [hmem] at hphase
          exact absurd hphase (by simp [Phase.refreshing])
    all_goals
      unfold announce
      split_ifs <;> rfl
  | task id => exact locked_task h id hstep
  | drop id =>
    obtain ⟨task, ht, hphase, rfl⟩ := step_drop hstep
    refine h.other ?_ ?_ (.inl ⟨?_, ?_⟩)
    · intro who r hr _
      rw [s.refreshing_set _ id task .withdrawn ht] at hr
      split_ifs at hr with hwho
      · exact absurd hr (by simp [Phase.refreshing])
      · exact hr
    all_goals
      unfold withdraw
      split_ifs <;> rfl
  | requestRebuild =>
    cases hstep
    exact h.other (fun _ _ hr _ => hr) rfl (.inl ⟨rfl, rfl⟩)
  | requestNoted =>
    simp only [step] at hstep
    split_ifs at hstep
    cases hstep
    exact h.other (fun _ _ hr _ => hr) rfl (.inl ⟨rfl, rfl⟩)
  | loop => exact locked_loop h hstep
  | fails | notified | timer | slice | shutdown =>
    obtain ⟨unsettled, loop, rfl, hunlocked, -⟩ := step_waits rfl hstep
    exact h.loop_other hunlocked rfl (.inl ⟨rfl, rfl⟩)

end System

end GluaLs.Debounce
