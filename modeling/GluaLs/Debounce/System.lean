/-
  GluaLs.Debounce.System — the debounced analysis as a step relation.

  Any number of change tasks, rebuild requests and reading requests share four collections
  and a handful of atomics with the one background loop.  Every lock-protected section and
  every atomic access is a step of its own; a `Label` says whose step it is and what came
  of it where the outcome is not up to this code (a timer, a slice of the re-analysis, a
  step of it that panicked).

    • a change task: `begin_documents_change` (or `begin_in_flight_change`), apply the text,
      `schedule` (or `schedule_all_at_once`), `finish`,
    • `request_rebuild`,
    • the loop `run`: it drains `pending_files` into `reindexing_files`, takes them in,
      advances slices, releases documents, settles, recovers.

  `refresh_dirty_state` holds the locks of `pending_files` and `reindexing_files` while it
  reads three atomics and stores the flag, so its accesses are steps between which every
  section of the two locks is shut out and every other access is not.  It takes the one lock
  and then the other, and touches nothing between: taking the second is the step here.

  The text itself is two ghost sets: the files with STAGED text no take has taken, and the
  files with UNSETTLED text, applied by a change and not reported settled since.
-/
import GluaLs.Lib.FiniteMap
import GluaLs.Lib.LabelledRuns
import GluaLs.Vfs.FileId
import Mathlib.Data.Finset.Basic

namespace GluaLs.Debounce

open GluaLs.Lib

/-! ## §1. Shared state -/

/-- Who holds the two locks. -/
inductive Who where
  | task (id : Nat)
  | loop
  deriving DecidableEq

/-- The fields of `DebouncedAnalysis` that more than one task touches. -/
structure Shared (U : Type) where
  pendingFiles : Finset FileId
  reindexingFiles : Finset FileId
  blockedDocuments : HashMap FileId U
  hasPendingChanges : Bool
  settling : Bool
  inFlightChanges : Nat
  inFlightDocuments : HashMap U Nat
  inFlightUnscoped : Nat
  rebuildRequested : Bool
  /-- `refresh_dirty_state` holds the locks of `pending_files` and `reindexing_files`. -/
  locks : Option Who
  staged : Finset FileId
  unsettled : Finset FileId

/-- Where a call of `refresh_dirty_state` stands. -/
inductive Refresh where
  | start
  | locked
  | loadedSettling (work : Bool)
  | loadedRebuild (work : Bool)
  | loadedInFlight (dirty : Bool)
  | stored
  | reloaded (inFlight : Bool)
  deriving DecidableEq

variable {U : Type} [DecidableEq U]

namespace Shared

/-- `*documents.entry(uri.clone()).or_default() += 1` -/
def countDocument (documents : HashMap U Nat) (uri : U) : HashMap U Nat :=
  documents.insert uri ((documents.lookup uri).getD 0 + 1)

/-- The loop body of `finish_in_flight_changes`. -/
def uncountDocument (documents : HashMap U Nat) (uri : U) : HashMap U Nat :=
  match documents.lookup uri with
  | some pending =>
    if pending - 1 = 0 then documents.erase uri else documents.insert uri (pending - 1)
  | none => documents

omit [DecidableEq U] in
/-- `release_documents`: the documents are removed from both collections, by identity. -/
def releaseDocuments (s : Shared U) (fileIds : Finset FileId) : Shared U :=
  { s with
    reindexingFiles := s.reindexingFiles \ fileIds
    blockedDocuments := s.blockedDocuments.filterMapEntries
      fun id uri => if id ∈ fileIds then none else some uri }

/-- The next access of `refresh_dirty_state`; `none` in its place once it returned. -/
def refresh (s : Shared U) (who : Who) : Refresh → Option (Shared U × Option Refresh)
  | .start =>
    match s.locks with
    | none => some ({ s with locks := some who }, some .locked)
    | some _ => none
  | .locked =>
    -- the loads after the first that answers are skipped
    some (s, some (.loadedSettling
      (decide (s.pendingFiles ≠ ∅) || decide (s.reindexingFiles ≠ ∅) || s.settling)))
  | .loadedSettling work => some (s, some (.loadedRebuild (work || s.rebuildRequested)))
  | .loadedRebuild work =>
    some (s, some (.loadedInFlight (work || decide (s.inFlightChanges > 0))))
  | .loadedInFlight dirty => some ({ s with hasPendingChanges := dirty }, some .stored)
  | .stored => some (s, some (.reloaded (decide (s.inFlightChanges > 0))))
  | .reloaded inFlight =>
    some ({ s with
      hasPendingChanges := s.hasPendingChanges || inFlight
      locks := none }, none)

def hasInFlightChangeFor (s : Shared U) (uri : U) : Bool :=
  decide (s.inFlightUnscoped > 0) || (s.inFlightDocuments.lookup uri).isSome

/-- `file_is_answerable`; `path` is `uri_to_file_path`. -/
def fileIsAnswerable {P : Type} [DecidableEq P] (path : U → Option P) (s : Shared U) (uri : U) :
    Bool :=
  if s.hasInFlightChangeFor uri then false
  else if !s.hasPendingChanges then true
  else !s.blockedDocuments.entries.any fun blocked =>
    decide (blocked.2 = uri) || ((path uri).isSome && decide (path blocked.2 = path uri))

end Shared

/-! ## §2. Change tasks -/

/-- Where a change task stands. -/
inductive Phase where
  /-- `begin_documents_change` or `begin_in_flight_change` has counted its documents. -/
  | announced
  /-- `begin_change` has counted the change. -/
  | counted
  /-- `begin_change` returned the guard. -/
  | begun
  | applied
  /-- `schedule` has added the files to `pending_files`. -/
  | queued
  /-- `schedule` has blocked the documents. -/
  | blocked
  | scheduled
  /-- `finish_in_flight_changes` has uncounted the documents. -/
  | withdrawn
  /-- `finish_in_flight_changes` has uncounted the change. -/
  | finishing (refresh : Refresh)
  | finished
  deriving DecidableEq

/-- A change: its files, and whether it is confined to them. -/
structure Change where
  files : List FileId
  confined : Bool
  deriving DecidableEq

structure Task where
  change : Change
  phase : Phase
  deriving DecidableEq

namespace Task

/-- The task is between its begin and its finish. -/
def underWay (task : Task) : Bool :=
  match task.phase with
  | .withdrawn | .finishing _ | .finished => false
  | _ => true

/-- A call of `begin_change`, `schedule` or `schedule_all_at_once` is half-way. -/
def halfWay (task : Task) : Bool :=
  match task.phase with
  | .counted | .queued | .blocked => true
  | _ => false

/-- The files of the task are still to be queued. -/
def queuesLater (task : Task) : Bool :=
  match task.phase with
  | .announced | .counted | .begun | .applied => true
  | _ => false

/-- The documents of the task are still to be blocked. -/
def blocksLater (task : Task) : Bool :=
  match task.phase with
  | .announced | .counted | .begun | .applied | .queued => true
  | _ => false

end Task

section

-- `uriOf` spells a file's document, the same way for the client and every task.
variable (uriOf : FileId → U)

/-- The first section of a change: its documents are counted. -/
def Shared.announce (s : Shared U) (change : Change) : Shared U :=
  if change.confined then
    { s with inFlightDocuments :=
        (change.files.map uriOf).foldl Shared.countDocument s.inFlightDocuments }
  else { s with inFlightUnscoped := s.inFlightUnscoped + 1 }

/-- The first section of `finish_in_flight_changes`. -/
def Shared.withdraw (s : Shared U) (change : Change) : Shared U :=
  if change.confined then
    { s with inFlightDocuments :=
        (change.files.map uriOf).foldl Shared.uncountDocument s.inFlightDocuments }
  else { s with inFlightUnscoped := s.inFlightUnscoped - 1 }

/-- The next access of a change task. -/
def Task.next (s : Shared U) (id : Nat) (task : Task) : Option (Shared U × Phase) :=
  match task.phase with
  | .announced => some ({ s with inFlightChanges := s.inFlightChanges + 1 }, .counted)
  | .counted => some ({ s with hasPendingChanges := true }, .begun)
  | .begun =>
    some ({ s with
      staged := s.staged ∪ task.change.files.toFinset
      unsettled := s.unsettled ∪ task.change.files.toFinset }, .applied)
  | .applied =>
    -- `schedule_all_at_once` returns at once for no files
    if task.change.files = [] then some (s, .scheduled)
    else
      match s.locks with
      | none =>
        some ({ s with pendingFiles := s.pendingFiles ∪ task.change.files.toFinset }, .queued)
      | some _ => none
  | .queued =>
    some ({ s with
      blockedDocuments := task.change.files.foldl
        (fun blocked fileId => blocked.insert fileId (uriOf fileId)) s.blockedDocuments },
      .blocked)
  | .blocked => some ({ s with hasPendingChanges := true }, .scheduled)
  | .scheduled => some (s.withdraw uriOf task.change, .withdrawn)
  | .withdrawn => some ({ s with inFlightChanges := s.inFlightChanges - 1 }, .finishing .start)
  | .finishing r =>
    (s.refresh (.task id) r).map fun (s, r) =>
      (s, match r with
        | some r => .finishing r
        | none => .finished)
  | .finished => none

end

/-! ## §3. The loop -/

inductive Rebuild where
  | None
  | Running
  | Owed
  deriving DecidableEq

/-- `UpdateProgress`, without the files whose diagnostics it left stale. -/
inductive UpdateProgress where
  | Settling
  | Settled
  | TextChanged
  deriving DecidableEq

/-- Where the loop goes on once a take, a recovery or a refresh returned. -/
inductive Next where
  /-- The top of the loop. -/
  | top
  /-- After the take of drained files. -/
  | drained
  /-- After `take_unscheduled_text`. -/
  | unscheduled
  deriving DecidableEq

/-- Where the loop stands. -/
inductive LoopPc where
  | top
  /-- The request was taken; `begin_rebuild` is under way. -/
  | rebuilding
  /-- The rebuild began; `settling` is not stored yet. -/
  | rebuilt
  | look
  | looked (scheduled : Bool)
  | parked
  | debounce
  | takeIn (fileIds : Finset FileId) (next : Next)
  /-- `begin_reindex` returned; `settling` is not stored yet. -/
  | taken (fileIds : Finset FileId) (next : Next)
  | recover (next : Next)
  | recovered (next : Next)
  | giveUp (next : Next)
  | abandon (next : Next)
  | refresh (at_ : Refresh) (next : Next)
  | canStart
  | slice
  | release (fileIds : Finset FileId) (progress : UpdateProgress)
  | settle
  | releaseSettled (fileIds : Finset FileId)
  | stopped
  deriving DecidableEq

/-- The local variables of `run`. -/
structure Loop where
  pc : LoopPc
  edited : Finset FileId
  textChanged : Bool
  rebuild : Rebuild

namespace Loop

/-- The request for a rebuild was taken and the rebuild is neither settling nor failed. -/
def rebuilding (loop : Loop) : Bool :=
  match loop.pc with
  | .rebuilding | .rebuilt => true
  | _ => false

/-- The loop goes on. -/
def continueAt (loop : Loop) : Next → Loop
  | .top => { loop with pc := .top }
  | .drained => { loop with textChanged := false, pc := .refresh .start .top }
  | .unscheduled => { loop with textChanged := false, pc := .top }

end Loop

omit [DecidableEq U] in
/-- A section of one of the two locks: shut out while `refresh_dirty_state` holds them. -/
def Shared.unlessLocked {α : Type} (s : Shared U) (section_ : α) : Option α :=
  match s.locks with
  | none => some section_
  | some _ => none

omit [DecidableEq U] in
/-- A call of `release_documents`, which takes no lock for no documents. -/
def Shared.callRelease (s : Shared U) (fileIds : Finset FileId) (loop : Loop) :
    Option (Shared U × Loop) :=
  if fileIds = ∅ then some (s, loop)
  else s.unlessLocked (s.releaseDocuments fileIds, loop)

omit [DecidableEq U] in
/-- The next access of the loop, where it does not wait. -/
def Loop.next (s : Shared U) (loop : Loop) : Option (Shared U × Loop) :=
  match loop.pc with
  | .top =>
    if s.rebuildRequested then
      some ({ s with rebuildRequested := false }, { loop with pc := .rebuilding })
    else some (s, { loop with pc := .look })
  | .rebuilding => some ({ s with staged := ∅ }, { loop with pc := .rebuilt })
  | .rebuilt =>
    some ({ s with settling := true },
      { loop with rebuild := .Running, pc := .refresh .start .top })
  | .look =>
    s.unlessLocked (s, { loop with pc := .looked (decide (s.pendingFiles ≠ ∅)) })
  | .looked scheduled =>
    if !scheduled && (!s.settling || loop.textChanged) then some (s, { loop with pc := .parked })
    else if scheduled || !s.settling then some (s, { loop with pc := .debounce })
    else some (s, { loop with pc := .canStart })
  | .parked => none
  | .debounce =>
    s.unlessLocked ({ s with
        pendingFiles := ∅
        reindexingFiles := s.reindexingFiles ∪ s.pendingFiles },
      if s.pendingFiles = ∅ then loop.continueAt .drained
      else { loop with pc := .takeIn s.pendingFiles .drained })
  | .takeIn fileIds next =>
    if loop.rebuild = .Owed then
      some (s, { loop with edited := loop.edited ∪ fileIds, pc := .recover next })
    else some ({ s with staged := ∅ }, { loop with pc := .taken fileIds next })
  | .taken fileIds next =>
    some ({ s with settling := true },
      { loop with edited := loop.edited ∪ fileIds }.continueAt next)
  | .recover next =>
    if loop.rebuild = .Running then
      some (s, { loop with rebuild := .Owed, pc := .giveUp next })
    else some ({ s with staged := ∅ }, { loop with pc := .recovered next })
  | .recovered next =>
    some ({ s with settling := true },
      { loop with rebuild := .Running, pc := .refresh .start next })
  | .giveUp next => some ({ s with settling := false }, { loop with pc := .abandon next })
  | .abandon next =>
    s.callRelease loop.edited { loop with edited := ∅, pc := .refresh .start next }
  | .refresh r next =>
    (s.refresh .loop r).map fun (s, r) =>
      (s, match r with
        | some r => { loop with pc := .refresh r next }
        | none => loop.continueAt next)
  | .canStart =>
    some (s, { loop with pc := if s.inFlightChanges = 0 then .slice else .top })
  | .slice => none
  | .release fileIds progress =>
    s.callRelease fileIds (match progress with
      | .Settling => { loop with pc := .top }
      | .TextChanged => { loop with textChanged := true, pc := .top }
      | .Settled => { loop with pc := .settle })
  | .settle =>
    some ({ s with settling := false },
      { loop with edited := ∅, pc := .releaseSettled loop.edited })
  | .releaseSettled fileIds =>
    s.callRelease fileIds { loop with rebuild := .None, pc := .refresh .start .top }
  | .stopped => none

/-- A step of the re-analysis panicked. -/
def Loop.fails (loop : Loop) : Option Loop :=
  match loop.pc with
  | .rebuilding => some { loop with rebuild := .Owed, pc := .refresh .start .top }
  | .takeIn fileIds next =>
    if loop.rebuild = .Owed then none
    else some { loop with edited := loop.edited ∪ fileIds, pc := .recover next }
  | .recover next =>
    if loop.rebuild = .Running then none
    else some { loop with rebuild := .Owed, pc := .giveUp next }
  | .slice => some { loop with pc := .recover .top }
  | _ => none

/-- The places where the loop also waits for the shutdown. -/
def Loop.stops (loop : Loop) : Bool :=
  match loop.pc with
  | .rebuilding | .parked | .debounce | .takeIn _ _ | .canStart | .slice => true
  | _ => false

/-! ## §4. Steps -/

structure System (U : Type) where
  shared : Shared U
  tasks : List Task
  /-- Calls of `request_rebuild` that are half-way. -/
  requests : Nat
  loop : Loop

inductive Label where
  /-- A task begins a change. -/
  | begin (change : Change)
  /-- The next access of a task. -/
  | task (id : Nat)
  /-- A task drops its guard without applying any text. -/
  | drop (id : Nat)
  | requestRebuild
  | requestNoted
  /-- The next access of the loop. -/
  | loop
  /-- What the loop does panics. -/
  | fails
  /-- A parked loop is notified. -/
  | notified
  /-- The timer of a parked loop. -/
  | timer
  /-- A slice returns where the re-analysis stands and which edited files settled first. -/
  | slice (progress : UpdateProgress) (settledFirst : Finset FileId)
  | shutdown

namespace System

/-- `DebouncedAnalysis::new` -/
def initial : System U where
  shared := ⟨∅, ∅, ∅, false, false, 0, ∅, 0, false, none, ∅, ∅⟩
  tasks := []
  requests := 0
  loop := ⟨.top, ∅, false, .None⟩

def step (uriOf : FileId → U) (s : System U) : Label → Option (System U)
  | .begin change =>
    some { s with
      shared := s.shared.announce uriOf change
      tasks := s.tasks ++ [⟨change, .announced⟩] }
  | .task id =>
    match s.tasks[id]? with
    | some task =>
      (task.next uriOf s.shared id).map fun (shared, phase) =>
        { s with shared := shared, tasks := s.tasks.set id { task with phase := phase } }
    | none => none
  | .drop id =>
    match s.tasks[id]? with
    | some task =>
      if task.phase = .begun then
        some { s with
          shared := s.shared.withdraw uriOf task.change
          tasks := s.tasks.set id { task with phase := .withdrawn } }
      else none
    | none => none
  | .requestRebuild =>
    some { s with
      shared := { s.shared with rebuildRequested := true }
      requests := s.requests + 1 }
  | .requestNoted =>
    if s.requests = 0 then none
    else some { s with
      shared := { s.shared with hasPendingChanges := true }
      requests := s.requests - 1 }
  | .loop =>
    (s.loop.next s.shared).map fun (shared, loop) => { s with shared := shared, loop := loop }
  | .fails => s.loop.fails.map fun loop => { s with loop := loop }
  | .notified =>
    if s.loop.pc = .parked then
      some { s with loop := { s.loop with textChanged := false, pc := .top } }
    else none
  | .timer =>
    if s.loop.pc = .parked ∧ s.loop.textChanged = true then
      some { s with loop :=
        if s.shared.staged = ∅ then s.loop.continueAt .unscheduled
        else { s.loop with pc := .takeIn s.shared.staged .unscheduled } }
    else none
  | .slice progress settledFirst =>
    if s.loop.pc = .slice ∧ settledFirst ⊆ s.loop.edited then
      some { s with
        shared := { s.shared with unsettled :=
          if progress = .Settled then s.shared.unsettled ∩ s.shared.staged
          else s.shared.unsettled \ (settledFirst \ s.shared.staged) }
        loop := { s.loop with pc := .release settledFirst progress } }
    else none
  | .shutdown =>
    if s.loop.stops then some { s with loop := { s.loop with pc := .stopped } } else none

/-! Inversion of the steps of a task and of the loop. -/

theorem step_task {uriOf : FileId → U} {s s' : System U} {id : Nat}
    (h : s.step uriOf (.task id) = some s') :
    ∃ task shared phase, s.tasks[id]? = some task ∧
      task.next uriOf s.shared id = some (shared, phase) ∧
      s' = { s with shared := shared, tasks := s.tasks.set id { task with phase := phase } } := by
  unfold step at h
  cases ht : s.tasks[id]? with
  | none => simp [ht] at h
  | some task =>
    simp only [ht, Option.map_eq_some_iff] at h
    obtain ⟨⟨shared, phase⟩, hnext, heq⟩ := h
    exact ⟨task, shared, phase, rfl, hnext, heq.symm⟩

theorem step_drop {uriOf : FileId → U} {s s' : System U} {id : Nat}
    (h : s.step uriOf (.drop id) = some s') :
    ∃ task, s.tasks[id]? = some task ∧ task.phase = .begun ∧ s' = { s with
      shared := s.shared.withdraw uriOf task.change
      tasks := s.tasks.set id { task with phase := .withdrawn } } := by
  unfold step at h
  cases ht : s.tasks[id]? with
  | none => simp [ht] at h
  | some task =>
    simp only [ht] at h
    split_ifs at h with hphase
    exact ⟨task, rfl, hphase, (Option.some.inj h).symm⟩

theorem step_loop {uriOf : FileId → U} {s s' : System U} (h : s.step uriOf .loop = some s') :
    ∃ shared loop, s.loop.next s.shared = some (shared, loop) ∧
      s' = { s with shared := shared, loop := loop } := by
  obtain ⟨⟨shared, loop⟩, hnext, heq⟩ := Option.map_eq_some_iff.1 h
  exact ⟨shared, loop, hnext, heq.symm⟩

/-- A run: the steps of every task and of the loop, in the order they took place. -/
def run (uriOf : FileId → U) (labels : List Label) (s : System U) : Option (System U) :=
  LabelledRuns.run (step uriOf) labels s

/-- Some call of `begin_change`, `schedule`, `schedule_all_at_once` or `request_rebuild` is
    half-way. -/
def halfWay (s : System U) : Bool := s.tasks.any Task.halfWay || decide (s.requests > 0)

end System

end GluaLs.Debounce
