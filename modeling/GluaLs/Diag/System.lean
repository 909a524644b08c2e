/-
  GluaLs.Diag.System — the store run by any number of workers and callers.

  Every step is one critical section.  The state lock guards `state`; the PUBLISHING lock is
  held from reading an entry to sending what it shows (`sending`), so the reading and each
  message are steps of their own and other state sections run between them.  What a finished
  job leaves to publish, and what a `forget` leaves to clear, waits in `toPublish` and
  `toClear` until some later step takes the publishing lock for it.

  A `Label` names a step with all its arguments: which file, which job, what the computation
  returned.  `step` is a partial function: `none` where the step is not enabled.
-/
import Mathlib.Data.Finset.Basic
import Mathlib.Data.List.Sort
import GluaLs.Lib.FiniteMap
import GluaLs.Lib.LabelledRuns
import GluaLs.Vfs.FileId

namespace GluaLs.Diag

open GluaLs.Lib

/-! ## §1. Data

  The store holds, for every workspace file, the diagnostics last computed.  A file whose
  diagnostics no longer hold is DIRTY: queued, by priority and then in the order files were
  invalidated.  A worker CLAIMS a dirty file as a job, computes its diagnostics without any
  lock and FINISHES the job under the state lock: only the job that `computing` still names
  may store its result.

  | source | model |
  |---|---|
  | `HashMap`, `HashSet`, `BTreeSet` | `HashMap` (`AList`), `Finset` |
  | `BTreeSet<FileId>` walked in order | `insertionSort` by id |
  | `CancellationToken` of a job | its job's id in `cancelled`, `stopped` |
  | `result_id(&diagnostics)` | the parameter `resultId` |
  | vfs: `has_taken_text`, revision, version | arguments `stale`, `fileVersion` |
-/

/-- Which dirty diagnostics are computed first. -/
inductive Priority where
  | Edited
  | Open
  | Closed
  deriving DecidableEq, Repr

def Priority.rank : Priority → Nat
  | .Edited => 0
  | .Open => 1
  | .Closed => 2

/-- A file's diagnostics as last computed. -/
structure StoredDiagnostics (U D : Type) where
  uri : U
  diagnostics : List D
  resultId : Nat
  deriving DecidableEq

structure Entry (U D : Type) where
  stored : StoredDiagnostics U D
  configGen : Nat
  /-- The job that stored it. -/
  job : Nat
  deriving DecidableEq

structure Job where
  fileId : FileId
  id : Nat
  configGen : Nat
  deriving DecidableEq

structure State (U D : Type) where
  entries : HashMap FileId (Entry U D)
  queue : Finset (Priority × Nat × FileId)
  dirty : HashMap FileId (Priority × Nat)
  /-- Files being computed, with the job's id. -/
  computing : HashMap FileId Nat
  opened : Finset FileId
  sequence : Nat
  configGen : Nat
  /-- Jobs whose token was cancelled. -/
  cancelled : Finset Nat
  /-- The token every job's token is a child of. -/
  stopped : Bool

/-- What one computation returns. -/
inductive Computed (U D : Type) where
  | Diagnostics (uri : U) (diagnostics : List D)
  | Gone
  | Cancelled

/-- What one computation sends the client. -/
inductive Published (U D : Type) where
  | Stored (stored : StoredDiagnostics U D) (version : Option Int) (movedFrom : Option U)
  | Cleared (uri : U)

/-- One `textDocument/publishDiagnostics` notification. -/
structure Message (U D : Type) where
  uri : U
  diagnostics : List D
  version : Option Int

variable {U D : Type} [DecidableEq U]

namespace State

/-- `State::default()` -/
def empty : State U D := ⟨∅, ∅, ∅, ∅, ∅, 0, 0, ∅, false⟩

/-! ## §2. Dirty files -/

def priorityOf (s : State U D) (fileId : FileId) (edited : Bool) : Priority :=
  if edited then .Edited else if fileId ∈ s.opened then .Open else .Closed

/-- `if let Some((_, token)) = self.computing.remove(&file_id) { token.cancel(); }` -/
def cancelComputing (s : State U D) (fileId : FileId) : State U D :=
  match s.computing.lookup fileId with
  | some id =>
    { s with computing := s.computing.erase fileId, cancelled := insert id s.cancelled }
  | none => s

/-- Marks `fileId` dirty at `priority` or higher, cancelling a computation of what it held
    before. -/
def invalidate (s : State U D) (fileId : FileId) (priority : Priority) : State U D :=
  let s := s.cancelComputing fileId
  match s.dirty.lookup fileId with
  | some (queued, sequence) =>
    if queued.rank ≤ priority.rank then s
    else
      { s with
        sequence := s.sequence + 1
        queue := insert (priority, s.sequence + 1, fileId)
          (s.queue.erase (queued, sequence, fileId))
        dirty := s.dirty.insert fileId (priority, s.sequence + 1) }
  | none =>
    { s with
      sequence := s.sequence + 1
      queue := insert (priority, s.sequence + 1, fileId) s.queue
      dirty := s.dirty.insert fileId (priority, s.sequence + 1) }

def isValid (s : State U D) (fileId : FileId) : Bool :=
  (s.dirty.lookup fileId).isNone && (s.computing.lookup fileId).isNone &&
    match s.entries.lookup fileId with
    | some entry => entry.configGen == s.configGen
    | none => false

/-- The body of the loops that invalidate a file at the priority it has. -/
def invalidateOne (edited : FileId → Bool) (s : State U D) (fileId : FileId) : State U D :=
  s.invalidate fileId (s.priorityOf fileId (edited fileId))

/-! ## §3. The operations' critical sections -/

def setOpen (s : State U D) (fileId : FileId) (isOpen : Bool) : State U D :=
  if isOpen then
    let s := { s with opened := insert fileId s.opened }
    match s.dirty.lookup fileId with
    | some (priority, _) =>
      if priority.rank > Priority.Open.rank then s.invalidate fileId .Open else s
    | none => s
  else { s with opened := s.opened.erase fileId }

/-- `DiagnosticStore::invalidate` -/
def invalidateFiles (s : State U D) (fileIds edited : List FileId) : State U D :=
  fileIds.foldl (invalidateOne fun fileId => decide (fileId ∈ edited)) s

/-- The stored files a call of `invalidate_all` does not list, in order. -/
def restOf (s : State U D) (fileIds : List FileId) : List FileId :=
  (s.entries.keys.filter fun fileId => decide (fileId ∉ fileIds)).insertionSort
    fun a b => a.id ≤ b.id

def invalidateAll (s : State U D) (fileIds : List FileId) : State U D :=
  let s := { s with configGen := s.configGen + 1 }
  let rest := s.restOf fileIds
  rest.foldl (invalidateOne fun _ => false) (fileIds.foldl (invalidateOne fun _ => false) s)

/-- `if let Some((priority, sequence)) = state.dirty.remove(&file_id) { state.queue.remove(..) }` -/
def removeDirty (s : State U D) (fileId : FileId) : State U D :=
  match s.dirty.lookup fileId with
  | some (priority, sequence) =>
    { s with
      dirty := s.dirty.erase fileId
      queue := s.queue.erase (priority, sequence, fileId) }
  | none => s

/-- The critical section of `forget`; whether the client shows diagnostics for the file. -/
def forget (s : State U D) (fileId : FileId) : State U D × Bool :=
  let s := (s.cancelComputing fileId).removeDirty fileId
  ({ s with opened := s.opened.erase fileId, entries := s.entries.erase fileId },
    (s.entries.lookup fileId).isSome)

/-- One turn of the loop of `forget_missing`: the file's URI joins those to clear. -/
def forgetOne (acc : State U D × List U) (fileId : FileId) : State U D × List U :=
  let s := (acc.1.cancelComputing fileId).removeDirty fileId
  match s.entries.lookup fileId with
  | some entry => ({ s with entries := s.entries.erase fileId }, acc.2 ++ [entry.stored.uri])
  | none => (s, acc.2)

/-- The files `forget_missing` forgets, in order. -/
def missingOf (s : State U D) (live : List FileId) : List FileId :=
  ((s.entries.keys ++ s.dirty.keys).filter fun fileId => decide (fileId ∉ live)).dedup.insertionSort
    fun a b => a.id ≤ b.id

/-- The critical section of `forget_missing`, with the URIs to clear. -/
def forgetMissing (s : State U D) (live : List FileId) : State U D × List U :=
  (s.missingOf live).foldl forgetOne (s, [])

/-- The first critical section of `get`. -/
def get (s : State U D) (fileId : FileId) (priority : Priority) : State U D :=
  let queued := s.dirty.lookup fileId
  if (queued.any fun q => decide (q.1.rank > priority.rank)) ||
      (queued.isNone && (s.computing.lookup fileId).isNone && !s.isValid fileId) then
    s.invalidate fileId priority
  else s

/-- One turn of the loop in the first critical section of `get_all`. -/
def getAllOne (s : State U D) (fileId : FileId) : State U D :=
  if !s.isValid fileId && (s.dirty.lookup fileId).isNone &&
      (s.computing.lookup fileId).isNone then
    s.invalidateOne (fun _ => false) fileId
  else s

def getAll (s : State U D) (fileIds : List FileId) : State U D := fileIds.foldl getAllOne s

/-! ## §4. Jobs -/

/-- The critical section of `next_job` that claims a file; nothing where another worker
    claimed it meanwhile. -/
def claim (s : State U D) (fileId : FileId) : Option (State U D × Job) :=
  match s.dirty.lookup fileId with
  | some (priority, sequence) =>
    let id := s.sequence + 1
    some ({ s with
        dirty := s.dirty.erase fileId
        queue := s.queue.erase (priority, sequence, fileId)
        sequence := id
        computing := s.computing.insert fileId id },
      ⟨fileId, id, s.configGen⟩)
  | none => none

/-- `computing` still names the job. -/
def isCurrent (s : State U D) (job : Job) : Bool :=
  s.computing.lookup job.fileId == some job.id

/-- `job.token.is_cancelled()` -/
def isCancelled (s : State U D) (job : Job) : Bool := s.stopped || decide (job.id ∈ s.cancelled)

/-- Whether a result differs from what the file's entry shows. -/
def changed (previous : Option (Entry U D)) (uri : U) (resultId : Nat) : Bool :=
  match previous with
  | some entry => entry.stored.uri != uri || entry.stored.resultId != resultId
  | none => true

/-- The URI a moved file showed its diagnostics at. -/
def movedFrom (previous : Option (Entry U D)) (uri : U) : Option U :=
  match previous with
  | some entry => if entry.stored.uri ≠ uri then some entry.stored.uri else none
  | none => none

/-- The critical section of `run` that finishes a job, with what it leaves to publish. -/
def finish (resultId : List D → Nat) (s : State U D) (job : Job) (computed : Computed U D)
    (stale : Bool) (fileVersion : Option Int) : State U D × Option (Published U D) :=
  if s.isCurrent job then
    let cancelled := s.isCancelled job
    let s := { s with computing := s.computing.erase job.fileId }
    match (if cancelled then Computed.Cancelled else computed) with
    | .Cancelled => (s.invalidateOne (fun _ => false) job.fileId, none)
    | .Gone =>
      match s.entries.lookup job.fileId with
      | some entry =>
        ({ s with entries := s.entries.erase job.fileId }, some (.Cleared entry.stored.uri))
      | none => (s, none)
    | .Diagnostics uri diagnostics =>
      if stale then (s.invalidateOne (fun _ => false) job.fileId, none)
      else
        let version := if job.fileId ∈ s.opened then fileVersion else none
        let previous := s.entries.lookup job.fileId
        let stored := ⟨uri, diagnostics, resultId diagnostics⟩
        ({ s with entries := s.entries.insert job.fileId ⟨stored, job.configGen, job.id⟩ },
          if changed previous uri (resultId diagnostics) then
            some (.Stored stored version (movedFrom previous uri))
          else none)
  else (s, none)

end State

/-! ## §5. Workers and callers -/

/-- The store with its workers and callers. -/
structure Store (U D : Type) where
  state : State U D
  /-- Jobs claimed and not finished yet. -/
  jobs : List Job
  /-- What finished jobs left to publish. -/
  toPublish : List (Job × Published U D)
  /-- Forgotten files the client still shows diagnostics for. -/
  toClear : List (FileId × U)
  /-- The publishing lock: while it is held, the messages still to send. -/
  sending : Option (List (Message U D))
  /-- The messages sent, the newest first. -/
  sent : List (Message U D)

def Store.empty : Store U D := ⟨State.empty, [], [], [], none, []⟩

inductive Label (U D : Type) where
  | setOpen (fileId : FileId) (isOpen : Bool)
  | invalidate (fileIds edited : List FileId)
  | invalidateAll (fileIds : List FileId)
  | forget (fileId : FileId) (uri : U)
  | forgetMissing (live : List FileId)
  | get (fileId : FileId) (priority : Priority)
  | getAll (fileIds : List FileId)
  | claim (fileId : FileId)
  | finish (worker : Nat) (computed : Computed U D) (stale : Bool) (fileVersion : Option Int)
  | publish (pending : Nat)
  | clearForgotten (pending : Nat)
  | publishOpened (fileId : FileId) (version : Int)
  | send
  | release
  | stop

/-! ## §6. What is sent -/

def cleared (uri : U) : Message U D := ⟨uri, [], none⟩

/-- The closure `clear` of `publish`: nothing is cleared at the URI the file is shown at. -/
def clearUnless (shownAt : Option U) (uri : U) : List (Message U D) :=
  if shownAt ≠ some uri then [cleared uri] else []

/-- The messages `publish` sends: the file's entry is read under the publishing lock. -/
def publishMessages (s : State U D) (job : Job) : Published U D → List (Message U D)
  | .Stored stored version movedFrom =>
    let entry := s.entries.lookup job.fileId
    (match movedFrom with
      | some uri => clearUnless (entry.map (·.stored.uri)) uri
      | none => []) ++
    (if entry.map (·.job) = some job.id then
      [⟨stored.uri, stored.diagnostics, version⟩]
    else [])
  | .Cleared uri => clearUnless ((s.entries.lookup job.fileId).map (·.stored.uri)) uri

/-- The messages `clear_forgotten` sends. -/
def clearMessages (s : State U D) (fileId : FileId) (uri : U) : List (Message U D) :=
  if (s.entries.lookup fileId).isSome then [] else [cleared uri]

/-- The messages `publish_opened` sends. -/
def openedMessages (s : State U D) (fileId : FileId) (version : Int) : List (Message U D) :=
  if s.isValid fileId then
    match s.entries.lookup fileId with
    | some entry => [⟨entry.stored.uri, entry.stored.diagnostics, some version⟩]
    | none => []
  else []

/-! ## §7. Steps -/

namespace Store

/-- The publishing lock is taken, if it is free, with the messages to send. -/
def lockPublishing (store : Store U D) (messages : List (Message U D)) : Option (Store U D) :=
  match store.sending with
  | none => some { store with sending := some messages }
  | some _ => none

def step (resultId : List D → Nat) (store : Store U D) : Label U D → Option (Store U D)
  | .setOpen fileId isOpen => some { store with state := store.state.setOpen fileId isOpen }
  | .invalidate fileIds edited =>
    some { store with state := store.state.invalidateFiles fileIds edited }
  | .invalidateAll fileIds => some { store with state := store.state.invalidateAll fileIds }
  | .forget fileId uri =>
    let (state, had) := store.state.forget fileId
    -- the caller clears what the client shows, later
    some { store with
      state := state
      toClear := if had then store.toClear ++ [(fileId, uri)] else store.toClear }
  | .forgetMissing live =>
    let (state, gone) := store.state.forgetMissing live
    lockPublishing { store with state := state } (gone.map cleared)
  | .get fileId priority => some { store with state := store.state.get fileId priority }
  | .getAll fileIds => some { store with state := store.state.getAll fileIds }
  | .claim fileId =>
    match store.state.claim fileId with
    | some (state, job) => some { store with state := state, jobs := store.jobs ++ [job] }
    | none => some store
  | .finish worker computed stale fileVersion =>
    match store.jobs[worker]? with
    | some job =>
      let (state, published) := store.state.finish resultId job computed stale fileVersion
      some { store with
        state := state
        jobs := store.jobs.eraseIdx worker
        toPublish := store.toPublish ++ (published.map fun p => (job, p)).toList }
    | none => none
  | .publish pending =>
    match store.toPublish[pending]? with
    | some (job, published) =>
      lockPublishing { store with toPublish := store.toPublish.eraseIdx pending }
        (publishMessages store.state job published)
    | none => none
  | .clearForgotten pending =>
    match store.toClear[pending]? with
    | some (fileId, uri) =>
      lockPublishing { store with toClear := store.toClear.eraseIdx pending }
        (clearMessages store.state fileId uri)
    | none => none
  | .publishOpened fileId version =>
    lockPublishing store (openedMessages store.state fileId version)
  | .send =>
    match store.sending with
    | some (message :: messages) =>
      some { store with sending := some messages, sent := message :: store.sent }
    | _ => none
  | .release =>
    match store.sending with
    | some [] => some { store with sending := none }
    | _ => none
  | .stop => some { store with state := { store.state with stopped := true } }

/-- A run: the steps of every worker and caller, in the order their sections ran. -/
def run (resultId : List D → Nat) (labels : List (Label U D)) (store : Store U D) :
    Option (Store U D) :=
  LabelledRuns.run (step resultId) labels store

/-- A run from the empty store. -/
def Reaches (resultId : List D → Nat) (labels : List (Label U D)) (store : Store U D) : Prop :=
  run resultId labels Store.empty = some store

/-- **Induction over a run**: what holds of the empty store and is kept by every step, with
    the run that led to it, holds of every store a run reaches. -/
theorem Reaches.induction (resultId : List D → Nat)
    {P : List (Label U D) → Store U D → Prop} (h0 : P [] Store.empty)
    (hstep : ∀ labels store label store', Reaches resultId labels store → P labels store →
      step resultId store label = some store' → P (labels ++ [label]) store') :
    ∀ labels store, Reaches resultId labels store → P labels store := by
  intro labels
  induction labels using List.reverseRecOn with
  | nil =>
    intro store h
    have h' : some Store.empty = some store := h
    cases h'
    exact h0
  | append_singleton labels label ih =>
    intro store h
    unfold Reaches run at h
    rw [LabelledRuns.run_append] at h
    obtain ⟨mid, hmid, hlast⟩ := Option.bind_eq_some_iff.1 h
    have hone : step resultId mid label = some store := by
      have hl : (step resultId mid label).bind (fun s => some s) = some store := hlast
      simpa using hl
    exact hstep labels mid label store hmid (ih mid hmid) hone

end Store

end GluaLs.Diag
