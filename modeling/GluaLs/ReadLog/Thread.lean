/-
  GluaLs.ReadLog.Thread — one thread that records evaluations into a lent key table.

  An EVALUATION logs the slots it reads.  A FRAME is open while one memoised value is
  computed: its reads are the log from where it opened.  Whether a read is logged again is
  decided by ONE stamp per slot of the table, compared with the stamp of the innermost open
  frame.  An evaluation that begins inside another suspends it and shares those stamps: it
  remembers each one it overwrites and puts them back when it ends.

  A `Label` is one call of the recorder on this thread:

    • `begin`, `resume`, `suspend`, `end`, and the drop of a `Recording` while unwinding,
    • `open_frame`, `close_frame`, and the taint of the innermost frame,
    • a read, and the reuse of a memo.

  Every definition follows `derivation/mod.rs`, `frames.rs` and `graph.rs`.  The fields
  marked GHOST are history: what an evaluation read or replayed, and where in it a frame
  opened.  No function of the source reads them.
-/
import GluaLs.Lib.LabelledRuns
import Mathlib.Algebra.Group.Nat.Defs
import Mathlib.Logic.Function.Basic

namespace GluaLs.ReadLog

open GluaLs.Lib

/-- A slot of the key table (`KeyIdx`). -/
abbrev Slot := Nat

/-- The stamp each slot of the lent table was last logged under (`KeySlot::stamp`).  A key
    interned during the run takes a slot whose stamp is 0. -/
abbrev Stamps := Slot → Nat

/-- `log[start..end]` -/
def slice (log : List Slot) (start stop : Nat) : List Slot := (log.take stop).drop start

/-! ## §1. The key table -/

/-- `KeyTable::log` -/
def Stamps.log (table : Stamps) (slot : Slot) (frame evaluation : Nat) : Option Bool × Stamps :=
  if table slot ≥ frame then (none, table)
  else (some (decide (table slot < evaluation)), Function.update table slot frame)

/-- `KeyTable::restore_log_stamp` -/
def Stamps.restoreLogStamp (table : Stamps) (slot : Slot) (stamp : Nat) : Stamps :=
  Function.update table slot stamp

/-- The stamps `overwritten` put back, the last one overwritten first. -/
def Stamps.restored (table : Stamps) (overwritten : List (Slot × Nat)) : Stamps :=
  overwritten.foldl (fun table entry => table.restoreLogStamp entry.1 entry.2) table

/-! ## §2. The log kept for memos -/

/-- `u32::MAX` -/
def u32Max : Nat := 2 ^ 32 - 1

structure LogHandle where
  start : Nat
  stop : Nat
  window : Option (List Slot)
  deriving DecidableEq

namespace LogHandle

/-- `LogHandle::default` -/
def default : LogHandle := ⟨u32Max, 0, none⟩

/-- `LogHandle::cover` -/
def cover (handle : LogHandle) (start stop : Nat) : LogHandle :=
  if handle.window.isSome then handle
  else
    { handle with
      start := if start < handle.start then start else handle.start
      stop := if stop > handle.stop then stop else handle.stop }

/-- `LogHandle::freeze` -/
def freeze (handle : LogHandle) (log : List Slot) : LogHandle :=
  if handle.window.isSome then handle
  else
    let bounds := if handle.start ≤ handle.stop then (handle.start, handle.stop) else (0, 0)
    { start := bounds.1
      stop := log.length
      window := some (slice log bounds.1 bounds.2) }

/-- `LogHandle::reads` -/
def reads (handle : LogHandle) (start stop : Nat) : Option (List Slot) :=
  match handle.window with
  | none => none
  | some window =>
    if stop > handle.stop then none
    else if start = stop then some []
    else if start < handle.start then none
    else if start - handle.start ≤ stop - handle.start ∧
        stop - handle.start ≤ window.length then
      some (slice window (start - handle.start) (stop - handle.start))
    else none

end LogHandle

/-! ## §3. Evaluations, frames and memos -/

/-- Where the reads of a frame begin: in the log, in the stamps, and in the ghost history of
    its evaluation. -/
structure Scope where
  start : Nat
  stamp : Nat
  /-- GHOST -/
  noted : Nat
  deriving DecidableEq

structure Frame extends Scope where
  taint : Option Nat
  deriving DecidableEq

/-- `Evaluation`.  `frames` holds the innermost open frame first, `shared` the stamps it
    overwrote in a shared table, the last one first. -/
structure Evaluation where
  log : List Slot
  read : List Slot
  frames : List Frame
  logHandle : Nat
  stamp : Nat
  shared : Option (List (Slot × Nat))
  /-- GHOST: every slot it read, and every slot of every memo it reused, in order. -/
  noted : List Slot
  /-- GHOST: how long the log was when it last began to record. -/
  logBefore : Nat
  /-- GHOST: how long its history was then. -/
  notedBefore : Nat
  deriving DecidableEq

/-- `Provenance`, a memo computed from a range of a log. -/
structure Provenance where
  log : Nat
  start : Nat
  stop : Nat
  since : Nat
  replayedInto : Nat
  /-- GHOST: the range of the log it was computed from. -/
  reads : List Slot
  /-- GHOST: what its evaluation read or replayed while its frame was open. -/
  noted : List Slot
  /-- GHOST: the log was frozen already when it was handed out. -/
  late : Bool
  deriving DecidableEq

structure Recording where
  stamp : Nat
  suspended : Nat
  suspends : Bool
  deriving DecidableEq

namespace Evaluation

/-- `Evaluation::frame_stamp` -/
def frameStamp (e : Evaluation) : Nat :=
  match e.frames with
  | frame :: _ => frame.stamp
  | [] => e.stamp

/-- `Evaluation::log_slot` -/
def logSlot (e : Evaluation) (table : Stamps) (slot : Slot) : Evaluation × Stamps :=
  match table.log slot e.frameStamp e.stamp with
  | (none, table) => (e, table)
  | (some first, logged) =>
    ({ e with
        shared := e.shared.map fun overwritten => (slot, table slot) :: overwritten
        log := e.log ++ [slot]
        read := if first then e.read ++ [slot] else e.read },
      logged)

/-- The loop of a replay: every slot is logged in turn. -/
def logSlots (e : Evaluation) (table : Stamps) : List Slot → Evaluation × Stamps
  | [] => (e, table)
  | slot :: slots =>
    let logged := e.logSlot table slot
    logged.1.logSlots logged.2 slots

/-- `taint_scoped`: the innermost frame is tainted if it is one of those from `base` on. -/
def taintScoped (e : Evaluation) (base : Nat) : Evaluation :=
  match e.frames with
  | frame :: outer =>
    if base ≤ outer.length then
      { e with
        frames := { frame with
          taint := some ((frame.taint.map fun taint => min taint base).getD base) } :: outer }
    else e
  | [] => e

def taintEvaluation (e : Evaluation) : Evaluation :=
  match e.frames with
  | frame :: outer => { e with frames := { frame with taint := some 0 } :: outer }
  | [] => e

/-- The history grows by what was read or replayed. -/
def note (e : Evaluation) (slots : List Slot) : Evaluation :=
  { e with noted := e.noted ++ slots }

/-- `record_read`, once the key has its slot; `taints` is `KeyTable::taints`. -/
def recordRead (e : Evaluation) (table : Stamps) (slot : Slot) (taints : Bool) :
    Evaluation × Stamps :=
  let logged := e.logSlot table slot
  ((if taints then logged.1.taintEvaluation else logged.1).note [slot], logged.2)

def pushFrame (e : Evaluation) (stamp : Nat) : Evaluation :=
  { e with
    frames := { start := e.log.length, stamp, noted := e.noted.length, taint := none } ::
      e.frames }

/-- What `close_frame` does to the frame around the one it closes. -/
def inheritTaint (taint : Option Nat) : List Frame → List Frame
  | [] => []
  | parent :: outer =>
    match taint with
    | some reach =>
      if reach ≤ outer.length then
        { parent with
          taint := some ((parent.taint.map fun taint => min taint reach).getD reach) } ::
          outer
      else parent :: outer
    | none => parent :: outer

end Evaluation

/-! ## §4. The thread -/

/-- The recorder's state on this thread.  `suspended` holds the last one suspended first;
    `handedBack` are the evaluations that ended and may be resumed; `memos` are the
    provenances handed out. -/
structure Thread where
  counter : Nat
  table : Stamps
  current : Option Evaluation
  suspended : List Evaluation
  handedBack : List Evaluation
  recordings : List Recording
  handles : List LogHandle
  memos : List Provenance

namespace Thread

/-- A thread that records nothing, with a table just lent to it. -/
def lent (counter : Nat) (table : Stamps) : Thread where
  counter := counter
  table := table
  current := none
  suspended := []
  handedBack := []
  recordings := []
  handles := []
  memos := []

/-- The evaluations that record on the thread, the one that is not suspended first. -/
def stack (t : Thread) : List Evaluation := t.current.toList ++ t.suspended

def start (t : Thread) (e : Evaluation) : Thread :=
  { t with
    current := some { e with
      shared := t.current.map fun _ => []
      logBefore := e.log.length
      notedBefore := e.noted.length }
    suspended := t.current.toList ++ t.suspended
    recordings := t.recordings ++ [⟨e.stamp, t.suspended.length, t.current.isSome⟩] }

def begin (t : Thread) : Thread :=
  let stamp := t.counter + 1
  start
    { t with
      counter := stamp
      handles := t.handles ++ [LogHandle.default] }
    { log := []
      read := []
      frames := []
      logHandle := t.handles.length
      stamp := stamp
      shared := none
      noted := []
      logBefore := 0
      notedBefore := 0 }

/-- `resume`, of the `i`-th evaluation handed back. -/
def resume (t : Thread) (i : Nat) : Option Thread :=
  match t.handedBack[i]? with
  | some e =>
    some (start
      { t with
        counter := t.counter + 1
        handedBack := t.handedBack.eraseIdx i }
      { e with stamp := t.counter + 1 })
  | none => none

/-- `suspend`.  Frames are nested in the recording of their evaluation: none is open. -/
def suspend (t : Thread) : Option (Evaluation × Thread) :=
  match t.current with
  | some e =>
    if e.frames = [] then
      some ({ e with shared := none }, { t with
          table := t.table.restored (e.shared.getD [])
          current := t.suspended.head?
          suspended := t.suspended.tail })
    else none
  | none => none

/-- The evaluation is handed back to the caller. -/
def handBack (t : Thread) (e : Evaluation) : Thread :=
  { t with handedBack := t.handedBack ++ [e] }

/-- `log_handle.freeze(&log)`, which expects fewer than 2^32 reads. -/
def freeze (t : Thread) (e : Evaluation) : Option Thread :=
  if e.log.length < 2 ^ 32 then
    some { t with handles := t.handles.modify e.logHandle fun handle => handle.freeze e.log }
  else none

/-- `Recording::drop` while the thread panics. -/
def dropRecording (t : Thread) (r : Recording) : Thread :=
  -- `SUSPENDED[r.suspended..]`, the last one suspended first
  let above := t.suspended.take (t.suspended.length - r.suspended)
  let live := (t.current.any fun e => e.stamp = r.stamp) ||
    above.any fun e => e.stamp = r.stamp
  if live then
    { t with
      suspended := t.suspended.drop (t.suspended.length - r.suspended)
      current := if r.suspends then above.getLast? else none }
  else t

def openFrame (t : Thread) : Option Thread :=
  match t.current with
  | some e =>
    if e.log.length < 2 ^ 32 then
      some { t with
        counter := t.counter + 1
        current := some (e.pushFrame (t.counter + 1)) }
    else none
  | none => none

/-- The memo of a frame that closes untainted. -/
def provenance (t : Thread) (e : Evaluation) (closed : Frame) : Provenance where
  log := e.logHandle
  start := closed.start
  stop := e.log.length
  since := closed.stamp
  replayedInto := 0
  reads := slice e.log closed.start e.log.length
  noted := e.noted.drop closed.noted
  late := t.handles[e.logHandle]?.any fun handle => handle.window.isSome

def closeFrame (t : Thread) : Option Thread :=
  match t.current with
  | some e =>
    match e.frames with
    | closed :: outer =>
      let popped := { e with frames := Evaluation.inheritTaint closed.taint outer }
      if closed.taint.isSome then some { t with current := some popped }
      else if e.log.length < 2 ^ 32 then
        some { t with
          current := some popped
          handles := t.handles.modify e.logHandle fun handle =>
            handle.cover closed.start e.log.length
          memos := t.memos ++ [t.provenance e closed] }
      else none
    | [] => none
  | none => none

/-- `reuse` of a memo whose context reads the same and whose reads are unwritten.  A memo of
    this evaluation lies in its log, any other in the window kept of its log. -/
def reuse (t : Thread) (i : Nat) : Option Thread :=
  match t.current, t.memos[i]? with
  | some e, some p =>
    let frame := e.frameStamp
    if p.log = e.logHandle then
      let reads := slice e.log p.start p.stop
      if p.since < frame then
        let replayed :=
          if p.replayedInto ≠ frame then e.logSlots t.table reads else (e, t.table)
        some { t with
          current := some (replayed.1.note reads)
          table := replayed.2
          memos := t.memos.set i { p with replayedInto := frame } }
      else some { t with current := some (e.note reads) }
    else
      match t.handles[p.log]?.bind fun handle => handle.reads p.start p.stop with
      | some reads =>
        let replayed :=
          if p.replayedInto ≠ frame then e.logSlots t.table reads else (e, t.table)
        some { t with
          current := some (replayed.1.note reads)
          table := replayed.2
          memos := t.memos.set i { p with replayedInto := frame } }
      | none => some t
  | _, _ => none

/-- A memo that came from elsewhere: an earlier analysis, or another thread. -/
def share (t : Thread) (reads : List Slot) : Thread :=
  { t with
    handles := t.handles ++ [⟨0, reads.length, some reads⟩]
    memos := t.memos ++ [⟨t.handles.length, 0, reads.length, t.counter, 0, reads, reads, false⟩] }

end Thread

/-- A call of the recorder. -/
inductive Label where
  | begin
  | resume (i : Nat)
  | suspend
  | finish
  | unwind (i : Nat)
  | openFrame
  | closeFrame
  | taint (base : Nat)
  | read (slot : Slot) (taints : Bool)
  | reuse (i : Nat)
  | share (reads : List Slot)
  | stampElsewhere
  deriving DecidableEq

/-- One step of the thread.  `finish` is `end`; `stampElsewhere` draws a stamp on another
    thread. -/
def step (t : Thread) : Label → Option Thread
  | .begin => some t.begin
  | .resume i => t.resume i
  | .suspend => t.suspend.map fun ended => ended.2.handBack ended.1
  | .finish =>
    t.suspend.bind fun ended => (ended.2.freeze ended.1).map fun t => t.handBack ended.1
  | .unwind i => t.recordings[i]?.map t.dropRecording
  | .openFrame => t.openFrame
  | .closeFrame => t.closeFrame
  | .taint base => t.current.map fun e => { t with current := some (e.taintScoped base) }
  | .read slot taints =>
    t.current.map fun e =>
      let recorded := e.recordRead t.table slot taints
      { t with current := some recorded.1, table := recorded.2 }
  | .reuse i => t.reuse i
  | .share reads => some (t.share reads)
  | .stampElsewhere => some { t with counter := t.counter + 1 }

/-- A run of the thread. -/
abbrev run (labels : List Label) (t : Thread) : Option Thread := LabelledRuns.run step labels t

end GluaLs.ReadLog
