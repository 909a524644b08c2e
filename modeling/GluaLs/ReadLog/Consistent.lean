/-
  GluaLs.ReadLog.Consistent — the invariant of the recording thread.

  Three parts:

    • the stack (`Records`, and the `Recording`s that fit it),
    • the handles: every evaluation owns its own, which bounds only what it logged,
    • the memos: `Sound` says where a memo's reads stand in the log of the evaluation that
      computed it, and in every scope they were last replayed into.

  A step moves evaluations about and lets their logs grow.  `Follows` says so once, and a
  memo that was sound stays sound over everything that follows.
-/
import Mathlib.Data.List.Nodup
import GluaLs.ReadLog.Marks

namespace GluaLs.ReadLog

open Evaluation

/-! ## §1. Ranges of a log

  A `LogHandle` bounds the ranges of the memos computed so far; once frozen it keeps the
  part of the log inside those bounds.  `Holds` says what a handle owes one memo:

    • while the log is not frozen, its bounds cover the memo's range,
    • of a memo handed out before the log was frozen, the window holds the range,
    • a memo handed out later begins where the frozen log ends, so its range is answered
      only when it is empty.
-/

theorem slice_of_longer {log longer : List Slot} (hlonger : log <+: longer) (start stop : Nat)
    (hstop : stop ≤ log.length) : slice longer start stop = slice log start stop := by
  obtain ⟨rest, rfl⟩ := hlonger
  unfold slice
  rw [List.take_append_of_le_length hstop]

theorem slice_to_end (log : List Slot) (start : Nat) :
    slice log start log.length = log.drop start := by
  unfold slice
  rw [List.take_length]

theorem slice_empty (log : List Slot) (start : Nat) : slice log start start = [] := by
  unfold slice
  apply List.drop_eq_nil_of_le
  rw [List.length_take]
  exact Nat.min_le_left _ _

theorem length_slice (log : List Slot) (start stop : Nat) (hstop : stop ≤ log.length) :
    (slice log start stop).length = stop - start := by
  simp [slice, hstop]

/-- A range inside a window of the log is the range of the log. -/
theorem slice_slice (log : List Slot) (first last start stop : Nat) (hfirst : first ≤ start)
    (hstart : start ≤ stop) (hlast : stop ≤ last) :
    slice (slice log first last) (start - first) (stop - first) = slice log start stop := by
  unfold slice
  rw [List.take_drop, List.drop_drop, List.take_take]
  congr 2 <;> omega

theorem mem_slice_of_le (log : List Slot) (start stop first : Nat) (hfirst : first ≤ start)
    (slot : Slot) (hslot : slot ∈ slice log start stop) : slot ∈ log.drop first := by
  unfold slice at hslot
  rw [List.drop_take] at hslot
  exact List.drop_subset_drop_left log hfirst (List.mem_of_mem_take hslot)

/-! ## §2. What a handle owes a memo -/

/-- **What the handle of its log owes a memo.** -/
structure LogHandle.Holds (handle : LogHandle) (p : Provenance) : Prop where
  unfrozen : handle.window = none →
    p.late = false ∧ handle.start ≤ p.start ∧ p.stop ≤ handle.stop
  early : ∀ window, handle.window = some window → p.late = false →
    handle.start ≤ p.start ∧ p.stop ≤ handle.stop ∧ p.stop - handle.start ≤ window.length ∧
      slice window (p.start - handle.start) (p.stop - handle.start) = p.reads
  late : handle.window.isSome → p.late = true → p.stop ≤ handle.stop →
    p.start = p.stop ∧ p.reads = []

namespace LogHandle

variable {handle : LogHandle} {p : Provenance}

/-- `Holds` does not read the stamp of the last replay. -/
theorem Holds.replayed (h : handle.Holds p) (frame : Nat) :
    handle.Holds { p with replayedInto := frame } where
  unfrozen := h.unfrozen
  early := h.early
  late := h.late

theorem cover_frozen (start stop : Nat) (hwindow : handle.window.isSome) :
    handle.cover start stop = handle := by
  simp [cover, hwindow]

theorem cover_unfrozen (start stop : Nat) (hwindow : handle.window = none) :
    (handle.cover start stop).window = none ∧ (handle.cover start stop).start ≤ start ∧
      (handle.cover start stop).start ≤ handle.start ∧
      stop ≤ (handle.cover start stop).stop ∧ handle.stop ≤ (handle.cover start stop).stop := by
  simp only [cover, hwindow, Option.isSome_none, Bool.false_eq_true, if_false, true_and]
  refine ⟨?_, ?_, ?_, ?_⟩ <;> split <;> omega

/-- Covering one more memo keeps what the others are owed. -/
theorem Holds.cover (h : handle.Holds p) (start stop : Nat) :
    (handle.cover start stop).Holds p := by
  cases hwindow : handle.window with
  | some window =>
    rw [cover_frozen start stop (by simp [hwindow])]
    exact h
  | none =>
    obtain ⟨hnone, -, hstart, -, hstop⟩ := cover_unfrozen start stop hwindow
    obtain ⟨hearly, hpstart, hpstop⟩ := h.unfrozen hwindow
    exact
      { unfrozen := fun _ => ⟨hearly, hstart.trans hpstart, hpstop.trans hstop⟩
        early := fun window hsome => by simp [hnone] at hsome
        late := fun hsome => by simp [hnone] at hsome }

/-- **The memo just covered.**  One handed out once the log is frozen begins at or after the
    end of the frozen log. -/
theorem holds_covered (handle : LogHandle) (p : Provenance)
    (hlate : p.late = handle.window.isSome) (hrange : p.start ≤ p.stop)
    (hempty : p.start = p.stop → p.reads = [])
    (hafter : handle.window.isSome → handle.stop ≤ p.start) :
    (handle.cover p.start p.stop).Holds p := by
  cases hwindow : handle.window with
  | some window =>
    have hsome : handle.window.isSome := by simp [hwindow]
    rw [cover_frozen p.start p.stop hsome]
    rw [hsome] at hlate
    exact
      { unfrozen := fun hnone => by simp [hwindow] at hnone
        early := fun _ _ hearly => by simp [hlate] at hearly
        late := by
          intro _ _ hstop
          have hafter := hafter hsome
          have heq : p.start = p.stop := by omega
          exact ⟨heq, hempty heq⟩ }
  | none =>
    obtain ⟨hnone, hstart, -, hstop, -⟩ := cover_unfrozen p.start p.stop hwindow
    have hearly : p.late = false := by simp [hlate, hwindow]
    exact
      { unfrozen := fun _ => ⟨hearly, hstart, hstop⟩
        early := fun window hsome => by simp [hnone] at hsome
        late := fun hsome => by simp [hnone] at hsome }

/-- **Freezing keeps what a memo is owed**: its range is inside the bounds, and the bounds
    are inside the log. -/
theorem Holds.freeze (h : handle.Holds p) (log : List Slot) (hbounds : handle.stop ≤ log.length)
    (hrange : p.start ≤ p.stop) (hreads : slice log p.start p.stop = p.reads) :
    (handle.freeze log).Holds p := by
  cases hwindow : handle.window with
  | some window =>
    have hfreeze : handle.freeze log = handle := by simp [LogHandle.freeze, hwindow]
    rw [hfreeze]
    exact h
  | none =>
    obtain ⟨hearly, hstart, hstop⟩ := h.unfrozen hwindow
    have hle : handle.start ≤ handle.stop := by omega
    have hfreeze : handle.freeze log =
        ⟨handle.start, log.length, some (slice log handle.start handle.stop)⟩ := by
      simp [LogHandle.freeze, hwindow, hle]
    rw [hfreeze]
    exact
      { unfrozen := fun hnone => by simp at hnone
        early := by
          intro window hsome _
          obtain rfl : slice log handle.start handle.stop = window := by simpa using hsome
          refine ⟨hstart, hstop.trans hbounds, ?_, ?_⟩
          · rw [length_slice log _ _ hbounds]
            show p.stop - handle.start ≤ handle.stop - handle.start
            omega
          · exact (slice_slice log _ _ _ _ hstart hrange hstop).trans hreads
        late := fun _ hlate => by simp [hearly] at hlate }

/-- **Of a memo handed out before the log was frozen the handle answers the whole range.** -/
theorem reads_early (h : handle.Holds p) (hrange : p.start ≤ p.stop)
    (hempty : p.start = p.stop → p.reads = []) (hwindow : handle.window.isSome)
    (hearly : p.late = false) : handle.reads p.start p.stop = some p.reads := by
  obtain ⟨window, hsome⟩ := Option.isSome_iff_exists.1 hwindow
  obtain ⟨hstart, hstop, hlength, hreads⟩ := h.early window hsome hearly
  simp only [LogHandle.reads, hsome, Nat.not_lt.2 hstop, if_false]
  by_cases heq : p.start = p.stop
  · rw [if_pos heq, hempty heq]
  · rw [if_neg heq, if_neg (Nat.not_lt.2 hstart), if_pos ⟨by omega, hlength⟩, hreads]

/-- **Of one handed out later it answers the whole range or nothing.** -/
theorem reads_late (h : handle.Holds p) (hwindow : handle.window.isSome) (hlate : p.late = true) :
    handle.reads p.start p.stop = none ∨ handle.reads p.start p.stop = some p.reads := by
  obtain ⟨window, hsome⟩ := Option.isSome_iff_exists.1 hwindow
  simp only [LogHandle.reads, hsome]
  by_cases hstop : p.stop > handle.stop
  · exact .inl (if_pos hstop)
  · obtain ⟨heq, hreads⟩ := h.late hwindow hlate (Nat.le_of_not_lt hstop)
    right
    rw [if_neg hstop, if_pos heq, hreads]

end LogHandle

/-! ## §3. The invariant of the stack

  `Records` reads one table for a whole stack of evaluations: the top one against the table
  as it is, the one it suspends against the table with the top one's overwritten stamps PUT
  BACK, and so on down.  One lemma for each thing that happens to the stack:

    • `records_advance` — the top evaluation logs,
    • `records_push` — an evaluation starts,
    • `records_discard` — evaluations that overwrote nothing are discarded unrestored,
    • `records_openFrame`, `records_closeFrame`.
-/

/-- The stamps an evaluation has to put back. -/
def Evaluation.overwritten (e : Evaluation) : List (Slot × Nat) := e.shared.getD []

/-- What the evaluation `e` on top of `rest` owes the ones it suspends. -/
structure Nested (e : Evaluation) (rest : List Evaluation) : Prop where
  shares : e.shared = none → rest = []
  younger : ∀ below ∈ rest, ∀ f ∈ below.scopes, f.stamp < e.stamp

/-- **Every evaluation of the stack reads its own log off the table**, once the evaluations
    above it have put the stamps they overwrote back. -/
def Records (counter : Nat) : Stamps → List Evaluation → Prop
  | table, [] => ∀ slot, table slot ≤ counter
  | table, e :: rest =>
    Marks counter table e ∧ Exact e ∧ Nested e rest ∧
      Records counter (table.restored e.overwritten) rest

theorem Records.bounded {counter : Nat} {table : Stamps} {stack : List Evaluation}
    (h : Records counter table stack) (slot : Slot) : table slot ≤ counter := by
  cases stack with
  | nil => exact h slot
  | cons e rest => exact h.1.bounded slot

theorem Records.mono {counter later : Nat} (hle : counter ≤ later) (stack : List Evaluation) :
    ∀ table : Stamps, Records counter table stack → Records later table stack := by
  induction stack with
  | nil =>
    intro table h slot
    exact (h slot).trans hle
  | cons e rest ih =>
    intro table h
    exact ⟨h.1.mono later hle, h.2.1, h.2.2.1, ih _ h.2.2.2⟩

theorem Records.mem {counter : Nat} (stack : List Evaluation) : ∀ table : Stamps,
    Records counter table stack → ∀ e ∈ stack, ∃ table', Marks counter table' e ∧ Exact e := by
  induction stack with
  | nil =>
    intro table _ e he
    cases he
  | cons top rest ih =>
    intro table h e he
    obtain rfl | he := List.mem_cons.1 he
    · exact ⟨table, h.1, h.2.1⟩
    · exact ih _ h.2.2.2 e he

/-- Every scope of the stack was stamped by the counter. -/
theorem Records.stamped {counter : Nat} {table : Stamps} {stack : List Evaluation}
    (h : Records counter table stack) (e : Evaluation) (he : e ∈ stack) (f : Scope)
    (hf : f ∈ e.scopes) : 0 < f.stamp ∧ f.stamp ≤ counter := by
  obtain ⟨table', hmarks, -⟩ := h.mem stack table e he
  exact hmarks.stamped f hf

/-! ## §4. The top evaluation logs -/

section Top

variable {counter : Nat} {table table' : Stamps} {e e' : Evaluation} {rest : List Evaluation}
  {slots : List Slot}

/-- **The top evaluation logs**: the ones below it see the stamps they saw. -/
theorem records_advance (h : Records counter table (e :: rest))
    (hlogged : Logged counter table e slots table' e') :
    Records counter table' (e'.note slots :: rest) := by
  obtain ⟨hmarks, hexact, hnested, hrest⟩ := h
  refine ⟨marks_note hlogged.marks slots, exact_note hmarks hexact hlogged, ?_, ?_⟩
  · constructor
    · intro hnone
      apply hnested.shares
      have hshared := hlogged.shared
      rw [show e'.shared = none from hnone] at hshared
      simpa using hshared.symm
    · intro below hbelow f hf
      rw [show (e'.note slots).stamp = e.stamp from hlogged.stamp]
      exact hnested.younger below hbelow f hf
  · show Records counter (table'.restored (e'.shared.getD [])) rest
    by_cases hshared : e.shared.isSome
    · rw [hlogged.restored hshared]
      exact hrest
    · -- nothing is suspended below an evaluation that shares nothing
      have hnone : e.shared = none := by simpa using hshared
      have hnone' : e'.shared = none := by simpa [hnone] using hlogged.shared
      rw [hnested.shares hnone, hnone']
      exact hlogged.marks.bounded

/-! ## §5. Frames -/

/-- A frame opens with a stamp above every slot's: it holds nothing yet. -/
theorem records_openFrame (h : Records counter table (e :: rest)) :
    Records (counter + 1) table (e.pushFrame (counter + 1) :: rest) := by
  obtain ⟨hmarks, hexact, hnested, hrest⟩ := h.mono (Nat.le_succ counter) (e :: rest) table
  have hbounded : ∀ slot, table slot ≤ counter := h.1.bounded
  have hstamped := h.1.stamped
  have hscopes : (e.pushFrame (counter + 1)).scopes =
      ⟨e.log.length, counter + 1, e.noted.length⟩ :: e.scopes := rfl
  refine ⟨?_, ?_, ⟨hnested.shares, hnested.younger⟩, hrest⟩
  · constructor
    · exact hmarks.bounded
    · rw [hscopes, List.pairwise_cons]
      refine ⟨?_, hmarks.ordered⟩
      intro f hf
      exact ⟨Nat.lt_succ_of_le (hstamped f hf).2, (hmarks.opened f hf).1⟩
    · intro f hf
      rw [hscopes] at hf
      obtain rfl | hf := List.mem_cons.1 hf
      · exact ⟨le_rfl, le_rfl⟩
      · exact hmarks.opened f hf
    · intro f hf
      rw [hscopes] at hf
      obtain rfl | hf := List.mem_cons.1 hf
      · exact ⟨Nat.succ_pos _, le_rfl⟩
      · exact hmarks.stamped f hf
    · intro f hf slot
      rw [hscopes] at hf
      obtain rfl | hf := List.mem_cons.1 hf
      · show counter + 1 ≤ table slot ↔ slot ∈ e.log.drop e.log.length
        have := hbounded slot
        simp only [List.drop_length, List.not_mem_nil, iff_false]
        omega
      · exact hmarks.marked f hf slot
    · exact hmarks.logged
  · constructor
    · intro f hf slot
      rw [hscopes] at hf
      obtain rfl | hf := List.mem_cons.1 hf
      · show slot ∈ e.log.drop e.log.length ↔ slot ∈ e.noted.drop e.noted.length
        simp
      · exact hexact.inScope f hf slot
    · exact hexact.complete

/-- What is left of the scopes when the innermost frame closes. -/
theorem scopes_of_frames {closed : Frame} {outer : List Frame}
    (hframes : e.frames = closed :: outer)
    (taint : Option Nat) :
    e.scopes = closed.toScope ::
      { e with frames := inheritTaint taint outer }.scopes := by
  simp [scopes, hframes, toScope_inheritTaint, outermost]

theorem records_closeFrame (h : Records counter table (e :: rest)) {closed : Frame}
    {outer : List Frame} (hframes : e.frames = closed :: outer) (taint : Option Nat) :
    Records counter table
      ({ e with frames := inheritTaint taint outer } :: rest) := by
  obtain ⟨hmarks, hexact, hnested, hrest⟩ := h
  have hscopes := scopes_of_frames hframes taint
  have hmem : ∀ f ∈ { e with frames := inheritTaint taint outer }.scopes,
      f ∈ e.scopes := by
    intro f hf
    rw [hscopes]
    exact .tail _ hf
  refine ⟨?_, ⟨fun f hf => hexact.inScope f (hmem f hf), hexact.complete⟩,
    ⟨hnested.shares, hnested.younger⟩, hrest⟩
  have hordered := hmarks.ordered
  rw [hscopes] at hordered
  exact
    { bounded := hmarks.bounded
      ordered := hordered.tail
      opened := fun f hf => hmarks.opened f (hmem f hf)
      stamped := fun f hf => hmarks.stamped f (hmem f hf)
      marked := fun f hf => hmarks.marked f (hmem f hf)
      logged := hmarks.logged }

end Top

/-! ## §6. Evaluations start and stop -/

section Stack

variable {counter : Nat} {table : Stamps}

/-- An evaluation that begins or resumes: it has no open frame, and what it logged earlier
    is kept. -/
structure Resting (e : Evaluation) : Prop where
  closed : e.frames = []
  logged : ∀ slot ∈ e.log, slot ∈ e.read
  complete : ∀ slot ∈ e.noted, slot ∈ e.read

/-- **An evaluation starts** under a fresh stamp: every slot reads as not logged by it. -/
theorem records_push (e : Evaluation) (he : Resting e) (hlog : e.logBefore = e.log.length)
    (hnoted : e.notedBefore = e.noted.length) (hstamp : e.stamp = counter + 1)
    (stack : List Evaluation) (hshared : e.shared = if stack = [] then none else some [])
    (h : Records counter table stack) : Records (counter + 1) table (e :: stack) := by
  have hbounded := h.bounded
  have hscopes : e.scopes = [⟨e.log.length, counter + 1, e.noted.length⟩] := by
    simp [scopes, he.closed, outermost, hlog, hnoted, hstamp]
  have hoverwritten : e.overwritten = [] := by
    unfold overwritten
    rw [hshared]
    split <;> rfl
  refine ⟨?_, ?_, ?_, ?_⟩
  · constructor
    · intro slot
      exact (hbounded slot).trans (Nat.le_succ counter)
    · rw [hscopes]
      exact List.pairwise_singleton _ _
    · intro f hf
      rw [hscopes, List.mem_singleton] at hf
      subst hf
      exact ⟨le_rfl, le_rfl⟩
    · intro f hf
      rw [hscopes, List.mem_singleton] at hf
      subst hf
      exact ⟨Nat.succ_pos _, le_rfl⟩
    · intro f hf slot
      rw [hscopes, List.mem_singleton] at hf
      subst hf
      have := hbounded slot
      simp only [List.drop_length, List.not_mem_nil, iff_false]
      omega
    · exact he.logged
  · constructor
    · intro f hf slot
      rw [hscopes, List.mem_singleton] at hf
      subst hf
      simp
    · exact he.complete
  · constructor
    · intro hnone
      rw [hshared] at hnone
      by_contra hne
      simp [hne] at hnone
    · intro below hbelow f hf
      rw [hstamp]
      exact Nat.lt_succ_of_le (h.stamped below hbelow f hf).2
  · rw [hoverwritten]
    exact h.mono (Nat.le_succ counter) stack table

/-- Evaluations that overwrote nothing are discarded with nothing to put back; so are all
    of them. -/
theorem records_discard (rest : List Evaluation) : ∀ (above : List Evaluation) (table : Stamps),
    (rest = [] ∨ ∀ e ∈ above, e.overwritten = []) →
      Records counter table (above ++ rest) → Records counter table rest := by
  intro above
  induction above with
  | nil =>
    intro table _ h
    exact h
  | cons e above ih =>
    intro table hclean h
    obtain rfl | hclean := hclean
    · exact h.bounded
    · have hnone : e.overwritten = [] := hclean e (.head _)
      have hbelow := h.2.2.2
      rw [hnone] at hbelow
      exact ih table (.inr fun other hother => hclean other (.tail _ hother))
        hbelow

end Stack

/-! ## §7. The invariant -/

/-- The evaluations that are recording, suspended or handed back. -/
def Thread.evaluations (t : Thread) : List Evaluation := t.stack ++ t.handedBack

/-- Where the evaluation of a `Recording` stands among the stamps of the stack. -/
def Recording.Fits (r : Recording) (stamps : List Nat) : Prop :=
  ∀ above below, stamps = above ++ r.stamp :: below →
    r.suspended = below.length - 1 ∧ r.suspends = decide (below ≠ [])

/-- **What holds of a memo** handed out on the thread or shared with it. -/
structure Sound (t : Thread) (p : Provenance) : Prop where
  exact : ∀ slot, slot ∈ p.reads ↔ slot ∈ p.noted
  stamped : p.since ≤ t.counter ∧ p.replayedInto ≤ t.counter
  range : p.start ≤ p.stop
  empty : p.start = p.stop → p.reads = []
  held : ∃ handle, t.handles[p.log]? = some handle ∧ handle.Holds p
  own : ∀ e ∈ t.evaluations, e.logHandle = p.log →
    p.stop ≤ e.log.length ∧ slice e.log p.start p.stop = p.reads
  since : ∀ e ∈ t.stack, e.logHandle = p.log → ∀ f ∈ e.scopes, f.stamp ≤ p.since →
    f.start ≤ p.start
  replayed : ∀ e ∈ t.stack, ∀ f ∈ e.scopes, p.replayedInto = f.stamp →
    ∀ slot ∈ p.reads, slot ∈ e.log.drop f.start

/-- **The invariant of the thread.** -/
structure Consistent (t : Thread) : Prop where
  records : Records t.counter t.table t.stack
  idle : t.current = none → t.suspended = []
  recordings : ∀ r ∈ t.recordings, r.stamp ≤ t.counter ∧ r.Fits (t.stack.map Evaluation.stamp)
  resting : ∀ e ∈ t.handedBack, Resting e
  owners : (t.evaluations.map Evaluation.logHandle).Nodup
  bounds : ∀ e ∈ t.evaluations, ∃ handle, t.handles[e.logHandle]? = some handle ∧
    handle.stop ≤ e.log.length
  frozen : ∀ e ∈ t.stack, ∀ handle, t.handles[e.logHandle]? = some handle →
    handle.window.isSome → handle.stop ≤ e.logBefore
  memos : ∀ p ∈ t.memos, Sound t p

/-- A thread that was just lent its table. -/
theorem consistent_lent (counter : Nat) (table : Stamps)
    (hbounded : ∀ slot, table slot ≤ counter) : Consistent (Thread.lent counter table) where
  records := hbounded
  idle _ := rfl
  recordings _ hr := nomatch hr
  resting _ he := nomatch he
  owners := List.nodup_nil
  bounds _ he := nomatch he
  frozen _ he := nomatch he
  memos _ hp := nomatch hp

namespace Consistent

variable {t : Thread} {e : Evaluation}

theorem stack_of_current (hcurrent : t.current = some e) : t.stack = e :: t.suspended := by
  simp [Thread.stack, hcurrent]

theorem mem_evaluations_of_stack (t : Thread) (e : Evaluation) (he : e ∈ t.stack) :
    e ∈ t.evaluations := List.mem_append_left _ he

/-- An evaluation is told by its handle. -/
theorem eq_of_logHandle (h : Consistent t) (e e' : Evaluation) (he : e ∈ t.evaluations)
    (he' : e' ∈ t.evaluations) (hlog : e.logHandle = e'.logHandle) : e = e' :=
  List.inj_on_of_nodup_map h.owners he he' hlog

end Consistent

/-! ## §8. Memos over a step -/

/-- **What every step does to the evaluations**: their logs grow, they are moved about, and
    a scope that is new has a new stamp. -/
structure Follows (t t' : Thread) : Prop where
  counter : t.counter ≤ t'.counter
  owned : ∀ e' ∈ t'.evaluations, t.handles.length ≤ e'.logHandle ∨
    ∃ e ∈ t.evaluations, e'.logHandle = e.logHandle ∧ e.log <+: e'.log
  scopes : ∀ e' ∈ t'.stack, (∀ f ∈ e'.scopes, t.counter < f.stamp) ∨
    ∃ e ∈ t.stack, e'.logHandle = e.logHandle ∧ e.log <+: e'.log ∧
      ∀ f ∈ e'.scopes, f ∈ e.scopes ∨ t.counter < f.stamp

theorem mem_drop_of_longer {log longer : List Slot} (hlonger : log <+: longer) (start : Nat)
    (slot : Slot) (hslot : slot ∈ log.drop start) : slot ∈ longer.drop start := by
  obtain ⟨rest, rfl⟩ := hlonger
  rw [List.drop_append]
  exact List.mem_append_left _ hslot

/-- **A sound memo stays sound**, if its handle goes on holding it. -/
theorem Sound.follow {t t' : Thread} {p : Provenance} (h : Sound t p) (hfollows : Follows t t')
    (hheld : ∃ handle, t'.handles[p.log]? = some handle ∧ handle.Holds p) : Sound t' p where
  exact := h.exact
  stamped := ⟨h.stamped.1.trans hfollows.counter, h.stamped.2.trans hfollows.counter⟩
  range := h.range
  empty := h.empty
  held := hheld
  own e' he' hlog := by
    obtain hnew | ⟨e, he, hsame, hlonger⟩ := hfollows.owned e' he'
    · -- the handle of a new evaluation holds no memo yet
      obtain ⟨handle, hhandle, -⟩ := h.held
      have := (List.getElem?_eq_some_iff.1 hhandle).1
      omega
    · obtain ⟨hstop, hreads⟩ := h.own e he (hsame.symm.trans hlog)
      exact ⟨hstop.trans hlonger.length_le, (slice_of_longer hlonger _ _ hstop).trans hreads⟩
  since e' he' hlog f hf hstamp := by
    have hnew : ¬ t.counter < f.stamp := Nat.not_lt.2 (hstamp.trans h.stamped.1)
    obtain hfresh | ⟨e, he, hsame, -, hscopes⟩ := hfollows.scopes e' he'
    · exact absurd (hfresh f hf) hnew
    · obtain hf | hf := hscopes f hf
      · exact h.since e he (hsame.symm.trans hlog) f hf hstamp
      · exact absurd hf hnew
  replayed e' he' f hf hstamp slot hslot := by
    have hnew : ¬ t.counter < f.stamp := Nat.not_lt.2 (hstamp ▸ h.stamped.2)
    obtain hfresh | ⟨e, he, -, hlonger, hscopes⟩ := hfollows.scopes e' he'
    · exact absurd (hfresh f hf) hnew
    · obtain hf | hf := hscopes f hf
      · exact mem_drop_of_longer hlonger _ slot (h.replayed e he f hf hstamp slot hslot)
      · exact absurd hf hnew

namespace Consistent

variable {t : Thread} {e : Evaluation}

/-! ## §9. The current evaluation changes -/

section

variable (h : Consistent t) (hcurrent : t.current = some e)
include h hcurrent

/-- **The current evaluation goes on**: it keeps its stamp and its handle, its log grows, and
    its scopes are old ones or new ones. -/
theorem goesOn (counter' : Nat)
    (table' : Stamps) (e' : Evaluation) (hcounter : t.counter ≤ counter')
    (hrecords : Records counter' table' (e' :: t.suspended)) (hstamp : e'.stamp = e.stamp)
    (hlogHandle : e'.logHandle = e.logHandle) (hlogBefore : e'.logBefore = e.logBefore)
    (hgrown : e.log <+: e'.log)
    (hscopes : ∀ f ∈ e'.scopes, f ∈ e.scopes ∨ t.counter < f.stamp) :
    Consistent { t with counter := counter', table := table', current := some e' } := by
  have hstack : t.stack = e :: t.suspended := stack_of_current hcurrent
  have hmem : e ∈ t.stack := by
    rw [hstack]
    exact .head _
  have hrest : ∀ other ∈ t.suspended, other ∈ t.stack := by
    intro other hother
    rw [hstack]
    exact .tail _ hother
  -- the evaluations are those of before, with `e'` in the place of `e`
  have hevaluations : ∀ other ∈ (e' :: t.suspended) ++ t.handedBack,
      other = e' ∨ other ∈ t.evaluations := by
    intro other hother
    obtain rfl | hother := List.mem_cons.1 hother
    · exact .inl rfl
    · right
      unfold Thread.evaluations
      rw [hstack]
      exact .tail _ hother
  have hfollows :
      Follows t { t with counter := counter', table := table', current := some e' } := by
    constructor
    · exact hcounter
    · intro other hother
      right
      obtain rfl | hother := hevaluations other hother
      · exact ⟨e, mem_evaluations_of_stack t e hmem, hlogHandle, hgrown⟩
      · exact ⟨other, hother, rfl, List.prefix_refl _⟩
    · intro other hother
      right
      obtain rfl | hother := List.mem_cons.1 hother
      · exact ⟨e, hmem, hlogHandle, hgrown, hscopes⟩
      · exact ⟨other, hrest other hother, rfl, List.prefix_refl _, fun f => .inl⟩
  constructor
  · exact hrecords
  · intro hnone
    simp at hnone
  · intro r hr
    obtain ⟨hle, hfits⟩ := h.recordings r hr
    refine ⟨hle.trans hcounter, ?_⟩
    rw [hstack] at hfits
    show r.Fits ((e' :: t.suspended).map stamp)
    rw [List.map_cons, hstamp]
    exact hfits
  · exact h.resting
  · have howners := h.owners
    unfold Thread.evaluations at howners ⊢
    rw [hstack] at howners
    show (((e' :: t.suspended) ++ t.handedBack).map logHandle).Nodup
    rw [List.cons_append, List.map_cons, hlogHandle]
    exact howners
  · intro other hother
    obtain rfl | hother := hevaluations other hother
    · obtain ⟨handle, hhandle, hstop⟩ := h.bounds e (mem_evaluations_of_stack t e hmem)
      rw [hlogHandle]
      exact ⟨handle, hhandle, hstop.trans hgrown.length_le⟩
    · exact h.bounds other hother
  · intro other hother handle hhandle hwindow
    obtain rfl | hother := List.mem_cons.1 hother
    · rw [hlogBefore]
      rw [hlogHandle] at hhandle
      exact h.frozen e hmem handle hhandle hwindow
    · exact h.frozen other (hrest other hother) handle hhandle hwindow
  · intro p hp
    exact (h.memos p hp).follow hfollows (h.memos p hp).held

/-- **It logs.** -/
theorem logs {slots : List Slot}
    {table' : Stamps} {e' : Evaluation}
    (hlogged : Logged t.counter t.table e slots table' e') :
    Consistent { t with table := table', current := some (e'.note slots) } := by
  have hrecords := h.records
  rw [stack_of_current hcurrent] at hrecords
  exact h.goesOn hcurrent t.counter table' (e'.note slots) le_rfl
    (records_advance hrecords hlogged) hlogged.stamp hlogged.logHandle hlogged.logBefore
    hlogged.grown fun f hf => .inl (hlogged.scopes ▸ hf)

/-- **It opens a frame.** -/
theorem opensFrame :
    Consistent { t with
      counter := t.counter + 1, current := some (e.pushFrame (t.counter + 1)) } := by
  have hrecords := h.records
  rw [stack_of_current hcurrent] at hrecords
  refine h.goesOn hcurrent (t.counter + 1) t.table (e.pushFrame (t.counter + 1))
    (Nat.le_succ _) (records_openFrame hrecords) rfl rfl rfl (List.prefix_refl _) ?_
  intro f hf
  obtain rfl | hf := List.mem_cons.1 hf
  · exact .inr (Nat.lt_succ_self _)
  · exact .inl hf

/-- **It closes its innermost frame.** -/
theorem closesFrame {closed : Frame}
    {outer : List Frame} (hframes : e.frames = closed :: outer) (taint : Option Nat) :
    Consistent { t with
      current := some { e with frames := inheritTaint taint outer } } := by
  have hrecords := h.records
  rw [stack_of_current hcurrent] at hrecords
  refine h.goesOn hcurrent t.counter t.table
    { e with frames := inheritTaint taint outer } le_rfl
    (records_closeFrame hrecords hframes taint) rfl rfl rfl (List.prefix_refl _) ?_
  intro f hf
  left
  rw [scopes_of_frames hframes taint]
  exact .tail _ hf

end

end Consistent

end GluaLs.ReadLog
