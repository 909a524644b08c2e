/-
  GluaLs.ReadLog.Memos — memos are handed out and replayed, and every step is consistent.

  A frame that closes hands out a memo of its range.  A memo that is reused is replayed
  into the innermost scope, unless that scope holds its reads: because they were computed
  in it, or because they were replayed into it before.  With that, `consistent_step`: every
  step keeps the thread consistent, the drop of a `Recording` while unwinding only if what
  it discards overwrote nothing.
-/
import GluaLs.ReadLog.Steps

namespace GluaLs.ReadLog

/-! ## §1. Memos are handed out and reused -/

namespace Consistent

variable {t t' : Thread} {e : Evaluation}

/-- A frame that closes covers its range and hands out its memo. -/
theorem handsOut (h : Consistent t) (hcurrent : t.current = some e) {closed : Frame}
    {outer : List Frame} (hframes : e.frames = closed :: outer) :
    Consistent { t with
      current := some { e with frames := Evaluation.inheritTaint closed.taint outer }
      handles := t.handles.modify e.logHandle fun handle =>
        handle.cover closed.start e.log.length
      memos := t.memos ++ [t.provenance e closed] } := by
  have hrecords := h.records
  rw [stack_of_current hcurrent] at hrecords
  obtain ⟨hmarks, hexact, -, -⟩ := hrecords
  have hscopes := scopes_of_frames hframes closed.taint
  have hclosed : closed.toScope ∈ e.scopes := by
    rw [hscopes]
    exact .head _
  have hpopped := h.closesFrame hcurrent hframes closed.taint
  obtain ⟨popped, hpop⟩ : ∃ popped : Evaluation,
    popped = { e with frames := Evaluation.inheritTaint closed.taint outer } := ⟨_, rfl⟩
  have hlog : popped.log = e.log := by rw [hpop]
  have hlogHandle : popped.logHandle = e.logHandle := by rw [hpop]
  have hstart : ∀ f ∈ popped.scopes, f.start ≤ closed.start := by
    intro f hf
    have hordered := hmarks.ordered
    rw [hscopes, ← hpop, List.pairwise_cons] at hordered
    exact (hordered.1 f hf).2
  rw [← hpop] at hpopped hscopes ⊢
  have hmem : popped ∈ ({ t with current := some popped } : Thread).evaluations :=
    (.head _)
  have hstack : popped ∈ ({ t with current := some popped } : Thread).stack :=
    (.head _)
  obtain ⟨handle, hhandle, hbound⟩ := hpopped.bounds popped hmem
  have hcovered := hpopped.regrasps hmem
    (fun handle => handle.cover closed.start e.log.length)
    (fun found _ p _ _ hheld => hheld.cover _ _)
    (by
      intro found _ hstop
      rw [hlog] at hstop ⊢
      unfold LogHandle.cover
      split
      · exact hstop
      · show (if _ then _ else _) ≤ _
        split
        · exact le_rfl
        · exact hstop)
    (by
      intro _ found hfound hwindow
      cases hnone : found.window with
      | none =>
        rw [(LogHandle.cover_unfrozen closed.start e.log.length hnone).1] at hwindow
        simp at hwindow
      | some window =>
        have hsome : found.window.isSome := by simp [hnone]
        rw [LogHandle.cover_frozen _ _ hsome]
        exact hpopped.frozen popped hstack found hfound hsome)
  rw [hlogHandle] at hcovered hhandle
  have hempty : closed.start = e.log.length → slice e.log closed.start e.log.length = [] := by
    intro heq
    rw [heq]
    exact slice_empty _ _
  refine hcovered.remembers (t.provenance e closed) ?_
  constructor
  · intro slot
    show slot ∈ slice e.log closed.start e.log.length ↔ slot ∈ e.noted.drop closed.noted
    rw [slice_to_end]
    exact hexact.inScope closed.toScope hclosed slot
  · exact ⟨(hmarks.stamped _ hclosed).2, Nat.zero_le _⟩
  · exact (hmarks.opened _ hclosed).1
  · exact hempty
  · refine ⟨handle.cover closed.start e.log.length, ?_, ?_⟩
    · show (t.handles.modify e.logHandle _)[e.logHandle]? = _
      rw [List.getElem?_modify, show t.handles[e.logHandle]? = some handle from hhandle]
      simp
    · apply LogHandle.holds_covered handle (t.provenance e closed)
      · show (t.handles[e.logHandle]?.any fun handle => handle.window.isSome) = _
        rw [show t.handles[e.logHandle]? = some handle from hhandle]
        rfl
      · exact (hmarks.opened _ hclosed).1
      · exact hempty
      · intro hwindow
        -- a frame opens no earlier than its evaluation began to record
        have hfrozen := hpopped.frozen popped hstack handle (hlogHandle ▸ hhandle) hwindow
        exact hfrozen.trans (hstart popped.outermost popped.outermost_mem)
  · intro other hother hsame
    obtain rfl := hcovered.eq_of_logHandle other popped hother hmem (hsame.trans hlogHandle.symm)
    show e.log.length ≤ other.log.length ∧
      slice other.log closed.start e.log.length = slice e.log closed.start e.log.length
    rw [hlog]
    exact ⟨le_rfl, rfl⟩
  · intro other hother hsame f hf _
    obtain rfl := hcovered.eq_of_logHandle other popped (List.mem_append_left _ hother) hmem
      (hsame.trans hlogHandle.symm)
    exact hstart f hf
  · intro other hother f hf hzero
    have := (hcovered.records.stamped other hother f hf).1
    have hzero : 0 = f.stamp := hzero
    omega

/-- A memo from elsewhere comes with the window that holds it. -/
theorem shares (h : Consistent t) (reads : List Slot) : Consistent (t.share reads) := by
  refine (h.allocates ⟨0, reads.length, some reads⟩).remembers
    ⟨t.handles.length, 0, reads.length, t.counter, 0, reads, reads, false⟩ ?_
  have hnew : ∀ e ∈ t.evaluations, e.logHandle ≠ t.handles.length := by
    intro e he
    obtain ⟨handle, hhandle, -⟩ := h.bounds e he
    exact Nat.ne_of_lt (List.getElem?_eq_some_iff.1 hhandle).1
  constructor
  · exact fun _ => .rfl
  · exact ⟨le_rfl, Nat.zero_le _⟩
  · exact Nat.zero_le _
  · exact fun heq => List.eq_nil_of_length_eq_zero heq.symm
  · refine ⟨⟨0, reads.length, some reads⟩, by simp, ?_⟩
    constructor
    · exact fun hnone => by simp at hnone
    · intro window hwindow _
      obtain rfl : reads = window := Option.some.inj hwindow
      exact ⟨le_rfl, le_rfl, le_rfl, slice_to_end reads 0⟩
    · exact fun _ hlate => by simp at hlate
  · exact fun e he hsame => absurd hsame (hnew e he)
  · exact fun e he hsame => absurd hsame (hnew e (mem_evaluations_of_stack t e he))
  · intro e he f hf hzero
    have := (h.records.stamped e he f hf).1
    have hzero : 0 = f.stamp := hzero
    omega

end Consistent

/-- What the handle of a log answers for a memo is the memo's reads. -/
theorem Sound.reads_eq {t : Thread} {p : Provenance} (h : Sound t p) (reads : List Slot)
    (hreads : (t.handles[p.log]?.bind fun handle => handle.reads p.start p.stop) = some reads) :
    reads = p.reads := by
  obtain ⟨handle, hhandle, hheld⟩ := h.held
  rw [hhandle] at hreads
  have hreads : handle.reads p.start p.stop = some reads := hreads
  have hwindow : handle.window.isSome := by
    cases hwindow : handle.window with
    | none => simp [LogHandle.reads, hwindow] at hreads
    | some window => rfl
  cases hlate : p.late with
  | false =>
    rw [LogHandle.reads_early hheld h.range h.empty hwindow hlate] at hreads
    exact (Option.some.inj hreads).symm
  | true =>
    obtain hnone | hsome := LogHandle.reads_late hheld hwindow hlate
    · rw [hnone] at hreads
      cases hreads
    · rw [hsome] at hreads
      exact (Option.some.inj hreads).symm

namespace Consistent

variable {t t' : Thread} {e : Evaluation}

/-- A read logs its slot, and may taint the innermost frame. -/
theorem logged_read (h : Consistent t) (hcurrent : t.current = some e) (slot : Slot)
    (taints : Bool) :
    Logged t.counter t.table e [slot] (e.logSlot t.table slot).2
      (if taints then (e.logSlot t.table slot).1.taintEvaluation
        else (e.logSlot t.table slot).1) := by
  have hrecords := h.records
  rw [stack_of_current hcurrent] at hrecords
  have hlogged := logged_logSlot hrecords.1 slot
  cases taints with
  | false => exact hlogged
  | true => exact logged_taintEvaluation hlogged

/-- The memo is replayed unless the innermost scope holds it already. -/
theorem logged_replay (h : Consistent t) (hcurrent : t.current = some e) (p : Provenance)
    (hp : p ∈ t.memos) :
    Logged t.counter t.table e p.reads
      (if p.replayedInto ≠ e.frameStamp then e.logSlots t.table p.reads else (e, t.table)).2
      (if p.replayedInto ≠ e.frameStamp then e.logSlots t.table p.reads else (e, t.table)).1 := by
  have hstack := stack_of_current hcurrent
  have hrecords := h.records
  rw [hstack] at hrecords
  split
  · exact logged_logSlots p.reads t.table e hrecords.1
  · rename_i hsame
    apply Logged.already hrecords.1
    have hstamp : p.replayedInto = e.innermost.stamp := by
      rw [← e.frameStamp_eq]
      exact not_not.1 hsame
    exact (h.memos p hp).replayed e (by simp [hstack]) e.innermost e.innermost_mem hstamp

/-- **What a reuse does**: nothing, where its log does not answer; else the innermost scope
    logs the reads of the memo. -/
theorem reuse_cases (h : Consistent t) (i : Nat) (hstep : t.reuse i = some t') :
    t' = t ∨ ∃ e p table' e' memos', t.current = some e ∧ t.memos[i]? = some p ∧
      Logged t.counter t.table e p.reads table' e' ∧
      t' = { t with current := some (e'.note p.reads), table := table', memos := memos' } ∧
      (memos' = t.memos ∨ memos' = t.memos.set i { p with replayedInto := e.frameStamp }) := by
  unfold Thread.reuse at hstep
  cases hcurrent : t.current with
  | none => simp [hcurrent] at hstep
  | some e =>
    cases hp : t.memos[i]? with
    | none => simp [hcurrent, hp] at hstep
    | some p =>
      have hmem : p ∈ t.memos := List.mem_of_getElem? hp
      have hsound := h.memos p hmem
      have hstack : t.stack = e :: t.suspended := stack_of_current hcurrent
      have hon : e ∈ t.stack := by
        rw [hstack]
        exact .head _
      have hreplay := h.logged_replay hcurrent p hmem
      simp only [hcurrent, hp] at hstep
      split at hstep
      · rename_i hown
        have hreads : slice e.log p.start p.stop = p.reads :=
          (hsound.own e (mem_evaluations_of_stack t e hon) hown.symm).2
        rw [hreads] at hstep
        split at hstep
        · cases hstep
          exact .inr ⟨e, p, _, _, _, rfl, rfl, hreplay, rfl, .inr rfl⟩
        · -- computed in the innermost scope: its reads stand in its log
          rename_i hsince
          cases hstep
          have hrecords := h.records
          rw [hstack] at hrecords
          have hle : e.innermost.stamp ≤ p.since := by
            rw [← e.frameStamp_eq]
            exact Nat.le_of_not_lt hsince
          have hstart := hsound.since e hon hown.symm e.innermost e.innermost_mem hle
          have halready : ∀ slot ∈ p.reads, slot ∈ e.log.drop e.innermost.start := by
            rw [← hreads]
            exact mem_slice_of_le e.log p.start p.stop e.innermost.start hstart
          exact .inr ⟨e, p, t.table, e, t.memos, rfl, rfl,
            Logged.already hrecords.1 p.reads halready, rfl, .inl rfl⟩
      · split at hstep
        · rename_i reads hreads
          obtain rfl := hsound.reads_eq reads hreads
          cases hstep
          exact .inr ⟨e, p, _, _, _, rfl, rfl, hreplay, rfl, .inr rfl⟩
        · exact .inl (Option.some.inj hstep).symm

/-- `reuse` -/
theorem reuse (h : Consistent t) (i : Nat) (hstep : t.reuse i = some t') : Consistent t' := by
  obtain rfl | ⟨e, p, table', e', memos', hcurrent, hp, hlogged, rfl, hmemos⟩ :=
    h.reuse_cases i hstep
  · exact h
  · have hnoted := h.logs hcurrent hlogged
    obtain rfl | rfl := hmemos
    · exact hnoted
    · have hinner : (e'.note p.reads).innermost = e.innermost :=
        Evaluation.innermost_eq_of_scopes hlogged.scopes
      have hdone := hnoted.replays rfl i p (List.mem_of_getElem? hp) (by
        intro slot hslot
        rw [hinner]
        exact (hlogged.added e.innermost e.innermost_mem slot).2 (.inr hslot))
      rw [hinner, ← e.frameStamp_eq] at hdone
      exact hdone

/-- `close_frame` -/
theorem closeFrame (h : Consistent t) (hstep : t.closeFrame = some t') : Consistent t' := by
  unfold Thread.closeFrame at hstep
  cases hcurrent : t.current with
  | none => simp [hcurrent] at hstep
  | some e =>
    cases hframes : e.frames with
    | nil => simp [hcurrent, hframes] at hstep
    | cons closed outer =>
      simp only [hcurrent, hframes] at hstep
      split at hstep
      · cases hstep
        exact h.closesFrame hcurrent hframes closed.taint
      · split at hstep
        · cases hstep
          exact h.handsOut hcurrent hframes
        · cases hstep

/-! ## §2. Every step -/

/-- What `suspend` returns. -/
theorem suspend_cases {ended : Evaluation × Thread} (hstep : t.suspend = some ended) :
    ∃ e, t.current = some e ∧ e.frames = [] ∧ ended.1 = { e with shared := none } ∧
      ended.2 = { t with
        table := t.table.restored (e.shared.getD [])
        current := t.suspended.head?
        suspended := t.suspended.tail } := by
  unfold Thread.suspend at hstep
  cases hcurrent : t.current with
  | none => simp [hcurrent] at hstep
  | some e =>
    simp only [hcurrent] at hstep
    split at hstep
    · rename_i hframes
      cases hstep
      exact ⟨e, rfl, hframes, rfl, rfl⟩
    · cases hstep

end Consistent

/-- The evaluations the drop of a recording discards. -/
def Thread.discarded (t : Thread) (r : Recording) : List Evaluation :=
  t.stack.take (t.stack.length - (t.dropRecording r).stack.length)

/-- **Nothing needs putting back**: the evaluations an unwind discards had logged no read
    over the stamps of an evaluation that goes on. -/
def unwindsUnlogged (t : Thread) : Label → Bool
  | .unwind i =>
    match t.recordings[i]? with
    | some r =>
      (t.dropRecording r).stack.isEmpty ||
        (t.discarded r).all fun e => e.overwritten.isEmpty
    | none => true
  | _ => true

/-- What an unwind that meets the condition does. -/
theorem Consistent.unwind_cases {t : Thread} (h : Consistent t) (r : Recording) (i : Nat)
    (hr : t.recordings[i]? = some r) (hclean : unwindsUnlogged t (.unwind i) = true) :
    t.dropRecording r = t ∨ ∃ above below, t.stack = above ++ below ∧
      t.dropRecording r = { t with current := below.head?, suspended := below.tail } ∧
      (below = [] ∨ ∀ e ∈ above, e.overwritten = []) := by
  simp only [unwindsUnlogged, hr] at hclean
  obtain hsame | ⟨above, e, below, hstack, hdrop⟩ :=
    h.dropRecording_cases r (List.mem_of_getElem? hr)
  · exact .inl hsame
  · have hleft : (t.dropRecording r).stack = below := by
      rw [hdrop]
      exact Consistent.toList_head_append_tail below
    have hdiscarded : t.discarded r = above ++ [e] := by
      unfold Thread.discarded
      rw [hleft, hstack, List.length_append, Nat.add_sub_cancel]
      exact List.take_left
    rw [hleft, hdiscarded, Bool.or_eq_true, List.isEmpty_iff, List.all_eq_true] at hclean
    refine .inr ⟨above ++ [e], below, hstack, hdrop, ?_⟩
    exact hclean.imp id fun hall other hother => List.isEmpty_iff.1 (hall other hother)

/-- **Every step keeps the thread consistent.** -/
theorem consistent_step (t : Thread) (label : Label) (t' : Thread) (h : Consistent t)
    (hclean : unwindsUnlogged t label = true) (hstep : step t label = some t') :
    Consistent t' := by
  cases label with
  | begin =>
    cases hstep
    exact h.begins
  | resume i =>
    have hstep : t.resume i = some t' := hstep
    unfold Thread.resume at hstep
    cases hback : t.handedBack[i]? with
    | none => simp [hback] at hstep
    | some e =>
      rw [hback] at hstep
      cases hstep
      exact h.resumes i hback
  | suspend =>
    obtain ⟨ended, hended, rfl⟩ := Option.map_eq_some_iff.1 hstep
    obtain ⟨e, hcurrent, hframes, hevaluation, hthread⟩ := Consistent.suspend_cases hended
    rw [hevaluation, hthread]
    exact h.handsBack hcurrent hframes
  | finish =>
    obtain ⟨ended, hended, hback⟩ := Option.bind_eq_some_iff.1 hstep
    obtain ⟨e, hcurrent, hframes, hevaluation, hthread⟩ := Consistent.suspend_cases hended
    obtain ⟨frozen, hfrozen, rfl⟩ := Option.map_eq_some_iff.1 hback
    unfold Thread.freeze at hfrozen
    split at hfrozen
    · cases hfrozen
      rw [hevaluation, hthread]
      exact (h.handsBack hcurrent hframes).freezes
        (List.mem_append_right _ (List.mem_singleton_self _))
    · cases hfrozen
  | unwind i =>
    obtain ⟨r, hr, rfl⟩ := Option.map_eq_some_iff.1 hstep
    obtain hsame | ⟨above, below, hstack, hdrop, hunlogged⟩ := h.unwind_cases r i hr hclean
    · rw [hsame]
      exact h
    · rw [hdrop]
      exact h.discards above below hstack hunlogged
  | openFrame =>
    have hstep : t.openFrame = some t' := hstep
    unfold Thread.openFrame at hstep
    cases hcurrent : t.current with
    | none => simp [hcurrent] at hstep
    | some e =>
      simp only [hcurrent] at hstep
      split at hstep
      · cases hstep
        exact h.opensFrame hcurrent
      · cases hstep
  | closeFrame => exact h.closeFrame hstep
  | taint base =>
    obtain ⟨e, hcurrent, rfl⟩ := Option.map_eq_some_iff.1 hstep
    have hrecords := h.records
    rw [Consistent.stack_of_current hcurrent] at hrecords
    have hdone := h.logs hcurrent (logged_taintScoped hrecords.1 base)
    simp only [Evaluation.note, List.append_nil] at hdone
    exact hdone
  | read slot taints =>
    obtain ⟨e, hcurrent, rfl⟩ := Option.map_eq_some_iff.1 hstep
    exact h.logs hcurrent (h.logged_read hcurrent slot taints)
  | reuse i => exact h.reuse i hstep
  | share reads =>
    cases hstep
    exact h.shares reads
  | stampElsewhere =>
    cases hstep
    exact h.ticks

end GluaLs.ReadLog
