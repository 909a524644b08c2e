/-
  GluaLs.ReadLog.Complete — no read is missing from a log.

  Over any run on a thread with one lent table, however deeply its evaluations nest:

    • every slot an evaluation read is in its `read` list,
    • the log from where a frame opened holds EXACTLY what was read or replayed since,
    • once its log is frozen, the handle answers the range of every memo handed out before;
      of a memo handed out later, by an evaluation that ended and was resumed, it answers
      the range or nothing,
    • what an evaluation logs is decided by its own log, and a nested one leaves no trace.

  The runs leave out ONE thing: an evaluation that unwinds, after it logged reads over the
  stamps of an evaluation that goes on, does not put those stamps back.
-/
import GluaLs.ReadLog.Memos

namespace GluaLs.ReadLog

open GluaLs.Lib Consistent LabelledRuns

/-! ## §1. What a step does to the stack

  `StackStep` says once what a step does to the stack and to the stamps.  While an
  evaluation is nested, the table with everything PUT BACK that the evaluations above
  overwrote is the table it was begun over; when the last of them ends, that is the table.
-/

/-- **What a step does to the stamps and to the stack.** -/
inductive StackStep (table : Stamps) (stack : List Evaluation) :
    Stamps → List Evaluation → Prop where
  | same : StackStep table stack table stack
  | goesOn (e e' : Evaluation) (rest : List Evaluation) (table' : Stamps)
      (hstack : stack = e :: rest)
      (hrestored : rest ≠ [] → table'.restored e'.overwritten = table.restored e.overwritten) :
      StackStep table stack table' (e' :: rest)
  | starts (e : Evaluation) (hfresh : e.overwritten = []) : StackStep table stack table (e :: stack)
  | ends (e : Evaluation) (rest : List Evaluation) (hstack : stack = e :: rest) :
      StackStep table stack (table.restored e.overwritten) rest
  | discards (above below : List Evaluation) (hstack : stack = above ++ below)
      (hclean : below = [] ∨ ∀ e ∈ above, e.overwritten = []) :
      StackStep table stack table below

section StackStep

variable {t t' : Thread}

theorem stack_start (t : Thread) (e : Evaluation) :
    StackStep t.table t.stack (t.start e).table (t.start e).stack := by
  apply StackStep.starts
  show ((t.current.map fun _ => ([] : List (Slot × Nat))).getD []) = []
  cases t.current with
  | none => rfl
  | some top => rfl

theorem stackStep_logged {e e' : Evaluation} {slots : List Slot} {table' : Stamps}
    (h : Consistent t) (hcurrent : t.current = some e)
    (hlogged : Logged t.counter t.table e slots table' e') :
    StackStep t.table t.stack table' (e'.note slots :: t.suspended) := by
  have hstack := stack_of_current hcurrent
  apply StackStep.goesOn e (e'.note slots) t.suspended table' hstack
  intro hrest
  have hrecords := h.records
  rw [hstack] at hrecords
  apply hlogged.restored
  cases hshared : e.shared with
  | none => exact absurd (hrecords.2.2.1.shares hshared) hrest
  | some overwritten => rfl

theorem stackStep_suspend {ended : Evaluation × Thread} (hstep : t.suspend = some ended) :
    StackStep t.table t.stack ended.2.table ended.2.stack := by
  obtain ⟨e, hcurrent, -, -, hthread⟩ := suspend_cases hstep
  rw [hthread]
  show StackStep t.table t.stack _ (t.suspended.head?.toList ++ t.suspended.tail)
  rw [toList_head_append_tail]
  exact .ends e t.suspended (stack_of_current hcurrent)

theorem stackStep_closeFrame (hstep : t.closeFrame = some t') :
    StackStep t.table t.stack t'.table t'.stack := by
  unfold Thread.closeFrame at hstep
  cases hcurrent : t.current with
  | none => simp [hcurrent] at hstep
  | some e =>
    have hstack := stack_of_current hcurrent
    cases hframes : e.frames with
    | nil => simp [hcurrent, hframes] at hstep
    | cons closed outer =>
      have hpopped : StackStep t.table t.stack t.table
          ({ e with frames := Evaluation.inheritTaint closed.taint outer } :: t.suspended) :=
        .goesOn e _ t.suspended t.table hstack fun _ => rfl
      simp only [hcurrent, hframes] at hstep
      split at hstep
      · cases hstep
        exact hpopped
      · split at hstep
        · cases hstep
          exact hpopped
        · cases hstep

/-- **Every step is a step of the stack.** -/
theorem stackStep_of_step (label : Label) (h : Consistent t)
    (hclean : unwindsUnlogged t label = true) (hstep : step t label = some t') :
    StackStep t.table t.stack t'.table t'.stack := by
  cases label with
  | begin =>
    cases hstep
    exact stack_start _ _
  | resume i =>
    have hstep : t.resume i = some t' := hstep
    unfold Thread.resume at hstep
    split at hstep
    · cases hstep
      exact stack_start _ _
    · cases hstep
  | suspend =>
    obtain ⟨ended, hended, rfl⟩ := Option.map_eq_some_iff.1 hstep
    exact stackStep_suspend hended
  | finish =>
    obtain ⟨ended, hended, hback⟩ := Option.bind_eq_some_iff.1 hstep
    obtain ⟨frozen, hfrozen, rfl⟩ := Option.map_eq_some_iff.1 hback
    unfold Thread.freeze at hfrozen
    split at hfrozen
    · cases hfrozen
      exact stackStep_suspend hended
    · cases hfrozen
  | unwind i =>
    obtain ⟨r, hr, rfl⟩ := Option.map_eq_some_iff.1 hstep
    obtain hsame | ⟨above, below, hstack, hdrop, hunlogged⟩ :=
      h.unwind_cases r i hr hclean
    · rw [hsame]
      exact .same
    · rw [hdrop]
      show StackStep t.table t.stack t.table (below.head?.toList ++ below.tail)
      rw [toList_head_append_tail]
      exact .discards above below hstack hunlogged
  | openFrame =>
    have hstep : t.openFrame = some t' := hstep
    unfold Thread.openFrame at hstep
    cases hcurrent : t.current with
    | none => simp [hcurrent] at hstep
    | some e =>
      simp only [hcurrent] at hstep
      split at hstep
      · cases hstep
        exact .goesOn e _ t.suspended t.table
          (stack_of_current hcurrent) fun _ => rfl
      · cases hstep
  | closeFrame => exact stackStep_closeFrame hstep
  | taint base =>
    obtain ⟨e, hcurrent, rfl⟩ := Option.map_eq_some_iff.1 hstep
    have hrecords := h.records
    rw [stack_of_current hcurrent] at hrecords
    have hdone := stackStep_logged h hcurrent (logged_taintScoped hrecords.1 base)
    simp only [Evaluation.note, List.append_nil] at hdone
    exact hdone
  | read slot taints =>
    obtain ⟨e, hcurrent, rfl⟩ := Option.map_eq_some_iff.1 hstep
    exact stackStep_logged h hcurrent (h.logged_read hcurrent slot taints)
  | reuse i =>
    obtain rfl | ⟨e, p, table', e', memos', hcurrent, -, hlogged, rfl, -⟩ :=
      h.reuse_cases i hstep
    · exact .same
    · exact stackStep_logged h hcurrent hlogged
  | share reads | stampElsewhere =>
    cases hstep
    exact .same

end StackStep

/-! ## §2. What is left when a nested evaluation is over -/

/-- The table once every evaluation of `above` has put back what it overwrote. -/
def Stamps.unwound (table : Stamps) (above : List Evaluation) : Stamps :=
  above.foldl (fun table e => table.restored e.overwritten) table

theorem unwound_of_unlogged (table : Stamps) (above rest : List Evaluation)
    (h : ∀ e ∈ above, e.overwritten = []) : table.unwound (above ++ rest) = table.unwound rest := by
  induction above with
  | nil => rfl
  | cons e above ih =>
    show (table.restored e.overwritten).unwound (above ++ rest) = table.unwound rest
    rw [h e List.mem_cons_self]
    exact ih (List.forall_mem_cons.1 h).2

/-- **A step above `base` keeps the table that `base` will see**, and `base`. -/
theorem unwound_step {table table' : Stamps} {stack stack' base : List Evaluation}
    (h : StackStep table stack table' stack') (above : List Evaluation)
    (hstack : stack = above ++ base) (habove : above ≠ []) (hbase : base ≠ [])
    (hlength : base.length ≤ stack'.length) :
    ∃ above', stack' = above' ++ base ∧ table'.unwound above' = table.unwound above := by
  obtain ⟨top, above, rfl⟩ := List.exists_cons_of_ne_nil habove
  cases h with
  | same => exact ⟨top :: above, hstack, rfl⟩
  | goesOn e e' rest table' htop hrestored =>
    rw [htop, List.cons_append, List.cons.injEq] at hstack
    obtain ⟨rfl, rfl⟩ := hstack
    refine ⟨e' :: above, rfl, ?_⟩
    show (table'.restored e'.overwritten).unwound above = _
    rw [hrestored (by simp [hbase])]
    rfl
  | starts e hfresh =>
    refine ⟨e :: top :: above, by rw [hstack]; rfl, ?_⟩
    show (table.restored e.overwritten).unwound (top :: above) = _
    rw [hfresh]
    rfl
  | ends e rest htop =>
    rw [htop, List.cons_append, List.cons.injEq] at hstack
    obtain ⟨rfl, rfl⟩ := hstack
    exact ⟨above, rfl, rfl⟩
  | discards gone below htop hclean =>
    -- what is left is at least `base`, so what is gone was above it
    obtain hclean | hclean := hclean
    · rw [hclean] at hlength
      exact absurd (List.length_eq_zero_iff.1 (Nat.le_zero.1 hlength)) hbase
    · obtain ⟨left, habove, hbelow⟩ : ∃ left, top :: above = gone ++ left ∧
          stack' = left ++ base := by
        rw [htop] at hstack
        obtain ⟨left, hgone, hbase'⟩ | ⟨left, habove, hbelow⟩ :=
          List.append_eq_append_iff.1 hstack
        · exact ⟨left, hgone, hbase'⟩
        · have hnil : left = [] := by
            apply List.length_eq_zero_iff.1
            rw [hbelow, List.length_append] at hlength
            omega
          subst hnil
          exact ⟨[], by simpa using habove.symm, by simpa using hbelow.symm⟩
      refine ⟨left, hbelow, ?_⟩
      rw [habove, unwound_of_unlogged table gone left hclean]

/-! ## §3. Nested runs -/

/-- The rest of a run nested over `depth` evaluations: it is over when they are all that is
    left. -/
inductive Inside (depth : Nat) : Thread → List Label → Thread → Prop where
  | last (t : Thread) (label : Label) (t' : Thread) (hstep : step t label = some t')
      (hover : t'.stack.length = depth) : Inside depth t [label] t'
  | more (t : Thread) (label : Label) (t₁ : Thread) (labels : List Label) (t' : Thread)
      (hstep : step t label = some t₁) (habove : depth < t₁.stack.length)
      (hrest : Inside depth t₁ labels t') : Inside depth t (label :: labels) t'

/-- **A nested run**: an evaluation begins or resumes over the evaluations of `t`, and the
    run is over when it, and whatever began inside it, ended or unwound. -/
inductive NestedRun (t : Thread) : List Label → Thread → Prop where
  | starts (label : Label) (t₁ : Thread) (labels : List Label) (t' : Thread)
      (hstep : step t label = some t₁) (habove : t.stack.length < t₁.stack.length)
      (hinside : Inside t.stack.length t₁ labels t') : NestedRun t (label :: labels) t'

/-- What a step that meets the condition keeps, as the run goes on. -/
theorem everyStep_cons {t t' : Thread} {label : Label} {labels : List Label}
    (hstep : step t label = some t')
    (h : everyStep step unwindsUnlogged (label :: labels) t = true) :
    unwindsUnlogged t label = true ∧
      everyStep step unwindsUnlogged labels t' = true := by
  simpa [everyStep, hstep] using h

theorem inside_restores {base : List Evaluation} (hbase : base ≠ []) {labels : List Label}
    {t t' : Thread} (hinside : Inside base.length t labels t') :
    Consistent t → everyStep step unwindsUnlogged labels t = true →
      ∀ above, above ≠ [] → t.stack = above ++ base →
        t'.stack = base ∧ t'.table = t.table.unwound above := by
  induction hinside with
  | last t label t' hstep hover =>
    intro h hclean above habove hstack
    have hclean := (everyStep_cons hstep hclean).1
    obtain ⟨above', hstack', htable⟩ := unwound_step (stackStep_of_step label h hclean hstep)
      above hstack habove hbase hover.ge
    have hnil : above' = [] := by
      apply List.length_eq_zero_iff.1
      rw [hstack', List.length_append] at hover
      omega
    subst hnil
    exact ⟨hstack', htable⟩
  | more t label t₁ labels t' hstep hdeep _ ih =>
    intro h hclean above habove hstack
    obtain ⟨hlabel, hrest⟩ := everyStep_cons hstep hclean
    obtain ⟨above', hstack', htable⟩ := unwound_step (stackStep_of_step label h hlabel hstep)
      above hstack habove hbase hdeep.le
    have habove' : above' ≠ [] := by
      intro hnil
      rw [hstack', hnil] at hdeep
      exact Nat.lt_irrefl _ hdeep
    obtain ⟨hfinal, htable'⟩ :=
      ih (consistent_step t label t₁ h hlabel hstep) hrest above' habove' hstack'
    exact ⟨hfinal, htable'.trans htable⟩

/-- **A nested run leaves no trace**: the suspended evaluations and the stamps are what they
    were. -/
theorem nested_restores {t t' : Thread} {labels : List Label} (h : Consistent t)
    (hsuspends : t.stack ≠ []) (hnested : NestedRun t labels t')
    (hclean : everyStep step unwindsUnlogged labels t = true) :
    t'.stack = t.stack ∧ t'.table = t.table := by
  cases hnested with
  | starts label t₁ labels _ hstep habove hinside =>
    obtain ⟨hlabel, hrest⟩ := everyStep_cons hstep hclean
    have hstarted : ∃ e, t₁.stack = e :: t.stack ∧ e.overwritten = [] ∧
        t₁.table = t.table := by
      have hstack := stackStep_of_step label h hlabel hstep
      generalize t₁.table = table₁ at hstack ⊢
      generalize t₁.stack = stack₁ at hstack habove ⊢
      cases hstack with
      | same => exact absurd habove (Nat.lt_irrefl _)
      | goesOn e e' rest _ htop =>
        rw [htop] at habove
        exact absurd habove (Nat.lt_irrefl _)
      | starts e hfresh => exact ⟨e, rfl, hfresh, rfl⟩
      | ends e rest htop =>
        rw [htop, List.length_cons] at habove
        omega
      | discards gone below htop =>
        rw [htop, List.length_append] at habove
        omega
    obtain ⟨e, hstack, hfresh, htable⟩ := hstarted
    obtain ⟨hfinal, htable'⟩ := inside_restores hsuspends hinside
      (consistent_step t label t₁ h hlabel hstep) hrest [e] (by simp) hstack
    refine ⟨hfinal, ?_⟩
    rw [htable', htable]
    show t.table.restored e.overwritten = t.table
    rw [hfresh]
    rfl

/-! ## §4. No read is missing from a log -/

/-- A run whose unwinds leave nothing to put back ends consistent. -/
theorem consistent_run (labels : List Label) : ∀ (t t' : Thread), Consistent t →
    everyStep step unwindsUnlogged labels t = true → run labels t = some t' →
      Consistent t' := by
  induction labels with
  | nil =>
    intro t t' h _ hrun
    cases hrun
    exact h
  | cons label labels ih =>
    intro t t' h hclean hrun
    rw [run, run_cons] at hrun
    obtain ⟨t₁, hstep, hrest⟩ := Option.bind_eq_some_iff.1 hrun
    obtain ⟨hlabel, hlabels⟩ := everyStep_cons hstep hclean
    exact ih t₁ t' (consistent_step t label t₁ h hlabel hstep) hlabels hrest

namespace Consistent

variable {t t' : Thread}

/-- Every slot an evaluation read is in its `read` list. -/
theorem read_complete (h : Consistent t) (e : Evaluation) (he : e ∈ t.evaluations)
    (slot : Slot) (hslot : slot ∈ e.noted) : slot ∈ e.read := by
  obtain he | he := List.mem_append.1 he
  · obtain ⟨table, -, hexact⟩ := h.records.mem t.stack t.table e he
    exact hexact.complete slot hslot
  · exact (h.resting e he).complete slot hslot

/-- The log from where a frame opened is what was read or replayed since. -/
theorem frame_exact (h : Consistent t) (e : Evaluation) (he : e ∈ t.stack) (frame : Frame)
    (hframe : frame ∈ e.frames) (slot : Slot) :
    slot ∈ slice e.log frame.start e.log.length ↔ slot ∈ e.noted.drop frame.noted := by
  obtain ⟨table, -, hexact⟩ := h.records.mem t.stack t.table e he
  rw [slice_to_end]
  apply hexact.inScope frame.toScope
  exact List.mem_append_left _ (List.mem_map_of_mem hframe)

/-- What the handle of a frozen log answers for a memo. -/
theorem handle_reads (h : Consistent t) (p : Provenance) (hp : p ∈ t.memos)
    (handle : LogHandle) (hhandle : t.handles[p.log]? = some handle)
    (hfrozen : handle.window.isSome) :
    (p.late = false → handle.reads p.start p.stop = some p.reads) ∧
      (p.late = true → handle.reads p.start p.stop = none ∨
        handle.reads p.start p.stop = some p.reads) := by
  have hsound := h.memos p hp
  obtain ⟨found, hfound, hheld⟩ := hsound.held
  obtain rfl : found = handle := Option.some.inj (hfound.symm.trans hhandle)
  exact ⟨LogHandle.reads_early hheld hsound.range hsound.empty hfrozen,
    LogHandle.reads_late hheld hfrozen⟩

/-- The log of an evaluation that ends is frozen. -/
theorem finish_freezes (h : Consistent t) (e : Evaluation) (hcurrent : t.current = some e)
    (hstep : step t .finish = some t') :
    ∃ handle, t'.handles[e.logHandle]? = some handle ∧ handle.window.isSome := by
  obtain ⟨ended, hended, hback⟩ := Option.bind_eq_some_iff.1 hstep
  obtain ⟨e', hcurrent', -, hevaluation, hthread⟩ := suspend_cases hended
  obtain rfl : e' = e := Option.some.inj (hcurrent'.symm.trans hcurrent)
  obtain ⟨frozen, hfrozen, rfl⟩ := Option.map_eq_some_iff.1 hback
  have hmem : e' ∈ t.evaluations := by
    apply mem_evaluations_of_stack
    simp [stack_of_current hcurrent]
  obtain ⟨handle, hhandle, -⟩ := h.bounds e' hmem
  unfold Thread.freeze at hfrozen
  split at hfrozen
  · cases hfrozen
    refine ⟨handle.freeze e'.log, ?_, ?_⟩
    · show (ended.2.handles.modify ended.1.logHandle _)[e'.logHandle]? = _
      rw [hevaluation, hthread, List.getElem?_modify, hhandle]
      simp
    · unfold LogHandle.freeze
      split
      · assumption
      · rfl
  · cases hfrozen

/-- **What an evaluation logs is decided by its own log**: a slot it reads, or a memo of
    slots it reuses, is appended where the log of its innermost scope does not hold it. -/
theorem logs_by_own_log (h : Consistent t) (e : Evaluation) (hcurrent : t.current = some e) :
    (∀ slot taints, step t (.read slot taints) = some t' →
      t'.current.map Evaluation.log = some (appended e.innermost.start e.log [slot])) ∧
    (∀ i p, t.memos[i]? = some p → step t (.reuse i) = some t' →
      t' = t ∨ t'.current.map Evaluation.log =
        some (appended e.innermost.start e.log p.reads)) := by
  constructor
  · intro slot taints hstep
    obtain ⟨e', hcurrent', rfl⟩ := Option.map_eq_some_iff.1 hstep
    obtain rfl : e' = e := Option.some.inj (hcurrent'.symm.trans hcurrent)
    exact congrArg some (h.logged_read hcurrent slot taints).log
  · intro i p hp hstep
    obtain hsame | ⟨e', p', table', logged, memos', hcurrent', hp', hlogged, rfl, -⟩ :=
      h.reuse_cases i hstep
    · exact .inl hsame
    · obtain rfl : e' = e := Option.some.inj (hcurrent'.symm.trans hcurrent)
      obtain rfl : p' = p := Option.some.inj (hp'.symm.trans hp)
      exact .inr (congrArg some hlogged.log)

end Consistent

/-- **Read-log completeness.**  On a thread with a lent table, in every state of every run
    whose unwinds leave nothing to put back. -/
theorem read_log_complete (counter : Nat) (table : Stamps)
    (hstamps : ∀ slot, table slot ≤ counter) (labels : List Label) (t : Thread)
    (hunwinds : LabelledRuns.everyStep step unwindsUnlogged labels
      (Thread.lent counter table) = true) (hrun : run labels (Thread.lent counter table) = some t) :
    -- every slot an evaluation read is in its `read` list
    (∀ e ∈ t.evaluations, ∀ slot ∈ e.noted, slot ∈ e.read) ∧
    -- a frame that closes has logged exactly what was read or replayed while it was open,
    -- and so has the memo it hands out
    (∀ e ∈ t.stack, ∀ frame ∈ e.frames, ∀ slot,
      slot ∈ slice e.log frame.start e.log.length ↔ slot ∈ e.noted.drop frame.noted) ∧
    (∀ p ∈ t.memos, ∀ slot, slot ∈ p.reads ↔ slot ∈ p.noted) ∧
    -- an evaluation that ends freezes its log, and a frozen log answers the memos
    (∀ e t', t.current = some e → step t .finish = some t' →
      ∃ handle, t'.handles[e.logHandle]? = some handle ∧ handle.window.isSome) ∧
    (∀ p ∈ t.memos, ∀ handle, t.handles[p.log]? = some handle → handle.window.isSome →
      (p.late = false → handle.reads p.start p.stop = some p.reads) ∧
      (p.late = true → handle.reads p.start p.stop = none ∨
        handle.reads p.start p.stop = some p.reads)) ∧
    -- an evaluation logs by its own log, and a nested run leaves no trace
    (∀ e t', t.current = some e →
      (∀ slot taints, step t (.read slot taints) = some t' →
        t'.current.map Evaluation.log = some (appended e.innermost.start e.log [slot])) ∧
      (∀ i p, t.memos[i]? = some p → step t (.reuse i) = some t' →
        t' = t ∨ t'.current.map Evaluation.log =
          some (appended e.innermost.start e.log p.reads))) ∧
    (∀ nested t', t.stack ≠ [] → NestedRun t nested t' →
      LabelledRuns.everyStep step unwindsUnlogged nested t = true →
        t'.stack = t.stack ∧ t'.table = t.table) := by
  have h : Consistent t :=
    consistent_run labels _ t (consistent_lent counter table hstamps) hunwinds hrun
  refine ⟨h.read_complete, h.frame_exact, fun p hp => (h.memos p hp).exact, ?_, ?_, ?_, ?_⟩
  · exact fun e t' hcurrent hstep => h.finish_freezes e hcurrent hstep
  · exact h.handle_reads
  · exact fun e t' hcurrent => h.logs_by_own_log e hcurrent
  · exact fun nested t' hsuspends hnested hclean => nested_restores h hsuspends hnested hclean

/-- An evaluation that nests another in a frame, and one that unwinds before it read. -/
def nestedRun : List Label :=
  [.begin, .openFrame, .read 4 false, .begin, .read 4 false, .finish, .begin, .unwind 2,
    .read 5 false, .closeFrame, .finish]

/-- At that run: the memo of the frame is answered whole. -/
theorem read_log_complete_nested :
    ∃ t, run nestedRun (Thread.lent 0 fun _ => 0) = some t ∧
      t.memos.map Provenance.reads = [[4, 5]] ∧
      ∀ p ∈ t.memos, ∀ slot, slot ∈ p.reads ↔ slot ∈ p.noted := by
  refine ⟨_, rfl, rfl, ?_⟩
  exact (read_log_complete 0 (fun _ => 0) (fun _ => le_rfl) nestedRun _ rfl rfl).2.2.1

/-- A memo handed out by an evaluation that ended and was resumed. -/
def resumedRun : List Label :=
  [.begin, .finish, .resume 0, .openFrame, .read 7 false, .closeFrame, .finish]

/-- **It is not answered**: the log was frozen before it was computed. -/
theorem resumed_memo_unanswered :
    ∃ t, run resumedRun (Thread.lent 0 fun _ => 0) = some t ∧
      (t.stack.isEmpty ∧ t.handedBack.map Evaluation.log = [[7]]) ∧
      ∃ p ∈ t.memos, p.reads = [7] ∧
        ¬ (t.handles[p.log]?.bind fun handle => handle.reads p.start p.stop) = some p.reads :=
  ⟨_, rfl, ⟨rfl, rfl⟩, _, List.mem_singleton_self _, rfl, by decide⟩

end GluaLs.ReadLog
