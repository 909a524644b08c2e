/-
  GluaLs.ReadLog.Steps — every step keeps the thread consistent.

  `Consistent.goesOn` covers what happens to the current evaluation.  This module adds what
  happens to the handles (`regrasps`), to the memos (`remembers`, `replays`) and to the
  stack (`handsBack`, `resumes`, `discards`), and puts the steps together.  The ONE step
  that keeps the invariant only under a condition is the drop of a `Recording` while the
  thread panics: it discards evaluations without putting back what they overwrote.
-/
import GluaLs.ReadLog.Consistent
import Mathlib.Data.List.Perm.Basic

namespace GluaLs.ReadLog

open Thread

/-! ## §1. Handles and memos -/

theorem Follows.of_same {t t' : Thread} (hcounter : t.counter ≤ t'.counter)
    (hstack : t'.stack = t.stack) (hback : t'.handedBack = t.handedBack) : Follows t t' where
  counter := hcounter
  owned e' he' := by
    right
    refine ⟨e', ?_, rfl, List.prefix_refl _⟩
    unfold evaluations at he' ⊢
    rw [hstack, hback] at he'
    exact he'
  scopes e' he' := .inr ⟨e', hstack ▸ he', rfl, List.prefix_refl _, fun f => .inl⟩

namespace Consistent

variable {t : Thread} {e : Evaluation}

/-- **The handle of an evaluation changes**, and goes on holding its memos. -/
theorem regrasps (h : Consistent t) (he : e ∈ t.evaluations) (g : LogHandle → LogHandle)
    (hholds : ∀ handle, t.handles[e.logHandle]? = some handle → ∀ p ∈ t.memos,
      p.log = e.logHandle → handle.Holds p → (g handle).Holds p)
    (hstop : ∀ handle, t.handles[e.logHandle]? = some handle → handle.stop ≤ e.log.length →
      (g handle).stop ≤ e.log.length)
    (hfrozen : e ∈ t.stack → ∀ handle, t.handles[e.logHandle]? = some handle →
      (g handle).window.isSome → (g handle).stop ≤ e.logBefore) :
    Consistent { t with handles := t.handles.modify e.logHandle g } := by
  have hfollows : Follows t { t with handles := t.handles.modify e.logHandle g } :=
    Follows.of_same le_rfl rfl rfl
  -- the handle of every other evaluation is another handle
  have hother : ∀ other ∈ t.evaluations, other ≠ e → e.logHandle ≠ other.logHandle := by
    intro other hmem hne heq
    exact hne (h.eq_of_logHandle other e hmem he heq.symm)
  refine { h with bounds := ?_, frozen := ?_, memos := ?_ }
  · intro other hmem
    obtain ⟨handle, hhandle, hbound⟩ := h.bounds other hmem
    show ∃ handle, (t.handles.modify e.logHandle g)[other.logHandle]? = some handle ∧ _
    rw [List.getElem?_modify, hhandle]
    by_cases hsame : other = e
    · subst hsame
      exact ⟨g handle, by simp, hstop handle hhandle hbound⟩
    · exact ⟨handle, by simp [hother other hmem hsame], hbound⟩
  · intro other hmem handle hhandle hwindow
    have hhandle : (t.handles.modify e.logHandle g)[other.logHandle]? = some handle := hhandle
    rw [List.getElem?_modify] at hhandle
    obtain ⟨before, hbefore, rfl⟩ := Option.map_eq_some_iff.1 hhandle
    by_cases hsame : other = e
    · subst hsame
      simp only [if_true] at hwindow ⊢
      exact hfrozen hmem before hbefore hwindow
    · have hne := hother other (mem_evaluations_of_stack t other hmem) hsame
      simp only [hne, if_false] at hwindow ⊢
      exact h.frozen other hmem before hbefore hwindow
  · intro p hp
    refine (h.memos p hp).follow hfollows ?_
    obtain ⟨handle, hhandle, hheld⟩ := (h.memos p hp).held
    show ∃ handle, (t.handles.modify e.logHandle g)[p.log]? = some handle ∧ _
    rw [List.getElem?_modify, hhandle]
    by_cases hlog : e.logHandle = p.log
    · refine ⟨g handle, by simp [hlog], ?_⟩
      exact hholds handle (hlog ▸ hhandle) p hp hlog.symm hheld
    · exact ⟨handle, by simp [hlog], hheld⟩

/-- **One more memo is handed out.** -/
theorem remembers (h : Consistent t) (p : Provenance) (hsound : Sound t p) :
    Consistent { t with memos := t.memos ++ [p] } := by
  have hfollows : Follows t { t with memos := t.memos ++ [p] } :=
    Follows.of_same le_rfl rfl rfl
  refine { h with memos := ?_ }
  intro other hother
  obtain hother | hother := List.mem_append.1 hother
  · exact (h.memos other hother).follow hfollows (h.memos other hother).held
  · rw [List.mem_singleton.1 hother]
    exact hsound.follow hfollows hsound.held

/-- **A memo was replayed into the innermost scope**, which now holds its reads. -/
theorem replays (h : Consistent t) (hcurrent : t.current = some e) (i : Nat) (p : Provenance)
    (hp : p ∈ t.memos) (hreads : ∀ slot ∈ p.reads, slot ∈ e.log.drop e.innermost.start) :
    Consistent { t with memos := t.memos.set i { p with replayedInto := e.innermost.stamp } } := by
  have hstack : t.stack = e :: t.suspended := stack_of_current hcurrent
  have hrecords := h.records
  rw [hstack] at hrecords
  obtain ⟨hmarks, -, hnested, -⟩ := hrecords
  have hfollows : Follows t
      { t with memos := t.memos.set i { p with replayedInto := e.innermost.stamp } } :=
    Follows.of_same le_rfl rfl rfl
  have hsound := h.memos p hp
  have hreplayed : Sound t { p with replayedInto := e.innermost.stamp } := by
    obtain ⟨handle, hhandle, hheld⟩ := hsound.held
    refine
      { exact := hsound.exact
        stamped := ⟨hsound.stamped.1, (hmarks.stamped e.innermost e.innermost_mem).2⟩
        range := hsound.range
        empty := hsound.empty
        held := ⟨handle, hhandle, hheld.replayed _⟩
        own := hsound.own
        since := hsound.since
        replayed := ?_ }
    intro other hother f hf hstamp slot hslot
    have hstamp : e.innermost.stamp = f.stamp := hstamp
    rw [hstack] at hother
    obtain rfl | hother := List.mem_cons.1 hother
    · -- no other scope of the evaluation has that stamp
      obtain rfl | hlt := hmarks.innermost_max f hf
      · exact hreads slot hslot
      · omega
    · -- and the scopes below are older
      have hyounger := hnested.younger other hother f hf
      have houtermost : e.outermost.stamp ≤ e.innermost.stamp :=
        hmarks.stamp_le e.outermost e.outermost_mem
      have : e.outermost.stamp = e.stamp := rfl
      omega
  refine { h with memos := ?_ }
  intro other hother
  obtain hother | rfl := List.mem_or_eq_of_mem_set hother
  · exact (h.memos other hother).follow hfollows (h.memos other hother).held
  · exact hreplayed.follow hfollows hreplayed.held

/-- Another thread draws a stamp. -/
theorem ticks (h : Consistent t) : Consistent { t with counter := t.counter + 1 } := by
  have hfollows : Follows t { t with counter := t.counter + 1 } :=
    Follows.of_same (Nat.le_succ _) rfl rfl
  exact { h with
    records := h.records.mono (Nat.le_succ _) t.stack t.table
    recordings := fun r hr =>
      ⟨(h.recordings r hr).1.trans (Nat.le_succ _), (h.recordings r hr).2⟩
    memos := fun p hp => (h.memos p hp).follow hfollows (h.memos p hp).held }

/-- A new handle is allocated. -/
theorem allocates (h : Consistent t) (handle : LogHandle) :
    Consistent { t with handles := t.handles ++ [handle] } := by
  have hfollows : Follows t { t with handles := t.handles ++ [handle] } :=
    Follows.of_same le_rfl rfl rfl
  have hold : ∀ (k : Nat) (found : LogHandle), t.handles[k]? = some found →
      (t.handles ++ [handle])[k]? = some found := by
    intro k found hfound
    rw [List.getElem?_append_left (List.getElem?_eq_some_iff.1 hfound).1, hfound]
  refine { h with bounds := ?_, frozen := ?_, memos := ?_ }
  · intro other hother
    obtain ⟨found, hfound, hstop⟩ := h.bounds other hother
    exact ⟨found, hold _ _ hfound, hstop⟩
  · intro other hother found hfound hwindow
    obtain ⟨before, hbefore, -⟩ := h.bounds other (mem_evaluations_of_stack t other hother)
    obtain rfl : before = found := Option.some.inj ((hold _ _ hbefore).symm.trans hfound)
    exact h.frozen other hother before hbefore hwindow
  · intro p hp
    obtain ⟨found, hfound, hheld⟩ := (h.memos p hp).held
    exact (h.memos p hp).follow hfollows ⟨found, hold _ _ hfound, hheld⟩

/-! ## §2. The stack -/

theorem toList_head_append_tail {α : Type} (l : List α) : l.head?.toList ++ l.tail = l := by
  cases l with
  | nil => rfl
  | cons a l => rfl

/-- A recording that fits the stack fits what is left of it. -/
theorem fits_of_suffix {r : Recording} {stamps : List Nat} (above : List Nat)
    (h : r.Fits (above ++ stamps)) : r.Fits stamps := by
  intro between below hstamps
  apply h (above ++ between) below
  rw [hstamps, List.append_assoc]

/-- **The top of the stack goes**: the evaluations of `back` come from it. -/
theorem stackShrinks (h : Consistent t) (above below back : List Evaluation)
    (hstack : t.stack = above ++ below) (table' : Stamps)
    (hrecords : Records t.counter table' below)
    (hresting : ∀ e ∈ back, Resting e)
    (hfrom : ∀ e' ∈ back, ∃ e ∈ above, e'.logHandle = e.logHandle ∧ e.log = e'.log)
    (hhandles : (back.map Evaluation.logHandle).Sublist (above.map Evaluation.logHandle)) :
    Consistent { t with
      table := table'
      current := below.head?
      suspended := below.tail
      handedBack := t.handedBack ++ back } := by
  have hstack' : below.head?.toList ++ below.tail = below := toList_head_append_tail below
  have hbelow : ∀ e ∈ below, e ∈ t.stack := by
    intro e he
    rw [hstack]
    exact List.mem_append_right _ he
  -- every evaluation that is left was there before
  have hevaluations : ∀ e' ∈ (below.head?.toList ++ below.tail) ++ (t.handedBack ++ back),
      ∃ e ∈ t.evaluations, e'.logHandle = e.logHandle ∧ e.log = e'.log := by
    intro e' he'
    rw [hstack'] at he'
    unfold evaluations
    obtain he' | he' := List.mem_append.1 he'
    · exact ⟨e', List.mem_append_left _ (hbelow e' he'), rfl, rfl⟩
    · obtain he' | he' := List.mem_append.1 he'
      · exact ⟨e', List.mem_append_right _ he', rfl, rfl⟩
      · obtain ⟨e, he, hlogHandle, hlog⟩ := hfrom e' he'
        refine ⟨e, List.mem_append_left _ ?_, hlogHandle, hlog⟩
        rw [hstack]
        exact List.mem_append_left _ he
  have hfollows : Follows t { t with
      table := table'
      current := below.head?
      suspended := below.tail
      handedBack := t.handedBack ++ back } := by
    constructor
    · exact le_rfl
    · intro e' he'
      obtain ⟨e, he, hlogHandle, hlog⟩ := hevaluations e' he'
      exact .inr ⟨e, he, hlogHandle, hlog ▸ List.prefix_refl _⟩
    · intro e' he'
      have he' : e' ∈ below := hstack' ▸ he'
      exact .inr ⟨e', hbelow e' he', rfl, List.prefix_refl _, fun f => .inl⟩
  constructor
  · show Records t.counter table' (below.head?.toList ++ below.tail)
    rw [hstack']
    exact hrecords
  · intro hnone
    have hnil : below = [] := List.head?_eq_none_iff.1 hnone
    show below.tail = []
    rw [hnil]
    rfl
  · intro r hr
    refine ⟨(h.recordings r hr).1, ?_⟩
    have hfits := (h.recordings r hr).2
    rw [hstack, List.map_append] at hfits
    show r.Fits ((below.head?.toList ++ below.tail).map Evaluation.stamp)
    rw [hstack']
    exact fits_of_suffix _ hfits
  · intro e he
    obtain he | he := List.mem_append.1 he
    · exact h.resting e he
    · exact hresting e he
  · show (((below.head?.toList ++ below.tail) ++ (t.handedBack ++ back)).map
      Evaluation.logHandle).Nodup
    rw [hstack']
    have howners := h.owners
    unfold evaluations at howners
    rw [hstack, List.append_assoc, List.map_append] at howners
    have hperm : ((below ++ (t.handedBack ++ back)).map Evaluation.logHandle).Perm
        (back.map Evaluation.logHandle ++ (below ++ t.handedBack).map Evaluation.logHandle) := by
      rw [← List.map_append, ← List.append_assoc]
      exact List.Perm.map _ List.perm_append_comm
    rw [hperm.nodup_iff]
    exact howners.sublist (hhandles.append_right _)
  · intro e' he'
    obtain ⟨e, he, hlogHandle, hlog⟩ := hevaluations e' he'
    rw [hlogHandle, ← hlog]
    exact h.bounds e he
  · intro e' he'
    have he' : e' ∈ below := hstack' ▸ he'
    exact h.frozen e' (hbelow e' he')
  · exact fun p hp => (h.memos p hp).follow hfollows (h.memos p hp).held

/-- **An evaluation is handed back**, its overwritten stamps put back. -/
theorem handsBack (h : Consistent t) (hcurrent : t.current = some e) (hframes : e.frames = []) :
    Consistent { t with
      table := t.table.restored (e.shared.getD [])
      current := t.suspended.head?
      suspended := t.suspended.tail
      handedBack := t.handedBack ++ [{ e with shared := none }] } := by
  have hstack : t.stack = [e] ++ t.suspended := stack_of_current hcurrent
  have hrecords := h.records
  rw [hstack] at hrecords
  obtain ⟨hmarks, hexact, -, hrest⟩ := hrecords
  refine h.stackShrinks [e] t.suspended [{ e with shared := none }] hstack _ hrest ?_ ?_ ?_
  · intro e' he'
    rw [List.mem_singleton.1 he']
    exact ⟨hframes, hmarks.logged, hexact.complete⟩
  · intro e' he'
    rw [List.mem_singleton.1 he']
    exact ⟨e, List.mem_singleton_self e, rfl, rfl⟩
  · exact .refl _

/-- **Evaluations that overwrote nothing are discarded**; so is the whole stack. -/
theorem discards (h : Consistent t) (above below : List Evaluation)
    (hstack : t.stack = above ++ below)
    (hclean : below = [] ∨ ∀ e ∈ above, e.overwritten = []) :
    Consistent { t with current := below.head?, suspended := below.tail } := by
  have hrecords := h.records
  rw [hstack] at hrecords
  have hdone := h.stackShrinks above below [] hstack t.table
    (records_discard below above t.table hclean hrecords)
    nofun nofun
    (List.nil_sublist _)
  simp only [List.append_nil] at hdone
  exact hdone

/-- The recording of an evaluation that starts fits the stack, and so do the older ones. -/
theorem fits_start (h : Consistent t) (r : Recording) (counter : Nat)
    (hcounter : t.counter < counter)
    (hr : r ∈ t.recordings ++ [⟨counter, t.suspended.length, t.current.isSome⟩]) :
    r.stamp ≤ counter ∧ r.Fits (counter :: t.stack.map Evaluation.stamp) := by
  have hstamps : ∀ stamp ∈ t.stack.map Evaluation.stamp, stamp ≤ t.counter := by
    intro stamp hstamp
    obtain ⟨e, he, rfl⟩ := List.mem_map.1 hstamp
    exact (h.records.stamped e he e.outermost e.outermost_mem).2
  obtain hr | hr := List.mem_append.1 hr
  · obtain ⟨hle, hfits⟩ := h.recordings r hr
    refine ⟨hle.trans hcounter.le, ?_⟩
    intro above below hstack
    cases above with
    | nil =>
      have : counter = r.stamp := (List.cons.inj hstack).1
      omega
    | cons stamp above => exact hfits above below (List.cons.inj hstack).2
  · rw [List.mem_singleton.1 hr]
    refine ⟨le_rfl, ?_⟩
    intro above below hstack
    cases above with
    | nil =>
      obtain rfl : t.stack.map Evaluation.stamp = below := (List.cons.inj hstack).2
      cases hcurrent : t.current with
      | none => simp [stack, hcurrent, h.idle hcurrent]
      | some e => simp [stack, hcurrent]
    | cons stamp above =>
      have hmem : counter ∈ t.stack.map Evaluation.stamp := by
        rw [(List.cons.inj hstack).2]
        simp
      have := hstamps counter hmem
      omega

/-- **An evaluation that was handed back resumes** under a new stamp. -/
theorem resumes (h : Consistent t) (i : Nat) (hback : t.handedBack[i]? = some e) :
    Consistent (start
      { t with
        counter := t.counter + 1
        handedBack := t.handedBack.eraseIdx i }
      { e with stamp := t.counter + 1 }) := by
  obtain ⟨hi, he⟩ := List.getElem?_eq_some_iff.1 hback
  have hmem : e ∈ t.handedBack := he ▸ List.getElem_mem hi
  have hresting := h.resting e hmem
  obtain ⟨e', hstarted⟩ : ∃ e' : Evaluation, e' = { e with
      stamp := t.counter + 1
      shared := t.current.map fun _ => []
      logBefore := e.log.length
      notedBefore := e.noted.length } := ⟨_, rfl⟩
  have hscopes : ∀ f ∈ e'.scopes, f.stamp = t.counter + 1 := by
    intro f hf
    have hframes : e'.frames = [] := by
      rw [hstarted]
      exact hresting.closed
    simp only [Evaluation.scopes, hframes, List.map_nil, List.nil_append, List.mem_singleton] at hf
    rw [hf, hstarted]
    rfl
  -- the evaluations are those of before, one of them on top of the stack now
  have hperm : (e :: (t.stack ++ t.handedBack.eraseIdx i)).Perm t.evaluations := by
    have herase : (e :: t.handedBack.eraseIdx i).Perm t.handedBack :=
      he ▸ List.getElem_cons_eraseIdx_perm hi
    exact List.perm_middle.symm.trans (herase.append_left t.stack)
  have hevaluations : ∀ other ∈ (e' :: t.stack) ++ t.handedBack.eraseIdx i,
      other = e' ∨ other ∈ t.evaluations := by
    intro other hother
    obtain rfl | hother := List.mem_cons.1 hother
    · exact .inl rfl
    · exact .inr (hperm.subset (.tail _ hother))
  have hhandle : e'.logHandle = e.logHandle := by rw [hstarted]
  have hlog : e'.log = e.log := by rw [hstarted]
  show Consistent { t with
    counter := t.counter + 1
    handedBack := t.handedBack.eraseIdx i
    current := some { e with
      stamp := t.counter + 1
      shared := t.current.map fun _ => []
      logBefore := e.log.length
      notedBefore := e.noted.length }
    suspended := t.stack
    recordings := t.recordings ++ [⟨t.counter + 1, t.suspended.length, t.current.isSome⟩] }
  rw [← hstarted]
  have hfollows : Follows t { t with
      counter := t.counter + 1
      handedBack := t.handedBack.eraseIdx i
      current := some e'
      suspended := t.stack
      recordings := t.recordings ++ [⟨t.counter + 1, t.suspended.length, t.current.isSome⟩] } := by
    constructor
    · exact Nat.le_succ _
    · intro other hother
      right
      obtain rfl | hother := hevaluations other hother
      · exact ⟨e, hperm.subset (.head _), hhandle, hlog ▸ List.prefix_refl _⟩
      · exact ⟨other, hother, rfl, List.prefix_refl _⟩
    · intro other hother
      obtain rfl | hother := List.mem_cons.1 hother
      · left
        intro f hf
        rw [hscopes f hf]
        exact Nat.lt_succ_self _
      · exact .inr ⟨other, hother, rfl, List.prefix_refl _, fun f => .inl⟩
  constructor
  · apply records_push e' _ _ _ _ t.stack _ h.records
    · rw [hstarted]
      exact ⟨hresting.closed, hresting.logged, hresting.complete⟩
    · rw [hstarted]
    · rw [hstarted]
    · rw [hstarted]
    · rw [hstarted]
      cases hcurrent : t.current with
      | none => simp [stack, hcurrent, h.idle hcurrent]
      | some top => simp [stack, hcurrent]
  · intro hnone
    simp at hnone
  · intro r hr
    have hstamp : e'.stamp = t.counter + 1 := by rw [hstarted]
    show r.stamp ≤ t.counter + 1 ∧ r.Fits ((e' :: t.stack).map Evaluation.stamp)
    rw [List.map_cons, hstamp]
    exact h.fits_start r (t.counter + 1) (Nat.lt_succ_self _) hr
  · exact fun other hother => h.resting other (List.mem_of_mem_eraseIdx hother)
  · show (((e' :: t.stack) ++ t.handedBack.eraseIdx i).map Evaluation.logHandle).Nodup
    rw [List.cons_append, List.map_cons, hhandle, ← List.map_cons,
      (hperm.map Evaluation.logHandle).nodup_iff]
    exact h.owners
  · intro other hother
    obtain rfl | hother := hevaluations other hother
    · rw [hhandle, hlog]
      exact h.bounds e (hperm.subset (.head _))
    · exact h.bounds other hother
  · intro other hother handle hfound hwindow
    obtain rfl | hother := List.mem_cons.1 hother
    · obtain ⟨found, hfound', hstop⟩ := h.bounds e (hperm.subset (.head _))
      rw [hhandle, hfound', Option.some.injEq] at hfound
      rw [← hfound]
      rw [hstarted]
      exact hstop
    · exact h.frozen other hother handle hfound hwindow
  · exact fun p hp => (h.memos p hp).follow hfollows (h.memos p hp).held

/-- A new evaluation, before it records. -/
def blank (logHandle : Nat) : Evaluation where
  log := []
  read := []
  frames := []
  logHandle := logHandle
  stamp := 0
  shared := none
  noted := []
  logBefore := 0
  notedBefore := 0

/-- A new evaluation with a new handle may wait to be resumed. -/
theorem creates (h : Consistent t) :
    Consistent { t with
      handles := t.handles ++ [LogHandle.default]
      handedBack := t.handedBack ++ [blank t.handles.length] } := by
  have hwide := h.allocates LogHandle.default
  have hnew : ∀ other ∈ t.evaluations, other.logHandle < t.handles.length := by
    intro other hother
    obtain ⟨handle, hhandle, -⟩ := h.bounds other hother
    exact (List.getElem?_eq_some_iff.1 hhandle).1
  have hevaluations : ∀ other ∈ t.stack ++ (t.handedBack ++ [blank t.handles.length]),
      other = blank t.handles.length ∨ other ∈ t.evaluations := by
    intro other hother
    rw [← List.append_assoc] at hother
    obtain hother | hother := List.mem_append.1 hother
    · exact .inr hother
    · exact .inl (List.mem_singleton.1 hother)
  have hfollows : Follows t { t with
      handles := t.handles ++ [LogHandle.default]
      handedBack := t.handedBack ++ [blank t.handles.length] } := by
    constructor
    · exact le_rfl
    · intro other hother
      obtain rfl | hother := hevaluations other hother
      · exact .inl le_rfl
      · exact .inr ⟨other, hother, rfl, List.prefix_refl _⟩
    · intro other hother
      exact .inr ⟨other, hother, rfl, List.prefix_refl _, fun f => .inl⟩
  refine { h with
    resting := ?_, owners := ?_, bounds := ?_
    frozen := hwide.frozen
    memos := fun p hp => (h.memos p hp).follow hfollows (hwide.memos p hp).held }
  · intro other hother
    obtain hother | hother := List.mem_append.1 hother
    · exact h.resting other hother
    · rw [List.mem_singleton.1 hother]
      exact ⟨rfl, fun _ hslot => hslot, fun _ hslot => hslot⟩
  · show ((t.stack ++ (t.handedBack ++ [blank t.handles.length])).map
      Evaluation.logHandle).Nodup
    rw [← List.append_assoc, List.map_append]
    apply List.Nodup.append h.owners (List.nodup_singleton _)
    intro handle hhandle hblank
    obtain ⟨other, hother, rfl⟩ := List.mem_map.1 hhandle
    have hlt := hnew other hother
    rw [show other.logHandle = t.handles.length from by simpa [blank] using hblank] at hlt
    exact Nat.lt_irrefl _ hlt
  · intro other hother
    obtain rfl | hother := hevaluations other hother
    · exact ⟨LogHandle.default, by simp [blank], le_rfl⟩
    · exact hwide.bounds other hother

/-- **An evaluation begins.** -/
theorem begins (h : Consistent t) : Consistent t.begin := by
  have hback : (t.handedBack ++ [blank t.handles.length])[t.handedBack.length]? =
      some (blank t.handles.length) := by simp
  have hresumed := h.creates.resumes t.handedBack.length hback
  have herase : (t.handedBack ++ [blank t.handles.length]).eraseIdx t.handedBack.length =
      t.handedBack := by
    rw [List.eraseIdx_append_of_length_le le_rfl]
    simp
  simp only [herase] at hresumed
  exact hresumed

/-- **The log of an evaluation handed back is frozen.** -/
theorem freezes (h : Consistent t) (he : e ∈ t.handedBack) :
    Consistent { t with
      handles := t.handles.modify e.logHandle fun handle => handle.freeze e.log } := by
  have hmem : e ∈ t.evaluations := List.mem_append_right _ he
  obtain ⟨handle, hhandle, hstop⟩ := h.bounds e hmem
  apply h.regrasps hmem
  · intro found hfound p hp hlog hheld
    have hsound := h.memos p hp
    obtain rfl : handle = found := Option.some.inj (hhandle.symm.trans hfound)
    exact hheld.freeze e.log hstop hsound.range (hsound.own e hmem hlog.symm).2
  · intro found _ hbound
    unfold LogHandle.freeze
    split
    · exact hbound
    · exact le_rfl
  · intro hstack
    -- it is not on the stack
    exfalso
    have howners := List.Nodup.of_map _ h.owners
    exact (List.disjoint_of_nodup_append howners) hstack he

/-- **The drop of a recording** changes nothing, or discards the evaluation it began and
    whatever began inside it. -/
theorem dropRecording_cases (h : Consistent t) (r : Recording) (hr : r ∈ t.recordings) :
    t.dropRecording r = t ∨ ∃ above e below, t.stack = (above ++ [e]) ++ below ∧
      t.dropRecording r = { t with current := below.head?, suspended := below.tail } := by
  by_cases hlive : ((t.current.any fun e => e.stamp = r.stamp) ||
      (t.suspended.take (t.suspended.length - r.suspended)).any fun e => e.stamp = r.stamp) = true
  · right
    -- an evaluation of the stack has the stamp of the recording
    have hmem : ∃ e ∈ t.stack, e.stamp = r.stamp := by
      unfold stack
      rw [Bool.or_eq_true] at hlive
      obtain hcurrent | habove := hlive
      · obtain ⟨e, he, hstamp⟩ := (Option.any_eq_true _ _).1 hcurrent
        refine ⟨e, List.mem_append_left _ ?_, by simpa using hstamp⟩
        simp [he]
      · obtain ⟨e, he, hstamp⟩ := List.any_eq_true.1 habove
        exact ⟨e, List.mem_append_right _ (List.mem_of_mem_take he), by simpa using hstamp⟩
    obtain ⟨e, he, hstamp⟩ := hmem
    obtain ⟨above, below, hstack⟩ := List.append_of_mem he
    refine ⟨above, e, below, by simp [hstack], ?_⟩
    have hfits := (h.recordings r hr).2 (above.map Evaluation.stamp) (below.map Evaluation.stamp)
      (by rw [hstack, ← hstamp]; simp)
    obtain ⟨hsuspended, hsuspends⟩ := hfits
    rw [List.length_map] at hsuspended
    have htail : t.suspended = (above ++ e :: below).tail := by
      rw [← hstack]
      unfold stack
      cases hcurrent : t.current with
      | none => simp [h.idle hcurrent]
      | some top => rfl
    unfold dropRecording
    simp only [hlive, if_true]
    cases below with
    | nil =>
      simp only [ne_eq, List.map_nil, not_true_eq_false, decide_false] at hsuspends
      simp [hsuspended, hsuspends]
    | cons p below =>
      have hcount : t.suspended.length - r.suspended = above.length + 1 := by
        rw [htail, hsuspended]
        simp
        omega
      have hsplit : t.suspended = (above ++ [e, p]).tail ++ below := by
        rw [htail]
        cases above with
        | nil => rfl
        | cons a above => simp
      have hlength : (above ++ [e, p]).tail.length = above.length + 1 := by simp
      have hlast : (above ++ [e, p]).tail.getLast? = some p := by
        cases above with
        | nil => rfl
        | cons a above => simp
      simp only [ne_eq, List.map_cons, reduceCtorEq, not_false_eq_true, decide_true]
        at hsuspends
      simp only [hcount, hsuspends, if_true, List.head?_cons, List.tail_cons]
      rw [hsplit, List.take_left' hlength, List.drop_left' hlength, hlast]
  · left
    unfold dropRecording
    simp only [hlive]
    simp

end Consistent

end GluaLs.ReadLog
