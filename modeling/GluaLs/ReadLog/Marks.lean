/-
  GluaLs.ReadLog.Marks — what the stamps of the table say about one evaluation's log.

  The open frames of an evaluation, and the evaluation itself, are its SCOPES.  The
  invariant `Marks` reads the table for every scope at once: a slot's stamp is at least the
  scope's exactly when the slot stands in the log from where the scope opened.  So the one
  comparison `KeyTable::log` makes decides whether the log of the innermost scope, and with
  it of every scope around it, already holds the slot.

  `Logged` is everything a piece of logging does to an evaluation and to the table.
-/
import GluaLs.ReadLog.Thread
import Mathlib.Order.Nat

namespace GluaLs.ReadLog

/-! ## §1. Scopes -/

namespace Evaluation

/-- The evaluation as a scope: from where it last began to record. -/
def outermost (e : Evaluation) : Scope := ⟨e.logBefore, e.stamp, e.notedBefore⟩

/-- The open frames and the evaluation, the innermost first. -/
def scopes (e : Evaluation) : List Scope := e.frames.map Frame.toScope ++ [e.outermost]

/-- The scope whose stamp decides whether a read is logged. -/
def innermost (e : Evaluation) : Scope :=
  match e.frames with
  | frame :: _ => frame.toScope
  | [] => e.outermost

theorem frameStamp_eq (e : Evaluation) : e.frameStamp = e.innermost.stamp := by
  unfold frameStamp innermost
  cases e.frames with
  | nil => rfl
  | cons frame outer => rfl

theorem scopes_eq (e : Evaluation) : ∃ outer, e.scopes = e.innermost :: outer := by
  unfold scopes innermost
  cases e.frames with
  | nil => exact ⟨[], rfl⟩
  | cons frame outer => exact ⟨_, rfl⟩

theorem innermost_mem (e : Evaluation) : e.innermost ∈ e.scopes := by
  obtain ⟨outer, houter⟩ := e.scopes_eq
  rw [houter]
  exact .head _

theorem outermost_mem (e : Evaluation) : e.outermost ∈ e.scopes := by
  simp [scopes]

theorem innermost_eq_of_scopes {e e' : Evaluation} (h : e'.scopes = e.scopes) :
    e'.innermost = e.innermost := by
  obtain ⟨outer, houter⟩ := e.scopes_eq
  obtain ⟨outer', houter'⟩ := e'.scopes_eq
  rw [houter, houter'] at h
  exact (List.cons.inj h).1

theorem scopes_taintScoped (e : Evaluation) (base : Nat) :
    (e.taintScoped base).scopes = e.scopes := by
  unfold taintScoped
  cases hframes : e.frames with
  | nil => rfl
  | cons frame outer =>
    simp only
    split
    · simp [scopes, hframes, outermost]
    · rfl

theorem scopes_taintEvaluation (e : Evaluation) : e.taintEvaluation.scopes = e.scopes := by
  unfold taintEvaluation
  cases hframes : e.frames with
  | nil => rfl
  | cons frame outer => simp [scopes, hframes, outermost]

theorem toScope_inheritTaint (taint : Option Nat) (outer : List Frame) :
    (inheritTaint taint outer).map Frame.toScope = outer.map Frame.toScope := by
  cases outer with
  | nil => rfl
  | cons parent outer =>
    cases taint with
    | none => rfl
    | some reach =>
      simp only [inheritTaint]
      split <;> rfl

end Evaluation

/-! ## §2. The invariant of one evaluation -/

/-- **The stamps mirror the log**, for every scope of the evaluation. -/
structure Marks (counter : Nat) (table : Stamps) (e : Evaluation) : Prop where
  bounded : ∀ slot, table slot ≤ counter
  ordered : e.scopes.Pairwise fun inner outer =>
    outer.stamp < inner.stamp ∧ outer.start ≤ inner.start
  opened : ∀ f ∈ e.scopes, f.start ≤ e.log.length ∧ f.noted ≤ e.noted.length
  stamped : ∀ f ∈ e.scopes, 0 < f.stamp ∧ f.stamp ≤ counter
  marked : ∀ f ∈ e.scopes, ∀ slot, f.stamp ≤ table slot ↔ slot ∈ e.log.drop f.start
  logged : ∀ slot ∈ e.log, slot ∈ e.read

/-- **The log is the history**, for every scope of the evaluation, and every slot of the
    history is in the evaluation's `read` list. -/
structure Exact (e : Evaluation) : Prop where
  inScope : ∀ f ∈ e.scopes, ∀ slot, slot ∈ e.log.drop f.start ↔ slot ∈ e.noted.drop f.noted
  complete : ∀ slot ∈ e.noted, slot ∈ e.read

namespace Marks

variable {counter : Nat} {table : Stamps} {e : Evaluation}

section

variable (h : Marks counter table e) (f : Scope) (hf : f ∈ e.scopes)
include h hf

theorem innermost_max :
    f = e.innermost ∨ f.stamp < e.innermost.stamp ∧ f.start ≤ e.innermost.start := by
  obtain ⟨outer, houter⟩ := e.scopes_eq
  have hordered := h.ordered
  rw [houter, List.pairwise_cons] at hordered
  rw [houter, List.mem_cons] at hf
  exact hf.imp id (hordered.1 f)

theorem stamp_le : f.stamp ≤ e.innermost.stamp := by
  obtain hf | hf := h.innermost_max f hf
  · rw [hf]
  · exact hf.1.le

theorem start_le : f.start ≤ e.innermost.start := by
  obtain hf | hf := h.innermost_max f hf
  · rw [hf]
  · exact hf.2

/-- What the innermost scope logged, every scope around it logged. -/
theorem mem_drop_of_innermost (slot : Slot) (hslot : slot ∈ e.log.drop e.innermost.start) :
    slot ∈ e.log.drop f.start :=
  List.drop_subset_drop_left e.log (h.start_le f hf) hslot

end

theorem mono (h : Marks counter table e) (later : Nat) (hle : counter ≤ later) :
    Marks later table e where
  bounded slot := (h.bounded slot).trans hle
  ordered := h.ordered
  opened := h.opened
  stamped f hf := ⟨(h.stamped f hf).1, (h.stamped f hf).2.trans hle⟩
  marked := h.marked
  logged := h.logged

end Marks

/-! ## §3. What logging does -/

/-- What logging `slots` makes of a log, told by the log alone: a slot is appended unless the
    log holds it from `start` on. -/
def appended (start : Nat) (log slots : List Slot) : List Slot :=
  slots.foldl (fun log slot => if slot ∈ log.drop start then log else log ++ [slot]) log

theorem appended_already (start : Nat) (log slots : List Slot)
    (hslots : ∀ slot ∈ slots, slot ∈ log.drop start) : appended start log slots = log := by
  induction slots with
  | nil => rfl
  | cons slot slots ih =>
    have hslot : slot ∈ log.drop start := hslots slot (.head _)
    show appended start (if slot ∈ log.drop start then log else log ++ [slot]) slots = log
    rw [if_pos hslot]
    exact ih (List.forall_mem_cons.1 hslots).2

/-- **Everything the logging of `slots` does**: the evaluation and the table before, the
    slots, and the two after. -/
structure Logged (counter : Nat) (table : Stamps) (e : Evaluation) (slots : List Slot)
    (table' : Stamps) (e' : Evaluation) : Prop where
  marks : Marks counter table' e'
  scopes : e'.scopes = e.scopes
  added : ∀ f ∈ e.scopes, ∀ slot,
    slot ∈ e'.log.drop f.start ↔ slot ∈ e.log.drop f.start ∨ slot ∈ slots
  log : e'.log = appended e.innermost.start e.log slots
  grown : e.log <+: e'.log
  kept : ∀ slot ∈ e.read, slot ∈ e'.read
  restored : e.shared.isSome →
    table'.restored (e'.shared.getD []) = table.restored (e.shared.getD [])
  shared : e'.shared.isSome = e.shared.isSome
  noted : e'.noted = e.noted
  stamp : e'.stamp = e.stamp
  logHandle : e'.logHandle = e.logHandle
  logBefore : e'.logBefore = e.logBefore

namespace Logged

variable {counter : Nat} {table table' table'' : Stamps} {e e' e'' : Evaluation}

/-- Slots the innermost scope holds already are logged by doing nothing. -/
theorem already (h : Marks counter table e) (slots : List Slot)
    (hslots : ∀ slot ∈ slots, slot ∈ e.log.drop e.innermost.start) :
    Logged counter table e slots table e where
  marks := h
  scopes := rfl
  added f hf slot := by
    constructor
    · exact .inl
    · intro hslot
      obtain hslot | hslot := hslot
      · exact hslot
      · exact h.mem_drop_of_innermost f hf slot (hslots slot hslot)
  log := (appended_already _ _ _ hslots).symm
  grown := List.prefix_refl _
  kept _ hslot := hslot
  restored _ := rfl
  shared := rfl
  noted := rfl
  stamp := rfl
  logHandle := rfl
  logBefore := rfl

theorem trans {slots slots' : List Slot} (h : Logged counter table e slots table' e')
    (h' : Logged counter table' e' slots' table'' e'') :
    Logged counter table e (slots ++ slots') table'' e'' where
  marks := h'.marks
  scopes := h'.scopes.trans h.scopes
  added f hf slot := by
    rw [h'.added f (h.scopes ▸ hf) slot, h.added f hf slot, List.mem_append, or_assoc]
  log := by
    rw [h'.log, h.log, Evaluation.innermost_eq_of_scopes h.scopes]
    exact List.foldl_append.symm
  grown := h.grown.trans h'.grown
  kept slot hslot := h'.kept slot (h.kept slot hslot)
  restored hshared := (h'.restored (h.shared ▸ hshared)).trans (h.restored hshared)
  shared := h'.shared.trans h.shared
  noted := h'.noted.trans h.noted
  stamp := h'.stamp.trans h.stamp
  logHandle := h'.logHandle.trans h.logHandle
  logBefore := h'.logBefore.trans h.logBefore

/-- A change of the taints only. -/
theorem retaint {slots : List Slot} (h : Logged counter table e slots table' e')
    (frames : List Frame) (hframes : { e' with frames := frames }.scopes = e'.scopes) :
    Logged counter table e slots table' { e' with frames := frames } where
  marks :=
    { bounded := h.marks.bounded
      ordered := hframes ▸ h.marks.ordered
      opened := fun f hf => h.marks.opened f (hframes ▸ hf)
      stamped := fun f hf => h.marks.stamped f (hframes ▸ hf)
      marked := fun f hf => h.marks.marked f (hframes ▸ hf)
      logged := h.marks.logged }
  scopes := hframes.trans h.scopes
  added := h.added
  log := h.log
  grown := h.grown
  kept := h.kept
  restored := h.restored
  shared := h.shared
  noted := h.noted
  stamp := h.stamp
  logHandle := h.logHandle
  logBefore := h.logBefore

end Logged

/-! ## §4. `log_slot` -/

section LogSlot

variable {counter : Nat} {table : Stamps} {e : Evaluation}

/-- A slot whose stamp is at least the innermost scope's is skipped. -/
theorem logSlot_skip (e : Evaluation) (table : Stamps) (slot : Slot)
    (h : e.innermost.stamp ≤ table slot) : e.logSlot table slot = (e, table) := by
  simp [Evaluation.logSlot, Stamps.log, e.frameStamp_eq, h]

theorem logSlot_push (e : Evaluation) (table : Stamps) (slot : Slot)
    (h : table slot < e.innermost.stamp) :
    e.logSlot table slot =
      ({ e with
          shared := e.shared.map fun overwritten => (slot, table slot) :: overwritten
          log := e.log ++ [slot]
          read := if table slot < e.stamp then e.read ++ [slot] else e.read },
        Function.update table slot e.innermost.stamp) := by
  simp [Evaluation.logSlot, Stamps.log, e.frameStamp_eq, Nat.not_le.2 h]

theorem mem_drop_concat (log : List Slot) (start : Nat) (hstart : start ≤ log.length)
    (pushed slot : Slot) :
    slot ∈ (log ++ [pushed]).drop start ↔ slot ∈ log.drop start ∨ slot = pushed := by
  rw [List.drop_append_of_le_length hstart, List.mem_append, List.mem_singleton]

/-- The table after a slot was logged, compared with a scope's stamp. -/
theorem le_update_iff (h : Marks counter table e) (f : Scope) (hf : f ∈ e.scopes)
    (pushed slot : Slot) :
    f.stamp ≤ Function.update table pushed e.innermost.stamp slot ↔
      f.stamp ≤ table slot ∨ slot = pushed := by
  by_cases hslot : slot = pushed
  · subst hslot
    simp [h.stamp_le f hf]
  · simp [hslot]

/-- **One call of `log_slot`.** -/
theorem logged_logSlot (h : Marks counter table e) (slot : Slot) :
    Logged counter table e [slot] (e.logSlot table slot).2 (e.logSlot table slot).1 := by
  by_cases hstamp : e.innermost.stamp ≤ table slot
  · rw [logSlot_skip e table slot hstamp]
    apply Logged.already h
    intro other hother
    rw [List.mem_singleton.1 hother]
    exact (h.marked e.innermost e.innermost_mem slot).1 hstamp
  · have hlt : table slot < e.innermost.stamp := Nat.lt_of_not_le hstamp
    rw [logSlot_push e table slot hlt]
    -- the scopes of the evaluation do not depend on what it logged
    have hdrop : ∀ f ∈ e.scopes, ∀ other, other ∈ (e.log ++ [slot]).drop f.start ↔
        other ∈ e.log.drop f.start ∨ other = slot :=
      fun f hf other => mem_drop_concat e.log f.start (h.opened f hf).1 slot other
    have hread : ∀ other ∈ e.read, other ∈
        (if table slot < e.stamp then e.read ++ [slot] else e.read) := by
      intro other hother
      split
      · exact List.mem_append_left _ hother
      · exact hother
    exact
      { marks :=
          { bounded := by
              intro other
              by_cases hother : other = slot
              · subst hother
                simpa using (h.stamped e.innermost e.innermost_mem).2
              · simpa [Function.update_of_ne hother] using h.bounded other
            ordered := h.ordered
            opened := by
              intro f hf
              refine ⟨?_, (h.opened f hf).2⟩
              exact (h.opened f hf).1.trans (by simp)
            stamped := h.stamped
            marked := by
              intro f hf other
              show _ ↔ other ∈ (e.log ++ [slot]).drop f.start
              rw [le_update_iff h f hf slot other, h.marked f hf other, hdrop f hf other]
            logged := by
              intro other hother
              show other ∈ if table slot < e.stamp then e.read ++ [slot] else e.read
              obtain hother | hother := List.mem_append.1 hother
              · exact hread other (h.logged other hother)
              · rw [List.mem_singleton.1 hother]
                split
                · simp
                · -- its stamp says the evaluation logged it since it began to record
                  have hle : e.outermost.stamp ≤ table slot := Nat.le_of_not_lt ‹_›
                  have hmem := (h.marked e.outermost e.outermost_mem slot).1 hle
                  exact h.logged slot (List.mem_of_mem_drop hmem) }
        scopes := rfl
        added := by
          intro f hf other
          rw [List.mem_singleton]
          exact hdrop f hf other
        log := by
          have hnew : slot ∉ e.log.drop e.innermost.start :=
            fun hmem => hstamp ((h.marked e.innermost e.innermost_mem slot).2 hmem)
          show e.log ++ [slot] = if slot ∈ e.log.drop e.innermost.start then e.log
            else e.log ++ [slot]
          rw [if_neg hnew]
        grown := List.prefix_append _ _
        kept := hread
        restored := by
          intro hshared
          obtain ⟨overwritten, hoverwritten⟩ := Option.isSome_iff_exists.1 hshared
          simp [hoverwritten, Stamps.restored, Stamps.restoreLogStamp]
        shared := by simp
        noted := rfl
        stamp := rfl
        logHandle := rfl
        logBefore := rfl }

/-- **A replay** logs every slot of the memo. -/
theorem logged_logSlots (slots : List Slot) : ∀ (table : Stamps) (e : Evaluation),
    Marks counter table e →
      Logged counter table e slots (e.logSlots table slots).2 (e.logSlots table slots).1 := by
  induction slots with
  | nil =>
    intro table e h
    exact Logged.already h [] nofun
  | cons slot slots ih =>
    intro table e h
    have hslot := logged_logSlot h slot
    exact hslot.trans (ih _ _ hslot.marks)

/-- A read logs its slot; a tainted read taints the innermost frame besides. -/
theorem logged_taintEvaluation {slots : List Slot} {table' : Stamps} {e' : Evaluation}
    (h : Logged counter table e slots table' e') :
    Logged counter table e slots table' e'.taintEvaluation := by
  have hscopes := e'.scopes_taintEvaluation
  unfold Evaluation.taintEvaluation at hscopes ⊢
  cases hframes : e'.frames with
  | nil => exact h
  | cons frame outer =>
    rw [hframes] at hscopes
    exact h.retaint _ hscopes

theorem logged_taintScoped (h : Marks counter table e) (base : Nat) :
    Logged counter table e [] table (e.taintScoped base) := by
  have hsame := Logged.already h [] nofun
  have hscopes := e.scopes_taintScoped base
  unfold Evaluation.taintScoped at hscopes ⊢
  cases hframes : e.frames with
  | nil => exact hsame
  | cons frame outer =>
    rw [hframes] at hscopes
    simp only at hscopes ⊢
    split
    · rename_i hbase
      rw [if_pos hbase] at hscopes
      exact hsame.retaint _ hscopes
    · exact hsame

end LogSlot

/-! ## §5. The history grows with the log -/

section Note

variable {counter : Nat} {table table' : Stamps} {e e' : Evaluation} {slots : List Slot}

/-- The marks do not read the history. -/
theorem marks_note (h : Marks counter table e) (slots : List Slot) :
    Marks counter table (e.note slots) where
  bounded := h.bounded
  ordered := h.ordered
  opened f hf := by
    refine ⟨(h.opened f hf).1, (h.opened f hf).2.trans ?_⟩
    show e.noted.length ≤ (e.noted ++ slots).length
    simp
  stamped := h.stamped
  marked := h.marked
  logged := h.logged

/-- **What was logged was read**: the log and the history grow by the same slots. -/
theorem exact_note (hmarks : Marks counter table e) (hexact : Exact e)
    (h : Logged counter table e slots table' e') : Exact (e'.note slots) where
  inScope f hf slot := by
    have hf' : f ∈ e.scopes := h.scopes ▸ hf
    show slot ∈ e'.log.drop f.start ↔ slot ∈ (e'.noted ++ slots).drop f.noted
    rw [h.added f hf' slot, h.noted, hexact.inScope f hf' slot,
      List.drop_append_of_le_length (hmarks.opened f hf').2, List.mem_append]
  complete slot hslot := by
    show slot ∈ e'.read
    have hslot : slot ∈ e'.noted ++ slots := hslot
    rw [h.noted] at hslot
    obtain hslot | hslot := List.mem_append.1 hslot
    · exact h.kept slot (hexact.complete slot hslot)
    · have hadded := (h.added e.innermost e.innermost_mem slot).2 (.inr hslot)
      exact h.marks.logged slot (List.mem_of_mem_drop hadded)

end Note

end GluaLs.ReadLog
