/-
  GluaLs.Debounce.Answerable — a request is answered from entries that match the text.

  `file_is_answerable` looks at the in-flight changes, the flag and `blocked_documents`.  A
  file whose text is not settled is ACCOUNTED FOR by one of them, from the begin of the
  change to the release of its document:

    • a change of it is under way, or
    • it is queued or being re-indexed; then the flag is set, or a change of it is about to
      set it; and its document is blocked, or a change of it is about to block it.

  Every step keeps this but the release of a document: it unblocks by file identity what an
  EARLIER edit blocked, and where the file was scheduled again since, the later edit with it.
  `releasesUnqueued` rules that out.  A recovery that can start no rebuild releases the edited
  files with their text as it is: `abandonsNoText` leaves that out.
-/
import GluaLs.Debounce.Counters
import GluaLs.Debounce.Fresh

namespace GluaLs.Debounce

open GluaLs.Lib Loop

variable {U : Type}

/-! ## §1. What accounts for a file -/

/-- The loop is about to take all staged text, or to give up, or has stopped. -/
def Loop.takesText (loop : Loop) : Bool :=
  match loop.pc with
  | .takeIn _ _ | .recover _ | .giveUp _ | .abandon _ | .stopped => true
  | _ => false

/-- The loop is about to release the file's document as settled. -/
def Loop.Releases (loop : Loop) (f : FileId) : Prop :=
  match loop.pc with
  | .release ids progress => f ∈ ids ∨ progress = .Settled
  | .settle | .releaseSettled _ => True
  | _ => False

namespace System

/-- A change of the file is at a phase. -/
def Touched (tasks : List Task) (at_ : Task → Prop) (f : FileId) : Prop :=
  ∃ task ∈ tasks, f ∈ task.change.files ∧ at_ task

/-- The file is queued, or a change of it has begun and is about to queue it. -/
def Queues (s : System U) (f : FileId) : Prop :=
  f ∈ s.shared.pendingFiles ∨ Touched s.tasks (fun task => task.queuesLater = true) f

structure Accounted (uriOf : FileId → U) (s : System U) : Prop where
  blocked : ∀ f, f ∈ s.shared.pendingFiles ∨ f ∈ s.shared.reindexingFiles →
    s.shared.blockedDocuments.lookup f = some (uriOf f) ∨
      Touched s.tasks (fun task => task.blocksLater = true) f
  flagged : ∀ f, f ∈ s.shared.pendingFiles ∨ f ∈ s.shared.reindexingFiles →
    s.shared.hasPendingChanges = true ∨ Touched s.tasks (fun task => task.halfWay = true) f
  text : ∀ f ∈ s.shared.unsettled,
    (f ∈ s.shared.pendingFiles ∨ f ∈ s.shared.reindexingFiles) ∨
      Touched s.tasks (fun task => task.queuesLater = true) f
  staged : ∀ f ∈ s.shared.staged, s.Queues f ∨ s.loop.takesText = true
  releasing : ∀ f ∈ s.shared.unsettled, s.loop.Releases f → s.Queues f

/-- A task's step leaves the other tasks where they are. -/
theorem Touched.set {tasks : List Task} {at_ : Task → Prop} {f : FileId}
    (h : Touched tasks at_ f) {id : Nat} {task : Task} (ht : tasks[id]? = some task)
    (phase : Phase) :
    (f ∈ task.change.files ∧ at_ task ∧ ¬ at_ { task with phase := phase }) ∨
      Touched (tasks.set id { task with phase := phase }) at_ f := by
  obtain ⟨other, hmem, hf, hat⟩ := h
  obtain ⟨i, hi⟩ := List.mem_iff_getElem?.1 hmem
  obtain ⟨hlt, -⟩ := List.getElem?_eq_some_iff.1 ht
  by_cases hid : id = i
  · rw [← hid, ht] at hi
    cases hi
    by_cases hat' : at_ { task with phase := phase }
    · exact .inr ⟨_, List.mem_set hlt _, hf, hat'⟩
    · exact .inl ⟨hf, hat, hat'⟩
  · refine .inr ⟨other, List.mem_iff_getElem?.2 ⟨i, ?_⟩, hf, hat⟩
    rw [List.getElem?_set_ne hid]
    exact hi

/-- The step does not end what is said of the task. -/
theorem Touched.keep {tasks : List Task} {at_ : Task → Prop} {f : FileId}
    (h : Touched tasks at_ f) {id : Nat} {task : Task} (ht : tasks[id]? = some task)
    {phase : Phase} (hkeep : f ∈ task.change.files → at_ task → at_ { task with phase := phase }) :
    Touched (tasks.set id { task with phase := phase }) at_ f := by
  obtain ⟨hf, hat, hnot⟩ | hstill := h.set ht phase
  · exact absurd (hkeep hf hat) hnot
  · exact hstill

theorem Touched.self {tasks : List Task} {at_ : Task → Prop} {f : FileId} {id : Nat} {task : Task}
    (ht : tasks[id]? = some task) (phase : Phase) (hf : f ∈ task.change.files)
    (hat : at_ { task with phase := phase }) :
    Touched (tasks.set id { task with phase := phase }) at_ f := by
  obtain ⟨hlt, -⟩ := List.getElem?_eq_some_iff.1 ht
  exact ⟨_, List.mem_set hlt _, hf, hat⟩

theorem Accounted.initial (uriOf : FileId → U) : Accounted uriOf (initial : System U) := by
  refine ⟨?_, ?_, ?_, ?_, ?_⟩ <;> intro f hf <;> simp [System.initial] at hf

/-- What a step keeps of the text: text that is new is a change's, the queues have grown, and
    what a change applied is a change's still, or queued. -/
theorem Accounted.texts {uriOf : FileId → U} {s s' : System U} (h : s.Accounted uriOf)
    (hunsettled : ∀ f ∈ s'.shared.unsettled, f ∈ s.shared.unsettled ∨
      Touched s'.tasks (fun task => task.queuesLater = true) f)
    (hstaged : ∀ f ∈ s'.shared.staged, f ∈ s.shared.staged ∨
      Touched s'.tasks (fun task => task.queuesLater = true) f)
    (hpending : s.shared.pendingFiles ⊆ s'.shared.pendingFiles)
    (hreindexing : s.shared.reindexingFiles ⊆ s'.shared.reindexingFiles)
    (happlied : ∀ f, Touched s.tasks (fun task => task.queuesLater = true) f → s'.Queues f)
    (htakes : s.loop.takesText = true →
      s'.loop.takesText = true ∨ ∀ f ∈ s'.shared.staged, s'.Queues f)
    (hreleases : ∀ f, s'.loop.Releases f → s.loop.Releases f)
    (hblocked : ∀ f, f ∈ s'.shared.pendingFiles ∨ f ∈ s'.shared.reindexingFiles →
      s'.shared.blockedDocuments.lookup f = some (uriOf f) ∨
        Touched s'.tasks (fun task => task.blocksLater = true) f)
    (hflagged : ∀ f, f ∈ s'.shared.pendingFiles ∨ f ∈ s'.shared.reindexingFiles →
      s'.shared.hasPendingChanges = true ∨ Touched s'.tasks (fun task => task.halfWay = true) f) :
    s'.Accounted uriOf := by
  have hqueues : ∀ f, s.Queues f → s'.Queues f := fun f hf =>
    hf.elim (fun hset => .inl (hpending hset)) (happlied f)
  refine ⟨hblocked, hflagged, ?_, ?_, ?_⟩
  · intro f hf
    obtain hold | hnew := hunsettled f hf
    · obtain hset | htouch := h.text f hold
      · exact .inl (hset.imp (@hpending f) (@hreindexing f))
      · exact (happlied f htouch).imp_left .inl
    · exact .inr hnew
  · intro f hf
    obtain hold | hnew := hstaged f hf
    · obtain hset | htaken := h.staged f hold
      · exact .inl (hqueues f hset)
      · exact (htakes htaken).symm.imp_left fun hall => hall f hf
    · exact .inl (.inr hnew)
  · intro f hf hrel
    obtain hold | hnew := hunsettled f hf
    · exact hqueues f (h.releasing f hold (hreleases f hrel))
    · exact .inr hnew

/-! ## §2. Steps of a task -/

section Tasks

variable {uriOf : FileId → U} {s : System U} {shared : Shared U} {id : Nat} {task : Task}
  {phase : Phase}

section

variable (h : s.Accounted uriOf) (ht : s.tasks[id]? = some task)
include h ht

/-- A step that leaves the sets and the blocked documents alone. -/
theorem Accounted.task_other (hpending : shared.pendingFiles = s.shared.pendingFiles)
    (hreindexing : shared.reindexingFiles = s.shared.reindexingFiles)
    (hblocked : shared.blockedDocuments = s.shared.blockedDocuments)
    (hunsettled : shared.unsettled = s.shared.unsettled) (hstaged : shared.staged = s.shared.staged)
    (hblocks : task.blocksLater = true →
      ({ task with phase := phase } : Task).blocksLater = true ∨ task.change.files = [])
    (hflag : (s.shared.hasPendingChanges = true → shared.hasPendingChanges = true) ∨
      (s.shared.pendingFiles = ∅ ∧ s.shared.reindexingFiles = ∅))
    (hhalf : task.halfWay = true →
      ({ task with phase := phase } : Task).halfWay = true ∨ shared.hasPendingChanges = true)
    (hqueues : task.queuesLater = true →
      ({ task with phase := phase } : Task).queuesLater = true ∨ task.change.files = []) :
    Accounted uriOf { s with
      shared := shared
      tasks := s.tasks.set id { task with phase := phase } } := by
  refine h.texts (fun f hf => .inl (hunsettled ▸ hf)) (fun f hf => .inl (hstaged ▸ hf))
    hpending.superset hreindexing.superset ?_ .inl (fun _ hr => hr) ?_ ?_
  · intro f hf
    exact .inr (hf.keep ht (fun hmem hat =>
      (hqueues hat).resolve_right (List.ne_nil_of_mem hmem)))
  · intro f hf
    simp only [hpending, hreindexing] at hf
    simp only [hblocked]
    obtain hb | htouch := h.blocked f hf
    · exact .inl hb
    · exact .inr (htouch.keep ht (fun hmem hat =>
        (hblocks hat).resolve_right (List.ne_nil_of_mem hmem)))
  · intro f hf
    simp only [hpending, hreindexing] at hf
    obtain hmono | ⟨hpe, hre⟩ := hflag
    · obtain hb | htouch := h.flagged f hf
      · exact .inl (hmono hb)
      · obtain ⟨-, hat, hnot⟩ | hstill := htouch.set ht phase
        · obtain hat' | hset := hhalf hat
          · exact absurd hat' hnot
          · exact .inl hset
        · exact .inr hstill
    · rw [hpe, hre] at hf
      exact absurd hf (by simp)

/-- Applying text: the change is about to schedule its files. -/
theorem Accounted.applies (hp : task.phase = .begun) :
    Accounted uriOf { s with
      shared := { s.shared with
        staged := s.shared.staged ∪ task.change.files.toFinset
        unsettled := s.shared.unsettled ∪ task.change.files.toFinset }
      tasks := s.tasks.set id { task with phase := .applied } } := by
  have hnew : ∀ (files : Finset FileId), ∀ f ∈ files ∪ task.change.files.toFinset, f ∈ files ∨
      Touched (s.tasks.set id { task with phase := .applied })
        (fun task => task.queuesLater = true) f := by
    intro files f hf
    exact (Finset.mem_union.1 hf).imp_right fun hmem =>
      Touched.self ht _ (List.mem_toFinset.1 hmem) rfl
  refine h.texts (hnew _) (hnew _) (fun _ hf => hf) (fun _ hf => hf)
    (fun f hf => .inr (hf.keep ht fun _ _ => rfl)) .inl (fun _ hr => hr) ?_ ?_
  · intro f hf
    exact (h.blocked f hf).imp_right (fun htouch => htouch.keep ht (fun _ _ => rfl))
  · intro f hf
    refine (h.flagged f hf).imp_right (fun htouch => htouch.keep ht ?_)
    simp [Task.halfWay, hp]

/-- Queueing the files: the change is about to block their documents and to set the flag. -/
theorem Accounted.queues (hp : task.phase = .applied) :
    Accounted uriOf { s with
      shared := { s.shared with
        pendingFiles := s.shared.pendingFiles ∪ task.change.files.toFinset }
      tasks := s.tasks.set id { task with phase := .queued } } := by
  refine h.texts (fun _ => .inl) (fun _ => .inl) Finset.subset_union_left
    (fun _ hf => hf) ?_ .inl (fun _ hr => hr) ?_ ?_
  · -- a file whose text this change applied is queued now
    intro f hf
    obtain ⟨hmem, -, -⟩ | hstill := hf.set ht .queued
    · exact .inl (Finset.mem_union_right _ (List.mem_toFinset.2 hmem))
    · exact .inr hstill
  · intro f hf
    by_cases hnew : f ∈ task.change.files.toFinset
    · exact .inr (Touched.self ht _ (List.mem_toFinset.1 hnew) rfl)
    · have hold := hf.imp_left fun hmem => (Finset.mem_union.1 hmem).resolve_right hnew
      exact (h.blocked f hold).imp_right (fun htouch => htouch.keep ht (fun _ _ => rfl))
  · intro f hf
    by_cases hnew : f ∈ task.change.files.toFinset
    · exact .inr (Touched.self ht _ (List.mem_toFinset.1 hnew) rfl)
    · have hold := hf.imp_left fun hmem => (Finset.mem_union.1 hmem).resolve_right hnew
      refine (h.flagged f hold).imp_right (fun htouch => htouch.keep ht ?_)
      simp [Task.halfWay, hp]

end

theorem lookup_foldl_insert (uriOf : FileId → U) (files : List FileId) :
    ∀ (blocked : HashMap FileId U) (f : FileId),
      (files.foldl (fun blocked fileId => blocked.insert fileId (uriOf fileId)) blocked).lookup f
        = if f ∈ files then some (uriOf f) else blocked.lookup f := by
  induction files with
  | nil =>
    intro blocked f
    simp
  | cons file files ih =>
    intro blocked f
    rw [List.foldl_cons, ih, lookup_insert_ite]
    by_cases hmem : f ∈ files
    · simp [hmem]
    · by_cases heq : f = file
      · simp [heq]
      · simp [hmem, heq]

/-- Blocking the documents of the files. -/
theorem Accounted.blocks (h : s.Accounted uriOf) (ht : s.tasks[id]? = some task)
    (hp : task.phase = .queued) :
    Accounted uriOf { s with
      shared := { s.shared with
        blockedDocuments := task.change.files.foldl
          (fun blocked fileId => blocked.insert fileId (uriOf fileId)) s.shared.blockedDocuments }
      tasks := s.tasks.set id { task with phase := .blocked } } := by
  refine h.texts (fun _ => .inl) (fun _ => .inl) (fun _ hf => hf)
    (fun _ hf => hf) (fun f hf => .inr (hf.keep ht (by simp [Task.queuesLater, hp]))) .inl
    (fun _ hr => hr) ?_ ?_
  · intro f hf
    simp only
    rw [lookup_foldl_insert]
    by_cases hmem : f ∈ task.change.files
    · rw [if_pos hmem]
      exact .inl rfl
    · rw [if_neg hmem]
      exact (h.blocked f hf).imp_right
        (fun htouch => htouch.keep ht (fun hmem' => absurd hmem' hmem))
  · intro f hf
    exact (h.flagged f hf).imp_right (fun htouch => htouch.keep ht (fun _ _ => rfl))

end Tasks

end System

/-! ## §3. Steps of the loop -/

/-- The loop is about to release the edited files, since no rebuild can start. -/
def Loop.abandons (loop : Loop) : Bool :=
  match loop.pc with
  | .abandon _ => true
  | _ => false

/-- What the loop does about text and documents: staged text it was about to take is taken,
    or abandoned; it starts no release. -/
structure Loop.TextMoves (s s' : Shared U) (loop loop' : Loop) : Prop where
  takes : loop.takesText = true →
    loop'.takesText = true ∨ s'.staged = ∅ ∨ loop.abandons = true
  drains : loop.pc = .debounce → s.pendingFiles ≠ ∅ → loop'.takesText = true
  releases : ∀ f, loop'.Releases f → loop.Releases f

theorem Loop.textMoves_continueAt (s s' : Shared U) (loop loop' : Loop) (next : Next)
    (hno : loop.takesText = false) (hpc : loop.pc ≠ .debounce) :
    TextMoves s s' loop (loop'.continueAt next) := by
  refine ⟨?_, fun h => absurd h hpc, ?_⟩
  · intro h
    rw [hno] at h
    exact absurd h (by simp)
  · intro f h
    cases next <;> exact h.elim

theorem Loop.next_textMoves (s s' : Shared U) (loop loop' : Loop)
    (h : loop.next s = some (s', loop')) : TextMoves s s' loop loop' := by
  unfold next at h
  -- a step to a place that takes no text and releases nothing
  have hplain : ∀ after : Loop, (∀ f, after.Releases f → loop.Releases f) →
      ∀ (_ : loop.takesText = false := by simp [takesText, *])
        (_ : loop.pc ≠ .debounce := by simp [*]), TextMoves s s' loop after := by
    intro after hrel hno hpc
    refine ⟨fun ht => ?_, fun hd => absurd hd hpc, hrel⟩
    rw [hno] at ht
    exact absurd ht (by simp)
  cases hp : loop.pc with
  | top | looked scheduled =>
    simp only [hp] at h
    split_ifs at h <;>
    · cases h
      exact hplain _ (fun _ hr => hr.elim)
  | rebuilding | rebuilt | recovered next =>
    simp only [hp] at h
    cases h
    exact hplain _ (fun _ hr => hr.elim)
  | look =>
    simp only [hp] at h
    obtain ⟨-, heq⟩ := s.unlessLocked_eq _ _ h
    cases heq
    exact hplain _ (fun _ hr => hr.elim)
  | parked => simp [hp] at h
  | debounce =>
    simp only [hp] at h
    obtain ⟨-, heq⟩ := s.unlessLocked_eq _ _ h
    cases heq
    refine ⟨?_, ?_, ?_⟩
    · intro ht
      exact absurd ht (by simp [takesText, hp])
    · intro _ hne
      rw [if_neg hne]
      rfl
    · intro f hr
      split_ifs at hr <;> exact hr.elim
  | takeIn ids next | recover next =>
    simp only [hp] at h
    split_ifs at h <;> cases h
    · exact ⟨fun _ => .inl rfl, by simp [hp], fun _ hr => hr.elim⟩
    · exact ⟨fun _ => .inr (.inl rfl), by simp [hp], fun _ hr => hr.elim⟩
  | taken ids next =>
    simp only [hp] at h
    cases h
    exact textMoves_continueAt _ _ loop _ next (by simp [takesText, hp]) (by simp [hp])
  | giveUp next =>
    simp only [hp] at h
    cases h
    exact ⟨fun _ => .inl rfl, by simp [hp], fun _ hr => hr.elim⟩
  | abandon next =>
    simp only [hp] at h
    obtain ⟨rfl, -⟩ := Shared.callRelease_eq h
    exact ⟨fun _ => .inr (.inr (by simp [abandons, hp])), by simp [hp], fun _ hr => hr.elim⟩
  | refresh r next =>
    simp only [hp, Option.map_eq_some_iff, Prod.mk.injEq] at h
    obtain ⟨⟨shared, after⟩, -, -, hl⟩ := h
    simp only at hl
    subst hl
    cases after with
    | none =>
      exact textMoves_continueAt _ _ loop loop next (by simp [takesText, hp]) (by simp [hp])
    | some r' =>
      exact hplain _ (fun _ hr => hr.elim)
  | canStart =>
    simp only [hp] at h
    cases h
    refine hplain _ ?_
    intro f hr
    split_ifs at hr <;> exact hr.elim
  | slice => simp [hp] at h
  | release ids progress =>
    simp only [hp] at h
    obtain ⟨rfl, -⟩ := Shared.callRelease_eq h
    cases progress with
    | Settling | TextChanged =>
      exact hplain _ (fun _ hr => hr.elim)
    | Settled =>
      refine hplain _ (fun f _ => ?_)
      simp [Releases, hp]
  | settle =>
    simp only [hp] at h
    cases h
    refine hplain _ (fun f _ => ?_)
    simp [Releases, hp]
  | releaseSettled ids =>
    simp only [hp] at h
    obtain ⟨rfl, -⟩ := Shared.callRelease_eq h
    exact hplain _ (fun _ hr => hr.elim)
  | stopped => simp [hp] at h

namespace System

section Loops

variable {uriOf : FileId → U} {s : System U} {shared : Shared U} {loop : Loop}

section

variable (h : s.Accounted uriOf) (hmoves : Loop.TextMoves s.shared shared s.loop loop)
  (habandons : s.loop.abandons = true →
    ∀ f ∈ s.shared.staged ∪ s.shared.unsettled, s.Queues f)
include h hmoves

include habandons in
/-- A step that leaves the sets and the blocked documents alone. -/
theorem Accounted.loop_other (hpending : shared.pendingFiles = s.shared.pendingFiles)
    (hreindexing : shared.reindexingFiles = s.shared.reindexingFiles)
    (hblocked : shared.blockedDocuments = s.shared.blockedDocuments)
    (hunsettled : shared.unsettled = s.shared.unsettled)
    (hstaged : shared.staged = s.shared.staged ∨ shared.staged = ∅)
    (hflag : (s.shared.hasPendingChanges = true → shared.hasPendingChanges = true) ∨
      (s.shared.pendingFiles = ∅ ∧ s.shared.reindexingFiles = ∅)) :
    Accounted uriOf { s with shared := shared, loop := loop } := by
  refine h.texts (fun f hf => .inl (hunsettled ▸ hf)) ?_ hpending.superset
    hreindexing.superset (fun _ => .inr) ?_ hmoves.releases ?_ ?_
  · intro f hf
    obtain hsame | hempty := hstaged
    · exact .inl (hsame ▸ hf)
    · exact absurd hf (by simp [hempty])
  · intro htakes
    refine (hmoves.takes htakes).imp_right fun htakes f hf => ?_
    obtain hempty | habandon := htakes
    · exact absurd hf (by simp [hempty])
    · obtain hsame | hempty := hstaged
      · have hkept := habandons habandon f (Finset.mem_union_left _ (hsame ▸ hf))
        exact hkept.imp_left fun hset => hpending.superset hset
      · exact absurd hf (by simp [hempty])
  · intro f hf
    simp only [hpending, hreindexing] at hf
    simp only [hblocked]
    exact h.blocked f hf
  · intro f hf
    simp only [hpending, hreindexing] at hf
    obtain hmono | ⟨hpe, hre⟩ := hflag
    · exact (h.flagged f hf).imp_left hmono
    · rw [hpe, hre] at hf
      exact absurd hf (by simp)

/-- Queued files are being re-indexed now, and about to be taken. -/
theorem Accounted.drains (hpc : s.loop.pc = .debounce)
    (hs : shared = { s.shared with
      pendingFiles := ∅
      reindexingFiles := s.shared.reindexingFiles ∪ s.shared.pendingFiles }) :
    Accounted uriOf { s with shared := shared, loop := loop } := by
  have hold : ∀ f, f ∈ shared.pendingFiles ∨ f ∈ shared.reindexingFiles →
      f ∈ s.shared.pendingFiles ∨ f ∈ s.shared.reindexingFiles := by
    intro f hf
    subst hs
    obtain hf | hf := hf
    · exact absurd hf (by simp)
    · exact (Finset.mem_union.1 hf).symm
  have hnew : ∀ f, f ∈ s.shared.pendingFiles ∨ f ∈ s.shared.reindexingFiles →
      f ∈ shared.reindexingFiles := by
    intro f hf
    subst hs
    exact Finset.mem_union.2 hf.symm
  have hnot : ∀ f, ¬ s.loop.Releases f := by
    intro f hr
    unfold Releases at hr
    rw [hpc] at hr
    exact hr
  refine ⟨?_, ?_, ?_, ?_, fun f _ hrel => absurd (hmoves.releases f hrel) (hnot f)⟩
  · intro f hf
    have hb := h.blocked f (hold f hf)
    subst hs
    exact hb
  · intro f hf
    have hb := h.flagged f (hold f hf)
    subst hs
    exact hb
  · intro f hf
    have hf' : f ∈ s.shared.unsettled := by
      subst hs
      exact hf
    exact (h.text f hf').imp_left fun hset => .inr (hnew f hset)
  · intro f hf
    have hf' : f ∈ s.shared.staged := by
      subst hs
      exact hf
    obtain (hset | htouch) | htakes := h.staged f hf'
    · -- the queue was not empty: the loop takes what it drained
      have hne : s.shared.pendingFiles ≠ ∅ := Finset.ne_empty_of_mem hset
      exact .inr (hmoves.drains hpc hne)
    · exact .inl (.inr htouch)
    · exact absurd htakes (by simp [takesText, hpc])

include habandons in
/-- Releasing documents, where the files that were queued again are about to be blocked. -/
theorem Accounted.releases (ids : Finset FileId)
    (hpc : (∃ progress, s.loop.pc = .release ids progress) ∨ s.loop.pc = .releaseSettled ids ∨
      ((∃ next, s.loop.pc = .abandon next) ∧ ids = s.loop.edited))
    (hs : shared = s.shared.releaseDocuments ids)
    (hqueued : ∀ f ∈ ids, f ∈ s.shared.pendingFiles →
      Touched s.tasks (fun task => task.blocksLater = true) f) :
    Accounted uriOf { s with shared := shared, loop := loop } := by
  subst hs
  have hold : ∀ f, f ∈ s.shared.pendingFiles ∨ f ∈ s.shared.reindexingFiles \ ids →
      f ∈ s.shared.pendingFiles ∨ f ∈ s.shared.reindexingFiles := by
    intro f hf
    exact hf.imp_right (fun hmem => (Finset.mem_sdiff.1 hmem).1)
  refine ⟨?_, ?_, ?_, ?_, ?_⟩
  · intro f hf
    have hf' : f ∈ s.shared.pendingFiles ∨ f ∈ s.shared.reindexingFiles \ ids := hf
    show (s.shared.blockedDocuments.filterMapEntries _).lookup f = _ ∨ _
    rw [AList.lookup_filterMapEntries]
    by_cases hids : f ∈ ids
    · obtain hpe | hre := hf'
      · exact .inr (hqueued f hids hpe)
      · exact absurd hids (Finset.mem_sdiff.1 hre).2
    · refine (h.blocked f (hold f hf')).imp_left ?_
      intro hb
      rw [hb]
      simp [hids]
  · exact fun f hf => h.flagged f (hold f hf)
  · intro f hf
    obtain hset | htouch := h.text f hf
    · by_cases hids : f ∈ ids
      · suffices hqueues : s.Queues f from hqueues.imp_left .inl
        -- released as settled: newer text is queued or about to be
        obtain ⟨progress, hp⟩ | hp | ⟨⟨next, hp⟩, -⟩ := hpc
        · have hrel : s.loop.Releases f := by
            unfold Releases
            rw [hp]
            exact .inl hids
          exact h.releasing f hf hrel
        · have hrel : s.loop.Releases f := by
            unfold Releases
            rw [hp]
            trivial
          exact h.releasing f hf hrel
        · exact habandons (by simp [abandons, hp]) f (Finset.mem_union_right _ hf)
      · exact .inl (hset.imp_right (fun hre => Finset.mem_sdiff.2 ⟨hre, hids⟩))
    · exact .inr htouch
  · intro f hf
    obtain hqueues | htakes := h.staged f hf
    · exact .inl hqueues
    · obtain htakes' | hempty | habandon := hmoves.takes htakes
      · exact .inr htakes'
      · exact absurd hf (by
          show f ∉ (s.shared.releaseDocuments ids).staged
          rw [hempty]
          simp)
      · exact .inl (habandons habandon f (Finset.mem_union_left _ hf))
  · exact fun f hf hrel => h.releasing f hf (hmoves.releases f hrel)

end

end Loops

/-! ## §4. The release of a file that was scheduled again -/

end System

/-- The documents the next access of the loop releases. -/
def Loop.releasing (loop : Loop) : Finset FileId :=
  match loop.pc with
  | .release ids _ | .releaseSettled ids => ids
  | .abandon _ => loop.edited
  | _ => ∅

/-- Change tasks begin, apply, schedule and finish, in this order. -/
def Label.inOrder : Label → Bool
  | .drop _ => false
  | _ => true

namespace System

/-- No document is released whose file is queued again, unless a change of it has yet to
    block it. -/
def releasesUnqueued (s : System U) : Label → Bool
  | .loop => decide (∀ f ∈ s.loop.releasing ∩ s.shared.pendingFiles,
      (s.tasks.any fun task => task.blocksLater && decide (f ∈ task.change.files)) = true)
  | _ => true

/-- A recovery that can start no rebuild abandons no text: every file with text that is not
    taken in and settled is queued, or a change of it is about to queue it. -/
def abandonsNoText (s : System U) : Label → Bool
  | .loop => !s.loop.abandons || decide (∀ f ∈ s.shared.staged ∪ s.shared.unsettled,
      f ∈ s.shared.pendingFiles ∨
        (s.tasks.any fun task => task.queuesLater && decide (f ∈ task.change.files)) = true)
  | _ => true

variable [DecidableEq U] {uriOf : FileId → U}

omit [DecidableEq U] in
theorem touched_of_any {s : System U} {at_ : Task → Bool} {f : FileId}
    (h : (s.tasks.any fun task => at_ task && decide (f ∈ task.change.files)) = true) :
    Touched s.tasks (fun task => at_ task = true) f := by
  obtain ⟨task, hmem, hat⟩ := List.any_eq_true.1 h
  rw [Bool.and_eq_true, decide_eq_true_eq] at hat
  exact ⟨task, hmem, hat.2, hat.1⟩

omit [DecidableEq U] in
/-- Only an access with both sets empty lowers the flag. -/
theorem Locked.keeps_flag {s : System U} {shared : Shared U} {who : Who} {r : Refresh}
    {next : Option Refresh} (hl : s.Locked) (hr : s.refreshing who = some r)
    (hs : s.shared.refresh who r = some (shared, next)) :
    (s.shared.hasPendingChanges = true → shared.hasPendingChanges = true) ∨
      (s.shared.pendingFiles = ∅ ∧ s.shared.reindexingFiles = ∅) := by
  by_cases hclear : r = .loadedInFlight false
  · exact .inr (hl.empty who r hr (by rw [hclear]; rfl))
  · exact .inl (refresh_flag hs hclear)

/-- **Every step that releases no document queued again and abandons no text keeps every
    file accounted for.** -/
theorem accounted_step (s : System U) (label : Label) (s' : System U) (hl : s.Locked)
    (h : s.Accounted uriOf) (horder : label.inOrder = true)
    (hcond : s.releasesUnqueued label = true) (habandons : s.abandonsNoText label = true)
    (hstep : s.step uriOf label = some s') : s'.Accounted uriOf := by
  -- what the loop does while it waits
  have hwaits : ∀ (loop : Loop), (s.loop.takesText = true → loop.takesText = true) →
      (∀ f, ¬ loop.Releases f) → (s.loop.pc = .debounce → loop.takesText = true) →
      s.loop.abandons = false → Accounted uriOf { s with loop := loop } := by
    intro loop htakes hnot hdeb haban
    have hmoves : TextMoves s.shared s.shared s.loop loop :=
      ⟨fun ht => .inl (htakes ht), fun hp _ => hdeb hp, fun f hr => absurd hr (hnot f)⟩
    exact h.loop_other hmoves (fun ha => absurd (haban ▸ ha) (by simp)) rfl rfl rfl rfl
      (.inl rfl) (.inl (fun hf => hf))
  cases label with
  | begin change =>
    cases hstep
    have hmore : ∀ at_ f, Touched s.tasks at_ f →
        Touched (s.tasks ++ [⟨change, .announced⟩]) at_ f := by
      intro at_ f ht
      obtain ⟨task, hmem, hrest⟩ := ht
      exact ⟨task, List.mem_append_left _ hmem, hrest⟩
    have hframe : ∃ documents unscoped, s.shared.announce uriOf change
        = { s.shared with inFlightDocuments := documents, inFlightUnscoped := unscoped } := by
      unfold Shared.announce
      split_ifs <;> exact ⟨_, _, rfl⟩
    obtain ⟨documents, unscoped, hframe⟩ := hframe
    rw [hframe]
    exact h.texts (fun _ => .inl) (fun _ => .inl) (fun _ hf => hf)
      (fun _ hf => hf) (fun f hf => .inr (hmore _ f hf)) .inl
      (fun _ hr => hr) (fun f hf => (h.blocked f hf).imp_right (hmore _ f))
      (fun f hf => (h.flagged f hf).imp_right (hmore _ f))
  | task id =>
    obtain ⟨task, shared, phase, ht, hnext, rfl⟩ := step_task hstep
    cases Task.next_moves uriOf s.shared shared id task phase hnext with
    | counts hp hs hp' =>
      subst hs hp'
      exact h.task_other ht rfl rfl rfl rfl rfl (fun _ => .inl rfl)
        (.inl (fun hf => hf)) (fun _ => .inl rfl) (fun _ => .inl rfl)
    | begins hp hs hp' =>
      subst hs hp'
      exact h.task_other ht rfl rfl rfl rfl rfl (fun _ => .inl rfl)
        (.inl (fun _ => rfl)) (fun _ => .inr rfl) (fun _ => .inl rfl)
    | applies hp hs hp' =>
      subst hs hp'
      exact h.applies ht hp
    | skips hp hfiles hs hp' =>
      subst hs hp'
      exact h.task_other ht rfl rfl rfl rfl rfl (fun _ => .inr hfiles)
        (.inl (fun hf => hf)) (by simp [Task.halfWay, hp]) (fun _ => .inr hfiles)
    | queues hp _ hs hp' =>
      subst hs hp'
      exact h.queues ht hp
    | blocks hp hs hp' =>
      subst hs hp'
      exact h.blocks ht hp
    | schedules hp hs hp' =>
      subst hs hp'
      exact h.task_other ht rfl rfl rfl rfl rfl (by simp [Task.blocksLater, hp])
        (.inl (fun _ => rfl)) (fun _ => .inr rfl) (by simp [Task.queuesLater, hp])
    | withdraws hp hs hp' =>
      subst hs hp'
      refine h.task_other ht ?_ ?_ ?_ ?_ ?_ (by simp [Task.blocksLater, hp]) (.inl ?_)
        (by simp [Task.halfWay, hp]) (by simp [Task.queuesLater, hp])
      all_goals
        unfold Shared.withdraw
        split_ifs
      all_goals first | rfl | exact fun hf => hf
    | uncounts hp hs hp' =>
      subst hs hp'
      exact h.task_other ht rfl rfl rfl rfl rfl (by simp [Task.blocksLater, hp])
        (.inl (fun hf => hf)) (by simp [Task.halfWay, hp]) (by simp [Task.queuesLater, hp])
    | refreshes r next hp hs _ _ =>
      obtain ⟨flag, locks, hframe⟩ := Shared.refresh_frame hs
      have hr : s.refreshing (.task id) = some r := by
        show (s.tasks[id]?).bind _ = _
        rw [ht]
        show task.phase.refreshing = _
        rw [hp]
        rfl
      have hflag := hl.keeps_flag hr hs
      subst hframe
      exact h.task_other ht rfl rfl rfl rfl rfl (by simp [Task.blocksLater, hp]) hflag
        (by simp [Task.halfWay, hp]) (by simp [Task.queuesLater, hp])
  | drop id => exact absurd horder (by simp [Label.inOrder])
  | requestRebuild =>
    cases hstep
    exact ⟨h.blocked, h.flagged, h.text, h.staged, h.releasing⟩
  | requestNoted =>
    simp only [step] at hstep
    split_ifs at hstep
    cases hstep
    exact ⟨h.blocked, fun _ _ => .inl rfl, h.text, h.staged, h.releasing⟩
  | loop =>
    obtain ⟨shared, loop, hnext, rfl⟩ := step_loop hstep
    have hmoves := next_textMoves s.shared shared s.loop loop hnext
    have hkept : s.loop.abandons = true →
        ∀ f ∈ s.shared.staged ∪ s.shared.unsettled, s.Queues f := by
      intro habandon f hf
      obtain hno | hall := Bool.or_eq_true_iff.1 habandons
      · rw [habandon] at hno
        exact absurd hno (by simp)
      · exact (of_decide_eq_true hall f hf).imp_right touched_of_any
    cases next_moves s.shared shared s.loop loop hnext with
    | idles hs _ _ | takesRequest _ hs _ | settles _ hs _ _ | stopsSettling hs _ _ =>
      subst hs
      exact h.loop_other hmoves hkept rfl rfl rfl rfl (.inl rfl) (.inl (fun hf => hf))
    | takesText hs _ _ =>
      subst hs
      exact h.loop_other hmoves hkept rfl rfl rfl rfl (.inr rfl) (.inl (fun hf => hf))
    | drains hpc _ hs _ _ => exact h.drains hmoves hpc hs
    | releases ids hpc _ hs _ _ =>
      refine h.releases hmoves hkept ids hpc hs ?_
      have hids : s.loop.releasing = ids := by
        unfold releasing
        obtain ⟨progress, hp⟩ | hp | ⟨⟨next, hp⟩, hed⟩ := hpc
        · rw [hp]
        · rw [hp]
        · rw [hp, hed]
      intro f hf hpe
      exact touched_of_any (of_decide_eq_true hcond f (Finset.mem_inter.2 ⟨hids ▸ hf, hpe⟩))
    | refreshes r after next hp hs _ _ =>
      obtain ⟨flag, locks, hframe⟩ := Shared.refresh_frame hs
      have hr : s.refreshing .loop = some r := by
        show s.loop.pc.refreshing = _
        rw [hp]
        rfl
      have hflag := hl.keeps_flag hr hs
      subst hframe
      exact h.loop_other hmoves hkept rfl rfl rfl rfl (.inl rfl) hflag
  | fails =>
    simp only [step, Option.map_eq_some_iff] at hstep
    obtain ⟨loop, hfails, rfl⟩ := hstep
    obtain ⟨hp, hl'⟩ | ⟨ids, next, hp, hl'⟩ | ⟨next, hp, hl'⟩ | ⟨hp, hl'⟩ :=
      fails_cases hfails <;>
    · subst hl'
      refine hwaits _ ?_ ?_ ?_ ?_ <;> simp [takesText, Releases, abandons, hp]
  | notified =>
    simp only [step] at hstep
    split_ifs at hstep with hp
    cases hstep
    refine hwaits _ ?_ ?_ ?_ ?_ <;> simp [takesText, Releases, abandons, hp]
  | timer =>
    simp only [step] at hstep
    split_ifs at hstep with hp
    · cases hstep
      refine hwaits _ ?_ ?_ ?_ ?_ <;>
        simp [takesText, Releases, abandons, continueAt, hp.1]
    · cases hstep
      refine hwaits _ ?_ ?_ ?_ ?_ <;> simp [takesText, Releases, abandons, hp.1]
  | slice progress settledFirst =>
    -- newer text of a file that settled is queued, or a change is about to queue it
    have hstaged : s.loop.pc = .slice → ∀ f ∈ s.shared.staged, s.Queues f := by
      intro hp f hf
      exact (h.staged f hf).resolve_right (by simp [takesText, hp])
    simp only [step] at hstep
    split_ifs at hstep with hp hset
    · cases hstep
      refine ⟨h.blocked, h.flagged, ?_, ?_, ?_⟩
      · exact fun f hf => h.text f (Finset.mem_inter.1 hf).1
      · exact fun f hf => .inl (hstaged hp.1 f hf)
      · exact fun f hf _ => hstaged hp.1 f (Finset.mem_inter.1 hf).2
    · cases hstep
      refine ⟨h.blocked, h.flagged, ?_, ?_, ?_⟩
      · exact fun f hf => h.text f (Finset.mem_sdiff.1 hf).1
      · exact fun f hf => .inl (hstaged hp.1 f hf)
      · intro f hf hrel
        obtain hmem | heq := hrel
        · obtain ⟨-, hnot⟩ := Finset.mem_sdiff.1 hf
          by_cases hst : f ∈ s.shared.staged
          · exact hstaged hp.1 f hst
          · exact absurd (Finset.mem_sdiff.2 ⟨hmem, hst⟩) hnot
        · exact absurd heq hset
  | shutdown =>
    simp only [step] at hstep
    split_ifs at hstep with hstops
    cases hstep
    refine hwaits _ (fun _ => rfl) (fun f hr => hr) (fun _ => rfl) ?_
    cases hp : s.loop.pc <;> simp_all [stops, abandons]

/-! ## §5. Whole runs -/

/-- What an answerable document's file is: neither queued nor being re-indexed, no change of
    it is under way, and all its text is settled. -/
def AnswersSettled {P : Type} [DecidableEq P] (uriOf : FileId → U) (path : U → Option P)
    (s : System U) : Prop :=
  ∀ f, s.shared.fileIsAnswerable path (uriOf f) = true →
    f ∉ s.shared.pendingFiles ∧ f ∉ s.shared.reindexingFiles ∧
    (∀ task ∈ s.tasks, f ∈ task.change.files → task.underWay = false) ∧
    f ∉ s.shared.unsettled

theorem underWay_of_blocksLater {task : Task} (h : task.blocksLater = true) :
    task.underWay = true := by
  unfold Task.blocksLater at h
  unfold Task.underWay
  cases hp : task.phase <;> simp_all

theorem underWay_of_queuesLater {task : Task} (h : task.queuesLater = true) :
    task.underWay = true := by
  unfold Task.queuesLater at h
  unfold Task.underWay
  cases hp : task.phase <;> simp_all

theorem underWay_of_halfWay {task : Task} (h : task.halfWay = true) : task.underWay = true := by
  unfold Task.halfWay at h
  unfold Task.underWay
  cases hp : task.phase <;> simp_all

theorem Accounted.answersSettled {P : Type} [DecidableEq P] {s : System U} (path : U → Option P)
    (h : s.Accounted uriOf) (hcounts : s.Counts uriOf) : s.AnswersSettled uriOf path := by
  intro f hans
  unfold Shared.fileIsAnswerable at hans
  split_ifs at hans with hin hflag
  all_goals
    have hnone : ∀ task ∈ s.tasks, f ∈ task.change.files → task.underWay = false := by
      intro task hmem hf
      by_contra hway
      rw [Bool.not_eq_false] at hway
      exact hin (hcounts.inFlight hmem hway hf)
    have happlied : ¬ Touched s.tasks (fun task => task.queuesLater = true) f := by
      intro htouch
      obtain ⟨task, hmem, hf, hat⟩ := htouch
      have hway := hnone task hmem hf
      rw [underWay_of_queuesLater hat] at hway
      exact absurd hway (by simp)
    suffices hsets : ¬ (f ∈ s.shared.pendingFiles ∨ f ∈ s.shared.reindexingFiles) from
      ⟨fun hf => hsets (.inl hf), fun hf => hsets (.inr hf), hnone,
        fun hf => not_or.2 ⟨hsets, happlied⟩ (h.text f hf)⟩
    intro hf
  · -- the flag is clear: nothing is queued or re-indexed
    obtain hset | ⟨task, hmem, hfile, hat⟩ := h.flagged f hf
    · rw [hset] at hflag
      exact absurd hflag (by simp)
    · have hway := hnone task hmem hfile
      rw [underWay_of_halfWay hat] at hway
      exact absurd hway (by simp)
  · obtain hb | ⟨task, hmem, hfile, hat⟩ := h.blocked f hf
    · rw [Bool.not_eq_true', List.any_eq_false] at hans
      have hentry := (mem_entries_iff s.shared.blockedDocuments f (uriOf f)).2 hb
      exact absurd (hans _ hentry) (by simp)
    · have hway := hnone task hmem hfile
      rw [underWay_of_blocksLater hat] at hway
      exact absurd hway (by simp)

end System

end GluaLs.Debounce
