/-
  GluaLs.Diag.Valid — no stale diagnostics are held as valid.

  Over every run of the store, by any number of workers and callers:

    • the queue is exactly the dirty files, and no file is dirty and computed at once,
    • the entry of a file that is neither was stored by a job CLAIMED SINCE the last time an
      invalidation or a forget reached the file (`ClaimedSince`), and a job that was not
      changes nothing when it finishes,
    • such an entry was computed under the current configuration, provided each
      `invalidate_all` listed the files being computed that had no entry yet
      (`ListsComputed`): it reaches listed files and stored ones only, so a first computation
      it does not list goes on and stores a result of the configuration before.
-/
import GluaLs.Diag.Sections

namespace GluaLs.Diag

variable {U D : Type} [DecidableEq U]

namespace Store

/-! ## §1. What a step does to the state and to the jobs -/

/-- An invalidation or a forget that reaches a file. -/
def Reached (s : State U D) (f : FileId) : Label U D → Prop
  | .invalidate fileIds _ => f ∈ fileIds
  | .invalidateAll fileIds => f ∈ fileIds ∨ s.entries.lookup f ≠ none
  | .forget fileId _ => f = fileId
  | .forgetMissing live =>
    (s.entries.lookup f ≠ none ∨ s.dirty.lookup f ≠ none) ∧ f ∉ live
  | _ => False

/-- The state as the files see it. -/
def SameFiles (s s' : State U D) : Prop :=
  s'.entries = s.entries ∧ s'.queue = s.queue ∧ s'.dirty = s.dirty ∧
    s'.computing = s.computing ∧ s'.sequence = s.sequence ∧ s'.configGen = s.configGen

/-- Everything a step can do to the state and to the jobs. -/
inductive Moves (resultId : List D → Nat) (store store' : Store U D) : Label U D → Prop where
  | invalidated (label : Label U D) (A : Set FileId)
      (h : State.Invalidates store.state store'.state A)
      (hA : ∀ f, Reached store.state f label → f ∈ A) (hjobs : store'.jobs = store.jobs)
      (hpub : store'.toPublish = store.toPublish) : Moves resultId store store' label
  | configured (files : List FileId)
      (h : State.Invalidates { store.state with configGen := store.state.configGen + 1 }
        store'.state {f | f ∈ files ∨ store.state.entries.lookup f ≠ none})
      (hjobs : store'.jobs = store.jobs) (hpub : store'.toPublish = store.toPublish) :
      Moves resultId store store' (.invalidateAll files)
  | forgot (label : Label U D) (A : Set FileId) (h : State.Forgets store.state store'.state A)
      (hA : ∀ f, Reached store.state f label → f ∈ A) (hjobs : store'.jobs = store.jobs)
      (hpub : store'.toPublish = store.toPublish) : Moves resultId store store' label
  | claimed (job : Job) (h : State.Claims store.state store'.state job)
      (hjobs : store'.jobs = store.jobs ++ [job]) (hpub : store'.toPublish = store.toPublish) :
      Moves resultId store store' (.claim job.fileId)
  | finished (worker : Nat) (computed : Computed U D) (stale : Bool) (version : Option Int)
      (job : Job) (published : Option (Published U D)) (hjob : store.jobs[worker]? = some job)
      (h : State.Finishes resultId store.state store'.state job computed stale published)
      (hjobs : store'.jobs = store.jobs.eraseIdx worker)
      (hpub : store'.toPublish
        = store.toPublish ++ (published.map fun p => (job, p)).toList) :
      Moves resultId store store' (.finish worker computed stale version)
  | kept (label : Label U D) (h : SameFiles store.state store'.state)
      (hA : ∀ f, ¬ Reached store.state f label) (hjobs : store'.jobs = store.jobs)
      (hpub : store'.toPublish.Sublist store.toPublish) : Moves resultId store store' label

omit [DecidableEq U] in
theorem sameFiles_refl (s : State U D) : SameFiles s s := ⟨rfl, rfl, rfl, rfl, rfl, rfl⟩

omit [DecidableEq U] in
theorem lockPublishing_spec (store store' : Store U D) (messages : List (Message U D))
    (h : store.lockPublishing messages = some store') :
    store.sending = none ∧ store' = { store with sending := some messages } := by
  unfold lockPublishing at h
  cases hs : store.sending with
  | none =>
    rw [hs] at h
    exact ⟨rfl, (Option.some.inj h).symm⟩
  | some messages' =>
    rw [hs] at h
    exact absurd h (by simp)

/-- **Inversion of a step.** -/
theorem step_moves (resultId : List D → Nat) (store store' : Store U D) (label : Label U D)
    (h : step resultId store label = some store') : Moves resultId store store' label := by
  cases label with
  | setOpen f isOpen =>
    cases h
    obtain ⟨A, hA, -⟩ := store.state.setOpen_spec f isOpen
    exact .invalidated _ A hA (fun _ hr => hr.elim) rfl rfl
  | invalidate files edited =>
    cases h
    exact .invalidated _ _ (store.state.invalidateFiles_spec files edited) (fun _ hr => hr)
      rfl rfl
  | invalidateAll files =>
    cases h
    exact .configured files (store.state.invalidateAll_spec files) rfl rfl
  | forget f uri =>
    cases h
    exact .forgot _ {f} (store.state.forget_spec f).1 (fun _ hr => hr) rfl rfl
  | forgetMissing live =>
    obtain ⟨-, rfl⟩ := lockPublishing_spec _ store' _ h
    exact .forgot _ _ (store.state.forgetMissing_spec live).1 (fun _ hr => hr) rfl rfl
  | get f priority =>
    cases h
    obtain ⟨A, hA, -⟩ := store.state.get_spec f priority
    exact .invalidated _ A hA (fun _ hr => hr.elim) rfl rfl
  | getAll files =>
    cases h
    obtain ⟨A, hA, -⟩ := State.getAll_spec files store.state
    exact .invalidated _ A hA (fun _ hr => hr.elim) rfl rfl
  | claim f =>
    cases hc : store.state.claim f with
    | none =>
      simp only [step, hc, Option.some.injEq] at h
      subst h
      exact .kept _ (sameFiles_refl _) (fun _ hr => hr.elim) rfl (.refl _)
    | some r =>
      obtain ⟨state, job⟩ := r
      simp only [step, hc, Option.some.injEq] at h
      subst h
      obtain ⟨rfl, hclaims⟩ := State.claim_spec store.state state f job hc
      exact .claimed job hclaims rfl rfl
  | finish worker computed stale version =>
    cases hj : store.jobs[worker]? with
    | none => simp [step, hj] at h
    | some job =>
      simp only [step, hj, Option.some.injEq] at h
      subst h
      exact .finished worker computed stale version job _ hj
        (State.finish_spec resultId store.state job computed stale version) rfl rfl
  | publish pending =>
    cases hp : store.toPublish[pending]? with
    | none => simp [step, hp] at h
    | some item =>
      simp only [step, hp] at h
      obtain ⟨-, rfl⟩ := lockPublishing_spec _ store' _ h
      exact .kept _ (sameFiles_refl _) (fun _ hr => hr.elim) rfl (List.eraseIdx_sublist _ _)
  | clearForgotten pending =>
    cases hp : store.toClear[pending]? with
    | none => simp [step, hp] at h
    | some item =>
      simp only [step, hp] at h
      obtain ⟨-, rfl⟩ := lockPublishing_spec _ store' _ h
      exact .kept _ (sameFiles_refl _) (fun _ hr => hr.elim) rfl (.refl _)
  | publishOpened f version =>
    obtain ⟨-, rfl⟩ := lockPublishing_spec _ store' _ h
    exact .kept _ (sameFiles_refl _) (fun _ hr => hr.elim) rfl (.refl _)
  | send =>
    cases hs : store.sending with
    | none => simp [step, hs] at h
    | some messages =>
      cases messages with
      | nil => simp [step, hs] at h
      | cons message messages =>
        simp only [step, hs, Option.some.injEq] at h
        subst h
        exact .kept _ (sameFiles_refl _) (fun _ hr => hr.elim) rfl (.refl _)
  | release =>
    cases hs : store.sending with
    | none => simp [step, hs] at h
    | some messages =>
      cases messages with
      | nil =>
        simp only [step, hs, Option.some.injEq] at h
        subst h
        exact .kept _ (sameFiles_refl _) (fun _ hr => hr.elim) rfl (.refl _)
      | cons message messages => simp [step, hs] at h
  | stop =>
    cases h
    exact .kept _ (sameFiles_refl _) (fun _ hr => hr.elim) rfl (.refl _)

/-! ## §2. The claim behind an entry -/

/-- The run claimed `f` as job `id`, and nothing reached `f` since. -/
def ClaimedSince (resultId : List D → Nat) (labels : List (Label U D)) (f : FileId) (id : Nat) :
    Prop :=
  ∃ before after s, labels = before ++ .claim f :: after ∧ Reaches resultId before s ∧
    s.state.dirty.lookup f ≠ none ∧ id = s.state.sequence + 1 ∧
    ∀ mid label rest t, after = mid ++ label :: rest →
      Reaches resultId (before ++ .claim f :: mid) t → ¬ Reached t.state f label

/-- A step that does not reach the file keeps its claim. -/
theorem ClaimedSince.extend {resultId : List D → Nat} {labels : List (Label U D)} {f : FileId}
    {id : Nat} {store : Store U D} {label : Label U D} (h : ClaimedSince resultId labels f id)
    (hreach : Reaches resultId labels store) (hnot : ¬ Reached store.state f label) :
    ClaimedSince resultId (labels ++ [label]) f id := by
  obtain ⟨before, after, s, hl, hs, hdirty, hid, hafter⟩ := h
  refine ⟨before, after ++ [label], s, by simp [hl], hs, hdirty, hid, ?_⟩
  intro mid label' rest t hsplit ht
  obtain rfl | ⟨init, last, rfl⟩ := List.eq_nil_or_concat' rest
  · -- the last step of the run
    obtain ⟨hmid, hlast⟩ := List.append_inj' hsplit rfl
    cases hlast
    rw [← hmid, ← hl] at ht
    have : store = t := Option.some.inj (hreach.symm.trans ht)
    rw [← this]
    exact hnot
  · have hsplit' : after ++ [label] = (mid ++ label' :: init) ++ [last] := by
      rw [hsplit]
      simp
    exact hafter mid label' init t (List.append_inj' hsplit' rfl).1 ht

/-- What every run keeps. -/
structure Sound (resultId : List D → Nat) (labels : List (Label U D)) (store : Store U D) :
    Prop where
  queue : store.state.QueueIsDirty
  exclusive : store.state.Exclusive
  computing : ∀ f id, store.state.computing.lookup f = some id →
    ClaimedSince resultId labels f id
  entry : ∀ f e, store.state.entries.lookup f = some e → store.state.dirty.lookup f = none →
    store.state.computing.lookup f = none → ClaimedSince resultId labels f e.job

theorem sound_empty (resultId : List D → Nat) : Sound resultId [] (Store.empty (U := U)) := by
  refine ⟨?_, fun _ => .inl rfl, ?_, ?_⟩
  · intro p q f
    constructor
    · intro h
      exact absurd h (Finset.notMem_empty _)
    · intro h
      exact absurd (show (none : Option (Priority × Nat)) = some (p, q) from h) (by simp)
  · intro f id h
    exact absurd (show (none : Option Nat) = some id from h) (by simp)
  · intro f e h
    exact absurd (show (none : Option (Entry U D)) = some e from h) (by simp)

/-- A file a step leaves as it was, without reaching it. -/
def Untouched (store store' : Store U D) (label : Label U D) (f : FileId) : Prop :=
  store'.state.entries.lookup f = store.state.entries.lookup f ∧
    store'.state.dirty.lookup f = store.state.dirty.lookup f ∧
    store'.state.computing.lookup f = store.state.computing.lookup f ∧
    ¬ Reached store.state f label

/-- A file that holds no diagnostics as valid and is not computed. -/
def Unheld (s : State U D) (f : FileId) : Prop :=
  s.computing.lookup f = none ∧ (s.entries.lookup f = none ∨ s.dirty.lookup f ≠ none)

/-- What a step does to one file: it leaves it as it was, or ends what it held, or claims it,
    or stores the result of its current job. -/
inductive FileMoves (store store' : Store U D) (label : Label U D) (f : FileId) : Prop where
  | untouched (h : Untouched store store' label f)
  | unheld (h : Unheld store'.state f)
  | claimed (job : Job) (h : State.Claims store.state store'.state job)
      (hlabel : label = .claim job.fileId) (hf : f = job.fileId)
  | stored (job : Job) (hmem : job ∈ store.jobs) (hf : f = job.fileId)
      (hcur : store.state.computing.lookup job.fileId = some job.id)
      (hnot : ¬ Reached store.state f label) (hcomputing : store'.state.computing.lookup f = none)
      (hgen : store'.state.configGen = store.state.configGen)
      (hentry : ∀ e, store'.state.entries.lookup f = some e →
        e.job = job.id ∧ e.configGen = job.configGen)

section

variable {resultId : List D → Nat} {store store' : Store U D} {label : Label U D}
  (hm : Moves resultId store store' label)
include hm

theorem files_of_moves (f : FileId) : FileMoves store store' label f := by
  -- an invalidated file holds nothing; the others are left as they were
  have hinvalidated : ∀ (s : State U D) (A : Set FileId), s.entries = store.state.entries →
      s.dirty = store.state.dirty → s.computing = store.state.computing →
      State.Invalidates s store'.state A → (Reached store.state f label → f ∈ A) →
      FileMoves store store' label f := by
    intro s A he hd hc hinv hA
    by_cases hf : f ∈ A
    · exact .unheld ⟨(hinv.reached f hf).1, .inr (hinv.reached f hf).2⟩
    · refine .untouched ⟨?_, ?_, ?_, fun hr => hf (hA hr)⟩
      · rw [hinv.entries, he]
      · rw [(hinv.others f hf).2, hd]
      · rw [(hinv.others f hf).1, hc]
  cases hm with
  | invalidated _ A hinv hA => exact hinvalidated _ A rfl rfl rfl hinv (hA f)
  | configured files hinv =>
    exact hinvalidated { store.state with configGen := store.state.configGen + 1 } _ rfl rfl rfl
      hinv (fun hr => hr)
  | forgot _ A hfor hA =>
    by_cases hf : f ∈ A
    · obtain ⟨he, hc, -⟩ := hfor.reached f hf
      exact .unheld ⟨hc, .inl he⟩
    · obtain ⟨he, hc, hd⟩ := hfor.others f hf
      exact .untouched ⟨he, hd, hc, fun hr => hf (hA f hr)⟩
  | claimed job hcl =>
    by_cases hf : f = job.fileId
    · exact .claimed job hcl rfl hf
    · refine .untouched ⟨by rw [hcl.entries], ?_, ?_, fun hr => hr⟩
      · rw [hcl.dirty f, if_neg hf]
      · rw [hcl.computing f, if_neg hf]
  | finished worker computed stale version job published hjob hfin =>
    cases hfin with
    | superseded hcur hsame =>
      refine .untouched ?_
      unfold Untouched
      rw [hsame]
      exact ⟨rfl, rfl, rfl, fun hr => hr⟩
    | again hcur hinv => exact hinvalidated _ _ rfl rfl rfl hinv (fun hr => hr.elim)
    | gone hcur _ hpub hentries hcomputing hdirty =>
      by_cases hf : f = job.fileId
      · exact .unheld ⟨by rw [hcomputing f, if_pos hf], .inl (by rw [hentries f, if_pos hf])⟩
      · exact .untouched ⟨by rw [hentries f, if_neg hf], by rw [hdirty],
          by rw [hcomputing f, if_neg hf], fun hr => hr⟩
    | stored uri diagnostics v hcur hcanc hcomp hst _ hpub hentries hcomputing hdirty _ hgen =>
      by_cases hf : f = job.fileId
      · refine .stored job (List.mem_of_getElem? hjob) hf hcur (fun hr => hr)
          (by rw [hcomputing f, if_pos hf]) hgen ?_
        intro e he
        rw [hentries f, if_pos hf] at he
        cases he
        exact ⟨rfl, rfl⟩
      · exact .untouched ⟨by rw [hentries f, if_neg hf], by rw [hdirty],
          by rw [hcomputing f, if_neg hf], fun hr => hr⟩
  | kept _ hsame hA =>
    obtain ⟨hen, -, hdi, hco, -, -⟩ := hsame
    exact .untouched ⟨by rw [hen], by rw [hdi], by rw [hco], hA f⟩

theorem queue_of_moves (hq : store.state.QueueIsDirty) : store'.state.QueueIsDirty := by
  have hsame : store'.state.queue = store.state.queue → store'.state.dirty = store.state.dirty →
      store'.state.QueueIsDirty := by
    intro hqueue hdirty p q f
    rw [hqueue, hdirty]
    exact hq p q f
  cases hm with
  | invalidated _ _ hinv | configured _ hinv => exact hinv.queue hq
  | forgot _ _ hfor => exact hfor.queue hq
  | claimed job hcl => exact hcl.queue hq
  | finished worker computed stale version job published hjob hfin =>
    cases hfin with
    | superseded hcur hs => exact hsame (by rw [hs]) (by rw [hs])
    | again hcur hinv => exact hinv.queue hq
    | gone hcur _ hpub hentries hcomputing hdirty hqueue => exact hsame hqueue hdirty
    | stored uri diagnostics v hcur hcanc hcomp hst _ hpub hentries hcomputing hdirty hqueue =>
      exact hsame hqueue hdirty
  | kept _ hs => exact hsame hs.2.1 hs.2.2.1

/-- Ids only grow, a new job was claimed, and one kind of step starts a configuration. -/
theorem jobs_of_moves : store.state.sequence ≤ store'.state.sequence ∧
    (∀ job ∈ store'.jobs, job ∈ store.jobs ∨ State.Claims store.state store'.state job) ∧
    (store'.state.configGen = store.state.configGen ∨ ∃ files, label = .invalidateAll files) := by
  have hold : store'.jobs = store.jobs →
      ∀ job ∈ store'.jobs, job ∈ store.jobs ∨ State.Claims store.state store'.state job :=
    fun hjobs job hjob => .inl (hjobs ▸ hjob)
  cases hm with
  | invalidated _ A hinv hA hjobs => exact ⟨hinv.sequence, hold hjobs, .inl hinv.configGen⟩
  | configured files hinv hjobs => exact ⟨hinv.sequence, hold hjobs, .inr ⟨files, rfl⟩⟩
  | forgot _ A hfor hA hjobs => exact ⟨hfor.sequence.ge, hold hjobs, .inl hfor.configGen⟩
  | claimed job hcl hjobs =>
    refine ⟨by rw [hcl.sequence]; exact Nat.le_succ _, ?_, .inl hcl.configGen⟩
    intro job' hjob
    rw [hjobs, List.mem_append, List.mem_singleton] at hjob
    refine hjob.imp_right fun heq => ?_
    rw [heq]
    exact hcl
  | finished worker computed stale version job published hjob hfin hjobs =>
    have hsub : ∀ job ∈ store'.jobs, job ∈ store.jobs ∨
        State.Claims store.state store'.state job := by
      intro j hj
      rw [hjobs] at hj
      exact .inl (List.mem_of_mem_eraseIdx hj)
    cases hfin with
    | superseded hcur hsame => exact ⟨by rw [hsame], hsub, .inl (by rw [hsame])⟩
    | again hcur hinv => exact ⟨hinv.sequence, hsub, .inl hinv.configGen⟩
    | gone hcur _ hpub hentries hcomputing hdirty hqueue hgen hseq =>
      exact ⟨hseq.ge, hsub, .inl hgen⟩
    | stored uri diagnostics v hcur hcanc hcp hst _ hpub hentries hcomputing hdirty hqueue hgen
        hseq => exact ⟨hseq.ge, hsub, .inl hgen⟩
  | kept _ hsame hA hjobs =>
    exact ⟨hsame.2.2.2.2.1.ge, hold hjobs, .inl hsame.2.2.2.2.2⟩

end

/-- **One step keeps it.** -/
theorem sound_step (resultId : List D → Nat) (labels : List (Label U D)) (store : Store U D)
    (label : Label U D) (store' : Store U D) (hreach : Reaches resultId labels store)
    (hs : Sound resultId labels store) (h : step resultId store label = some store') :
    Sound resultId (labels ++ [label]) store' := by
  have hm := step_moves resultId store store' label h
  refine ⟨queue_of_moves hm hs.queue, ?_, ?_, ?_⟩
  · intro f
    cases files_of_moves hm f with
    | untouched h =>
      rw [h.2.1, h.2.2.1]
      exact hs.exclusive f
    | unheld h => exact .inr h.1
    | claimed job h _ hf =>
      left
      rw [h.dirty f, if_pos hf]
    | stored _ _ _ _ _ hcomp => exact .inr hcomp
  · intro f id hid
    cases files_of_moves hm f with
    | untouched h =>
      rw [h.2.2.1] at hid
      exact (hs.computing f id hid).extend hreach h.2.2.2
    | unheld h =>
      rw [h.1] at hid
      cases hid
    | claimed job hcl hlabel hf =>
      rw [hcl.computing, if_pos hf] at hid
      cases hid
      subst hf hlabel
      refine ⟨labels, [], store, rfl, hreach, hcl.was, hcl.id, ?_⟩
      intro mid label' rest t hsplit
      exact absurd hsplit (by simp)
    | stored _ _ _ _ _ hcomp =>
      rw [hcomp] at hid
      cases hid
  · intro f e he hd hc
    cases files_of_moves hm f with
    | untouched h =>
      rw [h.1] at he
      rw [h.2.1] at hd
      rw [h.2.2.1] at hc
      exact (hs.entry f e he hd hc).extend hreach h.2.2.2
    | unheld h =>
      obtain h | h := h.2
      · rw [h] at he
        cases he
      · exact absurd hd h
    | claimed job h _ hf =>
      rw [h.computing, if_pos hf] at hc
      cases hc
    | stored job _ hf hcur hnot _ _ hentry =>
      -- the job was current, so its claim still stands
      rw [(hentry e he).1]
      exact (hs.computing f job.id (hf ▸ hcur)).extend hreach hnot

theorem sound_run (resultId : List D → Nat) (labels : List (Label U D)) (store : Store U D)
    (h : Reaches resultId labels store) : Sound resultId labels store :=
  Reaches.induction resultId (sound_empty resultId)
    (fun labels store label store' hreach hs hstep =>
      sound_step resultId labels store label store' hreach hs hstep) labels store h

/-! ## §3. The configuration an entry was computed under -/

/-- Each `invalidate_all` of the run lists the files being computed that have no entry. -/
def ListsComputed (resultId : List D → Nat) (labels : List (Label U D)) : Prop :=
  ∀ before files after s, labels = before ++ .invalidateAll files :: after →
    Reaches resultId before s →
    ∀ f, s.state.computing.lookup f ≠ none → s.state.entries.lookup f = none → f ∈ files

theorem listsComputed_init (resultId : List D → Nat) (labels : List (Label U D))
    (label : Label U D) (h : ListsComputed resultId (labels ++ [label])) :
    ListsComputed resultId labels := by
  intro before files after s hl
  exact h before files (after ++ [label]) s (by rw [hl]; simp)

/-- The jobs that are current, and the entries held as valid, are of the configuration. -/
structure Configured (store : Store U D) : Prop where
  ids : ∀ job ∈ store.jobs, job.id ≤ store.state.sequence
  jobs : ∀ job ∈ store.jobs, store.state.computing.lookup job.fileId = some job.id →
    job.configGen = store.state.configGen
  entries : ∀ f e, store.state.entries.lookup f = some e → store.state.dirty.lookup f = none →
    store.state.computing.lookup f = none → e.configGen = store.state.configGen

omit [DecidableEq U] in
theorem configured_empty : Configured (Store.empty (U := U) (D := D)) := by
  refine ⟨fun job h => absurd h (by simp [Store.empty]),
    fun job h => absurd h (by simp [Store.empty]), ?_⟩
  intro f e h
  exact absurd (show (none : Option (Entry U D)) = some e from h) (by simp)

/-- **One step keeps it**, if an `invalidate_all` lists what it must. -/
theorem configured_step (resultId : List D → Nat) (store : Store U D) (label : Label U D)
    (store' : Store U D) (hc : Configured store) (h : step resultId store label = some store')
    (hlists : ∀ files, label = .invalidateAll files → ∀ f,
      store.state.computing.lookup f ≠ none → store.state.entries.lookup f = none → f ∈ files) :
    Configured store' := by
  have hm := step_moves resultId store store' label h
  obtain ⟨hseq, hjobs, hgen⟩ := jobs_of_moves hm
  -- an `invalidate_all` reaches every file that has an entry or is computed
  have hkept : ∀ f, ¬ Reached store.state f label →
      store.state.computing.lookup f ≠ none ∨ store.state.entries.lookup f ≠ none →
      store'.state.configGen = store.state.configGen := by
    intro f hnot hheld
    obtain hgen | ⟨files, rfl⟩ := hgen
    · exact hgen
    · have hentry : store.state.entries.lookup f = none := by
        by_contra hne
        exact hnot (.inr hne)
      obtain hcomp | he := hheld
      · exact absurd (.inl (hlists files rfl f hcomp hentry)) hnot
      · exact absurd hentry he
  refine ⟨?_, ?_, ?_⟩
  · intro job hjob
    obtain hold | hclaim := hjobs job hjob
    · exact Nat.le_trans (hc.ids job hold) hseq
    · rw [hclaim.id, hclaim.sequence]
  · intro job hjob hcur
    obtain hold | hclaim := hjobs job hjob
    · cases files_of_moves hm job.fileId with
      | untouched h =>
        rw [h.2.2.1] at hcur
        rw [hkept _ h.2.2.2 (.inl (by rw [hcur]; simp))]
        exact hc.jobs job hold hcur
      | unheld h =>
        rw [h.1] at hcur
        cases hcur
      | claimed job' h _ hf =>
        -- an older job has a smaller id
        rw [h.computing, if_pos hf] at hcur
        have hid := hc.ids job hold
        have heq : job'.id = job.id := Option.some.inj hcur
        rw [h.id] at heq
        omega
      | stored _ _ _ _ _ hcomp =>
        rw [hcomp] at hcur
        cases hcur
    · rw [hclaim.gen, hclaim.configGen]
  · intro f e he hd hcomp
    cases files_of_moves hm f with
    | untouched h =>
      rw [h.1] at he
      rw [h.2.1] at hd
      rw [h.2.2.1] at hcomp
      rw [hkept f h.2.2.2 (.inr (by rw [he]; simp))]
      exact hc.entries f e he hd hcomp
    | unheld h =>
      obtain h | h := h.2
      · rw [h] at he
        cases he
      · exact absurd hd h
    | claimed job h _ hf =>
      rw [h.computing, if_pos hf] at hcomp
      cases hcomp
    | stored job hmem _ hcur _ _ hgen hentry =>
      rw [(hentry e he).2, hgen]
      exact hc.jobs job hmem hcur

theorem configured_run (resultId : List D → Nat) (labels : List (Label U D)) (store : Store U D)
    (h : Reaches resultId labels store) : ListsComputed resultId labels → Configured store := by
  refine Reaches.induction resultId (P := fun labels store =>
    ListsComputed resultId labels → Configured store) (fun _ => configured_empty) ?_ labels store h
  intro labels store label store' hreach ih hstep hlists
  apply configured_step resultId store label store'
    (ih (listsComputed_init resultId labels label hlists))
    hstep
  intro files hlabel
  exact hlists labels files [] store (by rw [hlabel]) hreach

/-! ## §4. What is held as valid -/

/-- **No stale diagnostics are held as valid**, in any state any run reaches; and none of an
    older configuration, where each `invalidate_all` lists the files being computed that have
    no entry. -/
theorem held_diagnostics_valid (resultId : List D → Nat) (labels : List (Label U D))
    (store : Store U D) (hreach : Reaches resultId labels store) :
    (store.state.QueueIsDirty ∧ store.state.Exclusive) ∧
    ((∀ f, store.state.isValid f = true → ∃ e, store.state.entries.lookup f = some e ∧
        ClaimedSince resultId labels f e.job) ∧
      ∀ worker job computed stale version store', store.jobs[worker]? = some job →
        ¬ ClaimedSince resultId labels job.fileId job.id →
        step resultId store (.finish worker computed stale version) = some store' →
        store'.state = store.state ∧ store'.toPublish = store.toPublish) ∧
    (ListsComputed resultId labels → ∀ f e, store.state.entries.lookup f = some e →
      store.state.dirty.lookup f = none → store.state.computing.lookup f = none →
      e.configGen = store.state.configGen) := by
  have hs := sound_run resultId labels store hreach
  refine ⟨⟨hs.queue, hs.exclusive⟩, ⟨?_, ?_⟩, ?_⟩
  · intro f hvalid
    unfold State.isValid at hvalid
    simp only [Bool.and_eq_true, Option.isNone_iff_eq_none] at hvalid
    obtain ⟨⟨hd, hc⟩, hentry⟩ := hvalid
    cases he : store.state.entries.lookup f with
    | none =>
      rw [he] at hentry
      exact absurd hentry (by simp)
    | some e => exact ⟨e, rfl, hs.entry f e he hd hc⟩
  · intro worker job computed stale version store' hjob hclaim hstep
    have hcur : store.state.computing.lookup job.fileId ≠ some job.id :=
      fun h => hclaim (hs.computing job.fileId job.id h)
    have hnot : store.state.isCurrent job = false := by
      unfold State.isCurrent
      simpa using hcur
    simp only [step, hjob, State.finish, hnot, Bool.false_eq_true, if_false,
      Option.some.injEq] at hstep
    subst hstep
    exact ⟨rfl, by simp⟩
  · intro hlists
    exact (configured_run resultId labels store hreach hlists).entries

/-- A file whose first computation an `invalidate_all` supersedes, computed again and stored:
    the store holds it as valid, under the new configuration. -/
theorem held_diagnostics_valid_one :
    ∃ store : Store Nat Unit,
      Reaches List.length [.invalidate [⟨1⟩] [], .claim ⟨1⟩, .invalidateAll [⟨1⟩],
        .finish 0 .Gone false none, .claim ⟨1⟩, .finish 0 (.Diagnostics 7 [()]) false none] store ∧
      store.state.isValid ⟨1⟩ = true ∧
      (∃ e, store.state.entries.lookup ⟨1⟩ = some e ∧ ClaimedSince List.length
        [.invalidate [⟨1⟩] [], .claim ⟨1⟩, .invalidateAll [⟨1⟩], .finish 0 .Gone false none,
          .claim ⟨1⟩, .finish 0 (.Diagnostics 7 [()]) false none] ⟨1⟩ e.job) ∧
      (⟨⟨7, [()], 1⟩, 1, 4⟩ : Entry Nat Unit).configGen = store.state.configGen := by
  have h := held_diagnostics_valid (U := Nat) (D := Unit) List.length
    [.invalidate [⟨1⟩] [], .claim ⟨1⟩, .invalidateAll [⟨1⟩], .finish 0 .Gone false none,
      .claim ⟨1⟩, .finish 0 (.Diagnostics 7 [()]) false none] _ rfl
  refine ⟨_, rfl, by rfl, h.2.1.1 ⟨1⟩ (by rfl), ?_⟩
  refine h.2.2 ?_ ⟨1⟩ _ (by rfl) (by rfl) (by rfl)
  intro before files after s hl hs f hcomp _
  -- the one `invalidate_all` is the third step
  match before, hl with
  | [_, _], hl =>
    simp only [List.cons_append, List.nil_append, List.cons.injEq, Label.invalidateAll.injEq] at hl
    obtain ⟨rfl, rfl, rfl, -⟩ := hl
    cases Option.some.inj hs
    by_contra hf
    apply hcomp
    have hne : f ≠ ⟨1⟩ := fun h => hf (by simp [h])
    show (AList.insert (⟨1⟩ : FileId) 2 ∅).lookup f = none
    rw [AList.lookup_insert_ne hne]
    rfl
  | [], hl => simp at hl
  | [_], hl => simp at hl
  | [_, _, _], hl => simp at hl
  | [_, _, _, _], hl => simp at hl
  | [_, _, _, _, _], hl => simp at hl
  | _ :: _ :: _ :: _ :: _ :: _ :: rest, hl => simp at hl

/-- A file being computed for the first time while `invalidate_all` lists nothing: its job
    stores a result of the configuration before, and nothing queues the file again. -/
theorem older_configuration_held :
    ¬ ∀ (labels : List (Label Nat Unit)) (store : Store Nat Unit),
      Reaches List.length labels store →
      ∀ f e, store.state.entries.lookup f = some e → store.state.dirty.lookup f = none →
        store.state.computing.lookup f = none → e.configGen = store.state.configGen := by
  intro h
  have hbad := h [.invalidate [⟨1⟩] [], .claim ⟨1⟩, .invalidateAll [],
    .finish 0 (.Diagnostics 7 [()]) false none] _ rfl ⟨1⟩ ⟨⟨7, [()], 1⟩, 0, 2⟩ (by rfl) (by rfl)
    (by rfl)
  exact absurd hbad (by decide)

end Store

end GluaLs.Diag
