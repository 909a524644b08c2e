/-
  GluaLs.Diag.Published — what the client shows is what the store holds.

  A result is stored under the state lock and sent later, under the publishing lock, only if
  the entry is still that job's and only if it differs from the entry before.  Each skipped
  message must be covered by another one.  `Covered` says by which:

    • an entry is SHOWN (the last message for its URI carries its result), or the publish of
      the very job that stored it is outstanding,
    • a URI that shows something is held by an entry, or some outstanding step clears it.

  Every step keeps this (`covered_step`) but two, which `covers` rules out: a job that stores
  the result its file's entry already has while the publish of the entry's job is still
  outstanding takes the entry over WITHOUT a publish of its own; and `clear_forgotten` skips
  a file that was diagnosed again, also where it now has another URI.
-/
import GluaLs.Diag.Valid

namespace GluaLs.Diag

open List GluaLs.Lib Published

variable {U D : Type} [DecidableEq U]

/-! ## §1. Messages -/

/-- The newest message for a URI, in a list with the newest first. -/
def lastTo (messages : List (Message U D)) (uri : U) : Option (Message U D) :=
  messages.find? fun message => decide (message.uri = uri)

@[simp] theorem lastTo_nil (uri : U) : lastTo ([] : List (Message U D)) uri = none := rfl

theorem lastTo_cons (message : Message U D) (messages : List (Message U D)) (uri : U) :
    lastTo (message :: messages) uri
      = if message.uri = uri then some message else lastTo messages uri := by
  unfold lastTo
  rw [List.find?_cons]
  by_cases h : message.uri = uri <;> simp [h]

theorem lastTo_append (a b : List (Message U D)) (uri : U) :
    lastTo (a ++ b) uri = (lastTo a uri).or (lastTo b uri) := by
  unfold lastTo
  exact List.find?_append

/-- The messages that will have been sent once the holder of the publishing lock is done,
    the newest first. -/
def Store.messages (store : Store U D) : List (Message U D) :=
  (store.sending.getD []).reverse ++ store.sent

/-- What the client will show at a URI once the holder of the publishing lock is done. -/
def Store.shown (store : Store U D) (uri : U) : Option (Message U D) := lastTo store.messages uri

/-- What a publish will clear. -/
def Published.Clears (uri : U) : Published U D → Prop
  | .Stored _ _ movedFrom => movedFrom = some uri
  | .Cleared old => old = uri

theorem lastTo_clearUnless (shownAt : Option U) (old uri : U) :
    lastTo (clearUnless shownAt old : List (Message U D)).reverse uri
      = if shownAt ≠ some old ∧ old = uri then some (cleared uri) else none := by
  unfold clearUnless
  by_cases hs : shownAt ≠ some old
  · rw [if_pos hs, List.reverse_singleton, lastTo_cons]
    by_cases hu : old = uri
    · rw [if_pos (show (cleared old : Message U D).uri = uri from hu), if_pos ⟨hs, hu⟩, hu]
    · rw [if_neg (show ¬ (cleared old : Message U D).uri = uri from hu), lastTo_nil,
        if_neg (fun h => hu h.2)]
  · rw [if_neg hs, if_neg (fun h => hs h.1)]
    rfl

/-- The URI an entry is shown at, and the job that stored it. -/
def State.shownAt (s : State U D) (f : FileId) : Option U :=
  (s.entries.lookup f).map (·.stored.uri)

/-- What a publish clears, whether or not it also shows a result. -/
theorem lastTo_publishMessages (s : State U D) (job : Job) (published : Published U D) (uri : U) :
    lastTo (publishMessages s job published).reverse uri =
      match published with
      | .Stored stored version movedFrom =>
        if (s.entries.lookup job.fileId).map (·.job) = some job.id ∧ stored.uri = uri then
          some ⟨stored.uri, stored.diagnostics, version⟩
        else if s.shownAt job.fileId ≠ some uri ∧ movedFrom = some uri then some (cleared uri)
        else none
      | .Cleared old =>
        if s.shownAt job.fileId ≠ some uri ∧ old = uri then some (cleared uri) else none := by
  cases published with
  | Cleared old =>
    show lastTo (clearUnless (s.shownAt job.fileId) old).reverse uri
      = if s.shownAt job.fileId ≠ some uri ∧ old = uri then some (cleared uri) else none
    rw [lastTo_clearUnless]
    by_cases hu : old = uri
    · rw [hu]
    · rw [if_neg (fun h => hu h.2), if_neg (fun h => hu h.2)]
  | Stored stored version movedFrom =>
    -- what is cleared is behind what is shown
    have hshow : ∀ cleared' : List (Message U D), lastTo cleared'.reverse uri
          = (if s.shownAt job.fileId ≠ some uri ∧ movedFrom = some uri then some (cleared uri)
            else none) →
        lastTo (cleared' ++ (if (s.entries.lookup job.fileId).map (·.job) = some job.id then
            [⟨stored.uri, stored.diagnostics, version⟩] else [] : List (Message U D))).reverse uri
          = if (s.entries.lookup job.fileId).map (·.job) = some job.id ∧ stored.uri = uri then
              some ⟨stored.uri, stored.diagnostics, version⟩
            else if s.shownAt job.fileId ≠ some uri ∧ movedFrom = some uri then
              some (cleared uri)
            else none := by
      intro cleared' hclear
      rw [List.reverse_append, lastTo_append]
      by_cases hby : (s.entries.lookup job.fileId).map (·.job) = some job.id
      · rw [if_pos hby, List.reverse_singleton, lastTo_cons]
        by_cases hu : stored.uri = uri
        · rw [if_pos hu, if_pos ⟨hby, hu⟩]
          rfl
        · rw [if_neg hu, if_neg (fun h => hu h.2), lastTo_nil, Option.none_or]
          exact hclear
      · rw [if_neg hby, if_neg (fun h => hby h.1), List.reverse_nil, lastTo_nil, Option.none_or]
        exact hclear
    cases movedFrom with
    | none => exact hshow [] (by simp)
    | some old =>
      refine hshow (clearUnless (s.shownAt job.fileId) old) ?_
      rw [lastTo_clearUnless]
      by_cases hu : old = uri
      · simp [hu]
      · rw [if_neg (fun h => hu h.2), if_neg (fun h => hu (Option.some.inj h.2))]

/-! ## §2. What covers a skipped message -/

/-- No two files ever share a URI: `owner` is the file of each URI a step names. -/
def owned (owner : U → FileId) (store : Store U D) : Label U D → Bool
  | .finish worker (.Diagnostics uri _) _ _ =>
    match store.jobs[worker]? with
    | some job => decide (owner uri = job.fileId)
    | none => true
  | .forget fileId uri => decide (owner uri = fileId)
  | _ => true

/-- The steps that cover what they skip.  A job does not store the result its file's entry
    already shows while the publish of the entry's job is outstanding; `clear_forgotten` is
    called with the URI of the entry that was forgotten, and runs when the file has no entry
    at another URI. -/
def covers (resultId : List D → Nat) (store : Store U D) : Label U D → Bool
  | .finish worker (.Diagnostics uri diagnostics) stale _ =>
    match store.jobs[worker]? with
    | some job =>
      match store.state.entries.lookup job.fileId with
      | some entry =>
        !(store.state.isCurrent job && !store.state.isCancelled job && !stale &&
          decide (entry.stored.uri = uri) &&
          decide (entry.stored.resultId = resultId diagnostics) &&
          store.toPublish.any fun item => decide (item.1.id = entry.job))
      | none => true
    | none => true
  | .forget fileId uri =>
    match store.state.entries.lookup fileId with
    | some entry => decide (entry.stored.uri = uri)
    | none => true
  | .clearForgotten pending =>
    match store.toClear[pending]? with
    | some (fileId, uri) =>
      match store.state.entries.lookup fileId with
      | some entry => decide (entry.stored.uri = uri)
      | none => true
    | none => true
  | _ => true

/-- Ids tell jobs apart: those running and those with a publish outstanding. -/
structure FreshIds (store : Store U D) : Prop where
  jobs : ∀ job ∈ store.jobs, job.id ≤ store.state.sequence
  pending : ∀ item ∈ store.toPublish, item.1.id ≤ store.state.sequence
  nodup : (store.jobs.map Job.id ++ store.toPublish.map fun item => item.1.id).Nodup

/-- The URIs of a publish belong to its file. -/
def Published.Owned (owner : U → FileId) (f : FileId) : Published U D → Prop
  | .Stored stored _ movedFrom => owner stored.uri = f ∧ ∀ u, movedFrom = some u → owner u = f
  | .Cleared uri => owner uri = f

/-- Each skipped message is covered by another one. -/
structure Covered (resultId : List D → Nat) (owner : U → FileId) (store : Store U D) : Prop where
  entryOwner : ∀ f e, store.state.entries.lookup f = some e → owner e.stored.uri = f
  entryResult : ∀ f e, store.state.entries.lookup f = some e →
    e.stored.resultId = resultId e.stored.diagnostics
  itemOwner : ∀ item ∈ store.toPublish, item.2.Owned owner item.1.fileId
  clearOwner : ∀ item ∈ store.toClear, owner item.2 = item.1
  /-- A publish of the job that stored an entry sends this entry. -/
  itemEntry : ∀ job stored version movedFrom,
    (job, Published.Stored stored version movedFrom) ∈ store.toPublish →
    ∀ e, store.state.entries.lookup job.fileId = some e → e.job = job.id → e.stored = stored
  shows : ∀ f e, store.state.entries.lookup f = some e →
    (∃ m, store.shown e.stored.uri = some m ∧ resultId m.diagnostics = e.stored.resultId) ∨
    (∃ job version movedFrom,
      (job, Published.Stored e.stored version movedFrom) ∈ store.toPublish ∧
        job.fileId = f ∧ job.id = e.job)
  clears : ∀ u m, store.shown u = some m → m.diagnostics ≠ [] →
    store.state.shownAt (owner u) = some u ∨
    (∃ item ∈ store.toPublish, item.2.Clears u) ∨ (owner u, u) ∈ store.toClear

/-! ## §3. Ids -/

omit [DecidableEq U] in
theorem freshIds_empty : FreshIds (Store.empty : Store U D) :=
  ⟨fun _ h => absurd h (by simp [Store.empty]), fun _ h => absurd h (by simp [Store.empty]),
    by simp [Store.empty]⟩

theorem freshIds_step (resultId : List D → Nat) (store store' : Store U D) (label : Label U D)
    (hf : FreshIds store) (h : Store.step resultId store label = some store') :
    FreshIds store' := by
  have hmono : ∀ seq, store.state.sequence ≤ seq → ∀ jobs items,
      jobs = store.jobs → List.Sublist items store.toPublish →
      (∀ job ∈ jobs, job.id ≤ seq) ∧ (∀ item ∈ items, item.1.id ≤ seq) ∧
        (jobs.map Job.id ++ items.map fun item => item.1.id).Nodup := by
    intro seq hseq jobs items hjobs hitems
    subst hjobs
    refine ⟨fun job hj => Nat.le_trans (hf.jobs job hj) hseq,
      fun item hi => Nat.le_trans (hf.pending item (hitems.subset hi)) hseq, ?_⟩
    exact hf.nodup.sublist (List.Sublist.append_left (hitems.map _) _)
  have hkeep : store.state.sequence ≤ store'.state.sequence → store'.jobs = store.jobs →
      List.Sublist store'.toPublish store.toPublish → FreshIds store' := by
    intro hseq hjobs hpub
    obtain ⟨h1, h2, h3⟩ := hmono _ hseq _ _ hjobs hpub
    exact ⟨h1, h2, h3⟩
  cases Store.step_moves resultId store store' label h with
  | invalidated _ A hinv hA hjobs hpub | configured files hinv hjobs hpub =>
    exact hkeep hinv.sequence hjobs (hpub ▸ .refl _)
  | forgot _ A hfor hA hjobs hpub =>
    exact hkeep (Nat.le_of_eq hfor.sequence.symm) hjobs (hpub ▸ .refl _)
  | kept _ hsame hA hjobs hpub => exact hkeep (Nat.le_of_eq hsame.2.2.2.2.1.symm) hjobs hpub
  | claimed job hcl hjobs hpub =>
    obtain ⟨h1, h2, h3⟩ := hmono (store.state.sequence + 1) (Nat.le_succ _) _ _ rfl
      (.refl _)
    refine ⟨?_, ?_, ?_⟩
    · intro job' hj
      rw [hjobs, List.mem_append, List.mem_singleton] at hj
      rw [hcl.sequence]
      obtain hj | hj := hj
      · exact h1 job' hj
      · rw [hj, hcl.id]
    · intro item hi
      rw [hpub] at hi
      rw [hcl.sequence]
      exact h2 item hi
    · have hperm : (store.jobs ++ [job]).map Job.id ++ store.toPublish.map (fun item => item.1.id)
          ~ job.id :: (store.jobs.map Job.id ++ store.toPublish.map fun item => item.1.id) := by
        rw [List.map_append, List.append_assoc]
        exact List.perm_middle
      rw [hjobs, hpub, hperm.nodup_iff]
      refine List.nodup_cons.2 ⟨?_, h3⟩
      intro hmem
      rw [hcl.id, List.mem_append, List.mem_map, List.mem_map] at hmem
      obtain ⟨j, hj, hid⟩ | ⟨item, hi, hid⟩ := hmem
      · have := hf.jobs j hj
        omega
      · have := hf.pending item hi
        omega
  | finished worker computed stale version job published hjob hfin hjobs hpub =>
    have hseq : store.state.sequence ≤ store'.state.sequence := by
      cases hfin with
      | superseded _ hs => rw [hs]
      | again _ hinv => exact hinv.sequence
      | gone _ _ _ _ _ _ _ _ hseq => exact Nat.le_of_eq hseq.symm
      | stored _ _ _ _ _ _ _ _ _ _ _ _ _ _ hseq => exact Nat.le_of_eq hseq.symm
    obtain ⟨h1, h2, h3⟩ := hmono _ hseq _ _ rfl (.refl _)
    have hmem : job ∈ store.jobs := List.mem_of_getElem? hjob
    refine ⟨?_, ?_, ?_⟩
    · intro j hj
      rw [hjobs] at hj
      exact h1 j (List.mem_of_mem_eraseIdx hj)
    · intro item hi
      rw [hpub, List.mem_append] at hi
      obtain hi | hi := hi
      · exact h2 item hi
      · rw [Option.mem_toList, Option.map_eq_some_iff] at hi
        obtain ⟨p, -, hp⟩ := hi
        rw [← hp]
        exact h1 job hmem
    · -- the finished job moves from the jobs to what is outstanding, or goes
      have hsub : (store'.jobs.map Job.id ++ store'.toPublish.map fun item => item.1.id)
          <+~ (store.jobs.map Job.id ++ store.toPublish.map fun item => item.1.id) := by
        rw [hjobs, hpub, List.map_append]
        have hperm : store.jobs.map Job.id
            ~ job.id :: (store.jobs.eraseIdx worker).map Job.id := by
          obtain ⟨hlt, heq⟩ := List.getElem?_eq_some_iff.1 hjob
          have := (List.getElem_cons_eraseIdx_perm hlt).map Job.id
          rw [heq] at this
          exact this.symm
        have hlast : (((published.map fun p => (job, p)).toList).map fun item => item.1.id)
            <+~ [job.id] := by
          cases published with
          | none => exact List.nil_subperm
          | some p => exact .refl _
        have hrest : (store.jobs.eraseIdx worker).map Job.id ++
            ((store.toPublish.map fun item => item.1.id) ++ [job.id])
            ~ store.jobs.map Job.id ++ store.toPublish.map fun item => item.1.id := by
          refine ((List.Perm.append_right _ hperm).trans ?_).symm
          rw [List.cons_append, ← List.append_assoc]
          exact (List.perm_append_singleton _ _).symm
        refine .trans ?_ hrest.subperm
        exact (List.subperm_append_left _).2 ((List.subperm_append_left _).2 hlast)
      obtain ⟨ids, hids, hsublist⟩ := hsub
      exact hids.nodup_iff.1 (h3.sublist hsublist)

/-! ## §4. Steps that keep what is covered -/

/-- A member other than the one taken out is still there. -/
theorem mem_eraseIdx_or {α : Type} {l : List α} {i : Nat} {x y : α} (hi : l[i]? = some y)
    (hx : x ∈ l) : x = y ∨ x ∈ l.eraseIdx i := by
  obtain ⟨hlt, heq⟩ := List.getElem?_eq_some_iff.1 hi
  have hperm := List.getElem_cons_eraseIdx_perm hlt
  rw [heq] at hperm
  exact List.mem_cons.1 (hperm.mem_iff.2 hx)

namespace Covered

variable {resultId : List D → Nat} {owner : U → FileId} {store store' : Store U D}

/-- What is shown once the publishing lock was taken with some messages to send. -/
theorem shown_lock {next : Store U D} {messages : List (Message U D)} (hfree : store.sending = none)
    (hnext : next.sending = some messages) (hsent : next.sent = store.sent) (u : U) :
    next.shown u = (lastTo messages.reverse u).or (store.shown u) := by
  have hmessages : next.messages = messages.reverse ++ store.messages := by
    unfold Store.messages
    rw [hnext, hsent, hfree]
    rfl
  unfold Store.shown
  rw [hmessages, lastTo_append]

/-- A URI that shows something is held by an entry, or some outstanding step clears it. -/
def ClearedLater (owner : U → FileId) (store : Store U D) (u : U) : Prop :=
  store.state.shownAt (owner u) = some u ∨ (∃ item ∈ store.toPublish, item.2.Clears u) ∨
    (owner u, u) ∈ store.toClear

/-- No entry is stored, and what comes to the outstanding steps clears a URI of its file. -/
structure StoresNone (owner : U → FileId) (store store' : Store U D) : Prop where
  entries : ∀ f e, store'.state.entries.lookup f = some e → store.state.entries.lookup f = some e
  toPublish : ∀ item ∈ store'.toPublish, item ∈ store.toPublish ∨
    ∃ uri, item.2 = .Cleared uri ∧ owner uri = item.1.fileId
  toClear : ∀ item ∈ store'.toClear, item ∈ store.toClear ∨ owner item.2 = item.1

/-- A step that stores no entry, where what is sent CONFIRMS the entries: a message for an
    entry's URI carries its result, one that shows something is for an entry's URI, and what
    leaves the entries and the outstanding steps is sent. -/
theorem next (hc : Covered resultId owner store) (shows : U → Option (Message U D))
    (hshown : ∀ u, store'.shown u = (shows u).or (store.shown u))
    (hnone : StoresNone owner store store')
    (hentry : ∀ f e m, store'.state.entries.lookup f = some e → shows e.stored.uri = some m →
      resultId m.diagnostics = e.stored.resultId)
    (hshow : ∀ u m, shows u = some m → m.diagnostics ≠ [] →
      store'.state.shownAt (owner u) = some u)
    (hstored : ∀ f e job version movedFrom, store'.state.entries.lookup f = some e →
      (job, Stored e.stored version movedFrom) ∈ store.toPublish → job.fileId = f →
      job.id = e.job → (job, Stored e.stored version movedFrom) ∈ store'.toPublish ∨
        shows e.stored.uri ≠ none)
    (hlater : ∀ u, shows u = none → ClearedLater owner store u → ClearedLater owner store' u) :
    Covered resultId owner store' := by
  refine ⟨fun f e he => hc.entryOwner f e (hnone.entries f e he),
    fun f e he => hc.entryResult f e (hnone.entries f e he), ?_, ?_, ?_, ?_, ?_⟩
  · intro item hi
    obtain hi | ⟨uri, hitem, hown⟩ := hnone.toPublish item hi
    · exact hc.itemOwner item hi
    · rw [hitem]
      exact hown
  · intro item hi
    obtain hi | hown := hnone.toClear item hi
    · exact hc.clearOwner item hi
    · exact hown
  · intro job stored version movedFrom hi e he
    obtain hi | ⟨uri, hitem, -⟩ := hnone.toPublish _ hi
    · exact hc.itemEntry job stored version movedFrom hi e (hnone.entries _ e he)
    · cases hitem
  · intro f e he
    rw [hshown]
    cases hl : shows e.stored.uri with
    | some m => exact .inl ⟨m, rfl, hentry f e m he hl⟩
    | none =>
      rw [Option.none_or]
      obtain hold | ⟨job, version, movedFrom, hi, hf, hid⟩ := hc.shows f e (hnone.entries f e he)
      · exact .inl hold
      · obtain hi' | hsome := hstored f e job version movedFrom he hi hf hid
        · exact .inr ⟨job, version, movedFrom, hi', hf, hid⟩
        · exact absurd hl hsome
  · intro u m hm hne
    rw [hshown] at hm
    cases hl : shows u with
    | some m' =>
      rw [hl, Option.some_or] at hm
      rw [Option.some.inj hm] at hl
      exact .inl (hshow u m hl hne)
    | none =>
      rw [hl, Option.none_or] at hm
      exact hlater u hl (hc.clears u m hm hne)

/-- The same where nothing is sent, and nothing leaves the outstanding steps. -/
theorem silent (hc : Covered resultId owner store) (hmsg : store'.messages = store.messages)
    (hnone : StoresNone owner store store')
    (hitems : store.toPublish ⊆ store'.toPublish) (hforgot : store.toClear ⊆ store'.toClear)
    (hat : ∀ u, store.state.shownAt (owner u) = some u → ClearedLater owner store' u) :
    Covered resultId owner store' := by
  refine hc.next (fun _ => none) ?_ hnone (fun _ _ _ _ hm => absurd hm (by simp))
    (fun _ _ hm => absurd hm (by simp)) (fun _ _ _ _ _ _ hi _ _ => .inl (hitems hi)) ?_
  · intro u
    unfold Store.shown
    rw [hmsg]
    rfl
  · intro u _ hlater
    obtain hshown | ⟨item, hi, hclears⟩ | hi := hlater
    · exact hat u hshown
    · exact .inr (.inl ⟨item, hitems hi, hclears⟩)
    · exact .inr (.inr (hforgot hi))

/-- A step that touches neither entries nor messages. -/
theorem same (hc : Covered resultId owner store)
    (hentries : store'.state.entries = store.state.entries)
    (hpub : store'.toPublish = store.toPublish) (hclear : store'.toClear = store.toClear)
    (hmsg : store'.messages = store.messages) : Covered resultId owner store' := by
  refine hc.silent hmsg ⟨fun f e he => hentries ▸ he, fun _ hi => .inl (hpub ▸ hi),
    fun _ hi => .inl (hclear ▸ hi)⟩ (fun _ hi => hpub ▸ hi) (fun _ hi => hclear ▸ hi)
    (fun u hat => .inl ?_)
  unfold State.shownAt at hat ⊢
  rw [hentries]
  exact hat

omit [DecidableEq U] in
theorem shownAt_eq {f : FileId} {e : Entry U D} (he : store.state.entries.lookup f = some e) :
    store.state.shownAt f = some e.stored.uri := by
  unfold State.shownAt
  rw [he]
  rfl

section

variable (hc : Covered resultId owner store)
include hc

/-- The later publish of what a job left. -/
theorem publish (pending : Nat) (h : Store.step resultId store (.publish pending) = some store') :
    Covered resultId owner store' := by
  cases hp : store.toPublish[pending]? with
  | none => simp [Store.step, hp] at h
  | some item =>
    obtain ⟨job, published⟩ := item
    simp only [Store.step, hp] at h
    obtain ⟨hfree, hstore⟩ := Store.lockPublishing_spec _ store' _ h
    have hmem : (job, published) ∈ store.toPublish := List.mem_of_getElem? hp
    have hown := hc.itemOwner _ hmem
    have hlast := lastTo_publishMessages store.state job published
    -- an entry at a URI of the file is the file's
    have hat : ∀ f e, store.state.entries.lookup f = some e → owner e.stored.uri = job.fileId →
        store.state.shownAt job.fileId = some e.stored.uri := fun f e he hf => by
      rw [← hf, hc.entryOwner f e he, shownAt_eq he]
    subst hstore
    refine hc.next _ (shown_lock hfree rfl rfl) ⟨fun _ _ he => he,
      fun _ hi => .inl (List.mem_of_mem_eraseIdx hi), fun _ => .inl⟩ ?_ ?_ ?_ ?_
    · intro f e m he hm
      rw [hlast] at hm
      cases published with
      | Cleared old =>
        simp only at hm
        split_ifs at hm with hcond
        -- the file is shown at the URI: it is not cleared
        exact absurd (hat f e he (hcond.2 ▸ hown)) hcond.1
      | Stored stored version movedFrom =>
        simp only at hm
        split_ifs at hm with hsend hcond
        · obtain ⟨hjob, hu⟩ := hsend
          have hf : job.fileId = f := by rw [← hc.entryOwner f e he, ← hu]; exact hown.1.symm
          rw [hf, he] at hjob
          have hst : e.stored = stored :=
            hc.itemEntry job stored version movedFrom hmem e (hf ▸ he)
              (Option.some.inj hjob)
          rw [← Option.some.inj hm, ← hst]
          exact (hc.entryResult f e he).symm
        · exact absurd (hat f e he (hown.2 _ hcond.2)) hcond.1
    · intro u m hm hne
      rw [hlast] at hm
      cases published with
      | Cleared old =>
        simp only at hm
        split_ifs at hm
        rw [← Option.some.inj hm] at hne
        exact absurd rfl hne
      | Stored stored version movedFrom =>
        simp only at hm
        split_ifs at hm with hsend hcond
        · obtain ⟨hjob, hu⟩ := hsend
          obtain ⟨e, he, hid⟩ := Option.map_eq_some_iff.1 hjob
          have hst := hc.itemEntry job stored version movedFrom hmem e he hid
          rw [← hu, hown.1, shownAt_eq he, hst]
        · rw [← Option.some.inj hm] at hne
          exact absurd rfl hne
    · intro f e job' version movedFrom he hi hf hid
      obtain heq | hstill := mem_eraseIdx_or hp hi
      · right
        rw [hlast]
        cases heq
        have hsend : (store.state.entries.lookup job.fileId).map (·.job) = some job.id := by
          rw [hf, he, hid]
          rfl
        simp [hsend]
      · exact .inl hstill
    · intro u hnone hlater
      obtain hshown | ⟨item, hi, hclears⟩ | hi := hlater
      · exact .inl hshown
      · obtain heq | hstill := mem_eraseIdx_or hp hi
        · left
          subst heq
          rw [hlast] at hnone
          cases published with
          | Cleared old =>
            have hu : old = u := hclears
            simp only [hu, and_true, ite_eq_right_iff] at hnone
            have hf : owner u = job.fileId := hu ▸ hown
            show store.state.shownAt (owner u) = some u
            rw [hf]
            by_contra hat
            exact absurd (hnone hat) (by simp)
          | Stored stored version movedFrom =>
            show store.state.shownAt (owner u) = some u
            rw [hown.2 u hclears]
            by_contra hat
            simp only at hnone
            split_ifs at hnone with _ h2
            exact h2 ⟨hat, hclears⟩
        · exact .inr (.inl ⟨item, hstill, hclears⟩)
      · exact .inr (.inr hi)

/-- Clearing a forgotten file. -/
theorem clearForgotten (pending : Nat)
    (hcov : covers resultId store (.clearForgotten pending) = true)
    (h : Store.step resultId store (.clearForgotten pending) = some store') :
    Covered resultId owner store' := by
  cases hp : store.toClear[pending]? with
  | none => simp [Store.step, hp] at h
  | some item =>
    obtain ⟨f, uri⟩ := item
    simp only [Store.step, hp] at h
    simp only [covers, hp] at hcov
    obtain ⟨hfree, hstore⟩ := Store.lockPublishing_spec _ store' _ h
    have hown : owner uri = f := hc.clearOwner _ (List.mem_of_getElem? hp)
    subst hstore
    -- a file with an entry is not cleared
    have hlast : ∀ u m, lastTo (clearMessages store.state f uri).reverse u = some m ↔
        store.state.entries.lookup f = none ∧ uri = u ∧ cleared uri = m := by
      intro u m
      unfold clearMessages
      cases store.state.entries.lookup f with
      | none =>
        show lastTo [cleared uri] u = some m ↔ _
        rw [lastTo_cons, show (cleared uri : Message U D).uri = uri from rfl]
        simp
      | some e => simp
    refine hc.next _ (shown_lock hfree rfl rfl) ⟨fun _ _ he => he, fun _ => .inl,
      fun _ hi => .inl (List.mem_of_mem_eraseIdx hi)⟩ ?_ ?_
      (fun _ _ _ _ _ _ hi _ _ => .inl hi) ?_
    · intro g e m he hm
      obtain ⟨hnone, hu, -⟩ := (hlast _ m).1 hm
      rw [← hc.entryOwner g e he, ← hu, hown, hnone] at he
      cases he
    · intro u m hm hne
      obtain ⟨-, -, rfl⟩ := (hlast u m).1 hm
      exact absurd rfl hne
    · intro u hnone hlater
      obtain hshown | hitem | hi := hlater
      · exact .inl hshown
      · exact .inr (.inl hitem)
      · obtain heq | hstill := mem_eraseIdx_or hp hi
        · cases heq
          cases he : store.state.entries.lookup (owner uri) with
          | none =>
            rw [(hlast uri _).2 ⟨he, rfl, rfl⟩] at hnone
            cases hnone
          | some e =>
            rw [he] at hcov
            left
            show store.state.shownAt _ = _
            rw [shownAt_eq he]
            exact congrArg some (of_decide_eq_true hcov)
        · exact .inr (.inr hstill)

/-- Publishing an opened file again. -/
theorem publishOpened (f : FileId) (version : Int)
    (h : Store.step resultId store (.publishOpened f version) = some store') :
    Covered resultId owner store' := by
  obtain ⟨hfree, rfl⟩ := Store.lockPublishing_spec _ store' _ h
  have hlast : ∀ u m, lastTo (openedMessages store.state f version).reverse u = some m →
      ∃ e, store.state.entries.lookup f = some e ∧ e.stored.uri = u ∧
        m.diagnostics = e.stored.diagnostics := by
    intro u m hm
    unfold openedMessages at hm
    cases he : store.state.entries.lookup f with
    | none => simp [he] at hm
    | some e =>
      rw [he] at hm
      split_ifs at hm
      · rw [List.reverse_singleton, lastTo_cons] at hm
        split_ifs at hm with hu
        · cases hm
          exact ⟨e, rfl, hu, rfl⟩
        · exact absurd hm (by simp)
      · exact absurd hm (by simp)
  refine hc.next _ (shown_lock hfree rfl rfl) ⟨fun _ _ he => he, fun _ => .inl,
    fun _ => .inl⟩ ?_ ?_ (fun _ _ _ _ _ _ hi _ _ => .inl hi) (fun _ _ hlater => hlater)
  · intro g e m he hm
    obtain ⟨e', he', hu, hd⟩ := hlast _ m hm
    have hf : f = g := by rw [← hc.entryOwner f e' he', hu, hc.entryOwner g e he]
    rw [hf, he] at he'
    rw [hd, ← Option.some.inj he']
    exact (hc.entryResult g e he).symm
  · intro u m hm _
    obtain ⟨e', he', hu, -⟩ := hlast u m hm
    rw [← hu, hc.entryOwner f e' he', shownAt_eq he']

/-- Forgetting a file leaves its URI to clear. -/
theorem forget (f : FileId) (uri : U) (hown : owned owner store (.forget f uri) = true)
    (hcov : covers resultId store (.forget f uri) = true)
    (h : Store.step resultId store (.forget f uri) = some store') :
    Covered resultId owner store' := by
  obtain ⟨hfor, hhad⟩ := store.state.forget_spec f
  have hown' : owner uri = f := of_decide_eq_true hown
  simp only [Store.step, Option.some.injEq] at h
  subst h
  have hmono : store.toClear ⊆
      if (store.state.forget f).2 then store.toClear ++ [(f, uri)] else store.toClear := by
    intro item hi
    split_ifs
    · exact List.mem_append_left _ hi
    · exact hi
  refine hc.silent rfl ⟨?_, fun _ => .inl, ?_⟩ (List.Subset.refl _) hmono ?_
  · intro g e he
    by_cases hg : g = f
    · rw [hg, (hfor.reached f rfl).1] at he
      exact absurd he (by simp)
    · rw [(hfor.others g hg).1] at he
      exact he
  · intro item hi
    simp only at hi
    split_ifs at hi
    · refine (List.mem_append.1 hi).imp_right fun hi => ?_
      rw [List.mem_singleton.1 hi]
      exact hown'
    · exact .inl hi
  · intro u hat
    by_cases hf : owner u = f
    · -- the entry forgotten: its URI is the one to clear
      obtain ⟨e, he, hu⟩ := Option.map_eq_some_iff.1 hat
      rw [hf] at he
      simp only [covers, he] at hcov
      have huri : uri = u := by rw [← of_decide_eq_true hcov, hu]
      refine .inr (.inr ?_)
      simp only
      rw [hhad, he]
      simp [hf, huri]
    · left
      unfold State.shownAt
      simp only
      rw [(hfor.others (owner u) hf).1]
      exact hat

end

omit [DecidableEq U] in
/-- Clearing several URIs. -/
theorem lastTo_map_cleared [DecidableEq U] (uris : List U) (u : U) :
    lastTo ((uris.map cleared : List (Message U D)).reverse) u
      = if u ∈ uris then some (cleared u) else none := by
  induction uris with
  | nil => rfl
  | cons old uris ih =>
    rw [List.map_cons, List.reverse_cons, lastTo_append, ih, lastTo_cons, lastTo_nil]
    by_cases hu : u ∈ uris
    · simp [hu]
    · by_cases hold : old = u
      · simp [hold, hu, cleared]
      · simp [hu, hold, Ne.symm hold, cleared]

section

variable (hc : Covered resultId owner store)
include hc

/-- Forgetting the missing files clears them at once. -/
theorem forgetMissing (live : List FileId)
    (h : Store.step resultId store (.forgetMissing live) = some store') :
    Covered resultId owner store' := by
  obtain ⟨hfor, huris⟩ := store.state.forgetMissing_spec live
  obtain ⟨hfree, hstore⟩ := Store.lockPublishing_spec _ store' _ h
  have hsending : store'.sending
      = some ((store.state.forgetMissing live).2.map cleared) := by rw [hstore]; rfl
  have hsent : store'.sent = store.sent := by rw [hstore]
  have hshown : ∀ u, store'.shown u
      = (lastTo ((store.state.forgetMissing live).2.map cleared).reverse u).or (store.shown u) :=
    shown_lock hfree hsending hsent
  have hstate : store'.state = (store.state.forgetMissing live).1 := by rw [hstore]; rfl
  have hpub : store'.toPublish = store.toPublish := by rw [hstore]
  have hclear : store'.toClear = store.toClear := by rw [hstore]
  have hkept : ∀ g e, store'.state.entries.lookup g = some e →
      g ∈ live ∧ store.state.entries.lookup g = some e := by
    intro g e he
    rw [hstate] at he
    by_cases hg : (store.state.entries.lookup g ≠ none ∨ store.state.dirty.lookup g ≠ none) ∧
        g ∉ live
    · rw [(hfor.reached g hg).1] at he
      exact absurd he (by simp)
    · rw [(hfor.others g hg).1] at he
      refine ⟨?_, he⟩
      by_contra hlive
      exact hg ⟨.inl (by rw [he]; simp), hlive⟩
  refine hc.next _ hshown ⟨fun g e he => (hkept g e he).2, fun _ hi => .inl (hpub ▸ hi),
    fun _ hi => .inl (hclear ▸ hi)⟩ ?_ ?_ (fun _ _ _ _ _ _ hi _ _ => .inl (hpub ▸ hi)) ?_
  · intro f e m he hm
    obtain ⟨hlive, he⟩ := hkept f e he
    rw [lastTo_map_cleared] at hm
    split_ifs at hm with hmem
    obtain ⟨g, hg, e', he', hu⟩ := (huris _).1 hmem
    have hgf : g = f := by rw [← hc.entryOwner g e' he', hu, hc.entryOwner f e he]
    exact absurd (hgf ▸ hlive) hg
  · intro u m hm hne
    rw [lastTo_map_cleared] at hm
    split_ifs at hm
    rw [← Option.some.inj hm] at hne
    exact absurd rfl hne
  · intro u hnone hlater
    obtain hat | hrest := hlater
    · left
      obtain ⟨e, he, hu⟩ := Option.map_eq_some_iff.1 hat
      have hlive : owner u ∈ live := by
        by_contra hlive
        rw [lastTo_map_cleared, if_pos ((huris u).2 ⟨owner u, hlive, e, he, hu⟩)] at hnone
        cases hnone
      unfold State.shownAt
      rw [hstate, (hfor.others (owner u) (fun hg => hg.2 hlive)).1]
      exact hat
    · right
      rw [hpub, hclear]
      exact hrest

/-- A job whose file is gone removes the entry and leaves its URI to clear. -/
theorem finish_gone (job : Job)
    (hentries : ∀ g, store'.state.entries.lookup g
      = if g = job.fileId then none else store.state.entries.lookup g)
    (hpub : store'.toPublish = store.toPublish ++
      (((store.state.entries.lookup job.fileId).map fun e => Cleared e.stored.uri).map
        fun p => (job, p)).toList)
    (hclear : store'.toClear = store.toClear) (hmsg : store'.messages = store.messages) :
    Covered resultId owner store' := by
  refine hc.silent hmsg ⟨?_, ?_, fun _ hi => .inl (hclear ▸ hi)⟩ ?_
    (fun _ hi => hclear ▸ hi) ?_
  · intro g e he
    rw [hentries g] at he
    split_ifs at he
    exact he
  · intro item hi
    rw [hpub, List.mem_append] at hi
    refine hi.imp_right fun hi => ?_
    rw [Option.mem_toList, Option.map_eq_some_iff] at hi
    obtain ⟨p, hp, rfl⟩ := hi
    obtain ⟨e, he, rfl⟩ := Option.map_eq_some_iff.1 hp
    exact ⟨e.stored.uri, rfl, hc.entryOwner _ e he⟩
  · rw [hpub]
    exact List.subset_append_left _ _
  · intro u hat
    by_cases hu : owner u = job.fileId
    · obtain ⟨e, he, heu⟩ := Option.map_eq_some_iff.1 hat
      rw [hu] at he
      refine .inr (.inl ⟨(job, Cleared e.stored.uri), ?_, heu⟩)
      rw [hpub, he]
      simp
    · left
      unfold State.shownAt
      rw [hentries, if_neg hu]
      exact hat

/-- A job that stores its result.  One that stores what the entry before it had sends
    nothing, and then this entry was shown. -/
theorem finish_stored (job : Job) (uri : U)
    (diagnostics : List D) (version : Option Int) (hown : owner uri = job.fileId)
    (hfresh : ∀ item ∈ store.toPublish, item.1.id ≠ job.id)
    (hunchanged : ∀ e, store.state.entries.lookup job.fileId = some e → e.stored.uri = uri →
      e.stored.resultId = resultId diagnostics → ∀ item ∈ store.toPublish, item.1.id ≠ e.job)
    (hentries : ∀ g, store'.state.entries.lookup g = if g = job.fileId then
        some ⟨⟨uri, diagnostics, resultId diagnostics⟩, job.configGen, job.id⟩
      else store.state.entries.lookup g)
    (hpub : store'.toPublish = store.toPublish ++
      ((if State.changed (store.state.entries.lookup job.fileId) uri (resultId diagnostics) then
          some (Stored ⟨uri, diagnostics, resultId diagnostics⟩ version
            (State.movedFrom (store.state.entries.lookup job.fileId) uri))
        else none).map fun p => (job, p)).toList)
    (hclear : store'.toClear = store.toClear) (hmsg : store'.messages = store.messages) :
    Covered resultId owner store' := by
  have hshown : ∀ u, store'.shown u = store.shown u := by
    intro u
    unfold Store.shown
    rw [hmsg]
  have hself : store'.state.entries.lookup job.fileId
      = some ⟨⟨uri, diagnostics, resultId diagnostics⟩, job.configGen, job.id⟩ := by
    rw [hentries, if_pos rfl]
  have hmoved : ∀ u, State.movedFrom (store.state.entries.lookup job.fileId) uri = some u ↔
      ∃ e, store.state.entries.lookup job.fileId = some e ∧ e.stored.uri = u ∧ u ≠ uri := by
    intro u
    unfold State.movedFrom
    cases store.state.entries.lookup job.fileId with
    | none => simp
    | some e =>
      simp only [Option.some.injEq, exists_eq_left']
      split_ifs with hne
      · constructor
        · intro h
          rw [← Option.some.inj h]
          exact ⟨rfl, hne⟩
        · intro h
          rw [h.1]
      · constructor
        · intro h
          exact absurd h (by simp)
        · intro h
          exact absurd (h.1 ▸ not_not.1 hne) h.2
  have hitems : ∀ item ∈ store'.toPublish, item ∈ store.toPublish ∨
      item = (job, Stored ⟨uri, diagnostics, resultId diagnostics⟩ version
        (State.movedFrom (store.state.entries.lookup job.fileId) uri)) := by
    intro item hi
    rw [hpub, List.mem_append] at hi
    obtain hi | hi := hi
    · exact .inl hi
    · rw [Option.mem_toList, Option.map_eq_some_iff] at hi
      obtain ⟨p, hp, hitem⟩ := hi
      split_ifs at hp
      rw [← hitem, ← Option.some.inj hp]
      exact .inr rfl
  have hmono : ∀ item ∈ store.toPublish, item ∈ store'.toPublish := by
    intro item hi
    rw [hpub]
    exact List.mem_append_left _ hi
  have hnew : State.changed (store.state.entries.lookup job.fileId) uri (resultId diagnostics)
        = true →
      (job, Stored ⟨uri, diagnostics, resultId diagnostics⟩ version
        (State.movedFrom (store.state.entries.lookup job.fileId) uri)) ∈ store'.toPublish := by
    intro hch
    rw [hpub, if_pos hch]
    simp
  refine ⟨?_, ?_, ?_, hclear ▸ hc.clearOwner, ?_, ?_, ?_⟩
  · intro g e he
    rw [hentries g] at he
    split_ifs at he with hg
    · rw [← Option.some.inj he, hg]
      exact hown
    · exact hc.entryOwner g e he
  · intro g e he
    rw [hentries g] at he
    split_ifs at he with hg
    · rw [← Option.some.inj he]
    · exact hc.entryResult g e he
  · intro item hi
    obtain hi | hitem := hitems item hi
    · exact hc.itemOwner item hi
    · rw [hitem]
      refine ⟨hown, ?_⟩
      intro u hu
      obtain ⟨e, he, heu, -⟩ := (hmoved u).1 hu
      rw [← heu]
      exact hc.entryOwner _ e he
  · intro job' stored version' movedFrom' hi e he hid
    rw [hentries] at he
    obtain hi | hitem := hitems _ hi
    · split_ifs at he with hg
      · rw [← Option.some.inj he] at hid
        exact absurd hid.symm (hfresh _ hi)
      · exact hc.itemEntry job' stored version' movedFrom' hi e he hid
    · cases hitem
      rw [if_pos rfl] at he
      rw [← Option.some.inj he]
  · intro g e he
    rw [hshown]
    rw [hentries g] at he
    split_ifs at he with hg
    · cases hch : State.changed (store.state.entries.lookup job.fileId) uri
          (resultId diagnostics) with
      | true =>
        right
        cases he
        exact ⟨job, version, _, hnew hch, hg.symm, rfl⟩
      | false =>
        -- nothing is sent: the entry before it is shown
        left
        unfold State.changed at hch
        cases hprev : store.state.entries.lookup job.fileId with
        | none => simp [hprev] at hch
        | some e' =>
          simp only [hprev, Bool.or_eq_false_iff, bne_eq_false_iff_eq] at hch
          obtain ⟨hu, hr⟩ := hch
          cases he
          obtain ⟨m, hm, hres⟩ | ⟨job', v, mf, hi, -, hid⟩ := hc.shows _ e' hprev
          · exact ⟨m, hu ▸ hm, hres.trans hr⟩
          · exact absurd hid (hunchanged e' hprev hu hr _ hi)
    · obtain hold | ⟨job', version', movedFrom', hi, hrest⟩ := hc.shows g e he
      · exact .inl hold
      · exact .inr ⟨job', version', movedFrom', hmono _ hi, hrest⟩
  · intro u m hm hne
    rw [hshown] at hm
    rw [hclear]
    obtain hat | ⟨item, hi, hclears⟩ | hold := hc.clears u m hm hne
    · by_cases hu : owner u = job.fileId
      · by_cases huri : u = uri
        · left
          rw [hu, shownAt_eq hself, huri]
        · -- the file moved: its old URI is left to clear
          obtain ⟨e, he, heu⟩ := Option.map_eq_some_iff.1 hat
          rw [hu] at he
          have hch : State.changed (store.state.entries.lookup job.fileId) uri
              (resultId diagnostics) = true := by
            unfold State.changed
            rw [he]
            simp [heu, huri]
          exact .inr (.inl ⟨_, hnew hch, (hmoved u).2 ⟨e, he, heu, huri⟩⟩)
      · left
        unfold State.shownAt
        rw [hentries, if_neg hu]
        exact hat
    · exact .inr (.inl ⟨item, hmono item hi, hclears⟩)
    · exact .inr (.inr hold)

/-- A job finishing with any result. -/
theorem finish (hf : FreshIds store) (worker : Nat)
    (computed : Computed U D) (stale : Bool) (version : Option Int)
    (hown : owned owner store (.finish worker computed stale version) = true)
    (hcov : covers resultId store (.finish worker computed stale version) = true)
    (h : Store.step resultId store (.finish worker computed stale version) = some store') :
    Covered resultId owner store' := by
  cases hj : store.jobs[worker]? with
  | none => simp [Store.step, hj] at h
  | some job =>
    have hspec := State.finish_spec resultId store.state job computed stale version
    simp only [Store.step, hj, Option.some.injEq] at h
    revert h hspec
    generalize State.finish resultId store.state job computed stale version = result
    obtain ⟨state, published⟩ := result
    intro hspec h
    subst h
    have hmem : job ∈ store.jobs := List.mem_of_getElem? hj
    cases hspec with
    | superseded _ hs => exact hc.same (congrArg State.entries hs) (by simp) rfl rfl
    | again _ hinv => exact hc.same hinv.entries (by simp) rfl rfl
    | gone _ _ hpub hentries _ _ _ _ _ =>
      exact hc.finish_gone job hentries (by rw [hpub]) rfl rfl
    | stored uri diagnostics version' hcur hnot hcomputed hstale _ hpub hentries _ _ _ _ _ =>
      subst hcomputed hstale
      refine hc.finish_stored job uri diagnostics version' ?_ ?_ ?_ hentries (by rw [hpub])
        rfl rfl
      · simpa [owned, hj] using hown
      · intro item hi hid
        have hdis := List.disjoint_of_nodup_append hf.nodup
        exact hdis (List.mem_map_of_mem hmem) (hid ▸ List.mem_map_of_mem hi)
      · intro e he hu hr item hi hid
        have hcur' : store.state.isCurrent job = true := by
          unfold State.isCurrent
          rw [hcur]
          simp
        simp only [covers, hj, he, hcur', hnot, hu, hr] at hcov
        have hany : (store.toPublish.any fun item => decide (item.1.id = e.job)) = true :=
          List.any_eq_true.2 ⟨item, hi, decide_eq_true hid⟩
        rw [hany] at hcov
        exact absurd hcov (by decide)

end

end Covered

/-- **Every step that covers what it skips keeps everything covered.** -/
theorem covered_step (resultId : List D → Nat) (owner : U → FileId) (store store' : Store U D)
    (label : Label U D) (hf : FreshIds store) (hc : Covered resultId owner store)
    (hown : owned owner store label = true) (hcov : covers resultId store label = true)
    (h : Store.step resultId store label = some store') : Covered resultId owner store' := by
  cases label with
  | setOpen f isOpen =>
    cases h
    obtain ⟨A, hA, -⟩ := store.state.setOpen_spec f isOpen
    exact hc.same hA.entries rfl rfl rfl
  | invalidate files edited =>
    cases h
    exact hc.same (store.state.invalidateFiles_spec files edited).entries rfl rfl rfl
  | invalidateAll files =>
    cases h
    exact hc.same (store.state.invalidateAll_spec files).entries rfl rfl rfl
  | forget f uri => exact hc.forget f uri hown hcov h
  | forgetMissing live => exact hc.forgetMissing live h
  | get f priority =>
    cases h
    obtain ⟨A, hA, -⟩ := store.state.get_spec f priority
    exact hc.same hA.entries rfl rfl rfl
  | getAll files =>
    cases h
    obtain ⟨A, hA, -⟩ := State.getAll_spec files store.state
    exact hc.same hA.entries rfl rfl rfl
  | claim f =>
    cases hcl : store.state.claim f with
    | none =>
      simp only [Store.step, hcl, Option.some.injEq] at h
      exact h ▸ hc
    | some r =>
      obtain ⟨state, job⟩ := r
      simp only [Store.step, hcl, Option.some.injEq] at h
      subst h
      exact hc.same (State.claim_spec store.state state f job hcl).2.entries rfl rfl rfl
  | finish worker computed stale version =>
    exact hc.finish hf worker computed stale version hown hcov h
  | publish pending => exact hc.publish pending h
  | clearForgotten pending => exact hc.clearForgotten pending hcov h
  | publishOpened f version => exact hc.publishOpened f version h
  | send =>
    cases hs : store.sending with
    | none => simp [Store.step, hs] at h
    | some messages =>
      cases messages with
      | nil => simp [Store.step, hs] at h
      | cons message messages =>
        simp only [Store.step, hs, Option.some.injEq] at h
        subst h
        -- the message moves from what is being sent to what was sent
        refine hc.same rfl rfl rfl ?_
        simp [Store.messages, hs]
  | release =>
    cases hs : store.sending with
    | none => simp [Store.step, hs] at h
    | some messages =>
      cases messages with
      | nil =>
        simp only [Store.step, hs, Option.some.injEq] at h
        subst h
        refine hc.same rfl rfl rfl ?_
        simp [Store.messages, hs]
      | cons message messages => simp [Store.step, hs] at h
  | stop =>
    cases h
    exact hc.same rfl rfl rfl rfl

theorem covered_empty (resultId : List D → Nat) (owner : U → FileId) :
    Covered resultId owner (Store.empty : Store U D) := by
  refine ⟨?_, ?_, ?_, ?_, ?_, ?_, ?_⟩
  · intro f e he
    simp [Store.empty, State.empty] at he
  · intro f e he
    simp [Store.empty, State.empty] at he
  · intro item hi
    simp [Store.empty] at hi
  · intro item hi
    simp [Store.empty] at hi
  · intro job stored version movedFrom hi
    simp [Store.empty] at hi
  · intro f e he
    simp [Store.empty, State.empty] at he
  · intro u m hm
    simp [Store.shown, Store.messages, Store.empty] at hm

/-! ## §5. Whole runs -/

theorem covered_run (resultId : List D → Nat) (owner : U → FileId) (labels : List (Label U D)) :
    ∀ store store' : Store U D, FreshIds store → Covered resultId owner store →
      LabelledRuns.everyStep (Store.step resultId) (owned owner) labels store = true →
      LabelledRuns.everyStep (Store.step resultId) (covers resultId) labels store = true →
      Store.run resultId labels store = some store' → Covered resultId owner store' := by
  induction labels with
  | nil =>
    intro store store' _ hc _ _ h
    have h' : some store = some store' := h
    exact Option.some.inj h' ▸ hc
  | cons label labels ih =>
    intro store store' hf hc hown hcov h
    have hrun : (Store.step resultId store label).bind (Store.run resultId labels)
        = some store' := h
    obtain ⟨mid, hmid, hrest⟩ := Option.bind_eq_some_iff.1 hrun
    simp only [LabelledRuns.everyStep, hmid, Bool.and_eq_true] at hown hcov
    exact ih mid store' (freshIds_step resultId store mid label hf hmid)
      (covered_step resultId owner store mid label hf hc hown.1 hcov.1 hmid) hown.2 hcov.2 hrest

/-- No publish and no clearing is outstanding. -/
def Store.Quiet (store : Store U D) : Prop :=
  store.toPublish = [] ∧ store.toClear = [] ∧ store.sending = none

/-- What the client shows is what the store holds: the last message for an entry's URI
    carries its result, and for a URI no entry holds it is empty. -/
def Store.ShowsHeld (resultId : List D → Nat) (store : Store U D) : Prop :=
  (∀ f e, store.state.entries.lookup f = some e →
    ∃ m, lastTo store.sent e.stored.uri = some m ∧ resultId m.diagnostics = e.stored.resultId) ∧
  ∀ u m, (∀ f e, store.state.entries.lookup f = some e → e.stored.uri ≠ u) →
    lastTo store.sent u = some m → m.diagnostics = []

/-- **The client ends up showing what the store holds**: in every run in which no two files
    share a URI and every step covers what it skips, whatever the workers and callers
    interleave, as soon as nothing is outstanding. -/
theorem client_shows_what_store_holds (resultId : List D → Nat) (owner : U → FileId)
    (labels : List (Label U D)) (store : Store U D) (hreach : Store.Reaches resultId labels store)
    (hown : LabelledRuns.everyStep (Store.step resultId) (owned owner) labels Store.empty = true)
    (hcov : LabelledRuns.everyStep (Store.step resultId) (covers resultId) labels Store.empty
      = true) (hquiet : store.Quiet) : store.ShowsHeld resultId := by
  obtain ⟨hpub, hclear, hsending⟩ := hquiet
  have hc := covered_run resultId owner labels Store.empty store freshIds_empty
    (covered_empty resultId owner) hown hcov hreach
  have hshown : ∀ u, store.shown u = lastTo store.sent u := by
    intro u
    unfold Store.shown Store.messages
    rw [hsending]
    rfl
  constructor
  · intro f e he
    obtain hold | ⟨job, version, movedFrom, hi, -⟩ := hc.shows f e he
    · rw [hshown] at hold
      exact hold
    · rw [hpub] at hi
      exact absurd hi (by simp)
  · intro u m hnone hm
    by_contra hne
    rw [← hshown] at hm
    obtain hat | ⟨item, hi, -⟩ | hi := hc.clears u m hm hne
    · obtain ⟨e, he, hu⟩ := Option.map_eq_some_iff.1 hat
      exact hnone _ e he hu
    · rw [hpub] at hi
      exact absurd hi (by simp)
    · rw [hclear] at hi
      exact absurd hi (by simp)

/-- A file that is diagnosed at one URI and, before that is published, at another: the newer
    job clears and shows, the older one then sends nothing. -/
theorem client_shows_moved_file :
    ∃ store : Store Nat Unit, Store.Reaches List.length
      [.invalidate [⟨1⟩] [], .claim ⟨1⟩, .finish 0 (.Diagnostics 7 [()]) false none,
        .invalidate [⟨1⟩] [], .claim ⟨1⟩, .finish 0 (.Diagnostics 8 [(), ()]) false none,
        .publish 1, .send, .send, .release, .publish 0, .release] store ∧
      store.Quiet ∧ store.state.shownAt ⟨1⟩ = some 8 ∧ store.ShowsHeld List.length := by
  have h := client_shows_what_store_holds (U := Nat) (D := Unit) List.length (fun _ => ⟨1⟩)
    [.invalidate [⟨1⟩] [], .claim ⟨1⟩, .finish 0 (.Diagnostics 7 [()]) false none,
      .invalidate [⟨1⟩] [], .claim ⟨1⟩, .finish 0 (.Diagnostics 8 [(), ()]) false none,
      .publish 1, .send, .send, .release, .publish 0, .release] _ rfl (by rfl) (by rfl)
    ⟨rfl, rfl, rfl⟩
  exact ⟨_, rfl, ⟨rfl, rfl, rfl⟩, by rfl, h⟩

/-- **A lost publish.**  Two jobs of a file store the same result before the first one's
    publish runs: the second publishes nothing, since nothing changed, and the first one
    nothing, since the entry is no longer its own. -/
theorem publish_lost :
    ¬ ∀ (resultId : List Unit → Nat) (owner : Nat → FileId) (labels : List (Label Nat Unit))
      (store : Store Nat Unit), (∀ a b, resultId a = resultId b ↔ a = b) →
      Store.Reaches resultId labels store →
      LabelledRuns.everyStep (Store.step resultId) (owned owner) labels Store.empty = true →
      store.Quiet → store.ShowsHeld resultId := by
  intro h
  have hlen : ∀ a b : List Unit, a.length = b.length ↔ a = b :=
    fun a b => ⟨fun hab => List.ext_get hab (fun _ _ _ => rfl), fun hab => by rw [hab]⟩
  have hbad := h List.length (fun _ => ⟨1⟩)
    [.invalidate [⟨1⟩] [], .claim ⟨1⟩, .finish 0 (.Diagnostics 7 [()]) false none,
      .invalidate [⟨1⟩] [], .claim ⟨1⟩, .finish 0 (.Diagnostics 7 [()]) false none,
      .publish 0, .release] _ hlen rfl (by rfl) ⟨rfl, rfl, rfl⟩
  obtain ⟨m, hm, -⟩ := hbad.1 ⟨1⟩ ⟨⟨7, [()], 1⟩, 0, 4⟩ (by rfl)
  have hnone : (none : Option (Message Nat Unit)) = some m := hm
  exact absurd hnone (by simp)

end GluaLs.Diag
