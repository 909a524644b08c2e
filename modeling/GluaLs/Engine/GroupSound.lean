/-
  GluaLs.Engine.GroupSound — a group run leaves no stale contribution.

  Before an evaluation each primary key holds its source-layer value overlaid by writes of
  its recorded producers (`Overlaid`).  `GroupRunSound` says that the evaluation ends, on
  the index and in a task alike, and that afterwards each primary key holds its source-layer
  value overlaid by the writes of the run that went through.  Main results:

    • `groupRunSound_of_notesOwn` — so it is for the groups that touch no keys but such that a
      reset of one notes no other of them as written,
    • `groupRunSound_iff` — **and only then**: a run takes a key a reset noted for one that
      was reset, stops watching who writes it, and resets it later over what was written.
-/
import GluaLs.Engine.GroupRun

namespace GluaLs.Engine

open GluaLs.Lib

section

variable {K V : Type} [DecidableEq K]

/-! ## §1. What a turn of the loop starts from -/

section

variable (graph : ReaderGraph K) (group : List DerivationId)

theorem mem_outputsAnd (also : List K) (key : K) :
    key ∈ outputsAnd graph group also ↔
      key ∈ also ∨ ∃ member ∈ group, key ∈ graph.outputsOf member := by
  unfold outputsAnd
  induction group generalizing also with
  | nil => simp
  | cons member rest ih =>
    rw [List.foldl_cons, ih, List.mem_union_iff]
    simp only [List.mem_cons, exists_eq_or_imp]
    tauto

theorem resetAtFront_lookup (keys : List K) (key : K) :
    (resetAtFront keys).lookup key ≠ none ↔ key ∈ keys := by
  unfold resetAtFront
  induction keys using List.reverseRecOn with
  | nil => simp
  | append_singleton keys first ih =>
    rw [List.foldl_append, List.foldl_cons, List.foldl_nil, lookup_insert_ite]
    split_ifs with heq
    · simp [heq]
    · rw [ih]
      simp [heq]

end

theorem mem_deferred (members : List DerivationId) (r : GroupResets K)
    (hown : r.own.length = members.length) (hjoint : r.joint.length = members.length) (key : K) :
    key ∈ r.deferred ↔ ∃ s ∈ steps members r, key ∈ deferredTo s := by
  obtain ⟨front, own, joint⟩ := r
  simp only [GroupResets.deferred, steps, deferredTo, List.flatten_append, List.mem_append]
  induction members generalizing own joint with
  | nil =>
    have ho : own = [] := List.length_eq_zero_iff.1 hown
    have hj : joint = [] := List.length_eq_zero_iff.1 hjoint
    simp [ho, hj]
  | cons member rest ih =>
    cases own with
    | nil => simp at hown
    | cons o own =>
      cases joint with
      | nil => simp at hjoint
      | cons j joint =>
        have hrest := ih own joint (by simpa using hown) (by simpa using hjoint)
        simp only [List.flatten_cons, List.mem_append, List.zip_cons_cons, List.mem_cons,
          exists_eq_or_imp, ← hrest]
        tauto

/-- What `groupResets` promises of a group: `steps` are in order, no key they defer is
    reset in front or was written by a discarded run, and every primary key to reset is in
    front or deferred. -/
structure ResetsOk (ix : FactIndex K V) (graph : ReaderGraph K) (discarded : List K)
    (group : List DerivationId) (r : GroupResets K) : Prop where
  own_length : r.own.length = group.length
  joint_length : r.joint.length = group.length
  deferred : StepsOk ix (steps group r) fun key => key ∈ discarded ∨ key ∈ r.front
  output : ∀ s ∈ steps group r, ∀ key ∈ deferredTo s, ∃ m ∈ group, key ∈ graph.outputsOf m
  front : ∀ key ∈ r.front, ix.isPrimary key = true ∧
    (key ∈ discarded ∨ ∃ m ∈ group, key ∈ graph.outputsOf m)
  discarded_front : group.length ≠ 1 → ∀ key ∈ discarded, ix.isPrimary key = true → key ∈ r.front

theorem groupResets_ok (ix : FactIndex K V) (graph : ReaderGraph K) (shared discarded : List K)
    (group : List DerivationId) :
    ResetsOk ix graph discarded group (groupResets ix graph shared discarded group) := by
  unfold groupResets
  split_ifs with hone
  · -- a group of one defers nothing
    obtain ⟨member, rfl⟩ := List.length_eq_one_iff.1 hone
    refine ⟨rfl, rfl, ⟨?_, ?_, ?_⟩, ?_, ?_, ?_⟩ <;> simp [steps, deferredTo]
  · have h := placeMembers_spec ix graph shared discarded group 0 [] [] (by simp)
    revert h
    generalize placeMembers ix graph shared discarded 0 group [] [] = r
    intro h
    refine ⟨h.own_length, h.joint_length, ⟨h.deferred.primary, ?_, h.deferred.once⟩, ?_, ?_, ?_⟩
    · intro s hs key hkey hex
      have hapart := h.deferred.apart s hs key hkey
      simp only [List.mem_append, List.mem_filter] at hex
      tauto
    · intro s hs key hkey
      obtain ⟨m, hm, hout⟩ := h.output s hs key hkey
      exact ⟨m, hm, List.mem_of_mem_filter hout⟩
    · intro key hkey
      simp only [List.mem_append, List.mem_filter] at hkey
      cases hkey with
      | inl hfront =>
        have hcases := h.front key hfront
        simp only [List.not_mem_nil, not_false_eq_true, true_and, false_or, primaryOutputs,
          List.mem_filter] at hcases
        obtain ⟨m, hm, hout, hprim⟩ := hcases
        exact ⟨hprim, .inr ⟨m, hm, hout⟩⟩
      | inr hdisc => exact ⟨hdisc.2, .inl hdisc.1⟩
    · intro _ key hkey hprim
      simp [hkey, hprim]

section

variable (ix : FactIndex K V) (source : K → V) (recipe : Recipe K V) (graph : ReaderGraph K)
  (group : List DerivationId)

/-! ## §2. Every evaluation is a run of its member -/

/-- Each evaluation is a run of the program of one of the members. -/
def AreRuns (evaluations : List (Evaluation K V)) : Prop :=
  ∀ e ∈ evaluations, e.id ∈ group ∧ ∃ facts, e.log = ((recipe e.id).run ix.toLayout facts).2

theorem runGroup_runs (rest : List (DerivationId × List K × List K)) :
    ∀ (position : Nat) (st : RunState K V), (∀ s ∈ rest, s.1 ∈ group) →
      AreRuns ix recipe group st.evaluations →
      AreRuns ix recipe group (runGroup ix source recipe position rest st).1.evaluations := by
  induction rest with
  | nil => intro position st _ h; exact h
  | cons step rest ih =>
    intro position st hrest h
    obtain ⟨member, own, joint⟩ := step
    have heval : AreRuns ix recipe group ((st.resetMember ix source position own
        joint).evaluate ix recipe position member).1.evaluations := by
      intro e he
      have hcases : e ∈ st.evaluations ∨ e = ⟨member, ((recipe member).run ix.toLayout
            (st.resetMember ix source position own joint).facts).2,
          (st.resetMember ix source position own joint).resetKeys⟩ := by
        simpa [RunState.evaluate, RunState.resetMember] using he
      cases hcases with
      | inl hold => exact h e hold
      | inr hnew =>
        rw [hnew]
        exact ⟨hrest (member, own, joint) (by simp), _, rfl⟩
    simp only [runGroup]
    split_ifs
    · exact h
    · exact heval
    · exact ih (position + 1) _ (fun s hs => hrest s (by simp [hs])) heval

omit [DecidableEq K] in
theorem steps_members (resets : GroupResets K) : ∀ s ∈ steps group resets, s.1 ∈ group :=
  fun _ hs => (List.of_mem_zip hs).1

/-- A key the evaluations wrote or moved is one the members' programs may touch. -/
theorem AreRuns.writtenBy_mem (keys : Finset K) (hwrites : ∀ m ∈ group, (recipe m).WritesIn keys)
    (evaluations : List (Evaluation K V)) (h : AreRuns ix recipe group evaluations) :
    ∀ key ∈ writtenBy evaluations, key ∈ keys := by
  intro key hkey
  obtain ⟨e, he, hkey⟩ := List.mem_flatMap.1 hkey
  obtain ⟨hid, facts, hlog⟩ := h e he
  unfold Evaluation.outputs Evaluation.moved at hkey
  rw [hlog] at hkey
  exact Program.touched_subset ix.toLayout keys (recipe e.id) facts (hwrites e.id hid) key hkey

omit [DecidableEq K] in
theorem mem_writtenBy (evaluations : List (Evaluation K V)) (e : Evaluation K V)
    (he : e ∈ evaluations) (key : K) (hout : key ∈ e.outputs) : key ∈ writtenBy evaluations :=
  List.mem_flatMap.2 ⟨e, he, by simp [hout]⟩

/-! ## §3. One turn of the loop -/

variable (keys : Finset K)

/-- A group that touches no keys but `keys`: those on its members' records and those their
    programs may write or mark. -/
structure Within : Prop where
  records : ∀ m ∈ group, ∀ key ∈ graph.outputsOf m, key ∈ keys
  writes : ∀ m ∈ group, (recipe m).WritesIn keys

/-- What discarded runs wrote is among `keys`, and a primary key among them, neither on a
    member's record nor written by a discarded run, holds its source-layer value. -/
structure LoopInv (facts : K → V) (discarded : List K) : Prop where
  within : ∀ key ∈ discarded, key ∈ keys
  values : ∀ key, ix.Watched keys key → key ∉ discarded →
    (∀ m ∈ group, key ∉ graph.outputsOf m) → facts key = source key

/-- How one turn of the loop ended: it went through, leaving nothing stale, or it wrote a
    primary key that no discarded run wrote before. -/
structure TurnOk (discarded : List K) (r : RunState K V × List K) : Prop where
  ids : r.2 = [] → r.1.evaluations.map Evaluation.id = group
  values : r.2 = [] → ∀ key, ix.Watched keys key →
    r.1.facts key = overlay (writesOf r.1.evaluations) key (source key)
  shared : r.2 = [] → SharedReset ix r.1.evaluations
  runs : AreRuns ix recipe group r.1.evaluations
  again : LoopInv ix source graph group keys r.1.facts (discarded ∪ writtenBy r.1.evaluations)
  progress : r.2 ≠ [] → ∃ key, key ∉ discarded ∧ ∃ e ∈ r.1.evaluations, key ∈ e.outputs

/-- The state a run of the members starts from. -/
def startState (facts : K → V) (resetKeys : List K) (reset : HashMap K Nat) : RunState K V :=
  { facts := (ix.resetAll source facts resetKeys).1, resetKeys := resetKeys, reset := reset,
    cleared := [], writers := ∅, evaluations := [] }

/-- A group of one is never stopped: nobody else can have written what it writes. -/
theorem runGroup_one (rest : List (DerivationId × List K × List K)) (hrest : rest.length ≤ 1)
    (st : RunState K V) (hst : st.writers = ∅) :
    (runGroup ix source recipe 0 rest st).2 = [] := by
  match rest, hrest with
  | [], _ => rfl
  | [(member, own, joint)], _ =>
    have hfree : ((own ++ joint).filter fun key => (st.writers.lookup key).isSome) = [] := by
      simp [hst]
    have hnoted : ∀ keys : List K, (keys.foldl (noteWriter 0) (st.writers, [])).2 = [] := by
      intro keys
      have h := noteWriter_foldl 0 st.writers (by simp [hst]) keys
      rw [List.eq_nil_iff_forall_not_mem]
      intro key hkey
      exact ((h.found key).1 hkey).2 (by simp [hst])
    simp only [runGroup, hfree, ne_eq, not_true_eq_false, if_false]
    split_ifs with hfound
    · rfl
    · exact hnoted _

/-- The keys a turn resets before the first member: the primary ones on a member's record or
    written by a discarded run, but those deferred. -/
def FrontKeys (discarded resetKeys : List K) (resets : GroupResets K) : Prop :=
  ∀ key, key ∈ resetKeys ↔ (key ∈ discarded ∨ ∃ m ∈ group, key ∈ graph.outputsOf m)
    ∧ ix.isPrimary key = true ∧ key ∉ resets.deferred

omit [DecidableEq K] in
theorem FrontKeys.watched (hwithin : Within recipe graph group keys) {discarded resetKeys : List K}
    {resets : GroupResets K} (hkeys : FrontKeys ix graph group discarded resetKeys resets)
    (hdisc : ∀ key ∈ discarded, key ∈ keys) : ∀ key ∈ resetKeys, ix.Watched keys key := by
  intro key hkey
  obtain ⟨hin, hprim, -⟩ := (hkeys key).1 hkey
  refine ⟨hprim, ?_⟩
  cases hin with
  | inl hin => exact hdisc key hin
  | inr hin =>
    obtain ⟨m, hm, hout⟩ := hin
    exact hwithin.records m hm key hout

/-- The invariant of a run holds where a turn starts it. -/
theorem startState_inv (facts : K → V) (discarded resetKeys : List K) (reset : HashMap K Nat)
    (resets : GroupResets K) (hresets : ResetsOk ix graph discarded group resets)
    (hnotes : ix.NotesOwn keys) (hwithin : Within recipe graph group keys)
    (hinv : LoopInv ix source graph group keys facts discarded)
    (hkeys : FrontKeys ix graph group discarded resetKeys resets)
    (hreset : ∀ key, ix.Watched keys key → reset.lookup key ≠ none → key ∈ resetKeys) :
    RunInv ix keys source 0 (steps group resets) (startState ix source facts resetKeys reset) := by
  have hdef := mem_deferred group resets hresets.own_length hresets.joint_length
  constructor
  · intro key hprim hlater
    show (ix.resetAll source facts resetKeys).1 key = source key
    rw [resetAll_facts ix keys hnotes source resetKeys
      (hkeys.watched ix recipe graph group keys hwithin hinv.within) facts key hprim]
    split_ifs with hkey
    · rfl
    · have hnot : key ∉ resets.deferred := by
        rw [hdef key]
        intro hex
        obtain ⟨s, hs, hmem⟩ := hex
        exact hlater s hs hmem
      rw [hkeys key] at hkey
      apply hinv.values key hprim
      · intro hdisc
        exact hkey ⟨.inl hdisc, hprim.1, hnot⟩
      · intro m hm hout
        exact hkey ⟨.inr ⟨m, hm, hout⟩, hprim.1, hnot⟩
  · intro s hs key hkey
    have hprim := hresets.deferred.primary s hs key hkey
    obtain ⟨m, hm, hout⟩ := hresets.output s hs key hkey
    have hin := hwithin.records m hm key hout
    refine ⟨hin, ?_⟩
    by_contra hne
    have hmem := (hkeys key).1 (hreset key ⟨hprim, hin⟩ hne)
    exact hmem.2.2 ((hdef key).2 ⟨s, hs, hkey⟩)
  · exact hreset
  · intro key q hq
    simp [startState] at hq
  · intro key hprim hnone
    simp [startState]
  · intro key hprim hne e he
    simp [startState] at he
  · simp [SharedReset, startState]

/-- **One turn of the loop**, from wherever the turns before it left the facts. -/
theorem turn_ok (hnotes : ix.NotesOwn keys) (hwithin : Within recipe graph group keys)
    (facts : K → V) (discarded resetKeys : List K) (reset : HashMap K Nat) (resets : GroupResets K)
    (hresets : ResetsOk ix graph discarded group resets)
    (hinv : LoopInv ix source graph group keys facts discarded)
    (hkeys : FrontKeys ix graph group discarded resetKeys resets)
    (hreset : ∀ key, ix.Watched keys key → reset.lookup key ≠ none → key ∈ resetKeys)
    (hcover : group.length > 1 → ∀ key ∈ resets.front, reset.lookup key ≠ none) :
    TurnOk ix source recipe graph group keys discarded
      (runGroup ix source recipe 0 (steps group resets)
        (startState ix source facts resetKeys reset)) := by
  have hstart := startState_inv ix source recipe graph group keys facts discarded resetKeys reset
    resets hresets hnotes hwithin hinv hkeys hreset
  have hruns : AreRuns ix recipe group (runGroup ix source recipe 0 (steps group resets)
      (startState ix source facts resetKeys reset)).1.evaluations :=
    runGroup_runs ix source recipe group _ 0 _ (steps_members group _)
      fun e he => by simp [startState] at he
  have hsteps : (steps group resets).map Prod.fst = group := by
    unfold steps
    apply List.map_fst_zip
    simp [hresets.own_length, hresets.joint_length]
  have hend := runGroup_spec ix keys source recipe hnotes _ (steps group resets) 0 _
    hresets.deferred (fun s hs => hwithin.writes s.1 (steps_members group _ s hs)) hstart
  have hone := runGroup_one ix source recipe (steps group resets)
  revert hend hruns
  generalize hr : runGroup ix source recipe 0 (steps group resets)
    (startState ix source facts resetKeys reset) = r
  intro hruns hend
  constructor
  · intro hthrough
    rw [(hend.through hthrough).2, hsteps]
    simp [startState]
  · intro hthrough key hprim
    obtain ⟨position, hrun⟩ := (hend.through hthrough).1
    exact hrun.settled key hprim (by simp)
  · intro hthrough
    obtain ⟨position, hrun⟩ := (hend.through hthrough).1
    exact hrun.shared
  · exact hruns
  · -- whether the turn went through or not, what it wrote is now among the discarded keys
    refine ⟨?_, ?_⟩
    · intro key hdisc
      cases List.mem_union_iff.1 hdisc with
      | inl hold => exact hinv.within key hold
      | inr hnew =>
        exact hruns.writtenBy_mem ix recipe group keys hwithin.writes _ key hnew
    intro key hprim hdisc hout
    obtain ⟨later, hlater, hsettled⟩ := hend.settled
    rw [List.mem_union_iff, not_or] at hdisc
    have hunwritten : ∀ e ∈ r.1.evaluations, key ∉ e.outputs := fun e he hmem =>
      hdisc.2 (mem_writtenBy _ e he key hmem)
    rw [hsettled key hprim, overlay_writesOf r.1.evaluations key (source key) hunwritten]
    intro s hs hmem
    obtain ⟨m, hm, hrec⟩ := hresets.output s (hlater s hs) key hmem
    exact hout m hm hrec
  · intro hstopped
    obtain ⟨key, hkey⟩ := List.exists_mem_of_ne_nil r.2 hstopped
    obtain ⟨hprim, hwrote, hcases⟩ := hend.stopped key hkey
    refine ⟨key, fun hdisc => ?_, hwrote⟩
    cases hcases with
    | inl hdef =>
      obtain ⟨s, hs, hmem⟩ := hdef
      exact hresets.deferred.apart s hs key hmem (.inl hdisc)
    | inr hnone =>
      by_cases hlen : group.length > 1
      · have hfront := hresets.discarded_front (by omega) key hdisc hprim
        exact hcover hlen key hfront hnone
      · have hshort : (steps group resets).length ≤ 1 := by
          have := congrArg List.length hsteps
          rw [List.length_map] at this
          omega
        have hnil := hone hshort (startState ix source facts resetKeys reset) rfl
        rw [hr] at hnil
        exact hstopped hnil

/-- The keys both loops reset before the first member. -/
theorem frontKeys_filter (discarded : List K) (resets : GroupResets K) :
    FrontKeys ix graph group discarded
      ((ix.iter (outputsAnd graph group discarded)).filter fun key =>
        ix.isPrimary key && !decide (key ∈ resets.deferred)) resets := by
  intro key
  rw [List.mem_filter, ix.mem_iter, mem_outputsAnd]
  simp

/-- Of the primary keys, those both loops count as reset before the first member are. -/
theorem frontKeys_counted (hnotes : ix.NotesOwn keys) (hwithin : Within recipe graph group keys)
    (facts : K → V) (discarded resetKeys : List K) (hdisc : ∀ key ∈ discarded, key ∈ keys)
    (resets : GroupResets K) (hresets : ResetsOk ix graph discarded group resets)
    (hkeys : FrontKeys ix graph group discarded resetKeys resets) (key : K)
    (hprim : ix.Watched keys key)
    (hkey : key ∈ resets.front ∨ key ∈ (ix.resetAll source facts resetKeys).2) :
    key ∈ resetKeys := by
  cases hkey with
  | inl hfront =>
    have hdef := mem_deferred group resets hresets.own_length hresets.joint_length key
    rw [hkeys key]
    refine ⟨(hresets.front key hfront).2, hprim.1, fun hmem => ?_⟩
    obtain ⟨s, hs, hin⟩ := hdef.1 hmem
    exact hresets.deferred.apart s hs key hin (.inr hfront)
  | inr hnoted =>
    exact resetAll_noted ix keys hnotes source resetKeys
      (hkeys.watched ix recipe graph group keys hwithin hdisc) facts key hnoted hprim

/-- A turn of either loop resets the front keys, and counts as reset those placed in front and
    what the resets noted, where there are several members. -/
theorem pass_ok (hnotes : ix.NotesOwn keys) (hwithin : Within recipe graph group keys)
    (st : LoopState K V) (hinv : LoopInv ix source graph group keys st.facts st.discarded)
    (resets : GroupResets K) (hr : resets = groupResets ix graph st.shared st.discarded group)
    (resetKeys : List K)
    (hfront : resetKeys = (ix.iter (outputsAnd graph group st.discarded)).filter
      fun key => ix.isPrimary key && !decide (key ∈ resets.deferred)) (reset : HashMap K Nat)
    (hreset : ∀ key, reset.lookup key ≠ none →
      key ∈ resets.front ∨ key ∈ (ix.resetAll source st.facts resetKeys).2)
    (hcover : group.length > 1 → ∀ key ∈ resets.front, reset.lookup key ≠ none) :
    TurnOk ix source recipe graph group keys st.discarded
      (runGroup ix source recipe 0 (steps group resets)
        (startState ix source st.facts resetKeys reset)) := by
  subst hr hfront
  have hresets := groupResets_ok ix graph st.shared st.discarded group
  have hkeys := frontKeys_filter ix graph group st.discarded
    (groupResets ix graph st.shared st.discarded group)
  refine turn_ok ix source recipe graph group keys hnotes hwithin st.facts st.discarded _ _ _
    hresets hinv hkeys ?_ hcover
  intro key hprim hne
  exact frontKeys_counted ix source recipe graph group keys hnotes hwithin st.facts st.discarded _
    hinv.within _ hresets hkeys key hprim (hreset key hne)

section

variable (hnotes : ix.NotesOwn keys) (hwithin : Within recipe graph group keys)
  (st : LoopState K V) (hinv : LoopInv ix source graph group keys st.facts st.discarded)
include hnotes hwithin hinv

theorem groupPass_ok :
    TurnOk ix source recipe graph group keys st.discarded
      ((groupPass ix source recipe graph group st).1,
        (groupPass ix source recipe graph group st).2.1) := by
  refine pass_ok ix source recipe graph group keys hnotes hwithin st hinv _ rfl _ rfl _ ?_ ?_
  · intro key hne
    rw [resetAtFront_lookup] at hne
    split_ifs at hne with hlen
    · exact List.mem_union_iff.1 hne
    · exact .inl hne
  · intro hlen key hfront
    rw [resetAtFront_lookup, if_pos hlen]
    exact List.mem_union_iff.2 (.inl hfront)

theorem workerPass_ok :
    TurnOk ix source recipe graph group keys st.discarded
      ((workerPass ix source recipe graph group st).1,
        (workerPass ix source recipe graph group st).2.1) := by
  refine pass_ok ix source recipe graph group keys hnotes hwithin st hinv _ rfl _ rfl _ ?_ ?_
  · intro key hne
    split_ifs at hne with hlen
    · rw [resetAtFront_lookup] at hne
      exact List.mem_append.1 hne
    · simp at hne
  · intro hlen key hfront
    rw [if_pos hlen, resetAtFront_lookup]
    exact List.mem_append.2 (.inl hfront)

end

/-! ## §4. The loop -/

/-- What an evaluation of a group promises: it ran every member in order, and no primary key
    that a member's old record, a discarded run or the final run wrote holds anything but its
    source-layer value overlaid by the final run. -/
structure NothingStale (outputsOf : DerivationId → List K) (r : GroupRun K V) : Prop where
  ids : r.evaluations.map Evaluation.id = group
  runs : AreRuns ix recipe group r.evaluations
  values : ∀ key, ix.isPrimary key = true →
    ((∃ m ∈ group, key ∈ outputsOf m) ∨ key ∈ r.discarded ∨ ∃ e ∈ r.evaluations, key ∈ e.outputs) →
    r.db.facts key = overlay (writesOf r.evaluations) key (source key)
  shared : SharedReset ix r.evaluations

/-- A turn that went through leaves nothing stale. -/
theorem TurnOk.nothingStale (hwithin : Within recipe graph group keys) (discarded : List K)
    (r : RunState K V × List K) (h : TurnOk ix source recipe graph group keys discarded r)
    (hdisc : ∀ key ∈ discarded, key ∈ keys) (hthrough : r.2 = []) (run : GroupRun K V)
    (hfacts : run.db.facts = r.1.facts) (hold : run.discarded = discarded)
    (hevals : run.evaluations = r.1.evaluations) :
    NothingStale ix source recipe group graph.outputsOf run := by
  refine ⟨?_, ?_, ?_, ?_⟩
  · rw [hevals]; exact h.ids hthrough
  · rw [hevals]; exact h.runs
  · intro key hprim htouched
    rw [hevals, hold] at htouched
    rw [hevals, hfacts]
    refine h.values hthrough key ⟨hprim, ?_⟩
    obtain ⟨m, hm, hout⟩ | hmem | ⟨e, he, hout⟩ := htouched
    · exact hwithin.records m hm key hout
    · exact hdisc key hmem
    · exact h.runs.writtenBy_mem ix recipe group keys hwithin.writes _ key
        (mem_writtenBy _ e he key hout)
  · rw [hevals]; exact h.shared hthrough

/-- A discarded turn leaves fewer keys that no discarded run wrote. -/
theorem TurnOk.fewer (hwithin : Within recipe graph group keys)
    (discarded : List K) (r : RunState K V × List K)
    (h : TurnOk ix source recipe graph group keys discarded r) (hstopped : r.2 ≠ []) :
    (keys.filter (· ∉ discarded ∪ writtenBy r.1.evaluations)).card
      < (keys.filter (· ∉ discarded)).card := by
  obtain ⟨key, hnew, e, he, hout⟩ := h.progress hstopped
  have hwrote := mem_writtenBy _ e he key hout
  apply Finset.card_lt_card
  refine Finset.ssubset_iff_of_subset ?_ |>.2 ⟨key, ?_, ?_⟩
  · intro x hx
    rw [Finset.mem_filter, List.mem_union_iff, not_or] at hx
    exact Finset.mem_filter.2 ⟨hx.1, hx.2.1⟩
  · have hmem := h.runs.writtenBy_mem ix recipe group keys hwithin.writes _ key hwrote
    exact Finset.mem_filter.2 ⟨hmem, hnew⟩
  · simp [hwrote]

/-- **A loop that takes turns until one goes through** ends, and leaves nothing stale. -/
theorem turns_sound (hwithin : Within recipe graph group keys)
    (pass : LoopState K V → RunState K V × List K × List K)
    (hpass : ∀ st, LoopInv ix source graph group keys st.facts st.discarded →
      TurnOk ix source recipe graph group keys st.discarded ((pass st).1, (pass st).2.1))
    (loop : Nat → LoopState K V → Option (GroupRun K V))
    (hloop : ∀ fuel st, ∃ graph touched, loop (fuel + 1) st =
      if (pass st).2.1 = [] then
        some ⟨⟨(pass st).1.facts, source, graph⟩, touched, st.discarded, (pass st).1.evaluations⟩
      else
        loop fuel ⟨(pass st).1.facts,
          (pass st).2.2 ∪ (st.discarded ∪ writtenBy (pass st).1.evaluations),
          st.shared ∪ (pass st).2.1, st.discarded ∪ writtenBy (pass st).1.evaluations⟩)
    (fuel : Nat) :
    ∀ st : LoopState K V, LoopInv ix source graph group keys st.facts st.discarded →
      (keys.filter (· ∉ st.discarded)).card < fuel →
      ∃ r, loop fuel st = some r ∧ NothingStale ix source recipe group graph.outputsOf r := by
  induction fuel with
  | zero => intro st _ hfuel; omega
  | succ fuel ih =>
    intro st hinv hfuel
    have hturn := hpass st hinv
    obtain ⟨graph', touched, heq⟩ := hloop fuel st
    rw [heq]
    by_cases hfound : (pass st).2.1 = []
    · rw [if_pos hfound]
      exact ⟨_, rfl, hturn.nothingStale ix source recipe graph group keys hwithin st.discarded _
        hinv.within hfound _ rfl rfl rfl⟩
    · rw [if_neg hfound]
      have hless := hturn.fewer ix source recipe graph group keys hwithin st.discarded _ hfound
      exact ih _ hturn.again (Nat.lt_of_lt_of_le hless (Nat.lt_succ_iff.1 hfuel))

end

/-! ## §5. A group run leaves no stale contribution -/

theorem mem_producers (graph : ReaderGraph K) (key : K) (id : DerivationId) :
    id ∈ graph.producers key ↔ key ∈ graph.outputsOf id := by
  unfold ReaderGraph.producers ReaderGraph.outputsOf
  simp only [List.mem_map, List.mem_filter, decide_eq_true_eq]
  constructor
  · intro h
    obtain ⟨⟨id', outputs⟩, ⟨hmem, hkey⟩, rfl⟩ := h
    rw [mem_entries_iff] at hmem
    simpa [hmem] using hkey
  · intro h
    cases hrec : graph.records.lookup id with
    | none => simp [hrec] at h
    | some outputs =>
      refine ⟨⟨id, outputs⟩, ⟨(mem_entries_iff _ _ _).2 hrec, ?_⟩, rfl⟩
      simpa [hrec] using h

/-- Each primary key holds its source-layer value overlaid by writes of its recorded
    producers, all of them in `group` but the source layer's own derivations. -/
structure Overlaid (ix : FactIndex K V) (group : List DerivationId) (db : DbIndex K V) : Prop where
  producers : ∀ key, ix.isPrimary key = true → ∀ id ∈ db.graph.producers key,
    id ∈ group ∨ id.kind = DerivationKind.Source
  values : ∃ history : List (DerivationId × K × (V → V)),
    (∀ w ∈ history, w.1 ∈ db.graph.producers w.2.1 ∧ w.1.kind ≠ DerivationKind.Source) ∧
    ∀ key, ix.isPrimary key = true →
      db.facts key = overlay (history.map Prod.snd) key (db.source key)

theorem Overlaid.loopInv (ix : FactIndex K V) (group : List DerivationId) (keys : Finset K)
    (db : DbIndex K V) (h : Overlaid ix group db) :
    LoopInv ix db.source db.graph group keys db.facts [] := by
  refine ⟨by simp, ?_⟩
  intro key hkey _ hout
  have hprim := hkey.1
  obtain ⟨history, hhistory, hvalues⟩ := h.values
  rw [hvalues key hprim]
  apply overlay_of_not_mem
  intro w hw heq
  obtain ⟨⟨id, key', f⟩, hmem, rfl⟩ := List.mem_map.1 hw
  have hkey : key' = key := heq
  subst hkey
  obtain ⟨hprod, hkind⟩ := hhistory _ hmem
  cases h.producers key' hprim id hprod with
  | inl hid => exact hout id hid ((mem_producers db.graph key' id).1 hprod)
  | inr hsource => exact hkind hsource

/-- Every evaluation of every group that touches no keys but `keys` ends, on the index and in
    a task, and leaves nothing stale: for any recipe, facts and records to start from. -/
def GroupRunSound (ix : FactIndex K V) (keys : Finset K) : Prop :=
  ∀ (recipe : Recipe K V) (db : DbIndex K V) (group : List DerivationId),
    Within recipe db.graph group keys → Overlaid ix group db →
    (∃ n, ∀ fuel ≥ n, ∃ r, evaluateGroup ix recipe db group fuel = some r
      ∧ NothingStale ix db.source recipe group db.graph.outputsOf r)
    ∧ ∃ n, ∀ fuel ≥ n, ∃ r, evaluateOnWorker ix recipe db group fuel = some r
      ∧ NothingStale ix db.source recipe group db.graph.outputsOf r

theorem groupRunSound_of_notesOwn (ix : FactIndex K V) (keys : Finset K)
    (hnotes : ix.NotesOwn keys) : GroupRunSound ix keys := by
  intro recipe db group hwithin hdb
  have hinv := hdb.loopInv ix group keys db
  have hcard : (keys.filter (· ∉ ([] : List K))).card ≤ keys.card := Finset.card_filter_le _ _
  constructor
  · refine ⟨keys.card + 1, fun fuel hfuel => ?_⟩
    exact turns_sound ix db.source recipe db.graph group keys hwithin
      (groupPass ix db.source recipe db.graph group)
      (groupPass_ok ix db.source recipe db.graph group keys hnotes hwithin)
      (evaluateGroupLoop ix db.source recipe db.graph group) (fun _ _ => ⟨_, _, rfl⟩) fuel
      ⟨db.facts, [], [], []⟩ hinv (Nat.lt_of_le_of_lt hcard hfuel)
  · refine ⟨keys.card + 1, fun fuel hfuel => ?_⟩
    exact turns_sound ix db.source recipe db.graph group keys hwithin
      (workerPass ix db.source recipe db.graph group)
      (workerPass_ok ix db.source recipe db.graph group keys hnotes hwithin)
      (evaluateOnWorkerLoop ix db.source recipe db.graph group) (fun _ _ => ⟨_, _, rfl⟩) fuel
      ⟨db.facts, [], [], []⟩ hinv (Nat.lt_of_le_of_lt hcard hfuel)

end

section

variable {K V : Type} [DecidableEq K]

/-! ## §6. Two members and a noted key

  Resetting the local fallbacks of a file restores, and notes as written, the type of every
  owner they covered (`retract_fallbacks`): another primary key, which that reset leaves as
  the statements wrote it.  A group run counts it as reset all the same.  The run then does
  not watch who writes it, and when a later member's own reset of it comes, what an earlier
  member wrote in the run is lost.
-/

/-- Two derivations no rank separates, in canonical order. -/
def firstMember : DerivationId := .ofFile .SetmetatableFactory 0

def secondMember : DerivationId := .ofFile .SetmetatableFactory 1

/-- Both members wrote `key`, the second wrote `noted` besides. -/
def notedGraph (key noted : K) : ReaderGraph K :=
  { records := ⟨[⟨firstMember, [key]⟩, ⟨secondMember, [key, noted]⟩],
    (by decide : [firstMember, secondMember].Nodup)⟩ }

/-- Now both write `noted`. -/
def notedRecipe (noted : K) : Recipe K V := fun _ => .write noted id .done

omit [DecidableEq K] in
@[simp] theorem notedGraph_first (key noted : K) :
    (notedGraph key noted).outputsOf firstMember = [key] := rfl

omit [DecidableEq K] in
@[simp] theorem notedGraph_second (key noted : K) :
    (notedGraph key noted).outputsOf secondMember = [key, noted] := rfl

theorem notedGraph_resets (ix : FactIndex K V) (key noted : K) (hkey : ix.isPrimary key = true)
    (hnoted : ix.isPrimary noted = true) (hne : noted ≠ key) :
    groupResets ix (notedGraph key noted) [] [] [firstMember, secondMember]
      = ⟨[key], [[], [noted]], [[], []]⟩ := by
  have hproducers : (notedGraph key noted).producers noted = [secondMember] := by
    simp [ReaderGraph.producers, notedGraph, hne]
  simp [groupResets, placeMembers, primaryOutputs, hkey, hnoted, place, hne, hproducers]

/-- The run goes through, and the first member ran when only `resetKeys` were reset. -/
theorem notedRun (ix : FactIndex K V) (source facts : K → V) (noted : K) (resetKeys : List K)
    (reset : HashMap K Nat) (hreset : reset.lookup noted ≠ none) (r : RunState K V × List K)
    (hr : r = runGroup ix source (notedRecipe noted) 0
      [(firstMember, [], []), (secondMember, [noted], [])]
      (startState ix source facts resetKeys reset)) :
    r.2 = [] ∧ ∃ log log' later, log.outputs = [noted] ∧ log'.outputs = [noted] ∧
      r.1.evaluations = [⟨firstMember, log, resetKeys⟩, ⟨secondMember, log', later⟩] := by
  subst hr
  obtain ⟨position, hposition⟩ := Option.ne_none_iff_exists'.1 hreset
  simp [runGroup, startState, RunState.resetMember, RunState.evaluate, notedRecipe, Program.run,
    Log.outputs, hposition, FactIndex.resetAll]

/-- A turn of several members starts its run with the front keys reset, and counts what
    their resets noted as reset with them. -/
theorem groupPass_start (ix : FactIndex K V) (source : K → V) (recipe : Recipe K V)
    (graph : ReaderGraph K) (group : List DerivationId) (hlen : group.length > 1)
    (st : LoopState K V) :
    ∃ resetKeys reset,
      FrontKeys ix graph group st.discarded resetKeys
        (groupResets ix graph st.shared st.discarded group)
      ∧ (∀ noted ∈ (ix.resetAll source st.facts resetKeys).2, reset.lookup noted ≠ none)
      ∧ ((groupPass ix source recipe graph group st).1,
          (groupPass ix source recipe graph group st).2.1) = runGroup ix source recipe 0
          (steps group (groupResets ix graph st.shared st.discarded group))
          (startState ix source st.facts resetKeys reset) := by
  refine ⟨_, _, frontKeys_filter ix graph group st.discarded _, ?_, rfl⟩
  intro noted hnoted
  rw [resetAtFront_lookup, if_pos hlen]
  exact List.mem_union_iff.2 (.inr hnoted)

/-- An evaluation whose first turn goes through is that turn's run. -/
theorem evaluateGroup_through (ix : FactIndex K V) (recipe : Recipe K V) (db : DbIndex K V)
    (group : List DerivationId) (fuel : Nat) (r : GroupRun K V)
    (hr : evaluateGroup ix recipe db group (fuel + 1) = some r) (pass : RunState K V × List K)
    (hpass : pass = ((groupPass ix db.source recipe db.graph group ⟨db.facts, [], [], []⟩).1,
      (groupPass ix db.source recipe db.graph group ⟨db.facts, [], [], []⟩).2.1))
    (hthrough : pass.2 = []) :
    r.evaluations = pass.1.evaluations ∧ r.db.facts = pass.1.facts := by
  subst hpass
  simp only [evaluateGroup, evaluateGroupLoop] at hr
  rw [if_pos hthrough, Option.some.injEq] at hr
  rw [← hr]
  exact ⟨rfl, rfl⟩

/-! ## §7. The only resets a group run can take -/

/-- Where the reset of a primary key notes another, a group that touches both is left stale. -/
theorem notesOwn_of_groupRunSound (ix : FactIndex K V) (keys : Finset K)
    (h : GroupRunSound ix keys) : ix.NotesOwn keys := by
  rintro facts key ⟨hkey, hin⟩ noted hmem ⟨hnoted, hin'⟩
  by_contra hne
  have hproducers : ∀ x, ∀ id ∈ (notedGraph key noted).producers x,
      id ∈ [firstMember, secondMember] := by
    intro x id hid
    simp only [ReaderGraph.producers, notedGraph, List.mem_map, List.mem_filter] at hid
    grind
  -- the facts are the source layer itself: nothing is stale before the evaluation
  have hover : Overlaid ix [firstMember, secondMember] ⟨facts, facts, notedGraph key noted⟩ :=
    ⟨fun x _ id hid => .inl (hproducers x id hid), [], by simp, fun x _ => rfl⟩
  have hwithin : Within (notedRecipe (V := V) noted) (notedGraph key noted)
      [firstMember, secondMember] keys :=
    ⟨by simp [hin, hin'], by simp [notedRecipe, Program.WritesIn, hin']⟩
  obtain ⟨⟨n, hn⟩, _⟩ := h (notedRecipe noted) ⟨facts, facts, notedGraph key noted⟩
    [firstMember, secondMember] hwithin hover
  obtain ⟨r, hr, hstale⟩ := hn (n + 1) (by omega)
  obtain ⟨resetKeys, reset, hfront, hcounted, hpass⟩ := groupPass_start ix facts
    (notedRecipe noted) (notedGraph key noted) [firstMember, secondMember] (by simp)
    ⟨facts, [], [], []⟩
  simp only [notedGraph_resets ix key noted hkey hnoted hne] at hfront hpass
  -- only `key` is reset before the first member, as the facts stand
  have honly : ∀ x ∈ resetKeys, x = key := by
    intro x hx
    obtain ⟨hout, _, hdef⟩ := (hfront x).1 hx
    have hcases : x = key ∨ x = noted := by
      simpa using hout
    have hnot : x ≠ noted := by
      intro heq
      exact hdef (by simp [GroupResets.deferred, heq])
    tauto
  have hnotedmem : noted ∈ (ix.resetAll facts facts resetKeys).2 := by
    have hmemkey : key ∈ resetKeys := (hfront key).2
      ⟨.inr ⟨firstMember, by simp, by simp⟩, hkey,
        by simp [GroupResets.deferred, Ne.symm hne]⟩
    cases resetKeys with
    | nil => simp at hmemkey
    | cons first rest =>
      have heq := honly first (by simp)
      subst heq
      exact List.mem_append.2 (.inl hmem)
  obtain ⟨hthrough, log, log', later, hlog, hlog', hevals⟩ := notedRun ix facts facts noted
    resetKeys reset (hcounted noted hnotedmem) _ hpass
  -- both members wrote `noted`, and the first ran before it was reset
  have hrun := (evaluateGroup_through ix (notedRecipe noted) _ _ n r hr _ rfl hthrough).1
  rw [hevals] at hrun
  have hshared := hstale.shared
  rw [hrun] at hshared
  have hreset := (List.pairwise_cons.1 hshared).1 ⟨secondMember, log', later⟩ (by simp) noted
    hnoted (by simp [Evaluation.outputs, hlog]) (by simp [Evaluation.outputs, hlog'])
  exact hne (honly noted hreset)

end

/-! ## §8. The local fallbacks of a file -/

/-- The keys of one owner's type: what the file's fallbacks published, the type they cover,
    and a type all three members write. -/
inductive FallbackKey where
  | typeFallbacks
  | coveredType
  | sharedType
  deriving DecidableEq, Repr

/-- Resetting the fallbacks restores and notes the type they cover: the type the statements
    left of it, which they hold. -/
def fallbackIndex : FactIndex FallbackKey Nat where
  isStored := fun _ => true
  view := fun key facts => facts key
  resetFact := fun source facts key =>
    match key with
    | .typeFallbacks =>
      Function.update (Function.update facts .coveredType (facts .typeFallbacks)) .typeFallbacks
        (source .typeFallbacks)
    | key => Function.update facts key (source key)
  resetNotes := fun key _ =>
    match key with
    | .typeFallbacks => [.typeFallbacks, .coveredType]
    | .coveredType => [.coveredType]
    | .sharedType => [.sharedType]
  resetFact_self := by
    intro source facts key _
    cases key <;> simp
  resetFact_other := by
    intro source facts key other _ hne hnot
    cases key <;> simp_all
  iter := id
  mem_iter := fun _ _ => Iff.rfl

def fallbacksOf0 : DerivationId := .ofFile .LocalFallbacks 0

def factoryOf1 : DerivationId := .ofFile .SetmetatableFactory 1

def factoryOf2 : DerivationId := .ofFile .SetmetatableFactory 2

def fallbackGroup : List DerivationId := [fallbacksOf0, factoryOf1, factoryOf2]

/-- All three wrote the shared type; the last one typed the covered owner as `7`, which the
    fallbacks published again. -/
def fallbackDb : DbIndex FallbackKey Nat where
  facts := fun key =>
    match key with
    | .typeFallbacks => 7
    | .coveredType => 7
    | .sharedType => 3
  source := fun _ => 0
  graph := { records := ⟨[⟨fallbacksOf0, [.typeFallbacks, .sharedType]⟩,
    ⟨factoryOf1, [.sharedType]⟩, ⟨factoryOf2, [.sharedType, .coveredType]⟩],
    (by decide : [fallbacksOf0, factoryOf1, factoryOf2].Nodup)⟩ }

/-- Now the second member types the covered owner, as `5`, and the last one does not. -/
def fallbackRecipe : Recipe FallbackKey Nat := fun id =>
  if id = factoryOf1 then .write .coveredType (fun _ => 5) (.write .sharedType (· + 1) .done)
  else .write .sharedType (· + 1) .done

/-- What the evaluation of the three members leaves of the covered type, and what their
    writes make of its source-layer value. -/
def coveredAfter (run : Option (GroupRun FallbackKey Nat)) : Option (Nat × Nat) :=
  run.map fun r =>
    (r.db.facts .coveredType, overlay (writesOf r.evaluations) .coveredType 0)

end GluaLs.Engine
