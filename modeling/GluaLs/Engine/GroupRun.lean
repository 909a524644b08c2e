/-
  GluaLs.Engine.GroupRun — what one run of a group's members does.

  `StepsOk` says what `groupResets` promises about the keys it defers: each is primary,
  deferred to one member only, and neither reset in front nor written by a discarded run.
  `RunInv` is the invariant of the run of the members: a key no member still to run resets
  holds its source-layer value overlaid by the writes of the run so far.  Main result:

    • `runGroup_spec` — **a run that goes through** resets every shared key before its first
      writer; one that is stopped leaves every key it does not defer to a later member in
      that state too, and names only keys it wrote.
-/
import GluaLs.Engine.Group

namespace GluaLs.Engine

open GluaLs.Lib FactIndex

section

variable {K V : Type} [DecidableEq K]

/-! ## §1. Resets -/

/-- A primary key among those a group can touch. -/
def FactIndex.Watched (ix : FactIndex K V) (keys : Finset K) (key : K) : Prop :=
  ix.isPrimary key = true ∧ key ∈ keys

/-- A reset of a primary key in `keys` notes no other one in `keys` as written. -/
def FactIndex.NotesOwn (ix : FactIndex K V) (keys : Finset K) : Prop :=
  ∀ (facts : K → V) (key : K), ix.Watched keys key →
    ∀ noted ∈ ix.resetNotes key facts, ix.Watched keys noted → noted = key

section

variable (ix : FactIndex K V) (keys : Finset K) (hnotes : ix.NotesOwn keys) (source : K → V)
  (resets : List K) (hresets : ∀ key ∈ resets, ix.Watched keys key)
include hnotes hresets

theorem resetAll_facts (facts : K → V) (key : K) (hkey : ix.Watched keys key) :
    (ix.resetAll source facts resets).1 key = if key ∈ resets then source key else facts key := by
  induction resets generalizing facts with
  | nil => simp [resetAll]
  | cons first rest ih =>
    show (ix.resetAll source (ix.resetFact source facts first) rest).1 key = _
    rw [ih fun key hkey => hresets key (by simp [hkey])]
    by_cases hrest : key ∈ rest
    · simp [hrest]
    · by_cases hfirst : key = first
      · subst hfirst
        simp [ix.resetFact_self source facts key hkey.1]
      · have hnot : key ∉ ix.resetNotes first facts := fun hnoted =>
          hfirst (hnotes facts first (hresets first (by simp)) key hnoted hkey)
        simp [hrest, hfirst, ix.resetFact_other source facts first key hkey.1 hfirst hnot]

omit [DecidableEq K] in
theorem resetAll_noted (facts : K → V) :
    ∀ noted ∈ (ix.resetAll source facts resets).2, ix.Watched keys noted → noted ∈ resets := by
  induction resets generalizing facts with
  | nil => intro noted hnoted; simp [resetAll] at hnoted
  | cons first rest ih =>
    intro noted hnoted hwatched
    have hcases : noted ∈ ix.resetNotes first facts
        ∨ noted ∈ (ix.resetAll source (ix.resetFact source facts first) rest).2 := by
      simpa [resetAll] using hnoted
    cases hcases with
    | inl hown =>
      have heq := hnotes facts first (hresets first (by simp)) noted hown hwatched
      simp [heq]
    | inr hlater =>
      have hmem := ih (fun key hkey => hresets key (by simp [hkey]))
        (ix.resetFact source facts first) noted hlater hwatched
      simp [hmem]

end

/-! ## §2. Which keys are deferred -/

/-- The keys deferred to a member. -/
def deferredTo (s : DerivationId × List K × List K) : List K := s.2.1 ++ s.2.2

/-- What placing promises of the keys deferred to each member. -/
structure StepsOk (ix : FactIndex K V) (steps : List (DerivationId × List K × List K))
    (excluded : K → Prop) : Prop where
  primary : ∀ s ∈ steps, ∀ key ∈ deferredTo s, ix.isPrimary key = true
  apart : ∀ s ∈ steps, ∀ key ∈ deferredTo s, ¬ excluded key
  once : steps.Pairwise fun s s' => ∀ key ∈ deferredTo s, key ∉ deferredTo s'

omit [DecidableEq K] in
theorem StepsOk.tail (ix : FactIndex K V) (s : DerivationId × List K × List K)
    (steps : List (DerivationId × List K × List K)) (excluded : K → Prop)
    (h : StepsOk ix (s :: steps) excluded) : StepsOk ix steps excluded where
  primary := fun s' hs' => h.primary s' (by simp [hs'])
  apart := fun s' hs' => h.apart s' (by simp [hs'])
  once := (List.pairwise_cons.1 h.once).2

section

variable (ix : FactIndex K V) (graph : ReaderGraph K) (shared discarded : List K)

/-- What placing `keys` of a member did, when `before` was placed and `front₀` in front. -/
structure Placed (before front₀ keys : List K) (acc : Placing K) : Prop where
  placed : ∀ key, key ∈ acc.placed ↔ key ∈ before ∨ key ∈ keys
  front : ∀ key ∈ acc.front, key ∈ front₀ ∨ (key ∈ keys ∧ key ∉ before)
  deferred : ∀ key ∈ acc.own ++ acc.joint,
    key ∈ keys ∧ key ∉ before ∧ key ∉ discarded ∧ key ∉ acc.front

/-- Placing one more key keeps the account. -/
theorem Placed.place (position : Nat) (member : DerivationId) (before front₀ keys : List K)
    (hfront : ∀ key ∈ front₀, key ∈ before) (acc : Placing K) (key : K)
    (h : Placed discarded before front₀ keys acc) :
    Placed discarded before front₀ (keys ++ [key])
      (place graph shared discarded position member acc key) := by
  obtain ⟨hplaced, hf, hdef⟩ := h
  unfold Engine.place
  by_cases hold : key ∈ acc.placed
  · -- an earlier member, or this one, placed it already
    rw [if_pos hold]
    have hkey : key ∈ before ∨ key ∈ keys := (hplaced key).1 hold
    constructor <;> grind
  · rw [if_neg hold]
    have hkey : key ∉ before ∧ key ∉ keys := by
      rw [hplaced key] at hold
      exact not_or.1 hold
    split_ifs
    · constructor <;> grind
    · constructor <;> grind
    · constructor <;> grind

theorem placed_foldl (position : Nat) (member : DerivationId) (before front₀ keys : List K)
    (hfront : ∀ key ∈ front₀, key ∈ before) :
    Placed discarded before front₀ keys
      (keys.foldl (place graph shared discarded position member) ⟨before, front₀, [], []⟩) := by
  induction keys using List.reverseRecOn with
  | nil =>
    constructor <;> simp
  | append_singleton keys key ih =>
    rw [List.foldl_append]
    exact ih.place graph shared discarded position member before front₀ keys hfront _ key

/-- What placing every member's outputs did, when `before` was placed and `front₀` in
    front: the keys deferred to a member were placed by no member before it. -/
structure PlacedAll (members : List DerivationId) (before front₀ : List K)
    (r : GroupResets K) : Prop where
  own_length : r.own.length = members.length
  joint_length : r.joint.length = members.length
  deferred : StepsOk ix (steps members r)
    fun key => key ∈ before ∨ key ∈ discarded ∨ key ∈ r.front
  output : ∀ s ∈ steps members r, ∀ key ∈ deferredTo s,
    ∃ m ∈ members, key ∈ primaryOutputs ix graph m
  front : ∀ key ∈ r.front, key ∈ front₀ ∨
    (key ∉ before ∧ ∃ m ∈ members, key ∈ primaryOutputs ix graph m)

theorem placeMembers_spec (members : List DerivationId) :
    ∀ (position : Nat) (before front₀ : List K), (∀ key ∈ front₀, key ∈ before) →
      PlacedAll ix graph discarded members before front₀
        (placeMembers ix graph shared discarded position members before front₀) := by
  induction members with
  | nil =>
    intro position before front₀ _
    refine ⟨rfl, rfl, ⟨?_, ?_, ?_⟩, ?_, ?_⟩ <;> simp [steps, placeMembers]
  | cons member rest ih =>
    intro position before front₀ hfront
    have hacc := placed_foldl graph shared discarded position member before front₀
      (primaryOutputs ix graph member) hfront
    revert hacc
    simp only [placeMembers]
    generalize (primaryOutputs ix graph member).foldl
      (place graph shared discarded position member) ⟨before, front₀, [], []⟩ = acc
    intro hacc
    have hfront' : ∀ key ∈ acc.front, key ∈ acc.placed := by
      intro key hkey
      rw [hacc.placed key]
      have := hacc.front key hkey
      grind
    have hrest := ih (position + 1) acc.placed acc.front hfront'
    revert hrest
    generalize placeMembers ix graph shared discarded (position + 1) rest acc.placed
      acc.front = r
    intro hrest
    have hsteps : steps (member :: rest) ⟨r.front, acc.own :: r.own, acc.joint :: r.joint⟩
        = (member, acc.own, acc.joint) :: steps rest r := rfl
    -- a key of this member is placed, a key of a later one is not
    have hapart : ∀ key ∈ acc.own ++ acc.joint, key ∈ acc.placed ∧ key ∉ r.front := by
      intro key hkey
      have hd := hacc.deferred key hkey
      have hp : key ∈ acc.placed := (hacc.placed key).2 (.inr hd.1)
      refine ⟨hp, fun hr => ?_⟩
      have := hrest.front key hr
      grind
    refine ⟨by simp [hrest.own_length], by simp [hrest.joint_length], ?_, ?_, ?_⟩
    · rw [hsteps]
      refine ⟨?_, ?_, ?_⟩
      · intro s hs key hkey
        rw [List.mem_cons] at hs
        cases hs with
        | inl hs =>
          subst hs
          have hd := (hacc.deferred key hkey).1
          simp only [primaryOutputs, List.mem_filter] at hd
          exact hd.2
        | inr hs => exact hrest.deferred.primary s hs key hkey
      · intro s hs key hkey
        rw [List.mem_cons] at hs
        cases hs with
        | inl hs =>
          subst hs
          have hd := hacc.deferred key hkey
          have hr := (hapart key hkey).2
          grind
        | inr hs =>
          have hd := hrest.deferred.apart s hs key hkey
          have hp := hacc.placed key
          grind
      · refine List.pairwise_cons.2 ⟨?_, hrest.deferred.once⟩
        intro s hs key hkey hlater
        have hd := hrest.deferred.apart s hs key hlater
        exact hd (.inl (hapart key hkey).1)
    · rw [hsteps]
      intro s hs key hkey
      rw [List.mem_cons] at hs
      cases hs with
      | inl hs =>
        subst hs
        exact ⟨member, by simp, (hacc.deferred key hkey).1⟩
      | inr hs =>
        obtain ⟨m, hm, hout⟩ := hrest.output s hs key hkey
        exact ⟨m, by simp [hm], hout⟩
    · intro key hkey
      have hr := hrest.front key hkey
      have hf := hacc.front key
      have hp := hacc.placed key
      grind

end

/-! ## §3. Writers and resets of a run -/

theorem orInsert_lookup (m : HashMap K Nat) (position : Nat) (key x : K) :
    (orInsert m position key).lookup x ≠ none ↔ m.lookup x ≠ none ∨ x = key := by
  unfold orInsert
  split_ifs with h
  · constructor
    · exact .inl
    · intro hx
      cases hx with
      | inl hx => exact hx
      | inr hx => rw [hx]; exact Option.isSome_iff_ne_none.1 h
  · rw [lookup_insert_ite]
    split_ifs with hx <;> simp [hx]

theorem orInsert_foldl_lookup (keys : List K) (position : Nat) (m : HashMap K Nat) (x : K) :
    (keys.foldl (fun m key => orInsert m position key) m).lookup x ≠ none
      ↔ m.lookup x ≠ none ∨ x ∈ keys := by
  induction keys generalizing m with
  | nil => simp
  | cons key keys ih =>
    rw [List.foldl_cons, ih, orInsert_lookup, List.mem_cons]
    tauto

/-- A key nobody wrote yet. -/
theorem noteWriter_new (position : Nat) (acc : HashMap K Nat × List K) (key : K)
    (h : acc.1.lookup key = none) :
    noteWriter position acc key = (acc.1.insert key position, acc.2) := by
  simp [noteWriter, h]

/-- A key the member at `position` wrote before. -/
theorem noteWriter_again (position : Nat) (acc : HashMap K Nat × List K) (key : K)
    (h : acc.1.lookup key = some position) : noteWriter position acc key = acc := by
  simp [noteWriter, h]

/-- A key another member wrote first. -/
theorem noteWriter_other (position first : Nat) (acc : HashMap K Nat × List K) (key : K)
    (h : acc.1.lookup key = some first) (hne : first ≠ position) :
    noteWriter position acc key = (acc.1, key :: acc.2) := by
  simp [noteWriter, h, hne]

/-- What noting the primary keys a member wrote does to the writers. -/
structure Noted (position : Nat) (m : HashMap K Nat) (keys : List K)
    (acc : HashMap K Nat × List K) : Prop where
  writers : ∀ x, acc.1.lookup x = if m.lookup x = none ∧ x ∈ keys then some position
    else m.lookup x
  found : ∀ x, x ∈ acc.2 ↔ x ∈ keys ∧ m.lookup x ≠ none

theorem noteWriter_foldl (position : Nat) (m : HashMap K Nat)
    (hm : ∀ x q, m.lookup x = some q → q < position) (keys : List K) :
    Noted position m keys (keys.foldl (noteWriter position) (m, [])) := by
  induction keys using List.reverseRecOn with
  | nil => constructor <;> simp
  | append_singleton keys key ih =>
    rw [List.foldl_append]
    revert ih
    generalize keys.foldl (noteWriter position) (m, []) = acc
    intro ih
    show Noted position m (keys ++ [key]) (noteWriter position acc key)
    have hw := ih.writers key
    by_cases hkey : m.lookup key = none
    · by_cases hbefore : key ∈ keys
      · have hsome : acc.1.lookup key = some position := by simp [hw, hkey, hbefore]
        rw [noteWriter_again position acc key hsome]
        constructor
        · intro x
          rw [ih.writers x]
          grind
        · intro x
          rw [ih.found x]
          grind
      · have hnone : acc.1.lookup key = none := by simp [hw, hkey, hbefore]
        rw [noteWriter_new position acc key hnone]
        constructor
        · intro x
          rw [lookup_insert_ite, ih.writers x]
          grind
        · intro x
          rw [ih.found x]
          grind
    · obtain ⟨q, hq⟩ := Option.ne_none_iff_exists'.1 hkey
      have hsome : acc.1.lookup key = some q := by simp [hw, hq]
      rw [noteWriter_other position q acc key hsome (Nat.ne_of_lt (hm key q hq))]
      constructor
      · intro x
        rw [ih.writers x]
        grind
      · intro x
        rw [List.mem_cons, ih.found x]
        grind

/-! ## §4. The invariant of a run -/

/-- The writes of the evaluations so far, in order. -/
def writesOf (evaluations : List (Evaluation K V)) : List (K × (V → V)) :=
  evaluations.flatMap fun e => e.log.writes

/-- Every primary key two of the evaluations wrote was reset before the first of them. -/
def SharedReset (ix : FactIndex K V) (evaluations : List (Evaluation K V)) : Prop :=
  evaluations.Pairwise fun e e' => ∀ key, ix.isPrimary key = true →
    key ∈ e.outputs → key ∈ e'.outputs → key ∈ e.resetBefore

section

variable (ix : FactIndex K V) (keys : Finset K) (source : K → V)

/-- Every primary key in `keys` no later step resets holds its source-layer value overlaid by
    the writes of the run so far. -/
def Settled (rest : List (DerivationId × List K × List K)) (st : RunState K V) : Prop :=
  ∀ key, ix.Watched keys key → (∀ s ∈ rest, key ∉ deferredTo s) →
    st.facts key = overlay (writesOf st.evaluations) key (source key)

/-- The invariant of a run before the member at `position`, with the steps `rest` to go. -/
structure RunInv (position : Nat) (rest : List (DerivationId × List K × List K))
    (st : RunState K V) : Prop where
  settled : Settled ix keys source rest st
  pending : ∀ s ∈ rest, ∀ key ∈ deferredTo s, key ∈ keys ∧ st.reset.lookup key = none
  reset_done : ∀ key, ix.Watched keys key → st.reset.lookup key ≠ none →
    key ∈ st.resetKeys
  writers_lt : ∀ key q, st.writers.lookup key = some q → q < position
  writers : ∀ key, ix.Watched keys key → st.reset.lookup key = none →
    (st.writers.lookup key ≠ none ↔ ∃ e ∈ st.evaluations, key ∈ e.outputs)
  reset_first : ∀ key, ix.Watched keys key → st.reset.lookup key ≠ none →
    ∀ e ∈ st.evaluations, key ∈ e.outputs → key ∈ e.resetBefore
  shared : SharedReset ix st.evaluations

variable (recipe : Recipe K V)

omit [DecidableEq K] in
theorem writesOf_append (evaluations : List (Evaluation K V)) (e : Evaluation K V) :
    writesOf (evaluations ++ [e]) = writesOf evaluations ++ e.log.writes := by
  simp [writesOf]

/-- A key none of the evaluations wrote keeps its value under their writes. -/
theorem overlay_writesOf (evaluations : List (Evaluation K V)) (key : K) (v : V)
    (h : ∀ e ∈ evaluations, key ∉ e.outputs) : overlay (writesOf evaluations) key v = v := by
  apply overlay_of_not_mem
  intro w hw heq
  obtain ⟨e, he, hwe⟩ := List.mem_flatMap.1 hw
  exact h e he (List.mem_map.2 ⟨w, hwe, heq⟩)

/-! ## §5. One step of a run -/

/-- A key nobody reset or noted as written was written by no evaluation. -/
theorem RunInv.not_written (position : Nat) (rest : List (DerivationId × List K × List K))
    (st : RunState K V) (h : RunInv ix keys source position rest st) (key : K)
    (hkey : ix.Watched keys key) (hreset : st.reset.lookup key = none)
    (hwriters : st.writers.lookup key = none) : ∀ e ∈ st.evaluations, key ∉ e.outputs := by
  intro e he hout
  exact (h.writers key hkey hreset).2 ⟨e, he, hout⟩ hwriters

/-- Resetting the keys deferred to the next member, which nobody wrote, keeps the
    invariant. -/
theorem RunInv.resetMember (hnotes : ix.NotesOwn keys) (excluded : K → Prop) (position : Nat)
    (member : DerivationId) (own joint : List K)
    (rest : List (DerivationId × List K × List K)) (st : RunState K V)
    (hsteps : StepsOk ix ((member, own, joint) :: rest) excluded)
    (h : RunInv ix keys source position ((member, own, joint) :: rest) st)
    (htaken : ∀ key ∈ own ++ joint, st.writers.lookup key = none) :
    RunInv ix keys source position rest (st.resetMember ix source position own joint) := by
  have hhead : ∀ key ∈ own ++ joint, ix.Watched keys key ∧ st.reset.lookup key = none := by
    intro key hkey
    obtain ⟨hin, hreset⟩ := h.pending (member, own, joint) (by simp) key hkey
    exact ⟨⟨hsteps.primary (member, own, joint) (by simp) key hkey, hin⟩, hreset⟩
  have hunwritten : ∀ key ∈ own ++ joint, ∀ e ∈ st.evaluations, key ∉ e.outputs :=
    fun key hkey => h.not_written ix keys source position _ st key (hhead key hkey).1
      (hhead key hkey).2 (htaken key hkey)
  have hown : ∀ key ∈ own, ix.Watched keys key := fun key hkey => (hhead key (by simp [hkey])).1
  have hjoint : ∀ key ∈ joint, ix.Watched keys key :=
    fun key hkey => (hhead key (by simp [hkey])).1
  -- of the primary keys, the joint resets note the joint keys only
  have hnoted : ∀ key, ix.Watched keys key →
      ((st.resetMember ix source position own joint).reset.lookup key ≠ none
        ↔ st.reset.lookup key ≠ none ∨ key ∈ joint) := by
    intro key hkey
    have hnew := resetAll_noted ix keys hnotes source joint hjoint
      (ix.resetAll source st.facts own).1 key
    show (List.foldl _ st.reset _).lookup key ≠ none ↔ _
    rw [orInsert_foldl_lookup, List.mem_append]
    tauto
  constructor
  · intro key hprim hlater
    show (ix.resetAll source (ix.resetAll source st.facts own).1 joint).1 key = _
    rw [resetAll_facts ix keys hnotes source joint hjoint _ key hprim,
      resetAll_facts ix keys hnotes source own hown _ key hprim]
    by_cases hkey : key ∈ own ++ joint
    · have hclear := overlay_writesOf st.evaluations key (source key) (hunwritten key hkey)
      show _ = overlay (writesOf st.evaluations) key (source key)
      rw [hclear]
      rw [List.mem_append] at hkey
      grind
    · have hold := h.settled key hprim (by
        intro s hs
        rw [List.mem_cons] at hs
        cases hs with
        | inl hs => rw [hs]; exact hkey
        | inr hs => exact hlater s hs)
      rw [List.mem_append, not_or] at hkey
      rw [if_neg hkey.2, if_neg hkey.1]
      exact hold
  · intro s hs key hkey
    have hprim := hsteps.primary s (by simp [hs]) key hkey
    obtain ⟨hin, hold⟩ := h.pending s (by simp [hs]) key hkey
    have hapart : key ∉ joint := fun hj =>
      (List.pairwise_cons.1 hsteps.once).1 s hs key (by simp [deferredTo, hj]) hkey
    have := hnoted key ⟨hprim, hin⟩
    tauto
  · intro key hprim hreset
    show key ∈ st.resetKeys ++ own ++ joint
    have hcases := (hnoted key hprim).1 hreset
    cases hcases with
    | inl hold => simp [h.reset_done key hprim hold]
    | inr hj => simp [hj]
  · exact h.writers_lt
  · intro key hprim hreset
    have := hnoted key hprim
    exact h.writers key hprim (by tauto)
  · intro key hprim hreset e he hout
    have hcases := (hnoted key hprim).1 hreset
    cases hcases with
    | inl hold => exact h.reset_first key hprim hold e he hout
    | inr hj => exact absurd hout (hunwritten key (by simp [hj]) e he)
  · exact h.shared

/-- Evaluating a member leaves every settled key settled, and stops the run only for keys it
    wrote that no reset covers. -/
theorem RunInv.evaluate (position : Nat) (member : DerivationId)
    (rest : List (DerivationId × List K × List K)) (st : RunState K V)
    (h : RunInv ix keys source position rest st) (hwrites : (recipe member).WritesIn keys)
    (r : RunState K V × List K) (hr : r = st.evaluate ix recipe position member) :
    Settled ix keys source rest r.1
      ∧ (∀ key ∈ r.2, ix.isPrimary key = true ∧ st.reset.lookup key = none
          ∧ ∃ e ∈ r.1.evaluations, key ∈ e.outputs)
      ∧ (r.2 = [] → RunInv ix keys source (position + 1) rest r.1) := by
  subst hr
  have hrun := Program.run_store ix.toLayout (recipe member) st.facts
  have hin := Program.touched_subset ix.toLayout keys (recipe member) st.facts hwrites
  revert hrun hin
  simp only [RunState.evaluate]
  generalize (recipe member).run ix.toLayout st.facts = run
  intro hrun hin
  have hnoted := noteWriter_foldl position st.writers h.writers_lt
    (run.2.outputs.filter fun key => ix.isPrimary key && !(st.reset.lookup key).isSome)
  revert hnoted
  have hwritten : ∀ key, key ∈ (run.2.outputs.filter fun key =>
      ix.isPrimary key && !(st.reset.lookup key).isSome) ↔
      key ∈ run.2.outputs ∧ ix.isPrimary key = true ∧ st.reset.lookup key = none := by
    intro key
    simp [List.mem_filter]
  revert hwritten
  generalize (run.2.outputs.filter fun key =>
    ix.isPrimary key && !(st.reset.lookup key).isSome) = written
  intro hwritten
  generalize written.foldl (noteWriter position) (st.writers, []) = noted
  intro hnoted
  have hsettled : Settled ix keys source rest { st with
      facts := run.1, writers := noted.1,
      evaluations := st.evaluations ++ [⟨member, run.2, st.resetKeys⟩] } := by
    intro key hprim hlater
    show run.1 key = overlay (writesOf (st.evaluations ++ [_])) key (source key)
    rw [hrun key hprim.1, h.settled key hprim hlater, writesOf_append, overlay_append]
  refine ⟨hsettled, ?_, ?_⟩
  · intro key hkey
    have hw := (hwritten key).1 ((hnoted.found key).1 hkey).1
    exact ⟨hw.2.1, hw.2.2, ⟨member, run.2, st.resetKeys⟩, by simp, hw.1⟩
  · intro hfound
    -- nothing stopped the run: whoever wrote a key no reset covers wrote it first
    have hfirst : ∀ key, key ∈ run.2.outputs → ix.isPrimary key = true →
        st.reset.lookup key = none → ∀ e ∈ st.evaluations, key ∉ e.outputs := by
      intro key hout hprim hreset
      apply h.not_written ix keys source position rest st key ⟨hprim, hin key (by simp [hout])⟩
        hreset
      have hno : key ∉ noted.2 := by
        rw [hfound]
        simp
      rw [hnoted.found key, hwritten key] at hno
      tauto
    constructor
    · exact hsettled
    · exact h.pending
    · exact h.reset_done
    · intro key q hq
      have hq' : noted.1.lookup key = some q := hq
      rw [hnoted.writers key] at hq'
      have := h.writers_lt key q
      grind
    · intro key hprim hreset
      show noted.1.lookup key ≠ none ↔ ∃ e ∈ st.evaluations ++ [_], key ∈ e.outputs
      rw [hnoted.writers key]
      have hold := h.writers key hprim hreset
      have hprim' := hprim.1
      simp only [List.mem_append, List.mem_singleton, or_and_right, exists_or, exists_eq_left]
      have hout : (⟨member, run.2, st.resetKeys⟩ : Evaluation K V).outputs = run.2.outputs := rfl
      rw [hout, ← hold]
      by_cases hw : key ∈ written
      · grind
      · grind
    · intro key hprim hreset e he hout
      rw [List.mem_append, List.mem_singleton] at he
      cases he with
      | inl he => exact h.reset_first key hprim hreset e he hout
      | inr he => rw [he]; exact h.reset_done key hprim hreset
    · show SharedReset ix (st.evaluations ++ [_])
      refine List.pairwise_append.2 ⟨h.shared, by simp, ?_⟩
      intro e he e' he' key hprim hout hout'
      rw [List.mem_singleton] at he'
      subst he'
      by_cases hreset : st.reset.lookup key = none
      · exact absurd hout (hfirst key hout' hprim hreset e he)
      · exact h.reset_first key ⟨hprim, hin key (List.mem_append_left _ hout')⟩ hreset e he hout

/-! ## §6. A whole run -/

/-- How a run of the steps `rest` ended: it went through, or the keys that stopped it were
    all written in it and either deferred or covered by no reset. -/
structure RunEnd (rest : List (DerivationId × List K × List K)) (st : RunState K V)
    (r : RunState K V × List K) : Prop where
  through : r.2 = [] → (∃ position, RunInv ix keys source position [] r.1)
    ∧ r.1.evaluations.map Evaluation.id = st.evaluations.map Evaluation.id ++ rest.map Prod.fst
  settled : ∃ later, (∀ s ∈ later, s ∈ rest) ∧ Settled ix keys source later r.1
  stopped : ∀ key ∈ r.2, ix.isPrimary key = true
    ∧ (∃ e ∈ r.1.evaluations, key ∈ e.outputs)
    ∧ ((∃ s ∈ rest, key ∈ deferredTo s) ∨ st.reset.lookup key = none)

/-- **A run of the members**, from any state the invariant holds in. -/
theorem runGroup_spec (hnotes : ix.NotesOwn keys) (excluded : K → Prop)
    (rest : List (DerivationId × List K × List K)) :
    ∀ (position : Nat) (st : RunState K V), StepsOk ix rest excluded →
      (∀ s ∈ rest, (recipe s.1).WritesIn keys) → RunInv ix keys source position rest st →
      RunEnd ix keys source rest st (runGroup ix source recipe position rest st) := by
  induction rest with
  | nil =>
    intro position st _ _ h
    refine ⟨fun _ => ⟨⟨position, h⟩, by simp [runGroup]⟩, ⟨[], by simp, h.settled⟩, ?_⟩
    intro key hkey
    simp [runGroup] at hkey
  | cons step rest ih =>
    intro position st hsteps hwrites h
    obtain ⟨member, own, joint⟩ := step
    simp only [runGroup]
    generalize htaken : ((own ++ joint).filter fun key => (st.writers.lookup key).isSome) = taken
    have hmem : ∀ key, key ∈ taken ↔ key ∈ own ++ joint ∧ st.writers.lookup key ≠ none := by
      intro key
      rw [← htaken, List.mem_filter, Option.isSome_iff_ne_none]
    by_cases hnone : taken = []
    · rw [if_neg (by simp [hnone])]
      have hfree : ∀ key ∈ own ++ joint, st.writers.lookup key = none := by
        intro key hkey
        by_contra hw
        have := (hmem key).2 ⟨hkey, hw⟩
        simp [hnone] at this
      have hreset := h.resetMember ix keys source hnotes excluded position member own joint rest st
        hsteps hfree
      have heval := hreset.evaluate ix keys source recipe position member rest _
        (hwrites (member, own, joint) (by simp)) _ rfl
      revert heval
      have hevals : ((st.resetMember ix source position own joint).evaluate ix recipe position
          member).1.evaluations.map Evaluation.id = st.evaluations.map Evaluation.id ++ [member]
          := by
        simp [RunState.evaluate, RunState.resetMember]
      have hstays : ((st.resetMember ix source position own joint).evaluate ix recipe position
          member).1.reset = (st.resetMember ix source position own joint).reset := rfl
      have hgrows : ∀ key, (st.resetMember ix source position own joint).reset.lookup key = none →
          st.reset.lookup key = none := by
        intro key hkey
        by_contra hold
        exact (orInsert_foldl_lookup _ position st.reset key).2 (.inl hold) hkey
      revert hevals hstays
      generalize (st.resetMember ix source position own joint).evaluate ix recipe position member
        = r
      intro hevals hstays heval
      by_cases hfound : r.2 = []
      · rw [if_neg (by simp [hfound])]
        have hrest := ih (position + 1) r.1 (hsteps.tail ix _ rest excluded)
          (fun s hs => hwrites s (by simp [hs])) (heval.2.2 hfound)
        refine ⟨?_, ?_, ?_⟩
        · intro hthrough
          obtain ⟨hinv, hids⟩ := hrest.through hthrough
          refine ⟨hinv, ?_⟩
          rw [hids, hevals]
          simp
        · obtain ⟨later, hlater, hsettled⟩ := hrest.settled
          exact ⟨later, fun s hs => by simp [hlater s hs], hsettled⟩
        · intro key hkey
          obtain ⟨hprim, hwrote, hcases⟩ := hrest.stopped key hkey
          refine ⟨hprim, hwrote, ?_⟩
          cases hcases with
          | inl hdef =>
            obtain ⟨s, hs, hkey⟩ := hdef
            exact .inl ⟨s, by simp [hs], hkey⟩
          | inr hreset =>
            rw [hstays] at hreset
            exact .inr (hgrows key hreset)
      · rw [if_pos hfound]
        refine ⟨fun hnil => absurd hnil hfound, ⟨rest, fun s hs => by simp [hs], heval.1⟩, ?_⟩
        intro key hkey
        obtain ⟨hprim, hreset, hwrote⟩ := heval.2.1 key hkey
        exact ⟨hprim, hwrote, .inr (hgrows key hreset)⟩
    · rw [if_pos hnone]
      refine ⟨fun hnil => absurd hnil hnone, ⟨_, fun s hs => hs, h.settled⟩, ?_⟩
      intro key hkey
      obtain ⟨hdef, hw⟩ := (hmem key).1 hkey
      have hprim := hsteps.primary (member, own, joint) (by simp) key hdef
      obtain ⟨hin, hreset⟩ := h.pending (member, own, joint) (by simp) key hdef
      refine ⟨hprim, (h.writers key ⟨hprim, hin⟩ hreset).1 hw, .inl ⟨(member, own, joint), ?_⟩⟩
      exact ⟨by simp, hdef⟩

end

end

end GluaLs.Engine
