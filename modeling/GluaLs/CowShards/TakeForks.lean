/-
  GluaLs.CowShards.TakeForks — the changed shards of several forks, taken out.

  `install_all` first walks the forks and files every shard a fork does not share with the
  frozen map under its slot.  `takeForks_spec` says what that leaves: under each slot the
  forks' shards in the forks' order (`groupAt`), every `Arc` of them held by a local
  (`pendingOf`, counted as often as it was taken), the forks gone and every other map as it
  was.
-/
import GluaLs.CowShards.Install

namespace GluaLs.Cow.World

open GluaLs.Lib List

variable {K V : Type} {w : World K V} {a z : Nat}

/-! ## §1. The maps an install is called with -/

/-- The names an install is called with: all live, none twice, each fork covering `z`. -/
structure Installable (w : World K V) (a z : Nat) (forks : List (Nat × Nat)) : Prop where
  live_a : w.Live a
  live_z : w.Live z
  live : ∀ fork ∈ forks, w.Live fork.2
  nodup : (a :: z :: forks.map Prod.snd).Nodup
  covers : ∀ fork ∈ forks, Covers w z fork.2

/-- An install writes to two maps, and neither is `z` or a fork that is still to come. -/
theorem Installable.apart {fork : Nat × Nat} {forks : List (Nat × Nat)}
    (h : Installable w a z (fork :: forks)) :
    z ∉ [a, fork.2] ∧ ∀ f ∈ forks, f.2 ∉ [a, fork.2] := by
  have hnodup := h.nodup
  simp only [List.map_cons, List.nodup_cons, List.mem_cons, not_or] at hnodup
  obtain ⟨⟨haz, -, haf⟩, ⟨hzb, -⟩, hbf, -⟩ := hnodup
  refine ⟨by simp [Ne.symm haz, hzb], ?_⟩
  intro f hmem
  have hmem' := List.mem_map_of_mem (f := Prod.snd) hmem
  simp only [List.mem_cons, List.not_mem_nil, or_false, not_or]
  exact ⟨fun he => haf (he ▸ hmem'), fun he => hbf (he ▸ hmem')⟩

theorem Installable.tail {w' : World K V} {fork : Nat × Nat} {forks : List (Nat × Nat)}
    (h : Installable w a z (fork :: forks)) (ho : Others w w' [a, fork.2]) (hlive : w'.Live a) :
    Installable w' a z forks := by
  obtain ⟨hz, hf⟩ := h.apart
  have hnodup := h.nodup
  simp only [List.map_cons, List.nodup_cons, List.mem_cons, not_or] at hnodup
  obtain ⟨⟨haz, -, haf⟩, ⟨-, hzf⟩, -, hrest⟩ := hnodup
  refine ⟨hlive, (ho.live_iff hz).2 h.live_z, ?_, ?_, ?_⟩
  · intro f hmem
    exact (ho.live_iff (hf f hmem)).2 (h.live f (by simp [hmem]))
  · simp only [List.nodup_cons, List.mem_cons, not_or]
    exact ⟨⟨haz, haf⟩, hzf, hrest⟩
  · intro f hmem
    exact (h.covers f (by simp [hmem])).of_others ho hz (hf f hmem)

/-! ## §2. The shards taken out -/

/-- The `Arc`s of the shards some forks left at one slot. -/
def ptrsOf (forked : Forked) : List Ptr := forked.filterMap Prod.snd

/-- The `Arc`s of all the shards taken out and not installed yet. -/
def pendingOf (groups : List (Sigma fun _ : Nat => Forked)) : List Ptr :=
  groups.flatMap fun g => ptrsOf g.2

/-- What the forks left at slot `i`, where they do not share `z`'s shard. -/
def groupAt (w : World K V) (z : Nat) (forks : List (Nat × Nat)) (i : Nat) : Forked :=
  (forks.filter fun fork => !sameShard (w.heldShard z i) (w.heldShard fork.2 i)).map
    fun fork => (fork.1, w.heldShard fork.2 i)

/-- Filing one more shard under its slot adds its `Arc` to those pending. -/
theorem pendingOf_insert (s : HashMap Nat Forked) (i place : Nat) (o : Option Ptr) :
    pendingOf (s.insert i ((s.lookup i).getD [] ++ [(place, o)])).entries ~
      o.toList ++ pendingOf s.entries := by
  have hptrs : ∀ l : Forked, ptrsOf (l ++ [(place, o)]) = ptrsOf l ++ o.toList := by
    intro l
    unfold ptrsOf
    rw [List.filterMap_append]
    cases o <;> rfl
  have hinsert : pendingOf (s.insert i ((s.lookup i).getD [] ++ [(place, o)])).entries
      = ptrsOf ((s.lookup i).getD []) ++ o.toList ++ pendingOf (s.erase i).entries := by
    rw [← hptrs]
    rfl
  rw [hinsert]
  cases hl : s.lookup i with
  | none =>
    rw [erase_eq_self s i hl]
    exact Perm.refl _
  | some l =>
    have hperm : pendingOf s.entries ~ ptrsOf l ++ pendingOf (s.erase i).entries :=
      (entries_perm_cons_erase s i l hl).flatMap_right _
    calc ptrsOf l ++ o.toList ++ pendingOf (s.erase i).entries
        ~ o.toList ++ ptrsOf l ++ pendingOf (s.erase i).entries :=
          (perm_append_comm).append_right _
      _ ~ o.toList ++ pendingOf s.entries := by
          rw [List.append_assoc]
          exact hperm.symm.append_left _

/-- The invariant while the shards of fork `b` are taken out, with the slots still to come. -/
structure TakingFork (w₀ : World K V) (s₀ : HashMap Nat Forked) (w : World K V)
    (s : HashMap Nat Forked) (z place b : Nat) (rest : List Nat) : Prop where
  wf : WF w
  shards : w.shards = w₀.shards
  others : Others w₀ w [b]
  live : w.Live b
  fork : ∀ i ∈ rest, w.heldShard b i = w₀.heldShard b i
  group : ∀ i, i < 2 ^ 32 → (s.lookup i).getD [] = (s₀.lookup i).getD [] ++
    if i ∈ rest then [] else w₀.groupAt z [(place, b)] i
  keys : ∀ i, s.lookup i ≠ none → i < 2 ^ 32
  pending : pendingOf s.entries <+~ w.loose

theorem TakingFork.step {w₀ : World K V} {s₀ s : HashMap Nat Forked} {place b at_ : Nat}
    {rest : List Nat} (hzb : z ≠ b) (hz : w₀.Live z)
    (h : TakingFork w₀ s₀ w s z place b (at_ :: rest)) (hnodup : at_ ∉ rest)
    (hlt : ∀ i ∈ at_ :: rest, i < 2 ^ 32) :
    TakingFork w₀ s₀ (takeForked z place b (w, s) at_).1 (takeForked z place b (w, s) at_).2
      z place b rest := by
  have hat := hlt at_ (by simp)
  have hzheld : ∀ i, w.heldShard z i = w₀.heldShard z i :=
    h.others.held z (by simpa using hzb) hz
  unfold takeForked
  by_cases hsame : sameShard (w.heldShard z at_) (w.heldShard b at_) = true
  · rw [if_pos hsame]
    refine ⟨h.wf, h.shards, h.others, h.live, fun i hi => h.fork i (by simp [hi]), ?_, h.keys,
      h.pending⟩
    intro i hi
    rw [h.group i hi]
    by_cases hia : i = at_
    · subst hia
      rw [hzheld, h.fork i (by simp)] at hsame
      rw [if_pos (by simp), if_neg hnodup, groupAt, List.filter_cons_of_neg (by simp [hsame])]
      rfl
    · simp only [List.mem_cons, hia, false_or]
  · rw [if_neg hsame]
    obtain ⟨htaken, ho⟩ := takeHeldShard_spec h.wf h.live hat
    simp only
    generalize w.takeHeldShard b at_ = r at htaken ho ⊢
    obtain ⟨w₁, o⟩ := r
    simp only at htaken ho ⊢
    have hlt_o : ∀ p ∈ o.toList, p < w₁.shards.next := by
      intro p hp
      rw [htaken.shards]
      exact h.wf.held_lt h.live (ho ▸ Option.mem_toList.1 hp)
    refine ⟨wf_hold htaken.wf hlt_o, htaken.shards.trans h.shards,
      h.others.trans ((htaken.keeps.trans (keeps_hold htaken.keeps.live _)).others (by simp)),
      htaken.keeps.live, ?_, ?_, ?_, ?_⟩
    · intro i hi
      have hne : i ≠ at_ := fun he => hnodup (he ▸ hi)
      exact (htaken.held i (hlt i (by simp [hi])) hne).trans (h.fork i (by simp [hi]))
    · intro i hi
      rw [lookup_insert_ite]
      by_cases hia : i = at_
      · subst hia
        have hgroup := h.group i hi
        rw [if_pos (by simp), List.append_nil] at hgroup
        rw [hzheld, h.fork i (by simp)] at hsame
        rw [if_pos rfl, Option.getD_some, hgroup, if_neg hnodup, groupAt,
          List.filter_cons_of_pos (by simpa using hsame), ho, h.fork i (by simp)]
        rfl
      · rw [if_neg hia, h.group i hi]
        simp only [List.mem_cons, hia, false_or]
    · intro i hi
      rw [lookup_insert_ite] at hi
      split_ifs at hi with hia
      · exact hia ▸ hat
      · exact h.keys i hi
    · refine (pendingOf_insert s at_ place o).subperm.trans ?_
      rw [show (w₁.hold o.toList).loose = w₁.loose ++ o.toList from rfl, htaken.loose]
      exact perm_append_comm.subperm.trans ((subperm_append_right _).2 h.pending)

theorem TakingFork.run {w₀ : World K V} {s₀ : HashMap Nat Forked} {place b : Nat} (hzb : z ≠ b)
    (hz : w₀.Live z) (slots : List Nat) :
    ∀ {w : World K V} {s : HashMap Nat Forked}, slots.Nodup → (∀ i ∈ slots, i < 2 ^ 32) →
      TakingFork w₀ s₀ w s z place b slots →
      TakingFork w₀ s₀ (slots.foldl (takeForked z place b) (w, s)).1
        (slots.foldl (takeForked z place b) (w, s)).2 z place b [] := by
  induction slots with
  | nil => intro w s _ _ h; exact h
  | cons at_ rest ih =>
    intro w s hnodup hlt h
    rw [List.nodup_cons] at hnodup
    rw [List.foldl_cons]
    exact ih hnodup.2 (fun i hi => hlt i (by simp [hi])) (h.step hzb hz hnodup.1 hlt)

/-- What taking the shards of `forks` out leaves, on top of what was taken before. -/
structure ForksTaken (w : World K V) (s : HashMap Nat Forked) (w' : World K V)
    (s' : HashMap Nat Forked) (z : Nat) (forks : List (Nat × Nat)) : Prop where
  wf : WF w'
  shards : w'.shards = w.shards
  others : Others w w' (forks.map Prod.snd)
  gone : ∀ fork ∈ forks, w'.maps.lookup fork.2 = none
  group : ∀ i, i < 2 ^ 32 → (s'.lookup i).getD [] = (s.lookup i).getD [] ++ w.groupAt z forks i
  keys : ∀ i, s'.lookup i ≠ none → i < 2 ^ 32
  pending : pendingOf s'.entries <+~ w'.loose

theorem groupAt_cons (fork : Nat × Nat) (forks : List (Nat × Nat)) (i : Nat) :
    w.groupAt z (fork :: forks) i = w.groupAt z [fork] i ++ w.groupAt z forks i := by
  unfold groupAt
  rw [← List.map_append, ← List.filter_append]
  rfl

theorem groupAt_congr {w' : World K V} {s : List Nat} {forks : List (Nat × Nat)}
    (h : Others w w' s) (hz : z ∉ s) (hlive_z : w.Live z) (hlive : ∀ fork ∈ forks, w.Live fork.2)
    (hs : ∀ fork ∈ forks, fork.2 ∉ s) (i : Nat) : w'.groupAt z forks i = w.groupAt z forks i := by
  unfold groupAt
  have hheld : ∀ fork ∈ forks, w'.heldShard fork.2 i = w.heldShard fork.2 i :=
    fun fork hf => h.held _ (hs fork hf) (hlive fork hf) i
  rw [h.held z hz hlive_z]
  rw [List.filter_congr (fun fork hf => by rw [hheld fork hf])]
  refine List.map_congr_left ?_
  intro fork hf
  rw [hheld fork (List.mem_filter.1 hf).1]

theorem takeFork_spec {s : HashMap Nat Forked} {fork : Nat × Nat} (hw : WF w) (hz : w.Live z)
    (hb : w.Live fork.2) (hzb : z ≠ fork.2) (hcov : Covers w z fork.2)
    (hkeys : ∀ i, s.lookup i ≠ none → i < 2 ^ 32) (hpending : pendingOf s.entries <+~ w.loose) :
    ForksTaken w s (takeFork z (w, s) fork).1 (takeFork z (w, s) fork).2 z [fork] := by
  have hstart : TakingFork w s w s z fork.1 fork.2 (w.forkedSlots z fork.2) := by
    refine ⟨hw, rfl, .refl _, hb, fun _ _ => rfl, ?_, hkeys, hpending⟩
    intro i hi
    split_ifs with hmem
    · simp
    · -- a slot left out holds `z`'s shard
      have hsame := heldShard_eq_of_not_mem_forkedSlots hcov hi hmem
      rw [groupAt, List.filter_cons_of_neg (by simp [sameShard_iff, hsame])]
      simp
  have hend := TakingFork.run hzb hz (w.forkedSlots z fork.2) (nodup_forkedSlots w z fork.2)
    (fun i hi => lt_of_mem_forkedSlots hw hz hb hi) hstart
  unfold takeFork
  simp only
  generalize (w.forkedSlots z fork.2).foldl (takeForked z fork.1 fork.2) (w, s) = r at hend ⊢
  refine ⟨wf_dropMap hend.wf _, hend.shards, hend.others.trans (others_dropMap (by simp)), ?_, ?_,
    hend.keys, hend.pending⟩
  · intro f hf
    rw [List.mem_singleton.1 hf]
    exact (lookup_dropMap _).trans (if_pos rfl)
  · intro i hi
    rw [hend.group i hi, if_neg (by simp)]

theorem takeForks_spec (forks : List (Nat × Nat)) :
    ∀ {w : World K V} {s : HashMap Nat Forked}, WF w → w.Live z →
      (∀ fork ∈ forks, w.Live fork.2) → (z :: forks.map Prod.snd).Nodup →
      (∀ fork ∈ forks, Covers w z fork.2) → (∀ i, s.lookup i ≠ none → i < 2 ^ 32) →
      pendingOf s.entries <+~ w.loose →
      ForksTaken w s (forks.foldl (takeFork z) (w, s)).1 (forks.foldl (takeFork z) (w, s)).2
        z forks := by
  induction forks with
  | nil =>
    intro w s hw _ _ _ _ hkeys hpending
    exact ⟨hw, rfl, .refl _, by simp, fun i _ => by simp [groupAt], hkeys, hpending⟩
  | cons fork forks ih =>
    intro w s hw hz hlive hnodup hcov hkeys hpending
    simp only [List.map_cons, List.nodup_cons, List.mem_cons, not_or] at hnodup
    obtain ⟨⟨hzb, hzf⟩, hbf, hrest⟩ := hnodup
    have hstep :=
      takeFork_spec hw hz (hlive fork (by simp)) hzb (hcov fork (by simp)) hkeys hpending
    have hz' : z ∉ [fork].map Prod.snd := by simpa using hzb
    have hf : ∀ f ∈ forks, f.2 ∉ [fork].map Prod.snd := by
      intro f hmem
      simp only [List.map_cons, List.map_nil, List.mem_singleton]
      exact fun he => hbf (he ▸ List.mem_map_of_mem (f := Prod.snd) hmem)
    have hlive' : ∀ f ∈ forks, w.Live f.2 := fun f hmem => hlive f (by simp [hmem])
    have hend := ih hstep.wf ((hstep.others.live_iff hz').2 hz)
      (fun f hmem => (hstep.others.live_iff (hf f hmem)).2 (hlive' f hmem))
      (List.nodup_cons.2 ⟨hzf, hrest⟩)
      (fun f hmem => (hcov f (by simp [hmem])).of_others hstep.others hz' (hf f hmem))
      hstep.keys hstep.pending
    rw [List.foldl_cons]
    have hothers : Others w (takeFork z (w, s) fork).1 ((fork :: forks).map Prod.snd) :=
      hstep.others.mono (fun m hm => by simp at hm ⊢; tauto)
    refine ⟨hend.wf, hend.shards.trans hstep.shards,
      hothers.trans (hend.others.mono (fun m hm => by simp at hm ⊢; tauto)), ?_, ?_, hend.keys,
      hend.pending⟩
    · intro f hmem
      rcases List.mem_cons.1 hmem with rfl | hmem
      · rw [hend.others.maps _ hbf]
        exact hstep.gone _ (by simp)
      · exact hend.gone f hmem
    · intro i hi
      rw [hend.group i hi, hstep.group i hi, groupAt_congr hstep.others hz' hz hlive' hf,
        groupAt_cons fork forks, List.append_assoc]

end GluaLs.Cow.World
