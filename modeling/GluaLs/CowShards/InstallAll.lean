/-
  GluaLs.CowShards.InstallAll — several forks installed at once.

  While `self` writes apart, `install_all` takes the changed shards out of all forks first and
  then installs shard by shard.  `InstalledAll` is what installing the forks one after another
  leaves (`installEach_spec`); **`installAll_spec`** says that the regrouped install leaves the
  same: each entry is the forks' changes taken in one after another, and a fork is reported
  exactly when a change of its own clashed.

  The heart of it is `installForked_step`: while one shard is installed, the shards the other
  forks left (here and at other slots) are held by locals, so that `Arc::make_mut` of the
  shard being written copies it whenever one of them is the SAME allocation.
-/
import GluaLs.CowShards.TakeForks

namespace GluaLs.Cow.World

open GluaLs.Lib List

variable {K V : Type} [DecidableEq K] {w : World K V} {a z : Nat}

/-! ## §1. One fork after another -/

/-- The entries of map `n`, slot by slot. -/
def entryAt (w : World K V) (n i : Nat) (k : K) : Option V := (w.contents n i).lookup k

theorem entryAt_congr {w w' : World K V} {n i : Nat} (h : w'.contents n i = w.contents n i) :
    w'.entryAt n i = w.entryAt n i :=
  funext fun k => congrArg (AList.lookup k) h

/-- The forks' entries in slot `i`, with the forks' places. -/
def forksAt (w : World K V) (forks : List (Nat × Nat)) (i : Nat) : List (Nat × (K → Option V)) :=
  forks.map fun fork => (fork.1, w.entryAt fork.2 i)

theorem forksAt_congr {w' : World K V} {s : List Nat} {forks : List (Nat × Nat)}
    (h : Others w w' s) (hlive : ∀ fork ∈ forks, w.Live fork.2)
    (hs : ∀ fork ∈ forks, fork.2 ∉ s) (i : Nat) : w'.forksAt forks i = w.forksAt forks i := by
  refine List.map_congr_left ?_
  intro fork hf
  rw [entryAt_congr (h.contents _ (hs fork hf) (hlive fork hf) i)]

variable [DecidableEq V]

/-- What installing `forks` into `a` one after another leaves. -/
structure InstalledAll (w w' : World K V) (merge : Option (Merge V)) (a z : Nat)
    (forks : List (Nat × Nat)) (conflicted : List Nat) : Prop where
  wf : WF w'
  others : Others w w' (a :: forks.map Prod.snd)
  live : w'.Live a
  gone : ∀ fork ∈ forks, w'.maps.lookup fork.2 = none
  forked : (w'.cow a).forked = (w.cow a).forked
  grows : Grows w w' a
  lookup : ∀ i, i < 2 ^ 32 → ∀ k, w'.entryAt a i k =
    threeWayFold merge (w.entryAt z i k) (w.entryAt a i k)
      ((w.forksAt forks i).map fun e => e.2 k)
  conflict : ∀ p, p ∈ conflicted ↔ ∃ i, i < 2 ^ 32 ∧
    Clashes merge (w.entryAt z i) (w.entryAt a i) (w.forksAt forks i) p

/-- One install at the head of an `InstalledAll`. -/
theorem InstalledAll.cons {w₁ w₂ : World K V} {merge : Option (Merge V)} (fork : Nat × Nat)
    {forks : List (Nat × Nat)} {c : Bool} {conflicted : List Nat}
    (h : Installable w a z (fork :: forks)) (h₁ : Installed w w₁ merge a z fork.2 c)
    (h₂ : InstalledAll w₁ w₂ merge a z forks conflicted) :
    InstalledAll w w₂ merge a z (fork :: forks) ((if c then [fork.1] else []) ++ conflicted) := by
  obtain ⟨hz, hf⟩ := h.apart
  have hnodup := h.nodup
  simp only [List.map_cons, List.nodup_cons, List.mem_cons, not_or] at hnodup
  obtain ⟨⟨-, hab, -⟩, -, hbf, -⟩ := hnodup
  have hzi : ∀ i, w₁.entryAt z i = w.entryAt z i :=
    fun i => entryAt_congr (h₁.others.contents z hz h.live_z i)
  have hfi : ∀ i, w₁.forksAt forks i = w.forksAt forks i :=
    forksAt_congr h₁.others (fun f hmem => h.live f (by simp [hmem])) hf
  have hai : ∀ i, i < 2 ^ 32 → w₁.entryAt a i = fun k =>
      (threeWay merge (w.entryAt z i k) (w.entryAt a i k) (w.entryAt fork.2 i k)).1 := by
    intro i hi
    funext k
    exact h₁.lookup i hi k
  have hothers : Others w w₁ (a :: (fork :: forks).map Prod.snd) :=
    h₁.others.mono (fun m hm => by simp at hm ⊢; tauto)
  have hothers' : Others w₁ w₂ (a :: (fork :: forks).map Prod.snd) :=
    h₂.others.mono (fun m hm => by simp at hm ⊢; tauto)
  refine ⟨h₂.wf, hothers.trans hothers', h₂.live, ?_, h₂.forked.trans h₁.forked,
    Grows.trans_next h₁.forked h₁.others.next h₁.grows h₂.grows, ?_, ?_⟩
  · intro f hmem
    rcases List.mem_cons.1 hmem with rfl | hmem
    · -- the first fork is gone already, and no later install names it
      rw [h₂.others.maps _ (by simp only [List.mem_cons, not_or]; exact ⟨Ne.symm hab, hbf⟩)]
      exact h₁.gone
    · exact h₂.gone f hmem
  · intro i hi k
    rw [h₂.lookup i hi k, hzi, hfi, hai i hi]
    rfl
  · intro p
    rw [List.mem_append, h₂.conflict]
    simp only [hzi, hfi]
    have hhead : p ∈ (if c then [fork.1] else []) ↔
        p = fork.1 ∧ ∃ i, i < 2 ^ 32 ∧ ∃ k, (w.mergedAt merge a z fork.2 i k).2 = true := by
      rw [← h₁.conflict]
      cases c <;> simp
    rw [hhead]
    constructor
    · rintro (⟨hp, i, hi, hk⟩ | ⟨i, hi, hcl⟩)
      · exact ⟨i, hi, .inl ⟨hp, hk⟩⟩
      · rw [hai i hi] at hcl
        exact ⟨i, hi, .inr hcl⟩
    · rintro ⟨i, hi, ⟨hp, hk⟩ | hcl⟩
      · exact .inl ⟨hp, i, hi, hk⟩
      · refine .inr ⟨i, hi, ?_⟩
        rw [hai i hi]
        exact hcl

/-- The loop of `installEach` from any places found so far. -/
theorem installEach_run (merge : Option (Merge V)) (forks : List (Nat × Nat)) :
    ∀ {w : World K V} (found : List Nat), WF w → Installable w a z forks →
      ∃ conflicted, (forks.foldl (fun st fork =>
          let (w, conflicted) := st.1.installWith a z fork.2 merge
          (w, if conflicted then st.2 ++ [fork.1] else st.2)) (w, found)).2 = found ++ conflicted ∧
        InstalledAll w (forks.foldl (fun st fork =>
          let (w, conflicted) := st.1.installWith a z fork.2 merge
          (w, if conflicted then st.2 ++ [fork.1] else st.2)) (w, found)).1
          merge a z forks conflicted := by
  induction forks with
  | nil =>
    intro w found hw h
    refine ⟨[], by simp, hw, .refl _, h.live_a, by simp, rfl, .refl, ?_, ?_⟩
    · intro i _ k
      rfl
    · simp [forksAt, Clashes]
  | cons fork forks ih =>
    intro w found hw h
    have hnodup := h.nodup
    simp only [List.map_cons, List.nodup_cons, List.mem_cons, not_or] at hnodup
    obtain ⟨⟨haz, hab, -⟩, ⟨hzb, -⟩, -, -⟩ := hnodup
    have hinst := installWith_spec hw h.live_a h.live_z (h.live fork (by simp)) hab
      (Ne.symm haz) hzb (h.covers fork (by simp)) merge
    rw [List.foldl_cons]
    simp only
    generalize w.installWith a z fork.2 merge = r at hinst ⊢
    obtain ⟨w₁, c⟩ := r
    simp only at hinst ⊢
    obtain ⟨conflicted, hlist, hall⟩ := ih (if c then found ++ [fork.1] else found) hinst.wf
      (h.tail hinst.others hinst.live)
    refine ⟨_, ?_, .cons fork h hinst hall⟩
    rw [hlist]
    cases c <;> simp

/-- **The forks one after another.** -/
theorem installEach_spec (hw : WF w) (merge : Option (Merge V)) {forks : List (Nat × Nat)}
    (h : Installable w a z forks) :
    InstalledAll w (w.installEach a z forks merge).1 merge a z forks
      (w.installEach a z forks merge).2 := by
  obtain ⟨conflicted, hlist, hall⟩ := installEach_run merge forks [] hw h
  rw [List.nil_append] at hlist
  unfold installEach
  rw [hlist]
  exact hall

/-! ## §2. One shard, fork after fork -/

/-- `p` is held by a map. -/
def MapArc (w : World K V) (p : Ptr) : Prop :=
  ∃ m c, w.maps.lookup m = some c ∧
    ((∃ d, c.dirty.lookup d = some p) ∨ ∃ i : Nat, (w.tables.mem c.slots)[i]? = some (some p))

/-- The invariant of `install_shard`, against the world `w` it starts in, with the `Arc`s that
    are still pending: no shard a map holds or that is pending was written. -/
structure Holding (w : World K V) (st : Held K V) (pending : List Ptr) : Prop where
  wf : WF st.world
  maps : st.world.maps = w.maps
  tables : st.world.tables = w.tables
  loose : pending <+~ st.world.loose
  mem : ∀ p, p ∈ pending ∨ w.MapArc p → st.world.shards.mem p = w.shards.mem p
  next : w.shards.next ≤ st.world.shards.next
  held : ∀ p, st.held = some p → p < st.world.shards.next

/-- The entry of `k` in the shard held so far. -/
def Held.value (st : Held K V) (k : K) : Option V :=
  valueIn (st.held.map st.world.shards.mem) k

section

omit [DecidableEq K] [DecidableEq V]

theorem MapArc.hasArc (w' : World K V) (hm : w'.maps = w.maps)
    (ht : w'.tables = w.tables) {p : Ptr} (h : w.MapArc p) : ∃ place, HasArc w' place p := by
  obtain ⟨m, c, hc, ⟨d, hd⟩ | ⟨i, hi⟩⟩ := h
  · exact ⟨_, .dirty (hm ▸ hc) hd⟩
  · exact ⟨_, .slot (hm ▸ hc) (ht ▸ hi)⟩

theorem wf_letGo (hw : WF w) (o : Option Ptr) : WF (w.letGo o) where
  table_lt hm := hw.table_lt hm
  table_len hm := hw.table_len hm
  arc_lt := by
    intro place p h
    rcases h with ⟨hm, hd⟩ | ⟨hm, hi⟩ | hi
    · exact hw.arc_lt (.dirty hm hd)
    · exact hw.arc_lt (.slot hm hi)
    · have hmem : p ∈ (w.letGo o).loose := List.mem_iff_getElem?.2 ⟨_, hi⟩
      have hmem' : p ∈ w.loose := by
        cases o with
        | none => exact hmem
        | some q => exact List.mem_of_mem_erase hmem
      obtain ⟨j, hj⟩ := List.mem_iff_getElem?.1 hmem'
      exact hw.arc_lt (.loose hj)

/-- Letting one pending `Arc` go leaves the others held. -/
theorem subperm_letGo {pending : List Ptr} {o : Option Ptr}
    (h : o.toList ++ pending <+~ w.loose) : pending <+~ (w.letGo o).loose := by
  cases o with
  | none => exact h
  | some p =>
    have herase := h.erase p
    rw [Option.toList_some, List.singleton_append, List.erase_cons_head] at herase
    exact herase

/-- `Arc::make_mut` of the local: what it hands out nobody else holds. -/
theorem makeMutHeld_spec (hw : WF w) (o : Option Ptr) (ho : ∀ p, o = some p → p < w.shards.next) :
    WF (w.makeMutHeld o).1 ∧ (w.makeMutHeld o).1.maps = w.maps ∧
    (w.makeMutHeld o).1.tables = w.tables ∧ (w.makeMutHeld o).1.loose = w.loose ∧
    w.shards.next ≤ (w.makeMutHeld o).1.shards.next ∧
    (w.makeMutHeld o).2 < (w.makeMutHeld o).1.shards.next ∧
    (w.makeMutHeld o).1.shards.mem (w.makeMutHeld o).2 = (o.map w.shards.mem).getD ∅ ∧
    (∀ p, p < w.shards.next → (w.makeMutHeld o).1.shards.mem p = w.shards.mem p) ∧
    (∀ place, ¬ HasArc w place (w.makeMutHeld o).2) := by
  have hnew : ∀ s : Shard K V, ∀ place, ¬ HasArc w place (w.newShard s).2 :=
    fun s place h => absurd (hw.arc_lt h) (lt_irrefl _)
  cases o with
  | none =>
    exact ⟨wf_newShard hw ∅, rfl, rfl, rfl, Nat.le_succ _, Nat.lt_succ_self _,
      mem_newShard_self _, fun _ hp => mem_newShard _ hp, hnew ∅⟩
  | some p =>
    simp only [makeMutHeld]
    split_ifs with hun
    · exact ⟨hw, rfl, rfl, rfl, le_rfl, ho p rfl, rfl, fun _ _ => rfl, (unheld_iff w p).1 hun⟩
    · exact ⟨wf_newShard hw _, rfl, rfl, rfl, Nat.le_succ _, Nat.lt_succ_self _,
        mem_newShard_self _, fun _ hp => mem_newShard _ hp, hnew _⟩

end

/-- **One fork's shard**: taken whole when the slot still holds `z`'s, merged else. -/
theorem installForked_step (merge : Option (Merge V)) {st : Held K V} {was : Option Ptr}
    {fork : Nat × Option Ptr} {pending : List Ptr}
    (h : Holding w st (fork.2.toList ++ pending)) (hwas : ∀ p, was = some p → w.MapArc p) :
    Holding w (installForked merge was st fork) pending ∧
    (∀ k, (installForked merge was st fork).value k =
      (threeWay merge (valueIn (was.map w.shards.mem) k) (st.value k)
        (valueIn (fork.2.map w.shards.mem) k)).1) ∧
    (∀ p, p ∈ (installForked merge was st fork).conflicted ↔ p ∈ st.conflicted ∨
      (p = fork.1 ∧ ∃ k, (threeWay merge (valueIn (was.map w.shards.mem) k) (st.value k)
        (valueIn (fork.2.map w.shards.mem) k)).2 = true)) := by
  obtain ⟨place, o⟩ := fork
  have hwf := wf_letGo h.wf o
  have hloose := subperm_letGo h.loose
  have hforked : ∀ p, o = some p → p < st.world.shards.next ∧
      st.world.shards.mem p = w.shards.mem p := by
    rintro p rfl
    have hmem : p ∈ st.world.loose := h.loose.subset (by simp)
    obtain ⟨j, hj⟩ := List.mem_iff_getElem?.1 hmem
    exact ⟨h.wf.arc_lt (.loose hj), h.mem p (.inl (by simp))⟩
  have hvalue : ∀ k, valueIn (o.map st.world.shards.mem) k = valueIn (o.map w.shards.mem) k := by
    intro k
    cases o with
    | none => rfl
    | some p => rw [Option.map_some, Option.map_some, (hforked p rfl).2]
  have hbefore : ∀ k, valueIn (was.map st.world.shards.mem) k
      = valueIn (was.map w.shards.mem) k := by
    intro k
    cases was with
    | none => rfl
    | some p => rw [Option.map_some, Option.map_some, h.mem p (.inr (hwas p rfl))]
  unfold installForked
  by_cases hsame : sameShard was st.held = true
  · -- the slot holds `z`'s shard: the fork's takes its place
    have hwh := (sameShard_iff _ _).1 hsame
    have hnow : ∀ k, st.value k = valueIn (was.map w.shards.mem) k := by
      intro k
      rw [← hbefore, hwh]
      rfl
    simp only [if_pos hsame, hnow, threeWay_start]
    have hold : ∀ p ∈ st.held.toList, p < st.world.shards.next :=
      fun p hp => h.held p (Option.mem_toList.1 hp)
    cases o with
    | none =>
      refine ⟨⟨wf_hold (wf_newShard hwf ∅) (fun p hp => Nat.lt_succ_of_lt (hold p hp)), h.maps,
        h.tables, hloose.trans (sublist_append_left _ _).subperm, ?_, h.next.trans (Nat.le_succ _),
        ?_⟩, ?_, by simp⟩
      · intro p hp
        refine (mem_newShard ∅ ?_).trans (h.mem p (hp.imp_left (by simp)))
        rcases hp with hp | hp
        · obtain ⟨j, hj⟩ := List.mem_iff_getElem?.1 (hloose.subset hp)
          exact hwf.arc_lt (.loose hj)
        · obtain ⟨pl, harc⟩ := hp.hasArc _ h.maps h.tables
          exact h.wf.arc_lt harc
      · intro p hp
        cases hp
        exact Nat.lt_succ_self _
      · intro k
        have hempty : ((st.world.letGo none).newShard ∅).1.shards.mem
            (st.world.letGo none).shards.next = ∅ := mem_newShard_self _
        exact congrArg (fun s => valueIn (some s) k) hempty
    | some q =>
      refine ⟨⟨wf_hold hwf hold, h.maps, h.tables,
        hloose.trans (sublist_append_left _ _).subperm, ?_, h.next, ?_⟩, ?_, by simp⟩
      · intro p hp
        exact h.mem p (hp.imp_left (fun hp => by simp [hp]))
      · intro p hp
        cases hp
        exact (hforked q rfl).1
      · intro k
        exact hvalue k
  · simp only [if_neg hsame]
    obtain ⟨hwf', hmaps, htables, hloose', hnext, hlt, hself, hmem, hunheld⟩ :=
      makeMutHeld_spec hwf st.held h.held
    generalize (st.world.letGo o).makeMutHeld st.held = r at *
    obtain ⟨w₁, q⟩ := r
    simp only at *
    have hq : ∀ k, (w₁.shards.mem q).lookup k = st.value k := by
      intro k
      rw [hself]
      exact lookup_getD_map st.held k
    have hforked' : ∀ k, ((o.map (st.world.letGo o).shards.mem).getD ∅).lookup k
        = valueIn (o.map w.shards.mem) k := by
      intro k
      rw [lookup_getD_map]
      exact hvalue k
    have hbefore' : ∀ k, valueIn (was.map (st.world.letGo o).shards.mem) k
        = valueIn (was.map w.shards.mem) k := hbefore
    refine ⟨⟨wf_writeShard hwf' q _, hmaps.trans h.maps, htables.trans h.tables,
      hloose'.symm ▸ hloose, ?_, h.next.trans hnext, ?_⟩, ?_, ?_⟩
    · -- whatever is still held has an `Arc`, so it is not the shard being written
      intro p hp
      have harc : ∃ pl, HasArc (st.world.letGo o) pl p := by
        rcases hp with hp | hp
        · obtain ⟨j, hj⟩ := List.mem_iff_getElem?.1 (hloose.subset hp)
          exact ⟨_, .loose hj⟩
        · exact hp.hasArc (st.world.letGo o) h.maps h.tables
      obtain ⟨pl, harc⟩ := harc
      have hne : p ≠ q := fun he => hunheld pl (he ▸ harc)
      have hold : p ∈ o.toList ++ pending ∨ w.MapArc p := hp.imp_left (fun hp => by simp [hp])
      exact (Heap.write_mem_of_ne _ _ _ _ hne).trans
        ((hmem p (hwf.arc_lt harc)).trans (h.mem p hold))
    · intro p hp
      cases hp
      exact hlt
    · intro k
      show valueIn (some ((w₁.shards.write q _).mem q)) k = _
      rw [Heap.write_mem_self]
      show AList.lookup k _ = _
      rw [mergeShard_lookup, hq, hforked', hbefore']
    · intro p
      have hconf := mergeShard_conflicted merge (was.map (st.world.letGo o).shards.mem)
        ((o.map (st.world.letGo o).shards.mem).getD ∅) (w₁.shards.mem q)
      simp only [hq, hforked', hbefore'] at hconf
      rw [← hconf]
      split_ifs with hc <;> simp [hc]

/-- The forks' entries at one slot, read from the shards taken out of them. -/
def forkedAt (w : World K V) (forked : Forked) : List (Nat × (K → Option V)) :=
  forked.map fun fork => (fork.1, fun k => valueIn (fork.2.map w.shards.mem) k)

theorem installForked_run (merge : Option (Merge V)) {was : Option Ptr} {pending : List Ptr}
    (hwas : ∀ p, was = some p → w.MapArc p) (forked : Forked) :
    ∀ {st : Held K V}, Holding w st (ptrsOf forked ++ pending) →
      Holding w (forked.foldl (installForked merge was) st) pending ∧
      (∀ k, (forked.foldl (installForked merge was) st).value k =
        threeWayFold merge (valueIn (was.map w.shards.mem) k) (st.value k)
          ((w.forkedAt forked).map fun e => e.2 k)) ∧
      (∀ p, p ∈ (forked.foldl (installForked merge was) st).conflicted ↔ p ∈ st.conflicted ∨
        Clashes merge (valueIn (was.map w.shards.mem)) st.value (w.forkedAt forked) p) := by
  induction forked with
  | nil =>
    intro st h
    exact ⟨h, fun _ => rfl, fun _ => by simp [forkedAt, Clashes]⟩
  | cons fork forked ih =>
    intro st h
    have hptrs : ptrsOf (fork :: forked) = fork.2.toList ++ ptrsOf forked := by
      unfold ptrsOf
      rw [List.filterMap_cons]
      cases fork.2 <;> rfl
    rw [hptrs, List.append_assoc] at h
    obtain ⟨hstep, hval, hconf⟩ := installForked_step merge h hwas
    obtain ⟨hend, hval', hconf'⟩ := ih hstep
    rw [List.foldl_cons]
    refine ⟨hend, ?_, ?_⟩
    · intro k
      rw [hval' k, hval k]
      rfl
    · intro p
      have hfun : (installForked merge was st fork).value = fun k =>
          (threeWay merge (valueIn (was.map w.shards.mem) k) (st.value k)
            (valueIn (fork.2.map w.shards.mem) k)).1 := funext hval
      rw [hconf', hconf, hfun, or_assoc]
      rfl

/-! ## §3. Shard after shard -/

/-- What installing `group`, the shards forks left at slot `at`, leaves while `pending` is
    held. -/
structure GroupInstalled (w w' : World K V) (merge : Option (Merge V)) (a z at_ : Nat)
    (group : Forked) (pending : List Ptr) (conflicted : List Nat) : Prop where
  wf : WF w'
  others : Others w w' [a]
  live : w'.Live a
  forked : (w'.cow a).forked = (w.cow a).forked
  grows : Grows w w' a
  loose : pending <+~ w'.loose
  mem : ∀ p ∈ pending, w'.shards.mem p = w.shards.mem p
  self : ∀ i, i < 2 ^ 32 → i ≠ at_ → w'.contents a i = w.contents a i
  lookup : ∀ k, w'.entryAt a at_ k = threeWayFold merge (w.entryAt z at_ k) (w.entryAt a at_ k)
    ((w.forkedAt group).map fun e => e.2 k)
  conflict : ∀ p, p ∈ conflicted ↔
    Clashes merge (w.entryAt z at_) (w.entryAt a at_) (w.forkedAt group) p

section

omit [DecidableEq K] [DecidableEq V]

theorem mapArc_of_heldShard {m i : Nat} {p : Ptr} (hm : w.Live m) (h : w.heldShard m i = some p) :
    w.MapArc p := by
  refine ⟨m, w.cow m, hm.lookup, ?_⟩
  unfold heldShard at h
  cases hd : (w.cow m).dirty.lookup i.toUInt32 with
  | some q =>
    rw [hd] at h
    cases h
    exact .inl ⟨_, hd⟩
  | none =>
    rw [hd, Option.none_or] at h
    exact .inr ⟨_, Option.join_eq_some_iff.1 h⟩

/-- Every map reads as it did while a shard is installed apart. -/
theorem Holding.contents {st : Held K V} {pending : List Ptr} (h : Holding w st pending)
    {m : Nat} (hm : w.Live m) (i : Nat) :
    st.world.heldShard m i = w.heldShard m i ∧ st.world.contents m i = w.contents m i := by
  have hheld : st.world.heldShard m i = w.heldShard m i := by
    unfold heldShard table cow
    rw [h.maps, h.tables]
  refine ⟨hheld, ?_⟩
  unfold World.contents
  rw [hheld]
  cases hp : w.heldShard m i with
  | none => rfl
  | some p => exact h.mem p (.inr (mapArc_of_heldShard hm hp))

theorem Holding.others {st : Held K V} {pending : List Ptr} (h : Holding w st pending)
    (s : List Nat) : Others w st.world s :=
  ⟨fun _ _ => by rw [h.maps], fun _ _ hm i => (h.contents hm i).1,
    fun _ _ hm i => (h.contents hm i).2, by rw [h.tables]⟩

end

/-- **One shard of `install_all`.** -/
theorem installGroup_spec (hw : WF w) (ha : w.Live a) (hz : w.Live z) (hza : z ≠ a)
    (merge : Option (Merge V)) (found : List Nat) {at_ : Nat} (hat : at_ < 2 ^ 32)
    {forked : Forked} {pending : List Ptr} (hloose : ptrsOf forked ++ pending <+~ w.loose) :
    ∃ conflicted, (installGroup merge a z (w, found) ⟨at_, forked⟩).2 = found ++ conflicted ∧
      GroupInstalled w (installGroup merge a z (w, found) ⟨at_, forked⟩).1 merge a z at_ forked
        pending conflicted := by
  obtain ⟨htaken, ho⟩ := takeHeldShard_spec hw ha hat
  unfold installGroup
  simp only
  generalize w.takeHeldShard a at_ = r at htaken ho ⊢
  obtain ⟨w₁, o⟩ := r
  simp only at htaken ho ⊢
  have hz₁ : w₁.Live z := by
    rw [Live, htaken.keeps.maps z hza]
    exact hz
  have hheldz : w₁.heldShard z at_ = w.heldShard z at_ := htaken.keeps.heldShard_eq hza hz at_
  have hstart : Holding w₁ ⟨w₁, o, []⟩ (ptrsOf forked ++ pending) := by
    refine ⟨htaken.wf, rfl, rfl, htaken.loose.symm ▸ hloose, fun _ _ => rfl, le_rfl, ?_⟩
    intro p hp
    show p < w₁.shards.next
    rw [htaken.shards]
    exact hw.held_lt ha (ho ▸ hp)
  obtain ⟨hend, hval, hconf⟩ := installForked_run merge
    (fun p hp => mapArc_of_heldShard hz₁ (i := at_) hp) forked hstart
  generalize forked.foldl (installForked merge (w₁.heldShard z at_)) ⟨w₁, o, []⟩ = left
    at hend hval hconf ⊢
  have ha₁ : left.world.Live a := by
    rw [Live, hend.maps]
    exact htaken.keeps.live
  have hplaced := placed_unwrapOrDefault hend.wf ha₁ hat hend.held
  have hloose' : ((left.world.unwrapOrDefault left.held).1.setDirty a at_.toUInt32
      (left.world.unwrapOrDefault left.held).2).loose = left.world.loose := by
    cases left.held <;> rfl
  have hmem' : ∀ p, p < left.world.shards.next →
      ((left.world.unwrapOrDefault left.held).1.setDirty a at_.toUInt32
        (left.world.unwrapOrDefault left.held).2).shards.mem p = left.world.shards.mem p := by
    intro p hp
    cases left.held with
    | none => exact mem_newShard ∅ hp
    | some q => rfl
  have hslots' : ∀ d, (((left.world.unwrapOrDefault left.held).1.setDirty a at_.toUInt32
      (left.world.unwrapOrDefault left.held).2).cow a).slots = (w.cow a).slots ∧
      ((w.cow a).dirty.lookup d ≠ none → (((left.world.unwrapOrDefault left.held).1.setDirty a
        at_.toUInt32 (left.world.unwrapOrDefault left.held).2).cow a).dirty.lookup d ≠ none) := by
    intro d
    have hcow : (left.world.unwrapOrDefault left.held).1.cow a = w₁.cow a := by
      have hcow' : left.world.cow a = w₁.cow a := cow_congr (by rw [hend.maps])
      cases left.held with
      | none => exact hcow'
      | some q => exact hcow'
    rw [cow_setDirty, hcow]
    refine ⟨htaken.slots, ?_⟩
    intro hd
    simp only [lookup_insert_ite]
    split_ifs with hda
    · simp
    · rw [htaken.dirty d hda]
      exact hd
  have hothers₁ : Others w w₁ [a] := htaken.keeps.others (by simp)
  have hothers₂ : Others w₁ left.world [a] := hend.others [a]
  -- what the merge started from, read in `w`
  have hnow : Held.value (⟨w₁, o, []⟩ : Held K V) = w.entryAt a at_ := by
    funext k
    show valueIn (o.map w₁.shards.mem) k = _
    rw [htaken.shards, ho, ← lookup_getD_map]
    rfl
  have hbefore : valueIn ((w₁.heldShard z at_).map w₁.shards.mem) = w.entryAt z at_ := by
    funext k
    rw [htaken.shards, hheldz, ← lookup_getD_map]
    rfl
  have hforks : w₁.forkedAt forked = w.forkedAt (K := K) forked := by
    unfold forkedAt
    rw [htaken.shards]
  rw [hnow, hbefore, hforks] at hconf
  simp only [hnow, hbefore, hforks] at hval
  refine ⟨_, rfl, hplaced.wf, hothers₁.trans (hothers₂.trans (hplaced.keeps.others (by simp))),
    hplaced.keeps.live, ?_, ?_, ?_, ?_, ?_, ?_, ?_⟩
  · rw [hplaced.keeps.forked, cow_congr (w := w₁) (by rw [hend.maps]), htaken.keeps.forked]
  · exact .inl ⟨(hslots' 0).1, fun _ d hd => (hslots' d).2 hd⟩
  · rw [hloose']
    exact hend.loose
  · intro p hp
    obtain ⟨j, hj⟩ := List.mem_iff_getElem?.1 (hend.loose.subset hp)
    rw [hmem' p (hend.wf.arc_lt (.loose hj)), hend.mem p (.inl hp), htaken.shards]
  · intro i hi hne
    rw [hplaced.contents i hi hne, (hend.contents htaken.keeps.live i).2, htaken.contents hi hne]
  · intro k
    rw [← hval k]
    unfold entryAt
    rw [hplaced.self, lookup_getD_map]
    rfl
  · intro p
    rw [hconf p]
    simp

/-- What installing `groups`, each the shards forks left at one slot, leaves. -/
structure GroupsInstalled (w w' : World K V) (merge : Option (Merge V)) (a z : Nat)
    (groups : List (Sigma fun _ : Nat => Forked)) (conflicted : List Nat) : Prop where
  wf : WF w'
  others : Others w w' [a]
  live : w'.Live a
  forked : (w'.cow a).forked = (w.cow a).forked
  grows : Grows w w' a
  self : ∀ i, i < 2 ^ 32 → i ∉ groups.keys → w'.contents a i = w.contents a i
  lookup : ∀ g ∈ groups, ∀ k, w'.entryAt a g.1 k = threeWayFold merge (w.entryAt z g.1 k)
    (w.entryAt a g.1 k) ((w.forkedAt g.2).map fun e => e.2 k)
  conflict : ∀ p, p ∈ conflicted ↔ ∃ g ∈ groups,
    Clashes merge (w.entryAt z g.1) (w.entryAt a g.1) (w.forkedAt g.2) p

omit [DecidableEq V] in
theorem forkedAt_congr {w' : World K V} {group : Forked}
    (h : ∀ p ∈ ptrsOf group, w'.shards.mem p = w.shards.mem p) :
    w'.forkedAt group = w.forkedAt (K := K) group := by
  refine List.map_congr_left ?_
  rintro ⟨place, o⟩ hmem
  cases o with
  | none => rfl
  | some p =>
    have hp : p ∈ ptrsOf group := List.mem_filterMap.2 ⟨_, hmem, rfl⟩
    rw [Option.map_some, Option.map_some, h p hp]

theorem installGroups_run (merge : Option (Merge V)) (hza : z ≠ a)
    (groups : List (Sigma fun _ : Nat => Forked)) :
    ∀ {w : World K V} (found : List Nat), WF w → w.Live a → w.Live z → groups.NodupKeys →
      (∀ g ∈ groups, g.1 < 2 ^ 32) → pendingOf groups <+~ w.loose →
      ∃ conflicted, (groups.foldl (installGroup merge a z) (w, found)).2 = found ++ conflicted ∧
        GroupsInstalled w (groups.foldl (installGroup merge a z) (w, found)).1 merge a z groups
          conflicted := by
  induction groups with
  | nil =>
    intro w found hw ha _ _ _ _
    exact ⟨[], by simp, hw, .refl _, ha, rfl, .refl, fun _ _ _ => rfl, by simp, by simp⟩
  | cons g groups ih =>
    intro w found hw ha hz hnodup hlt hloose
    rw [List.nodupKeys_cons] at hnodup
    have hg := hlt g (by simp)
    obtain ⟨c, hc, hstep⟩ := installGroup_spec hw ha hz hza merge found hg hloose
    have hz' : z ∉ [a] := by simpa using hza
    rw [List.foldl_cons]
    generalize installGroup merge a z (w, found) g = r at hc hstep
    obtain ⟨w₁, found₁⟩ := r
    simp only at hc hstep
    subst hc
    obtain ⟨conflicted, hlist, hend⟩ := ih (found ++ c) hstep.wf hstep.live
      ((hstep.others.live_iff hz').2 hz) hnodup.2 (fun g' hg' => hlt g' (by simp [hg']))
      hstep.loose
    have hzi : ∀ i, w₁.entryAt z i = w.entryAt z i :=
      fun i => entryAt_congr (hstep.others.contents z hz' hz i)
    have hne : ∀ g' ∈ groups, g'.1 ≠ g.1 := by
      intro g' hg' he
      exact hnodup.1 (he ▸ List.mem_map_of_mem (f := Sigma.fst) hg')
    have hai : ∀ g' ∈ groups, w₁.entryAt a g'.1 = w.entryAt a g'.1 := by
      intro g' hg'
      exact entryAt_congr (hstep.self g'.1 (hlt g' (by simp [hg'])) (hne g' hg'))
    have hforks : ∀ g' ∈ groups, w₁.forkedAt g'.2 = w.forkedAt (K := K) g'.2 := by
      intro g' hg'
      exact forkedAt_congr (fun p hp => hstep.mem p (List.mem_flatMap.2 ⟨g', hg', hp⟩))
    refine ⟨c ++ conflicted, by rw [hlist, List.append_assoc], hend.wf,
      hstep.others.trans hend.others, hend.live, hend.forked.trans hstep.forked,
      Grows.trans_next hstep.forked hstep.others.next hstep.grows hend.grows, ?_, ?_, ?_⟩
    · intro i hi hout
      rw [List.keys_cons, List.mem_cons, not_or] at hout
      rw [hend.self i hi hout.2, hstep.self i hi hout.1]
    · intro g' hg' k
      rcases List.mem_cons.1 hg' with rfl | hg'
      · rw [entryAt_congr (hend.self g'.1 hg hnodup.1)]
        exact hstep.lookup k
      · rw [hend.lookup g' hg' k, hzi, hai g' hg', hforks g' hg']
    · intro p
      rw [List.mem_append, hstep.conflict, hend.conflict]
      simp only [List.mem_cons, exists_eq_or_imp]
      refine or_congr_right ⟨?_, ?_⟩
      · rintro ⟨g', hg', hcl⟩
        rw [hzi, hai g' hg', hforks g' hg'] at hcl
        exact ⟨g', hg', hcl⟩
      · rintro ⟨g', hg', hcl⟩
        refine ⟨g', hg', ?_⟩
        rw [hzi, hai g' hg', hforks g' hg']
        exact hcl

/-! ## §4. The forks together -/

omit [DecidableEq V] in
/-- The shards taken out at slot `i` hold the forks' entries there. -/
theorem forkedAt_groupAt (forks : List (Nat × Nat)) (i : Nat) :
    w.forkedAt (K := K) (w.groupAt z forks i) =
      (forks.filter fun fork => !sameShard (w.heldShard z i) (w.heldShard fork.2 i)).map
        fun fork => (fork.1, w.entryAt fork.2 i) := by
  unfold forkedAt groupAt
  rw [List.map_map]
  refine List.map_congr_left ?_
  intro fork _
  refine Prod.ext rfl ?_
  funext k
  exact (lookup_getD_map _ k).symm

omit [DecidableEq V] in
theorem entryAt_eq_of_same {b i : Nat}
    (h : (!sameShard (w.heldShard z i) (w.heldShard b i)) = false) :
    w.entryAt (K := K) b i = w.entryAt z i := by
  rw [Bool.not_eq_false', sameShard_iff] at h
  unfold entryAt
  rw [contents_eq_of_held_eq h]

/-- **The forks together**: the regrouped install leaves what installing the forks one after
    another leaves. -/
theorem installAll_spec (hw : WF w) (merge : Option (Merge V)) {forks : List (Nat × Nat)}
    (h : Installable w a z forks) :
    InstalledAll w (w.installAll a z forks merge).1 merge a z forks
      (w.installAll a z forks merge).2 := by
  unfold installAll
  split_ifs with hseq
  · exact installEach_spec hw merge h
  · have hnodup := h.nodup
    rw [List.nodup_cons, List.mem_cons, not_or] at hnodup
    obtain ⟨⟨haz, haf⟩, hnodup'⟩ := hnodup
    have hzf := (List.nodup_cons.1 hnodup').1
    have htaken := takeForks_spec forks (s := ∅) hw h.live_z h.live hnodup' h.covers
      (fun i hi => absurd rfl hi) (nil_subperm)
    simp only
    generalize forks.foldl (takeFork z) (w, ∅) = r at htaken ⊢
    obtain ⟨w₁, s⟩ := r
    simp only at htaken ⊢
    have ha₁ := (htaken.others.live_iff haf).2 h.live_a
    have hz₁ := (htaken.others.live_iff hzf).2 h.live_z
    have hkeys : ∀ g ∈ s.entries, g.1 < 2 ^ 32 := by
      intro g hg
      exact htaken.keys g.1 (by rw [(mem_entries_iff s g.1 g.2).1 hg]; simp)
    obtain ⟨conflicted, hlist, hend⟩ := installGroups_run merge (Ne.symm haz) s.entries [] htaken.wf
      ha₁ hz₁ s.nodupKeys hkeys htaken.pending
    rw [List.nil_append] at hlist
    rw [hlist]
    generalize (s.entries.foldl (installGroup merge a z) (w₁, [])).1 = w₂ at hend ⊢
    have hgroup : ∀ i, i < 2 ^ 32 → (s.lookup i).getD [] = w.groupAt z forks i :=
      fun i hi => (htaken.group i hi).trans (List.nil_append _)
    have hzi : ∀ i, w₁.entryAt z i = w.entryAt z i :=
      fun i => entryAt_congr (htaken.others.contents z hzf h.live_z i)
    have hai : ∀ i, w₁.entryAt a i = w.entryAt a i :=
      fun i => entryAt_congr (htaken.others.contents a haf h.live_a i)
    have hforked : ∀ group, w₁.forkedAt group = w.forkedAt (K := K) group := by
      intro group
      unfold forkedAt
      rw [htaken.shards]
    -- a slot under which nothing was filed: no fork changed an entry there
    have hnone : ∀ i, i < 2 ^ 32 → s.lookup i = none → w.groupAt z forks i = [] := by
      intro i hi hs
      rw [← hgroup i hi, hs]
      rfl
    have hsome : ∀ i l, i < 2 ^ 32 → s.lookup i = some l → l = w.groupAt z forks i := by
      intro i l hi hs
      rw [← hgroup i hi, hs]
      rfl
    refine ⟨hend.wf, (htaken.others.mono (by simp; tauto)).trans (hend.others.mono (by simp)),
      hend.live, ?_, ?_, ?_, ?_, ?_⟩
    · intro fork hf
      have hfa : fork.2 ∉ [a] := by
        rw [List.mem_singleton]
        exact fun he => haf (he ▸ List.mem_map_of_mem (f := Prod.snd) hf)
      rw [hend.others.maps _ hfa]
      exact htaken.gone fork hf
    · rw [hend.forked, htaken.others.cow haf]
    · exact hend.grows.after (htaken.others.cow haf) htaken.others.next
    · intro i hi k
      have hfilter := threeWayFold_filter merge (w.entryAt z i)
        (fun fork : Nat × Nat => (fork.1, w.entryAt fork.2 i))
        (fun fork => !sameShard (w.heldShard z i) (w.heldShard fork.2 i)) k forks
        (w.entryAt a i k) (fun _ _ he => entryAt_eq_of_same he)
      rw [← forkedAt_groupAt] at hfilter
      refine Eq.trans ?_ hfilter
      cases hs : s.lookup i with
      | none =>
        have hout : i ∉ s.entries.keys := fun hmem => (mem_keys_iff s i).1 hmem hs
        rw [hnone i hi hs, entryAt_congr (hend.self i hi hout), hai]
        rfl
      | some l =>
        have hlook := hend.lookup ⟨i, l⟩ ((mem_entries_iff s i l).2 hs) k
        rw [hlook, hzi, hai, hforked, hsome i l hi hs]
    · intro p
      rw [List.mem_dedup, List.mem_insertionSort, hend.conflict]
      have hclash : ∀ i, Clashes merge (w.entryAt z i) (w.entryAt a i)
          (w.forkedAt (w.groupAt z forks i)) p ↔
          Clashes merge (w.entryAt z i) (w.entryAt a i) (w.forksAt forks i) p := by
        intro i
        rw [forkedAt_groupAt]
        exact clashes_filter merge (w.entryAt z i)
          (fun fork : Nat × Nat => (fork.1, w.entryAt fork.2 i))
          (fun fork => !sameShard (w.heldShard z i) (w.heldShard fork.2 i)) p forks
          (w.entryAt a i) (fun _ _ he => entryAt_eq_of_same he)
      constructor
      · rintro ⟨⟨i, l⟩, hg, hcl⟩
        have hs := (mem_entries_iff s i l).1 hg
        have hi := htaken.keys i (by rw [hs]; simp)
        simp only [hzi, hai, hforked, hsome i l hi hs] at hcl
        exact ⟨i, hi, (hclash i).1 hcl⟩
      · rintro ⟨i, hi, hcl⟩
        rw [← hclash i] at hcl
        cases hs : s.lookup i with
        | none =>
          rw [hnone i hi hs] at hcl
          exact hcl.elim
        | some l =>
          refine ⟨⟨i, l⟩, (mem_entries_iff s i l).2 hs, ?_⟩
          simp only [hzi, hai, hforked, hsome i l hi hs]
          exact hcl

end GluaLs.Cow.World
