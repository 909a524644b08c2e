/-
  GluaLs.CowShards.Install — an install is the three-way merge of every entry.

  Whatever way a slot goes (skipped because the fork shares its shard with the frozen map,
  taken whole because `self` does, or merged key by key), the entry of each key ends as
  `threeWay` of the frozen map's, `self`'s and the fork's.  `installSlot_spec` is one slot,
  `Installing` the invariant of the loop over the slots, and **`installWith_spec`** the whole
  install: nothing is asked of `self`, and of the fork only that it `Covers` the frozen map.
-/
import GluaLs.CowShards.InstallDef
import GluaLs.CowShards.Writes
import GluaLs.Lib.ThreeWay

namespace GluaLs.Cow

open GluaLs.Lib

variable {K V : Type} [DecidableEq K] [DecidableEq V]

/-! ## §1. The keys the loop visits

  The loop visits only the keys the fork changed, in the fork's iteration order, and empties
  the fork's shard as it goes.  Main results:

    • `mem_changedIn`, `nodup_changedIn` — it visits exactly the keys the fork changed, once,
    • `mergeStep_spec` — one key is one `threeWay`,
    • `mergeShard_lookup`, `mergeShard_conflicted` — the whole loop, at EVERY key.
-/

theorem mem_changedIn (was : Option (Shard K V)) (forked : Shard K V) (k : K) :
    k ∈ changedIn was forked ↔ forked.lookup k ≠ valueIn was k := by
  unfold changedIn
  rw [List.mem_append, List.mem_map, List.mem_filter]
  have hkeys : k ∈ was.toList.flatMap AList.keys ↔ valueIn was k ≠ none := by
    cases was with
    | none => simp [valueIn]
    | some s => simp [valueIn, mem_keys_iff]
  rw [hkeys]
  constructor
  · rintro (⟨⟨k', v⟩, he, rfl⟩ | ⟨hwas, hforked⟩)
    · rw [List.mem_filter] at he
      rw [(mem_entries_iff _ _ _).1 he.1]
      simpa using Ne.symm (by simpa using he.2)
    · intro heq
      rw [Bool.not_eq_true', Option.isSome_eq_false_iff, Option.isNone_iff_eq_none] at hforked
      exact hwas (heq ▸ hforked)
  · intro hne
    cases hv : forked.lookup k with
    | some v =>
      refine .inl ⟨⟨k, v⟩, List.mem_filter.2 ⟨(mem_entries_iff _ _ _).2 hv, ?_⟩, rfl⟩
      rw [hv] at hne
      simpa using Ne.symm hne
    | none =>
      rw [hv] at hne
      exact .inr ⟨Ne.symm hne, by simp⟩

theorem nodup_changedIn (was : Option (Shard K V)) (forked : Shard K V) :
    (changedIn was forked).Nodup := by
  have hleft : ((forked.entries.filter fun e =>
      valueIn was e.1 != some e.2).map Sigma.fst).Nodup :=
    (List.filter_sublist.map Sigma.fst).nodup forked.nodupKeys
  have hright : ((was.toList.flatMap AList.keys).filter fun k =>
      !(forked.lookup k).isSome).Nodup := by
    refine List.Nodup.filter _ ?_
    cases was with
    | none => simp
    | some s =>
      rw [Option.toList_some, List.flatMap_singleton]
      exact s.nodupKeys
  refine List.Nodup.append hleft hright ?_
  intro k hk hk'
  obtain ⟨⟨k', v⟩, he, rfl⟩ := List.mem_map.1 hk
  have hv := (mem_entries_iff _ _ _).1 (List.mem_filter.1 he).1
  have hnone := (List.mem_filter.1 hk').2
  simp only [hv] at hnone
  cases hnone

theorem mem_changedEntries (frozen shard : Option (Shard K V)) (k : K) :
    k ∈ (changedEntries frozen shard).map Prod.fst ↔ valueIn shard k ≠ valueIn frozen k := by
  have hmap : (changedEntries frozen shard).map Prod.fst = changedIn frozen (shard.getD ∅) := by
    unfold changedEntries changedIn
    rw [List.map_append, List.map_map, List.map_map]
    cases shard with
    | none => simp [Function.comp_def]
    | some s => simp [Function.comp_def]
  rw [hmap, mem_changedIn]
  cases shard with
  | none => rfl
  | some s => rfl

/-! ## §2. One key -/

/-- A key the fork changed is merged by `threeWay`; its entry leaves the fork's shard, and no
    other key is written. -/
theorem mergeStep_spec (merge : Option (Merge V)) (was : Option (Shard K V))
    (st : Merging K V) (key : K) (hne : st.forked.lookup key ≠ valueIn was key) :
    (mergeStep merge was st key).forked = st.forked.erase key ∧
    (∀ k, (mergeStep merge was st key).target.lookup k =
      if k = key then
        (threeWay merge (valueIn was key) (st.target.lookup key) (st.forked.lookup key)).1
      else st.target.lookup k) ∧
    (mergeStep merge was st key).conflicted = (st.conflicted ||
      (threeWay merge (valueIn was key) (st.target.lookup key) (st.forked.lookup key)).2) := by
  unfold mergeStep threeWay
  generalize valueIn was key = before at hne ⊢
  generalize st.forked.lookup key = value at hne ⊢
  have hput : ∀ (s : Shard K V) (o : Option V) (k : K),
      (World.putValue s key o).lookup k = if k = key then o else s.lookup k :=
    fun s o k => World.lookup_putValue s key o k
  have herase : ∀ (o : Option V) (k : K), (World.putValue (st.target.erase key) key o).lookup k
      = if k = key then o else st.target.lookup k := by
    intro o k
    rw [hput, lookup_erase_ite]
    split_ifs <;> rfl
  by_cases hnow : st.target.lookup key = before
  · simp only [if_neg hne, if_pos hnow, if_pos (beq_iff_eq.2 hnow)]
    exact ⟨trivial, hput _ _, by simp⟩
  · simp only [if_neg hne, if_neg hnow, if_neg (mt beq_iff_eq.1 hnow)]
    cases merge with
    | some merge =>
      simp only
      cases merge (st.target.lookup key) before value with
      | ok merged => exact ⟨rfl, herase _, by simp⟩
      | error _ =>
        refine ⟨rfl, herase _, ?_⟩
        by_cases hid : st.target.lookup key = value <;> simp [hid]
    | none =>
      by_cases hid : st.target.lookup key = value
      · simp only [hid, beq_self_eq_true, if_true]
        refine ⟨trivial, ?_, by simp⟩
        intro k
        split_ifs with hk
        · rw [hk, hid]
        · rfl
      · simp only [beq_eq_false_iff_ne.2 hid, Bool.false_eq_true, if_false, if_neg hid]
        exact ⟨trivial, hput _ _, by simp⟩

/-! ## §3. The loop -/

section

variable (merge : Option (Merge V)) (was : Option (Shard K V))

/-- The loop over keys the fork changed, each once: those are merged, no other is written. -/
theorem mergeSteps_spec (forked : Shard K V)
    (l : List K) : ∀ (st : Merging K V), l.Nodup →
      (∀ k ∈ l, forked.lookup k ≠ valueIn was k) →
      (∀ k ∈ l, st.forked.lookup k = forked.lookup k) →
      (∀ k, (l.foldl (mergeStep merge was) st).target.lookup k =
        if k ∈ l then (threeWay merge (valueIn was k) (st.target.lookup k) (forked.lookup k)).1
        else st.target.lookup k) ∧
      ((l.foldl (mergeStep merge was) st).conflicted = true ↔
        st.conflicted = true ∨ ∃ k ∈ l,
          (threeWay merge (valueIn was k) (st.target.lookup k) (forked.lookup k)).2 = true) := by
  induction l with
  | nil => intro st _ _ _; simp
  | cons key l ih =>
    intro st hnodup hchanged hforked
    rw [List.nodup_cons] at hnodup
    have hkey := hforked key (by simp)
    have hne : st.forked.lookup key ≠ valueIn was key := hkey ▸ hchanged key (by simp)
    obtain ⟨hrem, htarget, hconf⟩ := mergeStep_spec merge was st key hne
    rw [hkey] at htarget hconf
    have hforked' : ∀ k ∈ l, (mergeStep merge was st key).forked.lookup k = forked.lookup k := by
      intro k hk
      have hkk : k ≠ key := fun he => hnodup.1 (he ▸ hk)
      rw [hrem, lookup_erase_ite, if_neg hkk]
      exact hforked k (by simp [hk])
    -- a key of the rest is still as it was when its turn comes
    have hrest : ∀ k ∈ l, (mergeStep merge was st key).target.lookup k = st.target.lookup k := by
      intro k hk
      rw [htarget, if_neg (fun he : k = key => hnodup.1 (he ▸ hk))]
    obtain ⟨hlook, hcon⟩ := ih _ hnodup.2 (fun k hk => hchanged k (by simp [hk])) hforked'
    rw [List.foldl_cons]
    constructor
    · intro k
      rw [hlook k]
      by_cases hk : k ∈ l
      · rw [if_pos hk, if_pos (by simp [hk]), hrest k hk]
      · rw [if_neg hk, htarget k]
        by_cases hkk : k = key
        · subst hkk
          simp
        · simp [hk, hkk]
    · rw [hcon, hconf]
      simp only [Bool.or_eq_true, List.mem_cons, exists_eq_or_imp, or_assoc]
      refine or_congr_right (or_congr_right ⟨?_, ?_⟩)
      · rintro ⟨k, hk, h⟩
        exact ⟨k, hk, hrest k hk ▸ h⟩
      · rintro ⟨k, hk, h⟩
        exact ⟨k, hk, (hrest k hk).symm ▸ h⟩

/-- **The loop merges every key.** -/
theorem mergeShard_lookup (forked target : Shard K V) (k : K) :
    (mergeShard merge was forked target).1.lookup k =
      (threeWay merge (valueIn was k) (target.lookup k) (forked.lookup k)).1 := by
  have hspec := (mergeSteps_spec merge was forked (changedIn was forked) ⟨forked, target, false⟩
    (nodup_changedIn was forked) (fun k hk => (mem_changedIn was forked k).1 hk)
    (fun _ _ => rfl)).1 k
  unfold mergeShard
  rw [hspec]
  split_ifs with hk
  · rfl
  · rw [mem_changedIn, not_not] at hk
    rw [hk, threeWay_unchanged]

/-- It conflicts when some key does. -/
theorem mergeShard_conflicted (forked target : Shard K V) :
    (mergeShard merge was forked target).2 = true ↔
      ∃ k, (threeWay merge (valueIn was k) (target.lookup k) (forked.lookup k)).2 = true := by
  have hspec := (mergeSteps_spec merge was forked (changedIn was forked) ⟨forked, target, false⟩
    (nodup_changedIn was forked) (fun k hk => (mem_changedIn was forked k).1 hk)
    (fun _ _ => rfl)).2
  unfold mergeShard
  rw [hspec]
  constructor
  · rintro (h | ⟨k, -, h⟩)
    · cases h
    · exact ⟨k, h⟩
  · rintro ⟨k, h⟩
    refine .inr ⟨k, ?_, h⟩
    rw [mem_changedIn]
    intro heq
    rw [heq, threeWay_unchanged] at h
    cases h

end

end GluaLs.Cow

namespace GluaLs.Cow.World

open GluaLs.Lib

section

variable {K V : Type} {w : World K V} {n : Nat}

/-! ## §4. Maps that stay as they are

    • `Others` — every map outside a list of names stands as it did,
    • `takeHeldShard_spec` — a shard is taken out, from the overlay or from the table,
    • `placeShard_spec` — a shard is filed in the overlay or in the table,
    • `installShardMut_spec` — the shard the merge loop writes is the map's own,
    • `heldShard_eq_of_not_mem_forkedSlots` — a slot `forked_slots` leaves out holds the SAME
      shard in the fork and in the map it was forked from.
-/

/-- **The frame of an operation on the maps `s`**: every other map stands as it did. -/
structure Others (w w' : World K V) (s : List Nat) : Prop where
  maps : ∀ m, m ∉ s → w'.maps.lookup m = w.maps.lookup m
  held : ∀ m, m ∉ s → w.Live m → ∀ i, w'.heldShard m i = w.heldShard m i
  contents : ∀ m, m ∉ s → w.Live m → ∀ i, w'.contents m i = w.contents m i
  next : w.tables.next ≤ w'.tables.next

theorem Others.refl (s : List Nat) : Others w w s :=
  ⟨fun _ _ => rfl, fun _ _ _ _ => rfl, fun _ _ _ _ => rfl, le_rfl⟩

theorem Others.live_iff {w' : World K V} {s : List Nat} (h : Others w w' s) {m : Nat}
    (hm : m ∉ s) : w'.Live m ↔ w.Live m := by
  simp only [Live, h.maps m hm]

theorem Others.cow {w' : World K V} {s : List Nat} (h : Others w w' s) {m : Nat}
    (hm : m ∉ s) : w'.cow m = w.cow m :=
  cow_congr (h.maps m hm)

theorem Others.trans {w' w'' : World K V} {s : List Nat} (h : Others w w' s)
    (h' : Others w' w'' s) : Others w w'' s where
  maps m hm := (h'.maps m hm).trans (h.maps m hm)
  held m hm hl i := (h'.held m hm ((h.live_iff hm).2 hl) i).trans (h.held m hm hl i)
  contents m hm hl i := (h'.contents m hm ((h.live_iff hm).2 hl) i).trans (h.contents m hm hl i)
  next := h.next.trans h'.next

theorem Keeps.others {w' : World K V} {s : List Nat} (h : Keeps w w' n) (hn : n ∈ s) :
    Others w w' s where
  maps m hm := h.maps m (ne_of_mem_of_not_mem hn hm).symm
  held _ hm hl i := h.heldShard_eq (ne_of_mem_of_not_mem hn hm).symm hl i
  contents _ hm hl i := h.contents_eq (ne_of_mem_of_not_mem hn hm).symm hl i
  next := h.next

theorem Others.mono {w' : World K V} {s t : List Nat} (h : Others w w' s)
    (hst : ∀ m, m ∈ s → m ∈ t) : Others w w' t where
  maps m hm := h.maps m (fun he => hm (hst m he))
  held m hm := h.held m (fun he => hm (hst m he))
  contents m hm := h.contents m (fun he => hm (hst m he))
  next := h.next

theorem lookup_dropMap (m : Nat) :
    (w.dropMap n).maps.lookup m = if m = n then none else w.maps.lookup m :=
  lookup_erase_ite w.maps n m

theorem others_dropMap {s : List Nat} (hn : n ∈ s) : Others w (w.dropMap n) s := by
  have hmaps : ∀ m, m ∉ s → (w.dropMap n).maps.lookup m = w.maps.lookup m := by
    intro m hm
    rw [lookup_dropMap, if_neg (ne_of_mem_of_not_mem hn hm).symm]
  have hheld : ∀ m, m ∉ s → ∀ i, (w.dropMap n).heldShard m i = w.heldShard m i := by
    intro m hm i
    unfold heldShard table
    rw [cow_congr (hmaps m hm)]
    rfl
  refine ⟨hmaps, fun m hm _ i => hheld m hm i, ?_, le_rfl⟩
  intro m hm _ i
  unfold World.contents
  rw [hheld m hm i]
  rfl

theorem hasArc_dropMap {place : Place} {p : Ptr} (h : HasArc (w.dropMap n) place p) :
    HasArc w place p := by
  rcases h with ⟨hm, hd⟩ | ⟨hm, hi⟩ | hi
  · rw [lookup_dropMap] at hm
    split_ifs at hm
    exact .dirty hm hd
  · rw [lookup_dropMap] at hm
    split_ifs at hm
    exact .slot hm hi
  · exact .loose hi

theorem wf_dropMap (hw : WF w) (n : Nat) : WF (w.dropMap n) where
  table_lt := by
    intro m c hm
    rw [lookup_dropMap] at hm
    split_ifs at hm
    exact hw.table_lt hm
  table_len := by
    intro m c hm
    rw [lookup_dropMap] at hm
    split_ifs at hm
    exact hw.table_len hm
  arc_lt h := hw.arc_lt (hasArc_dropMap h)

/-! ## §5. Taking a shard out -/

/-- What `take_held_shard` leaves. -/
structure Taken (w w' : World K V) (n at_ : Nat) : Prop where
  keeps : Keeps w w' n
  wf : WF w'
  shards : w'.shards = w.shards
  loose : w'.loose = w.loose
  slots : (w'.cow n).slots = (w.cow n).slots
  held : ∀ i, i < 2 ^ 32 → i ≠ at_ → w'.heldShard n i = w.heldShard n i
  dirty : ∀ d, d ≠ at_.toUInt32 → (w'.cow n).dirty.lookup d = (w.cow n).dirty.lookup d

theorem cow_eraseDirty (d : UInt32) :
    (w.eraseDirty n d).cow n = { w.cow n with dirty := (w.cow n).dirty.erase d } :=
  cow_put _

theorem table_eraseDirty (d : UInt32) : (w.eraseDirty n d).table n = w.table n := by
  unfold table
  rw [cow_eraseDirty]
  rfl

theorem taken_eraseDirty (hw : WF w) (hn : w.Live n) {at_ : Nat} (hat : at_ < 2 ^ 32) :
    Taken w (w.eraseDirty n at_.toUInt32) n at_ where
  keeps := keeps_put _ rfl
  wf := by
    refine wf_put hw hn rfl ?_
    intro d p hd
    exact hw.arc_lt (.dirty hn.lookup (lookup_erase_some hd).2)
  shards := rfl
  loose := rfl
  slots := by rw [cow_eraseDirty]
  held := by
    intro i hi hne
    have hne32 : i.toUInt32 ≠ at_.toUInt32 := fun he => hne (toUInt32_inj hi hat he)
    unfold heldShard
    rw [table_eraseDirty, cow_eraseDirty]
    simp only [lookup_erase_ite, if_neg hne32]
  dirty := by
    intro d hd
    rw [cow_eraseDirty]
    simp only [lookup_erase_ite, if_neg hd]

theorem takeHeldShard_spec (hw : WF w) (hn : w.Live n) {at_ : Nat} (hat : at_ < 2 ^ 32) :
    Taken w (w.takeHeldShard n at_).1 n at_ ∧ (w.takeHeldShard n at_).2 = w.heldShard n at_ := by
  unfold takeHeldShard heldShard
  cases hd : (w.cow n).dirty.lookup at_.toUInt32 with
  | some p => exact ⟨taken_eraseDirty hw hn hat, rfl⟩
  | none =>
    unfold takeSlot
    split_ifs with hs
    · refine ⟨⟨keeps_setSlot hn hs _ _, wf_setSlot hw hn hs _ (by simp), rfl, rfl, rfl, ?_,
        fun _ _ => rfl⟩, rfl⟩
      intro i _ hne
      unfold heldShard
      rw [table_setSlot, cow_setSlot, List.getElem?_set_ne (Ne.symm hne)]
    · exact ⟨⟨.refl hn, hw, rfl, rfl, rfl, fun _ _ _ => rfl, fun _ _ => rfl⟩, rfl⟩

theorem Taken.contents {w' : World K V} {at_ i : Nat} (h : Taken w w' n at_) (hi : i < 2 ^ 32)
    (hne : i ≠ at_) : w'.contents n i = w.contents n i := by
  unfold World.contents
  rw [h.held i hi hne, h.shards]

/-! ## §6. Placing a shard -/

/-- What filing the shard `o` at slot `at` leaves. -/
structure PlacedShard (w w' : World K V) (n at_ : Nat) (o : Option Ptr) : Prop where
  keeps : Keeps w w' n
  wf : WF w'
  grows : Grows w w' n
  self : w'.contents n at_ = (o.map w.shards.mem).getD ∅
  contents : ∀ i, i < 2 ^ 32 → i ≠ at_ → w'.contents n i = w.contents n i

theorem contents_congr_held {w' : World K V} {i : Nat} (hw : WF w) (hn : w.Live n)
    (hheld : w'.heldShard n i = w.heldShard n i)
    (hmem : ∀ p, p < w.shards.next → w'.shards.mem p = w.shards.mem p) :
    w'.contents n i = w.contents n i := by
  unfold World.contents
  rw [hheld]
  cases hp : w.heldShard n i with
  | none => rfl
  | some p => exact hmem p (hw.held_lt hn hp)

section

variable (hw : WF w) (hn : w.Live n)
include hw hn

/-- A shard filed in the overlay. -/
theorem placed_setDirty {at_ : Nat} (hat : at_ < 2 ^ 32) {p : Ptr} (hp : p < w.shards.next) :
    PlacedShard w (w.setDirty n at_.toUInt32 p) n at_ (some p) where
  keeps := keeps_setDirty _ _
  wf := wf_setDirty hw hn _ hp
  grows := grows_setDirty _ _
  self := by
    have hheld : (w.setDirty n at_.toUInt32 p).heldShard n at_ = some p := by
      rw [heldShard_setDirty _ _ _ hat hat, if_pos rfl]
    rw [contents_of_held hheld]
    rfl
  contents i hi hne := by
    refine contents_congr_held hw hn ?_ (fun _ _ => rfl)
    rw [heldShard_setDirty _ _ _ hat hi, if_neg hne]

/-- The shard to be filed in the overlay: the fork's, or a new empty one. -/
theorem placed_unwrapOrDefault {at_ : Nat} (hat : at_ < 2 ^ 32)
    {o : Option Ptr} (ho : ∀ p, o = some p → p < w.shards.next) :
    PlacedShard w ((w.unwrapOrDefault o).1.setDirty n at_.toUInt32 (w.unwrapOrDefault o).2)
      n at_ o := by
  cases o with
  | some p => exact placed_setDirty hw hn hat (ho p rfl)
  | none =>
    have hplaced := placed_setDirty (w := (w.newShard ∅).1) (wf_newShard hw ∅) hn hat
      (p := w.shards.next) (Nat.lt_succ_self _)
    have hk := keeps_newShard hw hn ∅
    refine ⟨hk.trans hplaced.keeps, hplaced.wf, Grows.refl.trans hk hplaced.grows, ?_, ?_⟩
    · exact hplaced.self.trans (mem_newShard_self _)
    · intro i hi hne
      refine (hplaced.contents i hi hne).trans ?_
      exact contents_congr_held hw hn rfl (fun p hp => mem_newShard _ hp)

/-- A shard filed in the map's own table, where the overlay has no entry. -/
theorem placed_setSlot {at_ : Nat} (hs : w.soleTable n = true) (hlt : at_ < (w.table n).length)
    (hd : (w.cow n).dirty.lookup at_.toUInt32 = none) {o : Option Ptr}
    (ho : ∀ p, o = some p → p < w.shards.next) : PlacedShard w (w.setSlot n at_ o) n at_ o where
  keeps := keeps_setSlot hn hs _ _
  wf := wf_setSlot hw hn hs _ ho
  grows := .refl
  self := by
    show (((w.setSlot n at_ o).heldShard n at_).map w.shards.mem).getD ∅ = _
    rw [heldShard_setSlot _ _ _ hlt, if_pos rfl, hd, Option.none_or]
  contents i _ hne := by
    refine contents_congr_held hw hn ?_ (fun _ _ => rfl)
    rw [heldShard_setSlot _ _ _ hlt, if_neg hne]

theorem placeShard_spec {at_ : Nat} (hat : at_ < 2 ^ 32)
    {o : Option Ptr} (ho : ∀ p, o = some p → p < w.shards.next) :
    PlacedShard w (w.placeShard n at_ o).1 n at_ o ∧
      ∀ p, (w.placeShard n at_ o).2 = some p → p < (w.placeShard n at_ o).1.shards.next := by
  have hkept : ∀ p, (w.cow n).dirty.lookup at_.toUInt32 = some p → p < w.shards.next :=
    fun p hp => hw.arc_lt (.dirty hn.lookup hp)
  unfold placeShard
  by_cases happ : w.writesApart n
  · simp only [if_pos happ]
    refine ⟨placed_unwrapOrDefault hw hn hat ho, ?_⟩
    intro p hp
    have hlt := hkept p hp
    cases o with
    | some _ => exact hlt
    | none => exact Nat.lt_succ_of_lt hlt
  · simp only [if_neg happ]
    simp only [writesApart, Bool.or_eq_true, not_or, Bool.not_eq_true] at happ
    have htaken := taken_eraseDirty hw hn hat
    have hms := slotsMut_spec htaken.wf htaken.keeps.live at_ hat
    have hd : (((w.eraseDirty n at_.toUInt32).slotsMut n at_).cow n).dirty.lookup at_.toUInt32
        = none := by
      rw [hms.dirty, cow_eraseDirty]
      simp
    have hf : (((w.eraseDirty n at_.toUInt32).slotsMut n at_).cow n).forked = false :=
      hms.keeps.forked.trans (htaken.keeps.forked.trans happ.1)
    have hmem : ((w.eraseDirty n at_.toUInt32).slotsMut n at_).shards = w.shards := hms.shards
    generalize (w.eraseDirty n at_.toUInt32).slotsMut n at_ = w₁ at hms hd hf hmem
    have hplaced := placed_setSlot hms.wf hms.keeps.live hms.sole hms.lt hd
      (o := o) (fun p hp => hmem ▸ ho p hp)
    refine ⟨⟨htaken.keeps.trans (hms.keeps.trans hplaced.keeps), hplaced.wf,
      hms.slots.imp_left fun hslots => ⟨hslots.trans (by rw [cow_eraseDirty]), fun hf' => ?_⟩,
      ?_, ?_⟩, ?_⟩
    · rw [happ.1] at hf'
      cases hf'
    · rw [hplaced.self, hmem]
    · intro i hi hne
      rw [hplaced.contents i hi hne, ← htaken.contents hi hne]
      unfold World.contents
      rw [hms.heldShard, hmem]
      rfl
    · intro p hp
      show p < w₁.shards.next
      rcases Option.or_eq_some_iff.1 hp with hslot | ⟨-, hp⟩
      · exact hms.wf.arc_lt (.slot hms.keeps.live.lookup (Option.join_eq_some_iff.1 hslot))
      · rw [hmem]
        exact hkept p hp

theorem installShardMut_spec {at_ : Nat} (hat : at_ < 2 ^ 32) :
    MadeMut w (w.installShardMut n at_).1 n at_ (w.installShardMut n at_).2 := by
  unfold installShardMut
  split_ifs
  · exact shardMut_spec hw hn hat
  · exact dirtyMut_spec hw hn hat

end

/-! ## §7. The slots a fork may have changed -/

theorem contents_eq_of_held_eq {m m' i : Nat} (h : w.heldShard m i = w.heldShard m' i) :
    w.contents m i = w.contents m' i := by
  unfold contents
  rw [h]

theorem lookup_getD_map [DecidableEq K] (o : Option Ptr) (k : K) :
    ((o.map w.shards.mem).getD ∅).lookup k = valueIn (o.map w.shards.mem) k := by
  cases o <;> rfl

theorem sameShard_iff (a b : Option Ptr) : sameShard a b = true ↔ a = b := by
  cases a <;> cases b <;> simp [sameShard]

/-- The overlay of `b`, while it shares its table with `z`, covers that of `z`: what a fork of
    `z` keeps. -/
def Covers (w : World K V) (z b : Nat) : Prop :=
  (w.cow b).slots = (w.cow z).slots →
    ∀ d, (w.cow z).dirty.lookup d ≠ none → (w.cow b).dirty.lookup d ≠ none

theorem Covers.of_others {w' : World K V} {s : List Nat} {z b : Nat} (h : Others w w' s)
    (hz : z ∉ s) (hb : b ∉ s) (hcov : Covers w z b) : Covers w' z b := by
  unfold Covers
  rw [h.cow hz, h.cow hb]
  exact hcov

theorem nodup_forkedSlots (w : World K V) (z b : Nat) : (w.forkedSlots z b).Nodup := by
  unfold forkedSlots
  split_ifs
  · exact List.Nodup.map (fun a b hab => UInt32.toNat_inj.1 hab) (w.cow b).dirty.nodupKeys
  · exact List.nodup_range

theorem lt_of_mem_forkedSlots (hw : WF w) {z b : Nat} (hz : w.Live z) (hb : w.Live b) {i : Nat}
    (h : i ∈ w.forkedSlots z b) : i < 2 ^ 32 := by
  unfold forkedSlots at h
  split_ifs at h
  · obtain ⟨d, -, rfl⟩ := List.mem_map.1 h
    exact d.toNat_lt
  · have hmax := Nat.max_le.2 ⟨slotEnd_le hw hz, slotEnd_le hw hb⟩
    exact lt_of_lt_of_le (List.mem_range.1 h) hmax

/-- **A slot left out holds the same shard.** -/
theorem heldShard_eq_of_not_mem_forkedSlots {z b : Nat} (hcov : Covers w z b) {i : Nat}
    (hi : i < 2 ^ 32) (h : i ∉ w.forkedSlots z b) : w.heldShard b i = w.heldShard z i := by
  unfold forkedSlots at h
  split_ifs at h with hslots
  · rw [beq_iff_eq] at hslots
    have hnone : (w.cow b).dirty.lookup i.toUInt32 = none := by
      by_contra hne
      exact h (List.mem_map.2 ⟨_, (mem_keys_iff _ _).2 hne, toUInt32_toNat hi⟩)
    have hnone' : (w.cow z).dirty.lookup i.toUInt32 = none := by
      by_contra hne
      exact hcov hslots _ hne hnone
    unfold heldShard table
    rw [hnone, hnone', hslots]
  · -- past the end of both maps
    have hout : ∀ m, w.slotEnd m ≤ i → w.heldShard m i = none := by
      intro m hm
      by_contra hne
      obtain ⟨p, hp⟩ := Option.ne_none_iff_exists'.1 hne
      exact absurd (lt_slotEnd hi hp) (Nat.not_lt_of_le hm)
    rw [List.mem_range, Nat.not_lt] at h
    rw [hout b ((Nat.le_max_right _ _).trans h), hout z ((Nat.le_max_left _ _).trans h)]

end

variable {K V : Type} [DecidableEq K] [DecidableEq V] {w : World K V} {a z b : Nat}

/-! ## §8. One slot -/

/-- The three-way merge of the entry of `k` in slot `i`. -/
def mergedAt (w : World K V) (merge : Option (Merge V)) (a z b i : Nat) (k : K) : Option V × Bool :=
  threeWay merge ((w.contents z i).lookup k) ((w.contents a i).lookup k)
    ((w.contents b i).lookup k)

/-- What installing slot `at` leaves. -/
structure SlotInstalled (w w' : World K V) (merge : Option (Merge V)) (a z b at_ : Nat)
    (conflicted : Bool) : Prop where
  wf : WF w'
  others : Others w w' [a, b]
  live_a : w'.Live a
  live_b : w'.Live b
  forked : (w'.cow a).forked = (w.cow a).forked
  grows : Grows w w' a
  self : ∀ i, i < 2 ^ 32 → i ≠ at_ → w'.contents a i = w.contents a i
  fork : ∀ i, i < 2 ^ 32 → i ≠ at_ → w'.contents b i = w.contents b i
  lookup : ∀ k, (w'.contents a at_).lookup k = (w.mergedAt merge a z b at_ k).1
  conflict : conflicted = true ↔ ∃ k, (w.mergedAt merge a z b at_ k).2 = true

/-- A shard the fork shares with the frozen map: nothing changed. -/
theorem slotInstalled_skip (hw : WF w) (ha : w.Live a) (hb : w.Live b)
    (merge : Option (Merge V)) {at_ : Nat} (h : w.heldShard z at_ = w.heldShard b at_) :
    SlotInstalled w w merge a z b at_ false := by
  have hmerged : ∀ k, w.mergedAt merge a z b at_ k = ((w.contents a at_).lookup k, false) := by
    intro k
    unfold mergedAt
    rw [contents_eq_of_held_eq h, threeWay_unchanged]
  refine ⟨hw, .refl _, ha, hb, rfl, .refl, fun _ _ _ => rfl, fun _ _ _ => rfl, ?_, ?_⟩
  · intro k
    rw [hmerged]
  · simp [hmerged]

/-- A shard `self` shares with the frozen map: the fork's is taken whole. -/
theorem slotInstalled_take {w₁ w₂ : World K V} {o : Option Ptr} (ha : w.Live a)
    (hab : a ≠ b) (merge : Option (Merge V)) {at_ : Nat} (h₁ : Taken w w₁ b at_)
    (ho : o = w.heldShard b at_) (hsame : w.heldShard z at_ = w.heldShard a at_)
    (h₂ : PlacedShard w₁ w₂ a at_ o) : SlotInstalled w w₂ merge a z b at_ false := by
  have hmerged : ∀ k, w.mergedAt merge a z b at_ k = ((w.contents b at_).lookup k, false) := by
    intro k
    unfold mergedAt
    rw [contents_eq_of_held_eq hsame, threeWay_start]
  have hcow : w₁.cow a = w.cow a := cow_congr (h₁.keeps.maps a hab)
  have hb₁ : w₁.Live b := h₁.keeps.live
  refine ⟨h₂.wf, (h₁.keeps.others (by simp)).trans (h₂.keeps.others (by simp)), h₂.keeps.live,
    ?_, ?_, ?_, ?_, ?_, ?_, ?_⟩
  · rw [Live, h₂.keeps.maps b hab.symm]
    exact hb₁
  · rw [h₂.keeps.forked, hcow]
  · exact h₂.grows.after hcow h₁.keeps.next
  · intro i hi hne
    rw [h₂.contents i hi hne, h₁.keeps.contents_eq hab ha]
  · intro i hi hne
    rw [h₂.keeps.contents_eq hab.symm hb₁, h₁.contents hi hne]
  · intro k
    rw [hmerged, h₂.self, h₁.shards, ho]
    rfl
  · simp [hmerged]

/-- A shard all three hold apart: the merge loop writes it key by key. -/
theorem slotInstalled_merge {w₁ w₂ : World K V} {o : Option Ptr} {q : Ptr} (ha : w.Live a)
    (hab : a ≠ b) (merge : Option (Merge V)) {at_ : Nat} (hat : at_ < 2 ^ 32)
    (h₁ : Taken w w₁ b at_) (ho : o = w.heldShard b at_) (h₂ : MadeMut w₁ w₂ a at_ q) :
    SlotInstalled w (w₂.writeShard q (mergeShard merge ((w.heldShard z at_).map w₁.shards.mem)
        ((o.map w₁.shards.mem).getD ∅) (w₂.shards.mem q)).1) merge a z b at_
      (mergeShard merge ((w.heldShard z at_).map w₁.shards.mem)
        ((o.map w₁.shards.mem).getD ∅) (w₂.shards.mem q)).2 := by
  have ha₁ : w₁.Live a := by
    rw [Live, h₁.keeps.maps a hab]
    exact ha
  have hb₁ : w₁.Live b := h₁.keeps.live
  have hcow : w₁.cow a = w.cow a := cow_congr (h₁.keeps.maps a hab)
  have hw₂ := h₂.write h₁.wf ha₁ hat (mergeShard merge ((w.heldShard z at_).map w₁.shards.mem)
    ((o.map w₁.shards.mem).getD ∅) (w₂.shards.mem q)).1
  have hmerged : ∀ k, w.mergedAt merge a z b at_ k
      = threeWay merge (valueIn ((w.heldShard z at_).map w₁.shards.mem) k)
        ((w₂.shards.mem q).lookup k) (((o.map w₁.shards.mem).getD ∅).lookup k) := by
    intro k
    unfold mergedAt
    rw [h₂.mem_self, h₁.keeps.contents_eq hab ha, h₁.shards, ho, ← lookup_getD_map]
    rfl
  refine ⟨hw₂.wf, (h₁.keeps.others (by simp)).trans (hw₂.keeps.others (by simp)), hw₂.keeps.live,
    ?_, ?_, ?_, ?_, ?_, ?_, ?_⟩
  · rw [Live, hw₂.keeps.maps b hab.symm]
    exact hb₁
  · rw [hw₂.keeps.forked, hcow]
  · exact hw₂.grows.after hcow h₁.keeps.next
  · intro i hi hne
    rw [contents_writeShard_ne (h₂.owned.ne_of_ne h₂.keeps.live hat hi hne),
      h₂.contents_ne h₁.wf ha₁ hi hne, h₁.keeps.contents_eq hab ha]
  · intro i hi hne
    rw [hw₂.keeps.contents_eq hab.symm hb₁, h₁.contents hi hne]
  · intro k
    rw [contents_writeShard_self h₂.owned.held, mergeShard_lookup, hmerged]
  · rw [mergeShard_conflicted]
    simp only [hmerged]

/-- **One slot of an install.** -/
theorem installSlot_spec (hw : WF w) (ha : w.Live a) (hb : w.Live b) (hab : a ≠ b)
    (merge : Option (Merge V)) (conflicted : Bool) {at_ : Nat} (hat : at_ < 2 ^ 32) :
    ∃ c, (installSlot merge a z b (w, conflicted) at_).2 = (conflicted || c) ∧
      SlotInstalled w (installSlot merge a z b (w, conflicted) at_).1 merge a z b at_ c := by
  obtain ⟨htaken, ho⟩ := takeHeldShard_spec hw hb hat
  have ha₁ : (w.takeHeldShard b at_).1.Live a := by
    rw [Live, htaken.keeps.maps a hab]
    exact ha
  unfold installSlot
  simp only
  generalize w.takeHeldShard b at_ = r at htaken ho ha₁ ⊢
  obtain ⟨w₁, o⟩ := r
  simp only at htaken ho ha₁ ⊢
  by_cases hskip : sameShard (w.heldShard z at_) (w.heldShard b at_) = true
  · rw [if_pos hskip]
    exact ⟨false, by simp, slotInstalled_skip hw ha hb merge ((sameShard_iff _ _).1 hskip)⟩
  · rw [if_neg hskip]
    by_cases htake : sameShard (w.heldShard z at_) (w₁.heldShard a at_) = true
    · rw [if_pos htake]
      have hlt : ∀ p, o = some p → p < w₁.shards.next := by
        intro p hp
        rw [htaken.shards]
        exact hw.held_lt hb (ho ▸ hp)
      obtain ⟨hplaced, hrep⟩ := placeShard_spec htaken.wf ha₁ hat hlt
      have hsame := (sameShard_iff _ _).1 htake
      rw [htaken.keeps.heldShard_eq hab ha] at hsame
      have hinst := slotInstalled_take (z := z) ha hab merge htaken ho hsame hplaced
      refine ⟨false, by simp, ?_⟩
      exact ⟨wf_hold hinst.wf (fun p hp => hrep p (Option.mem_toList.1 hp)),
        hinst.others.trans ((keeps_hold (n := a) hinst.live_a _).others (by simp)),
        hinst.live_a, hinst.live_b, hinst.forked, hinst.grows, hinst.self, hinst.fork,
        hinst.lookup, hinst.conflict⟩
    · rw [if_neg htake]
      exact ⟨_, rfl, slotInstalled_merge ha hab merge hat htaken ho
        (installShardMut_spec htaken.wf ha₁ hat)⟩

/-! ## §9. The loop over the slots -/

/-- The invariant of the loop, with the slots still to come: those are as they were, in `self`
    and in the fork; every other slot of `self` is merged. -/
structure Installing (w₀ w : World K V) (merge : Option (Merge V)) (a z b : Nat)
    (rest : List Nat) (conflicted : Bool) : Prop where
  wf : WF w
  others : Others w₀ w [a, b]
  live_a : w.Live a
  live_b : w.Live b
  forked : (w.cow a).forked = (w₀.cow a).forked
  grows : Grows w₀ w a
  self : ∀ i ∈ rest, w.contents a i = w₀.contents a i
  fork : ∀ i ∈ rest, w.contents b i = w₀.contents b i
  lookup : ∀ i, i < 2 ^ 32 → i ∉ rest → ∀ k,
    (w.contents a i).lookup k = (w₀.mergedAt merge a z b i k).1
  conflict : conflicted = true ↔
    ∃ i, i < 2 ^ 32 ∧ i ∉ rest ∧ ∃ k, (w₀.mergedAt merge a z b i k).2 = true

theorem Installing.step {w₀ : World K V} {merge : Option (Merge V)} {at_ : Nat} {rest : List Nat}
    {conflicted : Bool} (hab : a ≠ b) (hza : z ≠ a) (hzb : z ≠ b) (hz : w₀.Live z)
    (h : Installing w₀ w merge a z b (at_ :: rest) conflicted) (hnodup : at_ ∉ rest)
    (hlt : ∀ i ∈ at_ :: rest, i < 2 ^ 32) :
    Installing w₀ (installSlot merge a z b (w, conflicted) at_).1 merge a z b rest
      (installSlot merge a z b (w, conflicted) at_).2 := by
  have hat := hlt at_ (by simp)
  obtain ⟨c, hc, hslot⟩ := installSlot_spec (z := z) h.wf h.live_a h.live_b hab merge conflicted hat
  have hmerged : ∀ k, w.mergedAt merge a z b at_ k = w₀.mergedAt merge a z b at_ k := by
    intro k
    unfold mergedAt
    rw [h.self at_ (by simp), h.fork at_ (by simp), h.others.contents z (by simp [hza, hzb]) hz]
  have hne : ∀ i ∈ rest, i ≠ at_ := fun i hi he => hnodup (he ▸ hi)
  refine ⟨hslot.wf, h.others.trans hslot.others, hslot.live_a, hslot.live_b,
    hslot.forked.trans h.forked, Grows.trans_next h.forked h.others.next h.grows hslot.grows,
    ?_, ?_, ?_, ?_⟩
  · intro i hi
    rw [hslot.self i (hlt i (by simp [hi])) (hne i hi), h.self i (by simp [hi])]
  · intro i hi
    rw [hslot.fork i (hlt i (by simp [hi])) (hne i hi), h.fork i (by simp [hi])]
  · intro i hi hrest k
    by_cases hia : i = at_
    · subst hia
      rw [hslot.lookup, hmerged]
    · rw [hslot.self i hi hia, h.lookup i hi (by simp [hia, hrest])]
  · rw [hc, Bool.or_eq_true, h.conflict, hslot.conflict]
    simp only [hmerged]
    constructor
    · rintro (⟨i, hi, hrest, hk⟩ | hk)
      · exact ⟨i, hi, fun hmem => hrest (by simp [hmem]), hk⟩
      · exact ⟨at_, hat, hnodup, hk⟩
    · rintro ⟨i, hi, hrest, hk⟩
      by_cases hia : i = at_
      · exact .inr (hia ▸ hk)
      · exact .inl ⟨i, hi, by simp [hia, hrest], hk⟩

theorem Installing.run {w₀ : World K V} {merge : Option (Merge V)} (hab : a ≠ b) (hza : z ≠ a)
    (hzb : z ≠ b) (hz : w₀.Live z) (slots : List Nat) :
    ∀ {w : World K V} {conflicted : Bool}, slots.Nodup → (∀ i ∈ slots, i < 2 ^ 32) →
      Installing w₀ w merge a z b slots conflicted →
      Installing w₀ (slots.foldl (installSlot merge a z b) (w, conflicted)).1 merge a z b []
        (slots.foldl (installSlot merge a z b) (w, conflicted)).2 := by
  induction slots with
  | nil => intro w conflicted _ _ h; exact h
  | cons at_ rest ih =>
    intro w conflicted hnodup hlt h
    rw [List.nodup_cons] at hnodup
    rw [List.foldl_cons]
    exact ih hnodup.2 (fun i hi => hlt i (by simp [hi]))
      (h.step hab hza hzb hz hnodup.1 hlt)

/-! ## §10. The whole install -/

/-- What an install of the fork `b` of `z` into `a` leaves. -/
structure Installed (w w' : World K V) (merge : Option (Merge V)) (a z b : Nat)
    (conflicted : Bool) : Prop where
  wf : WF w'
  others : Others w w' [a, b]
  live : w'.Live a
  gone : w'.maps.lookup b = none
  forked : (w'.cow a).forked = (w.cow a).forked
  grows : Grows w w' a
  lookup : ∀ i, i < 2 ^ 32 → ∀ k,
    (w'.contents a i).lookup k = (w.mergedAt merge a z b i k).1
  conflict : conflicted = true ↔
    ∃ i, i < 2 ^ 32 ∧ ∃ k, (w.mergedAt merge a z b i k).2 = true

/-- **An install merges every entry three ways**, and conflicts when some entry does. -/
theorem installWith_spec (hw : WF w) (ha : w.Live a) (hz : w.Live z) (hb : w.Live b)
    (hab : a ≠ b) (hza : z ≠ a) (hzb : z ≠ b) (hcov : Covers w z b) (merge : Option (Merge V)) :
    Installed w (w.installWith a z b merge).1 merge a z b (w.installWith a z b merge).2 := by
  have hstart : Installing w w merge a z b (w.forkedSlots z b) false := by
    have hmerged : ∀ i, i < 2 ^ 32 → i ∉ w.forkedSlots z b → ∀ k,
        w.mergedAt merge a z b i k = ((w.contents a i).lookup k, false) := by
      intro i hi hout k
      unfold mergedAt
      rw [contents_eq_of_held_eq (heldShard_eq_of_not_mem_forkedSlots hcov hi hout),
        threeWay_unchanged]
    refine ⟨hw, .refl _, ha, hb, rfl, .refl, fun _ _ => rfl, fun _ _ => rfl, ?_, ?_⟩
    · intro i hi hout k
      rw [hmerged i hi hout]
    · simp only [Bool.false_eq_true, false_iff, not_exists, not_and]
      intro i hi hout k
      rw [hmerged i hi hout]
      simp
  have hend := Installing.run hab hza hzb hz (w.forkedSlots z b) (nodup_forkedSlots w z b)
    (fun i hi => lt_of_mem_forkedSlots hw hz hb hi) hstart
  have hdrop := others_dropMap
    (w := ((w.forkedSlots z b).foldl (installSlot merge a z b) (w, false)).1) (n := b) (s := [b])
    (by simp)
  have hcow := hdrop.cow (m := a) (by simpa using hab)
  refine ⟨wf_dropMap hend.wf b, hend.others.trans (hdrop.mono (by simp)), ?_, ?_, ?_, ?_, ?_, ?_⟩
  · exact (hdrop.live_iff (by simpa using hab)).2 hend.live_a
  · exact (lookup_dropMap b).trans (if_pos rfl)
  · exact (congrArg CowShards.forked hcow).trans hend.forked
  · have hgrows := hend.grows
    unfold Grows at hgrows ⊢
    rw [← hcow] at hgrows
    exact hgrows
  · intro i hi k
    rw [← hend.lookup i hi (by simp) k]
    exact congrArg (AList.lookup k) (hdrop.contents a (by simpa using hab) hend.live_a i)
  · show _ ↔ _
    rw [show (w.installWith a z b merge).2
      = ((w.forkedSlots z b).foldl (installSlot merge a z b) (w, false)).2 from rfl, hend.conflict]
    simp

end GluaLs.Cow.World
