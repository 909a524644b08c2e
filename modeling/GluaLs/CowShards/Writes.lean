/-
  GluaLs.CowShards.Writes — the effect of every write on the entries of its map.

  Each method's `Effect` says what becomes of the entry of each key, that no other map reads
  differently, and that a fork only added to its overlay.  Main results:

    • `insert_effect`, `remove_effect`, `getMut_effect`, `entry_effect`,
    • `clear_effect`,
    • `flatten_effect` — folding the overlay into the table changes no entry,
    • `rewriteShards_effect` — `retain` and `iter_mut` reach EVERY entry: a shard that
      `Arc::get_mut` cannot own after `writable_shards` made the populated ones writable
      has no entry.
-/
import GluaLs.CowShards.Mutable

namespace GluaLs.Cow.World

open GluaLs.Lib

variable {K V : Type} {w : World K V} {n : Nat}

/-! ## §1. Keyed writes -/

section

variable [DecidableEq K]

/-- The shard made writable, rewritten at one key. -/
theorem MadeMut.write_key {w' : World K V} {at_ : Nat} {q : Ptr} (hw : WF w) (hn : w.Live n)
    (hat : at_ < 2 ^ 32) (h : MadeMut w w' n at_ q) (key : K) (value : Option V)
    (s : Shard K V)
    (hs : ∀ k, s.lookup k = if k = key then value else (w'.shards.mem q).lookup k) :
    Effect w (w'.writeShard q s) n
      (fun i k o => if i = at_ ∧ k = key then value else o) := by
  refine (h.write hw hn hat s).congr ?_
  intro i hi k
  by_cases hia : i = at_
  · subst hia
    rw [if_pos rfl, hs k, h.mem_self]
    by_cases hk : k = key <;> simp [hk]
  · simp [hia]

theorem lookup_putValue (s : Shard K V) (key : K) (value : Option V) (k : K) :
    (putValue s key value).lookup k = if k = key then value else s.lookup k := by
  cases value with
  | none => exact lookup_erase_ite s key k
  | some v => exact lookup_insert_ite s key k v

variable [ShardKey K]

theorem insert_effect (hw : WF w) (hn : w.Live n) (key : K) (value : V) (hfit : SlotFits key) :
    Effect w (w.insert n key value) n
      (fun i k o => if i = slotOf key ∧ k = key then some value else o) :=
  (shardMut_spec hw hn hfit).write_key hw hn hfit key (some value) _
    (fun k => lookup_insert_ite _ key k value)

theorem entry_effect (hw : WF w) (hn : w.Live n) (key : K) (f : Option V → Option V)
    (hfit : SlotFits key) :
    Effect w (w.entry n key f) n
      (fun i k o => if i = slotOf key ∧ k = key then f o else o) := by
  unfold entry
  have hlt : slotOf key < 2 ^ 32 := hfit
  have hmade := shardMut_spec hw hn hlt
  generalize w.shardMut n (slotOf key) = r at hmade
  obtain ⟨w', q⟩ := r
  refine (hmade.write_key hw hn hfit key _ _ (fun k => lookup_putValue _ key _ k)).congr ?_
  intro i hi k
  split_ifs with h
  · obtain ⟨rfl, rfl⟩ := h
    rw [hmade.mem_self]
  · rfl

/-- `holding_shard_mut` gives nothing only when the key is not there. -/
theorem holdingShardMut_cases (key : K) :
    (w.holdingShardMut n key = none ∧ (w.contents n (slotOf key)).lookup key = none) ∨
      w.holdingShardMut n key = some (w.shardMut n (slotOf key)) := by
  unfold holdingShardMut
  simp only
  cases hs : w.shard n (slotOf key) with
  | none =>
    refine .inl ⟨rfl, ?_⟩
    rw [← getD_shard, hs]
    rfl
  | some s =>
    simp only
    split_ifs with h
    · simp only [Bool.and_eq_true, Option.isNone_iff_eq_none] at h
      refine .inl ⟨rfl, ?_⟩
      rw [← getD_shard, hs]
      exact h.2
    · exact .inr rfl

theorem remove_effect (hw : WF w) (hn : w.Live n) (key : K) (hfit : SlotFits key) :
    Effect w (w.remove n key) n
      (fun i k o => if i = slotOf key ∧ k = key then none else o) := by
  unfold remove
  rcases holdingShardMut_cases (w := w) (n := n) key with ⟨hnone, hkey⟩ | hsome
  · rw [hnone]
    refine (Effect.refl hw hn).congr ?_
    intro i hi k
    split_ifs with h
    · obtain ⟨rfl, rfl⟩ := h
      exact hkey
    · rfl
  · rw [hsome]
    exact (shardMut_spec hw hn hfit).write_key hw hn hfit key none _
      (fun k => lookup_erase_ite _ key k)

theorem getMut_effect (hw : WF w) (hn : w.Live n) (key : K) (f : V → V) (hfit : SlotFits key) :
    Effect w (w.getMut n key f) n
      (fun i k o => if i = slotOf key ∧ k = key then o.map f else o) := by
  unfold getMut
  rcases holdingShardMut_cases (w := w) (n := n) key with ⟨hnone, hkey⟩ | hsome
  · rw [hnone]
    refine (Effect.refl hw hn).congr ?_
    intro i hi k
    split_ifs with h
    · obtain ⟨rfl, rfl⟩ := h
      rw [hkey]
      rfl
    · rfl
  · rw [hsome]
    have hlt : slotOf key < 2 ^ 32 := hfit
    have hmade := shardMut_spec hw hn hlt
    generalize w.shardMut n (slotOf key) = r at hmade
    obtain ⟨w', q⟩ := r
    simp only
    cases hv : (w'.shards.mem q).lookup key with
    | none =>
      refine (hmade.effect hw hn).congr ?_
      intro i hi k
      split_ifs with h
      · obtain ⟨rfl, rfl⟩ := h
        rw [← hmade.mem_self, hv]
        rfl
      · rfl
    | some v =>
      refine (hmade.write_key hw hn hfit key (some (f v)) _
        (fun k => lookup_insert_ite _ key k (f v))).congr ?_
      intro i hi k
      split_ifs with h
      · obtain ⟨rfl, rfl⟩ := h
        rw [← hmade.mem_self, hv]
        rfl
      · rfl

end

/-! ## §2. Clearing -/

theorem cow_put (c : CowShards) : (w.put n c).cow n = c := by
  simp [cow]

theorem heldShard_clear (i : Nat) : (w.clear n).heldShard n i = none := by
  show (((w.newTable n []).put n _).heldShard n i) = none
  unfold heldShard table
  rw [cow_put]
  show ((∅ : HashMap UInt32 Ptr).lookup i.toUInt32).or
    (((w.newTable n []).tables.mem ((w.newTable n []).cow n).slots)[i]?.join) = none
  have htable : (w.newTable n []).tables.mem ((w.newTable n []).cow n).slots = [] :=
    table_newTable []
  rw [htable]
  rfl

theorem clear_effect [DecidableEq K] (hw : WF w) (hn : w.Live n) :
    Effect w (w.clear n) n (fun _ _ _ => none) where
  keeps := (keeps_newTable hw []).trans (keeps_put _ rfl)
  wf := by
    refine wf_put (wf_newTable hw hn (by simp) (by simp)) (keeps_newTable hw []).live rfl ?_
    intro d p hd
    cases hd
  grows := by
    refine .inr ?_
    show w.tables.next ≤ (((w.newTable n []).put n _).cow n).slots
    rw [cow_put, cow_newTable]
  lookup := by
    intro i _ k
    rw [contents_of_not_held (heldShard_clear i)]
    rfl

/-! ## §3. Folding the overlay into the table -/

theorem empty_of_entries_isEmpty {s : Shard K V} (h : s.entries.isEmpty = true) : s = ∅ := by
  apply AList.ext
  exact List.isEmpty_iff.1 h

/-- What the fold files in the table for an overlay entry. -/
def foldedShard (w : World K V) (p : Ptr) : Option Ptr :=
  if (w.shards.mem p).entries.isEmpty then none else some p

/-- The invariant of the fold, against the map `w` whose overlay it took: what is left of the
    overlay's entries still has to go in. -/
structure Folding (w w' : World K V) (n : Nat) (replaced : List Ptr) : Prop where
  keeps : Keeps w w' n
  wf : WF w'
  dirty : (w'.cow n).dirty = ∅
  slots : (w'.cow n).slots = (w.cow n).slots ∨ w.tables.next ≤ (w'.cow n).slots
  shards : w'.shards = w.shards
  loose : w'.loose = w.loose
  replaced : ∀ p ∈ replaced, p < w.shards.next

theorem foldEntry_spec {w' : World K V} {replaced : List Ptr} (h : Folding w w' n replaced)
    (e : Sigma fun _ : UInt32 => Ptr) (he : e.2 < w.shards.next) :
    Folding w (foldEntry n (w', replaced) e).1 n (foldEntry n (w', replaced) e).2 ∧
    (foldEntry n (w', replaced) e).1.soleTable n = true ∧
    ∀ i, i < 2 ^ 32 → ((foldEntry n (w', replaced) e).1.table n)[i]?.join =
      if i = e.1.toNat then foldedShard w e.2 else (w'.table n)[i]?.join := by
  have hms := slotsMut_spec h.wf h.keeps.live e.1.toNat e.1.toNat_lt
  unfold foldEntry
  simp only
  generalize w'.slotsMut n e.1.toNat = w₁ at hms ⊢
  have hfold : (if (w'.shards.mem e.2).entries.isEmpty then none else some e.2)
      = foldedShard w e.2 := by
    unfold foldedShard
    rw [h.shards]
  rw [hfold]
  have hshard : ∀ p, foldedShard w e.2 = some p → p < w₁.shards.next := by
    intro p hp
    unfold foldedShard at hp
    split_ifs at hp
    cases hp
    rw [hms.shards, h.shards]
    exact he
  refine ⟨⟨h.keeps.trans (hms.keeps.trans (keeps_setSlot hms.keeps.live hms.sole _ _)),
    wf_setSlot hms.wf hms.keeps.live hms.sole _ hshard, ?_, ?_, ?_, ?_, ?_⟩, hms.sole, ?_⟩
  · rw [cow_setSlot, hms.dirty, h.dirty]
  · rw [cow_setSlot]
    rcases hms.slots with hsame | hfresh
    · rw [hsame]
      exact h.slots
    · exact .inr (h.keeps.next.trans hfresh)
  · show w₁.shards = w.shards
    rw [hms.shards, h.shards]
  · show w₁.loose = w.loose
    rw [hms.loose, h.loose]
  · intro p hp
    rcases List.mem_append.1 hp with hp | hp
    · exact h.replaced p hp
    · rw [Option.mem_toList] at hp
      have harc : HasArc w₁ (.slot (w₁.cow n).slots e.1.toNat) p :=
        .slot hms.keeps.live.lookup (Option.join_eq_some_iff.1 hp)
      have hlt := hms.wf.arc_lt harc
      rwa [hms.shards, h.shards] at hlt
  · intro i _
    rw [table_setSlot]
    by_cases hi : i = e.1.toNat
    · subst hi
      rw [List.getElem?_set_self hms.lt, if_pos rfl]
      rfl
    · rw [List.getElem?_set_ne (Ne.symm hi), if_neg hi, hms.join i]

/-- The whole fold: each slot ends with its overlay entry, when it has one, in a table the map
    alone holds. -/
theorem foldEntries_spec (l : List (Sigma fun _ : UInt32 => Ptr)) :
    ∀ {w' : World K V} {replaced : List Ptr}, l.NodupKeys →
      (∀ e ∈ l, e.2 < w.shards.next) → Folding w w' n replaced →
      Folding w (l.foldl (foldEntry n) (w', replaced)).1 n
        (l.foldl (foldEntry n) (w', replaced)).2 ∧
      ((l = [] → w'.soleTable n = true) →
        (l.foldl (foldEntry n) (w', replaced)).1.soleTable n = true) ∧
      ∀ i, i < 2 ^ 32 → ((l.foldl (foldEntry n) (w', replaced)).1.table n)[i]?.join =
        match l.dlookup i.toUInt32 with
        | some p => foldedShard w p
        | none => (w'.table n)[i]?.join := by
  induction l with
  | nil =>
    intro w' replaced _ _ h
    exact ⟨h, fun hs => hs rfl, fun i _ => rfl⟩
  | cons e l ih =>
    intro w' replaced hnodup hlt h
    obtain ⟨hstep, hsole, htable⟩ := foldEntry_spec h e (hlt e (by simp))
    obtain ⟨hfold, hsole', hrest⟩ := ih (List.nodupKeys_cons.1 hnodup).2
      (fun e' he' => hlt e' (by simp [he'])) hstep
    rw [List.foldl_cons]
    refine ⟨hfold, fun _ => hsole' (fun _ => hsole), ?_⟩
    intro i hi
    rw [hrest i hi]
    by_cases hie : i = e.1.toNat
    · -- the entry's own slot: no later entry has its key
      have hkey : i.toUInt32 = e.1 := by rw [hie, toNat_toUInt32]
      have hnone : l.dlookup i.toUInt32 = none := by
        rw [List.dlookup_eq_none, hkey]
        exact (List.nodupKeys_cons.1 hnodup).1
      obtain ⟨d, p⟩ := e
      simp only at hkey
      rw [hnone, hkey, List.dlookup_cons_eq]
      simp only
      rw [htable i hi, if_pos hie]
    · have hkey : e.1 ≠ i.toUInt32 := by
        intro heq
        apply hie
        rw [heq, toUInt32_toNat hi]
      rw [List.dlookup_cons_ne l (a := i.toUInt32) e hkey.symm]
      cases l.dlookup i.toUInt32 with
      | some p => rfl
      | none => exact (htable i hi).trans (if_neg hie)

/-- **Folding the overlay in changes no entry**, and leaves a map that is no fork without
    overlay. -/
theorem foldDirty_spec [DecidableEq K] (hw : WF w) (hn : w.Live n) :
    Effect w (w.foldDirty n).1 n (fun _ _ o => o) ∧
    (∀ p ∈ (w.foldDirty n).2, p < (w.foldDirty n).1.shards.next) ∧
    ((w.cow n).forked = false → ((w.foldDirty n).1.cow n).dirty = ∅) ∧
    ((w.foldDirty n).1 = w ∨
      ((w.foldDirty n).1.cow n).dirty = ∅ ∧ (w.foldDirty n).1.soleTable n = true) := by
  unfold foldDirty
  split_ifs with h
  · refine ⟨.refl hw hn, by simp, ?_, .inl rfl⟩
    intro hf
    simp only [hf, Bool.false_or] at h
    apply AList.ext
    exact List.isEmpty_iff.1 h
  · simp only [Bool.or_eq_true, not_or, Bool.not_eq_true] at h
    have hlt : ∀ e ∈ (w.cow n).dirty.entries, e.2 < w.shards.next := by
      intro e he
      exact hw.arc_lt (.dirty hn.lookup ((mem_entries_iff _ _ _).1 he))
    have hinit : Folding w (w.put n { w.cow n with dirty := ∅ }) n [] := by
      refine ⟨keeps_put _ rfl, wf_put hw hn rfl ?_, by rw [cow_put], .inl (by rw [cow_put]),
        rfl, rfl, by simp⟩
      intro d p hd
      cases hd
    obtain ⟨hfold, hsole, htable⟩ := foldEntries_spec (w := w) (n := n) (w.cow n).dirty.entries
      (w.cow n).dirty.nodupKeys hlt hinit
    simp only
    generalize (w.cow n).dirty.entries.foldl (foldEntry n)
      (w.put n { w.cow n with dirty := ∅ }, []) = r at hfold hsole htable ⊢
    refine ⟨⟨hfold.keeps, hfold.wf, hfold.slots.imp_left fun hslots =>
        ⟨hslots, fun hf => absurd hf (by simp [h.1])⟩, ?_⟩, ?_, fun _ => hfold.dirty,
      .inr ⟨hfold.dirty, hsole (fun he => absurd he (by simpa using h.2))⟩⟩
    · intro i hi k
      have hheld : r.1.heldShard n i = (r.1.table n)[i]?.join := by
        simp [heldShard, hfold.dirty]
      have hcontents : r.1.contents n i = w.contents n i := by
        unfold contents
        rw [hheld, htable i hi, hfold.shards]
        show ((match (w.cow n).dirty.lookup i.toUInt32 with
          | some p => foldedShard w p
          | none => ((w.put n { w.cow n with dirty := ∅ }).table n)[i]?.join).map _).getD ∅ = _
        have htable₀ : (w.put n { w.cow n with dirty := ∅ }).table n = w.table n := by
          unfold table
          rw [cow_put]
          rfl
        rw [htable₀]
        unfold heldShard
        cases hd : (w.cow n).dirty.lookup i.toUInt32 with
        | none => rfl
        | some p =>
          unfold foldedShard
          simp only [Option.some_or, Option.map_some, Option.getD_some]
          split_ifs with he
          · rw [empty_of_entries_isEmpty he]
            rfl
          · rfl
      rw [hcontents]
    · intro p hp
      rw [hfold.shards]
      exact hfold.replaced p hp

theorem flatten_effect [DecidableEq K] (hw : WF w) (hn : w.Live n) :
    Effect w (w.flatten n) n (fun _ _ o => o) := by
  obtain ⟨heff, hlt, -, -⟩ := foldDirty_spec hw hn
  exact ⟨heff.keeps.trans (keeps_hold heff.keeps.live _), wf_hold heff.wf hlt, heff.grows,
    heff.lookup⟩

/-! ## §4. Rewriting every entry -/

theorem Owned.writeShard {at_ : Nat} {p : Ptr} (h : Owned w n at_ p) (q : Ptr) (s : Shard K V) :
    Owned (w.writeShard q s) n at_ p :=
  ⟨h.held, fun pl harc => h.sole pl ((hasArc_writeShard q s).1 harc), h.table⟩

theorem Owned.write [DecidableEq K] (hw : WF w) (hn : w.Live n) {at_ : Nat} {q : Ptr}
    (hat : at_ < 2 ^ 32) (h : Owned w n at_ q) (s : Shard K V) :
    Effect w (w.writeShard q s) n (fun i k o => if i = at_ then s.lookup k else o) where
  keeps := keeps_writeShard hn h.not_otherArc s
  wf := wf_writeShard hw q s
  grows := .refl
  lookup := by
    intro i hi k
    split_ifs with hia
    · subst hia
      rw [contents_writeShard_self h.held]
    · rw [contents_writeShard_ne (h.ne_of_ne hn hat hi hia)]

/-- Shards the map alone holds, rewritten one after another. -/
theorem rewrite_owned [DecidableEq K] (f : K → V → Option V) (l : List (Nat × Ptr)) :
    ∀ {w : World K V}, WF w → w.Live n → (l.map Prod.fst).Nodup →
      (∀ e ∈ l, e.1 < 2 ^ 32 ∧ Owned w n e.1 e.2) →
      Effect w (l.foldl (fun w e => w.writeShard e.2 ((w.shards.mem e.2).filterMapEntries f)) w) n
        (fun i k o => if i ∈ l.map Prod.fst then o.bind (f k) else o) := by
  induction l with
  | nil =>
    intro w hw hn _ _
    exact (Effect.refl hw hn).congr (fun _ _ _ => by simp)
  | cons e l ih =>
    intro w hw hn hnodup hown
    rw [List.map_cons, List.nodup_cons] at hnodup
    obtain ⟨hlt, ho⟩ := hown e (by simp)
    have hstep := ho.write hw hn hlt ((w.shards.mem e.2).filterMapEntries f)
    have hrest := ih hstep.wf hstep.keeps.live hnodup.2 (fun e' he' =>
      ⟨(hown e' (by simp [he'])).1, (hown e' (by simp [he'])).2.writeShard _ _⟩)
    rw [List.foldl_cons]
    refine (hstep.trans hrest).congr ?_
    intro i hi k
    by_cases hie : i = e.1
    · subst hie
      rw [if_pos rfl, if_neg hnodup.1, AList.lookup_filterMapEntries, contents_of_held ho.held]
      simp
    · simp only [List.map_cons, List.mem_cons, hie, false_or, if_false]

theorem foldl_max_le_iff (l : List Nat) (m : Nat) :
    ∀ a : Nat, l.foldl max a ≤ m ↔ a ≤ m ∧ ∀ b ∈ l, b ≤ m := by
  induction l with
  | nil => simp
  | cons c l ih =>
    intro a
    rw [List.foldl_cons, ih, Nat.max_le, List.forall_mem_cons, and_assoc]

theorem slotEnd_le (hw : WF w) (hn : w.Live n) : w.slotEnd n ≤ 2 ^ 32 := by
  refine (foldl_max_le_iff _ _ _).2 ⟨hw.table_len hn.lookup, ?_⟩
  intro b hb
  obtain ⟨d, -, rfl⟩ := List.mem_map.1 hb
  exact d.toNat_lt

/-- A slot that holds a shard is below `end`. -/
theorem lt_slotEnd {i : Nat} {p : Ptr} (hi : i < 2 ^ 32) (h : w.heldShard n i = some p) :
    i < w.slotEnd n := by
  unfold heldShard at h
  cases hd : (w.cow n).dirty.lookup i.toUInt32 with
  | some q =>
    have hkey : i.toUInt32 ∈ (w.cow n).dirty.keys := by simp [mem_keys_iff, hd]
    have hmem : i + 1 ∈ (w.cow n).dirty.keys.map fun slot => slot.toNat + 1 :=
      List.mem_map.2 ⟨_, hkey, by rw [toUInt32_toNat hi]⟩
    exact ((foldl_max_le_iff _ _ _).1 le_rfl).2 _ hmem
  | none =>
    rw [hd, Option.none_or] at h
    have hlt := (List.getElem?_eq_some_iff.1 (Option.join_eq_some_iff.1 h)).1
    exact lt_of_lt_of_le hlt ((foldl_max_le_iff _ _ _).1 le_rfl).1

theorem held_of_lookup [DecidableEq K] {i : Nat} {k : K} {v : V}
    (h : (w.contents n i).lookup k = some v) : ∃ p, w.heldShard n i = some p := by
  cases hp : w.heldShard n i with
  | some p => exact ⟨p, rfl⟩
  | none =>
    rw [contents_of_not_held hp] at h
    cases h

theorem mem_populated [DecidableEq K] {i : Nat} {k : K} {v : V} (hi : i < 2 ^ 32)
    (h : (w.contents n i).lookup k = some v) : i ∈ w.populated n := by
  obtain ⟨p, hp⟩ := held_of_lookup h
  unfold populated
  rw [List.mem_filter, List.mem_range]
  refine ⟨lt_slotEnd hi hp, ?_⟩
  rw [contents_of_held hp] at h
  have hmem := (mem_entries_iff _ _ _).2 h
  rw [shard_eq, hp]
  show (!(w.shards.mem p).entries.isEmpty) = true
  cases he : (w.shards.mem p).entries with
  | nil => rw [he] at hmem; cases hmem
  | cons _ _ => rfl

theorem lt_of_mem_populated (hw : WF w) (hn : w.Live n) {i : Nat} (h : i ∈ w.populated n) :
    i < 2 ^ 32 :=
  lt_of_lt_of_le (List.mem_range.1 (List.mem_filter.1 h).1) (slotEnd_le hw hn)

theorem dirty_slotMut (hw : WF w) (hn : w.Live n) {at_ : Nat} (hat : at_ < 2 ^ 32) :
    ((w.slotMut n at_).1.cow n).dirty = (w.cow n).dirty := by
  have hms := slotsMut_spec hw hn at_ hat
  unfold slotMut
  simp only
  cases ((w.slotsMut n at_).table n)[at_]?.join with
  | some p =>
    simp only
    rw [cow_makeMutSlot, hms.dirty]
  | none =>
    simp only
    rw [cow_makeMutSlot, cow_setSlot]
    exact hms.dirty

theorem dirty_dirtyMut (at_ : Nat) :
    ((w.dirtyMut n at_).1.cow n).dirty.lookup at_.toUInt32 ≠ none := by
  have hmake : ∀ (w : World K V) (p : Ptr), (w.cow n).dirty.lookup at_.toUInt32 = some p →
      ((w.makeMutDirty n at_.toUInt32 p).1.cow n).dirty.lookup at_.toUInt32 ≠ none := by
    intro w p hd
    unfold makeMutDirty
    split_ifs
    · simp [hd]
    · simp [cow_setDirty]
  have hset : ∀ (w : World K V) (p : Ptr),
      ((w.setDirty n at_.toUInt32 p).cow n).dirty.lookup at_.toUInt32 = some p := by
    intro w p
    simp [cow_setDirty]
  unfold dirtyMut
  simp only
  cases hd : (w.cow n).dirty.lookup at_.toUInt32 with
  | some p => exact hmake w p hd
  | none =>
    cases (w.table n)[at_]?.join with
    | some p => exact hmake _ p (hset w p)
    | none => exact hmake _ _ (hset _ _)

/-- Where the shards of a map are once its overlay was folded in: in the overlay for the
    slots a fork made writable, in the table else. -/
structure Writable (w w' : World K V) (n : Nat) (done : List Nat) [DecidableEq K] : Prop where
  effect : Effect w w' n (fun _ _ o => o)
  owned : ∀ i ∈ done, ∃ q, Owned w' n i q
  forked : (w.cow n).forked = true → ∀ i ∈ done, (w'.cow n).dirty.lookup i.toUInt32 ≠ none
  dirty : (w.cow n).forked = false → (w'.cow n).dirty = ∅

theorem writable_shardMut [DecidableEq K] {w' : World K V} {done : List Nat}
    (h : Writable w w' n done) (hdone : ∀ i ∈ done, i < 2 ^ 32) {at_ : Nat} (hat : at_ < 2 ^ 32) :
    Writable w (w'.shardMut n at_).1 n (at_ :: done) := by
  have hmade := shardMut_spec h.effect.wf h.effect.keeps.live hat
  have hforked : (w'.cow n).forked = (w.cow n).forked := h.effect.keeps.forked
  refine ⟨h.effect.trans (hmade.effect h.effect.wf h.effect.keeps.live), ?_, ?_, ?_⟩
  · intro i hi
    by_cases hia : i = at_
    · subst hia
      exact ⟨_, hmade.owned⟩
    · have hi := (List.mem_cons.1 hi).resolve_left hia
      obtain ⟨q, hq⟩ := h.owned i hi
      exact ⟨q, hq.of_madeMut h.effect.keeps.live hmade hat (hdone i hi) hia⟩
  · intro hf i hi
    by_cases hia : i = at_
    · subst hia
      unfold shardMut
      rw [if_neg (by simp [hforked, hf])]
      exact dirty_dirtyMut i
    · have hi := (List.mem_cons.1 hi).resolve_left hia
      rw [hmade.dirty _ (fun he => hia (toUInt32_inj (hdone i hi) hat he))]
      exact h.forked hf i hi
  · intro hf
    have hd := h.dirty hf
    unfold shardMut
    rw [if_pos (by simp [hforked, hf, hd]), dirty_slotMut h.effect.wf h.effect.keeps.live hat]
    exact hd

theorem writable_foldl [DecidableEq K] (l : List Nat) :
    ∀ {w' : World K V} {done : List Nat}, Writable w w' n done → (∀ i ∈ done, i < 2 ^ 32) →
      (∀ i ∈ l, i < 2 ^ 32) →
      ∃ done', (∀ i ∈ l, i ∈ done') ∧ (∀ i ∈ done, i ∈ done') ∧
        Writable w (l.foldl (fun w at_ => (w.shardMut n at_).1) w') n done' := by
  induction l with
  | nil =>
    intro w' done h _ _
    exact ⟨done, by simp, fun _ hi => hi, h⟩
  | cons at_ l ih =>
    intro w' done h hdone hl
    have hstep := writable_shardMut h hdone (hl at_ (by simp))
    obtain ⟨done', hl', hdone', h'⟩ := ih hstep
      (fun i hi => by
        rcases List.mem_cons.1 hi with rfl | hi
        · exact hl i (by simp)
        · exact hdone i hi)
      (fun i hi => hl i (by simp [hi]))
    refine ⟨done', ?_, fun i hi => hdone' i (by simp [hi]), h'⟩
    intro i hi
    rcases List.mem_cons.1 hi with rfl | hi
    · exact hdone' i (by simp)
    · exact hl' i hi

theorem mem_ownedShards_forked (hf : (w.cow n).forked = true) (i : Nat) (p : Ptr) :
    (i, p) ∈ w.ownedShards n ↔ ∃ d : UInt32, d.toNat = i ∧ (w.cow n).dirty.lookup d = some p ∧
      ∀ q, HasArc w q p → q = .dirty n d := by
  unfold ownedShards
  rw [if_pos hf, List.mem_filterMap]
  constructor
  · rintro ⟨⟨d, q⟩, hmem, heq⟩
    split_ifs at heq with hsole
    cases heq
    exact ⟨d, rfl, (mem_entries_iff _ _ _).1 hmem, (sole_iff _ _ _).1 hsole⟩
  · rintro ⟨d, rfl, hd, hsole⟩
    exact ⟨⟨d, p⟩, (mem_entries_iff _ _ _).2 hd, if_pos ((sole_iff _ _ _).2 hsole)⟩

theorem mem_ownedShards_own (hf : (w.cow n).forked = false) (i : Nat) (p : Ptr) :
    (i, p) ∈ w.ownedShards n ↔ w.soleTable n = true ∧ (w.table n)[i]? = some (some p) ∧
      ∀ q, HasArc w q p → q = .slot (w.cow n).slots i := by
  unfold ownedShards
  rw [if_neg (by simp [hf])]
  split_ifs with hs
  · rw [List.mem_filterMap]
    constructor
    · rintro ⟨⟨o, j⟩, hmem, heq⟩
      obtain ⟨q, hq, heq⟩ := Option.bind_eq_some_iff.1 heq
      simp only at hq heq
      split_ifs at heq with hsole
      cases heq
      subst hq
      exact ⟨hs, List.mk_mem_zipIdx_iff_getElem?.1 hmem, (sole_iff _ _ _).1 hsole⟩
    · rintro ⟨-, hi, hsole⟩
      refine ⟨(some p, i), List.mk_mem_zipIdx_iff_getElem?.2 hi, ?_⟩
      show (if w.sole (.slot (w.cow n).slots i) p then some (i, p) else none) = _
      rw [if_pos ((sole_iff _ _ _).2 hsole)]
  · simp [hs]

/-- Every shard `writable_shards` returns is the map's alone. -/
theorem owned_of_mem_ownedShards (hw : WF w) (hn : w.Live n)
    (hdirty : (w.cow n).forked = false → (w.cow n).dirty = ∅) {i : Nat} {p : Ptr}
    (h : (i, p) ∈ w.ownedShards n) : i < 2 ^ 32 ∧ Owned w n i p := by
  cases hf : (w.cow n).forked with
  | true =>
    obtain ⟨d, rfl, hd, hsole⟩ := (mem_ownedShards_forked hf i p).1 h
    have hd' : (w.cow n).dirty.lookup d.toNat.toUInt32 = some p := by
      rw [toNat_toUInt32]
      exact hd
    refine ⟨d.toNat_lt, ?_, ?_, ?_⟩
    · simp [heldShard, hd']
    · simpa [place, hd'] using hsole
    · intro hnone
      rw [hd'] at hnone
      cases hnone
  | false =>
    obtain ⟨hs, hi, hsole⟩ := (mem_ownedShards_own hf i p).1 h
    have hlt := (List.getElem?_eq_some_iff.1 hi).1
    refine ⟨lt_of_lt_of_le hlt (hw.table_len hn.lookup), ?_, ?_, fun _ => hs⟩
    · simp [heldShard, hdirty hf, hi]
    · simpa [place, hdirty hf] using hsole

/-- No slot is returned twice. -/
theorem nodup_ownedShards : ((w.ownedShards n).map Prod.fst).Nodup := by
  have hsub : ∀ l : List (Sigma fun _ : UInt32 => Ptr),
      ((l.filterMap fun e => if w.sole (.dirty n e.1) e.2 then some (e.1.toNat, e.2) else none).map
        Prod.fst).Sublist (l.keys.map UInt32.toNat) := by
    intro l
    induction l with
    | nil => simp
    | cons e l ih =>
      rw [List.filterMap_cons]
      split_ifs
      · exact ih.cons_cons _
      · exact ih.cons _
  have hsub' : ∀ l : List (Option Ptr × Nat),
      ((l.filterMap fun s => s.1.bind fun p =>
        if w.sole (.slot (w.cow n).slots s.2) p then some (s.2, p) else none).map
        Prod.fst).Sublist (l.map Prod.snd) := by
    intro l
    induction l with
    | nil => simp
    | cons s l ih =>
      obtain ⟨o, j⟩ := s
      rw [List.filterMap_cons]
      cases o with
      | none => exact ih.cons _
      | some p =>
        simp only [Option.bind_some]
        split_ifs
        · exact ih.cons_cons _
        · exact ih.cons _
  unfold ownedShards
  split_ifs
  · refine (hsub _).nodup (List.Nodup.map ?_ (w.cow n).dirty.nodupKeys)
    exact fun a b hab => UInt32.toNat_inj.1 hab
  · refine (hsub' _).nodup ?_
    rw [List.zipIdx_map_snd]
    exact List.nodup_range'
  · simp

/-- Every slot that was made writable is among them. -/
theorem mem_ownedShards_of_writable [DecidableEq K] {w' : World K V} {done : List Nat}
    (h : Writable w w' n done) {i : Nat} (hi : i ∈ done) (hlt : i < 2 ^ 32) :
    i ∈ (w'.ownedShards n).map Prod.fst := by
  obtain ⟨q, hq⟩ := h.owned i hi
  have hforked : (w'.cow n).forked = (w.cow n).forked := h.effect.keeps.forked
  refine List.mem_map.2 ⟨(i, q), ?_, rfl⟩
  have hsole := hq.sole
  have hheld := hq.held
  unfold place at hsole
  unfold heldShard at hheld
  cases hf : (w.cow n).forked with
  | true =>
    obtain ⟨p, hp⟩ := Option.ne_none_iff_exists'.1 (h.forked hf i hi)
    rw [hp] at hsole hheld
    cases hheld
    exact (mem_ownedShards_forked (hforked.trans hf) i _).2 ⟨_, toUInt32_toNat hlt, hp, hsole⟩
  | false =>
    have hnone : (w'.cow n).dirty.lookup i.toUInt32 = none := by rw [h.dirty hf]; rfl
    rw [hnone] at hsole hheld
    exact (mem_ownedShards_own (hforked.trans hf) i _).2
      ⟨hq.table hnone, Option.join_eq_some_iff.1 hheld, hsole⟩

/-- **`retain` and `iter_mut` rewrite every entry.** -/
theorem rewriteShards_effect [DecidableEq K] (hw : WF w) (hn : w.Live n) (f : K → V → Option V) :
    Effect w (w.rewriteShards n f) n (fun _ k o => o.bind (f k)) := by
  obtain ⟨hfold, -, hdirty, -⟩ := foldDirty_spec hw hn
  unfold rewriteShards writableShards
  generalize (w.foldDirty n).1 = w₁ at hfold hdirty ⊢
  have hstart : Writable w₁ w₁ n [] :=
    ⟨.refl hfold.wf hfold.keeps.live, by simp, by simp,
      fun hf => hdirty (hfold.keeps.forked.symm.trans hf)⟩
  have hlt : ∀ i ∈ w₁.populated n, i < 2 ^ 32 :=
    fun i hi => lt_of_mem_populated hfold.wf hfold.keeps.live hi
  obtain ⟨done, hdone, -, hwr⟩ := writable_foldl (w₁.populated n) hstart (by simp) hlt
  simp only
  generalize (w₁.populated n).foldl (fun w at_ => (w.shardMut n at_).1) w₁ = w₂ at hwr ⊢
  have hperm := List.perm_insertionSort (fun a b : Nat × Ptr => a.1 ≤ b.1) (w₂.ownedShards n)
  have hdirty₂ : (w₂.cow n).forked = false → (w₂.cow n).dirty = ∅ :=
    fun hf => hwr.dirty (hwr.effect.keeps.forked.symm.trans hf)
  rw [List.foldl_map]
  have hrewrite := rewrite_owned (n := n) f
    ((w₂.ownedShards n).insertionSort fun a b => a.1 ≤ b.1) hwr.effect.wf hwr.effect.keeps.live
    ((hperm.map Prod.fst).nodup_iff.2 nodup_ownedShards)
    (fun e he => owned_of_mem_ownedShards hwr.effect.wf hwr.effect.keeps.live hdirty₂
      (hperm.mem_iff.1 he))
  refine (hfold.trans (hwr.effect.trans hrewrite)).congr ?_
  intro i hi k
  split_ifs with hmem
  · rfl
  · -- a slot left out holds no entry
    cases hk : (w.contents n i).lookup k with
    | none => rfl
    | some v =>
      have hk₁ : (w₁.contents n i).lookup k = some v := (hfold.lookup i hi k).trans hk
      have hdone_i := hdone i (mem_populated hi hk₁)
      exact absurd
        ((hperm.map Prod.fst).mem_iff.2 (mem_ownedShards_of_writable hwr hdone_i hi)) hmem

theorem retain_effect [DecidableEq K] (hw : WF w) (hn : w.Live n) (keep : K → V → Bool × V) :
    Effect w (w.retain n keep) n
      (fun _ k o => o.bind fun v => if (keep k v).1 then some (keep k v).2 else none) :=
  rewriteShards_effect hw hn (fun k v => if (keep k v).1 then some (keep k v).2 else none)

theorem iterMut_effect [DecidableEq K] (hw : WF w) (hn : w.Live n) (f : K → V → V) :
    Effect w (w.iterMut n f) n (fun _ k o => o.bind fun v => some (f k v)) :=
  rewriteShards_effect hw hn (fun k v => some (f k v))

end GluaLs.Cow.World
