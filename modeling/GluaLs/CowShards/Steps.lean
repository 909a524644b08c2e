/-
  GluaLs.CowShards.Steps — the pointer steps every method is made of.

  For each step: what each slot of the map points to afterwards, which places hold which
  shards afterwards, and that it keeps the frame and the heap's invariant.  A table is written
  in place only by the map that alone holds it, a shard only when no other map or local
  holds it: these are the only two steps with a condition.
-/
import GluaLs.CowShards.Def

namespace GluaLs.Cow

open GluaLs.Lib

/-! ## §1. Slots as 32-bit keys

  `HasArc` says which place holds which shard; `sole`, `unheld` and `soleTable` are read
  through it.  `WF` is the heap's own invariant (no pointer dangles, no table outgrows the
  32 bits its slots are filed under).  `Keeps w w' n` is the frame of every operation on map
  `n`: no other map's pointers, tables or shards moved, nor any shard a local still holds, so
  every other map reads as it did (`Keeps.contents_eq`).  It is transitive, so the frame of a
  method is put together from the frames of its steps.
-/

@[simp] theorem toNat_toUInt32 (d : UInt32) : d.toNat.toUInt32 = d := by
  simp [Nat.toUInt32]

theorem toUInt32_toNat {i : Nat} (hi : i < 2 ^ 32) : i.toUInt32.toNat = i := by
  simp only [Nat.toUInt32, UInt32.toNat_ofNat']
  exact Nat.mod_eq_of_lt hi

theorem toUInt32_inj {i j : Nat} (hi : i < 2 ^ 32) (hj : j < 2 ^ 32)
    (h : i.toUInt32 = j.toUInt32) : i = j := by
  rw [← toUInt32_toNat hi, h, toUInt32_toNat hj]

namespace World

variable {K V : Type}

/-! ## §2. Reading a map back -/

@[simp] theorem lookup_put (w : World K V) (n m : Nat) (c : CowShards) :
    (w.put n c).maps.lookup m = if m = n then some c else w.maps.lookup m :=
  lookup_insert_ite w.maps n m c

theorem cow_of_lookup {w : World K V} {n : Nat} {c : CowShards}
    (h : w.maps.lookup n = some c) : w.cow n = c := by
  simp [cow, h]

theorem cow_congr {w w' : World K V} {n : Nat}
    (h : w'.maps.lookup n = w.maps.lookup n) : w'.cow n = w.cow n := by
  simp [cow, h]

/-- A map by that name is live. -/
def Live (w : World K V) (n : Nat) : Prop := w.maps.lookup n ≠ none

theorem Live.lookup {w : World K V} {n : Nat} (h : w.Live n) :
    w.maps.lookup n = some (w.cow n) := by
  cases hc : w.maps.lookup n with
  | none => exact absurd hc h
  | some c => rw [cow_of_lookup hc]

/-- The entries of a slot, none when it holds no shard. -/
def contents (w : World K V) (n at_ : Nat) : Shard K V :=
  ((w.heldShard n at_).map w.shards.mem).getD ∅

/-- `shard` reads the shard `heldShard` points to. -/
theorem shard_eq (w : World K V) (n at_ : Nat) :
    w.shard n at_ = (w.heldShard n at_).map w.shards.mem := by
  unfold shard heldShard
  by_cases hempty : (w.cow n).dirty.entries.isEmpty
  · have hnone : (w.cow n).dirty.lookup at_.toUInt32 = none := by
      rw [AList.lookup_eq_none, AList.mem_keys, AList.keys, List.isEmpty_iff.1 hempty]
      simp
    rw [if_pos hempty, hnone]
    rfl
  · rw [if_neg hempty]
    cases (w.cow n).dirty.lookup at_.toUInt32 <;> rfl

theorem getD_shard (w : World K V) (n at_ : Nat) : (w.shard n at_).getD ∅ = w.contents n at_ := by
  rw [shard_eq]
  rfl

theorem contents_of_held {w : World K V} {n at_ : Nat} {p : Ptr}
    (h : w.heldShard n at_ = some p) : w.contents n at_ = w.shards.mem p := by
  simp [contents, h]

theorem contents_of_not_held {w : World K V} {n at_ : Nat}
    (h : w.heldShard n at_ = none) : w.contents n at_ = ∅ := by
  simp [contents, h]

/-! ## §3. Who holds a shard -/

/-- `place` holds an `Arc` to `p`. -/
inductive HasArc (w : World K V) : Place → Ptr → Prop where
  | dirty {n : Nat} {c : CowShards} {d : UInt32} {p : Ptr} (hn : w.maps.lookup n = some c)
      (hd : c.dirty.lookup d = some p) : HasArc w (.dirty n d) p
  | slot {n : Nat} {c : CowShards} {i : Nat} {p : Ptr} (hn : w.maps.lookup n = some c)
      (hi : (w.tables.mem c.slots)[i]? = some (some p)) : HasArc w (.slot c.slots i) p
  | loose {i : Nat} {p : Ptr} (hi : w.loose[i]? = some p) : HasArc w (.loose i) p

/-- `arcs` lists every live `Arc`. -/
theorem mem_arcs (w : World K V) (place : Place) (p : Ptr) :
    (place, p) ∈ w.arcs ↔ HasArc w place p := by
  unfold arcs
  simp only [List.mem_append, List.mem_flatMap, List.mem_map, List.mem_filterMap]
  constructor
  · rintro ((⟨e, he, d, hd, heq⟩ | ⟨e, he, s, hs, heq⟩) | ⟨l, hl, heq⟩)
    · cases heq
      exact .dirty ((mem_entries_iff _ _ _).1 he) ((mem_entries_iff _ _ _).1 hd)
    · obtain ⟨q, hq, heq⟩ := Option.map_eq_some_iff.1 heq
      cases heq
      refine .slot ((mem_entries_iff _ _ _).1 he) ?_
      rw [← hq]
      exact List.mk_mem_zipIdx_iff_getElem?.1 hs
    · cases heq
      exact .loose (List.mk_mem_zipIdx_iff_getElem?.1 hl)
  · rintro (⟨hn, hd⟩ | ⟨hn, hi⟩ | hi)
    · exact .inl (.inl ⟨_, (mem_entries_iff _ _ _).2 hn, _, (mem_entries_iff _ _ _).2 hd, rfl⟩)
    · exact .inl (.inr ⟨_, (mem_entries_iff _ _ _).2 hn, (some p, _),
        List.mk_mem_zipIdx_iff_getElem?.2 hi, rfl⟩)
    · exact .inr ⟨(p, _), List.mk_mem_zipIdx_iff_getElem?.2 hi, rfl⟩

/-- `Arc::get_mut` gives the shard where nothing else points to it. -/
theorem sole_iff (w : World K V) (place : Place) (p : Ptr) :
    w.sole place p = true ↔ ∀ q, HasArc w q p → q = place := by
  unfold sole
  rw [List.all_eq_true]
  constructor
  · intro h q hq
    simpa using h (q, p) ((mem_arcs w q p).2 hq)
  · rintro h ⟨q, p'⟩ hmem
    by_cases hp : p' = p
    · subst hp
      simpa using h q ((mem_arcs w q p').1 hmem)
    · simp [hp]

theorem unheld_iff (w : World K V) (p : Ptr) : w.unheld p = true ↔ ∀ q, ¬ HasArc w q p := by
  unfold unheld
  rw [List.all_eq_true]
  constructor
  · intro h q hq
    simpa using h (q, p) ((mem_arcs w q p).2 hq)
  · rintro h ⟨q, p'⟩ hmem
    by_cases hp : p' = p
    · subst hp
      exact absurd ((mem_arcs w q p').1 hmem) (h q)
    · simp [hp]

/-- The same of a slot table: no other map has it. -/
theorem soleTable_iff (w : World K V) (n : Nat) :
    w.soleTable n = true ↔
      ∀ m c, w.maps.lookup m = some c → c.slots = (w.cow n).slots → m = n := by
  unfold soleTable
  rw [List.all_eq_true]
  constructor
  · intro h m c hm hslots
    simpa [hslots] using h ⟨m, c⟩ ((mem_entries_iff _ _ _).2 hm)
  · rintro h ⟨m, c⟩ hmem
    by_cases hslots : c.slots = (w.cow n).slots
    · simpa [hslots] using h m c ((mem_entries_iff _ _ _).1 hmem) hslots
    · simp [hslots]

/-- What a slot of a live map points to is held by the map: by its overlay, or, when the
    overlay has no entry there, by its table. -/
theorem hasArc_of_heldShard {w : World K V} {n at_ : Nat} {p : Ptr} (hn : w.Live n)
    (h : w.heldShard n at_ = some p) :
    HasArc w (.dirty n at_.toUInt32) p ∨
      ((w.cow n).dirty.lookup at_.toUInt32 = none ∧ HasArc w (.slot (w.cow n).slots at_) p) := by
  unfold heldShard at h
  cases hd : (w.cow n).dirty.lookup at_.toUInt32 with
  | some q =>
    rw [hd] at h
    cases h
    exact .inl (.dirty hn.lookup hd)
  | none =>
    rw [hd, Option.none_or] at h
    exact .inr ⟨rfl, .slot hn.lookup (Option.join_eq_some_iff.1 h)⟩

/-! ## §4. The heap's invariant -/

/-- No pointer dangles, and no table has more slots than 32 bits name. -/
structure WF (w : World K V) : Prop where
  table_lt : ∀ {n c}, w.maps.lookup n = some c → c.slots < w.tables.next
  table_len : ∀ {n c}, w.maps.lookup n = some c → (w.tables.mem c.slots).length ≤ 2 ^ 32
  arc_lt : ∀ {place p}, HasArc w place p → p < w.shards.next

theorem wf_init : WF (World.init K V) where
  table_lt := by
    intro n c h
    cases h
  table_len := by
    intro n c h
    cases h
  arc_lt := by
    rintro place p (⟨hn, -⟩ | ⟨hn, -⟩ | hi)
    · cases hn
    · cases hn
    · cases hi

theorem WF.held_lt {w : World K V} (hw : WF w) {n at_ : Nat} {p : Ptr} (hn : w.Live n)
    (h : w.heldShard n at_ = some p) : p < w.shards.next := by
  rcases hasArc_of_heldShard hn h with harc | ⟨-, harc⟩
  · exact hw.arc_lt harc
  · exact hw.arc_lt harc

/-! ## §5. The frame of an operation on one map -/

/-- `p` is held by another map than `n`, or outside any map. -/
def OtherArc (w : World K V) (n : Nat) (p : Ptr) : Prop :=
  (∃ m c, m ≠ n ∧ w.maps.lookup m = some c ∧
    ((∃ d, c.dirty.lookup d = some p) ∨ ∃ i : Nat, (w.tables.mem c.slots)[i]? = some (some p)))
  ∨ p ∈ w.loose

theorem otherArc_of_heldShard {w : World K V} {n m at_ : Nat} {p : Ptr} (hm : w.Live m)
    (hne : m ≠ n) (h : w.heldShard m at_ = some p) : w.OtherArc n p := by
  refine .inl ⟨m, w.cow m, hne, hm.lookup, ?_⟩
  unfold heldShard at h
  cases hd : (w.cow m).dirty.lookup at_.toUInt32 with
  | some q =>
    rw [hd] at h
    cases h
    exact .inl ⟨_, hd⟩
  | none =>
    rw [hd, Option.none_or] at h
    exact .inr ⟨_, Option.join_eq_some_iff.1 h⟩

theorem OtherArc.hasArc {w : World K V} {n : Nat} {p : Ptr} (h : w.OtherArc n p) :
    ∃ place, HasArc w place p := by
  rcases h with ⟨m, c, -, hm, ⟨d, hd⟩ | ⟨i, hi⟩⟩ | hloose
  · exact ⟨_, .dirty hm hd⟩
  · exact ⟨_, .slot hm hi⟩
  · obtain ⟨i, hi⟩ := List.mem_iff_getElem?.1 hloose
    exact ⟨_, .loose hi⟩

/-- **The frame of an operation on map `n`**: other maps' pointers and tables stay, no shard
    that another map or a local holds is written, and `n` stays live and forked or not. -/
structure Keeps (w w' : World K V) (n : Nat) : Prop where
  maps : ∀ m, m ≠ n → w'.maps.lookup m = w.maps.lookup m
  tables : ∀ m c, m ≠ n → w.maps.lookup m = some c →
    w'.tables.mem c.slots = w.tables.mem c.slots
  mem : ∀ p, w.OtherArc n p → w'.shards.mem p = w.shards.mem p
  loose : ∀ p, p ∈ w.loose → p ∈ w'.loose
  live : w'.Live n
  forked : (w'.cow n).forked = (w.cow n).forked
  next : w.tables.next ≤ w'.tables.next

theorem Keeps.refl {w : World K V} {n : Nat} (hn : w.Live n) : Keeps w w n :=
  ⟨fun _ _ => rfl, fun _ _ _ _ => rfl, fun _ _ => rfl, fun _ h => h, hn, rfl, le_rfl⟩

/-- What others hold they hold afterwards. -/
theorem Keeps.otherArc {w w' : World K V} {n : Nat} (h : Keeps w w' n) {p : Ptr}
    (hp : w.OtherArc n p) : w'.OtherArc n p := by
  rcases hp with ⟨m, c, hne, hm, hc⟩ | hloose
  · refine .inl ⟨m, c, hne, (h.maps m hne).trans hm, ?_⟩
    rw [h.tables m c hne hm]
    exact hc
  · exact .inr (h.loose p hloose)

/-- Operations on one map, one after the other. -/
theorem Keeps.trans {w w' w'' : World K V} {n : Nat} (h : Keeps w w' n) (h' : Keeps w' w'' n) :
    Keeps w w'' n where
  maps m hne := (h'.maps m hne).trans (h.maps m hne)
  tables m c hne hm :=
    (h'.tables m c hne ((h.maps m hne).trans hm)).trans (h.tables m c hne hm)
  mem p hp := (h'.mem p (h.otherArc hp)).trans (h.mem p hp)
  loose p hp := h'.loose p (h.loose p hp)
  live := h'.live
  forked := h'.forked.trans h.forked
  next := h.next.trans h'.next

theorem Keeps.live_iff {w w' : World K V} {n : Nat} (hn : w.Live n) (h : Keeps w w' n)
    (m : Nat) : w'.Live m ↔ w.Live m := by
  by_cases hne : m = n
  · subst hne
    exact ⟨fun _ => hn, fun _ => h.live⟩
  · simp only [Live, h.maps m hne]

theorem Keeps.heldShard_eq {w w' : World K V} {n : Nat} (h : Keeps w w' n) {m : Nat}
    (hne : m ≠ n) (hm : w.Live m) (at_ : Nat) : w'.heldShard m at_ = w.heldShard m at_ := by
  have hcow : w'.cow m = w.cow m := cow_congr (h.maps m hne)
  simp only [heldShard, table, hcow]
  rw [h.tables m _ hne hm.lookup]

/-- **Isolation**: every other map reads as it did. -/
theorem Keeps.contents_eq {w w' : World K V} {n : Nat} (h : Keeps w w' n) {m : Nat}
    (hne : m ≠ n) (hm : w.Live m) (at_ : Nat) : w'.contents m at_ = w.contents m at_ := by
  unfold contents
  rw [h.heldShard_eq hne hm]
  cases hp : w.heldShard m at_ with
  | none => rfl
  | some p =>
    show w'.shards.mem p = w.shards.mem p
    exact h.mem p (otherArc_of_heldShard hm hne hp)

end World

end GluaLs.Cow

namespace GluaLs.Cow.World

open GluaLs.Lib

variable {K V : Type} {w : World K V} {n : Nat}

/-! ## §6. Overlay steps -/

theorem cow_setDirty (d : UInt32) (p : Ptr) :
    (w.setDirty n d p).cow n = { w.cow n with dirty := (w.cow n).dirty.insert d p } := by
  simp [setDirty, cow]

/-- An overlay entry hides the table's. -/
theorem heldShard_setDirty (at_ i : Nat) (p : Ptr) (hat : at_ < 2 ^ 32) (hi : i < 2 ^ 32) :
    (w.setDirty n at_.toUInt32 p).heldShard n i =
      if i = at_ then some p else w.heldShard n i := by
  unfold heldShard table
  rw [cow_setDirty]
  simp only [lookup_insert_ite]
  by_cases h : i = at_
  · subst h
    simp
  · have hne : i.toUInt32 ≠ at_.toUInt32 := fun he => h (toUInt32_inj hi hat he)
    rw [if_neg hne, if_neg h]
    rfl

/-- A map that is put takes its overlay along; its table is one of `n`. -/
theorem hasArc_put (hn : w.Live n) {m : Nat} {c : CowShards} (hslots : c.slots = (w.cow n).slots)
    {place : Place} {p : Ptr} (h : HasArc (w.put m c) place p) :
    (∃ d, place = .dirty m d ∧ c.dirty.lookup d = some p) ∨
      ((∀ d, place ≠ .dirty m d) ∧ HasArc w place p) := by
  rcases h with @⟨x, c', d, p, hx, hd⟩ | @⟨x, c', i, p, hx, hi⟩ | hi
  · rw [lookup_put] at hx
    split_ifs at hx with hxm
    · subst hxm
      cases hx
      exact .inl ⟨d, rfl, hd⟩
    · exact .inr ⟨by simp [hxm], .dirty hx hd⟩
  · refine .inr ⟨by simp, ?_⟩
    rw [lookup_put] at hx
    split_ifs at hx with hxm
    · cases hx
      rw [hslots] at hi ⊢
      exact .slot hn.lookup hi
    · exact .slot hx hi
  · exact .inr ⟨by simp, .loose hi⟩

/-- The entry of one slot is replaced, and nothing else. -/
theorem hasArc_setDirty (hn : w.Live n) {d : UInt32} {p q : Ptr} {place : Place}
    (h : HasArc (w.setDirty n d p) place q) :
    (place = .dirty n d ∧ q = p) ∨ (place ≠ .dirty n d ∧ HasArc w place q) := by
  unfold setDirty at h
  rcases hasArc_put hn (by rfl) h with ⟨d', rfl, hd⟩ | ⟨hne, harc⟩
  · obtain ⟨rfl, rfl⟩ | ⟨hdd, hd⟩ := lookup_insert_some hd
    · exact .inl ⟨rfl, rfl⟩
    · exact .inr ⟨by simp [hdd], .dirty hn.lookup hd⟩
  · exact .inr ⟨hne d, harc⟩

theorem keeps_put (c : CowShards) (hc : c.forked = (w.cow n).forked) : Keeps w (w.put n c) n where
  maps m hne := by simp [hne]
  tables _ _ _ _ := rfl
  mem _ _ := rfl
  loose _ hp := hp
  live := by simp [Live]
  forked := by simpa [cow] using hc
  next := le_rfl

theorem keeps_setDirty (d : UInt32) (p : Ptr) : Keeps w (w.setDirty n d p) n :=
  keeps_put _ rfl

theorem wf_put (hw : WF w) (hn : w.Live n) {m : Nat} {c : CowShards}
    (hslots : c.slots = (w.cow n).slots)
    (hd : ∀ d p, c.dirty.lookup d = some p → p < w.shards.next) : WF (w.put m c) where
  table_lt := by
    intro x c' hx
    rw [lookup_put] at hx
    split_ifs at hx
    · cases hx
      exact hslots ▸ hw.table_lt hn.lookup
    · exact hw.table_lt hx
  table_len := by
    intro x c' hx
    rw [lookup_put] at hx
    split_ifs at hx
    · cases hx
      exact hslots ▸ hw.table_len hn.lookup
    · exact hw.table_len hx
  arc_lt := by
    intro place p h
    rcases hasArc_put hn hslots h with ⟨d, -, hp⟩ | ⟨-, h⟩
    · exact hd d p hp
    · exact hw.arc_lt h

theorem wf_setDirty (hw : WF w) (hn : w.Live n) (d : UInt32) {p : Ptr} (hp : p < w.shards.next) :
    WF (w.setDirty n d p) := by
  refine wf_put hw hn rfl ?_
  intro d' q hq
  obtain ⟨-, rfl⟩ | ⟨-, hq⟩ := lookup_insert_some hq
  · exact hp
  · exact hw.arc_lt (.dirty hn.lookup hq)

/-! ## §7. New shards -/

section

variable (s : Shard K V)

@[simp] theorem cow_newShard (m : Nat) : (w.newShard s).1.cow m = w.cow m := rfl

@[simp] theorem table_newShard (m : Nat) : (w.newShard s).1.table m = w.table m := rfl

@[simp] theorem heldShard_newShard (m i : Nat) :
    (w.newShard s).1.heldShard m i = w.heldShard m i := rfl

theorem hasArc_newShard {place : Place} {p : Ptr} :
    HasArc (w.newShard s).1 place p ↔ HasArc w place p := by
  constructor
  · rintro (⟨hm, hd⟩ | ⟨hm, hi⟩ | hi)
    · exact .dirty hm hd
    · exact .slot hm hi
    · exact .loose hi
  · rintro (⟨hm, hd⟩ | ⟨hm, hi⟩ | hi)
    · exact .dirty hm hd
    · exact .slot hm hi
    · exact .loose hi

theorem mem_newShard {p : Ptr} (hp : p < w.shards.next) :
    (w.newShard s).1.shards.mem p = w.shards.mem p :=
  Heap.alloc_mem_of_lt _ _ _ hp

theorem mem_newShard_self : (w.newShard s).1.shards.mem w.shards.next = s :=
  Heap.alloc_mem_next _ _

end

theorem keeps_newShard (hw : WF w) (hn : w.Live n) (s : Shard K V) :
    Keeps w (w.newShard s).1 n where
  maps _ _ := rfl
  tables _ _ _ _ := rfl
  mem p hp := by
    obtain ⟨place, harc⟩ := hp.hasArc
    exact mem_newShard s (hw.arc_lt harc)
  loose _ hp := hp
  live := hn
  forked := rfl
  next := le_rfl

theorem wf_newShard (hw : WF w) (s : Shard K V) : WF (w.newShard s).1 where
  table_lt hm := hw.table_lt hm
  table_len hm := hw.table_len hm
  arc_lt h := Nat.lt_succ_of_lt (hw.arc_lt ((hasArc_newShard s).1 h))

/-! ## §8. Table steps -/

section

variable (slots : List (Option Ptr))

theorem cow_newTable : (w.newTable n slots).cow n = { w.cow n with slots := w.tables.next } := by
  simp [newTable, cow]

theorem table_newTable : (w.newTable n slots).table n = slots := by
  unfold table
  rw [cow_newTable]
  exact Heap.alloc_mem_next _ _

theorem lookup_newTable (m : Nat) :
    (w.newTable n slots).maps.lookup m =
      if m = n then some { w.cow n with slots := w.tables.next } else w.maps.lookup m :=
  lookup_insert_ite _ _ _ _

theorem mem_newTable {t : Ptr} (ht : t < w.tables.next) :
    (w.newTable n slots).tables.mem t = w.tables.mem t :=
  Heap.alloc_mem_of_lt _ _ _ ht

end

theorem hasArc_newTable (hw : WF w) (hn : w.Live n) {slots : List (Option Ptr)} {place : Place}
    {p : Ptr} (h : HasArc (w.newTable n slots) place p) :
    (∃ i : Nat, place = .slot w.tables.next i ∧ slots[i]? = some (some p)) ∨
      ((∀ i, place ≠ .slot w.tables.next i) ∧ HasArc w place p) := by
  rcases h with @⟨m, c, d, p, hm, hd⟩ | @⟨m, c, i, p, hm, hi⟩ | hi
  · rw [lookup_newTable] at hm
    split_ifs at hm with hmn
    · subst hmn
      cases hm
      exact .inr ⟨by simp, .dirty hn.lookup hd⟩
    · exact .inr ⟨by simp, .dirty hm hd⟩
  · rw [lookup_newTable] at hm
    split_ifs at hm with hmn
    · cases hm
      have hslots : (w.newTable n slots).tables.mem w.tables.next = slots :=
        Heap.alloc_mem_next _ _
      rw [hslots] at hi
      exact .inl ⟨i, rfl, hi⟩
    · have hlt := hw.table_lt hm
      rw [mem_newTable slots hlt] at hi
      refine .inr ⟨?_, .slot hm hi⟩
      intro j hj
      injection hj with ht
      exact Nat.ne_of_lt hlt ht
  · exact .inr ⟨by simp, .loose hi⟩

/-- No map has the new table but `n`. -/
theorem keeps_newTable (hw : WF w) (slots : List (Option Ptr)) :
    Keeps w (w.newTable n slots) n where
  maps m hne := by rw [lookup_newTable, if_neg hne]
  tables _ _ _ hm := mem_newTable slots (hw.table_lt hm)
  mem _ _ := rfl
  loose _ hp := hp
  live := by simp [Live, lookup_newTable]
  forked := by rw [cow_newTable]
  next := Nat.le_succ _

theorem wf_newTable (hw : WF w) (hn : w.Live n) {slots : List (Option Ptr)}
    (hlen : slots.length ≤ 2 ^ 32)
    (hslots : ∀ (i : Nat) p, slots[i]? = some (some p) → p < w.shards.next) :
    WF (w.newTable n slots) where
  table_lt := by
    intro m c hm
    rw [lookup_newTable] at hm
    split_ifs at hm with hmn
    · cases hm
      exact Nat.lt_succ_self _
    · exact Nat.lt_succ_of_lt (hw.table_lt hm)
  table_len := by
    intro m c hm
    rw [lookup_newTable] at hm
    split_ifs at hm with hmn
    · cases hm
      show ((w.tables.alloc slots).mem w.tables.next).length ≤ _
      rw [Heap.alloc_mem_next]
      exact hlen
    · rw [mem_newTable slots (hw.table_lt hm)]
      exact hw.table_len hm
  arc_lt := by
    intro place p h
    rcases hasArc_newTable hw hn h with ⟨i, -, hi⟩ | ⟨-, h⟩
    · exact hslots i p hi
    · exact hw.arc_lt h

theorem soleTable_newTable (hw : WF w) (slots : List (Option Ptr)) :
    (w.newTable n slots).soleTable n = true := by
  rw [soleTable_iff]
  intro m c hm hslots
  rw [cow_newTable] at hslots
  rw [lookup_newTable] at hm
  split_ifs at hm with hmn
  · exact hmn
  · have hlt := hw.table_lt hm
    rw [hslots] at hlt
    exact absurd hlt (lt_irrefl _)

@[simp] theorem cow_setSlot (i m : Nat) (o : Option Ptr) : (w.setSlot n i o).cow m = w.cow m := rfl

theorem table_setSlot (i : Nat) (o : Option Ptr) :
    (w.setSlot n i o).table n = (w.table n).set i o :=
  Heap.write_mem_self _ _ _

theorem heldShard_setSlot (at_ i : Nat) (o : Option Ptr) (hat : at_ < (w.table n).length) :
    (w.setSlot n at_ o).heldShard n i =
      if i = at_ then ((w.cow n).dirty.lookup i.toUInt32).or o else w.heldShard n i := by
  unfold heldShard
  rw [table_setSlot, cow_setSlot]
  by_cases h : i = at_
  · subst h
    rw [if_pos rfl, List.getElem?_set_self hat]
    rfl
  · rw [if_neg h, List.getElem?_set_ne (Ne.symm h)]

theorem hasArc_setSlot (hs : w.soleTable n = true) {i : Nat} {o : Option Ptr}
    {place : Place} {p : Ptr} (h : HasArc (w.setSlot n i o) place p) :
    (place = .slot (w.cow n).slots i ∧ o = some p) ∨
      (place ≠ .slot (w.cow n).slots i ∧ HasArc w place p) := by
  rcases h with @⟨m, c, d, p, hm, hd⟩ | @⟨m, c, j, p, hm, hj⟩ | hi
  · exact .inr ⟨by simp, .dirty hm hd⟩
  · by_cases hslots : c.slots = (w.cow n).slots
    · have hmn := (soleTable_iff w n).1 hs m c hm hslots
      subst hmn
      rw [hslots] at hj ⊢
      have hj' : ((w.table m).set i o)[j]? = some (some p) := by
        rw [← table_setSlot]
        exact hj
      by_cases hji : j = i
      · subst hji
        rw [List.getElem?_set] at hj'
        split_ifs at hj' with h1 h2
        · exact .inl ⟨rfl, by simpa using hj'⟩
        · simp at h1
      · rw [List.getElem?_set_ne (Ne.symm hji)] at hj'
        refine .inr ⟨by simp [hji], ?_⟩
        rw [← hslots]
        refine .slot hm ?_
        rw [hslots]
        exact hj'
    · refine .inr ⟨by simp [hslots], .slot hm ?_⟩
      have hmem : (w.setSlot n i o).tables.mem c.slots = w.tables.mem c.slots :=
        Heap.write_mem_of_ne _ _ _ _ hslots
      rwa [hmem] at hj
  · exact .inr ⟨by simp, .loose hi⟩

/-- A table that `n` alone has is written in place. -/
theorem keeps_setSlot (hn : w.Live n) (hs : w.soleTable n = true) (i : Nat) (o : Option Ptr) :
    Keeps w (w.setSlot n i o) n where
  maps _ _ := rfl
  tables m c hne hm := by
    refine Heap.write_mem_of_ne _ _ _ _ ?_
    intro hslots
    exact hne ((soleTable_iff w n).1 hs m c hm hslots)
  mem _ _ := rfl
  loose _ hp := hp
  live := hn
  forked := rfl
  next := le_rfl

theorem wf_setSlot (hw : WF w) (hn : w.Live n) (hs : w.soleTable n = true) (i : Nat)
    {o : Option Ptr} (ho : ∀ p, o = some p → p < w.shards.next) : WF (w.setSlot n i o) where
  table_lt hm := hw.table_lt hm
  table_len := by
    intro m c hm
    by_cases hslots : c.slots = (w.cow n).slots
    · show ((w.tables.write _ _).mem c.slots).length ≤ _
      rw [hslots, Heap.write_mem_self, List.length_set]
      exact hw.table_len hn.lookup
    · show ((w.tables.write _ _).mem c.slots).length ≤ _
      rw [Heap.write_mem_of_ne _ _ _ _ hslots]
      exact hw.table_len hm
  arc_lt := by
    intro place p h
    rcases hasArc_setSlot hs h with ⟨-, ho'⟩ | ⟨-, h⟩
    · exact ho p ho'
    · exact hw.arc_lt h

/-! ## §9. Shards written in place, and loose pointers -/

theorem hasArc_writeShard (q : Ptr) (s : Shard K V) {place : Place} {p : Ptr} :
    HasArc (w.writeShard q s) place p ↔ HasArc w place p := by
  constructor
  · rintro (⟨hm, hd⟩ | ⟨hm, hi⟩ | hi)
    · exact .dirty hm hd
    · exact .slot hm hi
    · exact .loose hi
  · rintro (⟨hm, hd⟩ | ⟨hm, hi⟩ | hi)
    · exact .dirty hm hd
    · exact .slot hm hi
    · exact .loose hi

/-- A shard is written in place where nobody else holds it. -/
theorem keeps_writeShard (hn : w.Live n) {q : Ptr} (hq : ¬ w.OtherArc n q) (s : Shard K V) :
    Keeps w (w.writeShard q s) n where
  maps _ _ := rfl
  tables _ _ _ _ := rfl
  mem p hp := by
    refine Heap.write_mem_of_ne _ _ _ _ ?_
    rintro rfl
    exact hq hp
  loose _ hp := hp
  live := hn
  forked := rfl
  next := le_rfl

theorem wf_writeShard (hw : WF w) (q : Ptr) (s : Shard K V) : WF (w.writeShard q s) where
  table_lt hm := hw.table_lt hm
  table_len hm := hw.table_len hm
  arc_lt h := hw.arc_lt ((hasArc_writeShard q s).1 h)

theorem keeps_hold (hn : w.Live n) (ps : List Ptr) : Keeps w (w.hold ps) n where
  maps _ _ := rfl
  tables _ _ _ _ := rfl
  mem _ _ := rfl
  loose _ hp := List.mem_append_left ps hp
  live := hn
  forked := rfl
  next := le_rfl

theorem wf_hold (hw : WF w) {ps : List Ptr} (hps : ∀ p ∈ ps, p < w.shards.next) :
    WF (w.hold ps) where
  table_lt hm := hw.table_lt hm
  table_len hm := hw.table_len hm
  arc_lt := by
    intro place p h
    rcases h with ⟨hm, hd⟩ | ⟨hm, hi⟩ | hi
    · exact hw.arc_lt (.dirty hm hd)
    · exact hw.arc_lt (.slot hm hi)
    · have hmem : p ∈ w.loose ++ ps := List.mem_iff_getElem?.2 ⟨_, hi⟩
      rcases List.mem_append.1 hmem with hl | hl
      · obtain ⟨j, hj⟩ := List.mem_iff_getElem?.1 hl
        exact hw.arc_lt (.loose hj)
      · exact hps p hl

end GluaLs.Cow.World
