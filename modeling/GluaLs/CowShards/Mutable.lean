/-
  GluaLs.CowShards.Mutable — a shard made writable.

  `shard_mut`, and `install_shard_mut` with it, hand out the shard of one slot for writing.
  `MadeMut` is what they leave: the map alone holds the shard (`Owned`), it holds what the
  slot held, every other slot points where it did, and nothing was overwritten on the way.
  `MadeMut.write` is then the write itself.
-/
import GluaLs.CowShards.Steps

namespace GluaLs.Cow.World

open GluaLs.Lib

variable {K V : Type} {w : World K V} {n : Nat}

/-! ## §1. The table made writable -/

theorem le_nextMultipleOfChunk (i : Nat) : i ≤ nextMultipleOfChunk i := by
  unfold nextMultipleOfChunk SLOT_CHUNK
  omega

theorem nextMultipleOfChunk_le (i : Nat) (hi : i ≤ 2 ^ 32) : nextMultipleOfChunk i ≤ 2 ^ 32 := by
  unfold nextMultipleOfChunk SLOT_CHUNK
  omega

theorem join_getElem?_append_replicate (l : List (Option Ptr)) (k i : Nat) :
    (l ++ List.replicate k none)[i]?.join = l[i]?.join := by
  rw [List.getElem?_append]
  split_ifs with h
  · rfl
  · rw [List.getElem?_eq_none (Nat.le_of_not_lt h), List.getElem?_replicate]
    split_ifs <;> rfl

/-- Every `Arc` after a step on map `n` was there before, in the same place or in the same
    slot of the map's former table. -/
def Inherited (w w' : World K V) (n : Nat) (place : Place) (p : Ptr) : Prop :=
  HasArc w place p ∨
    ∃ i, place = .slot (w'.cow n).slots i ∧ HasArc w (.slot (w.cow n).slots i) p

/-- What `slots_mut` leaves: a table long enough that the map alone holds, pointing where the
    old one did. -/
structure MadeSlots (w w' : World K V) (n at_ : Nat) : Prop where
  keeps : Keeps w w' n
  wf : WF w'
  sole : w'.soleTable n = true
  lt : at_ < (w'.table n).length
  join : ∀ i : Nat, (w'.table n)[i]?.join = (w.table n)[i]?.join
  dirty : (w'.cow n).dirty = (w.cow n).dirty
  slots : (w'.cow n).slots = (w.cow n).slots ∨ w.tables.next ≤ (w'.cow n).slots
  shards : w'.shards = w.shards
  loose : w'.loose = w.loose
  arcs : ∀ place p, HasArc w' place p → Inherited w w' n place p

/-- A copy of the table, padded with empty slots, given to the map alone. -/
theorem madeSlots_newTable (hw : WF w) (hn : w.Live n) (k at_ : Nat)
    (hlen : (w.table n).length + k ≤ 2 ^ 32) (hat : at_ < (w.table n).length + k) :
    MadeSlots w (w.newTable n (w.table n ++ List.replicate k none)) n at_ where
  keeps := keeps_newTable hw _
  wf := by
    refine wf_newTable hw hn (by simpa using hlen) ?_
    intro i p hi
    have hj : (w.table n)[i]?.join = some p := by
      rw [← join_getElem?_append_replicate _ k i, hi]
      rfl
    exact hw.arc_lt (.slot hn.lookup (Option.join_eq_some_iff.1 hj))
  sole := soleTable_newTable hw _
  lt := by
    rw [table_newTable]
    simpa using hat
  join i := by
    rw [table_newTable]
    exact join_getElem?_append_replicate _ k i
  dirty := by rw [cow_newTable]
  slots := .inr (by rw [cow_newTable])
  shards := rfl
  loose := rfl
  arcs := by
    intro place p harc
    rcases hasArc_newTable hw hn harc with ⟨i, rfl, hi⟩ | ⟨-, harc⟩
    · have hj : (w.table n)[i]?.join = some p := by
        rw [← join_getElem?_append_replicate _ k i, hi]
        rfl
      exact .inr ⟨i, by rw [cow_newTable], .slot hn.lookup (Option.join_eq_some_iff.1 hj)⟩
    · exact .inl harc

/-- The second half of `slots_mut`: `Arc::make_mut` of a table that is long enough. -/
theorem madeSlots_makeMut (hw : WF w) (hn : w.Live n) (at_ : Nat)
    (hat : at_ < (w.table n).length) :
    MadeSlots w (if w.soleTable n then w else w.newTable n (w.table n)) n at_ := by
  split_ifs with hs
  · exact ⟨.refl hn, hw, hs, hat, fun _ => rfl, rfl, .inl rfl, rfl, rfl, fun _ _ => .inl⟩
  · have hlen := hw.table_len hn.lookup
    have hcopy := madeSlots_newTable hw hn 0 at_ hlen hat
    simpa using hcopy

theorem slotsMut_spec (hw : WF w) (hn : w.Live n) (at_ : Nat) (hat : at_ < 2 ^ 32) :
    MadeSlots w (w.slotsMut n at_) n at_ := by
  unfold slotsMut
  by_cases hlen : (w.table n).length ≤ at_
  · -- grown: the fresh table is the map's own already, so the `make_mut` finds it so
    have hle := le_nextMultipleOfChunk (at_ + 1)
    have hle' := nextMultipleOfChunk_le (at_ + 1) hat
    have hgrow := madeSlots_newTable hw hn
      (nextMultipleOfChunk (at_ + 1) - (w.table n).length) at_ (by omega) (by omega)
    rw [if_pos hlen]
    simp only
    rw [if_pos hgrow.sole]
    exact hgrow
  · rw [if_neg hlen]
    exact madeSlots_makeMut hw hn at_ (Nat.lt_of_not_le hlen)

theorem MadeSlots.heldShard {w' : World K V} {at_ : Nat} (h : MadeSlots w w' n at_) (i : Nat) :
    w'.heldShard n i = w.heldShard n i := by
  unfold World.heldShard
  rw [h.dirty, h.join i]

/-! ## §2. The shard made writable -/

/-- The place that holds the shard of a slot. -/
def place (w : World K V) (n at_ : Nat) : Place :=
  if ((w.cow n).dirty.lookup at_.toUInt32).isSome then .dirty n at_.toUInt32
  else .slot (w.cow n).slots at_

/-- Map `n` alone holds the shard `q` of its slot `at`. -/
structure Owned (w : World K V) (n at_ : Nat) (q : Ptr) : Prop where
  held : w.heldShard n at_ = some q
  sole : ∀ p, HasArc w p q → p = w.place n at_
  table : (w.cow n).dirty.lookup at_.toUInt32 = none → w.soleTable n = true

theorem Owned.not_otherArc {at_ : Nat} {q : Ptr} (h : Owned w n at_ q) : ¬ w.OtherArc n q := by
  rintro (⟨m, c, hne, hm, ⟨d, hd⟩ | ⟨i, hi⟩⟩ | hloose)
  · have hplace := h.sole _ (.dirty hm hd)
    unfold place at hplace
    split_ifs at hplace
    injection hplace with hmn
    exact hne hmn
  · have hplace := h.sole _ (.slot hm hi)
    unfold place at hplace
    split_ifs at hplace with hd
    injection hplace with hslots
    have hs := h.table (by simpa using hd)
    exact hne ((soleTable_iff w n).1 hs m c hm hslots)
  · obtain ⟨i, hi⟩ := List.mem_iff_getElem?.1 hloose
    have hplace := h.sole _ (.loose hi)
    unfold place at hplace
    split_ifs at hplace

theorem Owned.ne_of_ne {at_ i : Nat} {q : Ptr} (hn : w.Live n) (h : Owned w n at_ q)
    (hat : at_ < 2 ^ 32) (hi : i < 2 ^ 32) (hne : i ≠ at_) : w.heldShard n i ≠ some q := by
  intro hheld
  have harc := hasArc_of_heldShard hn hheld
  have hne32 : i.toUInt32 ≠ at_.toUInt32 := fun he => hne (toUInt32_inj hi hat he)
  rcases harc with harc | ⟨-, harc⟩
  · have hplace := h.sole _ harc
    unfold place at hplace
    split_ifs at hplace
    injection hplace with _ hd
    exact hne32 hd
  · have hplace := h.sole _ harc
    unfold place at hplace
    split_ifs at hplace
    injection hplace with _ hi'
    exact hne hi'

/-- A map keeps its table or has a fresh one; a fork's writes only add to its overlay while it
    keeps its table. -/
def Grows (w w' : World K V) (n : Nat) : Prop :=
  ((w'.cow n).slots = (w.cow n).slots ∧ ((w.cow n).forked = true →
      ∀ d, (w.cow n).dirty.lookup d ≠ none → (w'.cow n).dirty.lookup d ≠ none))
    ∨ w.tables.next ≤ (w'.cow n).slots

theorem Grows.refl : Grows w w n := .inl ⟨rfl, fun _ _ h => h⟩

theorem Grows.trans_next {w' w'' : World K V} (hf : (w'.cow n).forked = (w.cow n).forked)
    (hnext : w.tables.next ≤ w'.tables.next) (h : Grows w w' n) (h' : Grows w' w'' n) :
    Grows w w'' n := by
  rcases h' with ⟨hslots', hdirty'⟩ | hfresh'
  · rcases h with ⟨hslots, hdirty⟩ | hfresh
    · exact .inl ⟨hslots'.trans hslots, fun hforked d hd =>
        hdirty' (hf.trans hforked) d (hdirty hforked d hd)⟩
    · exact .inr (hslots' ▸ hfresh)
  · exact .inr (hnext.trans hfresh')

/-- What was done before left the map as it was. -/
theorem Grows.after {w' w'' : World K V} (hcow : w'.cow n = w.cow n)
    (hnext : w.tables.next ≤ w'.tables.next) (h : Grows w' w'' n) : Grows w w'' n := by
  unfold Grows at h
  rw [hcow] at h
  exact h.imp_right hnext.trans

theorem Grows.trans {w' w'' : World K V} (hk : Keeps w w' n) (h : Grows w w' n)
    (h' : Grows w' w'' n) : Grows w w'' n :=
  h.trans_next hk.forked hk.next h'

/-- What handing out the shard of slot `at` for writing leaves. -/
structure MadeMut (w w' : World K V) (n at_ : Nat) (q : Ptr) : Prop where
  keeps : Keeps w w' n
  wf : WF w'
  owned : Owned w' n at_ q
  mem_self : w'.shards.mem q = w.contents n at_
  held : ∀ i, i < 2 ^ 32 → i ≠ at_ → w'.heldShard n i = w.heldShard n i
  mem : ∀ p, p < w.shards.next → w'.shards.mem p = w.shards.mem p
  loose : w'.loose = w.loose
  grows : Grows w w' n
  dirty : ∀ d, d ≠ at_.toUInt32 → (w'.cow n).dirty.lookup d = (w.cow n).dirty.lookup d
  table : w.soleTable n = true → w'.soleTable n = true
  arcs : ∀ place p, HasArc w' place p → place = w'.place n at_ ∨ Inherited w w' n place p

theorem soleTable_of_slots_eq {w' : World K V} (hk : Keeps w w' n)
    (hslots : (w'.cow n).slots = (w.cow n).slots) (hs : w.soleTable n = true) :
    w'.soleTable n = true := by
  rw [soleTable_iff] at hs ⊢
  intro m c hm hc
  by_cases hne : m = n
  · exact hne
  · exact hs m c ((hk.maps m hne).symm.trans hm) (hc.trans hslots)

/-- A shard the map alone holds is handed out as it is. -/
theorem Owned.madeMut {at_ : Nat} {p : Ptr} (ho : Owned w n at_ p) (hw : WF w) (hn : w.Live n) :
    MadeMut w w n at_ p :=
  ⟨.refl hn, hw, ho, (contents_of_held ho.held).symm, fun _ _ _ => rfl, fun _ _ => rfl, rfl,
    .refl, fun _ _ => rfl, fun h => h, fun _ _ h => .inr (.inl h)⟩

/-- A step that only prepares the shard of slot `at`: a reader sees no difference, and new
    `Arc`s are only held at `place`. -/
structure Prepared (w w' : World K V) (n at_ : Nat) (place : Place) : Prop where
  keeps : Keeps w w' n
  grows : Grows w w' n
  self : w'.contents n at_ = w.contents n at_
  held : ∀ i, i < 2 ^ 32 → i ≠ at_ → w'.heldShard n i = w.heldShard n i
  mem : ∀ p, p < w.shards.next → w'.shards.mem p = w.shards.mem p
  next : w.shards.next ≤ w'.shards.next
  loose : w'.loose = w.loose
  dirty : ∀ d, d ≠ at_.toUInt32 → (w'.cow n).dirty.lookup d = (w.cow n).dirty.lookup d
  table : w.soleTable n = true → w'.soleTable n = true
  arcs : ∀ pl p, HasArc w' pl p → pl = place ∨ Inherited w w' n pl p

theorem MadeMut.of_prepared {w₁ w' : World K V} {at_ : Nat} {q : Ptr} (h : MadeMut w₁ w' n at_ q)
    (hp : Prepared w w₁ n at_ (w'.place n at_)) (hslots : (w'.cow n).slots = (w₁.cow n).slots) :
    MadeMut w w' n at_ q where
  keeps := hp.keeps.trans h.keeps
  wf := h.wf
  owned := h.owned
  mem_self := h.mem_self.trans hp.self
  held i hi hne := (h.held i hi hne).trans (hp.held i hi hne)
  mem p hlt := (h.mem p (Nat.lt_of_lt_of_le hlt hp.next)).trans (hp.mem p hlt)
  loose := h.loose.trans hp.loose
  grows := hp.grows.trans hp.keeps h.grows
  dirty d hd := (h.dirty d hd).trans (hp.dirty d hd)
  table hs := h.table (hp.table hs)
  arcs := by
    intro place p harc
    have hstep : HasArc w₁ place p → place = w'.place n at_ ∨ Inherited w w' n place p := by
      intro harc₁
      rcases hp.arcs place p harc₁ with hpl | hold | ⟨i, hpl, hold⟩
      · exact .inl hpl
      · exact .inr (.inl hold)
      · exact .inr (.inr ⟨i, by rw [hpl, hslots], hold⟩)
    rcases h.arcs place p harc with hpl | harc₁ | ⟨i, rfl, harc₁⟩
    · exact .inl hpl
    · exact hstep harc₁
    · rw [hslots] at hstep ⊢
      exact hstep harc₁

/-- A prepared shard that nothing held before is handed out. -/
theorem Prepared.made {w' : World K V} {at_ : Nat} {q : Ptr}
    (h : Prepared w w' n at_ (w'.place n at_)) (hw : WF w')
    (hheld : w'.heldShard n at_ = some q) (hfree : ∀ place, ¬ HasArc w place q)
    (htable : (w'.cow n).dirty.lookup at_.toUInt32 = none → w'.soleTable n = true) :
    MadeMut w w' n at_ q where
  keeps := h.keeps
  wf := hw
  owned := by
    refine ⟨hheld, ?_, htable⟩
    intro place harc
    obtain hplace | hold | ⟨i, -, hold⟩ := h.arcs place q harc
    · exact hplace
    · exact absurd hold (hfree _)
    · exact absurd hold (hfree _)
  mem_self := (contents_of_held hheld).symm.trans h.self
  held := h.held
  mem := h.mem
  loose := h.loose
  grows := h.grows
  dirty := h.dirty
  table := h.table
  arcs := h.arcs

theorem grows_setDirty (d : UInt32) (p : Ptr) : Grows w (w.setDirty n d p) n := by
  refine .inl ⟨by rw [cow_setDirty], ?_⟩
  intro _ d' hd'
  rw [cow_setDirty]
  simp only [lookup_insert_ite]
  split_ifs <;> simp_all

/-- Filing a shard in the overlay prepares it there when the overlay had none and the shard
    holds what the slot held. -/
theorem prepared_setDirty (hn : w.Live n) {at_ : Nat} (hat : at_ < 2 ^ 32) {p : Ptr}
    (hp : w.shards.mem p = w.contents n at_) :
    Prepared w (w.setDirty n at_.toUInt32 p) n at_ (.dirty n at_.toUInt32) where
  keeps := keeps_setDirty _ _
  grows := grows_setDirty _ _
  self := by
    have hheld : (w.setDirty n at_.toUInt32 p).heldShard n at_ = some p := by
      rw [heldShard_setDirty _ _ _ hat hat, if_pos rfl]
    rw [contents_of_held hheld]
    exact hp
  held i hi hne := by rw [heldShard_setDirty _ _ _ hat hi, if_neg hne]
  mem _ _ := rfl
  next := le_rfl
  loose := rfl
  dirty d hne := by
    rw [cow_setDirty]
    simp only [lookup_insert_ite, if_neg hne]
  table := soleTable_of_slots_eq (keeps_setDirty _ _) (by rw [cow_setDirty])
  arcs := by
    intro pl q harc
    rcases hasArc_setDirty hn harc with ⟨hpl, -⟩ | ⟨-, harc⟩
    · exact .inl hpl
    · exact .inr (.inl harc)

theorem prepared_newShard (hw : WF w) (hn : w.Live n) (at_ : Nat) (place : Place)
    (s : Shard K V) : Prepared w (w.newShard s).1 n at_ place where
  keeps := keeps_newShard hw hn s
  grows := .refl
  self := by
    unfold contents
    cases hp : w.heldShard n at_ with
    | none => simp [hp]
    | some p =>
      rw [heldShard_newShard, hp]
      exact mem_newShard s (hw.held_lt hn hp)
  held _ _ _ := rfl
  mem _ hp := mem_newShard s hp
  next := Nat.le_succ _
  loose := rfl
  dirty _ _ := rfl
  table h := h
  arcs _ _ h := .inr (.inl ((hasArc_newShard s).1 h))

theorem slots_makeMutDirty (d : UInt32) (p : Ptr) :
    ((w.makeMutDirty n d p).1.cow n).slots = (w.cow n).slots := by
  unfold makeMutDirty
  split_ifs
  · rfl
  · show (((w.newShard (w.shards.mem p)).1.setDirty n d w.shards.next).cow n).slots = _
    rw [cow_setDirty]
    rfl

theorem place_makeMutDirty {at_ : Nat} {p : Ptr}
    (hd : (w.cow n).dirty.lookup at_.toUInt32 = some p) :
    (w.makeMutDirty n at_.toUInt32 p).1.place n at_ = .dirty n at_.toUInt32 := by
  unfold makeMutDirty
  split_ifs
  · simp [place, hd]
  · show ((w.newShard (w.shards.mem p)).1.setDirty n at_.toUInt32 w.shards.next).place n at_ = _
    simp [place, cow_setDirty]

/-- No place holds the shard made last. -/
theorem not_hasArc_newShard (hw : WF w) (s : Shard K V) (place : Place) :
    ¬ HasArc (w.newShard s).1 place w.shards.next :=
  fun harc => absurd (hw.arc_lt ((hasArc_newShard s).1 harc)) (lt_irrefl _)

/-- The copy of a slot's shard holds what the slot does. -/
theorem mem_copied (hw : WF w) (hn : w.Live n) {at_ : Nat} {p : Ptr}
    (hheld : w.heldShard n at_ = some p) :
    (w.newShard (w.shards.mem p)).1.shards.mem w.shards.next
      = (w.newShard (w.shards.mem p)).1.contents n at_ := by
  rw [(prepared_newShard hw hn at_ (w.place n at_) _).self, contents_of_held hheld]
  exact mem_newShard_self _

theorem makeMutDirty_spec (hw : WF w) (hn : w.Live n) {at_ : Nat} (hat : at_ < 2 ^ 32) {p : Ptr}
    (hd : (w.cow n).dirty.lookup at_.toUInt32 = some p) :
    MadeMut w (w.makeMutDirty n at_.toUInt32 p).1 n at_ (w.makeMutDirty n at_.toUInt32 p).2 := by
  have hheld : w.heldShard n at_ = some p := by simp [heldShard, hd]
  have hplace : w.place n at_ = .dirty n at_.toUInt32 := by simp [place, hd]
  have hslots := slots_makeMutDirty (w := w) (n := n) at_.toUInt32 p
  have hplace' := place_makeMutDirty hd
  revert hslots hplace'
  unfold makeMutDirty
  split_ifs with hsole
  · -- no other `Arc`: the shard is handed out as it is
    intro _ _
    refine Owned.madeMut ⟨hheld, ?_, by simp [hd]⟩ hw hn
    rw [hplace]
    exact (sole_iff _ _ _).1 hsole
  · -- shared: a copy takes its place in the overlay
    intro hslots hplace'
    have hlive : (w.newShard (w.shards.mem p)).1.Live n := hn
    have hprep := prepared_setDirty hlive hat (mem_copied hw hn hheld)
    rw [← hplace'] at hprep
    have hmade := hprep.made (wf_setDirty (wf_newShard hw _) hlive _ (Nat.lt_succ_self _))
      (by rw [heldShard_setDirty _ _ _ hat hat, if_pos rfl]) (not_hasArc_newShard hw _)
      (by simp [cow_setDirty])
    exact hmade.of_prepared (prepared_newShard hw hn at_ _ _) (by rw [cow_setDirty])

/-- **The overlay's shard made writable.** -/
theorem dirtyMut_spec (hw : WF w) (hn : w.Live n) {at_ : Nat} (hat : at_ < 2 ^ 32) :
    MadeMut w (w.dirtyMut n at_).1 n at_ (w.dirtyMut n at_).2 := by
  -- filing the shard `p`, then `make_mut`
  have hfile : ∀ w₁ : World K V, WF w₁ → w₁.Live n → ∀ p, p < w₁.shards.next →
      w₁.shards.mem p = w₁.contents n at_ →
      MadeMut w₁ ((w₁.setDirty n at_.toUInt32 p).makeMutDirty n at_.toUInt32 p).1 n at_
        ((w₁.setDirty n at_.toUInt32 p).makeMutDirty n at_.toUInt32 p).2 := by
    intro w₁ hw₁ hn₁ p hp hmem
    have hd : ((w₁.setDirty n at_.toUInt32 p).cow n).dirty.lookup at_.toUInt32 = some p := by
      simp [cow_setDirty]
    have hmade := makeMutDirty_spec (wf_setDirty hw₁ hn₁ at_.toUInt32 hp)
      (keeps_setDirty (w := w₁) at_.toUInt32 p).live hat hd
    refine hmade.of_prepared ?_ (slots_makeMutDirty _ _)
    rw [place_makeMutDirty hd]
    exact prepared_setDirty hn₁ hat hmem
  unfold dirtyMut
  cases hd : (w.cow n).dirty.lookup at_.toUInt32 with
  | some p =>
    simp only [hd]
    exact makeMutDirty_spec hw hn hat hd
  | none =>
    simp only [hd]
    cases hslot : (w.table n)[at_]?.join with
    | some p =>
      -- the table's shard enters the overlay, shared with the table until it is copied
      have hheld : w.heldShard n at_ = some p := by simp [heldShard, hd, hslot]
      exact hfile w hw hn p (hw.held_lt hn hheld) (contents_of_held hheld).symm
    | none =>
      have hheld : w.heldShard n at_ = none := by simp [heldShard, hd, hslot]
      have hheld' : (w.newShard ∅).1.heldShard n at_ = none := hheld
      have hmade := hfile (w.newShard ∅).1 (wf_newShard hw ∅) hn w.shards.next
        (Nat.lt_succ_self _) (by rw [contents_of_not_held hheld']; exact mem_newShard_self _)
      refine hmade.of_prepared (prepared_newShard hw hn at_ _ ∅) ?_
      rw [slots_makeMutDirty, cow_setDirty]

theorem cow_makeMutSlot (at_ : Nat) (p : Ptr) : (w.makeMutSlot n at_ p).1.cow n = w.cow n := by
  unfold makeMutSlot
  split_ifs <;> rfl

/-- Filing a shard in a slot of the map's own table prepares it there when the overlay has none
    and the shard holds what the slot held. -/
theorem prepared_setSlot (hn : w.Live n) {at_ : Nat} (hs : w.soleTable n = true)
    (hlt : at_ < (w.table n).length) (hd : (w.cow n).dirty.lookup at_.toUInt32 = none) {p : Ptr}
    (hp : w.shards.mem p = w.contents n at_) :
    Prepared w (w.setSlot n at_ (some p)) n at_ (.slot (w.cow n).slots at_) where
  keeps := keeps_setSlot hn hs _ _
  grows := .refl
  self := by
    have hheld := heldShard_setSlot at_ at_ (some p) hlt
    rw [if_pos rfl, hd, Option.none_or] at hheld
    rw [contents_of_held hheld]
    exact hp
  held i _ hne := by rw [heldShard_setSlot _ _ _ hlt, if_neg hne]
  mem _ _ := rfl
  next := le_rfl
  loose := rfl
  dirty _ _ := rfl
  table h := h
  arcs := by
    intro pl q harc
    rcases hasArc_setSlot hs harc with ⟨hpl, -⟩ | ⟨-, harc⟩
    · exact .inl hpl
    · exact .inr (.inl harc)

theorem makeMutSlot_spec (hw : WF w) (hn : w.Live n) {at_ : Nat}
    (hs : w.soleTable n = true) (hd : (w.cow n).dirty.lookup at_.toUInt32 = none)
    (hlt : at_ < (w.table n).length) {p : Ptr} (hp : (w.table n)[at_]?.join = some p) :
    MadeMut w (w.makeMutSlot n at_ p).1 n at_ (w.makeMutSlot n at_ p).2 := by
  have hheld : w.heldShard n at_ = some p := by simp [heldShard, hd, hp]
  have hplace : w.place n at_ = .slot (w.cow n).slots at_ := by simp [place, hd]
  unfold makeMutSlot
  split_ifs with hsole
  · refine Owned.madeMut ⟨hheld, ?_, fun _ => hs⟩ hw hn
    rw [hplace]
    exact (sole_iff _ _ _).1 hsole
  · have hlive : (w.newShard (w.shards.mem p)).1.Live n := hn
    have hprep := prepared_setSlot hlive hs hlt hd (mem_copied hw hn hheld)
    rw [cow_newShard, ← show ((w.newShard (w.shards.mem p)).1.setSlot n at_ (some
      w.shards.next)).place n at_ = .slot (w.cow n).slots at_ from hplace] at hprep
    have hheld' := heldShard_setSlot (w := (w.newShard (w.shards.mem p)).1) at_ at_
      (some w.shards.next) hlt
    rw [if_pos rfl, show ((w.newShard (w.shards.mem p)).1.cow n).dirty.lookup at_.toUInt32 = none
      from hd, Option.none_or] at hheld'
    have hwf := wf_setSlot (o := some w.shards.next) (wf_newShard hw (w.shards.mem p)) hlive hs at_
      (by rintro q ⟨⟩; exact Nat.lt_succ_self _)
    exact (hprep.made hwf hheld' (not_hasArc_newShard hw _) fun _ => hs).of_prepared
      (prepared_newShard hw hn at_ _ _) rfl

theorem MadeSlots.prepared {w' : World K V} {at_ : Nat} (h : MadeSlots w w' n at_)
    (place : Place) : Prepared w w' n at_ place where
  keeps := h.keeps
  grows := h.slots.imp_left fun hslots => ⟨hslots, fun _ d hd => by rwa [h.dirty]⟩
  self := by
    unfold contents
    rw [h.heldShard, h.shards]
  held i _ _ := h.heldShard i
  mem _ _ := by rw [h.shards]
  next := by rw [h.shards]
  loose := h.loose
  dirty _ _ := by rw [h.dirty]
  table _ := h.sole
  arcs pl p harc := .inr (h.arcs pl p harc)

/-- **The table's shard made writable**, in a map that has no overlay entry there. -/
theorem slotMut_spec (hw : WF w) (hn : w.Live n) {at_ : Nat} (hat : at_ < 2 ^ 32) (hd : (w.cow n).dirty.lookup at_.toUInt32 = none) :
    MadeMut w (w.slotMut n at_).1 n at_ (w.slotMut n at_).2 := by
  have hms := slotsMut_spec hw hn at_ hat
  unfold slotMut
  generalize w.slotsMut n at_ = w₁ at hms ⊢
  have hd' : (w₁.cow n).dirty.lookup at_.toUInt32 = none := by rw [hms.dirty, hd]
  simp only
  cases hslot : (w₁.table n)[at_]?.join with
  | some p =>
    have hmade := makeMutSlot_spec hms.wf hms.keeps.live hms.sole hd' hms.lt hslot
    exact hmade.of_prepared (hms.prepared _) (by rw [cow_makeMutSlot])
  | none =>
    -- a new empty shard is filed first
    have hlive : (w₁.newShard ∅).1.Live n := hms.keeps.live
    have hheld : (w₁.newShard ∅).1.heldShard n at_ = none := by simp [heldShard, hd', hslot]
    have hmem : (w₁.newShard ∅).1.shards.mem w₁.shards.next = (w₁.newShard ∅).1.contents n at_ := by
      rw [contents_of_not_held hheld]
      exact mem_newShard_self _
    have hprep := prepared_setSlot hlive hms.sole hms.lt hd' hmem
    have hwf : WF ((w₁.newShard ∅).1.setSlot n at_ (some w₁.shards.next)) :=
      wf_setSlot (wf_newShard hms.wf ∅) hlive hms.sole at_
        (by rintro q ⟨⟩; exact Nat.lt_succ_self _)
    have hlt : at_ < (((w₁.newShard ∅).1.setSlot n at_ (some w₁.shards.next)).table n).length := by
      rw [table_setSlot, List.length_set]
      exact hms.lt
    have hslot' : (((w₁.newShard ∅).1.setSlot n at_ (some w₁.shards.next)).table n)[at_]?.join
        = some w₁.shards.next := by
      rw [table_setSlot, List.getElem?_set_self (by exact hms.lt)]
      rfl
    have hmade := makeMutSlot_spec hwf hprep.keeps.live hms.sole hd' hlt hslot'
    have hplace : (((w₁.newShard ∅).1.setSlot n at_ (some w₁.shards.next)).makeMutSlot n at_
        w₁.shards.next).1.place n at_ = .slot (w₁.cow n).slots at_ := by
      unfold place
      rw [cow_makeMutSlot]
      simp [hd']
    refine ((hmade.of_prepared (hplace ▸ hprep) (by rw [cow_makeMutSlot])).of_prepared
      (prepared_newShard hms.wf hms.keeps.live at_ _ ∅) ?_).of_prepared (hms.prepared _) ?_
    all_goals
      rw [cow_makeMutSlot]
      rfl

/-- **`shard_mut`.** -/
theorem shardMut_spec (hw : WF w) (hn : w.Live n) {at_ : Nat} (hat : at_ < 2 ^ 32) :
    MadeMut w (w.shardMut n at_).1 n at_ (w.shardMut n at_).2 := by
  unfold shardMut
  split_ifs with h
  · simp only [Bool.and_eq_true, Bool.not_eq_true', Option.isNone_iff_eq_none] at h
    exact slotMut_spec hw hn hat h.2
  · exact dirtyMut_spec hw hn hat

/-- A shard the map alone holds stays so while another slot is made writable. -/
theorem Owned.of_madeMut {w' : World K V} {at_ i : Nat} {p q : Ptr} (hn : w.Live n)
    (ho : Owned w n i p) (h : MadeMut w w' n at_ q) (hat : at_ < 2 ^ 32) (hi : i < 2 ^ 32)
    (hne : i ≠ at_) : Owned w' n i p := by
  have hheld : w'.heldShard n i = some p := (h.held i hi hne).trans ho.held
  have hdirty := h.dirty i.toUInt32 (fun he => hne (toUInt32_inj hi hat he))
  refine ⟨hheld, ?_, fun hd => h.table (ho.table (hdirty.symm.trans hd))⟩
  -- what the map's former table held in slot `i`, its table holds now
  have hslot : ∀ j, HasArc w (.slot (w.cow n).slots j) p →
      .slot (w'.cow n).slots j = w'.place n i := by
    intro j harc
    have hpl := ho.sole _ harc
    unfold place at hpl ⊢
    rw [hdirty]
    split_ifs at hpl with hd
    rw [if_neg hd]
    injection hpl with _ hji
    rw [hji]
  intro pl harc
  rcases h.arcs pl p harc with rfl | hold | ⟨j, rfl, hold⟩
  · -- held where slot `at` is: then slot `i` would hold what the map owns in slot `at`
    exfalso
    have hqp : w'.heldShard n at_ = some p := by
      unfold place at harc
      unfold heldShard
      split_ifs at harc with hd
      · cases harc with
        | dirty hm hd' =>
          rw [cow_of_lookup hm] at hd ⊢
          rw [hd']
          rfl
      · rw [Option.not_isSome_iff_eq_none.1 hd, Option.none_or]
        generalize hpl : Place.slot (w'.cow n).slots at_ = pl at harc
        cases harc with
        | slot hm hj =>
          injection hpl with hslots hat'
          subst hat'
          show (w'.tables.mem (w'.cow n).slots)[at_]?.join = some p
          rw [hslots, hj]
          rfl
        | dirty => cases hpl
        | loose => cases hpl
    have hq : q = p := Option.some.inj (h.owned.held.symm.trans hqp)
    exact h.owned.ne_of_ne h.keeps.live hat hi hne (hq ▸ hheld)
  · -- held in the same place before
    have hpl := ho.sole pl hold
    by_cases hd : ((w.cow n).dirty.lookup i.toUInt32).isSome
    · unfold place at hpl ⊢
      rw [hdirty, if_pos hd]
      rwa [if_pos hd] at hpl
    · unfold place at hpl
      rw [if_neg hd] at hpl
      subst hpl
      -- still a slot of the former table: only the map itself can still hold that table
      have hsole := ho.table (Option.not_isSome_iff_eq_none.1 hd)
      generalize hpl : Place.slot (w.cow n).slots i = pl at harc
      cases harc with
      | dirty => cases hpl
      | loose => cases hpl
      | @slot m c j _ hm hj =>
        injection hpl with hslots hij
        have hmn : m = n := by
          by_contra hmn
          exact hmn ((soleTable_iff w n).1 hsole m c ((h.keeps.maps m hmn).symm.trans hm)
            hslots.symm)
        subst hmn
        have hthis := hslot i hold
        rw [cow_of_lookup hm] at hthis
        rw [← hthis, hij]
  · exact hslot j hold

/-! ## §3. The write -/

/-- The effect of an operation on the entries of map `n`: the entry of `k` in slot `at` goes
    from `o` to `g at k o`. -/
structure Effect [DecidableEq K] (w w' : World K V) (n : Nat)
    (g : Nat → K → Option V → Option V) : Prop where
  keeps : Keeps w w' n
  wf : WF w'
  grows : Grows w w' n
  lookup : ∀ i, i < 2 ^ 32 → ∀ k,
    (w'.contents n i).lookup k = g i k ((w.contents n i).lookup k)

theorem contents_writeShard_self {q : Ptr} {at_ : Nat} (h : w.heldShard n at_ = some q)
    (s : Shard K V) : (w.writeShard q s).contents n at_ = s := by
  have hheld : (w.writeShard q s).heldShard n at_ = some q := h
  rw [contents_of_held hheld]
  exact Heap.write_mem_self _ _ _

theorem contents_writeShard_ne {q : Ptr} {i : Nat} (h : w.heldShard n i ≠ some q)
    (s : Shard K V) : (w.writeShard q s).contents n i = w.contents n i := by
  show ((w.heldShard n i).map (w.writeShard q s).shards.mem).getD ∅ = _
  cases hp : w.heldShard n i with
  | none => rw [contents_of_not_held hp]; rfl
  | some p =>
    rw [contents_of_held hp]
    refine Heap.write_mem_of_ne _ _ _ _ ?_
    rintro rfl
    exact h hp

/-- The other slots of a map whose slot was made writable read as before. -/
theorem MadeMut.contents_ne {w' : World K V} {at_ i : Nat} {q : Ptr} (hw : WF w) (hn : w.Live n)
    (h : MadeMut w w' n at_ q) (hi : i < 2 ^ 32) (hne : i ≠ at_) :
    w'.contents n i = w.contents n i := by
  unfold contents
  rw [h.held i hi hne]
  cases hp : w.heldShard n i with
  | none => rfl
  | some p => exact h.mem p (hw.held_lt hn hp)

theorem MadeMut.write [DecidableEq K] {w' : World K V} {at_ : Nat} {q : Ptr} (hw : WF w)
    (hn : w.Live n) (hat : at_ < 2 ^ 32) (h : MadeMut w w' n at_ q) (s : Shard K V) :
    Effect w (w'.writeShard q s) n
      (fun i k o => if i = at_ then s.lookup k else o) where
  keeps := h.keeps.trans (keeps_writeShard h.keeps.live h.owned.not_otherArc s)
  wf := wf_writeShard h.wf q s
  grows := h.grows
  lookup := by
    intro i hi k
    split_ifs with hia
    · subst hia
      rw [contents_writeShard_self h.owned.held]
    · rw [contents_writeShard_ne (h.owned.ne_of_ne h.keeps.live hat hi hia),
        h.contents_ne hw hn hi hia]

/-- Handing a shard out without writing it changes nothing a reader sees. -/
theorem MadeMut.effect [DecidableEq K] {w' : World K V} {at_ : Nat} {q : Ptr} (hw : WF w)
    (hn : w.Live n) (h : MadeMut w w' n at_ q) : Effect w w' n (fun _ _ o => o) where
  keeps := h.keeps
  wf := h.wf
  grows := h.grows
  lookup := by
    intro i hi k
    by_cases hia : i = at_
    · subst hia
      rw [contents_of_held h.owned.held, h.mem_self]
    · rw [h.contents_ne hw hn hi hia]

theorem Effect.refl [DecidableEq K] (hw : WF w) (hn : w.Live n) : Effect w w n (fun _ _ o => o) :=
  ⟨.refl hn, hw, .refl, fun _ _ _ => rfl⟩

theorem Effect.trans [DecidableEq K] {w' w'' : World K V} {g g' : Nat → K → Option V → Option V}
    (h : Effect w w' n g) (h' : Effect w' w'' n g') :
    Effect w w'' n (fun i k o => g' i k (g i k o)) where
  keeps := h.keeps.trans h'.keeps
  wf := h'.wf
  grows := h.grows.trans h.keeps h'.grows
  lookup := by
    intro i hi k
    rw [h'.lookup i hi k, h.lookup i hi k]

theorem Effect.congr [DecidableEq K] {w' : World K V} {g g' : Nat → K → Option V → Option V}
    (h : Effect w w' n g) (hg : ∀ i, i < 2 ^ 32 → ∀ k, g i k ((w.contents n i).lookup k)
      = g' i k ((w.contents n i).lookup k)) : Effect w w' n g' where
  keeps := h.keeps
  wf := h.wf
  grows := h.grows
  lookup := by
    intro i hi k
    rw [h.lookup i hi k, hg i hi k]

end GluaLs.Cow.World
