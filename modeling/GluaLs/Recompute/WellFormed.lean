/-
  GluaLs.Recompute.WellFormed — the table files its keys and stamps well.

    • `Filed` — every key has one slot, a free slot names no key, and the slots listed under
      a base are those of keys read out of it,
    • `Kin` — a key read out of another is listed under its base,
    • `Stamped` — no stamp is later than the counter, a slot without a key reads as written
      after every memo, and the marks say which windows are open.

  Writes and windows keep every key in its slot; only `intern` and `releaseOne` move keys.
-/
import GluaLs.Recompute.Slots

namespace GluaLs.Recompute

open GluaLs.Lib Function KeyTable

variable {K V : Type}

/-! ## §1. The invariants -/

/-- **Keys and slots.** -/
structure Filed (facts : Facts K V) (t : KeyTable K V) : Prop where
  unique : ∀ slot slot' key, (t.keys slot).key = some key → (t.keys slot').key = some key →
    slot = slot'
  sized : ∀ slot, (t.keys slot).key ≠ none → slot < t.size
  free : ∀ slot ∈ t.freeKeys, (t.keys slot).key = none ∧ slot < t.size
  freeNodup : t.freeKeys.Nodup
  listed : ∀ root slot, slot ∈ t.derivedOf root → ∃ key base, (t.keys slot).key = some key ∧
    facts.base key = some base ∧ (t.keys root).key = some base
  listedOnce : ∀ root, (t.derivedOf root).Nodup

/-- **A key read out of another is listed under it**, but for the slots of `pending`. -/
def Kin (facts : Facts K V) (t : KeyTable K V) (pending : Nat → Prop) : Prop :=
  ∀ slot key base, (t.keys slot).key = some key → facts.base key = some base →
    pending slot ∨ ∃ root, (t.keys root).key = some base ∧ slot ∈ t.derivedOf root

/-- **Stamps and marks.** -/
structure Stamped (counter : Nat) (t : KeyTable K V) : Prop where
  dead : ∀ slot, (t.keys slot).key = none → (t.keys slot).written = ⊤ ∧
    ∀ mark, (t.saved mark).lookup slot = none
  live : ∀ slot, (t.keys slot).key ≠ none → (t.keys slot).written ≤ counter
  marks : ∀ slot mark, (t.keys slot).marked mark = true ↔ (t.saved mark).lookup slot ≠ none
  saved : ∀ mark slot window, (t.saved mark).lookup slot = some window → window.before ≤ counter
  last : t.lastWritten ≤ counter

theorem filed_empty (facts : Facts K V) : Filed facts (empty : KeyTable K V) where
  unique _ _ _ h := by cases h
  sized _ h := absurd rfl h
  free _ h := nomatch h
  freeNodup := List.nodup_nil
  listed _ _ h := nomatch h
  listedOnce _ := List.nodup_nil

theorem kin_empty (facts : Facts K V) : Kin facts (empty : KeyTable K V) fun _ => False := by
  intro slot key base hkey
  cases hkey

theorem stamped_empty (counter : Nat) : Stamped counter (empty : KeyTable K V) where
  dead _ _ := ⟨rfl, fun _ => rfl⟩
  live _ h := absurd rfl h
  marks _ _ := ⟨fun h => (Bool.false_ne_true h).elim, fun h => absurd rfl h⟩
  saved _ _ _ h := by cases h
  last := Nat.zero_le _

/-- The counter goes on. -/
theorem Stamped.next {counter : Nat} {t : KeyTable K V} (h : Stamped counter t) :
    Stamped (counter + 1) t := by
  have hle : (counter : Stamp) ≤ (counter + 1 : Nat) := WithTop.coe_le_coe.2 (Nat.le_succ counter)
  constructor
  · exact h.dead
  · exact fun slot hslot => (h.live slot hslot).trans hle
  · exact h.marks
  · exact fun mark slot window hwindow => (h.saved mark slot window hwindow).trans hle
  · exact h.last.trans (Nat.le_succ counter)

/-! ## §2. Looking a key up -/

section Find

variable [DecidableEq K]

theorem find_some {t : KeyTable K V} {key : K} {slot : Nat} (h : t.find key = some slot) :
    (t.keys slot).key = some key := by
  simpa using List.find?_some h

theorem find_none {facts : Facts K V} {t : KeyTable K V} (hfiled : Filed facts t) {key : K}
    (h : t.find key = none) (slot : Nat) : (t.keys slot).key ≠ some key := by
  intro hkey
  have hlt : slot < t.size := hfiled.sized slot (by simp [hkey])
  have := List.find?_eq_none.1 h slot (List.mem_range.2 hlt)
  simp [hkey] at this

theorem find_eq {facts : Facts K V} {t : KeyTable K V} (hfiled : Filed facts t) {key : K}
    {slot : Nat} (hkey : (t.keys slot).key = some key) : t.find key = some slot := by
  cases h : t.find key with
  | none => exact absurd hkey (find_none hfiled h slot)
  | some found => rw [hfiled.unique found slot key (find_some h) hkey]

end Find

/-! ## §3. Writes and windows keep the keys in their slots -/

section SameKeys

variable {facts : Facts K V} {t t' : KeyTable K V}

theorem filed_of_same (h : Filed facts t) (hkeys : ∀ slot, (t'.keys slot).key = (t.keys slot).key)
    (hsize : t'.size = t.size) (hfree : t'.freeKeys = t.freeKeys)
    (hderived : t'.derived = t.derived) : Filed facts t' := by
  have hlist : ∀ root, t'.derivedOf root = t.derivedOf root := by
    intro root
    unfold derivedOf
    rw [hderived]
  constructor
  · intro slot slot' key
    rw [hkeys, hkeys]
    exact h.unique slot slot' key
  · intro slot
    rw [hkeys, hsize]
    exact h.sized slot
  · intro slot
    rw [hkeys, hsize, hfree]
    exact h.free slot
  · rw [hfree]
    exact h.freeNodup
  · intro root slot
    rw [hkeys, hkeys, hlist]
    exact h.listed root slot
  · intro root
    rw [hlist]
    exact h.listedOnce root

theorem kin_of_same {pending : Nat → Prop} (h : Kin facts t pending)
    (hkeys : ∀ slot, (t'.keys slot).key = (t.keys slot).key)
    (hderived : t'.derived = t.derived) : Kin facts t' pending := by
  intro slot key base hkey hbase
  rw [hkeys] at hkey
  obtain hpending | ⟨root, hroot, hmem⟩ := h slot key base hkey hbase
  · exact .inl hpending
  · refine .inr ⟨root, by rw [hkeys]; exact hroot, ?_⟩
    unfold derivedOf at hmem ⊢
    rw [hderived]
    exact hmem

/-- The slots of a family name keys. -/
theorem live_of_family (h : Filed facts t) {root slot : Nat}
    (hroot : (t.keys root).key ≠ none) (hmem : slot ∈ t.family root) :
    (t.keys slot).key ≠ none := by
  obtain rfl | hmem := (t.mem_family root slot).1 hmem
  · exact hroot
  · obtain ⟨key, base, hkey, -, -⟩ := h.listed root slot hmem
    simp [hkey]

end SameKeys

/-! ## §4. `markWritten`, `openIn` and `closeIn` -/

section Ops

variable [DecidableEq K] {facts : Facts K V} {t : KeyTable K V} {counter : Nat}

theorem markWritten_slot {key : K} {root : Nat} (hfind : t.find key = some root) (now : Nat)
    (slot : Nat) : (t.markWritten key now).keys slot =
      if slot ∈ t.family root then { t.keys slot with written := now } else t.keys slot := by
  simp only [markWritten, hfind]
  exact foldl_written now (t.family root) t.keys slot

section

variable {key : K} {root : Nat} (hfind : t.find key = some root) (mark : Mark) (now : Nat)
  (value : Nat → V)
include hfind

theorem openIn_slot (slot : Nat) : (t.openIn mark key now value).keys slot =
      if slot ∈ t.family root then
        { t.keys slot with
          written := now, marked := update (t.keys slot).marked mark true }
      else t.keys slot := by
  simp only [openIn, hfind]
  exact foldl_openOne_keys mark now value (t.family root) (t.keys, t.saved mark) slot

/-- What the windows of a kind have saved once one more is open. -/
theorem openIn_saved (slot : Nat) :
    ((t.openIn mark key now value).saved mark).lookup slot =
      ((t.saved mark).lookup slot).or
        (if slot ∈ t.family root then some ⟨(t.keys slot).written, value slot⟩ else none) := by
  simp only [openIn, hfind, update_self]
  exact foldl_openOne_saved mark now value (t.family root) (t.keys, t.saved mark) slot

theorem openIn_saved_other (other : Mark) (hother : other ≠ mark) :
    (t.openIn mark key now value).saved other = t.saved other := by
  simp only [openIn, hfind]
  exact update_of_ne hother _ _

end

theorem stamped_markWritten (hfiled : Filed facts t) (h : Stamped counter t) (key : K) :
    Stamped (counter + 1) (t.markWritten key (counter + 1)) := by
  cases hfind : t.find key with
  | none =>
    have hsame : t.markWritten key (counter + 1) = t := by
      simp only [markWritten, hfind]
    rw [hsame]
    exact h.next
  | some root =>
    have hslot := markWritten_slot hfind (counter + 1)
    have hsaved : (t.markWritten key (counter + 1)).saved = t.saved := by
      simp only [markWritten, hfind]
    have hroot : (t.keys root).key ≠ none := by simp [find_some hfind]
    constructor
    · intro slot hdead
      rw [hsaved]
      by_cases hmem : slot ∈ t.family root
      · rw [hslot, if_pos hmem] at hdead
        exact absurd hdead (live_of_family hfiled hroot hmem)
      · rw [hslot, if_neg hmem] at hdead ⊢
        exact h.dead slot hdead
    · intro slot hlive
      rw [hslot] at hlive ⊢
      split at hlive
      · rw [if_pos ‹_›]
      · rw [if_neg ‹_›]
        exact h.next.live slot hlive
    · intro slot mark
      rw [hslot, hsaved, ← h.marks slot mark]
      split <;> rfl
    · intro mark slot window
      rw [hsaved]
      exact fun hwindow => h.next.saved mark slot window hwindow
    · simp only [markWritten, hfind]
      exact max_le (h.last.trans (Nat.le_succ _)) le_rfl

theorem stamped_openIn (hfiled : Filed facts t) (h : Stamped counter t) (mark : Mark) (key : K)
    (value : Nat → V) : Stamped (counter + 1) (t.openIn mark key (counter + 1) value) := by
  cases hfind : t.find key with
  | none =>
    have hsame : t.openIn mark key (counter + 1) value = t := by
      simp only [openIn, hfind]
    rw [hsame]
    exact h.next
  | some root =>
    have hslot := openIn_slot hfind mark (counter + 1) value
    have hsaved := openIn_saved hfind mark (counter + 1) value
    have hother := openIn_saved_other hfind mark (counter + 1) value
    have hroot : (t.keys root).key ≠ none := by simp [find_some hfind]
    constructor
    · intro slot hdead
      have hmem : slot ∉ t.family root := by
        intro hmem
        rw [hslot, if_pos hmem] at hdead
        exact live_of_family hfiled hroot hmem hdead
      rw [hslot, if_neg hmem] at hdead ⊢
      refine ⟨(h.dead slot hdead).1, ?_⟩
      intro mark'
      by_cases hmark : mark' = mark
      · subst hmark
        rw [hsaved, if_neg hmem, (h.dead slot hdead).2 mark']
        rfl
      · rw [hother mark' hmark]
        exact (h.dead slot hdead).2 mark'
    · intro slot hlive
      rw [hslot] at hlive ⊢
      split at hlive
      · rw [if_pos ‹_›]
      · rw [if_neg ‹_›]
        exact h.next.live slot hlive
    · intro slot mark'
      rw [hslot]
      by_cases hmark : mark' = mark
      · subst hmark
        rw [hsaved]
        by_cases hmem : slot ∈ t.family root
        · rw [if_pos hmem, if_pos hmem]
          cases (t.saved mark').lookup slot <;> simp
        · rw [if_neg hmem, if_neg hmem, Option.or_none]
          exact h.marks slot mark'
      · rw [hother mark' hmark, ← h.marks slot mark']
        split
        · simp [hmark]
        · rfl
    · intro mark' slot window hwindow
      by_cases hmark : mark' = mark
      · subst hmark
        rw [hsaved] at hwindow
        cases hbefore : (t.saved mark').lookup slot with
        | some before =>
          rw [hbefore] at hwindow
          obtain rfl : before = window := Option.some.inj hwindow
          exact h.next.saved mark' slot before hbefore
        | none =>
          rw [hbefore] at hwindow
          by_cases hmem : slot ∈ t.family root
          · rw [if_pos hmem] at hwindow
            cases hwindow
            exact h.next.live slot (live_of_family hfiled hroot hmem)
          · rw [if_neg hmem] at hwindow
            cases hwindow
      · rw [hother mark' hmark] at hwindow
        exact h.next.saved mark' slot window hwindow
    · simp only [openIn, hfind]
      exact max_le (h.last.trans (Nat.le_succ _)) le_rfl

end Ops

section Close

variable {facts : Facts K V} {t : KeyTable K V} {counter : Nat}

theorem closeIn_saved_other (mark : Mark) (unchanged : K → Bool) (other : Mark)
    (hother : other ≠ mark) : (t.closeIn facts mark unchanged).saved other = t.saved other :=
  update_of_ne hother _ _

theorem closeIn_saved (mark : Mark) (unchanged : K → Bool) (slot : Nat) :
    ((t.closeIn facts mark unchanged).saved mark).lookup slot = none := by
  simp only [closeIn, update_self]
  rfl

theorem stamped_closeIn (h : Stamped counter t) (mark : Mark) (unchanged : K → Bool) :
    Stamped counter (t.closeIn facts mark unchanged) := by
  have hslot := closeIn_slot facts mark t unchanged
  have hsaved : ∀ mark' slot window,
      ((t.closeIn facts mark unchanged).saved mark').lookup slot = some window →
        (t.saved mark').lookup slot = some window := by
    intro mark' slot window hwindow
    by_cases hmark : mark' = mark
    · subst hmark
      rw [closeIn_saved] at hwindow
      cases hwindow
    · rw [closeIn_saved_other mark unchanged mark' hmark] at hwindow
      exact hwindow
  constructor
  · intro slot hdead
    obtain ⟨hkey, -, -, hwritten⟩ := hslot slot
    rw [hkey] at hdead
    obtain ⟨htop, hnone⟩ := h.dead slot hdead
    constructor
    · obtain hsame | ⟨saved, hput, -⟩ := hwritten
      · rw [hsame, htop]
      · have hown := hput.own
        rw [hnone mark] at hown
        cases hown
    · intro mark'
      by_contra hsome
      obtain ⟨window, hwindow⟩ := Option.ne_none_iff_exists'.1 hsome
      have hbefore := hsaved mark' slot window hwindow
      rw [hnone mark'] at hbefore
      cases hbefore
  · intro slot hlive
    obtain ⟨hkey, -, -, hwritten⟩ := hslot slot
    rw [hkey] at hlive
    obtain hsame | ⟨saved, hput, heq⟩ := hwritten
    · rw [hsame]
      exact h.live slot hlive
    · rw [heq]
      exact h.saved mark slot saved hput.own
  · intro slot mark'
    obtain ⟨-, hother, hmarked, -⟩ := hslot slot
    by_cases hmark : mark' = mark
    · subst hmark
      rw [closeIn_saved]
      constructor
      · intro hset
        obtain ⟨hbefore, hnone⟩ := hmarked hset
        exact absurd hnone ((h.marks slot mark').1 hbefore)
      · intro hne
        exact absurd rfl hne
    · rw [hother mark' hmark, closeIn_saved_other mark unchanged mark' hmark]
      exact h.marks slot mark'
  · exact fun mark' slot window hwindow => h.saved mark' slot window (hsaved _ _ _ hwindow)
  · exact h.last

end Close

/-! ## §5. `intern` -/

section Intern

variable {facts : Facts K V} {t t' : KeyTable K V} {counter : Nat}

/-- **A key takes a slot that named none.** -/
structure Placed (t : KeyTable K V) (key : K) (now slot : Nat) (t' : KeyTable K V) : Prop where
  free : (t.keys slot).key = none
  keys : t'.keys =
    update t.keys slot { t.keys slot with key := some key, written := now }
  derived : t'.derived = t.derived
  saved : t'.saved = t.saved
  last : t'.lastWritten = t.lastWritten
  size : t.size ≤ t'.size ∧ slot < t'.size
  left : ∀ other ∈ t'.freeKeys, other ∈ t.freeKeys ∧ other ≠ slot
  leftNodup : t'.freeKeys.Nodup

theorem placed_place (h : Filed facts t) (key : K) (now : Nat) :
    Placed t key now (t.place key now).1 (t.place key now).2 := by
  unfold place allocate
  cases hfree : t.freeKeys with
  | nil =>
    have hdead : (t.keys t.size).key = none := by
      by_contra hlive
      exact Nat.lt_irrefl _ (h.sized t.size hlive)
    exact ⟨hdead, rfl, rfl, rfl, rfl, ⟨Nat.le_succ _, Nat.lt_succ_self _⟩, nofun, List.nodup_nil⟩
  | cons slot free =>
    have hnodup := h.freeNodup
    rw [hfree, List.nodup_cons] at hnodup
    have hmem : slot ∈ t.freeKeys := by simp [hfree]
    refine ⟨(h.free slot hmem).1, rfl, rfl, rfl, rfl, ⟨le_rfl, (h.free slot hmem).2⟩, ?_,
      hnodup.2⟩
    intro other hother
    refine ⟨by rw [hfree]; exact .tail _ hother, ?_⟩
    intro heq
    have heq : other = slot := heq
    rw [heq] at hother
    exact hnodup.1 hother

namespace Placed

variable {key : K} {now slot : Nat}

section

variable (h : Placed t key now slot t')
include h

theorem key_self : (t'.keys slot).key = some key := by
  rw [h.keys, update_self]

theorem keys_of_ne (other : Nat) (hother : other ≠ slot) : t'.keys other = t.keys other := by
  rw [h.keys, update_of_ne hother]

/-- A key that was in a slot stays there. -/
theorem key_of_live (other : Nat) (k : K) (hother : (t.keys other).key = some k) :
    (t'.keys other).key = some k := by
  have hne : other ≠ slot := by
    intro heq
    rw [heq, h.free] at hother
    cases hother
  rw [h.keys_of_ne other hne]
  exact hother

theorem derivedOf_eq (root : Nat) : t'.derivedOf root = t.derivedOf root := by
  unfold derivedOf
  rw [h.derived]

theorem filed (hfiled : Filed facts t) (hnew : ∀ slot, (t.keys slot).key ≠ some key) :
    Filed facts t' := by
  constructor
  · intro first second k hfirst hsecond
    by_cases h₁ : first = slot
    · by_cases h₂ : second = slot
      · rw [h₁, h₂]
      · rw [h₁, h.key_self] at hfirst
        cases hfirst
        rw [h.keys_of_ne second h₂] at hsecond
        exact absurd hsecond (hnew second)
    · rw [h.keys_of_ne first h₁] at hfirst
      by_cases h₂ : second = slot
      · rw [h₂, h.key_self] at hsecond
        cases hsecond
        exact absurd hfirst (hnew first)
      · rw [h.keys_of_ne second h₂] at hsecond
        exact hfiled.unique first second k hfirst hsecond
  · intro other hlive
    by_cases hother : other = slot
    · rw [hother]
      exact h.size.2
    · rw [h.keys_of_ne other hother] at hlive
      exact (hfiled.sized other hlive).trans_le h.size.1
  · intro other hother
    obtain ⟨hmem, hne⟩ := h.left other hother
    rw [h.keys_of_ne other hne]
    exact ⟨(hfiled.free other hmem).1, (hfiled.free other hmem).2.trans_le h.size.1⟩
  · exact h.leftNodup
  · intro root other hmem
    rw [h.derivedOf_eq] at hmem
    obtain ⟨k, base, hk, hbase, hroot⟩ := hfiled.listed root other hmem
    exact ⟨k, base, h.key_of_live other k hk, hbase, h.key_of_live root base hroot⟩
  · intro root
    rw [h.derivedOf_eq]
    exact hfiled.listedOnce root

theorem kin {pending : Nat → Prop} (hkin : Kin facts t pending) :
    Kin facts t' fun other => pending other ∨ other = slot ∧ facts.base key ≠ none := by
  intro other k base hk hbase
  by_cases hother : other = slot
  · subst hother
    rw [h.key_self] at hk
    cases hk
    exact .inl (.inr ⟨rfl, by simp [hbase]⟩)
  · rw [h.keys_of_ne other hother] at hk
    obtain hpending | ⟨root, hroot, hmem⟩ := hkin other k base hk hbase
    · exact .inl (.inl hpending)
    · refine .inr ⟨root, h.key_of_live root base hroot, ?_⟩
      rw [h.derivedOf_eq]
      exact hmem

theorem stamped (hstamped : Stamped counter t) (hnow : now ≤ counter) : Stamped counter t' := by
  constructor
  · intro other hdead
    have hne : other ≠ slot := by
      intro heq
      rw [heq, h.key_self] at hdead
      cases hdead
    rw [h.keys_of_ne other hne] at hdead ⊢
    rw [h.saved]
    exact hstamped.dead other hdead
  · intro other hlive
    by_cases hother : other = slot
    · rw [hother, h.keys, update_self]
      exact WithTop.coe_le_coe.2 hnow
    · rw [h.keys_of_ne other hother] at hlive ⊢
      exact hstamped.live other hlive
  · intro other mark
    rw [h.saved, ← hstamped.marks other mark]
    by_cases hother : other = slot
    · rw [hother, h.keys, update_self]
    · rw [h.keys_of_ne other hother]
  · rw [h.saved]
    exact hstamped.saved
  · rw [h.last]
    exact hstamped.last

end

end Placed

/-- **What interning does to a slot**: nothing, or a slot without a key gets one. -/
structure Interned (t : KeyTable K V) (now : Nat) (t' : KeyTable K V) : Prop where
  keys : ∀ slot, t'.keys slot = t.keys slot ∨ (t.keys slot).key = none ∧
    ∃ key, t'.keys slot = { t.keys slot with key := some key, written := now }
  saved : t'.saved = t.saved
  last : t'.lastWritten = t.lastWritten
  derived : ∀ root slot, slot ∈ t.derivedOf root → slot ∈ t'.derivedOf root

theorem Interned.refl (t : KeyTable K V) (now : Nat) : Interned t now t :=
  ⟨fun _ => .inl rfl, rfl, rfl, fun _ _ h => h⟩

theorem Interned.trans {now : Nat} {t'' : KeyTable K V} (h : Interned t now t')
    (h' : Interned t' now t'') : Interned t now t'' where
  keys slot := by
    obtain hsame | ⟨hdead, key, hkey⟩ := h.keys slot
    · rw [← hsame]
      exact h'.keys slot
    · right
      obtain hsame | ⟨hdead', -⟩ := h'.keys slot
      · exact ⟨hdead, key, hsame.trans hkey⟩
      · rw [hkey] at hdead'
        cases hdead'
  saved := h'.saved.trans h.saved
  last := h'.last.trans h.last
  derived root slot hslot := h'.derived root slot (h.derived root slot hslot)

theorem Placed.interned {key : K} {now slot : Nat} (h : Placed t key now slot t') :
    Interned t now t' where
  keys other := by
    by_cases hother : other = slot
    · subst hother
      exact .inr ⟨h.free, key, by rw [h.keys, update_self]⟩
    · exact .inl (h.keys_of_ne other hother)
  saved := h.saved
  last := h.last
  derived root other hmem := by
    rw [h.derivedOf_eq]
    exact hmem

/-! A new slot is listed under its base. -/

section List

variable {root slot : Nat} {key base : K}

theorem derivedOf_listUnder (t : KeyTable K V) (root slot other : Nat) :
    (t.listUnder root slot).derivedOf other =
      if other = root then t.derivedOf root ++ [slot] else t.derivedOf other := by
  unfold derivedOf listUnder
  rw [lookup_insert_ite]
  split <;> rfl

theorem mem_listUnder (t : KeyTable K V) (root slot other listed : Nat) :
    listed ∈ (t.listUnder root slot).derivedOf other ↔
      listed ∈ t.derivedOf other ∨ other = root ∧ listed = slot := by
  rw [derivedOf_listUnder]
  split
  · rename_i heq
    subst heq
    simp
  · rename_i hne
    simp [hne]

theorem filed_listUnder (h : Filed facts t) (hkey : (t.keys slot).key = some key)
    (hbase : facts.base key = some base) (hroot : (t.keys root).key = some base)
    (hunlisted : slot ∉ t.derivedOf root) : Filed facts (t.listUnder root slot) where
  unique := h.unique
  sized := h.sized
  free := h.free
  freeNodup := h.freeNodup
  listed other listed hmem := by
    obtain hmem | ⟨rfl, rfl⟩ := (mem_listUnder t root slot other listed).1 hmem
    · exact h.listed other listed hmem
    · exact ⟨key, base, hkey, hbase, hroot⟩
  listedOnce other := by
    rw [derivedOf_listUnder]
    split
    · apply List.Nodup.append (h.listedOnce root) (List.nodup_singleton _)
      intro listed hmem hslot
      rw [List.mem_singleton.1 hslot] at hmem
      exact hunlisted hmem
    · exact h.listedOnce other

theorem kin_listUnder (h : Kin facts t fun other => other = slot)
    (hkey : (t.keys slot).key = some key) (hbase : facts.base key = some base)
    (hroot : (t.keys root).key = some base) :
    Kin facts (t.listUnder root slot) fun _ => False := by
  intro other k b hk hb
  right
  obtain rfl | ⟨found, hfound, hmem⟩ := h other k b hk hb
  · have hk : (t.keys other).key = some k := hk
    obtain rfl : k = key := Option.some.inj (hk.symm.trans hkey)
    obtain rfl : b = base := Option.some.inj (hb.symm.trans hbase)
    exact ⟨root, hroot, (mem_listUnder t root other root other).2 (.inr ⟨rfl, rfl⟩)⟩
  · exact ⟨found, hfound, (mem_listUnder t root slot found other).2 (.inl hmem)⟩

theorem interned_listUnder (t : KeyTable K V) (now root slot : Nat) :
    Interned t now (t.listUnder root slot) where
  keys _ := .inl rfl
  saved := rfl
  last := rfl
  derived other listed hmem := (mem_listUnder t root slot other listed).2 (.inl hmem)

end List

theorem Interned.key_of_live {now : Nat} (h : Interned t now t') (slot : Nat) (key : K)
    (hkey : (t.keys slot).key = some key) : (t'.keys slot).key = some key := by
  obtain hsame | ⟨hdead, -⟩ := h.keys slot
  · rw [hsame]
    exact hkey
  · rw [hdead] at hkey
    cases hkey

variable [DecidableEq K]

/-- The base of a new key is in a slot, an old one or a new one. -/
theorem internRoot_spec (hfiled : Filed facts t) {pending : Nat → Prop}
    (hkin : Kin facts t pending) (hstamped : Stamped counter t) (base : K)
    (hbase : facts.base base = none) (now : Nat) (hnow : now ≤ counter) :
    let rooted := t.internRoot base now
    (rooted.2.keys rooted.1).key = some base ∧ Filed facts rooted.2 ∧
      Kin facts rooted.2 pending ∧ Stamped counter rooted.2 ∧ Interned t now rooted.2 ∧
      rooted.2.derived = t.derived := by
  unfold internRoot
  cases hfind : t.find base with
  | some root => exact ⟨find_some hfind, hfiled, hkin, hstamped, .refl t now, rfl⟩
  | none =>
    have hplaced := placed_place hfiled base now
    refine ⟨hplaced.key_self, hplaced.filed hfiled (find_none hfiled hfind), ?_,
      hplaced.stamped hstamped hnow, hplaced.interned, hplaced.derived⟩
    intro other k b hk hb
    obtain (hpending | ⟨-, hne⟩) | hroot := hplaced.kin hkin other k b hk hb
    · exact .inl hpending
    · exact absurd hbase hne
    · exact .inr hroot

/-- **Interning keeps the table well formed.** -/
theorem intern_spec (hfiled : Filed facts t) (hkin : Kin facts t fun _ => False)
    (hstamped : Stamped counter t) (key : K) (now : Nat) (hnow : now ≤ counter) :
    Filed facts (t.intern facts key now) ∧ (Kin facts (t.intern facts key now) fun _ => False) ∧
      Stamped counter (t.intern facts key now) ∧ Interned t now (t.intern facts key now) := by
  unfold intern
  cases hfind : t.find key with
  | some slot => exact ⟨hfiled, hkin, hstamped, .refl t now⟩
  | none =>
    have hplaced := placed_place hfiled key now
    have hfiled₁ := hplaced.filed hfiled (find_none hfiled hfind)
    have hstamped₁ := hplaced.stamped hstamped hnow
    have hkin₁ : Kin facts (t.place key now).2
        fun other => other = (t.place key now).1 ∧ facts.base key ≠ none := by
      intro other k b hk hb
      exact (hplaced.kin hkin other k b hk hb).imp (fun h => h.resolve_left id) id
    cases hbase : facts.base key with
    | none =>
      refine ⟨hfiled₁, ?_, hstamped₁, hplaced.interned⟩
      intro other k b hk hb
      exact (hkin₁ other k b hk hb).imp (fun h => h.2 hbase) id
    | some base =>
      obtain ⟨hroot, hfiled₂, hkin₂, hstamped₂, hinterned₂, hderived⟩ :=
        internRoot_spec hfiled₁ hkin₁ hstamped₁ base (facts.base_base key base hbase) now hnow
      have hkey := hinterned₂.key_of_live _ key hplaced.key_self
      -- the new slot was listed nowhere
      have hunlisted : ∀ other, (t.place key now).1 ∉
          ((t.place key now).2.internRoot base now).2.derivedOf other := by
        intro other hmem
        unfold derivedOf at hmem
        rw [hderived, hplaced.derived] at hmem
        obtain ⟨k, b, hk, -, -⟩ := hfiled.listed other _ hmem
        rw [hplaced.free] at hk
        cases hk
      refine ⟨filed_listUnder hfiled₂ hkey hbase hroot (hunlisted _),
        kin_listUnder ?_ hkey hbase hroot, ?_,
        (hplaced.interned.trans hinterned₂).trans (interned_listUnder _ now _ _)⟩
      · intro other k b hk hb
        exact (hkin₂ other k b hk hb).imp (fun h => h.1) id
      · exact ⟨hstamped₂.dead, hstamped₂.live, hstamped₂.marks, hstamped₂.saved, hstamped₂.last⟩

end Intern

/-! ## §6. `releaseOne` -/

section Release

variable [DecidableEq K] {facts : Facts K V} {t : KeyTable K V} {counter : Nat} {slot : Nat}
  {key : K}

theorem releaseOne_keys (facts : Facts K V) (hkey : (t.keys slot).key = some key) (now : Nat) :
    (t.releaseOne facts slot now).keys =
      update t.keys slot ⟨none, ⊤, fun _ => false⟩ := by
  simp only [releaseOne, hkey]

theorem releaseOne_saved (facts : Facts K V) (hkey : (t.keys slot).key = some key) (now : Nat)
    (mark : Mark) (other : Nat) :
    ((t.releaseOne facts slot now).saved mark).lookup other =
      if other = slot then none else (t.saved mark).lookup other := by
  simp only [releaseOne, hkey]
  exact lookup_erase_ite _ _ _

/-- The slot leaves the list of its base, and no other slot leaves a list. -/
theorem mem_derivedOf_releaseOne (hfiled : Filed facts t) (hkey : (t.keys slot).key = some key)
    (now root other : Nat) :
    other ∈ (t.releaseOne facts slot now).derivedOf root ↔
      other ∈ t.derivedOf root ∧ other ≠ slot := by
  have hunlisted : ∀ root, (∀ base, facts.base key = some base →
      (t.keys root).key ≠ some base) → slot ∉ t.derivedOf root := by
    intro root hroot hmem
    obtain ⟨k, base, hk, hbase, hkroot⟩ := hfiled.listed root slot hmem
    obtain rfl : k = key := Option.some.inj (hk.symm.trans hkey)
    exact hroot base hbase hkroot
  have hsame : slot ∉ t.derivedOf root → (other ∈ t.derivedOf root ↔
      other ∈ t.derivedOf root ∧ other ≠ slot) := by
    intro hnot
    refine ⟨fun hmem => ⟨hmem, fun heq => hnot (heq ▸ hmem)⟩, fun h => h.1⟩
  cases hbind : (facts.base key).bind t.find with
  | none =>
    have hlist : (t.releaseOne facts slot now).derivedOf root = t.derivedOf root := by
      simp only [derivedOf, releaseOne, hkey, hbind]
    rw [hlist]
    apply hsame
    apply hunlisted
    intro base hbase hkroot
    rw [hbase, Option.bind_some, find_eq hfiled hkroot] at hbind
    cases hbind
  | some found =>
    obtain ⟨base, hbase, hfind⟩ := Option.bind_eq_some_iff.1 hbind
    have hlist : (t.releaseOne facts slot now).derivedOf root =
        if root = found then (t.derivedOf found).erase slot else t.derivedOf root := by
      simp only [derivedOf, releaseOne, hkey, hbind]
      split
      · rename_i hempty
        rw [lookup_erase_ite]
        split
        · rename_i heq
          rw [Option.getD_none]
          exact hempty.symm
        · rfl
      · rw [lookup_insert_ite]
        split <;> rfl
    rw [hlist]
    split
    · rename_i heq
      subst heq
      rw [(hfiled.listedOnce root).mem_erase_iff]
      exact and_comm
    · rename_i hne
      apply hsame
      apply hunlisted
      intro other hother hkroot
      obtain rfl : other = base := Option.some.inj (hother.symm.trans hbase)
      exact hne (hfiled.unique root found other hkroot (find_some hfind))

/-- **Releasing keeps the table well formed.** -/
theorem release_spec (hfiled : Filed facts t) (hkin : Kin facts t fun _ => False)
    (hstamped : Stamped counter t) (hkey : (t.keys slot).key = some key)
    (hroot : t.derivedOf slot = []) :
    Filed facts (t.releaseOne facts slot (counter + 1)) ∧
      (Kin facts (t.releaseOne facts slot (counter + 1)) fun _ => False) ∧
      Stamped (counter + 1) (t.releaseOne facts slot (counter + 1)) := by
  have hkeys := releaseOne_keys facts hkey (counter + 1)
  have hlists := mem_derivedOf_releaseOne hfiled hkey (counter + 1)
  have hne : ∀ other k, ((t.releaseOne facts slot (counter + 1)).keys other).key = some k →
      other ≠ slot ∧ (t.keys other).key = some k := by
    intro other k hk
    rw [hkeys] at hk
    by_cases hother : other = slot
    · rw [hother, update_self] at hk
      cases hk
    · rw [update_of_ne hother] at hk
      exact ⟨hother, hk⟩
  have hkept : ∀ other, other ≠ slot →
      (t.releaseOne facts slot (counter + 1)).keys other = t.keys other := by
    intro other hother
    rw [hkeys, update_of_ne hother]
  have hsize : (t.releaseOne facts slot (counter + 1)).size = t.size := by
    simp only [releaseOne, hkey]
  have hfree : (t.releaseOne facts slot (counter + 1)).freeKeys = slot :: t.freeKeys := by
    simp only [releaseOne, hkey]
  have hrootne : ∀ root other, other ∈ t.derivedOf root → root ≠ slot := by
    intro root other hmem heq
    rw [heq, hroot] at hmem
    cases hmem
  refine ⟨?_, ?_, ?_⟩
  · constructor
    · intro first second k hfirst hsecond
      exact hfiled.unique first second k (hne first k hfirst).2 (hne second k hsecond).2
    · intro other hlive
      obtain ⟨k, hk⟩ := Option.ne_none_iff_exists'.1 hlive
      rw [hsize]
      exact hfiled.sized other (by simp [(hne other k hk).2])
    · intro other hother
      rw [hfree] at hother
      rw [hsize]
      obtain rfl | hother := List.mem_cons.1 hother
      · rw [hkeys, update_self]
        exact ⟨rfl, hfiled.sized other (by simp [hkey])⟩
      · by_cases heq : other = slot
        · rw [heq, hkeys, update_self]
          exact ⟨rfl, hfiled.sized slot (by simp [hkey])⟩
        · rw [hkept other heq]
          exact hfiled.free other hother
    · rw [hfree, List.nodup_cons]
      refine ⟨?_, hfiled.freeNodup⟩
      intro hmem
      have hdead := (hfiled.free slot hmem).1
      rw [hkey] at hdead
      cases hdead
    · intro root other hmem
      obtain ⟨hmem, hother⟩ := (hlists root other).1 hmem
      obtain ⟨k, base, hk, hbase, hkroot⟩ := hfiled.listed root other hmem
      rw [hkept other hother, hkept root (hrootne root other hmem)]
      exact ⟨k, base, hk, hbase, hkroot⟩
    · intro root
      have hsub : ((t.releaseOne facts slot (counter + 1)).derivedOf root).Sublist
          (t.derivedOf root) := by
        unfold derivedOf releaseOne
        simp only [hkey]
        split
        · split
          · rw [lookup_erase_ite]
            split
            · exact List.nil_sublist _
            · exact .refl _
          · rw [lookup_insert_ite]
            split
            · rename_i heq
              rw [heq]
              exact List.erase_sublist
            · exact .refl _
        · exact .refl _
      exact (hfiled.listedOnce root).sublist hsub
  · intro other k base hk hbase
    obtain ⟨hother, hk⟩ := hne other k hk
    obtain hfalse | ⟨root, hkroot, hmem⟩ := hkin other k base hk hbase
    · exact hfalse.elim
    · refine .inr ⟨root, by rw [hkept root (hrootne root other hmem)]; exact hkroot, ?_⟩
      exact (hlists root other).2 ⟨hmem, hother⟩
  · have hsaved := releaseOne_saved facts hkey (counter + 1)
    constructor
    · intro other hdead
      by_cases hother : other = slot
      · rw [hother, hkeys, update_self]
        exact ⟨rfl, fun mark => by rw [hsaved, if_pos rfl]⟩
      · rw [hkept other hother] at hdead ⊢
        refine ⟨(hstamped.dead other hdead).1, ?_⟩
        intro mark
        rw [hsaved, if_neg hother]
        exact (hstamped.dead other hdead).2 mark
    · intro other hlive
      obtain ⟨k, hk⟩ := Option.ne_none_iff_exists'.1 hlive
      obtain ⟨hother, hk⟩ := hne other k hk
      rw [hkept other hother]
      exact hstamped.next.live other (by simp [hk])
    · intro other mark
      rw [hsaved]
      by_cases hother : other = slot
      · rw [hother, hkeys, update_self, if_pos rfl]
        simp
      · rw [hkept other hother, if_neg hother]
        exact hstamped.marks other mark
    · intro mark other window hwindow
      rw [hsaved] at hwindow
      split at hwindow
      · cases hwindow
      · exact hstamped.next.saved mark other window hwindow
    · simp only [releaseOne, hkey]
      exact le_rfl

end Release

end GluaLs.Recompute
