/-
  GluaLs.Recompute.Kept — what the table keeps for a slot that was read.

  A read of a slot, under a frame that opened at the stamp `since`, is KEPT while

    • a stamp the slot has, or a stamp a window saved of it, that is no later than `since`,
      stands for the key and the value that were read,
    • an open window shows: the slot reads as written after `since`.

  With two windows open on one slot, the stamp saved by the later one is later than `since`:
  so closing that one first leaves the slot written after `since`.  Each lemma takes one
  kind of change of the table and keeps every read.
-/
import GluaLs.Recompute.WellFormed

namespace GluaLs.Recompute

open GluaLs.Lib State KeyTable

variable {K V : Type} [DecidableEq K]

/-! ## §1. The invariant of a read -/

/-- **What is kept for a read** of a frame or a memo that opened at `since`. -/
structure Kept (facts : Facts K V) (t : KeyTable K V) (values : K → V) (touched : K → Nat)
    (released since : Nat) (r : Read K V) : Prop where
  fresh : (t.keys r.slot).written ≤ since →
    (t.keys r.slot).key = some r.key ∧ facts.value values r.key = r.value
  saved : ∀ mark window, (t.saved mark).lookup r.slot = some window → window.before ≤ since →
    (t.keys r.slot).key = some r.key ∧ window.value = r.value
  opened : ∀ mark, (t.saved mark).lookup r.slot ≠ none → since < (t.keys r.slot).written
  inner : ∀ mark window other, (t.saved mark).lookup r.slot = some window →
    (t.saved mark.other).lookup r.slot = some other → other.before ≤ window.before →
      since < window.before
  touched : since < touched r.key ∨ (t.keys r.slot).written ≤ since
  released : (t.keys r.slot).key = none → since < released

/-- **What an open frame may count on** at a slot that names a key: what was not touched
    since it opened was not written since. -/
def Settled (t : KeyTable K V) (touched : K → Nat) (since : Nat) : Prop :=
  ∀ slot key, (t.keys slot).key = some key →
    (since < touched key ∧ since < t.lastWritten) ∨
      ((t.keys slot).written ≤ since ∧
        ∀ mark window, (t.saved mark).lookup slot = some window → window.before ≤ since)

/-- **The windows of a key and of a key read out of it opened together.** -/
def Together (facts : Facts K V) (t : KeyTable K V) : Prop :=
  ∀ mark root slot window window' key, slot ∈ t.derivedOf root →
    (t.saved mark).lookup root = some window → (t.saved mark).lookup slot = some window' →
      (t.keys slot).key = some key → window'.value = facts.part key window.value

section

variable {facts : Facts K V} {t t' : KeyTable K V} {values : K → V} {touched : K → Nat}
  {released since counter : Nat} {r : Read K V}

omit [DecidableEq K] in
/-- A read of a slot on which no window is open. -/
theorem kept_of_clean (hsettled : Settled t touched since)
    (hkey : (t.keys r.slot).key = some r.key) (hvalue : facts.value values r.key = r.value)
    (hclosed : ∀ mark, (t.saved mark).lookup r.slot = none) :
    Kept facts t values touched released since r where
  fresh _ := ⟨hkey, hvalue⟩
  saved mark window hwindow := by
    rw [hclosed mark] at hwindow
    cases hwindow
  opened mark hopen := absurd (hclosed mark) hopen
  inner mark window other hwindow := by
    rw [hclosed mark] at hwindow
    cases hwindow
  touched := (hsettled r.slot r.key hkey).imp And.left And.left
  released hdead := by
    rw [hkey] at hdead
    cases hdead

/-! ## §2. A family is struck: written, or opened -/

/-- **What a write or an open window does to the table**: the family of the slot `root` reads
    as written `now`, and a window that is new, all of one kind, saved what was there. -/
structure Struck (t : KeyTable K V) (root now : Nat) (kind : Mark) (value : Nat → V)
    (t' : KeyTable K V) : Prop where
  key : ∀ slot, (t'.keys slot).key = (t.keys slot).key
  derived : t'.derived = t.derived
  others : ∀ slot, slot ∉ t.family root → (t'.keys slot).written = (t.keys slot).written ∧
    ∀ mark, (t'.saved mark).lookup slot = (t.saved mark).lookup slot
  written : ∀ slot ∈ t.family root, (t'.keys slot).written = now
  saved : ∀ slot ∈ t.family root, ∀ mark window, (t'.saved mark).lookup slot = some window →
    (t.saved mark).lookup slot = some window ∨
      mark = kind ∧ (t.saved mark).lookup slot = none ∧
        window = ⟨(t.keys slot).written, value slot⟩
  last : now ≤ t'.lastWritten ∧ t.lastWritten ≤ t'.lastWritten

theorem struck_markWritten {key : K} {root : Nat} (hfind : t.find key = some root) (now : Nat)
    (kind : Mark) (value : Nat → V) : Struck t root now kind value (t.markWritten key now) := by
  have hslot := markWritten_slot hfind now
  have hsaved : (t.markWritten key now).saved = t.saved := by
    simp only [markWritten, hfind]
  constructor
  · intro slot
    rw [hslot]
    split <;> rfl
  · simp only [markWritten, hfind]
  · intro slot hmem
    rw [hslot, if_neg hmem, hsaved]
    exact ⟨rfl, fun _ => rfl⟩
  · intro slot hmem
    rw [hslot, if_pos hmem]
  · intro slot _ mark window hwindow
    rw [hsaved] at hwindow
    exact .inl hwindow
  · simp only [markWritten, hfind]
    exact ⟨le_max_right _ _, le_max_left _ _⟩

theorem struck_openIn {key : K} {root : Nat} (hfind : t.find key = some root) (mark : Mark)
    (now : Nat) (value : Nat → V) :
    Struck t root now mark value (t.openIn mark key now value) := by
  have hslot := openIn_slot hfind mark now value
  have hsaved := openIn_saved hfind mark now value
  have hother := openIn_saved_other hfind mark now value
  constructor
  · intro slot
    rw [hslot]
    split <;> rfl
  · simp only [openIn, hfind]
  · intro slot hmem
    rw [hslot, if_neg hmem]
    refine ⟨rfl, ?_⟩
    intro mark'
    by_cases hmark : mark' = mark
    · rw [hmark, hsaved, if_neg hmem, Option.or_none]
    · rw [hother mark' hmark]
  · intro slot hmem
    rw [hslot, if_pos hmem]
  · intro slot hmem mark' window hwindow
    by_cases hmark : mark' = mark
    · subst hmark
      rw [hsaved, if_pos hmem] at hwindow
      cases hbefore : (t.saved mark').lookup slot with
      | some before =>
        rw [hbefore] at hwindow
        exact .inl hwindow
      | none =>
        rw [hbefore] at hwindow
        exact .inr ⟨rfl, rfl, (Option.some.inj hwindow).symm⟩
    · rw [hother mark' hmark] at hwindow
      exact .inl hwindow
  · simp only [openIn, hfind]
    exact ⟨le_max_right _ _, le_max_left _ _⟩

omit [DecidableEq K] in
/-- The key in a slot is the one in `root` or one read out of it, exactly when the slot is of
    its family. -/
theorem mem_family_iff (hfiled : Filed facts t) (hkin : Kin facts t fun _ => False) {root : Nat}
    {key : K} (hroot : (t.keys root).key = some key) {slot : Nat} {k : K}
    (hk : (t.keys slot).key = some k) :
    slot ∈ t.family root ↔ k = key ∨ facts.base k = some key := by
  rw [t.mem_family]
  constructor
  · intro hmem
    obtain rfl | hmem := hmem
    · exact .inl (Option.some.inj (hk.symm.trans hroot))
    · obtain ⟨k', base, hk', hbase, hkroot⟩ := hfiled.listed root slot hmem
      obtain rfl : k' = k := Option.some.inj (hk'.symm.trans hk)
      obtain rfl : base = key := Option.some.inj (hkroot.symm.trans hroot)
      exact .inr hbase
  · intro hkin'
    obtain rfl | hbase := hkin'
    · exact .inl (hfiled.unique slot root k hk hroot)
    · obtain hfalse | ⟨found, hfound, hmem⟩ := hkin slot k key hk hbase
      · exact hfalse.elim
      · rw [hfiled.unique found root key hfound hroot] at hmem
        exact .inr hmem

/-- The new value of a key shows in that key and in those read out of it. -/
theorem value_assign (values : K → V) {key k : K} (value : V) (hkey : k ≠ key)
    (hbase : facts.base k ≠ some key) :
    facts.value (assign facts values key value) k = facts.value values k := by
  have hne : ∀ other, other ≠ key → assign facts values key value other = values other := by
    intro other hother
    unfold assign
    cases facts.base key with
    | none => exact Function.update_of_ne hother _ _
    | some root => rfl
  unfold Facts.value
  cases hb : facts.base k with
  | none => exact hne k hkey
  | some root =>
    have hroot : root ≠ key := fun heq => hbase (by rw [hb, heq])
    exact congrArg (facts.part k) (hne root hroot)

theorem touch_of_lt (touched : K → Nat) (key k : K) (now : Nat) (hnow : since < now)
    (h : since < touched k) : since < touch facts touched key now k := by
  unfold touch
  split
  · exact hnow
  · exact h

section

variable (hfiled : Filed facts t) (hkin : Kin facts t fun _ => False) {root now : Nat} {key : K}
  (hroot : (t.keys root).key = some key) {kind : Mark} {value : Nat → V}
include hfiled hkin hroot

/-- **A read stays kept when a family is struck.** -/
theorem kept_struck (newValue : V) (hstruck : Struck t root now kind value t') (hnow : since < now)
    (hvalue : ∀ slot k, (t.keys slot).key = some k → value slot = facts.value values k)
    (h : Kept facts t values touched released since r) :
    Kept facts t' (assign facts values key newValue) (touch facts touched key now)
      released since r := by
  have hlt : ((since : Nat) : Stamp) < (now : Stamp) := WithTop.coe_lt_coe.2 hnow
  by_cases hmem : r.slot ∈ t.family root
  · have hwritten := hstruck.written r.slot hmem
    have hsaved := hstruck.saved r.slot hmem
    constructor
    · intro hle
      rw [hwritten] at hle
      exact absurd hle (not_le.2 hlt)
    · intro mark window hwindow hbefore
      rw [hstruck.key]
      obtain hold | ⟨-, -, rfl⟩ := hsaved mark window hwindow
      · exact h.saved mark window hold hbefore
      · obtain ⟨hkey, hval⟩ := h.fresh hbefore
        exact ⟨hkey, (hvalue r.slot r.key hkey).trans hval⟩
    · intro mark _
      rw [hwritten]
      exact hlt
    · intro mark window other hwindow hother hle
      obtain hold | ⟨hmark, -, rfl⟩ := hsaved mark window hwindow
      · obtain hold' | ⟨-, -, rfl⟩ := hsaved mark.other other hother
        · exact h.inner mark window other hold hold' hle
        · -- the other window is new: it saved a stamp that shows this one open
          exact (h.opened mark (by rw [hold]; simp)).trans_le hle
      · obtain hold' | ⟨hmark', -, -⟩ := hsaved mark.other other hother
        · exact h.opened mark.other (by rw [hold']; simp)
        · -- the windows that are new are of one kind
          exact absurd (hmark'.trans hmark.symm) mark.other_ne
    · left
      by_cases hkey : (t.keys r.slot).key = some r.key
      · have hfamily := (mem_family_iff hfiled hkin hroot hkey).1 hmem
        unfold touch
        rw [if_pos hfamily]
        exact hnow
      · obtain htouched | hfresh := h.touched
        · exact touch_of_lt touched key r.key now hnow htouched
        · exact absurd (h.fresh hfresh).1 hkey
    · rw [hstruck.key]
      exact h.released
  · obtain ⟨hwritten, hsaved⟩ := hstruck.others r.slot hmem
    constructor
    · intro hle
      rw [hwritten] at hle
      rw [hstruck.key]
      obtain ⟨hkey, hval⟩ := h.fresh hle
      have hfamily := (mem_family_iff hfiled hkin hroot hkey).not.1 hmem
      rw [not_or] at hfamily
      exact ⟨hkey, (value_assign values newValue hfamily.1 hfamily.2).trans hval⟩
    · intro mark window
      rw [hsaved, hstruck.key]
      exact h.saved mark window
    · intro mark
      rw [hsaved, hwritten]
      exact h.opened mark
    · intro mark window other
      rw [hsaved, hsaved]
      exact h.inner mark window other
    · rw [hwritten]
      exact h.touched.imp (touch_of_lt touched key r.key now hnow) id
    · rw [hstruck.key]
      exact h.released

/-- An open frame may count on the table it strikes. -/
theorem settled_struck (hstruck : Struck t root now kind value t') (hnow : since < now)
    (h : Settled t touched since) : Settled t' (touch facts touched key now) since := by
  intro slot k hk
  rw [hstruck.key] at hk
  by_cases hmem : slot ∈ t.family root
  · left
    refine ⟨?_, hnow.trans_le hstruck.last.1⟩
    unfold touch
    rw [if_pos ((mem_family_iff hfiled hkin hroot hk).1 hmem)]
    exact hnow
  · obtain ⟨hwritten, hsaved⟩ := hstruck.others slot hmem
    rw [hwritten]
    refine (h slot k hk).imp ?_ ?_
    · rintro ⟨htouched, hlast⟩
      exact ⟨touch_of_lt touched key k now hnow htouched, hlast.trans_le hstruck.last.2⟩
    · rintro ⟨hle, hwindows⟩
      refine ⟨hle, ?_⟩
      intro mark window
      rw [hsaved]
      exact hwindows mark window

end

/-! ## §3. Windows close -/

section

omit [DecidableEq K]

/-- A window that puts a stamp back puts it back over the value the key has. -/
theorem value_of_putsBack (hfiled : Filed facts t) (htogether : Together facts t) {mark : Mark}
    {unchanged : K → Bool} (haccepts : ∀ slot window key, (t.saved mark).lookup slot = some window →
      (t.keys slot).key = some key → facts.base key = none → unchanged key = true →
        facts.value values key = window.value) {slot : Nat} {window : Saved V} {key : K}
    (hput : PutsBack facts mark t unchanged slot window)
    (hkey : (t.keys slot).key = some key) : facts.value values key = window.value := by
  obtain ⟨root, window', hwindow', ⟨base, hroot, hbase, hunchanged⟩, hmem⟩ := hput.root
  have hvalue := haccepts root window' base hwindow' hroot hbase hunchanged
  obtain rfl | hmem := (t.mem_family root slot).1 hmem
  · obtain rfl : base = key := Option.some.inj (hroot.symm.trans hkey)
    obtain rfl : window' = window := Option.some.inj (hwindow'.symm.trans hput.own)
    exact hvalue
  · -- a key read out of one that came out unchanged
    obtain ⟨k, b, hk, hb, hkroot⟩ := hfiled.listed root slot hmem
    obtain rfl : k = key := Option.some.inj (hk.symm.trans hkey)
    obtain rfl : b = base := Option.some.inj (hkroot.symm.trans hroot)
    rw [htogether mark root slot window' window k hmem hwindow' hput.own hkey, ← hvalue]
    unfold Facts.value
    rw [hb, hbase]

/-- **A read stays kept when windows close**, each before the one that opened before it. -/
theorem kept_closeIn (hfiled : Filed facts t) (htogether : Together facts t) {mark : Mark}
    {unchanged : K → Bool} (haccepts : ∀ slot window key, (t.saved mark).lookup slot = some window →
      (t.keys slot).key = some key → facts.base key = none → unchanged key = true →
        facts.value values key = window.value)
    (hinner : ∀ slot window other, PutsBack facts mark t unchanged slot window →
      (t.saved mark.other).lookup slot = some other → other.before ≤ window.before)
    (h : Kept facts t values touched released since r) :
    Kept facts (t.closeIn facts mark unchanged) values touched released since r := by
  obtain ⟨hkey, -, -, hwritten⟩ := closeIn_slot facts mark t unchanged r.slot
  have hother : ∀ mark' window,
      ((t.closeIn facts mark unchanged).saved mark').lookup r.slot = some window →
        mark' = mark.other ∧ (t.saved mark').lookup r.slot = some window := by
    intro mark' window hwindow
    by_cases hmark : mark' = mark
    · rw [hmark, closeIn_saved] at hwindow
      cases hwindow
    · rw [closeIn_saved_other mark unchanged mark' hmark] at hwindow
      refine ⟨?_, hwindow⟩
      cases mark <;> cases mark' <;> first | rfl | exact absurd rfl hmark
  constructor
  · intro hle
    rw [hkey]
    obtain hsame | ⟨window, hput, heq⟩ := hwritten
    · rw [hsame] at hle
      exact h.fresh hle
    · rw [heq] at hle
      obtain ⟨hk, hvalue⟩ := h.saved mark window hput.own hle
      exact ⟨hk, (value_of_putsBack hfiled htogether haccepts hput hk).trans hvalue⟩
  · intro mark' window hwindow hbefore
    rw [hkey]
    exact h.saved mark' window (hother mark' window hwindow).2 hbefore
  · intro mark' hopen
    obtain ⟨other, hsome⟩ := Option.ne_none_iff_exists'.1 hopen
    obtain ⟨rfl, hold⟩ := hother mark' other hsome
    obtain hsame | ⟨window, hput, heq⟩ := hwritten
    · rw [hsame]
      exact h.opened mark.other (by rw [hold]; simp)
    · rw [heq]
      exact h.inner mark window other hput.own hold (hinner r.slot window other hput hold)
  · intro mark' window other hwindow hother'
    obtain ⟨hmark, -⟩ := hother mark' window hwindow
    obtain ⟨hmark', -⟩ := hother mark'.other other hother'
    exact absurd (hmark'.trans hmark.symm) mark'.other_ne
  · refine h.touched.imp id ?_
    intro hle
    obtain hsame | ⟨window, hput, heq⟩ := hwritten
    · rw [hsame]
      exact hle
    · exact absurd hle (not_le.2 (h.opened mark (by rw [hput.own]; simp)))
  · rw [hkey]
    exact h.released

theorem settled_closeIn (mark : Mark) (unchanged : K → Bool) (h : Settled t touched since) :
    Settled (t.closeIn facts mark unchanged) touched since := by
  intro slot k hk
  obtain ⟨hkey, -, -, hwritten⟩ := closeIn_slot facts mark t unchanged slot
  rw [hkey] at hk
  refine (h slot k hk).imp id ?_
  rintro ⟨hle, hwindows⟩
  constructor
  · obtain hsame | ⟨window, hput, heq⟩ := hwritten
    · rw [hsame]
      exact hle
    · rw [heq]
      exact hwindows mark window hput.own
  · intro mark' window hwindow
    by_cases hmark : mark' = mark
    · rw [hmark, closeIn_saved] at hwindow
      cases hwindow
    · rw [closeIn_saved_other mark unchanged mark' hmark] at hwindow
      exact hwindows mark' window hwindow

theorem together_closeIn (mark : Mark) (unchanged : K → Bool) (h : Together facts t) :
    Together facts (t.closeIn facts mark unchanged) := by
  intro mark' root slot window window' key hmem hroot hslot hkey
  rw [(closeIn_slot facts mark t unchanged slot).1] at hkey
  by_cases hmark : mark' = mark
  · rw [hmark, closeIn_saved] at hroot
    cases hroot
  · rw [closeIn_saved_other mark unchanged mark' hmark] at hroot hslot
    exact h mark' root slot window window' key hmem hroot hslot hkey

/-! ## §4. Keys are interned and released -/

/-- **A read stays kept when keys are interned** at a stamp no release is later than. -/
theorem kept_interned (hstamped : Stamped counter t) {now : Nat} (hinterned : Interned t now t')
    (hnow : released ≤ now) (h : Kept facts t values touched released since r) :
    Kept facts t' values touched released since r := by
  obtain hsame | ⟨hdead, key, hnew⟩ := hinterned.keys r.slot
  · exact
      { fresh := by rw [hsame]; exact h.fresh
        saved := by rw [hsame, hinterned.saved]; exact h.saved
        opened := by rw [hsame, hinterned.saved]; exact h.opened
        inner := by rw [hinterned.saved]; exact h.inner
        touched := by rw [hsame]; exact h.touched
        released := by rw [hsame]; exact h.released }
  · -- the slot was free, so it was released after the read
    have hlt : since < now := (h.released hdead).trans_le hnow
    obtain ⟨htop, hclosed⟩ := hstamped.dead r.slot hdead
    constructor
    · intro hle
      rw [hnew] at hle
      exact absurd hle (not_le.2 (WithTop.coe_lt_coe.2 hlt))
    · intro mark window hwindow
      rw [hinterned.saved, hclosed mark] at hwindow
      cases hwindow
    · intro mark hopen
      rw [hinterned.saved] at hopen
      exact absurd (hclosed mark) hopen
    · intro mark window other hwindow
      rw [hinterned.saved, hclosed mark] at hwindow
      cases hwindow
    · left
      obtain htouched | hle := h.touched
      · exact htouched
      · rw [htop] at hle
        exact absurd hle (not_le.2 (WithTop.coe_lt_top since))
    · intro hnone
      rw [hnew] at hnone
      cases hnone

theorem settled_interned (hstamped : Stamped counter t) {now : Nat}
    (hinterned : Interned t now t') (hnow : now < since) (h : Settled t touched since) :
    Settled t' touched since := by
  intro slot k hk
  rw [hinterned.last, hinterned.saved]
  obtain hsame | ⟨hdead, key, hnew⟩ := hinterned.keys slot
  · rw [hsame] at hk ⊢
    exact h slot k hk
  · right
    rw [hnew]
    refine ⟨WithTop.coe_le_coe.2 hnow.le, ?_⟩
    intro mark window hwindow
    rw [(hstamped.dead slot hdead).2 mark] at hwindow
    cases hwindow

theorem together_interned (hstamped : Stamped counter t) (hkin : Kin facts t fun _ => False)
    (hfiled' : Filed facts t') {now : Nat} (hinterned : Interned t now t')
    (h : Together facts t) : Together facts t' := by
  intro mark root slot window window' key hmem hroot hslot hkey
  rw [hinterned.saved] at hroot hslot
  -- a slot with an open window named its key before
  have hlive : (t.keys slot).key = some key := by
    obtain hsame | ⟨hdead, -⟩ := hinterned.keys slot
    · rw [← hsame]
      exact hkey
    · rw [(hstamped.dead slot hdead).2 mark] at hslot
      cases hslot
  obtain ⟨k, base, hk, hbase, hkroot⟩ := hfiled'.listed root slot hmem
  obtain rfl : k = key := Option.some.inj (hk.symm.trans hkey)
  obtain hfalse | ⟨found, hfound, hlisted⟩ := hkin slot k base hlive hbase
  · exact hfalse.elim
  · have hsame : found = root :=
      hfiled'.unique found root base (hinterned.key_of_live found base hfound) hkroot
    rw [hsame] at hlisted
    exact h mark root slot window window' k hlisted hroot hslot hlive

end

/-- **A read stays kept when a key is released.** -/
theorem kept_release {slot : Nat} {key : K} (hkey : (t.keys slot).key = some key) {now : Nat}
    (hnow : since < now) (h : Kept facts t values touched released since r) :
    Kept facts (t.releaseOne facts slot now) values (touch facts touched key now) now since r := by
  have hkeys := releaseOne_keys facts hkey now
  have hsaved := releaseOne_saved facts hkey now
  by_cases hslot : r.slot = slot
  · have hgone : (t.releaseOne facts slot now).keys r.slot = ⟨none, ⊤, fun _ => false⟩ := by
      rw [hkeys, hslot, Function.update_self]
    have hclosed : ∀ mark, ((t.releaseOne facts slot now).saved mark).lookup r.slot = none :=
      fun mark => by rw [hsaved, if_pos hslot]
    constructor
    · intro hle
      rw [hgone] at hle
      exact absurd hle (not_le.2 (WithTop.coe_lt_top since))
    · intro mark window hwindow
      rw [hclosed mark] at hwindow
      cases hwindow
    · exact fun mark hopen => absurd (hclosed mark) hopen
    · intro mark window other hwindow
      rw [hclosed mark] at hwindow
      cases hwindow
    · left
      obtain htouched | hle := h.touched
      · exact touch_of_lt touched key r.key now hnow htouched
      · have hread := (h.fresh hle).1
        rw [hslot, hkey] at hread
        unfold touch
        rw [if_pos (.inl (Option.some.inj hread).symm)]
        exact hnow
    · exact fun _ => hnow
  · have hsame : (t.releaseOne facts slot now).keys r.slot = t.keys r.slot := by
      rw [hkeys, Function.update_of_ne hslot]
    have hsaved' : ∀ mark, ((t.releaseOne facts slot now).saved mark).lookup r.slot =
        (t.saved mark).lookup r.slot := fun mark => by rw [hsaved, if_neg hslot]
    constructor
    · rw [hsame]
      exact h.fresh
    · intro mark window
      rw [hsame, hsaved']
      exact h.saved mark window
    · intro mark
      rw [hsame, hsaved']
      exact h.opened mark
    · intro mark window other
      rw [hsaved', hsaved']
      exact h.inner mark window other
    · rw [hsame]
      exact h.touched.imp (touch_of_lt touched key r.key now hnow) id
    · exact fun _ => hnow

theorem settled_release {slot : Nat} {key : K} (hkey : (t.keys slot).key = some key) {now : Nat}
    (hnow : since < now) (h : Settled t touched since) :
    Settled (t.releaseOne facts slot now) (touch facts touched key now) since := by
  intro other k hk
  rw [releaseOne_keys facts hkey] at hk ⊢
  by_cases hother : other = slot
  · rw [hother, Function.update_self] at hk
    cases hk
  · rw [Function.update_of_ne hother] at hk ⊢
    refine (h other k hk).imp ?_ ?_
    · rintro ⟨htouched, _⟩
      refine ⟨touch_of_lt touched key k now hnow htouched, ?_⟩
      simp only [releaseOne, hkey]
      exact hnow
    · rintro ⟨hle, hwindows⟩
      refine ⟨hle, ?_⟩
      intro mark window
      rw [releaseOne_saved facts hkey, if_neg hother]
      exact hwindows mark window

theorem together_release (hfiled : Filed facts t) {slot : Nat} {key : K}
    (hkey : (t.keys slot).key = some key) (now : Nat) (h : Together facts t) :
    Together facts (t.releaseOne facts slot now) := by
  intro mark root other window window' k hmem hroot hother hk
  obtain ⟨hmem, hne⟩ := (mem_derivedOf_releaseOne hfiled hkey now root other).1 hmem
  rw [releaseOne_keys facts hkey, Function.update_of_ne hne] at hk
  rw [releaseOne_saved facts hkey, if_neg hne] at hother
  rw [releaseOne_saved facts hkey] at hroot
  split at hroot
  · cases hroot
  · exact h mark root other window window' k hmem hroot hother hk

end

end GluaLs.Recompute
