/-
  GluaLs.Recompute.Invariant — the table under writes, windows, interning and releases.

  Two conditions on the windows of a run:

    • `opensTogether` — a window opens together with those of the keys read out of its key,
    • `closesInner` — windows close in the reverse of the order they opened in.

  `Inv` is the invariant of a run whose steps meet both.  This file has the steps that change
  the table; the frames and the memos follow.
-/
import GluaLs.Recompute.Kept

namespace GluaLs.Recompute

open GluaLs.Lib State KeyTable

variable {K V : Type}

/-! ## §1. The condition -/

section

variable [DecidableEq K]

/-- **A window opens together with those of its kin**: of the key and of the keys read out of
    it all have one open or none has, and the window of its base, if open, covers it. -/
def opensTogether (facts : Facts K V) (t : KeyTable K V) (mark : Mark) (key : K) : Bool :=
  match t.find key with
  | none => true
  | some slot =>
    ((t.derived.lookup slot).getD []).all (fun other =>
        ((t.saved mark).lookup other).isSome == ((t.saved mark).lookup slot).isSome) &&
      match (facts.base key).bind t.find with
      | some root =>
        !((t.saved mark).lookup root).isSome || ((t.saved mark).lookup slot).isSome
      | none => true

/-- The stamp of a slot is put back: its key, or its base, came out unchanged. -/
def putsBack (facts : Facts K V) (t : KeyTable K V) (mark : Mark) (unchanged : K → Bool)
    (slot : Nat) : Bool :=
  (t.saved mark).entries.any fun root =>
    (match (t.keys root.1).key with
      | some key => (facts.base key).isNone && unchanged key
      | none => false) &&
      decide (slot ∈ t.family root.1)

/-- **A window closes before the one that opened before it**: where the other kind of window
    stays open on a slot whose stamp is put back, that one saved the earlier stamp. -/
def closesInner (facts : Facts K V) (t : KeyTable K V) (mark : Mark) (unchanged : K → Bool) :
    Bool :=
  (t.saved mark).entries.all fun window =>
    !putsBack facts t mark unchanged window.1 ||
      match (t.saved mark.other).lookup window.1 with
      | some other => decide (other.before ≤ window.2.before)
      | none => true

/-- The condition on a step. -/
def keepsWindows (facts : Facts K V) (s : State K V) : Label K V → Bool
  | .openIn mark key _ => opensTogether facts s.table mark key
  | .closeIn mark unchanged => closesInner facts s.table mark unchanged
  | _ => true

omit [DecidableEq K] in
theorem closesInner_spec {facts : Facts K V} {t : KeyTable K V} {mark : Mark}
    {unchanged : K → Bool} (h : closesInner facts t mark unchanged = true) (slot : Nat)
    (window other : Saved V) (hput : PutsBack facts mark t unchanged slot window)
    (hother : (t.saved mark.other).lookup slot = some other) : other.before ≤ window.before := by
  have hentry := List.all_eq_true.1 h ⟨slot, window⟩ ((mem_entries_iff _ _ _).2 hput.own)
  have hback : putsBack facts t mark unchanged slot = true := by
    obtain ⟨root, window', hroot, ⟨key, hkey, hbase, hunchanged⟩, hmem⟩ := hput.root
    refine List.any_eq_true.2 ⟨⟨root, window'⟩, (mem_entries_iff _ _ _).2 hroot, ?_⟩
    simp [hkey, hbase, hunchanged, hmem]
  simpa [hback, hother] using hentry

/-- The windows of a key and of its kin still opened together. -/
theorem together_openIn {facts : Facts K V} {t : KeyTable K V} {values : K → V}
    (hfiled : Filed facts t) {mark : Mark} {key : K} {root now : Nat} {value : Nat → V}
    (hfind : t.find key = some root)
    (hvalue : ∀ slot k, (t.keys slot).key = some k → value slot = facts.value values k)
    (hopens : opensTogether facts t mark key = true) (h : Together facts t) :
    Together facts (t.openIn mark key now value) := by
  intro mark' base slot window window' k hlisted hbase hslot hk
  have hmem : slot ∈ t.derivedOf base := by
    unfold derivedOf at hlisted ⊢
    rw [(struck_openIn hfind mark now value).derived] at hlisted
    exact hlisted
  rw [(struck_openIn hfind mark now value).key] at hk
  by_cases hmark : mark' = mark
  · subst hmark
    rw [openIn_saved hfind] at hbase hslot
    obtain ⟨k', b, hk', hb, hkbase⟩ := hfiled.listed base slot hmem
    obtain rfl : k' = k := Option.some.inj (hk'.symm.trans hk)
    have hroot := find_some hfind
    simp only [opensTogether, hfind, Bool.and_eq_true, List.all_eq_true] at hopens
    by_cases hself : base = root
    · -- the base opens: the slot opens with it, or both were open
      subst hself
      have hfamily : slot ∈ t.family base := (t.mem_family base slot).2 (.inr hmem)
      have hsame := hopens.1 slot hmem
      rw [if_pos hfamily] at hslot
      rw [if_pos ((t.mem_family base base).2 (.inl rfl))] at hbase
      cases hold : (t.saved mark').lookup base with
      | some old =>
        rw [hold] at hbase hsame
        obtain ⟨old', hold'⟩ := Option.isSome_iff_exists.1 (by simpa using hsame)
        rw [hold'] at hslot
        obtain rfl : old = window := Option.some.inj hbase
        obtain rfl : old' = window' := Option.some.inj hslot
        exact h mark' base slot old old' k' hmem hold hold' hk
      | none =>
        rw [hold] at hbase hsame
        have hold' : (t.saved mark').lookup slot = none := by simpa using hsame
        rw [hold'] at hslot
        cases hbase
        cases hslot
        show value slot = facts.part k' (value base)
        rw [hvalue slot k' hk, hvalue base b hkbase]
        unfold Facts.value
        rw [hb, facts.base_base k' b hb]
    · -- the base is not of the family that opens: a base has no base
      have hbaseOut : base ∉ t.family root := by
        intro hin
        obtain heq | hin := (t.mem_family root base).1 hin
        · exact hself heq
        · obtain ⟨kb, bb, hkb, hbb, -⟩ := hfiled.listed root base hin
          obtain rfl : kb = b := Option.some.inj (hkb.symm.trans hkbase)
          rw [facts.base_base k' kb hb] at hbb
          cases hbb
      rw [if_neg hbaseOut, Option.or_none] at hbase
      by_cases hin : slot ∈ t.family root
      · -- the slot itself opens, under a base whose window covers it
        have hslotroot : slot = root := by
          obtain heq | hin := (t.mem_family root slot).1 hin
          · exact heq
          · obtain ⟨ks, bs, hks, hbs, hkroot⟩ := hfiled.listed root slot hin
            obtain rfl : ks = k' := Option.some.inj (hks.symm.trans hk)
            obtain rfl : bs = b := Option.some.inj (hbs.symm.trans hb)
            exact absurd (hfiled.unique base root bs hkbase hkroot) hself
        subst hslotroot
        obtain rfl : k' = key := Option.some.inj (hk.symm.trans hroot)
        have hcovers := hopens.2
        rw [hb, Option.bind_some, find_eq hfiled hkbase] at hcovers
        obtain ⟨old', hold'⟩ := Option.isSome_iff_exists.1 (by simpa [hbase] using hcovers)
        rw [hold'] at hslot
        obtain rfl : old' = window' := Option.some.inj hslot
        exact h mark' base slot window old' k' hmem hbase hold' hk
      · rw [if_neg hin, Option.or_none] at hslot
        exact h mark' base slot window window' k' hmem hbase hslot hk
  · rw [openIn_saved_other hfind mark now value mark' hmark] at hbase hslot
    exact h mark' base slot window window' k hmem hbase hslot hk

end

/-! ## §2. The invariant -/

/-- **What a read vouches for**: it is kept, and if no write came since the memo was checked
    its slot is unwritten. -/
structure Vouched (facts : Facts K V) (t : KeyTable K V) (values : K → V) (touched : K → Nat)
    (released since checked : Nat) (r : Read K V) : Prop where
  kept : Kept facts t values touched released since r
  checked : t.lastWritten ≤ checked → (t.keys r.slot).written ≤ since

/-- **The invariant of a run.** -/
structure Inv (facts : Facts K V) (s : State K V) : Prop where
  filed : Filed facts s.table
  kin : Kin facts s.table fun _ => False
  stamped : Stamped s.counter s.table
  together : Together facts s.table
  frames : ∀ f ∈ s.frames, f.since ≤ s.counter ∧ Settled s.table s.touched f.since ∧
    (f.tainted = false → ∀ r ∈ f.reads,
      Vouched facts s.table s.values s.touched s.released f.since 0 r)
  memos : ∀ p ∈ s.memos, p.since ≤ s.counter ∧ p.checked ≤ s.counter ∧
    ∀ r ∈ p.reads, Vouched facts s.table s.values s.touched s.released p.since p.checked r

theorem inv_initial (facts : Facts K V) (counter : Nat) (values : K → V) :
    Inv facts (initial counter values) where
  filed := filed_empty facts
  kin := kin_empty facts
  stamped := stamped_empty counter
  together _ _ _ _ _ _ hmem := nomatch hmem
  frames _ hf := nomatch hf
  memos _ hp := nomatch hp

/-- A step that leaves the frames and the memos alone. -/
theorem Inv.transfer {facts : Facts K V} {s s' : State K V} (h : Inv facts s)
    (hframes : s'.frames = s.frames) (hmemos : s'.memos = s.memos)
    (hcounter : s.counter ≤ s'.counter) (hfiled : Filed facts s'.table)
    (hkin : Kin facts s'.table fun _ => False) (hstamped : Stamped s'.counter s'.table)
    (htogether : Together facts s'.table)
    (hsettled : ∀ f ∈ s.frames, Settled s.table s.touched f.since →
      Settled s'.table s'.touched f.since)
    (hvouched : ∀ since checked r, since ≤ s.counter → checked ≤ s.counter →
      Vouched facts s.table s.values s.touched s.released since checked r →
        Vouched facts s'.table s'.values s'.touched s'.released since checked r) :
    Inv facts s' where
  filed := hfiled
  kin := hkin
  stamped := hstamped
  together := htogether
  frames f hf := by
    rw [hframes] at hf
    obtain ⟨hsince, hset, hreads⟩ := h.frames f hf
    refine ⟨hsince.trans hcounter, hsettled f hf hset, ?_⟩
    intro htainted r hr
    exact hvouched f.since 0 r hsince (Nat.zero_le _) (hreads htainted r hr)
  memos p hp := by
    rw [hmemos] at hp
    obtain ⟨hsince, hchecked, hreads⟩ := h.memos p hp
    refine ⟨hsince.trans hcounter, hchecked.trans hcounter, ?_⟩
    intro r hr
    exact hvouched p.since p.checked r hsince hchecked (hreads r hr)

/-! ## §3. The steps that change the table -/

section Table

variable [DecidableEq K] {facts : Facts K V} {s : State K V}

/-- The new value of a key no slot names shows in no read. -/
theorem kept_unfiled {since now : Nat} {r : Read K V} (h : Inv facts s) {key : K}
    (hfind : s.table.find key = none) (value : V) (hnow : since < now)
    (hkept : Kept facts s.table s.values s.touched s.released since r) :
    Kept facts s.table (assign facts s.values key value)
      (touch facts s.touched key now) s.released since r where
  fresh hle := by
    obtain ⟨hkey, hvalue⟩ := hkept.fresh hle
    refine ⟨hkey, (value_assign s.values value ?_ ?_).trans hvalue⟩
    · intro heq
      exact find_none h.filed hfind r.slot (heq ▸ hkey)
    · intro hbase
      obtain hfalse | ⟨root, hroot, -⟩ := h.kin r.slot r.key key hkey hbase
      · exact hfalse
      · exact find_none h.filed hfind root hroot
  saved := hkept.saved
  opened := hkept.opened
  inner := hkept.inner
  touched := hkept.touched.imp (touch_of_lt s.touched key r.key now hnow) id
  released := hkept.released

/-- **A key is struck**: written, or opened. -/
theorem Inv.strikes (h : Inv facts s) (key : K) (value : V) {table' : KeyTable K V}
    (kind : Mark) (at' : Nat → V)
    (hat : ∀ slot k, (s.table.keys slot).key = some k → at' slot = facts.value s.values k)
    (hsame : s.table.find key = none → table' = s.table)
    (hstruck : ∀ root, s.table.find key = some root →
      Struck s.table root (s.counter + 1) kind at' table')
    (hfiled : Filed facts table') (hkin : Kin facts table' fun _ => False)
    (hstamped : Stamped (s.counter + 1) table') (htogether : Together facts table') :
    Inv facts { s with
      counter := s.counter + 1
      table := table'
      values := assign facts s.values key value
      touched := touch facts s.touched key (s.counter + 1) } := by
  apply h.transfer
  · rfl
  · rfl
  · exact Nat.le_succ _
  · exact hfiled
  · exact hkin
  · exact hstamped
  · exact htogether
  · intro f hf hsettled
    have hnow : f.since < s.counter + 1 := Nat.lt_succ_of_le (h.frames f hf).1
    cases hfind : s.table.find key with
    | none =>
      rw [hsame hfind]
      intro slot k hk
      refine (hsettled slot k hk).imp ?_ id
      exact fun hlt => ⟨touch_of_lt s.touched key k _ hnow hlt.1, hlt.2⟩
    | some root =>
      exact settled_struck h.filed h.kin (find_some hfind) (hstruck root hfind) hnow hsettled
  · intro since checked r hsince hchecked hvouched
    have hnow : since < s.counter + 1 := Nat.lt_succ_of_le hsince
    cases hfind : s.table.find key with
    | none =>
      rw [hsame hfind]
      exact ⟨kept_unfiled h hfind value hnow hvouched.kept, hvouched.checked⟩
    | some root =>
      refine ⟨kept_struck h.filed h.kin (find_some hfind) value (hstruck root hfind) hnow hat
        hvouched.kept, ?_⟩
      intro hle
      have := (hstruck root hfind).last.1
      have hle : table'.lastWritten ≤ checked := hle
      omega

/-- `mark_written` -/
theorem Inv.write (h : Inv facts s) (key : K) (value : V) :
    Inv facts { s with
      counter := s.counter + 1
      table := s.table.markWritten key (s.counter + 1)
      values := assign facts s.values key value
      touched := touch facts s.touched key (s.counter + 1) } := by
  have hkeys : ∀ slot, ((s.table.markWritten key (s.counter + 1)).keys slot).key =
      (s.table.keys slot).key := by
    intro slot
    cases hfind : s.table.find key with
    | none => simp only [markWritten, hfind]
    | some root => exact (struck_markWritten hfind _ .held (s.valueAt facts value)).key slot
  have hrest : (s.table.markWritten key (s.counter + 1)).size = s.table.size ∧
      (s.table.markWritten key (s.counter + 1)).freeKeys = s.table.freeKeys ∧
      (s.table.markWritten key (s.counter + 1)).derived = s.table.derived ∧
      (s.table.markWritten key (s.counter + 1)).saved = s.table.saved := by
    unfold markWritten
    split <;> exact ⟨rfl, rfl, rfl, rfl⟩
  apply h.strikes key value .held (s.valueAt facts value)
  · intro slot k hk
    simp only [valueAt, hk]
  · intro hfind
    simp only [markWritten, hfind]
  · exact fun root hfind => struck_markWritten hfind _ _ _
  · exact filed_of_same h.filed hkeys hrest.1 hrest.2.1 hrest.2.2.1
  · exact kin_of_same h.kin hkeys hrest.2.2.1
  · exact stamped_markWritten h.filed h.stamped key
  · intro mark root slot window window' k hmem hroot hslot hk
    unfold derivedOf at hmem
    rw [hrest.2.2.1] at hmem
    rw [hrest.2.2.2] at hroot hslot
    rw [hkeys] at hk
    exact h.together mark root slot window window' k hmem hroot hslot hk

/-- `open_window` and `hold_window` -/
theorem Inv.opens (h : Inv facts s) (mark : Mark) (key : K) (value : V)
    (hopens : opensTogether facts s.table mark key = true) :
    Inv facts { s with
      counter := s.counter + 1
      table := s.table.openIn mark key (s.counter + 1) (s.valueAt facts value)
      values := assign facts s.values key value
      touched := touch facts s.touched key (s.counter + 1) } := by
  have hat : ∀ slot k, (s.table.keys slot).key = some k →
      s.valueAt facts value slot = facts.value s.values k := by
    intro slot k hk
    simp only [valueAt, hk]
  have hsame : s.table.find key = none →
      s.table.openIn mark key (s.counter + 1) (s.valueAt facts value) = s.table := by
    intro hfind
    simp only [openIn, hfind]
  have hkeys : ∀ slot, ((s.table.openIn mark key (s.counter + 1)
      (s.valueAt facts value)).keys slot).key = (s.table.keys slot).key := by
    intro slot
    cases hfind : s.table.find key with
    | none => rw [hsame hfind]
    | some root => exact (struck_openIn hfind mark _ _).key slot
  have hrest : (s.table.openIn mark key (s.counter + 1) (s.valueAt facts value)).size =
        s.table.size ∧
      (s.table.openIn mark key (s.counter + 1) (s.valueAt facts value)).freeKeys =
        s.table.freeKeys ∧
      (s.table.openIn mark key (s.counter + 1) (s.valueAt facts value)).derived =
        s.table.derived := by
    unfold openIn
    split <;> exact ⟨rfl, rfl, rfl⟩
  apply h.strikes key value mark (s.valueAt facts value) hat hsame
  · exact fun root hfind => struck_openIn hfind mark _ _
  · exact filed_of_same h.filed hkeys hrest.1 hrest.2.1 hrest.2.2
  · exact kin_of_same h.kin hkeys hrest.2.2
  · exact stamped_openIn h.filed h.stamped mark key _
  · cases hfind : s.table.find key with
    | none =>
      rw [hsame hfind]
      exact h.together
    | some root => exact together_openIn h.filed hfind hat hopens h.together

omit [DecidableEq K] in
/-- `close_windows` and `release_held` -/
theorem Inv.closes [DecidableEq V] (h : Inv facts s) (mark : Mark) (unchanged : K → Bool)
    (haccepts : s.acceptsUnchanged facts mark unchanged = true)
    (hinner : closesInner facts s.table mark unchanged = true) :
    Inv facts { s with table := s.table.closeIn facts mark unchanged } := by
  have hslot := closeIn_slot facts mark s.table unchanged
  have haccepts : ∀ slot window key, (s.table.saved mark).lookup slot = some window →
      (s.table.keys slot).key = some key → facts.base key = none → unchanged key = true →
        facts.value s.values key = window.value := by
    intro slot window key hwindow hkey hbase hunchanged
    have hentry := List.all_eq_true.1 haccepts ⟨slot, window⟩ ((mem_entries_iff _ _ _).2 hwindow)
    simpa [hkey, hbase, hunchanged] using hentry
  apply h.transfer
  · rfl
  · rfl
  · exact le_rfl
  · exact filed_of_same h.filed (fun slot => (hslot slot).1) rfl rfl rfl
  · exact kin_of_same h.kin (fun slot => (hslot slot).1) rfl
  · exact stamped_closeIn h.stamped mark unchanged
  · exact together_closeIn mark unchanged h.together
  · exact fun f _ hsettled => settled_closeIn mark unchanged hsettled
  · intro since checked r _ _ hvouched
    refine ⟨kept_closeIn h.filed h.together haccepts (closesInner_spec hinner) hvouched.kept, ?_⟩
    intro hle
    have hfresh := hvouched.checked hle
    obtain hsame | ⟨window, hput, -⟩ := (hslot r.slot).2.2.2
    · show ((s.table.closeIn facts mark unchanged).keys r.slot).written ≤ since
      rw [hsame]
      exact hfresh
    · exact absurd hfresh (not_le.2 (hvouched.kept.opened mark (by rw [hput.own]; simp)))

/-- `intern` -/
theorem Inv.interns (h : Inv facts s) (key : K) (now : Nat) (hreleased : s.released ≤ now)
    (hnow : now ≤ s.counter) (hframes : ∀ f ∈ s.frames, now < f.since) :
    Inv facts { s with table := s.table.intern facts key now } := by
  obtain ⟨hfiled, hkin, hstamped, hinterned⟩ :=
    intern_spec h.filed h.kin h.stamped key now hnow
  apply h.transfer
  · rfl
  · rfl
  · exact le_rfl
  · exact hfiled
  · exact hkin
  · exact hstamped
  · exact together_interned h.stamped h.kin hfiled hinterned h.together
  · exact fun f hf hsettled => settled_interned h.stamped hinterned (hframes f hf) hsettled
  · intro since checked r _ _ hvouched
    refine ⟨kept_interned h.stamped hinterned hreleased hvouched.kept, ?_⟩
    intro hle
    have hle : (s.table.intern facts key now).lastWritten ≤ checked := hle
    rw [hinterned.last] at hle
    have hfresh := hvouched.checked hle
    show ((s.table.intern facts key now).keys r.slot).written ≤ since
    obtain hsame | ⟨hdead, -⟩ := hinterned.keys r.slot
    · rw [hsame]
      exact hfresh
    · rw [(h.stamped.dead r.slot hdead).1] at hfresh
      exact absurd hfresh (not_le.2 (WithTop.coe_lt_top since))

/-- `release_one` -/
theorem Inv.releases (h : Inv facts s) (slot : Nat) (key : K)
    (hkey : (s.table.keys slot).key = some key) (hroot : s.table.derivedOf slot = []) :
    Inv facts { s with
      counter := s.counter + 1
      table := s.table.releaseOne facts slot (s.counter + 1)
      touched := touch facts s.touched key (s.counter + 1)
      released := s.counter + 1 } := by
  obtain ⟨hfiled, hkin, hstamped⟩ := release_spec h.filed h.kin h.stamped hkey hroot
  apply h.transfer
  · rfl
  · rfl
  · exact Nat.le_succ _
  · exact hfiled
  · exact hkin
  · exact hstamped
  · exact together_release h.filed hkey _ h.together
  · intro f hf hsettled
    exact settled_release hkey (Nat.lt_succ_of_le (h.frames f hf).1) hsettled
  · intro since checked r hsince hchecked hvouched
    refine ⟨kept_release hkey (Nat.lt_succ_of_le hsince) hvouched.kept, ?_⟩
    intro hle
    have hlast : (s.table.releaseOne facts slot (s.counter + 1)).lastWritten = s.counter + 1 := by
      simp only [releaseOne, hkey]
    have hle : (s.table.releaseOne facts slot (s.counter + 1)).lastWritten ≤ checked := hle
    omega

end Table

end GluaLs.Recompute
