/-
  GluaLs.Recompute.Slots — what each call does to every slot of the table.

  The loops of the source walk over lists of slots and over maps of windows.  Each lemma
  here says what is left at ONE slot when the loop is over:

    • `markWritten` and `openIn` reach the slots of one family,
    • `closeIn` leaves a stamp or puts the saved one back, and that only in the family of a
      slot whose key `unchanged` accepted,
    • `place` fills a slot that named no key.
-/
import GluaLs.Recompute.System

namespace GluaLs.Recompute

open GluaLs.Lib Function

variable {K V : Type}

namespace KeyTable

/-- The slots of the keys read out of the key in a slot. -/
def derivedOf (t : KeyTable K V) (slot : Nat) : List Nat := (t.derived.lookup slot).getD []

theorem mem_family (t : KeyTable K V) (root slot : Nat) :
    slot ∈ t.family root ↔ slot = root ∨ slot ∈ t.derivedOf root := List.mem_cons

/-! ## §1. Writes and windows -/

theorem foldl_written (now : Nat) (slots : List Nat) : ∀ (keys : Nat → KeySlot K) (slot : Nat),
    slots.foldl (fun keys slot => update keys slot { keys slot with written := now })
        keys slot =
      if slot ∈ slots then { keys slot with written := now } else keys slot := by
  induction slots with
  | nil =>
    intro keys slot
    simp
  | cons first slots ih =>
    intro keys slot
    rw [List.foldl_cons, ih]
    by_cases hfirst : slot = first
    · subst hfirst
      simp
    · simp [hfirst]

/-- What an open window leaves in a slot. -/
theorem foldl_openOne_keys (mark : Mark) (now : Nat) (value : Nat → V) (slots : List Nat) :
    ∀ (opened : (Nat → KeySlot K) × HashMap Nat (Saved V)) (slot : Nat),
    (slots.foldl (openOne mark now value) opened).1 slot =
      if slot ∈ slots then
        { opened.1 slot with
          written := now, marked := update (opened.1 slot).marked mark true }
      else opened.1 slot := by
  induction slots with
  | nil =>
    intro opened slot
    simp
  | cons first slots ih =>
    intro opened slot
    rw [List.foldl_cons, ih]
    by_cases hfirst : slot = first
    · subst hfirst
      simp [openOne]
    · simp [openOne, hfirst]

/-- What an open window saves: the stamp from before the FIRST time it opened. -/
theorem foldl_openOne_saved (mark : Mark) (now : Nat) (value : Nat → V) (slots : List Nat) :
    ∀ (opened : (Nat → KeySlot K) × HashMap Nat (Saved V)) (slot : Nat),
    (slots.foldl (openOne mark now value) opened).2.lookup slot =
      (opened.2.lookup slot).or
        (if slot ∈ slots then some ⟨(opened.1 slot).written, value slot⟩ else none) := by
  induction slots with
  | nil =>
    intro opened slot
    simp
  | cons first slots ih =>
    intro opened slot
    rw [List.foldl_cons, ih]
    by_cases hfirst : slot = first
    · subst hfirst
      cases hsaved : opened.2.lookup slot with
      | some saved => simp [openOne, hsaved]
      | none => simp [openOne, hsaved]
    · cases hsaved : opened.2.lookup first with
      | some saved => simp [openOne, hsaved, hfirst]
      | none => simp [openOne, hsaved, hfirst, AList.lookup_insert_ne hfirst]

/-! ## §2. Windows close -/

/-- The key in a slot is one `unchanged` is asked about, and accepts. -/
def Accepted (facts : Facts K V) (t : KeyTable K V) (unchanged : K → Bool) (slot : Nat) : Prop :=
  ∃ key, (t.keys slot).key = some key ∧ facts.base key = none ∧ unchanged key = true

/-- **The saved stamp of a slot is put back**: the slot, or the slot of its base, came out
    unchanged. -/
structure PutsBack (facts : Facts K V) (mark : Mark) (t : KeyTable K V) (unchanged : K → Bool)
    (slot : Nat) (saved : Saved V) : Prop where
  own : (t.saved mark).lookup slot = some saved
  root : ∃ root window, (t.saved mark).lookup root = some window ∧
    t.Accepted facts unchanged root ∧ slot ∈ t.family root

/-- The stamps of the derived keys are put back one by one. -/
theorem foldl_putBack (saved : HashMap Nat (Saved V)) (slots : List Nat) :
    ∀ (keys : Nat → KeySlot K) (slot : Nat),
    (slots.foldl (putBackOne saved) keys slot).key = (keys slot).key ∧
      (slots.foldl (putBackOne saved) keys slot).marked = (keys slot).marked ∧
      ((slots.foldl (putBackOne saved) keys slot).written = (keys slot).written ∨
        ∃ before, saved.lookup slot = some before ∧ slot ∈ slots ∧
          (slots.foldl (putBackOne saved) keys slot).written = before.before) := by
  induction slots with
  | nil =>
    intro keys slot
    exact ⟨rfl, rfl, .inl rfl⟩
  | cons first slots ih =>
    intro keys slot
    rw [List.foldl_cons]
    obtain ⟨hkey, hmarked, hwritten⟩ := ih (putBackOne saved keys first) slot
    have hone : (putBackOne saved keys first slot).key = (keys slot).key ∧
        (putBackOne saved keys first slot).marked = (keys slot).marked ∧
        ((putBackOne saved keys first slot).written = (keys slot).written ∨
          ∃ before, saved.lookup slot = some before ∧ slot = first ∧
            (putBackOne saved keys first slot).written = before.before) := by
      unfold putBackOne
      cases hfirst : saved.lookup first with
      | none => exact ⟨rfl, rfl, .inl rfl⟩
      | some before =>
        by_cases hslot : slot = first
        · subst hslot
          simp [hfirst]
        · simp [hslot]
    refine ⟨hkey.trans hone.1, hmarked.trans hone.2.1, ?_⟩
    obtain hsame | ⟨before, hbefore, hmem, heq⟩ := hwritten
    · rw [hsame]
      obtain hsame | ⟨before, hbefore, rfl, heq⟩ := hone.2.2
      · exact .inl hsame
      · exact .inr ⟨before, hbefore, .head _, heq⟩
    · -- a slot that is reached again has its saved stamp already
      exact .inr ⟨before, hbefore, .tail first hmem, heq⟩

section

variable (facts : Facts K V) (mark : Mark) (t : KeyTable K V) (unchanged : K → Bool)
include facts mark t unchanged

/-- One window closes. -/
theorem closeOne_slot (keys : Nat → KeySlot K) (hkeys : ∀ slot, (keys slot).key = (t.keys slot).key)
    (root : Nat) (window : Saved V) (hwindow : (t.saved mark).lookup root = some window)
    (slot : Nat) :
    let result := closeOne facts mark t.derived (t.saved mark) unchanged keys ⟨root, window⟩
    (result slot).key = (keys slot).key ∧
      (result slot).marked =
        (if slot = root then update (keys slot).marked mark false
          else (keys slot).marked) ∧
      ((result slot).written = (keys slot).written ∨
        ∃ saved, PutsBack facts mark t unchanged slot saved ∧
          (result slot).written = saved.before) := by
  intro result
  -- the slot once the mark of the window is gone
  have hunmarked : ∀ slot : Nat,
      (update keys root { keys root with
        marked := update (keys root).marked mark false } slot).key = (keys slot).key ∧
      (update keys root { keys root with
        marked := update (keys root).marked mark false } slot).marked =
        (if slot = root then update (keys slot).marked mark false
          else (keys slot).marked) ∧
      (update keys root { keys root with
        marked := update (keys root).marked mark false } slot).written =
        (keys slot).written := by
    intro slot
    by_cases hslot : slot = root
    · subst hslot
      simp
    · simp [hslot]
  cases hkey : (keys root).key with
  | none =>
    have hresult : result = update keys root { keys root with
        marked := update (keys root).marked mark false } := by
      simp only [result, closeOne, hkey]
    rw [hresult]
    exact ⟨(hunmarked slot).1, (hunmarked slot).2.1, .inl (hunmarked slot).2.2⟩
  | some key =>
    by_cases hasked : (facts.base key).isSome || !unchanged key
    · have hresult : result = update keys root { keys root with
          marked := update (keys root).marked mark false } := by
        simp only [result, closeOne, hkey, hasked, if_true]
      rw [hresult]
      exact ⟨(hunmarked slot).1, (hunmarked slot).2.1, .inl (hunmarked slot).2.2⟩
    · have haccepted : t.Accepted facts unchanged root := by
        refine ⟨key, by rw [← hkeys, hkey], ?_⟩
        simpa using hasked
      obtain ⟨put, hput⟩ : ∃ put : Nat → KeySlot K, put = update
          (update keys root { keys root with
            marked := update (keys root).marked mark false }) root
          { (update keys root { keys root with
              marked := update (keys root).marked mark false } root) with
            written := window.before } := ⟨_, rfl⟩
      have hresult : result = (t.derivedOf root).foldl (putBackOne (t.saved mark)) put := by
        rw [hput]
        simp only [result, closeOne, hkey, hasked, derivedOf]
        rfl
      obtain ⟨hk, hm, hw⟩ := foldl_putBack (t.saved mark) (t.derivedOf root) put slot
      rw [hresult]
      have hputs : ∀ saved, (t.saved mark).lookup slot = some saved →
          slot ∈ t.family root → PutsBack facts mark t unchanged slot saved :=
        fun saved hsaved hmem => ⟨hsaved, root, window, hwindow, haccepted, hmem⟩
      have hslotput : (put slot).key = (keys slot).key ∧
          (put slot).marked = (if slot = root then update (keys slot).marked mark false
            else (keys slot).marked) ∧
          ((put slot).written = (keys slot).written ∨
            slot = root ∧ (put slot).written = window.before) := by
        rw [hput]
        by_cases hslot : slot = root
        · subst hslot
          simp
        · simp [hslot]
      refine ⟨hk.trans hslotput.1, hm.trans hslotput.2.1, ?_⟩
      obtain hw | ⟨before, hbefore, hmem, heq⟩ := hw
      · rw [hw]
        obtain hsame | ⟨hroot, hwritten⟩ := hslotput.2.2
        · exact .inl hsame
        · refine .inr ⟨window, hputs window (hroot ▸ hwindow) ?_, hwritten⟩
          exact (t.mem_family root slot).2 (.inl hroot)
      · refine .inr ⟨before, hputs before hbefore ?_, heq⟩
        exact (t.mem_family root slot).2 (.inr hmem)

/-- Some of the windows close. -/
theorem foldl_closeOne (windows : List (Sigma fun _ : Nat => Saved V)) :
    ∀ keys : Nat → KeySlot K, (∀ slot, (keys slot).key = (t.keys slot).key) →
      (∀ slot, (keys slot).written = (t.keys slot).written ∨
        ∃ saved, PutsBack facts mark t unchanged slot saved ∧
          (keys slot).written = saved.before) →
      (∀ window ∈ windows, (t.saved mark).lookup window.1 = some window.2) →
      let result := windows.foldl (closeOne facts mark t.derived (t.saved mark) unchanged) keys
      ∀ slot, (result slot).key = (t.keys slot).key ∧
        (∀ other ≠ mark, (result slot).marked other = (keys slot).marked other) ∧
        ((result slot).marked mark = true →
          (keys slot).marked mark = true ∧ slot ∉ windows.map Sigma.fst) ∧
        ((result slot).written = (t.keys slot).written ∨
          ∃ saved, PutsBack facts mark t unchanged slot saved ∧
            (result slot).written = saved.before) := by
  induction windows with
  | nil =>
    intro keys hkeys hwritten _ result slot
    exact ⟨hkeys slot, fun _ _ => rfl, fun h => ⟨h, List.not_mem_nil⟩, hwritten slot⟩
  | cons window windows ih =>
    intro keys hkeys hwritten hwindows result slot
    have hresult : result = windows.foldl (closeOne facts mark t.derived (t.saved mark) unchanged)
      (closeOne facts mark t.derived (t.saved mark) unchanged keys window) := rfl
    rw [hresult]
    have hone := closeOne_slot facts mark t unchanged keys hkeys window.1 window.2
      (hwindows window (.head _))
    obtain ⟨hkey, hother, hmarked, hw⟩ := ih
      (closeOne facts mark t.derived (t.saved mark) unchanged keys window)
      (fun slot => (hone slot).1.trans (hkeys slot))
      (by
        intro slot
        obtain hsame | hput := (hone slot).2.2
        · rw [hsame]
          exact hwritten slot
        · exact .inr hput)
      (List.forall_mem_cons.1 hwindows).2 slot
    have hm := (hone slot).2.1
    refine ⟨hkey, ?_, ?_, hw⟩
    · intro other hne
      rw [hother other hne, hm]
      split
      · exact update_of_ne hne _ _
      · rfl
    · intro hset
      obtain ⟨hset, hnot⟩ := hmarked hset
      rw [hm] at hset
      by_cases hslot : slot = window.1
      · rw [if_pos hslot] at hset
        simp at hset
      · rw [if_neg hslot] at hset
        refine ⟨hset, ?_⟩
        simp only [List.map_cons, List.mem_cons, not_or]
        exact ⟨hslot, hnot⟩

/-- **Every window of a kind closes**: the marks are gone, and a stamp is what it was or the
    saved one. -/
theorem closeIn_slot (slot : Nat) :
    ((t.closeIn facts mark unchanged).keys slot).key = (t.keys slot).key ∧
      (∀ other ≠ mark, ((t.closeIn facts mark unchanged).keys slot).marked other =
        (t.keys slot).marked other) ∧
      (((t.closeIn facts mark unchanged).keys slot).marked mark = true →
        (t.keys slot).marked mark = true ∧ (t.saved mark).lookup slot = none) ∧
      (((t.closeIn facts mark unchanged).keys slot).written = (t.keys slot).written ∨
        ∃ saved, PutsBack facts mark t unchanged slot saved ∧
          ((t.closeIn facts mark unchanged).keys slot).written = saved.before) := by
  obtain ⟨hkey, hother, hmarked, hwritten⟩ := foldl_closeOne facts mark t unchanged
    (t.saved mark).entries t.keys (fun _ => rfl) (fun _ => .inl rfl)
    (fun window hwindow => (mem_entries_iff _ _ _).1 hwindow) slot
  refine ⟨hkey, hother, ?_, hwritten⟩
  intro hset
  obtain ⟨hbefore, hnot⟩ := hmarked hset
  refine ⟨hbefore, ?_⟩
  by_contra hsome
  exact hnot ((mem_keys_iff _ _).2 hsome)

end

end KeyTable

end GluaLs.Recompute
