/-
  GluaLs.Diag.Sections — what each critical section does to a file.

  One specification for everything that invalidates (`Invalidates`): entries stay, the files
  reached are dirty and no longer computed, the others are as before.  And one for what
  forgets.  The theorems about runs use these and never unfold an operation.
-/
import GluaLs.Diag.System

namespace GluaLs.Diag

open GluaLs.Lib

variable {U D : Type}

namespace State

/-- The queue holds exactly the dirty files, at their priorities. -/
def QueueIsDirty (s : State U D) : Prop :=
  ∀ p q f, (p, q, f) ∈ s.queue ↔ s.dirty.lookup f = some (p, q)

/-- No file is both dirty and being computed. -/
def Exclusive (s : State U D) : Prop :=
  ∀ f, s.dirty.lookup f = none ∨ s.computing.lookup f = none

/-! ## §1. Invalidation -/

/-- `s'` is `s` with the files of `A` invalidated. -/
structure Invalidates (s s' : State U D) (A : Set FileId) : Prop where
  entries : s'.entries = s.entries
  configGen : s'.configGen = s.configGen
  reached : ∀ f ∈ A, s'.computing.lookup f = none ∧ s'.dirty.lookup f ≠ none
  others : ∀ f ∉ A, s'.computing.lookup f = s.computing.lookup f ∧
    s'.dirty.lookup f = s.dirty.lookup f
  sequence : s.sequence ≤ s'.sequence
  queue : s.QueueIsDirty → s'.QueueIsDirty

theorem Invalidates.refl (s : State U D) : Invalidates s s ∅ :=
  ⟨rfl, rfl, fun _ h => absurd h (Set.notMem_empty _), fun _ _ => ⟨rfl, rfl⟩, le_rfl, id⟩

theorem Invalidates.trans {s s' s'' : State U D} {A B : Set FileId} (h : Invalidates s s' A)
    (h' : Invalidates s' s'' B) : Invalidates s s'' (A ∪ B) := by
  refine ⟨h'.entries.trans h.entries, h'.configGen.trans h.configGen, ?_, ?_,
    Nat.le_trans h.sequence h'.sequence, fun hq => h'.queue (h.queue hq)⟩
  · intro f hf
    by_cases hB : f ∈ B
    · exact h'.reached f hB
    · have hA : f ∈ A := hf.resolve_right hB
      obtain ⟨hc, hd⟩ := h'.others f hB
      rw [hc, hd]
      exact h.reached f hA
  · intro f hf
    have hA : f ∉ A := fun h => hf (.inl h)
    have hB : f ∉ B := fun h => hf (.inr h)
    obtain ⟨hc, hd⟩ := h'.others f hB
    rw [hc, hd]
    exact h.others f hA

/-- What `cancelComputing` leaves. -/
theorem cancelComputing_spec (s : State U D) (f : FileId) :
    (s.cancelComputing f).entries = s.entries ∧ (s.cancelComputing f).configGen = s.configGen ∧
      (s.cancelComputing f).dirty = s.dirty ∧ (s.cancelComputing f).queue = s.queue ∧
      (s.cancelComputing f).sequence = s.sequence ∧
      ∀ g, (s.cancelComputing f).computing.lookup g
        = if g = f then none else s.computing.lookup g := by
  unfold cancelComputing
  cases hc : s.computing.lookup f with
  | none =>
    refine ⟨rfl, rfl, rfl, rfl, rfl, fun g => ?_⟩
    split_ifs with hg
    · rw [hg, hc]
    · rfl
  | some id =>
    refine ⟨rfl, rfl, rfl, rfl, rfl, fun g => ?_⟩
    exact lookup_erase_ite s.computing f g

/-- A dirty file's place in the queue is changed with its entry in `dirty`. -/
theorem queueIsDirty_insert (s : State U D) (f : FileId) (new : Priority × Nat)
    (queue : Finset (Priority × Nat × FileId)) (hq : s.QueueIsDirty)
    (hqueue : ∀ p q g, (p, q, g) ∈ queue ↔ (g ≠ f ∧ (p, q, g) ∈ s.queue)) :
    ∀ p q g, (p, q, g) ∈ insert (new.1, new.2, f) queue ↔
      (s.dirty.insert f new).lookup g = some (p, q) := by
  intro p q g
  rw [Finset.mem_insert, lookup_insert_ite, hqueue]
  by_cases hg : g = f
  · subst hg
    simp only [ne_eq, not_true_eq_false, false_and, or_false, if_true, Option.some.injEq]
    constructor
    · intro h
      cases h
      rfl
    · intro h
      rw [h]
  · rw [if_neg hg, hq p q g]
    constructor
    · intro h
      obtain h | h := h
      · exact absurd (congrArg (fun x => x.2.2) h) hg
      · exact h.2
    · exact fun h => .inr ⟨hg, h⟩

/-- **`invalidate` makes its file dirty and stops its computation**; nothing else changes. -/
theorem invalidate_spec (s : State U D) (f : FileId) (p : Priority) :
    Invalidates s (s.invalidate f p) {f} := by
  obtain ⟨he, hgen, hdirty, hqueue, hseq, hcomp⟩ := s.cancelComputing_spec f
  have hself : (s.cancelComputing f).computing.lookup f = none := by
    rw [hcomp f, if_pos rfl]
  have hother : ∀ g, g ∉ ({f} : Set FileId) →
      (s.cancelComputing f).computing.lookup g = s.computing.lookup g := by
    intro g hg
    rw [hcomp g, if_neg (fun h => hg (Set.mem_singleton_iff.2 h))]
  have hqd : s.QueueIsDirty → (s.cancelComputing f).QueueIsDirty := by
    intro hq p q g
    rw [hqueue, hdirty]
    exact hq p q g
  -- the file is filed under a new number, its old place taken off the queue
  have hfile : ∀ queue : Finset (Priority × Nat × FileId),
      (s.QueueIsDirty → ∀ p q g, (p, q, g) ∈ queue ↔
        (g ≠ f ∧ (p, q, g) ∈ (s.cancelComputing f).queue)) →
      Invalidates s { s.cancelComputing f with
        sequence := (s.cancelComputing f).sequence + 1
        queue := insert (p, (s.cancelComputing f).sequence + 1, f) queue
        dirty := (s.cancelComputing f).dirty.insert f (p, (s.cancelComputing f).sequence + 1) }
        {f} := by
    intro queue hplaces
    refine ⟨he, hgen, ?_, ?_, ?_, ?_⟩
    · intro g hg
      rw [Set.mem_singleton_iff.1 hg]
      exact ⟨hself, by simp only [lookup_insert_ite]; simp⟩
    · intro g hg
      refine ⟨hother g hg, ?_⟩
      show ((s.cancelComputing f).dirty.insert f _).lookup g = _
      rw [lookup_insert_ite, if_neg (fun h => hg (Set.mem_singleton_iff.2 h)), hdirty]
    · show s.sequence ≤ (s.cancelComputing f).sequence + 1
      omega
    · exact fun hq => queueIsDirty_insert (s.cancelComputing f) f
        (p, (s.cancelComputing f).sequence + 1) queue (hqd hq) (hplaces hq)
  unfold invalidate
  simp only
  cases hd : (s.cancelComputing f).dirty.lookup f with
  | none =>
    refine hfile _ fun hq p' q' g => ⟨fun hmem => ⟨fun hg => ?_, hmem⟩, fun h => h.2⟩
    rw [hqd hq p' q' g, hg, hd] at hmem
    exact absurd hmem (by simp)
  | some old =>
    obtain ⟨queued, sequence⟩ := old
    simp only
    split_ifs with hle
    · refine ⟨he, hgen, ?_, ?_, Nat.le_of_eq hseq.symm, hqd⟩
      · intro g hg
        rw [Set.mem_singleton_iff.1 hg]
        exact ⟨hself, by rw [hd]; simp⟩
      · intro g hg
        exact ⟨hother g hg, by rw [hdirty]⟩
    · refine hfile _ fun hq p' q' g => ?_
      rw [Finset.mem_erase]
      constructor
      · intro hmem
        refine ⟨fun hg => ?_, hmem.2⟩
        have hin := (hqd hq p' q' g).1 hmem.2
        rw [hg, hd] at hin
        cases hin
        exact hmem.1 (by rw [hg])
      · intro h
        exact ⟨fun heq => h.1 (congrArg (fun x => x.2.2) heq), h.2⟩

theorem foldl_invalidateOne_spec (edited : FileId → Bool) (files : List FileId) :
    ∀ s : State U D, Invalidates s (files.foldl (invalidateOne edited) s) {f | f ∈ files} := by
  induction files with
  | nil =>
    intro s
    have hnil : {f | f ∈ ([] : List FileId)} = ∅ := by
      ext f
      simp
    rw [hnil]
    exact .refl s
  | cons f files ih =>
    intro s
    have hcons : {g | g ∈ f :: files} = ({f} : Set FileId) ∪ {g | g ∈ files} := by
      ext g
      simp
    rw [hcons]
    exact (s.invalidate_spec f _).trans (ih _)

section

variable (s : State U D)

theorem invalidateFiles_spec (files edited : List FileId) :
    Invalidates s (s.invalidateFiles files edited) {f | f ∈ files} :=
  foldl_invalidateOne_spec _ files s

theorem mem_restOf (files : List FileId) (f : FileId) :
    f ∈ s.restOf files ↔ s.entries.lookup f ≠ none ∧ f ∉ files := by
  unfold restOf
  rw [List.Perm.mem_iff (List.perm_insertionSort _ _), List.mem_filter, mem_keys_iff]
  simp

/-- **`invalidate_all` starts a configuration** and reaches the listed files and the stored
    ones. -/
theorem invalidateAll_spec (files : List FileId) :
    Invalidates { s with configGen := s.configGen + 1 } (s.invalidateAll files)
      {f | f ∈ files ∨ s.entries.lookup f ≠ none} := by
  have h := (foldl_invalidateOne_spec (fun _ => false) files
    { s with configGen := s.configGen + 1 }).trans
      (foldl_invalidateOne_spec (fun _ => false)
        (restOf { s with configGen := s.configGen + 1 } files) _)
  have hset : ({f | f ∈ files} ∪ {f | f ∈ restOf { s with configGen := s.configGen + 1 } files}
      : Set FileId) = {f | f ∈ files ∨ s.entries.lookup f ≠ none} := by
    ext f
    show (f ∈ files ∨ f ∈ restOf { s with configGen := s.configGen + 1 } files) ↔ _
    rw [mem_restOf]
    show (f ∈ files ∨ (s.entries.lookup f ≠ none ∧ f ∉ files)) ↔
      (f ∈ files ∨ s.entries.lookup f ≠ none)
    tauto
  rw [hset] at h
  exact h

theorem setOpen_spec (f : FileId) (isOpen : Bool) :
    ∃ A, Invalidates s (s.setOpen f isOpen) A ∧ ∀ g ∈ A, s.dirty.lookup g ≠ none := by
  unfold setOpen
  split_ifs
  · simp only
    have hopened : ∀ g, g ∈ (∅ : Set FileId) → s.dirty.lookup g ≠ none :=
      fun g hg => absurd hg (Set.notMem_empty g)
    have hsame : Invalidates s { s with opened := insert f s.opened } ∅ :=
      ⟨rfl, rfl, fun _ h => absurd h (Set.notMem_empty _), fun _ _ => ⟨rfl, rfl⟩, le_rfl, id⟩
    cases hd : s.dirty.lookup f with
    | none => exact ⟨∅, hsame, hopened⟩
    | some old =>
      obtain ⟨priority, sequence⟩ := old
      simp only
      split_ifs
      · have h := hsame.trans (invalidate_spec { s with opened := insert f s.opened } f .Open)
        rw [Set.empty_union] at h
        refine ⟨{f}, h, ?_⟩
        intro g hg
        rw [Set.mem_singleton_iff.1 hg, hd]
        simp
      · exact ⟨∅, hsame, hopened⟩
  · exact ⟨∅, ⟨rfl, rfl, fun _ h => absurd h (Set.notMem_empty _), fun _ _ => ⟨rfl, rfl⟩,
      le_rfl, id⟩, fun g hg => absurd hg (Set.notMem_empty g)⟩

/-- `get` and `get_all` reach no file being computed and none whose diagnostics hold. -/
theorem get_spec (f : FileId) (p : Priority) :
    ∃ A, Invalidates s (s.get f p) A ∧
      ∀ g ∈ A, s.dirty.lookup g ≠ none ∨ s.computing.lookup g = none := by
  unfold get
  simp only
  split_ifs with h
  · refine ⟨{f}, s.invalidate_spec f p, ?_⟩
    intro g hg
    rw [Set.mem_singleton_iff.1 hg]
    rw [Bool.or_eq_true] at h
    obtain h | h := h
    · left
      intro hnone
      rw [hnone] at h
      simp at h
    · right
      simp only [Bool.and_eq_true, Option.isNone_iff_eq_none] at h
      exact h.1.2
  · exact ⟨∅, .refl s, fun g hg => absurd hg (Set.notMem_empty g)⟩

theorem getAllOne_spec (f : FileId) :
    ∃ A, Invalidates s (s.getAllOne f) A ∧ ∀ g ∈ A, s.computing.lookup g = none := by
  unfold getAllOne
  split_ifs with h
  · refine ⟨{f}, s.invalidate_spec f _, ?_⟩
    intro g hg
    rw [Set.mem_singleton_iff.1 hg]
    simp only [Bool.and_eq_true, Option.isNone_iff_eq_none] at h
    exact h.2
  · exact ⟨∅, .refl s, fun g hg => absurd hg (Set.notMem_empty g)⟩

end

theorem getAll_spec (files : List FileId) : ∀ s : State U D,
    ∃ A, Invalidates s (s.getAll files) A ∧ ∀ g ∈ A, s.computing.lookup g = none := by
  induction files with
  | nil =>
    intro s
    exact ⟨∅, .refl s, fun g hg => absurd hg (Set.notMem_empty g)⟩
  | cons f files ih =>
    intro s
    obtain ⟨A, hA, hAc⟩ := s.getAllOne_spec f
    obtain ⟨B, hB, hBc⟩ := ih (s.getAllOne f)
    refine ⟨A ∪ B, hA.trans hB, ?_⟩
    intro g hg
    by_cases hgA : g ∈ A
    · exact hAc g hgA
    · rw [← (hA.others g hgA).1]
      exact hBc g (hg.resolve_left hgA)

/-! ## §2. Forgetting -/

/-- `s'` is `s` with the files of `A` forgotten. -/
structure Forgets (s s' : State U D) (A : Set FileId) : Prop where
  reached : ∀ f ∈ A, s'.entries.lookup f = none ∧ s'.computing.lookup f = none ∧
    s'.dirty.lookup f = none
  others : ∀ f ∉ A, s'.entries.lookup f = s.entries.lookup f ∧
    s'.computing.lookup f = s.computing.lookup f ∧ s'.dirty.lookup f = s.dirty.lookup f
  configGen : s'.configGen = s.configGen
  sequence : s'.sequence = s.sequence
  queue : s.QueueIsDirty → s'.QueueIsDirty

theorem removeDirty_spec (s : State U D) (f : FileId) :
    (s.removeDirty f).entries = s.entries ∧ (s.removeDirty f).configGen = s.configGen ∧
      (s.removeDirty f).computing = s.computing ∧ (s.removeDirty f).sequence = s.sequence ∧
      (s.removeDirty f).opened = s.opened ∧
      (∀ g, (s.removeDirty f).dirty.lookup g = if g = f then none else s.dirty.lookup g) ∧
      (s.QueueIsDirty → (s.removeDirty f).QueueIsDirty) := by
  unfold removeDirty
  cases hd : s.dirty.lookup f with
  | none =>
    refine ⟨rfl, rfl, rfl, rfl, rfl, fun g => ?_, id⟩
    split_ifs with hg
    · rw [hg, hd]
    · rfl
  | some old =>
    obtain ⟨p, q⟩ := old
    refine ⟨rfl, rfl, rfl, rfl, rfl, fun g => lookup_erase_ite s.dirty f g, ?_⟩
    intro hq p' q' g
    show (p', q', g) ∈ s.queue.erase (p, q, f) ↔ (s.dirty.erase f).lookup g = some (p', q')
    rw [Finset.mem_erase, lookup_erase_ite]
    by_cases hg : g = f
    · subst hg
      rw [if_pos rfl, hq p' q' g, hd]
      constructor
      · intro h
        cases h.2
        exact absurd rfl h.1
      · intro h
        exact absurd h (by simp)
    · rw [if_neg hg, hq p' q' g]
      constructor
      · exact fun h => h.2
      · exact fun h => ⟨fun heq => hg (congrArg (fun x => x.2.2) heq), h⟩

/-- Cancelling a file's computation and taking it from the queue. -/
theorem dropWork_spec (s : State U D) (f : FileId) :
    ((s.cancelComputing f).removeDirty f).entries = s.entries ∧
      ((s.cancelComputing f).removeDirty f).configGen = s.configGen ∧
      ((s.cancelComputing f).removeDirty f).sequence = s.sequence ∧
      (∀ g, ((s.cancelComputing f).removeDirty f).computing.lookup g
        = if g = f then none else s.computing.lookup g) ∧
      (∀ g, ((s.cancelComputing f).removeDirty f).dirty.lookup g
        = if g = f then none else s.dirty.lookup g) ∧
      (s.QueueIsDirty → ((s.cancelComputing f).removeDirty f).QueueIsDirty) := by
  obtain ⟨he, hgen, hdirty, hqueue, hseq, hcomp⟩ := s.cancelComputing_spec f
  obtain ⟨he', hgen', hcomp', hseq', -, hdirty', hq'⟩ := (s.cancelComputing f).removeDirty_spec f
  refine ⟨he'.trans he, hgen'.trans hgen, hseq'.trans hseq, ?_, ?_, ?_⟩
  · intro g
    rw [hcomp']
    exact hcomp g
  · intro g
    rw [hdirty' g, hdirty]
  · intro hq
    apply hq'
    intro p q g
    rw [hqueue, hdirty]
    exact hq p q g

/-- **`forget` removes everything about its file.** -/
theorem forget_spec (s : State U D) (f : FileId) : Forgets s (s.forget f).1 {f} ∧
    (s.forget f).2 = (s.entries.lookup f).isSome := by
  obtain ⟨he, hgen, hseq, hcomp, hdirty, hq⟩ := s.dropWork_spec f
  refine ⟨⟨?_, ?_, hgen, hseq, hq⟩, ?_⟩
  · intro g hg
    rw [Set.mem_singleton_iff.1 hg]
    refine ⟨AList.lookup_erase _ _, ?_, ?_⟩
    · exact (hcomp f).trans (if_pos rfl)
    · exact (hdirty f).trans (if_pos rfl)
  · intro g hg
    have hne : g ≠ f := fun h => hg (Set.mem_singleton_iff.2 h)
    refine ⟨?_, (hcomp g).trans (if_neg hne), (hdirty g).trans (if_neg hne)⟩
    show (((s.cancelComputing f).removeDirty f).entries.erase f).lookup g = _
    rw [AList.lookup_erase_ne hne, he]
  · show (((s.cancelComputing f).removeDirty f).entries.lookup f).isSome = _
    rw [he]

/-- One turn of `forget_missing`. -/
theorem forgetOne_spec (s : State U D) (uris : List U) (f : FileId) :
    Forgets s (forgetOne (s, uris) f).1 {f} ∧
    (forgetOne (s, uris) f).2 = uris ++ ((s.entries.lookup f).map (·.stored.uri)).toList := by
  obtain ⟨he, hgen, hseq, hcomp, hdirty, hq⟩ := s.dropWork_spec f
  unfold forgetOne
  simp only [he]
  have hcd : ∀ g, g ∉ ({f} : Set FileId) → g ≠ f := fun g hg h => hg (Set.mem_singleton_iff.2 h)
  cases hentry : s.entries.lookup f with
  | none =>
    refine ⟨⟨?_, ?_, hgen, hseq, hq⟩, by simp⟩
    · intro g hg
      rw [Set.mem_singleton_iff.1 hg]
      exact ⟨by rw [he, hentry], (hcomp f).trans (if_pos rfl), (hdirty f).trans (if_pos rfl)⟩
    · intro g hg
      exact ⟨by rw [he], (hcomp g).trans (if_neg (hcd g hg)),
        (hdirty g).trans (if_neg (hcd g hg))⟩
  | some entry =>
    refine ⟨⟨?_, ?_, hgen, hseq, hq⟩, by simp⟩
    · intro g hg
      rw [Set.mem_singleton_iff.1 hg]
      exact ⟨AList.lookup_erase _ _, (hcomp f).trans (if_pos rfl), (hdirty f).trans (if_pos rfl)⟩
    · intro g hg
      refine ⟨AList.lookup_erase_ne (hcd g hg), (hcomp g).trans (if_neg (hcd g hg)),
        (hdirty g).trans (if_neg (hcd g hg))⟩

/-- The loop of `forget_missing`: the URIs are those of the entries forgotten. -/
theorem foldl_forgetOne_spec (files : List FileId) : ∀ (s : State U D) (uris : List U),
    Forgets s (files.foldl forgetOne (s, uris)).1 {f | f ∈ files} ∧
    ∀ u, u ∈ (files.foldl forgetOne (s, uris)).2 ↔
      u ∈ uris ∨ ∃ f ∈ files, ∃ e, s.entries.lookup f = some e ∧ e.stored.uri = u := by
  induction files with
  | nil =>
    intro s uris
    refine ⟨⟨fun _ h => absurd h (by simp), fun _ _ => ⟨rfl, rfl, rfl⟩, rfl, rfl, id⟩, ?_⟩
    intro u
    simp
  | cons f files ih =>
    intro s uris
    obtain ⟨hone, huris⟩ := s.forgetOne_spec uris f
    obtain ⟨hrest, hmem⟩ := ih (forgetOne (s, uris) f).1 (forgetOne (s, uris) f).2
    refine ⟨⟨?_, ?_, hrest.configGen.trans hone.configGen,
      hrest.sequence.trans hone.sequence, fun hq => hrest.queue (hone.queue hq)⟩, ?_⟩
    · intro g hg
      by_cases hin : g ∈ files
      · exact hrest.reached g hin
      · obtain ⟨h1, h2, h3⟩ := hrest.others g hin
        have hgf : g ∈ ({f} : Set FileId) :=
          Set.mem_singleton_iff.2 ((List.mem_cons.1 hg).resolve_right hin)
        obtain ⟨r1, r2, r3⟩ := hone.reached g hgf
        exact ⟨h1.trans r1, h2.trans r2, h3.trans r3⟩
    · intro g hg
      have hin : g ∉ files := fun h => hg (.tail _ h)
      have hgf : g ∉ ({f} : Set FileId) := by
        intro h
        exact hg (List.mem_cons.2 (.inl (Set.mem_singleton_iff.1 h)))
      obtain ⟨h1, h2, h3⟩ := hrest.others g hin
      obtain ⟨o1, o2, o3⟩ := hone.others g hgf
      exact ⟨h1.trans o1, h2.trans o2, h3.trans o3⟩
    · intro u
      show u ∈ (files.foldl forgetOne (forgetOne (s, uris) f)).2 ↔ _
      rw [hmem u, huris, List.mem_append]
      constructor
      · intro h
        obtain (h | h) | ⟨g, hg, e, he, hu⟩ := h
        · exact .inl h
        · rw [Option.mem_toList, Option.map_eq_some_iff] at h
          obtain ⟨e, he, hu⟩ := h
          exact .inr ⟨f, by simp, e, he, hu⟩
        · by_cases hgf : g = f
          · rw [hgf, (hone.reached f rfl).1] at he
            exact absurd he (by simp)
          · rw [(hone.others g hgf).1] at he
            exact .inr ⟨g, by simp [hg], e, he, hu⟩
      · intro h
        obtain h | ⟨g, hg, e, he, hu⟩ := h
        · exact .inl (.inl h)
        · by_cases hgf : g = f
          · left
            right
            rw [hgf] at he
            rw [Option.mem_toList, he]
            simp [hu]
          · right
            refine ⟨g, (List.mem_cons.1 hg).resolve_left hgf, e, ?_, hu⟩
            rw [(hone.others g hgf).1]
            exact he

theorem mem_missingOf (s : State U D) (live : List FileId) (f : FileId) :
    f ∈ s.missingOf live ↔
      (s.entries.lookup f ≠ none ∨ s.dirty.lookup f ≠ none) ∧ f ∉ live := by
  unfold missingOf
  rw [List.Perm.mem_iff (List.perm_insertionSort _ _), List.mem_dedup, List.mem_filter,
    List.mem_append, mem_keys_iff, mem_keys_iff]
  simp

theorem forgetMissing_spec (s : State U D) (live : List FileId) :
    Forgets s (s.forgetMissing live).1
      {f | (s.entries.lookup f ≠ none ∨ s.dirty.lookup f ≠ none) ∧ f ∉ live} ∧
    ∀ u, u ∈ (s.forgetMissing live).2 ↔
      ∃ f, f ∉ live ∧ ∃ e, s.entries.lookup f = some e ∧ e.stored.uri = u := by
  obtain ⟨hf, hu⟩ := foldl_forgetOne_spec (s.missingOf live) s []
  have hset : {f | f ∈ s.missingOf live}
      = {f | (s.entries.lookup f ≠ none ∨ s.dirty.lookup f ≠ none) ∧ f ∉ live} := by
    ext f
    exact s.mem_missingOf live f
  rw [hset] at hf
  refine ⟨hf, fun u => ?_⟩
  show u ∈ ((s.missingOf live).foldl forgetOne (s, [])).2 ↔ _
  rw [hu u]
  constructor
  · intro h
    obtain h | ⟨f, hmem, e, he, heq⟩ := h
    · exact absurd h (by simp)
    · exact ⟨f, ((s.mem_missingOf live f).1 hmem).2, e, he, heq⟩
  · intro h
    obtain ⟨f, hlive, e, he, heq⟩ := h
    refine .inr ⟨f, (s.mem_missingOf live f).2 ⟨.inl ?_, hlive⟩, e, he, heq⟩
    rw [he]
    simp

/-! ## §3. Jobs -/

/-- **What a claim does**: the file is no longer dirty and is computed by a job with a new
    id, under the current configuration. -/
structure Claims (s s' : State U D) (job : Job) : Prop where
  was : s.dirty.lookup job.fileId ≠ none
  id : job.id = s.sequence + 1
  gen : job.configGen = s.configGen
  entries : s'.entries = s.entries
  configGen : s'.configGen = s.configGen
  sequence : s'.sequence = s.sequence + 1
  computing : ∀ g, s'.computing.lookup g
    = if g = job.fileId then some job.id else s.computing.lookup g
  dirty : ∀ g, s'.dirty.lookup g = if g = job.fileId then none else s.dirty.lookup g
  queue : s.QueueIsDirty → s'.QueueIsDirty

theorem claim_spec (s s' : State U D) (f : FileId) (job : Job)
    (h : s.claim f = some (s', job)) : job.fileId = f ∧ Claims s s' job := by
  obtain ⟨-, -, -, -, -, hdirty, hq⟩ := s.removeDirty_spec f
  unfold claim at h
  unfold removeDirty at hdirty hq
  cases hd : s.dirty.lookup f with
  | none =>
    rw [hd] at h
    exact absurd h (by simp)
  | some old =>
    obtain ⟨p, q⟩ := old
    rw [hd] at h hdirty hq
    cases h
    refine ⟨rfl, ⟨by rw [hd]; simp, rfl, rfl, rfl, rfl, rfl, ?_, hdirty, hq⟩⟩
    intro g
    exact lookup_insert_ite s.computing f g _

variable [DecidableEq U]

/-- **What finishing a job does.**  A job that is not current changes nothing.  A current
    one ends its computation and stores its result, or removes the entry, or makes the file
    dirty again. -/
inductive Finishes (resultId : List D → Nat) (s s' : State U D) (job : Job)
    (computed : Computed U D) (stale : Bool) : Option (Published U D) → Prop where
  | superseded (hcur : s.computing.lookup job.fileId ≠ some job.id) (hs : s' = s) :
      Finishes resultId s s' job computed stale none
  | again (hcur : s.computing.lookup job.fileId = some job.id)
      (hinv : Invalidates s s' {job.fileId}) :
      Finishes resultId s s' job computed stale none
  | gone (hcur : s.computing.lookup job.fileId = some job.id) (published : Option (Published U D))
      (hpub : published = (s.entries.lookup job.fileId).map fun e => .Cleared e.stored.uri)
      (hentries : ∀ g, s'.entries.lookup g
        = if g = job.fileId then none else s.entries.lookup g)
      (hcomputing : ∀ g, s'.computing.lookup g
        = if g = job.fileId then none else s.computing.lookup g)
      (hdirty : s'.dirty = s.dirty) (hqueue : s'.queue = s.queue)
      (hgen : s'.configGen = s.configGen) (hseq : s'.sequence = s.sequence) :
      Finishes resultId s s' job computed stale published
  | stored (uri : U) (diagnostics : List D) (version : Option Int)
      (hcur : s.computing.lookup job.fileId = some job.id) (hnot : s.isCancelled job = false)
      (hcomputed : computed = .Diagnostics uri diagnostics) (hstale : stale = false)
      (published : Option (Published U D))
      (hpub : published = if changed (s.entries.lookup job.fileId) uri (resultId diagnostics) then
          some (.Stored ⟨uri, diagnostics, resultId diagnostics⟩ version
            (movedFrom (s.entries.lookup job.fileId) uri))
        else none)
      (hentries : ∀ g, s'.entries.lookup g = if g = job.fileId then
          some ⟨⟨uri, diagnostics, resultId diagnostics⟩, job.configGen, job.id⟩
        else s.entries.lookup g)
      (hcomputing : ∀ g, s'.computing.lookup g
        = if g = job.fileId then none else s.computing.lookup g)
      (hdirty : s'.dirty = s.dirty) (hqueue : s'.queue = s.queue)
      (hgen : s'.configGen = s.configGen) (hseq : s'.sequence = s.sequence) :
      Finishes resultId s s' job computed stale published

omit [DecidableEq U] in
/-- The end of a computation is part of the invalidation that follows it. -/
theorem invalidates_erase_computing (s : State U D) (f : FileId) (edited : FileId → Bool) :
    Invalidates s (invalidateOne edited { s with computing := s.computing.erase f } f) {f} := by
  have h := invalidate_spec { s with computing := s.computing.erase f } f
    (priorityOf { s with computing := s.computing.erase f } f (edited f))
  refine ⟨h.entries, h.configGen, h.reached, ?_, h.sequence, h.queue⟩
  intro g hg
  obtain ⟨hc, hd⟩ := h.others g hg
  refine ⟨hc.trans ?_, hd⟩
  exact AList.lookup_erase_ne (fun heq => hg (Set.mem_singleton_iff.2 heq))

theorem finish_spec (resultId : List D → Nat) (s : State U D) (job : Job)
    (computed : Computed U D) (stale : Bool) (fileVersion : Option Int) :
    Finishes resultId s (s.finish resultId job computed stale fileVersion).1 job computed stale
      (s.finish resultId job computed stale fileVersion).2 := by
  have hcomp : ∀ g, (s.computing.erase job.fileId).lookup g
      = if g = job.fileId then none else s.computing.lookup g :=
    fun g => lookup_erase_ite s.computing job.fileId g
  unfold finish
  by_cases hcur : s.computing.lookup job.fileId = some job.id
  · have hcur' : s.isCurrent job = true := by
      unfold isCurrent
      rw [hcur]
      simp
    rw [if_pos hcur']
    simp only
    cases hcanc : s.isCancelled job with
    | true => exact .again hcur (s.invalidates_erase_computing job.fileId (fun _ => false))
    | false =>
      cases computed with
      | Cancelled => exact .again hcur (s.invalidates_erase_computing job.fileId (fun _ => false))
      | Gone =>
        simp only [Bool.false_eq_true, if_false]
        cases he : s.entries.lookup job.fileId with
        | none =>
          refine .gone hcur _ (by rw [he]; rfl) ?_ hcomp rfl rfl rfl rfl
          intro g
          split_ifs with hg
          · rw [hg]
            exact he
          · rfl
        | some entry =>
          refine .gone hcur _ (by rw [he]; rfl) ?_ hcomp rfl rfl rfl rfl
          exact fun g => lookup_erase_ite s.entries job.fileId g
      | Diagnostics uri diagnostics =>
        simp only [Bool.false_eq_true, if_false]
        cases stale with
        | true => exact .again hcur (s.invalidates_erase_computing job.fileId (fun _ => false))
        | false =>
          refine .stored uri diagnostics (if job.fileId ∈ s.opened then fileVersion else none)
            hcur hcanc rfl rfl _ rfl ?_ hcomp rfl rfl rfl rfl
          exact fun g => lookup_insert_ite s.entries job.fileId g _
  · have hcur' : ¬ s.isCurrent job = true := by
      unfold isCurrent
      simpa using hcur
    rw [if_neg hcur']
    exact .superseded hcur rfl

end State

end GluaLs.Diag
