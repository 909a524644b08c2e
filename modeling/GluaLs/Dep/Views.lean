/-
  GluaLs.Dep.Views — what each call does to each view of the sites.

  The loops of the source walk over sites, keys and files.  Each lemma says what a view
  HOLDS when the loop is over, whatever order it went in:

    • `unindexUnresolvedSites`, `indexUnresolvedSite` — the files by path key,
    • `addDependencyFile`, `removeSourceDependencyEdges`, `removeIncomingDependencyEdges` —
      the edges, their kinds and the callers,
    • `unindexSourceSites` — the positions by target.
-/
import GluaLs.Dep.Index

namespace GluaLs.Dep

open GluaLs.Lib GluaLs.Lib.Buckets

namespace LuaDependencyIndex

/-! ## §1. The files by path key -/

theorem holds_indexUnresolvedSite (reverse : HashMap String (HashSet FileId))
    (site : LuaDependencySite) (key : String) (file : FileId) :
    Holds (indexUnresolvedSite reverse site) key file ↔
      Holds reverse key file ∨ key ∈ site.pathKeys ∧ file = site.sourceFileId := by
  unfold indexUnresolvedSite
  induction site.pathKeys generalizing reverse with
  | nil => simp
  | cons first keys ih =>
    rw [List.foldl_cons, ih, holds_addTo, List.mem_cons, or_assoc, or_and_right]

theorem noEmpty_indexUnresolvedSite {reverse : HashMap String (HashSet FileId)}
    (h : NoEmpty reverse) (site : LuaDependencySite) :
    NoEmpty (indexUnresolvedSite reverse site) := by
  unfold indexUnresolvedSite
  induction site.pathKeys generalizing reverse with
  | nil => exact h
  | cons first keys ih => exact ih (noEmpty_addTo h first site.sourceFileId)

/-- **Un-indexing goes site by site**: a file leaves the set of a key when ONE of the sites is
    unresolved and has it. -/
theorem holds_unindexUnresolvedSites (sites : List LuaDependencySite) :
    ∀ (reverse : HashMap String (HashSet FileId)) (key : String) (file : FileId),
    Holds (unindexUnresolvedSites reverse sites) key file ↔
      Holds reverse key file ∧ ¬ ∃ site ∈ sites, site.targetFileId = none ∧
        key ∈ site.pathKeys ∧ file = site.sourceFileId := by
  induction sites with
  | nil =>
    intro reverse key file
    simp [unindexUnresolvedSites]
  | cons site sites ih =>
    intro reverse key file
    unfold unindexUnresolvedSites at ih ⊢
    rw [List.foldl_cons, ih]
    cases htarget : site.targetFileId with
    | some target => simp [htarget]
    | none =>
      simp only [Option.isSome_none, Bool.false_eq_true, if_false, holds_foldl_removeFrom]
      constructor
      · intro h
        refine ⟨h.1.1, ?_⟩
        intro hsite
        obtain ⟨other, hmem, hnone, hkey, hfile⟩ := hsite
        obtain rfl | hmem := List.mem_cons.1 hmem
        · exact h.1.2 ⟨hkey, hfile⟩
        · exact h.2 ⟨other, hmem, hnone, hkey, hfile⟩
      · intro h
        refine ⟨⟨h.1, ?_⟩, ?_⟩
        · intro hkey
          exact h.2 ⟨site, .head _, htarget, hkey.1, hkey.2⟩
        · intro hsite
          obtain ⟨other, hmem, hrest⟩ := hsite
          exact h.2 ⟨other, .tail site hmem, hrest⟩

theorem noEmpty_unindexUnresolvedSites (sites : List LuaDependencySite) :
    ∀ reverse : HashMap String (HashSet FileId), NoEmpty reverse →
      NoEmpty (unindexUnresolvedSites reverse sites) := by
  induction sites with
  | nil => exact fun reverse h => h
  | cons site sites ih =>
    intro reverse h
    apply ih
    show NoEmpty (if site.targetFileId.isSome = true then reverse else _)
    split
    · exact h
    · exact noEmpty_foldl_removeFrom site.sourceFileId site.pathKeys reverse h

/-! ## §2. The edges -/

section

variable (index : LuaDependencyIndex) (file dependency : FileId) (kind : LuaDependencyKind)

theorem holds_addDependencyFile_dependencies (s t : FileId) :
    Holds (index.addDependencyFile file dependency kind).dependencies s t ↔
      Holds index.dependencies s t ∨ s = file ∧ t = dependency :=
  holds_addTo _ _ _ _ _

/-- The callers take the edge in when it is new; if it is not, they have it already. -/
theorem holds_addDependencyFile_callers
    (hcallers : ∀ t s, Holds index.dependencyCallersByTarget t s ↔ Holds index.dependencies s t)
    (t s : FileId) :
    Holds (index.addDependencyFile file dependency kind).dependencyCallersByTarget t s ↔
      Holds index.dependencyCallersByTarget t s ∨ s = file ∧ t = dependency := by
  by_cases hold : Holds index.dependencies file dependency
  · have hset : ((((index.dependencies.lookup file).getD ∅).lookup dependency).isSome) = true := by
      obtain ⟨set, hset, hmem⟩ := hold
      rw [hset]
      exact AList.lookup_isSome.2 hmem
    have hsame : (index.addDependencyFile file dependency kind).dependencyCallersByTarget =
        index.dependencyCallersByTarget := by
      simp [addDependencyFile, hset]
    rw [hsame]
    constructor
    · exact .inl
    · intro h
      obtain h | ⟨rfl, rfl⟩ := h
      · exact h
      · exact (hcallers t s).2 hold
  · have hset : ((((index.dependencies.lookup file).getD ∅).lookup dependency).isSome) = false := by
      by_contra hne
      have hsome := Bool.eq_true_of_not_eq_false hne
      cases hlookup : index.dependencies.lookup file with
      | none =>
        rw [hlookup] at hsome
        cases hsome
      | some set =>
        rw [hlookup] at hsome
        exact hold ⟨set, hlookup, AList.lookup_isSome.1 hsome⟩
    have hadded : (index.addDependencyFile file dependency kind).dependencyCallersByTarget =
        addTo index.dependencyCallersByTarget dependency file := by
      simp [addDependencyFile, hset]
    rw [hadded, holds_addTo]
    constructor
    · exact fun h => h.imp id And.symm
    · exact fun h => h.imp id And.symm

theorem holds_addDependencyFile_kinds (s : FileId) (p : FileId × LuaDependencyKind) :
    Holds (index.addDependencyFile file dependency kind).dependencyKinds s p ↔
      Holds index.dependencyKinds s p ∨ s = file ∧ p = (dependency, kind) := by
  refine holds_grow index.dependencyKinds file (fun kinds => addTo kinds dependency kind)
    (fun p => p = (dependency, kind)) ?_ s p
  intro kinds a
  show Holds (addTo kinds dependency kind) a.1 a.2 ↔ Holds kinds a.1 a.2 ∨ a = (dependency, kind)
  rw [holds_addTo, Prod.ext_iff]

end

/-! ## §3. The edges of a file go -/

section

variable (index : LuaDependencyIndex)

/-- The edges from a file go, and with them what its targets know of it. -/
theorem removeSource_spec (source : FileId)
    (hcallers : ∀ t s, Holds index.dependencyCallersByTarget t s ↔ Holds index.dependencies s t) :
    let index' := index.removeSourceDependencyEdges source
    (∀ s t, Holds index'.dependencies s t ↔ Holds index.dependencies s t ∧ s ≠ source) ∧
      (∀ s p, Holds index'.dependencyKinds s p ↔
        Holds index.dependencyKinds s p ∧ s ≠ source) ∧
      ∀ t s, Holds index'.dependencyCallersByTarget t s ↔
        Holds index.dependencyCallersByTarget t s ∧ s ≠ source := by
  unfold removeSourceDependencyEdges
  cases hlookup : index.dependencies.lookup source with
  | none =>
    have hnone : ∀ t, ¬ Holds index.dependencies source t := by
      intro t h
      obtain ⟨set, hset, -⟩ := h
      rw [hlookup] at hset
      cases hset
    refine ⟨?_, fun s p => holds_erase _ _ _ _, ?_⟩
    · intro s t
      constructor
      · intro h
        exact ⟨h, fun heq => hnone t (heq ▸ h)⟩
      · exact And.left
    · intro t s
      constructor
      · intro h
        exact ⟨h, fun heq => hnone t (heq ▸ (hcallers t s).1 h)⟩
      · exact And.left
  | some targets =>
    refine ⟨fun s t => holds_erase _ _ _ _, fun s p => holds_erase _ _ _ _, ?_⟩
    intro t s
    show Holds (targets.keys.foldl _ index.dependencyCallersByTarget) t s ↔ _
    rw [holds_foldl_removeFrom]
    constructor
    · intro h
      refine ⟨h.1, ?_⟩
      intro heq
      -- a caller is a file with the edge, and that is one of the targets
      obtain ⟨set, hset, hmem⟩ := (hcallers t s).1 h.1
      rw [heq, hlookup] at hset
      cases hset
      exact h.2 ⟨hmem, heq⟩
    · exact fun h => ⟨h.1, fun hmem => h.2 hmem.2⟩

theorem removeSource_rest (source : FileId) :
    ∃ dependencies kinds callers, index.removeSourceDependencyEdges source =
      { index with
        dependencies := dependencies
        dependencyKinds := kinds
        dependencyCallersByTarget := callers } := by
  unfold removeSourceDependencyEdges
  cases index.dependencies.lookup source with
  | none => exact ⟨_, _, _, rfl⟩
  | some targets => exact ⟨_, _, _, rfl⟩

/-- The edges to a file go. -/
theorem removeIncoming_spec (target : FileId)
    (hcallers : ∀ t s, Holds index.dependencyCallersByTarget t s ↔ Holds index.dependencies s t)
    (hkinds : ∀ s t k, Holds index.dependencyKinds s (t, k) → Holds index.dependencies s t) :
    let index' := index.removeIncomingDependencyEdges target
    (∀ s t, Holds index'.dependencies s t ↔ Holds index.dependencies s t ∧ t ≠ target) ∧
      (∀ s t k, Holds index'.dependencyKinds s (t, k) ↔
        Holds index.dependencyKinds s (t, k) ∧ t ≠ target) ∧
      ∀ t s, Holds index'.dependencyCallersByTarget t s ↔
        Holds index.dependencyCallersByTarget t s ∧ t ≠ target := by
  unfold removeIncomingDependencyEdges
  cases hlookup : index.dependencyCallersByTarget.lookup target with
  | none =>
    have hnone : ∀ s, ¬ Holds index.dependencies s target := by
      intro s h
      obtain ⟨set, hset, -⟩ := (hcallers target s).2 h
      rw [hlookup] at hset
      cases hset
    refine ⟨?_, ?_, ?_⟩
    · intro s t
      exact ⟨fun h => ⟨h, fun heq => hnone s (heq ▸ h)⟩, And.left⟩
    · intro s t k
      exact ⟨fun h => ⟨h, fun heq => hnone s (heq ▸ hkinds s t k h)⟩, And.left⟩
    · intro t s
      exact ⟨fun h => ⟨h, fun heq => hnone s (heq ▸ (hcallers t s).1 h)⟩, And.left⟩
  | some callers =>
    have hcaller : ∀ s, Holds index.dependencies s target → s ∈ callers.keys := by
      intro s h
      obtain ⟨set, hset, hmem⟩ := (hcallers target s).2 h
      rw [hlookup] at hset
      cases hset
      exact hmem
    refine ⟨?_, ?_, fun t s => holds_erase _ _ _ _⟩
    · intro s t
      show Holds (callers.keys.foldl _ index.dependencies) s t ↔ _
      rw [holds_foldl_removeFrom]
      constructor
      · exact fun h => ⟨h.1, fun heq => h.2 ⟨hcaller s (heq ▸ h.1), heq⟩⟩
      · exact fun h => ⟨h.1, fun hs => h.2 hs.2⟩
    · intro s t k
      show Holds (callers.keys.foldl _ index.dependencyKinds) s (t, k) ↔ _
      rw [holds_foldl_shrink
        (fun kinds : HashMap FileId (HashSet LuaDependencyKind) => kinds.erase target)
        (fun p => p.1 ≠ target) (fun kinds p => holds_erase kinds target p.1 p.2)]
      constructor
      · exact fun h => ⟨h.1, fun heq => h.2 (hcaller s (heq ▸ hkinds s t k h.1)) heq⟩
      · exact fun h => ⟨h.1, fun _ => h.2⟩

theorem removeIncoming_rest (target : FileId) :
    ∃ dependencies kinds callers, index.removeIncomingDependencyEdges target =
      { index with
        dependencies := dependencies
        dependencyKinds := kinds
        dependencyCallersByTarget := callers } := by
  unfold removeIncomingDependencyEdges
  cases index.dependencyCallersByTarget.lookup target with
  | none => exact ⟨_, _, _, rfl⟩
  | some callers => exact ⟨_, _, _, rfl⟩

end

/-- No edge, kind or caller is left empty. -/
structure EdgesNoEmpty (index : LuaDependencyIndex) : Prop where
  dependencies : NoEmpty index.dependencies
  kinds : NoEmpty index.dependencyKinds
  kindsOf : Each NoEmpty index.dependencyKinds
  callers : NoEmpty index.dependencyCallersByTarget

section

variable {index : LuaDependencyIndex} (h : index.EdgesNoEmpty)
include h

theorem EdgesNoEmpty.addDependencyFile (file dependency : FileId) (kind : LuaDependencyKind) :
    (index.addDependencyFile file dependency kind).EdgesNoEmpty where
  dependencies := noEmpty_addTo h.dependencies file dependency
  kinds := noEmpty_grow h.kinds file (fun kinds => addTo kinds dependency kind) fun _ => rfl
  kindsOf := each_grow h.kindsOf file (fun kinds => addTo kinds dependency kind) noEmpty_empty
    fun _ hkinds => noEmpty_addTo hkinds dependency kind
  callers := by
    unfold LuaDependencyIndex.addDependencyFile
    show NoEmpty (if _ then _ else _)
    split
    · exact noEmpty_addTo h.callers dependency file
    · exact h.callers

theorem EdgesNoEmpty.removeSource
    (source : FileId) : (index.removeSourceDependencyEdges source).EdgesNoEmpty := by
  unfold removeSourceDependencyEdges
  cases index.dependencies.lookup source with
  | none =>
    exact ⟨h.dependencies, noEmpty_erase h.kinds source, each_erase h.kindsOf source, h.callers⟩
  | some targets =>
    exact ⟨noEmpty_erase h.dependencies source, noEmpty_erase h.kinds source,
      each_erase h.kindsOf source, noEmpty_foldl_removeFrom source targets.keys _ h.callers⟩

theorem EdgesNoEmpty.removeIncoming
    (target : FileId) : (index.removeIncomingDependencyEdges target).EdgesNoEmpty := by
  unfold removeIncomingDependencyEdges
  cases index.dependencyCallersByTarget.lookup target with
  | none => exact h
  | some callers =>
    refine ⟨noEmpty_foldl_removeFrom target callers.keys _ h.dependencies,
      noEmpty_foldl_shrink (fun kinds => kinds.erase target) callers.keys _ h.kinds,
      each_foldl_shrink (fun kinds => kinds.erase target) ?_ callers.keys _ h.kindsOf,
      noEmpty_erase h.callers target⟩
    exact fun _ hkinds => noEmpty_erase hkinds target

end

/-! ## §4. The positions by target -/

/-- The positions in one file go from the lists of its targets. -/
theorem listOf_unindexSource (source : FileId) (targets : List FileId) :
    ∀ (resolved : HashMap FileId (List DependencySiteLocation)) (t : FileId),
    listOf (targets.foldl (fun resolved target => retainIn resolved target fun location =>
        decide (location.sourceFileId ≠ source)) resolved) t =
      if t ∈ targets then
        (listOf resolved t).filter fun location => decide (location.sourceFileId ≠ source)
      else listOf resolved t := by
  induction targets with
  | nil =>
    intro resolved t
    simp
  | cons target targets ih =>
    intro resolved t
    rw [List.foldl_cons, ih, listOf_retainIn]
    by_cases ht : t = target
    · subst ht
      simp
    · simp [ht]

theorem noEmpty_unindexSource (source : FileId) (targets : List FileId)
    (resolved : HashMap FileId (List DependencySiteLocation)) (h : NoEmpty resolved) :
    NoEmpty (targets.foldl (fun resolved target => retainIn resolved target fun location =>
      decide (location.sourceFileId ≠ source)) resolved) :=
  noEmpty_foldl_shrink _ targets resolved h

end LuaDependencyIndex

end GluaLs.Dep
