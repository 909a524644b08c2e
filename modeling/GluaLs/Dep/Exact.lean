/-
  GluaLs.Dep.Exact — the views of the index say what its sites do.

  `Sound` is kept by EVERY call: the edges, their kinds, the callers and the positions are
  those of the sites, a file listed under a path key has an unresolved site with it, and no
  entry is left empty.  `Complete` is the other half for the path keys: every unresolved
  site is listed under each of its keys.  This file has the calls that add sites and take a
  file's sites away.
-/
import GluaLs.Dep.Views

namespace GluaLs.Dep

open GluaLs.Lib GluaLs.Lib.Buckets LuaDependencyIndex

/-! ## §1. What the sites say -/

section Sites

variable (sites : FileId → List LuaDependencySite)

/-- A site of `s` is resolved to `t`, with a kind. -/
def SiteEdge (s t : FileId) (k : LuaDependencyKind) : Prop :=
  ∃ site ∈ sites s, site.targetFileId = some t ∧ site.kind = k

/-- The site at a position is resolved to `t`. -/
def SiteAt (t : FileId) (l : DependencySiteLocation) : Prop :=
  ∃ site, (sites l.sourceFileId)[l.siteIndex]? = some site ∧ site.targetFileId = some t

/-- An unresolved site of `s` has a path key. -/
def SiteWaits (p : String) (s : FileId) : Prop :=
  ∃ site ∈ sites s, site.targetFileId = none ∧ p ∈ site.pathKeys

end Sites

/-! ## §2. Edges and positions -/

/-- **The edges are those of a relation.** -/
structure Edges (index : LuaDependencyIndex)
    (R : FileId → FileId → LuaDependencyKind → Prop) : Prop where
  dependencies : ∀ s t, Holds index.dependencies s t ↔ ∃ k, R s t k
  kinds : ∀ s t k, Holds index.dependencyKinds s (t, k) ↔ R s t k
  callers : ∀ t s, Holds index.dependencyCallersByTarget t s ↔ ∃ k, R s t k
  noEmpty : index.EdgesNoEmpty

namespace Edges

variable {index : LuaDependencyIndex} {R : FileId → FileId → LuaDependencyKind → Prop}

section

variable (h : Edges index R)
include h

theorem congr {R' : FileId → FileId → LuaDependencyKind → Prop}
    (hR : ∀ s t k, R s t k ↔ R' s t k) : Edges index R' where
  dependencies s t := (h.dependencies s t).trans (exists_congr (hR s t))
  kinds s t k := (h.kinds s t k).trans (hR s t k)
  callers t s := (h.callers t s).trans (exists_congr (hR s t))
  noEmpty := h.noEmpty

theorem callers_iff (t s : FileId) :
    Holds index.dependencyCallersByTarget t s ↔ Holds index.dependencies s t :=
  (h.callers t s).trans (h.dependencies s t).symm

theorem add (file dependency : FileId) (kind : LuaDependencyKind) :
    Edges (index.addDependencyFile file dependency kind)
      fun s t k => R s t k ∨ s = file ∧ t = dependency ∧ k = kind where
  dependencies s t := by
    rw [holds_addDependencyFile_dependencies, h.dependencies]
    simp [exists_or]
  kinds s t k := by
    rw [holds_addDependencyFile_kinds, h.kinds, Prod.mk.injEq]
  callers t s := by
    rw [holds_addDependencyFile_callers index file dependency kind h.callers_iff, h.callers]
    simp [exists_or]
  noEmpty := h.noEmpty.addDependencyFile file dependency kind

theorem removeSource (source : FileId) :
    Edges (index.removeSourceDependencyEdges source) fun s t k => R s t k ∧ s ≠ source := by
  obtain ⟨hdependencies, hkinds, hcallers⟩ := removeSource_spec index source h.callers_iff
  constructor
  · intro s t
    rw [hdependencies, h.dependencies, exists_and_right]
  · intro s t k
    rw [hkinds, h.kinds]
  · intro t s
    rw [hcallers, h.callers, exists_and_right]
  · exact h.noEmpty.removeSource source

theorem removeIncoming (target : FileId) :
    Edges (index.removeIncomingDependencyEdges target) fun s t k => R s t k ∧ t ≠ target := by
  obtain ⟨hdependencies, hkinds, hcallers⟩ := removeIncoming_spec index target h.callers_iff
    (fun s t k hk => (h.dependencies s t).2 ⟨k, (h.kinds s t k).1 hk⟩)
  constructor
  · intro s t
    rw [hdependencies, h.dependencies, exists_and_right]
  · intro s t k
    rw [hkinds, h.kinds]
  · intro t s
    rw [hcallers, h.callers, exists_and_right]
  · exact h.noEmpty.removeIncoming target

end

end Edges

/-- **The positions are those of a relation**, each once. -/
structure Located (resolved : HashMap FileId (List DependencySiteLocation))
    (L : FileId → DependencySiteLocation → Prop) : Prop where
  nodup : ∀ t, (listOf resolved t).Nodup
  mem : ∀ t l, l ∈ listOf resolved t ↔ L t l
  noEmpty : NoEmpty resolved

namespace Located

variable {resolved : HashMap FileId (List DependencySiteLocation)}
  {L : FileId → DependencySiteLocation → Prop}

theorem congr (h : Located resolved L) {L' : FileId → DependencySiteLocation → Prop}
    (hL : ∀ t l, L t l ↔ L' t l) : Located resolved L' where
  nodup := h.nodup
  mem t l := (h.mem t l).trans (hL t l)
  noEmpty := h.noEmpty

theorem push (h : Located resolved L) (target : FileId) (location : DependencySiteLocation)
    (hnew : ¬ L target location) :
    Located (pushTo resolved target location) fun t l => L t l ∨ t = target ∧ l = location where
  nodup t := by
    rw [listOf_pushTo]
    split
    · apply (h.nodup target).append (List.nodup_singleton location)
      intro l hl hmem
      rw [List.mem_singleton.1 hmem] at hl
      exact hnew ((h.mem target location).1 hl)
    · exact h.nodup t
  mem t l := by
    rw [listOf_pushTo]
    by_cases ht : t = target
    · subst ht
      simp [h.mem]
    · simp [ht, h.mem]
  noEmpty := noEmpty_pushTo h.noEmpty target location

theorem erase (h : Located resolved L) (target : FileId) :
    Located (resolved.erase target) fun t l => L t l ∧ t ≠ target where
  nodup t := by
    rw [listOf_erase]
    split
    · exact List.nodup_nil
    · exact h.nodup t
  mem t l := by
    rw [listOf_erase]
    by_cases ht : t = target
    · simp [ht]
    · simp [ht, h.mem]
  noEmpty := noEmpty_erase h.noEmpty target

/-- The positions in one file go, from the lists of all its targets. -/
theorem unindex (h : Located resolved L) (source : FileId) (targets : List FileId)
    (hall : ∀ t l, L t l → l.sourceFileId = source → t ∈ targets) :
    Located (targets.foldl (fun resolved target => retainIn resolved target fun location =>
      decide (location.sourceFileId ≠ source)) resolved)
      fun t l => L t l ∧ l.sourceFileId ≠ source where
  nodup t := by
    rw [listOf_unindexSource]
    split
    · exact (h.nodup t).filter _
    · exact h.nodup t
  mem t l := by
    rw [listOf_unindexSource]
    by_cases ht : t ∈ targets
    · simp [ht, h.mem]
    · rw [if_neg ht, h.mem]
      exact ⟨fun hl => ⟨hl, fun heq => ht (hall t l hl heq)⟩, And.left⟩
  noEmpty := noEmpty_unindexSource source targets resolved h.noEmpty

end Located

/-! ## §3. The invariant -/

/-- **The views say nothing the sites do not.** -/
structure Sound (index : LuaDependencyIndex) : Prop where
  source : ∀ s, ∀ site ∈ index.sitesOf s, site.sourceFileId = s
  edges : Edges index (SiteEdge index.sitesOf)
  located : Located index.resolvedSitesByTarget (SiteAt index.sitesOf)
  waits : ∀ p s, Holds index.unresolvedDependentsByPathKey p s → SiteWaits index.sitesOf p s
  sitesNoEmpty : NoEmpty index.dependencySites
  unresolvedNoEmpty : NoEmpty index.unresolvedDependentsByPathKey
  removalNoEmpty : NoEmpty index.unresolvedByRemoval
  derivedNoEmpty : NoEmpty index.derivedSites

/-- **Every unresolved site is listed** under each of its path keys. -/
def Complete (index : LuaDependencyIndex) : Prop :=
  ∀ p s, SiteWaits index.sitesOf p s → Holds index.unresolvedDependentsByPathKey p s

theorem sound_new : Sound LuaDependencyIndex.new where
  source s site hsite := nomatch hsite
  edges := by
    constructor
    · intro s t
      constructor
      · exact fun h => absurd h (not_holds_empty s t)
      · intro h
        obtain ⟨k, site, hsite, -⟩ := h
        cases hsite
    · intro s t k
      constructor
      · exact fun h => absurd h (not_holds_empty s (t, k))
      · intro h
        obtain ⟨site, hsite, -⟩ := h
        cases hsite
    · intro t s
      constructor
      · exact fun h => absurd h (not_holds_empty t s)
      · intro h
        obtain ⟨k, site, hsite, -⟩ := h
        cases hsite
    · exact ⟨noEmpty_empty, noEmpty_empty, each_empty _, noEmpty_empty⟩
  located := by
    constructor
    · exact fun t => List.nodup_nil
    · intro t l
      constructor
      · exact nofun
      · intro h
        obtain ⟨site, hsite, -⟩ := h
        cases hsite
    · exact noEmpty_empty
  waits p s h := absurd h (not_holds_empty p s)
  sitesNoEmpty := noEmpty_empty
  unresolvedNoEmpty := noEmpty_empty
  removalNoEmpty := noEmpty_empty
  derivedNoEmpty := noEmpty_empty

theorem complete_new : Complete LuaDependencyIndex.new := by
  intro p s h
  obtain ⟨site, hsite, -⟩ := h
  cases hsite

/-! ## §4. A site is added -/

section Add

variable {sites sites' : FileId → List LuaDependencySite} {site : LuaDependencySite}

/-- One more site, at the end of its file's. -/
def OneMore (sites sites' : FileId → List LuaDependencySite) (site : LuaDependencySite) : Prop :=
  ∀ s, sites' s = if s = site.sourceFileId then sites s ++ [site] else sites s

section

variable (h : OneMore sites sites' site)
include h

theorem mem_oneMore (s : FileId) (other : LuaDependencySite) :
    other ∈ sites' s ↔ other ∈ sites s ∨ s = site.sourceFileId ∧ other = site := by
  rw [h]
  by_cases hs : s = site.sourceFileId
  · simp [hs]
  · simp [hs]

theorem siteEdge_oneMore (s t : FileId) (k : LuaDependencyKind) :
    SiteEdge sites' s t k ↔ SiteEdge sites s t k ∨
      s = site.sourceFileId ∧ site.targetFileId = some t ∧ k = site.kind := by
  unfold SiteEdge
  simp only [mem_oneMore h]
  constructor
  · intro hsite
    obtain ⟨other, hmem | ⟨hs, rfl⟩, htarget, hkind⟩ := hsite
    · exact .inl ⟨other, hmem, htarget, hkind⟩
    · exact .inr ⟨hs, htarget, hkind.symm⟩
  · intro hsite
    obtain ⟨other, hmem, htarget, hkind⟩ | ⟨hs, htarget, hkind⟩ := hsite
    · exact ⟨other, .inl hmem, htarget, hkind⟩
    · exact ⟨site, .inr ⟨hs, rfl⟩, htarget, hkind.symm⟩

theorem siteWaits_oneMore (p : String) (s : FileId) :
    SiteWaits sites' p s ↔ SiteWaits sites p s ∨
      s = site.sourceFileId ∧ site.targetFileId = none ∧ p ∈ site.pathKeys := by
  unfold SiteWaits
  simp only [mem_oneMore h]
  constructor
  · intro hsite
    obtain ⟨other, hmem | ⟨hs, rfl⟩, hnone, hkey⟩ := hsite
    · exact .inl ⟨other, hmem, hnone, hkey⟩
    · exact .inr ⟨hs, hnone, hkey⟩
  · intro hsite
    obtain ⟨other, hmem, hnone, hkey⟩ | ⟨hs, hnone, hkey⟩ := hsite
    · exact ⟨other, .inl hmem, hnone, hkey⟩
    · exact ⟨site, .inr ⟨hs, rfl⟩, hnone, hkey⟩

theorem siteAt_oneMore (t : FileId) (l : DependencySiteLocation) :
    SiteAt sites' t l ↔ SiteAt sites t l ∨
      site.targetFileId = some t ∧ l = ⟨site.sourceFileId, (sites site.sourceFileId).length⟩ := by
  obtain ⟨s, i⟩ := l
  unfold SiteAt
  simp only [h s, DependencySiteLocation.mk.injEq]
  by_cases hs : s = site.sourceFileId
  · subst hs
    simp only [if_true, true_and]
    by_cases hi : i < (sites site.sourceFileId).length
    · rw [List.getElem?_append_left hi]
      simp [Nat.ne_of_lt hi]
    · rw [List.getElem?_append_right (not_lt.1 hi), List.getElem?_eq_none (not_lt.1 hi)]
      by_cases hlast : i = (sites site.sourceFileId).length
      · subst hlast
        simp
      · have hgt : 1 ≤ i - (sites site.sourceFileId).length := by omega
        rw [List.getElem?_eq_none (by simpa using hgt)]
        simp [hlast]
  · simp [hs]

end

end Add

theorem oneMore_push (m : HashMap FileId (List LuaDependencySite)) (site : LuaDependencySite) :
    OneMore (listOf m) (listOf (pushTo m site.sourceFileId site)) site := by
  intro s
  rw [listOf_pushTo]
  by_cases hs : s = site.sourceFileId
  · simp [hs]
  · simp [hs]

/-- Two of the tables are looked at only for empty lists. -/
theorem Sound.withTables {index : LuaDependencyIndex} (h : Sound index)
    {removal : HashMap FileId (List (FileId × Option String))} (hremoval : NoEmpty removal)
    {derived : HashMap FileId (List LuaDependencySite)} (hderived : NoEmpty derived) :
    Sound { index with unresolvedByRemoval := removal, derivedSites := derived } where
  source := h.source
  edges := ⟨h.edges.dependencies, h.edges.kinds, h.edges.callers, h.edges.noEmpty.dependencies,
    h.edges.noEmpty.kinds, h.edges.noEmpty.kindsOf, h.edges.noEmpty.callers⟩
  located := h.located
  waits := h.waits
  sitesNoEmpty := h.sitesNoEmpty
  unresolvedNoEmpty := h.unresolvedNoEmpty
  removalNoEmpty := hremoval
  derivedNoEmpty := hderived

/-- Edges look at three of the maps. -/
theorem Edges.move {index index' : LuaDependencyIndex}
    {R R' : FileId → FileId → LuaDependencyKind → Prop} (h : Edges index R)
    (hdependencies : index'.dependencies = index.dependencies)
    (hkinds : index'.dependencyKinds = index.dependencyKinds)
    (hcallers : index'.dependencyCallersByTarget = index.dependencyCallersByTarget)
    (hR : ∀ s t k, R s t k ↔ R' s t k) : Edges index' R' where
  dependencies := by
    rw [hdependencies]
    exact (h.congr hR).dependencies
  kinds := by
    rw [hkinds]
    exact (h.congr hR).kinds
  callers := by
    rw [hcallers]
    exact (h.congr hR).callers
  noEmpty := by
    constructor
    · rw [hdependencies]
      exact h.noEmpty.dependencies
    · rw [hkinds]
      exact h.noEmpty.kinds
    · rw [hkinds]
      exact h.noEmpty.kindsOf
    · rw [hcallers]
      exact h.noEmpty.callers

section

variable {index : LuaDependencyIndex}

theorem sound_fileSite (h : Sound index) (site : LuaDependencySite) :
    Sound (index.fileSite site) := by
  have hmore : OneMore index.sitesOf
      (listOf (pushTo index.dependencySites site.sourceFileId site)) site :=
    oneMore_push index.dependencySites site
  have hsource : ∀ s, ∀ other ∈ listOf (pushTo index.dependencySites site.sourceFileId site) s,
      other.sourceFileId = s := by
    intro s other hother
    obtain hother | ⟨hs, rfl⟩ := (mem_oneMore hmore s other).1 hother
    · exact h.source s other hother
    · exact hs.symm
  have hsites := noEmpty_pushTo h.sitesNoEmpty site.sourceFileId site
  cases htarget : site.targetFileId with
  | some target =>
    have hfile : index.fileSite site =
        { index.addDependencyFile site.sourceFileId target site.kind with
          resolvedSitesByTarget := pushTo index.resolvedSitesByTarget target
            ⟨site.sourceFileId, (index.sitesOf site.sourceFileId).length⟩
          dependencySites := pushTo index.dependencySites site.sourceFileId site } := by
      simp only [fileSite, htarget]
      rfl
    -- the position is past the sites the file had
    have hpast : ¬ SiteAt index.sitesOf target
        ⟨site.sourceFileId, (index.sitesOf site.sourceFileId).length⟩ := by
      intro hat
      obtain ⟨other, hother, -⟩ := hat
      rw [List.getElem?_eq_none le_rfl] at hother
      cases hother
    rw [hfile]
    refine ⟨hsource, ?_, ?_, ?_, hsites, h.unresolvedNoEmpty, h.removalNoEmpty, h.derivedNoEmpty⟩
    · apply (h.edges.add site.sourceFileId target site.kind).move
      · rfl
      · rfl
      · rfl
      · intro s t k
        show _ ↔ SiteEdge (listOf (pushTo index.dependencySites site.sourceFileId site)) s t k
        rw [siteEdge_oneMore hmore, htarget, Option.some.injEq]
        exact or_congr_right (and_congr_right fun _ => and_congr_left fun _ => eq_comm)
    · apply (h.located.push target _ hpast).congr
      intro t l
      show _ ↔ SiteAt (listOf (pushTo index.dependencySites site.sourceFileId site)) t l
      rw [siteAt_oneMore hmore, htarget, Option.some.injEq]
      exact or_congr_right (and_congr_left fun _ => eq_comm)
    · intro p s hp
      exact (siteWaits_oneMore hmore p s).2 (.inl (h.waits p s hp))
  | none =>
    have hfile : index.fileSite site =
        { index with
          unresolvedDependentsByPathKey :=
            indexUnresolvedSite index.unresolvedDependentsByPathKey site
          dependencySites := pushTo index.dependencySites site.sourceFileId site } := by
      simp only [fileSite, htarget]
    rw [hfile]
    refine ⟨hsource, ?_, ?_, ?_, hsites, noEmpty_indexUnresolvedSite h.unresolvedNoEmpty site,
      h.removalNoEmpty, h.derivedNoEmpty⟩
    · apply h.edges.move
      · rfl
      · rfl
      · rfl
      · intro s t k
        show _ ↔ SiteEdge (listOf (pushTo index.dependencySites site.sourceFileId site)) s t k
        simp [siteEdge_oneMore hmore, htarget]
    · apply h.located.congr
      intro t l
      show _ ↔ SiteAt (listOf (pushTo index.dependencySites site.sourceFileId site)) t l
      simp [siteAt_oneMore hmore, htarget]
    · intro p s hp
      show SiteWaits (listOf (pushTo index.dependencySites site.sourceFileId site)) p s
      rw [siteWaits_oneMore hmore]
      obtain hp | ⟨hkey, hs⟩ := (holds_indexUnresolvedSite _ site p s).1 hp
      · exact .inl (h.waits p s hp)
      · exact .inr ⟨hs, htarget, hkey⟩

theorem complete_fileSite (h : Complete index)
    (site : LuaDependencySite) : Complete (index.fileSite site) := by
  have hmore : OneMore index.sitesOf
      (listOf (pushTo index.dependencySites site.sourceFileId site)) site :=
    oneMore_push index.dependencySites site
  intro p s hwaits
  have hwaits : SiteWaits (listOf (pushTo index.dependencySites site.sourceFileId site)) p s := by
    unfold fileSite at hwaits
    cases htarget : site.targetFileId with
    | some target =>
      simp only [htarget] at hwaits
      exact hwaits
    | none =>
      simp only [htarget] at hwaits
      exact hwaits
  unfold fileSite
  cases htarget : site.targetFileId with
  | some target =>
    obtain hwaits | ⟨-, hnone, -⟩ := (siteWaits_oneMore hmore p s).1 hwaits
    · exact h p s hwaits
    · rw [htarget] at hnone
      cases hnone
  | none =>
    show Holds (indexUnresolvedSite index.unresolvedDependentsByPathKey site) p s
    rw [holds_indexUnresolvedSite]
    obtain hwaits | ⟨hs, -, hkey⟩ := (siteWaits_oneMore hmore p s).1 hwaits
    · exact .inl (h p s hwaits)
    · exact .inr ⟨hkey, hs⟩

/-- **`addDependencySite`** -/
theorem sound_addSite (h : Sound index) (site : LuaDependencySite)
    (source : Bool) : Sound (index.addDependencySite site source) := by
  unfold addDependencySite
  split
  · exact h
  · split
    · exact sound_fileSite h site
    · apply sound_fileSite
      exact h.withTables h.removalNoEmpty (noEmpty_pushTo h.derivedNoEmpty site.sourceFileId site)

theorem complete_addSite (h : Complete index) (site : LuaDependencySite) (source : Bool) :
    Complete (index.addDependencySite site source) := by
  unfold addDependencySite
  split
  · exact h
  · split
    · exact complete_fileSite h site
    · apply complete_fileSite
      exact h

end

/-! ## §5. The sites of a file go -/

/-- A file without its sites, and the views without it. -/
def dropSites (index : LuaDependencyIndex) (file : FileId) : LuaDependencyIndex :=
  ({ index with
    dependencySites := index.dependencySites.erase file }.unindexSourceSites file
      (index.sitesOf file)).removeSourceDependencyEdges file

theorem dropSites_rest (index : LuaDependencyIndex) (file : FileId) :
    ∃ dependencies kinds callers, dropSites index file =
      { ({ index with
        dependencySites := index.dependencySites.erase file }.unindexSourceSites file
          (index.sitesOf file)) with
        dependencies := dependencies
        dependencyKinds := kinds
        dependencyCallersByTarget := callers } :=
  removeSource_rest _ file

theorem sitesOf_dropSites (index : LuaDependencyIndex) (file s : FileId) :
    (dropSites index file).sitesOf s = if s = file then [] else index.sitesOf s := by
  obtain ⟨dependencies, kinds, callers, hrest⟩ := dropSites_rest index file
  rw [hrest]
  exact listOf_erase index.dependencySites file s

theorem removal_dropSites (index : LuaDependencyIndex) (file : FileId) :
    (dropSites index file).unresolvedByRemoval = index.unresolvedByRemoval := by
  obtain ⟨dependencies, kinds, callers, hrest⟩ := dropSites_rest index file
  rw [hrest]
  rfl

section

variable {index : LuaDependencyIndex} (h : Sound index)
include h

theorem holds_dropSites_unresolved (file : FileId) (p : String) (s : FileId) :
    Holds (dropSites index file).unresolvedDependentsByPathKey p s ↔
      Holds index.unresolvedDependentsByPathKey p s ∧ s ≠ file := by
  obtain ⟨dependencies, kinds, callers, hrest⟩ := dropSites_rest index file
  rw [hrest]
  show Holds (unindexUnresolvedSites index.unresolvedDependentsByPathKey (index.sitesOf file)) p s
    ↔ _
  rw [holds_unindexUnresolvedSites]
  refine and_congr_right fun hp => ?_
  constructor
  · -- a file that is listed has an unresolved site with the key, which is un-indexed
    intro hno hs
    subst hs
    obtain ⟨site, hsite, hnone, hkey⟩ := h.waits p s hp
    exact hno ⟨site, hsite, hnone, hkey, (h.source s site hsite).symm⟩
  · intro hs hsite
    obtain ⟨site, hsite, -, -, heq⟩ := hsite
    exact hs (heq.trans (h.source file site hsite))

theorem sound_dropSites (file : FileId) : Sound (dropSites index file) := by
  have hsites := sitesOf_dropSites index file
  have hmem : ∀ s site, site ∈ (dropSites index file).sitesOf s ↔
      site ∈ index.sitesOf s ∧ s ≠ file := by
    intro s site
    rw [hsites]
    by_cases hs : s = file
    · simp [hs]
    · simp [hs]
  obtain ⟨dependencies, kinds, callers, hrest⟩ := dropSites_rest index file
  constructor
  · intro s site hsite
    exact h.source s site ((hmem s site).1 hsite).1
  · have hedges : Edges ({ index with
        dependencySites := index.dependencySites.erase file }.unindexSourceSites file
          (index.sitesOf file)) (SiteEdge index.sitesOf) := by
      apply h.edges.move
      · rfl
      · rfl
      · rfl
      · exact fun s t k => .rfl
    apply (hedges.removeSource file).congr
    intro s t k
    unfold SiteEdge
    simp only [hmem]
    constructor
    · intro hedge
      obtain ⟨⟨site, hsite, hrest⟩, hs⟩ := hedge
      exact ⟨site, ⟨hsite, hs⟩, hrest⟩
    · intro hedge
      obtain ⟨site, ⟨hsite, hs⟩, hrest⟩ := hedge
      exact ⟨⟨site, hsite, hrest⟩, hs⟩
  · rw [hrest]
    refine (h.located.unindex file _ ?_).congr ?_
    · intro t l hl hs
      obtain ⟨site, hsite, htarget⟩ := hl
      rw [List.mem_dedup, List.mem_filterMap]
      exact ⟨site, hs ▸ List.mem_of_getElem? hsite, htarget⟩
    · intro t l
      rw [← hrest]
      unfold SiteAt
      rw [hsites]
      by_cases hs : l.sourceFileId = file
      · simp [hs]
      · simp [hs]
  · intro p s hp
    obtain ⟨hp, hs⟩ := (holds_dropSites_unresolved h file p s).1 hp
    obtain ⟨site, hsite, hwaits⟩ := h.waits p s hp
    exact ⟨site, (hmem s site).2 ⟨hsite, hs⟩, hwaits⟩
  · rw [hrest]
    exact noEmpty_erase h.sitesNoEmpty file
  · rw [hrest]
    exact noEmpty_unindexUnresolvedSites _ _ h.unresolvedNoEmpty
  · rw [hrest]
    exact h.removalNoEmpty
  · rw [hrest]
    exact h.derivedNoEmpty

theorem complete_dropSites
    (hcomplete : Complete index) (file : FileId) : Complete (dropSites index file) := by
  intro p s hwaits
  obtain ⟨site, hsite, hwaits⟩ := hwaits
  rw [sitesOf_dropSites] at hsite
  split at hsite
  · cases hsite
  · rename_i hs
    exact (holds_dropSites_unresolved h file p s).2 ⟨hcomplete p s ⟨site, hsite, hwaits⟩, hs⟩

/-- **`resetDerivedSites`** adds back what no derivation found. -/
theorem resetDerivedSites_keeps (file : FileId)
    (source : Bool) : Sound (index.resetDerivedSites file source) ∧
      (Complete index → Complete (index.resetDerivedSites file source)) := by
  have hfold : ∀ (sites : List LuaDependencySite)
      (reset : List LuaDependencySite × LuaDependencyIndex),
      (Sound reset.2 → Sound (sites.foldl (resetOne source) reset).2) ∧
        (Complete reset.2 → Complete (sites.foldl (resetOne source) reset).2) := by
    intro sites
    induction sites with
    | nil => exact fun reset => ⟨id, id⟩
    | cons site sites ih =>
      intro reset
      rw [List.foldl_cons]
      have hone : (Sound reset.2 → Sound (resetOne source reset site).2) ∧
          (Complete reset.2 → Complete (resetOne source reset site).2) := by
        unfold resetOne
        split
        · exact ⟨id, id⟩
        · exact ⟨fun h => sound_addSite h site source, fun h => complete_addSite h site source⟩
      exact ⟨fun h => (ih _).1 (hone.1 h), fun h => (ih _).2 (hone.2 h)⟩
  unfold resetDerivedSites
  cases hderived : index.derivedSites.lookup file with
  | none => exact ⟨h, id⟩
  | some derived =>
    have hwithout := h.withTables h.removalNoEmpty (noEmpty_erase h.derivedNoEmpty file)
    refine ⟨(hfold _ _).1 (sound_dropSites hwithout file), ?_⟩
    intro hcomplete
    exact (hfold _ _).2 (complete_dropSites hwithout hcomplete file)

end

end GluaLs.Dep
