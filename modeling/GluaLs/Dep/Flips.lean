/-
  GluaLs.Dep.Flips — sites are flipped when a file goes.

  `transition_target_sites_to_unresolved` visits the positions that are resolved to the
  file, in order.  When its loop is over EVERY site resolved to the file is unresolved, and
  listed under its path keys; then the edges to the file go.
-/
import GluaLs.Dep.Exact

namespace GluaLs.Dep

open GluaLs.Lib GluaLs.Lib.Buckets LuaDependencyIndex DependencySiteLocation

/-! ## §1. The loop -/

/-- The site once the file it is resolved to is gone. -/
def unresolve (target : FileId) (site : LuaDependencySite) : LuaDependencySite :=
  if site.targetFileId = some target then { site with targetFileId := none } else site

/-- **The loop after some positions**: the sites there are unresolved and listed, the others
    are what they were. -/
structure Visited (target : FileId) (sites : FileId → List LuaDependencySite)
    (reverse : HashMap String (HashSet FileId)) (visited : List DependencySiteLocation)
    (t : Transition) : Prop where
  lists : ∀ (s : FileId) (i : Nat), (listOf t.sites s)[i]? =
    if (⟨s, i⟩ : DependencySiteLocation) ∈ visited then ((sites s)[i]?).map (unresolve target)
    else (sites s)[i]?
  unresolved : ∀ p s, Holds t.unresolved p s ↔ Holds reverse p s ∨
    ∃ (i : Nat) (site : LuaDependencySite), (⟨s, i⟩ : DependencySiteLocation) ∈ visited ∧
      (sites s)[i]? = some site ∧
      site.targetFileId = some target ∧ p ∈ site.pathKeys
  sitesNoEmpty : NoEmpty t.sites
  unresolvedNoEmpty : NoEmpty t.unresolved

variable {target : FileId} {sites : FileId → List LuaDependencySite}
  {reverse : HashMap String (HashSet FileId)}

/-- A position where nothing is flipped. -/
theorem Visited.skip {visited : List DependencySiteLocation} {t : Transition}
    (h : Visited target sites reverse visited t) (l : DependencySiteLocation)
    (hsame : ∀ site, (sites l.sourceFileId)[l.siteIndex]? = some site →
      l ∈ visited ∨ site.targetFileId ≠ some target) :
    Visited target sites reverse (visited ++ [l]) t where
  lists s i := by
    rw [h.lists s i]
    by_cases hl : (⟨s, i⟩ : DependencySiteLocation) = l
    · subst hl
      by_cases hvisited : (⟨s, i⟩ : DependencySiteLocation) ∈ visited
      · simp [hvisited]
      · cases hsite : (sites s)[i]? with
        | none => simp
        | some site =>
          have htarget := (hsame site hsite).resolve_left hvisited
          simp [hvisited, unresolve, htarget]
    · simp [hl]
  unresolved p s := by
    rw [h.unresolved p s]
    refine or_congr_right ?_
    constructor
    · intro hsite
      obtain ⟨i, site, hmem, hrest⟩ := hsite
      exact ⟨i, site, List.mem_append_left _ hmem, hrest⟩
    · intro hsite
      obtain ⟨i, site, hmem, hsite, htarget, hkey⟩ := hsite
      obtain hmem | hmem := List.mem_append.1 hmem
      · exact ⟨i, site, hmem, hsite, htarget, hkey⟩
      · obtain rfl := List.mem_singleton.1 hmem
        exact ⟨i, site, (hsame site hsite).resolve_right fun hne => hne htarget, hsite, htarget,
          hkey⟩
  sitesNoEmpty := h.sitesNoEmpty
  unresolvedNoEmpty := h.unresolvedNoEmpty

section

variable (hsource : ∀ s, ∀ site ∈ sites s, site.sourceFileId = s)
include hsource

section

variable {visited : List DependencySiteLocation} {t : Transition}
  (h : Visited target sites reverse visited t) (l : DependencySiteLocation)
include h l

/-- A position whose site is flipped. -/
theorem Visited.flip (site : LuaDependencySite)
    (hsite : (sites l.sourceFileId)[l.siteIndex]? = some site)
    (htarget : site.targetFileId = some target) (flipped : List (FileId × Option String)) :
    Visited target sites reverse (visited ++ [l])
      { sites := t.sites.insert l.sourceFileId
          ((listOf t.sites l.sourceFileId).set l.siteIndex { site with targetFileId := none })
        unresolved := indexUnresolvedSite t.unresolved { site with targetFileId := none }
        flipped := flipped } := by
  have hlt : l.siteIndex < (listOf t.sites l.sourceFileId).length := by
    have hat := h.lists l.sourceFileId l.siteIndex
    rw [hsite] at hat
    by_contra hge
    rw [List.getElem?_eq_none (not_lt.1 hge)] at hat
    split at hat <;> cases hat
  have hlist : ∀ s, listOf (t.sites.insert l.sourceFileId
      ((listOf t.sites l.sourceFileId).set l.siteIndex { site with targetFileId := none })) s =
        if s = l.sourceFileId then
          (listOf t.sites l.sourceFileId).set l.siteIndex { site with targetFileId := none }
        else listOf t.sites s := by
    intro s
    unfold listOf
    rw [lookup_insert_ite]
    split <;> rfl
  constructor
  · intro s i
    show (listOf (t.sites.insert l.sourceFileId _) s)[i]? = _
    rw [hlist]
    by_cases hs : s = l.sourceFileId
    · subst hs
      rw [if_pos rfl, List.getElem?_set]
      by_cases hi : l.siteIndex = i
      · subst hi
        rw [if_pos rfl, if_pos hlt, if_pos (by simp), hsite]
        simp [unresolve, htarget]
      · have hne : (⟨l.sourceFileId, i⟩ : DependencySiteLocation) ≠ l := by
          intro heq
          exact hi (congrArg siteIndex heq).symm
        rw [if_neg hi, h.lists l.sourceFileId i]
        simp [hne]
    · have hne : (⟨s, i⟩ : DependencySiteLocation) ≠ l := by
        intro heq
        exact hs (congrArg sourceFileId heq)
      rw [if_neg hs, h.lists s i]
      simp [hne]
  · intro p s
    show Holds (indexUnresolvedSite t.unresolved { site with targetFileId := none }) p s ↔ _
    rw [holds_indexUnresolvedSite, h.unresolved p s, or_assoc]
    refine or_congr_right ?_
    have hfile : site.sourceFileId = l.sourceFileId :=
      hsource l.sourceFileId site (List.mem_of_getElem? hsite)
    constructor
    · intro hheld
      obtain ⟨i, other, hmem, hrest⟩ | ⟨hkey, hs⟩ := hheld
      · exact ⟨i, other, List.mem_append_left _ hmem, hrest⟩
      · have hs : s = l.sourceFileId := hs.trans hfile
        subst hs
        exact ⟨l.siteIndex, site, List.mem_append_right _ (.head _), hsite, htarget, hkey⟩
    · intro hheld
      obtain ⟨i, other, hmem, hother, hrest, hkey⟩ := hheld
      obtain hmem | hmem := List.mem_append.1 hmem
      · exact .inl ⟨i, other, hmem, hother, hrest, hkey⟩
      · obtain rfl := List.mem_singleton.1 hmem
        obtain rfl : other = site := Option.some.inj (hother.symm.trans hsite)
        exact .inr ⟨hkey, hfile.symm⟩
  · intro s list hlookup
    obtain ⟨-, rfl⟩ | ⟨-, hlookup⟩ := lookup_insert_some hlookup
    · have hpos : 0 < (listOf t.sites l.sourceFileId).length :=
        Nat.lt_of_le_of_lt (Nat.zero_le _) hlt
      show ((listOf t.sites l.sourceFileId).set l.siteIndex _).isEmpty = false
      rw [List.isEmpty_eq_false_iff_exists_mem]
      exact List.exists_mem_of_length_pos (by rw [List.length_set]; exact hpos)
    · exact h.sitesNoEmpty s list hlookup
  · exact noEmpty_indexUnresolvedSite h.unresolvedNoEmpty _

theorem visited_unresolveOne :
    Visited target sites reverse (visited ++ [l]) (unresolveOne target t l) := by
  have hat := h.lists l.sourceFileId l.siteIndex
  unfold unresolveOne
  cases hlookup : (listOf t.sites l.sourceFileId)[l.siteIndex]? with
  | none =>
    apply h.skip
    intro site hsite
    rw [hlookup, hsite] at hat
    split at hat <;> cases hat
  | some site =>
    rw [hlookup] at hat
    by_cases hvisited : l ∈ visited
    · -- the site there is unresolved already
      have htarget : site.targetFileId ≠ some target := by
        rw [if_pos hvisited] at hat
        obtain ⟨other, -, hother⟩ := Option.map_eq_some_iff.1 hat.symm
        rw [← hother]
        unfold unresolve
        split
        · exact fun heq => by cases heq
        · assumption
      simp only [htarget, if_false]
      exact h.skip l fun _ _ => .inl hvisited
    · rw [if_neg hvisited] at hat
      by_cases htarget : site.targetFileId = some target
      · simp only [htarget, if_true]
        exact h.flip hsource l site hat.symm htarget _
      · simp only [htarget, if_false]
        apply h.skip
        intro other hother
        obtain rfl : site = other := Option.some.inj (hat.trans hother)
        exact .inr htarget

end

theorem visited_foldl
    (locations : List DependencySiteLocation) : ∀ (visited : List DependencySiteLocation)
    (t : Transition), Visited target sites reverse visited t →
      Visited target sites reverse (visited ++ locations)
        (locations.foldl (unresolveOne target) t) := by
  induction locations with
  | nil =>
    intro visited t h
    rw [List.append_nil]
    exact h
  | cons l locations ih =>
    intro visited t h
    have hnext := ih (visited ++ [l]) _ (visited_unresolveOne hsource h l)
    rw [List.append_assoc] at hnext
    exact hnext

end

/-! ## §2. The file goes -/

/-- **What `transition_target_sites_to_unresolved` leaves**: every site resolved to the file
    is flipped, and listed. -/
structure Flipped (index : LuaDependencyIndex) (target : FileId) (index' : LuaDependencyIndex) :
    Prop where
  sites : ∀ s, index'.sitesOf s = (index.sitesOf s).map (unresolve target)
  unresolved : ∀ p s, Holds index'.unresolvedDependentsByPathKey p s ↔
    Holds index.unresolvedDependentsByPathKey p s ∨
      ∃ site ∈ index.sitesOf s, site.targetFileId = some target ∧ p ∈ site.pathKeys
  dependencies : index'.dependencies = index.dependencies
  kinds : index'.dependencyKinds = index.dependencyKinds
  callers : index'.dependencyCallersByTarget = index.dependencyCallersByTarget
  located : Located index'.resolvedSitesByTarget
    fun t l => SiteAt index.sitesOf t l ∧ t ≠ target
  sitesNoEmpty : NoEmpty index'.dependencySites
  unresolvedNoEmpty : NoEmpty index'.unresolvedDependentsByPathKey
  removalNoEmpty : NoEmpty index'.unresolvedByRemoval
  derivedNoEmpty : NoEmpty index'.derivedSites

/-- The loop starts at the sites of the index. -/
theorem visited_nil {index : LuaDependencyIndex} (h : Sound index) (target : FileId) :
    Visited target index.sitesOf index.unresolvedDependentsByPathKey []
      ⟨index.dependencySites, index.unresolvedDependentsByPathKey, []⟩ :=
  ⟨fun s i => by simp [sitesOf], fun p s => by simp, h.sitesNoEmpty, h.unresolvedNoEmpty⟩

theorem flipped_transition {index : LuaDependencyIndex} (h : Sound index) (target : FileId) :
    Flipped index target (index.transitionTargetSitesToUnresolved target) := by
  have hat : ∀ s (i : Nat) site, (index.sitesOf s)[i]? = some site →
      site.targetFileId = some target →
        (⟨s, i⟩ : DependencySiteLocation) ∈ listOf index.resolvedSitesByTarget target :=
    fun s i site hsite htarget => (h.located.mem target ⟨s, i⟩).2 ⟨site, hsite, htarget⟩
  unfold transitionTargetSitesToUnresolved
  cases hlookup : index.resolvedSitesByTarget.lookup target with
  | none =>
    have hnone : ∀ s, ∀ site ∈ index.sitesOf s, site.targetFileId ≠ some target := by
      intro s site hsite htarget
      obtain ⟨i, hi⟩ := List.mem_iff_getElem?.1 hsite
      have hmem := hat s i site hi htarget
      unfold listOf at hmem
      rw [hlookup] at hmem
      cases hmem
    refine ⟨?_, ?_, rfl, rfl, rfl, ?_, h.sitesNoEmpty, h.unresolvedNoEmpty, h.removalNoEmpty,
      h.derivedNoEmpty⟩
    · intro s
      have hid : (index.sitesOf s).map (unresolve target) = (index.sitesOf s).map id := by
        apply List.map_congr_left
        intro site hsite
        exact if_neg (hnone s site hsite)
      rw [hid, List.map_id]
    · intro p s
      constructor
      · exact .inl
      · intro hheld
        obtain hheld | ⟨site, hsite, htarget, -⟩ := hheld
        · exact hheld
        · exact absurd htarget (hnone s site hsite)
    · apply h.located.congr
      intro t l
      constructor
      · intro hl
        refine ⟨hl, ?_⟩
        intro ht
        obtain ⟨site, hsite, htarget⟩ := hl
        exact hnone l.sourceFileId site (List.mem_of_getElem? hsite) (ht ▸ htarget)
      · exact And.left
  | some locations =>
    have hlocations : listOf index.resolvedSitesByTarget target = locations := by
      unfold listOf
      rw [hlookup]
      rfl
    have hend := visited_foldl h.source (locations.mergeSort le) [] _
      (visited_nil h target)
    rw [List.nil_append] at hend
    have hmem : ∀ l, l ∈ locations.mergeSort le ↔
        SiteAt index.sitesOf target l := by
      intro l
      rw [List.mem_mergeSort, ← hlocations]
      exact h.located.mem target l
    refine ⟨?_, ?_, rfl, rfl, rfl, h.located.erase target, hend.sitesNoEmpty,
      hend.unresolvedNoEmpty, ?_, h.derivedNoEmpty⟩
    · intro s
      apply List.ext_getElem?
      intro i
      have hone := hend.lists s i
      rw [List.getElem?_map]
      refine hone.trans ?_
      split
      · rfl
      · rename_i hout
        cases hsite : (index.sitesOf s)[i]? with
        | none => rfl
        | some site =>
          have htarget : site.targetFileId ≠ some target := by
            intro htarget
            exact hout ((hmem ⟨s, i⟩).2 ⟨site, hsite, htarget⟩)
          simp [unresolve, htarget]
    · intro p s
      refine (hend.unresolved p s).trans (or_congr_right ?_)
      constructor
      · intro hheld
        obtain ⟨i, site, -, hsite, hrest⟩ := hheld
        exact ⟨site, List.mem_of_getElem? hsite, hrest⟩
      · intro hheld
        obtain ⟨site, hsite, htarget, hkey⟩ := hheld
        obtain ⟨i, hi⟩ := List.mem_iff_getElem?.1 hsite
        exact ⟨i, site, (hmem ⟨s, i⟩).2 ⟨site, hi, htarget⟩, hi, htarget, hkey⟩
    · show NoEmpty (if _ then _ else _)
      split
      · exact h.removalNoEmpty
      · rename_i hflipped
        intro k b hb
        obtain ⟨-, rfl⟩ | ⟨-, hb⟩ := lookup_insert_some hb
        · exact Bool.eq_false_iff.2 hflipped
        · exact h.removalNoEmpty k b hb

/-- What the flipped sites say. -/
theorem mem_map_unresolve {sites : List LuaDependencySite} {site : LuaDependencySite}
    {t : FileId} : (site ∈ sites.map (unresolve target) ∧ site.targetFileId = some t) ↔
      site ∈ sites ∧ site.targetFileId = some t ∧ t ≠ target := by
  rw [List.mem_map]
  constructor
  · intro h
    obtain ⟨⟨other, hother, rfl⟩, htarget⟩ := h
    unfold unresolve at htarget ⊢
    split at htarget
    · cases htarget
    · rename_i hne
      rw [if_neg hne]
      refine ⟨hother, htarget, ?_⟩
      intro heq
      exact hne (heq ▸ htarget)
  · intro h
    refine ⟨⟨site, h.1, if_neg ?_⟩, h.2.1⟩
    intro heq
    exact h.2.2 (Option.some.inj (h.2.1.symm.trans heq))

theorem siteWaits_map_unresolve {sites sites' : FileId → List LuaDependencySite}
    (h : ∀ s, sites' s = (sites s).map (unresolve target)) (p : String) (s : FileId) :
    SiteWaits sites' p s ↔ SiteWaits sites p s ∨
      ∃ site ∈ sites s, site.targetFileId = some target ∧ p ∈ site.pathKeys := by
  unfold SiteWaits
  rw [h]
  constructor
  · intro hwaits
    obtain ⟨site, hsite, hnone, hkey⟩ := hwaits
    obtain ⟨other, hother, rfl⟩ := List.mem_map.1 hsite
    unfold unresolve at hnone hkey
    by_cases htarget : other.targetFileId = some target
    · rw [if_pos htarget] at hkey
      exact .inr ⟨other, hother, htarget, hkey⟩
    · rw [if_neg htarget] at hnone hkey
      exact .inl ⟨other, hother, hnone, hkey⟩
  · intro hwaits
    obtain ⟨site, hsite, hnone, hkey⟩ | ⟨site, hsite, htarget, hkey⟩ := hwaits
    · refine ⟨site, List.mem_map.2 ⟨site, hsite, if_neg ?_⟩, hnone, hkey⟩
      rw [hnone]
      exact fun heq => by cases heq
    · exact ⟨{ site with targetFileId := none }, List.mem_map.2 ⟨site, hsite, if_pos htarget⟩, rfl,
        hkey⟩

/-- `remove`, in the steps the sites are followed through. -/
theorem remove_eq (index : LuaDependencyIndex) (file : FileId) : index.remove file =
    ((dropSites { index with derivedSites := index.derivedSites.erase file }
      file).transitionTargetSitesToUnresolved file).removeIncomingDependencyEdges file := by
  unfold LuaDependencyIndex.remove dropSites sitesOf listOf
  dsimp only
  cases hlookup : index.dependencySites.lookup file with
  | some sites => rfl
  | none =>
    rw [erase_eq_self _ _ hlookup]
    rfl

section

variable {index : LuaDependencyIndex} (h : Sound index)
include h

/-- **A file goes, and what loads it is unresolved.** -/
theorem flips_keeps (target : FileId) :
    Sound ((index.transitionTargetSitesToUnresolved target).removeIncomingDependencyEdges target) ∧
      (Complete index → Complete
        ((index.transitionTargetSitesToUnresolved target).removeIncomingDependencyEdges
          target)) := by
  have hflipped := flipped_transition h target
  obtain ⟨index', hindex'⟩ : ∃ index', index' = index.transitionTargetSitesToUnresolved target :=
    ⟨_, rfl⟩
  rw [← hindex'] at hflipped ⊢
  obtain ⟨dependencies, kinds, callers, hrest⟩ := removeIncoming_rest index' target
  have hsites : (index'.removeIncomingDependencyEdges target).sitesOf = index'.sitesOf := by
    rw [hrest]
    rfl
  have hedges : Edges index' (SiteEdge index.sitesOf) := by
    apply h.edges.move
    · exact hflipped.dependencies
    · exact hflipped.kinds
    · exact hflipped.callers
    · exact fun s t k => .rfl
  constructor
  · constructor
    · intro s site hsite
      rw [hsites, hflipped.sites] at hsite
      obtain ⟨other, hother, rfl⟩ := List.mem_map.1 hsite
      have hfile := h.source s other hother
      unfold unresolve
      split
      · exact hfile
      · exact hfile
    · apply (hedges.removeIncoming target).congr
      intro s t k
      rw [hsites]
      unfold SiteEdge
      rw [hflipped.sites]
      constructor
      · intro hedge
        obtain ⟨⟨site, hsite, htarget, hkind⟩, ht⟩ := hedge
        obtain ⟨hmem, htarget⟩ := mem_map_unresolve.2 ⟨hsite, htarget, ht⟩
        exact ⟨site, hmem, htarget, hkind⟩
      · intro hedge
        obtain ⟨site, hsite, htarget, hkind⟩ := hedge
        obtain ⟨hmem, htarget, ht⟩ := mem_map_unresolve.1 ⟨hsite, htarget⟩
        exact ⟨⟨site, hmem, htarget, hkind⟩, ht⟩
    · rw [hsites, hrest]
      apply hflipped.located.congr
      intro t l
      unfold SiteAt
      rw [hflipped.sites, List.getElem?_map]
      cases hsite : (index.sitesOf l.sourceFileId)[l.siteIndex]? with
      | none => simp
      | some site =>
        by_cases htarget : site.targetFileId = some target
        · simp only [Option.some.injEq, exists_eq_left', htarget, Option.map_some, unresolve,
            if_true]
          constructor
          · exact fun hl => absurd hl.1.symm hl.2
          · exact fun hl => by cases hl
        · simp only [Option.some.injEq, exists_eq_left', Option.map_some, unresolve, htarget,
            if_false]
          constructor
          · exact And.left
          · exact fun hl => ⟨hl, fun ht => htarget (ht ▸ hl)⟩
    · rw [hsites, hrest]
      intro p s hp
      rw [siteWaits_map_unresolve hflipped.sites]
      exact ((hflipped.unresolved p s).1 hp).imp (h.waits p s) id
    · rw [hrest]
      exact hflipped.sitesNoEmpty
    · rw [hrest]
      exact hflipped.unresolvedNoEmpty
    · rw [hrest]
      exact hflipped.removalNoEmpty
    · rw [hrest]
      exact hflipped.derivedNoEmpty
  · intro hcomplete p s hwaits
    rw [hsites, siteWaits_map_unresolve hflipped.sites] at hwaits
    rw [hrest]
    exact (hflipped.unresolved p s).2 (hwaits.imp (hcomplete p s) id)

/-- **`remove`** -/
theorem remove_keeps (file : FileId) :
    Sound (index.remove file) ∧ (Complete index → Complete (index.remove file)) := by
  have hwithout := h.withTables h.removalNoEmpty (noEmpty_erase h.derivedNoEmpty file)
  have hkeeps := flips_keeps (sound_dropSites hwithout file) file
  rw [remove_eq]
  refine ⟨hkeeps.1, ?_⟩
  intro hcomplete
  exact hkeeps.2 (complete_dropSites hwithout hcomplete file)

/-- **`removeFiles`** -/
theorem removeFiles_keeps (files : List FileId) :
    Sound (index.removeFiles files) ∧ (Complete index → Complete (index.removeFiles files)) := by
  unfold removeFiles
  induction (files.mergeSort fun a b => decide (a.id ≤ b.id)).dedup generalizing index with
  | nil => exact ⟨h, id⟩
  | cons file files ih =>
    obtain ⟨hsound, hcomplete⟩ := remove_keeps h file
    obtain ⟨hsound', hcomplete'⟩ := ih hsound
    exact ⟨hsound', fun hc => hcomplete' (hcomplete hc)⟩

end

end GluaLs.Dep
