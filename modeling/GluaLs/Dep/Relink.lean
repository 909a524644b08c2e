/-
  GluaLs.Dep.Relink — sites are resolved again when the file comes back.

  `relink_unresolved_target` resolves every unresolved site with the source and the path of
  one the removal flipped, un-indexes them, and files the edges.  Un-indexing takes the
  SOURCE out of the set of a path key, whether or not another of its unresolved sites has
  the key: `keepsWaiting` is what must hold for the set to stay complete, and
  `complete_relink_iff` that nothing less will do.
-/
import GluaLs.Dep.Flips

namespace GluaLs.Dep

open GluaLs.Lib GluaLs.Lib.Buckets LuaDependencyIndex

/-! ## §1. The loop -/

/-- The file and the path a removal left of a site. -/
abbrev Removed : Type := FileId × Option String

/-- A site of `s` is resolved again. -/
def Restored (removed : List Removed) (s : FileId) (site : LuaDependencySite) : Prop :=
  site.targetFileId = none ∧ (s, site.path) ∈ removed

instance (removed : List Removed) (s : FileId) (site : LuaDependencySite) :
    Decidable (Restored removed s site) := inferInstanceAs (Decidable (_ ∧ _))

/-- The site once it is. -/
def resolve (target : FileId) (removed : List Removed) (s : FileId) (site : LuaDependencySite) :
    LuaDependencySite :=
  if Restored removed s site then { site with targetFileId := some target } else site

/-- **The loop after some of the removed sites.** -/
structure Relinked (target : FileId) (sites : FileId → List LuaDependencySite) (done : List Removed)
    (r : HashMap FileId (List LuaDependencySite) × List (FileId × Nat × LuaDependencySite)) :
    Prop where
  lists : ∀ s, listOf r.1 s = (sites s).map (resolve target done s)
  restored : ∀ (s : FileId) (i : Nat) (site : LuaDependencySite), (s, i, site) ∈ r.2 ↔
    (sites s)[i]? = some site ∧ Restored done s site
  nodup : (r.2.map fun at' => (at'.1, at'.2.1)).Nodup
  noEmpty : NoEmpty r.1

variable {target : FileId} {sites : FileId → List LuaDependencySite}

theorem restored_append (done : List Removed) (r : Removed) (s : FileId)
    (site : LuaDependencySite) : Restored (done ++ [r]) s site ↔
      Restored done s site ∨ s = r.1 ∧ restores r.2 site = true := by
  unfold Restored restores
  obtain ⟨file, path⟩ := r
  simp only [List.mem_append, List.mem_singleton, Prod.mk.injEq, Bool.and_eq_true,
    decide_eq_true_eq, Option.isNone_iff_eq_none]
  constructor
  · intro h
    obtain ⟨hnone, hmem | ⟨hs, hpath⟩⟩ := h
    · exact .inl ⟨hnone, hmem⟩
    · exact .inr ⟨hs, hnone, hpath⟩
  · intro h
    obtain ⟨hnone, hmem⟩ | ⟨hs, hnone, hpath⟩ := h
    · exact ⟨hnone, .inl hmem⟩
    · exact ⟨hnone, .inr ⟨hs, hpath⟩⟩

/-- A site that is resolved already is not restored again. -/
theorem restores_resolve (done : List Removed) (s : FileId) (path : Option String)
    (site : LuaDependencySite) : restores path (resolve target done s site) = true ↔
      ¬ Restored done s site ∧ restores path site = true := by
  unfold resolve
  split
  · rename_i h
    simp [restores, h]
  · rename_i h
    simp [h]

theorem resolve_append (done : List Removed) (file : FileId) (path : Option String)
    (site : LuaDependencySite) :
    (if restores path (resolve target done file site) then
        { resolve target done file site with targetFileId := some target }
      else resolve target done file site) = resolve target (done ++ [(file, path)]) file site := by
  by_cases hdone : Restored done file site
  · have hnot : ¬ restores path (resolve target done file site) = true := by
      rw [restores_resolve]
      exact fun h => h.1 hdone
    have happend : Restored (done ++ [(file, path)]) file site :=
      (restored_append done (file, path) file site).2 (.inl hdone)
    rw [if_neg hnot]
    unfold resolve
    rw [if_pos hdone, if_pos happend]
  · have hsame : resolve target done file site = site := if_neg hdone
    rw [hsame]
    by_cases hpath : restores path site = true
    · have happend : Restored (done ++ [(file, path)]) file site :=
        (restored_append done (file, path) file site).2 (.inr ⟨rfl, hpath⟩)
      rw [if_pos hpath]
      unfold resolve
      rw [if_pos happend]
    · have happend : ¬ Restored (done ++ [(file, path)]) file site := by
        rw [restored_append]
        exact fun h => h.elim hdone fun h => hpath h.2
      rw [if_neg hpath]
      unfold resolve
      rw [if_neg happend]

theorem resolve_other (done : List Removed) (r : Removed) (s : FileId) (hs : s ≠ r.1)
    (site : LuaDependencySite) :
    resolve target (done ++ [r]) s site = resolve target done s site := by
  have hiff : Restored (done ++ [r]) s site ↔ Restored done s site := by
    rw [restored_append]
    exact or_iff_left fun h => hs h.1
  unfold resolve
  by_cases h : Restored done s site
  · rw [if_pos h, if_pos (hiff.2 h)]
  · rw [if_neg h, if_neg fun h' => h (hiff.1 h')]

theorem relinked_relinkOne {done : List Removed}
    {r : HashMap FileId (List LuaDependencySite) × List (FileId × Nat × LuaDependencySite)}
    (h : Relinked target sites done r) (removed : Removed) :
    Relinked target sites (done ++ [removed]) (relinkOne target r removed) := by
  obtain ⟨file, path⟩ := removed
  unfold relinkOne
  cases hlookup : r.1.lookup file with
  | none =>
    -- the file has no sites
    have hnil : sites file = [] := by
      have hlist := h.lists file
      unfold listOf at hlist
      rw [hlookup] at hlist
      exact List.map_eq_nil_iff.1 hlist.symm
    refine ⟨?_, ?_, h.nodup, h.noEmpty⟩
    · intro s
      rw [h.lists s]
      by_cases hs : s = file
      · rw [hs, hnil]
        rfl
      · exact List.map_congr_left fun site _ => (resolve_other done (file, path) s hs site).symm
    · intro s i site
      rw [h.restored, restored_append]
      refine and_congr_right fun hsite => ⟨.inl, ?_⟩
      intro hor
      obtain hdone | ⟨rfl, -⟩ := hor
      · exact hdone
      · rw [hnil] at hsite
        cases hsite
  | some list =>
    have hlist : list = (sites file).map (resolve target done file) := by
      have hlist := h.lists file
      unfold listOf at hlist
      rw [hlookup] at hlist
      exact hlist
    -- the sites this step restores
    have hnew : ∀ (s : FileId) (i : Nat) (site : LuaDependencySite),
        (s, i, site) ∈ ((list.zipIdx.filter fun at' => restores path at'.1).map fun at' =>
          (file, at'.2, at'.1)) ↔
        s = file ∧ (sites s)[i]? = some site ∧ ¬ Restored done s site ∧
          restores path site = true := by
      intro s i site
      simp only [List.mem_map, List.mem_filter, Prod.exists, Prod.mk.injEq,
        List.mem_zipIdx_iff_getElem?, hlist, List.getElem?_map]
      constructor
      · intro hmem
        obtain ⟨other, j, ⟨hj, hrestores⟩, rfl, rfl, rfl⟩ := hmem
        obtain ⟨origin, horigin, rfl⟩ := Option.map_eq_some_iff.1 hj
        obtain ⟨hnot, hpath⟩ := (restores_resolve done file path origin).1 hrestores
        have hsame : resolve target done file origin = origin := if_neg hnot
        rw [hsame]
        exact ⟨rfl, horigin, hnot, hpath⟩
      · intro hmem
        obtain ⟨rfl, hsite, hnot, hpath⟩ := hmem
        have hsame : resolve target done s site = site := if_neg hnot
        exact ⟨site, i, ⟨by rw [hsite, Option.map_some, hsame], hpath⟩, rfl, rfl, rfl⟩
    constructor
    · intro s
      show listOf (r.1.insert file _) s = _
      unfold listOf
      rw [lookup_insert_ite]
      by_cases hs : s = file
      · subst hs
        rw [if_pos rfl, hlist]
        show List.map _ (List.map _ (sites s)) = _
        rw [List.map_map]
        exact List.map_congr_left fun site _ => resolve_append done s path site
      · rw [if_neg hs]
        refine (h.lists s).trans ?_
        exact List.map_congr_left fun site _ => (resolve_other done (file, path) s hs site).symm
    · intro s i site
      rw [List.mem_append, h.restored, hnew, restored_append]
      constructor
      · intro hor
        obtain ⟨hsite, hdone⟩ | ⟨hs, hsite, -, hpath⟩ := hor
        · exact ⟨hsite, .inl hdone⟩
        · exact ⟨hsite, .inr ⟨hs, hpath⟩⟩
      · intro hor
        obtain ⟨hsite, hor⟩ := hor
        by_cases hdone : Restored done s site
        · exact .inl ⟨hsite, hdone⟩
        · obtain ⟨hs, hpath⟩ := hor.resolve_left hdone
          exact .inr ⟨hs, hsite, hdone, hpath⟩
    · rw [List.map_append]
      refine h.nodup.append ?_ ?_
      · -- positions of one list, each once
        rw [List.map_map]
        have hsub : ((list.zipIdx.filter fun at' => restores path at'.1).map Prod.snd).Nodup := by
          refine List.Nodup.sublist ((List.filter_sublist).map Prod.snd) ?_
          rw [List.zipIdx_map_snd]
          exact List.nodup_range'
        have hmap : ((list.zipIdx.filter fun at' => restores path at'.1).map
            ((fun at' : FileId × Nat × LuaDependencySite => (at'.1, at'.2.1)) ∘
              fun at' => (file, at'.2, at'.1))) =
            ((list.zipIdx.filter fun at' => restores path at'.1).map Prod.snd).map
              fun i => (file, i) := by
          rw [List.map_map]
          rfl
        rw [hmap]
        exact hsub.map fun i j hij => congrArg Prod.snd hij
      · intro at' hold hadd
        obtain ⟨⟨s, i, site⟩, hmem, rfl⟩ := List.mem_map.1 hold
        obtain ⟨⟨s', i', site'⟩, hmem', heq⟩ := List.mem_map.1 hadd
        obtain ⟨rfl, rfl⟩ := Prod.mk.inj heq
        obtain ⟨hsite, hdone⟩ := (h.restored s' i' site).1 hmem
        obtain ⟨-, hsite', hnot, -⟩ := (hnew s' i' site').1 hmem'
        obtain rfl : site' = site := Option.some.inj (hsite'.symm.trans hsite)
        exact hnot hdone
    · intro s l hl
      obtain ⟨-, rfl⟩ | ⟨-, hl⟩ := lookup_insert_some hl
      · have hne := h.noEmpty file list hlookup
        show (list.map _).isEmpty = false
        rw [List.isEmpty_map]
        exact hne
      · exact h.noEmpty s l hl

theorem relinked_foldl (removed : List Removed) : ∀ (done : List Removed)
    (r : HashMap FileId (List LuaDependencySite) × List (FileId × Nat × LuaDependencySite)),
    Relinked target sites done r →
      Relinked target sites (done ++ removed) (removed.foldl (relinkOne target) r) := by
  induction removed with
  | nil =>
    intro done r h
    rw [List.append_nil]
    exact h
  | cons first removed ih =>
    intro done r h
    have hnext := ih (done ++ [first]) _ (relinked_relinkOne h first)
    rw [List.append_assoc] at hnext
    exact hnext

/-! ## §2. The restored sites are filed -/

theorem fileRestored_rest (index : LuaDependencyIndex)
    (restored : List (FileId × Nat × LuaDependencySite)) :
    (restored.foldl (fileRestored target) index).dependencySites = index.dependencySites ∧
      (restored.foldl (fileRestored target) index).unresolvedDependentsByPathKey =
        index.unresolvedDependentsByPathKey ∧
      (restored.foldl (fileRestored target) index).unresolvedByRemoval =
        index.unresolvedByRemoval ∧
      (restored.foldl (fileRestored target) index).derivedSites = index.derivedSites := by
  induction restored generalizing index with
  | nil => exact ⟨rfl, rfl, rfl, rfl⟩
  | cons first restored ih => exact ih (fileRestored target index first)

theorem edges_fileRestored (restored : List (FileId × Nat × LuaDependencySite)) :
    ∀ (index : LuaDependencyIndex) (R : FileId → FileId → LuaDependencyKind → Prop),
    Edges index R → Edges (restored.foldl (fileRestored target) index)
      fun s t k => R s t k ∨ ∃ at' ∈ restored, s = at'.1 ∧ t = target ∧ k = at'.2.2.kind := by
  induction restored with
  | nil =>
    intro index R h
    apply h.congr
    intro s t k
    simp
  | cons first restored ih =>
    intro index R h
    have hfirst : Edges (fileRestored target index first)
        fun s t k => R s t k ∨ s = first.1 ∧ t = target ∧ k = first.2.2.kind := by
      apply (h.add first.1 target first.2.2.kind).move
      · rfl
      · rfl
      · rfl
      · exact fun s t k => .rfl
    apply (ih _ _ hfirst).congr
    intro s t k
    rw [or_assoc, List.exists_mem_cons_iff]

theorem located_fileRestored (restored : List (FileId × Nat × LuaDependencySite)) :
    ∀ (index : LuaDependencyIndex) (L : FileId → DependencySiteLocation → Prop),
    Located index.resolvedSitesByTarget L →
      (restored.map fun at' => (at'.1, at'.2.1)).Nodup →
      (∀ at' ∈ restored, ¬ L target ⟨at'.1, at'.2.1⟩) →
        Located (restored.foldl (fileRestored target) index).resolvedSitesByTarget
          fun t l => L t l ∨ ∃ at' ∈ restored, t = target ∧ l = ⟨at'.1, at'.2.1⟩ := by
  induction restored with
  | nil =>
    intro index L h _ _
    apply h.congr
    intro t l
    simp
  | cons first restored ih =>
    intro index L h hnodup hnew
    obtain ⟨hfirst, hrest⟩ := List.nodup_cons.1 hnodup
    have hpushed := h.push target ⟨first.1, first.2.1⟩ (hnew first (.head _))
    have hfiled : Located (fileRestored target index first).resolvedSitesByTarget
        fun t l => L t l ∨ t = target ∧ l = ⟨first.1, first.2.1⟩ := hpushed
    apply (ih _ _ hfiled hrest ?_).congr
    · intro t l
      rw [or_assoc, List.exists_mem_cons_iff]
    · intro at' hmem
      rw [not_or]
      refine ⟨hnew at' (.tail first hmem), ?_⟩
      intro hsame
      obtain ⟨hfile, hsite⟩ := DependencySiteLocation.mk.inj hsame.2
      exact hfirst (List.mem_map.2 ⟨at', hmem, Prod.ext hfile hsite⟩)

/-! ## §3. `relinkUnresolvedTarget` -/

/-- **What `relink_unresolved_target` leaves.** -/
structure Relinks (index : LuaDependencyIndex) (target : FileId) (removed : List Removed)
    (index' : LuaDependencyIndex) : Prop where
  sites : ∀ s, index'.sitesOf s = (index.sitesOf s).map (resolve target removed s)
  unresolved : ∀ p s, Holds index'.unresolvedDependentsByPathKey p s ↔
    Holds index.unresolvedDependentsByPathKey p s ∧
      ¬ ∃ site ∈ index.sitesOf s, Restored removed s site ∧ p ∈ site.pathKeys
  sound : Sound index'

theorem mem_map_resolve {removed : List Removed} {s t : FileId} {list : List LuaDependencySite}
    {site : LuaDependencySite} :
    (site ∈ list.map (resolve target removed s) ∧ site.targetFileId = some t) ↔
      (site ∈ list ∧ site.targetFileId = some t) ∨
        t = target ∧ ∃ other ∈ list, Restored removed s other ∧
          site = { other with targetFileId := some target } := by
  rw [List.mem_map]
  constructor
  · intro h
    obtain ⟨⟨other, hother, rfl⟩, htarget⟩ := h
    unfold resolve at htarget ⊢
    by_cases hrestored : Restored removed s other
    · rw [if_pos hrestored] at htarget ⊢
      exact .inr ⟨(Option.some.inj htarget).symm, other, hother, hrestored, rfl⟩
    · rw [if_neg hrestored] at htarget ⊢
      exact .inl ⟨hother, htarget⟩
  · intro h
    obtain ⟨hsite, htarget⟩ | ⟨rfl, other, hother, hrestored, rfl⟩ := h
    · refine ⟨⟨site, hsite, if_neg ?_⟩, htarget⟩
      intro hrestored
      rw [hrestored.1] at htarget
      cases htarget
    · exact ⟨⟨other, hother, if_pos hrestored⟩, rfl⟩

theorem relinks_relink {index : LuaDependencyIndex} (h : Sound index) (target : FileId)
    (removed : List Removed) (hremoved : index.unresolvedByRemoval.lookup target = some removed) :
    Relinks index target removed (index.relinkUnresolvedTarget target) := by
  have hstart : Relinked target index.sitesOf [] (index.dependencySites, []) := by
    refine ⟨?_, ?_, List.nodup_nil, h.sitesNoEmpty⟩
    · intro s
      have hid : (index.sitesOf s).map (resolve target [] s) = (index.sitesOf s).map id :=
        List.map_congr_left fun site _ => if_neg fun hr => absurd hr.2 List.not_mem_nil
      rw [hid, List.map_id]
      rfl
    · intro s i site
      constructor
      · exact nofun
      · exact fun hmem => absurd hmem.2.2 List.not_mem_nil
  have hend := relinked_foldl removed [] _ hstart
  rw [List.nil_append] at hend
  obtain ⟨r, hr⟩ : ∃ r, r = removed.foldl (relinkOne target) (index.dependencySites, []) := ⟨_, rfl⟩
  rw [← hr] at hend
  -- a site is restored iff it is at one of the restored positions
  have hat : ∀ s (P : LuaDependencySite → Prop),
      (∃ site ∈ index.sitesOf s, Restored removed s site ∧ P site) ↔
        ∃ at' ∈ r.2, s = at'.1 ∧ P at'.2.2 := by
    intro s P
    constructor
    · intro hsite
      obtain ⟨site, hsite, hrestored, hP⟩ := hsite
      obtain ⟨i, hi⟩ := List.mem_iff_getElem?.1 hsite
      exact ⟨(s, i, site), (hend.restored s i site).2 ⟨hi, hrestored⟩, rfl, hP⟩
    · intro hsite
      obtain ⟨⟨file, i, site⟩, hmem, rfl, hP⟩ := hsite
      obtain ⟨hi, hrestored⟩ := (hend.restored s i site).1 hmem
      exact ⟨site, List.mem_of_getElem? hi, hrestored, hP⟩
  obtain ⟨base, hbase⟩ : ∃ base : LuaDependencyIndex, base = { index with
      unresolvedByRemoval := index.unresolvedByRemoval.erase target
      dependencySites := r.1
      unresolvedDependentsByPathKey := unindexUnresolvedSites index.unresolvedDependentsByPathKey
        (r.2.map fun restored => restored.2.2) } := ⟨_, rfl⟩
  have hrelink : index.relinkUnresolvedTarget target = r.2.foldl (fileRestored target) base := by
    unfold relinkUnresolvedTarget
    simp only [hremoved, ← hr]
    split
    · rename_i hnil
      rw [hbase, List.isEmpty_iff.1 hnil]
      rfl
    · rw [hbase]
  obtain ⟨hrestSites, hrestUnresolved, hrestRemoval, hrestDerived⟩ :=
    @fileRestored_rest target base r.2
  have hsites : ∀ s, (index.relinkUnresolvedTarget target).sitesOf s =
      (index.sitesOf s).map (resolve target removed s) := by
    intro s
    unfold sitesOf
    rw [hrelink, hrestSites, hbase]
    exact hend.lists s
  have hunresolved : ∀ p s,
      Holds (index.relinkUnresolvedTarget target).unresolvedDependentsByPathKey p s ↔
        Holds index.unresolvedDependentsByPathKey p s ∧
          ¬ ∃ site ∈ index.sitesOf s, Restored removed s site ∧ p ∈ site.pathKeys := by
    intro p s
    rw [hrelink, hrestUnresolved, hbase]
    show Holds (unindexUnresolvedSites index.unresolvedDependentsByPathKey
      (r.2.map fun restored => restored.2.2)) p s ↔ _
    rw [holds_unindexUnresolvedSites, hat s fun site => p ∈ site.pathKeys]
    refine and_congr_right fun _ => not_congr ?_
    constructor
    · intro hsite
      obtain ⟨site, hmem, hnone, hkey, hs⟩ := hsite
      obtain ⟨⟨file, i, site⟩, hmem', rfl⟩ := List.mem_map.1 hmem
      have hi := ((hend.restored file i site).1 hmem').1
      have hfile := h.source file site (List.mem_of_getElem? hi)
      exact ⟨(file, i, site), hmem', hs.trans hfile, hkey⟩
    · intro hsite
      obtain ⟨⟨file, i, site⟩, hmem, hs, hkey⟩ := hsite
      obtain ⟨hi, hrestored⟩ := (hend.restored file i site).1 hmem
      have hfile := h.source file site (List.mem_of_getElem? hi)
      exact ⟨site, List.mem_map.2 ⟨_, hmem, rfl⟩, hrestored.1, hkey, hs.trans hfile.symm⟩
  refine ⟨hsites, hunresolved, ?_⟩
  have hbaseEdges : Edges base (SiteEdge index.sitesOf) := by
    apply h.edges.move
    · rw [hbase]
    · rw [hbase]
    · rw [hbase]
    · exact fun s t k => .rfl
  have hbaseLocated : Located base.resolvedSitesByTarget (SiteAt index.sitesOf) := by
    rw [hbase]
    exact h.located
  constructor
  · intro s site hsite
    rw [hsites] at hsite
    obtain ⟨other, hother, rfl⟩ := List.mem_map.1 hsite
    have hfile := h.source s other hother
    unfold resolve
    split
    · exact hfile
    · exact hfile
  · rw [hrelink]
    apply (edges_fileRestored r.2 base _ hbaseEdges).congr
    intro s t k
    rw [← hrelink]
    unfold SiteEdge
    rw [hsites]
    constructor
    · intro hedge
      obtain ⟨site, hsite, htarget, hkind⟩ | hmem := hedge
      · exact ⟨site, (mem_map_resolve.2 (.inl ⟨hsite, htarget⟩)).1, htarget, hkind⟩
      · obtain ⟨other, hother, hrestored, ht, hk⟩ :=
          (hat s fun site => t = target ∧ k = site.kind).2 hmem
        have hresolved := mem_map_resolve.2 (.inr ⟨ht, other, hother, hrestored, rfl⟩)
        exact ⟨_, hresolved.1, hresolved.2, hk.symm⟩
    · intro hedge
      obtain ⟨site, hsite, htarget, hkind⟩ := hedge
      obtain ⟨hsite, htarget⟩ | ⟨ht, other, hother, hrestored, rfl⟩ :=
        mem_map_resolve.1 ⟨hsite, htarget⟩
      · exact .inl ⟨site, hsite, htarget, hkind⟩
      · exact .inr ((hat s fun site => t = target ∧ k = site.kind).1
          ⟨other, hother, hrestored, ht, hkind.symm⟩)
  · rw [hrelink]
    apply (located_fileRestored r.2 base _ hbaseLocated hend.nodup ?_).congr
    · intro t l
      rw [← hrelink]
      obtain ⟨s, i⟩ := l
      unfold SiteAt
      rw [hsites]
      simp only [List.getElem?_map]
      constructor
      · intro hl
        obtain ⟨site, hsite, htarget⟩ | ⟨⟨file, j, site⟩, hmem, rfl, heq⟩ := hl
        · have hnot : ¬ Restored removed s site := by
            intro hrestored
            rw [hrestored.1] at htarget
            cases htarget
          exact ⟨site, by rw [hsite, Option.map_some]; exact congrArg some (if_neg hnot), htarget⟩
        · obtain ⟨rfl, rfl⟩ := DependencySiteLocation.mk.inj heq
          obtain ⟨hsite, hrestored⟩ := (hend.restored s i site).1 hmem
          exact ⟨{ site with targetFileId := some t },
            by rw [hsite, Option.map_some]; exact congrArg some (if_pos hrestored), rfl⟩
      · intro hl
        obtain ⟨site, hsite, htarget⟩ := hl
        obtain ⟨other, hother, rfl⟩ := Option.map_eq_some_iff.1 hsite
        unfold resolve at htarget
        by_cases hrestored : Restored removed s other
        · rw [if_pos hrestored] at htarget
          exact .inr ⟨(s, i, other), (hend.restored s i other).2 ⟨hother, hrestored⟩,
            (Option.some.inj htarget).symm, rfl⟩
        · rw [if_neg hrestored] at htarget
          exact .inl ⟨other, hother, htarget⟩
    · -- a restored site was resolved to nothing
      intro at' hmem hl
      obtain ⟨hsite, hrestored⟩ := (hend.restored at'.1 at'.2.1 at'.2.2).1 hmem
      obtain ⟨site, hsite', htarget⟩ := hl
      obtain rfl : site = at'.2.2 := Option.some.inj (hsite'.symm.trans hsite)
      rw [hrestored.1] at htarget
      cases htarget
  · intro p s hp
    obtain ⟨hp, hno⟩ := (hunresolved p s).1 hp
    obtain ⟨site, hsite, hnone, hkey⟩ := h.waits p s hp
    -- the site that waits is not restored, or the file would be un-indexed
    have hnot : ¬ Restored removed s site := fun hrestored => hno ⟨site, hsite, hrestored, hkey⟩
    refine ⟨site, ?_, hnone, hkey⟩
    rw [hsites]
    exact List.mem_map.2 ⟨site, hsite, if_neg hnot⟩
  · rw [hrelink, hrestSites, hbase]
    exact hend.noEmpty
  · rw [hrelink, hrestUnresolved, hbase]
    exact noEmpty_unindexUnresolvedSites _ _ h.unresolvedNoEmpty
  · rw [hrelink, hrestRemoval, hbase]
    exact noEmpty_erase h.removalNoEmpty target
  · rw [hrelink, hrestDerived, hbase]
    exact h.derivedNoEmpty

/-- The same where nothing is remembered of the file. -/
theorem relinks_listOf {index : LuaDependencyIndex} (h : Sound index) (target : FileId) :
    Relinks index target (listOf index.unresolvedByRemoval target)
      (index.relinkUnresolvedTarget target) := by
  unfold listOf
  cases hremoved : index.unresolvedByRemoval.lookup target with
  | some removed => exact relinks_relink h target removed hremoved
  | none =>
    have hsame : index.relinkUnresolvedTarget target = index := by
      simp only [relinkUnresolvedTarget, hremoved]
    have hnot : ∀ s site, ¬ Restored [] s site := fun s site hr => absurd hr.2 List.not_mem_nil
    rw [hsame]
    refine ⟨?_, ?_, h⟩
    · intro s
      exact ((List.map_congr_left fun site _ => if_neg (hnot s site)).trans (List.map_id _)).symm
    · intro p s
      exact ⟨fun hp => ⟨hp, fun ⟨site, _, hr, _⟩ => hnot s site hr⟩, And.left⟩

/-- What is remembered of the file is forgotten. -/
theorem removal_relink (index : LuaDependencyIndex) (target t : FileId) :
    listOf (index.relinkUnresolvedTarget target).unresolvedByRemoval t =
      if t = target then [] else listOf index.unresolvedByRemoval t := by
  cases hremoved : index.unresolvedByRemoval.lookup target with
  | none =>
    simp only [relinkUnresolvedTarget, hremoved]
    split
    · rename_i ht
      rw [ht]
      simp [listOf, hremoved]
    · rfl
  | some removed =>
    simp only [relinkUnresolvedTarget, hremoved]
    split
    · exact listOf_erase _ _ _
    · rw [(fileRestored_rest _ _).2.2.1]
      exact listOf_erase _ _ _

/-! ## §4. The condition

  Every call keeps the edges, their kinds, the callers and the positions exact.  The files
  by path key stay exact in exactly the runs in which no `relink_unresolved_target` resolves
  a site that shares a path key with a site of the same file that stays unresolved.
-/

/-- **No site that is resolved again shares a path key** with one of its file that is not. -/
def keepsWaiting (index : LuaDependencyIndex) (target : FileId) : Bool :=
  match index.unresolvedByRemoval.lookup target with
  | none => true
  | some removed =>
    removed.all fun entry =>
      (index.sitesOf entry.1).all fun site =>
        !restores entry.2 site ||
          (index.sitesOf entry.1).all fun other =>
            other.targetFileId.isSome || decide ((entry.1, other.path) ∈ removed) ||
              site.pathKeys.all fun key => decide (key ∉ other.pathKeys)

/-- The condition on a step. -/
def relinksKeep (index : LuaDependencyIndex) : Label → Bool
  | .relinkUnresolvedTarget target => keepsWaiting index target
  | _ => true

theorem keepsWaiting_iff {index : LuaDependencyIndex} {target : FileId} {removed : List Removed}
    (hremoved : index.unresolvedByRemoval.lookup target = some removed) :
    keepsWaiting index target = true ↔
      ∀ s, ∀ site ∈ index.sitesOf s, Restored removed s site →
        ∀ other ∈ index.sitesOf s, other.targetFileId = none → ¬ Restored removed s other →
          ∀ key ∈ site.pathKeys, key ∉ other.pathKeys := by
  simp only [keepsWaiting, hremoved, List.all_eq_true, Bool.or_eq_true, Bool.not_eq_true',
    decide_eq_true_eq]
  constructor
  · intro h s site hsite hrestored other hother hnone hnot key hkey
    have hpath : restores site.path site = true := by
      simp [restores, hrestored.1]
    have hall := (h (s, site.path) hrestored.2 site hsite).resolve_left (by simp [hpath])
    obtain (hsome | hmem) | hkeys := hall other hother
    · rw [hnone] at hsome
      cases hsome
    · exact absurd ⟨hnone, hmem⟩ hnot
    · exact hkeys key hkey
  · intro h entry hentry site hsite
    by_cases hrestores : restores entry.2 site = true
    · right
      have hrestored : Restored removed entry.1 site := by
        obtain ⟨hnone, hpath⟩ : site.targetFileId = none ∧ site.path = entry.2 := by
          simpa [restores] using hrestores
        exact ⟨hnone, by rw [hpath]; exact hentry⟩
      intro other hother
      by_cases hsome : other.targetFileId.isSome = true
      · exact .inl (.inl hsome)
      · by_cases hmem : (entry.1, other.path) ∈ removed
        · exact .inl (.inr hmem)
        · right
          have hnone : other.targetFileId = none := by simpa using hsome
          exact h entry.1 site hsite hrestored other hother hnone fun hr => hmem hr.2
    · left
      simpa using hrestores

/-- **Exactly then** the files by path key stay complete. -/
theorem complete_relink_iff {index : LuaDependencyIndex} (h : Sound index)
    (hcomplete : Complete index) (target : FileId) :
    Complete (index.relinkUnresolvedTarget target) ↔ keepsWaiting index target = true := by
  cases hremoved : index.unresolvedByRemoval.lookup target with
  | none =>
    have hsame : index.relinkUnresolvedTarget target = index := by
      simp only [relinkUnresolvedTarget, hremoved]
    rw [hsame]
    simp only [keepsWaiting, hremoved]
    exact ⟨fun _ => trivial, fun _ => hcomplete⟩
  | some removed =>
    have hrelinks := relinks_relink h target removed hremoved
    rw [keepsWaiting_iff hremoved]
    constructor
    · intro h' s site hsite hrestored other hother hnone hnot key hkey hkey'
      have hwaits : SiteWaits (index.relinkUnresolvedTarget target).sitesOf key s := by
        refine ⟨other, ?_, hnone, hkey'⟩
        rw [hrelinks.sites]
        exact List.mem_map.2 ⟨other, hother, if_neg hnot⟩
      exact ((hrelinks.unresolved key s).1 (h' key s hwaits)).2 ⟨site, hsite, hrestored, hkey⟩
    · intro hkeeps key s hwaits
      obtain ⟨site, hsite, hnone, hkey⟩ := hwaits
      rw [hrelinks.sites] at hsite
      obtain ⟨other, hother, rfl⟩ := List.mem_map.1 hsite
      unfold resolve at hnone hkey
      by_cases hrestored : Restored removed s other
      · rw [if_pos hrestored] at hnone
        cases hnone
      · rw [if_neg hrestored] at hnone hkey
        refine (hrelinks.unresolved key s).2 ⟨hcomplete key s ⟨other, hother, hnone, hkey⟩, ?_⟩
        intro hsite
        obtain ⟨site, hsite, hrestored', hkey'⟩ := hsite
        exact hkeeps s site hsite hrestored' other hother hnone hrestored key hkey' hkey

/-! ## §5. The claim of the views -/

/-- **The reverse views are exact.** -/
structure Exact (index : LuaDependencyIndex) : Prop where
  dependencies : ∀ s t, Holds index.dependencies s t ↔
    ∃ site ∈ index.sitesOf s, site.targetFileId = some t
  kinds : ∀ s t k, Holds index.dependencyKinds s (t, k) ↔
    ∃ site ∈ index.sitesOf s, site.targetFileId = some t ∧ site.kind = k
  callers : ∀ t s, Holds index.dependencyCallersByTarget t s ↔ Holds index.dependencies s t
  resolvedOnce : ∀ t, (listOf index.resolvedSitesByTarget t).Nodup
  resolved : ∀ t s (i : Nat), (⟨s, i⟩ : DependencySiteLocation) ∈
    listOf index.resolvedSitesByTarget t ↔
      ∃ site, (index.sitesOf s)[i]? = some site ∧ site.targetFileId = some t
  unresolved : ∀ p s, Holds index.unresolvedDependentsByPathKey p s ↔
    ∃ site ∈ index.sitesOf s, site.targetFileId = none ∧ p ∈ site.pathKeys
  dependenciesNoEmpty : NoEmpty index.dependencies
  kindsNoEmpty : NoEmpty index.dependencyKinds ∧ Each NoEmpty index.dependencyKinds
  callersNoEmpty : NoEmpty index.dependencyCallersByTarget
  sitesNoEmpty : NoEmpty index.dependencySites
  resolvedNoEmpty : NoEmpty index.resolvedSitesByTarget
  unresolvedNoEmpty : NoEmpty index.unresolvedDependentsByPathKey
  removalNoEmpty : NoEmpty index.unresolvedByRemoval
  derivedNoEmpty : NoEmpty index.derivedSites

theorem exact_iff_complete {index : LuaDependencyIndex} (h : Sound index) :
    Exact index ↔ Complete index := by
  constructor
  · exact fun hexact p s hwaits => (hexact.unresolved p s).2 hwaits
  · intro hcomplete
    constructor
    · intro s t
      rw [h.edges.dependencies]
      constructor
      · intro hedge
        obtain ⟨k, site, hsite, htarget, -⟩ := hedge
        exact ⟨site, hsite, htarget⟩
      · intro hsite
        obtain ⟨site, hsite, htarget⟩ := hsite
        exact ⟨site.kind, site, hsite, htarget, rfl⟩
    · exact h.edges.kinds
    · exact h.edges.callers_iff
    · exact h.located.nodup
    · exact fun t s i => h.located.mem t ⟨s, i⟩
    · exact fun p s => ⟨h.waits p s, hcomplete p s⟩
    · exact h.edges.noEmpty.dependencies
    · exact ⟨h.edges.noEmpty.kinds, h.edges.noEmpty.kindsOf⟩
    · exact h.edges.noEmpty.callers
    · exact h.sitesNoEmpty
    · exact h.located.noEmpty
    · exact h.unresolvedNoEmpty
    · exact h.removalNoEmpty
    · exact h.derivedNoEmpty

/-! ## §6. Runs -/

/-- **One step**: the index stays sound, and complete exactly if the step meets the condition. -/
theorem step_keeps (index : LuaDependencyIndex) (label : Label) (index' : LuaDependencyIndex)
    (h : Sound index) (hstep : step index label = some index') :
    Sound index' ∧ (Complete index → (Complete index' ↔ relinksKeep index label = true)) := by
  -- a step that keeps the index complete meets the condition
  have hkept : ∀ index' : LuaDependencyIndex, (Complete index → Complete index') →
      (Complete index → (Complete index' ↔ true = true)) :=
    fun index' hkeeps hcomplete => ⟨fun _ => rfl, fun _ => hkeeps hcomplete⟩
  cases label with
  | addDependencySite site source =>
    cases hstep
    exact ⟨sound_addSite h site source, hkept _ fun hc => complete_addSite hc site source⟩
  | resetDerivedSites file source =>
    cases hstep
    have hkeeps := resetDerivedSites_keeps h file source
    exact ⟨hkeeps.1, hkept _ hkeeps.2⟩
  | relinkUnresolvedTarget target =>
    cases hstep
    exact ⟨(relinks_listOf h target).sound, fun hcomplete => complete_relink_iff h hcomplete target⟩
  | forgetUnresolvedTarget target =>
    cases hstep
    exact ⟨h.withTables (noEmpty_erase h.removalNoEmpty target) h.derivedNoEmpty, hkept _ id⟩
  | remove file =>
    cases hstep
    have hkeeps := remove_keeps h file
    exact ⟨hkeeps.1, hkept _ hkeeps.2⟩
  | removeFiles files =>
    cases hstep
    have hkeeps := removeFiles_keeps h files
    exact ⟨hkeeps.1, hkept _ hkeeps.2⟩
  | clear =>
    cases hstep
    exact ⟨sound_new, hkept _ fun _ => complete_new⟩

theorem run_total (labels : List Label) (index : LuaDependencyIndex) :
    ∃ index', LabelledRuns.run step labels index = some index' := by
  induction labels generalizing index with
  | nil => exact ⟨index, rfl⟩
  | cons label labels ih =>
    have htotal : ∃ index', step index label = some index' := by
      cases label <;> exact ⟨_, rfl⟩
    obtain ⟨index', hindex'⟩ := htotal
    obtain ⟨last, hlast⟩ := ih index'
    exact ⟨last, by rw [LabelledRuns.run_cons, hindex']; exact hlast⟩

/-- **The reverse views are exact in every state of a run** iff every relink in it keeps the
    sites that wait. -/
theorem views_exact_iff (labels : List Label) :
    LabelledRuns.EveryState step Exact labels LuaDependencyIndex.new ↔
      LabelledRuns.everyStep step relinksKeep labels LuaDependencyIndex.new = true := by
  apply LabelledRuns.everyState_iff_everyStep Sound Exact relinksKeep
  · exact fun index label index' h hstep => (step_keeps index label index' h hstep).1
  · intro index label index' h hexact hstep
    obtain ⟨hsound, hcomplete⟩ := step_keeps index label index' h hstep
    rw [exact_iff_complete hsound]
    exact hcomplete ((exact_iff_complete h).1 hexact)
  · exact sound_new
  · exact (exact_iff_complete sound_new).2 complete_new
  · exact run_total labels LuaDependencyIndex.new

/-- A file includes `a.lua` by two paths; one is resolved, goes, and comes back. -/
def includedTwice : List Label :=
  let site (target : Option FileId) (path : String) (pathKeys : List String) (at' : Nat) :
      LuaDependencySite :=
    ⟨⟨1⟩, target, .Include, some path, pathKeys, path, ⟨at', at' + 1⟩, ⟨at', at' + 1⟩⟩
  [.addDependencySite (site (some ⟨2⟩) "a.lua" ["a.lua"] 0) true,
    .addDependencySite (site none "dir/a.lua" ["dir/a.lua", "a.lua"] 5) true,
    .remove ⟨2⟩, .relinkUnresolvedTarget ⟨2⟩]

/-- **A file whose site waits is forgotten**: its second site is unresolved and has the key,
    but no file is listed under it. -/
theorem waiting_site_forgotten :
    (LabelledRuns.run step includedTwice LuaDependencyIndex.new).map (fun index =>
      ((index.sitesOf ⟨1⟩).map fun site => (site.targetFileId, site.pathKeys),
        index.unresolvedDependentsByPathKey.lookup "a.lua")) =
          some ([(some ⟨2⟩, ["a.lua"]), (none, ["dir/a.lua", "a.lua"])], none) := by
  decide +kernel

end GluaLs.Dep
