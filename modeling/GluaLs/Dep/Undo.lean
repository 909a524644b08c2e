/-
  GluaLs.Dep.Undo — a file goes and comes back.

  A removal unresolves the sites that load the file and remembers, of each, the file it is
  in and its path; a relink resolves EVERY open site with that file and path, and un-indexes
  its path keys.  Once all that went are back an open site is resolved to the first of them
  that a site of its file with its path was resolved to (`Back`), which need not be what it
  was resolved to before.
-/
import GluaLs.Dep.Relink

namespace GluaLs.Dep

open GluaLs.Lib GluaLs.Lib.Buckets LuaDependencyIndex

/-! ## §1. What a removal remembers -/

/-- A site of `s` with the path is resolved to `t`. -/
def Names (index : LuaDependencyIndex) (s t : FileId) (path : Option String) : Prop :=
  ∃ site ∈ index.sitesOf s, site.targetFileId = some t ∧ site.path = path

instance (index : LuaDependencyIndex) (s t : FileId) (path : Option String) :
    Decidable (Names index s t path) := inferInstanceAs (Decidable (∃ site ∈ _, _))

/-- The loop remembers the path of the site at each position. -/
theorem mem_flipped {target : FileId} {sites : FileId → List LuaDependencySite}
    {reverse : HashMap String (HashSet FileId)}
    (hsource : ∀ s, ∀ site ∈ sites s, site.sourceFileId = s)
    (locations : List DependencySiteLocation) (s : FileId) (path : Option String) :
    ∀ (visited : List DependencySiteLocation) (t : Transition),
      Visited target sites reverse visited t → (visited ++ locations).Nodup →
      (∀ l ∈ locations, SiteAt sites target l) →
        ((s, path) ∈ (locations.foldl (unresolveOne target) t).flipped ↔ (s, path) ∈ t.flipped ∨
          ∃ l ∈ locations, l.sourceFileId = s ∧
            ∃ site, (sites s)[l.siteIndex]? = some site ∧ site.path = path) := by
  induction locations with
  | nil => simp
  | cons l locations ih =>
    intro visited t h hnodup hat
    obtain ⟨site, hsite, htarget⟩ := hat l (.head _)
    have hnew : l ∉ visited := fun hl =>
      List.disjoint_of_nodup_append hnodup hl (.head _)
    have hnow : (listOf t.sites l.sourceFileId)[l.siteIndex]? = some site := by
      rw [h.lists, if_neg hnew, hsite]
    have hflipped : (unresolveOne target t l).flipped =
        t.flipped ++ [(l.sourceFileId, site.path)] := by
      simp [unresolveOne, hnow, htarget]
    rw [List.foldl_cons, ih (visited ++ [l]) _ (visited_unresolveOne hsource h l)
      (by simpa using hnodup) (fun l' hl' => hat l' (.tail l hl')), hflipped,
      List.mem_append, or_assoc, List.exists_mem_cons_iff, List.mem_singleton, Prod.mk.injEq]
    refine or_congr_right (or_congr_left ?_)
    constructor
    · rintro ⟨rfl, rfl⟩
      exact ⟨rfl, site, hsite, rfl⟩
    · rintro ⟨rfl, other, hother, rfl⟩
      exact ⟨rfl, congrArg _ (Option.some.inj (hsite.symm.trans hother)).symm⟩

theorem mem_removal_transition {index : LuaDependencyIndex} (h : Sound index) (target : FileId)
    {s : FileId} {path : Option String}
    (hnew : (s, path) ∉ listOf index.unresolvedByRemoval target) (t : FileId) :
    (s, path) ∈ listOf (index.transitionTargetSitesToUnresolved target).unresolvedByRemoval t ↔
      (s, path) ∈ listOf index.unresolvedByRemoval t ∨ t = target ∧ Names index s target path := by
  have hat : ∀ l, l ∈ listOf index.resolvedSitesByTarget target ↔
      SiteAt index.sitesOf target l := h.located.mem target
  have hnodup := h.located.nodup target
  unfold transitionTargetSitesToUnresolved
  unfold listOf at hat hnodup
  cases hlookup : index.resolvedSitesByTarget.lookup target with
  | none =>
    have hno : ¬ Names index s target path := by
      rintro ⟨site, hsite, htarget, -⟩
      obtain ⟨i, hi⟩ := List.mem_iff_getElem?.1 hsite
      have hl := (hat ⟨s, i⟩).2 ⟨site, hi, htarget⟩
      rw [hlookup] at hl
      cases hl
    simp [hno]
  | some locations =>
    rw [hlookup, Option.getD_some] at hat hnodup
    have hsorted := List.mergeSort_perm locations DependencySiteLocation.le
    have hflipped := mem_flipped h.source (locations.mergeSort DependencySiteLocation.le) s path
      [] _ (visited_nil h target) (hsorted.nodup_iff.2 hnodup)
        fun l hl => (hat l).1 (hsorted.mem_iff.1 hl)
    have hnames : (s, path) ∈ ((locations.mergeSort DependencySiteLocation.le).foldl
        (unresolveOne target)
        ⟨index.dependencySites, index.unresolvedDependentsByPathKey, []⟩).flipped ↔
          Names index s target path := by
      rw [hflipped]
      constructor
      · rintro (hnil | ⟨⟨_, i⟩, hl, rfl, site, hsite, hpath⟩)
        · cases hnil
        · obtain ⟨other, hother, htarget⟩ := (hat _).1 (hsorted.mem_iff.1 hl)
          obtain rfl : other = site := Option.some.inj (hother.symm.trans hsite)
          exact ⟨other, List.mem_of_getElem? hsite, htarget, hpath⟩
      · rintro ⟨site, hsite, htarget, hpath⟩
        obtain ⟨i, hi⟩ := List.mem_iff_getElem?.1 hsite
        exact .inr ⟨⟨s, i⟩, hsorted.mem_iff.2 ((hat ⟨s, i⟩).2 ⟨site, hi, htarget⟩), rfl, site, hi,
          hpath⟩
    rw [← hnames]
    simp only
    split
    · rename_i hempty
      rw [List.isEmpty_iff.1 hempty]
      simp
    · unfold listOf at hnew ⊢
      rw [lookup_insert_ite]
      by_cases ht : t = target
      · subst ht
        simp [hnew]
      · simp [ht]

/-- **What `remove` does to another file**: its sites that load the file are open, and
    remembered. -/
theorem remove_other {index : LuaDependencyIndex} (h : Sound index) {file s : FileId}
    (hs : s ≠ file) :
    (index.remove file).sitesOf s = (index.sitesOf s).map (unresolve file) ∧
      ∀ path, (s, path) ∉ listOf index.unresolvedByRemoval file → ∀ t,
        ((s, path) ∈ listOf (index.remove file).unresolvedByRemoval t ↔
          (s, path) ∈ listOf index.unresolvedByRemoval t ∨ t = file ∧ Names index s file path) := by
  have hwithout := h.withTables h.removalNoEmpty (noEmpty_erase h.derivedNoEmpty file)
  obtain ⟨dropped, hdropped⟩ : ∃ dropped,
    dropped = dropSites { index with derivedSites := index.derivedSites.erase file } file :=
    ⟨_, rfl⟩
  have hsound : Sound dropped := hdropped ▸ sound_dropSites hwithout file
  have hsites : dropped.sitesOf s = index.sitesOf s := by
    rw [hdropped, sitesOf_dropSites, if_neg hs]
    rfl
  have hremoval : dropped.unresolvedByRemoval = index.unresolvedByRemoval := by
    rw [hdropped, removal_dropSites]
  obtain ⟨_, _, _, hrest⟩ :=
    removeIncoming_rest (dropped.transitionTargetSitesToUnresolved file) file
  rw [remove_eq, ← hdropped, hrest]
  constructor
  · exact ((flipped_transition hsound file).sites s).trans (congrArg _ hsites)
  · intro path hnew t
    have hmem := mem_removal_transition hsound file (hremoval ▸ hnew) t
    unfold Names at hmem
    rw [hsites, hremoval] at hmem
    exact hmem

/-! ## §2. The files go -/

/-- The site once the files are gone. -/
def withdraw (files : List FileId) (site : LuaDependencySite) : LuaDependencySite :=
  { site with targetFileId := site.targetFileId.filter fun t => decide (t ∉ files) }

theorem unresolve_withdraw (gone : List FileId) (file : FileId) (site : LuaDependencySite) :
    unresolve file (withdraw gone site) = withdraw (gone ++ [file]) site := by
  unfold unresolve withdraw
  cases htarget : site.targetFileId with
  | none => simp
  | some t =>
    by_cases hgone : t ∈ gone
    · simp [Option.filter, hgone]
    · by_cases ht : t = file
      · subst ht
        simp [Option.filter, hgone]
      · simp [Option.filter, hgone, ht]

/-- **Some of the files are gone.** -/
structure Gone (index : LuaDependencyIndex) (gone : List FileId) (index' : LuaDependencyIndex) :
    Prop where
  sound : Sound index'
  complete : Complete index'
  sites : ∀ s ∉ gone, index'.sitesOf s = (index.sitesOf s).map (withdraw gone)
  removal : ∀ s ∉ gone, ∀ t path, (s, path) ∈ listOf index'.unresolvedByRemoval t ↔
    t ∈ gone ∧ Names index s t path

theorem Gone.remove {index index' : LuaDependencyIndex} {gone : List FileId}
    (h : Gone index gone index') (file : FileId) (hfile : file ∉ gone) :
    Gone index (gone ++ [file]) (index'.remove file) := by
  obtain ⟨hsound, hcomplete⟩ := remove_keeps h.sound file
  refine ⟨hsound, hcomplete h.complete, ?_, ?_⟩
  · intro s hs
    rw [List.mem_append, List.mem_singleton, not_or] at hs
    rw [(remove_other h.sound hs.2).1, h.sites s hs.1, List.map_map]
    exact List.map_congr_left fun site _ => unresolve_withdraw gone file site
  · intro s hs t path
    rw [List.mem_append, List.mem_singleton, not_or] at hs
    have hnew : (s, path) ∉ listOf index'.unresolvedByRemoval file := fun hmem =>
      hfile ((h.removal s hs.1 file path).1 hmem).1
    -- the sites that load the file are those that did before any file went
    have hnames : Names index' s file path ↔ Names index s file path := by
      unfold Names
      rw [h.sites s hs.1]
      simp [withdraw, Option.filter_eq_some_iff, hfile]
    rw [(remove_other h.sound hs.2).2 path hnew t, h.removal s hs.1, hnames, List.mem_append,
      List.mem_singleton, or_and_right]
    refine or_congr_right (and_congr_right ?_)
    rintro rfl
    exact .rfl

theorem gone_foldl {index : LuaDependencyIndex} (files : List FileId) :
    ∀ gone index', Gone index gone index' → (gone ++ files).Nodup →
      Gone index (gone ++ files) (files.foldl LuaDependencyIndex.remove index') := by
  induction files with
  | nil =>
    intro gone index' h _
    rw [List.append_nil]
    exact h
  | cons file files ih =>
    intro gone index' h hnodup
    have hfile : file ∉ gone := fun hgone =>
      List.disjoint_of_nodup_append hnodup hgone (.head _)
    have hnext := ih (gone ++ [file]) _ (h.remove file hfile) (by simpa using hnodup)
    rw [List.append_assoc] at hnext
    exact hnext

/-! ## §3. They come back -/

/-- The open site is resolved to the first file that a site like it was resolved to. -/
def restore (index : LuaDependencyIndex) (order : List FileId) (s : FileId)
    (site : LuaDependencySite) : LuaDependencySite :=
  { site with targetFileId :=
      site.targetFileId.or (order.find? fun t => decide (Names index s t site.path)) }

theorem resolve_restore (index : LuaDependencyIndex) (order : List FileId) (s t : FileId)
    (removed : List Removed) (site : LuaDependencySite)
    (hremoved : (s, site.path) ∈ removed ↔ Names index s t site.path) :
    resolve t removed s (restore index order s site) = restore index (order ++ [t]) s site := by
  unfold resolve Restored restore
  rw [List.find?_append, ← Option.or_assoc]
  simp only [hremoved]
  cases site.targetFileId.or (order.find? fun t => decide (Names index s t site.path)) with
  | some _ => simp
  | none => by_cases hnames : Names index s t site.path <;> simp [hnames]

/-- The site is resolved again. -/
def Returns (index : LuaDependencyIndex) (files order : List FileId) (s : FileId)
    (site : LuaDependencySite) : Prop :=
  (withdraw files site).targetFileId = none ∧ ∃ t ∈ order, Names index s t site.path

/-- **Some of the files that went are back.** -/
structure Back (index : LuaDependencyIndex) (files order : List FileId)
    (index' : LuaDependencyIndex) : Prop where
  sound : Sound index'
  sites : ∀ s ∉ files,
    index'.sitesOf s = (index.sitesOf s).map fun site => restore index order s (withdraw files site)
  unresolved : ∀ s ∉ files, ∀ p, Holds index'.unresolvedDependentsByPathKey p s ↔
    (∃ site ∈ index.sitesOf s, (withdraw files site).targetFileId = none ∧ p ∈ site.pathKeys) ∧
      ¬ ∃ site ∈ index.sitesOf s, Returns index files order s site ∧ p ∈ site.pathKeys
  removal : ∀ s ∉ files, ∀ t path, (s, path) ∈ listOf index'.unresolvedByRemoval t ↔
    t ∈ files ∧ t ∉ order ∧ Names index s t path

theorem Gone.back {index index' : LuaDependencyIndex} {files : List FileId}
    (h : Gone index files index') : Back index files [] index' := by
  refine ⟨h.sound, ?_, ?_, ?_⟩
  · intro s hs
    rw [h.sites s hs]
    exact List.map_congr_left fun site _ => by simp [restore]
  · intro s hs p
    have hwaits : Holds index'.unresolvedDependentsByPathKey p s ↔ SiteWaits index'.sitesOf p s :=
      ⟨h.sound.waits p s, h.complete p s⟩
    rw [hwaits, SiteWaits, h.sites s hs]
    simp [Returns, withdraw]
  · intro s hs t path
    rw [h.removal s hs]
    simp

theorem Back.relink {index index' : LuaDependencyIndex} {files order : List FileId}
    (h : Back index files order index') (t : FileId) (ht : t ∈ files) (hnew : t ∉ order) :
    Back index files (order ++ [t]) (index'.relinkUnresolvedTarget t) := by
  have hrelinks := relinks_listOf h.sound t
  have hremoved : ∀ s ∉ files, ∀ path,
      (s, path) ∈ listOf index'.unresolvedByRemoval t ↔ Names index s t path := by
    intro s hs path
    rw [h.removal s hs]
    exact ⟨fun hmem => hmem.2.2, fun hnames => ⟨ht, hnew, hnames⟩⟩
  refine ⟨hrelinks.sound, ?_, ?_, ?_⟩
  · intro s hs
    rw [hrelinks.sites, h.sites s hs, List.map_map]
    exact List.map_congr_left fun site _ =>
      resolve_restore index order s t _ (withdraw files site) (hremoved s hs site.path)
  · intro s hs p
    rw [hrelinks.unresolved, h.unresolved s hs, and_assoc]
    refine and_congr_right fun _ => ?_
    rw [← not_or, not_iff_not, h.sites s hs]
    constructor
    · rintro (⟨site, hsite, ⟨hopen, t', ht', hnames⟩, hkey⟩ | ⟨_, hmem, hrestored, hkey⟩)
      · exact ⟨site, hsite, ⟨hopen, t', List.mem_append_left _ ht', hnames⟩, hkey⟩
      · obtain ⟨site, hsite, rfl⟩ := List.mem_map.1 hmem
        have hopen := (Option.or_eq_none_iff.1 hrestored.1).1
        exact ⟨site, hsite, ⟨hopen, t, by simp, (hremoved s hs _).1 hrestored.2⟩, hkey⟩
    · rintro ⟨site, hsite, ⟨hopen, t', ht', hnames⟩, hkey⟩
      by_cases hdone : ∃ u ∈ order, Names index s u site.path
      · exact .inl ⟨site, hsite, ⟨hopen, hdone⟩, hkey⟩
      · -- no file that is back resolves it, so this one does
        obtain hmem | hmem := List.mem_append.1 ht'
        · exact absurd ⟨t', hmem, hnames⟩ hdone
        · obtain rfl := List.mem_singleton.1 hmem
          refine .inr ⟨_, List.mem_map.2 ⟨site, hsite, rfl⟩, ⟨?_, (hremoved s hs _).2 hnames⟩, hkey⟩
          refine Option.or_eq_none_iff.2 ⟨hopen, List.find?_eq_none.2 ?_⟩
          intro u hu
          rw [decide_eq_true_iff]
          exact fun hnames => hdone ⟨u, hu, hnames⟩
  · intro s hs u path
    rw [removal_relink]
    by_cases hu : u = t
    · simp [hu]
    · rw [if_neg hu, h.removal s hs]
      simp [hu]

theorem back_foldl {index : LuaDependencyIndex} {files : List FileId} (rest : List FileId) :
    ∀ order index', Back index files order index' → (order ++ rest).Nodup → rest ⊆ files →
      Back index files (order ++ rest) (rest.foldl relinkUnresolvedTarget index') := by
  induction rest with
  | nil =>
    intro order index' h _ _
    rw [List.append_nil]
    exact h
  | cons t rest ih =>
    intro order index' h hnodup hsub
    have hnew : t ∉ order := fun ht =>
      List.disjoint_of_nodup_append hnodup ht (.head _)
    obtain ⟨ht, hrest⟩ := List.cons_subset.1 hsub
    have hnext := ih (order ++ [t]) _ (h.relink t ht hnew) (by simpa using hnodup) hrest
    rw [List.append_assoc] at hnext
    exact hnext

/-! ## §4. When a relink undoes a removal -/

/-- **The file's sites, edges and path keys are what they were.** -/
structure Same (index index' : LuaDependencyIndex) (s : FileId) : Prop where
  sites : index'.sitesOf s = index.sitesOf s
  dependencies : ∀ t, Holds index'.dependencies s t ↔ Holds index.dependencies s t
  kinds : ∀ t k, Holds index'.dependencyKinds s (t, k) ↔ Holds index.dependencyKinds s (t, k)
  unresolved : ∀ p, Holds index'.unresolvedDependentsByPathKey p s ↔
    Holds index.unresolvedDependentsByPathKey p s

/-- The files go, and come back in any order. -/
def Undone (index : LuaDependencyIndex) (files : List FileId) : Prop :=
  ∀ order : List FileId, order.Perm files → ∀ s ∉ files,
    Same index (order.foldl relinkUnresolvedTarget (files.foldl LuaDependencyIndex.remove index)) s

/-- **The sites that load the files are told apart**: an open site with the path of one is
    resolved to the same file, and none that was open before shares a path key with one. -/
structure Apart (index : LuaDependencyIndex) (files : List FileId) : Prop where
  paths : ∀ s ∉ files, ∀ site ∈ index.sitesOf s, (∀ t, site.targetFileId = some t → t ∈ files) →
    ∀ other ∈ index.sitesOf s, other.path = site.path →
      ∀ t ∈ files, other.targetFileId = some t → site.targetFileId = some t
  keys : ∀ s ∉ files, ∀ site ∈ index.sitesOf s, site.targetFileId = none →
    ∀ other ∈ index.sitesOf s, ∀ t ∈ files, other.targetFileId = some t →
      ∀ key ∈ other.pathKeys, key ∉ site.pathKeys

/-- An index made by adding sites, each by the one layer or the other. -/
def built (adds : List (LuaDependencySite × Bool)) : LuaDependencyIndex :=
  adds.foldl (fun index add => index.addDependencySite add.1 add.2) LuaDependencyIndex.new

theorem gone_built (adds : List (LuaDependencySite × Bool)) :
    Gone (built adds) [] (built adds) := by
  obtain ⟨hsound, hcomplete, hremoval⟩ : Sound (built adds) ∧ Complete (built adds) ∧
      (built adds).unresolvedByRemoval = ∅ := by
    unfold built
    apply List.foldlRecOn (motive := fun index => Sound index ∧ Complete index ∧
      index.unresolvedByRemoval = ∅) adds
    · exact ⟨sound_new, complete_new, rfl⟩
    intro index h add _
    refine ⟨sound_addSite h.1 _ _, complete_addSite h.2.1 _ _, h.2.2 ▸ ?_⟩
    unfold addDependencySite fileSite
    split
    · rfl
    · split <;> cases add.1.targetFileId <;> rfl
  refine ⟨hsound, hcomplete, ?_, ?_⟩
  · intro s _
    have hsame : ∀ site ∈ (built adds).sitesOf s, withdraw [] site = id site := by
      intro site _
      unfold withdraw
      cases htarget : site.targetFileId <;> simp [Option.filter, ← htarget]
    exact ((List.map_congr_left hsame).trans (List.map_id _)).symm
  · intro s _ t path
    rw [hremoval]
    exact ⟨nofun, fun h => absurd h.1 List.not_mem_nil⟩

theorem withdraw_eq_none {files : List FileId} {site : LuaDependencySite} :
    (withdraw files site).targetFileId = none ↔ ∀ t, site.targetFileId = some t → t ∈ files := by
  simp [withdraw, Option.filter_eq_none_iff]

/-- A site comes back to what it was. -/
theorem restore_of_apart {index : LuaDependencyIndex} {files order : List FileId}
    (h : Apart index files) (hperm : order.Perm files) {s : FileId} (hs : s ∉ files)
    (site : LuaDependencySite) (hsite : site ∈ index.sitesOf s) :
    restore index order s (withdraw files site) = id site := by
  have hat : (restore index order s (withdraw files site)).targetFileId = site.targetFileId := by
    by_cases hopen : ∀ t, site.targetFileId = some t → t ∈ files
    · unfold restore
      rw [withdraw_eq_none.2 hopen, Option.none_or]
      cases hfind : order.find? fun t => decide (Names index s t site.path) with
      | some t =>
        have hnames := List.find?_some hfind
        obtain ⟨other, hother, htarget, hpath⟩ := of_decide_eq_true hnames
        have ht := hperm.mem_iff.1 (List.mem_of_find?_eq_some hfind)
        exact hfind.trans (h.paths s hs site hsite hopen other hother hpath t ht htarget).symm
      | none =>
        refine hfind.trans (Option.eq_none_iff_forall_ne_some.2 ?_).symm
        intro t ht
        exact List.find?_eq_none.1 hfind t (hperm.mem_iff.2 (hopen t ht))
          (decide_eq_true ⟨site, hsite, ht, rfl⟩)
    · push Not at hopen
      obtain ⟨t, ht, hstays⟩ := hopen
      simp [restore, withdraw, ht, hstays, Option.filter]
  show { site with targetFileId :=
    (restore index order s (withdraw files site)).targetFileId } = site
  rw [hat]

/-- **A relink undoes the removal** exactly of files whose sites are told apart. -/
theorem relink_undoes_remove_iff (adds : List (LuaDependencySite × Bool)) (files : List FileId)
    (hfiles : files.Nodup) : Undone (built adds) files ↔ Apart (built adds) files := by
  have hstart := gone_built adds
  have hgone := gone_foldl files [] (built adds) hstart hfiles
  have hback : ∀ order, order.Perm files → Back (built adds) files order _ := fun order hperm =>
    back_foldl order [] _ hgone.back (hperm.nodup_iff.2 hfiles) hperm.subset
  have hwaits : ∀ p s, Holds (built adds).unresolvedDependentsByPathKey p s ↔
      SiteWaits (built adds).sitesOf p s :=
    fun p s => ⟨hstart.sound.waits p s, hstart.complete p s⟩
  constructor
  · intro hundone
    constructor
    · intro s hs site hsite hopen other hother hpath t ht htarget
      -- the file of the other site comes back first
      have hperm := (List.perm_cons_erase ht).symm
      have hsame := (hundone _ hperm s hs).sites
      rw [(hback _ hperm).sites s hs] at hsame
      have hfirst : Names (built adds) s t site.path := ⟨other, hother, htarget, hpath⟩
      have hlast := congrArg LuaDependencySite.targetFileId
        (List.map_eq_map_iff.1 (hsame.trans (List.map_id _).symm) site hsite)
      unfold restore at hlast
      rw [withdraw_eq_none.2 hopen, Option.none_or] at hlast
      have hfound :
          (t :: files.erase t).find? (fun t => decide (Names (built adds) s t site.path)) =
          some t := by simp [hfirst]
      exact hlast.symm.trans hfound
    · intro s hs site hsite hnone other hother t ht htarget key hkey hkey'
      have hlisted := ((hundone files (.refl _) s hs).unresolved key).2
        ((hwaits key s).2 ⟨site, hsite, hnone, hkey'⟩)
      refine (((hback files (.refl _)).unresolved s hs key).1 hlisted).2
        ⟨other, hother, ⟨?_, t, ht, other, hother, htarget, rfl⟩, hkey⟩
      rw [withdraw_eq_none]
      intro u hu
      exact Option.some.inj (htarget.symm.trans hu) ▸ ht
  · intro hapart order hperm s hs
    have h := hback order hperm
    have hsites := (h.sites s hs).trans
      ((List.map_congr_left (restore_of_apart hapart hperm hs)).trans (List.map_id _))
    refine ⟨hsites, ?_, ?_, ?_⟩
    · intro t
      rw [h.sound.edges.dependencies, hstart.sound.edges.dependencies]
      simp only [SiteEdge, hsites]
    · intro t k
      rw [h.sound.edges.kinds, hstart.sound.edges.kinds]
      simp only [SiteEdge, hsites]
    · intro p
      rw [h.unresolved s hs, hwaits]
      constructor
      · rintro ⟨⟨site, hsite, hopen, hkey⟩, hno⟩
        refine ⟨site, hsite, ?_, hkey⟩
        by_contra hsome
        obtain ⟨t, ht⟩ := Option.ne_none_iff_exists'.1 hsome
        have hback := hperm.mem_iff.2 (withdraw_eq_none.1 hopen t ht)
        exact hno ⟨site, hsite, ⟨hopen, t, hback, site, hsite, ht, rfl⟩, hkey⟩
      · rintro ⟨site, hsite, hnone, hkey⟩
        refine ⟨⟨site, hsite, by simp [withdraw, hnone], hkey⟩, ?_⟩
        rintro ⟨back, hmem, ⟨hopen, t, ht, other, hother, htarget, hpath⟩, hkey'⟩
        have ht := hperm.mem_iff.1 ht
        have hresolved :=
          hapart.paths s hs back hmem (withdraw_eq_none.1 hopen) other hother hpath t ht htarget
        exact hapart.keys s hs site hsite hnone back hmem t ht hresolved p hkey' hkey

/-- A file includes and requires `a`; the include finds the file next to it, the require finds
    no module. -/
def includesAndRequires : List (LuaDependencySite × Bool) :=
  let site (target : Option FileId) (kind : LuaDependencyKind) (at' : Nat) : LuaDependencySite :=
    ⟨⟨1⟩, target, kind, some "a", ["a", "a.lua"], "a", ⟨at', at' + 1⟩, ⟨at', at' + 1⟩⟩
  [(site (some ⟨2⟩) .Include 0, true), (site none .Require 5, true)]

/-- The include alone is undone; the require beside it is not kept apart from it. -/
theorem relink_undoes_remove_iff_of_include :
    Undone (built (includesAndRequires.take 1)) [⟨2⟩] ∧
      ¬ Apart (built includesAndRequires) [⟨2⟩] := by
  constructor
  · apply (relink_undoes_remove_iff (includesAndRequires.take 1) _ (List.nodup_singleton _)).2
    have hsites : ∀ s, (built (includesAndRequires.take 1)).sitesOf s
        = if s = ⟨1⟩ then (includesAndRequires.take 1).map Prod.fst else [] :=
      listOf_pushTo ∅ (⟨1⟩ : FileId) _
    constructor
    · intro s _ site hsite _ other hother _ t _ htarget
      rw [hsites] at hsite hother
      split_ifs at hsite hother
      · rw [List.mem_singleton.1 hother] at htarget
        rw [List.mem_singleton.1 hsite]
        exact htarget
      · cases hsite
    · intro s _ site hsite hnone
      rw [hsites] at hsite
      split_ifs at hsite
      · rw [List.mem_singleton.1 hsite] at hnone
        cases hnone
      · cases hsite
  · intro h
    have hsites : (built includesAndRequires).sitesOf ⟨1⟩ = includesAndRequires.map Prod.fst := by
      decide
    have hpaths := h.paths ⟨1⟩ (by decide)
    rw [hsites] at hpaths
    cases hpaths _ (List.mem_of_getElem? (i := 1) rfl) nofun _ (.head _) rfl ⟨2⟩ (.head _) rfl

/-- **A site that was unresolved is resolved** by the relink. -/
theorem unresolved_require_resolved : ¬ Undone (built includesAndRequires) [⟨2⟩] := by
  intro h
  have hsites := congrArg (List.map LuaDependencySite.targetFileId)
    (h [⟨2⟩] (.refl _) ⟨1⟩ (by decide)).sites
  exact absurd hsites (by decide +kernel)

end GluaLs.Dep
