/-
  GluaLs.Modules.Agree — the views of the module index agree, and what is forgotten.

  In every run that has ids to hand out, and whose remaps keep the files the exports name, the
  tree, the names, the reverse links and the sum are what the records say.  What a lookup finds
  does not depend on the order in which the files came.

  One thing fails.  A removal prunes the nodes ABOVE the one the file was listed at, and only
  cuts the edge to that one: the node itself stays in the map when the last file goes.  So the
  views agree throughout exactly where no removal takes the last file of a node without
  children (`views_agree`).
-/
import GluaLs.Modules.Choice

namespace GluaLs.Modules

open GluaLs.Lib GluaLs.Lib.Buckets GluaLs.Lib.LabelledRuns GluaLs.Lib.Walks GluaLs.Types
  LuaModuleIndex
open GluaLs.Edit LuaModuleIndex

/-! ## §1. What the views promise -/

/-- An export names a position of a file. -/
def NamesFile (info : ModuleInfo) (file : FileId) : Prop :=
  (∃ type, info.exportType = some type ∧ file ∈ typeReferencedFiles type) ∨
    ∃ id, info.semanticId = some id ∧ id.getFileId = some file

/-- **The views agree, and forget nothing.** -/
structure Agree (hashes : Hashes) (index : LuaModuleIndex) : Prop where
  tree : ∀ path, (filesAt index.moduleNodes (moduleParts path)).Nodup ∧
    ∀ file, file ∈ filesAt index.moduleNodes (moduleParts path) ↔
      ∃ info, index.fileModuleMap.lookup file = some info ∧ info.fullModuleName = path
  names : ∀ name, (listOf index.moduleNameToFileIds name).Nodup ∧
    ∀ file, file ∈ listOf index.moduleNameToFileIds name ↔
      ∃ info, index.fileModuleMap.lookup file = some info ∧ info.name = name
  used : ∀ id node, index.moduleNodes.lookup id = some node → id ≠ moduleRootId →
    (∃ path, site index.moduleNodes path = some id) ∧
      (node.fileIds ≠ [] ∨ ∃ part child, node.children.lookup part = some child)
  exports : ∀ named file, Holds index.exportRefs named file ↔
    file ≠ named ∧ ∃ info, index.fileModuleMap.lookup file = some info ∧ NamesFile info named
  counted : index.moduleFiles = recount hashes index.fileModuleMap

theorem mem_exportFiles (info : ModuleInfo) (named : FileId) :
    named ∈ exportFiles info ↔ info.fileId ≠ named ∧ NamesFile info named := by
  unfold exportFiles NamesFile
  rw [List.mem_dedup, List.mem_filter, List.mem_append, Option.mem_toList, decide_eq_true_iff,
    and_comm, ne_comm]
  apply and_congr_right'
  apply or_congr
  · cases info.exportType with
    | none => simp
    | some type => simp
  · exact Option.bind_eq_some_iff

/-- A node that is not empty has a file or a child. -/
theorem used_of_isEmpty_eq_false {node : ModuleNode} (h : node.isEmpty = false) :
    node.fileIds ≠ [] ∨ ∃ part child, node.children.lookup part = some child := by
  unfold ModuleNode.isEmpty at h
  rw [Bool.and_eq_false_iff] at h
  obtain hfiles | hchildren := h
  · left
    intro hnil
    rw [hnil] at hfiles
    cases hfiles
  · right
    cases hentries : node.children.entries with
    | nil =>
      rw [hentries] at hchildren
      cases hchildren
    | cons entry entries =>
      refine ⟨entry.1, entry.2, (mem_entries_iff node.children entry.1 entry.2).1 ?_⟩
      rw [hentries]
      exact .head _

/-- Where the views agree with the records, what is missing is that the tree is tidy. -/
theorem agree_iff_tidy {hashes : Hashes} {index : LuaModuleIndex} (h : Views hashes True index) :
    Agree hashes index ↔ Tidy index := by
  constructor
  · intro hagree id hleft
    obtain ⟨node, hnode⟩ := Option.isSome_iff_exists.1 hleft.1
    have hroot : id ≠ moduleRootId := by
      intro heq
      exact hleft.2 [] (by rw [heq]; rfl)
    obtain ⟨path, hpath⟩ := (hagree.used id node hnode hroot).1
    exact hleft.2 path hpath
  · intro htidy
    refine ⟨?_, fun name => ⟨h.named.once name, h.named.listed name⟩, ?_, ?_, h.counted⟩
    · intro path
      refine ⟨h.placed.once _, ?_⟩
      intro file
      rw [h.placed.listed]
      constructor
      · intro hinfo
        obtain ⟨info, hlookup, hparts⟩ := hinfo
        exact ⟨info, hlookup, moduleParts_inj _ _ hparts⟩
      · intro hinfo
        obtain ⟨info, hlookup, hfull⟩ := hinfo
        exact ⟨info, hlookup, by rw [hfull]⟩
    · intro id node hnode hroot
      have hreached : ∃ path, site index.moduleNodes path = some id := by
        by_contra hnone
        exact htidy id ⟨by rw [hnode]; rfl, fun path hpath => hnone ⟨path, hpath⟩⟩
      refine ⟨hreached, ?_⟩
      obtain ⟨path, hpath⟩ := hreached
      obtain hnil | hempty | hhole := h.forest.used path id node hpath hnode
      · rw [hnil] at hpath
        exact absurd (Option.some.inj hpath).symm hroot
      · exact used_of_isEmpty_eq_false hempty
      · cases hhole
    · intro named file
      rw [(h.linked trivial).holds]
      constructor
      · intro hinfo
        obtain ⟨info, hlookup, hnamed⟩ := hinfo
        obtain ⟨hne, hnamed⟩ := (mem_exportFiles info named).1 hnamed
        rw [h.placed.own file info hlookup] at hne
        exact ⟨hne, info, hlookup, hnamed⟩
      · intro hinfo
        obtain ⟨hne, info, hlookup, hnamed⟩ := hinfo
        rw [← h.placed.own file info hlookup] at hne
        exact ⟨info, hlookup, (mem_exportFiles info named).2 ⟨hne, hnamed⟩⟩

/-! ## §2. Steps -/

/-- The file a call removes first, if it is registered. -/
def removes (index : LuaModuleIndex) : Label → Option FileId
  | .addModuleByPath file _ | .addModuleByModulePath file _ _ | .remove file => some file
  | .repathModule file _ =>
    if (index.fileModulePaths.lookup file).isSome then some file else none
  | _ => none

/-- There are ids for what is registered, and remapped exports name the files they named. -/
def canAgree (hashes : Hashes) (index : LuaModuleIndex) (label : Label) : Bool :=
  hasIds index label && keepsExports hashes index label

/-- No file goes that is the last one of a node without children. -/
def keepsLeaf (index : LuaModuleIndex) (label : Label) : Bool :=
  (removes index label).all fun file => leafKept index file

variable {hashes : Hashes} {index : LuaModuleIndex}

theorem canAgree_iff (label : Label) : canAgree hashes index label = true ↔
    hasIds index label = true ∧ keepsExports hashes index label = true := Bool.and_eq_true_iff

/-- A step that leaves the nodes alone leaves the tree tidy. -/
theorem tidy_of_moduleNodes {index' : LuaModuleIndex}
    (hnodes : index'.moduleNodes = index.moduleNodes) (htidy : Tidy index) : Tidy index' := by
  unfold Tidy
  rw [hnodes]
  exact htidy

/-- **A step keeps the tree tidy exactly when it keeps the leaf.** -/
theorem tidy_step_iff {index' : LuaModuleIndex} {label : Label} (h : Views hashes True index)
    (hids : hasIds index label = true) (htidy : Tidy index)
    (hstep : step hashes index label = some index') :
    Tidy index' ↔ keepsLeaf index label = true := by
  cases label with
  | addModuleByPath file path =>
    cases hstep
    exact (refiled_addModuleByPath h file path (idsLeft_of_hasIds hids rfl)).tidy htidy
  | addModuleByModulePath file path workspace =>
    cases hstep
    exact (refiled_addModuleByModulePath h file path workspace hids).tidy htidy
  | repathModule file path =>
    cases hstep
    rw [tidy_repathModule_iff h htidy file path (idsLeft_of_hasIds hids rfl)]
    unfold keepsLeaf removes
    cases hpath : index.fileModulePaths.lookup file with
    | none => simp [hpath]
    | some old => simp [hpath]
  | setExport file exportType semanticId =>
    cases hstep
    have hnodes : (index.setExport file exportType semanticId).moduleNodes =
        index.moduleNodes := by
      unfold setExport
      cases index.fileModuleMap.lookup file with
      | none => rfl
      | some info =>
        dsimp only
        split
        · rfl
        · exact modifyInfo_moduleNodes _
    exact ⟨fun _ => rfl, fun _ => tidy_of_moduleNodes hnodes htidy⟩
  | resetExport file =>
    cases hstep
    have hnodes : (index.resetExport file).moduleNodes = index.moduleNodes := by
      unfold resetExport
      cases index.fileModuleMap.lookup file with
      | none => rfl
      | some info => exact modifyInfo_moduleNodes _
    exact ⟨fun _ => rfl, fun _ => tidy_of_moduleNodes hnodes htidy⟩
  | remapFileExports remap =>
    cases hstep
    exact ⟨fun _ => rfl, fun _ => tidy_of_moduleNodes (remapFileExports_moduleNodes remap) htidy⟩
  | setModuleVisibility file visible | setModuleVersionConds file versionConds | setMeta file =>
    cases hstep
    exact ⟨fun _ => rfl, fun _ => tidy_of_moduleNodes (modifyInfo_moduleNodes _) htidy⟩
  | setLegacyModuleEnv file env =>
    cases hstep
    exact ⟨fun _ => rfl, fun _ => htidy⟩
  | remove file =>
    cases hstep
    exact tidy_remove_iff h htidy file

/-! ## §3. Runs -/

/-- What every state of a run keeps, and the configuration. -/
def Configured (hashes : Hashes) (config : Config) (index : LuaModuleIndex) : Prop :=
  Views hashes True index ∧ index.config = config

theorem configured_step {config : Config} {index' : LuaModuleIndex} {label : Label}
    (h : Configured hashes config index) (hcan : canAgree hashes index label = true)
    (hstep : step hashes index label = some index') : Configured hashes config index' :=
  ⟨views_step h.1 ((canAgree_iff label).1 hcan).1 (fun _ => ((canAgree_iff label).1 hcan).2) hstep,
    (config_step h.1 ((canAgree_iff label).1 hcan).1 hstep).trans h.2⟩

/-- Where a run ends. -/
theorem configured_run (hashes : Hashes) (config : Config) (labels : List Label)
    (index : LuaModuleIndex)
    (hcan : everyStep (step hashes) (canAgree hashes) labels (new config) = true)
    (hrun : run (step hashes) labels (new config) = some index) :
    Configured hashes config index := by
  have hevery := everyState_of_everyStep (Configured hashes config) (canAgree hashes)
    (fun _ _ _ h hcan hstep => configured_step h hcan hstep) labels _
    ⟨views_new hashes True config, rfl⟩ hcan
  exact hevery.last labels _ index hrun

/-- **The module index's views agree.**  In a run that has ids to hand out and whose remaps
    keep the files exports name, every state agrees exactly if no step takes the last file of
    a node without children; and two such runs that leave the same files registered the same
    way find the same modules. -/
theorem views_agree (hashes : Hashes) (config : Config) (labels : List Label)
    (hcan : everyStep (step hashes) (canAgree hashes) labels (LuaModuleIndex.new config) = true) :
    (EveryState (step hashes) (Agree hashes) labels (LuaModuleIndex.new config) ↔
      everyStep (step hashes) keepsLeaf labels (LuaModuleIndex.new config) = true) ∧
    ∀ labels' index index',
      everyStep (step hashes) (canAgree hashes) labels' (LuaModuleIndex.new config) = true →
      run (step hashes) labels (LuaModuleIndex.new config) = some index →
      run (step hashes) labels' (LuaModuleIndex.new config) = some index' →
      (∀ file, registration index' file = registration index file) →
      ∀ path, (index.findModule path).found = (index'.findModule path).found ∧
        ∀ workspace, (index.findModuleInWorkspace path workspace).found =
          (index'.findModuleInWorkspace path workspace).found := by
  have hnew : Configured hashes config (new config) :=
    ⟨views_new hashes True config, rfl⟩
  constructor
  · apply everyState_iff_everyStep_guarded (fun index => Views hashes True index) (Agree hashes)
      (canAgree hashes) keepsLeaf
    · intro index label index' h hcan hstep
      obtain ⟨hids, hkept⟩ := (canAgree_iff label).1 hcan
      exact views_step h hids (fun _ => hkept) hstep
    · intro index label index' h hcan hagree hstep
      obtain ⟨hids, hkept⟩ := (canAgree_iff label).1 hcan
      rw [agree_iff_tidy (views_step h hids (fun _ => hkept) hstep)]
      exact tidy_step_iff h hids ((agree_iff_tidy h).1 hagree) hstep
    · exact hnew.1
    · rw [agree_iff_tidy hnew.1]
      intro id hid
      obtain ⟨node, hnode⟩ := Option.isSome_iff_exists.1 hid.1
      have hroot : (new config).moduleNodes.lookup id =
          if id = moduleRootId then some ModuleNode.default else none := lookup_insert_ite _ _ _ _
      rw [hnode] at hroot
      split at hroot
      · rename_i heq
        exact hid.2 [] (by rw [heq]; rfl)
      · cases hroot
    · exact hcan
    · exact exists_run hashes labels _
  · intro labels' index index' hcan' hrun hrun' hsame path
    have h := configured_run hashes config labels index hcan hrun
    have h' := configured_run hashes config labels' index' hcan' hrun'
    have hconfig : index'.config = index.config := h'.2.trans h.2.symm
    have hcandidates : ∀ file, candidateOf index' file = candidateOf index file :=
      fun file => candidateOf_of_registration h.1 h'.1 hconfig file (hsame file)
    refine ⟨?_, ?_⟩
    · exact congrArg Noted.found (lookup_congr h.1 h'.1 hconfig hcandidates path none true)
    · intro workspace
      exact congrArg Noted.found
        (lookup_congr h.1 h'.1 hconfig hcandidates path (some workspace) true)

/-! ## §4. What is forgotten -/

/-- A configuration without workspaces. -/
def bareConfig : Config where
  modulePatterns := []
  workspaces := []
  workspaceKindMap := ∅
  fuzzySearch := true
  moduleReplaceVec := []
  workspaceIsolationEnabled := true

/-- Hashes that tell nothing apart. -/
def plainHashes : Hashes where
  types := LuaType.plainHashing
  entry := fun _ => 1

/-- Two files under one path, and the first of them goes. -/
def secondStays : List Label :=
  [.addModuleByModulePath ⟨1⟩ ['a', '.', 'b'] WorkspaceId.MAIN,
    .addModuleByModulePath ⟨2⟩ ['a', '.', 'b'] WorkspaceId.MAIN,
    .remove ⟨1⟩]

/-- One file under a path, and it goes. -/
def lastGoes : List Label :=
  [.addModuleByModulePath ⟨1⟩ ['a'] WorkspaceId.MAIN, .remove ⟨1⟩]

theorem views_agree_secondStays :
    EveryState (step plainHashes) (Agree plainHashes) secondStays (LuaModuleIndex.new bareConfig) :=
  (views_agree plainHashes bareConfig secondStays (by decide +kernel)).1.2 (by decide +kernel)

/-- **The node of a file that goes is forgotten in the map**, where nothing leads to it. -/
theorem last_node_forgotten :
    ¬ EveryState (step plainHashes) (Agree plainHashes) lastGoes
      (LuaModuleIndex.new bareConfig) := by
  intro h
  have hagree : Agree plainHashes (((new bareConfig).addModuleByModulePath
    plainHashes ⟨1⟩ ['a'] WorkspaceId.MAIN).remove plainHashes ⟨1⟩) := (h.2 _ rfl).2 _ rfl
  obtain ⟨⟨path, hpath⟩, -⟩ := hagree.used 1 ⟨some 0, ∅, []⟩ (by rfl) (by decide)
  cases path with
  | nil =>
    have hroot : some 0 = some 1 := hpath
    cases hroot
  | cons part parts =>
    have hleaf : ∀ x, edge (((new bareConfig).addModuleByModulePath
        plainHashes ⟨1⟩ ['a'] WorkspaceId.MAIN).remove plainHashes ⟨1⟩).moduleNodes
          moduleRootId x = none := fun x => rfl
    have hnone := walk_eq_none_of_leaf hleaf part parts
    rw [show walk _ moduleRootId (part :: parts) = some 1 from hpath] at hnone
    cases hnone

end GluaLs.Modules
