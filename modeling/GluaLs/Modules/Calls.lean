/-
  GluaLs.Modules.Calls — every call on the module index keeps the views.

  Two of them do so under a condition:

    • a registration needs an id for every part of the path (`idsLeft`),
    • a remap rewrites exports without linking them again, so what it makes of an export has to
      name the same files (`exportsKept`).

  What a call leaves behind in the tree is one node at most, where a file was removed that was
  the last one there (`leafKept`).
-/
import GluaLs.Modules.Views

namespace GluaLs.Modules

open GluaLs.Lib GluaLs.Lib.Buckets GluaLs.Lib.Walks GluaLs.Types GluaLs.Edit LuaModuleIndex

/-! ## §1. Conditions -/

/-- The file leaves its node something: another file, or a child. -/
def leafKept (index : LuaModuleIndex) (file : FileId) : Bool :=
  match index.fileModuleMap.lookup file with
  | none => true
  | some info =>
    match index.moduleNodes.lookup info.moduleId with
    | none => true
    | some node => !(node.without file).isEmpty

/-- Every part of the path can be given an id. -/
def idsLeft (index : LuaModuleIndex) (path : Text) : Bool :=
  decide (index.idCounter + (moduleParts path).length < 2 ^ 32)

/-- A list names the same files as another. -/
def sameFiles (l l' : List FileId) : Bool :=
  l.all (fun file => decide (file ∈ l')) && l'.all fun file => decide (file ∈ l)

/-- The exports a remap rewrites name the files they named. -/
def exportsKept (hashes : Hashes) (index : LuaModuleIndex) (remap : FileRemap) : Bool :=
  (index.exportersOf remap.fileId).all fun file =>
    ((index.fileModuleMap.lookup file).map fun info =>
      sameFiles (exportFiles (remapExport hashes remap info)) (exportFiles info)).getD true

theorem sameFiles_iff (l l' : List FileId) :
    sameFiles l l' = true ↔ ∀ file, file ∈ l ↔ file ∈ l' := by
  unfold sameFiles
  rw [Bool.and_eq_true, List.all_eq_true, List.all_eq_true]
  simp only [decide_eq_true_eq]
  exact ⟨fun h file => ⟨h.1 file, h.2 file⟩,
    fun h => ⟨fun file => (h file).1, fun file => (h file).2⟩⟩

/-- Nothing is left over in the tree. -/
def Tidy (index : LuaModuleIndex) : Prop := ∀ id, ¬ Leftover index.moduleNodes id

variable {hashes : Hashes} {tight : Prop} {index : LuaModuleIndex} {file : FileId}

/-! ## §2. Records rewritten in place -/

theorem modifyInfo_of_lookup {info : ModuleInfo} (f : ModuleInfo → ModuleInfo)
    (hold : index.fileModuleMap.lookup file = some info) :
    index.modifyInfo file f =
      { index with fileModuleMap := index.fileModuleMap.insert file (f info) } := by
  unfold modifyInfo
  rw [hold]

theorem modifyInfo_of_none (f : ModuleInfo → ModuleInfo)
    (hnone : index.fileModuleMap.lookup file = none) : index.modifyInfo file f = index := by
  unfold modifyInfo
  rw [hnone]

theorem modifyInfo_moduleNodes (f : ModuleInfo → ModuleInfo) :
    (index.modifyInfo file f).moduleNodes = index.moduleNodes := by
  unfold modifyInfo
  cases index.fileModuleMap.lookup file <;> rfl

theorem modifyInfo_config (f : ModuleInfo → ModuleInfo) :
    (index.modifyInfo file f).config = index.config := by
  unfold modifyInfo
  cases index.fileModuleMap.lookup file <;> rfl

section

variable (h : Views hashes tight index)
include h

/-- **A record is rewritten that exports what it exported.** -/
theorem Views.modify (f : ModuleInfo → ModuleInfo)
    (hplace : ∀ info, index.fileModuleMap.lookup file = some info → SamePlace info (f info))
    (hexport : tight → ∀ info, index.fileModuleMap.lookup file = some info →
      ∀ named, named ∈ exportFiles (f info) ↔ named ∈ exportFiles info) :
    Views hashes tight (index.modifyInfo file f) := by
  cases hold : index.fileModuleMap.lookup file with
  | none =>
    rw [modifyInfo_of_none f hold]
    exact h
  | some info =>
    have hsame := hplace info hold
    rw [modifyInfo_of_lookup f hold]
    refine ⟨h.forest, h.placed.rewrite hold hsame, h.named.rewrite hold hsame,
      fun htight => (h.linked htight).rewrite hold (hexport htight info hold), ?_,
      fun htight => (h.pathed htight).rewrite hold hsame⟩
    show index.moduleFiles = recount hashes (index.fileModuleMap.insert file (f info))
    rw [recount_rewrite hashes hold hsame]
    exact h.counted

/-- **A record is rewritten and its export linked again.** -/
theorem Views.modify_relink (f : ModuleInfo → ModuleInfo)
    {info : ModuleInfo} (hold : index.fileModuleMap.lookup file = some info)
    (hsame : SamePlace info (f info)) :
    Views hashes tight ((index.modifyInfo file f).relinkExport file (exportFiles info)) := by
  rw [modifyInfo_of_lookup f hold]
  refine ⟨h.forest, h.placed.rewrite hold hsame, h.named.rewrite hold hsame, ?_, ?_,
    fun htight => (h.pathed htight).rewrite hold hsame⟩
  · exact fun htight => LinkedBut.relink ((h.linked htight).but hold)
  · show index.moduleFiles = recount hashes (index.fileModuleMap.insert file (f info))
    rw [recount_rewrite hashes hold hsame]
    exact h.counted

theorem views_setExport (exportType : LuaType) (semanticId : Option LuaSemanticDeclId) :
    Views hashes tight (index.setExport file exportType semanticId) := by
  unfold setExport
  cases hold : index.fileModuleMap.lookup file with
  | none => exact h
  | some info =>
    show Views hashes tight (if hasExport info exportType semanticId = true then index else _)
    split
    · exact h
    · exact h.modify_relink _ hold ⟨rfl, rfl, rfl, rfl, rfl⟩

theorem views_resetExport : Views hashes tight (index.resetExport file) := by
  unfold resetExport
  cases hold : index.fileModuleMap.lookup file with
  | none => exact h
  | some info => exact h.modify_relink _ hold ⟨rfl, rfl, rfl, rfl, rfl⟩

end

theorem samePlace_remapExport (remap : FileRemap) (info : ModuleInfo) :
    SamePlace info (remapExport hashes remap info) := by
  unfold remapExport
  dsimp only
  split
  · exact ⟨rfl, rfl, rfl, rfl, rfl⟩
  · exact ⟨rfl, rfl, rfl, rfl, rfl⟩

theorem views_remapFileExports (h : Views hashes tight index) (remap : FileRemap)
    (hkept : tight → exportsKept hashes index remap = true) :
    Views hashes tight (index.remapFileExports hashes remap) := by
  have hall : tight → ∀ file ∈ index.exportersOf remap.fileId, ∀ info,
      index.fileModuleMap.lookup file = some info →
      ∀ named, named ∈ exportFiles (remapExport hashes remap info) ↔
        named ∈ exportFiles info := by
    intro htight file hmem info hold
    have hone := List.all_eq_true.1 (hkept htight) file hmem
    rw [hold] at hone
    exact (sameFiles_iff _ _).1 hone
  have honce : (index.exportersOf remap.fileId).Nodup := by
    unfold exportersOf
    refine (List.mergeSort_perm _ _).nodup_iff.2 ?_
    cases index.exportRefs.lookup remap.fileId with
    | none => exact List.nodup_nil
    | some files => exact files.keys_nodup
  unfold remapFileExports
  clear hkept
  -- the records the loop has not come to are as they were
  revert hall honce
  generalize index.exportersOf remap.fileId = files
  induction files generalizing index with
  | nil => exact fun _ _ => h
  | cons file files ih =>
    intro hall honce
    obtain ⟨hnot, honce⟩ := List.nodup_cons.1 honce
    rw [List.foldl_cons]
    apply ih
    · exact h.modify _ (fun info _ => samePlace_remapExport remap info)
        (fun htight => hall htight file (.head _))
    · intro htight other hother info hinfo
      have hne : other ≠ file := fun heq => hnot (heq ▸ hother)
      have hold : index.fileModuleMap.lookup other = some info := by
        cases hfile : index.fileModuleMap.lookup file with
        | none =>
          rw [modifyInfo_of_none _ hfile] at hinfo
          exact hinfo
        | some old =>
          rw [modifyInfo_of_lookup _ hfile] at hinfo
          have hinfo' : (index.fileModuleMap.insert file _).lookup other = some info := hinfo
          rw [lookup_insert_ite, if_neg hne] at hinfo'
          exact hinfo'
      exact hall htight other (.tail file hother) info hold
    · exact honce

theorem remapFileExports_moduleNodes (remap : FileRemap) :
    (index.remapFileExports hashes remap).moduleNodes = index.moduleNodes := by
  unfold remapFileExports
  generalize index.exportersOf remap.fileId = files
  induction files generalizing index with
  | nil => rfl
  | cons file files ih =>
    rw [List.foldl_cons, ih, modifyInfo_moduleNodes]

theorem remapFileExports_config (remap : FileRemap) :
    (index.remapFileExports hashes remap).config = index.config := by
  unfold remapFileExports
  generalize index.exportersOf remap.fileId = files
  induction files generalizing index with
  | nil => rfl
  | cons file files ih =>
    rw [List.foldl_cons, ih, modifyInfo_config]

/-! ## §3. Removal -/

/-- **Removal.** -/
theorem views_remove (h : Views hashes tight index) (file : FileId) :
    Views hashes tight (index.remove hashes file) := by
  unfold remove
  cases hold : index.fileModuleMap.lookup file with
  | none =>
    refine ⟨h.forest, h.placed, h.named, h.linked, h.counted, ?_⟩
    intro htight other path hpath
    exact h.pathed htight other path (lookup_erase_some hpath).2
  | some info =>
    have hunfiled := unfiled h.forest file (h.placed.sited file info hold)
      (moduleParts_ne_nil info.fullModuleName)
    refine ⟨hunfiled.forest, h.placed.erase hunfiled hold, h.named.erase hold, ?_, ?_,
      fun htight => (h.pathed htight).erase⟩
    · exact fun htight => @LinkedBut.relink { index with
        moduleNameToFileIds := retainIn index.moduleNameToFileIds info.name fun id => id ≠ file
        fileModuleMap := index.fileModuleMap.erase file } file (exportFiles info)
        ((h.linked htight).but_erase hold)
    · show index.moduleFiles - hashes.entry (moduleFilesEntry info) = _
      rw [h.counted]
      exact (sumOf_erase _ _ _ _ hold).symm

/-- **A removal leaves a node behind exactly when the file was the last one there.** -/
theorem tidy_remove_iff (h : Views hashes tight index) (htidy : Tidy index) (file : FileId) :
    Tidy (index.remove hashes file) ↔ leafKept index file = true := by
  unfold remove leafKept
  cases hold : index.fileModuleMap.lookup file with
  | none => exact ⟨fun _ => rfl, fun _ => htidy⟩
  | some info =>
    have hunfiled := unfiled h.forest file (h.placed.sited file info hold)
      (moduleParts_ne_nil info.fullModuleName)
    obtain ⟨node, hnode⟩ := h.forest.lookup_of_site (h.placed.sited file info hold)
    show (∀ id, ¬ Leftover (unfileNode index.moduleNodes file info.moduleId) id) ↔
      (match index.moduleNodes.lookup info.moduleId with
        | none => true
        | some node => !(node.without file).isEmpty) = true
    rw [hnode]
    show _ ↔ (!(node.without file).isEmpty) = true
    rw [Bool.not_eq_true']
    constructor
    · intro hall
      cases hempty : (node.without file).isEmpty with
      | false => rfl
      | true =>
        exact absurd ((hunfiled.leftover info.moduleId).2
          (.inr ⟨rfl, node, hnode, hempty⟩)) (hall info.moduleId)
    · intro hempty id hid
      obtain hid | ⟨-, node', hnode', hempty'⟩ := (hunfiled.leftover id).1 hid
      · exact htidy id hid
      · rw [hnode] at hnode'
        rw [← Option.some.inj hnode', hempty] at hempty'
        cases hempty'

theorem remove_lookup_self (file : FileId) :
    (index.remove hashes file).fileModuleMap.lookup file = none := by
  unfold remove
  cases hold : index.fileModuleMap.lookup file with
  | none => exact hold
  | some info =>
    show (index.fileModuleMap.erase file).lookup file = none
    rw [lookup_erase_ite, if_pos rfl]

theorem remove_idCounter (file : FileId) :
    (index.remove hashes file).idCounter = index.idCounter := by
  unfold remove
  cases index.fileModuleMap.lookup file <;> rfl

theorem remove_config (file : FileId) : (index.remove hashes file).config = index.config := by
  unfold remove
  cases index.fileModuleMap.lookup file <;> rfl

/-- The file before it registers. -/
structure Unregistered (hashes : Hashes) (tight : Prop) (index : LuaModuleIndex) (file : FileId)
    (index' : LuaModuleIndex) : Prop where
  views : Views hashes tight index'
  tidy : Tidy index → (Tidy index' ↔ leafKept index file = true)
  none' : index'.fileModuleMap.lookup file = none
  ids : index'.idCounter = index.idCounter
  config : index'.config = index.config

theorem unregistered_spec (h : Views hashes tight index) (file : FileId) :
    Unregistered hashes tight index file (index.unregistered hashes file) := by
  unfold unregistered
  split
  · exact ⟨views_remove h file, fun htidy => tidy_remove_iff h htidy file,
      remove_lookup_self file, remove_idCounter file, remove_config file⟩
  · rename_i hnone
    have hnone' : index.fileModuleMap.lookup file = none := by
      cases hold : index.fileModuleMap.lookup file with
      | none => rfl
      | some info =>
        rw [hold] at hnone
        exact absurd rfl hnone
    refine ⟨h, ?_, hnone', rfl, rfl⟩
    intro htidy
    unfold leafKept
    rw [hnone']
    exact ⟨fun _ => rfl, fun _ => htidy⟩

/-! ## §4. Registration -/

/-- **What registering makes of an index.** -/
structure Registered (hashes : Hashes) (tight : Prop) (index : LuaModuleIndex) (file : FileId)
    (path : Text)
    (workspace : WorkspaceId) (index' : LuaModuleIndex) : Prop where
  views : Views hashes tight index'
  tidy : Tidy index' ↔ Tidy index
  record : ∃ id, index'.fileModuleMap.lookup file = some (moduleInfoOf file path workspace id)
  config : index'.config = index.config

theorem fullModuleName_moduleInfoOf (file : FileId) (path : Text) (workspace : WorkspaceId)
    (id : ModuleNodeId) : (moduleInfoOf file path workspace id).fullModuleName = path :=
  join_moduleParts path

theorem registered_fileModule (h : Views hashes tight index)
    (hnone : index.fileModuleMap.lookup file = none) (path : Text) (workspace : WorkspaceId)
    (hids : idsLeft index path = true) :
    Registered hashes tight index file path workspace
      (index.fileModule hashes file path workspace) := by
  obtain ⟨nodes', counter', id, hrun, hgrown⟩ := descend_grown (moduleParts path) index []
    moduleRootId h.forest.openRoot rfl (of_decide_eq_true hids)
  obtain ⟨node, hnode⟩ := hgrown.forest.lookup_of_site hgrown.at'
  have hlisted := hgrown.listed hnode file
  rw [List.nil_append] at hlisted
  have hfull := fullModuleName_moduleInfoOf file path workspace id
  have hlisted' : Listed index.moduleNodes (nodes'.insert id { node with
      fileIds := node.fileIds ++ [file] }) counter' file
      (moduleParts (moduleInfoOf file path workspace id).fullModuleName) id := by
    rw [hfull]
    exact hlisted
  have hrun' : index.fileModule hashes file path workspace = { index with
      moduleNodes := nodes'.insert id { node with fileIds := node.fileIds ++ [file] }
      idCounter := counter'
      moduleFiles := index.moduleFiles +
        hashes.entry (moduleFilesEntry (moduleInfoOf file path workspace id))
      fileModuleMap := index.fileModuleMap.insert file (moduleInfoOf file path workspace id)
      moduleNameToFileIds := pushTo index.moduleNameToFileIds
        (moduleInfoOf file path workspace id).name file } := by
    unfold fileModule
    rw [hrun]
    dsimp only
    rw [hnode]
  rw [hrun']
  refine ⟨⟨hlisted.forest, ?_, h.named.insert hnone,
    fun htight => (h.linked htight).insert hnone rfl, ?_,
    fun htight => (h.pathed htight).insert hnone⟩, ?_, ⟨id, ?_⟩, rfl⟩
  · apply Placed.insert h.placed hlisted' hnone rfl
    rw [hfull]
    rfl
  · show index.moduleFiles + _ = recount hashes (index.fileModuleMap.insert file _)
    rw [recount_insert hashes hnone, h.counted]
  · exact forall_congr' fun other => not_congr (hlisted.leftover other)
  · show (index.fileModuleMap.insert file _).lookup file = _
    rw [lookup_insert_ite, if_pos rfl]

/-- **A call that registers a file, or fails to.** -/
structure Refiled (hashes : Hashes) (tight : Prop) (index : LuaModuleIndex) (file : FileId)
    (index' : LuaModuleIndex) : Prop where
  views : Views hashes tight index'
  tidy : Tidy index → (Tidy index' ↔ leafKept index file = true)
  fresh : ∀ info, index'.fileModuleMap.lookup file = some info → exportFiles info = []
  config : index'.config = index.config

theorem registered_addModuleByModulePath (h : Views hashes tight index) (file : FileId)
    (path : Text)
    (workspace : WorkspaceId) (hids : idsLeft index path = true) :
    Registered hashes tight (index.unregistered hashes file) file path workspace
      (index.addModuleByModulePath hashes file path workspace) := by
  have hfile := unregistered_spec h file
  apply registered_fileModule hfile.views hfile.none'
  unfold idsLeft
  rw [hfile.ids]
  exact hids

theorem refiled_addModuleByModulePath (h : Views hashes tight index) (file : FileId) (path : Text)
    (workspace : WorkspaceId) (hids : idsLeft index path = true) :
    Refiled hashes tight index file (index.addModuleByModulePath hashes file path workspace) := by
  have hfile := unregistered_spec h file
  have hregistered := registered_addModuleByModulePath h file path workspace hids
  refine ⟨hregistered.views, ?_, ?_, hregistered.config.trans hfile.config⟩
  · exact fun htidy => hregistered.tidy.trans (hfile.tidy htidy)
  · intro info hinfo
    obtain ⟨id, hid⟩ := hregistered.record
    rw [hid] at hinfo
    cases hinfo
    rfl

theorem unregistered_of_none (hnone : index.fileModuleMap.lookup file = none) :
    index.unregistered hashes file = index := by
  unfold unregistered
  rw [hnone]
  rfl

theorem refiled_addModuleByPath (h : Views hashes tight index) (file : FileId) (path : Text)
    (hids : ∀ registered ∈ index.config.modulePathAt (toSlashes path),
      idsLeft index registered.1 = true) :
    Refiled hashes tight index file (index.addModuleByPath hashes file path) := by
  have hfile := unregistered_spec h file
  cases hat : index.config.modulePathAt (toSlashes path) with
  | none =>
    have hrun : index.addModuleByPath hashes file path = index.unregistered hashes file := by
      unfold addModuleByPath
      dsimp only
      rw [hfile.config, hat]
    rw [hrun]
    refine ⟨hfile.views, hfile.tidy, ?_, hfile.config⟩
    intro info hinfo
    rw [hfile.none'] at hinfo
    cases hinfo
  | some registered =>
    obtain ⟨modulePath, workspace⟩ := registered
    have hrun : index.addModuleByPath hashes file path =
        { (index.unregistered hashes file).addModuleByModulePath hashes file modulePath
            workspace with
          fileModulePaths := ((index.unregistered hashes file).addModuleByModulePath hashes file
            modulePath workspace).fileModulePaths.insert file (toSlashes path) } := by
      unfold addModuleByPath
      dsimp only
      rw [hfile.config, hat]
    have hids' : idsLeft (index.unregistered hashes file) modulePath = true := by
      unfold idsLeft
      rw [hfile.ids]
      exact hids (modulePath, workspace) hat
    have hregistered :=
      registered_addModuleByModulePath hfile.views file modulePath workspace hids'
    rw [unregistered_of_none hfile.none'] at hregistered
    obtain ⟨id, hrecord⟩ := hregistered.record
    rw [hrun]
    refine ⟨⟨hregistered.views.forest, hregistered.views.placed, hregistered.views.named,
      hregistered.views.linked, hregistered.views.counted, ?_⟩, ?_, ?_,
      hregistered.config.trans hfile.config⟩
    · intro htight other otherPath hpath
      obtain ⟨heq, rfl⟩ | ⟨-, hpath⟩ := lookup_insert_some hpath
      · refine ⟨_, by rw [heq]; exact hrecord, ?_⟩
        rw [fullModuleName_moduleInfoOf]
        show ((index.unregistered hashes file).addModuleByModulePath hashes file modulePath
          workspace).config.modulePathAt (toSlashes path) = some (modulePath, workspace)
        rw [hregistered.config, hfile.config]
        exact hat
      · exact hregistered.views.pathed htight other otherPath hpath
    · exact fun htidy => hregistered.tidy.trans (hfile.tidy htidy)
    · intro info hinfo
      have hinfo' : ((index.unregistered hashes file).addModuleByModulePath hashes file
        modulePath workspace).fileModuleMap.lookup file = some info := hinfo
      rw [hrecord] at hinfo'
      cases hinfo'
      rfl

theorem repathModule_of_none (hpath : index.fileModulePaths.lookup file = none) (path : Text) :
    index.repathModule hashes file path = index := by
  unfold repathModule
  rw [hpath]
  rfl

theorem repathModule_of_unfiled (hnone : index.fileModuleMap.lookup file = none) (path : Text) :
    index.repathModule hashes file path = index := by
  unfold repathModule
  rw [hnone]
  split
  · rfl
  · rfl

theorem repathModule_of_some {old : Text} (hpath : index.fileModulePaths.lookup file = some old)
    {declared : ModuleInfo} (hdeclared : index.fileModuleMap.lookup file = some declared)
    (path : Text) :
    index.repathModule hashes file path =
      (((index.addModuleByPath hashes file path).modifyInfo file
        (declareAs declared)).relinkExport file []).restoreEnvs file
          (index.legacyModuleEnvs.lookup file) := by
  unfold repathModule
  rw [hpath, hdeclared]
  rfl

theorem Views.restoreEnvs (h : Views hashes tight index) (envs : Option (List LegacyModuleEnv)) :
    Views hashes tight (index.restoreEnvs file envs) := by
  cases envs with
  | none => exact h
  | some envs => exact ⟨h.forest, h.placed, h.named, h.linked, h.counted, h.pathed⟩

theorem restoreEnvs_moduleNodes (envs : Option (List LegacyModuleEnv)) :
    (index.restoreEnvs file envs).moduleNodes = index.moduleNodes := by
  cases envs <;> rfl

/-- **Re-pathing**, of a file that was registered from a path. -/
theorem views_repathModule (h : Views hashes tight index) (file : FileId) (path : Text)
    (hids : ∀ registered ∈ index.config.modulePathAt (toSlashes path),
      idsLeft index registered.1 = true) :
    Views hashes tight (index.repathModule hashes file path) := by
  cases hpath : index.fileModulePaths.lookup file with
  | none =>
    rw [repathModule_of_none hpath]
    exact h
  | some old =>
    cases hdeclared : index.fileModuleMap.lookup file with
    | none =>
      rw [repathModule_of_unfiled hdeclared]
      exact h
    | some declared =>
      have hadded := refiled_addModuleByPath h file path hids
      rw [repathModule_of_some hpath hdeclared]
      apply Views.restoreEnvs
      cases hnew : (index.addModuleByPath hashes file path).fileModuleMap.lookup file with
      | none =>
        rw [modifyInfo_of_none _ hnew]
        refine ⟨hadded.views.forest, hadded.views.placed, hadded.views.named, ?_,
          hadded.views.counted, hadded.views.pathed⟩
        intro htight
        apply LinkedBut.relink
        have hlinked := hadded.views.linked htight
        refine ⟨hlinked.noEmpty, ?_, fun named other _ => hlinked.holds named other⟩
        intro named
        rw [hlinked.holds, hnew]
        simp
      | some info =>
        have hrelinked := hadded.views.modify_relink (declareAs declared) hnew
          ⟨rfl, rfl, rfl, rfl, rfl⟩
        rw [hadded.fresh info hnew] at hrelinked
        exact hrelinked

theorem repathModule_config (h : Views hashes tight index) (file : FileId) (path : Text)
    (hids : ∀ registered ∈ index.config.modulePathAt (toSlashes path),
      idsLeft index registered.1 = true) :
    (index.repathModule hashes file path).config = index.config := by
  cases hpath : index.fileModulePaths.lookup file with
  | none => rw [repathModule_of_none hpath]
  | some old =>
    cases hdeclared : index.fileModuleMap.lookup file with
    | none => rw [repathModule_of_unfiled hdeclared]
    | some declared =>
      have hadded : ((index.addModuleByPath hashes file path).modifyInfo file
          (declareAs declared)).config = index.config :=
        (modifyInfo_config _).trans (refiled_addModuleByPath h file path hids).config
      rw [repathModule_of_some hpath hdeclared]
      cases index.legacyModuleEnvs.lookup file with
      | none => exact hadded
      | some envs => exact hadded

theorem tidy_repathModule_iff (h : Views hashes tight index) (htidy : Tidy index) (file : FileId)
    (path : Text) (hids : ∀ registered ∈ index.config.modulePathAt (toSlashes path),
      idsLeft index registered.1 = true) :
    Tidy (index.repathModule hashes file path) ↔
      ((index.fileModulePaths.lookup file).isSome → leafKept index file = true) := by
  cases hpath : index.fileModulePaths.lookup file with
  | none =>
    rw [repathModule_of_none hpath]
    constructor
    · intro _ hsome
      cases hsome
    · exact fun _ => htidy
  | some old =>
    cases hdeclared : index.fileModuleMap.lookup file with
    | none =>
      rw [repathModule_of_unfiled hdeclared]
      refine ⟨fun _ _ => ?_, fun _ => htidy⟩
      unfold leafKept
      rw [hdeclared]
    | some declared =>
      have hadded := refiled_addModuleByPath h file path hids
      rw [repathModule_of_some hpath hdeclared]
      unfold Tidy
      rw [restoreEnvs_moduleNodes]
      have hnodes : (((index.addModuleByPath hashes file path).modifyInfo file
          (declareAs declared)).relinkExport file []).moduleNodes =
            (index.addModuleByPath hashes file path).moduleNodes := modifyInfo_moduleNodes _
      rw [hnodes]
      exact (hadded.tidy htidy).trans ⟨fun hleaf _ => hleaf, fun himp => himp rfl⟩

open GluaLs.Lib.LabelledRuns

/-! ## §5. What a call asks for

  A call that registers a file needs an id for every part of the path it registers (`hasIds`).
  That is all the tree, the names and the sum need.  The reverse links need more of a remap:
  it has to leave an export naming the files it named (`keepsExports`).
-/

/-- The module path a call registers a file under. -/
def registers (index : LuaModuleIndex) : Label → Option Text
  | .addModuleByPath _ path | .repathModule _ path =>
    (index.config.modulePathAt (toSlashes path)).map Prod.fst
  | .addModuleByModulePath _ path _ => some path
  | _ => none

/-- There are ids for what is registered. -/
def hasIds (index : LuaModuleIndex) (label : Label) : Bool :=
  (registers index label).all fun path => idsLeft index path

/-- Remapped exports name the files they named. -/
def keepsExports (hashes : Hashes) (index : LuaModuleIndex) : Label → Bool
  | .remapFileExports remap => exportsKept hashes index remap
  | _ => true

/-! ## §6. Steps -/

theorem idsLeft_of_hasIds {label : Label} {registered : Option (Text × WorkspaceId)}
    (h : hasIds index label = true) (hpath : registers index label = registered.map Prod.fst) :
    ∀ r ∈ registered, idsLeft index r.1 = true := by
  intro r hr
  unfold hasIds at h
  rw [Option.mem_def] at hr
  rw [hpath, hr] at h
  exact h

/-- **A step keeps the views.** -/
theorem views_step {index' : LuaModuleIndex} {label : Label} (h : Views hashes tight index)
    (hids : hasIds index label = true) (hkept : tight → keepsExports hashes index label = true)
    (hstep : step hashes index label = some index') : Views hashes tight index' := by
  cases label <;> cases hstep
  case addModuleByPath file path =>
    exact (refiled_addModuleByPath h file path (idsLeft_of_hasIds hids rfl)).views
  case addModuleByModulePath file path workspace =>
    exact (refiled_addModuleByModulePath h file path workspace hids).views
  case repathModule file path =>
    exact views_repathModule h file path (idsLeft_of_hasIds hids rfl)
  case setExport file exportType semanticId =>
    exact views_setExport h exportType semanticId
  case resetExport file =>
    exact views_resetExport h
  case remapFileExports remap =>
    exact views_remapFileExports h remap hkept
  case setModuleVisibility | setModuleVersionConds | setMeta =>
    exact h.modify _ (fun _ _ => ⟨rfl, rfl, rfl, rfl, rfl⟩) fun _ _ _ _ => .rfl
  case setLegacyModuleEnv file env =>
    exact ⟨h.forest, h.placed, h.named, h.linked, h.counted, h.pathed⟩
  case remove file =>
    exact views_remove h file

/-- No call changes the configuration. -/
theorem config_step {index' : LuaModuleIndex} {label : Label} (h : Views hashes tight index)
    (hids : hasIds index label = true)
    (hstep : step hashes index label = some index') : index'.config = index.config := by
  cases label <;> cases hstep
  case addModuleByPath file path =>
    exact (refiled_addModuleByPath h file path (idsLeft_of_hasIds hids rfl)).config
  case addModuleByModulePath file path workspace =>
    exact (refiled_addModuleByModulePath h file path workspace hids).config
  case repathModule file path =>
    exact repathModule_config h file path (idsLeft_of_hasIds hids rfl)
  case setExport file exportType semanticId =>
    unfold setExport
    cases index.fileModuleMap.lookup file with
    | none => rfl
    | some info =>
      dsimp only
      split
      · rfl
      · exact modifyInfo_config _
  case resetExport file =>
    unfold resetExport
    cases index.fileModuleMap.lookup file with
    | none => rfl
    | some info => exact modifyInfo_config _
  case remapFileExports remap =>
    exact remapFileExports_config remap
  case setModuleVisibility | setModuleVersionConds | setMeta =>
    exact modifyInfo_config _
  case setLegacyModuleEnv file env =>
    rfl
  case remove file =>
    exact remove_config file

/-- Every call can be made. -/
theorem exists_run (hashes : Hashes) (labels : List Label) :
    ∀ index : LuaModuleIndex, ∃ index', run (step hashes) labels index = some index' := by
  induction labels with
  | nil => exact fun index => ⟨index, rfl⟩
  | cons label labels ih =>
    intro index
    obtain ⟨next, hnext⟩ : ∃ next, step hashes index label = some next := by
      cases label <;> exact ⟨_, rfl⟩
    obtain ⟨index', hrun⟩ := ih next
    exact ⟨index', by rw [run_cons, hnext]; exact hrun⟩

end GluaLs.Modules
