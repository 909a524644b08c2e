/-
  GluaLs.Modules.Views — the views of the module index agree.

  What the index knows of a module is its record, under the file (`fileModuleMap`).  Every
  other map is a VIEW of the records:

    • `Placed` — the tree lists a file where the module's path leads, and nowhere else,
    • `Named` — the files by the last part of their paths,
    • `LinkedRefs` — a file, and who names it in an export,
    • `Counted` — the running sum,
    • `Pathed` — the path a module was registered from says what it is.

  `Views` puts them together.  Here each view is shown to be kept by what is done to it when a
  record comes, goes or is rewritten.
-/
import GluaLs.Modules.Grow

namespace GluaLs.Modules

open GluaLs.Lib GluaLs.Lib.Buckets GluaLs.Lib.Walks GluaLs.Types GluaLs.Edit LuaModuleIndex

/-! ## §1. The views -/

/-- The records, by file. -/
abbrev Records : Type := HashMap FileId ModuleInfo

/-- The node lists what is filed under its path. -/
structure Placed (nodes : HashMap ModuleNodeId ModuleNode) (modules : Records) : Prop where
  own : ∀ file info, modules.lookup file = some info → info.fileId = file
  named : ∀ file info, modules.lookup file = some info →
    info.name = (moduleParts info.fullModuleName).getLastD []
  sited : ∀ file info, modules.lookup file = some info →
    site nodes (moduleParts info.fullModuleName) = some info.moduleId
  once : ∀ path, (filesAt nodes path).Nodup
  listed : ∀ path file, file ∈ filesAt nodes path ↔
    ∃ info, modules.lookup file = some info ∧ moduleParts info.fullModuleName = path

/-- The files of a name. -/
structure Named (names : HashMap Text (List FileId)) (modules : Records) : Prop where
  noEmpty : NoEmpty names
  once : ∀ name, (listOf names name).Nodup
  listed : ∀ name file, file ∈ listOf names name ↔
    ∃ info, modules.lookup file = some info ∧ info.name = name

/-- The files an export names, from the other side. -/
structure LinkedRefs (refs : HashMap FileId (HashSet FileId)) (modules : Records) : Prop where
  noEmpty : NoEmpty refs
  holds : ∀ named file, Holds refs named file ↔
    ∃ info, modules.lookup file = some info ∧ named ∈ exportFiles info

/-- The recount of `module_files`. -/
def recount (hashes : Hashes) (modules : Records) : BitVec 64 :=
  sumOf (fun info => hashes.entry (moduleFilesEntry info)) modules

/-- A module registered from a path is what the path says. -/
def Pathed (config : Config) (paths : HashMap FileId Text) (modules : Records) : Prop :=
  ∀ file path, paths.lookup file = some path →
    ∃ info, modules.lookup file = some info ∧
      config.modulePathAt path = some (info.fullModuleName, info.workspaceId)

/-- **The views agree.**  What is said of exports and of registered paths is asked for in
    `tight` runs only. -/
structure Views (hashes : Hashes) (tight : Prop) (index : LuaModuleIndex) : Prop where
  forest : Forest index.moduleNodes index.idCounter none
  placed : Placed index.moduleNodes index.fileModuleMap
  named : Named index.moduleNameToFileIds index.fileModuleMap
  linked : tight → LinkedRefs index.exportRefs index.fileModuleMap
  counted : index.moduleFiles = recount hashes index.fileModuleMap
  pathed : tight → Pathed index.config index.fileModulePaths index.fileModuleMap

theorem views_new (hashes : Hashes) (tight : Prop) (config : Config) :
    Views hashes tight (LuaModuleIndex.new config) := by
  have hnone : ∀ file info, (∅ : Records).lookup file ≠ some info := by
    intro file info h
    cases h
  have hfiles : ∀ path, filesAt (LuaModuleIndex.new config).moduleNodes path = [] := by
    intro path
    cases hat : site (LuaModuleIndex.new config).moduleNodes path with
    | none => exact filesAt_of_site_none hat
    | some id =>
      have hroot := hat.symm.trans (site_new path)
      split at hroot
      · have hnode : (LuaModuleIndex.new config).moduleNodes.lookup id =
            some ModuleNode.default := by
          rw [Option.some.inj hroot]
          exact AList.lookup_insert _
        exact filesAt_of_site hat hnode
      · cases hroot
  refine ⟨forest_new, ⟨?_, ?_, ?_, ?_, ?_⟩, ⟨noEmpty_empty, ?_, ?_⟩,
    fun _ => ⟨noEmpty_empty, ?_⟩, rfl, fun _ => ?_⟩
  · exact fun file info h => absurd h (hnone file info)
  · exact fun file info h => absurd h (hnone file info)
  · exact fun file info h => absurd h (hnone file info)
  · intro path
    rw [hfiles]
    exact List.nodup_nil
  · intro path file
    rw [hfiles]
    exact ⟨nofun, fun ⟨info, h, _⟩ => absurd h (hnone file info)⟩
  · exact fun name => List.nodup_nil
  · exact fun name file =>
      ⟨nofun, fun ⟨info, h, _⟩ => absurd h (hnone file info)⟩
  · exact fun named file =>
      ⟨fun h => absurd h (not_holds_empty named file),
        fun ⟨info, h, _⟩ => absurd h (hnone file info)⟩
  · intro file path h
    cases h

/-! ## §2. A record is rewritten -/

/-- A record that says the same of where the module is. -/
structure SamePlace (info info' : ModuleInfo) : Prop where
  file : info'.fileId = info.fileId
  full : info'.fullModuleName = info.fullModuleName
  name : info'.name = info.name
  node : info'.moduleId = info.moduleId
  workspace : info'.workspaceId = info.workspaceId

section

variable {modules : Records} {file : FileId} {info info' : ModuleInfo}

/-- What a record says of a module's place is not changed by rewriting it. -/
theorem exists_insert_iff (hold : modules.lookup file = some info) (P : ModuleInfo → Prop)
    (hP : P info' ↔ P info) (other : FileId) :
    (∃ i, (modules.insert file info').lookup other = some i ∧ P i) ↔
      ∃ i, modules.lookup other = some i ∧ P i := by
  rw [lookup_insert_ite]
  by_cases heq : other = file
  · rw [if_pos heq, heq, hold]
    simp [hP]
  · rw [if_neg heq]

theorem Placed.rewrite {nodes : HashMap ModuleNodeId ModuleNode} (h : Placed nodes modules)
    (hold : modules.lookup file = some info) (hsame : SamePlace info info') :
    Placed nodes (modules.insert file info') := by
  have hcases : ∀ other i, (modules.insert file info').lookup other = some i →
      ∃ j, modules.lookup other = some j ∧ SamePlace j i := by
    intro other i hi
    obtain ⟨rfl, rfl⟩ | ⟨-, hi⟩ := lookup_insert_some hi
    · exact ⟨info, hold, hsame⟩
    · exact ⟨i, hi, rfl, rfl, rfl, rfl, rfl⟩
  refine ⟨?_, ?_, ?_, h.once, ?_⟩
  · intro other i hi
    obtain ⟨j, hj, hji⟩ := hcases other i hi
    rw [hji.file]
    exact h.own other j hj
  · intro other i hi
    obtain ⟨j, hj, hji⟩ := hcases other i hi
    rw [hji.name, hji.full]
    exact h.named other j hj
  · intro other i hi
    obtain ⟨j, hj, hji⟩ := hcases other i hi
    rw [hji.full, hji.node]
    exact h.sited other j hj
  · intro path other
    rw [h.listed]
    exact (exists_insert_iff hold (fun i => moduleParts i.fullModuleName = path)
      (by rw [hsame.full]) other).symm

theorem Named.rewrite {names : HashMap Text (List FileId)} (h : Named names modules)
    (hold : modules.lookup file = some info) (hsame : SamePlace info info') :
    Named names (modules.insert file info') := by
  refine ⟨h.noEmpty, h.once, ?_⟩
  intro name other
  rw [h.listed]
  exact (exists_insert_iff hold (fun i => i.name = name) (by rw [hsame.name]) other).symm

theorem LinkedRefs.rewrite {refs : HashMap FileId (HashSet FileId)} (h : LinkedRefs refs modules)
    (hold : modules.lookup file = some info)
    (hsame : ∀ named, named ∈ exportFiles info' ↔ named ∈ exportFiles info) :
    LinkedRefs refs (modules.insert file info') := by
  refine ⟨h.noEmpty, ?_⟩
  intro named other
  rw [h.holds]
  exact (exists_insert_iff hold (fun i => named ∈ exportFiles i) (hsame named) other).symm

theorem recount_rewrite (hashes : Hashes) (hold : modules.lookup file = some info)
    (hsame : SamePlace info info') :
    recount hashes (modules.insert file info') = recount hashes modules := by
  apply sumOf_insert_same _ _ _ info _ hold
  show hashes.entry (info'.fileId, info'.fullModuleName, info'.workspaceId) = _
  rw [hsame.file, hsame.full, hsame.workspace]
  rfl

theorem Pathed.rewrite {config : Config} {paths : HashMap FileId Text}
    (h : Pathed config paths modules) (hold : modules.lookup file = some info)
    (hsame : SamePlace info info') : Pathed config paths (modules.insert file info') := by
  intro other path hpath
  exact (exists_insert_iff hold
    (fun i => config.modulePathAt path = some (i.fullModuleName, i.workspaceId))
    (by rw [hsame.full, hsame.workspace]) other).2 (h other path hpath)

end

/-! ## §3. Exports are linked again -/

/-- The links are right but for one file, which is still filed under `linked`. -/
structure LinkedBut (refs : HashMap FileId (HashSet FileId)) (modules : Records)
    (file : FileId) (linked : List FileId) : Prop where
  noEmpty : NoEmpty refs
  self : ∀ named, Holds refs named file ↔ named ∈ linked
  others : ∀ named other, other ≠ file → (Holds refs named other ↔
    ∃ info, modules.lookup other = some info ∧ named ∈ exportFiles info)

/-- **`relink_export` puts one file right.** -/
theorem LinkedBut.relink {index : LuaModuleIndex} {file : FileId} {linked : List FileId}
    (h : LinkedBut index.exportRefs index.fileModuleMap file linked) :
    LinkedRefs (index.relinkExport file linked).exportRefs index.fileModuleMap := by
  have hnamed : ∀ named, named ∈ ((index.fileModuleMap.lookup file).map exportFiles).getD [] ↔
      ∃ info, index.fileModuleMap.lookup file = some info ∧ named ∈ exportFiles info := by
    intro named
    cases index.fileModuleMap.lookup file with
    | none => simp
    | some info => simp
  refine ⟨noEmpty_foldl_addTo _ _ _ (noEmpty_foldl_removeFrom _ _ _ h.noEmpty), ?_⟩
  intro named other
  unfold relinkExport
  rw [holds_foldl_addTo, holds_foldl_removeFrom]
  simp only [List.mem_filter, decide_eq_true_eq]
  by_cases heq : other = file
  · rw [heq, h.self, ← hnamed]
    by_cases hlinked : named ∈ linked
    · by_cases hnow : named ∈ ((index.fileModuleMap.lookup file).map exportFiles).getD []
      · simp [hlinked, hnow]
      · simp [hlinked, hnow]
    · simp [hlinked]
  · rw [h.others named other heq]
    simp [heq]

theorem LinkedRefs.but {refs : HashMap FileId (HashSet FileId)} {modules : Records}
    (h : LinkedRefs refs modules) {file : FileId} {info info' : ModuleInfo}
    (hold : modules.lookup file = some info) :
    LinkedBut refs (modules.insert file info') file (exportFiles info) := by
  refine ⟨h.noEmpty, ?_, ?_⟩
  · intro named
    rw [h.holds, hold]
    simp
  · intro named other hne
    rw [h.holds, lookup_insert_ite, if_neg hne]

theorem LinkedRefs.but_erase {refs : HashMap FileId (HashSet FileId)} {modules : Records}
    (h : LinkedRefs refs modules) {file : FileId} {info : ModuleInfo}
    (hold : modules.lookup file = some info) :
    LinkedBut refs (modules.erase file) file (exportFiles info) := by
  refine ⟨h.noEmpty, ?_, ?_⟩
  · intro named
    rw [h.holds, hold]
    simp
  · intro named other hne
    rw [h.holds, lookup_erase_ite, if_neg hne]

/-! ## §4. A record goes -/

section

variable {modules : Records} {file : FileId} {info : ModuleInfo}

theorem exists_erase_iff (P : ModuleInfo → Prop) (other : FileId) :
    (∃ i, (modules.erase file).lookup other = some i ∧ P i) ↔
      other ≠ file ∧ ∃ i, modules.lookup other = some i ∧ P i := by
  rw [lookup_erase_ite]
  by_cases heq : other = file
  · rw [if_pos heq]
    simp [heq]
  · rw [if_neg heq]
    simp [heq]

/-- Every file is listed once, under the key of its record. -/
structure ListedBy {κ : Type} (key : ModuleInfo → κ) (files : κ → List FileId)
    (modules : Records) : Prop where
  once : ∀ k, (files k).Nodup
  listed : ∀ k file, file ∈ files k ↔ ∃ info, modules.lookup file = some info ∧ key info = k

theorem ListedBy.erase {κ : Type} [DecidableEq κ] {key : ModuleInfo → κ}
    {files files' : κ → List FileId} (h : ListedBy key files modules)
    (hold : modules.lookup file = some info) (hfiles : ∀ k, files' k =
      if k = key info then (files (key info)).filter fun id => id ≠ file else files k) :
    ListedBy key files' (modules.erase file) := by
  constructor
  · intro k
    rw [hfiles]
    split
    · exact (h.once _).filter _
    · exact h.once k
  · intro k other
    rw [exists_erase_iff (fun i => key i = k), hfiles]
    by_cases hk : k = key info
    · rw [if_pos hk, List.mem_filter, h.listed, ← hk, and_comm]
      simp
    · rw [if_neg hk, h.listed]
      refine ⟨fun hi => ⟨?_, hi⟩, And.right⟩
      rintro rfl
      obtain ⟨i, hi, hik⟩ := hi
      rw [hold] at hi
      rw [← Option.some.inj hi] at hik
      exact hk hik.symm

/-- **The file leaves the tree.** -/
theorem Placed.erase {nodes nodes' : HashMap ModuleNodeId ModuleNode} {counter : Nat}
    (h : Placed nodes modules)
    (hnodes : Unfiled nodes nodes' counter file (moduleParts info.fullModuleName) info.moduleId)
    (hold : modules.lookup file = some info) : Placed nodes' (modules.erase file) := by
  have hcases : ∀ other i, (modules.erase file).lookup other = some i →
      other ≠ file ∧ modules.lookup other = some i := by
    intro other i hi
    exact lookup_erase_some hi
  have hlists : ListedBy (fun i => moduleParts i.fullModuleName) _ (modules.erase file) :=
    .erase ⟨h.once, h.listed⟩ hold hnodes.files
  refine ⟨?_, ?_, ?_, hlists.once, hlists.listed⟩
  · exact fun other i hi => h.own other i (hcases other i hi).2
  · exact fun other i hi => h.named other i (hcases other i hi).2
  · -- a node that lists another file is still where it was
    intro other i hi
    have hmem := (hlists.listed (moduleParts i.fullModuleName) other).2 ⟨i, hi, rfl⟩
    cases hat : site nodes' (moduleParts i.fullModuleName) with
    | none =>
      rw [filesAt_of_site_none hat] at hmem
      cases hmem
    | some id =>
      rw [← h.sited other i (hcases other i hi).2]
      exact (hnodes.sites _ id hat).symm

theorem Named.erase {names : HashMap Text (List FileId)} (h : Named names modules)
    (hold : modules.lookup file = some info) :
    Named (retainIn names info.name fun id => id ≠ file) (modules.erase file) := by
  have hlists : ListedBy ModuleInfo.name _ (modules.erase file) :=
    .erase ⟨h.once, h.listed⟩ hold (listOf_retainIn names info.name _)
  exact ⟨noEmpty_retainIn h.noEmpty _ _, hlists.once, hlists.listed⟩

theorem Pathed.erase {config : Config} {paths : HashMap FileId Text}
    (h : Pathed config paths modules) :
    Pathed config (paths.erase file) (modules.erase file) := by
  intro other path hpath
  obtain ⟨hne, hpath⟩ := lookup_erase_some hpath
  exact (exists_erase_iff (fun i => config.modulePathAt path =
    some (i.fullModuleName, i.workspaceId)) other).2 ⟨hne, h other path hpath⟩

end

/-! ## §5. A record comes -/

section

variable {modules : Records} {file : FileId} {info : ModuleInfo}

theorem exists_insert_new_iff (hnone : modules.lookup file = none) (P : ModuleInfo → Prop)
    (other : FileId) :
    (∃ i, (modules.insert file info).lookup other = some i ∧ P i) ↔
      (∃ i, modules.lookup other = some i ∧ P i) ∨ other = file ∧ P info := by
  rw [lookup_insert_ite]
  by_cases heq : other = file
  · rw [if_pos heq, heq, hnone]
    simp
  · rw [if_neg heq]
    simp [heq]

theorem ListedBy.insert {κ : Type} [DecidableEq κ] {key : ModuleInfo → κ}
    {files files' : κ → List FileId} (h : ListedBy key files modules)
    (hnone : modules.lookup file = none) (hfiles : ∀ k, files' k =
      if k = key info then files (key info) ++ [file] else files k) :
    ListedBy key files' (modules.insert file info) := by
  constructor
  · intro k
    rw [hfiles]
    split
    · apply (h.once _).append (List.nodup_singleton file)
      intro other hmem heq
      rw [List.mem_singleton.1 heq, h.listed, hnone] at hmem
      obtain ⟨i, hi, -⟩ := hmem
      cases hi
    · exact h.once k
  · intro k other
    rw [exists_insert_new_iff hnone (fun i => key i = k), hfiles]
    by_cases hk : k = key info
    · rw [if_pos hk, List.mem_append, h.listed, List.mem_singleton, ← hk]
      simp
    · rw [if_neg hk, h.listed]
      simp [Ne.symm hk]

/-- **The file joins the tree.** -/
theorem Placed.insert {nodes nodes' : HashMap ModuleNodeId ModuleNode} {counter : Nat}
    (h : Placed nodes modules)
    (hnodes : Listed nodes nodes' counter file (moduleParts info.fullModuleName) info.moduleId)
    (hnone : modules.lookup file = none) (hfile : info.fileId = file)
    (hname : info.name = (moduleParts info.fullModuleName).getLastD []) :
    Placed nodes' (modules.insert file info) := by
  have hcases : ∀ other i, (modules.insert file info).lookup other = some i →
      (other = file ∧ i = info) ∨ modules.lookup other = some i := by
    intro other i hi
    obtain ⟨heq, rfl⟩ | ⟨-, hi⟩ := lookup_insert_some hi
    · exact .inl ⟨heq, rfl⟩
    · exact .inr hi
  have hlists : ListedBy (fun i => moduleParts i.fullModuleName) _ (modules.insert file info) :=
    .insert ⟨h.once, h.listed⟩ hnone hnodes.files
  refine ⟨?_, ?_, ?_, hlists.once, hlists.listed⟩
  · intro other i hi
    obtain ⟨heq, rfl⟩ | hi := hcases other i hi
    · rw [heq]
      exact hfile
    · exact h.own other i hi
  · intro other i hi
    obtain ⟨-, rfl⟩ | hi := hcases other i hi
    · exact hname
    · exact h.named other i hi
  · intro other i hi
    obtain ⟨-, rfl⟩ | hi := hcases other i hi
    · exact hnodes.at'
    · exact hnodes.sites _ _ (h.sited other i hi)

theorem Named.insert {names : HashMap Text (List FileId)} (h : Named names modules)
    (hnone : modules.lookup file = none) :
    Named (pushTo names info.name file) (modules.insert file info) := by
  have hlists : ListedBy ModuleInfo.name _ (modules.insert file info) :=
    .insert ⟨h.once, h.listed⟩ hnone (listOf_pushTo names info.name file)
  exact ⟨noEmpty_pushTo h.noEmpty _ _, hlists.once, hlists.listed⟩

/-- A module that exports nothing yet is linked nowhere. -/
theorem LinkedRefs.insert {refs : HashMap FileId (HashSet FileId)} (h : LinkedRefs refs modules)
    (hnone : modules.lookup file = none) (hexport : exportFiles info = []) :
    LinkedRefs refs (modules.insert file info) := by
  refine ⟨h.noEmpty, ?_⟩
  intro named other
  rw [exists_insert_new_iff hnone (fun i => named ∈ exportFiles i), h.holds, hexport]
  simp

theorem recount_insert (hashes : Hashes) (hnone : modules.lookup file = none) :
    recount hashes (modules.insert file info) =
      recount hashes modules + hashes.entry (moduleFilesEntry info) :=
  sumOf_insert_new _ _ _ _ hnone

theorem Pathed.insert {config : Config} {paths : HashMap FileId Text}
    (h : Pathed config paths modules) (hnone : modules.lookup file = none) :
    Pathed config paths (modules.insert file info) := by
  intro other path hpath
  exact (exists_insert_new_iff hnone (fun i => config.modulePathAt path =
    some (i.fullModuleName, i.workspaceId)) other).2 (.inl (h other path hpath))

end

end GluaLs.Modules
