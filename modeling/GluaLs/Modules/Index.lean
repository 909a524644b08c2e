/-
  GluaLs.Modules.Index — the module index (`db_index/module/mod.rs`).

  Every file of a workspace is a MODULE under a dotted path.  The index keeps the modules as a
  tree of numbered nodes, one for each part of a path, and next to it

    • the modules by their last part,
    • the files a module's export names, from the side of the file named,
    • a running sum over all modules.

  A node is made when the first file below it comes, and pruned when the last one goes.
-/
import Mathlib.Data.BitVec
import Mathlib.Data.Char
import Mathlib.Data.List.DropRight
import GluaLs.Edit.TypeRemap
import GluaLs.Lib.Buckets
import GluaLs.Lib.LabelledRuns

namespace GluaLs.Modules

open GluaLs.Lib

/-! ## §1. Paths

  A file at a path belongs to the workspace whose root is above it, and registers under the
  DOTTED path a pattern reads off the rest.  Which of two workspaces a lookup prefers depends
  on their kinds and on the order they are configured in.
-/

/-- A string; strings are ordered by their characters. -/
abbrev Text : Type := List Char

/-- `module_path.split('.')` -/
def moduleParts (path : Text) : List Text := path.splitOn '.'

/-- `replace(['\\', '/'], ".")` -/
def toDots (path : Text) : Text := path.map fun c => if c = '\\' ∨ c = '/' then '.' else c

/-- `replace('\\', "/")` -/
def toSlashes (path : Text) : Text := path.map fun c => if c = '\\' then '/' else c

/-- `trim_end_matches('/')` -/
def trimSlashes (path : Text) : Text := path.rdropWhile fun c => c = '/'

/-- `str::len` -/
def utf8Len (text : Text) : Nat := (text.map fun c => c.utf8Size).sum

/-- `strip_prefix` -/
def stripPre (pre text : Text) : Option Text :=
  if pre.isPrefixOf text then some (text.drop pre.length) else none

/-- `strip_suffix` -/
def stripEnd (suffix text : Text) : Option Text :=
  if suffix.isSuffixOf text then some (text.take (text.length - suffix.length)) else none

def namespaceRoot (path : Text) : Text := ((moduleParts path).head?).getD path

def lookupName (path : Text) : Text :=
  ((path.splitOnP fun c => c = '.' || c = '/' || c = '\\').getLast?).getD path

/-! ## §2. Workspaces -/

inductive WorkspaceKind where
  | Std | Main | Remote | Library
  deriving DecidableEq

structure WorkspaceId where
  id : UInt32
  deriving DecidableEq

namespace WorkspaceId

def STD : WorkspaceId := ⟨0⟩

def MAIN : WorkspaceId := ⟨1⟩

def REMOTE : WorkspaceId := ⟨2⟩

end WorkspaceId

/-- `Workspace`; `filePrefix` is `root.file_prefix()`. -/
structure Workspace where
  root : Text
  filePrefix : Option Text
  id : WorkspaceId
  kind : WorkspaceKind
  deriving DecidableEq

/-- What the index is configured with.  A pattern is what its first group captures of a path,
    a replacement is what `replace_all` makes of it. -/
structure Config where
  modulePatterns : List (Text → Option Text)
  workspaces : List Workspace
  workspaceKindMap : HashMap WorkspaceId WorkspaceKind
  fuzzySearch : Bool
  moduleReplaceVec : List (Text → Text)
  workspaceIsolationEnabled : Bool

namespace Config

variable (config : Config)

def getWorkspaceKind (workspace : WorkspaceId) : WorkspaceKind :=
  match config.workspaceKindMap.lookup workspace with
  | some kind => kind
  | none =>
    if workspace = WorkspaceId.STD then .Std
    else if workspace = WorkspaceId.MAIN then .Main
    else if workspace = WorkspaceId.REMOTE then .Remote
    else .Library

def workspaceKindPriority (workspace : WorkspaceId) : Nat :=
  match config.getWorkspaceKind workspace with
  | .Main => 0
  | .Library => 1
  | .Std => 2
  | .Remote => 3

/-- `usize::MAX` -/
def usizeMax : Nat := 2 ^ 64 - 1

def workspaceOrderPriority (workspace : WorkspaceId) : Nat ×ₗ Nat :=
  toLex ((config.workspaces.findIdx? fun known => known.id = workspace).getD usizeMax,
    workspace.id.toNat)

def workspaceResolutionPriority (current candidate : WorkspaceId) : Option Nat :=
  if current = candidate then some 0
  else
    match config.getWorkspaceKind current, config.getWorkspaceKind candidate with
    | .Std, .Std => some 0
    | .Std, _ => none
    | .Main, .Main => if config.workspaceIsolationEnabled then none else some 0
    -- a library overrides the definitions of the standard one
    | .Main, .Library => some 1
    | .Main, .Std => some 2
    | .Main, .Remote => none
    | .Library, .Library => some 1
    | .Library, .Std => some 2
    | .Library, _ => none
    | .Remote, .Library => some 1
    | .Remote, .Std => some 2
    | .Remote, .Remote => some 3
    | .Remote, .Main => none

/-! ## §3. The module path of a file -/

def matchPattern (path : Text) : Option Text :=
  config.modulePatterns.findSome? fun pattern => pattern path

/-- What is left of a path below a root. -/
def relativeTo (root path : Text) : Option Text :=
  if path = root then some [] else stripPre (root ++ ['/']) path

/-- The loop of `extract_module_path`, given what the workspaces before matched. -/
def extractFrom (path : Text) : List Workspace → Option (Text × WorkspaceId) →
    Option (Text × WorkspaceId)
  | [], matched => matched
  | workspace :: workspaces, matched =>
    match relativeTo (trimSlashes (toSlashes workspace.root)) path with
    | none => extractFrom path workspaces matched
    | some relative =>
      match (if relative = [] then workspace.filePrefix else none) with
      | some fileName => some (fileName, workspace.id)
      | none =>
        match config.matchPattern relative, matched with
        | none, _ => extractFrom path workspaces matched
        | some modulePath, none =>
          extractFrom path workspaces (some (modulePath, workspace.id))
        | some modulePath, some (best, bestWorkspace) =>
          if utf8Len modulePath < utf8Len best then
            -- a library may lie inside the main workspace
            extractFrom path workspaces (some (modulePath,
              if workspace.kind = .Main then bestWorkspace else workspace.id))
          else extractFrom path workspaces matched

def extractModulePath (path : Text) : Option (Text × WorkspaceId) :=
  config.extractFrom (trimSlashes (toSlashes path)) config.workspaces none

def replaceModulePath (path : Text) : Text :=
  config.moduleReplaceVec.foldl (fun path replace => replace path) path

def modulePathAt (path : Text) : Option (Text × WorkspaceId) :=
  (config.extractModulePath path).map fun extracted =>
    (if config.moduleReplaceVec.isEmpty then toDots extracted.1
      else config.replaceModulePath (toDots extracted.1), extracted.2)

end Config

/-! ## §4. Splitting and joining -/

/-- The parts of a path say what the path is. -/
theorem join_moduleParts (path : Text) : ['.'].intercalate (moduleParts path) = path :=
  List.intercalate_splitOn '.'

theorem moduleParts_inj (path path' : Text) (h : moduleParts path = moduleParts path') :
    path = path' := by
  rw [← join_moduleParts path, h, join_moduleParts]

theorem moduleParts_ne_nil (path : Text) : moduleParts path ≠ [] := List.splitOn_ne_nil '.' path

open GluaLs.Lib.Buckets GluaLs.Types GluaLs.Edit

/-! ## §5. Nodes and modules -/

/-- `ModuleNodeId`, a `u32` -/
abbrev ModuleNodeId : Type := Nat

structure ModuleNode where
  parent : Option ModuleNodeId
  children : HashMap Text ModuleNodeId
  fileIds : List FileId

def ModuleNode.default : ModuleNode := ⟨none, ∅, []⟩

/-- Nothing is filed at the node or below it. -/
def ModuleNode.isEmpty (node : ModuleNode) : Bool :=
  node.fileIds.isEmpty && node.children.entries.isEmpty

/-- `node.file_ids.retain(|id| *id != file)` -/
def ModuleNode.without (file : FileId) (node : ModuleNode) : ModuleNode :=
  { node with fileIds := node.fileIds.filter fun id => id ≠ file }

structure LuaVersionNumber where
  major : Nat
  minor : Nat
  patch : Nat
  deriving DecidableEq

inductive LuaVersionCondition where
  | Eq (version : LuaVersionNumber)
  | Gte (version : LuaVersionNumber)
  | Lte (version : LuaVersionNumber)
  deriving DecidableEq

structure ModuleInfo where
  fileId : FileId
  fullModuleName : Text
  name : Text
  moduleId : ModuleNodeId
  visible : Bool
  exportType : Option LuaType
  versionConds : Option (List LuaVersionCondition)
  workspaceId : WorkspaceId
  semanticId : Option LuaSemanticDeclId
  isMeta : Bool

structure LegacyModuleEnv where
  modulePath : Text
  activationPosition : Nat
  seeall : Bool
  deriving DecidableEq

/-- `export_files`: the files other than its own the export names. -/
def exportFiles (info : ModuleInfo) : List FileId :=
  (((info.exportType.map typeReferencedFiles).getD [] ++
    (info.semanticId.bind LuaSemanticDeclId.getFileId).toList).filter
      fun file => file ≠ info.fileId).dedup

def moduleFilesEntry (info : ModuleInfo) : FileId × Text × WorkspaceId :=
  (info.fileId, info.fullModuleName, info.workspaceId)

/-- How types and modules are hashed. -/
structure Hashes where
  types : Hashing
  entry : FileId × Text × WorkspaceId → BitVec 64

/-! ## §6. The index -/

structure LuaModuleIndex where
  config : Config
  moduleNodes : HashMap ModuleNodeId ModuleNode
  fileModuleMap : HashMap FileId ModuleInfo
  exportRefs : HashMap FileId (HashSet FileId)
  moduleFiles : BitVec 64
  fileModulePaths : HashMap FileId Text
  moduleNameToFileIds : HashMap Text (List FileId)
  legacyModuleEnvs : HashMap FileId (List LegacyModuleEnv)
  idCounter : Nat

def moduleRootId : ModuleNodeId := 0

namespace LuaModuleIndex

/-- `LuaModuleIndex::new`, configured -/
def new (config : Config) : LuaModuleIndex where
  config := config
  moduleNodes := (∅ : HashMap ModuleNodeId ModuleNode).insert moduleRootId ModuleNode.default
  fileModuleMap := ∅
  exportRefs := ∅
  moduleFiles := 0
  fileModulePaths := ∅
  moduleNameToFileIds := ∅
  legacyModuleEnvs := ∅
  idCounter := 1

def relinkExport (index : LuaModuleIndex) (file : FileId) (linked : List FileId) : LuaModuleIndex :=
  let named := ((index.fileModuleMap.lookup file).map exportFiles).getD []
  let unlinked := (linked.filter fun other => other ∉ named).foldl
    (fun refs other => removeFrom refs other file) index.exportRefs
  { index with
    exportRefs := (named.filter fun other => other ∉ linked).foldl
      (fun refs other => addTo refs other file) unlinked }

/-- `children.retain(|_, child_id| *child_id != child)` -/
def cutChild (child : ModuleNodeId) (node : ModuleNode) : ModuleNode :=
  { node with
    children := node.children.filterMapEntries fun _ id => if id = child then none else some id }

/-- The loop of `remove`: the edge to a node that is empty goes, and the node above it with it
    when nothing is left there.  Every round but the last removes a node, so as many rounds as
    there are nodes are enough. -/
def prune : Nat → HashMap ModuleNodeId ModuleNode → ModuleNodeId → ModuleNodeId →
    HashMap ModuleNodeId ModuleNode
  | 0, nodes, _, _ => nodes
  | rounds + 1, nodes, id, child =>
    match nodes.lookup id with
    | none => nodes
    | some node =>
      let node := cutChild child node
      if id = moduleRootId then nodes.insert id node
      else if node.isEmpty then
        match node.parent with
        | some parent => prune rounds (nodes.erase id) parent id
        | none => nodes.erase id
      else nodes.insert id node

/-- The file leaves its node, and the nodes left empty go. -/
def unfileNode (nodes : HashMap ModuleNodeId ModuleNode) (file : FileId)
    (moduleId : ModuleNodeId) : HashMap ModuleNodeId ModuleNode :=
  match nodes.lookup moduleId with
  | none => nodes
  | some node =>
    let node := node.without file
    let nodes := nodes.insert moduleId node
    if node.isEmpty then
      match node.parent with
      | some parent => prune nodes.entries.length nodes parent moduleId
      | none => nodes
    else nodes

def remove (hashes : Hashes) (index : LuaModuleIndex) (file : FileId) : LuaModuleIndex :=
  match index.fileModuleMap.lookup file with
  | none =>
    { index with
      legacyModuleEnvs := index.legacyModuleEnvs.erase file
      fileModulePaths := index.fileModulePaths.erase file }
  | some info =>
    let index := { index with
      moduleNameToFileIds := retainIn index.moduleNameToFileIds info.name fun id => id ≠ file
      fileModuleMap := index.fileModuleMap.erase file }
    let index := index.relinkExport file (exportFiles info)
    { index with
      moduleFiles := index.moduleFiles - hashes.entry (moduleFilesEntry info)
      moduleNodes := unfileNode index.moduleNodes file info.moduleId
      legacyModuleEnvs := index.legacyModuleEnvs.erase file
      fileModulePaths := index.fileModulePaths.erase file }

/-- The child of a node by a part, whose id is handed out if there is none. -/
def childOf (index : LuaModuleIndex) (parent : ModuleNodeId) (node : ModuleNode) (part : Text) :
    LuaModuleIndex × ModuleNodeId :=
  match node.children.lookup part with
  | some id => (index, id)
  | none =>
    ({ index with
      moduleNodes := index.moduleNodes.insert parent
        { node with children := node.children.insert part index.idCounter } }, index.idCounter)

/-- The node of an id, made if there is none; the counter wraps around. -/
def ensureNode (index : LuaModuleIndex) (parent child : ModuleNodeId) : LuaModuleIndex :=
  match index.moduleNodes.lookup child with
  | some _ => index
  | none =>
    { index with
      moduleNodes := index.moduleNodes.insert child ⟨some parent, ∅, []⟩
      idCounter := (index.idCounter + 1) % 2 ^ 32 }

/-- The loop of `add_module_by_module_path`, down the parts of a path. -/
def descend : List Text → LuaModuleIndex → ModuleNodeId → LuaModuleIndex × Option ModuleNodeId
  | [], index, parent => (index, some parent)
  | part :: parts, index, parent =>
    match index.moduleNodes.lookup parent with
    | none => (index, none)
    | some node =>
      let reached := index.childOf parent node part
      descend parts (reached.1.ensureNode parent reached.2) reached.2

/-- The module a path registers. -/
def moduleInfoOf (file : FileId) (path : Text) (workspace : WorkspaceId) (id : ModuleNodeId) :
    ModuleInfo where
  fileId := file
  fullModuleName := ['.'].intercalate (moduleParts path)
  name := (moduleParts path).getLastD []
  moduleId := id
  visible := true
  exportType := none
  versionConds := none
  workspaceId := workspace
  semanticId := none
  isMeta := false

/-- The file joins the node its path leads to, and the maps next to the tree. -/
def fileModule (hashes : Hashes) (index : LuaModuleIndex) (file : FileId) (path : Text)
    (workspace : WorkspaceId) : LuaModuleIndex :=
  let reached := descend (moduleParts path) index moduleRootId
  match reached.2 with
  | none => reached.1
  | some id =>
    match reached.1.moduleNodes.lookup id with
    | none => reached.1
    | some node =>
      let info := moduleInfoOf file path workspace id
      { reached.1 with
        moduleNodes := reached.1.moduleNodes.insert id
          { node with fileIds := node.fileIds ++ [file] }
        moduleFiles := reached.1.moduleFiles + hashes.entry (moduleFilesEntry info)
        fileModuleMap := reached.1.fileModuleMap.insert file info
        moduleNameToFileIds := pushTo reached.1.moduleNameToFileIds info.name file }

/-- The file as it is before it registers: removed, if it was registered. -/
def unregistered (hashes : Hashes) (index : LuaModuleIndex) (file : FileId) : LuaModuleIndex :=
  if (index.fileModuleMap.lookup file).isSome then index.remove hashes file else index

def addModuleByModulePath (hashes : Hashes) (index : LuaModuleIndex) (file : FileId)
    (path : Text) (workspace : WorkspaceId) : LuaModuleIndex :=
  (index.unregistered hashes file).fileModule hashes file path workspace

def addModuleByPath (hashes : Hashes) (index : LuaModuleIndex) (file : FileId) (path : Text) :
    LuaModuleIndex :=
  let index := index.unregistered hashes file
  match index.config.modulePathAt (toSlashes path) with
  | none => index
  | some (modulePath, workspace) =>
    let index := index.addModuleByModulePath hashes file modulePath workspace
    { index with fileModulePaths := index.fileModulePaths.insert file (toSlashes path) }

/-- What the source and the module return declared of a module, given to another. -/
def declareAs (declared info : ModuleInfo) : ModuleInfo :=
  { info with
    visible := declared.visible
    versionConds := declared.versionConds
    isMeta := declared.isMeta
    exportType := declared.exportType
    semanticId := declared.semanticId }

/-- A module is rewritten in place. -/
def modifyInfo (index : LuaModuleIndex) (file : FileId) (f : ModuleInfo → ModuleInfo) :
    LuaModuleIndex :=
  match index.fileModuleMap.lookup file with
  | none => index
  | some info => { index with fileModuleMap := index.fileModuleMap.insert file (f info) }

/-- The environments a file had are put back. -/
def restoreEnvs (index : LuaModuleIndex) (file : FileId) :
    Option (List LegacyModuleEnv) → LuaModuleIndex
  | none => index
  | some envs => { index with legacyModuleEnvs := index.legacyModuleEnvs.insert file envs }

def repathModule (hashes : Hashes) (index : LuaModuleIndex) (file : FileId) (path : Text) :
    LuaModuleIndex :=
  if (index.fileModulePaths.lookup file).isNone then index
  else
    match index.fileModuleMap.lookup file with
    | none => index
    | some declared =>
      (((index.addModuleByPath hashes file path).modifyInfo file
        (declareAs declared)).relinkExport file []).restoreEnvs file
          (index.legacyModuleEnvs.lookup file)

def resetExport (index : LuaModuleIndex) (file : FileId) : LuaModuleIndex :=
  match index.fileModuleMap.lookup file with
  | none => index
  | some info =>
    (index.modifyInfo file fun info =>
      { info with
        exportType := none
        semanticId := none }).relinkExport file (exportFiles info)

/-- The export a module has already. -/
def hasExport (info : ModuleInfo) (exportType : LuaType)
    (semanticId : Option LuaSemanticDeclId) : Bool :=
  (match info.exportType with
    | some type => type.eq exportType
    | none => false) && decide (info.semanticId = semanticId)

def setExport (index : LuaModuleIndex) (file : FileId) (exportType : LuaType)
    (semanticId : Option LuaSemanticDeclId) : LuaModuleIndex :=
  match index.fileModuleMap.lookup file with
  | none => index
  | some info =>
    if hasExport info exportType semanticId then index
    else
      (index.modifyInfo file fun info =>
        { info with
          exportType := some exportType
          semanticId := semanticId }).relinkExport file (exportFiles info)

/-- The body of the loop of `remap_file_exports`: the module with its export moved, unless a
    position it names is lost. -/
def remapExport (hashes : Hashes) (remap : FileRemap) (info : ModuleInfo) : ModuleInfo :=
  let exported := info.exportType.map (remapIdentitiesInType hashes.types remap.identities)
  let semanticId := info.semanticId.map remap.semanticDeclId
  if exported.any (fun result => result.lost) || decide (semanticId = some .Lost) then info
  else
    { info with
      exportType := (exported.bind fun result => result.typ).or info.exportType
      semanticId :=
        match semanticId with
        | some (.Moved id) => some id
        | _ => info.semanticId }

/-- The files `remap_file_exports` goes through. -/
def exportersOf (index : LuaModuleIndex) (file : FileId) : List FileId :=
  (((index.exportRefs.lookup file).map AList.keys).getD []).mergeSort
    fun a b => decide (a.id ≤ b.id)

def remapFileExports (hashes : Hashes) (index : LuaModuleIndex) (remap : FileRemap) :
    LuaModuleIndex :=
  (index.exportersOf remap.fileId).foldl
    (fun index file => index.modifyInfo file (remapExport hashes remap)) index

def setModuleVisibility (index : LuaModuleIndex) (file : FileId) (visible : Bool) :
    LuaModuleIndex :=
  index.modifyInfo file fun info => { info with visible := visible }

def setModuleVersionConds (index : LuaModuleIndex) (file : FileId)
    (versionConds : List LuaVersionCondition) : LuaModuleIndex :=
  index.modifyInfo file fun info => { info with versionConds := some versionConds }

def setMeta (index : LuaModuleIndex) (file : FileId) : LuaModuleIndex :=
  index.modifyInfo file fun info => { info with isMeta := true }

def setLegacyModuleEnv (index : LuaModuleIndex) (file : FileId) (env : LegacyModuleEnv) :
    LuaModuleIndex :=
  { index with
    legacyModuleEnvs := index.legacyModuleEnvs.insert file
      ((listOf index.legacyModuleEnvs file ++ [env]).mergeSort
        fun a b => decide (a.activationPosition ≤ b.activationPosition)) }

end LuaModuleIndex

/-! ## §7. Runs -/

/-- A call. -/
inductive Label where
  | addModuleByPath (file : FileId) (path : Text)
  | addModuleByModulePath (file : FileId) (path : Text) (workspace : WorkspaceId)
  | repathModule (file : FileId) (path : Text)
  | setExport (file : FileId) (exportType : LuaType) (semanticId : Option LuaSemanticDeclId)
  | resetExport (file : FileId)
  | remapFileExports (remap : FileRemap)
  | setModuleVisibility (file : FileId) (visible : Bool)
  | setModuleVersionConds (file : FileId) (versionConds : List LuaVersionCondition)
  | setMeta (file : FileId)
  | setLegacyModuleEnv (file : FileId) (env : LegacyModuleEnv)
  | remove (file : FileId)

/-- One step. -/
def step (hashes : Hashes) (index : LuaModuleIndex) : Label → Option LuaModuleIndex
  | .addModuleByPath file path => some (index.addModuleByPath hashes file path)
  | .addModuleByModulePath file path workspace =>
    some (index.addModuleByModulePath hashes file path workspace)
  | .repathModule file path => some (index.repathModule hashes file path)
  | .setExport file exportType semanticId => some (index.setExport file exportType semanticId)
  | .resetExport file => some (index.resetExport file)
  | .remapFileExports remap => some (index.remapFileExports hashes remap)
  | .setModuleVisibility file visible => some (index.setModuleVisibility file visible)
  | .setModuleVersionConds file versionConds =>
    some (index.setModuleVersionConds file versionConds)
  | .setMeta file => some (index.setMeta file)
  | .setLegacyModuleEnv file env => some (index.setLegacyModuleEnv file env)
  | .remove file => some (index.remove hashes file)

end GluaLs.Modules
