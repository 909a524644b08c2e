/-
  GluaLs.Modules.Tree — the tree of module nodes.

  A path leads from the root to a node (`site`), and the node lists files (`filesAt`).  A
  FOREST is well formed: no two paths lead to one node, every child knows its parent, and every
  node a path leads to has a file or a child.  One node may be exempt, the HOLE: the node a
  registration has just come to.

  What a forest says is about the nodes the paths lead to.  The map may hold others, which
  nothing leads to any more (`Leftover`).
-/
import Mathlib.Data.List.MinMax
import GluaLs.Lib.Walks
import GluaLs.Modules.Index

namespace GluaLs.Modules

open GluaLs.Lib GluaLs.Lib.Walks

/-! ## §1. Sites -/

/-- The edges of the tree. -/
def edge (nodes : HashMap ModuleNodeId ModuleNode) (id : ModuleNodeId) (part : Text) :
    Option ModuleNodeId :=
  (nodes.lookup id).bind fun node => node.children.lookup part

/-- The node a path leads to. -/
def site (nodes : HashMap ModuleNodeId ModuleNode) (path : List Text) : Option ModuleNodeId :=
  walk (edge nodes) moduleRootId path

/-- The files listed where a path leads. -/
def filesAt (nodes : HashMap ModuleNodeId ModuleNode) (path : List Text) : List FileId :=
  (((site nodes path).bind nodes.lookup).map ModuleNode.fileIds).getD []

/-- A node nothing leads to. -/
def Leftover (nodes : HashMap ModuleNodeId ModuleNode) (id : ModuleNodeId) : Prop :=
  (nodes.lookup id).isSome ∧ ∀ path, site nodes path ≠ some id

/-- **The tree is well formed**, below the ids handed out so far. -/
structure Forest (nodes : HashMap ModuleNodeId ModuleNode) (counter : Nat)
    (hole : Option ModuleNodeId) : Prop where
  root : (nodes.lookup moduleRootId).isSome
  tree : Tree (edge nodes) moduleRootId
  child : ∀ id part child, edge nodes id part = some child →
    ∃ node, nodes.lookup child = some node ∧ node.parent = some id
  linked : ∀ id part child, edge nodes id part = some child → ∃ path, site nodes path = some id
  below : ∀ id, (nodes.lookup id).isSome → id < counter
  used : ∀ path id node, site nodes path = some id → nodes.lookup id = some node →
    path = [] ∨ node.isEmpty = false ∨ hole = some id

section

variable {nodes : HashMap ModuleNodeId ModuleNode}

theorem edge_of_lookup {id : ModuleNodeId}
    {node : ModuleNode} (h : nodes.lookup id = some node) (part : Text) :
    edge nodes id part = node.children.lookup part := by
  unfold edge
  rw [h]
  rfl

theorem edge_of_lookup_none {id : ModuleNodeId}
    (h : nodes.lookup id = none) (part : Text) : edge nodes id part = none := by
  unfold edge
  rw [h]
  rfl

theorem filesAt_of_site {path : List Text}
    {id : ModuleNodeId} {node : ModuleNode} (hsite : site nodes path = some id)
    (hnode : nodes.lookup id = some node) : filesAt nodes path = node.fileIds := by
  unfold filesAt
  rw [hsite]
  show ((nodes.lookup id).map _).getD [] = _
  rw [hnode]
  rfl

theorem filesAt_of_site_none {path : List Text}
    (hsite : site nodes path = none) : filesAt nodes path = [] := by
  unfold filesAt
  rw [hsite]
  rfl

theorem filesAt_of_lookup_none {path : List Text}
    {id : ModuleNodeId} (hsite : site nodes path = some id) (hnode : nodes.lookup id = none) :
    filesAt nodes path = [] := by
  unfold filesAt
  rw [hsite]
  show ((nodes.lookup id).map _).getD [] = _
  rw [hnode]
  rfl

end

theorem site_concat (nodes : HashMap ModuleNodeId ModuleNode) (path : List Text) (part : Text) :
    site nodes (path ++ [part]) = (site nodes path).bind fun id => edge nodes id part :=
  walk_concat (edge nodes) moduleRootId path part

/-- A node that is empty has no edges. -/
theorem edge_eq_none_of_isEmpty {nodes : HashMap ModuleNodeId ModuleNode} {id : ModuleNodeId}
    {node : ModuleNode} (h : nodes.lookup id = some node) (hempty : node.isEmpty = true)
    (part : Text) : edge nodes id part = none := by
  rw [edge_of_lookup h]
  unfold ModuleNode.isEmpty at hempty
  rw [Bool.and_eq_true, List.isEmpty_iff, List.isEmpty_iff] at hempty
  cases hpart : node.children.lookup part with
  | none => rfl
  | some child =>
    have hmem := (mem_entries_iff node.children part child).2 hpart
    rw [hempty.2] at hmem
    cases hmem

theorem fileIds_of_isEmpty {node : ModuleNode} (hempty : node.isEmpty = true) :
    node.fileIds = [] := by
  unfold ModuleNode.isEmpty at hempty
  rw [Bool.and_eq_true] at hempty
  exact List.isEmpty_iff.1 hempty.1

theorem isEmpty_of_edge {nodes : HashMap ModuleNodeId ModuleNode} {id : ModuleNodeId}
    {node : ModuleNode} (h : nodes.lookup id = some node) {part : Text} {child : ModuleNodeId}
    (hedge : edge nodes id part = some child) : node.isEmpty = false := by
  cases hempty : node.isEmpty with
  | false => rfl
  | true =>
    rw [edge_eq_none_of_isEmpty h hempty part] at hedge
    cases hedge

namespace Forest

variable {nodes : HashMap ModuleNodeId ModuleNode} {counter : Nat} {hole : Option ModuleNodeId}

section

variable (h : Forest nodes counter hole)
include h

/-- Every node a path leads to is there. -/
theorem lookup_of_site {path : List Text} {id : ModuleNodeId}
    (hsite : site nodes path = some id) : ∃ node, nodes.lookup id = some node := by
  obtain heq | ⟨up, part, hedge⟩ := walk_target path hsite
  · rw [heq]
    exact Option.isSome_iff_exists.1 h.root
  · obtain ⟨node, hnode, -⟩ := h.child up part id hedge
    exact ⟨node, hnode⟩

/-- Nothing leads to an id that was not handed out. -/
theorem edge_ne_of_le (id : ModuleNodeId) (part : Text)
    {fresh : ModuleNodeId} (hfresh : counter ≤ fresh) : edge nodes id part ≠ some fresh := by
  intro hedge
  obtain ⟨node, hnode, -⟩ := h.child id part fresh hedge
  exact Nat.not_lt.2 hfresh (h.below fresh (by rw [hnode]; rfl))

theorem lookup_of_le {fresh : ModuleNodeId}
    (hfresh : counter ≤ fresh) : nodes.lookup fresh = none := by
  cases hnode : nodes.lookup fresh with
  | none => rfl
  | some node =>
    exact absurd (h.below fresh (by rw [hnode]; rfl)) (Nat.not_lt.2 hfresh)

theorem counter_pos : 0 < counter := h.below moduleRootId h.root

end

end Forest

/-! ## §2. The first node -/

theorem edge_new (id : ModuleNodeId) (part : Text) :
    edge ((∅ : HashMap ModuleNodeId ModuleNode).insert moduleRootId ModuleNode.default) id part
      = none := by
  unfold edge
  rw [lookup_insert_ite]
  split <;> rfl

theorem site_new (path : List Text) :
    site ((∅ : HashMap ModuleNodeId ModuleNode).insert moduleRootId ModuleNode.default) path
      = if path = [] then some moduleRootId else none := by
  cases path with
  | nil => rfl
  | cons part parts => exact walk_eq_none_of_leaf (edge_new moduleRootId) part parts

theorem forest_new :
    Forest ((∅ : HashMap ModuleNodeId ModuleNode).insert moduleRootId ModuleNode.default) 1
      none where
  root := by
    rw [lookup_insert_ite]
    rfl
  tree := by
    intro p q id hp hq
    have hp' := site_new p
    have hq' := site_new q
    unfold site at hp' hq'
    rw [hp'] at hp
    rw [hq'] at hq
    split at hp
    · split at hq
      · rename_i heq heq'
        rw [heq, heq']
      · cases hq
    · cases hp
  child id part child h := by
    rw [edge_new] at h
    cases h
  linked id part child h := by
    rw [edge_new] at h
    cases h
  below id h := by
    rw [lookup_insert_ite] at h
    split at h
    · rename_i heq
      rw [heq]
      exact Nat.one_pos
    · cases h
  used path id node hsite _ := by
    rw [site_new] at hsite
    split at hsite
    · rename_i heq
      exact .inl heq
    · cases hsite

/-! ## §3. A file joins or leaves the list of a node -/

section

variable {nodes : HashMap ModuleNodeId ModuleNode} {id : ModuleNodeId} {node node' : ModuleNode}

/-- A node that keeps its children leaves the edges as they are. -/
theorem edge_insert_sameChildren (hnode : nodes.lookup id = some node)
    (hchildren : node'.children = node.children) : edge (nodes.insert id node') = edge nodes := by
  funext other part
  unfold edge
  rw [lookup_insert_ite]
  by_cases heq : other = id
  · rw [if_pos heq, heq, hnode]
    show node'.children.lookup part = node.children.lookup part
    rw [hchildren]
  · rw [if_neg heq]

theorem site_insert_sameChildren (hnode : nodes.lookup id = some node)
    (hchildren : node'.children = node.children) (path : List Text) :
    site (nodes.insert id node') path = site nodes path := by
  unfold site
  rw [edge_insert_sameChildren hnode hchildren]

/-- **A node is listed other files.** -/
theorem filesAt_insert (htree : Tree (edge nodes) moduleRootId)
    (hnode : nodes.lookup id = some node) (hchildren : node'.children = node.children)
    {path : List Text} (hpath : site nodes path = some id) (q : List Text) :
    filesAt (nodes.insert id node') q = if q = path then node'.fileIds else filesAt nodes q := by
  unfold filesAt
  rw [site_insert_sameChildren hnode hchildren]
  by_cases hq : q = path
  · rw [if_pos hq, hq, hpath]
    show (((nodes.insert id node').lookup id).map _).getD [] = _
    rw [lookup_insert_ite, if_pos rfl]
    rfl
  · rw [if_neg hq]
    cases hsite : site nodes q with
    | none => rfl
    | some other =>
      have hne : other ≠ id := by
        intro heq
        exact hq (htree q path id (heq ▸ hsite) hpath)
      show (((nodes.insert id node').lookup other).map _).getD [] = _
      rw [lookup_insert_ite, if_neg hne]
      rfl

/-- The tree stays well formed where the node's parent and children do not change. -/
theorem Forest.insert_sameChildren {counter : Nat} {hole : Option ModuleNodeId}
    (h : Forest nodes counter hole) (hnode : nodes.lookup id = some node)
    (hchildren : node'.children = node.children) (hparent : node'.parent = node.parent)
    (hole' : Option ModuleNodeId) (hid : node'.isEmpty = false ∨ hole' = some id)
    (hhole : hole = some id ∨ hole = none) :
    Forest (nodes.insert id node') counter hole' where
  root := by
    rw [lookup_insert_ite]
    split
    · rfl
    · exact h.root
  tree := by
    rw [edge_insert_sameChildren hnode hchildren]
    exact h.tree
  child up part child hedge := by
    rw [edge_insert_sameChildren hnode hchildren] at hedge
    obtain ⟨old, hold, hup⟩ := h.child up part child hedge
    rw [lookup_insert_ite]
    split
    · rename_i heq
      rw [heq, hnode] at hold
      refine ⟨node', rfl, ?_⟩
      rw [hparent, Option.some.inj hold]
      exact hup
    · exact ⟨old, hold, hup⟩
  linked up part child hedge := by
    rw [edge_insert_sameChildren hnode hchildren] at hedge
    obtain ⟨path, hpath⟩ := h.linked up part child hedge
    exact ⟨path, by rw [site_insert_sameChildren hnode hchildren, hpath]⟩
  below other hother := by
    rw [lookup_insert_ite] at hother
    split at hother
    · rename_i heq
      rw [heq]
      exact h.below id (by rw [hnode]; rfl)
    · exact h.below other hother
  used path other node'' hsite hother := by
    rw [site_insert_sameChildren hnode hchildren] at hsite
    obtain ⟨rfl, rfl⟩ | ⟨hne, hother⟩ := lookup_insert_some hother
    · exact .inr hid
    · obtain hnil | hempty | hhole' := h.used path other node'' hsite hother
      · exact .inl hnil
      · exact .inr (.inl hempty)
      · obtain heq | heq := hhole
        · rw [heq] at hhole'
          exact absurd (Option.some.inj hhole').symm hne
        · rw [heq] at hhole'
          cases hhole'

end

/-! ## §4. Candidates

  A lookup first goes down the tree, part by part, and chooses among the files listed there.
  Where that finds nothing it may go on among the modules whose last part is the same, for one
  that ends in the path.  A choice is a loop that keeps the better of two candidates.

  A lookup RECORDS what it read, so that it is made again when one of these facts changes.
-/

/-- What a choice looks at: the file, its module and the path it was registered from. -/
structure Candidate where
  fileId : FileId
  fullModuleName : Text
  workspaceId : WorkspaceId
  modulePathKey : Option Text
  deriving DecidableEq

/-- A text that may be missing; a missing one comes first. -/
def optionKey (text : Option Text) : WithBot Text := text

namespace Config

variable (config : Config)

/-- The end of every comparison: where the file was registered from, its name and its id. -/
def registrationKey (c : Candidate) : Bool ×ₗ (WithBot Text ×ₗ (Text ×ₗ Nat)) :=
  toLex (c.modulePathKey.isNone, toLex (optionKey c.modulePathKey,
    toLex (c.fullModuleName, c.fileId.id.toNat)))

/-- What `is_candidate_better_global` compares. -/
def globalKey (c : Candidate) :
    Nat ×ₗ ((Nat ×ₗ Nat) ×ₗ (Bool ×ₗ (WithBot Text ×ₗ (Text ×ₗ Nat)))) :=
  toLex (config.workspaceKindPriority c.workspaceId,
    toLex (config.workspaceOrderPriority c.workspaceId, registrationKey c))

/-- What `is_candidate_better_for_workspace` compares. -/
def workspaceKey (current : WorkspaceId) (c : Candidate) :
    Bool ×ₗ ((Nat ×ₗ Nat) ×ₗ (Bool ×ₗ (WithBot Text ×ₗ (Text ×ₗ Nat)))) :=
  toLex (decide (c.workspaceId ≠ current),
    toLex (config.workspaceOrderPriority c.workspaceId, registrationKey c))

def isCandidateBetterGlobal (candidate best : Candidate) : Bool :=
  decide (config.globalKey candidate < config.globalKey best)

def isCandidateBetterForWorkspace (current : WorkspaceId) (candidate best : Candidate) : Bool :=
  decide (config.workspaceKey current candidate < config.workspaceKey current best)

def isCandidateBetterForFuzzyGlobal (candidate : Candidate) (leading : Nat) (best : Candidate)
    (bestLeading : Nat) : Bool :=
  decide (toLex (leading, candidate.fullModuleName) < toLex (bestLeading, best.fullModuleName)) ||
    (decide (leading = bestLeading) && decide (candidate.fullModuleName = best.fullModuleName) &&
      config.isCandidateBetterGlobal candidate best)

/-- A loop that keeps the better of two. -/
def keepBest {A : Type} (better : A → A → Bool) (l : List A) : Option A :=
  l.foldl (fun best candidate =>
    match best with
    | some b => if better candidate b then some candidate else some b
    | none => some candidate) none

/-- Whether a candidate of one priority replaces one of another. -/
def betterRanked (current : WorkspaceId) (candidate best : Candidate × Nat) : Bool :=
  !(decide (candidate.2 > best.2) ||
    (decide (candidate.2 = best.2) &&
      !config.isCandidateBetterForWorkspace current candidate.1 best.1))

/-- The candidates a workspace sees, with their priorities. -/
def ranked (current : WorkspaceId) (candidates : List Candidate) : List (Candidate × Nat) :=
  candidates.filterMap fun c =>
    (config.workspaceResolutionPriority current c.workspaceId).map fun priority => (c, priority)

def selectModuleForWorkspace (current : WorkspaceId) (candidates : List Candidate) :
    Option Candidate :=
  (keepBest (config.betterRanked current) (config.ranked current candidates)).map Prod.fst

def selectModuleGlobally (candidates : List Candidate) : Option Candidate :=
  keepBest config.isCandidateBetterGlobal candidates

/-- How many parts a module's name has before the path. -/
def leadingSegmentCount (path fullModuleName : Text) : Option Nat :=
  if fullModuleName = path then some 0
  else (stripEnd ('.' :: path) fullModuleName).map fun start =>
    ((moduleParts start).filter fun segment => segment ≠ []).length

/-- The loop of `fuzzy_find_module`. -/
def fuzzySelect (path : Text) (candidates : List Candidate) : Option Candidate :=
  (keepBest (fun candidate best =>
      config.isCandidateBetterForFuzzyGlobal candidate.1 candidate.2 best.1 best.2)
    (candidates.filterMap fun c =>
      (leadingSegmentCount path c.fullModuleName).map fun leading => (c, leading))).map Prod.fst

/-- Whether a module is the path or ends in it. -/
def endsIn (path fullModuleName : Text) : Bool :=
  decide (fullModuleName = path) || ('.' :: path).isSuffixOf fullModuleName

/-- The loop of `fuzzy_find_module_in_workspace`. -/
def fuzzySelectForWorkspace (path : Text) (current : WorkspaceId) (candidates : List Candidate) :
    Option Candidate :=
  config.selectModuleForWorkspace current
    (candidates.filter fun c => endsIn path c.fullModuleName)

end Config

/-! ## §5. Lookups -/

/-- `FactKey`, as far as module lookups record reads of it. -/
inductive FactKey where
  | Module (file : FileId)
  | ModuleMeta (file : FileId)
  | ModuleName (name : Text)
  | ModulePath (path : Text)
  | ModuleNamespace (root : Text)
  deriving DecidableEq

/-- A result, and the facts it was read from. -/
structure Noted (A : Type) where
  found : A
  reads : List FactKey

namespace LuaModuleIndex

variable (index : LuaModuleIndex)

/-- The candidate a file's module is. -/
def candidate (info : ModuleInfo) : Candidate :=
  ⟨info.fileId, info.fullModuleName, info.workspaceId, index.fileModulePaths.lookup info.fileId⟩

/-- The candidates among listed files. -/
def candidates (files : List FileId) : List Candidate :=
  (files.filterMap index.fileModuleMap.lookup).map index.candidate

/-- The choice among candidates, within a workspace when one is given. -/
def select (workspace : Option WorkspaceId) (candidates : List Candidate) : Option Candidate :=
  match workspace with
  | some current => index.config.selectModuleForWorkspace current candidates
  | none => index.config.selectModuleGlobally candidates

/-- `exact_find_module`, `exact_find_module_in_workspace` -/
def exactFindModule (parts : List Text) (workspace : Option WorkspaceId) : Option Candidate :=
  match (site index.moduleNodes parts).bind index.moduleNodes.lookup with
  | none => none
  | some node => index.select workspace (index.candidates node.fileIds)

/-- `fuzzy_find_module`, `fuzzy_find_module_in_workspace` -/
def fuzzyFindModule (path name : Text) (workspace : Option WorkspaceId) : Option Candidate :=
  match index.moduleNameToFileIds.lookup name with
  | none => none
  | some files =>
    match workspace with
    | some current =>
      index.config.fuzzySelectForWorkspace path current (index.candidates files)
    | none => index.config.fuzzySelect path (index.candidates files)

/-- `lookup`; the module found, by its file. -/
def lookup (modulePath : Text) (workspace : Option WorkspaceId) (contents : Bool) :
    Noted (Option FileId) :=
  let path := toDots modulePath
  let parts := moduleParts path
  let content := fun (file : FileId) => if contents then [FactKey.Module file] else []
  match index.exactFindModule parts workspace with
  | some found => ⟨some found.fileId, .ModulePath path :: content found.fileId⟩
  | none =>
    let result :=
      if index.config.fuzzySearch then
        index.fuzzyFindModule path (parts.getLastD []) workspace
      else none
    match result with
    | some found => ⟨some found.fileId, .ModuleName (lookupName path) :: content found.fileId⟩
    | none => ⟨none, [.ModuleName (lookupName path)]⟩

def getWorkspaceId (file : FileId) : Noted (Option WorkspaceId) :=
  ⟨(index.fileModuleMap.lookup file).map ModuleInfo.workspaceId, [.ModuleMeta file]⟩

def findModule (modulePath : Text) : Noted (Option FileId) := index.lookup modulePath none true

def findModuleInWorkspace (modulePath : Text) (workspace : WorkspaceId) : Noted (Option FileId) :=
  index.lookup modulePath (some workspace) true

def findModuleForFile (modulePath : Text) (file : FileId) : Noted (Option FileId) :=
  let workspace := index.getWorkspaceId file
  let found :=
    match workspace.found with
    | some workspace => index.findModuleInWorkspace modulePath workspace
    | none => index.findModule modulePath
  ⟨found.found, workspace.reads ++ found.reads⟩

def findModuleFileForFile (modulePath : Text) (file : FileId) : Noted (Option FileId) :=
  let workspace := index.getWorkspaceId file
  let found := index.lookup modulePath workspace.found false
  ⟨found.found, workspace.reads ++ found.reads⟩

/-! ## §6. Legacy namespaces -/

/-- The environment is `name` or below it. -/
def inNamespace (name : Text) (env : LegacyModuleEnv) : Bool :=
  decide (env.modulePath = name) ||
    match stripPre name env.modulePath with
    | some rest => rest.head? = some '.'
    | none => false

def hasLegacyModuleNamespace (name : Text) : Noted Bool :=
  ⟨index.legacyModuleEnvs.entries.any fun entry => entry.2.any (inNamespace name),
    [.ModuleNamespace (namespaceRoot name)]⟩

/-- A file whose environments the workspace sees one of in the namespace. -/
def seesNamespace (current : WorkspaceId) (name : Text) (file : FileId)
    (envs : List LegacyModuleEnv) : Bool :=
  match (index.getWorkspaceId file).found with
  | none => false
  | some candidate =>
    (index.config.workspaceResolutionPriority current candidate).isSome &&
      envs.any (inNamespace name)

/-- The loop of `has_legacy_module_namespace_for_file`, which stops where it finds one. -/
def anyNamespace (current : WorkspaceId) (name : Text) :
    List (Sigma fun _ : FileId => List LegacyModuleEnv) → Noted Bool
  | [] => ⟨false, []⟩
  | entry :: entries =>
    if index.seesNamespace current name entry.1 entry.2 then
      ⟨true, (index.getWorkspaceId entry.1).reads⟩
    else
      let rest := anyNamespace current name entries
      ⟨rest.found, (index.getWorkspaceId entry.1).reads ++ rest.reads⟩

/-- `has_legacy_module_namespace_for_file`, by the entries in the order the map is gone
    through. -/
def hasLegacyModuleNamespaceForFile
    (entries : List (Sigma fun _ : FileId => List LegacyModuleEnv)) (file : FileId)
    (name : Text) : Noted Bool :=
  let workspace := index.getWorkspaceId file
  match workspace.found with
  | none =>
    let result := index.hasLegacyModuleNamespace name
    ⟨result.found, .ModuleNamespace (namespaceRoot name) :: workspace.reads ++ result.reads⟩
  | some current =>
    let result := index.anyNamespace current name entries
    ⟨result.found, .ModuleNamespace (namespaceRoot name) :: workspace.reads ++ result.reads⟩

end LuaModuleIndex

end GluaLs.Modules
