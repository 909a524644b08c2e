/-
  GluaLs.DeclTree.Tree — the declaration tree of a file (`db_index/declaration/`).

  A file's scopes form a tree; declarations and child scopes stand, in the order they were
  added, among a scope's children.  A name is looked up from the innermost scope around a
  position, newest first, scope by scope outwards.  Two indexes hold what the walk visits of a
  scope: all of it, and the part that declares a given name.

    §1  scopes and declarations (`scope.rs`, `decl.rs`),
    §2  the tree and its four calls (`decl_tree.rs`),
    §3  the scope around a position,
    §4  the walk outwards and the lookups that take it.

  The loops of §3 and §4 that follow links take a number of turns and say `none` when it is
  used up.  Ids and offsets are numbers without bound.
-/
import Mathlib.Data.Prod.Lex
import GluaLs.Lib.FiniteMap
import GluaLs.Lib.KeyOrder
import GluaLs.Lib.StoppingLoop
import GluaLs.Vfs.FileId

namespace GluaLs.DeclTree

open GluaLs.Lib GluaLs.Lib.KeyOrder

/-! ## §1. Scopes and declarations -/

abbrev TextSize : Type := Nat

/-- `TextRange`: the start is never past the end. -/
structure TextRange where
  start : TextSize
  stop : TextSize
  ordered : start ≤ stop
  deriving DecidableEq

def TextRange.contains (range : TextRange) (offset : TextSize) : Bool :=
  range.start ≤ offset && offset < range.stop

inductive LuaScopeKind where
  | Normal
  | Repeat
  | LocalOrAssignStat
  | ForRange
  | FuncStat
  | MethodStat
  deriving DecidableEq, Repr

/-- A scope, by its place among the file's scopes. -/
structure LuaScopeId where
  fileId : FileId
  id : Nat
  deriving DecidableEq, Repr

/-- A declaration, by where it starts. -/
structure LuaDeclId where
  fileId : FileId
  position : TextSize
  deriving DecidableEq, Repr

inductive ScopeOrDeclId where
  | Scope (id : LuaScopeId)
  | Decl (id : LuaDeclId)
  deriving DecidableEq, Repr

structure LuaScope where
  parent : Option LuaScopeId
  children : List ScopeOrDeclId
  range : TextRange
  kind : LuaScopeKind
  id : LuaScopeId
  deriving DecidableEq

namespace LuaScope

def new (range : TextRange) (kind : LuaScopeKind) (id : LuaScopeId) : LuaScope :=
  ⟨none, [], range, kind, id⟩

def addDecl (scope : LuaScope) (decl : LuaDeclId) : LuaScope :=
  { scope with children := scope.children ++ [.Decl decl] }

def addChild (scope : LuaScope) (child : LuaScopeId) : LuaScope :=
  { scope with children := scope.children ++ [.Scope child] }

def setParent (scope : LuaScope) (parent : Option LuaScopeId) : LuaScope :=
  { scope with parent := parent }

def getPosition (scope : LuaScope) : TextSize := scope.range.start

/-- The declarations among the scope's children. -/
def declIds (scope : LuaScope) : List LuaDeclId :=
  scope.children.filterMap fun
    | .Decl decl => some decl
    | .Scope _ => none

end LuaScope

/-- The scopes a walk looks into when it passes them: their declarations stand before what
    follows the statement. -/
def LuaScopeKind.opensInto : LuaScopeKind → Bool
  | .LocalOrAssignStat | .FuncStat | .MethodStat => true
  | .Normal | .Repeat | .ForRange => false

/-- `LuaDeclExtra`, less what its variants carry -/
inductive LuaDeclExtra where
  | Local
  | Param
  | ImplicitSelf
  | Global
  | Module
  deriving DecidableEq, Repr

/-- `LuaDecl`, less its value expression -/
structure LuaDecl where
  name : String
  fileId : FileId
  range : TextRange
  extra : LuaDeclExtra
  deriving DecidableEq

namespace LuaDecl

def getId (decl : LuaDecl) : LuaDeclId := ⟨decl.fileId, decl.range.start⟩

def isImplicitSelf (decl : LuaDecl) : Bool := decl.extra == .ImplicitSelf

end LuaDecl

/-! ## §2. The tree -/

/-- What a walk visits of a scope and may match. -/
inductive InterestingChild where
  | Decl (id : LuaDeclId)
  | Scope (id : LuaScopeId)
  deriving DecidableEq, Repr

def InterestingChild.isScope : InterestingChild → Bool
  | .Scope _ => true
  | .Decl _ => false

/-- Where an entry is filed: by its position, then by its place among the children. -/
abbrev VisitKey : Type := Nat ×ₗ Nat

abbrev VisitSet : Type := List (VisitKey × InterestingChild)

/-- `LuaDeclarationTree`, less the index of module declarations and the fingerprint -/
structure LuaDeclarationTree where
  fileId : FileId
  decls : HashMap LuaDeclId LuaDecl
  scopes : List LuaScope
  /-- Each scope's place among its parent's children. -/
  scopeChildIndex : List Nat
  interestingChildren : HashMap LuaScopeId VisitSet
  interestingChildrenByName : HashMap LuaScopeId (HashMap String VisitSet)

/-- `u32::MAX`: the place of a scope that is not linked. -/
def unlinked : Nat := 2 ^ 32 - 1

def insertInterestingChild (interesting : HashMap LuaScopeId VisitSet) (scopeId : LuaScopeId)
    (key : VisitKey) (child : InterestingChild) : HashMap LuaScopeId VisitSet :=
  interesting.insert scopeId
    (fileEntry child.isScope key child ((interesting.lookup scopeId).getD []))

def insertNamedInterestingChild (interesting : HashMap LuaScopeId (HashMap String VisitSet))
    (scopeId : LuaScopeId) (name : String) (key : VisitKey) (child : InterestingChild) :
    HashMap LuaScopeId (HashMap String VisitSet) :=
  let byName := (interesting.lookup scopeId).getD ∅
  interesting.insert scopeId
    (byName.insert name (fileEntry child.isScope key child ((byName.lookup name).getD [])))

namespace LuaDeclarationTree

def new (fileId : FileId) : LuaDeclarationTree :=
  ⟨fileId, ∅, [], [], ∅, ∅⟩

/-- `self.scopes.get(id.id as usize)` -/
def getScope (tree : LuaDeclarationTree) (id : LuaScopeId) : Option LuaScope :=
  tree.scopes[id.id]?

def getDecl (tree : LuaDeclarationTree) (id : LuaDeclId) : Option LuaDecl := tree.decls.lookup id

/-- The place of a scope among its parent's children. -/
def childIndex (tree : LuaDeclarationTree) (id : LuaScopeId) : Nat :=
  (tree.scopeChildIndex[id.id]?).getD unlinked

/-- `self.scopes.get_mut(id.id as usize)`, then a change -/
def modifyScope (tree : LuaDeclarationTree) (id : LuaScopeId) (change : LuaScope → LuaScope) :
    LuaDeclarationTree :=
  { tree with scopes := tree.scopes.modify id.id change }

def addDecl (tree : LuaDeclarationTree) (decl : LuaDecl) : LuaDeclarationTree :=
  { tree with decls := tree.decls.insert decl.getId decl }

/-- The id `create_scope` gives the scope it makes. -/
def nextScopeId (tree : LuaDeclarationTree) : LuaScopeId := ⟨tree.fileId, tree.scopes.length⟩

def createScope (tree : LuaDeclarationTree) (range : TextRange) (kind : LuaScopeKind) :
    LuaDeclarationTree :=
  { tree with
    scopes := tree.scopes ++ [LuaScope.new range kind tree.nextScopeId]
    scopeChildIndex := tree.scopeChildIndex ++ [unlinked] }

/-- Files a child under a scope: in the set of all children, and in that of each of the
    names. -/
def fileChild (tree : LuaDeclarationTree) (scopeId : LuaScopeId) (key : VisitKey)
    (child : InterestingChild) (names : List String) : LuaDeclarationTree :=
  { tree with
    interestingChildren := insertInterestingChild tree.interestingChildren scopeId key child
    interestingChildrenByName := names.foldl
      (fun byName name => insertNamedInterestingChild byName scopeId name key child)
      tree.interestingChildrenByName }

def addDeclToScope (tree : LuaDeclarationTree) (scopeId : LuaScopeId) (declId : LuaDeclId) :
    LuaDeclarationTree :=
  let names := ((tree.getDecl declId).map LuaDecl.name).toList
  match tree.getScope scopeId with
  | none => tree
  | some scope =>
    let listed := (tree.modifyScope scopeId fun scope => scope.addDecl declId).fileChild scopeId
      (toLex (declId.position, scope.children.length)) (.Decl declId) names
    -- A scope the walk looks into is visited by the walk of its parent.
    match scope.kind.opensInto, scope.parent with
    | true, some parentId =>
      listed.fileChild parentId (toLex (scope.getPosition, tree.childIndex scopeId))
        (.Scope scopeId) names
    | _, _ => listed

/-- `file_child_scope_with_decls`: a scope that has declarations when it is linked. -/
def fileChildScopeWithDecls (tree : LuaDeclarationTree) (parentId childId : LuaScopeId) :
    LuaDeclarationTree :=
  match tree.getScope childId with
  | none => tree
  | some child =>
    if !child.declIds.isEmpty && child.kind.opensInto then
      tree.fileChild parentId (toLex (child.getPosition, tree.childIndex childId))
        (.Scope childId) (child.declIds.filterMap fun id => (tree.getDecl id).map LuaDecl.name)
    else tree

/-- The child goes among its parent's children, and its place there is noted. -/
def listChild (tree : LuaDeclarationTree) (parentId childId : LuaScopeId) : LuaDeclarationTree :=
  match tree.getScope parentId with
  | none => tree
  | some parent =>
    { tree.modifyScope parentId fun scope => scope.addChild childId with
      scopeChildIndex := tree.scopeChildIndex.set childId.id parent.children.length }

/-- The links `add_child_scope` sets. -/
def linkScope (tree : LuaDeclarationTree) (parentId childId : LuaScopeId) : LuaDeclarationTree :=
  (tree.listChild parentId childId).modifyScope childId fun scope => scope.setParent (some parentId)

def addChildScope (tree : LuaDeclarationTree) (parentId childId : LuaScopeId) :
    LuaDeclarationTree :=
  (tree.linkScope parentId childId).fileChildScopeWithDecls parentId childId

/-! ## §3. The scope around a position -/

def lastChildScope (entries : List ScopeOrDeclId) : Option LuaScopeId :=
  entries.reverse.findSome? fun
    | .Scope id => some id
    | .Decl _ => none

def linearFindChildScope (tree : LuaDeclarationTree) (scope : LuaScope) (position : TextSize) :
    Option LuaScope :=
  (scope.children.filterMap fun
    | .Scope id => tree.getScope id
    | .Decl _ => none).find? fun child => child.range.contains position

/-- The search of `find_child_scope`: the first place whose nearest scope, at it or before it,
    starts past the position; `none` if it meets an id that is no scope's. -/
def searchChildren (tree : LuaDeclarationTree) (children : List ScopeOrDeclId)
    (position : TextSize) : Nat → Nat → Nat → Option Nat
  | 0, lo, _ => some lo
  | turns + 1, lo, hi =>
    if lo < hi then
      let mid := lo + (hi - lo) / 2
      match lastChildScope ((children.take (mid + 1)).drop lo) with
      | none => tree.searchChildren children position turns (mid + 1) hi
      | some childId =>
        match tree.getScope childId with
        | none => none
        | some child =>
          if position < child.getPosition then
            tree.searchChildren children position turns lo mid
          else tree.searchChildren children position turns (mid + 1) hi
    else some lo

def findChildScope (tree : LuaDeclarationTree) (scope : LuaScope) (position : TextSize) :
    Option LuaScope :=
  -- Every turn shrinks the interval, so the number of children is turns enough.
  match tree.searchChildren scope.children position scope.children.length 0
      scope.children.length with
  | none => tree.linearFindChildScope scope position
  | some lo =>
    ((lastChildScope (scope.children.take lo)).bind tree.getScope).filter
      fun candidate => candidate.range.contains position

/-- The loop of `find_scope`. -/
def descend (tree : LuaDeclarationTree) (position : TextSize) : Nat → LuaScope → Option LuaScope
  | 0, _ => none
  | turns + 1, scope =>
    match tree.findChildScope scope position with
    | none => some scope
    | some child => tree.descend position turns child

def findScope (tree : LuaDeclarationTree) (turns : Nat) (position : TextSize) :
    Option (Option LuaScope) :=
  match tree.scopes.head? with
  | none => some none
  | some root => (tree.descend position turns root).map some

/-! ## §4. The walk outwards -/

section

variable {σ : Type} (f : ScopeOrDeclId → σ → σ × Bool)

/-- `walk_over_scope`: the declarations of a scope the walk passes, then the scope. -/
def walkOverScope (scope : LuaScope) (s : σ) : σ × Bool :=
  let visits :=
    if scope.kind.opensInto then scope.declIds.map ScopeOrDeclId.Decl else []
  match loopUntil f visits s with
  | (s', true) => (s', true)
  | (s', false) => f (.Scope scope.id) s'

/-- One turn of the loop of `base_walk_up`. -/
def visitChild (tree : LuaDeclarationTree) : InterestingChild → σ → σ × Bool
  | .Decl id, s => f (.Decl id) s
  | .Scope id, s =>
    match tree.getScope id with
    | none => (s, false)
    | some child => walkOverScope f child s

/-- What the walk may visit of a scope: the children that declare the name, or all. -/
def visitSet (tree : LuaDeclarationTree) (scopeId : LuaScopeId) : Option String → VisitSet
  | some name => (((tree.interestingChildrenByName.lookup scopeId).getD ∅).lookup name).getD []
  | none => (tree.interestingChildren.lookup scopeId).getD []

/-- The visits of `base_walk_up`: what starts before the position, newest first. -/
def walkChildren (tree : LuaDeclarationTree) (scope : LuaScope) (startPos : TextSize)
    (name : Option String) (s : σ) : σ × Bool :=
  let interesting := tree.visitSet scope.id name
  let before := partitionPoint (fun e => decide ((ofLex e.1).1 < startPos)) interesting
  loopUntil (fun e => visitChild f tree e.2) (interesting.take before).reverse s

/-- `walk_up`, and `base_walk_up` in its last cases.  The state is what the closure `f` has
    made of its visits; a visit `f` stops at is the last. -/
def walkUp (tree : LuaDeclarationTree) (name : Option String) :
    Nat → LuaScope → TextSize → Nat → σ → Option σ
  | 0, _, _, _, _ => none
  | turns + 1, scope, startPos, level, s =>
    let toParent (startPos : TextSize) (level : Nat) (s : σ) : Option σ :=
      match scope.parent.bind tree.getScope with
      | none => some s
      | some parent => tree.walkUp name turns parent startPos level s
    let baseWalkUp : Option σ :=
      match walkChildren f tree scope startPos name s with
      | (s', true) => some s'
      | (s', false) => toParent startPos (level + 1) s'
    match scope.kind with
    | .LocalOrAssignStat => toParent scope.getPosition level s
    | .Repeat =>
      match level, scope.children.head? with
      | 0, some (.Scope id) =>
        match tree.getScope id with
        | none => some s
        | some body => tree.walkUp name turns body startPos level s
      | _, _ => baseWalkUp
    | .ForRange => if level = 0 then toParent startPos level s else baseWalkUp
    | .Normal | .FuncStat | .MethodStat => baseWalkUp

end

/-- Walks outwards from the scope around a position. -/
def walkFrom {σ : Type} (tree : LuaDeclarationTree) (turns : Nat) (position : TextSize)
    (name : Option String) (f : ScopeOrDeclId → σ → σ × Bool) (s : σ) : Option (Option σ) :=
  match tree.findScope turns position with
  | none => none
  | some none => some none
  | some (some scope) => (tree.walkUp f name turns scope position 0 s).map some

/-- The closure of `find_local_decl`: stops at a declaration of the name. -/
def matchName (tree : LuaDeclarationTree) (name : String) :
    ScopeOrDeclId → Option LuaDecl → Option LuaDecl × Bool
  | .Decl id, result =>
    match tree.getDecl id with
    | none => (result, false)
    | some decl => if decl.name = name then (some decl, true) else (result, false)
  | .Scope _, result => (result, false)

/-- `find_local_decl`; the outer `none` is a lookup that ran out of turns. -/
def findLocalDecl (tree : LuaDeclarationTree) (turns : Nat) (name : String) (position : TextSize) :
    Option (Option LuaDecl) :=
  (tree.walkFrom turns position (some name) (tree.matchName name) none).map Option.join

/-- The closure of `get_env_decls`, for the declarations to keep. -/
def collect (tree : LuaDeclarationTree) (keep : LuaDecl → Bool) :
    ScopeOrDeclId → List LuaDecl → List LuaDecl × Bool
  | .Decl id, result =>
    match tree.getDecl id with
    | none => (result, false)
    | some decl => (if keep decl then result ++ [decl] else result, false)
  | .Scope _, result => (result, false)

def getEnvDecls (tree : LuaDeclarationTree) (turns : Nat) (position : TextSize) :
    Option (Option (List LuaDeclId)) :=
  (tree.walkFrom turns position none (tree.collect fun decl => !decl.isImplicitSelf) []).map
    (Option.map (List.map LuaDecl.getId))

/-- The declarations the unfiltered walk visits, in its order: those of `get_env_decls`, and
    every implicit `self`. -/
def visitedDecls (tree : LuaDeclarationTree) (turns : Nat) (position : TextSize) :
    Option (Option (List LuaDecl)) :=
  tree.walkFrom turns position none (tree.collect fun _ => true) []

end LuaDeclarationTree

end GluaLs.DeclTree
