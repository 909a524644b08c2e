/-
  GluaLs.DeclTree.Linked — the calls that build a tree, and how its scopes hang together.

  A tree is built by four calls, in any order.  What their caller sees to is `Allowed`: ids of
  scopes are those `create_scope` gave, a scope is linked once and not below itself, and what
  is added to a scope has been declared.  Then scopes are `Linked`:

    • a scope among the children of another has it as parent, and its place there is on file,
    • no chain of parents goes round.
-/
import Mathlib.Logic.Relation
import GluaLs.DeclTree.Tree

namespace GluaLs.DeclTree

open GluaLs.Lib GluaLs.Lib.KeyOrder LuaDeclarationTree ScopeOrDeclId.Scope

/-! ## §1. Calls -/

/-- The calls that build a tree. -/
inductive Call where
  | createScope (range : TextRange) (kind : LuaScopeKind)
  | addDecl (decl : LuaDecl)
  | addChildScope (parentId childId : LuaScopeId)
  | addDeclToScope (scopeId : LuaScopeId) (declId : LuaDeclId)

def apply (tree : LuaDeclarationTree) : Call → LuaDeclarationTree
  | .createScope range kind => tree.createScope range kind
  | .addDecl decl => tree.addDecl decl
  | .addChildScope parentId childId => tree.addChildScope parentId childId
  | .addDeclToScope scopeId declId => tree.addDeclToScope scopeId declId

/-- The scope an id of this tree names. -/
def scopeAt (tree : LuaDeclarationTree) (id : LuaScopeId) : Option LuaScope :=
  if id.fileId = tree.fileId then tree.getScope id else none

/-- `up` is the parent of `down`. -/
def IsParent (tree : LuaDeclarationTree) (up down : LuaScopeId) : Prop :=
  ∃ scope, scopeAt tree down = some scope ∧ scope.parent = some up

/-- `id` is `up` or somewhere below it. -/
def Within (tree : LuaDeclarationTree) (up id : LuaScopeId) : Prop :=
  Relation.ReflTransGen (IsParent tree) up id

/-- **What the callers see to.** -/
def Allowed (tree : LuaDeclarationTree) : Call → Prop
  | .createScope _ _ | .addDecl _ => True
  | .addChildScope parentId childId =>
    (scopeAt tree parentId).isSome ∧ (scopeAt tree childId).isSome ∧
      (∀ up, ¬ IsParent tree up childId) ∧ ¬ Within tree childId parentId
  | .addDeclToScope scopeId declId =>
    (scopeAt tree scopeId).isSome ∧ (tree.getDecl declId).isSome

/-- A scope that no call has linked may be linked to a scope at the top. -/
theorem allowed_link {tree : LuaDeclarationTree} {parentId childId : LuaScopeId}
    (hparent : (scopeAt tree parentId).isSome) (hchild : (scopeAt tree childId).isSome)
    (htop : (scopeAt tree parentId).bind LuaScope.parent = none)
    (hfree : (scopeAt tree childId).bind LuaScope.parent = none) (hne : childId ≠ parentId) :
    Allowed tree (.addChildScope parentId childId) := by
  have hnone :
      ∀ id, (scopeAt tree id).bind LuaScope.parent = none → ∀ up, ¬ IsParent tree up id := by
    rintro id hid up ⟨scope, hscope, hup⟩
    rw [hscope, Option.bind_some, hup] at hid
    exact nomatch hid
  refine ⟨hparent, hchild, hnone childId hfree, ?_⟩
  intro hwithin
  rcases Relation.ReflTransGen.cases_tail hwithin with heq | ⟨up, -, hup⟩
  · exact hne heq.symm
  · exact hnone parentId htop up hup

/-- The trees calls lead to that meet `ok` when they are made. -/
inductive Built (ok : LuaDeclarationTree → Call → Prop) (fileId : FileId) :
    LuaDeclarationTree → Prop where
  | new : Built ok fileId (LuaDeclarationTree.new fileId)
  | call {tree : LuaDeclarationTree} (next : Call) (before : Built ok fileId tree)
      (allowed : ok tree next) : Built ok fileId (apply tree next)

/-- Calls in a row, each of which meets `ok` when it is made. -/
def Row (ok : LuaDeclarationTree → Call → Prop) : LuaDeclarationTree → List Call → Prop
  | _, [] => True
  | tree, next :: calls => ok tree next ∧ Row ok (apply tree next) calls

theorem Built.row {ok : LuaDeclarationTree → Call → Prop} {fileId : FileId} (calls : List Call) :
    ∀ {tree : LuaDeclarationTree}, Built ok fileId tree → Row ok tree calls →
      Built ok fileId (calls.foldl apply tree) := by
  induction calls with
  | nil => exact fun hbuilt _ => hbuilt
  | cons next calls ih => exact fun hbuilt hrow => ih (.call next hbuilt hrow.1) hrow.2

/-! ## §2. What a call does to the scopes -/

section

variable {tree : LuaDeclarationTree} {id id' : LuaScopeId} {scope : LuaScope}

theorem scopeAt_own (i : Nat) : scopeAt tree ⟨tree.fileId, i⟩ = tree.scopes[i]? := if_pos rfl

theorem scopeAt_foreign {fileId : FileId} (h : fileId ≠ tree.fileId) (i : Nat) :
    scopeAt tree ⟨fileId, i⟩ = none :=
  if_neg h

theorem fileId_of_scopeAt (h : scopeAt tree id = some scope) : id.fileId = tree.fileId := by
  by_contra hfile
  exact Option.some_ne_none scope (h.symm.trans (if_neg hfile))

theorem getScope_of_scopeAt (h : scopeAt tree id = some scope) : tree.getScope id = some scope := by
  unfold scopeAt at h
  rwa [if_pos (fileId_of_scopeAt h)] at h

theorem scopeAt_nextScopeId : scopeAt tree tree.nextScopeId = none :=
  (scopeAt_own _).trans (List.getElem?_eq_none le_rfl)

theorem scopeAt_createScope (range : TextRange) (kind : LuaScopeKind) :
    scopeAt (tree.createScope range kind) id =
      if id = tree.nextScopeId then some (LuaScope.new range kind tree.nextScopeId)
      else scopeAt tree id := by
  obtain ⟨fileId, i⟩ := id
  by_cases hfile : fileId = tree.fileId
  · subst hfile
    have hid : (⟨tree.fileId, i⟩ : LuaScopeId) = tree.nextScopeId ↔ i = tree.scopes.length := by
      simp [nextScopeId]
    have hlast : scopeAt (tree.createScope range kind) ⟨tree.fileId, i⟩ =
        (tree.scopes ++ [LuaScope.new range kind tree.nextScopeId])[i]? := if_pos rfl
    rw [hlast, scopeAt_own]
    by_cases hi : i = tree.scopes.length
    · rw [if_pos (hid.2 hi), hi, List.getElem?_concat_length]
    · rw [if_neg (mt hid.1 hi), List.getElem?_append]
      split_ifs with hlt
      · rfl
      · rw [List.getElem?_eq_none (by simp only [List.length_singleton]; omega),
          List.getElem?_eq_none (by omega)]
  · rw [if_neg fun heq => hfile (congrArg LuaScopeId.fileId heq), scopeAt_foreign hfile]
    exact if_neg hfile

theorem scopeAt_modifyScope (change : LuaScope → LuaScope) (h : id.fileId = tree.fileId) :
    scopeAt (tree.modifyScope id change) id' =
      if id' = id then (scopeAt tree id).map change else scopeAt tree id' := by
  obtain ⟨fileId, i⟩ := id
  obtain ⟨fileId', i'⟩ := id'
  obtain rfl : fileId = tree.fileId := h
  by_cases hfile : fileId' = tree.fileId
  · subst hfile
    have hmodify : scopeAt (tree.modifyScope ⟨tree.fileId, i⟩ change) ⟨tree.fileId, i'⟩ =
        (tree.scopes.modify i change)[i']? := if_pos rfl
    rw [hmodify, List.getElem?_modify, scopeAt_own, scopeAt_own]
    by_cases hi : i' = i
    · rw [hi, if_pos rfl]
      simp
    · rw [if_neg (by simp [hi])]
      simp [Ne.symm hi]
  · rw [if_neg fun heq => hfile (congrArg LuaScopeId.fileId heq), scopeAt_foreign hfile]
    exact if_neg hfile

end

/-- Two trees with the same scopes and declarations. -/
structure SameShape (tree tree' : LuaDeclarationTree) : Prop where
  fileId : tree'.fileId = tree.fileId
  decls : tree'.decls = tree.decls
  scopes : tree'.scopes = tree.scopes
  places : tree'.scopeChildIndex = tree.scopeChildIndex

namespace SameShape

variable {tree tree' tree'' : LuaDeclarationTree}

theorem refl (tree : LuaDeclarationTree) : SameShape tree tree := ⟨rfl, rfl, rfl, rfl⟩

section

variable (h : SameShape tree tree')
include h

theorem trans (h' : SameShape tree' tree'') : SameShape tree tree'' :=
  ⟨h'.fileId.trans h.fileId, h'.decls.trans h.decls, h'.scopes.trans h.scopes,
    h'.places.trans h.places⟩

theorem scopeAt_eq (id : LuaScopeId) : scopeAt tree' id = scopeAt tree id := by
  unfold scopeAt getScope
  rw [h.fileId, h.scopes]

theorem getDecl_eq (id : LuaDeclId) : tree'.getDecl id = tree.getDecl id := by
  unfold getDecl
  rw [h.decls]

theorem childIndex_eq (id : LuaScopeId) : tree'.childIndex id = tree.childIndex id := by
  unfold childIndex
  rw [h.places]

end

end SameShape

section

variable {tree : LuaDeclarationTree} {id id' : LuaScopeId} {scope : LuaScope}

/-- Filing a child touches the indexes only. -/
theorem sameShape_fileChild (tree : LuaDeclarationTree) (scopeId : LuaScopeId) (key : VisitKey)
    (child : InterestingChild) (names : List String) :
    SameShape tree (tree.fileChild scopeId key child names) :=
  ⟨rfl, rfl, rfl, rfl⟩

theorem sameShape_addDeclToScope (h : scopeAt tree id = some scope) (declId : LuaDeclId) :
    SameShape (tree.modifyScope id fun scope => scope.addDecl declId)
      (tree.addDeclToScope id declId) := by
  unfold addDeclToScope
  rw [getScope_of_scopeAt h]
  dsimp only
  split
  · exact (sameShape_fileChild _ _ _ _ _).trans (sameShape_fileChild _ _ _ _ _)
  · exact sameShape_fileChild _ _ _ _ _

theorem sameShape_addChildScope (tree : LuaDeclarationTree) (parentId childId : LuaScopeId) :
    SameShape (tree.linkScope parentId childId) (tree.addChildScope parentId childId) := by
  unfold addChildScope fileChildScopeWithDecls
  cases (tree.linkScope parentId childId).getScope childId with
  | none => exact .refl _
  | some child =>
    dsimp only
    split_ifs
    · exact sameShape_fileChild _ _ _ _ _
    · exact .refl _

/-- `add_decl_to_scope` adds the declaration to the scope's children. -/
theorem scopeAt_addDeclToScope (h : scopeAt tree id = some scope) (declId : LuaDeclId) :
    scopeAt (tree.addDeclToScope id declId) id' =
      if id' = id then some (scope.addDecl declId) else scopeAt tree id' := by
  rw [(sameShape_addDeclToScope h declId).scopeAt_eq,
    scopeAt_modifyScope _ (fileId_of_scopeAt h), h]
  rfl

variable {parentId childId : LuaScopeId} {parent child : LuaScope}

/-- `add_child_scope` adds the child to the parent's children and sets its parent. -/
theorem scopeAt_addChildScope (hparent : scopeAt tree parentId = some parent)
    (hchild : scopeAt tree childId = some child) (hne : childId ≠ parentId) :
    scopeAt (tree.addChildScope parentId childId) id =
      if id = childId then some (child.setParent (some parentId))
      else if id = parentId then some (parent.addChild childId) else scopeAt tree id := by
  have hlisted : ∀ id', scopeAt (tree.listChild parentId childId) id' =
      if id' = parentId then some (parent.addChild childId) else scopeAt tree id' := by
    intro id'
    have hmodify : scopeAt (tree.modifyScope parentId fun scope => scope.addChild childId) id' =
        if id' = parentId then (scopeAt tree parentId).map fun scope => scope.addChild childId
        else scopeAt tree id' :=
      scopeAt_modifyScope _ (fileId_of_scopeAt hparent)
    rw [hparent] at hmodify
    unfold listChild
    rw [getScope_of_scopeAt hparent]
    exact hmodify
  have hfile : (tree.listChild parentId childId).fileId = tree.fileId := by
    unfold listChild
    rw [getScope_of_scopeAt hparent]
    rfl
  rw [(sameShape_addChildScope tree parentId childId).scopeAt_eq]
  unfold linkScope
  rw [scopeAt_modifyScope _ ((fileId_of_scopeAt hchild).trans hfile.symm), hlisted, hlisted,
    if_neg hne, hchild]
  rfl

theorem getDecl_addChildScope (hparent : scopeAt tree parentId = some parent)
    (childId : LuaScopeId) (declId : LuaDeclId) :
    (tree.addChildScope parentId childId).getDecl declId = tree.getDecl declId := by
  rw [(sameShape_addChildScope tree parentId childId).getDecl_eq]
  unfold linkScope listChild
  rw [getScope_of_scopeAt hparent]
  rfl

/-- `add_child_scope` notes the child's place. -/
theorem childIndex_addChildScope (hparent : scopeAt tree parentId = some parent)
    (hchild : scopeAt tree childId = some child)
    (hplaces : tree.scopeChildIndex.length = tree.scopes.length)
    (hid : id.fileId = tree.fileId) :
    (tree.addChildScope parentId childId).childIndex id =
      if id = childId then parent.children.length else tree.childIndex id := by
  have hbound : childId.id < tree.scopeChildIndex.length := by
    rw [hplaces]
    exact (List.getElem?_eq_some_iff.1 (getScope_of_scopeAt hchild)).1
  have hset : (tree.addChildScope parentId childId).childIndex id =
      ((tree.scopeChildIndex.set childId.id parent.children.length)[id.id]?).getD unlinked := by
    rw [(sameShape_addChildScope tree parentId childId).childIndex_eq]
    unfold linkScope listChild
    rw [getScope_of_scopeAt hparent]
    rfl
  rw [hset, List.getElem?_set]
  by_cases heq : id = childId
  · rw [if_pos heq, heq, if_pos rfl, if_pos hbound]
    rfl
  · rw [if_neg heq, if_neg]
    · rfl
    · intro hids
      have hfiles := hid.trans (fileId_of_scopeAt hchild).symm
      obtain ⟨fileId, i⟩ := id
      obtain ⟨fileId', i'⟩ := childId
      exact heq (by rw [show i = i' from hids.symm, show fileId = fileId' from hfiles])

end

theorem getElem?_concat_iff {B : Type} (l : List B) (b b' : B) (i : Nat) :
    (l ++ [b])[i]? = some b' ↔ l[i]? = some b' ∨ (i = l.length ∧ b' = b) := by
  rw [List.getElem?_append]
  split_ifs with hlt
  · exact ⟨.inl, fun h => h.resolve_right fun hnew => absurd hnew.1 (by omega)⟩
  · rw [List.getElem?_eq_none (l := l) (by omega), List.getElem?_singleton]
    split_ifs with heq
    · simp only [Option.some.injEq, false_or]
      exact ⟨fun h => ⟨by omega, h.symm⟩, fun h => h.2.symm⟩
    · simp only [false_or, false_iff, not_and]
      omega

/-- What a scope becomes where `at_` gets the child `added`, at `place`: a scope that is added
    has `at_` for its parent. -/
structure GrownScope (at_ : LuaScopeId) (place : Nat) (added : ScopeOrDeclId) (id : LuaScopeId)
    (old new : LuaScope) : Prop where
  ids : new.id = old.id
  kind : new.kind = old.kind
  range : new.range = old.range
  parent : new.parent = if added = .Scope id then some at_ else old.parent
  children : ∀ (i : Nat) (c : ScopeOrDeclId), new.children[i]? = some c ↔
    old.children[i]? = some c ∨ (id = at_ ∧ i = place ∧ c = added)

/-- `at_` gets the child `added`, and the scopes are else what they were. -/
structure Grown (tree tree' : LuaDeclarationTree) (at_ : LuaScopeId) (place : Nat)
    (added : ScopeOrDeclId) : Prop where
  scopes : ∀ id old, scopeAt tree id = some old →
    ∃ new, scopeAt tree' id = some new ∧ GrownScope at_ place added id old new
  only : ∀ id, scopeAt tree id = none → scopeAt tree' id = none

section

variable {tree tree' : LuaDeclarationTree} {id at_ parentId childId : LuaScopeId} {place : Nat}
variable {added : ScopeOrDeclId} {scope parent child : LuaScope}

theorem Grown.inv (hg : Grown tree tree' at_ place added) {new : LuaScope}
    (hnew : scopeAt tree' id = some new) :
    ∃ old, scopeAt tree id = some old ∧ GrownScope at_ place added id old new := by
  cases hold : scopeAt tree id with
  | none =>
    rw [hg.only id hold] at hnew
    exact nomatch hnew
  | some old =>
    obtain ⟨new', hnew', hs⟩ := hg.scopes id old hold
    obtain rfl := Option.some.inj (hnew.symm.trans hnew')
    exact ⟨old, rfl, hs⟩

theorem grown_addDeclToScope (hscope : scopeAt tree at_ = some scope) (declId : LuaDeclId) :
    Grown tree (tree.addDeclToScope at_ declId) at_ scope.children.length (.Decl declId) := by
  constructor
  · intro id old hold
    rw [scopeAt_addDeclToScope hscope]
    by_cases heq : id = at_
    · subst heq
      obtain rfl := Option.some.inj (hscope.symm.trans hold)
      refine ⟨scope.addDecl declId, if_pos rfl, rfl, rfl, rfl, (if_neg nofun).symm, fun i c => ?_⟩
      exact (getElem?_concat_iff _ _ _ _).trans (by simp)
    · exact ⟨old, (if_neg heq).trans hold, rfl, rfl, rfl, (if_neg nofun).symm, by simp [heq]⟩
  · intro id hnone
    rw [scopeAt_addDeclToScope hscope, if_neg, hnone]
    rintro rfl
    cases hscope.symm.trans hnone

theorem grown_addChildScope (hparent : scopeAt tree parentId = some parent)
    (hchild : scopeAt tree childId = some child) (hne : childId ≠ parentId) :
    Grown tree (tree.addChildScope parentId childId) parentId parent.children.length
      (.Scope childId) := by
  constructor
  · intro id old hold
    rw [scopeAt_addChildScope hparent hchild hne]
    by_cases hisChild : id = childId
    · subst hisChild
      obtain rfl := Option.some.inj (hchild.symm.trans hold)
      refine ⟨child.setParent (some parentId), if_pos rfl, rfl, rfl, rfl, (if_pos rfl).symm, ?_⟩
      exact fun i c => ⟨.inl, fun h => h.resolve_right fun hlast => hne hlast.1⟩
    · have hadded : ScopeOrDeclId.Scope childId ≠ .Scope id :=
        fun heq => hisChild (inj heq).symm
      rw [if_neg hisChild]
      by_cases hisParent : id = parentId
      · subst hisParent
        obtain rfl := Option.some.inj (hparent.symm.trans hold)
        refine ⟨parent.addChild childId, if_pos rfl, rfl, rfl, rfl, (if_neg hadded).symm, ?_⟩
        exact fun i c => (getElem?_concat_iff _ _ _ _).trans (by simp)
      · exact ⟨old, (if_neg hisParent).trans hold, rfl, rfl, rfl, (if_neg hadded).symm,
          by simp [hisParent]⟩
  · intro id hnone
    rw [scopeAt_addChildScope hparent hchild hne, if_neg, if_neg, hnone] <;> rintro rfl
    · cases hparent.symm.trans hnone
    · cases hchild.symm.trans hnone

end

/-! ## §3. Linked scopes -/

/-- How the scopes of a tree hang together. -/
structure Linked (tree : LuaDeclarationTree) : Prop where
  ids : ∀ id scope, scopeAt tree id = some scope → scope.id = id
  places : tree.scopeChildIndex.length = tree.scopes.length
  child : ∀ id scope, scopeAt tree id = some scope →
    ∀ i childId, scope.children[i]? = some (.Scope childId) →
      ∃ child, scopeAt tree childId = some child ∧ child.parent = some id ∧
        tree.childIndex childId = i
  parent : ∀ id scope, scopeAt tree id = some scope → ∀ up, scope.parent = some up →
    ∃ parent, scopeAt tree up = some parent ∧
      parent.children[tree.childIndex id]? = some (.Scope id)
  declared : ∀ id scope, scopeAt tree id = some scope →
    ∀ declId, .Decl declId ∈ scope.children → (tree.getDecl declId).isSome
  rooted : ∀ id, Acc (IsParent tree) id

theorem linked_new (fileId : FileId) : Linked (LuaDeclarationTree.new fileId) := by
  have hnone : ∀ id, scopeAt (LuaDeclarationTree.new fileId) id = none := by
    intro id
    unfold scopeAt
    split <;> rfl
  have habsurd : ∀ {P : Prop} id scope,
      scopeAt (LuaDeclarationTree.new fileId) id = some scope → P := by
    intro P id scope h
    rw [hnone] at h
    exact nomatch h
  refine ⟨fun id scope h => habsurd id scope h, rfl, fun id scope h => habsurd id scope h,
    fun id scope h => habsurd id scope h, fun id scope h => habsurd id scope h, ?_⟩
  intro id
  refine ⟨id, ?_⟩
  rintro up ⟨scope, hscope, -⟩
  exact habsurd id scope hscope

section

variable {tree : LuaDeclarationTree} (h : Linked tree)
include h

/-- A call that keeps every scope's parent keeps the chains of parents. -/
theorem Linked.rooted_of_parents {tree' : LuaDeclarationTree}
    (hparents : ∀ up down, IsParent tree' up down → IsParent tree up down) (id : LuaScopeId) :
    Acc (IsParent tree') id :=
  Subrelation.accessible (fun {up down} hup => hparents up down hup) (h.rooted id)

theorem linked_createScope (range : TextRange) (kind : LuaScopeKind) :
    Linked (tree.createScope range kind) := by
  have hindex : ∀ id scope, scopeAt tree id = some scope →
      (tree.createScope range kind).childIndex id = tree.childIndex id := by
    intro id scope hscope
    have hbound := (List.getElem?_eq_some_iff.1 (getScope_of_scopeAt hscope)).1
    show ((tree.scopeChildIndex ++ [unlinked])[id.id]?).getD unlinked = _
    rw [List.getElem?_append_left (by rw [h.places]; exact hbound)]
    rfl
  have hold : ∀ id scope, scopeAt tree id = some scope →
      scopeAt (tree.createScope range kind) id = some scope := by
    intro id scope hscope
    rw [scopeAt_createScope, if_neg, hscope]
    rintro rfl
    rw [scopeAt_nextScopeId] at hscope
    exact nomatch hscope
  -- A scope of the new tree is the one made, which has neither children nor a parent, or old.
  have hcases : ∀ id scope, scopeAt (tree.createScope range kind) id = some scope →
      (id = tree.nextScopeId ∧ scope = LuaScope.new range kind tree.nextScopeId) ∨
        scopeAt tree id = some scope := by
    intro id scope hscope
    rw [scopeAt_createScope] at hscope
    split_ifs at hscope with heq
    · exact .inl ⟨heq, (Option.some.inj hscope).symm⟩
    · exact .inr hscope
  constructor
  · intro id scope hscope
    rcases hcases id scope hscope with ⟨rfl, rfl⟩ | hold'
    · rfl
    · exact h.ids id scope hold'
  · show (tree.scopeChildIndex ++ [unlinked]).length = (tree.scopes ++ [_]).length
    rw [List.length_append, List.length_append, h.places]
    rfl
  · intro id scope hscope i childId hchild
    rcases hcases id scope hscope with ⟨rfl, rfl⟩ | hold'
    · exact nomatch hchild
    · obtain ⟨child, hat, hup, hplace⟩ := h.child id scope hold' i childId hchild
      exact ⟨child, hold childId child hat, hup, (hindex childId child hat).trans hplace⟩
  · intro id scope hscope up hup
    rcases hcases id scope hscope with ⟨rfl, rfl⟩ | hold'
    · exact nomatch hup
    · obtain ⟨parent, hat, hplace⟩ := h.parent id scope hold' up hup
      rw [hindex id scope hold']
      exact ⟨parent, hold up parent hat, hplace⟩
  · intro id scope hscope declId hdecl
    rcases hcases id scope hscope with ⟨rfl, rfl⟩ | hold'
    · exact nomatch hdecl
    · exact h.declared id scope hold' declId hdecl
  · apply h.rooted_of_parents
    rintro up down ⟨scope, hscope, hup⟩
    rcases hcases down scope hscope with ⟨rfl, rfl⟩ | hold'
    · exact nomatch hup
    · exact ⟨scope, hold', hup⟩

theorem linked_addDecl (decl : LuaDecl) : Linked (tree.addDecl decl) := by
  refine ⟨h.ids, h.places, h.child, h.parent, ?_, h.rooted⟩
  intro id scope hscope declId hdecl
  show ((tree.decls.insert decl.getId decl).lookup declId).isSome
  rw [lookup_insert_ite]
  split_ifs
  · rfl
  · exact h.declared id scope hscope declId hdecl

/-- **Linking a scope that has no parent, and not below itself, makes no chain of parents go
    round.** -/
theorem rooted_addChildScope {parentId childId : LuaScopeId} {tree' : LuaDeclarationTree}
    (hfree : ∀ up, ¬ IsParent tree up childId) (hbelow : ¬ Within tree childId parentId)
    (hparents : ∀ up down, IsParent tree' up down →
      IsParent tree up down ∨ (up = parentId ∧ down = childId)) (id : LuaScopeId) :
    Acc (IsParent tree') id := by
  -- The chain of a scope that is not below the child is the old one.
  have hother : ∀ id, ¬ Within tree childId id → Acc (IsParent tree') id := by
    intro id
    induction h.rooted id with
    | intro id _ ih =>
      intro hnot
      refine ⟨id, ?_⟩
      intro up hup
      rcases hparents up id hup with hold | ⟨-, rfl⟩
      · exact ih up hold fun hwithin => hnot (hwithin.tail hold)
      · exact absurd .refl hnot
  induction h.rooted id with
  | intro id _ ih =>
    refine ⟨id, ?_⟩
    intro up hup
    rcases hparents up id hup with hold | ⟨rfl, -⟩
    · exact ih up hold
    · exact hother up hbelow

/-- **A scope that gets a child stays linked**: a scope without a parent, or a declaration. -/
theorem linked_grown {tree' : LuaDeclarationTree} {at_ : LuaScopeId} {place : Nat}
    {added : ScopeOrDeclId} (hg : Grown tree tree' at_ place added)
    (hplaces : tree'.scopeChildIndex.length = tree'.scopes.length)
    (hindex : ∀ id old, scopeAt tree id = some old →
      tree'.childIndex id = if added = .Scope id then place else tree.childIndex id)
    (hdecls : ∀ declId, tree'.getDecl declId = tree.getDecl declId)
    (hat : (scopeAt tree at_).isSome)
    (hlinked : ∀ childId, added = .Scope childId → (scopeAt tree childId).isSome ∧
      (∀ up, ¬ IsParent tree up childId) ∧ ¬ Within tree childId at_)
    (hdecl : ∀ declId, added = .Decl declId → (tree.getDecl declId).isSome) : Linked tree' := by
  constructor
  · intro id new hnew
    obtain ⟨old, hold, hs⟩ := hg.inv hnew
    exact hs.ids.trans (h.ids id old hold)
  · exact hplaces
  · intro id new hnew i childId hlisted
    obtain ⟨old, hold, hs⟩ := hg.inv hnew
    rcases (hs.children i _).1 hlisted with hlisted | ⟨rfl, rfl, heq⟩
    · obtain ⟨child, hchild, hup, hplace⟩ := h.child id old hold i childId hlisted
      have hother : added ≠ .Scope childId := fun heq =>
        (hlinked childId heq).2.1 id ⟨child, hchild, hup⟩
      obtain ⟨child', hchild', hs'⟩ := hg.scopes childId child hchild
      refine ⟨child', hchild', ?_, ?_⟩
      · rw [hs'.parent, if_neg hother, hup]
      · rw [hindex childId child hchild, if_neg hother, hplace]
    · obtain ⟨child, hchild⟩ := Option.isSome_iff_exists.1 (hlinked childId heq.symm).1
      obtain ⟨child', hchild', hs'⟩ := hg.scopes childId child hchild
      refine ⟨child', hchild', ?_, ?_⟩
      · rw [hs'.parent, if_pos heq.symm]
      · rw [hindex childId child hchild, if_pos heq.symm]
  · intro id new hnew up hup
    obtain ⟨old, hold, hs⟩ := hg.inv hnew
    rw [hs.parent] at hup
    rw [hindex id old hold]
    split_ifs at hup ⊢ with hadded
    · cases hup
      obtain ⟨parent, hparent⟩ := Option.isSome_iff_exists.1 hat
      obtain ⟨parent', hparent', hs'⟩ := hg.scopes _ parent hparent
      exact ⟨parent', hparent', (hs'.children _ _).2 (.inr ⟨rfl, rfl, hadded.symm⟩)⟩
    · obtain ⟨parent, hparent, hplace⟩ := h.parent id old hold up hup
      obtain ⟨parent', hparent', hs'⟩ := hg.scopes up parent hparent
      exact ⟨parent', hparent', (hs'.children _ _).2 (.inl hplace)⟩
  · intro id new hnew declId hmem
    obtain ⟨old, hold, hs⟩ := hg.inv hnew
    obtain ⟨i, hi⟩ := List.getElem?_of_mem hmem
    rw [hdecls]
    rcases (hs.children i _).1 hi with hlisted | ⟨-, -, heq⟩
    · exact h.declared id old hold declId (List.mem_of_getElem? hlisted)
    · exact hdecl declId heq.symm
  · have hparents : ∀ up down, IsParent tree' up down →
        IsParent tree up down ∨ (up = at_ ∧ added = .Scope down) := by
      rintro up down ⟨new, hnew, hup⟩
      obtain ⟨old, hold, hs⟩ := hg.inv hnew
      rw [hs.parent] at hup
      split_ifs at hup with hadded
      · exact .inr ⟨(Option.some.inj hup).symm, hadded⟩
      · exact .inl ⟨old, hold, hup⟩
    cases added with
    | Decl declId =>
      exact h.rooted_of_parents fun up down hup =>
        (hparents up down hup).resolve_right fun hlast => nomatch hlast.2
    | Scope childId =>
      obtain ⟨-, hfree, hbelow⟩ := hlinked childId rfl
      exact rooted_addChildScope h hfree hbelow fun up down hup =>
        (hparents up down hup).imp_right fun hlast =>
          ⟨hlast.1, (inj hlast.2).symm⟩

theorem linked_addDeclToScope {id : LuaScopeId} {scope : LuaScope}
    (hscope : scopeAt tree id = some scope) {declId : LuaDeclId}
    (hdecl : (tree.getDecl declId).isSome) : Linked (tree.addDeclToScope id declId) := by
  have hshape := sameShape_addDeclToScope hscope declId
  refine linked_grown h (grown_addDeclToScope hscope declId) ?_ ?_ hshape.getDecl_eq
    (by rw [hscope]; rfl) nofun ?_
  · rw [hshape.places, hshape.scopes]
    show tree.scopeChildIndex.length = (tree.scopes.modify _ _).length
    rw [List.length_modify, h.places]
  · exact fun id' _ _ => (hshape.childIndex_eq id').trans (if_neg nofun).symm
  · exact fun declId' heq => ScopeOrDeclId.Decl.inj heq ▸ hdecl

theorem linked_addChildScope {parentId childId : LuaScopeId} {parent child : LuaScope}
    (hparent : scopeAt tree parentId = some parent) (hchild : scopeAt tree childId = some child)
    (hfree : ∀ up, ¬ IsParent tree up childId) (hbelow : ¬ Within tree childId parentId) :
    Linked (tree.addChildScope parentId childId) := by
  have hshape := sameShape_addChildScope tree parentId childId
  have hne : childId ≠ parentId := by
    rintro rfl
    exact hbelow .refl
  refine linked_grown h (grown_addChildScope hparent hchild hne) ?_ ?_ ?_
    (by rw [hparent]; rfl) ?_ nofun
  · rw [hshape.places, hshape.scopes]
    unfold linkScope listChild
    rw [getScope_of_scopeAt hparent]
    show (tree.scopeChildIndex.set _ _).length = ((tree.scopes.modify _ _).modify _ _).length
    rw [List.length_set, List.length_modify, List.length_modify, h.places]
  · intro id scope hscope
    rw [childIndex_addChildScope hparent hchild h.places (fileId_of_scopeAt hscope)]
    simp only [injEq, eq_comm]
  · exact getDecl_addChildScope hparent childId
  · intro id heq
    obtain rfl := inj heq
    exact ⟨by rw [hchild]; rfl, hfree, hbelow⟩

/-- **A call keeps the scopes linked.** -/
theorem linked_apply (next : Call) (hallowed : Allowed tree next) : Linked (apply tree next) := by
  cases next with
  | createScope range kind => exact linked_createScope h range kind
  | addDecl decl => exact linked_addDecl h decl
  | addChildScope parentId childId =>
    obtain ⟨hparent, hchild, hfree, hbelow⟩ := hallowed
    obtain ⟨parent, hparent⟩ := Option.isSome_iff_exists.1 hparent
    obtain ⟨child, hchild⟩ := Option.isSome_iff_exists.1 hchild
    exact linked_addChildScope h hparent hchild hfree hbelow
  | addDeclToScope scopeId declId =>
    obtain ⟨scope, hscope⟩ := Option.isSome_iff_exists.1 hallowed.1
    exact linked_addDeclToScope h hscope hallowed.2

end

end GluaLs.DeclTree
