/-
  GluaLs.DeclTree.Filed — what the two indexes hold.

  `Filed` says what a walk may match of a scope, read off the scope's children: the
  declarations of the name among them, and the statement scopes among them that hold one.
  Filing keeps both indexes at exactly that, in order of position and place (`Indexed`),
  whether a scope is linked before its declarations come or after.

  The index by name is filed under the name a declaration has when it is added to a scope, so
  a declaration that a scope lists must not give way to one of another name (`KeepsNames`).
-/
import GluaLs.DeclTree.Linked

namespace GluaLs.DeclTree

open GluaLs.Lib GluaLs.Lib.KeyOrder LuaDeclarationTree InterestingChild

/-! ## §1. Filing one child -/

/-- What the index by name holds of a scope and a name. -/
def namedSet (byName : HashMap LuaScopeId (HashMap String VisitSet)) (id : LuaScopeId)
    (name : String) : VisitSet :=
  (((byName.lookup id).getD ∅).lookup name).getD []

theorem namedSet_insert (byName : HashMap LuaScopeId (HashMap String VisitSet))
    (scopeId : LuaScopeId) (name : String) (key : VisitKey) (child : InterestingChild)
    (id : LuaScopeId) (name' : String) :
    namedSet (insertNamedInterestingChild byName scopeId name key child) id name' =
      if id = scopeId ∧ name' = name then
        fileEntry child.isScope key child (namedSet byName scopeId name)
      else namedSet byName id name' := by
  unfold namedSet insertNamedInterestingChild
  rw [lookup_insert_ite]
  by_cases hid : id = scopeId
  · rw [if_pos hid, hid, Option.getD_some, lookup_insert_ite]
    by_cases hname : name' = name
    · rw [if_pos hname, if_pos ⟨rfl, hname⟩]
      rfl
    · rw [if_neg hname, if_neg fun h => hname h.2]
  · rw [if_neg hid, if_neg fun h => hid h.1]

/-- The sets a child is filed in: that of all children, and those of its names. -/
def InNames (names : List String) : Option String → Prop
  | none => True
  | some name => name ∈ names

section

variable {key : VisitKey} {child : InterestingChild}

/-- An entry that may be filed under its key. -/
def Fits (key : VisitKey) (child : InterestingChild) (entries : VisitSet) : Prop :=
  Ascending entries ∧ ∀ b, (key, b) ∈ entries → child.isScope = true ∧ b = child

theorem fits_fileEntry {entries : VisitSet} (h : Fits key child entries)
    (hscope : child.isScope = true) :
    Fits key child (fileEntry child.isScope key child entries) := by
  refine ⟨ascending_fileEntry h.1 h.2, ?_⟩
  intro b hb
  rcases (mem_fileEntry h.1 h.2 _).1 hb with heq | hold
  · exact ⟨hscope, congrArg Prod.snd heq⟩
  · exact h.2 b hold

/-- Filing a child under several names. -/
theorem namedSet_foldl_insert (id : LuaScopeId) (names : List String)
    (hnames : child.isScope = true ∨ names.Nodup) :
    ∀ byName : HashMap LuaScopeId (HashMap String VisitSet),
    (∀ name ∈ names, Fits key child (namedSet byName id name)) →
    ∀ id' name', Ascending (namedSet byName id' name') →
      Ascending (namedSet (names.foldl (fun byName name =>
        insertNamedInterestingChild byName id name key child) byName) id' name') ∧
      ∀ e, e ∈ namedSet (names.foldl (fun byName name =>
        insertNamedInterestingChild byName id name key child) byName) id' name' ↔
        (id' = id ∧ name' ∈ names ∧ e = (key, child)) ∨ e ∈ namedSet byName id' name' := by
  induction names with
  | nil =>
    intro byName _ id' name' hsorted
    exact ⟨hsorted, fun e => by simp⟩
  | cons name names ih =>
    intro byName hfits id' name' hsorted
    have hfit : Fits key child (namedSet byName id name) := hfits name (.head _)
    have hfits' : ∀ n ∈ names, Fits key child
        (namedSet (insertNamedInterestingChild byName id name key child) id n) := by
      intro n hn
      rw [namedSet_insert]
      split_ifs with heq
      · rcases hnames with hscope | hnodup
        · exact fits_fileEntry hfit hscope
        · rw [heq.2] at hn
          exact absurd hn (List.nodup_cons.1 hnodup).1
      · exact hfits n (.tail _ hn)
    have hone : Ascending (namedSet (insertNamedInterestingChild byName id name key child)
          id' name') ∧
        ∀ e, e ∈ namedSet (insertNamedInterestingChild byName id name key child) id' name' ↔
          (id' = id ∧ name' = name ∧ e = (key, child)) ∨ e ∈ namedSet byName id' name' := by
      rw [namedSet_insert]
      split_ifs with heq
      · obtain ⟨rfl, rfl⟩ := heq
        refine ⟨ascending_fileEntry hfit.1 hfit.2, fun e => ?_⟩
        rw [mem_fileEntry hfit.1 hfit.2]
        simp
      · exact ⟨hsorted, fun e => ⟨.inr, fun h => h.resolve_left fun hnew =>
          heq ⟨hnew.1, hnew.2.1⟩⟩⟩
    obtain ⟨hsorted', hmem'⟩ := ih (hnames.imp_right fun h => (List.nodup_cons.1 h).2) _ hfits'
      id' name' hone.1
    refine ⟨hsorted', fun e => ?_⟩
    rw [List.foldl_cons, hmem' e, hone.2 e, List.mem_cons]
    tauto

/-- **What the indexes hold after a child is filed.** -/
theorem visitSet_fileChild {tree : LuaDeclarationTree} {id : LuaScopeId} {names : List String}
    (hnames : child.isScope = true ∨ names.Nodup)
    (hfits : ∀ name, Fits key child (tree.visitSet id name)) (id' : LuaScopeId)
    (name : Option String) (hsorted : Ascending (tree.visitSet id' name)) :
    Ascending ((tree.fileChild id key child names).visitSet id' name) ∧
    ∀ e, e ∈ (tree.fileChild id key child names).visitSet id' name ↔
      (id' = id ∧ InNames names name ∧ e = (key, child)) ∨ e ∈ tree.visitSet id' name := by
  cases name with
  | some name =>
    exact namedSet_foldl_insert id names hnames tree.interestingChildrenByName
      (fun n _ => hfits (some n)) id' name hsorted
  | none =>
    have hset : (tree.fileChild id key child names).visitSet id' none =
        if id' = id then fileEntry child.isScope key child (tree.visitSet id none)
        else tree.visitSet id' none := by
      show ((tree.interestingChildren.insert id _).lookup id').getD [] = _
      rw [lookup_insert_ite]
      split_ifs <;> rfl
    obtain ⟨hasc, hfree⟩ := hfits none
    rw [hset]
    split_ifs with heq
    · refine ⟨ascending_fileEntry hasc hfree, fun e => ?_⟩
      rw [mem_fileEntry hasc hfree, heq]
      simp [InNames]
    · exact ⟨hsorted, fun e => ⟨.inr, fun h => h.resolve_left fun hnew => heq hnew.1⟩⟩

end

/-! ## §2. What may match -/

/-- The declaration has the name looked for, if one is. -/
def Declares (tree : LuaDeclarationTree) : Option String → LuaDeclId → Prop
  | none, _ => True
  | some name, declId => (tree.getDecl declId).map LuaDecl.name = some name

/-- **What a walk may match of a scope**, and the key it is filed under. -/
inductive Filed (tree : LuaDeclarationTree) (name : Option String) (id : LuaScopeId) :
    VisitKey → InterestingChild → Prop where
  | decl {scope : LuaScope} {i : Nat} {declId : LuaDeclId}
      (hscope : scopeAt tree id = some scope) (hat : scope.children[i]? = some (.Decl declId))
      (hname : Declares tree name declId) :
      Filed tree name id (toLex (declId.position, i)) (.Decl declId)
  | scope {scope child : LuaScope} {i : Nat} {childId : LuaScopeId} {declId : LuaDeclId}
      (hscope : scopeAt tree id = some scope) (hat : scope.children[i]? = some (.Scope childId))
      (hchild : scopeAt tree childId = some child) (hkind : child.kind.opensInto = true)
      (hdecl : declId ∈ child.declIds) (hname : Declares tree name declId) :
      Filed tree name id (toLex (child.getPosition, i)) (.Scope childId)

/-- **Both indexes hold what may match**, in order. -/
structure Indexed (tree : LuaDeclarationTree) : Prop where
  ascending : ∀ name id, Ascending (tree.visitSet id name)
  mem_iff : ∀ name id key child, (key, child) ∈ tree.visitSet id name ↔ Filed tree name id key child

/-- The child an entry stands for. -/
def InterestingChild.toChild : InterestingChild → ScopeOrDeclId
  | .Decl id => .Decl id
  | .Scope id => .Scope id

theorem InterestingChild.toChild_injective : Function.Injective toChild := by
  intro a b h
  cases a <;> cases b <;> simp_all [toChild]

theorem mem_declIds {scope : LuaScope} {declId : LuaDeclId} :
    declId ∈ scope.declIds ↔ ScopeOrDeclId.Decl declId ∈ scope.children := by
  unfold LuaScope.declIds
  rw [List.mem_filterMap]
  constructor
  · rintro ⟨child, hmem, heq⟩
    cases child with
    | Decl id => rwa [← Option.some.inj heq]
    | Scope id => exact nomatch heq
  · exact fun hmem => ⟨_, hmem, rfl⟩

/-- The declaration is among the children of a scope. -/
def Listed (tree : LuaDeclarationTree) (declId : LuaDeclId) : Prop :=
  ∃ id scope, scopeAt tree id = some scope ∧ ScopeOrDeclId.Decl declId ∈ scope.children

/-- The key of an entry tells which child it stands for. -/
theorem Filed.listed {tree : LuaDeclarationTree} {name : Option String} {id : LuaScopeId}
    {key : VisitKey} {child : InterestingChild} (h : Filed tree name id key child) :
    ∃ scope, scopeAt tree id = some scope ∧
      scope.children[(ofLex key).2]? = some child.toChild := by
  cases h with
  | decl hscope hat hname => exact ⟨_, hscope, hat⟩
  | scope hscope hat hchild hkind hdecl hname => exact ⟨_, hscope, hat⟩

section

variable {tree : LuaDeclarationTree} {id id' : LuaScopeId} {scope : LuaScope}
variable {name : Option String} {key : VisitKey} {entry : InterestingChild}

theorem Declares.congr {tree' : LuaDeclarationTree} {declId : LuaDeclId}
    (h : tree'.getDecl declId = tree.getDecl declId) :
    Declares tree' name declId ↔ Declares tree name declId := by
  cases name with
  | none => exact .rfl
  | some name =>
    show (tree'.getDecl declId).map _ = _ ↔ _
    rw [h]
    exact .rfl

/-- A child that may match, and the key it is filed under. -/
def FiledAs (tree : LuaDeclarationTree) (name : Option String) (i : Nat) (key : VisitKey)
    (entry : InterestingChild) : ScopeOrDeclId → Prop
  | .Decl declId => Declares tree name declId ∧
      (key, entry) = (toLex (declId.position, i), .Decl declId)
  | .Scope childId => ∃ child, scopeAt tree childId = some child ∧ child.kind.opensInto = true ∧
      (∃ declId ∈ child.declIds, Declares tree name declId) ∧
      (key, entry) = (toLex (child.getPosition, i), .Scope childId)

theorem filed_iff : Filed tree name id key entry ↔
    ∃ scope i c, scopeAt tree id = some scope ∧ scope.children[i]? = some c ∧
      FiledAs tree name i key entry c := by
  constructor
  · intro hfiled
    cases hfiled with
    | decl hscope hat hname => exact ⟨_, _, _, hscope, hat, hname, rfl⟩
    | scope hscope hat hchild hkind hdecl hname =>
      exact ⟨_, _, _, hscope, hat, _, hchild, hkind, ⟨_, hdecl, hname⟩, rfl⟩
  · rintro ⟨scope, i, c, hscope, hat, hfiled⟩
    cases c with
    | Decl declId =>
      obtain ⟨hname, heq⟩ := hfiled
      cases heq
      exact .decl hscope hat hname
    | Scope childId =>
      obtain ⟨child, hchild, hkind, ⟨declId, hdecl, hname⟩, heq⟩ := hfiled
      cases heq
      exact .scope hscope hat hchild hkind hdecl hname

section

variable {tree' : LuaDeclarationTree} {at_ : LuaScopeId} {place : Nat} {added : ScopeOrDeclId}
variable (hg : Grown tree tree' at_ place added)
include hg

/-- What is filed of a scope that gets a child. -/
theorem filed_grown (hat : (scopeAt tree at_).isSome) :
    Filed tree' name id' key entry ↔
      (∃ scope i c, scopeAt tree id' = some scope ∧ scope.children[i]? = some c ∧
        FiledAs tree' name i key entry c) ∨
      (id' = at_ ∧ FiledAs tree' name place key entry added) := by
  rw [filed_iff]
  constructor
  · rintro ⟨new, i, c, hnew, hc, hfiled⟩
    obtain ⟨old, hold, hs⟩ := hg.inv hnew
    rcases (hs.children i c).1 hc with hc | ⟨rfl, rfl, rfl⟩
    · exact .inl ⟨old, i, c, hold, hc, hfiled⟩
    · exact .inr ⟨rfl, hfiled⟩
  · rintro (⟨old, i, c, hold, hc, hfiled⟩ | ⟨rfl, hfiled⟩)
    · obtain ⟨new, hnew, hs⟩ := hg.scopes id' old hold
      exact ⟨new, i, c, hnew, (hs.children i c).2 (.inl hc), hfiled⟩
    · obtain ⟨old, hold⟩ := Option.isSome_iff_exists.1 hat
      obtain ⟨new, hnew, hs⟩ := hg.scopes id' old hold
      exact ⟨new, place, added, hnew, (hs.children _ _).2 (.inr ⟨rfl, rfl, rfl⟩), hfiled⟩

/-- A child is filed as it was, or holds the declaration that is added. -/
theorem filedAs_grown (hdeclares : ∀ d, Declares tree' name d ↔ Declares tree name d) (i : Nat)
    (c : ScopeOrDeclId) : FiledAs tree' name i key entry c ↔ FiledAs tree name i key entry c ∨
      (c = .Scope at_ ∧ ∃ scope declId, scopeAt tree at_ = some scope ∧
        scope.kind.opensInto = true ∧ added = .Decl declId ∧ Declares tree name declId ∧
        (key, entry) = (toLex (scope.getPosition, i), .Scope at_)) := by
  have hdeclIds : ∀ {childId : LuaScopeId} {old new : LuaScope} {d : LuaDeclId},
      GrownScope at_ place added childId old new →
      (d ∈ new.declIds ↔ d ∈ old.declIds ∨ (childId = at_ ∧ added = .Decl d)) := by
    intro childId old new d hs
    rw [mem_declIds, mem_declIds, List.mem_iff_getElem?, List.mem_iff_getElem?]
    simp only [hs.children, exists_or, exists_and_left, exists_eq_left, eq_comm (b := added)]
  have hposition : ∀ {childId : LuaScopeId} {old new : LuaScope},
      GrownScope at_ place added childId old new → new.getPosition = old.getPosition :=
    fun hs => congrArg TextRange.start hs.range
  cases c with
  | Decl declId =>
    show _ ∧ _ ↔ (_ ∧ _) ∨ _
    rw [hdeclares]
    exact ⟨.inl, fun h => h.resolve_right fun hlast => nomatch hlast.1⟩
  | Scope childId =>
    constructor
    · rintro ⟨new, hnew, hkind, ⟨d, hdecl, hname⟩, heq⟩
      obtain ⟨old, hold, hs⟩ := hg.inv hnew
      rw [hs.kind] at hkind
      rw [hposition hs] at heq
      have hname' := (hdeclares d).1 hname
      rcases (hdeclIds hs).1 hdecl with hdecl | ⟨rfl, hadded⟩
      · exact .inl ⟨old, hold, hkind, ⟨d, hdecl, hname'⟩, heq⟩
      · exact .inr ⟨rfl, old, d, hold, hkind, hadded, hname', heq⟩
    · rintro (⟨old, hold, hkind, ⟨d, hdecl, hname⟩, heq⟩ |
        ⟨hc, old, d, hold, hkind, hadded, hname, heq⟩)
      · obtain ⟨new, hnew, hs⟩ := hg.scopes childId old hold
        rw [← hs.kind] at hkind
        rw [← hposition hs] at heq
        exact ⟨new, hnew, hkind, ⟨d, (hdeclIds hs).2 (.inl hdecl), (hdeclares d).2 hname⟩, heq⟩
      · obtain rfl := ScopeOrDeclId.Scope.inj hc
        obtain ⟨new, hnew, hs⟩ := hg.scopes childId old hold
        rw [← hs.kind] at hkind
        rw [← hposition hs] at heq
        exact ⟨new, hnew, hkind,
          ⟨d, (hdeclIds hs).2 (.inr ⟨rfl, hadded⟩), (hdeclares d).2 hname⟩, heq⟩

end

/-- A declaration added to a scope may be matched there; a statement scope that has it, in its
    parent. -/
theorem filed_addDeclToScope (h : Linked tree) (hscope : scopeAt tree id = some scope)
    (declId : LuaDeclId) :
    Filed (tree.addDeclToScope id declId) name id' key entry ↔
      Filed tree name id' key entry ∨
      (id' = id ∧ Declares tree name declId ∧
        (key, entry) = (toLex (declId.position, scope.children.length), .Decl declId)) ∨
      (scope.kind.opensInto = true ∧ scope.parent = some id' ∧ Declares tree name declId ∧
        (key, entry) = (toLex (scope.getPosition, tree.childIndex id), .Scope id)) := by
  have hg := grown_addDeclToScope hscope declId
  have hdeclares : ∀ d, Declares (tree.addDeclToScope id declId) name d ↔ Declares tree name d :=
    fun d => Declares.congr ((sameShape_addDeclToScope hscope declId).getDecl_eq d)
  rw [filed_grown hg (by rw [hscope]; rfl), filed_iff]
  simp only [filedAs_grown hg hdeclares]
  constructor
  · rintro (⟨old, i, c, hold, hc, hfiled | ⟨rfl, scope', d, hat, hkind, hadded, hname, heq⟩⟩ |
      ⟨rfl, hfiled | ⟨hlast, -⟩⟩)
    · exact .inl ⟨old, i, c, hold, hc, hfiled⟩
    · obtain rfl := ScopeOrDeclId.Decl.inj hadded
      obtain ⟨child, hchild, hup, hplace⟩ := h.child id' old hold i id hc
      obtain rfl := Option.some.inj (hscope.symm.trans hchild)
      obtain rfl := Option.some.inj (hscope.symm.trans hat)
      exact .inr (.inr ⟨hkind, hup, hname, by rw [heq, hplace]⟩)
    · exact .inr (.inl ⟨rfl, hfiled⟩)
    · exact nomatch hlast
  · rintro (⟨old, i, c, hold, hc, hfiled⟩ | ⟨rfl, hfiled⟩ | ⟨hkind, hup, hname, heq⟩)
    · exact .inl ⟨old, i, c, hold, hc, .inl hfiled⟩
    · exact .inr ⟨rfl, .inl hfiled⟩
    · obtain ⟨parent, hparent, hplace⟩ := h.parent id scope hscope id' hup
      exact .inl ⟨parent, _, _, hparent, hplace,
        .inr ⟨rfl, scope, declId, hscope, hkind, rfl, hname, heq⟩⟩

/-- A statement scope that holds declarations when it is linked may be matched in its
    parent. -/
theorem filed_addChildScope {parentId childId : LuaScopeId} {parent child : LuaScope}
    (hparent : scopeAt tree parentId = some parent) (hchild : scopeAt tree childId = some child)
    (hne : childId ≠ parentId) :
    Filed (tree.addChildScope parentId childId) name id' key entry ↔
      Filed tree name id' key entry ∨
      (id' = parentId ∧ child.kind.opensInto = true ∧
        (∃ declId ∈ child.declIds, Declares tree name declId) ∧
        (key, entry) = (toLex (child.getPosition, parent.children.length), .Scope childId)) := by
  have hg := grown_addChildScope hparent hchild hne
  have hdeclares : ∀ d, Declares (tree.addChildScope parentId childId) name d ↔
      Declares tree name d := fun d => Declares.congr (getDecl_addChildScope hparent childId d)
  rw [filed_grown hg (by rw [hparent]; rfl), filed_iff]
  simp only [filedAs_grown hg hdeclares, reduceCtorEq, false_and, and_false, exists_false, or_false]
  refine or_congr_right (and_congr_right fun _ => ?_)
  unfold FiledAs
  simp only [hchild, Option.some.injEq, exists_eq_left']

/-- Scopes with children that stay, and declarations in them that go on declaring. -/
theorem Filed.imp {tree' : LuaDeclarationTree}
    (hscopes : ∀ id scope (i : Nat) c, scopeAt tree id = some scope → scope.children[i]? = some c →
      scopeAt tree' id = some scope)
    (hdeclares : ∀ d, Listed tree d → Declares tree name d → Declares tree' name d)
    (h : Filed tree name id key entry) : Filed tree' name id key entry := by
  cases h with
  | decl hs hlisted hname =>
    exact .decl (hscopes _ _ _ _ hs hlisted) hlisted
      (hdeclares _ ⟨_, _, hs, List.mem_of_getElem? hlisted⟩ hname)
  | scope hs hlisted hc hkind hdecl hname =>
    have hmem := mem_declIds.1 hdecl
    obtain ⟨j, hj⟩ := List.getElem?_of_mem hmem
    exact .scope (hscopes _ _ _ _ hs hlisted) hlisted (hscopes _ _ _ _ hc hj) hkind hdecl
      (hdeclares _ ⟨_, _, hc, hmem⟩ hname)

/-- A scope that has just been made holds nothing. -/
theorem filed_createScope (range : TextRange) (kind : LuaScopeKind) :
    Filed (tree.createScope range kind) name id' key entry ↔ Filed tree name id' key entry := by
  have hdeclares : ∀ d, Declares (tree.createScope range kind) name d ↔ Declares tree name d :=
    fun d => Declares.congr rfl
  constructor
  · refine Filed.imp (fun other s i c hs hc => ?_) fun d _ => (hdeclares d).1
    rw [scopeAt_createScope] at hs
    split_ifs at hs
    · cases hs
      exact nomatch hc
    · exact hs
  · refine Filed.imp (fun other old _ _ hold _ => ?_) fun d _ => (hdeclares d).2
    rw [scopeAt_createScope, if_neg, hold]
    rintro rfl
    rw [scopeAt_nextScopeId] at hold
    exact nomatch hold

end

/-! ## §3. Calls keep the indexes -/

/-- A declaration that a scope lists gives way to none of another name. -/
def KeepsNames (tree : LuaDeclarationTree) : Call → Prop
  | .addDecl decl => Listed tree decl.getId →
      (tree.getDecl decl.getId).map LuaDecl.name = some decl.name
  | _ => True

section

variable {tree : LuaDeclarationTree}

theorem keepsNames_of_unlisted {decl : LuaDecl}
    (h : ∀ scope ∈ tree.scopes, ScopeOrDeclId.Decl decl.getId ∉ scope.children) :
    KeepsNames tree (.addDecl decl) := by
  rintro ⟨id, scope, hscope, hmem⟩
  exact absurd hmem (h scope (List.mem_of_getElem? (getScope_of_scopeAt hscope)))

theorem filed_addDecl {decl : LuaDecl} (hkeeps : KeepsNames tree (.addDecl decl))
    {name : Option String} {id : LuaScopeId} {key : VisitKey} {entry : InterestingChild} :
    Filed (tree.addDecl decl) name id key entry ↔ Filed tree name id key entry := by
  have hdeclares : ∀ d, Listed tree d →
      (Declares (tree.addDecl decl) name d ↔ Declares tree name d) := by
    intro d hlisted
    cases name with
    | none => exact .rfl
    | some name =>
      have hget : (tree.addDecl decl).getDecl d =
          if d = decl.getId then some decl else tree.getDecl d :=
        lookup_insert_ite tree.decls decl.getId d decl
      show ((tree.addDecl decl).getDecl d).map _ = _ ↔ (tree.getDecl d).map _ = _
      rw [hget]
      split_ifs with heq
      · rw [heq, hkeeps (heq ▸ hlisted)]
        exact .rfl
      · exact .rfl
  exact ⟨Filed.imp (fun _ _ _ _ hs _ => hs) fun d hd => (hdeclares d hd).1,
    Filed.imp (fun _ _ _ _ hs _ => hs) fun d hd => (hdeclares d hd).2⟩

theorem indexed_new (fileId : FileId) : Indexed (LuaDeclarationTree.new fileId) := by
  have hempty : ∀ name id, (LuaDeclarationTree.new fileId).visitSet id name = [] := by
    intro name id
    cases name <;> rfl
  constructor
  · intro name id
    rw [hempty]
    exact ascending_nil
  · intro name id key child
    rw [hempty]
    constructor
    · exact nofun
    · intro hfiled
      obtain ⟨scope, hscope, -⟩ := hfiled.listed
      exact nomatch getScope_of_scopeAt hscope

/-- The names a declaration is filed under. -/
theorem inNames_toList {declId : LuaDeclId} (hdecl : (tree.getDecl declId).isSome)
    (name : Option String) :
    InNames ((tree.getDecl declId).map LuaDecl.name).toList name ↔ Declares tree name declId := by
  obtain ⟨decl, hdecl⟩ := Option.isSome_iff_exists.1 hdecl
  cases name with
  | none => exact .rfl
  | some name =>
    show name ∈ _ ↔ (tree.getDecl declId).map LuaDecl.name = some name
    rw [hdecl, Option.mem_toList]

theorem inNames_declIds {child : LuaScope} (hdecls : child.declIds ≠ []) (name : Option String) :
    InNames (child.declIds.filterMap fun id => (tree.getDecl id).map LuaDecl.name) name ↔
      ∃ declId ∈ child.declIds, Declares tree name declId := by
  cases name with
  | none =>
    obtain ⟨declId, hmem⟩ := List.exists_mem_of_ne_nil _ hdecls
    exact ⟨fun _ => ⟨declId, hmem, trivial⟩, fun _ => trivial⟩
  | some name => exact List.mem_filterMap

/-- An entry under the key of a listed child stands for that child. -/
theorem Indexed.eq_of_key (hindexed : Indexed tree) {name : Option String} {id : LuaScopeId}
    {scope : LuaScope} (hscope : scopeAt tree id = some scope) {key : VisitKey}
    {b : InterestingChild} (hb : (key, b) ∈ tree.visitSet id name) :
    scope.children[(ofLex key).2]? = some b.toChild := by
  obtain ⟨scope', hscope', hat⟩ := ((hindexed.mem_iff name id key b).1 hb).listed
  rw [hscope] at hscope'
  rw [Option.some.inj hscope']
  exact hat

section

variable (h : Linked tree) (hindexed : Indexed tree)
include h hindexed

theorem indexed_addDeclToScope {id : LuaScopeId}
    {scope : LuaScope} (hscope : scopeAt tree id = some scope) {declId : LuaDeclId}
    (hdecl : (tree.getDecl declId).isSome) : Indexed (tree.addDeclToScope id declId) := by
  let names := ((tree.getDecl declId).map LuaDecl.name).toList
  have hnodup : names.Nodup := by
    show ((tree.getDecl declId).map LuaDecl.name).toList.Nodup
    cases (tree.getDecl declId).map LuaDecl.name with
    | none => exact List.nodup_nil
    | some name => exact List.nodup_singleton name
  let key : VisitKey := toLex (declId.position, scope.children.length)
  let grown := tree.modifyScope id fun scope => scope.addDecl declId
  -- The declaration's key is new: its place is behind all children.
  have hfits : ∀ name, Fits key (.Decl declId) (grown.visitSet id name) := by
    intro name
    refine ⟨hindexed.ascending name id, fun b hb => ?_⟩
    have hlast : scope.children[scope.children.length]? = some b.toChild :=
      hindexed.eq_of_key hscope hb
    rw [List.getElem?_eq_none le_rfl] at hlast
    exact nomatch hlast
  have hlisted := fun id' name => visitSet_fileChild (.inr hnodup) hfits id' name
    (hindexed.ascending name id')
  have hold :
      ∀ name id' k b, (k, b) ∈ (grown.fileChild id key (.Decl declId) names).visitSet id' name ↔
      (id' = id ∧ Declares tree name declId ∧ (k, b) = (key, .Decl declId)) ∨
        Filed tree name id' k b := by
    intro name id' k b
    rw [(hlisted id' name).2, inNames_toList hdecl]
    exact or_congr_right (hindexed.mem_iff name id' k b)
  by_cases hinto : scope.kind.opensInto = true ∧ ∃ parentId, scope.parent = some parentId
  · obtain ⟨hkind, parentId, hup⟩ := hinto
    obtain ⟨parent, hparent, hplace⟩ := h.parent id scope hscope parentId hup
    -- The scope's key in its parent is its own, if it is there already.
    have hfits' : ∀ name, Fits (toLex (scope.getPosition, tree.childIndex id)) (.Scope id)
        ((grown.fileChild id key (.Decl declId) names).visitSet parentId name) := by
      intro name
      refine ⟨(hlisted parentId name).1, fun b hb => ⟨rfl, ?_⟩⟩
      rcases (hold name parentId _ b).1 hb with ⟨heq, -, hkey⟩ | hfiled
      · have hlast : tree.childIndex id = scope.children.length :=
          congrArg (fun e => (ofLex e.1).2) hkey
        rw [heq, hscope] at hparent
        cases hparent
        rw [hlast, List.getElem?_eq_none le_rfl] at hplace
        exact nomatch hplace
      · obtain ⟨parent', hparent', hat⟩ := hfiled.listed
        rw [hparent] at hparent'
        cases hparent'
        exact toChild_injective (Option.some.inj (hat.symm.trans hplace))
    have hscopes : (Scope id).isScope = true ∨ names.Nodup := .inl rfl
    have hboth := fun id' name => visitSet_fileChild hscopes hfits' id' name
      (hlisted id' name).1
    have hstep : tree.addDeclToScope id declId =
        (grown.fileChild id key (.Decl declId) names).fileChild parentId
          (toLex (scope.getPosition, tree.childIndex id)) (.Scope id) names := by
      unfold addDeclToScope
      rw [getScope_of_scopeAt hscope]
      dsimp only
      rw [hkind, hup]
    rw [hstep]
    constructor
    · exact fun name id' => (hboth id' name).1
    · intro name id' k b
      rw [(hboth id' name).2, inNames_toList hdecl, hold, ← hstep, filed_addDeclToScope h hscope,
        hup, Option.some.injEq]
      tauto
  · have hnone : tree.addDeclToScope id declId = grown.fileChild id key (.Decl declId) names := by
      unfold addDeclToScope
      rw [getScope_of_scopeAt hscope]
      dsimp only
      split
      · exact absurd ⟨by assumption, _, by assumption⟩ hinto
      · rfl
    rw [hnone]
    constructor
    · exact fun name id' => (hlisted id' name).1
    · intro name id' k b
      rw [hold, ← hnone, filed_addDeclToScope h hscope]
      constructor
      · rintro (hnew | hfiled)
        · exact .inr (.inl hnew)
        · exact .inl hfiled
      · rintro (hfiled | hnew | ⟨hkind, hup, -⟩)
        · exact .inr hfiled
        · exact .inl hnew
        · exact absurd ⟨hkind, _, hup⟩ hinto

theorem indexed_addChildScope {parentId childId : LuaScopeId} {parent child : LuaScope}
    (hparent : scopeAt tree parentId = some parent) (hchild : scopeAt tree childId = some child)
    (hne : childId ≠ parentId) : Indexed (tree.addChildScope parentId childId) := by
  have hnew : (tree.linkScope parentId childId).getScope childId =
      some (child.setParent (some parentId)) := by
    apply getScope_of_scopeAt
    rw [← (sameShape_addChildScope tree parentId childId).scopeAt_eq,
      scopeAt_addChildScope hparent hchild hne, if_pos rfl]
  have hindex : (tree.linkScope parentId childId).childIndex childId = parent.children.length := by
    rw [← (sameShape_addChildScope tree parentId childId).childIndex_eq,
      childIndex_addChildScope hparent hchild h.places (fileId_of_scopeAt hchild), if_pos rfl]
  have hsets : ∀ id name, (tree.linkScope parentId childId).visitSet id name =
      tree.visitSet id name := by
    intro id name
    unfold linkScope listChild
    rw [getScope_of_scopeAt hparent]
    cases name <;> rfl
  have hdecls : (tree.linkScope parentId childId).getDecl = tree.getDecl := by
    unfold linkScope listChild
    rw [getScope_of_scopeAt hparent]
    rfl
  let names := child.declIds.filterMap fun id => (tree.getDecl id).map LuaDecl.name
  let key : VisitKey := toLex (child.getPosition, parent.children.length)
  have hstep : tree.addChildScope parentId childId =
      if !child.declIds.isEmpty && child.kind.opensInto then
        (tree.linkScope parentId childId).fileChild parentId key (.Scope childId) names
      else tree.linkScope parentId childId := by
    unfold addChildScope fileChildScopeWithDecls
    rw [hnew]
    rw [hindex, hdecls]
    rfl
  have hfits : ∀ name, Fits key (.Scope childId)
      ((tree.linkScope parentId childId).visitSet parentId name) := by
    intro name
    rw [hsets]
    refine ⟨hindexed.ascending name parentId, fun b hb => ⟨rfl, ?_⟩⟩
    have hlast : parent.children[parent.children.length]? = some b.toChild :=
      hindexed.eq_of_key hparent hb
    rw [List.getElem?_eq_none le_rfl] at hlast
    exact nomatch hlast
  have hsorted : ∀ id name, Ascending ((tree.linkScope parentId childId).visitSet id name) := by
    intro id name
    rw [hsets]
    exact hindexed.ascending name id
  by_cases hinto : (!child.declIds.isEmpty && child.kind.opensInto) = true
  · rw [if_pos hinto] at hstep
    obtain ⟨hdecl, hkind⟩ := Bool.and_eq_true_iff.1 hinto
    have hne' : child.declIds ≠ [] := by
      intro hnil
      rw [hnil] at hdecl
      cases hdecl
    have hscopes : (Scope childId).isScope = true ∨ names.Nodup := .inl rfl
    have hfiled := fun id name => visitSet_fileChild hscopes hfits id name
      (hsorted id name)
    rw [hstep]
    constructor
    · exact fun name id => (hfiled id name).1
    · intro name id k b
      rw [(hfiled id name).2, inNames_declIds hne', hsets, hindexed.mem_iff, ← hstep,
        filed_addChildScope hparent hchild hne]
      constructor
      · rintro (⟨hid, hnames, heq⟩ | hold)
        · exact .inr ⟨hid, hkind, hnames, heq⟩
        · exact .inl hold
      · rintro (hold | ⟨hid, -, hnames, heq⟩)
        · exact .inr hold
        · exact .inl ⟨hid, hnames, heq⟩
  · rw [if_neg hinto] at hstep
    rw [hstep]
    constructor
    · exact fun name id => hsorted id name
    · intro name id k b
      rw [hsets, hindexed.mem_iff, ← hstep, filed_addChildScope hparent hchild hne]
      constructor
      · exact .inl
      · rintro (hold | ⟨-, hkind, ⟨declId, hmem, -⟩, -⟩)
        · exact hold
        · have hne' : child.declIds.isEmpty = false := by
            rw [Bool.eq_false_iff, ne_eq, List.isEmpty_iff]
            exact List.ne_nil_of_mem hmem
          rw [hne', hkind] at hinto
          exact absurd rfl hinto

/-- **A call that keeps names keeps the indexes.** -/
theorem indexed_apply (next : Call) (hallowed : Allowed tree next) (hkeeps : KeepsNames tree next) :
    Indexed (apply tree next) := by
  cases next with
  | createScope range kind =>
    show Indexed (tree.createScope range kind)
    have hsets : ∀ name id, (tree.createScope range kind).visitSet id name =
        tree.visitSet id name := by
      intro name id
      cases name <;> rfl
    constructor
    · intro name id
      rw [hsets]
      exact hindexed.ascending name id
    · intro name id key child
      rw [hsets, filed_createScope]
      exact hindexed.mem_iff name id key child
  | addDecl decl =>
    show Indexed (tree.addDecl decl)
    have hsets : ∀ name id, (tree.addDecl decl).visitSet id name = tree.visitSet id name := by
      intro name id
      cases name <;> rfl
    constructor
    · intro name id
      rw [hsets]
      exact hindexed.ascending name id
    · intro name id key child
      rw [hsets, filed_addDecl hkeeps]
      exact hindexed.mem_iff name id key child
  | addChildScope parentId childId =>
    obtain ⟨hparent, hchild, -, hbelow⟩ := hallowed
    obtain ⟨parent, hparent⟩ := Option.isSome_iff_exists.1 hparent
    obtain ⟨child, hchild⟩ := Option.isSome_iff_exists.1 hchild
    refine indexed_addChildScope h hindexed hparent hchild ?_
    rintro rfl
    exact hbelow .refl
  | addDeclToScope scopeId declId =>
    obtain ⟨scope, hscope⟩ := Option.isSome_iff_exists.1 hallowed.1
    exact indexed_addDeclToScope h hindexed hscope hallowed.2

end

end

/-! ## §4. Built trees -/

/-- **The scopes of every tree that is built are linked.** -/
theorem linked_of_built {ok : LuaDeclarationTree → Call → Prop}
    (hallowed : ∀ tree next, ok tree next → Allowed tree next) {fileId : FileId}
    {tree : LuaDeclarationTree} (h : Built ok fileId tree) : Linked tree := by
  induction h with
  | new => exact linked_new fileId
  | call next before allowed ih => exact linked_apply ih next (hallowed _ next allowed)

/-- **Both indexes of every tree that is built hold what may match**, if its calls keep
    names. -/
theorem indexed_of_built {fileId : FileId} {tree : LuaDeclarationTree}
    (h : Built (fun tree next => Allowed tree next ∧ KeepsNames tree next) fileId tree) :
    Indexed tree := by
  induction h with
  | new => exact indexed_new fileId
  | call next before allowed ih =>
    exact indexed_apply (linked_of_built (fun _ _ h => h.1) before) ih next allowed.1 allowed.2

end GluaLs.DeclTree
