/-
  GluaLs.DeclTree.Lookup — looking a name up finds what the plain walk would.

  `find_local_decl` walks the part of each scope that is filed under its name, and stops at
  the first declaration of the name; the plain walk goes over all of it.  Both take the same
  route.  On it, the entries under the name are the plain walk's entries less some that hold
  no declaration of the name (`visitSet_eq_filter`), so both come to the same one first.
-/
import GluaLs.DeclTree.Filed
import GluaLs.DeclTree.Route
import GluaLs.DeclTree.ScopeSearch

namespace GluaLs.DeclTree

open GluaLs.Lib GluaLs.Lib.KeyOrder LuaDeclarationTree

/-! ## §1. The first declaration of a name -/

/-- The declaration a visit is of. -/
def visitDecl (tree : LuaDeclarationTree) : ScopeOrDeclId → Option LuaDecl
  | .Decl id => tree.getDecl id
  | .Scope _ => none

/-- The declaration of the name a visit is of. -/
def visitNamed (tree : LuaDeclarationTree) (name : String) (visit : ScopeOrDeclId) :
    Option LuaDecl :=
  (visitDecl tree visit).filter fun decl => decl.name = name

section

variable {tree : LuaDeclarationTree} {name : String}

theorem matchName_none (visit : ScopeOrDeclId) :
    tree.matchName name visit none =
      (visitNamed tree name visit, (visitNamed tree name visit).isSome) := by
  cases visit with
  | Scope id => rfl
  | Decl id =>
    cases hget : tree.getDecl id with
    | none => simp [matchName, visitNamed, visitDecl, hget]
    | some decl =>
      by_cases hname : decl.name = name
      · simp [matchName, visitNamed, visitDecl, hget, hname, Option.filter_some]
      · simp [matchName, visitNamed, visitDecl, hget, hname, Option.filter_some]

/-- What a closure collects that keeps some declarations. -/
theorem loopUntil_collect (keep : LuaDecl → Bool) (visits : List ScopeOrDeclId)
    (result : List LuaDecl) : loopUntil (tree.collect keep) visits result =
      (result ++ (visits.filterMap (visitDecl tree)).filter keep, false) := by
  have hbody : ∀ (visit : ScopeOrDeclId) (result : List LuaDecl),
      tree.collect keep visit result =
        (result ++ ((visitDecl tree visit).filter keep).toList, false) := by
    intro visit result
    cases visit with
    | Scope id => simp [collect, visitDecl]
    | Decl id =>
      cases hget : tree.getDecl id with
      | none => simp [collect, visitDecl, hget]
      | some decl => cases hkeep : keep decl <;>
          simp [collect, visitDecl, hget, hkeep, Option.filter_some]
  rw [loopUntil_of_continues _ _ hbody]
  congr 1
  induction visits generalizing result with
  | nil => simp
  | cons visit visits ih =>
    rw [List.foldl_cons, ih, List.append_assoc, List.filterMap_cons]
    cases visitDecl tree visit with
    | none => rfl
    | some decl =>
      rw [List.filter_cons]
      cases hkeep : keep decl <;> simp [hkeep, Option.filter_some]

theorem find?_visitDecl (visits : List ScopeOrDeclId) :
    (visits.filterMap (visitDecl tree)).find? (fun decl => decl.name = name) =
      visits.findSome? (visitNamed tree name) := by
  induction visits with
  | nil => rfl
  | cons visit visits ih =>
    rw [List.findSome?_cons, List.filterMap_cons]
    unfold visitNamed
    cases visitDecl tree visit with
    | none => exact ih
    | some decl =>
      rw [List.find?_cons, Option.filter_some]
      cases decide (decl.name = name) with
      | true => rfl
      | false => exact ih

end

/-! ## §2. The two indexes -/

/-- The entry holds a declaration of the name. -/
def Holds (tree : LuaDeclarationTree) (name : String) (entry : InterestingChild) : Prop :=
  ∃ visit ∈ entryVisits tree entry, (visitNamed tree name visit).isSome

section

variable {tree : LuaDeclarationTree} {name : String}

theorem visitNamed_decl (id : LuaDeclId) :
    (visitNamed tree name (.Decl id)).isSome ↔ Declares tree (some name) id := by
  show ((tree.getDecl id).filter _).isSome ↔ (tree.getDecl id).map LuaDecl.name = some name
  cases tree.getDecl id with
  | none => simp
  | some decl => simp [Option.isSome_filter]

theorem holds_decl (id : LuaDeclId) :
    Holds tree name (.Decl id) ↔ Declares tree (some name) id := by
  rw [← visitNamed_decl]
  constructor
  · rintro ⟨visit, hvisit, hnamed⟩
    rwa [List.mem_singleton.1 hvisit] at hnamed
  · exact fun hnamed => ⟨.Decl id, List.mem_singleton_self _, hnamed⟩

theorem holds_scope {id : LuaScopeId} {scope : LuaScope} (hscope : tree.getScope id = some scope)
    (hkind : scope.kind.opensInto = true) :
    Holds tree name (.Scope id) ↔ ∃ declId ∈ scope.declIds, Declares tree (some name) declId := by
  have hvisits : entryVisits tree (.Scope id) =
      scope.declIds.map ScopeOrDeclId.Decl ++ [.Scope scope.id] := by
    show ((tree.getScope id).map scopeVisits).getD [] = _
    rw [hscope, Option.map_some, Option.getD_some]
    unfold scopeVisits
    rw [if_pos hkind]
  unfold Holds
  rw [hvisits]
  constructor
  · rintro ⟨visit, hvisit, hnamed⟩
    rcases List.mem_append.1 hvisit with hdecl | hlast
    · obtain ⟨declId, hmem, rfl⟩ := List.mem_map.1 hdecl
      exact ⟨declId, hmem, (visitNamed_decl declId).1 hnamed⟩
    · rw [List.mem_singleton.1 hlast] at hnamed
      exact nomatch hnamed
  · rintro ⟨declId, hmem, hnamed⟩
    exact ⟨.Decl declId, List.mem_append_left _ (List.mem_map_of_mem hmem),
      (visitNamed_decl declId).2 hnamed⟩

/-- What may match under a name is what may match, if it holds a declaration of the name. -/
theorem filed_named_iff (id : LuaScopeId) (key : VisitKey) (entry : InterestingChild) :
    Filed tree (some name) id key entry ↔
      Filed tree none id key entry ∧ Holds tree name entry := by
  constructor
  · intro hfiled
    cases hfiled with
    | decl hscope hat hname => exact ⟨.decl hscope hat trivial, (holds_decl _).2 hname⟩
    | scope hscope hat hchild hkind hdecl hname =>
      exact ⟨.scope hscope hat hchild hkind hdecl trivial,
        (holds_scope (getScope_of_scopeAt hchild) hkind).2 ⟨_, hdecl, hname⟩⟩
  · rintro ⟨hfiled, hholds⟩
    cases hfiled with
    | decl hscope hat _ => exact .decl hscope hat ((holds_decl _).1 hholds)
    | scope hscope hat hchild hkind _ _ =>
      obtain ⟨declId, hdecl, hname⟩ :=
        (holds_scope (getScope_of_scopeAt hchild) hkind).1 hholds
      exact .scope hscope hat hchild hkind hdecl hname

variable (hindexed : Indexed tree)
include hindexed

open Classical in
/-- **What is filed under a name is what is filed, less what holds no declaration of it.** -/
theorem visitSet_eq_filter (id : LuaScopeId) :
    tree.visitSet id (some name) =
      (tree.visitSet id none).filter fun e => decide (Holds tree name e.2) := by
  apply (hindexed.ascending (some name) id).eq_of_mem_iff
    ((hindexed.ascending none id).filter _)
  rintro ⟨key, entry⟩
  rw [List.mem_filter, hindexed.mem_iff, hindexed.mem_iff, filed_named_iff, decide_eq_true_iff]

theorem entriesBefore_eq_filter (id : LuaScopeId) (startPos : TextSize)
    (name' : Option String) : entriesBefore tree id startPos name' =
      ((tree.visitSet id name').filter fun e => decide ((ofLex e.1).1 < startPos)).reverse := by
  unfold entriesBefore
  dsimp only
  rw [take_partitionPoint, (hindexed.ascending name' id).takeWhile_eq_filter]
  intro e e' hlt hbefore
  have hle : (ofLex e.1).1 ≤ (ofLex e'.1).1 := Prod.Lex.monotone_fst _ _ hlt.le
  exact decide_eq_true (lt_of_le_of_lt hle (of_decide_eq_true hbefore))

end

/-- Members whose visits match nothing can be left out. -/
theorem findSome?_flatMap_filter {α β γ : Type} (visits : α → List β) (g : β → Option γ)
    (p : α → Bool) (l : List α) (hskip : ∀ a ∈ l, p a = false → ∀ b ∈ visits a, g b = none) :
    ((l.filter p).flatMap visits).findSome? g = (l.flatMap visits).findSome? g := by
  induction l with
  | nil => rfl
  | cons a l ih =>
    have hrest := ih fun a' ha' => hskip a' (.tail _ ha')
    rw [List.filter_cons, List.flatMap_cons, List.findSome?_append]
    cases hp : p a with
    | true =>
      rw [if_pos rfl, List.flatMap_cons, List.findSome?_append, hrest]
    | false =>
      have hnone : (visits a).findSome? g = none :=
        List.findSome?_eq_none_iff.2 (hskip a (.head _) hp)
      rw [if_neg Bool.false_ne_true, hnone, Option.none_or, hrest]

section

variable {tree : LuaDeclarationTree} {name : String} (hindexed : Indexed tree)
include hindexed

/-- **In one scope both walks come to the same declaration of the name first.** -/
theorem findSome?_childVisits (id : LuaScopeId) (startPos : TextSize) :
    (childVisits tree id startPos (some name)).findSome? (visitNamed tree name) =
      (childVisits tree id startPos none).findSome? (visitNamed tree name) := by
  classical
  unfold childVisits
  have hentries : entriesBefore tree id startPos (some name) =
      (entriesBefore tree id startPos none).filter fun e => decide (Holds tree name e.2) := by
    rw [entriesBefore_eq_filter hindexed, entriesBefore_eq_filter hindexed,
      visitSet_eq_filter hindexed, List.filter_reverse, List.filter_filter, List.filter_filter]
    congr 2
    funext e
    rw [Bool.and_comm]
  rw [hentries]
  apply findSome?_flatMap_filter
  intro e _ hnot visit hvisit
  rw [← Option.not_isSome_iff_eq_none]
  exact fun hnamed => of_decide_eq_false hnot ⟨visit, hvisit, hnamed⟩

theorem findSome?_route (stops : List (LuaScopeId × TextSize)) :
    (stops.flatMap fun stop => childVisits tree stop.1 stop.2 (some name)).findSome?
        (visitNamed tree name) =
      (stops.flatMap fun stop => childVisits tree stop.1 stop.2 none).findSome?
        (visitNamed tree name) := by
  induction stops with
  | nil => rfl
  | cons stop stops ih =>
    rw [List.flatMap_cons, List.flatMap_cons, List.findSome?_append, List.findSome?_append, ih,
      findSome?_childVisits hindexed]

end

/-! ## §3. Whole walks -/

section

variable {tree : LuaDeclarationTree}

theorem descend_mono {position : TextSize} {turns turns' : Nat} (hle : turns ≤ turns') :
    ∀ scope found : LuaScope, tree.descend position turns scope = some found →
      tree.descend position turns' scope = some found := by
  induction turns generalizing turns' with
  | zero => exact nofun
  | succ turns ih =>
    intro scope found h
    obtain ⟨turns', rfl⟩ := Nat.exists_eq_succ_of_ne_zero (by omega : turns' ≠ 0)
    unfold descend at h ⊢
    cases hchild : tree.findChildScope scope position with
    | none =>
      rw [hchild] at h
      exact h
    | some child =>
      rw [hchild] at h
      exact ih (by omega) child found h

variable (h : Linked tree)
include h

theorem scopeAt_of_findChildScope {position : TextSize} {id : LuaScopeId} {scope child : LuaScope}
    (hscope : scopeAt tree id = some scope)
    (hchild : tree.findChildScope scope position = some child) :
    ∃ childId, scopeAt tree childId = some child ∧ IsParent tree id childId := by
  obtain ⟨childId, hmem, hget⟩ := findChildScope_mem hchild
  exact ⟨childId, h.scopeAt_of_child hscope hmem hget⟩

/-- The scope around a position is a scope of the tree. -/
theorem scopeAt_of_descend (position : TextSize) (turns : Nat) : ∀ (id : LuaScopeId)
    (scope found : LuaScope), scopeAt tree id = some scope →
      tree.descend position turns scope = some found → ∃ id', scopeAt tree id' = some found := by
  induction turns with
  | zero => exact nofun
  | succ turns ih =>
    intro id scope found hscope hfound
    unfold descend at hfound
    cases hchild : tree.findChildScope scope position with
    | none =>
      rw [hchild] at hfound
      cases hfound
      exact ⟨id, hscope⟩
    | some child =>
      rw [hchild] at hfound
      obtain ⟨childId, hat, -⟩ := scopeAt_of_findChildScope h hscope hchild
      exact ih childId child found hat hfound

/-- **The search for the scope around a position ends.** -/
theorem descend_ends (position : TextSize) (id : LuaScopeId) : ∀ scope : LuaScope,
    scopeAt tree id = some scope →
    ∃ turns found, tree.descend position turns scope = some found := by
  induction grounded h id with
  | intro id _ ih =>
    intro scope hscope
    cases hchild : tree.findChildScope scope position with
    | none =>
      refine ⟨1, scope, ?_⟩
      unfold descend
      rw [hchild]
    | some child =>
      obtain ⟨childId, hat, hparent⟩ := scopeAt_of_findChildScope h hscope hchild
      obtain ⟨turns, found, hfound⟩ := ih childId hparent child hat
      refine ⟨turns + 1, found, ?_⟩
      unfold descend
      rw [hchild]
      exact hfound

/-- The walk a lookup at a position takes: from the scope around it, if the tree has one. -/
inductive LookupRoute (tree : LuaDeclarationTree) (position : TextSize) :
    Option (List (LuaScopeId × TextSize)) → Prop where
  | noScope (hempty : tree.scopes.head? = none) : LookupRoute tree position none
  | scope {turns turns' : Nat} {scope : LuaScope} {stops : List (LuaScopeId × TextSize)}
      (hscope : tree.findScope turns position = some (some scope))
      (hroute : route tree turns' ⟨scope, position, 0⟩ = some stops) :
      LookupRoute tree position (some stops)

omit h in
theorem findScope_mono {position : TextSize} {turns turns' : Nat} (hle : turns ≤ turns')
    {found : Option LuaScope} (hfound : tree.findScope turns position = some found) :
    tree.findScope turns' position = some found := by
  unfold findScope at hfound ⊢
  cases hroot : tree.scopes.head? with
  | none =>
    rw [hroot] at hfound
    exact hfound
  | some root =>
    rw [hroot] at hfound
    obtain ⟨scope, hscope, rfl⟩ := Option.map_eq_some_iff.1 hfound
    dsimp only
    rw [descend_mono hle root scope hscope]
    rfl

omit h in
theorem scopeAt_root {root : LuaScope} (hroot : tree.scopes.head? = some root) :
    scopeAt tree ⟨tree.fileId, 0⟩ = some root := by
  rw [scopeAt_own, ← List.head?_eq_getElem?]
  exact hroot

theorem scopeAt_of_findScope {position : TextSize} {turns : Nat} {scope : LuaScope}
    (hscope : tree.findScope turns position = some (some scope)) :
    ∃ id, scopeAt tree id = some scope := by
  unfold findScope at hscope
  cases hroot : tree.scopes.head? with
  | none =>
    rw [hroot] at hscope
    exact nomatch hscope
  | some root =>
    rw [hroot] at hscope
    obtain ⟨found, hfound, heq⟩ := Option.map_eq_some_iff.1 hscope
    rw [← Option.some.inj heq]
    exact scopeAt_of_descend h position turns _ root found (scopeAt_root hroot) hfound

/-- **A walk returns what its closure makes of the visits on its route**, and returns only if
    the route ends. -/
theorem walkFrom_iff {σ : Type} (f : ScopeOrDeclId → σ → σ × Bool) (s : σ) (position : TextSize)
    (name : Option String) (result : Option σ) :
    (∃ turns, tree.walkFrom turns position name f s = some result) ↔
      ∃ stops, LookupRoute tree position stops ∧ result = stops.map fun stops =>
        (loopUntil f (stops.flatMap fun stop => childVisits tree stop.1 stop.2 name) s).1 := by
  constructor
  · rintro ⟨turns, hwalk⟩
    unfold walkFrom at hwalk
    cases hscope : tree.findScope turns position with
    | none =>
      rw [hscope] at hwalk
      exact nomatch hwalk
    | some found =>
      rw [hscope] at hwalk
      cases found with
      | none =>
        have hempty : tree.scopes.head? = none := by
          unfold findScope at hscope
          cases hroot : tree.scopes.head? with
          | none => rfl
          | some root =>
            rw [hroot] at hscope
            obtain ⟨_, _, heq⟩ := Option.map_eq_some_iff.1 hscope
            exact nomatch heq
        exact ⟨none, .noScope hempty, (Option.some.inj hwalk).symm⟩
      | some scope =>
        obtain ⟨r, hr, rfl⟩ := Option.map_eq_some_iff.1 hwalk
        obtain ⟨id, hat⟩ := scopeAt_of_findScope h hscope
        obtain ⟨turns', stops, hroute⟩ :=
          ends_of_walkUp h f name turns id ⟨scope, position, 0⟩ s r hat hr
        have hlate := walkUp_mono f tree name (Nat.le_max_left turns turns')
          ⟨scope, position, 0⟩ s r hr
        rw [walkUp_of_route f tree name _ ⟨scope, position, 0⟩ stops s
          (route_mono tree (Nat.le_max_right turns turns') _ stops hroute)] at hlate
        exact ⟨some stops, .scope hscope hroute, congrArg some (Option.some.inj hlate).symm⟩
  · rintro ⟨stops, hlookup, rfl⟩
    cases hlookup with
    | noScope hempty =>
      refine ⟨0, ?_⟩
      unfold walkFrom findScope
      rw [hempty]
      rfl
    | @scope turns turns' scope stops hscope hroute =>
      refine ⟨max turns turns', ?_⟩
      unfold walkFrom
      rw [findScope_mono (Nat.le_max_left turns turns') hscope]
      dsimp only
      rw [walkUp_of_route f tree name _ ⟨scope, position, 0⟩ stops s
        (route_mono tree (Nat.le_max_right turns turns') _ stops hroute)]
      rfl

end

/-! ## §4. Lookups -/

/-- **A lookup finds the first declaration of the name that the plain walk visits**, and
    returns exactly if the plain walk does. -/
theorem findLocalDecl_iff {tree : LuaDeclarationTree} (h : Linked tree) (hindexed : Indexed tree)
    (name : String) (position : TextSize) (result : Option LuaDecl) :
    (∃ turns, tree.findLocalDecl turns name position = some result) ↔
      ∃ turns visited, tree.visitedDecls turns position = some visited ∧
        result = visited.bind fun decls => decls.find? fun decl => decl.name = name := by
  have hnamed : ∀ stops : Option (List (LuaScopeId × TextSize)),
      (stops.map fun stops => (loopUntil (tree.matchName name)
        (stops.flatMap fun stop => childVisits tree stop.1 stop.2 (some name)) none).1).join =
      (stops.map fun stops => (loopUntil (tree.collect fun _ => true)
        (stops.flatMap fun stop => childVisits tree stop.1 stop.2 none) []).1).bind
          fun decls => decls.find? fun decl => decl.name = name := by
    intro stops
    cases stops with
    | none => rfl
    | some stops =>
      show (loopUntil (tree.matchName name) _ none).1 = List.find? _ (loopUntil _ _ []).1
      rw [loopUntil_search _ _ matchName_none, loopUntil_collect, List.nil_append,
        List.filter_true, find?_visitDecl]
      exact findSome?_route hindexed stops
  constructor
  · rintro ⟨turns, hfind⟩
    obtain ⟨found, hfound, rfl⟩ := Option.map_eq_some_iff.1 hfind
    obtain ⟨stops, hroute, rfl⟩ := (walkFrom_iff h _ _ _ _ _).1 ⟨turns, hfound⟩
    obtain ⟨turns', hvisited⟩ := (walkFrom_iff h (tree.collect fun _ => true) [] position none
      _).2 ⟨stops, hroute, rfl⟩
    exact ⟨turns', _, hvisited, hnamed stops⟩
  · rintro ⟨turns, visited, hvisited, rfl⟩
    obtain ⟨stops, hroute, rfl⟩ := (walkFrom_iff h _ _ _ _ _).1 ⟨turns, hvisited⟩
    obtain ⟨turns', hfind⟩ := (walkFrom_iff h (tree.matchName name) none position (some name)
      _).2 ⟨stops, hroute, rfl⟩
    refine ⟨turns', ?_⟩
    unfold findLocalDecl
    rw [hfind, ← hnamed stops]
    rfl

/-- **The plain walk returns**, if repeat statements open with their body. -/
theorem visitedDecls_returns {tree : LuaDeclarationTree} (h : Linked tree)
    (hbodies : RepeatsOpenWithBody tree) (position : TextSize) :
    ∃ turns visited, tree.visitedDecls turns position = some visited := by
  have hroute : ∃ stops, LookupRoute tree position stops := by
    cases hroot : tree.scopes.head? with
    | none => exact ⟨none, .noScope hroot⟩
    | some root =>
      obtain ⟨turns, scope, hdescend⟩ := descend_ends h position _ root (scopeAt_root hroot)
      have hscope : tree.findScope turns position = some (some scope) := by
        unfold findScope
        rw [hroot]
        dsimp only
        rw [hdescend]
        rfl
      obtain ⟨id, hat⟩ := scopeAt_of_findScope h hscope
      obtain ⟨turns', stops, hstops⟩ :=
        ends_of_repeats h hbodies id ⟨scope, position, 0⟩ hat
      exact ⟨some stops, .scope hscope hstops⟩
  obtain ⟨stops, hstops⟩ := hroute
  obtain ⟨turns, hwalk⟩ := (walkFrom_iff h (tree.collect fun _ => true) [] position none _).2
    ⟨stops, hstops, rfl⟩
  exact ⟨turns, _, hwalk⟩

/-! ## §5. Every tree that is built -/

/-- **Lookups by index find what the plain searches find**: a name, the first declaration of it
    that the plain walk visits; a position, the child scope the scan finds. -/
theorem lookups_eq_plain {fileId : FileId} {tree : LuaDeclarationTree}
    (hbuilt : Built (fun tree next => Allowed tree next ∧ KeepsNames tree next) fileId tree)
    (hsiblings : SiblingsInOrder tree) :
    (∀ name position result, (∃ turns, tree.findLocalDecl turns name position = some result) ↔
      ∃ turns visited, tree.visitedDecls turns position = some visited ∧
        result = visited.bind fun decls => decls.find? fun decl => decl.name = name) ∧
    (RepeatsOpenWithBody tree → ∀ name position, ∃ turns result,
      tree.findLocalDecl turns name position = some result) ∧
    (∀ id scope, scopeAt tree id = some scope → ∀ position,
      tree.findChildScope scope position = tree.linearFindChildScope scope position) := by
  have h : Linked tree := linked_of_built (fun _ _ h => h.1) hbuilt
  have hindexed : Indexed tree := indexed_of_built hbuilt
  refine ⟨findLocalDecl_iff h hindexed, ?_, ?_⟩
  · intro hbodies name position
    obtain ⟨turns, visited, hvisited⟩ := visitedDecls_returns h hbodies position
    obtain ⟨turns', hfind⟩ := (findLocalDecl_iff h hindexed name position _).2
      ⟨turns, visited, hvisited, rfl⟩
    exact ⟨turns', _, hfind⟩
  · intro id scope hscope position
    exact findChildScope_eq_linear h hscope hsiblings position

/-! ## §6. Trees -/

/-- A range with its bounds in order. -/
def span (start stop : Nat) (h : start ≤ stop := by decide) : TextRange := ⟨start, stop, h⟩

/-- A local at a position. -/
def localAt (name : String) (start : TextSize) : LuaDecl :=
  ⟨name, ⟨1⟩, ⟨start, start + 1, Nat.le_succ start⟩, .Local⟩

/-- The tree that calls build in a new file. -/
def build (calls : List Call) : LuaDeclarationTree :=
  calls.foldl apply (LuaDeclarationTree.new ⟨1⟩)

/-- A function is linked before its local comes, the next after. -/
def eitherOrder : List Call :=
  [.createScope (span 0 200) .Normal, .createScope (span 10 40) .FuncStat,
    .addChildScope ⟨⟨1⟩, 0⟩ ⟨⟨1⟩, 1⟩, .addDecl (localAt "value" 20),
    .addDeclToScope ⟨⟨1⟩, 1⟩ ⟨⟨1⟩, 20⟩, .createScope (span 50 80) .FuncStat,
    .addDecl (localAt "value" 60), .addDeclToScope ⟨⟨1⟩, 2⟩ ⟨⟨1⟩, 60⟩,
    .addChildScope ⟨⟨1⟩, 0⟩ ⟨⟨1⟩, 2⟩]

theorem lookups_eq_plain_eitherOrder :
    ∃ turns visited,
      (build eitherOrder).visitedDecls turns 100 = some visited ∧
      some (localAt "value" 60) =
        visited.bind fun decls => decls.find? fun decl => decl.name = "value" :=
  ((lookups_eq_plain
    (.row eitherOrder .new
      ⟨⟨trivial, trivial⟩, ⟨trivial, trivial⟩,
        ⟨allowed_link (by decide) (by decide) (by decide) (by decide) (by decide), trivial⟩,
        ⟨trivial, keepsNames_of_unlisted (by decide)⟩,
        ⟨⟨by decide, by decide⟩, trivial⟩, ⟨trivial, trivial⟩,
        ⟨trivial, keepsNames_of_unlisted (by decide)⟩,
        ⟨⟨by decide, by decide⟩, trivial⟩,
        ⟨allowed_link (by decide) (by decide) (by decide) (by decide) (by decide), trivial⟩,
        trivial⟩)
    (siblingsInOrder_of_childScopes (by decide))).1 "value" 100 _).1 ⟨3, by decide⟩

/-- A declaration gives way to one of another name after a scope lists it. -/
def renamed : List Call :=
  [.createScope (span 0 100) .Normal, .addDecl (localAt "first" 10),
    .addDeclToScope ⟨⟨1⟩, 0⟩ ⟨⟨1⟩, 10⟩, .addDecl (localAt "second" 10)]

/-- A repeat statement whose first child is a local statement. -/
def endless : List Call :=
  [.createScope (span 0 100) .Repeat, .createScope (span 10 20) .LocalOrAssignStat,
    .addChildScope ⟨⟨1⟩, 0⟩ ⟨⟨1⟩, 1⟩]

/-- A walk that starts in the repeat statement goes down to the local statement and from there
    back up. -/
theorem walkUp_endless (turns : Nat) : ∀ (startPos : TextSize) (s : Option LuaDecl),
    ∀ scope ∈ (build endless).scopes,
      (build endless).walkUp ((build endless).matchName "value") (some "value") turns scope
        startPos 0 s = none := by
  induction turns with
  | zero => exact fun _ _ _ _ => rfl
  | succ turns ih =>
    intro startPos s scope hscope
    have hin : ∀ i : Fin (build endless).scopes.length,
        (build endless).scopes.get i ∈ (build endless).scopes := fun i => List.get_mem _ _
    have hscopes : (build endless).scopes =
        [(build endless).scopes.get ⟨0, by decide⟩, (build endless).scopes.get ⟨1, by decide⟩] := by
      decide
    rw [hscopes] at hscope
    rcases List.mem_cons.1 hscope with rfl | hlast
    · exact ih startPos s _ (hin ⟨1, by decide⟩)
    · rw [List.mem_singleton.1 hlast]
      exact ih 10 s _ (hin ⟨0, by decide⟩)

/-- **What a declaration gave way to is missed under its name; where a repeat statement opens
    with a local statement no lookup returns.** -/
theorem lookups_ne_plain :
    (Built Allowed ⟨1⟩ (build renamed) ∧ SiblingsInOrder (build renamed) ∧
      (build renamed).findLocalDecl 3 "second" 50 = some none ∧
      (build renamed).visitedDecls 3 50 = some (some [localAt "second" 10])) ∧
    (Built Allowed ⟨1⟩ (build endless) ∧ SiblingsInOrder (build endless) ∧
      ∀ turns, (build endless).findLocalDecl turns "value" 5 = none) := by
  refine ⟨⟨?_, siblingsInOrder_of_childScopes (by decide), by decide, by decide⟩,
    ⟨?_, siblingsInOrder_of_childScopes (by decide), ?_⟩⟩
  · exact .row renamed .new ⟨trivial, trivial, ⟨by decide, by decide⟩, trivial, trivial⟩
  · exact .row endless .new ⟨trivial, trivial,
      allowed_link (by decide) (by decide) (by decide) (by decide) (by decide), trivial⟩
  · intro turns
    cases turns with
    | zero => rfl
    | succ turns =>
      have hfound : (build endless).findScope (turns + 1) 5 =
          some (build endless).scopes.head? := rfl
      obtain ⟨root, hroot⟩ : ∃ root, (build endless).scopes.head? = some root := ⟨_, rfl⟩
      unfold findLocalDecl walkFrom
      rw [hfound, hroot]
      dsimp only
      rw [walkUp_endless (turns + 1) 5 none root (List.mem_of_mem_head? hroot)]
      rfl

end GluaLs.DeclTree
