/-
  GluaLs.DeclTree.Route — the scopes a walk outwards looks into.

  Which scopes `walk_up` looks into, and from which position on, depends neither on the name
  looked for nor on what is found: the walk follows a ROUTE, and what it visits is what the
  scopes on the route have to visit, one scope after another (`walkUp_of_route`).

  Above the first scope it looks into the walk only climbs, so it ends.  Before that it may
  also go from a repeat statement down into its body; it ends if the body is no scope that
  sends it back up (`RepeatsOpenWithBody`).
-/
import Mathlib.Data.Fintype.Card
import GluaLs.DeclTree.Linked

namespace GluaLs.DeclTree

open GluaLs.Lib GluaLs.Lib.KeyOrder LuaDeclarationTree

/-! ## §1. Visits -/

/-- What `walk_over_scope` visits. -/
def scopeVisits (scope : LuaScope) : List ScopeOrDeclId :=
  (if scope.kind.opensInto then scope.declIds.map ScopeOrDeclId.Decl else []) ++ [.Scope scope.id]

/-- What an entry of a visit set has the walk visit. -/
def entryVisits (tree : LuaDeclarationTree) : InterestingChild → List ScopeOrDeclId
  | .Decl id => [.Decl id]
  | .Scope id => ((tree.getScope id).map scopeVisits).getD []

/-- The entries of a visit set before a position, newest first. -/
def entriesBefore (tree : LuaDeclarationTree) (id : LuaScopeId) (startPos : TextSize)
    (name : Option String) : VisitSet :=
  let interesting := tree.visitSet id name
  (interesting.take
    (partitionPoint (fun e => decide ((ofLex e.1).1 < startPos)) interesting)).reverse

/-- What `base_walk_up` visits of a scope. -/
def childVisits (tree : LuaDeclarationTree) (id : LuaScopeId) (startPos : TextSize)
    (name : Option String) : List ScopeOrDeclId :=
  (entriesBefore tree id startPos name).flatMap fun e => entryVisits tree e.2

section

variable {σ : Type} (f : ScopeOrDeclId → σ → σ × Bool) (tree : LuaDeclarationTree)

theorem loopUntil_singleton (visit : ScopeOrDeclId) (s : σ) :
    loopUntil f [visit] s = f visit s := by
  rw [loopUntil_cons]
  rcases f visit s with ⟨s', _ | _⟩ <;> rfl

theorem walkOverScope_eq (scope : LuaScope) (s : σ) :
    walkOverScope f scope s = loopUntil f (scopeVisits scope) s := by
  unfold walkOverScope scopeVisits
  rw [loopUntil_append, loopUntil_singleton]
  dsimp only
  rcases loopUntil f (if scope.kind.opensInto = true then _ else []) s with ⟨s', _ | _⟩ <;> rfl

theorem visitChild_eq (entry : InterestingChild) (s : σ) :
    visitChild f tree entry s = loopUntil f (entryVisits tree entry) s := by
  cases entry with
  | Decl id => exact (loopUntil_singleton f (.Decl id) s).symm
  | Scope id =>
    cases hget : tree.getScope id with
    | none =>
      simp only [visitChild, entryVisits, hget]
      rfl
    | some child =>
      simp only [visitChild, entryVisits, hget]
      exact walkOverScope_eq f child s

theorem walkChildren_eq (scope : LuaScope) (startPos : TextSize) (name : Option String) (s : σ) :
    walkChildren f tree scope startPos name s =
      loopUntil f (childVisits tree scope.id startPos name) s := by
  unfold childVisits
  rw [← loopUntil_flatMap]
  have hbody : (fun e : VisitKey × InterestingChild => visitChild f tree e.2) =
      fun e => loopUntil f (entryVisits tree e.2) :=
    funext fun e => funext fun s => visitChild_eq f tree e.2 s
  unfold walkChildren
  rw [hbody]
  rfl

end

/-! ## §2. Turns -/

/-- Where a walk stands: the scope, the position it looks before, and how often it has looked
    into a scope and gone on to the parent. -/
structure Stand where
  scope : LuaScope
  startPos : TextSize
  level : Nat

/-- The walk looks into the scope where it stands. -/
def looksInto (at' : Stand) : Bool :=
  match at'.scope.kind with
  | .LocalOrAssignStat => false
  | .Repeat =>
    match at'.level, at'.scope.children.head? with
    | 0, some (.Scope _) => false
    | _, _ => true
  | .ForRange => at'.level ≠ 0
  | .Normal | .FuncStat | .MethodStat => true

/-- Where the walk goes on. -/
def goesOn (tree : LuaDeclarationTree) (at' : Stand) : Option Stand :=
  let parent (startPos : TextSize) (level : Nat) : Option Stand :=
    (at'.scope.parent.bind tree.getScope).map fun parent => ⟨parent, startPos, level⟩
  match at'.scope.kind with
  | .LocalOrAssignStat => parent at'.scope.getPosition at'.level
  | .Repeat =>
    match at'.level, at'.scope.children.head? with
    | 0, some (.Scope id) => (tree.getScope id).map fun body => ⟨body, at'.startPos, 0⟩
    | level, _ => parent at'.startPos (level + 1)
  | .ForRange =>
    if at'.level = 0 then parent at'.startPos at'.level else parent at'.startPos (at'.level + 1)
  | .Normal | .FuncStat | .MethodStat => parent at'.startPos (at'.level + 1)

/-- The scopes the walk looks into, each with the position it looks before. -/
def route (tree : LuaDeclarationTree) : Nat → Stand → Option (List (LuaScopeId × TextSize))
  | 0, _ => none
  | turns + 1, at' =>
    let here := if looksInto at' then [(at'.scope.id, at'.startPos)] else []
    match goesOn tree at' with
    | none => some here
    | some next => (route tree turns next).map (here ++ ·)

section

variable {σ : Type} (f : ScopeOrDeclId → σ → σ × Bool) (tree : LuaDeclarationTree)
variable (name : Option String)

/-- What a turn leaves where the walk stands, and whether it ends the walk. -/
def lookInto (at' : Stand) (s : σ) : σ × Bool :=
  if looksInto at' then walkChildren f tree at'.scope at'.startPos name s else (s, false)

/-- Going on to a scope, if there is one. -/
def follow (turns : Nat) (next : Option Stand) (s : σ) : Option σ :=
  match next with
  | none => some s
  | some next => tree.walkUp f name turns next.scope next.startPos next.level s

theorem follow_map (turns : Nat) (scope : Option LuaScope) (startPos : TextSize) (level : Nat)
    (s : σ) : follow f tree name turns (scope.map fun scope => ⟨scope, startPos, level⟩) s =
      match scope with
      | none => some s
      | some scope => tree.walkUp f name turns scope startPos level s := by
  cases scope <;> rfl

/-- A scope that is looked into is looked into as `base_walk_up` does. -/
theorem baseWalkUp_eq (turns : Nat) (scope : LuaScope) (startPos : TextSize) (level : Nat)
    (s : σ) : (match walkChildren f tree scope startPos name s with
      | (s', true) => some s'
      | (s', false) =>
        match scope.parent.bind tree.getScope with
        | none => some s'
        | some parent => tree.walkUp f name turns parent startPos (level + 1) s') =
      if (walkChildren f tree scope startPos name s).2 then
        some (walkChildren f tree scope startPos name s).1
      else follow f tree name turns ((scope.parent.bind tree.getScope).map fun parent =>
        ⟨parent, startPos, level + 1⟩) (walkChildren f tree scope startPos name s).1 := by
  rw [follow_map]
  rcases walkChildren f tree scope startPos name s with ⟨s', _ | _⟩ <;> rfl

/-- **A turn of the walk**: look into the scope, then go on. -/
theorem walkUp_succ (turns : Nat) (at' : Stand) (s : σ) :
    tree.walkUp f name (turns + 1) at'.scope at'.startPos at'.level s =
      if (lookInto f tree name at' s).2 then some (lookInto f tree name at' s).1
      else follow f tree name turns (goesOn tree at') (lookInto f tree name at' s).1 := by
  obtain ⟨scope, startPos, level⟩ := at'
  have hbase := baseWalkUp_eq f tree name turns scope startPos level s
  conv_lhs => unfold walkUp
  unfold lookInto looksInto goesOn
  cases scope.kind with
  | LocalOrAssignStat =>
    exact (follow_map f tree name turns (scope.parent.bind tree.getScope) scope.getPosition
      level s).symm
  | Normal | FuncStat | MethodStat =>
    simp only [if_true]
    exact hbase
  | ForRange =>
    by_cases hlevel : level = 0
    · subst hlevel
      exact (follow_map f tree name turns (scope.parent.bind tree.getScope) startPos 0 s).symm
    · simp only [hlevel, if_false, ne_eq, not_false_eq_true, decide_true, if_true]
      exact hbase
  | Repeat =>
    cases level with
    | succ level =>
      simp only [if_true]
      exact hbase
    | zero =>
      cases scope.children.head? with
      | none =>
        simp only [if_true]
        exact hbase
      | some first =>
        cases first with
        | Decl declId =>
          simp only [if_true]
          exact hbase
        | Scope bodyId =>
          exact (follow_map f tree name turns (tree.getScope bodyId) startPos 0 s).symm

/-- **A walk visits what the scopes on its route have to visit**, until `f` ends it. -/
theorem walkUp_of_route (turns : Nat) : ∀ (at' : Stand) (stops : List (LuaScopeId × TextSize))
    (s : σ), route tree turns at' = some stops →
      tree.walkUp f name turns at'.scope at'.startPos at'.level s =
        some (loopUntil f (stops.flatMap fun stop => childVisits tree stop.1 stop.2 name) s).1 := by
  induction turns with
  | zero => exact fun at' stops s h => nomatch h
  | succ turns ih =>
    intro at' stops s h
    have hlook : lookInto f tree name at' s = loopUntil f
        ((if looksInto at' then [(at'.scope.id, at'.startPos)] else []).flatMap
          fun stop => childVisits tree stop.1 stop.2 name) s := by
      unfold lookInto
      split_ifs
      · rw [walkChildren_eq, List.flatMap_singleton]
      · rfl
    unfold route at h
    dsimp only at h
    rw [walkUp_succ]
    cases hnext : goesOn tree at' with
    | none =>
      rw [hnext] at h
      rw [← Option.some.inj h, ← hlook]
      split_ifs <;> rfl
    | some next =>
      rw [hnext] at h
      obtain ⟨rest, hrest, rfl⟩ := Option.map_eq_some_iff.1 h
      rw [List.flatMap_append, loopUntil_append, ← hlook]
      split_ifs with hstop
      · rfl
      · exact ih next rest _ hrest

/-- More turns do not change a route. -/
theorem route_mono {turns turns' : Nat} (hle : turns ≤ turns') : ∀ (at' : Stand)
    (stops : List (LuaScopeId × TextSize)), route tree turns at' = some stops →
      route tree turns' at' = some stops := by
  induction turns generalizing turns' with
  | zero => exact fun at' stops h => nomatch h
  | succ turns ih =>
    intro at' stops h
    obtain ⟨turns', rfl⟩ := Nat.exists_eq_succ_of_ne_zero (by omega : turns' ≠ 0)
    unfold route at h ⊢
    dsimp only at h ⊢
    cases hnext : goesOn tree at' with
    | none =>
      rw [hnext] at h
      exact h
    | some next =>
      rw [hnext] at h
      obtain ⟨rest, hrest, heq⟩ := Option.map_eq_some_iff.1 h
      dsimp only
      rw [ih (by omega : turns ≤ turns') next rest hrest, Option.map_some, heq]

/-- More turns do not change where a walk ends. -/
theorem walkUp_mono {turns turns' : Nat} (hle : turns ≤ turns') : ∀ (at' : Stand) (s r : σ),
    tree.walkUp f name turns at'.scope at'.startPos at'.level s = some r →
      tree.walkUp f name turns' at'.scope at'.startPos at'.level s = some r := by
  induction turns generalizing turns' with
  | zero => exact fun at' s r h => nomatch h
  | succ turns ih =>
    intro at' s r h
    obtain ⟨turns', rfl⟩ := Nat.exists_eq_succ_of_ne_zero (by omega : turns' ≠ 0)
    rw [walkUp_succ] at h ⊢
    split_ifs at h ⊢
    · exact h
    · cases hnext : goesOn tree at' with
      | none =>
        rw [hnext] at h
        exact h
      | some next =>
        rw [hnext] at h
        exact ih (by omega) next _ r h

end

/-! ## §3. Routes end -/

section

variable {tree : LuaDeclarationTree}

/-- The route from where the walk stands ends. -/
def Ends (tree : LuaDeclarationTree) (at' : Stand) : Prop :=
  ∃ turns stops, route tree turns at' = some stops

theorem ends_of_next {at' : Stand} (h : ∀ next, goesOn tree at' = some next → Ends tree next) :
    Ends tree at' := by
  cases hnext : goesOn tree at' with
  | none =>
    refine ⟨1, if looksInto at' then [(at'.scope.id, at'.startPos)] else [], ?_⟩
    unfold route
    rw [hnext]
  | some next =>
    obtain ⟨turns, stops, hroute⟩ := h next hnext
    refine ⟨turns + 1, (if looksInto at' then [(at'.scope.id, at'.startPos)] else []) ++ stops, ?_⟩
    unfold route
    rw [hnext]
    dsimp only
    rw [hroute]
    rfl

/-- `next` stands at the parent of a scope. -/
def AtParent (tree : LuaDeclarationTree) (scope : LuaScope) (next : Stand) : Prop :=
  ∃ up, scope.parent = some up ∧ tree.getScope up = some next.scope

/-- Where the walk may go on: from a scope it has looked into, or a statement it skips, to the
    parent; from a repeat statement it starts in, to the body. -/
theorem goesOn_cases {at' next : Stand} (hnext : goesOn tree at' = some next) :
    (looksInto at' = true ∧ next.level = at'.level + 1 ∧ AtParent tree at'.scope next) ∨
    (looksInto at' = false ∧ next.level = at'.level ∧ AtParent tree at'.scope next ∧
      (at'.scope.kind = .LocalOrAssignStat ∨ at'.scope.kind = .ForRange)) ∨
    (looksInto at' = false ∧ at'.level = 0 ∧ next.level = 0 ∧ at'.scope.kind = .Repeat ∧
      ∃ body, at'.scope.children.head? = some (.Scope body) ∧
        tree.getScope body = some next.scope) := by
  obtain ⟨scope, startPos, level⟩ := at'
  have hparent : ∀ p l, (scope.parent.bind tree.getScope).map (fun up => Stand.mk up p l) =
      some next → next.level = l ∧ AtParent tree scope next := by
    intro p l h
    obtain ⟨up, hup, rfl⟩ := Option.map_eq_some_iff.1 h
    obtain ⟨upId, hupId, hget⟩ := Option.bind_eq_some_iff.1 hup
    exact ⟨rfl, upId, hupId, hget⟩
  unfold goesOn at hnext
  unfold looksInto
  cases hkind : scope.kind with
  | LocalOrAssignStat =>
    simp only [hkind] at hnext
    obtain ⟨hlevel, hat⟩ := hparent _ _ hnext
    exact .inr (.inl ⟨rfl, hlevel, hat, .inl rfl⟩)
  | Normal | FuncStat | MethodStat =>
    simp only [hkind] at hnext
    exact .inl ⟨rfl, hparent _ _ hnext⟩
  | ForRange =>
    simp only [hkind] at hnext
    by_cases hzero : level = 0
    · rw [if_pos hzero] at hnext
      obtain ⟨hlevel, hat⟩ := hparent _ _ hnext
      exact .inr (.inl ⟨by simp [hzero], hlevel, hat, .inr rfl⟩)
    · rw [if_neg hzero] at hnext
      exact .inl ⟨by simp [hzero], hparent _ _ hnext⟩
  | Repeat =>
    simp only [hkind] at hnext
    cases level with
    | succ level =>
      exact .inl ⟨rfl, hparent _ _ hnext⟩
    | zero =>
      cases hfirst : scope.children.head? with
      | none =>
        rw [hfirst] at hnext
        exact .inl ⟨rfl, hparent _ _ hnext⟩
      | some first =>
        rw [hfirst] at hnext
        cases first with
        | Decl declId =>
          exact .inl ⟨rfl, hparent _ _ hnext⟩
        | Scope bodyId =>
          obtain ⟨body, hbody, rfl⟩ := Option.map_eq_some_iff.1 hnext
          exact .inr (.inr ⟨rfl, rfl, rfl, rfl, bodyId, rfl, hbody⟩)

variable (h : Linked tree)
include h

theorem Linked.scopeAt_of_parent {id up : LuaScopeId} {scope parent : LuaScope}
    (hscope : scopeAt tree id = some scope) (hup : scope.parent = some up)
    (hget : tree.getScope up = some parent) :
    scopeAt tree up = some parent ∧ IsParent tree up id := by
  obtain ⟨parent', hparent', -⟩ := h.parent id scope hscope up hup
  rw [getScope_of_scopeAt hparent'] at hget
  cases hget
  exact ⟨hparent', scope, hscope, hup⟩

theorem Linked.scopeAt_of_child {id childId : LuaScopeId} {scope child : LuaScope}
    (hscope : scopeAt tree id = some scope) (hmem : ScopeOrDeclId.Scope childId ∈ scope.children)
    (hget : tree.getScope childId = some child) :
    scopeAt tree childId = some child ∧ IsParent tree id childId := by
  obtain ⟨i, hi⟩ := List.getElem?_of_mem hmem
  obtain ⟨child', hchild', hup, -⟩ := h.child id scope hscope i childId hi
  rw [getScope_of_scopeAt hchild'] at hget
  rw [← Option.some.inj hget]
  exact ⟨hchild', child', hchild', hup⟩

/-- **A walk that has looked into a scope only climbs, so it ends.** -/
theorem ends_of_level (id : LuaScopeId) : ∀ at' : Stand, at'.level ≠ 0 →
    scopeAt tree id = some at'.scope → Ends tree at' := by
  induction h.rooted id with
  | intro id _ ih =>
    intro at' hlevel hscope
    apply ends_of_next
    intro next hnext
    rcases goesOn_cases hnext with ⟨-, hnextLevel, up, hup, hget⟩ |
      ⟨-, hnextLevel, ⟨up, hup, hget⟩, -⟩ | ⟨-, hzero, -⟩
    · obtain ⟨hat, hparent⟩ := h.scopeAt_of_parent hscope hup hget
      exact ih up hparent next (by omega) hat
    · obtain ⟨hat, hparent⟩ := h.scopeAt_of_parent hscope hup hget
      exact ih up hparent next (by omega) hat
    · exact absurd hzero hlevel

theorem ends_of_looksInto {id : LuaScopeId} {at' : Stand}
    (hscope : scopeAt tree id = some at'.scope) (hinto : looksInto at' = true) :
    Ends tree at' := by
  apply ends_of_next
  intro next hnext
  rcases goesOn_cases hnext with ⟨-, hlevel, up, hup, hget⟩ | ⟨hnot, -⟩ | ⟨hnot, -⟩
  · exact ends_of_level h up next (by omega) (h.scopeAt_of_parent hscope hup hget).1
  · exact absurd (hinto.symm.trans hnot) (by decide)
  · exact absurd (hinto.symm.trans hnot) (by decide)

/-- **A walk that returns has a route that ends**: what it finds cannot end it before it has
    looked into a scope. -/
theorem ends_of_walkUp {σ : Type} (f : ScopeOrDeclId → σ → σ × Bool) (name : Option String)
    (turns : Nat) : ∀ (id : LuaScopeId) (at' : Stand) (s r : σ),
      scopeAt tree id = some at'.scope →
      tree.walkUp f name turns at'.scope at'.startPos at'.level s = some r → Ends tree at' := by
  induction turns with
  | zero => exact fun id at' s r _ hwalk => nomatch hwalk
  | succ turns ih =>
    intro id at' s r hscope hwalk
    by_cases hinto : looksInto at' = true
    · exact ends_of_looksInto h hscope hinto
    · apply ends_of_next
      intro next hnext
      have hlook : lookInto f tree name at' s = (s, false) := if_neg hinto
      rw [walkUp_succ, hlook, hnext] at hwalk
      have hwalk' : tree.walkUp f name turns next.scope next.startPos next.level s = some r :=
        hwalk
      rcases goesOn_cases hnext with ⟨-, -, up, hup, hget⟩ | ⟨-, -, ⟨up, hup, hget⟩, -⟩ |
        ⟨-, -, -, -, body, hbody, hget⟩
      · exact ih up next s r (h.scopeAt_of_parent hscope hup hget).1 hwalk'
      · exact ih up next s r (h.scopeAt_of_parent hscope hup hget).1 hwalk'
      · exact ih body next s r
          (h.scopeAt_of_child hscope (List.mem_of_mem_head? hbody) hget).1 hwalk'

/-! ## §4. Going down -/

/-- No chain of children goes on for ever: there are finitely many scopes. -/
theorem grounded (id : LuaScopeId) : Acc (fun down up => IsParent tree up down) id := by
  have hplace : ∀ id scope, scopeAt tree id = some scope →
      ∃ i : Fin tree.scopes.length, id = ⟨tree.fileId, i⟩ := by
    intro id scope hscope
    have hbound := (List.getElem?_eq_some_iff.1 (getScope_of_scopeAt hscope)).1
    refine ⟨⟨id.id, hbound⟩, ?_⟩
    rw [← fileId_of_scopeAt hscope]
  let below (a b : Fin tree.scopes.length) : Prop :=
    Relation.TransGen (IsParent tree) ⟨tree.fileId, b⟩ ⟨tree.fileId, a⟩
  have hirrefl : Std.Irrefl below :=
    ⟨fun a haa => ((WellFounded.intro h.rooted).transGen.irrefl).irrefl _ haa⟩
  have hwf : WellFounded below := Finite.wellFounded_of_trans_of_irrefl below
  have hacc : ∀ i : Fin tree.scopes.length,
      Acc (fun down up => IsParent tree up down) ⟨tree.fileId, i⟩ := by
    intro i
    induction hwf.apply i with
    | intro i _ ih =>
      refine ⟨_, fun down hdown => ?_⟩
      have hscope := hdown
      obtain ⟨scope, hscope, -⟩ := hscope
      obtain ⟨j, rfl⟩ := hplace down scope hscope
      exact ih j (.single hdown)
  refine ⟨id, fun down hdown => ?_⟩
  have hscope := hdown
  obtain ⟨scope, hscope, -⟩ := hscope
  obtain ⟨j, rfl⟩ := hplace down scope hscope
  exact hacc j

/-- The body of a repeat statement, its first child, is no statement that sends a walk back. -/
def RepeatsOpenWithBody (tree : LuaDeclarationTree) : Prop :=
  ∀ id scope, scopeAt tree id = some scope → scope.kind = .Repeat →
    ∀ bodyId, scope.children.head? = some (.Scope bodyId) →
      ∀ body, scopeAt tree bodyId = some body →
        body.kind ≠ .LocalOrAssignStat ∧ body.kind ≠ .ForRange

/-- A walk that starts in a scope it looks into, or in a repeat statement, ends. -/
theorem ends_of_body (hbodies : RepeatsOpenWithBody tree) (id : LuaScopeId) : ∀ at' : Stand,
    scopeAt tree id = some at'.scope → at'.scope.kind ≠ .LocalOrAssignStat →
      at'.scope.kind ≠ .ForRange → Ends tree at' := by
  induction grounded h id with
  | intro id _ ih =>
    intro at' hscope hstat hfor
    apply ends_of_next
    intro next hnext
    rcases goesOn_cases hnext with ⟨-, hlevel, up, hup, hget⟩ | ⟨-, -, -, hkind⟩ |
      ⟨-, -, -, hkind, body, hbody, hget⟩
    · exact ends_of_level h up next (by omega) (h.scopeAt_of_parent hscope hup hget).1
    · rcases hkind with hkind | hkind
      · exact absurd hkind hstat
      · exact absurd hkind hfor
    · obtain ⟨hat, hparent⟩ := h.scopeAt_of_child hscope (List.mem_of_mem_head? hbody) hget
      obtain ⟨hstat', hfor'⟩ := hbodies id at'.scope hscope hkind body hbody next.scope hat
      exact ih body hparent next hat hstat' hfor'

/-- **Every walk ends**, if repeat statements open with their body. -/
theorem ends_of_repeats (hbodies : RepeatsOpenWithBody tree) (id : LuaScopeId) : ∀ at' : Stand,
    scopeAt tree id = some at'.scope → Ends tree at' := by
  induction h.rooted id with
  | intro id _ ih =>
    intro at' hscope
    by_cases hstat : at'.scope.kind = .LocalOrAssignStat ∨ at'.scope.kind = .ForRange
    · apply ends_of_next
      intro next hnext
      rcases goesOn_cases hnext with ⟨-, -, up, hup, hget⟩ | ⟨-, -, ⟨up, hup, hget⟩, -⟩ |
        ⟨-, -, -, hkind, -⟩
      · obtain ⟨hat, hparent⟩ := h.scopeAt_of_parent hscope hup hget
        exact ih up hparent next hat
      · obtain ⟨hat, hparent⟩ := h.scopeAt_of_parent hscope hup hget
        exact ih up hparent next hat
      · rw [hkind] at hstat
        rcases hstat with hstat | hstat <;> exact nomatch hstat
    · rw [not_or] at hstat
      exact ends_of_body h hbodies id at' hscope hstat.1 hstat.2

end

end GluaLs.DeclTree
