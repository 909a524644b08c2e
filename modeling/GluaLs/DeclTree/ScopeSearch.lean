/-
  GluaLs.DeclTree.ScopeSearch — the scope around a position.

  `find_child_scope` bisects the children of a scope, among which declarations stand that have
  no place in the order of the scopes.  Where sibling scopes are disjoint and stand in source
  order, it finds what the scan over all children finds.

  The search keeps two facts: every scope before `lo` starts at or before the position, every
  scope from `hi` on starts past it.
-/
import GluaLs.DeclTree.Linked

namespace GluaLs.DeclTree

open GluaLs.Lib LuaDeclarationTree

/-! ## §1. The last scope of a slice -/

theorem lastChildScope_concat (entries : List ScopeOrDeclId) (entry : ScopeOrDeclId) :
    lastChildScope (entries ++ [entry]) =
      match entry with
      | .Scope id => some id
      | .Decl _ => lastChildScope entries := by
  unfold lastChildScope
  rw [List.reverse_append, List.reverse_singleton, List.singleton_append, List.findSome?_cons]
  cases entry <;> rfl

theorem lastChildScope_eq_none (entries : List ScopeOrDeclId)
    (h : lastChildScope entries = none) (i : Nat) (id : LuaScopeId) :
    entries[i]? ≠ some (.Scope id) := by
  unfold lastChildScope at h
  intro hat
  have hmem := List.mem_reverse.2 (List.mem_of_getElem? hat)
  exact nomatch List.findSome?_eq_none_iff.1 h _ hmem

/-- The last scope stands somewhere, and no scope stands behind it. -/
theorem lastChildScope_eq_some (entries : List ScopeOrDeclId) (id : LuaScopeId) :
    lastChildScope entries = some id →
    ∃ i : Nat, entries[i]? = some (.Scope id) ∧
      ∀ j : Nat, i < j → ∀ id', entries[j]? ≠ some (.Scope id') := by
  induction entries using List.reverseRecOn with
  | nil => exact nofun
  | append_singleton entries entry ih =>
    intro h
    rw [lastChildScope_concat] at h
    cases entry with
    | Scope last =>
      cases h
      refine ⟨entries.length, List.getElem?_concat_length, ?_⟩
      intro j hj id' hat
      rw [List.getElem?_eq_none (by rw [List.length_append]; exact hj)] at hat
      exact nomatch hat
    | Decl declId =>
      obtain ⟨i, hat, hlast⟩ := ih h
      refine ⟨i, (getElem?_concat_iff _ _ _ _).2 (.inl hat), ?_⟩
      intro j hj id' hat'
      rcases (getElem?_concat_iff _ _ _ _).1 hat' with hold | hnew
      · exact hlast j hj id' hold
      · exact nomatch hnew.2

theorem getElem?_slice {B : Type} (l : List B) (lo hi i : Nat) :
    ((l.take hi).drop lo)[i]? = if lo + i < hi then l[lo + i]? else none := by
  rw [List.getElem?_drop, List.getElem?_take]

/-! ## §2. Siblings -/

/-- **Sibling scopes are disjoint and stand in source order.** -/
def SiblingsInOrder (tree : LuaDeclarationTree) : Prop :=
  ∀ id scope, scopeAt tree id = some scope → ∀ (i j : Nat) (a b : LuaScopeId), i < j →
    scope.children[i]? = some (.Scope a) → scope.children[j]? = some (.Scope b) →
    ∀ before after, scopeAt tree a = some before → scopeAt tree b = some after →
      before.range.stop ≤ after.range.start

/-- The scopes among the children, in their order. -/
def childScopes (tree : LuaDeclarationTree) (scope : LuaScope) : List LuaScope :=
  scope.children.filterMap fun
    | .Scope id => tree.getScope id
    | .Decl _ => none

theorem siblingsInOrder_of_childScopes {tree : LuaDeclarationTree}
    (h : ∀ scope ∈ tree.scopes, (childScopes tree scope).Pairwise fun before after =>
      before.range.stop ≤ after.range.start) : SiblingsInOrder tree := by
  intro id scope hscope i j a b hlt ha hb before after hbefore hafter
  have hordered := h scope (List.mem_of_getElem? (getScope_of_scopeAt hscope))
  unfold childScopes at hordered
  rw [List.pairwise_filterMap, List.pairwise_iff_getElem] at hordered
  obtain ⟨hi, hat⟩ := List.getElem?_eq_some_iff.1 ha
  obtain ⟨hj, hat'⟩ := List.getElem?_eq_some_iff.1 hb
  refine hordered i j hi hj hlt before ?_ after ?_
  · rw [hat]
    exact getScope_of_scopeAt hbefore
  · rw [hat']
    exact getScope_of_scopeAt hafter

/-- The scope that stands at a place among the children of another. -/
def ChildAt (tree : LuaDeclarationTree) (scope : LuaScope) (i : Nat) (child : LuaScope) : Prop :=
  ∃ id, scope.children[i]? = some (.Scope id) ∧ tree.getScope id = some child

theorem contains_iff (range : TextRange) (offset : TextSize) :
    range.contains offset = true ↔ range.start ≤ offset ∧ offset < range.stop := by
  unfold TextRange.contains
  rw [Bool.and_eq_true_iff, decide_eq_true_iff, decide_eq_true_iff]

section

variable {tree : LuaDeclarationTree} (h : Linked tree) {id : LuaScopeId} {scope : LuaScope}
variable (hscope : scopeAt tree id = some scope)
include h hscope

theorem exists_childAt {i : Nat} {childId : LuaScopeId}
    (hat : scope.children[i]? = some (.Scope childId)) :
    ∃ child, tree.getScope childId = some child ∧ ChildAt tree scope i child := by
  obtain ⟨child, hchild, -⟩ := h.child id scope hscope i childId hat
  exact ⟨child, getScope_of_scopeAt hchild, childId, hat, getScope_of_scopeAt hchild⟩

theorem ChildAt.stop_le (hsiblings : SiblingsInOrder tree) {i j : Nat} (hlt : i < j)
    {before after : LuaScope} (hbefore : ChildAt tree scope i before)
    (hafter : ChildAt tree scope j after) : before.range.stop ≤ after.range.start := by
  obtain ⟨a, ha, hgetA⟩ := hbefore
  obtain ⟨b, hb, hgetB⟩ := hafter
  obtain ⟨sa, hsa, -⟩ := h.child id scope hscope i a ha
  obtain ⟨sb, hsb, -⟩ := h.child id scope hscope j b hb
  rw [getScope_of_scopeAt hsa] at hgetA
  rw [getScope_of_scopeAt hsb] at hgetB
  obtain rfl := Option.some.inj hgetA
  obtain rfl := Option.some.inj hgetB
  exact hsiblings id scope hscope i j a b hlt ha hb sa sb hsa hsb

theorem ChildAt.position_le (hsiblings : SiblingsInOrder tree) {i j : Nat} (hle : i ≤ j)
    {before after : LuaScope} (hbefore : ChildAt tree scope i before)
    (hafter : ChildAt tree scope j after) : before.getPosition ≤ after.getPosition := by
  rcases Nat.lt_or_eq_of_le hle with hlt | rfl
  · exact le_trans before.range.ordered (ChildAt.stop_le h hscope hsiblings hlt hbefore hafter)
  · obtain ⟨a, ha, hgetA⟩ := hbefore
    obtain ⟨b, hb, hgetB⟩ := hafter
    rw [ha] at hb
    obtain rfl := ScopeOrDeclId.Scope.inj (Option.some.inj hb)
    rw [hgetA] at hgetB
    rw [Option.some.inj hgetB]

/-! ## §3. The search -/

/-- Before `place` scopes start at or before the position, from there on past it. -/
structure Splits (tree : LuaDeclarationTree) (scope : LuaScope) (position : TextSize)
    (lo hi : Nat) : Prop where
  before : ∀ i child, i < lo → ChildAt tree scope i child → child.getPosition ≤ position
  after : ∀ i child, hi ≤ i → ChildAt tree scope i child → position < child.getPosition

section

variable (hsiblings : SiblingsInOrder tree)
include hsiblings

/-- **The search ends at the place where scopes begin to start past the position.** -/
theorem searchChildren_spec (position : TextSize)
    (turns : Nat) : ∀ lo hi, hi - lo ≤ turns → lo ≤ hi → Splits tree scope position lo hi →
      ∃ place, tree.searchChildren scope.children position turns lo hi = some place ∧
        Splits tree scope position place place := by
  induction turns with
  | zero =>
    intro lo hi hturns hle hsplits
    obtain rfl : lo = hi := by omega
    exact ⟨lo, rfl, hsplits⟩
  | succ turns ih =>
    intro lo hi hturns hle hsplits
    unfold searchChildren
    by_cases hlt : lo < hi
    · rw [if_pos hlt]
      dsimp only
      -- The middle lies between the ends.
      obtain ⟨mid, hmid⟩ : ∃ mid, lo + (hi - lo) / 2 = mid := ⟨_, rfl⟩
      have hlow : lo ≤ mid := by omega
      rw [hmid]
      have hslice : ∀ (i : Nat) (childId : LuaScopeId), lo ≤ i → i ≤ mid →
          scope.children[i]? = some (.Scope childId) →
          ((scope.children.take (mid + 1)).drop lo)[i - lo]? = some (.Scope childId) := by
        intro i childId hlo hle' hat
        rw [getElem?_slice, if_pos (by omega), Nat.add_sub_cancel' hlo]
        exact hat
      cases hlast : lastChildScope ((scope.children.take (mid + 1)).drop lo) with
      | none =>
        refine ih (mid + 1) hi (by omega) (by omega) ⟨?_, hsplits.after⟩
        rintro i child hi' ⟨childId, hat, hget⟩
        by_cases hold : i < lo
        · exact hsplits.before i child hold ⟨childId, hat, hget⟩
        · exact absurd (hslice i childId (by omega) (by omega) hat)
            (lastChildScope_eq_none _ hlast _ _)
      | some lastId =>
        obtain ⟨k, hk, hbehind⟩ := lastChildScope_eq_some _ _ hlast
        rw [getElem?_slice] at hk
        split_ifs at hk with hkmid
        obtain ⟨last, hget, hlastAt⟩ := exists_childAt h hscope hk
        dsimp only
        rw [hget]
        dsimp only
        by_cases hpast : position < last.getPosition
        · rw [if_pos hpast]
          refine ih lo mid (by omega) hlow ⟨hsplits.before, ?_⟩
          intro i child hi' hchild
          exact lt_of_lt_of_le hpast
            (ChildAt.position_le h hscope hsiblings (by omega) hlastAt hchild)
        · rw [if_neg hpast]
          refine ih (mid + 1) hi (by omega) (by omega) ⟨?_, hsplits.after⟩
          intro i child hi' hchild
          by_cases hle' : i ≤ lo + k
          · exact le_trans (ChildAt.position_le h hscope hsiblings hle' hchild hlastAt)
              (not_lt.1 hpast)
          · obtain ⟨childId, hat, -⟩ := hchild
            exact absurd (hslice i childId (by omega) (by omega) hat)
              (hbehind (i - lo) (by omega) childId)
    · rw [if_neg hlt]
      obtain rfl : lo = hi := by omega
      exact ⟨lo, rfl, hsplits⟩

/-- At most one child contains a position. -/
theorem ChildAt.eq_of_contains {position : TextSize} {i j : Nat}
    {a b : LuaScope} (ha : ChildAt tree scope i a) (hb : ChildAt tree scope j b)
    (hina : a.range.contains position = true) (hinb : b.range.contains position = true) :
    a = b := by
  obtain ⟨hstartA, hstopA⟩ := (contains_iff _ _).1 hina
  obtain ⟨hstartB, hstopB⟩ := (contains_iff _ _).1 hinb
  rcases lt_trichotomy i j with hlt | rfl | hgt
  · have hle := ChildAt.stop_le h hscope hsiblings hlt ha hb
    exact absurd (lt_of_lt_of_le hstopA (le_trans hle hstartB)) (lt_irrefl position)
  · obtain ⟨idA, hatA, hgetA⟩ := ha
    obtain ⟨idB, hatB, hgetB⟩ := hb
    rw [hatA] at hatB
    obtain rfl := ScopeOrDeclId.Scope.inj (Option.some.inj hatB)
    exact Option.some.inj (hgetA.symm.trans hgetB)
  · have hle := ChildAt.stop_le h hscope hsiblings hgt hb ha
    exact absurd (lt_of_lt_of_le hstopB (le_trans hle hstartA)) (lt_irrefl position)

/-- The linear scan finds the child that contains the position. -/
theorem linearFindChildScope_eq {position : TextSize} {found : Option LuaScope}
    (hfound : ∀ child, found = some child →
      (∃ i, ChildAt tree scope i child) ∧ child.range.contains position = true)
    (hnone : found = none → ∀ i child, ChildAt tree scope i child →
      child.range.contains position = false) :
    tree.linearFindChildScope scope position = found := by
  have hmem : ∀ child, child ∈ childScopes tree scope ↔ ∃ i, ChildAt tree scope i child := by
    intro child
    unfold childScopes
    rw [List.mem_filterMap]
    constructor
    · rintro ⟨entry, hentry, hget⟩
      obtain ⟨i, hi⟩ := List.getElem?_of_mem hentry
      cases entry with
      | Scope childId => exact ⟨i, childId, hi, hget⟩
      | Decl declId => exact nomatch hget
    · rintro ⟨i, childId, hat, hget⟩
      exact ⟨_, List.mem_of_getElem? hat, hget⟩
  show (childScopes tree scope).find? (fun child => child.range.contains position) = found
  cases found with
  | none =>
    rw [List.find?_eq_none]
    intro child hchild hin
    obtain ⟨i, hat⟩ := (hmem child).1 hchild
    rw [hnone rfl i child hat] at hin
    cases hin
  | some child =>
    obtain ⟨⟨i, hat⟩, hin⟩ := hfound child rfl
    cases hfind : (childScopes tree scope).find? fun child => child.range.contains position with
    | none => exact absurd hin (List.find?_eq_none.1 hfind child ((hmem child).2 ⟨i, hat⟩))
    | some other =>
      obtain ⟨j, hat'⟩ := (hmem other).1 (List.mem_of_find?_eq_some hfind)
      have hin' : other.range.contains position = true :=
        List.find?_some (p := fun child : LuaScope => child.range.contains position) hfind
      rw [ChildAt.eq_of_contains h hscope hsiblings hat' hat hin' hin]

/-- **Bisecting finds what the scan finds.** -/
theorem findChildScope_eq_linear (position : TextSize) :
    tree.findChildScope scope position = tree.linearFindChildScope scope position := by
  have hstart : Splits tree scope position 0 scope.children.length := by
    refine ⟨fun i child hi => absurd hi (Nat.not_lt_zero i), ?_⟩
    rintro i child hi ⟨childId, hat, -⟩
    rw [List.getElem?_eq_none hi] at hat
    exact nomatch hat
  obtain ⟨place, hsearch, hsplits⟩ := searchChildren_spec h hscope hsiblings position
    scope.children.length 0 scope.children.length le_rfl (Nat.zero_le _) hstart
  -- What contains the position starts at or before it.
  have hbefore : ∀ j child, ChildAt tree scope j child →
      child.range.contains position = true → j < place := by
    intro j child hchild hin
    by_contra hge
    have hpast := hsplits.after j child (by omega) hchild
    exact absurd ((contains_iff _ _).1 hin).1 (not_le.2 hpast)
  symm
  apply linearFindChildScope_eq h hscope hsiblings
  · intro child hfound
    unfold findChildScope at hfound
    rw [hsearch] at hfound
    obtain ⟨hbind, hin⟩ := Option.filter_eq_some_iff.1 hfound
    obtain ⟨childId, hlast, hget⟩ := Option.bind_eq_some_iff.1 hbind
    obtain ⟨i, hat, -⟩ := lastChildScope_eq_some _ _ hlast
    rw [List.getElem?_take] at hat
    split_ifs at hat
    exact ⟨⟨i, childId, hat, hget⟩, hin⟩
  · intro hnone j child hchild
    rw [Bool.eq_false_iff]
    intro hin
    have hj := hbefore j child hchild hin
    unfold findChildScope at hnone
    rw [hsearch] at hnone
    dsimp only at hnone
    have hlisted := hchild
    obtain ⟨childId, hat, hget⟩ := hlisted
    have hslice : (scope.children.take place)[j]? = some (.Scope childId) := by
      rw [List.getElem?_take, if_pos hj]
      exact hat
    cases hlast : lastChildScope (scope.children.take place) with
    | none => exact lastChildScope_eq_none _ hlast j childId hslice
    | some lastId =>
      obtain ⟨i, hlastAt, hbehind⟩ := lastChildScope_eq_some _ _ hlast
      rw [List.getElem?_take] at hlastAt
      split_ifs at hlastAt with hi
      obtain ⟨last, hgetLast, hlastChild⟩ := exists_childAt h hscope hlastAt
      rw [hlast] at hnone
      have hout : last.range.contains position = false := by
        rw [Option.bind_some, hgetLast] at hnone
        by_contra hin'
        rw [Option.filter_some, if_pos (by simpa using hin')] at hnone
        exact nomatch hnone
      rcases lt_trichotomy j i with hlt | rfl | hgt
      · have hle := ChildAt.stop_le h hscope hsiblings hlt hchild hlastChild
        have hstop := ((contains_iff _ _).1 hin).2
        have hposition : last.range.start ≤ position := hsplits.before i last hi hlastChild
        exact absurd (lt_of_lt_of_le hstop (le_trans hle hposition)) (lt_irrefl position)
      · rw [hat] at hlastAt
        obtain rfl := ScopeOrDeclId.Scope.inj (Option.some.inj hlastAt)
        rw [hget] at hgetLast
        rw [Option.some.inj hgetLast, hout] at hin
        cases hin
      · exact hbehind j hgt childId hslice

end

end

/-- What is found is a child. -/
theorem findChildScope_mem {tree : LuaDeclarationTree} {scope child : LuaScope}
    {position : TextSize} (h : tree.findChildScope scope position = some child) :
    ∃ childId, ScopeOrDeclId.Scope childId ∈ scope.children ∧
      tree.getScope childId = some child := by
  unfold findChildScope at h
  cases hsearch : tree.searchChildren scope.children position scope.children.length 0
      scope.children.length with
  | none =>
    rw [hsearch] at h
    have hmem := List.mem_of_find?_eq_some h
    obtain ⟨entry, hentry, hget⟩ := List.mem_filterMap.1 hmem
    cases entry with
    | Scope childId => exact ⟨childId, hentry, hget⟩
    | Decl declId => exact nomatch hget
  | some place =>
    rw [hsearch] at h
    obtain ⟨hbind, -⟩ := Option.filter_eq_some_iff.1 h
    obtain ⟨childId, hlast, hget⟩ := Option.bind_eq_some_iff.1 hbind
    obtain ⟨i, hat, -⟩ := lastChildScope_eq_some _ _ hlast
    exact ⟨childId, List.mem_of_mem_take (List.mem_of_getElem? hat), hget⟩

end GluaLs.DeclTree
