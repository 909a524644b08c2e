/-
  GluaLs.Types.InferredUnion — inferred unions and the order their members arrive in.

  `from_inferred_vec` gives one type for every order of its list
  (`fromInferredVec_perm`), if the collapses of the list settle.  Each of its ways ends in a
  normal form of the same set of members, put into the order of their sort keys (`finish`):
  the structural way because nothing in its list collapses (`noCollapse_pairwise`), the
  absorbed way by `add_member`, the fold by the pairwise rule.
-/
import GluaLs.Types.UnionFold

namespace GluaLs.Types

open GluaLs.Lib

namespace LuaType

variable {h : Hashing}

/-! ## §1. The last step -/

/-- The inferred union of members that are distinct. -/
def finish (h : Hashing) : List LuaType → LuaType
  | [] => .Never
  | [t] => inferredOrder h t
  | members => .Union (.fromInferredVec h members)

section

variable {members members' : List LuaType} (hperm : members.Perm members')
  (hkeys : ∀ s ∈ members, ∀ t ∈ members, s.sortKey h = t.sortKey h → s = t)
include hperm hkeys

/-- Sorting forgets the order, where keys tell members apart. -/
theorem sortTypes_congr : sortTypes h members = sortTypes h members' := by
  apply List.Perm.eq_of_pairwise _ (pairwise_sortTypes members) (pairwise_sortTypes members')
  · exact (sortTypes_perm members).trans (hperm.trans (sortTypes_perm members').symm)
  · intro a b ha hb hab hba
    have ha' : a ∈ members := (sortTypes_perm members).mem_iff.1 ha
    have hb' : b ∈ members := hperm.mem_iff.2 ((sortTypes_perm members').mem_iff.1 hb)
    exact hkeys a ha' b hb' (le_antisymm hab hba)

theorem finish_congr : finish h members = finish h members' := by
  have hlen := hperm.length_eq
  match members, members', hperm, hkeys with
  | [], [], _, _ => rfl
  | [t], [t'], hperm, _ => rw [List.singleton_perm_singleton.1 hperm]
  | a :: b :: rest, a' :: b' :: rest', hperm, hkeys =>
    show LuaType.Union (.fromInferredVec h (a :: b :: rest))
      = .Union (.fromInferredVec h (a' :: b' :: rest'))
    unfold LuaUnionType.fromInferredVec
    rw [sortTypes_congr hperm hkeys, if_pos (by simp), if_pos (by simp)]
  | [], _ :: _, _, _ => simp at hlen
  | [_], [], _, _ => simp at hlen
  | [_], _ :: _ :: _, _, _ => simp at hlen
  | _ :: _ :: _, [], _, _ => simp at hlen
  | _ :: _ :: _, [_], _, _ => simp at hlen

end

/-- Two members, one of them nil. -/
theorem fromNormalizedVec_pair (t : LuaType) (ht : t ≠ .Nil) (l : List LuaType)
    (hperm : l.Perm [t, .Nil]) : LuaUnionType.fromNormalizedVec l = .Nullable t := by
  have hnil : t.isNil = false := Bool.eq_false_iff.2 fun hnil => ht (eq_nil_of_isNil t hnil)
  have hne : t.eq .Nil = false := (eq_nil t).trans hnil
  have hl : l = [t, .Nil] ∨ l = [.Nil, t] := by
    match l, hperm.length_eq with
    | [a, b], _ =>
      have ha : a = t ∨ a = .Nil := by simpa using hperm.mem_iff.1 (.head _)
      obtain rfl | rfl := ha
      · left
        rw [List.singleton_perm_singleton.1 ((List.perm_cons a).1 hperm)]
      · right
        have hperm' := hperm.trans (.swap LuaType.Nil t [])
        rw [List.singleton_perm_singleton.1 ((List.perm_cons _).1 hperm')]
  obtain rfl | rfl := hl
  · rw [fromNormalizedVec_two t .Nil hne, hnil]
    rfl
  · rw [fromNormalizedVec_two .Nil t (by rwa [(lawfulAt .Nil).symm])]
    rfl

/-- A union put into the inferred order is the inferred union of its members. -/
theorem inferredOrder_union (u : LuaUnionType) (htwo : 2 ≤ u.intoVec.length)
    (hapart : u.intoVec.Pairwise fun a b => a.eq b = false) :
    inferredOrder h (.Union u) = finish h u.intoVec := by
  cases u with
  | Multi members =>
    match members, htwo with
    | a :: b :: rest, _ => rfl
  | Nullable t =>
    have hne' := (List.pairwise_cons.1 hapart).1 .Nil (by simp)
    have ht : t ≠ .Nil := by
      intro heq
      rw [heq] at hne'
      cases hne'
    show LuaType.Union (.Nullable t) = .Union (.fromInferredVec h [t, .Nil])
    unfold LuaUnionType.fromInferredVec
    have hsorted := pairwise_perm (sortTypes_perm (h := h) [t, .Nil]) hapart
    rw [if_pos (by simp), dedupTypes_eq_self _ hsorted,
      fromNormalizedVec_pair t ht _ (sortTypes_perm _)]

/-! ## §2. The structural way -/

/-- **The structural constructor, in the inferred order**: each member once. -/
theorem inferredOrder_ofResultTypes {M : Set LuaType}
    (hkeys : ∀ s ∈ M, ∀ t ∈ M, s.sortKey h = t.sortKey h → s = t) (members : List LuaType)
    (hmembers : ∀ m ∈ members, m ∈ M) (hapart : members.Pairwise fun a b => a.eq b = false)
    (hne : members ≠ []) : inferredOrder h (ofResultTypes h members) = finish h members := by
  match members, hne with
  | [t], _ => rfl
  | a :: b :: rest, _ =>
    obtain ⟨hperm, _⟩ := intoVec_fromVec (h := h) hapart
    show inferredOrder h (.Union (.fromVec h (a :: b :: rest))) = _
    rw [inferredOrder_union _ (by rw [hperm.length_eq]; simp) (pairwise_perm hperm hapart)]
    apply finish_congr hperm
    intro s hs t ht
    exact hkeys s (hmembers s (hperm.mem_iff.1 hs)) t (hmembers t (hperm.mem_iff.1 ht))

/-! ## §3. Lists in which nothing collapses -/

/-- Flags only rise. -/
structure Flags.Le (f g : Flags) : Prop where
  num : f.num = true → g.num = true
  numVariant : f.numVariant = true → g.numVariant = true
  int : f.int = true → g.int = true
  intConst : f.intConst = true → g.intConst = true
  string : f.string = true → g.string = true
  stringConst : f.stringConst = true → g.stringConst = true
  boolean : f.boolean = true → g.boolean = true
  boolConsts : f.boolConsts ≤ g.boolConsts
  table : f.table = true → g.table = true
  tableConst : f.tableConst = true → g.tableConst = true
  function : f.function = true → g.function = true
  callable : f.callable = true → g.callable = true

theorem Flags.le_see (f : Flags) (t : LuaType) : f.Le (f.see t) := by
  cases t <;> constructor <;> simp [Flags.see]

/-- The flags a type raises are up. -/
def Flags.Has (f : Flags) : LuaType → Prop
  | .Function => f.function = true
  | .DocFunction .. | .Signature _ => f.callable = true
  | .Number => f.num = true
  | .Integer => f.numVariant = true ∧ f.int = true
  | .IntegerConst _ | .DocIntegerConst _ => f.numVariant = true ∧ f.intConst = true
  | .FloatConst _ => f.numVariant = true
  | .String => f.string = true
  | .StringConst _ | .DocStringConst _ => f.stringConst = true
  | .Boolean => f.boolean = true
  | .BooleanConst _ => 0 < f.boolConsts
  | .Table => f.table = true
  | .TableConst _ => f.tableConst = true
  | _ => True

theorem Flags.has_see (f : Flags) (t : LuaType) : (f.see t).Has t := by
  cases t <;> simp [Flags.see, Flags.Has]

theorem Flags.Has.mono {f g : Flags} {t : LuaType} (hle : f.Le g) (hf : f.Has t) : g.Has t := by
  cases t <;> first
    | trivial
    | exact hle.num hf
    | exact hle.numVariant hf
    | exact ⟨hle.numVariant hf.1, hle.int hf.2⟩
    | exact ⟨hle.numVariant hf.1, hle.intConst hf.2⟩
    | exact hle.string hf
    | exact hle.stringConst hf
    | exact hle.boolean hf
    | exact lt_of_lt_of_le hf hle.boolConsts
    | exact hle.table hf
    | exact hle.tableConst hf
    | exact hle.function hf
    | exact hle.callable hf

/-- A clash is seen when its second type arrives. -/
theorem Flags.collapse_of_clash (f : Flags) (a b : LuaType) (ha : f.Has a) (hclash : Clash a b) :
    (f.see b).collapse = true := by
  obtain hsub | hsub | ⟨c, d, rfl, rfl⟩ := hclash
  · cases hsub <;> simp_all [Flags.Has, Flags.see, Flags.collapse]
  · cases hsub <;> simp_all [Flags.Has, Flags.see, Flags.collapse]
  · have hpos : 0 < f.boolConsts := ha
    simp [Flags.see, Flags.collapse, hpos]

theorem noCollapse_of_has (types : List LuaType) :
    ∀ f : Flags, noCollapse f types = true → ∀ a, f.Has a → ∀ b ∈ types, ¬ Clash a b := by
  induction types with
  | nil =>
    intro f _ a _ b hb
    cases hb
  | cons t types ih =>
    intro f hno a ha b hb hclash
    unfold noCollapse at hno
    split at hno
    · cases hno
    · split at hno
      · cases hno
      · next hcollapse =>
          obtain rfl | hb := List.mem_cons.1 hb
          · exact hcollapse (f.collapse_of_clash a b ha hclash)
          · exact ih _ hno a (ha.mono (f.le_see t)) b hb hclash

/-- **No two types of a list without collapses clash.** -/
theorem noCollapse_pairwise (types : List LuaType) :
    ∀ f : Flags, noCollapse f types = true → types.Pairwise fun a b => ¬ Clash a b := by
  induction types with
  | nil =>
    intro f _
    exact .nil
  | cons t types ih =>
    intro f hno
    unfold noCollapse at hno
    split at hno
    · cases hno
    · split at hno
      · cases hno
      · exact List.pairwise_cons.2
          ⟨noCollapse_of_has types _ hno t (f.has_see t), ih _ hno⟩

theorem noCollapse_plain (types : List LuaType) :
    ∀ f : Flags, noCollapse f types = true →
      ∀ t ∈ types, t ≠ .Never ∧ t.isUnion = false ∧ t.isMultiLineUnion = false := by
  induction types with
  | nil =>
    intro f _ t ht
    cases ht
  | cons s types ih =>
    intro f hno t ht
    unfold noCollapse at hno
    split at hno
    · cases hno
    · next hguard =>
        split at hno
        · cases hno
        · obtain rfl | ht := List.mem_cons.1 ht
          · simp only [Bool.or_eq_true, not_or, Bool.not_eq_true] at hguard
            refine ⟨?_, hguard.1.2, hguard.2⟩
            intro hnever
            rw [hnever] at hguard
            cases hguard.1.1
          · exact ih _ hno t ht

theorem clash_symm (a b : LuaType) (hclash : Clash a b) : Clash b a := by
  obtain hsub | hsub | ⟨c, d, ha, hb⟩ := hclash
  · exact .inr (.inl hsub)
  · exact .inl hsub
  · exact .inr (.inr ⟨d, c, hb, ha⟩)

/-- Two distinct types of such a list do not clash. -/
theorem not_clash_of_noCollapse (types : List LuaType) (hno : noCollapse .none types = true)
    (a b : LuaType) (ha : a ∈ types) (hb : b ∈ types) (hne : a ≠ b) : ¬ Clash a b := by
  have : Std.Symm fun a b : LuaType => ¬ Clash a b :=
    ⟨fun a b hab hba => hab (clash_symm b a hba)⟩
  exact (noCollapse_pairwise types .none hno).forall ha hb hne

/-! ## §4. Sort keys -/

theorem allLeaves_eq (types : List LuaType) : allLeaves types = types.flatMap leaves := by
  induction types with
  | nil => rfl
  | cons t types ih =>
    show t.leaves ++ allLeaves types = _
    rw [ih, List.flatMap_cons]

/-- Nothing collides where keys tell types apart. -/
theorem collides_eq_false {M : Set LuaType} (hid : ∀ s ∈ M, ∀ t ∈ M, s.eq t = true ↔ s = t)
    (hkeys : ∀ s ∈ M, ∀ t ∈ M, s.sortKey h = t.sortKey h → s = t) (types : List LuaType) :
    ∀ keys : List LuaType, (∀ k ∈ keys, k ∈ M) → (∀ t ∈ types, t ∈ M) →
      collides h keys types = false := by
  induction types with
  | nil =>
    intro keys _ _
    rfl
  | cons t types ih =>
    intro keys hk hty
    have ht : t ∈ M := hty t (.head _)
    have hty' : ∀ s ∈ types, s ∈ M := (List.forall_mem_cons.1 hty).2
    unfold collides
    split
    · next existing hfound =>
        have hmem := hk existing (List.mem_of_find?_eq_some hfound)
        have hkey : existing.sortKey h = t.sortKey h := by simpa using List.find?_some hfound
        rw [(hid existing hmem t ht).2 (hkeys existing hmem t ht hkey), ih keys hk hty']
        rfl
    · apply ih _ _ hty'
      intro k hk'
      obtain hk' | hk' := List.mem_append.1 hk'
      · exact hk k hk'
      · rwa [List.mem_singleton.1 hk']

/-- A union without multi-line unions has none for a member. -/
theorem isMultiLineUnion_of_mem (u : LuaUnionType)
    (hu : containsMultiLineUnion (.Union u) = false) (t : LuaType) (ht : t ∈ u.intoVec) :
    t.isMultiLineUnion = false := by
  have hleaf : ∀ s : LuaType, s.containsMultiLineUnion = false → s.isMultiLineUnion = false := by
    intro s hs
    cases s <;> first | rfl | cases hs
  have hany : ∀ types : List LuaType, anyContainsMultiLineUnion types = false →
      ∀ s ∈ types, s.containsMultiLineUnion = false := by
    intro types
    induction types with
    | nil =>
      intro _ s hs
      cases hs
    | cons a types ih =>
      intro hall s hs
      have hall' : (a.containsMultiLineUnion || anyContainsMultiLineUnion types) = false := hall
      obtain ⟨ha, hrest⟩ := Bool.or_eq_false_iff.1 hall'
      obtain rfl | hs := List.mem_cons.1 hs
      · exact ha
      · exact ih hrest s hs
  cases u with
  | Nullable inner =>
    simp only [LuaUnionType.intoVec, List.mem_cons, List.not_mem_nil, or_false] at ht
    obtain rfl | rfl := ht
    · exact hleaf t hu
    · rfl
  | Multi types => exact hleaf t (hany types hu t ht)

/-! ## §5. What arrives -/

/-- The types that meet: the members of the list, spliced, and what their unions are made
    of. -/
def inferredSet (types : List LuaType) : Set LuaType :=
  {m | m ∈ types.flatMap spliced ∨ m ∈ allLeaves types}

/-- The list as the claims on it see it: no multi-line union, keys that tell its members
    apart, and equality that is identity (no float zero, no NaN). -/
structure Inferable (h : Hashing) (types : List LuaType) : Prop where
  multi : ∀ t ∈ types, t.containsMultiLineUnion = false
  key : ∀ s ∈ inferredSet types, ∀ t ∈ inferredSet types, s.sortKey h = t.sortKey h → s = t
  eq : ∀ s ∈ inferredSet types, ∀ t ∈ inferredSet types, s.eq t = true ↔ s = t

/-- The members that arrive, one after the other; `never` does not. -/
def arrived (types : List LuaType) : List LuaType :=
  (types.flatMap spliced).filter fun t => !t.isNever

/-- One type brings `integer` and, behind it, `number`, and whatever literal an author wrote
    comes in front of that `number`: `integer` has absorbed the literals when `number`
    arrives, wherever in the list the type stands. -/
def BroughtTogether (types : List LuaType) : Prop :=
  ∃ t others front back, types.Perm (t :: others) ∧ arrived [t] = front ++ .Number :: back ∧
    .Integer ∈ front ∧ .Number ∉ front ++ arrived others ∧
    ∀ n, .DocIntegerConst n ∉ back ++ arrived others

/-- What makes the order of arrival not matter: an arm that is kept (nothing is absorbed
    then), one type alone, or collapses that settle, those of the pairwise rule too where it
    is used. -/
def OrderFree (h : Hashing) (types : List LuaType) : Prop :=
  types.any isKeptArm = true ∨ types.length ≤ 1 ∨
    ((∀ n, ¬ (.Number ∈ memberSets types ∧ .Integer ∈ memberSets types ∧
      .DocIntegerConst n ∈ memberSets types)) ∨ BroughtTogether types) ∧
    (types.any containsPreservedUnionMember = true → visitingOrderIsObservable types = true →
      Canonical h types)

theorem mem_arrived (types : List LuaType) (m : LuaType) :
    m ∈ arrived types ↔ m ∈ memberSets types := by
  have hnever : (!m.isNever) = true ↔ m ≠ .Never := by
    cases m <;> simp [isNever]
  rw [arrived, List.mem_filter, hnever, List.mem_flatMap]
  exact ⟨fun ⟨⟨t, ht, hm⟩, hne⟩ => ⟨t, ht, hm, hne⟩, fun ⟨t, ht, hm, hne⟩ => ⟨⟨t, ht, hm⟩, hne⟩⟩

theorem arrived_append (types types' : List LuaType) :
    arrived (types ++ types') = arrived types ++ arrived types' := by
  simp [arrived]

variable {types types' : List LuaType}

theorem arrived_perm (hperm : types'.Perm types) : (arrived types').Perm (arrived types) :=
  (hperm.flatMap_right spliced).filter _

theorem inferredSet_perm (hperm : types'.Perm types) : inferredSet types' = inferredSet types := by
  ext m
  simp only [inferredSet, allLeaves_eq, (hperm.flatMap_right spliced).mem_iff,
    (hperm.flatMap_right leaves).mem_iff]

theorem settledSet_perm (hperm : types'.Perm types) : settledSet types' = settledSet types := by
  unfold settledSet
  rw [memberSets_perm hperm]

theorem memberSets_subset : memberSets types ⊆ inferredSet types := by
  rintro m ⟨t, ht, hm, -⟩
  exact .inl (List.mem_flatMap.2 ⟨t, ht, hm⟩)

/-- In every order, `integer` and the literals arrive before `number`. -/
theorem BroughtTogether.parts (hbrought : BroughtTogether types) (hperm : types'.Perm types) :
    ∃ front back, arrived types' = front ++ .Number :: back ∧ .Integer ∈ front ∧
      .Number ∉ front ∧ ∀ n, .DocIntegerConst n ∉ back := by
  obtain ⟨t, others, front, back, hsplit, harrived, hint, hnum, hdoc⟩ := hbrought
  have hperm' := hperm.trans hsplit
  obtain ⟨before, after, rfl⟩ := List.append_of_mem (hperm'.mem_iff.2 (.head _))
  have hothers := arrived_perm (List.perm_middle.symm.trans hperm').cons_inv
  have hmem : ∀ m, m ∈ arrived others ↔ m ∈ arrived before ∨ m ∈ arrived after := by
    intro m
    rw [← hothers.mem_iff, arrived_append, List.mem_append]
  simp only [List.mem_append, hmem, not_or] at hnum hdoc
  refine ⟨arrived before ++ front, back ++ arrived after, ?_, List.mem_append_right _ hint, ?_, ?_⟩
  · rw [arrived_append, ← List.singleton_append, arrived_append, harrived]
    simp
  · simp [hnum]
  · simp [hdoc]

namespace Inferable

variable (hok : Inferable h types)
include hok

theorem perm (hperm : types'.Perm types) : Inferable h types' := by
  refine ⟨fun t ht => hok.multi t (hperm.mem_iff.1 ht), ?_, ?_⟩
  · rw [inferredSet_perm hperm]
    exact hok.key
  · rw [inferredSet_perm hperm]
    exact hok.eq

theorem same (s : LuaType) (hs : s ∈ memberSets types) (t : LuaType) (ht : t ∈ memberSets types) :
    s.eq t = true → s = t :=
  (hok.eq s (memberSets_subset hs) t (memberSets_subset ht)).1

/-- Keys tell the members of the union apart. -/
theorem key_settledSet (s t : LuaType) (hs : s ∈ settledSet types) (ht : t ∈ settledSet types)
    (hkey : s.sortKey h = t.sortKey h) : s = t := by
  have hboolean : ∀ t : LuaType, t.sortKey h = sortKey h .Boolean → t = .Boolean := by
    intro t hkey
    have hord : t.sortOrdinal = 1 := congrArg (fun k => (ofLex k).1) hkey
    cases t <;> first | rfl | cases hord
  obtain rfl | hs := Set.mem_insert_iff.1 hs
  · exact (hboolean t hkey.symm).symm
  · obtain rfl | ht := Set.mem_insert_iff.1 ht
    · exact hboolean s hkey
    · exact hok.key s (memberSets_subset hs) t (memberSets_subset ht) hkey

theorem eq_self (t : LuaType) (ht : t ∈ settledSet types) : t.eq t = true := by
  obtain rfl | ht := Set.mem_insert_iff.1 ht
  · rfl
  · exact (hok.eq t (memberSets_subset ht) t (memberSets_subset ht)).2 rfl

/-- The members absorbed, without the hash set. -/
theorem absorbedMembers_eq : absorbedMembers h types = (arrived types).foldl absorbMember [] := by
  apply foldl_addMember_eq (collapsible_settledSet hok.same) (arrived types) _ ⟨[], 0, []⟩
    ⟨nofun, .nil⟩ ⟨nofun, nofun, nofun⟩
  exact fun t ht => Set.mem_insert_of_mem _ ((mem_arrived types t).1 ht)

/-- The structural way puts every member down once, in the order of the keys. -/
theorem finish_structural (htwo : 2 ≤ types.length) (hne : types.flatMap spliced ≠ []) :
    ∃ members : List LuaType, members.Nodup ∧ (∀ m, m ∈ members ↔ m ∈ types.flatMap spliced) ∧
      inferredOrder h (fromVecStructural h types) = finish h members := by
  have hid : ∀ s ∈ types.flatMap spliced, ∀ t ∈ types.flatMap spliced, s.eq t = true ↔ s = t :=
    fun s hs t ht => hok.eq s (.inl hs) t (.inl ht)
  have hmem : ∀ m, m ∈ firstOccurrencesAfter LuaType.eq [] (types.flatMap spliced)
      ↔ m ∈ types.flatMap spliced := by
    intro m
    rw [mem_firstOccurrencesAfter_iff (types.flatMap spliced) [] hid]
    simp
  have hapart := @pairwise_firstOccurrencesAfter _ LuaType.eq (types.flatMap spliced) []
  refine ⟨_, ?_, hmem, ?_⟩
  · apply hapart.imp_of_mem
    rintro a b ha - hne rfl
    rw [(hid a ((hmem a).1 ha) a ((hmem a).1 ha)).2 rfl] at hne
    cases hne
  · rw [fromVecStructural_two types htwo, foldl_pushDedup_eq _ fun _ s hs t ht => (hid s hs t ht).1]
    obtain ⟨t, ht⟩ := List.exists_mem_of_ne_nil _ hne
    exact inferredOrder_ofResultTypes hok.key _ (fun m hm => .inl ((hmem m).1 hm)) hapart
      (List.ne_nil_of_mem ((hmem t).2 ht))

end Inferable

/-! ## §6. Every way ends in a normal form -/

/-- The inferred union is that of a normal form of `S`, among the types of `M`. -/
def Finishes (h : Hashing) (M S : Set LuaType) (r : LuaType) : Prop :=
  ∃ (hM : Settles M) (members : List LuaType), Reduced M hM S members ∧ r = finish h members

/-- Two normal forms finish alike. -/
theorem Finishes.unique (hok : Inferable h types) {M S : Set LuaType} (hM : M ⊆ settledSet types)
    (hS : S ⊆ M) {r r' : LuaType} (hr : Finishes h M S r) (hr' : Finishes h M S r') : r = r' := by
  obtain ⟨hsettles, members, hred, rfl⟩ := hr
  obtain ⟨_, members', hred', rfl⟩ := hr'
  have hnodup : ∀ members, Reduced M hsettles S members → members.Nodup := by
    intro members hred
    apply List.Pairwise.imp_of_mem _ hred.pairwise_eq
    intro a b ha _ hne heq
    rw [← heq, hok.eq_self a (hM (hred.atom a ha))] at hne
    cases hne
  apply finish_congr ((List.perm_ext_iff_of_nodup (hnodup _ hred) (hnodup _ hred')).2
    (hred.mem_iff hS hred'))
  intro s hs t ht
  exact hok.key_settledSet s t (hM (hred.atom s hs)) (hM (hred.atom t ht))

theorem reduced_nil {A : Set LuaType} {hA : Settles A} : Reduced A hA ∅ [] := by
  refine ⟨?_, .nil, ?_, ?_⟩ <;>
    · intro x hx
      cases hx

/-- The structural way: nothing collapses. -/
theorem finishes_structural (hok : Inferable h types) (hA : Settles (settledSet types))
    (htwo : 2 ≤ types.length) (hno : noCollapse .none types = true) :
    Finishes h (settledSet types) (memberSets types)
      (inferredOrder h (fromVecStructural h types)) := by
  have hplain := noCollapse_plain types .none hno
  have hflat : types.flatMap spliced = types :=
    flatMap_spliced_eq_self types fun t ht => (hplain t ht).2.1
  have hset : memberSets types = {m | m ∈ types} :=
    memberSets_plain types fun t ht => ⟨(hplain t ht).2.1, (hplain t ht).1⟩
  have hne : types.flatMap spliced ≠ [] := by
    rw [hflat]
    exact List.ne_nil_of_length_pos (by omega)
  obtain ⟨members, hnodup, hmem, heq⟩ := hok.finish_structural htwo hne
  rw [hflat] at hmem
  refine ⟨hA, members, ?_, heq⟩
  rw [hset, show {m | m ∈ types} = {m | m ∈ members} from Set.ext fun m => (hmem m).symm]
  apply AbsorptionRules.Reduces.of_irreducible (R := rules _ hA)
  · exact fun m hm => Set.mem_insert_of_mem _ (hset ▸ (hmem m).1 hm)
  · apply List.Pairwise.imp_of_mem _ hnodup
    rintro a b ha hb hne r ⟨ha', hb', hc⟩
    have hclash := not_clash_of_noCollapse types hno a b ((hmem a).1 ha) ((hmem b).1 hb) hne
    obtain ⟨-, heq | hsub⟩ | ⟨-, heq | hsub⟩ | ⟨c, hs, ht, -⟩ :=
      collapses_cases hA.toCollapsible a b r ha' hb' hc
    · exact hne heq.symm
    · exact hclash (.inl hsub)
    · exact hne heq
    · exact hclash (.inr (.inl hsub))
    · exact hclash (.inr (.inr ⟨c, _, hs, ht⟩))

theorem finish_absorbed (h : Hashing) (types : List LuaType) :
    inferredOrder h (unionAllAbsorbedInferred h types) = finish h (absorbedMembers h types) := by
  unfold unionAllAbsorbedInferred
  match absorbedMembers h types with
  | [] => rfl
  | [t] => rfl
  | a :: b :: rest => rfl

/-- The absorbed way. -/
theorem finishes_absorbed (hok : Inferable h types) (hA : Settles (settledSet types)) :
    Finishes h (settledSet types) (memberSets types)
      (inferredOrder h (unionAllAbsorbedInferred h types)) := by
  refine ⟨hA, absorbedMembers h types, ?_, finish_absorbed h types⟩
  have hred := (@reduced_nil _ hA).absorbAll (Set.empty_subset _) (arrived types)
    fun t ht => Set.mem_insert_of_mem _ ((mem_arrived types t).1 ht)
  rwa [Set.empty_union, show {t | t ∈ arrived types} = memberSets types from
    Set.ext (mem_arrived types), ← hok.absorbedMembers_eq] at hred

/-- What a type carries is a normal form it finishes to. -/
theorem exists_finish_of_carries {A S : Set LuaType} {hA : Settles A} {t : LuaType}
    (hc : Carries h A hA S t) : Finishes h A S (inferredOrder h t) := by
  cases hc with
  | never => exact ⟨hA, [], reduced_nil, rfl⟩
  | atom _ _ hred => exact ⟨hA, [t], hred, rfl⟩
  | union _ _ hred _ htwo =>
    exact ⟨hA, _, hred, inferredOrder_union _ htwo hred.pairwise_eq⟩

/-- The fold. -/
theorem finishes_fold (hok : Inferable h types) (hcan : Canonical h types) :
    Finishes h (settledSet types) (memberSets types)
      (inferredOrder h (foldUnionShallow h types)) := by
  have hplain : Plain (settledSet types) := by
    intro t ht
    obtain rfl | ht := Set.mem_insert_iff.1 ht
    · exact ⟨rfl, rfl⟩
    · obtain ⟨hmem, hunion, _⟩ | ⟨u, hu, hm⟩ := mem_memberSets_cases t ht
      · refine ⟨hunion, ?_⟩
        have hmulti := hok.multi t hmem
        cases t <;> first | rfl | cases hmulti
      · refine ⟨((hcan.union u hu).member t hm).2, ?_⟩
        exact isMultiLineUnion_of_mem u (hok.multi _ hu) t hm
  exact exists_finish_of_carries (carries_foldUnionShallow hplain types hcan.carries)

/-! ## §7. `integer` before `number` -/

/-- The integer literals that an author wrote. -/
def docIntegers : Set LuaType := {m | ∃ n, m = .DocIntegerConst n}

theorem Collapsible.diff {A D : Set LuaType} (hA : Collapsible (· ∈ A)) (hboolean : .Boolean ∉ D) :
    Collapsible (· ∈ A \ D) :=
  ⟨fun hnever => hA.never hnever.1, ⟨hA.boolean, hboolean⟩, fun s hs t ht => hA.eq s hs.1 t ht.1⟩

section

variable {A : Set LuaType} (hA : Collapsible (· ∈ A))
include hA

theorem settles_noNumber : Settles (A \ {.Number}) :=
  ⟨hA.diff nofun, fun _ hall => hall.1.2 rfl⟩

theorem settles_noDocs : Settles (A \ docIntegers) :=
  ⟨hA.diff nofun, fun n hall => hall.2.2.2 ⟨n, rfl⟩⟩

/-- **Where `integer` came and `number` did not**, no literal is left: the members are the
    normal form of the other types, beside `number` too. -/
theorem reduced_noDocs {S : Set LuaType} {members : List LuaType}
    (hred : Reduced (A \ {.Number}) (settles_noNumber hA) S members) (hint : .Integer ∈ S) :
    Reduced (A \ docIntegers) (settles_noDocs hA) (S \ docIntegers) members := by
  have hplain : ∀ m ∈ members, m ∉ docIntegers := by
    rintro m hm ⟨n, rfl⟩
    obtain ⟨i, hi, rfl | hsub⟩ := hred.covers .Integer hint
    · have hsame := hred.irreducible.eq_of_collapse _ _ hi hm .Integer
        ⟨hred.atom _ hi, hred.atom _ hm, .left (.docIntegerConst n) rfl⟩
      cases hsame
    · cases hsub
      exact (hred.atom _ hi).2 rfl
  have hatom : ∀ m ∈ members, m ∈ A \ docIntegers := fun m hm =>
    ⟨(hred.atom m hm).1, hplain m hm⟩
  refine ⟨hatom, ?_, fun s hs => hred.covers s hs.1, ?_⟩
  · apply List.Pairwise.imp_of_mem _ hred.irreducible
    exact fun ha hb hnone r hc => hnone r ⟨hred.atom _ ha, hred.atom _ hb, hc.2.2⟩
  · -- a set that is closed beside `number` is closed without it, the literals put in
    intro m hm X hX hsub
    refine (hred.spanned m hm {a | a ∈ X ∨ a ∈ docIntegers} ⟨?_, ?_⟩ ?_).resolve_right
      (hplain m hm)
    · intro a b ha hb hle
      by_cases hdoc : a ∈ docIntegers
      · exact .inr hdoc
      · obtain hb | ⟨n, rfl⟩ := hb
        · exact .inl (hX.below a b ⟨ha.1, hdoc⟩ hb hle)
        · obtain rfl | hsub := hle
          · exact absurd ⟨n, rfl⟩ hdoc
          · cases hsub
    · rintro a b r ha hb ⟨haA, hbA, hc⟩
      obtain ⟨rfl, -⟩ | ⟨rfl, -⟩ | ⟨c, rfl, rfl, rfl⟩ := collapses_cases hA a b r haA.1 hbA.1 hc
      · exact ha
      · exact hb
      · have hnot : ∀ c, LuaType.BooleanConst c ∉ docIntegers := nofun
        exact .inl (hX.collapse _ _ _ (ha.resolve_right (hnot _)) (hb.resolve_right (hnot _))
          ⟨⟨haA.1, hnot _⟩, ⟨hbA.1, hnot _⟩, hc⟩)
    · intro s hs
      by_cases hdoc : s ∈ docIntegers
      · exact .inr hdoc
      · exact .inl (hsub ⟨hs, hdoc⟩)

end

/-- **`integer` absorbs the literals, then `number` absorbs `integer`.** -/
theorem finishes_brought (hok : Inferable h types) {front back : List LuaType}
    (harrived : arrived types = front ++ .Number :: back) (hint : .Integer ∈ front)
    (hnum : .Number ∉ front) (hdoc : ∀ n, .DocIntegerConst n ∉ back) :
    Finishes h (settledSet types \ docIntegers) (memberSets types \ docIntegers)
      (inferredOrder h (unionAllAbsorbedInferred h types)) := by
  have hA := collapsible_settledSet hok.same
  have hmem : ∀ t ∈ front ++ .Number :: back, t ∈ settledSet types := fun t ht =>
    Set.mem_insert_of_mem _ ((mem_arrived types t).1 (harrived ▸ ht))
  have hback : ∀ t ∈ LuaType.Number :: back, t ∉ docIntegers := by
    rintro t ht ⟨n, rfl⟩
    obtain heq | ht := List.mem_cons.1 ht
    · cases heq
    · exact hdoc n ht
  have hfirst := (@reduced_nil _ (settles_noNumber hA)).absorbAll (Set.empty_subset _) front
    fun t ht => ⟨hmem t (List.mem_append_left _ ht), fun heq => hnum (heq ▸ ht)⟩
  rw [Set.empty_union] at hfirst
  have hsub : {t | t ∈ front} \ docIntegers ⊆ settledSet types \ docIntegers :=
    fun t ht => ⟨hmem t (List.mem_append_left _ ht.1), ht.2⟩
  have hred := (reduced_noDocs hA hfirst hint).absorbAll hsub (.Number :: back)
    fun t ht => ⟨hmem t (List.mem_append_right _ ht), hback t ht⟩
  refine ⟨settles_noDocs hA, absorbedMembers h types, ?_, finish_absorbed h types⟩
  rw [hok.absorbedMembers_eq, harrived, List.foldl_append]
  have hset : memberSets types \ docIntegers
      = {t | t ∈ front} \ docIntegers ∪ {t | t ∈ LuaType.Number :: back} := by
    ext t
    rw [Set.mem_sdiff, ← mem_arrived, harrived, List.mem_append]
    refine ⟨?_, ?_⟩
    · rintro ⟨ht | ht, hnot⟩
      · exact .inl ⟨ht, hnot⟩
      · exact .inr ht
    · rintro (⟨ht, hnot⟩ | ht)
      · exact ⟨.inl ht, hnot⟩
      · exact ⟨.inr ht, hback t ht⟩
  rw [hset]
  exact hred

/-! ## §8. Every order -/

theorem any_perm (hperm : types'.Perm types) (p : LuaType → Bool) : types'.any p = types.any p := by
  rw [Bool.eq_iff_iff, List.any_eq_true, List.any_eq_true]
  simp only [hperm.mem_iff]

/-- The ways a list without an arm that is kept may go. -/
theorem fromInferredVec_cases (hok : Inferable h types) (htwo : 2 ≤ types.length)
    (hkept : types.any isKeptArm = false) :
    noCollapse .none types = true ∧
        fromInferredVec h types = inferredOrder h (fromVecStructural h types) ∨
      fromInferredVec h types = inferredOrder h
        (if types.any containsPreservedUnionMember && visitingOrderIsObservable types then
          foldUnionShallow h types
        else unionAllAbsorbedInferred h types) := by
  have hcollision : containsDistinctSortKeyCollision h types = false :=
    collides_eq_false hok.eq hok.key _ [] nofun fun t => .inr
  have hmulti : types.any containsMultiLineUnion = false := by
    rw [List.any_eq_false]
    intro t ht
    rw [hok.multi t ht]
    exact Bool.false_ne_true
  unfold fromInferredVec unionTypeAllMode
  rw [if_neg (by omega), hkept, Bool.false_or, hmulti, hcollision]
  cases hstructural : canUseStructuralUnion h types with
  | true => exact .inl ⟨(Bool.and_eq_true_iff.1 hstructural).2, rfl⟩
  | false =>
    right
    cases types.any containsPreservedUnionMember <;> cases visitingOrderIsObservable types <;> rfl

/-- A list with an arm that is kept. -/
theorem finish_kept (hok : Inferable h types) (htwo : 2 ≤ types.length)
    (hkept : types.any isKeptArm = true) :
    ∃ members : List LuaType, members.Nodup ∧ (∀ m, m ∈ members ↔ m ∈ types.flatMap spliced) ∧
      fromInferredVec h types = finish h members := by
  unfold fromInferredVec unionTypeAllMode
  rw [if_neg (by omega), hkept, Bool.true_or, if_pos rfl]
  apply hok.finish_structural htwo
  obtain ⟨t, ht, harm⟩ := List.any_eq_true.1 hkept
  apply List.ne_nil_of_mem (List.mem_flatMap.2 ⟨t, ht, _⟩)
  · exact t
  · cases t <;> first | exact (.head _) | cases harm

section

variable (hok : Inferable h types) (hperm : types'.Perm types) (htwo : 2 ≤ types.length)
  (hkept : types.any isKeptArm = false)
include hok hperm htwo hkept

/-- Collapses that settle. -/
theorem finishes_settled (hnumbers : ∀ n, ¬ (.Number ∈ memberSets types ∧
      .Integer ∈ memberSets types ∧ .DocIntegerConst n ∈ memberSets types))
    (hfold : types.any containsPreservedUnionMember = true →
      visitingOrderIsObservable types = true → Canonical h types) :
    Finishes h (settledSet types') (memberSets types') (fromInferredVec h types') := by
  have hok' := hok.perm hperm
  have htwo' : 2 ≤ types'.length := hperm.length_eq ▸ htwo
  rw [memberSets_perm hperm.symm] at hnumbers
  have hA := settles_settledSet hok'.same hnumbers
  obtain ⟨hno, heq⟩ | heq := fromInferredVec_cases hok' htwo' ((any_perm hperm _).trans hkept)
  · rw [heq]
    exact finishes_structural hok' hA htwo' hno
  · rw [heq]
    split
    · rename_i hboth
      obtain ⟨hpreserved, hvisible⟩ := Bool.and_eq_true_iff.1 hboth
      unfold visitingOrderIsObservable at hvisible
      rw [any_perm hperm] at hpreserved
      rw [any_perm hperm, any_perm hperm] at hvisible
      obtain ⟨hany, hunion, hsame, -⟩ := hfold hpreserved hvisible
      refine finishes_fold hok' ⟨fun hmem => hany (hperm.mem_iff.1 hmem), ?_, hok'.same, hnumbers⟩
      exact fun u hu => hunion u (hperm.mem_iff.1 hu)
    · exact finishes_absorbed hok' hA

/-- `integer` before `number`. -/
theorem finishes_settled_brought (hbrought : BroughtTogether types)
    (hfold : ¬ (types.any containsPreservedUnionMember = true ∧
      visitingOrderIsObservable types = true)) :
    Finishes h (settledSet types' \ docIntegers) (memberSets types' \ docIntegers)
      (fromInferredVec h types') := by
  have hok' := hok.perm hperm
  obtain ⟨front, back, harrived, hint, hnum, hdoc⟩ := hbrought.parts hperm
  obtain ⟨hno, -⟩ | heq :=
    fromInferredVec_cases hok' (hperm.length_eq ▸ htwo) ((any_perm hperm _).trans hkept)
  · -- `number` and `integer` would be two types of the list
    have hplain := noCollapse_plain types' .none hno
    have hset := memberSets_plain types' fun t ht => ⟨(hplain t ht).2.1, (hplain t ht).1⟩
    have hmem : ∀ m ∈ front ++ .Number :: back, m ∈ types' := by
      intro m hm
      rwa [← harrived, mem_arrived, hset] at hm
    exact absurd (.inl .numberInteger) (not_clash_of_noCollapse types' hno .Number .Integer
      (hmem _ (by simp)) (hmem _ (List.mem_append_left _ hint)) nofun)
  · rw [heq, if_neg]
    · exact finishes_brought hok' harrived hint hnum hdoc
    · unfold visitingOrderIsObservable at hfold ⊢
      rw [any_perm hperm, any_perm hperm, any_perm hperm, Bool.and_eq_true_iff]
      exact hfold

end

/-- A list of members told apart by their discriminants, each equal to itself. -/
theorem inferable_of_list (types members : List LuaType)
    (hset : ∀ m, m ∈ inferredSet types ↔ m ∈ members)
    (hmulti : ∀ t ∈ types, t.containsMultiLineUnion = false)
    (hord : ∀ s ∈ members, ∀ t ∈ members, s.sortOrdinal = t.sortOrdinal → s = t)
    (hself : ∀ t ∈ members, t.eq t = true) : Inferable h types := by
  refine ⟨hmulti, ?_, ?_⟩
  · intro s hs t ht hkey
    exact hord s ((hset s).1 hs) t ((hset t).1 ht) (congrArg (fun k => (ofLex k).1) hkey)
  · intro s hs t ht
    constructor
    · intro heq
      exact hord s ((hset s).1 hs) t ((hset t).1 ht) (sortOrdinal_eq_of_eq s t heq)
    · intro heq
      rw [← heq]
      exact hself s ((hset s).1 hs)

end LuaType

end GluaLs.Types
