/-
  GluaLs.Types.UnionAll — the two short ways of the pairwise union
  (`union_all`, `union_sorted_insert` of `db_index/type/type_ops/union_type.rs`).

  Both leave out the work of the rule they stand for:

    • `union_sorted_insert` searches a sorted union where the general arm absorbs the type
      into its members and builds it again (`unionSortedInsert_eq`),
    • `union_all` builds a list without collapses at once, where the fold builds it type by
      type (`foldUnionType_structural`).

  One thing is not the same.  The source of `union_type` may be an alias of the union, and
  where the member is there already the search hands the source back, while the general arm
  spells the union out.
-/
import GluaLs.Types.InferredUnion

namespace GluaLs.Types

open GluaLs.Lib

namespace LuaType

variable {h : Hashing}

/-! ## §1. The sorted insert -/

section

variable {members : List LuaType} {right : LuaType}

/-- A type that is new is absorbed at the end. -/
theorem absorbAll_new (hnew : ∀ m ∈ members, m.eq right = false)
    (hnone : ∀ m ∈ members, m.eq right = false → tryCollapse m m right = none) :
    absorbAll members [right] = members ++ [right] := by
  rw [absorbAll_one, absorb_new members _ right fun m hm => hnone m hm (hnew m hm)]

theorem pairwise_concat (hapart : members.Pairwise fun a b => a.eq b = false)
    (hnew : ∀ m ∈ members, m.eq right = false) :
    (members ++ [right]).Pairwise fun a b => a.eq b = false := by
  refine List.pairwise_append.2 ⟨hapart, List.pairwise_singleton _ _, ?_⟩
  intro m hm s hs
  rw [List.mem_singleton.1 hs]
  exact hnew m hm

end

/-- The canonical union is built of its members. -/
theorem CanonicalUnion.build {u : LuaUnionType} (hu : CanonicalUnion h u) :
    fromVecStructural h u.intoVec = .Union u := by
  rw [fromVecStructural_plain _ hu.two hu.plain hu.apart, hu.fromVec]

theorem CanonicalUnion.sortedUnion {u : LuaUnionType} (hu : CanonicalUnion h u) :
    SortedUnion h u := by
  have hsorted := (intoVec_fromVec (h := h) hu.apart).2
  rwa [hu.fromVec] at hsorted

/-- **The sorted insert is the general arm**, but for a source that is not the union: where
the member is there, the source is handed back. -/
theorem unionSortedInsert_eq {left : LuaUnionType} {source right r : LuaType}
    (hleft : CanonicalUnion h left) (hright : right.isUnion = false) (hdefinite : Definite right)
    (hinsert : unionSortedInsert h left source right = some r) :
    r = fromVecStructural h (absorbAll left.intoVec [right]) ∨
      containsType left.intoVec right = true ∧ r = source ∧
        fromVecStructural h (absorbAll left.intoVec [right]) = .Union left := by
  obtain ⟨members, rfl, hchecked, hanswer⟩ := unionSortedInsert_cases hinsert
  have hsearched := hchecked.searched hleft.sortedUnion
  have hintoVec : (LuaUnionType.Multi members).intoVec = members := rfl
  have hbuild := hleft.build
  obtain ⟨htwo, hplain, hapart, -⟩ := hleft
  rw [hintoVec] at *
  have heq_iff : ∀ m ∈ members, m.eq right = true → right = m := by
    intro m _ heq
    rw [(lawfulAt m).symm] at heq
    exact (hdefinite.eq_iff m).1 heq
  obtain ⟨hempty, rfl⟩ | ⟨hcontains, rfl⟩ := hanswer
  · left
    have hlarger := ne_of_equalMembers hsearched.sorted hempty
    have hsplit := smaller_append_larger h members right
    have hnew : ∀ m ∈ members, m.eq right = false := by
      intro m hm
      rw [← Bool.not_eq_true]
      intro heq
      exact not_mem_of_equalMembers hsearched.sorted hempty (heq_iff m hm heq ▸ hm)
    have hapart' := pairwise_concat hapart hnew
    have hunordered : Unordered (members ++ [right]) := ⟨hsearched.insensitive, hapart'⟩
    have hlength : 2 ≤ (members ++ [right]).length := by
      rw [List.length_append]
      omega
    rw [absorbAll_new hnew hsearched.none, fromVecStructural_plain _ hlength _ hapart',
      fromVec_unordered hunordered hlength]
    · have hinserted : smallerMembers h members right ++ right :: largerMembers h members right
          = sortTypes h (members ++ [right]) := by
        apply SameRuns.eq_insertionSort _ (pairwise_insert hsearched.sorted right)
        have hruns := sameRuns_insert (sortKey h) (smallerMembers h members right)
          (largerMembers h members right) right hlarger
        rwa [hsplit] at hruns
      rw [hinserted]
      unfold LuaUnionType.fromNormalizedVec
      rw [if_neg]
      rintro ⟨hthree, -⟩
      rw [(sortTypes_perm (members ++ [right])).length_eq, List.length_append] at hthree
      simp only [List.length_singleton] at hthree
      omega
    · intro m hm
      obtain hm | hm := List.mem_append.1 hm
      · exact hplain m hm
      · rwa [List.mem_singleton.1 hm]
  · right
    obtain ⟨m, hm, heq⟩ := List.any_eq_true.1 hcontains
    have hmem : right ∈ members := heq_iff m hm heq ▸ hm
    have hself : right.eq right = true := (hdefinite.eq_iff right).2 rfl
    rw [absorbAll_member hmem hself hapart hsearched.none]
    exact ⟨hcontains, rfl, hbuild⟩

/-! ## §2. The structural path -/

/-- What the distinct members of a list are built to; nothing is `never`. -/
def built (h : Hashing) : List LuaType → LuaType
  | [] => .Never
  | members => ofResultTypes h members

/-- What the structural path asks of a list, of its members and of every two of them. -/
structure StructuralList (db : DbIndex) (types : List LuaType) : Prop where
  any : ∀ t ∈ types, t.isAny = false
  never : ∀ t ∈ types, t ≠ .Never
  plain : ∀ t ∈ types, t.isUnion = false ∧ t.isMultiLineUnion = false
  noAlias : ∀ t ∈ types, refersToAlias db t = false
  insensitive : ∀ t ∈ types, t.isOrderInsensitiveMember = true
  definite : ∀ t ∈ types, Definite t
  none : ∀ s ∈ types, ∀ t ∈ types, s ≠ t → tryCollapse s s t = none

variable {db : DbIndex} {types : List LuaType}

theorem looked_eq_self (t : LuaType) (hplain : t.isUnion = false) : t.looked = [t] := by
  cases t with
  | Union u => cases hplain
  | _ => rfl

theorem structuralList (hdefinite : ∀ t ∈ types, Definite t)
    (hcan : canUseDbAwareStructuralUnion h db types = true) : StructuralList db types := by
  unfold canUseDbAwareStructuralUnion at hcan
  simp only [Bool.and_eq_true, List.all_eq_true, Bool.not_eq_true', Bool.or_eq_false_iff] at hcan
  obtain ⟨⟨hall, hstructural⟩, hvisible⟩ := hcan
  have hno := (Bool.and_eq_true_iff.1 hstructural).2
  have hplain := noCollapse_plain types .none hno
  refine ⟨?_, ?_, ?_, ?_, ?_, hdefinite, ?_⟩
  · exact fun t ht => (hall t ht).1.1.1.1
  · exact fun t ht => (hplain t ht).1
  · exact fun t ht => (hplain t ht).2
  · exact fun t ht => (hall t ht).2
  · intro t ht
    have hsensitive := (Bool.or_eq_false_iff.1 hvisible).2
    rw [List.any_eq_false] at hsensitive
    have hlooked := hsensitive t ht
    rw [looked_eq_self t (hplain t ht).2.1] at hlooked
    simpa using hlooked
  · intro s hs t ht hne
    apply tryCollapse_eq_none s t (hplain s hs).1 (hplain t ht).1
      (not_clash_of_noCollapse types hno s t hs ht hne)
    rw [← Bool.not_eq_true, (hdefinite s hs).eq_iff]
    exact hne

/-- Distinct members of such a list. -/
structure Chosen (types members : List LuaType) : Prop where
  subset : ∀ m ∈ members, m ∈ types
  apart : members.Pairwise fun a b => a.eq b = false

section

variable {members : List LuaType}

theorem Chosen.unordered (hlist : StructuralList db types)
    (hchosen : Chosen types members) : Unordered members :=
  ⟨List.all_eq_true.2 fun m hm => hlist.insensitive m (hchosen.subset m hm), hchosen.apart⟩

/-- Their union is canonical. -/
theorem Chosen.canonicalUnion (hlist : StructuralList db types)
    (hchosen : Chosen types members) (htwo : 2 ≤ members.length) :
    CanonicalUnion h (.fromVec h members) := by
  have hunordered := hchosen.unordered hlist
  have hperm := (intoVec_fromVec (h := h) hchosen.apart).1
  refine ⟨?_, ?_, pairwise_perm hperm hchosen.apart, ?_⟩
  · rw [hperm.length_eq]
    exact htwo
  · exact fun m hm => (hlist.plain m (hchosen.subset m (hperm.mem_iff.1 hm))).1
  · exact fromVec_congr hunordered htwo hperm (sameRuns_intoVec_fromVec hunordered htwo)

theorem Chosen.keep (hchosen : Chosen types members) {t : LuaType}
    (ht : t ∈ types) : Chosen types (keep LuaType.eq members t) := by
  unfold GluaLs.Lib.keep
  split
  · exact hchosen
  · rename_i hnew
    refine ⟨?_, pairwise_concat hchosen.apart ?_⟩
    · intro m hm
      obtain hm | hm := List.mem_append.1 hm
      · exact hchosen.subset m hm
      · rwa [List.mem_singleton.1 hm]
    · intro m hm
      rw [← Bool.not_eq_true]
      exact fun heq => hnew (List.any_eq_true.2 ⟨m, hm, heq⟩)

/-- A type that meets the union of two members or more. -/
theorem fromVecStructural_absorbAll (hlist : StructuralList db types)
    (hchosen : Chosen types members) (htwo : 2 ≤ members.length) {t : LuaType} (ht : t ∈ types) :
    fromVecStructural h (absorbAll (LuaUnionType.fromVec h members).intoVec [t]) =
      built h (keep LuaType.eq members t) := by
  have hcan := hchosen.canonicalUnion (h := h) hlist htwo
  have hunordered := hchosen.unordered hlist
  have hperm := (intoVec_fromVec (h := h) hchosen.apart).1
  have heq_iff : ∀ m, m.eq t = true ↔ t = m := by
    intro m
    rw [(lawfulAt m).symm]
    exact (hlist.definite t ht).eq_iff m
  have hnone : ∀ m ∈ (LuaUnionType.fromVec h members).intoVec, m.eq t = false →
      tryCollapse m m t = none := by
    intro m hm hne
    apply hlist.none m (hchosen.subset m (hperm.mem_iff.1 hm)) t ht
    rintro rfl
    rw [(heq_iff m).2 rfl] at hne
    cases hne
  have htwo' : ∀ l : List LuaType, 2 ≤ l.length → built h l = .Union (.fromVec h l) := by
    intro l hl
    match l, hl with
    | _ :: _ :: _, _ => rfl
  have hkept := hchosen.keep ht
  unfold GluaLs.Lib.keep at hkept ⊢
  split
  · rename_i hcontains
    obtain ⟨m, hm, heq⟩ := List.any_eq_true.1 hcontains
    have hmem : t ∈ members := (heq_iff m).1 heq ▸ hm
    rw [absorbAll_member (hperm.mem_iff.2 hmem) ((heq_iff t).2 rfl) hcan.apart hnone,
      hcan.build, htwo' members htwo]
  · rename_i hnew
    rw [if_neg hnew] at hkept
    have hne : ∀ m ∈ (LuaUnionType.fromVec h members).intoVec, m.eq t = false := by
      intro m hm
      rw [← Bool.not_eq_true]
      exact fun heq => hnew (List.any_eq_true.2 ⟨m, hperm.mem_iff.1 hm, heq⟩)
    have hperm' := hperm.append_right [t]
    have hlength : 2 ≤ (members ++ [t]).length := by
      rw [List.length_append]
      omega
    rw [absorbAll_new hne hnone, htwo' _ hlength,
      fromVecStructural_plain _ (by rw [hperm'.length_eq]; exact hlength)]
    · congr 1
      apply fromVec_congr (hkept.unordered hlist) hlength hperm'
      exact (sameRuns_intoVec_fromVec hunordered htwo).append (.refl [t])
    · exact fun m hm => (hlist.plain m (hkept.subset m (hperm'.mem_iff.1 hm))).1
    · exact pairwise_perm hperm' hkept.apart

/-- **One step of the fold keeps what is built of the members so far.** -/
theorem unionType_built (hlist : StructuralList db types)
    (hchosen : Chosen types members) {t : LuaType} (ht : t ∈ types) :
    unionType h db (built h members) t = built h (keep LuaType.eq members t) := by
  have htany := hlist.any t ht
  match members, hchosen with
  | [], _ =>
    show unionTypeImpl h .Never .Never t = t
    rw [unionTypeImpl_eq .Never t rfl htany]
    rfl
  | [s], hchosen =>
    have hs := hchosen.subset s (.head _)
    have heq_iff := (hlist.definite s hs).eq_iff t
    show unionType h db s t = _
    unfold unionType
    rw [getRealType_getD db s (hlist.noAlias s hs), unionTypeImpl_eq s t (hlist.any s hs) htany]
    unfold GluaLs.Lib.keep
    cases heq : s.eq t with
    | true =>
      have hst := heq_iff.1 heq
      subst hst
      simp only [List.any_cons, heq, Bool.true_or, if_true, tryCollapse_of_eq s s heq]
      rfl
    | false =>
      have hne : s ≠ t := fun hst => by
        rw [heq_iff.2 hst] at heq
        cases heq
      have hapart : [s, t].Pairwise fun a b => a.eq b = false := by
        simpa using heq
      simp only [List.any_cons, List.any_nil, heq, Bool.or_false, hlist.none s hs t ht hne,
        joinMembers_atoms s t (hlist.plain s hs) (hlist.plain t ht)]
      rw [fromVecStructural_plain [s, t] (by simp) _ hapart]
      · rfl
      · intro m hm
        simp only [List.mem_cons, List.not_mem_nil, or_false] at hm
        obtain rfl | rfl := hm
        · exact (hlist.plain m hs).1
        · exact (hlist.plain m ht).1
  | a :: b :: rest, hchosen =>
    have htwo : 2 ≤ (a :: b :: rest).length := by simp
    generalize a :: b :: rest = members at hchosen htwo ⊢
    have hbuilt : built h members = .Union (.fromVec h members) := by
      match members, htwo with
      | _ :: _ :: _, _ => rfl
    have hcan := hchosen.canonicalUnion (h := h) hlist htwo
    have hgeneral := fromVecStructural_absorbAll (h := h) hlist hchosen htwo ht
    rw [hbuilt]
    unfold unionType
    rw [getRealType_getD db _ rfl, unionTypeImpl_eq _ t rfl htany,
      tryCollapse_union_left _ t (hlist.plain t ht).1 (hlist.never t ht),
      joinMembers_union_atom _ t (hlist.plain t ht)]
    cases hinsert : unionSortedInsert h (.fromVec h members) (.Union (.fromVec h members)) t with
    | none => exact hgeneral
    | some r =>
      obtain hr | ⟨_, hr, hunion⟩ :=
        unionSortedInsert_eq hcan (hlist.plain t ht).1 (hlist.definite t ht) hinsert
      · exact hr.trans hgeneral
      · exact (hr.trans hunion.symm).trans hgeneral

end

/-- **The whole fold** builds the first occurrences of the list. -/
theorem foldl_unionType_built (hlist : StructuralList db types) (rest : List LuaType) :
    ∀ members, Chosen types members → (∀ t ∈ rest, t ∈ types) →
      rest.foldl (unionType h db) (built h members) =
        built h (rest.foldl (keep LuaType.eq) members) := by
  induction rest with
  | nil => exact fun _ _ _ => rfl
  | cons t rest ih =>
    intro members hchosen hrest
    have ht := hrest t (.head _)
    rw [List.foldl_cons, List.foldl_cons, unionType_built hlist hchosen ht]
    exact ih _ (hchosen.keep ht) (List.forall_mem_cons.1 hrest).2

theorem foldUnionType_structural (htwo : 2 ≤ types.length) (hlist : StructuralList db types) :
    foldUnionType h db types = fromVecStructural h types := by
  have hfold := foldl_unionType_built (h := h) hlist types []
    ⟨nofun, .nil⟩ fun t ht => ht
  have hsame : Same types := fun s hs t _ heq => ((hlist.definite s hs).eq_iff t).1 heq
  rw [foldl_keep_eq types fun t _ => lawfulAt t] at hfold
  rw [fromVecStructural_two types htwo,
    flatMap_spliced_eq_self types fun t ht => (hlist.plain t ht).1,
    foldl_pushDedup_eq types fun _ => hsame]
  refine hfold.trans ?_
  match types, htwo with
  | _ :: _ :: _, _ => rfl

theorem unionAll_eq (db : DbIndex) (types : List LuaType) (hdefinite : ∀ t ∈ types, Definite t) :
    unionAll h db types = foldUnionType h db types := by
  match types, hdefinite with
  | [], _ => rfl
  | [t], _ =>
    exact (unionTypeImpl_never_left (h := h) t).symm
  | a :: b :: rest, hdefinite =>
    show (if canUseDbAwareStructuralUnion h db (a :: b :: rest) then _ else _) = _
    split
    · rename_i hcan
      exact (foldUnionType_structural (by simp) (structuralList hdefinite hcan)).symm
    · rfl

/-- **The short ways give what the long ways give.**  `union_all` is the ordered fold, and
the sorted insert is the general arm for the union itself; for another source, an alias of
the union, it may hand the source back where the general arm gives the union. -/
theorem unionAll_sortedInsert_exact (h : Hashing) :
    (∀ (db : DbIndex) (types : List LuaType), (∀ t ∈ types, Definite t) →
      unionAll h db types = types.foldl (unionType h db) .Never) ∧
    ∀ (left : LuaUnionType) (source right r : LuaType), right.isUnion = false →
      Definite (.Union left) → Definite right →
      fromVecStructural h left.intoVec = .Union left →
      unionSortedInsert h left source right = some r →
        (source = .Union left → r = fromVecStructural h (absorbAll left.intoVec [right])) ∧
          (r = fromVecStructural h (absorbAll left.intoVec [right]) ∨
            containsType left.intoVec right = true ∧ r = source ∧
              fromVecStructural h (absorbAll left.intoVec [right]) = .Union left) := by
  refine ⟨fun db types hdefinite => unionAll_eq db types hdefinite, ?_⟩
  intro left source right r hright hleft hdefinite hcan hinsert
  have hcanonical := canonicalUnion_of_structural left hleft hcan
  have hanswer := unionSortedInsert_eq hcanonical hright hdefinite hinsert
  refine ⟨?_, hanswer⟩
  rintro rfl
  obtain hr | ⟨_, hr, hunion⟩ := hanswer
  · exact hr
  · rw [hr, hunion]

/-- `boolean|number|string`. -/
def threeTypes : LuaUnionType := .Multi [.Boolean, .Number, .String]

theorem definite_threeTypes : Definite (.Union threeTypes) := by
  apply Definite.of_parts (fun _ heq => by cases heq)
  intro s hs
  have hs : s ∈ [LuaType.Boolean, .Number, .String] := hs
  simp only [List.mem_cons, List.not_mem_nil, or_false] at hs
  obtain rfl | rfl | rfl := hs <;> exact Definite.of_parts nofun nofun

theorem unionAll_sortedInsert_exact_threeTypes :
    unionAll plainHashing noDecls [.Number, .Boolean, .Number] =
        [LuaType.Number, .Boolean, .Number].foldl (unionType plainHashing noDecls) .Never ∧
      LuaType.Union (.Multi [.Nil, .Boolean, .Number, .String]) =
        fromVecStructural plainHashing (absorbAll threeTypes.intoVec [.Nil]) := by
  obtain ⟨hfold, hinsert⟩ := unionAll_sortedInsert_exact plainHashing
  refine ⟨hfold noDecls _ ?_, ?_⟩
  · intro t ht
    simp only [List.mem_cons, List.not_mem_nil, or_false] at ht
    obtain rfl | rfl | rfl := ht <;> exact Definite.of_parts nofun nofun
  · exact (hinsert threeTypes (.Union threeTypes) .Nil _ rfl definite_threeTypes
      (Definite.of_parts nofun nofun) rfl rfl).1 rfl

/-- `A` is an alias of `boolean|number|string`. -/
def aliasOfThree : DbIndex
  | .Global "A" => some ⟨true, some (.Union threeTypes)⟩
  | _ => none

/-- **An alias that holds the member is handed back**, where the general arm gives the union
that it stands for. -/
theorem unionSortedInsert_alias :
    fromVecStructural plainHashing threeTypes.intoVec = .Union threeTypes ∧
      getRealType aliasOfThree 10 (.Ref (.Global "A")) = some (.Union threeTypes) ∧
      unionSortedInsert plainHashing threeTypes (.Ref (.Global "A")) .String =
        some (.Ref (.Global "A")) ∧
      unionType plainHashing aliasOfThree (.Ref (.Global "A")) .String = .Ref (.Global "A") ∧
      fromVecStructural plainHashing (absorbAll threeTypes.intoVec [.String]) =
        .Union threeTypes ∧
      LuaType.Union threeTypes ≠ .Ref (.Global "A") :=
  ⟨rfl, rfl, rfl, rfl, rfl, nofun⟩

end LuaType

end GluaLs.Types
