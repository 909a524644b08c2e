/-
  GluaLs.Types.AbsorbOrder — where absorbing puts a member, and what order is left of it.

  A type that nothing collapses with goes to the end (`absorb_new`); one that is there
  already stays where it is (`absorb_member`).  A union of members whose order carries no
  meaning is sorted by a stable sort, so that of the order of its members only the RUNS of
  one sort key are left (`fromVec_congr`), and the members of a union have the runs of the
  list it was built from (`sameRuns_intoVec_fromVec`).
-/
import GluaLs.Lib.Related
import GluaLs.Lib.StableSort
import GluaLs.Types.UnionReduce

namespace GluaLs.Types

open GluaLs.Lib

namespace LuaType

variable {h : Hashing}

/-! ## §1. The slot of a member -/

/-- The first member that collapses with a type is that type, behind members that do not. -/
theorem findCollapse_member (candidates : Nat) (t : LuaType) (front back : List LuaType)
    (hbit : candidates &&& t.ordinalBit ≠ 0) (hself : tryCollapse t t t = some t)
    (hfront : ∀ m ∈ front, tryCollapse m m t = none) :
    findCollapse candidates t (front ++ t :: back) = some (front.length, t) := by
  induction front with
  | nil => simp [findCollapse, hbit, hself]
  | cons m front ih =>
    have hrest := ih (List.forall_mem_cons.1 hfront).2
    simp [findCollapse, hfront m List.mem_cons_self, hrest]

/-- The type's own discriminant is among the candidates and, where a member has it, in the
mask. -/
theorem candidates_own (t : LuaType) (present : Nat)
    (hseen : present.testBit t.sortOrdinal = true) :
    collapseCandidateMask t &&& t.ordinalBit ≠ 0 ∧ collapseCandidateMask t &&& present ≠ 0 := by
  have hown : (collapseCandidateMask t).testBit t.sortOrdinal = true := by
    rw [testBit_collapseCandidateMask]
    simp
  have hne : ∀ mask : Nat, mask.testBit t.sortOrdinal = true →
      collapseCandidateMask t &&& mask ≠ 0 := by
    intro mask hmask hzero
    have hbit := congrArg (Nat.testBit · t.sortOrdinal) hzero
    simp [hown, hmask] at hbit
  refine ⟨hne _ ?_, hne _ hseen⟩
  rw [testBit_ordinalBit]
  simp

/-- **What is there already stays where it is.** -/
theorem absorb_member (front back : List LuaType) (present : Nat) (t : LuaType)
    (hseen : present.testBit t.sortOrdinal = true) (hself : tryCollapse t t t = some t)
    (hfront : ∀ m ∈ front, tryCollapse m m t = none)
    (hback : ∀ m ∈ back, tryCollapse m m t = none) :
    absorb (front ++ t :: back) present t = (front ++ t :: back, present ||| t.ordinalBit) := by
  obtain ⟨hbit, hmask⟩ := candidates_own t present hseen
  have hloop : absorbLoop present (front ++ t :: back).length (front ++ t :: back)
      (front ++ t :: back).length t = (front ++ back, front.length, t) := by
    have hlength : (front ++ t :: back).length = (front ++ back).length + 1 := by
      simp only [List.length_append, List.length_cons]
      omega
    rw [hlength]
    unfold absorbLoop
    rw [if_neg hmask, findCollapse_member _ t front back hbit hself hfront]
    simp only [List.eraseIdx_append_of_length_le le_rfl, Nat.sub_self,
      List.eraseIdx_cons_zero]
    rw [absorbLoop_none present _ (front ++ back) _ t]
    · congr 2
      rw [List.length_append]
      omega
    · intro m hm
      exact (List.mem_append.1 hm).elim (hfront m) (hback m)
  unfold absorb
  rw [hloop]
  have hmin : min front.length (front ++ back).length = front.length := by
    rw [List.length_append]
    omega
  simp only [hmin, Lib.insertIdx_length]

theorem absorbAll_one (members : List LuaType) (t : LuaType) :
    absorbAll members [t] = (absorb members (ordinalMask members) t).1 := rfl

/-- A member that is there is absorbed where it stands. -/
theorem absorbAll_member {members : List LuaType} {right : LuaType} (hmem : right ∈ members)
    (hself : right.eq right = true) (hapart : members.Pairwise fun a b => a.eq b = false)
    (hnone : ∀ m ∈ members, m.eq right = false → tryCollapse m m right = none) :
    absorbAll members [right] = members := by
  obtain ⟨front, back, rfl⟩ := List.append_of_mem hmem
  obtain ⟨-, hback, hcross⟩ := List.pairwise_append.1 hapart
  have hseen := maskOk_ordinalMask (front ++ right :: back) right hmem
  rw [absorbAll_one, absorb_member front back _ right hseen (tryCollapse_of_eq right right hself)]
  · intro m hm
    exact hnone m (List.mem_append_left _ hm) (hcross m hm right (.head _))
  · intro m hm
    have hne := (List.pairwise_cons.1 hback).1 m hm
    rw [(lawfulAt right).symm] at hne
    exact hnone m (List.mem_append_right _ (.tail _ hm)) hne

/-! ## §2. The order of a union -/

theorem sortOrdinal_eq_zero_iff (t : LuaType) : t.sortOrdinal = 0 ↔ t.isNil = true := by
  cases t <;> simp [sortOrdinal, isNil]

theorem eq_nil_of_isNil (t : LuaType) (hnil : t.isNil = true) : t = .Nil := by
  cases t <;> first | rfl | cases hnil

theorem eq_nil (t : LuaType) : t.eq .Nil = t.isNil := by
  cases t <;> rfl

/-- Nothing else sorts with `nil`. -/
theorem sortKey_nil_ne (t : LuaType) (hnil : t.isNil = false) :
    t.sortKey h ≠ LuaType.Nil.sortKey h := by
  intro heq
  have hordinal : t.sortOrdinal = LuaType.Nil.sortOrdinal :=
    congrArg (fun key : LuaTypeSortKey => (ofLex key).1) heq
  rw [(sortOrdinal_eq_zero_iff t).1 hordinal] at hnil
  cases hnil

/-- `T|nil` is stored with `nil` behind, which no run shows. -/
theorem sameRuns_intoVec_fromNormalizedVec (types : List LuaType) :
    SameRuns (sortKey h) (LuaUnionType.fromNormalizedVec types).intoVec types := by
  unfold LuaUnionType.fromNormalizedVec
  split
  · rename_i hnull
    obtain ⟨hlength, hcontains⟩ := hnull
    match types, hlength with
    | [a, b], _ =>
      cases ha : a.isNil with
      | true =>
        have hane := eq_nil_of_isNil a ha
        subst hane
        cases hb : b.isNil with
        | true =>
          simp only [List.find?_cons, ha, hb, Bool.not_true, List.find?_nil]
          exact .refl _
        | false =>
          simp only [List.find?_cons, ha, hb, Bool.not_true, Bool.not_false]
          exact SameRuns.swap b .Nil (sortKey_nil_ne b hb)
      | false =>
        have hb : b = .Nil := by
          simp only [containsType, List.any_cons, List.any_nil, eq_nil, ha, Bool.false_or,
            Bool.or_false] at hcontains
          exact eq_nil_of_isNil b hcontains
        subst hb
        simp only [List.find?_cons, ha, Bool.not_false]
        exact .refl _
  · exact .refl _

/-- The union of two members. -/
theorem fromNormalizedVec_two (a b : LuaType) (hab : a.eq b = false) :
    LuaUnionType.fromNormalizedVec [a, b] =
      if a.isNil then .Nullable b else if b.isNil then .Nullable a else .Multi [a, b] := by
  apply LuaType.Union.inj
  rw [fromNormalizedVec_ofMembers [a, b] (by simp) (by simpa using hab)]
  show (if a.isNil then LuaType.Union (.Nullable b)
    else if b.isNil then .Union (.Nullable a) else .Union (.Multi [a, b])) = _
  split
  · rfl
  · split <;> rfl

theorem fromNormalizedVec_long (members : List LuaType) (hlength : members.length ≠ 2) :
    LuaUnionType.fromNormalizedVec members = .Multi members := by
  unfold LuaUnionType.fromNormalizedVec
  rw [if_neg fun hboth => hlength hboth.1]

/-- Members whose order carries no meaning, none equal to another. -/
structure Unordered (members : List LuaType) : Prop where
  insensitive : members.all isOrderInsensitiveMember = true
  apart : members.Pairwise fun a b => a.eq b = false

theorem Unordered.perm {members l : List LuaType} (hmembers : Unordered members)
    (hperm : l.Perm members) : Unordered l := by
  refine ⟨?_, pairwise_perm hperm hmembers.apart⟩
  rw [List.all_eq_true] at *
  exact fun m hm => List.all_eq_true.1 hmembers.insensitive m (hperm.mem_iff.1 hm)

/-- A union of such members is the sorted list of them. -/
theorem fromVec_unordered {members : List LuaType} (hmembers : Unordered members)
    (htwo : 2 ≤ members.length) :
    LuaUnionType.fromVec h members = .fromNormalizedVec (sortTypes h members) := by
  unfold LuaUnionType.fromVec
  rw [if_pos ⟨htwo, hmembers.insensitive⟩,
    dedupTypes_eq_self _ (pairwise_perm (sortTypes_perm members) hmembers.apart)]

theorem sameRuns_sortTypes (types : List LuaType) :
    SameRuns (sortKey h) (sortTypes h types) types :=
  sameRuns_insertionSort types

theorem sameRuns_intoVec_fromVec {members : List LuaType} (hmembers : Unordered members)
    (htwo : 2 ≤ members.length) :
    SameRuns (sortKey h) (LuaUnionType.fromVec h members).intoVec members := by
  rw [fromVec_unordered hmembers htwo]
  exact (sameRuns_intoVec_fromNormalizedVec _).trans (sameRuns_sortTypes members)

/-- **A union of such members depends on their runs only.** -/
theorem fromVec_congr {members members' : List LuaType} (hmembers : Unordered members)
    (htwo : 2 ≤ members.length) (hperm : members'.Perm members)
    (hruns : SameRuns (sortKey h) members' members) :
    LuaUnionType.fromVec h members' = .fromVec h members := by
  rw [fromVec_unordered hmembers htwo,
    fromVec_unordered (hmembers.perm hperm) (by rw [hperm.length_eq]; exact htwo)]
  exact congrArg LuaUnionType.fromNormalizedVec hruns.insertionSort_eq

/-! ## §3. How much there is in a list

  `fromVecStructural h u.intoVec = .Union u` says that the members of the union, built
  again, are the union.  The structural constructor splices the unions among the types it
  is given, so none of the members is one (they would come out smaller); it drops equal
  types, so the members are distinct; and it sorts.
-/

/-- The sizes of the types, added up. -/
noncomputable def weight (types : List LuaType) : Nat := (types.map sizeOf).sum

theorem weight_cons (t : LuaType) (types : List LuaType) :
    weight (t :: types) = sizeOf t + weight types := by
  simp [weight]

theorem weight_append (types types' : List LuaType) :
    weight (types ++ types') = weight types + weight types' := by
  simp [weight]

theorem weight_perm {types types' : List LuaType} (hperm : types.Perm types') :
    weight types = weight types' :=
  (hperm.map sizeOf).sum_nat

theorem weight_le_sizeOf (types : List LuaType) : weight types ≤ sizeOf types := by
  induction types with
  | nil => exact Nat.zero_le _
  | cons t types ih =>
    rw [weight_cons, List.cons.sizeOf_spec]
    omega

/-- A union is larger than its members together. -/
theorem weight_intoVec_lt (u : LuaUnionType) : weight u.intoVec < sizeOf (LuaType.Union u) := by
  cases u with
  | Nullable t =>
    show weight [t, .Nil] < _
    simp only [weight, List.map_cons, List.map_nil, List.sum_cons, List.sum_nil,
      LuaType.Nil.sizeOf_spec, LuaType.Union.sizeOf_spec, LuaUnionType.Nullable.sizeOf_spec]
    omega
  | Multi types =>
    have hle := weight_le_sizeOf types
    show weight types < _
    simp only [LuaType.Union.sizeOf_spec, LuaUnionType.Multi.sizeOf_spec]
    omega

theorem weight_spliced (t : LuaType) :
    weight t.spliced ≤ sizeOf t ∧ (t.isUnion = true → weight t.spliced < sizeOf t) := by
  cases hunion : t.isUnion with
  | true =>
    cases t with
    | Union u =>
      have hlt := weight_intoVec_lt u
      exact ⟨Nat.le_of_lt hlt, fun _ => hlt⟩
    | _ => cases hunion
  | false =>
    rw [spliced_eq_self t hunion]
    exact ⟨by simp [weight], fun htrue => by cases htrue⟩

/-- Splicing the unions of a list makes less of it. -/
theorem weight_flatMap_spliced (types : List LuaType) :
    weight (types.flatMap spliced) ≤ weight types ∧
      ((∃ t ∈ types, t.isUnion = true) → weight (types.flatMap spliced) < weight types) := by
  induction types with
  | nil => exact ⟨le_rfl, fun ⟨t, ht, _⟩ => nomatch ht⟩
  | cons t types ih =>
    obtain ⟨hle, hlt⟩ := ih
    obtain ⟨hle', hlt'⟩ := weight_spliced t
    rw [List.flatMap_cons, weight_append, weight_cons]
    refine ⟨by omega, ?_⟩
    rintro ⟨s, hs, hunion⟩
    obtain rfl | hs := List.mem_cons.1 hs
    · have hless := hlt' hunion
      omega
    · have hless := hlt ⟨s, hs, hunion⟩
      omega

theorem weight_firstOccurrencesAfter_le (types : List LuaType) : ∀ earlier : List LuaType,
    weight (firstOccurrencesAfter LuaType.eq earlier types) ≤ weight types := by
  induction types with
  | nil => exact fun _ => le_rfl
  | cons t types ih =>
    intro earlier
    have hle := ih (earlier ++ [t])
    unfold firstOccurrencesAfter
    split
    · rw [weight_cons]
      omega
    · rw [weight_cons, weight_cons]
      omega

/-! ## §4. Canonical unions -/

/-- What a union looks like that its members are built to. -/
structure CanonicalUnion (h : Hashing) (u : LuaUnionType) : Prop where
  two : 2 ≤ u.intoVec.length
  plain : ∀ m ∈ u.intoVec, m.isUnion = false
  apart : u.intoVec.Pairwise fun a b => a.eq b = false
  fromVec : LuaUnionType.fromVec h u.intoVec = u

theorem Definite.of_mem_intoVec {u : LuaUnionType} (hu : Definite (.Union u)) {m : LuaType}
    (hm : m ∈ u.intoVec) : Definite m := by
  cases u with
  | Nullable t =>
    rcases List.mem_cons.1 hm with hm | hm
    · exact hm ▸ hu.part (s := t) (.head _)
    · rw [List.mem_singleton.1 hm]
      exact Definite.of_parts nofun nofun
  | Multi types => exact hu.part (s := m) hm

theorem Definite.of_mem_spliced {t : LuaType} (ht : Definite t) {m : LuaType} (hm : m ∈ t.spliced) :
    Definite m := by
  cases t with
  | Union u => exact ht.of_mem_intoVec hm
  | _ => exact List.mem_singleton.1 hm ▸ ht

theorem ofMembers_eq_union (members : List LuaType) (u : LuaUnionType)
    (heq : ofMembers members = .Union u) : members = [.Union u] ∨ members.Perm u.intoVec := by
  match members with
  | [] => cases heq
  | [t] => exact .inl (congrArg (fun t => [t]) heq)
  | [a, b] =>
    right
    have heq : (if a.isNil then LuaType.Union (.Nullable b)
        else if b.isNil then .Union (.Nullable a)
        else .Union (.Multi [a, b])) = .Union u := heq
    split at heq
    · rename_i ha
      cases heq
      rw [eq_nil_of_isNil a ha]
      exact .swap _ _ _
    · split at heq
      · rename_i hb
        cases heq
        rw [eq_nil_of_isNil b hb]
        exact .refl _
      · cases heq
        exact .refl _
  | a :: b :: c :: rest =>
    right
    cases heq
    exact .refl _

theorem inUnionOrder_perm (members : List LuaType) : (inUnionOrder h members).Perm members := by
  unfold inUnionOrder
  split
  · exact sortTypes_perm members
  · exact .refl _

/-- **The members of a union that they are built to**: two or more, no unions, distinct. -/
theorem canonicalUnion_of_structural (u : LuaUnionType) (hdefinite : Definite (.Union u))
    (hcan : fromVecStructural h u.intoVec = .Union u) : CanonicalUnion h u := by
  have hlt := weight_intoVec_lt u
  have htwo : 2 ≤ u.intoVec.length := by
    match htypes : u.intoVec with
    | [] =>
      rw [htypes] at hcan
      cases hcan
    | [t] =>
      rw [htypes] at hcan hlt
      have ht : t = .Union u := hcan
      rw [ht, weight_cons] at hlt
      omega
    | a :: b :: rest => simp
  have hsame : Same (u.intoVec.flatMap spliced) := by
    intro s hs t _ heq
    obtain ⟨m, hm, hs⟩ := List.mem_flatMap.1 hs
    exact (((hdefinite.of_mem_intoVec hm).of_mem_spliced hs).eq_iff t).1 heq
  have hbuilt : ofMembers (inUnionOrder h (flatMembers u.intoVec)) = .Union u := by
    rw [← hcan, fromVecStructural_two _ htwo, foldl_pushDedup_eq _ fun _ => hsame]
    exact (ofResultTypes_eq _ (pairwise_firstOccurrencesAfter _ _)).symm
  have hflat : weight (flatMembers u.intoVec) ≤ weight (u.intoVec.flatMap spliced) :=
    weight_firstOccurrencesAfter_le _ _
  obtain ⟨hle, hless⟩ := weight_flatMap_spliced u.intoVec
  have horder := inUnionOrder_perm (h := h) (flatMembers u.intoVec)
  obtain hone | hperm := ofMembers_eq_union _ u hbuilt
  · have hweight := weight_perm horder
    rw [hone, weight_cons] at hweight
    omega
  · have hperm' : u.intoVec.Perm (flatMembers u.intoVec) := hperm.symm.trans horder
    have hplain : ∀ m ∈ u.intoVec, m.isUnion = false := by
      intro m hm
      cases hunion : m.isUnion with
      | false => rfl
      | true =>
        have hlt' := hless ⟨m, hm, hunion⟩
        have hweight := weight_perm hperm'
        omega
    have hapart : u.intoVec.Pairwise fun a b => a.eq b = false :=
      pairwise_perm hperm' (pairwise_firstOccurrencesAfter _ _)
    rw [fromVecStructural_plain _ htwo hplain hapart] at hcan
    exact ⟨htwo, hplain, hapart, LuaType.Union.inj hcan⟩

end LuaType

end GluaLs.Types
