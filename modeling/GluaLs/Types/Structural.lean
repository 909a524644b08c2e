/-
  GluaLs.Types.Structural — what the structural constructor comes to.

  `fromVecStructural` looks for an equal member by a scan, and by a hash set once there are
  more than eight.  Either way the members are the first occurrences of the flattened list:

    • the scan keeps what none of the kept ones is equal to (`keep`),
    • the hash set holds the members, and finds an equal one (`pushDedup_keep`), as long as
      the types it is asked for are not equal without being the same.

  Types that are equal without being the same hold zeros of different signs, and hash
  differently; whether the set finds one by the other is not said.
-/
import GluaLs.Types.Equality
import GluaLs.Types.UnionMeaning

namespace GluaLs.Types

open GluaLs.Lib LuaType

namespace LuaType

variable {h : Hashing}

/-! ## §1. What is to be built -/

/-- The members in the order of the union: sorted where their order carries no meaning. -/
def inUnionOrder (h : Hashing) (members : List LuaType) : List LuaType :=
  if members.all isOrderInsensitiveMember then sortTypes h members else members

/-- The type of some members: `nil` for none, the only one, `T|nil`, or a union. -/
def ofMembers : List LuaType → LuaType
  | [] => .Nil
  | [t] => t
  | [a, b] =>
    if a.isNil then .Union (.Nullable b)
    else if b.isNil then .Union (.Nullable a)
    else .Union (.Multi [a, b])
  | members => .Union (.Multi members)

/-- The first occurrences of a list that is flattened one union level. -/
def flatMembers (types : List LuaType) : List LuaType :=
  firstOccurrences LuaType.eq (types.flatMap spliced)

/-! ## §2. The scan -/

theorem length_le_foldl_keep (types : List LuaType) : ∀ kept : List LuaType,
    kept.length ≤ (types.foldl (keep eq) kept).length := by
  induction types with
  | nil => exact fun _ => le_rfl
  | cons t types ih =>
    intro kept
    refine Nat.le_trans ?_ (ih (keep eq kept t))
    unfold keep
    split
    · exact le_rfl
    · simp

/-- Up to eight members there is no hash set. -/
theorem foldl_pushDedup_scan (types : List LuaType) : ∀ kept : List LuaType,
    (types.foldl (keep eq) kept).length ≤ linearDedupLimit →
      types.foldl (pushDedup h) (kept, none) = (types.foldl (keep eq) kept, none) := by
  induction types with
  | nil => exact fun _ _ => rfl
  | cons t types ih =>
    intro kept hlength
    have hpush : pushDedup h (kept, none) t = (keep eq kept t, none) := by
      have hle := Nat.le_trans (length_le_foldl_keep types (keep eq kept t)) hlength
      unfold pushDedup keep at *
      simp only [containsType]
      split
      · rfl
      · rename_i hnew
        rw [if_neg hnew, List.length_append, List.length_singleton] at hle
        rw [if_neg (by omega)]
    rw [List.foldl_cons, hpush]
    exact ih _ hlength

/-! ## §3. The hash set -/

/-- Equal types of the list are the same. -/
def Same (types : List LuaType) : Prop :=
  ∀ s ∈ types, ∀ t ∈ types, s.eq t = true → s = t

/-- What the kept members and the hash set are before every type. -/
structure Kept (M : List LuaType) (acc : Dedup) : Prop where
  subset : ∀ m ∈ acc.1, m ∈ M
  apart : acc.1.Pairwise fun a b => a.eq b = false
  keys : ∀ keys, acc.2 = some keys → ∀ m, m ∈ keys ↔ m ∈ acc.1

variable {M : List LuaType}

/-- The hash set answers as the scan would. -/
theorem contains_eq_containsType (hsame : Same M) {members keys : List LuaType}
    (hmembers : ∀ m ∈ members, m ∈ M) (hkeys : ∀ m, m ∈ keys ↔ m ∈ members) {t : LuaType}
    (ht : t ∈ M) : h.set.contains keys t = containsType members t := by
  rw [Bool.eq_iff_iff]
  constructor
  · intro hcontains
    obtain ⟨s, hs, heq⟩ := h.set.eq_of_contains keys t hcontains
    exact List.any_eq_true.2 ⟨s, (hkeys s).1 hs, heq⟩
  · intro hcontains
    obtain ⟨s, hs, heq⟩ := List.any_eq_true.1 hcontains
    have hst := hsame s (hmembers s hs) t ht heq
    subst hst
    exact h.set.contains_of_mem keys s ((hkeys s).2 hs) heq

/-- The scan hands all its members to the hash set. -/
theorem mem_seeded (members : List LuaType) (hapart : members.Pairwise fun a b => a.eq b = false)
    (m : LuaType) :
    m ∈ members.foldl (fun keys existing => (hashInsert h keys existing).2) [] ↔
      m ∈ members := by
  have hall : ∀ (rest keys : List LuaType), (keys ++ rest).Pairwise (fun a b => a.eq b = false) →
      rest.foldl (fun keys existing => (hashInsert h keys existing).2) keys = keys ++ rest := by
    intro rest
    induction rest with
    | nil => simp
    | cons t rest ih =>
      intro keys hpairwise
      have hnew : h.set.contains keys t = false := by
        rw [← Bool.not_eq_true]
        intro hcontains
        obtain ⟨s, hs, heq⟩ := h.set.eq_of_contains keys t hcontains
        rw [(List.pairwise_append.1 hpairwise).2.2 s hs t List.mem_cons_self] at heq
        cases heq
      have hinsert : (hashInsert h keys t).2 = keys ++ [t] := by
        unfold hashInsert
        rw [hnew]
        rfl
      rw [List.foldl_cons, hinsert, ih _ (by simpa using hpairwise)]
      simp
  rw [hall members [] hapart, List.nil_append]

theorem Kept.keep {acc : Dedup} (hacc : Kept M acc) {t : LuaType} (ht : t ∈ M)
    {keys : Option (List LuaType)}
    (hkeys : ∀ ks, keys = some ks → ∀ m, m ∈ ks ↔ m ∈ keep eq acc.1 t) :
    Kept M (keep eq acc.1 t, keys) := by
  refine ⟨?_, ?_, hkeys⟩
  · intro m hm
    unfold GluaLs.Lib.keep at hm
    split at hm
    · exact hacc.subset m hm
    · rcases List.mem_append.1 hm with hm | hm
      · exact hacc.subset m hm
      · rwa [List.mem_singleton.1 hm]
  · show (GluaLs.Lib.keep eq acc.1 t).Pairwise _
    unfold GluaLs.Lib.keep
    split
    · exact hacc.apart
    · rename_i hnone
      refine List.pairwise_append.2 ⟨hacc.apart, List.pairwise_singleton _ _, ?_⟩
      intro a ha b hb
      rw [List.mem_singleton.1 hb, ← Bool.not_eq_true]
      exact fun heq => hnone (List.any_eq_true.2 ⟨a, ha, heq⟩)

/-- A type that is looked up in the hash set. -/
theorem hashInsert_keep (hsame : Same M) {members keys : List LuaType}
    (hmembers : ∀ m ∈ members, m ∈ M) (hkeys : ∀ m, m ∈ keys ↔ m ∈ members) {t : LuaType}
    (ht : t ∈ M) :
    (if (hashInsert h keys t).1 then members ++ [t] else members) =
        GluaLs.Lib.keep eq members t ∧
      ∀ m, m ∈ (hashInsert h keys t).2 ↔ m ∈ GluaLs.Lib.keep eq members t := by
  unfold hashInsert GluaLs.Lib.keep
  rw [contains_eq_containsType hsame hmembers hkeys ht]
  unfold containsType
  cases members.any fun s => s.eq t with
  | true => simp [hkeys]
  | false => simp [hkeys]

/-- **The hash set keeps what the scan keeps.** -/
theorem pushDedup_keep (hsame : Same M) {acc : Dedup} (hacc : Kept M acc) {t : LuaType}
    (ht : t ∈ M) :
    (pushDedup h acc t).1 = GluaLs.Lib.keep eq acc.1 t ∧
      Kept M (pushDedup h acc t) := by
  unfold pushDedup
  split
  · rename_i keys hset
    obtain ⟨hmembers, hkeys⟩ := hashInsert_keep (h := h) hsame hacc.subset (hacc.keys keys hset) ht
    refine ⟨hmembers, ?_⟩
    simp only [hmembers]
    refine hacc.keep ht ?_
    rintro _ ⟨⟩
    exact hkeys
  · rename_i hset
    split
    · rename_i hfound
      have hkeep : GluaLs.Lib.keep eq acc.1 t = acc.1 := if_pos hfound
      exact ⟨hkeep.symm, hacc⟩
    · rename_i hnew
      have hkeep : GluaLs.Lib.keep eq acc.1 t = acc.1 ++ [t] := if_neg hnew
      split
      · obtain ⟨hmembers, hkeys⟩ := hashInsert_keep (h := h) hsame hacc.subset
          (mem_seeded (h := h) acc.1 hacc.apart) ht
        refine ⟨hmembers, ?_⟩
        simp only [hmembers]
        refine hacc.keep ht ?_
        rintro _ ⟨⟩
        exact hkeys
      · refine ⟨hkeep.symm, ?_⟩
        rw [← hkeep]
        refine hacc.keep ht ?_
        rintro _ ⟨⟩

theorem foldl_pushDedup_keep (hsame : Same M) (types : List LuaType) (htypes : ∀ t ∈ types, t ∈ M) :
    ∀ acc : Dedup, Kept M acc →
      (types.foldl (pushDedup h) acc).1 = types.foldl (GluaLs.Lib.keep eq) acc.1 := by
  induction types with
  | nil => exact fun _ _ => rfl
  | cons t types ih =>
    intro acc hacc
    obtain ⟨hmembers, hkept⟩ := pushDedup_keep (h := h) hsame hacc (htypes t (.head _))
    rw [List.foldl_cons, List.foldl_cons, ih (List.forall_mem_cons.1 htypes).2 _ hkept, hmembers]

/-- **The members are the first occurrences**, with or without the hash set. -/
theorem foldl_pushDedup_eq (types : List LuaType)
    (hsame : linearDedupLimit < (firstOccurrences eq types).length → Same types) :
    (types.foldl (pushDedup h) ([], none)).1 = firstOccurrences eq types := by
  rw [← foldl_keep_eq types fun t _ => lawfulAt t] at *
  by_cases hlength : (types.foldl (GluaLs.Lib.keep eq) []).length ≤ linearDedupLimit
  · rw [foldl_pushDedup_scan types [] hlength]
  · refine foldl_pushDedup_keep (hsame (by omega)) types (fun _ ht => ht) _ ⟨?_, .nil, ?_⟩
    · exact nofun
    · rintro _ ⟨⟩

theorem same_of_apart {types : List LuaType} (hapart : types.Pairwise fun a b => a.eq b = false) :
    Same types := by
  intro s hs t ht heq
  by_contra hne
  have : Std.Symm fun a b : LuaType => a.eq b = false := ⟨fun a b hab => by rwa [(lawfulAt b).symm]⟩
  rw [hapart.forall hs ht hne] at heq
  cases heq

/-! ## §4. The union -/

/-- A list without equal members is its own `dedup`. -/
theorem dedupTypes_eq_self (types : List LuaType)
    (hne : types.Pairwise fun a b => a.eq b = false) : dedupTypes types = types :=
  List.destutter_of_isChain _ _ hne.isChain

/-- Members that are not equal to one another, in any order. -/
theorem pairwise_perm {members l : List LuaType} (hperm : l.Perm members)
    (hapart : members.Pairwise fun a b => a.eq b = false) :
    l.Pairwise fun a b => a.eq b = false := by
  refine (hperm.pairwise_iff ?_).2 hapart
  intro a b hab
  rwa [(lawfulAt b).symm]

/-- The nullable form of two members, and the list of any others. -/
theorem fromNormalizedVec_ofMembers (members : List LuaType) (htwo : 2 ≤ members.length)
    (hapart : members.Pairwise fun a b => a.eq b = false) :
    Union (.fromNormalizedVec members) = ofMembers members := by
  match members, htwo with
  | [a, b], _ =>
    have hab : ¬ (a.isNil = true ∧ b.isNil = true) := by
      rintro ⟨ha, hb⟩
      have hane : a = .Nil := by
        cases a <;> first | rfl | cases ha
      have hbne : b = .Nil := by
        cases b <;> first | rfl | cases hb
      have hne := (List.pairwise_cons.1 hapart).1 b (by simp)
      rw [hane, hbne] at hne
      cases hne
    have hnil : ∀ t : LuaType, eq t .Nil = t.isNil := by
      intro t
      cases t <;> rfl
    unfold LuaUnionType.fromNormalizedVec ofMembers
    simp only [containsType, List.any_cons, List.any_nil, hnil, Bool.or_false]
    cases ha : a.isNil with
    | true =>
      have hb : b.isNil = false := by
        rw [← Bool.not_eq_true]
        exact fun hb => hab ⟨ha, hb⟩
      simp [ha, hb]
    | false =>
      cases hb : b.isNil with
      | true => simp [ha]
      | false => simp
  | a :: b :: c :: rest, _ =>
    unfold LuaUnionType.fromNormalizedVec ofMembers
    rw [if_neg (by simp)]

theorem ofResultTypes_eq (members : List LuaType)
    (hapart : members.Pairwise fun a b => a.eq b = false) :
    ofResultTypes h members = ofMembers (inUnionOrder h members) := by
  have hsorted : (sortTypes h members).Perm members := sortTypes_perm members
  match members, hapart with
  | [], _ => rfl
  | [t], _ =>
    show t = ofMembers (inUnionOrder h [t])
    unfold inUnionOrder
    split <;> rfl
  | a :: b :: rest, hapart =>
    show Union (.fromVec h (a :: b :: rest)) = _
    unfold LuaUnionType.fromVec inUnionOrder
    by_cases hall : (a :: b :: rest).all isOrderInsensitiveMember = true
    · have hpairwise := pairwise_perm hsorted hapart
      rw [if_pos ⟨by simp, hall⟩, if_pos hall, dedupTypes_eq_self _ hpairwise]
      refine fromNormalizedVec_ofMembers _ ?_ hpairwise
      rw [hsorted.length_eq]
      simp
    · rw [if_neg fun hboth => hall hboth.2, if_neg hall]
      exact fromNormalizedVec_ofMembers _ (by simp) hapart

theorem spliced_eq_self (t : LuaType) (hplain : t.isUnion = false) : t.spliced = [t] := by
  cases t with
  | Union u => cases hplain
  | _ => rfl

theorem flatMap_spliced_eq_self (types : List LuaType) (hplain : ∀ t ∈ types, t.isUnion = false) :
    types.flatMap spliced = types := by
  induction types with
  | nil => rfl
  | cons t types ih =>
    rw [List.flatMap_cons, ih (List.forall_mem_cons.1 hplain).2,
      spliced_eq_self t (hplain t (.head _))]
    rfl

theorem fromVecStructural_two (types : List LuaType) (htwo : 2 ≤ types.length) :
    fromVecStructural h types =
      ofResultTypes h ((types.flatMap spliced).foldl (pushDedup h) ([], none)).1 := by
  match types, htwo with
  | _ :: _ :: _, _ => rfl

theorem ofResultTypes_two (members : List LuaType) (htwo : 2 ≤ members.length) :
    ofResultTypes h members = .Union (.fromVec h members) := by
  match members, htwo with
  | _ :: _ :: _, _ => rfl

/-- Members that are no unions and not equal to one another. -/
theorem fromVecStructural_plain (members : List LuaType) (htwo : 2 ≤ members.length)
    (hplain : ∀ m ∈ members, m.isUnion = false)
    (hapart : members.Pairwise fun a b => a.eq b = false) :
    fromVecStructural h members = .Union (.fromVec h members) := by
  rw [fromVecStructural_two members htwo, flatMap_spliced_eq_self _ hplain,
    foldl_pushDedup_eq members fun _ => same_of_apart hapart, firstOccurrences,
    firstOccurrencesAfter_eq_self members [] hapart]
  exact ofResultTypes_two members htwo

end LuaType

end GluaLs.Types
