/-
  GluaLs.Types.UnionMeaning — what a list of union members means.

  A member list MEANS a set of values if every member is a type that is given values and
  they denote exactly these.  Sorting, dropping duplicates and the nullable form keep the
  meaning, and so does the structural constructor (`means_fromVecStructural`): a member goes
  only where an equal one stays.
-/
import Mathlib.Data.Set.Basic
import GluaLs.Types.UnionDef
import GluaLs.Types.Values

namespace GluaLs.Types

namespace LuaType

variable (h : Hashing) (classes : Classes) (isClass : LuaTypeDeclId → Prop)

/-! ## §1. What a list means -/

/-- The values of a type. -/
def values (t : LuaType) : Set LuaValue := {v | Denotes classes t v}

/-- The values of the types of a list. -/
def valuesAny (types : List LuaType) : Set LuaValue := {v | DenotesAny classes types v}

/-- The list has values, and they are these. -/
structure Means (members : List LuaType) (S : Set LuaValue) : Prop where
  denotable : ∀ t ∈ members, Denotable isClass t
  exact : valuesAny classes members = S

variable {h classes isClass}

theorem valuesAny_nil : valuesAny classes [] = ∅ := by
  ext v
  simp [valuesAny, denotesAny_nil]

theorem valuesAny_cons (t : LuaType) (types : List LuaType) :
    valuesAny classes (t :: types) = values classes t ∪ valuesAny classes types := by
  ext v
  exact denotesAny_cons t types v

/-- **A fold that adds what each type stands for** collects what all of them stand for. -/
theorem foldl_collects {B V : Type} {step : B → LuaType → B} {each : LuaType → Set V}
    {all : List LuaType → Set V} (hnil : all [] = ∅)
    (hcons : ∀ t types, all (t :: types) = each t ∪ all types) (holds : Set V → B → Prop)
    (types : List LuaType) :
    ∀ (S : Set V) (acc : B),
      (∀ t ∈ types, ∀ S acc, holds S acc → holds (S ∪ each t) (step acc t)) →
      holds S acc → holds (S ∪ all types) (types.foldl step acc) := by
  induction types with
  | nil =>
    intro S acc _ hacc
    rw [hnil, Set.union_empty]
    exact hacc
  | cons t types ih =>
    intro S acc hstep hacc
    rw [hcons, ← Set.union_assoc]
    exact ih _ _ (List.forall_mem_cons.1 hstep).2
      (hstep t (.head _) S acc hacc)

theorem valuesAny_singleton (t : LuaType) : valuesAny classes [t] = values classes t := by
  ext v
  exact denotesAny_singleton t v

theorem valuesAny_append (as bs : List LuaType) :
    valuesAny classes (as ++ bs) = valuesAny classes as ∪ valuesAny classes bs := by
  ext v
  exact denotesAny_append as bs v

theorem values_union (u : LuaUnionType) :
    values classes (.Union u) = valuesAny classes u.intoVec := by
  ext v
  exact denotes_union u v

theorem values_never : values classes .Never = ∅ := by
  ext v
  simp [values, not_denotes_never]

theorem values_any : values classes .Any = Set.univ := by
  ext v
  simp [values, Denotes.any v]

theorem values_eq_of_eq (s t : LuaType) (heq : s.eq t = true) :
    values classes s = values classes t := by
  ext v
  exact denotes_iff_of_eq s t heq v

theorem values_subset_valuesAny (t : LuaType) (types : List LuaType) (ht : t ∈ types) :
    values classes t ⊆ valuesAny classes types := by
  intro v hv
  exact ⟨t, ht, hv⟩

theorem valuesAny_perm {as bs : List LuaType} (hperm : as.Perm bs) :
    valuesAny classes as = valuesAny classes bs := by
  ext v
  exact denotesAny_perm hperm v

namespace Means

theorem nil : Means classes isClass [] ∅ :=
  ⟨nofun, valuesAny_nil⟩

theorem singleton (t : LuaType) (ht : Denotable isClass t) :
    Means classes isClass [t] (values classes t) := by
  refine ⟨?_, valuesAny_singleton t⟩
  intro s hs
  rwa [List.mem_singleton.1 hs]

theorem perm {as bs : List LuaType} {S : Set LuaValue} (hm : Means classes isClass as S)
    (hperm : as.Perm bs) : Means classes isClass bs S := by
  refine ⟨?_, ?_⟩
  · intro t ht
    exact hm.denotable t (hperm.mem_iff.2 ht)
  · rw [← valuesAny_perm hperm]
    exact hm.exact

theorem append {as bs : List LuaType} {S T : Set LuaValue} (ha : Means classes isClass as S)
    (hb : Means classes isClass bs T) : Means classes isClass (as ++ bs) (S ∪ T) := by
  refine ⟨?_, ?_⟩
  · intro t ht
    obtain ht | ht := List.mem_append.1 ht
    · exact ha.denotable t ht
    · exact hb.denotable t ht
  · rw [valuesAny_append, ha.exact, hb.exact]

theorem cons {t : LuaType} {members : List LuaType} {S : Set LuaValue} (ht : Denotable isClass t)
    (hm : Means classes isClass members S) :
    Means classes isClass (t :: members) (values classes t ∪ S) :=
  (singleton t ht).append hm

/-- A member whose values are there already adds nothing. -/
theorem absorbed {members : List LuaType} {S : Set LuaValue} (hm : Means classes isClass members S)
    (t : LuaType) (ht : values classes t ⊆ S) :
    Means classes isClass members (S ∪ values classes t) := by
  rw [Set.union_eq_self_of_subset_right ht]
  exact hm

/-- The union of the members. -/
theorem union {u : LuaUnionType} {S : Set LuaValue} (hne : u.intoVec ≠ [])
    (hm : Means classes isClass u.intoVec S) : Means classes isClass [.Union u] S := by
  rw [← hm.exact, ← values_union]
  exact singleton (.Union u) (.union u hne hm.denotable)

/-- The members of a union. -/
theorem intoVec {u : LuaUnionType} (hu : Denotable isClass (.Union u)) :
    Means classes isClass u.intoVec (values classes (.Union u)) := by
  cases hu with
  | union _ _ hmembers => exact ⟨hmembers, (values_union u).symm⟩

end Means

theorem denotable_intoVec_ne_nil {u : LuaUnionType} (hu : Denotable isClass (.Union u)) :
    u.intoVec ≠ [] := by
  cases hu with
  | union _ hne _ => exact hne

theorem spliced_ne_nil {t : LuaType} (ht : Denotable isClass t) : t.spliced ≠ [] := by
  cases t with
  | Union u => exact denotable_intoVec_ne_nil ht
  | _ => exact List.cons_ne_nil _ _

/-- What a type stands for in a list. -/
theorem means_spliced {t : LuaType} (ht : Denotable isClass t) :
    Means classes isClass t.spliced (values classes t) := by
  cases t with
  | Union u => exact .intoVec ht
  | _ => exact .singleton _ ht

theorem means_flatMap_spliced (types : List LuaType) (hty : ∀ t ∈ types, Denotable isClass t) :
    Means classes isClass (types.flatMap spliced) (valuesAny classes types) := by
  induction types with
  | nil =>
    rw [valuesAny_nil]
    exact .nil
  | cons t types ih =>
    rw [valuesAny_cons, List.flatMap_cons]
    exact (means_spliced (hty t (.head _))).append
      (ih fun s hs => hty s (.tail t hs))

/-! ## §2. Sorting and removing duplicates -/

section

variable (types : List LuaType)

theorem sortTypes_perm : (sortTypes h types).Perm types :=
  List.perm_insertionSort _ types

/-- What `dedup` drops equals what it keeps. -/
theorem valuesAny_destutter' :
    ∀ a, valuesAny classes (types.destutter' (fun a b => a.eq b = false) a)
      = valuesAny classes (a :: types) := by
  induction types with
  | nil =>
    intro a
    rfl
  | cons b types ih =>
    intro a
    by_cases hab : a.eq b = false
    · rw [List.destutter'_cons_pos (R := fun a b : LuaType => a.eq b = false) types hab,
        valuesAny_cons, ih, valuesAny_cons a]
    · rw [List.destutter'_cons_neg (R := fun a b : LuaType => a.eq b = false) types hab, ih]
      rw [valuesAny_cons, valuesAny_cons, valuesAny_cons,
        values_eq_of_eq a b (by simpa using hab), ← Set.union_assoc, Set.union_self]

theorem valuesAny_dedupTypes : valuesAny classes (dedupTypes types) = valuesAny classes types := by
  cases types with
  | nil => rfl
  | cons a types => exact valuesAny_destutter' types a

theorem mem_of_mem_dedupTypes (t : LuaType) (ht : t ∈ dedupTypes types) : t ∈ types :=
  (List.destutter_sublist _ types).subset ht

theorem dedupTypes_ne_nil (hne : types ≠ []) : dedupTypes types ≠ [] := by
  cases types with
  | nil => exact absurd rfl hne
  | cons a types => exact List.destutter'_ne_nil types _

end

theorem Means.dedupTypes {types : List LuaType} {S : Set LuaValue}
    (hm : Means classes isClass types S) : Means classes isClass (dedupTypes types) S := by
  refine ⟨?_, ?_⟩
  · intro t ht
    exact hm.denotable t (mem_of_mem_dedupTypes types t ht)
  · rw [valuesAny_dedupTypes, hm.exact]

theorem Means.sortTypes {types : List LuaType} {S : Set LuaValue}
    (hm : Means classes isClass types S) : Means classes isClass (sortTypes h types) S :=
  hm.perm (sortTypes_perm types).symm

/-- Only `nil` is equal to `nil`. -/
theorem eq_nil_iff (t : LuaType) : t.eq .Nil = true ↔ t = .Nil := by
  cases t <;> first
    | exact ⟨fun _ => rfl, fun _ => rfl⟩
    | exact ⟨nofun, nofun⟩

theorem exists_union {t : LuaType} (ht : t.isUnion = true) : ∃ u, t = .Union u := by
  cases t with
  | Union u => exact ⟨u, rfl⟩
  | _ => cases ht

/-- The nullable form has the members of the list. -/
theorem intoVec_fromNormalizedVec (types : List LuaType) :
    (LuaUnionType.fromNormalizedVec types).intoVec.Perm types := by
  unfold LuaUnionType.fromNormalizedVec
  split
  · next hnull =>
      obtain ⟨hlen, hnil⟩ := hnull
      match types, hlen with
      | [a, b], _ =>
        simp only [containsType, List.any_cons, List.any_nil, Bool.or_false, Bool.or_eq_true,
          eq_nil_iff] at hnil
        cases ha : a.isNil with
        | false =>
          have hb : b = .Nil := by
            obtain rfl | hb := hnil
            · cases ha
            · exact hb
          simp only [List.find?_cons, ha, hb, Bool.not_false]
          exact .refl _
        | true =>
          have hanil : a = .Nil := by
            cases a <;> first | rfl | cases ha
          subst hanil
          cases hb : b.isNil with
          | false =>
            simp only [List.find?_cons, ha, hb, Bool.not_false, Bool.not_true]
            exact .swap _ _ _
          | true =>
            simp only [List.find?_cons, ha, hb, Bool.not_true, List.find?_nil]
            exact .refl _
  · exact .refl _

theorem means_fromNormalizedVec {types : List LuaType} {S : Set LuaValue} (hne : types ≠ [])
    (hm : Means classes isClass types S) :
    Means classes isClass [.Union (.fromNormalizedVec types)] S := by
  apply Means.union
  · intro hnil
    have hperm := intoVec_fromNormalizedVec types
    rw [hnil] at hperm
    exact hne hperm.symm.eq_nil
  · exact hm.perm (intoVec_fromNormalizedVec types).symm

theorem sortTypes_ne_nil (types : List LuaType) (hne : types ≠ []) : sortTypes h types ≠ [] := by
  intro hnil
  have hperm := sortTypes_perm (h := h) types
  rw [hnil] at hperm
  exact hne hperm.symm.eq_nil

section

variable {types : List LuaType} {S : Set LuaValue} (hne : types ≠ [])
  (hm : Means classes isClass types S)
include hne hm

theorem means_sorted :
    Means classes isClass
      [.Union (.fromNormalizedVec (LuaType.dedupTypes (LuaType.sortTypes h types)))] S :=
  means_fromNormalizedVec (dedupTypes_ne_nil _ (sortTypes_ne_nil types hne))
    hm.sortTypes.dedupTypes

/-- `LuaUnionType::from_vec` keeps the meaning. -/
theorem means_unionFromVec : Means classes isClass [.Union (.fromVec h types)] S := by
  unfold LuaUnionType.fromVec
  split
  · exact means_sorted hne hm
  · exact means_fromNormalizedVec hne hm

/-- `LuaUnionType::from_inferred_vec` keeps the meaning. -/
theorem means_unionFromInferredVec :
    Means classes isClass [.Union (.fromInferredVec h types)] S := by
  unfold LuaUnionType.fromInferredVec
  split
  · exact means_sorted hne hm
  · exact means_fromNormalizedVec hne hm

end

/-! ## §3. The structural constructor -/

/-- A hash set after an insertion holds nothing but what was there and what was put in. -/
theorem mem_hashInsert (keys : List LuaType) (t s : LuaType) (hs : s ∈ (hashInsert h keys t).2) :
    s ∈ keys ∨ s = t := by
  unfold hashInsert at hs
  split at hs
  · exact .inl hs
  · simpa using hs

theorem mem_foldl_hashInsert (types : List LuaType) :
    ∀ keys s, s ∈ types.foldl (fun keys t => (hashInsert h keys t).2) keys →
    s ∈ keys ∨ s ∈ types := by
  induction types with
  | nil =>
    intro keys s hs
    exact .inl hs
  | cons t types ih =>
    intro keys s hs
    obtain hs | hs := ih _ s hs
    · obtain hs | rfl := mem_hashInsert keys t s hs
      · exact .inl hs
      · exact .inr (.head _)
    · exact .inr (.tail t hs)

/-- What is not new is equal to a key. -/
theorem values_subset_of_not_new (keys : List LuaType) (t : LuaType)
    (hnew : (hashInsert h keys t).1 = false) : values classes t ⊆ valuesAny classes keys := by
  unfold hashInsert at hnew
  split at hnew
  · next hcontains =>
      obtain ⟨s, hs, heq⟩ := h.set.eq_of_contains keys t hcontains
      rw [← values_eq_of_eq s t heq]
      exact values_subset_valuesAny s keys hs
  · cases hnew

theorem valuesAny_mono {as bs : List LuaType} (hsub : ∀ t ∈ as, t ∈ bs) :
    valuesAny classes as ⊆ valuesAny classes bs := by
  rintro v ⟨t, ht, hv⟩
  exact ⟨t, hsub t ht, hv⟩

/-- The keys of the hash set are members. -/
def DedupOk (acc : Dedup) : Prop := ∀ keys, acc.2 = some keys → ∀ k ∈ keys, k ∈ acc.1

/-- A type pushed through the hash set. -/
theorem means_hashPush {members keys : List LuaType} {S : Set LuaValue}
    (hm : Means classes isClass members S) (hkeys : ∀ k ∈ keys, k ∈ members) (t : LuaType)
    (ht : Denotable isClass t) :
    Means classes isClass (if (hashInsert h keys t).1 then members ++ [t] else members)
      (S ∪ values classes t) := by
  split
  · exact hm.append (.singleton t ht)
  · next hnew =>
      apply hm.absorbed
      rw [← hm.exact]
      exact (values_subset_of_not_new keys t (by simpa using hnew)).trans (valuesAny_mono hkeys)

theorem dedupOk_hashPush {members keys : List LuaType} (hkeys : ∀ k ∈ keys, k ∈ members)
    (t : LuaType) : ∀ k ∈ (hashInsert h keys t).2,
      k ∈ if (hashInsert h keys t).1 then members ++ [t] else members := by
  intro k hk
  unfold hashInsert at hk ⊢
  split at hk
  · next hcontains =>
      simp only [hcontains]
      exact hkeys k hk
  · next hcontains =>
      simp only [hcontains]
      obtain hk | hk := List.mem_append.1 hk
      · exact List.mem_append_left _ (hkeys k hk)
      · exact List.mem_append_right _ hk

/-- The keys a scan gives way to are the members. -/
theorem mem_scanned (members : List LuaType) (k : LuaType)
    (hk : k ∈ members.foldl (fun keys existing => (hashInsert h keys existing).2) []) :
    k ∈ members := by
  obtain hk | hk := mem_foldl_hashInsert members [] k hk
  · cases hk
  · exact hk

theorem dedupOk_pushDedup {acc : Dedup} (hok : DedupOk acc) (t : LuaType) :
    DedupOk (pushDedup h acc t) := by
  unfold pushDedup
  split
  · next keys hset =>
      intro keys' heq
      cases heq
      exact dedupOk_hashPush (hok keys hset) t
  · split
    · exact hok
    · split
      · intro keys' heq
        cases heq
        exact dedupOk_hashPush (mem_scanned acc.1) t
      · intro keys heq
        cases heq

theorem means_pushDedup {acc : Dedup} {S : Set LuaValue} (hm : Means classes isClass acc.1 S)
    (hok : DedupOk acc) (t : LuaType) (ht : Denotable isClass t) :
    Means classes isClass (pushDedup h acc t).1 (S ∪ values classes t) := by
  unfold pushDedup
  split
  · next keys hset => exact means_hashPush hm (hok keys hset) t ht
  · split
    · next hcontains =>
        obtain ⟨s, hs, heq⟩ := List.any_eq_true.1 hcontains
        apply hm.absorbed
        rw [← hm.exact, ← values_eq_of_eq s t heq]
        exact values_subset_valuesAny s _ hs
    · split
      · exact means_hashPush hm (mem_scanned acc.1) t ht
      · exact hm.append (.singleton t ht)

theorem means_foldl_pushDedup (types : List LuaType) (acc : Dedup) (S : Set LuaValue)
    (hty : ∀ t ∈ types, Denotable isClass t) (hm : Means classes isClass acc.1 S)
    (hok : DedupOk acc) :
    Means classes isClass (types.foldl (pushDedup h) acc).1 (S ∪ valuesAny classes types) :=
  (foldl_collects valuesAny_nil valuesAny_cons
    (fun S acc => Means classes isClass acc.1 S ∧ DedupOk acc) types S acc
    (fun t ht _ _ hacc =>
      ⟨means_pushDedup hacc.1 hacc.2 t (hty t ht), dedupOk_pushDedup hacc.2 t⟩) ⟨hm, hok⟩).1

/-- What is not new has an equal among the keys, so there is one. -/
theorem hashPush_ne_nil {members keys : List LuaType} (hkeys : ∀ k ∈ keys, k ∈ members)
    (t : LuaType) : (if (hashInsert h keys t).1 then members ++ [t] else members) ≠ [] := by
  unfold hashInsert
  split
  · next hcontains =>
      obtain ⟨s, hs, _⟩ := h.set.eq_of_contains keys t hcontains
      simp only [Bool.false_eq_true, if_false]
      exact List.ne_nil_of_mem (hkeys s hs)
  · simp

theorem pushDedup_ne_nil (acc : Dedup) (hok : DedupOk acc) (t : LuaType) :
    (pushDedup h acc t).1 ≠ [] := by
  unfold pushDedup
  split
  · next keys hset => exact hashPush_ne_nil (hok keys hset) t
  · split
    · next hcontains =>
        obtain ⟨s, hs, _⟩ := List.any_eq_true.1 hcontains
        exact List.ne_nil_of_mem hs
    · split
      · exact hashPush_ne_nil (mem_scanned acc.1) t
      · simp

theorem foldl_pushDedup_ne_nil (types : List LuaType) :
    ∀ (acc : Dedup), DedupOk acc → types ≠ [] ∨ acc.1 ≠ [] →
      (types.foldl (pushDedup h) acc).1 ≠ [] := by
  induction types with
  | nil =>
    intro acc _ hne
    exact hne.resolve_left fun hnil => hnil rfl
  | cons t types ih =>
    intro acc hok _
    exact ih _ (dedupOk_pushDedup hok t) (.inr (pushDedup_ne_nil acc hok t))

theorem dedupOk_empty : DedupOk ([], none) := by
  intro keys hkeys
  cases hkeys

/-- **Flattening and removing duplicates keeps the meaning** of a list that is not empty. -/
theorem means_fromVecStructural {types : List LuaType} {S : Set LuaValue} (hne : types ≠ [])
    (hm : Means classes isClass types S) : Means classes isClass [fromVecStructural h types] S := by
  match types, hne with
  | [t], _ => exact hm
  | t :: s :: rest, _ =>
    have hflat : Means classes isClass ((t :: s :: rest).flatMap spliced) S := by
      rw [← hm.exact]
      exact means_flatMap_spliced (t :: s :: rest) hm.denotable
    have hfold : Means classes isClass
        (((t :: s :: rest).flatMap spliced).foldl (pushDedup h) ([], none)).1 S := by
      have hfold' := means_foldl_pushDedup (h := h) _ ([], none) ∅ hflat.denotable
        (.nil : Means classes isClass [] ∅) dedupOk_empty
      rw [Set.empty_union, hflat.exact] at hfold'
      exact hfold'
    have hne' : (((t :: s :: rest).flatMap spliced).foldl (pushDedup h) ([], none)).1 ≠ [] := by
      apply foldl_pushDedup_ne_nil _ _ dedupOk_empty
      left
      rw [List.flatMap_cons]
      exact List.append_ne_nil_of_left_ne_nil
        (spliced_ne_nil (hm.denotable t (.head _))) _
    show Means classes isClass [ofResultTypes h
      (((t :: s :: rest).flatMap spliced).foldl (pushDedup h) ([], none)).1] S
    generalize (((t :: s :: rest).flatMap spliced).foldl (pushDedup h) ([], none)).1 = result at *
    match result, hne' with
    | [t], _ => exact hfold
    | a :: b :: result, _ => exact means_unionFromVec (List.cons_ne_nil _ _) hfold

end LuaType

end GluaLs.Types
