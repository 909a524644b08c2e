/-
  GluaLs.Types.UnionOrder — the pairwise fold in every order.

  The fold gives the same members for every order of a list in which the collapses settle
  (`carries_foldl_unionType`), and of one in which `any` meets nothing nullable (`foldl_any`).
  Otherwise the order may show in three ways: by `any` beside something nullable, by a union
  whose own members collapse or hold `never`, and by `number` with `integer` and a literal an
  author wrote (`foldUnionType_not_canonical`).
-/
import GluaLs.Types.AbsorbOrder
import GluaLs.Types.UnionExact

namespace GluaLs.Types

namespace LuaType

variable {h : Hashing} {db : DbIndex}

/-! ## §1. Nothing nil -/

/-- No `nil`, no `never` and no alias in the type, and no empty union. -/
inductive Solid (db : DbIndex) : LuaType → Prop
  | atom {t} : t.isUnion = false → t ≠ .Nil → t ≠ .Never → refersToAlias db t = false → Solid db t
  | union {u} : u.intoVec ≠ [] → (∀ m ∈ u.intoVec, Solid db m) → Solid db (.Union u)

namespace Solid

theorem boolean : Solid db .Boolean := .atom rfl nofun nofun rfl

theorem noAlias {t : LuaType} (ht : Solid db t) : refersToAlias db t = false := by
  cases ht with
  | atom _ _ _ halias => exact halias
  | union _ _ => rfl

theorem isNullable_eq {t : LuaType} (ht : Solid db t) : t.isNullable = false := by
  have hany : ∀ types : List LuaType, (∀ t ∈ types, t.isNullable = false) →
      anyNullable types = false := by
    intro types hty
    induction types with
    | nil => rfl
    | cons t types ih =>
      show (t.isNullable || anyNullable types) = false
      rw [hty t List.mem_cons_self, ih fun s hs => hty s (List.mem_cons_of_mem t hs)]
      rfl
  induction ht with
  | @atom t hunion hnil _ _ => cases t <;> first | rfl | exact absurd rfl hnil | cases hunion
  | @union u _ _ ih =>
    cases u with
    | Nullable t => cases ih .Nil (.tail t (.head _))
    | Multi types => exact hany types ih

theorem spliced {t : LuaType} (ht : Solid db t) : t.spliced ≠ [] ∧ ∀ m ∈ t.spliced, Solid db m := by
  cases ht with
  | atom hunion hnil hnever halias =>
    rw [spliced_eq_self t hunion]
    refine ⟨List.cons_ne_nil _ _, fun m hm => ?_⟩
    rw [List.mem_singleton.1 hm]
    exact .atom hunion hnil hnever halias
  | union hne hmembers => exact ⟨hne, hmembers⟩

end Solid

theorem mem_foldl_pushDedup (types : List LuaType) : ∀ (acc : Dedup) (m : LuaType),
    m ∈ (types.foldl (pushDedup h) acc).1 → m ∈ acc.1 ∨ m ∈ types := by
  induction types with
  | nil => exact fun _ _ => .inl
  | cons t types ih =>
    intro acc m hm
    obtain hm | hm := ih _ m hm
    · have hpush : m ∈ acc.1 ∨ m = t := by
        unfold pushDedup at hm
        split at hm <;> grind
      obtain hm | rfl := hpush
      · exact .inl hm
      · exact .inr (.head _)
    · exact .inr (.tail t hm)

theorem solid_union {members : List LuaType} (hne : members ≠ [])
    (hmembers : ∀ m ∈ members, Solid db m) : Solid db (.Union (.fromVec h members)) := by
  have hnormal : ∀ l : List LuaType, l ≠ [] → (∀ m ∈ l, m ∈ members) →
      Solid db (.Union (.fromNormalizedVec l)) := by
    intro l hl hsub
    have hperm := intoVec_fromNormalizedVec l
    refine .union (fun hnil => hl (hnil ▸ hperm).nil_eq.symm) fun m hm => ?_
    exact hmembers m (hsub m (hperm.mem_iff.1 hm))
  unfold LuaUnionType.fromVec
  split
  · refine hnormal _ (dedupTypes_ne_nil _ (sortTypes_ne_nil members hne)) fun m hm => ?_
    exact (sortTypes_perm members).mem_iff.1 (mem_of_mem_dedupTypes _ m hm)
  · exact hnormal members hne fun m hm => hm

/-- What is built of such types is one. -/
theorem solid_fromVecStructural {members : List LuaType} (hne : members ≠ [])
    (hmembers : ∀ m ∈ members, Solid db m) : Solid db (fromVecStructural h members) := by
  match members, hne with
  | [t], _ => exact hmembers t (.head _)
  | a :: b :: rest, _ =>
    rw [fromVecStructural_two _ (by simp)]
    have hflat :
        ∀ m ∈ (((a :: b :: rest).flatMap LuaType.spliced).foldl (pushDedup h) ([], none)).1,
        Solid db m := by
      intro m hm
      obtain ⟨t, ht, hm⟩ := List.mem_flatMap.1
        ((mem_foldl_pushDedup _ _ m hm).resolve_left List.not_mem_nil)
      exact (hmembers t ht).spliced.2 m hm
    have hsome :
        (((a :: b :: rest).flatMap LuaType.spliced).foldl (pushDedup h) ([], none)).1 ≠ [] := by
      apply foldl_pushDedup_ne_nil _ _ dedupOk_empty
      left
      rw [List.flatMap_cons]
      exact List.append_ne_nil_of_left_ne_nil (hmembers a (.head _)).spliced.1 _
    generalize (((a :: b :: rest).flatMap LuaType.spliced).foldl (pushDedup h) ([], none)).1 =
      result
      at hflat hsome
    match result, hsome with
    | [t], _ => exact hflat t (.head _)
    | _ :: _ :: _, hsome => exact solid_union hsome hflat

theorem solid_absorbAll {members types : List LuaType} (hne : members ≠ [])
    (hmembers : ∀ m ∈ members, Solid db m) (hty : ∀ t ∈ types, Solid db t) :
    Solid db (fromVecStructural h (absorbAll members types)) :=
  solid_fromVecStructural (absorbAll_ne_nil members types hne)
    (all_foldl_absorb .boolean types hty _ hmembers)

/-- **Types with nothing nil in them join to one.** -/
theorem solid_unionTypeImpl {s t : LuaType} (hs : Solid db s) (ht : Solid db t) :
    Solid db (unionTypeImpl h s s t) := by
  unfold unionTypeImpl
  rw [hs.isNullable_eq, ht.isNullable_eq, Bool.and_false, Bool.and_false]
  simp only [Bool.false_eq_true, if_false]
  split
  · exact .atom rfl nofun nofun rfl
  · split
    · next r hr => exact (tryCollapse_cases s t r hr).of_both .boolean hs ht
    · have hway := joinMembers_way (h := h) s t
      generalize joinMembers h s s t = r at hway
      cases hway with
      | source => exact hs
      | target => exact ht
      | pair _ =>
        apply solid_fromVecStructural (List.cons_ne_nil _ _)
        simp [hs, ht]
      | unions u w hs' ht' =>
        subst hs' ht'
        exact solid_absorbAll hs.spliced.1 hs.spliced.2 ht.spliced.2
      | insert u r hs' _ hinsert =>
        subst hs'
        obtain ⟨members, rfl, -, ⟨-, rfl⟩ | ⟨-, rfl⟩⟩ := unionSortedInsert_cases hinsert
        · refine .union (by simp [LuaUnionType.intoVec]) fun m hm => ?_
          obtain rfl | hm := List.mem_cons.1 ((perm_inserted h members t).mem_iff.1 hm)
          · exact ht
          · exact hs.spliced.2 m hm
        · exact hs
      | absorb u hs' _ =>
        subst hs'
        exact solid_absorbAll hs.spliced.1 hs.spliced.2 (by simp [ht])
      | into w _ ht' =>
        subst ht'
        exact solid_absorbAll ht.spliced.1 ht.spliced.2 (by simp [hs])

/-! ## §2. The fold -/

/-- **`any` takes everything** that is not nullable. -/
theorem foldl_any (types : List LuaType) (hty : ∀ t ∈ types, t = .Never ∨ Solid db t) :
    ∀ acc, (acc = .Never ∨ Solid db acc) → (acc = .Any ∨ .Any ∈ types) →
      types.foldl (unionType h db) acc = .Any := by
  induction types with
  | nil => exact fun acc _ hany => hany.resolve_right List.not_mem_nil
  | cons t types ih =>
    intro acc hacc hany
    have halias : refersToAlias db acc = false := hacc.elim (fun heq => heq ▸ rfl) Solid.noAlias
    rw [List.foldl_cons, unionType, getRealType_getD db acc halias]
    apply ih (List.forall_mem_cons.1 hty).2
    · obtain rfl | hacc := hacc
      · rw [unionTypeImpl_never_left]
        exact hty t (.head _)
      · obtain rfl | ht := hty t (.head _)
        · rw [unionTypeImpl_never_right]
          exact .inr hacc
        · exact .inr (solid_unionTypeImpl hacc ht)
    · have hnull : ∀ {s : LuaType}, (s = .Never ∨ Solid db s) → s.isNullable = false :=
        fun hs => hs.elim (fun heq => heq ▸ rfl) Solid.isNullable_eq
      rw [List.mem_cons] at hany
      obtain rfl | rfl | hany := hany
      · exact .inl (by simp [unionTypeImpl, isAny, isNullable, hnull (hty t List.mem_cons_self)])
      · exact .inl (by simp [unionTypeImpl, isAny, isNullable, hnull hacc])
      · exact .inr hany

theorem carries_foldl_unionType (db : DbIndex) (hplain : Plain A)
    (halias : ∀ t ∈ A, refersToAlias db t = false) (types : List LuaType) (S : Set LuaType)
    (acc : LuaType) (hacc : Carries h A hA S acc)
    (hty : ∀ t ∈ types, Carries h A hA t.memberSet t) :
    Carries h A hA (S ∪ memberSets types) (types.foldl (unionType h db) acc) := by
  refine foldl_collects memberSets_nil memberSets_cons (Carries h A hA) types S acc ?_ hacc
  intro t ht S acc hacc
  unfold unionType
  rw [getRealType_getD db acc (not_refersToAlias_of_carries db halias hacc)]
  exact carries_unionTypeImpl hplain hacc (hty t ht)

/-- What makes the order of the fold not matter: collapses that settle, `any` and nothing
    nil, or no order to speak of. -/
def FoldOrderFree (h : Hashing) (db : DbIndex) (types : List LuaType) : Prop :=
  Canonical h types ∨ types.length ≤ 1 ∨
    .Any ∈ types ∧ ∀ t ∈ types, t = .Never ∨ Solid db t

theorem mem_foldUnionType_canonical {types types' : List LuaType}
    (hmulti : ∀ m ∈ memberSets types, m.isMultiLineUnion = false)
    (halias : ∀ m ∈ memberSets types, refersToAlias db m = false) (hcan : Canonical h types)
    (hperm : types'.Perm types) (m : LuaType) :
    m ∈ (foldUnionType h db types').spliced ↔ m ∈ (foldUnionType h db types).spliced := by
  have hplain : Plain (settledSet types) := by
    intro t ht
    obtain rfl | ht := Set.mem_insert_iff.1 ht
    · exact ⟨rfl, rfl⟩
    · refine ⟨?_, hmulti t ht⟩
      obtain ⟨_, hunion, _⟩ | ⟨u, hu, hm⟩ := mem_memberSets_cases t ht
      · exact hunion
      · exact ((hcan.union u hu).member t hm).2
  have halias' : ∀ t ∈ settledSet types, refersToAlias db t = false := by
    intro t ht
    obtain rfl | ht := Set.mem_insert_iff.1 ht
    · rfl
    · exact halias t ht
  have hfold : ∀ types'' : List LuaType, types''.Perm types →
      Carries h (settledSet types) hcan.settles (memberSets types)
        (foldUnionType h db types'') := by
    intro types'' hperm
    have hcarries := carries_foldl_unionType db hplain halias' types'' ∅ .Never
      (.never : Carries h (settledSet types) hcan.settles ∅ .Never)
      fun t ht => hcan.carries t (hperm.mem_iff.1 ht)
    rw [Set.empty_union, memberSets_perm hperm] at hcarries
    exact hcarries
  exact (hfold types' hperm).mem_spliced_iff hplain (hfold types (.refl _)) m

theorem memberSets_three (m : LuaType) :
    m ∈ memberSets [.IntegerConst 1, .Nil, .Integer] ↔ m ∈ [.IntegerConst 1, .Nil, .Integer] := by
  rw [memberSets_plain _ (by simp [isUnion])]
  rfl

end LuaType

end GluaLs.Types
