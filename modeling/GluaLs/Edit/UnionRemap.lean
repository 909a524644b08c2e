/-
  GluaLs.Edit.UnionRemap — a union of moved members is the moved union
  (`LuaType::from_vec` of `db_index/type/types.rs` under `remap_identities_in_type`).

  A remap MOVES a type to the type with every identity replaced (`Moved`).  What a union is
  built from is the heads of its members, their equality, the order of their keys and what a
  hash set finds; a remap that keeps these (`Keeps`) carries every step of the construction
  along, so `from_vec` of moved members is the moved `from_vec` (`moved_fromVec`).
-/
import GluaLs.Edit.RemapOrder
import GluaLs.Lib.Related
import GluaLs.Types.Collapse

namespace GluaLs.Edit

open GluaLs.Types
open GluaLs.Types.LuaType
open GluaLs.Lib

/-! ## §1. Moved types -/

/-- The second type is the first with every identity replaced, and all of these are of the
    set. -/
def Moved (remap : IdentityRemap) (I : Identity → Prop) (a b : LuaType) : Prop :=
  NamesOnly I a ∧ b = remap.replace a

abbrev MovedList (remap : IdentityRemap) (I : Identity → Prop) :
    List LuaType → List LuaType → Prop :=
  List.Forall₂ (Moved remap I)

/-- What the construction of a union looks at, kept by a remap: it can be taken back, keys
    keep their order, and a hash set finds a moved key where it found the key. -/
structure Keeps (h : Hashing) (remap back : IdentityRemap) (I : Identity → Prop) : Prop where
  back_replace : ∀ t, NamesOnly I t → back.replace (remap.replace t) = t
  le_iff : ∀ a b, NamesOnly I a → NamesOnly I b →
    ((remap.replace a).sortKey h ≤ (remap.replace b).sortKey h ↔ a.sortKey h ≤ b.sortKey h)
  contains_eq : ∀ keys t, (∀ k ∈ keys, NamesOnly I k) → NamesOnly I t →
    h.set.contains (keys.map remap.replace) (remap.replace t) = h.set.contains keys t

section

variable {remap : IdentityRemap} {I : Identity → Prop}

theorem movedList_map {types : List LuaType} (hty : ∀ t ∈ types, NamesOnly I t) :
    MovedList remap I types (types.map remap.replace) := by
  induction types with
  | nil => exact .nil
  | cons t types ih =>
    exact .cons ⟨hty t (.head _), rfl⟩
      (ih fun s hs => hty s (.tail _ hs))

theorem MovedList.eq_map {types types' : List LuaType} (hty : MovedList remap I types types') :
    types' = types.map remap.replace := by
  induction hty with
  | nil => rfl
  | cons ht _ ih => rw [List.map_cons, ← ht.2, ih]

theorem MovedList.namesOnly {types types' : List LuaType} (hty : MovedList remap I types types') :
    ∀ t ∈ types, NamesOnly I t := by
  induction hty with
  | nil => exact nofun
  | cons ht _ ih => exact List.forall_mem_cons.2 ⟨ht.1, ih⟩

theorem namesOnly_of_leaf {t : LuaType} (hown : ownIdentity t = none)
    (hchildren : t.children = []) :
    NamesOnly I t := by
  refine (namesOnly_iff I t).2 ⟨fun i hi => ?_, fun s hs => ?_⟩
  · rw [hown] at hi
    cases hi
  · rw [hchildren] at hs
    cases hs

/-- A list of moved children under one constructor. -/
theorem namesOnly_of_children {t : LuaType} (hown : ownIdentity t = none)
    (hchildren : ∀ s ∈ t.children, NamesOnly I s) : NamesOnly I t := by
  refine (namesOnly_iff I t).2 ⟨fun i hi => ?_, hchildren⟩
  rw [hown] at hi
  cases hi

theorem moved_nil : Moved remap I .Nil .Nil := ⟨namesOnly_of_leaf rfl rfl, rfl⟩

theorem moved_never : Moved remap I .Never .Never := ⟨namesOnly_of_leaf rfl rfl, rfl⟩

theorem moved_any : Moved remap I .Any .Any := ⟨namesOnly_of_leaf rfl rfl, rfl⟩

theorem moved_nullable {t t' : LuaType} (ht : Moved remap I t t') :
    Moved remap I (.Union (.Nullable t)) (.Union (.Nullable t')) := by
  obtain ⟨hnames, rfl⟩ := ht
  exact ⟨namesOnly_of_children rfl (List.forall_mem_singleton.2 hnames), rfl⟩

theorem moved_multi {types types' : List LuaType} (hty : MovedList remap I types types') :
    Moved remap I (.Union (.Multi types)) (.Union (.Multi types')) := by
  refine ⟨namesOnly_of_children rfl hty.namesOnly, ?_⟩
  rw [hty.eq_map, IdentityRemap.replace_eq]
  rfl

/-- The variant of a union is kept. -/
theorem moved_union_cases {u : LuaUnionType} {t : LuaType} (hu : Moved remap I (.Union u) t) :
    (∃ s s', u = .Nullable s ∧ t = .Union (.Nullable s') ∧ Moved remap I s s') ∨
      ∃ types types', u = .Multi types ∧ t = .Union (.Multi types')
        ∧ MovedList remap I types types' := by
  obtain ⟨hnames, rfl⟩ := hu
  cases u with
  | Nullable s =>
    exact .inl ⟨s, remap.replace s, rfl, rfl, hnames.child (.head _), rfl⟩
  | Multi types =>
    refine .inr ⟨types, types.map remap.replace, rfl, ?_, movedList_map fun s hs => hnames.child hs⟩
    rw [IdentityRemap.replace_eq]
    rfl

/-- The members of a moved union are the moved members. -/
theorem movedList_intoVec {u : LuaUnionType} {t : LuaType} (hu : Moved remap I (.Union u) t) :
    ∃ u', t = .Union u' ∧ MovedList remap I u.intoVec u'.intoVec := by
  rcases moved_union_cases hu with ⟨s, s', rfl, rfl, hs⟩ | ⟨types, types', rfl, rfl, hty⟩
  · exact ⟨.Nullable s', rfl, .cons hs (.cons moved_nil .nil)⟩
  · exact ⟨.Multi types', rfl, hty⟩

/-! ## §2. Heads -/

/-- What the construction of a union asks of a member by its variant. -/
structure SameHead (a b : LuaType) : Prop where
  isNil : a.isNil = b.isNil
  isNever : a.isNever = b.isNever
  isAny : a.isAny = b.isAny
  isUnion : a.isUnion = b.isUnion
  isMultiLineUnion : a.isMultiLineUnion = b.isMultiLineUnion
  isOrderInsensitiveMember : a.isOrderInsensitiveMember = b.isOrderInsensitiveMember
  isKeptArm : a.isKeptArm = b.isKeptArm
  sortOrdinal : a.sortOrdinal = b.sortOrdinal
  dedupsByEquality : a.dedupsByEquality = b.dedupsByEquality
  collapsePartnerOrdinals : a.collapsePartnerOrdinals = b.collapsePartnerOrdinals
  see : ∀ flags : Flags, flags.see a = flags.see b

/-- **A moved type has the head it had.** -/
theorem Moved.sameHead {a b : LuaType} (hab : Moved remap I a b) : SameHead a b := by
  obtain ⟨_, rfl⟩ := hab
  cases a with
  | Union inner | Variadic inner =>
    cases inner <;> exact ⟨rfl, rfl, rfl, rfl, rfl, rfl, rfl, rfl, rfl, rfl, fun _ => rfl⟩
  | _ => exact ⟨rfl, rfl, rfl, rfl, rfl, rfl, rfl, rfl, rfl, rfl, fun _ => rfl⟩

theorem SameHead.ordinalBit {a b : LuaType} (hab : SameHead a b) : a.ordinalBit = b.ordinalBit := by
  rw [LuaType.ordinalBit, LuaType.ordinalBit, hab.sortOrdinal]

theorem SameHead.collapseCandidateMask {a b : LuaType} (hab : SameHead a b) :
    a.collapseCandidateMask = b.collapseCandidateMask := by
  rw [LuaType.collapseCandidateMask, LuaType.collapseCandidateMask, hab.ordinalBit,
    hab.collapsePartnerOrdinals]

theorem ordinalMask_eq {types types' : List LuaType} (hty : MovedList remap I types types') :
    ordinalMask types = ordinalMask types' := by
  have hfold : ∀ mask, types.foldl (fun mask member => mask ||| member.ordinalBit) mask
      = types'.foldl (fun mask member => mask ||| member.ordinalBit) mask := by
    induction hty with
    | nil => exact fun _ => rfl
    | cons ht _ ih =>
      intro mask
      rw [List.foldl_cons, List.foldl_cons, ht.sameHead.ordinalBit]
      exact ih _
  exact hfold 0

theorem anyNullable_eq_any (types : List LuaType) : anyNullable types = types.any isNullable := by
  induction types with
  | nil => rfl
  | cons t types ih =>
    show (t.isNullable || anyNullable types) = (t.isNullable || types.any isNullable)
    rw [ih]

theorem isNullable_replace (remap : IdentityRemap) (t : LuaType) :
    (remap.replace t).isNullable = t.isNullable := by
  induction t using induction_children with
  | step t ih =>
    cases t with
    | Union union =>
      cases union with
      | Nullable s => rfl
      | Multi types =>
        rw [IdentityRemap.replace_eq]
        show anyNullable (types.map remap.replace) = anyNullable types
        rw [anyNullable_eq_any, anyNullable_eq_any, List.any_map]
        rw [Bool.eq_iff_iff, List.any_eq_true, List.any_eq_true]
        constructor
        · rintro ⟨s, hs, hnull⟩
          exact ⟨s, hs, (ih s hs).symm.trans hnull⟩
        · rintro ⟨s, hs, hnull⟩
          exact ⟨s, hs, (ih s hs).trans hnull⟩
    | Variadic variadic => cases variadic <;> rfl
    | _ => rfl

/-! ## §3. Equality, keys and hash sets -/

variable {h : Hashing} {back : IdentityRemap} (hk : Keeps h remap back I)

include hk in
theorem Keeps.eq_iff {a a' b b' : LuaType} (ha : Moved remap I a a') (hb : Moved remap I b b') :
    a.eq b = a'.eq b' := by
  obtain ⟨ha, rfl⟩ := ha
  obtain ⟨hb, rfl⟩ := hb
  rw [Bool.eq_iff_iff]
  constructor
  · exact eq_replace_of_eq remap a b
  · intro heq
    have hback := eq_replace_of_eq back _ _ heq
    rwa [hk.back_replace a ha, hk.back_replace b hb] at hback

include hk in
theorem Keeps.le_moved_iff {a a' b b' : LuaType} (ha : Moved remap I a a')
    (hb : Moved remap I b b') : a.sortKey h ≤ b.sortKey h ↔ a'.sortKey h ≤ b'.sortKey h := by
  obtain ⟨ha, rfl⟩ := ha
  obtain ⟨hb, rfl⟩ := hb
  exact (hk.le_iff a b ha hb).symm

include hk in
theorem Keeps.lt_moved_iff {a a' b b' : LuaType} (ha : Moved remap I a a')
    (hb : Moved remap I b b') : a.sortKey h < b.sortKey h ↔ a'.sortKey h < b'.sortKey h := by
  rw [← not_le, ← not_le, hk.le_moved_iff hb ha]

include hk in
theorem Keeps.key_eq_iff {a a' b b' : LuaType} (ha : Moved remap I a a')
    (hb : Moved remap I b b') : a.sortKey h = b.sortKey h ↔ a'.sortKey h = b'.sortKey h := by
  rw [le_antisymm_iff, le_antisymm_iff, hk.le_moved_iff ha hb, hk.le_moved_iff hb ha]

include hk in
theorem Keeps.agreeOn_le :
    AgreeOn (Moved remap I) (fun a b => a.sortKey h ≤ b.sortKey h)
      (fun a b => a.sortKey h ≤ b.sortKey h) := by
  intro a a' b b' ha hb
  exact hk.le_moved_iff ha hb

include hk in
theorem Keeps.agree_containsKey {a a' : LuaType} (ha : Moved remap I a a') :
    SameTest (Moved remap I) (fun s => s.eq a) (fun s => s.eq a') :=
  fun _ _ hs => hk.eq_iff hs ha

include hk in
theorem containsType_eq {types types' : List LuaType} (hty : MovedList remap I types types')
    {t t' : LuaType} (ht : Moved remap I t t') : containsType types t = containsType types' t' :=
  any_eq (hk.agree_containsKey ht) hty

include hk in
theorem hashInsert_moved {keys keys' : List LuaType} (hkeys : MovedList remap I keys keys')
    {t t' : LuaType} (ht : Moved remap I t t') :
    (hashInsert h keys t).1 = (hashInsert h keys' t').1 ∧
      MovedList remap I (hashInsert h keys t).2 (hashInsert h keys' t').2 := by
  have hcontains : h.set.contains keys' t' = h.set.contains keys t := by
    rw [hkeys.eq_map, ht.2]
    exact hk.contains_eq keys t hkeys.namesOnly ht.1
  unfold hashInsert
  rw [hcontains]
  cases h.set.contains keys t with
  | true => exact ⟨rfl, hkeys⟩
  | false => exact ⟨rfl, forall₂_concat hkeys ht⟩

include hk in
theorem hashInsertAll_moved {types types' : List LuaType} (hty : MovedList remap I types types') :
    ∀ {keys keys' : List LuaType}, MovedList remap I keys keys' →
      MovedList remap I (types.foldl (fun keys member => (hashInsert h keys member).2) keys)
        (types'.foldl (fun keys member => (hashInsert h keys member).2) keys') := by
  induction hty with
  | nil => exact fun hkeys => hkeys
  | cons ht _ ih => exact fun hkeys => ih (hashInsert_moved hk hkeys ht).2

/-! ## §4. Sorted and deduplicated -/

include hk in
theorem moved_sortTypes {types types' : List LuaType} (hty : MovedList remap I types types') :
    MovedList remap I (sortTypes h types) (sortTypes h types') :=
  forall₂_insertionSort hk.agreeOn_le hty

include hk in
theorem moved_dedupTypes {types types' : List LuaType} (hty : MovedList remap I types types') :
    MovedList remap I (dedupTypes types) (dedupTypes types') := by
  refine forall₂_destutter ?_ hty
  intro a a' b b' ha hb
  exact iff_of_eq (congrArg (fun equal => equal = false) (hk.eq_iff ha hb))

include hk in
theorem moved_fromNormalizedVec {types types' : List LuaType}
    (hty : MovedList remap I types types') :
    Moved remap I (.Union (LuaUnionType.fromNormalizedVec types))
      (.Union (LuaUnionType.fromNormalizedVec types')) := by
  unfold LuaUnionType.fromNormalizedVec
  rw [← List.Forall₂.length_eq hty, ← containsType_eq hk hty moved_nil]
  split
  · have hfound := rel_find? (R := Moved remap I) (p := fun t => !t.isNil) (q := fun t => !t.isNil)
      (fun _ _ hs => congrArg not hs.sameHead.isNil) hty
    rcases rel_cases hfound with ⟨hold, hnew⟩ | ⟨t, t', hold, hnew, ht⟩
    · rw [hold, hnew]
      exact moved_multi hty
    · rw [hold, hnew]
      exact moved_nullable ht
  · exact moved_multi hty

theorem agree_isOrderInsensitiveMember :
    SameTest (Moved remap I) isOrderInsensitiveMember isOrderInsensitiveMember :=
  fun _ _ hs => hs.sameHead.isOrderInsensitiveMember

include hk in
theorem moved_unionFromVec {types types' : List LuaType} (hty : MovedList remap I types types') :
    Moved remap I (.Union (LuaUnionType.fromVec h types))
      (.Union (LuaUnionType.fromVec h types')) := by
  unfold LuaUnionType.fromVec
  rw [← List.Forall₂.length_eq hty, ← all_eq agree_isOrderInsensitiveMember hty]
  split
  · exact moved_fromNormalizedVec hk (moved_dedupTypes hk (moved_sortTypes hk hty))
  · exact moved_fromNormalizedVec hk hty

/-! ## §5. The structural constructor -/

theorem moved_spliced {t t' : LuaType} (ht : Moved remap I t t') :
    MovedList remap I t.spliced t'.spliced := by
  cases hunion : t.isUnion with
  | false =>
    have hunion' : t'.isUnion = false := ht.sameHead.isUnion ▸ hunion
    have hself : ∀ s : LuaType, s.isUnion = false → s.spliced = [s] := by
      intro s hs
      cases s with
      | Union => cases hs
      | _ => rfl
    rw [hself t hunion, hself t' hunion']
    exact .cons ht .nil
  | true =>
    cases t with
    | Union u =>
      obtain ⟨u', rfl, hmembers⟩ := movedList_intoVec ht
      exact hmembers
    | _ => cases hunion

theorem moved_flatMap_spliced {types types' : List LuaType} (hty : MovedList remap I types types') :
    MovedList remap I (types.flatMap spliced) (types'.flatMap spliced) :=
  List.rel_flatMap hty fun _ _ ht => moved_spliced ht

/-- Member lists under construction, with their hash sets. -/
def MovedDedup (remap : IdentityRemap) (I : Identity → Prop) (acc acc' : Dedup) : Prop :=
  MovedList remap I acc.1 acc'.1 ∧ Option.Rel (MovedList remap I) acc.2 acc'.2

include hk in
/-- A member put at the end if the hash set has not seen it. -/
theorem moved_hashPush {members members' keys keys' : List LuaType}
    (hmembers : MovedList remap I members members') (hkeys : MovedList remap I keys keys')
    {t t' : LuaType} (ht : Moved remap I t t') :
    MovedDedup remap I
      (if (hashInsert h keys t).1 then members ++ [t] else members, some (hashInsert h keys t).2)
      (if (hashInsert h keys' t').1 then members' ++ [t'] else members',
        some (hashInsert h keys' t').2) := by
  obtain ⟨hnew, hinserted⟩ := hashInsert_moved hk hkeys ht
  rw [← hnew]
  refine ⟨?_, .some hinserted⟩
  cases (hashInsert h keys t).1 with
  | true => exact forall₂_concat hmembers ht
  | false => exact hmembers

include hk in
theorem moved_pushDedup {acc acc' : Dedup} (hacc : MovedDedup remap I acc acc') {t t' : LuaType}
    (ht : Moved remap I t t') :
    MovedDedup remap I (pushDedup h acc t) (pushDedup h acc' t') := by
  obtain ⟨members, keys⟩ := acc
  obtain ⟨members', keys'⟩ := acc'
  obtain ⟨hmembers, hkeys⟩ := hacc
  cases hkeys with
  | some hkeys => exact moved_hashPush hk hmembers hkeys ht
  | none =>
    have hmembers : MovedList remap I members members' := hmembers
    simp only [pushDedup]
    rw [← containsType_eq hk hmembers ht, ← List.Forall₂.length_eq hmembers]
    split
    · exact ⟨hmembers, .none⟩
    · split
      · exact moved_hashPush hk hmembers (hashInsertAll_moved hk hmembers .nil) ht
      · exact ⟨forall₂_concat hmembers ht, .none⟩

include hk in
theorem moved_foldl_pushDedup {types types' : List LuaType} (hty : MovedList remap I types types') :
    ∀ {acc acc' : Dedup}, MovedDedup remap I acc acc' →
      MovedDedup remap I (types.foldl (pushDedup h) acc) (types'.foldl (pushDedup h) acc') := by
  induction hty with
  | nil => exact fun hacc => hacc
  | cons ht _ ih => exact fun hacc => ih (moved_pushDedup hk hacc ht)

include hk in
theorem moved_ofResultTypes {types types' : List LuaType} (hty : MovedList remap I types types') :
    Moved remap I (ofResultTypes h types) (ofResultTypes h types') := by
  cases hty with
  | nil => exact moved_nil
  | cons ht hrest =>
    cases hrest with
    | nil => exact ht
    | cons ht' hrest' => exact moved_unionFromVec hk (.cons ht (.cons ht' hrest'))

include hk in
/-- **The structural union of moved members is the moved union.** -/
theorem moved_fromVecStructural {types types' : List LuaType}
    (hty : MovedList remap I types types') :
    Moved remap I (fromVecStructural h types) (fromVecStructural h types') := by
  cases hty with
  | nil => exact moved_nil
  | cons ht hrest =>
    cases hrest with
    | nil => exact ht
    | cons ht' hrest' =>
      have hspliced := moved_flatMap_spliced
        (.cons ht (.cons ht' hrest'))
      exact moved_ofResultTypes hk
        (moved_foldl_pushDedup hk hspliced ⟨.nil, .none⟩).1

/-! ## §6. Collapses -/

theorem subsumes_replace (remap : IdentityRemap) {s t : LuaType} (hsub : Subsumes s t) :
    Subsumes (remap.replace s) (remap.replace t) := by
  cases hsub with
  | integerConst n => exact .integerConst n
  | docIntegerConst n => exact .docIntegerConst n
  | numberInteger => exact .numberInteger
  | numberIntegerConst n => exact .numberIntegerConst n
  | numberFloatConst f => exact .numberFloatConst f
  | stringConst s => exact .stringConst s
  | docStringConst s => exact .docStringConst s
  | booleanConst b => exact .booleanConst b
  | tableConst site => exact .tableConst _
  | docFunction a c v ps op roles r => exact .docFunction ..
  | signature id => exact .signature _

/-- What collapses still collapses, whatever the remap. -/
theorem collapses_replace (remap : IdentityRemap) {s t r : LuaType} (hc : Collapses s t r) :
    Collapses (remap.replace s) (remap.replace t) (remap.replace r) := by
  cases hc with
  | neverLeft hs hr => exact .neverLeft (congrArg remap.replace hs) (congrArg _ hr)
  | neverRight ht hr => exact .neverRight (congrArg remap.replace ht) (congrArg _ hr)
  | left hsub hr => exact .left (subsumes_replace remap hsub) (congrArg _ hr)
  | right hsub hr => exact .right (subsumes_replace remap hsub) (congrArg _ hr)
  | booleans b hs ht hr =>
    exact .booleans b (congrArg remap.replace hs) (congrArg remap.replace ht)
      (congrArg remap.replace hr)
  | equal heq hr => exact .equal (eq_replace_of_eq remap s t heq) (congrArg _ hr)

theorem namesOnly_of_collapses {s t r : LuaType} (hc : Collapses s t r) (hs : NamesOnly I s)
    (ht : NamesOnly I t) : NamesOnly I r :=
  hc.of_both (namesOnly_of_leaf rfl rfl) hs ht

include hk in
/-- **Moved members collapse to the moved type, or not at all.** -/
theorem rel_tryCollapse {s s' t t' : LuaType} (hs : Moved remap I s s') (ht : Moved remap I t t') :
    Option.Rel (Moved remap I) (tryCollapse s s t) (tryCollapse s' s' t') := by
  obtain ⟨hs, rfl⟩ := hs
  obtain ⟨ht, rfl⟩ := ht
  cases hold : tryCollapse s s t with
  | some r =>
    have hc := tryCollapse_cases s t r hold
    have hc' := collapses_replace remap hc
    cases hnew : tryCollapse (remap.replace s) (remap.replace s) (remap.replace t) with
    | none => exact absurd hc' (not_collapses_of_none _ _ hnew _)
    | some r' =>
      rw [tryCollapse_of_collapses hc'] at hnew
      cases hnew
      exact .some ⟨namesOnly_of_collapses hc hs ht, rfl⟩
  | none =>
    cases hnew : tryCollapse (remap.replace s) (remap.replace s) (remap.replace t) with
    | none => exact .none
    | some r' =>
      have hback := collapses_replace back (tryCollapse_cases _ _ r' hnew)
      rw [hk.back_replace s hs, hk.back_replace t ht] at hback
      exact absurd hback (not_collapses_of_none s t hold _)

end

end GluaLs.Edit
