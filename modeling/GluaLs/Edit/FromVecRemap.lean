/-
  GluaLs.Edit.FromVecRemap — `from_vec` of moved members is the moved `from_vec`
  (`LuaType::from_vec` of `db_index/type/types.rs`;
  `db_index/type/type_ops/union_type.rs`).

  Every way a union is built is carried along by a remap that keeps heads, equality, keys and
  what hash sets find: absorbing member by member, the pairwise rule, and its fold.  The choice
  between them is made by the heads of the members and the order of their keys.
-/
import GluaLs.Edit.UnionRemap

namespace GluaLs.Edit

open GluaLs.Types
open GluaLs.Types.LuaType
open GluaLs.Lib

section

variable {h : Hashing} {remap back : IdentityRemap} {I : Identity → Prop}
variable (hk : Keeps h remap back I)

/-! ## §1. Absorbing one member -/

/-- A member that was found and what it collapses to. -/
def MovedFound (remap : IdentityRemap) (I : Identity → Prop) (found found' : Nat × LuaType) :
    Prop :=
  found.1 = found'.1 ∧ Moved remap I found.2 found'.2

theorem rel_map_succ {found found' : Option (Nat × LuaType)}
    (hfound : Option.Rel (MovedFound remap I) found found') :
    Option.Rel (MovedFound remap I) (found.map fun found => (found.1 + 1, found.2))
      (found'.map fun found => (found.1 + 1, found.2)) := by
  cases hfound with
  | none => exact .none
  | some hboth => exact .some ⟨congrArg Nat.succ hboth.1, hboth.2⟩

include hk in
/-- Members keep their constructors, so the same slot is found. -/
theorem rel_findCollapse (candidates : Nat) {t t' : LuaType} (ht : Moved remap I t t')
    {members members' : List LuaType} (hmembers : MovedList remap I members members') :
    Option.Rel (MovedFound remap I) (findCollapse candidates t members)
      (findCollapse candidates t' members') := by
  induction hmembers with
  | nil => exact .none
  | @cons member member' members members' hmember _ ih =>
    unfold findCollapse
    rw [hmember.sameHead.ordinalBit]
    split
    · exact rel_map_succ ih
    · have hcollapse := rel_tryCollapse hk hmember ht
      rcases rel_cases hcollapse with ⟨hold, hnew⟩ | ⟨merged, merged', hold, hnew, hmerged⟩
      · rw [hold, hnew]
        exact rel_map_succ ih
      · rw [hold, hnew]
        exact .some ⟨rfl, hmerged⟩

include hk in
/-- One round after the other finds the same slots. -/
theorem moved_absorbLoop (present rounds : Nat) :
    ∀ {members members' : List LuaType} (slot : Nat) {t t' : LuaType},
      MovedList remap I members members' → Moved remap I t t' →
      MovedList remap I (absorbLoop present rounds members slot t).1
          (absorbLoop present rounds members' slot t').1 ∧
        (absorbLoop present rounds members slot t).2.1
          = (absorbLoop present rounds members' slot t').2.1 ∧
        Moved remap I (absorbLoop present rounds members slot t).2.2
          (absorbLoop present rounds members' slot t').2.2 := by
  induction rounds with
  | zero =>
    intro members members' slot t t' hmembers ht
    exact ⟨hmembers, rfl, ht⟩
  | succ rounds ih =>
    intro members members' slot t t' hmembers ht
    unfold absorbLoop
    rw [← ht.sameHead.collapseCandidateMask]
    split
    · exact ⟨hmembers, rfl, ht⟩
    · -- the next round goes on from what this one merged, at the least of the slots
      have hfound := rel_findCollapse hk t.collapseCandidateMask ht hmembers
      rcases rel_cases hfound with
        ⟨hold, hnew⟩ | ⟨⟨i, merged⟩, ⟨i', merged'⟩, hold, hnew, hi, hmerged⟩
      · rw [hold, hnew]
        exact ⟨hmembers, rfl, ht⟩
      · rw [hold, hnew]
        cases hi
        exact ih (min slot i) (forall₂_eraseIdx i hmembers) hmerged

include hk in
theorem moved_absorb {members members' : List LuaType}
    (hmembers : MovedList remap I members members') (present : Nat) {t t' : LuaType}
    (ht : Moved remap I t t') :
    MovedList remap I (absorb members present t).1 (absorb members' present t').1 ∧
      (absorb members present t).2 = (absorb members' present t').2 := by
  obtain ⟨hrest, hslot, hmerged⟩ :=
    moved_absorbLoop hk present members.length members.length hmembers ht
  simp only [absorb]
  rw [← List.Forall₂.length_eq hmembers, ← hslot, ← List.Forall₂.length_eq hrest,
    hmerged.sameHead.ordinalBit]
  exact ⟨forall₂_insertIdx _ hmerged hrest, rfl⟩

include hk in
theorem moved_absorbAll {members members' types types' : List LuaType}
    (hmembers : MovedList remap I members members') (hty : MovedList remap I types types') :
    MovedList remap I (absorbAll members types) (absorbAll members' types') := by
  have hfold : ∀ {acc acc' : List LuaType × Nat}, MovedList remap I acc.1 acc'.1 →
      acc.2 = acc'.2 →
      MovedList remap I (types.foldl (fun acc t => absorb acc.1 acc.2 t) acc).1
        (types'.foldl (fun acc t => absorb acc.1 acc.2 t) acc').1 := by
    induction hty with
    | nil => exact fun hacc _ => hacc
    | cons ht _ ih =>
      intro acc acc' hacc hmask
      have hstep := moved_absorb hk hacc acc.2 ht
      rw [List.foldl_cons, List.foldl_cons, ← hmask]
      exact ih hstep.1 hstep.2
  exact hfold hmembers (ordinalMask_eq hmembers)

/-! ## §2. Absorbing member by member -/

/-- Member lists under construction, with masks and hash sets. -/
structure MovedMembers (remap : IdentityRemap) (I : Identity → Prop) (acc acc' : Members) :
    Prop where
  members : MovedList remap I acc.members acc'.members
  present : acc.present = acc'.present
  hashed : MovedList remap I acc.hashed acc'.hashed

include hk in
/-- The hash set knows a member exactly if it knows the moved one. -/
theorem moved_addMember {acc acc' : Members} (hacc : MovedMembers remap I acc acc')
    {t t' : LuaType} (ht : Moved remap I t t') :
    MovedMembers remap I (addMember h acc t) (addMember h acc' t') := by
  obtain ⟨hnew, hinserted⟩ := hashInsert_moved hk hacc.hashed ht
  obtain ⟨habsorbed, hmask⟩ := moved_absorb hk hacc.members acc.present ht
  unfold addMember
  rw [← ht.sameHead.dedupsByEquality, ← ht.sameHead.collapsePartnerOrdinals, ← hacc.present, ← hnew]
  split
  · split
    · refine ⟨forall₂_concat hacc.members ht, ?_, hinserted⟩
      show acc.present ||| t.ordinalBit = acc.present ||| t'.ordinalBit
      rw [ht.sameHead.ordinalBit]
    · exact ⟨hacc.members, rfl, hinserted⟩
  · exact ⟨habsorbed, hmask, hacc.hashed⟩

include hk in
theorem moved_absorbedMembers {types types' : List LuaType} (hty : MovedList remap I types types') :
    MovedList remap I (absorbedMembers h types) (absorbedMembers h types') := by
  have hfold : ∀ {types types' : List LuaType}, MovedList remap I types types' →
      ∀ {acc acc' : Members}, MovedMembers remap I acc acc' →
        MovedMembers remap I (types.foldl (addMember h) acc) (types'.foldl (addMember h) acc') := by
    intro types types' hty
    induction hty with
    | nil => exact fun hacc => hacc
    | cons ht _ ih => exact fun hacc => ih (moved_addMember hk hacc ht)
  have hkept : MovedList remap I ((types.flatMap spliced).filter fun t => !t.isNever)
      ((types'.flatMap spliced).filter fun t => !t.isNever) := by
    refine List.rel_filter ?_ (moved_flatMap_spliced hty)
    intro t t' ht
    exact iff_of_eq (congrArg (fun never => (!never) = true) ht.sameHead.isNever)
  exact (hfold hkept ⟨.nil, rfl, .nil⟩).members

include hk in
theorem moved_unionAllAbsorbed {types types' : List LuaType}
    (hty : MovedList remap I types types') :
    Moved remap I (unionAllAbsorbed h types) (unionAllAbsorbed h types') := by
  have habsorbed := moved_absorbedMembers hk hty
  unfold unionAllAbsorbed
  revert habsorbed
  cases absorbedMembers h types with
  | nil =>
    cases absorbedMembers h types' with
    | nil => exact fun _ => moved_never
    | cons => exact nofun
  | cons t rest =>
    cases absorbedMembers h types' with
    | nil => exact nofun
    | cons t' rest' => exact fun habsorbed => moved_fromVecStructural hk habsorbed

/-! ## §3. The pairwise rule -/

theorem containsOrdinal_eq {members members' : List LuaType}
    (hmembers : MovedList remap I members members') (ordinal : Nat) :
    containsOrdinal members ordinal = containsOrdinal members' ordinal := by
  have hdropped := forall₂_dropWhile (R := Moved remap I)
    (p := fun member => member.sortOrdinal < ordinal)
    (q := fun member => member.sortOrdinal < ordinal)
    (fun _ _ hs => congrArg (fun n => decide (n < ordinal)) hs.sameHead.sortOrdinal) hmembers
  unfold containsOrdinal
  rcases rel_cases (rel_head? hdropped) with ⟨hold, hnew⟩ | ⟨t, t', hold, hnew, ht⟩
  · rw [hold, hnew]
  · rw [hold, hnew]
    show (t.sortOrdinal == ordinal) = (t'.sortOrdinal == ordinal)
    rw [ht.sameHead.sortOrdinal]

/-- What a single step of a list of members may not hold. -/
theorem agree_plain :
    SameTest (Moved remap I) (fun t => !(t.isNever || t.isUnion || t.isMultiLineUnion))
      (fun t => !(t.isNever || t.isUnion || t.isMultiLineUnion)) := by
  intro t t' ht
  show (!(t.isNever || t.isUnion || t.isMultiLineUnion))
    = !(t'.isNever || t'.isUnion || t'.isMultiLineUnion)
  rw [ht.sameHead.isNever, ht.sameHead.isUnion, ht.sameHead.isMultiLineUnion]

theorem agree_insertable :
    SameTest (Moved remap I)
      (fun t => t.isOrderInsensitiveMember && !(t.isNever || t.isMultiLineUnion))
      (fun t => t.isOrderInsensitiveMember && !(t.isNever || t.isMultiLineUnion)) := by
  intro t t' ht
  show (t.isOrderInsensitiveMember && !(t.isNever || t.isMultiLineUnion))
    = (t'.isOrderInsensitiveMember && !(t'.isNever || t'.isMultiLineUnion))
  rw [ht.sameHead.isOrderInsensitiveMember, ht.sameHead.isNever, ht.sameHead.isMultiLineUnion]

include hk in
/-- The place is found by sort key, and keys keep their order. -/
theorem rel_unionSortedInsert {u u' : LuaUnionType}
    (hu : Moved remap I (.Union u) (.Union u')) {source source' right right' : LuaType}
    (hsource : Moved remap I source source') (hright : Moved remap I right right') :
    Option.Rel (Moved remap I) (unionSortedInsert h u source right)
      (unionSortedInsert h u' source' right') := by
  rcases moved_union_cases hu with ⟨s, s', rfl, heq, _⟩ | ⟨members, members', rfl, heq, hmembers⟩
  · cases heq
    exact .none
  · cases heq
    have hhead := hright.sameHead
    have hlt : SameTest (Moved remap I) (fun member => decide (member.sortKey h < right.sortKey h))
        (fun member => decide (member.sortKey h < right'.sortKey h)) :=
      fun a a' ha => decide_eq_decide.2 (hk.lt_moved_iff ha hright)
    have heq : SameTest (Moved remap I) (fun member => decide (member.sortKey h = right.sortKey h))
        (fun member => decide (member.sortKey h = right'.sortKey h)) :=
      fun a a' ha => decide_eq_decide.2 (hk.key_eq_iff ha hright)
    have hsmaller := forall₂_takeWhile hlt hmembers
    have hlarger := forall₂_dropWhile hlt hmembers
    have hequal := forall₂_takeWhile heq hlarger
    have hordinals : containsOrdinal members = containsOrdinal members' :=
      funext (containsOrdinal_eq hmembers)
    simp only [unionSortedInsert]
    -- every question asked of the type alone is about its constructor
    rw [← hhead.isNever, ← hhead.isAny, ← hhead.isMultiLineUnion, ← hhead.isOrderInsensitiveMember,
      ← hhead.collapsePartnerOrdinals, ← all_eq agree_insertable hmembers, ← hordinals,
      ← containsType_eq hk hequal hright, ← isEmpty_eq hequal]
    split
    · exact .none
    · split
      · exact .none
      · split
        · exact .none
        · split
          · exact .some (moved_multi (List.rel_append hsmaller (.cons hright hlarger)))
          · split
            · exact .some hsource
            · exact .none

/-- An arm is a literal of the same value before and after. -/
theorem multiLineUnionContains_replace (remap : IdentityRemap)
    (arms : List (LuaType × Option SmolStr)) (other : LuaType) :
    multiLineUnionContains (arms.map fun arm => (remap.replace arm.1, arm.2)) (remap.replace other)
      = multiLineUnionContains arms other := by
  unfold multiLineUnionContains
  rw [List.any_map]
  congr 1
  funext arm
  obtain ⟨t, doc⟩ := arm
  cases t with
  | DocStringConst a | DocIntegerConst a =>
    cases other with
    | Union union => cases union <;> rfl
    | Variadic variadic => cases variadic <;> rfl
    | _ => rfl
  | Union union => cases union <;> rfl
  | Variadic variadic => cases variadic <;> rfl
  | _ => rfl

section

variable (h)

theorem joinMembers_multi_left (arms : List (LuaType × Option SmolStr)) (t : LuaType) :
    joinMembers h (.MultiLineUnion arms) (.MultiLineUnion arms) t
      = if multiLineUnionContains arms t then .MultiLineUnion arms
        else fromVecStructural h [.MultiLineUnion arms, t] :=
  rfl

theorem joinMembers_plain_multi (s : LuaType) (hs : s.isUnion = false)
    (hs' : s.isMultiLineUnion = false) (arms : List (LuaType × Option SmolStr)) :
    joinMembers h s s (.MultiLineUnion arms)
      = if multiLineUnionContains arms s then .MultiLineUnion arms
        else fromVecStructural h [s, .MultiLineUnion arms] := by
  cases s with
  | Union => cases hs
  | MultiLineUnion => cases hs'
  | _ => rfl

theorem joinMembers_plain_union (s : LuaType) (hs : s.isUnion = false)
    (hs' : s.isMultiLineUnion = false) (u : LuaUnionType) :
    joinMembers h s s (.Union u) = fromVecStructural h (absorbAll u.intoVec [s]) := by
  cases s with
  | Union => cases hs
  | MultiLineUnion => cases hs'
  | _ => rfl

/-- A union and what is not one: a sorted insertion, or absorption. -/
theorem joinMembers_union (u : LuaUnionType) (t : LuaType) (ht : t.isUnion = false)
    (ht' : t.isMultiLineUnion = false) :
    joinMembers h (.Union u) (.Union u) t
      = match unionSortedInsert h u (.Union u) t with
        | some merged => merged
        | none => fromVecStructural h (absorbAll u.intoVec [t]) := by
  cases t with
  | Union => cases ht
  | MultiLineUnion => cases ht'
  | _ => rfl

theorem joinMembers_union_plain (u : LuaUnionType) (t : LuaType) (ht : t.isUnion = false)
    (ht' : t.isMultiLineUnion = false) :
    joinMembers h (.Union u) (.Union u) t = (unionSortedInsert h u (.Union u) t).getD
          (fromVecStructural h (absorbAll u.intoVec [t])) := by
  rw [joinMembers_union h u t ht ht']
  cases unionSortedInsert h u (.Union u) t <;> rfl

theorem joinMembers_union_multi (u : LuaUnionType) (arms : List (LuaType × Option SmolStr)) :
    joinMembers h (.Union u) (.Union u) (.MultiLineUnion arms)
      = if multiLineUnionContains arms (.Union u) then .MultiLineUnion arms
        else (unionSortedInsert h u (.Union u) (.MultiLineUnion arms)).getD
          (fromVecStructural h (absorbAll u.intoVec [.MultiLineUnion arms])) := by
  unfold joinMembers
  dsimp only
  cases unionSortedInsert h u (.Union u) (.MultiLineUnion arms) <;> rfl

theorem joinMembers_plain (s t : LuaType) (hs : s.isUnion = false)
    (hs' : s.isMultiLineUnion = false) (ht : t.isUnion = false) (ht' : t.isMultiLineUnion = false) :
    joinMembers h s s t = fromVecStructural h [s, t] := by
  unfold joinMembers
  split
  · cases hs'
  · cases ht'
  · cases hs
  · cases hs
  · cases ht
  · rfl

end

theorem moved_getD {o o' : Option LuaType} (ho : Option.Rel (Moved remap I) o o')
    {t t' : LuaType} (ht : Moved remap I t t') : Moved remap I (o.getD t) (o'.getD t') := by
  cases ho with
  | none => exact ht
  | some hab => exact hab

theorem movedList_pair {s s' t t' : LuaType} (hs : Moved remap I s s') (ht : Moved remap I t t') :
    MovedList remap I [s, t] [s', t'] :=
  .cons hs (.cons ht .nil)

theorem movedList_single {t t' : LuaType} (ht : Moved remap I t t') : MovedList remap I [t] [t'] :=
  .cons ht .nil

/-- A type is a union, a multi-line union or plain, and so is what it moves to. -/
theorem moved_cases {t t' : LuaType} (ht : Moved remap I t t') :
    (∃ u u', t = .Union u ∧ t' = .Union u' ∧ MovedList remap I u.intoVec u'.intoVec) ∨
    (∃ arms, t = .MultiLineUnion arms
      ∧ t' = .MultiLineUnion (arms.map fun arm => (remap.replace arm.1, arm.2))) ∨
    ((t.isUnion = false ∧ t.isMultiLineUnion = false)
      ∧ t'.isUnion = false ∧ t'.isMultiLineUnion = false) := by
  cases hunion : t.isUnion with
  | true =>
    cases t with
    | Union u =>
      obtain ⟨u', rfl, hmembers⟩ := movedList_intoVec ht
      exact .inl ⟨u, u', rfl, rfl, hmembers⟩
    | _ => cases hunion
  | false =>
    cases hmulti : t.isMultiLineUnion with
    | true =>
      cases t with
      | MultiLineUnion arms =>
        refine .inr (.inl ⟨arms, rfl, ?_⟩)
        rw [ht.2, IdentityRemap.replace_eq]
        rfl
      | _ => cases hmulti
    | false =>
      exact .inr (.inr ⟨⟨rfl, rfl⟩, ht.sameHead.isUnion ▸ hunion,
        ht.sameHead.isMultiLineUnion ▸ hmulti⟩)

/-- What an alternative that is taken by an arm of the same value gives. -/
theorem moved_unlessContained {arms : List (LuaType × Option SmolStr)} {other other' : LuaType}
    (hother : Moved remap I other other') {t t' s s' : LuaType} (ht : Moved remap I t t')
    (hs : Moved remap I s s') :
    Moved remap I (if multiLineUnionContains arms other then t else s)
      (if multiLineUnionContains (arms.map fun arm => (remap.replace arm.1, arm.2)) other' then t'
        else s') := by
  rw [hother.2, multiLineUnionContains_replace]
  split
  · exact ht
  · exact hs

include hk in
/-- Two types at a time: a case for each kind of the two. -/
theorem moved_joinMembers {s s' t t' : LuaType} (hs : Moved remap I s s')
    (ht : Moved remap I t t') :
    Moved remap I (joinMembers h s s t) (joinMembers h s' s' t') := by
  have hpair := moved_fromVecStructural hk (movedList_pair hs ht)
  -- a union, a multi-line union or neither, on each side
  rcases moved_cases hs with ⟨u, u', rfl, rfl, hmembers⟩ | ⟨arms, rfl, rfl⟩ | ⟨hplain, hplain'⟩
  · rcases moved_cases ht with ⟨v, v', rfl, rfl, hmembers'⟩ | ⟨arms, rfl, rfl⟩ | ⟨htplain, htplain'⟩
    · exact moved_fromVecStructural hk (moved_absorbAll hk hmembers hmembers')
    · rw [joinMembers_union_multi, joinMembers_union_multi]
      exact moved_unlessContained hs ht (moved_getD (rel_unionSortedInsert hk hs hs ht)
        (moved_fromVecStructural hk (moved_absorbAll hk hmembers (movedList_single ht))))
    · rw [joinMembers_union_plain h u t htplain.1 htplain.2,
        joinMembers_union_plain h u' t' htplain'.1 htplain'.2]
      exact moved_getD (rel_unionSortedInsert hk hs hs ht)
        (moved_fromVecStructural hk (moved_absorbAll hk hmembers (movedList_single ht)))
  · rw [joinMembers_multi_left, joinMembers_multi_left]
    exact moved_unlessContained ht hs hpair
  · rcases moved_cases ht with ⟨v, v', rfl, rfl, hmembers'⟩ | ⟨arms, rfl, rfl⟩ | ⟨htplain, htplain'⟩
    · rw [joinMembers_plain_union h s hplain.1 hplain.2,
        joinMembers_plain_union h s' hplain'.1 hplain'.2]
      exact moved_fromVecStructural hk (moved_absorbAll hk hmembers' (movedList_single hs))
    · rw [joinMembers_plain_multi h s hplain.1 hplain.2,
        joinMembers_plain_multi h s' hplain'.1 hplain'.2]
      exact moved_unlessContained hs ht hpair
    · rw [joinMembers_plain h s t hplain.1 hplain.2 htplain.1 htplain.2,
        joinMembers_plain h s' t' hplain'.1 hplain'.2 htplain'.1 htplain'.2]
      exact hpair

include hk in
/-- **The pairwise rule gives the moved union.** -/
theorem moved_unionTypeShallow {s s' t t' : LuaType} (hs : Moved remap I s s')
    (ht : Moved remap I t t') :
    Moved remap I (unionTypeShallow h s t) (unionTypeShallow h s' t') := by
  have hsnull : s'.isNullable = s.isNullable := hs.2 ▸ isNullable_replace remap s
  have htnull : t'.isNullable = t.isNullable := ht.2 ▸ isNullable_replace remap t
  unfold unionTypeShallow unionTypeImpl
  rw [hsnull, htnull, ← hs.sameHead.isAny, ← ht.sameHead.isAny]
  split
  · exact moved_nullable moved_any
  · split
    · exact moved_nullable moved_any
    · split
      · exact moved_any
      · rcases rel_cases (rel_tryCollapse hk hs ht) with
          ⟨hold, hnew⟩ | ⟨merged, merged', hold, hnew, hmerged⟩
        · rw [hold, hnew]
          exact moved_joinMembers hk hs ht
        · rw [hold, hnew]
          exact hmerged

/-! ## §4. The fold on a member list -/

/-- Two folds at the same place. -/
structure MovedFold (remap : IdentityRemap) (I : Identity → Prop) (acc acc' : FoldMembers) : Prop
    extends MovedMembers remap I acc.toMembers acc'.toMembers where
  sorted : acc.sorted = acc'.sorted
  appended : acc.appended = acc'.appended
  takenFrom : Option.Rel (Moved remap I) acc.takenFrom acc'.takenFrom

inductive MovedAcc (remap : IdentityRemap) (I : Identity → Prop) : FoldAcc → FoldAcc → Prop where
  | single {t t' : LuaType} (ht : Moved remap I t t') : MovedAcc remap I (.Type t) (.Type t')
  | list {acc acc' : FoldMembers} (hacc : MovedFold remap I acc acc') :
      MovedAcc remap I (.Members acc) (.Members acc')

theorem stepsInMembers_eq {t t' : LuaType} (ht : Moved remap I t t') :
    stepsInMembers t = stepsInMembers t' := by
  have hplain : ∀ s : LuaType, s.isUnion = false →
      stepsInMembers s = (!s.isAny && !(s.isNever || s.isUnion || s.isMultiLineUnion)) := by
    intro s hs
    cases s with
    | Union => cases hs
    | _ => rfl
  cases hunion : t.isUnion with
  | true =>
    cases t with
    | Union u =>
      obtain ⟨u', rfl, hmembers⟩ := movedList_intoVec ht
      exact all_eq agree_plain hmembers
    | _ => cases hunion
  | false =>
    have hhead := ht.sameHead
    rw [hplain t hunion, hplain t' (hhead.isUnion ▸ hunion), hhead.isAny, hhead.isNever,
      hhead.isUnion, hhead.isMultiLineUnion]

include hk in
theorem moved_foldAbsorb {acc acc' : FoldMembers} (hacc : MovedFold remap I acc acc')
    {t t' : LuaType} (ht : Moved remap I t t') :
    MovedFold remap I (FoldMembers.absorb h acc t) (FoldMembers.absorb h acc' t') := by
  obtain ⟨hnew, hinserted⟩ := hashInsert_moved hk hacc.hashed ht
  obtain ⟨habsorbed, hmask⟩ := moved_absorb hk hacc.members acc.present ht
  unfold FoldMembers.absorb
  rw [← ht.sameHead.dedupsByEquality, ← ht.sameHead.collapsePartnerOrdinals, ← hacc.present,
    ← hnew, ← hacc.appended, ← ht.sameHead.ordinalBit]
  split
  · split
    · exact ⟨⟨forall₂_concat hacc.members ht, rfl, hinserted⟩, hacc.sorted, rfl, .none⟩
    · exact ⟨⟨hacc.members, rfl, hinserted⟩, hacc.sorted, rfl, hacc.takenFrom⟩
  · exact ⟨⟨habsorbed, hmask, hacc.hashed⟩, rfl, rfl, .none⟩

include hk in
theorem moved_insertMember {members members' : List LuaType}
    (hmembers : MovedList remap I members members') {t t' : LuaType} (ht : Moved remap I t t') :
    MovedList remap I (FoldMembers.insertMember h members t)
      (FoldMembers.insertMember h members' t') := by
  have hle : SameTest (Moved remap I) (fun existing => decide (existing.sortKey h ≤ t.sortKey h))
      (fun existing => decide (existing.sortKey h ≤ t'.sortKey h)) :=
    fun a a' ha => decide_eq_decide.2 (hk.le_moved_iff ha ht)
  exact List.rel_append (forall₂_takeWhile hle hmembers) (.cons ht (forall₂_dropWhile hle hmembers))

include hk in
theorem moved_foldl_insertMember {types types' : List LuaType}
    (hty : MovedList remap I types types') :
    ∀ {members members' : List LuaType}, MovedList remap I members members' →
      MovedList remap I (types.foldl (FoldMembers.insertMember h) members)
        (types'.foldl (FoldMembers.insertMember h) members') := by
  induction hty with
  | nil => exact fun hmembers => hmembers
  | cons ht _ ih => exact fun hmembers => ih (moved_insertMember hk hmembers ht)

include hk in
theorem moved_foldSort {acc acc' : FoldMembers} (hacc : MovedFold remap I acc acc') :
    MovedFold remap I (acc.sort h) (acc'.sort h) := by
  unfold FoldMembers.sort
  rw [← hacc.sorted, ← hacc.appended, ← List.Forall₂.length_eq hacc.members]
  split
  · exact ⟨⟨moved_foldl_insertMember hk (List.forall₂_drop _ hacc.members)
      (List.forall₂_take _ hacc.members), hacc.present, hacc.hashed⟩, rfl, rfl, hacc.takenFrom⟩
  · exact ⟨⟨moved_sortTypes hk hacc.members, hacc.present, hacc.hashed⟩, rfl, rfl, hacc.takenFrom⟩

include hk in
theorem moved_nilLast {acc acc' : FoldMembers} (hacc : MovedFold remap I acc acc') :
    MovedFold remap I acc.nilLast acc'.nilLast := by
  obtain ⟨⟨members, present, hashed⟩, sorted, appended, takenFrom⟩ := acc
  obtain ⟨⟨members', present', hashed'⟩, sorted', appended', takenFrom'⟩ := acc'
  have hmembers : MovedList remap I members members' := hacc.members
  cases hmembers with
  | nil => exact hacc
  | cons ha hrest =>
    cases hrest with
    | nil => exact hacc
    | cons hb hrest' =>
      cases hrest' with
      | nil =>
        simp only [FoldMembers.nilLast]
        rw [← hk.eq_iff ha moved_nil, ← hk.eq_iff hb moved_nil]
        split
        · exact ⟨⟨movedList_pair hb ha, hacc.present, hacc.hashed⟩, rfl, hacc.appended,
            hacc.takenFrom⟩
        · split
          · exact ⟨hacc.toMovedMembers, rfl, hacc.appended, hacc.takenFrom⟩
          · exact hacc
      | cons => exact hacc

include hk in
theorem moved_settle {acc acc' : FoldMembers} (hacc : MovedFold remap I acc acc') :
    MovedAcc remap I (acc.settle h) (acc'.settle h) := by
  have hlast := moved_nilLast hk (moved_foldSort hk hacc)
  have hunsorted : MovedFold remap I { acc with sorted := false, appended := 0 }
      { acc' with sorted := false, appended := 0 } :=
    ⟨hacc.toMovedMembers, rfl, rfl, hacc.takenFrom⟩
  have hunsortedLast := moved_nilLast hk hunsorted
  have hall := all_eq agree_isOrderInsensitiveMember hacc.members
  have hsome : acc.takenFrom.isSome = acc'.takenFrom.isSome := by
    rcases rel_cases hacc.takenFrom with ⟨hold, hnew⟩ | ⟨s, s', hold, hnew, _⟩
    · rw [hold, hnew]
    · rw [hold, hnew]
      rfl
  have hmembers := hacc.members
  unfold FoldMembers.settle
  rw [← hsome]
  split
  · exact .list hacc
  · revert hmembers hall
    cases acc.members with
    | nil =>
      cases acc'.members with
      | nil => exact fun _ _ => .single moved_nil
      | cons => exact nofun
    | cons a rest =>
      cases acc'.members with
      | nil => exact nofun
      | cons a' rest' =>
        intro hall hmembers
        cases hmembers with
        | cons ha hrest =>
          cases hrest with
          | nil => exact .single ha
          | cons hb hrest' =>
            simp only [← hall]
            split
            · exact .list hlast
            · exact .list hunsortedLast

include hk in
theorem moved_foldIntoType {acc acc' : FoldMembers} (hacc : MovedFold remap I acc acc') :
    Moved remap I (acc.intoType h) (acc'.intoType h) := by
  unfold FoldMembers.intoType
  rcases rel_cases hacc.takenFrom with ⟨hold, hnew⟩ | ⟨s, s', hold, hnew, hs⟩
  · rw [hold, hnew]
    exact moved_unionFromVec hk hacc.members
  · rw [hold, hnew]
    exact hs

include hk in
theorem allNew_eq {types types' : List LuaType} (hty : MovedList remap I types types') :
    ∀ {seen seen' : List LuaType}, MovedList remap I seen seen' →
      allNew h seen types = allNew h seen' types' := by
  induction hty with
  | nil => exact fun _ => rfl
  | @cons t t' types types' ht _ ih =>
    intro seen seen' hseen
    obtain ⟨hnew, hinserted⟩ := hashInsert_moved hk hseen ht
    show ((hashInsert h seen t).1 && allNew h (hashInsert h seen t).2 types)
      = ((hashInsert h seen' t').1 && allNew h (hashInsert h seen' t').2 types')
    rw [hnew, ih hinserted]

include hk in
theorem moved_fromType {t t' : LuaType} (ht : Moved remap I t t') :
    MovedAcc remap I (FoldAcc.fromType h t) (FoldAcc.fromType h t') := by
  have hplain : ∀ s : LuaType, s.isUnion = false → FoldAcc.fromType h s = .Type s := by
    intro s hs
    cases s with
    | Union => cases hs
    | _ => rfl
  cases hunion : t.isUnion with
  | false =>
    rw [hplain t hunion, hplain t' (ht.sameHead.isUnion ▸ hunion)]
    exact .single ht
  | true =>
    cases t with
    | Union u =>
      obtain ⟨u', rfl, hmembers⟩ := movedList_intoVec ht
      have hdedup : MovedList remap I (u.intoVec.filter dedupsByEquality)
          (u'.intoVec.filter dedupsByEquality) := by
        refine List.rel_filter ?_ hmembers
        intro s s' hs
        exact iff_of_eq (congrArg (fun dedups => dedups = true) hs.sameHead.dedupsByEquality)
      simp only [FoldAcc.fromType]
      rw [← List.Forall₂.length_eq hmembers, ← stepsInMembers_eq ht, ← allNew_eq hk hmembers .nil]
      split
      · exact .single ht
      · exact .list ⟨⟨hmembers, ordinalMask_eq hmembers,
          hashInsertAll_moved hk hdedup .nil⟩, rfl, rfl, .some ht⟩
    | _ => cases hunion

include hk in
theorem moved_foldl_absorb {types types' : List LuaType} (hty : MovedList remap I types types') :
    ∀ {acc acc' : FoldMembers}, MovedFold remap I acc acc' →
      MovedFold remap I (types.foldl (FoldMembers.absorb h) acc)
        (types'.foldl (FoldMembers.absorb h) acc') := by
  induction hty with
  | nil => exact fun hacc => hacc
  | cons ht _ ih => exact fun hacc => ih (moved_foldAbsorb hk hacc ht)

include hk in
/-- One more type arrives on both sides. -/
theorem moved_push {acc acc' : FoldAcc} (hacc : MovedAcc remap I acc acc') {t t' : LuaType}
    (ht : Moved remap I t t') : MovedAcc remap I (acc.push h t) (acc'.push h t') := by
  cases hacc with
  | single hs => exact moved_fromType hk (moved_unionTypeShallow hk hs ht)
  | list hmembers =>
    simp only [FoldAcc.push]
    rw [← stepsInMembers_eq ht]
    split
    · exact moved_settle hk (moved_foldl_absorb hk (moved_spliced ht) hmembers)
    · exact moved_fromType hk (moved_unionTypeShallow hk (moved_foldIntoType hk hmembers) ht)

include hk in
theorem moved_accIntoType {acc acc' : FoldAcc} (hacc : MovedAcc remap I acc acc') :
    Moved remap I (acc.intoType h) (acc'.intoType h) := by
  cases hacc with
  | single ht => exact ht
  | list hmembers => exact moved_foldIntoType hk hmembers

include hk in
/-- **The fold gives the moved union.** -/
theorem moved_foldUnionShallow {types types' : List LuaType}
    (hty : MovedList remap I types types') :
    Moved remap I (foldUnionShallow h types) (foldUnionShallow h types') := by
  have hfold : ∀ {acc acc' : FoldAcc}, MovedAcc remap I acc acc' →
      MovedAcc remap I (types.foldl (FoldAcc.push h) acc) (types'.foldl (FoldAcc.push h) acc') := by
    induction hty with
    | nil => exact fun hacc => hacc
    | cons ht _ ih => exact fun hacc => ih (moved_push hk hacc ht)
  exact moved_accIntoType hk (hfold (.single moved_never))

/-! ## §5. Which way is taken -/

theorem movedList_looked {t t' : LuaType} (ht : Moved remap I t t') :
    MovedList remap I t.looked t'.looked := by
  have hplain : ∀ s : LuaType, s.isUnion = false → s.looked = [s] := by
    intro s hs
    cases s with
    | Union => cases hs
    | _ => rfl
  cases hunion : t.isUnion with
  | false =>
    rw [hplain t hunion, hplain t' (ht.sameHead.isUnion ▸ hunion)]
    exact movedList_single ht
  | true =>
    cases t with
    | Union u =>
      rcases moved_union_cases ht with ⟨s, s', rfl, rfl, hs⟩ | ⟨types, types', rfl, rfl, hty⟩
      · exact movedList_single hs
      · exact hty
    | _ => cases hunion

theorem visitingOrderIsObservable_eq {types types' : List LuaType}
    (hty : MovedList remap I types types') :
    visitingOrderIsObservable types = visitingOrderIsObservable types' := by
  have hmulti : types.any (fun t => t.looked.any isMultiLineUnion)
      = types'.any fun t => t.looked.any isMultiLineUnion :=
    any_eq (R := Moved remap I)
      (fun _ _ ht => any_eq (fun _ _ hs => hs.sameHead.isMultiLineUnion) (movedList_looked ht)) hty
  have hsensitive : types.any (fun t => t.looked.any fun member => !member.isOrderInsensitiveMember)
      = types'.any fun t => t.looked.any fun member => !member.isOrderInsensitiveMember :=
    any_eq (R := Moved remap I) (fun _ _ ht => any_eq
      (fun _ _ hs => congrArg not hs.sameHead.isOrderInsensitiveMember) (movedList_looked ht)) hty
  unfold visitingOrderIsObservable
  rw [hmulti, hsensitive]

theorem noCollapse_eq {types types' : List LuaType} (hty : MovedList remap I types types') :
    ∀ flags : Flags, noCollapse flags types = noCollapse flags types' := by
  induction hty with
  | nil => exact fun _ => rfl
  | @cons t t' types types' ht _ ih =>
    intro flags
    have hhead := ht.sameHead
    unfold noCollapse
    rw [hhead.isNever, hhead.isUnion, hhead.isMultiLineUnion, hhead.see, ih]

include hk in
/-- Both sides take the structural way, or neither. -/
theorem canUseStructuralUnion_eq {types types' : List LuaType}
    (hty : MovedList remap I types types') :
    canUseStructuralUnion h types = canUseStructuralUnion h types' := by
  have hsorted := forall₂_takeWhile agree_isOrderInsensitiveMember hty
  have hchain : isSortedByKey h (types.takeWhile isOrderInsensitiveMember)
      = isSortedByKey h (types'.takeWhile isOrderInsensitiveMember) :=
    decide_eq_decide.2 (isChain_iff hk.agreeOn_le hsorted)
  unfold canUseStructuralUnion
  rw [hchain, noCollapse_eq hty, all_eq agree_isOrderInsensitiveMember hty]

include hk in
/-- **`from_vec` of moved members is the moved `from_vec`.** -/
theorem moved_fromVec {types types' : List LuaType} (hty : MovedList remap I types types') :
    Moved remap I (fromVec h types) (fromVec h types') := by
  have hkept : types.any isKeptArm = types'.any isKeptArm :=
    any_eq (fun _ _ ht => ht.sameHead.isKeptArm) hty
  unfold fromVec unionTypeAllMode
  rw [← List.Forall₂.length_eq hty, ← hkept, ← canUseStructuralUnion_eq hk hty,
    ← visitingOrderIsObservable_eq hty]
  split
  · exact moved_fromVecStructural hk hty
  · split
    · exact moved_fromVecStructural hk hty
    · split
      · exact moved_foldUnionShallow hk hty
      · exact moved_unionAllAbsorbed hk hty

end

end GluaLs.Edit
