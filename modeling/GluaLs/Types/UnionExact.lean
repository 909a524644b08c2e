/-
  GluaLs.Types.UnionExact — **a union denotes the union of what it was built from.**

  Every way to a union keeps the meaning of the member list: a member goes into one that has
  its values (`values_collapses`), or, for a hash set that is not kept up to date, into a
  list whose meaning has only grown since (`MembersMean`).
-/
import GluaLs.Types.Collapse
import GluaLs.Types.UnionMeaning

namespace GluaLs.Types

open GluaLs.Lib

namespace LuaType

variable {h : Hashing} {classes : Classes} {isClass : LuaTypeDeclId → Prop}

/-! ## §1. Two members that collapse -/

theorem values_subsumes (s t : LuaType) (hsub : Subsumes s t) :
    values classes t ⊆ values classes s := by
  intro v hv
  have hv' : Denotes classes t v := hv
  cases hsub <;> cases hv' <;> constructor

theorem values_booleans (b : Bool) : values classes .Boolean
    = values classes (.BooleanConst b) ∪ values classes (.BooleanConst (!b)) := by
  ext v
  constructor
  · intro hv
    have hv' : Denotes classes .Boolean v := hv
    cases hv' with
    | boolean c =>
      by_cases hcb : c = b
      · exact .inl (hcb ▸ .booleanConst c)
      · have hc : c = !b := by
          cases c <;> cases b <;> first | rfl | exact absurd rfl hcb
        exact .inr (hc ▸ .booleanConst c)
  · intro hv
    obtain hv | hv := hv
    · exact values_subsumes _ _ (.booleanConst b) hv
    · exact values_subsumes _ _ (.booleanConst !b) hv

/-- **Two members collapse to a type of exactly their values.** -/
theorem values_collapses (s t r : LuaType) (hc : Collapses s t r) :
    values classes r = values classes s ∪ values classes t := by
  cases hc with
  | neverLeft hs hr => rw [hs, hr, values_never, Set.empty_union]
  | neverRight ht hr => rw [ht, hr, values_never, Set.union_empty]
  | left hsub hr => rw [hr, Set.union_eq_self_of_subset_right (values_subsumes s t hsub)]
  | right hsub hr => rw [hr, Set.union_eq_self_of_subset_left (values_subsumes t s hsub)]
  | booleans b hs ht hr => rw [hs, ht, hr, ← values_booleans]
  | equal heq hr => rw [hr, ← values_eq_of_eq s t heq, Set.union_self]

theorem denotable_collapses (s t r : LuaType) (hc : Collapses s t r) (hs : Denotable isClass s)
    (ht : Denotable isClass t) : Denotable isClass r :=
  hc.of_both .boolean hs ht

/-! ## §2. Absorbing -/

theorem means_absorbs (members rest : List LuaType) (t t' : LuaType)
    (habs : Absorbs Collapses members t rest t') :
    ∀ S, Means classes isClass (t :: members) S → Means classes isClass (t' :: rest) S := by
  induction habs with
  | done members t =>
    intro S hm
    exact hm
  | step members members' rest m t r t' hperm hc _ ih =>
    intro S hm
    apply ih
    have hm' : Means classes isClass (t :: m :: members') S := hm.perm (hperm.cons t)
    have hm'' : Means classes isClass members' (valuesAny classes members') :=
      ⟨fun s hs => hm'.denotable s (by simp [hs]), rfl⟩
    have hr : Denotable isClass r := denotable_collapses m t r hc
      (hm'.denotable m (by simp)) (hm'.denotable t (by simp))
    have heq : values classes r ∪ valuesAny classes members' = S := by
      rw [← hm'.exact, valuesAny_cons, valuesAny_cons, values_collapses m t r hc,
        ← Set.union_assoc, Set.union_comm (values classes m)]
    rw [← heq]
    exact hm''.cons hr

/-- **Absorbing a type adds its values**, whatever the mask. -/
theorem means_absorb {members : List LuaType} {S : Set LuaValue}
    (hm : Means classes isClass members S) (present : Nat) (t : LuaType)
    (ht : Denotable isClass t) :
    Means classes isClass (absorb members present t).1 (S ∪ values classes t) := by
  obtain ⟨rest, t', habs, hperm, _⟩ := absorb_spec members present t
  rw [Set.union_comm]
  exact (means_absorbs members rest t t' habs _ (hm.cons ht)).perm hperm.symm

theorem means_foldl_absorb (types : List LuaType) (acc : List LuaType × Nat) (S : Set LuaValue)
    (hty : ∀ t ∈ types, Denotable isClass t) :
    Means classes isClass acc.1 S →
      Means classes isClass (types.foldl (fun acc t => absorb acc.1 acc.2 t) acc).1
        (S ∪ valuesAny classes types) :=
  foldl_collects valuesAny_nil valuesAny_cons (fun S acc => Means classes isClass acc.1 S)
    types S acc fun t ht _ acc hm => means_absorb hm acc.2 t (hty t ht)

theorem absorb_ne_nil (members : List LuaType) (present : Nat) (t : LuaType) :
    (absorb members present t).1 ≠ [] := by
  obtain ⟨rest, t', _, hperm, _⟩ := absorb_spec members present t
  intro hnil
  rw [hnil] at hperm
  exact List.cons_ne_nil _ _ hperm.symm.eq_nil

theorem absorbAll_ne_nil (members types : List LuaType) (hne : members ≠ []) :
    absorbAll members types ≠ [] := by
  have hfold : ∀ (types : List LuaType) (acc : List LuaType × Nat), acc.1 ≠ [] →
      (types.foldl (fun acc t => absorb acc.1 acc.2 t) acc).1 ≠ [] := by
    intro types
    induction types with
    | nil =>
      intro acc hacc
      exact hacc
    | cons t types ih =>
      intro acc _
      exact ih _ (absorb_ne_nil acc.1 acc.2 t)
  exact hfold types _ hne

/-- Members absorbed into those of a union, and the union built anew. -/
theorem means_absorbAll {members types : List LuaType} {S T : Set LuaValue} (hne : members ≠ [])
    (hm : Means classes isClass members S) (hty : Means classes isClass types T) :
    Means classes isClass [fromVecStructural h (absorbAll members types)] (S ∪ T) := by
  apply means_fromVecStructural (absorbAll_ne_nil members types hne)
  rw [← hty.exact]
  exact means_foldl_absorb types _ S hty.denotable hm

/-- The members mean `S`, and nothing in the hash set is outside it. -/
structure MembersMean (acc : Members) (classes : Classes) (isClass : LuaTypeDeclId → Prop)
    (S : Set LuaValue) : Prop where
  means : Means classes isClass acc.members S
  hashed : valuesAny classes acc.hashed ⊆ S

theorem valuesAny_hashInsert (keys : List LuaType) (t : LuaType) (S : Set LuaValue)
    (hkeys : valuesAny classes keys ⊆ S) :
    valuesAny classes (hashInsert h keys t).2 ⊆ S ∪ values classes t := by
  rintro v ⟨s, hs, hv⟩
  obtain hs | rfl := mem_hashInsert keys t s hs
  · exact .inl (hkeys ⟨s, hs, hv⟩)
  · exact .inr hv

/-- **A member is answered by the hash set only if its values are there**, however many
    members have been merged away since. -/
theorem means_addMember {acc : Members} {S : Set LuaValue}
    (hm : MembersMean acc classes isClass S) (t : LuaType) (ht : Denotable isClass t) :
    MembersMean (addMember h acc t) classes isClass (S ∪ values classes t) := by
  unfold addMember
  split
  · split
    · exact ⟨hm.means.append (.singleton t ht), valuesAny_hashInsert acc.hashed t S hm.hashed⟩
    · next hnew =>
        refine ⟨?_, valuesAny_hashInsert acc.hashed t S hm.hashed⟩
        apply hm.means.absorbed
        exact (values_subset_of_not_new acc.hashed t (by simpa using hnew)).trans hm.hashed
  · exact ⟨means_absorb hm.means acc.present t ht, hm.hashed.trans Set.subset_union_left⟩

theorem means_foldl_addMember (types : List LuaType) (acc : Members) (S : Set LuaValue)
    (hty : ∀ t ∈ types, Denotable isClass t) :
    MembersMean acc classes isClass S →
      MembersMean (types.foldl (addMember h) acc) classes isClass (S ∪ valuesAny classes types) :=
  foldl_collects valuesAny_nil valuesAny_cons (fun S acc => MembersMean acc classes isClass S)
    types S acc fun t ht _ _ hm => means_addMember hm t (hty t ht)

theorem isNever_eq (t : LuaType) (ht : t.isNever = true) : t = .Never := by
  cases t <;> first | rfl | cases ht

/-- Dropping `never` drops no value. -/
theorem Means.filter_never {types : List LuaType} {S : Set LuaValue}
    (hm : Means classes isClass types S) :
    Means classes isClass (types.filter fun t => !t.isNever) S := by
  refine ⟨fun t ht => hm.denotable t (List.mem_filter.1 ht).1, ?_⟩
  rw [← hm.exact]
  ext v
  constructor
  · rintro ⟨t, ht, hv⟩
    exact ⟨t, (List.mem_filter.1 ht).1, hv⟩
  · rintro ⟨t, ht, hv⟩
    refine ⟨t, List.mem_filter.2 ⟨ht, ?_⟩, hv⟩
    cases hnever : t.isNever with
    | false => rfl
    | true =>
      rw [isNever_eq t hnever] at hv
      exact absurd hv (not_denotes_never v)

theorem means_absorbedMembers (types : List LuaType) (hty : ∀ t ∈ types, Denotable isClass t) :
    Means classes isClass (absorbedMembers h types) (valuesAny classes types) := by
  have hflat : Means classes isClass ((types.flatMap spliced).filter fun t => !t.isNever)
      (valuesAny classes types) := (means_flatMap_spliced types hty).filter_never
  have hfold := means_foldl_addMember (h := h) _ ⟨[], 0, []⟩ ∅ hflat.denotable
    ⟨(.nil : Means classes isClass [] ∅), by rw [valuesAny_nil]⟩
  rw [Set.empty_union, hflat.exact] at hfold
  exact hfold.means

theorem means_never {S : Set LuaValue} (hm : Means classes isClass [] S) :
    Means classes isClass [.Never] S := by
  rw [← hm.exact, valuesAny_nil, ← values_never]
  exact .singleton .Never .never

theorem means_unionAllAbsorbed (types : List LuaType) (hty : ∀ t ∈ types, Denotable isClass t) :
    Means classes isClass [unionAllAbsorbed h types] (valuesAny classes types) := by
  have hm : Means classes isClass (absorbedMembers h types) (valuesAny classes types) :=
    means_absorbedMembers types hty
  unfold unionAllAbsorbed
  split
  · next hnil => exact means_never (hnil ▸ hm)
  · next hne => exact means_fromVecStructural hne hm

theorem means_unionAllAbsorbedInferred (types : List LuaType)
    (hty : ∀ t ∈ types, Denotable isClass t) :
    Means classes isClass [unionAllAbsorbedInferred h types] (valuesAny classes types) := by
  have hm : Means classes isClass (absorbedMembers h types) (valuesAny classes types) :=
    means_absorbedMembers types hty
  unfold unionAllAbsorbedInferred
  split
  · next hnil => exact means_never (hnil ▸ hm)
  · next t hone => exact hone ▸ hm
  · next hne _ => exact Means.union (u := .Multi _) hne hm

/-! ## §3. The pairwise rule -/

/-- Inserting into a sorted union adds the type, wherever the search ends. -/
theorem means_unionSortedInsert (left : LuaUnionType) (right r : LuaType)
    (hleft : Denotable isClass (.Union left)) (hright : Denotable isClass right)
    (hr : unionSortedInsert h left (.Union left) right = some r) :
    Means classes isClass [r] (values classes (.Union left) ∪ values classes right) := by
  have hm : Means classes isClass left.intoVec (values classes (.Union left)) := .intoVec hleft
  obtain ⟨members, rfl, -, ⟨-, rfl⟩ | ⟨hcontains, rfl⟩⟩ := unionSortedInsert_cases hr
  · apply Means.union
    · simp [LuaUnionType.intoVec]
    · apply (hm.append (.singleton right hright)).perm
      exact (List.perm_append_singleton right members).trans (perm_inserted h members right).symm
  · obtain ⟨s, hs, heq⟩ := List.any_eq_true.1 hcontains
    apply Means.absorbed (.singleton _ hleft)
    rw [values_union, ← values_eq_of_eq s right heq]
    exact values_subset_valuesAny s members hs

theorem means_pair (s t : LuaType) (hs : Denotable isClass s) (ht : Denotable isClass t) :
    Means classes isClass [fromVecStructural h [s, t]] (values classes s ∪ values classes t) :=
  means_fromVecStructural (List.cons_ne_nil _ _) ((Means.singleton t ht).cons hs)

theorem means_joinMembers (s t : LuaType) (hs : Denotable isClass s) (ht : Denotable isClass t) :
    Means classes isClass [joinMembers h s s t] (values classes s ∪ values classes t) := by
  unfold joinMembers
  split
  · cases hs
  · cases ht
  · next left right _ =>
      exact means_absorbAll (denotable_intoVec_ne_nil hs) (.intoVec hs) (.intoVec ht)
  · next left right _ _ =>
      split
      · next r hr => exact means_unionSortedInsert _ t r hs ht hr
      · exact means_absorbAll (denotable_intoVec_ne_nil hs) (.intoVec hs) (.singleton t ht)
  · rw [Set.union_comm]
    exact means_absorbAll (denotable_intoVec_ne_nil ht) (.intoVec ht) (.singleton s hs)
  · exact means_pair s t hs ht

theorem isAny_eq (t : LuaType) (ht : t.isAny = true) : t = .Any := by
  cases t <;> first | rfl | cases ht

/-- `any` and everything is everything. -/
theorem means_any {r : LuaType} (s t : LuaType) (hr : r = .Any ∨ r = nullableAnyType)
    (hany : s.isAny = true ∨ t.isAny = true) :
    Means classes isClass [r] (values classes s ∪ values classes t) := by
  have huniv : values classes s ∪ values classes t = Set.univ := by
    obtain hany | hany := hany
    · rw [isAny_eq s hany, values_any, Set.univ_union]
    · rw [isAny_eq t hany, values_any, Set.union_univ]
  rw [huniv]
  obtain rfl | rfl := hr
  · rw [← values_any]
    exact .singleton .Any .any
  · refine Means.union (u := .Nullable .Any) (List.cons_ne_nil _ _) ⟨?_, ?_⟩
    · intro t ht
      simp only [LuaUnionType.intoVec, List.mem_cons, List.not_mem_nil, or_false] at ht
      obtain rfl | rfl := ht
      · exact .any
      · exact .nil
    · show valuesAny classes [.Any, .Nil] = Set.univ
      rw [valuesAny_cons, values_any, Set.univ_union]

/-- **The pairwise rule adds the values of its two sides.** -/
theorem means_unionTypeImpl (s t : LuaType) (hs : Denotable isClass s) (ht : Denotable isClass t) :
    Means classes isClass [unionTypeImpl h s s t] (values classes s ∪ values classes t) := by
  unfold unionTypeImpl
  split
  · next hany => exact means_any s t (.inr rfl) (.inl (Bool.and_eq_true_iff.1 hany).1)
  · split
    · next hany => exact means_any s t (.inr rfl) (.inr (Bool.and_eq_true_iff.1 hany).1)
    · split
      · next hany => exact means_any s t (.inl rfl) (Bool.or_eq_true_iff.1 hany)
      · split
        · next r hr =>
            have hc := tryCollapse_cases s t r hr
            rw [← values_collapses s t r hc]
            exact .singleton r (denotable_collapses s t r hc hs ht)
        · exact means_joinMembers s t hs ht

/-! ## §4. The fold on a member list -/

/-- What the accumulator of the fold means. -/
def FoldMean (classes : Classes) (isClass : LuaTypeDeclId → Prop) (S : Set LuaValue) :
    FoldAcc → Prop
  | .Type t => Means classes isClass [t] S
  | .Members acc => MembersMean acc.toMembers classes isClass S ∧ acc.members ≠ [] ∧
      ∀ t, acc.takenFrom = some t → Means classes isClass [t] S

theorem means_foldMembers_absorb {acc : FoldMembers} {S : Set LuaValue}
    (hm : FoldMean classes isClass S (.Members acc)) (t : LuaType) (ht : Denotable isClass t) :
    FoldMean classes isClass (S ∪ values classes t) (.Members (acc.absorb h t)) := by
  obtain ⟨hm, hne, htaken⟩ := hm
  unfold FoldMembers.absorb
  split
  · split
    · refine ⟨⟨hm.means.append (.singleton t ht), valuesAny_hashInsert acc.hashed t S hm.hashed⟩,
        by simp, ?_⟩
      intro t' heq
      cases heq
    · next hnew =>
        have hsub : values classes t ⊆ S :=
          (values_subset_of_not_new acc.hashed t (by simpa using hnew)).trans hm.hashed
        refine ⟨⟨hm.means.absorbed t hsub, valuesAny_hashInsert acc.hashed t S hm.hashed⟩, hne, ?_⟩
        intro t' heq
        exact (htaken t' heq).absorbed t hsub
  · refine ⟨⟨means_absorb hm.means acc.present t ht, hm.hashed.trans Set.subset_union_left⟩,
      absorb_ne_nil _ _ _, ?_⟩
    intro t' heq
    cases heq

theorem means_foldl_foldMembers_absorb (types : List LuaType) (acc : FoldMembers)
    (S : Set LuaValue) (hty : ∀ t ∈ types, Denotable isClass t) :
    FoldMean classes isClass S (.Members acc) →
      FoldMean classes isClass (S ∪ valuesAny classes types)
        (.Members (types.foldl (FoldMembers.absorb h) acc)) :=
  foldl_collects valuesAny_nil valuesAny_cons
    (fun S acc => FoldMean classes isClass S (.Members acc))
    types S acc fun t ht _ _ hm => means_foldMembers_absorb hm t (hty t ht)

theorem insertMember_perm (members : List LuaType) (t : LuaType) :
    (FoldMembers.insertMember h members t).Perm (t :: members) := by
  unfold FoldMembers.insertMember
  refine List.perm_middle.trans ?_
  rw [List.takeWhile_append_dropWhile]

theorem foldl_insertMember_perm (tail : List LuaType) :
    ∀ members, (tail.foldl (FoldMembers.insertMember h) members).Perm (members ++ tail) := by
  induction tail with
  | nil =>
    intro members
    rw [List.append_nil]
    exact .refl _
  | cons t tail ih =>
    intro members
    refine (ih _).trans ?_
    exact ((insertMember_perm members t).append_right tail).trans List.perm_middle.symm

/-- The same members in another order. -/
structure Reordered (acc acc' : FoldMembers) : Prop where
  members : acc.members.Perm acc'.members
  present : acc'.present = acc.present
  hashed : acc'.hashed = acc.hashed
  takenFrom : acc'.takenFrom = acc.takenFrom

theorem reordered_sort (acc : FoldMembers) : Reordered acc (acc.sort h) := by
  unfold FoldMembers.sort
  split
  · refine ⟨.trans ?_ (foldl_insertMember_perm _ _).symm, rfl, rfl, rfl⟩
    rw [List.take_append_drop]
  · exact ⟨(sortTypes_perm acc.members).symm, rfl, rfl, rfl⟩

theorem reordered_nilLast (acc : FoldMembers) : Reordered acc acc.nilLast := by
  unfold FoldMembers.nilLast
  split
  · next a b hmembers =>
      split
      · exact ⟨hmembers ▸ .swap _ _ _, rfl, rfl, rfl⟩
      · split <;> exact ⟨.refl _, rfl, rfl, rfl⟩
  · exact ⟨.refl _, rfl, rfl, rfl⟩

/-- What a step settles to. -/
theorem settle_cases (acc : FoldMembers) :
    acc.takenFrom.isSome = true ∧ acc.settle h = .Members acc ∨
    acc.takenFrom = none ∧ (acc.members = [] ∨ (∃ t, acc.members = [t] ∧ acc.settle h = .Type t) ∨
      2 ≤ acc.members.length ∧ ∃ acc', Reordered acc acc' ∧ acc.settle h = .Members acc') := by
  unfold FoldMembers.settle
  split
  · next hsome => exact .inl ⟨hsome, rfl⟩
  · next hnone =>
      refine .inr ⟨by simpa using hnone, ?_⟩
      split
      · next hnil => exact .inl hnil
      · next t hone => exact .inr (.inl ⟨t, hone, rfl⟩)
      · next hnil hone =>
          refine .inr (.inr ⟨?_, ?_⟩)
          · match hlist : acc.members with
            | [] => exact absurd hlist hnil
            | [t] => exact absurd hlist (hone t)
            | a :: b :: rest => simp
          · split
            · have hsort := reordered_sort (h := h) acc
              have hlast := reordered_nilLast (acc.sort h)
              exact ⟨_, ⟨hsort.members.trans hlast.members, hlast.present.trans hsort.present,
                hlast.hashed.trans hsort.hashed, hlast.takenFrom.trans hsort.takenFrom⟩, rfl⟩
            · have hlast := reordered_nilLast { acc with sorted := false, appended := 0 }
              exact ⟨_, ⟨hlast.members, hlast.present, hlast.hashed, hlast.takenFrom⟩, rfl⟩

section

variable {acc : FoldMembers} {S : Set LuaValue} (hm : FoldMean classes isClass S (.Members acc))
include hm

theorem means_settle : FoldMean classes isClass S (acc.settle h) := by
  obtain ⟨-, heq⟩ | ⟨-, hnil | ⟨t, hone, heq⟩ | ⟨-, acc', hre, heq⟩⟩ := settle_cases (h := h) acc
  · rw [heq]
    exact hm
  · exact absurd hnil hm.2.1
  · rw [heq]
    show Means classes isClass [t] S
    rw [← hone]
    exact hm.1.means
  · rw [heq]
    obtain ⟨⟨hmeans, hhashed⟩, hne, htype⟩ := hm
    rw [← hre.hashed] at hhashed
    rw [← hre.takenFrom] at htype
    exact ⟨⟨hmeans.perm hre.members, hhashed⟩, fun hnil => hne (hnil ▸ hre.members).eq_nil, htype⟩

theorem means_foldMembers_intoType : Means classes isClass [acc.intoType h] S := by
  unfold FoldMembers.intoType
  split
  · next t ht => exact hm.2.2 t ht
  · exact means_unionFromVec hm.2.1 hm.1.means

end

theorem means_fromType {t : LuaType} {S : Set LuaValue} (hm : Means classes isClass [t] S) :
    FoldMean classes isClass S (FoldAcc.fromType h t) := by
  unfold FoldAcc.fromType
  split
  · next u =>
      split
      · exact hm
      · have hu : Denotable isClass (.Union u) := hm.denotable _ (.head _)
        have hS : values classes (.Union u) = S := by
          rw [← hm.exact, valuesAny_singleton]
        refine ⟨⟨hS ▸ .intoVec hu, ?_⟩, denotable_intoVec_ne_nil hu, ?_⟩
        · rw [← hS, values_union]
          apply valuesAny_mono
          intro k hk
          obtain hk | hk := mem_foldl_hashInsert _ [] k hk
          · cases hk
          · exact (List.mem_filter.1 hk).1
        · intro t ht
          cases ht
          exact hm
  · exact hm

theorem means_foldAcc_intoType {acc : FoldAcc} {S : Set LuaValue}
    (hm : FoldMean classes isClass S acc) : Means classes isClass [acc.intoType h] S := by
  match acc, hm with
  | .Type t, hm => exact hm
  | .Members acc, hm => exact means_foldMembers_intoType hm

/-- The pairwise step on what the accumulator stands for. -/
theorem means_pairwise {s : LuaType} {S : Set LuaValue} (hm : Means classes isClass [s] S)
    (t : LuaType) (ht : Denotable isClass t) :
    FoldMean classes isClass (S ∪ values classes t)
      (FoldAcc.fromType h (unionTypeShallow h s t)) := by
  apply means_fromType
  have hS : values classes s = S := by rw [← hm.exact, valuesAny_singleton]
  rw [← hS]
  exact means_unionTypeImpl s t (hm.denotable s (.head _)) ht

theorem means_push {acc : FoldAcc} {S : Set LuaValue} (hm : FoldMean classes isClass S acc)
    (t : LuaType) (ht : Denotable isClass t) :
    FoldMean classes isClass (S ∪ values classes t) (acc.push h t) := by
  unfold FoldAcc.push
  split
  · next acc =>
      split
      · apply means_settle
        have hsp : Means classes isClass t.spliced (values classes t) := means_spliced ht
        rw [← hsp.exact]
        exact means_foldl_foldMembers_absorb t.spliced acc S hsp.denotable hm
      · exact means_pairwise (means_foldMembers_intoType hm) t ht
  · exact means_pairwise hm t ht

section

variable (types : List LuaType)
include types

theorem means_foldl_push (acc : FoldAcc) (S : Set LuaValue)
    (hty : ∀ t ∈ types, Denotable isClass t) :
    FoldMean classes isClass S acc →
      FoldMean classes isClass (S ∪ valuesAny classes types) (types.foldl (FoldAcc.push h) acc) :=
  foldl_collects valuesAny_nil valuesAny_cons (FoldMean classes isClass)
    types S acc fun t ht _ _ hm => means_push hm t (hty t ht)

theorem means_foldUnionShallow (hty : ∀ t ∈ types, Denotable isClass t) :
    Means classes isClass [foldUnionShallow h types] (valuesAny classes types) := by
  have hfold := means_foldl_push (h := h) types (.Type .Never) ∅ hty
    (means_never (.nil : Means classes isClass [] ∅))
  rw [Set.empty_union] at hfold
  exact means_foldAcc_intoType hfold

/-! ## §5. The constructors -/

theorem means_fromVecStructural_types (hty : ∀ t ∈ types, Denotable isClass t) (hne : types ≠ []) :
    Means classes isClass [fromVecStructural h types] (valuesAny classes types) :=
  means_fromVecStructural hne ⟨hty, rfl⟩

/-- Whichever way is taken. -/
theorem means_unionTypeAllMode (inferred : Bool) (hty : ∀ t ∈ types, Denotable isClass t)
    (hne : types ≠ []) :
    Means classes isClass [unionTypeAllMode h types inferred] (valuesAny classes types) := by
  unfold unionTypeAllMode
  split
  · exact means_fromVecStructural_types types hty hne
  · split
    · exact means_fromVecStructural_types types hty hne
    · split
      · split
        · exact means_unionAllAbsorbedInferred types hty
        · exact means_foldUnionShallow types hty
      · split
        · exact means_unionAllAbsorbedInferred types hty
        · exact means_unionAllAbsorbed types hty

theorem means_fromVec (hty : ∀ t ∈ types, Denotable isClass t) (hne : types ≠ []) :
    Means classes isClass [fromVec h types] (valuesAny classes types) := by
  unfold fromVec
  split
  · exact means_fromVecStructural_types types hty hne
  · exact means_unionTypeAllMode types false hty hne

theorem means_fromInferredVec (hty : ∀ t ∈ types, Denotable isClass t) (hne : types ≠ []) :
    Means classes isClass [fromInferredVec h types] (valuesAny classes types) := by
  have hm : Means classes isClass [unionTypeAllMode h types true] (valuesAny classes types) :=
    means_unionTypeAllMode types true hty hne
  unfold fromInferredVec
  generalize unionTypeAllMode h types true = r at hm
  unfold inferredOrder
  split
  · next members =>
      have hu : Denotable isClass (.Union (.Multi members)) := hm.denotable _ (.head _)
      have hS : values classes (.Union (.Multi members)) = valuesAny classes types := by
        rw [← hm.exact, valuesAny_singleton]
      rw [← hS]
      exact means_unionFromInferredVec (denotable_intoVec_ne_nil hu) (Means.intoVec hu)
  · exact hm

end

/-- The names that are no aliases. -/
def IsClass (db : DbIndex) (id : LuaTypeDeclId) : Prop := refersToAlias db (.Ref id) = false

theorem not_refersToAlias (db : DbIndex) (s : LuaType) (hs : Denotable (IsClass db) s) :
    refersToAlias db s = false := by
  cases hs with
  | ref id hclass => exact hclass
  | _ => rfl

theorem means_foldl_unionType (db : DbIndex) (types : List LuaType) (s : LuaType)
    (S : Set LuaValue) (hty : ∀ t ∈ types, Denotable (IsClass db) t) :
    Means classes (IsClass db) [s] S →
      Means classes (IsClass db) [types.foldl (unionType h db) s]
        (S ∪ valuesAny classes types) := by
  refine foldl_collects valuesAny_nil valuesAny_cons
    (fun S s => Means classes (IsClass db) [s] S) types S s ?_
  intro t ht S s hm
  have hs : Denotable (IsClass db) s := hm.denotable s (.head _)
  unfold unionType
  rw [getRealType_getD db s (not_refersToAlias db s hs), ← hm.exact, valuesAny_singleton]
  exact means_unionTypeImpl s t hs (hty t ht)

theorem means_foldUnionType (db : DbIndex) (types : List LuaType)
    (hty : ∀ t ∈ types, Denotable (IsClass db) t) :
    Means classes (IsClass db) [foldUnionType h db types] (valuesAny classes types) := by
  have hfold := means_foldl_unionType (h := h) db types .Never ∅ hty
    (means_never (.nil : Means classes (IsClass db) [] ∅))
  rw [Set.empty_union] at hfold
  exact hfold

theorem means_unionAll (db : DbIndex) (types : List LuaType)
    (hty : ∀ t ∈ types, Denotable (IsClass db) t) :
    Means classes (IsClass db) [unionAll h db types] (valuesAny classes types) := by
  unfold unionAll
  split
  · exact means_never ⟨hty, rfl⟩
  · exact ⟨hty, rfl⟩
  · next hne _ =>
      split
      · exact means_fromVecStructural_types types hty hne
      · exact means_foldUnionType db types hty

/-- The values a meaning says a type has. -/
theorem Means.denotes_iff {t : LuaType} {types : List LuaType}
    (hm : Means classes isClass [t] (valuesAny classes types)) (v : LuaValue) :
    Denotes classes t v ↔ DenotesAny classes types v := by
  rw [← denotesAny_singleton t v]
  exact Set.ext_iff.1 hm.exact v

/-- The empty list. -/
theorem fromVec_nil : fromVec h [] = .Nil ∧ fromInferredVec h [] = .Nil := ⟨rfl, rfl⟩

theorem denotes_nil_iff (v : LuaValue) : Denotes classes .Nil v ↔ v = .nil := by
  constructor
  · intro hv
    cases hv
    rfl
  · intro hv
    exact hv ▸ .nil

/-- **Every constructor returns a type of exactly the values of the types it is given**:
    `from_vec` and `from_inferred_vec` (nil for the empty list), `union_all` and the pairwise
    fold (nothing for the empty list). -/
theorem union_constructors_exact (h : Hashing) (db : DbIndex) (classes : Classes)
    (types : List LuaType) (hty : ∀ t ∈ types, Denotable (IsClass db) t) (v : LuaValue) :
    (Denotes classes (fromVec h types) v ↔
        (types = [] ∧ v = .nil) ∨ DenotesAny classes types v) ∧
      (Denotes classes (fromInferredVec h types) v ↔
        (types = [] ∧ v = .nil) ∨ DenotesAny classes types v) ∧
      (Denotes classes (unionAll h db types) v ↔ DenotesAny classes types v) ∧
      (Denotes classes (foldUnionType h db types) v ↔ DenotesAny classes types v) := by
  refine ⟨?_, ?_, (means_unionAll db types hty).denotes_iff v,
    (means_foldUnionType db types hty).denotes_iff v⟩
  · cases types with
    | nil =>
      rw [fromVec_nil.1, denotes_nil_iff]
      simp [denotesAny_nil]
    | cons t types =>
      rw [(means_fromVec _ hty (List.cons_ne_nil t types)).denotes_iff v]
      simp
  · cases types with
    | nil =>
      rw [fromVec_nil.2, denotes_nil_iff]
      simp [denotesAny_nil]
    | cons t types =>
      rw [(means_fromInferredVec _ hty (List.cons_ne_nil t types)).denotes_iff v]
      simp

/-- No class has instances. -/
def noClasses : Classes := fun _ _ => False

theorem union_constructors_exact_three :
    (∀ t ∈ [LuaType.IntegerConst 1, .Nil, .Integer], Denotable (IsClass noDecls) t) ∧
      (Denotes noClasses (fromVec plainHashing [.IntegerConst 1, .Nil, .Integer]) (.integer 1) ↔
        ([LuaType.IntegerConst 1, .Nil, .Integer] = [] ∧ LuaValue.integer 1 = .nil)
          ∨ DenotesAny noClasses [.IntegerConst 1, .Nil, .Integer] (.integer 1)) := by
  have hty : ∀ t ∈ [LuaType.IntegerConst 1, .Nil, .Integer], Denotable (IsClass noDecls) t := by
    intro t ht
    simp only [List.mem_cons, List.not_mem_nil, or_false] at ht
    obtain rfl | rfl | rfl := ht
    · exact .integerConst 1
    · exact .nil
    · exact .integer
  exact ⟨hty, (union_constructors_exact plainHashing noDecls noClasses _ hty (.integer 1)).1⟩

/-- **`from_inferred_vec` of nothing is nil**, and so is the union of empty unions: values
    that no listed type has. -/
theorem union_constructors_inexact :
    (Denotes noClasses (fromInferredVec plainHashing []) .nil ∧ ¬ DenotesAny noClasses [] .nil) ∧
      Denotes noClasses (foldUnionType plainHashing noDecls
        [.Union (.Multi [.Union (.Multi []), .Union (.Multi [])]), .Union (.Multi [])]) .nil ∧
      ¬ DenotesAny noClasses
        [.Union (.Multi [.Union (.Multi []), .Union (.Multi [])]), .Union (.Multi [])] .nil := by
  refine ⟨⟨.nil, denotesAny_nil _⟩, .nil, ?_⟩
  rintro ⟨t, ht, hv⟩
  simp only [List.mem_cons, List.not_mem_nil, or_false] at ht
  obtain rfl | rfl := ht
  · obtain ⟨s, hs, hv⟩ := (denotes_union _ _).1 hv
    simp only [LuaUnionType.intoVec, List.mem_cons, List.not_mem_nil, or_false, or_self] at hs
    subst hs
    obtain ⟨s, hs, _⟩ := (denotes_union _ _).1 hv
    cases hs
  · obtain ⟨s, hs, _⟩ := (denotes_union _ _).1 hv
    cases hs

end LuaType

end GluaLs.Types
