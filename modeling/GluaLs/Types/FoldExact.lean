/-
  GluaLs.Types.FoldExact — the fold on a member list against the pairwise fold
  (`fold_union_shallow` of `db_index/type/type_ops/union_type.rs`).

  Beside the pairwise fold the accumulator is either the same type, or the member list of
  the same union (`Sim`).  A step keeps that, with one exception: where the next type is the
  accumulated union again, the pairwise step finds the two equal and leaves the union, and
  the list absorbs the union's members into themselves.  That shows if two of them collapse
  (`RepeatsCollapsing`), as in `string|"a"`, and only then.
-/
import GluaLs.Types.MemberList

namespace GluaLs.Types

open GluaLs.Lib LuaType

namespace LuaType

variable {h : Hashing}

/-! ## §1. Unions that are given back

  From types whose unions are given back by their members, a step makes such a type again:
  a union has two members or more, and where they are distinct and no unions themselves it
  is canonical (`accOk_unionTypeShallow`).  The sorted insert is the one step that does not
  build its union; it adds to one that is in order, or to one with a union among its members
  or a member twice, which the longer union then has too.
-/

/-- The members of the union, two or more, are built to it. -/
def GivenBack (h : Hashing) (u : LuaUnionType) : Prop :=
  2 ≤ u.intoVec.length ∧ LuaUnionType.fromVec h u.intoVec = u

/-- No float zero and no NaN in the type, and every union in it is given back. -/
structure FoldInput (h : Hashing) (t : LuaType) : Prop where
  definite : Definite t
  unions : ∀ u, Holds (fun s => s = .Union u) t → GivenBack h u

theorem FoldInput.of_leaf {t : LuaType} (hdefinite : Definite t) (hunion : t.isUnion = false)
    (hparts : t.parts = []) : FoldInput h t := by
  refine ⟨hdefinite, ?_⟩
  intro u hu
  cases hu with
  | here heq =>
    rw [heq] at hunion
    cases hunion
  | part hs _ =>
    rw [hparts] at hs
    cases hs

theorem FoldInput.of_mem_intoVec {u : LuaUnionType} (hu : FoldInput h (.Union u)) {m : LuaType}
    (hm : m ∈ u.intoVec) : FoldInput h m := by
  by_cases hnil : m = .Nil
  · rw [hnil]
    exact .of_leaf (Definite.of_parts nofun nofun) rfl rfl
  · have hpart : m ∈ (Union u).parts := by
      cases u with
      | Nullable t =>
        rcases List.mem_cons.1 hm with rfl | hm
        · exact .head _
        · exact absurd (List.mem_singleton.1 hm) hnil
      | Multi types => exact hm
    exact ⟨hu.definite.part hpart, fun w hw => hu.unions w (.part hpart hw)⟩

/-! ## §2. Accumulated types -/

/-- What an accumulated type has for members. -/
def Part (h : Hashing) (m : LuaType) : Prop :=
  Definite m ∧ (m.isUnion = true → FoldInput h m)

theorem FoldInput.part {t : LuaType} (ht : FoldInput h t) : Part h t :=
  ⟨ht.definite, fun _ => ht⟩

theorem Part.of_mem_spliced {t : LuaType} (ht : Part h t) {m : LuaType} (hm : m ∈ t.spliced) :
    Part h m := by
  cases hunion : t.isUnion with
  | true =>
    cases t with
    | Union u => exact ((ht.2 hunion).of_mem_intoVec hm).part
    | _ => cases hunion
  | false =>
    rw [spliced_eq_self t hunion] at hm
    exact List.mem_singleton.1 hm ▸ ht

/-- An accumulated type.  A union has two members or more, and is canonical if they are
distinct and no unions. -/
structure AccOk (h : Hashing) (source : LuaType) : Prop where
  two : ∀ u, source = .Union u → 2 ≤ u.intoVec.length
  canonical : ∀ u, source = .Union u → (∀ m ∈ u.intoVec, m.isUnion = false) →
    u.intoVec.Pairwise (fun a b => a.eq b = false) → CanonicalUnion h u
  part : ∀ m ∈ source.spliced, Part h m

theorem AccOk.of_part {t : LuaType} (ht : Part h t) : AccOk h t := by
  refine ⟨?_, ?_, fun m hm => ht.of_mem_spliced hm⟩
  · rintro u rfl
    exact ((ht.2 rfl).unions u (.here rfl)).1
  · rintro u rfl hplain hapart
    obtain ⟨htwo, hback⟩ := (ht.2 rfl).unions u (.here rfl)
    exact ⟨htwo, hplain, hapart, hback⟩

theorem AccOk.atom_part {source : LuaType} (hacc : AccOk h source)
    (hunion : source.isUnion = false) : Part h source := by
  apply hacc.part
  rw [spliced_eq_self source hunion]
  exact .head _

/-- What is built of such members. -/
theorem accOk_fromVecStructural {members : List LuaType} (hparts : ∀ m ∈ members, Part h m) :
    AccOk h (fromVecStructural h members) := by
  match members, hparts with
  | [], _ => exact .of_part ⟨Definite.of_parts nofun nofun, nofun⟩
  | [t], hparts => exact .of_part (hparts t (.head _))
  | a :: b :: rest, hparts =>
    have hflat : ∀ m ∈ (a :: b :: rest).flatMap spliced, Part h m := by
      intro m hm
      obtain ⟨t, ht, hm⟩ := List.mem_flatMap.1 hm
      exact (hparts t ht).of_mem_spliced hm
    have hsame : Same ((a :: b :: rest).flatMap spliced) :=
      fun s hs t _ heq => ((hflat s hs).1.eq_iff t).1 heq
    rw [fromVecStructural_two _ (by simp), foldl_pushDedup_eq _ fun _ => hsame]
    have hapart : (firstOccurrences eq ((a :: b :: rest).flatMap spliced)).Pairwise
        fun s t => s.eq t = false := pairwise_firstOccurrencesAfter _ []
    have hfirst : ∀ m ∈ firstOccurrences eq ((a :: b :: rest).flatMap spliced),
        Part h m := fun m hm => hflat m (mem_of_mem_firstOccurrencesAfter _ _ hm)
    generalize firstOccurrences eq ((a :: b :: rest).flatMap spliced) = members
      at hapart hfirst ⊢
    match members, hfirst with
    | [], _ => exact .of_part ⟨Definite.of_parts nofun nofun, nofun⟩
    | [t], hfirst => exact .of_part (hfirst t (.head _))
    | c :: d :: rest, hfirst =>
      have hperm :=
        (intoVec_fromVec (h := h) hapart).1
      have htwo : 2 ≤ (c :: d :: rest).length := by simp
      rw [ofResultTypes_two _ htwo]
      generalize c :: d :: rest = members at *
      refine ⟨?_, ?_, fun m hm => hfirst m (hperm.mem_iff.1 hm)⟩
      · rintro u ⟨⟩
        rw [hperm.length_eq]
        exact htwo
      · rintro u ⟨⟩ hplain _
        exact canonicalUnion_fromVec (fun m hm => hplain m (hperm.mem_iff.2 hm)) hapart htwo

theorem accOk_absorbAll {members types : List LuaType} (hmembers : ∀ m ∈ members, Part h m)
    (hty : ∀ t ∈ types, Part h t) : AccOk h (fromVecStructural h (absorbAll members types)) :=
  accOk_fromVecStructural
    (all_foldl_absorb ⟨FoldMember.boolean.definite, nofun⟩ types hty _ hmembers)

/-! ## §3. The step -/

/-- A type put into an accumulated union where the search ended. -/
theorem accOk_sortedInsert {u : LuaUnionType} (hacc : AccOk h (.Union u)) {t r : LuaType}
    (ht : Part h t) (hunion : t.isUnion = false)
    (hinsert : unionSortedInsert h u (.Union u) t = some r) : AccOk h r := by
  by_cases hgood : (∀ m ∈ u.intoVec, m.isUnion = false) ∧
      u.intoVec.Pairwise fun a b => a.eq b = false
  · have hcan := hacc.canonical u rfl hgood.1 hgood.2
    obtain hr | ⟨-, hr, -⟩ := unionSortedInsert_eq hcan hunion ht.1 hinsert
    · rw [hr]
      exact accOk_absorbAll hacc.part fun s hs => List.mem_singleton.1 hs ▸ ht
    · rw [hr]
      exact hacc
  · -- a union among the members, or a member twice, is in the longer list too
    obtain ⟨members, rfl, -, ⟨-, rfl⟩ | ⟨-, rfl⟩⟩ := unionSortedInsert_cases hinsert
    · have hperm := perm_inserted h members t
      have htwo := hacc.two _ rfl
      refine ⟨?_, ?_, ?_⟩
      · rintro u ⟨⟩
        show 2 ≤ (smallerMembers h members t ++ t :: largerMembers h members t).length
        rw [hperm.length_eq, List.length_cons]
        have htwo' : 2 ≤ members.length := htwo
        omega
      · rintro u ⟨⟩ hplain hapart
        refine absurd ⟨?_, ?_⟩ hgood
        · exact fun m hm => hplain m (hperm.mem_iff.2 (.tail t hm))
        · exact (List.pairwise_cons.1 (pairwise_perm hperm.symm hapart)).2
      · intro m hm
        obtain rfl | hm := List.mem_cons.1 (hperm.mem_iff.1 hm)
        · exact ht
        · exact hacc.part m hm
    · exact hacc

theorem accOk_joinMembers {source t : LuaType} (hacc : AccOk h source) (ht : Part h t) :
    AccOk h (joinMembers h source source t) := by
  have hsingle : ∀ m ∈ [t], Part h m := fun m hm => List.mem_singleton.1 hm ▸ ht
  have hway := joinMembers_way (h := h) source t
  generalize joinMembers h source source t = r at hway
  cases hway with
  | source => exact hacc
  | target => exact .of_part ht
  | pair hunion =>
    exact accOk_fromVecStructural (List.forall_mem_cons.2 ⟨hacc.atom_part hunion, hsingle⟩)
  | unions u w hs ht' =>
    subst hs ht'
    exact accOk_absorbAll hacc.part fun m hm => ht.of_mem_spliced hm
  | insert u r hs hunion hinsert =>
    subst hs
    exact accOk_sortedInsert hacc ht hunion hinsert
  | absorb u hs hunion =>
    subst hs
    exact accOk_absorbAll hacc.part hsingle
  | into w hunion ht' =>
    subst ht'
    exact accOk_absorbAll (fun m hm => ht.of_mem_spliced hm)
      fun m hm => List.mem_singleton.1 hm ▸ hacc.atom_part hunion

theorem accOk_nullableAny : AccOk h nullableAnyType := by
  refine ⟨?_, ?_, ?_⟩
  · rintro u ⟨⟩
    exact Nat.le_refl 2
  · rintro u ⟨⟩ hplain hapart
    refine ⟨Nat.le_refl 2, hplain, hapart, ?_⟩
    rw [fromVec_unordered ⟨rfl, hapart⟩ (Nat.le_refl 2)]
    exact fromNormalizedVec_pair .Any nofun _ (sortTypes_perm _)
  · intro m hm
    have hm : m ∈ [Any, .Nil] := hm
    simp only [List.mem_cons, List.not_mem_nil, or_false] at hm
    obtain rfl | rfl := hm <;> exact ⟨Definite.of_parts nofun nofun, nofun⟩

/-- **A step of the pairwise fold keeps what it accumulates in order.** -/
theorem accOk_unionTypeShallow {source t : LuaType} (hacc : AccOk h source) (ht : FoldInput h t) :
    AccOk h (unionTypeShallow h source t) := by
  unfold unionTypeShallow unionTypeImpl
  split
  · exact accOk_nullableAny
  · split
    · exact accOk_nullableAny
    · split
      · exact .of_part ⟨Definite.of_parts nofun nofun, nofun⟩
      · split
        · rename_i merged hmerged
          cases tryCollapse_cases source t merged hmerged with
          | neverLeft _ hr => exact hr ▸ .of_part ht.part
          | neverRight _ hr | left _ hr | equal _ hr => exact hr ▸ hacc
          | right _ hr => exact hr ▸ .of_part ht.part
          | booleans _ _ _ hr => exact hr ▸ .of_part ⟨FoldMember.boolean.definite, nofun⟩
        · exact accOk_joinMembers hacc ht.part

/-! ## §4. The simulation -/

/-- The list is the member list of the union, and in order. -/
structure MembersSim (h : Hashing) (acc : FoldMembers) (u : LuaUnionType) : Prop where
  ok : ListOk h acc
  members : acc.members = u.intoVec
  canonical : CanonicalUnion h u
  taken : ∀ t, acc.takenFrom = some t → t = .Union u

/-- A union that is taken up as its members: distinct ones that the list steps into. -/
def Listed (source : LuaType) : Prop :=
  source.isUnion = true ∧ stepsInMembers source = true ∧
    source.spliced.Pairwise fun a b => a.eq b = false

/-- The accumulator stands for the type. -/
inductive Sim (h : Hashing) : FoldAcc → LuaType → Prop
  | type {source} : ¬ Listed source → Sim h (.Type source) source
  | members {acc u} : MembersSim h acc u → Sim h (.Members acc) (.Union u)

theorem MembersSim.intoType {acc : FoldMembers} {u : LuaUnionType} (hsim : MembersSim h acc u) :
    acc.intoType h = .Union u := by
  unfold FoldMembers.intoType
  split
  · rename_i t htaken
    exact hsim.taken t htaken
  · rw [hsim.members, hsim.canonical.fromVec]

theorem Sim.intoType {acc : FoldAcc} {source : LuaType} (hsim : Sim h acc source) :
    acc.intoType h = source := by
  cases hsim with
  | type _ => rfl
  | members hsim => exact hsim.intoType

theorem apart_of_allNew {types : List LuaType} (hdefinite : ∀ t ∈ types, Definite t) :
    ∀ seen : List LuaType, allNew h seen types = true →
      types.Pairwise (fun a b => a.eq b = false) ∧ ∀ s ∈ seen, ∀ t ∈ types, s ≠ t := by
  induction types with
  | nil => exact fun _ _ => ⟨.nil, nofun⟩
  | cons t types ih =>
    intro seen hnew
    obtain ⟨hfirst, hrest⟩ := Bool.and_eq_true_iff.1 hnew
    have ht := hdefinite t (.head _)
    have hcontains : h.set.contains seen t = false := by
      unfold hashInsert at hfirst
      split at hfirst
      · cases hfirst
      · rename_i hnot
        exact Bool.not_eq_true _ ▸ hnot
    have hseen : (hashInsert h seen t).2 = seen ++ [t] := by
      unfold hashInsert
      rw [hcontains]
      rfl
    rw [hseen] at hrest
    obtain ⟨hapart, hother⟩ := ih (List.forall_mem_cons.1 hdefinite).2 _ hrest
    refine ⟨List.pairwise_cons.2 ⟨?_, hapart⟩, ?_⟩
    · intro s hs
      rw [← Bool.not_eq_true, ht.eq_iff]
      exact hother t (List.mem_append_right _ (.head _)) s hs
    · intro s hs x hx
      obtain rfl | hx := List.mem_cons.1 hx
      · rintro rfl
        rw [h.set.contains_of_mem seen s hs ((ht.eq_iff s).2 rfl)] at hcontains
        cases hcontains
      · exact hother s (List.mem_append_left _ hs) x hx

theorem allNew_of_apart {types : List LuaType} : ∀ seen : List LuaType,
    (seen ++ types).Pairwise (fun a b => a.eq b = false) → allNew h seen types = true := by
  induction types with
  | nil => exact fun _ _ => rfl
  | cons t types ih =>
    intro seen hapart
    have hcontains : h.set.contains seen t = false := by
      rw [← Bool.not_eq_true]
      intro hcontains
      obtain ⟨s, hs, heq⟩ := h.set.eq_of_contains seen t hcontains
      rw [(List.pairwise_append.1 hapart).2.2 s hs t List.mem_cons_self] at heq
      cases heq
    have hinsert : hashInsert h seen t = (true, seen ++ [t]) := by
      unfold hashInsert
      rw [hcontains]
      rfl
    unfold allNew
    rw [hinsert, ih _ (by simpa using hapart)]
    rfl

/-- What steps into the members is made of members. -/
theorem foldMember_of_steps {t : LuaType} (hsteps : stepsInMembers t = true)
    (hdefinite : ∀ m ∈ t.spliced, Definite m) : ∀ m ∈ t.spliced, FoldMember m := by
  cases hunion : t.isUnion with
  | true =>
    obtain ⟨u, rfl⟩ := exists_union hunion
    intro m hm
    have hplain := List.all_eq_true.1 hsteps m hm
    simp only [Bool.not_eq_true', Bool.or_eq_false_iff] at hplain
    refine ⟨hdefinite m hm, ?_, hplain.1.2, hplain.2⟩
    rintro rfl
    cases hplain.1.1
  | false =>
    intro m hm
    have hmem := hm
    rw [spliced_eq_self t hunion] at hm
    obtain rfl := List.mem_singleton.1 hm
    refine ⟨hdefinite m hmem, ?_, hunion, ?_⟩
    · rintro rfl
      cases hsteps
    · cases m <;> first | rfl | cases hsteps

theorem membersSim_taken {u : LuaUnionType} (hlist : MemberList FoldMember u.intoVec)
    (hcan : CanonicalUnion h u) : MembersSim h (takenMembers h u) u := by
  refine ⟨⟨hlist, hashOk_takenMembers hlist, nofun⟩, rfl, hcan, ?_⟩
  rintro t ⟨⟩
  rfl

theorem fromType_union (u : LuaUnionType) :
    FoldAcc.fromType h (.Union u) =
      if u.intoVec.length < 2 || !stepsInMembers (.Union u) || !allNew h [] u.intoVec then
        .Type (.Union u)
      else .Members (takenMembers h u) := rfl

/-- **A type is taken up as its members**, or as it is. -/
theorem sim_fromType {source : LuaType} (hacc : AccOk h source) :
    Sim h (FoldAcc.fromType h source) source := by
  cases hunion : source.isUnion with
  | true =>
    obtain ⟨u, rfl⟩ := exists_union hunion
    rw [fromType_union]
    split
    · rename_i hguard
      refine .type ?_
      rintro ⟨-, hsteps, hapart⟩
      have htwo := hacc.two u rfl
      have hnew : allNew h [] u.intoVec = true := allNew_of_apart [] hapart
      rw [hsteps, hnew] at hguard
      simp only [Bool.not_true, Bool.or_false, decide_eq_true_eq] at hguard
      omega
    · rename_i hguard
      simp only [Bool.or_eq_true, decide_eq_true_eq, not_or, Bool.not_eq_true', Bool.not_eq_false]
        at hguard
      obtain ⟨⟨-, hsteps⟩, hnew⟩ := hguard
      have hdefinite : ∀ m ∈ u.intoVec, Definite m := fun m hm => (hacc.part m hm).1
      have hmembers := foldMember_of_steps hsteps hdefinite
      obtain ⟨hapart, -⟩ := apart_of_allNew hdefinite [] hnew
      have hcan := hacc.canonical u rfl (fun m hm => (hmembers m hm).union) hapart
      exact .members (membersSim_taken ⟨hmembers, hapart⟩ hcan)
  | false =>
    have hfrom : FoldAcc.fromType h source = .Type source := by
      cases source <;> first | rfl | cases hunion
    rw [hfrom]
    refine .type fun hlisted => ?_
    rw [hlisted.1] at hunion
    cases hunion

/-! ## §5. The step on the list -/

/-- Building the members that absorbing leaves. -/
theorem sim_settle {acc : FoldMembers} {u : LuaUnionType} (hsim : MembersSim h acc u)
    {types : List LuaType} (hty : ∀ t ∈ types, FoldMember t) :
    Sim h ((types.foldl (FoldMembers.absorb h) acc).settle h)
      (fromVecStructural h (types.foldl absorbMember u.intoVec)) := by
  obtain ⟨hok, hmembers, htaken⟩ := listOk_foldl_absorb types hty acc hsim.ok
  rw [hsim.members] at hmembers htaken
  generalize types.foldl (FoldMembers.absorb h) acc = acc' at hok hmembers htaken
  rw [← hmembers]
  obtain ⟨hsome, hsettle⟩ | ⟨hfrom, hnil | ⟨t, hone, hsettle⟩ | ⟨htwo, -⟩⟩ :=
    settle_cases (h := h) acc'
  · -- nothing was added, so the list still is the one of the union
    obtain ⟨t, hfrom⟩ := Option.isSome_iff_exists.1 hsome
    obtain ⟨ht, hsame⟩ := htaken t hfrom
    rw [hsettle, hmembers, hsame, hsim.canonical.build]
    refine .members ⟨hok, hmembers.trans hsame, hsim.canonical, ?_⟩
    intro s hs
    rw [hfrom] at hs
    cases hs
    exact hsim.taken t ht
  · have hne : u.intoVec ≠ [] := by
      intro hempty
      have htwo := hsim.canonical.two
      rw [hempty] at htwo
      cases htwo
    have hleft := absorbAll_ne_nil u.intoVec types hne
    rw [absorbAll_eq _ _ fun t ht => (hty t ht).never] at hleft
    exact absurd (hmembers.symm.trans hnil) hleft
  · have ht := (hok.list.member t (by simp [hone])).union
    rw [hsettle, hone]
    refine .type fun hlisted => ?_
    rw [hlisted.1] at ht
    cases ht
  · rw [fromVecStructural_plain _ htwo (fun m hm => (hok.list.member m hm).union) hok.list.apart]
    obtain ⟨acc'', hsettle, hok', hfrom', hmembers'⟩ := settle_exact hok hfrom htwo
    rw [hsettle]
    refine .members ⟨hok', hmembers', ?_, ?_⟩
    · exact canonicalUnion_fromVec (fun m hm => (hok.list.member m hm).union) hok.list.apart htwo
    · intro t ht
      rw [hfrom'] at ht
      cases ht

/-- What the pairwise step makes of a union and what steps into its members. -/
theorem unionTypeShallow_steps {u : LuaUnionType} (hcan : CanonicalUnion h u) {t : LuaType}
    (hsteps : stepsInMembers t = true) (ht : Definite t) (hne : Union u ≠ t) :
    unionTypeShallow h (.Union u) t =
      fromVecStructural h (t.spliced.foldl absorbMember u.intoVec) := by
  have hmembers := foldMember_of_steps hsteps fun m hm => ht.of_mem_spliced hm
  rw [← absorbAll_eq _ _ fun m hm => (hmembers m hm).never]
  have hany : t.isAny = false := by
    cases t <;> first | rfl | cases hsteps
  unfold unionTypeShallow
  rw [unionTypeImpl_eq (.Union u) t rfl hany]
  cases hunion : t.isUnion with
  | true =>
    obtain ⟨w, rfl⟩ := exists_union hunion
    cases hr : tryCollapse (.Union u) (.Union u) (.Union w) with
    | none => rfl
    | some r =>
      have heq : (Union w).eq (.Union u) = true := by
        rw [(lawfulAt _).symm]
        exact (tryCollapse_union hr (.inl rfl) nofun nofun).2
      exact absurd ((ht.eq_iff _).1 heq).symm hne
  | false =>
    have hspliced := spliced_eq_self t hunion
    rw [hspliced] at hmembers ⊢
    have htm := hmembers t (.head _)
    rw [tryCollapse_union_left u t hunion htm.never,
      joinMembers_union_atom u t ⟨hunion, htm.multiLine⟩]
    cases hinsert : unionSortedInsert h u (.Union u) t with
    | none => rfl
    | some r =>
      obtain hr | ⟨-, hr, hlong⟩ := unionSortedInsert_eq hcan hunion ht hinsert
      · exact hr
      · exact hr.trans hlong.symm

/-- The accumulated union is the next type again, and two of its members collapse. -/
def RepeatsCollapsing (source t : LuaType) : Prop :=
  source = t ∧ Listed t ∧ ∃ a ∈ t.spliced, ∃ b ∈ t.spliced, a ≠ b ∧ tryCollapse a a b ≠ none

theorem push_members {acc : FoldMembers} {t : LuaType} (hsteps : stepsInMembers t = true) :
    FoldAcc.push h (.Members acc) t = (t.spliced.foldl (FoldMembers.absorb h) acc).settle h := by
  show (if stepsInMembers t then _ else _) = _
  rw [if_pos hsteps]

/-- The pairwise step finds a union again. -/
theorem unionTypeShallow_self {u : LuaUnionType} (hu : Definite (.Union u)) :
    unionTypeShallow h (.Union u) (.Union u) = .Union u := by
  unfold unionTypeShallow
  rw [unionTypeImpl_eq _ _ rfl rfl, tryCollapse_of_eq _ _ ((hu.eq_iff _).2 rfl)]

/-- **A step of the list is the pairwise step**, but for a union that comes again. -/
theorem sim_push {acc : FoldAcc} {source : LuaType} (hsim : Sim h acc source)
    (hacc : AccOk h source) {t : LuaType} (ht : FoldInput h t)
    (hstep : ¬ RepeatsCollapsing source t) :
    Sim h (acc.push h t) (unionTypeShallow h source t) := by
  have hgeneral := sim_fromType (accOk_unionTypeShallow hacc ht)
  cases hsim with
  | type _ => exact hgeneral
  | @members acc u hsim =>
    by_cases hsteps : stepsInMembers t = true
    · rw [push_members hsteps]
      have hmembers := foldMember_of_steps hsteps fun m hm => ht.definite.of_mem_spliced hm
      have hsettle := sim_settle hsim hmembers
      by_cases heq : Union u = t
      · subst heq
        have hlist : MemberList FoldMember u.intoVec := ⟨hmembers, hsim.canonical.apart⟩
        have hnone : ∀ a ∈ u.intoVec, ∀ b ∈ u.intoVec, a ≠ b → tryCollapse a a b = none := by
          intro a ha b hb hne
          by_contra hcollapse
          exact hstep ⟨rfl, ⟨rfl, hsteps, hlist.apart⟩, a, ha, b, hb, hne, hcollapse⟩
        have hself := foldl_absorbMember_self hlist hnone u.intoVec fun m hm => hm
        change Sim h _ (fromVecStructural h (u.intoVec.foldl absorbMember u.intoVec)) at hsettle
        rw [hself, hsim.canonical.build] at hsettle
        rwa [unionTypeShallow_self ht.definite]
      · rwa [unionTypeShallow_steps hsim.canonical hsteps ht.definite heq]
    · have hpush : FoldAcc.push h (.Members acc) t =
          FoldAcc.fromType h (unionTypeShallow h (.Union u) t) := by
        show (if stepsInMembers t then _ else _) = _
        rw [if_neg hsteps, hsim.intoType]
      rw [hpush]
      exact hgeneral

/-- **A union that comes again is taken apart by the list**, if two of its members collapse. -/
theorem push_ne {acc : FoldAcc} {source : LuaType} (hsim : Sim h acc source) {t : LuaType}
    (ht : FoldInput h t) (hstep : RepeatsCollapsing source t) :
    (acc.push h t).intoType h ≠ unionTypeShallow h source t := by
  obtain ⟨rfl, hlisted, a, ha, b, hb, hne, hcollapse⟩ := hstep
  cases hsim with
  | type hnot => exact absurd hlisted hnot
  | @members acc u hsim =>
    obtain ⟨-, hsteps, hapart⟩ := hlisted
    have hmembers := foldMember_of_steps hsteps fun m hm => ht.definite.of_mem_spliced hm
    have hsettle := (sim_settle hsim hmembers).intoType
    have hparted := apart_of_mem hne hcollapse hmembers ha ⟨hmembers, hapart⟩
    have hlist :=
      memberList_foldl collapsible_foldMember u.intoVec hmembers u.intoVec ⟨hmembers, hapart⟩
    rw [push_members hsteps, hsettle, unionTypeShallow_self ht.definite]
    change ¬ (a ∈ u.intoVec.foldl absorbMember u.intoVec ∧
      b ∈ u.intoVec.foldl absorbMember u.intoVec) at hparted
    change fromVecStructural h (u.intoVec.foldl absorbMember u.intoVec) ≠ _
    generalize u.intoVec.foldl absorbMember u.intoVec = members at hparted hlist
    intro hbuilt
    match members, hlist with
    | [], _ => cases hbuilt
    | [s], hlist =>
      have hs := (hlist.member s (.head _)).union
      have hbuilt : s = .Union u := hbuilt
      rw [hbuilt] at hs
      cases hs
    | c :: d :: rest, hlist =>
      rw [fromVecStructural_plain _ (by simp) (fun m hm => (hlist.member m hm).union)
        hlist.apart] at hbuilt
      have hperm :=
        (intoVec_fromVec (h := h) hlist.apart).1
      rw [LuaType.Union.inj hbuilt] at hperm
      exact hparted ⟨hperm.mem_iff.1 ha, hperm.mem_iff.1 hb⟩

/-! ## §6. The fold -/

/-- **The two folds from any state**: they agree all the way if and only if no union comes
again of which two members collapse. -/
theorem foldl_push_iff (types : List LuaType) (hin : ∀ t ∈ types, FoldInput h t) :
    ∀ (acc : FoldAcc) (source : LuaType), Sim h acc source → AccOk h source →
      ((∀ n, ((types.take n).foldl (FoldAcc.push h) acc).intoType h =
          (types.take n).foldl (unionTypeShallow h) source) ↔
        ∀ n t, types[n]? = some t →
          ¬ RepeatsCollapsing ((types.take n).foldl (unionTypeShallow h) source) t) := by
  induction types with
  | nil =>
    intro acc source hsim _
    refine ⟨fun _ n t ht => by simp at ht, fun _ n => ?_⟩
    rw [List.take_nil]
    exact hsim.intoType
  | cons t types ih =>
    intro acc source hsim hacc
    have ht := hin t (.head _)
    by_cases hstep : RepeatsCollapsing source t
    · refine ⟨fun hall => ?_, fun hnone => ?_⟩
      · exact absurd (hall 1) (push_ne hsim ht hstep)
      · exact absurd hstep (hnone 0 t rfl)
    · have hrest := ih (List.forall_mem_cons.1 hin).2 _ _
        (sim_push hsim hacc ht hstep) (accOk_unionTypeShallow hacc ht)
      refine ⟨fun hall n s hs => ?_, fun hnone n => ?_⟩
      · cases n with
        | zero =>
          cases hs
          exact hstep
        | succ n => exact hrest.1 (fun m => hall (m + 1)) n s hs
      · cases n with
        | zero => exact hsim.intoType
        | succ n => exact hrest.2 (fun m s hs => hnone (m + 1) s hs) n

theorem sim_never : Sim h (.Type .Never) .Never := .type fun hlisted => by cases hlisted.1

theorem accOk_never : AccOk h .Never := .of_part ⟨Definite.of_parts nofun nofun, nofun⟩

/-- **The incremental fold is the pairwise fold, prefix by prefix**, if and only if no step
gives the accumulated union again with two members that collapse; then it is for the list. -/
theorem foldUnionShallow_iff (h : Hashing) (types : List LuaType)
    (hin : ∀ t ∈ types, FoldInput h t) :
    ((∀ n, foldUnionShallow h (types.take n) =
        (types.take n).foldl (unionTypeShallow h) .Never) ↔
      ∀ n t, types[n]? = some t →
        ¬ RepeatsCollapsing ((types.take n).foldl (unionTypeShallow h) .Never) t) ∧
    ((∀ n t, types[n]? = some t →
        ¬ RepeatsCollapsing ((types.take n).foldl (unionTypeShallow h) .Never) t) →
      foldUnionShallow h types = types.foldl (unionTypeShallow h) .Never) := by
  have hfold := foldl_push_iff types hin _ _ sim_never accOk_never
  refine ⟨hfold, fun hnone => ?_⟩
  have hall := hfold.2 hnone types.length
  rwa [List.take_length] at hall

/-- `boolean|string`. -/
def booleanOrString : LuaUnionType := .Multi [.Boolean, .String]

theorem foldInput_booleanOrString : FoldInput plainHashing (.Union booleanOrString) := by
  have hleaf : ∀ t ∈ (Union booleanOrString).parts, FoldInput plainHashing t := by
    intro t ht
    have ht : t ∈ [Boolean, .String] := ht
    simp only [List.mem_cons, List.not_mem_nil, or_false] at ht
    obtain rfl | rfl := ht <;> exact .of_leaf (Definite.of_parts nofun nofun) rfl rfl
  refine ⟨Definite.of_parts nofun fun t ht => (hleaf t ht).definite, ?_⟩
  intro u hu
  cases hu with
  | here heq =>
    cases heq
    exact ⟨Nat.le_refl 2, rfl⟩
  | part hs hu => exact (hleaf _ hs).unions u hu

theorem foldUnionShallow_iff_nullable :
    foldUnionShallow plainHashing [.Union booleanOrString, .Nil] =
      [LuaType.Union booleanOrString, .Nil].foldl (unionTypeShallow plainHashing) .Never := by
  apply (foldUnionShallow_iff plainHashing [.Union booleanOrString, .Nil] ?_).2
  · intro n t ht hrepeats
    match n, ht with
    | 0, ht =>
      cases ht
      cases hrepeats.1
    | 1, ht =>
      cases ht
      cases hrepeats.2.1.1
  · intro t ht
    simp only [List.mem_cons, List.not_mem_nil, or_false] at ht
    obtain rfl | rfl := ht
    · exact foldInput_booleanOrString
    · exact .of_leaf (Definite.of_parts nofun nofun) rfl rfl

/-- `string|"a"`, as an author may write it. -/
def stringOrLiteral : LuaUnionType := .Multi [.String, .DocStringConst "a"]

/-- **Given twice, `string|"a"` comes out of the incremental fold as `string`.** -/
theorem foldUnionShallow_repeated :
    LuaUnionType.fromVec plainHashing stringOrLiteral.intoVec = stringOrLiteral ∧
      fromVecStructural plainHashing stringOrLiteral.intoVec = .Union stringOrLiteral ∧
      fromVec plainHashing stringOrLiteral.intoVec = .Union stringOrLiteral ∧
      foldUnionShallow plainHashing [.Union stringOrLiteral, .Union stringOrLiteral] = .String ∧
      [LuaType.Union stringOrLiteral, .Union stringOrLiteral].foldl
        (unionTypeShallow plainHashing) .Never = .Union stringOrLiteral ∧
      LuaType.String ≠ .Union stringOrLiteral :=
  ⟨rfl, rfl, rfl, rfl, rfl, nofun⟩

end LuaType

end GluaLs.Types
