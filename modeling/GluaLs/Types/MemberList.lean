/-
  GluaLs.Types.MemberList — member lists under absorption, whatever is in them.

  A member list holds distinct types that are neither `never` nor unions of either kind; two
  of its members may collapse, as in `string|"a"`, which an author may write.  Absorbing a
  type keeps such a list one, and does to its members the same for every mask that knows
  them (`absorb_eq`), so that one function of the members says it (`absorbMember`).

  What was made of two members that collapse is above both, so that the two are never in
  the list together again (`apart_absorbMember`).
-/
import GluaLs.Types.UnionAll

namespace GluaLs.Types

open GluaLs.Lib

namespace LuaType

variable {h : Hashing}

/-! ## §1. Members -/

/-- A type that a member list takes in. -/
structure FoldMember (t : LuaType) : Prop where
  definite : Definite t
  never : t ≠ .Never
  union : t.isUnion = false
  multiLine : t.isMultiLineUnion = false

namespace FoldMember

theorem eq_iff {t : LuaType} (ht : FoldMember t) (s : LuaType) : t.eq s = true ↔ t = s :=
  ht.definite.eq_iff s

theorem self_eq {t : LuaType} (ht : FoldMember t) : t.eq t = true := (ht.eq_iff t).2 rfl

theorem boolean : FoldMember .Boolean := ⟨Definite.of_parts nofun nofun, nofun, rfl, rfl⟩

end FoldMember

theorem collapsible_foldMember : Collapsible FoldMember :=
  ⟨fun hnever => hnever.never rfl, .boolean, fun _ hs t _ => (hs.eq_iff t).1⟩

/-! ## §2. What is left -/

/-- A type that is there, and collapses with nothing else that is there. -/
theorem absorbMember_self {members : List LuaType} (hlist : MemberList FoldMember members)
    {t : LuaType} (hmem : t ∈ members) (hnone : ∀ m ∈ members, m ≠ t → tryCollapse m m t = none) :
    absorbMember members t = members := by
  have ht := hlist.member t hmem
  apply absorbAll_member hmem ht.self_eq hlist.apart
  intro m hm hne
  apply hnone m hm
  rintro rfl
  rw [ht.self_eq] at hne
  cases hne

/-- Members that do not collapse are left as they are by themselves. -/
theorem foldl_absorbMember_self {members : List LuaType} (hlist : MemberList FoldMember members)
    (hnone : ∀ a ∈ members, ∀ b ∈ members, a ≠ b → tryCollapse a a b = none)
    (types : List LuaType) (hty : ∀ t ∈ types, t ∈ members) :
    types.foldl absorbMember members = members := by
  induction types with
  | nil => rfl
  | cons t types ih =>
    have ht := hty t (.head _)
    rw [List.foldl_cons, absorbMember_self hlist ht fun m hm hne => hnone m hm t ht hne]
    exact ih (List.forall_mem_cons.1 hty).2

/-! ## §3. Two members that collapse -/

/-- What a type becomes is above it, except that `number` takes `integer` in after `integer`
has taken a literal of the author in. -/
theorem above_of_absorbs {members rest : List LuaType} {t t' : LuaType}
    (habs : Absorbs Collapses members t rest t') (s : LuaType) :
    MemberList FoldMember members → FoldMember t →
      (t = s ∨ Subsumes t s ∨ ∃ n, s = .DocIntegerConst n ∧ t = .Number) →
      (t' = s ∨ Subsumes t' s ∨ ∃ n, s = .DocIntegerConst n ∧ t' = .Number) := by
  induction habs with
  | done members t => exact fun _ _ habove => habove
  | step members members' rest m t r t' hperm hc _ ih =>
    intro hlist ht habove
    have hlist' := hlist.perm hperm.symm
    have hm := hlist'.member m (.head _)
    apply ih hlist'.tail (mem_of_collapses collapsible_foldMember m t r hm ht hc)
    obtain ⟨rfl, rfl | hsub⟩ | ⟨rfl, -⟩ | ⟨b, -, rfl, rfl⟩ :=
      collapses_cases collapsible_foldMember m t r hm ht hc
    · exact habove
    · obtain rfl | habove | ⟨n, rfl, rfl⟩ := habove
      · exact .inr (.inl hsub)
      · obtain hsub' | ⟨n, hr, -, hs⟩ := subsumes_trans _ _ _ habove hsub
        · exact .inr (.inl hsub')
        · exact .inr (.inr ⟨n, hs, hr⟩)
      · cases hsub
    · exact habove
    · obtain rfl | habove | ⟨n, -, hn⟩ := habove
      · exact .inr (.inl (.booleanConst _))
      · cases habove
      · cases hn

variable {a b : LuaType}

/-- **A member and another that collapses with it are not both there** when it has been
absorbed. -/
theorem apart_absorbMember_left {members : List LuaType} (hlist : MemberList FoldMember members)
    (ha : FoldMember a) (hne : a ≠ b) (hcollapse : tryCollapse a a b ≠ none) :
    ¬ (a ∈ absorbMember members a ∧ b ∈ absorbMember members a) := by
  rintro ⟨hamem, hbmem⟩
  obtain ⟨rest, t', habsorbed⟩ := exists_absorbed members a ha.never
  obtain ⟨hrest, ht'⟩ := memberList_absorbs collapsible_foldMember habsorbed.absorbs hlist ha
  have habove := above_of_absorbs habsorbed.absorbs a hlist ha (.inl rfl)
  rw [habsorbed.perm.mem_iff] at hamem hbmem
  have hnot := habsorbed.none
  obtain rfl | hbrest := List.mem_cons.1 hbmem
  · obtain hab | harest := List.mem_cons.1 hamem
    · exact hne hab
    · exact hcollapse (hnot a harest)
  · have hb := hrest.member b hbrest
    obtain rfl | harest := List.mem_cons.1 hamem
    · exact hcollapse (tryCollapse_comm collapsible_foldMember hb ha (hnot b hbrest))
    · obtain rfl | hsub | ⟨n, rfl, rfl⟩ := habove
      · exact not_collapses_of_none t' t' (hnot t' harest) t' (.equal ht'.self_eq rfl)
      · exact not_collapses_of_none a t' (hnot a harest) t' (.right hsub rfl)
      · -- only `integer` collapses with the literal, and it would be in `number`
        obtain ⟨r, hr⟩ := Option.ne_none_iff_exists'.1 hcollapse
        obtain ⟨-, heq | hsub⟩ | ⟨-, heq | hsub⟩ | ⟨c, hc, -⟩ :=
          collapses_cases collapsible_foldMember _ b r ha hb (tryCollapse_cases _ b r hr)
        · exact hne heq.symm
        · cases hsub
        · exact hne heq
        · cases hsub
          exact not_collapses_of_none _ _ (hnot _ hbrest) .Number (.right .numberInteger rfl)
        · cases hc

/-- They are not both there again. -/
theorem apart_absorbMember {members : List LuaType} (hlist : MemberList FoldMember members)
    (hne : a ≠ b)
    (hcollapse : tryCollapse a a b ≠ none) (hapart : ¬ (a ∈ members ∧ b ∈ members)) {t : LuaType}
    (ht : FoldMember t) : ¬ (a ∈ absorbMember members t ∧ b ∈ absorbMember members t) := by
  rintro ⟨hamem, hbmem⟩
  obtain ⟨rest, t', habsorbed⟩ := exists_absorbed members t ht.never
  obtain ⟨hrest, ht'⟩ := memberList_absorbs collapsible_foldMember habsorbed.absorbs hlist ht
  rw [habsorbed.perm.mem_iff] at hamem hbmem
  obtain rfl | hbrest := List.mem_cons.1 hbmem
  · obtain hab | harest := List.mem_cons.1 hamem
    · exact hne hab
    · exact hcollapse (habsorbed.none a harest)
  · obtain rfl | harest := List.mem_cons.1 hamem
    · exact hcollapse
        (tryCollapse_comm collapsible_foldMember (hrest.member b hbrest) ht'
          (habsorbed.none b hbrest))
    · have hsub := habsorbed.absorbs.subset
      exact hapart ⟨hsub a harest, hsub b hbrest⟩

theorem apart_foldl_absorbMember (hne : a ≠ b) (hcollapse : tryCollapse a a b ≠ none)
    (types : List LuaType) (hty : ∀ t ∈ types, FoldMember t) :
    ∀ members, MemberList FoldMember members → ¬ (a ∈ members ∧ b ∈ members) →
      ¬ (a ∈ types.foldl absorbMember members ∧ b ∈ types.foldl absorbMember members) := by
  induction types with
  | nil => exact fun _ _ hapart => hapart
  | cons t types ih =>
    intro members hlist hapart
    have ht := hty t (.head _)
    exact ih (List.forall_mem_cons.1 hty).2 _
      (memberList_absorbMember collapsible_foldMember hlist ht)
      (apart_absorbMember hlist hne hcollapse hapart ht)

/-- **Absorbing a list parts what collapses with one of its types.** -/
theorem apart_of_mem (hne : a ≠ b) (hcollapse : tryCollapse a a b ≠ none) {types : List LuaType}
    (hty : ∀ t ∈ types, FoldMember t) (hmem : a ∈ types) {members : List LuaType}
    (hlist : MemberList FoldMember members) :
    ¬ (a ∈ types.foldl absorbMember members ∧ b ∈ types.foldl absorbMember members) := by
  obtain ⟨front, back, rfl⟩ := List.append_of_mem hmem
  have hfront :=
    memberList_foldl collapsible_foldMember front
      (fun t ht => hty t (List.mem_append_left _ ht)) members hlist
  have ha := hty a hmem
  rw [List.foldl_append, List.foldl_cons]
  exact apart_foldl_absorbMember hne hcollapse back
    (fun t ht => hty t (List.mem_append_right _ (.tail a ht))) _
    (memberList_absorbMember collapsible_foldMember hfront ha)
    (apart_absorbMember_left hfront ha hne hcollapse)

/-! ## §4. The order

  Three things make the step fast, and none of them shows:

    • the hash set answers for a type that nothing in the mask can collapse with
      (`addMember_eq`: the members are those that absorbing leaves),
    • members appended to a sorted list are inserted, not sorted again
      (`members_sort`),
    • `T|nil` is turned round as the nullable union would be (`members_nilLast`).

  So a settled list is the member list of the union of its members (`settle_exact`).
-/

/-- The members in front of those that this step appended are sorted, if the list says so. -/
def SortedFront (h : Hashing) (acc : FoldMembers) : Prop :=
  acc.sorted = true → acc.appended ≤ acc.members.length ∧
    (acc.members.take (acc.members.length - acc.appended)).Pairwise
      fun a b => a.sortKey h ≤ b.sortKey h

theorem pairwise_insertMember {members : List LuaType}
    (hsorted : members.Pairwise fun a b => a.sortKey h ≤ b.sortKey h) (t : LuaType) :
    (FoldMembers.insertMember h members t).Pairwise (fun a b => a.sortKey h ≤ b.sortKey h) ∧
      SameRuns (sortKey h) (FoldMembers.insertMember h members t) (members ++ [t]) := by
  have hsplit : (members.takeWhile fun existing => decide (existing.sortKey h ≤ t.sortKey h)) ++
      (members.dropWhile fun existing => decide (existing.sortKey h ≤ t.sortKey h)) = members :=
    List.takeWhile_append_dropWhile
  have hlarger : ∀ b ∈ members.dropWhile fun existing => decide (existing.sortKey h ≤ t.sortKey h),
      t.sortKey h < b.sortKey h := by
    intro b hb
    cases hlist : members.dropWhile fun existing => decide (existing.sortKey h ≤ t.sortKey h) with
    | nil =>
      rw [hlist] at hb
      cases hb
    | cons x rest =>
      obtain ⟨hx, hleast⟩ := dropWhile_cons_sorted hsorted x rest hlist
      have hlt : t.sortKey h < x.sortKey h := by simpa using hx
      exact lt_of_lt_of_le hlt (hleast b (hlist ▸ hb))
  rw [← hsplit] at hsorted
  obtain ⟨hfront, hback, hcross⟩ := List.pairwise_append.1 hsorted
  refine ⟨List.pairwise_append.2 ⟨hfront, List.pairwise_cons.2 ⟨?_, hback⟩, ?_⟩, ?_⟩
  · exact fun b hb => le_of_lt (hlarger b hb)
  · intro a ha b hb
    have hle : a.sortKey h ≤ t.sortKey h := by simpa using List.mem_takeWhile_imp ha
    obtain rfl | hb := List.mem_cons.1 hb
    · exact hle
    · exact hcross a ha b hb
  · have hruns := sameRuns_insert (sortKey h)
      (members.takeWhile fun existing => decide (existing.sortKey h ≤ t.sortKey h))
      (members.dropWhile fun existing => decide (existing.sortKey h ≤ t.sortKey h)) t
      fun b hb => (ne_of_lt (hlarger b hb)).symm
    rwa [hsplit] at hruns

/-- Inserting a list into a sorted one sorts them together. -/
theorem foldl_insertMember_eq (tail : List LuaType) : ∀ front : List LuaType,
    front.Pairwise (fun a b => a.sortKey h ≤ b.sortKey h) →
      tail.foldl (FoldMembers.insertMember h) front = sortTypes h (front ++ tail) := by
  induction tail with
  | nil =>
    intro front hfront
    rw [List.append_nil]
    exact (SameRuns.refl front).eq_insertionSort hfront
  | cons t tail ih =>
    intro front hfront
    obtain ⟨hsorted, hruns⟩ := pairwise_insertMember hfront t
    rw [List.foldl_cons, ih _ hsorted]
    have hruns' := hruns.append (.refl tail)
    rw [List.append_assoc] at hruns'
    exact hruns'.insertionSort_eq

/-- **Sorting is sorting**, also where it is inserting. -/
theorem members_sort {acc : FoldMembers} (hfront : SortedFront h acc) :
    (acc.sort h).members = sortTypes h acc.members := by
  unfold FoldMembers.sort
  split
  · rename_i hsorted
    obtain ⟨-, hfront⟩ := hfront hsorted
    show (acc.members.drop _).foldl (FoldMembers.insertMember h) (acc.members.take _) = _
    rw [foldl_insertMember_eq _ _ hfront, List.take_append_drop]
  · rfl

theorem sortedFront_sort (acc : FoldMembers) (hfront : SortedFront h acc) :
    SortedFront h (acc.sort h) := by
  intro _
  have happended : (acc.sort h).appended = 0 := by
    unfold FoldMembers.sort
    split <;> rfl
  rw [happended, members_sort hfront]
  refine ⟨Nat.zero_le _, ?_⟩
  rw [Nat.sub_zero, List.take_length]
  exact pairwise_sortTypes acc.members

/-- **The nullable order** is the order of the members of a nullable union. -/
theorem members_nilLast {acc : FoldMembers}
    (hapart : acc.members.Pairwise fun a b => a.eq b = false) :
    acc.nilLast.members = (LuaUnionType.fromNormalizedVec acc.members).intoVec := by
  unfold FoldMembers.nilLast
  split
  · rename_i a b hmembers
    rw [hmembers] at hapart ⊢
    have hab := (List.pairwise_cons.1 hapart).1 b (.head _)
    rw [fromNormalizedVec_two a b hab]
    simp only [eq_nil]
    cases ha : a.isNil with
    | true => simp [eq_nil_of_isNil a ha, LuaUnionType.intoVec]
    | false =>
      cases hb : b.isNil with
      | true => simp [eq_nil_of_isNil b hb, hmembers, LuaUnionType.intoVec]
      | false => simp [hmembers, LuaUnionType.intoVec]
  · rename_i hshape
    rw [fromNormalizedVec_long]
    · rfl
    · intro hlength
      obtain ⟨a, b, hlist⟩ := List.length_eq_two.1 hlength
      exact hshape a b hlist

/-! ## §5. The settled list -/

/-- Members with an order keep it. -/
theorem fromVec_ordered {members : List LuaType}
    (hsensitive : members.all isOrderInsensitiveMember ≠ true) :
    LuaUnionType.fromVec h members = .fromNormalizedVec members := by
  unfold LuaUnionType.fromVec
  rw [if_neg fun hboth => hsensitive hboth.2]

theorem fromNormalizedVec_intoVec {members : List LuaType}
    (hapart : members.Pairwise fun a b => a.eq b = false) :
    LuaUnionType.fromNormalizedVec (LuaUnionType.fromNormalizedVec members).intoVec =
      .fromNormalizedVec members := by
  by_cases hlength : members.length = 2
  · match members, hlength with
    | [a, b], _ =>
      have hab := (List.pairwise_cons.1 hapart).1 b (.head _)
      have hba : b.eq a = false := by rwa [(lawfulAt b).symm]
      rw [fromNormalizedVec_two a b hab]
      cases ha : a.isNil with
      | true =>
        have hane := eq_nil_of_isNil a ha
        subst hane
        have hb : b.isNil = false := by rwa [eq_nil] at hba
        show LuaUnionType.fromNormalizedVec [b, .Nil] = .Nullable b
        rw [fromNormalizedVec_two b .Nil hba, hb]
        rfl
      | false =>
        cases hb : b.isNil with
        | true =>
          have hbne := eq_nil_of_isNil b hb
          subst hbne
          show LuaUnionType.fromNormalizedVec [a, .Nil] = .Nullable a
          rw [fromNormalizedVec_two a .Nil hab, ha]
          rfl
        | false =>
          show LuaUnionType.fromNormalizedVec [a, b] = .Multi [a, b]
          rw [fromNormalizedVec_two a b hab, ha, hb]
          rfl
  · rw [fromNormalizedVec_long members hlength]
    exact fromNormalizedVec_long members hlength

/-- **What is built of distinct members is canonical.** -/
theorem canonicalUnion_fromVec {members : List LuaType} (hplain : ∀ m ∈ members, m.isUnion = false)
    (hapart : members.Pairwise fun a b => a.eq b = false) (htwo : 2 ≤ members.length) :
    CanonicalUnion h (.fromVec h members) := by
  have hperm := (intoVec_fromVec (h := h) hapart).1
  refine ⟨?_, ?_, pairwise_perm hperm hapart, ?_⟩
  · rw [hperm.length_eq]
    exact htwo
  · exact fun m hm => hplain m (hperm.mem_iff.1 hm)
  · by_cases hall : members.all isOrderInsensitiveMember = true
    · exact fromVec_congr ⟨hall, hapart⟩ htwo hperm (sameRuns_intoVec_fromVec ⟨hall, hapart⟩ htwo)
    · have hall' :
          (LuaUnionType.fromVec h members).intoVec.all isOrderInsensitiveMember ≠ true := by
        intro hmembers
        rw [List.all_eq_true] at hall hmembers
        exact hall fun m hm => hmembers m (hperm.mem_iff.2 hm)
      rw [fromVec_ordered hall', fromVec_ordered hall, fromNormalizedVec_intoVec hapart]

/-- What a list is between two steps, apart from the union it stands for. -/
structure ListOk (h : Hashing) (acc : FoldMembers) : Prop where
  list : MemberList FoldMember acc.members
  hash : HashOk FoldMember acc.toMembers
  front : SortedFront h acc

theorem ListOk.nilLast {acc : FoldMembers} (hok : ListOk h acc) : ListOk h acc.nilLast := by
  have hre := reordered_nilLast acc
  have hfront : acc.nilLast.sorted = true → acc.nilLast = acc := by
    unfold FoldMembers.nilLast
    split
    · split
      · exact nofun
      · split
        · exact nofun
        · exact fun _ => rfl
    · exact fun _ => rfl
  refine ⟨hok.list.perm hre.members.symm, hok.hash.perm hre.members.symm hre.present hre.hashed, ?_⟩
  intro hsorted
  have heq := hfront hsorted
  rw [heq] at hsorted ⊢
  exact hok.front hsorted

theorem ListOk.sort {acc : FoldMembers} (hok : ListOk h acc) : ListOk h (acc.sort h) := by
  have hre := reordered_sort (h := h) acc
  exact ⟨hok.list.perm hre.members.symm, hok.hash.perm hre.members.symm hre.present hre.hashed,
    sortedFront_sort acc hok.front⟩

/-- **A changed list settles as the members of the union of its members.** -/
theorem settle_exact {acc : FoldMembers} (hok : ListOk h acc) (htaken : acc.takenFrom = none)
    (htwo : 2 ≤ acc.members.length) :
    ∃ acc', acc.settle h = .Members acc' ∧ ListOk h acc' ∧ acc'.takenFrom = none ∧
      acc'.members = (LuaUnionType.fromVec h acc.members).intoVec := by
  have hsettle : acc.settle h =
      if acc.members.all isOrderInsensitiveMember then .Members (acc.sort h).nilLast
      else .Members ({ acc with sorted := false, appended := 0 } : FoldMembers).nilLast := by
    unfold FoldMembers.settle
    rw [htaken]
    match hlist : acc.members, htwo with
    | _ :: _ :: _, _ => rfl
  by_cases hall : acc.members.all isOrderInsensitiveMember = true
  · refine ⟨_, hsettle.trans (if_pos hall), hok.sort.nilLast, ?_, ?_⟩
    · rw [(reordered_nilLast _).takenFrom, (reordered_sort acc).takenFrom, htaken]
    · rw [members_nilLast hok.sort.list.apart, members_sort hok.front,
        fromVec_unordered ⟨hall, hok.list.apart⟩ htwo]
  · have hok' : ListOk h { acc with sorted := false, appended := 0 } :=
      ⟨hok.list, hok.hash, nofun⟩
    refine ⟨_, hsettle.trans (if_neg hall), hok'.nilLast, ?_, ?_⟩
    · exact (reordered_nilLast _).takenFrom.trans htaken
    · rw [members_nilLast hok'.list.apart, fromVec_ordered hall]

/-! ## §6. The step -/

/-- **Taking a member in**: the members that absorbing leaves, and nothing but those of the
union it was taken from if it still says so. -/
theorem listOk_absorb {acc : FoldMembers} (hok : ListOk h acc) {t : LuaType} (ht : FoldMember t) :
    ListOk h (acc.absorb h t) ∧
      (acc.absorb h t).members = absorbMember acc.members t := by
  have hadd := addMember_eq (h := h) collapsible_foldMember hok.list hok.hash ht
  rw [← toMembers_absorb] at hadd
  refine ⟨⟨?_, hadd.2, ?_⟩, hadd.1⟩
  · have hmembers : (acc.absorb h t).members = absorbMember acc.members t := hadd.1
    rw [hmembers]
    exact memberList_absorbMember collapsible_foldMember hok.list ht
  · unfold FoldMembers.absorb
    split
    · split
      · intro hsorted
        obtain ⟨hle, hfront⟩ := hok.front hsorted
        have hlength : (acc.members ++ [t]).length - (acc.appended + 1) =
            acc.members.length - acc.appended := by
          rw [List.length_append, List.length_singleton]
          omega
        refine ⟨?_, ?_⟩
        · show acc.appended + 1 ≤ (acc.members ++ [t]).length
          rw [List.length_append, List.length_singleton]
          omega
        · show ((acc.members ++ [t]).take
              ((acc.members ++ [t]).length - (acc.appended + 1))).Pairwise _
          rw [hlength, List.take_append_of_le_length (by omega)]
          exact hfront
      · exact hok.front
    · nofun

theorem listOk_foldl_absorb (types : List LuaType) (hty : ∀ t ∈ types, FoldMember t) :
    ∀ acc : FoldMembers, ListOk h acc →
      ListOk h (types.foldl (FoldMembers.absorb h) acc) ∧
        (types.foldl (FoldMembers.absorb h) acc).members = types.foldl absorbMember acc.members ∧
        ∀ t, (types.foldl (FoldMembers.absorb h) acc).takenFrom = some t →
          acc.takenFrom = some t ∧ types.foldl absorbMember acc.members = acc.members := by
  induction types with
  | nil => exact fun acc hok => ⟨hok, rfl, fun t ht => ⟨ht, rfl⟩⟩
  | cons s types ih =>
    intro acc hok
    obtain ⟨hok', hmembers⟩ := listOk_absorb hok (hty s (.head _))
    obtain ⟨hfold, hmembers', htaken⟩ :=
      ih (List.forall_mem_cons.1 hty).2 _ hok'
    rw [List.foldl_cons, List.foldl_cons, ← hmembers]
    refine ⟨hfold, hmembers', ?_⟩
    intro t ht
    obtain ⟨ht', hsame⟩ := htaken t ht
    obtain ⟨ht'', hsame'⟩ := takenFrom_absorb acc s t ht'
    exact ⟨ht'', hsame.trans hsame'⟩

end LuaType

end GluaLs.Types
