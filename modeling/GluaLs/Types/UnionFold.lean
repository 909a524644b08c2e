/-
  GluaLs.Types.UnionFold — absorbing member by member, with the hash set.

  The hash set is not kept up to date: members merged away stay in it, members put in by
  `absorb` are missing from it.  What makes its answers right is the mask, which only
  widens: wherever the set is out of date for a type, a partner discriminant of the type is
  in the mask, and the set is not asked (`HashOk`).  So `add_member` does what absorbing
  without a set does (`addMember_eq`), and the fold on a member list keeps the normal form
  (`carries_foldUnionShallow`).
-/
import GluaLs.Types.AbsorbOrder
import GluaLs.Types.UnionExact

namespace GluaLs.Types

open GluaLs.Lib

namespace LuaType

variable {h : Hashing} {P : LuaType → Prop} (hP : Collapsible P)

/-! ## §1. Members -/

/-- Distinct members of a kind. -/
structure MemberList (P : LuaType → Prop) (members : List LuaType) : Prop where
  member : ∀ m ∈ members, P m
  apart : members.Pairwise fun a b => a.eq b = false

namespace MemberList

theorem perm {members l : List LuaType} (hlist : MemberList P members) (hperm : l.Perm members) :
    MemberList P l :=
  ⟨fun m hm => hlist.member m (hperm.mem_iff.1 hm), pairwise_perm hperm hlist.apart⟩

theorem tail {members : List LuaType} {m : LuaType} (hlist : MemberList P (m :: members)) :
    MemberList P members :=
  ⟨fun s hs => hlist.member s (.tail m hs), (List.pairwise_cons.1 hlist.apart).2⟩

end MemberList

include hP

/-- The loop takes members away and changes the type into another. -/
theorem memberList_absorbs {members rest : List LuaType} {t t' : LuaType}
    (habs : Absorbs Collapses members t rest t') :
    MemberList P members → P t → MemberList P rest ∧ P t' := by
  induction habs with
  | done members t => exact fun hlist ht => ⟨hlist, ht⟩
  | step members members' rest m t r t' hperm hc _ ih =>
    intro hlist ht
    have hlist' := hlist.perm hperm.symm
    have hm := hlist'.member m (.head _)
    exact ih hlist'.tail (mem_of_collapses hP m t r hm ht hc)

theorem memberList_absorbMember {members : List LuaType} (hlist : MemberList P members)
    {t : LuaType} (ht : P t) : MemberList P (absorbMember members t) := by
  obtain ⟨rest, t', habsorbed⟩ := exists_absorbed members t fun hnever => hP.never (hnever ▸ ht)
  obtain ⟨hrest, ht'⟩ := memberList_absorbs hP habsorbed.absorbs hlist ht
  have hcons : MemberList P (t' :: rest) := by
    refine ⟨List.forall_mem_cons.2 ⟨ht', hrest.member⟩, List.pairwise_cons.2 ⟨?_, hrest.apart⟩⟩
    intro m hm
    rw [← Bool.not_eq_true, (lawfulAt t').symm]
    intro heq
    exact not_collapses_of_none m t' (habsorbed.none m hm) m (.equal heq rfl)
  exact hcons.perm habsorbed.perm

theorem memberList_foldl (types : List LuaType) (hty : ∀ t ∈ types, P t) :
    ∀ members, MemberList P members → MemberList P (types.foldl absorbMember members) := by
  induction types with
  | nil => exact fun _ hlist => hlist
  | cons t types ih =>
    intro members hlist
    exact ih (List.forall_mem_cons.1 hty).2 _
      (memberList_absorbMember hP hlist (hty t (.head _)))

omit hP

theorem absorbMember_new {members : List LuaType} {t : LuaType}
    (hnone : ∀ m ∈ members, tryCollapse m m t = none) :
    absorbMember members t = members ++ [t] := by
  unfold absorbMember
  rw [absorb_new members _ t hnone]

/-! ## §2. The hash set and the mask -/

/-- A partner discriminant of the type is in the mask. -/
def PartnerSeen (present : Nat) (t : LuaType) : Prop :=
  ∃ o ∈ t.collapsePartnerOrdinals, present.testBit o = true

theorem PartnerSeen.or {present : Nat} {t : LuaType} (hseen : PartnerSeen present t) (bits : Nat) :
    PartnerSeen (present ||| bits) t := by
  obtain ⟨o, ho, hbit⟩ := hseen
  exact ⟨o, ho, by rw [Nat.testBit_or, hbit, Bool.true_or]⟩

/-- Types that are looked up in the hash set are equal to themselves. -/
theorem eq_self_of_dedupsByEquality (t : LuaType) (ht : t.dedupsByEquality = true) :
    t.eq t = true := by
  cases t <;> first | rfl | exact beq_self_eq_true _ | cases ht

theorem shortcut_iff (present : Nat) (t : LuaType) :
    (t.dedupsByEquality && t.collapsePartnerOrdinals.all fun o => present &&& 1 <<< o = 0) = true ↔
      t.dedupsByEquality = true ∧ ¬ PartnerSeen present t := by
  simp only [Bool.and_eq_true, List.all_eq_true, decide_eq_true_eq, and_bit_eq_zero, PartnerSeen,
    not_exists, not_and, Bool.not_eq_true]

/-- Where the hash set does not know a member, or knows one that is gone, the mask has a
partner of it. -/
structure HashOk (P : LuaType → Prop) (acc : Members) : Prop where
  mask : MaskOk acc.members acc.present
  inSet : ∀ m ∈ acc.members, m.dedupsByEquality = true → m ∈ acc.hashed ∨ PartnerSeen acc.present m
  fromSet : ∀ k ∈ acc.hashed, P k ∧ (k ∈ acc.members ∨ PartnerSeen acc.present k)

theorem HashOk.perm {acc acc' : Members} (hok : HashOk P acc)
    (hperm : acc'.members.Perm acc.members)
    (hpresent : acc'.present = acc.present) (hhashed : acc'.hashed = acc.hashed) :
    HashOk P acc' := by
  refine ⟨?_, ?_, ?_⟩
  · intro m hm
    rw [hpresent]
    exact hok.mask m (hperm.mem_iff.1 hm)
  · intro m hm hdedup
    rw [hpresent, hhashed]
    exact hok.inSet m (hperm.mem_iff.1 hm) hdedup
  · intro k hk
    rw [hhashed] at hk
    obtain ⟨hmember, hk⟩ := hok.fromSet k hk
    rw [hpresent]
    exact ⟨hmember, hk.imp_left hperm.mem_iff.2⟩

include hP

/-- A member that collapses with another type has a discriminant that is a partner of it. -/
theorem partnerSeen_of_collapses {members : List LuaType} {present : Nat}
    (hok : MaskOk members present) {m t r : LuaType} (hmem : m ∈ members) (hm : P m)
    (ht : P t) (hne : m ≠ t) (hc : Collapses m t r) : PartnerSeen present t := by
  refine ⟨m.sortOrdinal, ?_, hok m hmem⟩
  apply partner_of_clash
  obtain ⟨-, heq | hsub⟩ | ⟨-, heq | hsub⟩ | ⟨b, hb, hb', -⟩ := collapses_cases hP m t r hm ht hc
  · exact absurd heq.symm hne
  · exact .inl hsub
  · exact absurd heq hne
  · exact .inr (.inl hsub)
  · exact .inr (.inr ⟨b, _, hb, hb'⟩)

/-- What the loop leaves is in the hash set, or the mask has a partner of it. -/
theorem inSet_of_absorbs {present : Nat} {hashed members rest : List LuaType} {t t' : LuaType}
    (habs : Absorbs Collapses members t rest t') (hmask : MaskOk members present)
    (hmembers : ∀ m ∈ members, P m) (ht : P t)
    (hin : ∀ m ∈ t :: members, m.dedupsByEquality = true → m ∈ hashed ∨ PartnerSeen present m) :
    ∀ m ∈ t' :: rest, m.dedupsByEquality = true → m ∈ hashed ∨ PartnerSeen present m := by
  have hstart : ∀ m ∈ t :: members, P m ∧
      (m.dedupsByEquality = true → m ∈ hashed ∨ PartnerSeen present m) := fun m hm =>
    ⟨List.forall_mem_cons.2 ⟨ht, hmembers⟩ m hm, hin m hm⟩
  refine fun m hm => (habs.all ?_ hstart m hm).2
  intro m hmem t r hm ht hc
  refine ⟨mem_of_collapses hP m t r hm.1 ht.1 hc, ?_⟩
  obtain ⟨rfl, -⟩ | ⟨rfl, -⟩ | ⟨c, rfl, rfl, rfl⟩ := collapses_cases hP m t r hm.1 ht.1 hc
  · exact hm.2
  · exact ht.2
  · -- `boolean` has a literal for a partner, and one was a member
    exact fun _ => .inr ⟨2, by simp [collapsePartnerOrdinals], hmask _ hmem⟩

/-- What was a member is one still, or below what the type has become, or the mask has a
partner of it. -/
theorem fromSet_of_absorbs {present : Nat} {members rest : List LuaType} {t t' : LuaType}
    (habs : Absorbs Collapses members t rest t') (k : LuaType) :
    MaskOk members present → (∀ m ∈ members, P m) → P t →
      (k ∈ members ∨ t = k ∨ Subsumes t k ∨ PartnerSeen present k) →
      (k ∈ rest ∨ t' = k ∨ Subsumes t' k ∨ PartnerSeen present k) := by
  induction habs with
  | done members t => exact fun _ _ _ hk => hk
  | step members members' rest m t r t' hperm hc _ ih =>
    intro hmask hmembers ht hk
    have hmem : m ∈ members := hperm.mem_iff.2 (.head _)
    have hsub : ∀ x ∈ members', x ∈ members := fun x hx =>
      hperm.mem_iff.2 (.tail m hx)
    have hm := hmembers m hmem
    apply ih (fun x hx => hmask x (hsub x hx)) (fun x hx => hmembers x (hsub x hx))
      (mem_of_collapses hP m t r hm ht hc)
    have hcases := collapses_cases hP m t r hm ht hc
    obtain hk | rfl | hk | hk := hk
    · obtain rfl | hk := List.mem_cons.1 (hperm.mem_iff.1 hk)
      · obtain ⟨rfl, -⟩ | ⟨rfl, rfl | hsub⟩ | ⟨c, rfl, -, rfl⟩ := hcases
        · exact .inr (.inl rfl)
        · exact .inr (.inl rfl)
        · exact .inr (.inr (.inl hsub))
        · exact .inr (.inr (.inl (.booleanConst c)))
      · exact .inl hk
    · obtain ⟨rfl, heq | hsub⟩ | ⟨rfl, -⟩ | ⟨c, -, rfl, rfl⟩ := hcases
      · exact .inr (.inl heq.symm)
      · exact .inr (.inr (.inl hsub))
      · exact .inr (.inl rfl)
      · exact .inr (.inr (.inl (.booleanConst _)))
    · obtain ⟨rfl, rfl | hsub⟩ | ⟨rfl, -⟩ | ⟨c, -, rfl, rfl⟩ := hcases
      · exact .inr (.inr (.inl hk))
      · -- what is above what is above a type is a partner of the type, and was a member
        refine .inr (.inr (.inr ⟨r.sortOrdinal, ?_, hmask r hmem⟩))
        cases hk <;> cases hsub <;> simp [sortOrdinal, collapsePartnerOrdinals]
      · exact .inr (.inr (.inl hk))
      · cases hk
    · exact .inr (.inr (.inr hk))

/-- A hash set that has the type: it is there, and nothing else collapses with it. -/
theorem HashOk.nothing {acc : Members} (hok : HashOk P acc) (hlist : MemberList P acc.members)
    {t : LuaType} (ht : P t) (hseen : ¬ PartnerSeen acc.present t) :
    ∀ m ∈ acc.members, m ≠ t → tryCollapse m m t = none := by
  intro m hm hne
  cases hr : tryCollapse m m t with
  | none => rfl
  | some r =>
    exact absurd (partnerSeen_of_collapses hP hok.mask hm (hlist.member m hm) ht hne
      (tryCollapse_cases m t r hr)) hseen

/-- **`add_member` absorbs**, whether the hash set answers or not, and keeps the set right. -/
theorem addMember_eq {acc : Members} (hlist : MemberList P acc.members) (hok : HashOk P acc)
    {t : LuaType} (ht : P t) :
    (addMember h acc t).members = absorbMember acc.members t ∧ HashOk P (addMember h acc t) := by
  unfold addMember
  split
  · rename_i hshort
    obtain ⟨hdedup, hseen⟩ := (shortcut_iff acc.present t).1 hshort
    have hnothing := hok.nothing hP hlist ht hseen
    have hself := eq_self_of_dedupsByEquality t hdedup
    unfold hashInsert
    cases hcontains : h.set.contains acc.hashed t with
    | true =>
      obtain ⟨k, hk, heq⟩ := h.set.eq_of_contains acc.hashed t hcontains
      obtain ⟨hkP, hmem⟩ := hok.fromSet k hk
      obtain rfl := hP.eq k hkP t ht heq
      simp only [Bool.false_eq_true, if_true, if_false]
      refine ⟨(absorbAll_member (hmem.resolve_right hseen) hself hlist.apart ?_).symm, hok⟩
      intro m hm hne
      apply hnothing m hm
      rintro rfl
      rw [hself] at hne
      cases hne
    | false =>
      have hnew : t ∉ acc.members := by
        intro hmem
        have hin := (hok.inSet t hmem hdedup).resolve_right hseen
        rw [h.set.contains_of_mem acc.hashed t hin hself] at hcontains
        cases hcontains
      simp only [Bool.false_eq_true, if_true, if_false]
      refine ⟨(absorbMember_new fun m hm => hnothing m hm ?_).symm, ?_, ?_, ?_⟩
      · rintro rfl
        exact hnew hm
      · intro m hmem
        rw [Nat.testBit_or, testBit_ordinalBit]
        obtain hmem | hmem := List.mem_append.1 hmem
        · rw [hok.mask m hmem, Bool.true_or]
        · rw [List.mem_singleton.1 hmem]
          simp
      · intro m hmem hmdedup
        obtain hmem | hmem := List.mem_append.1 hmem
        · exact (hok.inSet m hmem hmdedup).imp (List.mem_append_left _) fun hseen => hseen.or _
        · exact .inl (List.mem_append_right _ hmem)
      · intro k hk
        obtain hk | hk := List.mem_append.1 hk
        · obtain ⟨hmember, hk⟩ := hok.fromSet k hk
          exact ⟨hmember, hk.imp (List.mem_append_left _) fun hseen => hseen.or _⟩
        · rw [List.mem_singleton.1 hk]
          exact ⟨ht, .inl (List.mem_append_right _ (.head _))⟩
  · rename_i hshort
    obtain ⟨rest, t', habs, hperm, hpresent, -⟩ := absorb_spec acc.members acc.present t
    refine ⟨absorb_eq hok.mask fun hnever => hP.never (hnever ▸ ht), maskOk_absorb hok.mask t, ?_,
      ?_⟩
    · intro m hmem hmdedup
      have hstart : ∀ m ∈ t :: acc.members, m.dedupsByEquality = true →
          m ∈ acc.hashed ∨ PartnerSeen acc.present m := by
        intro m hmem hmdedup
        obtain rfl | hmem := List.mem_cons.1 hmem
        · right
          by_contra hseen
          exact hshort ((shortcut_iff acc.present m).2 ⟨hmdedup, hseen⟩)
        · exact hok.inSet m hmem hmdedup
      have hin := inSet_of_absorbs hP habs hok.mask hlist.member ht hstart m
        (hperm.mem_iff.1 hmem) hmdedup
      refine hin.imp_right fun hseen => ?_
      show PartnerSeen (absorb acc.members acc.present t).2 m
      rw [hpresent]
      exact hseen.or _
    · intro k hk
      obtain ⟨hmember, hk⟩ := hok.fromSet k hk
      refine ⟨hmember, ?_⟩
      show k ∈ (absorb acc.members acc.present t).1 ∨
        PartnerSeen (absorb acc.members acc.present t).2 k
      rw [hpresent, hperm.mem_iff]
      obtain hk | rfl | hk | hk := fromSet_of_absorbs hP habs k hok.mask hlist.member ht
        (hk.imp_right fun hseen => .inr (.inr hseen))
      · exact .inl (List.mem_cons_of_mem t' hk)
      · exact .inl (.head _)
      · refine .inr ⟨t'.sortOrdinal, (sortOrdinal_mem_of_subsumes t' k hk).1, ?_⟩
        rw [Nat.testBit_or, testBit_ordinalBit]
        simp
      · exact .inr (hk.or _)

theorem foldl_addMember_eq (types : List LuaType) (hty : ∀ t ∈ types, P t) :
    ∀ acc : Members, MemberList P acc.members → HashOk P acc →
      (types.foldl (addMember h) acc).members = types.foldl absorbMember acc.members := by
  induction types with
  | nil => exact fun _ _ _ => rfl
  | cons t types ih =>
    intro acc hlist hok
    have ht := hty t (.head _)
    obtain ⟨hmembers, hok'⟩ := addMember_eq (h := h) hP hlist hok ht
    rw [List.foldl_cons, List.foldl_cons, ← hmembers]
    apply ih (List.forall_mem_cons.1 hty).2 _ _ hok'
    rw [hmembers]
    exact memberList_absorbMember hP hlist ht

omit hP

/-! ## §3. The fold on a member list -/

variable {A : Set LuaType} {hA : Settles A}

/-- A member list of the fold: the normal form of `S`, taken from a union it still is the
    member list of if it was taken from one. -/
structure FoldCarry (h : Hashing) (A : Set LuaType) (hA : Settles A) (S : Set LuaType)
    (acc : FoldMembers) : Prop where
  subset : S ⊆ A
  any : ∃ s ∈ S, s ≠ .Any
  reduced : Reduced A hA S acc.members
  hash : HashOk (· ∈ A) acc.toMembers
  taken : ∀ t, acc.takenFrom = some t → ∃ u, t = .Union u ∧ u.intoVec = acc.members ∧
    SortedUnion h u ∧ 2 ≤ acc.members.length

/-- What the accumulator of the fold carries. -/
def FoldCarries (h : Hashing) (A : Set LuaType) (hA : Settles A) (S : Set LuaType) :
    FoldAcc → Prop
  | .Type t => Carries h A hA S t
  | .Members acc => FoldCarry h A hA S acc ∧ 2 ≤ acc.members.length

theorem toMembers_absorb (acc : FoldMembers) (t : LuaType) :
    (acc.absorb h t).toMembers = addMember h acc.toMembers t := by
  unfold FoldMembers.absorb addMember
  split
  · split <;> rfl
  · rfl

/-- The list is still the one it was taken from only if nothing was added. -/
theorem takenFrom_absorb (acc : FoldMembers) (t u : LuaType)
    (htaken : (acc.absorb h t).takenFrom = some u) :
    acc.takenFrom = some u ∧ (acc.absorb h t).members = acc.members := by
  unfold FoldMembers.absorb at htaken ⊢
  split at htaken
  · next hshort =>
      rw [if_pos hshort]
      split at htaken
      · cases htaken
      · next hnew =>
          rw [if_neg hnew]
          exact ⟨htaken, rfl⟩
  · cases htaken

theorem FoldCarry.absorb {S : Set LuaType} {acc : FoldMembers} (hc : FoldCarry h A hA S acc)
    (t : LuaType) (ht : t ∈ A) : FoldCarry h A hA (insert t S) (acc.absorb h t) := by
  have hlist : MemberList (· ∈ A) acc.members := ⟨hc.reduced.atom, hc.reduced.pairwise_eq⟩
  have hadd := addMember_eq (h := h) hA.toCollapsible hlist hc.hash ht
  rw [← toMembers_absorb] at hadd
  refine ⟨Set.insert_subset ht hc.subset, ?_, ?_, hadd.2, ?_⟩
  · obtain ⟨s, hs, hne⟩ := hc.any
    exact ⟨s, Set.mem_insert_of_mem t hs, hne⟩
  · have hmembers : (acc.absorb h t).members = absorbMember acc.members t := hadd.1
    rw [hmembers]
    exact hc.reduced.absorbMember hc.subset t ht
  · intro u hu
    obtain ⟨htaken, hmembers⟩ := takenFrom_absorb acc t u hu
    rw [hmembers]
    exact hc.taken u htaken

theorem FoldCarry.foldl_absorb (types : List LuaType) :
    ∀ (S : Set LuaType) (acc : FoldMembers), FoldCarry h A hA S acc → (∀ t ∈ types, t ∈ A) →
      FoldCarry h A hA (S ∪ {t | t ∈ types}) (types.foldl (FoldMembers.absorb h) acc) := by
  intro S acc hc hty
  exact foldl_insert (P := FoldCarry h A hA) types (fun _ _ t ht hc => hc.absorb t (hty t ht)) S acc
    hc

/-- **A settled step carries what it absorbed.** -/
theorem foldCarries_settle {S : Set LuaType} {acc : FoldMembers} (hc : FoldCarry h A hA S acc) :
    FoldCarries h A hA S (acc.settle h) := by
  obtain ⟨hsome, heq⟩ | ⟨hnone, hnil | ⟨t, hone, heq⟩ | ⟨htwo, acc', hre, heq⟩⟩ :=
    settle_cases (h := h) acc
  · rw [heq]
    obtain ⟨t, ht⟩ := Option.isSome_iff_exists.1 hsome
    obtain ⟨_, _, _, _, htwo⟩ := hc.taken t ht
    exact ⟨hc, htwo⟩
  · obtain ⟨s, hs, _⟩ := hc.any
    obtain ⟨m, hm, _⟩ := hc.reduced.covers s hs
    rw [hnil] at hm
    cases hm
  · rw [heq]
    refine .atom hc.subset hc.any ?_
    rw [← hone]
    exact hc.reduced
  · rw [heq]
    have hperm := hre.members
    refine ⟨⟨hc.subset, hc.any, hc.reduced.perm hperm,
      hc.hash.perm hperm.symm hre.present hre.hashed, ?_⟩, hperm.length_eq ▸ htwo⟩
    intro t ht
    rw [hre.takenFrom, hnone] at ht
    cases ht

theorem carries_intoType {S : Set LuaType} {acc : FoldAcc} (hc : FoldCarries h A hA S acc) :
    Carries h A hA S (acc.intoType h) := by
  match acc, hc with
  | .Type t, hc => exact hc
  | .Members acc, ⟨hc, htwo⟩ =>
    show Carries h A hA S (acc.intoType h)
    unfold FoldMembers.intoType
    split
    · next t ht =>
        obtain ⟨u, rfl, hmembers, hsorted, _⟩ := hc.taken t ht
        refine .union hc.subset hc.any ?_ hsorted ?_
        · rw [hmembers]
          exact hc.reduced
        · rw [hmembers]
          exact htwo
    · obtain ⟨hperm, hsorted⟩ := intoVec_fromVec (h := h) hc.reduced.pairwise_eq
      refine .union hc.subset hc.any (hc.reduced.perm hperm.symm) hsorted ?_
      rw [hperm.length_eq]
      exact htwo

/-- The list taken from a union of distinct members. -/
def takenMembers (h : Hashing) (u : LuaUnionType) : FoldMembers where
  members := u.intoVec
  present := ordinalMask u.intoVec
  hashed := (u.intoVec.filter dedupsByEquality).foldl
    (fun keys member => (hashInsert h keys member).2) []
  sorted := false
  appended := 0
  takenFrom := some (.Union u)

theorem hashOk_takenMembers {u : LuaUnionType} (hlist : MemberList P u.intoVec) :
    HashOk P (takenMembers h u).toMembers := by
  have hkeys := mem_seeded (h := h) _ (hlist.apart.filter dedupsByEquality)
  refine ⟨maskOk_ordinalMask _, ?_, ?_⟩
  · exact fun m hm hdedup => .inl ((hkeys m).2 (List.mem_filter.2 ⟨hm, hdedup⟩))
  · intro k hk
    have hmem := (List.mem_filter.1 ((hkeys k).1 hk)).1
    exact ⟨hlist.member k hmem, .inl hmem⟩

theorem foldCarries_fromType (hplain : Plain A) {S : Set LuaType} {t : LuaType}
    (hc : Carries h A hA S t) : FoldCarries h A hA S (FoldAcc.fromType h t) := by
  unfold FoldAcc.fromType
  split
  · next u =>
      split
      · exact hc
      · cases hc with
        | atom _ _ hred =>
          have := (hplain _ (hred.atom _ (.head _))).1
          cases this
        | union hS hany hred hsorted htwo =>
          refine ⟨⟨hS, hany, hred, hashOk_takenMembers ⟨hred.atom, hred.pairwise_eq⟩, ?_⟩, htwo⟩
          rintro t ⟨⟩
          exact ⟨u, rfl, rfl, hsorted, htwo⟩
  · exact hc

theorem foldCarries_push (hplain : Plain A) {S T : Set LuaType} {acc : FoldAcc}
    (hacc : FoldCarries h A hA S acc) (t : LuaType) (ht : Carries h A hA T t) :
    FoldCarries h A hA (S ∪ T) (acc.push h t) := by
  unfold FoldAcc.push
  split
  · next acc =>
      split
      · next hsteps =>
          have hnever : t ≠ .Never := by
            intro hnever
            rw [hnever] at hsteps
            cases hsteps
          have hred := ht.reduced hplain hnever
          have hfold := hacc.1.foldl_absorb t.spliced S acc hred.atom
          apply foldCarries_settle
          exact ⟨Set.union_subset hacc.1.subset ht.subset, exists_ne_any_union hacc.1.any,
            hfold.reduced.replace ht.subset hred, hfold.hash, hfold.taken⟩
      · exact foldCarries_fromType hplain (carries_unionTypeImpl hplain (carries_intoType hacc) ht)
  · exact foldCarries_fromType hplain (carries_unionTypeImpl hplain hacc ht)

theorem foldCarries_foldl_push (hplain : Plain A) (types : List LuaType) (S : Set LuaType)
    (acc : FoldAcc) (hacc : FoldCarries h A hA S acc)
    (hty : ∀ t ∈ types, Carries h A hA t.memberSet t) :
    FoldCarries h A hA (S ∪ memberSets types) (types.foldl (FoldAcc.push h) acc) :=
  foldl_collects memberSets_nil memberSets_cons (FoldCarries h A hA) types S acc
    (fun t ht _ _ hacc => foldCarries_push hplain hacc t (hty t ht)) hacc

/-- **The fold on a member list gives the normal form** of what it is given. -/
theorem carries_foldUnionShallow (hplain : Plain A) (types : List LuaType)
    (hty : ∀ t ∈ types, Carries h A hA t.memberSet t) :
    Carries h A hA (memberSets types) (foldUnionShallow h types) := by
  have hfold := foldCarries_foldl_push hplain types ∅ (.Type .Never)
    (.never : Carries h A hA ∅ .Never) hty
  rw [Set.empty_union] at hfold
  exact carries_intoType hfold

end LuaType

end GluaLs.Types
