/-
  GluaLs.Types.Collapse — when two union members collapse, and into what
  (`try_collapse`, `absorb` of `db_index/type/type_ops/union_type.rs`).

  One inversion lemma says everything `tryCollapse` can do (`tryCollapse_cases`), and one
  what the loop of `absorb` leaves (`absorb_spec`): the members nothing collapsed with, and
  one that collapses with none of them.
-/
import Mathlib.Data.Nat.Bitwise
import GluaLs.Lib.Absorption
import GluaLs.Types.UnionDef

namespace GluaLs.Types

open GluaLs.Lib

namespace LuaType

/-! ## §1. The rules -/

/-- A primitive and what it absorbs. -/
inductive Subsumes : LuaType → LuaType → Prop
  | integerConst (n) : Subsumes .Integer (.IntegerConst n)
  | docIntegerConst (n) : Subsumes .Integer (.DocIntegerConst n)
  | numberInteger : Subsumes .Number .Integer
  | numberIntegerConst (n) : Subsumes .Number (.IntegerConst n)
  | numberFloatConst (f) : Subsumes .Number (.FloatConst f)
  | stringConst (s) : Subsumes .String (.StringConst s)
  | docStringConst (s) : Subsumes .String (.DocStringConst s)
  | booleanConst (b) : Subsumes .Boolean (.BooleanConst b)
  | tableConst (site) : Subsumes .Table (.TableConst site)
  | docFunction (a c v ps op roles r) : Subsumes .Function (.DocFunction a c v ps op roles r)
  | signature (id) : Subsumes .Function (.Signature id)

/-- How two members collapse to `r`. -/
inductive Collapses (s t r : LuaType) : Prop
  | neverLeft : s = .Never → r = t → Collapses s t r
  | neverRight : t = .Never → r = s → Collapses s t r
  | left : Subsumes s t → r = s → Collapses s t r
  | right : Subsumes t s → r = t → Collapses s t r
  | booleans (b : Bool) : s = .BooleanConst b → t = .BooleanConst (!b) → r = .Boolean →
      Collapses s t r
  | equal : s.eq t = true → r = s → Collapses s t r

theorem Collapses.of_both {P : LuaType → Prop} (hboolean : P .Boolean) {s t r : LuaType}
    (hc : Collapses s t r) (hs : P s) (ht : P t) : P r := by
  cases hc with
  | neverLeft _ hr | right _ hr => exact hr ▸ ht
  | neverRight _ hr | left _ hr | equal _ hr => exact hr ▸ hs
  | booleans _ _ _ hr => exact hr ▸ hboolean

theorem isNumber_cases (t : LuaType) (ht : t.isNumber = true) :
    t = .Number ∨ Subsumes .Number t := by
  cases t with
  | Number => exact .inl rfl
  | Integer => exact .inr .numberInteger
  | IntegerConst n => exact .inr (.numberIntegerConst n)
  | FloatConst f => exact .inr (.numberFloatConst f)
  | _ => cases ht

/-- **Everything `try_collapse` can do.** -/
theorem tryCollapse_cases (s t r : LuaType) (hr : tryCollapse s s t = some r) :
    Collapses s t r := by
  have hsome : ∀ {a : LuaType}, some a = some r → r = a := fun h => (Option.some.inj h).symm
  unfold tryCollapse at hr
  split at hr
  · exact .neverLeft rfl (hsome hr)
  · exact .neverRight rfl (hsome hr)
  · exact .left (.integerConst _) (hsome hr)
  · exact .left (.docIntegerConst _) (hsome hr)
  · exact .right (.integerConst _) (hsome hr)
  · exact .right (.docIntegerConst _) (hsome hr)
  · split at hr
    · next hnum =>
        obtain rfl | hsub := isNumber_cases _ hnum
        · exact .equal rfl (hsome hr)
        · exact .left hsub (hsome hr)
    · split at hr
      · next heq => exact .equal heq (hsome hr)
      · cases hr
  · split at hr
    · next hnum =>
        obtain rfl | hsub := isNumber_cases _ hnum
        · exact .equal rfl (hsome hr)
        · exact .right hsub (hsome hr)
    · split at hr
      · next heq => exact .equal heq (hsome hr)
      · cases hr
  · exact .left (.stringConst _) (hsome hr)
  · exact .left (.docStringConst _) (hsome hr)
  · exact .right (.stringConst _) (hsome hr)
  · exact .right (.docStringConst _) (hsome hr)
  · exact .left (.booleanConst _) (hsome hr)
  · exact .right (.booleanConst _) (hsome hr)
  · next left right =>
      split at hr
      · next heq => exact .equal heq (hsome hr)
      · next hne =>
          refine .booleans left rfl ?_ (hsome hr)
          cases left <;> cases right <;> first | rfl | exact absurd rfl hne
  · exact .left (.tableConst _) (hsome hr)
  · exact .right (.tableConst _) (hsome hr)
  · exact .left (.docFunction ..) (hsome hr)
  · exact .left (.signature _) (hsome hr)
  · exact .right (.docFunction ..) (hsome hr)
  · exact .right (.signature _) (hsome hr)
  · split at hr
    · next heq => exact .equal heq (hsome hr)
    · cases hr

theorem tryCollapse_of_eq (s t : LuaType) (heq : s.eq t = true) : tryCollapse s s t = some s := by
  unfold tryCollapse
  split
  case h_1 => cases t <;> first | rfl | cases heq
  case h_8 => cases s <;> first | rfl | cases heq
  case h_7 =>
    split <;> rfl
  all_goals first | rfl | cases heq | exact if_pos heq

/-- **What collapses is seen to.** -/
theorem tryCollapse_of_collapses {s t r : LuaType} (hc : Collapses s t r) :
    tryCollapse s s t = some r := by
  cases hc with
  | neverLeft hs hr =>
    subst hs hr
    rfl
  | neverRight ht hr =>
    subst ht hr
    cases r <;> rfl
  | left hsub hr =>
    subst hr
    cases hsub <;> rfl
  | right hsub hr =>
    subst hr
    cases hsub <;> rfl
  | booleans b hs ht hr =>
    subst hs ht hr
    cases b <;> rfl
  | equal heq hr => rw [hr, tryCollapse_of_eq s t heq]

theorem not_collapses_of_none (s t : LuaType) (hnone : tryCollapse s s t = none) (r : LuaType) :
    ¬ Collapses s t r := by
  intro hc
  have hsome := tryCollapse_of_collapses hc
  rw [hnone] at hsome
  cases hsome

/-! ## §2. Masks -/

theorem testBit_ordinalBit (t : LuaType) (k : Nat) :
    t.ordinalBit.testBit k = decide (t.sortOrdinal = k) := by
  rw [ordinalBit, Nat.one_shiftLeft, Nat.testBit_two_pow]

theorem and_bit_eq_zero (mask k : Nat) : mask &&& 1 <<< k = 0 ↔ mask.testBit k = false := by
  rw [Nat.one_shiftLeft, Nat.and_two_pow]
  cases mask.testBit k <;> simp

theorem testBit_foldl_or (ordinals : List Nat) (k : Nat) :
    ∀ mask, (ordinals.foldl (fun mask ordinal => mask ||| 1 <<< ordinal) mask).testBit k
      = (mask.testBit k || ordinals.contains k) := by
  induction ordinals with
  | nil =>
    intro mask
    simp
  | cons ordinal ordinals ih =>
    intro mask
    rw [List.foldl_cons, ih, Nat.testBit_or, Nat.one_shiftLeft, Nat.testBit_two_pow]
    have hbeq : (k == ordinal) = decide (ordinal = k) := by
      rw [beq_eq_decide, decide_eq_decide]
      exact eq_comm
    rw [List.contains_cons, hbeq, Bool.or_assoc]

theorem testBit_collapseCandidateMask (t : LuaType) (k : Nat) :
    (collapseCandidateMask t).testBit k
      = (decide (t.sortOrdinal = k) || decide (21 = k)
        || t.collapsePartnerOrdinals.contains k) := by
  rw [collapseCandidateMask, testBit_foldl_or, Nat.testBit_or, testBit_ordinalBit,
    testBit_ordinalBit]
  rfl

/-- Equal types sort under one discriminant. -/
theorem sortOrdinal_eq_of_eq (a b : LuaType) (heq : a.eq b = true) :
    a.sortOrdinal = b.sortOrdinal := by
  cases a <;> cases b <;> first | rfl | cases heq

theorem sortOrdinal_mem_of_subsumes (s t : LuaType) (hsub : Subsumes s t) :
    s.sortOrdinal ∈ t.collapsePartnerOrdinals ∧ t.sortOrdinal ∈ s.collapsePartnerOrdinals := by
  cases hsub <;> simp [sortOrdinal, collapsePartnerOrdinals]

/-- Two types of which one absorbs the other, or two boolean literals. -/
def Clash (a b : LuaType) : Prop :=
  Subsumes a b ∨ Subsumes b a ∨ ∃ c d, a = .BooleanConst c ∧ b = .BooleanConst d

/-- What neither clashes nor is equal, and is not `never`, does not collapse. -/
theorem tryCollapse_eq_none (s t : LuaType) (hs : s ≠ .Never) (ht : t ≠ .Never)
    (hclash : ¬ Clash s t) (heq : s.eq t = false) : tryCollapse s s t = none := by
  cases hr : tryCollapse s s t with
  | none => rfl
  | some r =>
    cases tryCollapse_cases s t r hr with
    | neverLeft hnever _ => exact absurd hnever hs
    | neverRight hnever _ => exact absurd hnever ht
    | left hsub _ => exact absurd (.inl hsub) hclash
    | right hsub _ => exact absurd (.inr (.inl hsub)) hclash
    | booleans b hb hb' _ => exact absurd (.inr (.inr ⟨b, !b, hb, hb'⟩)) hclash
    | equal heq' _ =>
      rw [heq] at heq'
      cases heq'

/-- What clashes with a type sorts under a partner discriminant of it. -/
theorem partner_of_clash (m t : LuaType) (hclash : Clash m t) :
    m.sortOrdinal ∈ t.collapsePartnerOrdinals := by
  obtain hsub | hsub | ⟨c, d, rfl, rfl⟩ := hclash
  · exact (sortOrdinal_mem_of_subsumes m t hsub).1
  · exact (sortOrdinal_mem_of_subsumes t m hsub).2
  · simp [sortOrdinal, collapsePartnerOrdinals]

/-- Anything that collapses sorts under a candidate discriminant. -/
theorem testBit_of_collapses (s t r : LuaType) (hc : Collapses s t r) (ht : t ≠ .Never) :
    (collapseCandidateMask t).testBit s.sortOrdinal = true := by
  rw [testBit_collapseCandidateMask]
  cases hc with
  | neverLeft hs _ => simp [hs, sortOrdinal]
  | neverRight hnever _ => exact absurd hnever ht
  | left hsub _ =>
    have hmem := (sortOrdinal_mem_of_subsumes s t hsub).1
    simp [hmem]
  | right hsub _ =>
    have hmem := (sortOrdinal_mem_of_subsumes t s hsub).2
    simp [hmem]
  | booleans b hs ht' _ => simp [hs, ht', sortOrdinal]
  | equal heq _ => simp [sortOrdinal_eq_of_eq s t heq]

/-- The mask knows every member. -/
def MaskOk (members : List LuaType) (present : Nat) : Prop :=
  ∀ m ∈ members, present.testBit m.sortOrdinal = true

theorem maskOk_foldl (members : List LuaType) :
    ∀ (mask : Nat) (k : Nat),
      (members.foldl (fun mask member => mask ||| member.ordinalBit) mask).testBit k = true ↔
        mask.testBit k = true ∨ ∃ m ∈ members, m.sortOrdinal = k := by
  induction members with
  | nil => simp
  | cons m members ih =>
    intro mask k
    rw [List.foldl_cons, ih, Nat.testBit_or, testBit_ordinalBit]
    simp [or_assoc]

theorem maskOk_ordinalMask (members : List LuaType) : MaskOk members (ordinalMask members) := by
  intro m hm
  exact (maskOk_foldl members 0 _).2 (.inr ⟨m, hm, rfl⟩)

/-! ## §3. `absorb` -/

/-- What `findCollapse` finds. -/
theorem findCollapse_some (candidates : Nat) (t : LuaType) (members : List LuaType) :
    ∀ i r, findCollapse candidates t members = some (i, r) →
      ∃ m, members.Perm (m :: members.eraseIdx i) ∧ tryCollapse m m t = some r := by
  induction members with
  | nil =>
    intro i r hfind
    cases hfind
  | cons m members ih =>
    intro i r hfind
    have hrest : ((findCollapse candidates t members).map fun found => (found.1 + 1, found.2))
        = some (i, r) → ∃ m', (m :: members).Perm (m' :: (m :: members).eraseIdx i) ∧
          tryCollapse m' m' t = some r := by
      intro hmap
      obtain ⟨⟨j, r'⟩, hfound, heq⟩ := Option.map_eq_some_iff.1 hmap
      cases heq
      obtain ⟨m', hperm, hcollapse⟩ := ih j _ hfound
      refine ⟨m', ?_, hcollapse⟩
      exact (hperm.cons m).trans (.swap m' m _)
    unfold findCollapse at hfind
    split at hfind
    · exact hrest hfind
    · split at hfind
      · next merged hmerged =>
          cases hfind
          exact ⟨m, .refl _, hmerged⟩
      · exact hrest hfind

/-- Where it finds nothing nothing collapses. -/
theorem findCollapse_none (t : LuaType) (ht : t ≠ .Never) (members : List LuaType)
    (hfind : findCollapse (collapseCandidateMask t) t members = none) :
    ∀ m ∈ members, tryCollapse m m t = none := by
  induction members with
  | nil =>
    intro m hm
    cases hm
  | cons m members ih =>
    unfold findCollapse at hfind
    split at hfind
    · next hmask =>
        rw [ordinalBit, and_bit_eq_zero] at hmask
        intro m' hm'
        obtain rfl | hm' := List.mem_cons.1 hm'
        · cases hcollapse : tryCollapse m' m' t with
          | none => rfl
          | some r =>
            have hbit := testBit_of_collapses m' t r (tryCollapse_cases m' t r hcollapse) ht
            rw [hmask] at hbit
            cases hbit
        · exact ih (Option.map_eq_none_iff.1 hfind) m' hm'
    · split at hfind
      · cases hfind
      · next hnone =>
          intro m' hm'
          obtain rfl | hm' := List.mem_cons.1 hm'
          · exact hnone
          · exact ih (Option.map_eq_none_iff.1 hfind) m' hm'

/-- The mask rules out what it says. -/
theorem tryCollapse_none_of_mask (t : LuaType) (ht : t ≠ .Never) (members : List LuaType)
    (present : Nat) (hok : MaskOk members present)
    (hmask : collapseCandidateMask t &&& present = 0) :
    ∀ m ∈ members, tryCollapse m m t = none := by
  intro m hm
  cases hcollapse : tryCollapse m m t with
  | none => rfl
  | some r =>
    have hbit := testBit_of_collapses m t r (tryCollapse_cases m t r hcollapse) ht
    have hzero := congrArg (Nat.testBit · m.sortOrdinal) hmask
    simp [hbit, hok m hm] at hzero

theorem ne_never_of_collapses (s t r : LuaType) (hc : Collapses s t r) (ht : t ≠ .Never) :
    r ≠ .Never := by
  cases hc with
  | neverLeft _ hr => exact hr ▸ ht
  | neverRight hnever _ => exact absurd hnever ht
  | left hsub hr =>
    subst hr
    cases hsub <;> exact nofun
  | right _ hr => exact hr ▸ ht
  | booleans _ _ _ hr =>
    subst hr
    exact nofun
  | equal heq hr =>
    intro hnever
    apply ht
    rw [← hr, hnever] at heq
    cases t <;> first | rfl | cases heq

/-- What the loop leaves. -/
theorem absorbLoop_spec (present rounds : Nat) :
    ∀ members slot t, members.length ≤ rounds →
      Absorbs Collapses members t (absorbLoop present rounds members slot t).1
        (absorbLoop present rounds members slot t).2.2 ∧
      (MaskOk members present → t ≠ .Never →
        ∀ m ∈ (absorbLoop present rounds members slot t).1,
          tryCollapse m m (absorbLoop present rounds members slot t).2.2 = none) := by
  induction rounds with
  | zero =>
    intro members slot t hlen
    have hnil : members = [] := List.length_eq_zero_iff.1 (Nat.le_zero.1 hlen)
    subst hnil
    exact ⟨.done _ _, nofun⟩
  | succ rounds ih =>
    intro members slot t hlen
    unfold absorbLoop
    split
    · next hmask => exact ⟨.done _ _, fun hok ht => tryCollapse_none_of_mask t ht _ _ hok hmask⟩
    · split
      · next found hfound =>
          obtain ⟨m, hperm, hcollapse⟩ := findCollapse_some _ t members found.1 found.2 hfound
          have hcases := tryCollapse_cases m t found.2 hcollapse
          have hlen' : (members.eraseIdx found.1).length ≤ rounds := by
            have := hperm.length_eq
            rw [List.length_cons] at this
            omega
          obtain ⟨habsorbs, hnone⟩ := ih _ (min slot found.1) found.2 hlen'
          refine ⟨.step _ _ _ m t _ _ hperm hcases habsorbs, ?_⟩
          intro hok ht
          refine hnone ?_ (ne_never_of_collapses m t found.2 hcases ht)
          intro m' hm'
          exact hok m' (hperm.mem_iff.2 (.tail m hm'))
      · next hnone => exact ⟨.done _ _, fun _ ht => findCollapse_none t ht members hnone⟩

/-- **What `absorb` leaves**: the type has collapsed with members one after the other, and
    what it has become collapses with none of the rest. -/
theorem absorb_spec (members : List LuaType) (present : Nat) (t : LuaType) :
    ∃ rest t', Absorbs Collapses members t rest t' ∧
    (absorb members present t).1.Perm (t' :: rest) ∧
      (absorb members present t).2 = present ||| t'.ordinalBit ∧
      (MaskOk members present → t ≠ .Never → ∀ m ∈ rest, tryCollapse m m t' = none) := by
  obtain ⟨habsorbs, hnone⟩ := absorbLoop_spec present members.length members members.length t le_rfl
  refine ⟨_, _, habsorbs, ?_, rfl, hnone⟩
  exact List.perm_insertIdx _ _ (min_le_right _ _)

/-- What holds of `boolean` and of all members and types holds of all that is left. -/
theorem all_foldl_absorb {P : LuaType → Prop} (hboolean : P .Boolean) (types : List LuaType)
    (hty : ∀ t ∈ types, P t) :
    ∀ acc : List LuaType × Nat, (∀ m ∈ acc.1, P m) →
      ∀ m ∈ (types.foldl (fun acc t => absorb acc.1 acc.2 t) acc).1, P m := by
  induction types with
  | nil => exact fun _ hacc => hacc
  | cons t types ih =>
    intro acc hacc
    apply ih (List.forall_mem_cons.1 hty).2
    obtain ⟨rest, t', habs, hperm, -, -⟩ := absorb_spec acc.1 acc.2 t
    intro m hm
    exact habs.all (fun _ _ _ _ hm ht hc => hc.of_both hboolean hm ht)
      (List.forall_mem_cons.2 ⟨hty t (.head _), hacc⟩) m (hperm.mem_iff.1 hm)

theorem findCollapse_eq_none (candidates : Nat) (t : LuaType) (members : List LuaType)
    (hnone : ∀ m ∈ members, tryCollapse m m t = none) :
    findCollapse candidates t members = none := by
  induction members with
  | nil => rfl
  | cons m members ih =>
    have hrest := ih (List.forall_mem_cons.1 hnone).2
    simp [findCollapse, hnone m List.mem_cons_self, hrest]

theorem absorbLoop_none (present rounds : Nat) (members : List LuaType) (slot : Nat) (t : LuaType)
    (hnone : ∀ m ∈ members, tryCollapse m m t = none) :
    absorbLoop present rounds members slot t = (members, slot, t) := by
  cases rounds with
  | zero => rfl
  | succ rounds =>
    unfold absorbLoop
    rw [findCollapse_eq_none _ t members hnone]
    simp

/-- **What collapses with no member goes to the end.** -/
theorem absorb_new (members : List LuaType) (present : Nat) (t : LuaType)
    (hnone : ∀ m ∈ members, tryCollapse m m t = none) :
    absorb members present t = (members ++ [t], present ||| t.ordinalBit) := by
  unfold absorb
  rw [absorbLoop_none present _ members _ t hnone]
  simp [List.insertIdx_length_self]

/-- **The loop does the same for every mask that knows the members.** -/
theorem absorbLoop_congr {present present' : Nat} (rounds : Nat) :
    ∀ members slot t, MaskOk members present → MaskOk members present' → t ≠ .Never →
      absorbLoop present rounds members slot t = absorbLoop present' rounds members slot t := by
  induction rounds with
  | zero => exact fun _ _ _ _ _ _ => rfl
  | succ rounds ih =>
    intro members slot t hok hok' ht
    by_cases hnone : ∀ m ∈ members, tryCollapse m m t = none
    · rw [absorbLoop_none present _ members slot t hnone,
        absorbLoop_none present' _ members slot t hnone]
    · unfold absorbLoop
      rw [if_neg fun hmask => hnone (tryCollapse_none_of_mask t ht members present hok hmask),
        if_neg fun hmask => hnone (tryCollapse_none_of_mask t ht members present' hok' hmask)]
      cases hfind : findCollapse (collapseCandidateMask t) t members with
      | none => rfl
      | some found =>
        obtain ⟨m, hperm, hcollapse⟩ := findCollapse_some _ t members found.1 found.2 hfind
        have hsub : ∀ s ∈ members.eraseIdx found.1, s ∈ members :=
          fun s hs => hperm.mem_iff.2 (.tail m hs)
        have hcases := tryCollapse_cases m t found.2 hcollapse
        exact ih _ _ _ (fun s hs => hok s (hsub s hs)) (fun s hs => hok' s (hsub s hs))
          (ne_never_of_collapses m t found.2 hcases ht)

/-- The members with the type absorbed. -/
def absorbMember (members : List LuaType) (t : LuaType) : List LuaType :=
  (absorb members (ordinalMask members) t).1

theorem absorb_eq {members : List LuaType} {present : Nat} (hok : MaskOk members present)
    {t : LuaType} (ht : t ≠ .Never) : (absorb members present t).1 = absorbMember members t := by
  unfold absorbMember absorb
  rw [absorbLoop_congr members.length members _ t hok (maskOk_ordinalMask members) ht]

theorem maskOk_absorb {members : List LuaType} {present : Nat} (hok : MaskOk members present)
    (t : LuaType) : MaskOk (absorb members present t).1 (absorb members present t).2 := by
  obtain ⟨rest, t', habs, hperm, hpresent, -⟩ := absorb_spec members present t
  intro m hm
  rw [hpresent, Nat.testBit_or, testBit_ordinalBit]
  obtain rfl | hm := List.mem_cons.1 (hperm.mem_iff.1 hm)
  · simp
  · rw [hok m (habs.subset m hm), Bool.true_or]

/-- Absorbing types one after the other, by whatever mask knows the members. -/
theorem foldl_absorb_eq (types : List LuaType) (hty : ∀ t ∈ types, t ≠ .Never) :
    ∀ (members : List LuaType) (present : Nat), MaskOk members present →
      (types.foldl (fun acc t => absorb acc.1 acc.2 t) (members, present)).1 =
        types.foldl absorbMember members := by
  induction types with
  | nil => exact fun _ _ _ => rfl
  | cons t types ih =>
    intro members present hok
    have ht := hty t (.head _)
    rw [List.foldl_cons, List.foldl_cons, ← absorb_eq hok ht]
    exact ih (List.forall_mem_cons.1 hty).2 _ _ (maskOk_absorb hok t)

theorem absorbAll_eq (members types : List LuaType) (hty : ∀ t ∈ types, t ≠ .Never) :
    absorbAll members types = types.foldl absorbMember members :=
  foldl_absorb_eq types hty members _ (maskOk_ordinalMask members)

/-- What the type has become, and what stayed beside it. -/
structure Absorbed (members : List LuaType) (t : LuaType) (rest : List LuaType) (t' : LuaType) :
    Prop where
  absorbs : Absorbs Collapses members t rest t'
  perm : (absorbMember members t).Perm (t' :: rest)
  none : ∀ m ∈ rest, tryCollapse m m t' = none

theorem exists_absorbed (members : List LuaType) (t : LuaType) (ht : t ≠ .Never) :
    ∃ rest t', Absorbed members t rest t' := by
  obtain ⟨rest, t', habs, hperm, -, hnone⟩ := absorb_spec members (ordinalMask members) t
  exact ⟨rest, t', habs, hperm, hnone (maskOk_ordinalMask members) ht⟩

/-! ## §4. The sorted insert -/

/-- The smaller members, the larger ones and those of the same key. -/
def smallerMembers (h : Hashing) (members : List LuaType) (right : LuaType) : List LuaType :=
  members.takeWhile fun member => member.sortKey h < right.sortKey h

def largerMembers (h : Hashing) (members : List LuaType) (right : LuaType) : List LuaType :=
  members.dropWhile fun member => member.sortKey h < right.sortKey h

def equalMembers (h : Hashing) (members : List LuaType) (right : LuaType) : List LuaType :=
  (largerMembers h members right).takeWhile fun member => member.sortKey h = right.sortKey h

/-- What the search has looked at when it answers. -/
structure Checked (members : List LuaType) (right : LuaType) : Prop where
  never : right.isNever = false ∧ ∀ m ∈ members, m.isNever = false
  insensitive : (members ++ [right]).all isOrderInsensitiveMember = true
  partner : right.collapsePartnerOrdinals.any (containsOrdinal members) = false

/-- **What the sorted insert answers**: the member inserted where no member has its key, or
the source where the member is there. -/
theorem unionSortedInsert_cases {h : Hashing} {left : LuaUnionType} {source right r : LuaType}
    (hinsert : unionSortedInsert h left source right = some r) :
    ∃ members, left = .Multi members ∧ Checked members right ∧
      (equalMembers h members right = [] ∧
          r = .Union (.Multi (smallerMembers h members right ++
            right :: largerMembers h members right)) ∨
        containsType members right = true ∧ r = source) := by
  unfold unionSortedInsert at hinsert
  split at hinsert
  · cases hinsert
  · rename_i members
    split at hinsert
    · cases hinsert
    · rename_i hguard
      split at hinsert
      · cases hinsert
      · rename_i hall
        split at hinsert
        · cases hinsert
        · rename_i hpartner
          simp only [Bool.not_eq_true, Bool.or_eq_false_iff, Bool.not_eq_false'] at hguard
          simp only [Bool.not_eq_true', Bool.not_eq_false, List.all_eq_true, Bool.and_eq_true,
            Bool.or_eq_false_iff] at hall
          have hinsensitive : members.all isOrderInsensitiveMember = true :=
            List.all_eq_true.2 fun m hm => (hall m hm).1
          refine ⟨members, rfl, ⟨⟨hguard.1.1.1, fun m hm => (hall m hm).2.1⟩, ?_, ?_⟩, ?_⟩
          · simp [List.all_append, hinsensitive, hguard.2]
          · exact Bool.not_eq_true _ ▸ hpartner
          · dsimp only at hinsert
            split at hinsert
            · rename_i hempty
              cases hinsert
              exact .inl ⟨List.isEmpty_iff.1 hempty, rfl⟩
            · split at hinsert
              · rename_i hcontains
                cases hinsert
                obtain ⟨s, hs, heq⟩ := List.any_eq_true.1 hcontains
                refine .inr ⟨List.any_eq_true.2 ⟨s, ?_, heq⟩, rfl⟩
                exact (List.dropWhile_suffix _).subset ((List.takeWhile_prefix _).subset hs)
              · cases hinsert

theorem smaller_append_larger (h : Hashing) (members : List LuaType) (right : LuaType) :
    smallerMembers h members right ++ largerMembers h members right = members :=
  List.takeWhile_append_dropWhile

/-- The longer list is the members and the type. -/
theorem perm_inserted (h : Hashing) (members : List LuaType) (right : LuaType) :
    (smallerMembers h members right ++ right :: largerMembers h members right).Perm
      (right :: members) := by
  refine List.perm_middle.trans ?_
  rw [smaller_append_larger]

/-! ## §5. The rules

  Among types that SETTLE, a primitive is above what it absorbs and a collapse is the least
  type above its two sides.  One thing stands against it: `number` absorbs `integer`, which
  absorbs the literals an author wrote, and `number` does not absorb these.  So `number`,
  `integer` and such a literal are not all among types that settle.
-/

/-- Types that collapse among themselves, no two of them equal without being the same. -/
structure Collapsible (P : LuaType → Prop) : Prop where
  never : ¬ P .Never
  boolean : P .Boolean
  eq : ∀ s, P s → ∀ t, P t → s.eq t = true → s = t

/-- Types whose collapses do not depend on the order they are made in. -/
structure Settles (A : Set LuaType) : Prop extends Collapsible (· ∈ A) where
  numbers : ∀ n, ¬ (.Number ∈ A ∧ .Integer ∈ A ∧ .DocIntegerConst n ∈ A)

/-- The same type, or what absorbs it. -/
def Below (a b : LuaType) : Prop := a = b ∨ Subsumes b a

theorem subsumes_asymm (a b : LuaType) (hab : Subsumes a b) : ¬ Subsumes b a := by
  intro hba
  cases hab <;> cases hba

/-- What absorbs what absorbs. -/
theorem subsumes_trans (a b c : LuaType) (hba : Subsumes b a) (hcb : Subsumes c b) :
    Subsumes c a ∨ ∃ n, c = .Number ∧ b = .Integer ∧ a = .DocIntegerConst n := by
  cases hcb <;> cases hba
  · exact .inl (.numberIntegerConst _)
  · exact .inr ⟨_, rfl, rfl, rfl⟩

variable {A : Set LuaType}

theorem below_trans (hA : Settles A) (a b c : LuaType) (ha : a ∈ A) (hb : b ∈ A) (hc : c ∈ A)
    (hab : Below a b) (hbc : Below b c) : Below a c := by
  obtain rfl | hab := hab
  · exact hbc
  · obtain rfl | hbc := hbc
    · exact .inr hab
    · obtain hca | ⟨n, rfl, rfl, rfl⟩ := subsumes_trans a b c hab hbc
      · exact .inr hca
      · exact absurd ⟨hc, hb, ha⟩ (hA.numbers n)

theorem below_antisymm (a b : LuaType) (hab : Below a b) (hba : Below b a) : a = b := by
  obtain rfl | hab := hab
  · rfl
  · obtain rfl | hba := hba
    · rfl
    · exact absurd hba (subsumes_asymm b a hab)

/-- Above a boolean literal is itself or `boolean`. -/
theorem below_booleanConst (b : Bool) (m : LuaType) (hm : Below (.BooleanConst b) m) :
    m = .BooleanConst b ∨ m = .Boolean := by
  obtain rfl | hm := hm
  · exact .inl rfl
  · cases hm
    exact .inr rfl

section

variable {P : LuaType → Prop} (hP : Collapsible P) (a b r : LuaType) (ha : P a) (hb : P b)
  (hc : Collapses a b r)
include hP ha hb hc

/-- How two such types collapse. -/
theorem collapses_cases :
    (r = a ∧ Below b a) ∨ (r = b ∧ Below a b) ∨
      ∃ c, a = .BooleanConst c ∧ b = .BooleanConst (!c) ∧ r = .Boolean := by
  cases hc with
  | neverLeft hs _ => exact absurd (hs ▸ ha) hP.never
  | neverRight ht _ => exact absurd (ht ▸ hb) hP.never
  | left hsub hr => exact .inl ⟨hr, .inr hsub⟩
  | right hsub hr => exact .inr (.inl ⟨hr, .inr hsub⟩)
  | booleans c hs ht hr => exact .inr (.inr ⟨c, hs, ht, hr⟩)
  | equal heq hr => exact .inl ⟨hr, .inl (hP.eq a ha b hb heq).symm⟩

theorem collapses_symm : ∃ r', Collapses b a r' := by
  cases hc with
  | neverLeft hs _ => exact ⟨b, .neverRight hs rfl⟩
  | neverRight ht _ => exact ⟨a, .neverLeft ht rfl⟩
  | left hsub _ => exact ⟨a, .right hsub rfl⟩
  | right hsub _ => exact ⟨b, .left hsub rfl⟩
  | booleans c hs ht _ => exact ⟨.Boolean, .booleans (!c) ht (by rw [hs, Bool.not_not]) rfl⟩
  | equal heq hr =>
    obtain rfl := hP.eq a ha b hb heq
    exact ⟨r, .equal heq hr⟩

theorem mem_of_collapses : P r := by
  obtain ⟨rfl, _⟩ | ⟨rfl, _⟩ | ⟨_, _, _, rfl⟩ := collapses_cases hP a b r ha hb hc
  · exact ha
  · exact hb
  · exact hP.boolean

end

/-- Collapsing does not depend on which of the two is the member. -/
theorem tryCollapse_comm {P : LuaType → Prop} (hP : Collapsible P) {s t : LuaType} (hs : P s)
    (ht : P t) (hnone : tryCollapse s s t = none) : tryCollapse t t s = none := by
  cases hr : tryCollapse t t s with
  | none => rfl
  | some r =>
    obtain ⟨r', hc⟩ := collapses_symm hP t s r ht hs (tryCollapse_cases t s r hr)
    exact absurd hc (not_collapses_of_none s t hnone r')

/-- **The collapse rules on types that settle.** -/
def rules (A : Set LuaType) (hA : Settles A) : AbsorptionRules LuaType where
  atom := A
  le := Below
  collapse a b r := a ∈ A ∧ b ∈ A ∧ Collapses a b r
  le_refl := fun a => .inl rfl
  le_trans := below_trans hA
  le_antisymm := below_antisymm
  collapse_symm := by
    rintro a b r ⟨ha, hb, hc⟩
    obtain ⟨r', hc'⟩ := collapses_symm hA.toCollapsible a b r ha hb hc
    exact ⟨r', hb, ha, hc'⟩
  atom_of_collapse := fun a b r ha hb hc => mem_of_collapses hA.toCollapsible a b r ha hb hc.2.2
  le_of_collapse := by
    rintro a b r ha hb ⟨_, _, hc⟩
    obtain ⟨rfl, hle⟩ | ⟨rfl, hle⟩ | ⟨c, rfl, rfl, rfl⟩ :=
      collapses_cases hA.toCollapsible a b r ha hb hc
    · exact ⟨.inl rfl, hle⟩
    · exact ⟨hle, .inl rfl⟩
    · exact ⟨.inr (.booleanConst c), .inr (.booleanConst !c)⟩
  collapse_least := by
    rintro a b r m ha hb _ ⟨_, _, hc⟩ ham hbm
    obtain ⟨rfl, _⟩ | ⟨rfl, _⟩ | ⟨c, rfl, rfl, rfl⟩ :=
      collapses_cases hA.toCollapsible a b r ha hb hc
    · exact ham
    · exact hbm
    · obtain rfl | rfl := below_booleanConst c m ham
      · obtain heq | heq := below_booleanConst (!c) _ hbm
        · cases c <;> cases heq
        · cases heq
      · exact .inl rfl
  collapse_above := by
    rintro a b r m n ha hb hm hn ⟨_, _, hc⟩ ham hbn
    obtain ⟨rfl, _⟩ | ⟨rfl, _⟩ | ⟨c, rfl, rfl, rfl⟩ :=
      collapses_cases hA.toCollapsible a b r ha hb hc
    · exact .inl ham
    · exact .inr (.inl hbn)
    · obtain rfl | rfl := below_booleanConst c m ham
      · obtain rfl | rfl := below_booleanConst (!c) n hbn
        · exact .inr (.inr ⟨.Boolean, hm, hn, .booleans c rfl rfl rfl⟩)
        · exact .inr (.inl (.inl rfl))
      · exact .inl (.inl rfl)
  collapse_of_le := by
    intro a b ha hb hab
    obtain rfl | hsub := hab
    · exact .inl rfl
    · exact .inr ⟨b, ha, hb, .right hsub rfl⟩

/-! ## §6. Lists of members -/

/-- `members` is the normal form of the types in `S`, in some order. -/
def Reduced (A : Set LuaType) (hA : Settles A) (S : Set LuaType) (members : List LuaType) : Prop :=
  (rules A hA).Reduces S members

variable {hA : Settles A}

/-- Collapsing stays among the types that settle. -/
theorem absorbs_rules {members rest : List LuaType} {t t' : LuaType}
    (habs : Absorbs Collapses members t rest t') :
    (∀ m ∈ members, m ∈ A) → t ∈ A → Absorbs (rules A hA).collapse members t rest t' := by
  induction habs with
  | done members t =>
    intro _ _
    exact .done members t
  | step members members' rest m t r t' hperm hc _ ih =>
    intro hmembers ht
    have hm : m ∈ A := hmembers m (hperm.mem_iff.2 (.head _))
    refine .step members members' rest m t r t' hperm ⟨hm, ht, hc⟩ (ih ?_ ?_)
    · intro x hx
      exact hmembers x (hperm.mem_iff.2 (.tail m hx))
    · exact mem_of_collapses hA.toCollapsible m t r hm ht hc

/-- **Absorbing keeps the normal form.** -/
theorem Reduced.absorbMember {S : Set LuaType} {members : List LuaType}
    (hred : Reduced A hA S members) (hS : S ⊆ A) (t : LuaType) (ht : t ∈ A) :
    Reduced A hA (insert t S) (LuaType.absorbMember members t) := by
  obtain ⟨rest, t', habsorbed⟩ := exists_absorbed members t fun hnever => hA.never (hnever ▸ ht)
  refine AbsorptionRules.Reduces.perm ?_ habsorbed.perm.symm
  apply AbsorptionRules.Reduces.absorb hred ht hS (absorbs_rules habsorbed.absorbs hred.atom ht)
  intro m hm r hc
  exact not_collapses_of_none m t' (habsorbed.none m hm) r hc.2.2

section

variable {S : Set LuaType} {members : List LuaType} (hred : Reduced A hA S members)
include hred

/-- The types of a list absorbed into a list of members. -/
theorem Reduced.absorbAll (hS : S ⊆ A) (types : List LuaType) (hty : ∀ t ∈ types, t ∈ A) :
    Reduced A hA (S ∪ {t | t ∈ types}) (types.foldl LuaType.absorbMember members) := by
  refine (foldl_insert (P := fun S acc => S ⊆ A ∧ Reduced A hA S acc) types ?_ S members
    ⟨hS, hred⟩).2
  intro S acc t ht hacc
  exact ⟨Set.insert_subset (hty t ht) hacc.1, hacc.2.absorbMember hacc.1 t (hty t ht)⟩

/-- No two positions hold equal members. -/
theorem Reduced.pairwise_eq : members.Pairwise fun a b => a.eq b = false := by
  have hirr : (rules A hA).Irreducible members := hred.irreducible
  apply List.Pairwise.imp_of_mem _ hirr
  intro a b ha hb hnone
  cases heq : a.eq b with
  | false => rfl
  | true => exact absurd ⟨hred.atom a ha, hred.atom b hb, .equal heq rfl⟩ (hnone a)

end

end LuaType

end GluaLs.Types
