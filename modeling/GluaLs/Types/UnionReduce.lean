/-
  GluaLs.Types.UnionReduce — the pairwise union keeps the normal form of what it has seen.

  `Carries S t` says that the type `t` is the normal form of the set `S`: `never` for
  nothing, one type, or a union of its members, sorted if their order carries no meaning.
  One step of the pairwise rule joins two such types (`carries_unionTypeImpl`).
-/
import Mathlib.Data.List.TakeWhile
import GluaLs.Types.Collapse
import GluaLs.Types.Structural

namespace GluaLs.Types

open GluaLs.Lib

namespace LuaType

variable {h : Hashing} {A : Set LuaType} {hA : Settles A}

/-! ## §1. Sorted unions -/

/-- A union whose order carries no meaning is stored sorted. -/
def SortedUnion (h : Hashing) : LuaUnionType → Prop
  | .Nullable _ => True
  | .Multi members => members.all isOrderInsensitiveMember = true →
      members.Pairwise fun a b => a.sortKey h ≤ b.sortKey h

theorem pairwise_sortTypes (types : List LuaType) :
    (sortTypes h types).Pairwise fun a b => a.sortKey h ≤ b.sortKey h := by
  have : Std.Total fun a b : LuaType => a.sortKey h ≤ b.sortKey h := ⟨fun a b => le_total _ _⟩
  have : IsTrans LuaType fun a b : LuaType => a.sortKey h ≤ b.sortKey h :=
    ⟨fun _ _ _ hab hbc => le_trans hab hbc⟩
  exact List.pairwise_insertionSort _ types

theorem sortedUnion_fromNormalizedVec (types : List LuaType)
    (hsorted : types.all isOrderInsensitiveMember = true →
      types.Pairwise fun a b => a.sortKey h ≤ b.sortKey h) :
    SortedUnion h (.fromNormalizedVec types) := by
  unfold LuaUnionType.fromNormalizedVec
  split
  · split
    · trivial
    · exact hsorted
  · exact hsorted

/-- A union of members that are not equal has these members. -/
theorem intoVec_fromVec {members : List LuaType}
    (hapart : members.Pairwise fun a b => a.eq b = false) :
    (LuaUnionType.fromVec h members).intoVec.Perm members ∧
      SortedUnion h (.fromVec h members) := by
  have hdedup := dedupTypes_eq_self _ (pairwise_perm (sortTypes_perm (h := h) members) hapart)
  unfold LuaUnionType.fromVec
  split
  · rw [hdedup]
    refine ⟨(intoVec_fromNormalizedVec _).trans (sortTypes_perm members), ?_⟩
    exact sortedUnion_fromNormalizedVec _ fun _ => pairwise_sortTypes members
  · next hshort =>
      refine ⟨intoVec_fromNormalizedVec members, sortedUnion_fromNormalizedVec _ ?_⟩
      intro hall
      match members, hshort with
      | [], _ => exact .nil
      | [m], _ => exact List.pairwise_singleton _ _
      | a :: b :: rest, hshort => exact absurd ⟨by simp, hall⟩ hshort

/-! ## §2. The structural constructor -/

/-- **The type is the normal form of the set.** -/
inductive Carries (h : Hashing) (A : Set LuaType) (hA : Settles A) : Set LuaType → LuaType → Prop
  | never : Carries h A hA ∅ .Never
  | atom {S t} : S ⊆ A → (∃ s ∈ S, s ≠ .Any) → Reduced A hA S [t] → Carries h A hA S t
  | union {S u} : S ⊆ A → (∃ s ∈ S, s ≠ .Any) → Reduced A hA S u.intoVec → SortedUnion h u →
      2 ≤ u.intoVec.length → Carries h A hA S (.Union u)

/-- Members that are no unions, built into a type. -/
theorem carries_fromVecStructural (hplain : ∀ t ∈ A, t.isUnion = false) {S : Set LuaType}
    {members : List LuaType} (hS : S ⊆ A) (hany : ∃ s ∈ S, s ≠ .Any)
    (hred : Reduced A hA S members) : Carries h A hA S (fromVecStructural h members) := by
  match members, hred with
  | [], hred =>
    obtain ⟨s, hs, _⟩ := hany
    obtain ⟨m, hm, _⟩ := hred.covers s hs
    cases hm
  | [t], hred => exact .atom hS hany hred
  | a :: b :: rest, hred =>
    rw [fromVecStructural_plain _ (by simp)
      (fun t ht => hplain t (hred.atom t ht)) hred.pairwise_eq]
    obtain ⟨hperm, hsorted⟩ := intoVec_fromVec (h := h) hred.pairwise_eq
    exact .union hS hany (hred.perm hperm.symm) hsorted (by rw [hperm.length_eq]; simp)

/-! ## §3. Inserting into a sorted union -/

theorem sortOrdinal_le_of_sortKey_le (a b : LuaType) (hle : a.sortKey h ≤ b.sortKey h) :
    a.sortOrdinal ≤ b.sortOrdinal := by
  obtain hlt | ⟨heq, _⟩ := Prod.Lex.toLex_le_toLex.1 hle
  · exact le_of_lt hlt
  · exact le_of_eq heq

/-- A member is in front of the first one that fails a test, or from there on. -/
theorem mem_dropWhile_of_not {members : List LuaType} {p : LuaType → Bool} (m : LuaType)
    (hm : m ∈ members) (hp : p m = false) : m ∈ members.dropWhile p := by
  rw [← List.takeWhile_append_dropWhile (p := p) (l := members)] at hm
  obtain hm | hm := List.mem_append.1 hm
  · rw [List.mem_takeWhile_imp hm] at hp
    cases hp
  · exact hm

/-- What a sorted list is cut at: the first member of the rest passes no test, and is not
    larger than the others. -/
theorem dropWhile_cons_sorted {members : List LuaType} {p : LuaType → Bool}
    (hsorted : members.Pairwise fun a b => a.sortKey h ≤ b.sortKey h) (x : LuaType)
    (rest : List LuaType) (hdrop : members.dropWhile p = x :: rest) :
    p x = false ∧ ∀ y ∈ x :: rest, x.sortKey h ≤ y.sortKey h := by
  have hsub : (x :: rest).Pairwise fun a b => a.sortKey h ≤ b.sortKey h := by
    rw [← hdrop]
    exact hsorted.sublist (List.dropWhile_sublist _)
  refine ⟨?_, ?_⟩
  · have hhead := List.head?_dropWhile_not p members
    rw [hdrop] at hhead
    simpa using hhead
  · intro y hy
    obtain rfl | hy := List.mem_cons.1 hy
    · exact le_rfl
    · exact (List.pairwise_cons.1 hsub).1 y hy

/-- The search for a discriminant finds it in a sorted list. -/
theorem containsOrdinal_of_mem {members : List LuaType}
    (hsorted : members.Pairwise fun a b => a.sortKey h ≤ b.sortKey h) (m : LuaType)
    (hm : m ∈ members) : containsOrdinal members m.sortOrdinal = true := by
  have hdrop :=
    mem_dropWhile_of_not (p := fun member => decide (member.sortOrdinal < m.sortOrdinal))
    m hm (by simp)
  unfold containsOrdinal
  cases hlist : members.dropWhile fun member => decide (member.sortOrdinal < m.sortOrdinal) with
  | nil =>
    rw [hlist] at hdrop
    cases hdrop
  | cons x rest =>
    obtain ⟨hx, hleast⟩ := dropWhile_cons_sorted hsorted x rest hlist
    have hle := sortOrdinal_le_of_sortKey_le x m (hleast m (hlist ▸ hdrop))
    have hge : m.sortOrdinal ≤ x.sortOrdinal := by simpa using hx
    simp only [List.head?_cons, beq_iff_eq]
    omega

/-- The search does not meet a member of the type's key, so the type is new. -/
theorem ne_of_equalMembers {members : List LuaType} {right : LuaType}
    (hsorted : members.Pairwise fun a b => a.sortKey h ≤ b.sortKey h)
    (hempty : equalMembers h members right = []) (m : LuaType)
    (hm : m ∈ largerMembers h members right) : m.sortKey h ≠ right.sortKey h := by
  intro heq
  cases hlist : members.dropWhile fun member => decide (member.sortKey h < right.sortKey h) with
  | nil =>
    have hm' : m ∈ members.dropWhile fun member => decide (member.sortKey h < right.sortKey h) := hm
    rw [hlist] at hm'
    cases hm'
  | cons x rest =>
    obtain ⟨hx, hleast⟩ := dropWhile_cons_sorted hsorted x rest hlist
    have hle : x.sortKey h ≤ right.sortKey h := heq ▸ hleast m (hlist ▸ hm)
    have hkey : x.sortKey h = right.sortKey h := le_antisymm hle (by simpa using hx)
    unfold equalMembers largerMembers at hempty
    rw [hlist] at hempty
    simp [hkey] at hempty

theorem not_mem_of_equalMembers {members : List LuaType} {right : LuaType}
    (hsorted : members.Pairwise fun a b => a.sortKey h ≤ b.sortKey h)
    (hempty : equalMembers h members right = []) : right ∉ members := fun hm =>
  ne_of_equalMembers hsorted hempty right (mem_dropWhile_of_not right hm (by simp)) rfl

theorem pairwise_insert {members : List LuaType}
    (hsorted : members.Pairwise fun a b => a.sortKey h ≤ b.sortKey h) (t : LuaType) :
    ((members.takeWhile fun member => decide (member.sortKey h < t.sortKey h))
      ++ t :: members.dropWhile fun member => decide (member.sortKey h < t.sortKey h)).Pairwise
      fun a b => a.sortKey h ≤ b.sortKey h := by
  have hsplit := hsorted
  rw [← List.takeWhile_append_dropWhile (l := members)
    (p := fun member => decide (member.sortKey h < t.sortKey h))] at hsplit
  obtain ⟨hfront, hback, hcross⟩ := List.pairwise_append.1 hsplit
  refine List.pairwise_append.2 ⟨hfront, List.pairwise_cons.2 ⟨?_, hback⟩, ?_⟩
  · intro y hy
    cases hlist : members.dropWhile fun member => decide (member.sortKey h < t.sortKey h) with
    | nil =>
      rw [hlist] at hy
      cases hy
    | cons x rest =>
      obtain ⟨hx, hleast⟩ := dropWhile_cons_sorted hsorted x rest hlist
      exact le_trans (by simpa using hx) (hleast y (hlist ▸ hy))
  · intro a ha b hb
    have hat : a.sortKey h < t.sortKey h := by simpa using List.mem_takeWhile_imp ha
    obtain rfl | hb := List.mem_cons.1 hb
    · exact le_of_lt hat
    · exact hcross a ha b hb

/-- What the search relies on. -/
structure Searched (h : Hashing) (members : List LuaType) (right : LuaType) : Prop where
  sorted : members.Pairwise fun a b => a.sortKey h ≤ b.sortKey h
  insensitive : (members ++ [right]).all isOrderInsensitiveMember = true
  none : ∀ m ∈ members, m.eq right = false → tryCollapse m m right = none

theorem Checked.searched {members : List LuaType} {right : LuaType}
    (hchecked : Checked members right) (hsorted : SortedUnion h (.Multi members)) :
    Searched h members right := by
  have hmembers : members.Pairwise fun a b => a.sortKey h ≤ b.sortKey h := by
    apply hsorted
    have hall := hchecked.insensitive
    rw [List.all_append] at hall
    exact (Bool.and_eq_true_iff.1 hall).1
  refine ⟨hmembers, hchecked.insensitive, ?_⟩
  have hnever : ∀ t : LuaType, t.isNever = false → t ≠ .Never := fun t ht heq => by
    rw [heq] at ht
    cases ht
  intro m hm heq
  apply tryCollapse_eq_none m right (hnever m (hchecked.never.2 m hm))
    (hnever right hchecked.never.1) _ heq
  -- a clash shows as a partner discriminant, which the search finds
  intro hclash
  exact absurd (containsOrdinal_of_mem hmembers m hm)
    (List.any_eq_false.1 hchecked.partner _ (partner_of_clash m right hclash))

/-- A type nothing collapses with is one more member. -/
theorem Reduced.insert_new {S : Set LuaType} {members : List LuaType}
    (hred : Reduced A hA S members) (hS : S ⊆ A) (t : LuaType) (ht : t ∈ A)
    (hnone : ∀ m ∈ members, ∀ r, ¬ Collapses m t r) : Reduced A hA (insert t S) (t :: members) :=
  AbsorptionRules.Reduces.absorb hred ht hS (.done members t)
    fun m hm r hc => hnone m hm r hc.2.2

/-- **Inserting into a sorted union keeps the normal form.** -/
theorem carries_unionSortedInsert {S : Set LuaType} (hS : S ⊆ A) (hany : ∃ s ∈ S, s ≠ .Any)
    (left : LuaUnionType) (hred : Reduced A hA S left.intoVec) (hsorted : SortedUnion h left)
    (htwo : 2 ≤ left.intoVec.length) (right r : LuaType) (hright : right ∈ A)
    (hr : unionSortedInsert h left (.Union left) right = some r) :
    Carries h A hA (insert right S) r := by
  have hS' : insert right S ⊆ A := Set.insert_subset hright hS
  have hany' : ∃ s ∈ insert right S, s ≠ .Any := by
    obtain ⟨s, hs, hne⟩ := hany
    exact ⟨s, Set.mem_insert_of_mem right hs, hne⟩
  obtain ⟨members, rfl, hchecked, hanswer⟩ := unionSortedInsert_cases hr
  have hsearched := hchecked.searched hsorted
  obtain ⟨hempty, rfl⟩ | ⟨hcontains, rfl⟩ := hanswer
  · have hnone : ∀ m ∈ members, ∀ r, ¬ Collapses m right r := by
      intro m hm
      cases heq : m.eq right with
      | false => exact not_collapses_of_none m right (hsearched.none m hm heq)
      | true =>
        obtain rfl := hA.eq m (hred.atom m hm) right hright heq
        exact absurd hm (not_mem_of_equalMembers hsearched.sorted hempty)
    have hperm := perm_inserted h members right
    refine .union hS' hany' ((Reduced.insert_new hred hS right hright hnone).perm hperm.symm)
      (fun _ => pairwise_insert hsearched.sorted right) ?_
    show 2 ≤ (smallerMembers h members right ++ right :: largerMembers h members right).length
    rw [hperm.length_eq, List.length_cons]
    exact Nat.le_succ_of_le htwo
  · obtain ⟨s, hs, heq⟩ := List.any_eq_true.1 hcontains
    obtain rfl := hA.eq s (hred.atom s hs) right hright heq
    exact .union hS' hany' (AbsorptionRules.Reduces.insert_mem hred s hs) hsorted htwo

/-! ## §4. The pairwise rule -/

/-- The types are neither unions of one kind nor of the other. -/
def Plain (A : Set LuaType) : Prop :=
  ∀ t ∈ A, t.isUnion = false ∧ t.isMultiLineUnion = false

namespace Carries

theorem subset {S : Set LuaType} {t : LuaType} (hc : Carries h A hA S t) : S ⊆ A := by
  cases hc with
  | never => exact Set.empty_subset A
  | atom hS _ _ => exact hS
  | union hS _ _ _ _ => exact hS

/-- What covers something besides `any` is not `any`. -/
theorem ne_any {S : Set LuaType} {t : LuaType} (hc : Carries h A hA S t) : t.isAny = false := by
  cases hc with
  | never => rfl
  | atom _ hany hred =>
    obtain ⟨s, hs, hne⟩ := hany
    obtain ⟨m, hm, hle⟩ := hred.covers s hs
    rw [List.mem_singleton.1 hm] at hle
    obtain rfl | hsub := hle
    · cases hsany : s.isAny with
      | false => rfl
      | true =>
        cases s <;> first | exact absurd rfl hne | cases hsany
    · cases hsub <;> rfl
  | union _ _ _ _ _ => rfl

/-- The members of what is carried. -/
theorem reduced {S : Set LuaType} {t : LuaType} (hplain : Plain A) (hc : Carries h A hA S t)
    (hnever : t ≠ .Never) : Reduced A hA S t.spliced := by
  cases hc with
  | never => exact absurd rfl hnever
  | atom _ _ hred =>
    rw [spliced_eq_self t (hplain t (hred.atom t List.mem_cons_self)).1]
    exact hred
  | union _ _ hred _ _ => exact hred

end Carries

theorem exists_ne_any_union {S T : Set LuaType} (hany : ∃ s ∈ S, s ≠ .Any) :
    ∃ s ∈ S ∪ T, s ≠ LuaType.Any := by
  obtain ⟨s, hs, hne⟩ := hany
  exact ⟨s, .inl hs, hne⟩

/-- A set can stand for the list that reduces it. -/
theorem Carries.replace {S T : Set LuaType} {types : List LuaType} {r : LuaType}
    (hc : Carries h A hA (S ∪ {t | t ∈ types}) r) (hany : ∃ s ∈ S, s ≠ .Any) (hT : T ⊆ A)
    (htypes : Reduced A hA T types) : Carries h A hA (S ∪ T) r := by
  have hsub : S ∪ T ⊆ A := Set.union_subset (Set.subset_union_left.trans hc.subset) hT
  generalize hU : S ∪ {t | t ∈ types} = U at hc
  cases hc with
  | never =>
    obtain ⟨s, hs, _⟩ := hany
    have hmem : s ∈ (∅ : Set LuaType) := hU ▸ Set.mem_union_left _ hs
    exact absurd hmem (Set.notMem_empty s)
  | atom _ _ hred =>
    rw [← hU] at hred
    exact .atom hsub (exists_ne_any_union hany) (AbsorptionRules.Reduces.replace hT hred htypes)
  | union _ _ hred hsorted htwo =>
    rw [← hU] at hred
    exact .union hsub (exists_ne_any_union hany)
      (AbsorptionRules.Reduces.replace hT hred htypes) hsorted htwo

theorem insert_eq_union (t : LuaType) (S : Set LuaType) : insert t S = S ∪ {s | s ∈ [t]} := by
  ext s
  simp [or_comm]

/-- Two single types. -/
theorem carries_atoms (hplain : Plain A) {S T : Set LuaType} {s t : LuaType} (hS : S ⊆ A)
    (hT : T ⊆ A) (hany : ∃ s ∈ S, s ≠ .Any) (hs : Reduced A hA S [s]) (ht : Reduced A hA T [t]) :
    Carries h A hA (S ∪ T)
      (match tryCollapse s s t with
        | some r => r
        | none => fromVecStructural h [s, t]) := by
  have hsA := hs.atom s (.head _)
  have htA := ht.atom t (.head _)
  have hjoin : ∀ members, Reduced A hA (insert t S) members → Reduced A hA (S ∪ T) members := by
    intro members hred
    rw [insert_eq_union] at hred
    exact AbsorptionRules.Reduces.replace hT hred ht
  split
  · next r hr =>
      refine .atom (Set.union_subset hS hT) (exists_ne_any_union hany) (hjoin [r] ?_)
      apply AbsorptionRules.Reduces.absorb hs htA hS
      · exact .step [s] [] [] s t r r (.refl _)
          ⟨hsA, htA, tryCollapse_cases s t r hr⟩ (.done [] r)
      · intro m hm
        cases hm
  · next hnone =>
      apply carries_fromVecStructural (fun t ht => (hplain t ht).1) (Set.union_subset hS hT)
        (exists_ne_any_union hany)
      apply hjoin
      refine (hs.insert_new hS t htA ?_).perm (.swap _ _ _)
      intro m hm r
      rw [List.mem_singleton.1 hm]
      exact not_collapses_of_none s t hnone r

/-- Members absorbed into those of a union. -/
theorem carries_absorbAll (hplain : Plain A) {S T : Set LuaType} {members types : List LuaType}
    (hS : S ⊆ A) (hT : T ⊆ A) (hany : ∃ s ∈ S, s ≠ .Any) (hs : Reduced A hA S members)
    (ht : Reduced A hA T types) :
    Carries h A hA (S ∪ T) (fromVecStructural h (LuaType.absorbAll members types)) := by
  apply carries_fromVecStructural (fun t ht => (hplain t ht).1) (Set.union_subset hS hT)
    (exists_ne_any_union hany)
  rw [absorbAll_eq members types fun t ht' hnever => hA.never (hnever ▸ ht.atom t ht')]
  exact AbsorptionRules.Reduces.replace hT (hs.absorbAll hS types ht.atom) ht

/-- A union collapses only with `never` and with what is equal to it. -/
theorem tryCollapse_union {s t r : LuaType} (hr : tryCollapse s s t = some r)
    (hunion : s.isUnion = true ∨ t.isUnion = true) (hs : s ≠ .Never) (ht : t ≠ .Never) :
    r = s ∧ s.eq t = true := by
  cases tryCollapse_cases s t r hr with
  | neverLeft hnever _ => exact absurd hnever hs
  | neverRight hnever _ => exact absurd hnever ht
  | left hsub _ | right hsub _ => cases hsub <;> simp [isUnion] at hunion
  | booleans _ hs ht _ => simp [hs, ht, isUnion] at hunion
  | equal heq hr => exact ⟨hr, heq⟩

/-- A union and a type that is none do not collapse. -/
theorem tryCollapse_union_left (u : LuaUnionType) (t : LuaType) (hunion : t.isUnion = false)
    (hnever : t ≠ .Never) : tryCollapse (.Union u) (.Union u) t = none := by
  cases hr : tryCollapse (.Union u) (.Union u) t with
  | none => rfl
  | some r =>
    obtain ⟨u', rfl, _⟩ := exists_union_of_eq u t (tryCollapse_union hr (.inl rfl) nofun hnever).2
    cases hunion

theorem tryCollapse_union_right (u : LuaUnionType) (s : LuaType) (hunion : s.isUnion = false)
    (hnever : s ≠ .Never) : tryCollapse s s (.Union u) = none := by
  cases hr : tryCollapse s s (.Union u) with
  | none => rfl
  | some r =>
    obtain ⟨u', rfl, _⟩ := exists_union_of_eq' u s (tryCollapse_union hr (.inr rfl) hnever nofun).2
    cases hunion

/-- `union_type_impl` on types that are neither `any` nor multi-line. -/
theorem unionTypeImpl_eq (s t : LuaType) (hs : s.isAny = false) (ht : t.isAny = false) :
    unionTypeImpl h s s t =
      match tryCollapse s s t with
      | some merged => merged
      | none => joinMembers h s s t := by
  cases hc : tryCollapse s s t <;> simp [unionTypeImpl, hs, ht, hc]

theorem joinMembers_atoms (s t : LuaType) (hs : s.isUnion = false ∧ s.isMultiLineUnion = false)
    (ht : t.isUnion = false ∧ t.isMultiLineUnion = false) :
    joinMembers h s s t = fromVecStructural h [s, t] := by
  unfold joinMembers
  split
  · cases hs.2
  · cases ht.2
  · cases hs.1
  · cases hs.1
  · cases ht.1
  · rfl

theorem joinMembers_union_atom (u : LuaUnionType) (t : LuaType)
    (ht : t.isUnion = false ∧ t.isMultiLineUnion = false) :
    joinMembers h (.Union u) (.Union u) t =
      match unionSortedInsert h u (.Union u) t with
      | some merged => merged
      | none => fromVecStructural h (LuaType.absorbAll u.intoVec [t]) := by
  cases t with
  | Union u' => cases ht.1
  | MultiLineUnion unions => cases ht.2
  | _ => rfl

theorem joinMembers_atom_union (s : LuaType) (u : LuaUnionType)
    (hs : s.isUnion = false ∧ s.isMultiLineUnion = false) :
    joinMembers h s s (.Union u) = fromVecStructural h (LuaType.absorbAll u.intoVec [s]) := by
  cases s with
  | Union u' => cases hs.1
  | MultiLineUnion unions => cases hs.2
  | _ => rfl

/-- The ways in which two types that do not collapse are joined. -/
inductive JoinWay (h : Hashing) (s t : LuaType) : LuaType → Prop
  | source : JoinWay h s t s
  | target : JoinWay h s t t
  | pair : s.isUnion = false → JoinWay h s t (fromVecStructural h [s, t])
  | unions (u w) : s = .Union u → t = .Union w →
      JoinWay h s t (fromVecStructural h (LuaType.absorbAll u.intoVec w.intoVec))
  | insert (u r) : s = .Union u → t.isUnion = false → unionSortedInsert h u s t = some r →
      JoinWay h s t r
  | absorb (u) : s = .Union u → t.isUnion = false →
      JoinWay h s t (fromVecStructural h (LuaType.absorbAll u.intoVec [t]))
  | into (w) : s.isUnion = false → t = .Union w →
      JoinWay h s t (fromVecStructural h (LuaType.absorbAll w.intoVec [s]))

theorem joinMembers_way (s t : LuaType) : JoinWay h s t (joinMembers h s s t) := by
  have hplain : ∀ {t : LuaType}, (∀ u, t ≠ .Union u) → t.isUnion = false := by
    intro t hnot
    cases t <;> first | rfl | exact absurd rfl (hnot _)
  unfold joinMembers
  split
  · split
    · exact .source
    · exact .pair rfl
  · split
    · exact .target
    · split
      · split
        · next hinsert => exact .insert _ _ rfl rfl hinsert
        · exact .absorb _ rfl rfl
      · next hnot => exact .pair (hplain hnot)
  · exact .unions _ _ rfl rfl
  · next hnot =>
      split
      · next hinsert => exact .insert _ _ rfl (hplain hnot) hinsert
      · exact .absorb _ rfl (hplain hnot)
  · next hnot => exact .into _ (hplain hnot) rfl
  · next hnot _ _ _ => exact .pair (hplain hnot)

theorem unionTypeImpl_never_left (t : LuaType) : unionTypeImpl h .Never .Never t = t := by
  cases hany : t.isAny with
  | true =>
    cases t with
    | Any => rfl
    | _ => cases hany
  | false =>
    rw [unionTypeImpl_eq .Never t rfl hany]
    rfl

theorem unionTypeImpl_never_right (t : LuaType) : unionTypeImpl h t t .Never = t := by
  cases hany : t.isAny with
  | true =>
    cases t with
    | Any => rfl
    | _ => cases hany
  | false =>
    rw [unionTypeImpl_eq t .Never hany rfl]
    cases t <;> rfl

theorem never_not_mem (hA : Settles A) (t : LuaType) (ht : t ∈ A) : t ≠ .Never :=
  fun hnever => hA.never (hnever ▸ ht)

/-- **One step of the pairwise rule joins two normal forms.** -/
theorem carries_unionTypeImpl (hplain : Plain A) {S T : Set LuaType} {s t : LuaType}
    (hs : Carries h A hA S s) (ht : Carries h A hA T t) :
    Carries h A hA (S ∪ T) (unionTypeImpl h s s t) := by
  rw [unionTypeImpl_eq s t hs.ne_any ht.ne_any]
  cases hs with
  | never =>
    rw [Set.empty_union]
    exact ht
  | atom hS hany hred =>
    have hsA := hred.atom s (.head _)
    cases ht with
    | never =>
      rw [Set.union_empty]
      have hcollapse : tryCollapse s s .Never = some s := by cases s <;> rfl
      rw [hcollapse]
      exact .atom hS hany hred
    | atom hT hany' hred' =>
      have htA := hred'.atom t (.head _)
      rw [joinMembers_atoms s t (hplain s hsA) (hplain t htA)]
      exact carries_atoms hplain hS hT hany hred hred'
    | @union _ u hT hany' hred' hsorted' htwo' =>
      rw [tryCollapse_union_right u s (hplain s hsA).1 (never_not_mem hA s hsA),
        joinMembers_atom_union s u (hplain s hsA), Set.union_comm]
      exact carries_absorbAll hplain hT hS hany' hred' hred
  | @union _ u hS hany hred hsorted htwo =>
    cases ht with
    | never =>
      rw [Set.union_empty]
      exact .union hS hany hred hsorted htwo
    | atom hT hany' hred' =>
      have htA := hred'.atom t (.head _)
      rw [tryCollapse_union_left u t (hplain t htA).1 (never_not_mem hA t htA),
        joinMembers_union_atom u t (hplain t htA)]
      show Carries h A hA (S ∪ T) (match unionSortedInsert h u (.Union u) t with
        | some merged => merged
        | none => fromVecStructural h (LuaType.absorbAll u.intoVec [t]))
      split
      · next r hr =>
          have hins := carries_unionSortedInsert hS hany u hred hsorted htwo t r htA hr
          rw [insert_eq_union] at hins
          exact hins.replace hany hT hred'
      · exact carries_absorbAll hplain hS hT hany hred hred'
    | @union _ u' hT hany' hred' hsorted' htwo' =>
      cases hr : tryCollapse (.Union u) (.Union u) (.Union u') with
      | none =>
        show Carries h A hA (S ∪ T)
          (fromVecStructural h (LuaType.absorbAll u.intoVec u'.intoVec))
        exact carries_absorbAll hplain hS hT hany hred hred'
      | some r =>
        obtain ⟨rfl, heq⟩ := tryCollapse_union hr (.inl rfl) nofun nofun
        refine .union (Set.union_subset hS hT) (exists_ne_any_union hany) ?_ hsorted htwo
        refine AbsorptionRules.Reduces.replace hT ?_ hred'
        apply AbsorptionRules.Reduces.union_subset hred
        intro b hb
        obtain ⟨a, ha, hab⟩ := (mem_intoVec_of_eq u u' heq).2 b hb
        rw [← hA.eq a (hred.atom a ha) b (hred'.atom b hb) hab]
        exact ha

/-! ## §5. What a list holds -/

/-- The members a type brings to a union; `never` is none. -/
def memberSet (t : LuaType) : Set LuaType := {m | m ∈ t.spliced ∧ m ≠ .Never}

/-- The members of all types of a list. -/
def memberSets (types : List LuaType) : Set LuaType := {m | ∃ t ∈ types, m ∈ t.memberSet}

theorem memberSets_nil : memberSets [] = ∅ := by
  ext m
  simp [memberSets]

theorem memberSets_cons (t : LuaType) (types : List LuaType) :
    memberSets (t :: types) = t.memberSet ∪ memberSets types := by
  ext m
  simp [memberSets]

theorem memberSets_perm {types types' : List LuaType} (hperm : types.Perm types') :
    memberSets types = memberSets types' := by
  ext m
  simp only [memberSets, hperm.mem_iff]

/-- Types that are no unions, and not `never`, are the members. -/
theorem memberSets_plain (types : List LuaType)
    (hplain : ∀ t ∈ types, t.isUnion = false ∧ t ≠ .Never) : memberSets types =
      {m | m ∈ types} := by
  ext m
  constructor
  · rintro ⟨t, ht, hm, -⟩
    rw [spliced_eq_self t (hplain t ht).1] at hm
    exact List.mem_singleton.1 hm ▸ ht
  · intro hm
    refine ⟨m, hm, ?_, (hplain m hm).2⟩
    rw [spliced_eq_self m (hplain m hm).1]
    exact .head _

/-- A union in its normal form: two members or more that are neither unions nor `never` and
    do not collapse, sorted if their order carries no meaning. -/
structure NormalUnion (h : Hashing) (u : LuaUnionType) : Prop where
  member : ∀ m ∈ u.intoVec, m ≠ .Never ∧ m.isUnion = false
  irreducible : u.intoVec.Pairwise fun a b => tryCollapse a a b = none
  two : 2 ≤ u.intoVec.length
  sorted : SortedUnion h u

/-- `any` beside itself collapses, so there is another member. -/
theorem NormalUnion.exists_ne_any {u : LuaUnionType} (hu : NormalUnion h u) :
    ∃ m ∈ u.intoVec, m ≠ .Any := by
  have hirr := hu.irreducible
  match hlist : u.intoVec, hu.two with
  | a :: b :: rest, _ =>
    rw [hlist] at hirr
    by_cases ha : a = .Any
    · refine ⟨b, by simp, ?_⟩
      intro hb
      have hnone := (List.pairwise_cons.1 hirr).1 b (.head _)
      rw [ha, hb] at hnone
      cases hnone
    · exact ⟨a, .head _, ha⟩

/-- Types whose pairwise union does not depend on their order. -/
structure Canonical (h : Hashing) (types : List LuaType) : Prop where
  any : .Any ∉ types
  union : ∀ u, .Union u ∈ types → NormalUnion h u
  eq : ∀ s ∈ memberSets types, ∀ t ∈ memberSets types, s.eq t = true → s = t
  numbers : ∀ n, ¬ (.Number ∈ memberSets types ∧ .Integer ∈ memberSets types ∧
    .DocIntegerConst n ∈ memberSets types)

/-- The members, and `boolean`, which the two boolean literals collapse to. -/
def settledSet (types : List LuaType) : Set LuaType := insert .Boolean (memberSets types)

theorem eq_boolean_left (t : LuaType) (heq : LuaType.eq .Boolean t = true) : t = .Boolean := by
  cases t <;> first | rfl | cases heq

theorem eq_boolean_right (s : LuaType) (heq : s.eq .Boolean = true) : s = .Boolean := by
  cases s <;> first | rfl | cases heq

section

variable {types : List LuaType}

theorem mem_memberSets_cases (m : LuaType) (hm : m ∈ memberSets types) :
    (m ∈ types ∧ m.isUnion = false ∧ m ≠ .Never) ∨ ∃ u, .Union u ∈ types ∧ m ∈ u.intoVec := by
  obtain ⟨t, ht, hm, hne⟩ := hm
  cases t with
  | Union u => exact .inr ⟨u, ht, hm⟩
  | _ =>
    obtain rfl := List.mem_singleton.1 hm
    exact .inl ⟨ht, rfl, hne⟩

variable (heq : ∀ s ∈ memberSets types, ∀ t ∈ memberSets types, s.eq t = true → s = t)
include heq

theorem collapsible_settledSet : Collapsible (· ∈ settledSet types) := by
  refine ⟨?_, Set.mem_insert _ _, ?_⟩
  · intro hmem
    obtain hmem | ⟨t, -, -, hne⟩ := Set.mem_insert_iff.1 hmem
    · cases hmem
    · exact hne rfl
  · intro s hs t ht hst
    obtain rfl | hs := Set.mem_insert_iff.1 hs
    · exact (eq_boolean_left t hst).symm
    · obtain rfl | ht := Set.mem_insert_iff.1 ht
      · exact eq_boolean_right s hst
      · exact heq s hs t ht hst

theorem settles_settledSet (hnumbers : ∀ n, ¬ (.Number ∈ memberSets types ∧
    .Integer ∈ memberSets types ∧ .DocIntegerConst n ∈ memberSets types)) :
    Settles (settledSet types) := by
  refine ⟨collapsible_settledSet heq, ?_⟩
  rintro n ⟨hnum, hint, hdoc⟩
  have hdrop : ∀ t : LuaType, t ≠ .Boolean → t ∈ settledSet types → t ∈ memberSets types :=
    fun t hne ht => (Set.mem_insert_iff.1 ht).resolve_left hne
  exact hnumbers n ⟨hdrop _ nofun hnum, hdrop _ nofun hint, hdrop _ nofun hdoc⟩

omit heq

theorem Canonical.settles (hcan : Canonical h types) : Settles (settledSet types) :=
  settles_settledSet hcan.eq hcan.numbers

theorem memberSet_subset (t : LuaType) (ht : t ∈ types) : t.memberSet ⊆ settledSet types :=
  fun _ hm => Set.mem_insert_of_mem _ ⟨t, ht, hm⟩

/-- Each type of such a list is the normal form of its members. -/
theorem Canonical.carries (hcan : Canonical h types) (t : LuaType)
    (ht : t ∈ types) : Carries h (settledSet types) hcan.settles t.memberSet t := by
  have hsub : t.memberSet ⊆ settledSet types := memberSet_subset t ht
  by_cases hnever : t = .Never
  · subst hnever
    have hempty : memberSet .Never = ∅ := by
      ext m
      simp [memberSet, spliced]
    rw [hempty]
    exact .never
  · cases hunion : t.isUnion with
    | true =>
      cases t with
      | Union u =>
        have hnormal := hcan.union u ht
        have hset : memberSet (.Union u) = {m | m ∈ u.intoVec} :=
          Set.ext fun m => ⟨fun hm => hm.1, fun hm => ⟨hm, (hnormal.member m hm).1⟩⟩
        rw [hset] at hsub ⊢
        refine .union hsub hnormal.exists_ne_any ?_ hnormal.sorted hnormal.two
        apply AbsorptionRules.Reduces.of_irreducible (R := rules _ hcan.settles)
          fun m hm => hsub hm
        apply hnormal.irreducible.imp
        intro a b hnone r hc
        exact not_collapses_of_none a b hnone r hc.2.2
      | _ => cases hunion
    | false =>
      have hset : t.memberSet = {m | m ∈ [t]} := by
        ext m
        simp only [memberSet, spliced_eq_self t hunion, List.mem_singleton, Set.mem_ofPred_eq]
        exact ⟨fun hm => hm.1, fun hm => ⟨hm, hm ▸ hnever⟩⟩
      rw [hset] at hsub ⊢
      refine .atom hsub ⟨t, .head _, ?_⟩ ?_
      · intro hany
        exact hcan.any (hany ▸ ht)
      · exact AbsorptionRules.Reduces.of_irreducible (R := rules _ hcan.settles)
          (fun m hm => hsub hm) (List.pairwise_singleton _ _)

end

/-! ## §6. The fold -/

/-- Two types that carry one set have the same members. -/
theorem Carries.mem_spliced_iff (hplain : Plain A) {S : Set LuaType} {s t : LuaType}
    (hs : Carries h A hA S s) (ht : Carries h A hA S t) (m : LuaType) :
    m ∈ s.spliced ↔ m ∈ t.spliced := by
  have hempty : ∀ {t : LuaType}, Carries h A hA S t → t = .Never → S = ∅ := by
    intro t hc hnever
    cases hc with
    | never => rfl
    | atom _ _ hred => exact absurd (hnever ▸ hred.atom t (.head _)) hA.never
    | union _ _ _ _ _ => cases hnever
  have hne : ∀ {t : LuaType}, Carries h A hA S t → S = ∅ → t = .Never := by
    intro t hc hS
    cases hc with
    | never => rfl
    | atom _ hany _ | union _ hany _ _ _ =>
      obtain ⟨s, hs, _⟩ := hany
      exact absurd (hS ▸ hs) (Set.notMem_empty s)
  by_cases hS : S = ∅
  · rw [hne hs hS, hne ht hS]
  · exact (hs.reduced hplain fun hnever => hS (hempty hs hnever)).mem_iff hs.subset
      (ht.reduced hplain fun hnever => hS (hempty ht hnever)) m

theorem not_refersToAlias_of_carries (db : DbIndex) (halias : ∀ t ∈ A, refersToAlias db t = false)
    {S : Set LuaType} {t : LuaType} (hc : Carries h A hA S t) : refersToAlias db t = false := by
  cases hc with
  | never => rfl
  | atom _ _ hred => exact halias t (hred.atom t (.head _))
  | union _ _ _ _ _ => rfl

end LuaType

end GluaLs.Types
