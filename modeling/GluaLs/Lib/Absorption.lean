/-
  GluaLs.Lib.Absorption — lists in which members collapse, and their normal form.

  Two members may COLLAPSE into a third, which is then above both.  A list in which nothing
  collapses any more is IRREDUCIBLE, and it REDUCES a set if it covers the set and was made
  from it by collapsing.  The order of the work does not matter:

      Reduces S M  →  Reduces S N  →  M and N have the same members   (`Reduces.mem_iff`)

  What is covered by an irreducible list is closed under collapsing, so it is the closure of
  `S` whatever the list; the list itself is the maximal elements of it.
-/
import Mathlib.Data.List.Pairwise
import Mathlib.Data.List.Perm.Basic
import Mathlib.Data.Set.Insert

namespace GluaLs.Lib

variable {α : Type}

/-- Collapsing a member with others, one after the other: what is left, and what the member
    has become. -/
inductive Absorbs (collapse : α → α → α → Prop) : List α → α → List α → α → Prop
  | done (members t) : Absorbs collapse members t members t
  | step (members members' rest : List α) (m t r t' : α) :
      members.Perm (m :: members') → collapse m t r → Absorbs collapse members' r rest t' →
      Absorbs collapse members t rest t'

section

variable {collapse : α → α → α → Prop} {members rest : List α} {t t' : α}
  (habs : Absorbs collapse members t rest t')
include habs

theorem Absorbs.subset : ∀ m ∈ rest, m ∈ members := by
  induction habs with
  | done members t => exact fun m hm => hm
  | step members members' rest m t r t' hperm _ _ ih =>
    intro x hx
    exact hperm.mem_iff.2 (.tail m (ih x hx))

/-- **What collapsing keeps** holds of all that is left. -/
theorem Absorbs.all {P : α → Prop} :
    (∀ m ∈ members, ∀ t r, P m → P t → collapse m t r → P r) → (∀ m ∈ t :: members, P m) →
      ∀ m ∈ t' :: rest, P m := by
  induction habs with
  | done members t => exact fun _ hall => hall
  | step members members' rest m t r t' hperm hc _ ih =>
    intro hkeeps hall
    have hmem : m ∈ members := hperm.mem_iff.2 (.head _)
    have hsub : ∀ x ∈ members', x ∈ members := fun x hx =>
      hperm.mem_iff.2 (.tail m hx)
    refine ih (fun x hx => hkeeps x (hsub x hx)) (List.forall_mem_cons.2 ⟨?_, ?_⟩)
    · exact hkeeps m hmem t r (hall m (.tail t hmem)) (hall t (.head _)) hc
    · exact fun x hx => hall x (.tail t (hsub x hx))

end

/-- A fold that takes in one member after the other takes in the list. -/
theorem foldl_insert {σ : Type} {P : Set α → σ → Prop} {f : σ → α → σ} (types : List α)
    (hstep : ∀ S acc, ∀ t ∈ types, P S acc → P (insert t S) (f acc t)) :
    ∀ S acc, P S acc → P (S ∪ {t | t ∈ types}) (types.foldl f acc) := by
  induction types with
  | nil =>
    intro S acc hacc
    have hset : S ∪ {t | t ∈ ([] : List α)} = S := by simp
    rw [hset]
    exact hacc
  | cons t types ih =>
    intro S acc hacc
    have hset : S ∪ {s | s ∈ t :: types} = insert t S ∪ {s | s ∈ types} := by
      ext s
      simp only [Set.mem_union, Set.mem_ofPred_eq, List.mem_cons, Set.mem_insert_iff]
      tauto
    rw [hset]
    exact ih (fun S acc s hs => hstep S acc s (.tail t hs)) _ _
      (hstep S acc t (.head _) hacc)

/-- Members, what collapses, and an order in which a collapse is a least upper bound. -/
structure AbsorptionRules (α : Type) where
  atom : Set α
  le : α → α → Prop
  collapse : α → α → α → Prop
  le_refl : ∀ a, le a a
  le_trans : ∀ a b c, a ∈ atom → b ∈ atom → c ∈ atom → le a b → le b c → le a c
  le_antisymm : ∀ a b, le a b → le b a → a = b
  collapse_symm : ∀ a b r, collapse a b r → ∃ r', collapse b a r'
  atom_of_collapse : ∀ a b r, a ∈ atom → b ∈ atom → collapse a b r → r ∈ atom
  le_of_collapse : ∀ a b r, a ∈ atom → b ∈ atom → collapse a b r → le a r ∧ le b r
  collapse_least : ∀ a b r m, a ∈ atom → b ∈ atom → m ∈ atom → collapse a b r → le a m → le b m →
    le r m
  collapse_above : ∀ a b r m n, a ∈ atom → b ∈ atom → m ∈ atom → n ∈ atom → collapse a b r →
    le a m → le b n → le r m ∨ le r n ∨ ∃ r', collapse m n r'
  collapse_of_le : ∀ a b, a ∈ atom → b ∈ atom → le a b → a = b ∨ ∃ r, collapse a b r

namespace AbsorptionRules

variable (R : AbsorptionRules α)

/-- Nothing in the list collapses. -/
def Irreducible (members : List α) : Prop :=
  members.Pairwise fun a b => ∀ r, ¬ R.collapse a b r

/-- A set of members with everything below them and everything they collapse to. -/
structure Closed (X : Set α) : Prop where
  below : ∀ a b, a ∈ R.atom → b ∈ X → R.le a b → a ∈ X
  collapse : ∀ a b r, a ∈ X → b ∈ X → R.collapse a b r → r ∈ X

/-- What every closed set around `S` holds. -/
def Span (S : Set α) (a : α) : Prop := ∀ X, R.Closed X → S ⊆ X → a ∈ X

/-- The list covers `S` and was made from it. -/
structure Reduces (S : Set α) (members : List α) : Prop where
  atom : ∀ m ∈ members, m ∈ R.atom
  irreducible : R.Irreducible members
  covers : ∀ s ∈ S, ∃ m ∈ members, R.le s m
  spanned : ∀ m ∈ members, R.Span S m

variable {R}

theorem Irreducible.perm {as bs : List α} (hirr : R.Irreducible as) (hperm : as.Perm bs) :
    R.Irreducible bs := by
  refine hperm.pairwise hirr ?_
  intro a b hab r hc
  obtain ⟨r', hc'⟩ := R.collapse_symm b a r hc
  exact hab r' hc'

/-- Two members that collapse are one. -/
theorem Irreducible.eq_of_collapse {members : List α} (hirr : R.Irreducible members) (a b : α)
    (ha : a ∈ members) (hb : b ∈ members) (r : α) (hc : R.collapse a b r) : a = b := by
  by_contra hne
  have hsymm : ∀ x y : α, (∀ r, ¬ R.collapse x y r) → ∀ r, ¬ R.collapse y x r := by
    intro x y hxy r hc
    obtain ⟨r', hc'⟩ := R.collapse_symm y x r hc
    exact hxy r' hc'
  have : Std.Symm fun x y : α => ∀ r, ¬ R.collapse x y r := ⟨hsymm⟩
  exact hirr.forall ha hb hne r hc

theorem span_mono {S T : Set α} (hsub : S ⊆ T) (a : α) (ha : R.Span S a) : R.Span T a :=
  fun X hX hT => ha X hX (hsub.trans hT)

theorem span_of_mem {S : Set α} (a : α) (ha : a ∈ S) : R.Span S a := fun _ _ hS => hS ha

namespace Reduces

theorem perm {S : Set α} {as bs : List α} (hred : R.Reduces S as) (hperm : as.Perm bs) :
    R.Reduces S bs := by
  refine ⟨?_, hred.irreducible.perm hperm, ?_, ?_⟩
  · intro m hm
    exact hred.atom m (hperm.mem_iff.2 hm)
  · intro s hs
    obtain ⟨m, hm, hle⟩ := hred.covers s hs
    exact ⟨m, hperm.mem_iff.1 hm, hle⟩
  · intro m hm
    exact hred.spanned m (hperm.mem_iff.2 hm)

/-- What an irreducible list covers is closed. -/
theorem closed_cover {S : Set α} {members : List α} (hred : R.Reduces S members) :
    R.Closed {a | a ∈ R.atom ∧ ∃ m ∈ members, R.le a m} := by
  refine ⟨?_, ?_⟩
  · intro a b ha hb hab
    obtain ⟨hb, m, hm, hbm⟩ := hb
    exact ⟨ha, m, hm, R.le_trans a b m ha hb (hred.atom m hm) hab hbm⟩
  · intro a b r ha hb hc
    obtain ⟨ha, m, hm, ham⟩ := ha
    obtain ⟨hb, n, hn, hbn⟩ := hb
    refine ⟨R.atom_of_collapse a b r ha hb hc, ?_⟩
    have hma := hred.atom m hm
    have hna := hred.atom n hn
    obtain hrm | hrn | ⟨r', hc'⟩ := R.collapse_above a b r m n ha hb hma hna hc ham hbn
    · exact ⟨m, hm, hrm⟩
    · exact ⟨n, hn, hrn⟩
    · -- two members that collapse are one, which is then above both
      have hmn := hred.irreducible.eq_of_collapse m n hm hn r' hc'
      subst hmn
      exact ⟨m, hm, R.collapse_least a b r m ha hb hma hc ham hbn⟩

theorem le_of_span {S : Set α} {members : List α} (hred : R.Reduces S members) (hS : S ⊆ R.atom)
    (a : α) (ha : R.Span S a) : ∃ m ∈ members, R.le a m :=
  (ha _ hred.closed_cover fun s hs => ⟨hS hs, hred.covers s hs⟩).2

/-- **Two lists that reduce one set have the same members.** -/
theorem mem_iff {S : Set α} {M N : List α} (hS : S ⊆ R.atom) (hM : R.Reduces S M)
    (hN : R.Reduces S N) (a : α) : a ∈ M ↔ a ∈ N := by
  have hhalf : ∀ M N : List α, R.Reduces S M → R.Reduces S N → ∀ a ∈ M, a ∈ N := by
    intro M N hM hN a ha
    obtain ⟨n, hn, han⟩ := hN.le_of_span hS a (hM.spanned a ha)
    obtain ⟨m, hm, hnm⟩ := hM.le_of_span hS n (hN.spanned n hn)
    have ham := R.le_trans a n m (hM.atom a ha) (hN.atom n hn) (hM.atom m hm) han hnm
    have heq : a = m := by
      obtain heq | ⟨r, hc⟩ := R.collapse_of_le a m (hM.atom a ha) (hM.atom m hm) ham
      · exact heq
      · exact hM.irreducible.eq_of_collapse a m ha hm r hc
    rw [← heq] at hnm
    rw [R.le_antisymm a n han hnm]
    exact hn
  exact ⟨hhalf M N hM hN a, hhalf N M hN hM a⟩

/-- **A member absorbed into a reduced list**: what is left reduces the larger set. -/
theorem absorb {S : Set α} {members rest : List α} {t t' : α} (hred : R.Reduces S members)
    (ht : t ∈ R.atom) (hS : S ⊆ R.atom) (habs : Absorbs R.collapse members t rest t')
    (hnone : ∀ m ∈ rest, ∀ r, ¬ R.collapse m t' r) : R.Reduces (insert t S) (t' :: rest) := by
  have hrun : (∀ m ∈ t' :: rest, m ∈ R.atom) ∧ R.Irreducible rest ∧
      (∀ s ∈ insert t S, ∃ m ∈ t' :: rest, R.le s m) ∧
      ∀ m ∈ t' :: rest, R.Span (insert t S) m := by
    have hatom : ∀ s ∈ insert t S, s ∈ R.atom := by
      intro s hs
      obtain rfl | hs := Set.mem_insert_iff.1 hs
      · exact ht
      · exact hS hs
    have hstart : (∀ m ∈ t :: members, m ∈ R.atom) ∧ R.Irreducible members ∧
        (∀ s ∈ insert t S, ∃ m ∈ t :: members, R.le s m) ∧
        ∀ m ∈ t :: members, R.Span (insert t S) m := by
      refine ⟨?_, hred.irreducible, ?_, ?_⟩
      · intro m hm
        obtain rfl | hm := List.mem_cons.1 hm
        · exact ht
        · exact hred.atom m hm
      · intro s hs
        obtain rfl | hs := Set.mem_insert_iff.1 hs
        · exact ⟨s, .head _, R.le_refl s⟩
        · obtain ⟨m, hm, hle⟩ := hred.covers s hs
          exact ⟨m, .tail t hm, hle⟩
      · intro m hm
        obtain rfl | hm := List.mem_cons.1 hm
        · exact span_of_mem m (Set.mem_insert m S)
        · exact span_mono (Set.subset_insert t S) m (hred.spanned m hm)
    generalize insert t S = T at hatom hstart ⊢
    clear hnone hred ht
    induction habs with
    | done members t => exact hstart
    | step members members' rest m t r t' hperm hc _ ih =>
      apply ih
      obtain ⟨hat, hirr, hcov, hspan⟩ := hstart
      have hma : m ∈ R.atom := hat m (.tail t (hperm.mem_iff.2 (.head _)))
      have hta : t ∈ R.atom := hat t (.head _)
      have hra : r ∈ R.atom := R.atom_of_collapse m t r hma hta hc
      obtain ⟨hmr, htr⟩ := R.le_of_collapse m t r hma hta hc
      have hsub : ∀ x ∈ members', x ∈ t :: members := by
        intro x hx
        exact .tail t (hperm.mem_iff.2 (.tail m hx))
      refine ⟨?_, (List.pairwise_cons.1 (hirr.perm hperm)).2, ?_, ?_⟩
      · intro x hx
        obtain rfl | hx := List.mem_cons.1 hx
        · exact hra
        · exact hat x (hsub x hx)
      · -- what `t` or `m` was above `r` is above now
        intro s hs
        obtain ⟨x, hx, hle⟩ := hcov s hs
        obtain rfl | hx := List.mem_cons.1 hx
        · exact ⟨r, .head _, R.le_trans s x r (hatom s hs) hta hra hle htr⟩
        · obtain rfl | hx := List.mem_cons.1 (hperm.mem_iff.1 hx)
          · exact ⟨r, .head _, R.le_trans s x r (hatom s hs) hma hra hle hmr⟩
          · exact ⟨x, .tail r hx, hle⟩
      · intro x hx
        obtain rfl | hx := List.mem_cons.1 hx
        · intro X hX hTX
          exact hX.collapse m t x
            (hspan m (.tail t (hperm.mem_iff.2 (.head _))) X hX hTX)
            (hspan t (.head _) X hX hTX) hc
        · exact hspan x (hsub x hx)
  obtain ⟨hat, hirr, hcov, hspan⟩ := hrun
  refine ⟨hat, ?_, hcov, hspan⟩
  refine List.pairwise_cons.2 ⟨?_, hirr⟩
  intro m hm r hc
  obtain ⟨r', hc'⟩ := R.collapse_symm t' m r hc
  exact hnone m hm r' hc'

/-- A set can stand for the list that reduces it. -/
theorem replace {S T : Set α} {members types : List α} (hT : T ⊆ R.atom)
    (hred : R.Reduces (S ∪ {t | t ∈ types}) members) (htypes : R.Reduces T types) :
    R.Reduces (S ∪ T) members := by
  refine ⟨hred.atom, hred.irreducible, ?_, ?_⟩
  · intro s hs
    obtain hs | hs := hs
    · exact hred.covers s (.inl hs)
    · obtain ⟨t, ht, hst⟩ := htypes.covers s hs
      obtain ⟨m, hm, htm⟩ := hred.covers t (.inr ht)
      exact ⟨m, hm, R.le_trans s t m (hT hs) (htypes.atom t ht) (hred.atom m hm) hst htm⟩
  · intro m hm X hX hsub
    apply hred.spanned m hm X hX
    intro x hx
    obtain hx | hx := hx
    · exact hsub (.inl hx)
    · exact htypes.spanned x hx X hX fun t ht => hsub (.inr ht)

/-- Members that are there already. -/
theorem union_subset {S T : Set α} {members : List α} (hred : R.Reduces S members)
    (hT : ∀ t ∈ T, t ∈ members) : R.Reduces (S ∪ T) members := by
  refine ⟨hred.atom, hred.irreducible, ?_, ?_⟩
  · intro s hs
    obtain hs | hs := hs
    · exact hred.covers s hs
    · exact ⟨s, hT s hs, R.le_refl s⟩
  · intro m hm
    exact span_mono Set.subset_union_left m (hred.spanned m hm)

/-- A member that is there already. -/
theorem insert_mem {S : Set α} {members : List α} (hred : R.Reduces S members) (t : α)
    (ht : t ∈ members) : R.Reduces (insert t S) members := by
  refine ⟨hred.atom, hred.irreducible, ?_, ?_⟩
  · intro s hs
    obtain rfl | hs := Set.mem_insert_iff.1 hs
    · exact ⟨s, ht, R.le_refl s⟩
    · exact hred.covers s hs
  · intro m hm
    exact span_mono (Set.subset_insert t S) m (hred.spanned m hm)

/-- An irreducible list reduces the set of its members. -/
theorem of_irreducible {members : List α} (hat : ∀ m ∈ members, m ∈ R.atom)
    (hirr : R.Irreducible members) : R.Reduces {m | m ∈ members} members :=
  ⟨hat, hirr, fun s hs => ⟨s, hs, R.le_refl s⟩, fun m hm => span_of_mem m hm⟩

end Reduces

end AbsorptionRules

end GluaLs.Lib
