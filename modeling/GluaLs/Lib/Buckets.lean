/-
  GluaLs.Lib.Buckets — maps of collections that leave no empty one behind.

  An index often maps a key to a COLLECTION: a set, a list, or a map of collections again.
  Two habits keep it free of leftovers: an entry is made when the first element comes, and
  dropped when the last one goes.  What such a map holds is a relation between keys and
  elements, `Holds`:

    • `grow` — `entry(k).or_default()`, then something is added,
    • `shrink` — something is removed, and the entry with it when nothing is left,
    • `erase` — the entry is removed whole,

  each with what it does to the relation, and to `NoEmpty`.
-/
import GluaLs.Lib.FiniteMap

namespace GluaLs.Lib

/-- A set with an iteration order. -/
abbrev HashSet (A : Type) : Type := HashMap A Unit

/-- A collection: what it has, and whether it is empty. -/
class Bucket (B : Type) (A : outParam Type) where
  empty : B
  Has : B → A → Prop
  isEmpty : B → Bool
  not_has_empty : ∀ a, ¬ Has empty a
  not_has_of_isEmpty : ∀ b, isEmpty b = true → ∀ a, ¬ Has b a

namespace Bucket

instance list (A : Type) : Bucket (List A) A where
  empty := []
  Has l a := a ∈ l
  isEmpty l := l.isEmpty
  not_has_empty _ h := absurd h List.not_mem_nil
  not_has_of_isEmpty l h a ha := by
    rw [List.isEmpty_iff.1 h] at ha
    exact absurd ha List.not_mem_nil

instance set (A : Type) [DecidableEq A] : Bucket (HashSet A) A where
  empty := ∅
  Has s a := a ∈ s
  isEmpty s := s.entries.isEmpty
  not_has_empty a h := absurd h (AList.notMem_empty a)
  not_has_of_isEmpty s h a ha := by
    have hkeys : s.keys = [] := by
      unfold AList.keys
      rw [List.isEmpty_iff.1 h]
      rfl
    rw [AList.mem_keys, hkeys] at ha
    exact absurd ha List.not_mem_nil

end Bucket

namespace Buckets

variable {K B A : Type} [DecidableEq K] [Bucket B A]

/-- **What a map of collections holds.** -/
def Holds (m : HashMap K B) (k : K) (a : A) : Prop := ∃ b, m.lookup k = some b ∧ Bucket.Has b a

/-- No entry is left empty. -/
def NoEmpty (m : HashMap K B) : Prop := ∀ k b, m.lookup k = some b → Bucket.isEmpty b = false

/-- `entry(k).or_default()`, changed by `f`. -/
def grow (m : HashMap K B) (k : K) (f : B → B) : HashMap K B :=
  m.insert k (f ((m.lookup k).getD Bucket.empty))

/-- `get_mut(k)` changed by `f`, and the entry removed when nothing is left. -/
def shrink (m : HashMap K B) (k : K) (f : B → B) : HashMap K B :=
  match m.lookup k with
  | none => m
  | some b => if Bucket.isEmpty (f b) then m.erase k else m.insert k (f b)

theorem not_holds_empty (k : K) (a : A) : ¬ Holds (∅ : HashMap K B) k a := by
  intro h
  obtain ⟨b, hb, -⟩ := h
  cases hb

theorem noEmpty_empty : NoEmpty (∅ : HashMap K B) := by
  intro k b hb
  cases hb

/-! ## §1. `grow` -/

theorem holds_grow (m : HashMap K B) (k : K) (f : B → B) (new : A → Prop)
    (hf : ∀ b a, Bucket.Has (f b) a ↔ Bucket.Has b a ∨ new a) (k' : K) (a : A) :
    Holds (grow m k f) k' a ↔ Holds m k' a ∨ k' = k ∧ new a := by
  unfold Holds grow
  rw [lookup_insert_ite]
  by_cases hk : k' = k
  · subst hk
    cases hold : m.lookup k' with
    | none => simp [hf, Bucket.not_has_empty]
    | some b => simp [hf]
  · simp [hk]

theorem noEmpty_grow {m : HashMap K B} (h : NoEmpty m) (k : K) (f : B → B)
    (hf : ∀ b, Bucket.isEmpty (f b) = false) : NoEmpty (grow m k f) := by
  intro k' b hb
  obtain ⟨-, rfl⟩ | ⟨-, hb⟩ := lookup_insert_some hb
  · exact hf _
  · exact h k' b hb

/-! ## §2. `shrink` -/

theorem holds_shrink (m : HashMap K B) (k : K) (f : B → B) (left : A → Prop)
    (hf : ∀ b a, Bucket.Has (f b) a ↔ Bucket.Has b a ∧ left a) (k' : K) (a : A) :
    Holds (shrink m k f) k' a ↔ Holds m k' a ∧ (k' = k → left a) := by
  unfold Holds shrink
  cases hold : m.lookup k with
  | none =>
    by_cases hk : k' = k
    · subst hk
      simp [hold]
    · simp [hk]
  | some b =>
    by_cases hempty : Bucket.isEmpty (f b) = true
    · simp only [hempty, if_true]
      rw [lookup_erase_ite]
      by_cases hk : k' = k
      · subst hk
        have hnone := Bucket.not_has_of_isEmpty (f b) hempty a
        rw [hf] at hnone
        simpa [hold] using hnone
      · simp [hk]
    · simp only [hempty]
      show (∃ b', (m.insert k (f b)).lookup k' = some b' ∧ _) ↔ _
      rw [lookup_insert_ite]
      by_cases hk : k' = k
      · subst hk
        simp [hold, hf]
      · simp [hk]

theorem noEmpty_shrink {m : HashMap K B} (h : NoEmpty m) (k : K) (f : B → B) :
    NoEmpty (shrink m k f) := by
  intro k' b hb
  unfold shrink at hb
  cases hold : m.lookup k with
  | none =>
    simp only [hold] at hb
    exact h k' b hb
  | some b' =>
    simp only [hold] at hb
    split at hb
    · exact h k' b (lookup_erase_some hb).2
    · rename_i hne
      obtain ⟨-, rfl⟩ | ⟨-, hb⟩ := lookup_insert_some hb
      · exact Bool.eq_false_iff.2 hne
      · exact h k' b hb

/-- Several entries shrink. -/
theorem holds_foldl_shrink (f : B → B) (left : A → Prop)
    (hf : ∀ b a, Bucket.Has (f b) a ↔ Bucket.Has b a ∧ left a) (ks : List K) :
    ∀ (m : HashMap K B) (k' : K) (a : A),
      Holds (ks.foldl (fun m k => shrink m k f) m) k' a ↔ Holds m k' a ∧ (k' ∈ ks → left a) := by
  induction ks with
  | nil =>
    intro m k' a
    simp
  | cons k ks ih =>
    intro m k' a
    rw [List.foldl_cons, ih, holds_shrink m k f left hf, List.mem_cons]
    constructor
    · intro h
      refine ⟨h.1.1, ?_⟩
      intro hk
      obtain heq | hmem := hk
      · exact h.1.2 heq
      · exact h.2 hmem
    · intro h
      exact ⟨⟨h.1, fun heq => h.2 (.inl heq)⟩, fun hmem => h.2 (.inr hmem)⟩

theorem noEmpty_foldl_shrink (f : B → B) (ks : List K) : ∀ m : HashMap K B, NoEmpty m →
    NoEmpty (ks.foldl (fun m k => shrink m k f) m) := by
  induction ks with
  | nil => exact fun m h => h
  | cons k ks ih => exact fun m h => ih _ (noEmpty_shrink h k f)

/-! ## §3. An entry is removed -/

theorem holds_erase (m : HashMap K B) (k k' : K) (a : A) :
    Holds (m.erase k) k' a ↔ Holds m k' a ∧ k' ≠ k := by
  unfold Holds
  rw [lookup_erase_ite]
  by_cases hk : k' = k
  · simp [hk]
  · simp [hk]

theorem noEmpty_erase {m : HashMap K B} (h : NoEmpty m) (k : K) : NoEmpty (m.erase k) := by
  intro k' b hb
  exact h k' b (lookup_erase_some hb).2

/-! ## §4. What every collection of a map is -/

/-- Every collection of a map is as `Q` says. -/
def Each (Q : B → Prop) (m : HashMap K B) : Prop := ∀ k b, m.lookup k = some b → Q b

omit [Bucket B A] in
theorem each_empty (Q : B → Prop) : Each Q (∅ : HashMap K B) := by
  intro k b hb
  cases hb

theorem each_grow {Q : B → Prop} {m : HashMap K B} (h : Each Q m) (k : K) (f : B → B)
    (hempty : Q Bucket.empty) (hf : ∀ b, Q b → Q (f b)) : Each Q (grow m k f) := by
  intro k' b hb
  obtain ⟨-, rfl⟩ | ⟨-, hb⟩ := lookup_insert_some hb
  · apply hf
    cases hold : m.lookup k with
    | none => exact hempty
    | some b => exact h k b hold
  · exact h k' b hb

theorem each_shrink {Q : B → Prop} {m : HashMap K B} (h : Each Q m) (k : K) (f : B → B)
    (hf : ∀ b, Q b → Q (f b)) : Each Q (shrink m k f) := by
  intro k' b hb
  unfold shrink at hb
  cases hold : m.lookup k with
  | none =>
    simp only [hold] at hb
    exact h k' b hb
  | some b' =>
    simp only [hold] at hb
    split at hb
    · exact h k' b (lookup_erase_some hb).2
    · obtain ⟨-, rfl⟩ | ⟨-, hb⟩ := lookup_insert_some hb
      · exact hf b' (h k b' hold)
      · exact h k' b hb

theorem each_foldl_shrink {Q : B → Prop} (f : B → B) (hf : ∀ b, Q b → Q (f b)) (ks : List K) :
    ∀ m : HashMap K B, Each Q m → Each Q (ks.foldl (fun m k => shrink m k f) m) := by
  induction ks with
  | nil => exact fun m h => h
  | cons k ks ih => exact fun m h => ih _ (each_shrink h k f hf)

omit [Bucket B A] in
theorem each_erase {Q : B → Prop} {m : HashMap K B} (h : Each Q m) (k : K) :
    Each Q (m.erase k) := by
  intro k' b hb
  exact h k' b (lookup_erase_some hb).2

end Buckets

/-- A map of collections is a collection of pairs. -/
instance Bucket.nested (J B A : Type) [DecidableEq J] [Bucket B A] :
    Bucket (HashMap J B) (J × A) where
  empty := ∅
  Has m p := Buckets.Holds m p.1 p.2
  isEmpty m := m.entries.isEmpty
  not_has_empty p := Buckets.not_holds_empty p.1 p.2
  not_has_of_isEmpty m h p := by
    intro hp
    obtain ⟨b, hb, -⟩ := hp
    have hentry := (mem_entries_iff m p.1 b).2 hb
    rw [List.isEmpty_iff.1 h] at hentry
    exact absurd hentry List.not_mem_nil

namespace Buckets

variable {K : Type} [DecidableEq K]

/-! ## §5. Sets and lists -/

section Sets

variable {E : Type} [DecidableEq E]

/-- An element joins the set of a key. -/
def addTo (m : HashMap K (HashSet E)) (k : K) (e : E) : HashMap K (HashSet E) :=
  grow m k fun s => s.insert e ()

/-- An element leaves the set of a key. -/
def removeFrom (m : HashMap K (HashSet E)) (k : K) (e : E) : HashMap K (HashSet E) :=
  shrink m k fun s => s.erase e

theorem holds_addTo (m : HashMap K (HashSet E)) (k : K) (e : E) (k' : K) (e' : E) :
    Holds (addTo m k e) k' e' ↔ Holds m k' e' ∨ k' = k ∧ e' = e := by
  apply holds_grow
  intro s a
  show a ∈ s.insert e () ↔ a ∈ s ∨ a = e
  rw [AList.mem_insert, or_comm]

/-- The element joins the sets of several keys. -/
theorem holds_foldl_addTo (e : E) (ks : List K) : ∀ (m : HashMap K (HashSet E)) (k' : K) (e' : E),
    Holds (ks.foldl (fun m k => addTo m k e) m) k' e' ↔ Holds m k' e' ∨ k' ∈ ks ∧ e' = e := by
  induction ks with
  | nil =>
    intro m k' e'
    simp
  | cons k ks ih =>
    intro m k' e'
    rw [List.foldl_cons, ih, holds_addTo, List.mem_cons, or_and_right, or_assoc]

theorem noEmpty_addTo {m : HashMap K (HashSet E)} (h : NoEmpty m) (k : K) (e : E) :
    NoEmpty (addTo m k e) :=
  noEmpty_grow h k _ fun _ => rfl

theorem noEmpty_foldl_addTo (e : E) (ks : List K) : ∀ m : HashMap K (HashSet E), NoEmpty m →
    NoEmpty (ks.foldl (fun m k => addTo m k e) m) := by
  induction ks with
  | nil => exact fun m h => h
  | cons k ks ih => exact fun m h => ih _ (noEmpty_addTo h k e)

/-- The element leaves the sets of several keys. -/
theorem holds_foldl_removeFrom (e : E) (ks : List K) (m : HashMap K (HashSet E)) (k' : K)
    (e' : E) : Holds (ks.foldl (fun m k => removeFrom m k e) m) k' e' ↔
      Holds m k' e' ∧ ¬ (k' ∈ ks ∧ e' = e) := by
  have hfold := holds_foldl_shrink (fun s : HashSet E => s.erase e) (fun a => a ≠ e)
    (fun s a => by
      show a ∈ s.erase e ↔ a ∈ s ∧ a ≠ e
      rw [AList.mem_erase, and_comm]) ks m k' e'
  rw [not_and]
  exact hfold

theorem noEmpty_foldl_removeFrom (e : E) (ks : List K) (m : HashMap K (HashSet E))
    (h : NoEmpty m) : NoEmpty (ks.foldl (fun m k => removeFrom m k e) m) :=
  noEmpty_foldl_shrink _ ks m h

end Sets

section Lists

variable {E : Type}

/-- An element is pushed on the list of a key. -/
def pushTo (m : HashMap K (List E)) (k : K) (e : E) : HashMap K (List E) :=
  grow m k fun l => l ++ [e]

/-- The list of a key keeps what `p` accepts. -/
def retainIn (m : HashMap K (List E)) (k : K) (p : E → Bool) : HashMap K (List E) :=
  shrink m k fun l => l.filter p

/-- The list of a key. -/
def listOf (m : HashMap K (List E)) (k : K) : List E := (m.lookup k).getD []

theorem listOf_pushTo (m : HashMap K (List E)) (k : K) (e : E) (k' : K) :
    listOf (pushTo m k e) k' = if k' = k then listOf m k ++ [e] else listOf m k' := by
  unfold listOf pushTo grow
  rw [lookup_insert_ite]
  split <;> rfl

theorem listOf_retainIn (m : HashMap K (List E)) (k : K) (p : E → Bool) (k' : K) :
    listOf (retainIn m k p) k' = if k' = k then (listOf m k).filter p else listOf m k' := by
  unfold listOf retainIn shrink
  cases hold : m.lookup k with
  | none =>
    by_cases hk : k' = k
    · rw [if_pos hk, hk, hold]
      rfl
    · rw [if_neg hk]
  | some l =>
    show ((if (l.filter p).isEmpty = true then m.erase k
      else m.insert k (l.filter p)).lookup k').getD [] = _
    by_cases hempty : (l.filter p).isEmpty = true
    · have hnil : l.filter p = [] := List.isEmpty_iff.1 hempty
      rw [if_pos hempty, lookup_erase_ite]
      by_cases hk : k' = k
      · simp [hk, hnil]
      · simp [hk]
    · rw [if_neg hempty, lookup_insert_ite]
      by_cases hk : k' = k
      · simp [hk]
      · simp [hk]

theorem listOf_erase (m : HashMap K (List E)) (k k' : K) :
    listOf (m.erase k) k' = if k' = k then [] else listOf m k' := by
  unfold listOf
  rw [lookup_erase_ite]
  split <;> rfl

theorem noEmpty_pushTo {m : HashMap K (List E)} (h : NoEmpty m) (k : K) (e : E) :
    NoEmpty (pushTo m k e) := by
  apply noEmpty_grow h
  intro l
  show (l ++ [e]).isEmpty = false
  simp

theorem noEmpty_retainIn {m : HashMap K (List E)} (h : NoEmpty m) (k : K) (p : E → Bool) :
    NoEmpty (retainIn m k p) :=
  noEmpty_shrink h k _

end Lists

end Buckets

end GluaLs.Lib
