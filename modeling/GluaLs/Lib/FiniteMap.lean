/-
  GluaLs.Lib.FiniteMap — finite maps with an iteration order.

  A hash map is an `AList`: a list of entries no two of which share a key.  The order of
  the list is the iteration order of the map; nothing below depends on it.  Mathlib has
  lookup, insertion and removal; this file adds what else a map offers:

    • `AList.orInsert` — insert where nothing is (`entry().or_insert()`),
    • `AList.filterMapEntries` — rewrite or drop every entry (`retain`, `iter_mut`),
    • `AList.ofKeys` — the map a function defines on listed keys,
    • `entries_perm_of_lookup_eq` — two maps with the same lookups hold the same entries,
      each once.

  `swapRemove` takes an element off a list whose order does not matter.
-/
import Mathlib.Algebra.BigOperators.Group.List.Basic
import Mathlib.Data.Finmap
import Mathlib.Data.List.AList

namespace GluaLs.Lib

open List

/-- A map from `K` to `V` with an iteration order. -/
abbrev HashMap (K V : Type) : Type := AList (fun _ : K => V)

section

variable {K V : Type} [DecidableEq K]

/-! ## §1. Maps are determined by their lookups -/

/-- Two maps with the same lookups have the same entries, in some order. -/
theorem entries_perm_of_lookup_eq (s t : HashMap K V)
    (h : ∀ k, s.lookup k = t.lookup k) : s.entries ~ t.entries := by
  have hfin : s.toFinmap = t.toFinmap := by
    apply Finmap.ext_lookup
    intro k
    simpa using h k
  exact AList.toFinmap_eq.1 hfin

section

variable (s : HashMap K V)

theorem mem_entries_iff (k : K) (v : V) :
    (⟨k, v⟩ : Sigma fun _ : K => V) ∈ s.entries ↔ s.lookup k = some v := by
  rw [← AList.mem_lookup_iff, Option.mem_def]

theorem mem_keys_iff (k : K) : k ∈ s.keys ↔ s.lookup k ≠ none := by
  rw [← AList.mem_keys, ne_eq, AList.lookup_eq_none, not_not]

/-- A list with distinct keys that holds exactly the pairs a map looks up lists the map's
    entries, each once. -/
theorem perm_entries (l : List (Sigma fun _ : K => V)) (hl : l.NodupKeys)
    (h : ∀ k v, (⟨k, v⟩ : Sigma fun _ : K => V) ∈ l ↔ s.lookup k = some v) :
    l ~ s.entries := by
  refine entries_perm_of_lookup_eq ⟨l, hl⟩ s (fun k => ?_)
  ext v
  rw [← mem_entries_iff, ← h k v]

/-- `get` after `insert`, at any key. -/
theorem lookup_insert_ite (k k' : K) (v : V) :
    (s.insert k v).lookup k' = if k' = k then some v else s.lookup k' := by
  split_ifs with h
  · subst h
    exact AList.lookup_insert s
  · exact AList.lookup_insert_ne h

/-- `get` after `remove`, at any key. -/
theorem lookup_erase_ite (k k' : K) :
    (s.erase k).lookup k' = if k' = k then none else s.lookup k' := by
  split_ifs with h
  · subst h
    exact AList.lookup_erase k' s
  · exact AList.lookup_erase_ne h

variable {s} in
/-- What an insertion holds is new, or under another key and old. -/
theorem lookup_insert_some {k k' : K} {v v' : V} (h : (s.insert k v).lookup k' = some v') :
    (k' = k ∧ v = v') ∨ (k' ≠ k ∧ s.lookup k' = some v') := by
  rw [lookup_insert_ite] at h
  split_ifs at h with hk
  · exact .inl ⟨hk, Option.some.inj h⟩
  · exact .inr ⟨hk, h⟩

variable {s} in
theorem lookup_erase_some {k k' : K} {v : V} (h : (s.erase k).lookup k' = some v) :
    k' ≠ k ∧ s.lookup k' = some v := by
  rw [lookup_erase_ite] at h
  split_ifs at h with hk
  exact ⟨hk, h⟩

/-- A map's entries are that of one of its keys and those of the rest. -/
theorem entries_perm_cons_erase (k : K) (v : V) (h : s.lookup k = some v) :
    s.entries ~ ⟨k, v⟩ :: (s.erase k).entries := by
  refine entries_perm_of_lookup_eq s (s.insert k v) (fun k' => ?_)
  rw [lookup_insert_ite]
  split_ifs with hk
  · rw [hk, h]
  · rfl

end

/-- What a loop over a map's entries leaves that inserts, for some of them, something under
    the entry's key. -/
theorem lookup_foldl_insertSome {W : Type} (f : K → V → Option W)
    (insertSome : HashMap K W → (Sigma fun _ : K => V) → HashMap K W)
    (hinsert : ∀ m entry, insertSome m entry =
      match f entry.1 entry.2 with
      | some w => m.insert entry.1 w
      | none => m)
    (entries : List (Sigma fun _ : K => V)) : entries.NodupKeys → ∀ (m : HashMap K W) (k : K),
      (entries.foldl insertSome m).lookup k =
        ((entries.dlookup k).bind (f k)).or (m.lookup k) := by
  induction entries with
  | nil => exact fun _ m k => rfl
  | cons entry entries ih =>
    intro hnodup m k
    obtain ⟨hnew, hrest⟩ := List.nodupKeys_cons.1 hnodup
    have hone : (insertSome m entry).lookup k =
        if k = entry.1 then (f entry.1 entry.2).or (m.lookup k) else m.lookup k := by
      rw [hinsert]
      cases f entry.1 entry.2 with
      | none => rw [Option.none_or, ite_self]
      | some w => rw [lookup_insert_ite]; rfl
    rw [List.foldl_cons, ih hrest, hone]
    by_cases heq : k = entry.1
    · have hnone : entries.dlookup k = none := by
        rw [List.dlookup_eq_none, heq]
        exact hnew
      rw [if_pos heq, hnone, heq]
      show _ = ((List.dlookup entry.1 (⟨entry.1, entry.2⟩ :: entries)).bind _).or _
      rw [List.dlookup_cons_eq]
      rfl
    · rw [if_neg heq]
      show _ = ((List.dlookup k (⟨entry.1, entry.2⟩ :: entries)).bind _).or _
      rw [List.dlookup_cons_ne _ _ heq]

theorem lookup_foldl_erase (gone : List K) :
    ∀ (maps : HashMap K V) (x : K),
      (gone.foldl (fun maps b => maps.erase b) maps).lookup x
        = if x ∈ gone then none else maps.lookup x := by
  induction gone with
  | nil => intro maps x; simp
  | cons b gone ih =>
    intro maps x
    rw [List.foldl_cons, ih, lookup_erase_ite]
    by_cases hx : x ∈ gone <;> by_cases hxb : x = b <;> simp [hx, hxb]

theorem erase_eq_self (s : HashMap K V) (k : K) (h : s.lookup k = none) : s.erase k = s := by
  apply AList.ext
  refine List.kerase_of_notMem_keys ?_
  exact fun hk => (mem_keys_iff s k).1 hk h

end

end GluaLs.Lib

namespace AList

open List GluaLs.Lib

variable {K V : Type}

/-! ## §2. Bulk rewrites -/

/-- Rewrites each entry by `f`, dropping those `f` maps to `none`. -/
def filterMapEntries (f : K → V → Option V) (s : HashMap K V) : HashMap K V where
  entries := s.entries.filterMap fun e => (f e.1 e.2).map (⟨e.1, ·⟩)
  nodupKeys := by
    have hsub : ∀ l : List (Sigma fun _ : K => V),
        (l.filterMap fun e => (f e.1 e.2).map fun v =>
          (⟨e.1, v⟩ : Sigma fun _ : K => V)).keys.Sublist l.keys := by
      intro l
      induction l with
      | nil => simp
      | cons e l ih =>
        rw [List.filterMap_cons]
        cases hf : f e.1 e.2 with
        | none => exact ih.cons _
        | some v => exact ih.cons_cons _
    exact List.Nodup.sublist (hsub s.entries) s.nodupKeys

theorem mem_filterMapEntries (f : K → V → Option V) (s : HashMap K V) (k : K) (v : V) :
    (⟨k, v⟩ : Sigma fun _ : K => V) ∈ (s.filterMapEntries f).entries ↔
      ∃ u, (⟨k, u⟩ : Sigma fun _ : K => V) ∈ s.entries ∧ f k u = some v := by
  simp only [filterMapEntries, List.mem_filterMap, Option.map_eq_some_iff]
  constructor
  · rintro ⟨⟨k', u⟩, hmem, v', hv', heq⟩
    cases heq
    exact ⟨u, hmem, hv'⟩
  · rintro ⟨u, hmem, hv⟩
    exact ⟨⟨k, u⟩, hmem, v, hv, rfl⟩

section

variable [DecidableEq K]

/-- `entry(k).or_insert(v)` -/
def orInsert (s : HashMap K V) (k : K) (v : V) : HashMap K V :=
  match s.lookup k with
  | some _ => s
  | none => s.insert k v

theorem lookup_orInsert (s : HashMap K V) (k k' : K) (v : V) :
    (s.orInsert k v).lookup k' = if k' = k then (s.lookup k).or (some v) else s.lookup k' := by
  unfold orInsert
  cases hold : s.lookup k with
  | some old =>
    by_cases hk : k' = k
    · rw [if_pos hk, hk]
      exact hold
    · rw [if_neg hk]
  | none =>
    show (s.insert k v).lookup k' = _
    rw [lookup_insert_ite, Option.none_or]

@[simp] theorem lookup_filterMapEntries (f : K → V → Option V) (s : HashMap K V) (k : K) :
    (s.filterMapEntries f).lookup k = (s.lookup k).bind (f k) := by
  ext v
  rw [← mem_entries_iff, mem_filterMapEntries]
  constructor
  · rintro ⟨u, hmem, hv⟩
    rw [(mem_entries_iff s k u).1 hmem]
    exact hv
  · intro h
    obtain ⟨u, hu, hv⟩ := Option.bind_eq_some_iff.1 h
    exact ⟨u, (mem_entries_iff s k u).2 hu, hv⟩

/-- The map that holds `f k` at each of the listed keys. -/
def ofKeys (ks : List K) (f : K → Option V) : HashMap K V where
  entries := ks.dedup.filterMap fun k => (f k).map (⟨k, ·⟩)
  nodupKeys := by
    have hsub : ∀ l : List K,
        (l.filterMap fun k => (f k).map fun v =>
          (⟨k, v⟩ : Sigma fun _ : K => V)).keys.Sublist l := by
      intro l
      induction l with
      | nil => simp
      | cons k l ih =>
        rw [List.filterMap_cons]
        cases hf : f k with
        | none => exact ih.cons _
        | some v => exact ih.cons_cons _
    exact List.Nodup.sublist (hsub ks.dedup) ks.nodup_dedup

theorem lookup_ofKeys (ks : List K) (f : K → Option V) (k : K) :
    (ofKeys ks f).lookup k = if k ∈ ks then f k else none := by
  ext v
  rw [← mem_entries_iff]
  simp only [ofKeys, List.mem_filterMap, List.mem_dedup, Option.map_eq_some_iff]
  constructor
  · rintro ⟨k', hk', v', hv', heq⟩
    cases heq
    rw [if_pos hk']
    exact hv'
  · intro h
    split_ifs at h with hk
    exact ⟨k, hk, v, h, rfl⟩

end

end AList

namespace GluaLs.Lib

section

variable {K I P : Type} [DecidableEq K] [DecidableEq I]

/-! ## §3. Two maps that undo each other

  One map finds the index of a key, the other what is known under an index; what is known
  carries its key (`key`).  The two are INVERSE when a key finds exactly the index whose entry
  carries it.  An entry comes and goes in both at once:

    • `inverse_insert` — an index that had no entry takes one under a key that found none,
    • `inverse_erase` — an index loses its entry, and the entry's key finds nothing.
-/

/-- A key finds the index whose entry carries it. -/
def Inverse (key : P → K) (s : HashMap K I) (t : HashMap I P) : Prop :=
  ∀ k i, s.lookup k = some i ↔ ∃ p, t.lookup i = some p ∧ key p = k

variable {key : P → K} {s : HashMap K I} {t : HashMap I P}

theorem inverse_empty (key : P → K) : Inverse key (∅ : HashMap K I) ∅ := by
  intro k i
  constructor
  · intro h
    cases h
  · intro h
    obtain ⟨p, hp, -⟩ := h
    cases hp

theorem Inverse.find (h : Inverse key s t) {i : I} {p : P} (hp : t.lookup i = some p) :
    s.lookup (key p) = some i :=
  (h (key p) i).2 ⟨p, hp, rfl⟩

theorem inverse_insert (h : Inverse key s t) {i : I} {p : P} (hkey : s.lookup (key p) = none)
    (hindex : t.lookup i = none) : Inverse key (s.insert (key p) i) (t.insert i p) := by
  intro k j
  rw [lookup_insert_ite, lookup_insert_ite]
  by_cases hk : k = key p
  · rw [if_pos hk]
    constructor
    · intro hj
      rw [if_pos (Option.some.inj hj).symm]
      exact ⟨p, rfl, hk.symm⟩
    · intro hq
      obtain ⟨q, hq, hqk⟩ := hq
      by_cases hj : j = i
      · rw [hj]
      · rw [if_neg hj] at hq
        have hfound := h.find hq
        rw [hqk, hk, hkey] at hfound
        cases hfound
  · rw [if_neg hk, h k j]
    by_cases hj : j = i
    · rw [if_pos hj, hj, hindex]
      constructor
      · intro hq
        obtain ⟨q, hq, -⟩ := hq
        cases hq
      · intro hq
        obtain ⟨q, hq, hqk⟩ := hq
        rw [← Option.some.inj hq] at hqk
        exact absurd hqk.symm hk
    · rw [if_neg hj]

theorem inverse_erase (h : Inverse key s t) {i : I} {p : P} (hp : t.lookup i = some p) :
    Inverse key (s.erase (key p)) (t.erase i) := by
  intro k j
  rw [lookup_erase_ite, lookup_erase_ite]
  by_cases hk : k = key p
  · rw [if_pos hk]
    constructor
    · intro hnone
      cases hnone
    · intro hq
      obtain ⟨q, hq, hqk⟩ := hq
      by_cases hj : j = i
      · rw [if_pos hj] at hq
        cases hq
      · rw [if_neg hj] at hq
        have hfound := h.find hq
        rw [hqk, hk, h.find hp] at hfound
        exact absurd (Option.some.inj hfound).symm hj
  · rw [if_neg hk, h k j]
    by_cases hj : j = i
    · rw [if_pos hj, hj, hp]
      constructor
      · intro hq
        obtain ⟨q, hq, hqk⟩ := hq
        rw [← Option.some.inj hq] at hqk
        exact absurd hqk.symm hk
      · intro hq
        obtain ⟨q, hq, -⟩ := hq
        cases hq
    · rw [if_neg hj]

end

variable {K V M : Type} [DecidableEq K] [AddCommGroup M]

/-! ## §4. Sums over the values

  A running sum is adjusted where a value comes or goes.  It is the sum over the map, whatever
  order that has: what an insertion adds and a removal takes away does not depend on it.
-/

/-- The sum over the values of a map. -/
def sumOf (f : V → M) (s : HashMap K V) : M := (s.entries.map fun entry => f entry.2).sum

section

variable (f : V → M) (s : HashMap K V) (k : K)

/-- A map sums to one of its values and the sum of the rest. -/
theorem sumOf_eq_add_erase (v : V)
    (h : s.lookup k = some v) : sumOf f s = f v + sumOf f (s.erase k) := by
  unfold sumOf
  rw [((entries_perm_cons_erase s k v h).map _).sum_eq, List.map_cons, List.sum_cons]

theorem sumOf_erase (v : V) (h : s.lookup k = some v) : sumOf f (s.erase k) = sumOf f s - f v := by
  rw [sumOf_eq_add_erase f s k v h, add_sub_cancel_left]

theorem sumOf_insert (v : V) : sumOf f (s.insert k v) = f v + sumOf f (s.erase k) := by
  have hlookup : (s.insert k v).lookup k = some v := by rw [lookup_insert_ite, if_pos rfl]
  rw [sumOf_eq_add_erase f _ k v hlookup]
  apply congrArg
  unfold sumOf
  rw [((entries_perm_of_lookup_eq ((s.insert k v).erase k) (s.erase k) ?_).map _).sum_eq]
  intro k'
  rw [lookup_erase_ite, lookup_erase_ite, lookup_insert_ite]
  split <;> rfl

theorem sumOf_insert_new (v : V) (h : s.lookup k = none) :
    sumOf f (s.insert k v) = sumOf f s + f v := by
  rw [sumOf_insert, erase_eq_self s k h, add_comm]

/-- A value replaced by one that counts the same. -/
theorem sumOf_insert_same (v v' : V)
    (h : s.lookup k = some v) (hf : f v' = f v) : sumOf f (s.insert k v') = sumOf f s := by
  rw [sumOf_insert, hf, ← sumOf_eq_add_erase f s k v h]

end

/-! ## §5. Lists in no order -/

/-- `Vec::swap_remove` -/
def swapRemove {α : Type} (l : List α) (at' : Nat) : List α :=
  match l.getLast? with
  | some last => (l.set at' last).dropLast
  | none => l

theorem swapRemove_perm {α : Type} (l : List α) (at' : Nat) (h : at' < l.length) :
    (swapRemove l at').Perm (l.eraseIdx at') := by
  obtain rfl | ⟨init, last, rfl⟩ := l.eq_nil_or_concat'
  · exact absurd h (Nat.not_lt_zero at')
  · unfold swapRemove
    rw [List.getLast?_concat]
    by_cases hinit : at' < init.length
    · -- the last key takes the place of the one that goes
      show ((init ++ [last]).set at' last).dropLast.Perm _
      rw [List.set_append_left _ _ hinit, List.dropLast_concat,
        List.eraseIdx_append_of_lt_length hinit]
      exact (List.set_perm_cons_eraseIdx hinit last).trans (List.perm_append_singleton last _).symm
    · have hlast : at' = init.length := by
        rw [List.length_append, List.length_singleton] at h
        omega
      subst hlast
      show ((init ++ [last]).set init.length last).dropLast.Perm _
      rw [List.set_append_right _ _ le_rfl, List.eraseIdx_append_of_length_le le_rfl]
      simp

end GluaLs.Lib
