/-
  GluaLs.CowShards.OrderFree — a superstep's merged installs do not depend on their order.

  The forks of a superstep are taken from one frozen map and installed into a map that still
  holds what the frozen map does.  Whichever fork comes first is taken whole, later ones are
  merged, a key that is back at its frozen value takes the fork's value as it is: all three
  ways are the action of the fork's change (`Composes`), so that no order matters and nothing
  conflicts.  **`merges_order_free`** says so of `merge_sum`, `merge_set` and `merge_map` over
  either, with what each entry ends as.
-/
import GluaLs.CowShards.Contract

namespace GluaLs.Cow

open GluaLs.Lib

/-! ## §1. Sums

  Each merge is read through what it is about: a sum through its value (an absent one is
  zero), a set through its elements, a map through its entries.  Read so, taking a change in
  adds the difference (`mergeSum_composes`), takes elements in and out (`mergeSet_composes`),
  or does what the inner merge does at each key (`mergeMap_composes`, for ANY inner merge that
  composes); changes from one start commute, and `prune` keeps the readings injective.
-/

section

variable {T : Type} [AddCommGroup T] [DecidableEq T]

/-- No sum is kept that is zero. -/
def SumValid (o : Option T) : Prop := o ≠ some 0

theorem mergeSum_composes : Composes (mergeSum (T := T)) SumValid (fun o => o.getD 0)
    (fun b v n => n + (v - b)) where
  ok now before value _ _ _ := by
    refine ⟨_, rfl, ?_, ?_⟩
    · unfold SumValid
      split_ifs with h
      · simpa using h
      · simp
    · simp only
      split_ifs with h
      · rfl
      · simp only [ne_eq, not_not] at h
        rw [h]
        rfl
  inj x y hx hy h := by
    unfold SumValid at hx hy
    cases x <;> cases y <;> simp_all
  unchanged b n := by simp
  start b v := by simp
  comm b v u n := by
    rw [add_assoc, add_comm (u - b), ← add_assoc]

omit [DecidableEq T] in
/-- What the changes `values` from `b` add up to. -/
theorem foldl_sum (b : T) (values : List T) :
    ∀ n : T, values.foldl (fun n v => n + (v - b)) n = n + (values.map fun v => v - b).sum := by
  induction values with
  | nil => intro n; simp
  | cons v values ih =>
    intro n
    rw [List.foldl_cons, ih, List.map_cons, List.sum_cons, add_assoc]

end

/-! ## §2. Sets -/

section

variable {S : Type} [SetOf S]

/-- No set is kept that is empty. -/
def SetValid (o : Option S) : Prop := ∀ s, o = some s → SetOf.isEmpty s = false

/-- The elements of a set that may be absent. -/
def readSet (o : Option S) (e : SetOf.Element S) : Prop := hadIn o e = true

theorem mem_elementsIn (o : Option S) (e : SetOf.Element S) :
    e ∈ o.toList.flatMap SetOf.elements ↔ readSet o e := by
  cases o with
  | none => simp [readSet, hadIn]
  | some s => simp [readSet, hadIn, SetOf.mem_elements]

theorem has_putAll (frozen : Option S) (e : SetOf.Element S) (l : List (SetOf.Element S)) :
    ∀ s : S, SetOf.has (l.foldl (fun merged element =>
        if !hadIn frozen element then SetOf.put merged element else merged) s) e = true ↔
      SetOf.has s e = true ∨ (e ∈ l ∧ ¬ readSet frozen e) := by
  induction l with
  | nil => intro s; simp
  | cons x l ih =>
    intro s
    rw [List.foldl_cons, ih]
    by_cases hx : hadIn frozen x = true
    · simp only [hx, Bool.not_true, Bool.false_eq_true, if_false, List.mem_cons]
      constructor
      · rintro (h | ⟨h, hn⟩)
        · exact .inl h
        · exact .inr ⟨.inr h, hn⟩
      · rintro (h | ⟨rfl | h, hn⟩)
        · exact .inl h
        · exact absurd hx hn
        · exact .inr ⟨h, hn⟩
    · simp only [hx, Bool.not_false, if_true, SetOf.has_put, List.mem_cons]
      constructor
      · rintro ((rfl | h) | ⟨h, hn⟩)
        · exact .inr ⟨.inl rfl, hx⟩
        · exact .inl h
        · exact .inr ⟨.inr h, hn⟩
      · rintro (h | ⟨rfl | h, hn⟩)
        · exact .inl (.inr h)
        · exact .inl (.inl rfl)
        · exact .inr ⟨h, hn⟩

theorem has_dropAll (fork : Option S) (e : SetOf.Element S) (l : List (SetOf.Element S)) :
    ∀ s : S, SetOf.has (l.foldl (fun merged element =>
        if !hadIn fork element then SetOf.dropElement merged element else merged) s) e = true ↔
      SetOf.has s e = true ∧ ¬ (e ∈ l ∧ ¬ readSet fork e) := by
  induction l with
  | nil => intro s; simp
  | cons x l ih =>
    intro s
    rw [List.foldl_cons, ih]
    by_cases hx : hadIn fork x = true
    · simp only [hx, Bool.not_true, Bool.false_eq_true, if_false, List.mem_cons]
      refine and_congr_right fun _ => not_congr ⟨?_, ?_⟩
      · rintro ⟨h, hn⟩
        exact ⟨.inr h, hn⟩
      · rintro ⟨rfl | h, hn⟩
        · exact absurd hx hn
        · exact ⟨h, hn⟩
    · simp only [hx, Bool.not_false, if_true, SetOf.has_dropElement, List.mem_cons]
      constructor
      · rintro ⟨⟨hne, h⟩, hn⟩
        refine ⟨h, ?_⟩
        rintro ⟨rfl | hmem, hf⟩
        · exact hne rfl
        · exact hn ⟨hmem, hf⟩
      · rintro ⟨h, hn⟩
        refine ⟨⟨?_, h⟩, fun ⟨hmem, hf⟩ => hn ⟨.inr hmem, hf⟩⟩
        rintro rfl
        exact hn ⟨.inl rfl, hx⟩

theorem readSet_prune (s : S) (e : SetOf.Element S) :
    readSet (prune (some s) SetOf.isEmpty) e ↔ SetOf.has s e = true := by
  unfold prune
  split_ifs with h
  · have hnone := (SetOf.isEmpty_iff s).1 h e
    simp [readSet, hadIn, hnone]
  · exact .rfl

theorem setValid_prune (s : S) : SetValid (prune (some s) SetOf.isEmpty) := by
  intro t ht
  unfold prune at ht
  split_ifs at ht with h
  cases ht
  simpa using h

/-- The change of a set's elements from `b` to `v`, on `n`. -/
def actSet {E : Type} (b v n : E → Prop) (e : E) : Prop :=
  (n e ∧ ¬ (b e ∧ ¬ v e)) ∨ (v e ∧ ¬ b e)

theorem readSet_getD (o : Option S) (e : SetOf.Element S) :
    SetOf.has (o.getD SetOf.default) e = true ↔ readSet o e := by
  cases o with
  | none => simp [readSet, hadIn, SetOf.has_default]
  | some s => exact .rfl

theorem mergeSet_composes : Composes (mergeSet (S := S)) SetValid readSet actSet where
  ok now before value _ _ _ := by
    refine ⟨_, rfl, setValid_prune _, ?_⟩
    funext e
    apply propext
    rw [readSet_prune, has_dropAll, has_putAll, mem_elementsIn, mem_elementsIn, readSet_getD]
    unfold actSet
    tauto
  inj x y hx hy h := by
    have hread : ∀ e, hadIn x e = hadIn y e := by
      intro e
      rw [Bool.eq_iff_iff]
      exact iff_of_eq (congrFun h e)
    -- an absent set has the elements of an empty one, which is never kept
    have habsent : ∀ s : S, SetOf.isEmpty s = false → ¬ ∀ e, SetOf.has s e = false := by
      intro s hs hall
      rw [(SetOf.isEmpty_iff s).2 hall] at hs
      cases hs
    cases x with
    | none =>
      cases y with
      | none => rfl
      | some t => exact absurd (fun e => (hread e).symm) (habsent t (hy t rfl))
    | some s =>
      cases y with
      | none => exact absurd hread (habsent s (hx s rfl))
      | some t => exact congrArg some (SetOf.ext s t hread)
  unchanged b n := by
    funext e
    apply propext
    unfold actSet
    tauto
  start b v := by
    funext e
    apply propext
    unfold actSet
    tauto
  comm b v u n := by
    funext e
    apply propext
    unfold actSet
    tauto

/-- What the changes `values` from `b` leave of it. -/
theorem foldl_actSet {E : Type} (b : E → Prop) (e : E) (values : List (E → Prop)) :
    ∀ n : E → Prop, values.foldl (fun n v => actSet b v n) n e ↔
      (b e ∧ n e ∧ ∀ v ∈ values, v e) ∨ (¬ b e ∧ (n e ∨ ∃ v ∈ values, v e)) := by
  induction values with
  | nil => intro n; simp; tauto
  | cons v values ih =>
    intro n
    rw [List.foldl_cons, ih]
    simp only [actSet, List.mem_cons, forall_eq_or_imp, exists_eq_or_imp]
    tauto

end

/-! ## §3. Maps -/

section

variable {M : Type} [MapOf M]

/-- No map is kept that is empty, nor an entry the inner merge does not keep. -/
def MapValid (Valid : Option (MapOf.Value M) → Prop) (o : Option M) : Prop :=
  (∀ m, o = some m → MapOf.isEmpty m = false) ∧ ∀ k, Valid (entryIn o k)

theorem mem_keysIn (o : Option M) (k : MapOf.Key M) :
    k ∈ o.toList.flatMap MapOf.keysOf ↔ entryIn o k ≠ none := by
  cases o with
  | none => simp [entryIn]
  | some m => simp [entryIn, MapOf.mem_keysOf]

theorem nodup_keysIn (o : Option M) : (o.toList.flatMap MapOf.keysOf).Nodup := by
  cases o with
  | none => simp
  | some m =>
    rw [Option.toList_some, List.flatMap_singleton]
    exact MapOf.nodup_keysOf m

theorem entryIn_prune (m : M) (k : MapOf.Key M) :
    entryIn (prune (some m) MapOf.isEmpty) k = MapOf.entryOf m k := by
  unfold prune
  split_ifs with h
  · rw [(MapOf.isEmpty_iff m).1 h k]
    rfl
  · rfl

theorem entryOf_getD (o : Option M) (k : MapOf.Key M) :
    MapOf.entryOf (o.getD MapOf.default) k = entryIn o k := by
  cases o with
  | none => exact MapOf.entryOf_default k
  | some m => rfl

variable [DecidableEq (MapOf.Value M)]

theorem mem_changedOf (frozen fork : Option M) (k : MapOf.Key M) :
    k ∈ changedOf frozen fork ↔ entryIn fork k ≠ entryIn frozen k := by
  unfold changedOf
  rw [List.mem_append, List.mem_filter, List.mem_filter, mem_keysIn, mem_keysIn]
  simp only [ne_eq, decide_eq_true_eq, Option.isNone_iff_eq_none]
  constructor
  · rintro (⟨-, hne⟩ | ⟨hfrozen, hfork⟩)
    · exact hne
    · rw [hfork]
      exact Ne.symm hfrozen
  · intro hne
    by_cases hfork : entryIn fork k = none
    · exact .inr ⟨fun hnone => hne (hfork.trans hnone.symm), hfork⟩
    · exact .inl ⟨hfork, hne⟩

theorem nodup_changedOf (frozen fork : Option M) : (changedOf frozen fork).Nodup := by
  refine List.Nodup.append ((nodup_keysIn fork).filter _) ((nodup_keysIn frozen).filter _) ?_
  intro k hk hk'
  have hsome := (mem_keysIn fork k).1 (List.mem_filter.1 hk).1
  have hnone := (List.mem_filter.1 hk').2
  rw [Option.isNone_iff_eq_none] at hnone
  exact hsome hnone

section

variable {ρ : Type} {inner : Merge (MapOf.Value M)} {Valid : Option (MapOf.Value M) → Prop}
  {read : Option (MapOf.Value M) → ρ} {act : ρ → ρ → ρ → ρ}

/-- One key: the entry is merged three ways, no other entry is touched. -/
theorem mergeEntry_spec (h : Composes inner Valid read act) {frozen fork : Option M} {merged : M}
    {key : MapOf.Key M} (hb : Valid (entryIn frozen key)) (hv : Valid (entryIn fork key))
    (hn : Valid (MapOf.entryOf merged key)) (hne : entryIn fork key ≠ entryIn frozen key) :
    ∃ merged', mergeEntry inner frozen fork merged key = .ok merged' ∧
      MapOf.entryOf merged' key = (threeWay (some inner) (entryIn frozen key)
        (MapOf.entryOf merged key) (entryIn fork key)).1 ∧
      ∀ k, k ≠ key → MapOf.entryOf merged' k = MapOf.entryOf merged k := by
  have hput : ∀ (m : M) (v : MapOf.Value M),
      (∀ k, k ≠ key → MapOf.entryOf m k = MapOf.entryOf merged k) →
      ∀ k, k ≠ key → MapOf.entryOf (MapOf.putEntry m key v) k = MapOf.entryOf merged k :=
    fun m v hm k hk => (MapOf.entryOf_putEntry_ne m key v k hk).trans (hm k hk)
  have hdrop : ∀ k, k ≠ key → MapOf.entryOf (MapOf.dropEntry merged key) k
      = MapOf.entryOf merged k := fun k hk => MapOf.entryOf_dropEntry_ne merged key k hk
  unfold mergeEntry threeWay
  simp only [if_neg hne]
  by_cases hnow : MapOf.entryOf merged key = entryIn frozen key
  · simp only [if_pos hnow]
    cases hval : entryIn fork key with
    | some v =>
      exact ⟨_, rfl, MapOf.entryOf_putEntry _ _ _, hput merged v (fun _ _ => rfl)⟩
    | none => exact ⟨_, rfl, MapOf.entryOf_dropEntry _ _, hdrop⟩
  · simp only [if_neg hnow]
    obtain ⟨slot, hok, -, -⟩ := h.ok _ _ _ hn hb hv
    rw [hok]
    cases slot with
    | some v => exact ⟨_, rfl, MapOf.entryOf_putEntry _ _ _, hput _ v hdrop⟩
    | none => exact ⟨_, rfl, MapOf.entryOf_dropEntry _ _, hdrop⟩

/-- The loop over keys the fork changed, each once. -/
theorem mergeEntries_spec (h : Composes inner Valid read act) {frozen fork : Option M}
    (hb : ∀ k, Valid (entryIn frozen k)) (hv : ∀ k, Valid (entryIn fork k))
    (l : List (MapOf.Key M)) : ∀ {merged : M}, l.Nodup →
      (∀ k ∈ l, entryIn fork k ≠ entryIn frozen k) → (∀ k, Valid (MapOf.entryOf merged k)) →
      ∃ merged', l.foldlM (mergeEntry inner frozen fork) merged = .ok merged' ∧
        ∀ k, (k ∈ l → MapOf.entryOf merged' k = (threeWay (some inner) (entryIn frozen k)
            (MapOf.entryOf merged k) (entryIn fork k)).1) ∧
          (k ∉ l → MapOf.entryOf merged' k = MapOf.entryOf merged k) := by
  induction l with
  | nil =>
    intro merged _ _ _
    exact ⟨merged, rfl, fun k => ⟨fun hk => absurd hk (by simp), fun _ => rfl⟩⟩
  | cons key l ih =>
    intro merged hnodup hne hn
    rw [List.nodup_cons] at hnodup
    obtain ⟨m₁, hstep, hkey, hother⟩ := mergeEntry_spec h (hb key) (hv key) (hn key)
      (hne key (by simp))
    have hn₁ : ∀ k, Valid (MapOf.entryOf m₁ k) := by
      intro k
      by_cases hk : k = key
      · subst hk
        rw [hkey]
        exact (h.threeWay (hb k) (hn k) (hv k)).1
      · rw [hother k hk]
        exact hn k
    obtain ⟨m₂, hrest, hspec⟩ := ih hnodup.2 (fun k hk => hne k (by simp [hk])) hn₁
    refine ⟨m₂, ?_, ?_⟩
    · rw [List.foldlM_cons, hstep]
      exact hrest
    · intro k
      by_cases hk : k = key
      · subst hk
        refine ⟨fun _ => ?_, fun hout => absurd (by simp) hout⟩
        rw [(hspec k).2 hnodup.1, hkey]
      · constructor
        · intro hmem
          have hmem := (List.mem_cons.1 hmem).resolve_left hk
          rw [(hspec k).1 hmem, hother k hk]
        · intro hout
          rw [(hspec k).2 (fun hmem => hout (by simp [hmem])), hother k hk]

/-- **A map of values that compose composes.** -/
theorem mergeMap_composes (h : Composes inner Valid read act) :
    Composes (mergeMap inner) (MapValid Valid) (fun o k => read (entryIn o k))
      (fun b v n k => act (b k) (v k) (n k)) where
  ok now before value hn hb hv := by
    have hnow : ∀ k, Valid (MapOf.entryOf (now.getD MapOf.default) k) := by
      intro k
      rw [entryOf_getD]
      exact hn.2 k
    obtain ⟨merged, hok, hspec⟩ := mergeEntries_spec h hb.2 hv.2 (changedOf before value)
      (nodup_changedOf before value) (fun k hk => (mem_changedOf before value k).1 hk) hnow
    have hentry : ∀ k, MapOf.entryOf merged k = (threeWay (some inner) (entryIn before k)
        (entryIn now k) (entryIn value k)).1 := by
      intro k
      by_cases hk : k ∈ changedOf before value
      · rw [(hspec k).1 hk, entryOf_getD]
      · have heq : entryIn value k = entryIn before k := by
          by_contra hne
          exact hk ((mem_changedOf before value k).2 hne)
        rw [(hspec k).2 hk, entryOf_getD, heq, threeWay_unchanged]
    refine ⟨prune (some merged) MapOf.isEmpty, ?_, ⟨?_, ?_⟩, ?_⟩
    · unfold mergeMap
      simp only
      rw [hok]
      rfl
    · intro m hm
      unfold prune at hm
      split_ifs at hm with hempty
      cases hm
      simpa using hempty
    · intro k
      rw [entryIn_prune, hentry]
      exact (h.threeWay (hb.2 k) (hn.2 k) (hv.2 k)).1
    · funext k
      rw [entryIn_prune, hentry]
      exact (h.threeWay (hb.2 k) (hn.2 k) (hv.2 k)).2.1
  inj x y hx hy heq := by
    have hentry : ∀ k, entryIn x k = entryIn y k :=
      fun k => h.inj _ _ (hx.2 k) (hy.2 k) (congrFun heq k)
    have habsent : ∀ m : M, MapOf.isEmpty m = false → ¬ ∀ k, MapOf.entryOf m k = none := by
      intro m hm hall
      rw [(MapOf.isEmpty_iff m).2 hall] at hm
      cases hm
    cases x with
    | none =>
      cases y with
      | none => rfl
      | some m' => exact absurd (fun k => (hentry k).symm) (habsent m' (hy.1 m' rfl))
    | some m =>
      cases y with
      | none => exact absurd hentry (habsent m (hx.1 m rfl))
      | some m' => exact congrArg some (MapOf.ext m m' hentry)
  unchanged b n := funext fun k => h.unchanged (b k) (n k)
  start b v := funext fun k => h.start (b k) (v k)
  comm b v u n := funext fun k => h.comm (b k) (v k) (u k) (n k)

end

end

open World

/-! ## §4. Merges that compose -/

section

variable {K V : Type}

theorem CanInstall.perm {s : Plain K V} {a z : Nat} {forks forks' : List (Nat × Nat)}
    (h : s.CanInstall a z (forks.map Prod.snd)) (hp : forks'.Perm forks) :
    s.CanInstall a z (forks'.map Prod.snd) := by
  have hmap := hp.map Prod.snd
  refine ⟨h.1, h.2.1, fun b hb => h.2.2.1 b (hmap.mem_iff.1 hb), ?_⟩
  exact ((hmap.cons z).cons a).nodup_iff.2 h.2.2.2

variable [DecidableEq K] [ShardKey K] [DecidableEq V]

variable {ρ : Type} {merge : Merge V} {Valid : Option V → Prop} {read : Option V → ρ}
  {act : ρ → ρ → ρ → ρ}

/-- An install of forks under a merge that composes reports no conflict. -/
theorem no_conflict {w w' : World K V} {s : Plain K V} {a z : Nat} {forks : List (Nat × Nat)}
    {conflicted : List Nat} (hcomp : Composes merge Valid read act) (hnone : Valid none)
    (h : Sim w s) (hable : Installable w a z forks)
    (hself : ∀ k, SlotFits k → w.get a k = w.get z k) (hvz : ∀ k, SlotFits k → Valid (w.get z k))
    (hvf : ∀ fork ∈ forks, ∀ k, SlotFits k → Valid (w.get fork.2 k))
    (hall : InstalledAll w w' (some merge) a z forks conflicted) : conflicted = [] := by
  -- an entry outside its key's slot is absent, which is valid
  have hentry : ∀ n, w.Live n → (∀ k, SlotFits k → Valid (w.get n k)) → ∀ i, i < 2 ^ 32 → ∀ k,
      Valid (w.entryAt n i k) := by
    intro n hn hv i hi k
    by_cases hk : slotOf k = i
    · subst hk
      have hget := hv k hi
      rw [get_eq_contents] at hget
      exact hget
    · unfold entryAt
      rw [h.entries n hn i hi k, if_neg hk]
      exact hnone
  refine List.eq_nil_iff_forall_not_mem.2 ?_
  intro p hp
  obtain ⟨i, hi, hcl⟩ := (hall.conflict p).1 hp
  refine hcomp.not_clashes ?_ p _ ?_ ?_ hcl
  · exact fun k => hentry z hable.live_z hvz i hi k
  · exact fun k => hentry a hable.live_a (fun k hk => by rw [hself k hk]; exact hvz k hk) i hi k
  · intro e he k
    obtain ⟨fork, hf, rfl⟩ := List.mem_map.1 he
    exact hentry fork.2 (hable.live fork hf) (hvf fork hf) i hi k

/-- Each entry ends as the forks' changes taken in one after another. -/
theorem get_installed {w w' : World K V} {a z : Nat} {forks : List (Nat × Nat)}
    {conflicted : List Nat} {m : Option (Merge V)} (hself : ∀ k, SlotFits k → w.get a k = w.get z k)
    (hall : InstalledAll w w' m a z forks conflicted) {k : K} (hfit : SlotFits k) :
    w'.get a k = threeWayFold m (w.get z k) (w.get z k) (forks.map fun fork => w.get fork.2 k) := by
  have hlook := hall.lookup (slotOf k) hfit k
  unfold entryAt forksAt at hlook
  rw [← get_eq_contents, ← get_eq_contents, ← get_eq_contents, hself k hfit, List.map_map] at hlook
  rw [hlook]
  congr 1
  refine List.map_congr_left ?_
  intro fork _
  exact (get_eq_contents w fork.2 k).symm

end

/-! ## §5. What order independence says -/

/-- Installing forks of one frozen map into a map that holds what it holds, with `merge`, in
    ANY order, together or one after another: nothing conflicts, each entry is the same, and
    `Final` says what it is, from the frozen entry and the forks' entries. -/
def OrderFree {V : Type} [DecidableEq V] (merge : Merge V) (Valid : Option V → Prop)
    (Final : Option V → List (Option V) → Option V → Prop) : Prop :=
  ∀ (K : Type) [DecidableEq K] [ShardKey K] (ops : List (Op K V)) (s : Plain K V) (a z : Nat)
    (forks forks' : List (Nat × Nat)), Plain.run ops = some s →
    s.CanInstall a z (forks.map Prod.snd) → forks'.Perm forks →
    let w := World.run ops
    (∀ k, SlotFits k → w.get a k = w.get z k) → (∀ k, SlotFits k → Valid (w.get z k)) →
    (∀ fork ∈ forks, ∀ k, SlotFits k → Valid (w.get fork.2 k)) →
    (w.installEach a z forks' (some merge)).2 = [] ∧
    (w.installAll a z forks' (some merge)).2 = [] ∧
    ∀ k, SlotFits k →
      (w.installEach a z forks' (some merge)).1.get a k
        = (w.installEach a z forks (some merge)).1.get a k ∧
      (w.installAll a z forks' (some merge)).1.get a k
        = (w.installEach a z forks (some merge)).1.get a k ∧
      Final (w.get z k) (forks.map fun fork => w.get fork.2 k)
        ((w.installEach a z forks (some merge)).1.get a k)

theorem orderFree_of_composes {V ρ : Type} [DecidableEq V] {merge : Merge V}
    {Valid : Option V → Prop} {read : Option V → ρ} {act : ρ → ρ → ρ → ρ}
    {Final : Option V → List (Option V) → Option V → Prop}
    (hcomp : Composes merge Valid read act) (hnone : Valid none)
    (hfinal : ∀ before values, Valid before → (∀ v ∈ values, Valid v) →
      ∀ final, Valid final →
        read final = values.foldl (fun n v => act (read before) (read v) n) (read before) →
        Final before values final) : OrderFree merge Valid Final := by
  intro K _ _ ops s a z forks forks' hrun hcan hperm w hself hvz hvf
  have hsim : Sim w s := sim_run ops s hrun
  have hvf' : ∀ fork ∈ forks', ∀ k, SlotFits k → Valid (w.get fork.2 k) :=
    fun fork hf => hvf fork (hperm.mem_iff.1 hf)
  have hable := installable_of_canInstall hsim hcan
  have hable' := installable_of_canInstall hsim (CanInstall.perm hcan hperm)
  have heach := installEach_spec hsim.wf (some merge) hable
  have heach' := installEach_spec hsim.wf (some merge) hable'
  have hall' := installAll_spec hsim.wf (some merge) hable'
  refine ⟨no_conflict hcomp hnone hsim hable' hself hvz hvf' heach',
    no_conflict hcomp hnone hsim hable' hself hvz hvf' hall', ?_⟩
  intro k hfit
  have hvalues : ∀ v ∈ forks.map (fun fork => w.get fork.2 k), Valid v := by
    intro v hv
    obtain ⟨fork, hf, rfl⟩ := List.mem_map.1 hv
    exact hvf fork hf k hfit
  have hswap := threeWayFold_perm hcomp (hvz k hfit) (hvz k hfit)
    (hperm.map fun fork => w.get fork.2 k).symm hvalues
  rw [get_installed hself heach' hfit, get_installed hself hall' hfit,
    get_installed hself heach hfit]
  refine ⟨hswap.symm, hswap.symm, ?_⟩
  obtain ⟨hvalid, hread⟩ := hcomp.fold (hvz k hfit) _ (hvz k hfit) hvalues
  exact hfinal _ _ (hvz k hfit) hvalues _ hvalid hread

/-! ## §6. Sums, sets and maps -/

/-- A sum ends as the frozen one plus what each fork added, absent when that is zero. -/
def SumFinal {T : Type} [AddCommGroup T] [DecidableEq T] (frozen : Option T)
    (forks : List (Option T)) (final : Option T) : Prop :=
  let sum := frozen.getD 0 + (forks.map fun fork => fork.getD 0 - frozen.getD 0).sum
  final = if sum = 0 then none else some sum

/-- A set ends with the frozen elements no fork dropped and the others some fork added, absent
    when there are none. -/
def SetFinal {S : Type} [SetOf S] (frozen : Option S) (forks : List (Option S))
    (final : Option S) : Prop :=
  (∀ e, readSet final e ↔
    (readSet frozen e ∧ ¬ ∃ fork ∈ forks, ¬ readSet fork e) ∨
      (¬ readSet frozen e ∧ ∃ fork ∈ forks, readSet fork e)) ∧
  (final = none ↔ ∀ e, ¬ readSet final e)

/-- A map ends with each entry as the inner merge has it, absent when there are none. -/
def MapFinal {M : Type} [MapOf M] (Final : Option (MapOf.Value M) → List (Option (MapOf.Value M)) →
      Option (MapOf.Value M) → Prop)
    (frozen : Option M) (forks : List (Option M)) (final : Option M) : Prop :=
  (∀ k, Final (entryIn frozen k) (forks.map fun fork => entryIn fork k) (entryIn final k)) ∧
  (final = none ↔ ∀ k, entryIn final k = none)

theorem sumFinal {T : Type} [AddCommGroup T] [DecidableEq T] (before : Option T)
    (values : List (Option T)) (final : Option T) (hvalid : SumValid final) (hread : final.getD 0
      = values.foldl (fun n v => n + (v.getD 0 - before.getD 0)) (before.getD 0)) :
    SumFinal before values final := by
  have hsum := foldl_sum (before.getD 0) (values.map fun v => v.getD 0) (before.getD 0)
  rw [List.foldl_map, ← hread, List.map_map] at hsum
  unfold SumFinal
  simp only
  rw [show (fun fork : Option T => fork.getD 0 - before.getD 0)
    = (fun v => v - before.getD 0) ∘ (fun v : Option T => v.getD 0) from rfl, ← hsum]
  unfold SumValid at hvalid
  cases final with
  | none => simp
  | some x => simpa using hvalid

theorem setFinal {S : Type} [SetOf S] (before : Option S) (values : List (Option S))
    (final : Option S) (hvalid : SetValid final) (hread : readSet final
      = values.foldl (fun n v => actSet (readSet before) (readSet v) n) (readSet before)) :
    SetFinal before values final := by
  constructor
  · intro e
    have hfold := foldl_actSet (readSet before) e (values.map readSet) (readSet before)
    rw [List.foldl_map, ← hread] at hfold
    rw [hfold]
    simp only [List.mem_map, forall_exists_index, and_imp, forall_apply_eq_imp_iff₂,
      exists_exists_and_eq_and, not_exists, not_and, not_not]
    tauto
  · constructor
    · rintro rfl e he
      cases he
    · intro h
      cases final with
      | none => rfl
      | some s =>
        have hempty : SetOf.isEmpty s = true :=
          (SetOf.isEmpty_iff s).2 (fun e => by simpa [readSet, hadIn] using h e)
        rw [hvalid s rfl] at hempty
        cases hempty

theorem mapFinal {M ρ : Type} [MapOf M] {Valid : Option (MapOf.Value M) → Prop}
    (read : Option (MapOf.Value M) → ρ) (act : ρ → ρ → ρ → ρ)
    {Final : Option (MapOf.Value M) → List (Option (MapOf.Value M)) →
      Option (MapOf.Value M) → Prop}
    (hinner : ∀ before values, Valid before → (∀ v ∈ values, Valid v) → ∀ final, Valid final →
      read final = values.foldl (fun n v => act (read before) (read v) n) (read before) →
      Final before values final)
    (before : Option M) (values : List (Option M)) (hb : MapValid Valid before)
    (hv : ∀ v ∈ values, MapValid Valid v) (final : Option M) (hvalid : MapValid Valid final)
    (hread : (fun k => read (entryIn final k)) = values.foldl
      (fun n v => fun k => act (read (entryIn before k)) (read (entryIn v k)) (n k))
      (fun k => read (entryIn before k))) :
    MapFinal Final before values final := by
  have hpoint : ∀ (k : MapOf.Key M) (l : List (Option M)) (n : MapOf.Key M → ρ),
      l.foldl (fun n v => fun k => act (read (entryIn before k)) (read (entryIn v k)) (n k)) n k
        = (l.map fun v => entryIn v k).foldl
          (fun n v => act (read (entryIn before k)) (read v) n) (n k) := by
    intro k l
    induction l with
    | nil => intro n; rfl
    | cons v l ih =>
      intro n
      rw [List.foldl_cons, ih]
      rfl
  constructor
  · intro k
    refine hinner _ _ (hb.2 k) ?_ _ (hvalid.2 k) ?_
    · intro v hmem
      obtain ⟨o, ho, rfl⟩ := List.mem_map.1 hmem
      exact (hv o ho).2 k
    · rw [← hpoint k values (fun k => read (entryIn before k))]
      exact congrFun hread k
  · constructor
    · rintro rfl k
      rfl
    · intro h
      cases final with
      | none => rfl
      | some m =>
        have hempty : MapOf.isEmpty m = true := (MapOf.isEmpty_iff m).2 h
        rw [hvalid.1 m rfl] at hempty
        cases hempty

/-- **Merged installs do not depend on their order**: sums, sets, and maps of either. -/
theorem merges_order_free :
    (∀ (T : Type) [AddCommGroup T] [DecidableEq T],
      OrderFree (mergeSum (T := T)) SumValid SumFinal) ∧
    (∀ (S : Type) [SetOf S] [DecidableEq S], OrderFree (mergeSet (S := S)) SetValid SetFinal) ∧
    (∀ (M : Type) [MapOf M] [DecidableEq M] [DecidableEq (MapOf.Value M)]
      [AddCommGroup (MapOf.Value M)],
      OrderFree (mergeMap (M := M) mergeSum) (MapValid SumValid) (MapFinal SumFinal)) ∧
    (∀ (M : Type) [MapOf M] [DecidableEq M] [DecidableEq (MapOf.Value M)] [SetOf (MapOf.Value M)],
      OrderFree (mergeMap (M := M) mergeSet) (MapValid SetValid) (MapFinal SetFinal)) := by
  refine ⟨?_, ?_, ?_, ?_⟩
  · intro T _ _
    exact orderFree_of_composes mergeSum_composes (by simp [SumValid])
      (fun before values _ _ final hvalid hread => sumFinal before values final hvalid hread)
  · intro S _ _
    exact orderFree_of_composes mergeSet_composes (by simp [SetValid])
      (fun before values _ _ final hvalid hread => setFinal before values final hvalid hread)
  · intro M _ _ _ _
    refine orderFree_of_composes (mergeMap_composes mergeSum_composes)
      ⟨by simp, fun k => by simp [SumValid, entryIn]⟩ ?_
    intro before values hb hv final hvalid hread
    exact mapFinal (fun o => o.getD 0) (fun b v n => n + (v - b))
      (fun before values _ _ final hvalid hread => sumFinal before values final hvalid hread)
      before values hb hv final hvalid hread
  · intro M _ _ _ _
    refine orderFree_of_composes (mergeMap_composes mergeSet_composes)
      ⟨by simp, fun k => by simp [SetValid, entryIn]⟩ ?_
    intro before values hb hv final hvalid hread
    exact mapFinal readSet actSet
      (fun before values _ _ final hvalid hread => setFinal before values final hvalid hread)
      before values hb hv final hvalid hread

/-- Two forks that each add to one sum, in both orders. -/
theorem merges_order_free_sums :
    let w := World.run ([.new 0, .insert 0 ⟨3⟩ 5, .clone 0 1, .fork 1 2, .fork 1 3,
      .insert 2 ⟨3⟩ 7, .insert 3 ⟨3⟩ 7] : List (Op FileId UInt32))
    (w.installAll 0 1 [(1, 3), (0, 2)] (some mergeSum)).2 = [] ∧
    (w.installAll 0 1 [(1, 3), (0, 2)] (some mergeSum)).1.get 0 ⟨3⟩ = some 9 := by
  intro w
  have hrun : ∃ s m mz mf mg, Plain.run ([.new 0, .insert 0 ⟨3⟩ 5, .clone 0 1, .fork 1 2,
      .fork 1 3, .insert 2 ⟨3⟩ 7, .insert 3 ⟨3⟩ 7] : List (Op FileId UInt32)) = some s ∧
      s.CanInstall 0 1 ([(0, 2), (1, 3)].map Prod.snd) ∧ s.maps.lookup 0 = some m ∧
      s.maps.lookup 1 = some mz ∧ s.maps.lookup 2 = some mf ∧ s.maps.lookup 3 = some mg ∧
      m.entries = mz.entries ∧ mz.entries.entries = [⟨⟨3⟩, 5⟩] ∧
      mf.entries.entries = [⟨⟨3⟩, 7⟩] ∧ mg.entries.entries = [⟨⟨3⟩, 7⟩] :=
    ⟨_, _, _, _, _, rfl, by decide, rfl, rfl, rfl, rfl, rfl, rfl, rfl, rfl⟩
  obtain ⟨s, m, mz, mf, mg, hs, hcan, hm, hz, hf, hg, hmz, hez, hef, heg⟩ := hrun
  have hsim : Sim w s := sim_run _ s hs
  have hget : ∀ n c, s.maps.lookup n = some c → ∀ k, SlotFits k →
      w.get n k = c.entries.lookup k := by
    intro n c hc k hk
    rw [hsim.get ((hsim.live n).2 (by rw [hc]; simp)) hk, get_of_lookup hc]
  have hvalid : ∀ (c : PlainMap FileId UInt32) (v : UInt32), v ≠ 0 →
      c.entries.entries = [⟨⟨3⟩, v⟩] → ∀ k, SumValid (c.entries.lookup k) := by
    intro c v hv hc k h0
    have hmem := (mem_entries_iff _ _ _).2 h0
    rw [hc, List.mem_singleton] at hmem
    cases hmem
    exact hv rfl
  have hfree := merges_order_free.1 UInt32 FileId _ s 0 1 [(0, 2), (1, 3)] [(1, 3), (0, 2)] hs hcan
    (.swap _ _ _) (fun k hk => by rw [hget 0 m hm k hk, hget 1 mz hz k hk, hmz])
    (fun k hk => by rw [hget 1 mz hz k hk]; exact hvalid mz 5 (by decide) hez k)
    (by
      intro fork hfork k hk
      rcases List.mem_cons.1 hfork with rfl | hfork
      · rw [hget 2 mf hf k hk]
        exact hvalid mf 7 (by decide) hef k
      · rw [List.mem_singleton.1 hfork, hget 3 mg hg k hk]
        exact hvalid mg 7 (by decide) heg k)
  refine ⟨hfree.2.1, ?_⟩
  obtain ⟨-, hall, hfinal⟩ := hfree.2.2 ⟨3⟩ (by decide)
  exact hall.trans (hfinal.trans (by decide))

end GluaLs.Cow
