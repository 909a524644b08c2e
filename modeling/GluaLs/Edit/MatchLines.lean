/-
  GluaLs.Edit.MatchLines — the lines a diff pairs up.

  Whatever the anchors are, the pairs `matchLines` returns form a LADDER: they climb on both
  sides, stay inside the ranges, and each pairs two lines of the same content.  Main results:

    • `ladder_uniqueAnchors` — the anchors form a ladder: the run `longestIncreasing` unwinds
      climbs, and a line seen once on each side was seen under one content,
    • `ladder_matchLines` — **the pairs of `matchLines` form a ladder**,
    • `matchLines_eq` — `matchLines` solves the recursion of the source: every recursive call
      is on fewer lines of the old text.
-/
import GluaLs.Edit.Lines

namespace GluaLs.Edit.Diff

open GluaLs.Lib

/-! ## §1. Ladders -/

/-- Pairs that climb from `(oldFrom, newFrom)` to `(oldTo, newTo)`, all satisfying `same`. -/
def Ladder (same : Nat → Nat → Prop) (oldTo newTo : Nat) : Nat → Nat → List (Nat × Nat) → Prop
  | oldFrom, newFrom, [] => oldFrom ≤ oldTo ∧ newFrom ≤ newTo
  | oldFrom, newFrom, p :: rest =>
    oldFrom ≤ p.1 ∧ newFrom ≤ p.2 ∧ same p.1 p.2
      ∧ Ladder same oldTo newTo (p.1 + 1) (p.2 + 1) rest

section

variable (same : Nat → Nat → Prop)

theorem Ladder.le (oldTo newTo : Nat) (ms : List (Nat × Nat)) :
    ∀ (oldFrom newFrom : Nat), Ladder same oldTo newTo oldFrom newFrom ms →
      oldFrom ≤ oldTo ∧ newFrom ≤ newTo := by
  induction ms with
  | nil => intro oldFrom newFrom h; exact h
  | cons p rest ih =>
    intro oldFrom newFrom h
    obtain ⟨h1, h2, _, hrest⟩ := h
    have := ih (p.1 + 1) (p.2 + 1) hrest
    omega

theorem Ladder.weaken (oldTo newTo oldFrom newFrom oldFrom' newFrom' : Nat)
    (ms : List (Nat × Nat)) (h : Ladder same oldTo newTo oldFrom newFrom ms)
    (ho : oldFrom' ≤ oldFrom) (hn : newFrom' ≤ newFrom) :
    Ladder same oldTo newTo oldFrom' newFrom' ms := by
  cases ms with
  | nil => exact ⟨by have := h.1; omega, by have := h.2; omega⟩
  | cons p rest => exact ⟨by have := h.1; omega, by have := h.2.1; omega, h.2.2⟩

theorem Ladder.append (oldMid newMid oldTo newTo : Nat) (ms ms' : List (Nat × Nat)) :
    ∀ (oldFrom newFrom : Nat), Ladder same oldMid newMid oldFrom newFrom ms →
      Ladder same oldTo newTo oldMid newMid ms' →
      Ladder same oldTo newTo oldFrom newFrom (ms ++ ms') := by
  induction ms with
  | nil =>
    intro oldFrom newFrom h h'
    exact h'.weaken same oldTo newTo oldMid newMid oldFrom newFrom ms' h.1 h.2
  | cons p rest ih =>
    intro oldFrom newFrom h h'
    obtain ⟨h1, h2, h3, hrest⟩ := h
    exact ⟨h1, h2, h3, ih (p.1 + 1) (p.2 + 1) hrest h'⟩

theorem ladder_diagonal (k : Nat) :
    ∀ (i j : Nat), (∀ d, d < k → same (i + d) (j + d)) →
      Ladder same (i + k) (j + k) i j (diagonal i j k) := by
  induction k with
  | zero => intro i j _; exact ⟨le_rfl, le_rfl⟩
  | succ k ih =>
    intro i j hsame
    refine ⟨le_rfl, le_rfl, hsame 0 (by omega), ?_⟩
    have hrest := ih (i + 1) (j + 1) (fun d hd => by
      have := hsame (d + 1) (by omega)
      rw [show i + 1 + d = i + (d + 1) by omega, show j + 1 + d = j + (d + 1) by omega]
      exact this)
    rw [show i + (k + 1) = i + 1 + k by omega, show j + (k + 1) = j + 1 + k by omega]
    exact hrest

/-- A list that climbs on both sides, inside the ranges, is a ladder. -/
theorem ladder_of_pairwise (oldTo newTo : Nat) (ms : List (Nat × Nat)) :
    ∀ (oldFrom newFrom : Nat), oldFrom ≤ oldTo → newFrom ≤ newTo →
      ms.Pairwise (fun p q => p.1 < q.1 ∧ p.2 < q.2) →
      (∀ p ∈ ms, oldFrom ≤ p.1 ∧ p.1 < oldTo ∧ newFrom ≤ p.2 ∧ p.2 < newTo ∧ same p.1 p.2) →
      Ladder same oldTo newTo oldFrom newFrom ms := by
  induction ms with
  | nil => intro oldFrom newFrom ho hn _ _; exact ⟨ho, hn⟩
  | cons p rest ih =>
    intro oldFrom newFrom ho hn hpw hin
    obtain ⟨h1, h2, h3, h4, h5⟩ := hin p (.head _)
    obtain ⟨hp, hrest⟩ := List.pairwise_cons.1 hpw
    refine ⟨h1, h3, h5, ih (p.1 + 1) (p.2 + 1) (by omega) (by omega) hrest ?_⟩
    intro q hq
    obtain ⟨_, g2, _, g4, g5⟩ := hin q (.tail p hq)
    have hlt := hp q hq
    exact ⟨by omega, g2, by omega, g4, g5⟩

end

/-! ## §2. The longest increasing run climbs -/

section

variable (pairs : List (Nat × Nat))

/-- Every pair's predecessor in its run stands before it and has a smaller second element;
    `tails` names pairs already seen. -/
structure RunsInv (runs : Runs) : Prop where
  tails_lt : ∀ i ∈ runs.tails, i < runs.previous.length
  previous_lt : ∀ i k, runs.previous[i]? = some (some k) →
    k < i ∧ secondAt pairs k < secondAt pairs i

/-- What a partition point stands behind satisfies the predicate. -/
theorem partitionPoint_pred {α : Type} (l : List α) (pred : α → Bool) (x : α)
    (hpos : partitionPoint l pred > 0) (hx : l[partitionPoint l pred - 1]? = some x) :
    x ∈ l ∧ pred x = true := by
  unfold partitionPoint at hpos hx
  obtain ⟨y, hy, hpred⟩ := takeWhile_getElem? l pred _ (Nat.sub_one_lt_of_lt hpos)
  obtain rfl := Option.some.inj (hx.symm.trans hy)
  exact ⟨List.mem_of_getElem? hx, hpred⟩

/-- One round keeps the invariant, the new pair standing behind all others. -/
theorem RunsInv.push (runs : Runs) (h : RunsInv pairs runs) (newAt : Nat)
    (hnew : secondAt pairs runs.previous.length = newAt) :
    RunsInv pairs (runs.push pairs newAt) := by
  have hlen : (runs.push pairs newAt).previous.length = runs.previous.length + 1 := by
    unfold Runs.push
    rw [List.length_append, List.length_singleton]
  constructor
  · intro i hi
    rw [hlen]
    unfold Runs.push at hi
    simp only at hi
    split_ifs at hi with hplace
    · obtain hi | hi := List.mem_append.1 hi
      · have := h.tails_lt i hi
        omega
      · rw [List.mem_singleton.1 hi]
        exact Nat.lt_succ_self _
    · obtain hi | hi := List.mem_or_eq_of_mem_set hi
      · have := h.tails_lt i hi
        omega
      · rw [hi]
        exact Nat.lt_succ_self _
  · intro i k hik
    unfold Runs.push at hik
    simp only at hik
    by_cases hi : i < runs.previous.length
    · rw [List.getElem?_append_left hi] at hik
      exact h.previous_lt i k hik
    · rw [List.getElem?_append_right (by omega)] at hik
      have hi0 : i - runs.previous.length = 0 := by
        by_contra hne
        rw [List.getElem?_eq_none (by rw [List.length_singleton]; omega)] at hik
        cases hik
      rw [hi0, List.getElem?_cons_zero] at hik
      have hik' := Option.some.inj hik
      split_ifs at hik' with hpos
      obtain ⟨hmem, hpred⟩ := partitionPoint_pred runs.tails _ k hpos hik'
      have hk := h.tails_lt k hmem
      have hsec : secondAt pairs k < newAt := of_decide_eq_true hpred
      rw [show i = runs.previous.length by omega, hnew]
      exact ⟨hk, hsec⟩

theorem length_push (runs : Runs) (newAt : Nat) :
    (runs.push pairs newAt).previous.length = runs.previous.length + 1 := by
  unfold Runs.push
  rw [List.length_append, List.length_singleton]

/-- What every round keeps, the whole loop keeps, and it reads every pair once. -/
theorem push_foldl (Inv : List (Nat × Nat) → Runs → Prop)
    (hpush : ∀ done runs p, secondAt pairs runs.previous.length = p.2 → Inv done runs →
      Inv (done ++ [p]) (runs.push pairs p.2)) (hinit : Inv [] ⟨[], []⟩) :
    Inv pairs ((pairs.map Prod.snd).foldl (Runs.push pairs) ⟨[], []⟩)
      ∧ ((pairs.map Prod.snd).foldl (Runs.push pairs) ⟨[], []⟩).previous.length = pairs.length := by
  suffices h : ∀ rest done runs, pairs = done ++ rest → runs.previous.length = done.length →
      Inv done runs → Inv pairs ((rest.map Prod.snd).foldl (Runs.push pairs) runs)
        ∧ ((rest.map Prod.snd).foldl (Runs.push pairs) runs).previous.length = pairs.length from
    h pairs [] ⟨[], []⟩ rfl rfl hinit
  intro rest
  induction rest with
  | nil =>
    intro done runs hpairs hlen h
    obtain rfl : pairs = done := hpairs.trans (List.append_nil done)
    exact ⟨h, hlen⟩
  | cons p rest ih =>
    intro done runs hpairs hlen h
    have hnew : secondAt pairs runs.previous.length = p.2 := by
      unfold secondAt
      rw [hpairs, hlen, List.getD_eq_getElem?_getD, List.getElem?_append_right le_rfl, Nat.sub_self]
      rfl
    apply ih (done ++ [p]) (runs.push pairs p.2)
    · rw [hpairs, List.append_assoc]
      rfl
    · rw [length_push, hlen, List.length_append, List.length_singleton]
    · exact hpush done runs p hnew h

theorem runsInv_nil : RunsInv pairs ⟨[], []⟩ := by
  constructor
  · intro i hi
    cases hi
  · intro i k hik
    cases hik

section

variable (previous : List (Option Nat))

theorem previous_eq (i k : Nat)
    (h : previous[i]?.getD none = some k) : previous[i]? = some (some k) := by
  cases hi : previous[i]? with
  | none =>
    rw [hi] at h
    cases h
  | some o =>
    rw [hi] at h
    rw [← h]
    rfl

/-- Following `previous` back, every pair met stands at or before the pair started from. -/
theorem mem_unwind (fuel : Nat) (hprev : ∀ i k : Nat, previous[i]? = some (some k) → k < i) :
    ∀ (i : Nat) (p : Nat × Nat), p ∈ unwind pairs previous fuel (some i) →
      ∃ k, k ≤ i ∧ p = pairs.getD k (0, 0) := by
  induction fuel with
  | zero => intro i p hp; cases hp
  | succ fuel ih =>
    intro i p hp
    unfold unwind at hp
    obtain hp | hp := List.mem_cons.1 hp
    · exact ⟨i, le_rfl, hp⟩
    · cases hk : previous[i]?.getD none with
      | none =>
        rw [hk] at hp
        cases fuel <;> cases hp
      | some k =>
        rw [hk] at hp
        obtain ⟨k', hk', hpk⟩ := ih k p hp
        have hlt := hprev i k (previous_eq previous i k hk)
        exact ⟨k', by omega, hpk⟩

/-- **The run unwound from a pair descends on both sides.** -/
theorem unwind_pairwise (hsorted : ∀ i j, i < j → j < pairs.length →
      (pairs.getD i (0, 0)).1 < (pairs.getD j (0, 0)).1)
    (hprev : ∀ i k, previous[i]? = some (some k) → k < i ∧ secondAt pairs k < secondAt pairs i)
    (fuel : Nat) :
    ∀ (i : Nat), i < pairs.length →
      (unwind pairs previous fuel (some i)).Pairwise (fun p q => q.1 < p.1 ∧ q.2 < p.2)
        ∧ ∀ p ∈ unwind pairs previous fuel (some i), p.2 ≤ secondAt pairs i := by
  induction fuel with
  | zero => intro i _; exact ⟨.nil, nofun⟩
  | succ fuel ih =>
    intro i hi
    unfold unwind
    cases hk : previous[i]?.getD none with
    | none =>
      have hnil : unwind pairs previous fuel none = [] := by cases fuel <;> rfl
      rw [hnil]
      refine ⟨List.pairwise_singleton _ _, ?_⟩
      intro p hp
      rw [List.mem_singleton.1 hp]
      exact le_rfl
    | some k =>
      obtain ⟨hlt, hsec⟩ := hprev i k (previous_eq previous i k hk)
      obtain ⟨hpw, hle⟩ := ih k (by omega)
      refine ⟨List.pairwise_cons.2 ⟨?_, hpw⟩, ?_⟩
      · -- every later pair of the run stands before pair `i`, and below it
        intro q hq
        obtain ⟨k', hk', hqk⟩ := mem_unwind pairs previous fuel
          (fun i k h => (hprev i k h).1) k q hq
        have hfst := hsorted k' i (by omega) hi
        have hsnd := hle q hq
        refine ⟨by rw [hqk]; exact hfst, ?_⟩
        show q.2 < secondAt pairs i
        omega
      · intro p hp
        obtain hp | hp := List.mem_cons.1 hp
        · rw [hp]
          exact le_rfl
        · have := hle p hp
          omega

end

/-- **`longestIncreasing` returns pairs that climb on both sides.** -/
theorem longestIncreasing_spec (hsorted : pairs.Pairwise (fun p q => p.1 < q.1)) :
    (longestIncreasing pairs).Pairwise (fun p q => p.1 < q.1 ∧ p.2 < q.2)
      ∧ ∀ p ∈ longestIncreasing pairs, p ∈ pairs := by
  obtain ⟨hinv, hlen⟩ := push_foldl pairs (fun _ => RunsInv pairs)
    (fun _ runs p hnew h => h.push pairs runs p.2 hnew) (runsInv_nil pairs)
  have hsorted' : ∀ i j, i < j → j < pairs.length →
      (pairs.getD i (0, 0)).1 < (pairs.getD j (0, 0)).1 := by
    intro i j hij hj
    rw [List.getD_eq_getElem _ _ (by omega), List.getD_eq_getElem _ _ hj]
    exact List.pairwise_iff_getElem.1 hsorted i j (by omega) hj hij
  unfold longestIncreasing
  simp only
  cases hlast : ((pairs.map Prod.snd).foldl (Runs.push pairs) ⟨[], []⟩).tails.getLast? with
  | none =>
    have hnil : ∀ fuel, unwind pairs
        ((pairs.map Prod.snd).foldl (Runs.push pairs) ⟨[], []⟩).previous fuel none = [] := by
      intro fuel
      cases fuel <;> rfl
    rw [hnil]
    exact ⟨.nil, nofun⟩
  | some i =>
    have hi : i < pairs.length := by
      rw [← hlen]
      exact hinv.tails_lt i (List.mem_of_getLast? hlast)
    obtain ⟨hpw, _⟩ := unwind_pairwise pairs _ hsorted' hinv.previous_lt pairs.length i hi
    refine ⟨List.pairwise_reverse.2 hpw, ?_⟩
    intro p hp
    obtain ⟨k, hk, hpk⟩ := mem_unwind pairs _ pairs.length
      (fun i k h => (hinv.previous_lt i k h).1) i p (List.mem_reverse.1 hp)
    rw [hpk, List.getD_eq_getElem _ _ (by omega)]
    exact List.getElem_mem _

end

/-! ## §3. The anchors form a ladder -/

section

variable (old new : Bytes) (oldLines newLines : List Line)

/-- Two lines have the same content. -/
def SameKey (i j : Nat) : Prop :=
  key old (lineAt oldLines i) = key new (lineAt newLines j)

/-- What `seen` says of a content: the lines it names are lines of the ranges that have it. -/
def SeenInv (oldFrom oldTo newFrom newTo : Nat) (seen : HashMap Bytes Seen) : Prop :=
  ∀ k s, seen.lookup k = some s →
    (s.inOld ≠ 0 → oldFrom ≤ s.oldAt ∧ s.oldAt < oldTo ∧ key old (lineAt oldLines s.oldAt) = k)
      ∧ (s.inNew ≠ 0 → newFrom ≤ s.newAt ∧ s.newAt < newTo
        ∧ key new (lineAt newLines s.newAt) = k)

/-- A round that reads one line keeps `SeenInv`, if what it files under the line's content
    may be said of it. -/
theorem SeenInv.seeLine (oldFrom oldTo newFrom newTo : Nat) (seen : HashMap Bytes Seen)
    (h : SeenInv old new oldLines newLines oldFrom oldTo newFrom newTo seen)
    (update : Seen → Nat → Seen) (keyAt : Nat → Bytes) (pos : Nat) (hupdate : ∀ s : Seen,
      ((s.inOld ≠ 0 → oldFrom ≤ s.oldAt ∧ s.oldAt < oldTo
          ∧ key old (lineAt oldLines s.oldAt) = keyAt pos)
        ∧ (s.inNew ≠ 0 → newFrom ≤ s.newAt ∧ s.newAt < newTo
          ∧ key new (lineAt newLines s.newAt) = keyAt pos)) →
      (((update s pos).inOld ≠ 0 → oldFrom ≤ (update s pos).oldAt ∧ (update s pos).oldAt < oldTo
          ∧ key old (lineAt oldLines (update s pos).oldAt) = keyAt pos)
        ∧ ((update s pos).inNew ≠ 0 → newFrom ≤ (update s pos).newAt ∧ (update s pos).newAt < newTo
          ∧ key new (lineAt newLines (update s pos).newAt) = keyAt pos))) :
    SeenInv old new oldLines newLines oldFrom oldTo newFrom newTo
      (seeLine update keyAt seen pos) := by
  intro k s hs
  obtain ⟨rfl, rfl⟩ | ⟨-, hs⟩ := lookup_insert_some hs
  · apply hupdate
    cases hprev : seen.lookup (keyAt pos) with
    | none => exact ⟨fun hne => absurd rfl hne, fun hne => absurd rfl hne⟩
    | some s' => exact h (keyAt pos) s' hprev
  · exact h k s hs

theorem mem_rangeOf (start stop i : Nat) (h : i ∈ rangeOf start stop) : start ≤ i ∧ i < stop := by
  unfold rangeOf at h
  obtain ⟨h1, h2⟩ := List.mem_range'_1.1 h
  omega

theorem SeenInv.foldl (oldFrom oldTo newFrom newTo : Nat) (update : Seen → Nat → Seen)
    (keyAt : Nat → Bytes) (rest : List Nat) (hstep : ∀ pos ∈ rest, ∀ seen,
      SeenInv old new oldLines newLines oldFrom oldTo newFrom newTo seen →
      SeenInv old new oldLines newLines oldFrom oldTo newFrom newTo
        (Diff.seeLine update keyAt seen pos)) :
    ∀ (seen : HashMap Bytes Seen),
      SeenInv old new oldLines newLines oldFrom oldTo newFrom newTo seen →
      SeenInv old new oldLines newLines oldFrom oldTo newFrom newTo
        (rest.foldl (Diff.seeLine update keyAt) seen) := by
  induction rest with
  | nil => intro seen h; exact h
  | cons pos rest ih =>
    intro seen h
    apply ih (fun pos' hpos' => hstep pos' (.tail pos hpos'))
    exact hstep pos (.head _) seen h

/-- **The anchors of two ranges form a ladder.** -/
theorem ladder_uniqueAnchors (oldFrom oldTo newFrom newTo : Nat) (ho : oldFrom ≤ oldTo)
    (hn : newFrom ≤ newTo) :
    Ladder (SameKey old new oldLines newLines) oldTo newTo oldFrom newFrom
      (uniqueAnchors old new oldLines newLines oldFrom oldTo newFrom newTo) := by
  unfold uniqueAnchors
  simp only
  -- what the two counting loops leave in `seen`
  have hempty : SeenInv old new oldLines newLines oldFrom oldTo newFrom newTo ∅ := by
    intro k s hs
    rw [AList.lookup_empty] at hs
    cases hs
  have hold := SeenInv.foldl old new oldLines newLines oldFrom oldTo newFrom newTo
    (fun seen pos => { seen with inOld := seen.inOld + 1, oldAt := pos })
    (fun pos => key old (lineAt oldLines pos)) (rangeOf oldFrom oldTo)
    (fun pos hpos seen h => by
      have hin := mem_rangeOf oldFrom oldTo pos hpos
      apply h.seeLine
      intro s hs
      exact ⟨fun _ => ⟨hin.1, hin.2, rfl⟩, hs.2⟩) ∅ hempty
  have hseen := SeenInv.foldl old new oldLines newLines oldFrom oldTo newFrom newTo
    (fun seen pos => { seen with inNew := seen.inNew + 1, newAt := pos })
    (fun pos => key new (lineAt newLines pos)) (rangeOf newFrom newTo)
    (fun pos hpos seen h => by
      have hin := mem_rangeOf newFrom newTo pos hpos
      apply h.seeLine
      intro s hs
      exact ⟨hs.1, fun _ => ⟨hin.1, hin.2, rfl⟩⟩) _ hold
  generalize (rangeOf newFrom newTo).foldl _ _ = seen at hseen
  -- the pairs before sorting: one for each content seen once on each side
  have hpairs : ∀ e ∈ seen.entries.filter
      (fun e => !e.1.isEmpty && e.2.inOld == 1 && e.2.inNew == 1),
      (oldFrom ≤ e.2.oldAt ∧ e.2.oldAt < oldTo ∧ key old (lineAt oldLines e.2.oldAt) = e.1)
        ∧ (newFrom ≤ e.2.newAt ∧ e.2.newAt < newTo
          ∧ key new (lineAt newLines e.2.newAt) = e.1) := by
    intro e he
    obtain ⟨hmem, hcond⟩ := List.mem_filter.1 he
    simp only [Bool.and_eq_true, beq_iff_eq] at hcond
    obtain ⟨⟨_, h1⟩, h2⟩ := hcond
    have hlook : seen.lookup e.1 = some e.2 := (mem_entries_iff seen e.1 e.2).1 hmem
    have := hseen e.1 e.2 hlook
    exact ⟨this.1 (by omega), this.2 (by omega)⟩
  generalize hents : seen.entries.filter _ = ents at hpairs
  have hkeys : ents.Pairwise (fun e e' => e.1 ≠ e'.1) := by
    rw [← hents]
    exact (List.nodupKeys_iff_pairwise.1 seen.nodupKeys).filter _
  -- different contents stand on different lines, so sorting is strict
  have hdistinct : (ents.map (fun e => (e.2.oldAt, e.2.newAt))).Pairwise
      (fun p q => p.1 ≠ q.1) := by
    rw [List.pairwise_map]
    apply List.Pairwise.imp_of_mem _ hkeys
    intro e e' he he' hne heq
    apply hne
    have h1 := (hpairs e he).1.2.2
    have h2 := (hpairs e' he').1.2.2
    rw [← h1, ← h2]
    exact congrArg (fun i => key old (lineAt oldLines i)) heq
  have hperm := List.mergeSort_perm (ents.map (fun e => (e.2.oldAt, e.2.newAt))) pairLe
  have hdistinct' := (hperm.pairwise_iff (fun h => Ne.symm h)).2 hdistinct
  have hle : ((ents.map (fun e => (e.2.oldAt, e.2.newAt))).mergeSort pairLe).Pairwise
      (fun p q => pairLe p q = true) := by
    apply List.pairwise_mergeSort
    · intro p q r hpq hqr
      simp only [pairLe, Bool.or_eq_true, Bool.and_eq_true, decide_eq_true_eq, beq_iff_eq]
        at hpq hqr ⊢
      omega
    · intro p q
      simp only [pairLe, Bool.or_eq_true, Bool.and_eq_true, decide_eq_true_eq, beq_iff_eq]
      omega
  have hsorted : ((ents.map (fun e => (e.2.oldAt, e.2.newAt))).mergeSort pairLe).Pairwise
      (fun p q => p.1 < q.1) := by
    apply (hle.and hdistinct').imp
    intro p q h
    obtain ⟨h1, h2⟩ := h
    simp only [pairLe, Bool.or_eq_true, Bool.and_eq_true, decide_eq_true_eq, beq_iff_eq] at h1
    omega
  obtain ⟨hclimb, hsub⟩ := longestIncreasing_spec _ hsorted
  apply ladder_of_pairwise _ oldTo newTo _ oldFrom newFrom ho hn hclimb
  intro p hp
  obtain ⟨e, he, hep⟩ := List.mem_map.1 (hperm.mem_iff.1 (hsub p hp))
  obtain ⟨⟨g1, g2, g3⟩, g4, g5, g6⟩ := hpairs e he
  subst hep
  exact ⟨g1, g2, g4, g5, g3.trans g6.symm⟩

/-! ## §4. The matched lines form a ladder -/

theorem ladder_matchBetween (recurse : Nat → Nat → Nat → Nat → List (Nat × Nat))
    (hrec : ∀ a b c d, a ≤ b → c ≤ d →
      Ladder (SameKey old new oldLines newLines) b d a c (recurse a b c d))
    (oldTo newTo : Nat) (anchors : List (Nat × Nat)) :
    ∀ (oldAt newAt : Nat),
      Ladder (SameKey old new oldLines newLines) oldTo newTo oldAt newAt anchors →
      Ladder (SameKey old new oldLines newLines) oldTo newTo oldAt newAt
        (matchBetween recurse oldTo newTo anchors oldAt newAt) := by
  induction anchors with
  | nil =>
    intro oldAt newAt h
    exact hrec oldAt oldTo newAt newTo h.1 h.2
  | cons p rest ih =>
    intro oldAt newAt h
    obtain ⟨h1, h2, h3, hrest⟩ := h
    unfold matchBetween
    apply Ladder.append _ p.1 p.2 oldTo newTo _ _ oldAt newAt (hrec oldAt p.1 newAt p.2 h1 h2)
    exact ⟨le_rfl, le_rfl, h3, ih (p.1 + 1) (p.2 + 1) hrest⟩

theorem sameKey_of_sameLine (i j : Nat)
    (h : sameLine old new (lineAt oldLines i) (lineAt newLines j) = true) :
    SameKey old new oldLines newLines i j := by
  unfold sameLine at h
  rw [Bool.and_eq_true] at h
  exact eq_of_beq h.1

/-- One call keeps the ladder, whatever its recursive calls return, so long as they do. -/
theorem ladder_matchStep (recurse : Nat → Nat → Nat → Nat → List (Nat × Nat))
    (hrec : ∀ a b c d, a ≤ b → c ≤ d →
      Ladder (SameKey old new oldLines newLines) b d a c (recurse a b c d))
    (oldFrom oldTo newFrom newTo : Nat) (ho : oldFrom ≤ oldTo) (hn : newFrom ≤ newTo) :
    Ladder (SameKey old new oldLines newLines) oldTo newTo oldFrom newFrom
      (matchStep old new oldLines newLines recurse oldFrom oldTo newFrom newTo) := by
  unfold matchStep
  simp only
  generalize hsame : (fun i j => sameLine old new (lineAt oldLines i) (lineAt newLines j)) = same
  have hkey : ∀ i j, same i j = true → SameKey old new oldLines newLines i j := by
    intro i j h
    rw [← hsame] at h
    exact sameKey_of_sameLine old new oldLines newLines i j h
  have hhead := sharedStart_le same (min (oldTo - oldFrom) (newTo - newFrom)) oldFrom newFrom
  have hheads := sharedStart_same same (min (oldTo - oldFrom) (newTo - newFrom)) oldFrom newFrom
  generalize sharedStart same (min (oldTo - oldFrom) (newTo - newFrom)) oldFrom newFrom = head
    at hhead hheads
  have htail := sharedEnd_le same (min (oldTo - (oldFrom + head)) (newTo - (newFrom + head)))
    oldTo newTo
  have htails := sharedEnd_same same (min (oldTo - (oldFrom + head)) (newTo - (newFrom + head)))
    oldTo newTo
  generalize sharedEnd same (min (oldTo - (oldFrom + head)) (newTo - (newFrom + head))) oldTo newTo
    = tail at htail htails
  -- the shared lines at the end, as the loop pushed them and then turned round
  have hdiag : Ladder (SameKey old new oldLines newLines) oldTo newTo (oldTo - tail)
      (newTo - tail) (diagonal (oldTo - tail) (newTo - tail) tail) := by
    have hl := ladder_diagonal (SameKey old new oldLines newLines) tail (oldTo - tail)
      (newTo - tail) (fun d hd => by
        have := htails (tail - (d + 1)) (by omega) (by omega) (by omega)
        rw [show oldTo - (tail - (d + 1) + 1) = oldTo - tail + d by omega,
          show newTo - (tail - (d + 1) + 1) = newTo - tail + d by omega] at this
        exact hkey _ _ this)
    rw [show oldTo - tail + tail = oldTo by omega, show newTo - tail + tail = newTo by omega] at hl
    exact hl
  apply Ladder.append _ (oldTo - tail) (newTo - tail) oldTo newTo _ _ oldFrom newFrom _ hdiag
  apply Ladder.append _ (oldFrom + head) (newFrom + head) (oldTo - tail) (newTo - tail) _ _
    oldFrom newFrom
  · exact ladder_diagonal _ head oldFrom newFrom (fun d hd => hkey _ _ (hheads d hd))
  · split_ifs with hlt hempty
    · exact ⟨by omega, by omega⟩
    · apply ladder_matchBetween old new oldLines newLines recurse hrec
      exact ladder_uniqueAnchors old new oldLines newLines _ _ _ _ (by omega) (by omega)
    · exact ⟨by omega, by omega⟩

theorem ladder_matchUpTo (bound : Nat) :
    ∀ (oldFrom oldTo newFrom newTo : Nat), oldFrom ≤ oldTo → newFrom ≤ newTo →
      Ladder (SameKey old new oldLines newLines) oldTo newTo oldFrom newFrom
        (matchUpTo old new oldLines newLines bound oldFrom oldTo newFrom newTo) := by
  induction bound with
  | zero => intro oldFrom oldTo newFrom newTo ho hn; exact ⟨ho, hn⟩
  | succ bound ih =>
    intro oldFrom oldTo newFrom newTo ho hn
    exact ladder_matchStep old new oldLines newLines _ ih oldFrom oldTo newFrom newTo ho hn

/-- **The matched lines form a ladder.** -/
theorem ladder_matchLines (oldFrom oldTo newFrom newTo : Nat) (ho : oldFrom ≤ oldTo)
    (hn : newFrom ≤ newTo) :
    Ladder (SameKey old new oldLines newLines) oldTo newTo oldFrom newFrom
      (matchLines old new oldLines newLines oldFrom oldTo newFrom newTo) :=
  ladder_matchUpTo old new oldLines newLines (oldTo - oldFrom) oldFrom oldTo newFrom newTo ho hn

/-! ## §5. `matchLines` solves the recursion of the source -/

/-- The stretches between anchors are shorter than the stretch that holds the anchors. -/
theorem matchBetween_congr (recurse recurse' : Nat → Nat → Nat → Nat → List (Nat × Nat))
    (size : Nat) (hrec : ∀ a b c d, b - a < size → recurse a b c d = recurse' a b c d)
    (same : Nat → Nat → Prop) (oldTo newTo : Nat) (anchors : List (Nat × Nat)) :
    ∀ (oldAt newAt : Nat), Ladder same oldTo newTo oldAt newAt anchors → oldTo - oldAt ≤ size →
      (anchors ≠ [] ∨ oldTo - oldAt < size) →
      matchBetween recurse oldTo newTo anchors oldAt newAt
        = matchBetween recurse' oldTo newTo anchors oldAt newAt := by
  induction anchors with
  | nil =>
    intro oldAt newAt _ _ hne
    obtain hne | hlt := hne
    · exact absurd rfl hne
    · exact hrec oldAt oldTo newAt newTo hlt
  | cons p rest ih =>
    intro oldAt newAt h hsize _
    obtain ⟨h1, h2, _, hrest⟩ := h
    have hle := Ladder.le same oldTo newTo rest (p.1 + 1) (p.2 + 1) hrest
    unfold matchBetween
    rw [hrec oldAt p.1 newAt p.2 (by omega),
      ih (p.1 + 1) (p.2 + 1) hrest (by omega) (.inr (by omega))]

theorem matchStep_congr (recurse recurse' : Nat → Nat → Nat → Nat → List (Nat × Nat))
    (oldFrom oldTo newFrom newTo : Nat)
    (hrec : ∀ a b c d, b - a < oldTo - oldFrom → recurse a b c d = recurse' a b c d) :
    matchStep old new oldLines newLines recurse oldFrom oldTo newFrom newTo
      = matchStep old new oldLines newLines recurse' oldFrom oldTo newFrom newTo := by
  unfold matchStep
  simp only
  congr 2
  split_ifs with hlt hempty
  · rfl
  · apply matchBetween_congr recurse recurse' (oldTo - oldFrom) hrec
      (SameKey old new oldLines newLines)
    · exact ladder_uniqueAnchors old new oldLines newLines _ _ _ _ hlt.1.le hlt.2.le
    · omega
    · left
      intro hnil
      rw [hnil] at hempty
      exact hempty rfl
  · rfl

/-- A range without old lines matches nothing. -/
theorem matchStep_empty (recurse : Nat → Nat → Nat → Nat → List (Nat × Nat))
    (oldFrom oldTo newFrom newTo : Nat) (h : oldTo - oldFrom = 0) :
    matchStep old new oldLines newLines recurse oldFrom oldTo newFrom newTo = [] := by
  have hle : ¬ (oldFrom < oldTo ∧ newFrom < newTo) := by omega
  simp [matchStep, h, sharedStart, sharedEnd, diagonal, hle]

/-- Any bound on the old range gives the same pairs. -/
theorem matchUpTo_bound (bound : Nat) :
    ∀ (bound' oldFrom oldTo newFrom newTo : Nat), oldTo - oldFrom ≤ bound →
      oldTo - oldFrom ≤ bound' →
      matchUpTo old new oldLines newLines bound oldFrom oldTo newFrom newTo
        = matchUpTo old new oldLines newLines bound' oldFrom oldTo newFrom newTo := by
  induction bound with
  | zero =>
    intro bound' oldFrom oldTo newFrom newTo h _
    cases bound' with
    | zero => rfl
    | succ bound' =>
      show [] = matchStep old new oldLines newLines _ oldFrom oldTo newFrom newTo
      rw [matchStep_empty old new oldLines newLines _ oldFrom oldTo newFrom newTo (by omega)]
  | succ bound ih =>
    intro bound' oldFrom oldTo newFrom newTo h h'
    cases bound' with
    | zero =>
      show matchStep old new oldLines newLines _ oldFrom oldTo newFrom newTo = []
      exact matchStep_empty old new oldLines newLines _ oldFrom oldTo newFrom newTo (by omega)
    | succ bound' =>
      show matchStep old new oldLines newLines _ oldFrom oldTo newFrom newTo
        = matchStep old new oldLines newLines _ oldFrom oldTo newFrom newTo
      apply matchStep_congr
      intro a b c d hlt
      exact ih bound' a b c d (by omega) (by omega)

/-- **`matchLines` solves the recursion of the source**, with itself at every recursive
    call. -/
theorem matchLines_eq (oldFrom oldTo newFrom newTo : Nat) :
    matchLines old new oldLines newLines oldFrom oldTo newFrom newTo
      = matchStep old new oldLines newLines (matchLines old new oldLines newLines)
          oldFrom oldTo newFrom newTo := by
  have hsucc : matchLines old new oldLines newLines oldFrom oldTo newFrom newTo
      = matchUpTo old new oldLines newLines (oldTo - oldFrom + 1) oldFrom oldTo newFrom newTo :=
    matchUpTo_bound old new oldLines newLines _ _ oldFrom oldTo newFrom newTo le_rfl
      (Nat.le_succ _)
  rw [hsucc]
  apply matchStep_congr
  intro a b c d hlt
  exact matchUpTo_bound old new oldLines newLines _ _ a b c d hlt.le le_rfl

end

end GluaLs.Edit.Diff
