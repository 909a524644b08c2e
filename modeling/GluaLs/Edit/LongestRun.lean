/-
  GluaLs.Edit.LongestRun — `longestIncreasing` returns a longest run.

  `tails[n]` ends a run of `n + 1` pairs, and of all such runs seen it ends the one with the
  least last element (`Longest`).  So no climbing run of the pairs is longer than `tails`, and
  the run unwound from the last tail is as long.
-/
import GluaLs.Edit.MatchLines
import GluaLs.Lib.KeyOrder

namespace GluaLs.Edit.Diff

open GluaLs.Lib

/-! ## §1. The run a pair ends -/

/-- Following `previous` back from pair `i` meets `n` more pairs. -/
inductive Ends (previous : List (Option Nat)) : Nat → Nat → Prop where
  | first {i : Nat} (h : previous[i]? = some none) : Ends previous i 0
  | next {i k n : Nat} (h : previous[i]? = some (some k)) (hk : Ends previous k n) :
      Ends previous i (n + 1)

section

variable {pairs : List (Nat × Nat)} {previous : List (Option Nat)} {i n : Nat}

theorem Ends.append (h : Ends previous i n) (more : List (Option Nat)) :
    Ends (previous ++ more) i n := by
  induction h with
  | first h => exact .first ((List.getElem?_append_left (List.getElem?_eq_some_iff.1 h).1).trans h)
  | next h _ ih =>
    exact .next ((List.getElem?_append_left (List.getElem?_eq_some_iff.1 h).1).trans h) ih

theorem Ends.length_unwind (h : Ends previous i n)
    (hprev : ∀ i k : Nat, previous[i]? = some (some k) → k < i) :
    ∀ fuel, i < fuel → (unwind pairs previous fuel (some i)).length = n + 1 := by
  induction h with
  | first h =>
    intro fuel hfuel
    obtain ⟨fuel, rfl⟩ := Nat.exists_eq_add_one_of_ne_zero (Nat.ne_zero_of_lt hfuel)
    unfold unwind
    rw [h]
    cases fuel <;> rfl
  | next h _ ih =>
    intro fuel hfuel
    obtain ⟨fuel, rfl⟩ := Nat.exists_eq_add_one_of_ne_zero (Nat.ne_zero_of_lt hfuel)
    have hk := hprev _ _ h
    unfold unwind
    rw [h]
    exact congrArg (· + 1) (ih fuel (by omega))

end

/-! ## §2. The tails -/

section

variable (pairs : List (Nat × Nat))

/-- What the loop keeps of the pairs `done`. -/
structure Longest (done : List (Nat × Nat)) (runs : Runs) : Prop where
  climb : ∀ m n i j : Nat, m < n → runs.tails[m]? = some i → runs.tails[n]? = some j →
    secondAt pairs i < secondAt pairs j
  ends : ∀ n i, runs.tails[n]? = some i → Ends runs.previous i n
  best : ∀ run p, (run ++ [p]).Sublist done → (run ++ [p]).Pairwise (fun p q => p.2 < q.2) →
    ∃ i, runs.tails[run.length]? = some i ∧ secondAt pairs i ≤ p.2

variable {pairs} {done : List (Nat × Nat)} {runs : Runs} {p : Nat × Nat}

/-- Where the round puts its pair. -/
def placeOf (pairs : List (Nat × Nat)) (runs : Runs) (newAt : Nat) : Nat :=
  partitionPoint runs.tails (fun tail => secondAt pairs tail < newAt)

theorem placeOf_le (newAt : Nat) : placeOf pairs runs newAt ≤ runs.tails.length :=
  (List.takeWhile_sublist _).length_le

theorem tails_push (newAt n : Nat) :
    (runs.push pairs newAt).tails[n]? =
      if n = placeOf pairs runs newAt then some runs.previous.length else runs.tails[n]? := by
  have hle : placeOf pairs runs newAt ≤ _ := placeOf_le newAt
  unfold Runs.push
  show (if placeOf pairs runs newAt = runs.tails.length then runs.tails ++ [runs.previous.length]
    else runs.tails.set (placeOf pairs runs newAt) runs.previous.length)[n]? = _
  grind

/-- The tails before that place are the smaller ones. -/
theorem Longest.lt_place (h : Longest pairs done runs) {n i : Nat} (newAt : Nat)
    (hat : runs.tails[n]? = some i) : n < placeOf pairs runs newAt ↔ secondAt pairs i < newAt := by
  have hclimb : runs.tails.Pairwise fun a b => secondAt pairs a < secondAt pairs b :=
    List.pairwise_iff_getElem.2 fun m n hm hn hmn => h.climb m n _ _ hmn
      (List.getElem?_eq_getElem hm) (List.getElem?_eq_getElem hn)
  rw [placeOf, partitionPoint, ← KeyOrder.partitionPoint,
    KeyOrder.lt_partitionPoint_iff hclimb (fun a b hab hb => ?_) hat, decide_eq_true_iff]
  exact decide_eq_true (hab.trans (of_decide_eq_true hb))

theorem Longest.exists_tail (h : Longest pairs done runs) {newAt n : Nat}
    (hn : n < placeOf pairs runs newAt) :
    ∃ i, runs.tails[n]? = some i ∧ secondAt pairs i < newAt := by
  have hat := List.getElem?_eq_getElem (hn.trans_le (placeOf_le newAt))
  exact ⟨_, hat, (h.lt_place newAt hat).1 hn⟩

/-- One round keeps what the loop keeps. -/
theorem Longest.push (h : Longest pairs done runs)
    (hnew : secondAt pairs runs.previous.length = p.2) :
    Longest pairs (done ++ [p]) (runs.push pairs p.2) := by
  refine ⟨fun m n i j hmn hi hj => ?_, fun n i hat => ?_, fun run q hsub hclimb => ?_⟩
  · rw [tails_push] at hi hj
    split_ifs at hi hj with hm hn hn
    · omega
    · -- the tail replaced stands before tail `n`
      have hlt := hmn.trans (List.getElem?_eq_some_iff.1 hj).1
      have hmid := h.climb m n _ j hmn (List.getElem?_eq_getElem hlt) hj
      have hge := mt (h.lt_place p.2 (List.getElem?_eq_getElem hlt)).2 (by omega)
      rw [← Option.some.inj hi, hnew]
      omega
    · rw [← Option.some.inj hj, hnew]
      exact (h.lt_place _ hi).1 (hn ▸ hmn)
    · exact h.climb m n i j hmn hi hj
  · rw [tails_push] at hat
    split_ifs at hat with hn
    · rw [← Option.some.inj hat, hn]
      unfold Runs.push
      show Ends (runs.previous ++ [if placeOf pairs runs p.2 > 0 then
        runs.tails[placeOf pairs runs p.2 - 1]? else none]) _ _
      cases hplace : placeOf pairs runs p.2 with
      | zero => exact .first List.getElem?_concat_length
      | succ n =>
        obtain ⟨k, hk, -⟩ := h.exists_tail (n.lt_succ_self.trans_eq hplace.symm)
        refine .next (k := k) ?_ ((h.ends n k hk).append _)
        rw [List.getElem?_concat_length, if_pos n.succ_pos]
        exact congrArg some hk
    · exact (h.ends n i hat).append _
  · rw [tails_push]
    obtain ⟨before, last, heq, hbefore, hlast⟩ := List.sublist_append_iff.1 hsub
    obtain rfl | rfl := List.sublist_singleton.1 hlast
    · rw [List.append_nil] at heq
      obtain ⟨i, hi, hle⟩ := h.best run q (heq ▸ hbefore) hclimb
      split_ifs with hplace
      · have hge := mt (h.lt_place p.2 hi).2 (by omega)
        exact ⟨_, rfl, by omega⟩
      · exact ⟨i, hi, hle⟩
    · obtain ⟨rfl, hq⟩ := List.append_inj' heq rfl
      obtain rfl : q = p := List.singleton_inj.1 hq
      split_ifs with hplace
      · exact ⟨_, rfl, hnew.le⟩
      · have hlt : run.length < placeOf pairs runs q.2 := by
          obtain rfl | ⟨run, r, rfl⟩ := List.eq_nil_or_concat' run
          · exact Nat.pos_of_ne_zero (Ne.symm hplace)
          · obtain ⟨i, hi, hle⟩ := h.best run r hbefore (List.pairwise_append.1 hclimb).1
            have hr := (List.pairwise_append.1 hclimb).2.2 r (by simp) q (by simp)
            have := (h.lt_place q.2 hi).2 (hle.trans_lt hr)
            rw [List.length_append, List.length_singleton] at *
            omega
        obtain ⟨i, hi, hle⟩ := h.exists_tail hlt
        exact ⟨i, hi, hle.le⟩

end

/-! ## §3. The run returned -/

/-- **`longestIncreasing` returns a climbing run of the pairs, and none is longer.** -/
theorem longestIncreasing_longest (pairs : List (Nat × Nat))
    (hsorted : pairs.Pairwise (fun p q => p.1 < q.1)) :
    (longestIncreasing pairs).Sublist pairs
      ∧ (longestIncreasing pairs).Pairwise (fun p q => p.1 < q.1 ∧ p.2 < q.2)
      ∧ ∀ run : List (Nat × Nat), run.Sublist pairs →
          run.Pairwise (fun p q => p.1 < q.1 ∧ p.2 < q.2) →
          run.length ≤ (longestIncreasing pairs).length := by
  obtain ⟨hclimb, hmem⟩ := longestIncreasing_spec pairs hsorted
  have : Std.Antisymm fun p q : Nat × Nat => p.1 < q.1 :=
    ⟨fun p q hpq hqp => absurd hqp hpq.asymm⟩
  have hfirst := hclimb.imp And.left
  refine ⟨List.sublist_of_subperm_of_pairwise (List.subperm_of_subset ?_ hmem) hfirst hsorted,
    hclimb, fun run hsub hrun => ?_⟩
  · exact hfirst.imp fun {p q} (hlt : p.1 < q.1) => ne_of_apply_ne Prod.fst hlt.ne
  · obtain ⟨⟨hruns, hbest⟩, hlen⟩ := push_foldl pairs
      (fun done runs => RunsInv pairs runs ∧ Longest pairs done runs)
      (fun done runs p hnew h => ⟨h.1.push pairs runs p.2 hnew, h.2.push hnew⟩)
      ⟨runsInv_nil pairs, by simp, by simp, by simp⟩
    unfold longestIncreasing
    generalize (pairs.map Prod.snd).foldl (Runs.push pairs) ⟨[], []⟩ = runs at *
    have hfits : run.length ≤ runs.tails.length := by
      obtain rfl | ⟨run, q, rfl⟩ := List.eq_nil_or_concat' run
      · exact Nat.zero_le _
      · obtain ⟨i, hi, -⟩ := hbest.best run q hsub (hrun.imp And.right)
        rw [List.length_append]
        exact (List.getElem?_eq_some_iff.1 hi).1
    refine hfits.trans (le_of_eq ?_)
    rw [List.length_reverse, List.getLast?_eq_getElem?]
    cases hlast : runs.tails[runs.tails.length - 1]? with
    | none =>
      have := List.getElem?_eq_none_iff.1 hlast
      cases pairs.length <;> exact Nat.eq_zero_of_le_zero (by omega)
    | some i =>
      have hpos := (List.getElem?_eq_some_iff.1 hlast).1
      rw [(hbest.ends _ i hlast).length_unwind (fun i k h => (hruns.previous_lt i k h).1) _
        (hlen ▸ hruns.tails_lt i (List.mem_of_getElem? hlast))]
      omega

theorem longestIncreasing_longest_three :
    [(1, 0), (2, 2)].length ≤ (longestIncreasing [(0, 1), (1, 0), (2, 2)]).length :=
  (longestIncreasing_longest [(0, 1), (1, 0), (2, 2)] (by decide)).2.2 [(1, 0), (2, 2)]
    (by decide) (by decide)

end GluaLs.Edit.Diff
