/-
  GluaLs.Engine.SortedReaders — edits of a key's sorted readers
  (`db_index/derivation/graph.rs`).

  Both loops move runs inside one buffer.  `none` is a range out of the buffer's bounds.
-/
import Mathlib.Data.List.TakeWhile
import GluaLs.Lib.KeyOrder

namespace GluaLs.Engine

open GluaLs.Lib.KeyOrder (partitionPoint not_of_mem_dropWhile)

/-! ## §1. The buffer -/

/-- `copy_within(from..to, dest)`: the source range is read before it is written over. -/
def copyWithin (derivs : List Nat) (start stop dest : Nat) : Option (List Nat) :=
  if start ≤ stop ∧ stop ≤ derivs.length ∧ dest + (stop - start) ≤ derivs.length then
    some (derivs.take dest ++ (derivs.take stop).drop start ++
      derivs.drop (dest + (stop - start)))
  else none

/-- `binary_search`, where the value stands. -/
def binarySearch (derivs : List Nat) (deriv : Nat) : Option Nat :=
  let found := partitionPoint (· < deriv) derivs
  if derivs[found]? = some deriv then some found else none

/-- The loop of `removeSorted` over `gone`, and the move and truncation behind it. -/
def removeLoop (derivs : List Nat) (read write : Nat) : List Nat → Option (List Nat)
  | [] => do
    let moved ← copyWithin derivs read derivs.length write
    some (moved.take (write + derivs.length - read))
  | deriv :: gone =>
    if read ≤ derivs.length then
      match binarySearch (derivs.drop read) deriv with
      | none => removeLoop derivs read write gone
      | some found => do
        let moved ← copyWithin derivs read (read + found) write
        removeLoop moved (read + found + 1) (write + found) gone
    else none

/-- Removes the sorted `gone` from the sorted `derivs`, moving each kept run once. -/
def removeSorted (derivs gone : List Nat) : Option (List Nat) := removeLoop derivs 0 0 gone

/-- The loop of `insertSorted` over `new`, last first. -/
def insertLoop (derivs : List Nat) (readEnd writeEnd : Nat) : List Nat → Option (List Nat)
  | [] => some derivs
  | deriv :: new =>
    if readEnd ≤ derivs.length then do
      let at' := partitionPoint (· < deriv) (derivs.take readEnd)
      let run := readEnd - at'
      let moved ← if run ≤ writeEnd then copyWithin derivs at' readEnd (writeEnd - run) else none
      if run + 1 ≤ writeEnd ∧ writeEnd - (run + 1) < moved.length then
        insertLoop (moved.set (writeEnd - (run + 1)) deriv) at' (writeEnd - (run + 1)) new
      else none
    else none

/-- Inserts the sorted `new`, none of them in it, into the sorted `derivs`, moving each
    existing run once. -/
def insertSorted (derivs new : List Nat) : Option (List Nat) :=
  insertLoop (derivs ++ List.replicate new.length 0) derivs.length
    (derivs.length + new.length) new.reverse

/-! ## §2. One run moved -/

/-- A run moved down over `spare`. -/
theorem copyWithin_down (kept spare run rest : List Nat) :
    copyWithin (kept ++ (spare ++ (run ++ rest))) (kept.length + spare.length)
        (kept.length + spare.length + run.length) kept.length =
      some (kept ++ (run ++ ((spare ++ run).drop run.length ++ rest))) := by
  unfold copyWithin
  rw [if_pos (by grind), List.drop_take, Nat.add_sub_cancel_left, List.take_left]
  simp [List.drop_append, List.drop_eq_nil_of_le]

/-- A run moved up over `room`. -/
theorem copyWithin_up (before run room done : List Nat) :
    copyWithin (before ++ (run ++ (room ++ done))) before.length (before.length + run.length)
        (before.length + room.length) =
      some (before ++ ((run ++ room).take room.length ++ (run ++ done))) := by
  unfold copyWithin
  rw [if_pos (by grind), List.drop_take, Nat.add_sub_cancel_left, List.drop_left, List.take_left]
  rw [Nat.add_assoc, List.take_length_add_append, List.drop_length_add_append, List.append_assoc]
  simp (disch := omega) [List.take_append, List.drop_append, List.drop_eq_nil_of_le]

theorem exists_parts {l : List Nat} (h : l.Pairwise (· < ·)) (x : Nat) :
    ∃ before after, l = before ++ after ∧ partitionPoint (· < x) l = before.length ∧
      (∀ y ∈ before, y < x) ∧ ∀ y ∈ after, x ≤ y := by
  refine ⟨_, _, List.takeWhile_append_dropWhile.symm, rfl, fun y hy => ?_, fun y hy => ?_⟩
  · simpa using List.mem_takeWhile_imp hy
  · have hdown : ∀ a b : Nat, a < b → decide (b < x) = true → decide (a < x) = true := by grind
    simpa using not_of_mem_dropWhile h hdown y hy

/-! ## §3. Removing -/

/-- What is read and has not been moved, less what is gone, is what is left. -/
theorem removeLoop_eq {gone : List Nat} (hgone : gone.Pairwise (· < ·)) :
    ∀ kept spare rest : List Nat, rest.Pairwise (· < ·) →
      removeLoop (kept ++ (spare ++ rest)) (kept.length + spare.length) kept.length gone =
        some (kept ++ rest.filter (· ∉ gone)) := by
  induction gone with
  | nil =>
    intro kept spare rest _
    have hmove := copyWithin_down kept spare rest []
    unfold removeLoop
    simp only [List.append_nil, List.length_append, ← Nat.add_assoc] at hmove ⊢
    simp only [hmove, Option.bind_eq_bind, Option.bind_some, List.not_mem_nil,
      not_false_eq_true, decide_true, List.filter_true]
    rw [← List.append_assoc, List.take_left' (by simp; omega)]
  | cons deriv gone ih =>
    intro kept spare rest hsorted
    obtain ⟨hfirst, hrest⟩ := List.pairwise_cons.1 hgone
    unfold removeLoop
    rw [if_pos (by simp), ← List.append_assoc, List.drop_left' List.length_append,
      List.append_assoc]
    obtain ⟨before, after, rfl, hpoint, hlow, hhigh⟩ := exists_parts hsorted deriv
    unfold binarySearch
    simp only [hpoint, List.getElem?_append_right le_rfl, Nat.sub_self, ← List.head?_eq_getElem?]
    obtain ⟨hbefore, hafter, hcross⟩ := List.pairwise_append.1 hsorted
    by_cases hat : after.head? = some deriv
    · obtain ⟨after, rfl⟩ := List.head?_eq_some_iff.1 hat
      obtain ⟨hlater, hafter⟩ := List.pairwise_cons.1 hafter
      have hmoved := ih hrest (kept ++ before) ((spare ++ before).drop before.length ++ [deriv])
        after hafter
      have hleft : (before ++ deriv :: after).filter (· ∉ deriv :: gone) =
          before ++ after.filter (· ∉ gone) := by
        rw [List.filter_append, List.filter_cons_of_neg (by simp), List.filter_eq_self.2 (by grind),
          List.filter_congr (q := (· ∉ gone)) (by grind)]
      rw [if_pos hat, hleft]
      simp only [copyWithin_down, Option.bind_eq_bind, Option.bind_some]
      rw [← List.append_assoc kept before (List.filter ..), ← hmoved]
      congr 1 <;> grind
    · have hnew : deriv ∉ before ++ after := by
        cases after with
        | nil => grind
        | cons first after =>
          have hlater := (List.pairwise_cons.1 hafter).1
          have hge := hhigh first (.head _)
          grind
      rw [if_neg hat]
      rw [ih hrest kept spare _ hsorted, List.filter_congr (q := (· ∉ deriv :: gone)) (by grind)]

/-! ## §4. Inserting -/

/-- The room behind what is kept is as long as what is still to be inserted. -/
theorem insertLoop_spec {new : List Nat} (hnew : new.Pairwise (· > ·)) :
    ∀ kept room done : List Nat, room.length = new.length → kept.Pairwise (· < ·) →
      (∀ x ∈ new, x ∉ kept) →
      ∃ out, insertLoop (kept ++ (room ++ done)) kept.length (kept.length + new.length) new =
          some (out ++ done) ∧
        out.Perm (kept ++ new) ∧ out.Pairwise (· < ·) := by
  induction new with
  | nil =>
    intro kept room done hroom hsorted _
    obtain rfl := List.eq_nil_of_length_eq_zero hroom
    exact ⟨kept, rfl, by rw [List.append_nil], hsorted⟩
  | cons deriv new ih =>
    intro kept room done hroom hsorted hdisjoint
    obtain ⟨hfirst, hrest⟩ := List.pairwise_cons.1 hnew
    obtain ⟨before, after, rfl, hpoint, hlow, hhigh⟩ := exists_parts hsorted deriv
    obtain ⟨hbefore, hafter, hcross⟩ := List.pairwise_append.1 hsorted
    have hgap : ((after ++ room).take new.length).length = new.length :=
      List.length_take_of_le (by grind)
    obtain ⟨out, hout, hperm, hclimb⟩ := ih hrest before ((after ++ room).take new.length)
      (deriv :: (after ++ done)) hgap hbefore (by grind)
    refine ⟨out ++ deriv :: after, ?_, ?_, ?_⟩
    · have hmove := copyWithin_up before after room done
      have hwrite : before.length + after.length + (new.length + 1) - after.length =
          before.length + room.length := by grind
      have hplace : before.length + after.length + (new.length + 1) - (after.length + 1) =
          before.length + new.length := by omega
      have hset : ((after ++ room).take room.length).set new.length deriv =
          (after ++ room).take new.length ++ [deriv] := by
        rw [List.set_eq_take_append_cons_drop, if_pos (by grind), List.take_take,
          List.drop_eq_nil_of_le (by grind), Nat.min_eq_left (by grind)]
      unfold insertLoop
      simp only [List.take_left, hpoint]
      simp only [List.append_assoc, List.length_append, List.length_cons,
        Nat.add_sub_cancel_left, hwrite, hplace, hmove]
      rw [if_pos (by omega), if_pos (by omega)]
      simp only [Option.bind_eq_bind, Option.bind_some]
      rw [if_pos ⟨by omega, by grind⟩, List.set_append_right _ _ (by omega),
        List.set_append_left _ _ (by grind), Nat.add_sub_cancel_left, hset, List.append_assoc]
      exact hout
    · refine (hperm.append_right _).trans (List.perm_iff_count.2 fun x => ?_)
      simp only [List.count_append, List.count_cons]
      omega
    · have hne := hdisjoint deriv (.head _)
      have habove : ∀ y ∈ after, deriv < y := by grind
      exact List.pairwise_append.2 ⟨hclimb, List.pairwise_cons.2 ⟨habove, hafter⟩, by grind⟩

/-- **Both loops do what their names say, and stay inside the buffer.** -/
theorem sortedReaders (derivs : List Nat) (hderivs : derivs.Pairwise (· < ·)) :
    (∀ gone : List Nat, gone.Pairwise (· < ·) →
      removeSorted derivs gone = some (derivs.filter (· ∉ gone))) ∧
    ∀ new : List Nat, new.Pairwise (· < ·) → (∀ x ∈ new, x ∉ derivs) →
      ∃ out, insertSorted derivs new = some out ∧ out.Perm (derivs ++ new) ∧
        out.Pairwise (· < ·) := by
  refine ⟨fun gone hgone => removeLoop_eq hgone [] [] derivs hderivs, fun new hnew hdisjoint => ?_⟩
  obtain ⟨out, hout, hperm, hsorted⟩ := insertLoop_spec (List.pairwise_reverse.2 hnew) derivs
    (List.replicate new.length 0) [] (by simp) hderivs (by simpa using hdisjoint)
  refine ⟨out, ?_, hperm.trans ((List.reverse_perm new).append_left derivs), hsorted⟩
  simpa [insertSorted] using hout

theorem sortedReaders_five :
    removeSorted [1, 4, 6, 7, 9] [4, 5, 9] = some [1, 6, 7] ∧
      ∃ out, insertSorted [1, 4, 6, 7, 9] [2, 8] = some out ∧
        out.Perm [1, 4, 6, 7, 9, 2, 8] ∧ out.Pairwise (· < ·) := by
  obtain ⟨hremove, hinsert⟩ := sortedReaders [1, 4, 6, 7, 9] (by decide)
  exact ⟨hremove [4, 5, 9] (by decide), hinsert [2, 8] (by decide) (by decide)⟩

end GluaLs.Engine
