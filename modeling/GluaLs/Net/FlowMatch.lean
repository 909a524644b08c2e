/-
  GluaLs.Net.FlowMatch — pairing the senders and the receivers of a net message.

  A sender flow is a list of writes, a receiver flow a list of reads.  An operation under a
  conditional or in a loop is DYNAMIC: it stands for any number of its kind.  Two flows can
  match when their operations can be taken so that every write pairs with the read at its
  place.

  `flowsCanMatch` tries the two lists as they stand, gives up when nothing is dynamic, and
  otherwise searches the pairs of positions, each answered once in a memo.  The memo is part
  of the state here; `Answered` says that it holds right answers, every search keeps that
  (`flowMatchDp_right`), and so the whole search decides the question (`flowsCanMatch_iff`).
-/
import Mathlib.Data.Vector.Basic
import GluaLs.Lib.Repetition

namespace GluaLs.Net

open GluaLs.Lib.Repetition

/-! ## §1. Operations and flows -/

inductive NetOpDirection where
  | write
  | read
  deriving DecidableEq, Repr

def NetOpDirection.opposite : NetOpDirection → NetOpDirection
  | .write => .read
  | .read => .write

structure NetOpDescriptor where
  wireFormat : String
  direction : NetOpDirection
  deriving DecidableEq, Repr

/-- True when `self` is a write whose payload `read` consumes. -/
def NetOpDescriptor.pairsWith (self read : NetOpDescriptor) : Bool :=
  self.wireFormat == read.wireFormat && self.direction == read.direction.opposite

structure NetOpEntry where
  op : NetOpDescriptor
  dynamic : Bool
  deriving DecidableEq, Repr

structure NetSendFlow where
  writes : List NetOpEntry

structure NetReceiveFlow where
  reads : List NetOpEntry

/-- A write and a read at one place of the two flows pair. -/
def Pairs (write read : NetOpEntry) : Prop :=
  write.op.pairsWith read.op = true

instance (write read : NetOpEntry) : Decidable (Pairs write read) :=
  inferInstanceAs (Decidable (write.op.pairsWith read.op = true))

/-! ## §2. The search -/

def isPerfectReadWriteMatch (sendFlow : NetSendFlow) (receiveFlow : NetReceiveFlow) : Bool :=
  sendFlow.writes.length == receiveFlow.reads.length &&
    (sendFlow.writes.zip receiveFlow.reads).all fun (write, read) =>
      write.op.pairsWith read.op

/-- The answers so far, by the positions `i ≤ n` and `j ≤ m`. -/
abbrev Memo (n m : Nat) := Vector (Vector (Option Bool) (m + 1)) (n + 1)

def Memo.empty (n m : Nat) : Memo n m :=
  .replicate (n + 1) (.replicate (m + 1) none)

def Memo.lookup {n m : Nat} (memo : Memo n m) (i : Fin (n + 1)) (j : Fin (m + 1)) : Option Bool :=
  memo[i.val][j.val]

def Memo.store {n m : Nat} (memo : Memo n m) (i : Fin (n + 1)) (j : Fin (m + 1)) (b : Bool) :
    Memo n m :=
  memo.set i (memo[i.val].set j (some b))

/-- `if !ok && guard && call(..) { ok = true }`, with the memo handed on. -/
def attempt {n m : Nat} (guard : Bool) (call : Memo n m → Bool × Memo n m)
    (s : Bool × Memo n m) : Bool × Memo n m :=
  if !s.1 && guard then call s.2 else s

def flowMatchDp (writes reads : List NetOpEntry) (i : Fin (writes.length + 1))
    (j : Fin (reads.length + 1)) (memo : Memo writes.length reads.length) :
    Bool × Memo writes.length reads.length :=
  match memo.lookup i j with
  | some cached => (cached, memo)
  | none =>
    let result :=
      if hi : i.val = writes.length then
        if j.val = reads.length then (true, memo)
        else ((reads.drop j).all (·.dynamic), memo)
      else if hj : j.val = reads.length then
        ((writes.drop i).all (·.dynamic), memo)
      else
        let w := writes.get ⟨i.val, by omega⟩
        let r := reads.get ⟨j.val, by omega⟩
        let kindsMatch := w.op.pairsWith r.op
        let i' : Fin (writes.length + 1) := ⟨i + 1, by omega⟩
        let j' : Fin (reads.length + 1) := ⟨j + 1, by omega⟩
        (false, memo)
          |> attempt w.dynamic (fun memo => flowMatchDp writes reads i' j memo)
          |> attempt r.dynamic (fun memo => flowMatchDp writes reads i j' memo)
          |> attempt kindsMatch (fun memo => flowMatchDp writes reads i' j' memo)
          |> attempt (kindsMatch && w.dynamic) (fun memo => flowMatchDp writes reads i j' memo)
          |> attempt (kindsMatch && r.dynamic) (fun memo => flowMatchDp writes reads i' j memo)
    (result.1, result.2.store i j result.1)
termination_by (writes.length - i.val) + (reads.length - j.val)
decreasing_by all_goals omega

def flowsCanMatch (sendFlow : NetSendFlow) (receiveFlow : NetReceiveFlow) : Bool :=
  if isPerfectReadWriteMatch sendFlow receiveFlow then true
  else if !sendFlow.writes.any (·.dynamic) && !receiveFlow.reads.any (·.dynamic) then false
  else
    let writes := sendFlow.writes
    let reads := receiveFlow.reads
    (flowMatchDp writes reads 0 0 (.empty writes.length reads.length)).1

/-! ## §3. The memo holds right answers -/

/-- What the search at `(i, j)` is to answer: what is left of the two lists can be taken so
that the operations pair. -/
def CanPair (writes reads : List NetOpEntry) : Prop :=
  Meets NetOpEntry.dynamic NetOpEntry.dynamic Pairs writes reads

/-- Every answer of the memo is right. -/
def Answered (writes reads : List NetOpEntry) (memo : Memo writes.length reads.length) : Prop :=
  ∀ i j b, memo.lookup i j = some b →
    (b = true ↔ CanPair (writes.drop i) (reads.drop j))

/-- A search came to the right answer, and its memo holds right ones. -/
structure Right (writes reads : List NetOpEntry) (P : Prop)
    (s : Bool × Memo writes.length reads.length) : Prop where
  answer : s.1 = true ↔ P
  memo : Answered writes reads s.2

theorem lookup_store {n m : Nat} (memo : Memo n m) (i i' : Fin (n + 1)) (j j' : Fin (m + 1))
    (b : Bool) :
    (memo.store i j b).lookup i' j' =
      if i = i' ∧ j = j' then some b else memo.lookup i' j' := by
  unfold Memo.lookup Memo.store
  rw [Vector.getElem_set]
  split
  · rename_i hi
    rw [Vector.getElem_set]
    simp [Fin.ext_iff, hi]
  · rename_i hi
    simp [Fin.ext_iff, hi]

section

variable {writes reads : List NetOpEntry}

theorem answered_empty : Answered writes reads (.empty _ _) := by
  intro i j b h
  simp [Memo.lookup, Memo.empty] at h

theorem Answered.store {memo : Memo writes.length reads.length} (h : Answered writes reads memo)
    {i : Fin (writes.length + 1)} {j : Fin (reads.length + 1)} {b : Bool}
    (hb : b = true ↔ CanPair (writes.drop i) (reads.drop j)) :
    Answered writes reads (memo.store i j b) := by
  intro i' j' b' hlookup
  rw [lookup_store] at hlookup
  split at hlookup
  · rename_i hat
    obtain ⟨rfl, rfl⟩ := hat
    cases hlookup
    exact hb
  · exact h i' j' b' hlookup

/-- The answer found at `(i, j)` is stored there. -/
theorem Right.stored {i : Fin (writes.length + 1)} {j : Fin (reads.length + 1)}
    {s : Bool × Memo writes.length reads.length}
    (h : Right writes reads (CanPair (writes.drop i) (reads.drop j)) s) :
    Right writes reads (CanPair (writes.drop i) (reads.drop j)) (s.1, s.2.store i j s.1) :=
  ⟨h.answer, h.memo.store h.answer⟩

/-- One more move is tried where the moves before it failed. -/
theorem attempt_right {P Q : Prop} {guard : Bool}
    {call : Memo writes.length reads.length → Bool × Memo writes.length reads.length}
    {s : Bool × Memo writes.length reads.length} (hs : Right writes reads P s)
    (hcall : ∀ memo, Answered writes reads memo → Right writes reads Q (call memo)) :
    Right writes reads (P ∨ guard = true ∧ Q) (attempt guard call s) := by
  unfold attempt
  split
  · rename_i hguard
    rw [Bool.and_eq_true, Bool.not_eq_true'] at hguard
    have hno : ¬ P := by
      rw [← hs.answer, hguard.1]
      decide
    have hnext := hcall s.2 hs.memo
    refine ⟨?_, hnext.memo⟩
    rw [hnext.answer]
    simp [hno, hguard.2]
  · rename_i hguard
    refine ⟨?_, hs.memo⟩
    rw [Bool.and_eq_true, Bool.not_eq_true'] at hguard
    rw [hs.answer]
    constructor
    · exact .inl
    · rintro (hP | ⟨hg, -⟩)
      · exact hP
      · rw [← hs.answer]
        by_contra hok
        exact hguard ⟨by simpa using hok, hg⟩

/-- The five moves, in the order the search tries them. -/
theorem canPair_moves {i j : Nat} (hi : i < writes.length) (hj : j < reads.length) :
    CanPair (writes.drop i) (reads.drop j) ↔
      ((((False ∨ writes[i].dynamic = true ∧ CanPair (writes.drop (i + 1)) (reads.drop j)) ∨
        reads[j].dynamic = true ∧ CanPair (writes.drop i) (reads.drop (j + 1))) ∨
        writes[i].op.pairsWith reads[j].op = true ∧
          CanPair (writes.drop (i + 1)) (reads.drop (j + 1))) ∨
        (writes[i].op.pairsWith reads[j].op && writes[i].dynamic) = true ∧
          CanPair (writes.drop i) (reads.drop (j + 1))) ∨
        (writes[i].op.pairsWith reads[j].op && reads[j].dynamic) = true ∧
          CanPair (writes.drop (i + 1)) (reads.drop j) := by
  have hw : writes.drop i = writes[i] :: writes.drop (i + 1) := List.drop_eq_getElem_cons hi
  have hr : reads.drop j = reads[j] :: reads.drop (j + 1) := List.drop_eq_getElem_cons hj
  rw [hw, hr]
  unfold CanPair
  rw [meets_cons_cons]
  unfold HeadMoves Pairs
  simp only [false_or, Bool.and_eq_true, and_assoc, or_assoc]

/-- **A search of the memo is right**: what it answers, and what it leaves in the memo. -/
theorem flowMatchDp_right (i : Fin (writes.length + 1)) (j : Fin (reads.length + 1))
    (memo : Memo writes.length reads.length) (hmemo : Answered writes reads memo) :
    Right writes reads (CanPair (writes.drop i) (reads.drop j))
      (flowMatchDp writes reads i j memo) := by
  -- Every move of the search goes on with fewer operations to place.
  induction hk : (writes.length - i.val) + (reads.length - j.val)
    using Nat.strong_induction_on generalizing i j memo with
  | _ k ih =>
  have hgo : ∀ (i' : Fin (writes.length + 1)) (j' : Fin (reads.length + 1)),
      (writes.length - i'.val) + (reads.length - j'.val) < k →
      ∀ memo, Answered writes reads memo →
        Right writes reads (CanPair (writes.drop i') (reads.drop j'))
          (flowMatchDp writes reads i' j' memo) :=
    fun i' j' hlt memo h => ih _ hlt i' j' memo h rfl
  rw [flowMatchDp]
  split
  · rename_i cached hcached
    exact ⟨hmemo i j cached hcached, hmemo⟩
  rename_i hnone
  refine Right.stored ?_
  split
  · rename_i hi
    rw [hi, List.drop_length]
    split
    · rename_i hj
      rw [hj, List.drop_length]
      refine ⟨?_, hmemo⟩
      rw [CanPair, meets_nil_left]
      simp
    · refine ⟨?_, hmemo⟩
      rw [CanPair, meets_nil_left, List.all_eq_true]
  · rename_i hi
    split
    · rename_i hj
      rw [hj, List.drop_length]
      refine ⟨?_, hmemo⟩
      rw [CanPair, meets_nil_right, List.all_eq_true]
    · rename_i hj
      have hin : i.val < writes.length := by omega
      have hjm : j.val < reads.length := by omega
      have hnil : Right writes reads False (false, memo) := ⟨by simp, hmemo⟩
      rw [canPair_moves hin hjm]
      refine attempt_right (attempt_right (attempt_right (attempt_right
        (attempt_right hnil ?skipWrite) ?skipRead) ?pair) ?stayOnWrite) ?stayOnRead
      case skipWrite => exact hgo ⟨i + 1, by omega⟩ j (by simp only; omega)
      case skipRead => exact hgo i ⟨j + 1, by omega⟩ (by simp only; omega)
      case pair => exact hgo ⟨i + 1, by omega⟩ ⟨j + 1, by omega⟩ (by simp only; omega)
      case stayOnWrite => exact hgo i ⟨j + 1, by omega⟩ (by simp only; omega)
      case stayOnRead => exact hgo ⟨i + 1, by omega⟩ j (by simp only; omega)

end

/-! ## §4. The whole search -/

theorem isPerfectReadWriteMatch_iff (sendFlow : NetSendFlow) (receiveFlow : NetReceiveFlow) :
    isPerfectReadWriteMatch sendFlow receiveFlow = true ↔
      List.Forall₂ Pairs sendFlow.writes receiveFlow.reads := by
  unfold isPerfectReadWriteMatch
  rw [Bool.and_eq_true, beq_iff_eq, List.all_eq_true, List.forall₂_iff_zip]
  constructor
  · rintro ⟨hlength, hall⟩
    exact ⟨hlength, fun {w r} h => hall (w, r) h⟩
  · rintro ⟨hlength, hall⟩
    exact ⟨hlength, fun (w, r) h => hall h⟩

/-- **Flows can match exactly when they have expansions that pair.**  Every fixed operation is
taken once, every dynamic one any number of times, the order is kept, and each write pairs
with the read at its place. -/
theorem flowsCanMatch_iff (sendFlow : NetSendFlow) (receiveFlow : NetReceiveFlow) :
    flowsCanMatch sendFlow receiveFlow = true ↔
      ∃ writes reads, Expands NetOpEntry.dynamic sendFlow.writes writes ∧
        Expands NetOpEntry.dynamic receiveFlow.reads reads ∧
        List.Forall₂ (fun write read => write.op.pairsWith read.op = true) writes reads := by
  show _ ↔ CanPair sendFlow.writes receiveFlow.reads
  unfold flowsCanMatch
  split
  · rename_i hperfect
    rw [isPerfectReadWriteMatch_iff] at hperfect
    simp only [true_iff]
    exact meets_of_forall₂ hperfect
  rename_i hperfect
  rw [isPerfectReadWriteMatch_iff] at hperfect
  split
  · rename_i hfixed
    simp only [Bool.and_eq_true, Bool.not_eq_true', List.any_eq_false, Bool.not_eq_true] at hfixed
    rw [CanPair, meets_fixed hfixed.1 hfixed.2]
    simpa using hperfect
  · exact (flowMatchDp_right 0 0 _ answered_empty).answer

end GluaLs.Net
