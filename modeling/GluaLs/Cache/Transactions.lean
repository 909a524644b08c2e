/-
  GluaLs.Cache.Transactions — a transaction happens, or it does not.

  An evaluation under a transaction can be rolled back or committed (`transact`):

    • rolled back, the cache is what it was, less what was local,
    • committed, it is what the evaluation makes of it without a transaction,
    • either way no log is left, and no later transaction fails an assertion.

  What was local before the transaction is found through the lists of local keys
  (`LocalsListed`).  Entries a caller held while the cache was cleared, and put back then, are
  not on the lists: a rollback leaves their local values (`unlisted_local_left`).
-/
import GluaLs.Cache.Tracking

namespace GluaLs.Cache

open GluaLs.Lib InferCache

variable {T : CacheTypes}

/-! ## §1. A cache at rest -/

/-- No transaction is open, and nothing is logged. -/
structure InferCache.NoUndo (c : InferCache T) : Prop where
  transaction : c.transaction = none
  tracked : ∀ field, (c.tracked field).undo = none
  flows : ∀ k entries, c.flowNodeCache.lookup k = some entries → entries.undo = none
  keyedFlows : ∀ k entries, c.keyedFlowNodeCache.lookup k = some entries → entries.undo = none

/-- The lists of local keys hold the keys whose flow entries hold local values. -/
structure InferCache.LocalsListed (c : InferCache T) : Prop where
  flows : ∀ k entries, c.flowNodeCache.lookup k = some entries → entries.table.HasLocal →
    k ∈ c.flowLocalKeys
  keyedFlows : ∀ k entries, c.keyedFlowNodeCache.lookup k = some entries →
    entries.table.HasLocal → k ∈ c.keyedFlowLocalKeys

/-- The entries in hand log nothing. -/
def HandsFree (w : Walk T) : Prop := ∀ entries, some entries ∈ w.hands → entries.undo = none

theorem within_of_noUndo {w : Walk T} (hw : w.cache.NoUndo) (hhands : HandsFree w)
    (current : Option Nat) : w.Within current := by
  have hnone : ∀ {K V P : Type} [DecidableEq K] (m : TrackedMap K V P), m.undo = none →
      m.Within current := by
    intro K V P _ m hm undo hundo
    rw [hm] at hundo
    cases hundo
  exact ⟨fun field => hnone _ (hw.tracked field), fun k e h => hnone e (hw.flows k e h),
    fun k e h => hnone e (hw.keyedFlows k e h), fun e h => hnone e (hhands e h)⟩

theorem undo_of_within {K V P : Type} [DecidableEq K] {m : TrackedMap K V P}
    (h : m.Within none) : m.undo = none := by
  cases hundo : m.undo with
  | none => rfl
  | some undo => cases h undo hundo

/-! ## §2. Transactions -/

/-- An evaluation under a transaction, from `begin_transaction` to the end of its guard. -/
def transact (thread : Thread) (ops : List (Op T)) (w : Walk T) : Option (Thread × Walk T) :=
  match w.cache.beginTransaction thread with
  | some (inside, opened) =>
    (Walk.run inside.current ops { w with cache := opened }).map fun ended =>
      (InferCache.dropGuard thread.current inside, ended)
  | none => none

/-- A cache whose transaction has just begun. -/
def InferCache.opened (c : InferCache T) (id : Nat) : InferCache T :=
  { c with transaction := some ⟨id, ∅, ∅, ∅, []⟩ }

theorem within_opened {w : Walk T} (hw : w.cache.NoUndo) (hhands : HandsFree w) (id : Nat) :
    Walk.Within (some id) { w with cache := w.cache.opened id } := by
  have hbase : w.Within (some id) := within_of_noUndo hw hhands _
  exact ⟨hbase.tracked, hbase.flows, hbase.keyedFlows, hbase.hands⟩

/-- The evaluation goes through: no log there is can be another transaction's. -/
theorem transact_run {thread : Thread} {w : Walk T} (ops : List (Op T))
    (hthread : thread.current = none) (hw : w.cache.NoUndo) (hhands : HandsFree w) :
    ∃ ended, transact thread ops w = some (⟨thread.current, thread.next + 1⟩, ended) ∧
      Walk.run (some thread.next) ops { w with cache := w.cache.opened thread.next } =
        some ended ∧
      ended.sight = ops.foldl (fun s op => op.onSight s) w.sight := by
  have hbegin : w.cache.beginTransaction thread =
      some (⟨some thread.next, thread.next + 1⟩, w.cache.opened thread.next) := by
    unfold beginTransaction
    rw [if_pos ⟨by rw [hw.transaction]; rfl, by rw [hthread]; rfl⟩]
    rfl
  obtain ⟨ended, hrun, -, hsight⟩ := Walk.run_spec ops _ (within_opened hw hhands thread.next)
  refine ⟨ended, ?_, hrun, hsight⟩
  unfold transact
  rw [hbegin]
  exact congrArg (Option.map _) hrun

/-- What the transaction knows when its guard ends. -/
theorem transact_tracking {thread : Thread} {w ended : Walk T} (ops : List (Op T))
    (hw : w.cache.NoUndo) (hhands : HandsFree w) (hlisted : w.cache.LocalsListed)
    (hrun : Walk.run (some thread.next) ops { w with cache := w.cache.opened thread.next } =
      some ended) :
    ∃ undo, Tracking w.cache.contents undo ended.cache := by
  have htracking : Tracking w.cache.contents ⟨thread.next, ∅, ∅, ∅, []⟩
      (w.cache.opened thread.next) := by
    refine ⟨rfl, fun field => TrackedMap.original_of_noUndo (hw.tracked field), ?_,
      logged_start hw.flows hlisted.flows, logged_start hw.keyedFlows hlisted.keyedFlows⟩
    funext k
    show (w.cache.callCache.lookup k).map id = w.cache.callCache.lookup k
    rw [Option.map_id_apply]
  obtain ⟨undo, -, hended⟩ := tracking_run ops _ ended _ (within_opened hw hhands thread.next)
    htracking rfl hrun
  exact ⟨undo, hended⟩

/-! ## §3. Its ends -/

section

variable {thread : Thread} {c : InferCache T} (hthread : thread.current = none)
include hthread

/-- **Rollback.** -/
theorem rollback_spec {start : Contents T} {undo : CacheUndo T} (h : Tracking start undo c) :
    ∃ rolled, c.rollbackTransaction thread = some rolled ∧ rolled.contents = start.sharedOnly ∧
      rolled.NoUndo := by
  obtain ⟨hflows, hflowsUndo⟩ := rollback_flows h.flows
  have hkeyed := h.keyedFlows.more_touched fun k hk =>
    (hk.elim : k ∈ ([] : List (KeyedFlowKey T)))
  obtain ⟨hkeyedFlows, hkeyedUndo⟩ := rollback_flows hkeyed
  unfold rollbackTransaction finishTrackedTransaction
  rw [if_pos (by rw [hthread]; rfl)]
  rw [h.transaction]
  refine ⟨_, rfl, ?_, rfl, fun field => rfl, hflowsUndo, hkeyedUndo⟩
  apply Contents.ext
  any_goals rfl
  · funext field
    show ((c.tracked field).rollbackTransaction.clearLocal).table = (start.tracked field).sharedOnly
    show (⟨(c.tracked field).rollbackTransaction.table.shared, fun _ => none⟩ : Table _ _ _) = _
    rw [TrackedMap.rollback_table, h.tracked field]
    rfl
  · funext k
    show (restore c.callCache undo.calls).lookup k = start.calls k
    rw [lookup_restore, ← h.calls]
    unfold before
    cases undo.calls.lookup k with
    | none => exact (Option.map_id_apply).symm
    | some old => exact (Option.map_id_apply).symm
  · refine Eq.trans hflows ?_
    funext k
    rw [Option.map_map]
    rfl
  · refine Eq.trans hkeyedFlows ?_
    funext k
    rw [Option.map_map]
    rfl

/-- **Commit.** -/
theorem commit_spec {start : Contents T} {undo : CacheUndo T} (h : Tracking start undo c) :
    ∃ committed, c.commitTransaction thread = some committed ∧
      committed.contents = c.contents ∧ committed.NoUndo := by
  obtain ⟨hflows, hflowsUndo⟩ := commit_flows h.flows
  have hkeyed := h.keyedFlows.more_touched fun k hk =>
    (hk.elim : k ∈ ([] : List (KeyedFlowKey T)))
  obtain ⟨hkeyedFlows, hkeyedUndo⟩ := commit_flows hkeyed
  unfold commitTransaction finishTrackedTransaction
  rw [if_pos (by rw [hthread]; rfl)]
  rw [h.transaction]
  refine ⟨_, rfl, ?_, rfl, fun field => rfl, hflowsUndo, hkeyedUndo⟩
  apply Contents.ext
  any_goals rfl
  · exact hflows
  · exact hkeyedFlows

/-! ## §4. Atomicity -/

/-- No evaluation under a later transaction fails an assertion. -/
theorem transact_isSome (hc : c.NoUndo) (later : List (Op T)) :
    (transact thread later ⟨c, []⟩).isSome := by
  obtain ⟨ended, htransact, -, -⟩ := transact_run (w := ⟨c, []⟩) later hthread hc
    nofun
  rw [htransact]
  rfl

end

/-- **Transactions are atomic.**  From a cache at rest whose local values are listed, every
    evaluation under a transaction goes through.  A rollback leaves what the transaction found,
    less what was local; a commit what the evaluation leaves without one.  No log is left. -/
theorem transactions_atomic (thread : Thread) (w : Walk T) (ops : List (Op T))
    (hthread : thread.current = none) (hw : w.cache.NoUndo) (hhands : HandsFree w)
    (hlisted : w.cache.LocalsListed) :
    ∃ thread' ended, transact thread ops w = some (thread', ended) ∧
      (∃ rolled, ended.cache.rollbackTransaction thread' = some rolled ∧
        rolled.contents = w.cache.contents.sharedOnly ∧ rolled.NoUndo ∧
        ∀ later, (transact thread' later ⟨rolled, []⟩).isSome) ∧
      (∃ committed plain, ended.cache.commitTransaction thread' = some committed ∧
        w.run none ops = some plain ∧ committed.contents = plain.cache.contents ∧
        committed.NoUndo ∧ ∀ later, (transact thread' later ⟨committed, []⟩).isSome) := by
  obtain ⟨ended, htransact, hrun, hsight⟩ := transact_run ops hthread hw hhands
  obtain ⟨undo, htracking⟩ := transact_tracking ops hw hhands hlisted hrun
  refine ⟨_, ended, htransact, ?_, ?_⟩
  · obtain ⟨rolled, hrollback, hcontents, hundo⟩ := rollback_spec
      (show (⟨thread.current, thread.next + 1⟩ : Thread).current = none from hthread) htracking
    exact ⟨rolled, hrollback, hcontents, hundo, transact_isSome hthread hundo⟩
  · obtain ⟨committed, hcommit, hcontents, hundo⟩ := commit_spec
      (show (⟨thread.current, thread.next + 1⟩ : Thread).current = none from hthread) htracking
    obtain ⟨plain, hplain, -, hsight'⟩ := @Walk.run_spec T none ops w
      (within_of_noUndo hw hhands none)
    refine ⟨committed, plain, hcommit, hplain, ?_, hundo, transact_isSome hthread hundo⟩
    rw [hcontents]
    exact congrArg Prod.fst (hsight.trans hsight'.symm)

/-! ## §5. Concrete evaluations -/

/-- Numbers for keys and values. -/
@[reducible] def numbers : CacheTypes where
  Key _ := Nat
  Value _ := Nat
  Provenance := Nat
  VarRefCacheKey := Nat
  FlowCacheInnerKey := Nat
  FlowValue := Nat
  LuaType := Nat
  CallKey := Nat
  LuaFunctionType := Nat

/-- A thread no transaction was opened on. -/
def freshThread : Thread := ⟨none, 1⟩

theorem new_noUndo : (new : InferCache T).NoUndo where
  transaction := rfl
  tracked _ := rfl
  flows k entries h := by cases h
  keyedFlows k entries h := by cases h

theorem new_localsListed : (new : InferCache T).LocalsListed where
  flows k entries h := by cases h
  keyedFlows k entries h := by cases h

/-- Nested keyed walks, the inner one abandoned. -/
def nestedWalks : List (Op numbers) :=
  [.setFlow 0 0 7 (some 1), .keyFlow 0 1, .keyFlow 0 2, .setFlow 0 0 8 none,
    .tracked .exprCache (.insert 0 5 (some 1)),
    .insertCall 0 0 3 (some 1), .unkeyFlow 0 1 1]

theorem transactions_atomic_nested :
    ∃ thread' ended, transact freshThread nestedWalks ⟨InferCache.new, []⟩ =
        some (thread', ended) ∧
      (∃ rolled, ended.cache.rollbackTransaction thread' = some rolled ∧
        rolled.contents = (InferCache.new : InferCache numbers).contents.sharedOnly ∧
        rolled.NoUndo ∧ ∀ later, (transact thread' later ⟨rolled, []⟩).isSome) ∧
      (∃ committed plain, ended.cache.commitTransaction thread' = some committed ∧
        Walk.run none nestedWalks ⟨InferCache.new, []⟩ = some plain ∧
        committed.contents = plain.cache.contents ∧ committed.NoUndo ∧
        ∀ later, (transact thread' later ⟨committed, []⟩).isSome) :=
  transactions_atomic freshThread ⟨new, []⟩ nestedWalks rfl new_noUndo
    nofun new_localsListed

/-- A local value set, its entries held while the cache is cleared, and put back. -/
def heldWhileCleared : List (Op numbers) :=
  [.setFlow 0 0 7 none, .takeFlow 0, .clear, .restoreFlow 0 0]

/-- The local value a transaction of no operation leaves when it is rolled back. -/
def leftByRollback (w : Walk numbers) : Option (Option Nat) :=
  (transact freshThread [] w).bind fun (thread', ended) =>
    (ended.cache.rollbackTransaction thread').map fun rolled =>
      (rolled.contents.flows 0).bind fun table => table.localValues 0

theorem heldWhileCleared_left :
    (Walk.run none heldWhileCleared ⟨new, []⟩).map
      (fun w => (w.cache.transaction.isNone, leftByRollback w)) = some (true, some (some 7)) := by
  decide +kernel

/-- **A local value not listed outlives a rollback.** -/
theorem unlisted_local_left :
    ¬∀ (T : CacheTypes) (thread : Thread) (w : Walk T) (ops : List (Op T)),
      thread.current = none → w.cache.NoUndo → HandsFree w →
      ∃ thread' ended rolled, transact thread ops w = some (thread', ended) ∧
        ended.cache.rollbackTransaction thread' = some rolled ∧
        rolled.contents = w.cache.contents.sharedOnly := by
  intro h
  obtain ⟨w, hrun, hwithin, -⟩ := @Walk.run_spec numbers none heldWhileCleared
    ⟨new, []⟩ (within_of_noUndo new_noUndo (fun _ h => absurd h List.not_mem_nil) none)
  have hleft := heldWhileCleared_left
  rw [hrun, Option.map_some, Option.some.injEq, Prod.mk.injEq] at hleft
  have hw : w.cache.NoUndo :=
    ⟨Option.isNone_iff_eq_none.1 hleft.1, fun field => undo_of_within (hwithin.tracked field),
      fun k e he => undo_of_within (hwithin.flows k e he),
      fun k e he => undo_of_within (hwithin.keyedFlows k e he)⟩
  obtain ⟨thread', ended, rolled, htransact, hrollback, hcontents⟩ := h numbers freshThread w []
    rfl hw (fun e he => undo_of_within (hwithin.hands e he))
  have hvalue := hleft.2
  unfold leftByRollback at hvalue
  rw [htransact, Option.bind_some] at hvalue
  dsimp only at hvalue
  rw [hrollback, Option.map_some, hcontents] at hvalue
  change some (((w.cache.contents.flows 0).map Table.sharedOnly).bind
    fun table => table.localValues 0) = some (some 7) at hvalue
  cases hflow : w.cache.contents.flows 0 with
  | none => rw [hflow] at hvalue; cases hvalue
  | some table => rw [hflow] at hvalue; cases hvalue

end GluaLs.Cache
