/-
  GluaLs.Cache.Tracking — what a transaction knows of its cache.

  While the guard stands, the logs of a cache tell what the transaction found of it: of each memo
  map its own log, of calls the transaction's, of flow entries the two together (`Tracking`).

`tracking_step` and `tracking_run` say that an evaluation keeps it.
-/
import GluaLs.Cache.Sight

namespace GluaLs.Cache

open GluaLs.Lib

section

variable {T : CacheTypes} {K : Type} [DecidableEq K]

/-! ## §1. The invariant

  Flow entries are maps with logs of their own, inside a map that is logged.  What a transaction
  found of them (`base`) is kept by the outer log where entries were swapped, and by the inner
  logs elsewhere (`Logged`).  It can be put back, or the logs dropped, because

    • what is logged outside carries no log and nothing local (`kept`),
    • entries not logged outside carry a log only where they were touched (`quiet`),
    • and local values only where they are listed (`listed`).

  Ends: `rollback_flows`, `commit_flows`.
-/

/-- The shared part of some flow entries. -/
abbrev SharedFlow (T : CacheTypes) : Type :=
  T.FlowCacheInnerKey → Option (T.FlowValue × T.Provenance)

/-- What the transaction found of each flow entries. -/
def foundFlows (cache : HashMap K (FlowEntries T)) (log : UndoLog K (FlowEntries T)) :
    K → Option (SharedFlow T) :=
  before (fun entries => entries.table.shared) TrackedMap.original cache log

/-- The logs tell what the transaction found. -/
structure Logged (base : K → Option (SharedFlow T)) (log : UndoLog K (FlowEntries T))
    (touched listed : K → Prop) (cache : HashMap K (FlowEntries T)) : Prop where
  found : foundFlows cache log = base
  kept : ∀ k entries, log.lookup k = some (some entries) →
    entries.undo = none ∧ ¬entries.table.HasLocal
  quiet : ∀ k entries, log.lookup k = none → cache.lookup k = some entries → ¬touched k →
    entries.undo = none
  listed : ∀ k entries, log.lookup k = none → cache.lookup k = some entries →
    entries.table.HasLocal → listed k

variable {base : K → Option (SharedFlow T)} {log : UndoLog K (FlowEntries T)}
  {touched touched' listed listed' : K → Prop} {cache cache' : HashMap K (FlowEntries T)}

theorem not_hasLocal_rollback (entries : FlowEntries T) :
    ¬entries.rollbackTransaction.table.HasLocal := by
  intro h
  obtain ⟨k, hk⟩ := h
  rw [TrackedMap.rollback_table] at hk
  exact hk rfl

/-- Before anything is logged. -/
theorem logged_start (hundo : ∀ k entries, cache.lookup k = some entries → entries.undo = none)
    (hlisted : ∀ k entries, cache.lookup k = some entries → entries.table.HasLocal → listed k) :
    Logged (fun k => (flowTables cache k).map Table.shared) ∅ touched listed cache where
  found := by
    funext k
    show (cache.lookup k).map TrackedMap.original = ((cache.lookup k).map _).map _
    rw [Option.map_map]
    cases hk : cache.lookup k with
    | none => rfl
    | some entries =>
      exact congrArg some (TrackedMap.original_of_noUndo (hundo k entries hk))
  kept := by
    intro k entries h
    cases h
  quiet := fun k entries _ hk _ => hundo k entries hk
  listed := fun k entries _ hk hlocal => hlisted k entries hk hlocal

section

variable (h : Logged base log touched listed cache)
include h

/-- **Logging a key.** -/
theorem Logged.capture (key : K) :
    Logged base (capture TrackedMap.rollbackTransaction cache log key) touched listed cache where
  found := by
    rw [← h.found]
    refine before_capture _ _ _ (fun entries => ?_) cache log key
    rw [TrackedMap.rollback_table]
  kept := by
    intro k entries hk
    cases hlog : log.lookup k with
    | some old =>
      rw [lookup_capture_of_some hlog] at hk
      rw [Option.some.inj hk] at hlog
      exact h.kept k entries hlog
    | none =>
      rw [lookup_capture] at hk
      split_ifs at hk with heq
      · rw [← heq, hlog] at hk
        obtain ⟨old, -, hold⟩ := Option.map_eq_some_iff.1 (Option.some.inj hk)
        rw [← hold]
        exact ⟨rfl, not_hasLocal_rollback old⟩
      · rw [hlog] at hk
        cases hk
  quiet := fun k entries hk => h.quiet k entries (lookup_of_capture_none hk)
  listed := fun k entries hk => h.listed k entries (lookup_of_capture_none hk)

/-- **Swapping entries** where they are logged. -/
theorem Logged.swap (key : K) (hkey : log.lookup key ≠ none)
    (hothers : ∀ k, k ≠ key → cache'.lookup k = cache.lookup k) :
    Logged base log touched listed cache' := by
  have hsame : ∀ k, log.lookup k = none → cache'.lookup k = cache.lookup k := by
    intro k hk
    refine hothers k ?_
    intro heq
    rw [heq] at hk
    exact hkey hk
  refine ⟨?_, h.kept, ?_, ?_⟩
  · rw [← h.found]
    exact before_of_captured _ _ hsame
  · intro k entries hk hentries
    rw [hsame k hk] at hentries
    exact h.quiet k entries hk hentries
  · intro k entries hk hentries
    rw [hsame k hk] at hentries
    exact h.listed k entries hk hentries

theorem Logged.more_touched
    (htouched : ∀ k, touched k → touched' k) : Logged base log touched' listed cache :=
  ⟨h.found, h.kept, fun k entries hk hentries hnot =>
    h.quiet k entries hk hentries fun ht => hnot (htouched k ht), h.listed⟩

theorem Logged.more_listed
    (hlisted : ∀ k, listed k → listed' k) : Logged base log touched listed' cache :=
  ⟨h.found, h.kept, h.quiet, fun k entries hk hentries hlocal =>
    hlisted k (h.listed k entries hk hentries hlocal)⟩

/-- **Changing entries in place**: what they log must be touched, what is local listed. -/
theorem Logged.change (key : K)
    {entries entries' : FlowEntries T} (hentries : cache.lookup key = some entries)
    (horiginal : entries'.original = entries.original)
    (hundo : touched key ∨ entries'.undo = entries.undo)
    (hlocal : listed key ∨ (entries'.table.HasLocal → entries.table.HasLocal)) :
    Logged base log touched listed (cache.insert key entries') := by
  refine ⟨?_, h.kept, ?_, ?_⟩
  · rw [← h.found]
    funext k
    unfold foundFlows before
    rw [lookup_insert_ite]
    cases log.lookup k with
    | some old => rfl
    | none =>
      show (if k = key then some entries' else cache.lookup k).map TrackedMap.original =
        (cache.lookup k).map TrackedMap.original
      split_ifs with heq
      · rw [heq, hentries, Option.map_some, Option.map_some, horiginal]
      · rfl
  · intro k found hk hfound hnot
    obtain ⟨rfl, rfl⟩ | ⟨-, hfound⟩ := lookup_insert_some hfound
    · obtain htouch | hsame := hundo
      · exact absurd htouch hnot
      · rw [hsame]
        exact h.quiet k entries hk hentries hnot
    · exact h.quiet k found hk hfound hnot
  · intro k found hk hfound hhas
    obtain ⟨rfl, rfl⟩ | ⟨-, hfound⟩ := lookup_insert_some hfound
    · obtain hlist | hless := hlocal
      · exact hlist
      · exact h.listed k entries hk hentries (hless hhas)
    · exact h.listed k found hk hfound hhas

end

/-- **Dropping what is local**, where it is listed: nothing local is left. -/
theorem Logged.clear {keys : List K} (h : Logged base log touched (fun k => k ∈ keys) cache) :
    Logged base log touched listed'
      (keys.foldl (fun cache key => modify cache key TrackedMap.clearLocal) cache) := by
  have hlookup := lookup_foldl_modify (V := FlowEntries T) TrackedMap.clearLocal (fun _ => rfl)
    keys cache
  refine ⟨?_, h.kept, ?_, ?_⟩
  · rw [← h.found]
    funext k
    unfold foundFlows before
    rw [hlookup]
    cases log.lookup k with
    | some old => rfl
    | none =>
      show (if k ∈ keys then (cache.lookup k).map TrackedMap.clearLocal
        else cache.lookup k).map TrackedMap.original = (cache.lookup k).map TrackedMap.original
      split_ifs with hmem
      · rw [Option.map_map]
        rfl
      · rfl
  · intro k entries hk hentries hnot
    rw [hlookup] at hentries
    split_ifs at hentries with hmem
    · obtain ⟨old, hold, hclear⟩ := Option.map_eq_some_iff.1 hentries
      rw [← hclear]
      exact h.quiet k old hk hold hnot
    · exact h.quiet k entries hk hentries hnot
  · intro k entries hk hentries hlocal
    rw [hlookup] at hentries
    split_ifs at hentries with hmem
    · obtain ⟨old, hold, hclear⟩ := Option.map_eq_some_iff.1 hentries
      rw [← hclear] at hlocal
      obtain ⟨inner, hinner⟩ := hlocal
      exact absurd rfl hinner
    · exact absurd (h.listed k entries hk hentries hlocal) hmem

/-! ## §2. The end of the transaction -/

theorem lookup_finishFlows {finish : FlowEntries T → FlowEntries T}
    (hfinish : ∀ entries, finish (finish entries) = finish entries) (keys : List K)
    (cache : HashMap K (FlowEntries T)) (k : K) :
    (InferCache.finishFlows finish keys cache).lookup k =
      if k ∈ keys then (cache.lookup k).map finish else cache.lookup k :=
  lookup_foldl_modify finish hfinish keys cache k

/-- The entries whose logs are finished: those touched, and those logged outside. -/
theorem not_finished {touchedKeys : List K} {k : K} (h : k ∉ touchedKeys ++ log.keys) :
    k ∉ touchedKeys ∧ log.lookup k = none := by
  rw [List.mem_append, not_or] at h
  refine ⟨h.1, ?_⟩
  by_contra hsome
  exact h.2 ((mem_keys_iff log k).2 hsome)

/-- **Commit**: no log is left, and nothing else changes. -/
theorem commit_flows {touchedKeys : List K}
    (h : Logged base log (fun k => k ∈ touchedKeys) listed cache) :
    flowTables (InferCache.finishFlows TrackedMap.commitTransaction (touchedKeys ++ log.keys)
        cache) = flowTables cache ∧
      ∀ k entries, (InferCache.finishFlows TrackedMap.commitTransaction
        (touchedKeys ++ log.keys) cache).lookup k = some entries → entries.undo = none := by
  have hlookup := lookup_finishFlows (T := T) TrackedMap.commit_commit (touchedKeys ++ log.keys)
    cache
  constructor
  · funext k
    unfold flowTables
    rw [hlookup]
    split_ifs with hmem
    · rw [Option.map_map]
      rfl
    · rfl
  · intro k entries hentries
    rw [hlookup] at hentries
    split_ifs at hentries with hmem
    · obtain ⟨old, -, hcommit⟩ := Option.map_eq_some_iff.1 hentries
      rw [← hcommit]
      rfl
    · obtain ⟨hnot, hlog⟩ := not_finished hmem
      exact h.quiet k entries hlog hentries hnot

omit [DecidableEq K] in
theorem table_of_not_hasLocal {V P : Type} {t : Table K V P} (h : ¬t.HasLocal) :
    t = t.sharedOnly := by
  apply Table.ext
  · rfl
  · funext k
    by_contra hk
    exact h ⟨k, hk⟩

/-- The entries rolled back, before those listed are cleared. -/
theorem restored_flows {touchedKeys keys : List K}
    (h : Logged base log (fun k => k ∈ touchedKeys) (fun k => k ∈ keys) cache) (k : K) :
    base k = ((restore (InferCache.finishFlows TrackedMap.rollbackTransaction
      (touchedKeys ++ log.keys) cache) log).lookup k).map (fun e => e.table.shared) ∧
    ∀ entries, (restore (InferCache.finishFlows TrackedMap.rollbackTransaction
      (touchedKeys ++ log.keys) cache) log).lookup k = some entries →
      entries.undo = none ∧ (entries.table.HasLocal → k ∈ keys) := by
  have hfinish := lookup_finishFlows (T := T) TrackedMap.rollback_rollback
    (touchedKeys ++ log.keys) cache
  have hbase : base k = foundFlows cache log k := (congrFun h.found k).symm
  unfold foundFlows before at hbase
  rw [lookup_restore, hfinish]
  cases hlog : log.lookup k with
  | some old =>
    rw [hlog] at hbase
    refine ⟨hbase, ?_⟩
    intro entries hentries
    have hold : old = some entries := hentries
    obtain ⟨hundo, hlocal⟩ := h.kept k entries (by rw [hlog, hold])
    exact ⟨hundo, fun hhas => absurd hhas hlocal⟩
  | none =>
    rw [hlog] at hbase
    replace hbase : base k = (cache.lookup k).map TrackedMap.original := hbase
    rw [Option.getD_none]
    split_ifs with hmem
    · constructor
      · rw [hbase, Option.map_map]
        congr 1
        funext entries
        show entries.original = entries.rollbackTransaction.table.shared
        rw [TrackedMap.rollback_table]
      · intro entries hentries
        obtain ⟨old, -, hrollback⟩ := Option.map_eq_some_iff.1 hentries
        rw [← hrollback]
        exact ⟨rfl, fun hhas => absurd hhas (not_hasLocal_rollback old)⟩
    · have hundo : ∀ entries, cache.lookup k = some entries → entries.undo = none :=
        fun entries hentries => h.quiet k entries hlog hentries (not_finished hmem).1
      constructor
      · rw [hbase]
        cases hentries : cache.lookup k with
        | none => rfl
        | some entries =>
          exact congrArg some (TrackedMap.original_of_noUndo (hundo entries hentries))
      · exact fun entries hentries =>
          ⟨hundo entries hentries, h.listed k entries hlog hentries⟩

/-- **Rollback**: the shared entries are those the transaction found, and no log is left. -/
theorem rollback_flows {touchedKeys keys : List K}
    (h : Logged base log (fun k => k ∈ touchedKeys) (fun k => k ∈ keys) cache) :
    flowTables (keys.foldl (fun cache key => modify cache key TrackedMap.clearLocal)
        (restore (InferCache.finishFlows TrackedMap.rollbackTransaction
          (touchedKeys ++ log.keys) cache) log)) =
        (fun k => (base k).map fun shared => ⟨shared, fun _ => none⟩) ∧
      ∀ k entries, (keys.foldl (fun cache key => modify cache key TrackedMap.clearLocal)
        (restore (InferCache.finishFlows TrackedMap.rollbackTransaction
          (touchedKeys ++ log.keys) cache) log)).lookup k = some entries →
        entries.undo = none := by
  have hrestored := restored_flows h
  generalize restore (InferCache.finishFlows TrackedMap.rollbackTransaction
    (touchedKeys ++ log.keys) cache) log = restored at hrestored
  have hclear := lookup_foldl_modify (V := FlowEntries T) TrackedMap.clearLocal (fun _ => rfl)
    keys restored
  constructor
  · funext k
    unfold flowTables
    rw [hclear, (hrestored k).1, Option.map_map]
    split_ifs with hmem
    · rw [Option.map_map]
      rfl
    · cases hentries : restored.lookup k with
      | none => rfl
      | some entries =>
        refine congrArg some (table_of_not_hasLocal fun hhas => hmem ?_)
        exact ((hrestored k).2 entries hentries).2 hhas
  · intro k entries hentries
    rw [hclear] at hentries
    split_ifs at hentries with hmem
    · obtain ⟨old, hold, hcleared⟩ := Option.map_eq_some_iff.1 hentries
      rw [← hcleared]
      exact ((hrestored k).2 old hold).1
    · exact ((hrestored k).2 entries hentries).1

end

variable {T : CacheTypes}

/-! ## §3. The invariant -/

/-- The logs tell what the transaction found: `start`. -/
structure Tracking (start : Contents T) (undo : CacheUndo T) (c : InferCache T) : Prop where
  transaction : c.transaction = some undo
  tracked : ∀ field, (c.tracked field).original = (start.tracked field).shared
  calls : before id id c.callCache undo.calls = start.calls
  flows : Logged (fun k => (start.flows k).map Table.shared) undo.flows
    (fun k => k ∈ undo.touchedFlows) (fun k => k ∈ c.flowLocalKeys) c.flowNodeCache
  keyedFlows : Logged (fun k => (start.keyedFlows k).map Table.shared) undo.keyedFlows
    (fun _ => False) (fun k => k ∈ c.keyedFlowLocalKeys) c.keyedFlowNodeCache

variable {start : Contents T} {undo : CacheUndo T} {c : InferCache T} {t : Nat}

namespace Tracking

section

variable (h : Tracking start undo c) (hid : undo.id = t)
include h hid

theorem activeUndo : c.activeUndo (some t) = some undo := by
  unfold InferCache.activeUndo
  rw [h.transaction, Option.filter_some, hid]
  exact if_pos (decide_eq_true rfl)

/-- **Calls**: a bucket changes after it is logged. -/
theorem callStep {key : T.CallKey}
    {c' : InferCache T} (hstep : InferCache.CallStep (some t) c key c') :
    ∃ undo', undo'.id = t ∧ Tracking start undo' c' := by
  cases hstep with
  | unlogged localCalls =>
    exact ⟨undo, hid, h.transaction, h.tracked, h.calls, h.flows, h.keyedFlows⟩
  | logged calls localCalls hcalls =>
    have hcapture : c.captureCall (some t) key = { c with
        transaction := some { undo with calls := capture id c.callCache undo.calls key } } := by
      unfold InferCache.captureCall
      rw [h.activeUndo hid]
    rw [hcapture]
    refine ⟨{ undo with calls := capture id c.callCache undo.calls key }, hid, rfl, h.tracked,
      ?_, h.flows, h.keyedFlows⟩
    rw [← h.calls, ← before_capture id id id (fun _ => rfl) c.callCache undo.calls key]
    refine before_of_captured id id fun k hk => hcalls k ?_
    intro heq
    rw [heq] at hk
    exact captured_capture id c.callCache undo.calls key hk

/-- The transaction after a reference's entries are logged. -/
theorem captureFlow (cacheKey : T.VarRefCacheKey) :
    c.captureFlow (some t) cacheKey = { c with
      transaction := some { undo with
        flows := capture TrackedMap.rollbackTransaction c.flowNodeCache undo.flows
          cacheKey } } := by
  unfold InferCache.captureFlow
  rw [h.activeUndo hid]

theorem touchFlow (cacheKey : T.VarRefCacheKey) :
    c.touchFlow (some t) cacheKey = { c with
      transaction := some { undo with touchedFlows := undo.touchedFlows.insert cacheKey } } := by
  unfold InferCache.touchFlow
  rw [h.activeUndo hid]

theorem captured (cacheKey : T.VarRefCacheKey)
    (origin : T.LuaType) :
    (InferCache.captured (some t) c cacheKey origin).transaction = some { undo with
      flows := capture TrackedMap.rollbackTransaction c.flowNodeCache undo.flows cacheKey
      keyedFlows := capture TrackedMap.rollbackTransaction c.keyedFlowNodeCache undo.keyedFlows
        (cacheKey, origin) } := by
  have hkeyed : c.captureKeyedFlow (some t) (cacheKey, origin) = { c with
      transaction := some { undo with
        keyedFlows := capture TrackedMap.rollbackTransaction c.keyedFlowNodeCache
          undo.keyedFlows (cacheKey, origin) } } := by
    unfold InferCache.captureKeyedFlow
    rw [h.activeUndo hid]
  have hnext : Tracking start { undo with
      keyedFlows := capture TrackedMap.rollbackTransaction c.keyedFlowNodeCache
        undo.keyedFlows (cacheKey, origin) } (c.captureKeyedFlow (some t) (cacheKey, origin)) := by
    rw [hkeyed]
    exact ⟨rfl, h.tracked, h.calls, h.flows, h.keyedFlows.capture (cacheKey, origin)⟩
  unfold InferCache.captured
  rw [hnext.captureFlow hid, hkeyed]

/-- **Keyed walks**: entries are swapped after they are logged in both places. -/
theorem swapStep {cacheKey : T.VarRefCacheKey} {origin : T.LuaType} {c' : InferCache T}
    (hstep : InferCache.SwapStep (some t) c cacheKey origin c') :
    ∃ undo', undo'.id = t ∧ Tracking start undo' c' := by
  obtain ⟨flows, keyedFlows, keyedFlowLocalKeys, hframe⟩ := hstep.frame
  have hflows := hstep.flows
  have hkeyed := hstep.keyedFlows
  have hlisted := hstep.listed
  rw [h.captured hid] at hframe
  rw [hframe] at hflows hkeyed hlisted ⊢
  refine ⟨{ undo with
    flows := capture TrackedMap.rollbackTransaction c.flowNodeCache undo.flows cacheKey
    keyedFlows := capture TrackedMap.rollbackTransaction c.keyedFlowNodeCache undo.keyedFlows
      (cacheKey, origin) }, hid, rfl, h.tracked, h.calls, ?_, ?_⟩
  · exact (h.flows.capture cacheKey).swap cacheKey
      (captured_capture _ c.flowNodeCache undo.flows cacheKey) hflows
  · exact ((h.keyedFlows.capture (cacheKey, origin)).swap (cacheKey, origin)
      (captured_capture _ c.keyedFlowNodeCache undo.keyedFlows (cacheKey, origin))
      hkeyed).more_listed hlisted

/-- **Entries taken and put back** are logged first. -/
theorem takeStep {cacheKey : T.VarRefCacheKey}
    {c' : InferCache T} (hstep : InferCache.TakeStep (some t) c cacheKey c') :
    ∃ undo', undo'.id = t ∧ Tracking start undo' c' := by
  obtain ⟨flows, hframe⟩ := hstep.frame
  have hflows := hstep.flows
  rw [h.captureFlow hid] at hframe
  rw [hframe] at hflows ⊢
  refine ⟨{ undo with
    flows := capture TrackedMap.rollbackTransaction c.flowNodeCache undo.flows cacheKey },
    hid, rfl, h.tracked, h.calls, ?_, h.keyedFlows⟩
  exact (h.flows.capture cacheKey).swap cacheKey
    (captured_capture _ c.flowNodeCache undo.flows cacheKey) hflows

end

theorem get_localValues (reuse : T.Provenance → Reuse) (table : FlowTable T)
    (inner : T.FlowCacheInnerKey) :
    (table.get reuse inner).localValues = table.localValues := by
  unfold Table.get
  split
  · split_ifs with hstale
    · rfl
    · rfl
  · rfl

theorem mem_touched (keys : List T.VarRefCacheKey) (key : T.VarRefCacheKey) :
    (∀ k ∈ keys, k ∈ keys.insert key) ∧ key ∈ keys.insert key :=
  ⟨fun _ hk => List.mem_insert_of_mem hk, List.mem_insert_self⟩

/-- **Reads** touch what they drop an entry of. -/
theorem readStep (h : Tracking start undo c) (hid : undo.id = t) {reuse : T.Provenance → Reuse}
    {cacheKey : T.VarRefCacheKey} {inner : T.FlowCacheInnerKey} {c' : InferCache T}
    (hstep : InferCache.ReadStep (some t) reuse c cacheKey inner c') :
    ∃ undo', undo'.id = t ∧ Tracking start undo' c' := by
  cases hstep with
  | absent => exact ⟨undo, hid, h⟩
  | kept entries hentries =>
    refine ⟨undo, hid, h.transaction, h.tracked, h.calls, ?_, h.keyedFlows⟩
    exact h.flows.change cacheKey hentries rfl (.inr rfl) (.inr id)
  | dropped entries entries' hentries hdoes =>
    rw [h.touchFlow hid]
    obtain ⟨hmono, hself⟩ := mem_touched undo.touchedFlows cacheKey
    refine ⟨{ undo with touchedFlows := undo.touchedFlows.insert cacheKey }, hid, rfl, h.tracked,
      h.calls, ?_, h.keyedFlows⟩
    refine (h.flows.more_touched hmono).change cacheKey hentries
      (hdoes.original (Option.some_ne_none t)) (.inl hself) (.inr ?_)
    intro hlocal
    rw [hdoes.table] at hlocal
    obtain ⟨k, hk⟩ := hlocal
    rw [get_localValues] at hk
    exact ⟨k, hk⟩

/-- Setting shared entries leaves nothing more local. -/
theorem hasLocal_insertAll (inners : List T.FlowCacheInnerKey) (entry : T.FlowValue)
    (provenance : T.Provenance) : ∀ table : FlowTable T,
      (inners.foldl (fun (t : FlowTable T) inner => t.insert inner entry (some provenance))
        table).HasLocal → table.HasLocal := by
  induction inners with
  | nil => exact fun table h => h
  | cons inner inners ih =>
    intro table h
    obtain ⟨k, hk⟩ := ih (table.insert inner entry (some provenance)) h
    refine ⟨k, ?_⟩
    change Function.update table.localValues inner none k ≠ none at hk
    rw [Function.update_apply] at hk
    split_ifs at hk with heq
    · exact absurd rfl hk
    · exact hk

/-- The cache readied for an entry, and what the transaction knows then. -/
theorem readied (h : Tracking start undo c) (hid : undo.id = t) (cacheKey : T.VarRefCacheKey)
    (provenance : Option T.Provenance) :
    ∃ undo', undo'.id = t ∧
      Tracking start undo' (InferCache.readied (some t) c cacheKey provenance) ∧
      (c.flowNodeCache.lookup cacheKey = none → undo'.flows.lookup cacheKey ≠ none) ∧
      (provenance ≠ none → cacheKey ∈ undo'.touchedFlows) ∧
      (provenance = none →
        cacheKey ∈ (InferCache.readied (some t) c cacheKey provenance).flowLocalKeys) := by
  -- logged, if new
  have hnew : ∀ (c₁ : InferCache T) (undo₁ : CacheUndo T), undo₁.id = t →
      Tracking start undo₁ c₁ → c₁.flowNodeCache = c.flowNodeCache →
      ∃ undo', undo'.id = t ∧ Tracking start undo' (c₁.captureNewFlow (some t) cacheKey) ∧
        (c.flowNodeCache.lookup cacheKey = none → undo'.flows.lookup cacheKey ≠ none) ∧
        undo'.touchedFlows = undo₁.touchedFlows ∧
        (c₁.captureNewFlow (some t) cacheKey).flowLocalKeys = c₁.flowLocalKeys := by
    intro c₁ undo₁ hid₁ h₁ hsame
    unfold InferCache.captureNewFlow
    rw [h₁.activeUndo hid₁, hsame]
    split_ifs with habsent
    · rw [h₁.captureFlow hid₁]
      refine ⟨{ undo₁ with
        flows := capture TrackedMap.rollbackTransaction c₁.flowNodeCache undo₁.flows cacheKey },
        hid₁, ⟨rfl, h₁.tracked, h₁.calls, h₁.flows.capture cacheKey,
        h₁.keyedFlows⟩, fun _ => captured_capture _ c₁.flowNodeCache undo₁.flows cacheKey, rfl,
        rfl⟩
    · exact ⟨undo₁, hid₁, h₁, fun hnone => absurd ⟨rfl, hnone⟩ habsent, rfl, rfl⟩
  cases provenance with
  | none =>
    obtain ⟨undo', hid', h', hlogged, -, hkeys⟩ := hnew
      { c with flowLocalKeys := c.flowLocalKeys ++ [cacheKey] } undo hid
      ⟨h.transaction, h.tracked, h.calls, h.flows.more_listed fun k hk =>
        List.mem_append_left _ hk, h.keyedFlows⟩ rfl
    refine ⟨undo', hid', h', hlogged, fun hsome => absurd rfl hsome, fun _ => ?_⟩
    show cacheKey ∈ (InferCache.captureNewFlow (some t)
      { c with flowLocalKeys := c.flowLocalKeys ++ [cacheKey] } cacheKey).flowLocalKeys
    rw [hkeys]
    exact List.mem_append_right _ (.head _)
  | some provenance =>
    obtain ⟨hmono, hself⟩ := mem_touched undo.touchedFlows cacheKey
    have htouch : Tracking start { undo with
        touchedFlows := undo.touchedFlows.insert cacheKey } (c.touchFlow (some t) cacheKey) := by
      rw [h.touchFlow hid]
      exact ⟨rfl, h.tracked, h.calls, h.flows.more_touched hmono, h.keyedFlows⟩
    obtain ⟨undo', hid', h', hlogged, htouched, -⟩ := hnew (c.touchFlow (some t) cacheKey)
      { undo with touchedFlows := undo.touchedFlows.insert cacheKey } hid htouch
      (by rw [h.touchFlow hid])
    refine ⟨undo', hid', h', hlogged, fun _ => ?_, fun hnone => absurd hnone (by simp)⟩
    rw [htouched]
    exact hself

/-- **Entries set** are touched if shared, listed if local, and logged if their reference held
    none. -/
theorem setStep (h : Tracking start undo c) (hid : undo.id = t) {cacheKey : T.VarRefCacheKey}
    {visited : List T.FlowCacheInnerKey} {inner : T.FlowCacheInnerKey} {entry : T.FlowValue}
    {provenance : Option T.Provenance} {entries : FlowEntries T}
    (hdoes : TrackedMap.Does (some t)
      ((c.flowNodeCache.lookup cacheKey).getD TrackedMap.empty) entries
      ((visited ++ [inner]).foldl (fun t inner => t.insert inner entry provenance)
        ((c.contents.flows cacheKey).getD Table.empty)))
    (hundo : provenance = none →
      entries.undo = ((c.flowNodeCache.lookup cacheKey).getD TrackedMap.empty).undo) :
    ∃ undo', undo'.id = t ∧ Tracking start undo'
      { InferCache.readied (some t) c cacheKey provenance with
        flowNodeCache := c.flowNodeCache.insert cacheKey entries } := by
  obtain ⟨undo', hid', h', hlogged, htouched, hlocal⟩ := h.readied hid cacheKey provenance
  obtain ⟨transaction, hreadied⟩ :=
    @InferCache.readied_eq T (some t) c cacheKey provenance
  have hsame : (InferCache.readied (some t) c cacheKey provenance).flowNodeCache =
      c.flowNodeCache := by rw [hreadied]
  refine ⟨undo', hid', h'.transaction, h'.tracked, h'.calls, ?_, h'.keyedFlows⟩
  have hflows := h'.flows
  rw [hsame] at hflows
  cases hfound : c.flowNodeCache.lookup cacheKey with
  | none =>
    exact hflows.swap cacheKey (hlogged hfound) fun k hk => AList.lookup_insert_ne hk
  | some old =>
    have hold : (c.contents.flows cacheKey).getD Table.empty = old.table := by
      show ((c.flowNodeCache.lookup cacheKey).map TrackedMap.table).getD Table.empty = _
      rw [hfound]
      rfl
    rw [hfound] at hdoes hundo
    refine hflows.change cacheKey hfound (hdoes.original (Option.some_ne_none t)) ?_ ?_
    · cases provenance with
      | none => exact .inr (hundo rfl)
      | some provenance => exact .inl (htouched (Option.some_ne_none _))
    · cases provenance with
      | none => exact .inl (hlocal rfl)
      | some provenance =>
        refine .inr fun hhas => ?_
        rw [hdoes.table, hold] at hhas
        exact hasLocal_insertAll _ entry provenance old.table hhas

end Tracking

/-! ## §4. Evaluations -/

/-- **One operation** keeps what the transaction found. -/
theorem tracking_step {w w' : Walk T} (hw : w.Within (some t)) (h : Tracking start undo w.cache)
    (hid : undo.id = t) (op : Op T) (hstep : w.step (some t) op = some w') :
    ∃ undo', undo'.id = t ∧ Tracking start undo' w'.cache := by
  cases op with
  | tracked field op =>
    obtain ⟨m, hm, hdoes⟩ := TrackedMap.apply_does (hw.tracked field) op
    rw [Walk.step, hm] at hstep
    cases hstep
    refine ⟨undo, hid, h.transaction, ?_, h.calls, h.flows, h.keyedFlows⟩
    intro other
    show (Function.update w.cache.tracked field m other).original = _
    by_cases hother : other = field
    · subst hother
      rw [Function.update_self, hdoes.original (Option.some_ne_none t)]
      exact h.tracked other
    · rw [Function.update_of_ne hother]
      exact h.tracked other
  | getCall reuse key callExprType =>
    cases hstep
    exact h.callStep hid (w.cache.getCallFuncCache_spec reuse key callExprType).1
  | insertCall key callExprType entry provenance =>
    cases hstep
    exact h.callStep hid (w.cache.insertCallFuncCache_spec key callExprType entry provenance).1
  | removeCall key callExprType =>
    cases hstep
    exact h.callStep hid (w.cache.removeCallFuncCache_spec key callExprType).1
  | getFlow reuse cacheKey inner =>
    obtain ⟨c', hc', hread, -⟩ := w.cache.getFlowCache_spec reuse cacheKey inner
      (hw.flows cacheKey)
    rw [Walk.step, hc'] at hstep
    cases hstep
    exact h.readStep hid hread
  | setFlow cacheKey inner entry provenance =>
    obtain ⟨entries, hset, hdoes, hundo⟩ := w.cache.setFlowCacheBatch_spec cacheKey [] inner
      entry provenance (hw.flows cacheKey)
    rw [Walk.step, InferCache.setFlowCache_eq_batch, hset] at hstep
    cases hstep
    exact h.setStep hid hdoes hundo
  | setFlowBatch cacheKey visited inner entry provenance =>
    obtain ⟨entries, hset, hdoes, hundo⟩ := w.cache.setFlowCacheBatch_spec cacheKey visited
      inner entry provenance (hw.flows cacheKey)
    rw [Walk.step, hset] at hstep
    cases hstep
    exact h.setStep hid hdoes hundo
  | keyFlow cacheKey origin =>
    cases hstep
    exact h.swapStep hid (w.cache.keyFlowCache_spec cacheKey origin).1
  | unkeyFlow cacheKey origin place =>
    cases hstep
    exact h.swapStep hid (w.cache.unkeyFlowCache_spec cacheKey origin _).1
  | takeFlow cacheKey =>
    cases hstep
    exact h.takeStep hid (w.cache.takeFlowCacheForVarRef_spec cacheKey).1
  | restoreFlow cacheKey place =>
    cases hstep
    exact h.takeStep hid (w.cache.restoreFlowCacheForVarRef_spec cacheKey _).1
  | clear =>
    cases hstep
    exact ⟨undo, hid, h.transaction, h.tracked, h.calls, h.flows.clear, h.keyedFlows.clear⟩

/-- **An evaluation** keeps what the transaction found. -/
theorem tracking_run (ops : List (Op T)) : ∀ (w w' : Walk T) (undo : CacheUndo T),
    w.Within (some t) → Tracking start undo w.cache → undo.id = t →
    w.run (some t) ops = some w' → ∃ undo', undo'.id = t ∧ Tracking start undo' w'.cache := by
  induction ops with
  | nil =>
    intro w w' undo _ h hid hrun
    cases hrun
    exact ⟨undo, hid, h⟩
  | cons op ops ih =>
    intro w w' undo hw h hid hrun
    obtain ⟨w₁, hstep, hw₁, -⟩ := Walk.step_spec hw op
    obtain ⟨undo₁, hid₁, h₁⟩ := tracking_step hw h hid op hstep
    have hrest : (w.step (some t) op).bind (Walk.run (some t) ops) = some w' := hrun
    rw [hstep] at hrest
    exact ih w₁ w' undo₁ hw₁ h₁ hid₁ hrest

end GluaLs.Cache
