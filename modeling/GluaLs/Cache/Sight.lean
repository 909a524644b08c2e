/-
  GluaLs.Cache.Sight — an evaluation is the same under a transaction and without one.

  What each operation does to what is seen of a cache does not depend on the transaction: the
  logs change beside it.  While every log belongs to the current transaction no assertion fails,
  and this stays so:

    • `step_spec` — one operation,
    • `run_spec` — an evaluation.
-/
import GluaLs.Cache.Walk

namespace GluaLs.Cache

open GluaLs.Lib Function TrackedMap

variable {T : CacheTypes} {current : Option Nat}

/-! ## §1. Tables of flow entries -/

section

variable {K : Type} [DecidableEq K] (cache : HashMap K (FlowEntries T))

theorem flowTables_insert (k : K) (entries : FlowEntries T) :
    flowTables (cache.insert k entries) =
      update (flowTables cache) k (some entries.table) := by
  funext k'
  unfold flowTables
  rw [lookup_insert_ite, update_apply]
  split_ifs with hk
  · rfl
  · rfl

theorem flowTables_erase (k : K) :
    flowTables (cache.erase k) = update (flowTables cache) k none := by
  funext k'
  unfold flowTables
  rw [lookup_erase_ite, update_apply]
  split_ifs with hk
  · rfl
  · rfl

/-- What is known under a key replaced, or dropped. -/
def setTo {V : Type} (cache : HashMap K V) (k : K) : Option V → HashMap K V
  | some value => cache.insert k value
  | none => cache.erase k

theorem setTo_erase {V : Type} (cache : HashMap K V) (k : K) (value : V) :
    (cache.erase k).insert k value = setTo cache k (some value) := by
  apply AList.ext
  show ⟨k, value⟩ :: ((cache.erase k).erase k).entries = ⟨k, value⟩ :: (cache.erase k).entries
  rw [erase_eq_self _ k (AList.lookup_erase k cache)]

theorem lookup_setTo_ne {V : Type} (cache : HashMap K V) (k : K) (value : Option V) {k' : K}
    (hk : k' ≠ k) : (setTo cache k value).lookup k' = cache.lookup k' := by
  cases value with
  | some value => exact AList.lookup_insert_ne hk
  | none => exact AList.lookup_erase_ne hk

theorem flowTables_setTo (k : K) (entries : Option (FlowEntries T)) :
    flowTables (setTo cache k entries) =
      update (flowTables cache) k (entries.map table) := by
  cases entries with
  | some entries => exact flowTables_insert cache k entries
  | none => exact flowTables_erase cache k

theorem flowTables_clearListed (keys : List K) :
    flowTables (keys.foldl (fun cache key => modify cache key clearLocal) cache) =
      Contents.clearListed keys (flowTables cache) := by
  funext k
  unfold flowTables Contents.clearListed
  rw [lookup_foldl_modify clearLocal (fun _ => rfl)]
  split_ifs with hk
  · rw [Option.map_map, Option.map_map]
    rfl
  · rfl

end

theorem hasLocal_iff {K V P : Type} [DecidableEq K] (m : TrackedMap K V P) :
    m.hasLocal = true ↔ m.table.HasLocal := by
  unfold hasLocal Table.HasLocal
  cases hentries : m.localValues.entries with
  | nil =>
    refine ⟨fun h => Bool.noConfusion h, fun h => ?_⟩
    obtain ⟨k, hk⟩ := h
    refine absurd ?_ hk
    show m.localValues.entries.dlookup k = none
    rw [hentries]
    rfl
  | cons entry entries =>
    refine ⟨fun _ => ⟨entry.1, ?_⟩, fun _ => rfl⟩
    show m.localValues.entries.dlookup entry.1 ≠ none
    rw [hentries, List.dlookup_cons_eq]
    exact Option.some_ne_none _

/-! ## §2. What is logged beside -/

namespace InferCache

variable (c : InferCache T)

theorem captureCall_eq (key : T.CallKey) :
    ∃ transaction, c.captureCall current key = { c with transaction := transaction } := by
  unfold captureCall
  cases c.activeUndo current with
  | none => exact ⟨c.transaction, rfl⟩
  | some undo => exact ⟨_, rfl⟩

theorem captureFlow_eq (key : T.VarRefCacheKey) :
    ∃ transaction, c.captureFlow current key = { c with transaction := transaction } := by
  unfold captureFlow
  cases c.activeUndo current with
  | none => exact ⟨c.transaction, rfl⟩
  | some undo => exact ⟨_, rfl⟩

theorem captureKeyedFlow_eq (key : KeyedFlowKey T) :
    ∃ transaction, c.captureKeyedFlow current key = { c with transaction := transaction } := by
  unfold captureKeyedFlow
  cases c.activeUndo current with
  | none => exact ⟨c.transaction, rfl⟩
  | some undo => exact ⟨_, rfl⟩

theorem touchFlow_eq (key : T.VarRefCacheKey) :
    ∃ transaction, c.touchFlow current key = { c with transaction := transaction } := by
  unfold touchFlow
  cases c.activeUndo current with
  | none => exact ⟨c.transaction, rfl⟩
  | some undo => exact ⟨_, rfl⟩

theorem captureNewFlow_eq (key : T.VarRefCacheKey) :
    ∃ transaction, c.captureNewFlow current key = { c with transaction := transaction } := by
  unfold captureNewFlow
  split_ifs with h
  · exact captureFlow_eq c key
  · exact ⟨c.transaction, rfl⟩

/-! ## §3. Calls -/

theorem lookup_modify_update {K V : Type} [DecidableEq K] (s : HashMap K V) (k : K) (f : V → V) :
    (modify s k f).lookup = update s.lookup k ((s.lookup k).map f) := by
  funext k'
  rw [lookup_modify, update_apply]

/-- A call operation changes local calls, and one bucket after it is logged. -/
inductive CallStep (current : Option Nat) (c : InferCache T) (key : T.CallKey) :
    InferCache T → Prop where
  | unlogged (localCalls : HashMap T.CallKey (LocalBucket T)) :
      CallStep current c key { c with callCacheLocal := localCalls }
  | logged (calls : HashMap T.CallKey (CallBucket T))
      (localCalls : HashMap T.CallKey (LocalBucket T))
      (hcalls : ∀ k, k ≠ key → calls.lookup k = c.callCache.lookup k) :
      CallStep current c key { c.captureCall current key with
        callCache := calls
        callCacheLocal := localCalls }

theorem captureCall_local (localCalls : HashMap T.CallKey (LocalBucket T)) (key : T.CallKey) :
    captureCall current { c with callCacheLocal := localCalls } key =
      { c.captureCall current key with callCacheLocal := localCalls } := by
  have hundo : activeUndo current { c with callCacheLocal := localCalls } =
      c.activeUndo current := rfl
  unfold captureCall
  rw [hundo]
  cases c.activeUndo current with
  | none => rfl
  | some undo => rfl

theorem getCallFuncCache_spec (reuse : T.Provenance → Reuse) (key : T.CallKey)
    (callExprType : T.LuaType) :
    CallStep current c key (c.getCallFuncCache current reuse key callExprType) ∧
      (c.getCallFuncCache current reuse key callExprType).contents =
        c.contents.getCall reuse key callExprType := by
  have hself : CallStep current c key c := .unlogged c.callCacheLocal
  have hlocal : c.contents.localCalls key = c.callCacheLocal.lookup key := rfl
  have hcalls : c.contents.calls key = c.callCache.lookup key := rfl
  unfold getCallFuncCache Contents.getCall
  rw [hlocal, hcalls]
  split_ifs with hfound
  · exact ⟨hself, rfl⟩
  · cases hbucket : c.callCache.lookup key with
    | none => exact ⟨hself, rfl⟩
    | some bucket =>
      dsimp only
      cases bucket.findIdx? fun entry => entry.1 = callExprType with
      | none => exact ⟨hself, rfl⟩
      | some position =>
        dsimp only
        cases bucket[position]? with
        | none => exact ⟨hself, rfl⟩
        | some entry =>
          dsimp only
          cases reuse entry.2.2 with
          | held => exact ⟨hself, rfl⟩
          | elsewhere => exact ⟨hself, rfl⟩
          | stale =>
            obtain ⟨transaction, htransaction⟩ := @captureCall_eq T current c key
            refine ⟨?_, ?_⟩
            · have hlocalCalls : (c.captureCall current key).callCacheLocal =
                  c.callCacheLocal := by rw [htransaction]
              refine .logged (modify (c.captureCall current key).callCache key
                fun bucket => getCallFuncCache.swapRemove bucket position)
                (c.captureCall current key).callCacheLocal ?_
              intro k hk
              rw [lookup_modify, if_neg hk, htransaction]
            · rw [if_pos rfl, htransaction]
              show Contents.mk _ (modify c.callCache key _).lookup _ _ _ _ _ = _
              rw [lookup_modify_update, hbucket]
              rfl

theorem insertCallFuncCache_spec (key : T.CallKey) (callExprType : T.LuaType)
    (entry : T.LuaFunctionType) (provenance : Option T.Provenance) :
    CallStep current c key (c.insertCallFuncCache current key callExprType entry provenance) ∧
      (c.insertCallFuncCache current key callExprType entry provenance).contents =
        c.contents.insertCall key callExprType entry provenance := by
  cases provenance with
  | none =>
    refine ⟨.unlogged _, ?_⟩
    show Contents.mk _ _ (c.callCacheLocal.insert key _).lookup _ _ _ _ = _
    rw [lookup_insert_update]
    rfl
  | some provenance =>
    obtain ⟨transaction, htransaction⟩ := @captureCall_eq T current c key
    unfold insertCallFuncCache
    dsimp only
    rw [captureCall_local]
    refine ⟨.logged _ _ ?_, ?_⟩
    · intro k hk
      rw [AList.lookup_insert_ne hk, htransaction]
    · rw [htransaction]
      show Contents.mk _ (c.callCache.insert key _).lookup
        (modify c.callCacheLocal key _).lookup _ _ _ _ = _
      rw [lookup_insert_update, lookup_modify_update]
      rfl

theorem removeCallFuncCache_spec (key : T.CallKey) (callExprType : T.LuaType) :
    CallStep current c key (c.removeCallFuncCache current key callExprType) ∧
      (c.removeCallFuncCache current key callExprType).contents =
        c.contents.removeCall key callExprType := by
  obtain ⟨transaction, htransaction⟩ := @captureCall_eq T current c key
  have hcalls : c.contents.calls key = c.callCache.lookup key := rfl
  have hsame : (c.captureCall current key).callCache = c.callCache := by rw [htransaction]
  unfold removeCallFuncCache Contents.removeCall
  dsimp only
  rw [captureCall_local, hcalls]
  dsimp only
  rw [hsame]
  cases hbucket : c.callCache.lookup key with
  | none =>
    refine ⟨.logged c.callCache _ (fun _ _ => rfl), ?_⟩
    · have hnone : update c.contents.calls key none = c.contents.calls := by
        rw [← hbucket]
        exact update_eq_self key c.contents.calls
      rw [htransaction, Option.bind_none, hnone]
      show Contents.mk _ c.callCache.lookup (modify c.callCacheLocal key _).lookup _ _ _ _ = _
      rw [lookup_modify_update]
      rfl
  | some bucket =>
    dsimp only
    rw [Option.bind_some]
    split_ifs with hempty
    · refine ⟨.logged _ _ ?_, ?_⟩
      · intro k hk
        exact AList.lookup_erase_ne hk
      · rw [htransaction]
        show Contents.mk _ (c.callCache.erase key).lookup
          (modify c.callCacheLocal key _).lookup _ _ _ _ = _
        rw [lookup_erase_update, lookup_modify_update]
        rfl
    · refine ⟨.logged _ _ ?_, ?_⟩
      · intro k hk
        exact AList.lookup_insert_ne hk
      · rw [htransaction]
        show Contents.mk _ (c.callCache.insert key _).lookup
          (modify c.callCacheLocal key _).lookup _ _ _ _ = _
        rw [lookup_insert_update, lookup_modify_update]
        rfl

/-! ## §4. Flow entries -/

/-- A read of flow entries drops at most one, and the reference is touched if it does. -/
inductive ReadStep (current : Option Nat) (reuse : T.Provenance → Reuse) (c : InferCache T)
    (cacheKey : T.VarRefCacheKey) (inner : T.FlowCacheInnerKey) : InferCache T → Prop where
  | absent : ReadStep current reuse c cacheKey inner c
  | kept (entries : FlowEntries T) (hentries : c.flowNodeCache.lookup cacheKey = some entries) :
      ReadStep current reuse c cacheKey inner
        { c with flowNodeCache := c.flowNodeCache.insert cacheKey entries }
  | dropped (entries entries' : FlowEntries T)
      (hentries : c.flowNodeCache.lookup cacheKey = some entries)
      (hdoes : TrackedMap.Does current entries entries' (entries.table.get reuse inner)) :
      ReadStep current reuse c cacheKey inner
        { c.touchFlow current cacheKey with
          flowNodeCache := c.flowNodeCache.insert cacheKey entries' }

theorem touchFlow_flows (flows : HashMap T.VarRefCacheKey (FlowEntries T))
    (key : T.VarRefCacheKey) :
    touchFlow current { c with flowNodeCache := flows } key =
      { c.touchFlow current key with flowNodeCache := flows } := by
  have hundo : activeUndo current { c with flowNodeCache := flows } = c.activeUndo current := rfl
  unfold touchFlow
  rw [hundo]
  cases c.activeUndo current with
  | none => rfl
  | some undo => rfl

theorem getFlowCache_spec (reuse : T.Provenance → Reuse) (cacheKey : T.VarRefCacheKey)
    (inner : T.FlowCacheInnerKey)
    (hc : ∀ entries, c.flowNodeCache.lookup cacheKey = some entries → entries.Within current) :
    ∃ c', c.getFlowCache current reuse cacheKey inner = some c' ∧
      ReadStep current reuse c cacheKey inner c' ∧
      c'.contents = { c.contents with
        flows := update c.contents.flows cacheKey
          ((c.contents.flows cacheKey).map fun t => t.get reuse inner) } := by
  have hflows : c.contents.flows cacheKey = (c.flowNodeCache.lookup cacheKey).map
    table := rfl
  unfold getFlowCache
  cases hentries : c.flowNodeCache.lookup cacheKey with
  | none =>
    refine ⟨c, rfl, .absent, ?_⟩
    rw [hentries] at hflows
    rw [hflows]
    show _ = { c.contents with flows := update c.contents.flows cacheKey none }
    rw [← show c.contents.flows cacheKey = none from hflows, update_eq_self]
  | some entries =>
    obtain ⟨entries', value, changed, hget, hdoes, hsame⟩ :=
      getWithChanges_does (hc entries hentries) reuse inner
    have hcontents : flowTables (c.flowNodeCache.insert cacheKey entries') =
        update c.contents.flows cacheKey
          ((c.contents.flows cacheKey).map fun t => t.get reuse inner) := by
      rw [flowTables_insert, hdoes.table, hflows, hentries]
      rfl
    dsimp only
    rw [hget, ← hcontents]
    cases changed with
    | false =>
      refine ⟨_, rfl, ?_, rfl⟩
      rw [hsame rfl]
      exact .kept entries hentries
    | true =>
      obtain ⟨transaction, htransaction⟩ := @touchFlow_eq T current
        { c with flowNodeCache := c.flowNodeCache.insert cacheKey entries' } cacheKey
      refine ⟨_, rfl, ?_, ?_⟩
      · show ReadStep current reuse c cacheKey inner (touchFlow current _ cacheKey)
        rw [touchFlow_flows]
        exact .dropped entries entries' hentries hdoes
      · show (touchFlow current _ cacheKey).contents = _
        rw [htransaction]
        rfl

/-- The cache before the entry is set: its reference is listed, touched, or logged as new. -/
def readied (current : Option Nat) (c : InferCache T) (cacheKey : T.VarRefCacheKey)
    (provenance : Option T.Provenance) : InferCache T :=
  let c :=
    if provenance.isNone then { c with flowLocalKeys := c.flowLocalKeys ++ [cacheKey] } else c
  let c := if provenance.isSome then c.touchFlow current cacheKey else c
  c.captureNewFlow current cacheKey

theorem readied_eq (cacheKey : T.VarRefCacheKey) (provenance : Option T.Provenance) :
    ∃ transaction, readied current c cacheKey provenance =
      { c with
        transaction := transaction
        flowLocalKeys :=
          if provenance.isNone then c.flowLocalKeys ++ [cacheKey] else c.flowLocalKeys } := by
  unfold readied
  cases provenance with
  | none => exact captureNewFlow_eq _ cacheKey
  | some provenance =>
    obtain ⟨t₁, h₁⟩ := @touchFlow_eq T current c cacheKey
    obtain ⟨t₂, h₂⟩ := @captureNewFlow_eq T current
      (c.touchFlow current cacheKey) cacheKey
    refine ⟨t₂, ?_⟩
    show (c.touchFlow current cacheKey).captureNewFlow current cacheKey = _
    rw [h₂, h₁]
    rfl

theorem setFlowCache_eq_batch (cacheKey : T.VarRefCacheKey) (inner : T.FlowCacheInnerKey)
    (entry : T.FlowValue) (provenance : Option T.Provenance) :
    c.setFlowCache current cacheKey inner entry provenance =
      c.setFlowCacheBatch current cacheKey [] inner entry provenance := by
  unfold setFlowCache setFlowCacheBatch
  dsimp only
  rw [List.nil_append, List.foldlM_cons]
  simp only [List.foldlM_nil, bind_pure]

theorem setFlowCacheBatch_spec (cacheKey : T.VarRefCacheKey) (visited : List T.FlowCacheInnerKey)
    (inner : T.FlowCacheInnerKey) (entry : T.FlowValue) (provenance : Option T.Provenance)
    (hc : ∀ entries, c.flowNodeCache.lookup cacheKey = some entries → entries.Within current) :
    ∃ entries, c.setFlowCacheBatch current cacheKey visited inner entry provenance =
        some { readied current c cacheKey provenance with
          flowNodeCache := c.flowNodeCache.insert cacheKey entries } ∧
      Does current ((c.flowNodeCache.lookup cacheKey).getD empty) entries
        ((visited ++ [inner]).foldl (fun t inner => t.insert inner entry provenance)
          ((c.contents.flows cacheKey).getD Table.empty)) ∧
      (provenance = none →
        entries.undo = ((c.flowNodeCache.lookup cacheKey).getD empty).undo) := by
  have hwithin : ((c.flowNodeCache.lookup cacheKey).getD empty).Within current := by
    cases hentries : c.flowNodeCache.lookup cacheKey with
    | none =>
      intro undo h
      cases h
    | some entries => exact hc entries hentries
  have htable : ((c.flowNodeCache.lookup cacheKey).getD empty).table =
      (c.contents.flows cacheKey).getD Table.empty := by
    show _ = ((c.flowNodeCache.lookup cacheKey).map table).getD Table.empty
    cases c.flowNodeCache.lookup cacheKey with
    | none => rfl
    | some entries => rfl
  obtain ⟨entries, hall, hdoes, hundo⟩ := insertAll_does entry provenance
    (visited ++ [inner]) _ hwithin
  rw [htable] at hdoes
  obtain ⟨transaction, htransaction⟩ := @readied_eq T current c cacheKey provenance
  have hsame : (readied current c cacheKey provenance).flowNodeCache = c.flowNodeCache := by
    rw [htransaction]
  refine ⟨entries, ?_, hdoes, hundo⟩
  unfold setFlowCacheBatch
  show Option.map _ (List.foldlM _ (((readied current c cacheKey provenance).flowNodeCache.lookup
    cacheKey).getD empty) _) = _
  rw [hsame, hall]
  show some ({ readied current c cacheKey provenance with
    flowNodeCache := (readied current c cacheKey provenance).flowNodeCache.insert cacheKey
      entries } : InferCache T) = _
  rw [hsame]

/-- The cache after a reference's entries are logged, plain and under an origin. -/
def captured (current : Option Nat) (c : InferCache T) (cacheKey : T.VarRefCacheKey)
    (origin : T.LuaType) : InferCache T :=
  (c.captureKeyedFlow current (cacheKey, origin)).captureFlow current cacheKey

/-- Flow entries are swapped after they are logged. -/
structure SwapStep (current : Option Nat) (c : InferCache T) (cacheKey : T.VarRefCacheKey)
    (origin : T.LuaType) (c' : InferCache T) : Prop where
  frame : ∃ flows keyedFlows keyedFlowLocalKeys, c' =
    { c with
      transaction := (captured current c cacheKey origin).transaction
      flowNodeCache := flows
      keyedFlowNodeCache := keyedFlows
      keyedFlowLocalKeys := keyedFlowLocalKeys }
  flows : ∀ k, k ≠ cacheKey → c'.flowNodeCache.lookup k = c.flowNodeCache.lookup k
  keyedFlows : ∀ k, k ≠ (cacheKey, origin) →
    c'.keyedFlowNodeCache.lookup k = c.keyedFlowNodeCache.lookup k
  listed : ∀ k ∈ c.keyedFlowLocalKeys, k ∈ c'.keyedFlowLocalKeys

/-- The same, of entries taken or put back. -/
structure TakeStep (current : Option Nat) (c : InferCache T) (cacheKey : T.VarRefCacheKey)
    (c' : InferCache T) : Prop where
  frame : ∃ flows, c' = { c with
    transaction := (c.captureFlow current cacheKey).transaction
    flowNodeCache := flows }
  flows : ∀ k, k ≠ cacheKey → c'.flowNodeCache.lookup k = c.flowNodeCache.lookup k

section

variable (cacheKey : T.VarRefCacheKey) (origin : T.LuaType)

theorem captured_eq :
    captured current c cacheKey origin =
      { c with transaction := (captured current c cacheKey origin).transaction } := by
  obtain ⟨t₁, h₁⟩ := @captureKeyedFlow_eq T current c (cacheKey, origin)
  obtain ⟨t₂, h₂⟩ := @captureFlow_eq T current
    (c.captureKeyedFlow current (cacheKey, origin)) cacheKey
  unfold captured
  rw [h₂, h₁]

/-- The two logs are different ones. -/
theorem captured_comm :
    (c.captureFlow current cacheKey).captureKeyedFlow current (cacheKey, origin) =
      captured current c cacheKey origin := by
  obtain ⟨transaction, tracked, calls, localCalls, flows, locals, keyed, keyedLocals⟩ := c
  unfold captured captureFlow captureKeyedFlow activeUndo
  cases transaction with
  | none => rfl
  | some undo =>
    by_cases hid : some undo.id = current
    · simp only [Option.filter_some, hid, decide_true, if_true]
    · simp only [Option.filter_some, hid, decide_false, Bool.false_eq_true, if_false]

theorem keyFlowCache_eq :
    c.keyFlowCache current cacheKey origin =
      ({ c with
        transaction := (captured current c cacheKey origin).transaction
        keyedFlowNodeCache := c.keyedFlowNodeCache.erase (cacheKey, origin)
        flowNodeCache :=
          setTo c.flowNodeCache cacheKey (c.keyedFlowNodeCache.lookup (cacheKey, origin)) },
        c.flowNodeCache.lookup cacheKey) := by
  unfold keyFlowCache
  dsimp only
  rw [show (c.captureKeyedFlow current (cacheKey, origin)).captureFlow current cacheKey =
    captured current c cacheKey origin from rfl, captured_eq]
  cases c.keyedFlowNodeCache.lookup (cacheKey, origin) with
  | some keyed => rfl
  | none => rfl

theorem keyFlowCache_spec :
    SwapStep current c cacheKey origin (c.keyFlowCache current cacheKey origin).1 ∧
      (c.keyFlowCache current cacheKey origin).1.contents = { c.contents with
        flows := update c.contents.flows cacheKey
          (c.contents.keyedFlows (cacheKey, origin))
        keyedFlows := update c.contents.keyedFlows (cacheKey, origin) none } := by
  rw [keyFlowCache_eq]
  refine ⟨⟨⟨_, _, _, rfl⟩, ?_, ?_, fun k hk => hk⟩, ?_⟩
  · exact fun k hk => lookup_setTo_ne c.flowNodeCache cacheKey _ hk
  · exact fun k hk => AList.lookup_erase_ne hk
  · apply Contents.ext
    any_goals rfl
    · exact flowTables_setTo c.flowNodeCache cacheKey _
    · exact flowTables_erase c.keyedFlowNodeCache (cacheKey, origin)

theorem unkeyFlowCache_eq (previous : Option (FlowEntries T)) :
    c.unkeyFlowCache current cacheKey origin previous =
      { c with
        transaction := (captured current c cacheKey origin).transaction
        keyedFlowLocalKeys :=
          match c.flowNodeCache.lookup cacheKey with
          | some keyed =>
            if keyed.hasLocal then c.keyedFlowLocalKeys ++ [(cacheKey, origin)]
            else c.keyedFlowLocalKeys
          | none => c.keyedFlowLocalKeys
        keyedFlowNodeCache :=
          match c.flowNodeCache.lookup cacheKey with
          | some keyed => c.keyedFlowNodeCache.insert (cacheKey, origin) keyed
          | none => c.keyedFlowNodeCache
        flowNodeCache := setTo c.flowNodeCache cacheKey previous } := by
  unfold unkeyFlowCache
  dsimp only
  rw [captured_comm, captured_eq]
  cases previous with
  | some previous =>
    rw [← setTo_erase]
    cases c.flowNodeCache.lookup cacheKey <;> rfl
  | none => cases c.flowNodeCache.lookup cacheKey <;> rfl

end

section

variable (cacheKey : T.VarRefCacheKey)

theorem unkeyFlowCache_spec (origin : T.LuaType) (previous : Option (FlowEntries T)) :
    SwapStep current c cacheKey origin (c.unkeyFlowCache current cacheKey origin previous) ∧
      (c.unkeyFlowCache current cacheKey origin previous).contents =
        c.contents.unkeyFlow cacheKey origin (previous.map table) := by
  rw [unkeyFlowCache_eq]
  have hflows : c.contents.flows cacheKey = (c.flowNodeCache.lookup cacheKey).map
    table := rfl
  refine ⟨⟨⟨_, _, _, rfl⟩, ?_, ?_, ?_⟩, ?_⟩
  · exact fun k hk => lookup_setTo_ne c.flowNodeCache cacheKey previous hk
  · intro k hk
    cases c.flowNodeCache.lookup cacheKey with
    | some keyed => exact AList.lookup_insert_ne hk
    | none => rfl
  · intro k hk
    cases c.flowNodeCache.lookup cacheKey with
    | some keyed =>
      show k ∈ if _ then _ else _
      split_ifs with hlocal
      · exact List.mem_append_left _ hk
      · exact hk
    | none => exact hk
  · unfold Contents.unkeyFlow
    rw [hflows]
    cases c.flowNodeCache.lookup cacheKey with
    | some keyed =>
      apply Contents.ext
      any_goals rfl
      · exact flowTables_setTo c.flowNodeCache cacheKey previous
      · exact flowTables_insert c.keyedFlowNodeCache (cacheKey, origin) keyed
      · show (if keyed.hasLocal = true then _ else _) = _
        by_cases hlocal : keyed.hasLocal = true
        · rw [if_pos hlocal]
          exact (if_pos ((hasLocal_iff keyed).1 hlocal)).symm
        · rw [if_neg hlocal]
          exact (if_neg fun h => hlocal ((hasLocal_iff keyed).2 h)).symm
    | none =>
      apply Contents.ext
      any_goals rfl
      exact flowTables_setTo c.flowNodeCache cacheKey previous

theorem takeStep_setTo (entries : Option (FlowEntries T)) {c' : InferCache T}
    (hc' : c' = { c with
      transaction := (c.captureFlow current cacheKey).transaction
      flowNodeCache := setTo c.flowNodeCache cacheKey entries }) :
    TakeStep current c cacheKey c' ∧ c'.contents = { c.contents with
      flows := update c.contents.flows cacheKey (entries.map table) } := by
  subst hc'
  refine ⟨⟨⟨_, rfl⟩, fun k hk => lookup_setTo_ne c.flowNodeCache cacheKey entries hk⟩, ?_⟩
  apply Contents.ext
  any_goals rfl
  exact flowTables_setTo c.flowNodeCache cacheKey entries

theorem takeFlowCacheForVarRef_eq :
    c.takeFlowCacheForVarRef current cacheKey =
      ({ c with
        transaction := (c.captureFlow current cacheKey).transaction
        flowNodeCache := setTo c.flowNodeCache cacheKey none },
        c.flowNodeCache.lookup cacheKey) := by
  obtain ⟨transaction, htransaction⟩ := @captureFlow_eq T current c cacheKey
  unfold takeFlowCacheForVarRef
  rw [htransaction]
  rfl

theorem takeFlowCacheForVarRef_spec :
    TakeStep current c cacheKey (c.takeFlowCacheForVarRef current cacheKey).1 ∧
      (c.takeFlowCacheForVarRef current cacheKey).1.contents = { c.contents with
        flows := update c.contents.flows cacheKey none } :=
  c.takeStep_setTo cacheKey none (congrArg Prod.fst (c.takeFlowCacheForVarRef_eq cacheKey))

theorem restoreFlowCacheForVarRef_eq (previous : Option (FlowEntries T)) :
    c.restoreFlowCacheForVarRef current cacheKey previous =
      { c with
        transaction := (c.captureFlow current cacheKey).transaction
        flowNodeCache := setTo c.flowNodeCache cacheKey previous } := by
  obtain ⟨transaction, htransaction⟩ := @captureFlow_eq T current c cacheKey
  unfold restoreFlowCacheForVarRef
  rw [htransaction]
  cases previous with
  | some previous => rfl
  | none => rfl

theorem restoreFlowCacheForVarRef_spec (previous : Option (FlowEntries T)) :
    TakeStep current c cacheKey (c.restoreFlowCacheForVarRef current cacheKey previous) ∧
      (c.restoreFlowCacheForVarRef current cacheKey previous).contents = { c.contents with
        flows := update c.contents.flows cacheKey
          (previous.map table) } :=
  c.takeStep_setTo cacheKey previous (c.restoreFlowCacheForVarRef_eq cacheKey previous)

end

theorem clear_contents : c.clear.contents = c.contents.clear := by
  apply Contents.ext
  any_goals rfl
  · exact flowTables_clearListed c.flowNodeCache c.flowLocalKeys
  · exact flowTables_clearListed c.keyedFlowNodeCache c.keyedFlowLocalKeys

/-- A call operation leaves all but calls. -/
theorem CallStep.frame {c c' : InferCache T} {key : T.CallKey} (h : CallStep current c key c') :
    c'.tracked = c.tracked ∧ c'.flowNodeCache = c.flowNodeCache ∧
      c'.flowLocalKeys = c.flowLocalKeys ∧ c'.keyedFlowNodeCache = c.keyedFlowNodeCache ∧
      c'.keyedFlowLocalKeys = c.keyedFlowLocalKeys := by
  cases h with
  | unlogged localCalls => exact ⟨rfl, rfl, rfl, rfl, rfl⟩
  | logged calls localCalls hcalls =>
    obtain ⟨transaction, htransaction⟩ := @captureCall_eq T current c key
    rw [htransaction]
    exact ⟨rfl, rfl, rfl, rfl, rfl⟩

end InferCache

/-! ## §5. Evaluations -/

section

variable {K : Type} [DecidableEq K] {cache : HashMap K (FlowEntries T)}

section

variable (hcache : ∀ k entries, cache.lookup k = some entries → entries.Within current)
include hcache

/-- Entries put in keep every log within the current transaction. -/
theorem within_insert {key : K} {entries : FlowEntries T} (hentries : entries.Within current) :
    ∀ k found, (cache.insert key entries).lookup k = some found → found.Within current := by
  intro k found hfound
  obtain ⟨-, rfl⟩ | ⟨-, hfound⟩ := lookup_insert_some hfound
  · exact hentries
  · exact hcache k found hfound

theorem within_erase (key : K) :
    ∀ k found, (cache.erase key).lookup k = some found → found.Within current := by
  intro k found hfound
  exact hcache k found (lookup_erase_some hfound).2

theorem within_setTo (key : K) {entries : Option (FlowEntries T)}
    (hentries : ∀ found, entries = some found → found.Within current) :
    ∀ k found, (setTo cache key entries).lookup k = some found → found.Within current := by
  cases entries with
  | some entries => exact within_insert hcache (hentries entries rfl)
  | none => exact within_erase hcache key

theorem within_clearListed (keys : List K) :
    ∀ k found, (keys.foldl (fun cache key => modify cache key clearLocal)
      cache).lookup k = some found → found.Within current := by
  intro k found hfound
  rw [lookup_foldl_modify clearLocal (fun _ => rfl)] at hfound
  split_ifs at hfound with hk
  · obtain ⟨entries, hentries, hclear⟩ := Option.map_eq_some_iff.1 hfound
    rw [← hclear]
    exact within_of_undo (hcache k entries hentries) rfl
  · exact hcache k found hfound

end

end

namespace Walk

section

variable {w : Walk T} (hw : w.Within current)
include hw

/-- What is in hand is within the current transaction. -/
theorem Within.inHand {place : Nat} {entries : FlowEntries T}
    (h : (w.hands[place]?).join = some entries) : entries.Within current := by
  refine hw.hands entries ?_
  rw [Option.join_eq_some_iff] at h
  exact List.mem_of_getElem? h

theorem Within.eraseIdx (place : Nat) :
    ∀ entries, some entries ∈ w.hands.eraseIdx place → entries.Within current :=
  fun entries h => hw.hands entries (List.mem_of_mem_eraseIdx h)

theorem Within.hold (cacheKey : T.VarRefCacheKey) :
    ∀ entries, some entries ∈ w.cache.flowNodeCache.lookup cacheKey :: w.hands →
      entries.Within current := by
  intro entries h
  obtain h | h := List.mem_cons.1 h
  · exact hw.flows cacheKey entries h.symm
  · exact hw.hands entries h

theorem Within.callStep {key : T.CallKey}
    {c : InferCache T} (h : InferCache.CallStep current w.cache key c) :
    Within current { w with cache := c } := by
  obtain ⟨htracked, hflows, -, hkeyed, -⟩ := h.frame
  refine ⟨?_, ?_, ?_, hw.hands⟩
  · rw [htracked]
    exact hw.tracked
  · rw [hflows]
    exact hw.flows
  · rw [hkeyed]
    exact hw.keyedFlows

end

theorem join_inHand (w : Walk T) (place : Nat) :
    (w.sight.2[place]?).join = ((w.hands[place]?).join).map table := by
  show ((w.hands.map fun held => held.map table)[place]?).join = _
  rw [List.getElem?_map]
  cases w.hands[place]? with
  | none => rfl
  | some held => rfl

theorem eraseIdx_inHand (w : Walk T) (place : Nat) :
    w.sight.2.eraseIdx place =
      (w.hands.eraseIdx place).map fun held => held.map table :=
  (List.eraseIdx_map _ _ _)

theorem setFlowBatch_spec {w : Walk T} (hw : w.Within current) (cacheKey : T.VarRefCacheKey)
    (visited : List T.FlowCacheInnerKey) (inner : T.FlowCacheInnerKey) (entry : T.FlowValue)
    (provenance : Option T.Provenance) :
    ∃ w', ((w.cache.setFlowCacheBatch current cacheKey visited inner entry provenance).map
        fun c => ({ w with cache := c } : Walk T)) = some w' ∧ w'.Within current ∧
      w'.sight = (w.cache.contents.setFlow cacheKey (visited ++ [inner]) entry provenance,
        w.sight.2) := by
  obtain ⟨entries, hset, hdoes, -⟩ := w.cache.setFlowCacheBatch_spec cacheKey visited inner entry
    provenance (hw.flows cacheKey)
  obtain ⟨transaction, htransaction⟩ :=
    @InferCache.readied_eq T current w.cache cacheKey provenance
  refine ⟨_, congrArg (Option.map _) hset, ?_, ?_⟩
  · rw [htransaction]
    exact ⟨hw.tracked, within_insert hw.flows hdoes.within, hw.keyedFlows, hw.hands⟩
  · rw [htransaction]
    show (Contents.mk _ _ _ (flowTables (w.cache.flowNodeCache.insert cacheKey entries)) _ _ _,
      _) = _
    rw [flowTables_insert, hdoes.table]
    rfl

/-- **One operation**: no assertion fails, every log stays within the current transaction, and
    what is seen changes as it does without one. -/
theorem step_spec {w : Walk T} (hw : w.Within current) (op : Op T) :
    ∃ w', w.step current op = some w' ∧ w'.Within current ∧ w'.sight = op.onSight w.sight := by
  cases op with
  | tracked field op =>
    obtain ⟨m, hm, hdoes⟩ := apply_does (hw.tracked field) op
    refine ⟨_, congrArg (Option.map _) hm, ⟨?_, hw.flows, hw.keyedFlows, hw.hands⟩, ?_⟩
    · intro other
      by_cases hother : other = field
      · subst hother
        show (update w.cache.tracked other m other).Within current
        rw [update_self]
        exact hdoes.within
      · show (update w.cache.tracked field m other).Within current
        rw [update_of_ne hother]
        exact hw.tracked other
    · have htables : (fun other => (update w.cache.tracked field m other).table) =
          update w.cache.contents.tracked field
            (op.onTable (w.cache.contents.tracked field)) := by
        funext other
        rw [apply_update (fun _ m => table m), hdoes.table]
        rfl
      show (Contents.mk (fun other => (update w.cache.tracked field m other).table)
        _ _ _ _ _ _, _) = _
      rw [htables]
      rfl
  | getCall reuse key callExprType =>
    obtain ⟨hstep, hcontents⟩ := @InferCache.getCallFuncCache_spec T current w.cache reuse key
      callExprType
    exact ⟨_, rfl, hw.callStep hstep, congrArg (fun c => (c, _)) hcontents⟩
  | insertCall key callExprType entry provenance =>
    obtain ⟨hstep, hcontents⟩ := @InferCache.insertCallFuncCache_spec T current w.cache key
      callExprType entry provenance
    exact ⟨_, rfl, hw.callStep hstep, congrArg (fun c => (c, _)) hcontents⟩
  | removeCall key callExprType =>
    obtain ⟨hstep, hcontents⟩ := @InferCache.removeCallFuncCache_spec T current w.cache key
      callExprType
    exact ⟨_, rfl, hw.callStep hstep, congrArg (fun c => (c, _)) hcontents⟩
  | getFlow reuse cacheKey inner =>
    obtain ⟨c', hc', hread, hcontents⟩ := w.cache.getFlowCache_spec reuse cacheKey inner
      (hw.flows cacheKey)
    refine ⟨_, congrArg (Option.map _) hc', ?_, congrArg (fun c => (c, _)) hcontents⟩
    cases hread with
    | absent => exact hw
    | kept entries hentries =>
      exact ⟨hw.tracked, within_insert hw.flows (hw.flows cacheKey entries hentries),
        hw.keyedFlows, hw.hands⟩
    | dropped entries entries' hentries hdoes =>
      obtain ⟨transaction, htransaction⟩ := @InferCache.touchFlow_eq T current w.cache cacheKey
      rw [htransaction]
      exact ⟨hw.tracked, within_insert hw.flows hdoes.within, hw.keyedFlows, hw.hands⟩
  | setFlow cacheKey inner entry provenance =>
    have hbatch := setFlowBatch_spec hw cacheKey [] inner entry provenance
    rw [← InferCache.setFlowCache_eq_batch] at hbatch
    exact hbatch
  | setFlowBatch cacheKey visited inner entry provenance =>
    exact setFlowBatch_spec hw cacheKey visited inner entry provenance
  | keyFlow cacheKey origin =>
    obtain ⟨-, hcontents⟩ := @InferCache.keyFlowCache_spec T current w.cache cacheKey origin
    have heq := @InferCache.keyFlowCache_eq T current w.cache cacheKey origin
    refine ⟨⟨(w.cache.keyFlowCache current cacheKey origin).1,
      (w.cache.keyFlowCache current cacheKey origin).2 :: w.hands⟩, rfl, ?_, ?_⟩
    · rw [heq]
      exact ⟨hw.tracked, within_setTo hw.flows cacheKey (hw.keyedFlows _),
        within_erase hw.keyedFlows _, hw.hold cacheKey⟩
    · show ((w.cache.keyFlowCache current cacheKey origin).1.contents, _) = _
      rw [hcontents, heq]
      rfl
  | unkeyFlow cacheKey origin place =>
    obtain ⟨-, hcontents⟩ := @InferCache.unkeyFlowCache_spec T current w.cache cacheKey origin
      (w.hands[place]?).join
    refine ⟨_, rfl, ?_, ?_⟩
    · rw [InferCache.unkeyFlowCache_eq]
      refine ⟨hw.tracked, within_setTo hw.flows cacheKey fun _ h => hw.inHand h, ?_,
        hw.eraseIdx place⟩
      · show ∀ k entries, AList.lookup k (match w.cache.flowNodeCache.lookup cacheKey with
          | some keyed => w.cache.keyedFlowNodeCache.insert (cacheKey, origin) keyed
          | none => w.cache.keyedFlowNodeCache) = some entries → _
        cases hkeyed : w.cache.flowNodeCache.lookup cacheKey with
        | some keyed => exact within_insert hw.keyedFlows (hw.flows cacheKey keyed hkeyed)
        | none => exact hw.keyedFlows
    · show ((w.cache.unkeyFlowCache current cacheKey origin _).contents, _) = _
      rw [hcontents]
      show _ = (w.cache.contents.unkeyFlow cacheKey origin (w.sight.2[place]?).join,
        w.sight.2.eraseIdx place)
      rw [join_inHand, eraseIdx_inHand]
  | takeFlow cacheKey =>
    obtain ⟨-, hcontents⟩ := @InferCache.takeFlowCacheForVarRef_spec T current w.cache cacheKey
    have heq := @InferCache.takeFlowCacheForVarRef_eq T current w.cache cacheKey
    refine ⟨⟨(w.cache.takeFlowCacheForVarRef current cacheKey).1,
      (w.cache.takeFlowCacheForVarRef current cacheKey).2 :: w.hands⟩, rfl, ?_, ?_⟩
    · rw [heq]
      exact ⟨hw.tracked, within_setTo hw.flows cacheKey nofun, hw.keyedFlows, hw.hold cacheKey⟩
    · show ((w.cache.takeFlowCacheForVarRef current cacheKey).1.contents, _) = _
      rw [hcontents, heq]
      rfl
  | restoreFlow cacheKey place =>
    obtain ⟨-, hcontents⟩ := @InferCache.restoreFlowCacheForVarRef_spec T current w.cache cacheKey
      (w.hands[place]?).join
    refine ⟨⟨w.cache.restoreFlowCacheForVarRef current cacheKey (w.hands[place]?).join,
      w.hands.eraseIdx place⟩, rfl, ?_, ?_⟩
    · rw [InferCache.restoreFlowCacheForVarRef_eq]
      exact ⟨hw.tracked, within_setTo hw.flows cacheKey (fun _ h => hw.inHand h), hw.keyedFlows,
        hw.eraseIdx place⟩
    · show ((w.cache.restoreFlowCacheForVarRef current cacheKey _).contents, _) = _
      rw [hcontents]
      show _ = ({ w.cache.contents with
        flows := update w.cache.contents.flows cacheKey (w.sight.2[place]?).join },
        w.sight.2.eraseIdx place)
      rw [join_inHand, eraseIdx_inHand]
  | clear =>
    refine ⟨_, rfl, ⟨?_, within_clearListed hw.flows _, within_clearListed hw.keyedFlows _,
      hw.hands⟩, congrArg (fun c => (c, _)) w.cache.clear_contents⟩
    exact fun field => within_of_undo (hw.tracked field) rfl

/-- **An evaluation** goes through, and what it sees does not depend on the transaction. -/
theorem run_spec (ops : List (Op T)) : ∀ w : Walk T, w.Within current →
    ∃ w', w.run current ops = some w' ∧ w'.Within current ∧
      w'.sight = ops.foldl (fun s op => op.onSight s) w.sight := by
  induction ops with
  | nil => exact fun w hw => ⟨w, rfl, hw, rfl⟩
  | cons op ops ih =>
    intro w hw
    obtain ⟨w₁, hstep, hw₁, hsight⟩ := step_spec hw op
    obtain ⟨w₂, hrun, hw₂, hsights⟩ := ih w₁ hw₁
    refine ⟨w₂, ?_, hw₂, ?_⟩
    · show (w.step current op).bind (run current ops) = _
      rw [hstep]
      exact hrun
    · rw [hsights, hsight]
      rfl

end Walk

end GluaLs.Cache
