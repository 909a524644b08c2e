/-
  GluaLs.Cache.InferCache — a file's inference memo and its transactions
  (`semantic/cache/mod.rs`, `semantic/cache/transaction.rs`).

  Beside the eighteen memo maps a cache holds calls, each call site with a bucket of entries,
  and FLOW ENTRIES: a memo map for each variable reference, and one for each reference walked
  from a given origin.  A keyed walk swaps the two; what a reference held meanwhile is in the
  walker's hands.

  A transaction of a cache logs calls and flow entries as they were first found, and knows which
  flow entries logged something of their own:

    • `captureCall`, `captureFlow`, `captureKeyedFlow`, `touchFlow`,
    • `beginTransaction`, `commitTransaction`, `rollbackTransaction` — `none` is a failed
      assertion.

  Of the memo's other fields none is written here.
-/
import GluaLs.Lib.UndoLog

namespace GluaLs.Cache

open GluaLs.Lib

/-! ## §1. The map

  A value is SHARED when its provenance vouches for it, and LOCAL to the evaluation that
  computed it otherwise.  While a transaction is current, the first change of a shared entry
  logs what was there; a log belongs to one transaction, which the code asserts.

    • `get`, `insert`, `remove`, `clear`, `retain` — `none` is a failed assertion,
    • `rollbackTransaction`, `commitTransaction` — what ends the log.

  What a provenance is reused for (`reuse`) is the caller's to say.
-/

/-- `derivation::Reuse` -/
inductive Reuse where
  | held
  | stale
  | elsewhere
  deriving DecidableEq

structure SharedUndo (K V P : Type) [DecidableEq K] where
  transaction : Nat
  entries : UndoLog K (V × P)

structure TrackedMap (K V P : Type) [DecidableEq K] where
  shared : HashMap K (V × P)
  localValues : HashMap K V
  undo : Option (SharedUndo K V P)

section

variable {K V P : Type} [DecidableEq K]

/-- `default` -/
def TrackedMap.empty : TrackedMap K V P := ⟨∅, ∅, none⟩

def prepareUndo (undo : Option (SharedUndo K V P)) (transaction : Nat) :
    Option (SharedUndo K V P) :=
  let undo := undo.getD ⟨transaction, ∅⟩
  if undo.transaction = transaction then some undo else none

namespace TrackedMap

/-- `capture_shared_active`.  The entry found is moved to the log: the callers put another in
    its place, or drop it. -/
def captureSharedActive (m : TrackedMap K V P) (key : K) (transaction : Nat) :
    Option (TrackedMap K V P) :=
  (prepareUndo m.undo transaction).map fun undo =>
    match undo.entries.lookup key with
    | some _ => { m with undo := some undo }
    | none =>
      match m.shared.lookup key with
      | some value =>
        { m with
          shared := m.shared.erase key
          undo := some { undo with entries := undo.entries.insert key (some value) } }
      | none =>
        { m with undo := some { undo with entries := undo.entries.insert key none } }

def captureShared (current : Option Nat) (m : TrackedMap K V P) (key : K) :
    Option (TrackedMap K V P) :=
  match current with
  | some transaction => m.captureSharedActive key transaction
  | none => some m

def removeShared (current : Option Nat) (m : TrackedMap K V P) (key : K) :
    Option (TrackedMap K V P) :=
  (if current.isSome ∧ (m.shared.lookup key).isSome then m.captureShared current key
    else some m).map fun m => { m with shared := m.shared.erase key }

/-- `get_with_changes`: the map, the value, and whether a shared entry was dropped. -/
def getWithChanges (current : Option Nat) (reuse : P → Reuse) (m : TrackedMap K V P) (key : K) :
    Option (TrackedMap K V P × Option V × Bool) :=
  match m.localValues.lookup key with
  | some value => some (m, some value, false)
  | none =>
    match m.shared.lookup key with
    | none => some (m, none, false)
    | some (value, provenance) =>
      match reuse provenance with
      | .held => some (m, some value, false)
      | .stale => (m.removeShared current key).map fun m => (m, none, true)
      | .elsewhere => some (m, none, false)

def insert (current : Option Nat) (m : TrackedMap K V P) (key : K) (value : V)
    (provenance : Option P) : Option (TrackedMap K V P) :=
  match provenance with
  | some provenance =>
    (captureShared current { m with localValues := m.localValues.erase key } key).map fun m =>
      { m with shared := m.shared.insert key (value, provenance) }
  | none => some { m with localValues := m.localValues.insert key value }

def remove (current : Option Nat) (m : TrackedMap K V P) (key : K) : Option (TrackedMap K V P) :=
  removeShared current { m with localValues := m.localValues.erase key } key

def clearLocal (m : TrackedMap K V P) : TrackedMap K V P := { m with localValues := ∅ }

/-- The entries dropped go to the log, where they were not logged before. -/
def logDropped (undo : UndoLog K (V × P)) (dropped : List (Sigma fun _ : K => V × P)) :
    UndoLog K (V × P) :=
  dropped.foldl (fun undo entry => undo.orInsert entry.1 (some entry.2)) undo

def clear (current : Option Nat) (m : TrackedMap K V P) : Option (TrackedMap K V P) :=
  let m := { m with localValues := ∅ }
  if m.shared.entries.isEmpty then some m
  else
    match current with
    | some transaction =>
      (prepareUndo m.undo transaction).map fun undo =>
        { m with
          shared := ∅
          undo := some { undo with entries := logDropped undo.entries m.shared.entries } }
    | none => some { m with shared := ∅ }

/-- `retain`.  A log is made, and its transaction asserted, where an entry is dropped. -/
def retain (current : Option Nat) (keep : K → V → Bool) (m : TrackedMap K V P) :
    Option (TrackedMap K V P) :=
  let m := { m with
    localValues := m.localValues.filterMapEntries fun k v => if keep k v then some v else none }
  let kept := m.shared.filterMapEntries fun k v => if keep k v.1 then some v else none
  let dropped := m.shared.entries.filter fun entry => !keep entry.1 entry.2.1
  if m.shared.entries.isEmpty then some m
  else
    match current with
    | some transaction =>
      if dropped.isEmpty then some { m with shared := kept }
      else
        (prepareUndo m.undo transaction).map fun undo =>
          { m with
            shared := kept
            undo := some { undo with entries := logDropped undo.entries dropped } }
    | none => some { m with shared := kept }

def hasLocal (m : TrackedMap K V P) : Bool := !m.localValues.entries.isEmpty

def commitTransaction (m : TrackedMap K V P) : TrackedMap K V P := { m with undo := none }

def rollbackTransaction (m : TrackedMap K V P) : TrackedMap K V P where
  shared :=
    match m.undo with
    | some undo => restore m.shared undo.entries
    | none => m.shared
  localValues := ∅
  undo := none

end TrackedMap

end

/-- The operations of one map. -/
inductive TrackedOp (K V P : Type) where
  | get (key : K) (reuse : P → Reuse)
  | insert (key : K) (value : V) (provenance : Option P)
  | remove (key : K)
  | clear
  | clearLocal
  | retain (keep : K → V → Bool)

/-- One operation of one map. -/
def TrackedMap.apply {K V P : Type} [DecidableEq K] (current : Option Nat)
    (op : TrackedOp K V P) (m : TrackedMap K V P) : Option (TrackedMap K V P) :=
  match op with
  | .get key reuse => (m.getWithChanges current reuse key).map Prod.fst
  | .insert key value provenance => m.insert current key value provenance
  | .remove key => m.remove current key
  | .clear => m.clear current
  | .clearLocal => some m.clearLocal
  | .retain keep => m.retain current keep

/-! ## §2. What a cache holds -/

/-- The memo maps of a cache. -/
inductive TrackedField where
  | exprCache
  | memberQueryCache
  | callArgTypesCache
  | conditionFlowCache
  | flowNodeRealmCache
  | numericTableIndexQueryCache
  | branchSpecialCallEffectCache
  | constantExprCache
  | exprVarRefIdCache
  | selfTypeCache
  | dynamicFieldResolutionCache
  | exactTableMemberCache
  | localClassTableMemberIdsCache
  | dynamicFieldTypeCache
  | dynamicFieldDefinitionSyntaxCache
  | callReturnsNeverCache
  | ownerRawMemberTypeCache
  | gamemodeClassCache
  deriving DecidableEq

/-- The types of the keys and values, which the cache only compares and copies. -/
structure CacheTypes where
  Key : TrackedField → Type
  Value : TrackedField → Type
  Provenance : Type
  VarRefCacheKey : Type
  FlowCacheInnerKey : Type
  FlowValue : Type
  LuaType : Type
  CallKey : Type
  LuaFunctionType : Type
  [decKey : ∀ field, DecidableEq (Key field)]
  [decVarRef : DecidableEq VarRefCacheKey]
  [decInner : DecidableEq FlowCacheInnerKey]
  [decType : DecidableEq LuaType]
  [decCall : DecidableEq CallKey]

attribute [instance] CacheTypes.decKey CacheTypes.decVarRef CacheTypes.decInner
  CacheTypes.decType CacheTypes.decCall

section

variable (T : CacheTypes)

abbrev FlowEntries : Type := TrackedMap T.FlowCacheInnerKey T.FlowValue T.Provenance

abbrev KeyedFlowKey : Type := T.VarRefCacheKey × T.LuaType

abbrev CallBucket : Type := List (T.LuaType × T.LuaFunctionType × T.Provenance)

/-- A bucket of call resolutions only the evaluation that made them may use. -/
abbrev LocalBucket : Type := List (T.LuaType × T.LuaFunctionType)

structure CacheUndo where
  id : Nat
  calls : UndoLog T.CallKey (CallBucket T)
  flows : UndoLog T.VarRefCacheKey (FlowEntries T)
  keyedFlows : UndoLog (KeyedFlowKey T) (FlowEntries T)
  touchedFlows : List T.VarRefCacheKey

/-- `LuaInferCache` -/
structure InferCache where
  transaction : Option (CacheUndo T)
  tracked : (field : TrackedField) →
    TrackedMap (T.Key field) (T.Value field) T.Provenance
  callCache : HashMap T.CallKey (CallBucket T)
  callCacheLocal : HashMap T.CallKey (LocalBucket T)
  flowNodeCache : HashMap T.VarRefCacheKey (FlowEntries T)
  flowLocalKeys : List T.VarRefCacheKey
  keyedFlowNodeCache : HashMap (KeyedFlowKey T) (FlowEntries T)
  keyedFlowLocalKeys : List (KeyedFlowKey T)

end

namespace InferCache

variable {T : CacheTypes}

def new : InferCache T where
  transaction := none
  tracked _ := TrackedMap.empty
  callCache := ∅
  callCacheLocal := ∅
  flowNodeCache := ∅
  flowLocalKeys := []
  keyedFlowNodeCache := ∅
  keyedFlowLocalKeys := []

/-! ## §3. What a transaction logs -/

/-- `active_undo`: the transaction of the cache, if it is the thread's. -/
def activeUndo (current : Option Nat) (c : InferCache T) : Option (CacheUndo T) :=
  c.transaction.filter fun undo => some undo.id = current

/-- `capture_call`.  The source moves a bucket to the log and a clone of it back. -/
def captureCall (current : Option Nat) (c : InferCache T) (key : T.CallKey) : InferCache T :=
  match c.activeUndo current with
  | some undo =>
    { c with
      transaction := some { undo with calls := capture id c.callCache undo.calls key } }
  | none => c

/-- `capture_flow`: flow entries are logged as the transaction found them. -/
def captureFlow (current : Option Nat) (c : InferCache T) (key : T.VarRefCacheKey) : InferCache T :=
  match c.activeUndo current with
  | some undo =>
    { c with
      transaction := some { undo with
        flows := capture TrackedMap.rollbackTransaction c.flowNodeCache undo.flows key } }
  | none => c

def captureKeyedFlow (current : Option Nat) (c : InferCache T) (key : KeyedFlowKey T) :
    InferCache T :=
  match c.activeUndo current with
  | some undo =>
    { c with
      transaction := some { undo with
        keyedFlows :=
          capture TrackedMap.rollbackTransaction c.keyedFlowNodeCache undo.keyedFlows key } }
  | none => c

def touchFlow (current : Option Nat) (c : InferCache T) (key : T.VarRefCacheKey) : InferCache T :=
  match c.activeUndo current with
  | some undo =>
    { c with
      transaction := some { undo with touchedFlows := undo.touchedFlows.insert key } }
  | none => c

def captureNewFlow (current : Option Nat) (c : InferCache T) (key : T.VarRefCacheKey) :
    InferCache T :=
  if (c.activeUndo current).isSome ∧ c.flowNodeCache.lookup key = none then
    c.captureFlow current key
  else c

/-! ## §4. Calls -/

/-- `get_call_func_cache`, as far as it changes the cache. -/
def getCallFuncCache (current : Option Nat) (reuse : T.Provenance → Reuse) (c : InferCache T)
    (key : T.CallKey) (callExprType : T.LuaType) : InferCache T :=
  if ((c.callCacheLocal.lookup key).getD []).any fun entry => entry.1 = callExprType then c
  else
    match c.callCache.lookup key with
    | none => c
    | some bucket =>
      match bucket.findIdx? fun entry => entry.1 = callExprType with
      | none => c
      | some position =>
        match bucket[position]? with
        | none => c
        | some entry =>
          match reuse entry.2.2 with
          | .held => c
          | .elsewhere => c
          | .stale =>
            let c := c.captureCall current key
            { c with callCache := modify c.callCache key fun bucket => swapRemove bucket position }
where
  /-- `Vec::swap_remove` -/
  swapRemove (bucket : CallBucket T) (position : Nat) : CallBucket T :=
    match bucket.getLast? with
    | some last => (bucket.set position last).dropLast
    | none => bucket

/-- Puts an entry in the place of the one for the same type, or at the end. -/
def putByType {E : Type} (same : E → Bool) (bucket : List E) (entry : E) : List E :=
  match bucket.findIdx? same with
  | some position => bucket.set position entry
  | none => bucket ++ [entry]

def insertCallFuncCache (current : Option Nat) (c : InferCache T) (key : T.CallKey)
    (callExprType : T.LuaType) (entry : T.LuaFunctionType) (provenance : Option T.Provenance) :
    InferCache T :=
  match provenance with
  | none =>
    { c with
      callCacheLocal := c.callCacheLocal.insert key
        (putByType (fun entry => entry.1 = callExprType)
          ((c.callCacheLocal.lookup key).getD []) (callExprType, entry)) }
  | some provenance =>
    let c := { c with
      callCacheLocal := modify c.callCacheLocal key fun bucket =>
        bucket.filter fun entry => entry.1 ≠ callExprType }
    let c := c.captureCall current key
    { c with
      callCache := c.callCache.insert key
        (putByType (fun entry => entry.1 = callExprType)
          ((c.callCache.lookup key).getD []) (callExprType, entry, provenance)) }

def removeCallFuncCache (current : Option Nat) (c : InferCache T) (key : T.CallKey)
    (callExprType : T.LuaType) : InferCache T :=
  let c := { c with
    callCacheLocal := modify c.callCacheLocal key fun bucket =>
      bucket.filter fun entry => entry.1 ≠ callExprType }
  let c := c.captureCall current key
  match c.callCache.lookup key with
  | none => c
  | some bucket =>
    let bucket := bucket.filter fun entry => entry.1 ≠ callExprType
    if bucket.isEmpty then { c with callCache := c.callCache.erase key }
    else { c with callCache := c.callCache.insert key bucket }

/-! ## §5. Flow entries -/

/-- `get_flow_cache_with_origin_by_key`, as far as it changes the cache. -/
def getFlowCache (current : Option Nat) (reuse : T.Provenance → Reuse) (c : InferCache T)
    (cacheKey : T.VarRefCacheKey) (inner : T.FlowCacheInnerKey) : Option (InferCache T) :=
  match c.flowNodeCache.lookup cacheKey with
  | none => some c
  | some entries =>
    (entries.getWithChanges current reuse inner).map fun (entries, _, changed) =>
      let c := { c with flowNodeCache := c.flowNodeCache.insert cacheKey entries }
      if changed then c.touchFlow current cacheKey else c

/-- `set_flow_cache_batch_with_origin_by_key`: one entry for each flow node visited. -/
def setFlowCacheBatch (current : Option Nat) (c : InferCache T) (cacheKey : T.VarRefCacheKey)
    (visited : List T.FlowCacheInnerKey) (inner : T.FlowCacheInnerKey) (entry : T.FlowValue)
    (provenance : Option T.Provenance) : Option (InferCache T) :=
  let c :=
    if provenance.isNone then { c with flowLocalKeys := c.flowLocalKeys ++ [cacheKey] } else c
  let c := if provenance.isSome then c.touchFlow current cacheKey else c
  let c := c.captureNewFlow current cacheKey
  ((visited ++ [inner]).foldlM
      (fun (entries : FlowEntries T) inner => entries.insert current inner entry provenance)
      ((c.flowNodeCache.lookup cacheKey).getD TrackedMap.empty)).map fun entries =>
    { c with flowNodeCache := c.flowNodeCache.insert cacheKey entries }

/-- `set_flow_cache_with_origin_by_key` -/
def setFlowCache (current : Option Nat) (c : InferCache T) (cacheKey : T.VarRefCacheKey)
    (inner : T.FlowCacheInnerKey) (entry : T.FlowValue) (provenance : Option T.Provenance) :
    Option (InferCache T) :=
  let c :=
    if provenance.isNone then { c with flowLocalKeys := c.flowLocalKeys ++ [cacheKey] } else c
  let c := if provenance.isSome then c.touchFlow current cacheKey else c
  let c := c.captureNewFlow current cacheKey
  (((c.flowNodeCache.lookup cacheKey).getD TrackedMap.empty).insert current inner entry
      provenance).map fun entries =>
    { c with flowNodeCache := c.flowNodeCache.insert cacheKey entries }

/-- `key_flow_cache`: the cache, and what the reference held. -/
def keyFlowCache (current : Option Nat) (c : InferCache T) (cacheKey : T.VarRefCacheKey)
    (origin : T.LuaType) : InferCache T × Option (FlowEntries T) :=
  let keyedKey := (cacheKey, origin)
  let c := c.captureKeyedFlow current keyedKey
  let c := c.captureFlow current cacheKey
  let keyed := c.keyedFlowNodeCache.lookup keyedKey
  let c := { c with keyedFlowNodeCache := c.keyedFlowNodeCache.erase keyedKey }
  let previous := c.flowNodeCache.lookup cacheKey
  match keyed with
  | some keyed => ({ c with flowNodeCache := c.flowNodeCache.insert cacheKey keyed }, previous)
  | none => ({ c with flowNodeCache := c.flowNodeCache.erase cacheKey }, previous)

def unkeyFlowCache (current : Option Nat) (c : InferCache T) (cacheKey : T.VarRefCacheKey)
    (origin : T.LuaType) (previous : Option (FlowEntries T)) : InferCache T :=
  let c := c.captureFlow current cacheKey
  let keyedKey := (cacheKey, origin)
  let c := c.captureKeyedFlow current keyedKey
  let keyed := c.flowNodeCache.lookup cacheKey
  let c := { c with flowNodeCache := c.flowNodeCache.erase cacheKey }
  let c :=
    match keyed with
    | some keyed =>
      { c with
        keyedFlowLocalKeys :=
          if keyed.hasLocal then c.keyedFlowLocalKeys ++ [keyedKey] else c.keyedFlowLocalKeys
        keyedFlowNodeCache := c.keyedFlowNodeCache.insert keyedKey keyed }
    | none => c
  match previous with
  | some previous => { c with flowNodeCache := c.flowNodeCache.insert cacheKey previous }
  | none => c

def takeFlowCacheForVarRef (current : Option Nat) (c : InferCache T)
    (cacheKey : T.VarRefCacheKey) : InferCache T × Option (FlowEntries T) :=
  let c := c.captureFlow current cacheKey
  ({ c with flowNodeCache := c.flowNodeCache.erase cacheKey }, c.flowNodeCache.lookup cacheKey)

def restoreFlowCacheForVarRef (current : Option Nat) (c : InferCache T)
    (cacheKey : T.VarRefCacheKey) (previous : Option (FlowEntries T)) : InferCache T :=
  let c := c.captureFlow current cacheKey
  match previous with
  | some previous => { c with flowNodeCache := c.flowNodeCache.insert cacheKey previous }
  | none => { c with flowNodeCache := c.flowNodeCache.erase cacheKey }

/-- `clear`: drops what only one evaluation may use.  Flow entries are looked for where the
    lists of local keys say. -/
def clear (c : InferCache T) : InferCache T :=
  { c with
    tracked := fun field => (c.tracked field).clearLocal
    callCacheLocal := ∅
    flowNodeCache := c.flowLocalKeys.foldl
      (fun cache key => modify cache key TrackedMap.clearLocal) c.flowNodeCache
    flowLocalKeys := []
    keyedFlowNodeCache := c.keyedFlowLocalKeys.foldl
      (fun cache key => modify cache key TrackedMap.clearLocal) c.keyedFlowNodeCache
    keyedFlowLocalKeys := [] }

end InferCache

/-! ## §6. Transactions -/

/-- What a thread knows: the transaction open on it, and the next number. -/
structure Thread where
  current : Option Nat
  next : Nat

namespace InferCache

variable {T : CacheTypes}

/-- `begin_transaction`: the thread while the guard stands, and the cache. -/
def beginTransaction (thread : Thread) (c : InferCache T) : Option (Thread × InferCache T) :=
  if c.transaction.isNone ∧ thread.current.isNone then
    some ({ current := some thread.next, next := thread.next + 1 },
      { c with transaction := some ⟨thread.next, ∅, ∅, ∅, []⟩ })
  else none

/-- The guard is dropped: the thread is as before, and numbers stay used. -/
def dropGuard (previous : Option Nat) (thread : Thread) : Thread :=
  { thread with current := previous }

/-- `finish_tracked_transaction` of one kind of flow entries. -/
def finishFlows {K : Type} [DecidableEq K] (finish : FlowEntries T → FlowEntries T)
    (keys : List K) (cache : HashMap K (FlowEntries T)) : HashMap K (FlowEntries T) :=
  keys.foldl (fun cache key => modify cache key finish) cache

def finishTrackedTransaction (rollback : Bool) (c : InferCache T) : InferCache T :=
  let finish := fun {K V : Type} [DecidableEq K] (m : TrackedMap K V T.Provenance) =>
    if rollback then m.rollbackTransaction else m.commitTransaction
  let c := { c with tracked := fun field => finish (c.tracked field) }
  match c.transaction with
  | some undo =>
    { c with
      flowNodeCache :=
        finishFlows finish (undo.touchedFlows ++ undo.flows.keys) c.flowNodeCache
      keyedFlowNodeCache := finishFlows finish undo.keyedFlows.keys c.keyedFlowNodeCache }
  | none => c

def commitTransaction (thread : Thread) (c : InferCache T) : Option (InferCache T) :=
  if thread.current.isNone then
    some { c.finishTrackedTransaction false with transaction := none }
  else none

def rollbackTransaction (thread : Thread) (c : InferCache T) : Option (InferCache T) :=
  if thread.current.isNone then
    let c := c.finishTrackedTransaction true
    let c :=
      match c.transaction with
      | some undo =>
        { c with
          transaction := none
          callCache := restore c.callCache undo.calls
          flowNodeCache := restore c.flowNodeCache undo.flows
          keyedFlowNodeCache := restore c.keyedFlowNodeCache undo.keyedFlows }
      | none => c
    some c.clear
  else none

end InferCache

end GluaLs.Cache
