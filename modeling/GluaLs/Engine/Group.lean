/-
  GluaLs.Engine.Group — evaluating a group of co-producers (`compilation/analyzer/engine.rs`).

  A primary key several derivations write is rebuilt by running all of them again, in
  canonical order, on its source-layer value.  A run of the group resets each primary key
  its members wrote at one of three moments (`GroupResets`); a run that shows two members
  writing a key not reset before either of them is DISCARDED, and the group runs again with
  that key, and everything the discarded run wrote, reset first.

  The store is the index's primary facts; every other key is a view of them.  What a
  reset of one key moves and notes as written besides (`FactIndex.resetNotes`) is a
  parameter: it depends on the thirty indexes of the database.  Fingerprints, stamps and the
  reads of a record play no part in which keys are reset and are left out.
-/
import GluaLs.Lib.FiniteMap
import GluaLs.Lib.Program
import GluaLs.Vfs.FileId

namespace GluaLs.Engine

open GluaLs.Lib

/-! ## §1. Kinds (`db_index/derivation/mod.rs`) -/

/-- What a derivation derives, in the order a cold build evaluates kinds in. -/
inductive DerivationKind where
  | Source
  | GmodHelperScan
  | GmodCallRoles
  | NetHelperNames
  | GmodLoadCallSites
  | GmodPre
  | GmodLoad
  | ValidGuardScan
  | ValidGuards
  | Guard
  | LocalStat
  | AssignStat
  | ForRangeStat
  | FuncStat
  | LocalFuncStat
  | TableField
  | Closure
  | Call
  | Setmetatable
  | ChunkReturn
  | GmodClassCallSites
  | GmodPost
  | VguiRelations
  | VguiChains
  | AccessorFunc
  | DynamicFieldWrite
  | SetmetatableFactory
  | CallTarget
  | ReceiverAuthority
  | CallbackParams
  | CallSiteParam
  | CallSiteParams
  | LocalFallbacks
  | NetCall
  | NetHelper
  | NetFlows
  | Diagnostics
  deriving DecidableEq, Repr

/-! ## §2. Ids -/

/-- One derivation: a recipe kind applied at a syntax site of a file. -/
structure DerivationId where
  kind : DerivationKind
  fileId : FileId
  syntaxKind : UInt16
  start : UInt32
  stop : UInt32
  deriving DecidableEq, Repr

namespace DerivationId

/-- A derivation of a whole file, which has no syntax site of its own. -/
def ofFile (kind : DerivationKind) (file : UInt32) : DerivationId := ⟨kind, ⟨file⟩, 0, 0, 0⟩

end DerivationId

/-! ## §3. The index and its records -/

/-- The facts of the index: the primary keys are the stored ones. -/
structure FactIndex (K V : Type) extends Layout K V where
  /-- `reset_fact`, by the source-layer values and the facts: it restores the key, and notes
      every other primary key it moves. -/
  resetFact : (K → V) → (K → V) → K → K → V
  /-- The keys `reset_fact key` notes as written. -/
  resetNotes : K → (K → V) → List K
  resetFact_self : ∀ source facts key, isStored key = true →
    resetFact source facts key key = source key
  resetFact_other : ∀ source facts key other, isStored other = true → other ≠ key →
    other ∉ resetNotes key facts → resetFact source facts key other = facts other
  /-- The order a hash set of keys is iterated in. -/
  iter : List K → List K
  mem_iter : ∀ (keys : List K) (key : K), key ∈ iter keys ↔ key ∈ keys

/-- Whether the key holds one value that writes overwrite, as opposed to a view. -/
abbrev FactIndex.isPrimary {K V : Type} (ix : FactIndex K V) : K → Bool := ix.isStored

/-- What each derivation last wrote. -/
structure ReaderGraph (K : Type) where
  records : HashMap DerivationId (List K)

/-- The facts, the source-layer value a reset restores of each, and the records. -/
structure DbIndex (K V : Type) where
  facts : K → V
  source : K → V
  graph : ReaderGraph K

/-- What evaluating each derivation does. -/
abbrev Recipe (K V : Type) : Type := DerivationId → Program K V

section

variable {K V : Type} [DecidableEq K]

namespace ReaderGraph

def outputsOf (graph : ReaderGraph K) (id : DerivationId) : List K :=
  (graph.records.lookup id).getD []

def producers (graph : ReaderGraph K) (key : K) : List DerivationId :=
  (graph.records.entries.filter fun e => key ∈ e.2).map Sigma.fst

/-- Replaces the record of `id`. -/
def replace (graph : ReaderGraph K) (id : DerivationId) (outputs : List K) : ReaderGraph K :=
  { records := graph.records.insert id outputs }

end ReaderGraph

namespace FactIndex

variable (ix : FactIndex K V) (source : K → V)

/-- Resets `keys` in turn; returns the facts with every key the resets noted as written
    (`capture_writes`). -/
def resetAll : (K → V) → List K → (K → V) × List K
  | facts, [] => (facts, [])
  | facts, key :: rest =>
    let r := resetAll (ix.resetFact source facts key) rest
    (r.1, ix.resetNotes key facts ++ r.2)

end FactIndex

/-! ## §4. When a run resets each key -/

/-- When a group run resets each primary key its members wrote. -/
structure GroupResets (K : Type) where
  front : List K
  own : List (List K)
  joint : List (List K)

/-- The keys reset only as a member runs. -/
def GroupResets.deferred (resets : GroupResets K) : List K :=
  (resets.own ++ resets.joint).flatten

/-- The keys placed so far, with those of the member being placed. -/
structure Placing (K : Type) where
  placed : List K
  front : List K
  own : List K
  joint : List K

section

variable (ix : FactIndex K V) (graph : ReaderGraph K) (shared discarded : List K)

/-- Places one primary output of the member at `position`, unless an earlier one had it. -/
def place (position : Nat) (member : DerivationId) (acc : Placing K) (key : K) : Placing K :=
  if key ∈ acc.placed then acc
  else if position = 0 ∨ key ∈ shared ∨ key ∈ discarded then
    { acc with placed := key :: acc.placed, front := key :: acc.front }
  else if ∀ producer ∈ graph.producers key,
      producer = member ∨ producer.kind = DerivationKind.Source then
    { acc with placed := key :: acc.placed, own := acc.own ++ [key] }
  else
    { acc with placed := key :: acc.placed, joint := acc.joint ++ [key] }

/-- The primary outputs on record of a member. -/
def primaryOutputs (member : DerivationId) : List K :=
  (graph.outputsOf member).filter fun key => ix.isPrimary key

/-- Places the outputs of the members from `position` on. -/
def placeMembers : Nat → List DerivationId → List K → List K → GroupResets K
  | _, [], _, front => ⟨front, [], []⟩
  | position, member :: rest, placed, front =>
    let acc := (primaryOutputs ix graph member).foldl
      (place graph shared discarded position member) ⟨placed, front, [], []⟩
    let r := placeMembers (position + 1) rest acc.placed acc.front
    { r with own := acc.own :: r.own, joint := acc.joint :: r.joint }

/-- Which keys a run of `group` resets when. -/
def groupResets (group : List DerivationId) : GroupResets K :=
  if group.length = 1 then
    ⟨[], List.replicate group.length [], List.replicate group.length []⟩
  else
    let r := placeMembers ix graph shared discarded 0 group [] []
    { r with front := r.front ++ discarded.filter fun key => ix.isPrimary key }

end

/-! ## §5. One run of the members -/

/-- One member's evaluation, with the keys reset in this run before it. -/
structure Evaluation (K V : Type) where
  id : DerivationId
  log : Log K V
  resetBefore : List K

namespace Evaluation

def outputs (e : Evaluation K V) : List K := e.log.outputs

/-- The keys the evaluation re-filed without producing them. -/
def moved (e : Evaluation K V) : List K := e.log.marks

end Evaluation

/-- A run of the members under way.  `resetKeys` holds every key reset in this run so far,
    `reset` the position each key counts as reset from, and `writers` the first writer of
    each primary key written before it was reset. -/
structure RunState (K V : Type) where
  facts : K → V
  resetKeys : List K
  reset : HashMap K Nat
  cleared : List K
  writers : HashMap K Nat
  evaluations : List (Evaluation K V)

/-- `entry(key).or_insert(position)` -/
def orInsert (m : HashMap K Nat) (position : Nat) (key : K) : HashMap K Nat :=
  if (m.lookup key).isSome then m else m.insert key position

/-- Notes that the member at `position` wrote `key`, and whether another wrote it first. -/
def noteWriter (position : Nat) (acc : HashMap K Nat × List K) (key : K) : HashMap K Nat × List K :=
  match acc.1.lookup key with
  | none => (acc.1.insert key position, acc.2)
  | some first => if first = position then acc else (acc.1, key :: acc.2)

section

variable (ix : FactIndex K V) (source : K → V) (recipe : Recipe K V)

/-- Resets the keys a run defers to the member at `position`. -/
def RunState.resetMember (st : RunState K V) (position : Nat) (own joint : List K) : RunState K V :=
  let r := ix.resetAll source st.facts own
  let rj := ix.resetAll source r.1 joint
  { st with
    facts := rj.1
    resetKeys := st.resetKeys ++ own ++ joint
    reset := (joint ++ rj.2).foldl (fun m key => orInsert m position key) st.reset
    cleared := st.cleared ∪ (r.2 ∪ rj.2) }

/-- Evaluates the member at `position`; returns the keys it shows two members writing. -/
def RunState.evaluate (st : RunState K V) (position : Nat) (member : DerivationId) :
    RunState K V × List K :=
  let r := (recipe member).run ix.toLayout st.facts
  let written := r.2.outputs.filter fun key => ix.isPrimary key && !(st.reset.lookup key).isSome
  let noted := written.foldl (noteWriter position) (st.writers, [])
  ({ st with
      facts := r.1
      writers := noted.1
      evaluations := st.evaluations ++ [⟨member, r.2, st.resetKeys⟩] },
    noted.2)

/-- Runs the members from `position` on, each with the keys deferred to it.  Stops at the
    first sign that two members write a primary key not reset before either ran. -/
def runGroup : Nat → List (DerivationId × List K × List K) → RunState K V →
    RunState K V × List K
  | _, [], st => (st, [])
  | position, (member, own, joint) :: rest, st =>
    let taken := (own ++ joint).filter fun key => (st.writers.lookup key).isSome
    if taken ≠ [] then (st, taken)
    else
      let r := (st.resetMember ix source position own joint).evaluate ix recipe position member
      if r.2 ≠ [] then r
      else runGroup (position + 1) rest r.1

end

/-! ## §6. Running a group until no run is discarded -/

/-- What the runs of one evaluation left so far. -/
structure LoopState (K V : Type) where
  facts : K → V
  touched : List K
  shared : List K
  discarded : List K

/-- A finished evaluation of a group: the index, every key it touched, what discarded runs
    wrote, and the evaluations of the run that went through. -/
structure GroupRun (K V : Type) where
  db : DbIndex K V
  touched : List K
  discarded : List K
  evaluations : List (Evaluation K V)

section

variable (ix : FactIndex K V) (source : K → V) (recipe : Recipe K V) (graph : ReaderGraph K)
  (group : List DerivationId)

/-- The members' outputs on record and the keys in `also`. -/
def outputsAnd (also : List K) : List K :=
  group.foldl (fun keys member => keys ∪ graph.outputsOf member) also

/-- Resets the members' primary outputs and the primary keys in `also`, but `deferred`.
    Returns the facts, the keys touched, the keys reset and what the resets wrote. -/
def resetOutputs (facts : K → V) (also deferred : List K) : (K → V) × List K × List K × List K :=
  let touched := outputsAnd graph group also
  let resets := (ix.iter touched).filter fun key =>
    ix.isPrimary key && !decide (key ∈ deferred)
  let r := ix.resetAll source facts resets
  (r.1, touched ∪ r.2, resets, r.2)

/-- The members with the keys deferred to each. -/
def steps (resets : GroupResets K) : List (DerivationId × List K × List K) :=
  group.zip (resets.own.zip resets.joint)

/-- The map of keys counted as reset before the first member. -/
def resetAtFront (keys : List K) : HashMap K Nat :=
  keys.foldl (fun m key => m.insert key 0) ∅

/-- What the evaluations of a run wrote or moved. -/
def writtenBy (evaluations : List (Evaluation K V)) : List K :=
  evaluations.flatMap fun e => e.outputs ++ e.moved

/-- Replaces the records of `evaluations`. -/
def record (evaluations : List (Evaluation K V)) : ReaderGraph K :=
  evaluations.foldl (fun graph e => graph.replace e.id e.outputs.dedup) graph

/-- One turn of the loop of `evaluate_group`: the run, the keys that stopped it, and what
    it touched. -/
def groupPass (st : LoopState K V) : RunState K V × List K × List K :=
  let resets := groupResets ix graph st.shared st.discarded group
  let r := resetOutputs ix source graph group st.facts st.discarded resets.deferred
  let front := if group.length > 1 then resets.front ∪ r.2.2.2 else resets.front
  let run := runGroup ix source recipe 0 (steps group resets)
    { facts := r.1, resetKeys := r.2.2.1, reset := resetAtFront front, cleared := [],
      writers := ∅, evaluations := [] }
  (run.1, run.2, st.touched ∪ r.2.1 ∪ run.1.cleared)

/-- The loop of `evaluate_group`, at most `fuel` times. -/
def evaluateGroupLoop : Nat → LoopState K V → Option (GroupRun K V)
  | 0, _ => none
  | fuel + 1, st =>
    let pass := groupPass ix source recipe graph group st
    let wrote := writtenBy pass.1.evaluations
    if pass.2.1 = [] then
      some ⟨⟨pass.1.facts, source, record graph pass.1.evaluations⟩, pass.2.2 ∪ wrote,
        st.discarded, pass.1.evaluations⟩
    else
      let discarded := st.discarded ∪ wrote
      evaluateGroupLoop fuel
        ⟨pass.1.facts, pass.2.2 ∪ discarded, st.shared ∪ pass.2.1, discarded⟩

/-- One turn of the loop of `evaluate_on_worker`. -/
def workerPass (st : LoopState K V) : RunState K V × List K × List K :=
  let resets := groupResets ix graph st.shared st.discarded group
  let outputs := outputsAnd graph group st.discarded
  let resetKeys := (ix.iter outputs).filter fun key =>
    ix.isPrimary key && !decide (key ∈ resets.deferred)
  let r := ix.resetAll source st.facts resetKeys
  let reset := if group.length > 1 then resetAtFront (resets.front ++ r.2) else ∅
  let run := runGroup ix source recipe 0 (steps group resets)
    { facts := r.1, resetKeys := resetKeys, reset := reset, cleared := [],
      writers := ∅, evaluations := [] }
  (run.1, run.2, st.touched ∪ outputs ∪ r.2 ∪ run.1.cleared ∪ writtenBy run.1.evaluations)

/-- The loop of `evaluate_on_worker`, at most `fuel` times. -/
def evaluateOnWorkerLoop : Nat → LoopState K V → Option (GroupRun K V)
  | 0, _ => none
  | fuel + 1, st =>
    let pass := workerPass ix source recipe graph group st
    if pass.2.1 = [] then
      some ⟨⟨pass.1.facts, source, graph⟩, pass.2.2, st.discarded, pass.1.evaluations⟩
    else
      let discarded := st.discarded ∪ writtenBy pass.1.evaluations
      evaluateOnWorkerLoop fuel
        ⟨pass.1.facts, pass.2.2 ∪ discarded, st.shared ∪ pass.2.1, discarded⟩

end

variable (ix : FactIndex K V) (recipe : Recipe K V) (db : DbIndex K V)
  (group : List DerivationId)

/-- Resets the group's primary outputs and re-runs it. -/
def evaluateGroup (fuel : Nat) : Option (GroupRun K V) :=
  evaluateGroupLoop ix db.source recipe db.graph group fuel ⟨db.facts, [], [], []⟩

/-- `evaluate_group` in a task, which leaves its evaluations to the barrier to record. -/
def evaluateOnWorker (fuel : Nat) : Option (GroupRun K V) :=
  evaluateOnWorkerLoop ix db.source recipe db.graph group fuel ⟨db.facts, [], [], []⟩

end

end GluaLs.Engine
