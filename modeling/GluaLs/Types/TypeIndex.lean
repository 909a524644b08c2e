/-
  GluaLs.Types.TypeIndex — what the type index says of names
  (`db_index/type/mod.rs`, `type_decl.rs`, `semantic/type_check/sub_type.rs`).

  Beside the declarations a name has super types.  Both searches below keep a stack and a
  set of visited names.  A name is taken apart once and puts at most its own super types on
  the stack, so that a round for every listed super type and two more are enough.
-/
import GluaLs.Lib.Comparison
import GluaLs.Types.UnionDef

namespace GluaLs.Types

open GluaLs.Lib

/-- The declarations, the super types listed for each name, and whether the configuration
    is one of Garry's Mod. -/
structure TypeIndex where
  decls : LuaType.DbIndex
  isEnum : LuaTypeDeclId → Bool
  supers : List (LuaTypeDeclId × List LuaType)
  gmodEnabled : Bool

namespace TypeIndex

/-- `get_super_types_iter`, which leaves repeated super types out. -/
def getSuperTypes (db : TypeIndex) (id : LuaTypeDeclId) : Option (List LuaType) :=
  (db.supers.lookup id).map (firstOccurrences LuaType.eq)

/-- All the super types listed, whoever lists them. -/
def edges (db : TypeIndex) : List LuaType := db.supers.flatMap fun entry => entry.2

/-! ## §1. All super types of a name -/

/-- The stack, top first, the visited names and the types collected. -/
structure Collecting where
  queue : List LuaTypeDeclId
  visited : List LuaTypeDeclId
  collected : List LuaType

/-- One super type, in `collect_super_types`. -/
def collectSuper (acc : Collecting) (superType : LuaType) : Collecting :=
  match superType with
  | .Ref superId =>
    if superId ∈ acc.visited then acc
    else
      { queue := superId :: acc.queue
        visited := superId :: acc.visited
        collected := acc.collected ++ [superType] }
  | _ =>
    if LuaType.containsType acc.collected superType then acc
    else { acc with collected := acc.collected ++ [superType] }

def collectLoop (db : TypeIndex) : Nat → Collecting → List LuaType
  | 0, acc => acc.collected
  | rounds + 1, acc =>
    match acc.queue with
    | [] => acc.collected
    | currentId :: queue =>
      collectLoop db rounds
        (((db.getSuperTypes currentId).getD []).foldl collectSuper { acc with queue := queue })

/-- The super types of a name, none where it is not listed. -/
def superTypesOf (db : TypeIndex) (id : LuaTypeDeclId) : List LuaType :=
  (db.getSuperTypes id).getD []

/-- `collect_super_types`, from nothing collected. -/
def collectSuperTypes (db : TypeIndex) (id : LuaTypeDeclId) : List LuaType :=
  collectLoop db (db.edges.length + 1) ⟨[id], [id], []⟩

/-! ## §2. Whether a name is a sub type of another -/

def getBaseTypeId : LuaType → Option LuaTypeDeclId
  | .Integer | .IntegerConst _ | .DocIntegerConst _ => some (.Global "integer")
  | .Number | .FloatConst _ => some (.Global "number")
  | .Boolean | .BooleanConst _ | .DocBooleanConst _ => some (.Global "boolean")
  | .String | .StringConst _ | .DocStringConst _ => some (.Global "string")
  | .Table | .TableGeneric _ | .TableConst _ | .Tuple .. | .Array .. => some (.Global "table")
  | .DocFunction .. | .Function | .Signature _ => some (.Global "function")
  | .Thread => some (.Global "thread")
  | .Userdata => some (.Global "userdata")
  | .Io => some (.Global "io")
  | .Global => some (.Global "global")
  | .SelfInfer => some (.Global "self")
  | .Nil => some (.Global "nil")
  | _ => none

/-- The name a super type is listed under. -/
def superName : LuaType → Option LuaTypeDeclId
  | .Ref superId => some superId
  | .Generic baseTypeId _ => some baseTypeId
  | t => getBaseTypeId t

/-- The name the search goes on with. -/
def nextName : LuaType → Option LuaTypeDeclId
  | .Ref superId => some superId
  | .Generic baseTypeId _ => some baseTypeId
  | _ => none

/-- The super types of one name: whether one of them is the name looked for, and the stack
    with the others. -/
def checkSupers (superId : LuaTypeDeclId) (visited : List LuaTypeDeclId) :
    List LuaType → List LuaTypeDeclId → Bool × List LuaTypeDeclId
  | [], stack => (false, stack)
  | superType :: superTypes, stack =>
    if superName superType = some superId then (true, stack)
    else
      match nextName superType with
      | some next =>
        checkSupers superId visited superTypes (if next ∈ visited then stack else next :: stack)
      | none => checkSupers superId visited superTypes stack

def checkLoop (db : TypeIndex) (superId : LuaTypeDeclId) :
    Nat → List LuaTypeDeclId → List LuaTypeDeclId → Bool
  | 0, _, _ => false
  | _ + 1, [], _ => false
  | rounds + 1, currentId :: stack, visited =>
    if currentId ∈ visited then checkLoop db superId rounds stack visited
    else
      match db.getSuperTypes currentId with
      | none => checkLoop db superId rounds stack (currentId :: visited)
      | some superTypes =>
        let checked := checkSupers superId (currentId :: visited) superTypes stack
        if checked.1 then true
        else checkLoop db superId rounds checked.2 (currentId :: visited)

def isSubTypeOf (db : TypeIndex) (subId superId : LuaTypeDeclId) : Bool :=
  if subId = superId then true
  else checkLoop db superId (db.edges.length + 2) [subId] []

/-! ## §3. Classes of the engine -/

def gmodNonTableNames : List SmolStr :=
  ["Vector", "Angle", "VMatrix", "Entity", "Player", "NPC", "Weapon", "Vehicle", "NextBot",
    "Panel", "PhysObj", "File", "IMaterial", "ITexture", "ISave", "IRestore",
    "IGModAudioChannel", "PathFollower", "CLuaEmitter", "CLuaParticle", "CNavArea",
    "CNavLadder", "CNewParticleEffect", "CSoundPatch", "CTakeDamageInfo", "CUserCmd", "bf_read"]

def isGmodNonTableClass (db : TypeIndex) (id : LuaTypeDeclId) : Bool :=
  if !db.gmodEnabled then false
  else if id.getName ∈ gmodNonTableNames then true
  else (db.collectSuperTypes id).any fun superType =>
    match superType with
    | .Ref superId | .Def superId => superId.getName ∈ ["Entity", "Panel"]
    | _ => false

end TypeIndex

end GluaLs.Types
