/-
  GluaLs.Types.UnionDef — how unions are built
  (`LuaType::{from_vec, from_vec_structural, from_inferred_vec}`, `LuaUnionType` and the sort
  key of `db_index/type/types.rs`; `db_index/type/type_ops/union_type.rs`).

  Five ways lead to a union: flatten and remove duplicates (`fromVecStructural`), absorb
  member by member (`absorbedMembers`), the pairwise rule (`unionType`), a fold of it on a
  member list (`foldUnionShallow`), and the insertion into a sorted union
  (`unionSortedInsert`).

  A `u64` of discriminant bits is a number (discriminants stay below 64).  A stable sort is
  an insertion sort; a binary search is the search for the first member that is not smaller,
  which is one of its answers on a sorted slice.
-/
import Mathlib.Data.List.Destutter
import Mathlib.Data.List.Lex
import Mathlib.Data.List.Sort
import Mathlib.Data.Prod.Lex
import Mathlib.Order.WithBot
import GluaLs.Types.LuaType

namespace GluaLs.Types

/-! ## §1. Hash sets and sort keys -/

/-- A hash set of types, by the keys it holds.  It answers with an equal key and finds a key
    that is there; whether it finds an equal key of another hash (`0.0` and `-0.0`) is left
    open. -/
structure FxHashSet where
  contains : List LuaType → LuaType → Bool
  eq_of_contains : ∀ keys t, contains keys t = true → ∃ s ∈ keys, s.eq t = true
  contains_of_mem : ∀ keys t, t ∈ keys → t.eq t = true → contains keys t = true

/-- What a union's order and its duplicates depend on besides the types: the hash sets, the
    hash of a text, and the content hash of a composite type with the positions it names. -/
structure Hashing where
  set : FxHashSet
  hashStrContent : SmolStr → Nat
  contentDetail : LuaType → Nat × Option (List Nat)

abbrev LuaTypeSortKey : Type := Nat ×ₗ (Nat ×ₗ WithBot (List Nat))

def LuaTypeDeclId.getName : LuaTypeDeclId → SmolStr
  | .Global name => name
  | .Local _ name => name

namespace LuaType

def sortOrdinal : LuaType → Nat
  | .Nil => 0
  | .Boolean => 1
  | .BooleanConst _ => 2
  | .DocBooleanConst _ => 3
  | .Integer => 4
  | .IntegerConst _ => 5
  | .DocIntegerConst _ => 6
  | .Number => 7
  | .FloatConst _ => 8
  | .String => 9
  | .StringConst _ => 10
  | .DocStringConst _ => 11
  | .Table => 12
  | .TableConst _ => 13
  | .TableOf _ => 14
  | .Userdata => 15
  | .Function => 16
  | .DocFunction .. => 17
  | .Thread => 18
  | .SelfInfer => 19
  | .Global => 20
  | .Never => 21
  | .Unknown => 22
  | .Any => 23
  | .Io => 24
  | .Ref _ => 25
  | .Def _ => 26
  | .Array .. => 27
  | .Tuple .. => 28
  | .Object .. => 29
  | .Union _ => 30
  | .Intersection _ => 31
  | .MergedTable _ => 32
  | .Generic .. => 33
  | .TableGeneric _ => 34
  | .TplRef .. => 35
  | .StrTplRef .. => 36
  | .Variadic _ => 37
  | .Signature _ => 38
  | .Instance .. => 39
  | .Namespace _ => 40
  | .Call .. => 41
  | .MultiLineUnion _ => 42
  | .TypeGuard _ => 43
  | .ConstTplRef .. => 44
  | .Language _ => 45
  | .ModuleRef _ => 46
  | .DocAttribute _ => 47
  | .Conditional .. => 48
  | .ConditionalInfer _ => 49
  | .Mapped .. => 50

/-- `n as u64` of an `i64`. -/
def asU64 (n : Int) : Nat := (n % 2 ^ 64).toNat

def sortDetail (h : Hashing) : LuaType → Nat × Option (List Nat)
  | .BooleanConst b => (b.toNat, none)
  | .IntegerConst n => (asU64 n, none)
  | .DocIntegerConst n => (asU64 n, none)
  | .FloatConst f => (f.bits.toNat, none)
  | .DocBooleanConst b => (b.toNat, none)
  | .StringConst s | .DocStringConst s => (h.hashStrContent s, none)
  | .Ref id | .Def id => (h.hashStrContent id.getName, none)
  | .Signature id => (id.fileId.id.toNat <<< 32 ||| id.position, none)
  | .ModuleRef id => (id.id.toNat, none)
  | .Namespace s | .Language s | .ConditionalInfer s => (h.hashStrContent s, none)
  | .TableConst filed => (filed.fileId.id.toNat <<< 32 ||| filed.value.start, none)
  | .Nil | .Boolean | .Integer | .Number | .String | .Table | .Userdata | .Function | .Thread
  | .SelfInfer | .Global | .Never | .Unknown | .Any | .Io => (0, none)
  | t => h.contentDetail t

def sortKey (h : Hashing) (t : LuaType) : LuaTypeSortKey :=
  toLex (t.sortOrdinal, toLex ((t.sortDetail h).1, (t.sortDetail h).2))

/-- `sort_by_cached_key(lua_type_sort_key)`: stable. -/
def sortTypes (h : Hashing) (types : List LuaType) : List LuaType :=
  types.insertionSort fun a b => a.sortKey h ≤ b.sortKey h

/-- `types.dedup()`: drops what equals the member kept before it. -/
def dedupTypes (types : List LuaType) : List LuaType :=
  types.destutter fun a b => a.eq b = false

/-- `types.contains(&typ)`. -/
def containsType (types : List LuaType) (t : LuaType) : Bool := types.any fun s => s.eq t

def isNil : LuaType → Bool
  | .Nil => true
  | _ => false

def isNever : LuaType → Bool
  | .Never => true
  | _ => false

def isAny : LuaType → Bool
  | .Any => true
  | _ => false

def isUnion : LuaType → Bool
  | .Union _ => true
  | _ => false

def isMultiLineUnion : LuaType → Bool
  | .MultiLineUnion _ => true
  | _ => false

/-- `is_number`: the literals an author wrote are not among them. -/
def isNumber : LuaType → Bool
  | .Number | .Integer | .IntegerConst _ | .FloatConst _ => true
  | _ => false

mutual

def isNullable : LuaType → Bool
  | .Nil => true
  | .Union u => LuaType.unionIsNullable u
  | _ => false
termination_by structural t => t

def unionIsNullable : LuaUnionType → Bool
  | .Nullable _ => true
  | .Multi types => LuaType.anyNullable types
termination_by structural u => u

def anyNullable : List LuaType → Bool
  | [] => false
  | t :: types => t.isNullable || LuaType.anyNullable types
termination_by structural types => types

end

/-- Whether a member's position in a union carries no meaning. -/
def isOrderInsensitiveMember : LuaType → Bool
  | .Signature _ | .DocFunction .. | .TplRef .. | .StrTplRef .. | .ConstTplRef .. => false
  | _ => true

end LuaType

/-! ## §2. `LuaUnionType` -/

namespace LuaUnionType

open LuaType

def fromNormalizedVec (types : List LuaType) : LuaUnionType :=
  if types.length = 2 ∧ containsType types .Nil then
    match types.find? fun t => !t.isNil with
    | some t => .Nullable t
    | none => .Multi types
  else .Multi types

def fromVec (h : Hashing) (types : List LuaType) : LuaUnionType :=
  if 1 < types.length ∧ types.all isOrderInsensitiveMember then
    fromNormalizedVec (dedupTypes (sortTypes h types))
  else fromNormalizedVec types

def fromInferredVec (h : Hashing) (types : List LuaType) : LuaUnionType :=
  if 1 < types.length then fromNormalizedVec (dedupTypes (sortTypes h types))
  else fromNormalizedVec types

end LuaUnionType

/-! ## §3. The structural constructor -/

namespace LuaType

def linearDedupLimit : Nat := 8

/-- The members kept so far, and the hash set once there are more than a scan is good for. -/
abbrev Dedup : Type := List LuaType × Option (List LuaType)

/-- `set.insert(typ)`, and whether the type was new. -/
def hashInsert (h : Hashing) (keys : List LuaType) (t : LuaType) : Bool × List LuaType :=
  if h.set.contains keys t then (false, keys) else (true, keys ++ [t])

def pushDedup (h : Hashing) (acc : Dedup) (t : LuaType) : Dedup :=
  match acc.2 with
  | some keys =>
    let inserted := hashInsert h keys t
    (if inserted.1 then acc.1 ++ [t] else acc.1, some inserted.2)
  | none =>
    if containsType acc.1 t then acc
    else if acc.1.length = linearDedupLimit then
      let keys := acc.1.foldl (fun keys existing => (hashInsert h keys existing).2) []
      let inserted := hashInsert h keys t
      (if inserted.1 then acc.1 ++ [t] else acc.1, some inserted.2)
    else (acc.1 ++ [t], none)

/-- The types one member of a list stands for. -/
def spliced : LuaType → List LuaType
  | .Union u => u.intoVec
  | t => [t]

/-- The union of what is left of the members. -/
def ofResultTypes (h : Hashing) : List LuaType → LuaType
  | [] => .Nil
  | [t] => t
  | resultTypes => .Union (.fromVec h resultTypes)

def fromVecStructural (h : Hashing) : List LuaType → LuaType
  | [] => .Nil
  | [t] => t
  | types => ofResultTypes h ((types.flatMap spliced).foldl (pushDedup h) ([], none)).1

/-! ## §4. Two members that collapse -/

def tryCollapse (matchSource source target : LuaType) : Option LuaType :=
  match matchSource, target with
  | .Never, _ => some target
  | _, .Never => some source
  | .Integer, .IntegerConst _ => some .Integer
  | .Integer, .DocIntegerConst _ => some .Integer
  | .IntegerConst _, .Integer => some .Integer
  | .DocIntegerConst _, .Integer => some .Integer
  | .Number, right =>
    if right.isNumber then some .Number
    else if LuaType.eq .Number right then some source else none
  | left, .Number =>
    if left.isNumber then some .Number
    else if left.eq .Number then some source else none
  | .String, .StringConst _ => some .String
  | .String, .DocStringConst _ => some .String
  | .StringConst _, .String => some .String
  | .DocStringConst _, .String => some .String
  | .Boolean, .BooleanConst _ => some .Boolean
  | .BooleanConst _, .Boolean => some .Boolean
  | .BooleanConst left, .BooleanConst right =>
    if left == right then some (.BooleanConst left) else some .Boolean
  | .Table, .TableConst _ => some .Table
  | .TableConst _, .Table => some .Table
  | .Function, .DocFunction .. => some .Function
  | .Function, .Signature _ => some .Function
  | .DocFunction .., .Function => some .Function
  | .Signature _, .Function => some .Function
  | left, right => if left.eq right then some source else none

/-- `multi_line_union_contains`: an arm is a literal of the same value. -/
def multiLineUnionContains (unions : List (LuaType × Option SmolStr)) (other : LuaType) : Bool :=
  unions.any fun arm =>
    match arm.1, other with
    | .DocStringConst a, .StringConst b => a == b
    | .DocIntegerConst a, .IntegerConst b => a == b
    | _, _ => false

/-- The discriminants of everything `tryCollapse` would merge the type with, other than an
    equal member. -/
def collapsePartnerOrdinals : LuaType → List Nat
  | .IntegerConst _ | .DocIntegerConst _ => [4, 7]
  | .FloatConst _ => [7]
  | .StringConst _ | .DocStringConst _ => [9]
  | .BooleanConst _ => [1, 2]
  | .TableConst _ => [12]
  | .DocFunction .. | .Signature _ => [16]
  | .Integer => [5, 6, 7]
  | .Number => [4, 5, 6, 8]
  | .String => [10, 11]
  | .Boolean => [2]
  | .Table => [13]
  | .Function => [17, 38]
  | _ => []

def ordinalBit (t : LuaType) : Nat := 1 <<< t.sortOrdinal

def ordinalMask (members : List LuaType) : Nat :=
  members.foldl (fun mask member => mask ||| member.ordinalBit) 0

def collapseCandidateMask (t : LuaType) : Nat :=
  t.collapsePartnerOrdinals.foldl (fun mask ordinal => mask ||| 1 <<< ordinal)
    (t.ordinalBit ||| ordinalBit .Never)

/-- The first member that collapses with the type, and what they collapse to. -/
def findCollapse (candidates : Nat) (t : LuaType) : List LuaType → Option (Nat × LuaType)
  | [] => none
  | member :: members =>
    if candidates &&& member.ordinalBit = 0 then
      (findCollapse candidates t members).map fun found => (found.1 + 1, found.2)
    else
      match tryCollapse member member t with
      | some merged => some (0, merged)
      | none => (findCollapse candidates t members).map fun found => (found.1 + 1, found.2)

/-- The `'restart` loop of `absorb`: the members left, the slot and the merged type.  Every
    round removes a member, so as many rounds as there are members are enough. -/
def absorbLoop (present : Nat) : Nat → List LuaType → Nat → LuaType → List LuaType × Nat × LuaType
  | 0, members, slot, t => (members, slot, t)
  | rounds + 1, members, slot, t =>
    if collapseCandidateMask t &&& present = 0 then (members, slot, t)
    else
      match findCollapse (collapseCandidateMask t) t members with
      | some found =>
        absorbLoop present rounds (members.eraseIdx found.1) (min slot found.1) found.2
      | none => (members, slot, t)

/-- `absorb`: the members and the mask with the type added. -/
def absorb (members : List LuaType) (present : Nat) (t : LuaType) : List LuaType × Nat :=
  let rest := absorbLoop present members.length members members.length t
  (rest.1.insertIdx (min rest.2.1 rest.1.length) rest.2.2, present ||| rest.2.2.ordinalBit)

def dedupsByEquality : LuaType → Bool
  | .Nil | .Boolean | .Integer | .Number | .String | .Table | .Userdata | .Function | .Thread
  | .SelfInfer | .Global | .Unknown | .Io | .IntegerConst _ | .DocIntegerConst _ | .StringConst _
  | .DocStringConst _ | .TableConst _ | .Ref _ | .Def _ | .Signature _ => true
  | _ => false

/-! ## §5. Absorbing member by member -/

/-- A member list under construction: the members, the mask and the hash set. -/
structure Members where
  members : List LuaType
  present : Nat
  hashed : List LuaType

def addMember (h : Hashing) (acc : Members) (t : LuaType) : Members :=
  if t.dedupsByEquality && t.collapsePartnerOrdinals.all (fun o => acc.present &&& 1 <<< o = 0) then
    if (hashInsert h acc.hashed t).1 then
      { members := acc.members ++ [t]
        present := acc.present ||| t.ordinalBit
        hashed := (hashInsert h acc.hashed t).2 }
    else { acc with hashed := (hashInsert h acc.hashed t).2 }
  else
    { acc with
      members := (absorb acc.members acc.present t).1
      present := (absorb acc.members acc.present t).2 }

def absorbedMembers (h : Hashing) (types : List LuaType) : List LuaType :=
  (((types.flatMap spliced).filter fun t => !t.isNever).foldl (addMember h) ⟨[], 0, []⟩).members

def unionAllAbsorbed (h : Hashing) (types : List LuaType) : LuaType :=
  match absorbedMembers h types with
  | [] => .Never
  | members => fromVecStructural h members

def unionAllAbsorbedInferred (h : Hashing) (types : List LuaType) : LuaType :=
  match absorbedMembers h types with
  | [] => .Never
  | [t] => t
  | members => .Union (.Multi members)

/-! ## §6. The pairwise rule -/

/-- `contains_ordinal`, by the partition point of a sorted member list. -/
def containsOrdinal (members : List LuaType) (ordinal : Nat) : Bool :=
  match (members.dropWhile fun member => member.sortOrdinal < ordinal).head? with
  | some member => member.sortOrdinal == ordinal
  | none => false

def unionSortedInsert (h : Hashing) (left : LuaUnionType) (source right : LuaType) :
    Option LuaType :=
  match left with
  | .Nullable _ => none
  | .Multi members =>
    if right.isNever || right.isAny || right.isMultiLineUnion
        || !right.isOrderInsensitiveMember then none
    else if !members.all fun member => member.isOrderInsensitiveMember
        && !(member.isNever || member.isMultiLineUnion) then none
    else if right.collapsePartnerOrdinals.any (containsOrdinal members) then none
    else
      let smaller := members.takeWhile fun member => member.sortKey h < right.sortKey h
      let larger := members.dropWhile fun member => member.sortKey h < right.sortKey h
      let equal := larger.takeWhile fun member => member.sortKey h = right.sortKey h
      if equal.isEmpty then some (.Union (.Multi (smaller ++ right :: larger)))
      else if containsType equal right then some source else none

def nullableAnyType : LuaType := .Union (.Nullable .Any)

/-- Absorbs types one after the other. -/
def absorbAll (members : List LuaType) (types : List LuaType) : List LuaType :=
  (types.foldl (fun acc t => absorb acc.1 acc.2 t) (members, ordinalMask members)).1

/-- `union_type_impl`: the rule behind `any` and the collapses. -/
def joinMembers (h : Hashing) (matchSource source target : LuaType) : LuaType :=
  match matchSource, target with
  | .MultiLineUnion left, right =>
    if multiLineUnionContains left right then source else fromVecStructural h [source, target]
  | left, .MultiLineUnion right =>
    if multiLineUnionContains right left then target
    else
      match left with
      | .Union left =>
        match unionSortedInsert h left source target with
        | some merged => merged
        | none => fromVecStructural h (absorbAll left.intoVec [target])
      | _ => fromVecStructural h [source, target]
  | .Union left, .Union right => fromVecStructural h (absorbAll left.intoVec right.intoVec)
  | .Union left, right =>
    match unionSortedInsert h left source right with
    | some merged => merged
    | none => fromVecStructural h (absorbAll left.intoVec [right])
  | _, .Union right => fromVecStructural h (absorbAll right.intoVec [source])
  | _, _ => fromVecStructural h [source, target]

def unionTypeImpl (h : Hashing) (matchSource source target : LuaType) : LuaType :=
  if matchSource.isAny && target.isNullable then nullableAnyType
  else if target.isAny && matchSource.isNullable then nullableAnyType
  else if matchSource.isAny || target.isAny then .Any
  else
    match tryCollapse matchSource source target with
    | some merged => merged
    | none => joinMembers h matchSource source target

def unionTypeShallow (h : Hashing) (source target : LuaType) : LuaType :=
  unionTypeImpl h source source target

/-! ## §7. The fold on a member list -/

structure FoldMembers extends Members where
  sorted : Bool
  appended : Nat
  takenFrom : Option LuaType

inductive FoldAcc where
  | Type (t : LuaType)
  | Members (members : FoldMembers)

def stepsInMembers : LuaType → Bool
  | .Union u => u.intoVec.all fun t => !(t.isNever || t.isUnion || t.isMultiLineUnion)
  | t => !t.isAny && !(t.isNever || t.isUnion || t.isMultiLineUnion)

namespace FoldMembers

def absorb (h : Hashing) (acc : FoldMembers) (t : LuaType) : FoldMembers :=
  if t.dedupsByEquality && t.collapsePartnerOrdinals.all (fun o => acc.present &&& 1 <<< o = 0) then
    if (hashInsert h acc.hashed t).1 then
      { acc with
        members := acc.members ++ [t]
        present := acc.present ||| t.ordinalBit
        hashed := (hashInsert h acc.hashed t).2
        appended := acc.appended + 1
        takenFrom := none }
    else { acc with hashed := (hashInsert h acc.hashed t).2 }
  else
    { acc with
      members := (LuaType.absorb acc.members acc.present t).1
      present := (LuaType.absorb acc.members acc.present t).2
      sorted := false
      takenFrom := none }

/-- A member put behind every member whose key is not larger. -/
def insertMember (h : Hashing) (members : List LuaType) (t : LuaType) : List LuaType :=
  members.takeWhile (fun existing => existing.sortKey h ≤ t.sortKey h)
    ++ t :: members.dropWhile fun existing => existing.sortKey h ≤ t.sortKey h

def sort (h : Hashing) (acc : FoldMembers) : FoldMembers :=
  if acc.sorted then
    let at' := acc.members.length - acc.appended
    { acc with
      members := (acc.members.drop at').foldl (insertMember h) (acc.members.take at')
      appended := 0 }
  else { acc with members := sortTypes h acc.members, sorted := true, appended := 0 }

/-- `T|nil` is stored as nullable, which yields `T` then `nil`. -/
def nilLast (acc : FoldMembers) : FoldMembers :=
  match acc.members with
  | [a, b] =>
    if a.eq .Nil then { acc with members := [b, a], sorted := false }
    else if b.eq .Nil then { acc with sorted := false }
    else acc
  | _ => acc

def settle (h : Hashing) (acc : FoldMembers) : FoldAcc :=
  if acc.takenFrom.isSome then .Members acc
  else
    match acc.members with
    | [] => .Type .Nil
    | [t] => .Type t
    | members =>
      if members.all isOrderInsensitiveMember then .Members (acc.sort h).nilLast
      else .Members ({ acc with sorted := false, appended := 0 } : FoldMembers).nilLast

def intoType (h : Hashing) (acc : FoldMembers) : LuaType :=
  match acc.takenFrom with
  | some t => t
  | none => .Union (.fromVec h acc.members)

end FoldMembers

/-- `seen.insert(member)` for all members, until one is not new. -/
def allNew (h : Hashing) (seen : List LuaType) : List LuaType → Bool
  | [] => true
  | t :: types => (hashInsert h seen t).1 && allNew h (hashInsert h seen t).2 types

namespace FoldAcc

def fromType (h : Hashing) (t : LuaType) : FoldAcc :=
  match t with
  | .Union u =>
    if u.intoVec.length < 2 || !stepsInMembers (.Union u) || !allNew h [] u.intoVec then
      .Type (.Union u)
    else
      .Members
        { members := u.intoVec
          present := ordinalMask u.intoVec
          hashed := (u.intoVec.filter dedupsByEquality).foldl
            (fun keys member => (hashInsert h keys member).2) []
          sorted := false
          appended := 0
          takenFrom := some (.Union u) }
  | t => .Type t

def intoType (h : Hashing) : FoldAcc → LuaType
  | .Type t => t
  | .Members members => members.intoType h

def push (h : Hashing) (acc : FoldAcc) (t : LuaType) : FoldAcc :=
  match acc with
  | .Members members =>
    if stepsInMembers t then (t.spliced.foldl (FoldMembers.absorb h) members).settle h
    else fromType h (unionTypeShallow h (members.intoType h) t)
  | .Type source => fromType h (unionTypeShallow h source t)

end FoldAcc

def foldUnionShallow (h : Hashing) (types : List LuaType) : LuaType :=
  (types.foldl (FoldAcc.push h) (.Type .Never)).intoType h

/-! ## §8. Which way is taken -/

mutual

def containsMultiLineUnion : LuaType → Bool
  | .MultiLineUnion _ => true
  | .Union u => LuaType.unionContainsMultiLineUnion u
  | _ => false
termination_by structural t => t

def unionContainsMultiLineUnion : LuaUnionType → Bool
  | .Nullable t => t.containsMultiLineUnion
  | .Multi types => LuaType.anyContainsMultiLineUnion types
termination_by structural u => u

def anyContainsMultiLineUnion : List LuaType → Bool
  | [] => false
  | t :: types => t.containsMultiLineUnion || LuaType.anyContainsMultiLineUnion types
termination_by structural types => types

end

mutual

def containsPreservedUnionMember : LuaType → Bool
  | .Any | .Never | .DocStringConst _ | .DocIntegerConst _ => true
  | .FloatConst f => f.isZero
  | .Union u => LuaType.unionContainsPreserved u
  | _ => false
termination_by structural t => t

def unionContainsPreserved : LuaUnionType → Bool
  | .Nullable t => t.containsPreservedUnionMember
  | .Multi types => LuaType.anyContainsPreserved types
termination_by structural u => u

def anyContainsPreserved : List LuaType → Bool
  | [] => false
  | t :: types => t.containsPreservedUnionMember || LuaType.anyContainsPreserved types
termination_by structural types => types

end

mutual

/-- The members of a type that are not unions, through every level. -/
def leaves : LuaType → List LuaType
  | .Union u => LuaType.unionLeaves u
  | t => [t]
termination_by structural t => t

def unionLeaves : LuaUnionType → List LuaType
  | .Nullable t => t.leaves ++ [.Nil]
  | .Multi types => LuaType.allLeaves types
termination_by structural u => u

def allLeaves : List LuaType → List LuaType
  | [] => []
  | t :: types => t.leaves ++ LuaType.allLeaves types
termination_by structural types => types

end

/-- `contains_distinct_sort_key_collision`: a member whose key was first met at another type. -/
def collides (h : Hashing) (keys : List LuaType) : List LuaType → Bool
  | [] => false
  | t :: types =>
    match keys.find? fun existing => existing.sortKey h = t.sortKey h with
    | some existing => !existing.eq t || collides h keys types
    | none => collides h (keys ++ [t]) types

def containsDistinctSortKeyCollision (h : Hashing) (types : List LuaType) : Bool :=
  collides h [] (allLeaves types)

/-- What `visiting_order_is_observable` looks at: the nil of a nullable union apart. -/
def looked : LuaType → List LuaType
  | .Union (.Nullable t) => [t]
  | .Union (.Multi types) => types
  | t => [t]

def visitingOrderIsObservable (types : List LuaType) : Bool :=
  types.any (fun t => t.looked.any isMultiLineUnion)
    || types.any fun t => t.looked.any fun member => !member.isOrderInsensitiveMember

/-- The flags of `can_use_structural_union`. -/
structure Flags where
  num : Bool
  numVariant : Bool
  int : Bool
  intConst : Bool
  string : Bool
  stringConst : Bool
  boolean : Bool
  boolConsts : Nat
  table : Bool
  tableConst : Bool
  function : Bool
  callable : Bool

def Flags.none : Flags :=
  ⟨false, false, false, false, false, false, false, 0, false, false, false, false⟩

def Flags.see (flags : Flags) : LuaType → Flags
  | .Function => { flags with function := true }
  | .DocFunction .. | .Signature _ => { flags with callable := true }
  | .Number => { flags with num := true }
  | .Integer => { flags with numVariant := true, int := true }
  | .IntegerConst _ | .DocIntegerConst _ => { flags with numVariant := true, intConst := true }
  | .FloatConst _ => { flags with numVariant := true }
  | .String => { flags with string := true }
  | .StringConst _ | .DocStringConst _ => { flags with stringConst := true }
  | .Boolean => { flags with boolean := true }
  | .BooleanConst _ => { flags with boolConsts := flags.boolConsts + 1 }
  | .Table => { flags with table := true }
  | .TableConst _ => { flags with tableConst := true }
  | _ => flags

def Flags.collapse (flags : Flags) : Bool :=
  flags.num && flags.numVariant || flags.int && flags.intConst
    || flags.string && flags.stringConst || flags.boolean && 0 < flags.boolConsts
    || 1 < flags.boolConsts || flags.table && flags.tableConst
    || flags.function && flags.callable

/-- The loop of `can_use_structural_union`. -/
def noCollapse (flags : Flags) : List LuaType → Bool
  | [] => true
  | t :: types =>
    if t.isNever || t.isUnion || t.isMultiLineUnion then false
    else if (flags.see t).collapse then false
    else noCollapse (flags.see t) types

/-- `is_sorted_by_key(lua_type_sort_key)`. -/
def isSortedByKey (h : Hashing) (types : List LuaType) : Bool :=
  decide (types.IsChain fun a b => a.sortKey h ≤ b.sortKey h)

/-- `can_use_structural_union`: sorted up to the first order-sensitive member, if there is
    one, and nothing to collapse. -/
def canUseStructuralUnion (h : Hashing) (types : List LuaType) : Bool :=
  (types.all isOrderInsensitiveMember
    || isSortedByKey h (types.takeWhile isOrderInsensitiveMember))
    && noCollapse .none types

/-- Members a declared union keeps beside what would absorb them. -/
def isKeptArm : LuaType → Bool
  | .Any | .DocStringConst _ | .DocIntegerConst _ => true
  | _ => false

def unionTypeAllMode (h : Hashing) (types : List LuaType) (inferred : Bool) : LuaType :=
  if types.length < 2 then fromVecStructural h types
  else if types.any isKeptArm || canUseStructuralUnion h types then fromVecStructural h types
  else if visitingOrderIsObservable types then
    if inferred && !types.any containsMultiLineUnion && !types.any containsPreservedUnionMember
        && !containsDistinctSortKeyCollision h types then
      unionAllAbsorbedInferred h types
    else foldUnionShallow h types
  else if inferred then unionAllAbsorbedInferred h types
  else unionAllAbsorbed h types

/-- `LuaType::from_vec`. -/
def fromVec (h : Hashing) (types : List LuaType) : LuaType :=
  if types.length < 2 then fromVecStructural h types else unionTypeAllMode h types false

/-- A union put into the order of inferred unions. -/
def inferredOrder (h : Hashing) : LuaType → LuaType
  | .Union (.Multi members) => .Union (.fromInferredVec h members)
  | t => t

/-- `LuaType::from_inferred_vec`. -/
def fromInferredVec (h : Hashing) (types : List LuaType) : LuaType :=
  inferredOrder h (unionTypeAllMode h types true)

/-! ## §9. With the type index -/

/-- What the type index says of a name: a class (or enum), or an alias and what it stands
    for. -/
structure LuaTypeDecl where
  isAlias : Bool
  aliasRef : Option LuaType

/-- `get_type_decl` of the type index. -/
abbrev DbIndex : Type := LuaTypeDeclId → Option LuaTypeDecl

/-- `get_real_type`, ten aliases deep at most. -/
def getRealType (db : DbIndex) : Nat → LuaType → Option LuaType
  | 0, t => some t
  | depth + 1, .Ref id =>
    match db id with
    | none => none
    | some decl =>
      if decl.isAlias then decl.aliasRef.bind (getRealType db depth) else some (.Ref id)
  | _ + 1, t => some t

def unionType (h : Hashing) (db : DbIndex) (source target : LuaType) : LuaType :=
  unionTypeImpl h ((getRealType db 10 source).getD source) source target

/-- Whether the name is an alias. -/
def refersToAlias (db : DbIndex) : LuaType → Bool
  | .Ref id => (db id).any LuaTypeDecl.isAlias
  | _ => false

/-- A type that is no alias stands for itself. -/
theorem getRealType_getD (db : DbIndex) (s : LuaType) (hs : refersToAlias db s = false) :
    (getRealType db 10 s).getD s = s := by
  cases s with
  | Ref id =>
    have hclass : (db id).any LuaTypeDecl.isAlias = false := hs
    unfold getRealType
    cases hdecl : db id with
    | none => rfl
    | some decl =>
      rw [hdecl] at hclass
      have halias : decl.isAlias = false := hclass
      simp [halias]
  | _ => rfl

def canUseDbAwareStructuralUnion (h : Hashing) (db : DbIndex) (types : List LuaType) : Bool :=
  types.all (fun t => !(t.isAny || t.isNever || t.isUnion || t.isMultiLineUnion)
      && !t.refersToAlias db)
    && canUseStructuralUnion h types && !visitingOrderIsObservable types

/-- The pairwise fold. -/
def foldUnionType (h : Hashing) (db : DbIndex) (types : List LuaType) : LuaType :=
  types.foldl (unionType h db) .Never

def unionAll (h : Hashing) (db : DbIndex) (types : List LuaType) : LuaType :=
  match types with
  | [] => .Never
  | [t] => t
  | types =>
    if canUseDbAwareStructuralUnion h db types then fromVecStructural h types
    else foldUnionType h db types

/-- Hash sets that compare, and hashes that tell nothing apart. -/
def plainHashing : Hashing where
  set :=
    { contains := fun keys t => keys.any fun s => s.eq t
      eq_of_contains := by
        intro keys t hcontains
        obtain ⟨s, hs, heq⟩ := List.any_eq_true.1 hcontains
        exact ⟨s, hs, heq⟩
      contains_of_mem := by
        intro keys t ht heq
        exact List.any_eq_true.2 ⟨t, ht, heq⟩ }
  hashStrContent := fun _ => 0
  contentDetail := fun _ => (0, none)

/-- No name is declared. -/
def noDecls : DbIndex := fun _ => none

end LuaType

end GluaLs.Types
