/-
  GluaLs.Types.LuaType — the types of the analysis
  (`db_index/type/types.rs`, `type_decl.rs`, `generic_param.rs`; `LuaMemberKey` of
  `db_index/member`, `LuaAttributeUse` of `db_index/property`).

  The constructors stand in the source's order, which is also the order of their
  discriminants.  Shared and interned pointers are their contents; the fields of an object
  are the list a sorted map iterates over.

  `LuaType.eq` is the source's `==`: contents are compared throughout, and a float literal
  by IEEE equality, so that a type that holds a NaN is NOT equal to itself
  (`LuaType.eq_self_iff`).
-/
import Mathlib.Data.List.Basic
import Mathlib.Tactic.Tauto
import GluaLs.Vfs.FileId

namespace GluaLs.Types

/-! ## §1. What types are made of -/

/-- Strings, interned or not; the name `String` is one of the types. -/
abbrev SmolStr : Type := String

/-- A 64-bit float, by its bits. -/
structure F64 where
  bits : BitVec 64
  deriving DecidableEq, Repr

namespace F64

def exponentMask : BitVec 64 := 0x7FF0000000000000

def fractionMask : BitVec 64 := 0x000FFFFFFFFFFFFF

def isNaN (f : F64) : Bool :=
  f.bits &&& exponentMask == exponentMask && f.bits &&& fractionMask != 0

/-- Both zeros, whatever their sign. -/
def isZero (f : F64) : Bool := f.bits &&& (exponentMask ||| fractionMask) == 0

/-- `==` of floats. -/
def eq (f g : F64) : Bool :=
  !f.isNaN && !g.isNaN && (f.bits == g.bits || (f.isZero && g.isZero))

end F64

structure TextRange where
  start : Nat
  stop : Nat
  deriving DecidableEq, Repr

/-- A position of a file. -/
structure InFiled (α : Type) where
  fileId : FileId
  value : α
  deriving DecidableEq, Repr

inductive LuaTypeDeclId where
  | Global (name : String)
  | Local (fileId : FileId) (name : String)
  deriving DecidableEq, Repr

structure LuaSignatureId where
  fileId : FileId
  position : Nat
  deriving DecidableEq, Repr

inductive LuaArrayLen where
  | None
  | Max (n : Int)
  deriving DecidableEq, Repr

inductive LuaTupleStatus where
  | DocResolve | InferResolve
  deriving DecidableEq, Repr

inductive AsyncState where
  | None | Async | Sync
  deriving DecidableEq, Repr

structure LuaCallArgRole where
  paramIdx : Nat
  domain : String
  role : String
  fieldPath : List String
  priority : Option Int
  deriving DecidableEq, Repr

inductive LuaAliasCallKind where
  | KeyOf | Index | Extends | Add | Sub | Select | Unpack | RawGet | Merge | Split
  deriving DecidableEq, Repr

inductive LuaInstanceKind where
  | Shared | Made | Copy
  deriving DecidableEq, Repr

inductive GenericTplId where
  | Type (idx : Nat)
  | Func (idx : Nat)
  deriving DecidableEq, Repr

/-! ## §2. Types -/

mutual

inductive LuaType where
  | Unknown
  | Any
  | Nil
  | Table
  | Userdata
  | Function
  | Thread
  | Boolean
  | String
  | Integer
  | Number
  | Io
  | SelfInfer
  | Global
  | Never
  | BooleanConst (b : Bool)
  | StringConst (s : SmolStr)
  | IntegerConst (n : Int)
  | FloatConst (f : F64)
  | TableConst (range : InFiled TextRange)
  | Ref (id : LuaTypeDeclId)
  | Def (id : LuaTypeDeclId)
  | Array (base : LuaType) (len : LuaArrayLen)
  | Tuple (types : List LuaType) (status : LuaTupleStatus)
  | DocFunction (asyncState : AsyncState) (isColonDefine isVariadic : Bool)
      (params : List (SmolStr × Option LuaType)) (optionalParams : List Bool)
      (callArgRoles : List LuaCallArgRole) (ret : LuaType)
  | Object (fields : List (LuaMemberKey × LuaType)) (indexAccess : List (LuaType × LuaType))
  | Union (union : LuaUnionType)
  | Intersection (types : List LuaType)
  | MergedTable (types : List LuaType)
  | Generic (base : LuaTypeDeclId) (params : List LuaType)
  | TableGeneric (types : List LuaType)
  | TplRef (tplId : GenericTplId) (name : SmolStr) (constraint : Option LuaType)
  | StrTplRef (pre : SmolStr) (tplId : GenericTplId) (name suffix : SmolStr)
      (constraint : Option LuaType)
  | Variadic (variadic : VariadicType)
  | Signature (id : LuaSignatureId)
  | Instance (base : LuaType) (range : InFiled TextRange) (kind : LuaInstanceKind)
  | DocStringConst (s : SmolStr)
  | DocIntegerConst (n : Int)
  | DocBooleanConst (b : Bool)
  | Namespace (s : SmolStr)
  | Call (callKind : LuaAliasCallKind) (operand : List LuaType)
  | MultiLineUnion (unions : List (LuaType × Option SmolStr))
  | TypeGuard (type : LuaType)
  | ConstTplRef (tplId : GenericTplId) (name : SmolStr) (constraint : Option LuaType)
  | Language (s : SmolStr)
  | ModuleRef (fileId : FileId)
  | DocAttribute (params : List (SmolStr × Option LuaType))
  | Conditional (condition trueType falseType : LuaType) (inferParams : List GenericParam)
      (hasNew : Bool)
  | ConditionalInfer (s : SmolStr)
  | Mapped (tplId : GenericTplId) (param : GenericParam) (value : LuaType)
      (isReadonly isOptional : Bool)
  | TableOf (type : LuaType)

inductive LuaUnionType where
  | Nullable (type : LuaType)
  | Multi (types : List LuaType)

inductive VariadicType where
  | Multi (types : List LuaType)
  | Base (type : LuaType)

inductive LuaMemberKey where
  | None
  | Integer (n : Int)
  | Name (s : SmolStr)
  | ExprType (type : LuaType)

inductive GenericParam where
  | mk (name : SmolStr) (typeConstraint : Option LuaType)
      (attributes : Option (List LuaAttributeUse))

inductive LuaAttributeUse where
  | mk (id : LuaTypeDeclId) (args : List (SmolStr × Option LuaType))

end

/-! ## §3. Equality -/

mutual

/-- `==` of types. -/
def LuaType.eq : LuaType → LuaType → Bool
  | .Unknown, .Unknown => true
  | .Any, .Any => true
  | .Nil, .Nil => true
  | .Table, .Table => true
  | .Userdata, .Userdata => true
  | .Function, .Function => true
  | .Thread, .Thread => true
  | .Boolean, .Boolean => true
  | .String, .String => true
  | .Integer, .Integer => true
  | .Number, .Number => true
  | .Io, .Io => true
  | .SelfInfer, .SelfInfer => true
  | .Global, .Global => true
  | .BooleanConst a, .BooleanConst b => a == b
  | .StringConst a, .StringConst b => a == b
  | .IntegerConst a, .IntegerConst b => a == b
  | .FloatConst a, .FloatConst b => a.eq b
  | .TableConst a, .TableConst b => a == b
  | .Ref a, .Ref b => a == b
  | .Def a, .Def b => a == b
  | .Array a len, .Array b len' => a.eq b && len == len'
  | .Call k a, .Call k' b => k == k' && LuaType.eqs a b
  | .Tuple a st, .Tuple b st' => LuaType.eqs a b && st == st'
  | .DocFunction as c v ps op roles r, .DocFunction as' c' v' ps' op' roles' r' =>
    as == as' && c == c' && v == v' && LuaType.eqParams ps ps' && op == op' && roles == roles'
      && r.eq r'
  | .Object fs ix, .Object fs' ix' => LuaType.eqFields fs fs' && LuaType.eqPairs ix ix'
  | .Union a, .Union b => a.eq b
  | .Intersection a, .Intersection b => LuaType.eqs a b
  | .MergedTable a, .MergedTable b => LuaType.eqs a b
  | .Generic base a, .Generic base' b => base == base' && LuaType.eqs a b
  | .TableGeneric a, .TableGeneric b => LuaType.eqs a b
  | .TplRef id n c, .TplRef id' n' c' => id == id' && n == n' && LuaType.eqOpt c c'
  | .StrTplRef p id n s c, .StrTplRef p' id' n' s' c' =>
    p == p' && id == id' && n == n' && s == s' && LuaType.eqOpt c c'
  | .Variadic a, .Variadic b => a.eq b
  | .DocBooleanConst a, .DocBooleanConst b => a == b
  | .Signature a, .Signature b => a == b
  | .Instance a r k, .Instance b r' k' => a.eq b && r == r' && k == k'
  | .DocStringConst a, .DocStringConst b => a == b
  | .DocIntegerConst a, .DocIntegerConst b => a == b
  | .Namespace a, .Namespace b => a == b
  | .MultiLineUnion a, .MultiLineUnion b => LuaType.eqArms a b
  | .TypeGuard a, .TypeGuard b => a.eq b
  | .Never, .Never => true
  | .ConstTplRef id n c, .ConstTplRef id' n' c' => id == id' && n == n' && LuaType.eqOpt c c'
  | .Language a, .Language b => a == b
  | .ModuleRef a, .ModuleRef b => a == b
  | .DocAttribute a, .DocAttribute b => LuaType.eqParams a b
  | .Conditional c t f ps n, .Conditional c' t' f' ps' n' =>
    c.eq c' && t.eq t' && f.eq f' && LuaType.eqGenericParams ps ps' && n == n'
  | .ConditionalInfer a, .ConditionalInfer b => a == b
  | .Mapped id p v r o, .Mapped id' p' v' r' o' =>
    id == id' && p.eq p' && v.eq v' && r == r' && o == o'
  | .TableOf a, .TableOf b => a.eq b
  | _, _ => false
termination_by structural x => x

def LuaUnionType.eq : LuaUnionType → LuaUnionType → Bool
  | .Nullable a, .Nullable b => a.eq b
  | .Multi a, .Multi b => LuaType.eqs a b
  | _, _ => false
termination_by structural x => x

def VariadicType.eq : VariadicType → VariadicType → Bool
  | .Multi a, .Multi b => LuaType.eqs a b
  | .Base a, .Base b => a.eq b
  | _, _ => false
termination_by structural x => x

def LuaMemberKey.eq : LuaMemberKey → LuaMemberKey → Bool
  | .None, .None => true
  | .Integer a, .Integer b => a == b
  | .Name a, .Name b => a == b
  | .ExprType a, .ExprType b => a.eq b
  | _, _ => false
termination_by structural x => x

def GenericParam.eq : GenericParam → GenericParam → Bool
  | .mk n c a, .mk n' c' a' => n == n' && LuaType.eqOpt c c' && LuaType.eqOptUses a a'
termination_by structural x => x

def LuaAttributeUse.eq : LuaAttributeUse → LuaAttributeUse → Bool
  | .mk id args, .mk id' args' => id == id' && LuaType.eqParams args args'
termination_by structural x => x

def LuaType.eqs : List LuaType → List LuaType → Bool
  | [], [] => true
  | a :: as, b :: bs => a.eq b && LuaType.eqs as bs
  | _, _ => false
termination_by structural x => x

def LuaType.eqOpt : Option LuaType → Option LuaType → Bool
  | none, none => true
  | some a, some b => a.eq b
  | _, _ => false
termination_by structural x => x

def LuaType.eqParams : List (SmolStr × Option LuaType) → List (SmolStr × Option LuaType) → Bool
  | [], [] => true
  | (s, a) :: as, (s', b) :: bs => s == s' && LuaType.eqOpt a b && LuaType.eqParams as bs
  | _, _ => false
termination_by structural x => x

def LuaType.eqFields : List (LuaMemberKey × LuaType) → List (LuaMemberKey × LuaType) → Bool
  | [], [] => true
  | (k, a) :: as, (k', b) :: bs => k.eq k' && a.eq b && LuaType.eqFields as bs
  | _, _ => false
termination_by structural x => x

def LuaType.eqPairs : List (LuaType × LuaType) → List (LuaType × LuaType) → Bool
  | [], [] => true
  | (k, a) :: as, (k', b) :: bs => k.eq k' && a.eq b && LuaType.eqPairs as bs
  | _, _ => false
termination_by structural x => x

def LuaType.eqArms : List (LuaType × Option SmolStr) → List (LuaType × Option SmolStr) → Bool
  | [], [] => true
  | (a, s) :: as, (b, s') :: bs => a.eq b && s == s' && LuaType.eqArms as bs
  | _, _ => false
termination_by structural x => x

def LuaType.eqGenericParams : List GenericParam → List GenericParam → Bool
  | [], [] => true
  | a :: as, b :: bs => a.eq b && LuaType.eqGenericParams as bs
  | _, _ => false
termination_by structural x => x

def LuaType.eqOptUses : Option (List LuaAttributeUse) → Option (List LuaAttributeUse) → Bool
  | none, none => true
  | some a, some b => LuaType.eqUses a b
  | _, _ => false
termination_by structural x => x

def LuaType.eqUses : List LuaAttributeUse → List LuaAttributeUse → Bool
  | [], [] => true
  | a :: as, b :: bs => a.eq b && LuaType.eqUses as bs
  | _, _ => false
termination_by structural x => x

end

/-! ## §4. What a type holds -/

def LuaUnionType.intoVec : LuaUnionType → List LuaType
  | .Nullable type => [type, .Nil]
  | .Multi types => types

def LuaMemberKey.children : LuaMemberKey → List LuaType
  | .ExprType type => [type]
  | _ => []

def GenericParam.children : GenericParam → List LuaType
  | .mk _ typeConstraint _ => typeConstraint.toList

def LuaAttributeUse.parts : LuaAttributeUse → List LuaType
  | .mk _ args => args.filterMap fun arg => arg.2

def GenericParam.parts : GenericParam → List LuaType
  | .mk _ typeConstraint attributes =>
    typeConstraint.toList ++ (attributes.getD []).flatMap LuaAttributeUse.parts

namespace LuaType

/-- The types directly inside a type that a visitor can come by. -/
def children : LuaType → List LuaType
  | .Array base _ => [base]
  | .Tuple types _ => types
  | .DocFunction _ _ _ params _ _ ret => params.filterMap (fun param => param.2) ++ [ret]
  | .Object fields indexAccess =>
    fields.flatMap (fun field => field.1.children ++ [field.2])
      ++ indexAccess.flatMap fun access => [access.1, access.2]
  | .Union (.Nullable type) => [type]
  | .Union (.Multi types) => types
  | .Intersection types => types
  | .MergedTable types => types
  | .Generic _ params => params
  | .TableGeneric types => types
  | .TplRef _ _ constraint => constraint.toList
  | .StrTplRef _ _ _ _ constraint => constraint.toList
  | .Variadic (.Multi types) => types
  | .Variadic (.Base type) => [type]
  | .Instance base _ _ => [base]
  | .Call _ operand => operand
  | .MultiLineUnion unions => unions.map fun arm => arm.1
  | .TypeGuard type => [type]
  | .ConstTplRef _ _ constraint => constraint.toList
  | .DocAttribute params => params.filterMap fun param => param.2
  | .Conditional condition trueType falseType inferParams _ =>
    [condition, trueType, falseType] ++ inferParams.flatMap GenericParam.children
  | .Mapped _ param value _ _ => param.children ++ [value]
  | .TableOf type => [type]
  | _ => []

/-- The types a type is made of: the arguments of the attributes of a generic parameter too. -/
def parts : LuaType → List LuaType
  | .Conditional condition trueType falseType inferParams _ =>
    [condition, trueType, falseType] ++ inferParams.flatMap GenericParam.parts
  | .Mapped _ param value _ _ => param.parts ++ [value]
  | t => t.children

/-- `p` holds of the type or of one it is made of, however deep. -/
inductive Holds (p : LuaType → Prop) : LuaType → Prop where
  | here {t : LuaType} : p t → Holds p t
  | part {t s : LuaType} : s ∈ t.parts → Holds p s → Holds p t

theorem sizeOf_lt_of_mem_filterMap (params : List (SmolStr × Option LuaType)) (s : LuaType)
    (h : s ∈ params.filterMap fun param => param.2) : sizeOf s < sizeOf params := by
  rw [List.mem_filterMap] at h
  obtain ⟨⟨name, type⟩, hmem, htype⟩ := h
  have hlt := List.sizeOf_lt_of_mem hmem
  dsimp only at htype
  subst htype
  simp only [Prod.mk.sizeOf_spec, Option.some.sizeOf_spec] at hlt
  omega

theorem sizeOf_lt_of_mem_toList (o : Option LuaType) (s : LuaType) (h : s ∈ o.toList) :
    sizeOf s < sizeOf o := by
  rw [Option.mem_toList] at h
  subst h
  simp

theorem sizeOf_lt_genericParam (p : GenericParam) (s : LuaType) (h : s ∈ p.parts) :
    sizeOf s < sizeOf p := by
  obtain ⟨name, constraint, attributes⟩ := p
  simp only [GenericParam.parts, List.mem_append, List.mem_flatMap] at h
  obtain h | ⟨use, huse, hs⟩ := h
  · have hlt := sizeOf_lt_of_mem_toList constraint s h
    simp only [GenericParam.mk.sizeOf_spec]
    omega
  · obtain ⟨id, args⟩ := use
    have hlt := sizeOf_lt_of_mem_filterMap args s hs
    cases attributes with
    | none => simp at huse
    | some uses =>
      have hlt' : sizeOf (LuaAttributeUse.mk id args) < sizeOf uses := List.sizeOf_lt_of_mem huse
      simp only [LuaAttributeUse.mk.sizeOf_spec] at hlt'
      simp only [GenericParam.mk.sizeOf_spec, Option.some.sizeOf_spec]
      omega

/-- A type is larger than what it is made of. -/
theorem sizeOf_lt_of_mem_parts (t s : LuaType) (h : s ∈ t.parts) : sizeOf s < sizeOf t := by
  cases t with
  | Array type _ | Instance type _ _ | TypeGuard type | TableOf type =>
    rw [List.mem_singleton.1 h]
    simp +arith
  | Tuple types _ | Intersection types | MergedTable types | Generic _ types
  | TableGeneric types | Call _ types =>
    have hlt : sizeOf s < sizeOf types := List.sizeOf_lt_of_mem h
    exact hlt.trans_le (by simp +arith)
  | TplRef _ _ constraint | StrTplRef _ _ _ _ constraint | ConstTplRef _ _ constraint =>
    have hlt := sizeOf_lt_of_mem_toList constraint s h
    exact hlt.trans_le (by simp +arith)
  | DocFunction asyncState isColonDefine isVariadic params optionalParams callArgRoles ret =>
    rw [DocFunction.sizeOf_spec]
    obtain h | h := List.mem_append.1 h
    · have hlt := sizeOf_lt_of_mem_filterMap params s h
      omega
    · rw [List.mem_singleton.1 h]
      omega
  | Object fields indexAccess =>
    rw [Object.sizeOf_spec]
    obtain h | h := List.mem_append.1 h
    · obtain ⟨⟨key, type⟩, hfield, hs⟩ := List.mem_flatMap.1 h
      have hlt := List.sizeOf_lt_of_mem hfield
      rw [Prod.mk.sizeOf_spec] at hlt
      obtain hs | hs := List.mem_append.1 hs
      · cases key with
        | ExprType type' =>
          rw [LuaMemberKey.ExprType.sizeOf_spec] at hlt
          rw [List.mem_singleton.1 hs]
          omega
        | _ => simp [LuaMemberKey.children] at hs
      · rw [List.mem_singleton.1 hs]
        dsimp only
        omega
    · obtain ⟨⟨key, type⟩, haccess, hs⟩ := List.mem_flatMap.1 h
      have hlt := List.sizeOf_lt_of_mem haccess
      rw [Prod.mk.sizeOf_spec] at hlt
      simp only [List.mem_cons, List.not_mem_nil, or_false] at hs
      obtain rfl | rfl := hs <;> omega
  | Union union =>
    rw [Union.sizeOf_spec]
    cases union with
    | Nullable type =>
      rw [List.mem_singleton.1 h, LuaUnionType.Nullable.sizeOf_spec]
      omega
    | Multi types =>
      have hlt : sizeOf s < sizeOf types := List.sizeOf_lt_of_mem h
      rw [LuaUnionType.Multi.sizeOf_spec]
      omega
  | Variadic variadic =>
    rw [Variadic.sizeOf_spec]
    cases variadic with
    | Multi types =>
      have hlt : sizeOf s < sizeOf types := List.sizeOf_lt_of_mem h
      rw [VariadicType.Multi.sizeOf_spec]
      omega
    | Base type =>
      rw [List.mem_singleton.1 h, VariadicType.Base.sizeOf_spec]
      omega
  | MultiLineUnion unions =>
    obtain ⟨⟨type, doc⟩, harm, hs⟩ := List.mem_map.1 h
    have hlt := List.sizeOf_lt_of_mem harm
    rw [Prod.mk.sizeOf_spec] at hlt
    rw [MultiLineUnion.sizeOf_spec, ← hs]
    dsimp only
    omega
  | DocAttribute params =>
    have hlt := sizeOf_lt_of_mem_filterMap params s h
    rw [DocAttribute.sizeOf_spec]
    omega
  | Conditional condition trueType falseType inferParams hasNew =>
    rw [Conditional.sizeOf_spec]
    obtain h | h := List.mem_append.1 h
    · simp only [List.mem_cons, List.not_mem_nil, or_false] at h
      obtain rfl | rfl | rfl := h <;> omega
    · obtain ⟨param, hparam, hs⟩ := List.mem_flatMap.1 h
      have hlt := List.sizeOf_lt_of_mem hparam
      have hlt' := sizeOf_lt_genericParam param s hs
      omega
  | Mapped tplId param value isReadonly isOptional =>
    rw [Mapped.sizeOf_spec]
    obtain h | h := List.mem_append.1 h
    · have hlt := sizeOf_lt_genericParam param s h
      omega
    · rw [List.mem_singleton.1 h]
      omega
  | _ => cases h

/-- **Induction over what types are made of.** -/
theorem induction_parts {motive : LuaType → Prop}
    (step : ∀ t, (∀ s ∈ t.parts, motive s) → motive t) (t : LuaType) : motive t := by
  induction hsize : sizeOf t using Nat.strongRecOn generalizing t with
  | ind n ih =>
    apply step
    intro s hs
    exact ih (sizeOf s) (hsize ▸ sizeOf_lt_of_mem_parts t s hs) s rfl

/-- A float literal that is no number. -/
def isNaN : LuaType → Bool
  | .FloatConst f => f.isNaN
  | _ => false

end LuaType

end GluaLs.Types
