/-
  GluaLs.Types.HashContent — what a type writes to the hasher while a fact is fingerprinted
  (`LuaType::{hash_content, hash_summary}` of `db_index/type/types.rs`, the derived and
  written `Hash` of what types are made of).

  A hasher is the sequence of words written to it: an integer is one word, whatever its
  width, as for the hasher fingerprints are made with; a string is one word for its bytes and
  one that ends it.  Positions are written as they stand (no edit is being mapped back).

  `hash_content` writes the discriminant and then either the whole content or, for the
  constructors it has no arm for, the summary; nested types are hashed by content again.
-/
import GluaLs.Lib.Decodes
import GluaLs.Types.LuaType

namespace GluaLs.Types

open GluaLs.Lib

/-! ## §1. Words -/

/-- What a hasher is given at once. -/
inductive Word where
  | int (n : Int)
  | bytes (s : SmolStr)
  deriving DecidableEq, Repr

def hashNat (n : Nat) : List Word := [.int n]

def hashInt (n : Int) : List Word := [.int n]

def hashBool (b : Bool) : List Word := [.int (if b then 1 else 0)]

/-- The bytes of a string, and `0xff` behind them. -/
def hashStr (s : SmolStr) : List Word := [.bytes s, .int 0xff]

/-- A list behind its length. -/
def hashList {α : Type} (hash : α → List Word) (l : List α) : List Word :=
  .int l.length :: l.flatMap hash

def hashOption {α : Type} (hash : α → List Word) : Option α → List Word
  | none => [.int 0]
  | some a => .int 1 :: hash a

def hashFileId (fileId : FileId) : List Word := [.int fileId.id.toNat]

def hashRange (range : InFiled TextRange) : List Word :=
  hashFileId range.fileId ++ [.int range.value.start, .int range.value.stop]

def hashSignatureId (id : LuaSignatureId) : List Word :=
  hashFileId id.fileId ++ [.int id.position]

def hashDeclId : LuaTypeDeclId → List Word
  | .Global name => .int 0 :: hashStr name
  | .Local fileId name => .int 1 :: (hashFileId fileId ++ hashStr name)

def hashArrayLen : LuaArrayLen → List Word
  | .None => [.int 0]
  | .Max n => [.int 1, .int n]

def hashTplId : GenericTplId → List Word
  | .Type idx => [.int 0, .int idx]
  | .Func idx => [.int 1, .int idx]

def hashRole (role : LuaCallArgRole) : List Word :=
  hashNat role.paramIdx ++ hashStr role.domain ++ hashStr role.role
    ++ hashList hashStr role.fieldPath ++ hashOption hashInt role.priority

/-! ## §2. The content of a type -/

mutual

def LuaType.hashContent : LuaType → List Word
  | .Unknown => [.int 0, .int 0]
  | .Any => [.int 1, .int 1]
  | .Nil => [.int 2, .int 2]
  | .Table => [.int 3, .int 3]
  | .Userdata => [.int 4, .int 4]
  | .Function => [.int 5, .int 5]
  | .Thread => [.int 6, .int 6]
  | .Boolean => [.int 7, .int 7]
  | .String => [.int 8, .int 8]
  | .Integer => [.int 9, .int 9]
  | .Number => [.int 10, .int 10]
  | .Io => [.int 11, .int 11]
  | .SelfInfer => [.int 12, .int 12]
  | .Global => [.int 13, .int 13]
  | .Never => [.int 14, .int 45]
  | .BooleanConst b => .int 15 :: .int 14 :: hashBool b
  | .StringConst s => .int 16 :: .int 15 :: hashStr s
  | .IntegerConst n => .int 17 :: .int 16 :: hashInt n
  | .FloatConst f => .int 18 :: .int 17 :: hashNat f.bits.toNat
  | .TableConst range => .int 19 :: .int 18 :: hashRange range
  | .Ref id => .int 20 :: .int 19 :: hashDeclId id
  | .Def id => .int 21 :: .int 20 :: hashDeclId id
  | .Array base len => .int 22 :: .int 22 :: (base.hashContent ++ hashArrayLen len)
  | .Tuple types status =>
    .int 23 :: .int 25 :: (.int types.length :: LuaType.hashEach types ++ hashNat status.ctorIdx)
  | .DocFunction asyncState isColonDefine isVariadic params optionalParams callArgRoles ret =>
    .int 24 :: .int 26 :: (hashNat asyncState.ctorIdx ++ (hashBool isColonDefine
      ++ (hashBool isVariadic ++ (.int params.length :: LuaType.hashEachParam params
      ++ (hashList hashBool optionalParams ++ (hashList hashRole callArgRoles
      ++ ret.hashContent))))))
  -- the fields are not counted
  | .Object fields indexAccess =>
    .int 25 :: (LuaType.hashEachField fields
      ++ .int indexAccess.length :: LuaType.hashEachPair indexAccess)
  | .Union union => .int 26 :: union.hashContent
  | .Intersection types => .int 27 :: .int types.length :: LuaType.hashEach types
  | .MergedTable types => .int 28 :: .int 54 :: .int types.length :: LuaType.hashEach types
  | .Generic base params =>
    .int 29 :: (hashDeclId base ++ .int params.length :: LuaType.hashEach params)
  | .TableGeneric types => .int 30 :: .int types.length :: LuaType.hashEach types
  | .TplRef tplId name constraint =>
    .int 31 :: (hashTplId tplId ++ (hashStr name ++ LuaType.hashOpt constraint))
  -- no arm of `hash_content`: the summary of a string template is its id
  | .StrTplRef _ tplId _ _ _ => .int 32 :: .int 33 :: hashTplId tplId
  | .Variadic variadic => .int 33 :: variadic.hashContent
  | .Signature id => .int 34 :: .int 36 :: hashSignatureId id
  | .Instance base range kind =>
    .int 35 :: .int 37 :: (base.hashContent ++ (hashRange range ++ hashNat kind.ctorIdx))
  | .DocStringConst s => .int 36 :: .int 38 :: hashStr s
  | .DocIntegerConst n => .int 37 :: .int 39 :: hashInt n
  | .DocBooleanConst b => .int 38 :: .int 35 :: hashBool b
  | .Namespace s => .int 39 :: .int 40 :: hashStr s
  | .Call callKind operand =>
    .int 40 :: .int 23 :: (hashNat callKind.ctorIdx
      ++ .int operand.length :: LuaType.hashEach operand)
  | .MultiLineUnion unions => .int 41 :: .int unions.length :: LuaType.hashEachArm unions
  | .TypeGuard type => .int 42 :: .int 44 :: type.hashContent
  | .ConstTplRef tplId name constraint =>
    .int 43 :: (hashTplId tplId ++ (hashStr name ++ LuaType.hashOpt constraint))
  | .Language s => .int 44 :: .int 47 :: hashStr s
  | .ModuleRef fileId => .int 45 :: .int 48 :: hashFileId fileId
  | .DocAttribute params => .int 46 :: .int 52 :: .int params.length :: LuaType.hashEachParam params
  | .Conditional condition trueType falseType inferParams hasNew =>
    .int 47 :: (condition.hashContent ++ (trueType.hashContent ++ (falseType.hashContent
      ++ (.int inferParams.length :: LuaType.hashEachGenericParam inferParams
      ++ hashBool hasNew))))
  | .ConditionalInfer s => .int 48 :: .int 50 :: hashStr s
  | .Mapped tplId param value isReadonly isOptional =>
    .int 49 :: (hashTplId tplId ++ (param.hashContent ++ (value.hashContent
      ++ (hashBool isReadonly ++ hashBool isOptional))))
  | .TableOf type => .int 50 :: .int 53 :: type.hashContent

def LuaUnionType.hashContent : LuaUnionType → List Word
  | .Nullable type => .int 0 :: type.hashContent
  | .Multi types => .int 1 :: .int types.length :: LuaType.hashEach types

def VariadicType.hashContent : VariadicType → List Word
  | .Multi types => .int 0 :: .int types.length :: LuaType.hashEach types
  | .Base type => .int 1 :: type.hashContent

def LuaMemberKey.hashContent : LuaMemberKey → List Word
  | .None => [.int 0]
  | .Integer n => .int 1 :: hashInt n
  | .Name s => .int 2 :: hashStr s
  | .ExprType type => .int 3 :: type.hashContent

def GenericParam.hashContent : GenericParam → List Word
  | .mk name typeConstraint attributes =>
    hashStr name ++ (LuaType.hashOpt typeConstraint ++ LuaType.hashOptUses attributes)

def LuaAttributeUse.hashContent : LuaAttributeUse → List Word
  | .mk id args => hashDeclId id ++ .int args.length :: LuaType.hashEachParam args

def LuaType.hashOpt : Option LuaType → List Word
  | none => [.int 0]
  | some t => .int 1 :: t.hashContent

def LuaType.hashOptUses : Option (List LuaAttributeUse) → List Word
  | none => [.int 0]
  | some uses => .int 1 :: .int uses.length :: LuaType.hashEachUse uses

def LuaType.hashEach : List LuaType → List Word
  | [] => []
  | t :: types => t.hashContent ++ LuaType.hashEach types

def LuaType.hashEachParam : List (SmolStr × Option LuaType) → List Word
  | [] => []
  | (name, type) :: params =>
    hashStr name ++ (LuaType.hashOpt type ++ LuaType.hashEachParam params)

def LuaType.hashEachField : List (LuaMemberKey × LuaType) → List Word
  | [] => []
  | (key, value) :: fields =>
    key.hashContent ++ (value.hashContent ++ LuaType.hashEachField fields)

def LuaType.hashEachPair : List (LuaType × LuaType) → List Word
  | [] => []
  | (key, value) :: pairs =>
    key.hashContent ++ (value.hashContent ++ LuaType.hashEachPair pairs)

def LuaType.hashEachArm : List (LuaType × Option SmolStr) → List Word
  | [] => []
  | (type, doc) :: arms =>
    type.hashContent ++ (hashOption hashStr doc ++ LuaType.hashEachArm arms)

def LuaType.hashEachGenericParam : List GenericParam → List Word
  | [] => []
  | param :: params => param.hashContent ++ LuaType.hashEachGenericParam params

def LuaType.hashEachUse : List LuaAttributeUse → List Word
  | [] => []
  | use :: uses => use.hashContent ++ LuaType.hashEachUse uses

end

/-! ## §3. What is written is read back -/

theorem int_natCast_injective : Function.Injective fun n : Nat => Word.int n := by
  intro m n h
  injection h with h
  exact Int.ofNat.inj h

theorem decodes_hashNat (n : Nat) : Decodes hashNat n :=
  decodes_word (fun n : Nat => Word.int n) int_natCast_injective n

theorem decodes_hashInt (n : Int) : Decodes hashInt n :=
  decodes_word Word.int (fun _ _ h => Word.int.inj h) n

theorem decodes_hashBool (b : Bool) : Decodes hashBool b := by
  apply decodes_word (fun b : Bool => Word.int (if b then 1 else 0))
  intro a b h
  revert h
  cases a <;> cases b <;> simp

theorem decodes_hashStr (s : SmolStr) : Decodes hashStr s := by
  intro s' u v h
  obtain ⟨hs, h'⟩ := List.cons.inj h
  exact ⟨Word.bytes.inj hs, (List.cons.inj h').2⟩

/-- A list is read back by the length in front of it. -/
theorem decodes_hashList {α : Type} {hash : α → List Word} (l : List α)
    (h : ∀ a ∈ l, Decodes hash a) : Decodes (hashList hash) l :=
  Decodes.list (fun n : Nat => Word.int n) int_natCast_injective l h

theorem decodes_hashOption {α : Type} {hash : α → List Word} (o : Option α)
    (h : ∀ a ∈ o.toList, Decodes hash a) : Decodes (hashOption hash) o := by
  intro o' u v heq
  apply Decodes.option (Word.int 0) (Word.int 1) (by simp) o h o' u v
  cases o <;> cases o' <;> exact heq

/-- A code in terms of an injective part. -/
theorem Decodes.comap {α β : Type} {code : β → List Word} (f : α → β)
    (hf : Function.Injective f) (a : α) (h : Decodes code (f a)) :
    Decodes (fun a => code (f a)) a := by
  intro b u v heq
  obtain ⟨hab, huv⟩ := h (f b) u v heq
  exact ⟨hf hab, huv⟩

theorem decodes_hashFileId (fileId : FileId) : Decodes hashFileId fileId := by
  apply Decodes.comap (fun fileId : FileId => fileId.id.toNat) ?_ fileId (decodes_hashNat _)
  intro f g h
  obtain ⟨f⟩ := f
  obtain ⟨g⟩ := g
  exact congrArg FileId.mk (UInt32.toNat_inj.1 h)

theorem decodes_hashRange (range : InFiled TextRange) : Decodes hashRange range := by
  obtain ⟨fileId, start, stop⟩ := range
  intro range' u v h
  obtain ⟨fileId', start', stop'⟩ := range'
  simp only [hashRange, List.append_assoc, List.cons_append, List.nil_append] at h
  obtain ⟨hfile, h⟩ := decodes_hashFileId fileId _ _ _ h
  obtain ⟨hstart, h⟩ := List.cons.inj h
  obtain ⟨hstop, h⟩ := List.cons.inj h
  have hstart' := int_natCast_injective hstart
  have hstop' := int_natCast_injective hstop
  exact ⟨by rw [hfile, hstart', hstop'], h⟩

theorem decodes_hashSignatureId (id : LuaSignatureId) : Decodes hashSignatureId id := by
  obtain ⟨fileId, position⟩ := id
  intro id' u v h
  obtain ⟨fileId', position'⟩ := id'
  simp only [hashSignatureId, List.append_assoc, List.cons_append, List.nil_append] at h
  obtain ⟨hfile, h⟩ := decodes_hashFileId fileId _ _ _ h
  obtain ⟨hposition, h⟩ := List.cons.inj h
  exact ⟨by rw [hfile, int_natCast_injective hposition], h⟩

/-- The two kinds of ids begin with different words. -/
theorem decodes_hashDeclId (id : LuaTypeDeclId) : Decodes hashDeclId id := by
  intro id' u v h
  cases id with
  | Global name =>
    cases id' with
    | Global name' =>
      obtain ⟨hname, huv⟩ := decodes_hashStr name name' u v (List.cons.inj h).2
      exact ⟨by rw [hname], huv⟩
    | Local fileId' name' => exact absurd (List.cons.inj h).1 (by simp)
  | Local fileId name =>
    cases id' with
    | Global name' => exact absurd (List.cons.inj h).1 (by simp)
    | Local fileId' name' =>
      obtain ⟨hpair, huv⟩ := ((decodes_hashFileId fileId).pair (decodes_hashStr name))
        (fileId', name') u v (List.cons.inj h).2
      injection hpair with hfile hname
      exact ⟨by rw [hfile, hname], huv⟩

theorem decodes_hashArrayLen (len : LuaArrayLen) : Decodes hashArrayLen len := by
  intro len' u v h
  cases len with
  | None =>
    cases len' with
    | None => exact ⟨rfl, (List.cons.inj h).2⟩
    | Max n' => exact absurd (List.cons.inj h).1 (by simp)
  | Max n =>
    cases len' with
    | None => exact absurd (List.cons.inj h).1 (by simp)
    | Max n' =>
      obtain ⟨hn, huv⟩ := decodes_hashInt n n' u v (List.cons.inj h).2
      exact ⟨by rw [hn], huv⟩

theorem decodes_hashTplId (id : GenericTplId) : Decodes hashTplId id := by
  intro id' u v h
  obtain idx | idx := id
  · obtain idx' | idx' := id'
    · obtain ⟨hidx, huv⟩ := decodes_hashNat idx idx' u v (List.cons.inj h).2
      exact ⟨by rw [hidx], huv⟩
    · exact absurd (List.cons.inj h).1 (by simp)
  · obtain idx' | idx' := id'
    · exact absurd (List.cons.inj h).1 (by simp)
    · obtain ⟨hidx, huv⟩ := decodes_hashNat idx idx' u v (List.cons.inj h).2
      exact ⟨by rw [hidx], huv⟩

theorem decodes_hashRole (role : LuaCallArgRole) : Decodes hashRole role := by
  obtain ⟨paramIdx, domain, name, fieldPath, priority⟩ := role
  intro role' u v h
  obtain ⟨paramIdx', domain', name', fieldPath', priority'⟩ := role'
  simp only [hashRole, List.append_assoc] at h
  obtain ⟨hidx, h⟩ := decodes_hashNat paramIdx _ _ _ h
  obtain ⟨hdomain, h⟩ := decodes_hashStr domain _ _ _ h
  obtain ⟨hname, h⟩ := decodes_hashStr name _ _ _ h
  obtain ⟨hpath, h⟩ := decodes_hashList fieldPath (fun s _ => decodes_hashStr s) _ _ _ h
  obtain ⟨hpriority, h⟩ := decodes_hashOption priority (fun n _ => decodes_hashInt n) _ _ _ h
  exact ⟨by rw [hidx, hdomain, hname, hpath, hpriority], h⟩

/-! ## §4. Parts of types -/

namespace LuaType

theorem hashOpt_eq : hashOpt = hashOption hashContent := by
  funext o
  cases o <;> rfl

/-- The members of a list, one behind the other. -/
theorem hashEach_eq_flatMap (types : List LuaType) :
    hashEach types = types.flatMap hashContent := by
  induction types with
  | nil => rfl
  | cons t types ih =>
    show t.hashContent ++ hashEach types = _
    rw [ih, List.flatMap_cons]

theorem hashEachParam_eq_flatMap (params : List (SmolStr × Option LuaType)) :
    hashEachParam params = params.flatMap fun param => hashStr param.1 ++ hashOpt param.2 := by
  induction params with
  | nil => rfl
  | cons param params ih =>
    obtain ⟨name, type⟩ := param
    show hashStr name ++ (hashOpt type ++ hashEachParam params) = _
    rw [ih, List.flatMap_cons, List.append_assoc]

theorem hashEachArm_eq_flatMap (arms : List (LuaType × Option SmolStr)) :
    hashEachArm arms = arms.flatMap fun arm => arm.1.hashContent ++ hashOption hashStr arm.2 := by
  induction arms with
  | nil => rfl
  | cons arm arms ih =>
    obtain ⟨type, doc⟩ := arm
    show type.hashContent ++ (hashOption hashStr doc ++ hashEachArm arms) = _
    rw [ih, List.flatMap_cons, List.append_assoc]

theorem hashEachUse_eq_flatMap (uses : List LuaAttributeUse) :
    hashEachUse uses = uses.flatMap LuaAttributeUse.hashContent := by
  induction uses with
  | nil => rfl
  | cons use uses ih =>
    show use.hashContent ++ hashEachUse uses = _
    rw [ih, List.flatMap_cons]

theorem hashEachGenericParam_eq_flatMap (params : List GenericParam) :
    hashEachGenericParam params = params.flatMap GenericParam.hashContent := by
  induction params with
  | nil => rfl
  | cons param params ih =>
    show param.hashContent ++ hashEachGenericParam params = _
    rw [ih, List.flatMap_cons]

end LuaType

end GluaLs.Types
