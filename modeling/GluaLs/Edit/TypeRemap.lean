/-
  GluaLs.Edit.TypeRemap — the identities a type holds, and the type an edit makes of it
  (`type_referenced_files` and `remap_identities_in_type` of `db_index/type/mod.rs`,
  `type_visit_trait.rs`).

  Every composite is rewritten the same way: nothing where no part moved, the composite of
  the new parts where one did, and lost where one is lost.
-/
import GluaLs.Edit.PositionMap
import GluaLs.Types.UnionDef

namespace GluaLs.Edit

open GluaLs.Types

/-! ## §1. Images of ranges

  An identity is a position of a file.  After an edit it is UNRELATED to the edited file, has
  MOVED, or is LOST.  A type is rewritten throughout, or not at all: one lost identity in it
  and the whole is lost.
-/

namespace PositionMap

/-- `PositionMap::first_change` -/
def firstChange (f : PositionMap) : Nat := (f.hunks.head?.map Hunk.oldStart).getD (U32_SIZE - 1)

/-- The last hunk the predicate holds of. -/
def hunkBefore (f : PositionMap) (pred : Hunk → Bool) : Option Hunk :=
  match partitionPoint f.hunks pred with
  | 0 => none
  | at' + 1 => f.hunks[at']?

/-- `PositionMap::start_image` -/
def startImage (f : PositionMap) (p : Nat) : Option Nat :=
  match f.hunkBefore fun hunk => hunk.oldStart ≤ p with
  | none => some p
  | some hunk =>
    if hunk.oldStart = p then
      some (if hunk.oldStart = hunk.oldEnd then hunk.newEnd else hunk.newStart)
    else if p ≥ hunk.oldEnd then some (u32 (p - hunk.oldEnd + hunk.newEnd))
    else none

/-- `PositionMap::end_image` -/
def endImage (f : PositionMap) (p : Nat) : Option Nat :=
  match f.hunkBefore fun hunk => hunk.oldStart < p with
  | none => some p
  | some hunk => if p ≥ hunk.oldEnd then some (u32 (p - hunk.oldEnd + hunk.newEnd)) else none

/-- `PositionMap::map_range` -/
def mapRange (f : PositionMap) (range : TextRange) : Option TextRange :=
  if range.start = range.stop then (f.endImage range.stop).map fun at' => ⟨at', at'⟩
  else
    match f.startImage range.start, f.endImage range.stop with
    | some start, some stop => if start ≤ stop then some ⟨start, stop⟩ else none
    | _, _ => none

end PositionMap

/-! ## §2. Identities -/

/-- `LuaSyntaxId`; the kind of a node or token, by its number. -/
structure LuaSyntaxId where
  kind : Nat
  range : TextRange
  deriving DecidableEq

structure LuaMemberId where
  fileId : FileId
  id : LuaSyntaxId
  slot : Nat
  deriving DecidableEq

structure LuaDeclId where
  fileId : FileId
  position : Nat
  deriving DecidableEq

/-- `LuaKind::Syntax(LuaSyntaxKind::DocTagClass)` -/
def docTagClass : Nat := 0x802F

/-- `get_kind() as u16`: a token has no node kind. -/
def LuaSyntaxId.getKind (id : LuaSyntaxId) : Nat := if 0x8000 ≤ id.kind then id.kind - 0x8000 else 0

inductive LuaTypeOwner where
  | Decl (id : LuaDeclId)
  | Member (id : LuaMemberId)
  | SyntaxId (id : InFiled LuaSyntaxId)
  deriving DecidableEq

def LuaTypeOwner.getFileId : LuaTypeOwner → FileId
  | .Decl id => id.fileId
  | .Member id => id.fileId
  | .SyntaxId id => id.fileId

inductive LuaDefinitionId where
  | Declaration (id : LuaDeclId)
  | Assignment (fileId : FileId) (assignment : LuaSyntaxId) (targetIdx : Nat)
  deriving DecidableEq

def LuaDefinitionId.fileId : LuaDefinitionId → FileId
  | .Declaration id => id.fileId
  | .Assignment fileId _ _ => fileId

inductive LuaInferenceNodeId where
  | TypeOwner (owner : LuaTypeOwner)
  | Definition (definition : LuaDefinitionId)
  | SignatureParam (signatureId : LuaSignatureId) (paramIdx : Nat)
  deriving DecidableEq

def LuaInferenceNodeId.fileId : LuaInferenceNodeId → FileId
  | .TypeOwner owner => owner.getFileId
  | .Definition definition => definition.fileId
  | .SignatureParam signatureId _ => signatureId.fileId

inductive LuaSemanticDeclId where
  | TypeDecl (id : LuaTypeDeclId)
  | Member (id : LuaMemberId)
  | LuaDecl (id : LuaDeclId)
  | Signature (id : LuaSignatureId)
  deriving DecidableEq

def LuaSemanticDeclId.getFileId : LuaSemanticDeclId → Option FileId
  | .TypeDecl _ => none
  | .Member id => some id.fileId
  | .LuaDecl id => some id.fileId
  | .Signature id => some id.fileId

inductive Remap (T : Type) where
  | Unrelated
  | Moved (value : T)
  | Lost
  deriving DecidableEq

def Remap.mapInto {T U : Type} (build : T → U) : Remap T → Remap U
  | .Moved value => .Moved (build value)
  | .Unrelated => .Unrelated
  | .Lost => .Lost

inductive LuaDeclTypeKind where
  | Class | Enum | Alias | Attribute
  deriving DecidableEq

/-- `FileFacts`: what the edited file holds, as far as the identities below ask. -/
structure FileFacts where
  signaturePositions : List Nat
  declPositions : List Nat
  memberIds : List LuaMemberId
  syntaxIds : List LuaSyntaxId
  ownerRanges : List TextRange
  typeDeclSpans : List (LuaTypeDeclId × TextRange × LuaDeclTypeKind)

def FileFacts.uniqueCoveringDecl (facts : FileFacts) (range : TextRange) : Option TextRange :=
  match facts.typeDeclSpans.filter fun site =>
      site.2.2 = .Class ∧ site.2.1.start ≤ range.start ∧ range.stop ≤ site.2.1.stop with
  | [site] => some site.2.1
  | _ => none

structure FileRemap where
  fileId : FileId
  map : PositionMap
  facts : Option FileFacts

namespace FileRemap

variable (remap : FileRemap)

def pos (file : FileId) (position : Nat) : Remap Nat :=
  if file = remap.fileId then
    match remap.map.map position with
    | some mapped => .Moved mapped
    | none => .Lost
  else .Unrelated

def range (file : FileId) (range : TextRange) : Remap TextRange :=
  if file = remap.fileId then
    match remap.map.mapRange range with
    | some mapped => .Moved mapped
    | none => .Lost
  else .Unrelated

def posIsBeforeTheHunk (position : Nat) : Bool := position < remap.map.firstChange

def rangeIsBeforeTheHunk (range : TextRange) : Bool := range.stop < remap.map.firstChange

def resolve {T : Type} (mapped : Remap T) (beforeTheHunk : Bool)
    (occupied : FileFacts → Bool) (exist : FileFacts → T → Bool) : Remap T :=
  match remap.facts, mapped with
  | none, _ => mapped
  | some _, .Unrelated => .Unrelated
  | some facts, .Moved value =>
    if beforeTheHunk then mapped
    else if exist facts value then mapped
    -- the entry at the old place has not been rebuilt yet: both stay in step
    else if occupied facts then .Unrelated
    else .Lost
  | some facts, .Lost =>
    if beforeTheHunk then .Lost
    else if occupied facts then .Unrelated
    else .Lost

def signatureId (id : LuaSignatureId) : Remap LuaSignatureId :=
  remap.resolve ((remap.pos id.fileId id.position).mapInto fun position => ⟨id.fileId, position⟩)
    (remap.posIsBeforeTheHunk id.position)
    (fun facts => decide (id.position ∈ facts.signaturePositions))
    (fun facts id => decide (id.position ∈ facts.signaturePositions))

def declId (id : LuaDeclId) : Remap LuaDeclId :=
  remap.resolve ((remap.pos id.fileId id.position).mapInto fun position => ⟨id.fileId, position⟩)
    (remap.posIsBeforeTheHunk id.position)
    (fun facts => decide (id.position ∈ facts.declPositions))
    (fun facts id => decide (id.position ∈ facts.declPositions))

def syntaxId (file : FileId) (id : LuaSyntaxId) : Remap LuaSyntaxId :=
  let mapped := (remap.range file id.range).mapInto fun range => { id with range := range }
  let inPlace := remap.resolve mapped (remap.rangeIsBeforeTheHunk id.range)
    (fun facts => decide (id ∈ facts.syntaxIds))
    (fun facts value => decide (value ∈ facts.syntaxIds))
  if id.kind = docTagClass ∧ file = remap.fileId then
    match mapped with
    | .Moved moved =>
      if remap.facts.any fun facts => decide (moved ∈ facts.syntaxIds) then inPlace
      else
        -- a class whose span is the whole file: the one declaration that covers it
        match remap.facts.bind fun facts => facts.uniqueCoveringDecl moved.range with
        | some cover => .Moved { id with range := cover }
        | none => inPlace
    | _ => inPlace
  else inPlace

def memberId (id : LuaMemberId) : Remap LuaMemberId :=
  remap.resolve ((remap.range id.fileId id.id.range).mapInto fun range =>
      ⟨id.fileId, { id.id with range := range }, id.slot⟩)
    (remap.rangeIsBeforeTheHunk id.id.range)
    (fun facts => decide (id ∈ facts.memberIds))
    (fun facts id => decide (id ∈ facts.memberIds))

def tableRange (range : InFiled TextRange) : Remap (InFiled TextRange) :=
  remap.resolve ((remap.range range.fileId range.value).mapInto fun value =>
      ⟨range.fileId, value⟩)
    (remap.rangeIsBeforeTheHunk range.value)
    (fun facts => decide (range.value ∈ facts.ownerRanges))
    (fun facts range => decide (range.value ∈ facts.ownerRanges))

def typeOwner : LuaTypeOwner → Remap LuaTypeOwner
  | .Decl id => (remap.declId id).mapInto .Decl
  | .Member id => (remap.memberId id).mapInto .Member
  | .SyntaxId id => (remap.syntaxId id.fileId id.value).mapInto fun value =>
    .SyntaxId ⟨id.fileId, value⟩

def definitionId : LuaDefinitionId → Remap LuaDefinitionId
  | .Declaration id => (remap.declId id).mapInto .Declaration
  | .Assignment fileId assignment targetIdx =>
    (remap.syntaxId fileId assignment).mapInto fun assignment =>
      .Assignment fileId assignment targetIdx

def inferenceNode : LuaInferenceNodeId → Remap LuaInferenceNodeId
  | .TypeOwner owner => (remap.typeOwner owner).mapInto .TypeOwner
  | .Definition definition => (remap.definitionId definition).mapInto .Definition
  | .SignatureParam signatureId paramIdx =>
    (remap.signatureId signatureId).mapInto fun signatureId =>
      .SignatureParam signatureId paramIdx

def semanticDeclId : LuaSemanticDeclId → Remap LuaSemanticDeclId
  -- a type is named, not positioned
  | .TypeDecl _ => .Unrelated
  | .Member id => (remap.memberId id).mapInto .Member
  | .LuaDecl id => (remap.declId id).mapInto .LuaDecl
  | .Signature id => (remap.signatureId id).mapInto .Signature

end FileRemap

/-! ## §3. The files a type names -/

mutual

/-- `type_referenced_files`: the files of the identities `visit_type_identities` comes by. -/
def typeReferencedFiles : LuaType → List FileId
  | .TableConst range => [range.fileId]
  | .Signature id => [id.fileId]
  | .Instance base range _ => range.fileId :: typeReferencedFiles base
  | .Array base _ => typeReferencedFiles base
  | .Tuple types _ => filesOfTypes types
  | .DocFunction _ _ _ params _ _ ret => filesOfParams params ++ typeReferencedFiles ret
  | .Object fields indexAccess => filesOfFields fields ++ filesOfPairs indexAccess
  | .Union union => filesOfUnion union
  | .Intersection types => filesOfTypes types
  | .MergedTable types => filesOfTypes types
  | .Generic _ params => filesOfTypes params
  | .TableGeneric types => filesOfTypes types
  | .TplRef _ _ constraint => filesOfOption constraint
  | .ConstTplRef _ _ constraint => filesOfOption constraint
  | .StrTplRef _ _ _ _ constraint => filesOfOption constraint
  | .Variadic variadic => filesOfVariadic variadic
  | .Call _ operand => filesOfTypes operand
  | .MultiLineUnion unions => filesOfArms unions
  | .TypeGuard type => typeReferencedFiles type
  | .DocAttribute params => filesOfParams params
  | .Conditional condition trueType falseType inferParams _ =>
    typeReferencedFiles condition ++ typeReferencedFiles trueType ++
      typeReferencedFiles falseType ++ filesOfGenericParams inferParams
  | .Mapped _ param value _ _ => filesOfGenericParam param ++ typeReferencedFiles value
  | .TableOf type => typeReferencedFiles type
  | _ => []
termination_by structural x => x

def filesOfTypes : List LuaType → List FileId
  | [] => []
  | type :: types => typeReferencedFiles type ++ filesOfTypes types
termination_by structural x => x

def filesOfOption : Option LuaType → List FileId
  | none => []
  | some type => typeReferencedFiles type
termination_by structural x => x

def filesOfParams : List (SmolStr × Option LuaType) → List FileId
  | [] => []
  | (_, type) :: params => filesOfOption type ++ filesOfParams params
termination_by structural x => x

def filesOfFields : List (LuaMemberKey × LuaType) → List FileId
  | [] => []
  | (key, type) :: fields => filesOfKey key ++ typeReferencedFiles type ++ filesOfFields fields
termination_by structural x => x

def filesOfPairs : List (LuaType × LuaType) → List FileId
  | [] => []
  | (key, type) :: pairs =>
    typeReferencedFiles key ++ typeReferencedFiles type ++ filesOfPairs pairs
termination_by structural x => x

def filesOfArms : List (LuaType × Option SmolStr) → List FileId
  | [] => []
  | (type, _) :: arms => typeReferencedFiles type ++ filesOfArms arms
termination_by structural x => x

def filesOfGenericParams : List GenericParam → List FileId
  | [] => []
  | param :: params => filesOfGenericParam param ++ filesOfGenericParams params
termination_by structural x => x

def filesOfGenericParam : GenericParam → List FileId
  | .mk _ typeConstraint _ => filesOfOption typeConstraint
termination_by structural x => x

def filesOfKey : LuaMemberKey → List FileId
  | .ExprType type => typeReferencedFiles type
  | _ => []
termination_by structural x => x

def filesOfUnion : LuaUnionType → List FileId
  | .Nullable type => typeReferencedFiles type
  | .Multi types => filesOfTypes types
termination_by structural x => x

def filesOfVariadic : VariadicType → List FileId
  | .Multi types => filesOfTypes types
  | .Base type => typeReferencedFiles type
termination_by structural x => x

end

/-! ## §4. What is built again -/

mutual

def flattenMergedTable : LuaType → List LuaType
  | .MergedTable types => flattenMergedTables types
  | type => [type]
termination_by structural x => x

def flattenMergedTables : List LuaType → List LuaType
  | [] => []
  | type :: types => flattenMergedTable type ++ flattenMergedTables types
termination_by structural x => x

end

/-- `LuaMergedTableType::new` -/
def newMergedTable (h : Hashing) (types : List LuaType) : LuaType :=
  .MergedTable (LuaType.dedupTypes (LuaType.sortTypes h (flattenMergedTables types)))

/-- `<` of member keys -/
def keyLt (h : Hashing) : LuaMemberKey → LuaMemberKey → Bool
  | .None, .None => false
  | .None, _ => true
  | _, .None => false
  | .Integer a, .Integer b => a < b
  | .Integer _, _ => true
  | _, .Integer _ => false
  | .Name a, .Name b => a < b
  | .Name _, _ => true
  | _, .Name _ => false
  | .ExprType a, .ExprType b => a.sortKey h < b.sortKey h

/-- `BTreeMap::insert`: a key that compares equal to one that is there keeps it, and its value
    goes. -/
def insertField (h : Hashing) (key : LuaMemberKey) (type : LuaType) :
    List (LuaMemberKey × LuaType) → List (LuaMemberKey × LuaType)
  | [] => [(key, type)]
  | (key', type') :: fields =>
    if keyLt h key' key then (key', type') :: insertField h key type fields
    else if keyLt h key key' then (key, type) :: (key', type') :: fields
    else (key', type) :: fields

/-- `Vec::resize` with `false` -/
def resize (flags : List Bool) (len : Nat) : List Bool :=
  flags.take len ++ List.replicate (len - flags.length) false

/-! ## §5. Rewriting -/

/-- What `remap_identities_in_type` asks of a remap: where a signature and a table literal have
    gone. -/
structure IdentityRemap where
  signatureId : LuaSignatureId → Remap LuaSignatureId
  tableRange : InFiled TextRange → Remap (InFiled TextRange)

def FileRemap.identities (remap : FileRemap) : IdentityRemap where
  signatureId := remap.signatureId
  tableRange := remap.tableRange

/-- Whether a type differs from its own clone.  What is behind a shared pointer is the same
    allocation and equals itself; a float literal and what is boxed are compared. -/
def differsFromClone : LuaType → Bool
  | .FloatConst f => f.isNaN
  | .TableOf type => differsFromClone type
  | _ => false

structure TypeRemapResult where
  typ : Option LuaType
  lost : Bool

namespace TypeRemapResult

def unchanged : TypeRemapResult := ⟨none, false⟩

def moved (type : LuaType) : TypeRemapResult := ⟨some type, false⟩

def isLost : TypeRemapResult := ⟨none, true⟩

def fromChildList {T : Type} (rebuild : T → LuaType) : Remap T → TypeRemapResult
  | .Lost => isLost
  | .Unrelated => unchanged
  | .Moved parts => moved (rebuild parts)

def fromSingle (result : TypeRemapResult) (rebuild : LuaType → LuaType) : TypeRemapResult :=
  if result.lost then isLost
  else
    match result.typ with
    | some inner => moved (rebuild inner)
    | none => unchanged

/-- An identity that may have moved. -/
def fromIdentity {T : Type} [DecidableEq T] (old : T) (rebuild : T → LuaType) :
    Remap T → TypeRemapResult
  | .Moved new => if new ≠ old then moved (rebuild new) else unchanged
  | .Unrelated => unchanged
  | .Lost => isLost

/-- The type that was asked about, or what became of it. -/
def orOld (result : TypeRemapResult) (old : LuaType) : LuaType := result.typ.getD old

/-- Whether what became of the type differs from it: `&new != old`. -/
def differs (result : TypeRemapResult) (old : LuaType) : Bool :=
  match result.typ with
  | some new => !new.eq old
  | none => differsFromClone old

/-- Lost, changed or neither. -/
def ofParts (lost changed : Bool) (rebuilt : LuaType) : TypeRemapResult :=
  if lost then isLost else if changed then moved rebuilt else unchanged

end TypeRemapResult

/-- One more part of a list of which the rest was looked at. -/
def Remap.consPart {T : Type} (part : T) (moved : Option T) (rest : List T) :
    Remap (List T) → Remap (List T)
  | .Lost => .Lost
  | .Moved parts => .Moved (moved.getD part :: parts)
  | .Unrelated =>
    match moved with
    | some new => .Moved (new :: rest)
    | none => .Unrelated

open TypeRemapResult

section

variable (h : Hashing) (remap : IdentityRemap)

mutual

/-- **`remap_identities_in_type`.** -/
def remapIdentitiesInType : LuaType → TypeRemapResult
  | .Signature old => fromIdentity old .Signature (remap.signatureId old)
  | .TableConst old => fromIdentity old .TableConst (remap.tableRange old)
  | .Instance base range kind =>
    let newBase := remapIdentitiesInType base
    match remap.tableRange range with
    | .Lost => isLost
    | .Unrelated =>
      ofParts newBase.lost newBase.typ.isSome (.Instance (newBase.orOld base) range kind)
    | .Moved mapped =>
      ofParts newBase.lost (newBase.typ.isSome || decide (mapped ≠ range))
        (.Instance (newBase.orOld base) mapped kind)
  | .Union (.Multi types) =>
    fromChildList (fun types => .Union (.Multi types)) (remapChildTypes types)
  | .Union (.Nullable inner) =>
    fromSingle (remapIdentitiesInType inner) fun inner => .Union (.Nullable inner)
  | .Intersection types => fromChildList .Intersection (remapChildTypes types)
  | .MergedTable types => fromChildList (newMergedTable h) (remapChildTypes types)
  | .Array base len => fromSingle (remapIdentitiesInType base) fun base => .Array base len
  | .Tuple types status =>
    fromChildList (fun types => .Tuple types status) (remapChildTypes types)
  | .Object fields indexAccess =>
    let newFields := remapFields fields []
    let newAccess := remapPairs indexAccess
    ofParts (newFields.1 || newAccess.1) (newFields.2.1 || newAccess.2.1)
      (.Object newFields.2.2 newAccess.2.2)
  | .Generic base params => fromChildList (.Generic base) (remapChildTypes params)
  | .TableGeneric params => fromChildList .TableGeneric (remapChildTypes params)
  | .DocFunction asyncState isColonDefine isVariadic params optionalParams callArgRoles ret =>
    let newParams := remapParams params
    let newRet := remapIdentitiesInType ret
    ofParts (newParams.1 || newRet.lost) (newParams.2.1 || newRet.differs ret)
      (.DocFunction asyncState isColonDefine isVariadic newParams.2.2
        (resize optionalParams params.length) callArgRoles (newRet.orOld ret))
  | .Variadic (.Multi types) =>
    fromChildList (fun types => .Variadic (.Multi types)) (remapChildTypes types)
  | .Variadic (.Base base) =>
    fromSingle (remapIdentitiesInType base) fun base => .Variadic (.Base base)
  | .MultiLineUnion unions => fromChildList .MultiLineUnion (remapArms unions)
  | .TypeGuard inner => fromSingle (remapIdentitiesInType inner) .TypeGuard
  | .Conditional condition trueType falseType inferParams hasNew =>
    match remapGenericParams inferParams with
    | .Lost => isLost
    | newParams =>
      let newCond := remapIdentitiesInType condition
      let newTrue := remapIdentitiesInType trueType
      let newFalse := remapIdentitiesInType falseType
      let params :=
        match newParams with
        | .Moved params => some params
        | _ => none
      ofParts (newCond.lost || newTrue.lost || newFalse.lost)
        (newCond.differs condition || newTrue.differs trueType || newFalse.differs falseType
          || params.isSome)
        (.Conditional (newCond.orOld condition) (newTrue.orOld trueType)
          (newFalse.orOld falseType) (params.getD inferParams) hasNew)
  | .Mapped tplId param value isReadonly isOptional =>
    let newParam := remapGenericParam param
    let newValue := remapIdentitiesInType value
    ofParts (newParam.1 || newValue.lost) (newParam.2.isSome || newValue.typ.isSome)
      (.Mapped tplId (newParam.2.getD param) (newValue.orOld value) isReadonly isOptional)
  | .TplRef tplId name constraint =>
    match constraint with
    | none => unchanged
    | some constraint =>
      fromSingle (remapIdentitiesInType constraint) fun new => .TplRef tplId name (some new)
  | .ConstTplRef tplId name constraint =>
    match constraint with
    | none => unchanged
    | some constraint =>
      fromSingle (remapIdentitiesInType constraint) fun new =>
        .ConstTplRef tplId name (some new)
  | .StrTplRef pre tplId name suffix constraint =>
    match constraint with
    | none => unchanged
    | some constraint =>
      fromSingle (remapIdentitiesInType constraint) fun new =>
        .StrTplRef pre tplId name suffix (some new)
  | .DocAttribute params =>
    let newParams := remapParams params
    ofParts newParams.1 newParams.2.1 (.DocAttribute newParams.2.2)
  | .TableOf inner => fromSingle (remapIdentitiesInType inner) .TableOf
  | .Call callKind operand => fromChildList (.Call callKind) (remapChildTypes operand)
  | _ => unchanged
termination_by structural x => x

def remapChildTypes : List LuaType → Remap (List LuaType)
  | [] => .Unrelated
  | child :: children =>
    let result := remapIdentitiesInType child
    if result.lost then .Lost
    else Remap.consPart child result.typ children (remapChildTypes children)
termination_by structural x => x

/-- The arms of a union of several lines, with their texts. -/
def remapArms : List (LuaType × Option SmolStr) → Remap (List (LuaType × Option SmolStr))
  | [] => .Unrelated
  | (type, doc) :: arms =>
    let result := remapIdentitiesInType type
    if result.lost then .Lost
    else Remap.consPart (type, doc) (result.typ.map fun new => (new, doc)) arms (remapArms arms)
termination_by structural x => x

/-- The parameters of a function or an attribute: whether one is lost, whether one moved, and
    what they are now. -/
def remapParams : List (SmolStr × Option LuaType) →
    Bool × Bool × List (SmolStr × Option LuaType)
  | [] => (false, false, [])
  | (name, none) :: params =>
    let rest := remapParams params
    (rest.1, rest.2.1, (name, none) :: rest.2.2)
  | (name, some type) :: params =>
    let result := remapIdentitiesInType type
    let rest := remapParams params
    (result.lost || rest.1, result.typ.isSome || rest.2.1,
      (name, some (result.orOld type)) :: rest.2.2)
termination_by structural x => x

/-- The fields of an object, each inserted in its place. -/
def remapFields : List (LuaMemberKey × LuaType) → List (LuaMemberKey × LuaType) →
    Bool × Bool × List (LuaMemberKey × LuaType)
  | [], inserted => (false, false, inserted)
  | (key, type) :: fields, inserted =>
    let newKey := remapKey key
    let result := remapIdentitiesInType type
    let rest := remapFields fields
      (insertField h (newKey.2.getD key) (result.orOld type) inserted)
    (newKey.1 || result.lost || rest.1, newKey.2.isSome || result.typ.isSome || rest.2.1, rest.2.2)
termination_by structural x => x

/-- The key of a field: whether it is lost, and what it has become. -/
def remapKey : LuaMemberKey → Bool × Option LuaMemberKey
  | .ExprType type =>
    let result := remapIdentitiesInType type
    (result.lost, result.typ.map .ExprType)
  | _ => (false, none)
termination_by structural x => x

/-- The index accesses of an object. -/
def remapPairs : List (LuaType × LuaType) → Bool × Bool × List (LuaType × LuaType)
  | [] => (false, false, [])
  | (key, type) :: pairs =>
    let newKey := remapIdentitiesInType key
    let newType := remapIdentitiesInType type
    let rest := remapPairs pairs
    (newKey.lost || newType.lost || rest.1, newKey.differs key || newType.differs type || rest.2.1,
      (newKey.orOld key, newType.orOld type) :: rest.2.2)
termination_by structural x => x

/-- A generic parameter: whether its constraint is lost, and what it has become. -/
def remapGenericParam : GenericParam → Bool × Option GenericParam
  | .mk _ none _ => (false, none)
  | .mk name (some constraint) attributes =>
    let result := remapIdentitiesInType constraint
    (result.lost, result.typ.map fun new => .mk name (some new) attributes)
termination_by structural x => x

def remapGenericParams : List GenericParam → Remap (List GenericParam)
  | [] => .Unrelated
  | param :: params =>
    let result := remapGenericParam param
    if result.1 then .Lost
    else Remap.consPart param result.2 params (remapGenericParams params)
termination_by structural x => x

end

end

end GluaLs.Edit
