/-
  GluaLs.Types.Rewrite — types rewritten bottom-up (what the visitors and rewriters of
  `db_index/type` have in common).

  `transform` replaces the children of a type from the leaves up, and `Within` says that a type
  occurs in another, however deep.  Every fact about a rewriting is an induction on the children
  (`induction_children`) with `transform_eq` as its step.
-/
import GluaLs.Types.Shape

namespace GluaLs.Types

/-! ## §1. Types within types -/

namespace LuaType

/-- The first type occurs in the second, or is it. -/
inductive Within (s : LuaType) : LuaType → Prop where
  | here : Within s s
  | child {t u : LuaType} : u ∈ t.children → Within s u → Within s t

theorem within_iff (s t : LuaType) : Within s t ↔ s = t ∨ ∃ u ∈ t.children, Within s u := by
  constructor
  · intro h
    cases h with
    | here => exact .inl rfl
    | child hu h => exact .inr ⟨_, hu, h⟩
  · rintro (rfl | ⟨u, hu, h⟩)
    · exact .here
    · exact .child hu h

theorem Within.trans {s t u : LuaType} (hst : Within s t) (htu : Within t u) : Within s u := by
  induction htu with
  | here => exact hst
  | child hmem _ ih => exact .child hmem ih

theorem within_of_mem_children {s t : LuaType} (h : s ∈ t.children) : Within s t :=
  .child h .here

theorem exists_within_iff (p : LuaType → Prop) (t : LuaType) :
    (∃ s, Within s t ∧ p s) ↔ p t ∨ ∃ u ∈ t.children, ∃ s, Within s u ∧ p s := by
  constructor
  · rintro ⟨s, hs, hp⟩
    rcases (within_iff s t).1 hs with rfl | ⟨u, hu, hs⟩
    · exact .inl hp
    · exact .inr ⟨u, hu, s, hs, hp⟩
  · rintro (hp | ⟨u, hu, s, hs, hp⟩)
    · exact ⟨t, .here, hp⟩
    · exact ⟨s, .child hu hs, hp⟩

/-! ## §2. Bottom-up rewriting -/

section

variable (node : LuaType → LuaType)

mutual

/-- The type with its children rewritten, and then rewritten itself. -/
def transform : LuaType → LuaType
  | .Array base len => node (.Array (transform base) len)
  | .Tuple types status => node (.Tuple (transformList types) status)
  | .DocFunction asyncState isColonDefine isVariadic params optionalParams callArgRoles ret =>
    node (.DocFunction asyncState isColonDefine isVariadic (transformParams params)
      optionalParams callArgRoles (transform ret))
  | .Object fields indexAccess =>
    node (.Object (transformFields fields) (transformPairs indexAccess))
  | .Union union => node (.Union (transformUnion union))
  | .Intersection types => node (.Intersection (transformList types))
  | .MergedTable types => node (.MergedTable (transformList types))
  | .Generic base params => node (.Generic base (transformList params))
  | .TableGeneric types => node (.TableGeneric (transformList types))
  | .TplRef tplId name constraint => node (.TplRef tplId name (transformOption constraint))
  | .StrTplRef pre tplId name suffix constraint =>
    node (.StrTplRef pre tplId name suffix (transformOption constraint))
  | .Variadic variadic => node (.Variadic (transformVariadic variadic))
  | .Instance base range kind => node (.Instance (transform base) range kind)
  | .Call callKind operand => node (.Call callKind (transformList operand))
  | .MultiLineUnion unions => node (.MultiLineUnion (transformArms unions))
  | .TypeGuard type => node (.TypeGuard (transform type))
  | .ConstTplRef tplId name constraint =>
    node (.ConstTplRef tplId name (transformOption constraint))
  | .DocAttribute params => node (.DocAttribute (transformParams params))
  | .Conditional condition trueType falseType inferParams hasNew =>
    node (.Conditional (transform condition) (transform trueType) (transform falseType)
      (transformGenericParams inferParams) hasNew)
  | .Mapped tplId param value isReadonly isOptional =>
    node (.Mapped tplId (transformGenericParam param) (transform value) isReadonly isOptional)
  | .TableOf type => node (.TableOf (transform type))
  | t => node t
termination_by structural t => t

def transformList : List LuaType → List LuaType
  | [] => []
  | type :: types => transform type :: transformList types
termination_by structural types => types

def transformOption : Option LuaType → Option LuaType
  | none => none
  | some type => some (transform type)
termination_by structural type => type

def transformParams : List (SmolStr × Option LuaType) → List (SmolStr × Option LuaType)
  | [] => []
  | (name, type) :: params => (name, transformOption type) :: transformParams params
termination_by structural params => params

def transformFields : List (LuaMemberKey × LuaType) → List (LuaMemberKey × LuaType)
  | [] => []
  | (key, type) :: fields => (transformKey key, transform type) :: transformFields fields
termination_by structural fields => fields

def transformKey : LuaMemberKey → LuaMemberKey
  | .ExprType type => .ExprType (transform type)
  | key => key
termination_by structural key => key

def transformPairs : List (LuaType × LuaType) → List (LuaType × LuaType)
  | [] => []
  | (key, type) :: pairs => (transform key, transform type) :: transformPairs pairs
termination_by structural pairs => pairs

def transformArms : List (LuaType × Option SmolStr) → List (LuaType × Option SmolStr)
  | [] => []
  | (type, doc) :: arms => (transform type, doc) :: transformArms arms
termination_by structural arms => arms

def transformGenericParams : List GenericParam → List GenericParam
  | [] => []
  | param :: params => transformGenericParam param :: transformGenericParams params
termination_by structural params => params

def transformGenericParam : GenericParam → GenericParam
  | .mk name typeConstraint attributes => .mk name (transformOption typeConstraint) attributes
termination_by structural param => param

def transformUnion : LuaUnionType → LuaUnionType
  | .Nullable type => .Nullable (transform type)
  | .Multi types => .Multi (transformList types)
termination_by structural union => union

def transformVariadic : VariadicType → VariadicType
  | .Multi types => .Multi (transformList types)
  | .Base type => .Base (transform type)
termination_by structural variadic => variadic

end

theorem transformList_eq (types : List LuaType) :
    transformList node types = types.map (transform node) := by
  induction types with
  | nil => rfl
  | cons type types ih =>
    show transform node type :: _ = transform node type :: _
    rw [ih]

theorem transformOption_eq (type : Option LuaType) :
    transformOption node type = type.map (transform node) := by
  cases type <;> rfl

theorem transformParams_eq (params : List (SmolStr × Option LuaType)) :
    transformParams node params
      = params.map fun param => (param.1, param.2.map (transform node)) := by
  induction params with
  | nil => rfl
  | cons param params ih =>
    obtain ⟨name, type⟩ := param
    show (name, transformOption node type) :: _ = _
    rw [ih, transformOption_eq]
    rfl

theorem transformKey_eq (key : LuaMemberKey) :
    transformKey node key = key.mapType (transform node) := by
  cases key <;> rfl

theorem transformFields_eq (fields : List (LuaMemberKey × LuaType)) :
    transformFields node fields
      = fields.map fun field => (field.1.mapType (transform node), transform node field.2) := by
  induction fields with
  | nil => rfl
  | cons field fields ih =>
    obtain ⟨key, type⟩ := field
    show (transformKey node key, transform node type) :: _ = _
    rw [ih, transformKey_eq]
    rfl

theorem transformPairs_eq (pairs : List (LuaType × LuaType)) :
    transformPairs node pairs
      = pairs.map fun pair => (transform node pair.1, transform node pair.2) := by
  induction pairs with
  | nil => rfl
  | cons pair pairs ih =>
    show (transform node pair.1, transform node pair.2) :: _ = _
    rw [ih]
    rfl

theorem transformArms_eq (arms : List (LuaType × Option SmolStr)) :
    transformArms node arms = arms.map fun arm => (transform node arm.1, arm.2) := by
  induction arms with
  | nil => rfl
  | cons arm arms ih =>
    show (transform node arm.1, arm.2) :: _ = _
    rw [ih]
    rfl

theorem transformGenericParam_eq (param : GenericParam) :
    transformGenericParam node param = param.mapConstraint (transform node) := by
  obtain ⟨name, typeConstraint, attributes⟩ := param
  show GenericParam.mk name (transformOption node typeConstraint) attributes = _
  rw [transformOption_eq]
  rfl

theorem transformGenericParams_eq (params : List GenericParam) :
    transformGenericParams node params
      = params.map fun param => param.mapConstraint (transform node) := by
  induction params with
  | nil => rfl
  | cons param params ih =>
    show transformGenericParam node param :: _ = _
    rw [ih, transformGenericParam_eq]
    rfl

/-- **One step of a bottom-up rewriting.** -/
theorem transform_eq (t : LuaType) : transform node t = node (t.mapChildren (transform node)) := by
  cases t with
  | Union union => cases union <;> simp [transform, transformUnion, mapChildren, transformList_eq]
  | Variadic variadic =>
    cases variadic <;> simp [transform, transformVariadic, mapChildren, transformList_eq]
  | Tuple types status | Intersection types | MergedTable types | Generic base params
  | TableGeneric types | Call callKind operand => simp [transform, mapChildren, transformList_eq]
  | DocFunction _ _ _ params _ _ ret | DocAttribute params =>
    simp [transform, mapChildren, transformParams_eq]
  | Object fields indexAccess =>
    simp [transform, mapChildren, transformFields_eq, transformPairs_eq]
  | TplRef tplId name constraint | StrTplRef pre tplId name suffix constraint
  | ConstTplRef tplId name constraint => simp [transform, mapChildren, transformOption_eq]
  | MultiLineUnion unions => simp [transform, mapChildren, transformArms_eq]
  | Conditional condition trueType falseType inferParams hasNew =>
    simp [transform, mapChildren, transformGenericParams_eq]
  | Mapped tplId param value isReadonly isOptional =>
    simp [transform, mapChildren, transformGenericParam_eq]
  | _ => rfl

/-- A rewriting that leaves every type within the type alone leaves the type alone. -/
theorem transform_eq_self (t : LuaType) (h : ∀ s, Within s t → node s = s) :
    transform node t = t := by
  induction t using induction_children with
  | step t ih =>
    have hchildren : t.mapChildren (transform node) = t :=
      mapChildren_eq_self _ t fun s hs => ih s hs fun u hu => h u (.child hs hu)
    rw [transform_eq, hchildren]
    exact h t .here

end

/-- A rewriting of single types that does not touch their children. -/
structure OnOwn (node : LuaType → LuaType) : Prop where
  mapChildren_comm : ∀ (σ : LuaType → LuaType) (t : LuaType),
    node (t.mapChildren σ) = (node t).mapChildren σ
  children_eq : ∀ t : LuaType, (node t).children = t.children

/-- **Two rewritings, the first of which leaves children alone, are one.** -/
theorem transform_transform (first second : LuaType → LuaType) (hfirst : OnOwn first)
    (t : LuaType) :
    transform second (transform first t) = transform (second ∘ first) t := by
  induction t using induction_children with
  | step t ih =>
    have hchildren : (first (t.mapChildren (transform first))).mapChildren (transform second)
        = first (t.mapChildren (transform (second ∘ first))) := by
      rw [← hfirst.mapChildren_comm, mapChildren_mapChildren]
      exact congrArg first (mapChildren_congr _ _ t fun s hs => ih s hs)
    rw [transform_eq first t, transform_eq second, transform_eq (second ∘ first) t, hchildren]
    rfl

/-- What a rewriting that leaves children alone makes of the types within a type. -/
theorem within_transform_iff (node : LuaType → LuaType) (hnode : OnOwn node) (s t : LuaType) :
    Within s (transform node t) ↔ ∃ u, Within u t ∧ s = transform node u := by
  induction t using induction_children with
  | step t ih =>
    have hchildren : (transform node t).children = t.children.map (transform node) := by
      rw [transform_eq, hnode.children_eq, children_mapChildren]
    rw [within_iff, hchildren]
    constructor
    · rintro (rfl | ⟨u, hu, hs⟩)
      · exact ⟨t, .here, rfl⟩
      · rcases List.mem_map.1 hu with ⟨v, hv, rfl⟩
        rcases (ih v hv).1 hs with ⟨w, hw, rfl⟩
        exact ⟨w, .child hv hw, rfl⟩
    · rintro ⟨u, hu, rfl⟩
      rcases (within_iff u t).1 hu with rfl | ⟨v, hv, hu⟩
      · exact .inl rfl
      · exact .inr ⟨transform node v, List.mem_map.2 ⟨v, hv, rfl⟩, (ih v hv).2 ⟨u, hu, rfl⟩⟩

end LuaType

end GluaLs.Types
