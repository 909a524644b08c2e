/-
  GluaLs.Edit.RemapStep — one step of `remap_identities_in_type` (`db_index/type/mod.rs`).

  Whatever the constructor, and whichever of its four ways of keeping track it uses, the
  rewriter does one thing (`remap_step`):

    • a type is LOST if its own identity or one of its children is;
    • it has CHANGED if its own identity moved, a TRACKED child was rewritten, or a COMPARED
      child differs from what it became;
    • it is REBUILT of its moved identity and its children as they are now, a merged table
      and the fields of an object in their order again.

  The compared children are the return of a function, the index accesses of an object and the
  branches of a conditional: there the source asks `&new != old`.
-/
import GluaLs.Edit.TypeRemap
import GluaLs.Types.Rewrite

namespace GluaLs.Edit

open GluaLs.Types IdentityRemap
open GluaLs.Types.LuaType
open TypeRemapResult

/-! ## §1. Identities -/

/-- A position of a file that a type stands for. -/
inductive Identity where
  | Signature (id : LuaSignatureId)
  | Table (range : InFiled TextRange)
  | Instance (range : InFiled TextRange)
  deriving DecidableEq

def Identity.fileId : Identity → FileId
  | .Signature id => id.fileId
  | .Table range => range.fileId
  | .Instance range => range.fileId

/-- The identity a type itself is. -/
def ownIdentity : LuaType → Option Identity
  | .Signature id => some (.Signature id)
  | .TableConst range => some (.Table range)
  | .Instance _ range _ => some (.Instance range)
  | _ => none

/-- **The identities that occur in a type.** -/
def Names (i : Identity) (t : LuaType) : Prop := ∃ s, Within s t ∧ ownIdentity s = some i

theorem names_iff (i : Identity) (t : LuaType) :
    Names i t ↔ ownIdentity t = some i ∨ ∃ s ∈ t.children, Names i s :=
  exists_within_iff (fun s => ownIdentity s = some i) t

theorem Names.of_child {i : Identity} {s t : LuaType} (hs : s ∈ t.children) (h : Names i s) :
    Names i t :=
  (names_iff i t).2 (.inr ⟨s, hs, h⟩)

/-- Where an identity is afterwards: what did not move stays. -/
def Remap.orOld {T : Type} (remapped : Remap T) (old : T) : T :=
  match remapped with
  | .Moved new => new
  | _ => old

theorem Remap.orOld_mapInto {T U : Type} (build : T → U) (remapped : Remap T) (old : T) :
    (remapped.mapInto build).orOld (build old) = build (remapped.orOld old) := by
  cases remapped <;> rfl

namespace IdentityRemap

variable (remap : IdentityRemap)

/-- What becomes of an identity. -/
def remapped : Identity → Remap Identity
  | .Signature id => (remap.signatureId id).mapInto .Signature
  | .Table range => (remap.tableRange range).mapInto .Table
  | .Instance range => (remap.tableRange range).mapInto .Instance

def loses (i : Identity) : Bool := decide (remap.remapped i = .Lost)

/-- The image of an identity. -/
def image (i : Identity) : Identity := (remap.remapped i).orOld i

def changes (i : Identity) : Bool := decide (remap.image i ≠ i)

/-- A type with its own identity replaced. -/
def own : LuaType → LuaType
  | .Signature id => .Signature ((remap.signatureId id).orOld id)
  | .TableConst range => .TableConst ((remap.tableRange range).orOld range)
  | .Instance base range kind => .Instance base ((remap.tableRange range).orOld range) kind
  | t => t

/-- **`t` with every identity replaced by its image and everything else unchanged.** -/
def replace (t : LuaType) : LuaType := transform remap.own t

theorem onOwn : OnOwn remap.own where
  mapChildren_comm σ t := by
    cases t with
    | Union union => cases union <;> rfl
    | Variadic variadic => cases variadic <;> rfl
    | _ => rfl
  children_eq t := by
    cases t with
    | Union union => cases union <;> rfl
    | Variadic variadic => cases variadic <;> rfl
    | _ => rfl

theorem ownIdentity_own (t : LuaType) :
    ownIdentity (remap.own t) = (ownIdentity t).map remap.image := by
  cases t with
  | Signature id =>
    show some (Identity.Signature _) = some _
    exact congrArg some (Remap.orOld_mapInto Identity.Signature _ id).symm
  | TableConst range =>
    show some (Identity.Table _) = some _
    exact congrArg some (Remap.orOld_mapInto Identity.Table _ range).symm
  | Instance base range kind =>
    show some (Identity.Instance _) = some _
    exact congrArg some (Remap.orOld_mapInto Identity.Instance _ range).symm
  | _ => rfl

/-- A type whose identity stays is left alone. -/
theorem own_eq_self_iff (t : LuaType) :
    remap.own t = t ↔ ∀ i, ownIdentity t = some i → remap.image i = i := by
  constructor
  · intro h i hi
    have himage := remap.ownIdentity_own t
    rw [h, hi] at himage
    exact (Option.some.inj himage).symm
  · intro h
    cases t with
    | Signature id =>
      have hid := h _ rfl
      have hmap := Remap.orOld_mapInto Identity.Signature (remap.signatureId id) id
      exact congrArg LuaType.Signature (Identity.Signature.inj (hmap.symm.trans hid))
    | TableConst range =>
      have hid := h _ rfl
      have hmap := Remap.orOld_mapInto Identity.Table (remap.tableRange range) range
      exact congrArg LuaType.TableConst (Identity.Table.inj (hmap.symm.trans hid))
    | Instance base range kind =>
      have hid := h _ rfl
      have hmap := Remap.orOld_mapInto Identity.Instance (remap.tableRange range) range
      exact congrArg (fun range => LuaType.Instance base range kind)
        (Identity.Instance.inj (hmap.symm.trans hid))
    | _ => rfl

def ownLost (t : LuaType) : Bool := (ownIdentity t).any remap.loses

def ownChanges (t : LuaType) : Bool := (ownIdentity t).any remap.changes

theorem replace_eq (t : LuaType) : remap.replace t = remap.own (t.mapChildren remap.replace) :=
  transform_eq remap.own t

end IdentityRemap

/-! ## §2. What is built again -/

/-- Fields inserted one after the other into an empty map. -/
def insertFields (h : Hashing) (fields : List (LuaMemberKey × LuaType)) :
    List (LuaMemberKey × LuaType) :=
  fields.foldl (fun inserted field => insertField h field.1 field.2 inserted) []

/-- The constructors that put what they are given in order: `LuaMergedTableType::new`, the
    field map of an object, `with_optional_params`. -/
def rebuilt (h : Hashing) : LuaType → LuaType
  | .MergedTable types => newMergedTable h types
  | .Object fields indexAccess => .Object (insertFields h fields) indexAccess
  | .DocFunction asyncState isColonDefine isVariadic params optionalParams callArgRoles ret =>
    .DocFunction asyncState isColonDefine isVariadic params
      (resize optionalParams params.length) callArgRoles ret
  | t => t

/-- The children that count as changed when they were rewritten. -/
def tracked : LuaType → List LuaType
  | .DocFunction _ _ _ params _ _ _ => params.filterMap fun param => param.2
  | .Object fields _ => fields.flatMap fun field => field.1.children ++ [field.2]
  | .Conditional _ _ _ inferParams _ => inferParams.flatMap GenericParam.children
  | t => t.children

/-- The children that count as changed when they differ. -/
def compared : LuaType → List LuaType
  | .DocFunction _ _ _ _ _ _ ret => [ret]
  | .Object _ indexAccess => indexAccess.flatMap fun access => [access.1, access.2]
  | .Conditional condition trueType falseType _ _ => [condition, trueType, falseType]
  | _ => []

theorem mem_children_iff (s t : LuaType) : s ∈ t.children ↔ s ∈ tracked t ∨ s ∈ compared t := by
  cases t with
  | DocFunction _ _ _ params _ _ ret => exact List.mem_append
  | Object fields indexAccess => exact List.mem_append
  | Conditional condition trueType falseType inferParams hasNew =>
    rw [or_comm]
    exact List.mem_append
  | _ => simp [tracked, compared]

/-! ## §3. Lists of parts -/

namespace TypeRemapResult

theorem fromSingle_eq (result : TypeRemapResult) (old : LuaType) (rebuild : LuaType → LuaType) :
    fromSingle result rebuild
      = ofParts result.lost result.typ.isSome (rebuild (result.orOld old)) := by
  obtain ⟨typ, lost⟩ := result
  cases lost <;> cases typ <;> rfl

theorem fromChildList_eq {T : Type} (rebuild : T → LuaType) (lost changed : Bool) (parts : T) :
    fromChildList rebuild (if lost then .Lost else if changed then .Moved parts else .Unrelated)
      = ofParts lost changed (rebuild parts) := by
  cases lost <;> cases changed <;> rfl

theorem orOld_of_typ_none {result : TypeRemapResult} (old : LuaType)
    (h : result.typ.isSome = false) : result.orOld old = old := by
  rw [Option.isSome_eq_false_iff, Option.isNone_iff_eq_none] at h
  show result.typ.getD old = old
  rw [h]
  rfl

end TypeRemapResult

/-- A loop over the parts of a list that stops at the first one lost. -/
theorem listRemap_eq {T : Type} (lost : T → Bool) (moved : T → Option T)
    (loop : List T → Remap (List T)) (hnil : loop [] = .Unrelated)
    (hcons : ∀ part rest, loop (part :: rest)
      = if lost part then .Lost else Remap.consPart part (moved part) rest (loop rest))
    (parts : List T) :
    loop parts = if parts.any lost then .Lost
      else if parts.any (fun part => (moved part).isSome) then
        .Moved (parts.map fun part => (moved part).getD part)
      else .Unrelated := by
  induction parts with
  | nil => exact hnil
  | cons part rest ih =>
    rw [hcons, ih, List.any_cons, List.any_cons]
    cases hpart : lost part with
    | true => rfl
    | false =>
      cases hrest : rest.any lost with
      | true => rfl
      | false =>
        cases hany : rest.any (fun part => (moved part).isSome) with
        | true => cases hmoved : moved part <;> simp [Remap.consPart, hmoved]
        | false =>
          -- nothing behind the part moved: the rest is what it was
          have hkeep : rest.map (fun part => (moved part).getD part) = rest := by
            refine (List.map_congr_left ?_).trans (List.map_id rest)
            intro a ha
            have hnone := List.any_eq_false.1 hany a ha
            rw [Bool.not_eq_true, Option.isSome_eq_false_iff, Option.isNone_iff_eq_none] at hnone
            rw [hnone]
            rfl
          cases hmoved : moved part <;> simp [Remap.consPart, hmoved, hkeep]

section

variable (h : Hashing) (remap : IdentityRemap)

/-- Whether a type is lost, and what it is afterwards. -/
def lostBy (t : LuaType) : Bool := (remapIdentitiesInType h remap t).lost

def changedBy (t : LuaType) : Bool := (remapIdentitiesInType h remap t).typ.isSome

def differsBy (t : LuaType) : Bool := (remapIdentitiesInType h remap t).differs t

def remappedBy (t : LuaType) : LuaType := (remapIdentitiesInType h remap t).orOld t

theorem remapChildTypes_eq (types : List LuaType) :
    remapChildTypes h remap types = if types.any (lostBy h remap) then .Lost
      else if types.any (changedBy h remap) then .Moved (types.map (remappedBy h remap))
      else .Unrelated :=
  listRemap_eq (lostBy h remap) (fun type => (remapIdentitiesInType h remap type).typ)
    (remapChildTypes h remap) rfl (fun _ _ => rfl) types

theorem remapArms_eq (arms : List (LuaType × Option SmolStr)) :
    remapArms h remap arms = if arms.any (fun arm => lostBy h remap arm.1) then .Lost
      else if arms.any (fun arm => changedBy h remap arm.1) then
        .Moved (arms.map fun arm => (remappedBy h remap arm.1, arm.2))
      else .Unrelated := by
  have hloop := listRemap_eq (fun arm : LuaType × Option SmolStr => lostBy h remap arm.1)
    (fun arm => (remapIdentitiesInType h remap arm.1).typ.map fun new => (new, arm.2))
    (remapArms h remap) rfl (fun _ _ => rfl) arms
  have hchanged : ∀ arm : LuaType × Option SmolStr,
      ((remapIdentitiesInType h remap arm.1).typ.map fun new => (new, arm.2)).isSome
        = changedBy h remap arm.1 := fun arm => Option.isSome_map
  have hnow : ∀ arm : LuaType × Option SmolStr,
      (((remapIdentitiesInType h remap arm.1).typ.map fun new => (new, arm.2)).getD arm)
        = (remappedBy h remap arm.1, arm.2) := by
    intro arm
    show _ = ((remapIdentitiesInType h remap arm.1).typ.getD arm.1, arm.2)
    cases (remapIdentitiesInType h remap arm.1).typ <;> rfl
  simp only [hchanged, hnow] at hloop
  exact hloop

theorem remapParams_eq (params : List (SmolStr × Option LuaType)) :
    remapParams h remap params = ((params.filterMap fun param => param.2).any (lostBy h remap),
          (params.filterMap fun param => param.2).any (changedBy h remap),
          params.map fun param => (param.1, param.2.map (remappedBy h remap))) := by
  induction params with
  | nil => rfl
  | cons param params ih =>
    obtain ⟨name, type⟩ := param
    cases type with
    | none =>
      show ((remapParams h remap params).1, (remapParams h remap params).2.1,
        (name, none) :: (remapParams h remap params).2.2) = _
      rw [ih]
      rfl
    | some type =>
      show (lostBy h remap type || (remapParams h remap params).1,
        changedBy h remap type || (remapParams h remap params).2.1,
        (name, some (remappedBy h remap type)) :: (remapParams h remap params).2.2) = _
      rw [ih]
      rfl

theorem remapKey_eq (key : LuaMemberKey) :
    (remapKey h remap key).1 = key.children.any (lostBy h remap)
      ∧ (remapKey h remap key).2.isSome = key.children.any (changedBy h remap)
      ∧ (remapKey h remap key).2.getD key = key.mapType (remappedBy h remap) := by
  cases key with
  | ExprType type =>
    refine ⟨?_, ?_, ?_⟩
    · show lostBy h remap type = _
      simp [LuaMemberKey.children]
    · show ((remapIdentitiesInType h remap type).typ.map LuaMemberKey.ExprType).isSome = _
      simp [LuaMemberKey.children, changedBy]
    · show ((remapIdentitiesInType h remap type).typ.map LuaMemberKey.ExprType).getD _
        = LuaMemberKey.ExprType ((remapIdentitiesInType h remap type).typ.getD type)
      cases (remapIdentitiesInType h remap type).typ <;> rfl
  | _ => exact ⟨rfl, rfl, rfl⟩

theorem remapFields_eq (fields : List (LuaMemberKey × LuaType)) :
    ∀ inserted, remapFields h remap fields inserted
      = ((fields.flatMap fun field => field.1.children ++ [field.2]).any (lostBy h remap),
          (fields.flatMap fun field => field.1.children ++ [field.2]).any (changedBy h remap),
          (fields.map fun field =>
              (field.1.mapType (remappedBy h remap), remappedBy h remap field.2)).foldl
            (fun inserted field => insertField h field.1 field.2 inserted) inserted) := by
  induction fields with
  | nil =>
    intro inserted
    rfl
  | cons field fields ih =>
    intro inserted
    obtain ⟨key, type⟩ := field
    obtain ⟨hlost, hchanged, hnow⟩ := remapKey_eq h remap key
    show ((remapKey h remap key).1 || lostBy h remap type || (remapFields h remap fields
          (insertField h ((remapKey h remap key).2.getD key) (remappedBy h remap type)
            inserted)).1,
        (remapKey h remap key).2.isSome || changedBy h remap type || (remapFields h remap fields
          (insertField h ((remapKey h remap key).2.getD key) (remappedBy h remap type)
            inserted)).2.1,
        (remapFields h remap fields
          (insertField h ((remapKey h remap key).2.getD key) (remappedBy h remap type)
            inserted)).2.2) = _
    rw [ih, hlost, hchanged, hnow]
    simp only [List.flatMap_cons, List.any_append, List.any_cons, List.any_nil, Bool.or_false,
      List.map_cons, List.foldl_cons]

theorem remapPairs_eq (pairs : List (LuaType × LuaType)) :
    remapPairs h remap pairs = ((pairs.flatMap fun pair => [pair.1, pair.2]).any (lostBy h remap),
          (pairs.flatMap fun pair => [pair.1, pair.2]).any (differsBy h remap),
          pairs.map fun pair => (remappedBy h remap pair.1, remappedBy h remap pair.2)) := by
  induction pairs with
  | nil => rfl
  | cons pair pairs ih =>
    obtain ⟨key, type⟩ := pair
    show (lostBy h remap key || lostBy h remap type || (remapPairs h remap pairs).1,
      differsBy h remap key || differsBy h remap type || (remapPairs h remap pairs).2.1,
      (remappedBy h remap key, remappedBy h remap type) :: (remapPairs h remap pairs).2.2) = _
    rw [ih]
    simp only [List.flatMap_cons, List.cons_append, List.nil_append, List.any_cons,
      Bool.or_assoc, List.map_cons]

theorem remapGenericParam_eq (param : GenericParam) :
    (remapGenericParam h remap param).1 = param.children.any (lostBy h remap)
      ∧ (remapGenericParam h remap param).2.isSome = param.children.any (changedBy h remap)
      ∧ (remapGenericParam h remap param).2.getD param
          = param.mapConstraint (remappedBy h remap) := by
  obtain ⟨name, constraint, attributes⟩ := param
  cases constraint with
  | none => exact ⟨rfl, rfl, rfl⟩
  | some constraint =>
    refine ⟨?_, ?_, ?_⟩
    · show lostBy h remap constraint = _
      simp [GenericParam.children]
    · show ((remapIdentitiesInType h remap constraint).typ.map
        fun new => GenericParam.mk name (some new) attributes).isSome = _
      simp [GenericParam.children, changedBy]
    · show ((remapIdentitiesInType h remap constraint).typ.map
          fun new => GenericParam.mk name (some new) attributes).getD _
        = .mk name (some ((remapIdentitiesInType h remap constraint).typ.getD constraint))
            attributes
      cases (remapIdentitiesInType h remap constraint).typ <;> rfl

theorem remapGenericParams_eq (params : List GenericParam) :
    remapGenericParams h remap params
      = if (params.flatMap GenericParam.children).any (lostBy h remap) then .Lost
        else if (params.flatMap GenericParam.children).any (changedBy h remap) then
          .Moved (params.map fun param => param.mapConstraint (remappedBy h remap))
        else .Unrelated := by
  have hloop := listRemap_eq (fun param => (remapGenericParam h remap param).1)
    (fun param => (remapGenericParam h remap param).2) (remapGenericParams h remap) rfl
    (fun _ _ => rfl) params
  simp only [(remapGenericParam_eq h remap _).1, (remapGenericParam_eq h remap _).2.1,
    (remapGenericParam_eq h remap _).2.2] at hloop
  rw [hloop, List.any_flatMap, List.any_flatMap]

/-! ## §4. The step -/

/-- What the remap of a type comes to, from that of its parts. -/
def stepped (t : LuaType) : TypeRemapResult :=
  ofParts (remap.ownLost t || t.children.any (lostBy h remap))
    (remap.ownChanges t || (tracked t).any (changedBy h remap)
      || (compared t).any (differsBy h remap))
    (rebuilt h (remap.own (t.mapChildren (remappedBy h remap))))

/-- A type that is an identity and nothing else. -/
theorem step_of_identity {I : Type} [DecidableEq I] (make : I → LuaType) (name : I → Identity)
    (hname : Function.Injective name) (id : I) (result : Remap I)
    (hown : ownIdentity (make id) = some (name id))
    (hremapped : remap.remapped (name id) = result.mapInto name)
    (hself : rebuilt h (remap.own ((make id).mapChildren (remappedBy h remap)))
      = make (result.orOld id))
    (hchildren : (make id).children = []) (htracked : tracked (make id) = [])
    (hcompared : compared (make id) = []) :
    fromIdentity id make result = stepped h remap (make id) := by
  rw [stepped, ownLost, ownChanges, hown, hself, hchildren, htracked, hcompared]
  cases result with
  | Moved new =>
    by_cases hnew : new = id <;>
      simp [fromIdentity, ofParts, loses, changes,
        image, hremapped, Remap.mapInto, Remap.orOld, hname.eq_iff, hnew]
  | _ =>
    simp [fromIdentity, ofParts, loses, changes, image, hremapped, Remap.mapInto, Remap.orOld]

/-- A type without an identity of its own. -/
theorem stepped_of_unnamed (t : LuaType) (hown : ownIdentity t = none) :
    stepped h remap t = ofParts (t.children.any (lostBy h remap))
      ((tracked t).any (changedBy h remap) || (compared t).any (differsBy h remap))
      (rebuilt h (remap.own (t.mapChildren (remappedBy h remap)))) := by
  simp [stepped, ownLost, ownChanges, hown]

/-- Such a type whose children are all tracked. -/
theorem step_of_tracked (t rebuiltType : LuaType) (hown : ownIdentity t = none)
    (htracked : tracked t = t.children) (hcompared : compared t = [])
    (hrebuilt : rebuiltType = rebuilt h (remap.own (t.mapChildren (remappedBy h remap)))) :
    ofParts (t.children.any (lostBy h remap)) (t.children.any (changedBy h remap)) rebuiltType
      = stepped h remap t := by
  rw [stepped_of_unnamed h remap t hown, htracked, hcompared, hrebuilt, List.any_nil, Bool.or_false]

/-- A type with no children and no identity. -/
theorem step_of_leaf (t : LuaType) (hown : ownIdentity t = none) (hchildren : t.children = [])
    (htracked : tracked t = t.children) (hcompared : compared t = []) :
    unchanged = stepped h remap t := by
  rw [← step_of_tracked h remap t _ hown htracked hcompared rfl, hchildren]
  rfl

theorem step_of_list (t : LuaType) (types : List LuaType) (rebuild : List LuaType → LuaType)
    (hchildren : t.children = types) (hown : ownIdentity t = none)
    (htracked : tracked t = t.children) (hcompared : compared t = [])
    (hrebuilt : rebuild (types.map (remappedBy h remap))
      = rebuilt h (remap.own (t.mapChildren (remappedBy h remap)))) :
    fromChildList rebuild (remapChildTypes h remap types) = stepped h remap t := by
  rw [remapChildTypes_eq, fromChildList_eq, ← hchildren,
    ← step_of_tracked h remap t _ hown htracked hcompared (hchildren ▸ hrebuilt)]

theorem step_of_single (t type : LuaType) (rebuild : LuaType → LuaType)
    (hchildren : t.children = [type]) (hown : ownIdentity t = none)
    (htracked : tracked t = t.children) (hcompared : compared t = [])
    (hrebuilt : rebuild (remappedBy h remap type)
      = rebuilt h (remap.own (t.mapChildren (remappedBy h remap)))) :
    fromSingle (remapIdentitiesInType h remap type) rebuild = stepped h remap t := by
  rw [fromSingle_eq _ type, ← step_of_tracked h remap t _ hown htracked hcompared hrebuilt,
    hchildren, List.any_cons, List.any_cons, List.any_nil, List.any_nil, Bool.or_false,
    Bool.or_false]
  rfl

/-- **One step of `remap_identities_in_type`.** -/
theorem remap_step (t : LuaType) : remapIdentitiesInType h remap t = stepped h remap t := by
  cases t with
  | Signature id =>
    exact step_of_identity h remap .Signature .Signature (fun _ _ h => Identity.Signature.inj h) id
      _ rfl rfl rfl rfl rfl rfl
  | TableConst range =>
    exact step_of_identity h remap .TableConst .Table (fun _ _ h => Identity.Table.inj h) range
      _ rfl rfl rfl rfl rfl rfl
  | Instance base range kind =>
    cases hrange : remap.tableRange range with
    | Moved new =>
      by_cases hnew : new = range <;>
        simp [remapIdentitiesInType, stepped, lostBy, changedBy, remappedBy, ownLost,
          ownChanges, ownIdentity, loses, changes,
          image, remapped, own, Remap.mapInto,
          Remap.orOld, children, tracked, compared, mapChildren, rebuilt, hrange, hnew]
    | _ =>
      simp [remapIdentitiesInType, stepped, ofParts, lostBy, changedBy, remappedBy,
        ownLost, ownChanges, ownIdentity, loses,
        changes, image, remapped, own,
        Remap.mapInto, Remap.orOld, children, tracked, compared, mapChildren, rebuilt, hrange]
  | Union union =>
    cases union with
    | Nullable type => exact step_of_single h remap _ type _ rfl rfl rfl rfl rfl
    | Multi types => exact step_of_list h remap _ types _ rfl rfl rfl rfl rfl
  | Intersection types | MergedTable types | Tuple types _ | Generic _ types
  | TableGeneric types | Call _ types => exact step_of_list h remap _ types _ rfl rfl rfl rfl rfl
  | Array type _ | TypeGuard type | TableOf type =>
    exact step_of_single h remap _ type _ rfl rfl rfl rfl rfl
  | Object fields indexAccess =>
    simp only [remapIdentitiesInType, remapFields_eq, remapPairs_eq]
    rw [stepped_of_unnamed h remap _ rfl]
    simp only [children, tracked, compared, mapChildren, own, rebuilt, insertFields,
      List.any_append]
  | DocFunction asyncState isColonDefine isVariadic params optionalParams callArgRoles ret =>
    simp only [remapIdentitiesInType, remapParams_eq]
    rw [stepped_of_unnamed h remap _ rfl]
    simp only [children, tracked, compared, mapChildren, own, rebuilt,
      List.any_append, List.any_cons, List.any_nil, Bool.or_false, List.length_map]
    rfl
  | Variadic variadic =>
    cases variadic with
    | Multi types => exact step_of_list h remap _ types _ rfl rfl rfl rfl rfl
    | Base type => exact step_of_single h remap _ type _ rfl rfl rfl rfl rfl
  | MultiLineUnion unions =>
    show fromChildList .MultiLineUnion (remapArms h remap unions) = _
    rw [remapArms_eq, fromChildList_eq, ← step_of_tracked h remap _ _ rfl rfl rfl rfl]
    simp only [children, List.any_map, Function.comp_def]
    rfl
  | Conditional condition trueType falseType inferParams hasNew =>
    simp only [remapIdentitiesInType, remapGenericParams_eq]
    cases hlost : (inferParams.flatMap GenericParam.children).any (lostBy h remap) with
    | true =>
      simp only [stepped, children, List.any_append, hlost, Bool.or_true, if_true, ofParts]
    | false =>
      rw [stepped_of_unnamed h remap _ rfl]
      simp only [children, tracked, compared, mapChildren, own, rebuilt,
        List.any_append, List.any_cons, List.any_nil, Bool.or_false, hlost]
      cases hchanged : (inferParams.flatMap GenericParam.children).any (changedBy h remap) with
      | true =>
        simp only [Bool.false_eq_true, if_false, if_true, Option.isSome_some, Bool.or_true,
          Bool.true_or, Option.getD_some]
        simp only [Bool.or_assoc]
        rfl
      | false =>
        -- no constraint moved: the parameters are the old ones
        have hkeep : inferParams.map (fun param => param.mapConstraint (remappedBy h remap))
            = inferParams := by
          refine splits_genericParams.map_eq_self _ inferParams fun s hs => ?_
          have hnone := List.any_eq_false.1 hchanged s hs
          exact orOld_of_typ_none s (Bool.not_eq_true _ ▸ hnone)
        simp only [Bool.false_eq_true, if_false, Option.isSome_none, Bool.or_false,
          Bool.false_or, Option.getD_none, hkeep]
        simp only [Bool.or_assoc]
        rfl
  | Mapped tplId param value isReadonly isOptional =>
    obtain ⟨hlost, hchanged, hnow⟩ := remapGenericParam_eq h remap param
    simp only [remapIdentitiesInType, hlost, hchanged, hnow]
    rw [← step_of_tracked h remap _ _ rfl rfl rfl rfl]
    simp only [children, List.any_append, List.any_cons, List.any_nil, Bool.or_false]
    rfl
  | TplRef tplId name constraint | ConstTplRef tplId name constraint
  | StrTplRef pre tplId name suffix constraint =>
    cases constraint with
    | none => exact step_of_leaf h remap _ rfl rfl rfl rfl
    | some constraint => exact step_of_single h remap _ constraint _ rfl rfl rfl rfl rfl
  | DocAttribute params =>
    simp only [remapIdentitiesInType, remapParams_eq]
    rw [← step_of_tracked h remap _ _ rfl rfl rfl rfl]
    rfl
  | _ => exact step_of_leaf h remap _ rfl rfl rfl rfl

end

end GluaLs.Edit
