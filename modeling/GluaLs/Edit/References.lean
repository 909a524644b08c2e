/-
  GluaLs.Edit.References — the files a stored type and a type fact refer to, and the fact an
  edit makes of a fact
  (`visit_type`, `visit_type_identities`, `collect_type_cache_refs`, `collect_type_files`,
  `type_fact_referenced_files`, `remap_type_fact` and `remap_provenance` of `db_index/type`;
  `inference_fact.rs`).

  `visit_type` comes by some of the children of a type; `visit_type_identities` walks it and
  adds the children it skips.
-/
import GluaLs.Edit.RemapExact

namespace GluaLs.Edit

open GluaLs.Types FileRemap
open GluaLs.Types.LuaType

/-! ## §1. Two visitors, one on top of the other -/

/-- The children `visit_type` comes by. -/
def visitedChildren : LuaType → List LuaType
  | .Array base _ => [base]
  | .Call _ operand => operand
  | .Tuple types _ => types
  | .DocFunction _ _ _ params _ _ ret => params.filterMap (fun param => param.2) ++ [ret]
  | .Object fields indexAccess =>
    fields.map (fun field => field.2) ++ indexAccess.flatMap fun access => [access.1, access.2]
  | .Union (.Nullable type) => [type]
  | .Union (.Multi types) => types
  | .Intersection types => types
  | .MergedTable types => types
  | .Generic _ params => params
  | .Variadic (.Multi types) => types
  | .Variadic (.Base type) => [type]
  | .TableGeneric params => params
  | .MultiLineUnion unions => unions.map fun arm => arm.1
  | .TypeGuard type => [type]
  | .Conditional condition trueType falseType _ _ => [condition, trueType, falseType]
  | .TableOf type => [type]
  | _ => []

/-- The children `visit_type_identities` adds. -/
def identityChildren : LuaType → List LuaType
  | .Instance base _ _ => [base]
  | .DocAttribute params => params.filterMap fun param => param.2
  | .TplRef _ _ constraint => constraint.toList
  | .ConstTplRef _ _ constraint => constraint.toList
  | .StrTplRef _ _ _ _ constraint => constraint.toList
  | .Mapped _ param value _ _ => param.children ++ [value]
  | .Object fields _ => fields.flatMap fun field => field.1.children
  | .Conditional _ _ _ inferParams _ => inferParams.flatMap GenericParam.children
  | _ => []

/-- The two visitors together come by every child. -/
theorem mem_children_iff_visited (s t : LuaType) :
    s ∈ t.children ↔ s ∈ visitedChildren t ∨ s ∈ identityChildren t := by
  cases t with
  | Object fields indexAccess =>
    simp only [children, visitedChildren, identityChildren, List.mem_append, List.mem_flatMap,
      List.mem_map, List.mem_singleton]
    constructor
    · rintro (⟨field, hfield, hs | hs⟩ | hs)
      · exact .inr ⟨field, hfield, hs⟩
      · exact .inl (.inl ⟨field, hfield, hs.symm⟩)
      · exact .inl (.inr hs)
    · rintro ((⟨field, hfield, hs⟩ | hs) | ⟨field, hfield, hs⟩)
      · exact .inl ⟨field, hfield, .inr hs.symm⟩
      · exact .inr hs
      · exact .inl ⟨field, hfield, .inl hs⟩
  | Union inner | Variadic inner =>
    cases inner <;> simp [children, visitedChildren, identityChildren]
  | Conditional condition trueType falseType inferParams hasNew => exact List.mem_append
  | _ => simp [children, visitedChildren, identityChildren]

/-- `visit_type`: the types it calls back with, in order. -/
def visitType (t : LuaType) : List LuaType :=
  t :: (visitedChildren t).attach.flatMap fun s => visitType s.1
termination_by sizeOf t
decreasing_by
  exact sizeOf_lt_of_mem_children _ _ ((mem_children_iff_visited _ _).2 (Or.inl s.2))

theorem visitType_eq (t : LuaType) : visitType t = t :: (visitedChildren t).flatMap visitType := by
  rw [visitType]
  simp [List.flatMap]

theorem sizeOf_le_of_mem_visitType (s t : LuaType) (hs : s ∈ visitType t) :
    sizeOf s ≤ sizeOf t := by
  induction t using induction_children with
  | step t ih =>
    rw [visitType_eq] at hs
    rcases List.mem_cons.1 hs with rfl | hs
    · exact le_rfl
    · obtain ⟨u, hu, hs⟩ := List.mem_flatMap.1 hs
      have hchild : u ∈ t.children := (mem_children_iff_visited u t).2 (.inl hu)
      have hlt := sizeOf_lt_of_mem_children t u hchild
      have hle := ih u hchild hs
      omega

/-- `visit_type_identities`: the types it calls back with, in order. -/
def visitTypeIdentities (t : LuaType) : List LuaType :=
  (visitType t).attach.flatMap fun s =>
    s.1 :: (identityChildren s.1).attach.flatMap fun u => visitTypeIdentities u.1
termination_by sizeOf t
decreasing_by
  have hle := sizeOf_le_of_mem_visitType _ _ s.2
  have hlt := sizeOf_lt_of_mem_children s.1 u.1
    ((mem_children_iff_visited _ _).2 (Or.inr u.2))
  omega

theorem visitTypeIdentities_eq (t : LuaType) :
    visitTypeIdentities t
      = (visitType t).flatMap fun s => s :: (identityChildren s).flatMap visitTypeIdentities := by
  rw [visitTypeIdentities]
  simp [List.flatMap]

/-- A visitor that came by a type came by all its visited children. -/
theorem mem_visitType_trans {s u t : LuaType} (hs : s ∈ visitType u) (hu : u ∈ visitedChildren t) :
    s ∈ visitType t := by
  rw [visitType_eq]
  exact .tail _ (List.mem_flatMap.2 ⟨u, hu, hs⟩)

theorem within_of_mem_visitType (s t : LuaType) (hs : s ∈ visitType t) : Within s t := by
  induction t using induction_children with
  | step t ih =>
    rw [visitType_eq] at hs
    rcases List.mem_cons.1 hs with rfl | hs
    · exact .here
    · obtain ⟨u, hu, hs⟩ := List.mem_flatMap.1 hs
      have hchild : u ∈ t.children := (mem_children_iff_visited u t).2 (.inl hu)
      exact .child hchild (ih u hchild hs)

theorem mem_visitTypeIdentities {s t : LuaType} :
    s ∈ visitTypeIdentities t
      ↔ ∃ u ∈ visitType t, s = u ∨ ∃ v ∈ identityChildren u, s ∈ visitTypeIdentities v := by
  rw [visitTypeIdentities_eq, List.mem_flatMap]
  simp only [List.mem_cons, List.mem_flatMap]

theorem within_of_mem_visitTypeIdentities (n : Nat) :
    ∀ s t : LuaType, sizeOf t < n → s ∈ visitTypeIdentities t → Within s t := by
  induction n with
  | zero => intro s t ht; omega
  | succ n ih =>
    intro s t ht hs
    obtain ⟨u, hu, rfl | ⟨v, hv, hs⟩⟩ := mem_visitTypeIdentities.1 hs
    · exact within_of_mem_visitType s t hu
    · have hchild : v ∈ u.children := (mem_children_iff_visited v u).2 (.inr hv)
      have hle := sizeOf_le_of_mem_visitType u t hu
      have hlt := sizeOf_lt_of_mem_children u v hchild
      have hsv : Within s v := ih s v (by omega) hs
      exact (Within.child hchild hsv).trans (within_of_mem_visitType u t hu)

/-- **The visitor comes by every type within a type, and by nothing else.** -/
theorem mem_visitTypeIdentities_iff (s t : LuaType) : s ∈ visitTypeIdentities t ↔ Within s t := by
  constructor
  · exact within_of_mem_visitTypeIdentities (sizeOf t + 1) s t (Nat.lt_succ_self _)
  · intro hs
    have hself : ∀ u : LuaType, u ∈ visitType u := by
      intro u
      rw [visitType_eq]
      exact .head _
    induction hs with
    | here => exact mem_visitTypeIdentities.2 ⟨s, hself s, .inl rfl⟩
    | @child t u hu _ ih =>
      rcases (mem_children_iff_visited u t).1 hu with hu | hu
      · -- the lower visitor went on to the child, with all the child comes by
        obtain ⟨v, hv, hs⟩ := mem_visitTypeIdentities.1 ih
        exact mem_visitTypeIdentities.2 ⟨v, mem_visitType_trans hv hu, hs⟩
      · exact mem_visitTypeIdentities.2 ⟨t, hself t, .inr ⟨u, hu, ih⟩⟩

/-! ## §2. Reference sets of types -/

inductive TypeCacheRef where
  | Table (range : InFiled TextRange)
  | Instance (range : InFiled TextRange)
  | Signature (id : LuaSignatureId)
  | Module (fileId : FileId)
  | Decl (id : LuaTypeDeclId)
  deriving DecidableEq

/-- `TypeCacheRef::file_id`: a class has none. -/
def TypeCacheRef.fileId : TypeCacheRef → Option FileId
  | .Table range => some range.fileId
  | .Instance range => some range.fileId
  | .Signature id => some id.fileId
  | .Module fileId => some fileId
  | .Decl _ => none

/-- What one type the visitor comes by is a reference to. -/
def typeCacheRef : LuaType → Option TypeCacheRef
  | .TableConst range => some (.Table range)
  | .Instance _ range _ => some (.Instance range)
  | .Signature id => some (.Signature id)
  | .ModuleRef fileId => some (.Module fileId)
  | .Ref id => some (.Decl id)
  | .Def id => some (.Decl id)
  | _ => none

def collectTypeCacheRefs (t : LuaType) : List TypeCacheRef :=
  (visitTypeIdentities t).filterMap typeCacheRef

/-- The files of the references of a type. -/
def refFiles (t : LuaType) : List FileId := (collectTypeCacheRefs t).filterMap TypeCacheRef.fileId

/-- The file of an identity the visitor comes by. -/
def identityFile : LuaType → Option FileId
  | .TableConst range => some range.fileId
  | .Instance _ range _ => some range.fileId
  | .Signature id => some id.fileId
  | _ => none

def collectTypeFiles (t : LuaType) : List FileId := (visitTypeIdentities t).filterMap identityFile

theorem identityFile_eq (t : LuaType) : identityFile t = (ownIdentity t).map Identity.fileId := by
  cases t <;> rfl

/-- The type refers to the module of a file. -/
def RefersToModule (file : FileId) (t : LuaType) : Prop := Within (.ModuleRef file) t

theorem mem_collectTypeFiles_iff (file : FileId) (t : LuaType) :
    file ∈ collectTypeFiles t ↔ ∃ i, Names i t ∧ i.fileId = file := by
  simp only [collectTypeFiles, List.mem_filterMap, mem_visitTypeIdentities_iff, identityFile_eq,
    Option.map_eq_some_iff]
  constructor
  · rintro ⟨s, hs, i, hi, hfile⟩
    exact ⟨i, ⟨s, hs, hi⟩, hfile⟩
  · rintro ⟨i, ⟨s, hs, hi⟩, hfile⟩
    exact ⟨s, hs, i, hi, hfile⟩

/-- **The files of a type's references: those of its identities and of its modules.** -/
theorem mem_refFiles_iff (file : FileId) (t : LuaType) :
    file ∈ refFiles t ↔ (∃ i, Names i t ∧ i.fileId = file) ∨ RefersToModule file t := by
  simp only [refFiles, collectTypeCacheRefs, List.mem_filterMap, mem_visitTypeIdentities_iff]
  constructor
  · rintro ⟨ref, ⟨s, hs, href⟩, hfile⟩
    cases s with
    | TableConst range =>
      cases href
      exact .inl ⟨.Table range, ⟨_, hs, rfl⟩, Option.some.inj hfile⟩
    | Instance base range kind =>
      cases href
      exact .inl ⟨.Instance range, ⟨_, hs, rfl⟩, Option.some.inj hfile⟩
    | Signature id =>
      cases href
      exact .inl ⟨.Signature id, ⟨_, hs, rfl⟩, Option.some.inj hfile⟩
    | ModuleRef fileId =>
      cases href
      cases hfile
      exact .inr hs
    | Ref id => cases href; cases hfile
    | Def id => cases href; cases hfile
    | _ => cases href
  · rintro (⟨i, ⟨s, hs, hi⟩, rfl⟩ | hs)
    · cases s with
      | TableConst range => cases hi; exact ⟨.Table range, ⟨_, hs, rfl⟩, rfl⟩
      | Instance base range kind => cases hi; exact ⟨.Instance range, ⟨_, hs, rfl⟩, rfl⟩
      | Signature id => cases hi; exact ⟨.Signature id, ⟨_, hs, rfl⟩, rfl⟩
      | _ => cases hi
    · exact ⟨.Module file, ⟨_, hs, rfl⟩, rfl⟩

/-! ## §3. Identities of other files -/

section

variable (h : Hashing) (remap : IdentityRemap)

theorem not_lostBy_of_unrelated (t : LuaType)
    (hkept : ∀ i, Names i t → remap.remapped i = .Unrelated) : lostBy h remap t = false := by
  cases hlost : lostBy h remap t with
  | false => rfl
  | true =>
    obtain ⟨i, hi, hlose⟩ := (lost_iff h remap t).1 hlost
    simp [IdentityRemap.loses, hkept i hi] at hlose

theorem replace_of_unrelated (t : LuaType)
    (hkept : ∀ i, Names i t → remap.remapped i = .Unrelated) : remap.replace t = t := by
  rw [replace_eq_self_iff]
  intro i hi
  show (remap.remapped i).orOld i = i
  rw [hkept i hi]
  rfl

/-- **A type of which no identity is related to the edit is reported as changed exactly if it
    compares a NaN.** -/
theorem changedBy_iff_comparesNaN (t : LuaType) (hbuilt : WellBuilt h t)
    (hkept : ∀ i, Names i t → remap.remapped i = .Unrelated) :
    changedBy h remap t = true ↔ ComparesNaN t := by
  have hreplace := replace_of_unrelated remap t hkept
  rw [changedBy_iff h remap t (not_lostBy_of_unrelated h remap t hkept) hbuilt
    (hreplace.symm ▸ hbuilt)]
  apply or_iff_right
  rintro ⟨i, hi, hmoved⟩
  exact hmoved ((replace_eq_self_iff remap t).1 hreplace i hi)

end

/-! ## §4. Type facts -/

inductive LuaInferenceConfidence where
  | Unknown | Heuristic | Anchored | Certain
  deriving DecidableEq

inductive LuaInferenceProvenanceKind where
  | ExplicitAnnotation | ConcreteValue | ContextualUnknown | UnguardedChild | Assignment
  | FlowGuard | FlowMerge | UnresolvedVguiParent
  deriving DecidableEq

structure LuaInferenceEventId where
  node : LuaInferenceNodeId
  kind : LuaInferenceProvenanceKind
  source : InFiled LuaSyntaxId

structure LuaInferenceStep where
  event : LuaInferenceEventId
  support : List LuaInferenceNodeId
  inferredType : Option LuaType
  foundType : Option LuaType

structure LuaTypeFact where
  typ : LuaType
  confidence : LuaInferenceConfidence
  baseProvenanceKind : Option LuaInferenceProvenanceKind
  provenance : List LuaInferenceStep

/-- What `syntax_id_cmp` compares, in its order. -/
def LuaSyntaxId.stableKey (id : LuaSyntaxId) : List Nat :=
  [id.range.start, id.range.stop, id.getKind]

/-- What `stable_cmp` compares, in its order. -/
def LuaTypeOwner.stableKey : LuaTypeOwner → List Nat
  | .Decl id => [0, id.fileId.id.toNat, id.position]
  | .Member id => 1 :: id.fileId.id.toNat :: id.id.stableKey ++ [id.slot]
  | .SyntaxId id => 2 :: id.fileId.id.toNat :: id.value.stableKey

def LuaDefinitionId.stableKey : LuaDefinitionId → List Nat
  | .Declaration id => [0, id.fileId.id.toNat, id.position]
  | .Assignment fileId assignment targetIdx =>
    1 :: fileId.id.toNat :: assignment.stableKey ++ [targetIdx]

def LuaInferenceNodeId.stableKey : LuaInferenceNodeId → List Nat
  | .TypeOwner owner => 0 :: owner.stableKey
  | .Definition definition => 1 :: definition.stableKey
  | .SignatureParam signatureId paramIdx =>
    [2, signatureId.fileId.id.toNat, signatureId.position, paramIdx]

/-- The flags a rewriter of provenance sets. -/
structure RemapFlags where
  changed : Bool
  lost : Bool

def RemapFlags.or (a b : RemapFlags) : RemapFlags := ⟨a.changed || b.changed, a.lost || b.lost⟩

/-- An identity rewritten in place, and the flags it sets. -/
def remapInPlace {T : Type} [DecidableEq T] (current : T) : Remap T → T × RemapFlags
  | .Moved new => (new, ⟨decide (new ≠ current), false⟩)
  | .Unrelated => (current, ⟨false, false⟩)
  | .Lost => (current, ⟨false, true⟩)

section

variable (h : Hashing) (remap : FileRemap)

/-- `remap_step_type`, where there is a type. -/
def remapStepType : Option LuaType → Option LuaType × RemapFlags
  | none => (none, ⟨false, false⟩)
  | some current =>
    let result := remapIdentitiesInType h remap.identities current
    (some (result.orOld current), ⟨result.typ.isSome, result.lost⟩)

/-- One step of a provenance, rewritten. -/
def remapInferenceStep (step : LuaInferenceStep) : LuaInferenceStep × RemapFlags :=
  let node := remapInPlace step.event.node (remap.inferenceNode step.event.node)
  let source := remapInPlace step.event.source.value
    (remap.syntaxId step.event.source.fileId step.event.source.value)
  let support := step.support.map fun id => remapInPlace id (remap.inferenceNode id)
  let inferredType := remapStepType h remap step.inferredType
  let foundType := remapStepType h remap step.foundType
  ({ event :=
      { node := node.1
        kind := step.event.kind
        source := ⟨step.event.source.fileId, source.1⟩ }
     support := (support.map fun entry => entry.1).insertionSort fun a b =>
      a.stableKey ≤ b.stableKey
     inferredType := inferredType.1
     foundType := foundType.1 },
    node.2.or (source.2.or (((support.map fun entry => entry.2).foldr RemapFlags.or
      ⟨false, false⟩).or (inferredType.2.or foundType.2))))

/-- `remap_provenance`: the new steps if one changed, and whether one is lost. -/
def remapProvenance (provenance : List LuaInferenceStep) : Option (List LuaInferenceStep) × Bool :=
  let steps := provenance.map (remapInferenceStep h remap)
  let flags := (steps.map fun step => step.2).foldr RemapFlags.or ⟨false, false⟩
  (if flags.changed then some (steps.map fun step => step.1) else none, flags.lost)

/-- **`remap_type_fact`**: the new fact if one changed, and whether something is lost. -/
def remapTypeFact (fact : LuaTypeFact) : Option LuaTypeFact × Bool :=
  let remapped := remapIdentitiesInType h remap.identities fact.typ
  let provenance := remapProvenance h remap fact.provenance
  (if remapped.typ.isSome || provenance.1.isSome then
      some { fact with
        typ := remapped.orOld fact.typ
        provenance := provenance.1.getD fact.provenance }
    else none, remapped.lost || provenance.2)

end

/-- The types a step of a provenance holds. -/
def LuaInferenceStep.types (step : LuaInferenceStep) : List LuaType :=
  step.inferredType.toList ++ step.foundType.toList

/-- The files one step names. -/
def LuaInferenceStep.files (step : LuaInferenceStep) : List FileId :=
  step.event.node.fileId :: step.event.source.fileId :: step.support.map LuaInferenceNodeId.fileId
    ++ step.types.flatMap collectTypeFiles

def collectProvenanceFiles (provenance : List LuaInferenceStep) : List FileId :=
  provenance.flatMap LuaInferenceStep.files

def typeFactReferencedFiles (fact : LuaTypeFact) : List FileId :=
  collectTypeFiles fact.typ ++ collectProvenanceFiles fact.provenance

/-! ## §5. Facts that name no position of the file -/

section

variable (remap : FileRemap)

theorem declId_unrelated (id : LuaDeclId) (hfile : id.fileId ≠ remap.fileId) :
    remap.declId id = .Unrelated := by
  rw [declId, pos_unrelated remap _ _ hfile]
  exact resolve_unrelated remap _ _ _

theorem memberId_unrelated (id : LuaMemberId) (hfile : id.fileId ≠ remap.fileId) :
    remap.memberId id = .Unrelated := by
  rw [memberId, range_unrelated remap _ _ hfile]
  exact resolve_unrelated remap _ _ _

theorem signatureId_unrelated (id : LuaSignatureId) (hfile : id.fileId ≠ remap.fileId) :
    remap.signatureId id = .Unrelated := by
  rw [signatureId, pos_unrelated remap _ _ hfile]
  exact resolve_unrelated remap _ _ _

theorem syntaxId_unrelated (file : FileId) (id : LuaSyntaxId) (hfile : file ≠ remap.fileId) :
    remap.syntaxId file id = .Unrelated := by
  have hclass : ¬ (id.kind = docTagClass ∧ file = remap.fileId) := fun hboth => hfile hboth.2
  rw [syntaxId, if_neg hclass, range_unrelated remap _ _ hfile]
  exact resolve_unrelated remap _ _ _

theorem inferenceNode_unrelated (node : LuaInferenceNodeId) (hfile : node.fileId ≠ remap.fileId) :
    remap.inferenceNode node = .Unrelated := by
  cases node with
  | TypeOwner owner =>
    cases owner with
    | Decl id =>
      show ((remap.declId id).mapInto _).mapInto _ = _
      rw [declId_unrelated remap id hfile]
      rfl
    | Member id =>
      show ((remap.memberId id).mapInto _).mapInto _ = _
      rw [memberId_unrelated remap id hfile]
      rfl
    | SyntaxId id =>
      show ((remap.syntaxId id.fileId id.value).mapInto _).mapInto _ = _
      rw [syntaxId_unrelated remap id.fileId _ hfile]
      rfl
  | Definition definition =>
    cases definition with
    | Declaration id =>
      show ((remap.declId id).mapInto _).mapInto _ = _
      rw [declId_unrelated remap id hfile]
      rfl
    | Assignment fileId assignment targetIdx =>
      show ((remap.syntaxId fileId assignment).mapInto _).mapInto _ = _
      rw [syntaxId_unrelated remap fileId _ hfile]
      rfl
  | SignatureParam id paramIdx =>
    show (remap.signatureId id).mapInto _ = _
    rw [signatureId_unrelated remap id hfile]
    rfl

end

theorem foldr_or_changed (flags : List RemapFlags) :
    (flags.foldr RemapFlags.or ⟨false, false⟩).changed = true ↔ ∃ f ∈ flags, f.changed = true := by
  induction flags with
  | nil => simp
  | cons f flags ih =>
    show (f.changed || (flags.foldr RemapFlags.or ⟨false, false⟩).changed) = true ↔ _
    rw [Bool.or_eq_true, ih]
    simp

theorem foldr_or_lost (flags : List RemapFlags) :
    (flags.foldr RemapFlags.or ⟨false, false⟩).lost = true ↔ ∃ f ∈ flags, f.lost = true := by
  induction flags with
  | nil => simp
  | cons f flags ih =>
    show (f.lost || (flags.foldr RemapFlags.or ⟨false, false⟩).lost) = true ↔ _
    rw [Bool.or_eq_true, ih]
    simp

section

variable (h : Hashing) (remap : FileRemap)

theorem lostBy_of_other_file (t : LuaType) (hfile : remap.fileId ∉ collectTypeFiles t) :
    ∀ i, Names i t → remap.identities.remapped i = .Unrelated := by
  intro i hi
  apply remapped_of_other_file
  intro heq
  exact hfile ((mem_collectTypeFiles_iff _ t).2 ⟨i, hi, heq⟩)

/-- The type of a step that names no position of the file. -/
theorem remapStepType_flags (type : Option LuaType) (hbuilt : ∀ t ∈ type.toList, WellBuilt h t)
    (hfile : ∀ t ∈ type.toList, remap.fileId ∉ collectTypeFiles t) :
    ((remapStepType h remap type).2.changed = true ↔ ∃ t ∈ type.toList, ComparesNaN t)
      ∧ (remapStepType h remap type).2.lost = false := by
  cases type with
  | none => exact ⟨by simp [remapStepType], rfl⟩
  | some t =>
    have hkept := lostBy_of_other_file remap t (hfile t (.head _))
    refine ⟨?_, not_lostBy_of_unrelated h remap.identities t hkept⟩
    show changedBy h remap.identities t = true ↔ _
    rw [changedBy_iff_comparesNaN h remap.identities t (hbuilt t List.mem_cons_self) hkept]
    simp

/-- A step that names no position of the file. -/
theorem remapInferenceStep_flags (step : LuaInferenceStep)
    (hbuilt : ∀ t ∈ step.types, WellBuilt h t) (hfile : remap.fileId ∉ step.files) :
    ((remapInferenceStep h remap step).2.changed = true ↔ ∃ t ∈ step.types, ComparesNaN t)
      ∧ (remapInferenceStep h remap step).2.lost = false := by
  simp only [LuaInferenceStep.files, List.mem_cons, List.mem_append, not_or, List.mem_map,
    List.mem_flatMap, not_exists, not_and] at hfile
  obtain ⟨⟨hnode, hsource, hsupport⟩, htypes⟩ := hfile
  have htypes' : ∀ t ∈ step.types, remap.fileId ∉ collectTypeFiles t := fun t ht hmem =>
    htypes t ht hmem
  obtain ⟨hinferred, hinferredLost⟩ := remapStepType_flags h remap step.inferredType
    (fun t ht => hbuilt t (List.mem_append_left _ ht))
    (fun t ht => htypes' t (List.mem_append_left _ ht))
  obtain ⟨hfound, hfoundLost⟩ := remapStepType_flags h remap step.foundType
    (fun t ht => hbuilt t (List.mem_append_right _ ht))
    (fun t ht => htypes' t (List.mem_append_right _ ht))
  -- the nodes and the source stay, and raise no flag
  have hnodes : ∀ id ∈ step.support,
      (remapInPlace id (remap.inferenceNode id)).2 = ⟨false, false⟩ := by
    intro id hid
    rw [inferenceNode_unrelated remap id fun heq => hsupport id hid heq]
    rfl
  have hfold : ((step.support.map fun id => remapInPlace id (remap.inferenceNode id)).map
      fun entry => entry.2).foldr RemapFlags.or ⟨false, false⟩ = ⟨false, false⟩ := by
    have hall : ∀ f ∈ (step.support.map fun id => remapInPlace id (remap.inferenceNode id)).map
        (fun entry => entry.2), f = ⟨false, false⟩ := by
      intro f hf
      simp only [List.mem_map] at hf
      obtain ⟨_, ⟨id, hid, rfl⟩, rfl⟩ := hf
      exact hnodes id hid
    generalize (step.support.map fun id => remapInPlace id (remap.inferenceNode id)).map
      (fun entry => entry.2) = flags at hall
    induction flags with
    | nil => rfl
    | cons f flags ih =>
      rw [List.foldr_cons, ih (List.forall_mem_cons.1 hall).2, hall f (.head _)]
      rfl
  have hflags : (remapInferenceStep h remap step).2
      = (remapStepType h remap step.inferredType).2.or
        (remapStepType h remap step.foundType).2 := by
    show (remapInPlace step.event.node (remap.inferenceNode step.event.node)).2.or
      ((remapInPlace step.event.source.value
        (remap.syntaxId step.event.source.fileId step.event.source.value)).2.or
        ((((step.support.map fun id => remapInPlace id (remap.inferenceNode id)).map
          fun entry => entry.2).foldr RemapFlags.or ⟨false, false⟩).or
          ((remapStepType h remap step.inferredType).2.or
            (remapStepType h remap step.foundType).2))) = _
    rw [inferenceNode_unrelated remap _ fun heq => hnode heq.symm,
      syntaxId_unrelated remap _ _ fun heq => hsource heq.symm, hfold]
    rfl
  rw [hflags]
  constructor
  · show ((remapStepType h remap step.inferredType).2.changed
      || (remapStepType h remap step.foundType).2.changed) = true ↔ _
    rw [Bool.or_eq_true, hinferred, hfound]
    simp only [LuaInferenceStep.types, List.mem_append, or_and_right, exists_or]
  · show ((remapStepType h remap step.inferredType).2.lost
      || (remapStepType h remap step.foundType).2.lost) = false
    rw [hinferredLost, hfoundLost]
    rfl

end

/-- The types a fact holds. -/
def LuaTypeFact.types (fact : LuaTypeFact) : List LuaType :=
  fact.typ :: fact.provenance.flatMap LuaInferenceStep.types

/-- A fact that names no position of the file. -/
theorem remapTypeFact_unrelated_iff (h : Hashing) (remap : FileRemap) (fact : LuaTypeFact)
    (hbuilt : ∀ t ∈ fact.types, WellBuilt h t)
    (hfile : remap.fileId ∉ typeFactReferencedFiles fact) :
    ((remapTypeFact h remap fact).1 = none ↔ ¬ ∃ t ∈ fact.types, ComparesNaN t)
      ∧ (remapTypeFact h remap fact).2 = false := by
  simp only [typeFactReferencedFiles, collectProvenanceFiles, List.mem_append, not_or,
    List.mem_flatMap, not_exists, not_and] at hfile
  have hkept := lostBy_of_other_file remap fact.typ hfile.1
  have hsteps : ∀ step ∈ fact.provenance,
      ((remapInferenceStep h remap step).2.changed = true ↔ ∃ t ∈ step.types, ComparesNaN t)
        ∧ (remapInferenceStep h remap step).2.lost = false := by
    intro step hstep
    refine remapInferenceStep_flags h remap step (fun t ht => hbuilt t ?_) (hfile.2 step hstep)
    exact .tail _ (List.mem_flatMap.2 ⟨step, hstep, ht⟩)
  have hprovenance : (remapProvenance h remap fact.provenance).1.isSome = true
      ↔ ∃ t ∈ fact.provenance.flatMap LuaInferenceStep.types, ComparesNaN t := by
    have hsome : (remapProvenance h remap fact.provenance).1.isSome
        = (((fact.provenance.map (remapInferenceStep h remap)).map fun step => step.2).foldr
          RemapFlags.or ⟨false, false⟩).changed := by
      unfold remapProvenance
      dsimp only
      split <;> rename_i hchanged
      · exact hchanged.symm
      · exact (Bool.not_eq_true _ ▸ hchanged).symm
    rw [hsome, foldr_or_changed]
    simp only [List.mem_map, List.mem_flatMap]
    constructor
    · rintro ⟨_, ⟨_, ⟨step, hstep, rfl⟩, rfl⟩, hchanged⟩
      obtain ⟨t, ht, hnan⟩ := (hsteps step hstep).1.1 hchanged
      exact ⟨t, ⟨step, hstep, ht⟩, hnan⟩
    · rintro ⟨t, ⟨step, hstep, ht⟩, hnan⟩
      exact ⟨_, ⟨_, ⟨step, hstep, rfl⟩, rfl⟩, (hsteps step hstep).1.2 ⟨t, ht, hnan⟩⟩
  have hlost : (remapProvenance h remap fact.provenance).2 = false := by
    cases hcase : (remapProvenance h remap fact.provenance).2 with
    | false => rfl
    | true =>
      obtain ⟨flags, hflags, hlost⟩ := (foldr_or_lost _).1 hcase
      simp only [List.mem_map] at hflags
      obtain ⟨_, ⟨step, hstep, rfl⟩, rfl⟩ := hflags
      rw [(hsteps step hstep).2] at hlost
      cases hlost
  have hnew : (remapTypeFact h remap fact).1 = none
      ↔ ¬ (changedBy h remap.identities fact.typ = true
        ∨ (remapProvenance h remap fact.provenance).1.isSome = true) := by
    rw [← Bool.or_eq_true]
    show (if changedBy h remap.identities fact.typ
      || (remapProvenance h remap fact.provenance).1.isSome then _ else none) = none ↔ _
    split <;> rename_i hchanged
    · exact ⟨fun hnone => (Option.some_ne_none _ hnone).elim, fun hnot => absurd hchanged hnot⟩
    · exact ⟨fun _ => hchanged, fun _ => rfl⟩
  constructor
  · rw [hnew, hprovenance, changedBy_iff_comparesNaN h remap.identities fact.typ
      (hbuilt _ (.head _)) hkept]
    simp only [LuaTypeFact.types, List.mem_cons, exists_eq_or_imp]
  · show (lostBy h remap.identities fact.typ || (remapProvenance h remap fact.provenance).2) = false
    rw [not_lostBy_of_unrelated h remap.identities fact.typ hkept, hlost]
    rfl

/-! ## §6. The reference sets miss nothing -/

/-- The file is one that a step names, or that an identity of its types is of. -/
def LuaInferenceStep.NamesFile (file : FileId) (step : LuaInferenceStep) : Prop :=
  step.event.node.fileId = file ∨ step.event.source.fileId = file
    ∨ (∃ node ∈ step.support, node.fileId = file)
    ∨ ∃ t ∈ step.types, ∃ i, Names i t ∧ i.fileId = file

theorem mem_files_iff (file : FileId) (step : LuaInferenceStep) :
    file ∈ step.files ↔ step.NamesFile file := by
  simp only [LuaInferenceStep.files, LuaInferenceStep.NamesFile, List.cons_append, List.mem_cons,
    List.mem_append, List.mem_map, List.mem_flatMap, mem_collectTypeFiles_iff]
  rw [eq_comm (a := file), eq_comm (a := file)]

/-- **A file outside the reference sets cannot change a type or a fact, unless a NaN is
    compared; a file in them is named.** -/
theorem reference_sets_complete_iff (h : Hashing) (file : FileId) (t : LuaType)
    (fact : LuaTypeFact) (ht : WellBuilt h t) (hfact : ∀ type ∈ fact.types, WellBuilt h type) :
    (file ∉ refFiles t →
      ((∀ remap : FileRemap, remap.fileId = file →
          (remapIdentitiesInType h remap.identities t).typ = none
            ∧ (remapIdentitiesInType h remap.identities t).lost = false) ↔ ¬ ComparesNaN t)) ∧
    (file ∉ typeFactReferencedFiles fact →
      ((∀ remap : FileRemap, remap.fileId = file → remapTypeFact h remap fact = (none, false))
        ↔ ¬ ∃ type ∈ fact.types, ComparesNaN type)) ∧
    (file ∈ refFiles t ↔ (∃ i, Names i t ∧ i.fileId = file) ∨ RefersToModule file t) ∧
    (file ∈ typeFactReferencedFiles fact ↔ (∃ i, Names i fact.typ ∧ i.fileId = file)
        ∨ ∃ step ∈ fact.provenance, step.NamesFile file) := by
  refine ⟨fun hfile => ?_, fun hfile => ?_, mem_refFiles_iff file t, ?_⟩
  · have hkept : ∀ remap : FileRemap, remap.fileId = file →
        ∀ i, Names i t → remap.identities.remapped i = .Unrelated := by
      rintro remap rfl i hi
      apply remapped_of_other_file
      intro heq
      exact hfile ((mem_refFiles_iff _ t).2 (.inl ⟨i, hi, heq⟩))
    have hnone : ∀ remap : FileRemap, remap.fileId = file →
        ((remapIdentitiesInType h remap.identities t).typ = none ↔ ¬ ComparesNaN t) := by
      intro remap hremap
      rw [← changedBy_iff_comparesNaN h remap.identities t ht (hkept remap hremap)]
      show _ ↔ ¬ (remapIdentitiesInType h remap.identities t).typ.isSome = true
      rw [Bool.not_eq_true, Option.isSome_eq_false_iff, Option.isNone_iff_eq_none]
    constructor
    · intro hall
      exact (hnone ⟨file, ⟨[]⟩, none⟩ rfl).1 (hall _ rfl).1
    · intro hnan remap hremap
      exact ⟨(hnone remap hremap).2 hnan,
        not_lostBy_of_unrelated h remap.identities t (hkept remap hremap)⟩
  · constructor
    · intro hall
      have hunrelated := remapTypeFact_unrelated_iff h ⟨file, ⟨[]⟩, none⟩ fact hfact hfile
      refine hunrelated.1.1 ?_
      rw [hall _ rfl]
    · rintro hnan remap rfl
      have hunrelated := remapTypeFact_unrelated_iff h remap fact hfact hfile
      exact Prod.ext (hunrelated.1.2 hnan) hunrelated.2
  · simp only [typeFactReferencedFiles, collectProvenanceFiles, List.mem_append, List.mem_flatMap,
      mem_collectTypeFiles_iff, mem_files_iff]

/-- A fact without provenance. -/
def certainFact (t : LuaType) : LuaTypeFact := ⟨t, .Certain, some .ConcreteValue, []⟩

theorem reference_sets_complete_iff_tuple :
    (⟨2⟩ : FileId) ∉ refFiles (literalAndFunction 10) ∧
    (∀ remap : FileRemap, remap.fileId = ⟨2⟩ →
      (remapIdentitiesInType plainHashing remap.identities (literalAndFunction 10)).typ = none
        ∧ (remapIdentitiesInType plainHashing remap.identities (literalAndFunction 10)).lost
          = false) ∧
    (⟨1⟩ : FileId) ∈ typeFactReferencedFiles (certainFact (literalAndFunction 10)) := by
  have hfact : ∀ type ∈ (certainFact (literalAndFunction 10)).types,
      WellBuilt plainHashing type := by
    intro type htype
    rcases List.mem_cons.1 htype with rfl | htype
    · exact wellBuilt_literalAndFunction 10
    · cases htype
  have hother := reference_sets_complete_iff plainHashing ⟨2⟩ (literalAndFunction 10)
    (certainFact (literalAndFunction 10)) (wellBuilt_literalAndFunction 10) hfact
  have hown := reference_sets_complete_iff plainHashing ⟨1⟩ (literalAndFunction 10)
    (certainFact (literalAndFunction 10)) (wellBuilt_literalAndFunction 10) hfact
  have hout : (⟨2⟩ : FileId) ∉ refFiles (literalAndFunction 10) := by
    intro hmem
    rcases hother.2.2.1.1 hmem with ⟨i, ⟨s, hs, hi⟩, hfile⟩ | hs
    · rcases within_literalAndFunction hs with rfl | rfl | rfl
      · cases hi
      · cases hi
        revert hfile
        decide
      · cases hi
        revert hfile
        decide
    · rcases within_literalAndFunction hs with heq | heq | heq <;> cases heq
  refine ⟨hout, (hother.1 hout).2 ?_, hown.2.2.2.2 (.inl ⟨.Signature ⟨⟨1⟩, 4⟩, ?_, rfl⟩)⟩
  · rintro ⟨s, hs, u, hu, -⟩
    rcases within_literalAndFunction hs with rfl | rfl | rfl <;> exact List.not_mem_nil hu
  · exact ⟨_, .child (.tail _ (.head _)) .here, rfl⟩

/-- **`fun(): nan` names no file, and every remap rewrites it.** -/
theorem nan_returning_rewritten :
    refFiles nanReturning = [] ∧ typeFactReferencedFiles (certainFact nanReturning) = [] ∧
    (remapIdentitiesInType plainHashing (FileRemap.identities ⟨⟨1⟩, ⟨[]⟩, none⟩)
      nanReturning).typ = some nanReturning ∧
    (remapTypeFact plainHashing ⟨⟨1⟩, ⟨[]⟩, none⟩ (certainFact nanReturning)).1
      = some (certainFact nanReturning) := by
  refine ⟨?_, ?_, rfl, rfl⟩ <;>
    simp [refFiles, collectTypeCacheRefs, typeFactReferencedFiles, collectProvenanceFiles,
      collectTypeFiles, certainFact, nanReturning, visitTypeIdentities_eq, visitType_eq,
      visitedChildren, identityChildren, typeCacheRef, identityFile]

end GluaLs.Edit
