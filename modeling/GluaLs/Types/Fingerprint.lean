/-
  GluaLs.Types.Fingerprint — which types what they write to the hasher tells apart.

  Everything `hash_content` writes is read back (`decodes_hashContent`), with two exceptions
  and a third of another kind: a string template writes its id alone, the fields of an
  object run into what follows them, and a NaN is not equal to itself though it writes the
  same words.
-/
import GluaLs.Types.Equality
import GluaLs.Types.HashContent

namespace GluaLs.Types

open GluaLs.Lib

namespace LuaType

/-! ## §1. Read back, or confused -/

/-- Another value that writes the same words and is not equal to it. -/
def Confused {α : Type} (code : α → List Word) (eq : α → α → Bool) (a : α) : Prop :=
  ∃ b, code b = code a ∧ eq a b = false

/-- A list with such an element, behind its length. -/
theorem Confused.list {α : Type} {code : α → List Word} {eq : α → α → Bool}
    (l : List α) (a : α) (ha : a ∈ l) (h : Confused code eq a) :
    Confused (hashList code) (listEq eq) l := by
  have hlist : ∃ l', l'.length = l.length ∧ l'.flatMap code = l.flatMap code
      ∧ listEq eq l l' = false := by
    induction l with
    | nil => cases ha
    | cons b l ih =>
      obtain rfl | ha := List.mem_cons.1 ha
      · obtain ⟨a', hcode, heq⟩ := h
        refine ⟨a' :: l, rfl, ?_, ?_⟩
        · rw [List.flatMap_cons, List.flatMap_cons, hcode]
        · rw [listEq, heq, Bool.false_and]
      · obtain ⟨l', hlen, hcode, heq⟩ := ih ha
        refine ⟨b :: l', by simp [hlen], ?_, ?_⟩
        · rw [List.flatMap_cons, List.flatMap_cons, hcode]
        · rw [listEq, heq, Bool.and_false]
  obtain ⟨l', hlen, hcode, heq⟩ := hlist
  refine ⟨l', ?_, heq⟩
  unfold hashList
  rw [hlen, hcode]

/-- At a value: what is written of it is read back if this is so of the types that `held` lists,
    and another value writes the same words if another type does so for one of them. -/
structure WritesAt {α : Type} (code : α → List Word) (eq : α → α → Bool) (held : α → List LuaType)
    (a : α) : Prop where
  decodes : (∀ s ∈ held a, Decodes hashContent s) → Decodes code a
  confused : ∀ s ∈ held a, Confused hashContent LuaType.eq s → Confused code eq a

def Writes {α : Type} (code : α → List Word) (eq : α → α → Bool) (held : α → List LuaType) : Prop :=
  ∀ a, WritesAt code eq held a

namespace Writes

variable {α β : Type} {f : α → List Word} {eqA : α → α → Bool} {heldA : α → List LuaType}
variable {g : β → List Word} {eqB : β → β → Bool} {heldB : β → List LuaType}

theorem type : Writes hashContent LuaType.eq fun t => [t] := fun t => {
  decodes := fun h => h t (.head _)
  confused := fun _ hs h => List.mem_singleton.1 hs ▸ h }

/-- A value that holds no types. -/
theorem const [BEq α] (h : ∀ a, Decodes f a) :
    Writes f (fun a b => a == b) fun _ => [] := fun a => {
  decodes := fun _ => h a
  confused := fun _ hs => nomatch hs }

section

variable (hA : Writes f eqA heldA)
include hA

theorem congr {f' : α → List Word} {eq : α → α → Bool} {held : α → List LuaType} (hcode : f' = f)
    (heq : ∀ a b, eq a b = eqA a b) (hheld : ∀ a, held a = heldA a) : Writes f' eq held := by
  obtain rfl : eq = eqA := funext fun a => funext (heq a)
  obtain rfl : held = heldA := funext hheld
  exact hcode ▸ hA

theorem pair (hB : Writes g eqB heldB) : Writes (fun x : α × β => f x.1 ++ g x.2)
    (pairEq eqA eqB) fun x => heldA x.1 ++ heldB x.2 := by
  intro x
  refine ⟨fun h => ?_, fun s hs h => ?_⟩
  · exact ((hA x.1).decodes fun s hs => h s (List.mem_append_left _ hs)).pair
      ((hB x.2).decodes fun s hs => h s (List.mem_append_right _ hs))
  · rcases List.mem_append.1 hs with hs | hs
    · obtain ⟨b, hcode, heq⟩ := (hA x.1).confused s hs h
      exact ⟨(b, x.2), congrArg (· ++ g x.2) hcode, Bool.and_eq_false_iff.2 (.inl heq)⟩
    · obtain ⟨b, hcode, heq⟩ := (hB x.2).confused s hs h
      exact ⟨(x.1, b), congrArg (f x.1 ++ ·) hcode, Bool.and_eq_false_iff.2 (.inr heq)⟩

theorem list : Writes (hashList f) (listEq eqA) fun l => l.flatMap heldA := by
  intro l
  refine ⟨fun h => ?_, fun s hs h => ?_⟩
  · exact decodes_hashList l fun a ha =>
      (hA a).decodes fun s hs => h s (List.mem_flatMap.2 ⟨a, ha, hs⟩)
  · obtain ⟨a, ha, hs⟩ := List.mem_flatMap.1 hs
    exact Confused.list l a ha ((hA a).confused s hs h)

theorem option : Writes (hashOption f) (optionEq eqA) fun o => o.toList.flatMap heldA := by
  intro o
  refine ⟨fun h => ?_, fun s hs h => ?_⟩
  · exact decodes_hashOption o fun a ha =>
      (hA a).decodes fun s hs => h s (List.mem_flatMap.2 ⟨a, ha, hs⟩)
  · obtain ⟨a, ha, hs⟩ := List.mem_flatMap.1 hs
    obtain ⟨b, hcode, heq⟩ := (hA a).confused s hs h
    rw [Option.mem_toList.1 ha]
    exact ⟨some b, congrArg (_ :: ·) hcode, heq⟩

end

end Writes

theorem writes_types : Writes (fun types => .int types.length :: hashEach types) eqs
    fun types => types :=
  Writes.type.list.congr (funext fun types => congrArg (_ :: ·) (hashEach_eq_flatMap types)) eqs_eq
    fun types => (List.flatMap_singleton' types).symm

theorem writes_opt : Writes hashOpt eqOpt Option.toList :=
  Writes.type.option.congr hashOpt_eq eqOpt_eq fun o => (List.flatMap_singleton' o.toList).symm

theorem writes_params : Writes (fun params => .int params.length :: hashEachParam params) eqParams
    fun params => params.filterMap fun param => param.2 := by
  refine ((Writes.const decodes_hashStr).pair Writes.type.option).list.congr
    (funext fun params => ?_) eqParams_eq fun params => ?_
  · rw [hashEachParam_eq_flatMap, hashOpt_eq]
    rfl
  · simp [List.filterMap_eq_flatMap_toList]

theorem writes_arms : Writes (fun arms => .int arms.length :: hashEachArm arms) eqArms
    fun arms => arms.map fun arm => arm.1 :=
  (Writes.type.pair (.const fun doc => decodes_hashOption doc fun s _ =>
    decodes_hashStr s)).list.congr
      (funext fun arms => congrArg (_ :: ·) (hashEachArm_eq_flatMap arms)) eqArms_eq
      fun arms => (List.flatMap_pure_eq_map _ arms).symm

/-- What is written tells the constructor, whatever follows. -/
def ToldBy {α : Type} (f : α → List Word) (idx : α → Nat) : Prop :=
  ∀ a b u v, f a ++ u = f b ++ v → idx a = idx b

/-- A constructor writes some words and then what it is applied to. -/
theorem Writes.constructor {α β : Type} {code : β → List Word} {eqB : β → β → Bool}
    {heldB : β → List LuaType} (h : Writes code eqB heldB) (mk : β → α) (pre : List Word)
    {f : α → List Word} {eq : α → α → Bool} {held : α → List LuaType} {idx : α → Nat}
    (hidx : ToldBy f idx) {a : α} (hinv : ∀ b, idx b = idx a → ∃ x, b = mk x)
    (hmk : ∀ x, f (mk x) = pre ++ code x := by exact fun _ => rfl)
    (heq : ∀ x y, eq (mk x) (mk y) = eqB x y := by
      intro x y
      first | rfl | (simp only [pairEq, ← Bool.and_assoc]; rfl))
    (hheld : ∀ x, held (mk x) = heldB x := by intro x; first | rfl | simp [parts, children]) :
    WritesAt f eq held a := by
  obtain ⟨x, rfl⟩ := hinv a rfl
  refine ⟨fun hdec b u v hcode => ?_, fun s hs hconf => ?_⟩
  · obtain ⟨y, rfl⟩ := hinv b (hidx _ _ u v hcode).symm
    rw [hmk, hmk, List.append_assoc, List.append_assoc] at hcode
    rw [hheld] at hdec
    obtain ⟨hxy, huv⟩ := (h x).decodes hdec y u v (List.append_cancel_left hcode)
    exact ⟨congrArg mk hxy, huv⟩
  · rw [hheld] at hs
    obtain ⟨y, hcode, hne⟩ := (h x).confused s hs hconf
    exact ⟨mk y, by rw [hmk, hmk, hcode], (heq x y).trans hne⟩

theorem writes_use :
    Writes LuaAttributeUse.hashContent LuaAttributeUse.eq LuaAttributeUse.parts := fun _ =>
  have hidx : ToldBy LuaAttributeUse.hashContent fun _ => 0 := fun _ _ _ _ _ => rfl
  ((Writes.const decodes_hashDeclId).pair writes_params).constructor (fun x => .mk x.1 x.2) [] hidx
    (by rintro ⟨id, args⟩ _; exact ⟨(id, args), rfl⟩) (fun _ => rfl) (fun _ _ => rfl) fun _ => rfl

theorem writes_uses : Writes hashOptUses eqOptUses
    fun o => (o.getD []).flatMap LuaAttributeUse.parts := by
  refine writes_use.list.option.congr (funext fun o => ?_) eqOptUses_eq fun o => ?_
  · cases o with
    | none => rfl
    | some uses => exact congrArg (.int 1 :: .int uses.length :: ·) (hashEachUse_eq_flatMap uses)
  · cases o <;> simp

theorem writes_genericParam :
    Writes GenericParam.hashContent GenericParam.eq GenericParam.parts := fun _ =>
  have hidx : ToldBy GenericParam.hashContent fun _ => 0 := fun _ _ _ _ _ => rfl
  ((Writes.const decodes_hashStr).pair (writes_opt.pair writes_uses)).constructor
    (fun x => .mk x.1 x.2.1 x.2.2) [] hidx
    (by rintro ⟨name, constraint, uses⟩ _; exact ⟨(name, constraint, uses), rfl⟩) (fun _ => rfl)
    (by intro x y; simp only [pairEq, ← Bool.and_assoc]; rfl) fun _ => rfl

theorem writes_genericParams :
    Writes (fun params => .int params.length :: hashEachGenericParam params) eqGenericParams
      fun params => params.flatMap GenericParam.parts :=
  writes_genericParam.list.congr
    (funext fun params => congrArg (_ :: ·) (hashEachGenericParam_eq_flatMap params))
    eqGenericParams_eq fun _ => rfl

theorem writes_union : Writes LuaUnionType.hashContent LuaUnionType.eq
    fun union => (LuaType.Union union).parts := by
  have hidx : ToldBy LuaUnionType.hashContent LuaUnionType.ctorIdx := by
    intro a b u v h
    cases a <;> cases b <;> first | rfl | cases h
  intro union
  cases union with
  | Nullable =>
    exact Writes.type.constructor .Nullable [.int 0] hidx
      (LuaUnionType.Nullable.elim · · fun x => ⟨x, rfl⟩) (fun _ => rfl)
      (fun _ _ => rfl) fun _ => rfl
  | Multi =>
    exact writes_types.constructor .Multi [.int 1] hidx
      (LuaUnionType.Multi.elim · · fun x => ⟨x, rfl⟩) (fun _ => rfl) (fun _ _ => rfl) fun _ => rfl

theorem writes_variadic : Writes VariadicType.hashContent VariadicType.eq
    fun variadic => (LuaType.Variadic variadic).parts := by
  have hidx : ToldBy VariadicType.hashContent VariadicType.ctorIdx := by
    intro a b u v h
    cases a <;> cases b <;> first | rfl | cases h
  intro variadic
  cases variadic with
  | Multi =>
    exact writes_types.constructor .Multi [.int 0] hidx
      (VariadicType.Multi.elim · · fun x => ⟨x, rfl⟩) (fun _ => rfl) (fun _ _ => rfl) fun _ => rfl
  | Base =>
    exact Writes.type.constructor .Base [.int 1] hidx
      (VariadicType.Base.elim · · fun x => ⟨x, rfl⟩) (fun _ => rfl) (fun _ _ => rfl) fun _ => rfl

/-! ## §2. All of them -/

/-- A type writes its discriminant first. -/
theorem toldBy_ctorIdx : ToldBy hashContent LuaType.ctorIdx := by
  intro a b u v h
  have head : ∀ t : LuaType, ∃ rest, t.hashContent = .int t.ctorIdx :: rest := by
    intro t
    cases t <;> exact ⟨_, rfl⟩
  obtain ⟨rest, ha⟩ := head a
  obtain ⟨rest', hb⟩ := head b
  rw [ha, hb] at h
  exact int_natCast_injective (List.cons.inj h).1

/-- An enumeration written as its discriminant. -/
theorem decodes_ctorIdx {α : Type} {idx : α → Nat} {ofNat : Nat → α}
    (hofNat : Function.LeftInverse ofNat idx) (a : α) : Decodes (fun a => hashNat (idx a)) a :=
  Decodes.comap idx hofNat.injective a (decodes_hashNat _)

def isObject : LuaType → Bool
  | .Object _ _ => true
  | _ => false

def isStrTplRef : LuaType → Bool
  | .StrTplRef _ _ _ _ _ => true
  | _ => false

/-- An object and a string template apart, a type is read back with its parts. -/
theorem writesAt (t : LuaType) (hobject : t.isObject = false) (htemplate : t.isStrTplRef = false) :
    WritesAt hashContent LuaType.eq parts t := by
  have hidx := toldBy_ctorIdx
  have hleaf : ∀ t, (∀ b, b.ctorIdx = t.ctorIdx → b = t) → t.eq t = true → t.parts = [] →
      WritesAt hashContent LuaType.eq parts t := by
    intro t hinv heq hparts
    have hunit : ∀ a : Unit, Decodes (fun _ => ([] : List Word)) a := fun _ _ _ _ h => ⟨rfl, h⟩
    exact (Writes.const hunit).constructor (fun _ => t) t.hashContent hidx
      (fun b hb => ⟨(), hinv b hb⟩) (fun _ => (List.append_nil _).symm) (fun _ _ => heq)
      fun _ => hparts
  cases t with
  | Object fields indexAccess => cases hobject
  | StrTplRef pre tplId name suffix constraint => cases htemplate
  | BooleanConst =>
    exact (Writes.const decodes_hashBool).constructor .BooleanConst [.int 15, .int 14] hidx
      (BooleanConst.elim · · fun x => ⟨x, rfl⟩)
  | StringConst =>
    exact (Writes.const decodes_hashStr).constructor .StringConst [.int 16, .int 15] hidx
      (StringConst.elim · · fun x => ⟨x, rfl⟩)
  | IntegerConst =>
    exact (Writes.const decodes_hashInt).constructor .IntegerConst [.int 17, .int 16] hidx
      (IntegerConst.elim · · fun x => ⟨x, rfl⟩)
  | FloatConst =>
    have hbits : ∀ f, Decodes (fun f : F64 => hashNat f.bits.toNat) f := by
      intro f
      refine Decodes.comap (fun f : F64 => f.bits.toNat) ?_ f (decodes_hashNat _)
      rintro ⟨f⟩ ⟨g⟩ heq
      exact congrArg F64.mk (BitVec.eq_of_toNat_eq heq)
    have hfloat : Writes (fun f : F64 => hashNat f.bits.toNat) F64.eq fun _ => [] :=
      fun f => ⟨fun _ => hbits f, nofun⟩
    exact hfloat.constructor .FloatConst [.int 18, .int 17] hidx
      (FloatConst.elim · · fun x => ⟨x, rfl⟩)
  | TableConst =>
    exact (Writes.const decodes_hashRange).constructor .TableConst [.int 19, .int 18] hidx
      (TableConst.elim · · fun x => ⟨x, rfl⟩)
  | Ref =>
    exact (Writes.const decodes_hashDeclId).constructor .Ref [.int 20, .int 19] hidx
      (Ref.elim · · fun x => ⟨x, rfl⟩)
  | Def =>
    exact (Writes.const decodes_hashDeclId).constructor .Def [.int 21, .int 20] hidx
      (Def.elim · · fun x => ⟨x, rfl⟩)
  | Array =>
    exact (Writes.type.pair (.const decodes_hashArrayLen)).constructor (fun x => .Array x.1 x.2)
      [.int 22, .int 22] hidx (Array.elim · · fun x y => ⟨(x, y), rfl⟩)
  | Tuple =>
    have hstatus := decodes_ctorIdx LuaTupleStatus.ofNat_ctorIdx
    exact (writes_types.pair (.const hstatus)).constructor (fun x => .Tuple x.1 x.2)
      [.int 23, .int 25] hidx (Tuple.elim · · fun x y => ⟨(x, y), rfl⟩)
  | DocFunction =>
    have hasync := decodes_ctorIdx AsyncState.ofNat_ctorIdx
    have hflags : ∀ l, Decodes (hashList hashBool) l := fun l =>
      decodes_hashList l fun b _ => decodes_hashBool b
    have hroles : ∀ l, Decodes (hashList hashRole) l := fun l =>
      decodes_hashList l fun r _ => decodes_hashRole r
    exact Writes.constructor ((Writes.const hasync).pair ((Writes.const decodes_hashBool).pair
      ((Writes.const decodes_hashBool).pair (writes_params.pair ((Writes.const hflags).pair
        ((Writes.const hroles).pair .type))))))
      (fun x => .DocFunction x.1 x.2.1 x.2.2.1 x.2.2.2.1 x.2.2.2.2.1 x.2.2.2.2.2.1
        x.2.2.2.2.2.2) [.int 24, .int 26] hidx (DocFunction.elim · · fun x₁ x₂ x₃ x₄ x₅ x₆ x₇ =>
        ⟨(x₁, x₂, x₃, x₄, x₅, x₆, x₇), rfl⟩)
  | Union =>
    exact writes_union.constructor .Union [.int 26] hidx (Union.elim · · fun x => ⟨x, rfl⟩)
  | Intersection =>
    exact writes_types.constructor .Intersection [.int 27] hidx
      (Intersection.elim · · fun x => ⟨x, rfl⟩)
  | MergedTable =>
    exact writes_types.constructor .MergedTable [.int 28, .int 54] hidx
      (MergedTable.elim · · fun x => ⟨x, rfl⟩)
  | Generic =>
    exact ((Writes.const decodes_hashDeclId).pair writes_types).constructor
      (fun x => .Generic x.1 x.2) [.int 29] hidx (Generic.elim · · fun x y => ⟨(x, y), rfl⟩)
  | TableGeneric =>
    exact writes_types.constructor .TableGeneric [.int 30] hidx
      (TableGeneric.elim · · fun x => ⟨x, rfl⟩)
  | TplRef =>
    exact Writes.constructor ((Writes.const decodes_hashTplId).pair ((Writes.const
      decodes_hashStr).pair writes_opt)) (fun x => .TplRef x.1 x.2.1 x.2.2) [.int 31] hidx
      (TplRef.elim · · fun x y z => ⟨(x, y, z), rfl⟩)
  | ConstTplRef =>
    exact Writes.constructor ((Writes.const decodes_hashTplId).pair ((Writes.const
      decodes_hashStr).pair writes_opt)) (fun x => .ConstTplRef x.1 x.2.1 x.2.2) [.int 43] hidx
      (ConstTplRef.elim · · fun x y z => ⟨(x, y, z), rfl⟩)
  | Variadic =>
    exact writes_variadic.constructor .Variadic [.int 33] hidx (Variadic.elim · · fun x => ⟨x, rfl⟩)
  | Signature =>
    exact (Writes.const decodes_hashSignatureId).constructor .Signature [.int 34, .int 36] hidx
      (Signature.elim · · fun x => ⟨x, rfl⟩)
  | Instance =>
    have hkind := decodes_ctorIdx LuaInstanceKind.ofNat_ctorIdx
    exact (Writes.type.pair ((Writes.const decodes_hashRange).pair (.const hkind))).constructor
      (fun x => .Instance x.1 x.2.1 x.2.2) [.int 35, .int 37] hidx
      (Instance.elim · · fun x y z => ⟨(x, y, z), rfl⟩)
  | DocStringConst =>
    exact (Writes.const decodes_hashStr).constructor .DocStringConst [.int 36, .int 38] hidx
      (DocStringConst.elim · · fun x => ⟨x, rfl⟩)
  | DocIntegerConst =>
    exact (Writes.const decodes_hashInt).constructor .DocIntegerConst [.int 37, .int 39] hidx
      (DocIntegerConst.elim · · fun x => ⟨x, rfl⟩)
  | DocBooleanConst =>
    exact (Writes.const decodes_hashBool).constructor .DocBooleanConst [.int 38, .int 35] hidx
      (DocBooleanConst.elim · · fun x => ⟨x, rfl⟩)
  | Namespace =>
    exact (Writes.const decodes_hashStr).constructor .Namespace [.int 39, .int 40] hidx
      (Namespace.elim · · fun x => ⟨x, rfl⟩)
  | Call =>
    have hkind := decodes_ctorIdx LuaAliasCallKind.ofNat_ctorIdx
    exact ((Writes.const hkind).pair writes_types).constructor (fun x => .Call x.1 x.2)
      [.int 40, .int 23] hidx (Call.elim · · fun x y => ⟨(x, y), rfl⟩)
  | MultiLineUnion =>
    exact writes_arms.constructor .MultiLineUnion [.int 41] hidx
      (MultiLineUnion.elim · · fun x => ⟨x, rfl⟩)
  | TypeGuard =>
    exact Writes.type.constructor .TypeGuard [.int 42, .int 44] hidx
      (TypeGuard.elim · · fun x => ⟨x, rfl⟩)
  | Language =>
    exact (Writes.const decodes_hashStr).constructor .Language [.int 44, .int 47] hidx
      (Language.elim · · fun x => ⟨x, rfl⟩)
  | ModuleRef =>
    exact (Writes.const decodes_hashFileId).constructor .ModuleRef [.int 45, .int 48] hidx
      (ModuleRef.elim · · fun x => ⟨x, rfl⟩)
  | DocAttribute =>
    exact writes_params.constructor .DocAttribute [.int 46, .int 52] hidx
      (DocAttribute.elim · · fun x => ⟨x, rfl⟩)
  | Conditional =>
    exact Writes.constructor (Writes.type.pair (Writes.type.pair (Writes.type.pair
      (writes_genericParams.pair (.const decodes_hashBool)))))
      (fun x => .Conditional x.1 x.2.1 x.2.2.1 x.2.2.2.1 x.2.2.2.2) [.int 47] hidx
      (Conditional.elim · · fun x₁ x₂ x₃ x₄ x₅ => ⟨(x₁, x₂, x₃, x₄, x₅), rfl⟩)
  | ConditionalInfer =>
    exact (Writes.const decodes_hashStr).constructor .ConditionalInfer [.int 48, .int 50] hidx
      (ConditionalInfer.elim · · fun x => ⟨x, rfl⟩)
  | Mapped =>
    exact Writes.constructor ((Writes.const decodes_hashTplId).pair (writes_genericParam.pair
      (Writes.type.pair ((Writes.const decodes_hashBool).pair (.const decodes_hashBool)))))
      (fun x => .Mapped x.1 x.2.1 x.2.2.1 x.2.2.2.1 x.2.2.2.2) [.int 49] hidx
      (Mapped.elim · · fun x₁ x₂ x₃ x₄ x₅ => ⟨(x₁, x₂, x₃, x₄, x₅), rfl⟩)
  | TableOf =>
    exact Writes.type.constructor .TableOf [.int 50, .int 53] hidx
      (TableOf.elim · · fun x => ⟨x, rfl⟩)
  | _ =>
    refine hleaf _ (fun b hb => ?_) rfl rfl
    cases b <;> first | rfl | cases hb

/-- **What a type writes is read back**, unless an object or a string template is in it. -/
theorem decodes_hashContent (t : LuaType) :
    ¬ Holds (fun s => s.isObject = true) t → ¬ Holds (fun s => s.isStrTplRef = true) t →
      Decodes hashContent t := by
  induction t using induction_parts with
  | step t ih =>
    intro hobject htemplate
    have hthis := writesAt t (Bool.eq_false_iff.2 fun h => hobject (.here h))
      (Bool.eq_false_iff.2 fun h => htemplate (.here h))
    exact hthis.decodes fun s hs =>
      ih s hs (fun h => hobject (.part hs h)) fun h => htemplate (.part hs h)

/-- A template with a longer prefix writes the same words. -/
theorem confused_of_isStrTplRef (t : LuaType) (ht : t.isStrTplRef = true) :
    Confused hashContent LuaType.eq t := by
  cases t with
  | StrTplRef p id n suffix c =>
    refine ⟨.StrTplRef (p ++ "x") id n suffix c, rfl, ?_⟩
    show (p == p ++ "x" && id == id && n == n && suffix == suffix && eqOpt c c) = false
    have hne : (p == p ++ "x") = false := by
      rw [beq_eq_false_iff_ne]
      intro heq
      have hlen := congrArg String.length heq
      simp at hlen
    simp only [hne, Bool.false_and]
  | _ => cases ht

/-- **A type that holds a string template is confused with another.** -/
theorem confused_of_holds_strTplRef (t : LuaType)
    (htemplate : Holds (fun s => s.isStrTplRef = true) t) :
    ¬ Holds (fun s => s.isObject = true) t → Confused hashContent LuaType.eq t := by
  induction htemplate with
  | @here t ht => exact fun _ => confused_of_isStrTplRef t ht
  | @part t s hs _ ih =>
    intro hobject
    cases ht : t.isStrTplRef with
    | true => exact confused_of_isStrTplRef t ht
    | false =>
      have hthis := writesAt t (Bool.eq_false_iff.2 fun h => hobject (.here h)) ht
      exact hthis.confused s hs (ih fun h => hobject (.part hs h))

/-! ## §3. Which types are told apart -/

/-- **A type without objects is told from every type it is not equal to** exactly if it holds
    no string template and no NaN. -/
theorem hashContent_determines_iff (t : LuaType)
    (hobject : ¬ Holds (fun s => s.isObject = true) t) :
    (∀ b : LuaType, t.hashContent = b.hashContent → t.eq b = true) ↔
      ¬ Holds (fun s => s.isStrTplRef = true) t ∧ ¬ Holds (fun s => s.isNaN = true) t := by
  constructor
  · intro h
    refine ⟨?_, ?_⟩
    · intro htemplate
      obtain ⟨b, hcode, heq⟩ := confused_of_holds_strTplRef t htemplate hobject
      rw [h b hcode.symm] at heq
      cases heq
    · -- a type writes what it writes, so only equality with itself is at stake
      exact (eq_self_iff t).1 (h t rfl)
  · rintro ⟨htemplate, hnan⟩ b hcode
    have hdecodes := decodes_hashContent t hobject htemplate b [] []
    rw [List.append_nil, List.append_nil] at hdecodes
    rw [← (hdecodes hcode).1]
    exact (eq_self_iff t).2 hnan

/-- An array of strings or nil holds two types; it is told from every other type. -/
theorem hashContent_determines_array :
    ¬ Holds (fun s => s.isObject = true) (.Array (.Union (.Nullable .String)) .None) ∧
      ∀ b : LuaType,
        (LuaType.Array (.Union (.Nullable .String)) .None).hashContent = b.hashContent →
        (LuaType.Array (.Union (.Nullable .String)) .None).eq b = true := by
  have hnot : ∀ p : LuaType → Prop, ¬ p (.Array (.Union (.Nullable .String)) .None) →
      ¬ p (.Union (.Nullable .String)) → ¬ p .String →
      ¬ Holds p (.Array (.Union (.Nullable .String)) .None) := by
    intro p harray hunion hstring h
    cases h with
    | here h => exact harray h
    | part hmem h =>
      rw [List.mem_singleton.1 hmem] at h
      cases h with
      | here h => exact hunion h
      | part hmem h =>
        rw [List.mem_singleton.1 hmem] at h
        cases h with
        | here h => exact hstring h
        | part hmem _ => cases hmem
  refine ⟨hnot _ nofun nofun nofun, ?_⟩
  apply (hashContent_determines_iff _ (hnot _ nofun nofun nofun)).2
  exact ⟨hnot _ nofun nofun nofun, hnot _ nofun nofun nofun⟩

/-- **Two templates that differ in the prefix alone write the same words**, and so do two
    objects, one with a field at `0` and one with an index access: neither pair is equal. -/
theorem hashContent_not_injective :
    (∃ a b : LuaType, a.isStrTplRef = true ∧ a.hashContent = b.hashContent ∧ a.eq b = false) ∧
      (∃ a b : LuaType, a.isObject = true ∧ a.hashContent = b.hashContent ∧ a.eq b = false) := by
  refine ⟨⟨.StrTplRef "A." (.Type 0) "T" "" none, .StrTplRef "B." (.Type 0) "T" "" none, ?_⟩,
    ⟨.Object [(.Integer 0, .Unknown)] [], .Object [] [(.Unknown, .Unknown)], ?_⟩⟩
  · decide
  · decide

end LuaType

end GluaLs.Types
