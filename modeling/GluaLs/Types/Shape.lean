/-
  GluaLs.Types.Shape — the types directly inside a type, and what is left when they are blanked.

  The CHILDREN of a type are what it is made of, apart from the arguments of the attributes
  written on a generic parameter, which no visitor looks at; `mapChildren` replaces them in
  place.  A type is its shape and its children, and is compared by them (`splits`); the
  laws of the comparison follow from those of all it is made of.
-/
import GluaLs.Lib.Comparison
import GluaLs.Types.LuaType

namespace GluaLs.Types

open GluaLs.Lib

/-! ## §1. Children -/

def LuaMemberKey.mapType (σ : LuaType → LuaType) : LuaMemberKey → LuaMemberKey
  | .ExprType type => .ExprType (σ type)
  | key => key

def GenericParam.mapConstraint (σ : LuaType → LuaType) : GenericParam → GenericParam
  | .mk name typeConstraint attributes => .mk name (typeConstraint.map σ) attributes

namespace LuaType

/-- The type with its children replaced, and nothing else. -/
def mapChildren (σ : LuaType → LuaType) : LuaType → LuaType
  | .Array base len => .Array (σ base) len
  | .Tuple types status => .Tuple (types.map σ) status
  | .DocFunction asyncState isColonDefine isVariadic params optionalParams callArgRoles ret =>
    .DocFunction asyncState isColonDefine isVariadic
      (params.map fun param => (param.1, param.2.map σ)) optionalParams callArgRoles (σ ret)
  | .Object fields indexAccess =>
    .Object (fields.map fun field => (field.1.mapType σ, σ field.2))
      (indexAccess.map fun access => (σ access.1, σ access.2))
  | .Union (.Nullable type) => .Union (.Nullable (σ type))
  | .Union (.Multi types) => .Union (.Multi (types.map σ))
  | .Intersection types => .Intersection (types.map σ)
  | .MergedTable types => .MergedTable (types.map σ)
  | .Generic base params => .Generic base (params.map σ)
  | .TableGeneric types => .TableGeneric (types.map σ)
  | .TplRef tplId name constraint => .TplRef tplId name (constraint.map σ)
  | .StrTplRef pre tplId name suffix constraint =>
    .StrTplRef pre tplId name suffix (constraint.map σ)
  | .Variadic (.Multi types) => .Variadic (.Multi (types.map σ))
  | .Variadic (.Base type) => .Variadic (.Base (σ type))
  | .Instance base range kind => .Instance (σ base) range kind
  | .Call callKind operand => .Call callKind (operand.map σ)
  | .MultiLineUnion unions => .MultiLineUnion (unions.map fun arm => (σ arm.1, arm.2))
  | .TypeGuard type => .TypeGuard (σ type)
  | .ConstTplRef tplId name constraint => .ConstTplRef tplId name (constraint.map σ)
  | .DocAttribute params => .DocAttribute (params.map fun param => (param.1, param.2.map σ))
  | .Conditional condition trueType falseType inferParams hasNew =>
    .Conditional (σ condition) (σ trueType) (σ falseType)
      (inferParams.map fun param => param.mapConstraint σ) hasNew
  | .Mapped tplId param value isReadonly isOptional =>
    .Mapped tplId (param.mapConstraint σ) (σ value) isReadonly isOptional
  | .TableOf type => .TableOf (σ type)
  | t => t

end LuaType

theorem GenericParam.children_subset_parts (param : GenericParam) :
    param.children ⊆ param.parts := by
  intro s hs
  obtain ⟨name, typeConstraint, attributes⟩ := param
  exact List.mem_append_left _ hs

namespace LuaType

/-- A child is a part: only the arguments of attributes are left out. -/
theorem children_subset_parts (t : LuaType) : t.children ⊆ t.parts := by
  intro s hs
  cases t with
  | Conditional condition trueType falseType inferParams hasNew =>
    rcases List.mem_append.1 hs with hs | hs
    · exact List.mem_append_left _ hs
    · rcases List.mem_flatMap.1 hs with ⟨param, hparam, hs⟩
      exact List.mem_append_right _
        (List.mem_flatMap.2 ⟨param, hparam, param.children_subset_parts hs⟩)
  | Mapped tplId param value isReadonly isOptional =>
    rcases List.mem_append.1 hs with hs | hs
    · exact List.mem_append_left _ (param.children_subset_parts hs)
    · exact List.mem_append_right _ hs
  | _ => exact hs

theorem sizeOf_lt_of_mem_children (t s : LuaType) (h : s ∈ t.children) : sizeOf s < sizeOf t :=
  sizeOf_lt_of_mem_parts t s (children_subset_parts t h)

/-- **Induction on children.** -/
theorem induction_children {motive : LuaType → Prop}
    (step : ∀ t, (∀ s ∈ t.children, motive s) → motive t) (t : LuaType) : motive t := by
  induction t using induction_parts with
  | step t ih => exact step t fun s hs => ih s (children_subset_parts t hs)

/-! ## §2. The comparisons of lists -/

theorem eqs_eq (l l' : List LuaType) : eqs l l' = listEq LuaType.eq l l' :=
  eq_listEq rfl (fun _ _ => rfl) (fun _ _ => rfl) (fun _ _ _ _ => rfl) l l'

theorem eqOpt_eq (o p : Option LuaType) : eqOpt o p = optionEq LuaType.eq o p := by
  cases o <;> cases p <;> rfl

theorem eqParams_eq (l l' : List (SmolStr × Option LuaType)) :
    eqParams l l' = listEq (pairEq (· == ·) (optionEq LuaType.eq)) l l' := by
  refine eq_listEq rfl (fun _ _ => rfl) (fun _ _ => rfl) (fun a l b l' => ?_) l l'
  show (a.1 == b.1 && eqOpt a.2 b.2 && eqParams l l') = _
  rw [eqOpt_eq]
  rfl

theorem eqFields_eq (l l' : List (LuaMemberKey × LuaType)) :
    eqFields l l' = listEq (pairEq LuaMemberKey.eq LuaType.eq) l l' :=
  eq_listEq rfl (fun _ _ => rfl) (fun _ _ => rfl) (fun _ _ _ _ => rfl) l l'

theorem eqPairs_eq (l l' : List (LuaType × LuaType)) :
    eqPairs l l' = listEq (pairEq LuaType.eq LuaType.eq) l l' :=
  eq_listEq rfl (fun _ _ => rfl) (fun _ _ => rfl) (fun _ _ _ _ => rfl) l l'

theorem eqArms_eq (l l' : List (LuaType × Option SmolStr)) :
    eqArms l l' = listEq (pairEq LuaType.eq (· == ·)) l l' :=
  eq_listEq rfl (fun _ _ => rfl) (fun _ _ => rfl) (fun _ _ _ _ => rfl) l l'

theorem eqGenericParams_eq (l l' : List GenericParam) :
    eqGenericParams l l' = listEq GenericParam.eq l l' :=
  eq_listEq rfl (fun _ _ => rfl) (fun _ _ => rfl) (fun _ _ _ _ => rfl) l l'

theorem eqUses_eq (l l' : List LuaAttributeUse) : eqUses l l' = listEq LuaAttributeUse.eq l l' :=
  eq_listEq rfl (fun _ _ => rfl) (fun _ _ => rfl) (fun _ _ _ _ => rfl) l l'

theorem eqOptUses_eq (o p : Option (List LuaAttributeUse)) :
    eqOptUses o p = optionEq (listEq LuaAttributeUse.eq) o p := by
  cases o with
  | none => cases p <;> rfl
  | some uses =>
    cases p with
    | none => rfl
    | some uses' => exact eqUses_eq uses uses'

end LuaType

/-! ## §3. Replacing children

A value that holds types is what is left of it when they are blanked, and they themselves.  So
its types are replaced, and so it is compared (`Splits`): pairs, options and lists of such
values are, and what a constructor makes of them. -/

/-- Every type gives way to the same one. -/
def blank : LuaType → LuaType := fun _ => .Nil

/-- At a value: `map` replaces its types, `ch` lists them, and `eq` compares them in this order.
    What `held` lists are all the types it compares. -/
structure SplitsAt {A : Type} (eq : A → A → Bool) (map : (LuaType → LuaType) → A → A)
    (ch held : A → List LuaType) (a : A) : Prop where
  children : ∀ σ, ch (map σ a) = (ch a).map σ
  map_map : ∀ σ τ, map τ (map σ a) = map (τ ∘ σ) a
  eq_eq : ∀ b, eq a b = (eq (map blank a) (map blank b) && listEq LuaType.eq (ch a) (ch b))
  ext : ∀ b, map blank a = map blank b → ch a = ch b → a = b
  law : ∀ L : ComparisonLaw, (∀ s ∈ held a, L.At LuaType.eq s) → L.At eq a
  refl : eq a a = true ↔ ∀ s ∈ held a, s.eq s = true

def Splits {A : Type} (eq : A → A → Bool) (map : (LuaType → LuaType) → A → A)
    (ch held : A → List LuaType) : Prop :=
  ∀ a, SplitsAt eq map ch held a

namespace Splits

variable {A B : Type} {eqA : A → A → Bool} {mapA : (LuaType → LuaType) → A → A}
variable {chA heldA : A → List LuaType} {eqB : B → B → Bool}
variable {mapB : (LuaType → LuaType) → B → B} {chB heldB : B → List LuaType}

theorem type : Splits LuaType.eq (fun σ t => σ t) (fun t => [t]) fun t => [t] := fun a => {
  children := fun _ => rfl
  map_map := fun _ _ => rfl
  eq_eq := fun b => (Bool.and_true (a.eq b)).symm
  ext := fun _ _ h => (List.cons.inj h).1
  law := fun _ h => h a (.head _)
  refl := by rw [List.forall_mem_singleton] }

/-- A value that holds no types. -/
theorem const [BEq A] [LawfulBEq A] :
    Splits (fun a b : A => a == b) (fun _ a => a) (fun _ => []) fun _ => [] := fun a => {
  children := fun _ => rfl
  map_map := fun _ _ => rfl
  eq_eq := fun b => (Bool.and_true (a == b)).symm
  ext := fun _ h _ => h
  law := fun L _ => L.beq a
  refl := iff_of_true (beq_self_eq_true a) fun _ hs => nomatch hs }

section

variable (hA : Splits eqA mapA chA heldA)
include hA

/-- Types that are compared but not replaced. -/
theorem fixed : Splits eqA (fun _ a => a) (fun _ => []) heldA := fun a => {
  children := fun _ => rfl
  map_map := fun _ _ => rfl
  eq_eq := fun b => (Bool.and_true (eqA a b)).symm
  ext := fun _ h _ => h
  law := (hA a).law
  refl := (hA a).refl }

theorem congr {eq : A → A → Bool} {map : (LuaType → LuaType) → A → A} {ch held : A → List LuaType}
    (heq : ∀ a b, eq a b = eqA a b) (hmap : ∀ σ a, map σ a = mapA σ a)
    (hch : ∀ a, ch a = chA a) (hheld : ∀ a, held a = heldA a) : Splits eq map ch held := by
  obtain rfl : eq = eqA := funext fun a => funext (heq a)
  obtain rfl : map = mapA := funext fun σ => funext (hmap σ)
  obtain rfl : ch = chA := funext hch
  obtain rfl : held = heldA := funext hheld
  exact hA

/-- Types that stay leave the value as it is. -/
theorem map_eq_self (σ : LuaType → LuaType) (a : A) (h : ∀ s ∈ chA a, σ s = s) : mapA σ a = a := by
  apply (hA _).ext
  · rw [(hA a).map_map]
    rfl
  · rw [(hA a).children, List.map_congr_left h, List.map_id']

theorem append_inj {a b : A} {l l' : List LuaType} (hmap : mapA blank a = mapA blank b)
    (hch : chA a ++ l = chA b ++ l') : chA a = chA b ∧ l = l' := by
  have hlen := congrArg (fun a => (chA a).length) hmap
  simp only [(hA _).children, List.length_map] at hlen
  exact List.append_inj hch hlen

/-- One value in front of another. -/
theorem and_append (a b : A) (rest : Bool) (l l' : List LuaType) :
    (eqA a b && (rest && listEq LuaType.eq l l')) =
      (eqA (mapA blank a) (mapA blank b) && rest
        && listEq LuaType.eq (chA a ++ l) (chA b ++ l')) := by
  rw [(hA a).eq_eq]
  cases hblank : eqA (mapA blank a) (mapA blank b) with
  | false => simp only [Bool.false_and]
  | true =>
    -- values that are compared alike, once blanked, hold as many types
    rw [(hA _).eq_eq, Bool.and_eq_true, (hA a).children, (hA b).children] at hblank
    have hlen := length_eq_of_listEq _ _ hblank.2
    rw [List.length_map, List.length_map] at hlen
    rw [listEq_append _ _ _ _ hlen, Bool.true_and, Bool.true_and, Bool.and_left_comm]

theorem pair (hB : Splits eqB mapB chB heldB) :
    Splits (pairEq eqA eqB) (fun σ x => (mapA σ x.1, mapB σ x.2))
      (fun x => chA x.1 ++ chB x.2) fun x => heldA x.1 ++ heldB x.2 := by
  intro x
  refine ⟨fun σ => ?_, fun σ τ => ?_, fun y => ?_, fun y hmap hch => ?_, fun L h => ?_, ?_⟩
  · rw [(hA x.1).children, (hB x.2).children, List.map_append]
  · rw [(hA x.1).map_map, (hB x.2).map_map]
  · unfold pairEq
    rw [(hB x.2).eq_eq]
    exact hA.and_append x.1 y.1 _ _ _
  · obtain ⟨hfst, hsnd⟩ := Prod.mk.inj hmap
    obtain ⟨hch, hch'⟩ := hA.append_inj hfst hch
    exact Prod.ext ((hA _).ext _ hfst hch) ((hB _).ext _ hsnd hch')
  · exact L.pair ((hA _).law L fun s hs => h s (List.mem_append_left _ hs))
      ((hB _).law L fun s hs => h s (List.mem_append_right _ hs))
  · rw [List.forall_mem_append, ← (hA x.1).refl, ← (hB x.2).refl]
    exact Bool.and_eq_true_iff

theorem list : Splits (listEq eqA) (fun σ l => l.map (mapA σ)) (fun l => l.flatMap chA)
    fun l => l.flatMap heldA := by
  intro l
  refine ⟨fun σ => ?_, fun σ τ => ?_, ?_, ?_, fun L h => ?_, ?_⟩
  · rw [List.flatMap_map, List.map_flatMap, funext fun a => (hA a).children σ]
  · rw [List.map_map, ← funext fun a => (hA a).map_map σ τ]
    rfl
  · induction l with
    | nil =>
      intro l'
      cases l' <;> rfl
    | cons a l ih =>
      intro l'
      cases l' with
      | nil => rfl
      | cons b l' =>
        show (eqA a b && listEq eqA l l') = _
        rw [ih]
        exact hA.and_append a b _ _ _
  · induction l with
    | nil =>
      intro l' hmap _
      exact (List.map_eq_nil_iff.1 hmap.symm).symm
    | cons a l ih =>
      intro l' hmap hch
      cases l' with
      | nil => exact absurd hmap (List.cons_ne_nil _ _)
      | cons b l' =>
        obtain ⟨hfst, hsnd⟩ := List.cons.inj hmap
        obtain ⟨hch, hch'⟩ := hA.append_inj hfst hch
        rw [(hA a).ext b hfst hch, ih l' hsnd hch']
  · exact L.list fun a ha => (hA a).law L fun s hs => h s (List.mem_flatMap.2 ⟨a, ha, hs⟩)
  · induction l with
    | nil => exact iff_of_true rfl nofun
    | cons a l ih =>
      rw [List.flatMap_cons, List.forall_mem_append, ← (hA a).refl, ← ih]
      exact Bool.and_eq_true_iff

theorem option : Splits (optionEq eqA) (fun σ o => o.map (mapA σ))
    (fun o => o.toList.flatMap chA) fun o => o.toList.flatMap heldA := by
  intro o
  cases o with
  | none =>
    refine ⟨fun _ => rfl, fun _ _ => rfl, fun p => ?_, fun p hmap _ => ?_, fun L h => ?_, ?_⟩
    · cases p <;> rfl
    · exact (Option.map_eq_none_iff.1 hmap.symm).symm
    · exact L.option nofun
    · exact iff_of_true rfl nofun
  | some a =>
    have hflat : ∀ f : A → List LuaType, (some a).toList.flatMap f = f a :=
      fun f => List.flatMap_singleton f a
    refine ⟨fun σ => ?_, fun σ τ => ?_, fun p => ?_, fun p hmap hch => ?_, fun L h => ?_, ?_⟩
    · exact (hflat _).symm ▸ (List.flatMap_singleton _ _).trans ((hA a).children σ)
    · exact congrArg some ((hA a).map_map σ τ)
    · cases p with
      | none => rfl
      | some b => simpa [optionEq] using (hA a).eq_eq b
    · cases p with
      | none => cases hmap
      | some b => rw [(hA a).ext b (Option.some.inj hmap) (by simpa using hch)]
    · rw [hflat] at h
      exact L.option fun b hb => Option.some.inj (Option.mem_toList.1 hb) ▸ (hA a).law L h
    · rw [hflat]
      exact (hA a).refl

end

end Splits

/-- All that is compared with a type: a float is compared as it is. -/
def LuaType.comparands : LuaType → List LuaType
  | .FloatConst f => [.FloatConst f]
  | t => t.parts

/-- A number that tells the constructors of what splits apart. -/
structure Indexed {A : Type} (eq : A → A → Bool) (map : (LuaType → LuaType) → A → A)
    (idx : A → Nat) : Prop where
  map : ∀ σ a, idx (map σ a) = idx a
  eq : ∀ a b, eq a b = true → idx b = idx a

/-- What a constructor makes, of one argument or a tuple of them. -/
theorem Indexed.splits {A B : Type} {eq : A → A → Bool} {map : (LuaType → LuaType) → A → A}
    {ch held : A → List LuaType} {idx : A → Nat} (hidx : Indexed eq map idx)
    {eqB : B → B → Bool} {mapB : (LuaType → LuaType) → B → B} {chB heldB : B → List LuaType}
    (h : Splits eqB mapB chB heldB) (mk : B → A) {a : A} (hinv : ∀ u, idx u = idx a → ∃ d, u = mk d)
    (hmk : ∀ c, idx (mk c) = idx a := by exact fun _ => rfl)
    (heq : ∀ c d, eq (mk c) (mk d) = eqB c d := by exact fun _ _ => rfl)
    (hmap : ∀ σ c, map σ (mk c) = mk (mapB σ c) := by exact fun _ _ => rfl)
    (hch : ∀ c, ch (mk c) = chB c := by
      intro c
      first | rfl | simp [LuaType.children, GenericParam.children])
    (hheld : ∀ c, held (mk c) = heldB c := by
      intro c
      first | rfl | simp [LuaType.comparands, LuaType.parts, LuaType.children, GenericParam.parts])
    (hinj : Function.Injective mk := by
      first
      | exact fun _ _ _ => rfl
      | intro c d h
        simpa [Prod.ext_iff, and_assoc] using h) :
    SplitsAt eq map ch held a := by
  obtain ⟨c, rfl⟩ := hinv a rfl
  have hfalse : ∀ u v, idx u = idx (mk c) → idx v ≠ idx (mk c) → eq u v = false := by
    intro u v hu hv
    exact Bool.eq_false_iff.2 fun htrue => hv ((hidx.eq u v htrue).trans hu)
  refine ⟨fun σ => ?_, fun σ τ => ?_, fun u => ?_, fun u hblank hchildren => ?_, fun L hL => ?_, ?_⟩
  · rw [hmap, hch, hch, (h c).children]
  · rw [hmap, hmap, hmap, (h c).map_map]
  · by_cases hu : idx u = idx (mk c)
    · obtain ⟨d, rfl⟩ := hinv u hu
      rw [hmap, hmap, heq, heq, hch, hch]
      exact (h c).eq_eq d
    · rw [hfalse _ u rfl hu, hfalse _ (map blank u) (hidx.map _ _) ((hidx.map _ _).trans_ne hu)]
      exact (Bool.false_and _).symm
  · have hsame := congrArg idx hblank
    rw [hidx.map, hidx.map] at hsame
    obtain ⟨d, rfl⟩ := hinv u hsame.symm
    rw [hmap, hmap] at hblank
    rw [hch, hch] at hchildren
    rw [(h c).ext d (hinj hblank) hchildren]
  · refine L.constructor mk c ((h c).law L (hheld c ▸ hL)) heq fun d u hu => ?_
    have hne : idx u ≠ idx (mk c) := fun hsame =>
      absurd (hinv u hsame) fun ⟨d, hd⟩ => hu d hd
    refine ⟨hfalse _ u (hmk d) hne, Bool.eq_false_iff.2 fun htrue => hne ?_⟩
    exact (hidx.eq _ _ htrue).symm.trans (hmk d)
  · rw [heq, hheld]
    exact (h c).refl

namespace LuaType

theorem splits_types : Splits eqs (fun σ types => types.map σ) (fun types => types)
    fun types => types :=
  Splits.type.list.congr eqs_eq (fun _ _ => rfl) (fun types => (List.flatMap_singleton' types).symm)
    fun types => (List.flatMap_singleton' types).symm

theorem splits_opt : Splits eqOpt (fun σ o => o.map σ) Option.toList Option.toList :=
  Splits.type.option.congr eqOpt_eq (fun _ _ => rfl)
    (fun o => (List.flatMap_singleton' o.toList).symm)
    fun o => (List.flatMap_singleton' o.toList).symm

theorem splits_params :
    Splits eqParams (fun σ params => params.map fun param => (param.1, param.2.map σ))
      (fun params => params.filterMap fun param => param.2)
      fun params => params.filterMap fun param => param.2 := by
  refine (Splits.const.pair Splits.type.option).list.congr eqParams_eq (fun _ _ => rfl) ?_ ?_
  all_goals
    intro params
    simp [List.filterMap_eq_flatMap_toList]

theorem splits_key :
    Splits LuaMemberKey.eq LuaMemberKey.mapType LuaMemberKey.children LuaMemberKey.children := by
  have hidx : Indexed LuaMemberKey.eq LuaMemberKey.mapType LuaMemberKey.ctorIdx :=
    ⟨fun σ a => by cases a <;> rfl, fun a b h => by cases a <;> cases b <;> first | rfl | cases h⟩
  intro key
  cases key with
  | None =>
    exact hidx.splits (Splits.const (A := Unit)) (fun _ => .None)
      (LuaMemberKey.None.elim · · ⟨(), rfl⟩)
  | Integer => exact hidx.splits .const .Integer (LuaMemberKey.Integer.elim · · fun x => ⟨x, rfl⟩)
  | Name => exact hidx.splits .const .Name (LuaMemberKey.Name.elim · · fun x => ⟨x, rfl⟩)
  | ExprType => exact hidx.splits .type .ExprType (LuaMemberKey.ExprType.elim · · fun x => ⟨x, rfl⟩)

theorem splits_fields :
    Splits eqFields (fun σ fields => fields.map fun field => (field.1.mapType σ, σ field.2))
      (fun fields => fields.flatMap fun field => field.1.children ++ [field.2])
      fun fields => fields.flatMap fun field => field.1.children ++ [field.2] :=
  (splits_key.pair .type).list.congr eqFields_eq (fun _ _ => rfl) (fun _ => rfl) fun _ => rfl

theorem splits_pairs :
    Splits eqPairs (fun σ pairs => pairs.map fun pair => (σ pair.1, σ pair.2))
      (fun pairs => pairs.flatMap fun pair => [pair.1, pair.2])
      fun pairs => pairs.flatMap fun pair => [pair.1, pair.2] :=
  (Splits.type.pair .type).list.congr eqPairs_eq (fun _ _ => rfl) (fun _ => rfl) fun _ => rfl

theorem splits_arms :
    Splits eqArms (fun σ arms => arms.map fun arm => (σ arm.1, arm.2))
      (fun arms => arms.map fun arm => arm.1) fun arms => arms.map fun arm => arm.1 :=
  (Splits.type.pair .const).list.congr eqArms_eq (fun _ _ => rfl)
    (fun arms => (List.flatMap_pure_eq_map _ arms).symm)
    fun arms => (List.flatMap_pure_eq_map _ arms).symm

theorem splits_use :
    Splits LuaAttributeUse.eq (fun _ use => use) (fun _ => []) LuaAttributeUse.parts :=
  have hidx : Indexed LuaAttributeUse.eq (fun _ use => use) fun _ => 0 :=
    ⟨fun _ _ => rfl, fun _ _ _ => rfl⟩
  fun _ => hidx.splits (Splits.const.pair splits_params.fixed) (fun x => .mk x.1 x.2)
    (by rintro ⟨id, args⟩ _; exact ⟨(id, args), rfl⟩) (fun _ => rfl) (fun _ _ => rfl)
    (fun _ _ => rfl) (fun _ => rfl) (fun _ => rfl) fun c d h => by simpa [Prod.ext_iff] using h

theorem splits_genericParam :
    Splits GenericParam.eq GenericParam.mapConstraint GenericParam.children GenericParam.parts :=
  have hidx : Indexed GenericParam.eq GenericParam.mapConstraint fun _ => 0 :=
    ⟨fun _ _ => rfl, fun _ _ _ => rfl⟩
  have huses : Splits eqOptUses (fun _ a => a) (fun _ => [])
      fun o => (o.getD []).flatMap LuaAttributeUse.parts :=
    splits_use.list.option.fixed.congr eqOptUses_eq (fun _ _ => rfl) (fun _ => rfl) fun o => by
      cases o <;> simp
  fun _ => hidx.splits ((Splits.const.pair splits_opt).pair huses) (fun x => .mk x.1.1 x.1.2 x.2)
    (by rintro ⟨name, constraint, attributes⟩ _; exact ⟨((name, constraint), attributes), rfl⟩)
    (fun _ => rfl) (fun _ _ => rfl) (fun _ _ => rfl)
    (fun c => by simp [GenericParam.children]) (fun _ => rfl)
    fun c d h => by simpa [Prod.ext_iff, and_assoc] using h

theorem splits_genericParams :
    Splits eqGenericParams (fun σ params => params.map fun param => param.mapConstraint σ)
      (fun params => params.flatMap GenericParam.children)
      fun params => params.flatMap GenericParam.parts :=
  splits_genericParam.list.congr eqGenericParams_eq (fun _ _ => rfl) (fun _ => rfl) fun _ => rfl

def mapUnion (σ : LuaType → LuaType) : LuaUnionType → LuaUnionType
  | .Nullable type => .Nullable (σ type)
  | .Multi types => .Multi (types.map σ)

theorem splits_union : Splits LuaUnionType.eq mapUnion (fun union => (Union union).children)
    fun union => (Union union).parts := by
  have hidx : Indexed LuaUnionType.eq mapUnion LuaUnionType.ctorIdx :=
    ⟨fun σ a => by cases a <;> rfl, fun a b h => by cases a <;> cases b <;> first | rfl | cases h⟩
  intro union
  cases union with
  | Nullable =>
    exact hidx.splits .type .Nullable (LuaUnionType.Nullable.elim · · fun x => ⟨x, rfl⟩)
      (fun _ => rfl) (fun _ _ => rfl) (fun _ _ => rfl) (fun _ => rfl) (fun _ => rfl)
      fun _ _ => LuaUnionType.Nullable.inj
  | Multi =>
    exact hidx.splits splits_types .Multi (LuaUnionType.Multi.elim · · fun x => ⟨x, rfl⟩)
      (fun _ => rfl) (fun _ _ => rfl) (fun _ _ => rfl) (fun _ => rfl) (fun _ => rfl)
      fun _ _ => LuaUnionType.Multi.inj

def mapVariadic (σ : LuaType → LuaType) : VariadicType → VariadicType
  | .Multi types => .Multi (types.map σ)
  | .Base type => .Base (σ type)

theorem splits_variadic :
    Splits VariadicType.eq mapVariadic (fun variadic => (Variadic variadic).children)
      fun variadic => (Variadic variadic).parts := by
  have hidx : Indexed VariadicType.eq mapVariadic VariadicType.ctorIdx :=
    ⟨fun σ a => by cases a <;> rfl, fun a b h => by cases a <;> cases b <;> first | rfl | cases h⟩
  intro variadic
  cases variadic with
  | Multi =>
    exact hidx.splits splits_types .Multi (VariadicType.Multi.elim · · fun x => ⟨x, rfl⟩)
      (fun _ => rfl) (fun _ _ => rfl) (fun _ _ => rfl) (fun _ => rfl) (fun _ => rfl)
      fun _ _ => VariadicType.Multi.inj
  | Base =>
    exact hidx.splits .type .Base (VariadicType.Base.elim · · fun x => ⟨x, rfl⟩)
      (fun _ => rfl) (fun _ _ => rfl) (fun _ _ => rfl) (fun _ => rfl) (fun _ => rfl)
      fun _ _ => VariadicType.Base.inj

theorem indexed : Indexed LuaType.eq mapChildren LuaType.ctorIdx where
  map σ t := by
    cases t with
    | Union union => cases union <;> rfl
    | Variadic variadic => cases variadic <;> rfl
    | _ => rfl
  eq a b h := by
    unfold LuaType.eq at h
    split at h <;> first | rfl | cases h

/-- **A type is its shape and its children**, and is compared by them. -/
theorem splits : Splits LuaType.eq mapChildren children comparands := by
  intro t
  cases t with
  | FloatConst f =>
    refine ⟨fun _ => rfl, fun _ _ => rfl, fun u => ?_, fun u h _ => ?_, fun _ h => ?_, ?_⟩
    · cases u with
      | FloatConst g => exact (Bool.and_true (f.eq g)).symm
      | Union union => cases union <;> rfl
      | Variadic variadic => cases variadic <;> rfl
      | _ => rfl
    · have hu := congrArg LuaType.ctorIdx h
      rw [indexed.map, indexed.map] at hu
      cases u <;> first | exact h | cases hu
    · exact h _ (.head _)
    · rw [comparands, List.forall_mem_singleton]
  | Array =>
    exact indexed.splits (Splits.type.pair .const) (fun x => Array x.1 x.2)
      (Array.elim · · fun x y => ⟨(x, y), rfl⟩)
  | Tuple =>
    exact indexed.splits (splits_types.pair .const) (fun x => Tuple x.1 x.2)
      (Tuple.elim · · fun x y => ⟨(x, y), rfl⟩)
  | DocFunction =>
    exact indexed.splits
      ((((((Splits.const.pair .const).pair .const).pair splits_params).pair .const).pair
        .const).pair .type)
      (fun x => DocFunction x.1.1.1.1.1.1 x.1.1.1.1.1.2 x.1.1.1.1.2 x.1.1.1.2 x.1.1.2 x.1.2 x.2)
      (DocFunction.elim · · fun x₁ x₂ x₃ x₄ x₅ x₆ x₇ =>
        ⟨((((((x₁, x₂), x₃), x₄), x₅), x₆), x₇), rfl⟩)
  | Object =>
    exact indexed.splits (splits_fields.pair splits_pairs) (fun x => Object x.1 x.2)
      (Object.elim · · fun x y => ⟨(x, y), rfl⟩)
  | Union =>
    exact indexed.splits splits_union Union (Union.elim · · fun x => ⟨x, rfl⟩) (fun _ => rfl)
      (fun _ _ => rfl) fun σ union => by cases union <;> rfl
  | Intersection =>
    exact indexed.splits splits_types Intersection (Intersection.elim · · fun x => ⟨x, rfl⟩)
  | MergedTable =>
    exact indexed.splits splits_types MergedTable (MergedTable.elim · · fun x => ⟨x, rfl⟩)
  | Generic =>
    exact indexed.splits (Splits.const.pair splits_types) (fun x => Generic x.1 x.2)
      (Generic.elim · · fun x y => ⟨(x, y), rfl⟩)
  | TableGeneric =>
    exact indexed.splits splits_types TableGeneric (TableGeneric.elim · · fun x => ⟨x, rfl⟩)
  | TplRef =>
    exact indexed.splits ((Splits.const.pair .const).pair splits_opt)
      (fun x => TplRef x.1.1 x.1.2 x.2) (TplRef.elim · · fun x y z => ⟨((x, y), z), rfl⟩)
  | StrTplRef =>
    exact indexed.splits ((((Splits.const.pair .const).pair .const).pair .const).pair splits_opt)
      (fun x => StrTplRef x.1.1.1.1 x.1.1.1.2 x.1.1.2 x.1.2 x.2)
      (StrTplRef.elim · · fun x₁ x₂ x₃ x₄ x₅ => ⟨((((x₁, x₂), x₃), x₄), x₅), rfl⟩)
  | Variadic =>
    exact indexed.splits splits_variadic Variadic (Variadic.elim · · fun x => ⟨x, rfl⟩)
      (fun _ => rfl) (fun _ _ => rfl) fun σ variadic => by cases variadic <;> rfl
  | Instance =>
    exact indexed.splits ((Splits.type.pair .const).pair .const) (fun x => Instance x.1.1 x.1.2 x.2)
      (Instance.elim · · fun x y z => ⟨((x, y), z), rfl⟩)
  | Call =>
    exact indexed.splits (Splits.const.pair splits_types) (fun x => Call x.1 x.2)
      (Call.elim · · fun x y => ⟨(x, y), rfl⟩)
  | MultiLineUnion =>
    exact indexed.splits splits_arms MultiLineUnion (MultiLineUnion.elim · · fun x => ⟨x, rfl⟩)
  | TypeGuard => exact indexed.splits .type TypeGuard (TypeGuard.elim · · fun x => ⟨x, rfl⟩)
  | ConstTplRef =>
    exact indexed.splits ((Splits.const.pair .const).pair splits_opt)
      (fun x => ConstTplRef x.1.1 x.1.2 x.2)
      (ConstTplRef.elim · · fun x y z => ⟨((x, y), z), rfl⟩)
  | DocAttribute =>
    exact indexed.splits splits_params DocAttribute (DocAttribute.elim · · fun x => ⟨x, rfl⟩)
  | Conditional =>
    exact indexed.splits
      ((((Splits.type.pair .type).pair .type).pair splits_genericParams).pair .const)
      (fun x => Conditional x.1.1.1.1 x.1.1.1.2 x.1.1.2 x.1.2 x.2)
      (Conditional.elim · · fun x₁ x₂ x₃ x₄ x₅ => ⟨((((x₁, x₂), x₃), x₄), x₅), rfl⟩)
  | Mapped =>
    exact indexed.splits
      ((((Splits.const.pair splits_genericParam).pair .type).pair .const).pair .const)
      (fun x => Mapped x.1.1.1.1 x.1.1.1.2 x.1.1.2 x.1.2 x.2)
      (Mapped.elim · · fun x₁ x₂ x₃ x₄ x₅ => ⟨((((x₁, x₂), x₃), x₄), x₅), rfl⟩)
  | TableOf => exact indexed.splits .type TableOf (TableOf.elim · · fun x => ⟨x, rfl⟩)
  | BooleanConst =>
    exact indexed.splits .const BooleanConst (BooleanConst.elim · · fun x => ⟨x, rfl⟩)
  | StringConst => exact indexed.splits .const StringConst (StringConst.elim · · fun x => ⟨x, rfl⟩)
  | IntegerConst =>
    exact indexed.splits .const IntegerConst (IntegerConst.elim · · fun x => ⟨x, rfl⟩)
  | TableConst => exact indexed.splits .const TableConst (TableConst.elim · · fun x => ⟨x, rfl⟩)
  | Ref => exact indexed.splits .const Ref (Ref.elim · · fun x => ⟨x, rfl⟩)
  | Def => exact indexed.splits .const Def (Def.elim · · fun x => ⟨x, rfl⟩)
  | Signature => exact indexed.splits .const Signature (Signature.elim · · fun x => ⟨x, rfl⟩)
  | DocStringConst =>
    exact indexed.splits .const DocStringConst (DocStringConst.elim · · fun x => ⟨x, rfl⟩)
  | DocIntegerConst =>
    exact indexed.splits .const DocIntegerConst (DocIntegerConst.elim · · fun x => ⟨x, rfl⟩)
  | DocBooleanConst =>
    exact indexed.splits .const DocBooleanConst (DocBooleanConst.elim · · fun x => ⟨x, rfl⟩)
  | Namespace => exact indexed.splits .const Namespace (Namespace.elim · · fun x => ⟨x, rfl⟩)
  | Language => exact indexed.splits .const Language (Language.elim · · fun x => ⟨x, rfl⟩)
  | ModuleRef => exact indexed.splits .const ModuleRef (ModuleRef.elim · · fun x => ⟨x, rfl⟩)
  | ConditionalInfer =>
    exact indexed.splits .const ConditionalInfer (ConditionalInfer.elim · · fun x => ⟨x, rfl⟩)
  | _ =>
    refine indexed.splits (Splits.const (A := Unit)) (fun _ => _) fun u hu => ⟨(), ?_⟩
    cases u <;> first | rfl | cases hu

@[simp] theorem children_mapChildren (σ : LuaType → LuaType) (t : LuaType) :
    (t.mapChildren σ).children = t.children.map σ := (splits t).children σ

theorem mapChildren_mapChildren (σ τ : LuaType → LuaType) (t : LuaType) :
    (t.mapChildren σ).mapChildren τ = t.mapChildren (τ ∘ σ) := (splits t).map_map σ τ

theorem eq_mapChildren (σ τ : LuaType → LuaType) (t u : LuaType) :
    (t.mapChildren σ).eq (u.mapChildren τ) = ((t.mapChildren blank).eq (u.mapChildren blank)
      && listEq LuaType.eq (t.children.map σ) (u.children.map τ)) := by
  rw [(splits _).eq_eq, mapChildren_mapChildren, mapChildren_mapChildren, children_mapChildren,
    children_mapChildren]
  rfl

/-- What the children become is all that counts. -/
theorem mapChildren_congr (σ τ : LuaType → LuaType) (t : LuaType)
    (h : ∀ s ∈ t.children, σ s = τ s) : t.mapChildren σ = t.mapChildren τ := by
  apply (splits _).ext
  · rw [mapChildren_mapChildren, mapChildren_mapChildren]
    rfl
  · rw [children_mapChildren, children_mapChildren, List.map_congr_left h]

/-- Children that stay leave the type as it is. -/
theorem mapChildren_eq_self (σ : LuaType → LuaType) (t : LuaType)
    (h : ∀ s ∈ t.children, σ s = s) : t.mapChildren σ = t :=
  splits.map_eq_self σ t h

end LuaType

end GluaLs.Types
