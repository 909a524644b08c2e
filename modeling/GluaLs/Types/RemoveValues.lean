/-
  GluaLs.Types.RemoveValues — the values that removal leaves.

  Removal takes no value away that the removed type does not have, and it adds none of its
  own but ONE: where a rebuilt list of members comes out empty, `fromVec` makes it nil.  The
  types for which that happens are described by `Exhausts`, and `values_remove_iff` says that
  nothing else goes wrong.
-/
import Mathlib.Data.List.ReduceOption
import GluaLs.Lib.Depth
import GluaLs.Types.TypeIndex
import GluaLs.Types.UnionExact

namespace GluaLs.Types

open GluaLs.Lib

namespace LuaType

/-! ## §1. Kinds of types

  Removal answers `none` for "nothing is left".  A union is taken apart member by member and
  what is left is put together by `fromVec`, whose empty list is NIL; the caller turns `none`
  back into the source.  Aliases may refer to each other, so that the removal is given a
  depth; `none` on the outside says that it was not enough.
-/

def isBoolean : LuaType → Bool
  | .BooleanConst _ | .Boolean | .DocBooleanConst _ => true
  | _ => false

def isString : LuaType → Bool
  | .StringConst _ | .String | .DocStringConst _ | .Language _ => true
  | _ => false

def isInteger : LuaType → Bool
  | .IntegerConst _ | .Integer | .DocIntegerConst _ => true
  | _ => false

def isFunction : LuaType → Bool
  | .DocFunction .. | .Function | .Signature _ => true
  | _ => false

def isIo : LuaType → Bool
  | .Io => true
  | _ => false

def isThread : LuaType → Bool
  | .Thread => true
  | _ => false

def isUserdata : LuaType → Bool
  | .Userdata => true
  | _ => false

/-! ## §2. One type from another -/

/-- What the rule for the removed type comes to: an answer, the alias to go on with, or
    nothing, and the types are taken apart. -/
inductive RemoveRule where
  | answers (left : Option LuaType)
  | follows (aliasRef : LuaType)
  | passes

/-- Nothing is left if the condition holds. -/
def RemoveRule.goneIf (condition : Bool) : RemoveRule :=
  if condition then .answers none else .passes

/-- What is left of a type when an equal one is taken away: a number literal is widened. -/
def removeEqual : LuaType → Option LuaType
  | .DocIntegerConst _ => some .Integer
  | .IntegerConst _ => some .Integer
  | .FloatConst _ => some .Number
  | _ => none

/-- A table taken away from a class, an enum or an alias. -/
def removeTableName (db : TypeIndex) (realType source : LuaType) (id : LuaTypeDeclId) :
    RemoveRule :=
  match db.decls id with
  | none => .answers none
  | some decl =>
    if db.isEnum id then .answers (some source)
    else
      match (if decl.isAlias then getRealType db.decls 10 realType else none) with
      | some aliasRef => .follows aliasRef
      | none =>
        if db.isGmodNonTableClass id then .answers (some source)
        else if (db.superTypesOf id).any isUserdata then .answers (some source)
        else .answers none

/-- The rule for each type that can be taken away. -/
def removeRule (db : TypeIndex) (realType source removedType : LuaType) : RemoveRule :=
  match removedType with
  | .Nil => .goneIf realType.isNil
  | .Boolean => .goneIf realType.isBoolean
  | .Integer => .goneIf realType.isInteger
  | .Number => .goneIf realType.isNumber
  | .String => .goneIf realType.isString
  | .Io => .goneIf realType.isIo
  | .Function => .goneIf realType.isFunction
  | .Thread => .goneIf realType.isThread
  | .Userdata => .goneIf realType.isUserdata
  | .Table =>
    match realType with
    | .TableConst _ | .Table | .Userdata | .Global | .Array .. | .Tuple .. | .Generic ..
    | .MergedTable _ | .Object .. | .TableOf _ | .TableGeneric _ => .answers none
    | .Ref id | .Def id => removeTableName db realType source id
    | _ => .passes
  | .DocStringConst s | .StringConst s =>
    match realType with
    | .DocStringConst s2 | .StringConst s2 => .goneIf (s == s2)
    | _ => .passes
  | .DocIntegerConst i | .IntegerConst i =>
    match realType with
    | .DocIntegerConst i2 | .IntegerConst i2 =>
      if i == i2 then .answers (some .Integer) else .passes
    | _ => .passes
  | .DocBooleanConst b | .BooleanConst b =>
    match realType with
    | .DocBooleanConst b2 | .BooleanConst b2 => .goneIf (b == b2)
    | _ => .passes
  | _ => .passes

/-- The types are taken apart, where no rule has an answer: the members of a union, the arms
    of a removed union, the base of an instance. -/
def takeApart (h : Hashing) (remove : LuaType → LuaType → Option (Option LuaType))
    (realType source removedType : LuaType) : Option (Option LuaType) :=
  match realType, removedType with
  | .Union u, _ =>
    (u.intoVec.mapM fun t => remove t removedType).map
      fun left => some (fromVec h left.reduceOption)
  | _, .Union u =>
    (u.intoVec.mapM fun t => remove realType t).map
      fun left => some (fromVec h left.reduceOption)
  | .Instance base range kind, _ =>
    (remove base removedType).map fun
      | some newBase => some (.Instance newBase range kind)
      | none => some .Never
  | _, _ => some (some source)

def removeType (h : Hashing) (db : TypeIndex) :
    Nat → LuaType → LuaType → Option (Option LuaType)
  | 0, _, _ => none
  | depth + 1, source, removedType =>
    if source.eq removedType then some (removeEqual source)
    else
      let realType := (getRealType db.decls 10 source).getD source
      match removeRule db realType source removedType with
      | .answers left => some left
      | .follows aliasRef => removeType h db depth aliasRef removedType
      | .passes => takeApart h (removeType h db depth) realType source removedType

/-- What the caller makes of "nothing is left". -/
def putBack : LuaType → LuaType
  | .Nil => .Never
  | source => source

/-- `TypeOps::Remove`, applied. -/
def remove (h : Hashing) (db : TypeIndex) (depth : Nat) (source target : LuaType) :
    Option LuaType :=
  (removeType h db depth source target).map fun left => left.getD (putBack source)

/-! ## §3. A deeper removal has the same answer -/

theorem takeApart_mono (h : Hashing) {f g : LuaType → LuaType → Option (Option LuaType)}
    (hfg : ∀ t r x, f t r = some x → g t r = some x) (realType source removedType : LuaType)
    (x : Option LuaType) (hx : takeApart h f realType source removedType = some x) :
    takeApart h g realType source removedType = some x := by
  unfold takeApart at hx ⊢
  split at hx
  · exact Extends.map_mapM (fun t => hfg t _) _ _ x hx
  · exact Extends.map_mapM (fun t => hfg _ t) _ _ x hx
  · obtain ⟨left, hleft, hk⟩ := Option.map_eq_some_iff.1 hx
    rw [hfg _ _ left hleft]
    exact congrArg some hk
  · exact hx

theorem removeType_mono (h : Hashing) (db : TypeIndex) (depth : Nat) :
    ∀ t r x, removeType h db depth t r = some x → removeType h db (depth + 1) t r = some x := by
  induction depth with
  | zero =>
    intro t r x hx
    cases hx
  | succ depth ih =>
    intro t r x hx
    rw [removeType] at hx ⊢
    split at hx
    · next heq => rw [if_pos heq, hx]
    · next hne =>
        rw [if_neg hne]
        cases hrule : removeRule db ((getRealType db.decls 10 t).getD t) t r with
        | answers left =>
          simp only [hrule] at hx ⊢
          exact hx
        | follows aliasRef =>
          simp only [hrule] at hx ⊢
          exact ih aliasRef r x hx
        | passes =>
          simp only [hrule] at hx ⊢
          exact takeApart_mono h ih _ t r x hx

theorem removeType_of_le (h : Hashing) (db : TypeIndex) {depth depth' : Nat}
    (hle : depth ≤ depth') {t r : LuaType} {x : Option LuaType}
    (hx : removeType h db depth t r = some x) : removeType h db depth' t r = some x :=
  extends_of_le (f := fun depth (pair : LuaType × LuaType) => removeType h db depth pair.1 pair.2)
    (fun depth pair => removeType_mono h db depth pair.1 pair.2) hle (t, r) x hx

variable {h : Hashing} {classes : Classes} {isClass : LuaTypeDeclId → Prop}

/-! ## §4. The types and what removes them -/

/-- The types whose removal is read as one of values. -/
inductive Removable : LuaType → Prop
  | nil : Removable .Nil
  | boolean : Removable .Boolean
  | booleanConst (b) : Removable (.BooleanConst b)
  | docBooleanConst (b) : Removable (.DocBooleanConst b)
  | string : Removable .String
  | stringConst (s) : Removable (.StringConst s)
  | docStringConst (s) : Removable (.DocStringConst s)
  | function : Removable .Function
  | signature (id) : Removable (.Signature id)
  | table : Removable .Table
  | tableConst (site) : Removable (.TableConst site)
  | union (u) : u.intoVec ≠ [] → (∀ t ∈ u.intoVec, Removable t) → Removable (.Union u)

theorem Removable.denotable {t : LuaType} (ht : Removable t) : Denotable isClass t := by
  induction ht with
  | union u hne _ ih => exact .union u hne ih
  | _ => constructor

/-- The rule for the removed type covers the other. -/
def covered (t removedType : LuaType) : Bool :=
  match removedType with
  | .Nil => t.isNil
  | .Boolean => t.isBoolean
  | .String => t.isString
  | .Function => t.isFunction
  | .Table =>
    match t with
    | .TableConst _ | .Table => true
    | _ => false
  | .DocStringConst s | .StringConst s =>
    match t with
    | .DocStringConst s2 | .StringConst s2 => s == s2
    | _ => false
  | .DocBooleanConst b | .BooleanConst b =>
    match t with
    | .DocBooleanConst b2 | .BooleanConst b2 => b == b2
    | _ => false
  | _ => false

/-- Nothing is left of the type: the other is equal, or its rule covers the type. -/
def gone (t removedType : LuaType) : Bool := t.eq removedType || covered t removedType

/-- A rebuilt list of members is empty: a union is taken apart all of whose members are gone,
    or a type that is no union by a union each of whose arms leaves nothing of it, at any
    depth of the two. -/
inductive Exhausts : LuaType → LuaType → Prop
  | members (u r) : (LuaType.Union u).eq r = false → (∀ t ∈ u.intoVec, gone t r = true) →
      Exhausts (.Union u) r
  | member (u r t) : (LuaType.Union u).eq r = false → t ∈ u.intoVec → Exhausts t r →
      Exhausts (.Union u) r
  | arms (t u) : t.isUnion = false → (∀ r ∈ u.intoVec, gone t r = true) → Exhausts t (.Union u)
  | arm (t u r) : t.isUnion = false → r ∈ u.intoVec → Exhausts t r → Exhausts t (.Union u)

theorem removeRule_eq (db : TypeIndex) (t s r : LuaType) (ht : Removable t) (hr : Removable r) :
    removeRule db t s r = .goneIf (covered t r) := by
  cases hr <;> cases ht <;> rfl

/-- What is gone has no values that are not removed. -/
theorem values_subset_of_gone {t r : LuaType} (ht : Removable t) (hr : Removable r)
    (hgone : gone t r = true) : values classes t ⊆ values classes r := by
  obtain heq | hcovered := Bool.or_eq_true_iff.1 hgone
  · rw [values_eq_of_eq t r heq]
  · intro v hv
    have hv' : Denotes classes t v := hv
    cases hr <;> cases ht <;> cases hv' <;> first
      | (cases hcovered; done)
      | constructor
      | (cases beq_iff_eq.1 (show (_ == _) = true from hcovered); constructor)

theorem gone_union_left {u : LuaUnionType} {r : LuaType} (hr : Removable r) :
    gone (.Union u) r = (LuaType.Union u).eq r := by
  have hcovered : covered (.Union u) r = false := by cases hr <;> rfl
  rw [gone, hcovered, Bool.or_false]

theorem gone_union_right {t : LuaType} {u : LuaUnionType} (ht : t.isUnion = false) :
    gone t (.Union u) = false := by
  cases t <;> first | rfl | cases ht

theorem not_gone_of_exhausts {t r : LuaType} (hr : Removable r) (hex : Exhausts t r) :
    gone t r = false := by
  cases hex with
  | members u r hne _ => rw [gone_union_left hr, hne]
  | member u r t hne _ _ => rw [gone_union_left hr, hne]
  | arms t u ht _ => exact gone_union_right ht
  | arm t u r ht _ _ => exact gone_union_right ht

/-! ## §5. A list of what is left -/

/-- The values of what is put together again: nil if nothing is left. -/
theorem mem_values_fromVec_reduceOption (h : Hashing) (classes : Classes)
    (left : List (Option LuaType))
    (hden : ∀ s, some s ∈ left → Denotable isClass s) (v : LuaValue) :
    v ∈ values classes (fromVec h left.reduceOption)
      ↔ (∀ l ∈ left, l = none) ∧ v = .nil ∨ ∃ s, some s ∈ left ∧ v ∈ values classes s := by
  by_cases hnone : ∀ l ∈ left, l = none
  · have hempty : left.reduceOption = [] := by
      apply List.eq_nil_iff_forall_not_mem.2
      intro s hs
      cases hnone _ (List.reduceOption_mem_iff.1 hs)
    have hno : ¬ ∃ s, some s ∈ left ∧ v ∈ values classes s := by
      rintro ⟨s, hs, _⟩
      cases hnone _ hs
    rw [hempty, fromVec_nil.1]
    refine .trans (denotes_nil_iff v) ⟨fun hv => .inl ⟨hnone, hv⟩, ?_⟩
    rintro (⟨_, hv⟩ | hs)
    · exact hv
    · exact absurd hs hno
  · have hne : left.reduceOption ≠ [] := by
      intro hempty
      apply hnone
      intro l hl
      cases l with
      | none => rfl
      | some s =>
        have hs : s ∈ left.reduceOption := List.reduceOption_mem_iff.2 hl
        rw [hempty] at hs
        cases hs
    have hty : ∀ t ∈ left.reduceOption, Denotable isClass t :=
      fun t ht => hden t (List.reduceOption_mem_iff.1 ht)
    refine .trans ((means_fromVec left.reduceOption hty hne).denotes_iff v) ?_
    constructor
    · rintro ⟨s, hs, hv⟩
      exact .inr ⟨s, List.reduceOption_mem_iff.1 hs, hv⟩
    · rintro (⟨hnone', _⟩ | ⟨s, hs, hv⟩)
      · exact absurd hnone' hnone
      · exact ⟨s, List.reduceOption_mem_iff.2 hs, hv⟩

theorem denotable_fromVec (types : List LuaType) (hty : ∀ t ∈ types, Denotable isClass t) :
    Denotable isClass (fromVec h types) := by
  cases types with
  | nil => exact .nil
  | cons t types =>
    have hmeans : Means noClasses isClass [fromVec h (t :: types)]
        (valuesAny noClasses (t :: types)) := means_fromVec _ hty (List.cons_ne_nil t types)
    exact hmeans.denotable _ (.head _)

theorem Removable.mem {u : LuaUnionType} (hu : Removable (.Union u)) :
    ∀ t ∈ u.intoVec, Removable t := by
  cases hu with
  | union _ _ hall => exact hall

/-! ## §6. What removal leaves -/

/-- What is left of a type: its values that are not removed, none but its values, and nil
    where a list has come out empty. -/
structure Leaves (classes : Classes) (isClass : LuaTypeDeclId → Prop) (t r : LuaType)
    (left : Option LuaType) : Prop where
  none_iff : left = none ↔ gone t r = true
  denotable : ∀ s, left = some s → Denotable isClass s
  lower : ∀ s, left = some s → values classes t \ values classes r ⊆ values classes s
  upper : ∀ s, left = some s →
    values classes s ⊆ values classes t ∪ {v | v = .nil ∧ Exhausts t r}
  exhausted : ∀ s, left = some s → Exhausts t r → .nil ∈ values classes s

namespace Leaves

variable {t r : LuaType} {u : LuaUnionType}

/-- An equal type, or one that the rule covers. -/
theorem ofGone (hgone : gone t r = true) : Leaves classes isClass t r none where
  none_iff := ⟨fun _ => hgone, fun _ => rfl⟩
  denotable s hs := by cases hs
  lower s hs := by cases hs
  upper s hs := by cases hs
  exhausted s hs := by cases hs

/-- A type that is kept as it is. -/
theorem ofKept (ht : Removable t) (hgone : gone t r = false) (hex : ¬ Exhausts t r) :
    Leaves classes isClass t r (some t) where
  none_iff := by simp [hgone]
  denotable s hs := by
    cases hs
    exact ht.denotable
  lower s hs := by
    cases hs
    exact Set.sdiff_subset
  upper s hs := by
    cases hs
    exact Set.subset_union_left
  exhausted _ _ h := absurd h hex

variable {left : List (Option LuaType)}

/-- What is left of parts of a type and parts of what is removed, put together again. -/
theorem gather {parts : List LuaType} {T R : LuaType → LuaType} (hgone : gone t r = false)
    (hremovable : ∀ x ∈ parts, Removable (T x) ∧ Removable (R x))
    (hparts : ∀ x ∈ parts, ∃ l ∈ left, Leaves classes isClass (T x) (R x) l)
    (hleft : ∀ l ∈ left, ∃ x ∈ parts, Leaves classes isClass (T x) (R x) l)
    (hin : ∀ x ∈ parts, values classes (T x) ⊆ values classes t)
    (hpart : ∀ v ∈ values classes t, v ∉ values classes r →
      ∃ x ∈ parts, v ∈ values classes (T x) ∧ v ∉ values classes (R x)) (hex : Exhausts t r ↔
      (∀ x ∈ parts, gone (T x) (R x) = true) ∨ ∃ x ∈ parts, Exhausts (T x) (R x)) :
    Leaves classes isClass t r (some (fromVec h left.reduceOption)) := by
  have hden : ∀ s, some s ∈ left → Denotable isClass s := by
    intro s hs
    obtain ⟨x, _, hl⟩ := hleft _ hs
    exact hl.denotable s rfl
  have hvalues := mem_values_fromVec_reduceOption h classes left hden
  refine ⟨by simp [hgone], ?_, ?_, ?_, ?_⟩
  · rintro s ⟨⟩
    exact denotable_fromVec _ fun t ht => hden t (List.reduceOption_mem_iff.1 ht)
  · -- a value of a part that is not gone is in what is left of the part
    rintro s ⟨⟩ v ⟨hv, hnot⟩
    obtain ⟨x, hx, hv, hnot⟩ := hpart v hv hnot
    obtain ⟨l, hl, hlx⟩ := hparts x hx
    obtain ⟨hT, hR⟩ := hremovable x hx
    cases l with
    | none => exact absurd (values_subset_of_gone hT hR (hlx.none_iff.1 rfl) hv) hnot
    | some s => exact (hvalues v).2 (.inr ⟨s, hl, hlx.lower s rfl ⟨hv, hnot⟩⟩)
  · rintro s ⟨⟩ v hv
    obtain ⟨hnone, hnil⟩ | ⟨s, hs, hv⟩ := (hvalues v).1 hv
    · refine .inr ⟨hnil, hex.2 (.inl ?_)⟩
      intro x hx
      obtain ⟨l, hl, hlx⟩ := hparts x hx
      exact hlx.none_iff.1 (hnone l hl)
    · obtain ⟨x, hx, hlx⟩ := hleft _ hs
      obtain hv | ⟨hnil, hexx⟩ := hlx.upper s rfl hv
      · exact .inl (hin x hx hv)
      · exact .inr ⟨hnil, hex.2 (.inr ⟨x, hx, hexx⟩)⟩
  · rintro s ⟨⟩ hexhausts
    obtain hall | ⟨x, hx, hexx⟩ := hex.1 hexhausts
    · refine (hvalues _).2 (.inl ⟨?_, rfl⟩)
      intro l hl
      obtain ⟨x, hx, hlx⟩ := hleft l hl
      exact hlx.none_iff.2 (hall x hx)
    · obtain ⟨l, hl, hlx⟩ := hparts x hx
      cases l with
      | none =>
        have hgone := hlx.none_iff.1 rfl
        rw [not_gone_of_exhausts (hremovable x hx).2 hexx] at hgone
        cases hgone
      | some s => exact (hvalues _).2 (.inr ⟨s, hl, hlx.exhausted s rfl hexx⟩)

/-- A union, member by member. -/
theorem ofMembers (hu : Removable (.Union u)) (hr : Removable r)
    (hne : (LuaType.Union u).eq r = false)
    (hmembers : ∀ t ∈ u.intoVec, ∃ l ∈ left, Leaves classes isClass t r l)
    (hleft : ∀ l ∈ left, ∃ t ∈ u.intoVec, Leaves classes isClass t r l) :
    Leaves classes isClass (.Union u) r (some (fromVec h left.reduceOption)) := by
  refine gather (T := fun t => t) (R := fun _ => r) ((gone_union_left hr).trans hne)
    (fun t ht => ⟨hu.mem t ht, hr⟩) hmembers hleft (fun t ht v hv => .union u t v ht hv) ?_
    ⟨?_, ?_⟩
  · intro v hv hnot
    obtain ⟨t, ht, hv⟩ := (denotes_union u v).1 hv
    exact ⟨t, ht, hv, hnot⟩
  · intro hex
    cases hex with
    | members _ _ _ hall => exact .inl hall
    | member _ _ t _ ht hex => exact .inr ⟨t, ht, hex⟩
    | arms _ _ hunion => cases hunion
    | arm _ _ _ hunion => cases hunion
  · rintro (hall | ⟨t, ht, hex⟩)
    · exact .members u r hne hall
    · exact .member u r t hne ht hex

/-- A type that is no union, arm by arm of the removed union. -/
theorem ofArms (ht : Removable t) (hu : Removable (.Union u)) (hunion : t.isUnion = false)
    (harms : ∀ r ∈ u.intoVec, ∃ l ∈ left, Leaves classes isClass t r l)
    (hleft : ∀ l ∈ left, ∃ r ∈ u.intoVec, Leaves classes isClass t r l) :
    Leaves classes isClass t (.Union u) (some (fromVec h left.reduceOption)) := by
  refine gather (T := fun _ => t) (R := fun r => r) (gone_union_right hunion)
    (fun r hr => ⟨ht, hu.mem r hr⟩) harms hleft (fun _ _ => subset_rfl) ?_ ⟨?_, ?_⟩
  · -- any arm leaves the values that no arm has
    intro v hv hnot
    have hne : u.intoVec ≠ [] := by
      cases hu with
      | union _ hne _ => exact hne
    obtain ⟨r, hr⟩ := List.exists_mem_of_ne_nil _ hne
    exact ⟨r, hr, hv, fun hvr => hnot (.union u r v hr hvr)⟩
  · intro hex
    cases hex with
    | members => cases hunion
    | member => cases hunion
    | arms _ _ _ hall => exact .inl hall
    | arm _ _ r _ hr hex => exact .inr ⟨r, hr, hex⟩
  · rintro (hall | ⟨r, hr, hex⟩)
    · exact .arms t u hunion hall
    · exact .arm t u r hunion hr hex

end Leaves

/-! ## §7. All of removal -/

theorem sizeOf_lt_of_mem_intoVec (u : LuaUnionType) (t : LuaType) (ht : t ∈ u.intoVec) :
    sizeOf t < sizeOf (LuaType.Union u) := by
  cases u with
  | Nullable s =>
    obtain rfl | ht := List.mem_cons.1 ht
    · simp only [LuaType.Union.sizeOf_spec, LuaUnionType.Nullable.sizeOf_spec]
      omega
    · cases List.mem_singleton.1 ht
      simp only [LuaType.Union.sizeOf_spec, LuaUnionType.Nullable.sizeOf_spec,
        LuaType.Nil.sizeOf_spec]
      omega
  | Multi types =>
    have hlt := List.sizeOf_lt_of_mem ht
    simp only [LuaType.Union.sizeOf_spec, LuaUnionType.Multi.sizeOf_spec]
    have : sizeOf (LuaUnionType.Multi types).intoVec = sizeOf types := rfl
    omega

theorem Removable.real {t : LuaType} (ht : Removable t) (db : DbIndex) :
    (getRealType db 10 t).getD t = t :=
  getRealType_getD db t (by cases ht <;> rfl)

theorem Removable.removeEqual {t : LuaType} (ht : Removable t) : removeEqual t = none := by
  cases ht <;> rfl

section
variable (db : TypeIndex) (depth : Nat) {t r : LuaType} {u : LuaUnionType}

theorem removeType_gone (ht : Removable t) (hr : Removable r) (hgone : gone t r = true) :
    removeType h db (depth + 1) t r = some none := by
  rw [removeType]
  split
  · rw [ht.removeEqual]
  · next hne =>
      have hcovered : covered t r = true := by
        obtain heq | hcovered := Bool.or_eq_true_iff.1 hgone
        · exact absurd heq hne
        · exact hcovered
      simp only [ht.real, removeRule_eq db t t r ht hr, hcovered, RemoveRule.goneIf, if_true]

/-- The types are taken apart. -/
theorem removeType_passes (ht : Removable t) (hr : Removable r) (hgone : gone t r = false) :
    t.eq r = false ∧ removeRule db t t r = .passes := by
  obtain ⟨hne, hcovered⟩ := Bool.or_eq_false_iff.1 hgone
  refine ⟨hne, ?_⟩
  rw [removeRule_eq db t t r ht hr, hcovered]
  rfl

theorem removeType_members (hu : Removable (.Union u)) (hr : Removable r)
    (hgone : gone (.Union u) r = false) :
    removeType h db (depth + 1) (.Union u) r
      = (u.intoVec.mapM fun t => removeType h db depth t r).map
          fun left => some (fromVec h left.reduceOption) := by
  obtain ⟨hne, hpasses⟩ := removeType_passes db hu hr hgone
  rw [removeType, if_neg (by simp [hne])]
  simp only [hu.real, hpasses]
  rfl

theorem removeType_arms (ht : Removable t) (hu : Removable (.Union u))
    (hunion : t.isUnion = false) :
    removeType h db (depth + 1) t (.Union u)
      = (u.intoVec.mapM fun r => removeType h db depth t r).map
          fun left => some (fromVec h left.reduceOption) := by
  obtain ⟨hne, hpasses⟩ := removeType_passes db ht hu (gone_union_right hunion)
  rw [removeType, if_neg (by simp [hne])]
  simp only [ht.real, hpasses]
  cases t <;> first | rfl | cases hunion

theorem removeType_kept (ht : Removable t) (hr : Removable r) (hunion : t.isUnion = false)
    (hunion' : r.isUnion = false) (hgone : gone t r = false) :
    removeType h db (depth + 1) t r = some (some t) := by
  obtain ⟨hne, hpasses⟩ := removeType_passes db ht hr hgone
  rw [removeType, if_neg (by simp [hne])]
  simp only [ht.real, hpasses]
  cases ht <;> first | (cases hunion; done) | (cases hr <;> first | rfl | cases hunion')

end

theorem not_exhausts {t r : LuaType} (ht : t.isUnion = false) (hr : r.isUnion = false) :
    ¬ Exhausts t r := by
  intro hex
  cases hex with
  | members => cases ht
  | member => cases ht
  | arms => cases hr
  | arm => cases hr

/-- **Removal leaves what it should, but for nil**, and it ends. -/
theorem removeType_leaves (db : TypeIndex) (depth : Nat) : ∀ t r : LuaType,
    Removable t → Removable r → sizeOf t + sizeOf r < depth →
      ∃ left, removeType h db depth t r = some left ∧ Leaves classes isClass t r left := by
  induction depth with
  | zero =>
    intro t r _ _ hdepth
    exact absurd hdepth (Nat.not_lt_zero _)
  | succ depth ih =>
    intro t r ht hr hdepth
    cases hgone : gone t r with
    | true => exact ⟨none, removeType_gone db depth ht hr hgone, .ofGone hgone⟩
    | false =>
      cases hunion : t.isUnion with
      | true =>
        obtain ⟨u, rfl⟩ : ∃ u, t = .Union u := by
          cases t with
          | Union u => exact ⟨u, rfl⟩
          | _ => cases hunion
        obtain ⟨left, hleft, hmembers, hall⟩ := exists_mapM
          (P := fun t l => Leaves classes isClass t r l) u.intoVec fun t ht' =>
            ih t r (ht.mem t ht') hr (by
              have := sizeOf_lt_of_mem_intoVec u t ht'
              omega)
        refine ⟨some (fromVec h left.reduceOption), ?_,
          .ofMembers ht hr (gone_union_left hr ▸ hgone) hmembers hall⟩
        rw [removeType_members db depth ht hr hgone, hleft]
        rfl
      | false =>
        cases hunion' : r.isUnion with
        | true =>
          obtain ⟨u, rfl⟩ : ∃ u, r = .Union u := by
            cases r with
            | Union u => exact ⟨u, rfl⟩
            | _ => cases hunion'
          obtain ⟨left, hleft, harms, hall⟩ := exists_mapM
            (P := fun r l => Leaves classes isClass t r l) u.intoVec fun r hr' =>
              ih t r ht (hr.mem r hr') (by
                have := sizeOf_lt_of_mem_intoVec u r hr'
                omega)
          refine ⟨some (fromVec h left.reduceOption), ?_, .ofArms ht hr hunion harms hall⟩
          rw [removeType_arms db depth ht hr hunion, hleft]
          rfl
        | false =>
          exact ⟨some t, removeType_kept db depth ht hr hunion hunion' hgone,
            .ofKept ht hgone (not_exhausts hunion hunion')⟩

/-- The source that is put back when nothing is left. -/
theorem values_putBack {t r : LuaType} (ht : Removable t) (hr : Removable r)
    (hgone : gone t r = true) :
    values classes t \ values classes r ⊆ values classes (putBack t) ∧
      values classes (putBack t) ⊆ values classes t := by
  have hempty : values classes t \ values classes r = ∅ :=
    Set.sdiff_eq_empty.2 (values_subset_of_gone ht hr hgone)
  rw [hempty]
  refine ⟨Set.empty_subset _, ?_⟩
  unfold putBack
  split
  · rw [values_never]
    exact Set.empty_subset _
  · exact Set.Subset.rfl

/-- **Removal keeps between what it must and what it may** exactly when the type has nil or
    no rebuilt list of members is empty. -/
theorem values_remove_iff (h : Hashing) (db : TypeIndex) (classes : Classes) (t r : LuaType)
    (ht : Removable t) (hr : Removable r) :
    ∃ result, (∀ depth, sizeOf t + sizeOf r < depth → remove h db depth t r = some result) ∧
      (values classes t \ values classes r ⊆ values classes result ∧
          values classes result ⊆ values classes t ↔ .nil ∈ values classes t ∨ ¬ Exhausts t r) := by
  obtain ⟨left, hleft, hleaves⟩ :
    ∃ left, removeType h db (sizeOf t + sizeOf r + 1) t r = some left ∧
      Leaves classes (fun _ => True) t r left :=
    removeType_leaves db (sizeOf t + sizeOf r + 1) t r ht hr (Nat.lt_succ_self _)
  have hall : ∀ depth, sizeOf t + sizeOf r < depth → removeType h db depth t r = some left := by
    intro depth hdepth
    exact removeType_of_le h db hdepth hleft
  cases left with
  | none =>
    have hgone := hleaves.none_iff.1 rfl
    have hex : ¬ Exhausts t r := by
      intro hex
      rw [not_gone_of_exhausts hr hex] at hgone
      cases hgone
    refine ⟨putBack t, ?_, ⟨fun _ => .inr hex, fun _ => values_putBack ht hr hgone⟩⟩
    intro depth hdepth
    rw [remove, hall depth hdepth]
    rfl
  | some s =>
    refine ⟨s, ?_, ?_, ?_⟩
    · intro depth hdepth
      rw [remove, hall depth hdepth]
      rfl
    · rintro ⟨_, hupper⟩
      by_cases hex : Exhausts t r
      · exact .inl (hupper (hleaves.exhausted s rfl hex))
      · exact .inr hex
    · intro hcond
      refine ⟨hleaves.lower s rfl, ?_⟩
      intro v hv
      obtain hv | ⟨hnil, hex⟩ := hleaves.upper s rfl hv
      · exact hv
      · obtain hmem | hno := hcond
        · exact hnil ▸ hmem
        · exact absurd hex hno

/-- An index without names. -/
def noTypes : TypeIndex where
  decls := noDecls
  isEnum := fun _ => false
  supers := []
  gmodEnabled := false

/-- Nil taken away from `boolean?` leaves `boolean`, and nothing is lost or added. -/
theorem values_remove_iff_optional :
    remove plainHashing noTypes 20 (.Union (.Nullable .Boolean)) .Nil = some .Boolean ∧
      values noClasses (.Union (.Nullable .Boolean)) \ values noClasses .Nil
        ⊆ values noClasses .Boolean ∧
      values noClasses .Boolean ⊆ values noClasses (.Union (.Nullable .Boolean)) := by
  have hmembers : ∀ t ∈ (LuaUnionType.Nullable .Boolean).intoVec, Removable t := by
    simp only [LuaUnionType.intoVec, List.forall_mem_cons]
    exact ⟨.boolean, .nil, fun _ h => absurd h List.not_mem_nil⟩
  obtain ⟨result, hresult, hiff⟩ := values_remove_iff plainHashing noTypes noClasses
    (.Union (.Nullable .Boolean)) .Nil (.union _ (List.cons_ne_nil _ _) hmembers) .nil
  have hrun : remove plainHashing noTypes 20 (.Union (.Nullable .Boolean)) .Nil = some .Boolean :=
    rfl
  obtain rfl := Option.some.inj ((hresult 20 (by simp)).symm.trans hrun)
  refine ⟨hrun, hiff.2 (.inl ?_)⟩
  exact (denotes_union _ _).2 ⟨.Nil, by simp [LuaUnionType.intoVec], .nil⟩

/-- **Strings taken away from two string literals leave nil.** -/
theorem values_remove_nil :
    remove plainHashing noTypes 10
        (.Union (.Multi [.DocStringConst "a", .DocStringConst "b"])) .String = some .Nil ∧
      .nil ∈ values noClasses .Nil ∧
      .nil ∉ values noClasses (.Union (.Multi [.DocStringConst "a", .DocStringConst "b"])) := by
  refine ⟨rfl, .nil, ?_⟩
  intro hnil
  obtain ⟨t, ht, hv⟩ := (denotes_union _ _).1 hnil
  simp only [LuaUnionType.intoVec, List.mem_cons, List.not_mem_nil, or_false] at ht
  obtain rfl | rfl := ht <;> cases hv

end LuaType

end GluaLs.Types
