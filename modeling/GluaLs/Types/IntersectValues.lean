/-
  GluaLs.Types.IntersectValues — the values that an intersection keeps.

  A value of two types lies in a member of each, and the intersection is that of the pairs
  of members.  It adds no value of its own.  It loses the common values of the pairs that no
  rule is for (`Missed`): the two spellings of a literal, a doc literal beside its primitive,
  and classes beside what is no class or no relative.
-/
import Mathlib.Data.List.Defs
import Mathlib.Data.List.ProdSigma
import GluaLs.Types.RemoveValues

namespace GluaLs.Types

open GluaLs.Lib

namespace LuaType

/-! ## §1. The rules

  The answer is decided by an ordered list of rules for pairs of types.  A pair no rule is
  for is taken apart where one of the two is a union, and has `never` in common otherwise.
  As for removal, a source that is an alias may refer to itself, so that the intersection is
  given a depth.
-/

/-- The rules before unions are taken apart. -/
def intersectRule (h : Hashing) (db : TypeIndex) (realType source target : LuaType) :
    Option LuaType :=
  match realType, target with
  | .Any, _ => some target
  | _, .Any => some realType
  | .Never, _ => some .Never
  | _, .Never => some .Never
  | .Unknown, _ => some target
  | _, .Unknown => some source
  -- no rule before this one in the source takes a multi-line union
  | .MultiLineUnion unions, right =>
    if multiLineUnionContains unions right then some source
    else some (fromVec h [source, target])
  | .Integer, .IntegerConst i | .Integer, .DocIntegerConst i => some (.IntegerConst i)
  | .IntegerConst i, .Integer | .DocIntegerConst i, .Integer => some (.IntegerConst i)
  | .Number, right => if right.isNumber then some .Number else none
  | left, .Number => if left.isNumber then some .Number else none
  | .String, .StringConst s | .String, .DocStringConst s => some (.StringConst s)
  | .StringConst s, .String | .DocStringConst s, .String => some (.StringConst s)
  | .Boolean, .BooleanConst b => some (.BooleanConst b)
  | .BooleanConst b, .Boolean => some (.BooleanConst b)
  | .BooleanConst left, .BooleanConst right =>
    if left == right then some (.BooleanConst left) else some .Never
  | .Table, .TableConst t => some (.TableConst t)
  | .TableConst t, .Table => some (.TableConst t)
  | .Function, .DocFunction .. | .Function, .Signature _ => some target
  | .DocFunction .., .Function | .Signature _, .Function => some realType
  | .Ref id1, .Ref id2 =>
    if db.isSubTypeOf id1 id2 then some source
    else if db.isSubTypeOf id2 id1 then some target
    else some .Never
  | _, _ => none

/-- The rules after the unions: equal types, and everything else. -/
def intersectEqual (realType source target : LuaType) : LuaType :=
  if realType.eq target then source else .Never

/-- The union of what the members have in common, `never` left out. -/
def joinIntersections (h : Hashing) (results : List LuaType) : LuaType :=
  match results.filter fun t => !t.isNever with
  | [] => .Never
  | resultTypes => fromVec h resultTypes

/-- The pairs of members, where one of the types is a union, and the last two rules. -/
def intersectApart (h : Hashing) (intersect : LuaType → LuaType → Option LuaType)
    (realType source target : LuaType) : Option LuaType :=
  match realType, target with
  | .Union left, .Union right =>
    ((left.intoVec.product right.intoVec).mapM fun pair => intersect pair.1 pair.2).map
      (joinIntersections h)
  | .Union left, right =>
    (left.intoVec.mapM fun leftType => intersect leftType right).map (joinIntersections h)
  | left, .Union right =>
    (right.intoVec.mapM fun rightType => intersect left rightType).map (joinIntersections h)
  | left, right => some (intersectEqual left source right)

def intersectType (h : Hashing) (db : TypeIndex) : Nat → LuaType → LuaType → Option LuaType
  | 0, _, _ => none
  | depth + 1, source, target =>
    let realType := (getRealType db.decls 10 source).getD source
    match intersectRule h db realType source target with
    | some result => some result
    | none => intersectApart h (intersectType h db depth) realType source target

theorem intersectApart_mono (h : Hashing) {f g : LuaType → LuaType → Option LuaType}
    (hfg : ∀ t r x, f t r = some x → g t r = some x) (realType source target x : LuaType)
    (hx : intersectApart h f realType source target = some x) :
    intersectApart h g realType source target = some x := by
  unfold intersectApart at hx ⊢
  split at hx
  · exact Extends.map_mapM (fun (pair : LuaType × LuaType) => hfg pair.1 pair.2) _ _ x hx
  · exact Extends.map_mapM (fun leftType => hfg leftType _) _ _ x hx
  · exact Extends.map_mapM (fun rightType => hfg _ rightType) _ _ x hx
  · exact hx

/-- A deeper intersection has the same answer. -/
theorem intersectType_mono (h : Hashing) (db : TypeIndex) (depth : Nat) :
    ∀ t r x, intersectType h db depth t r = some x →
      intersectType h db (depth + 1) t r = some x := by
  induction depth with
  | zero =>
    intro t r x hx
    cases hx
  | succ depth ih =>
    intro t r x hx
    rw [intersectType] at hx ⊢
    cases hrule : intersectRule h db ((getRealType db.decls 10 t).getD t) t r with
    | some result =>
      simp only [hrule] at hx ⊢
      exact hx
    | none =>
      simp only [hrule] at hx ⊢
      exact intersectApart_mono h ih _ t r x hx

theorem intersectType_of_le (h : Hashing) (db : TypeIndex) {depth depth' : Nat}
    (hle : depth ≤ depth') {t r x : LuaType} (hx : intersectType h db depth t r = some x) :
    intersectType h db depth' t r = some x :=
  extends_of_le
    (f := fun depth (pair : LuaType × LuaType) => intersectType h db depth pair.1 pair.2)
    (fun depth pair => intersectType_mono h db depth pair.1 pair.2) hle (t, r) x hx

variable {h : Hashing} {db : TypeIndex} {classes : Classes}

/-! ## §2. Two types that are no unions -/

/-- A member of the type, unions flattened. -/
inductive Leaf : LuaType → LuaType → Prop
  | self (t) : t.isUnion = false → Leaf t t
  | member (u t a) : t ∈ u.intoVec → Leaf t a → Leaf (.Union u) a

/-- What two types that are no unions have in common. -/
def intersectLeaves (h : Hashing) (db : TypeIndex) (a b : LuaType) : LuaType :=
  (intersectRule h db a a b).getD (intersectEqual a a b)

/-- Pairs with values in common and no rule, the first being a source. -/
inductive MissedPair (db : TypeIndex) : LuaType → LuaType → Prop
  | boolean (b) : MissedPair db .Boolean (.DocBooleanConst b)
  | booleanConst (b) : MissedPair db (.BooleanConst b) (.DocBooleanConst b)
  | integerConst (n) : MissedPair db (.IntegerConst n) (.DocIntegerConst n)
  | number (n) : MissedPair db .Number (.DocIntegerConst n)
  | stringConst (s) : MissedPair db (.StringConst s) (.DocStringConst s)
  | nan (f) : f.isNaN = true → MissedPair db (.FloatConst f) (.FloatConst f)
  | classes (id1 id2) : db.isSubTypeOf id1 id2 = false → db.isSubTypeOf id2 id1 = false →
      MissedPair db (.Ref id1) (.Ref id2)
  | notClass (id t) : t ≠ .Any → t ≠ .Unknown → (∀ id', t ≠ .Ref id') → MissedPair db (.Ref id) t

/-- No rule is for the pair, either way round. -/
def Missed (db : TypeIndex) (a b : LuaType) : Prop := MissedPair db a b ∨ MissedPair db b a

/-- The value belongs to an answer that is wider than what the pair has in common: `number`
    for a number beside one of its kinds, and the class that is the sub type. -/
inductive Widened (db : TypeIndex) (classes : Classes) : LuaType → LuaType → LuaValue → Prop
  | numberLeft (t v) : t.isNumber = true → Denotes classes .Number v →
      Widened db classes .Number t v
  | numberRight (t v) : t.isNumber = true → Denotes classes .Number v →
      Widened db classes t .Number v
  | left (id1 id2 v) : db.isSubTypeOf id1 id2 = true → classes id1 v →
      Widened db classes (.Ref id1) (.Ref id2) v
  | right (id1 id2 v) : db.isSubTypeOf id1 id2 = false → db.isSubTypeOf id2 id1 = true →
      classes id2 v → Widened db classes (.Ref id1) (.Ref id2) v

/-- The pair keeps the value. -/
def Keeps (db : TypeIndex) (classes : Classes) (a b : LuaType) (v : LuaValue) : Prop :=
  ¬ Missed db a b ∧ Denotes classes a v ∧ Denotes classes b v ∨ Widened db classes a b v

theorem missedPair_never {a b : LuaType} {isClass : LuaTypeDeclId → Prop}
    (hmissed : MissedPair db a b) (hb : Denotable isClass b) (hunion : b.isUnion = false) :
    intersectLeaves h db a b = .Never ∧ intersectLeaves h db b a = .Never := by
  cases hmissed with
  | nan f hnan =>
    have hne : LuaType.eq (.FloatConst f) (.FloatConst f) = false := by
      show f.eq f = false
      simp [F64.eq, hnan]
    simp [intersectLeaves, intersectRule, intersectEqual, hne]
  | classes id1 id2 hsub hsub' => simp [intersectLeaves, intersectRule, hsub, hsub']
  | notClass id t hany hunknown href =>
    cases hb with
    | any => exact absurd rfl hany
    | unknown => exact absurd rfl hunknown
    | ref id' => exact absurd rfl (href id')
    | union => cases hunion
    | _ => exact ⟨rfl, rfl⟩
  | _ => exact ⟨rfl, rfl⟩

theorem common_of_equal {a b : LuaType} {v : LuaValue}
    (hv : Denotes classes (intersectEqual a a b) v) :
    Denotes classes a v ∧ Denotes classes b v := by
  unfold intersectEqual at hv
  split at hv
  · next heq => exact ⟨hv, (denotes_iff_of_eq a b heq v).1 hv⟩
  · cases hv

/-- What the answer for a pair has is common to the two, or the answer is wider. -/
theorem common_or_widened {a b : LuaType} {v : LuaValue} {isClass : LuaTypeDeclId → Prop}
    (ha : Denotable isClass a) (hv : Denotes classes (intersectLeaves h db a b) v) :
    Denotes classes a v ∧ Denotes classes b v ∨ Widened db classes a b v := by
  unfold intersectLeaves intersectRule at hv
  split at hv
  · exact .inl ⟨.any v, hv⟩
  · exact .inl ⟨hv, .any v⟩
  · cases hv
  · cases hv
  · exact .inl ⟨.unknown v, hv⟩
  · exact .inl ⟨hv, .unknown v⟩
  · cases ha
  -- a literal beside its primitive, and a signature beside `function`
  any_goals (cases hv; exact .inl ⟨by constructor, by constructor⟩)
  any_goals (cases hv)
  · split at hv
    · next hnumber => exact .inr (.numberLeft b v hnumber hv)
    · exact .inl (common_of_equal hv)
  · split at hv
    · next hnumber => exact .inr (.numberRight a v hnumber hv)
    · exact .inl (common_of_equal hv)
  · split at hv
    · next heq =>
        cases beq_iff_eq.1 heq
        exact .inl ⟨hv, hv⟩
    · cases hv
  · split at hv
    · next hsub =>
        cases hv with
        | ref _ _ hclass => exact .inr (.left _ _ v hsub hclass)
    · next hsub =>
        split at hv
        · next hsub' =>
            cases hv with
            | ref _ _ hclass => exact .inr (.right _ _ v (Bool.not_eq_true _ ▸ hsub) hsub' hclass)
        · cases hv
  · exact .inl (common_of_equal hv)

/-- A wider answer has the value. -/
theorem intersectLeaves_of_widened {a b : LuaType} {v : LuaValue}
    (hwide : Widened db classes a b v) :
    Denotes classes (intersectLeaves h db a b) v := by
  cases hwide with
  | numberLeft _ _ hnumber hv => cases b <;> first | exact hv | cases hnumber
  | numberRight _ _ hnumber hv => cases a <;> first | exact hv | cases hnumber
  | left id1 id2 v hsub hclass =>
    simp only [intersectLeaves, intersectRule, hsub, if_true, Option.getD_some]
    exact .ref id1 v hclass
  | right id1 id2 v hsub hsub' hclass =>
    simp only [intersectLeaves, intersectRule, hsub, hsub', if_true, Option.getD_some,
      Bool.false_eq_true, if_false]
    exact .ref id2 v hclass

theorem not_isNaN_of_isZero (f : F64) (hzero : f.isZero = true) : f.isNaN = false := by
  have hbits : f.bits &&& (F64.exponentMask ||| F64.fractionMask) = 0 := beq_iff_eq.1 hzero
  have hexp : f.bits &&& F64.exponentMask = 0 := by
    have hmask : F64.exponentMask =
        (F64.exponentMask ||| F64.fractionMask) &&& F64.exponentMask := by
      decide
    rw [hmask, ← BitVec.and_assoc, hbits]
    exact BitVec.zero_and
  have hne : ((0 : BitVec 64) == F64.exponentMask) = false := by decide
  rw [F64.isNaN, hexp, hne, Bool.false_and]

/-- Floats of one value are equal, or one NaN. -/
theorem eq_or_isNaN_of_value_eq (f g : F64) (hvalue : f.value = g.value) :
    f.eq g = true ∨ f = g ∧ f.isNaN = true := by
  have hzero : (⟨0⟩ : F64).isZero = true := by decide
  unfold F64.value at hvalue
  split at hvalue
  · next hf =>
      have hg : g.isZero = true := by
        split at hvalue
        · assumption
        · exact hvalue ▸ hzero
      exact .inl (by simp [F64.eq, not_isNaN_of_isZero f hf, not_isNaN_of_isZero g hg, hf, hg])
  · next hf =>
      split at hvalue
      · exact absurd (hvalue ▸ hzero) hf
      · cases hvalue
        cases hnan : f.isNaN with
        | true => exact .inr ⟨rfl, rfl⟩
        | false => exact .inl (by simp [F64.eq, hnan])

/-- A common value is lost by a pair that is missed only. -/
theorem intersectLeaves_of_common {a b : LuaType} {v : LuaValue} (hmissed : ¬ Missed db a b)
    (ha : Denotes classes a v) (hb : Denotes classes b v) (hunion : a.isUnion = false)
    (hunion' : b.isUnion = false) : Denotes classes (intersectLeaves h db a b) v := by
  cases ha with
  | any => exact hb
  | unknown => cases b <;> first | exact hb | exact .unknown v
  | union => cases hunion
  | floatConst f =>
    generalize hw : LuaValue.float f.value = w at hb ⊢
    cases hb with
    | any => exact hw ▸ .floatConst f
    | unknown => exact hw ▸ .floatConst f
    | union => cases hunion'
    | ref id => exact absurd (.inr (.notClass id _ (by simp) (by simp) (by simp))) hmissed
    | numberFloat => exact .numberFloat _
    | floatConst g =>
      obtain heq | ⟨rfl, hnan⟩ := eq_or_isNaN_of_value_eq f g (LuaValue.float.inj hw)
      · have hequal : LuaType.eq (.FloatConst f) (.FloatConst g) = true := heq
        simp only [intersectLeaves, intersectRule, intersectEqual, hequal, if_true,
          Option.getD_none]
        exact hw ▸ .floatConst f
      · exact absurd (.inl (.nan f hnan)) hmissed
    | _ => cases hw
  | ref id _ hclass =>
    by_cases href : ∃ id', b = .Ref id'
    · obtain ⟨id', rfl⟩ := href
      simp only [intersectLeaves, intersectRule]
      split
      · exact .ref id v hclass
      · next hsub =>
          split
          · exact hb
          · next hsub' =>
              exact absurd (.inl (.classes id id' (Bool.not_eq_true _ ▸ hsub)
                (Bool.not_eq_true _ ▸ hsub'))) hmissed
    · by_cases htop : b = .Any ∨ b = .Unknown
      · obtain rfl | rfl := htop
        · exact .ref id v hclass
        · exact .ref id v hclass
      · refine absurd (.inl (.notClass id b ?_ ?_ ?_)) hmissed
        · exact fun h => htop (.inl h)
        · exact fun h => htop (.inr h)
        · exact fun id' h => href ⟨id', h⟩
  | _ =>
    cases hb with
    | any => constructor
    | unknown => constructor
    | union => cases hunion'
    | ref id => exact absurd (.inr (.notClass id _ (by simp) (by simp) (by simp))) hmissed
    | _ => first
        | exact absurd (.inl (by constructor)) hmissed
        | exact absurd (.inr (by constructor)) hmissed
        | (simp [intersectLeaves, intersectRule, intersectEqual, LuaType.eq, isNumber]; constructor)

/-- **The answer for two types that are no unions.** -/
theorem denotes_intersectLeaves_iff {a b : LuaType} {isClass : LuaTypeDeclId → Prop}
    (ha : Denotable isClass a) (hb : Denotable isClass b) (hunion : a.isUnion = false)
    (hunion' : b.isUnion = false) (v : LuaValue) :
    Denotes classes (intersectLeaves h db a b) v ↔ Keeps db classes a b v := by
  constructor
  · intro hv
    obtain hcommon | hwide := common_or_widened ha hv
    · refine .inl ⟨?_, hcommon⟩
      rintro (hmissed | hmissed)
      · rw [(missedPair_never hmissed hb hunion').1] at hv
        cases hv
      · rw [(missedPair_never hmissed ha hunion).2] at hv
        cases hv
    · exact .inr hwide
  · rintro (⟨hmissed, hva, hvb⟩ | hwide)
    · exact intersectLeaves_of_common hmissed hva hvb hunion hunion'
    · exact intersectLeaves_of_widened hwide

theorem denotable_intersectLeaves {a b : LuaType} {isClass : LuaTypeDeclId → Prop}
    (ha : Denotable isClass a) (hb : Denotable isClass b) :
    Denotable isClass (intersectLeaves h db a b) := by
  have hequal : Denotable isClass (intersectEqual a a b) := by
    unfold intersectEqual
    split
    · exact ha
    · exact .never
  unfold intersectLeaves intersectRule
  split
  any_goals first | exact ha | exact hb | constructor
  · cases ha
  · split
    · exact .number
    · exact hequal
  · split
    · exact .number
    · exact hequal
  · split
    · exact .booleanConst _
    · exact .never
  · split
    · exact ha
    · split
      · exact hb
      · exact .never
  · exact hequal

/-! ## §3. Unions -/

theorem leaf_self {t a : LuaType} (ht : t.isUnion = false) : Leaf t a ↔ a = t := by
  constructor
  · intro hleaf
    cases hleaf with
    | self => rfl
    | member => cases ht
  · rintro rfl
    exact .self a ht

theorem leaf_union {u : LuaUnionType} {a : LuaType} :
    Leaf (.Union u) a ↔ ∃ t ∈ u.intoVec, Leaf t a := by
  constructor
  · intro hleaf
    cases hleaf with
    | self _ hunion => cases hunion
    | member _ t _ ht hleaf => exact ⟨t, ht, hleaf⟩
  · rintro ⟨t, ht, hleaf⟩
    exact .member u t a ht hleaf

theorem denotes_iff_leaf {t : LuaType} {v : LuaValue} :
    Denotes classes t v ↔ ∃ a, Leaf t a ∧ Denotes classes a v := by
  constructor
  · intro hv
    induction hv with
    | union u t v ht _ ih =>
      obtain ⟨a, hleaf, hv⟩ := ih
      exact ⟨a, .member u t a ht hleaf, hv⟩
    | _ => exact ⟨_, .self _ rfl, by constructor <;> assumption⟩
  · rintro ⟨a, hleaf, hv⟩
    induction hleaf with
    | self => exact hv
    | member u t _ ht _ ih => exact .union u t v ht (ih hv)

/-- Some pair of members keeps the value. -/
def KeepsSome (db : TypeIndex) (classes : Classes) (t r : LuaType) (v : LuaValue) : Prop :=
  ∃ a b, Leaf t a ∧ Leaf r b ∧ Keeps db classes a b v

theorem keepsSome_left {u : LuaUnionType} {r : LuaType} {v : LuaValue} :
    KeepsSome db classes (.Union u) r v ↔ ∃ t ∈ u.intoVec, KeepsSome db classes t r v := by
  unfold KeepsSome
  simp only [leaf_union]
  constructor
  · rintro ⟨a, b, ⟨t, ht, ha⟩, hb, hk⟩
    exact ⟨t, ht, a, b, ha, hb, hk⟩
  · rintro ⟨t, ht, a, b, ha, hb, hk⟩
    exact ⟨a, b, ⟨t, ht, ha⟩, hb, hk⟩

theorem keepsSome_right {u : LuaUnionType} {t : LuaType} {v : LuaValue} :
    KeepsSome db classes t (.Union u) v ↔ ∃ r ∈ u.intoVec, KeepsSome db classes t r v := by
  unfold KeepsSome
  simp only [leaf_union]
  constructor
  · rintro ⟨a, b, ha, ⟨r, hr, hb⟩, hk⟩
    exact ⟨r, hr, a, b, ha, hb, hk⟩
  · rintro ⟨r, hr, a, b, ha, hb, hk⟩
    exact ⟨a, b, ha, ⟨r, hr, hb⟩, hk⟩

/-- A type with every value. -/
def IsTop (t : LuaType) : Prop := t = .Any ∨ t = .Unknown

theorem IsTop.denotes {t : LuaType} (htop : IsTop t) (v : LuaValue) : Denotes classes t v := by
  obtain rfl | rfl := htop
  · exact .any v
  · exact .unknown v

theorem not_missed_top {t r : LuaType} (htop : IsTop t) : ¬ Missed db t r ∧ ¬ Missed db r t := by
  have hpair : ¬ MissedPair db t r ∧ ¬ MissedPair db r t := by
    obtain rfl | rfl := htop
    · refine ⟨fun h => (by cases h), fun h => ?_⟩
      cases h with
      | notClass _ _ hany _ _ => exact hany rfl
    · refine ⟨fun h => (by cases h), fun h => ?_⟩
      cases h with
      | notClass _ _ _ hunknown _ => exact hunknown rfl
  exact ⟨fun h => h.elim hpair.1 hpair.2, fun h => h.elim hpair.2 hpair.1⟩

theorem not_widened_top {t r : LuaType} {v : LuaValue} (htop : IsTop t) :
    ¬ Widened db classes t r v ∧ ¬ Widened db classes r t v := by
  obtain rfl | rfl := htop <;> refine ⟨fun h => ?_, fun h => ?_⟩ <;>
    cases h <;> next hnumber _ => cases hnumber

/-- Beside `any` and `unknown` every value is kept. -/
theorem keepsSome_top_right {t r : LuaType} {v : LuaValue} (htop : IsTop r) :
    KeepsSome db classes t r v ↔ Denotes classes t v := by
  have hr : r.isUnion = false := by
    obtain rfl | rfl := htop <;> rfl
  rw [denotes_iff_leaf]
  constructor
  · rintro ⟨a, b, ha, hb, hk⟩
    cases (leaf_self hr).1 hb
    obtain ⟨_, hv, _⟩ | hwide := hk
    · exact ⟨a, ha, hv⟩
    · exact absurd hwide (not_widened_top htop).2
  · rintro ⟨a, ha, hv⟩
    exact ⟨a, r, ha, .self r hr, .inl ⟨(not_missed_top htop).2, hv, htop.denotes v⟩⟩

theorem keepsSome_top_left {t r : LuaType} {v : LuaValue} (htop : IsTop t) :
    KeepsSome db classes t r v ↔ Denotes classes r v := by
  have ht : t.isUnion = false := by
    obtain rfl | rfl := htop <;> rfl
  rw [denotes_iff_leaf]
  constructor
  · rintro ⟨a, b, ha, hb, hk⟩
    cases (leaf_self ht).1 ha
    obtain ⟨_, _, hv⟩ | hwide := hk
    · exact ⟨b, hb, hv⟩
    · exact absurd hwide (not_widened_top htop).1
  · rintro ⟨b, hb, hv⟩
    exact ⟨t, b, .self t ht, hb, .inl ⟨(not_missed_top htop).1, htop.denotes v, hv⟩⟩

theorem not_keeps_never {t : LuaType} {v : LuaValue} :
    ¬ Keeps db classes t .Never v ∧ ¬ Keeps db classes .Never t v := by
  refine ⟨?_, ?_⟩
  · rintro (⟨_, _, hv⟩ | hwide)
    · cases hv
    · cases hwide with
      | numberLeft _ _ hnumber => cases hnumber
  · rintro (⟨_, hv, _⟩ | hwide)
    · cases hv
    · cases hwide with
      | numberRight _ _ hnumber => cases hnumber

theorem not_keepsSome_never {t : LuaType} {v : LuaValue} :
    ¬ KeepsSome db classes t .Never v ∧ ¬ KeepsSome db classes .Never t v := by
  refine ⟨?_, ?_⟩
  · rintro ⟨a, b, _, hb, hk⟩
    cases (leaf_self rfl).1 hb
    exact not_keeps_never.1 hk
  · rintro ⟨a, b, ha, _, hk⟩
    cases (leaf_self rfl).1 ha
    exact not_keeps_never.2 hk

/-- A value that is widened into the answer is one of the two types. -/
theorem denotes_of_widened {a b : LuaType} {v : LuaValue} (hwide : Widened db classes a b v) :
    Denotes classes a v ∨ Denotes classes b v := by
  cases hwide with
  | numberLeft _ _ _ hv => exact .inl hv
  | numberRight _ _ _ hv => exact .inr hv
  | left id1 _ _ _ hclass => exact .inl (.ref id1 v hclass)
  | right _ id2 _ _ _ hclass => exact .inr (.ref id2 v hclass)

theorem keepsSome_subset {t r : LuaType} {v : LuaValue} (hk : KeepsSome db classes t r v) :
    v ∈ values classes t ∪ values classes r := by
  obtain ⟨a, b, ha, hb, hk⟩ := hk
  have hv : Denotes classes a v ∨ Denotes classes b v := by
    obtain ⟨_, hva, _⟩ | hwide := hk
    · exact .inl hva
    · exact denotes_of_widened hwide
  obtain hva | hvb := hv
  · exact .inl (denotes_iff_leaf.2 ⟨a, ha, hva⟩)
  · exact .inr (denotes_iff_leaf.2 ⟨b, hb, hvb⟩)

/-! ## §4. Every intersection -/

/-- The answer has the values that some pair of members keeps. -/
structure Intersects (db : TypeIndex) (classes : Classes) (isClass : LuaTypeDeclId → Prop)
    (t r result : LuaType) : Prop where
  denotable : Denotable isClass result
  exact : ∀ v, Denotes classes result v ↔ KeepsSome db classes t r v

variable {isClass : LuaTypeDeclId → Prop}

/-- What is joined has the values of what it is joined of. -/
theorem denotes_joinIntersections (h : Hashing) (classes : Classes) (results : List LuaType)
    (hden : ∀ t ∈ results, Denotable isClass t) :
    Denotable isClass (joinIntersections h results) ∧
      ∀ v, Denotes classes (joinIntersections h results) v ↔ DenotesAny classes results v := by
  have hfilter : ∀ v, DenotesAny classes (results.filter fun t => !t.isNever) v
      ↔ DenotesAny classes results v := by
    intro v
    constructor
    · rintro ⟨t, ht, hv⟩
      exact ⟨t, (List.mem_filter.1 ht).1, hv⟩
    · rintro ⟨t, ht, hv⟩
      refine ⟨t, List.mem_filter.2 ⟨ht, ?_⟩, hv⟩
      cases t <;> first | rfl | cases hv
  have hden' : ∀ t ∈ results.filter fun t => !t.isNever, Denotable isClass t :=
    fun t ht => hden t (List.mem_filter.1 ht).1
  unfold joinIntersections
  split
  · next hempty =>
      refine ⟨.never, ?_⟩
      intro v
      rw [← hfilter v, hempty]
      exact ⟨fun hv => absurd hv (not_denotes_never v), fun hv => absurd hv (denotesAny_nil v)⟩
  · next hne =>
      refine ⟨denotable_fromVec _ hden', ?_⟩
      intro v
      rw [← hfilter v]
      exact (means_fromVec _ hden' hne).denotes_iff v

theorem intersectRule_union_left (h : Hashing) (db : TypeIndex) (u : LuaUnionType) (r : LuaType)
    (hany : r ≠ .Any)
    (hnever : r ≠ .Never) (hunknown : r ≠ .Unknown) :
    intersectRule h db (.Union u) (.Union u) r = none := by
  cases r with
  | Any => exact absurd rfl hany
  | Never => exact absurd rfl hnever
  | Unknown => exact absurd rfl hunknown
  | _ => rfl

theorem intersectRule_union_right (h : Hashing) (db : TypeIndex) (u : LuaUnionType) (t : LuaType)
    (ht : Denotable isClass t)
    (hany : t ≠ .Any) (hnever : t ≠ .Never) (hunknown : t ≠ .Unknown) :
    intersectRule h db t t (.Union u) = none := by
  cases ht with
  | any => exact absurd rfl hany
  | never => exact absurd rfl hnever
  | unknown => exact absurd rfl hunknown
  | _ => rfl

theorem real_eq {t : LuaType} (ht : Denotable (IsClass db.decls) t) :
    (getRealType db.decls 10 t).getD t = t :=
  getRealType_getD db.decls t (not_refersToAlias db.decls t ht)

section
variable (depth : Nat) {t r : LuaType}

theorem intersectType_of_rule {result : LuaType} (ht : Denotable (IsClass db.decls) t)
    (hrule : intersectRule h db t t r = some result) :
    intersectType h db (depth + 1) t r = some result := by
  simp only [intersectType, real_eq ht, hrule]

theorem intersectType_leaves (ht : Denotable (IsClass db.decls) t) (hunion : t.isUnion = false)
    (hunion' : r.isUnion = false) :
    intersectType h db (depth + 1) t r = some (intersectLeaves h db t r) := by
  unfold intersectLeaves
  simp only [intersectType, real_eq ht]
  cases hrule : intersectRule h db t t r with
  | some result => rfl
  | none =>
    cases t <;> first | (cases hunion; done) | (cases r <;> first | rfl | cases hunion')

end

/-- The joined answers for the members of a union. -/
theorem Intersects.join {t r : LuaType} {A : Type} {pairs : List A} {f : A → Option LuaType}
    (left right : A → LuaType) (hf : ∀ a ∈ pairs, ∃ result, f a = some result ∧
      Intersects db classes isClass (left a) (right a) result)
    (hkeeps : ∀ v, KeepsSome db classes t r v
      ↔ ∃ a ∈ pairs, KeepsSome db classes (left a) (right a) v) :
    ∃ result, (pairs.mapM f).map (joinIntersections h) = some result ∧
      Intersects db classes isClass t r result := by
  obtain ⟨results, hresults, hpairs, hall⟩ := exists_mapM
    (P := fun a result => Intersects db classes isClass (left a) (right a) result) pairs hf
  have hden : ∀ result ∈ results, Denotable isClass result := by
    intro result hmem
    obtain ⟨a, _, ha⟩ := hall result hmem
    exact ha.denotable
  obtain ⟨hdenotable, hexact⟩ := denotes_joinIntersections h classes results hden
  refine ⟨joinIntersections h results, by rw [hresults]; rfl, hdenotable, ?_⟩
  intro v
  rw [hexact v, hkeeps v]
  constructor
  · rintro ⟨result, hmem, hv⟩
    obtain ⟨a, ha, hi⟩ := hall result hmem
    exact ⟨a, ha, (hi.exact v).1 hv⟩
  · rintro ⟨a, ha, hk⟩
    obtain ⟨result, hmem, hi⟩ := hpairs a ha
    exact ⟨result, hmem, (hi.exact v).2 hk⟩

theorem denotable_mem {u : LuaUnionType} (hu : Denotable isClass (.Union u)) :
    ∀ t ∈ u.intoVec, Denotable isClass t := by
  cases hu with
  | union _ _ hall => exact hall

/-- The rules for `any`, `unknown` and `never`. -/
theorem exists_extremeRule (h : Hashing) (db : TypeIndex) {t r : LuaType}
    (hextreme : IsTop t ∨ IsTop r ∨ t = .Never ∨ r = .Never) :
    ∃ result, intersectRule h db t t r = some result ∧
      (result = r ∧ IsTop t ∨ result = t ∧ IsTop r ∨
        result = .Never ∧ (t = .Never ∨ r = .Never)) := by
  by_cases hany : t = .Any
  · cases hany
    exact ⟨r, rfl, .inl ⟨rfl, .inl rfl⟩⟩
  by_cases hany' : r = .Any
  · cases hany'
    refine ⟨t, ?_, .inr (.inl ⟨rfl, .inl rfl⟩)⟩
    cases t <;> rfl
  by_cases hnever : t = .Never
  · cases hnever
    refine ⟨.Never, ?_, .inr (.inr ⟨rfl, .inl rfl⟩)⟩
    cases r <;> rfl
  by_cases hnever' : r = .Never
  · cases hnever'
    refine ⟨.Never, ?_, .inr (.inr ⟨rfl, .inr rfl⟩)⟩
    cases t <;> rfl
  by_cases hunknown : t = .Unknown
  · cases hunknown
    refine ⟨r, ?_, .inl ⟨rfl, .inr rfl⟩⟩
    cases r <;> first | rfl | exact absurd rfl hany'
  · have hunknown' : r = .Unknown := by
      unfold IsTop at hextreme
      tauto
    cases hunknown'
    refine ⟨t, ?_, .inr (.inl ⟨rfl, .inr rfl⟩)⟩
    cases t <;> first | rfl | exact absurd rfl hany

theorem intersects_extreme {t r result : LuaType} (ht : Denotable isClass t)
    (hr : Denotable isClass r) (hresult : result = r ∧ IsTop t ∨ result = t ∧ IsTop r ∨
      result = .Never ∧ (t = .Never ∨ r = .Never)) :
    Intersects db classes isClass t r result := by
  obtain ⟨rfl, htop⟩ | ⟨rfl, htop⟩ | ⟨rfl, hnever⟩ := hresult
  · exact ⟨hr, fun v => (keepsSome_top_left htop).symm⟩
  · exact ⟨ht, fun v => (keepsSome_top_right htop).symm⟩
  · refine ⟨.never, ?_⟩
    intro v
    have hno : ¬ KeepsSome db classes t r v := by
      obtain rfl | rfl := hnever
      · exact not_keepsSome_never.2
      · exact not_keepsSome_never.1
    exact ⟨fun hv => absurd hv (not_denotes_never v), fun hk => absurd hk hno⟩

/-- **The intersection keeps what some pair of members keeps**, and it ends. -/
theorem intersectType_intersects (h : Hashing) (classes : Classes) (depth : Nat) : ∀ t r : LuaType,
    Denotable (IsClass db.decls) t → Denotable (IsClass db.decls) r →
      sizeOf t + sizeOf r < depth →
      ∃ result, intersectType h db depth t r = some result ∧
        Intersects db classes (IsClass db.decls) t r result := by
  induction depth with
  | zero =>
    intro t r _ _ hdepth
    exact absurd hdepth (Nat.not_lt_zero _)
  | succ depth ih =>
    intro t r ht hr hdepth
    by_cases hextreme : IsTop t ∨ IsTop r ∨ t = .Never ∨ r = .Never
    · obtain ⟨result, hrule, hresult⟩ := exists_extremeRule h db hextreme
      exact ⟨result, intersectType_of_rule depth ht hrule, intersects_extreme ht hr hresult⟩
    simp only [IsTop, not_or] at hextreme
    obtain ⟨⟨hany, hunknown⟩, ⟨hany', hunknown'⟩, hnever, hnever'⟩ := hextreme
    cases hunion : t.isUnion with
    | true =>
      obtain ⟨u, rfl⟩ := exists_union hunion
      have hrule := intersectRule_union_left h db u r hany' hnever' hunknown'
      cases hunion' : r.isUnion with
      | true =>
        obtain ⟨w, rfl⟩ := exists_union hunion'
        simp only [intersectType, real_eq ht, hrule]
        refine Intersects.join Prod.fst Prod.snd ?_ ?_
        · intro pair hpair
          obtain ⟨hmem, hmem'⟩ := List.mem_product.1 hpair
          have hlt := sizeOf_lt_of_mem_intoVec u pair.1 hmem
          have hlt' := sizeOf_lt_of_mem_intoVec w pair.2 hmem'
          exact ih pair.1 pair.2 (denotable_mem ht _ hmem) (denotable_mem hr _ hmem') (by omega)
        · intro v
          simp only [keepsSome_left, keepsSome_right, Prod.exists, List.pair_mem_product]
          constructor
          · rintro ⟨r, hr, t, ht, hk⟩
            exact ⟨t, r, ⟨ht, hr⟩, hk⟩
          · rintro ⟨t, r, ⟨ht, hr⟩, hk⟩
            exact ⟨r, hr, t, ht, hk⟩
      | false =>
        have hapart : intersectType h db (depth + 1) (.Union u) r
            = (u.intoVec.mapM fun t => intersectType h db depth t r).map
                (joinIntersections h) := by
          simp only [intersectType, real_eq ht, hrule]
          cases r <;> first | rfl | cases hunion'
        rw [hapart]
        refine Intersects.join id (fun _ => r) ?_ fun v => keepsSome_left
        intro t hmem
        have hlt := sizeOf_lt_of_mem_intoVec u t hmem
        exact ih t r (denotable_mem ht _ hmem) hr (by omega)
    | false =>
      cases hunion' : r.isUnion with
      | true =>
        obtain ⟨w, rfl⟩ := exists_union hunion'
        have hrule := intersectRule_union_right h db w t ht hany hnever
          hunknown
        have hapart : intersectType h db (depth + 1) t (.Union w)
            = (w.intoVec.mapM fun r => intersectType h db depth t r).map
                (joinIntersections h) := by
          simp only [intersectType, real_eq ht, hrule]
          cases t <;> first | rfl | cases hunion
        rw [hapart]
        refine Intersects.join (fun _ => t) id ?_ fun v => keepsSome_right
        intro r hmem
        have hlt := sizeOf_lt_of_mem_intoVec w r hmem
        exact ih t r ht (denotable_mem hr _ hmem) (by omega)
      | false =>
        refine ⟨_, intersectType_leaves depth ht hunion hunion',
          denotable_intersectLeaves ht hr, ?_⟩
        intro v
        rw [denotes_intersectLeaves_iff ht hr hunion hunion']
        constructor
        · intro hk
          exact ⟨t, r, .self t hunion, .self r hunion', hk⟩
        · rintro ⟨a, b, ha, hb, hk⟩
          cases (leaf_self hunion).1 ha
          cases (leaf_self hunion').1 hb
          exact hk

/-- **An intersection is sound** exactly when each common value is kept by some pair of
    members. -/
theorem values_intersect_iff (h : Hashing) (db : TypeIndex) (classes : Classes) (t r : LuaType)
    (ht : Denotable (IsClass db.decls) t) (hr : Denotable (IsClass db.decls) r) :
    ∃ result,
      (∀ depth, sizeOf t + sizeOf r < depth → intersectType h db depth t r = some result) ∧
      (values classes t ∩ values classes r ⊆ values classes result ∧
          values classes result ⊆ values classes t ∪ values classes r
        ↔ ∀ v ∈ values classes t ∩ values classes r, KeepsSome db classes t r v) := by
  obtain ⟨result, hresult, hexact⟩ := intersectType_intersects h classes
    (sizeOf t + sizeOf r + 1) t r ht hr (Nat.lt_succ_self _)
  refine ⟨result, fun depth hdepth => intersectType_of_le h db hdepth hresult, ?_, ?_⟩
  · rintro ⟨hlower, _⟩ v hv
    exact (hexact.exact v).1 (hlower hv)
  · intro hkeeps
    refine ⟨fun v hv => (hexact.exact v).2 (hkeeps v hv), ?_⟩
    intro v hv
    exact keepsSome_subset ((hexact.exact v).1 hv)

theorem values_intersect_iff_integer :
    (Denotable (IsClass noTypes.decls) .Integer ∧ Denotable (IsClass noTypes.decls) .Number) ∧
      ∃ result,
        (∀ depth, sizeOf LuaType.Integer + sizeOf LuaType.Number < depth →
          intersectType plainHashing noTypes depth .Integer .Number = some result) ∧
        (values noClasses .Integer ∩ values noClasses .Number ⊆ values noClasses result ∧
            values noClasses result ⊆ values noClasses .Integer ∪ values noClasses .Number
          ↔ ∀ v ∈ values noClasses .Integer ∩ values noClasses .Number,
            KeepsSome noTypes noClasses .Integer .Number v) :=
  ⟨⟨.integer, .number⟩, values_intersect_iff plainHashing noTypes noClasses _ _ .integer .number⟩

/-- **`boolean` and a doc literal have nothing in common**, and neither have the two
    spellings of a string literal. -/
theorem values_intersect_missed :
    (intersectType plainHashing noTypes 10 .Boolean (.DocBooleanConst true) = some .Never ∧
        .boolean true ∈ values noClasses .Boolean ∩ values noClasses (.DocBooleanConst true) ∧
        .boolean true ∉ values noClasses .Never) ∧
      intersectType plainHashing noTypes 10 (.StringConst "a") (.DocStringConst "a") = some .Never ∧
        .string "a" ∈ values noClasses (.StringConst "a") ∩ values noClasses (.DocStringConst "a") ∧
        .string "a" ∉ values noClasses .Never :=
  ⟨⟨rfl, ⟨.boolean true, .docBooleanConst true⟩, not_denotes_never _⟩,
    rfl, ⟨.stringConst "a", .docStringConst "a"⟩, not_denotes_never _⟩

end LuaType

end GluaLs.Types
