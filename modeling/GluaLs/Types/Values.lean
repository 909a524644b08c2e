/-
  GluaLs.Types.Values — the Lua values a type stands for.

  A literal denotes its value, a primitive all values of its kind, a class what its
  instances are, `any` and `unknown` everything and a union what one of its members denotes.
  Types that are equal denote the same values (`denotes_iff_of_eq`).
-/
import GluaLs.Types.LuaType

namespace GluaLs.Types

/-- A value of a running program.  A table and a function know where they were made. -/
inductive LuaValue where
  | nil
  | boolean (b : Bool)
  | integer (n : Int)
  | float (f : F64)
  | string (s : SmolStr)
  | table (site : Option (InFiled TextRange)) (address : Nat)
  | function (signature : Option LuaSignatureId) (address : Nat)
  | userdata (address : Nat)
  | thread (address : Nat)
  deriving DecidableEq, Repr

/-- The instances of each class. -/
abbrev Classes : Type := LuaTypeDeclId → LuaValue → Prop

/-- The value of a float literal: no program tells the two zeros apart by comparing them. -/
def F64.value (f : F64) : F64 := if f.isZero then ⟨0⟩ else f

/-- `v` is a value of the type. -/
inductive Denotes (classes : Classes) : LuaType → LuaValue → Prop
  | any (v) : Denotes classes .Any v
  | unknown (v) : Denotes classes .Unknown v
  | nil : Denotes classes .Nil .nil
  | boolean (b) : Denotes classes .Boolean (.boolean b)
  | booleanConst (b) : Denotes classes (.BooleanConst b) (.boolean b)
  | docBooleanConst (b) : Denotes classes (.DocBooleanConst b) (.boolean b)
  | integer (n) : Denotes classes .Integer (.integer n)
  | integerConst (n) : Denotes classes (.IntegerConst n) (.integer n)
  | docIntegerConst (n) : Denotes classes (.DocIntegerConst n) (.integer n)
  | numberInteger (n) : Denotes classes .Number (.integer n)
  | numberFloat (f) : Denotes classes .Number (.float f)
  | floatConst (f) : Denotes classes (.FloatConst f) (.float f.value)
  | string (s) : Denotes classes .String (.string s)
  | stringConst (s) : Denotes classes (.StringConst s) (.string s)
  | docStringConst (s) : Denotes classes (.DocStringConst s) (.string s)
  | table (site address) : Denotes classes .Table (.table site address)
  | tableConst (site address) : Denotes classes (.TableConst site) (.table (some site) address)
  | function (signature address) : Denotes classes .Function (.function signature address)
  | signature (id address) : Denotes classes (.Signature id) (.function (some id) address)
  | ref (id v) : classes id v → Denotes classes (.Ref id) v
  | union (u t v) : t ∈ u.intoVec → Denotes classes t v → Denotes classes (.Union u) v

/-- The types that are given values: the literals, the primitives, classes, and unions of at
    least one of these. -/
inductive Denotable (isClass : LuaTypeDeclId → Prop) : LuaType → Prop
  | never : Denotable isClass .Never
  | any : Denotable isClass .Any
  | unknown : Denotable isClass .Unknown
  | nil : Denotable isClass .Nil
  | boolean : Denotable isClass .Boolean
  | booleanConst (b) : Denotable isClass (.BooleanConst b)
  | docBooleanConst (b) : Denotable isClass (.DocBooleanConst b)
  | integer : Denotable isClass .Integer
  | integerConst (n) : Denotable isClass (.IntegerConst n)
  | docIntegerConst (n) : Denotable isClass (.DocIntegerConst n)
  | number : Denotable isClass .Number
  | floatConst (f) : Denotable isClass (.FloatConst f)
  | string : Denotable isClass .String
  | stringConst (s) : Denotable isClass (.StringConst s)
  | docStringConst (s) : Denotable isClass (.DocStringConst s)
  | table : Denotable isClass .Table
  | tableConst (site) : Denotable isClass (.TableConst site)
  | function : Denotable isClass .Function
  | signature (id) : Denotable isClass (.Signature id)
  | ref (id) : isClass id → Denotable isClass (.Ref id)
  | union (u) : u.intoVec ≠ [] → (∀ t ∈ u.intoVec, Denotable isClass t) →
      Denotable isClass (.Union u)

/-- One of the types has the value. -/
def DenotesAny (classes : Classes) (types : List LuaType) (v : LuaValue) : Prop :=
  ∃ t ∈ types, Denotes classes t v

variable {classes : Classes}

/-! ## §1. Lists of types -/

theorem denotesAny_nil (v : LuaValue) : ¬ DenotesAny classes [] v := by
  rintro ⟨t, ht, _⟩
  cases ht

theorem denotesAny_cons (t : LuaType) (types : List LuaType) (v : LuaValue) :
    DenotesAny classes (t :: types) v ↔ Denotes classes t v ∨ DenotesAny classes types v := by
  simp [DenotesAny]

theorem denotesAny_singleton (t : LuaType) (v : LuaValue) :
    DenotesAny classes [t] v ↔ Denotes classes t v := by
  simp [DenotesAny]

theorem denotesAny_append (as bs : List LuaType) (v : LuaValue) :
    DenotesAny classes (as ++ bs) v ↔ DenotesAny classes as v ∨ DenotesAny classes bs v := by
  simp [DenotesAny, or_and_right, exists_or]

/-- Only which types are listed counts. -/
theorem denotesAny_perm {as bs : List LuaType} (h : as.Perm bs) (v : LuaValue) :
    DenotesAny classes as v ↔ DenotesAny classes bs v := by
  unfold DenotesAny
  simp only [h.mem_iff]

theorem denotes_union (u : LuaUnionType) (v : LuaValue) :
    Denotes classes (.Union u) v ↔ DenotesAny classes u.intoVec v := by
  constructor
  · intro h
    cases h with
    | union _ t _ ht hv => exact ⟨t, ht, hv⟩
  · rintro ⟨t, ht, hv⟩
    exact .union u t v ht hv

theorem not_denotes_never (v : LuaValue) : ¬ Denotes classes .Never v := by
  intro h
  cases h

/-! ## §2. Equal types -/

theorem F64.value_eq_of_eq (f g : F64) (h : f.eq g = true) : f.value = g.value := by
  simp only [F64.eq, Bool.and_eq_true, Bool.or_eq_true, beq_iff_eq] at h
  obtain ⟨_, hbits | ⟨hf, hg⟩⟩ := h
  · obtain ⟨bits⟩ := f
    obtain ⟨bits'⟩ := g
    cases hbits
    rfl
  · simp only [F64.value, hf, hg, if_true]

theorem mem_of_eqs (as : List LuaType) :
    ∀ bs, LuaType.eqs as bs = true →
      (∀ a ∈ as, ∃ b ∈ bs, a.eq b = true) ∧ ∀ b ∈ bs, ∃ a ∈ as, a.eq b = true := by
  induction as with
  | nil =>
    intro bs h
    cases bs with
    | nil => exact ⟨nofun, nofun⟩
    | cons b bs => cases h
  | cons a as ih =>
    intro bs h
    cases bs with
    | nil => cases h
    | cons b bs =>
      have h' : (a.eq b && LuaType.eqs as bs) = true := h
      obtain ⟨hab, hrest⟩ := Bool.and_eq_true_iff.1 h'
      obtain ⟨hleft, hright⟩ := ih bs hrest
      refine ⟨?_, ?_⟩
      · intro c hc
        obtain rfl | hc := List.mem_cons.1 hc
        · exact ⟨b, .head _, hab⟩
        · obtain ⟨d, hd, heq⟩ := hleft c hc
          exact ⟨d, .tail _ hd, heq⟩
      · intro d hd
        obtain rfl | hd := List.mem_cons.1 hd
        · exact ⟨a, .head _, hab⟩
        · obtain ⟨c, hc, heq⟩ := hright d hd
          exact ⟨c, .tail _ hc, heq⟩

/-- Equal unions have equal members. -/
theorem mem_intoVec_of_eq (u u' : LuaUnionType) (h : u.eq u' = true) :
    (∀ a ∈ u.intoVec, ∃ b ∈ u'.intoVec, a.eq b = true) ∧
      ∀ b ∈ u'.intoVec, ∃ a ∈ u.intoVec, a.eq b = true := by
  cases u with
  | Nullable a =>
    cases u' with
    | Nullable b =>
      have hab : a.eq b = true := h
      apply mem_of_eqs [a, .Nil] [b, .Nil]
      show (a.eq b && LuaType.eqs [.Nil] [.Nil]) = true
      rw [hab]
      rfl
    | Multi types => cases h
  | Multi types =>
    cases u' with
    | Nullable b => cases h
    | Multi types' => exact mem_of_eqs types types' h

/-- A type that is equal to a union is a union. -/
theorem exists_union_of_eq (u : LuaUnionType) (b : LuaType)
    (h : LuaType.eq (.Union u) b = true) : ∃ u', b = .Union u' ∧ u.eq u' = true := by
  cases b with
  | Union u' => exact ⟨u', rfl, h⟩
  | _ => cases h

theorem exists_union_of_eq' (u : LuaUnionType) (a : LuaType)
    (h : a.eq (.Union u) = true) : ∃ u', a = .Union u' ∧ u'.eq u = true := by
  cases a with
  | Union u' => exact ⟨u', rfl, h⟩
  | _ => cases h

/-- What is equal to a type that is no union denotes the same values. -/
theorem denotes_iff_of_eq_leaf (a b : LuaType) (h : a.eq b = true) (ha : ∀ u, a ≠ .Union u)
    (v : LuaValue) : Denotes classes a v ↔ Denotes classes b v := by
  cases a with
  | Union u => exact absurd rfl (ha u)
  | FloatConst f =>
    cases b with
    | FloatConst g =>
      have hvalue := F64.value_eq_of_eq f g h
      constructor
      · intro hv
        cases hv
        rw [hvalue]
        exact .floatConst g
      · intro hv
        cases hv
        rw [← hvalue]
        exact .floatConst f
    | _ => cases h
  | BooleanConst x | DocBooleanConst x | IntegerConst x | DocIntegerConst x | StringConst x
  | DocStringConst x | TableConst x | Ref x | Signature x =>
    cases b <;> first
      | cases h
      | rw [beq_iff_eq.1 (show (x == _) = true from h)]
  | _ =>
    cases b <;> first
      | exact .rfl
      | cases h
      | exact ⟨fun hv => (by cases hv), fun hv => (by cases hv)⟩

/-- **Equal types denote the same values.** -/
theorem denotes_iff_of_eq (a b : LuaType) (h : a.eq b = true) (v : LuaValue) :
    Denotes classes a v ↔ Denotes classes b v := by
  constructor
  · intro hv
    induction hv generalizing b with
    | union u t v ht hv ih =>
      obtain ⟨u', rfl, heq⟩ := exists_union_of_eq u b h
      obtain ⟨t', ht', htt'⟩ := (mem_intoVec_of_eq u u' heq).1 t ht
      exact .union u' t' v ht' (ih t' htt')
    | _ =>
      refine (denotes_iff_of_eq_leaf _ b h ?_ _).1 (by constructor <;> assumption)
      intro u hu
      cases hu
  · intro hv
    induction hv generalizing a with
    | union u t v ht hv ih =>
      obtain ⟨u', rfl, heq⟩ := exists_union_of_eq' u a h
      obtain ⟨t', ht', htt'⟩ := (mem_intoVec_of_eq u' u heq).2 t ht
      exact .union u' t' v ht' (ih t' htt')
    | _ =>
      refine (denotes_iff_of_eq_leaf a _ h ?_ _).2 (by constructor <;> assumption)
      intro u hu
      subst hu
      cases h

end GluaLs.Types
