/-
  GluaLs.Types.Equality — `==` of types is symmetric and transitive.

  The comparison goes through every constructor, and through the names, lists and attributes
  inside, so that its laws come from those of the parts (`lawfulAt`).  A type is equal to
  itself exactly if it holds no NaN (`eq_self_iff`).
-/
import GluaLs.Types.Shape

namespace GluaLs.Types

open GluaLs.Lib

/-! ## §1. The laws of `==` -/

theorem F64.lawfulAt (f : F64) : LawfulAt F64.eq f where
  symm g := by
    unfold F64.eq
    rw [Bool.eq_iff_iff]
    simp only [Bool.and_eq_true, Bool.or_eq_true, Bool.not_eq_true', beq_iff_eq]
    tauto
  trans g k hfg hgk := by
    unfold F64.eq at *
    simp only [Bool.and_eq_true, Bool.or_eq_true, Bool.not_eq_true', beq_iff_eq] at *
    obtain ⟨⟨hf, -⟩, hfg⟩ := hfg
    obtain ⟨⟨-, hk⟩, hgk⟩ := hgk
    refine ⟨⟨hf, hk⟩, ?_⟩
    have hzero : ∀ {x y : F64}, x.bits = y.bits → x.isZero = y.isZero := by
      intro x y h
      unfold F64.isZero
      rw [h]
    rcases hfg with hfg | ⟨hf0, hg0⟩
    · rcases hgk with hgk | ⟨hg0, hk0⟩
      · exact .inl (hfg.trans hgk)
      · exact .inr ⟨(hzero hfg).trans hg0, hk0⟩
    · rcases hgk with hgk | ⟨-, hk0⟩
      · exact .inr ⟨hf0, (hzero hgk).symm.trans hg0⟩
      · exact .inr ⟨hf0, hk0⟩

namespace LuaType

/-- **A law of the comparison of floats is one of the comparison of types**, where the
    floats of the type have it. -/
theorem lawAt (L : ComparisonLaw) (t : LuaType) :
    (∀ f, Holds (fun s => s = .FloatConst f) t → L.At F64.eq f) → L.At LuaType.eq t := by
  induction t using induction_parts with
  | step t ih =>
    intro hfloat
    cases t with
    | FloatConst f =>
      refine L.constructor FloatConst f (hfloat f (.here rfl)) (fun _ _ => rfl) ?_
      intro f t hne
      cases t <;> first | exact ⟨rfl, rfl⟩ | exact absurd rfl (hne _)
    | _ => exact (splits _).law L fun s hs => ih s hs fun f hf => hfloat f (.part hs hf)

/-- **`==` of types is symmetric and transitive.** -/
theorem lawfulAt (t : LuaType) : LawfulAt LuaType.eq t :=
  lawAt .lawful t fun f _ => f.lawfulAt

/-! ## §2. Types that are equal to themselves -/

/-- Whether a type is equal to itself is decided by its parts and by itself alone. -/
theorem eq_self_iff_parts (t : LuaType) :
    t.eq t = true ↔ t.isNaN = false ∧ ∀ s ∈ t.parts, s.eq s = true := by
  cases t with
  | FloatConst f =>
    show f.eq f = true ↔ f.isNaN = false ∧ _
    cases h : f.isNaN <;> simp [F64.eq, h, parts, children]
  | _ => exact (splits _).refl.trans (iff_and_self.2 fun _ => rfl)

/-- **A type is equal to itself exactly if it holds no NaN.** -/
theorem eq_self_iff (t : LuaType) : t.eq t = true ↔ ¬ Holds (fun s => s.isNaN = true) t := by
  induction t using induction_parts with
  | step t ih =>
    rw [eq_self_iff_parts]
    constructor
    · intro h hholds
      cases hholds with
      | here hnan => rw [h.1] at hnan; cases hnan
      | part hs hholds' => exact (ih _ hs).1 (h.2 _ hs) hholds'
    · intro h
      refine ⟨?_, ?_⟩
      · cases hnan : t.isNaN with
        | false => rfl
        | true => exact absurd (.here hnan) h
      · intro s hs
        exact (ih s hs).2 fun hholds => h (.part hs hholds)

/-! ## §3. Types without float zeros and NaN -/

theorem Holds.mono {p q : LuaType → Prop} (hpq : ∀ t, p t → q t) {t : LuaType} (ht : Holds p t) :
    Holds q t := by
  induction ht with
  | here hp => exact .here (hpq _ hp)
  | part hs _ ih => exact .part hs ih

/-- No float zero and no NaN in the type, however deep. -/
def Definite (t : LuaType) : Prop :=
  ¬ Holds (fun s => ∃ f, s = .FloatConst f ∧ (f.isZero = true ∨ f.isNaN = true)) t

theorem Definite.part {t s : LuaType} (ht : Definite t) (hs : s ∈ t.parts) : Definite s :=
  fun h => ht (.part hs h)

theorem Definite.of_parts {t : LuaType} (hfloat : ∀ f, t ≠ .FloatConst f)
    (hparts : ∀ s ∈ t.parts, Definite s) : Definite t := by
  intro hholds
  cases hholds with
  | here hp =>
    obtain ⟨f, hf, _⟩ := hp
    exact hfloat f hf
  | part hs hholds => exact hparts _ hs hholds

theorem Definite.float {t : LuaType} (ht : Definite t) (f : F64)
    (hf : Holds (fun s => s = .FloatConst f) t) : f.isZero = false ∧ f.isNaN = false := by
  refine ⟨?_, ?_⟩
  · cases hzero : f.isZero with
    | true => exact absurd (hf.mono fun _ hs => ⟨f, hs, .inl hzero⟩) ht
    | false => rfl
  · cases hnan : f.isNaN with
    | true => exact absurd (hf.mono fun _ hs => ⟨f, hs, .inr hnan⟩) ht
    | false => rfl

theorem F64.exactAt (f : F64) (hzero : f.isZero = false) : ExactAt F64.eq f := by
  intro g hfg
  simp only [F64.eq, hzero, Bool.false_and, Bool.or_false, Bool.and_eq_true, beq_iff_eq] at hfg
  obtain ⟨bits⟩ := f
  obtain ⟨bits'⟩ := g
  exact congrArg F64.mk hfg.2

/-- **Only the type itself is equal to it**, and it is. -/
theorem Definite.eq_iff {t : LuaType} (ht : Definite t) (s : LuaType) : t.eq s = true ↔ t = s := by
  constructor
  · exact lawAt .exact t (fun f hf => F64.exactAt f (ht.float f hf).1) s
  · rintro rfl
    refine (eq_self_iff t).2 fun hnan => ht (hnan.mono fun s hs => ?_)
    cases s with
    | FloatConst f => exact ⟨f, rfl, .inr hs⟩
    | _ => cases hs

end LuaType

end GluaLs.Types
