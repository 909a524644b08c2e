/-
  GluaLs.Types.SelectCall — the type-level `select` and `unpack`
  (`instantiate_type/instantiate_special_generic.rs`).
-/
import GluaLs.Types.Spread

namespace GluaLs.Types

open LuaType VariadicType

/-! ## §1. The two calls -/

inductive NumOrLen where
  | Num (i : Int)
  | Len
  | LenUnknown

def numOrLen : LuaType → Option NumOrLen
  | .DocIntegerConst i | .IntegerConst i => if i = 0 then none else some (.Num i)
  | .DocStringConst s | .StringConst s => some (if s = "#" then .Len else .LenUnknown)
  | _ => none

def instantiateSelectCall (source index : LuaType) : LuaType :=
  let multiReturn := match source with
    | .Variadic multi => multi
    | _ => .Base source
  match numOrLen index, multiReturn, multiReturn.getMinLen with
  | none, _, _ => .Unknown
  | some (.Num _), .Base _, _ => .Variadic multiReturn
  | some (.Num _), .Multi _, none => source
  | some (.Num i), .Multi _, some totalLen =>
    let start := if i < 0 then totalLen + i else i - 1
    if start < 0 ∨ start ≥ totalLen then source
    else .Variadic (multiReturn.getNewVariadicFrom start.toNat)
  | some .Len, _, some len => .IntegerConst len
  | some .Len, _, none | some .LenUnknown, _, _ => .Integer

/-- The member types under `i`, `i + 1` and on, up to the first key without members. -/
def unpackMembers (union : LuaType → LuaType → LuaType)
    (members : LuaMemberKey → Option (List LuaType)) (i : Int) : Nat → List LuaType
  | 0 => []
  | turns + 1 =>
    match members (.Integer i) with
    | none => []
    | some [] => .Unknown :: unpackMembers union members (i + 1) turns
    | some (typ :: typs) => typs.foldl union typ :: unpackMembers union members (i + 1) turns

/-- `instantiate_unpack_call`, for any union of types and any member map. -/
def instantiateUnpackCall (union : LuaType → LuaType → LuaType)
    (getMemberMap : LuaType → Option (LuaMemberKey → Option (List LuaType)))
    (operands : List LuaType) : LuaType :=
  match operands with
  | [] => .Unknown
  | needUnpackType :: rest =>
    let start : Int := match rest with
      | .DocIntegerConst i :: _ | .IntegerConst i :: _ => i - 1
      | _ => -1
    match needUnpackType with
    | .Tuple types _ =>
      if start > 0 ∧ start.toNat > types.length then .Unknown
      else if start > 0 ∧ start < types.length then .Variadic (.Multi (types.drop start.toNat))
      else .Variadic (.Multi types)
    | .Array base _ => .Variadic (.Base (union base .Nil))
    | .TableGeneric [_, value] => .Variadic (.Base (union value .Nil))
    | .TableGeneric _ | .Unknown | .Any => .Unknown
    | _ =>
      match getMemberMap needUnpackType with
      | none => .Unknown
      | some members => .Variadic (.Multi (unpackMembers union members 1 9))

/-! ## §2. Lists of values -/

/-- A list of plain types that may end in a base or a nested list: the values `fixed`, and
    then `tail` at every position. -/
inductive Listing : List LuaType → List LuaType → Option LuaType → Prop
  | nil : Listing [] [] none
  | base (t : LuaType) (ht : ∀ v, t ≠ .Variadic v) : Listing [.Variadic (.Base t)] [] (some t)
  | nested (types fixed : List LuaType) (tail : Option LuaType) :
    Listing types fixed tail → Listing [.Variadic (.Multi types)] fixed tail
  | plain (t : LuaType) (types fixed : List LuaType) (tail : Option LuaType)
      (ht : ∀ v, t ≠ .Variadic v) :
    Listing types fixed tail → Listing (t :: types) (t :: fixed) tail

section

variable {types fixed : List LuaType} {tail : Option LuaType}

theorem Listing.getType_eq (h : Listing types fixed tail) (i : Nat) :
    (Multi types).getType i = fixed[i]?.or tail := by
  induction h generalizing i with
  | nil => rfl
  | base t ht => exact slotType_plain ht
  | nested types fixed tail _ ih => exact ih i
  | plain t types fixed tail ht _ ih =>
    cases i with
    | zero => rw [getType_zero, slotType_plain ht, List.getElem?_cons_zero, Option.some_or]
    | succ i =>
      rw [List.getElem?_cons_succ, ← ih]
      cases types with
      | nil => exact getType_last_plain ht i
      | cons t' types => exact getType_succ t' i

theorem Listing.minLenOf_eq (h : Listing types fixed tail) : minLenOf types = fixed.length := by
  induction h with
  | nil | base => rfl
  | nested types fixed tail _ ih => exact ih
  | plain t types fixed tail ht _ ih => rw [minLenOf_plain ht, ih, List.length_cons, Nat.add_comm]

theorem listing_values (values : List LuaType) (hvalues : ∀ t ∈ values, ∀ v, t ≠ .Variadic v) :
    Listing values values none := by
  induction values with
  | nil => exact .nil
  | cons t values ih =>
    obtain ⟨ht, hvalues⟩ := List.forall_mem_cons.1 hvalues
    exact .plain t _ _ _ ht (ih hvalues)

/-- `t` denotes the values of `v` from position `i` on. -/
def DenotesFrom (v : VariadicType) (i : Nat) (t : LuaType) : Prop :=
  ∃ w, t = .Variadic w ∧ ∀ j, w.getType j = v.getType (i + j)

theorem denotesFrom_slice (v : VariadicType) (i : Nat) :
    DenotesFrom v i (.Variadic (v.getNewVariadicFrom i)) :=
  ⟨_, rfl, getType_getNewVariadicFrom v i⟩

theorem denotesFrom_self (v : VariadicType) (i : Nat) :
    DenotesFrom v i (.Variadic v) ↔ ∀ j, v.getType j = v.getType (i + j) := by
  simp [DenotesFrom]

theorem select_num (h : Listing types fixed tail) {index : LuaType} {i : Int}
    (hindex : numOrLen index = some (.Num i)) (start : Int)
    (hstart : start = if i < 0 then fixed.length + i else i - 1) :
    instantiateSelectCall (.Variadic (.Multi types)) index =
      if start < 0 ∨ start ≥ fixed.length then .Variadic (.Multi types)
      else .Variadic ((Multi types).getNewVariadicFrom start.toNat) := by
  unfold instantiateSelectCall
  rw [hindex, hstart]
  simp only [getMinLen, h.minLenOf_eq]

/-! ## §3. Where the calls are right -/

/-- **`select` is right at the fixed positions, and past them where all values are the base;
    it counts a base as no value.  `unpack` is right up to the last value.** -/
theorem select_unpack_iff (union : LuaType → LuaType → LuaType)
    (getMemberMap : LuaType → Option (LuaMemberKey → Option (List LuaType)))
    (h : Listing types fixed tail) :
    (∀ i : Nat, 1 ≤ i → (tail = none → i ≤ fixed.length) →
      ∀ index ∈ [LuaType.DocIntegerConst i, .IntegerConst i],
        (DenotesFrom (.Multi types) (i - 1)
            (instantiateSelectCall (.Variadic (.Multi types)) index) ↔
          i ≤ fixed.length ∨ ∀ t ∈ fixed, tail = some t)) ∧
    (tail = none → ∀ i : Nat, 1 ≤ i → i ≤ fixed.length →
      ∀ index ∈ [LuaType.DocIntegerConst (-i), .IntegerConst (-i)],
        DenotesFrom (.Multi types) (fixed.length - i)
          (instantiateSelectCall (.Variadic (.Multi types)) index)) ∧
    (∀ index ∈ [LuaType.DocStringConst "#", .StringConst "#"],
      ((tail = none → instantiateSelectCall (.Variadic (.Multi types)) index =
          .IntegerConst fixed.length) ∧
        (tail ≠ none → ∀ n, instantiateSelectCall (.Variadic (.Multi types)) index ≠
          .IntegerConst n) ↔ tail = none)) ∧
    ∀ (values : List LuaType) (status : LuaTupleStatus) (i : Nat),
      (∀ t ∈ values, ∀ v, t ≠ .Variadic v) → 1 ≤ i → i ≤ values.length + 1 →
      ∀ index ∈ [LuaType.DocIntegerConst i, .IntegerConst i],
        (DenotesFrom (.Multi values) (i - 1)
            (instantiateUnpackCall union getMemberMap [.Tuple values status, index]) ↔
          i ≤ values.length ∨ values = []) := by
  refine ⟨fun i hi htail index hindex => ?_, fun htail i hi hle index hindex => ?_,
    fun index hindex => ?_, fun values status i hvalues hi hle index hindex => ?_⟩
  · have hnum : numOrLen index = some (.Num i) := by
      obtain rfl | rfl := List.mem_pair.1 hindex <;> exact if_neg (by omega)
    rw [select_num h hnum (i - 1 : Nat) (by grind)]
    by_cases hfixed : i ≤ fixed.length
    · rw [if_neg (by omega), Int.toNat_natCast]
      exact iff_of_true (denotesFrom_slice _ _) (.inl hfixed)
    · -- past the fixed values the list itself comes back
      obtain ⟨t, rfl⟩ := Option.ne_none_iff_exists'.1 fun hnone => hfixed (htail hnone)
      rw [if_pos (by omega), denotesFrom_self, or_iff_right hfixed]
      have hpast : ∀ j, fixed[i - 1 + j]? = none := fun j => List.getElem?_eq_none (by omega)
      simp only [h.getType_eq, hpast, Option.none_or]
      refine ⟨fun hall t' ht' => ?_, fun hall j => ?_⟩
      · obtain ⟨j, hj⟩ := List.mem_iff_getElem?.1 ht'
        rw [← hall j, hj, Option.some_or]
      · cases hj : fixed[j]? with
        | none => rfl
        | some t' => rw [hall t' (List.mem_of_getElem? hj), Option.some_or]
  · have hnum : numOrLen index = some (.Num (-i)) := by
      obtain rfl | rfl := List.mem_pair.1 hindex <;> exact if_neg (by omega)
    rw [select_num h hnum (fixed.length - i : Nat) (by grind), if_neg (by omega)]
    exact denotesFrom_slice _ _
  · have hlen : instantiateSelectCall (.Variadic (.Multi types)) index =
        .IntegerConst fixed.length := by
      obtain rfl | rfl := List.mem_pair.1 hindex <;>
        exact congrArg (fun n : Nat => LuaType.IntegerConst n) h.minLenOf_eq
    rw [hlen]
    refine ⟨fun hnone => ?_, fun hnone => ⟨fun _ => rfl, absurd hnone⟩⟩
    by_contra htail
    exact hnone.2 htail _ rfl
  · have hget : ∀ l, l ⊆ values → ∀ j, (Multi l).getType j = l[j]? := fun l hl j => by
      rw [(listing_values l fun t ht => hvalues t (hl ht)).getType_eq, Option.or_none]
    have hcall : instantiateUnpackCall union getMemberMap [.Tuple values status, index] =
        .Variadic (.Multi (if i ≤ values.length then values.drop (i - 1) else values)) := by
      have hstart : ((i : Int) - 1).toNat = i - 1 := by omega
      have hfirst : i = 1 → values.drop (i - 1) = values := fun he => by rw [he]; rfl
      obtain rfl | rfl := List.mem_pair.1 hindex <;>
      · simp only [instantiateUnpackCall, hstart]
        split_ifs <;> grind
    rw [hcall]
    by_cases hlast : i ≤ values.length
    · rw [if_pos hlast]
      refine iff_of_true ⟨_, rfl, fun j => ?_⟩ (.inl hlast)
      rw [hget _ (List.drop_subset _ _), hget _ (List.Subset.refl _), List.getElem?_drop]
    · rw [if_neg hlast, denotesFrom_self, or_iff_right hlast]
      simp only [hget _ (List.Subset.refl _)]
      refine ⟨fun hall => ?_, fun hnil => by simp [hnil]⟩
      rw [← List.length_eq_zero_iff, ← Nat.le_zero, ← List.getElem?_eq_none_iff, hall]
      exact List.getElem?_eq_none (by omega)

end

theorem select_unpack_iff_two :
    DenotesFrom (.Multi [.String, .Number]) 1
      (instantiateSelectCall (.Variadic (.Multi [.String, .Number])) (.DocIntegerConst 2)) :=
  ((select_unpack_iff (fun t _ => t) (fun _ => none)
    (listing_values [.String, .Number] (by simp))).1 2 (by decide)
    (fun _ => by decide) _ (.head _)).2 (.inl (by decide))

/-- The second value of `string, number...` is no string, and a tuple of one has no second. -/
theorem select_past_fixed :
    ¬ DenotesFrom (.Multi [.String, .Variadic (.Base .Number)]) 1
        (instantiateSelectCall (.Variadic (.Multi [.String, .Variadic (.Base .Number)]))
          (.DocIntegerConst 2)) ∧
    ¬ DenotesFrom (.Multi [.String]) 1 (instantiateUnpackCall (fun t _ => t) (fun _ => none)
        [.Tuple [.String] .DocResolve, .DocIntegerConst 2]) :=
  ⟨mt (denotesFrom_self _ 1).1 fun h => (nomatch h 0),
    mt (denotesFrom_self _ 1).1 fun h => (nomatch h 0)⟩

end GluaLs.Types
