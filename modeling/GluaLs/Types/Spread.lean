/-
  GluaLs.Types.Spread — the values a spread holds and how many they are
  (`db_index/type/types.rs`, `impl VariadicType`).

  `get_type` gives a spread that is not the last of its list ONE slot, which holds its first
  value; only the last goes on with all it spreads.  `get_min_len` and `get_max_len` add up
  all the values of every spread, so they count what `get_type` never gives wherever a spread
  before the last holds more than one value, or none at its first place.
-/
import Mathlib.Order.Interval.Finset.Nat
import GluaLs.Types.LuaType

namespace GluaLs.Types

namespace VariadicType

/-! ## §1. The four functions -/

mutual

def slotType : LuaType → Option LuaType
  | .Variadic variadic => variadic.getType 0
  | ty => some ty
termination_by structural x => x

def getType : VariadicType → Nat → Option LuaType
  | .Multi types, idx => getTypeIn types idx
  | .Base t, _ => slotType t
termination_by structural x => x

/-- `get_type` along the list: what stands before the last is a slot, the last goes on with
    the offset that is left. -/
def getTypeIn : List LuaType → Nat → Option LuaType
  | [], _ => none
  | [.Variadic variadic], offset => variadic.getType offset
  | [last], 0 => some last
  | [_], _ + 1 => none
  | ty :: _ :: _, 0 => slotType ty
  | _ :: types, idx + 1 => getTypeIn types idx
termination_by structural x => x

end

mutual

def getNewVariadicFrom : VariadicType → Nat → VariadicType
  | .Multi types, idx => newVariadicIn types idx
  | .Base t, _ => .Base t
termination_by structural x => x

/-- `&types[idx..]`; past the end, what is left of a last that spreads. -/
def newVariadicIn : List LuaType → Nat → VariadicType
  | [], _ => .Multi []
  | ty :: types, 0 => .Multi (ty :: types)
  | [.Variadic multi], idx + 1 => multi.getNewVariadicFrom (idx + 1)
  | [_], _ + 1 => .Multi []
  | _ :: types, idx + 1 => newVariadicIn types idx
termination_by structural x => x

end

mutual

def getMinLen : VariadicType → Option Nat
  | .Base _ => none
  | .Multi types => some (minLenOf types)
termination_by structural x => x

/-- The list's values up to the first base. -/
def minLenOf : List LuaType → Nat
  | [] => 0
  | .Variadic variadic :: types =>
    match variadic.getMinLen with
    | some len => len + minLenOf types
    | none => 0
  | _ :: types => 1 + minLenOf types
termination_by structural x => x

end

mutual

def getMaxLen : VariadicType → Option Nat
  | .Base _ => none
  | .Multi types => maxLenOf types
termination_by structural x => x

def maxLenOf : List LuaType → Option Nat
  | [] => some 0
  | .Variadic variadic :: types => do
    let len ← variadic.getMaxLen
    let rest ← maxLenOf types
    some (len + rest)
  | _ :: types => (maxLenOf types).map (1 + ·)
termination_by structural x => x

end

/-- Induction along the spreads inside a spread. -/
@[elab_as_elim]
theorem spreadInduct {P : VariadicType → Prop}
    (base : ∀ t, (∀ v, t = .Variadic v → P v) → P (.Base t)) (nil : P (.Multi []))
    (plain : ∀ t types, (∀ v, t ≠ .Variadic v) → P (.Multi types) → P (.Multi (t :: types)))
    (spread : ∀ v types, P v → P (.Multi types) → P (.Multi (.Variadic v :: types))) :
    ∀ v, P v
  | .Base t => base t fun v _ => spreadInduct base nil plain spread v
  | .Multi [] => nil
  | .Multi (t :: types) => by
    have hrest := spreadInduct base nil plain spread (.Multi types)
    by_cases h : ∃ v, t = .Variadic v
    · obtain ⟨v, rfl⟩ := h
      exact spread v types (spreadInduct base nil plain spread v) hrest
    · exact plain t types (fun v hv => h ⟨v, hv⟩) hrest
termination_by v => sizeOf v
decreasing_by
  all_goals
    simp_all only [VariadicType.Base.sizeOf_spec, VariadicType.Multi.sizeOf_spec,
      LuaType.Variadic.sizeOf_spec, List.cons.sizeOf_spec]
    omega

section

variable {v : VariadicType} {t : LuaType} {types : List LuaType}

theorem slotType_plain (ht : ∀ v, t ≠ .Variadic v) : slotType t = some t := by
  cases t with
  | Variadic v => exact absurd rfl (ht v)
  | _ => rfl

@[simp] theorem getType_last (i : Nat) : (Multi [.Variadic v]).getType i = v.getType i := rfl

theorem getType_last_plain (ht : ∀ v, t ≠ .Variadic v) (i : Nat) :
    (Multi [t]).getType (i + 1) = none := by
  cases t with
  | Variadic v => exact absurd rfl (ht v)
  | _ => rfl

@[simp] theorem getType_zero : (Multi (t :: types)).getType 0 = slotType t := by
  cases types with
  | cons t' types => cases t <;> rfl
  | nil => cases t <;> rfl

@[simp] theorem getType_succ (t' : LuaType) (i : Nat) :
    (Multi (t :: t' :: types)).getType (i + 1) = (Multi (t' :: types)).getType i := by
  cases t <;> rfl

theorem minLenOf_plain (ht : ∀ v, t ≠ .Variadic v) :
    minLenOf (t :: types) = 1 + minLenOf types := by
  cases t with
  | Variadic v => exact absurd rfl (ht v)
  | _ => rfl

theorem getMaxLen_plain (ht : ∀ v, t ≠ .Variadic v) :
    (Multi (t :: types)).getMaxLen = (Multi types).getMaxLen.map (1 + ·) := by
  cases t with
  | Variadic v => exact absurd rfl (ht v)
  | _ => rfl

theorem getMaxLen_spread {n : Nat} (h : (Multi (.Variadic v :: types)).getMaxLen = some n) :
    ∃ c k, v.getMaxLen = some c ∧ (Multi types).getMaxLen = some k ∧ n = c + k := by
  obtain ⟨c, hc, h⟩ := Option.bind_eq_some_iff.1 h
  obtain ⟨k, hk, h⟩ := Option.bind_eq_some_iff.1 h
  exact ⟨c, k, hc, hk, (Option.some.inj h).symm⟩

end

/-- **Slicing moves the index**, whatever is nested where. -/
theorem getType_getNewVariadicFrom (v : VariadicType) (i j : Nat) :
    (v.getNewVariadicFrom i).getType j = v.getType (i + j) := by
  induction v using spreadInduct generalizing i with
  | base t _ => rfl
  | nil => cases i <;> rfl
  | plain t types ht ih =>
    cases i with
    | zero => rw [Nat.zero_add]; rfl
    | succ i =>
      rw [Nat.add_right_comm]
      cases types with
      | nil =>
        rw [getType_last_plain ht]
        cases t with
        | Variadic v => exact absurd rfl (ht v)
        | _ => rfl
      | cons t' types =>
        rw [getType_succ, ← ih]
        cases t <;> rfl
  | spread v types ihv ih =>
    cases i with
    | zero => rw [Nat.zero_add]; rfl
    | succ i =>
      cases types with
      | nil => exact ihv (i + 1)
      | cons t' types =>
        rw [Nat.add_right_comm, getType_succ, ← ih]
        rfl

/-! ## §2. What the functions have to agree on -/

/-- The first position holds a value. -/
inductive HasValue : VariadicType → Prop
  | base (t : LuaType) (ht : ∀ v, t ≠ .Variadic v) : HasValue (.Base t)
  | baseSpread (v : VariadicType) : HasValue v → HasValue (.Base (.Variadic v))
  | plain (t : LuaType) (types : List LuaType) (ht : ∀ v, t ≠ .Variadic v) :
    HasValue (.Multi (t :: types))
  | spread (v : VariadicType) (types : List LuaType) :
    HasValue v → HasValue (.Multi (.Variadic v :: types))

/-- `t` is the base of the spread or of one inside it. -/
inductive HasBase (t : LuaType) : VariadicType → Prop
  | base : HasBase t (.Base t)
  | head (v : VariadicType) (types : List LuaType) :
    HasBase t v → HasBase t (.Multi (.Variadic v :: types))
  | tail (t' : LuaType) (types : List LuaType) :
    HasBase t (.Multi types) → HasBase t (.Multi (t' :: types))

/-- Slicing, indexing and the two lengths describe one list of values. -/
structure Coherent (v : VariadicType) : Prop where
  slice : ∀ i j, (v.getNewVariadicFrom i).getType j = v.getType (i + j)
  exact_ : ∀ n, v.getMaxLen = some n → ∀ i, (v.getType i).isSome ↔ i < n
  repeats : v.getMaxLen = none → (∃ t, HasBase t v ∧ HasValue (.Base t)) →
    ∃ start, ∀ i, start ≤ i → (v.getType i).isSome
  counted : ∀ m, v.getMinLen = some m →
    ∃ positions : Finset Nat, positions.card = m ∧ ∀ i ∈ positions, (v.getType i).isSome

/-- A list of lists that hold no value. -/
inductive Nothing : VariadicType → Prop
  | nil : Nothing (.Multi [])
  | cons (v : VariadicType) (types : List LuaType) :
    Nothing v → Nothing (.Multi types) → Nothing (.Multi (.Variadic v :: types))

/-- One value, at the first position. -/
inductive Single : VariadicType → Prop
  | plain (t : LuaType) (types : List LuaType) (ht : ∀ v, t ≠ .Variadic v) :
    Nothing (.Multi types) → Single (.Multi (t :: types))
  | spread (v : VariadicType) (types : List LuaType) :
    Single v → Nothing (.Multi types) → Single (.Multi (.Variadic v :: types))

/-- Lists without a base, where every spread before the last of a list is of one value, up to
    where no more values come. -/
inductive Ordered : VariadicType → Prop
  | nothing (v : VariadicType) : Nothing v → Ordered v
  | last (v : VariadicType) : Ordered v → Ordered (.Multi [.Variadic v])
  | plain (t : LuaType) (types : List LuaType) (ht : ∀ v, t ≠ .Variadic v) :
    Ordered (.Multi types) → Ordered (.Multi (t :: types))
  | spread (v : VariadicType) (types : List LuaType) :
    Single v → Ordered (.Multi types) → Ordered (.Multi (.Variadic v :: types))

/-- The last spread of the last spread, and so on, is a base that has a value. -/
inductive Repeats : VariadicType → Prop
  | base (t : LuaType) : HasValue (.Base t) → Repeats (.Base t)
  | last (v : VariadicType) : Repeats v → Repeats (.Multi [.Variadic v])
  | cons (t : LuaType) (types : List LuaType) :
    Repeats (.Multi types) → Repeats (.Multi (t :: types))

theorem hasValue_iff (v : VariadicType) : HasValue v ↔ (v.getType 0).isSome := by
  induction v using spreadInduct with
  | base t ih =>
    show _ ↔ (slotType t).isSome
    by_cases ht : ∀ v, t ≠ .Variadic v
    · rw [slotType_plain ht]
      exact ⟨fun _ => rfl, fun _ => .base t ht⟩
    · obtain ⟨v, rfl⟩ := not_forall_not.1 ht
      rw [show slotType (.Variadic v) = v.getType 0 from rfl, ← ih v rfl]
      refine ⟨fun h => ?_, .baseSpread v⟩
      cases h with
      | base _ ht => exact absurd rfl (ht v)
      | baseSpread _ h => exact h
  | nil => exact ⟨nofun, nofun⟩
  | plain t types ht _ =>
    rw [getType_zero, slotType_plain ht]
    exact ⟨fun _ => rfl, fun _ => .plain t types ht⟩
  | spread v types ihv _ =>
    rw [getType_zero, show slotType (.Variadic v) = v.getType 0 from rfl, ← ihv]
    refine ⟨fun h => ?_, .spread v types⟩
    cases h with
    | plain _ _ ht => exact absurd rfl (ht v)
    | spread _ _ h => exact h

instance : DecidablePred HasValue := fun v => decidable_of_iff _ (hasValue_iff v).symm

mutual

/-- How many values the spread lists up to its first base, those of the spreads in it included. -/
def listed : VariadicType → Nat
  | .Base _ => 0
  | .Multi types => listedIn types
termination_by structural x => x

def listedIn : List LuaType → Nat
  | [] => 0
  | .Variadic (.Base _) :: _ => 0
  | .Variadic variadic :: types => variadic.listed + listedIn types
  | _ :: types => 1 + listedIn types
termination_by structural x => x

end

mutual

/-- How many values have a position, where no base has one. -/
def placed : VariadicType → Nat
  | .Base _ => 0
  | .Multi types => placedIn types
termination_by structural x => x

def placedIn : List LuaType → Nat
  | [] => 0
  | [.Variadic variadic] => variadic.placed
  | .Variadic variadic :: types => (if HasValue variadic then 1 else 0) + placedIn types
  | _ :: types => 1 + placedIn types
termination_by structural x => x

end

mutual

/-- How many more values are lost before the first base than stand behind it.  Lost are, of a
    spread before the last, all but the one in its slot. -/
def missing : VariadicType → Int
  | .Base _ => 0
  | .Multi types => missingIn types
termination_by structural x => x

def missingIn : List LuaType → Int
  | [] => 0
  | [.Variadic variadic] => variadic.missing
  | .Variadic (.Base _) :: types => -placedIn types
  | .Variadic variadic :: types =>
    variadic.listed - (if HasValue variadic then 1 else 0) + missingIn types
  | _ :: types => missingIn types
termination_by structural x => x

end

/-- There are bases, none of them has a value, and the values behind the first make up for
    those that are lost before it. -/
structure MadeUp (v : VariadicType) : Prop where
  hasBase : ∃ t, HasBase t v
  bases : ∀ t, HasBase t v → ¬ HasValue (.Base t)
  missing_le : v.missing ≤ 0

/-! ## §3. Where they agree -/

/-- The values of the spread stand at the first `n` positions, and that is its longest length. -/
structure Filled (v : VariadicType) (n : Nat) : Prop where
  slots : ∀ i, (v.getType i).isSome ↔ i < n
  max : v.getMaxLen = some n

theorem filled_nil : Filled (.Multi []) 0 :=
  ⟨fun i => by simp [getType, getTypeIn], rfl⟩

theorem filled_plain {t : LuaType} {types : List LuaType} {n : Nat} (ht : ∀ v, t ≠ .Variadic v)
    (h : Filled (.Multi types) n) : Filled (.Multi (t :: types)) (n + 1) := by
  refine ⟨fun i => ?_, ?_⟩
  · cases i with
    | zero => simp [slotType_plain ht]
    | succ i =>
      cases types with
      | nil =>
        have hn := (h.slots i).symm
        rw [getType_last_plain ht, Nat.add_lt_add_iff_right, hn]
        rfl
      | cons t' types =>
        rw [getType_succ, h.slots i]
        omega
  · rw [getMaxLen_plain ht, h.max, Option.map_some, Nat.add_comm]

/-- A spread of one value, or of none where none follows. -/
theorem filled_spread {v : VariadicType} {types : List LuaType} {k n : Nat} (hv : Filled v k)
    (h : Filled (.Multi types) n) (hk : types = [] ∨ k = 1 ∨ k = 0 ∧ n = 0) :
    Filled (.Multi (.Variadic v :: types)) (k + n) := by
  refine ⟨fun i => ?_, ?_⟩
  · cases types with
    | nil =>
      have hn : n = 0 := Nat.eq_zero_of_not_pos fun hpos => nomatch (h.slots 0).2 hpos
      rw [getType_last, hv.slots i, hn]
      omega
    | cons t' types =>
      have hk := hk.resolve_left (by simp)
      cases i with
      | zero =>
        rw [getType_zero, show slotType (.Variadic v) = v.getType 0 from rfl, hv.slots 0]
        omega
      | succ i =>
        rw [getType_succ, h.slots i]
        omega
  · have hrest : maxLenOf types = some n := h.max
    simp [getMaxLen, maxLenOf, hv.max, hrest]

theorem Nothing.filled {v : VariadicType} (h : Nothing v) : Filled v 0 := by
  induction h with
  | nil => exact filled_nil
  | cons v types _ _ ihv ih => exact filled_spread ihv ih (.inr (.inr ⟨rfl, rfl⟩))

theorem Single.filled {v : VariadicType} (h : Single v) : Filled v 1 := by
  induction h with
  | plain t types ht h => exact filled_plain ht h.filled
  | spread v types _ h ih => exact filled_spread ih h.filled (.inr (.inl rfl))

theorem Ordered.filled {v : VariadicType} (h : Ordered v) : ∃ n, Filled v n := by
  induction h with
  | nothing v h => exact ⟨0, h.filled⟩
  | last v _ ih =>
    obtain ⟨n, hn⟩ := ih
    exact ⟨n, filled_spread hn filled_nil (.inl rfl)⟩
  | plain t types ht _ ih =>
    obtain ⟨n, hn⟩ := ih
    exact ⟨n + 1, filled_plain ht hn⟩
  | spread v types hv _ ih =>
    obtain ⟨n, hn⟩ := ih
    exact ⟨1 + n, filled_spread hv.filled hn (.inr (.inl rfl))⟩

/-- Without a base the two lengths are one. -/
theorem getMinLen_of_getMaxLen (v : VariadicType) (n : Nat) (h : v.getMaxLen = some n) :
    v.getMinLen = some n := by
  induction v using spreadInduct generalizing n with
  | base t _ => exact nomatch h
  | nil => exact h
  | plain t types ht ih =>
    rw [getMaxLen_plain ht] at h
    obtain ⟨m, hm, rfl⟩ := Option.map_eq_some_iff.1 h
    have hlen : minLenOf types = m := Option.some.inj (ih m hm)
    rw [getMinLen, minLenOf_plain ht, hlen]
  | spread v types ihv ih =>
    obtain ⟨c, m, hc, hm, rfl⟩ := getMaxLen_spread h
    have hlen : minLenOf types = m := Option.some.inj (ih m hm)
    simp [getMinLen, minLenOf, ihv c hc, hlen]

theorem Repeats.getType_isSome {v : VariadicType} (h : Repeats v) :
    ∃ start, ∀ i, start ≤ i → (v.getType i).isSome := by
  induction h with
  | base t ht => exact ⟨0, fun i _ => (hasValue_iff (.Base t)).1 ht⟩
  | last v _ ih => exact ih
  | cons t types h ih =>
    obtain ⟨start, hstart⟩ := ih
    refine ⟨start + 1, fun i hi => ?_⟩
    cases types with
    | nil => nomatch h
    | cons t' types =>
      obtain ⟨i, rfl⟩ := Nat.exists_eq_add_of_le' (Nat.le_of_add_left_le hi)
      rw [getType_succ]
      exact hstart i (by omega)

theorem HasBase.getMaxLen_eq {v : VariadicType} {t : LuaType} (h : HasBase t v) :
    v.getMaxLen = none := by
  induction h with
  | base => rfl
  | head v types _ ih => simp [getMaxLen, maxLenOf, ih]
  | tail t' types _ ih =>
    rw [Option.eq_none_iff_forall_ne_some]
    intro n hn
    by_cases ht : ∀ v, t' ≠ .Variadic v
    · rw [getMaxLen_plain ht, ih] at hn
      exact nomatch hn
    · obtain ⟨v, rfl⟩ := not_forall_not.1 ht
      obtain ⟨c, k, -, hk, -⟩ := getMaxLen_spread hn
      rw [ih] at hk
      exact nomatch hk

theorem Repeats.hasBase {v : VariadicType} (h : Repeats v) : ∃ t, HasBase t v := by
  induction h with
  | base t _ => exact ⟨t, .base⟩
  | last v _ ih => exact ih.imp fun t ht => .head v [] ht
  | cons t types _ ih => exact ih.imp fun u hu => .tail t types hu

/-! ## §4. Nowhere else -/

theorem le_getMaxLen (v : VariadicType) : ∀ n k, v.getMaxLen = some n →
    (∀ i, i < k → (v.getType i).isSome) → k ≤ n := by
  induction v using spreadInduct with
  | base t _ => exact nofun
  | nil => exact fun n k _ hk => Nat.le_of_not_lt fun hlt => nomatch hk 0 (Nat.zero_lt_of_lt hlt)
  | plain t types ht ih =>
    intro n k hn hk
    rw [getMaxLen_plain ht] at hn
    obtain ⟨m, hm, hsum⟩ := Option.map_eq_some_iff.1 hn
    cases k with
    | zero => exact Nat.zero_le n
    | succ k =>
      have hle : k ≤ m := by
        cases types with
        | nil =>
          refine Nat.le_of_not_lt fun hlt => ?_
          have hnone := hk 1 (by omega)
          rw [getType_last_plain ht] at hnone
          exact nomatch hnone
        | cons t' types =>
          refine ih m k hm fun i hi => ?_
          rw [← getType_succ]
          exact hk (i + 1) (by omega)
      omega
  | spread v types ihv ih =>
    intro n k hn hk
    obtain ⟨c, m, hc, hm, hsum⟩ := getMaxLen_spread hn
    cases types with
    | nil =>
      have := ihv c k hc hk
      omega
    | cons t' types =>
      cases k with
      | zero => exact Nat.zero_le n
      | succ k =>
        have hone : 1 ≤ c := by
          refine ihv c 1 hc fun i hi => ?_
          rw [Nat.lt_one_iff.1 hi]
          exact hk 0 (by omega)
        have hle : k ≤ m := by
          refine ih m k hm fun i hi => ?_
          rw [← getType_succ]
          exact hk (i + 1) (by omega)
        omega

theorem one_le_getMaxLen {v : VariadicType} {n : Nat} (h : v.getMaxLen = some n)
    (hv : HasValue v) : 1 ≤ n := by
  refine le_getMaxLen v n 1 h fun i hi => ?_
  rw [Nat.lt_one_iff.1 hi]
  exact (hasValue_iff v).1 hv

theorem nothing_of_getMaxLen (v : VariadicType) (h : v.getMaxLen = some 0) : Nothing v := by
  induction v using spreadInduct with
  | base t _ => exact nomatch h
  | nil => exact .nil
  | plain t types ht _ =>
    rw [getMaxLen_plain ht] at h
    obtain ⟨m, -, hsum⟩ := Option.map_eq_some_iff.1 h
    omega
  | spread v types ihv ih =>
    obtain ⟨c, m, hc, hm, hsum⟩ := getMaxLen_spread h
    obtain ⟨rfl, rfl⟩ : c = 0 ∧ m = 0 := by omega
    exact .cons v types (ihv hc) (ih hm)

theorem single_of_getMaxLen (v : VariadicType) (h : v.getMaxLen = some 1) (hv : HasValue v) :
    Single v := by
  induction v using spreadInduct with
  | base t _ => exact nomatch h
  | nil => exact nomatch hv
  | plain t types ht _ =>
    rw [getMaxLen_plain ht] at h
    obtain ⟨m, hm, hsum⟩ := Option.map_eq_some_iff.1 h
    obtain rfl : m = 0 := by omega
    exact .plain t types ht (nothing_of_getMaxLen _ hm)
  | spread v types ihv _ =>
    obtain ⟨c, m, hc, hm, hsum⟩ := getMaxLen_spread h
    cases hv with
    | plain _ _ ht => exact absurd rfl (ht v)
    | spread _ _ hv =>
      have hone := one_le_getMaxLen hc hv
      obtain ⟨rfl, rfl⟩ : c = 1 ∧ m = 0 := by omega
      exact .spread v types (ihv hc hv) (nothing_of_getMaxLen _ hm)

/-- Where the longest length is the number of positions that hold a value. -/
theorem ordered_of_slots (v : VariadicType) : ∀ n, v.getMaxLen = some n →
    (∀ i, (v.getType i).isSome ↔ i < n) → Ordered v := by
  induction v using spreadInduct with
  | base t _ => exact nofun
  | nil => exact fun n _ _ => .nothing _ .nil
  | plain t types ht ih =>
    intro n hn hslots
    rw [getMaxLen_plain ht] at hn
    obtain ⟨m, hm, hsum⟩ := Option.map_eq_some_iff.1 hn
    refine .plain t types ht ?_
    cases types with
    | nil => exact .nothing _ .nil
    | cons t' types =>
      refine ih m hm fun i => ?_
      rw [← getType_succ (t := t), hslots]
      omega
  | spread v types ihv ih =>
    intro n hn hslots
    obtain ⟨c, m, hc, hm, hsum⟩ := getMaxLen_spread hn
    cases types with
    | nil =>
      cases hm
      exact .last v (ihv c hc fun i => by rw [← getType_last, hslots]; omega)
    | cons t' types =>
      have hfirst : HasValue v ↔ 0 < n := (hasValue_iff v).trans (hslots 0)
      have hnext : ∀ i, ((Multi (t' :: types)).getType i).isSome ↔ i + 1 < n := fun i => by
        rw [← getType_succ (t := .Variadic v), hslots]
      by_cases hv : HasValue v
      · -- the rest fills the other positions, so that `v` has but one value
        have hle := le_getMaxLen _ m (n - 1) hm fun i hi => (hnext i).2 (by omega)
        have hone := one_le_getMaxLen hc hv
        obtain ⟨rfl, hmn⟩ : c = 1 ∧ m + 1 = n := by omega
        refine .spread v _ (single_of_getMaxLen v hc hv) (ih m hm fun i => ?_)
        rw [hnext]
        omega
      · have hzero : n = 0 := Nat.eq_zero_of_not_pos fun hpos => hv (hfirst.2 hpos)
        exact .nothing _ (nothing_of_getMaxLen _ (hzero ▸ hn))

theorem hasBase_of_getMaxLen (v : VariadicType) (h : v.getMaxLen = none) : ∃ t, HasBase t v := by
  induction v using spreadInduct with
  | base t _ => exact ⟨t, .base⟩
  | nil => exact nomatch h
  | plain t types ht ih =>
    rw [getMaxLen_plain ht] at h
    obtain ⟨u, hu⟩ := ih (Option.map_eq_none_iff.1 h)
    exact ⟨u, .tail t types hu⟩
  | spread v types ihv ih =>
    cases hc : v.getMaxLen with
    | none =>
      obtain ⟨u, hu⟩ := ihv hc
      exact ⟨u, .head v types hu⟩
    | some c =>
      cases hm : (Multi types).getMaxLen with
      | none =>
        obtain ⟨u, hu⟩ := ih hm
        exact ⟨u, .tail _ types hu⟩
      | some m =>
        have hm' : maxLenOf types = some m := hm
        simp [getMaxLen, maxLenOf, hc, hm'] at h

theorem repeats_of_getType (v : VariadicType) : ∀ start,
    (∀ i, start ≤ i → (v.getType i).isSome) → Repeats v := by
  induction v using spreadInduct with
  | base t _ => exact fun start h => .base t ((hasValue_iff (.Base t)).2 (h start le_rfl))
  | nil => exact fun start h => nomatch h start le_rfl
  | plain t types ht ih =>
    intro start h
    cases types with
    | nil =>
      have hnone := h (start + 1) (by omega)
      rw [getType_last_plain ht] at hnone
      exact nomatch hnone
    | cons t' types =>
      refine .cons t _ (ih start fun i hi => ?_)
      rw [← getType_succ (t := t)]
      exact h (i + 1) (by omega)
  | spread v types ihv ih =>
    intro start h
    cases types with
    | nil => exact .last v (ihv start h)
    | cons t' types =>
      refine .cons _ _ (ih start fun i hi => ?_)
      rw [← getType_succ (t := .Variadic v)]
      exact h (i + 1) (by omega)

/-! ## §5. Bases without a value -/

section

variable {v : VariadicType} {t : LuaType} {types : List LuaType}

theorem placed_plain (ht : ∀ v, t ≠ .Variadic v) :
    (Multi (t :: types)).placed = 1 + (Multi types).placed := by
  cases t with
  | Variadic v => exact absurd rfl (ht v)
  | _ => rfl

theorem placed_spread (t' : LuaType) : (Multi (.Variadic v :: t' :: types)).placed
    = (if HasValue v then 1 else 0) + (Multi (t' :: types)).placed := rfl

theorem minLenOf_eq : ∀ types, minLenOf types = listedIn types
  | [] => rfl
  | t :: types => by
    by_cases ht : ∀ v, t ≠ .Variadic v
    · rw [minLenOf_plain ht, minLenOf_eq types]
      cases t with
      | Variadic v => exact absurd rfl (ht v)
      | _ => rfl
    · obtain ⟨v, rfl⟩ := not_forall_not.1 ht
      cases v with
      | Base t => rfl
      | Multi inner =>
        show minLenOf inner + minLenOf types = listedIn inner + listedIn types
        rw [minLenOf_eq inner, minLenOf_eq types]

end

/-- What is listed and has no position is missing. -/
theorem listed_eq (v : VariadicType) (hbases : ∀ t, HasBase t v → ¬ HasValue (.Base t)) :
    (v.listed : Int) = v.placed + v.missing := by
  induction v using spreadInduct with
  | base t _ => rfl
  | nil => rfl
  | plain t types ht ih =>
    have hrest := ih fun u hu => hbases u (.tail t types hu)
    have hlen : minLenOf (t :: types) = _ := minLenOf_plain ht
    rw [minLenOf_eq, minLenOf_eq] at hlen
    have hmissing : missingIn (t :: types) = missingIn types := by
      cases t with
      | Variadic v => exact absurd rfl (ht v)
      | _ => rfl
    have hplaced : (Multi (t :: types)).placed = _ := placed_plain ht
    simp only [listed, missing, placed] at hrest hplaced ⊢
    omega
  | spread v types ihv ih =>
    have hrest := ih fun u hu => hbases u (.tail _ types hu)
    have hfirst := ihv fun u hu => hbases u (.head v types hu)
    cases types with
    | nil =>
      cases v with
      | Base t => rfl
      | Multi inner => exact hfirst
    | cons t' types =>
      rw [placed_spread]
      cases v with
      | Base t =>
        rw [if_neg (hbases t (.head _ _ .base)), Nat.zero_add]
        exact (Int.add_right_neg _).symm
      | Multi inner =>
        show (((Multi inner).listed + (Multi (t' :: types)).listed : Nat) : Int) = _
          + ((Multi inner).listed - (if HasValue (Multi inner) then 1 else 0)
            + (Multi (t' :: types)).missing)
        split <;> omega

/-- The positions one further on, and the first if it holds a value. -/
theorem exists_shifted (positions : Finset Nat) (first : Bool) :
    ∃ shifted : Finset Nat, shifted.card = (if first then 1 else 0) + positions.card ∧
      (0 ∈ shifted ↔ first) ∧ ∀ i, i + 1 ∈ shifted ↔ i ∈ positions := by
  let next := positions.map ⟨Nat.succ, Nat.succ_injective⟩
  cases first with
  | false => exact ⟨next, by simp [next], by simp [next], by simp [next]⟩
  | true => exact ⟨insert 0 next, by simp [next, Nat.add_comm], by simp, by simp [next]⟩

/-- As many positions hold a value as values are placed. -/
theorem exists_positions (v : VariadicType) (hbases : ∀ t, HasBase t v → ¬ HasValue (.Base t)) :
    ∃ positions : Finset Nat, positions.card = v.placed ∧
      ∀ i, (v.getType i).isSome ↔ i ∈ positions := by
  induction v using spreadInduct with
  | base t _ =>
    refine ⟨∅, rfl, fun i => ?_⟩
    rw [show (Base t).getType i = (Base t).getType 0 from rfl, ← hasValue_iff]
    simp [hbases t .base]
  | nil => exact ⟨∅, rfl, fun i => by simp [getType, getTypeIn]⟩
  | plain t types ht ih =>
    obtain ⟨positions, hcard, hmem⟩ := ih fun u hu => hbases u (.tail t types hu)
    obtain ⟨shifted, hsum, hzero, hsucc⟩ := exists_shifted positions true
    refine ⟨shifted, by rw [hsum, hcard, placed_plain ht]; rfl, fun i => ?_⟩
    cases i with
    | zero => simp [slotType_plain ht, hzero]
    | succ i =>
      rw [hsucc, ← hmem]
      cases types with
      | nil =>
        rw [getType_last_plain ht]
        rfl
      | cons t' types => rw [getType_succ]
  | spread v types ihv ih =>
    cases types with
    | nil => exact ihv fun u hu => hbases u (.head v [] hu)
    | cons t' types =>
      obtain ⟨positions, hcard, hmem⟩ := ih fun u hu => hbases u (.tail _ _ hu)
      obtain ⟨shifted, hsum, hzero, hsucc⟩ := exists_shifted positions (HasValue v)
      refine ⟨shifted, by simp [hsum, hcard, placed_spread], fun i => ?_⟩
      cases i with
      | zero => exact (hasValue_iff v).symm.trans (by simp [hzero])
      | succ i => rw [getType_succ, hsucc, hmem]

/-- Where no base has a value, the lengths are right as long as nothing is missing. -/
theorem counted_iff (v : VariadicType) (hbases : ∀ t, HasBase t v → ¬ HasValue (.Base t)) :
    (∀ m, v.getMinLen = some m →
      ∃ positions : Finset Nat, positions.card = m ∧ ∀ i ∈ positions, (v.getType i).isSome) ↔
    v.missing ≤ 0 := by
  obtain ⟨positions, hcard, hmem⟩ := exists_positions v hbases
  have hsum := listed_eq v hbases
  cases v with
  | Base t => exact ⟨fun _ => Int.le_refl 0, nofun⟩
  | Multi types =>
    have hlen : (Multi types).getMinLen = some (Multi types).listed := by
      rw [getMinLen, minLenOf_eq, listed]
    constructor
    · intro h
      obtain ⟨found, hfound, hvalues⟩ := h _ hlen
      have hsub : found ⊆ positions := fun i hi => (hmem i).1 (hvalues i hi)
      have hle := Finset.card_le_card hsub
      omega
    · intro h m hm
      rw [hlen] at hm
      obtain rfl := Option.some.inj hm
      obtain ⟨found, hsub, hfound⟩ :=
        Finset.exists_subset_card_eq (show (Multi types).listed ≤ positions.card by omega)
      exact ⟨found, hfound, fun i hi => (hmem i).2 (hsub hi)⟩

/-! ## §6. Exactly where they agree -/

theorem Repeats.coherent {v : VariadicType} (h : Repeats v) : Coherent v := by
  obtain ⟨t, ht⟩ := h.hasBase
  obtain ⟨start, hstart⟩ := h.getType_isSome
  refine ⟨getType_getNewVariadicFrom v, ?_, fun _ _ => ⟨start, hstart⟩, ?_⟩
  · intro n hn
    rw [ht.getMaxLen_eq] at hn
    exact nomatch hn
  · intro m _
    refine ⟨Finset.Ico start (start + m), by simp, fun i hi => ?_⟩
    exact hstart i (Finset.mem_Ico.1 hi).1

theorem Ordered.coherent {v : VariadicType} (h : Ordered v) : Coherent v := by
  obtain ⟨n, hn⟩ := h.filled
  refine ⟨getType_getNewVariadicFrom v, ?_, ?_, ?_⟩
  · intro m hm
    obtain rfl := Option.some.inj (hn.max.symm.trans hm)
    exact hn.slots
  · intro hnone
    rw [hn.max] at hnone
    exact nomatch hnone
  · intro m hm
    obtain rfl := Option.some.inj ((getMinLen_of_getMaxLen v n hn.max).symm.trans hm)
    exact ⟨Finset.range n, by simp, fun i hi => (hn.slots i).2 (Finset.mem_range.1 hi)⟩

theorem MadeUp.coherent {v : VariadicType} (h : MadeUp v) : Coherent v := by
  obtain ⟨t, ht⟩ := h.hasBase
  refine ⟨getType_getNewVariadicFrom v, ?_, ?_, (counted_iff v h.bases).2 h.missing_le⟩
  · intro n hn
    rw [ht.getMaxLen_eq] at hn
    exact nomatch hn
  · intro _ hbase
    obtain ⟨t, ht, hvalue⟩ := hbase
    exact absurd hvalue (h.bases t ht)

/-- **The lengths and the indices describe one list of values** exactly where the last spread
    repeats a base that has a value, where every spread before the last is of one value, and
    where no base has a value and those behind the first make up for what is lost. -/
theorem coherent_where_ordered (v : VariadicType) :
    (∀ i j, (v.getNewVariadicFrom i).getType j = v.getType (i + j)) ∧
    (Coherent v ↔ Repeats v ∨ Ordered v ∨ MadeUp v) := by
  refine ⟨getType_getNewVariadicFrom v, ?_, ?_⟩
  · intro h
    cases hmax : v.getMaxLen with
    | some n => exact .inr (.inl (ordered_of_slots v n hmax (h.exact_ n hmax)))
    | none =>
      by_cases hvalue : ∃ t, HasBase t v ∧ HasValue (.Base t)
      · obtain ⟨start, hstart⟩ := h.repeats hmax hvalue
        exact .inl (repeats_of_getType v start hstart)
      · have hbases : ∀ t, HasBase t v → ¬ HasValue (.Base t) :=
          fun t ht hv => hvalue ⟨t, ht, hv⟩
        exact .inr (.inr ⟨hasBase_of_getMaxLen v hmax, hbases, (counted_iff v hbases).1 h.counted⟩)
  · rintro (h | h | h)
    · exact h.coherent
    · exact h.coherent
    · exact h.coherent

/-- A spread before the last and one that repeats, lists in lists, and a base of no value
    behind which one stands. -/
theorem coherent_where_ordered_each :
    Coherent (.Multi [.Variadic (.Multi [.String, .Number]), .Variadic (.Base .Number)]) ∧
    Coherent (.Multi [.Variadic (.Multi [.String]), .Variadic (.Multi [.Boolean, .Number])]) ∧
    Coherent (.Multi [.Variadic (.Base (.Variadic (.Multi []))), .Boolean]) := by
  refine ⟨?_, ?_, ?_⟩
  · refine (coherent_where_ordered _).2.2 (.inl ?_)
    exact .cons _ _ (.last _ (.base _ (.base _ (by simp))))
  · refine (coherent_where_ordered _).2.2 (.inr (.inl ?_))
    refine .spread _ _ (.plain _ _ (by simp) .nil) (.last _ ?_)
    exact .plain _ _ (by simp) (.plain _ _ (by simp) (.nothing _ .nil))
  · refine (coherent_where_ordered _).2.2 (.inr (.inr ⟨⟨_, .head _ _ .base⟩, ?_, by decide⟩))
    rintro t (_ | ⟨_, _, ht⟩ | ⟨_, _, ht⟩) hv
    · cases ht
      exact absurd ((hasValue_iff _).1 hv) (by decide)
    · exact nomatch ht

/-- **Two values counted, one given.**  A spread of two before the last makes the list three
    long, though only two of its positions hold a value. -/
theorem spread_before_last_counted_twice : ¬ ∀ v, Coherent v := by
  intro h
  have hthird := (h (.Multi [.Variadic (.Multi [.String, .Number]), .Boolean])).exact_ 3 rfl 2
  exact nomatch hthird.2 (by decide)

end VariadicType

end GluaLs.Types
