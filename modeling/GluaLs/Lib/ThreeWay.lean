/-
  GluaLs.Lib.ThreeWay — three-way merges of one value.

  Two writers start from `before`; one left `now`, the other `value`.  `threeWay` says what
  stands once the second writer's change is taken in, and whether the two changes clash: an
  unchanged side gives way to the other, and only two changes need `merge`, without which the
  later one wins.

  A merge COMPOSES (`Composes`) when taking a change in is the action of that change on any
  value, and actions of changes from the same start commute.  Then no change clashes with
  another, and any number of them can be taken in in any order (`threeWayFold_perm`).
-/
import Mathlib.Data.List.Perm.Basic

namespace GluaLs.Lib

variable {α ε : Type} [DecidableEq α]

/-! ## §1. One change -/

/-- What stands after the change from `before` to `value` is taken into `now`, and whether it
    clashed. -/
def threeWay (merge : Option (α → α → α → Except ε α)) (before now value : α) : α × Bool :=
  if value = before then (now, false)
  else if now = before then (value, false)
  else
    match merge with
    | some merge =>
      match merge now before value with
      | .ok merged => (merged, false)
      | .error _ => (value, decide (now ≠ value))
    | none => if now = value then (now, false) else (value, true)

theorem threeWay_unchanged (merge : Option (α → α → α → Except ε α)) (before now : α) :
    threeWay merge before now before = (now, false) :=
  if_pos rfl

theorem threeWay_start (merge : Option (α → α → α → Except ε α)) (before value : α) :
    threeWay merge before before value = (value, false) := by
  unfold threeWay
  by_cases h : value = before
  · rw [if_pos h, h]
  · rw [if_neg h, if_pos rfl]

/-- Without a merge the later change wins. -/
theorem threeWay_none_fst (before now value : α) :
    (threeWay (none : Option (α → α → α → Except ε α)) before now value).1
      = if value = before then now else value := by
  unfold threeWay
  split_ifs <;> simp_all

/-- Without a merge two changes clash when they differ. -/
theorem threeWay_none_snd (before now value : α) :
    (threeWay (none : Option (α → α → α → Except ε α)) before now value).2 = true ↔
      value ≠ before ∧ now ≠ before ∧ now ≠ value := by
  unfold threeWay
  split_ifs <;> simp_all

/-! ## §2. Several changes, one after another -/

/-- Takes the changes from `before` to each of `values` into `now`, in order. -/
def threeWayFold (merge : Option (α → α → α → Except ε α)) (before now : α) (values : List α) : α :=
  values.foldl (fun now value => (threeWay merge before now value).1) now

@[simp] theorem threeWayFold_cons (merge : Option (α → α → α → Except ε α)) (before now value : α)
    (values : List α) :
    threeWayFold merge before now (value :: values)
      = threeWayFold merge before (threeWay merge before now value).1 values :=
  rfl

/-- Whether the change of the writer `p` clashes somewhere, when the writers' changes to a
    family of values are taken in one writer after another. -/
def Clashes {κ π : Type} (merge : Option (α → α → α → Except ε α)) (before now : κ → α) :
    List (π × (κ → α)) → π → Prop
  | [], _ => False
  | writer :: rest, p =>
    (p = writer.1 ∧ ∃ k, (threeWay merge (before k) (now k) (writer.2 k)).2 = true) ∨
      Clashes merge before (fun k => (threeWay merge (before k) (now k) (writer.2 k)).1) rest p

section

variable {κ π τ : Type} (merge : Option (α → α → α → Except ε α)) (before : κ → α)
  (f : τ → π × (κ → α)) (keep : τ → Bool)

/-- A writer that changed nothing does not count. -/
theorem threeWayFold_filter (k : κ) (l : List τ) :
    ∀ now : α, (∀ e ∈ l, keep e = false → (f e).2 = before) →
      threeWayFold merge (before k) now (((l.filter keep).map f).map fun e => e.2 k)
        = threeWayFold merge (before k) now ((l.map f).map fun e => e.2 k) := by
  induction l with
  | nil => intro now _; rfl
  | cons e l ih =>
    intro now h
    have ih' := fun now => ih now (fun e' he' => h e' (by simp [he']))
    cases hk : keep e with
    | true =>
      rw [List.filter_cons_of_pos hk]
      simp only [List.map_cons, threeWayFold_cons]
      rw [ih']
    | false =>
      rw [List.filter_cons_of_neg (by simp [hk])]
      simp only [List.map_cons, threeWayFold_cons]
      rw [h e (by simp) hk, threeWay_unchanged, ih']

theorem clashes_filter (p : π) (l : List τ) :
    ∀ now : κ → α, (∀ e ∈ l, keep e = false → (f e).2 = before) →
      (Clashes merge before now ((l.filter keep).map f) p ↔
        Clashes merge before now (l.map f) p) := by
  induction l with
  | nil => intro now _; rfl
  | cons e l ih =>
    intro now h
    have ih' := fun now => ih now (fun e' he' => h e' (by simp [he']))
    cases hk : keep e with
    | true =>
      rw [List.filter_cons_of_pos hk]
      exact or_congr_right (ih' _)
    | false =>
      rw [List.filter_cons_of_neg (by simp [hk]), ih']
      have he := h e (by simp) hk
      simp [Clashes, he, threeWay_unchanged]

end

/-! ## §3. Merges that compose -/

/-- A merge composes on the values that are `Valid`: read through `read`, taking in the change
    from `before` to `value` is `act before value`, which does nothing when nothing changed,
    leads from `before` to `value`, and commutes with every other change from `before`. -/
structure Composes {ρ : Type} (merge : α → α → α → Except ε α) (Valid : α → Prop) (read : α → ρ)
    (act : ρ → ρ → ρ → ρ) : Prop where
  ok : ∀ now before value, Valid now → Valid before → Valid value →
    ∃ merged, merge now before value = .ok merged ∧ Valid merged ∧
      read merged = act (read before) (read value) (read now)
  inj : ∀ x y, Valid x → Valid y → read x = read y → x = y
  unchanged : ∀ b n, act b b n = n
  start : ∀ b v, act b v b = v
  comm : ∀ b v u n, act b v (act b u n) = act b u (act b v n)

section

variable {ρ : Type} {merge : α → α → α → Except ε α} {Valid : α → Prop} {read : α → ρ}
  {act : ρ → ρ → ρ → ρ}

/-- Whichever way `threeWay` goes, it is the action of the change, and nothing clashes. -/
theorem Composes.threeWay (h : Composes merge Valid read act) {before now value : α}
    (hb : Valid before) (hn : Valid now) (hv : Valid value) :
    Valid (threeWay (some merge) before now value).1 ∧
    read (threeWay (some merge) before now value).1 = act (read before) (read value) (read now) ∧
    (threeWay (some merge) before now value).2 = false := by
  by_cases hunch : value = before
  · subst hunch
    rw [threeWay_unchanged]
    exact ⟨hn, (h.unchanged _ _).symm, rfl⟩
  · by_cases hstart : now = before
    · subst hstart
      rw [threeWay_start]
      exact ⟨hv, (h.start _ _).symm, rfl⟩
    · obtain ⟨merged, hok, hvalid, hread⟩ := h.ok now before value hn hb hv
      unfold Lib.threeWay
      simp only [if_neg hunch, if_neg hstart, hok]
      exact ⟨hvalid, hread, trivial⟩

theorem Composes.fold (h : Composes merge Valid read act) {before : α} (hb : Valid before)
    (values : List α) : ∀ {now : α}, Valid now → (∀ v ∈ values, Valid v) →
      Valid (threeWayFold (some merge) before now values) ∧
      read (threeWayFold (some merge) before now values)
        = values.foldl (fun n v => act (read before) (read v) n) (read now) := by
  induction values with
  | nil => intro now hn _; exact ⟨hn, rfl⟩
  | cons v values ih =>
    intro now hn hv
    obtain ⟨hvalid, hread, -⟩ := h.threeWay hb hn (hv v (by simp))
    obtain ⟨hvalid', hread'⟩ := ih hvalid (fun u hu => hv u (by simp [hu]))
    rw [threeWayFold_cons, List.foldl_cons, hread', hread]
    exact ⟨hvalid', rfl⟩

/-- **The order of the changes does not matter.** -/
theorem threeWayFold_perm (h : Composes merge Valid read act) {before now : α}
    (hb : Valid before) (hn : Valid now) {values values' : List α} (hp : values.Perm values')
    (hv : ∀ v ∈ values, Valid v) :
    threeWayFold (some merge) before now values = threeWayFold (some merge) before now values' := by
  obtain ⟨hvalid, hread⟩ := h.fold hb values hn hv
  obtain ⟨hvalid', hread'⟩ := h.fold hb values' hn (fun v hv' => hv v (hp.mem_iff.2 hv'))
  refine h.inj _ _ hvalid hvalid' ?_
  rw [hread, hread']
  exact hp.foldl_eq' (fun x _ y _ n => h.comm _ _ _ _) (read now)

/-- **No change clashes.** -/
theorem Composes.not_clashes {κ π : Type} (h : Composes merge Valid read act) {before : κ → α}
    (hb : ∀ k, Valid (before k)) (p : π) (l : List (π × (κ → α))) :
    ∀ {now : κ → α}, (∀ k, Valid (now k)) → (∀ e ∈ l, ∀ k, Valid (e.2 k)) →
      ¬ Clashes (some merge) before now l p := by
  induction l with
  | nil => intro now _ _ hcl; exact hcl
  | cons e l ih =>
    intro now hn hv hcl
    have hstep := fun k => h.threeWay (hb k) (hn k) (hv e (by simp) k)
    rcases hcl with ⟨-, k, hk⟩ | hcl
    · rw [(hstep k).2.2] at hk
      cases hk
    · exact ih (fun k => (hstep k).1) (fun e' he' => hv e' (by simp [he'])) hcl

end

end GluaLs.Lib
