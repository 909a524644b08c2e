/-
  GluaLs.Lib.Program — adaptive programs over a keyed store.

  A program reads keys, goes on as what it read tells it, and writes keys.  Some keys are
  STORED: they hold a value of their own, which a write maps to another.  Every other key
  is a VIEW, computed from the stored ones; a write of a view is announced, not stored.
  A program may also MARK a key: announce it without producing it.  Main results:

    • `run_store` — what a run leaves in a stored key is the old value overlaid by the
      run's writes of that key, in order,
    • `touched_subset` — a program confined to a set of keys writes and marks no other.
-/
import Mathlib.Data.Finset.Basic
import Mathlib.Logic.Function.Basic

namespace GluaLs.Lib

/-- Which keys hold a value of their own, and how the others are read. -/
structure Layout (K V : Type) where
  isStored : K → Bool
  view : K → (K → V) → V

/-- A program that reads adaptively and writes. -/
inductive Program (K V : Type) : Type where
  | done : Program K V
  | read (key : K) (next : V → Program K V) : Program K V
  | write (key : K) (f : V → V) (next : Program K V) : Program K V
  | mark (key : K) (next : Program K V) : Program K V

/-- What a run read, wrote and marked, in order. -/
structure Log (K V : Type) where
  reads : List (K × V)
  writes : List (K × (V → V))
  marks : List K

/-- The keys a run wrote, in order, once per write. -/
def Log.outputs {K V : Type} (log : Log K V) : List K := log.writes.map Prod.fst

/-- A value overlaid by the writes of `key` in `writes`, in order. -/
def overlay {K V : Type} [DecidableEq K] (writes : List (K × (V → V))) (key : K) (v : V) : V :=
  writes.foldl (fun v w => if w.1 = key then w.2 v else v) v

section

variable {K V : Type} [DecidableEq K] (L : Layout K V)

/-! ## §1. Running a program -/

/-- The value a read of `key` sees. -/
def Layout.get (s : K → V) (key : K) : V := if L.isStored key then s key else L.view key s

/-- The store after a write of `key`. -/
def Layout.put (s : K → V) (key : K) (f : V → V) : K → V :=
  if L.isStored key then Function.update s key (f (s key)) else s

namespace Program

/-- Runs a program on `s`. -/
def run : Program K V → (K → V) → (K → V) × Log K V
  | .done, s => (s, ⟨[], [], []⟩)
  | .read key next, s =>
    let r := run (next (L.get s key)) s
    (r.1, { r.2 with reads := (key, L.get s key) :: r.2.reads })
  | .write key f next, s =>
    let r := run next (L.put s key f)
    (r.1, { r.2 with writes := (key, f) :: r.2.writes })
  | .mark key next, s =>
    let r := run next s
    (r.1, { r.2 with marks := key :: r.2.marks })

/-- Every key the program may write or mark, whatever it reads, is in `keys`. -/
def WritesIn (keys : Finset K) : Program K V → Prop
  | .done => True
  | .read _ next => ∀ v, WritesIn keys (next v)
  | .write key _ next => key ∈ keys ∧ WritesIn keys next
  | .mark key next => key ∈ keys ∧ WritesIn keys next

end Program

/-! ## §2. Overlays -/

theorem overlay_cons (w : K × (V → V)) (ws : List (K × (V → V))) (key : K) (v : V) :
    overlay (w :: ws) key v = overlay ws key (if w.1 = key then w.2 v else v) := rfl

theorem overlay_append (ws ws' : List (K × (V → V))) (key : K) (v : V) :
    overlay (ws ++ ws') key v = overlay ws' key (overlay ws key v) :=
  List.foldl_append

/-- Writes of other keys leave a value as it is. -/
theorem overlay_of_not_mem (ws : List (K × (V → V))) (key : K) (v : V)
    (h : ∀ w ∈ ws, w.1 ≠ key) : overlay ws key v = v := by
  induction ws generalizing v with
  | nil => rfl
  | cons w ws ih =>
    have hw : w.1 ≠ key := h w (by simp)
    rw [overlay_cons, if_neg hw]
    apply ih
    intro w' hw'
    exact h w' (by simp [hw'])

/-! ## §3. What a run leaves -/

namespace Program

/-- **A run leaves each stored key its old value overlaid by the run's writes of it.** -/
theorem run_store (p : Program K V) (s : K → V) (key : K) (hs : L.isStored key = true) :
    (p.run L s).1 key = overlay (p.run L s).2.writes key (s key) := by
  induction p generalizing s with
  | done => rfl
  | read key' next ih => exact ih (L.get s key') s
  | mark key' next ih => exact ih s
  | write key' f next ih =>
    show (run L next (L.put s key' f)).1 key
      = overlay ((key', f) :: (run L next (L.put s key' f)).2.writes) key (s key)
    rw [ih, overlay_cons]
    -- the write itself: only its own key moves, and only if it is stored
    by_cases hk : key' = key
    · subst hk
      simp [Layout.put, hs]
    · have hput : L.put s key' f key = s key := by
        unfold Layout.put
        split
        · exact Function.update_of_ne (Ne.symm hk) _ _
        · rfl
      simp [hk, hput]

/-- A program confined to `keys` writes and marks no other key. -/
theorem touched_subset (keys : Finset K) (p : Program K V) (s : K → V) (hp : p.WritesIn keys) :
    ∀ key ∈ (p.run L s).2.outputs ++ (p.run L s).2.marks, key ∈ keys := by
  induction p generalizing s with
  | done => intro key hkey; simp [run, Log.outputs] at hkey
  | read key' next ih => exact ih (L.get s key') s (hp _)
  | mark key' next ih =>
    intro key hkey
    have hcons : key = key' ∨ key ∈ (run L next s).2.outputs ++ (run L next s).2.marks := by
      simp only [run, Log.outputs, List.mem_append, List.mem_cons] at hkey ⊢
      tauto
    cases hcons with
    | inl heq => rw [heq]; exact hp.1
    | inr hrest => exact ih s hp.2 key hrest
  | write key' f next ih =>
    intro key hkey
    have hcons : key = key' ∨ key ∈ (run L next (L.put s key' f)).2.outputs ++
        (run L next (L.put s key' f)).2.marks := by
      simpa [run, Log.outputs] using hkey
    cases hcons with
    | inl heq => rw [heq]; exact hp.1
    | inr hrest => exact ih (L.put s key' f) hp.2 key hrest

end Program

end

end GluaLs.Lib
