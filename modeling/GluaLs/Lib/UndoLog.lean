/-
  GluaLs.Lib.UndoLog — maps whose first changes are logged.

  A log keeps, for each key touched since it was opened, what the map held there then:
  nothing, or a value.  A key is CAPTURED before its first change; from then on the map may
  change there at will.  What the map held when the log was opened (`before`) is read off the
  log where a key is captured and off the map elsewhere:

    • `before_capture`, `before_of_captured` — neither capturing a key nor changing the map at a
      captured one changes it,
    • `lookup_restore` — putting the log's values back gives it.

  A value may be captured in another form than it is held in (`prepare`), and a value held may
  carry a log of its own: `before` reads the two through two functions.
-/
import GluaLs.Lib.FiniteMap

namespace GluaLs.Lib

variable {K V W : Type} [DecidableEq K]

/-! ## §1. Changing a map in place -/

/-- `if let Some(v) = s.get_mut(k) { f(v) }` -/
def modify (s : HashMap K V) (k : K) (f : V → V) : HashMap K V :=
  match s.lookup k with
  | some v => s.insert k (f v)
  | none => s

theorem lookup_modify (s : HashMap K V) (k k' : K) (f : V → V) :
    (modify s k f).lookup k' = if k' = k then (s.lookup k).map f else s.lookup k' := by
  unfold modify
  cases hk : s.lookup k with
  | some v =>
    show (s.insert k (f v)).lookup k' = _
    rw [lookup_insert_ite]
    rfl
  | none =>
    show s.lookup k' = _
    split_ifs with heq
    · rw [heq]
      exact hk
    · rfl

/-- A change that does nothing more the second time, made at every listed key. -/
theorem lookup_foldl_modify (f : V → V) (hf : ∀ v, f (f v) = f v) (keys : List K) :
    ∀ (s : HashMap K V) (k : K), (keys.foldl (fun s k => modify s k f) s).lookup k =
      if k ∈ keys then (s.lookup k).map f else s.lookup k := by
  induction keys with
  | nil => exact fun s k => (if_neg List.not_mem_nil).symm
  | cons key keys ih =>
    intro s k
    rw [List.foldl_cons, ih, lookup_modify]
    by_cases hk : k = key
    · subst hk
      rw [if_pos rfl, if_pos List.mem_cons_self]
      split_ifs with hmem
      · rw [Option.map_map]
        congr 1
        exact funext hf
      · rfl
    · rw [if_neg hk]
      by_cases hmem : k ∈ keys
      · rw [if_pos hmem, if_pos (List.mem_cons_of_mem _ hmem)]
      · rw [if_neg hmem, if_neg (List.not_mem_cons_of_ne_of_not_mem hk hmem)]

theorem lookup_insert_update (s : HashMap K V) (k : K) (v : V) :
    (s.insert k v).lookup = Function.update s.lookup k (some v) := by
  funext k'
  rw [lookup_insert_ite, Function.update_apply]

theorem lookup_erase_update (s : HashMap K V) (k : K) :
    (s.erase k).lookup = Function.update s.lookup k none := by
  funext k'
  rw [lookup_erase_ite, Function.update_apply]

/-! ## §2. The log -/

/-- What a map held, at the keys changed since. -/
abbrev UndoLog (K V : Type) : Type := HashMap K (Option V)

/-- Logs what is held under a key, unless it was logged before. -/
def capture (prepare : V → V) (s : HashMap K V) (log : UndoLog K V) (k : K) : UndoLog K V :=
  match log.lookup k with
  | some _ => log
  | none => log.insert k ((s.lookup k).map prepare)

/-- Puts back what the log kept. -/
def restore (s : HashMap K V) (log : UndoLog K V) : HashMap K V :=
  log.entries.foldl (fun s entry =>
    match entry.2 with
    | some old => (s.erase entry.1).insert entry.1 old
    | none => s.erase entry.1) s

/-- What the map held when the log was opened, read through `old` where it is logged and
    through `live` where it is still held. -/
def before (old live : V → W) (s : HashMap K V) (log : UndoLog K V) (k : K) : Option W :=
  match log.lookup k with
  | some kept => kept.map old
  | none => (s.lookup k).map live

theorem lookup_capture (prepare : V → V) (s : HashMap K V) (log : UndoLog K V) (k k' : K) :
    (capture prepare s log k).lookup k' =
      if k' = k then some ((log.lookup k).getD ((s.lookup k).map prepare)) else log.lookup k' := by
  unfold capture
  cases hk : log.lookup k with
  | some kept =>
    show log.lookup k' = _
    split_ifs with heq
    · rw [heq]
      exact hk
    · rfl
  | none =>
    show (log.insert k _).lookup k' = _
    rw [lookup_insert_ite]
    rfl

theorem captured_capture (prepare : V → V) (s : HashMap K V) (log : UndoLog K V) (k : K) :
    (capture prepare s log k).lookup k ≠ none := by
  rw [lookup_capture, if_pos rfl]
  exact Option.some_ne_none _

/-- What was captured stays captured, as it is. -/
theorem lookup_capture_of_some {prepare : V → V} {s : HashMap K V} {log : UndoLog K V} {k k' : K}
    {kept : Option V} (h : log.lookup k' = some kept) :
    (capture prepare s log k).lookup k' = some kept := by
  rw [lookup_capture]
  split_ifs with heq
  · rw [← heq, h]
    rfl
  · exact h

theorem lookup_of_capture_none {prepare : V → V} {s : HashMap K V} {log : UndoLog K V} {k k' : K}
    (h : (capture prepare s log k).lookup k' = none) : log.lookup k' = none := by
  cases hk : log.lookup k' with
  | none => rfl
  | some kept => rw [lookup_capture_of_some hk] at h; cases h

/-- **Capturing a key** keeps what the map held before, if values are logged in a form that
    reads as they do when held. -/
theorem before_capture (old live : V → W) (prepare : V → V)
    (hprepare : ∀ v, old (prepare v) = live v) (s : HashMap K V) (log : UndoLog K V) (k : K) :
    before old live s (capture prepare s log k) = before old live s log := by
  funext k'
  unfold before
  rw [lookup_capture]
  by_cases hk' : k' = k
  · subst hk'
    rw [if_pos rfl]
    cases hlog : log.lookup k' with
    | some kept => rfl
    | none =>
      show ((s.lookup k').map prepare).map old = (s.lookup k').map live
      rw [Option.map_map]
      congr 1
      exact funext hprepare
  · rw [if_neg hk']

/-- **Changing the map where it is captured** keeps what it held before. -/
theorem before_of_captured (old live : V → W) {s s' : HashMap K V} {log : UndoLog K V}
    (h : ∀ k, log.lookup k = none → s'.lookup k = s.lookup k) :
    before old live s' log = before old live s log := by
  funext k
  unfold before
  cases hlog : log.lookup k with
  | some kept => rfl
  | none => rw [h k hlog]

/-- **Putting the log back.** -/
theorem lookup_restore (s : HashMap K V) (log : UndoLog K V) (k : K) :
    (restore s log).lookup k = (log.lookup k).getD (s.lookup k) := by
  have hall : ∀ entries : List (Sigma fun _ : K => Option V), entries.NodupKeys →
      ∀ s : HashMap K V,
      (entries.foldl (fun s entry =>
        match entry.2 with
        | some old => (s.erase entry.1).insert entry.1 old
        | none => s.erase entry.1) s).lookup k = (entries.dlookup k).getD (s.lookup k) := by
    intro entries
    induction entries with
    | nil => exact fun _ s => rfl
    | cons entry entries ih =>
      intro hnodup s
      obtain ⟨hnew, hrest⟩ := List.nodupKeys_cons.1 hnodup
      obtain ⟨key, old⟩ := entry
      rw [List.foldl_cons, ih hrest]
      by_cases heq : k = key
      · subst heq
        have hnone : entries.dlookup k = none := List.dlookup_eq_none.2 hnew
        rw [hnone, List.dlookup_cons_eq]
        cases old with
        | some v => exact AList.lookup_insert _
        | none => exact AList.lookup_erase k s
      · rw [List.dlookup_cons_ne _ _ heq]
        congr 1
        cases old with
        | some v =>
          show ((s.erase key).insert key v).lookup k = _
          rw [AList.lookup_insert_ne heq, AList.lookup_erase_ne heq]
        | none => exact AList.lookup_erase_ne heq
  exact hall log.entries log.nodupKeys s

end GluaLs.Lib
