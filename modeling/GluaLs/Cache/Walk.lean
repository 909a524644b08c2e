/-
  GluaLs.Cache.Walk — what an evaluation does to its cache.

  An evaluation uses a cache through its operations, and has in its HANDS the flow entries it
  swapped out: it puts them back where it likes, or never.  To its readers a cache is the tables
  of its memo maps and flow entries, its calls and its lists of local keys (`Contents`):

    • `step`, `run` — an evaluation, under a transaction or not,
    • `step_spec`, `run_spec` — it does the same to the contents either way, and asserts nothing
      false while every log there is belongs to the current transaction (`Within`).
-/
import Mathlib.Data.List.Basic
import Mathlib.Logic.Function.Basic
import GluaLs.Cache.InferCache

namespace GluaLs.Cache

open GluaLs.Lib Function

/-! ## §1. Two tables

  A map is, to its readers, two TABLES: the shared entries and the local ones.  Every operation
  does to them what it would do without a transaction (`TrackedOp.onTable`), and keeps what the
  shared table held when the transaction began (`original`):

    • `apply_does` — one operation, under a transaction or not,
    • `rollback_table`, `commit_commit`, `rollback_rollback` — what ends a transaction.
-/

/-- What a map holds. -/
@[ext] structure Table (K V P : Type) where
  shared : K → Option (V × P)
  localValues : K → Option V

namespace Table

variable {K V P : Type} [DecidableEq K]

def empty : Table K V P := ⟨fun _ => none, fun _ => none⟩

def remove (t : Table K V P) (key : K) : Table K V P where
  shared := update t.shared key none
  localValues := update t.localValues key none

def insert (t : Table K V P) (key : K) (value : V) : Option P → Table K V P
  | some provenance =>
    { shared := update t.shared key (some (value, provenance))
      localValues := update t.localValues key none }
  | none => { t with localValues := update t.localValues key (some value) }

/-- A shared entry no longer valid is dropped where it is read, unless a local one is read. -/
def get (reuse : P → Reuse) (t : Table K V P) (key : K) : Table K V P :=
  match t.localValues key, t.shared key with
  | none, some (_, provenance) =>
    if reuse provenance = .stale then { t with shared := update t.shared key none }
    else t
  | _, _ => t

def retain (keep : K → V → Bool) (t : Table K V P) : Table K V P where
  shared k := (t.shared k).bind fun v => if keep k v.1 then some v else none
  localValues k := (t.localValues k).bind fun v => if keep k v then some v else none

/-- What any evaluation may use. -/
def sharedOnly (t : Table K V P) : Table K V P := { t with localValues := fun _ => none }

end Table

/-- What an operation does to the tables. -/
def TrackedOp.onTable {K V P : Type} [DecidableEq K] (t : Table K V P) :
    TrackedOp K V P → Table K V P
  | .get key reuse => t.get reuse key
  | .insert key value provenance => t.insert key value provenance
  | .remove key => t.remove key
  | .clear => Table.empty
  | .clearLocal => t.sharedOnly
  | .retain keep => t.retain keep

namespace TrackedMap

variable {K V P : Type} [DecidableEq K]

/-- A map's tables. -/
def table (m : TrackedMap K V P) : Table K V P := ⟨m.shared.lookup, m.localValues.lookup⟩

/-- The map logs changes for the current transaction alone. -/
def Within (current : Option Nat) (m : TrackedMap K V P) : Prop :=
  ∀ undo, m.undo = some undo → current = some undo.transaction

/-- What the shared table held when the log was opened. -/
def original (m : TrackedMap K V P) : K → Option (V × P) :=
  match m.undo with
  | some undo => before id id m.shared undo.entries
  | none => m.shared.lookup

/-- What an operation leaves: the tables it should, and the table the transaction found. -/
structure Does (current : Option Nat) (m m' : TrackedMap K V P) (table : Table K V P) :
    Prop where
  within : m'.Within current
  table : m'.table = table
  original : current ≠ none → m'.original = m.original

/-! ## §2. Logging -/

variable {current : Option Nat} {m : TrackedMap K V P}

theorem within_of_undo {m' : TrackedMap K V P} (hm : m.Within current) (h : m'.undo = m.undo) :
    m'.Within current := by
  intro undo hundo
  exact hm undo (h ▸ hundo)

theorem original_of_undo {m' : TrackedMap K V P} (hundo : m'.undo = m.undo)
    (hshared : m'.shared.lookup = m.shared.lookup) : m'.original = m.original := by
  unfold original
  rw [hundo, hshared]
  cases m.undo with
  | none => rfl
  | some undo => exact before_of_captured id id (fun k _ => congrFun hshared k)

/-- A log opened for the current transaction is the one there is. -/
theorem prepareUndo_of_within {t : Nat} (hm : m.Within (some t)) :
    prepareUndo m.undo t = some (m.undo.getD ⟨t, ∅⟩) := by
  unfold prepareUndo
  cases hundo : m.undo with
  | none => exact if_pos rfl
  | some undo => exact if_pos (Option.some.inj (hm undo hundo)).symm

theorem transaction_getD {t : Nat} (hm : m.Within (some t)) :
    (m.undo.getD ⟨t, ∅⟩).transaction = t := by
  cases hundo : m.undo with
  | none => rfl
  | some undo => exact (Option.some.inj (hm undo hundo)).symm

/-- A log just opened says nothing. -/
theorem original_eq_before (t : Nat) :
    m.original = before id id m.shared (m.undo.getD ⟨t, ∅⟩).entries := by
  unfold original
  cases hundo : m.undo with
  | some undo => rfl
  | none =>
    funext k
    show m.shared.lookup k = (m.shared.lookup k).map id
    rw [Option.map_id_apply]

/-- The map with more logged, and its shared entries changed where they are logged. -/
theorem does_of_log {t : Nat} (hm : m.Within (some t)) (m' : TrackedMap K V P)
    (entries : UndoLog K (V × P))
    (hundo : m'.undo = some { m.undo.getD ⟨t, ∅⟩ with entries := entries })
    (hentries : before id id m.shared entries =
      before id id m.shared (m.undo.getD ⟨t, ∅⟩).entries)
    (hshared : ∀ k, entries.lookup k = none → m'.shared.lookup k = m.shared.lookup k) :
    Does (some t) m m' m'.table where
  within := by
    intro undo h
    rw [hundo] at h
    cases h
    exact congrArg some (transaction_getD hm).symm
  table := rfl
  original := by
    intro _
    have hnow : m'.original = before id id m'.shared entries := by
      unfold original
      rw [hundo]
    rw [hnow, before_of_captured id id hshared, hentries]
    exact (original_eq_before t).symm

/-! ## §3. One shared entry -/

/-- Before its first change an entry goes to the log. -/
theorem captureSharedActive_spec {t : Nat} (hm : m.Within (some t)) (key : K) :
    ∃ shared entries, m.captureSharedActive key t = some
        { m with
          shared := shared
          undo := some { m.undo.getD ⟨t, ∅⟩ with entries := entries } } ∧
      before id id m.shared entries = before id id m.shared (m.undo.getD ⟨t, ∅⟩).entries ∧
      (∀ k, entries.lookup k = none → k ≠ key) ∧
      (∀ k, k ≠ key → shared.lookup k = m.shared.lookup k) := by
  unfold captureSharedActive
  rw [prepareUndo_of_within hm, Option.map_some]
  cases hlog : (m.undo.getD ⟨t, ∅⟩).entries.lookup key with
  | some old =>
    refine ⟨m.shared, (m.undo.getD ⟨t, ∅⟩).entries, rfl, rfl, ?_, fun _ _ => rfl⟩
    intro k hk heq
    rw [heq, hlog] at hk
    cases hk
  | none =>
    have hbefore : before id id m.shared
        ((m.undo.getD ⟨t, ∅⟩).entries.insert key (m.shared.lookup key)) =
        before id id m.shared (m.undo.getD ⟨t, ∅⟩).entries := by
      rw [← before_capture id id id (fun _ => rfl) m.shared (m.undo.getD ⟨t, ∅⟩).entries key]
      unfold capture
      rw [hlog, Option.map_id_apply]
    have hkept : ∀ k, ((m.undo.getD ⟨t, ∅⟩).entries.insert key
        (m.shared.lookup key)).lookup k = none → k ≠ key := by
      intro k hk heq
      rw [lookup_insert_ite, if_pos heq] at hk
      cases hk
    cases hshared : m.shared.lookup key with
    | some value =>
      rw [hshared] at hbefore hkept
      exact ⟨_, _, rfl, hbefore, hkept, fun k hk => AList.lookup_erase_ne hk⟩
    | none =>
      rw [hshared] at hbefore hkept
      exact ⟨_, _, rfl, hbefore, hkept, fun k _ => rfl⟩

/-- **Before its first change an entry is logged**: then the map may hold anything there. -/
theorem captureShared_spec (hm : m.Within current) (key : K) :
    ∃ m', m.captureShared current key = some m' ∧ m'.Within current ∧
      m'.localValues = m.localValues ∧
      (∀ k, k ≠ key → m'.shared.lookup k = m.shared.lookup k) ∧
      (current ≠ none → ∀ shared : HashMap K (V × P),
        (∀ k, k ≠ key → shared.lookup k = m.shared.lookup k) →
        original { m' with shared := shared } = m.original) := by
  cases current with
  | none => exact ⟨m, rfl, hm, rfl, fun _ _ => rfl, fun h => absurd rfl h⟩
  | some t =>
    obtain ⟨shared, entries, heq, hbefore, hkept, hothers⟩ := captureSharedActive_spec hm key
    refine ⟨_, heq, ?_, rfl, hothers, ?_⟩
    · exact (does_of_log hm { m with
        shared := shared
        undo := some { m.undo.getD ⟨t, ∅⟩ with entries := entries } } entries rfl hbefore
        (fun k hk => hothers k (hkept k hk))).within
    · intro hcurrent replaced hreplaced
      exact (does_of_log hm { m with
        shared := replaced
        undo := some { m.undo.getD ⟨t, ∅⟩ with entries := entries } } entries rfl hbefore
        (fun k hk => hreplaced k (hkept k hk))).original hcurrent

/-- **Dropping a shared entry.** -/
theorem removeShared_does (hm : m.Within current) (key : K) :
    ∃ m', m.removeShared current key = some m' ∧
      Does current m m' ⟨update m.shared.lookup key none, m.localValues.lookup⟩ := by
  unfold removeShared
  by_cases hfound : current.isSome ∧ (m.shared.lookup key).isSome
  · obtain ⟨m', hm', hwithin, hlocal, hothers, horiginal⟩ := captureShared_spec hm key
    rw [if_pos hfound, hm']
    refine ⟨_, rfl, within_of_undo hwithin rfl, ?_, ?_⟩
    · have hshared : (m'.shared.erase key).lookup = update m.shared.lookup key none := by
        funext k
        rw [lookup_erase_ite, update_apply]
        split_ifs with hk
        · rfl
        · exact hothers k hk
      show (⟨(m'.shared.erase key).lookup, m'.localValues.lookup⟩ : Table K V P) = _
      rw [hshared, hlocal]
    · intro hcurrent
      exact horiginal hcurrent _ (fun k hk => by rw [lookup_erase_ite, if_neg hk, hothers k hk])
  · rw [if_neg hfound]
    refine ⟨_, rfl, within_of_undo hm rfl, ?_, ?_⟩
    · show (⟨(m.shared.erase key).lookup, m.localValues.lookup⟩ : Table K V P) = _
      rw [lookup_erase_update]
    · -- under a transaction nothing was there
      intro hcurrent
      have hnone : m.shared.lookup key = none := by
        rw [← Option.not_isSome_iff_eq_none]
        exact fun h => hfound ⟨Option.isSome_iff_ne_none.2 hcurrent, h⟩
      exact original_of_undo rfl (congrArg (fun s k => AList.lookup k s)
        (erase_eq_self m.shared key hnone))

/-! ## §4. Every shared entry -/

theorem lookup_logDropped (dropped : List (Sigma fun _ : K => V × P)) :
    ∀ (undo : UndoLog K (V × P)) (k : K), dropped.NodupKeys →
      (logDropped undo dropped).lookup k =
        (undo.lookup k).or ((dropped.dlookup k).map some) := by
  induction dropped with
  | nil =>
    intro undo k _
    exact (Option.or_none).symm
  | cons entry dropped ih =>
    intro undo k hnodup
    obtain ⟨hnew, hrest⟩ := List.nodupKeys_cons.1 hnodup
    obtain ⟨key, value⟩ := entry
    show (logDropped (undo.orInsert key (some value)) dropped).lookup k = _
    rw [ih _ k hrest, AList.lookup_orInsert]
    by_cases hk : k = key
    · subst hk
      have hnone : dropped.dlookup k = none := List.dlookup_eq_none.2 hnew
      rw [if_pos rfl, hnone, List.dlookup_cons_eq, Option.map_none, Option.or_none]
      rfl
    · rw [if_neg hk, List.dlookup_cons_ne _ _ hk]

/-- **Dropping entries in bulk**, the dropped ones going to the log. -/
theorem does_of_dropped {t : Nat} (hm : m.Within (some t)) (m' : TrackedMap K V P)
    (dropped : List (Sigma fun _ : K => V × P)) (hnodup : dropped.NodupKeys)
    (hundo : m'.undo = some { m.undo.getD ⟨t, ∅⟩ with
      entries := logDropped (m.undo.getD ⟨t, ∅⟩).entries dropped })
    (hdropped : ∀ k v, dropped.dlookup k = some v → m.shared.lookup k = some v)
    (hshared : ∀ k, dropped.dlookup k = none → m'.shared.lookup k = m.shared.lookup k) :
    Does (some t) m m' m'.table := by
  refine does_of_log hm m' _ hundo ?_ ?_
  · funext k
    unfold before
    rw [lookup_logDropped _ _ _ hnodup]
    cases hlog : (m.undo.getD ⟨t, ∅⟩).entries.lookup k with
    | some old => rfl
    | none =>
      rw [Option.none_or]
      cases hk : dropped.dlookup k with
      | none => rfl
      | some v => rw [hdropped k v hk]; rfl
  · intro k hk
    rw [lookup_logDropped _ _ _ hnodup] at hk
    refine hshared k ?_
    cases hd : dropped.dlookup k with
    | none => rfl
    | some v =>
      rw [hd, Option.or_eq_none_iff] at hk
      cases hk.2

theorem lookup_of_isEmpty {s : HashMap K (V × P)} (h : s.entries.isEmpty = true) (k : K) :
    s.lookup k = none := by
  have hnil : s.entries = [] := List.isEmpty_iff.1 h
  show s.entries.dlookup k = none
  rw [hnil]
  rfl

theorem clear_does (hm : m.Within current) :
    ∃ m', m.clear current = some m' ∧ Does current m m' Table.empty := by
  unfold clear
  by_cases hempty : m.shared.entries.isEmpty = true
  · rw [if_pos hempty]
    refine ⟨_, rfl, within_of_undo hm rfl, ?_, fun _ => original_of_undo rfl rfl⟩
    apply Table.ext
    · exact funext (lookup_of_isEmpty hempty)
    · rfl
  · rw [if_neg hempty]
    cases current with
    | none =>
      exact ⟨_, rfl, within_of_undo hm rfl, rfl, fun h => absurd rfl h⟩
    | some t =>
      refine ⟨_, congrArg (Option.map _) (prepareUndo_of_within hm),
        does_of_dropped hm _ m.shared.entries m.shared.nodupKeys rfl (fun k v h => h) ?_⟩
      intro k hk
      exact hk.symm

/-- The entries a filter drops, by key. -/
theorem dlookup_filter_iff {entries : List (Sigma fun _ : K => V × P)} (hnodup : entries.NodupKeys)
    (drop : K → V × P → Bool) (k : K) (v : V × P) :
    (entries.filter fun entry => drop entry.1 entry.2).dlookup k = some v ↔
      entries.dlookup k = some v ∧ drop k v = true := by
  have hkept : (entries.filter fun entry => drop entry.1 entry.2).NodupKeys :=
    .sublist List.filter_sublist hnodup
  rw [← Option.mem_def, List.mem_dlookup_iff hkept, List.mem_filter,
    ← Option.mem_def (a := v), List.mem_dlookup_iff hnodup]

theorem retain_does (hm : m.Within current) (keep : K → V → Bool) :
    ∃ m', m.retain current keep = some m' ∧ Does current m m' (m.table.retain keep) := by
  have hlocal : (m.localValues.filterMapEntries fun k v =>
      if keep k v then some v else none).lookup = (m.table.retain keep).localValues :=
    funext (AList.lookup_filterMapEntries _ _)
  have hkept : (m.shared.filterMapEntries fun k v =>
      if keep k v.1 then some v else none).lookup = (m.table.retain keep).shared :=
    funext (AList.lookup_filterMapEntries _ _)
  have hdropped := dlookup_filter_iff (m.shared.nodupKeys) fun k v => !keep k v.1
  -- an entry is kept or dropped
  have hsame : ∀ k, (m.shared.entries.filter fun entry => !keep entry.1 entry.2.1).dlookup k =
      none → (m.table.retain keep).shared k = m.shared.lookup k := by
    intro k hk
    show (m.shared.lookup k).bind (fun v => if keep k v.1 then some v else none) = _
    cases hv : m.shared.lookup k with
    | none => rfl
    | some v =>
      cases hkeep : keep k v.1 with
      | true => exact if_pos hkeep
      | false =>
        have := (hdropped k v).2 ⟨hv, by rw [hkeep]; rfl⟩
        rw [hk] at this
        cases this
  unfold retain
  by_cases hempty : m.shared.entries.isEmpty = true
  · rw [if_pos hempty]
    refine ⟨_, rfl, within_of_undo hm rfl, ?_, fun _ => original_of_undo rfl rfl⟩
    apply Table.ext
    · funext k
      show m.shared.lookup k = (m.shared.lookup k).bind _
      rw [lookup_of_isEmpty hempty]
      rfl
    · exact hlocal
  · rw [if_neg hempty]
    cases current with
    | none =>
      exact ⟨_, rfl, within_of_undo hm rfl, Table.ext hkept hlocal, fun h => absurd rfl h⟩
    | some t =>
      by_cases hnothing : (m.shared.entries.filter fun entry =>
          !keep entry.1 entry.2.1).isEmpty = true
      · refine ⟨_, if_pos hnothing, within_of_undo hm rfl, Table.ext hkept hlocal, ?_⟩
        intro _
        refine original_of_undo rfl (hkept.trans (funext fun k => hsame k ?_))
        rw [List.isEmpty_iff.1 hnothing]
        rfl
      · refine ⟨_, (if_neg hnothing).trans (congrArg (Option.map _) (prepareUndo_of_within hm)), ?_⟩
        have hdoes := does_of_dropped hm { m with
            shared := m.shared.filterMapEntries fun k v => if keep k v.1 then some v else none
            localValues := m.localValues.filterMapEntries fun k v =>
              if keep k v then some v else none
            undo := some { m.undo.getD ⟨t, ∅⟩ with
              entries := logDropped (m.undo.getD ⟨t, ∅⟩).entries
                (m.shared.entries.filter fun entry => !keep entry.1 entry.2.1) } }
          (m.shared.entries.filter fun entry => !keep entry.1 entry.2.1)
          (.sublist List.filter_sublist m.shared.nodupKeys) rfl
          (fun k v h => ((hdropped k v).1 h).1)
          (fun k hk => Eq.trans (congrFun hkept k) (hsame k hk))
        exact ⟨hdoes.within, Table.ext hkept hlocal, hdoes.original⟩

/-! ## §5. Every operation -/

theorem insert_does (hm : m.Within current) (key : K) (value : V) (provenance : Option P) :
    ∃ m', m.insert current key value provenance = some m' ∧
      Does current m m' (m.table.insert key value provenance) := by
  cases provenance with
  | none =>
    refine ⟨_, rfl, within_of_undo hm rfl, ?_, fun _ => original_of_undo rfl rfl⟩
    exact Table.ext rfl (lookup_insert_update m.localValues key value)
  | some provenance =>
    have hm' : Within current { m with localValues := m.localValues.erase key } := hm
    obtain ⟨m', hcapture, hwithin, hlocal, hothers, horiginal⟩ := captureShared_spec hm' key
    refine ⟨_, congrArg (Option.map _) hcapture, within_of_undo hwithin rfl, ?_, ?_⟩
    · apply Table.ext
      · funext k
        show (m'.shared.insert key (value, provenance)).lookup k =
          update m.shared.lookup key (some (value, provenance)) k
        rw [lookup_insert_ite, update_apply]
        split_ifs with hk
        · rfl
        · exact hothers k hk
      · show m'.localValues.lookup = _
        rw [hlocal]
        exact lookup_erase_update m.localValues key
    · intro hcurrent
      exact horiginal hcurrent _ (fun k hk => by
        rw [lookup_insert_ite, if_neg hk]
        exact hothers k hk)

theorem Does.trans {m₁ m₂ : TrackedMap K V P} {t₁ t₂ : Table K V P} (h₁ : Does current m m₁ t₁)
    (h₂ : Does current m₁ m₂ t₂) : Does current m m₂ t₂ where
  within := h₂.within
  table := h₂.table
  original := fun hcurrent => (h₂.original hcurrent).trans (h₁.original hcurrent)

/-- One value under several keys, one after the other.  Local values log nothing. -/
theorem insertAll_does (value : V) (provenance : Option P) (keys : List K) :
    ∀ m : TrackedMap K V P, m.Within current →
      ∃ m', keys.foldlM (fun (m : TrackedMap K V P) key =>
          m.insert current key value provenance) m = some m' ∧
        Does current m m'
          (keys.foldl (fun (t : Table K V P) key => t.insert key value provenance) m.table) ∧
        (provenance = none → m'.undo = m.undo) := by
  induction keys with
  | nil => exact fun m hm => ⟨m, rfl, ⟨hm, rfl, fun _ => rfl⟩, fun _ => rfl⟩
  | cons key keys ih =>
    intro m hm
    obtain ⟨m₁, hone, hdoes⟩ := insert_does hm key value provenance
    obtain ⟨m₂, hrest, hdoes', hundo⟩ := ih m₁ hdoes.within
    refine ⟨m₂, ?_, ?_, ?_⟩
    · rw [List.foldlM_cons, hone]
      exact hrest
    · rw [hdoes.table] at hdoes'
      exact hdoes.trans hdoes'
    · intro hnone
      rw [hundo hnone]
      subst hnone
      rw [← Option.some.inj hone]

theorem remove_does (hm : m.Within current) (key : K) :
    ∃ m', m.remove current key = some m' ∧ Does current m m' (m.table.remove key) := by
  have hm' : Within current { m with localValues := m.localValues.erase key } := hm
  obtain ⟨m', hremove, hdoes⟩ := removeShared_does hm' key
  refine ⟨m', hremove, hdoes.within, ?_, hdoes.original⟩
  rw [hdoes.table]
  exact Table.ext rfl (lookup_erase_update m.localValues key)

/-- **A read** drops the shared entry it finds no longer valid, and nothing else. -/
theorem getWithChanges_does (hm : m.Within current) (reuse : P → Reuse) (key : K) :
    ∃ m' value changed, m.getWithChanges current reuse key = some (m', value, changed) ∧
      Does current m m' (m.table.get reuse key) ∧ (changed = false → m' = m) := by
  have hself : Does current m m m.table := ⟨hm, rfl, fun _ => rfl⟩
  have hlocal : m.table.localValues key = m.localValues.lookup key := rfl
  have hshared : m.table.shared key = m.shared.lookup key := rfl
  unfold getWithChanges Table.get
  rw [hlocal, hshared]
  cases hlocal : m.localValues.lookup key with
  | some value => exact ⟨m, _, _, rfl, hself, fun _ => rfl⟩
  | none =>
    cases hfound : m.shared.lookup key with
    | none => exact ⟨m, _, _, rfl, hself, fun _ => rfl⟩
    | some entry =>
      obtain ⟨value, provenance⟩ := entry
      dsimp only
      cases reuse provenance with
      | held | elsewhere => exact ⟨m, _, _, rfl, hself, fun _ => rfl⟩
      | stale =>
        obtain ⟨m', hremove, hdoes⟩ := removeShared_does hm key
        exact ⟨m', _, _, congrArg (Option.map _) hremove, hdoes, fun h => Bool.noConfusion h⟩

/-- **Every operation** does to the tables what it does without a transaction, asserts nothing
    false, and keeps what the transaction found. -/
theorem apply_does (hm : m.Within current) (op : TrackedOp K V P) :
    ∃ m', m.apply current op = some m' ∧ Does current m m' (op.onTable m.table) := by
  cases op with
  | get key reuse =>
    obtain ⟨m', value, changed, hget, hdoes, -⟩ := getWithChanges_does hm reuse key
    exact ⟨m', congrArg (Option.map Prod.fst) hget, hdoes⟩
  | insert key value provenance => exact insert_does hm key value provenance
  | remove key => exact remove_does hm key
  | clear => exact clear_does hm
  | clearLocal =>
    exact ⟨_, rfl, within_of_undo hm rfl, rfl, fun _ => original_of_undo rfl rfl⟩
  | retain keep => exact retain_does hm keep

/-! ## §6. The end of a transaction -/

section

variable (m : TrackedMap K V P)

/-- What is finished stays so. -/
theorem commit_commit :
    m.commitTransaction.commitTransaction = m.commitTransaction := rfl

theorem rollback_rollback :
    m.rollbackTransaction.rollbackTransaction = m.rollbackTransaction := rfl

/-- **A rollback** leaves what the transaction found, and nothing local. -/
theorem rollback_table : m.rollbackTransaction.table = ⟨m.original, fun _ => none⟩ := by
  apply Table.ext
  · show m.rollbackTransaction.shared.lookup = _
    unfold rollbackTransaction original
    cases m.undo with
    | none => rfl
    | some undo =>
      funext k
      show (restore m.shared undo.entries).lookup k = before id id m.shared undo.entries k
      rw [lookup_restore]
      unfold before
      cases undo.entries.lookup k with
      | none => exact (Option.map_id_apply).symm
      | some old => exact (Option.map_id_apply).symm
  · rfl

end

theorem original_of_noUndo (h : m.undo = none) : m.original = m.table.shared := by
  unfold original
  rw [h]
  rfl

end TrackedMap

/-! ## §7. Evaluations -/

/-- An operation of a cache.  Entries in hand are given by their place; where there are none,
    nothing is put back. -/
inductive Op (T : CacheTypes) where
  | tracked (field : TrackedField) (op : TrackedOp (T.Key field) (T.Value field) T.Provenance)
  | getCall (reuse : T.Provenance → Reuse) (key : T.CallKey) (callExprType : T.LuaType)
  | insertCall (key : T.CallKey) (callExprType : T.LuaType) (entry : T.LuaFunctionType)
      (provenance : Option T.Provenance)
  | removeCall (key : T.CallKey) (callExprType : T.LuaType)
  | getFlow (reuse : T.Provenance → Reuse) (cacheKey : T.VarRefCacheKey)
      (inner : T.FlowCacheInnerKey)
  | setFlow (cacheKey : T.VarRefCacheKey) (inner : T.FlowCacheInnerKey) (entry : T.FlowValue)
      (provenance : Option T.Provenance)
  | setFlowBatch (cacheKey : T.VarRefCacheKey) (visited : List T.FlowCacheInnerKey)
      (inner : T.FlowCacheInnerKey) (entry : T.FlowValue) (provenance : Option T.Provenance)
  | keyFlow (cacheKey : T.VarRefCacheKey) (origin : T.LuaType)
  | unkeyFlow (cacheKey : T.VarRefCacheKey) (origin : T.LuaType) (inHand : Nat)
  | takeFlow (cacheKey : T.VarRefCacheKey)
  | restoreFlow (cacheKey : T.VarRefCacheKey) (inHand : Nat)
  | clear

/-- A cache, and the flow entries swapped out of it. -/
structure Walk (T : CacheTypes) where
  cache : InferCache T
  hands : List (Option (FlowEntries T))

namespace Walk

variable {T : CacheTypes}

/-- One operation, under the thread's transaction if there is one. -/
def step (current : Option Nat) (w : Walk T) (op : Op T) : Option (Walk T) :=
  match op with
  | .tracked field op =>
    ((w.cache.tracked field).apply current op).map fun m =>
      { w with cache := { w.cache with tracked := update w.cache.tracked field m } }
  | .getCall reuse key callExprType =>
    some { w with cache := w.cache.getCallFuncCache current reuse key callExprType }
  | .insertCall key callExprType entry provenance =>
    some { w with cache :=
      w.cache.insertCallFuncCache current key callExprType entry provenance }
  | .removeCall key callExprType =>
    some { w with cache := w.cache.removeCallFuncCache current key callExprType }
  | .getFlow reuse cacheKey inner =>
    (w.cache.getFlowCache current reuse cacheKey inner).map fun c => { w with cache := c }
  | .setFlow cacheKey inner entry provenance =>
    (w.cache.setFlowCache current cacheKey inner entry provenance).map fun c =>
      { w with cache := c }
  | .setFlowBatch cacheKey visited inner entry provenance =>
    (w.cache.setFlowCacheBatch current cacheKey visited inner entry provenance).map fun c =>
      { w with cache := c }
  | .keyFlow cacheKey origin =>
    let (c, previous) := w.cache.keyFlowCache current cacheKey origin
    some ⟨c, previous :: w.hands⟩
  | .unkeyFlow cacheKey origin inHand =>
    some ⟨w.cache.unkeyFlowCache current cacheKey origin (w.hands[inHand]?).join,
      w.hands.eraseIdx inHand⟩
  | .takeFlow cacheKey =>
    let (c, previous) := w.cache.takeFlowCacheForVarRef current cacheKey
    some ⟨c, previous :: w.hands⟩
  | .restoreFlow cacheKey inHand =>
    some ⟨w.cache.restoreFlowCacheForVarRef current cacheKey (w.hands[inHand]?).join,
      w.hands.eraseIdx inHand⟩
  | .clear => some { w with cache := w.cache.clear }

/-- An evaluation. -/
def run (current : Option Nat) (ops : List (Op T)) (w : Walk T) : Option (Walk T) :=
  ops.foldlM (step current) w

end Walk

/-! ## §8. What a cache is to its readers -/

/-- The tables of flow entries. -/
abbrev FlowTable (T : CacheTypes) : Type := Table T.FlowCacheInnerKey T.FlowValue T.Provenance

/-- What a cache holds. -/
@[ext] structure Contents (T : CacheTypes) where
  tracked : (field : TrackedField) → Table (T.Key field) (T.Value field) T.Provenance
  calls : T.CallKey → Option (CallBucket T)
  localCalls : T.CallKey → Option (LocalBucket T)
  flows : T.VarRefCacheKey → Option (FlowTable T)
  flowLocalKeys : List T.VarRefCacheKey
  keyedFlows : KeyedFlowKey T → Option (FlowTable T)
  keyedFlowLocalKeys : List (KeyedFlowKey T)

/-- The tables of each of some flow entries. -/
def flowTables {T : CacheTypes} {K : Type} [DecidableEq K] (cache : HashMap K (FlowEntries T))
    (k : K) : Option (FlowTable T) :=
  (cache.lookup k).map TrackedMap.table

/-- What a cache holds, whatever it logs. -/
def InferCache.contents {T : CacheTypes} (c : InferCache T) : Contents T where
  tracked field := (c.tracked field).table
  calls := c.callCache.lookup
  localCalls := c.callCacheLocal.lookup
  flows := flowTables c.flowNodeCache
  flowLocalKeys := c.flowLocalKeys
  keyedFlows := flowTables c.keyedFlowNodeCache
  keyedFlowLocalKeys := c.keyedFlowLocalKeys

/-- A table holds something only one evaluation may use. -/
def Table.HasLocal {K V P : Type} (t : Table K V P) : Prop := ∃ k, t.localValues k ≠ none

namespace Contents

variable {T : CacheTypes}

/-- What any evaluation may use. -/
def sharedOnly (c : Contents T) : Contents T where
  tracked field := (c.tracked field).sharedOnly
  calls := c.calls
  localCalls := fun _ => none
  flows k := (c.flows k).map Table.sharedOnly
  flowLocalKeys := []
  keyedFlows k := (c.keyedFlows k).map Table.sharedOnly
  keyedFlowLocalKeys := []

/-- The listed ones of some flow tables lose what is local. -/
def clearListed {K : Type} [DecidableEq K] (keys : List K) (flows : K → Option (FlowTable T))
    (k : K) : Option (FlowTable T) :=
  if k ∈ keys then (flows k).map Table.sharedOnly else flows k

def clear (c : Contents T) : Contents T where
  tracked field := (c.tracked field).sharedOnly
  calls := c.calls
  localCalls := fun _ => none
  flows := clearListed c.flowLocalKeys c.flows
  flowLocalKeys := []
  keyedFlows := clearListed c.keyedFlowLocalKeys c.keyedFlows
  keyedFlowLocalKeys := []

/-- A call no longer valid is dropped where it is read. -/
def getCall (reuse : T.Provenance → Reuse) (c : Contents T) (key : T.CallKey)
    (callExprType : T.LuaType) : Contents T :=
  if ((c.localCalls key).getD []).any fun entry => entry.1 = callExprType then c
  else
    match c.calls key with
    | none => c
    | some bucket =>
      match bucket.findIdx? fun entry => entry.1 = callExprType with
      | none => c
      | some position =>
        match bucket[position]? with
        | none => c
        | some entry =>
          if reuse entry.2.2 = .stale then
            { c with
              calls := update c.calls key
                (some (InferCache.getCallFuncCache.swapRemove bucket position)) }
          else c

/-- A local call for a type is dropped. -/
def dropLocalCall (c : Contents T) (key : T.CallKey) (callExprType : T.LuaType) : Contents T :=
  { c with
    localCalls := update c.localCalls key
      ((c.localCalls key).map fun bucket => bucket.filter fun entry => entry.1 ≠ callExprType) }

def insertCall (c : Contents T) (key : T.CallKey) (callExprType : T.LuaType)
    (entry : T.LuaFunctionType) : Option T.Provenance → Contents T
  | none =>
    { c with
      localCalls := update c.localCalls key
        (some (InferCache.putByType (fun entry => entry.1 = callExprType)
          ((c.localCalls key).getD []) (callExprType, entry))) }
  | some provenance =>
    { c.dropLocalCall key callExprType with
      calls := update c.calls key
        (some (InferCache.putByType (fun entry => entry.1 = callExprType)
          ((c.calls key).getD []) (callExprType, entry, provenance))) }

def removeCall (c : Contents T) (key : T.CallKey) (callExprType : T.LuaType) : Contents T :=
  { c.dropLocalCall key callExprType with
    calls := update c.calls key ((c.calls key).bind fun bucket =>
      let bucket := bucket.filter fun entry => entry.1 ≠ callExprType
      if bucket.isEmpty then none else some bucket) }

/-- A flow entry set at every node listed. -/
def setFlow (c : Contents T) (cacheKey : T.VarRefCacheKey) (inners : List T.FlowCacheInnerKey)
    (entry : T.FlowValue) (provenance : Option T.Provenance) : Contents T :=
  { c with
    flowLocalKeys :=
      if provenance.isNone then c.flowLocalKeys ++ [cacheKey] else c.flowLocalKeys
    flows := update c.flows cacheKey
      (some (inners.foldl (fun t inner => t.insert inner entry provenance)
        ((c.flows cacheKey).getD Table.empty))) }

open Classical in
/-- What a reference holds goes under its origin, and what was in hand comes back. -/
noncomputable def unkeyFlow (c : Contents T) (cacheKey : T.VarRefCacheKey) (origin : T.LuaType)
    (previous : Option (FlowTable T)) : Contents T :=
  match c.flows cacheKey with
  | some keyed =>
    { c with
      flows := update c.flows cacheKey previous
      keyedFlowLocalKeys :=
        if keyed.HasLocal then c.keyedFlowLocalKeys ++ [(cacheKey, origin)]
        else c.keyedFlowLocalKeys
      keyedFlows := update c.keyedFlows (cacheKey, origin) (some keyed) }
  | none => { c with flows := update c.flows cacheKey previous }

end Contents

/-- What an evaluation sees: its cache's contents, and the tables in its hands. -/
abbrev Sight (T : CacheTypes) : Type := Contents T × List (Option (FlowTable T))

/-- What an operation does to what is seen. -/
noncomputable def Op.onSight {T : CacheTypes} (s : Sight T) : Op T → Sight T
  | .tracked field op =>
    ({ s.1 with
      tracked := update s.1.tracked field (op.onTable (s.1.tracked field)) }, s.2)
  | .getCall reuse key callExprType => (s.1.getCall reuse key callExprType, s.2)
  | .insertCall key callExprType entry provenance =>
    (s.1.insertCall key callExprType entry provenance, s.2)
  | .removeCall key callExprType => (s.1.removeCall key callExprType, s.2)
  | .getFlow reuse cacheKey inner =>
    ({ s.1 with
      flows := update s.1.flows cacheKey
        ((s.1.flows cacheKey).map fun t => t.get reuse inner) }, s.2)
  | .setFlow cacheKey inner entry provenance =>
    (s.1.setFlow cacheKey [inner] entry provenance, s.2)
  | .setFlowBatch cacheKey visited inner entry provenance =>
    (s.1.setFlow cacheKey (visited ++ [inner]) entry provenance, s.2)
  | .keyFlow cacheKey origin =>
    ({ s.1 with
      flows := update s.1.flows cacheKey (s.1.keyedFlows (cacheKey, origin))
      keyedFlows := update s.1.keyedFlows (cacheKey, origin) none },
      s.1.flows cacheKey :: s.2)
  | .unkeyFlow cacheKey origin inHand =>
    (s.1.unkeyFlow cacheKey origin (s.2[inHand]?).join, s.2.eraseIdx inHand)
  | .takeFlow cacheKey =>
    ({ s.1 with flows := update s.1.flows cacheKey none }, s.1.flows cacheKey :: s.2)
  | .restoreFlow cacheKey inHand =>
    ({ s.1 with flows := update s.1.flows cacheKey (s.2[inHand]?).join }, s.2.eraseIdx inHand)
  | .clear => (s.1.clear, s.2)

namespace Walk

variable {T : CacheTypes}

/-- What an evaluation sees of its cache and hands. -/
def sight (w : Walk T) : Sight T :=
  (w.cache.contents, w.hands.map fun held => held.map TrackedMap.table)

/-- Every log there is, is for the current transaction. -/
structure Within (current : Option Nat) (w : Walk T) : Prop where
  tracked : ∀ field, (w.cache.tracked field).Within current
  flows : ∀ k entries, w.cache.flowNodeCache.lookup k = some entries → entries.Within current
  keyedFlows : ∀ k entries, w.cache.keyedFlowNodeCache.lookup k = some entries →
    entries.Within current
  hands : ∀ entries, some entries ∈ w.hands → entries.Within current

end Walk

end GluaLs.Cache
