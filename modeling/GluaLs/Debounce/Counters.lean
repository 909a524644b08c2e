/-
  GluaLs.Debounce.Counters — what the in-flight counters count.

  `in_flight_documents` counts, for each URI, the changes confined to it that are between
  their begin and their finish.  `in_flight_unscoped` counts the changes that may touch any
  document.  So a document some change is under way for is
  one `has_in_flight_change_for` answers yes for.
-/
import GluaLs.Debounce.Locked
import Mathlib.Algebra.Order.BigOperators.Group.List
import Mathlib.Algebra.Order.Group.Nat

namespace GluaLs.Debounce

open GluaLs.Lib

variable {U : Type} [DecidableEq U]

/-! ## §1. A counter per URI -/

namespace Shared

/-- The count of a URI. -/
def countOf (documents : HashMap U Nat) (uri : U) : Nat := (documents.lookup uri).getD 0

theorem isSome_of_countOf_pos (documents : HashMap U Nat) (uri : U)
    (h : 0 < countOf documents uri) : (documents.lookup uri).isSome = true := by
  unfold countOf at h
  cases hl : documents.lookup uri with
  | none => simp [hl] at h
  | some n => rfl

theorem countOf_countDocument (documents : HashMap U Nat) (uri u : U) :
    countOf (countDocument documents uri) u
      = countOf documents u + if u = uri then 1 else 0 := by
  unfold countOf countDocument
  rw [lookup_insert_ite]
  split_ifs with h
  · rw [h]
    rfl
  · rfl

theorem countOf_uncountDocument (documents : HashMap U Nat) (uri u : U) :
    countOf (uncountDocument documents uri) u
      = countOf documents u - if u = uri then 1 else 0 := by
  unfold countOf uncountDocument
  cases hl : documents.lookup uri with
  | none =>
    split_ifs with h
    · rw [h, hl]
      rfl
    · rfl
  | some pending =>
    simp only
    split_ifs with hzero hu hu
    · rw [lookup_erase_ite, if_pos hu, hu, hl]
      exact hzero.symm
    · rw [lookup_erase_ite, if_neg hu]
      rfl
    · rw [lookup_insert_ite, if_pos hu, hu, hl]
      rfl
    · rw [lookup_insert_ite, if_neg hu]
      rfl

theorem countOf_foldl_countDocument (uris : List U) : ∀ (documents : HashMap U Nat) (u : U),
    countOf (uris.foldl countDocument documents) u = countOf documents u + uris.count u := by
  induction uris with
  | nil =>
    intro documents u
    simp
  | cons uri uris ih =>
    intro documents u
    rw [List.foldl_cons, ih, countOf_countDocument, List.count_cons]
    by_cases h : u = uri
    · simp [h]
      omega
    · simp [h, Ne.symm h]

theorem countOf_foldl_uncountDocument (uris : List U) : ∀ (documents : HashMap U Nat) (u : U),
    countOf (uris.foldl uncountDocument documents) u = countOf documents u - uris.count u := by
  induction uris with
  | nil =>
    intro documents u
    simp
  | cons uri uris ih =>
    intro documents u
    rw [List.foldl_cons, ih, countOf_uncountDocument, List.count_cons]
    by_cases h : u = uri
    · simp [h]
      omega
    · simp [h, Ne.symm h]

end Shared

/-! ## §2. The changes under way -/

/-- A quantity of the tasks, summed. -/
def total (weight : Task → Nat) (tasks : List Task) : Nat := (tasks.map weight).sum

theorem total_append (weight : Task → Nat) (tasks : List Task) (task : Task) :
    total weight (tasks ++ [task]) = total weight tasks + weight task := by
  simp [total]

theorem total_set (weight : Task → Nat) (tasks : List Task) : ∀ (id : Nat) (task task' : Task),
    tasks[id]? = some task →
      total weight (tasks.set id task') + weight task = total weight tasks + weight task' := by
  induction tasks with
  | nil =>
    intro id task task' h
    simp at h
  | cons first rest ih =>
    intro id task task' h
    cases id with
    | zero =>
      have hfirst : first = task := by simpa using h
      simp only [List.set_cons_zero, total, List.map_cons, List.sum_cons, hfirst]
      omega
    | succ id =>
      have hrest := ih id task task' (by simpa using h)
      simp only [total] at hrest
      simp only [List.set_cons_succ, total, List.map_cons, List.sum_cons]
      omega

theorem weight_le_total (weight : Task → Nat) (tasks : List Task) (task : Task)
    (h : task ∈ tasks) : weight task ≤ total weight tasks :=
  List.single_le_sum (fun _ _ => Nat.zero_le _) _ (List.mem_map_of_mem h)

/-- How often a confined change that is under way counts a URI. -/
def Task.documents (uriOf : FileId → U) (uri : U) (task : Task) : Nat :=
  if task.underWay && task.change.confined then (task.change.files.map uriOf).count uri else 0

/-- Whether a change that is under way may touch any document. -/
def Task.unscoped (task : Task) : Nat :=
  if task.underWay && !task.change.confined then 1 else 0

/-- The counters count the changes under way. -/
structure System.Counts (uriOf : FileId → U) (s : System U) : Prop where
  documents : ∀ uri, Shared.countOf s.shared.inFlightDocuments uri
    = total (Task.documents uriOf uri) s.tasks
  unscoped : s.shared.inFlightUnscoped = total Task.unscoped s.tasks

namespace System

variable {uriOf : FileId → U}

theorem Counts.initial : Counts uriOf (initial : System U) := ⟨fun _ => rfl, rfl⟩

/-- A step that leaves the counters and which changes are under way. -/
theorem Counts.other {s s' : System U} (h : s.Counts uriOf)
    (hdocuments : s'.shared.inFlightDocuments = s.shared.inFlightDocuments)
    (hunscoped : s'.shared.inFlightUnscoped = s.shared.inFlightUnscoped)
    (htotal : ∀ weight, (weight = Task.unscoped ∨ ∃ uri, weight = Task.documents uriOf uri) →
      total weight s'.tasks = total weight s.tasks) : s'.Counts uriOf := by
  refine ⟨?_, ?_⟩
  · intro uri
    rw [hdocuments, htotal _ (.inr ⟨uri, rfl⟩)]
    exact h.documents uri
  · rw [hunscoped, htotal _ (.inl rfl)]
    exact h.unscoped

/-- A task that stays under way, or stays done, counts as before. -/
theorem total_set_same {tasks : List Task} {id : Nat} {task : Task} (ht : tasks[id]? = some task)
    (phase : Phase) (hsame : ({ task with phase := phase } : Task).underWay = task.underWay)
    (weight : Task → Nat)
    (hw : weight = Task.unscoped ∨ ∃ uri, weight = Task.documents uriOf uri) :
    total weight (tasks.set id { task with phase := phase }) = total weight tasks := by
  have hset := total_set weight tasks id task { task with phase := phase } ht
  have heq : weight { task with phase := phase } = weight task := by
    obtain rfl | ⟨uri, rfl⟩ := hw
    · unfold Task.unscoped
      rw [hsame]
    · unfold Task.documents
      rw [hsame]
  omega

/-- A change that ends takes its own count back. -/
theorem Counts.withdraw {s : System U} (h : s.Counts uriOf) {id : Nat} {task : Task}
    (ht : s.tasks[id]? = some task) (hway : task.underWay = true) :
    Counts uriOf { s with
      shared := s.shared.withdraw uriOf task.change
      tasks := s.tasks.set id { task with phase := .withdrawn } } := by
  have hdocuments := fun uri => total_set (Task.documents uriOf uri) s.tasks id task
    { task with phase := .withdrawn } ht
  have hunscoped := total_set Task.unscoped s.tasks id task { task with phase := .withdrawn } ht
  unfold Shared.withdraw
  split_ifs with hconf
  · refine ⟨?_, ?_⟩
    · intro uri
      have h1 := hdocuments uri
      have h2 := h.documents uri
      have h3 : Task.documents uriOf uri task = (task.change.files.map uriOf).count uri := by
        unfold Task.documents
        rw [hway, hconf]
        rfl
      have h4 : Task.documents uriOf uri { task with phase := .withdrawn } = 0 := rfl
      show Shared.countOf ((task.change.files.map uriOf).foldl Shared.uncountDocument _) uri
        = total _ (s.tasks.set id { task with phase := .withdrawn })
      rw [Shared.countOf_foldl_uncountDocument, h2]
      omega
    · have h1 : Task.unscoped task = 0 := by
        unfold Task.unscoped
        rw [hway, hconf]
        rfl
      have h2 : Task.unscoped { task with phase := .withdrawn } = 0 := rfl
      have h3 := h.unscoped
      show s.shared.inFlightUnscoped = total _ (s.tasks.set id { task with phase := .withdrawn })
      omega
  · refine ⟨?_, ?_⟩
    · intro uri
      have h1 := hdocuments uri
      have h2 := h.documents uri
      have h3 : Task.documents uriOf uri task = 0 := by
        unfold Task.documents
        rw [Bool.not_eq_true] at hconf
        rw [hway, hconf]
        rfl
      have h4 : Task.documents uriOf uri { task with phase := .withdrawn } = 0 := rfl
      show Shared.countOf s.shared.inFlightDocuments uri
        = total _ (s.tasks.set id { task with phase := .withdrawn })
      omega
    · have h1 : Task.unscoped task = 1 := by
        unfold Task.unscoped
        rw [Bool.not_eq_true] at hconf
        rw [hway, hconf]
        rfl
      have h2 : Task.unscoped { task with phase := .withdrawn } = 0 := rfl
      have h3 := h.unscoped
      show s.shared.inFlightUnscoped - 1
        = total _ (s.tasks.set id { task with phase := .withdrawn })
      omega

/-- **Every step keeps the counters.** -/
theorem counts_step (s : System U) (label : Label) (s' : System U) (h : s.Counts uriOf)
    (hstep : s.step uriOf label = some s') : s'.Counts uriOf := by
  cases label with
  | begin change =>
    cases hstep
    unfold Shared.announce
    split_ifs with hconf
    · refine ⟨?_, ?_⟩
      · intro uri
        show Shared.countOf ((change.files.map uriOf).foldl Shared.countDocument _) uri = _
        rw [Shared.countOf_foldl_countDocument, h.documents uri, total_append]
        simp [Task.documents, Task.underWay, hconf]
      · show s.shared.inFlightUnscoped = _
        rw [h.unscoped, total_append]
        simp [Task.unscoped, hconf]
    · refine ⟨?_, ?_⟩
      · intro uri
        show Shared.countOf s.shared.inFlightDocuments uri = _
        rw [h.documents uri, total_append]
        simp [Task.documents, hconf]
      · show s.shared.inFlightUnscoped + 1 = _
        rw [h.unscoped, total_append]
        simp [Task.unscoped, Task.underWay, hconf]
  | task id =>
    obtain ⟨task, shared, phase, ht, hnext, rfl⟩ := step_task hstep
    cases Task.next_moves uriOf s.shared shared id task phase hnext with
    | counts hp hs hp' | begins hp hs hp' | applies hp hs hp' | skips hp _ hs hp'
    | queues hp _ hs hp' | blocks hp hs hp' | schedules hp hs hp' | uncounts hp hs hp' =>
      subst hs
      refine h.other rfl rfl (total_set_same ht phase ?_)
      subst hp'
      simp [Task.underWay, hp]
    | withdraws hp hs hp' =>
      subst hs hp'
      exact h.withdraw ht (by simp [Task.underWay, hp])
    | refreshes r next hp hs hp' hlast =>
      obtain ⟨flag, locks, rfl⟩ := Shared.refresh_frame hs
      refine h.other rfl rfl (total_set_same ht phase ?_)
      cases next with
      | none => simp [Task.underWay, hp, hlast rfl]
      | some r' =>
        cases phase <;> simp_all [Phase.refreshing, Task.underWay]
  | drop id =>
    obtain ⟨task, ht, hphase, rfl⟩ := step_drop hstep
    exact h.withdraw ht (by simp [Task.underWay, hphase])
  | requestRebuild =>
    cases hstep
    exact h.other rfl rfl (fun _ _ => rfl)
  | requestNoted =>
    simp only [step] at hstep
    split_ifs at hstep
    cases hstep
    exact h.other rfl rfl (fun _ _ => rfl)
  | loop =>
    obtain ⟨shared, loop, hnext, rfl⟩ := step_loop hstep
    cases Loop.next_moves s.shared shared s.loop loop hnext with
    | idles hs _ _ | takesRequest _ hs _ | takesText hs _ _ | settles _ hs _ _
    | stopsSettling hs _ _ | drains _ _ hs _ _ | releases _ _ _ hs _ _ =>
      subst hs
      exact h.other rfl rfl (fun _ _ => rfl)
    | refreshes r after next _ hs _ _ =>
      obtain ⟨flag, locks, rfl⟩ := Shared.refresh_frame hs
      exact h.other rfl rfl (fun _ _ => rfl)
  | fails | notified | timer | slice | shutdown =>
    obtain ⟨unsettled, loop, rfl, -, -⟩ := step_waits rfl hstep
    exact h.other rfl rfl (fun _ _ => rfl)

/-- A document some change is under way for has an in-flight change. -/
theorem Counts.inFlight {s : System U} (h : s.Counts uriOf) {task : Task} (hmem : task ∈ s.tasks)
    (hway : task.underWay = true) {f : FileId} (hf : f ∈ task.change.files) :
    s.shared.hasInFlightChangeFor (uriOf f) = true := by
  unfold Shared.hasInFlightChangeFor
  rw [Bool.or_eq_true]
  by_cases hconf : task.change.confined = true
  · right
    apply Shared.isSome_of_countOf_pos
    rw [h.documents]
    refine Nat.lt_of_lt_of_le ?_ (weight_le_total _ s.tasks task hmem)
    unfold Task.documents
    rw [hway, hconf]
    exact List.count_pos_iff.2 (List.mem_map_of_mem hf)
  · left
    rw [decide_eq_true_eq, h.unscoped]
    refine Nat.lt_of_lt_of_le ?_ (weight_le_total _ s.tasks task hmem)
    unfold Task.unscoped
    rw [Bool.not_eq_true] at hconf
    rw [hway, hconf]
    exact Nat.one_pos

end System

end GluaLs.Debounce
