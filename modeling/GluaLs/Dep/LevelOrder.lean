/-
  GluaLs.Dep.LevelOrder — the levels of the analysis are the lengths of the longest chains.

  The proof follows the queue.  `Placed` is what holds before every round, for the places
  `done` that were popped so far:

    • a place has as many dependencies to wait for as are not done, and is queued when
      there are none,
    • the levels along `done ++ queue` never go down,
    • a place stands one level above the highest of its dependencies.

  The second is what makes the third right: the last of a file's dependencies to be popped
  is the highest, because the queue is first-in first-out.
-/
import GluaLs.Dep.AnalysisLevels

namespace GluaLs.Dep

open GluaLs.Lib GluaLs.Lib.Layers

/-! ## §1. One file is placed -/

section

variable {n : Nat}

/-- What the loop over the neighbors does, for neighbors that are listed once. -/
theorem foldl_release (level : Nat) (neighbors : List (Fin n)) (hnodup : neighbors.Nodup) :
    ∀ s : Released n,
      let s' := neighbors.foldl (Released.release level) s
      (∀ j : Fin n, s'.inDegree j =
        if j ∈ neighbors then s.inDegree j - 1 else s.inDegree j) ∧
      (∀ j : Fin n, s'.nodeLevel j =
        if j ∈ neighbors ∧ s.inDegree j - 1 = 0 then level + 1 else s.nodeLevel j) ∧
      s'.newZero = s.newZero ++ neighbors.filter fun j => s.inDegree j - 1 = 0 := by
  induction neighbors with
  | nil => simp
  | cons k neighbors ih =>
    obtain ⟨hk, hnodup⟩ := List.nodup_cons.1 hnodup
    intro s
    obtain ⟨hdegree, hlevel, hzero⟩ := ih hnodup (s.release level k)
    have hdegree' : ∀ j : Fin n, (s.release level k).inDegree j =
        if j = k then s.inDegree k - 1 else s.inDegree j := by
      intro j
      unfold Released.release
      simp only [Function.update_self]
      by_cases h0 : s.inDegree k - 1 = 0
      · simp [h0, Function.update_apply]
      · simp [h0, Function.update_apply]
    have hlevel' : ∀ j : Fin n, (s.release level k).nodeLevel j =
        if j = k ∧ s.inDegree k - 1 = 0 then level + 1 else s.nodeLevel j := by
      intro j
      unfold Released.release
      simp only [Function.update_self]
      by_cases h0 : s.inDegree k - 1 = 0
      · simp [h0, Function.update_apply]
      · simp [h0]
    have hzero' : (s.release level k).newZero =
        s.newZero ++ if s.inDegree k - 1 = 0 then [k] else [] := by
      unfold Released.release
      simp only [Function.update_self]
      by_cases h0 : s.inDegree k - 1 = 0
      · simp [h0]
      · simp [h0]
    have hsame : neighbors.filter (fun j => decide ((s.release level k).inDegree j - 1 = 0)) =
        neighbors.filter fun j => decide (s.inDegree j - 1 = 0) := by
      refine List.filter_congr fun j hj => ?_
      have hjk : j ≠ k := fun h => hk (h ▸ hj)
      rw [hdegree', if_neg hjk]
    refine ⟨?_, ?_, ?_⟩
    · intro j
      rw [List.foldl_cons, hdegree, hdegree']
      by_cases hjk : j = k
      · simp [hjk, hk]
      · simp [hjk]
    · intro j
      rw [List.foldl_cons, hlevel, hdegree', hlevel']
      by_cases hjk : j = k
      · simp [hjk, hk]
      · simp [hjk]
    · rw [List.foldl_cons, hzero, hsame, hzero', List.filter_cons, List.append_assoc]
      by_cases h0 : s.inDegree k - 1 = 0
      · simp [h0]
      · simp [h0]

end

/-- What stands on a level; nothing on a level there is not. -/
def onLevel (levels : List (List FileId)) (k : Nat) : List FileId :=
  levels[k]?.getD []

theorem flatten_modify_append (levels : List (List FileId)) (k : Nat) (file : FileId)
    (hk : k < levels.length) :
    (levels.modify k (· ++ [file])).flatten.Perm (levels.flatten ++ [file]) := by
  induction levels generalizing k with
  | nil => simp at hk
  | cons level levels ih =>
    cases k with
    | zero =>
      rw [List.modify_zero_cons, List.flatten_cons, List.flatten_cons, List.append_assoc,
        List.append_assoc]
      exact List.Perm.append_left _ List.perm_append_comm
    | succ k =>
      rw [List.modify_succ_cons, List.flatten_cons, List.flatten_cons, List.append_assoc]
      exact List.Perm.append_left _ (ih k (Nat.lt_of_succ_lt_succ hk))

/-- A file joins a level that is there, or the next one. -/
theorem pushOnLevel_spec (levels : List (List FileId)) (level : Nat) (file : FileId)
    (h : level ≤ levels.length) :
    (pushOnLevel levels level file).flatten.Perm (levels.flatten ++ [file]) ∧
      (∀ k, onLevel (pushOnLevel levels level file) k =
        onLevel levels k ++ if k = level then [file] else []) ∧
      levels.length ≤ (pushOnLevel levels level file).length ∧
      level < (pushOnLevel levels level file).length := by
  unfold pushOnLevel onLevel
  by_cases hnew : levels.length = level
  · simp only [if_pos hnew]
    refine ⟨?_, ?_, ?_, ?_⟩
    · have hperm := flatten_modify_append (levels ++ [[]]) level file (by simp [hnew])
      simpa using hperm
    · intro k
      rw [List.getElem?_modify]
      by_cases hk : k = level
      · simp [hk, ← hnew]
      · rcases Nat.lt_or_gt_of_ne hk with hlt | hgt
        · simp [Ne.symm hk, hk, List.getElem?_append_left (show k < levels.length by omega)]
        · have hout : (levels ++ [[]])[k]? = none := by
            rw [List.getElem?_eq_none_iff, List.length_append]
            simp only [List.length_singleton]
            omega
          have hout' : levels[k]? = none := List.getElem?_eq_none_iff.2 (by omega)
          simp [hout, hout', hk]
    · simp
    · simp [hnew]
  · have hlt : level < levels.length := by omega
    simp only [if_neg hnew]
    refine ⟨flatten_modify_append levels level file hlt, ?_, ?_, ?_⟩
    · intro k
      rw [List.getElem?_modify]
      by_cases hk : k = level
      · simp [hk, List.getElem?_eq_getElem hlt]
      · simp [Ne.symm hk, hk]
    · simp
    · simpa using hlt

/-! ## §2. What holds before every round -/

variable {rel : FileDependencyRelation} {fileIds : List FileId} {metas : HashSet FileId}

theorem sortByPriority_perm (places : List (Fin fileIds.length)) :
    (sortByPriority fileIds metas places).Perm places :=
  List.mergeSort_perm _ _

/-- What holds of the loop's state, and of the places popped so far. -/
structure Placed (rel : FileDependencyRelation) (fileIds : List FileId)
    (s : LevelState fileIds.length) (done : List (Fin fileIds.length)) : Prop where
  nodup : (done ++ s.queue).Nodup
  waiting : ∀ i, s.inDegree i = ((rel.listedDeps fileIds i).filter (· ∉ done)).length
  queued : ∀ i, i ∈ done ++ s.queue ↔ s.inDegree i = 0
  sorted : (done ++ s.queue).Pairwise fun a b => s.nodeLevel a ≤ s.nodeLevel b
  above : ∀ i ∈ done ++ s.queue, ∀ d ∈ rel.listedDeps fileIds i,
    s.nodeLevel d < s.nodeLevel i
  tight : ∀ i ∈ done ++ s.queue, s.nodeLevel i = 0 ∨
    ∃ d ∈ rel.listedDeps fileIds i, s.nodeLevel i = s.nodeLevel d + 1
  filled : ∀ i ∈ done, s.nodeLevel i < s.levels.length
  levels : ∀ k, onLevel s.levels k = (done.filter (s.nodeLevel · = k)).map fileIds.get
  placed : s.levels.flatten.Perm (done.map fileIds.get)
  popped : s.popped = done.length

theorem placed_initial : Placed rel fileIds (rel.initialLevels fileIds metas) [] := by
  have hqueue : ∀ i, i ∈ (rel.initialLevels fileIds metas).queue ↔
      (rel.fileGraph fileIds).inDegree i = 0 := by
    intro i
    show i ∈ sortByPriority _ _ _ ↔ _
    rw [(sortByPriority_perm _).mem_iff]
    simp
  have hnone : ∀ i ∈ (rel.initialLevels fileIds metas).queue,
      rel.listedDeps fileIds i = [] := by
    intro i hi
    have h0 := (hqueue i).1 hi
    rwa [rel.inDegree_fileGraph, List.length_eq_zero_iff] at h0
  refine ⟨?_, ?_, ?_, ?_, ?_, ?_, ?_, ?_, ?_, rfl⟩
  · show (sortByPriority _ _ _).Nodup
    rw [(sortByPriority_perm _).nodup_iff]
    exact (List.nodup_finRange _).filter _
  · intro i
    show (rel.fileGraph fileIds).inDegree i = _
    rw [rel.inDegree_fileGraph]
    simp
  · exact hqueue
  · exact List.pairwise_of_forall fun _ _ => Nat.le_refl 0
  · intro i hi d hd
    rw [hnone i hi] at hd
    cases hd
  · exact fun _ _ => .inl rfl
  · exact nofun
  · exact fun _ => rfl
  · exact .refl _

namespace Placed

variable {s : LevelState fileIds.length} {done : List (Fin fileIds.length)}

/-- The dependencies of what is queued are done. -/
theorem deps_done (h : Placed rel fileIds s done) {i d : Fin fileIds.length}
    (hi : i ∈ done ++ s.queue) (hd : d ∈ rel.listedDeps fileIds i) : d ∈ done := by
  have h0 := (h.queued i).1 hi
  rw [h.waiting, List.length_eq_zero_iff, List.filter_eq_nil_iff] at h0
  simpa using h0 d hd

variable {idx : Fin fileIds.length} {queue : List (Fin fileIds.length)}

/-- Nothing that is done or queued stands more than one level above the next file. -/
theorem level_le_succ (h : Placed rel fileIds s done) (hqueue : s.queue = idx :: queue)
    {i : Fin fileIds.length} (hi : i ∈ done ++ s.queue) :
    s.nodeLevel i ≤ s.nodeLevel idx + 1 := by
  have hdone : ∀ d ∈ done, s.nodeLevel d ≤ s.nodeLevel idx := by
    intro d hd
    exact (List.pairwise_append.1 h.sorted).2.2 d hd idx (by simp [hqueue])
  rcases h.tight i hi with h0 | ⟨d, hd, hlevel⟩
  · omega
  · have hle := hdone d (h.deps_done hi hd)
    omega

/-- The next file's level is there, or it is the next one. -/
theorem level_le_length (h : Placed rel fileIds s done) (hqueue : s.queue = idx :: queue) :
    s.nodeLevel idx ≤ s.levels.length := by
  have hidx : idx ∈ done ++ s.queue := by simp [hqueue]
  rcases h.tight idx hidx with h0 | ⟨d, hd, hlevel⟩
  · omega
  · have hlt := h.filled d (h.deps_done hidx hd)
    omega

end Placed

/-! ## §3. A round keeps it -/

/-- One more done is one less to wait for, where it is waited for. -/
theorem length_filter_done {A : Type} [DecidableEq A] {l done : List A} {x : A} (hl : l.Nodup)
    (hx : x ∉ done) :
    (l.filter (· ∉ done ++ [x])).length =
      if x ∈ l then (l.filter (· ∉ done)).length - 1 else (l.filter (· ∉ done)).length := by
  have herase : l.filter (· ∉ done ++ [x]) = (l.filter (· ∉ done)).erase x := by
    rw [(hl.filter _).erase_eq_filter, List.filter_filter]
    refine List.filter_congr fun a _ => ?_
    rw [Bool.eq_iff_iff]
    simp [and_comm]
  rw [herase, List.length_erase]
  simp [hx]

namespace Placed

variable {s : LevelState fileIds.length} {done queue : List (Fin fileIds.length)}
  {idx : Fin fileIds.length}

/-- What a round does, in terms of the state before it. -/
structure Popped (rel : FileDependencyRelation) (fileIds : List FileId)
    (s s' : LevelState fileIds.length) (idx : Fin fileIds.length)
    (queue ready : List (Fin fileIds.length)) : Prop where
  inDegree : ∀ i, s'.inDegree i =
    if idx ∈ rel.listedDeps fileIds i then s.inDegree i - 1 else s.inDegree i
  mem_ready : ∀ i, i ∈ ready ↔ idx ∈ rel.listedDeps fileIds i ∧ s.inDegree i - 1 = 0
  nodup : ready.Nodup
  nodeLevel : ∀ i, s'.nodeLevel i =
    if i ∈ ready then s.nodeLevel idx + 1 else s.nodeLevel i
  queue : s'.queue = queue ++ ready
  levels : s'.levels = pushOnLevel s.levels (s.nodeLevel idx) (fileIds.get idx)
  popped : s'.popped = s.popped + 1

variable (rel metas) in
theorem pop_popped (hdistinct : fileIds.Nodup) (hqueue : s.queue = idx :: queue) :
    ∃ ready, Popped rel fileIds s
      (s.pop fileIds metas (rel.fileGraph fileIds).adjacency) idx queue ready := by
  obtain ⟨hdegree, hlevel, hzero⟩ := foldl_release (s.nodeLevel idx)
    ((rel.fileGraph fileIds).adjacency idx)
    (by rw [rel.adjacency_fileGraph hdistinct]; exact (List.nodup_finRange _).filter _)
    ⟨s.inDegree, s.nodeLevel, []⟩
  have hadj : ∀ i, i ∈ (rel.fileGraph fileIds).adjacency idx ↔
      idx ∈ rel.listedDeps fileIds i := by
    intro i
    rw [rel.adjacency_fileGraph hdistinct]
    simp
  unfold LevelState.pop
  rw [hqueue]
  simp only
  generalize hreleased : ((rel.fileGraph fileIds).adjacency idx).foldl
    (Released.release (s.nodeLevel idx)) ⟨s.inDegree, s.nodeLevel, []⟩ = released
    at hdegree hlevel hzero ⊢
  have hperm : (if released.newZero.length > 1 then
      sortByPriority fileIds metas released.newZero else released.newZero).Perm
        released.newZero := by
    split
    · exact sortByPriority_perm _
    · exact .refl _
  have hmem : ∀ i, i ∈ released.newZero ↔
      idx ∈ rel.listedDeps fileIds i ∧ s.inDegree i - 1 = 0 := by
    intro i
    rw [hzero]
    simp [hadj]
  refine ⟨_, ⟨?_, ?_, ?_, ?_, rfl, rfl, rfl⟩⟩
  · intro i
    show released.inDegree i = _
    rw [hdegree]
    simp only [hadj]
  · intro i
    rw [hperm.mem_iff, hmem]
  · rw [hperm.nodup_iff, hzero, List.nil_append, rel.adjacency_fileGraph hdistinct]
    exact ((List.nodup_finRange _).filter _).filter _
  · intro i
    show released.nodeLevel i = _
    rw [hlevel]
    simp only [hperm.mem_iff, hmem, hadj]

/-- What is queued by a round was not queued before. -/
theorem not_queued (h : Placed rel fileIds s done) {i : Fin fileIds.length} (hidx : idx ∉ done)
    (hi : idx ∈ rel.listedDeps fileIds i) : i ∉ done ++ s.queue := by
  intro hqueued
  exact hidx (h.deps_done hqueued hi)

theorem pop (h : Placed rel fileIds s done) (hdistinct : fileIds.Nodup)
    (hqueue : s.queue = idx :: queue) :
    Placed rel fileIds (s.pop fileIds metas (rel.fileGraph fileIds).adjacency) (done ++ [idx]) := by
  obtain ⟨ready, hpop⟩ := pop_popped rel metas hdistinct hqueue
  generalize s.pop fileIds metas (rel.fileGraph fileIds).adjacency = s' at hpop ⊢
  have hidxq : idx ∈ done ++ s.queue := by simp [hqueue]
  have hidx : idx ∉ done := by
    have hnodup := h.nodup
    rw [hqueue, List.nodup_append] at hnodup
    exact fun hmem => hnodup.2.2 idx hmem idx (.head _) rfl
  have hlist : (done ++ [idx]) ++ s'.queue = (done ++ s.queue) ++ ready := by
    rw [hpop.queue, hqueue]
    simp
  have hnew : ∀ i ∈ ready, i ∉ done ++ s.queue := fun i hi =>
    h.not_queued hidx ((hpop.mem_ready i).1 hi).1
  have hold : ∀ i ∈ done ++ s.queue, s'.nodeLevel i = s.nodeLevel i := by
    intro i hi
    rw [hpop.nodeLevel, if_neg fun hmem => hnew i hmem hi]
  have hdone : ∀ i ∈ done ++ [idx], i ∈ done ++ s.queue := by
    intro i hi
    rcases List.mem_append.1 hi with hi | hi
    · exact List.mem_append_left _ hi
    · rwa [List.mem_singleton.1 hi]
  have hwaiting : ∀ i, s'.inDegree i =
      ((rel.listedDeps fileIds i).filter (· ∉ done ++ [idx])).length := by
    intro i
    rw [length_filter_done (rel.nodup_listedDeps hdistinct i) hidx, hpop.inDegree, h.waiting]
  have hqueued : ∀ i, i ∈ (done ++ [idx]) ++ s'.queue ↔ s'.inDegree i = 0 := by
    intro i
    rw [hlist, List.mem_append, h.queued, hpop.mem_ready, hpop.inDegree]
    split
    · rename_i hdep
      simp only [hdep, true_and]
      omega
    · rename_i hdep
      simp [hdep]
  have hdeps : ∀ i ∈ ready, ∀ d ∈ rel.listedDeps fileIds i, d ∈ done ++ [idx] := by
    intro i hi d hd
    have h0 := (hqueued i).1 (by rw [hlist]; exact List.mem_append_right _ hi)
    rw [hwaiting, List.length_eq_zero_iff, List.filter_eq_nil_iff] at h0
    simpa [or_iff_not_imp_left] using h0 d hd
  have hbelow : ∀ d ∈ done ++ [idx], s.nodeLevel d ≤ s.nodeLevel idx := by
    intro d hd
    rcases List.mem_append.1 hd with hd | hd
    · exact (List.pairwise_append.1 h.sorted).2.2 d hd idx (by simp [hqueue])
    · rw [List.mem_singleton.1 hd]
  have hnewLevel : ∀ i ∈ ready, s'.nodeLevel i = s.nodeLevel idx + 1 := by
    intro i hi
    rw [hpop.nodeLevel, if_pos hi]
  obtain ⟨hflatten, honLevel, hlength, hlevel⟩ :=
    pushOnLevel_spec s.levels _ (fileIds.get idx) (h.level_le_length hqueue)
  refine ⟨?_, hwaiting, hqueued, ?_, ?_, ?_, ?_, ?_, ?_, ?_⟩
  · rw [hlist, List.nodup_append]
    exact ⟨h.nodup, hpop.nodup, fun a ha b hb hab => hnew b hb (hab ▸ ha)⟩
  · rw [hlist, List.pairwise_append]
    refine ⟨?_, ?_, ?_⟩
    · exact h.sorted.imp_of_mem fun ha hb hle => by rwa [hold _ ha, hold _ hb]
    · refine List.pairwise_of_forall_mem_list fun a ha b hb => ?_
      rw [hnewLevel a ha, hnewLevel b hb]
    · intro a ha b hb
      rw [hold a ha, hnewLevel b hb]
      exact h.level_le_succ hqueue ha
  · intro i hi d hd
    rw [hlist] at hi
    rcases List.mem_append.1 hi with hi | hi
    · rw [hold i hi, hold d (List.mem_append_left _ (h.deps_done hi hd))]
      exact h.above i hi d hd
    · have hdd := hdeps i hi d hd
      rw [hnewLevel i hi, hold d (hdone d hdd)]
      exact Nat.lt_succ_of_le (hbelow d hdd)
  · intro i hi
    rw [hlist] at hi
    rcases List.mem_append.1 hi with hi | hi
    · rw [hold i hi]
      rcases h.tight i hi with h0 | ⟨d, hd, hd'⟩
      · exact .inl h0
      · refine .inr ⟨d, hd, ?_⟩
        rw [hd', hold d (List.mem_append_left _ (h.deps_done hi hd))]
    · refine .inr ⟨idx, ((hpop.mem_ready i).1 hi).1, ?_⟩
      rw [hnewLevel i hi, hold idx hidxq]
  · intro i hi
    rw [hold i (hdone i hi), hpop.levels]
    exact lt_of_le_of_lt (hbelow i hi) hlevel
  · intro k
    have hfilter : done.filter (s'.nodeLevel · = k) = done.filter (s.nodeLevel · = k) :=
      List.filter_congr fun i hi => by rw [hold i (List.mem_append_left _ hi)]
    rw [hpop.levels, honLevel, h.levels, List.filter_append, List.map_append, hfilter]
    by_cases hk : k = s.nodeLevel idx
    · simp [hk, hold idx hidxq]
    · simp [hk, hold idx hidxq, Ne.symm hk]
  · rw [hpop.levels, List.map_append]
    exact hflatten.trans (h.placed.append_right _)
  · rw [hpop.popped, h.popped, List.length_append, List.length_singleton]

end Placed

section

variable (rel metas)

/-- A run of the loop: it has placed a file in every round, or the queue is empty. -/
theorem placed_iterate (hdistinct : fileIds.Nodup) (k : Nat) :
    ∃ done, Placed rel fileIds ((LevelState.pop fileIds metas (rel.fileGraph fileIds).adjacency)^[k]
          (rel.initialLevels fileIds metas)) done ∧
      (((LevelState.pop fileIds metas (rel.fileGraph fileIds).adjacency)^[k]
          (rel.initialLevels fileIds metas)).queue = [] ∨ done.length = k) := by
  induction k with
  | zero => exact ⟨[], placed_initial, .inr rfl⟩
  | succ k ih =>
    obtain ⟨done, hplaced, hlength⟩ := ih
    rw [Function.iterate_succ_apply']
    generalize (LevelState.pop fileIds metas (rel.fileGraph fileIds).adjacency)^[k]
      (rel.initialLevels fileIds metas) = s at hplaced hlength ⊢
    cases hqueue : s.queue with
    | nil =>
      have hsame : s.pop fileIds metas (rel.fileGraph fileIds).adjacency = s := by
        unfold LevelState.pop
        rw [hqueue]
      rw [hsame]
      exact ⟨done, hplaced, .inl hqueue⟩
    | cons idx queue =>
      rw [hqueue] at hlength
      refine ⟨done ++ [idx], hplaced.pop hdistinct hqueue, .inr ?_⟩
      rw [List.length_append, List.length_singleton, hlength.resolve_left (List.cons_ne_nil _ _)]

/-- **The rounds are enough**: when they are over nothing is queued. -/
theorem queue_settled (hdistinct : fileIds.Nodup) :
    ∃ done, Placed rel fileIds (rel.settledLevels fileIds metas) done ∧
      (rel.settledLevels fileIds metas).queue = [] := by
  obtain ⟨done, hplaced, hlength⟩ := placed_iterate rel metas hdistinct fileIds.length
  refine ⟨done, hplaced, ?_⟩
  rcases hlength with hnil | hlength
  · exact hnil
  · have hle := hplaced.nodup.length_le_card
    rw [List.length_append, Fintype.card_fin, hlength] at hle
    exact List.length_eq_zero_iff.1 (Nat.le_zero.1 (Nat.le_of_add_le_add_left hle))

end

/-! ## §4. The levels -/

/-- One listed file depends on another one. -/
def Depends (rel : FileDependencyRelation) (fileIds : List FileId) (f g : FileId) : Prop :=
  f ∈ fileIds ∧ g ∈ fileIds ∧ rel.DependsOn f g

/-- What the levels of the analysis are to be: every file once, above its dependencies by as
little as can be, and what is on a cycle or depends on one at the end, file by file. -/
structure LeveledBy (rel : FileDependencyRelation) (fileIds : List FileId)
    (levels : List (List FileId)) : Prop where
  listed : levels.flatten.Perm fileIds
  after : ∀ {f g i j}, Depends rel fileIds f g → ¬ AboveCycle (Depends rel fileIds) f →
    f ∈ onLevel levels i → g ∈ onLevel levels j → j < i
  apart : ∀ {f g i}, f ∈ onLevel levels i → g ∈ onLevel levels i → f ≠ g →
    ¬ Depends rel fileIds f g
  last : ∀ {f g i j}, AboveCycle (Depends rel fileIds) f →
    ¬ AboveCycle (Depends rel fileIds) g → f ∈ onLevel levels i → g ∈ onLevel levels j → j < i
  alone : ∀ {f i}, AboveCycle (Depends rel fileIds) f → f ∈ onLevel levels i →
    onLevel levels i = [f]
  longest : ∀ {f}, f ∈ fileIds → ¬ AboveCycle (Depends rel fileIds) f → ∀ k,
    f ∈ onLevel levels k ↔ LongestChain (Depends rel fileIds) f k

/-- The places that are left over when nothing is queued any more. -/
def leftover (s : LevelState fileIds.length) : List (Fin fileIds.length) :=
  (List.finRange fileIds.length).filter fun idx => 0 < s.inDegree idx

/-- The level of a file, by the place where it is listed. -/
def levelOf (s : LevelState fileIds.length) (f : FileId) : Nat :=
  ((fileToIdx fileIds).lookup f).elim 0 s.nodeLevel

theorem mem_onLevel_append (levels rest : List (List FileId)) (k : Nat) (f : FileId) :
    f ∈ onLevel (levels ++ rest) k ↔
      f ∈ onLevel levels k ∨ ∃ m, k = levels.length + m ∧ f ∈ onLevel rest m := by
  unfold onLevel
  by_cases hk : k < levels.length
  · rw [List.getElem?_append_left hk]
    constructor
    · exact .inl
    · rintro (h | ⟨m, hm, -⟩)
      · exact h
      · omega
  · rw [List.getElem?_append_right (by omega),
      List.getElem?_eq_none_iff.2 (by omega : levels.length ≤ k)]
    constructor
    · exact fun h => .inr ⟨k - levels.length, by omega, h⟩
    · rintro (h | ⟨m, rfl, h⟩)
      · simp at h
      · rwa [Nat.add_sub_cancel_left]

theorem onLevel_singletons (files : List FileId) (m : Nat) :
    onLevel (files.map ([·])) m = files[m]?.toList := by
  unfold onLevel
  rw [List.getElem?_map]
  cases files[m]? <;> rfl

namespace Placed

variable {s : LevelState fileIds.length} {done : List (Fin fileIds.length)}

/-- What is left over is what is not done. -/
theorem mem_leftover (h : Placed rel fileIds s done) (hnil : s.queue = [])
    (i : Fin fileIds.length) : i ∈ leftover s ↔ i ∉ done := by
  have hqueued := h.queued i
  rw [hnil, List.append_nil] at hqueued
  rw [hqueued]
  simp [leftover, Nat.pos_iff_ne_zero]

theorem done_append_leftover (h : Placed rel fileIds s done) (hnil : s.queue = []) :
    (done ++ leftover s).Perm (List.finRange fileIds.length) := by
  have hdone : done.Nodup := by
    have hnodup := h.nodup
    rwa [hnil, List.append_nil] at hnodup
  rw [List.perm_ext_iff_of_nodup _ (List.nodup_finRange _)]
  · intro i
    simp only [List.mem_append, h.mem_leftover hnil, List.mem_finRange, iff_true]
    exact Decidable.em _
  · rw [List.nodup_append]
    refine ⟨hdone, (List.nodup_finRange _).filter _, ?_⟩
    rintro i hi j hj rfl
    exact (h.mem_leftover hnil i).1 hj hi

/-- The file of a place that is done. -/
def Settled (done : List (Fin fileIds.length)) (f : FileId) : Prop :=
  ∃ i ∈ done, fileIds.get i = f

theorem levelOf_get (hdistinct : fileIds.Nodup) (s : LevelState fileIds.length)
    (i : Fin fileIds.length) : levelOf s (fileIds.get i) = s.nodeLevel i := by
  unfold levelOf
  rw [(FileDependencyRelation.lookup_fileToIdx hdistinct _ i).2 rfl]
  rfl

/-- The places behind an edge between a listed file and another one. -/
theorem depends_get (hdistinct : fileIds.Nodup) {i : Fin fileIds.length} {g : FileId}
    (hg : Depends rel fileIds (fileIds.get i) g) :
    ∃ d ∈ rel.listedDeps fileIds i, fileIds.get d = g := by
  obtain ⟨-, hlisted, hdep⟩ := hg
  obtain ⟨d, rfl⟩ := List.get_of_mem hlisted
  exact ⟨d, (rel.mem_listedDeps hdistinct d i).2 hdep, rfl⟩

theorem depends_of_mem (hdistinct : fileIds.Nodup) {i d : Fin fileIds.length}
    (hd : d ∈ rel.listedDeps fileIds i) :
    Depends rel fileIds (fileIds.get i) (fileIds.get d) :=
  ⟨List.get_mem _ _, List.get_mem _ _, (rel.mem_listedDeps hdistinct d i).1 hd⟩

section

variable (h : Placed rel fileIds s done) (hdistinct : fileIds.Nodup)
include h hdistinct

/-- **The loop layers the files.** -/
theorem layering : Layering (Depends rel fileIds) (Settled done) (levelOf s) := by
  refine ⟨?_, ?_, ?_⟩
  · rintro _ g ⟨i, hi, rfl⟩ hg
    obtain ⟨d, hd, rfl⟩ := depends_get hdistinct hg
    exact ⟨d, h.deps_done (List.mem_append_left _ hi) hd, rfl⟩
  · rintro _ g ⟨i, hi, rfl⟩ hg
    obtain ⟨d, hd, rfl⟩ := depends_get hdistinct hg
    rw [levelOf_get hdistinct, levelOf_get hdistinct]
    exact h.above i (List.mem_append_left _ hi) d hd
  · rintro _ ⟨i, hi, rfl⟩
    rw [levelOf_get hdistinct]
    rcases h.tight i (List.mem_append_left _ hi) with h0 | ⟨d, hd, hlevel⟩
    · exact .inl h0
    · refine .inr ⟨fileIds.get d, depends_of_mem hdistinct hd, ?_⟩
      rw [hlevel, levelOf_get hdistinct]

/-- A file is left over exactly when it is on a cycle, or depends on one. -/
theorem settled_iff (hnil : s.queue = []) {f : FileId} (hf : f ∈ fileIds) :
    Settled done f ↔ ¬ AboveCycle (Depends rel fileIds) f := by
  constructor
  · exact (h.layering hdistinct).not_aboveCycle
  · intro hcycle
    by_contra hunsettled
    apply hcycle
    -- A file that is left over waits for another one that is left over.
    have hfinite : {f | f ∈ fileIds ∧ ¬ Settled done f}.Finite :=
      (List.finite_toSet fileIds).subset fun f hf => hf.1
    refine aboveCycle_of_serial hfinite ?_ ⟨hf, hunsettled⟩
    rintro g ⟨hg, hunsettled⟩
    obtain ⟨i, rfl⟩ := List.get_of_mem hg
    have hi : i ∉ done := fun hi => hunsettled ⟨i, hi, rfl⟩
    have hwaits : s.inDegree i ≠ 0 := by
      rw [ne_eq, ← h.queued, hnil, List.append_nil]
      exact hi
    rw [h.waiting, ne_eq, List.length_eq_zero_iff, List.filter_eq_nil_iff] at hwaits
    push Not at hwaits
    obtain ⟨d, hd, hdone⟩ := hwaits
    refine ⟨fileIds.get d, ⟨List.get_mem _ _, ?_⟩, depends_of_mem hdistinct hd⟩
    rintro ⟨d', hd', hsame⟩
    rw [List.nodup_iff_injective_get.1 hdistinct hsame] at hd'
    exact of_decide_eq_true hdone hd'

/-- Where a file stands: on its own level when it was settled, else on one of the levels that
were made for what is left over. -/
theorem mem_onLevel (k : Nat) (f : FileId) :
    f ∈ onLevel (s.levels ++ (leftover s).map fun idx => [fileIds.get idx]) k ↔
      (Settled done f ∧ levelOf s f = k) ∨
        ∃ m, k = s.levels.length + m ∧ ((leftover s).map fileIds.get)[m]? = some f := by
  have hsingle : (leftover s).map (fun idx => [fileIds.get idx]) =
      ((leftover s).map fileIds.get).map ([·]) := by
    rw [List.map_map]
    rfl
  rw [mem_onLevel_append, h.levels, hsingle]
  refine or_congr ?_ ?_
  · rw [List.mem_map]
    constructor
    · rintro ⟨i, hi, rfl⟩
      rw [List.mem_filter, decide_eq_true_eq] at hi
      exact ⟨⟨i, hi.1, rfl⟩, by rw [levelOf_get hdistinct, hi.2]⟩
    · rintro ⟨⟨i, hi, rfl⟩, hk⟩
      rw [levelOf_get hdistinct] at hk
      exact ⟨i, List.mem_filter.2 ⟨hi, decide_eq_true hk⟩, rfl⟩
  · refine exists_congr fun m => and_congr_right fun _ => ?_
    rw [onLevel_singletons, Option.mem_toList]

/-- What is left over is not settled. -/
theorem not_settled_of_leftover (hnil : s.queue = []) {m : Nat} {f : FileId}
    (hf : ((leftover s).map fileIds.get)[m]? = some f) : ¬ Settled done f := by
  rintro ⟨i, hi, rfl⟩
  obtain ⟨j, hj, hsame⟩ := List.mem_map.1 (List.mem_of_getElem? hf)
  rw [List.nodup_iff_injective_get.1 hdistinct hsame] at hj
  exact (h.mem_leftover hnil i).1 hj hi

/-- A settled file stands on its own level and on no other. -/
theorem mem_onLevel_settled (hnil : s.queue = []) {f : FileId} (hf : Settled done f) (k : Nat) :
    f ∈ onLevel (s.levels ++ (leftover s).map fun idx => [fileIds.get idx]) k ↔
      levelOf s f = k := by
  rw [h.mem_onLevel hdistinct]
  constructor
  · rintro (⟨-, hk⟩ | ⟨m, -, hm⟩)
    · exact hk
    · exact absurd hf (h.not_settled_of_leftover hdistinct hnil hm)
  · exact fun hk => .inl ⟨hf, hk⟩

/-- Any other file stands behind all levels of settled ones, alone. -/
theorem mem_onLevel_leftover {f : FileId} {k : Nat} (hf : ¬ Settled done f)
    (hk : f ∈ onLevel (s.levels ++ (leftover s).map fun idx => [fileIds.get idx]) k) :
    s.levels.length ≤ k ∧
      onLevel (s.levels ++ (leftover s).map fun idx => [fileIds.get idx]) k = [f] := by
  rcases (h.mem_onLevel hdistinct k f).1 hk with ⟨hsettled, -⟩ | ⟨m, rfl, hm⟩
  · exact absurd hsettled hf
  refine ⟨Nat.le_add_right _ _, ?_⟩
  have hsingle : (leftover s).map (fun idx => [fileIds.get idx]) =
      ((leftover s).map fileIds.get).map ([·]) := by
    rw [List.map_map]
    rfl
  have hafter : onLevel (s.levels ++ (leftover s).map fun idx => [fileIds.get idx])
      (s.levels.length + m) = onLevel ((leftover s).map fun idx => [fileIds.get idx]) m := by
    unfold onLevel
    rw [List.getElem?_append_right (Nat.le_add_right _ _), Nat.add_sub_cancel_left]
  rw [hafter, hsingle, onLevel_singletons, hm]
  rfl

/-- **The levels of the loop, and then what is left over.** -/
theorem leveledBy (hnil : s.queue = []) :
    LeveledBy rel fileIds (s.levels ++ (leftover s).map fun idx => [fileIds.get idx]) := by
  have hlayers := h.layering hdistinct
  have hsettled : ∀ {f}, f ∈ fileIds →
      (Settled done f ↔ ¬ AboveCycle (Depends rel fileIds) f) :=
    fun hf => h.settled_iff hdistinct hnil hf
  have hlisted : (s.levels ++ (leftover s).map fun idx => [fileIds.get idx]).flatten.Perm
      fileIds := by
    have hrest : ((leftover s).map fun idx => [fileIds.get idx]).flatten =
        (leftover s).map fileIds.get := by
      rw [← List.flatMap_def, ← List.map_eq_flatMap]
    have hall := (h.done_append_leftover hnil).map fileIds.get
    rw [List.map_append, List.map_get_finRange] at hall
    rw [List.flatten_append, hrest]
    exact (h.placed.append_right _).trans hall
  have hmem : ∀ {f k}, f ∈ onLevel (s.levels ++
      (leftover s).map fun idx => [fileIds.get idx]) k → f ∈ fileIds := by
    intro f k hf
    unfold onLevel at hf
    refine hlisted.subset (List.mem_flatten.2 ?_)
    cases hlevel : (s.levels ++ (leftover s).map fun idx => [fileIds.get idx])[k]? with
    | none =>
      rw [hlevel] at hf
      cases hf
    | some level =>
      rw [hlevel] at hf
      exact ⟨level, List.mem_of_getElem? hlevel, hf⟩
  refine ⟨hlisted, ?_, ?_, ?_, ?_, ?_⟩
  · intro f g i j hdep hcycle hf hg
    have hfs := (hsettled hdep.1).2 hcycle
    have hgs := hlayers.closed hfs hdep
    rw [h.mem_onLevel_settled hdistinct hnil hfs] at hf
    rw [h.mem_onLevel_settled hdistinct hnil hgs] at hg
    rw [← hf, ← hg]
    exact hlayers.above hfs hdep
  · intro f g i hf hg hne hdep
    by_cases hfs : Settled done f
    · have hgs := hlayers.closed hfs hdep
      rw [h.mem_onLevel_settled hdistinct hnil hfs] at hf
      rw [h.mem_onLevel_settled hdistinct hnil hgs] at hg
      have hlt := hlayers.above hfs hdep
      omega
    · rw [(h.mem_onLevel_leftover hdistinct hfs hf).2, List.mem_singleton] at hg
      exact hne hg.symm
  · intro f g i j hf hg hfi hgj
    have hfs : ¬ Settled done f := fun hfs => hlayers.not_aboveCycle hfs hf
    obtain ⟨d, hd, rfl⟩ := (hsettled (hmem hgj)).2 hg
    rw [h.mem_onLevel_settled hdistinct hnil ⟨d, hd, rfl⟩, levelOf_get hdistinct] at hgj
    have hle := (h.mem_onLevel_leftover hdistinct hfs hfi).1
    have hlt := h.filled d hd
    omega
  · intro f i hf hfi
    have hfs : ¬ Settled done f := fun hfs => hlayers.not_aboveCycle hfs hf
    exact (h.mem_onLevel_leftover hdistinct hfs hfi).2
  · intro f hf hcycle k
    have hfs := (hsettled hf).2 hcycle
    rw [h.mem_onLevel_settled hdistinct hnil hfs, hlayers.level_eq_iff hfs]

end

end Placed

/-! ## §5. The analysis levels -/

theorem leveledBy_nil (rel : FileDependencyRelation) : LeveledBy rel [] [] := by
  have hnone : ∀ {f : FileId} {k}, f ∉ onLevel [] k := fun hf => List.not_mem_nil hf
  refine ⟨.refl _, ?_, ?_, ?_, ?_, ?_⟩
  · exact fun hdep => absurd hdep.1 List.not_mem_nil
  · exact fun hf => absurd hf hnone
  · exact fun _ _ hf => absurd hf hnone
  · exact fun _ hf => absurd hf hnone
  · exact nofun

/-- One file stands alone, on the first level. -/
theorem leveledBy_singleton (rel : FileDependencyRelation) (f : FileId) :
    LeveledBy rel [f] [[f]] := by
  have honly : ∀ {g i}, g ∈ onLevel [[f]] i → g = f ∧ i = 0 := by
    intro g i hg
    unfold onLevel at hg
    cases i with
    | zero => exact ⟨by simpa using hg, rfl⟩
    | succ i => simp at hg
  have hself : ∀ {g h}, Depends rel [f] g h → AboveCycle (Depends rel [f]) g := by
    intro g h hdep
    have hg := List.mem_singleton.1 hdep.1
    have hh := List.mem_singleton.1 hdep.2.1
    subst hg hh
    exact ⟨_, .refl, .single hdep⟩
  refine ⟨.refl _, ?_, ?_, ?_, ?_, ?_⟩
  · intro g h i j hdep hcycle _ _
    exact absurd (hself hdep) hcycle
  · intro g h i hg hh hne
    exact absurd ((honly hg).1.trans (honly hh).1.symm) hne
  · intro g h i j hg hh hgi hhj
    rw [(honly hgi).1] at hg
    rw [(honly hhj).1] at hh
    exact absurd hg hh
  · intro g i _ hgi
    obtain ⟨rfl, rfl⟩ := honly hgi
    rfl
  · intro g hg hcycle k
    obtain rfl := List.mem_singleton.1 hg
    have hlayer : LongestChain (Depends rel [g]) g 0 := by
      refine ⟨.stop g, ?_⟩
      intro m hm
      cases hm with
      | stop => exact Nat.le_refl 0
      | step hdep _ => exact absurd (hself hdep) hcycle
    constructor
    · intro hk
      rw [(honly hk).2]
      exact hlayer
    · intro hk
      have hzero : k = 0 := Nat.le_zero.1 (hlayer.2 k hk.1)
      rw [hzero]
      simp [onLevel]

/-- **The analysis levels are the lengths of the longest dependency chains**, with the files
on a cycle, or depending on one, at the end. -/
theorem getAnalysisLevels_leveled (rel : FileDependencyRelation) (fileIds : List FileId)
    (metas : HashSet FileId) (hdistinct : fileIds.Nodup) :
    LeveledBy rel fileIds (rel.getAnalysisLevels fileIds metas) := by
  unfold FileDependencyRelation.getAnalysisLevels
  split
  · rename_i hsmall
    match fileIds, hsmall with
    | [], _ => exact leveledBy_nil rel
    | [f], _ => exact leveledBy_singleton rel f
  · obtain ⟨done, hplaced, hnil⟩ := queue_settled rel metas hdistinct
    have hleveled := hplaced.leveledBy hdistinct hnil
    simp only
    split
    · exact hleveled
    · -- Every file was popped, so that nothing is left over.
      rename_i hpopped
      have hlength := (hplaced.done_append_leftover hnil).length_eq
      rw [List.length_append, List.length_finRange, ← hplaced.popped] at hlength
      have hrest : leftover (rel.settledLevels fileIds metas) = [] :=
        List.length_eq_zero_iff.1 (by omega)
      rwa [hrest, List.map_nil, List.append_nil] at hleveled

/-- A chain of two files, and a file that depends on itself. -/
theorem getAnalysisLevels_leveled_self : let relation : FileDependencyRelation :=
      ⟨(AList.insert ⟨1⟩ (AList.insert ⟨0⟩ () ∅) ∅ : HashMap FileId (HashSet FileId)).insert ⟨2⟩
        (AList.insert ⟨2⟩ () ∅)⟩
    [(⟨2⟩ : FileId), ⟨1⟩, ⟨0⟩].Nodup ∧
      LeveledBy relation [⟨2⟩, ⟨1⟩, ⟨0⟩] (relation.getAnalysisLevels [⟨2⟩, ⟨1⟩, ⟨0⟩] ∅) :=
  ⟨by decide, getAnalysisLevels_leveled _ _ _ (by decide)⟩

end GluaLs.Dep
