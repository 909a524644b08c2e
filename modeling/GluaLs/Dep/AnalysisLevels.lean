/-
  GluaLs.Dep.AnalysisLevels — the order files are analysed in
  (`dependency/file_dependency_relation.rs`).

  `getAnalysisLevels` groups files into levels, so that no file depends on one of its own
  level: the files without a listed dependency first, and then every file when the last of
  its dependencies has been placed.  What is left in the end is on a cycle or depends on one,
  and is placed file by file.

  The arrays of the source are indexed by the places of the files in the list: here they are
  functions of a place, and a place is a `Fin`, so that no index is out of range.  The loop over
  the queue is a step (`pop`) taken while there is something in the queue.
-/
import Mathlib.Data.List.FinRange
import GluaLs.Lib.Layers
import GluaLs.Dep.Index

namespace GluaLs.Dep

open GluaLs.Lib

/-! ## §1. The graph of the listed files -/

structure FileDependencyRelation where
  dependencies : HashMap FileId (HashSet FileId)

/-- The in-degrees and the neighbors of `n` files, by their places. -/
structure FileGraph (n : Nat) where
  inDegree : Fin n → Nat
  adjacency : Fin n → List (Fin n)

/-- `adjacency[dep_idx].push(idx); in_degree[idx] += 1` -/
def FileGraph.addEdge {n : Nat} (graph : FileGraph n) (depIdx idx : Fin n) : FileGraph n where
  inDegree := Function.update graph.inDegree idx (graph.inDegree idx + 1)
  adjacency := Function.update graph.adjacency depIdx (graph.adjacency depIdx ++ [idx])

def fileToIdx (fileIds : List FileId) : HashMap FileId (Fin fileIds.length) :=
  (List.finRange fileIds.length).foldl (fun map i => map.insert (fileIds.get i) i) ∅

namespace FileDependencyRelation

/-- The places of a file's dependencies, of those that are listed. -/
def listedDeps (self : FileDependencyRelation) (fileIds : List FileId)
    (idx : Fin fileIds.length) : List (Fin fileIds.length) :=
  match self.dependencies.lookup (fileIds.get idx) with
  | some deps => deps.keys.filterMap (fileToIdx fileIds).lookup
  | none => []

def fileGraph (self : FileDependencyRelation) (fileIds : List FileId) : FileGraph fileIds.length :=
  (List.finRange fileIds.length).foldl
    (fun graph idx => (self.listedDeps fileIds idx).foldl
      (fun graph depIdx => graph.addEdge depIdx idx) graph)
    ⟨fun _ => 0, fun _ => []⟩

end FileDependencyRelation

/-! ## §2. The queue -/

/-- Meta files first, then by `FileId`. -/
def compareByPriority (metas : HashSet FileId) (a b : FileId) : Ordering :=
  match decide (b ∈ metas), decide (a ∈ metas) with
  | true, false => .gt
  | false, true => .lt
  | _, _ => compare a.id b.id

def sortByPriority (fileIds : List FileId) (metas : HashSet FileId)
    (places : List (Fin fileIds.length)) : List (Fin fileIds.length) :=
  places.mergeSort fun a b =>
    (compareByPriority metas (fileIds.get a) (fileIds.get b)).isLE

/-- What the loop over the queue reads and writes. -/
structure LevelState (n : Nat) where
  inDegree : Fin n → Nat
  nodeLevel : Fin n → Nat
  queue : List (Fin n)
  levels : List (List FileId)
  popped : Nat

/-- What the loop over the neighbors of one file reads and writes. -/
structure Released (n : Nat) where
  inDegree : Fin n → Nat
  nodeLevel : Fin n → Nat
  newZero : List (Fin n)

/-- One dependency of `neighbor` is placed on `level`. -/
def Released.release {n : Nat} (level : Nat) (s : Released n) (neighbor : Fin n) : Released n :=
  let inDegree := Function.update s.inDegree neighbor (s.inDegree neighbor - 1)
  if inDegree neighbor = 0 then
    { inDegree
      -- FIFO pops breadth-first, so the file just placed is the deepest dependency.
      nodeLevel := Function.update s.nodeLevel neighbor (level + 1)
      newZero := s.newZero ++ [neighbor] }
  else { s with inDegree }

/-- `levels[level].push(file)`, on a new level when there is none yet. -/
def pushOnLevel (levels : List (List FileId)) (level : Nat) (file : FileId) : List (List FileId) :=
  let levels := if levels.length = level then levels ++ [[]] else levels
  levels.modify level (· ++ [file])

/-- One round of the loop. -/
def LevelState.pop (fileIds : List FileId) (metas : HashSet FileId)
    (adjacency : Fin fileIds.length → List (Fin fileIds.length))
    (s : LevelState fileIds.length) : LevelState fileIds.length :=
  match s.queue with
  | [] => s
  | idx :: queue =>
    let level := s.nodeLevel idx
    let released :=
      (adjacency idx).foldl (Released.release level) ⟨s.inDegree, s.nodeLevel, []⟩
    let newZero :=
      if released.newZero.length > 1 then sortByPriority fileIds metas released.newZero
      else released.newZero
    { inDegree := released.inDegree
      nodeLevel := released.nodeLevel
      queue := queue ++ newZero
      levels := pushOnLevel s.levels level (fileIds.get idx)
      popped := s.popped + 1 }

namespace FileDependencyRelation

def initialLevels (self : FileDependencyRelation) (fileIds : List FileId)
    (metas : HashSet FileId) : LevelState fileIds.length where
  inDegree := (self.fileGraph fileIds).inDegree
  nodeLevel := fun _ => 0
  queue := sortByPriority fileIds metas
    ((List.finRange fileIds.length).filter fun i => (self.fileGraph fileIds).inDegree i = 0)
  levels := []
  popped := 0

/-- The loop over the queue.  Every place is queued at most once, so that there are no more
rounds than files (`queue_settled`). -/
def settledLevels (self : FileDependencyRelation) (fileIds : List FileId)
    (metas : HashSet FileId) : LevelState fileIds.length :=
  (LevelState.pop fileIds metas (self.fileGraph fileIds).adjacency)^[fileIds.length]
    (self.initialLevels fileIds metas)

def getAnalysisLevels (self : FileDependencyRelation) (fileIds : List FileId)
    (metas : HashSet FileId) : List (List FileId) :=
  if fileIds.length < 2 then fileIds.map ([·])
  else
    let s := self.settledLevels fileIds metas
    if s.popped < fileIds.length then
      -- One file per level: a cycle has no safe concurrent order.
      s.levels ++ ((List.finRange fileIds.length).filter fun idx => 0 < s.inDegree idx).map
        fun idx => [fileIds.get idx]
    else s.levels

end FileDependencyRelation

/-! ## §3. What the graph says -/

section

variable {n : Nat}

/-- Every edge counts once for the file it comes from, and is listed by the file it goes to. -/
theorem foldl_addEdge (edges : List (Fin n × Fin n)) (graph : FileGraph n) (i : Fin n) :
    (edges.foldl (fun g e => g.addEdge e.1 e.2) graph).inDegree i =
        graph.inDegree i + (edges.filter (·.2 = i)).length ∧
      (edges.foldl (fun g e => g.addEdge e.1 e.2) graph).adjacency i =
        graph.adjacency i ++ (edges.filter (·.1 = i)).map (·.2) := by
  induction edges generalizing graph with
  | nil => simp
  | cons e edges ih =>
    obtain ⟨hdegree, hadjacency⟩ := ih (graph.addEdge e.1 e.2)
    rw [List.foldl_cons, hdegree, hadjacency]
    unfold FileGraph.addEdge
    simp only [Function.update_apply, List.filter_cons, decide_eq_true_eq]
    refine ⟨?_, ?_⟩
    · by_cases hi : e.2 = i
      · simp [hi]; omega
      · simp [hi, Ne.symm hi]
    · by_cases hi : e.1 = i
      · simp [hi]
      · simp [hi, Ne.symm hi]

/-- The edges into one place, of edges that are listed by the place they go to. -/
theorem edges_into (deps : Fin n → List (Fin n)) (places : List (Fin n)) (hplaces : places.Nodup)
    (i : Fin n) :
    (places.flatMap fun j => (deps j).map (·, j)).filter (·.2 = i) =
      if i ∈ places then (deps i).map (·, i) else [] := by
  induction places with
  | nil => simp
  | cons j places ih =>
    obtain ⟨hj, hplaces⟩ := List.nodup_cons.1 hplaces
    rw [List.flatMap_cons, List.filter_append, ih hplaces]
    by_cases hij : i = j
    · subst hij
      simp [hj, List.filter_map, Function.comp_def]
    · simp [hij, Ne.symm hij, List.filter_map, Function.comp_def]

/-- The edges out of one place. -/
theorem edges_from (deps : Fin n → List (Fin n)) (hdeps : ∀ i, (deps i).Nodup)
    (places : List (Fin n)) (d : Fin n) :
    ((places.flatMap fun j => (deps j).map (·, j)).filter (·.1 = d)).map (·.2) =
      places.filter fun j => d ∈ deps j := by
  induction places with
  | nil => rfl
  | cons j places ih =>
    rw [List.flatMap_cons, List.filter_append, List.map_append, ih, List.filter_map, List.map_map,
      List.filter_cons]
    have hcount : (deps j).filter (fun b => b = d) = if d ∈ deps j then [d] else [] := by
      rw [List.filter_eq]
      split
      · rename_i hd
        rw [List.count_eq_one_of_mem (hdeps j) hd, List.replicate_one]
      · rename_i hd
        rw [List.count_eq_zero.2 hd, List.replicate_zero]
    by_cases hd : d ∈ deps j
    · simp [Function.comp_def, hcount, hd]
    · simp [Function.comp_def, hcount, hd]

end

namespace FileDependencyRelation

variable (self : FileDependencyRelation) {fileIds : List FileId}

/-- The file is known to depend on the other one. -/
def DependsOn (f g : FileId) : Prop :=
  ∃ deps, self.dependencies.lookup f = some deps ∧ g ∈ deps

/-- Where a file was found is one of its places, and with distinct files the only one. -/
theorem lookup_fileToIdx (hdistinct : fileIds.Nodup) (f : FileId) (i : Fin fileIds.length) :
    (fileToIdx fileIds).lookup f = some i ↔ fileIds.get i = f := by
  have hinj : Function.Injective fileIds.get := List.nodup_iff_injective_get.1 hdistinct
  have hfold : ∀ (places : List (Fin fileIds.length)) (map : HashMap FileId (Fin fileIds.length)),
      (places.foldl (fun map i => map.insert (fileIds.get i) i) map).lookup f = some i ↔
        (i ∈ places ∧ fileIds.get i = f) ∨
          (∀ j ∈ places, fileIds.get j ≠ f) ∧ map.lookup f = some i := by
    intro places
    induction places with
    | nil => intro map; simp
    | cons j places ih =>
      intro map
      rw [List.foldl_cons, ih, lookup_insert_ite]
      by_cases hj : f = fileIds.get j
      · subst hj
        have hij : (fileIds.get i = fileIds.get j) ↔ i = j := hinj.eq_iff
        simp only [List.mem_cons, if_true, Option.some.injEq, hij]
        grind
      · rw [if_neg hj]
        simp only [List.mem_cons]
        grind
  rw [fileToIdx, hfold]
  simp

theorem mem_listedDeps (hdistinct : fileIds.Nodup) (d i : Fin fileIds.length) :
    d ∈ self.listedDeps fileIds i ↔ self.DependsOn (fileIds.get i) (fileIds.get d) := by
  unfold listedDeps DependsOn
  cases self.dependencies.lookup (fileIds.get i) with
  | none => simp
  | some deps =>
    simp only [List.mem_filterMap, lookup_fileToIdx hdistinct, Option.some.injEq, exists_eq_left']
    simp only [exists_eq_right', AList.mem_keys]

theorem nodup_listedDeps (hdistinct : fileIds.Nodup) (i : Fin fileIds.length) :
    (self.listedDeps fileIds i).Nodup := by
  unfold listedDeps
  cases self.dependencies.lookup (fileIds.get i) with
  | none => exact List.nodup_nil
  | some deps =>
    refine List.Nodup.filterMap ?_ deps.keys_nodup
    intro f g d hf hg
    rw [Option.mem_def, lookup_fileToIdx hdistinct] at hf hg
    rw [← hf, hg]

theorem fileGraph_eq_edges :
    self.fileGraph fileIds =
      ((List.finRange fileIds.length).flatMap fun i =>
        (self.listedDeps fileIds i).map (·, i)).foldl (fun g e => g.addEdge e.1 e.2)
        ⟨fun _ => 0, fun _ => []⟩ := by
  rw [List.foldl_flatMap]
  simp only [List.foldl_map]
  rfl

theorem inDegree_fileGraph (i : Fin fileIds.length) :
    (self.fileGraph fileIds).inDegree i = (self.listedDeps fileIds i).length := by
  rw [fileGraph_eq_edges, (foldl_addEdge _ _ i).1, edges_into _ _ (List.nodup_finRange _)]
  simp

theorem adjacency_fileGraph (hdistinct : fileIds.Nodup) (d : Fin fileIds.length) :
    (self.fileGraph fileIds).adjacency d =
      (List.finRange fileIds.length).filter fun i => d ∈ self.listedDeps fileIds i := by
  rw [fileGraph_eq_edges, (foldl_addEdge _ _ d).2, edges_from _ (self.nodup_listedDeps hdistinct)]
  simp

end FileDependencyRelation

end GluaLs.Dep
