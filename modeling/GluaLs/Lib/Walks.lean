/-
  GluaLs.Lib.Walks — walks along the labelled edges of a tree of numbered nodes.

  Nodes have ids, and an edge leads from a node, by a label, to another.  A WALK follows a
  list of labels from the root.  In a TREE no two walks end in one node.  Two ways to
  change the edges, each with the walk it adds or takes away:

    • `grown` — an edge to a node that nothing leads to or from,
    • `cut` — the edge to a node that has no edges of its own is gone.
-/
import Mathlib.Data.List.Induction

namespace GluaLs.Lib.Walks

variable {Id Part : Type}

/-- The node a walk ends in. -/
def walk (edge : Id → Part → Option Id) : Id → List Part → Option Id
  | id, [] => some id
  | id, part :: parts => (edge id part).bind fun child => walk edge child parts

theorem walk_append (edge : Id → Part → Option Id) (p q : List Part) : ∀ id : Id,
    walk edge id (p ++ q) = (walk edge id p).bind fun id => walk edge id q := by
  induction p with
  | nil => exact fun id => rfl
  | cons part parts ih =>
    intro id
    show (edge id part).bind _ = ((edge id part).bind _).bind _
    rw [Option.bind_assoc]
    exact congrArg _ (funext ih)

theorem walk_concat (edge : Id → Part → Option Id) (id : Id) (p : List Part) (part : Part) :
    walk edge id (p ++ [part]) = (walk edge id p).bind fun id => edge id part := by
  rw [walk_append]
  apply congrArg
  funext child
  show (edge child part).bind some = edge child part
  exact Option.bind_fun_some _

/-- **No two walks from the root end in one node.** -/
def Tree (edge : Id → Part → Option Id) (root : Id) : Prop :=
  ∀ p q id, walk edge root p = some id → walk edge root q = some id → p = q

/-- A walk that takes no edge ends where it started. -/
theorem walk_eq_none_of_leaf {edge : Id → Part → Option Id} {id : Id}
    (hleaf : ∀ part, edge id part = none) (part : Part) (parts : List Part) :
    walk edge id (part :: parts) = none := by
  show (edge id part).bind _ = none
  rw [hleaf]
  rfl

/-- A walk ends in the root or in a node an edge leads to. -/
theorem walk_target {edge : Id → Part → Option Id} {root id : Id} (p : List Part)
    (h : walk edge root p = some id) : id = root ∨ ∃ up part, edge up part = some id := by
  cases p using List.reverseRecOn with
  | nil => exact .inl (Option.some.inj h).symm
  | append_singleton p part =>
    rw [walk_concat] at h
    obtain ⟨up, -, hup⟩ := Option.bind_eq_some_iff.1 h
    exact .inr ⟨up, part, hup⟩

section

variable [DecidableEq Part] {edge edge' : Id → Part → Option Id} {root up : Id}
variable {p : List Part} {part : Part}

/-- **One edge of a tree changed**, to and from nodes without edges: one walk changes. -/
theorem walk_changed {child : Option Id} (htree : Tree edge root)
    (hp : walk edge root p = some up) (hold : ∀ id x, edge up part = some id → edge id x = none)
    (hnew : ∀ id x, child = some id → edge' id x = none) (hchild : edge' up part = child)
    (hsame : ∀ id x, ¬ (id = up ∧ x = part) → edge' id x = edge id x) (q : List Part) :
    walk edge' root q = if q = p ++ [part] then child else walk edge root q := by
  induction q using List.reverseRecOn with
  | nil =>
    rw [if_neg (by simp)]
    rfl
  | append_singleton q x ih =>
    rw [walk_concat, walk_concat, ih]
    by_cases hq : q = p ++ [part]
    · -- nothing leads on from either node
      have hwalk : walk edge root q = edge up part := by
        rw [hq, walk_concat, hp]
        rfl
      rw [if_pos hq, if_neg (by rw [hq]; simp), hwalk,
        Option.bind_eq_none_iff.2 fun id hid => hnew id x hid,
        Option.bind_eq_none_iff.2 fun id hid => hold id x hid]
    · rw [if_neg hq]
      cases hwalk : walk edge root q with
      | none =>
        have hne : q ++ [x] ≠ p ++ [part] := by
          intro heq
          obtain ⟨rfl, -⟩ := List.append_inj' heq rfl
          rw [hp] at hwalk
          cases hwalk
        rw [if_neg hne]
        rfl
      | some id =>
        show edge' id x = if _ then _ else edge id x
        by_cases hid : id = up ∧ x = part
        · have hqp : q = p := htree q p up (hid.1 ▸ hwalk) hp
          rw [if_pos (by rw [hqp, hid.2]), hid.1, hid.2]
          exact hchild
        · have hne : q ++ [x] ≠ p ++ [part] := by
            intro heq
            obtain ⟨rfl, hx⟩ := List.append_inj' heq rfl
            rw [hp] at hwalk
            exact hid ⟨(Option.some.inj hwalk).symm, by simpa using hx⟩
          rw [if_neg hne]
          exact hsame id x hid

/-- **A tree that grows an edge** to a node that nothing leads to or from has one walk more. -/
theorem walk_grown {child : Id} (htree : Tree edge root) (hp : walk edge root p = some up)
    (hchild : child ≠ root) (hin : ∀ id x, edge id x ≠ some child)
    (hout : ∀ x, edge child x = none) (hnew : edge' up part = some child)
    (hsame : ∀ id x, ¬ (id = up ∧ x = part) → edge' id x = edge id x)
    (hfree : edge up part = none) (q : List Part) :
    walk edge' root q = if q = p ++ [part] then some child else walk edge root q := by
  have hup : up ≠ child := by
    intro heq
    obtain hroot | ⟨id, x, hedge⟩ := walk_target p hp
    · exact hchild (heq.symm.trans hroot)
    · rw [heq] at hedge
      exact hin id x hedge
  refine walk_changed htree hp (by simp [hfree]) ?_ hnew hsame q
  intro id x hid
  cases hid
  rw [hsame child x (fun h => hup h.1.symm)]
  exact hout x

theorem tree_grown {child : Id} (htree : Tree edge root) (hchild : child ≠ root)
    (hin : ∀ id x, edge id x ≠ some child)
    (hwalk : ∀ q, walk edge' root q = if q = p ++ [part] then some child else walk edge root q) :
    Tree edge' root := by
  have hnot : ∀ q, walk edge root q ≠ some child := by
    intro q hq
    obtain hroot | ⟨id, x, hedge⟩ := walk_target q hq
    · exact hchild hroot
    · exact hin id x hedge
  intro q q' id hq hq'
  rw [hwalk] at hq hq'
  split at hq
  · rename_i heq
    split at hq'
    · rename_i heq'
      rw [heq, heq']
    · rw [← Option.some.inj hq] at hq'
      exact absurd hq' (hnot q')
  · split at hq'
    · rw [← Option.some.inj hq'] at hq
      exact absurd hq (hnot q)
    · exact htree q q' id hq hq'

/-- **A tree whose edge to a node without edges is cut** has one walk less. -/
theorem walk_cut {child : Id} (htree : Tree edge root) (hp : walk edge root p = some up)
    (hedge : edge up part = some child) (hout : ∀ x, edge child x = none)
    (hgone : edge' up part = none)
    (hsame : ∀ id x, ¬ (id = up ∧ x = part) → edge' id x = edge id x) (q : List Part) :
    walk edge' root q = if q = p ++ [part] then none else walk edge root q := by
  refine walk_changed htree hp ?_ (by simp) hgone hsame q
  intro id x hid
  obtain rfl := Option.some.inj (hedge.symm.trans hid)
  exact hout x

theorem tree_cut (htree : Tree edge root)
    (hwalk : ∀ q, walk edge' root q = if q = p ++ [part] then none else walk edge root q) :
    Tree edge' root := by
  intro q q' id hq hq'
  rw [hwalk] at hq hq'
  split at hq
  · cases hq
  · split at hq'
    · cases hq'
    · exact htree q q' id hq hq'

end

end GluaLs.Lib.Walks
