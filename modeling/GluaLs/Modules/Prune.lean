/-
  GluaLs.Modules.Prune — what pruning does to the tree.

  A node HANGS when the edge to it is all that is left of it: nothing is listed there and
  nothing leads on.  Pruning cuts that edge, and then every node above that is left empty.  No
  file is lost and no other path (`pruned_of_hanging`).

  But the node it starts from stays in the map, where nothing leads to it any more
  (`Unfiled.leftover`).
-/
import GluaLs.Modules.Tree

namespace GluaLs.Modules

open GluaLs.Lib GluaLs.Lib.Walks LuaModuleIndex

/-! ## §1. A node that hangs -/

/-- The node `child`, below `up` by `part`, is empty or gone. -/
structure Hanging (nodes : HashMap ModuleNodeId ModuleNode) (counter : Nat) (path : List Text)
    (part : Text) (up child : ModuleNodeId) : Prop where
  root : (nodes.lookup moduleRootId).isSome
  tree : Tree (edge nodes) moduleRootId
  at' : site nodes path = some up
  hangs : edge nodes up part = some child
  leaf : ∀ x, edge nodes child x = none
  parents : ∀ id x other, edge nodes id x = some other → other ≠ child →
    ∃ node, nodes.lookup other = some node ∧ node.parent = some id
  linked : ∀ id x other, edge nodes id x = some other → ∃ path, site nodes path = some id
  below : ∀ id, (nodes.lookup id).isSome → id < counter
  used : ∀ q id node, site nodes q = some id → nodes.lookup id = some node →
    q = [] ∨ node.isEmpty = false ∨ id = child
  files : filesAt nodes (path ++ [part]) = []

/-- The nodes without the edge to one that hangs, and perhaps without the node above. -/
structure CutOff (nodes nodes' : HashMap ModuleNodeId ModuleNode) (part : Text)
    (up : ModuleNodeId) : Prop where
  gone : edge nodes' up part = none
  same : ∀ id x, ¬ (id = up ∧ x = part) → edge nodes' id x = edge nodes id x
  others : ∀ id, id ≠ up → nodes'.lookup id = nodes.lookup id

section

variable {nodes nodes' : HashMap ModuleNodeId ModuleNode} {counter : Nat} {path : List Text}
variable {part : Text} {up child : ModuleNodeId}

namespace Hanging

section

variable (h : Hanging nodes counter path part up child)
include h

theorem site_child : site nodes (path ++ [part]) = some child := by
  rw [site_concat, h.at']
  exact h.hangs

theorem up_ne_child : up ≠ child := by
  intro heq
  have hedge := h.hangs
  rw [heq, h.leaf] at hedge
  cases hedge

/-- Only one edge leads to the node. -/
theorem eq_of_edge {id : ModuleNodeId} {x : Text}
    (hedge : edge nodes id x = some child) : id = up ∧ x = part := by
  obtain ⟨q, hq⟩ := h.linked id x child hedge
  have hsite : site nodes (q ++ [x]) = some child := by
    rw [site_concat, hq]
    exact hedge
  obtain ⟨rfl, hx⟩ := List.append_inj' (h.tree _ _ child hsite h.site_child) rfl
  rw [h.at'] at hq
  exact ⟨(Option.some.inj hq).symm, by simpa using hx⟩

theorem lookup_of_site {q : List Text}
    {id : ModuleNodeId} (hsite : site nodes q = some id) (hne : id ≠ child) :
    ∃ node, nodes.lookup id = some node := by
  obtain heq | ⟨above, x, hedge⟩ := walk_target q hsite
  · rw [heq]
    exact Option.isSome_iff_exists.1 h.root
  · obtain ⟨node, hnode, -⟩ := h.parents above x id hedge hne
    exact ⟨node, hnode⟩

end

section

variable (h : Hanging nodes counter path part up child) (hcut : CutOff nodes nodes' part up)
include h hcut

theorem site_cutOff (q : List Text) :
    site nodes' q = if q = path ++ [part] then none else site nodes q :=
  walk_cut h.tree h.at' h.hangs h.leaf hcut.gone hcut.same q

theorem tree_cutOff : Tree (edge nodes') moduleRootId :=
  tree_cut h.tree (h.site_cutOff hcut)

/-- Nothing leads to the node any more. -/
theorem site_ne_child (q : List Text) : site nodes' q ≠ some child := by
  intro hq
  rw [h.site_cutOff hcut] at hq
  split at hq
  · cases hq
  · rename_i hne
    exact hne (h.tree _ _ child hq h.site_child)

/-- An edge that is left was there, and leads elsewhere. -/
theorem edge_cutOff {id : ModuleNodeId} {x : Text} {other : ModuleNodeId}
    (hedge : edge nodes' id x = some other) : edge nodes id x = some other ∧ other ≠ child := by
  have hne : ¬ (id = up ∧ x = part) := by
    intro hhere
    rw [hhere.1, hhere.2, hcut.gone] at hedge
    cases hedge
  have hold : edge nodes id x = some other := by
    rw [← hcut.same id x hne]
    exact hedge
  refine ⟨hold, ?_⟩
  intro heq
  exact hne (h.eq_of_edge (heq ▸ hold))

/-- Only nodes a path leads to have edges, still. -/
theorem linked_cutOff {id : ModuleNodeId} {x : Text} {other : ModuleNodeId}
    (hedge : edge nodes' id x = some other) : ∃ q, site nodes' q = some id := by
  obtain ⟨hold, -⟩ := h.edge_cutOff hcut hedge
  obtain ⟨q, hq⟩ := h.linked id x other hold
  refine ⟨q, ?_⟩
  rw [h.site_cutOff hcut, if_neg]
  · exact hq
  · intro heq
    rw [heq, h.site_child] at hq
    rw [← Option.some.inj hq, h.leaf] at hold
    cases hold

end

end Hanging

/-- Cutting the edge in place. -/
theorem cutOff_insert (h : Hanging nodes counter path part up child) {node : ModuleNode}
    (hnode : nodes.lookup up = some node) :
    CutOff nodes (nodes.insert up (cutChild child node)) part up where
  gone := by
    rw [edge_of_lookup (by rw [lookup_insert_ite, if_pos rfl])]
    show (node.children.filterMapEntries _).lookup part = none
    rw [AList.lookup_filterMapEntries, ← edge_of_lookup hnode, h.hangs]
    exact if_pos rfl
  same id x hne := by
    by_cases hid : id = up
    · rw [hid, edge_of_lookup (by rw [lookup_insert_ite, if_pos rfl]), edge_of_lookup hnode]
      show (node.children.filterMapEntries _).lookup x = _
      rw [AList.lookup_filterMapEntries]
      cases hx : node.children.lookup x with
      | none => rfl
      | some other =>
        apply if_neg
        intro heq
        apply hne
        apply h.eq_of_edge
        rw [hid, edge_of_lookup hnode, hx, heq]
    · unfold edge
      rw [lookup_insert_ite, if_neg hid]
  others id hid := by rw [lookup_insert_ite, if_neg hid]

/-- A node that is left empty goes as a whole. -/
theorem cutOff_erase (h : Hanging nodes counter path part up child) {node : ModuleNode}
    (hnode : nodes.lookup up = some node) (hempty : (cutChild child node).isEmpty = true) :
    CutOff nodes (nodes.erase up) part up where
  gone := edge_of_lookup_none (by rw [lookup_erase_ite, if_pos rfl]) part
  same id x hne := by
    by_cases hid : id = up
    · have hcut := cutOff_insert h hnode
      rw [← hcut.same id x hne, hid, edge_of_lookup_none (by rw [lookup_erase_ite, if_pos rfl]),
        edge_eq_none_of_isEmpty (by rw [lookup_insert_ite, if_pos rfl]) hempty]
    · unfold edge
      rw [lookup_erase_ite, if_neg hid]
  others id hid := by rw [lookup_erase_ite, if_neg hid]

/-! ## §2. The loop -/

/-- **What pruning leaves**: no file is lost, and only nodes that were left empty go. -/
structure Pruned (nodes nodes' : HashMap ModuleNodeId ModuleNode) (counter : Nat)
    (child : ModuleNodeId) : Prop where
  forest : Forest nodes' counter none
  files : ∀ q, filesAt nodes' q = filesAt nodes q
  sites : ∀ q id, site nodes' q = some id → site nodes q = some id
  kept : ∀ q id, site nodes q = some id → id ≠ child → (nodes'.lookup id).isSome →
    site nodes' q = some id
  present : ∀ id, (nodes'.lookup id).isSome → (nodes.lookup id).isSome
  others : ∀ id, (∀ q, site nodes q ≠ some id) → nodes'.lookup id = nodes.lookup id
  unlinked : ∀ q, site nodes' q ≠ some child
  left : nodes'.lookup child = nodes.lookup child

/-- Where a node stays used after the cut. -/
theorem Hanging.forest_cutOff (h : Hanging nodes counter path part up child)
    (hcut : CutOff nodes nodes' part up) {node node' : ModuleNode}
    (hnode : nodes.lookup up = some node) (hnode' : nodes'.lookup up = some node')
    (hparent : node'.parent = node.parent)
    (hused : up = moduleRootId ∨ node'.isEmpty = false) : Forest nodes' counter none where
  root := by
    by_cases heq : moduleRootId = up
    · rw [heq, hnode']
      rfl
    · rw [hcut.others _ heq]
      exact h.root
  tree := h.tree_cutOff hcut
  child id x other hedge := by
    obtain ⟨hold, hne⟩ := h.edge_cutOff hcut hedge
    obtain ⟨old, hlookup, hup⟩ := h.parents id x other hold hne
    by_cases heq : other = up
    · rw [heq, hnode] at hlookup
      rw [heq]
      refine ⟨node', hnode', ?_⟩
      rw [hparent, Option.some.inj hlookup]
      exact hup
    · rw [hcut.others other heq]
      exact ⟨old, hlookup, hup⟩
  linked id x other hedge := h.linked_cutOff hcut hedge
  below id hid := by
    by_cases heq : id = up
    · rw [heq]
      exact h.below up (by rw [hnode]; rfl)
    · rw [hcut.others id heq] at hid
      exact h.below id hid
  used q id other hsite hlookup := by
    have hold : site nodes q = some id := by
      rw [h.site_cutOff hcut] at hsite
      split at hsite
      · cases hsite
      · exact hsite
    by_cases heq : id = up
    · obtain hroot | hempty := hused
      · exact .inl (h.tree q [] id hold (by rw [heq, hroot]; rfl))
      · rw [heq, hnode'] at hlookup
        cases hlookup
        exact .inr (.inl hempty)
    · rw [hcut.others id heq] at hlookup
      obtain hnil | hempty | hchild := h.used q id other hold hlookup
      · exact .inl hnil
      · exact .inr (.inl hempty)
      · exact absurd (hchild ▸ hsite) (h.site_ne_child hcut q)

theorem Hanging.filesAt_cutOff (h : Hanging nodes counter path part up child)
    (hcut : CutOff nodes nodes' part up) {node : ModuleNode} (hnode : nodes.lookup up = some node)
    (hfiles : ((nodes'.lookup up).map ModuleNode.fileIds).getD [] = node.fileIds)
    (q : List Text) : filesAt nodes' q = filesAt nodes q := by
  by_cases hq : q = path ++ [part]
  · rw [hq, h.files]
    exact filesAt_of_site_none (by rw [h.site_cutOff hcut, if_pos rfl])
  · have hsite : site nodes' q = site nodes q := by rw [h.site_cutOff hcut, if_neg hq]
    unfold filesAt
    rw [hsite]
    cases hat : site nodes q with
    | none => rfl
    | some id =>
      show ((nodes'.lookup id).map _).getD [] = ((nodes.lookup id).map _).getD []
      by_cases heq : id = up
      · rw [heq, hfiles, hnode]
        rfl
      · rw [hcut.others id heq]

section

variable (h : Hanging nodes counter path part up child) {node : ModuleNode}
  (hnode : nodes.lookup up = some node)
include h hnode

/-- The cut edge was the last one to go. -/
theorem Hanging.pruned_insert (hused : up = moduleRootId ∨ (cutChild child node).isEmpty = false) :
    Pruned nodes (nodes.insert up (cutChild child node)) counter child := by
  have hcut := cutOff_insert h hnode
  have hnew : (nodes.insert up (cutChild child node)).lookup up = some (cutChild child node) := by
    rw [lookup_insert_ite, if_pos rfl]
  refine ⟨h.forest_cutOff hcut hnode hnew rfl hused, ?_, ?_, ?_, ?_, ?_, h.site_ne_child hcut, ?_⟩
  · apply h.filesAt_cutOff hcut hnode
    rw [hnew]
    rfl
  · intro q id hq
    rw [h.site_cutOff hcut] at hq
    split at hq
    · cases hq
    · exact hq
  · intro q id hq hne _
    rw [h.site_cutOff hcut, if_neg]
    · exact hq
    · intro heq
      rw [heq, h.site_child] at hq
      exact hne (Option.some.inj hq).symm
  · intro id hid
    by_cases heq : id = up
    · rw [heq, hnode]
      rfl
    · rw [hcut.others id heq] at hid
      exact hid
  · intro id hid
    apply hcut.others
    intro heq
    exact hid path (heq ▸ h.at')
  · exact hcut.others child h.up_ne_child.symm

/-- **A node left empty hangs in turn.** -/
theorem Hanging.erase (hroot : up ≠ moduleRootId) (hempty : (cutChild child node).isEmpty = true) :
    ∃ path' part' up', node.parent = some up' ∧
      Hanging (nodes.erase up) counter path' part' up' up := by
  have hcut := cutOff_erase h hnode hempty
  have hgone : (nodes.erase up).lookup up = none := by rw [lookup_erase_ite, if_pos rfl]
  cases path using List.reverseRecOn with
  | nil => exact absurd (Option.some.inj h.at').symm hroot
  | append_singleton path' part' =>
    have hat := h.at'
    rw [site_concat] at hat
    obtain ⟨up', hup', hedge⟩ := Option.bind_eq_some_iff.1 hat
    obtain ⟨old, hold, hparent⟩ := h.parents up' part' up hedge h.up_ne_child
    rw [hnode] at hold
    rw [← Option.some.inj hold] at hparent
    have hne : up' ≠ up := by
      intro heq
      have hloop := h.tree path' (path' ++ [part']) up (heq ▸ hup') h.at'
      have hlen := congrArg List.length hloop
      simp at hlen
    refine ⟨path', part', up', hparent, ?_⟩
    refine { root := ?_, tree := h.tree_cutOff hcut, at' := ?_, hangs := ?_, leaf := ?_,
             parents := ?_, linked := fun id x other => h.linked_cutOff hcut, below := ?_,
             used := ?_, files := ?_ }
    · rw [hcut.others _ (Ne.symm hroot)]
      exact h.root
    · rw [h.site_cutOff hcut, if_neg]
      · exact hup'
      · intro heq
        have hlen := congrArg List.length heq
        simp at hlen
    · rw [hcut.same up' part' (fun hhere => hne hhere.1)]
      exact hedge
    · exact edge_of_lookup_none hgone
    · intro id x other hother hup
      obtain ⟨hold', hchild⟩ := h.edge_cutOff hcut hother
      rw [hcut.others other hup]
      exact h.parents id x other hold' hchild
    · intro id hid
      by_cases heq : id = up
      · rw [heq, hgone] at hid
        cases hid
      · rw [hcut.others id heq] at hid
        exact h.below id hid
    · intro q id other hsite hlookup
      by_cases heq : id = up
      · exact .inr (.inr heq)
      · rw [hcut.others id heq] at hlookup
        have hsite' := hsite
        rw [h.site_cutOff hcut] at hsite'
        split at hsite'
        · cases hsite'
        · obtain hnil | hused | hchild := h.used q id other hsite' hlookup
          · exact .inl hnil
          · exact .inr (.inl hused)
          · exact absurd (hchild ▸ hsite) (h.site_ne_child hcut q)
    · apply filesAt_of_lookup_none _ hgone
      rw [h.site_cutOff hcut, if_neg]
      · exact h.at'
      · simp

/-- A round that takes a node away, and the rounds after it. -/
theorem Hanging.pruned_erase (hempty : (cutChild child node).isEmpty = true)
    (hrest : Pruned (nodes.erase up) nodes' counter up) : Pruned nodes nodes' counter child := by
  have hcut := cutOff_erase h hnode hempty
  have hgone : (nodes.erase up).lookup up = none := by rw [lookup_erase_ite, if_pos rfl]
  have hsites : ∀ q id, site nodes' q = some id → site nodes q = some id := by
    intro q id hq
    have hmid := hrest.sites q id hq
    rw [h.site_cutOff hcut] at hmid
    split at hmid
    · cases hmid
    · exact hmid
  refine ⟨hrest.forest, ?_, hsites, ?_, ?_, ?_, ?_, ?_⟩
  · intro q
    rw [hrest.files, h.filesAt_cutOff hcut hnode]
    rw [hgone]
    exact (fileIds_of_isEmpty hempty).symm
  · intro q id hq hne hid
    have hup : id ≠ up := by
      intro heq
      rw [heq, hrest.left, hgone] at hid
      cases hid
    apply hrest.kept q id _ hup hid
    rw [h.site_cutOff hcut, if_neg]
    · exact hq
    · intro heq
      rw [heq, h.site_child] at hq
      exact hne (Option.some.inj hq).symm
  · intro id hid
    have hmid := hrest.present id hid
    rw [lookup_erase_ite] at hmid
    split at hmid
    · cases hmid
    · exact hmid
  · intro id hid
    have hup : id ≠ up := fun heq => hid path (heq ▸ h.at')
    rw [hrest.others, hcut.others id hup]
    intro q hq
    rw [h.site_cutOff hcut] at hq
    split at hq
    · cases hq
    · exact hid q hq
  · intro q hq
    exact h.site_ne_child hcut q (hrest.sites q child hq)
  · rw [hrest.others child (h.site_ne_child hcut), hcut.others child h.up_ne_child.symm]

end

end

/-- One round. -/
theorem prune_of_lookup (rounds : Nat) {nodes : HashMap ModuleNodeId ModuleNode}
    {id child : ModuleNodeId} {node : ModuleNode} (h : nodes.lookup id = some node) :
    prune (rounds + 1) nodes id child =
      if id = moduleRootId ∨ (cutChild child node).isEmpty = false then
        nodes.insert id (cutChild child node)
      else
        match node.parent with
        | some parent => prune rounds (nodes.erase id) parent id
        | none => nodes.erase id := by
  rw [prune, h]
  by_cases hroot : id = moduleRootId
  · rw [if_pos (.inl hroot)]
    exact if_pos hroot
  · cases hempty : (cutChild child node).isEmpty with
    | false =>
      rw [if_pos (.inr rfl)]
      show (if _ then _ else if (cutChild child node).isEmpty = true then _ else _) = _
      rw [if_neg hroot, hempty]
      rfl
    | true =>
      rw [if_neg (by simp [hroot])]
      show (if _ then _ else if (cutChild child node).isEmpty = true then _ else _) = _
      rw [if_neg hroot, hempty]
      rfl

/-- **Pruning.** -/
theorem pruned_of_hanging (counter : Nat) (rounds : Nat) :
    ∀ (nodes : HashMap ModuleNodeId ModuleNode) (path : List Text) (part : Text)
      (up child : ModuleNodeId), Hanging nodes counter path part up child →
      nodes.entries.length ≤ rounds →
      Pruned nodes (prune rounds nodes up child) counter child := by
  induction rounds with
  | zero =>
    intro nodes path part up child h hlen
    obtain ⟨node, hnode⟩ := Option.isSome_iff_exists.1 h.root
    have hmem := (mem_entries_iff nodes moduleRootId node).2 hnode
    rw [List.eq_nil_of_length_eq_zero (Nat.le_zero.1 hlen)] at hmem
    cases hmem
  | succ rounds ih =>
    intro nodes path part up child h hlen
    obtain ⟨node, hnode⟩ := h.lookup_of_site h.at' h.up_ne_child
    rw [prune_of_lookup rounds hnode]
    by_cases hused : up = moduleRootId ∨ (cutChild child node).isEmpty = false
    · rw [if_pos hused]
      exact h.pruned_insert hnode hused
    · rw [if_neg hused]
      rw [not_or, Bool.not_eq_false] at hused
      obtain ⟨path', part', up', hparent, hhangs⟩ := h.erase hnode hused.1 hused.2
      rw [hparent]
      apply h.pruned_erase hnode hused.2
      apply ih _ path' part' up' up hhangs
      have hperm := (entries_perm_cons_erase nodes up node hnode).length_eq
      rw [List.length_cons] at hperm
      omega

/-! ## §3. A file leaves its node -/

/-- **What is left when a file leaves its node.** -/
structure Unfiled (nodes nodes' : HashMap ModuleNodeId ModuleNode) (counter : Nat)
    (file : FileId) (path : List Text) (id : ModuleNodeId) : Prop where
  forest : Forest nodes' counter none
  files : ∀ q, filesAt nodes' q =
    if q = path then (filesAt nodes path).filter (fun other => other ≠ file) else filesAt nodes q
  sites : ∀ q other, site nodes' q = some other → site nodes q = some other
  leftover : ∀ other, Leftover nodes' other ↔
    Leftover nodes other ∨
      other = id ∧ ∃ node, nodes.lookup id = some node ∧ (node.without file).isEmpty = true

theorem leftover_insert_sameChildren {nodes : HashMap ModuleNodeId ModuleNode}
    {id : ModuleNodeId} {node node' : ModuleNode} (hnode : nodes.lookup id = some node)
    (hchildren : node'.children = node.children) (other : ModuleNodeId) :
    Leftover (nodes.insert id node') other ↔ Leftover nodes other := by
  unfold Leftover
  simp only [site_insert_sameChildren hnode hchildren]
  rw [lookup_insert_ite]
  by_cases heq : other = id
  · rw [if_pos heq, heq, hnode]
    exact .rfl
  · rw [if_neg heq]

/-- **A file leaves its node.** -/
theorem unfiled {nodes : HashMap ModuleNodeId ModuleNode} {counter : Nat}
    (h : Forest nodes counter none) (file : FileId) {path : List Text} {id : ModuleNodeId}
    (hpath : site nodes path = some id) (hne : path ≠ []) :
    Unfiled nodes (unfileNode nodes file id) counter file path id := by
  obtain ⟨node, hnode⟩ := h.lookup_of_site hpath
  have hchildren : (node.without file).children = node.children := rfl
  have hat := filesAt_of_site hpath hnode
  have hsame : ∀ q, site (nodes.insert id (node.without file)) q = site nodes q :=
    site_insert_sameChildren hnode hchildren
  have hfiles : ∀ q, filesAt (nodes.insert id (node.without file)) q =
      if q = path then node.fileIds.filter (fun other => other ≠ file) else filesAt nodes q :=
    filesAt_insert h.tree hnode hchildren hpath
  have hleft : ∀ other, Leftover (nodes.insert id (node.without file)) other ↔
      Leftover nodes other := leftover_insert_sameChildren hnode hchildren
  unfold unfileNode
  rw [hnode]
  show Unfiled nodes (if (node.without file).isEmpty = true then _ else _) counter file path id
  cases hempty : (node.without file).isEmpty with
  | false =>
    rw [if_neg Bool.false_ne_true]
    refine ⟨h.insert_sameChildren hnode hchildren rfl none (.inl hempty) (.inr rfl), ?_, ?_, ?_⟩
    · intro q
      rw [hfiles, hat]
    · intro q other hq
      rw [hsame] at hq
      exact hq
    · intro other
      rw [hleft]
      constructor
      · exact fun hother => .inl hother
      · intro hother
        obtain hother | ⟨-, node', hnode', hempty'⟩ := hother
        · exact hother
        · rw [hnode] at hnode'
          rw [← Option.some.inj hnode', hempty] at hempty'
          cases hempty'
  | true =>
    rw [if_pos rfl]
    -- the node it was listed at hangs now
    have hforest : Forest (nodes.insert id (node.without file)) counter (some id) :=
      h.insert_sameChildren hnode hchildren rfl (some id) (.inr rfl) (.inr rfl)
    have hnew : (nodes.insert id (node.without file)).lookup id = some (node.without file) := by
      rw [lookup_insert_ite, if_pos rfl]
    cases path using List.reverseRecOn with
    | nil => exact absurd rfl hne
    | append_singleton path' part =>
      have hsite := hsame (path' ++ [part])
      rw [hpath, site_concat] at hsite
      obtain ⟨up, hup, hedge⟩ := Option.bind_eq_some_iff.1 hsite
      obtain ⟨old, hold, hparent⟩ := hforest.child up part id hedge
      rw [hnew] at hold
      rw [← Option.some.inj hold] at hparent
      have hhangs : Hanging (nodes.insert id (node.without file)) counter path' part up id := by
        refine { root := hforest.root, tree := hforest.tree, at' := hup, hangs := hedge,
                 leaf := edge_eq_none_of_isEmpty hnew hempty,
                 parents := fun other x child hother _ => hforest.child other x child hother,
                 linked := hforest.linked, below := hforest.below, used := ?_, files := ?_ }
        · intro q other node' hq hlookup
          obtain hnil | hused | hhole := hforest.used q other node' hq hlookup
          · exact .inl hnil
          · exact .inr (.inl hused)
          · exact .inr (.inr (Option.some.inj hhole).symm)
        · rw [hfiles, if_pos rfl]
          exact fileIds_of_isEmpty hempty
      have hpruned := pruned_of_hanging counter _ _ path' part up id hhangs le_rfl
      rw [hparent]
      refine ⟨hpruned.forest, ?_, ?_, ?_⟩
      · intro q
        rw [hpruned.files, hfiles, hat]
      · intro q other hq
        rw [← hsame]
        exact hpruned.sites q other hq
      · intro other
        rw [← hleft]
        constructor
        · intro hother
          by_cases heq : other = id
          · exact .inr ⟨heq, node, hnode, hempty⟩
          · refine .inl ⟨hpruned.present other hother.1, ?_⟩
            intro q hq
            exact hother.2 q (hpruned.kept q other hq heq hother.1)
        · intro hother
          obtain hother | ⟨heq, -⟩ := hother
          · refine ⟨?_, fun q hq => hother.2 q (hpruned.sites q other hq)⟩
            rw [hpruned.others other hother.2]
            exact hother.1
          · rw [heq]
            refine ⟨?_, hpruned.unlinked⟩
            rw [hpruned.left, hnew]
            rfl

end GluaLs.Modules
