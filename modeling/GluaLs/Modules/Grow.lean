/-
  GluaLs.Modules.Grow — what a registration does to the tree.

  A registration goes down the parts of its path and makes the nodes that are not there.  The
  node it has come to may be empty meanwhile; it is the hole of the forest, until a file is
  listed there.  No listed file changes, and no path leads elsewhere (`descend_grown`).
-/
import GluaLs.Modules.Prune

namespace GluaLs.Modules

open GluaLs.Lib GluaLs.Lib.Walks LuaModuleIndex

/-- **What going down has made of the tree.** -/
structure Grown (nodes nodes' : HashMap ModuleNodeId ModuleNode) (counter' : Nat)
    (path : List Text) (id : ModuleNodeId) : Prop where
  forest : Forest nodes' counter' (some id)
  at' : site nodes' path = some id
  files : ∀ q, filesAt nodes' q = filesAt nodes q
  sites : ∀ q other, site nodes q = some other → site nodes' q = some other
  leftover : ∀ other, Leftover nodes' other ↔ Leftover nodes other

section

variable {nodes : HashMap ModuleNodeId ModuleNode} {counter : Nat} {path : List Text}
variable {part : Text} {up : ModuleNodeId} {node : ModuleNode}

/-- The hole may be anywhere once the node has an edge. -/
theorem Forest.moveHole (h : Forest nodes counter (some up)) {child : ModuleNodeId}
    (hedge : edge nodes up part = some child) (hole : Option ModuleNodeId) :
    Forest nodes counter hole where
  root := h.root
  tree := h.tree
  child := h.child
  linked := h.linked
  below := h.below
  used q id other hsite hlookup := by
    obtain hnil | hempty | hhole := h.used q id other hsite hlookup
    · exact .inl hnil
    · exact .inr (.inl hempty)
    · rw [← Option.some.inj hhole] at hlookup
      exact .inr (.inl (isEmpty_of_edge hlookup hedge))

/-- The hole may be the root, where nothing is asked. -/
theorem Forest.openRoot (h : Forest nodes counter none) :
    Forest nodes counter (some moduleRootId) where
  root := h.root
  tree := h.tree
  child := h.child
  linked := h.linked
  below := h.below
  used q id other hsite hlookup := by
    obtain hnil | hempty | hhole := h.used q id other hsite hlookup
    · exact .inl hnil
    · exact .inr (.inl hempty)
    · cases hhole

/-! ## §1. A new node -/

/-- The nodes with one more, below `up` by `part`. -/
def withChild (nodes : HashMap ModuleNodeId ModuleNode) (up : ModuleNodeId) (node : ModuleNode)
    (part : Text) (fresh : ModuleNodeId) : HashMap ModuleNodeId ModuleNode :=
  (nodes.insert up { node with children := node.children.insert part fresh }).insert fresh
    ⟨some up, ∅, []⟩

theorem lookup_withChild (fresh id : ModuleNodeId) :
    (withChild nodes up node part fresh).lookup id =
      if id = fresh then some ⟨some up, ∅, []⟩
      else if id = up then some { node with children := node.children.insert part fresh }
      else nodes.lookup id := by
  unfold withChild
  rw [lookup_insert_ite, lookup_insert_ite]

theorem edge_withChild (hnode : nodes.lookup up = some node) {fresh : ModuleNodeId}
    (hfresh : nodes.lookup fresh = none) (id : ModuleNodeId) (x : Text) :
    edge (withChild nodes up node part fresh) id x =
      if id = up ∧ x = part then some fresh else edge nodes id x := by
  unfold edge
  rw [lookup_withChild]
  by_cases hid : id = fresh
  · have hne : id ≠ up := by
      intro heq
      rw [← hid, heq, hnode] at hfresh
      cases hfresh
    rw [if_pos hid, if_neg (fun h => hne h.1), hid, hfresh]
    rfl
  · rw [if_neg hid]
    by_cases hup : id = up
    · rw [if_pos hup, hup, hnode]
      show (node.children.insert part fresh).lookup x = _
      rw [lookup_insert_ite]
      by_cases hx : x = part
      · rw [if_pos hx, if_pos ⟨rfl, hx⟩]
      · rw [if_neg hx, if_neg (fun h => hx h.2)]
        rfl
    · rw [if_neg hup, if_neg (fun h => hup h.1)]

section

variable (h : Forest nodes counter (some up)) (hpath : site nodes path = some up)
  (hnode : nodes.lookup up = some node) (hpart : edge nodes up part = none)
include h hpath hnode hpart

theorem site_withChild (q : List Text) :
    site (withChild nodes up node part counter) q =
      if q = path ++ [part] then some counter else site nodes q := by
  have hfresh := h.lookup_of_le (Nat.le_refl counter)
  apply walk_grown h.tree hpath (Nat.pos_iff_ne_zero.1 h.counter_pos)
    (fun id x => h.edge_ne_of_le id x (Nat.le_refl counter)) (edge_of_lookup_none hfresh)
  · rw [edge_withChild hnode hfresh, if_pos ⟨rfl, rfl⟩]
  · intro id x hne
    rw [edge_withChild hnode hfresh, if_neg hne]
  · exact hpart

/-- **A new node.** -/
theorem grown_withChild :
    Grown nodes (withChild nodes up node part counter) (counter + 1) (path ++ [part]) counter := by
  have hfresh := h.lookup_of_le (Nat.le_refl counter)
  have hsite := site_withChild h hpath hnode hpart
  have hedge := fun id x => @edge_withChild nodes part up node hnode counter hfresh id x
  have hnot : ∀ q, site nodes q ≠ some counter := by
    intro q hq
    obtain ⟨other, hother⟩ := h.lookup_of_site hq
    rw [hfresh] at hother
    cases hother
  have hsites : ∀ q other, site nodes q = some other →
      site (withChild nodes up node part counter) q = some other := by
    intro q other hq
    rw [hsite, if_neg]
    · exact hq
    · intro heq
      rw [heq, site_concat, hpath] at hq
      have hq' : edge nodes up part = some other := hq
      rw [hpart] at hq'
      cases hq'
  have hlookup : ∀ other, other ≠ counter →
      ((withChild nodes up node part counter).lookup other).isSome =
        (nodes.lookup other).isSome := by
    intro other hne
    rw [lookup_withChild, if_neg hne]
    split
    · rename_i heq
      rw [heq, hnode]
      rfl
    · rfl
  refine ⟨⟨?_, ?_, ?_, ?_, ?_, ?_⟩, ?_, ?_, hsites, ?_⟩
  · rw [hlookup moduleRootId (Nat.ne_of_lt h.counter_pos)]
    exact h.root
  · exact tree_grown h.tree (Nat.pos_iff_ne_zero.1 h.counter_pos)
      (fun id x => h.edge_ne_of_le id x (Nat.le_refl counter)) hsite
  · intro id x child hchild
    rw [hedge] at hchild
    rw [lookup_withChild]
    split at hchild
    · rename_i hhere
      rw [if_pos (Option.some.inj hchild).symm, hhere.1]
      exact ⟨_, rfl, rfl⟩
    · obtain ⟨old, hold, hparent⟩ := h.child id x child hchild
      have hne : child ≠ counter := by
        intro heq
        rw [heq, hfresh] at hold
        cases hold
      rw [if_neg hne]
      by_cases heq : child = up
      · rw [if_pos heq]
        rw [heq, hnode] at hold
        refine ⟨_, rfl, ?_⟩
        rw [← hparent, ← Option.some.inj hold]
      · rw [if_neg heq]
        exact ⟨old, hold, hparent⟩
  · intro id x child hchild
    rw [hedge] at hchild
    split at hchild
    · rename_i hhere
      exact ⟨path, hsites path id (hhere.1 ▸ hpath)⟩
    · obtain ⟨q, hq⟩ := h.linked id x child hchild
      exact ⟨q, hsites q id hq⟩
  · intro id hid
    by_cases heq : id = counter
    · rw [heq]
      exact Nat.lt_succ_self counter
    · rw [hlookup id heq] at hid
      exact Nat.lt_succ_of_lt (h.below id hid)
  · intro q id other hq hother
    by_cases heq : id = counter
    · exact .inr (.inr (congrArg some heq.symm))
    · rw [hsite] at hq
      split at hq
      · exact absurd (Option.some.inj hq).symm heq
      · by_cases hid : id = up
        · have hchild := hedge up part
          rw [if_pos ⟨rfl, rfl⟩] at hchild
          rw [hid] at hother
          exact .inr (.inl (isEmpty_of_edge hother hchild))
        · rw [lookup_withChild, if_neg heq, if_neg hid] at hother
          obtain hnil | hempty | hhole := h.used q id other hq hother
          · exact .inl hnil
          · exact .inr (.inl hempty)
          · exact absurd (Option.some.inj hhole).symm hid
  · rw [hsite, if_pos rfl]
  · intro q
    by_cases hq : q = path ++ [part]
    · have hnone : site nodes q = none := by
        rw [hq, site_concat, hpath]
        exact hpart
      have hnew : site (withChild nodes up node part counter) q = some counter := by
        rw [hsite, if_pos hq]
      rw [filesAt_of_site_none hnone, filesAt_of_site hnew (by rw [lookup_withChild, if_pos rfl])]
    · unfold filesAt
      rw [hsite, if_neg hq]
      cases hat : site nodes q with
      | none => rfl
      | some id =>
        show (((withChild nodes up node part counter).lookup id).map _).getD [] =
          ((nodes.lookup id).map _).getD []
        have hid : id ≠ counter := by
          intro heq
          exact hnot q (heq ▸ hat)
        rw [lookup_withChild, if_neg hid]
        split
        · rename_i heq
          rw [heq, hnode]
          rfl
        · rfl
  · intro other
    unfold Leftover
    by_cases heq : other = counter
    · rw [heq, hfresh]
      constructor
      · intro hother
        exact absurd (by rw [hsite, if_pos rfl]) (hother.2 (path ++ [part]))
      · intro hother
        cases hother.1
    · rw [hlookup other heq]
      constructor
      · exact fun hother => ⟨hother.1, fun q hq => hother.2 q (hsites q other hq)⟩
      · intro hother
        refine ⟨hother.1, ?_⟩
        intro q hq
        rw [hsite] at hq
        split at hq
        · exact heq (Option.some.inj hq).symm
        · exact hother.2 q hq

end

end

/-! ## §2. Down a path -/

theorem Grown.refl {nodes : HashMap ModuleNodeId ModuleNode} {counter : Nat} {path : List Text}
    {id : ModuleNodeId} (h : Forest nodes counter (some id)) (hpath : site nodes path = some id) :
    Grown nodes nodes counter path id :=
  ⟨h, hpath, fun _ => rfl, fun _ _ hq => hq, fun _ => .rfl⟩

theorem Grown.trans {nodes nodes' nodes'' : HashMap ModuleNodeId ModuleNode}
    {counter' counter'' : Nat} {path path' : List Text} {id id' : ModuleNodeId}
    (h : Grown nodes nodes' counter' path id) (h' : Grown nodes' nodes'' counter'' path' id') :
    Grown nodes nodes'' counter'' path' id' where
  forest := h'.forest
  at' := h'.at'
  files q := (h'.files q).trans (h.files q)
  sites q other hq := h'.sites q other (h.sites q other hq)
  leftover other := (h'.leftover other).trans (h.leftover other)

/-- **Going down a path**, while there are ids to hand out. -/
theorem descend_grown (parts : List Text) :
    ∀ (index : LuaModuleIndex) (path : List Text) (parent : ModuleNodeId),
      Forest index.moduleNodes index.idCounter (some parent) →
      site index.moduleNodes path = some parent →
      index.idCounter + parts.length < 2 ^ 32 →
      ∃ nodes' counter' id,
        descend parts index parent =
          ({ index with
            moduleNodes := nodes'
            idCounter := counter' }, some id) ∧
        Grown index.moduleNodes nodes' counter' (path ++ parts) id := by
  induction parts with
  | nil =>
    intro index path parent h hpath _
    refine ⟨index.moduleNodes, index.idCounter, parent, rfl, ?_⟩
    rw [List.append_nil]
    exact .refl h hpath
  | cons part parts ih =>
    intro index path parent h hpath hids
    obtain ⟨node, hnode⟩ := h.lookup_of_site hpath
    have hassoc : path ++ part :: parts = (path ++ [part]) ++ parts := by simp
    rw [List.length_cons] at hids
    rw [descend, hnode, hassoc]
    show ∃ nodes' counter' id, descend parts ((index.childOf parent node part).1.ensureNode parent
      (index.childOf parent node part).2) (index.childOf parent node part).2 = _ ∧ _
    unfold childOf
    cases hpart : node.children.lookup part with
    | some child =>
      have hedge : edge index.moduleNodes parent part = some child := by
        rw [edge_of_lookup hnode, hpart]
      obtain ⟨childNode, hchild, -⟩ := h.child parent part child hedge
      show ∃ nodes' counter' id, descend parts (index.ensureNode parent child) child = _ ∧ _
      unfold ensureNode
      rw [hchild]
      apply ih index (path ++ [part]) child (h.moveHole hedge (some child)) _ (by omega)
      rw [site_concat, hpath]
      exact hedge
    | none =>
      have hedge : edge index.moduleNodes parent part = none := by
        rw [edge_of_lookup hnode, hpart]
      have hgrown := grown_withChild h hpath hnode hedge
      have hfresh : (index.moduleNodes.insert parent { node with
          children := node.children.insert part index.idCounter }).lookup index.idCounter
            = none := by
        rw [lookup_insert_ite, if_neg]
        · exact h.lookup_of_le le_rfl
        · intro heq
          rw [← heq, h.lookup_of_le le_rfl] at hnode
          cases hnode
      show ∃ nodes' counter' id, descend parts (ensureNode { index with
        moduleNodes := index.moduleNodes.insert parent { node with
          children := node.children.insert part index.idCounter } } parent index.idCounter)
          index.idCounter = _ ∧ _
      unfold ensureNode
      rw [hfresh]
      have hwrap : (index.idCounter + 1) % 2 ^ 32 = index.idCounter + 1 :=
        Nat.mod_eq_of_lt (by omega)
      show ∃ nodes' counter' id, descend parts { index with
        moduleNodes := withChild index.moduleNodes parent node part index.idCounter
        idCounter := (index.idCounter + 1) % 2 ^ 32 } index.idCounter = _ ∧ _
      rw [hwrap]
      obtain ⟨nodes', counter', id, hrun, hrest⟩ := ih { index with
        moduleNodes := withChild index.moduleNodes parent node part index.idCounter
        idCounter := index.idCounter + 1 } (path ++ [part]) index.idCounter hgrown.forest
        hgrown.at' (by show index.idCounter + 1 + parts.length < 2 ^ 32; omega)
      exact ⟨nodes', counter', id, hrun, hgrown.trans hrest⟩

/-! ## §3. A file is listed -/

/-- **What is there when a file is listed at the end of its path.** -/
structure Listed (nodes nodes' : HashMap ModuleNodeId ModuleNode) (counter' : Nat)
    (file : FileId) (path : List Text) (id : ModuleNodeId) : Prop where
  forest : Forest nodes' counter' none
  at' : site nodes' path = some id
  files : ∀ q, filesAt nodes' q =
    if q = path then filesAt nodes path ++ [file] else filesAt nodes q
  sites : ∀ q other, site nodes q = some other → site nodes' q = some other
  leftover : ∀ other, Leftover nodes' other ↔ Leftover nodes other

theorem Grown.listed {nodes nodes' : HashMap ModuleNodeId ModuleNode} {counter' : Nat}
    {path : List Text} {id : ModuleNodeId} (h : Grown nodes nodes' counter' path id)
    {node : ModuleNode} (hnode : nodes'.lookup id = some node) (file : FileId) :
    Listed nodes (nodes'.insert id { node with fileIds := node.fileIds ++ [file] }) counter'
      file path id := by
  have hchildren : ({ node with fileIds := node.fileIds ++ [file] } : ModuleNode).children =
    node.children := rfl
  have hempty : ({ node with fileIds := node.fileIds ++ [file] } : ModuleNode).isEmpty = false := by
    unfold ModuleNode.isEmpty
    simp
  refine ⟨?_, ?_, ?_, ?_, ?_⟩
  · exact h.forest.insert_sameChildren hnode hchildren rfl none (.inl hempty) (.inl rfl)
  · rw [site_insert_sameChildren hnode hchildren]
    exact h.at'
  · intro q
    rw [filesAt_insert h.forest.tree hnode hchildren h.at']
    show (if q = path then node.fileIds ++ [file] else _) = _
    rw [← h.files path, filesAt_of_site h.at' hnode, h.files]
  · intro q other hq
    rw [site_insert_sameChildren hnode hchildren]
    exact h.sites q other hq
  · intro other
    rw [leftover_insert_sameChildren hnode hchildren]
    exact h.leftover other

end GluaLs.Modules
