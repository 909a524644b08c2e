/-
  GluaLs.Syntax.GreenForest — the green builder without its arena.

  An index of the arena stands for a tree (`Stands`), and no two indices share an element.  So
  the builder works on a list of trees (`Forest`): every operation on the arena is the
  operation on the trees it stands for (`shows_finishNode`), panics included, and the calls
  made at the end are those of the first tree (`finish_eq`).
-/
import Mathlib.Data.List.DropRight
import GluaLs.Lib.Related
import GluaLs.Syntax.GreenBuilder

namespace GluaLs.Syntax

open GluaLs.Lib LuaGreenNodeBuilder

/-! ## §1. Trees -/

/-- A tree of nodes and tokens. -/
inductive Green where
  | token (kind : LuaTokenKind) (range : SourceRange)
  | node (kind : LuaSyntaxKind) (children : List Green)

namespace Green

def isTrivia : Green → Bool
  | .token kind _ => isTriviaToken kind
  | .node kind _ => isTriviaNode kind

def isTriviaWhitespace : Green → Bool
  | .token kind _ => isWhitespaceToken kind
  | .node _ _ => false

mutual

/-- The calls that make a tree. -/
def calls : Green → List RowanCall
  | .token kind range => [.token kind range]
  | .node kind children => .startNode kind :: callsAll children ++ [.finishNode]
termination_by structural g => g

def callsAll : List Green → List RowanCall
  | [] => []
  | g :: gs => g.calls ++ callsAll gs
termination_by structural gs => gs

end

end Green

/-- The trees an open node's builder holds: the open nodes, the innermost first, and the
    children of all of them. -/
structure Forest where
  parents : List (LuaSyntaxKind × Nat)
  children : List Green

namespace Forest

def token (f : Forest) (kind : LuaTokenKind) (range : SourceRange) : Forest :=
  { f with children := f.children ++ [.token kind range] }

def startNode (f : Forest) (kind : LuaSyntaxKind) : Forest :=
  { f with parents := (kind, f.children.length) :: f.parents }

def finishNode (f : Forest) : Option Forest :=
  match f.parents with
  | [] => some f
  | (kind, firstStart) :: parents =>
    if f.children.isEmpty then some f
    else do
      let (childStart, childEnd) ←
        ownChildren Green.isTrivia Green.isTriviaWhitespace kind firstStart f.children
      let (own, rest) ← drain f.children childStart childEnd
      some ⟨parents, putNode f.children rest childStart childEnd (.node kind own)⟩

end Forest

/-! ## §2. What indices stand for -/

/-- The indices stand for the trees, and these are all the elements they are made of. -/
inductive Stands (elements : List LuaGreenElement) : List Nat → List Green → List Nat → Prop where
  | nil : Stands elements [] [] []
  | token {pos : Nat} {positions : List Nat} {gs : List Green} {ids : List Nat}
      {kind : LuaTokenKind} {range : SourceRange}
      (hpos : elements[pos]? = some (.Token kind range)) (rest : Stands elements positions gs ids) :
      Stands elements (pos :: positions) (.token kind range :: gs) (pos :: ids)
  | node {pos : Nat} {children positions : List Nat} {own gs : List Green} {ids ids' : List Nat}
      {kind : LuaSyntaxKind} (hpos : elements[pos]? = some (.Node kind children))
      (hown : Stands elements children own ids) (rest : Stands elements positions gs ids') :
      Stands elements (pos :: positions) (.node kind own :: gs) (pos :: (ids ++ ids'))

namespace Stands

variable {elements : List LuaGreenElement}

theorem lt_length {positions : List Nat} {gs : List Green} {ids : List Nat}
    (h : Stands elements positions gs ids) : ∀ id ∈ ids, id < elements.length := by
  induction h with
  | nil => exact nofun
  | token hpos _ ih =>
    exact List.forall_mem_cons.2 ⟨(List.getElem?_eq_some_iff.1 hpos).1, ih⟩
  | node hpos _ _ ih ih' =>
    exact List.forall_mem_cons.2 ⟨(List.getElem?_eq_some_iff.1 hpos).1,
      List.forall_mem_append.2 ⟨ih, ih'⟩⟩

/-- What an arena holds it still holds when an element is added. -/
theorem add {positions : List Nat} {gs : List Green} {ids : List Nat}
    (h : Stands elements positions gs ids) (element : LuaGreenElement) :
    Stands (elements ++ [element]) positions gs ids := by
  have hkept : ∀ {pos : Nat} {old : LuaGreenElement}, elements[pos]? = some old →
      (elements ++ [element])[pos]? = some old := by
    intro pos old hpos
    rw [List.getElem?_append_left (List.getElem?_eq_some_iff.1 hpos).1, hpos]
  induction h with
  | nil => exact .nil
  | token hpos _ ih => exact .token (hkept hpos) ih
  | node hpos _ _ ih ih' => exact .node (hkept hpos) ih ih'

theorem append {positions positions' : List Nat} {gs gs' : List Green} {ids ids' : List Nat}
    (h : Stands elements positions gs ids) (h' : Stands elements positions' gs' ids') :
    Stands elements (positions ++ positions') (gs ++ gs') (ids ++ ids') := by
  induction h with
  | nil => exact h'
  | token hpos _ ih => exact .token hpos ih
  | @node pos children positions own gs ids ids'' kind hpos hown _ _ ih =>
    have hnode := Stands.node hpos hown ih
    rw [← List.append_assoc] at hnode
    exact hnode

/-- The indices cut in two stand for the trees cut in two. -/
theorem split {positions : List Nat} {gs : List Green} {ids : List Nat}
    (h : Stands elements positions gs ids) :
    ∀ n, ∃ left right, ids = left ++ right ∧ Stands elements (positions.take n) (gs.take n) left
      ∧ Stands elements (positions.drop n) (gs.drop n) right := by
  induction h with
  | nil =>
    intro n
    rw [List.take_nil, List.take_nil, List.drop_nil, List.drop_nil]
    exact ⟨[], [], rfl, .nil, .nil⟩
  | @token pos positions gs ids kind range hpos rest ih =>
    intro n
    cases n with
    | zero => exact ⟨[], _, rfl, .nil, .token hpos rest⟩
    | succ n =>
      obtain ⟨left, right, rfl, hleft, hright⟩ := ih n
      exact ⟨pos :: left, right, rfl, .token hpos hleft, hright⟩
  | @node pos children positions own gs ids ids' kind hpos hown rest _ ih =>
    intro n
    cases n with
    | zero => exact ⟨[], _, rfl, .nil, .node hpos hown rest⟩
    | succ n =>
      obtain ⟨left, right, rfl, hleft, hright⟩ := ih n
      refine ⟨pos :: (ids ++ left), right, ?_, .node hpos hown hleft, hright⟩
      rw [List.cons_append, List.append_assoc]

/-- Index by index: the element at an index is trivia exactly if its tree is. -/
theorem forall₂ {positions : List Nat} {gs : List Green} {ids : List Nat}
    (h : Stands elements positions gs ids) :
    List.Forall₂ (fun pos g => elements[pos]?.any LuaGreenElement.isTrivia = g.isTrivia
      ∧ elements[pos]?.any LuaGreenElement.isTriviaWhitespace = g.isTriviaWhitespace)
      positions gs := by
  induction h with
  | nil => exact .nil
  | token hpos _ ih | node hpos _ _ _ ih =>
    refine .cons ?_ ih
    rw [hpos]
    exact ⟨rfl, rfl⟩

end Stands

/-! ## §3. The same children are cut out -/

section

variable {α β : Type} {R : α → β → Prop} {trivia whitespace : α → Bool}
variable {trivia' whitespace' : β → Bool} {xs : List α} {ys : List β}

section

variable (hR : SameTest R trivia trivia') (hxs : List.Forall₂ R xs ys)
include hR hxs

theorem any_getElem?_eq (i : Nat) : xs[i]?.any trivia = ys[i]?.any trivia' := by
  induction hxs generalizing i with
  | nil => rfl
  | @cons a b xs ys hab _ ih =>
    cases i with
    | zero => exact hR a b hab
    | succ i => exact ih i

theorem pullStart_eq (start : Nat) : pullStart trivia xs start = pullStart trivia' ys start := by
  induction start with
  | zero => rfl
  | succ start ih =>
    unfold pullStart
    rw [any_getElem?_eq hR hxs, ih]

theorem trimStart_eq (start : Nat) : trimStart trivia xs start = trimStart trivia' ys start := by
  unfold trimStart
  rw [List.Forall₂.length_eq (forall₂_takeWhile hR (List.forall₂_drop start hxs))]

theorem trimEnd_eq (start stop : Nat) :
    trimEnd trivia xs start stop = trimEnd trivia' ys start stop := by
  induction stop with
  | zero => rfl
  | succ stop ih =>
    unfold trimEnd
    rw [any_getElem?_eq hR hxs, ih]

end

theorem ownChildren_eq (hR : SameTest R trivia trivia') (hR' : SameTest R whitespace whitespace')
    (hxs : List.Forall₂ R xs ys) (kind : LuaSyntaxKind) (firstStart : Nat) :
    ownChildren trivia whitespace kind firstStart xs
      = ownChildren trivia' whitespace' kind firstStart ys := by
  unfold ownChildren
  rw [List.Forall₂.length_eq hxs, pullStart_eq hR hxs]
  cases keepsComments kind with
  | true =>
    simp only [if_true]
    rw [trimStart_eq hR' hxs, trimEnd_eq hR' hxs]
  | false =>
    simp only [Bool.false_eq_true, if_false]
    rw [trimStart_eq hR hxs, trimEnd_eq hR hxs]

end

/-- The builder on the arena and the builder on the trees its children stand for. -/
def Shows (b : LuaGreenNodeBuilder) (f : Forest) : Prop :=
  b.parents = f.parents
    ∧ ∃ ids, Stands b.elements b.children f.children ids ∧ ids.Nodup

section

variable {b : LuaGreenNodeBuilder} {f : Forest}

theorem shows_new : Shows .new ⟨[], []⟩ := ⟨rfl, [], .nil, List.nodup_nil⟩

theorem shows_startNode (hshows : Shows b f) (kind : LuaSyntaxKind) :
    Shows (b.startNode kind) (f.startNode kind) := by
  obtain ⟨hparents, ids, hstands, hnodup⟩ := hshows
  refine ⟨?_, ids, hstands, hnodup⟩
  show (kind, b.children.length) :: b.parents = (kind, f.children.length) :: f.parents
  rw [hparents, List.Forall₂.length_eq hstands.forall₂]

/-- The next index of the arena is a new one. -/
theorem nodup_concat {elements : List LuaGreenElement} {positions : List Nat} {gs : List Green}
    {ids : List Nat} (hstands : Stands elements positions gs ids) (hnodup : ids.Nodup) :
    (ids ++ [elements.length]).Nodup := by
  refine List.nodup_append.2 ⟨hnodup, List.nodup_singleton _, ?_⟩
  intro id hid id' hid'
  rw [List.mem_singleton.1 hid']
  exact Nat.ne_of_lt (hstands.lt_length id hid)

theorem shows_token (hshows : Shows b f) (kind : LuaTokenKind) (range : SourceRange) :
    Shows (b.token kind range) (f.token kind range) := by
  obtain ⟨hparents, ids, hstands, hnodup⟩ := hshows
  refine ⟨hparents, ids ++ [b.elements.length], ?_, nodup_concat hstands hnodup⟩
  exact (hstands.add _).append (.token List.getElem?_concat_length .nil)

/-- What is in front of the node, the node, and what is behind it. -/
theorem putNode_eq {α : Type} (children : List α) (childStart childEnd : Nat)
    (hstart : childStart ≤ childEnd + 1) (hend : childEnd + 1 ≤ children.length) (node : α) :
    putNode children (children.take childStart ++ children.drop (childEnd + 1)) childStart childEnd
        node = children.take childStart ++ node :: children.drop (childEnd + 1) := by
  have hlength : (children.take childStart).length = childStart :=
    List.length_take_of_le (Nat.le_trans hstart hend)
  unfold putNode
  split
  · have hinsert := insertIdx_length (children.take childStart)
      (children.drop (childEnd + 1)) node
    rwa [hlength] at hinsert
  · next hlast =>
      rw [List.drop_eq_nil_of_le (Nat.le_of_not_lt hlast), List.append_nil]

/-- A node put where its children were cut out. -/
theorem stands_putNode {elements : List LuaGreenElement} {positions : List Nat} {gs : List Green}
    {ids : List Nat} (hstands : Stands elements positions gs ids) (hnodup : ids.Nodup)
    (kind : LuaSyntaxKind) (childStart childEnd : Nat) :
    Option.Rel (fun cut cut' => ∃ ids',
        Stands (elements ++ [.Node kind cut.1])
          (putNode positions cut.2 childStart childEnd elements.length)
          (putNode gs cut'.2 childStart childEnd (.node kind cut'.1)) ids' ∧ ids'.Nodup)
      (drain positions childStart childEnd) (drain gs childStart childEnd) := by
  have hlength := List.Forall₂.length_eq hstands.forall₂
  unfold drain
  rw [← hlength]
  split
  · next hrange =>
      obtain ⟨left, right, rfl, hleft, hright⟩ := hstands.split (childEnd + 1)
      obtain ⟨before, own, rfl, hbefore, hown⟩ := hleft.split childStart
      rw [List.take_take, List.take_take, Nat.min_eq_left hrange.1] at hbefore
      apply Option.Rel.some
      refine ⟨before ++ elements.length :: (own ++ right), ?_, ?_⟩
      · rw [putNode_eq positions childStart childEnd hrange.1 hrange.2,
          putNode_eq gs childStart childEnd hrange.1 (hlength ▸ hrange.2)]
        exact (hbefore.add _).append
          (.node List.getElem?_concat_length (hown.add _) (hright.add _))
      · have hperm : (before ++ elements.length :: (own ++ right)).Perm
            (before ++ own ++ right ++ [elements.length]) := by
          rw [List.append_assoc before own right]
          exact (List.perm_middle).trans (List.perm_append_singleton _ _).symm
        exact hperm.nodup_iff.2 (nodup_concat hstands hnodup)
  · exact Option.Rel.none

/-- **Finishing a node on the arena is finishing it on the trees.** -/
theorem shows_finishNode (hshows : Shows b f) : Option.Rel Shows b.finishNode f.finishNode := by
  obtain ⟨hparents, ids, hstands, hnodup⟩ := hshows
  have hall := hstands.forall₂
  unfold finishNode Forest.finishNode
  rw [← hparents, ← isEmpty_eq hall]
  cases b.parents with
  | nil => exact .some ⟨hparents, ids, hstands, hnodup⟩
  | cons parent parents =>
    simp only []
    split
    · exact .some ⟨hparents, ids, hstands, hnodup⟩
    · have hown : ownChildren b.isTrivia b.isTriviaWhitespace parent.1 parent.2 b.children
          = ownChildren Green.isTrivia Green.isTriviaWhitespace parent.1 parent.2 f.children :=
        ownChildren_eq (fun _ _ h => h.1) (fun _ _ h => h.2) hall parent.1 parent.2
      rw [hown]
      cases ownChildren Green.isTrivia Green.isTriviaWhitespace parent.1 parent.2 f.children with
      | none => exact .none
      | some bounds =>
        have hput := stands_putNode hstands hnodup parent.1 bounds.1 bounds.2
        simp only [Option.bind_eq_bind, Option.bind_some]
        rcases rel_cases hput with ⟨hold, hnew⟩ | ⟨cut, cut', hold, hnew, hput⟩
        · rw [hold, hnew]
          exact .none
        · rw [hold, hnew]
          exact .some ⟨rfl, hput⟩

end

/-! ## §4. The calls -/

/-- How many rounds of the loop a list of trees takes. -/
def rounds : List Green → Nat
  | [] => 0
  | .token _ _ :: gs => 1 + rounds gs
  | .node _ children :: gs => 2 + rounds children + rounds gs

theorem Stands.rounds_le {elements : List LuaGreenElement} {positions : List Nat}
    {gs : List Green} {ids : List Nat} (hstands : Stands elements positions gs ids) :
    rounds gs ≤ 2 * ids.length := by
  induction hstands with
  | nil => simp [rounds]
  | token _ _ ih =>
    simp only [rounds, List.length_cons]
    omega
  | node _ _ _ ih ih' =>
    simp only [rounds, List.length_cons, List.length_append]
    omega

/-- The elements at some indices are what they were. -/
def AgreesAt (ids : List Nat) (elements elements' : List LuaGreenElement) : Prop :=
  ∀ id ∈ ids, elements'[id]? = elements[id]?

theorem getElem?_set_other {elements : List LuaGreenElement} {pos id : Nat}
    (element : LuaGreenElement) (hne : id ≠ pos) :
    (elements.set pos element)[id]? = elements[id]? :=
  List.getElem?_set_ne (Ne.symm hne)

/-- **The loop makes the calls of the trees it is given**, one after the other, and goes on
    with an arena that is only missing their elements. -/
theorem buildRowanGreen_stands {elements : List LuaGreenElement} {positions : List Nat}
    {gs : List Green} {ids : List Nat} (hstands : Stands elements positions gs ids) :
    ∀ (arena : List LuaGreenElement), AgreesAt ids elements arena → ids.Nodup →
      ∀ (more : Nat) (stack : List StackItem) (calls : List RowanCall),
        (∀ arena', (∀ id, id ∉ ids → arena'[id]? = arena[id]?) →
          buildRowanGreen more stack arena' = some calls) →
        buildRowanGreen (rounds gs + more)
          (positions.map (fun child => ⟨child, false⟩) ++ stack) arena
            = some (Green.callsAll gs ++ calls) := by
  induction hstands with
  | nil =>
    intro arena _ _ more stack calls hrest
    rw [rounds, Nat.zero_add]
    exact hrest arena fun _ _ => rfl
  | @token pos positions gs ids kind range hpos rest ih =>
    intro arena hagrees hnodup more stack calls hrest
    have hnew := List.nodup_cons.1 hnodup
    have hat : arena[pos]? = some (.Token kind range) :=
      (hagrees pos (.head _)).trans hpos
    have hgo := ih (arena.set pos .None) (fun id hid => by
        rw [getElem?_set_other _ (ne_of_mem_of_not_mem hid hnew.1)]
        exact hagrees id (.tail _ hid))
      hnew.2 more stack calls (fun arena' harena' => hrest arena' fun id hid => by
        rw [List.mem_cons, not_or] at hid
        rw [harena' id hid.2, getElem?_set_other _ hid.1])
    rw [rounds, show 1 + rounds gs + more = (rounds gs + more) + 1 by omega, List.map_cons,
      List.cons_append]
    simp only [buildRowanGreen, Bool.false_eq_true, if_false]
    rw [hat]
    simp only []
    rw [hgo]
    rfl
  | @node pos children positions own gs ids ids' kind hpos hown rest ih ih' =>
    intro arena hagrees hnodup more stack calls hrest
    have hnew := List.nodup_cons.1 hnodup
    have hboth := List.nodup_append.1 hnew.2
    have hat : arena[pos]? = some (.Node kind children) :=
      (hagrees pos (.head _)).trans hpos
    -- first the children of the node, then its end, then what is behind it
    have hgo := ih (arena.set pos .None) (fun id hid => by
        rw [getElem?_set_other _ (ne_of_mem_of_not_mem (List.mem_append_left _ hid) hnew.1)]
        exact hagrees id (.tail _ (List.mem_append_left _ hid)))
      hboth.1 (1 + (rounds gs + more))
      (⟨pos, true⟩ :: (positions.map (fun child => ⟨child, false⟩) ++ stack))
      (.finishNode :: (Green.callsAll gs ++ calls)) (fun arena' harena' => by
        have hbehind := ih' arena' (fun id hid => by
            rw [harena' id fun hid' => hboth.2.2 id hid' id hid rfl,
              getElem?_set_other _ (ne_of_mem_of_not_mem (List.mem_append_right _ hid) hnew.1)]
            exact hagrees id (.tail _ (List.mem_append_right _ hid)))
          hboth.2.1 more stack calls (fun arena'' harena'' => hrest arena'' fun id hid => by
            rw [List.mem_cons, not_or, List.mem_append, not_or] at hid
            rw [harena'' id hid.2.2, harena' id hid.2.1, getElem?_set_other _ hid.1])
        rw [Nat.add_comm 1]
        simp only [buildRowanGreen, if_true]
        rw [hbehind]
        rfl)
    rw [rounds, show 2 + rounds own + rounds gs + more = (rounds own + (1 + (rounds gs + more))) + 1
      by omega, List.map_cons, List.cons_append]
    simp only [buildRowanGreen, Bool.false_eq_true, if_false]
    rw [hat]
    simp only []
    rw [hgo]
    simp [Green.callsAll, Green.calls]

/-- The calls of a list of trees as the builder's root: the first tree, in a chunk. -/
def rootCalls : List Green → List RowanCall
  | [] => [.startNode .Chunk, .finishNode]
  | .node .Chunk children :: _ => (Green.node .Chunk children).calls
  | g :: _ => .startNode .Chunk :: g.calls ++ [.finishNode]

/-- Enough rounds for the first tree of an arena. -/
theorem buildRowanGreen_root {elements : List LuaGreenElement} {pos : Nat} {g : Green}
    {ids : List Nat} (hstands : Stands elements [pos] [g] ids) (hnodup : ids.Nodup) :
    buildRowanGreen (2 * elements.length) [⟨pos, false⟩] elements = some g.calls := by
  have hfew : ids.length ≤ elements.length := by
    have hsub : ids ⊆ List.range elements.length :=
      fun id hid => List.mem_range.2 (hstands.lt_length id hid)
    have hle := (List.subperm_of_subset hnodup hsub).length_le
    rwa [List.length_range] at hle
  have hrounds := hstands.rounds_le
  have hgo := buildRowanGreen_stands hstands elements (fun _ _ => rfl) hnodup
    (2 * elements.length - rounds [g]) [] [] (fun arena' _ => by
      cases 2 * elements.length - rounds [g] <;> rfl)
  rw [show rounds [g] + (2 * elements.length - rounds [g]) = 2 * elements.length by omega] at hgo
  simpa [Green.callsAll] using hgo

/-- **The calls of the builder are those of its first tree.** -/
theorem finish_eq {b : LuaGreenNodeBuilder} {f : Forest} (hshows : Shows b f) :
    b.finish = some (rootCalls f.children) := by
  obtain ⟨_, ids, hstands, hnodup⟩ := hshows
  unfold finish
  generalize b.children = positions at hstands
  generalize f.children = gs at hstands
  cases hstands with
  | nil => rfl
  | @token pos positions gs ids kind range hpos rest =>
    have hroot := buildRowanGreen_root (.token hpos .nil) (List.nodup_singleton pos)
    simp only [hpos, hroot]
    rfl
  | @node pos children positions own gs ids ids' kind hpos hown rest =>
    have hleft : (pos :: (ids ++ [])).Nodup := by
      rw [List.append_nil]
      rw [← List.cons_append] at hnodup
      exact (List.nodup_append.1 hnodup).1
    have hroot := buildRowanGreen_root (.node hpos hown .nil) hleft
    simp only [hpos, hroot]
    cases kind <;> rfl

/-! ## §5. Induction over a forest

  `closeNode` says what becomes of a node's children: a Block or a Chunk takes in the trivia in
  front of it, every other node lets go of the trivia at its two ends.  `chunkOf` closes the
  nodes of a whole file so.  Main result: tokens keep their order, and the tree without trivia
  and the nodes with their own tokens stay what they were (`sameBut_chunkOf`).
-/

/-- Induction over a list of trees, into the first of them and along the list. -/
theorem forest_induction {P : List Green → Prop} (nil : P [])
    (token : ∀ kind range gs, P gs → P (.token kind range :: gs))
    (node : ∀ kind own gs, P own → P gs → P (.node kind own :: gs)) : ∀ gs, P gs
  | [] => nil
  | .token kind range :: gs => token kind range gs (forest_induction nil token node gs)
  | .node kind own :: gs =>
    node kind own gs (forest_induction nil token node own) (forest_induction nil token node gs)

/-! ## §6. Closing a node -/

/-- The children of the parent behind `acc` once a node with the children `inner` is closed. -/
def closeNode (kind : LuaSyntaxKind) (acc inner : List Green) : List Green :=
  if pullsTrivia kind then
    acc.rdropWhile Green.isTrivia ++ [.node kind (acc.rtakeWhile Green.isTrivia ++ inner)]
  else
    let skipped := if keepsComments kind then Green.isTriviaWhitespace else Green.isTrivia
    let rest := inner.dropWhile skipped
    acc ++ (inner.takeWhile skipped ++ .node kind (rest.rdropWhile skipped) ::
      rest.rtakeWhile skipped)

namespace Green

mutual

def place : List Green → Green → List Green
  | acc, .token kind range => acc ++ [.token kind range]
  | acc, .node kind own => closeNode kind acc (placeAll [] own)
termination_by structural _ g => g

/-- The children of a parent behind `acc` once all these have been put there. -/
def placeAll : List Green → List Green → List Green
  | acc, [] => acc
  | acc, g :: gs => placeAll (place acc g) gs
termination_by structural _ gs => gs

end

mutual

def tokens : Green → List LuaTokenData
  | .token kind range => [⟨kind, range⟩]
  | .node _ own => tokensAll own
termination_by structural g => g

/-- The tokens of trees, in order. -/
def tokensAll : List Green → List LuaTokenData
  | [] => []
  | g :: gs => tokens g ++ tokensAll gs
termination_by structural gs => gs

end

mutual

def bare : Green → List Green
  | .token kind range => if isTriviaToken kind then [] else [.token kind range]
  | .node kind own => if isTriviaNode kind then [] else [.node kind (bareAll own)]
termination_by structural g => g

/-- The trees without trivia. -/
def bareAll : List Green → List Green
  | [] => []
  | g :: gs => bare g ++ bareAll gs
termination_by structural gs => gs

end

/-- A token that is no trivia. -/
def solid : Green → Option LuaTokenData
  | .token kind range => if isTriviaToken kind then none else some ⟨kind, range⟩
  | .node _ _ => none

@[simp] theorem solid_node (kind : LuaSyntaxKind) (own : List Green) :
    solid (.node kind own) = none := rfl

mutual

def groups : Green → List (LuaSyntaxKind × List LuaTokenData)
  | .token _ _ => []
  | .node kind own => (kind, own.filterMap solid) :: groupsAll own
termination_by structural g => g

/-- The nodes of trees, each with those of its own tokens that are no trivia. -/
def groupsAll : List Green → List (LuaSyntaxKind × List LuaTokenData)
  | [] => []
  | g :: gs => groups g ++ groupsAll gs
termination_by structural gs => gs

end

end Green

open Green

/-- The tree of a file whose events stand for these trees. -/
def chunkOf (gs : List Green) : Green := .node .Chunk (placeAll [] gs)

/-! ## §7. What stays as it was -/

section

variable (gs gs' acc inner : List Green) (kind : LuaSyntaxKind)

@[simp] theorem tokensAll_append : tokensAll (gs ++ gs') = tokensAll gs ++ tokensAll gs' := by
  induction gs with
  | nil => rfl
  | cons g gs ih => simp [tokensAll, ih]

@[simp] theorem bareAll_append : bareAll (gs ++ gs') = bareAll gs ++ bareAll gs' := by
  induction gs with
  | nil => rfl
  | cons g gs ih => simp [bareAll, ih]

@[simp] theorem groupsAll_append : groupsAll (gs ++ gs') = groupsAll gs ++ groupsAll gs' := by
  induction gs with
  | nil => rfl
  | cons g gs ih => simp [groupsAll, ih]

/-- Trivia leave nothing behind. -/
theorem bareAll_trivia {gs : List Green} (htrivia : ∀ g ∈ gs, g.isTrivia = true) :
    bareAll gs = [] := by
  induction gs with
  | nil => rfl
  | cons g gs ih =>
    have hg := htrivia g (.head _)
    rw [bareAll, ih fun g' hg' => htrivia g' (List.mem_cons_of_mem _ hg'), List.append_nil]
    cases g with
    | token kind range => exact if_pos hg
    | node kind own => exact if_pos hg

theorem solid_trivia {gs : List Green} (htrivia : ∀ g ∈ gs, g.isTrivia = true) :
    gs.filterMap solid = [] := by
  rw [List.filterMap_eq_nil_iff]
  intro g hg
  cases g with
  | token kind range => exact if_pos (htrivia _ hg)
  | node kind own => rfl

theorem isTrivia_of_whitespace {g : Green} (h : g.isTriviaWhitespace = true) :
    g.isTrivia = true := by
  cases g with
  | token kind range =>
    show isTriviaToken kind = true
    cases kind <;> first | rfl | cases h
  | node kind own => cases h

/-- What a node lets go of is trivia. -/
theorem isTrivia_of_skipped {g : Green}
    (h : (if keepsComments kind then Green.isTriviaWhitespace else Green.isTrivia) g = true) :
    g.isTrivia = true := by
  split at h
  · exact isTrivia_of_whitespace h
  · exact h

/-- What is in front of a node and its children, cut up: `kept` stays in front, `pulled` comes
    in, `lead` and `trail` go out. -/
theorem closeNode_cut :
    ∃ kept pulled lead mid trail,
      closeNode kind acc inner = kept ++ (lead ++ .node kind (pulled ++ mid) :: trail)
        ∧ acc = kept ++ pulled ∧ inner = lead ++ (mid ++ trail) ∧ (pulled = [] ∨ lead = [])
        ∧ (∀ g ∈ pulled, g.isTrivia = true) ∧ (∀ g ∈ lead, g.isTrivia = true)
        ∧ ∀ g ∈ trail, g.isTrivia = true := by
  unfold closeNode
  split
  · exact ⟨acc.rdropWhile Green.isTrivia, acc.rtakeWhile Green.isTrivia, [], inner, [], rfl,
      List.rdropWhile_append_rtakeWhile.symm, (List.append_nil inner).symm, .inr rfl,
      fun g hg => List.mem_rtakeWhile_imp hg, nofun,
      nofun⟩
  · set skipped := if keepsComments kind then Green.isTriviaWhitespace else Green.isTrivia
    refine ⟨acc, [], inner.takeWhile skipped, (inner.dropWhile skipped).rdropWhile skipped,
      (inner.dropWhile skipped).rtakeWhile skipped, rfl, (List.append_nil acc).symm, ?_,
      .inl rfl, nofun,
      fun g hg => isTrivia_of_skipped kind (List.mem_takeWhile_imp hg),
      fun g hg => isTrivia_of_skipped kind (List.mem_rtakeWhile_imp hg)⟩
    rw [List.rdropWhile_append_rtakeWhile, List.takeWhile_append_dropWhile]

theorem tokensAll_closeNode :
    tokensAll (closeNode kind acc inner) = tokensAll acc ++ tokensAll inner := by
  obtain ⟨kept, pulled, lead, mid, trail, hclose, rfl, rfl, hone, -⟩ := closeNode_cut acc inner kind
  rw [hclose]
  rcases hone with rfl | rfl <;> simp [tokensAll, tokens]

theorem bareAll_closeNode :
    bareAll (closeNode kind acc inner) = bareAll acc ++ bare (.node kind inner) := by
  obtain ⟨kept, pulled, lead, mid, trail, hclose, rfl, rfl, -, hpulled, hlead, htrail⟩ :=
    closeNode_cut acc inner kind
  rw [hclose]
  simp [bareAll, bare, bareAll_trivia hpulled, bareAll_trivia hlead, bareAll_trivia htrail]

theorem groupsAll_closeNode :
    (groupsAll (closeNode kind acc inner)).Perm (groupsAll acc ++ groups (.node kind inner)) := by
  obtain ⟨kept, pulled, lead, mid, trail, hclose, rfl, rfl, hone, hpulled, hlead, htrail⟩ :=
    closeNode_cut acc inner kind
  rw [hclose]
  have hown : (pulled ++ mid).filterMap solid = (lead ++ (mid ++ trail)).filterMap solid := by
    simp [solid_trivia hpulled, solid_trivia hlead, solid_trivia htrail]
  simp only [groupsAll_append, groupsAll, groups, hown, List.append_assoc, List.cons_append]
  apply List.Perm.append_left
  rcases hone with rfl | rfl
  · exact List.perm_middle
  · exact List.perm_middle.symm

/-- A node's own tokens that are no trivia stay its own while a node among its children is
    closed. -/
theorem solid_closeNode : (closeNode kind acc inner).filterMap solid = acc.filterMap solid := by
  obtain ⟨kept, pulled, lead, mid, trail, hclose, rfl, -, -, hpulled, hlead, htrail⟩ :=
    closeNode_cut acc inner kind
  rw [hclose]
  simp only [List.filterMap_append, List.filterMap_cons, solid_node, solid_trivia hpulled,
    solid_trivia hlead, solid_trivia htrail, List.append_nil]

/-! ## §8. The tree of a file -/

theorem tokensAll_placeAll :
    ∀ acc, tokensAll (placeAll acc gs) = tokensAll acc ++ tokensAll gs := by
  induction gs using forest_induction with
  | nil => simp [placeAll, tokensAll]
  | token kind range gs ih => simp [placeAll, place, ih, tokensAll, tokens]
  | node kind own gs ihOwn ih =>
    intro acc
    rw [placeAll, place, ih, tokensAll_closeNode, ihOwn]
    simp [tokensAll, tokens]

theorem bareAll_placeAll : ∀ acc, bareAll (placeAll acc gs) = bareAll acc ++ bareAll gs := by
  induction gs using forest_induction with
  | nil => simp [placeAll, bareAll]
  | token kind range gs ih => simp [placeAll, place, ih, bareAll]
  | node kind own gs ihOwn ih =>
    intro acc
    rw [placeAll, place, ih, bareAll_closeNode, bare, ihOwn]
    simp [bareAll, bare]

theorem solid_placeAll : ∀ acc,
    (placeAll acc gs).filterMap solid = acc.filterMap solid ++ gs.filterMap solid := by
  induction gs using forest_induction with
  | nil => simp [placeAll]
  | token kind range gs ih =>
    intro acc
    rw [placeAll, place, ih, List.filterMap_append, List.append_assoc, ← List.filterMap_append]
    rfl
  | node kind own gs _ ih =>
    intro acc
    rw [placeAll, place, ih, solid_closeNode]
    rfl

theorem groupsAll_placeAll : ∀ acc,
    (groupsAll (placeAll acc gs)).Perm (groupsAll acc ++ groupsAll gs) := by
  induction gs using forest_induction with
  | nil => simp [placeAll, groupsAll]
  | token kind range gs ih =>
    intro acc
    have hrest := ih (acc ++ [.token kind range])
    rw [groupsAll_append, List.append_assoc] at hrest
    exact hrest
  | node kind own gs ihOwn ih =>
    intro acc
    rw [placeAll, place]
    refine (ih _).trans ?_
    rw [groupsAll, ← List.append_assoc]
    apply List.Perm.append_right
    refine (groupsAll_closeNode acc _ kind).trans (List.Perm.append_left _ ?_)
    rw [groups, groups, solid_placeAll]
    exact (ihOwn []).cons _

end

/-- Two trees with the same tokens in the same order, the same tree without trivia, and the same
    nodes with the same tokens of their own, trivia aside. -/
structure SameBut (before after : Green) : Prop where
  tokens : after.tokens = before.tokens
  bare : after.bare = before.bare
  groups : after.groups.Perm before.groups

/-- **Closing the nodes of a file moves trivia only.** -/
theorem sameBut_chunkOf (gs : List Green) : SameBut (.node .Chunk gs) (chunkOf gs) where
  tokens := tokensAll_placeAll gs []
  bare := congrArg (fun own => [Green.node .Chunk own]) (bareAll_placeAll gs [])
  groups := by
    show List.Perm ((_, _) :: _) ((_, _) :: _)
    rw [solid_placeAll]
    exact (groupsAll_placeAll gs []).cons _

/-! ## §9. The calls tell the tree -/

/-- The calls of two lists of trees, cut off where a node ends. -/
theorem callsAll_cut (gs : List Green) :
    ∀ (gs' : List Green) (rest rest' : List RowanCall),
      callsAll gs ++ .finishNode :: rest = callsAll gs' ++ .finishNode :: rest' →
        gs = gs' ∧ rest = rest' := by
  induction gs using forest_induction with
  | nil =>
    intro gs' rest rest' h
    cases gs' with
    | nil => exact ⟨rfl, (List.cons.inj h).2⟩
    | cons g gs' => cases g <;> cases h
  | token kind range gs ih =>
    intro gs' rest rest' h
    cases gs' with
    | nil => cases h
    | cons g gs' =>
      cases g with
      | token kind' range' =>
        obtain ⟨hhead, htail⟩ := List.cons.inj h
        obtain ⟨rfl, rfl⟩ := ih gs' rest rest' htail
        cases hhead
        exact ⟨rfl, rfl⟩
      | node kind' own' => cases h
  | node kind own gs ihOwn ih =>
    intro gs' rest rest' h
    cases gs' with
    | nil => cases h
    | cons g gs' =>
      cases g with
      | token kind' range' => cases h
      | node kind' own' =>
        simp only [callsAll, calls, List.cons_append, List.append_assoc, List.nil_append] at h
        obtain ⟨hhead, htail⟩ := List.cons.inj h
        obtain ⟨rfl, hbehind⟩ := ihOwn _ _ _ htail
        obtain ⟨rfl, rfl⟩ := ih _ _ _ hbehind
        cases hhead
        exact ⟨rfl, rfl⟩

theorem callsAll_injective {gs gs' : List Green} (h : callsAll gs = callsAll gs') : gs = gs' :=
  (callsAll_cut gs gs' [] [] (congrArg (· ++ [RowanCall.finishNode]) h)).1

theorem calls_injective {g g' : Green} (h : g.calls = g'.calls) : g = g' := by
  have hall : callsAll [g] = callsAll [g'] := by
    rw [callsAll, callsAll, h]
    rfl
  exact List.cons.inj (callsAll_injective hall) |>.1

end GluaLs.Syntax
