/-
  GluaLs.Syntax.GreenBuilder — the tree builder
  (`glua_parser/src/syntax/tree/{lua_tree_builder, lua_green_builder}.rs`).

  The events of a parse become calls on a builder of nodes: a node start that another start
  links to is opened together with it, in front.  The builder keeps the finished elements in
  an arena and the children of all open nodes in one list.  When a node is finished, the
  children behind its start become its own, save the trivia at its ends; what a Block or a
  Chunk finds in front of it is pulled in.

  `none` is a panic: an index out of range, or a parent link to what is no node start.  The
  tree itself is built by calls on the green-node builder of another crate (`RowanCall`).
-/
import GluaLs.Syntax.Parser

namespace GluaLs.Syntax

/-! ## §1. Finished elements -/

/-- An element of the arena; the children of a node are indices. -/
inductive LuaGreenElement where
  | None
  | Node (kind : LuaSyntaxKind) (children : List Nat)
  | Token (kind : LuaTokenKind) (range : SourceRange)
  deriving DecidableEq

/-- What is called on the green-node builder. -/
inductive RowanCall where
  | startNode (kind : LuaSyntaxKind)
  | token (kind : LuaTokenKind) (range : SourceRange)
  | finishNode
  deriving DecidableEq

/-- Blanks, line breaks and the marks a description goes on behind. -/
def isTriviaToken : LuaTokenKind → Bool
  | .TkWhitespace | .TkEndOfLine | .TkDocContinue => true
  | _ => false

def isTriviaNode : LuaSyntaxKind → Bool
  | .Comment | .DocDescription => true
  | _ => false

def isWhitespaceToken : LuaTokenKind → Bool
  | .TkWhitespace | .TkEndOfLine => true
  | _ => false

namespace LuaGreenElement

/-- What `is_trivia` says of an element. -/
def isTrivia : LuaGreenElement → Bool
  | .Token kind _ => isTriviaToken kind
  | .Node kind _ => isTriviaNode kind
  | .None => false

/-- What `is_trivia_whitespace` says of an element. -/
def isTriviaWhitespace : LuaGreenElement → Bool
  | .Token kind _ => isWhitespaceToken kind
  | _ => false

end LuaGreenElement

/-! ## §2. Which children are the node's own -/

/-- The nodes that pull in the trivia in front of them. -/
def pullsTrivia : LuaSyntaxKind → Bool
  | .Block | .Chunk => true
  | _ => false

/-- The nodes that push out blanks and line breaks only. -/
def keepsComments : LuaSyntaxKind → Bool
  | .Comment | .TypeMultiLineUnion => true
  | _ => false

section

variable {α : Type} (trivia : α → Bool) (children : List α)

/-- `child_start` moved back over trivia. -/
def pullStart : Nat → Nat
  | 0 => 0
  | start + 1 => if children[start]?.any trivia then pullStart start else start + 1

/-- `child_start` moved on over trivia. -/
def trimStart (start : Nat) : Nat := start + ((children.drop start).takeWhile trivia).length

/-- `child_end` moved back over trivia, as far as `child_start`. -/
def trimEnd (start : Nat) : Nat → Nat
  | 0 => 0
  | stop + 1 => if start < stop + 1 ∧ children[stop + 1]?.any trivia then trimEnd start stop
      else stop + 1

end

/-- `child_start` and `child_end` of a node whose children begin at `firstStart`; `none` where
    the list is indexed out of its range. -/
def ownChildren {α : Type} (trivia whitespace : α → Bool) (kind : LuaSyntaxKind)
    (firstStart : Nat) (children : List α) : Option (Nat × Nat) :=
  if pullsTrivia kind then
    -- `self.children[child_start - 1]`
    if children.length < firstStart then none
    else some (pullStart trivia children firstStart, children.length - 1)
  else
    let skipped := if keepsComments kind then whitespace else trivia
    let childStart := trimStart skipped children firstStart
    some (childStart, trimEnd skipped children childStart (children.length - 1))

/-- `children.drain(child_start..=child_end)`: what is drained and what is left. -/
def drain {α : Type} (children : List α) (childStart childEnd : Nat) : Option (List α × List α) :=
  if childStart ≤ childEnd + 1 ∧ childEnd + 1 ≤ children.length then
    some ((children.take (childEnd + 1)).drop childStart,
      children.take childStart ++ children.drop (childEnd + 1))
  else none

/-- The finished node put where its children were. -/
def putNode {α : Type} (children rest : List α) (childStart childEnd : Nat) (node : α) : List α :=
  if childEnd + 1 < children.length then rest.insertIdx childStart node else rest ++ [node]

/-! ## §3. `LuaGreenNodeBuilder` -/

/-- `LuaGreenNodeBuilder`; the innermost open node comes first. -/
structure LuaGreenNodeBuilder where
  parents : List (LuaSyntaxKind × Nat)
  children : List Nat
  elements : List LuaGreenElement

namespace LuaGreenNodeBuilder

def new : LuaGreenNodeBuilder := ⟨[], [], []⟩

def token (b : LuaGreenNodeBuilder) (kind : LuaTokenKind) (range : SourceRange) :
    LuaGreenNodeBuilder :=
  { b with
    elements := b.elements ++ [.Token kind range]
    children := b.children ++ [b.elements.length] }

def startNode (b : LuaGreenNodeBuilder) (kind : LuaSyntaxKind) : LuaGreenNodeBuilder :=
  { b with parents := (kind, b.children.length) :: b.parents }

def isTrivia (b : LuaGreenNodeBuilder) (pos : Nat) : Bool :=
  b.elements[pos]?.any LuaGreenElement.isTrivia

def isTriviaWhitespace (b : LuaGreenNodeBuilder) (pos : Nat) : Bool :=
  b.elements[pos]?.any LuaGreenElement.isTriviaWhitespace

def finishNode (b : LuaGreenNodeBuilder) : Option LuaGreenNodeBuilder :=
  match b.parents with
  | [] => some b
  | (kind, firstStart) :: parents =>
    if b.children.isEmpty then some b
    else do
      let (childStart, childEnd) ←
        ownChildren b.isTrivia b.isTriviaWhitespace kind firstStart b.children
      let (own, rest) ← drain b.children childStart childEnd
      some
        { parents
          children := putNode b.children rest childStart childEnd b.elements.length
          elements := b.elements ++ [.Node kind own] }

/-- An element that is to be built, or the end of a node that was begun. -/
structure StackItem where
  index : Nat
  isClose : Bool

/-- The loop of `build_rowan_green`; every element is taken out of the arena once, so twice as
    many rounds as there are elements are enough. -/
def buildRowanGreen : Nat → List StackItem → List LuaGreenElement → Option (List RowanCall)
  | _, [], _ => some []
  | 0, _ :: _, _ => none
  | rounds + 1, item :: stack, elements =>
    if item.isClose then
      (buildRowanGreen rounds stack elements).map fun calls => .finishNode :: calls
    else
      match elements[item.index]? with
      | none => none
      | some (.Node kind children) =>
        (buildRowanGreen rounds
          (children.map (fun child => ⟨child, false⟩) ++ ⟨item.index, true⟩ :: stack)
          (elements.set item.index .None)).map fun calls => .startNode kind :: calls
      | some (.Token kind range) =>
        (buildRowanGreen rounds stack (elements.set item.index .None)).map fun calls =>
          .token kind range :: calls
      | some .None => buildRowanGreen rounds stack (elements.set item.index .None)

/-- `finish`: the first child is the root. -/
def finish (b : LuaGreenNodeBuilder) : Option (List RowanCall) :=
  match b.children with
  | [] => some [.startNode .Chunk, .finishNode]
  | rootPos :: _ =>
    match b.elements[rootPos]? with
    | none => none
    | some root =>
      (buildRowanGreen (2 * b.elements.length) [⟨rootPos, false⟩] b.elements).map fun calls =>
        match root with
        | .Node .Chunk _ => calls
        | _ => .startNode .Chunk :: calls ++ [.finishNode]

end LuaGreenNodeBuilder

/-! ## §4. `LuaTreeBuilder` -/

def MarkEvent.none : MarkEvent := .NodeStart .None 0

structure LuaTreeBuilder where
  events : List MarkEvent
  greenBuilder : LuaGreenNodeBuilder

namespace LuaTreeBuilder

def new (events : List MarkEvent) : LuaTreeBuilder := ⟨events, .new⟩

/-- The loop over `parent_position`: the starts a start is linked to, taken out of the events.
    A start that was taken has no parent, so as many rounds as there are events are enough. -/
def takeParents : Nat → List MarkEvent → Nat → List LuaSyntaxKind →
    Option (List MarkEvent × List LuaSyntaxKind)
  | _, events, 0, parents => some (events, parents)
  | 0, _, _ + 1, _ => Option.none
  | rounds + 1, events, position + 1, parents =>
    match events[position + 1]? with
    | some (.NodeStart kind parent) =>
      takeParents rounds (events.set (position + 1) .none) parent (parents ++ [kind])
    | _ => Option.none

/-- What the event at `i` makes the builder do. -/
def step (b : LuaTreeBuilder) (i : Nat) : Option LuaTreeBuilder :=
  match b.events[i]? with
  | Option.none => Option.none
  | some event =>
    let events := b.events.set i .none
    match event with
    | .NodeStart .None _ | .Trivia => some { b with events }
    | .NodeStart kind parent => do
        let (events, parents) ← takeParents (events.length + 1) events parent [kind]
        some
          { events
            greenBuilder := parents.reverse.foldl LuaGreenNodeBuilder.startNode b.greenBuilder }
    | .NodeEnd => do
        let greenBuilder ← b.greenBuilder.finishNode
        some { events, greenBuilder }
    | .EatToken kind range => some { events, greenBuilder := b.greenBuilder.token kind range }

def build (b : LuaTreeBuilder) : Option LuaTreeBuilder := do
  let b' ← (List.range b.events.length).foldlM step
    { b with greenBuilder := b.greenBuilder.startNode .Chunk }
  let greenBuilder ← b'.greenBuilder.finishNode
  some { b' with greenBuilder }

end LuaTreeBuilder

/-- The calls that make the tree of a list of events. -/
def buildTree (events : List MarkEvent) : Option (List RowanCall) := do
  let b ← (LuaTreeBuilder.new events).build
  b.greenBuilder.finish

end GluaLs.Syntax
