/-
  GluaLs.Syntax.Precedence — `parse_sub_expr` parses as Lua's precedence says.

  The rule turns the writing of an allowed expression into the tree of that expression
  (`subExpr_allowed`).  So a tree written with the parentheses it needs is read back, and an
  alternation of operands and operators is read in the only way that is allowed
  (`subExpr_precedence`).  A check of the stack that fails ends the rule with an error.
-/
import GluaLs.Syntax.OperatorParse
import GluaLs.Syntax.TreeBuilt

namespace GluaLs.Syntax

open Relation

/-! ## §1. The tree of an expression

  The events of an allowed expression open, eat and close what its tree says: the first start of
  an expression opens the binary nodes around it too (`openedFrom_events`).  With the tree
  builder this gives the tree of a parse, and from the tree the operators can be read back.
-/

def leaf (token : LuaTokenData) : Green := .token token.kind token.range

/-- The tree of nodes and tokens, without the blanks. -/
def OpExpr.green : OpExpr → Green
  | atom token => .node (atomKind token.kind) [leaf token.toLuaTokenData]
  | paren left inner right =>
    .node .ParenExpr [leaf left.toLuaTokenData, inner.green, leaf right.toLuaTokenData]
  | unary op operand => .node .UnaryExpr [leaf op.toLuaTokenData, operand.green]
  | binary left op right => .node .BinaryExpr [left.green, leaf op.toLuaTokenData, right.green]

/-- The tokens that are eaten together. -/
def leaves (lexeme : Lexeme) : List Green := lexeme.written.map leaf

/-- The tree with the blanks where they are eaten. -/
def OpExpr.full : OpExpr → Green
  | atom token => .node (atomKind token.kind) (leaves token)
  | paren left inner right => .node .ParenExpr (leaves left ++ inner.full :: leaves right)
  | unary op operand => .node .UnaryExpr (leaves op ++ [operand.full])
  | binary left op right => .node .BinaryExpr (left.full :: (leaves op ++ [right.full]))

/-- The operator tree in a tree of nodes; parentheses are looked through. -/
def readTree : Green → Option OpTree
  | .node .BinaryExpr [left, .token op _, right] => do
      let l ← readTree left
      let r ← readTree right
      some (.binary (toBinaryOperator op) l r)
  | .node .UnaryExpr [.token op _, operand] => do
      let t ← readTree operand
      some (.unary (toUnaryOperator op) t)
  | .node .ParenExpr [.token .TkLeftParen _, inner, .token .TkRightParen _] => readTree inner
  | .node .NameExpr [.token kind _] => some (.atom kind)
  | .node .LiteralExpr [.token kind _] => some (.atom kind)
  | _ => none

theorem readTree_green {e : OpExpr} (he : e.Allowed) : readTree e.green = some e.tree := by
  induction e with
  | atom token =>
    by_cases hname : token.kind = .TkName
    · simp [OpExpr.green, atomKind, hname, leaf, readTree, OpExpr.tree]
    · simp [OpExpr.green, atomKind, hname, leaf, readTree, OpExpr.tree]
  | paren left inner right ih =>
    rw [OpExpr.green, leaf, leaf, he.1, he.2.2, readTree]
    exact ih he.2.1
  | unary op operand ih => simp [OpExpr.green, leaf, readTree, ih he.2.1, OpExpr.tree]
  | binary left op right ihl ihr =>
    simp [OpExpr.green, leaf, readTree, ihl he.2.1, ihr he.2.2.1, OpExpr.tree]

theorem tokens_green (e : OpExpr) : e.green.tokens = e.tokens.map Lexeme.toLuaTokenData := by
  induction e with
  | atom token => rfl
  | paren left inner right ih | unary op operand ih =>
    simp [OpExpr.green, OpExpr.tokens, Green.tokens, Green.tokensAll, leaf, ih]
  | binary left op right ihl ihr =>
    simp [OpExpr.green, OpExpr.tokens, Green.tokens, Green.tokensAll, leaf, ihl, ihr]

/-- Two writings of the same tokens with the same tree are the same. -/
theorem green_injective (e : OpExpr) :
    ∀ e' : OpExpr, e.green = e'.green → e.tokens = e'.tokens → e = e' := by
  induction e with
  | atom token =>
    intro e' h htokens
    cases e' with
    | atom token' => rw [(List.cons.inj htokens).1]
    | paren left inner right | unary op operand | binary left op right =>
      cases (List.cons.inj (Green.node.inj h).2).2
  | paren left inner right ih =>
    intro e' h htokens
    cases e' with
    | atom token' => cases (List.cons.inj (Green.node.inj h).2).2
    | paren left' inner' right' =>
      obtain ⟨-, hown⟩ := Green.node.inj h
      obtain ⟨-, hrest⟩ := List.cons.inj hown
      obtain ⟨hleft, htail⟩ := List.cons.inj htokens
      obtain ⟨hinner, hright⟩ := List.append_inj' htail rfl
      rw [hleft, ih inner' (List.cons.inj hrest).1 hinner, (List.cons.inj hright).1]
    | unary op operand => cases h
    | binary left op right => cases h
  | unary op operand ih =>
    intro e' h htokens
    cases e' with
    | atom token' => cases (List.cons.inj (Green.node.inj h).2).2
    | paren left inner right => cases h
    | unary op' operand' =>
      obtain ⟨-, hown⟩ := Green.node.inj h
      obtain ⟨-, hrest⟩ := List.cons.inj hown
      obtain ⟨hop, htail⟩ := List.cons.inj htokens
      rw [hop, ih operand' (List.cons.inj hrest).1 htail]
    | binary left op right => cases h
  | binary left op right ihl ihr =>
    intro e' h htokens
    cases e' with
    | atom token' => cases (List.cons.inj (Green.node.inj h).2).2
    | paren left inner right => cases h
    | unary op operand => cases h
    | binary left' op' right' =>
      obtain ⟨-, hown⟩ := Green.node.inj h
      obtain ⟨hleft, hrest⟩ := List.cons.inj hown
      obtain ⟨-, hlast⟩ := List.cons.inj hrest
      have hlength : left.tokens.length = left'.tokens.length := by
        have hmap := congrArg Green.tokens hleft
        rw [tokens_green, tokens_green] at hmap
        simpa using congrArg List.length hmap
      obtain ⟨hfront, htail⟩ := List.append_inj htokens hlength
      obtain ⟨hop, hback⟩ := List.cons.inj htail
      rw [ihl left' hleft hfront, hop, ihr right' (List.cons.inj hlast).1 hback]

/-! ## §2. What the events open -/

section

variable {events : List MarkEvent}

/-- What `count` events from `base` on open, eat and close. -/
def openedFrom (events : List MarkEvent) (base count : Nat) : List RowanCall :=
  (List.range count).flatMap fun i => opened events (base + i)

theorem openedFrom_add (base m n : Nat) :
    openedFrom events base (m + n) =
      openedFrom events base m ++ openedFrom events (base + m) n := by
  unfold openedFrom
  rw [List.range_add, List.flatMap_append, List.flatMap_map]
  simp only [Nat.add_assoc]

theorem openedFrom_succ (base n : Nat) :
    openedFrom events base (n + 1) = opened events base ++ openedFrom events (base + 1) n := by
  rw [Nat.add_comm n 1, openedFrom_add]
  simp [openedFrom]

/-- The first of some events that stand from `base` on. -/
theorem prefix_head {event : MarkEvent} {es : List MarkEvent} {base : Nat}
    (h : event :: es <+: events.drop base) :
    events[base]? = some event ∧ es <+: events.drop (base + 1) := by
  obtain ⟨rest, hrest⟩ := h
  constructor
  · rw [← List.head?_drop, ← hrest]
    rfl
  · rw [← List.drop_drop, ← hrest]
    exact List.prefix_append _ _

theorem prefix_split {es es' : List MarkEvent} {base : Nat} (h : es ++ es' <+: events.drop base) :
    es <+: events.drop base ∧ es' <+: events.drop (base + es.length) := by
  obtain ⟨rest, hrest⟩ := h
  constructor
  · exact ⟨es' ++ rest, by rw [← List.append_assoc, hrest]⟩
  · rw [← List.drop_drop, ← hrest, List.append_assoc, List.drop_left]
    exact List.prefix_append _ _

theorem opened_eat {i : Nat} {token : LuaTokenData} (hi : events[i]? = some (eatToken token)) :
    opened events i = (leaf token).calls := by
  unfold opened
  rw [hi]
  rfl

/-- Tokens eaten one behind another. -/
theorem openedFrom_eat (tokens : List LuaTokenData) : ∀ base,
    tokens.map eatToken <+: events.drop base →
      openedFrom events base tokens.length = Green.callsAll (tokens.map leaf) := by
  induction tokens with
  | nil => intro base _; rfl
  | cons token tokens ih =>
    intro base h
    obtain ⟨htoken, hrest⟩ := prefix_head h
    rw [List.length_cons, openedFrom_succ, opened_eat htoken, ih _ hrest]
    rfl

theorem opened_end {i : Nat} (hi : events[i]? = some .NodeEnd) :
    opened events i = [.finishNode] := by
  unfold opened
  rw [hi]

theorem opened_trivia {i : Nat} (hi : events[i]? = some .Trivia) : opened events i = [] := by
  unfold opened
  rw [hi]

theorem callsAll_append (gs gs' : List Green) :
    Green.callsAll (gs ++ gs') = Green.callsAll gs ++ Green.callsAll gs' := by
  induction gs with
  | nil => rfl
  | cons g gs ih => rw [List.cons_append, Green.callsAll, ih, Green.callsAll, List.append_assoc]

/-- Only binary nodes are opened in front of others. -/
def BinaryLinks (events : List MarkEvent) : Prop :=
  ∀ i j, Linked events i j → ∃ parent, events[j]? = some (.NodeStart .BinaryExpr parent)

/-- The first start of an operand is not opened by another. -/
theorem taken_first (hlinks : LinksOk events) (hbinary : BinaryLinks events) {i : Nat}
    {kind : LuaSyntaxKind} {link : Nat} (hi : events[i]? = some (.NodeStart kind link))
    (hkind : kind ≠ .BinaryExpr) : taken events i i = false := by
  rw [Bool.eq_false_iff]
  intro htaken
  obtain ⟨j, -, hji⟩ := taken_iff.1 htaken
  obtain ⟨_, -, hlast⟩ := TransGen.tail'_iff.1 ((takes_iff hlinks).1 hji).2
  obtain ⟨parent, hat⟩ := hbinary _ _ hlast
  rw [hi] at hat
  cases hat
  exact hkind rfl

/-- The chain of starts does not depend on the rounds, if there are enough. -/
theorem parentsOf_eq (hlinks : LinksOk events) : ∀ (rounds rounds' parent : Nat),
    Follow events rounds parent → Follow events rounds' parent →
    parentsOf events rounds parent = parentsOf events rounds' parent := by
  intro rounds
  induction rounds with
  | zero =>
    intro rounds' parent hfollow hfollow'
    cases parent with
    | zero => cases rounds' <;> rfl
    | succ position =>
      obtain ⟨_, _, _, hrounds, -⟩ := follow_succ hlinks hfollow
      cases hrounds
  | succ rounds ih =>
    intro rounds' parent hfollow hfollow'
    cases parent with
    | zero => cases rounds' <;> rfl
    | succ position =>
      obtain ⟨_, kind, parent, hrounds, hat, hrest, -⟩ := follow_succ hlinks hfollow
      obtain ⟨n, kind', parent', rfl, hat', hrest', -⟩ := follow_succ hlinks hfollow'
      cases hrounds
      rw [hat] at hat'
      cases hat'
      rw [parentsOf, parentsOf, hat]
      simp only []
      rw [ih n parent hrest hrest']

/-- The kinds of the nodes a link opens, the nearest first. -/
def chainOf (events : List MarkEvent) (link : Nat) : List LuaSyntaxKind :=
  (parentsOf events (events.length + 1) link).map Prod.snd

theorem chainOf_zero : chainOf events 0 = [] := by
  unfold chainOf parentsOf
  rfl

/-- A start that no other opens opens its chain, and then its own node. -/
theorem opened_first (hlinks : LinksOk events) (hbinary : BinaryLinks events) {i : Nat}
    {kind : LuaSyntaxKind} {link : Nat} (hi : events[i]? = some (.NodeStart kind link))
    (hkind : kind ≠ .BinaryExpr) (hnone : kind ≠ .None) :
    opened events i = (chainOf events link).reverse.map .startNode ++ [.startNode kind] := by
  have htaken := taken_first hlinks hbinary hi hkind
  unfold opened
  rw [hi]
  simp [hnone, htaken, chainOf]

theorem atomKind_cases (kind : LuaTokenKind) :
    atomKind kind ≠ .BinaryExpr ∧ atomKind kind ≠ .None ∧ isTriviaNode (atomKind kind) = false
      ∧ pullsTrivia (atomKind kind) = false := by
  unfold atomKind
  split <;> decide

theorem kind_ne_none (e : OpExpr) : e.kind ≠ .None := by
  cases e with
  | atom token => exact (atomKind_cases token.kind).2.1
  | paren left inner right | unary op operand | binary left op right => exact nofun

theorem startPos_lt (e : OpExpr) (base : Nat) : e.startPos base < base + e.size := by
  cases e with
  | binary left op right =>
    simp only [OpExpr.startPos, OpExpr.size]
    omega
  | _ =>
    simp only [OpExpr.startPos, OpExpr.size]
    omega

/-- Where the root of an expression starts. -/
theorem root_at {e : OpExpr} {base link : Nat} (h : e.events base link <+: events.drop base) :
    events[e.startPos base]? = some (.NodeStart e.kind link) := by
  cases e with
  | binary left op right =>
    have hroot := (prefix_head (prefix_split h).2).1
    rwa [left.length_events] at hroot
  | _ => exact (prefix_head h).1

/-- The events of a token stand in the list. -/
theorem openedFrom_eaten {lexeme : Lexeme} {base : Nat} (h : eaten lexeme <+: events.drop base) :
    openedFrom events base lexeme.written.length = Green.callsAll (leaves lexeme) :=
  openedFrom_eat lexeme.written base h

theorem openedFrom_end {base : Nat} (h : [.NodeEnd] <+: events.drop base) :
    openedFrom events base 1 = [.finishNode] := by
  rw [openedFrom_succ, opened_end (prefix_head h).1]
  rfl

/-- **The events of an expression open the nodes it is linked to and then its own tree.** -/
theorem openedFrom_events (hlinks : LinksOk events) (hbinary : BinaryLinks events) (e : OpExpr) :
    ∀ base link, e.events base link <+: events.drop base →
      openedFrom events base e.size
        = (chainOf events link).reverse.map .startNode ++ e.full.calls := by
  induction e with
  | atom token =>
    intro base link h
    obtain ⟨hstart, h⟩ := prefix_head h
    obtain ⟨htoken, hend⟩ := prefix_split h
    rw [OpExpr.length_eaten] at hend
    obtain ⟨hne, hnone, -⟩ := atomKind_cases token.kind
    have hsize : (OpExpr.atom token).size = token.written.length + 1 + 1 := rfl
    rw [hsize, openedFrom_succ, openedFrom_add, opened_first hlinks hbinary hstart hne hnone,
      openedFrom_eaten htoken, openedFrom_end hend]
    simp [OpExpr.full, Green.calls]
  | paren left inner right ih =>
    intro base link h
    obtain ⟨hstart, h⟩ := prefix_head h
    obtain ⟨h, hend⟩ := prefix_split h
    obtain ⟨h, hright⟩ := prefix_split h
    obtain ⟨hleft, hinner⟩ := prefix_split h
    simp only [List.length_append, OpExpr.length_eaten, OpExpr.length_events] at hend hright hinner
    have hsize : (OpExpr.paren left inner right).size
        = left.written.length + inner.size + right.written.length + 1 + 1 := rfl
    rw [hsize, openedFrom_succ, openedFrom_add, openedFrom_add, openedFrom_add,
      opened_first hlinks hbinary hstart (by decide) (by decide), openedFrom_eaten hleft,
      ih _ _ hinner, openedFrom_eaten hright, openedFrom_end hend, chainOf_zero]
    simp [OpExpr.full, Green.calls, Green.callsAll, callsAll_append]
  | unary op operand ih =>
    intro base link h
    obtain ⟨hstart, h⟩ := prefix_head h
    obtain ⟨h, hend⟩ := prefix_split h
    obtain ⟨hop, hoperand⟩ := prefix_split h
    simp only [List.length_append, OpExpr.length_eaten, OpExpr.length_events] at hend hoperand
    have hsize : (OpExpr.unary op operand).size
        = op.written.length + operand.size + 1 + 1 := rfl
    rw [hsize, openedFrom_succ, openedFrom_add, openedFrom_add,
      opened_first hlinks hbinary hstart (by decide) (by decide), openedFrom_eaten hop,
      ih _ _ hoperand, openedFrom_end hend, chainOf_zero]
    simp [OpExpr.full, Green.calls, Green.callsAll, callsAll_append]
  | binary left op right ihl ihr =>
    intro base link h
    obtain ⟨hleft, h⟩ := prefix_split h
    rw [left.length_events] at h
    obtain ⟨hstart, h⟩ := prefix_head h
    obtain ⟨htrivia, h⟩ := prefix_head h
    obtain ⟨h, hend⟩ := prefix_split h
    obtain ⟨hop, hright⟩ := prefix_split h
    simp only [List.length_append, OpExpr.length_eaten, OpExpr.length_events] at hend hright
    -- the start of the left side opens the binary node, and the chain behind it
    have hroot := root_at hleft
    have hlt := startPos_lt left base
    have hlinked : Linked events (left.startPos base) (base + left.size) :=
      ⟨by rw [hroot]; rfl, by omega⟩
    have htaken : taken events (base + left.size) (base + left.size) = true :=
      taken_iff.2 ⟨_, hlt, (takes_iff hlinks).2 ⟨⟨_, _, hroot, kind_ne_none left⟩,
        TransGen.single hlinked⟩⟩
    have hnone : opened events (base + left.size) = [] := by
      unfold opened
      rw [hstart]
      simp [htaken]
    have hchain : chainOf events (base + left.size) = .BinaryExpr :: chainOf events link := by
      have hfollow := follow_first hroot
      obtain ⟨position, hposition⟩ : ∃ n, base + left.size = n + 1 :=
        ⟨base + left.size - 1, by omega⟩
      rw [hposition] at hfollow hstart
      obtain ⟨_, kind, parent, hrounds, hat, hrest, -⟩ := follow_succ hlinks hfollow
      cases hrounds
      rw [hstart] at hat
      cases hat
      unfold chainOf
      rw [hposition, parentsOf, hstart]
      simp only [List.map_cons]
      rw [parentsOf_eq hlinks _ _ _ hrest (follow_first hstart)]
    have hsize : (OpExpr.binary left op right).size
        = left.size + (op.written.length + right.size + 1 + 1 + 1) := by
      rw [OpExpr.size]
      omega
    rw [hsize, openedFrom_add, openedFrom_succ, openedFrom_succ, openedFrom_add, openedFrom_add,
      ihl _ _ hleft, hnone, opened_trivia htrivia, openedFrom_eaten hop, ihr _ _ hright,
      openedFrom_end hend, hchain, chainOf_zero]
    simp [OpExpr.full, Green.calls, Green.callsAll, callsAll_append]

end

/-! ## §3. The events of a whole expression -/

section

variable {events : List MarkEvent}

/-- The starts of an expression are linked to its binary nodes, the root to `link`. -/
theorem parent_of_events (e : OpExpr) : ∀ base link, e.events base link <+: events.drop base →
    ∀ kind parent, MarkEvent.NodeStart kind parent ∈ e.events base link →
      parent = link ∨ parent = 0 ∨ ∃ above, events[parent]? =
        some (.NodeStart .BinaryExpr above) := by
  have heaten : ∀ (lexeme : Lexeme) (kind : LuaSyntaxKind) (parent : Nat),
      MarkEvent.NodeStart kind parent ∉ eaten lexeme := by
    intro lexeme kind parent hmem
    obtain ⟨token, -, heq⟩ := List.mem_map.1 hmem
    cases heq
  induction e with
  | atom token =>
    intro base link _ kind parent hmem
    simp [OpExpr.events, heaten] at hmem
    exact .inl hmem.2
  | paren left inner right ih =>
    intro base link h kind parent hmem
    obtain ⟨-, h⟩ := prefix_head h
    obtain ⟨h, -⟩ := prefix_split h
    obtain ⟨h, -⟩ := prefix_split h
    obtain ⟨-, hinner⟩ := prefix_split h
    rw [OpExpr.length_eaten] at hinner
    simp [OpExpr.events, heaten] at hmem
    rcases hmem with ⟨-, rfl⟩ | hmem
    · exact .inl rfl
    · exact .inr (or_self_left.1 (ih _ _ hinner kind parent hmem))
  | unary op operand ih =>
    intro base link h kind parent hmem
    obtain ⟨-, h⟩ := prefix_head h
    obtain ⟨h, -⟩ := prefix_split h
    obtain ⟨-, hoperand⟩ := prefix_split h
    rw [OpExpr.length_eaten] at hoperand
    simp [OpExpr.events, heaten] at hmem
    rcases hmem with ⟨-, rfl⟩ | hmem
    · exact .inl rfl
    · exact .inr (or_self_left.1 (ih _ _ hoperand kind parent hmem))
  | binary left op right ihl ihr =>
    intro base link h kind parent hmem
    obtain ⟨hleft, h⟩ := prefix_split h
    rw [left.length_events] at h
    obtain ⟨hstart, h⟩ := prefix_head h
    obtain ⟨-, h⟩ := prefix_head h
    obtain ⟨h, -⟩ := prefix_split h
    obtain ⟨-, hright⟩ := prefix_split h
    rw [OpExpr.length_eaten] at hright
    simp [OpExpr.events, heaten] at hmem
    rcases hmem with hmem | ⟨-, rfl⟩ | hmem
    · rcases ihl _ _ hleft kind parent hmem with rfl | h
      · exact .inr (.inr ⟨link, hstart⟩)
      · exact .inr h
    · exact .inl rfl
    · exact .inr (or_self_left.1 (ihr _ _ hright kind parent hmem))

end

theorem binaryLinks_events (e : OpExpr) : BinaryLinks (e.events 0 0) := by
  rintro i j ⟨hparent, hj⟩
  unfold parentOf at hparent
  split at hparent
  · next kind parent hi =>
      have hwhole : e.events 0 0 <+: (e.events 0 0).drop 0 := List.prefix_refl _
      rcases parent_of_events e 0 0 hwhole kind parent (List.mem_of_getElem? hi) with h | h | h
      · omega
      · omega
      · rwa [← hparent]
  · omega

/-- What a whole expression opens, eats and closes is its tree. -/
theorem bracketing_events {e : OpExpr} (hlinks : LinksOk (e.events 0 0)) :
    bracketing (e.events 0 0) = Green.callsAll [e.full] := by
  have hopened := openedFrom_events hlinks (binaryLinks_events e) e 0 0 (List.prefix_refl _)
  rw [chainOf_zero] at hopened
  unfold bracketing
  rw [e.length_events, Green.callsAll, Green.callsAll, List.append_nil]
  simpa [openedFrom] using hopened

/-! ## §4. The tree of a whole expression -/

theorem covered_leaves (lexeme : Lexeme) (gs : List Green) (hgs : ∀ seen, Covered seen gs) :
    ∀ seen, Covered seen (leaves lexeme ++ gs) := by
  have hall :
      ∀ (tokens : List LuaTokenData) (seen : Bool), Covered seen (tokens.map leaf ++ gs) := by
    intro tokens
    induction tokens with
    | nil => exact hgs
    | cons token tokens ih => exact fun seen => ⟨trivial, ih _⟩
  exact hall lexeme.written

/-- What is covered without a child in front is covered behind any. -/
theorem coveredNode_seen {g : Green} (hg : coveredNode false g) (seen : Bool) :
    coveredNode seen g := by
  cases g with
  | token kind range => trivial
  | node kind own => exact ⟨fun h => absurd (hg.1 h) (by decide), hg.2⟩

theorem covered_full (e : OpExpr) : coveredNode false e.full := by
  have hnil : ∀ seen, Covered seen [] := fun _ => trivial
  have hpulls : ∀ kind own, pullsTrivia kind = false → (∀ seen, Covered seen own) →
      coveredNode false (.node kind own) := by
    intro kind own hkind hown
    refine ⟨fun h => ?_, hown false⟩
    rw [hkind] at h
    cases h
  induction e with
  | atom token =>
    apply hpulls _ _ (atomKind_cases token.kind).2.2.2
    simpa using covered_leaves token [] hnil
  | paren left inner right ih =>
    apply hpulls _ _ rfl
    apply covered_leaves
    intro seen
    refine ⟨coveredNode_seen ih _, ?_⟩
    simpa using covered_leaves right [] hnil _
  | unary op operand ih =>
    apply hpulls _ _ rfl
    apply covered_leaves
    exact fun seen => ⟨coveredNode_seen ih _, trivial⟩
  | binary left op right ihl ihr =>
    apply hpulls _ _ rfl
    intro seen
    refine ⟨coveredNode_seen ihl _, covered_leaves op _ ?_ _⟩
    exact fun seen => ⟨coveredNode_seen ihr _, trivial⟩

/-- The first leaf is a token. -/
theorem startsEmpty_full (e : OpExpr) : startsEmpty e.full = false := by
  induction e with
  | atom token => rfl
  | paren left inner right _ => rfl
  | unary op operand _ => rfl
  | binary left op right ih _ => exact ih

/-- The blanks aside a token stays. -/
theorem bareAll_leaves {lexeme : Lexeme} (hsolid : isTriviaToken lexeme.kind = false) :
    Green.bareAll (leaves lexeme) = [leaf lexeme.toLuaTokenData] := by
  have hblanks : Green.bareAll (lexeme.blanks.map leaf) = [] := by
    apply bareAll_trivia
    intro g hg
    obtain ⟨token, htoken, rfl⟩ := List.mem_map.1 hg
    have hblank := lexeme.isBlank token htoken
    show isTriviaToken token.kind = true
    revert hblank
    cases token.kind <;> intro hblank <;> first | rfl | cases hblank
  show Green.bare (leaf lexeme.toLuaTokenData) ++ _ = _
  rw [hblanks, List.append_nil]
  exact if_neg (by rw [hsolid]; decide)

theorem solid_of_atom {kind : LuaTokenKind} (h : isAtom kind = true) :
    isTriviaToken kind = false := by
  cases kind <;> first | rfl | cases h

theorem solid_of_unary {kind : LuaTokenKind} (h : toUnaryOperator kind ≠ .OpNop) :
    isTriviaToken kind = false := by
  cases kind <;> first | rfl | exact absurd rfl h

theorem solid_of_binary {kind : LuaTokenKind} (h : toBinaryOperator kind ≠ .OpNop) :
    isTriviaToken kind = false := by
  cases kind <;> first | rfl | exact absurd rfl h

/-- Without the blanks it is the tree of nodes and tokens. -/
theorem bare_full {e : OpExpr} (he : e.Allowed) : e.full.bare = [e.green] := by
  induction e with
  | atom token =>
    rw [OpExpr.full, Green.bare, (atomKind_cases token.kind).2.2.1,
      bareAll_leaves (solid_of_atom he)]
    rfl
  | paren left inner right ih =>
    rw [OpExpr.full, Green.bare, bareAll_append, Green.bareAll, ih he.2.1,
      bareAll_leaves (by rw [he.1]; rfl), bareAll_leaves (by rw [he.2.2]; rfl)]
    rfl
  | unary op operand ih =>
    rw [OpExpr.full, Green.bare, bareAll_append, Green.bareAll, ih he.2.1,
      bareAll_leaves (solid_of_unary he.1)]
    rfl
  | binary left op right ihl ihr =>
    rw [OpExpr.full, Green.bare, Green.bareAll, bareAll_append, Green.bareAll, ihl he.2.1,
      ihr he.2.2.1, bareAll_leaves (solid_of_binary he.1)]
    rfl

/-! ## §5. The rule -/

/-- What may stand behind an expression: nothing that goes on with it. -/
structure Ends (rest : List LuaTokenData) : Prop where
  noTrivia : isTriviaKind (nextKind rest) = false
  noSuffix : isSuffixStart (nextKind rest) = false
  noOperator : toBinaryOperator (nextKind rest) = .OpNop

section

variable (doc : DocParser) (turns depth : Nat)

/-- `parse_sub_expr` makes a tree of the tokens up to `rest`; blanks aside it is `g`. -/
def Parses (p : LuaParser) (rest : List LuaTokenData) (g : Green) : Prop :=
  ∃ cm q, ∃ tree : Green,
    (rules doc turns (depth + 1)).subExpr 0 p = .ok (.ok cm, q) ∧ q.ahead = rest
    ∧ buildTree q.events = some tree.calls ∧ tree.bare = [.node .Chunk [g]]

variable {doc turns depth} {p : LuaParser} {rest : List LuaTokenData}

/-- The tree of a parse is one tree. -/
theorem Parses.unique {g g' : Green} (h : Parses doc turns depth p rest g)
    (h' : Parses doc turns depth p rest g') : g = g' := by
  obtain ⟨cm, q, tree, hrun, -, hbuild, hbare⟩ := h
  obtain ⟨cm', q', tree', hrun', -, hbuild', hbare'⟩ := h'
  rw [hrun] at hrun'
  cases hrun'
  rw [hbuild] at hbuild'
  have htree : tree = tree' := calls_injective (Option.some.inj hbuild')
  rw [htree, hbare'] at hbare
  cases hbare
  rfl

/-- **The writing of an allowed expression is parsed as that expression.** -/
theorem subExpr_allowed {e : OpExpr} (he : e.Allowed) (hnew : p.events = []) (hready : Ready p)
    (hahead : p.ahead = written e.tokens ++ rest) (hends : Ends rest)
    (hdepth : e.tokens.length ≤ depth) (hturns : e.tokens.length < turns) :
    Parses doc turns depth p rest e.green := by
  have hstop : (toBinaryOperator (nextKind rest)).getPriority.1 = 0 := by rw [hends.noOperator]; rfl
  have hbehind : Behind e rest :=
    ⟨hends.noTrivia, hends.noSuffix, by rw [hstop]; exact e.closes_zero he⟩
  obtain ⟨cm, q, hparsed, hrun⟩ := subExpr_run (spineRuns e he) hdepth hturns (e.opens_zero he)
    hready hahead hbehind (Int.le_of_eq hstop)
  have hevents : q.events = e.events 0 0 := by
    have hate := hparsed.ate.events_eq
    rwa [hnew] at hate
  have hlinks := linksOk_of_steps hnew hparsed.ate.steps
  rw [hevents] at hlinks
  refine ⟨cm, q, chunkOf [e.full], hrun, hparsed.ahead_eq hahead, ?_, ?_⟩
  · rw [hevents]
    exact buildTree_open hlinks
      (bracketing_events hlinks) ⟨coveredNode_seen (covered_full e) true, trivial⟩
      (startsEmpty_full e)
  · rw [(sameBut_chunkOf [e.full]).bare]
    show [Green.node .Chunk (Green.bareAll [e.full])] = _
    rw [Green.bareAll, bare_full he]
    rfl

/-- The writing of a tree is parsed as that tree, whatever the parentheses. -/
theorem subExpr_written {lexemes : List Lexeme} {t : OpTree} (ht : t.Proper)
    (hprint : lexemes.map (·.kind) = t.print) (hnew : p.events = []) (hready : Ready p)
    (hahead : p.ahead = written lexemes ++ rest) (hends : Ends rest)
    (hdepth : lexemes.length ≤ depth) (hturns : lexemes.length < turns) :
    ∃ g, Parses doc turns depth p rest g ∧ readTree g = some t := by
  obtain ⟨e, he, rfl, rfl, -⟩ := exists_written t ht lexemes hprint
  exact ⟨e.green, subExpr_allowed he hnew hready hahead hends hdepth hturns, readTree_green he⟩

/-- An alternating sequence is parsed in the only allowed way. -/
theorem subExpr_alternating {lexemes : List Lexeme} (hlexemes : Alternating lexemes)
    (hnew : p.events = []) (hready : Ready p) (hahead : p.ahead = written lexemes ++ rest)
    (hends : Ends rest) (hdepth : lexemes.length ≤ depth) (hturns : lexemes.length < turns) :
    ∃ e : OpExpr, (e.Allowed ∧ e.tokens = lexemes)
      ∧ (∀ e' : OpExpr, e'.Allowed ∧ e'.tokens = lexemes → e' = e)
      ∧ Parses doc turns depth p rest e.green := by
  have hparses : ∀ e : OpExpr, e.Allowed ∧ e.tokens = lexemes →
      Parses doc turns depth p rest e.green := by
    rintro e ⟨he, rfl⟩
    exact subExpr_allowed he hnew hready hahead hends hdepth hturns
  obtain ⟨e, he⟩ := exists_allowed hlexemes
  refine ⟨e, he, fun e' he' => ?_, hparses e he⟩
  exact green_injective e' e ((hparses e' he').unique (hparses e he)) (he'.2.trans he.2.symm)

/-! ## §6. Lua's precedence -/

/-- **While the stack lasts, `parse_sub_expr` has Lua's precedence**: every tree, written with
    the parentheses it needs, is read back, and every alternation of operands and operators is
    parsed in the only way that precedence and associativity allow. -/
theorem subExpr_precedence (doc : DocParser) (turns depth : Nat) (p : LuaParser)
    (lexemes : List Lexeme) (rest : List LuaTokenData) (hnew : p.events = []) (hready : Ready p)
    (hahead : p.ahead = written lexemes ++ rest) (hends : Ends rest)
    (hdepth : lexemes.length ≤ depth) (hturns : lexemes.length < turns) :
    (∀ t : OpTree, t.Proper → lexemes.map (·.kind) = t.print →
        ∃ g, Parses doc turns depth p rest g ∧ readTree g = some t)
      ∧ (Alternating lexemes → ∃ e : OpExpr, (e.Allowed ∧ e.tokens = lexemes)
          ∧ (∀ e' : OpExpr, e'.Allowed ∧ e'.tokens = lexemes → e' = e)
          ∧ Parses doc turns depth p rest e.green) :=
  ⟨fun _ ht hprint => subExpr_written ht hprint hnew hready hahead hends hdepth hturns,
    fun hlexemes => subExpr_alternating hlexemes hnew hready hahead hends hdepth hturns⟩

end

/-- A token of one letter, with a blank behind it or none. -/
def letterAt (kind : LuaTokenKind) (start : Nat) : Bool → Lexeme
  | true => ⟨⟨kind, ⟨start, 1⟩⟩, [⟨.TkWhitespace, ⟨start + 1, 1⟩⟩], by simp [isWhitespaceToken]⟩
  | false => ⟨⟨kind, ⟨start, 1⟩⟩, [], by simp⟩

/-- `a + -b^c` -/
def sumTokens : List Lexeme :=
  [letterAt .TkName 0 true, letterAt .TkPlus 2 true, letterAt .TkMinus 4 false,
    letterAt .TkName 5 false, letterAt .TkPow 6 false, letterAt .TkName 7 false]

/-- A parser in front of these tokens. -/
def sumParser (exhausted : Nat → Bool) : LuaParser :=
  { LuaParser.new "a + -b^c".toList (written sumTokens) ⟨.Lua51, fun _ => none, false⟩ []
      exhausted with currentToken := .TkName }

/-- A power binds tighter than the sign in front of it. -/
theorem subExpr_precedence_power : ∃ g,
    Parses (fun _ => pure ()) 7 6 (sumParser fun _ => false) [] g
      ∧ readTree g = some (.binary .OpAdd (.atom .TkName)
        (.unary .OpUnm (.binary .OpPow (.atom .TkName) (.atom .TkName)))) :=
  (subExpr_precedence (fun _ => pure ()) 7 6 (sumParser fun _ => false) sumTokens [] rfl
    ⟨rfl, by decide, fun _ => rfl⟩ rfl ⟨rfl, rfl, rfl⟩ (by decide) (by decide)).1
    (.binary .OpAdd (.atom .TkName)
      (.unary .OpUnm (.binary .OpPow (.atom .TkName) (.atom .TkName))))
    (by simp [OpTree.Proper, isAtom]) (by decide)

/-- Where a check of the stack fails, even a name is an error. -/
theorem subExpr_stack_exhausted :
    ¬ ∀ (doc : DocParser) (turns depth : Nat) (p : LuaParser) (lexemes : List Lexeme)
      (rest : List LuaTokenData) (t : OpTree), p.events = [] → p.currentToken = nextKind p.ahead →
      (∀ token ∈ p.tokens, inText p.text token.range = true) →
      p.ahead = written lexemes ++ rest → Ends rest → lexemes.length ≤ depth →
      lexemes.length < turns → t.Proper → lexemes.map (·.kind) = t.print →
      ∃ g, Parses doc turns depth p rest g ∧ readTree g = some t := by
  intro h
  obtain ⟨g, ⟨cm, q, tree, hrun, -⟩, -⟩ := h (fun _ => pure ()) 7 6 (sumParser fun _ => true)
    sumTokens [] (.binary .OpAdd (.atom .TkName)
      (.unary .OpUnm (.binary .OpPow (.atom .TkName) (.atom .TkName)))) rfl rfl (by decide) rfl
    ⟨rfl, rfl, rfl⟩ (by decide) (by decide) (by simp [OpTree.Proper, isAtom]) (by decide)
  cases hrun

end GluaLs.Syntax
