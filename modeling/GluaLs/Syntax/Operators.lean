/-
  GluaLs.Syntax.Operators — operator expressions and what Lua's precedence allows.

  The levels are those of Lua's reference manual; where two operators of one level meet, the
  associativity decides.  An expression as written (`OpExpr`) is `Allowed` when every operand
  that is no operand by itself binds tighter than the operator it stands at.  Main results:

    • every alternation of operands and operators is the writing of an allowed expression
      (`exists_allowed`): the operators are attached one by one on the right,
    • a tree is written with parentheses where its operands do not fit (`exists_written`).
-/
import GluaLs.Syntax.GrammarExpr
import GluaLs.Syntax.GreenBuilder

namespace GluaLs.Syntax

/-! ## §1. Lua's table -/

/-- How tightly a binary operator binds; 11 is left to the unary operators. -/
def BinaryOperator.level : BinaryOperator → Nat
  | .OpOr => 1
  | .OpAnd => 2
  | .OpLt | .OpLe | .OpGt | .OpGe | .OpEq | .OpNe => 3
  | .OpBOr => 4
  | .OpBXor => 5
  | .OpBAnd => 6
  | .OpShl | .OpShr => 7
  | .OpConcat => 8
  | .OpAdd | .OpSub => 9
  | .OpMul | .OpDiv | .OpIDiv | .OpMod => 10
  | .OpPow => 12
  | .OpNop => 0

def unaryLevel : Nat := 11

def BinaryOperator.rightAssoc : BinaryOperator → Bool
  | .OpConcat | .OpPow => true
  | _ => false

/-- What stands at the root of an expression. -/
inductive Head where
  | operand
  | unary
  | binary (op : BinaryOperator)

/-- An expression may stand on the left of `op` without parentheses. -/
def leftFits (op : BinaryOperator) : Head → Prop
  | .operand => True
  | .unary => op.level < unaryLevel
  | .binary o => op.level < o.level ∨ (op.level = o.level ∧ op.rightAssoc = false)

/-- And on its right; what begins with a unary operator always may. -/
def rightFits (op : BinaryOperator) : Head → Prop
  | .operand => True
  | .unary => True
  | .binary o => op.level < o.level ∨ (op.level = o.level ∧ op.rightAssoc = true)

/-- And behind a unary operator. -/
def unaryFits : Head → Prop
  | .operand => True
  | .unary => True
  | .binary o => unaryLevel < o.level

instance (op : BinaryOperator) : (head : Head) → Decidable (leftFits op head)
  | .operand => .isTrue trivial
  | .unary => inferInstanceAs (Decidable (op.level < unaryLevel))
  | .binary o => inferInstanceAs
      (Decidable (op.level < o.level ∨ (op.level = o.level ∧ op.rightAssoc = false)))

instance (op : BinaryOperator) : (head : Head) → Decidable (rightFits op head)
  | .operand => .isTrue trivial
  | .unary => .isTrue trivial
  | .binary o => inferInstanceAs
      (Decidable (op.level < o.level ∨ (op.level = o.level ∧ op.rightAssoc = true)))

instance : (head : Head) → Decidable (unaryFits head)
  | .operand => .isTrue trivial
  | .unary => .isTrue trivial
  | .binary o => inferInstanceAs (Decidable (unaryLevel < o.level))

/-- **The priorities of the source are Lua's levels**: the left and the right one follow from
    the level, and so does the associativity. -/
theorem priority_of_level (op : BinaryOperator) :
    (op.level ≤ 7 ∧ op.getPriority.1 = op.level ∧ op.getPriority.2 = op.level
        ∧ op.rightAssoc = false) ∨ (op.level = 8 ∧ op.getPriority = (9, 8) ∧ op.rightAssoc = true)
      ∨ (op.level = 9 ∧ op.getPriority = (10, 10) ∧ op.rightAssoc = false)
      ∨ (op.level = 10 ∧ op.getPriority = (11, 11) ∧ op.rightAssoc = false)
      ∨ (op.level = 12 ∧ op.getPriority = (14, 13) ∧ op.rightAssoc = true) := by
  cases op <;> simp [BinaryOperator.level, BinaryOperator.getPriority, BinaryOperator.rightAssoc]

theorem level_pos {op : BinaryOperator} (hop : op ≠ .OpNop) : 0 < op.level := by
  cases op <;> first | exact absurd rfl hop | decide

/-- Operators of one level associate alike. -/
theorem rightAssoc_of_level {o op : BinaryOperator} (hlevel : o.level = op.level) :
    o.rightAssoc = op.rightAssoc := by
  rcases priority_of_level o with ho | ho | ho | ho | ho <;>
    rcases priority_of_level op with hop | hop | hop | hop | hop <;>
      first | omega | exact ho.2.2.2.trans hop.2.2.2.symm | exact ho.2.2.trans hop.2.2.symm

/-! ## §2. Expressions as they are written -/

/-- A token and the blanks and line breaks behind it. -/
structure Lexeme extends LuaTokenData where
  blanks : List LuaTokenData
  isBlank : ∀ token ∈ blanks, isWhitespaceToken token.kind = true

/-- The tokens of the text. -/
def Lexeme.written (lexeme : Lexeme) : List LuaTokenData :=
  lexeme.toLuaTokenData :: lexeme.blanks

def written (lexemes : List Lexeme) : List LuaTokenData := lexemes.flatMap Lexeme.written

@[simp] theorem written_nil : written [] = [] := rfl

@[simp] theorem written_cons (lexeme : Lexeme) (lexemes : List Lexeme) :
    written (lexeme :: lexemes) = lexeme.written ++ written lexemes := rfl

@[simp] theorem written_append (lexemes lexemes' : List Lexeme) :
    written (lexemes ++ lexemes') = written lexemes ++ written lexemes' := List.flatMap_append

/-- An operand of one token. -/
def isAtom : LuaTokenKind → Bool
  | .TkInt | .TkFloat | .TkComplex | .TkNil | .TkTrue | .TkFalse | .TkDots | .TkString
  | .TkLongString | .TkName => true
  | _ => false

/-- An operator expression, with the parentheses it is written with. -/
inductive OpExpr where
  | atom (token : Lexeme)
  | paren (left : Lexeme) (inner : OpExpr) (right : Lexeme)
  | unary (op : Lexeme) (operand : OpExpr)
  | binary (left : OpExpr) (op : Lexeme) (right : OpExpr)

namespace OpExpr

def tokens : OpExpr → List Lexeme
  | atom token => [token]
  | paren left inner right => left :: (inner.tokens ++ [right])
  | unary op operand => op :: operand.tokens
  | binary left op right => left.tokens ++ op :: right.tokens

def head : OpExpr → Head
  | atom _ => .operand
  | paren _ _ _ => .operand
  | unary _ _ => .unary
  | binary _ op _ => .binary (toBinaryOperator op.kind)

/-- The tokens are what they stand for, and every operand fits where it is. -/
def Allowed : OpExpr → Prop
  | atom token => isAtom token.kind = true
  | paren left inner right => left.kind = .TkLeftParen ∧ inner.Allowed ∧ right.kind = .TkRightParen
  | unary op operand =>
    toUnaryOperator op.kind ≠ .OpNop ∧ operand.Allowed ∧ unaryFits operand.head
  | binary left op right =>
    toBinaryOperator op.kind ≠ .OpNop ∧ left.Allowed ∧ right.Allowed
      ∧ leftFits (toBinaryOperator op.kind) left.head
      ∧ rightFits (toBinaryOperator op.kind) right.head

theorem written_atom (token : Lexeme) : written (atom token).tokens = token.written :=
  List.append_nil _

theorem written_paren (left : Lexeme) (inner : OpExpr) (right : Lexeme) :
    written (paren left inner right).tokens
      = left.written ++ (written inner.tokens ++ right.written) := by
  simp [tokens]

theorem written_unary (op : Lexeme) (operand : OpExpr) :
    written (unary op operand).tokens = op.written ++ written operand.tokens := rfl

theorem written_binary (left : OpExpr) (op : Lexeme) (right : OpExpr) :
    written (binary left op right).tokens
      = written left.tokens ++ (op.written ++ written right.tokens) := by
  simp [tokens]

end OpExpr

mutual

/-- An operand: unary operators in front of an atom or of a sequence in parentheses. -/
inductive Operand : List Lexeme → Prop where
  | atom (token : Lexeme) (htoken : isAtom token.kind = true) : Operand [token]
  | paren (left right : Lexeme) {tokens : List Lexeme}
      (hleft : left.kind = .TkLeftParen) (hinner : Alternating tokens)
      (hright : right.kind = .TkRightParen) : Operand (left :: (tokens ++ [right]))
  | unary (op : Lexeme) {tokens : List Lexeme}
      (hop : toUnaryOperator op.kind ≠ .OpNop) (hrest : Operand tokens) : Operand (op :: tokens)

/-- A sequence in which operands and binary operators alternate. -/
inductive Alternating : List Lexeme → Prop where
  | operand {tokens : List Lexeme} (h : Operand tokens) : Alternating tokens
  | step {tokens tokens' : List Lexeme} (op : Lexeme) (hfront : Alternating tokens)
      (hop : toBinaryOperator op.kind ≠ .OpNop) (hlast : Operand tokens') :
      Alternating (tokens ++ op :: tokens')

end

/-! ## §3. Attaching an operator -/

namespace OpExpr

/-- Puts an operator and an operand behind an expression, as deep on its right as it binds. -/
def attach : OpExpr → Lexeme → OpExpr → OpExpr
  | atom token, op, x => binary (atom token) op x
  | paren left inner right, op, x => binary (paren left inner right) op x
  | unary u operand, op, x =>
    if leftFits (toBinaryOperator op.kind) .unary then binary (unary u operand) op x
    else unary u (operand.attach op x)
  | binary left o right, op, x =>
    if leftFits (toBinaryOperator op.kind) (.binary (toBinaryOperator o.kind)) then
      binary (binary left o right) op x
    else binary left o (right.attach op x)

variable {op : Lexeme} {x : OpExpr}

theorem tokens_attach (e : OpExpr) : (e.attach op x).tokens = e.tokens ++ op :: x.tokens := by
  induction e with
  | atom token => rfl
  | paren left inner right _ => rfl
  | unary u operand ih =>
    unfold attach
    split
    · rfl
    · rw [tokens, ih]
      rfl
  | binary left o right _ ih =>
    unfold attach
    split
    · rfl
    · rw [tokens, ih, tokens, List.append_assoc]
      rfl

/-- The root stays, or the operator comes to stand there. -/
theorem head_attach (e : OpExpr) (op : Lexeme) (x : OpExpr) :
    (e.attach op x).head = e.head ∨ (e.attach op x).head = .binary (toBinaryOperator op.kind) := by
  cases e with
  | atom token => exact .inr rfl
  | paren left inner right => exact .inr rfl
  | unary u operand | binary left o right =>
    unfold attach
    split
    · exact .inr rfl
    · exact .inl rfl

/-- **What is allowed stays allowed** when an operator and an operand are attached. -/
theorem allowed_attach (hop : toBinaryOperator op.kind ≠ .OpNop) (hx : x.Allowed)
    (hxhead : rightFits (toBinaryOperator op.kind) x.head) (e : OpExpr) (he : e.Allowed) :
    (e.attach op x).Allowed := by
  induction e with
  | atom token => exact ⟨hop, he, hx, trivial, hxhead⟩
  | paren left inner right _ => exact ⟨hop, he, hx, trivial, hxhead⟩
  | unary u operand ih =>
    unfold attach
    split
    · next hfits => exact ⟨hop, he, hx, hfits, hxhead⟩
    · next hnot =>
        refine ⟨he.1, ih he.2.1, ?_⟩
        rcases operand.head_attach op x with hhead | hhead
        · rw [hhead]
          exact he.2.2
        · -- the operator binds tighter than a unary one
          rw [hhead]
          show unaryLevel < _
          have hlevel : ¬ (toBinaryOperator op.kind).level < unaryLevel := hnot
          rcases priority_of_level (toBinaryOperator op.kind) with h | h | h | h | h <;>
            simp only [unaryLevel] at hlevel ⊢ <;> omega
  | binary left o right _ ih =>
    unfold attach
    split
    · next hfits => exact ⟨hop, he, hx, hfits, hxhead⟩
    · next hnot =>
        obtain ⟨ho, hleft, hright, hleftFits, hrightFits⟩ := he
        refine ⟨ho, hleft, ih hright, hleftFits, ?_⟩
        rcases right.head_attach op x with hhead | hhead
        · rw [hhead]
          exact hrightFits
        · rw [hhead]
          show _ ∨ _
          rcases Nat.lt_trichotomy (toBinaryOperator op.kind).level
            (toBinaryOperator o.kind).level with hlt | heq | hgt
          · exact absurd (.inl hlt) hnot
          · have hassoc := rightAssoc_of_level heq
            cases hright : (toBinaryOperator op.kind).rightAssoc with
            | true => exact .inr ⟨heq.symm, hassoc.symm.trans hright⟩
            | false => exact absurd (.inr ⟨heq, hright⟩) hnot
          · exact .inl hgt

end OpExpr

mutual

theorem exists_operand : ∀ {tokens : List Lexeme}, Operand tokens →
    ∃ e : OpExpr, e.Allowed ∧ e.tokens = tokens ∧ unaryFits e.head ∧ ∀ op, rightFits op e.head
  | _, .atom token htoken => ⟨.atom token, htoken, rfl, trivial, fun _ => trivial⟩
  | _, .paren left right hleft hinner hright =>
    have ⟨e, he, htokens⟩ := exists_allowed hinner
    ⟨.paren left e right, ⟨hleft, he, hright⟩, by rw [OpExpr.tokens, htokens], trivial,
      fun _ => trivial⟩
  | _, .unary op hop hrest =>
    have ⟨e, he, htokens, hfits, _⟩ := exists_operand hrest
    ⟨.unary op e, ⟨hop, he, hfits⟩, by rw [OpExpr.tokens, htokens], trivial, fun _ => trivial⟩

/-- **Every alternating sequence is the writing of an allowed expression.** -/
theorem exists_allowed : ∀ {tokens : List Lexeme}, Alternating tokens →
    ∃ e : OpExpr, e.Allowed ∧ e.tokens = tokens
  | _, .operand h =>
    have ⟨e, he, htokens, _⟩ := exists_operand h
    ⟨e, he, htokens⟩
  | _, .step op hfront hop hlast =>
    have ⟨e, he, htokens⟩ := exists_allowed hfront
    have ⟨x, hx, hxtokens, _, hxhead⟩ := exists_operand hlast
    ⟨e.attach op x, OpExpr.allowed_attach hop hx (hxhead _) e he, by
      rw [OpExpr.tokens_attach, htokens, hxtokens]⟩

end

/-! ## §4. Writing a tree -/

/-- An operator-expression tree.  The C-style spellings of `and`, `or`, `not` and `~=` have no
    tokens of their own: the lexer gives them the kinds of the others (`lexLogic`,
    `lexExclamation`). -/
inductive OpTree where
  | atom (kind : LuaTokenKind)
  | unary (op : UnaryOperator) (operand : OpTree)
  | binary (op : BinaryOperator) (left right : OpTree)
  deriving DecidableEq

def UnaryOperator.token : UnaryOperator → LuaTokenKind
  | .OpNot => .TkNot
  | .OpLen => .TkLen
  | .OpUnm => .TkMinus
  | .OpBNot => .TkBitXor
  | .OpNop => .None

def BinaryOperator.token : BinaryOperator → LuaTokenKind
  | .OpAdd => .TkPlus
  | .OpSub => .TkMinus
  | .OpMul => .TkMul
  | .OpMod => .TkMod
  | .OpPow => .TkPow
  | .OpDiv => .TkDiv
  | .OpIDiv => .TkIDiv
  | .OpBAnd => .TkBitAnd
  | .OpBOr => .TkBitOr
  | .OpBXor => .TkBitXor
  | .OpShl => .TkShl
  | .OpShr => .TkShr
  | .OpConcat => .TkConcat
  | .OpLt => .TkLt
  | .OpLe => .TkLe
  | .OpGt => .TkGt
  | .OpGe => .TkGe
  | .OpEq => .TkEq
  | .OpNe => .TkNe
  | .OpAnd => .TkAnd
  | .OpOr => .TkOr
  | .OpNop => .None

@[simp] theorem toUnaryOperator_token (op : UnaryOperator) : toUnaryOperator op.token = op := by
  cases op <;> rfl

@[simp] theorem toBinaryOperator_token (op : BinaryOperator) : toBinaryOperator op.token = op := by
  cases op <;> rfl

/-- An operand in parentheses where it does not fit. -/
def wrap (fits : Prop) [Decidable fits] (kinds : List LuaTokenKind) : List LuaTokenKind :=
  if fits then kinds else .TkLeftParen :: (kinds ++ [.TkRightParen])

namespace OpTree

def head : OpTree → Head
  | atom _ => .operand
  | unary _ _ => .unary
  | binary op _ _ => .binary op

/-- The atoms are atoms and the operators are operators. -/
def Proper : OpTree → Prop
  | atom kind => isAtom kind = true
  | unary op operand => op ≠ .OpNop ∧ operand.Proper
  | binary op left right => op ≠ .OpNop ∧ left.Proper ∧ right.Proper

/-- The tokens of a tree, with parentheses where Lua's precedence asks for them. -/
def print : OpTree → List LuaTokenKind
  | atom kind => [kind]
  | unary op operand => op.token :: wrap (unaryFits operand.head) operand.print
  | binary op left right =>
    wrap (leftFits op left.head) left.print
      ++ op.token :: wrap (rightFits op right.head) right.print

end OpTree

namespace OpExpr

/-- The tree of an expression; parentheses leave no trace. -/
def tree : OpExpr → OpTree
  | atom token => .atom token.kind
  | paren _ inner _ => inner.tree
  | unary op operand => .unary (toUnaryOperator op.kind) operand.tree
  | binary left op right => .binary (toBinaryOperator op.kind) left.tree right.tree

end OpExpr

/-- An operand that was written as `wrap` says is an expression that fits. -/
theorem exists_wrapped {P : Head → Prop} [∀ head, Decidable (P head)]
    (hoperand : P .operand) {t : OpTree} {tokens : List Lexeme}
    (hkinds : tokens.map (·.kind) = wrap (P t.head) t.print)
    (hwritten : ∀ tokens : List Lexeme, tokens.map (·.kind) = t.print →
      ∃ e : OpExpr, e.Allowed ∧ e.tokens = tokens ∧ e.tree = t ∧ e.head = t.head) :
    ∃ e : OpExpr, e.Allowed ∧ e.tokens = tokens ∧ e.tree = t ∧ P e.head := by
  unfold wrap at hkinds
  split at hkinds
  · next hfits =>
      obtain ⟨e, he, htokens, htree, hhead⟩ := hwritten tokens hkinds
      exact ⟨e, he, htokens, htree, hhead ▸ hfits⟩
  · obtain ⟨left, rest, rfl, hleft, hrest⟩ := List.map_eq_cons_iff.1 hkinds
    obtain ⟨inner, last, rfl, hinner, hlast⟩ := List.map_eq_append_iff.1 hrest
    obtain ⟨right, rfl, hright⟩ := List.map_eq_singleton_iff.1 hlast
    obtain ⟨e, he, htokens, htree, -⟩ := hwritten inner hinner
    exact ⟨.paren left e right, ⟨hleft, he, hright⟩, by rw [OpExpr.tokens, htokens], htree,
      hoperand⟩

/-- **The tokens a tree is printed as are the writing of an allowed expression with that
    tree.** -/
theorem exists_written (t : OpTree) (ht : t.Proper) : ∀ tokens : List Lexeme,
    tokens.map (·.kind) = t.print →
    ∃ e : OpExpr, e.Allowed ∧ e.tokens = tokens ∧ e.tree = t ∧ e.head = t.head := by
  induction t with
  | atom kind =>
    intro tokens hkinds
    obtain ⟨token, rfl, rfl⟩ := List.map_eq_singleton_iff.1 hkinds
    exact ⟨.atom token, ht, rfl, rfl, rfl⟩
  | unary op operand ih =>
    intro tokens hkinds
    obtain ⟨token, rest, rfl, htoken, hrest⟩ := List.map_eq_cons_iff.1 hkinds
    obtain ⟨e, he, rfl, rfl, hfits⟩ := exists_wrapped trivial hrest (ih ht.2)
    have hop : toUnaryOperator token.kind = op := by rw [htoken, toUnaryOperator_token]
    exact ⟨.unary token e, ⟨hop ▸ ht.1, he, hfits⟩, rfl, by rw [OpExpr.tree, hop], rfl⟩
  | binary op left right ihLeft ihRight =>
    intro tokens hkinds
    obtain ⟨front, rest, rfl, hfront, hrest⟩ := List.map_eq_append_iff.1 hkinds
    obtain ⟨token, back, rfl, htoken, hback⟩ := List.map_eq_cons_iff.1 hrest
    obtain ⟨l, hl, rfl, rfl, hlFits⟩ :=
      exists_wrapped (P := leftFits op) trivial hfront (ihLeft ht.2.1)
    obtain ⟨r, hr, rfl, rfl, hrFits⟩ :=
      exists_wrapped (P := rightFits op) trivial hback (ihRight ht.2.2)
    have hop : toBinaryOperator token.kind = op := by rw [htoken, toBinaryOperator_token]
    refine ⟨.binary l token r, ⟨hop ▸ ht.1, hl, hr, hop ▸ hlFits, hop ▸ hrFits⟩, rfl, ?_, ?_⟩
    · rw [OpExpr.tree, hop]
    · rw [OpExpr.head, hop]
      rfl

end GluaLs.Syntax
