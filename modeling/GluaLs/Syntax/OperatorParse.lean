/-
  GluaLs.Syntax.OperatorParse — what `parse_sub_expr` does on an allowed expression.

  `OpExpr.events` are the events of an expression.  The rule goes down the left side of the
  expression first and then takes its operators one by one (`spineRuns`): each of them is above
  the limit (`Opens`), and the operand behind it stops where the next one begins (`Closes`).
-/
import GluaLs.Syntax.OperatorEvents

namespace GluaLs.Syntax

open GluaLs.Lib Relation OpExpr

/-! ## §1. The events of an expression -/

/-- The node of an atom. -/
def atomKind (token : LuaTokenKind) : LuaSyntaxKind :=
  if token = .TkName then .NameExpr else .LiteralExpr

namespace OpExpr

/-- The node at the root. -/
def kind : OpExpr → LuaSyntaxKind
  | atom token => atomKind token.kind
  | paren _ _ _ => .ParenExpr
  | unary _ _ => .UnaryExpr
  | binary _ _ _ => .BinaryExpr

/-- How many events there are. -/
def size : OpExpr → Nat
  | atom token => token.written.length + 2
  | paren left inner right => left.written.length + inner.size + right.written.length + 2
  | unary op operand => op.written.length + operand.size + 2
  | binary left op right => left.size + op.written.length + right.size + 3

/-- Where the node starts in a list of events from `base` on. -/
def startPos (base : Nat) : OpExpr → Nat
  | atom _ => base
  | paren _ _ _ => base
  | unary _ _ => base
  | binary left _ _ => base + left.size

/-- The events, from the position `base` on; the root is linked to `link`. -/
def events : OpExpr → Nat → Nat → List MarkEvent
  | atom token, _, link => .NodeStart (atomKind token.kind) link :: (eaten token ++ [.NodeEnd])
  | paren left inner right, base, link =>
    .NodeStart .ParenExpr link :: (eaten left
      ++ inner.events (base + 1 + left.written.length) 0 ++ eaten right ++ [.NodeEnd])
  | unary op operand, base, link =>
    .NodeStart .UnaryExpr link :: (eaten op
      ++ operand.events (base + 1 + op.written.length) 0 ++ [.NodeEnd])
  | binary left op right, base, link =>
    left.events base (base + left.size) ++ .NodeStart .BinaryExpr link :: .Trivia ::
      (eaten op ++ right.events (base + left.size + 2 + op.written.length) 0 ++ [.NodeEnd])

@[simp] theorem length_eaten (lexeme : Lexeme) :
    (eaten lexeme).length = lexeme.written.length := List.length_map _

@[simp] theorem length_events (e : OpExpr) : ∀ base link, (e.events base link).length = e.size := by
  induction e with
  | atom token =>
    intro _ _
    simp [events, size]
  | paren left inner right ih | unary op operand ih =>
    intro _ _
    simp [events, size, ih]
    omega
  | binary left op right ihl ihr =>
    intro _ _
    simp [events, size, ihl, ihr]
    omega

/-- Where the root starts, linked to `link`. -/
theorem getElem?_startPos (e : OpExpr) (front : List MarkEvent) (link : Nat) :
    (front ++ e.events front.length link)[e.startPos front.length]?
      = some (.NodeStart e.kind link) := by
  cases e with
  | binary left op right =>
    rw [events, ← List.append_assoc, startPos, List.getElem?_append_right (by simp)]
    simp [kind]
  | _ => simp [events, startPos, kind]

/-- The root linked anew. -/
theorem set_startPos (e : OpExpr) (front : List MarkEvent) (link link' : Nat) :
    (front ++ e.events front.length link).set (e.startPos front.length) (.NodeStart e.kind link')
      = front ++ e.events front.length link' := by
  cases e with
  | binary left op right =>
    rw [events, ← List.append_assoc, startPos, List.set_append_right _ _ (by simp)]
    simp [kind, events]
  | _ => simp [events, startPos, kind, List.set_append_right]

/-! ## §2. Where an expression begins and ends -/

/-- The operators down the left side are above the limit. -/
def Opens (limit : Int) : OpExpr → Prop
  | binary left op _ => limit < (toBinaryOperator op.kind).getPriority.1 ∧ left.Opens limit
  | _ => True

/-- An operator of this priority does not go into an operand on the right side. -/
def Closes (priority : Int) : OpExpr → Prop
  | unary _ operand => priority ≤ UNARY_PRIORITY ∧ operand.Closes priority
  | binary _ op right =>
    priority ≤ (toBinaryOperator op.kind).getPriority.2 ∧ right.Closes priority
  | _ => True

/-- How many operators the left side has. -/
def spine : OpExpr → Nat
  | binary left _ _ => left.spine + 1
  | _ => 0

theorem spine_lt (e : OpExpr) : e.spine < e.tokens.length := by
  induction e with
  | binary left op right ih _ =>
    simp only [spine, tokens, List.length_append, List.length_cons]
    omega
  | _ => simp [spine, tokens]

section

variable (e : OpExpr) (he : e.Allowed)
include he

/-- Binary operators down the left side bind no looser than the root. -/
theorem opens_of_level {limit : Int}
    (hroot : ∀ op, e.head = .binary op → limit < op.getPriority.1) : e.Opens limit := by
  induction e with
  | binary left op right ih _ =>
    obtain ⟨hop, hleft, -, hfits, -⟩ := he
    have hhere := hroot _ rfl
    refine ⟨hhere, ih hleft ?_⟩
    intro o ho
    rw [ho] at hfits
    have hlevel : (toBinaryOperator op.kind).level ≤ o.level := by
      rcases hfits with h | h <;> omega
    rcases priority_of_level (toBinaryOperator op.kind) with h | h | h | h | h <;>
      rcases priority_of_level o with h' | h' | h' | h' | h' <;>
        simp only [h, h'] at hhere ⊢ <;> omega
  | _ => trivial

/-- An operator in front of which an expression fits does not go into it. -/
theorem closes_of_fits {op : BinaryOperator}
    (hfits : leftFits op e.head) : e.Closes op.getPriority.1 := by
  induction e with
  | unary u operand ih =>
    obtain ⟨-, hoperand, hunary⟩ := he
    have hlevel : op.level < unaryLevel := hfits
    refine ⟨?_, ih hoperand ?_⟩
    · rcases priority_of_level op with h | h | h | h | h <;>
        simp only [unaryLevel, UNARY_PRIORITY, h] at hlevel ⊢ <;> omega
    · cases hhead : operand.head with
      | operand => trivial
      | unary => exact hfits
      | binary o =>
        rw [hhead] at hunary
        exact .inl (Nat.lt_trans hlevel hunary)
  | binary left op' right _ ih =>
    obtain ⟨-, -, hright, -, hrightFits⟩ := he
    have hroot : op.level < (toBinaryOperator op'.kind).level
      ∨ (op.level = (toBinaryOperator op'.kind).level ∧ op.rightAssoc = false) := hfits
    refine ⟨?_, ih hright ?_⟩
    · rcases priority_of_level op with h | h | h | h | h <;>
        rcases priority_of_level (toBinaryOperator op'.kind) with h' | h' | h' | h' | h' <;>
          simp [h, h'] at hroot ⊢ <;> omega
    · cases hhead : right.head with
      | operand => trivial
      | unary =>
        show op.level < unaryLevel
        rcases priority_of_level op with h | h | h | h | h <;>
          rcases priority_of_level (toBinaryOperator op'.kind) with h' | h' | h' | h' | h' <;>
            simp [unaryLevel, h, h'] at hroot ⊢ <;> omega
      | binary o =>
        rw [hhead] at hrightFits
        show _ ∨ _
        rcases hrightFits with hlt | ⟨heq, hassoc⟩
        · rcases hroot with h | ⟨h, -⟩ <;> exact .inl (by omega)
        · rcases hroot with h | ⟨h, hassoc'⟩
          · exact .inl (by omega)
          · rw [rightAssoc_of_level h, hassoc] at hassoc'
            cases hassoc'
  | _ => trivial

/-- Behind the whole no operator comes. -/
theorem closes_zero : e.Closes 0 := by
  have hfits : leftFits .OpNop e.head → e.Closes 0 := e.closes_of_fits he
  apply hfits
  cases hhead : e.head with
  | operand => trivial
  | unary => decide
  | binary o =>
    cases e with
    | binary left op right =>
      cases hhead
      exact .inl (level_pos he.1)
    | _ => cases hhead

theorem opens_zero : e.Opens 0 := by
  apply e.opens_of_level he
  intro op hop
  cases e with
  | binary left token right =>
    cases hop
    have hpos := level_pos he.1
    rcases priority_of_level (toBinaryOperator token.kind) with h | h | h | h | h <;>
      simp only [h] <;> omega
  | _ => cases hop

theorem opens_right {op : BinaryOperator}
    (hfits : rightFits op e.head) : e.Opens op.getPriority.2 := by
  apply e.opens_of_level he
  intro o ho
  rw [ho] at hfits
  have hroot : op.level < o.level ∨ (op.level = o.level ∧ op.rightAssoc = true) := hfits
  rcases priority_of_level op with h | h | h | h | h <;>
    rcases priority_of_level o with h' | h' | h' | h' | h' <;>
      simp [h, h'] at hroot ⊢ <;> omega

theorem opens_unary (hfits : unaryFits e.head) : e.Opens UNARY_PRIORITY := by
  apply e.opens_of_level he
  intro o ho
  rw [ho] at hfits
  have hlevel : unaryLevel < o.level := hfits
  rcases priority_of_level o with h | h | h | h | h <;>
    simp only [unaryLevel, UNARY_PRIORITY, h] at hlevel ⊢ <;> omega

end

end OpExpr

/-! ## §3. Operands -/

/-- A token that goes on with a finished operand. -/
def isSuffixStart : LuaTokenKind → Bool
  | .TkDot | .TkColon | .TkLeftBracket | .TkLeftParen | .TkLongString | .TkString
  | .TkLeftBrace => true
  | _ => false

/-- What is behind an expression does not go on with it. -/
structure Behind (e : OpExpr) (rest : List LuaTokenData) : Prop where
  noTrivia : isTriviaKind (nextKind rest) = false
  noSuffix : isSuffixStart (nextKind rest) = false
  closes : e.Closes (toBinaryOperator (nextKind rest)).getPriority.1

/-- The expression was parsed, from `p` to `q`. -/
structure ParsedAs (p : LuaParser) (e : OpExpr) (cm : CompleteMarker) (q : LuaParser) : Prop where
  cm_eq : cm = ⟨e.startPos p.events.length, e.kind⟩
  ate : Ate p (e.events p.events.length 0) (written e.tokens).length q

section

variable {p q : LuaParser} (R : Rules)

theorem currentToken_run (p : LuaParser) : currentToken p = .ok (p.currentToken, p) := rfl

theorem currentTokenRange_run (p : LuaParser) : currentTokenRange p = .ok (p.currentRange, p) := rfl

theorem onError_run {α : Type} (a : α) (m : Parse Unit) (p : LuaParser) :
    onError (.ok a : Except ParseFailReason α) m p = .ok ((), p) := rfl

theorem ParsedAs.ahead_eq {e : OpExpr} {cm : CompleteMarker} {rest : List LuaTokenData}
    (h : ParsedAs p e cm q) (hahead : p.ahead = written e.tokens ++ rest) : q.ahead = rest := by
  rw [h.ate.ahead_eq, hahead, List.drop_left]

theorem suffixStep_run (hsuffix : isSuffixStart p.currentToken = false) (cm : CompleteMarker) :
    suffixStep R (.ok cm) p = .ok ((false, .ok cm), p) := by
  unfold suffixStep
  dsimp only
  rw [bind_run (currentToken_run p)]
  generalize p.currentToken = token at hsuffix
  cases token <;> first | rfl | cases hsuffix

/-- No suffix follows. -/
theorem suffixes_run (hsuffix : isSuffixStart p.currentToken = false) (cm : CompleteMarker)
    {turns : Nat} (hturns : 0 < turns) :
    loop .outOfTurns (suffixStep R) turns (.ok cm) p = .ok (.ok cm, p) := by
  obtain ⟨n, rfl⟩ : ∃ n, turns = n + 1 := ⟨turns - 1, by omega⟩
  exact loop_last (suffixStep_run R hsuffix cm) n

/-- A node around what `mid` eats. -/
theorem node_run (kind : LuaSyntaxKind) {es : List MarkEvent} {n : Nat}
    (hes : es ≠ []) {m : Marker} {p₁ p₂ : LuaParser} (hmark : mark kind p = .ok (m, p₁))
    (hlevel : p₁.markLevel = p.markLevel + 1) (hopen : Ate p [.NodeStart kind 0] 0 p₁)
    (hinner : Ate p₁ es n p₂) :
    ∃ q, m.complete p₂ = .ok (⟨p.events.length, kind⟩, q)
      ∧ Ate p (.NodeStart kind 0 :: (es ++ [.NodeEnd])) n q := by
  have hm : m = ⟨p.events.length⟩ := by
    cases hmark
    rfl
  have hall := hopen.trans hinner
  have hevents : p₂.events = p.events ++ (.NodeStart kind 0 :: es) := hall.events_eq
  rw [hm]
  have hstart : p₂.events[p.events.length]? = some (.NodeStart kind 0) := by
    rw [hevents, List.getElem?_append_right (Nat.le_refl _), Nat.sub_self]
    rfl
  apply close_run hall.ready hstart
  · have hpos := List.length_pos_of_ne_nil hes
    rw [hevents, List.length_append, List.length_cons]
    omega
  · have hle := hinner.level_le
    omega
  · exact hall.tokens_eq
  · rw [hall.index_eq, Nat.zero_add]
  · rw [hevents, List.append_assoc]
    rfl
  · exact hall.steps

/-- One token in a node of its own. -/
theorem oneToken_run (doc : DocParser) (hready : Ready p) (kind : LuaSyntaxKind)
    {token : Lexeme} {rest : List LuaTokenData} (hahead : p.ahead = token.written ++ rest)
    (htoken : isInvalidKind token.kind = false) (hrest : isTriviaKind (nextKind rest) = false) :
    ∃ m p₁ p₂ q, mark kind p = .ok (m, p₁) ∧ p₁.currentToken = token.kind
      ∧ p₁.tokens = p.tokens ∧ p₁.tokenIndex = p.tokenIndex ∧ Ready p₁
      ∧ bump doc p₁ = .ok ((), p₂) ∧ m.complete p₂ = .ok (⟨p.events.length, kind⟩, q)
      ∧ Ate p (.NodeStart kind 0 :: (eaten token ++ [.NodeEnd])) token.written.length q := by
  obtain ⟨p₁, hmark, hopen, hlevel⟩ := open_run hready kind
  have hahead₁ : p₁.ahead = token.written ++ rest := by rw [hopen.ahead_eq, hahead, List.drop_zero]
  obtain ⟨p₂, hbump, hate, -, -⟩ := eat_run doc hopen.ready hahead₁ htoken hrest
  obtain ⟨q, hclose, hdone⟩ := node_run kind (List.cons_ne_nil _ _) hmark hlevel hopen hate
  exact ⟨_, p₁, p₂, q, hmark, by rw [hopen.ready.current_eq, hahead₁]; rfl, hopen.tokens_eq,
    hopen.index_eq, hopen.ready, hbump, hclose, hdone⟩

theorem isInvalid_of_atom {kind : LuaTokenKind} (h : isAtom kind = true) :
    isInvalidKind kind = false := by
  cases kind <;> first | rfl | cases h

/-- A name that nothing goes on with is a name, also a name of a special function. -/
theorem name_run (hready : Ready p) {token : Lexeme} {rest : List LuaTokenData}
    (hahead : p.ahead = token.written ++ rest) (htoken : token.kind = .TkName)
    (hbehind : Behind (.atom token) rest) :
    ∃ cm q, ParsedAs p (.atom token) cm q ∧ parseNameOrSpecialFunction R p = .ok (.ok cm, q) := by
  have hvalid : isInvalidKind token.kind = false := by rw [htoken]; rfl
  obtain ⟨m, p₁, p₂, q, hmark, hcurrent, htokens, hindex, hready₁, hbump, hclose, hate⟩ :=
    oneToken_run R.doc hready .NameExpr hahead hvalid hbehind.noTrivia
  have hat : p₁.tokens[p₁.tokenIndex]? = some token.toLuaTokenData := by
    rw [htokens, hindex, ← List.head?_drop]
    exact congrArg List.head? hahead
  have htext : ∃ text, currentTokenText p₁ = .ok (text, p₁) := by
    refine ⟨String.ofList (slice p₁.text token.range), ?_⟩
    have hin := hready₁.inText token.toLuaTokenData (List.mem_of_getElem? hat)
    unfold currentTokenText
    rw [bind_run (get_run p₁), bind_run (tokenAt_run hat), if_pos hin]
    rfl
  obtain ⟨text, htext⟩ := htext
  have hkind : atomKind token.kind = .NameExpr := by rw [atomKind, if_pos htoken]
  refine ⟨_, q, ⟨by rw [startPos, kind, hkind], ?_⟩, ?_⟩
  · rw [events, hkind, written_atom]
    exact hate
  · unfold parseNameOrSpecialFunction
    rw [bind_run hmark, bind_run htext, bind_run (get_run p₁),
      bind_run (show R.bump p₁ = _ from hbump), bind_run hclose]
    split
    · rfl
    · have hnext : q.ahead = rest := by rw [hate.ahead_eq, hahead, List.drop_left]
      have hnocall : isCallStart q.currentToken = false := by
        have hsuffix := hbehind.noSuffix
        rw [hate.ready.current_eq, hnext]
        generalize nextKind rest = kind at hsuffix
        cases kind <;> first | rfl | cases hsuffix
      rw [bind_run (currentToken_run q), hnocall]
      rfl

theorem atom_run (hready : Ready p) {token : Lexeme} {rest : List LuaTokenData}
    (hahead : p.ahead = token.written ++ rest) (htoken : isAtom token.kind = true)
    (hbehind : Behind (.atom token) rest) (hturns : 0 < R.turns) :
    ∃ cm q, ParsedAs p (.atom token) cm q ∧ parseSimpleExpr R p = .ok (.ok cm, q) := by
  have hcurrent : p.currentToken = token.kind := by rw [hready.current_eq, hahead]; rfl
  by_cases hname : token.kind = .TkName
  · obtain ⟨cm, q, hparsed, hrun⟩ := name_run R hready hahead hname hbehind
    have hnext : q.ahead = rest := hparsed.ahead_eq (by rw [written_atom, hahead])
    have hsuffix : isSuffixStart q.currentToken = false := by
      rw [hparsed.ate.ready.current_eq, hnext]
      exact hbehind.noSuffix
    refine ⟨cm, q, hparsed, ?_⟩
    unfold parseSimpleExpr
    rw [bind_run (currentToken_run p), hcurrent, hname]
    show parseSuffixedExpr R p = _
    have hprimary : parsePrimaryExpr R p = .ok (.ok cm, q) := by
      unfold parsePrimaryExpr
      rw [bind_run (currentToken_run p), hcurrent, hname]
      exact hrun
    unfold parseSuffixedExpr
    rw [propagate_run hprimary, suffixes_run R hsuffix cm hturns]
  · obtain ⟨m, p₁, p₂, q, hmark, -, -, -, -, hbump, hclose, hate⟩ :=
      oneToken_run R.doc hready .LiteralExpr hahead (isInvalid_of_atom htoken) hbehind.noTrivia
    have hkind : atomKind token.kind = .LiteralExpr := by rw [atomKind, if_neg hname]
    refine ⟨_, q, ⟨by rw [startPos, kind, hkind], ?_⟩, ?_⟩
    · rw [events, hkind, written_atom]
      exact hate
    · have hnode :
          parseTokenNode R .LiteralExpr p = .ok (.ok ⟨p.events.length, .LiteralExpr⟩, q) := by
        unfold parseTokenNode
        rw [bind_run hmark, bind_run (show R.bump p₁ = _ from hbump), bind_run hclose]
        rfl
      unfold parseSimpleExpr
      rw [bind_run (currentToken_run p), hcurrent, ← hnode]
      revert htoken hname
      cases token.kind <;> intro htoken hname <;>
        first | rfl | (cases htoken; done) | exact absurd rfl hname

/-! ## §4. Down the left side -/

/-- The first operand of `parse_sub_expr`. -/
def firstOperand : Parse ParseResult := do
  let token ← currentToken
  if toUnaryOperator token ≠ .OpNop then parseUnaryExpr R else parseSimpleExpr R

/-- The first operand and the loop over the operators behind it. -/
def alongSpine (limit : Int) (turns : Nat) : Parse ParseResult :=
  propagate (firstOperand R) fun cm => loop .outOfTurns (binaryStep R limit) turns (.ok cm)

end

section

variable (doc : DocParser) (turns : Nat)

/-- On the way along the left side of `e` all of `e` is parsed. -/
def SpineRuns (e : OpExpr) : Prop :=
  ∀ (depth : Nat) (limit : Int) (p : LuaParser) (rest : List LuaTokenData) (t : Nat),
    e.tokens.length ≤ depth → e.tokens.length < turns → e.Opens limit → Ready p →
    p.ahead = written e.tokens ++ rest → Behind e rest →
    ∃ cm q, ParsedAs p e cm q ∧ alongSpine (rules doc turns depth) limit (t + e.spine) p
      = loop .outOfTurns (binaryStep (rules doc turns depth) limit) t (.ok cm) q

variable {doc turns}

theorem rules_turns (doc : DocParser) (turns depth : Nat) :
    (rules doc turns depth).turns = turns := by
  cases depth <;> rfl

/-- An operator that is not above the limit ends the loop. -/
theorem binaryStep_stop (R : Rules) {limit : Int} {p : LuaParser}
    (hstop : (toBinaryOperator p.currentToken).getPriority.1 ≤ limit) (cm : CompleteMarker) :
    binaryStep R limit (.ok cm) p = .ok ((false, .ok cm), p) := by
  unfold binaryStep
  dsimp only
  rw [bind_run (currentToken_run p), if_neg]
  · rfl
  · exact fun h => Int.not_lt.2 hstop h.2

/-- **`parse_sub_expr` parses an expression whose operators are above its limit**, up to an
    operator that is not. -/
theorem subExpr_run {e : OpExpr} (hspine : SpineRuns doc turns e) {depth : Nat} {limit : Int}
    {p : LuaParser} {rest : List LuaTokenData} (hdepth : e.tokens.length ≤ depth)
    (hturns : e.tokens.length < turns) (hopens : e.Opens limit) (hready : Ready p)
    (hahead : p.ahead = written e.tokens ++ rest) (hbehind : Behind e rest)
    (hstop : (toBinaryOperator (nextKind rest)).getPriority.1 ≤ limit) :
    ∃ cm q, ParsedAs p e cm q ∧
    (rules doc turns (depth + 1)).subExpr limit p = .ok (.ok cm, q) := by
  obtain ⟨p₀, hcheck, hate₀⟩ := check_run hready
  have hspineLt := e.spine_lt
  obtain ⟨t, ht⟩ : ∃ t, turns = t + 1 + e.spine := ⟨turns - 1 - e.spine, by omega⟩
  have hlength : p₀.events.length = p.events.length := by
    rw [hate₀.events_eq, List.append_nil]
  obtain ⟨cm, q, hparsed, hrun⟩ := hspine depth limit p₀ rest (t + 1) hdepth hturns hopens
    hate₀.ready (by rw [hate₀.ahead_eq, hahead, List.drop_zero]) hbehind
  have hate := hate₀.trans hparsed.ate
  rw [hlength, List.nil_append, Nat.zero_add] at hate
  refine ⟨cm, q, ⟨by rw [hparsed.cm_eq, hlength], hate⟩, ?_⟩
  have hnext : q.ahead = rest :=
    hparsed.ahead_eq (by rw [hate₀.ahead_eq, hahead, List.drop_zero])
  have hcurrent : q.currentToken = nextKind rest := by
    rw [hparsed.ate.ready.current_eq, hnext]
  show parseSubExpr (rules doc turns depth) limit p = _
  unfold parseSubExpr
  rw [bind_run hcheck]
  show alongSpine (rules doc turns depth) limit (rules doc turns depth).turns p₀ = _
  rw [← ht] at hrun
  rw [rules_turns, hrun]
  exact loop_last (binaryStep_stop _ (by rw [hcurrent]; exact hstop) cm) t

theorem spineRuns_atom {token : Lexeme} (he : (atom token).Allowed) :
    SpineRuns doc turns (.atom token) := by
  intro depth limit p rest t _ hturns _ hready hahead hbehind
  rw [written_atom] at hahead
  have hR : 0 < (rules doc turns depth).turns := by
    rw [rules_turns]
    exact Nat.lt_of_le_of_lt (Nat.zero_le _) hturns
  obtain ⟨cm, q, hparsed, hrun⟩ := atom_run (rules doc turns depth) hready hahead he hbehind hR
  have hcurrent : p.currentToken = token.kind := by rw [hready.current_eq, hahead]; rfl
  have hnop : toUnaryOperator token.kind = .OpNop := by
    have hatom : isAtom token.kind = true := he
    revert hatom
    cases token.kind <;> intro hatom <;> first | rfl | cases hatom
  have hfirst : firstOperand (rules doc turns depth) p = .ok (.ok cm, q) := by
    unfold firstOperand
    rw [bind_run (currentToken_run p), hcurrent, if_neg (by rw [hnop]; exact fun h => h rfl)]
    exact hrun
  exact ⟨cm, q, hparsed, propagate_run hfirst⟩

theorem isInvalid_of_unary {kind : LuaTokenKind} (h : toUnaryOperator kind ≠ .OpNop) :
    isInvalidKind kind = false := by
  revert h
  cases kind <;> intro h <;> first | rfl | exact absurd rfl h

theorem isInvalid_of_binary {kind : LuaTokenKind} (h : toBinaryOperator kind ≠ .OpNop) :
    isInvalidKind kind = false := by
  revert h
  cases kind <;> intro h <;> first | rfl | exact absurd rfl h

/-- An expression begins with no trivia. -/
theorem noTrivia_tokens {e : OpExpr} (he : e.Allowed) (rest : List LuaTokenData) :
    isTriviaKind (nextKind (written e.tokens ++ rest)) = false := by
  induction e generalizing rest with
  | atom token => exact isTrivia_of_invalid (isInvalid_of_atom he)
  | paren left inner right _ =>
    show isTriviaKind left.kind = false
    rw [he.1]
    rfl
  | unary op operand _ => exact isTrivia_of_invalid (isInvalid_of_unary he.1)
  | binary left op right ih _ =>
    rw [written_binary, List.append_assoc]
    exact ih he.2.1 _

theorem spineRuns_unary {op : Lexeme} {operand : OpExpr}
    (he : (unary op operand).Allowed) (hspine : SpineRuns doc turns operand) :
    SpineRuns doc turns (.unary op operand) := by
  intro depth limit p rest t hdepth hturns _ hready hahead hbehind
  obtain ⟨hop, hoperand, hfits⟩ := he
  simp only [tokens, List.length_cons] at hdepth hturns
  obtain ⟨d, rfl⟩ : ∃ d, depth = d + 1 := ⟨depth - 1, by omega⟩
  have hcurrent : p.currentToken = op.kind := by rw [hready.current_eq, hahead]; rfl
  obtain ⟨p₁, hmark, hopen, hlevel⟩ := open_run hready .UnaryExpr
  have hahead₁ : p₁.ahead = op.written ++ (written operand.tokens ++ rest) := by
    rw [hopen.ahead_eq, hahead, List.drop_zero, written_unary, List.append_assoc]
  obtain ⟨p₂, hbump, hate, hahead₂, -⟩ := eat_run (rules doc turns (d + 1)).doc hopen.ready hahead₁
    (isInvalid_of_unary hop) (noTrivia_tokens hoperand rest)
  have hbehind' : Behind operand rest := ⟨hbehind.noTrivia, hbehind.noSuffix, hbehind.closes.2⟩
  obtain ⟨cm, p₃, hparsed, hsub⟩ := subExpr_run hspine (by omega : operand.tokens.length ≤ d)
    (by omega) (operand.opens_unary hoperand hfits) hate.ready hahead₂ hbehind' hbehind.closes.1
  have hne : eaten op ++ operand.events p₂.events.length 0 ≠ [] := by simp [eaten, Lexeme.written]
  obtain ⟨q, hclose, hdone⟩ := node_run .UnaryExpr hne hmark hlevel hopen
    (hate.trans hparsed.ate)
  have hlength : p₂.events.length = p.events.length + 1 + op.written.length := by
    rw [hate.events_eq, hopen.events_eq, List.length_append, List.length_append,
      List.length_singleton, length_eaten]
  rw [hlength, ← List.length_append, ← written_unary] at hdone
  refine ⟨_, q, ⟨rfl, hdone⟩, ?_⟩
  have hfirst : firstOperand (rules doc turns (d + 1)) p
      = .ok (.ok ⟨p.events.length, .UnaryExpr⟩, q) := by
    unfold firstOperand
    rw [bind_run (currentToken_run p), hcurrent, if_pos hop]
    unfold parseUnaryExpr
    rw [bind_run hmark, bind_run (currentTokenRange_run p₁), bind_run (currentToken_run p₁),
      bind_run (show (rules doc turns (d + 1)).bump p₁ = _ from hbump), bind_run hsub]
    rw [bind_run (onError_run cm _ p₃), bind_run hclose]
    rfl
  exact propagate_run hfirst

theorem spineRuns_paren {left right : Lexeme} {inner : OpExpr}
    (he : (paren left inner right).Allowed) (hspine : SpineRuns doc turns inner) :
    SpineRuns doc turns (.paren left inner right) := by
  intro depth limit p rest t hdepth hturns _ hready hahead hbehind
  obtain ⟨hleft, hinner, hright⟩ := he
  simp only [tokens, List.length_cons, List.length_append, List.length_nil] at hdepth hturns
  obtain ⟨d, rfl⟩ : ∃ d, depth = d + 1 := ⟨depth - 1, by omega⟩
  have hcurrent : p.currentToken = .TkLeftParen := by rw [hready.current_eq, hahead, ← hleft]; rfl
  obtain ⟨p₁, hmark, hopen, hlevel⟩ := open_run hready .ParenExpr
  have hahead₁ : p₁.ahead = left.written ++ (written inner.tokens ++ (right.written ++ rest)) := by
    rw [hopen.ahead_eq, hahead, List.drop_zero, written_paren]
    simp only [List.append_assoc]
  obtain ⟨p₂, hbump, hate, hahead₂, -⟩ := eat_run (rules doc turns (d + 1)).doc hopen.ready hahead₁
    (by rw [hleft]; rfl) (noTrivia_tokens hinner (right.written ++ rest))
  have hkind : nextKind (right.written ++ rest) = .TkRightParen := hright
  have hbehind' : Behind inner (right.written ++ rest) := by
    refine ⟨by rw [hkind]; rfl, by rw [hkind]; rfl, ?_⟩
    rw [hkind]
    exact inner.closes_zero hinner
  obtain ⟨cm, p₃, hparsed, hsub⟩ := subExpr_run hspine (by omega : inner.tokens.length ≤ d)
    (by omega) (inner.opens_zero hinner) hate.ready hahead₂ hbehind'
    (by rw [hkind]; exact Int.le_refl 0)
  have hahead₃ := hparsed.ahead_eq hahead₂
  obtain ⟨p₄, hbump', hate', hahead₄, -⟩ := eat_run (rules doc turns (d + 1)).doc hparsed.ate.ready
    hahead₃ (by rw [hright]; rfl) hbehind.noTrivia
  have hne : eaten left ++ inner.events p₂.events.length 0 ++ eaten right ≠ [] := by
    simp [eaten, Lexeme.written]
  obtain ⟨q, hclose, hdone⟩ := node_run .ParenExpr hne hmark hlevel hopen
    ((hate.trans hparsed.ate).trans hate')
  have hlength : p₂.events.length = p.events.length + 1 + left.written.length := by
    rw [hate.events_eq, hopen.events_eq, List.length_append, List.length_append,
      List.length_singleton, length_eaten]
  have hn : left.written.length + (written inner.tokens).length + right.written.length
      = (written (paren left inner right).tokens).length := by
    rw [written_paren, List.length_append, List.length_append, Nat.add_assoc]
  rw [hlength, hn] at hdone
  have hparsed' : ParsedAs p (.paren left inner right) ⟨p.events.length, .ParenExpr⟩ q :=
    ⟨rfl, hdone⟩
  refine ⟨_, q, hparsed', ?_⟩
  have hexpr : exprOrFail (rules doc turns (d + 1)) "expected expression inside parentheses"
      p₁.currentRange p₂ = .ok (.ok (), p₃) := by
    unfold exprOrFail parseExpr
    rw [bind_run hsub]
    rfl
  have hcloses : bumpOrErrorAt (rules doc turns (d + 1)) .TkRightParen
      "expected ')' to close parentheses" p₁.currentRange p₃ = .ok ((), p₄) := by
    unfold bumpOrErrorAt
    rw [bind_run (currentToken_run p₃), hparsed.ate.ready.current_eq, hahead₃, if_pos hkind]
    exact hbump'
  have hparen : parseParenExpr (rules doc turns (d + 1)) p
      = .ok (.ok ⟨p.events.length, .ParenExpr⟩, q) := by
    unfold parseParenExpr
    rw [bind_run hmark, bind_run (currentTokenRange_run p₁),
      bind_run (show (rules doc turns (d + 1)).bump p₁ = _ from hbump), bind_run hexpr]
    dsimp only
    rw [bind_run hcloses]
    unfold completeWith
    rw [bind_run hclose]
    rfl
  have hsuffix : isSuffixStart q.currentToken = false := by
    rw [hdone.ready.current_eq, hparsed'.ahead_eq hahead]
    exact hbehind.noSuffix
  have hprimary : parsePrimaryExpr (rules doc turns (d + 1)) p
      = .ok (.ok ⟨p.events.length, .ParenExpr⟩, q) := by
    unfold parsePrimaryExpr
    rw [bind_run (currentToken_run p), hcurrent]
    exact hparen
  have hfirst : firstOperand (rules doc turns (d + 1)) p
      = .ok (.ok ⟨p.events.length, .ParenExpr⟩, q) := by
    unfold firstOperand
    rw [bind_run (currentToken_run p), hcurrent, if_neg (fun h => h rfl)]
    unfold parseSimpleExpr
    rw [bind_run (currentToken_run p), hcurrent]
    show parseSuffixedExpr (rules doc turns (d + 1)) p = _
    unfold parseSuffixedExpr
    rw [propagate_run hprimary, suffixes_run _ hsuffix _ (by rw [rules_turns]; omega)]
  exact propagate_run hfirst

/-- The loop takes one operator and its right side. -/
theorem spineRuns_binary {left right : OpExpr} {op : Lexeme}
    (he : (binary left op right).Allowed) (hspine : SpineRuns doc turns left)
    (hspine' : SpineRuns doc turns right) : SpineRuns doc turns (.binary left op right) := by
  intro depth limit p rest t hdepth hturns hopens hready hahead hbehind
  obtain ⟨hop, hleft, hright, hleftFits, hrightFits⟩ := he
  simp only [tokens, List.length_append, List.length_cons] at hdepth hturns
  rw [written_binary, List.append_assoc, List.append_assoc] at hahead
  obtain ⟨d, rfl⟩ : ∃ d, depth = d + 1 := ⟨depth - 1, by omega⟩
  have hvalid := isInvalid_of_binary hop
  have hnext : nextKind (op.written ++ (written right.tokens ++ rest)) = op.kind := rfl
  -- the left side, up to the operator
  have hbehindLeft : Behind left (op.written ++ (written right.tokens ++ rest)) := by
    refine ⟨isTrivia_of_invalid hvalid, ?_, left.closes_of_fits hleft hleftFits⟩
    rw [hnext]
    revert hop
    cases op.kind <;> intro hop <;> first | rfl | exact absurd rfl hop
  obtain ⟨cm, p₁, hparsed, hrun⟩ := hspine (d + 1) limit p _ (t + 1) (by omega) (by omega)
    hopens.2 hready hahead hbehindLeft
  have hahead₁ := hparsed.ahead_eq hahead
  have hcurrent : p₁.currentToken = op.kind := by
    rw [hparsed.ate.ready.current_eq, hahead₁]
    rfl
  have hstart : p₁.events[left.startPos p.events.length]? = some (.NodeStart left.kind 0) := by
    rw [hparsed.ate.events_eq]
    exact left.getElem?_startPos p.events 0
  obtain ⟨p₂, hprecede, hevents₂, htokens₂, hindex₂, hlevel₂, hready₂, hstep₂⟩ :=
    precede_run hparsed.ate.ready hstart .BinaryExpr
  have hahead₂ : p₂.ahead = op.written ++ (written right.tokens ++ rest) := by
    rw [LuaParser.ahead, htokens₂, hindex₂]
    exact hahead₁
  obtain ⟨p₃, hbump, hate₃, hahead₃, hlevel₃⟩ := eat_run (rules doc turns (d + 1)).doc hready₂
    hahead₂ hvalid (noTrivia_tokens hright rest)
  have hbehindRight : Behind right rest := ⟨hbehind.noTrivia, hbehind.noSuffix, hbehind.closes.2⟩
  obtain ⟨cm', p₄, hparsed', hsub⟩ := subExpr_run hspine' (by omega : right.tokens.length ≤ d)
    (by omega) (right.opens_right hright hrightFits) hate₃.ready hahead₃ hbehindRight
    hbehind.closes.1
  -- the events: the left side with its link, the start, the operator and the right side
  have hlength₁ : p₁.events.length = p.events.length + left.size := by
    rw [hparsed.ate.events_eq, List.length_append, left.length_events]
  have hleftEvents : p₁.events.set (left.startPos p.events.length)
      (.NodeStart left.kind p₁.events.length)
        = p.events ++ left.events p.events.length p₁.events.length := by
    rw [hparsed.ate.events_eq]
    exact left.set_startPos p.events 0 _
  have hlength₃ : p₃.events.length = p.events.length + left.size + 2 + op.written.length := by
    rw [hate₃.events_eq, hevents₂, hleftEvents]
    simp only [List.length_append, List.length_cons, List.length_nil, left.length_events,
      length_eaten]
  have hevents₄ : p₄.events = p.events ++ left.events p.events.length p₁.events.length
      ++ (.NodeStart .BinaryExpr 0 :: .Trivia
        :: (eaten op ++ right.events p₃.events.length 0)) := by
    rw [hparsed'.ate.events_eq, hate₃.events_eq, hevents₂, hleftEvents]
    simp
  have hlevel : p.markLevel < p₄.markLevel := by
    have h₁ := hparsed.ate.level_le
    have h₃ := hparsed'.ate.level_le
    omega
  have hindex : p₄.tokenIndex
      = p.tokenIndex + (written (binary left op right).tokens).length := by
    rw [hparsed'.ate.index_eq, hate₃.index_eq, hindex₂, hparsed.ate.index_eq,
      written_binary, List.length_append, List.length_append]
    omega
  have hstart₄ : p₄.events[p₁.events.length]? = some (.NodeStart .BinaryExpr 0) := by
    rw [hevents₄, List.getElem?_append_right (by simp [hlength₁])]
    simp [hlength₁]
  have hmore : p₄.events.length ≠ p₁.events.length + 1 := by
    rw [hevents₄, hlength₁]
    simp only [List.length_append, List.length_cons, left.length_events]
    omega
  have htokens : p₄.tokens = p.tokens := by
    rw [hparsed'.ate.tokens_eq, hate₃.tokens_eq, htokens₂, hparsed.ate.tokens_eq]
  have hevents : p₄.events ++ [.NodeEnd]
      = p.events ++ (binary left op right).events p.events.length 0 := by
    rw [hevents₄, hlength₁, hlength₃]
    simp [events]
  obtain ⟨q, hclose, hdone⟩ := close_run hparsed'.ate.ready hstart₄ hmore hlevel htokens hindex
    hevents (((hparsed.ate.steps.tail hstep₂).trans hate₃.steps).trans hparsed'.ate.steps)
  have hcm : (⟨p₁.events.length, .BinaryExpr⟩ : CompleteMarker)
      = ⟨(binary left op right).startPos p.events.length, .BinaryExpr⟩ := by
    rw [hlength₁, startPos]
  refine ⟨_, q, ⟨hcm, hdone⟩, ?_⟩
  have hstepRun : binaryStep (rules doc turns (d + 1)) limit (.ok cm) p₁
      = .ok ((true, .ok ⟨p₁.events.length, .BinaryExpr⟩), q) := by
    unfold binaryStep
    dsimp only
    rw [bind_run (currentToken_run p₁), hcurrent, if_pos ⟨hop, hopens.1⟩,
      bind_run (currentTokenRange_run p₁), hparsed.cm_eq, bind_run hprecede,
      bind_run (show (rules doc turns (d + 1)).bump p₂ = _ from hbump), bind_run hsub]
    have hcomplete : completeWith ⟨p₁.events.length⟩ (.ok cm' : ParseResult) p₄
        = .ok (.ok ⟨p₁.events.length, .BinaryExpr⟩, q) := by
      unfold completeWith
      rw [bind_run hclose]
      rfl
    dsimp only
    rw [bind_run hcomplete]
    rfl
  have hturn : t + (binary left op right).spine = t + 1 + left.spine := by
    rw [spine]
    omega
  rw [hturn, hrun]
  exact loop_turn hstepRun t

/-- **Along its left side every allowed expression is parsed.** -/
theorem spineRuns (e : OpExpr) (he : e.Allowed) : SpineRuns doc turns e := by
  induction e with
  | atom token => exact spineRuns_atom he
  | paren left inner right ih => exact spineRuns_paren he (ih he.2.1)
  | unary op operand ih => exact spineRuns_unary he (ih he.2.1)
  | binary left op right ihl ihr => exact spineRuns_binary he (ihl he.2.1) (ihr he.2.2.1)

end

end GluaLs.Syntax
