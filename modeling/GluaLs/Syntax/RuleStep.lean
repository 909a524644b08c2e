/-
  GluaLs.Syntax.RuleStep — what the pieces the grammar rules share do.

  A rule opens a node, eats at least one token inside it and closes it (`Inside`); what it
  calls in between only has to be a step.  `Works` says what is known of the two rules the
  others call: they do their work where FEWER tokens are ahead than a bound, which is how
  the knot is untied.
-/
import GluaLs.Syntax.ParserStep
import GluaLs.Syntax.GrammarStat

namespace GluaLs.Syntax

open GluaLs.Lib

/-! ## §1. Rules as steps -/

/-- The program is a step. -/
def Keeps {α : Type} (f : Parse α) (p : LuaParser) : Prop := Runs f p fun _ q => Step p q

/-- What a rule that makes a node returns: where it succeeds it ate something, and there is
    a node start where the node it made starts. -/
def Parsed (p : LuaParser) (r : ParseResult) (q : LuaParser) : Prop :=
  Step p q ∧ ∀ cm, r = .ok cm → p.tokenIndex < q.tokenIndex ∧ IsStart q.events cm.start

/-- The same of a rule that eats something either way. -/
def Made (p : LuaParser) (r : ParseResult) (q : LuaParser) : Prop :=
  Moved p q ∧ ∀ cm, r = .ok cm → IsStart q.events cm.start

theorem Made.parsed {p q : LuaParser} {r : ParseResult} (h : Made p r q) : Parsed p r q :=
  ⟨h.1.1, fun cm hcm => ⟨h.1.2, h.2 cm hcm⟩⟩

/-- Inside a node opened since `p` that has eaten something. -/
structure Inside (p : LuaParser) (m : Marker) (q : LuaParser) : Prop extends Opened p m q where
  moved : p.tokenIndex < q.tokenIndex

namespace Inside

variable {p q r : LuaParser} {m : Marker}

theorem good (h : Inside p m q) : Good q := h.step.good

theorem trans (h : Inside p m q) (h' : Step q r) : Inside p m r :=
  ⟨h.toOpened.trans h', Nat.lt_of_lt_of_le h.moved h'.index_le⟩

theorem remaining_lt (h : Inside p m q) : q.remaining < p.remaining :=
  h.step.remaining_lt h.moved

end Inside

theorem Opened.good {p q : LuaParser} {m : Marker} (h : Opened p m q) : Good q := h.step.good

theorem Opened.inside {p q r : LuaParser} {m : Marker} (h : Opened p m q) (h' : Moved q r) :
    Inside p m r :=
  ⟨h.trans h'.1, Nat.lt_of_le_of_lt h.step.index_le h'.2⟩

section

variable {α β : Type} {p q : LuaParser} {m : Marker}

section

variable {f : Parse α} {k : α → Parse β} {Q : β → LuaParser → Prop}

theorem Keeps.then (hf : Keeps f p) (hk : ∀ a r, Step p r → Runs (k a) r Q) : Runs (f >>= k) p Q :=
  runs_bind hf hk

/-- A step inside a node. -/
theorem Inside.then (h : Inside p m q) (hf : Keeps f q)
    (hk : ∀ a r, Inside p m r → r.remaining < p.remaining → Runs (k a) r Q) :
    Runs (f >>= k) q Q :=
  runs_bind hf fun a r hr => hk a r (h.trans hr) (h.trans hr).remaining_lt

theorem Opened.then
    (h : Opened p m q) (hf : Keeps f q) (hk : ∀ a r, Opened p m r → Runs (k a) r Q) :
    Runs (f >>= k) q Q :=
  runs_bind hf fun a r hr => hk a r (h.trans hr)

end

/-- Closing a node that has eaten something makes it. -/
theorem Inside.complete (h : Inside p m q) :
    Runs (do
      let cm ← m.complete
      pure (.ok cm) : Parse ParseResult) q (Made p) := by
  apply runs_bind (runs_complete h.toOpened)
  intro cm r hr
  obtain ⟨hstep, hindex, hstart⟩ := hr
  apply runs_pure
  refine ⟨⟨hstep, by rw [hindex]; exact h.moved⟩, ?_⟩
  intro cm' hcm
  injection hcm with hcm
  rw [← hcm]
  exact hstart

theorem Made.runs_parsed {f : Parse ParseResult} (h : Runs f q (Made p)) : Runs f q (Parsed p) := by
  apply h.mono
  intro r s hr
  exact hr.parsed

/-- A rule that fails leaves its nodes open. -/
theorem parsed_error (h : Step p q) (reason : ParseFailReason) : Parsed p (.error reason) q :=
  ⟨h, by simp⟩

theorem Parsed.keeps {f : Parse ParseResult} (h : Runs f p (Parsed p)) : Keeps f p := by
  apply h.mono
  intro r q hq
  exact hq.1

section

variable {f : Parse (Except ParseFailReason α)}

/-- A failure is handed on; a success goes on with `k`. -/
theorem runs_propagate
    {k : α → Parse (Except ParseFailReason β)} {Q : Except ParseFailReason α → LuaParser → Prop}
    {Q' : Except ParseFailReason β → LuaParser → Prop} (hf : Runs f p Q)
    (hok : ∀ a r, Q (.ok a) r → Runs (k a) r Q')
    (herror : ∀ reason r, Q (.error reason) r → Q' (.error reason) r) :
    Runs (propagate f k) p Q' := by
  unfold propagate
  apply runs_bind hf
  intro a r hr
  cases a with
  | ok a => exact hok a r hr
  | error reason => exact runs_pure (herror reason r hr)

theorem Inside.propagate {k : α → Parse ParseResult} (h : Inside p m q) (hf : Keeps f q)
    (hk : ∀ a r, Inside p m r → r.remaining < p.remaining → Runs (k a) r (Parsed p)) :
    Runs (propagate f k) q (Parsed p) := by
  apply runs_propagate hf
  · intro a r hr
    exact hk a r (h.trans hr) (h.trans hr).remaining_lt
  · intro reason r hr
    exact parsed_error (h.trans hr).step reason

theorem Keeps.propagate {k : α → Parse (Except ParseFailReason β)} (hf : Keeps f p)
    (hk : ∀ a r, Step p r → Keeps (k a) r) : Keeps (propagate f k) p := by
  apply runs_propagate hf
  · intro a r hr
    apply (hk a r hr).mono
    intro _ r' hr'
    exact hr.trans hr'
  · intro reason r hr
    exact hr

end

theorem keeps_pure (h : Good p) (a : α) : Keeps (pure a : Parse α) p := runs_pure (.refl h)

/-- One step after the other. -/
theorem Keeps.bind {f : Parse α} {k : α → Parse β} (hf : Keeps f p)
    (hk : ∀ a r, Step p r → r.remaining ≤ p.remaining → Keeps (k a) r) :
    Keeps (f >>= k) p := by
  apply hf.then
  intro a r hr
  apply (hk a r hr hr.remaining_le).mono
  intro _ r' hr'
  exact hr.trans hr'

theorem keeps_onlyIf {c : Prop} [Decidable c] {f : Parse Unit} (h : Good p)
    (hf : c → Keeps f p) : Keeps (onlyIf c f) p := by
  unfold onlyIf
  split_ifs with hc
  · exact hf hc
  · exact keeps_pure h ()

theorem keeps_onError {ε : Type} {r : Except ε α} {f : Parse Unit} (h : Good p)
    (hf : Keeps f p) : Keeps (onError r f) p := by
  unfold onError
  cases r with
  | ok a => exact keeps_pure h ()
  | error e => exact hf

theorem Still.keeps {f : Parse α} (h : Runs f p fun _ q => Still p q) : Keeps f p := by
  apply h.mono
  intro _ q hq
  exact hq.1

/-- An error eats nothing. -/
theorem keeps_pushError (h : Good p) (message : String) (range : SourceRange) :
    Keeps (pushError message range) p :=
  Still.keeps (runs_pushError h message range)

theorem keeps_pushErrorHere (h : Good p) (message : String) : Keeps (pushErrorHere message) p :=
  Still.keeps (runs_pushErrorHere h message)

theorem Opened.keeps_setKind (h : Opened p m q) (kind : LuaSyntaxKind) : Keeps (m.setKind kind) q :=
  Still.keeps (runs_setKind h kind)

end

/-! ## §2. Loops -/

/-- A turn of a loop is a step, and moves where the loop goes on. -/
def Turn {β : Type} (p : LuaParser) (r : Bool × β) (q : LuaParser) : Prop :=
  Step p q ∧ (r.1 = true → p.tokenIndex < q.tokenIndex)

/-- **A loop whose turns are steps, and move where the loop goes on, is a step**, given more
    turns than tokens ahead. -/
theorem runs_stepLoop {β : Type} {p : LuaParser} {body : β → Parse (Bool × β)} {turns : Nat}
    (I : β → LuaParser → Prop) (b : β) (hp : Good p) (hturns : p.remaining < turns) (hb : I b p)
    (hbody : ∀ b q, Step p q → I b q → Runs (body b) q fun r q' =>
      Step q q' ∧ I r.2 q' ∧ (r.1 = true → q.tokenIndex < q'.tokenIndex)) :
    Runs (loop .outOfTurns body turns b) p fun b' q => Step p q ∧ I b' q := by
  apply runs_loop .outOfTurns body (fun b q => Step p q ∧ I b q) (fun _ q => q.remaining)
  · intro b q hq
    apply (hbody b q hq.1 hq.2).mono
    intro r q' hr
    obtain ⟨hstep, hI, hmoved⟩ := hr
    split_ifs with hgo
    · exact ⟨⟨hq.1.trans hstep, hI⟩, hstep.remaining_lt (hmoved hgo)⟩
    · exact ⟨hq.1.trans hstep, hI⟩
  · exact ⟨.refl hp, hb⟩
  · exact hturns

/-- The same where nothing is known of the loop's value. -/
theorem keeps_stepLoop {β : Type} {p : LuaParser} {body : β → Parse (Bool × β)} {turns : Nat}
    (b : β) (hp : Good p) (hturns : p.remaining < turns)
    (hbody : ∀ b q, Step p q → Runs (body b) q (Turn q)) :
    Keeps (loop .outOfTurns body turns b) p := by
  apply (runs_stepLoop (fun _ _ => True) b hp hturns trivial ?_).mono
  · intro b' q hq
    exact hq.1
  · intro b q hq _
    apply (hbody b q hq).mono
    intro r q' hr
    exact ⟨hr.1, trivial, hr.2⟩

/-! ## §3. Tokens -/

section

variable {R : Rules} {p : LuaParser}

theorem runs_rulesBump (h : Good p) (hne : p.currentToken ≠ .TkEof) :
    Runs R.bump p fun _ q => Moved p q := by
  apply (runs_bump R.doc h hne).mono
  intro _ q hq
  exact hq.1

theorem keeps_bump (h : Good p) (hne : p.currentToken ≠ .TkEof) : Keeps R.bump p := by
  apply (runs_rulesBump h hne).mono
  intro _ q hq
  exact hq.1

theorem runs_bind_atToken {α : Type} (token : LuaTokenKind) {k : Bool → Parse α}
    {Q : α → LuaParser → Prop} (hk : ∀ b, (b = true → p.currentToken = token) → Runs (k b) p Q) :
    Runs (atToken token >>= k) p Q :=
  hk (p.currentToken == token) (by simp)

section

variable (token : LuaTokenKind) (hne : token ≠ .TkEof)
include hne

theorem runs_expectToken (h : Good p) :
    Runs (expectToken R token) p fun r q => Step p q
      ∧ (∀ u, r = .ok u → p.tokenIndex < q.tokenIndex) := by
  unfold expectToken
  apply runs_bind_currentToken
  split_ifs with htoken heof
  · apply runs_bind (runs_rulesBump h (by rw [htoken]; exact hne))
    intro _ r hr
    exact runs_pure ⟨hr.1, fun _ _ => hr.2⟩
  · exact runs_pure ⟨.refl h, by simp⟩
  · exact runs_pure ⟨.refl h, by simp⟩

theorem keeps_expectToken (h : Good p) : Keeps (expectToken R token) p := by
  apply (runs_expectToken token hne h).mono
  intro _ q hq
  exact hq.1

/-- The token is eaten where it is the one asked for. -/
theorem runs_ifTokenBump (h : Good p) :
    Runs (ifTokenBump R token) p fun b q => Step p q ∧ (b = true → p.tokenIndex < q.tokenIndex)
      ∧ (p.currentToken = token → p.tokenIndex < q.tokenIndex) := by
  unfold ifTokenBump
  apply runs_bind_currentToken
  split_ifs with htoken
  · apply runs_bind (runs_rulesBump h (by rw [htoken]; exact hne))
    intro _ r hr
    exact runs_pure ⟨hr.1, fun _ => hr.2, fun _ => hr.2⟩
  · exact runs_pure ⟨.refl h, by simp, fun htoken' => absurd htoken' htoken⟩

theorem keeps_ifTokenBump (h : Good p) : Keeps (ifTokenBump R token) p := by
  apply (runs_ifTokenBump token hne h).mono
  intro _ q hq
  exact hq.1

theorem keeps_bumpOrErrorAt (message : String)
    (range : SourceRange) (h : Good p) : Keeps (bumpOrErrorAt R token message range) p := by
  unfold bumpOrErrorAt
  apply runs_bind_currentToken
  split_ifs with htoken
  · exact keeps_bump h (by rw [htoken]; exact hne)
  · exact keeps_pushError h message range

theorem keeps_bumpOrError (message : String)
    (h : Good p) : Keeps (bumpOrError R token message) p := by
  unfold bumpOrError
  apply runs_bind_currentToken
  split_ifs with htoken
  · exact keeps_bump h (by rw [htoken]; exact hne)
  · exact keeps_pushErrorHere h message

theorem keeps_expectOrError (message : String)
    (h : Good p) : Keeps (expectOrError R token message) p := by
  unfold expectOrError
  apply (keeps_expectToken token hne h).bind
  intro r q hq _
  exact keeps_onError hq.good (keeps_pushErrorHere hq.good message)

end

/-- A search that stops at the end of file at the latest. -/
theorem runs_skipUntil (stop : LuaTokenKind → Bool) (hstop : stop .TkEof = true) (h : Good p)
    (hturns : p.remaining < R.turns) :
    Runs (skipUntil R stop) p fun _ q => Step p q ∧ stop q.currentToken = true := by
  unfold skipUntil
  apply (runs_whileLoop .outOfTurns _ R.bump (fun q => Step p q) (fun q => q.remaining) ?_ _ p
    (.refl h) hturns).mono
  · intro _ q hq
    exact ⟨hq.1, by simpa using hq.2⟩
  · intro q hq hcond
    -- a search that went past the end of file would not end
    have hne : q.currentToken ≠ .TkEof := by
      intro heof
      rw [heof, hstop] at hcond
      simp at hcond
    apply (runs_rulesBump hq.good hne).mono
    intro _ r hr
    exact ⟨hq.trans hr.1, hr.remaining_lt⟩

theorem keeps_skipUntil (stop : LuaTokenKind → Bool) (hstop : stop .TkEof = true) (h : Good p)
    (hturns : p.remaining < R.turns) : Keeps (skipUntil R stop) p := by
  apply (runs_skipUntil stop hstop h hturns).mono
  intro _ q hq
  exact hq.1

/-- A node that starts with a token: its first `bump`. -/
theorem runs_markBump {α : Type} {k : Marker → Parse α} {Q : α → LuaParser → Prop}
    (kind : LuaSyntaxKind) (h : Good p) (hne : p.currentToken ≠ .TkEof)
    (hk : ∀ m q, Inside p m q → q.remaining < p.remaining → Runs (k m) q Q) :
    Runs (do
      let m ← mark kind
      R.bump
      k m) p Q := by
  apply runs_bind (runs_mark h kind)
  intro m q hq
  have hcur : q.currentToken ≠ .TkEof := by
    rw [hq.2.current_eq h]
    exact hne
  apply runs_bind (runs_rulesBump hq.1.good hcur)
  intro _ r hr
  exact hk m r (hq.1.inside hr) (hq.1.inside hr).remaining_lt

/-- The same, with the range of the token read before that is eaten. -/
theorem runs_markRangeBump {α : Type} {k : Marker → SourceRange → Parse α}
    {Q : α → LuaParser → Prop} (kind : LuaSyntaxKind) (h : Good p)
    (hne : p.currentToken ≠ .TkEof)
    (hk : ∀ m range q, Inside p m q → q.remaining < p.remaining → Runs (k m range) q Q) :
    Runs (do
      let m ← mark kind
      let range ← currentTokenRange
      R.bump
      k m range) p Q := by
  apply runs_bind (runs_mark h kind)
  intro m q hq
  apply runs_bind_currentTokenRange
  intro range
  apply runs_bind (runs_rulesBump hq.1.good (by rw [hq.2.current_eq h]; exact hne))
  intro _ r hr
  exact hk m range r (hq.1.inside hr) (hq.1.inside hr).remaining_lt

/-- A node of one token. -/
theorem runs_parseTokenNode (kind : LuaSyntaxKind) (h : Good p)
    (hne : p.currentToken ≠ .TkEof) : Runs (parseTokenNode R kind) p (Made p) := by
  unfold parseTokenNode
  apply runs_markBump kind h hne
  intro m q hin _
  exact hin.complete

end

end GluaLs.Syntax
