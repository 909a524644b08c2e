/-
  GluaLs.Syntax.ExprStep — every expression rule returns, and one that makes a node eats
  something.
-/
import GluaLs.Syntax.RuleStep

namespace GluaLs.Syntax

open GluaLs.Lib

/-- The rules the others call do their work: an expression where fewer than `a` tokens are
    ahead, statements where fewer than `b` are. -/
structure Works (R : Rules) (a b : Nat) : Prop where
  turns : 2 * a + 2 ≤ R.turns
  subExpr : ∀ limit p, Good p → p.remaining < a → Runs (R.subExpr limit) p (Parsed p)
  stats : ∀ p, Good p → p.remaining < b → Keeps R.stats p

section

variable {R : Rules} {a b : Nat} {p q : LuaParser} {m : Marker}

/-! ## §1. What the rules share -/

theorem Works.lt_turns (W : Works R a b) (h : p.remaining ≤ a) : p.remaining < R.turns := by
  have := W.turns
  omega

theorem Works.runs_parseExpr (W : Works R a b) (h : Good p) (ha : p.remaining < a) :
    Runs (parseExpr R) p (Parsed p) :=
  W.subExpr 0 p h ha

theorem Works.keeps_exprOrError (W : Works R a b) (message : String) (h : Good p)
    (ha : p.remaining < a) : Keeps (exprOrError R message) p := by
  unfold exprOrError
  apply (Parsed.keeps (W.runs_parseExpr h ha)).bind
  intro r q hq _
  exact keeps_onError hq.good (keeps_pushErrorHere hq.good message)

/-- There is a node start where a node that was made starts. -/
def NodeAt (r : ParseResult) (q : LuaParser) : Prop := ∀ cm, r = .ok cm → IsStart q.events cm.start

theorem nodeAt_ok {cm : CompleteMarker} (h : IsStart q.events cm.start) : NodeAt (.ok cm) q := by
  intro cm' hcm
  injection hcm with hcm
  rw [← hcm]
  exact h

/-- A turn of a loop over the parts behind a node. -/
def NodeTurn (p : LuaParser) (r : Bool × ParseResult) (q : LuaParser) : Prop :=
  Step p q ∧ NodeAt r.2 q ∧ (r.1 = true → p.tokenIndex < q.tokenIndex)

theorem Opened.complete (h : Opened p m q) : Runs m.complete q fun cm r =>
    Step p r ∧ q.tokenIndex ≤ r.tokenIndex ∧ IsStart r.events cm.start := by
  apply (runs_complete h).mono
  intro cm r hr
  exact ⟨hr.1, Nat.le_of_eq hr.2.1.symm, hr.2.2⟩

theorem Opened.close {α : Type} (h : Opened p m q) (f : CompleteMarker → α) : Runs (do
    let cm ← m.complete
    pure (f cm) : Parse α) q fun _ r => Step p r := by
  apply runs_bind h.complete
  intro cm r hr
  exact runs_pure hr.1

/-- A node closed with what its last part returned. -/
theorem Opened.runs_completeWith {α : Type} (h : Opened p m q) (r : Except ParseFailReason α) :
    Runs (completeWith m r) q fun r' s => Step p s ∧ s.tokenIndex = q.tokenIndex
      ∧ ∀ cm, r' = .ok cm → IsStart s.events cm.start := by
  unfold completeWith
  apply runs_bind (runs_complete h)
  intro cm s hs
  cases r with
  | ok a =>
    apply runs_pure
    refine ⟨hs.1, hs.2.1, ?_⟩
    exact nodeAt_ok hs.2.2
  | error reason => exact runs_pure ⟨hs.1, hs.2.1, by simp⟩

theorem Inside.runs_completeWith {α : Type} (h : Inside p m q) (r : Except ParseFailReason α) :
    Runs (completeWith m r) q (Made p) := by
  apply (h.toOpened.runs_completeWith r).mono
  intro r' s hs
  exact ⟨⟨hs.1, by rw [hs.2.1]; exact h.moved⟩, hs.2.2⟩

theorem Works.keeps_parseBlock (W : Works R a b) (h : Good p) (hb : p.remaining < b) :
    Keeps (parseBlock R) p := by
  unfold parseBlock
  apply runs_bind (runs_parserStackExhausted h)
  intro exhausted q hq
  split_ifs
  · apply runs_bind (runs_pushErrorHere hq.1.good _)
    intro _ r hr
    exact runs_pure (hq.1.trans hr.1)
  · apply runs_bind (runs_mark hq.1.good .Block)
    intro m r hr
    have hlt : r.remaining < b := Nat.lt_of_le_of_lt (hq.1.trans hr.2.1).remaining_le hb
    apply hr.1.then (W.stats r hr.1.good hlt)
    intro _ s hs
    apply runs_bind (runs_complete hs)
    intro cm t ht
    exact runs_pure (hq.1.trans ht.1)

/-! ## §2. Parameters and closures -/

theorem keeps_parseParamName (isVararg : Bool) (h : Good p) :
    Keeps (parseParamName R isVararg) p := by
  unfold parseParamName
  apply runs_bind (runs_mark h .ParamName)
  intro m q hq
  apply runs_bind_currentToken
  split
  case h_1 htoken =>
      apply hq.1.then (keeps_bump hq.1.good (by rw [htoken]; simp))
      intro _ r hr
      exact hr.close _
  case h_2 htoken =>
      apply hq.1.then (keeps_bump hq.1.good (by rw [htoken]; simp))
      intro _ r hr
      apply runs_bind_get
      have hname : r.currentToken = .TkName → r.currentToken ≠ .TkEof := by
        intro hname
        rw [hname]
        simp
      apply hr.then (keeps_onlyIf hr.good fun hc => keeps_bump hr.good (hname hc.2))
      intro _ t ht
      exact ht.close _
  case h_3 =>
      apply hq.1.then (keeps_pushErrorHere hq.1.good _)
      intro _ r hr
      exact hr.close _

theorem keeps_recoverParam (h : Good p) (hturns : p.remaining < R.turns) :
    Keeps (recoverParam R) p := by
  unfold recoverParam
  apply (keeps_pushErrorHere h _).bind
  intro _ q hq _
  apply keeps_skipUntil _ rfl hq.good
  exact Nat.lt_of_le_of_lt hq.remaining_le hturns

theorem runs_paramStep (flags : Bool × Bool) (h : Good p) (hturns : p.remaining < R.turns) :
    Runs (paramStep R flags) p (Turn p) := by
  unfold paramStep
  apply (keeps_parseParamName flags.1 h).then
  intro r q hq
  have hlt := Nat.lt_of_le_of_lt hq.remaining_le hturns
  apply (keeps_onError hq.good (keeps_recoverParam hq.good hlt)).then
  intro _ s hs
  have hps := hq.trans hs
  apply runs_bind (runs_ifTokenBump .TkComma (by simp) hps.good)
  intro comma t ht
  have hpt := hps.trans ht.1
  by_cases hcomma : comma = true
  · rw [if_pos hcomma]
    have hmoved : p.tokenIndex < t.tokenIndex :=
      Nat.lt_of_le_of_lt hps.index_le (ht.2.1 hcomma)
    apply runs_bind_atToken .TkRightParen
    intro closing _
    split_ifs
    · apply runs_bind (runs_pushErrorHere hpt.good _)
      intro _ u hu
      apply runs_pure
      exact ⟨hpt.trans hu.1, by simp⟩
    · apply runs_bind (runs_pushErrorHere hpt.good _)
      intro _ u hu
      apply runs_pure
      refine ⟨hpt.trans hu.1, fun _ => ?_⟩
      rw [hu.2]
      exact hmoved
    · apply runs_pure
      exact ⟨hpt, fun _ => hmoved⟩
  · rw [if_neg hcomma]
    apply runs_pure
    exact ⟨hpt, by simp⟩

theorem keeps_parseParams (h : Good p) (hturns : p.remaining < R.turns) :
    Keeps (parseParams R) p := by
  unfold parseParams
  apply Keeps.bind (keeps_stepLoop (false, false) h hturns ?_)
  · intro _ q hq _
    exact keeps_pure hq.good _
  · intro flags q hq
    exact runs_paramStep flags hq.good (Nat.lt_of_le_of_lt hq.remaining_le hturns)

theorem keeps_parseParamList (h : Good p) (hturns : p.remaining < R.turns) :
    Keeps (parseParamList R) p := by
  unfold parseParamList
  apply runs_bind (runs_mark h .ParamList)
  intro m q hq
  apply hq.1.then (keeps_bumpOrError .TkLeftParen (by simp) _ hq.1.good)
  intro _ r hr
  apply runs_bind_atToken .TkRightParen
  intro closing _
  have hlt := Nat.lt_of_le_of_lt hr.step.remaining_le hturns
  apply hr.then (keeps_onlyIf hr.good fun _ => keeps_parseParams hr.good hlt)
  intro _ s hs
  apply hs.then (keeps_bumpOrError .TkRightParen (by simp) _ hs.good)
  intro _ t ht
  exact ht.close _

theorem Works.keeps_parseClosureBody (W : Works R a b) (h : Good p) (hb : p.remaining < b) :
    Keeps (parseClosureBody R) p := by
  unfold parseClosureBody
  apply runs_bind_atToken .TkEnd
  intro atEnd _
  split_ifs
  · apply (W.keeps_parseBlock h hb).propagate
    intro _ q hq
    exact keeps_pure hq.good _
  · exact keeps_pure h _

/-- A closure behind `function`. -/
theorem Works.runs_closureRest (W : Works R a b) (range : SourceRange) (h : Opened p m q)
    (ha : q.remaining ≤ a) (hb : q.remaining < b) :
    Runs (propagate (parseParamList R) fun _ => propagate (parseClosureBody R) fun _ => do
        bumpOrErrorAt R .TkEnd "expected 'end' to close function definition" range
        let cm ← m.complete
        pure (.ok cm) : Parse ParseResult) q fun r s =>
      Step p s ∧ q.tokenIndex ≤ s.tokenIndex ∧ ∀ cm, r = .ok cm → IsStart s.events cm.start := by
  apply runs_propagate (keeps_parseParamList h.good (W.lt_turns ha))
  · intro _ r hr
    have hlt : r.remaining < b := Nat.lt_of_le_of_lt hr.remaining_le hb
    apply runs_propagate (W.keeps_parseClosureBody hr.good hlt)
    · intro _ s hs
      apply runs_bind (keeps_bumpOrErrorAt .TkEnd (by simp) _ range hs.good)
      intro _ t ht
      have hqt := (hr.trans hs).trans ht
      apply runs_bind (runs_complete (h.trans hqt))
      intro cm u hu
      apply runs_pure
      refine ⟨hu.1, by rw [hu.2.1]; exact hqt.index_le, ?_⟩
      exact nodeAt_ok hu.2.2
    · intro reason s hs
      exact ⟨h.step.trans (hr.trans hs), (hr.trans hs).index_le, by simp⟩
  · intro reason r hr
    exact ⟨h.step.trans hr, hr.index_le, by simp⟩

/-- A closure that begins with `function`. -/
theorem Works.runs_parseClosureExpr (W : Works R a b) (h : Good p)
    (hcur : p.currentToken = .TkFunction) (ha : p.remaining ≤ a) (hb : p.remaining ≤ b) :
    Runs (parseClosureExpr R) p (Parsed p) := by
  unfold parseClosureExpr
  apply runs_bind (runs_mark h .ClosureExpr)
  intro m q hq
  apply runs_bind_currentTokenRange
  intro range
  apply runs_bind (runs_ifTokenBump .TkFunction (by simp) hq.1.good)
  intro _ r hr
  have hmoved := hr.2.2 (by rw [hq.2.current_eq h]; exact hcur)
  have hin : Inside p m r := hq.1.inside ⟨hr.1, hmoved⟩
  have hlt := hin.remaining_lt
  apply (W.runs_closureRest range hin.toOpened (by omega) (by omega)).mono
  intro r' s hs
  refine ⟨hs.1, fun cm hcm => ⟨?_, hs.2.2 cm hcm⟩⟩
  exact Nat.lt_of_lt_of_le hin.moved hs.2.1

/-- A closure whose `function` was eaten by the rule around it. -/
theorem Works.keeps_parseClosureExpr (W : Works R a b) (h : Good p) (ha : p.remaining ≤ a)
    (hb : p.remaining < b) : Keeps (parseClosureExpr R) p := by
  unfold parseClosureExpr
  apply runs_bind (runs_mark h .ClosureExpr)
  intro m q hq
  apply runs_bind_currentTokenRange
  intro range
  apply hq.1.then (keeps_ifTokenBump .TkFunction (by simp) hq.1.good)
  intro _ r hr
  have hle := hr.step.remaining_le
  apply (W.runs_closureRest range hr (by omega) (by omega)).mono
  intro r' s hs
  exact hs.1

/-! ## §3. Table constructors -/

theorem keeps_recoverFieldIndex (h : Good p) (hturns : p.remaining < R.turns) :
    Keeps (recoverFieldIndex R) p := by
  unfold recoverFieldIndex
  apply (keeps_pushErrorHere h _).bind
  intro _ q hq _
  apply keeps_skipUntil _ rfl hq.good
  exact Nat.lt_of_le_of_lt hq.remaining_le hturns

theorem Works.keeps_parseFieldIndex (W : Works R a b) (h : Good p) (ha : p.remaining < a) :
    Keeps (parseFieldIndex R) p := by
  unfold parseFieldIndex
  apply (Parsed.keeps (W.runs_parseExpr h ha)).bind
  intro r q hq hle
  exact keeps_onError hq.good (keeps_recoverFieldIndex hq.good (W.lt_turns (by omega)))

theorem Works.keeps_parseFieldBody (W : Works R a b) (h : Opened p m q) (ha : q.remaining < a) :
    Keeps (parseFieldBody R m) q := by
  have hgood := h.good
  unfold parseFieldBody
  apply runs_bind_currentToken
  split
  case h_1 htoken =>
      apply runs_bind (runs_setKind h _)
      intro _ r hr
      have hne : r.currentToken ≠ .TkEof := by
        rw [hr.current_eq hgood, htoken]
        simp
      show Runs _ r fun _ s => Step q s
      apply runs_bind (runs_rulesBump hr.1.good hne)
      intro _ s hs
      have hqs : Step q s := hr.1.trans hs.1
      have hle := hqs.remaining_le
      apply runs_bind (W.keeps_parseFieldIndex hs.1.good (by omega))
      intro _ t ht
      apply runs_bind (keeps_bumpOrError .TkRightBracket (by simp) _ ht.good)
      intro _ u hu
      apply runs_bind (keeps_bumpOrError .TkAssign (by simp) _ hu.good)
      intro _ v hv
      have hqv := (hqs.trans ht).trans (hu.trans hv)
      have hle' := hqv.remaining_le
      apply (W.keeps_exprOrError _ hv.good (by omega)).mono
      intro _ w hw
      exact hqv.trans hw
  case h_2 htoken =>
      apply runs_bind runs_peekNextToken
      intro next q' hq'
      rw [hq'.1]
      split_ifs with hnext
      · apply runs_bind (runs_setKind h _)
        intro _ r hr
        have hne : r.currentToken ≠ .TkEof := by
          rw [hr.current_eq hgood, htoken]
          simp
        apply runs_bind (runs_bump R.doc hr.1.good hne)
        intro _ s hs
        -- the token behind the name is the `=` that was peeked at
        have hassign : s.currentToken = .TkAssign := by
          rw [hs.1.1.good.current_eq, hs.2, hs.1.1.tokens_eq, hr.1.tokens_eq, hr.2]
          exact hq'.2 hnext
        have hqs : Step q s := hr.1.trans hs.1.1
        apply runs_bind (runs_rulesBump hqs.good (by rw [hassign]; simp))
        intro _ t ht
        have hqt := hqs.trans ht.1
        have hle := hqt.remaining_le
        apply (W.keeps_exprOrError _ ht.1.good (by omega)).mono
        intro _ u hu
        exact hqt.trans hu
      · exact W.keeps_exprOrError _ hgood ha
  case h_3 => exact keeps_pushErrorHere hgood _
  case h_4 => exact keeps_pushErrorHere hgood _
  case h_5 => exact W.keeps_exprOrError _ hgood ha

theorem Works.keeps_parseFieldWithRecovery (W : Works R a b) (h : Good p) (ha : p.remaining < a) :
    Keeps (parseFieldWithRecovery R) p := by
  unfold parseFieldWithRecovery
  apply runs_bind (runs_mark h _)
  intro m q hq
  have hle := hq.2.1.remaining_le
  apply hq.1.then (W.keeps_parseFieldBody hq.1 (by omega))
  intro _ r hr
  exact hr.close _

theorem keeps_recoverToTableBoundary (h : Good p) (hturns : p.remaining < R.turns) :
    Keeps (recoverToTableBoundary R) p :=
  keeps_skipUntil _ rfl h hturns

theorem Works.keeps_parseFirstField (W : Works R a b) (h : Opened p m q) (ha : q.remaining < a) :
    Keeps (parseFirstField R m) q := by
  unfold parseFirstField
  apply (W.keeps_parseFieldWithRecovery h.good ha).bind
  intro r s hs _
  have hopen := h.trans hs
  cases r with
  | ok cm =>
    dsimp only
    split_ifs
    · exact hopen.keeps_setKind _
    · exact hopen.keeps_setKind _
    · exact keeps_pure hs.good ()
  | error reason => exact keeps_recoverToTableBoundary hs.good (W.lt_turns (by omega))

theorem Works.runs_fieldStep (W : Works R a b) (h : Opened p m q) (ha : q.remaining ≤ a) :
    Runs (fieldStep R m ()) q (Turn q) := by
  unfold fieldStep
  apply runs_bind_currentToken
  split_ifs with hsep
  · have hne : q.currentToken ≠ .TkEof := by
      obtain hsep | hsep := hsep <;> rw [hsep] <;> simp
    apply runs_bind (runs_rulesBump h.good hne)
    intro _ r hr
    have hlt := hr.remaining_lt
    apply runs_bind_atToken .TkRightBrace
    intro closing _
    split_ifs
    · exact runs_pure ⟨hr.1, by simp⟩
    · apply runs_bind (W.keeps_parseFieldWithRecovery hr.1.good (by omega))
      intro result s hs
      have hqs := hr.trans_step hs
      have hopen := h.trans hqs.1
      cases result with
      | ok cm =>
        apply runs_bind (keeps_onlyIf hs.good fun _ => hopen.keeps_setKind _)
        intro _ t ht
        exact runs_pure ⟨(hqs.trans_step ht).1, fun _ => (hqs.trans_step ht).2⟩
      | error reason =>
        apply runs_bind (keeps_pushErrorHere hs.good _)
        intro _ t ht
        have hqt := hqs.trans_step ht
        have hle := hqt.remaining_lt
        apply runs_bind (keeps_recoverToTableBoundary ht.good (W.lt_turns (by omega)))
        intro _ u hu
        have hqu := hqt.trans_step hu
        apply runs_bind_atToken .TkRightBrace
        intro closing _
        exact runs_pure ⟨hqu.1, fun _ => hqu.2⟩
  · exact runs_pure ⟨.refl h.good, by simp⟩

theorem runs_braceStep (acc : Nat × Bool) (h : Good p) : Runs (braceStep R acc) p (Turn p) := by
  have hstay : ∀ x, Runs (pure (false, x) : Parse (Bool × Nat × Bool)) p (Turn p) := by
    intro x
    exact runs_pure ⟨.refl h, by simp⟩
  have heat : ∀ x, p.currentToken ≠ .TkEof → Runs (do
      R.bump
      pure x : Parse (Bool × Nat × Bool)) p (Turn p) := by
    intro x hne
    apply runs_bind (runs_rulesBump h hne)
    intro _ q hq
    exact runs_pure ⟨hq.1, fun _ => hq.2⟩
  unfold braceStep
  apply runs_bind_currentToken
  split
  case h_1 => exact hstay _
  case h_2 htoken =>
      apply runs_bind (runs_rulesBump h (by rw [htoken]; simp))
      intro _ q hq
      split_ifs
      · exact runs_pure ⟨hq.1, fun _ => hq.2⟩
      · exact runs_pure ⟨hq.1, fun _ => hq.2⟩
  case h_3 htoken => exact heat _ (by rw [htoken]; simp)
  case h_10 hne _ _ _ _ _ _ _ _ => exact heat _ hne
  all_goals exact hstay _

theorem Works.keeps_closeTable (W : Works R a b) (h : Good p) (ha : p.remaining ≤ a) :
    Keeps (closeTable R) p := by
  unfold closeTable
  apply (keeps_ifTokenBump .TkRightBrace (by simp) h).bind
  intro closing q hq hle
  split_ifs
  · apply (keeps_pushErrorHere hq.good _).bind
    intro _ r hr hle'
    apply Keeps.bind (keeps_stepLoop (1, false) hr.good (W.lt_turns (by omega)) ?_)
    · intro acc s hs _
      exact keeps_onlyIf hs.good fun _ => keeps_pushErrorHere hs.good _
    · intro acc s hs
      exact runs_braceStep acc hs.good
  · exact keeps_pure hq.good ()

theorem Works.keeps_parseTableFields (W : Works R a b) (h : Opened p m q) (ha : q.remaining < a) :
    Keeps (parseTableFields R m) q := by
  unfold parseTableFields
  apply (W.keeps_parseFirstField h ha).bind
  intro _ r hr hle
  apply Keeps.bind (keeps_stepLoop () hr.good (W.lt_turns (by omega)) ?_)
  · intro _ s hs hle'
    exact W.keeps_closeTable hs.good (by omega)
  · intro _ s hs
    have hle' := hs.remaining_le
    exact W.runs_fieldStep ((h.trans hr).trans hs) (by omega)

theorem Works.runs_parseTableExpr (W : Works R a b) (h : Good p) (hne : p.currentToken ≠ .TkEof)
    (ha : p.remaining ≤ a) : Runs (parseTableExpr R) p (Made p) := by
  unfold parseTableExpr
  apply runs_markBump _ h hne
  intro m q hin _
  apply hin.then (keeps_ifTokenBump .TkRightBrace (by simp) hin.good)
  intro closing r hin hlt
  apply hin.then (keeps_onlyIf hin.good fun _ =>
    W.keeps_parseTableFields hin.toOpened (by omega))
  intro _ s hin _
  exact hin.complete

/-! ## §4. Calls and indices -/

theorem Works.runs_argStep (W : Works R a b) (h : Good p) (ha : p.remaining < a) :
    Runs (argStep R ()) p (Turn p) := by
  unfold argStep
  apply runs_bind (W.runs_parseExpr h ha)
  intro r q hq
  cases r with
  | ok cm =>
    apply runs_bind (runs_ifTokenBump .TkComma (by simp) hq.1.good)
    intro comma s hs
    have hps := hq.1.trans hs.1
    by_cases hcomma : comma = true
    · rw [if_pos hcomma]
      have hmoved := Nat.lt_of_le_of_lt hq.1.index_le (hs.2.1 hcomma)
      apply runs_bind_atToken .TkRightParen
      intro closing _
      split_ifs
      · apply runs_bind (keeps_pushErrorHere hps.good _)
        intro _ t ht
        exact runs_pure ⟨hps.trans ht, by simp⟩
      · exact runs_pure ⟨hps, fun _ => hmoved⟩
    · rw [if_neg hcomma]
      exact runs_pure ⟨hps, by simp⟩
  | error reason =>
    apply runs_bind (keeps_pushErrorHere hq.1.good _)
    intro _ s hs
    have hps := hq.1.trans hs
    have hle' := hps.remaining_le
    apply runs_bind (keeps_skipUntil _ rfl hps.good (W.lt_turns (by omega)))
    intro _ t ht
    have hpt := hps.trans ht
    apply runs_bind (runs_ifTokenBump .TkComma (by simp) hpt.good)
    intro comma u hu
    apply runs_pure
    refine ⟨hpt.trans hu.1, ?_⟩
    intro hcomma
    exact Nat.lt_of_le_of_lt hpt.index_le (hu.2.1 hcomma)

/-- Arguments; where a call starts, they eat something. -/
theorem Works.runs_parseArgs (W : Works R a b) (h : Good p) (ha : p.remaining ≤ a) :
    Runs (parseArgs R) p fun _ q =>
      Step p q ∧ (isCallStart p.currentToken = true → p.tokenIndex < q.tokenIndex) := by
  unfold parseArgs
  apply runs_bind (runs_mark h .CallArgList)
  intro m q hq
  have hcur := hq.2.current_eq h
  have hle := hq.2.1.remaining_le
  -- a node closed behind what its part ate
  have hclose : ∀ r, Moved q r → Runs (do
      let cm ← m.complete
      pure (.ok cm) : Parse ParseResult) r fun _ s =>
        Step p s ∧ (isCallStart p.currentToken = true → p.tokenIndex < s.tokenIndex) := by
    intro r hr
    apply (hq.1.inside hr).complete.mono
    intro _ s hs
    exact ⟨hs.1.1, fun _ => hs.1.2⟩
  apply runs_bind_currentToken
  split
  case h_1 htoken =>
      apply runs_bind (runs_rulesBump hq.1.good (by rw [htoken]; simp))
      intro _ r hr
      have hlt := hr.remaining_lt
      apply runs_bind_atToken .TkRightParen
      intro closing _
      have hargs : Keeps (loop .outOfTurns (argStep R) R.turns ()) r := by
        apply keeps_stepLoop () hr.1.good (W.lt_turns (by omega))
        intro _ s hs
        have hle' := hs.remaining_le
        exact W.runs_argStep hs.good (by omega)
      apply runs_bind (keeps_onlyIf hr.1.good fun _ => hargs)
      intro _ s hs
      apply runs_bind (keeps_bumpOrError .TkRightParen (by simp) _ hs.good)
      intro _ t ht
      exact hclose t (hr.trans_step (hs.trans ht))
  case h_2 htoken =>
      apply runs_bind (W.runs_parseTableExpr hq.1.good (by rw [htoken]; simp) (by omega))
      intro r s hs
      cases r with
      | ok cm => exact hclose s hs.1
      | error reason =>
        apply runs_bind (keeps_pushErrorHere hs.1.1.good _)
        intro _ t ht
        apply runs_bind (runs_complete (hq.1.inside (hs.1.trans_step ht)).toOpened)
        intro cm u hu
        apply runs_pure
        refine ⟨hu.1, fun _ => ?_⟩
        rw [hu.2.1]
        exact (hq.1.inside (hs.1.trans_step ht)).moved
  case h_3 htoken =>
      apply runs_bind (runs_parseTokenNode _ hq.1.good (by rw [htoken]; simp))
      intro _ r hr
      exact hclose r hr.1
  case h_4 htoken =>
      apply runs_bind (runs_parseTokenNode _ hq.1.good (by rw [htoken]; simp))
      intro _ r hr
      exact hclose r hr.1
  case h_5 hparen hbrace hstring hlong =>
      apply runs_bind (keeps_pushErrorHere hq.1.good _)
      intro _ r hr
      apply runs_bind (runs_complete (hq.1.trans hr))
      intro cm s hs
      apply runs_pure
      refine ⟨hs.1, ?_⟩
      intro hcall
      rw [← hcur] at hcall
      simp only [isCallStart, Bool.or_eq_true, beq_iff_eq] at hcall
      tauto

theorem runs_expectOrFail (token : LuaTokenKind) (hne : token ≠ .TkEof) (message : String)
    (range : SourceRange) (h : Good p) : Keeps (expectOrFail R token message range) p := by
  unfold expectOrFail
  apply (keeps_expectToken token hne h).bind
  intro r q hq _
  cases r with
  | ok _ => exact keeps_pure hq.good _
  | error reason =>
    apply (keeps_pushError hq.good message range).bind
    intro _ s hs _
    exact keeps_pure hs.good _

theorem Works.keeps_exprOrFail (W : Works R a b) (message : String) (range : SourceRange)
    (h : Good p) (ha : p.remaining < a) : Keeps (exprOrFail R message range) p := by
  unfold exprOrFail
  apply (Parsed.keeps (W.runs_parseExpr h ha)).bind
  intro r q hq _
  cases r with
  | ok _ => exact keeps_pure hq.good _
  | error reason =>
    apply (keeps_pushError hq.good message range).bind
    intro _ s hs _
    exact keeps_pure hs.good _

/-- The tokens an index starts with. -/
def isIndexStart (token : LuaTokenKind) : Bool :=
  token == .TkDot || token == .TkColon || token == .TkLeftBracket

/-- An index; where one starts, it eats something. -/
theorem Works.runs_parseIndexStruct (W : Works R a b) (h : Good p) (ha : p.remaining ≤ a) :
    Runs (parseIndexStruct R) p fun _ q =>
      Step p q ∧ (isIndexStart p.currentToken = true → p.tokenIndex < q.tokenIndex) := by
  unfold parseIndexStruct
  apply runs_bind_currentTokenRange
  intro range
  apply runs_bind_currentToken
  -- what follows the token an index starts with
  have hrest : ∀ {α : Type} {f : Parse α}, p.currentToken ≠ .TkEof →
      (∀ q, Moved p q → Keeps f q) → Runs (do
        R.bump
        f) p fun _ q => Step p q
          ∧ (isIndexStart p.currentToken = true → p.tokenIndex < q.tokenIndex) := by
    intro α f hne hf
    apply runs_bind (runs_rulesBump h hne)
    intro _ q hq
    apply (hf q hq).mono
    intro _ r hr
    exact ⟨(hq.trans_step hr).1, fun _ => (hq.trans_step hr).2⟩
  split
  case h_1 htoken =>
      apply hrest (by rw [htoken]; simp)
      intro q hq
      have hlt := hq.remaining_lt
      apply (W.keeps_exprOrFail _ range hq.1.good (by omega)).propagate
      intro _ r hr
      exact runs_expectOrFail .TkRightBracket (by simp) _ range hr.good
  case h_2 htoken =>
      apply hrest (by rw [htoken]; simp)
      intro q hq
      exact runs_expectOrFail .TkName (by simp) _ range hq.1.good
  case h_3 htoken =>
      apply hrest (by rw [htoken]; simp)
      intro q hq
      apply runs_bind_currentTokenRange
      intro nameRange
      apply (runs_expectOrFail .TkName (by simp) _ range hq.1.good).propagate
      intro _ r hr
      apply runs_bind_currentToken
      split_ifs
      · exact keeps_pure hr.good _
      · apply (keeps_pushError hr.good _ nameRange).bind
        intro _ s hs _
        exact keeps_pure hs.good _
  case h_4 hbracket hdot hcolon =>
      apply runs_bind (keeps_pushErrorHere h _)
      intro _ q hq
      apply runs_pure
      refine ⟨hq, ?_⟩
      intro hindex
      simp only [isIndexStart, Bool.or_eq_true, beq_iff_eq] at hindex
      tauto

theorem Works.runs_parseNameOrSpecialFunction (W : Works R a b) (h : Good p)
    (hne : p.currentToken ≠ .TkEof) (ha : p.remaining ≤ a) :
    Runs (parseNameOrSpecialFunction R) p (Made p) := by
  unfold parseNameOrSpecialFunction
  apply runs_bind (runs_mark h .NameExpr)
  intro m q hq
  have hcur : q.currentToken ≠ .TkEof := by
    rw [hq.2.current_eq h]
    exact hne
  apply runs_bind (runs_currentTokenText hq.1.good hcur)
  intro text q' hq'
  rw [hq']
  apply runs_bind_get
  apply runs_bind (runs_rulesBump hq.1.good hcur)
  intro _ r hr
  have hin := hq.1.inside hr
  apply runs_bind (runs_complete hin.toOpened)
  intro cm s hs
  have hmoved : Moved p s := ⟨hs.1, by rw [hs.2.1]; exact hin.moved⟩
  have hmade : Made p (.ok cm) s := by
    refine ⟨hmoved, ?_⟩
    exact nodeAt_ok hs.2.2
  by_cases hkind : specialKind (q.parseConfig.getSpecialFunction text) = .None
  · rw [if_pos hkind]
    exact runs_pure hmade
  rw [if_neg hkind]
  apply runs_bind_currentToken
  split_ifs
  · apply runs_bind (runs_precede hs.1.good hs.2.2 _)
    intro m' t ht
    have hlt := (hmoved.trans_step ht.2.1).remaining_lt
    apply ht.1.then ((W.runs_parseArgs ht.1.good (by omega)).mono fun _ _ hu => hu.1)
    intro r' u hu
    apply (hu.runs_completeWith r').mono
    intro r'' v hv
    exact ⟨hmoved.trans_step hv.1, hv.2.2⟩
  · exact runs_pure hmade

theorem Works.runs_suffixStep (W : Works R a b) (r : ParseResult) (h : Good p)
    (ha : p.remaining ≤ a) (hr : NodeAt r p) :
    Runs (suffixStep R r) p (NodeTurn p) := by
  cases r with
  | error reason => exact runs_pure ⟨.refl h, hr, by simp⟩
  | ok cm =>
    have hcm := hr cm rfl
    -- the node around what comes before and what the suffix is
    have hsuffix : ∀ {α : Type} {f : Parse (Except ParseFailReason α)} {kind : LuaSyntaxKind},
        (∀ q, Still p q → Runs f q fun _ s => Moved q s) → Runs (do
          let m ← cm.precede kind
          let r ← f
          let r ← completeWith m r
          pure (true, r) : Parse (Bool × ParseResult)) p (NodeTurn p) := by
      intro α f kind hf
      apply runs_bind (runs_precede h hcm kind)
      intro m q hq
      apply runs_bind (hf q hq.2)
      intro r s hs
      have hin := hq.1.inside hs
      apply runs_bind (hin.runs_completeWith r)
      intro r' t ht
      exact runs_pure ⟨ht.1.1, ht.2, fun _ => ht.1.2⟩
    have hindex : isIndexStart p.currentToken = true → ∀ q, Still p q →
        Runs (parseIndexStruct R) q fun _ s => Moved q s := by
      intro htoken q hq
      have hle := hq.1.remaining_le
      apply (W.runs_parseIndexStruct hq.1.good (by omega)).mono
      intro _ s hs
      exact ⟨hs.1, hs.2 (by rw [hq.current_eq h]; exact htoken)⟩
    have hcall : isCallStart p.currentToken = true → ∀ q, Still p q →
        Runs (parseArgs R) q fun _ s => Moved q s := by
      intro htoken q hq
      have hle := hq.1.remaining_le
      apply (W.runs_parseArgs hq.1.good (by omega)).mono
      intro _ s hs
      exact ⟨hs.1, hs.2 (by rw [hq.current_eq h]; exact htoken)⟩
    unfold suffixStep
    apply runs_bind_currentToken
    split
    case h_8 => exact runs_pure ⟨.refl h, hr, by simp⟩
    case h_1 htoken => exact hsuffix (hindex (by rw [htoken]; rfl))
    case h_2 htoken => exact hsuffix (hindex (by rw [htoken]; rfl))
    case h_3 htoken => exact hsuffix (hindex (by rw [htoken]; rfl))
    case h_4 htoken => exact hsuffix (hcall (by rw [htoken]; rfl))
    case h_5 htoken => exact hsuffix (hcall (by rw [htoken]; rfl))
    case h_6 htoken => exact hsuffix (hcall (by rw [htoken]; rfl))
    case h_7 htoken => exact hsuffix (hcall (by rw [htoken]; rfl))

theorem Works.runs_parseParenExpr (W : Works R a b) (h : Good p) (hne : p.currentToken ≠ .TkEof)
    (ha : p.remaining ≤ a) : Runs (parseParenExpr R) p (Made p) := by
  unfold parseParenExpr
  apply runs_markRangeBump _ h hne
  intro m range q hin hlt
  apply hin.then (W.keeps_exprOrFail _ range hin.good (by omega))
  intro result s hin _
  cases result with
  | ok _ =>
    apply hin.then (keeps_bumpOrErrorAt .TkRightParen (by simp) _ range hin.good)
    intro _ t hin _
    exact hin.runs_completeWith _
  | error reason => exact hin.runs_completeWith _

theorem Works.runs_parsePrimaryExpr (W : Works R a b) (h : Good p) (ha : p.remaining ≤ a) :
    Runs (parsePrimaryExpr R) p (Parsed p) := by
  unfold parsePrimaryExpr
  apply runs_bind_currentToken
  split
  case h_1 htoken =>
      exact Made.runs_parsed
        (W.runs_parseNameOrSpecialFunction h (by rw [htoken]; simp) ha)
  case h_2 htoken => exact Made.runs_parsed (W.runs_parseParenExpr h (by rw [htoken]; simp) ha)
  case h_3 =>
      apply runs_bind (keeps_pushErrorHere h _)
      intro _ q hq
      exact runs_pure (parsed_error hq _)

/-- A loop over the parts behind a node keeps what the node ate. -/
theorem Parsed.then_loop {cm : CompleteMarker} {body : ParseResult → Parse (Bool × ParseResult)}
    {turns : Nat} (h : Parsed p (.ok cm) q) (hturns : q.remaining < turns)
    (hbody : ∀ r s, Step q s → NodeAt r s → Runs (body r) s (NodeTurn s)) :
    Runs (loop .outOfTurns body turns (.ok cm)) q (Parsed p) := by
  have hok := h.2 cm rfl
  have hnode : NodeAt (.ok cm) q := by
    exact nodeAt_ok hok.2
  apply (runs_stepLoop NodeAt (.ok cm) h.1.good hturns hnode hbody).mono
  intro r s hs
  refine ⟨h.1.trans hs.1, ?_⟩
  intro cm' hcm
  exact ⟨Nat.lt_of_lt_of_le hok.1 hs.1.index_le, hs.2 cm' hcm⟩

theorem Works.runs_parseSuffixedExpr (W : Works R a b) (h : Good p) (ha : p.remaining ≤ a) :
    Runs (parseSuffixedExpr R) p (Parsed p) := by
  unfold parseSuffixedExpr
  apply runs_propagate (W.runs_parsePrimaryExpr h ha)
  · intro cm q hq
    have hle := hq.1.remaining_le
    apply hq.then_loop (W.lt_turns (by omega))
    intro r s hs hr
    have hle' := hs.remaining_le
    exact W.runs_suffixStep r hs.good (by omega) hr
  · intro reason q hq
    exact hq

/-! ## §5. Expressions -/

theorem Works.runs_parseSimpleExpr (W : Works R a b) (h : Good p) (ha : p.remaining ≤ a)
    (hb : p.remaining ≤ b) : Runs (parseSimpleExpr R) p (Parsed p) := by
  unfold parseSimpleExpr
  apply runs_bind_currentToken
  split
  case h_10 htoken =>
      exact Made.runs_parsed (W.runs_parseTableExpr h (by rw [htoken]; simp) ha)
  case h_11 htoken => exact W.runs_parseClosureExpr h htoken ha hb
  case h_12 => exact W.runs_parseSuffixedExpr h ha
  case h_13 => exact W.runs_parseSuffixedExpr h ha
  case h_14 =>
      apply runs_bind (keeps_pushErrorHere h _)
      intro _ q hq
      exact runs_pure (parsed_error hq _)
  all_goals
    rename_i htoken
    exact Made.runs_parsed (runs_parseTokenNode _ h (by rw [htoken]; simp))

theorem Works.runs_parseUnaryExpr (W : Works R a b) (h : Good p) (hne : p.currentToken ≠ .TkEof)
    (ha : p.remaining ≤ a) : Runs (parseUnaryExpr R) p (Made p) := by
  unfold parseUnaryExpr
  apply runs_bind (runs_mark h .UnaryExpr)
  intro m q hq
  apply runs_bind_currentTokenRange
  intro range
  apply runs_bind_currentToken
  apply runs_bind (runs_rulesBump hq.1.good (by rw [hq.2.current_eq h]; exact hne))
  intro _ r hr
  have hin := hq.1.inside hr
  have hlt := hin.remaining_lt
  apply hin.then (Parsed.keeps (W.subExpr _ r hin.good (by omega)))
  intro result s hin _
  apply hin.then (keeps_onError hin.good (keeps_pushError hin.good _ range))
  intro _ t hin _
  exact hin.complete

theorem Works.runs_binaryStep (W : Works R a b) (limit : Int) (r : ParseResult) (h : Good p)
    (ha : p.remaining ≤ a) (hr : NodeAt r p) :
    Runs (binaryStep R limit r) p (NodeTurn p) := by
  cases r with
  | error reason => exact runs_pure ⟨.refl h, hr, by simp⟩
  | ok cm =>
    unfold binaryStep
    apply runs_bind_currentToken
    dsimp only
    split_ifs with hop
    · have hne : p.currentToken ≠ .TkEof := by
        intro heof
        rw [heof] at hop
        exact hop.1 rfl
      apply runs_bind_currentTokenRange
      intro range
      apply runs_bind (runs_precede h (hr cm rfl) _)
      intro m q hq
      apply runs_bind (runs_rulesBump hq.1.good (by rw [hq.2.current_eq h]; exact hne))
      intro _ s hs
      have hin := hq.1.inside hs
      have hlt := hin.remaining_lt
      apply hin.then (Parsed.keeps (W.subExpr _ s hin.good (by omega)))
      intro result t hin _
      have hclose : ∀ u, Inside p m u → Runs (do
          let r ← completeWith m result
          pure (true, r) : Parse (Bool × ParseResult)) u fun r' q =>
            Step p q ∧ NodeAt r'.2 q ∧ (r'.1 = true → p.tokenIndex < q.tokenIndex) := by
        intro u hin
        apply runs_bind (hin.runs_completeWith result)
        intro r' v hv
        exact runs_pure ⟨hv.1.1, hv.2, fun _ => hv.1.2⟩
      cases result with
      | ok _ => exact hclose t hin
      | error reason =>
        apply hin.then (keeps_pushError hin.good _ range)
        intro _ u hin _
        exact hclose u hin
    · exact runs_pure ⟨.refl h, hr, by simp⟩

/-- **An expression rule whose calls work where less is ahead works here.** -/
theorem Works.runs_parseSubExpr (W : Works R a b) (limit : Int) (h : Good p)
    (ha : p.remaining ≤ a) (hb : p.remaining ≤ b) :
    Runs (parseSubExpr R limit) p (Parsed p) := by
  unfold parseSubExpr
  apply runs_bind (runs_parserStackExhausted h)
  intro exhausted q hq
  have hle := hq.1.remaining_le
  split_ifs
  · apply runs_bind (keeps_pushErrorHere hq.1.good _)
    intro _ r hr
    exact runs_pure (parsed_error (hq.1.trans hr) _)
  · apply runs_bind_currentToken
    have hfirst : Runs (if toUnaryOperator q.currentToken ≠ .OpNop then parseUnaryExpr R
        else parseSimpleExpr R) q (Parsed q) := by
      split_ifs with hop
      · apply Made.runs_parsed (W.runs_parseUnaryExpr hq.1.good ?_ (by omega))
        intro heof
        rw [heof] at hop
        exact hop rfl
      · exact W.runs_parseSimpleExpr hq.1.good (by omega) (by omega)
    apply runs_propagate hfirst
    · intro cm r hr
      have hpr : Parsed p (.ok cm) r := by
        refine ⟨hq.1.trans hr.1, ?_⟩
        intro cm' hcm
        have hcm' := hr.2 cm' hcm
        rw [hq.2] at hcm'
        exact hcm'
      have hle' := hpr.1.remaining_le
      apply hpr.then_loop (W.lt_turns (by omega))
      intro r' s hs hr'
      have hle'' := hs.remaining_le
      exact W.runs_binaryStep limit r' hs.good (by omega) hr'
    · intro reason r hr
      exact parsed_error (hq.1.trans hr.1) reason

end

end GluaLs.Syntax
