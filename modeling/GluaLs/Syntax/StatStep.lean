/-
  GluaLs.Syntax.StatStep — every statement rule returns, and one that makes a node eats
  something.
-/
import GluaLs.Syntax.ExprStep

namespace GluaLs.Syntax

open GluaLs.Lib

section

variable {R : Rules} {a b : Nat} {p q : LuaParser} {m : Marker}

/-! ## §1. Recovery -/

/-- Where the keyword is missing there is an error, and nothing is eaten. -/
theorem keeps_expectKeywordWithRecovery (expected : LuaTokenKind) (hne : expected ≠ .TkEof)
    (message : String) (h : Good p) : Keeps (expectKeywordWithRecovery R expected message) p := by
  unfold expectKeywordWithRecovery
  apply runs_bind_currentToken
  split_ifs with htoken
  · apply (keeps_bump h (by rw [htoken]; exact hne)).bind
    intro _ q hq _
    exact keeps_pure hq.good _
  · apply (keeps_pushErrorHere h message).bind
    intro _ q hq _
    exact keeps_pure hq.good _

/-- A turn on the way to the end of a block eats a token or leaves a level: with a token
    counted twice, it shrinks what is left. -/
theorem runs_blockEndStep (depth : Nat) (h : Good p) :
    Runs (blockEndStep R depth) p fun r q =>
      Step p q ∧ (r.1 = true → 2 * q.remaining + r.2 < 2 * p.remaining + depth) := by
  have hstay : ∀ d, Runs (pure (false, d) : Parse (Bool × Nat)) p fun r q =>
      Step p q ∧ (r.1 = true → 2 * q.remaining + r.2 < 2 * p.remaining + depth) := by
    intro d
    exact runs_pure ⟨.refl h, by simp⟩
  have heat : ∀ d, p.currentToken ≠ .TkEof → d ≤ depth + 1 → Runs (do
      R.bump
      pure (true, d) : Parse (Bool × Nat)) p fun r q =>
        Step p q ∧ (r.1 = true → 2 * q.remaining + r.2 < 2 * p.remaining + depth) := by
    intro d hne hd
    apply runs_bind (runs_rulesBump h hne)
    intro _ q hq
    have hlt := hq.remaining_lt
    apply runs_pure
    refine ⟨hq.1, fun _ => ?_⟩
    show 2 * q.remaining + d < 2 * p.remaining + depth
    omega
  unfold blockEndStep
  apply runs_bind_currentToken
  by_cases hstop : p.currentToken = .TkEof ∨ depth = 0
  · rw [if_pos hstop]
    exact hstay _
  rw [if_neg hstop]
  have hne : p.currentToken ≠ .TkEof := fun heof => hstop (.inl heof)
  split
  case h_6 htoken =>
      -- an inner `end` stays, and the level it ends is what shrinks
      apply runs_bind (keeps_onlyIf h fun _ => keeps_bump h hne)
      intro _ q hq
      have hle := hq.remaining_le
      apply runs_pure
      refine ⟨hq, fun _ => ?_⟩
      show 2 * q.remaining + (depth - 1) < 2 * p.remaining + depth
      omega
  case h_7 =>
      split_ifs
      · exact hstay _
      · exact heat _ hne (by omega)
  case h_8 =>
      split_ifs
      · exact hstay _
      · exact heat _ hne (by omega)
  case h_9 =>
      split_ifs
      · exact hstay _
      · exact heat _ hne (by omega)
  all_goals exact heat _ hne (by omega)

/-- The turns are not used up on the way to the end of a block. -/
theorem Works.keeps_recoverToBlockEnd (W : Works R a b) (h : Good p) (ha : p.remaining ≤ a) :
    Keeps (recoverToBlockEnd R) p := by
  have hturns := W.turns
  unfold recoverToBlockEnd
  apply Keeps.bind
  · apply runs_loop .outOfTurns (blockEndStep R) (fun _ q => Step p q)
      (fun d q => 2 * q.remaining + d)
    · intro d q hq
      apply (runs_blockEndStep d hq.good).mono
      intro r s hs
      split_ifs with hgo
      · exact ⟨hq.trans hs.1, hs.2 hgo⟩
      · exact hq.trans hs.1
    · exact .refl h
    · omega
  · intro _ q hq _
    exact keeps_pure hq.good _

theorem Works.keeps_expectEndKeyword (W : Works R a b) (range : SourceRange) (message : String)
    (h : Good p) (ha : p.remaining ≤ a) : Keeps (expectEndKeyword R range message) p := by
  unfold expectEndKeyword
  apply runs_bind_currentToken
  split_ifs with htoken
  · exact keeps_bump h (by rw [htoken]; simp)
  · apply (keeps_pushError h message range).bind
    intro _ q hq hle
    exact W.keeps_recoverToBlockEnd hq.good (by omega)

theorem keeps_recoverToKeywords (keywords : List LuaTokenKind) (h : Good p)
    (hturns : p.remaining < R.turns) : Keeps (recoverToKeywords R keywords) p :=
  keeps_skipUntil _ rfl h hturns

theorem keeps_reportAndRecover (message : String) (keywords : List LuaTokenKind) (h : Good p)
    (hturns : p.remaining < R.turns) : Keeps (reportAndRecover R message keywords) p := by
  unfold reportAndRecover
  apply (keeps_pushErrorHere h message).bind
  intro _ q hq _
  exact keeps_recoverToKeywords keywords hq.good (Nat.lt_of_le_of_lt hq.remaining_le hturns)

/-! ## §2. Lists -/

/-- A turn of a list that goes on behind a comma. -/
theorem runs_commaStep {β : Type} {more : Parse (Bool × β)} {done : β} (h : Good p)
    (hmore : ∀ q, Moved p q → Runs more q (Turn p)) :
    Runs (do
      let comma ← ifTokenBump R .TkComma
      if comma then more else pure (false, done)) p (Turn p) := by
  apply runs_bind (runs_ifTokenBump .TkComma (by simp) h)
  intro comma q hq
  split_ifs with hcomma
  · exact hmore q ⟨hq.1, hq.2.1 hcomma⟩
  · exact runs_pure ⟨hq.1, by simp⟩

theorem Works.runs_exprListStep (W : Works R a b) (r : Except String Unit) (h : Good p)
    (ha : p.remaining ≤ a) :
    Runs (exprListStep R r) p (Turn p) := by
  cases r with
  | error message => exact runs_pure ⟨.refl h, by simp⟩
  | ok _ =>
    apply runs_commaStep h
    intro q hmoved
    have hlt := hmoved.remaining_lt
    apply runs_bind (Parsed.keeps (W.runs_parseExpr hmoved.1.good (by omega)))
    intro result s hs
    have hps := hmoved.trans_step hs
    cases result with
    | ok cm | error reason => exact runs_pure ⟨hps.1, fun _ => hps.2⟩

theorem Works.keeps_exprListOrError (W : Works R a b) (message : String) (h : Good p)
    (ha : p.remaining < a) : Keeps (exprListOrError R message) p := by
  have hlist : Keeps (parseExprListImpl R) p := by
    unfold parseExprListImpl
    apply (Parsed.keeps (W.runs_parseExpr h ha)).bind
    intro result q hq hle
    cases result with
    | ok cm =>
      apply keeps_stepLoop _ hq.good (W.lt_turns (by omega))
      intro r s hs
      have hle' := hs.remaining_le
      exact W.runs_exprListStep r hs.good (by omega)
    | error reason => exact keeps_pure hq.good _
  unfold exprListOrError
  apply hlist.bind
  intro r q hq _
  exact keeps_onError hq.good (keeps_pushErrorHere hq.good message)

theorem keeps_parseAttrib (h : Good p) (hne : p.currentToken ≠ .TkEof) :
    Keeps (parseAttrib R) p := by
  unfold parseAttrib
  apply runs_bind (runs_mark h .Attribute)
  intro m q hq
  apply runs_bind_currentTokenRange
  intro range
  apply hq.1.then (keeps_bump hq.1.good (by rw [hq.2.current_eq h]; exact hne))
  intro _ r hr
  apply hr.then (keeps_expectOrError .TkName (by simp) _ hr.good)
  intro _ s hs
  apply hs.then (keeps_expectOrError .TkGt (by simp) _ hs.good)
  intro _ t ht
  apply runs_bind_get
  apply ht.then (keeps_onlyIf ht.good fun _ => keeps_pushError ht.good _ range)
  intro _ u hu
  exact hu.close _

theorem keeps_parseLocalName (supportAttrib : Bool) (h : Good p) :
    Keeps (parseLocalName R supportAttrib) p := by
  unfold parseLocalName
  apply runs_bind (runs_mark h .LocalName)
  intro m q hq
  apply hq.1.then (keeps_expectOrError .TkName (by simp) _ hq.1.good)
  intro _ r hr
  have hclose : ∀ s, Opened p m s → Runs (do
      let cm ← m.complete
      pure (.ok cm) : Parse ParseResult) s fun _ t => Step p t := by
    intro s hs
    exact hs.close _
  apply runs_bind_currentToken
  split_ifs with hattrib
  · apply runs_propagate (keeps_parseAttrib (R := R) hr.good (by rw [hattrib.2]; simp))
    · intro _ s hs
      exact hclose s (hr.trans hs)
    · intro reason s hs
      exact (hr.trans hs).step
  · exact hclose r hr

theorem runs_nameStep (supportAttrib : Bool) (h : Good p) :
    Runs (nameStep R supportAttrib ()) p (Turn p) := by
  apply runs_commaStep h
  intro q hmoved
  apply runs_bind (keeps_parseLocalName supportAttrib hmoved.1.good)
  intro r s hs
  apply runs_bind (keeps_onError hs.good (keeps_pushErrorHere hs.good _))
  intro _ t ht
  have hpt := hmoved.trans_step (hs.trans ht)
  exact runs_pure ⟨hpt.1, fun _ => hpt.2⟩

theorem keeps_parseVariableNameList (supportAttrib : Bool) (h : Good p)
    (hturns : p.remaining < R.turns) : Keeps (parseVariableNameList R supportAttrib) p := by
  unfold parseVariableNameList
  apply (keeps_parseLocalName supportAttrib h).propagate
  intro _ q hq
  apply Keeps.bind (keeps_stepLoop () hq.good (Nat.lt_of_le_of_lt hq.remaining_le hturns) ?_)
  · intro _ r hr _
    exact keeps_pure hr.good _
  · intro _ r hr
    exact runs_nameStep supportAttrib hr.good

/-! ## §3. Blocks and branches -/

/-- A statement ends with a semicolon or without one. -/
theorem Inside.runs_finishStat (h : Inside p m q) : Runs (finishStat R m) q (Parsed p) := by
  unfold finishStat
  apply h.then (keeps_ifTokenBump .TkSemicolon (by simp) h.good)
  intro _ r hin _
  exact Made.runs_parsed hin.complete

theorem Works.keeps_parseBlockUnless (W : Works R a b) (follow : LuaTokenKind → Bool)
    (h : Good p) (hb : p.remaining < b) : Keeps (parseBlockUnless R follow) p := by
  unfold parseBlockUnless
  apply runs_bind_currentToken
  split_ifs
  · exact keeps_pure h _
  · apply (W.keeps_parseBlock h hb).propagate
    intro _ q hq
    exact keeps_pure hq.good _

theorem Works.keeps_parseCondition (W : Works R a b) (message : String)
    (keywords : List LuaTokenKind) (h : Good p) (ha : p.remaining < a) :
    Keeps (parseCondition R message keywords) p := by
  unfold parseCondition
  apply (Parsed.keeps (W.runs_parseExpr h ha)).bind
  intro r q hq hle
  exact keeps_onError hq.good
    (keeps_reportAndRecover message keywords hq.good (W.lt_turns (by omega)))

theorem keeps_expectKeywordOrRecover (expected : LuaTokenKind) (hne : expected ≠ .TkEof)
    (message : String) (keywords : List LuaTokenKind) (h : Good p)
    (hturns : p.remaining < R.turns) :
    Keeps (expectKeywordOrRecover R expected message keywords) p := by
  unfold expectKeywordOrRecover
  apply (keeps_expectKeywordWithRecovery expected hne message h).bind
  intro found q hq _
  apply keeps_onlyIf hq.good
  intro _
  exact keeps_recoverToKeywords keywords hq.good (Nat.lt_of_le_of_lt hq.remaining_le hturns)

/-- The block a node ends with. -/
theorem Works.runs_lastBlock (W : Works R a b) (h : Inside p m q) (hb : q.remaining < b) :
    Runs (propagate (parseBlock R) fun _ => do
      let cm ← m.complete
      pure (.ok cm) : Parse ParseResult) q fun _ r => Moved p r := by
  apply runs_propagate (W.keeps_parseBlock h.good hb)
  · intro _ r hr
    apply (h.trans hr).complete.mono
    intro _ s hs
    exact hs.1
  · intro reason r hr
    exact ⟨(h.trans hr).step, (h.trans hr).moved⟩

theorem Works.runs_parseElseifClause (W : Works R a b) (h : Good p)
    (hne : p.currentToken ≠ .TkEof) (ha : p.remaining ≤ a) (hb : p.remaining ≤ b) :
    Runs (parseElseifClause R) p fun _ q => Moved p q := by
  unfold parseElseifClause
  apply runs_markBump _ h hne
  intro m q hin hlt
  apply hin.then (W.keeps_exprOrError _ hin.good (by omega))
  intro _ r hin _
  apply hin.then (keeps_expectKeywordWithRecovery .TkThen (by simp) _ hin.good)
  intro _ s hin hlt'
  exact W.runs_lastBlock hin (by omega)

theorem Works.runs_parseElseClause (W : Works R a b) (h : Good p)
    (hne : p.currentToken ≠ .TkEof) (hb : p.remaining ≤ b) :
    Runs (parseElseClause R) p fun _ q => Moved p q := by
  unfold parseElseClause
  apply runs_markBump _ h hne
  intro m q hin hlt
  exact W.runs_lastBlock hin (by omega)

/-- A turn that goes on has eaten an `elseif`. -/
theorem Works.runs_elseifStep (W : Works R a b) (r : Except ParseFailReason Unit) (h : Good p)
    (ha : p.remaining ≤ a) (hb : p.remaining ≤ b) :
    Runs (elseifStep R r) p (Turn p) := by
  cases r with
  | error reason => exact runs_pure ⟨.refl h, by simp⟩
  | ok _ =>
    unfold elseifStep
    apply runs_bind_atToken .TkElseIf
    intro atElseif hp'
    split_ifs with helseif
    · have hne : p.currentToken ≠ .TkEof := by
        rw [hp' helseif]
        simp
      have hclause : Runs (propagate (parseElseifClause R) fun _ => pure (.ok ()) :
          Parse (Except ParseFailReason Unit)) p fun _ q => Moved p q := by
        apply runs_propagate (W.runs_parseElseifClause h hne ha hb)
        · intro _ q hq
          exact runs_pure hq
        · intro reason q hq
          exact hq
      apply runs_bind hclause
      intro r q hq
      exact runs_pure ⟨hq.1, fun _ => hq.2⟩
    · exact runs_pure ⟨.refl h, by simp⟩

theorem Works.keeps_parseOptionalElse (W : Works R a b) (h : Good p) (hb : p.remaining ≤ b) :
    Keeps (parseOptionalElse R) p := by
  unfold parseOptionalElse
  apply runs_bind_atToken .TkElse
  intro atElse hp'
  split_ifs with helse
  · have hclause : Keeps (parseElseClause R) p := by
      apply (W.runs_parseElseClause h (by rw [hp' helse]; simp) hb).mono
      intro _ q hq
      exact hq.1
    apply hclause.propagate
    intro _ q hq
    exact keeps_pure hq.good _
  · exact keeps_pure h _

/-- The `end` of a statement and what closes it. -/
theorem Works.runs_endStat (W : Works R a b) (range : SourceRange) (message : String)
    (h : Inside p m q) (ha : q.remaining ≤ a) :
    Runs (do
      expectEndKeyword R range message
      finishStat R m) q (Parsed p) := by
  apply h.then (W.keeps_expectEndKeyword range message h.good ha)
  intro _ r hin _
  exact hin.runs_finishStat

section

variable (W : Works R a b) (h : Good p) (hne : p.currentToken ≠ .TkEof) (ha : p.remaining ≤ a)
  (hb : p.remaining ≤ b)
include W h hne ha hb

theorem Works.runs_parseIf : Runs (parseIf R) p (Parsed p) := by
  unfold parseIf
  apply runs_markRangeBump _ h hne
  intro m range q hin hlt
  apply hin.then (W.keeps_parseCondition _ _ hin.good (by omega))
  intro _ r hin hlt
  apply hin.then (keeps_expectKeywordOrRecover .TkThen (by simp) _ _ hin.good
    (W.lt_turns (by omega)))
  intro _ s hin hlt
  apply hin.propagate (W.keeps_parseBlockUnless _ hin.good (by omega))
  intro _ t hin hlt
  have helseifs : Keeps (loop .outOfTurns (elseifStep R) R.turns (.ok ())) t := by
    apply keeps_stepLoop _ hin.good (W.lt_turns (by omega))
    intro r u hu
    have hle := hu.remaining_le
    exact W.runs_elseifStep r hu.good (by omega) (by omega)
  apply hin.propagate helseifs
  intro _ u hin hlt
  apply hin.propagate (W.keeps_parseOptionalElse hin.good (by omega))
  intro _ v hin hlt
  exact W.runs_endStat range _ hin (by omega)

theorem Works.runs_parseWhile : Runs (parseWhile R) p (Parsed p) := by
  unfold parseWhile
  apply runs_markRangeBump _ h hne
  intro m range q hin hlt
  apply hin.then (W.keeps_parseCondition _ _ hin.good (by omega))
  intro _ r hin hlt
  apply hin.then (keeps_expectKeywordOrRecover .TkDo (by simp) _ _ hin.good
    (W.lt_turns (by omega)))
  intro _ s hin hlt
  apply hin.propagate (W.keeps_parseBlockUnless _ hin.good (by omega))
  intro _ t hin hlt
  exact W.runs_endStat range _ hin (by omega)

theorem Works.runs_parseDo : Runs (parseDo R) p (Parsed p) := by
  unfold parseDo
  apply runs_markRangeBump _ h hne
  intro m range q hin hlt
  apply hin.propagate (W.keeps_parseBlock hin.good (by omega))
  intro _ r hin hlt
  exact W.runs_endStat range _ hin (by omega)

end

/-! ## §4. Loops -/

theorem Works.keeps_parseNumericFor (W : Works R a b) (h : Good p)
    (hne : p.currentToken ≠ .TkEof) (ha : p.remaining < a) : Keeps (parseNumericFor R) p := by
  unfold parseNumericFor
  apply (keeps_bump h hne).bind
  intro _ q hq hle
  apply (W.keeps_exprOrError _ hq.good (by omega)).bind
  intro _ r hr hle
  apply (keeps_bumpOrError .TkComma (by simp) _ hr.good).bind
  intro _ s hs hle
  apply (W.keeps_exprOrError _ hs.good (by omega)).bind
  intro _ t ht hle
  apply (keeps_ifTokenBump .TkComma (by simp) ht.good).bind
  intro comma u hu hle
  exact keeps_onlyIf hu.good fun _ => W.keeps_exprOrError _ hu.good (by omega)

theorem runs_forNameStep (h : Good p) : Runs (forNameStep R ()) p (Turn p) := by
  apply runs_commaStep h
  intro q hmoved
  apply runs_bind (keeps_bumpOrError .TkName (by simp) _ hmoved.1.good)
  intro _ r hr
  have hpr := hmoved.trans_step hr
  exact runs_pure ⟨hpr.1, fun _ => hpr.2⟩

theorem Works.keeps_parseGenericFor (W : Works R a b) (h : Opened p m q) (ha : q.remaining < a) :
    Keeps (parseGenericFor R m) q := by
  unfold parseGenericFor
  apply (h.keeps_setKind _).bind
  intro _ r hr hle
  apply Keeps.bind (keeps_stepLoop () hr.good (W.lt_turns (by omega)) ?_)
  · intro _ s hs hle
    apply (keeps_bumpOrError .TkIn (by simp) _ hs.good).bind
    intro _ t ht hle
    exact W.keeps_exprListOrError _ ht.good (by omega)
  · intro _ s hs
    exact runs_forNameStep hs.good

theorem keeps_parseForName (h : Good p) (hturns : p.remaining < R.turns) :
    Keeps (parseForName R) p := by
  unfold parseForName
  apply runs_bind_currentToken
  split_ifs with hname
  · exact keeps_bump h (by rw [hname]; simp)
  · exact keeps_reportAndRecover _ _ h hturns

/-- Behind the first name `=`, `,` or `in` says which loop it is. -/
theorem Works.keeps_parseForHeader (W : Works R a b) (h : Opened p m q) (ha : q.remaining < a) :
    Keeps (parseForHeader R m) q := by
  unfold parseForHeader
  apply runs_bind_currentToken
  split
  case h_1 htoken => exact W.keeps_parseNumericFor h.good (by rw [htoken]; simp) ha
  case h_2 => exact W.keeps_parseGenericFor h ha
  case h_3 => exact W.keeps_parseGenericFor h ha
  case h_4 => exact keeps_pushErrorHere h.good _

theorem Works.runs_parseFor (W : Works R a b) (h : Good p) (hne : p.currentToken ≠ .TkEof)
    (ha : p.remaining ≤ a) (hb : p.remaining ≤ b) : Runs (parseFor R) p (Parsed p) := by
  unfold parseFor
  apply runs_markRangeBump _ h hne
  intro m range q hin hlt
  apply hin.then (keeps_parseForName hin.good (W.lt_turns (by omega)))
  intro _ r hin hlt
  apply hin.then (W.keeps_parseForHeader hin.toOpened (by omega))
  intro _ s hin hlt
  apply hin.then (keeps_expectKeywordOrRecover .TkDo (by simp) _ _ hin.good
    (W.lt_turns (by omega)))
  intro _ t hin hlt
  apply hin.propagate (W.keeps_parseBlockUnless _ hin.good (by omega))
  intro _ u hin hlt
  exact W.runs_endStat range _ hin (by omega)

theorem Works.runs_parseRepeat (W : Works R a b) (h : Good p) (hne : p.currentToken ≠ .TkEof)
    (ha : p.remaining ≤ a) (hb : p.remaining ≤ b) : Runs (parseRepeat R) p (Parsed p) := by
  unfold parseRepeat
  apply runs_markBump _ h hne
  intro m q hin hlt
  apply hin.propagate (W.keeps_parseBlock hin.good (by omega))
  intro _ r hin _
  apply hin.then (keeps_expectOrError .TkUntil (by simp) _ hin.good)
  intro _ s hin hlt
  apply hin.then (W.keeps_exprOrError _ hin.good (by omega))
  intro _ t hin _
  exact hin.runs_finishStat

/-! ## §5. Functions and locals -/

theorem runs_funcNamePart (cm : CompleteMarker) (message : String) (h : Good p)
    (hne : p.currentToken ≠ .TkEof) (hcm : IsStart p.events cm.start) :
    Runs (funcNamePart R cm message) p fun cm' q => Moved p q ∧ IsStart q.events cm'.start := by
  unfold funcNamePart
  apply runs_bind (runs_precede h hcm .IndexExpr)
  intro m q hq
  apply runs_bind (runs_rulesBump hq.1.good (by rw [hq.2.current_eq h]; exact hne))
  intro _ r hr
  have hin := hq.1.inside hr
  apply hin.then (keeps_expectOrError .TkName (by simp) message hin.good)
  intro _ s hin _
  apply (runs_complete hin.toOpened).mono
  intro cm' t ht
  exact ⟨⟨ht.1, by rw [ht.2.1]; exact hin.moved⟩, ht.2.2⟩

/-- Each part of a name takes the parts before it in. -/
theorem runs_funcNameStep (cm : CompleteMarker) (h : Good p) (hcm : IsStart p.events cm.start) :
    Runs (funcNameStep R cm) p fun r q => Step p q ∧ IsStart q.events r.2.start
      ∧ (r.1 = true → p.tokenIndex < q.tokenIndex) := by
  unfold funcNameStep
  apply runs_bind_atToken .TkDot
  intro dot hp'
  split_ifs with hdot
  · apply runs_bind (runs_funcNamePart cm _ h (by rw [hp' hdot]; simp) hcm)
    intro cm' q hq
    exact runs_pure ⟨hq.1.1, hq.2, fun _ => hq.1.2⟩
  · exact runs_pure ⟨.refl h, hcm, by simp⟩

theorem keeps_parseFuncName (h : Good p) (hturns : p.remaining < R.turns) :
    Keeps (parseFuncName R) p := by
  unfold parseFuncName
  apply runs_bind (runs_mark h .NameExpr)
  intro m q hq
  apply hq.1.then (keeps_expectToken .TkName (by simp) hq.1.good)
  intro result r hr
  cases result with
  | error reason =>
    apply hr.then (keeps_pushErrorHere hr.good _)
    intro _ s hs
    exact runs_pure hs.step
  | ok _ =>
    apply runs_bind (runs_complete hr)
    intro cm s hs
    have hlt := Nat.lt_of_le_of_lt hs.1.remaining_le hturns
    apply runs_bind (runs_stepLoop (fun cm t => IsStart t.events cm.start) cm hs.1.good hlt
      hs.2.2 fun cm' t ht hcm' => runs_funcNameStep cm' ht.good hcm')
    intro cm' t ht
    have hpt := hs.1.trans ht.1
    apply runs_bind_atToken .TkColon
    intro colon ht'
    split_ifs with hcolon
    · apply runs_bind (runs_funcNamePart cm' _ hpt.good (by rw [ht' hcolon]; simp) ht.2)
      intro cm'' u hu
      exact runs_pure (hpt.trans hu.1.1)
    · exact runs_pure hpt

theorem Works.runs_parseFunction (W : Works R a b) (h : Good p) (hne : p.currentToken ≠ .TkEof)
    (ha : p.remaining ≤ a) (hb : p.remaining ≤ b) : Runs (parseFunction R) p (Parsed p) := by
  unfold parseFunction
  apply runs_markBump _ h hne
  intro m q hin hlt
  apply hin.propagate (keeps_parseFuncName hin.good (W.lt_turns (by omega)))
  intro _ r hin hlt
  apply hin.propagate (W.keeps_parseClosureExpr hin.good (by omega) (by omega))
  intro _ s hin _
  exact hin.runs_finishStat

theorem Works.keeps_parseLocalFunction (W : Works R a b) (h : Opened p m q)
    (hne : q.currentToken ≠ .TkEof) (ha : q.remaining ≤ a) (hb : q.remaining < b) :
    Keeps (parseLocalFunction R m) q := by
  unfold parseLocalFunction
  apply (keeps_bump h.good hne).bind
  intro _ r hr hle
  apply ((h.trans hr).keeps_setKind _).bind
  intro _ s hs hle
  apply (keeps_parseLocalName false hs.good).bind
  intro result t ht hle
  apply (keeps_onError ht.good (keeps_pushErrorHere ht.good _)).bind
  intro _ u hu hle
  apply (W.keeps_parseClosureExpr hu.good (by omega) (by omega)).bind
  intro result v hv _
  exact keeps_onError hv.good (keeps_pushErrorHere hv.good _)

theorem Works.keeps_parseValues (W : Works R a b) (message : String) (h : Good p)
    (hne : p.currentToken ≠ .TkEof) (ha : p.remaining < a) : Keeps (parseValues R message) p := by
  unfold parseValues
  apply (keeps_bump h hne).bind
  intro _ q hq hle
  exact W.keeps_exprListOrError message hq.good (by omega)

/-- An assignment operator is no end of file. -/
theorem ne_eof_of_isAssignOp {token : LuaTokenKind} (h : isAssignOp token = true) :
    token ≠ .TkEof := by
  intro heof
  rw [heof] at h
  simp [isAssignOp] at h

theorem Works.runs_parseLocal (W : Works R a b) (h : Good p) (hne : p.currentToken ≠ .TkEof)
    (ha : p.remaining ≤ a) (hb : p.remaining ≤ b) : Runs (parseLocal R) p (Parsed p) := by
  unfold parseLocal
  apply runs_markBump _ h hne
  intro m q hin hlt
  apply runs_bind_currentToken
  split
  case h_1 htoken =>
      apply hin.then (W.keeps_parseLocalFunction hin.toOpened (by rw [htoken]; simp) (by omega)
        (by omega))
      intro _ r hin _
      exact hin.runs_finishStat
  case h_2 =>
      apply hin.propagate (keeps_parseVariableNameList false hin.good (W.lt_turns (by omega)))
      intro _ r hin hlt
      apply runs_bind_currentToken
      apply hin.then (keeps_onlyIf hin.good fun hop =>
        W.keeps_parseValues _ hin.good (ne_eof_of_isAssignOp hop) (by omega))
      intro _ s hin _
      exact hin.runs_finishStat
  case h_3 =>
      apply hin.then (keeps_pushErrorHere hin.good _)
      intro _ r hin _
      exact runs_pure (parsed_error hin.step _)

/-! ## §6. Simple statements -/

theorem Works.runs_parseReturn (W : Works R a b) (h : Good p) (hne : p.currentToken ≠ .TkEof)
    (ha : p.remaining ≤ a) : Runs (parseReturn R) p (Parsed p) := by
  unfold parseReturn
  apply runs_markBump _ h hne
  intro m q hin hlt
  apply runs_bind_currentToken
  apply hin.then (keeps_onlyIf hin.good fun _ =>
    W.keeps_exprListOrError _ hin.good (by omega))
  intro _ r hin _
  exact hin.runs_finishStat

theorem runs_parseBreak (h : Good p) (hne : p.currentToken ≠ .TkEof) :
    Runs (parseBreak R) p (Parsed p) := by
  unfold parseBreak
  apply runs_markBump _ h hne
  intro m q hin _
  exact hin.runs_finishStat

theorem runs_parseGoto (h : Good p) (hne : p.currentToken ≠ .TkEof) :
    Runs (parseGoto R) p (Parsed p) := by
  unfold parseGoto
  apply runs_markBump _ h hne
  intro m q hin _
  apply hin.then (keeps_expectOrError .TkName (by simp) _ hin.good)
  intro _ r hin _
  exact hin.runs_finishStat

theorem runs_parseLabelStat (h : Good p) (hne : p.currentToken ≠ .TkEof) :
    Runs (parseLabelStat R) p (Parsed p) := by
  unfold parseLabelStat
  apply runs_markBump _ h hne
  intro m q hin _
  apply hin.then (keeps_expectOrError .TkName (by simp) _ hin.good)
  intro _ r hin _
  apply hin.then (keeps_expectOrError .TkDbColon (by simp) _ hin.good)
  intro _ s hin _
  exact Made.runs_parsed hin.complete

theorem Works.runs_variableStep (W : Works R a b) (r : Except ParseFailReason Unit) (h : Good p)
    (ha : p.remaining ≤ a) :
    Runs (variableStep R r) p (Turn p) := by
  cases r with
  | error reason => exact runs_pure ⟨.refl h, by simp⟩
  | ok _ =>
    apply runs_commaStep h
    intro q hmoved
    have hlt := hmoved.remaining_lt
    apply runs_bind (Parsed.keeps (W.runs_parseExpr hmoved.1.good (by omega)))
    intro result s hs
    have hps := hmoved.trans_step hs
    have hreport : ∀ message x, Runs (do
        pushErrorHere message
        pure (true, x) : Parse (Bool × Except ParseFailReason Unit)) s (Turn p) := by
      intro message x
      apply runs_bind (keeps_pushErrorHere hs.good message)
      intro _ t ht
      exact runs_pure ⟨(hps.trans_step ht).1, fun _ => (hps.trans_step ht).2⟩
    cases result with
    | ok cm =>
      dsimp only
      split_ifs
      · exact runs_pure ⟨hps.1, fun _ => hps.2⟩
      · exact hreport _ _
    | error reason => exact hreport _ _

theorem Works.runs_parseAssignment (W : Works R a b) (h : Inside p m q) (ha : q.remaining < a) :
    Runs (parseAssignment R m) q (Parsed p) := by
  unfold parseAssignment
  apply runs_bind_currentToken
  split_ifs with hop
  · apply h.then (W.keeps_parseValues _ h.good (ne_eof_of_isAssignOp hop) ha)
    intro _ r hin _
    exact hin.runs_finishStat
  · apply runs_bind (runs_previousTokenRange h.good)
    intro range q' hq'
    rw [hq']
    apply h.then (keeps_pushError h.good _ range)
    intro _ r hin _
    exact runs_pure (parsed_error hin.step _)

/-- The first expression says what kind of statement it is. -/
theorem Works.runs_parseAssignOrExprOrGlobalStat (W : Works R a b) (h : Good p)
    (ha : p.remaining < a) : Runs (parseAssignOrExprOrGlobalStat R) p (Parsed p) := by
  unfold parseAssignOrExprOrGlobalStat
  apply runs_bind (runs_mark h .AssignStat)
  intro m q hq
  have hle := hq.2.1.remaining_le
  apply runs_bind_currentTokenRange
  intro range
  apply runs_bind (W.runs_parseExpr hq.1.good (by omega))
  intro result r hr
  cases result with
  | error reason =>
    apply hq.1.trans hr.1 |>.then (keeps_pushError hr.1.good _ range)
    intro _ s hs
    exact runs_pure (parsed_error hs.step _)
  | ok cm =>
    have hin : Inside p m r := hq.1.inside ⟨hr.1, (hr.2 cm rfl).1⟩
    have hlt := hin.remaining_lt
    dsimp only
    -- a call, what cannot be assigned to, or the first of the variables
    split_ifs
    · apply hin.then (hin.toOpened.keeps_setKind _)
      intro _ s hin _
      exact hin.runs_finishStat
    · apply hin.then (keeps_pushError hin.good _ range)
      intro _ s hin _
      exact runs_pure (parsed_error hin.step _)
    · have hvars : Keeps (loop .outOfTurns (variableStep R) R.turns (.ok ())) r := by
        apply keeps_stepLoop _ hin.good (W.lt_turns (by omega))
        intro x s hs
        have hle := hs.remaining_le
        exact W.runs_variableStep x hs.good (by omega)
      apply hin.propagate hvars
      intro _ s hin hlt
      exact W.runs_parseAssignment hin (by omega)

/-- **Every statement is parsed, and one that makes a node has eaten something.** -/
theorem Works.runs_parseStat (W : Works R a b) (h : Good p) (hne : p.currentToken ≠ .TkEof)
    (ha : p.remaining < a) (hb : p.remaining ≤ b) : Runs (parseStat R) p (Parsed p) := by
  have ha' : p.remaining ≤ a := Nat.le_of_lt ha
  unfold parseStat
  apply runs_bind_currentToken
  split
  case h_1 => exact W.runs_parseIf h hne ha' hb
  case h_2 => exact W.runs_parseWhile h hne ha' hb
  case h_3 => exact W.runs_parseFor h hne ha' hb
  case h_4 => exact W.runs_parseFunction h hne ha' hb
  case h_5 => exact W.runs_parseLocal h hne ha' hb
  case h_6 => exact W.runs_parseReturn h hne ha'
  case h_7 => exact runs_parseBreak h hne
  case h_8 => exact W.runs_parseDo h hne ha' hb
  case h_9 => exact W.runs_parseRepeat h hne ha' hb
  case h_10 => exact runs_parseGoto h hne
  case h_11 => exact runs_parseLabelStat h hne
  case h_12 => exact Made.runs_parsed (runs_parseTokenNode _ h hne)
  case h_13 => exact W.runs_parseAssignOrExprOrGlobalStat h ha

end

end GluaLs.Syntax
