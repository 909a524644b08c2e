/-
  GluaLs.Syntax.ChunkStep — parsing a whole file ends, without panic, and eats every token
  once and in order.

  A failed statement leaves nodes open, which the recovery closes again; a list of
  statements goes on only where something was eaten, and the chunk eats what no statement
  took.  The rules are tied by induction on how deep they may call each other: with `k`
  tokens ahead, `2 * k` nested calls are enough for an expression and one more for
  statements.
-/
import GluaLs.Syntax.StatStep

namespace GluaLs.Syntax

open GluaLs.Lib

section

variable {R : Rules} {a b : Nat} {p q : LuaParser} {m : Marker}

/-! ## §1. Statement lists -/

theorem runs_pushNodeEnds (n : Nat) : ∀ q : LuaParser, Good q → n ≤ q.markLevel →
    Runs (pushNodeEnds n) q fun _ r => Good r ∧ r.tokens = q.tokens
      ∧ r.tokenIndex = q.tokenIndex ∧ r.markLevel + n = q.markLevel
      ∧ ∀ i, IsStart q.events i → IsStart r.events i := by
  induction n with
  | zero =>
    intro q hq _
    exact runs_pure ⟨hq, rfl, rfl, rfl, fun _ hi => hi⟩
  | succ n ih =>
    intro q hq hn
    apply runs_bind (runs_pushNodeEnd hq (by omega))
    intro _ r hr
    obtain ⟨hgood, htokens, hindex, hlevel, hstarts⟩ := hr
    apply (ih r hgood (by omega)).mono
    intro _ s hs
    obtain ⟨hgood', htokens', hindex', hlevel', hstarts'⟩ := hs
    exact ⟨hgood', htokens'.trans htokens, hindex'.trans hindex, by omega,
      fun i hi => hstarts' i (hstarts i hi)⟩

/-- Closing the nodes a failed statement left open. -/
theorem runs_closeDownTo (h : Step p q) :
    Runs (closeDownTo p.markLevel) q fun _ r => Step p r ∧ r.tokenIndex = q.tokenIndex := by
  have hlevel := h.level_le
  unfold closeDownTo
  apply runs_bind_get
  rw [if_neg (by omega)]
  apply (runs_pushNodeEnds _ q h.good (by omega)).mono
  intro _ r hr
  obtain ⟨hgood, htokens, hindex, hlevel', hstarts⟩ := hr
  refine ⟨⟨hgood, htokens.trans h.tokens_eq, ?_, by omega, ?_⟩, hindex⟩
  · rw [hindex]
    exact h.index_le
  · intro i hi
    exact hstarts i (h.starts i hi)

/-- **A statement list goes on only where something was eaten.** -/
theorem Works.runs_statStep (W : Works R a b) (h : Good p) (ha : p.remaining < a)
    (hb : p.remaining ≤ b) :
    Runs (statStep R ()) p (Turn p) := by
  unfold statStep
  apply runs_bind_get
  split_ifs with hfollow
  · exact runs_pure ⟨.refl h, by simp⟩
  · have hne : p.currentToken ≠ .TkEof := by
      intro heof
      rw [heof] at hfollow
      exact hfollow rfl
    apply runs_bind (W.runs_parseStat h hne ha hb)
    intro result q hq
    cases result with
    | ok cm => exact runs_pure ⟨hq.1, fun _ => (hq.2 cm rfl).1⟩
    | error reason =>
      apply runs_bind (runs_closeDownTo hq.1)
      intro _ r hr
      have hle := hr.1.remaining_le
      apply runs_bind (keeps_skipUntil _ rfl hr.1.good (W.lt_turns (by omega)))
      intro _ s hs
      have hps := hr.1.trans hs
      apply runs_bind_get
      apply runs_pure
      refine ⟨hps, ?_⟩
      intro hgo
      have hindex := hps.index_le
      simp only [Bool.and_eq_true, bne_iff_ne] at hgo
      omega

theorem Works.keeps_parseStats (W : Works R a b) (h : Good p) (ha : p.remaining < a)
    (hb : p.remaining ≤ b) : Keeps (parseStats R) p := by
  unfold parseStats
  apply keeps_stepLoop () h (W.lt_turns (by omega))
  intro _ q hq
  have hle := hq.remaining_le
  exact W.runs_statStep hq.good (by omega) (by omega)

end

/-! ## §2. The rules call each other -/

/-- One more nested call: what works where less is ahead works here. -/
theorem Works.next {doc : DocParser} {turns depth a b a' b' : Nat}
    (W : Works (rules doc turns depth) a b) (hturns : 2 * a' + 2 ≤ turns) (ha : a' ≤ a + 1)
    (hab : a' ≤ b + 1) (hb : b' ≤ b + 1) (hba : b' ≤ a) :
    Works (rules doc turns (depth + 1)) a' b' where
  turns := hturns
  subExpr := by
    intro limit p h hlt
    exact W.runs_parseSubExpr limit h (by omega) (by omega)
  stats := by
    intro p h hlt
    exact W.keeps_parseStats h (by omega) (by omega)

/-- **With `k` tokens ahead, `2 * k` nested calls are enough for every rule**, and one more
    for an expression with as many. -/
theorem works_rules (doc : DocParser) (turns depth : Nat) :
    (∀ k, 2 * k ≤ depth → 2 * k + 2 ≤ turns → Works (rules doc turns depth) k k) ∧
    (∀ k, 2 * k + 1 ≤ depth → 2 * (k + 1) + 2 ≤ turns →
      Works (rules doc turns depth) (k + 1) k) := by
  -- where nothing can be ahead there is nothing to do
  have hnone : ∀ R : Rules, 2 ≤ R.turns → Works R 0 0 := by
    intro R hturns
    exact ⟨hturns, fun _ _ _ hlt => absurd hlt (Nat.not_lt_zero _),
      fun _ _ hlt => absurd hlt (Nat.not_lt_zero _)⟩
  induction depth with
  | zero =>
    refine ⟨?_, fun k hk => absurd hk (by omega)⟩
    intro k hk hturns
    have hzero : k = 0 := by omega
    subst hzero
    exact hnone _ hturns
  | succ depth ih =>
    constructor
    · intro k hk hturns
      cases k with
      | zero => exact hnone _ hturns
      | succ k =>
        exact (ih.2 k (by omega) hturns).next hturns (by omega) (by omega) (by omega)
          (by omega)
    · intro k hk hturns
      exact (ih.1 k (by omega) (by omega)).next hturns (by omega) (by omega) (by omega)
        (by omega)

/-! ## §3. The chunk -/

section

variable {R : Rules} {a b : Nat} {p q : LuaParser}

theorem runs_parseUnknown (h : Good p) (hne : p.currentToken ≠ .TkEof) :
    Runs (parseUnknown R) p fun _ q => Moved p q := by
  unfold parseUnknown
  apply runs_bind_currentTokenRange
  intro range
  apply runs_bind (runs_mark h .UnknownStat)
  intro m q hq
  apply runs_bind_currentToken
  apply runs_bind (runs_pushError hq.1.good _ range)
  intro _ r hr
  have hcur : r.currentToken ≠ .TkEof := by
    rw [hr.current_eq hq.1.good, hq.2.current_eq h]
    exact hne
  apply runs_bind (runs_rulesBump hr.1.good hcur)
  intro _ s hs
  have hin := (hq.1.trans hr.1).inside hs
  apply runs_bind (runs_complete hin.toOpened)
  intro cm t ht
  exact runs_pure ⟨ht.1, by rw [ht.2.1]; exact hin.moved⟩

/-- **A turn of the chunk eats something.** -/
theorem Works.runs_chunkStep (W : Works R a b) (h : Good p) (hne : p.currentToken ≠ .TkEof)
    (hb : p.remaining < b) : Runs (chunkStep R) p fun _ q => Moved p q := by
  unfold chunkStep
  apply runs_bind_get
  apply runs_bind (W.stats p h hb)
  intro _ q hq
  apply runs_bind_get
  split_ifs with hindex
  · have hcur : q.currentToken ≠ .TkEof := by
      rw [hq.current_eq h hindex]
      exact hne
    apply (runs_parseUnknown hq.good hcur).mono
    intro _ r hr
    exact hq.trans_moved hr
  · have hle := hq.index_le
    exact runs_pure ⟨hq, by omega⟩

end

/-- The tokens of a file up to the first one that says it ends, as far as they can be
    eaten. -/
def eatenTokens (tokens : List LuaTokenData) : List LuaTokenData :=
  eatable (tokens.takeWhile fun token => token.kind != .TkEof)

/-- At the end of file the tokens before the cursor are those that can be eaten. -/
theorem eatable_take_of_eof (p : LuaParser) (h : Good p) (heof : p.currentToken = .TkEof) :
    eatable (p.tokens.take p.tokenIndex) = eatenTokens p.tokens := by
  unfold eatenTokens
  congr 1
  have hall : ∀ token ∈ p.tokens.take p.tokenIndex, (token.kind != .TkEof) = true := by
    intro token htoken
    simpa using h.noEof token htoken
  have hrest : (p.tokens.drop p.tokenIndex).takeWhile (fun token => token.kind != .TkEof)
      = [] := by
    have hcur := h.current_eq
    rw [heof] at hcur
    unfold kindAt at hcur
    rw [← List.head?_drop] at hcur
    cases hdrop : p.tokens.drop p.tokenIndex with
    | nil => rfl
    | cons token rest =>
      rw [hdrop] at hcur
      have hkind : token.kind = .TkEof := hcur.symm
      rw [List.takeWhile_cons_of_neg (by simp [hkind])]
  have hsplit := @List.takeWhile_append_of_pos _ _ _ (p.tokens.drop p.tokenIndex) hall
  rw [List.take_append_drop, hrest, List.append_nil] at hsplit
  exact hsplit.symm

/-- The first node is open and the cursor on the first token that is no trivia. -/
theorem runs_init (doc : DocParser) (p : LuaParser) (hdoc : p.parseConfig.enableEmmyluaDoc = false)
    (hinText : ∀ token ∈ p.tokens, inText p.text token.range = true) (hindex : p.tokenIndex = 0)
    (heaten : eatenBy p.events = []) (hroot : IsStart p.events 0) (hlevel : 0 < p.markLevel) :
    Runs (init doc) p fun _ q => Good q ∧ q.tokens = p.tokens ∧ 0 < q.markLevel := by
  unfold init
  apply runs_bind (runs_modify (Q := fun _ q => q = { p with currentToken := kindAt p.tokens 0 })
    rfl)
  intro _ q hq
  apply runs_bind_get
  rw [hq]
  have hnoEof : ∀ token ∈ p.tokens.take p.tokenIndex, token.kind ≠ .TkEof := by
    rw [hindex]
    simp
  have heaten' : eatenBy p.events = eatable (p.tokens.take p.tokenIndex) := by
    rw [heaten, hindex]
    rfl
  split_ifs with htrivia
  · have hne : kindAt p.tokens 0 ≠ .TkEof := by
      intro heof
      rw [heof] at htrivia
      simp [isTriviaKind] at htrivia
    have hlt : 0 < p.tokens.length := by
      by_contra hge
      apply hne
      unfold kindAt
      rw [List.getElem?_eq_none (by omega)]
    apply (runs_bump_any doc { p with currentToken := kindAt p.tokens 0 } hinText hdoc
      (by rw [hindex]) hne (by rw [hindex]; exact hlt) hnoEof heaten' hroot).mono
    intro _ r hr
    exact ⟨hr.1.good, hr.1.tokens_eq, Nat.lt_of_lt_of_le hlevel hr.1.level_le⟩
  · refine runs_pure ⟨⟨hinText, hdoc, by rw [hindex]; exact Nat.zero_le _, by rw [hindex], ?_,
      hnoEof, heaten', hroot⟩, rfl, hlevel⟩
    simpa using htrivia

/-- The loop of the chunk runs to the end of file. -/
theorem Works.runs_chunkLoop {R : Rules} {a b : Nat} (W : Works R a b) {p : LuaParser}
    (h : Good p) (ha : p.remaining ≤ a) (hb : p.remaining < b) :
    Runs (whileLoop .outOfTurns (fun p => p.currentToken != .TkEof) (chunkStep R) R.turns) p
      fun _ q => Step p q ∧ q.currentToken = .TkEof := by
  apply (runs_whileLoop .outOfTurns _ (chunkStep R) (fun q => Step p q) (fun q => q.remaining) ?_
    _ p (.refl h) (W.lt_turns ha)).mono
  · intro _ q hq
    exact ⟨hq.1, by simpa using hq.2⟩
  · intro q hq hcond
    have hle := hq.remaining_le
    apply (W.runs_chunkStep hq.good (by simpa using hcond) (by omega)).mono
    intro _ r hr
    exact ⟨hq.trans hr.1, hr.remaining_lt⟩

/-- **Parsing a file ends without panic and eats each token once, in order**, whatever the
    tokens are and whatever the checks of the stack answer: all of them up to a token that
    says the file ends, less those of the absent kind.  A turn of a statement list that goes
    on, and every turn of the chunk, has eaten something. -/
theorem parseChunk_eats_all (doc : DocParser) (text : List Char) (tokens : List LuaTokenData)
    (config : ParserConfig) (errors : List LuaParseError) (exhausted : Nat → Bool) (fuel : Nat)
    (hdoc : config.enableEmmyluaDoc = false)
    (hinText : ∀ token ∈ tokens, inText text token.range = true)
    (hfuel : 2 * tokens.length + 4 ≤ fuel) :
    Runs (parseChunk doc fuel) (LuaParser.new text tokens config errors exhausted)
        (fun _ q => eatenBy q.events = eatenTokens tokens) ∧
    (∀ p, Good p → p.tokens = tokens → Runs (statStep (rules doc fuel fuel) ()) p
      fun r q => r.1 = true → p.tokenIndex < q.tokenIndex) ∧
    (∀ p, Good p → p.tokens = tokens → p.currentToken ≠ .TkEof →
      Runs (chunkStep (rules doc fuel fuel)) p fun _ q => p.tokenIndex < q.tokenIndex) := by
  have W : Works (rules doc fuel fuel) (tokens.length + 1) (tokens.length + 1) :=
    (works_rules doc fuel fuel).1 (tokens.length + 1) (by omega) (by omega)
  have hremaining : ∀ p : LuaParser, p.tokens = tokens → p.remaining < tokens.length + 1 := by
    intro p hp
    unfold LuaParser.remaining
    rw [hp]
    omega
  refine ⟨?_, ?_, ?_⟩
  · unfold parseChunk parseChunkWith
    apply runs_bind (Q := fun m p => m.position = 0 ∧ p.text = text ∧ p.tokens = tokens
      ∧ p.parseConfig = config ∧ p.tokenIndex = 0 ∧ p.events = [.NodeStart .Block 0]
      ∧ p.markLevel = 1) ⟨_, _, rfl, rfl, rfl, rfl, rfl, rfl, rfl, rfl⟩
    intro m p hp
    obtain ⟨hm, htext, htokens, hconfig, hindex, hevents, hlevel⟩ := hp
    have hroot : IsStart p.events 0 := ⟨.Block, 0, by rw [hevents]; rfl⟩
    apply runs_bind (runs_init _ p (by rw [hconfig]; exact hdoc)
      (by rw [htext, htokens]; exact hinText) hindex (by rw [hevents]; rfl) hroot (by omega))
    intro _ q hq
    obtain ⟨hgood, htokens', hlevel'⟩ := hq
    have hlt := hremaining q (htokens'.trans htokens)
    apply runs_bind (W.runs_chunkLoop hgood (by omega) hlt)
    intro _ r hr
    obtain ⟨hstep, heof⟩ := hr
    -- closing the first node eats nothing
    have hopen : Opened { r with markLevel := 0 } m r := by
      have hgood₀ := hstep.good
      refine ⟨⟨hgood₀, rfl, Nat.le_refl _, Nat.zero_le _, fun i hi => hi⟩, ?_, ?_⟩
      · exact Nat.lt_of_lt_of_le hlevel' hstep.level_le
      · rw [hm]
        exact hgood₀.root
    apply runs_bind (runs_complete hopen)
    intro cm s hs
    obtain ⟨hstep', hindex', -⟩ := hs
    apply runs_pure
    have hseof : s.currentToken = .TkEof := by
      rw [hstep'.good.current_eq, hstep'.tokens_eq, hindex', ← heof, hstep.good.current_eq]
    rw [hstep'.good.eaten, eatable_take_of_eof s hstep'.good hseof, hstep'.tokens_eq]
    show eatenTokens r.tokens = eatenTokens tokens
    rw [hstep.tokens_eq, htokens', htokens]
  · intro p hgood htokens
    have hlt := hremaining p htokens
    apply (W.runs_statStep hgood hlt (Nat.le_of_lt hlt)).mono
    intro r q hq
    exact hq.2
  · intro p hgood htokens hne
    apply (W.runs_chunkStep hgood hne (hremaining p htokens)).mono
    intro _ q hq
    exact hq.2

/-- The tokens of `local a`. -/
def localA : List LuaTokenData :=
  [⟨.TkLocal, ⟨0, 5⟩⟩, ⟨.TkWhitespace, ⟨5, 1⟩⟩, ⟨.TkName, ⟨6, 1⟩⟩]

theorem parseChunk_eats_local :
    Runs (parseChunk (fun _ => pure ()) 10) (LuaParser.new "local a".toList localA
        ⟨.Lua51, fun _ => none, false⟩ [] fun _ => false) (fun _ q => eatenBy q.events = localA) ∧
      (∀ p, Good p → p.tokens = localA → Runs (statStep (rules (fun _ => pure ()) 10 10) ()) p
        fun r q => r.1 = true → p.tokenIndex < q.tokenIndex) ∧
      ∀ p, Good p → p.tokens = localA → p.currentToken ≠ .TkEof →
        Runs (chunkStep (rules (fun _ => pure ()) 10 10)) p fun _ q =>
          p.tokenIndex < q.tokenIndex :=
  parseChunk_eats_all (fun _ => pure ()) "local a".toList localA ⟨.Lua51, fun _ => none, false⟩ []
    (fun _ => false) 10 rfl (by decide) (by decide)

/-- A token of the end-of-file kind is not eaten. -/
theorem parseChunk_eof_not_eaten :
    ¬ ∀ (doc : DocParser) (text : List Char) (tokens : List LuaTokenData) (config : ParserConfig)
      (errors : List LuaParseError) (exhausted : Nat → Bool),
      config.enableEmmyluaDoc = false → (∀ token ∈ tokens, inText text token.range = true) →
      ∃ fuel, Runs (parseChunk doc fuel) (LuaParser.new text tokens config errors exhausted)
        fun _ q => eatenBy q.events = tokens := by
  intro h
  obtain ⟨fuel, _, q, hrun, heaten⟩ := h (fun _ => pure ()) ['a'] [⟨.TkEof, ⟨0, 1⟩⟩]
    ⟨.Lua51, fun _ => none, false⟩ [] (fun _ => false) rfl (by decide)
  cases fuel with
  | zero => cases hrun
  | succ fuel =>
    cases hrun
    cases heaten

end GluaLs.Syntax
