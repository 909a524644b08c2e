/-
  GluaLs.Syntax.OperatorEvents — the primitives of a rule, as equations.

  Where the tokens ahead hold no trivia and no check of the stack fails, each primitive of a
  grammar rule has one result.  `Ate` collects what a rule has done: the events it added, the
  tokens it ate, and that all of it were calls of the marker interface.
-/
import GluaLs.Syntax.GrammarStat
import GluaLs.Syntax.MarkerRuns
import GluaLs.Syntax.Operators

namespace GluaLs.Syntax

open GluaLs.Lib Relation

/-! ## §1. What is ahead -/

/-- The tokens from the cursor on. -/
def LuaParser.ahead (p : LuaParser) : List LuaTokenData := p.tokens.drop p.tokenIndex

/-- The kind of the first token, the end of file if there is none. -/
def nextKind : List LuaTokenData → LuaTokenKind
  | [] => .TkEof
  | token :: _ => token.kind

/-- The parser knows its token, its tokens lie in the text and its stack lasts. -/
structure Ready (p : LuaParser) : Prop where
  current_eq : p.currentToken = nextKind p.ahead
  inText : ∀ token ∈ p.tokens, inText p.text token.range = true
  stack : ∀ check, p.exhausted check = false

/-- From `p` to `q` the events `es` were added and `n` tokens eaten. -/
structure Ate (p : LuaParser) (es : List MarkEvent) (n : Nat) (q : LuaParser) : Prop where
  ready : Ready q
  events_eq : q.events = p.events ++ es
  ahead_eq : q.ahead = p.ahead.drop n
  tokens_eq : q.tokens = p.tokens
  index_eq : q.tokenIndex = p.tokenIndex + n
  level_le : p.markLevel ≤ q.markLevel
  steps : ReflTransGen MarkerStep p q

theorem nextKind_drop (tokens : List LuaTokenData) (i : Nat) :
    nextKind (tokens.drop i) = match tokens[i]? with
      | some token => token.kind
      | none => .TkEof := by
  rw [← List.head?_drop]
  cases tokens.drop i <;> rfl

section

variable {p q r : LuaParser} {es es' : List MarkEvent} {n n' : Nat}

theorem Ate.trans (h : Ate p es n q) (h' : Ate q es' n' r) : Ate p (es ++ es') (n + n') r where
  ready := h'.ready
  events_eq := by rw [h'.events_eq, h.events_eq, List.append_assoc]
  ahead_eq := by rw [h'.ahead_eq, h.ahead_eq, List.drop_drop]
  tokens_eq := h'.tokens_eq.trans h.tokens_eq
  index_eq := by rw [h'.index_eq, h.index_eq, Nat.add_assoc]
  level_le := Nat.le_trans h.level_le h'.level_le
  steps := h.steps.trans h'.steps

/-! ## §2. Sequences -/

theorem bind_run {α β : Type} {m : Parse α} {k : α → Parse β} {a : α} (h : m p = .ok (a, q)) :
    (m >>= k) p = k a q := by
  show (m p).bind _ = _
  rw [h]
  rfl

theorem get_run (p : LuaParser) : (get : Parse LuaParser) p = .ok (p, p) := rfl

theorem propagate_run {α β : Type} {m : Parse (Except ParseFailReason α)}
    {k : α → Parse (Except ParseFailReason β)} {a : α} (h : m p = .ok (.ok a, q)) :
    propagate m k p = k a q :=
  bind_run h

/-- A turn of a loop that goes on. -/
theorem loop_turn {β : Type} {stop : Stop} {body : β → Parse (Bool × β)} {b b' : β}
    (h : body b p = .ok ((true, b'), q)) (turns : Nat) :
    loop stop body (turns + 1) b p = loop stop body turns b' q := by
  show (body b >>= fun r => if r.1 then loop stop body turns r.2 else pure r.2) p = _
  rw [bind_run h]
  rfl

/-- The last turn of a loop. -/
theorem loop_last {β : Type} {stop : Stop} {body : β → Parse (Bool × β)} {b b' : β}
    (h : body b p = .ok ((false, b'), q)) (turns : Nat) :
    loop stop body (turns + 1) b p = .ok (b', q) := by
  show (body b >>= fun r => if r.1 then loop stop body turns r.2 else pure r.2) p = _
  rw [bind_run h]
  rfl

/-! ## §3. The primitives -/

theorem check_run (hready : Ready p) :
    ∃ q, parserStackExhausted p = .ok (false, q) ∧ Ate p [] 0 q := by
  refine ⟨{ p with checks := p.checks + 1 }, ?_, ⟨hready.current_eq, hready.inText, hready.stack⟩,
    (List.append_nil _).symm, rfl, rfl, rfl, Nat.le_refl _, .single (.other rfl)⟩
  show Except.ok (p.exhausted p.checks, _) = _
  rw [hready.stack]

/-- A node is opened. -/
theorem open_run (hready : Ready p) (kind : LuaSyntaxKind) :
    ∃ q, mark kind p = .ok (⟨p.events.length⟩, q) ∧ Ate p [.NodeStart kind 0] 0 q
      ∧ q.markLevel = p.markLevel + 1 :=
  ⟨_, rfl, ⟨⟨hready.current_eq, hready.inText, hready.stack⟩, rfl, rfl, rfl, rfl, Nat.le_succ _,
    .single (.mark kind _ rfl)⟩, rfl⟩

theorem modifyStart_run {i : Nat} {kind : LuaSyntaxKind} {parent : Nat}
    (hstart : p.events[i]? = some (.NodeStart kind parent)) (f : LuaSyntaxKind → Nat → MarkEvent) :
    modifyStart i f p = .ok (kind, { p with events := p.events.set i (f kind parent) }) := by
  have hget : (get : Parse LuaParser) p = .ok (p, p) := rfl
  unfold modifyStart
  rw [bind_run hget, hstart]
  rfl

section

variable {i : Nat} {kind : LuaSyntaxKind} {parent : Nat} (hready : Ready p)
  (hstart : p.events[i]? = some (.NodeStart kind parent))
include hready hstart

/-- A node is closed that was opened `base` events after the start, by a parser whose level was
    lower then. -/
theorem close_run {p₀ : LuaParser} (hmore : p.events.length ≠ i + 1)
    (hlevel : p₀.markLevel < p.markLevel) (htokens : p.tokens = p₀.tokens)
    (hindex : p.tokenIndex = p₀.tokenIndex + n) (hevents : p.events ++ [.NodeEnd] = p₀.events ++ es)
    (hsteps : ReflTransGen MarkerStep p₀ p) :
    ∃ q, (Marker.mk i).complete p = .ok (⟨i, kind⟩, q) ∧ Ate p₀ es n q := by
  have hset : p.events.set i (.NodeStart kind parent) = p.events := by
    obtain ⟨hlt, hat⟩ := List.getElem?_eq_some_iff.1 hstart
    rw [← hat, List.set_getElem_self]
  have hrun : (Marker.mk i).complete p
      = .ok (⟨i, kind⟩,
        { p with events := p.events ++ [.NodeEnd], markLevel := p.markLevel - 1 }) := by
    show (modifyStart i _ >>= fun kind => _) p = _
    rw [bind_run (modifyStart_run hstart _), hset]
    show (if p.events.length = i + 1 then _ else _ : Parse CompleteMarker) p = _
    rw [if_neg hmore]
    have hend : pushNodeEnd p
        = .ok ((), { p with events := p.events ++ [.NodeEnd], markLevel := p.markLevel - 1 }) := by
      show (if p.markLevel = 0 then _ else _ : Parse Unit) p = _
      rw [if_neg (by omega)]
      rfl
    rw [bind_run hend]
    rfl
  refine ⟨_, hrun, ⟨hready.current_eq, hready.inText, hready.stack⟩, hevents, ?_, htokens, hindex,
    ?_, hsteps.tail (.complete ⟨i⟩ _ hrun)⟩
  · show p.tokens.drop p.tokenIndex = _
    rw [htokens, hindex, LuaParser.ahead, List.drop_drop]
  · show p₀.markLevel ≤ p.markLevel - 1
    omega

/-- A node is opened in front of a finished one. -/
theorem precede_run (kind' : LuaSyntaxKind) :
    ∃ q, (CompleteMarker.mk i kind).precede kind' p = .ok (⟨p.events.length⟩, q)
      ∧ q.events = p.events.set i (.NodeStart kind p.events.length) ++ [.NodeStart kind' 0, .Trivia]
      ∧ q.tokens = p.tokens ∧ q.tokenIndex = p.tokenIndex ∧ q.markLevel = p.markLevel + 1
      ∧ Ready q ∧ MarkerStep p q := by
  have hlt := (List.getElem?_eq_some_iff.1 hstart).1
  have hstart' : (p.events ++ [.NodeStart kind' 0])[i]? = some (.NodeStart kind parent) := by
    rw [List.getElem?_append_left hlt, hstart]
  have hrun : (CompleteMarker.mk i kind).precede kind' p = .ok (⟨p.events.length⟩, { p with
      events := (p.events ++ [MarkEvent.NodeStart kind' 0]).set i
        (.NodeStart kind p.events.length) ++ [.Trivia]
      markLevel := p.markLevel + 1 }) := by
    have hmark : mark kind' p = .ok (⟨p.events.length⟩, { p with
      events := p.events ++ [.NodeStart kind' 0], markLevel := p.markLevel + 1 }) := rfl
    show (mark kind' >>= _) p = _
    rw [bind_run hmark]
    show (modifyStart i _ >>= _) _ = _
    rw [bind_run (modifyStart_run hstart' _)]
    rfl
  refine ⟨_, hrun, ?_, rfl, rfl, rfl, ⟨hready.current_eq, hready.inText, hready.stack⟩,
    .precede ⟨i, kind⟩ kind' _ hlt hrun⟩
  show (p.events ++ [MarkEvent.NodeStart kind' 0]).set i _ ++ [MarkEvent.Trivia] = _
  rw [List.set_append_left _ _ hlt, List.append_assoc]
  rfl

end

theorem isTrivia_of_blank {kind : LuaTokenKind} (h : isWhitespaceToken kind = true) :
    isTriviaKind kind = true := by
  cases kind <;> first | rfl | cases h

theorem isTrivia_of_invalid {kind : LuaTokenKind} (h : isInvalidKind kind = false) :
    isTriviaKind kind = false := by
  cases kind <;> first | rfl | cases h

theorem skipTrivia_eq {tokens : List LuaTokenData} {i : Nat} {blanks rest : List LuaTokenData}
    (hdrop : tokens.drop i = blanks ++ rest)
    (hblanks : ∀ token ∈ blanks, isWhitespaceToken token.kind = true)
    (hrest : isTriviaKind (nextKind rest) = false) : skipTrivia tokens i = i + blanks.length := by
  unfold skipTrivia
  rw [hdrop,
    List.takeWhile_append_of_pos fun token htoken => isTrivia_of_blank (hblanks token htoken)]
  have hstop : rest.takeWhile (fun token => isTriviaKind token.kind) = [] := by
    cases rest with
    | nil => rfl
    | cons token rest => exact List.takeWhile_cons_of_neg (by simpa [nextKind] using hrest)
  rw [hstop, List.append_nil]

theorem tokenAt_run {i : Nat} {token : LuaTokenData} (hat : p.tokens[i]? = some token) :
    tokenAt i p = .ok (token, p) := by
  unfold tokenAt
  rw [bind_run (get_run p), hat]
  rfl

/-- A token that is no trivia is passed over. -/
theorem parseTriviaToken_run (doc : DocParser) (i n : Nat) {token : LuaTokenData}
    (htoken : isTriviaKind token.kind = false) :
    parseTriviaToken doc i token (n, []) p = .ok ((n, []), p) := by
  unfold parseTriviaToken
  cases hkind : token.kind <;>
    first | (rw [hkind] at htoken; cases htoken; done) | rfl

/-- A blank outside of a comment group is eaten. -/
theorem parseTriviaToken_blank (doc : DocParser) (i n : Nat) {token : LuaTokenData}
    (htoken : isWhitespaceToken token.kind = true) :
    ∃ n', parseTriviaToken doc i token (n, []) p
      = .ok ((n', []), { p with events := p.events ++ [eatToken token] }) := by
  unfold parseTriviaToken
  cases hkind : token.kind with
  | TkWhitespace => exact ⟨n, rfl⟩
  | TkEndOfLine =>
    refine ⟨n + 1, ?_⟩
    have hnone : ¬ (n + 1 > 1 ∧ ([] : List LuaTokenData) ≠ []) := fun h => h.2 rfl
    simp only [if_true, hnone, if_false]
    rfl
  | _ =>
    rw [hkind] at htoken
    cases htoken

/-- So are all the blanks behind a token. -/
theorem parseTriviaFrom_run (doc : DocParser) (blanks : List LuaTokenData) :
    ∀ (i n : Nat) (rest : List LuaTokenData) (p : LuaParser),
      p.tokens.drop i = blanks ++ rest →
      (∀ token ∈ blanks, isWhitespaceToken token.kind = true) →
      ∃ n', parseTriviaFrom doc i blanks.length (n, []) p
          = .ok ((n', []), { p with events := p.events ++ blanks.map eatToken })
        ∧ ReflTransGen MarkerStep p { p with events := p.events ++ blanks.map eatToken } := by
  induction blanks with
  | nil =>
    intro i n rest p _ _
    refine ⟨n, ?_, ?_⟩
    · rw [List.map_nil, List.append_nil]
      rfl
    · rw [List.map_nil, List.append_nil]
  | cons token blanks ih =>
    intro i n rest p hdrop hblanks
    have hat : p.tokens[i]? = some token := by
      rw [← List.head?_drop, hdrop]
      rfl
    have hnext : p.tokens.drop (i + 1) = blanks ++ rest := by
      rw [← List.drop_drop, hdrop]
      rfl
    obtain ⟨n', hrun⟩ := parseTriviaToken_blank (p := p) doc i n (hblanks token (.head _))
    obtain ⟨n'', hrest, hsteps⟩ := ih (i + 1) n' rest
      { p with events := p.events ++ [eatToken token] } hnext
      (List.forall_mem_cons.1 hblanks).2
    simp only [List.append_assoc, List.singleton_append] at hrest hsteps
    refine ⟨n'', ?_, ReflTransGen.head (.eatToken token rfl) hsteps⟩
    show (tokenAt i >>= _) p = _
    rw [bind_run (tokenAt_run hat)]
    show (parseTriviaToken doc i token (n, []) >>= _) p = _
    rw [bind_run hrun]
    exact hrest

/-- The events of a token and the blanks behind it. -/
def eaten (lexeme : Lexeme) : List MarkEvent := lexeme.written.map eatToken

/-- A token is eaten with the blanks behind it, up to what is no trivia. -/
theorem eat_run (doc : DocParser) (hready : Ready p) {lexeme : Lexeme}
    {rest : List LuaTokenData} (hahead : p.ahead = lexeme.written ++ rest)
    (hvalid : isInvalidKind lexeme.kind = false) (hrest : isTriviaKind (nextKind rest) = false) :
    ∃ q, bump doc p = .ok ((), q) ∧ Ate p (eaten lexeme) lexeme.written.length q
      ∧ q.ahead = rest ∧ q.markLevel = p.markLevel := by
  have hahead' : p.tokens.drop p.tokenIndex
      = lexeme.toLuaTokenData :: (lexeme.blanks ++ rest) := hahead
  have hat : p.tokens[p.tokenIndex]? = some lexeme.toLuaTokenData := by
    rw [← List.head?_drop, hahead']
    rfl
  have hdrop : p.tokens.drop (p.tokenIndex + 1) = lexeme.blanks ++ rest := by
    rw [← List.drop_drop, hahead']
    rfl
  have hbehind : p.tokens.drop (p.tokenIndex + 1 + lexeme.blanks.length) = rest := by
    rw [← List.drop_drop, hdrop, List.drop_left]
  have hnext := skipTrivia_eq hdrop lexeme.isBlank hrest
  have hcurrent : p.currentToken = lexeme.kind := by rw [hready.current_eq, hahead]; rfl
  have htrivia := isTrivia_of_invalid hvalid
  let eating : LuaParser := { p with events := p.events ++ [eatToken lexeme.toLuaTokenData] }
  have heat : eatCurrent p = .ok ((), eating) := by
    show (if !isInvalidKind p.currentToken then
      match p.tokens[p.tokenIndex]? with
      | some token => pushEvents [eatToken token]
      | none => pure () else _ : Parse Unit) p = _
    rw [if_pos (by rw [hcurrent, hvalid]; rfl), hat]
    rfl
  obtain ⟨n, hblanks, hsteps⟩ := parseTriviaFrom_run doc lexeme.blanks (p.tokenIndex + 1) 0 rest
    eating hdrop lexeme.isBlank
  have hevents : eating.events ++ lexeme.blanks.map eatToken = p.events ++ eaten lexeme := by
    show p.events ++ [_] ++ _ = _
    rw [List.append_assoc]
    rfl
  rw [hevents] at hblanks hsteps
  have htriviaRun : parseTriviaTokens doc (p.tokenIndex + 1 + lexeme.blanks.length) eating
      = .ok ((), { p with events := p.events ++ eaten lexeme }) := by
    have hcount : p.tokenIndex + 1 + lexeme.blanks.length - eating.tokenIndex
        = lexeme.blanks.length + 1 := by
      show p.tokenIndex + 1 + lexeme.blanks.length - p.tokenIndex = _
      omega
    unfold parseTriviaTokens
    rw [bind_run (get_run _), hcount]
    have hfrom : parseTriviaFrom doc eating.tokenIndex (lexeme.blanks.length + 1) (0, []) eating
        = .ok ((n, []), { p with events := p.events ++ eaten lexeme }) := by
      show (tokenAt p.tokenIndex >>= _) eating = _
      rw [bind_run (tokenAt_run (p := eating) hat)]
      show (parseTriviaToken doc p.tokenIndex lexeme.toLuaTokenData (0, []) >>= _) eating = _
      rw [bind_run (parseTriviaToken_run doc p.tokenIndex 0 htrivia)]
      exact hblanks
    rw [bind_run hfrom]
    rfl
  have hrun : bump doc p = .ok ((), { p with
      events := p.events ++ eaten lexeme
      tokenIndex := p.tokenIndex + 1 + lexeme.blanks.length
      currentToken := nextKind rest }) := by
    unfold bump
    rw [bind_run (get_run p), bind_run heat, hnext, bind_run htriviaRun, ← hbehind, nextKind_drop]
    rfl
  have hnew : ({ p with
      events := p.events ++ eaten lexeme
      tokenIndex := p.tokenIndex + 1 + lexeme.blanks.length
      currentToken := nextKind rest } : LuaParser).ahead = rest := hbehind
  refine ⟨_, hrun, ⟨⟨?_, hready.inText, hready.stack⟩, rfl, ?_, rfl, ?_, Nat.le_refl _, ?_⟩, hnew,
    rfl⟩
  · rw [hnew]
  · rw [hnew, hahead, List.drop_left]
  · show p.tokenIndex + 1 + lexeme.blanks.length = p.tokenIndex + (lexeme.blanks.length + 1)
    omega
  · have hpush : MarkerStep p eating := .eatToken lexeme.toLuaTokenData rfl
    exact (ReflTransGen.head hpush hsteps).tail (.other rfl)

end

end GluaLs.Syntax
