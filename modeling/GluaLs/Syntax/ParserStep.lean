/-
  GluaLs.Syntax.ParserStep — what the parser's primitives keep.

  Between two tokens the parser is GOOD: its cursor is on a token that is no trivia or
  behind the last, and the tokens eaten so far are exactly those before it.  Every
  primitive takes a good parser to a good one that is no further back (`Step`), provided
  `bump` is not asked for at the end of the tokens, where the source indexes out of range.
-/
import Mathlib.Tactic.Tauto
import GluaLs.Syntax.Parser

namespace GluaLs.Syntax

open GluaLs.Lib

/-! ## §1. Good parsers and steps -/

/-- The tokens eaten, in order. -/
def eatenBy (events : List MarkEvent) : List LuaTokenData :=
  events.filterMap fun event =>
    match event with
    | .EatToken kind range => some ⟨kind, range⟩
    | _ => none

/-- There is a node start at `i`. -/
def IsStart (events : List MarkEvent) (i : Nat) : Prop :=
  ∃ kind parent, events[i]? = some (.NodeStart kind parent)

/-- The kind of the token at `i`, the end of file behind the last. -/
def kindAt (tokens : List LuaTokenData) (i : Nat) : LuaTokenKind :=
  match tokens[i]? with
  | some token => token.kind
  | none => .TkEof

/-- The tokens that can be eaten: those whose kind is not the absent one. -/
def eatable (tokens : List LuaTokenData) : List LuaTokenData :=
  tokens.filter fun token => token.kind != .None

structure Good (p : LuaParser) : Prop where
  inText : ∀ token ∈ p.tokens, inText p.text token.range = true
  docOff : p.parseConfig.enableEmmyluaDoc = false
  index_le : p.tokenIndex ≤ p.tokens.length
  current_eq : p.currentToken = kindAt p.tokens p.tokenIndex
  not_trivia : isTriviaKind p.currentToken = false
  noEof : ∀ token ∈ p.tokens.take p.tokenIndex, token.kind ≠ .TkEof
  eaten : eatenBy p.events = eatable (p.tokens.take p.tokenIndex)
  root : IsStart p.events 0

namespace LuaParser

/-- The tokens from the cursor on. -/
def remaining (p : LuaParser) : Nat := p.tokens.length - p.tokenIndex

end LuaParser

/-- From `p` to `q`: a good parser of the same tokens, no further back, with no level and no
    node start lost. -/
structure Step (p q : LuaParser) : Prop where
  good : Good q
  tokens_eq : q.tokens = p.tokens
  index_le : p.tokenIndex ≤ q.tokenIndex
  level_le : p.markLevel ≤ q.markLevel
  starts : ∀ i, IsStart p.events i → IsStart q.events i

namespace Step

variable {p q r : LuaParser}

theorem refl (h : Good p) : Step p p :=
  ⟨h, rfl, Nat.le_refl _, Nat.le_refl _, fun _ hi => hi⟩

theorem trans (h : Step p q) (h' : Step q r) : Step p r where
  good := h'.good
  tokens_eq := h'.tokens_eq.trans h.tokens_eq
  index_le := Nat.le_trans h.index_le h'.index_le
  level_le := Nat.le_trans h.level_le h'.level_le
  starts := fun i hi => h'.starts i (h.starts i hi)

theorem remaining_le (h : Step p q) : q.remaining ≤ p.remaining := by
  have hi := h.index_le
  unfold LuaParser.remaining
  rw [h.tokens_eq]
  omega

/-- A step that moved has less ahead. -/
theorem remaining_lt (h : Step p q) (hlt : p.tokenIndex < q.tokenIndex) :
    q.remaining < p.remaining := by
  have hi := h.good.index_le
  rw [h.tokens_eq] at hi
  unfold LuaParser.remaining
  rw [h.tokens_eq]
  omega

/-- A step that stayed on its token sees the same one. -/
theorem current_eq (h : Step p q) (hp : Good p) (hi : q.tokenIndex = p.tokenIndex) :
    q.currentToken = p.currentToken := by
  rw [h.good.current_eq, hp.current_eq, h.tokens_eq, hi]

end Step

/-- A step that stays on its token. -/
def Still (p q : LuaParser) : Prop := Step p q ∧ q.tokenIndex = p.tokenIndex

theorem Still.current_eq {p q : LuaParser} (h : Still p q) (hp : Good p) :
    q.currentToken = p.currentToken :=
  h.1.current_eq hp h.2

/-- A step that eats something. -/
def Moved (p q : LuaParser) : Prop := Step p q ∧ p.tokenIndex < q.tokenIndex

theorem Moved.trans_step {p q r : LuaParser} (h : Moved p q) (h' : Step q r) : Moved p r :=
  ⟨h.1.trans h', Nat.lt_of_lt_of_le h.2 h'.index_le⟩

theorem Step.trans_moved {p q r : LuaParser} (h : Step p q) (h' : Moved q r) : Moved p r :=
  ⟨h.trans h'.1, Nat.lt_of_le_of_lt h.index_le h'.2⟩

theorem Moved.remaining_lt {p q : LuaParser} (h : Moved p q) : q.remaining < p.remaining :=
  h.1.remaining_lt h.2

/-! ## §2. Events -/

theorem eatenBy_append (es es' : List MarkEvent) :
    eatenBy (es ++ es') = eatenBy es ++ eatenBy es' :=
  List.filterMap_append

theorem eatenBy_map_eatToken (tokens : List LuaTokenData) :
    eatenBy (tokens.map eatToken) = tokens := by
  induction tokens with
  | nil => rfl
  | cons token tokens ih =>
    show (⟨token.kind, token.range⟩ : LuaTokenData) :: eatenBy (tokens.map eatToken)
      = token :: tokens
    rw [ih]

theorem isStart_append (es es' : List MarkEvent) (i : Nat) (h : IsStart es i) :
    IsStart (es ++ es') i := by
  obtain ⟨kind, parent, hi⟩ := h
  refine ⟨kind, parent, ?_⟩
  rw [List.getElem?_append_left]
  · exact hi
  · exact (List.getElem?_eq_some_iff.1 hi).1

/-- Rewriting a node start neither eats a token nor removes a start. -/
theorem eatenBy_set (es : List MarkEvent) :
    ∀ i kind parent kind' parent', es[i]? = some (.NodeStart kind parent) →
      eatenBy (es.set i (.NodeStart kind' parent')) = eatenBy es := by
  induction es with
  | nil => intro i kind parent kind' parent' h; simp at h
  | cons e es ih =>
    intro i kind parent kind' parent' h
    cases i with
    | zero =>
      have he : e = .NodeStart kind parent := by simpa using h
      rw [he]
      rfl
    | succ i =>
      have hi := ih i kind parent kind' parent' (by simpa using h)
      rw [List.set_cons_succ]
      cases e with
      | EatToken k r =>
        show (⟨k, r⟩ : LuaTokenData) :: eatenBy _ = ⟨k, r⟩ :: eatenBy es
        rw [hi]
      | _ => exact hi

theorem isStart_set (es : List MarkEvent) (i j : Nat) (kind : LuaSyntaxKind) (parent : Nat)
    (h : IsStart es j) : IsStart (es.set i (.NodeStart kind parent)) j := by
  obtain ⟨k, pr, hj⟩ := h
  by_cases hij : i = j
  · subst hij
    exact ⟨kind, parent, by rw [List.getElem?_set_self (List.getElem?_eq_some_iff.1 hj).1]⟩
  · exact ⟨k, pr, by rw [List.getElem?_set_ne hij]; exact hj⟩

/-! ## §3. Reading the state -/

section

variable {p : LuaParser}

theorem runs_bind_currentToken {α : Type} {k : LuaTokenKind → Parse α} {Q : α → LuaParser → Prop}
    (hk : Runs (k p.currentToken) p Q) : Runs (currentToken >>= k) p Q :=
  hk

theorem runs_bind_currentTokenRange {α : Type} {k : SourceRange → Parse α}
    {Q : α → LuaParser → Prop} (hk : ∀ range, Runs (k range) p Q) :
    Runs (currentTokenRange >>= k) p Q :=
  hk _

theorem runs_peekNextToken :
    Runs peekNextToken p fun token q => q = p
      ∧ (token = .TkAssign → kindAt p.tokens (skipTrivia p.tokens (p.tokenIndex + 1))
          = .TkAssign) := by
  unfold peekNextToken
  apply runs_bind_get
  cases hi : p.tokens[skipTrivia p.tokens (p.tokenIndex + 1)]? with
  | some token =>
    apply runs_pure
    refine ⟨rfl, ?_⟩
    intro htoken
    unfold kindAt
    rw [hi]
    exact htoken
  | none =>
    apply runs_pure
    exact ⟨rfl, by simp⟩

theorem runs_tokenAt (i : Nat) (h : i < p.tokens.length) :
    Runs (tokenAt i) p fun token q => q = p ∧ p.tokens[i]? = some token := by
  unfold tokenAt
  apply runs_bind_get
  rw [List.getElem?_eq_getElem h]
  exact runs_pure ⟨rfl, rfl⟩

/-- The cursor is before the end exactly when it is on a token. -/
theorem Good.index_lt (h : Good p) (hne : p.currentToken ≠ .TkEof) :
    p.tokenIndex < p.tokens.length := by
  by_contra hge
  apply hne
  rw [h.current_eq]
  unfold kindAt
  rw [List.getElem?_eq_none (by omega)]

theorem runs_currentTokenText (h : Good p) (hne : p.currentToken ≠ .TkEof) :
    Runs currentTokenText p fun _ q => q = p := by
  unfold currentTokenText
  apply runs_bind_get
  apply runs_bind (runs_tokenAt p.tokenIndex (h.index_lt hne))
  intro token q' hq'
  rw [if_pos (h.inText token (List.mem_of_getElem? hq'.2))]
  exact runs_pure hq'.1

theorem runs_previousTokenRange (h : Good p) : Runs previousTokenRange p fun _ q => q = p := by
  unfold previousTokenRange
  apply runs_bind_get
  split_ifs with h1 h2
  · exact runs_pure rfl
  · exact absurd h.index_le (by omega)
  · split
    · exact runs_pure rfl
    · have hpos : 0 < p.tokens.length := by
        apply List.length_pos_of_ne_nil
        tauto
      apply runs_bind (runs_tokenAt 0 hpos)
      intro token q' hq'
      exact runs_pure hq'.1

end

/-! ## §4. Errors and the stack -/

section

variable {p : LuaParser} (h : Good p)
include h

theorem Good.pushError (errors : List LuaParseError) : Still p { p with errors := errors } :=
  ⟨⟨⟨h.inText, h.docOff, h.index_le, h.current_eq, h.not_trivia, h.noEof, h.eaten, h.root⟩, rfl,
    Nat.le_refl _, Nat.le_refl _, fun _ hi => hi⟩, rfl⟩

theorem runs_pushError (message : String) (range : SourceRange) :
    Runs (pushError message range) p fun _ q => Still p q :=
  runs_modify (h.pushError _)

theorem runs_pushErrorHere (message : String) :
    Runs (pushErrorHere message) p fun _ q => Still p q := by
  unfold pushErrorHere
  apply runs_bind_currentTokenRange
  intro range
  exact runs_pushError h message range

theorem runs_parserStackExhausted : Runs parserStackExhausted p fun _ q => Still p q := by
  refine ⟨_, _, rfl, ?_⟩
  exact ⟨⟨⟨h.inText, h.docOff, h.index_le, h.current_eq, h.not_trivia, h.noEof, h.eaten,
    h.root⟩, rfl,
    Nat.le_refl _, Nat.le_refl _, fun _ hi => hi⟩, rfl⟩

end

/-! ## §5. Markers -/

/-- The marker was opened since `p` and its node is still open. -/
structure Opened (p : LuaParser) (m : Marker) (q : LuaParser) : Prop where
  step : Step p q
  level_lt : p.markLevel < q.markLevel
  start : IsStart q.events m.position

theorem Opened.trans {p q r : LuaParser} {m : Marker} (h : Opened p m q) (h' : Step q r) :
    Opened p m r :=
  ⟨h.step.trans h', Nat.lt_of_lt_of_le h.level_lt h'.level_le, h'.starts _ h.start⟩

theorem runs_mark {p : LuaParser} (h : Good p) (kind : LuaSyntaxKind) :
    Runs (mark kind) p fun m q => Opened p m q ∧ Still p q := by
  refine ⟨_, _, rfl, ?_⟩
  have hstep : Step p { p with
      events := p.events ++ [.NodeStart kind 0], markLevel := p.markLevel + 1 } := by
    refine ⟨⟨h.inText, h.docOff, h.index_le, h.current_eq, h.not_trivia, h.noEof, ?_, ?_⟩, rfl,
      Nat.le_refl _, Nat.le_succ _, fun i hi => isStart_append _ _ i hi⟩
    · show eatenBy (p.events ++ [.NodeStart kind 0]) = _
      rw [eatenBy_append, h.eaten]
      exact List.append_nil _
    · exact isStart_append _ _ 0 h.root
  refine ⟨⟨hstep, Nat.lt_succ_self _, kind, 0, ?_⟩, hstep, rfl⟩
  simp

/-- Rewriting a node start keeps the parser good. -/
theorem runs_modifyStart {p : LuaParser} (h : Good p) (position : Nat)
    (f : LuaSyntaxKind → Nat → MarkEvent)
    (hf : ∀ kind parent, ∃ kind' parent', f kind parent = .NodeStart kind' parent')
    (hs : IsStart p.events position) :
    Runs (modifyStart position f) p fun _ q => Still p q ∧ q.markLevel = p.markLevel
      ∧ q.events.length = p.events.length := by
  obtain ⟨kind, parent, hi⟩ := hs
  obtain ⟨kind', parent', hf'⟩ := hf kind parent
  unfold modifyStart
  apply runs_bind_get
  rw [hi]
  refine ⟨kind, { p with events := p.events.set position (f kind parent) }, rfl, ?_⟩
  rw [hf']
  refine ⟨⟨⟨⟨h.inText, h.docOff, h.index_le, h.current_eq, h.not_trivia, h.noEof, ?_, ?_⟩, rfl,
    Nat.le_refl _, Nat.le_refl _, fun i hi => isStart_set _ _ i _ _ hi⟩, rfl⟩, rfl, ?_⟩
  · show eatenBy (p.events.set position (.NodeStart kind' parent')) = _
    rw [eatenBy_set _ _ kind parent _ _ hi]
    exact h.eaten
  · exact isStart_set _ _ 0 _ _ h.root
  · exact List.length_set

theorem runs_setKind {p q : LuaParser} {m : Marker} (h : Opened p m q) (kind : LuaSyntaxKind) :
    Runs (m.setKind kind) q fun _ r => Still q r := by
  unfold Marker.setKind
  apply runs_bind (runs_modifyStart h.step.good m.position _ ?_ h.start)
  · intro _ r hr
    exact runs_pure hr.1
  · intro kind' parent
    exact ⟨kind, parent, rfl⟩

/-- A node end closes one level. -/
theorem runs_pushNodeEnd {q : LuaParser} (h : Good q) (hpos : 0 < q.markLevel) :
    Runs pushNodeEnd q fun _ r => Good r ∧ r.tokens = q.tokens ∧ r.tokenIndex = q.tokenIndex
      ∧ r.markLevel + 1 = q.markLevel ∧ (∀ i, IsStart q.events i → IsStart r.events i) := by
  unfold pushNodeEnd
  apply runs_bind_get
  rw [if_neg (by omega)]
  refine ⟨⟨⟩, { q with events := q.events ++ [.NodeEnd], markLevel := q.markLevel - 1 }, rfl,
    ⟨h.inText, h.docOff, h.index_le, h.current_eq, h.not_trivia, h.noEof, ?_,
      isStart_append _ _ 0 h.root⟩,
    rfl, rfl, ?_, fun i hi => isStart_append _ _ i hi⟩
  · show eatenBy (q.events ++ [.NodeEnd]) = _
    rw [eatenBy_append, h.eaten]
    exact List.append_nil _
  · show q.markLevel - 1 + 1 = q.markLevel
    omega

/-- Closing a node leaves no level open that was not before. -/
theorem runs_complete {p q : LuaParser} {m : Marker} (h : Opened p m q) :
    Runs m.complete q fun cm r =>
      Step p r ∧ r.tokenIndex = q.tokenIndex ∧ IsStart r.events cm.start := by
  unfold Marker.complete
  apply runs_bind (runs_modifyStart h.step.good m.position _ (fun kind parent =>
    ⟨kind, parent, rfl⟩) h.start)
  intro kind q₁ h₁
  have hopen₁ : Opened p m q₁ := h.trans h₁.1.1
  have hlevel : p.markLevel < q₁.markLevel := hopen₁.level_lt
  apply runs_bind_get
  split_ifs with hlen
  · apply runs_bind (runs_setKind hopen₁ .None)
    intro _ q₂ h₂
    apply runs_pure
    exact ⟨hopen₁.step.trans h₂.1, h₂.2.trans h₁.1.2, h₂.1.good.root⟩
  · apply runs_bind (runs_pushNodeEnd hopen₁.step.good (by omega))
    intro _ q₂ h₂
    obtain ⟨hgood, htokens, hindex, hlevel₂, hstarts⟩ := h₂
    apply runs_pure
    refine ⟨⟨hgood, htokens.trans hopen₁.step.tokens_eq, ?_, by omega, ?_⟩,
      hindex.trans h₁.1.2, hstarts _ hopen₁.start⟩
    · rw [hindex]
      exact hopen₁.step.index_le
    · intro i hi
      exact hstarts i (hopen₁.step.starts i hi)

theorem runs_precede {q : LuaParser} {cm : CompleteMarker} (h : Good q)
    (hcm : IsStart q.events cm.start) (kind : LuaSyntaxKind) :
    Runs (cm.precede kind) q fun m r => Opened q m r ∧ Still q r := by
  unfold CompleteMarker.precede
  apply runs_bind (runs_mark h kind)
  intro m q₁ h₁
  apply runs_bind (runs_modifyStart h₁.1.step.good cm.start _ (fun kind _ =>
    ⟨kind, m.position, rfl⟩) (h₁.1.step.starts _ hcm))
  intro _ q₂ h₂
  have hopen₂ := h₁.1.trans h₂.1.1
  have hgood := h₂.1.1.good
  have hstep : Still q₂ { q₂ with events := q₂.events ++ [.Trivia] } := by
    refine ⟨⟨⟨hgood.inText, hgood.docOff, hgood.index_le, hgood.current_eq, hgood.not_trivia,
      hgood.noEof,
      ?_, isStart_append _ _ 0 hgood.root⟩, rfl, Nat.le_refl _, Nat.le_refl _,
      fun i hi => isStart_append _ _ i hi⟩, rfl⟩
    show eatenBy (q₂.events ++ [.Trivia]) = _
    rw [eatenBy_append, hgood.eaten]
    exact List.append_nil _
  apply runs_bind (runs_modify (Q := fun _ r => Still q₂ r) hstep)
  intro _ q₃ h₃
  apply runs_pure
  refine ⟨hopen₂.trans h₃.1, hopen₂.step.trans h₃.1, ?_⟩
  rw [h₃.2, h₂.1.2, h₁.2.2]

/-! ## §6. Trivia

  With doc comments off, a comment group is eaten as it is; the groups only hold tokens
  back for a while.  What a run over the trivia has eaten, followed by what it still holds
  back, is the trivia it went over (`runs_parseTriviaFrom`).
-/

/-- The parser with more events. -/
def LuaParser.addEvents (p : LuaParser) (events : List MarkEvent) : LuaParser :=
  { p with events := p.events ++ events }

theorem addEvents_addEvents (p : LuaParser) (es es' : List MarkEvent) :
    (p.addEvents es).addEvents es' = p.addEvents (es ++ es') := by
  simp [LuaParser.addEvents]

theorem addEvents_nil (p : LuaParser) : p.addEvents [] = p := by
  simp [LuaParser.addEvents]

theorem runs_pushEvents (p : LuaParser) (events : List MarkEvent) :
    Runs (pushEvents events) p fun _ q => q = p.addEvents events :=
  runs_modify rfl

theorem runs_parseComments (doc : DocParser) (p : LuaParser) (tokens : List LuaTokenData)
    (hdoc : p.parseConfig.enableEmmyluaDoc = false) :
    Runs (parseComments doc tokens) p fun _ q => q = p.addEvents (tokens.map eatToken) := by
  unfold parseComments
  apply runs_bind_get
  rw [if_pos (by simp [ParserConfig.supportEmmyluaDoc, hdoc])]
  exact runs_pushEvents p _

/-- What a token adds to the trivia. -/
def triviaOf (token : LuaTokenData) : List LuaTokenData :=
  if isTriviaKind token.kind then [token] else []

/-- The trivia step ate and holds back, in order, what was held back and the token. -/
def TriviaPost (p : LuaParser) (held : List LuaTokenData) (added : List LuaTokenData)
    (acc : Nat × List LuaTokenData) (q : LuaParser) : Prop :=
  ∃ es, q = p.addEvents es ∧ eatenBy es ++ acc.2 = held ++ added

theorem runs_hold (p : LuaParser) (held added held' : List LuaTokenData) (n : Nat)
    (h : held' = held ++ added) :
    Runs (pure (n, held') : Parse (Nat × List LuaTokenData)) p (TriviaPost p held added) :=
  runs_pure ⟨[], (addEvents_nil p).symm, by simpa [eatenBy] using h⟩

/-- A comment group that ends here is eaten whole. -/
theorem runs_flush (doc : DocParser) (p p' : LuaParser) (held added group : List LuaTokenData)
    (n : Nat) (hdoc : p'.parseConfig.enableEmmyluaDoc = false) (es : List MarkEvent)
    (hp : p' = p.addEvents es) (h : eatenBy es ++ group = held ++ added) :
    Runs (do
        parseComments doc group
        pure (n, []) : Parse (Nat × List LuaTokenData)) p' (TriviaPost p held added) := by
  apply runs_bind (runs_parseComments doc p' group hdoc)
  intro _ q hq
  apply runs_pure
  refine ⟨es ++ group.map eatToken, ?_, ?_⟩
  · rw [hq, hp, addEvents_addEvents]
  · rw [eatenBy_append, eatenBy_map_eatToken, List.append_nil]
    exact h

theorem runs_parseTriviaToken (doc : DocParser) (p : LuaParser) (i : Nat) (token : LuaTokenData)
    (acc : Nat × List LuaTokenData) (hdoc : p.parseConfig.enableEmmyluaDoc = false) :
    Runs (parseTriviaToken doc i token acc) p (TriviaPost p acc.2 (triviaOf token)) := by
  obtain ⟨n, held⟩ := acc
  unfold parseTriviaToken
  have hblank : token.kind = .TkShebang ∨ token.kind = .TkWhitespace →
      Runs (if held = [] then do
          pushEvents [eatToken token]
          pure (n, held)
        else pure (n, held ++ [token]) : Parse (Nat × List LuaTokenData)) p
        (TriviaPost p held [token]) := by
    intro _
    split_ifs with hnil
    · apply runs_bind (runs_pushEvents p _)
      intro _ q hq
      exact runs_pure ⟨[eatToken token], hq, by rw [hnil]; rfl⟩
    · exact runs_hold p held [token] _ n rfl
  cases hk : token.kind
  case TkShortComment => exact runs_hold p held _ _ 0 (by simp [triviaOf, hk, isTriviaKind])
  case TkLongComment => exact runs_hold p held _ _ 0 (by simp [triviaOf, hk, isTriviaKind])
  case TkShebang =>
      simpa [triviaOf, hk, isTriviaKind] using hblank (.inl hk)
  case TkWhitespace =>
      simpa [triviaOf, hk, isTriviaKind] using hblank (.inr hk)
  case TkEndOfLine =>
      have htriv : triviaOf token = [token] := by simp [triviaOf, hk, isTriviaKind]
      rw [htriv]
      by_cases hnil : held = []
      · -- nothing held back: the line break is eaten at once
        subst hnil
        simp only [if_true, ne_eq, not_true_eq_false, and_false, if_false, List.length_nil]
        apply runs_bind (runs_pushEvents p _)
        intro _ q hq
        apply runs_bind_get
        rw [if_neg (by simp)]
        exact runs_pure ⟨[eatToken token], hq, rfl⟩
      · simp only [hnil, if_false]
        apply runs_bind_get
        split_ifs
        · exact runs_flush doc p p held [token] _ _ hdoc [] (addEvents_nil p).symm rfl
        · exact runs_flush doc p p held [token] _ _ hdoc [] (addEvents_nil p).symm rfl
        · exact runs_hold p held [token] _ _ rfl
  all_goals
    have hnone : triviaOf token = [] := by simp [triviaOf, hk, isTriviaKind]
    rw [hnone]
    dsimp only
    split_ifs with hheld
    · exact runs_flush doc p p held [] _ _ hdoc [] (addEvents_nil p).symm (by simp [eatenBy])
    · exact runs_hold p held [] _ _ (by simp)

theorem runs_parseTriviaFrom (doc : DocParser) (count : Nat) :
    ∀ (p : LuaParser) (start : Nat) (acc : Nat × List LuaTokenData),
      p.parseConfig.enableEmmyluaDoc = false → start + count ≤ p.tokens.length →
      Runs (parseTriviaFrom doc start count acc) p
        (TriviaPost p acc.2 (((p.tokens.drop start).take count).flatMap triviaOf)) := by
  induction count with
  | zero =>
    intro p start acc _ _
    exact runs_pure ⟨[], (addEvents_nil p).symm, by simp [eatenBy]⟩
  | succ count ih =>
    intro p start acc hdoc hle
    unfold parseTriviaFrom
    apply runs_bind (runs_tokenAt start (by omega))
    intro token q hq
    obtain ⟨rfl, htoken⟩ := hq
    apply runs_bind (runs_parseTriviaToken doc q start token acc hdoc)
    intro acc' q' hq'
    obtain ⟨es, rfl, hes⟩ := hq'
    apply (ih (q.addEvents es) (start + 1) acc' hdoc (by simpa [LuaParser.addEvents] using
      (by omega : start + 1 + count ≤ q.tokens.length))).mono
    intro acc'' q'' hpost
    obtain ⟨es', rfl, hes'⟩ := hpost
    refine ⟨es ++ es', addEvents_addEvents q es es', ?_⟩
    have hdrop : q.tokens.drop start = token :: q.tokens.drop (start + 1) := by
      obtain ⟨hlt, heq⟩ := List.getElem?_eq_some_iff.1 htoken
      rw [← heq]
      exact List.drop_eq_getElem_cons hlt
    have htail : (q.addEvents es).tokens = q.tokens := rfl
    rw [htail] at hes'
    rw [eatenBy_append, List.append_assoc, hes', ← List.append_assoc, hes, hdrop]
    simp

theorem runs_parseTriviaTokens (doc : DocParser) (p : LuaParser) (next : Nat)
    (hdoc : p.parseConfig.enableEmmyluaDoc = false) (hle : p.tokenIndex ≤ next)
    (hnext : next ≤ p.tokens.length) :
    Runs (parseTriviaTokens doc next) p fun _ q => ∃ es, q = p.addEvents es ∧ eatenBy es
        = ((p.tokens.drop p.tokenIndex).take (next - p.tokenIndex)).flatMap triviaOf := by
  unfold parseTriviaTokens
  apply runs_bind_get
  apply runs_bind (runs_parseTriviaFrom doc _ p p.tokenIndex (0, []) hdoc (by omega))
  intro acc q' hpost
  obtain ⟨es, rfl, hes⟩ := hpost
  split_ifs with hnil
  · have hdoc' : (p.addEvents es).parseConfig.enableEmmyluaDoc = false := hdoc
    apply (runs_parseComments doc _ acc.2 hdoc').mono
    intro _ q'' hq''
    refine ⟨es ++ acc.2.map eatToken, by rw [hq'', addEvents_addEvents], ?_⟩
    rw [eatenBy_append, eatenBy_map_eatToken, hes]
    rfl
  · apply runs_pure
    refine ⟨es, rfl, ?_⟩
    have hacc : acc.2 = [] := by simpa using hnil
    rw [hacc, List.append_nil] at hes
    exact hes

/-! ## §7. The next token that is no trivia -/

section

variable (tokens : List LuaTokenData) (i : Nat)

theorem skipTrivia_le (h : i ≤ tokens.length) : skipTrivia tokens i ≤ tokens.length := by
  have hlen := (List.takeWhile_sublist (l := tokens.drop i)
    (fun token => isTriviaKind token.kind)).length_le
  rw [List.length_drop] at hlen
  unfold skipTrivia
  omega

theorem take_skipTrivia :
    (tokens.drop i).take (skipTrivia tokens i - i)
      = (tokens.drop i).takeWhile fun token => isTriviaKind token.kind := by
  unfold skipTrivia
  rw [Nat.add_sub_cancel_left]
  exact (List.prefix_iff_eq_take.1 (List.takeWhile_prefix _)).symm

/-- The tokens skipped are trivia. -/
theorem skipTrivia_isTrivia (token : LuaTokenData)
    (h : token ∈ (tokens.drop i).take (skipTrivia tokens i - i)) :
    isTriviaKind token.kind = true := by
  rw [take_skipTrivia] at h
  have hall := List.all_takeWhile (l := tokens.drop i) (p := fun t => isTriviaKind t.kind)
  exact (List.all_eq_true.1 hall) token h

theorem skipTrivia_trivia :
    ((tokens.drop i).take (skipTrivia tokens i - i)).flatMap triviaOf
      = (tokens.drop i).take (skipTrivia tokens i - i) := by
  have hall := skipTrivia_isTrivia tokens i
  generalize (tokens.drop i).take (skipTrivia tokens i - i) = l at hall
  induction l with
  | nil => rfl
  | cons token l ih =>
    have htoken : triviaOf token = [token] := by simp [triviaOf, hall token (by simp)]
    rw [List.flatMap_cons, htoken, ih (fun t ht => hall t (by simp [ht]))]
    rfl

/-- Behind the trivia skipped there is none. -/
theorem kindAt_skipTrivia : isTriviaKind (kindAt tokens (skipTrivia tokens i)) = false := by
  unfold kindAt skipTrivia
  rw [← List.getElem?_drop]
  generalize tokens.drop i = l
  induction l with
  | nil => rfl
  | cons token l ih =>
    by_cases h : isTriviaKind token.kind = true
    · rw [List.takeWhile_cons_of_pos (by simpa using h)]
      simpa using ih
    · rw [List.takeWhile_cons_of_neg (by simpa using h)]
      simpa using h

end

/-! ## §8. `bump` -/

theorem eatable_append (tokens tokens' : List LuaTokenData) :
    eatable (tokens ++ tokens') = eatable tokens ++ eatable tokens' :=
  List.filter_append tokens tokens'

/-- Trivia can be eaten. -/
theorem eatable_skipTrivia (tokens : List LuaTokenData) (i : Nat) :
    eatable ((tokens.drop i).take (skipTrivia tokens i - i))
      = (tokens.drop i).take (skipTrivia tokens i - i) := by
  apply List.filter_eq_self.2
  intro token htoken
  have htrivia := skipTrivia_isTrivia tokens i token htoken
  revert htrivia
  cases token.kind <;> simp [isTriviaKind]

/-- The current token is eaten here if it is no trivia, and with the trivia if it is. -/
theorem runs_eatCurrent (p : LuaParser) (token : LuaTokenData)
    (hget : p.tokens[p.tokenIndex]? = some token) (hkind : p.currentToken = token.kind)
    (hne : token.kind ≠ .TkEof) :
    Runs eatCurrent p fun _ q => ∃ es, q = p.addEvents es
      ∧ eatenBy es ++ triviaOf token = eatable [token] := by
  unfold eatCurrent
  apply runs_bind_get
  rw [hkind, hget]
  by_cases hnone : token.kind = .None
  · rw [hnone]
    refine runs_pure ⟨[], (addEvents_nil p).symm, ?_⟩
    simp [triviaOf, hnone, isTriviaKind, eatenBy, eatable]
  have heatable : eatable [token] = [token] := by simp [eatable, hnone]
  rw [heatable]
  by_cases htrivia : isTriviaKind token.kind = true
  · have hinv : isInvalidKind token.kind = true := by
      revert htrivia
      cases token.kind <;> simp [isTriviaKind, isInvalidKind]
    rw [hinv]
    exact runs_pure ⟨[], (addEvents_nil p).symm, by simp [triviaOf, htrivia, eatenBy]⟩
  · have hinv : isInvalidKind token.kind = false := by
      revert htrivia hnone hne
      cases token.kind <;> simp [isTriviaKind, isInvalidKind]
    rw [hinv]
    apply (runs_pushEvents p [eatToken token]).mono
    intro _ q hq
    exact ⟨[eatToken token], hq, by simp [triviaOf, htrivia, eatenBy, eatToken]⟩

/-- **Eats the token at the cursor and the trivia behind it, in order**, whether the cursor
    is on trivia (as it is before the first `bump`) or not. -/
theorem runs_bump_any (doc : DocParser) (p : LuaParser)
    (hinText : ∀ token ∈ p.tokens, inText p.text token.range = true)
    (hdoc : p.parseConfig.enableEmmyluaDoc = false)
    (hcurrent : p.currentToken = kindAt p.tokens p.tokenIndex) (hne : p.currentToken ≠ .TkEof)
    (hlt : p.tokenIndex < p.tokens.length)
    (hnoEof : ∀ token ∈ p.tokens.take p.tokenIndex, token.kind ≠ .TkEof)
    (heaten : eatenBy p.events = eatable (p.tokens.take p.tokenIndex))
    (hroot : IsStart p.events 0) :
    Runs (bump doc) p fun _ q => Step p q ∧ p.tokenIndex < q.tokenIndex
      ∧ q.tokenIndex = skipTrivia p.tokens (p.tokenIndex + 1) := by
  have hnext := skipTrivia_le p.tokens (p.tokenIndex + 1) hlt
  have hge : p.tokenIndex + 1 ≤ skipTrivia p.tokens (p.tokenIndex + 1) := Nat.le_add_right _ _
  have hget : p.tokens[p.tokenIndex]? = some (p.tokens[p.tokenIndex]) :=
    List.getElem?_eq_getElem hlt
  generalize htoken : p.tokens[p.tokenIndex] = token at hget
  have hkind : p.currentToken = token.kind := by
    rw [hcurrent]
    unfold kindAt
    rw [hget]
  have hsub : skipTrivia p.tokens (p.tokenIndex + 1) - p.tokenIndex
      = skipTrivia p.tokens (p.tokenIndex + 1) - (p.tokenIndex + 1) + 1 := by omega
  -- the tokens gone over: the current one and the trivia behind it
  have htaken : (p.tokens.drop p.tokenIndex).take
        (skipTrivia p.tokens (p.tokenIndex + 1) - p.tokenIndex)
      = token :: (p.tokens.drop (p.tokenIndex + 1)).take
        (skipTrivia p.tokens (p.tokenIndex + 1) - (p.tokenIndex + 1)) := by
    rw [hsub, ← htoken, List.drop_eq_getElem_cons hlt, List.take_succ_cons]
  have hsplit : p.tokens.take (skipTrivia p.tokens (p.tokenIndex + 1))
      = p.tokens.take p.tokenIndex ++ (p.tokens.drop p.tokenIndex).take
        (skipTrivia p.tokens (p.tokenIndex + 1) - p.tokenIndex) := by
    rw [← List.take_add]
    congr 1
    omega
  unfold bump
  apply runs_bind_get
  apply runs_bind (runs_eatCurrent p token hget hkind (hkind ▸ hne))
  intro _ q₁ hpost₁
  obtain ⟨es, hq₁, hes⟩ := hpost₁
  have htok₁ : q₁.tokens = p.tokens := by rw [hq₁]; rfl
  have hidx₁ : q₁.tokenIndex = p.tokenIndex := by rw [hq₁]; rfl
  apply runs_bind (runs_parseTriviaTokens doc q₁ (skipTrivia p.tokens (p.tokenIndex + 1))
    (by rw [hq₁]; exact hdoc) (by omega) (by rw [htok₁]; exact hnext))
  intro _ q₂ hpost₂
  obtain ⟨es', hq₂, hes'⟩ := hpost₂
  apply runs_modify
  rw [hq₂, hq₁, addEvents_addEvents]
  have heatenAll : eatenBy (es ++ es') = eatable ((p.tokens.drop p.tokenIndex).take
      (skipTrivia p.tokens (p.tokenIndex + 1) - p.tokenIndex)) := by
    rw [htok₁, hidx₁, htaken, List.flatMap_cons, skipTrivia_trivia] at hes'
    have hcons := eatable_append [token] ((p.tokens.drop (p.tokenIndex + 1)).take
      (skipTrivia p.tokens (p.tokenIndex + 1) - (p.tokenIndex + 1)))
    rw [eatable_skipTrivia] at hcons
    rw [eatenBy_append, hes', ← List.append_assoc, hes, htaken]
    exact hcons.symm
  refine ⟨⟨⟨hinText, hdoc, hnext, rfl, kindAt_skipTrivia _ _, ?_, ?_, ?_⟩, rfl, ?_, Nat.le_refl _,
    fun i hi => isStart_append _ _ i hi⟩, ?_, rfl⟩
  · show ∀ t ∈ p.tokens.take (skipTrivia p.tokens (p.tokenIndex + 1)), t.kind ≠ .TkEof
    intro t ht
    rw [hsplit, htaken] at ht
    simp only [List.mem_append, List.mem_cons] at ht
    obtain ht | ht | ht := ht
    · exact hnoEof t ht
    · rw [ht, ← hkind]
      exact hne
    · have htrivia := skipTrivia_isTrivia p.tokens (p.tokenIndex + 1) t ht
      intro heof
      rw [heof] at htrivia
      simp [isTriviaKind] at htrivia
  · show eatenBy (p.events ++ (es ++ es')) = eatable (p.tokens.take _)
    rw [eatenBy_append, heaten, heatenAll, hsplit, eatable_append]
  · exact isStart_append _ _ 0 hroot
  · show p.tokenIndex ≤ skipTrivia p.tokens (p.tokenIndex + 1)
    omega
  · show p.tokenIndex < skipTrivia p.tokens (p.tokenIndex + 1)
    omega

/-- `bump` on a token moves. -/
theorem runs_bump (doc : DocParser) {p : LuaParser} (h : Good p) (hne : p.currentToken ≠ .TkEof) :
    Runs (bump doc) p fun _ q => Moved p q
      ∧ q.tokenIndex = skipTrivia p.tokens (p.tokenIndex + 1) := by
  apply (runs_bump_any doc p h.inText h.docOff h.current_eq hne (h.index_lt hne) h.noEof h.eaten
    h.root).mono
  intro _ q hq
  exact ⟨⟨hq.1, hq.2.1⟩, hq.2.2⟩

end GluaLs.Syntax
