/-
  GluaLs.Syntax.Tiling — when the tokens tile the text.

  The tokens of `tokenize` spell the text up to its first NUL (`tokenizeLoop_spells`), and
  all of them but the one a string filed at a line break are non-empty.  So they tile the
  text EXACTLY WHEN it holds no NUL and the lexer does not start inside a string at a line
  break (`tokenize_tiling_iff`).
-/
import Mathlib.Data.List.TakeWhile
import GluaLs.Syntax.Lexer

namespace GluaLs.Syntax

open GluaLs.Lib (byteLen byteLen_nil byteLen_append)

namespace LuaLexer

/-! ## §1. How far one token goes

  A token takes a word off what lies ahead; the loop goes on until the reader says the text
  ended.  Two things keep the tokens from tiling the text: the reader takes a NUL for the
  end, and a lexer that starts INSIDE A STRING at a line break files an empty token.  There
  are no others (`tokenize_tiling_iff`).
-/

theorem eatWhile_bump (l : LuaLexer) (func : Char → Bool) (hne : l.current ≠ EOF)
    (hf : func l.current = true) : l.eatWhile func = l.bump.eatWhile func := by
  have hne' : l.reader.current ≠ EOF := hne
  have hf' : func l.reader.current = true := hf
  have hr : (l.reader.eatWhile func).2 = (l.reader.bump.eatWhile func).2 := by
    rw [Reader.eatWhile, dif_pos hne', if_pos hf']
  show ({ l with reader := (l.reader.eatWhile func).2 } : LuaLexer)
    = { l with reader := (l.reader.bump.eatWhile func).2 }
  rw [hr]

/-- What one token reads. -/
inductive Reads (l : LuaLexer) : LuaTokenKind × LuaLexer → Prop where
  | newLine (h : isLineBreak l.current = true) : Reads l (.TkEndOfLine, l.lexNewLine)
  | whiteSpace (h : l.current = ' ' ∨ l.current = '\t') : Reads l (.TkWhitespace, l.lexWhiteSpace)
  | quote : Reads l l.lexQuote
  | number : Reads l l.lexNumber
  | minus : Reads l l.lexMinus
  | leftBracket : Reads l l.lexLeftBracket
  | pair {second : Char} {k₁ k₂ : LuaTokenKind} (h : .TkEof ∉ [k₁, k₂]) :
      Reads l (l.lexPair second k₁ k₂)
  | angle {sign : Char} {symbol : LuaNonStdSymbol} {k₁ k₂ k₃ k₄ : LuaTokenKind}
      (h : .TkEof ∉ [k₁, k₂, k₃, k₄]) : Reads l (l.lexAngle sign symbol k₁ k₂ k₃ k₄)
  | tilde : Reads l l.lexTilde
  | dot : Reads l l.lexDot
  | slash : Reads l l.lexSlash
  | assignable {symbol : LuaNonStdSymbol} {k₁ k₂ : LuaTokenKind} (h : .TkEof ∉ [k₁, k₂]) :
      Reads l (l.lexAssignable symbol k₁ k₂)
  | exclamation : Reads l l.lexExclamation
  | logic {sign : Char} {double assign : LuaNonStdSymbol} {k₁ k₂ k₃ : LuaTokenKind}
      (h : .TkEof ∉ [k₁, k₂, k₃]) : Reads l (l.lexLogic sign double assign k₁ k₂ k₃)
  | single {kind : LuaTokenKind} (h : singleKind l.current = some kind) : Reads l (kind, l.bump)
  | ended (h : l.current = EOF) : Reads l (.TkEof, l)
  | name : Reads l l.lexName
  | unknown : Reads l (.TkUnknown, l.bump)

theorem reads_branch {l : LuaLexer} {c : Prop} [Decidable c] {r : LuaTokenKind × LuaLexer}
    {other : Option (LuaTokenKind × LuaLexer)} (h : Reads l r)
    (hother : ∀ r, other = some r → Reads l r) :
    ∀ r', (if c then some r else other) = some r' → Reads l r' := by
  intro r' hr
  split at hr
  · exact Option.some.inj hr ▸ h
  · exact hother r' hr

theorem reads_lexOperator (l : LuaLexer) : ∀ r, l.lexOperator = some r → Reads l r := by
  unfold lexOperator
  -- one operator at a time: the branch taken is the token, the others are left to the rest
  exact reads_branch .minus <| reads_branch .leftBracket <| reads_branch (.pair (by decide)) <|
    reads_branch (.angle (by decide)) <| reads_branch (.angle (by decide)) <|
    reads_branch .tilde <| reads_branch (.pair (by decide)) <| reads_branch .dot <|
    reads_branch .slash <| reads_branch (.assignable (by decide)) <|
    reads_branch (.assignable (by decide)) <| reads_branch (.assignable (by decide)) <|
    reads_branch (.assignable (by decide)) <| reads_branch .exclamation <|
    reads_branch (.logic (by decide)) <| reads_branch (.logic (by decide)) fun _ h => by cases h

theorem reads_lexToken (l : LuaLexer) : Reads l l.lexToken := by
  unfold lexToken
  dsimp only
  split
  · next hbreak => exact .newLine hbreak
  split
  · next hspace => exact .whiteSpace hspace
  split
  · exact .quote
  split
  · exact .number
  cases hoperator : l.lexOperator with
  | some r => exact reads_lexOperator l r hoperator
  | none =>
    cases hsingle : singleKind l.current with
    | some kind => exact .single hsingle
    | none =>
      split_ifs with hend
      · exact .ended hend
      · exact .name
      · exact .unknown

/-- A token that starts at a character takes it. -/
theorem Reads.advances {l : LuaLexer} {r : LuaTokenKind × LuaLexer} (h : Reads l r)
    (hne : l.current ≠ EOF) : Advances l.bump r.2 := by
  have hself : Advances l.bump l.bump := .refl _
  cases h with
  | newLine h =>
    have hb : l.current = '\n' ∨ l.current = '\r' := by simpa [isLineBreak] using h
    show Advances l.bump l.lexNewLine
    unfold lexNewLine
    split_ifs <;> first | exact absurd hb (by tauto) | apply_rules [Advances.bump]
  | whiteSpace h =>
    have hf : (l.current == ' ' || l.current == '\t') = true := by simpa using h
    show Advances l.bump (l.eatWhile fun ch => ch == ' ' || ch == '\t')
    rw [eatWhile_bump l _ hne hf]
    exact hself.eatWhile
  | quote => exact hself.lexQuote
  | number => exact hself.lexNumber
  | minus => exact hself.lexMinus
  | leftBracket => exact hself.lexLeftBracket
  | pair => exact hself.lexPair
  | angle => exact hself.lexAngle
  | tilde => exact hself.lexTilde
  | dot => exact hself.lexDot
  | slash => exact hself.lexSlash
  | assignable => exact hself.lexAssignable
  | exclamation => exact hself.lexExclamation
  | logic => exact hself.lexLogic
  | single | unknown => exact hself
  | ended h => exact absurd h hne
  | name => exact hself.eatWhile

/-- A string is left open only where the text ends. -/
theorem lexString_state (quote : Char) (l : LuaLexer) :
    (l.lexString quote).2.state = .Normal ∨ (l.lexString quote).2.current = EOF := by
  unfold lexString
  dsimp only
  by_cases h : (l.stringBody quote).current = quote ∨ (l.stringBody quote).current ≠ EOF
  · rw [if_pos h]
    split_ifs <;> exact .inl rfl
  · rw [if_neg h]
    have heof : (l.stringBody quote).current = EOF := by tauto
    have hq : (l.stringBody quote).current ≠ quote := by tauto
    rw [if_pos hq]
    exact .inr heof

theorem longStringBody_stops (sep : Nat) (l : LuaLexer) :
    (l.longStringBody sep).1 = true ∨ (l.longStringBody sep).2.current = EOF := by
  induction l using LuaLexer.longStringBody.induct sep with
  | case1 l hne hb _ _ hend =>
    rw [longStringBody, dif_pos hne, if_pos hb]
    rw [if_pos hend]
    exact .inl rfl
  | case2 l hne hb _ _ hend ih =>
    rw [longStringBody, dif_pos hne, if_pos hb]
    rw [if_neg hend]
    exact ih
  | case3 l hne hb ih => rw [longStringBody, dif_pos hne, if_neg hb]; exact ih
  | case4 l hne => rw [longStringBody, dif_neg hne]; exact .inr (not_not.1 hne)

theorem lexLongString_state (sep : Nat) (l : LuaLexer) :
    (l.lexLongString sep).2.state = .Normal ∨ (l.lexLongString sep).2.current = EOF := by
  unfold lexLongString
  obtain h | h := longStringBody_stops sep l
  · left
    simp [h, setState]
  · by_cases hend : (l.longStringBody sep).1 = true
    · left
      simp [hend, setState]
    · right
      simp only [hend, h, ne_eq, not_true_eq_false, Bool.false_eq_true, or_self, if_false]
      exact h

/-- A long string takes the character it starts at. -/
theorem longStringBody_advances (sep : Nat) (l : LuaLexer) (hne : l.current ≠ EOF) :
    Advances l.bump (l.longStringBody sep).2 := by
  rw [longStringBody, dif_pos hne]
  split_ifs
  · dsimp only
    split_ifs
    · exact (Advances.refl _).eatWhile.bump
    · exact (Advances.refl _).eatWhile.longStringBody
  · exact (Advances.refl _).longStringBody

theorem lexLongString_advances (sep : Nat) (l : LuaLexer) (hne : l.current ≠ EOF) :
    Advances l.bump (l.lexLongString sep).2 := by
  have hb := longStringBody_advances sep l hne
  unfold lexLongString
  dsimp only
  split_ifs <;> apply_rules [Advances.error]

/-- The lexer starts inside a string, at a line break that is not its quote. -/
def AtLineBreakOfString (l : LuaLexer) : Prop :=
  ∃ quote, l.state = .String quote ∧ isLineBreak l.current = true ∧ l.current ≠ quote

/-- A string takes the character it starts at, unless that is a line break. -/
theorem lexString_advances (quote : Char) (l : LuaLexer) (hne : l.current ≠ EOF)
    (hbreak : ¬ (isLineBreak l.current = true ∧ l.current ≠ quote)) :
    Advances l.bump (l.lexString quote).2 := by
  by_cases hq : l.current = quote
  · -- the quote itself: nothing of a body, then the quote
    have hb : l.stringBody quote = l := by
      rw [stringBody, dif_pos hne, if_pos (Or.inl hq)]
    unfold lexString
    rw [hb]
    dsimp only
    have hq' : ¬ (l.setState .Normal).current ≠ quote := not_not.2 hq
    rw [if_pos (Or.inl hq), if_neg hq']
    exact Advances.refl _
  · have hl : ¬ (l.current = quote ∨ isLineBreak l.current = true) := by tauto
    have hb : Advances l.bump (l.stringBody quote) := by
      rw [stringBody, dif_pos hne, if_neg hl]
      split_ifs
      · exact (Advances.refl _).stringBody
      · exact (Advances.refl _).lexEscape.stringBody
    unfold lexString
    dsimp only
    split_ifs <;> apply_rules [Advances.bump, Advances.error]

/-- At a line break a string files nothing and is closed. -/
theorem lexString_lineBreak (quote : Char) (l : LuaLexer) (hne : l.current ≠ EOF)
    (hbreak : isLineBreak l.current = true) (hq : l.current ≠ quote) :
    (l.lexString quote).2 = (l.setState .Normal).error "unfinished string" := by
  have hb : l.stringBody quote = l := by
    rw [stringBody, dif_pos hne, if_pos (Or.inr hbreak)]
  unfold lexString
  rw [hb]
  dsimp only
  rw [if_pos (Or.inr hne)]
  have hq' : (l.setState .Normal).current ≠ quote := hq
  rw [if_pos hq']

/-! ## §2. One turn of the loop -/

/-- One turn either takes a character or, inside a string at a line break, only closes the
    string. -/
theorem lexInState_moves (l : LuaLexer) (hne : l.current ≠ EOF) :
    (l.state = .Normal ∧ Advances l.resetBuff.bump l.lexInState.2)
      ∨ (l.state ≠ .Normal ∧ ¬ l.AtLineBreakOfString ∧ Advances l.bump l.lexInState.2)
      ∨ (l.AtLineBreakOfString ∧ l.lexInState.2.state = .Normal
          ∧ l.lexInState.2.reader = l.reader) := by
  unfold lexInState AtLineBreakOfString
  cases hs : l.state with
  | Normal => exact .inl ⟨rfl, (reads_lexToken l.resetBuff).advances hne⟩
  | LongString sep | LongComment sep =>
    exact .inr (.inl ⟨by simp, by simp, lexLongString_advances sep l hne⟩)
  | String quote =>
    right
    by_cases hbreak : isLineBreak l.current = true ∧ l.current ≠ quote
    · right
      rw [lexString_lineBreak quote l hne hbreak.1 hbreak.2]
      exact ⟨⟨quote, rfl, hbreak⟩, rfl, rfl⟩
    · left
      refine ⟨by simp, ?_, lexString_advances quote l hne hbreak⟩
      intro h
      obtain ⟨q, hq, h⟩ := h
      cases hq
      exact hbreak h

/-- What bounds the loop: the characters ahead, then whether a string is open. -/
def measure (l : LuaLexer) : Nat := 2 * l.reader.left + (if l.state = .Normal then 0 else 1)

theorem measure_lexInState_lt (l : LuaLexer) (hne : l.current ≠ EOF) :
    l.lexInState.2.measure < l.measure := by
  have hstate : ∀ l' : LuaLexer, (if l'.state = .Normal then 0 else 1) ≤ 1 := by
    intro l'
    split <;> omega
  have h' := hstate l.lexInState.2
  unfold measure
  obtain ⟨_, hadv⟩ | ⟨_, _, hadv⟩ | ⟨⟨quote, hs, _⟩, hn, hr⟩ := lexInState_moves l hne
  · have hlt := left_lt_of_advances (l := l.resetBuff) hne hadv
    have hleft : l.resetBuff.reader.left = l.reader.left := rfl
    omega
  · have hlt := left_lt_of_advances hne hadv
    omega
  · rw [hr, hn, hs]
    simp

/-- The loop of `tokenize`. -/
def tokenizeLoop (l : LuaLexer) : List LuaTokenData × LuaLexer :=
  if _hne : l.current ≠ EOF then
    let r := l.lexInState
    if r.1 = .TkEof then ([], r.2)
    else
      let rest := tokenizeLoop r.2
      (⟨r.1, r.2.reader.currentRange⟩ :: rest.1, rest.2)
  else ([], l)
termination_by l.measure
decreasing_by exact measure_lexInState_lt l _hne

/-- All tokens of the reader's text; a first line that starts with `#` is a shebang. -/
def tokenize (l : LuaLexer) : List LuaTokenData × LuaLexer :=
  if l.state = .Normal ∧ l.current = '#' then
    let l := l.eatLine
    let rest := l.tokenizeLoop
    (⟨.TkShebang, l.reader.currentRange⟩ :: rest.1, rest.2)
  else l.tokenizeLoop

/-! ## §3. No token is the end-of-file token -/

theorem lexString_kind (quote : Char) (l : LuaLexer) : (l.lexString quote).1 = .TkString := by
  unfold lexString
  dsimp only
  split_ifs <;> rfl

theorem nameToKind_ne_eof (l : LuaLexer) (name : String) : l.nameToKind name ≠ .TkEof := by
  unfold nameToKind
  split <;> first | decide | (split_ifs <;> decide)

theorem lexNumber_kind_ne_eof (l : LuaLexer) : l.lexNumber.1 ≠ .TkEof := by
  unfold lexNumber
  dsimp only
  split_ifs <;> simp

theorem singleKind_ne_eof (ch : Char) (kind : LuaTokenKind) (h : singleKind ch = some kind) :
    kind ≠ .TkEof := by
  unfold singleKind at h
  split_ifs at h <;> cases h <;> decide

theorem Reads.kind_ne_eof {l : LuaLexer} {r : LuaTokenKind × LuaLexer} (h : Reads l r)
    (hne : l.current ≠ EOF) : r.1 ≠ .TkEof := by
  have hassign : ∀ (l : LuaLexer) (symbol : LuaNonStdSymbol) (k₁ k₂ : LuaTokenKind),
      .TkEof ∉ [k₁, k₂] → (l.lexAssignable symbol k₁ k₂).1 ≠ .TkEof := by
    intro l symbol k₁ k₂ h
    unfold lexAssignable
    dsimp only
    split_ifs <;> grind
  cases h with
  | newLine | whiteSpace | unknown => simp
  | quote =>
    unfold lexQuote
    dsimp only
    split_ifs
    · simp
    · rw [lexString_kind]
      decide
  | number => exact lexNumber_kind_ne_eof l
  | minus =>
    unfold lexMinus
    dsimp only
    split_ifs <;> simp
  | leftBracket =>
    unfold lexLeftBracket lexLongString
    dsimp only
    split_ifs <;> simp
  | pair h =>
    unfold lexPair
    dsimp only
    split_ifs <;> grind
  | angle h =>
    unfold lexAngle
    dsimp only
    split_ifs
    · grind
    · exact hassign _ _ _ _ (by grind)
    · grind
  | tilde =>
    unfold lexTilde
    dsimp only
    split_ifs <;> simp
  | dot =>
    unfold lexDot
    dsimp only
    split_ifs <;> first | (simp; done) | exact lexNumber_kind_ne_eof l
  | slash =>
    unfold lexSlash
    dsimp only
    split_ifs <;> first | (simp; done) | exact hassign _ _ _ _ (by simp)
  | assignable h => exact hassign l _ _ _ h
  | exclamation =>
    unfold lexExclamation
    split_ifs <;> first | (simp; done) | exact hassign _ _ _ _ (by simp)
  | logic h =>
    unfold lexLogic
    dsimp only
    split_ifs <;> grind
  | single h => exact singleKind_ne_eof _ _ h
  | ended h => exact absurd h hne
  | name => exact nameToKind_ne_eof _ _

theorem lexInState_kind_ne_eof (l : LuaLexer) (hne : l.current ≠ EOF) :
    l.lexInState.1 ≠ .TkEof := by
  unfold lexInState
  cases l.state with
  | Normal => exact (reads_lexToken l.resetBuff).kind_ne_eof hne
  | String quote =>
    rw [lexString_kind]
    decide
  | LongString sep => simp [lexLongString]
  | LongComment sep => simp

/-! ## §4. A string is left open only where the text ends -/

section

variable (l : LuaLexer)

@[simp] theorem bump_state : l.bump.state = l.state := rfl

@[simp] theorem eatWhile_state (func : Char → Bool) :
    (l.eatWhile func).state = l.state := rfl

@[simp] theorem error_state (message : String) :
    (l.error message).state = l.state := rfl

@[simp] theorem noteIntegerOperation_state (message : String) :
    (l.noteIntegerOperation message).state = l.state := by
  unfold noteIntegerOperation
  split_ifs <;> rfl

@[simp] theorem lexAssignable_state (symbol : LuaNonStdSymbol)
    (assign plain : LuaTokenKind) : (l.lexAssignable symbol assign plain).2.state = l.state := by
  unfold lexAssignable
  dsimp only
  split_ifs <;> rfl

@[simp] theorem lexPair_state (second : Char) (both single : LuaTokenKind) :
    (l.lexPair second both single).2.state = l.state := by
  unfold lexPair
  dsimp only
  split_ifs <;> rfl

@[simp] theorem lexNewLine_state : l.lexNewLine.state = l.state := by
  unfold lexNewLine
  split_ifs <;> rfl

@[simp] theorem slashStarBody_state : l.slashStarBody.state = l.state := by
  induction l using LuaLexer.slashStarBody.induct with
  | case1 l hne hs he => rw [slashStarBody, dif_pos hne, if_pos hs, if_pos he]; rfl
  | case2 l hne hs he ih =>
    rw [slashStarBody, dif_pos hne, if_pos hs, if_neg he, ih]
    rfl
  | case3 l hne hs ih =>
    rw [slashStarBody, dif_pos hne, if_neg hs, ih]
    rfl
  | case4 l hne => rw [slashStarBody, dif_neg hne]; rfl

@[simp] theorem numberStep_state (state : NumberState) :
    (l.numberStep state).2.2.state = l.state := by
  have hsign : l.bumpSign.state = l.state := by
    unfold bumpSign
    split_ifs <;> rfl
  unfold numberStep
  cases state with
  | WithExpo => rfl
  | Bin => rfl
  | _ => dsimp only; split_ifs <;> first | rfl | exact hsign

@[simp] theorem numberBody_state (state : NumberState) :
    (l.numberBody state).2.state = l.state := by
  induction state, l using LuaLexer.numberBody.induct with
  | case1 state l hne _ hgo ih =>
    rw [numberBody, dif_pos hne]
    rw [if_pos hgo, ih, bump_state, numberStep_state]
  | case2 state l hne _ hgo =>
    rw [numberBody, dif_pos hne]
    rw [if_neg hgo, numberStep_state]
  | case3 state l hne => rw [numberBody, dif_neg hne]

@[simp] theorem lexNumber_state : l.lexNumber.2.state = l.state := by
  have hs : l.numberStart.2.state = l.state := by
    unfold numberStart
    dsimp only
    split_ifs <;> rfl
  unfold lexNumber
  dsimp only
  split_ifs <;> simp [hs]

end

/-- The lexer keeps its state, is back in the normal one, or the text ended. -/
def Settles (l l' : LuaLexer) : Prop :=
  l'.state = l.state ∨ l'.state = .Normal ∨ l'.current = EOF

theorem Reads.settles {l : LuaLexer} {r : LuaTokenKind × LuaLexer} (h : Reads l r) :
    Settles l r.2 := by
  cases h with
  | newLine => exact .inl (lexNewLine_state l)
  | quote =>
    unfold lexQuote
    dsimp only
    split_ifs
    · exact .inl rfl
    · exact .inr (lexString_state _ _)
  | number => exact .inl (lexNumber_state l)
  | minus =>
    unfold lexMinus eatLine
    dsimp only
    split_ifs <;> first | exact .inl rfl | exact .inr (lexLongString_state _ _)
  | leftBracket =>
    unfold lexLeftBracket
    dsimp only
    split_ifs <;> first | exact .inl rfl | exact .inr (lexLongString_state _ _)
  -- the other tokens leave the state alone
  | pair | assignable => exact .inl (by simp)
  | angle =>
    unfold lexAngle
    dsimp only
    split_ifs <;> exact .inl (by simp)
  | tilde =>
    unfold lexTilde
    dsimp only
    split_ifs <;> exact .inl (by simp)
  | dot =>
    unfold lexDot
    dsimp only
    split_ifs <;> exact .inl (by simp)
  | slash =>
    unfold lexSlash eatLine
    dsimp only
    split_ifs <;> exact .inl (by simp)
  | exclamation =>
    unfold lexExclamation
    split_ifs <;> exact .inl (by simp)
  | logic =>
    unfold lexLogic
    dsimp only
    split_ifs <;> exact .inl (by simp)
  | whiteSpace | single | ended | name | unknown => exact .inl rfl

/-- Behind a token the lexer is in its normal state, or the text ended. -/
theorem lexInState_state (l : LuaLexer) :
    l.lexInState.2.state = .Normal ∨ l.lexInState.2.current = EOF := by
  unfold lexInState
  cases hs : l.state with
  | Normal =>
    have hkept : l.resetBuff.state = .Normal := hs
    obtain h | h := (reads_lexToken l.resetBuff).settles
    · exact .inl (h.trans hkept)
    · exact h
  | String quote => exact lexString_state quote l
  | LongString sep => exact lexLongString_state sep l
  | LongComment sep => exact lexLongString_state sep l

end LuaLexer

/-! ## §5. Tilings -/

/-- Each range starts where the one before it ends; the last ends at `stop`. -/
def Contiguous : Nat → List LuaTokenData → Nat → Prop
  | start, [], stop => start = stop
  | start, token :: tokens, stop =>
    token.range.startOffset = start ∧ Contiguous token.range.endOffset tokens stop

/-- The tokens' ranges tile the text. -/
structure Tiling (text : List Char) (tokens : List LuaTokenData) : Prop where
  nonempty : ∀ token ∈ tokens, 0 < token.range.length
  boundaries : ∀ token ∈ tokens,
    IsBoundary text token.range.startOffset ∧ IsBoundary text token.range.endOffset
  contiguous : Contiguous 0 tokens (byteLen text)
  concat : (tokens.flatMap fun token => slice text token.range) = text

/-- Behind `pre`, the tokens spell `body` word by word. -/
def Spells : List Char → List LuaTokenData → List Char → Prop
  | _, [], body => body = []
  | pre, token :: tokens, body =>
    ∃ word rest, body = word ++ rest ∧ token.range = ⟨byteLen pre, byteLen word⟩
      ∧ Spells (pre ++ word) tokens rest

theorem Spells.contiguous (tokens : List LuaTokenData) :
    ∀ pre body : List Char, Spells pre tokens body →
      Contiguous (byteLen pre) tokens (byteLen pre + byteLen body) := by
  induction tokens with
  | nil =>
    intro pre body h
    have hb : body = [] := h
    rw [hb]
    rfl
  | cons token tokens ih =>
    intro pre body h
    obtain ⟨word, rest, rfl, hrange, hrest⟩ := h
    have hnext := ih (pre ++ word) rest hrest
    simp only [byteLen_append, Nat.add_assoc] at hnext ⊢
    refine ⟨by rw [hrange], ?_⟩
    rw [hrange]
    exact hnext

theorem Spells.boundaries (text : List Char) (tokens : List LuaTokenData) :
    ∀ pre body tail : List Char, text = pre ++ body ++ tail → Spells pre tokens body →
      ∀ token ∈ tokens,
        IsBoundary text token.range.startOffset ∧ IsBoundary text token.range.endOffset := by
  induction tokens with
  | nil => intro pre body tail _ _ token htoken; cases htoken
  | cons first tokens ih =>
    intro pre body tail htext h token htoken
    obtain ⟨word, rest, rfl, hrange, hrest⟩ := h
    cases htoken with
    | head =>
      rw [hrange]
      refine ⟨⟨pre, word ++ rest ++ tail, by simp [htext], rfl⟩, ?_⟩
      exact ⟨pre ++ word, rest ++ tail, by simp [htext],
        by simp [SourceRange.endOffset]⟩
    | tail _ hmem => exact ih (pre ++ word) rest tail (by simp [htext]) hrest token hmem

theorem Spells.concat (text : List Char) (tokens : List LuaTokenData) :
    ∀ pre body tail : List Char, text = pre ++ body ++ tail → Spells pre tokens body →
      (tokens.flatMap fun token => slice text token.range) = body := by
  induction tokens with
  | nil => intro pre body tail _ h; exact h.symm
  | cons first tokens ih =>
    intro pre body tail htext h
    obtain ⟨word, rest, rfl, hrange, hrest⟩ := h
    have hword : slice text first.range = word := by
      rw [hrange, htext, List.append_assoc, List.append_assoc, ← List.append_assoc]
      exact slice_eq pre word (rest ++ tail)
    rw [List.flatMap_cons, hword, ih (pre ++ word) rest tail (by simp [htext]) hrest]

theorem contiguous_stop_unique (tokens : List LuaTokenData) :
    ∀ start stop stop' : Nat, Contiguous start tokens stop → Contiguous start tokens stop' →
      stop = stop' := by
  induction tokens with
  | nil => intro start stop stop' h h'; exact (Eq.symm h).trans h'
  | cons token tokens ih =>
    intro start stop stop' h h'
    exact ih token.range.endOffset stop stop' h.2 h'.2

/-! ## §6. The loop spells what lies ahead up to a NUL -/

/-- What lies ahead of the reader up to where it sees the end. -/
def upToEof (rest : List Char) : List Char := rest.takeWhile fun c => c != EOF

theorem upToEof_append (word rest : List Char) (h : EOF ∉ word) :
    upToEof (word ++ rest) = word ++ upToEof rest := by
  apply List.takeWhile_append_of_pos
  intro c hc
  simp only [bne_iff_ne, ne_eq]
  intro heq
  exact h (heq ▸ hc)

theorem upToEof_eq_nil (rest : List Char) (h : rest.headD EOF = EOF) : upToEof rest = [] := by
  cases rest with
  | nil => rfl
  | cons c rest =>
    have hc : c = EOF := h
    simp [upToEof, hc]

namespace LuaLexer

/-- **One turn of the loop takes a word off what lies ahead**, an empty one only inside a
    string at a line break. -/
theorem lexInState_at (l : LuaLexer) (pre buf rest : List Char) (hat : l.reader.At pre buf rest)
    (hbuf : l.state = .Normal ∨ buf = []) (hne : l.current ≠ EOF) :
    ∃ word rest', rest = word ++ rest' ∧ EOF ∉ word
      ∧ l.lexInState.2.reader.At (pre ++ buf) word rest' ∧ (word = [] ↔ l.AtLineBreakOfString) := by
  -- both kinds of token start with a bump of a reader whose buffer is empty
  have key : ∀ l₀ : LuaLexer, l₀.reader.At (pre ++ buf) [] rest → l₀.current ≠ EOF →
      Advances l₀.bump l.lexInState.2 → ¬ l.AtLineBreakOfString →
      ∃ word rest', rest = word ++ rest' ∧ EOF ∉ word
        ∧ l.lexInState.2.reader.At (pre ++ buf) word rest'
        ∧ (word = [] ↔ l.AtLineBreakOfString) := by
    intro l₀ hat₀ hne₀ hadv hno
    obtain ⟨word, rest', heq, hmem, hat'⟩ := Reader.Advances.at_eaten hadv (hat₀.bump hne₀)
    refine ⟨l₀.current :: word, rest', ?_, ?_, ?_, ?_⟩
    · rw [hat₀.rest_eq hne₀, heq]
      rfl
    · simp only [List.mem_cons, not_or]
      exact ⟨fun h => hne₀ h.symm, hmem⟩
    · simpa [current] using hat'
    · simp [hno]
  obtain ⟨hs, hadv⟩ | ⟨hs, hno, hadv⟩ | ⟨hline, _, hr⟩ := lexInState_moves l hne
  · apply key l.resetBuff hat.resetBuff hne hadv
    intro h
    obtain ⟨quote, hq, _⟩ := h
    rw [hs] at hq
    cases hq
  · have hnil : buf = [] := by tauto
    subst hnil
    exact key l (by simpa using hat) hne hadv hno
  · have hnil : buf = [] := by
      obtain ⟨quote, hq, _⟩ := hline
      obtain h | h := hbuf
      · rw [h] at hq
        cases hq
      · exact h
    subst hnil
    refine ⟨[], rest, rfl, by simp, ?_, by simp [hline]⟩
    rw [hr]
    simpa using hat

theorem not_atLineBreak_of_normal (l : LuaLexer) (h : l.state = .Normal) :
    ¬ l.AtLineBreakOfString := by
  intro hline
  obtain ⟨quote, hq, _⟩ := hline
  rw [h] at hq
  cases hq

theorem tokenizeLoop_eof (l : LuaLexer) (h : l.current = EOF) : l.tokenizeLoop.1 = [] := by
  rw [tokenizeLoop, dif_neg (not_not.2 h)]

theorem tokenizeLoop_step (l : LuaLexer) (hne : l.current ≠ EOF) :
    l.tokenizeLoop.1 = ⟨l.lexInState.1, l.lexInState.2.reader.currentRange⟩
      :: l.lexInState.2.tokenizeLoop.1 := by
  rw [tokenizeLoop, dif_pos hne]
  rw [if_neg (lexInState_kind_ne_eof l hne)]

/-- The loop's tokens spell the text up to the first NUL; only a string that starts at a
    line break files an empty one. -/
theorem tokenizeLoop_spells (l : LuaLexer) :
    ∀ pre buf rest : List Char, l.reader.At pre buf rest →
      (l.state = .Normal ∨ buf = [] ∨ l.current = EOF) →
      Spells (pre ++ buf) l.tokenizeLoop.1 (upToEof rest)
        ∧ (¬ l.AtLineBreakOfString → ∀ token ∈ l.tokenizeLoop.1, 0 < token.range.length) := by
  induction hm : l.measure using Nat.strongRecOn generalizing l with
  | _ m ih =>
    intro pre buf rest hat hbuf
    by_cases heof : l.current = EOF
    · rw [tokenizeLoop_eof l heof, upToEof_eq_nil rest (hat.current_eq ▸ heof)]
      exact ⟨rfl, fun _ token htoken => absurd htoken (by simp)⟩
    · have hbuf' : l.state = .Normal ∨ buf = [] := by tauto
      obtain ⟨word, rest', rfl, hmem, hat', hline⟩ :=
        lexInState_at l pre buf rest hat hbuf' heof
      have hlt : l.lexInState.2.measure < m := hm ▸ measure_lexInState_lt l heof
      have hnext := ih _ hlt l.lexInState.2 rfl (pre ++ buf) word rest' hat'
        (by have := lexInState_state l; tauto)
      rw [tokenizeLoop_step l heof, upToEof_append word rest' hmem, hat'.currentRange]
      refine ⟨⟨word, upToEof rest', rfl, rfl, hnext.1⟩, ?_⟩
      intro hno token htoken
      cases htoken with
      | head => exact byteLen_pos word (fun h => hno (hline.1 h))
      | tail _ hmem' =>
        -- behind the first token no string is open, unless nothing follows
        obtain hs | hs := lexInState_state l
        · exact hnext.2 (not_atLineBreak_of_normal _ hs) token hmem'
        · rw [tokenizeLoop_eof _ hs] at hmem'
          cases hmem'

/-! ## §7. The tokens of a text -/

section

variable (text : List Char) (state : LexerState) (config : LexerConfig)
  (errors : Option (List LuaParseError))

/-- The lexer at the start of a text. -/
def start : LuaLexer := newWithState (Reader.new text) state config errors

theorem start_at : (start text state config errors).reader.At [] [] text := Reader.new_at text

theorem tokenize_spells :
    Spells [] (start text state config errors).tokenize.1 (upToEof text)
      ∧ (¬ (start text state config errors).AtLineBreakOfString →
          ∀ token ∈ (start text state config errors).tokenize.1, 0 < token.range.length) := by
  have hat := start_at text state config errors
  generalize start text state config errors = l at hat
  unfold tokenize
  by_cases h : l.state = .Normal ∧ l.current = '#'
  · -- the shebang: a line behind its first character, in the normal state
    have hne : l.current ≠ EOF := by rw [h.2]; decide
    have hadv : Advances l.bump l.eatLine := by
      unfold eatLine
      rw [eatWhile_bump l _ hne (by rw [h.2]; decide)]
      exact (Advances.refl _).eatWhile
    obtain ⟨word, rest, heq, hmem, hat'⟩ := Reader.Advances.at_eaten hadv (hat.bump hne)
    have htext : text = (l.current :: word) ++ rest := by
      rw [hat.rest_eq hne, heq]
      rfl
    have hmem' : EOF ∉ l.current :: word := by
      simp only [List.mem_cons, not_or]
      exact ⟨fun h => hne h.symm, hmem⟩
    have hloop := tokenizeLoop_spells l.eatLine [] _ rest hat' (.inl h.1)
    rw [if_pos h]
    dsimp only
    rw [htext, upToEof_append _ rest hmem', hat'.currentRange]
    refine ⟨⟨l.current :: word, upToEof rest, rfl, rfl, hloop.1⟩, ?_⟩
    intro _ token htoken
    cases htoken with
    | head => exact byteLen_pos _ (by simp)
    | tail _ hmem => exact hloop.2 (not_atLineBreak_of_normal _ h.1) token hmem
  · rw [if_neg h]
    exact tokenizeLoop_spells l [] [] text hat (.inr (.inl rfl))

/-- The lexer starts inside a string, the text with a line break that is not its quote. -/
def opensAtLineBreak : LexerState → List Char → Bool
  | .String quote, c :: _ => isLineBreak c && c != quote
  | _, _ => false

theorem start_atLineBreak_iff :
    (start text state config errors).AtLineBreakOfString ↔ opensAtLineBreak state text = true := by
  have hcur : (start text state config errors).current = text.headD EOF := rfl
  have hst : (start text state config errors).state = state := rfl
  unfold AtLineBreakOfString
  rw [hcur, hst]
  cases state with
  | String quote =>
    cases text with
    | nil => simp [opensAtLineBreak, isLineBreak, EOF]
    | cons c rest => simp [opensAtLineBreak]
  | _ => simp [opensAtLineBreak]

/-- **The tokens tile the text exactly when it holds no NUL and the lexer does not start
    inside a string at a line break.** -/
theorem tokenize_tiling_iff :
    Tiling text (start text state config errors).tokenize.1
      ↔ EOF ∉ text ∧ opensAtLineBreak state text = false := by
  obtain ⟨hspells, hlong⟩ := tokenize_spells text state config errors
  have hcont := Spells.contiguous _ _ _ hspells
  constructor
  · intro h
    constructor
    · -- the ranges end where the reader saw the end: that is all of the text
      intro hmem
      have hlen := contiguous_stop_unique _ _ _ _ h.contiguous hcont
      have hsplit : text = upToEof text ++ text.dropWhile fun c => c != EOF :=
        List.takeWhile_append_dropWhile.symm
      have hdrop : (text.dropWhile fun c => c != EOF) ≠ [] := by
        intro hnil
        have hall := List.dropWhile_eq_nil_iff.1 hnil EOF hmem
        simp at hall
      have hpos := byteLen_pos _ hdrop
      have hsum : byteLen text = byteLen (upToEof text)
          + byteLen (text.dropWhile fun c => c != EOF) := by
        conv_lhs => rw [hsplit]
        exact byteLen_append _ _
      simp only [byteLen_nil] at hlen
      omega
    · rw [Bool.eq_false_iff]
      intro hopen
      -- the first token is the empty one
      have hline := (start_atLineBreak_iff text state config errors).2 hopen
      have hat := start_at text state config errors
      revert hline hat h
      generalize start text state config errors = l
      intro h hline hat
      have hne : l.current ≠ EOF := by
        obtain ⟨quote, _, hb, _⟩ := hline
        intro heof
        rw [heof] at hb
        exact absurd hb (by decide)
      have hstate : ¬ (l.state = .Normal ∧ l.current = '#') := by
        intro hn
        exact not_atLineBreak_of_normal l hn.1 hline
      obtain ⟨word, rest', _, _, hat', hword⟩ :=
        lexInState_at l [] [] text hat (.inr rfl) hne
      have hfirst : l.tokenize.1 = ⟨l.lexInState.1, l.lexInState.2.reader.currentRange⟩
          :: l.lexInState.2.tokenizeLoop.1 := by
        unfold tokenize
        rw [if_neg hstate, tokenizeLoop_step l hne]
      have hzero := h.nonempty ⟨l.lexInState.1, l.lexInState.2.reader.currentRange⟩
        (by rw [hfirst]; exact .head _)
      rw [hat'.currentRange, hword.2 hline] at hzero
      exact absurd hzero (by simp)
  · intro h
    have hall : upToEof text = text := by
      unfold upToEof
      rw [List.takeWhile_eq_self_iff]
      intro c hc
      simp only [bne_iff_ne, ne_eq]
      intro heq
      exact h.1 (heq ▸ hc)
    rw [hall] at hspells hcont
    have hno : ¬ (start text state config errors).AtLineBreakOfString := by
      rw [start_atLineBreak_iff, h.2]
      simp
    exact {
      nonempty := hlong hno
      boundaries := Spells.boundaries text _ [] text [] (by simp) hspells
      contiguous := by simpa using hcont
      concat := Spells.concat text _ [] text [] (by simp) hspells }

end

/-- A text of one NUL has no tokens. -/
theorem tokenize_nul_not_tiling :
    ¬ Tiling ['\x00'] (start ['\x00'] .Normal
        ⟨.LuaJIT, .new, ⟨fun _ => false, fun _ => false⟩⟩ none).tokenize.1 := by
  intro h
  have hnil : (start ['\x00'] .Normal ⟨.LuaJIT, .new, ⟨fun _ => false, fun _ => false⟩⟩
      none).tokenize.1 = [] := by
    unfold tokenize
    rw [if_neg (by decide), tokenizeLoop_eof _ rfl]
  have hconcat := h.concat
  rw [hnil] at hconcat
  cases hconcat

end LuaLexer

end GluaLs.Syntax
