/-
  GluaLs.Syntax.GrammarStat — the statement rules and the whole grammar
  (`glua_parser/src/grammar/lua/{stat, mod}.rs`).

  A rule that fails leaves its nodes open; `parse_stats` closes as many as the level says
  and skips tokens to the next statement.
-/
import GluaLs.Syntax.GrammarExpr

namespace GluaLs.Syntax

open GluaLs.Lib

variable (R : Rules)

/-! ## §1. Recovery -/

/-- Eats a keyword; without it, whether parsing can go on as if it were there. -/
def expectKeywordWithRecovery (expected : LuaTokenKind) (message : String) : Parse Bool := do
  let current ← currentToken
  if current = expected then
    R.bump
    pure true
  else
    pushErrorHere message
    pure (isStatementStartToken current)

/-- One token of the way to the end of a block, at a depth. -/
def blockEndStep (depth : Nat) : Parse (Bool × Nat) := do
  let token ← currentToken
  if token = .TkEof ∨ depth = 0 then pure (false, depth)
  else
    match token with
    | .TkIf | .TkWhile | .TkFor | .TkDo | .TkFunction =>
      R.bump
      pure (true, depth + 1)
    | .TkEnd =>
      -- an inner `end` is not eaten: the next turn sees it again, one level up
      onlyIf (depth - 1 = 0) R.bump
      pure (true, depth - 1)
    | .TkElseIf | .TkElse =>
      if depth = 1 then pure (false, depth)
      else
        R.bump
        pure (true, depth)
    | .TkUntil =>
      if depth - 1 = 0 then pure (false, depth - 1)
      else
        R.bump
        pure (true, depth - 1)
    | _ =>
      R.bump
      pure (true, depth)

def recoverToBlockEnd : Parse Unit := do
  let _ ← loop .outOfTurns (blockEndStep R) R.turns 1

def expectEndKeyword (startRange : SourceRange) (message : String) : Parse Unit := do
  let current ← currentToken
  if current = .TkEnd then R.bump
  else
    pushError message startRange
    recoverToBlockEnd R

def recoverToKeywords (keywords : List LuaTokenKind) : Parse Unit :=
  skipUntil R fun token => token == .TkEof || keywords.contains token || isStatementStartToken token

def blockFollow : LuaTokenKind → Bool
  | .TkElse | .TkElseIf | .TkEnd | .TkEof | .TkUntil => true
  | _ => false

def isAssignOp : LuaTokenKind → Bool
  | .TkAssign | .TkPlusAssign | .TkMinusAssign | .TkStarAssign | .TkSlashAssign
  | .TkPercentAssign | .TkCaretAssign | .TkDoubleSlashAssign | .TkPipeAssign | .TkAmpAssign
  | .TkShiftLeftAssign | .TkShiftRightAssign => true
  | _ => false

/-! ## §2. Lists -/

/-- A comma and the expression behind it. -/
def exprListStep : Except String Unit → Parse (Bool × Except String Unit)
  | .error message => pure (false, .error message)
  | .ok _ => do
      let comma ← ifTokenBump R .TkComma
      if comma then
        let r ← parseExpr R
        match r with
        | .ok _ => pure (true, .ok ())
        | .error _ => pure (true, .error "expected expression after ','")
      else pure (false, .ok ())

def parseExprListImpl : Parse (Except String Unit) := do
  let r ← parseExpr R
  match r with
  | .ok _ => loop .outOfTurns (exprListStep R) R.turns (.ok ())
  | .error _ => pure (.error "expected expression")

/-- A list of expressions, or an error at the current token. -/
def exprListOrError (message : String) : Parse Unit := do
  let r ← parseExprListImpl R
  onError r (pushErrorHere message)

/-- Expects a token; its absence is an error at the current token and no failure. -/
def expectOrError (token : LuaTokenKind) (message : String) : Parse Unit := do
  let r ← expectToken R token
  onError r (pushErrorHere message)

def parseAttrib : Parse ParseResult := do
  let m ← mark .Attribute
  let range ← currentTokenRange
  R.bump
  expectOrError R .TkName "expected attribute name after '<'"
  expectOrError R .TkGt "expected '>' after attribute name"
  let p ← get
  onlyIf (!p.parseConfig.supportLocalAttrib)
    (pushError ("local attribute is not supported for current version: "
      ++ p.parseConfig.level.toString) range)
  let cm ← m.complete
  pure (.ok cm)

def parseLocalName (supportAttrib : Bool) : Parse ParseResult := do
  let m ← mark .LocalName
  expectOrError R .TkName "expected variable name after 'local'"
  let token ← currentToken
  if supportAttrib ∧ token = .TkLt then
    propagate (parseAttrib R) fun _ => do
      let cm ← m.complete
      pure (.ok cm)
  else
    let cm ← m.complete
    pure (.ok cm)

/-- A comma and the name behind it. -/
def nameStep (supportAttrib : Bool) (_ : Unit) : Parse (Bool × Unit) := do
  let comma ← ifTokenBump R .TkComma
  if comma then
    let r ← parseLocalName R supportAttrib
    onError r (pushErrorHere "expected variable name after ','")
    pure (true, ())
  else pure (false, ())

def parseVariableNameList (supportAttrib : Bool) : Parse ParseResult :=
  propagate (parseLocalName R supportAttrib) fun _ => do
    loop .outOfTurns (nameStep R supportAttrib) R.turns ()
    pure (.ok .empty)

/-! ## §3. Blocks and branches -/

/-- The end of a statement: an optional semicolon closes its node. -/
def finishStat (m : Marker) : Parse ParseResult := do
  let _ ← ifTokenBump R .TkSemicolon
  let cm ← m.complete
  pure (.ok cm)

/-- A block, unless the statement ends here. -/
def parseBlockUnless (follow : LuaTokenKind → Bool) : Parse (Except ParseFailReason Unit) := do
  let token ← currentToken
  if follow token then pure (.ok ())
  else propagate (parseBlock R) fun _ => pure (.ok ())

/-- Reports an error and skips to one of `keywords`. -/
def reportAndRecover (message : String) (keywords : List LuaTokenKind) : Parse Unit := do
  pushErrorHere message
  recoverToKeywords R keywords

/-- A condition; without one, skips to one of `keywords`. -/
def parseCondition (message : String) (keywords : List LuaTokenKind) : Parse Unit := do
  let r ← parseExpr R
  onError r (reportAndRecover R message keywords)

/-- A keyword; without it, skips to one of `keywords`. -/
def expectKeywordOrRecover (expected : LuaTokenKind) (message : String)
    (keywords : List LuaTokenKind) : Parse Unit := do
  let found ← expectKeywordWithRecovery R expected message
  onlyIf (!found) (recoverToKeywords R keywords)

def parseElseifClause : Parse ParseResult := do
  let m ← mark .ElseIfClauseStat
  R.bump
  exprOrError R "expected condition expression after 'elseif'"
  let _ ← expectKeywordWithRecovery R .TkThen "expected 'then' after 'elseif' condition"
  propagate (parseBlock R) fun _ => do
    let cm ← m.complete
    pure (.ok cm)

def parseElseClause : Parse ParseResult := do
  let m ← mark .ElseClauseStat
  R.bump
  propagate (parseBlock R) fun _ => do
    let cm ← m.complete
    pure (.ok cm)

/-- One `elseif`. -/
def elseifStep : Except ParseFailReason Unit → Parse (Bool × Except ParseFailReason Unit)
  | .error reason => pure (false, .error reason)
  | .ok _ => do
      let atElseif ← atToken .TkElseIf
      if atElseif then
        let r ← propagate (parseElseifClause R) fun _ => pure (.ok ())
        pure (true, r)
      else pure (false, .ok ())

/-- The `else`, if there is one. -/
def parseOptionalElse : Parse (Except ParseFailReason Unit) := do
  let atElse ← atToken .TkElse
  if atElse then propagate (parseElseClause R) fun _ => pure (.ok ())
  else pure (.ok ())

def parseIf : Parse ParseResult := do
  let m ← mark .IfStat
  let ifStartRange ← currentTokenRange
  R.bump
  parseCondition R "expected condition expression after 'if'" [.TkThen, .TkEnd]
  expectKeywordOrRecover R .TkThen "expected 'then' after if condition"
    [.TkEnd, .TkElseIf, .TkElse]
  propagate (parseBlockUnless R fun token =>
      token == .TkEnd || token == .TkElseIf || token == .TkElse || token == .TkEof) fun _ =>
    propagate (loop .outOfTurns (elseifStep R) R.turns (.ok ())) fun _ =>
      propagate (parseOptionalElse R) fun _ => do
        expectEndKeyword R ifStartRange "expected 'end' to close if statement"
        finishStat R m

def parseWhile : Parse ParseResult := do
  let m ← mark .WhileStat
  let whileStartRange ← currentTokenRange
  R.bump
  parseCondition R "expected condition expression after 'while'" [.TkDo, .TkEnd]
  expectKeywordOrRecover R .TkDo "expected 'do' after while condition" [.TkEnd]
  propagate (parseBlockUnless R fun token => token == .TkEnd || token == .TkEof) fun _ => do
    expectEndKeyword R whileStartRange "expected 'end' to close while statement"
    finishStat R m

def parseDo : Parse ParseResult := do
  let m ← mark .DoStat
  let doStartRange ← currentTokenRange
  R.bump
  propagate (parseBlock R) fun _ => do
    expectEndKeyword R doStartRange "expected 'end' after 'do' block"
    finishStat R m

/-! ## §4. Loops -/

/-- The header of a numeric loop behind its variable. -/
def parseNumericFor : Parse Unit := do
  R.bump
  exprOrError R "expected start value expression in numeric for loop"
  bumpOrError R .TkComma "expected ',' after start value in numeric for loop"
  exprOrError R "expected end value expression in numeric for loop"
  let comma ← ifTokenBump R .TkComma
  onlyIf comma (exprOrError R "expected step value expression in numeric for loop")

/-- A comma and the loop variable behind it. -/
def forNameStep (_ : Unit) : Parse (Bool × Unit) := do
  let comma ← ifTokenBump R .TkComma
  if comma then
    bumpOrError R .TkName "expected variable name after ','"
    pure (true, ())
  else pure (false, ())

/-- The header of a generic loop behind its first variable. -/
def parseGenericFor (m : Marker) : Parse Unit := do
  m.setKind .ForRangeStat
  loop .outOfTurns (forNameStep R) R.turns ()
  bumpOrError R .TkIn "expected 'in' after variable list in generic for loop"
  exprListOrError R "expected iterator expression after 'in'"

/-- The first variable of a loop; without one, skips to what can follow it. -/
def parseForName : Parse Unit := do
  let token ← currentToken
  if token = .TkName then R.bump
  else
    reportAndRecover R "expected variable name after 'for'"
      [.TkAssign, .TkIn, .TkComma, .TkDo, .TkEnd]

def parseForHeader (m : Marker) : Parse Unit := do
  let token ← currentToken
  match token with
  | .TkAssign => parseNumericFor R
  | .TkComma | .TkIn => parseGenericFor R m
  | _ =>
    pushErrorHere "expected '=' for numeric for loop or ',' or 'in' for generic for loop"

def parseFor : Parse ParseResult := do
  let m ← mark .ForStat
  let forStartRange ← currentTokenRange
  R.bump
  parseForName R
  parseForHeader R m
  expectKeywordOrRecover R .TkDo "expected 'do' in for statement" [.TkEnd]
  propagate (parseBlockUnless R fun token => token == .TkEnd || token == .TkEof) fun _ => do
    expectEndKeyword R forStartRange "expected 'end' to close for statement"
    finishStat R m

def parseRepeat : Parse ParseResult := do
  let m ← mark .RepeatStat
  R.bump
  propagate (parseBlock R) fun _ => do
    expectOrError R .TkUntil "expected 'until' after repeat block"
    exprOrError R "expected condition expression after 'until'"
    finishStat R m

/-! ## §5. Functions and locals -/

/-- A `.` or `:` and the name behind it. -/
def funcNamePart (cm : CompleteMarker) (message : String) : Parse CompleteMarker := do
  let m ← cm.precede .IndexExpr
  R.bump
  expectOrError R .TkName message
  m.complete

def funcNameStep (cm : CompleteMarker) : Parse (Bool × CompleteMarker) := do
  let dot ← atToken .TkDot
  if dot then
    let cm ← funcNamePart R cm "expected name after '.'"
    pure (true, cm)
  else pure (false, cm)

def parseFuncName : Parse ParseResult := do
  let m ← mark .NameExpr
  let r ← expectToken R .TkName
  match r with
  | .error _ =>
    pushErrorHere "expected function name after 'function'"
    pure (.error .UnexpectedToken)
  | .ok _ =>
    let cm ← m.complete
    let cm ← loop .outOfTurns (funcNameStep R) R.turns cm
    let colon ← atToken .TkColon
    if colon then
      let cm ← funcNamePart R cm "expected name after ':'"
      pure (.ok cm)
    else pure (.ok cm)

def parseFunction : Parse ParseResult := do
  let m ← mark .FuncStat
  R.bump
  propagate (parseFuncName R) fun _ =>
    propagate (parseClosureExpr R) fun _ => finishStat R m

/-- `local function`, behind `local`. -/
def parseLocalFunction (m : Marker) : Parse Unit := do
  R.bump
  m.setKind .LocalFuncStat
  let r ← parseLocalName R false
  onError r (pushErrorHere "expected function name after 'local function'")
  let r ← parseClosureExpr R
  onError r (pushErrorHere "invalid function definition")

/-- The operator of an assignment and the values behind it. -/
def parseValues (message : String) : Parse Unit := do
  R.bump
  exprListOrError R message

def parseLocal : Parse ParseResult := do
  let m ← mark .LocalStat
  R.bump
  let token ← currentToken
  match token with
  | .TkFunction =>
    parseLocalFunction R m
    finishStat R m
  | .TkName =>
    propagate (parseVariableNameList R false) fun _ => do
      let token ← currentToken
      onlyIf (isAssignOp token) (parseValues R "expected initialization expression after '='")
      finishStat R m
  | _ =>
    pushErrorHere "expected 'function' or variable name after 'local'"
    pure (.error .UnexpectedToken)

/-! ## §6. Simple statements -/

def parseReturn : Parse ParseResult := do
  let m ← mark .ReturnStat
  R.bump
  let token ← currentToken
  onlyIf (!blockFollow token ∧ token ≠ .TkSemicolon)
    (exprListOrError R "expected expression in return statement")
  finishStat R m

def parseBreak : Parse ParseResult := do
  let m ← mark .BreakStat
  R.bump
  finishStat R m

def parseGoto : Parse ParseResult := do
  let m ← mark .GotoStat
  R.bump
  expectOrError R .TkName "expected label name after 'goto'"
  finishStat R m

def parseEmptyStat : Parse ParseResult := parseTokenNode R .EmptyStat

def parseLabelStat : Parse ParseResult := do
  let m ← mark .LabelStat
  R.bump
  expectOrError R .TkName "expected label name after 'goto'"
  expectOrError R .TkDbColon "expected '::' after label name"
  let cm ← m.complete
  pure (.ok cm)

def isCallKind : LuaSyntaxKind → Bool
  | .CallExpr | .AssertCallExpr | .ErrorCallExpr | .RequireCallExpr | .TypeCallExpr
  | .SetmetatableCallExpr => true
  | _ => false

def isVariableKind : LuaSyntaxKind → Bool
  | .NameExpr | .IndexExpr => true
  | _ => false

/-- A comma and the variable behind it. -/
def variableStep : Except ParseFailReason Unit → Parse (Bool × Except ParseFailReason Unit)
  | .error reason => pure (false, .error reason)
  | .ok _ => do
      let comma ← ifTokenBump R .TkComma
      if comma then
        let r ← parseExpr R
        match r with
        | .ok cm =>
          if isVariableKind cm.kind then pure (true, .ok ())
          else
            pushErrorHere
              "invalid left-hand side in assignment (expected variable or table index)"
            pure (true, .error .UnexpectedToken)
        | .error _ =>
          pushErrorHere "expected variable after ',' in assignment"
          pure (true, .ok ())
      else pure (false, .ok ())

/-- The operator and the right side of an assignment. -/
def parseAssignment (m : Marker) : Parse ParseResult := do
  let token ← currentToken
  if isAssignOp token then
    parseValues R "expected expression after '=' in assignment"
    finishStat R m
  else
    let range ← previousTokenRange
    pushError "expected '=' for assignment or this is an incomplete statement" range
    pure (.error .UnexpectedToken)

def parseAssignOrExprOrGlobalStat : Parse ParseResult := do
  let m ← mark .AssignStat
  let range ← currentTokenRange
  let r ← parseExpr R
  match r with
  | .error reason =>
    pushError "expected expression in assignment or statement" range
    pure (.error reason)
  | .ok cm =>
    if isCallKind cm.kind then
      m.setKind .CallExprStat
      finishStat R m
    else if !isVariableKind cm.kind then
      pushError "invalid left-hand side in assignment (expected variable or table index)" range
      pure (.error .UnexpectedToken)
    else
      propagate (loop .outOfTurns (variableStep R) R.turns (.ok ())) fun _ =>
        parseAssignment R m

def parseStat : Parse ParseResult := do
  let token ← currentToken
  match token with
  | .TkIf => parseIf R
  | .TkWhile => parseWhile R
  | .TkFor => parseFor R
  | .TkFunction => parseFunction R
  | .TkLocal => parseLocal R
  | .TkReturn => parseReturn R
  | .TkBreak => parseBreak R
  | .TkDo => parseDo R
  | .TkRepeat => parseRepeat R
  | .TkGoto => parseGoto R
  | .TkDbColon => parseLabelStat R
  | .TkSemicolon => parseEmptyStat R
  | _ => parseAssignOrExprOrGlobalStat R

/-! ## §7. Statement lists and the chunk -/

/-- `n` node ends. -/
def pushNodeEnds : Nat → Parse Unit
  | 0 => pure ()
  | n + 1 => do
      pushNodeEnd
      pushNodeEnds n

/-- Closes the nodes opened since the level was `level`; a level below it panics. -/
def closeDownTo (level : Nat) : Parse Unit := do
  let p ← get
  if p.markLevel < level then throw .panic else pushNodeEnds (p.markLevel - level)

/-- One statement.  A failed one has its nodes closed and is skipped to where a statement
    can start; the list goes on only if that moved. -/
def statStep (_ : Unit) : Parse (Bool × Unit) := do
  let p ← get
  if blockFollow p.currentToken then pure (false, ())
  else
    let r ← parseStat R
    match r with
    | .ok _ => pure (true, ())
    | .error _ =>
      closeDownTo p.markLevel
      skipUntil R fun token => token == .TkEof || blockFollow token || isStatementStartToken token
      let q ← get
      let canContinue := !blockFollow q.currentToken && isStatementStartToken q.currentToken
      pure (canContinue && q.tokenIndex != p.tokenIndex, ())

def parseStats : Parse Unit := loop .outOfTurns (statStep R) R.turns ()

/-- The rules, with calls of `parse_sub_expr` and `parse_stats` nested at most `depth`
    deep. -/
def rules (doc : DocParser) (turns : Nat) : Nat → Rules
  | 0 => ⟨fun _ => throw .outOfTurns, throw .outOfTurns, doc, turns⟩
  | depth + 1 =>
    ⟨parseSubExpr (rules doc turns depth), parseStats (rules doc turns depth), doc, turns⟩

def unexpectedInChunk : LuaTokenKind → String
  | .TkRightBrace => "unexpected '\x7d' - missing opening '\x7b' or extra closing brace"
  | .TkRightParen => "unexpected ')' - missing opening '(' or extra closing parenthesis"
  | .TkRightBracket => "unexpected ']' - missing opening '[' or extra closing bracket"
  | .TkElse => "unexpected 'else' - missing corresponding 'if' statement"
  | .TkElseIf => "unexpected 'elseif' - missing corresponding 'if' statement"
  | .TkEnd => "unexpected 'end' - missing corresponding block statement"
  | .TkUntil => "unexpected 'until' - missing corresponding 'repeat' statement"
  | .TkThen => "unexpected 'then' - missing corresponding 'if' statement"
  | .TkDo => "unexpected 'do' - missing corresponding loop statement"
  | token => "unexpected token '" ++ token.toString ++ "' - expected statement"

/-- A token no statement took. -/
def parseUnknown : Parse Unit := do
  let errorRange ← currentTokenRange
  let m ← mark .UnknownStat
  let token ← currentToken
  pushError (unexpectedInChunk token) errorRange
  R.bump
  let _ ← m.complete

/-- The statements up to where none starts, and the token that is left there. -/
def chunkStep : Parse Unit := do
  let p ← get
  R.stats
  let q ← get
  if q.tokenIndex = p.tokenIndex then parseUnknown R

def parseChunkWith : Parse Unit := do
  let m ← mark .Block
  init R.doc
  whileLoop .outOfTurns (fun p => p.currentToken != .TkEof) (chunkStep R) R.turns
  let _ ← m.complete

/-- Parses a whole file, with at most `fuel` nested calls and `fuel` turns of a loop. -/
def parseChunk (doc : DocParser) (fuel : Nat) : Parse Unit := parseChunkWith (rules doc fuel fuel)

end GluaLs.Syntax
