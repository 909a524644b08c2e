/-
  GluaLs.Syntax.GrammarExpr — the expression rules
  (`glua_parser/src/grammar/lua/{mod, expr}.rs`, `kind/lua_operator_kind.rs`).

  The rules call each other only through two of them: `parse_sub_expr` and `parse_stats`.
  Those two, with the doc-comment parser and the turns a loop may take, are a record the
  rules are given (`Rules`); the knot is tied in `GrammarStat`.
-/
import GluaLs.Syntax.Parser

namespace GluaLs.Syntax

open GluaLs.Lib

/-! ## §1. Operators -/

inductive UnaryOperator where
  | OpNot | OpLen | OpUnm | OpBNot | OpNop
  deriving DecidableEq, Repr

inductive BinaryOperator where
  | OpAdd | OpSub | OpMul | OpDiv | OpIDiv | OpMod | OpPow | OpBAnd | OpBOr | OpBXor | OpShl
  | OpShr | OpConcat | OpLt | OpLe | OpGt | OpGe | OpEq | OpNe | OpAnd | OpOr | OpNop
  deriving DecidableEq, Repr

def toUnaryOperator : LuaTokenKind → UnaryOperator
  | .TkNot => .OpNot
  | .TkLen => .OpLen
  | .TkMinus => .OpUnm
  | .TkBitXor => .OpBNot
  | _ => .OpNop

def toBinaryOperator : LuaTokenKind → BinaryOperator
  | .TkPlus => .OpAdd
  | .TkMinus => .OpSub
  | .TkMul => .OpMul
  | .TkMod => .OpMod
  | .TkPow => .OpPow
  | .TkDiv => .OpDiv
  | .TkIDiv => .OpIDiv
  | .TkBitAnd => .OpBAnd
  | .TkBitOr => .OpBOr
  | .TkBitXor => .OpBXor
  | .TkShl => .OpShl
  | .TkShr => .OpShr
  | .TkConcat => .OpConcat
  | .TkLt => .OpLt
  | .TkLe => .OpLe
  | .TkGt => .OpGt
  | .TkGe => .OpGe
  | .TkEq => .OpEq
  | .TkNe => .OpNe
  | .TkAnd => .OpAnd
  | .TkOr => .OpOr
  | _ => .OpNop

/-- The left and right priority of each operator. -/
def BinaryOperator.getPriority : BinaryOperator → Int × Int
  | .OpAdd | .OpSub => (10, 10)
  | .OpMul | .OpDiv | .OpIDiv | .OpMod => (11, 11)
  | .OpPow => (14, 13)
  | .OpBAnd => (6, 6)
  | .OpBOr => (4, 4)
  | .OpBXor => (5, 5)
  | .OpShl | .OpShr => (7, 7)
  | .OpConcat => (9, 8)
  | .OpLt | .OpLe | .OpGt | .OpGe | .OpEq | .OpNe => (3, 3)
  | .OpAnd => (2, 2)
  | .OpOr => (1, 1)
  | .OpNop => (0, 0)

def UNARY_PRIORITY : Int := 12

/-! ## §2. What the rules share -/

/-- The rules the others call, the doc-comment parser and the turns of a loop. -/
structure Rules where
  subExpr : Int → Parse ParseResult
  stats : Parse Unit
  doc : DocParser
  turns : Nat

variable (R : Rules)

def Rules.bump : Parse Unit := Syntax.bump R.doc

/-- Whether the current token is `token`. -/
def atToken (token : LuaTokenKind) : Parse Bool := do
  let current ← currentToken
  pure (current == token)

def expectToken (token : LuaTokenKind) : Parse (Except ParseFailReason Unit) := do
  let current ← currentToken
  if current = token then
    R.bump
    pure (.ok ())
  else if current = .TkEof then pure (.error .Eof)
  else pure (.error .UnexpectedToken)

def ifTokenBump (token : LuaTokenKind) : Parse Bool := do
  let current ← currentToken
  if current = token then
    R.bump
    pure true
  else pure false

/-- Eats `token`, or reports its absence at the current token. -/
def bumpOrError (token : LuaTokenKind) (message : String) : Parse Unit := do
  let current ← currentToken
  if current = token then R.bump else pushErrorHere message

/-- Eats `token`, or reports its absence at `range`. -/
def bumpOrErrorAt (token : LuaTokenKind) (message : String) (range : SourceRange) :
    Parse Unit := do
  let current ← currentToken
  if current = token then R.bump else pushError message range

def isStatementStartToken : LuaTokenKind → Bool
  | .TkLocal | .TkFunction | .TkIf | .TkFor | .TkWhile | .TkDo | .TkName | .TkReturn
  | .TkBreak => true
  | _ => false

/-- Skips tokens up to one `stop` accepts. -/
def skipUntil (stop : LuaTokenKind → Bool) : Parse Unit :=
  whileLoop .outOfTurns (fun p => !stop p.currentToken) R.bump R.turns

/-- A node of one token. -/
def parseTokenNode (kind : LuaSyntaxKind) : Parse ParseResult := do
  let m ← mark kind
  R.bump
  let cm ← m.complete
  pure (.ok cm)

def parseExpr : Parse ParseResult := R.subExpr 0

/-- An expression, or an error at the current token. -/
def exprOrError (message : String) : Parse Unit := do
  let r ← parseExpr R
  onError r (pushErrorHere message)

def parseBlock : Parse ParseResult := do
  let exhausted ← parserStackExhausted
  if exhausted then
    pushErrorHere "block is too deeply nested"
    pure (.error .UnexpectedToken)
  else
    let m ← mark .Block
    R.stats
    let cm ← m.complete
    pure (.ok cm)

/-! ## §3. Parameters and closures -/

def parseParamName (isVararg : Bool) : Parse (Except ParseFailReason CompleteMarker × Bool) := do
  let m ← mark .ParamName
  let token ← currentToken
  match token with
  | .TkName =>
    R.bump
    let cm ← m.complete
    pure (.ok cm, isVararg)
  | .TkDots =>
    R.bump
    let p ← get
    onlyIf (p.parseConfig.supportNamedVarArgs ∧ p.currentToken = .TkName) R.bump
    let cm ← m.complete
    pure (.ok cm, true)
  | _ =>
    pushErrorHere "expected parameter name or '...' (vararg)"
    let _ ← m.complete
    pure (.error .UnexpectedToken, isVararg)

/-- Where the recovery of a parameter stops. -/
def isParamBoundary (token : LuaTokenKind) : Bool :=
  token == .TkComma || token == .TkRightParen || token == .TkEof || token == .TkEnd
    || isStatementStartToken token

/-- What is no parameter is skipped. -/
def recoverParam : Parse Unit := do
  pushErrorHere "expected parameter name"
  skipUntil R isParamBoundary

/-- One parameter, and the comma behind it.  The loop's value is whether `...` was seen and
    whether what follows it was reported. -/
def paramStep (flags : Bool × Bool) : Parse (Bool × Bool × Bool) := do
  let r ← parseParamName R flags.1
  onError r.1 (recoverParam R)
  let comma ← ifTokenBump R .TkComma
  if comma then
    -- a parameter has to follow the comma
    let closing ← atToken .TkRightParen
    if closing then
      pushErrorHere "expected parameter name after ','"
      pure (false, r.2, flags.2)
    else if r.2 && !flags.2 then
      pushErrorHere "vararg '...' must be the last parameter"
      pure (true, r.2, true)
    else pure (true, r.2, flags.2)
  else pure (false, r.2, flags.2)

def parseParams : Parse Unit := do
  let _ ← loop .outOfTurns (paramStep R) R.turns (false, false)

def parseParamList : Parse ParseResult := do
  let m ← mark .ParamList
  bumpOrError R .TkLeftParen "expected '(' to start parameter list"
  let closing ← atToken .TkRightParen
  onlyIf (!closing) (parseParams R)
  bumpOrError R .TkRightParen "expected ')' to close parameter list"
  let cm ← m.complete
  pure (.ok cm)

/-- The body of a function behind its parameters: `end` may follow at once. -/
def parseClosureBody : Parse (Except ParseFailReason Unit) := do
  let atEnd ← atToken .TkEnd
  if !atEnd then
    propagate (parseBlock R) fun _ => pure (.ok ())
  else pure (.ok ())

def parseClosureExpr : Parse ParseResult := do
  let m ← mark .ClosureExpr
  -- a missing `end` is reported where the function opens
  let startRange ← currentTokenRange
  let _ ← ifTokenBump R .TkFunction
  propagate (parseParamList R) fun _ =>
    propagate (parseClosureBody R) fun _ => do
      bumpOrErrorAt R .TkEnd "expected 'end' to close function definition" startRange
      let cm ← m.complete
      pure (.ok cm)

/-! ## §4. Table constructors -/

/-- Where the recovery inside `[` ... `]` of a field stops. -/
def isIndexBoundary (token : LuaTokenKind) : Bool :=
  token == .TkRightBracket || token == .TkAssign || token == .TkComma || token == .TkSemicolon
    || token == .TkRightBrace || token == .TkEof

def recoverFieldIndex : Parse Unit := do
  pushErrorHere "expected expression inside table index brackets"
  skipUntil R isIndexBoundary

/-- The key of a field in brackets. -/
def parseFieldIndex : Parse Unit := do
  let r ← parseExpr R
  onError r (recoverFieldIndex R)

/-- One field; a field that goes wrong is reported and closed all the same. -/
def parseFieldBody (m : Marker) : Parse Unit := do
  let token ← currentToken
  match token with
  | .TkLeftBracket =>
    m.setKind .TableFieldAssign
    R.bump
    parseFieldIndex R
    bumpOrError R .TkRightBracket "expected ']' to close table index"
    bumpOrError R .TkAssign "expected '=' after table index"
    exprOrError R "expected value expression after '='"
  | .TkName =>
    let next ← peekNextToken
    if next = .TkAssign then
      m.setKind .TableFieldAssign
      R.bump
      R.bump
      exprOrError R "expected value expression after field name"
    else exprOrError R "invalid table field expression"
  | .TkEof | .TkLocal => pushErrorHere "unexpected end of table field"
  | _ =>
    exprOrError R
      "invalid table field, expected expression, field assignment, or table end"

def parseFieldWithRecovery : Parse ParseResult := do
  let m ← mark .TableFieldValue
  parseFieldBody R m
  let cm ← m.complete
  pure (.ok cm)

def isTableBoundary (token : LuaTokenKind) : Bool :=
  token == .TkComma || token == .TkSemicolon || token == .TkRightBrace || token == .TkEof

def recoverToTableBoundary : Parse Unit := skipUntil R isTableBoundary

/-- The first field decides what kind of table it is. -/
def parseFirstField (m : Marker) : Parse Unit := do
  let r ← parseFieldWithRecovery R
  match r with
  | .ok cm =>
    if cm.kind = .TableFieldAssign then m.setKind .TableObjectExpr
    else if cm.kind = .TableFieldValue then m.setKind .TableArrayExpr
  | .error _ => recoverToTableBoundary R

/-- A separator and the field behind it. -/
def fieldStep (m : Marker) (_ : Unit) : Parse (Bool × Unit) := do
  let separator ← currentToken
  if separator = .TkComma ∨ separator = .TkSemicolon then
    R.bump
    let closing ← atToken .TkRightBrace
    if closing then pure (false, ())
    else
      let r ← parseFieldWithRecovery R
      match r with
      | .ok cm =>
        onlyIf (cm.kind = .TableFieldAssign) (m.setKind .TableObjectExpr)
        pure (true, ())
      | .error _ =>
        pushErrorHere ("invalid table field after '" ++ separator.toString ++ "'")
        recoverToTableBoundary R
        let closing ← atToken .TkRightBrace
        pure (!closing, ())
  else pure (false, ())

/-- One token of the search for the brace that closes a table: the open braces, and whether
    it was found. -/
def braceStep (acc : Nat × Bool) : Parse (Bool × Nat × Bool) := do
  let token ← currentToken
  match token with
  | .TkEof => pure (false, acc)
  | .TkRightBrace =>
    R.bump
    if acc.1 - 1 = 0 then pure (false, acc.1 - 1, true) else pure (true, acc.1 - 1, acc.2)
  | .TkLeftBrace =>
    R.bump
    pure (true, acc.1 + 1, acc.2)
  | .TkEnd | .TkElse | .TkElseIf | .TkUntil | .TkThen | .TkDo => pure (false, acc)
  | _ =>
    R.bump
    pure (true, acc)

/-- Closes a table, or looks for the brace that does. -/
def closeTable : Parse Unit := do
  let closing ← ifTokenBump R .TkRightBrace
  if !closing then
    pushErrorHere "expected '\x7d' to close table constructor"
    let r ← loop .outOfTurns (braceStep R) R.turns (1, false)
    onlyIf (!r.2) (pushErrorHere "table constructor was not properly closed")

/-- The fields of a table that has some. -/
def parseTableFields (m : Marker) : Parse Unit := do
  parseFirstField R m
  loop .outOfTurns (fieldStep R m) R.turns ()
  closeTable R

def parseTableExpr : Parse ParseResult := do
  let m ← mark .TableEmptyExpr
  R.bump
  let closing ← ifTokenBump R .TkRightBrace
  onlyIf (!closing) (parseTableFields R m)
  let cm ← m.complete
  pure (.ok cm)

/-! ## §5. Calls and indices -/

def isArgBoundary (token : LuaTokenKind) : Bool :=
  token == .TkComma || token == .TkRightParen || token == .TkEof || isStatementStartToken token

/-- One argument, and the comma behind it. -/
def argStep (_ : Unit) : Parse (Bool × Unit) := do
  let r ← parseExpr R
  match r with
  | .ok _ =>
    let comma ← ifTokenBump R .TkComma
    if comma then
      let closing ← atToken .TkRightParen
      if closing then
        pushErrorHere "expected expression after ','"
        pure (false, ())
      else pure (true, ())
    else pure (false, ())
  | .error _ =>
    pushErrorHere "expected argument expression"
    skipUntil R isArgBoundary
    let comma ← ifTokenBump R .TkComma
    pure (comma, ())

def parseArgs : Parse ParseResult := do
  let m ← mark .CallArgList
  let token ← currentToken
  match token with
  | .TkLeftParen =>
    R.bump
    let closing ← atToken .TkRightParen
    onlyIf (!closing) (loop .outOfTurns (argStep R) R.turns ())
    bumpOrError R .TkRightParen "expected ')' to close argument list"
    let cm ← m.complete
    pure (.ok cm)
  | .TkLeftBrace =>
    let r ← parseTableExpr R
    match r with
    | .ok _ =>
      let cm ← m.complete
      pure (.ok cm)
    | .error reason =>
      pushErrorHere "invalid table constructor in function call"
      let _ ← m.complete
      pure (.error reason)
  | .TkString | .TkLongString =>
    let _ ← parseTokenNode R .LiteralExpr
    let cm ← m.complete
    pure (.ok cm)
  | _ =>
    pushErrorHere "expected '(', string, or table constructor for function call"
    let _ ← m.complete
    pure (.error .UnexpectedToken)

/-- `expect_token` with its failure reported at `range` and returned. -/
def expectOrFail (token : LuaTokenKind) (message : String) (range : SourceRange) :
    Parse (Except ParseFailReason Unit) := do
  let r ← expectToken R token
  match r with
  | .ok _ => pure (.ok ())
  | .error reason =>
    pushError message range
    pure (.error reason)

/-- An expression with its failure reported at `range` and returned. -/
def exprOrFail (message : String) (range : SourceRange) :
    Parse (Except ParseFailReason Unit) := do
  let r ← parseExpr R
  match r with
  | .ok _ => pure (.ok ())
  | .error reason =>
    pushError message range
    pure (.error reason)

/-- What a call needs behind its function. -/
def isCallStart (token : LuaTokenKind) : Bool :=
  token == .TkLeftParen || token == .TkLeftBrace || token == .TkString || token == .TkLongString

def parseIndexStruct : Parse (Except ParseFailReason Unit) := do
  let indexOpRange ← currentTokenRange
  let token ← currentToken
  match token with
  | .TkLeftBracket =>
    R.bump
    propagate (exprOrFail R "expected expression inside table index brackets" indexOpRange)
      fun _ => expectOrFail R .TkRightBracket "expected ']' to close table index" indexOpRange
  | .TkDot =>
    R.bump
    expectOrFail R .TkName "expected field name after '.'" indexOpRange
  | .TkColon =>
    R.bump
    let nameTokenRange ← currentTokenRange
    propagate (expectOrFail R .TkName "expected method name after ':'" indexOpRange)
      fun _ => do
        let next ← currentToken
        if isCallStart next then pure (.ok ())
        else
          pushError ("colon accessor must be followed by a function call or table "
            ++ "constructor or string literal") nameTokenRange
          pure (.error .UnexpectedToken)
  | _ =>
    pushErrorHere "expect index struct"
    pure (.error .UnexpectedToken)

/-- Closes a node that `r` is the last part of; a failure closes it too. -/
def completeWith {α : Type} (m : Marker) (r : Except ParseFailReason α) : Parse ParseResult := do
  let cm ← m.complete
  match r with
  | .ok _ => pure (.ok cm)
  | .error reason => pure (.error reason)

def specialKind : SpecialFunction → LuaSyntaxKind
  | .Require => .RequireCallExpr
  | .Assert => .AssertCallExpr
  | .Error => .ErrorCallExpr
  | .Type => .TypeCallExpr
  | .Setmetaatable => .SetmetatableCallExpr
  | .None => .None

def parseNameOrSpecialFunction : Parse ParseResult := do
  let m ← mark .NameExpr
  let text ← currentTokenText
  let p ← get
  let kind := specialKind (p.parseConfig.getSpecialFunction text)
  R.bump
  let cm ← m.complete
  if kind = .None then pure (.ok cm)
  else
    let token ← currentToken
    if isCallStart token then
      let m1 ← cm.precede kind
      let r ← parseArgs R
      completeWith m1 r
    else pure (.ok cm)

/-- One suffix of an expression. -/
def suffixStep : ParseResult → Parse (Bool × ParseResult)
  | .error reason => pure (false, .error reason)
  | .ok cm => do
      let token ← currentToken
      match token with
      | .TkDot | .TkColon | .TkLeftBracket =>
        let m ← cm.precede .IndexExpr
        let r ← parseIndexStruct R
        let r ← completeWith m r
        pure (true, r)
      | .TkLeftParen | .TkLongString | .TkString | .TkLeftBrace =>
        let m ← cm.precede .CallExpr
        let r ← parseArgs R
        let r ← completeWith m r
        pure (true, r)
      | _ => pure (false, .ok cm)

def parseParenExpr : Parse ParseResult := do
  let m ← mark .ParenExpr
  let parenRange ← currentTokenRange
  R.bump
  let r ← exprOrFail R "expected expression inside parentheses" parenRange
  match r with
  | .ok _ =>
    bumpOrErrorAt R .TkRightParen "expected ')' to close parentheses" parenRange
    completeWith m r
  | .error _ => completeWith m r

def parsePrimaryExpr : Parse ParseResult := do
  let token ← currentToken
  match token with
  | .TkName => parseNameOrSpecialFunction R
  | .TkLeftParen => parseParenExpr R
  | _ =>
    pushErrorHere "expect primary expression (identifier or parenthesized expression)"
    pure (.error .UnexpectedToken)

def parseSuffixedExpr : Parse ParseResult :=
  propagate (parsePrimaryExpr R) fun cm =>
    loop .outOfTurns (suffixStep R) R.turns (.ok cm)

/-! ## §6. Expressions -/

def unexpectedInExpr : LuaTokenKind → String
  | .TkEof => "unexpected end of file, expected expression"
  | .TkRightParen => "unexpected ')', expected expression"
  | .TkRightBrace => "unexpected '\x7d', expected expression"
  | .TkRightBracket => "unexpected ']', expected expression"
  | .TkComma => "unexpected ',', expected expression"
  | .TkSemicolon => "unexpected ';', expected expression"
  | .TkEnd => "unexpected 'end', expected expression"
  | .TkElse => "unexpected 'else', expected expression"
  | .TkElseIf => "unexpected 'elseif', expected expression"
  | .TkThen => "unexpected 'then', expected expression"
  | .TkDo => "unexpected 'do', expected expression"
  | .TkUntil => "unexpected 'until', expected expression"
  | token => "unexpected token '" ++ token.toString ++ "', expected expression"

def parseSimpleExpr : Parse ParseResult := do
  let token ← currentToken
  match token with
  | .TkInt | .TkFloat | .TkComplex | .TkNil | .TkTrue | .TkFalse | .TkDots | .TkString
  | .TkLongString => parseTokenNode R .LiteralExpr
  | .TkLeftBrace => parseTableExpr R
  | .TkFunction => parseClosureExpr R
  | .TkName | .TkLeftParen => parseSuffixedExpr R
  | _ =>
    pushErrorHere (unexpectedInExpr token)
    pure (.error .UnexpectedToken)

def parseUnaryExpr : Parse ParseResult := do
  let m ← mark .UnaryExpr
  let opRange ← currentTokenRange
  let opToken ← currentToken
  R.bump
  let r ← R.subExpr UNARY_PRIORITY
  onError r (pushError ("unary operator '" ++ opToken.toString
    ++ "' is not followed by an expression") opRange)
  let cm ← m.complete
  pure (.ok cm)

/-- A binary operator above the limit and its right side. -/
def binaryStep (limit : Int) : ParseResult → Parse (Bool × ParseResult)
  | .error reason => pure (false, .error reason)
  | .ok cm => do
      let opToken ← currentToken
      let bop := toBinaryOperator opToken
      if bop ≠ .OpNop ∧ bop.getPriority.1 > limit then
        let opRange ← currentTokenRange
        let m ← cm.precede .BinaryExpr
        R.bump
        let r ← R.subExpr bop.getPriority.2
        match r with
        | .ok _ =>
          let r ← completeWith m r
          pure (true, r)
        | .error _ =>
          pushError ("binary operator '" ++ opToken.toString
            ++ "' is not followed by an expression") opRange
          let r ← completeWith m r
          pure (true, r)
      else pure (false, .ok cm)

def parseSubExpr (limit : Int) : Parse ParseResult := do
  let exhausted ← parserStackExhausted
  if exhausted then
    pushErrorHere "expression is too deeply nested"
    pure (.error .UnexpectedToken)
  else
    let token ← currentToken
    propagate (if toUnaryOperator token ≠ .OpNop then parseUnaryExpr R else parseSimpleExpr R)
      fun cm => loop .outOfTurns (binaryStep R limit) R.turns (.ok cm)

end GluaLs.Syntax
