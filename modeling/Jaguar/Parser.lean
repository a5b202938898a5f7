/-
The parser (`parser.c`).

The source's functions call each other in a cycle. Here every function takes the
functions it calls back into as a record `Rec`, and `recAt n` ties the knot for
nestings of depth up to `n`: a run that needs more is `none`. Everything else is
as in the source: errors are logged and parsing goes on.

* `PState` — the tokens still ahead, and the log of errors and of nested parses;
* `splitTemplate` — how a string literal is cut into literal parts and expressions;
* `parsePrimary` … `parseAssignment` — expressions, one function per level;
* `parseStatement`, `parseBlock`, `parseProgram` — statements.
-/
import Jaguar.Ast
import Jaguar.Double

namespace Jaguar

/-! ### State -/

/-- What `error_at` prints, and where the parser stood: its current token and the
number of tokens ahead, EOF not counted. -/
structure ParseError where
  token : Token
  msg : String
  cur : Token
  left : ℕ

/-- One call of `parse_expr_substring`: the source of the parser that made it, the
text it parsed, and the sub-parser's errors and unread tokens. -/
structure NestedParse where
  enclosing : Text
  text : Text
  errors : List ParseError
  left : ℕ

/-- A nested parse, wherever it was made: the text, the errors and the unread tokens. -/
def NestedParse.report (p : NestedParse) : Text × List ParseError × ℕ := (p.text, p.errors, p.left)

structure PState where
  source : Text
  /-- The tokens before EOF that are still ahead. -/
  toks : List Token
  eofLine : ℕ
  errors : List ParseError
  nested : List NestedParse

/-- `init_parser`. -/
def initParser (source : Text) : PState :=
  let (toks, eofLine) := tokenize source
  ⟨source, toks, eofLine, [], []⟩

/-- `p->cur`. -/
def PState.cur (s : PState) : Token := s.toks.headD ⟨.eof, [], s.eofLine⟩

/-- `p->had_error`. -/
def PState.hadError (s : PState) : Bool := ! s.errors.isEmpty

/-- A parsing function; `none` when the depth of `recAt` does not suffice. -/
abbrev P (α : Type) := StateT PState Option α

def cur : P Token := fun s => some (s.cur, s)

def advance : P Unit := fun s => some ((), { s with toks := s.toks.tail })

def errorAt (t : Token) (msg : String) : P Unit := fun s =>
  some ((), { s with errors := s.errors ++ [⟨t, msg, s.cur, s.toks.length⟩] })

def check (t : TokenType) : P Bool := fun s => some (s.cur.type = t, s)

def hadError : P Bool := fun s => some (s.hadError, s)

def outOfDepth {α : Type} : P α := fun _ => none

def matchT (t : TokenType) : P Bool := do
  if ← check t then
    advance
    pure true
  else pure false

/-- An error, and best-effort recovery: don't advance past EOF. -/
def recover (t : Token) (msg : String) : P Unit := do
  errorAt t msg
  if ← check .eof then pure () else advance

def expect (t : TokenType) (what : String) : P Unit := do
  let c ← cur
  if c.type = t then advance else recover c what

/-- The functions that are called back into, and a bound on the turns of one loop. -/
structure Rec where
  turns : ℕ
  type : P TypeInfo
  assignment : P Expr
  unary : P Expr
  power : P Expr
  block : P Stmt

/-! ### Loops -/

/-- `do { item } while (match_t(p, TOK_COMMA));` -/
def commaList {α : Type} (item : P α) : ℕ → P (List α)
  | 0 => outOfDepth
  | n + 1 => do
    let a ← item
    if ← matchT .comma then
      let as ← commaList item n
      pure (a :: as)
    else pure [a]

/-- A list of items in front of the token `close`, which may be empty. -/
def listUntil {α : Type} (r : Rec) (close : TokenType) (item : P α) : P (List α) := do
  if ← check close then pure [] else commaList item r.turns

/-- `while (!check(p, TOK_RBRACE) && !check(p, TOK_EOF))`, collecting what the turns
yield. -/
def untilBrace {α : Type} (item : P (Option α)) : ℕ → P (List α)
  | 0 => outOfDepth
  | n + 1 => do
    if (← check .rbrace) || (← check .eof) then pure []
    else
      let a ← item
      let as ← untilBrace item n
      pure (a.toList ++ as)

/-- A left-associative level: operands joined by operators of the set `ops`. -/
def binaryLoop (ops : List TokenType) (operand : P Expr) (line : Token → Expr → ℕ) :
    ℕ → Expr → P Expr
  | 0, _ => outOfDepth
  | n + 1, left => do
    let op ← cur
    if op.type ∈ ops then
      advance
      let right ← operand
      binaryLoop ops operand line n (.binary (line op left) left right op.type)
    else pure left

/-! ### Types -/

/-- The kind a type keyword names. -/
def typeKeyword : TokenType → Option JagType
  | .typeString => some .string
  | .typeNum => some .num
  | .typeDecimal => some .decimal
  | .typeBool => some .bool
  | .typeScifi => some .scifi
  | .typeData => some .data
  | .typeList => some .list
  | .typeMixedlist => some .mixedlist
  | .typeEnum => some .enum
  | .typeStruct => some .struct
  | .typeVector => some .vector
  | .typeMatrix => some .matrix
  | .typeTask => some .task
  | .typeWorker => some .worker
  | .typeSocket => some .socket
  | _ => none

def parseType (r : Rec) : P TypeInfo := do
  let t ← cur
  match typeKeyword t.type with
  | some kind =>
    advance
    if ← matchT .lt then
      let elem ← r.type
      expect .gt "expected '>' to close generic type"
      pure (.mk kind (some elem) none)
    else pure (.new kind)
  | none =>
    if ← matchT .ident then pure (.mk .classNamed none (some t.lexeme))
    else
      errorAt t "expected a type"
      advance
      pure (.new .unknown)

/-- `: type`, or the type `default`. -/
def parseTypeAnnotation (r : Rec) (default : JagType) : P TypeInfo := do
  if ← matchT .colon then parseType r else pure (.new default)

/-! ### String literals -/

/-- The bytes of a literal segment. -/
def unescapeSegment : Text → Text
  | [] => []
  | [c] => [c]
  | c :: n :: s =>
    if c = 92 then (if n = 110 then 10 else if n = 116 then 9 else n) :: unescapeSegment s
    else c :: unescapeSegment (n :: s)

/-- A stretch of a string literal: literal text, or the text of an expression. -/
inductive RawPart
  | literal (s : Text)
  | expr (s : Text)
  deriving DecidableEq

/-- The number of bytes in front of the brace that brings `depth` to zero, or to the
end: `j - start_expr` of the inner loop. -/
def exprLength : ℕ → Text → ℕ
  | _, [] => 0
  | depth, c :: s =>
    if c = 123 then exprLength (depth + 1) s + 1
    else if c = 125 then
      if depth ≤ 1 then 0 else exprLength (depth - 1) s + 1
    else exprLength depth s + 1

/-- A literal part, unless it would be empty. -/
def literalPart (s : Text) : List RawPart := if s = [] then [] else [.literal s]

/-- The text of the expression whose opener is `openLen` bytes long, and what is
left behind its closing brace or braces. -/
def takeExpr (openLen : ℕ) (isDbl : Bool) (s : Text) : Text × Text :=
  let s := s.drop openLen
  let len := exprLength 1 s
  let rest := s.drop (len + 1)
  (s.take len, if isDbl ∧ rest.head? = some 125 then rest.tail else rest)

theorem takeExpr_rest_length {openLen : ℕ} (h : 0 < openLen) (isDbl : Bool) (c : UInt8)
    (s : Text) : (takeExpr openLen isDbl (c :: s)).2.length < (c :: s).length := by
  unfold takeExpr
  dsimp only
  split_ifs
  · simp only [List.length_tail, List.length_drop, List.length_cons]
    omega
  · simp only [List.length_drop, List.length_cons]
    omega

/-- The main loop of `parse_string_literal_token`: `lit` is what has been passed since
the last part. Only `{{` and `${` open an expression. -/
def splitTemplate (lit : Text) (s : Text) : List RawPart :=
  match s with
  | [] => literalPart lit
  | c :: s =>
    let isDbl := c = 123 ∧ s.head? = some 123
    let isDollarBrace := c = 36 ∧ s.head? = some 123
    if isDbl ∨ isDollarBrace then
      let expr := takeExpr (if isDbl then 2 else 1) isDbl (c :: s)
      literalPart lit ++ .expr expr.1 :: splitTemplate [] expr.2
    else splitTemplate (lit ++ [c]) s
termination_by s.length
decreasing_by
  · exact takeExpr_rest_length (by split_ifs <;> omega) _ _ _
  · exact Nat.lt_succ_self _

/-- `parse_expr_substring`: a parser of its own runs on the text; its errors stay in
it. -/
def parseExprSubstring (r : Rec) (text : Text) (line : ℕ) : P Expr := fun s =>
  match r.assignment (initParser text) with
  | none => none
  | some (e, sub) =>
    let call : NestedParse := ⟨s.source, text, sub.errors, sub.toks.length⟩
    some (e.withLine line, { s with nested := s.nested ++ sub.nested ++ [call] })

def parseParts (r : Rec) (line : ℕ) : List RawPart → P (List StrPart)
  | [] => pure []
  | .literal s :: raw => do
    let parts ← parseParts r line raw
    pure (.literal (unescapeSegment s) :: parts)
  | .expr s :: raw => do
    let e ← parseExprSubstring r s line
    let parts ← parseParts r line raw
    pure (.expr e :: parts)

def parseStringLiteralToken (r : Rec) (t : Token) : P Expr := do
  let parts ← parseParts r t.line (splitTemplate [] t.lexeme)
  pure (.str t.line (if parts.isEmpty then [.literal []] else parts))

/-! ### Expressions -/

def parseArgList (r : Rec) : P (List Expr) := listUntil r .rparen r.assignment

def parseParam (r : Rec) : P Param := do
  let nm ← cur
  expect .ident "expected parameter name"
  let type ← parseTypeAnnotation r .unknown
  pure ⟨nm.lexeme, type⟩

def expectFun (isAsync : Bool) : P Unit :=
  if isAsync then expect .kwFun "expected 'fun' after 'async'" else pure ()

/-- A function literal behind its first keyword and its `async`. -/
def parseFuncLit (r : Rec) (t : Token) (isAsync : Bool) : P Expr := do
  expectFun isAsync
  expect .lparen "expected '(' in function literal"
  let params ← listUntil r .rparen (parseParam r)
  expect .rparen "expected ')' after parameters"
  let ret ← parseTypeAnnotation r .void
  let body ← r.block
  pure (.funcLit t.line params ret body isAsync)

def parseNew (r : Rec) (t : Token) : P Expr := do
  let nm ← cur
  expect .ident "expected a class name after 'new'"
  expect .lparen "expected '(' after class name"
  let args ← parseArgList r
  expect .rparen "expected ')' after constructor arguments"
  pure (.new t.line nm.lexeme args)

def expectKey : P Unit := do
  if ← matchT .stringLit then pure () else expect .ident "expected key"

def parseDataEntry (r : Rec) : P (Text × Expr) := do
  let key ← cur
  expectKey
  expect .colon "expected ':' after key"
  let value ← r.assignment
  pure (key.lexeme, value)

def parsePrimary (r : Rec) : P Expr := do
  let t ← cur
  if ← matchT .numLit then pure (.num t.line (atol t.lexeme))
  else if ← matchT .decimalLit then pure (.decimal t.line (atof t.lexeme))
  else if ← matchT .scifiLit then pure (.scifi t.line (atof t.lexeme))
  else if ← matchT .kwTrue then pure (.bool t.line true)
  else if ← matchT .kwFalse then pure (.bool t.line false)
  else if ← matchT .stringLit then parseStringLiteralToken r t
  else if ← matchT .ident then pure (.ident t.line t.lexeme)
  else if ← matchT .typeTask then pure (.ident t.line (txt "Task"))
  else if ← matchT .kwThis then pure (.ident t.line (txt "this"))
  else if ← matchT .kwSuper then pure (.ident t.line (txt "super"))
  else if ← matchT .kwNew then parseNew r t
  else if ← matchT .kwAwait then do
    let e ← r.assignment
    pure (.await t.line e)
  else if ← matchT .kwFun then do
    let isAsync ← matchT .kwAsync
    parseFuncLit r t isAsync
  else if ← matchT .kwAsync then parseFuncLit r t true
  else if ← matchT .lparen then do
    let e ← r.assignment
    expect .rparen "expected ')'"
    pure e
  else if ← matchT .lbracket then do
    let items ← listUntil r .rbracket r.assignment
    expect .rbracket "expected ']'"
    pure (.list t.line items)
  else if ← matchT .lbrace then do
    let entries ← listUntil r .rbrace (parseDataEntry r)
    expect .rbrace "expected '\x7d'"
    pure (.data t.line entries)
  else do
    recover t "expected an expression"
    pure (.bool t.line false)

/-- `is_member_name_token`: an identifier, or a keyword other than `new`, `this`,
`extends` and `super`. -/
def isMemberNameToken (t : TokenType) : Bool :=
  t = .ident || (typeKeyword t).isSome || t ∈ [.kwVar, .kwFixed, .kwFun, .kwAsync, .kwAwait,
    .kwReturn, .kwIf, .kwElif, .kwElse, .kwLoop, .kwDo, .kwWhile, .kwFor, .kwIn, .kwIterate,
    .kwClass, .kwPublic, .kwPrivate, .kwImport, .kwExport, .kwTry, .kwCatch, .kwLive,
    .kwTrue, .kwFalse]

/-- The arguments of a call, behind the opening parenthesis. -/
def parseCallArgs (r : Rec) : P (List Expr) := do
  let args ← parseArgList r
  expect .rparen "expected ')' after arguments"
  pure args

def expectMemberName (nm : Token) : P Unit :=
  if isMemberNameToken nm.type then advance else expect .ident "expected member name after '.'"

def parseMemberName : P Text := do
  let nm ← cur
  expectMemberName nm
  pure nm.lexeme

def postfixLoop (r : Rec) : ℕ → Expr → P Expr
  | 0, _ => outOfDepth
  | n + 1, e => do
    if ← matchT .dot then
      let name ← parseMemberName
      let member := Expr.member e.line e name
      if ← matchT .lparen then
        let args ← parseCallArgs r
        postfixLoop r n (.call e.line member args)
      else postfixLoop r n member
    else if ← matchT .lbracket then
      let idx ← r.assignment
      expect .rbracket "expected ']'"
      postfixLoop r n (.index e.line e idx)
    else if ← matchT .lparen then
      let args ← parseCallArgs r
      postfixLoop r n (.call e.line e args)
    else pure e

def parsePostfix (r : Rec) : P Expr := do
  let e ← parsePrimary r
  postfixLoop r r.turns e

def parseUnary (r : Rec) : P Expr := do
  let op ← cur
  if op.type ∈ [.not, .minus] then
    advance
    let operand ← r.unary
    pure (.unary op.line operand op.type)
  else parsePostfix r

def parsePower (r : Rec) : P Expr := do
  let left ← parseUnary r
  if ← matchT .pow then
    let right ← r.power
    pure (.binary left.line left right .pow)
  else pure left

/-- A left-associative level above `operand`. -/
def parseLevel (r : Rec) (ops : List TokenType) (operand : P Expr)
    (line : Token → Expr → ℕ) : P Expr := do
  let left ← operand
  binaryLoop ops operand line r.turns left

def parseMul (r : Rec) : P Expr :=
  parseLevel r [.star, .slash, .percent] (parsePower r) fun op _ => op.line

def parseAdd (r : Rec) : P Expr :=
  parseLevel r [.plus, .minus] (parseMul r) fun op _ => op.line

def parseShift (r : Rec) : P Expr :=
  parseLevel r [.shl, .shr] (parseAdd r) fun op _ => op.line

def parseBetween (r : Rec) : P Expr := do
  let left ← parseShift r
  if ← matchT .between then
    expect .lparen "expected '(' after '<<<'"
    let low ← r.assignment
    expect .comma "expected ',' between low and high bounds"
    let high ← r.assignment
    expect .rparen "expected ')' after bounds"
    pure (.between left.line left low high)
  else pure left

def parseComparison (r : Rec) : P Expr :=
  parseLevel r [.gt, .lt, .ge, .le] (parseBetween r) fun op _ => op.line

def parseEquality (r : Rec) : P Expr :=
  parseLevel r [.eq, .ne] (parseComparison r) fun op _ => op.line

def parseAnd (r : Rec) : P Expr :=
  parseLevel r [.and] (parseEquality r) fun _ left => left.line

def parseOr (r : Rec) : P Expr :=
  parseLevel r [.or] (parseAnd r) fun _ left => left.line

def parseTernary (r : Rec) : P Expr := do
  let cond ← parseOr r
  if ← matchT .question then
    let thenE ← r.assignment
    expect .colon "expected ':' in ternary expression"
    let elseE ← r.assignment
    pure (.ternary cond.line cond thenE elseE)
  else pure cond

def isAssignOp (t : TokenType) : Bool :=
  t ∈ [.assign, .plusEq, .minusEq, .starEq, .slashEq, .percentEq, .powEq]

def parseAssignment (r : Rec) : P Expr := do
  let left ← parseTernary r
  let op ← cur
  if isAssignOp op.type then
    advance
    let value ← r.assignment
    pure (.assign op.line left value op.type)
  else pure left

def parseExpr (r : Rec) : P Expr := parseAssignment r

/-! ### Statements -/

/-- `(` condition `)`. -/
def parseCondition (r : Rec) (opening closing : String) : P Expr := do
  expect .lparen opening
  let cond ← parseExpr r
  expect .rparen closing
  pure cond

/-- A variable declaration behind its keyword. -/
def parseVarOrFixed (r : Rec) (isFixed : Bool) : P Stmt := do
  let nm ← cur
  expect .ident "expected variable name"
  let type ← parseTypeAnnotation r .unknown
  if ← matchT .assign then
    let init ← parseExpr r
    expect .semi "expected ';' after declaration"
    pure (.varDecl nm.line nm.lexeme type (some init) isFixed)
  else
    expect .semi "expected ';' after declaration"
    pure (.varDecl nm.line nm.lexeme type none isFixed)

def parseParamList (r : Rec) : P (List Param) := listUntil r .rparen (parseParam r)

def parseFunDecl (r : Rec) (isAsync : Bool) : P Stmt := do
  let nm ← cur
  expect .ident "expected function name"
  expect .lparen "expected '(' after function name"
  let params ← parseParamList r
  expect .rparen "expected ')' after parameters"
  let ret ← parseTypeAnnotation r .void
  let body ← r.block
  pure (.funDecl nm.line nm.lexeme params ret body isAsync)

/-- `while (check(p, TOK_ELIF))`. -/
def elifLoop (r : Rec) : ℕ → P (List (Expr × Stmt))
  | 0 => outOfDepth
  | n + 1 => do
    if ← matchT .kwElif then
      let cond ← parseCondition r "expected '(' after 'elif'" "expected ')' after condition"
      let body ← r.block
      let elifs ← elifLoop r n
      pure ((cond, body) :: elifs)
    else pure []

def parseIf (r : Rec) : P Stmt := do
  let t ← cur
  let cond ← parseCondition r "expected '(' after 'if'" "expected ')' after condition"
  let thenB ← r.block
  let elifs ← elifLoop r r.turns
  if ← matchT .kwElse then
    let elseB ← r.block
    pure (.ifStmt t.line cond thenB elifs (some elseB))
  else pure (.ifStmt t.line cond thenB elifs none)

def parseReturn (r : Rec) (line : ℕ) : P Stmt := do
  if ← matchT .semi then pure (.ret line none)
  else
    let value ← parseExpr r
    expect .semi "expected ';' after return value"
    pure (.ret line (some value))

def parseLoopWhile (r : Rec) (line : ℕ) : P Stmt := do
  let cond ← parseCondition r "expected '(' after 'loop'" "expected ')'"
  let body ← r.block
  pure (.loopWhile line cond body)

def parseDoWhile (r : Rec) (line : ℕ) : P Stmt := do
  expect .kwLoop "expected 'loop' after 'do'"
  let body ← r.block
  expect .kwWhile "expected 'while' after do-loop body"
  let cond ← parseCondition r "expected '(' after 'while'" "expected ')'"
  expect .semi "expected ';' after do-while"
  pure (.doWhile line cond body)

/-- The condition of a for-in loop, if there is one. -/
def parseForCondition (r : Rec) : P (Option Expr) := do
  if ← matchT .comma then
    let cond ← parseExpr r
    pure (some cond)
  else pure none

def parseForIn (r : Rec) (line : ℕ) : P Stmt := do
  expect .lparen "expected '(' after 'for'"
  let nm ← cur
  expect .ident "expected loop variable name"
  expect .kwIn "expected 'in' in for-in loop"
  let iterable ← parseExpr r
  let cond ← parseForCondition r
  expect .rparen "expected ')'"
  let body ← r.block
  pure (.forIn line nm.lexeme iterable cond body)

def parseIterate (r : Rec) (line : ℕ) : P Stmt := do
  expect .lparen "expected '(' after 'iterate'"
  let coll ← parseExpr r
  expect .comma "expected ',' before item name"
  let nm ← cur
  expect .ident "expected item variable name"
  expect .rparen "expected ')'"
  let body ← r.block
  pure (.iterate line coll nm.lexeme body)

def parseClassMember (r : Rec) : P (Option Stmt) := do
  if ← matchT .kwVar then some <$> parseVarOrFixed r false
  else if ← matchT .kwFixed then some <$> parseVarOrFixed r true
  else if ← matchT .kwFun then some <$> parseFunDecl r false
  else
    errorAt (← cur) "expected class member"
    advance
    pure none

def parseVisibility : P ℕ := do
  if ← matchT .kwPublic then pure 1
  else if ← matchT .kwPrivate then pure 2
  else pure 0

def parseParentName : P (Option Text) := do
  if ← matchT .kwExtends then
    let pnm ← cur
    expect .ident "expected parent class name after 'extends'"
    pure (some pnm.lexeme)
  else pure none

def parseClass (r : Rec) (line : ℕ) : P Stmt := do
  let vis ← parseVisibility
  expect .kwClass "expected 'class'"
  let nm ← cur
  expect .ident "expected class name"
  let parentName ← parseParentName
  expect .lbrace "expected '\x7b'"
  let members ← untilBrace (parseClassMember r) r.turns
  expect .rbrace "expected '\x7d'"
  pure (.classDecl line nm.lexeme members vis parentName)

def parseEnumValue : P Text := do
  let v ← cur
  expect .ident "expected enum value"
  pure v.lexeme

def parseEnum (r : Rec) (line : ℕ) : P Stmt := do
  let nm ← cur
  expect .ident "expected enum name"
  expect .lbrace "expected '\x7b'"
  let vals ← listUntil r .rbrace parseEnumValue
  expect .rbrace "expected '\x7d'"
  pure (.enumDecl line nm.lexeme (vals.take 64))

def parseField (r : Rec) : P (Option Param) := do
  let fnm ← cur
  expect .ident "expected field name"
  expect .colon "expected ':' after field name"
  let ft ← parseType r
  expect .semi "expected ';' after field"
  pure (some ⟨fnm.lexeme, ft⟩)

def parseStruct (r : Rec) (line : ℕ) : P Stmt := do
  let nm ← cur
  expect .ident "expected struct name"
  expect .lbrace "expected '\x7b'"
  let fields ← untilBrace (parseField r) r.turns
  expect .rbrace "expected '\x7d'"
  pure (.structDecl line nm.lexeme fields)

/-- `vector<num> name = [...];` -/
def parseVector (r : Rec) (line : ℕ) : P Stmt := do
  let t ← parseType r
  let nm ← cur
  expect .ident "expected variable name"
  if ← matchT .assign then
    let init ← parseExpr r
    expect .semi "expected ';'"
    pure (.varDecl line nm.lexeme t (some init) false)
  else
    expect .semi "expected ';'"
    pure (.varDecl line nm.lexeme t none false)

/-- An import from its path on. -/
def parseImportPath (line : ℕ) : P Stmt := do
  let path ← cur
  expect .stringLit "expected import path string"
  expect .semi "expected ';' after import"
  pure (.importStmt line path.lexeme)

/-- `import "path.jag";` or `import name from "path.jag";`: only names of four
characters are taken for a bound name. -/
def parseImport (line : ℕ) : P Stmt := do
  let nm ← cur
  if nm.type = .ident ∧ nm.lexeme.length = 4 ∧ nm.lexeme ≠ txt "from" then
    advance
    let t ← cur
    if t.type = .ident ∧ t.lexeme = txt "from" then
      advance
      parseImportPath line
    else
      errorAt t "expected 'from' in import statement"
      parseImportPath line
  else parseImportPath line

def parseExport (line : ℕ) : P Stmt := do
  let nm ← cur
  expect .ident "expected identifier after 'export'"
  expect .semi "expected ';' after export"
  pure (.exportStmt line nm.lexeme)

/-- The type of a caught error, which nothing uses. -/
def parseCatchType (r : Rec) : P Unit := do
  if ← matchT .colon then
    let _ ← parseType r

def parseTry (r : Rec) (line : ℕ) : P Stmt := do
  let tryB ← r.block
  expect .kwCatch "expected 'catch' after try block"
  expect .lparen "expected '(' after 'catch'"
  let nm ← cur
  expect .ident "expected error variable name"
  parseCatchType r
  expect .rparen "expected ')'"
  let catchB ← r.block
  pure (.tryCatch line tryB nm.lexeme catchB)

def parseExprStmt (r : Rec) (line : ℕ) : P Stmt := do
  let e ← parseExpr r
  expect .semi "expected ';' after expression"
  pure (.expr line e)

def parseStatement (r : Rec) : P Stmt := do
  let t ← cur
  if ← matchT .kwVar then parseVarOrFixed r false
  else if ← matchT .kwFixed then parseVarOrFixed r true
  else if ← matchT .kwIf then parseIf r
  else if ← matchT .kwAsync then
    expect .kwFun "expected 'fun' after 'async'"
    parseFunDecl r true
  else if ← matchT .kwFun then parseFunDecl r false
  else if ← matchT .kwReturn then parseReturn r t.line
  else if ← matchT .kwLoop then parseLoopWhile r t.line
  else if ← matchT .kwDo then parseDoWhile r t.line
  else if ← matchT .kwFor then parseForIn r t.line
  else if ← matchT .kwIterate then parseIterate r t.line
  else if t.type ∈ [.kwClass, .kwPublic, .kwPrivate] then parseClass r t.line
  else if ← matchT .typeEnum then parseEnum r t.line
  else if ← matchT .typeStruct then parseStruct r t.line
  else if t.type ∈ [.typeVector, .typeMatrix] then parseVector r t.line
  else if ← matchT .kwImport then parseImport t.line
  else if ← matchT .kwExport then parseExport t.line
  else if ← matchT .kwTry then parseTry r t.line
  else if ← check .lbrace then r.block
  else parseExprStmt r t.line

def parseBlock (r : Rec) : P Stmt := do
  let t ← cur
  expect .lbrace "expected '\x7b'"
  let stmts ← untilBrace (some <$> parseStatement r) r.turns
  expect .rbrace "expected '\x7d'"
  pure (.block t.line stmts)

/-- The functions at nesting depth `n`. -/
def recAt : ℕ → Rec
  | 0 => ⟨1, outOfDepth, outOfDepth, outOfDepth, outOfDepth, outOfDepth⟩
  | n + 1 =>
    let r := recAt n
    ⟨n + 2, parseType r, parseAssignment r, parseUnary r, parsePower r, parseBlock r⟩

/-- The loop of `parse_program`, which stops behind the first statement with an error. -/
def programLoop (r : Rec) : ℕ → P (List Stmt)
  | 0 => outOfDepth
  | n + 1 => do
    if ← check .eof then pure []
    else
      let s ← parseStatement r
      if ← hadError then pure [s]
      else
        let stmts ← programLoop r n
        pure (s :: stmts)

/-- The parser's run on a source text, to depth `n`: the statements, and the state in
the end. -/
def runProgram (n : ℕ) (source : Text) : Option (List Stmt × PState) :=
  programLoop (recAt n) (n + 1) (initParser source)

structure ParseResult where
  stmts : List Stmt
  hadError : Bool

def parseProgram (n : ℕ) (source : Text) : Option ParseResult :=
  (runProgram n source).map fun (stmts, s) => ⟨stmts, s.hadError⟩

end Jaguar
