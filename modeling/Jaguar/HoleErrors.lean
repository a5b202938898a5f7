/-
Errors in interpolation holes.

The text of a hole is parsed by a parser of its own, whose errors and unread tokens stay in it:
`p->had_error` is what it would be if all string literals were empty.

* `Token.blank`, `Blanked` — the tokens with the text of string literals taken out;
* `blind_parseStringLiteralToken` … `blind_programLoop` — **no parsing function can tell**;
* `Broken` — a hole whose text is not exactly one expression;
* `reportsHoles_iff` — a broken hole is reported just when there is an error outside the literals.
-/
import Jaguar.ParserProgress
import Jaguar.TwoRuns

namespace Jaguar

/-! ### Tokens without the text of strings -/

/-- A string literal becomes the empty one. -/
def Token.blank (t : Token) : Token := if t.type = .stringLit then { t with lexeme := [] } else t

@[simp] theorem Token.blank_type (t : Token) : t.blank.type = t.type := by
  unfold Token.blank
  split <;> rfl

theorem Token.blank_of_ne {t : Token} (h : t.type ≠ .stringLit) : t.blank = t := if_neg h

/-- The same state but for the text of strings, the log of errors and that of nested parses. -/
structure Blanked (s s' : PState) : Prop where
  toks : s'.toks = s.toks.map Token.blank
  eofLine : s'.eofLine = s.eofLine
  hadError : s'.hadError = s.hadError

theorem Blanked.cur {s s' : PState} (h : Blanked s s') : s'.cur = s.cur.blank := by
  unfold PState.cur
  rw [h.toks, h.eofLine]
  cases s.toks with
  | nil => rfl
  | cons t ts => rfl

/-- The two run alike, whatever they return. -/
abbrev Blind {α α' : Type} (m : P α) (m' : P α') : Prop := Tracks Blanked AnyTwo m m'

section Rules

variable {α α' β β' : Type} {f g : P α} {f' g' : P α'}

theorem blind_pure (a : α) (a' : α') : Blind (pure a : P α) (pure a' : P α') := tracks_pure trivial

theorem blind_outOfDepth : Blind (outOfDepth : P α) f' := tracks_of_none fun _ => rfl

theorem blind_cur {k : Token → P α} {k' : Token → P α'} (h : ∀ t, Blind (k t) (k' t.blank)) :
    Blind (cur >>= k) (cur >>= k') := by
  intro s s' hs
  have hcur := h s.cur s s' hs
  rw [← hs.cur] at hcur
  exact hcur

theorem tracks_check (t : TokenType) : Tracks Blanked Eq (check t) (check t) := by
  rintro s s' hs b u hrun
  obtain ⟨rfl, rfl⟩ := Prod.mk.inj (Option.some.inj hrun)
  refine ⟨_, s', rfl, hs, ?_⟩
  rw [hs.cur, Token.blank_type]

theorem tracks_hadError : Tracks Blanked Eq hadError hadError := by
  rintro s s' hs b u hrun
  obtain ⟨rfl, rfl⟩ := Prod.mk.inj (Option.some.inj hrun)
  exact ⟨_, s', rfl, hs, hs.hadError.symm⟩

theorem blind_advance : Blind advance advance := by
  rintro s s' hs b u hrun
  obtain ⟨rfl, rfl⟩ := Prod.mk.inj (Option.some.inj hrun)
  refine ⟨(), _, rfl, ⟨?_, hs.eofLine, hs.hadError⟩, trivial⟩
  show s'.toks.tail = s.toks.tail.map Token.blank
  rw [hs.toks, List.map_tail]

theorem blind_errorAt (t t' : Token) (msg : String) : Blind (errorAt t msg) (errorAt t' msg) := by
  rintro s s' hs b u hrun
  obtain ⟨rfl, rfl⟩ := Prod.mk.inj (Option.some.inj hrun)
  refine ⟨(), _, rfl, ⟨hs.toks, hs.eofLine, ?_⟩, trivial⟩
  have hne : ∀ (es : List ParseError) e, (es ++ [e]).isEmpty = false := fun es e => by
    cases es <;> rfl
  rw [PState.hadError, PState.hadError, hne, hne]

theorem tracks_matchT (t : TokenType) : Tracks Blanked Eq (matchT t) (matchT t) :=
  tracks_bool (tracks_check t) (blind_advance.bind fun _ _ _ => tracks_pure rfl) (tracks_pure rfl)

theorem blind_match (t : TokenType) (hf : Blind f f') (hg : Blind g g') :
    Blind (matchT t >>= fun b => if b then f else g) (matchT t >>= fun b => if b then f' else g') :=
  tracks_bool (tracks_matchT t) hf hg

theorem blind_recover (t t' : Token) (msg : String) : Blind (recover t msg) (recover t' msg) :=
  (blind_errorAt t t' msg).then fun _ _ =>
    tracks_bool (tracks_check .eof) (blind_pure _ _) blind_advance

theorem blind_expect (t : TokenType) (what : String) : Blind (expect t what) (expect t what) :=
  blind_cur fun c => tracks_ite (by rw [Token.blank_type]) blind_advance (blind_recover _ _ what)

end Rules

/-! ### Loops -/

section Loops

variable {α : Type} {r : Rec}

theorem blind_commaList {item : P α} (h : Blind item item) (k : ℕ) :
    Blind (commaList item k) (commaList item k) := by
  induction k with
  | zero => exact blind_outOfDepth
  | succ k ih =>
    exact h.then fun a a' => blind_match .comma (ih.then fun _ _ => blind_pure _ _) (blind_pure _ _)

theorem blind_listUntil {close : TokenType} {item : P α} (h : Blind item item) :
    Blind (listUntil r close item) (listUntil r close item) :=
  tracks_bool (tracks_check close) (blind_pure _ _) (blind_commaList h r.turns)

theorem blind_untilBrace {item : P (Option α)} (h : Blind item item) (k : ℕ) :
    Blind (untilBrace item k) (untilBrace item k) := by
  induction k with
  | zero => exact blind_outOfDepth
  | succ k ih =>
    refine (tracks_check .rbrace).bind fun b b' hb => (tracks_check .eof).bind fun c c' hc => ?_
    subst hb hc
    exact tracks_ite Iff.rfl (blind_pure _ _) (h.then fun _ _ => ih.then fun _ _ => blind_pure _ _)

theorem blind_binaryLoop {ops : List TokenType} {operand : P Expr} (h : Blind operand operand)
    {line : Token → Expr → ℕ} (k : ℕ) (left left' : Expr) :
    Blind (binaryLoop ops operand line k left) (binaryLoop ops operand line k left') := by
  induction k generalizing left left' with
  | zero => exact blind_outOfDepth
  | succ k ih =>
    refine blind_cur fun op => tracks_ite (by rw [Token.blank_type]) ?_ (blind_pure _ _)
    exact blind_advance.then fun _ _ => h.then fun _ _ => ih _ _

end Loops

/-! ### Types and string literals -/

/-- The functions that are called back into run alike. -/
structure Rec.Blind (r : Rec) : Prop where
  type : Jaguar.Blind r.type r.type
  assignment : Jaguar.Blind r.assignment r.assignment
  unary : Jaguar.Blind r.unary r.unary
  power : Jaguar.Blind r.power r.power
  block : Jaguar.Blind r.block r.block

section Literals

variable {r : Rec}

theorem blind_parseType (hr : r.Blind) : Blind (parseType r) (parseType r) := by
  refine blind_cur fun t => ?_
  rw [Token.blank_type]
  cases typeKeyword t.type with
  | some kind =>
    refine blind_advance.then fun _ _ => blind_match .lt ?_ (blind_pure _ _)
    exact hr.type.then fun _ _ => (blind_expect _ _).then fun _ _ => blind_pure _ _
  | none =>
    refine blind_match .ident (blind_pure _ _) ?_
    exact (blind_errorAt _ _ _).then fun _ _ => blind_advance.then fun _ _ => blind_pure _ _

theorem blind_parseTypeAnnotation (hr : r.Blind) (default : JagType) :
    Blind ( parseTypeAnnotation r default) ( parseTypeAnnotation r default) :=
  blind_match .colon (blind_parseType hr) (blind_pure _ _)

/-- A nested parse leaves its log only. -/
theorem parseExprSubstring_eq {text : Text} {line : ℕ} {s t : PState} {e : Expr}
    (h : parseExprSubstring r text line s = some (e, t)) :
    (∃ nested, t = { s with nested := nested }) ∧
      ∀ u : PState, ∃ nested,
        parseExprSubstring r text line u = some (e, { u with nested := nested }) := by
  unfold parseExprSubstring at h ⊢
  cases hrun : r.assignment (initParser text) with
  | none =>
    rw [hrun] at h
    cases h
  | some x =>
    rw [hrun] at h
    obtain ⟨rfl, rfl⟩ := Prod.mk.inj (Option.some.inj h)
    exact ⟨⟨_, rfl⟩, fun u => ⟨_, rfl⟩⟩

theorem blind_parseExprSubstring (text : Text) (line : ℕ) :
    Blind (parseExprSubstring r text line) (parseExprSubstring r text line) := by
  rintro s s' hs e t hrun
  obtain ⟨⟨nested, rfl⟩, hall⟩ := parseExprSubstring_eq hrun
  obtain ⟨nested', hrun'⟩ := hall s'
  exact ⟨e, _, hrun', ⟨hs.toks, hs.eofLine, hs.hadError⟩, trivial⟩

theorem blind_parseParts (line : ℕ) (raw : List RawPart) :
    Blind (parseParts r line raw) (parseParts r line raw) := by
  induction raw with
  | nil => exact blind_pure _ _
  | cons p raw ih =>
    cases p with
    | literal lit => exact ih.then fun _ _ => blind_pure _ _
    | expr text =>
      exact (blind_parseExprSubstring text line).then fun _ _ => ih.then fun _ _ => blind_pure _ _

/-- The parts of a literal, against those of the empty one. -/
theorem blind_parseParts_nil (line : ℕ) (raw : List RawPart) (parts : List StrPart) :
    Blind (parseParts r line raw) (pure parts : P (List StrPart)) := by
  have hpure : ∀ {m : P (List StrPart)} {f : List StrPart → List StrPart},
      Blind m (pure parts : P (List StrPart)) →
      Blind (m >>= fun ps => pure (f ps)) (pure parts : P (List StrPart)) :=
    fun {m f} hm => by
      -- the empty one's parts are handed on as they are
      have hthen : Blind (m >>= fun ps => pure (f ps))
          ((pure parts : P (List StrPart)) >>= fun ps => pure ps) :=
        hm.then fun _ _ => blind_pure _ _
      exact hthen
  induction raw with
  | nil => exact blind_pure _ _
  | cons p raw ih =>
    cases p with
    | literal lit => exact hpure ih
    | expr text =>
      refine tracks_left (fun s s' e t hs hrun => ?_) fun _ => hpure ih
      obtain ⟨⟨nested, rfl⟩, -⟩ := parseExprSubstring_eq hrun
      exact ⟨hs.toks, hs.eofLine, hs.hadError⟩

theorem blind_parseStringLiteralToken (t : Token) :
    Blind (parseStringLiteralToken r t) (parseStringLiteralToken r t.blank) := by
  by_cases h : t.type = .stringLit
  · have hempty : parseParts r t.blank.line (splitTemplate [] t.blank.lexeme)
        = (pure [] : P (List StrPart)) := by
      have hlexeme : t.blank.lexeme = [] := by rw [Token.blank, if_pos h]
      rw [hlexeme, splitTemplate]
      rfl
    rw [parseStringLiteralToken, parseStringLiteralToken, hempty]
    exact (blind_parseParts_nil _ _ _).then fun _ _ => blind_pure _ _
  · rw [Token.blank_of_ne h]
    exact (blind_parseParts _ _).then fun _ _ => blind_pure _ _

end Literals

/-! ### Expressions -/

section Expressions

variable {r : Rec}

theorem blind_parseParam (hr : r.Blind) : Blind (parseParam r) (parseParam r) :=
  blind_cur fun _ => (blind_expect _ _).then fun _ _ =>
    ( blind_parseTypeAnnotation hr _).then fun _ _ => blind_pure _ _

theorem blind_expectFun (isAsync : Bool) : Blind (expectFun isAsync) (expectFun isAsync) :=
  tracks_ite Iff.rfl (blind_expect _ _) (blind_pure _ _)

theorem blind_parseFuncLit (hr : r.Blind) (t t' : Token) (isAsync : Bool) :
    Blind (parseFuncLit r t isAsync) (parseFuncLit r t' isAsync) :=
  (blind_expectFun isAsync).then fun _ _ => (blind_expect _ _).then fun _ _ =>
    (blind_listUntil (blind_parseParam hr)).then fun _ _ => (blind_expect _ _).then fun _ _ =>
    ( blind_parseTypeAnnotation hr _).then fun _ _ => hr.block.then fun _ _ => blind_pure _ _

theorem blind_parseArgList (hr : r.Blind) : Blind (parseArgList r) (parseArgList r) :=
  blind_listUntil hr.assignment

theorem blind_parseNew (hr : r.Blind) (t t' : Token) : Blind (parseNew r t) (parseNew r t') :=
  blind_cur fun _ => (blind_expect _ _).then fun _ _ => (blind_expect _ _).then fun _ _ =>
    (blind_parseArgList hr).then fun _ _ => (blind_expect _ _).then fun _ _ => blind_pure _ _

theorem blind_parseDataEntry (hr : r.Blind) : Blind (parseDataEntry r) (parseDataEntry r) := by
  have hkey : Blind expectKey expectKey := blind_match .stringLit (blind_pure _ _) (blind_expect _ _)
  exact blind_cur fun _ => hkey.then fun _ _ => (blind_expect _ _).then fun _ _ =>
    hr.assignment.then fun _ _ => blind_pure _ _

theorem blind_parsePrimary (hr : r.Blind) : Blind (parsePrimary r) (parsePrimary r) := by
  refine blind_cur fun t => ?_
  refine blind_match .numLit (blind_pure _ _) ?_
  refine blind_match .decimalLit (blind_pure _ _) ?_
  refine blind_match .scifiLit (blind_pure _ _) ?_
  refine blind_match .kwTrue (blind_pure _ _) ?_
  refine blind_match .kwFalse (blind_pure _ _) ?_
  refine blind_match .stringLit (blind_parseStringLiteralToken t) ?_
  refine blind_match .ident (blind_pure _ _) ?_
  refine blind_match .typeTask (blind_pure _ _) ?_
  refine blind_match .kwThis (blind_pure _ _) ?_
  refine blind_match .kwSuper (blind_pure _ _) ?_
  refine blind_match .kwNew (blind_parseNew hr _ _) ?_
  refine blind_match .kwAwait (hr.assignment.then fun _ _ => blind_pure _ _) ?_
  refine blind_match .kwFun ((tracks_matchT .kwAsync).bind fun b b' hb => ?_) ?_
  · subst hb
    exact blind_parseFuncLit hr _ _ b
  refine blind_match .kwAsync (blind_parseFuncLit hr _ _ true) ?_
  refine blind_match .lparen
    (hr.assignment.bind fun e e' _ => (blind_expect _ _).then fun _ _ => blind_pure _ _) ?_
  refine blind_match .lbracket ((blind_listUntil hr.assignment).then fun _ _ =>
    (blind_expect _ _).then fun _ _ => blind_pure _ _) ?_
  refine blind_match .lbrace ((blind_listUntil (blind_parseDataEntry hr)).then fun _ _ =>
    (blind_expect _ _).then fun _ _ => blind_pure _ _) ?_
  exact (blind_recover _ _ _).then fun _ _ => blind_pure _ _

theorem blind_parseCallArgs (hr : r.Blind) : Blind (parseCallArgs r) (parseCallArgs r) :=
  (blind_parseArgList hr).then fun _ _ => (blind_expect _ _).then fun _ _ => blind_pure _ _

theorem blind_parseMemberName : Blind parseMemberName parseMemberName := by
  refine blind_cur fun nm => ?_
  have hname : Blind (expectMemberName nm) (expectMemberName nm.blank) :=
    tracks_ite (by rw [Token.blank_type]) blind_advance (blind_expect _ _)
  exact hname.then fun _ _ => blind_pure _ _

theorem blind_postfixLoop (hr : r.Blind) (k : ℕ) (e e' : Expr) :
    Blind (postfixLoop r k e) (postfixLoop r k e') := by
  induction k generalizing e e' with
  | zero => exact blind_outOfDepth
  | succ k ih =>
    refine blind_match .dot ?_ (blind_match .lbracket ?_ (blind_match .lparen ?_ (blind_pure _ _)))
    · refine blind_parseMemberName.then fun _ _ => blind_match .lparen ?_ (ih _ _)
      exact (blind_parseCallArgs hr).then fun _ _ => ih _ _
    · exact hr.assignment.then fun _ _ => (blind_expect _ _).then fun _ _ => ih _ _
    · exact (blind_parseCallArgs hr).then fun _ _ => ih _ _

theorem blind_parsePostfix (hr : r.Blind) : Blind (parsePostfix r) (parsePostfix r) :=
  (blind_parsePrimary hr).then fun e e' => blind_postfixLoop hr r.turns e e'

theorem blind_parseUnary (hr : r.Blind) : Blind (parseUnary r) (parseUnary r) :=
  blind_cur fun op => tracks_ite (by rw [Token.blank_type])
    (blind_advance.then fun _ _ => hr.unary.then fun _ _ => blind_pure _ _) (blind_parsePostfix hr)

theorem blind_parsePower (hr : r.Blind) : Blind (parsePower r) (parsePower r) :=
  (blind_parseUnary hr).then fun _ _ =>
    blind_match .pow (hr.power.then fun _ _ => blind_pure _ _) (blind_pure _ _)

theorem blind_parseLevel {ops : List TokenType} {operand : P Expr} {line : Token → Expr → ℕ}
    (h : Blind operand operand) :
    Blind (parseLevel r ops operand line) (parseLevel r ops operand line) :=
  h.then fun left left' => blind_binaryLoop h r.turns left left'

theorem blind_parseBetween (hr : r.Blind) : Blind (parseBetween r) (parseBetween r) := by
  have hshift : Blind (parseShift r) (parseShift r) :=
    blind_parseLevel (blind_parseLevel (blind_parseLevel (blind_parsePower hr)))
  refine hshift.then fun _ _ => blind_match .between ?_ (blind_pure _ _)
  exact (blind_expect _ _).then fun _ _ => hr.assignment.then fun _ _ =>
    (blind_expect _ _).then fun _ _ => hr.assignment.then fun _ _ =>
    (blind_expect _ _).then fun _ _ => blind_pure _ _

theorem blind_parseTernary (hr : r.Blind) : Blind (parseTernary r) (parseTernary r) := by
  have hor : Blind (parseOr r) (parseOr r) :=
    blind_parseLevel (blind_parseLevel (blind_parseLevel (blind_parseLevel (blind_parseBetween hr))))
  refine hor.then fun _ _ => blind_match .question ?_ (blind_pure _ _)
  exact hr.assignment.then fun _ _ => (blind_expect _ _).then fun _ _ =>
    hr.assignment.then fun _ _ => blind_pure _ _

theorem blind_parseAssignment (hr : r.Blind) : Blind (parseAssignment r) (parseAssignment r) :=
  (blind_parseTernary hr).then fun _ _ => blind_cur fun op =>
    tracks_ite (by rw [Token.blank_type])
      (blind_advance.then fun _ _ => hr.assignment.then fun _ _ => blind_pure _ _) (blind_pure _ _)

end Expressions

/-! ### Statements -/

section Statements

variable {r : Rec}

theorem blind_parseCondition (hr : r.Blind) (opening closing : String) :
    Blind (parseCondition r opening closing) (parseCondition r opening closing) :=
  (blind_expect _ _).then fun _ _ => (blind_parseAssignment hr).then fun _ _ =>
    (blind_expect _ _).then fun _ _ => blind_pure _ _

/-- The initialiser and the semicolon that end a declaration. -/
theorem blind_initialiser (hr : r.Blind) (what : String) {some₁ some₂ : Expr → Stmt}
    {none₁ none₂ : Stmt} :
    Blind
      (matchT .assign >>= fun b =>
        if b then parseExpr r >>= fun init => expect .semi what >>= fun _ => pure (some₁ init)
        else expect .semi what >>= fun _ => pure none₁)
      (matchT .assign >>= fun b =>
        if b then parseExpr r >>= fun init => expect .semi what >>= fun _ => pure (some₂ init)
        else expect .semi what >>= fun _ => pure none₂) :=
  blind_match .assign
    ((blind_parseAssignment hr).then fun _ _ => (blind_expect _ _).then fun _ _ => blind_pure _ _)
    ((blind_expect _ _).then fun _ _ => blind_pure _ _)

theorem blind_parseVarOrFixed (hr : r.Blind) (isFixed : Bool) :
    Blind (parseVarOrFixed r isFixed) (parseVarOrFixed r isFixed) :=
  blind_cur fun _ => (blind_expect _ _).then fun _ _ =>
    ( blind_parseTypeAnnotation hr _).then fun _ _ => blind_initialiser hr _

theorem blind_parseFunDecl (hr : r.Blind) (isAsync : Bool) :
    Blind (parseFunDecl r isAsync) (parseFunDecl r isAsync) :=
  blind_cur fun _ => (blind_expect _ _).then fun _ _ => (blind_expect _ _).then fun _ _ =>
    (blind_listUntil (blind_parseParam hr)).then fun _ _ => (blind_expect _ _).then fun _ _ =>
    ( blind_parseTypeAnnotation hr _).then fun _ _ => hr.block.then fun _ _ => blind_pure _ _

theorem blind_elifLoop (hr : r.Blind) (k : ℕ) : Blind (elifLoop r k) (elifLoop r k) := by
  induction k with
  | zero => exact blind_outOfDepth
  | succ k ih =>
    refine blind_match .kwElif ?_ (blind_pure _ _)
    exact (blind_parseCondition hr _ _).then fun _ _ => hr.block.then fun _ _ =>
      ih.then fun _ _ => blind_pure _ _

theorem blind_parseIf (hr : r.Blind) : Blind (parseIf r) (parseIf r) :=
  blind_cur fun _ => (blind_parseCondition hr _ _).then fun _ _ => hr.block.then fun _ _ =>
    (blind_elifLoop hr r.turns).then fun _ _ =>
    blind_match .kwElse (hr.block.then fun _ _ => blind_pure _ _) (blind_pure _ _)

theorem blind_parseReturn (hr : r.Blind) (line line' : ℕ) :
    Blind (parseReturn r line) (parseReturn r line') :=
  blind_match .semi (blind_pure _ _)
    ((blind_parseAssignment hr).then fun _ _ => (blind_expect _ _).then fun _ _ => blind_pure _ _)

theorem blind_parseLoopWhile (hr : r.Blind) (line line' : ℕ) :
    Blind (parseLoopWhile r line) (parseLoopWhile r line') :=
  (blind_parseCondition hr _ _).then fun _ _ => hr.block.then fun _ _ => blind_pure _ _

theorem blind_parseDoWhile (hr : r.Blind) (line line' : ℕ) :
    Blind (parseDoWhile r line) (parseDoWhile r line') :=
  (blind_expect _ _).then fun _ _ => hr.block.then fun _ _ => (blind_expect _ _).then fun _ _ =>
    (blind_parseCondition hr _ _).then fun _ _ => (blind_expect _ _).then fun _ _ => blind_pure _ _

theorem blind_parseForIn (hr : r.Blind) (line line' : ℕ) :
    Blind (parseForIn r line) (parseForIn r line') := by
  have hcond : Blind (parseForCondition r) (parseForCondition r) :=
    blind_match .comma ((blind_parseAssignment hr).then fun _ _ => blind_pure _ _) (blind_pure _ _)
  exact (blind_expect _ _).then fun _ _ => blind_cur fun _ => (blind_expect _ _).then fun _ _ =>
    (blind_expect _ _).then fun _ _ => (blind_parseAssignment hr).then fun _ _ =>
    hcond.then fun _ _ => (blind_expect _ _).then fun _ _ => hr.block.then fun _ _ => blind_pure _ _

theorem blind_parseIterate (hr : r.Blind) (line line' : ℕ) :
    Blind (parseIterate r line) (parseIterate r line') :=
  (blind_expect _ _).then fun _ _ => (blind_parseAssignment hr).then fun _ _ =>
    (blind_expect _ _).then fun _ _ => blind_cur fun _ => (blind_expect _ _).then fun _ _ =>
    (blind_expect _ _).then fun _ _ => hr.block.then fun _ _ => blind_pure _ _

theorem blind_parseClassMember (hr : r.Blind) :
    Blind (parseClassMember r) (parseClassMember r) := by
  refine blind_match .kwVar (blind_parseVarOrFixed hr _).map ?_
  refine blind_match .kwFixed (blind_parseVarOrFixed hr _).map ?_
  refine blind_match .kwFun (blind_parseFunDecl hr _).map ?_
  exact blind_cur fun _ => (blind_errorAt _ _ _).then fun _ _ => blind_advance.then fun _ _ =>
    blind_pure _ _

theorem blind_parseClass (hr : r.Blind) (line line' : ℕ) :
    Blind (parseClass r line) (parseClass r line') := by
  have hvis : Blind parseVisibility parseVisibility :=
    blind_match .kwPublic (blind_pure _ _) (blind_match .kwPrivate (blind_pure _ _) (blind_pure _ _))
  have hparent : Blind parseParentName parseParentName :=
    blind_match .kwExtends
      (blind_cur fun _ => (blind_expect _ _).then fun _ _ => blind_pure _ _) (blind_pure _ _)
  exact hvis.then fun _ _ => (blind_expect _ _).then fun _ _ => blind_cur fun _ =>
    (blind_expect _ _).then fun _ _ => hparent.then fun _ _ => (blind_expect _ _).then fun _ _ =>
    (blind_untilBrace (blind_parseClassMember hr) r.turns).then fun _ _ =>
    (blind_expect _ _).then fun _ _ => blind_pure _ _

theorem blind_parseEnum (line line' : ℕ) : Blind (parseEnum r line) (parseEnum r line') := by
  have hvalue : Blind parseEnumValue parseEnumValue :=
    blind_cur fun _ => (blind_expect _ _).then fun _ _ => blind_pure _ _
  exact blind_cur fun _ => (blind_expect _ _).then fun _ _ => (blind_expect _ _).then fun _ _ =>
    (blind_listUntil hvalue).then fun _ _ => (blind_expect _ _).then fun _ _ => blind_pure _ _

theorem blind_parseStruct (hr : r.Blind) (line line' : ℕ) :
    Blind (parseStruct r line) (parseStruct r line') := by
  have hfield : Blind (parseField r) (parseField r) :=
    blind_cur fun _ => (blind_expect _ _).then fun _ _ => (blind_expect _ _).then fun _ _ =>
      (blind_parseType hr).then fun _ _ => (blind_expect _ _).then fun _ _ => blind_pure _ _
  exact blind_cur fun _ => (blind_expect _ _).then fun _ _ => (blind_expect _ _).then fun _ _ =>
    (blind_untilBrace hfield r.turns).then fun _ _ => (blind_expect _ _).then fun _ _ =>
    blind_pure _ _

theorem blind_parseVector (hr : r.Blind) (line line' : ℕ) :
    Blind (parseVector r line) (parseVector r line') :=
  (blind_parseType hr).then fun _ _ => blind_cur fun _ => (blind_expect _ _).then fun _ _ =>
    blind_initialiser hr _

/-- The name of an import is compared, but it is an identifier. -/
theorem blind_parseImport (line line' : ℕ) : Blind (parseImport line) (parseImport line') := by
  have hpath : Blind (parseImportPath line) (parseImportPath line') :=
    blind_cur fun _ => (blind_expect _ _).then fun _ _ => (blind_expect _ _).then fun _ _ =>
      blind_pure _ _
  have hident : ∀ (t : Token) (p : Text → Prop),
      t.type = .ident ∧ p t.lexeme ↔ t.blank.type = .ident ∧ p t.blank.lexeme := by
    intro t p
    by_cases h : t.type = .ident
    · rw [Token.blank_of_ne (by rw [h]; decide)]
    · rw [Token.blank_type]
      exact ⟨fun h' => absurd h'.1 h, fun h' => absurd h'.1 h⟩
  refine blind_cur fun nm => tracks_ite (hident nm fun s => s.length = 4 ∧ s ≠ txt "from") ?_ hpath
  refine blind_advance.then fun _ _ => blind_cur fun t =>
    tracks_ite (hident t fun s => s = txt "from") ?_ ?_
  · exact blind_advance.then fun _ _ => hpath
  · exact (blind_errorAt _ _ _).then fun _ _ => hpath

theorem blind_parseExport (line line' : ℕ) : Blind (parseExport line) (parseExport line') :=
  blind_cur fun _ => (blind_expect _ _).then fun _ _ => (blind_expect _ _).then fun _ _ =>
    blind_pure _ _

theorem blind_parseTry (hr : r.Blind) (line line' : ℕ) :
    Blind (parseTry r line) (parseTry r line') := by
  have htype : Blind (parseCatchType r) (parseCatchType r) :=
    blind_match .colon ((blind_parseType hr).then fun _ _ => blind_pure _ _) (blind_pure _ _)
  exact hr.block.then fun _ _ => (blind_expect _ _).then fun _ _ => (blind_expect _ _).then fun _ _ =>
    blind_cur fun _ => (blind_expect _ _).then fun _ _ => htype.then fun _ _ =>
    (blind_expect _ _).then fun _ _ => hr.block.then fun _ _ => blind_pure _ _

theorem blind_parseExprStmt (hr : r.Blind) (line line' : ℕ) :
    Blind (parseExprStmt r line) (parseExprStmt r line') :=
  (blind_parseAssignment hr).then fun _ _ => (blind_expect _ _).then fun _ _ => blind_pure _ _

theorem blind_parseStatement (hr : r.Blind) : Blind (parseStatement r) (parseStatement r) := by
  refine blind_cur fun t => ?_
  refine blind_match .kwVar (blind_parseVarOrFixed hr _) ?_
  refine blind_match .kwFixed (blind_parseVarOrFixed hr _) ?_
  refine blind_match .kwIf (blind_parseIf hr) ?_
  refine blind_match .kwAsync ((blind_expect _ _).then fun _ _ => blind_parseFunDecl hr _) ?_
  refine blind_match .kwFun (blind_parseFunDecl hr _) ?_
  refine blind_match .kwReturn (blind_parseReturn hr _ _) ?_
  refine blind_match .kwLoop (blind_parseLoopWhile hr _ _) ?_
  refine blind_match .kwDo (blind_parseDoWhile hr _ _) ?_
  refine blind_match .kwFor (blind_parseForIn hr _ _) ?_
  refine blind_match .kwIterate (blind_parseIterate hr _ _) ?_
  refine tracks_ite (by rw [Token.blank_type]) (blind_parseClass hr _ _) ?_
  refine blind_match .typeEnum (blind_parseEnum _ _) ?_
  refine blind_match .typeStruct (blind_parseStruct hr _ _) ?_
  refine tracks_ite (by rw [Token.blank_type]) (blind_parseVector hr _ _) ?_
  refine blind_match .kwImport (blind_parseImport _ _) ?_
  refine blind_match .kwExport (blind_parseExport _ _) ?_
  refine blind_match .kwTry (blind_parseTry hr _ _) ?_
  exact tracks_bool (tracks_check .lbrace) hr.block (blind_parseExprStmt hr _ _)

theorem blind_parseBlock (hr : r.Blind) : Blind (parseBlock r) (parseBlock r) :=
  blind_cur fun _ => (blind_expect _ _).then fun _ _ =>
    (blind_untilBrace (blind_parseStatement hr).map r.turns).then fun _ _ =>
    (blind_expect _ _).then fun _ _ => blind_pure _ _

theorem recAt_blind (n : ℕ) : (recAt n).Blind := by
  induction n with
  | zero =>
    exact ⟨blind_outOfDepth, blind_outOfDepth, blind_outOfDepth, blind_outOfDepth, blind_outOfDepth⟩
  | succ n ih =>
    exact ⟨blind_parseType ih, blind_parseAssignment ih, blind_parseUnary ih, blind_parsePower ih,
      blind_parseBlock ih⟩

/-- **The parser cannot tell** what is in a string literal. -/
theorem blind_programLoop (hr : r.Blind) (k : ℕ) : Blind (programLoop r k) (programLoop r k) := by
  induction k with
  | zero => exact blind_outOfDepth
  | succ k ih =>
    refine tracks_bool (tracks_check .eof) (blind_pure _ _) ?_
    refine (blind_parseStatement hr).then fun _ _ => ?_
    exact tracks_bool tracks_hadError (blind_pure _ _) (ih.then fun _ _ => blind_pure _ _)

end Statements

/-! ### Holes -/

/-- The text is not exactly one expression: the sub-parser reports an error, or there are tokens
behind the expression. -/
def NestedParse.Broken (p : NestedParse) : Prop := p.errors ≠ [] ∨ p.left ≠ 0

instance (p : NestedParse) : Decidable p.Broken :=
  decidable_of_iff (p.errors.isEmpty = false ∨ p.left ≠ 0) (by
    rw [NestedParse.Broken, ← List.isEmpty_eq_false_iff])

/-- The holes of all string literals of a source, and of those in their holes. -/
def holes (n : ℕ) (source : Text) : List NestedParse :=
  ((runProgram n source).map fun x => x.2.nested).getD []

/-- `parse_program` reports an error if a hole is broken. -/
def ReportsHoles (n : ℕ) (source : Text) : Prop :=
  (∃ p ∈ holes n source, p.Broken) → ∃ res, parseProgram n source = some res ∧ res.hadError = true

/-- There is an error in the source even with all string literals empty. -/
def errorOutside (n : ℕ) (source : Text) : Bool :=
  let s := initParser source
  (programLoop (recAt n) (n + 1) { s with toks := s.toks.map Token.blank }).any fun x => x.2.hadError

/-- The flag is that of the source without the text of its literals. -/
theorem hadError_eq {n : ℕ} {source : Text} {stmts : List Stmt} {s : PState}
    (h : runProgram n source = some (stmts, s)) : s.hadError = errorOutside n source := by
  obtain ⟨stmts', s', hrun, hs, -⟩ := blind_programLoop (recAt_blind n) (n + 1) (initParser source)
    { initParser source with toks := (initParser source).toks.map Token.blank } ⟨rfl, rfl, rfl⟩
    stmts s h
  unfold errorOutside
  dsimp only
  rw [hrun, Option.any_some, hs.hadError]

/-- **When broken holes are reported.** To any depth above the length of the source the parser
returns. -/
theorem reportsHoles_iff (n : ℕ) (source : Text) :
    (source.length < n → ∃ res, parseProgram n source = some res) ∧
      (ReportsHoles n source ↔
        (∀ p ∈ holes n source, ¬ p.Broken) ∨ errorOutside n source = true) := by
  refine ⟨fun hn => ?_, ?_⟩
  · have hweight : (initParser source).weight < min n (n + 1) := by
      have := initParser_weight source
      omega
    obtain ⟨stmts, s, hrun, -⟩ :=
      (within_programLoop (recAt_upto n) (n + 1) (initParser source)).exists_eq hweight
    exact ⟨_, congrArg (Option.map _) hrun⟩
  · cases hrun : runProgram n source with
    | none =>
      have hholes : holes n source = [] := by rw [holes, hrun]; rfl
      unfold ReportsHoles
      rw [hholes]
      exact ⟨fun _ => .inl fun p hp => absurd hp List.not_mem_nil,
        fun _ ⟨p, hp, _⟩ => absurd hp List.not_mem_nil⟩
    | some x =>
      obtain ⟨stmts, s⟩ := x
      have hparse : parseProgram n source = some ⟨stmts, s.hadError⟩ := by
        rw [parseProgram, hrun]
        rfl
      have herror := hadError_eq hrun
      constructor
      · intro h
        by_cases hbroken : ∃ p ∈ holes n source, p.Broken
        · obtain ⟨res, hres, hflag⟩ := h hbroken
          obtain rfl := Option.some.inj (hparse.symm.trans hres)
          exact .inr (herror.symm.trans hflag)
        · exact .inl fun p hp hp' => hbroken ⟨p, hp, hp'⟩
      · rintro (hwhole | houtside) ⟨p, hp, hbroken⟩
        · exact absurd hbroken (hwhole p hp)
        · exact ⟨_, hparse, herror.trans houtside⟩

/-- **`print("{{1 +}}");`** is parsed, and the error of its hole is not reported. -/
theorem broken_hole_unreported : ¬ ∀ (n : ℕ) (source : Text), source.length < n →
    ReportsHoles n source := by
  intro h
  have hreports := h 40 (txt "print(\"\x7b\x7b1 +\x7d\x7d\");") (by decide +kernel)
  have hbroken : ∃ p ∈ holes 40 (txt "print(\"\x7b\x7b1 +\x7d\x7d\");"), p.Broken := by
    decide +kernel
  obtain ⟨res, hres, hflag⟩ := hreports hbroken
  have hunreported : (parseProgram 40 (txt "print(\"\x7b\x7b1 +\x7d\x7d\");")).map (·.hadError)
      = some false := by decide +kernel
  rw [hres, Option.map_some, hflag] at hunreported
  cases hunreported

end Jaguar
