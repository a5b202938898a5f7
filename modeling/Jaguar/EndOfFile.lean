/-
The line of the end of the file is not in the program.

The parser's last token, EOF, carries a line number of its own. Every function that takes a line
from the current token goes on to demand a token of some other kind there, so at the end of the file
it reports an error. The tree of a program without errors is made of the lines of its tokens only.

* `SameToks` — states with the same tokens ahead, where the file may end in different lines;
* `Rejects` — a function that reports an error at the end of the file;
* `eofBlind_parsePrimary` … `eofBlind_programLoop` — **every parsing function**;
* `runProgram_of_toks` — **a program without errors depends on its tokens only**.
-/
import Jaguar.Parser
import Jaguar.TwoRuns

namespace Jaguar

/-! ### States and rules -/

def PState.Clean (s : PState) : Prop := s.errors = []

/-- States with the same tokens ahead and the same nested parses behind, the second of them
without errors. -/
structure SameToks (s s' : PState) : Prop where
  toks : s'.toks = s.toks
  nested : s'.nested.map NestedParse.report = s.nested.map NestedParse.report
  clean : s'.Clean

abbrev EofBlind {α : Type} (m : P α) : Prop := Settles PState.Clean SameToks m

/-- At the end of the file, `m` reports an error. -/
def Rejects {α : Type} (m : P α) : Prop :=
  ∀ s a t, s.toks = [] → m s = some (a, t) → ¬ t.Clean

/-- What `m` leaves is never free of errors. -/
def Diagnoses {α : Type} (m : P α) : Prop := ∀ s a t, m s = some (a, t) → ¬ t.Clean

section Rules

variable {α β : Type} {m n : P α} {f : α → P β}

theorem Diagnoses.blind (h : Diagnoses m) : EofBlind m := settles_of_bad h

theorem Diagnoses.rejects (h : Diagnoses m) : Rejects m := fun s a t _ hrun => h s a t hrun

theorem p_bind_eq (m : P α) (f : α → P β) (s : PState) :
    (m >>= f) s = (m s).bind fun x => f x.1 x.2 := rfl

theorem Diagnoses.bind (hm : Diagnoses m) (hf : ∀ a, EofBlind (f a)) : Diagnoses (m >>= f) := by
  intro s b t hrun hclean
  rw [p_bind_eq] at hrun
  obtain ⟨⟨a, s₁⟩, hfirst, hrest⟩ := Option.bind_eq_some_iff.mp hrun
  exact hm s a s₁ hfirst (hf a s₁ b t hrest hclean).1

theorem Rejects.bind (hm : Rejects m) (hf : ∀ a, EofBlind (f a)) : Rejects (m >>= f) := by
  intro s b t htoks hrun hclean
  rw [p_bind_eq] at hrun
  obtain ⟨⟨a, s₁⟩, hfirst, hrest⟩ := Option.bind_eq_some_iff.mp hrun
  exact hm s a s₁ htoks hfirst (hf a s₁ b t hrest hclean).1

theorem eofBlind_outOfDepth : EofBlind (outOfDepth : P α) := settles_of_none fun _ => rfl

theorem cur_of_nil {s : PState} (h : s.toks = []) : s.cur = ⟨.eof, [], s.eofLine⟩ := by
  rw [PState.cur, h, List.headD_nil]

theorem SameToks.cur {s s' : PState} (h : SameToks s s') (hs : s.toks ≠ []) : s'.cur = s.cur := by
  obtain ⟨t, ts, htoks⟩ := List.exists_cons_of_ne_nil hs
  rw [PState.cur, PState.cur, h.toks, htoks, List.headD_cons, List.headD_cons]

theorem SameToks.cur_type {s s' : PState} (h : SameToks s s') : s'.cur.type = s.cur.type := by
  by_cases hs : s.toks = []
  · rw [cur_of_nil hs, cur_of_nil (h.toks.trans hs)]
  · rw [h.cur hs]

theorem rejects_cur {k : Token → P β} (h : ∀ line, Rejects (k ⟨.eof, [], line⟩)) :
    Rejects (cur >>= k) := by
  intro s b t hnil hrun
  have hrun' : k s.cur s = some (b, t) := hrun
  rw [cur_of_nil hnil] at hrun'
  exact h s.eofLine s b t hnil hrun'

/-- At the end of the file, the current token is used to report an error. -/
theorem eofBlind_cur {k : Token → P β} (hk : ∀ t, EofBlind (k t)) (heof : Rejects (cur >>= k)) :
    EofBlind (cur >>= k) := by
  intro s b t hrun hclean
  obtain ⟨hgood, hsame⟩ := hk s.cur s b t hrun hclean
  refine ⟨hgood, fun s' hs' => ?_⟩
  by_cases hnil : s.toks = []
  · exact absurd hclean (heof s b t hnil hrun)
  · obtain ⟨t', ht', hsame'⟩ := hsame s' hs'
    refine ⟨t', ?_, hsame'⟩
    rw [← hs'.cur hnil] at ht'
    exact ht'

/-- At the end of the file, the line of the current token is not used. -/
theorem eofBlind_cur_any {k : Token → P β} (hk : ∀ t, EofBlind (k t))
    (heof : ∀ line line', k ⟨.eof, [], line⟩ = k ⟨.eof, [], line'⟩) : EofBlind (cur >>= k) := by
  intro s b t hrun hclean
  have hrun' : k s.cur s = some (b, t) := hrun
  obtain ⟨hgood, hsame⟩ := hk s.cur s b t hrun' hclean
  refine ⟨hgood, fun s' hs' => ?_⟩
  obtain ⟨t', ht', hsame'⟩ := hsame s' hs'
  refine ⟨t', ?_, hsame'⟩
  have hcur : k s'.cur = k s.cur := by
    by_cases hnil : s.toks = []
    · rw [cur_of_nil hnil, cur_of_nil (hs'.toks.trans hnil)]
      exact heof _ _
    · rw [hs'.cur hnil]
  rw [← hcur] at ht'
  exact ht'

/-! ### Single tokens -/

theorem eofBlind_check (t : TokenType) : EofBlind (check t) := by
  intro s b u hrun hclean
  obtain ⟨rfl, rfl⟩ := Prod.mk.inj (Option.some.inj hrun)
  refine ⟨hclean, fun s' hs' => ⟨s', ?_, hs'⟩⟩
  rw [← hs'.cur_type]
  rfl

theorem eofBlind_hadError : EofBlind hadError := by
  intro s b u hrun hclean
  obtain ⟨rfl, rfl⟩ := Prod.mk.inj (Option.some.inj hrun)
  have hclean' : s.errors = [] := hclean
  refine ⟨hclean, fun s' hs' => ⟨s', ?_, hs'⟩⟩
  have hother : s'.errors = [] := hs'.clean
  rw [hadError, PState.hadError, PState.hadError, hclean', hother]

theorem eofBlind_advance : EofBlind advance := by
  intro s b u hrun hclean
  obtain ⟨rfl, rfl⟩ := Prod.mk.inj (Option.some.inj hrun)
  exact ⟨hclean, fun s' hs' => ⟨_, rfl, congrArg List.tail hs'.toks, hs'.nested, hs'.clean⟩⟩

theorem diagnoses_errorAt (t : Token) (msg : String) : Diagnoses (errorAt t msg) := by
  intro s b u hrun hclean
  obtain ⟨rfl, rfl⟩ := Prod.mk.inj (Option.some.inj hrun)
  exact List.append_ne_nil_of_right_ne_nil _ (List.cons_ne_nil _ _) hclean

theorem eofBlind_bool {b : P Bool} (hb : EofBlind b) (hm : EofBlind m) (hn : EofBlind n) :
    EofBlind (b >>= fun c => if c then m else n) :=
  hb.bind fun _ => settles_ite hm hn

theorem diagnoses_recover (t : Token) (msg : String) : Diagnoses (recover t msg) :=
  (diagnoses_errorAt t msg).bind fun _ =>
    eofBlind_bool (eofBlind_check .eof) settles_pure eofBlind_advance

theorem eofBlind_matchT (t : TokenType) : EofBlind (matchT t) :=
  eofBlind_bool (eofBlind_check t) (eofBlind_advance.bind fun _ => settles_pure) settles_pure

theorem eofBlind_match (t : TokenType) (hm : EofBlind m) (hn : EofBlind n) :
    EofBlind (matchT t >>= fun b => if b then m else n) :=
  eofBlind_bool (eofBlind_matchT t) hm hn

theorem rejects_check {t : TokenType} (ht : t ≠ .eof) (hn : Rejects n) :
    Rejects (check t >>= fun b => if b then m else n) := by
  intro s a u hnil hrun
  have hcheck : check t s = some (false, s) := by
    rw [check, cur_of_nil hnil, decide_eq_false ht.symm]
  rw [p_bind_eq, hcheck] at hrun
  exact hn s a u hnil hrun

theorem rejects_match {t : TokenType} (ht : t ≠ .eof) (hn : Rejects n) :
    Rejects (matchT t >>= fun b => if b then m else n) := by
  intro s a u hnil hrun
  have hmatch : matchT t s = some (false, s) := by
    have hcheck : check t s = some (false, s) := by
      rw [check, cur_of_nil hnil, decide_eq_false ht.symm]
    rw [matchT, p_bind_eq, hcheck]
    rfl
  rw [p_bind_eq, hmatch] at hrun
  exact hn s a u hnil hrun

theorem rejects_expect {t : TokenType} (ht : t ≠ .eof) (what : String) :
    Rejects (expect t what) := by
  refine rejects_cur fun line => ?_
  rw [if_neg ht.symm]
  exact (diagnoses_recover _ _).rejects

theorem eofBlind_expect (t : TokenType) (what : String) : EofBlind (expect t what) := by
  have hk : ∀ c : Token, EofBlind (if c.type = t then advance else recover c what) := fun c =>
    settles_ite eofBlind_advance (diagnoses_recover c what).blind
  by_cases ht : t = .eof
  · refine eofBlind_cur_any hk fun line line' => ?_
    rw [if_pos ht.symm, if_pos ht.symm]
  · exact eofBlind_cur hk (rejects_expect ht what)

/-- What is expected before `m`. -/
theorem Settles.expect (h : EofBlind m) {t : TokenType} (what : String) :
    EofBlind (Jaguar.expect t what >>= fun _ => m) :=
  (eofBlind_expect t what).bind fun _ => h

/-- What is expected before `m` is not at the end of the file. -/
theorem rejects_expectThen (h : EofBlind m) {t : TokenType} (ht : t ≠ .eof) (what : String) :
    Rejects (Jaguar.expect t what >>= fun _ => m) :=
  (rejects_expect ht what).bind fun _ => h

/-- A name, and what follows it. -/
theorem eofBlind_named {k : Token → P α} (what : String) (hk : ∀ nm, EofBlind (k nm)) :
    EofBlind (cur >>= fun nm => expect .ident what >>= fun _ => k nm) :=
  eofBlind_cur (fun nm => (hk nm).expect _)
    (rejects_cur fun _ => rejects_expectThen (hk _) (by decide) _)

end Rules

/-! ### Loops -/

section Loops

variable {α : Type} {r : Rec}

theorem eofBlind_commaList {item : P α} (h : EofBlind item) (k : ℕ) : EofBlind (commaList item k) := by
  induction k with
  | zero => exact eofBlind_outOfDepth
  | succ k ih =>
    exact h.bind fun _ => eofBlind_match .comma (ih.bind fun _ => settles_pure) settles_pure

theorem eofBlind_listUntil {close : TokenType} {item : P α} (h : EofBlind item) :
    EofBlind (listUntil r close item) :=
  eofBlind_bool (eofBlind_check close) settles_pure (eofBlind_commaList h r.turns)

theorem eofBlind_untilBrace {item : P (Option α)} (h : EofBlind item) (k : ℕ) :
    EofBlind (untilBrace item k) := by
  induction k with
  | zero => exact eofBlind_outOfDepth
  | succ k ih =>
    refine (eofBlind_check .rbrace).bind fun _ => (eofBlind_check .eof).bind fun _ => ?_
    exact settles_ite settles_pure (h.bind fun _ => ih.bind fun _ => settles_pure)

theorem eofBlind_binaryLoop {ops : List TokenType} (hops : .eof ∉ ops) {operand : P Expr}
    (h : EofBlind operand) (line : Token → Expr → ℕ) (k : ℕ) (left : Expr) :
    EofBlind (binaryLoop ops operand line k left) := by
  induction k generalizing left with
  | zero => exact eofBlind_outOfDepth
  | succ k ih =>
    refine eofBlind_cur_any (fun op => settles_ite ?_ settles_pure) fun l l' => ?_
    · exact eofBlind_advance.bind fun _ => h.bind fun right => ih _
    · rw [if_neg hops, if_neg hops]

end Loops

/-! ### Types and string literals -/

/-- The functions that are called back into. -/
structure Rec.EofSafe (r : Rec) : Prop where
  type : EofBlind r.type
  assignment : EofBlind r.assignment
  unary : EofBlind r.unary
  power : EofBlind r.power
  block : EofBlind r.block

section Literals

variable {r : Rec}

theorem diagnoses_notAType (t : Token) :
    Diagnoses (errorAt t "expected a type" >>= fun _ => advance >>= fun _ =>
      (pure (.new .unknown) : P TypeInfo)) :=
  (diagnoses_errorAt t _).bind fun _ => eofBlind_advance.bind fun _ => settles_pure

theorem eofBlind_parseType (hr : r.EofSafe) : EofBlind (parseType r) := by
  refine eofBlind_cur (fun t => ?_) (rejects_cur fun line => ?_)
  · cases typeKeyword t.type with
    | some kind =>
      refine eofBlind_advance.bind fun _ => eofBlind_match .lt ?_ settles_pure
      exact hr.type.bind fun elem => settles_pure.expect _
    | none => exact eofBlind_match .ident settles_pure (diagnoses_notAType t).blind
  · exact rejects_match (by decide) (diagnoses_notAType _).rejects

theorem eofBlind_parseTypeAnnotation (hr : r.EofSafe) (default : JagType) :
    EofBlind ( parseTypeAnnotation r default) :=
  eofBlind_match .colon (eofBlind_parseType hr) settles_pure

/-- The parser of a hole starts on its text, wherever the string literal stands. -/
theorem eofBlind_parseExprSubstring (text : Text) (line : ℕ) :
    EofBlind (parseExprSubstring r text line) := by
  intro s e t hrun hclean
  unfold parseExprSubstring at hrun ⊢
  cases hsub : r.assignment (initParser text) with
  | none =>
    rw [hsub] at hrun
    cases hrun
  | some x =>
    rw [hsub] at hrun
    obtain ⟨rfl, rfl⟩ := Prod.mk.inj (Option.some.inj hrun)
    refine ⟨hclean, fun s' hs' => ⟨_, rfl, hs'.toks, ?_, hs'.clean⟩⟩
    simp only [List.map_append, List.map_cons, List.map_nil, hs'.nested, NestedParse.report]

theorem eofBlind_parseParts (line : ℕ) (raw : List RawPart) : EofBlind (parseParts r line raw) := by
  induction raw with
  | nil => exact settles_pure
  | cons p raw ih =>
    cases p with
    | literal lit => exact ih.bind fun _ => settles_pure
    | expr text =>
      exact (eofBlind_parseExprSubstring text line).bind fun _ => ih.bind fun _ => settles_pure

theorem eofBlind_parseStringLiteralToken (t : Token) : EofBlind (parseStringLiteralToken r t) :=
  (eofBlind_parseParts t.line _).bind fun _ => settles_pure

end Literals

/-! ### Expressions -/

section Expressions

variable {r : Rec}

theorem eofBlind_parseParam (hr : r.EofSafe) : EofBlind (parseParam r) :=
  eofBlind_named _ fun _ => ( eofBlind_parseTypeAnnotation hr _).bind fun _ => settles_pure

theorem eofBlind_expectFun (isAsync : Bool) : EofBlind (expectFun isAsync) :=
  settles_ite (eofBlind_expect _ _) settles_pure

theorem eofBlind_parseFuncLit (hr : r.EofSafe) (t : Token) (isAsync : Bool) :
    EofBlind (parseFuncLit r t isAsync) := by
  refine (eofBlind_expectFun isAsync).bind fun _ => Settles.expect ?_ _
  refine (eofBlind_listUntil (eofBlind_parseParam hr)).bind fun params => Settles.expect ?_ _
  exact ( eofBlind_parseTypeAnnotation hr _).bind fun ret => hr.block.bind fun body => settles_pure

theorem eofBlind_parseArgList (hr : r.EofSafe) : EofBlind (parseArgList r) :=
  eofBlind_listUntil hr.assignment

theorem eofBlind_parseNew (hr : r.EofSafe) (t : Token) : EofBlind (parseNew r t) := by
  refine eofBlind_named _ fun nm => Settles.expect ?_ _
  exact (eofBlind_parseArgList hr).bind fun args => settles_pure.expect _

theorem eofBlind_expectKey : EofBlind expectKey :=
  eofBlind_match .stringLit settles_pure (eofBlind_expect _ _)

theorem rejects_expectKey : Rejects expectKey :=
  rejects_match (by decide) (rejects_expect (by decide) _)

theorem eofBlind_parseDataEntry (hr : r.EofSafe) : EofBlind (parseDataEntry r) := by
  have hrest : ∀ key : Text, EofBlind (expect .colon "expected ':' after key" >>= fun _ =>
      r.assignment >>= fun value => (pure (key, value) : P (Text × Expr))) :=
    fun key => (hr.assignment.bind fun value => settles_pure).expect _
  exact eofBlind_cur (fun key => eofBlind_expectKey.bind fun _ => hrest key.lexeme)
    (rejects_cur fun line => rejects_expectKey.bind fun _ => hrest [])

theorem diagnoses_noExpression (t : Token) :
    Diagnoses (recover t "expected an expression" >>= fun _ =>
      (pure (.bool t.line false) : P Expr)) :=
  (diagnoses_recover t _).bind fun _ => settles_pure

/-- An operand, which is demanded at the end of the file too. -/
structure Demands (m : P Expr) : Prop where
  blind : EofBlind m
  rejects : Rejects m

theorem Demands.then {operand : P Expr} (h : Demands operand) {f : Expr → P Expr}
    (hf : ∀ left, EofBlind (f left)) : Demands (operand >>= f) :=
  ⟨h.blind.bind hf, h.rejects.bind hf⟩

theorem Demands.level {operand : P Expr} (h : Demands operand) {ops : List TokenType}
    (hops : .eof ∉ ops) (line : Token → Expr → ℕ) : Demands (parseLevel r ops operand line) :=
  h.then fun left => eofBlind_binaryLoop hops h.blind line r.turns left

theorem rejects_parsePrimary : Rejects (parsePrimary r) := by
  refine rejects_cur fun line => ?_
  iterate 17 refine rejects_match (by decide) ?_
  exact (diagnoses_noExpression _).rejects

theorem demands_parsePrimary (hr : r.EofSafe) : Demands (parsePrimary r) := by
  refine ⟨eofBlind_cur (fun t => ?_) rejects_parsePrimary, rejects_parsePrimary⟩
  refine eofBlind_match .numLit settles_pure ?_
  refine eofBlind_match .decimalLit settles_pure ?_
  refine eofBlind_match .scifiLit settles_pure ?_
  refine eofBlind_match .kwTrue settles_pure ?_
  refine eofBlind_match .kwFalse settles_pure ?_
  refine eofBlind_match .stringLit (eofBlind_parseStringLiteralToken t) ?_
  refine eofBlind_match .ident settles_pure ?_
  refine eofBlind_match .typeTask settles_pure ?_
  refine eofBlind_match .kwThis settles_pure ?_
  refine eofBlind_match .kwSuper settles_pure ?_
  refine eofBlind_match .kwNew (eofBlind_parseNew hr t) ?_
  refine eofBlind_match .kwAwait (hr.assignment.bind fun _ => settles_pure) ?_
  refine eofBlind_match .kwFun ((eofBlind_matchT .kwAsync).bind fun b =>
    eofBlind_parseFuncLit hr t b) ?_
  refine eofBlind_match .kwAsync (eofBlind_parseFuncLit hr t true) ?_
  refine eofBlind_match .lparen (hr.assignment.bind fun _ => settles_pure.expect _) ?_
  refine eofBlind_match .lbracket
    ((eofBlind_listUntil hr.assignment).bind fun _ => settles_pure.expect _) ?_
  refine eofBlind_match .lbrace
    ((eofBlind_listUntil (eofBlind_parseDataEntry hr)).bind fun _ => settles_pure.expect _) ?_
  exact (diagnoses_noExpression t).blind

theorem eofBlind_parseCallArgs (hr : r.EofSafe) : EofBlind (parseCallArgs r) :=
  (eofBlind_parseArgList hr).bind fun _ => settles_pure.expect _

theorem eofBlind_parseMemberName : EofBlind parseMemberName := by
  refine eofBlind_cur (fun nm => ?_) (rejects_cur fun line => ?_)
  · exact (settles_ite eofBlind_advance (eofBlind_expect _ _)).bind fun _ => settles_pure
  · exact (show Rejects (expectMemberName ⟨.eof, [], line⟩) from rejects_expect (by decide) _).bind
      fun _ => settles_pure

theorem eofBlind_postfixLoop (hr : r.EofSafe) (k : ℕ) (e : Expr) :
    EofBlind (postfixLoop r k e) := by
  induction k generalizing e with
  | zero => exact eofBlind_outOfDepth
  | succ k ih =>
    refine eofBlind_match .dot ?_ (eofBlind_match .lbracket ?_ (eofBlind_match .lparen ?_ settles_pure))
    · refine eofBlind_parseMemberName.bind fun name => eofBlind_match .lparen ?_ (ih _)
      exact (eofBlind_parseCallArgs hr).bind fun args => ih _
    · exact hr.assignment.bind fun idx => (ih _).expect _
    · exact (eofBlind_parseCallArgs hr).bind fun args => ih _

theorem demands_parsePostfix (hr : r.EofSafe) : Demands (parsePostfix r) :=
  (demands_parsePrimary hr).then fun e => eofBlind_postfixLoop hr r.turns e

theorem demands_parseUnary (hr : r.EofSafe) : Demands (parseUnary r) := by
  have hpostfix := demands_parsePostfix hr
  have heof : .eof ∉ [TokenType.not, TokenType.minus] := by decide
  constructor
  · refine eofBlind_cur_any (fun op => settles_ite ?_ hpostfix.blind) fun l l' => ?_
    · exact eofBlind_advance.bind fun _ => hr.unary.bind fun _ => settles_pure
    · rw [if_neg heof, if_neg heof]
  · refine rejects_cur fun line => ?_
    rw [if_neg heof]
    exact hpostfix.rejects

theorem demands_parsePower (hr : r.EofSafe) : Demands (parsePower r) :=
  (demands_parseUnary hr).then fun _ =>
    eofBlind_match .pow (hr.power.bind fun _ => settles_pure) settles_pure

theorem demands_parseShift (hr : r.EofSafe) : Demands (parseShift r) :=
  (((demands_parsePower hr).level (by decide) _).level (by decide) _).level (by decide) _

theorem demands_parseBetween (hr : r.EofSafe) : Demands (parseBetween r) := by
  refine (demands_parseShift hr).then fun left => eofBlind_match .between ?_ settles_pure
  refine Settles.expect (hr.assignment.bind fun low => Settles.expect ?_ _) _
  exact hr.assignment.bind fun high => settles_pure.expect _

theorem demands_parseOr (hr : r.EofSafe) : Demands (parseOr r) :=
  have hcomparison := (demands_parseBetween hr).level (by decide) _
  have hequality := hcomparison.level (by decide) _
  (hequality.level (by decide) _).level (by decide) _

theorem demands_parseTernary (hr : r.EofSafe) : Demands (parseTernary r) := by
  refine (demands_parseOr hr).then fun cond => eofBlind_match .question ?_ settles_pure
  refine hr.assignment.bind fun thenE => Settles.expect ?_ _
  exact hr.assignment.bind fun elseE => settles_pure

theorem demands_parseAssignment (hr : r.EofSafe) : Demands (parseAssignment r) := by
  refine (demands_parseTernary hr).then fun left => ?_
  refine eofBlind_cur_any (fun op => settles_ite ?_ settles_pure) fun l l' => ?_
  · exact eofBlind_advance.bind fun _ => hr.assignment.bind fun _ => settles_pure
  · rfl

theorem eofBlind_parseExpr (hr : r.EofSafe) : EofBlind (parseExpr r) :=
  (demands_parseAssignment hr).blind

end Expressions

/-! ### Statements -/

section Statements

variable {r : Rec}

theorem eofBlind_parseCondition (hr : r.EofSafe) (opening closing : String) :
    EofBlind (parseCondition r opening closing) :=
  ((eofBlind_parseExpr hr).bind fun _ => settles_pure.expect _).expect _

theorem rejects_parseCondition (hr : r.EofSafe) (opening closing : String) :
    Rejects (parseCondition r opening closing) :=
  rejects_expectThen ((eofBlind_parseExpr hr).bind fun _ => settles_pure.expect _) (by decide) _

/-- The initialiser and the semicolon that end a declaration. -/
theorem eofBlind_initialiser (hr : r.EofSafe) (what : String) (decl : Option Expr → Stmt) :
    EofBlind (matchT .assign >>= fun b =>
      if b then parseExpr r >>= fun init => expect .semi what >>= fun _ => pure (decl (some init))
      else expect .semi what >>= fun _ => pure (decl none)) :=
  eofBlind_match .assign ((eofBlind_parseExpr hr).bind fun _ => settles_pure.expect _)
    (settles_pure.expect _)

theorem eofBlind_parseVarOrFixed (hr : r.EofSafe) (isFixed : Bool) :
    EofBlind (parseVarOrFixed r isFixed) :=
  eofBlind_named _ fun nm => ( eofBlind_parseTypeAnnotation hr _).bind fun type =>
    eofBlind_initialiser hr _ fun init => .varDecl nm.line nm.lexeme type init isFixed

theorem eofBlind_parseFunDecl (hr : r.EofSafe) (isAsync : Bool) :
    EofBlind (parseFunDecl r isAsync) := by
  refine eofBlind_named _ fun nm => Settles.expect ?_ _
  refine (eofBlind_listUntil (eofBlind_parseParam hr)).bind fun params => Settles.expect ?_ _
  exact ( eofBlind_parseTypeAnnotation hr _).bind fun ret => hr.block.bind fun body => settles_pure

theorem eofBlind_elifLoop (hr : r.EofSafe) (k : ℕ) : EofBlind (elifLoop r k) := by
  induction k with
  | zero => exact eofBlind_outOfDepth
  | succ k ih =>
    refine eofBlind_match .kwElif ((eofBlind_parseCondition hr _ _).bind fun cond => ?_) settles_pure
    exact hr.block.bind fun body => ih.bind fun elifs => settles_pure

theorem eofBlind_parseIf (hr : r.EofSafe) : EofBlind (parseIf r) := by
  have hrest : ∀ (t : Token) (cond : Expr), EofBlind (r.block >>= fun thenB =>
      elifLoop r r.turns >>= fun elifs => matchT .kwElse >>= fun b =>
        if b then r.block >>= fun elseB =>
          (pure (.ifStmt t.line cond thenB elifs (some elseB)) : P Stmt)
        else pure (.ifStmt t.line cond thenB elifs none)) := fun t cond =>
    hr.block.bind fun thenB => (eofBlind_elifLoop hr _).bind fun elifs =>
      eofBlind_match .kwElse (hr.block.bind fun elseB => settles_pure) settles_pure
  exact eofBlind_cur (fun t => (eofBlind_parseCondition hr _ _).bind (hrest t))
    (rejects_cur fun _ => (rejects_parseCondition hr _ _).bind (hrest _))

theorem eofBlind_parseReturn (hr : r.EofSafe) (line : ℕ) : EofBlind (parseReturn r line) :=
  eofBlind_match .semi settles_pure ((eofBlind_parseExpr hr).bind fun _ => settles_pure.expect _)

theorem eofBlind_parseLoopWhile (hr : r.EofSafe) (line : ℕ) : EofBlind (parseLoopWhile r line) :=
  (eofBlind_parseCondition hr _ _).bind fun _ => hr.block.bind fun _ => settles_pure

theorem eofBlind_parseDoWhile (hr : r.EofSafe) (line : ℕ) : EofBlind (parseDoWhile r line) :=
  Settles.expect (hr.block.bind fun _ => Settles.expect
    ((eofBlind_parseCondition hr _ _).bind fun _ => settles_pure.expect _) _) _

theorem eofBlind_parseForCondition (hr : r.EofSafe) : EofBlind (parseForCondition r) :=
  eofBlind_match .comma ((eofBlind_parseExpr hr).bind fun _ => settles_pure) settles_pure

theorem eofBlind_parseForIn (hr : r.EofSafe) (line : ℕ) : EofBlind (parseForIn r line) := by
  refine Settles.expect (eofBlind_named _ fun nm => Settles.expect ?_ _) _
  refine (eofBlind_parseExpr hr).bind fun iterable => (eofBlind_parseForCondition hr).bind fun cond => ?_
  exact Settles.expect (hr.block.bind fun body => settles_pure) _

theorem eofBlind_parseIterate (hr : r.EofSafe) (line : ℕ) : EofBlind (parseIterate r line) := by
  refine Settles.expect ((eofBlind_parseExpr hr).bind fun coll => Settles.expect ?_ _) _
  exact eofBlind_named _ fun nm => Settles.expect (hr.block.bind fun body => settles_pure) _

theorem eofBlind_someStmt {m : P Stmt} (h : EofBlind m) : EofBlind (some <$> m) :=
  h.bind fun _ => settles_pure

theorem eofBlind_parseClassMember (hr : r.EofSafe) : EofBlind (parseClassMember r) := by
  refine eofBlind_match .kwVar (eofBlind_someStmt (eofBlind_parseVarOrFixed hr _)) ?_
  refine eofBlind_match .kwFixed (eofBlind_someStmt (eofBlind_parseVarOrFixed hr _)) ?_
  refine eofBlind_match .kwFun (eofBlind_someStmt (eofBlind_parseFunDecl hr _)) ?_
  have hdiagnoses : ∀ t : Token, Diagnoses (errorAt t "expected class member" >>= fun _ =>
      advance >>= fun _ => (pure none : P (Option Stmt))) := fun t =>
    (diagnoses_errorAt t _).bind fun _ => eofBlind_advance.bind fun _ => settles_pure
  exact eofBlind_cur (fun t => (hdiagnoses t).blind) (rejects_cur fun _ => (hdiagnoses _).rejects)

theorem eofBlind_parseVisibility : EofBlind parseVisibility :=
  eofBlind_match .kwPublic settles_pure (eofBlind_match .kwPrivate settles_pure settles_pure)

theorem eofBlind_parseParentName : EofBlind parseParentName :=
  eofBlind_match .kwExtends (eofBlind_named _ fun _ => settles_pure) settles_pure

theorem eofBlind_parseClass (hr : r.EofSafe) (line : ℕ) : EofBlind (parseClass r line) := by
  refine eofBlind_parseVisibility.bind fun vis => Settles.expect (eofBlind_named _ fun nm => ?_) _
  refine eofBlind_parseParentName.bind fun parent => Settles.expect ?_ _
  exact (eofBlind_untilBrace (eofBlind_parseClassMember hr) _).bind fun _ => settles_pure.expect _

theorem eofBlind_parseEnum (line : ℕ) : EofBlind (parseEnum r line) := by
  have hvalue : EofBlind parseEnumValue := eofBlind_named _ fun _ => settles_pure
  refine eofBlind_named _ fun nm => Settles.expect ?_ _
  exact (eofBlind_listUntil hvalue).bind fun vals => settles_pure.expect _

theorem eofBlind_parseStruct (hr : r.EofSafe) (line : ℕ) : EofBlind (parseStruct r line) := by
  have hfield : EofBlind (parseField r) := eofBlind_named _ fun fnm =>
    Settles.expect ((eofBlind_parseType hr).bind fun ft => settles_pure.expect _) _
  refine eofBlind_named _ fun nm => Settles.expect ?_ _
  exact (eofBlind_untilBrace hfield _).bind fun fields => settles_pure.expect _

theorem eofBlind_parseVector (hr : r.EofSafe) (line : ℕ) : EofBlind (parseVector r line) :=
  (eofBlind_parseType hr).bind fun type => eofBlind_named _ fun nm =>
    eofBlind_initialiser hr _ fun init => .varDecl line nm.lexeme type init false

theorem eofBlind_parseImportPath (line : ℕ) : EofBlind (parseImportPath line) :=
  have hrest : ∀ path : Token, EofBlind (expect .semi "expected ';' after import" >>= fun _ =>
      (pure (.importStmt line path.lexeme) : P Stmt)) := fun _ => settles_pure.expect _
  eofBlind_cur (fun path => (hrest path).expect _)
    (rejects_cur fun _ => rejects_expectThen (hrest _) (by decide) _)

theorem eofBlind_parseImport (line : ℕ) : EofBlind (parseImport line) := by
  have hpath := eofBlind_parseImportPath line
  refine eofBlind_cur_any (fun nm => settles_ite ?_ hpath) fun l l' => rfl
  refine eofBlind_advance.bind fun _ => eofBlind_cur (fun t => settles_ite ?_ ?_) ?_
  · exact eofBlind_advance.bind fun _ => hpath
  · exact ((diagnoses_errorAt t _).bind fun _ => hpath).blind
  · exact rejects_cur fun l => ((diagnoses_errorAt _ _).bind fun _ => hpath).rejects

theorem eofBlind_parseExport (line : ℕ) : EofBlind (parseExport line) :=
  eofBlind_named _ fun _ => settles_pure.expect _

theorem eofBlind_parseTry (hr : r.EofSafe) (line : ℕ) : EofBlind (parseTry r line) := by
  have htype : EofBlind (parseCatchType r) :=
    eofBlind_match .colon ((eofBlind_parseType hr).bind fun _ => settles_pure) settles_pure
  refine hr.block.bind fun tryB => Settles.expect (Settles.expect ?_ _) _
  refine eofBlind_named _ fun nm => htype.bind fun _ => Settles.expect ?_ _
  exact hr.block.bind fun catchB => settles_pure

theorem demands_parseExprStmt (hr : r.EofSafe) (line : ℕ) :
    EofBlind (parseExprStmt r line) ∧ Rejects (parseExprStmt r line) :=
  have hrest : ∀ e : Expr, EofBlind (expect .semi "expected ';' after expression" >>= fun _ =>
      (pure (.expr line e) : P Stmt)) := fun _ => settles_pure.expect _
  ⟨(eofBlind_parseExpr hr).bind hrest, (demands_parseAssignment hr).rejects.bind hrest⟩

theorem eofBlind_parseStatement (hr : r.EofSafe) : EofBlind (parseStatement r) := by
  refine eofBlind_cur (fun t => ?_) (rejects_cur fun line => ?_)
  · refine eofBlind_match .kwVar (eofBlind_parseVarOrFixed hr _) ?_
    refine eofBlind_match .kwFixed (eofBlind_parseVarOrFixed hr _) ?_
    refine eofBlind_match .kwIf (eofBlind_parseIf hr) ?_
    refine eofBlind_match .kwAsync ((eofBlind_parseFunDecl hr _).expect _) ?_
    refine eofBlind_match .kwFun (eofBlind_parseFunDecl hr _) ?_
    refine eofBlind_match .kwReturn (eofBlind_parseReturn hr _) ?_
    refine eofBlind_match .kwLoop (eofBlind_parseLoopWhile hr _) ?_
    refine eofBlind_match .kwDo (eofBlind_parseDoWhile hr _) ?_
    refine eofBlind_match .kwFor (eofBlind_parseForIn hr _) ?_
    refine eofBlind_match .kwIterate (eofBlind_parseIterate hr _) ?_
    refine settles_ite (eofBlind_parseClass hr _) ?_
    refine eofBlind_match .typeEnum (eofBlind_parseEnum _) ?_
    refine eofBlind_match .typeStruct (eofBlind_parseStruct hr _) ?_
    refine settles_ite (eofBlind_parseVector hr _) ?_
    refine eofBlind_match .kwImport (eofBlind_parseImport _) ?_
    refine eofBlind_match .kwExport (eofBlind_parseExport _) ?_
    refine eofBlind_match .kwTry (eofBlind_parseTry hr _) ?_
    exact eofBlind_bool (eofBlind_check .lbrace) hr.block (demands_parseExprStmt hr _).1
  · have hclass : .eof ∉ [TokenType.kwClass, .kwPublic, .kwPrivate] := by decide
    have hvector : .eof ∉ [TokenType.typeVector, .typeMatrix] := by decide
    iterate 10 refine rejects_match (by decide) ?_
    rw [if_neg hclass]
    iterate 2 refine rejects_match (by decide) ?_
    rw [if_neg hvector]
    iterate 3 refine rejects_match (by decide) ?_
    exact rejects_check (by decide) (demands_parseExprStmt hr _).2

theorem eofBlind_parseBlock (hr : r.EofSafe) : EofBlind (parseBlock r) := by
  have hrest : ∀ line : ℕ, EofBlind (untilBrace (some <$> parseStatement r) r.turns >>= fun stmts =>
      expect .rbrace "expected '\x7d'" >>= fun _ => (pure (.block line stmts) : P Stmt)) :=
    fun line => (eofBlind_untilBrace (eofBlind_someStmt (eofBlind_parseStatement hr)) _).bind fun _ =>
      settles_pure.expect _
  exact eofBlind_cur (fun t => (hrest t.line).expect _)
    (rejects_cur fun l => rejects_expectThen (hrest l) (by decide) _)

theorem recAt_eofBlind (n : ℕ) : (recAt n).EofSafe := by
  induction n with
  | zero =>
    exact ⟨eofBlind_outOfDepth, eofBlind_outOfDepth, eofBlind_outOfDepth, eofBlind_outOfDepth,
      eofBlind_outOfDepth⟩
  | succ n ih =>
    exact ⟨eofBlind_parseType ih, eofBlind_parseExpr ih, (demands_parseUnary ih).blind,
      (demands_parsePower ih).blind, eofBlind_parseBlock ih⟩

theorem eofBlind_programLoop (hr : r.EofSafe) (k : ℕ) : EofBlind (programLoop r k) := by
  induction k with
  | zero => exact eofBlind_outOfDepth
  | succ k ih =>
    refine eofBlind_bool (eofBlind_check .eof) settles_pure ?_
    refine (eofBlind_parseStatement hr).bind fun s => eofBlind_bool eofBlind_hadError settles_pure ?_
    exact ih.bind fun stmts => settles_pure

end Statements

/-! ### Programs -/

theorem hadError_eq_false {s : PState} : s.hadError = false ↔ s.Clean := by
  rw [PState.hadError, Bool.not_eq_false', List.isEmpty_iff, PState.Clean]

/-- **A program without errors depends on its tokens only**, wherever the file ends, and so does
what is said about the expressions in its string literals. -/
theorem runProgram_of_toks {source source' : Text}
    (htoks : (tokenize source').1 = (tokenize source).1) {n : ℕ} {stmts : List Stmt} {s : PState}
    (hrun : runProgram n source = some (stmts, s)) (hgood : s.hadError = false) :
    ∃ s', runProgram n source' = some (stmts, s') ∧ s'.hadError = false ∧
      s'.nested.map NestedParse.report = s.nested.map NestedParse.report := by
  have hstart : SameToks (initParser source) (initParser source') := ⟨htoks, rfl, rfl⟩
  obtain ⟨-, hsame⟩ := eofBlind_programLoop (recAt_eofBlind n) (n + 1) (initParser source) stmts s
    hrun (hadError_eq_false.mp hgood)
  obtain ⟨s', hrun', hs'⟩ := hsame _ hstart
  exact ⟨s', hrun', hadError_eq_false.mpr hs'.clean, hs'.nested⟩

end Jaguar
