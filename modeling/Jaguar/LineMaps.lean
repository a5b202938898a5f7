/-
Line numbers in the parser.

The parser copies line numbers into the tree and into its messages, and never looks at them. So
from tokens that agree under a map of line numbers it makes trees that agree under this map.

* `Expr.mapLines`, `Stmt.mapLines` — a tree with other line numbers;
* `Relined`, `Alike` — states, and runs from them, that agree under a map of line numbers;
* `alike_parseType` … `alike_programLoop` — **every parsing function**;
* `parsedUnder_eq` — **the programs and the messages agree if the tokens do**.
-/
import Jaguar.Parser
import Jaguar.TwoRuns
import Mathlib.Data.List.Forall2

namespace Jaguar

/-! ### Trees with other line numbers -/

mutual

@[simp] def Expr.mapLines (f : ℕ → ℕ) : Expr → Expr
  | .num line n => .num (f line) n
  | .decimal line d => .decimal (f line) d
  | .scifi line d => .scifi (f line) d
  | .bool line b => .bool (f line) b
  | .str line parts => .str (f line) (partsMapLines f parts)
  | .ident line name => .ident (f line) name
  | .binary line left right op => .binary (f line) (left.mapLines f) (right.mapLines f) op
  | .unary line operand op => .unary (f line) (operand.mapLines f) op
  | .assign line target value op => .assign (f line) (target.mapLines f) (value.mapLines f) op
  | .call line callee args => .call (f line) (callee.mapLines f) (exprsMapLines f args)
  | .member line object name => .member (f line) (object.mapLines f) name
  | .index line object index => .index (f line) (object.mapLines f) (index.mapLines f)
  | .ternary line cond thenE elseE =>
    .ternary (f line) (cond.mapLines f) (thenE.mapLines f) (elseE.mapLines f)
  | .between line value low high =>
    .between (f line) (value.mapLines f) (low.mapLines f) (high.mapLines f)
  | .list line items => .list (f line) (exprsMapLines f items)
  | .data line entries => .data (f line) (entriesMapLines f entries)
  | .funcLit line params retType body isAsync =>
    .funcLit (f line) params retType (body.mapLines f) isAsync
  | .await line e => .await (f line) (e.mapLines f)
  | .new line className args => .new (f line) className (exprsMapLines f args)

@[simp] def exprsMapLines (f : ℕ → ℕ) : List Expr → List Expr
  | [] => []
  | e :: es => e.mapLines f :: exprsMapLines f es

@[simp] def optExprMapLines (f : ℕ → ℕ) : Option Expr → Option Expr
  | none => none
  | some e => some (e.mapLines f)

@[simp] def entriesMapLines (f : ℕ → ℕ) : List (Text × Expr) → List (Text × Expr)
  | [] => []
  | (key, e) :: entries => (key, e.mapLines f) :: entriesMapLines f entries

@[simp] def StrPart.mapLines (f : ℕ → ℕ) : StrPart → StrPart
  | .literal s => .literal s
  | .expr e => .expr (e.mapLines f)

@[simp] def partsMapLines (f : ℕ → ℕ) : List StrPart → List StrPart
  | [] => []
  | p :: parts => p.mapLines f :: partsMapLines f parts

@[simp] def Stmt.mapLines (f : ℕ → ℕ) : Stmt → Stmt
  | .varDecl line name type init isFixed =>
    .varDecl (f line) name type (optExprMapLines f init) isFixed
  | .expr line e => .expr (f line) (e.mapLines f)
  | .ifStmt line cond thenB elifs elseB =>
    .ifStmt (f line) (cond.mapLines f) (thenB.mapLines f) (elifsMapLines f elifs)
      (optStmtMapLines f elseB)
  | .loopWhile line cond body => .loopWhile (f line) (cond.mapLines f) (body.mapLines f)
  | .doWhile line cond body => .doWhile (f line) (cond.mapLines f) (body.mapLines f)
  | .forIn line varName iterable cond body =>
    .forIn (f line) varName (iterable.mapLines f) (optExprMapLines f cond) (body.mapLines f)
  | .iterate line collection itemName body =>
    .iterate (f line) (collection.mapLines f) itemName (body.mapLines f)
  | .funDecl line name params retType body isAsync =>
    .funDecl (f line) name params retType (body.mapLines f) isAsync
  | .ret line value => .ret (f line) (optExprMapLines f value)
  | .block line stmts => .block (f line) (stmtsMapLines f stmts)
  | .classDecl line name members visibility parentName =>
    .classDecl (f line) name (stmtsMapLines f members) visibility parentName
  | .enumDecl line name values => .enumDecl (f line) name values
  | .structDecl line name fields => .structDecl (f line) name fields
  | .importStmt line path => .importStmt (f line) path
  | .exportStmt line name => .exportStmt (f line) name
  | .tryCatch line tryB errName catchB =>
    .tryCatch (f line) (tryB.mapLines f) errName (catchB.mapLines f)
  | .brk line => .brk (f line)
  | .cont line => .cont (f line)

@[simp] def optStmtMapLines (f : ℕ → ℕ) : Option Stmt → Option Stmt
  | none => none
  | some s => some (s.mapLines f)

@[simp] def stmtsMapLines (f : ℕ → ℕ) : List Stmt → List Stmt
  | [] => []
  | s :: stmts => s.mapLines f :: stmtsMapLines f stmts

@[simp] def elifsMapLines (f : ℕ → ℕ) : List (Expr × Stmt) → List (Expr × Stmt)
  | [] => []
  | (cond, body) :: elifs => (cond.mapLines f, body.mapLines f) :: elifsMapLines f elifs

end

section

variable (f : ℕ → ℕ)

@[simp] theorem exprsMapLines_eq (es : List Expr) :
    exprsMapLines f es = es.map (Expr.mapLines f) := by
  induction es with
  | nil => rfl
  | cons e es ih => rw [exprsMapLines, ih, List.map_cons]

@[simp] theorem optExprMapLines_eq (e : Option Expr) :
    optExprMapLines f e = e.map (Expr.mapLines f) := by
  cases e <;> rfl

@[simp] theorem entriesMapLines_eq (entries : List (Text × Expr)) :
    entriesMapLines f entries = entries.map (Prod.map id (Expr.mapLines f)) := by
  induction entries with
  | nil => rfl
  | cons entry entries ih => rw [entriesMapLines, ih, List.map_cons, Prod.map_apply, id]

@[simp] theorem partsMapLines_eq (parts : List StrPart) :
    partsMapLines f parts = parts.map (StrPart.mapLines f) := by
  induction parts with
  | nil => rfl
  | cons p parts ih => rw [partsMapLines, ih, List.map_cons]

@[simp] theorem optStmtMapLines_eq (s : Option Stmt) :
    optStmtMapLines f s = s.map (Stmt.mapLines f) := by
  cases s <;> rfl

@[simp] theorem stmtsMapLines_eq (stmts : List Stmt) :
    stmtsMapLines f stmts = stmts.map (Stmt.mapLines f) := by
  induction stmts with
  | nil => rfl
  | cons s stmts ih => rw [stmtsMapLines, ih, List.map_cons]

@[simp] theorem elifsMapLines_eq (elifs : List (Expr × Stmt)) :
    elifsMapLines f elifs = elifs.map (Prod.map (Expr.mapLines f) (Stmt.mapLines f)) := by
  induction elifs with
  | nil => rfl
  | cons elif elifs ih => rw [elifsMapLines, ih, List.map_cons, Prod.map_apply]

theorem Expr.line_mapLines (e : Expr) : (e.mapLines f).line = f e.line := by
  cases e <;> rfl

variable {f}

theorem Expr.line_of_mapLines {e e' : Expr} (h : e'.mapLines f = e.mapLines f) :
    f e'.line = f e.line := by
  rw [← Expr.line_mapLines f e', h, Expr.line_mapLines]

theorem Expr.mapLines_withLine (e : Expr) {line line' : ℕ} (h : f line' = f line) :
    (e.withLine line').mapLines f = (e.withLine line).mapLines f := by
  cases e <;> simp only [Expr.withLine, Expr.mapLines, h]

end

/-! ### States that agree -/

/-- Tokens that agree under `f`. -/
structure Token.Like (f : ℕ → ℕ) (t t' : Token) : Prop where
  type : t'.type = t.type
  lexeme : t'.lexeme = t.lexeme
  line : f t'.line = f t.line

/-- What `error_at` prints, with the line number under `f`. -/
def ParseError.message (f : ℕ → ℕ) (e : ParseError) : TokenType × Text × ℕ × String :=
  (e.token.type, e.token.lexeme, f e.token.line, e.msg)

/-- States with the same tokens ahead and the same messages under `f`. A hole is lexed from its
first line on, so the nested parses agree as they are. -/
structure Relined (f : ℕ → ℕ) (s s' : PState) : Prop where
  toks : List.Forall₂ (Token.Like f) s.toks s'.toks
  eofLine : f s'.eofLine = f s.eofLine
  messages : s'.errors.map (ParseError.message f) = s.errors.map (ParseError.message f)
  nested : s'.nested.map NestedParse.report = s.nested.map NestedParse.report

/-- The same value under `g`. -/
abbrev SameUnder {α β : Type} (g : α → β) (a a' : α) : Prop := g a' = g a

theorem SameUnder.eq {α : Type} {a a' : α} (h : SameUnder id a a') : a' = a := h

theorem SameUnder.list_eq {α : Type} {as as' : List α} (h : SameUnder (List.map id) as as') :
    as' = as := by
  rw [← List.map_id as', h, List.map_id]

/-- The two run alike, and what they return agrees under `g`. -/
abbrev Alike {α β : Type} (f : ℕ → ℕ) (g : α → β) (m m' : P α) : Prop :=
  Tracks (Relined f) (SameUnder g) m m'

section Rules

variable {f : ℕ → ℕ} {α β : Type} {g : α → β} {m m' n n' : P α}

theorem Relined.cur {s s' : PState} (h : Relined f s s') : Token.Like f s.cur s'.cur := by
  have heof : Token.Like f ⟨.eof, [], s.eofLine⟩ ⟨.eof, [], s'.eofLine⟩ := ⟨rfl, rfl, h.eofLine⟩
  have htoks := h.toks
  unfold PState.cur
  generalize s.toks = ts at htoks ⊢
  generalize s'.toks = ts' at htoks ⊢
  cases htoks with
  | nil => exact heof
  | cons ht _ => exact ht

theorem alike_outOfDepth : Alike f g outOfDepth m' := tracks_of_none fun _ => rfl

theorem alike_cur {k k' : Token → P α} (h : ∀ t t', Token.Like f t t' → Alike f g (k t) (k' t')) :
    Alike f g (cur >>= k) (cur >>= k') := by
  intro s s' hs
  exact h s.cur s'.cur hs.cur s s' hs

theorem alike_check (t : TokenType) : Tracks (Relined f) Eq (check t) (check t) := by
  rintro s s' hs b u hrun
  obtain ⟨rfl, rfl⟩ := Prod.mk.inj (Option.some.inj hrun)
  refine ⟨_, s', rfl, hs, ?_⟩
  rw [hs.cur.type]

theorem alike_hadError : Tracks (Relined f) Eq hadError hadError := by
  rintro s s' hs b u hrun
  obtain ⟨rfl, rfl⟩ := Prod.mk.inj (Option.some.inj hrun)
  refine ⟨_, s', rfl, hs, ?_⟩
  have hempty := congrArg List.isEmpty hs.messages
  rw [List.isEmpty_map, List.isEmpty_map] at hempty
  rw [PState.hadError, PState.hadError, hempty]

theorem alike_advance : Tracks (Relined f) AnyTwo advance advance := by
  rintro s s' hs b u hrun
  obtain ⟨rfl, rfl⟩ := Prod.mk.inj (Option.some.inj hrun)
  refine ⟨(), _, rfl, ⟨?_, hs.eofLine, hs.messages, hs.nested⟩, trivial⟩
  have htoks := hs.toks
  show List.Forall₂ _ s.toks.tail s'.toks.tail
  generalize s.toks = ts at htoks ⊢
  generalize s'.toks = ts' at htoks ⊢
  cases htoks with
  | nil => exact .nil
  | cons _ hts => exact hts

theorem alike_errorAt {t t' : Token} (ht : Token.Like f t t') (msg : String) :
    Tracks (Relined f) AnyTwo (errorAt t msg) (errorAt t' msg) := by
  rintro s s' hs b u hrun
  obtain ⟨rfl, rfl⟩ := Prod.mk.inj (Option.some.inj hrun)
  refine ⟨(), _, rfl, ⟨hs.toks, hs.eofLine, ?_, hs.nested⟩, trivial⟩
  simp only [List.map_append, List.map_cons, List.map_nil, hs.messages, ParseError.message, ht.type,
    ht.lexeme, ht.line]

theorem alike_matchT (t : TokenType) : Tracks (Relined f) Eq (matchT t) (matchT t) :=
  tracks_bool (alike_check t) (alike_advance.then fun _ _ => tracks_pure rfl) (tracks_pure rfl)

theorem alike_match (t : TokenType) (hm : Alike f g m m') (hn : Alike f g n n') :
    Alike f g (matchT t >>= fun b => if b then m else n)
      (matchT t >>= fun b => if b then m' else n') :=
  tracks_bool (alike_matchT t) hm hn

theorem alike_recover {t t' : Token} (ht : Token.Like f t t') (msg : String) :
    Tracks (Relined f) AnyTwo (recover t msg) (recover t' msg) :=
  (alike_errorAt ht msg).then fun _ _ =>
    tracks_bool (alike_check .eof) (tracks_pure trivial) alike_advance

theorem alike_expect (t : TokenType) (what : String) :
    Tracks (Relined f) AnyTwo (expect t what) (expect t what) := by
  intro s s' hs
  have hcur := hs.cur
  exact tracks_ite (by rw [hcur.type]) alike_advance (alike_recover hcur what) s s' hs

/-- What is expected before `m`. -/
theorem Tracks.expect {V : α → α → Prop} (t : TokenType) (what : String)
    (h : Tracks (Relined f) V m m') :
    Tracks (Relined f) V (Jaguar.expect t what >>= fun _ => m)
      (Jaguar.expect t what >>= fun _ => m') :=
  (alike_expect t what).then fun _ _ => h

end Rules

/-! ### Loops -/

section Loops

variable {f : ℕ → ℕ} {α β : Type} {g : α → β} {r : Rec}

theorem alike_commaList {item : P α} (h : Alike f g item item) (k : ℕ) :
    Alike f (List.map g) (commaList item k) (commaList item k) := by
  induction k with
  | zero => exact alike_outOfDepth
  | succ k ih =>
    refine h.bind fun a a' ha => alike_match .comma ?_ ?_
    · exact ih.bind fun as as' has => tracks_pure (by simp only [SameUnder, List.map_cons, ha, has])
    · exact tracks_pure (by simp only [SameUnder, List.map_cons, ha])

theorem alike_listUntil {close : TokenType} {item : P α} (h : Alike f g item item) :
    Alike f (List.map g) (listUntil r close item) (listUntil r close item) :=
  tracks_bool (alike_check close) (tracks_pure rfl) (alike_commaList h r.turns)

theorem alike_untilBrace {item : P (Option α)} (h : Alike f (Option.map g) item item) (k : ℕ) :
    Alike f (List.map g) (untilBrace item k) (untilBrace item k) := by
  induction k with
  | zero => exact alike_outOfDepth
  | succ k ih =>
    refine (alike_check .rbrace).bind fun b b' hb => (alike_check .eof).bind fun c c' hc => ?_
    subst hb hc
    refine tracks_ite Iff.rfl (tracks_pure rfl) (h.bind fun a a' ha => ih.bind fun as as' has => ?_)
    have hlist : a'.toList.map g = a.toList.map g := by
      rw [← Option.toList_map, ← Option.toList_map, ha]
    exact tracks_pure (by simp only [SameUnder, List.map_append, hlist, has])

theorem alike_binaryLoop {ops : List TokenType} {operand : P Expr}
    (h : Alike f (Expr.mapLines f) operand operand) {line : Token → Expr → ℕ}
    (hline : ∀ t t' e e', Token.Like f t t' → SameUnder (Expr.mapLines f) e e' →
      f (line t' e') = f (line t e)) (k : ℕ) :
    ∀ {left left' : Expr}, SameUnder (Expr.mapLines f) left left' →
      Alike f (Expr.mapLines f) (binaryLoop ops operand line k left)
        (binaryLoop ops operand line k left') := by
  induction k with
  | zero => exact fun _ => alike_outOfDepth
  | succ k ih =>
    intro left left' hleft
    refine alike_cur fun op op' hop => tracks_ite (by rw [hop.type]) ?_ (tracks_pure hleft)
    refine alike_advance.then fun _ _ => h.bind fun right right' hright => ih ?_
    simp only [SameUnder, Expr.mapLines, hline op op' left left' hop hleft, hleft, hright, hop.type]

end Loops

/-! ### Types and string literals -/

/-- The functions that are called back into run alike. -/
structure Rec.Alike (f : ℕ → ℕ) (r : Rec) : Prop where
  type : Jaguar.Alike f id r.type r.type
  assignment : Jaguar.Alike f (Expr.mapLines f) r.assignment r.assignment
  unary : Jaguar.Alike f (Expr.mapLines f) r.unary r.unary
  power : Jaguar.Alike f (Expr.mapLines f) r.power r.power
  block : Jaguar.Alike f (Stmt.mapLines f) r.block r.block

section Literals

variable {f : ℕ → ℕ} {r : Rec}

theorem alike_parseType (hr : r.Alike f) : Alike f id (parseType r) (parseType r) := by
  refine alike_cur fun t t' ht => ?_
  rw [ht.type]
  cases typeKeyword t.type with
  | some kind =>
    refine alike_advance.then fun _ _ => alike_match .lt ?_ (tracks_pure rfl)
    refine hr.type.bind fun elem elem' helem => Tracks.expect _ _ (tracks_pure ?_)
    exact congrArg (fun elem => TypeInfo.mk kind (some elem) none) helem
  | none =>
    refine alike_match .ident (tracks_pure ?_) ?_
    · exact congrArg (fun name => TypeInfo.mk .classNamed none (some name)) ht.lexeme
    · exact (alike_errorAt ht _).then fun _ _ => alike_advance.then fun _ _ => tracks_pure rfl

theorem alike_parseTypeAnnotation (hr : r.Alike f) (default : JagType) :
    Alike f id ( parseTypeAnnotation r default) ( parseTypeAnnotation r default) :=
  alike_match .colon (alike_parseType hr) (tracks_pure rfl)

/-- The text of a hole is the same in both runs, and so is the tree of its parser. -/
theorem alike_parseExprSubstring (text : Text) {line line' : ℕ} (hline : f line' = f line) :
    Alike f (Expr.mapLines f) (parseExprSubstring r text line) (parseExprSubstring r text line') := by
  rintro s s' hs e t hrun
  unfold parseExprSubstring at hrun ⊢
  cases hsub : r.assignment (initParser text) with
  | none =>
    rw [hsub] at hrun
    cases hrun
  | some x =>
    rw [hsub] at hrun
    obtain ⟨rfl, rfl⟩ := Prod.mk.inj (Option.some.inj hrun)
    refine ⟨_, _, rfl, ⟨hs.toks, hs.eofLine, hs.messages, ?_⟩, Expr.mapLines_withLine x.1 hline⟩
    simp only [List.map_append, List.map_cons, List.map_nil, hs.nested, NestedParse.report]

theorem alike_parseParts {line line' : ℕ} (hline : f line' = f line) (raw : List RawPart) :
    Alike f (List.map (StrPart.mapLines f)) (parseParts r line raw) (parseParts r line' raw) := by
  induction raw with
  | nil => exact tracks_pure rfl
  | cons p raw ih =>
    cases p with
    | literal lit =>
      refine ih.bind fun parts parts' hparts => tracks_pure ?_
      simp only [SameUnder, List.map_cons, hparts]
    | expr text =>
      refine (alike_parseExprSubstring text hline).bind fun e e' he =>
        ih.bind fun parts parts' hparts => tracks_pure ?_
      simp only [SameUnder, List.map_cons, StrPart.mapLines, he, hparts]

theorem alike_parseStringLiteralToken {t t' : Token} (ht : Token.Like f t t') :
    Alike f (Expr.mapLines f) (parseStringLiteralToken r t) (parseStringLiteralToken r t') := by
  unfold parseStringLiteralToken
  rw [ht.lexeme]
  refine (alike_parseParts ht.line _).bind fun parts parts' hparts => tracks_pure ?_
  have hempty : parts'.isEmpty = parts.isEmpty := by
    rw [← List.isEmpty_map (f := StrPart.mapLines f), hparts, List.isEmpty_map]
  have hcases : (if parts'.isEmpty then [.literal []] else parts').map (StrPart.mapLines f)
      = (if parts.isEmpty then [.literal []] else parts).map (StrPart.mapLines f) := by
    rw [hempty]
    split
    · rfl
    · exact hparts
  simp only [SameUnder, Expr.mapLines, partsMapLines_eq, ht.line, hcases]

end Literals

/-! ### Expressions -/

section Expressions

variable {f : ℕ → ℕ} {r : Rec}

theorem alike_parseParam (hr : r.Alike f) : Alike f id (parseParam r) (parseParam r) :=
  alike_cur fun nm nm' hnm => Tracks.expect _ _ <|
    ( alike_parseTypeAnnotation hr _).bind fun type type' htype => tracks_pure (by
      simp only [SameUnder, hnm.lexeme, htype.eq])

theorem alike_expectFun (isAsync : Bool) :
    Tracks (Relined f) AnyTwo (expectFun isAsync) (expectFun isAsync) :=
  tracks_ite Iff.rfl (alike_expect _ _) (tracks_pure trivial)

theorem alike_parseFuncLit (hr : r.Alike f) {t t' : Token} (ht : Token.Like f t t')
    (isAsync : Bool) :
    Alike f (Expr.mapLines f) (parseFuncLit r t isAsync) (parseFuncLit r t' isAsync) := by
  refine (alike_expectFun isAsync).then fun _ _ => Tracks.expect _ _ ?_
  refine (alike_listUntil (alike_parseParam hr)).bind fun params params' hparams => ?_
  refine Tracks.expect _ _ (( alike_parseTypeAnnotation hr _).bind fun ret ret' hret => ?_)
  refine hr.block.bind fun body body' hbody => tracks_pure ?_
  simp only [SameUnder, Expr.mapLines, ht.line, hparams.list_eq, hret.eq, hbody]

theorem alike_parseArgList (hr : r.Alike f) :
    Alike f (List.map (Expr.mapLines f)) (parseArgList r) (parseArgList r) :=
  alike_listUntil hr.assignment

theorem alike_parseNew (hr : r.Alike f) {t t' : Token} (ht : Token.Like f t t') :
    Alike f (Expr.mapLines f) (parseNew r t) (parseNew r t') := by
  refine alike_cur fun nm nm' hnm => Tracks.expect _ _ (Tracks.expect _ _ ?_)
  refine (alike_parseArgList hr).bind fun args args' hargs => Tracks.expect _ _ (tracks_pure ?_)
  simp only [SameUnder, Expr.mapLines, exprsMapLines_eq, ht.line, hnm.lexeme, hargs]

theorem alike_parseDataEntry (hr : r.Alike f) :
    Alike f (Prod.map id (Expr.mapLines f)) (parseDataEntry r) (parseDataEntry r) := by
  have hkey : Tracks (Relined f) AnyTwo expectKey expectKey :=
    tracks_bool (alike_matchT .stringLit) (tracks_pure trivial) (alike_expect _ _)
  refine alike_cur fun key key' hkey' => hkey.then fun _ _ => Tracks.expect _ _ ?_
  refine hr.assignment.bind fun value value' hvalue => tracks_pure ?_
  simp only [SameUnder, Prod.map_apply, id, hkey'.lexeme, hvalue]

theorem alike_parsePrimary (hr : r.Alike f) :
    Alike f (Expr.mapLines f) (parsePrimary r) (parsePrimary r) := by
  refine alike_cur fun t t' ht => ?_
  have hlit : ∀ {e : ℕ → Text → Expr}, (∀ l s, (e l s).mapLines f = (e (f l) s).mapLines id) →
      SameUnder (Expr.mapLines f) (e t.line t.lexeme) (e t'.line t'.lexeme) := by
    intro e he
    rw [SameUnder, he, he, ht.line, ht.lexeme]
  refine alike_match .numLit (tracks_pure (hlit (e := fun l s => .num l (atol s)) fun _ _ => rfl)) ?_
  refine alike_match .decimalLit
    (tracks_pure (hlit (e := fun l s => .decimal l (atof s)) fun _ _ => rfl)) ?_
  refine alike_match .scifiLit
    (tracks_pure (hlit (e := fun l s => .scifi l (atof s)) fun _ _ => rfl)) ?_
  refine alike_match .kwTrue (tracks_pure (hlit (e := fun l _ => .bool l true) fun _ _ => rfl)) ?_
  refine alike_match .kwFalse (tracks_pure (hlit (e := fun l _ => .bool l false) fun _ _ => rfl)) ?_
  refine alike_match .stringLit (alike_parseStringLiteralToken ht) ?_
  refine alike_match .ident (tracks_pure (hlit (e := .ident) fun _ _ => rfl)) ?_
  refine alike_match .typeTask
    (tracks_pure (hlit (e := fun l _ => .ident l (txt "Task")) fun _ _ => rfl)) ?_
  refine alike_match .kwThis
    (tracks_pure (hlit (e := fun l _ => .ident l (txt "this")) fun _ _ => rfl)) ?_
  refine alike_match .kwSuper
    (tracks_pure (hlit (e := fun l _ => .ident l (txt "super")) fun _ _ => rfl)) ?_
  refine alike_match .kwNew (alike_parseNew hr ht) ?_
  refine alike_match .kwAwait (hr.assignment.bind fun e e' he => tracks_pure ?_) ?_
  · simp only [SameUnder, Expr.mapLines, ht.line, he]
  refine alike_match .kwFun ((alike_matchT .kwAsync).bind fun b b' hb => ?_) ?_
  · subst hb
    exact alike_parseFuncLit hr ht b
  refine alike_match .kwAsync (alike_parseFuncLit hr ht true) ?_
  refine alike_match .lparen
    (hr.assignment.bind fun e e' he => Tracks.expect _ _ (tracks_pure he)) ?_
  refine alike_match .lbracket ((alike_listUntil hr.assignment).bind fun items items' hitems =>
    Tracks.expect _ _ (tracks_pure ?_)) ?_
  · simp only [SameUnder, Expr.mapLines, exprsMapLines_eq, ht.line, hitems]
  refine alike_match .lbrace ((alike_listUntil (alike_parseDataEntry hr)).bind fun es es' hes =>
    Tracks.expect _ _ (tracks_pure ?_)) ?_
  · simp only [SameUnder, Expr.mapLines, entriesMapLines_eq, ht.line, hes]
  exact (alike_recover ht _).then fun _ _ =>
    tracks_pure (hlit (e := fun l _ => .bool l false) fun _ _ => rfl)

theorem alike_parseCallArgs (hr : r.Alike f) :
    Alike f (List.map (Expr.mapLines f)) (parseCallArgs r) (parseCallArgs r) :=
  (alike_parseArgList hr).bind fun _ _ hargs => Tracks.expect _ _ (tracks_pure hargs)

theorem alike_parseMemberName : Alike f id parseMemberName parseMemberName := by
  refine alike_cur fun nm nm' hnm => ?_
  have hname : Tracks (Relined f) AnyTwo (expectMemberName nm) (expectMemberName nm') :=
    tracks_ite (by rw [hnm.type]) alike_advance (alike_expect _ _)
  exact hname.then fun _ _ => tracks_pure hnm.lexeme

theorem alike_postfixLoop (hr : r.Alike f) (k : ℕ) :
    ∀ {e e' : Expr}, SameUnder (Expr.mapLines f) e e' →
      Alike f (Expr.mapLines f) (postfixLoop r k e) (postfixLoop r k e') := by
  induction k with
  | zero => exact fun _ => alike_outOfDepth
  | succ k ih =>
    intro e e' he
    have hline := Expr.line_of_mapLines he
    refine alike_match .dot ?_ (alike_match .lbracket ?_ (alike_match .lparen ?_ (tracks_pure he)))
    · refine alike_parseMemberName.bind fun name name' hname => ?_
      have hmember : SameUnder (Expr.mapLines f) (.member e.line e name) (.member e'.line e' name') := by
        simp only [SameUnder, Expr.mapLines, hline, he, hname.eq]
      refine alike_match .lparen ((alike_parseCallArgs hr).bind fun args args' hargs => ih ?_)
        (ih hmember)
      simp only [SameUnder, Expr.mapLines, exprsMapLines_eq, hargs, hline] at hmember ⊢
      rw [hmember]
    · refine hr.assignment.bind fun idx idx' hidx => Tracks.expect _ _ (ih ?_)
      simp only [SameUnder, Expr.mapLines, hline, he, hidx]
    · refine (alike_parseCallArgs hr).bind fun args args' hargs => ih ?_
      simp only [SameUnder, Expr.mapLines, exprsMapLines_eq, hline, he, hargs]

theorem alike_parsePostfix (hr : r.Alike f) :
    Alike f (Expr.mapLines f) (parsePostfix r) (parsePostfix r) :=
  (alike_parsePrimary hr).bind fun _ _ he => alike_postfixLoop hr r.turns he

theorem alike_parseUnary (hr : r.Alike f) :
    Alike f (Expr.mapLines f) (parseUnary r) (parseUnary r) := by
  refine alike_cur fun op op' hop => tracks_ite (by rw [hop.type]) ?_ (alike_parsePostfix hr)
  refine alike_advance.then fun _ _ => hr.unary.bind fun e e' he => tracks_pure ?_
  simp only [SameUnder, Expr.mapLines, hop.line, hop.type, he]

theorem alike_parsePower (hr : r.Alike f) :
    Alike f (Expr.mapLines f) (parsePower r) (parsePower r) := by
  refine (alike_parseUnary hr).bind fun left left' hleft => alike_match .pow ?_ (tracks_pure hleft)
  refine hr.power.bind fun right right' hright => tracks_pure ?_
  simp only [SameUnder, Expr.mapLines, Expr.line_of_mapLines hleft, hleft, hright]

/-- A level whose lines are those of the operators. -/
theorem alike_parseLevel {ops : List TokenType} {operand : P Expr}
    (h : Alike f (Expr.mapLines f) operand operand) :
    Alike f (Expr.mapLines f) (parseLevel r ops operand fun op _ => op.line)
      (parseLevel r ops operand fun op _ => op.line) :=
  h.bind fun _ _ hleft => alike_binaryLoop h (fun _ _ _ _ hop _ => hop.line) r.turns hleft

/-- A level whose lines are those of the left operands. -/
theorem alike_parseLevel_left {ops : List TokenType} {operand : P Expr}
    (h : Alike f (Expr.mapLines f) operand operand) :
    Alike f (Expr.mapLines f) (parseLevel r ops operand fun _ left => left.line)
      (parseLevel r ops operand fun _ left => left.line) :=
  h.bind fun _ _ hleft =>
    alike_binaryLoop h (fun _ _ _ _ _ he => Expr.line_of_mapLines he) r.turns hleft

theorem alike_parseBetween (hr : r.Alike f) :
    Alike f (Expr.mapLines f) (parseBetween r) (parseBetween r) := by
  have hshift : Alike f (Expr.mapLines f) (parseShift r) (parseShift r) :=
    alike_parseLevel (alike_parseLevel (alike_parseLevel (alike_parsePower hr)))
  refine hshift.bind fun left left' hleft => alike_match .between ?_ (tracks_pure hleft)
  refine Tracks.expect _ _ (hr.assignment.bind fun low low' hlow => Tracks.expect _ _ ?_)
  refine hr.assignment.bind fun high high' hhigh => Tracks.expect _ _ (tracks_pure ?_)
  simp only [SameUnder, Expr.mapLines, Expr.line_of_mapLines hleft, hleft, hlow, hhigh]

theorem alike_parseTernary (hr : r.Alike f) :
    Alike f (Expr.mapLines f) (parseTernary r) (parseTernary r) := by
  have hor : Alike f (Expr.mapLines f) (parseOr r) (parseOr r) :=
    alike_parseLevel_left (alike_parseLevel_left
      (alike_parseLevel (alike_parseLevel (alike_parseBetween hr))))
  refine hor.bind fun cond cond' hcond => alike_match .question ?_ (tracks_pure hcond)
  refine hr.assignment.bind fun thenE thenE' hthen => Tracks.expect _ _ ?_
  refine hr.assignment.bind fun elseE elseE' helse => tracks_pure ?_
  simp only [SameUnder, Expr.mapLines, Expr.line_of_mapLines hcond, hcond, hthen, helse]

theorem alike_parseAssignment (hr : r.Alike f) :
    Alike f (Expr.mapLines f) (parseAssignment r) (parseAssignment r) := by
  refine (alike_parseTernary hr).bind fun left left' hleft => alike_cur fun op op' hop => ?_
  refine tracks_ite (by rw [hop.type]) ?_ (tracks_pure hleft)
  refine alike_advance.then fun _ _ => hr.assignment.bind fun value value' hvalue => tracks_pure ?_
  simp only [SameUnder, Expr.mapLines, hop.line, hop.type, hleft, hvalue]

end Expressions

/-! ### Statements -/

section Statements

variable {f : ℕ → ℕ} {r : Rec}

theorem alike_parseCondition (hr : r.Alike f) (opening closing : String) :
    Alike f (Expr.mapLines f) (parseCondition r opening closing)
      (parseCondition r opening closing) :=
  Tracks.expect _ _ ((alike_parseAssignment hr).bind fun _ _ hcond =>
    Tracks.expect _ _ (tracks_pure hcond))

/-- The initialiser and the semicolon that end a declaration. -/
theorem alike_initialiser (hr : r.Alike f) (what : String) {decl decl' : Option Expr → Stmt}
    (hdecl : ∀ init init', SameUnder (Option.map (Expr.mapLines f)) init init' →
      SameUnder (Stmt.mapLines f) (decl init) (decl' init')) :
    Alike f (Stmt.mapLines f)
      (matchT .assign >>= fun b =>
        if b then parseExpr r >>= fun init => expect .semi what >>= fun _ => pure (decl (some init))
        else expect .semi what >>= fun _ => pure (decl none))
      (matchT .assign >>= fun b =>
        if b then parseExpr r >>= fun init => expect .semi what >>= fun _ => pure (decl' (some init))
        else expect .semi what >>= fun _ => pure (decl' none)) :=
  alike_match .assign
    ((alike_parseAssignment hr).bind fun _ _ hinit =>
      Tracks.expect _ _ (tracks_pure (hdecl _ _ (congrArg some hinit))))
    (Tracks.expect _ _ (tracks_pure (hdecl none none rfl)))

theorem alike_parseVarOrFixed (hr : r.Alike f) (isFixed : Bool) :
    Alike f (Stmt.mapLines f) (parseVarOrFixed r isFixed) (parseVarOrFixed r isFixed) := by
  refine alike_cur fun nm nm' hnm => Tracks.expect _ _ ?_
  refine ( alike_parseTypeAnnotation hr _).bind fun type type' htype => ?_
  refine @alike_initialiser f r hr _ (fun init => .varDecl nm.line nm.lexeme type init isFixed)
    (fun init => .varDecl nm'.line nm'.lexeme type' init isFixed) fun init init' hinit => ?_
  simp only [SameUnder, Stmt.mapLines, optExprMapLines_eq, hnm.line, hnm.lexeme, htype.eq, hinit]

theorem alike_parseFunDecl (hr : r.Alike f) (isAsync : Bool) :
    Alike f (Stmt.mapLines f) (parseFunDecl r isAsync) (parseFunDecl r isAsync) := by
  refine alike_cur fun nm nm' hnm => Tracks.expect _ _ (Tracks.expect _ _ ?_)
  refine (alike_listUntil (alike_parseParam hr)).bind fun params params' hparams => ?_
  refine Tracks.expect _ _ (( alike_parseTypeAnnotation hr _).bind fun ret ret' hret => ?_)
  refine hr.block.bind fun body body' hbody => tracks_pure ?_
  simp only [SameUnder, Stmt.mapLines, hnm.line, hnm.lexeme, hparams.list_eq, hret.eq, hbody]

theorem alike_elifLoop (hr : r.Alike f) (k : ℕ) :
    Alike f (List.map (Prod.map (Expr.mapLines f) (Stmt.mapLines f))) (elifLoop r k)
      (elifLoop r k) := by
  induction k with
  | zero => exact alike_outOfDepth
  | succ k ih =>
    refine alike_match .kwElif ?_ (tracks_pure rfl)
    refine (alike_parseCondition hr _ _).bind fun cond cond' hcond => ?_
    refine hr.block.bind fun body body' hbody => ih.bind fun elifs elifs' helifs => tracks_pure ?_
    simp only [SameUnder, List.map_cons, Prod.map_apply, hcond, hbody, helifs]

theorem alike_parseIf (hr : r.Alike f) :
    Alike f (Stmt.mapLines f) (parseIf r) (parseIf r) := by
  refine alike_cur fun t t' ht => (alike_parseCondition hr _ _).bind fun cond cond' hcond => ?_
  refine hr.block.bind fun thenB thenB' hthen => ?_
  refine (alike_elifLoop hr r.turns).bind fun elifs elifs' helifs => alike_match .kwElse ?_ ?_
  · refine hr.block.bind fun elseB elseB' helse => tracks_pure ?_
    simp only [SameUnder, Stmt.mapLines, elifsMapLines_eq, optStmtMapLines_eq, Option.map_some,
      ht.line, hcond, hthen, helifs, helse]
  · refine tracks_pure ?_
    simp only [SameUnder, Stmt.mapLines, elifsMapLines_eq, ht.line, hcond, hthen, helifs]

section

variable {line line' : ℕ} (hline : f line' = f line)

include hline

theorem alike_parseReturn (hr : r.Alike f) :
    Alike f (Stmt.mapLines f) (parseReturn r line) (parseReturn r line') := by
  refine alike_match .semi (tracks_pure ?_) ((alike_parseAssignment hr).bind fun e e' he =>
    Tracks.expect _ _ (tracks_pure ?_))
  · simp only [SameUnder, Stmt.mapLines, hline]
  · simp only [SameUnder, Stmt.mapLines, optExprMapLines_eq, Option.map_some, hline, he]

theorem alike_parseLoopWhile (hr : r.Alike f) :
    Alike f (Stmt.mapLines f) (parseLoopWhile r line) (parseLoopWhile r line') := by
  refine (alike_parseCondition hr _ _).bind fun cond cond' hcond => ?_
  refine hr.block.bind fun body body' hbody => tracks_pure ?_
  simp only [SameUnder, Stmt.mapLines, hline, hcond, hbody]

theorem alike_parseDoWhile (hr : r.Alike f) :
    Alike f (Stmt.mapLines f) (parseDoWhile r line) (parseDoWhile r line') := by
  refine Tracks.expect _ _ (hr.block.bind fun body body' hbody => Tracks.expect _ _ ?_)
  refine (alike_parseCondition hr _ _).bind fun cond cond' hcond =>
    Tracks.expect _ _ (tracks_pure ?_)
  simp only [SameUnder, Stmt.mapLines, hline, hcond, hbody]

theorem alike_parseForIn (hr : r.Alike f) :
    Alike f (Stmt.mapLines f) (parseForIn r line) (parseForIn r line') := by
  have hcondition : Alike f (Option.map (Expr.mapLines f)) (parseForCondition r)
      (parseForCondition r) :=
    alike_match .comma
      ((alike_parseAssignment hr).bind fun _ _ hcond => tracks_pure (congrArg some hcond))
      (tracks_pure rfl)
  refine Tracks.expect _ _ (alike_cur fun nm nm' hnm => Tracks.expect _ _ (Tracks.expect _ _ ?_))
  refine (alike_parseAssignment hr).bind fun iterable iterable' hiterable => ?_
  refine hcondition.bind fun cond cond' hcond => Tracks.expect _ _ ?_
  refine hr.block.bind fun body body' hbody => tracks_pure ?_
  simp only [SameUnder, Stmt.mapLines, optExprMapLines_eq, hline, hnm.lexeme, hiterable, hcond, hbody]

theorem alike_parseIterate (hr : r.Alike f) :
    Alike f (Stmt.mapLines f) (parseIterate r line) (parseIterate r line') := by
  refine Tracks.expect _ _ ((alike_parseAssignment hr).bind fun coll coll' hcoll => ?_)
  refine Tracks.expect _ _ (alike_cur fun nm nm' hnm => Tracks.expect _ _ (Tracks.expect _ _ ?_))
  refine hr.block.bind fun body body' hbody => tracks_pure ?_
  simp only [SameUnder, Stmt.mapLines, hline, hnm.lexeme, hcoll, hbody]

omit hline in
theorem alike_someStmt {m m' : P Stmt} (h : Alike f (Stmt.mapLines f) m m') :
    Alike f (Option.map (Stmt.mapLines f)) (some <$> m) (some <$> m') :=
  h.bind fun a a' hs => tracks_pure
    (show SameUnder (Option.map (Stmt.mapLines f)) (some a) (some a') from congrArg some hs)

omit hline in
theorem alike_parseClassMember (hr : r.Alike f) :
    Alike f (Option.map (Stmt.mapLines f)) (parseClassMember r) (parseClassMember r) := by
  refine alike_match .kwVar (alike_someStmt (alike_parseVarOrFixed hr _)) ?_
  refine alike_match .kwFixed (alike_someStmt (alike_parseVarOrFixed hr _)) ?_
  refine alike_match .kwFun (alike_someStmt (alike_parseFunDecl hr _)) ?_
  exact alike_cur fun t t' ht => (alike_errorAt ht _).then fun _ _ =>
    alike_advance.then fun _ _ => tracks_pure rfl

theorem alike_parseClass (hr : r.Alike f) :
    Alike f (Stmt.mapLines f) (parseClass r line) (parseClass r line') := by
  have hvisibility : Alike f id parseVisibility parseVisibility :=
    alike_match .kwPublic (tracks_pure rfl) (alike_match .kwPrivate (tracks_pure rfl) (tracks_pure rfl))
  have hparent : Alike f id parseParentName parseParentName :=
    alike_match .kwExtends (alike_cur fun pnm pnm' hpnm =>
      Tracks.expect _ _ (tracks_pure (congrArg some hpnm.lexeme))) (tracks_pure rfl)
  refine hvisibility.bind fun vis vis' hvis => Tracks.expect _ _ ?_
  refine alike_cur fun nm nm' hnm => Tracks.expect _ _ ?_
  refine hparent.bind fun parent parent' hparent' => Tracks.expect _ _ ?_
  refine (alike_untilBrace (alike_parseClassMember hr) r.turns).bind fun ms ms' hms =>
    Tracks.expect _ _ (tracks_pure ?_)
  simp only [SameUnder, Stmt.mapLines, stmtsMapLines_eq, hline, hnm.lexeme, hms, hvis.eq, hparent'.eq]

theorem alike_parseEnum : Alike f (Stmt.mapLines f) (parseEnum r line) (parseEnum r line') := by
  have hvalue : Alike f id parseEnumValue parseEnumValue :=
    alike_cur fun _ _ hv => Tracks.expect _ _ (tracks_pure hv.lexeme)
  refine alike_cur fun nm nm' hnm => Tracks.expect _ _ (Tracks.expect _ _ ?_)
  refine (alike_listUntil hvalue).bind fun vals vals' hvals => Tracks.expect _ _ (tracks_pure ?_)
  simp only [SameUnder, Stmt.mapLines, hline, hnm.lexeme, hvals.list_eq]

theorem alike_parseStruct (hr : r.Alike f) :
    Alike f (Stmt.mapLines f) (parseStruct r line) (parseStruct r line') := by
  have hfield : Alike f (Option.map id) (parseField r) (parseField r) :=
    alike_cur fun nm nm' hnm => Tracks.expect _ _ <| Tracks.expect _ _ <|
      (alike_parseType hr).bind fun ft ft' hft => Tracks.expect _ _ <| tracks_pure (by
        simp only [SameUnder, hnm.lexeme, hft.eq])
  refine alike_cur fun nm nm' hnm => Tracks.expect _ _ (Tracks.expect _ _ ?_)
  refine (alike_untilBrace hfield r.turns).bind fun fields fields' hfields =>
    Tracks.expect _ _ (tracks_pure ?_)
  simp only [SameUnder, Stmt.mapLines, hline, hnm.lexeme, hfields.list_eq]

theorem alike_parseVector (hr : r.Alike f) :
    Alike f (Stmt.mapLines f) (parseVector r line) (parseVector r line') := by
  refine (alike_parseType hr).bind fun type type' htype => alike_cur fun nm nm' hnm => ?_
  refine Tracks.expect _ _ (@alike_initialiser f r hr _
    (fun init => .varDecl line nm.lexeme type init false)
    (fun init => .varDecl line' nm'.lexeme type' init false) fun init init' hinit => ?_)
  simp only [SameUnder, Stmt.mapLines, optExprMapLines_eq, hline, hnm.lexeme, htype.eq, hinit]

theorem alike_parseImport : Alike f (Stmt.mapLines f) (parseImport line) (parseImport line') := by
  have hpath : Alike f (Stmt.mapLines f) (parseImportPath line) (parseImportPath line') :=
    alike_cur fun path path' hpath => Tracks.expect _ _ <| Tracks.expect _ _ <| tracks_pure (by
      simp only [SameUnder, Stmt.mapLines, hline, hpath.lexeme])
  refine alike_cur fun nm nm' hnm => tracks_ite (by rw [hnm.type, hnm.lexeme]) ?_ hpath
  refine alike_advance.then fun _ _ => alike_cur fun t t' ht =>
    tracks_ite (by rw [ht.type, ht.lexeme]) ?_ ?_
  · exact alike_advance.then fun _ _ => hpath
  · exact (alike_errorAt ht _).then fun _ _ => hpath

theorem alike_parseExport : Alike f (Stmt.mapLines f) (parseExport line) (parseExport line') :=
  alike_cur fun _ _ hnm => Tracks.expect _ _ <| Tracks.expect _ _ <| tracks_pure (by
    simp only [SameUnder, Stmt.mapLines, hline, hnm.lexeme])

theorem alike_parseTry (hr : r.Alike f) :
    Alike f (Stmt.mapLines f) (parseTry r line) (parseTry r line') := by
  have htype : Tracks (Relined f) AnyTwo (parseCatchType r) (parseCatchType r) :=
    tracks_bool (alike_matchT .colon)
      ((alike_parseType hr).bind fun _ _ _ => tracks_pure trivial) (tracks_pure trivial)
  refine hr.block.bind fun tryB tryB' htry => Tracks.expect _ _ (Tracks.expect _ _ ?_)
  refine alike_cur fun nm nm' hnm => Tracks.expect _ _ (htype.then fun _ _ => ?_)
  refine Tracks.expect _ _ (hr.block.bind fun catchB catchB' hcatch => tracks_pure ?_)
  simp only [SameUnder, Stmt.mapLines, hline, hnm.lexeme, htry, hcatch]

theorem alike_parseExprStmt (hr : r.Alike f) :
    Alike f (Stmt.mapLines f) (parseExprStmt r line) (parseExprStmt r line') :=
  (alike_parseAssignment hr).bind fun _ _ he => Tracks.expect _ _ <| tracks_pure (by
    simp only [SameUnder, Stmt.mapLines, hline, he])

end

theorem alike_parseStatement (hr : r.Alike f) :
    Alike f (Stmt.mapLines f) (parseStatement r) (parseStatement r) := by
  refine alike_cur fun t t' ht => ?_
  refine alike_match .kwVar (alike_parseVarOrFixed hr _) ?_
  refine alike_match .kwFixed (alike_parseVarOrFixed hr _) ?_
  refine alike_match .kwIf (alike_parseIf hr) ?_
  refine alike_match .kwAsync (Tracks.expect _ _ (alike_parseFunDecl hr _)) ?_
  refine alike_match .kwFun (alike_parseFunDecl hr _) ?_
  refine alike_match .kwReturn (alike_parseReturn ht.line hr) ?_
  refine alike_match .kwLoop (alike_parseLoopWhile ht.line hr) ?_
  refine alike_match .kwDo (alike_parseDoWhile ht.line hr) ?_
  refine alike_match .kwFor (alike_parseForIn ht.line hr) ?_
  refine alike_match .kwIterate (alike_parseIterate ht.line hr) ?_
  refine tracks_ite (by rw [ht.type]) (alike_parseClass ht.line hr) ?_
  refine alike_match .typeEnum (alike_parseEnum ht.line) ?_
  refine alike_match .typeStruct (alike_parseStruct ht.line hr) ?_
  refine tracks_ite (by rw [ht.type]) (alike_parseVector ht.line hr) ?_
  refine alike_match .kwImport (alike_parseImport ht.line) ?_
  refine alike_match .kwExport (alike_parseExport ht.line) ?_
  refine alike_match .kwTry (alike_parseTry ht.line hr) ?_
  exact tracks_bool (alike_check .lbrace) hr.block (alike_parseExprStmt ht.line hr)

theorem alike_parseBlock (hr : r.Alike f) :
    Alike f (Stmt.mapLines f) (parseBlock r) (parseBlock r) := by
  refine alike_cur fun t t' ht => Tracks.expect _ _ ?_
  refine (alike_untilBrace (alike_someStmt (alike_parseStatement hr)) r.turns).bind
    fun stmts stmts' hstmts => Tracks.expect _ _ (tracks_pure ?_)
  simp only [SameUnder, Stmt.mapLines, stmtsMapLines_eq, ht.line, hstmts]

variable (f) in
theorem recAt_alike (n : ℕ) : (recAt n).Alike f := by
  induction n with
  | zero =>
    exact ⟨alike_outOfDepth, alike_outOfDepth, alike_outOfDepth, alike_outOfDepth, alike_outOfDepth⟩
  | succ n ih =>
    exact ⟨alike_parseType ih, alike_parseAssignment ih, alike_parseUnary ih, alike_parsePower ih,
      alike_parseBlock ih⟩

theorem alike_programLoop (hr : r.Alike f) (k : ℕ) :
    Alike f (List.map (Stmt.mapLines f)) (programLoop r k) (programLoop r k) := by
  induction k with
  | zero => exact alike_outOfDepth
  | succ k ih =>
    refine tracks_bool (alike_check .eof) (tracks_pure rfl) ?_
    refine (alike_parseStatement hr).bind fun s s' hs => tracks_bool alike_hadError ?_ ?_
    · exact tracks_pure (by simp only [SameUnder, List.map_cons, hs])
    · refine ih.bind fun stmts stmts' hstmts => tracks_pure ?_
      simp only [SameUnder, List.map_cons, hs, hstmts]

end Statements

/-! ### Programs -/

/-- The statements of a program and the messages about it, with other line numbers, and what the
parsers of its holes report. -/
def parsedUnder (f : ℕ → ℕ) (n : ℕ) (source : Text) : Option (List Stmt ×
    List (TokenType × Text × ℕ × String) × List (Text × List ParseError × ℕ)) :=
  (runProgram n source).map fun x => (x.1.map (Stmt.mapLines f),
    x.2.errors.map (ParseError.message f), x.2.nested.map NestedParse.report)

/-- **The programs and the messages agree if the tokens do.** -/
theorem parsedUnder_eq {f : ℕ → ℕ} {source source' : Text}
    (htoks : List.Forall₂ (Token.Like f) (tokenize source).1 (tokenize source').1)
    (heof : f (tokenize source').2 = f (tokenize source).2) (n : ℕ) :
    parsedUnder f n source' = parsedUnder f n source := by
  have htracks := alike_programLoop (recAt_alike f n) (n + 1)
  have hstart : Relined f (initParser source) (initParser source') := ⟨htoks, heof, rfl, rfl⟩
  have hback : Relined f (initParser source') (initParser source) := by
    refine ⟨?_, heof.symm, rfl, rfl⟩
    exact htoks.flip.imp fun t t' h => ⟨h.type.symm, h.lexeme.symm, h.line.symm⟩
  cases hrun : runProgram n source with
  | none =>
    cases hrun' : runProgram n source' with
    | none => rw [parsedUnder, parsedUnder, hrun, hrun', Option.map_none]
    | some x =>
      -- the runs cannot differ in running out of depth
      obtain ⟨_, _, hother, -⟩ := htracks _ _ hback x.1 x.2 hrun'
      rw [runProgram, hother] at hrun
      cases hrun
  | some x =>
    obtain ⟨stmts', s', hrun', hs, hstmts⟩ := htracks _ _ hstart x.1 x.2 hrun
    have hsame : runProgram n source' = some (stmts', s') := hrun'
    rw [parsedUnder, parsedUnder, hrun, hsame, Option.map_some, Option.map_some, hs.messages,
      hs.nested, hstmts]

end Jaguar
