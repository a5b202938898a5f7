/-
When `infer_type` is right.

What a function is declared to return, nothing enforces; it is so if the type of every expression
that its body returns rests on literals and operators only. The names that are trusted are those of
a state before the evaluation: what the variables hold there, and the bodies of the functions and of
the methods that the names mean there.

* `Stmt.Yields`, `ReturnsOnly` — what a body returns;
* `bodyKeeps_of_returnsOnly` — **such a body returns what is declared**;
* `trusted` — what a type may rest on in a state;
* `inferType_right` — **the inferred type of a firm expression is right**, and for an operator and
  two variables only that of a firm one is;
* `truthSum_misjudged` — `true + 1`.
-/
import Jaguar.Inference

namespace Jaguar

/-! ### What a body returns -/

/-- The statement returns the value of this expression. What the block of a `try` returns is
dropped. -/
inductive Stmt.Yields (e : Expr) : Stmt → Prop
  | ret (line : ℕ) : Yields e (.ret line (some e))
  | thenB {line : ℕ} {cond : Expr} {thenB : Stmt} {elifs : List (Expr × Stmt)}
      {elseB : Option Stmt} : Yields e thenB → Yields e (.ifStmt line cond thenB elifs elseB)
  | elif {line : ℕ} {cond : Expr} {thenB : Stmt} {elifs : List (Expr × Stmt)}
      {elseB : Option Stmt} {branch : Expr × Stmt} : branch ∈ elifs → Yields e branch.2 →
      Yields e (.ifStmt line cond thenB elifs elseB)
  | elseB {line : ℕ} {cond : Expr} {thenB elseB : Stmt} {elifs : List (Expr × Stmt)} :
      Yields e elseB → Yields e (.ifStmt line cond thenB elifs (some elseB))
  | loopWhile {line : ℕ} {cond : Expr} {body : Stmt} : Yields e body →
      Yields e (.loopWhile line cond body)
  | doWhile {line : ℕ} {cond : Expr} {body : Stmt} : Yields e body →
      Yields e (.doWhile line cond body)
  | forIn {line : ℕ} {var : Text} {iterable : Expr} {cond : Option Expr} {body : Stmt} :
      Yields e body → Yields e (.forIn line var iterable cond body)
  | iterate {line : ℕ} {collection : Expr} {item : Text} {body : Stmt} : Yields e body →
      Yields e (.iterate line collection item body)
  | block {line : ℕ} {stmts : List Stmt} {s : Stmt} : s ∈ stmts → Yields e s →
      Yields e (.block line stmts)
  | catchB {line : ℕ} {tryB catchB : Stmt} {errName : Text} : Yields e catchB →
      Yields e (.tryCatch line tryB errName catchB)

/-- Whatever its variables hold, the value of the expression is of this type. -/
def Sure (classes : ClassTable) (t : TypeInfo) (e : Expr) : Prop :=
  ∃ scope u, Firm classes scope .none e ∧ inferred classes scope e = some u ∧ u.Known ∧
    typeFamily u.kind = typeFamily t.kind

def ReturnsOnly (classes : ClassTable) (t : TypeInfo) (body : List Stmt) : Prop :=
  ∀ s ∈ body, ∀ e, s.Yields e → Sure classes t e

/-- What a statement returns, if it succeeds, is of the type. -/
def ReturnsTo {ω : Type} (t : TypeInfo) (o : Exec.Outcome (Machine ω) Act ExecResult) : Prop :=
  ∀ v, o.value = some (.ret v) → o.state.it.hadRuntimeError = false → o.state.heap.Holds t v

section ReturnsTo

variable {ω α : Type} {s : Machine ω} {t : TypeInfo} {m : Prog ω ExecResult}

theorem returnsTo_none : ReturnsTo t ((pure .none : Prog ω ExecResult) s) := by
  intro v hv
  cases hv

theorem ReturnsTo.bind {m : Prog ω α} {f : α → Prog ω ExecResult}
    (h : ∀ a, (m s).value = some a → ReturnsTo t (f a (m s).state)) :
    ReturnsTo t ((m >>= f) s) := by
  intro v hv hclear
  obtain ⟨a, ha, hfa, -⟩ := Exec.exists_of_bind hv
  rw [Exec.bind_of_some ha] at hclear ⊢
  exact h a ha v hfa hclear

theorem ReturnsTo.unlessError (h : s.it.hadRuntimeError = false → ReturnsTo t (m s)) :
    ReturnsTo t (unlessError .none m s) := by
  cases hpending : s.it.hadRuntimeError with
  | true =>
    rw [unlessError_of_pending hpending]
    exact returnsTo_none
  | false =>
    rw [unlessError_of_clear hpending]
    exact h hpending

/-- What was returned is handed on. -/
theorem ReturnsTo.handOn (h : ReturnsTo t (m s)) {v : Value} (hv : (m s).value = some (.ret v)) :
    ReturnsTo t ((pure (.ret v) : Prog ω ExecResult) (m s).state) := by
  intro w hw hclear
  obtain rfl := ExecResult.ret.inj (Option.some.inj hw)
  exact h v hv hclear

/-- A turn of a loop, and what follows it. -/
theorem ReturnsTo.turn {next : Prog ω ExecResult} (h : ReturnsTo t (m s))
    (hnext : ∀ s', ReturnsTo t (next s')) :
    ReturnsTo t ((m >>= fun r => afterTurn r next) s) := by
  refine .bind fun r hr => ?_
  cases r with
  | ret v => exact h.handOn hr
  | none => exact .unlessError fun _ => hnext _

end ReturnsTo

section Bodies

variable {ω : Type} [Host ω] {classes : ClassTable} {t : TypeInfo} {n : ℕ}

/-- The statements one level down return what is declared. -/
def Evaluator.Returns (R : Evaluator ω) (classes : ClassTable) (t : TypeInfo) : Prop :=
  ∀ (b : Stmt) (env : Env) (s : Machine ω), (∀ e, b.Yields e → Sure classes t e) →
    ReturnsTo t (R.execStmt b env s)

theorem Sure.keepsTo {e : Expr} (h : Sure classes t e) (env : Env) (s : Machine ω) :
    KeepsTo t ((evaluator n).evalExpr e env s) := by
  obtain ⟨scope, u, hfirm, hu, hknown, hfamily⟩ := h
  intro v hv hclear
  have hholds : KeepsTo u ((evaluator n).evalExpr e env s) :=
    keepsType e n s .none u (Trust.valid_none scope env s) hfirm hu hknown
  exact (hholds v hv hclear).imp_right fun hfits => hfits.trans (congrArg some hfamily)

variable {R : Evaluator ω} (hR : R.Returns classes t)

include hR

omit [Host ω] in
theorem returnsTo_execStmts (list : List Stmt) (env : Env) (s : Machine ω)
    (h : ReturnsOnly classes t list) : ReturnsTo t (execStmts R list env s) := by
  induction list generalizing s with
  | nil => exact returnsTo_none
  | cons b rest ih =>
    have hfirst := hR b env s (h b List.mem_cons_self)
    refine .bind fun r hr => ?_
    cases r with
    | ret v => exact hfirst.handOn hr
    | none => exact .unlessError fun _ => ih _ fun b hb => h b (List.mem_cons_of_mem _ hb)

omit [Host ω] in
theorem returnsTo_execBlock (list : List Stmt) (env : Env) (s : Machine ω)
    (h : ReturnsOnly classes t list) : ReturnsTo t (execBlock R list env s) :=
  .bind fun env' _ => .bind fun _ _ => returnsTo_execStmts hR list env' _ h

omit [Host ω] in
theorem returnsTo_execElifs (elifs : List (Expr × Stmt)) (elseB : Option Stmt) (env : Env)
    (s : Machine ω) (helifs : ∀ branch ∈ elifs, ∀ e, branch.2.Yields e → Sure classes t e)
    (helse : ∀ b ∈ elseB, ∀ e, b.Yields e → Sure classes t e) :
    ReturnsTo t (execElifs R elifs elseB env s) := by
  induction elifs generalizing s with
  | nil =>
    cases elseB with
    | some b => exact hR b env s (helse b rfl)
    | none => exact returnsTo_none
  | cons branch elifs ih =>
    refine .bind fun _ _ => .bind fun taken _ => ?_
    cases taken with
    | true => exact hR branch.2 env _ (helifs branch List.mem_cons_self)
    | false => exact ih _ fun b hb => helifs b (List.mem_cons_of_mem _ hb)

omit [Host ω] in
theorem returnsTo_loopWhile {body : Stmt} (hbody : ∀ e, body.Yields e → Sure classes t e)
    (cond : Expr) (env : Env) (k : ℕ) (s : Machine ω) :
    ReturnsTo t (loopWhile R cond body env k s) := by
  induction k generalizing s with
  | zero =>
    intro v hv
    cases hv
  | succ k ih =>
    refine .bind fun _ _ => .bind fun taken _ => ?_
    cases taken with
    | true => exact .unlessError fun _ => (hR body env _ hbody).turn ih
    | false => exact returnsTo_none

omit [Host ω] in
theorem returnsTo_doWhile {body : Stmt} (hbody : ∀ e, body.Yields e → Sure classes t e)
    (cond : Expr) (env : Env) (k : ℕ) (s : Machine ω) :
    ReturnsTo t (doWhile R cond body env k s) := by
  induction k generalizing s with
  | zero =>
    intro v hv
    cases hv
  | succ k ih =>
    refine (hR body env s hbody).turn fun s' => .bind fun _ _ => .bind fun again _ => ?_
    cases again with
    | true => exact .unlessError fun _ => ih _
    | false => exact returnsTo_none

omit [Host ω] in
theorem returnsTo_overNodes {body : Stmt} (hbody : ∀ e, body.Yields e → Sure classes t e)
    (var : Text) (cond : Option Expr) (env : Env) (k : ℕ) (cur : Option ℕ) (s : Machine ω) :
    ReturnsTo t (overNodes R var cond body env k cur s) := by
  induction k generalizing cur s with
  | zero =>
    cases cur with
    | none => exact returnsTo_none
    | some p =>
      intro v hv
      cases hv
  | succ k ih =>
    cases cur with
    | none => exact returnsTo_none
    | some p =>
      refine .bind fun _ _ => .bind fun loopEnv _ => .bind fun _ _ => .bind fun made _ => ?_
      have hnext : ∀ s', ReturnsTo t ((nextNode p >>= fun next =>
          overNodes R var cond body env k next : Prog ω ExecResult) s') := fun _ =>
        .bind fun next _ => ih next _
      cases made with
      | true => exact (hR body loopEnv _ hbody).turn hnext
      | false => exact hnext _

omit [Host ω] in
theorem returnsTo_overValues {body : Stmt} (hbody : ∀ e, body.Yields e → Sure classes t e)
    (var : Text) (env : Env) (vals : List Value) (s : Machine ω) :
    ReturnsTo t (overValues R var body env vals s) := by
  induction vals generalizing s with
  | nil => exact returnsTo_none
  | cons v vals ih =>
    exact .bind fun loopEnv _ => .bind fun _ _ => (hR body loopEnv _ hbody).turn ih

end Bodies

/-- **A statement returns what is declared**, if its expressions are sure. -/
theorem evaluator_returns {ω : Type} [Host ω] (classes : ClassTable) (t : TypeInfo) (n : ℕ) :
    (evaluator n : Evaluator ω).Returns classes t := by
  induction n with
  | zero =>
    intro b env s _ v hv
    cases hv
  | succ n ih =>
    intro b env s hb
    refine ReturnsTo.unlessError fun _ => ?_
    cases b with
    | varDecl line name type init isFixed =>
      exact .bind fun _ _ => .unlessError fun _ => .bind fun _ _ => returnsTo_none
    | expr line e => exact .bind fun _ _ => returnsTo_none
    | ifStmt line cond thenB elifs elseB =>
      refine .bind fun _ _ => .unlessError fun _ => .bind fun taken _ => ?_
      cases taken with
      | true => exact ih thenB env _ fun e he => hb e (.thenB he)
      | false =>
        refine returnsTo_execElifs ih elifs elseB env _ (fun branch hbranch e he => ?_) ?_
        · exact hb e (.elif hbranch he)
        · rintro b rfl e he
          exact hb e (.elseB he)
    | loopWhile line cond body =>
      exact returnsTo_loopWhile ih (fun e he => hb e (.loopWhile he)) cond env n s
    | doWhile line cond body =>
      exact returnsTo_doWhile ih (fun e he => hb e (.doWhile he)) cond env n s
    | forIn line var iterable cond body =>
      refine .bind fun coll _ => ?_
      cases coll with
      | list l =>
        exact .bind fun head _ =>
          returnsTo_overNodes ih (fun e he => hb e (.forIn he)) var cond env n head _
      | _ => exact .bind fun _ _ => returnsTo_none
    | iterate line collection item body =>
      have hbody := fun e he => hb e (.iterate he)
      refine .bind fun coll _ => ?_
      cases coll with
      | list l =>
        exact .bind fun head _ => returnsTo_overNodes ih hbody item none env n head _
      | data d => exact .bind fun vals _ => returnsTo_overValues ih hbody item env vals _
      | _ => exact .bind fun _ _ => returnsTo_none
    | ret line value =>
      cases value with
      | none =>
        intro v hv _
        obtain rfl := ExecResult.ret.inj (Option.some.inj hv)
        exact .inl rfl
      | some e =>
        refine .bind fun w hw v hv hclear => ?_
        obtain rfl := ExecResult.ret.inj (Option.some.inj hv)
        exact (hb e (.ret line)).keepsTo env s w hw hclear
    | block line stmts =>
      exact returnsTo_execBlock ih stmts env s fun b hb' e he => hb e (.block hb' he)
    | tryCatch line tryB errName catchB =>
      refine .bind fun saved _ => .bind fun _ _ => .bind fun _ _ => .bind fun failed _ => ?_
      cases failed with
      | true =>
        exact .bind fun catchEnv _ => .bind fun _ _ => .bind fun _ _ => .bind fun _ _ =>
          ih catchB catchEnv _ fun e he => hb e (.catchB he)
      | false => exact .bind fun _ _ => returnsTo_none
    | funDecl | classDecl | enumDecl | structDecl | importStmt | exportStmt | brk | cont =>
      exact returnsTo_none

/-- **The value of a body.** -/
theorem bodyKeeps_of_returnsOnly {ω : Type} [Host ω] {classes : ClassTable} {t : TypeInfo}
    {body : List Stmt} (h : ReturnsOnly classes t body) : BodyKeeps ω t body :=
  fun n env s => returnsTo_execBlock (evaluator_returns classes t n) body env s h

/-! ### What may be trusted -/

/-- What a type may rest on in a memory: on the variables that are no functions' names, and on the
functions and methods whose bodies return what they are declared to return. -/
def trusted (classes : ClassTable) (scope : Scope) (env : Env) (h : Heap) : Trust where
  var name := ∀ sym, scopeFind scope name = some sym → sym.fnReturn = none
  call name := ∀ t f fv, callReturn scope name = some t → h.envGet env name = some (.func f) →
    h.funcs[f]? = some fv → ReturnsOnly classes t fv.body.stmts
  method name t := ∀ ci ∈ h.classes, ∀ m ∈ ci.members, Heap.isMethod name m = true →
    ReturnsOnly classes t m.body
  fixed name := ∃ v, h.FixedName env name v ∧ ∀ p, v ≠ .native p

theorem valid_trusted {ω : Type} [Host ω] {scope : Scope} {env : Env} {s : Machine ω}
    (classes : ClassTable) (hagrees : Agrees scope env s.heap) :
    (trusted classes scope env s.heap).Valid scope env s where
  var name t hvar ht hknown := by
    obtain ⟨sym, hsym, htype⟩ := Option.bind_eq_some_iff.mp ht
    exact hagrees.var name sym hsym (hvar sym hsym) t htype hknown
  call name t hcall ht := by
    obtain ⟨sym, hsym, hreturn⟩ := Option.bind_eq_some_iff.mp ht
    split at hreturn
    · obtain ⟨f, fv, hget, hf, -⟩ := hagrees.func name sym t hsym hreturn
      exact ⟨f, fv, hget, hf, bodyKeeps_of_returnsOnly (hcall t f fv ht hget hf)⟩
    · cases hreturn
  method name t hmethod ci hci m hm hname :=
    bodyKeeps_of_returnsOnly (hmethod ci hci m hm hname)
  fixed _ h := h

/-! ### The inferred type -/

/-- If a type is inferred that says something, the value is of it. -/
def InferredRight {ω : Type} [Host ω] (classes : ClassTable) (scope : Scope) (env : Env) (e : Expr)
    (s : Machine ω) : Prop :=
  ∀ (n : ℕ) (t : TypeInfo) (v : Value), inferType classes scope e = some (some t) → t.Known →
    ((evaluator n).evalExpr e env s).value = some v →
    ((evaluator n).evalExpr e env s).state.it.hadRuntimeError = false → v ≠ .void →
    ((evaluator n).evalExpr e env s).state.heap.Fits t v

section TwoVars

variable {ω : Type} {x y : Text} {a b : Option TypeInfo} {l r : Value} {op : TokenType}
  {line : ℕ}

/-- Two variables and their types, -/
def twoVars (x y : Text) (a b : Option TypeInfo) : Scope := [[.var x false a, .var y false b]]

/-- … and their values. -/
def twoValues (world : ω) (x y : Text) (l r : Value) : Machine ω :=
  ⟨⟨[[⟨x, l, false⟩, ⟨y, r, false⟩]], [], [], [], [], [], [], []⟩, ⟨[0], false, none, none, none⟩,
    world⟩

theorem scopeFind_twoVars {name : Text} {sym : Sym}
    (h : scopeFind (twoVars x y a b) name = some sym) :
    name = x ∧ sym = .var x false a ∨ name = y ∧ name ≠ x ∧ sym = .var y false b := by
  rw [twoVars, scopeFind] at h
  by_cases hx : x = name
  · subst hx
    simp only [List.find?, Sym.var, decide_true] at h
    exact .inl ⟨rfl, (Option.some.inj h).symm⟩
  · by_cases hy : y = name
    · subst hy
      simp only [List.find?, Sym.var, decide_true, hx, decide_false] at h
      exact .inr ⟨rfl, Ne.symm hx, (Option.some.inj h).symm⟩
    · simp [List.find?, Sym.var, hx, hy, scopeFind] at h

theorem declared_left (x y : Text) (a b : Option TypeInfo) : declared (twoVars x y a b) x = a := by
  simp [declared, twoVars, scopeFind, List.find?, Sym.var]

theorem declared_right (hne : x ≠ y) (a b : Option TypeInfo) :
    declared (twoVars x y a b) y = b := by
  simp [declared, twoVars, scopeFind, List.find?, Sym.var, hne]

theorem envGet_left (world : ω) (x y : Text) (l r : Value) :
    (twoValues world x y l r).heap.envGet [0] x = some l := by
  simp [twoValues, Heap.envGet, Heap.envFind, Heap.frame, Heap.frameFind]

theorem envGet_right (hne : x ≠ y) (world : ω) (l r : Value) :
    (twoValues world x y l r).heap.envGet [0] y = some r := by
  simp [twoValues, Heap.envGet, Heap.envFind, Heap.frame, Heap.frameFind, hne]

theorem agrees_twoValues (hne : x ≠ y) (ha : Possible a l) (hb : Possible b r) (world : ω) :
    Agrees (twoVars x y a b) [0] (twoValues world x y l r).heap where
  var name sym hsym _ t ht hknown := by
    rcases scopeFind_twoVars hsym with ⟨rfl, rfl⟩ | ⟨rfl, -, rfl⟩
    · exact ⟨l, envGet_left world _ y l r, ha _ t ht hknown⟩
    · exact ⟨r, envGet_right hne world l r, hb _ t ht hknown⟩
  func name sym ret hsym hreturn := by
    rcases scopeFind_twoVars hsym with ⟨rfl, rfl⟩ | ⟨rfl, -, rfl⟩ <;> cases hreturn

/-- The operator is applied to the two values. -/
theorem evalExpr_twoValues [Host ω] (hne : x ≠ y) (world : ω) {v : Value}
    (hv : ∀ (n line : ℕ) (s : Machine ω), evalBinary (n + 1) op l r line s = ⟨[], s, some v⟩) :
    (evaluator 2).evalExpr (.binary line (.ident line x) (.ident line y) op) [0]
      (twoValues world x y l r) = ⟨[], twoValues world x y l r, some v⟩ := by
  have hleft : (evaluator 1).evalExpr (.ident line x) [0] (twoValues world x y l r)
      = ⟨[], twoValues world x y l r, some l⟩ := evalIdent_of_get (envGet_left world x y l r)
  have hright : (evaluator 1).evalExpr (.ident line y) [0] (twoValues world x y l r)
      = ⟨[], twoValues world x y l r, some r⟩ := evalIdent_of_get (envGet_right hne world l r)
  show unlessError .void ((evaluator 1).evalExpr (.ident line x) [0] >>= fun l =>
    (evaluator 1).evalExpr (.ident line y) [0] >>= fun r =>
      unlessError .void (evalBinary 1 op l r line)) _ = _
  rw [unlessError_of_clear rfl, bind_of_silent hleft, bind_of_silent hright,
    unlessError_of_clear rfl, hv 0]

/-- Two variables are firm; it is left to the operator. -/
theorem firm_twoVars (classes : ClassTable) (hne : x ≠ y) (env : Env) (h : Heap) :
    Firm classes (twoVars x y a b) (trusted classes (twoVars x y a b) env h)
      (.binary line (.ident line x) (.ident line y) op)
      = if isComparison op ∨ op = .slash then True
        else if op = .plus then FirmSum True True a b else FirmArith True True a b := by
  have hvar : ∀ name, (trusted classes (twoVars x y a b) env h).var name = True := by
    refine fun name => eq_true fun sym hsym => ?_
    rcases scopeFind_twoVars hsym with ⟨-, rfl⟩ | ⟨-, -, rfl⟩ <;> rfl
  have hcalm : (Expr.ident line x).Calm = True := eq_true trivial
  have hleft : inferred classes (twoVars x y a b) (.ident line x) = a := declared_left x y a b
  have hright : inferred classes (twoVars x y a b) (.ident line y) = b := declared_right hne a b
  simp only [Firm, Trust.after, hvar, hcalm, hleft, hright, true_or, and_true]

end TwoVars

/-- **The inferred type of a firm expression is right**, in every state that agrees with the scope.
For a sum, and for other arithmetic, of two variables it is right in all these states only if the
sum is firm. -/
theorem inferType_right {ω : Type} [Host ω] (classes : ClassTable) (world : ω) :
    (∀ (scope : Scope) (env : Env) (e : Expr) (s : Machine ω), Agrees scope env s.heap →
      Firm classes scope (trusted classes scope env s.heap) e →
      InferredRight classes scope env e s) ∧
    ∀ (x y : Text) (a b : Option TypeInfo) (op : TokenType) (line : ℕ), x ≠ y →
      isArith op = true ∨ op = .plus →
      let e := .binary line (.ident line x) (.ident line y) op
      (∀ (env : Env) (s : Machine ω), Agrees (twoVars x y a b) env s.heap →
        InferredRight classes (twoVars x y a b) env e s) ↔
      ∀ t, inferType classes (twoVars x y a b) e = some (some t) → t.Known →
        ∀ env h, Firm classes (twoVars x y a b) (trusted classes (twoVars x y a b) env h) e := by
  have hsound : ∀ (scope : Scope) (env : Env) (e : Expr) (s : Machine ω),
      Agrees scope env s.heap → Firm classes scope (trusted classes scope env s.heap) e →
      InferredRight classes scope env e s := by
    intro scope env e s hagrees hfirm n t v htype hknown hv hclear hvoid
    have hholds := keepsType e n s _ t (valid_trusted classes hagrees) hfirm
      (inferred_of_inferType htype) hknown v hv hclear
    exact hholds.resolve_left hvoid
  refine ⟨hsound, ?_⟩
  intro x y a b op line hne hop e
  constructor
  · intro hall t ht hknown env h
    by_contra hnot
    rw [firm_twoVars classes hne] at hnot
    have hleft : inferred classes (twoVars x y a b) (.ident line x) = a := declared_left x y a b
    have hright : inferred classes (twoVars x y a b) (.ident line y) = b := declared_right hne a b
    have hmisjudged : Misjudged ω op a b t := by
      have hinferred := inferred_of_inferType ht
      rcases hop with hop | rfl
      · have hkind : isComparison op = false ∧ op ≠ .slash ∧ op ≠ .plus := by
          cases op <;> first | exact ⟨rfl, by decide, by decide⟩ | cases hop
        rw [if_neg (by simp [hkind]), if_neg hkind.2.2] at hnot
        have hor := inferred_arith hkind.1 hkind.2.1 hkind.2.2 hinferred
        rw [hleft, hright] at hor
        exact exists_wrong_arith hop hor hknown hnot
      · rw [if_neg (by decide), if_pos rfl] at hnot
        have hsum := inferred_sum hinferred
        rw [hleft, hright] at hsum
        exact exists_wrong_sum hsum hknown hnot
    obtain ⟨l, r, v, ha, hb, hv, hwrong⟩ := hmisjudged
    have hrun : (evaluator 2).evalExpr e [0] (twoValues world x y l r) = _ :=
      evalExpr_twoValues hne world hv
    have hfits := hall [0] _ (agrees_twoValues hne ha hb world) 2 t v ht hknown
      (congrArg Exec.Outcome.value hrun)
      (by rw [show _ = _ from congrArg Exec.Outcome.state hrun]; rfl)
      fun hvoid => hwrong (twoValues world x y l r).heap (.inl hvoid)
    exact hwrong _ (.inr hfits)
  · intro hfirm env s hagrees n t v ht hknown
    exact hsound _ env e s hagrees (hfirm t ht hknown env s.heap) n t v ht hknown

/-- A state with the variable `x: num = 2` and the function
`fun isOne(n: num): bool { return n == 1; }`, -/
def numState : Machine Unit :=
  ⟨⟨[[⟨txt "x", .num 2, false⟩, ⟨txt "isOne", .func 0, true⟩]], [], [], [],
    [⟨[⟨txt "n", .new .num⟩],
      .block 1 [.ret 1 (some (.binary 1 (.ident 1 (txt "n")) (.num 1 1) .eq))],
      [0], false, txt "isOne"⟩], [], [], []⟩, ⟨[0], false, none, none, none⟩, ()⟩

/-- … and the scope that goes with it. -/
def numScope : Scope := [[.var (txt "x") false (some (.new .num)),
  ⟨txt "isOne", true, some (.new .bool), [⟨txt "n", .new .num⟩], some (.new .bool)⟩]]

theorem agrees_num : Agrees numScope [0] numState.heap := by
  have hfind : ∀ name sym, scopeFind numScope name = some sym →
      name = txt "x" ∧ sym = .var (txt "x") false (some (.new .num)) ∨
      name = txt "isOne" ∧ sym.fnReturn = some (.new .bool) ∧
        sym.fnParams = [⟨txt "n", .new .num⟩] := by
    intro name sym h
    by_cases hx : txt "x" = name
    · subst hx
      exact .inl ⟨rfl, (Option.some.inj h).symm⟩
    · by_cases hone : txt "isOne" = name
      · subst hone
        obtain rfl := Option.some.inj h
        exact .inr ⟨rfl, rfl, rfl⟩
      · simp [numScope, scopeFind, Sym.var, hx, hone] at h
  refine ⟨fun name sym h hno t ht _ => ?_, fun name sym ret h hreturn => ?_⟩
  · rcases hfind name sym h with ⟨rfl, rfl⟩ | ⟨-, hreturn, -⟩
    · obtain rfl := Option.some.inj ht
      exact ⟨.num 2, rfl, .inr rfl⟩
    · cases hno.symm.trans hreturn
  · rcases hfind name sym h with ⟨rfl, rfl⟩ | ⟨rfl, -, hparams⟩
    · cases hreturn
    · exact ⟨0, _, rfl, rfl, hparams.symm⟩

/-- `true ? isOne(1) : isOne(x)` -/
def eitherIsOne : Expr :=
  .ternary 1 (.bool 1 true) (.call 1 (.ident 1 (txt "isOne")) [.num 1 1])
    (.call 1 (.ident 1 (txt "isOne")) [.ident 1 (txt "x")])

/-- … and `(x = true) == 1`. -/
theorem inferType_right_isOne :
    ((@evaluator Unit silentHost 4).evalExpr (.binary 1 (.assign 1 (.ident 1 (txt "x"))
        (.bool 1 true) .assign) (.num 1 1) .eq) [0] numState).state.heap.Fits
      (.new .bool) (.bool true) ∧
    ((@evaluator Unit silentHost 5).evalExpr eitherIsOne [0] numState).state.heap.Fits
      (.new .bool) (.bool true) := by
  obtain ⟨hright, -⟩ := @inferType_right Unit silentHost [] ()
  have hcall : ∀ t f fv, callReturn numScope (txt "isOne") = some t →
      numState.heap.envGet [0] (txt "isOne") = some (.func f) →
      numState.heap.funcs[f]? = some fv → ReturnsOnly [] t fv.body.stmts := by
    intro t f fv ht hf hfv
    obtain rfl := Option.some.inj ht
    obtain rfl := Value.func.inj (Option.some.inj hf)
    obtain rfl := Option.some.inj hfv
    intro s hs e he
    obtain rfl := List.mem_singleton.mp hs
    cases he
    exact ⟨[], .new .bool, by simp [Firm, isComparison], rfl, by decide, rfl⟩
  have hfirm : Firm [] numScope (trusted [] numScope [0] numState.heap) eitherIsOne := by
    refine ⟨⟨hcall, .inl trivial⟩, ⟨hcall, .inl trivial⟩, fun t u ht hu => ?_⟩
    obtain rfl := Option.some.inj ht
    obtain rfl := Option.some.inj hu
    rfl
  exact ⟨hright numScope [0] _ numState agrees_num (by simp [Firm, isComparison]) 4 _ _ rfl
    (by decide) rfl rfl (by simp), hright numScope [0] _ numState agrees_num hfirm 5 _ _ rfl
    (by decide) rfl rfl (by simp)⟩

/-- **A sum with a truth value is taken for a truth value, and is a number.** -/
theorem truthSum_misjudged : ¬ ∀ (classes : ClassTable) (scope : Scope) (env : Env) (e : Expr)
    (n : ℕ) (s : Machine Unit) (t : TypeInfo) (v : Value), Agrees scope env s.heap →
    inferType classes scope e = some (some t) → t.Known →
    ((@evaluator Unit silentHost n).evalExpr e env s).value = some v →
    ((@evaluator Unit silentHost n).evalExpr e env s).state.it.hadRuntimeError = false →
    v ≠ .void → ((@evaluator Unit silentHost n).evalExpr e env s).state.heap.Fits t v := by
  intro h
  have hfits := h [] numScope [0] (.binary 1 (.bool 1 true) (.num 1 1) .plus) 2 numState
    (.new .bool) _ agrees_num rfl (by decide) rfl rfl (by simp [isNum])
  cases hfits

end Jaguar
