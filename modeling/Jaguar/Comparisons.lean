/-
The comparisons of the checker.

With a comparison that always fails the checker reports every place where it compares a
declared with an inferred type; what it really reports of these are the conflicts. Types that
name classes conflict whenever the names differ, whatever extends what.

* `typecheckWith_keep` — the reports under one comparison, out of those under another;
* `mem_typecheckProgram` — what the checker reports, out of what it compares;
* `subclass_accepted_iff` — **an instance of a class is accepted for the class itself, and
  for none of those above it**.
-/
import Jaguar.Typecheck

namespace Jaguar

/-- The declared and the inferred type that an error compares. -/
def TcMessage.compared : TcMessage → Option (Option TypeInfo × Option TypeInfo)
  | .cannotAssign _ declared actual => some (declared, actual)
  | .argument _ _ declared actual => some (declared, actual)
  | .initializer _ declared actual => some (declared, actual)
  | .returnType declared actual => some (declared, actual)
  | .cannotReassign _ | .notAClass _ | .liveDegArity | .missingType _ | .missingInitializer => none

/-- Whether the error is one under the comparison. -/
def TcError.stands (conflict : Option TypeInfo → Option TypeInfo → Bool) (e : TcError) : Bool :=
  match e.message.compared with
  | some (declared, actual) => conflict declared actual
  | none => true

/-- The run, with the reports that stand under the comparison. -/
def Tc.keep {α : Type} (conflict : Option TypeInfo → Option TypeInfo → Bool) (m : Tc α) : Tc α :=
  ⟨m.errors.filter (TcError.stands conflict), m.result⟩

section Keep

variable {α β : Type} (conflict : Option TypeInfo → Option TypeInfo → Bool)

@[simp] theorem keep_pure (a : α) : (pure a : Tc α).keep conflict = pure a := rfl

@[simp] theorem keep_known (r : Option α) : (Tc.known r).keep conflict = Tc.known r := rfl

@[simp] theorem keep_bind (m : Tc α) (f : α → Tc β) :
    (m >>= f).keep conflict = m.keep conflict >>= fun a => (f a).keep conflict := by
  obtain ⟨errors, result⟩ := m
  cases result with
  | none => rfl
  | some a =>
    show Tc.mk ((errors ++ (f a).errors).filter _) _ = Tc.mk (errors.filter _ ++ _) _
    rw [List.filter_append]
    rfl

/-- A report that compares nothing. -/
@[simp] theorem keep_errorIf {message : TcMessage} (h : message.compared = none) (c : Bool)
    (line : ℕ) : (Tc.errorIf c line message).keep conflict = Tc.errorIf c line message := by
  cases c with
  | false => rfl
  | true => simp [Tc.errorIf, Tc.error, Tc.keep, TcError.stands, h]

/-- A report that compares. -/
theorem keep_errorIf_compared {message : TcMessage} {declared actual : Option TypeInfo}
    (h : message.compared = some (declared, actual)) (c : Bool) (line : ℕ) :
    (Tc.errorIf c line message).keep conflict
      = Tc.errorIf (c && conflict declared actual) line message := by
  cases c with
  | false => rfl
  | true =>
    have hstands : TcError.stands conflict ⟨line, message⟩ = conflict declared actual := by
      simp only [TcError.stands, h]
    show Tc.mk (List.filter (TcError.stands conflict) [⟨line, message⟩]) (some ()) = _
    rw [List.filter_cons, hstands]
    cases conflict declared actual <;> rfl

end Keep

/-- Every comparison fails. -/
def always : Option TypeInfo → Option TypeInfo → Bool := fun _ _ => true

section Walk

variable (conflict : Option TypeInfo → Option TypeInfo → Bool) (classes : ClassTable)

theorem checkCallArgs_keep (label : Text) (line : ℕ) (scope : Scope) (idx : ℕ)
    (params : List Param) (args : List Expr) :
    (checkCallArgs always classes label line scope idx params args).keep conflict
      = checkCallArgs conflict classes label line scope idx params args := by
  induction params generalizing idx args with
  | nil => rfl
  | cons p params ih =>
    cases args with
    | nil => rfl
    | cons a args =>
      simp only [checkCallArgs, keep_bind, keep_known, ih, always,
        keep_errorIf_compared conflict (show TcMessage.compared (.argument label idx _ _) = _ from rfl),
        Bool.true_and]

theorem checkCall_keep (callee : Expr) (args : List Expr) (scope : Scope) (line : ℕ) :
    (checkCall always classes callee args scope line).keep conflict
      = checkCall conflict classes callee args scope line := by
  unfold checkCall
  split
  · unfold checkIdentCall
    split
    · split
      · exact checkCallArgs_keep ..
      · rfl
    · rfl
  · unfold checkMemberCall
    simp only [keep_bind, keep_known, keep_errorIf conflict (show TcMessage.compared .liveDegArity = _ from rfl)]
    congr
    funext _
    congr
    funext _
    congr
    funext method
    cases method with
    | none => rfl
    | some m => exact checkCallArgs_keep ..
  · rfl

theorem checkNew_keep (className : Text) (args : List Expr) (scope : Scope) (line : ℕ) :
    (checkNew always classes className args scope line).keep conflict
      = checkNew conflict classes className args scope line := by
  unfold checkNew
  split
  · rfl
  · rw [keep_bind, keep_known]
    congr
    funext ctor
    cases ctor with
    | none => rfl
    | some m => exact checkCallArgs_keep ..

theorem checkAssign_keep (target value : Expr) (scope : Scope) (line : ℕ) :
    (checkAssign always classes target value scope line).keep conflict
      = checkAssign conflict classes target value scope line := by
  unfold checkAssign
  split
  · split
    · simp only [keep_bind, keep_known, always,
        keep_errorIf conflict (show TcMessage.compared (.cannotReassign _) = _ from rfl),
        keep_errorIf_compared conflict (show TcMessage.compared (.cannotAssign _ _ _) = _ from rfl),
        Bool.true_and]
    · rfl
  · rfl

theorem checkInit_keep (name : Text) (type : TypeInfo) (init : Option Expr) (scope : Scope)
    (line : ℕ) :
    (checkInit always classes name type init scope line).keep conflict
      = checkInit conflict classes name type init scope line := by
  unfold checkInit
  split
  · simp only [keep_bind, keep_known, always,
      keep_errorIf_compared conflict (show TcMessage.compared (.initializer _ _ _) = _ from rfl),
      Bool.true_and]
  · rfl

theorem checkReturn_keep (ret : Option TypeInfo) (value : Option Expr) (scope : Scope)
    (line : ℕ) :
    (checkReturn always classes ret value scope line).keep conflict
      = checkReturn conflict classes ret value scope line := by
  unfold checkReturn
  split
  · simp only [keep_bind, keep_known, always,
      keep_errorIf_compared conflict (show TcMessage.compared (.returnType _ _) = _ from rfl),
      Bool.and_true]
  · rfl

mutual

theorem checkExpr_keep (ret : Option TypeInfo) (scope : Scope) : ∀ e : Expr,
    (checkExpr always classes ret scope e).keep conflict = checkExpr conflict classes ret scope e
  | .str _ parts => by rw [checkExpr, checkExpr, checkParts_keep]
  | .binary _ left right _ => by
    simp only [checkExpr, keep_bind, checkExpr_keep ret scope left, checkExpr_keep ret scope right]
  | .unary _ operand _ => by rw [checkExpr, checkExpr, checkExpr_keep]
  | .ternary _ cond thenE elseE => by
    simp only [checkExpr, keep_bind, checkExpr_keep ret scope cond, checkExpr_keep ret scope thenE,
      checkExpr_keep ret scope elseE]
  | .between _ value low high => by
    simp only [checkExpr, keep_bind, checkExpr_keep ret scope value, checkExpr_keep ret scope low,
      checkExpr_keep ret scope high]
  | .list _ items => by rw [checkExpr, checkExpr, checkExprs_keep]
  | .data _ entries => by rw [checkExpr, checkExpr, checkEntries_keep]
  | .funcLit _ params retType body _ => by rw [checkExpr, checkExpr, checkBody_keep]
  | .await _ e => by rw [checkExpr, checkExpr, checkExpr_keep]
  | .member _ object _ => by rw [checkExpr, checkExpr, checkExpr_keep]
  | .index _ object index => by
    simp only [checkExpr, keep_bind, checkExpr_keep ret scope object,
      checkExpr_keep ret scope index]
  | .assign line target value _ => by
    simp only [checkExpr, keep_bind, checkAssign_keep, checkExpr_keep ret scope target,
      checkExpr_keep ret scope value]
  | .new line className args => by
    simp only [checkExpr, keep_bind, checkNew_keep, checkExprs_keep ret scope args]
  | .call line callee args => by
    simp only [checkExpr, keep_bind, checkCall_keep, checkExprs_keep ret scope args,
      checkExpr_keep ret scope callee]
  | .num .. | .decimal .. | .scifi .. | .bool .. | .ident .. => by rw [checkExpr, checkExpr, keep_pure]

theorem checkExprs_keep (ret : Option TypeInfo) (scope : Scope) : ∀ es : List Expr,
    (checkExprs always classes ret scope es).keep conflict = checkExprs conflict classes ret scope es
  | [] => rfl
  | e :: es => by
    simp only [checkExprs, keep_bind, checkExpr_keep ret scope e, checkExprs_keep ret scope es]

theorem checkOpt_keep (ret : Option TypeInfo) (scope : Scope) : ∀ e : Option Expr,
    (checkOpt always classes ret scope e).keep conflict = checkOpt conflict classes ret scope e
  | none => rfl
  | some e => by rw [checkOpt, checkOpt, checkExpr_keep]

theorem checkParts_keep (ret : Option TypeInfo) (scope : Scope) : ∀ parts : List StrPart,
    (checkParts always classes ret scope parts).keep conflict
      = checkParts conflict classes ret scope parts
  | [] => rfl
  | .literal _ :: parts => by rw [checkParts, checkParts, checkParts_keep]
  | .expr e :: parts => by
    simp only [checkParts, keep_bind, checkExpr_keep ret scope e, checkParts_keep ret scope parts]

theorem checkEntries_keep (ret : Option TypeInfo) (scope : Scope) :
    ∀ entries : List (Text × Expr),
    (checkEntries always classes ret scope entries).keep conflict
      = checkEntries conflict classes ret scope entries
  | [] => rfl
  | (_, e) :: entries => by
    simp only [checkEntries, keep_bind, checkExpr_keep ret scope e,
      checkEntries_keep ret scope entries]

theorem checkBody_keep (ret : Option TypeInfo) (scope : Scope) : ∀ s : Stmt,
    (checkBody always classes ret scope s).keep conflict = checkBody conflict classes ret scope s
  | .block _ stmts => by
    simp only [checkBody, keep_bind, keep_pure, checkStmts_keep _ _ stmts]
  | .varDecl .. | .expr .. | .ifStmt .. | .loopWhile .. | .doWhile .. | .forIn .. | .iterate ..
  | .funDecl .. | .ret .. | .classDecl .. | .enumDecl .. | .structDecl .. | .importStmt ..
  | .exportStmt .. | .tryCatch .. | .brk .. | .cont .. => rfl

theorem checkStmt_keep (ret : Option TypeInfo) (scope : Scope) : ∀ s : Stmt,
    (checkStmt always classes ret scope s).keep conflict = checkStmt conflict classes ret scope s
  | .varDecl line name type init isFixed => by
    simp only [checkStmt, keep_bind, keep_pure, checkInit_keep, checkOpt_keep ret scope init,
      keep_errorIf conflict (show TcMessage.compared (.missingType _) = _ from rfl),
      keep_errorIf conflict (show TcMessage.compared .missingInitializer = _ from rfl)]
  | .expr _ e => by simp only [checkStmt, keep_bind, keep_pure, checkExpr_keep ret scope e]
  | .ifStmt _ cond thenB elifs elseB => by
    simp only [checkStmt, keep_bind, checkExpr_keep ret scope cond, checkStmt_keep _ _ thenB,
      checkElifs_keep _ _ elifs, checkElse_keep _ _ elseB]
  | .loopWhile _ cond body => by
    simp only [checkStmt, keep_bind, checkExpr_keep ret scope cond, checkStmt_keep _ _ body]
  | .doWhile _ cond body => by
    simp only [checkStmt, keep_bind, keep_pure, checkStmt_keep _ _ body, checkExpr_keep _ _ cond]
  | .forIn _ var iterable cond body => by
    simp only [checkStmt, keep_bind, keep_pure, checkExpr_keep ret scope iterable,
      checkOpt_keep _ _ cond, checkStmt_keep _ _ body]
  | .iterate _ collection item body => by
    simp only [checkStmt, keep_bind, keep_pure, checkExpr_keep ret scope collection,
      checkStmt_keep _ _ body]
  | .funDecl _ _ params retType body _ => by
    simp only [checkStmt, keep_bind, keep_pure, checkBody_keep _ _ body]
  | .ret line value => by
    simp only [checkStmt, keep_bind, keep_pure, checkReturn_keep, checkOpt_keep ret scope value]
  | .block _ stmts => by
    simp only [checkStmt, keep_bind, keep_pure, checkStmts_keep _ _ stmts]
  | .classDecl _ name members _ _ => by
    simp only [checkStmt, keep_bind, keep_pure, checkStmts_keep _ _ members]
  | .tryCatch _ tryB errName catchB => by
    simp only [checkStmt, keep_bind, keep_pure, checkStmt_keep _ _ tryB, checkStmt_keep _ _ catchB]
  | .enumDecl .. | .structDecl .. | .importStmt .. | .exportStmt .. | .brk _ | .cont _ => by
    rw [checkStmt, checkStmt, keep_pure]

theorem checkStmts_keep (ret : Option TypeInfo) (scope : Scope) : ∀ list : List Stmt,
    (checkStmts always classes ret scope list).keep conflict
      = checkStmts conflict classes ret scope list
  | [] => rfl
  | s :: list => by
    simp only [checkStmts, keep_bind, checkStmt_keep ret scope s, checkStmts_keep _ _ list]

theorem checkElifs_keep (ret : Option TypeInfo) (scope : Scope) : ∀ elifs : List (Expr × Stmt),
    (checkElifs always classes ret scope elifs).keep conflict
      = checkElifs conflict classes ret scope elifs
  | [] => rfl
  | (cond, body) :: elifs => by
    simp only [checkElifs, keep_bind, checkExpr_keep ret scope cond, checkStmt_keep _ _ body,
      checkElifs_keep _ _ elifs]

theorem checkElse_keep (ret : Option TypeInfo) (scope : Scope) : ∀ s : Option Stmt,
    (checkElse always classes ret scope s).keep conflict = checkElse conflict classes ret scope s
  | none => rfl
  | some s => by rw [checkElse, checkElse, checkStmt_keep]

end

end Walk

/-- **The reports under one comparison, out of those under the one that always fails.** -/
theorem typecheckWith_keep (conflict : Option TypeInfo → Option TypeInfo → Bool)
    (program : List Stmt) :
    typecheckWith conflict program = (typecheckWith always program).keep conflict := by
  rw [typecheckWith, typecheckWith, checkBlock, checkBlock, keep_bind, checkStmts_keep]
  rfl

/-- **What the checker reports, out of what it compares.** -/
theorem mem_typecheckProgram {program : List Stmt} {e : TcError} :
    e ∈ (typecheckProgram program).errors ↔
      e ∈ (typecheckWith always program).errors ∧ e.stands typesConflict := by
  rw [typecheckProgram, typecheckWith_keep, Tc.keep, List.mem_filter]

/-! ### Subclasses -/

/-- The type that a class's name stands for. -/
def TypeInfo.IsClass (t : TypeInfo) (name : Text) : Prop :=
  t.kind = .classNamed ∧ t.className = some name

theorem typesConflict_classes {declared actual : TypeInfo} {B D : Text} (hB : declared.IsClass B)
    (hD : actual.IsClass D) : typesConflict (some declared) (some actual) = decide (D ≠ B) := by
  have hnames : (some B : Option Text) ≠ some D ↔ D ≠ B := by
    rw [ne_eq, Option.some.injEq, ne_eq, eq_comm]
  simp only [typesConflict, hB.1, hD.1, hB.2, hD.2, hnames]
  rfl

/-- **An instance of a class is accepted for the class itself, and for none of those above
it.** The error `e` is one that the checker reports where it finds an expression of type `D`
for the declared type `B` and the comparison fails. -/
theorem subclass_accepted_iff (program : List Stmt) {e : TcError}
    (he : e ∈ (typecheckWith always program).errors) {declared actual : TypeInfo}
    (hcompared : e.message.compared = some (some declared, some actual)) {B D : Text}
    (hB : declared.IsClass B) (hD : actual.IsClass D) {b d k : ℕ}
    (_hb : findClass (registerClasses program) B = some b)
    (_hd : findClass (registerClasses program) D = some d)
    (_hreach : climb (registerClasses program).link k d = some b) :
    e ∉ (typecheckProgram program).errors ↔ D = B := by
  have hstands : e.stands typesConflict = decide (D ≠ B) := by
    simp only [TcError.stands, hcompared, typesConflict_classes hB hD]
  rw [mem_typecheckProgram, hstands, decide_eq_true_eq]
  constructor
  · intro h
    by_contra hne
    exact h ⟨he, hne⟩
  · rintro rfl ⟨-, hne⟩
    exact hne rfl

/-- `class B {}  class D extends B {}  var x: B = new D();` -/
def upcast : List Stmt := [
  .classDecl 1 (txt "B") [] 0 none,
  .classDecl 2 (txt "D") [] 0 (some (txt "B")),
  .varDecl 3 (txt "x") (.mk .classNamed none (some (txt "B"))) (some (.new 3 (txt "D") [])) false]

/-- The initialiser of `upcast`, as an error. -/
def upcastError : TcError :=
  ⟨3, .initializer (txt "x") (some (.mk .classNamed none (some (txt "B"))))
    (some (.mk .classNamed none (some (txt "D"))))⟩

theorem errors_upcast : (typecheckWith always upcast).errors = [upcastError] := rfl

theorem subclass_accepted_iff_upcast :
    upcastError ∉ (typecheckProgram upcast).errors ↔ txt "D" = txt "B" :=
  subclass_accepted_iff upcast (errors_upcast ▸ List.mem_singleton_self _) rfl ⟨rfl, rfl⟩ ⟨rfl, rfl⟩
    (b := 0) (d := 1) (k := 1) rfl rfl rfl

/-- A valid use of a base-typed variable is reported. -/
theorem upcast_rejected :
    climb (registerClasses upcast).link 1 1 = findClass (registerClasses upcast) (txt "B") ∧
    findClass (registerClasses upcast) (txt "D") = some 1 ∧
    (typecheckProgram upcast).errors.map (fun e => (e.line, e.message.text))
      = [(3, txt "'x' declared as B but initialized with D")] :=
  ⟨rfl, rfl, rfl⟩

end Jaguar
