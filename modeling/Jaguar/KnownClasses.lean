/-
The classes that the checker knows and those that the interpreter finds.

The checker's table holds the classes declared at the top level. The interpreter hoists those
of every statement list into an environment of its own, so inside of a block also the classes
of the lists around it are visible.

* `Expr.news`, `Stmt.news` — the `new` expressions of a program, each with the statement lists
  around it;
* `checkStmts_notAClass` — the classes that the checker reports as unknown;
* `classVisible_iff` — the classes in the hoisted environments;
* `unknown_class_iff` — **the checker is right exactly when no inner class is missing at the
  top level**.
-/
import Jaguar.Typecheck
import Jaguar.FrameEffect
import Jaguar.ClassLinks

namespace Jaguar

/-! ### The `new` expressions of a program -/

/-- A `new` expression, with the statement lists it stands in, the innermost first. -/
structure NewSite where
  line : ℕ
  className : Text
  enclosing : List (List Stmt)

mutual

def Expr.news (enc : List (List Stmt)) : Expr → List NewSite
  | .str _ parts => newsParts enc parts
  | .binary _ left right _ => left.news enc ++ right.news enc
  | .unary _ operand _ => operand.news enc
  | .ternary _ cond thenE elseE => cond.news enc ++ (thenE.news enc ++ elseE.news enc)
  | .between _ value low high => value.news enc ++ (low.news enc ++ high.news enc)
  | .list _ items => newsExprs enc items
  | .data _ entries => newsEntries enc entries
  | .funcLit _ _ _ body _ => body.newsBody enc
  | .await _ e => e.news enc
  | .member _ object _ => object.news enc
  | .index _ object index => object.news enc ++ index.news enc
  | .assign _ target value _ => target.news enc ++ value.news enc
  | .new line className args => ⟨line, className, enc⟩ :: newsExprs enc args
  | .call _ callee args => newsExprs enc args ++ callee.news enc
  | .num .. | .decimal .. | .scifi .. | .bool .. | .ident .. => []

def newsExprs (enc : List (List Stmt)) : List Expr → List NewSite
  | [] => []
  | e :: es => e.news enc ++ newsExprs enc es

def newsOpt (enc : List (List Stmt)) : Option Expr → List NewSite
  | none => []
  | some e => e.news enc

def newsParts (enc : List (List Stmt)) : List StrPart → List NewSite
  | [] => []
  | .literal _ :: parts => newsParts enc parts
  | .expr e :: parts => e.news enc ++ newsParts enc parts

def newsEntries (enc : List (List Stmt)) : List (Text × Expr) → List NewSite
  | [] => []
  | (_, e) :: entries => e.news enc ++ newsEntries enc entries

/-- The body of a function: its statements stand in a list of their own. -/
def Stmt.newsBody (enc : List (List Stmt)) : Stmt → List NewSite
  | .block _ stmts => newsStmts (stmts :: enc) stmts
  | _ => []

def Stmt.news (enc : List (List Stmt)) : Stmt → List NewSite
  | .varDecl _ _ _ init _ => newsOpt enc init
  | .expr _ e => e.news enc
  | .ifStmt _ cond thenB elifs elseB =>
    cond.news enc ++ (thenB.news enc ++ (newsElifs enc elifs ++ newsElse enc elseB))
  | .loopWhile _ cond body => cond.news enc ++ body.news enc
  | .doWhile _ cond body => body.news enc ++ cond.news enc
  | .forIn _ _ iterable cond body => iterable.news enc ++ (newsOpt enc cond ++ body.news enc)
  | .iterate _ collection _ body => collection.news enc ++ body.news enc
  | .funDecl _ _ _ _ body _ => body.newsBody enc
  | .ret _ value => newsOpt enc value
  | .block _ stmts => newsStmts (stmts :: enc) stmts
  | .classDecl _ _ members _ _ => newsStmts enc members
  | .tryCatch _ tryB _ catchB => tryB.news enc ++ catchB.news enc
  | .enumDecl .. | .structDecl .. | .importStmt .. | .exportStmt .. | .brk _ | .cont _ => []

def newsStmts (enc : List (List Stmt)) : List Stmt → List NewSite
  | [] => []
  | s :: list => s.news enc ++ newsStmts enc list

def newsElifs (enc : List (List Stmt)) : List (Expr × Stmt) → List NewSite
  | [] => []
  | (cond, body) :: elifs => cond.news enc ++ (body.news enc ++ newsElifs enc elifs)

def newsElse (enc : List (List Stmt)) : Option Stmt → List NewSite
  | none => []
  | some s => s.news enc

end

/-- The `new` expressions of a program. -/
def programNews (program : List Stmt) : List NewSite := newsStmts [program] program

/-! ### What is reported as unknown -/

/-- The line and the name of a report of an unknown class. -/
def TcError.unknownClass (e : TcError) : Option (ℕ × Text) :=
  match e.message with
  | .notAClass name => some (e.line, name)
  | _ => none

/-- The classes that a run reports as unknown. -/
def Tc.unknown {α : Type} (m : Tc α) : List (ℕ × Text) := m.errors.filterMap TcError.unknownClass

/-- The `new` expressions whose class the table does not hold. -/
def missing (classes : ClassTable) (news : List NewSite) : List (ℕ × Text) :=
  (news.filter fun site => (findClass classes site.className).isNone).map fun site =>
    (site.line, site.className)

/-- A run that comes back reports what is missing, and another the first of it. -/
structure Reports {α : Type} (classes : ClassTable) (m : Tc α) (news : List NewSite) : Prop where
  reported : m.unknown <+: missing classes news
  all : m.result.isSome → m.unknown = missing classes news

section Reports

variable {α β : Type} {classes : ClassTable}

theorem missing_append (news news' : List NewSite) :
    missing classes (news ++ news') = missing classes news ++ missing classes news' := by
  rw [missing, List.filter_append, List.map_append]
  rfl

theorem Reports.of_silent {m : Tc α} (h : m.unknown = []) : Reports classes m [] :=
  ⟨by rw [h]; exact List.nil_prefix, fun _ => h⟩

theorem Reports.of_missing {m : Tc α} {news : List NewSite} (hnews : missing classes news = [])
    (h : m.unknown = []) : Reports classes m news :=
  ⟨by rw [h]; exact List.nil_prefix, fun _ => h.trans hnews.symm⟩

theorem Reports.pure (a : α) : Reports classes (Pure.pure a : Tc α) [] := .of_silent rfl

theorem unknown_bind (m : Tc α) (f : α → Tc β) :
    (m >>= f).unknown = m.unknown ++ (m.result.elim [] fun a => (f a).unknown) := by
  obtain ⟨errors, result⟩ := m
  cases result with
  | none => exact (List.append_nil _).symm
  | some a => exact List.filterMap_append

theorem result_bind (m : Tc α) (f : α → Tc β) :
    (m >>= f).result = m.result.bind fun a => (f a).result := by
  obtain ⟨errors, result⟩ := m
  cases result <;> rfl

/-- One run after the other. -/
theorem Reports.bind {m : Tc α} {f : α → Tc β} {news news' : List NewSite}
    (h : Reports classes m news) (hf : ∀ a, Reports classes (f a) news') :
    Reports classes (m >>= f) (news ++ news') := by
  refine ⟨?_, fun hres => ?_⟩
  · rw [unknown_bind, missing_append]
    cases hm : m.result with
    | none =>
      rw [Option.elim_none, List.append_nil]
      exact h.reported.trans (List.prefix_append _ _)
    | some a =>
      rw [Option.elim_some, h.all (by rw [hm]; rfl)]
      exact (List.prefix_append_right_inj _).mpr (hf a).reported
  · rw [result_bind] at hres
    cases hm : m.result with
    | none =>
      rw [hm] at hres
      cases hres
    | some a =>
      rw [hm] at hres
      rw [unknown_bind, missing_append, hm, Option.elim_some, h.all (by rw [hm]; rfl),
        (hf a).all hres]

/-- A run without reports of unknown classes first. -/
theorem Reports.after {m : Tc α} {f : α → Tc β} {news : List NewSite} (h : m.unknown = [])
    (hf : ∀ a, Reports classes (f a) news) : Reports classes (m >>= f) news :=
  (Reports.of_silent h).bind hf

/-- … and last. -/
theorem Reports.before {m : Tc α} {f : α → Tc β} {news : List NewSite}
    (h : Reports classes m news) (hf : ∀ a, (f a).unknown = []) : Reports classes (m >>= f) news :=
  List.append_nil news ▸ h.bind fun a => .of_silent (hf a)

theorem unknown_bind_nil {m : Tc α} {f : α → Tc β} (h : m.unknown = [])
    (hf : ∀ a, (f a).unknown = []) : (m >>= f).unknown = [] := by
  rw [unknown_bind, h]
  cases m.result with
  | none => rfl
  | some a => exact hf a

theorem unknown_errorIf {line : ℕ} {message : TcMessage}
    (h : TcError.unknownClass ⟨line, message⟩ = none) (c : Bool) :
    (Tc.errorIf c line message).unknown = [] := by
  cases c with
  | false => rfl
  | true => exact List.filterMap_cons_none h

end Reports

section Silent

variable (conflict : Option TypeInfo → Option TypeInfo → Bool) (classes : ClassTable)

theorem checkCallArgs_unknown (label : Text) (line : ℕ) (scope : Scope) (idx : ℕ)
    (params : List Param) (args : List Expr) :
    (checkCallArgs conflict classes label line scope idx params args).unknown = [] := by
  induction params generalizing idx args with
  | nil => rfl
  | cons p params ih =>
    cases args with
    | nil => rfl
    | cons a args =>
      rw [checkCallArgs]
      exact unknown_bind_nil rfl fun _ =>
        unknown_bind_nil (unknown_errorIf rfl _) fun _ => ih (idx + 1) args

theorem checkCall_unknown (callee : Expr) (args : List Expr) (scope : Scope) (line : ℕ) :
    (checkCall conflict classes callee args scope line).unknown = [] := by
  unfold checkCall
  split
  · unfold checkIdentCall
    split
    · split
      · exact checkCallArgs_unknown ..
      · rfl
    · rfl
  · unfold checkMemberCall
    refine unknown_bind_nil (unknown_errorIf rfl _) fun _ => unknown_bind_nil rfl fun _ =>
      unknown_bind_nil rfl fun method => ?_
    cases method with
    | none => rfl
    | some m => exact checkCallArgs_unknown ..
  · rfl

theorem checkAssign_unknown (target value : Expr) (scope : Scope) (line : ℕ) :
    (checkAssign conflict classes target value scope line).unknown = [] := by
  unfold checkAssign
  split
  · split
    · exact unknown_bind_nil (unknown_errorIf rfl _) fun _ => unknown_bind_nil rfl fun _ =>
        unknown_errorIf rfl _
    · rfl
  · rfl

theorem checkInit_unknown (name : Text) (type : TypeInfo) (init : Option Expr) (scope : Scope)
    (line : ℕ) : (checkInit conflict classes name type init scope line).unknown = [] := by
  unfold checkInit
  split
  · exact unknown_bind_nil rfl fun _ => unknown_errorIf rfl _
  · rfl

theorem checkReturn_unknown (ret : Option TypeInfo) (value : Option Expr) (scope : Scope)
    (line : ℕ) : (checkReturn conflict classes ret value scope line).unknown = [] := by
  unfold checkReturn
  split
  · exact unknown_bind_nil rfl fun _ => unknown_errorIf rfl _
  · rfl

theorem checkNew_reports (className : Text) (args : List Expr) (scope : Scope) (line : ℕ)
    (enc : List (List Stmt)) :
    Reports classes (checkNew conflict classes className args scope line) [⟨line, className, enc⟩] := by
  unfold checkNew
  split
  · next hfind =>
    have hmissing : missing classes [⟨line, className, enc⟩] = [(line, className)] := by
      simp [missing, hfind]
    refine ⟨?_, fun _ => ?_⟩
    · rw [hmissing]
      exact List.prefix_rfl
    · rw [hmissing]
      rfl
  · next c hfind =>
    have hmissing : missing classes [⟨line, className, enc⟩] = [] := by simp [missing, hfind]
    refine .of_missing hmissing (unknown_bind_nil rfl fun ctor => ?_)
    cases ctor with
    | none => rfl
    | some m => exact checkCallArgs_unknown ..

end Silent

section Walk

variable (conflict : Option TypeInfo → Option TypeInfo → Bool) (classes : ClassTable)

mutual

theorem checkExpr_reports (ret : Option TypeInfo) (scope : Scope) (enc : List (List Stmt)) :
    ∀ e : Expr, Reports classes (checkExpr conflict classes ret scope e) (e.news enc)
  | .str _ parts => by
    rw [checkExpr, Expr.news]
    exact checkParts_reports ret scope enc parts
  | .binary _ left right _ => by
    rw [checkExpr, Expr.news]
    exact (checkExpr_reports ret scope enc left).bind fun _ => checkExpr_reports ret scope enc right
  | .unary _ operand _ => by
    rw [checkExpr, Expr.news]
    exact checkExpr_reports ret scope enc operand
  | .ternary _ cond thenE elseE => by
    rw [checkExpr, Expr.news]
    exact (checkExpr_reports ret scope enc cond).bind fun _ =>
      (checkExpr_reports ret scope enc thenE).bind fun _ => checkExpr_reports ret scope enc elseE
  | .between _ value low high => by
    rw [checkExpr, Expr.news]
    exact (checkExpr_reports ret scope enc value).bind fun _ =>
      (checkExpr_reports ret scope enc low).bind fun _ => checkExpr_reports ret scope enc high
  | .list _ items => by
    rw [checkExpr, Expr.news]
    exact checkExprs_reports ret scope enc items
  | .data _ entries => by
    rw [checkExpr, Expr.news]
    exact checkEntries_reports ret scope enc entries
  | .funcLit _ params retType body _ => by
    rw [checkExpr, Expr.news]
    exact checkBody_reports _ _ enc body
  | .await _ e => by
    rw [checkExpr, Expr.news]
    exact checkExpr_reports ret scope enc e
  | .member _ object _ => by
    rw [checkExpr, Expr.news]
    exact checkExpr_reports ret scope enc object
  | .index _ object index => by
    rw [checkExpr, Expr.news]
    exact (checkExpr_reports ret scope enc object).bind fun _ =>
      checkExpr_reports ret scope enc index
  | .assign line target value _ => by
    rw [checkExpr, Expr.news]
    exact .after (checkAssign_unknown ..) fun _ =>
      (checkExpr_reports ret scope enc target).bind fun _ => checkExpr_reports ret scope enc value
  | .new line className args => by
    rw [checkExpr, Expr.news]
    exact (checkNew_reports conflict classes className args scope line enc).bind fun _ =>
      checkExprs_reports ret scope enc args
  | .call line callee args => by
    rw [checkExpr, Expr.news]
    exact (checkExprs_reports ret scope enc args).bind fun _ =>
      (checkExpr_reports ret scope enc callee).before fun _ => checkCall_unknown ..
  | .num .. | .decimal .. | .scifi .. | .bool .. | .ident .. => by
    rw [checkExpr, Expr.news]
    exact .pure ()

theorem checkExprs_reports (ret : Option TypeInfo) (scope : Scope) (enc : List (List Stmt)) :
    ∀ es : List Expr, Reports classes (checkExprs conflict classes ret scope es) (newsExprs enc es)
  | [] => .pure ()
  | e :: es => by
    rw [checkExprs, newsExprs]
    exact (checkExpr_reports ret scope enc e).bind fun _ => checkExprs_reports ret scope enc es

theorem checkOpt_reports (ret : Option TypeInfo) (scope : Scope) (enc : List (List Stmt)) :
    ∀ e : Option Expr, Reports classes (checkOpt conflict classes ret scope e) (newsOpt enc e)
  | none => .pure ()
  | some e => by
    rw [checkOpt, newsOpt]
    exact checkExpr_reports ret scope enc e

theorem checkParts_reports (ret : Option TypeInfo) (scope : Scope) (enc : List (List Stmt)) :
    ∀ parts : List StrPart,
      Reports classes (checkParts conflict classes ret scope parts) (newsParts enc parts)
  | [] => .pure ()
  | .literal _ :: parts => by
    rw [checkParts, newsParts]
    exact checkParts_reports ret scope enc parts
  | .expr e :: parts => by
    rw [checkParts, newsParts]
    exact (checkExpr_reports ret scope enc e).bind fun _ => checkParts_reports ret scope enc parts

theorem checkEntries_reports (ret : Option TypeInfo) (scope : Scope) (enc : List (List Stmt)) :
    ∀ entries : List (Text × Expr),
      Reports classes (checkEntries conflict classes ret scope entries) (newsEntries enc entries)
  | [] => .pure ()
  | (_, e) :: entries => by
    rw [checkEntries, newsEntries]
    exact (checkExpr_reports ret scope enc e).bind fun _ =>
      checkEntries_reports ret scope enc entries

theorem checkBody_reports (ret : Option TypeInfo) (scope : Scope) (enc : List (List Stmt)) :
    ∀ s : Stmt, Reports classes (checkBody conflict classes ret scope s) (s.newsBody enc)
  | .block _ stmts => by
    rw [checkBody, Stmt.newsBody]
    exact (checkStmts_reports _ _ (stmts :: enc) stmts).before fun _ => rfl
  | .varDecl .. | .expr .. | .ifStmt .. | .loopWhile .. | .doWhile .. | .forIn .. | .iterate ..
  | .funDecl .. | .ret .. | .classDecl .. | .enumDecl .. | .structDecl .. | .importStmt ..
  | .exportStmt .. | .tryCatch .. | .brk .. | .cont .. => .pure ()

theorem checkStmt_reports (ret : Option TypeInfo) (scope : Scope) (enc : List (List Stmt)) :
    ∀ s : Stmt, Reports classes (checkStmt conflict classes ret scope s) (s.news enc)
  | .varDecl line name type init isFixed => by
    rw [checkStmt, Stmt.news]
    exact .after (unknown_errorIf rfl _) fun _ => (checkOpt_reports ret scope enc init).before fun _ =>
      unknown_bind_nil (checkInit_unknown ..) fun _ =>
        unknown_bind_nil (unknown_errorIf rfl _) fun _ => rfl
  | .expr _ e => by
    rw [checkStmt, Stmt.news]
    exact (checkExpr_reports ret scope enc e).before fun _ => rfl
  | .ifStmt _ cond thenB elifs elseB => by
    rw [checkStmt, Stmt.news]
    exact (checkExpr_reports ret scope enc cond).bind fun _ =>
      (checkStmt_reports ret scope enc thenB).bind fun scope =>
        (checkElifs_reports ret scope enc elifs).bind fun scope =>
          checkElse_reports ret scope enc elseB
  | .loopWhile _ cond body => by
    rw [checkStmt, Stmt.news]
    exact (checkExpr_reports ret scope enc cond).bind fun _ => checkStmt_reports ret scope enc body
  | .doWhile _ cond body => by
    rw [checkStmt, Stmt.news]
    exact (checkStmt_reports ret scope enc body).bind fun scope =>
      (checkExpr_reports ret scope enc cond).before fun _ => rfl
  | .forIn _ var iterable cond body => by
    rw [checkStmt, Stmt.news]
    exact (checkExpr_reports ret scope enc iterable).bind fun _ =>
      (checkOpt_reports ret _ enc cond).bind fun _ =>
        (checkStmt_reports ret _ enc body).before fun _ => rfl
  | .iterate _ collection item body => by
    rw [checkStmt, Stmt.news]
    exact (checkExpr_reports ret scope enc collection).bind fun _ =>
      (checkStmt_reports ret _ enc body).before fun _ => rfl
  | .funDecl _ _ params retType body _ => by
    rw [checkStmt, Stmt.news]
    exact (checkBody_reports _ _ enc body).before fun _ => rfl
  | .ret line value => by
    rw [checkStmt, Stmt.news]
    exact (checkOpt_reports ret scope enc value).before fun _ =>
      unknown_bind_nil (checkReturn_unknown ..) fun _ => rfl
  | .block _ stmts => by
    rw [checkStmt, Stmt.news]
    exact (checkStmts_reports _ _ (stmts :: enc) stmts).before fun _ => rfl
  | .classDecl _ name members _ _ => by
    rw [checkStmt, Stmt.news]
    exact (checkStmts_reports _ _ enc members).before fun _ => rfl
  | .tryCatch _ tryB errName catchB => by
    rw [checkStmt, Stmt.news]
    exact (checkStmt_reports ret scope enc tryB).bind fun scope =>
      (checkStmt_reports ret _ enc catchB).before fun _ => rfl
  | .enumDecl .. | .structDecl .. | .importStmt .. | .exportStmt .. | .brk _ | .cont _ => by
    rw [checkStmt, Stmt.news]
    exact .pure _

theorem checkStmts_reports (ret : Option TypeInfo) (scope : Scope) (enc : List (List Stmt)) :
    ∀ list : List Stmt,
      Reports classes (checkStmts conflict classes ret scope list) (newsStmts enc list)
  | [] => .pure scope
  | s :: list => by
    rw [checkStmts, newsStmts]
    exact (checkStmt_reports ret scope enc s).bind fun scope =>
      checkStmts_reports ret scope enc list

theorem checkElifs_reports (ret : Option TypeInfo) (scope : Scope) (enc : List (List Stmt)) :
    ∀ elifs : List (Expr × Stmt),
      Reports classes (checkElifs conflict classes ret scope elifs) (newsElifs enc elifs)
  | [] => .pure scope
  | (cond, body) :: elifs => by
    rw [checkElifs, newsElifs]
    exact (checkExpr_reports ret scope enc cond).bind fun _ =>
      (checkStmt_reports ret scope enc body).bind fun scope =>
        checkElifs_reports ret scope enc elifs

theorem checkElse_reports (ret : Option TypeInfo) (scope : Scope) (enc : List (List Stmt)) :
    ∀ s : Option Stmt, Reports classes (checkElse conflict classes ret scope s) (newsElse enc s)
  | none => .pure scope
  | some s => by
    rw [checkElse, newsElse]
    exact checkStmt_reports ret scope enc s

end

end Walk

/-- **The classes that the checker reports as unknown** are those missing at the top level. -/
theorem typecheckProgram_reports (program : List Stmt) :
    Reports (registerClasses program) (typecheckProgram program) (programNews program) :=
  (checkStmts_reports typesConflict _ _ _ [program] program).before fun _ => rfl

/-! ### The classes that the interpreter finds -/

/-- The memory and the environment inside of nested statement lists, the innermost first: the
classes of the outermost are in the global frame, those of every other in a frame of its own. -/
def hoistedEnv : List (List Stmt) → Heap × Env
  | [] => (Heap.globalsOnly, [0])
  | [program] => (Heap.globalsOnly.hoistClasses program [0], [0])
  | list :: outer =>
    let (h, env) := hoistedEnv outer
    (h.newFrame.hoistClasses list (h.frames.length :: env), h.frames.length :: env)

/-- A class of this name is visible inside of the lists. -/
def ClassVisible (enclosing : List (List Stmt)) (name : Text) : Prop :=
  ∃ c, (hoistedEnv enclosing).1.envGet (hoistedEnv enclosing).2 name = some (.cls c)

namespace Heap

theorem envFind_newFrame (h : Heap) (env : Env) (name : Text) :
    h.newFrame.envFind env name = h.envFind env name := by
  induction env with
  | nil => rfl
  | cons f env ih => rw [envFind, envFind, frame_newFrame, ih]

/-- In a frame with nothing in it there is what is around it. -/
theorem envGet_newFrame (h : Heap) (env : Env) (name : Text) :
    h.newFrame.envGet (h.frames.length :: env) name = h.envGet env name := by
  have hempty : h.newFrame.frame h.frames.length = [] := by
    rw [frame_newFrame]
    exact List.getD_eq_default _ _ (Nat.le_refl _)
  rw [envGet, envFind, hempty, envFind_newFrame]
  rfl

end Heap

theorem classVisible_cons (list list' : List Stmt) (outer : List (List Stmt)) (name : Text) :
    ClassVisible (list :: list' :: outer) name ↔
      name ∈ classNames list ∨ ClassVisible (list' :: outer) name := by
  set h := (hoistedEnv (list' :: outer)).1 with hh
  set env := (hoistedEnv (list' :: outer)).2
  have hlt : h.frames.length < h.newFrame.frames.length := by simp [Heap.newFrame]
  have hget : (hoistedEnv (list :: list' :: outer)).1.envGet
      (hoistedEnv (list :: list' :: outer)).2 name = _ :=
    Heap.envGet_hoistClasses hlt list name
  rw [ClassVisible, hget, Heap.envGet_newFrame, ← findLast_isSome]
  cases findLast (classNames list) name with
  | some i => simp
  | none => simp [ClassVisible, hh]

/-- **The classes in the hoisted environments** are those declared in one of the lists. -/
theorem classVisible_iff (enclosing : List (List Stmt)) (name : Text) :
    ClassVisible enclosing name ↔ ∃ list ∈ enclosing, name ∈ classNames list := by
  induction enclosing with
  | nil =>
    refine iff_of_false ?_ (by simp)
    rintro ⟨c, hc⟩
    cases hc
  | cons list outer ih =>
    cases outer with
    | nil =>
      have hget : (hoistedEnv [list]).1.envGet (hoistedEnv [list]).2 name = _ :=
        Heap.envGet_hoistClasses Nat.zero_lt_one list name
      have hnone : Heap.globalsOnly.envGet [0] name = none := rfl
      rw [ClassVisible, hget, hnone]
      cases hfind : findLast (classNames list) name with
      | some i =>
        have hmem := findLast_isSome.mp (hfind ▸ rfl : (findLast (classNames list) name).isSome)
        simp [hmem]
      | none =>
        have hmem : name ∉ classNames list := fun h => by
          have := findLast_isSome.mpr h
          rw [hfind] at this
          cases this
        simp [hmem]
    | cons list' outer =>
      rw [classVisible_cons, ih]
      simp only [List.mem_cons, exists_eq_or_imp]

/-! ### Both -/

/-- The checker reports a class as unknown only where the interpreter finds none. -/
def UnknownIsInvisible (program : List Stmt) : Prop :=
  ∀ site ∈ programNews program,
    ⟨site.line, .notAClass site.className⟩ ∈ (typecheckProgram program).errors →
      ¬ ClassVisible site.enclosing site.className

/-- Where a class declared in one of the lists around is made an instance of, one of that
name is also declared at the top level. -/
def InnerAtTop (program : List Stmt) : Prop :=
  ∀ site ∈ programNews program, ∀ list ∈ site.enclosing,
    site.className ∈ classNames list → site.className ∈ classNames program

theorem findClass_isNone_iff (program : List Stmt) (name : Text) :
    (findClass (registerClasses program) name).isNone ↔ name ∉ classNames program := by
  rw [findClass_registerClasses, ← findLast_isSome, Option.not_isSome_iff_eq_none,
    Option.isNone_iff_eq_none]

theorem mem_unknown {m : Tc Unit} {line : ℕ} {name : Text} :
    (line, name) ∈ m.unknown ↔ ⟨line, .notAClass name⟩ ∈ m.errors := by
  rw [Tc.unknown, List.mem_filterMap]
  constructor
  · rintro ⟨⟨line', message⟩, hmem, hkey⟩
    cases message with
    | notAClass name' =>
      obtain ⟨rfl, rfl⟩ := Prod.mk.inj (Option.some.inj hkey)
      exact hmem
    | _ => cases hkey
  · exact fun hmem => ⟨_, hmem, rfl⟩

/-- What is reported stands at the top level nowhere. -/
theorem notMem_of_reported {program : List Stmt} {line : ℕ} {name : Text}
    (h : ⟨line, .notAClass name⟩ ∈ (typecheckProgram program).errors) :
    name ∉ classNames program := by
  have hmem := (typecheckProgram_reports program).reported.subset (mem_unknown.mpr h)
  obtain ⟨site, hsite, hkey⟩ := List.mem_map.mp hmem
  obtain ⟨-, rfl⟩ := Prod.mk.inj hkey
  exact (findClass_isNone_iff program _).mp (List.mem_filter.mp hsite).2

/-- What stands nowhere at the top level is reported, if the checker comes back. -/
theorem reported_of_notMem {program : List Stmt}
    (hends : (typecheckProgram program).result.isSome) {site : NewSite}
    (hsite : site ∈ programNews program) (h : site.className ∉ classNames program) :
    ⟨site.line, .notAClass site.className⟩ ∈ (typecheckProgram program).errors := by
  rw [← mem_unknown, (typecheckProgram_reports program).all hends]
  exact List.mem_map.mpr
    ⟨site, List.mem_filter.mpr ⟨hsite, (findClass_isNone_iff program _).mpr h⟩, rfl⟩

/-- **The checker is right exactly when no inner class is missing at the top level.** Where
its class table has a ring it may not come back; it is right then too under the condition. -/
theorem unknown_class_iff (program : List Stmt) :
    (InnerAtTop program → UnknownIsInvisible program) ∧
    ((typecheckProgram program).result.isSome →
      (UnknownIsInvisible program ↔ InnerAtTop program)) := by
  have hright : InnerAtTop program → UnknownIsInvisible program := by
    intro htop site hsite hreported hvisible
    obtain ⟨list, hlist, hname⟩ := (classVisible_iff _ _).mp hvisible
    exact notMem_of_reported hreported (htop site hsite list hlist hname)
  refine ⟨hright, fun hends => ⟨fun h site hsite list hlist hname => ?_, hright⟩⟩
  by_contra hnot
  exact h site hsite (reported_of_notMem hends hsite hnot)
    ((classVisible_iff _ _).mpr ⟨list, hlist, hname⟩)

/-- `class A {}  fun f(a: num): num { class A {}  var x: A = new A();  return 1; }` -/
def bothLevels : List Stmt := [
  .classDecl 1 (txt "A") [] 0 none,
  .funDecl 2 (txt "f") [⟨txt "a", .new .num⟩] (.new .num) (.block 2 [
    .classDecl 3 (txt "A") [] 0 none,
    .varDecl 4 (txt "x") (.mk .classNamed none (some (txt "A"))) (some (.new 4 (txt "A") [])) false,
    .ret 5 (some (.num 5 1))]) false]

theorem unknown_class_iff_bothLevels :
    (typecheckProgram bothLevels).result.isSome ∧
    (UnknownIsInvisible bothLevels ↔ InnerAtTop bothLevels) ∧ UnknownIsInvisible bothLevels := by
  have hends : (typecheckProgram bothLevels).result.isSome := rfl
  have hiff := (unknown_class_iff bothLevels).2 hends
  refine ⟨hends, hiff, hiff.mpr ?_⟩
  unfold InnerAtTop
  decide +kernel

/-- `fun f(a: num): num { class A {}  var x: A = new A();  return 1; }  f(1);` -/
def localClass : List Stmt := [
  .funDecl 1 (txt "f") [⟨txt "a", .new .num⟩] (.new .num) (.block 1 [
    .classDecl 2 (txt "A") [] 0 none,
    .varDecl 3 (txt "x") (.mk .classNamed none (some (txt "A"))) (some (.new 3 (txt "A") [])) false,
    .ret 4 (some (.num 4 1))]) false,
  .expr 6 (.call 6 (.ident 6 (txt "f")) [.num 6 1])]

/-- The checker rejects a program that runs without an error. -/
theorem localClass_rejected :
    ¬ UnknownIsInvisible localClass ∧
    (typecheckProgram localClass).errors.map (fun e => (e.line, e.message.text))
      = [(3, txt "'A' is not a known class")] ∧
    (@interpRun Unit (@evaluator Unit silentHost 8) silentHost localClass (interpInit ())).value
      = some 0 := by
  refine ⟨fun h => ?_, rfl, ?_⟩
  · refine h ⟨3, txt "A", _⟩ List.mem_cons_self List.mem_cons_self ?_
    exact (classVisible_iff _ _).mpr ⟨_, List.mem_cons_self, List.mem_cons_self⟩
  · decide +kernel

end Jaguar
