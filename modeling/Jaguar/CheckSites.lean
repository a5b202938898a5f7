/-
The checker as a list of its checks.

Which checks there are, in which scope each is made and inside of which function depends on
the program alone. A run of the checker is the run of these checks one after the other.

* `Site`, `Site.run` — one check;
* `Expr.sites`, `Stmt.sites`, `scopeAfter` — the checks of an expression and of a statement,
  and the scope behind the statement;
* `checkStmt_sites`, `typecheckWith_sites` — **the checker runs its checks in this order**;
* `Stmt.sites_inside` — the symbols that are in scope at a statement are so at all checks in it,
  behind the newer ones.
-/
import Jaguar.Typecheck

namespace Jaguar

/-! ### One check -/

/-- What is checked. -/
inductive SiteNode
  /-- An expression, for what is checked of itself. -/
  | expr (e : Expr)
  /-- A declaration, for its type … -/
  | declared (line : ℕ) (name : Text) (type : TypeInfo)
  /-- … and for its initialiser, behind that. -/
  | initialized (line : ℕ) (name : Text) (type : TypeInfo) (init : Option Expr) (isFixed : Bool)
  | returned (line : ℕ) (value : Option Expr)

/-- A check: `fn` is the declared return type of the function around it, and whether that is
async. -/
structure Site where
  fn : Option (TypeInfo × Bool)
  scope : Scope
  node : SiteNode

section Run

variable (conflict : Option TypeInfo → Option TypeInfo → Bool) (classes : ClassTable)

/-- What an expression itself is checked for. -/
def checkNode (scope : Scope) : Expr → Tc Unit
  | .assign line target value _ => checkAssign conflict classes target value scope line
  | .new line className args => checkNew conflict classes className args scope line
  | .call line callee args => checkCall conflict classes callee args scope line
  | _ => pure ()

def Site.run (site : Site) : Tc Unit :=
  match site.node with
  | .expr e => checkNode conflict classes site.scope e
  | .declared line name type => Tc.errorIf (type.kind = .unknown) line (.missingType name)
  | .initialized line name type init isFixed => do
    checkInit conflict classes name type init site.scope line
    Tc.errorIf (isFixed && init.isNone) line .missingInitializer
  | .returned line value =>
    checkReturn conflict classes (site.fn.map Prod.fst) value site.scope line

/-- Checks one after the other. -/
def runSites : List Site → Tc Unit
  | [] => pure ()
  | site :: sites => do
    site.run conflict classes
    runSites sites

end Run

/-! ### The checks of a program -/

mutual

/-- The scope behind a statement. -/
def scopeAfter (scope : Scope) : Stmt → Scope
  | .varDecl _ name type _ isFixed => scopeDefine scope (.var name isFixed (some type))
  | .ifStmt _ _ thenB elifs elseB =>
    scopeAfterElse (scopeAfterElifs (scopeAfter scope thenB) elifs) elseB
  | .loopWhile _ _ body => scopeAfter scope body
  | .doWhile _ _ body => scopeAfter scope body
  | .classDecl _ name _ _ _ => scopeDefine scope (.var name true none)
  | .enumDecl _ name _ => scopeDefine scope (.var name true none)
  | .structDecl _ name _ => scopeDefine scope (.var name true none)
  | .tryCatch _ tryB _ _ => scopeAfter scope tryB
  | .expr .. | .forIn .. | .iterate .. | .funDecl .. | .ret .. | .block .. | .importStmt ..
  | .exportStmt .. | .brk _ | .cont _ => scope

def scopeAfterElifs (scope : Scope) : List (Expr × Stmt) → Scope
  | [] => scope
  | (_, body) :: elifs => scopeAfterElifs (scopeAfter scope body) elifs

def scopeAfterElse (scope : Scope) : Option Stmt → Scope
  | none => scope
  | some s => scopeAfter scope s

end

mutual

/-- The checks of an expression. -/
def Expr.sites (fn : Option (TypeInfo × Bool)) (scope : Scope) : Expr → List Site
  | .str line parts => ⟨fn, scope, .expr (.str line parts)⟩ :: partsSites fn scope parts
  | .binary line left right op =>
    ⟨fn, scope, .expr (.binary line left right op)⟩ :: (left.sites fn scope ++ right.sites fn scope)
  | .unary line operand op =>
    ⟨fn, scope, .expr (.unary line operand op)⟩ :: operand.sites fn scope
  | .ternary line cond thenE elseE =>
    ⟨fn, scope, .expr (.ternary line cond thenE elseE)⟩ ::
      (cond.sites fn scope ++ (thenE.sites fn scope ++ elseE.sites fn scope))
  | .between line value low high =>
    ⟨fn, scope, .expr (.between line value low high)⟩ ::
      (value.sites fn scope ++ (low.sites fn scope ++ high.sites fn scope))
  | .list line items => ⟨fn, scope, .expr (.list line items)⟩ :: exprsSites fn scope items
  | .data line entries => ⟨fn, scope, .expr (.data line entries)⟩ :: entriesSites fn scope entries
  | .funcLit line params retType body isAsync =>
    ⟨fn, scope, .expr (.funcLit line params retType body isAsync)⟩ ::
      body.bodySites (some (retType, isAsync)) (paramScope params scope)
  | .await line e => ⟨fn, scope, .expr (.await line e)⟩ :: e.sites fn scope
  | .member line object name =>
    ⟨fn, scope, .expr (.member line object name)⟩ :: object.sites fn scope
  | .index line object index =>
    ⟨fn, scope, .expr (.index line object index)⟩ :: (object.sites fn scope ++ index.sites fn scope)
  | .assign line target value op =>
    ⟨fn, scope, .expr (.assign line target value op)⟩ ::
      (target.sites fn scope ++ value.sites fn scope)
  | .new line className args =>
    ⟨fn, scope, .expr (.new line className args)⟩ :: exprsSites fn scope args
  -- a call is checked behind its arguments
  | .call line callee args => exprsSites fn scope args ++
    (callee.sites fn scope ++ [⟨fn, scope, .expr (.call line callee args)⟩])
  | .num line n => [⟨fn, scope, .expr (.num line n)⟩]
  | .decimal line d => [⟨fn, scope, .expr (.decimal line d)⟩]
  | .scifi line d => [⟨fn, scope, .expr (.scifi line d)⟩]
  | .bool line b => [⟨fn, scope, .expr (.bool line b)⟩]
  | .ident line name => [⟨fn, scope, .expr (.ident line name)⟩]

def exprsSites (fn : Option (TypeInfo × Bool)) (scope : Scope) : List Expr → List Site
  | [] => []
  | e :: es => e.sites fn scope ++ exprsSites fn scope es

def optSites (fn : Option (TypeInfo × Bool)) (scope : Scope) : Option Expr → List Site
  | none => []
  | some e => e.sites fn scope

def partsSites (fn : Option (TypeInfo × Bool)) (scope : Scope) : List StrPart → List Site
  | [] => []
  | .literal _ :: parts => partsSites fn scope parts
  | .expr e :: parts => e.sites fn scope ++ partsSites fn scope parts

def entriesSites (fn : Option (TypeInfo × Bool)) (scope : Scope) : List (Text × Expr) → List Site
  | [] => []
  | (_, e) :: entries => e.sites fn scope ++ entriesSites fn scope entries

/-- The checks of the body of a function, with the scope of its parameters. -/
def Stmt.bodySites (fn : Option (TypeInfo × Bool)) (scope : Scope) : Stmt → List Site
  | .block _ stmts => stmtsSites fn (hoistSigs stmts ([] :: scope)) stmts
  | _ => []

/-- The checks of a statement. -/
def Stmt.sites (fn : Option (TypeInfo × Bool)) (scope : Scope) : Stmt → List Site
  | .varDecl line name type init isFixed =>
    ⟨fn, scope, .declared line name type⟩ ::
      (optSites fn scope init ++ [⟨fn, scope, .initialized line name type init isFixed⟩])
  | .expr _ e => e.sites fn scope
  | .ifStmt _ cond thenB elifs elseB =>
    cond.sites fn scope ++ (thenB.sites fn scope ++
      (elifsSites fn (scopeAfter scope thenB) elifs ++
        elseSites fn (scopeAfterElifs (scopeAfter scope thenB) elifs) elseB))
  | .loopWhile _ cond body => cond.sites fn scope ++ body.sites fn scope
  | .doWhile _ cond body => body.sites fn scope ++ cond.sites fn (scopeAfter scope body)
  | .forIn _ var iterable cond body => iterable.sites fn scope ++
    (optSites fn (varScope var scope) cond ++ body.sites fn (varScope var scope))
  | .iterate _ collection item body =>
    collection.sites fn scope ++ body.sites fn (varScope item scope)
  | .funDecl _ _ params retType body isAsync =>
    body.bodySites (some (retType, isAsync)) (paramScope params scope)
  | .ret line value => optSites fn scope value ++ [⟨fn, scope, .returned line value⟩]
  | .block _ stmts => stmtsSites fn (hoistSigs stmts ([] :: scope)) stmts
  | .classDecl _ name members _ _ =>
    stmtsSites fn (memberScope (scopeDefine scope (.var name true none))) members
  | .tryCatch _ tryB errName catchB =>
    tryB.sites fn scope ++ catchB.sites fn (varScope errName (scopeAfter scope tryB))
  | .enumDecl .. | .structDecl .. | .importStmt .. | .exportStmt .. | .brk _ | .cont _ => []

def stmtsSites (fn : Option (TypeInfo × Bool)) (scope : Scope) : List Stmt → List Site
  | [] => []
  | s :: list => s.sites fn scope ++ stmtsSites fn (scopeAfter scope s) list

def elifsSites (fn : Option (TypeInfo × Bool)) (scope : Scope) : List (Expr × Stmt) → List Site
  | [] => []
  | (cond, body) :: elifs => cond.sites fn scope ++
    (body.sites fn scope ++ elifsSites fn (scopeAfter scope body) elifs)

def elseSites (fn : Option (TypeInfo × Bool)) (scope : Scope) : Option Stmt → List Site
  | none => []
  | some s => s.sites fn scope

end

/-- The checks of a statement list with a scope of its own. -/
def blockSites (fn : Option (TypeInfo × Bool)) (outer : Scope) (list : List Stmt) : List Site :=
  stmtsSites fn (hoistSigs list ([] :: outer)) list

/-- The checks of a program. -/
def programSites (program : List Stmt) : List Site := blockSites none [[]] program

/-! ### The checker runs its checks -/

section Monad

variable {α β γ : Type}

theorem tc_pure_bind (a : α) (f : α → Tc β) : (pure a >>= f : Tc β) = f a := rfl

theorem tc_bind_pure (m : Tc Unit) : (m >>= fun _ => pure ()) = m := by
  obtain ⟨errors, result⟩ := m
  cases result with
  | none => rfl
  | some a =>
    show Tc.mk (errors ++ []) (some ()) = _
    rw [List.append_nil]

theorem tc_bind_assoc (m : Tc α) (f : α → Tc β) (g : β → Tc γ) :
    (m >>= f >>= g) = m >>= fun a => f a >>= g := by
  obtain ⟨errors, result⟩ := m
  cases result with
  | none => rfl
  | some a =>
    show (Tc.mk (errors ++ (f a).errors) (f a).result >>= g) = Tc.mk (errors ++ _) _
    cases hres : (f a).result with
    | none =>
      show Tc.mk (errors ++ (f a).errors) none = Tc.mk (errors ++ (f a >>= g).errors) (f a >>= g).result
      show _ = Tc.mk (errors ++ (Tc.bind (f a) g).errors) (Tc.bind (f a) g).result
      rw [Tc.bind, hres]
    | some b =>
      show Tc.mk (errors ++ (f a).errors ++ (g b).errors) (g b).result
        = Tc.mk (errors ++ (Tc.bind (f a) g).errors) (Tc.bind (f a) g).result
      rw [Tc.bind, hres, List.append_assoc]

end Monad

section Walk

variable (conflict : Option TypeInfo → Option TypeInfo → Bool) (classes : ClassTable)

theorem runSites_append (sites sites' : List Site) :
    runSites conflict classes (sites ++ sites')
      = runSites conflict classes sites >>= fun _ => runSites conflict classes sites' := by
  induction sites with
  | nil => rfl
  | cons site sites ih => rw [List.cons_append, runSites, runSites, ih, tc_bind_assoc]

theorem runSites_singleton (site : Site) :
    runSites conflict classes [site] = site.run conflict classes := by
  rw [runSites, runSites, tc_bind_pure]

/-- An expression of which nothing itself is checked. -/
theorem runSites_quiet {fn : Option (TypeInfo × Bool)} {scope : Scope} {e : Expr}
    (h : checkNode conflict classes scope e = pure ()) (sites : List Site) :
    runSites conflict classes (⟨fn, scope, .expr e⟩ :: sites) = runSites conflict classes sites := by
  show (checkNode conflict classes scope e >>= fun _ => runSites conflict classes sites) = _
  rw [h]
  rfl

mutual

theorem checkExpr_sites (fn : Option (TypeInfo × Bool)) (scope : Scope) : ∀ e : Expr,
    checkExpr conflict classes (fn.map Prod.fst) scope e
      = runSites conflict classes (e.sites fn scope)
  | .str line parts => by
    rw [checkExpr, Expr.sites, runSites_quiet _ _ rfl, checkParts_sites]
  | .binary _ left right _ => by
    rw [checkExpr, Expr.sites, runSites_quiet _ _ rfl, runSites_append, checkExpr_sites fn scope left,
      checkExpr_sites fn scope right]
  | .unary _ operand _ => by
    rw [checkExpr, Expr.sites, runSites_quiet _ _ rfl, checkExpr_sites fn scope operand]
  | .ternary _ cond thenE elseE => by
    rw [checkExpr, Expr.sites, runSites_quiet _ _ rfl, runSites_append, runSites_append,
      checkExpr_sites fn scope cond, checkExpr_sites fn scope thenE, checkExpr_sites fn scope elseE]
  | .between _ value low high => by
    rw [checkExpr, Expr.sites, runSites_quiet _ _ rfl, runSites_append, runSites_append,
      checkExpr_sites fn scope value, checkExpr_sites fn scope low, checkExpr_sites fn scope high]
  | .list _ items => by
    rw [checkExpr, Expr.sites, runSites_quiet _ _ rfl, checkExprs_sites]
  | .data _ entries => by
    rw [checkExpr, Expr.sites, runSites_quiet _ _ rfl, checkEntries_sites]
  | .funcLit _ params retType body isAsync => by
    rw [checkExpr, Expr.sites, runSites_quiet _ _ rfl]
    exact checkBody_sites (some (retType, isAsync)) (paramScope params scope) body
  | .await _ e => by
    rw [checkExpr, Expr.sites, runSites_quiet _ _ rfl, checkExpr_sites fn scope e]
  | .member _ object _ => by
    rw [checkExpr, Expr.sites, runSites_quiet _ _ rfl, checkExpr_sites fn scope object]
  | .index _ object index => by
    rw [checkExpr, Expr.sites, runSites_quiet _ _ rfl, runSites_append,
      checkExpr_sites fn scope object, checkExpr_sites fn scope index]
  | .assign line target value op => by
    rw [checkExpr, Expr.sites, runSites, runSites_append, checkExpr_sites fn scope target,
      checkExpr_sites fn scope value]
    rfl
  | .new line className args => by
    rw [checkExpr, Expr.sites, runSites, checkExprs_sites fn scope args]
    rfl
  | .call line callee args => by
    rw [checkExpr, Expr.sites, runSites_append, runSites_append, runSites_singleton,
      checkExprs_sites fn scope args, checkExpr_sites fn scope callee]
    rfl
  | .num .. | .decimal .. | .scifi .. | .bool .. | .ident .. => by
    rw [checkExpr, Expr.sites, runSites_singleton]
    rfl

theorem checkExprs_sites (fn : Option (TypeInfo × Bool)) (scope : Scope) : ∀ es : List Expr,
    checkExprs conflict classes (fn.map Prod.fst) scope es
      = runSites conflict classes (exprsSites fn scope es)
  | [] => rfl
  | e :: es => by
    rw [checkExprs, exprsSites, runSites_append, checkExpr_sites fn scope e,
      checkExprs_sites fn scope es]

theorem checkOpt_sites (fn : Option (TypeInfo × Bool)) (scope : Scope) : ∀ e : Option Expr,
    checkOpt conflict classes (fn.map Prod.fst) scope e
      = runSites conflict classes (optSites fn scope e)
  | none => rfl
  | some e => by rw [checkOpt, optSites, checkExpr_sites fn scope e]

theorem checkParts_sites (fn : Option (TypeInfo × Bool)) (scope : Scope) : ∀ parts : List StrPart,
    checkParts conflict classes (fn.map Prod.fst) scope parts
      = runSites conflict classes (partsSites fn scope parts)
  | [] => rfl
  | .literal _ :: parts => by rw [checkParts, partsSites, checkParts_sites fn scope parts]
  | .expr e :: parts => by
    rw [checkParts, partsSites, runSites_append, checkExpr_sites fn scope e,
      checkParts_sites fn scope parts]

theorem checkEntries_sites (fn : Option (TypeInfo × Bool)) (scope : Scope) :
    ∀ entries : List (Text × Expr),
      checkEntries conflict classes (fn.map Prod.fst) scope entries
        = runSites conflict classes (entriesSites fn scope entries)
  | [] => rfl
  | (_, e) :: entries => by
    rw [checkEntries, entriesSites, runSites_append, checkExpr_sites fn scope e,
      checkEntries_sites fn scope entries]

theorem checkBody_sites (fn : Option (TypeInfo × Bool)) (scope : Scope) : ∀ s : Stmt,
    checkBody conflict classes (fn.map Prod.fst) scope s
      = runSites conflict classes (s.bodySites fn scope)
  | .block _ stmts => by
    rw [checkBody, Stmt.bodySites, checkStmts_sites fn _ stmts, tc_bind_assoc]
    exact tc_bind_pure _
  | .varDecl .. | .expr .. | .ifStmt .. | .loopWhile .. | .doWhile .. | .forIn .. | .iterate ..
  | .funDecl .. | .ret .. | .classDecl .. | .enumDecl .. | .structDecl .. | .importStmt ..
  | .exportStmt .. | .tryCatch .. | .brk .. | .cont .. => rfl

/-- **A statement's checks, and the scope behind it.** -/
theorem checkStmt_sites (fn : Option (TypeInfo × Bool)) (scope : Scope) : ∀ s : Stmt,
    checkStmt conflict classes (fn.map Prod.fst) scope s = do
      runSites conflict classes (s.sites fn scope)
      pure (scopeAfter scope s)
  | .varDecl line name type init isFixed => by
    rw [checkStmt, Stmt.sites, runSites, runSites_append, runSites_singleton,
      checkOpt_sites fn scope init, scopeAfter]
    simp only [Site.run, tc_bind_assoc]
  | .expr _ e => by rw [checkStmt, Stmt.sites, checkExpr_sites fn scope e, scopeAfter]
  | .ifStmt _ cond thenB elifs elseB => by
    rw [checkStmt, Stmt.sites, checkExpr_sites fn scope cond]
    simp only [runSites_append, tc_bind_assoc, checkStmt_sites fn _ thenB, tc_pure_bind,
      checkElifs_sites fn _ elifs, checkElse_sites fn _ elseB, scopeAfter]
  | .loopWhile _ cond body => by
    rw [checkStmt, Stmt.sites, checkExpr_sites fn scope cond]
    simp only [runSites_append, tc_bind_assoc, checkStmt_sites fn _ body, scopeAfter]
  | .doWhile _ cond body => by
    rw [checkStmt, Stmt.sites, checkStmt_sites fn scope body]
    simp only [runSites_append, tc_bind_assoc, tc_pure_bind, checkExpr_sites fn _ cond, scopeAfter]
  | .forIn _ var iterable cond body => by
    rw [checkStmt, Stmt.sites, checkExpr_sites fn scope iterable, checkOpt_sites fn _ cond]
    simp only [runSites_append, tc_bind_assoc, tc_pure_bind, checkStmt_sites fn _ body, scopeAfter]
  | .iterate _ collection item body => by
    rw [checkStmt, Stmt.sites, checkExpr_sites fn scope collection]
    simp only [runSites_append, tc_bind_assoc, tc_pure_bind, checkStmt_sites fn _ body, scopeAfter]
  | .funDecl _ _ params retType body isAsync => by
    rw [checkStmt, Stmt.sites, scopeAfter]
    exact congrArg (· >>= fun _ => pure scope)
      (checkBody_sites (some (retType, isAsync)) (paramScope params scope) body)
  | .ret line value => by
    rw [checkStmt, Stmt.sites, runSites_append, runSites_singleton, checkOpt_sites fn scope value,
      scopeAfter, tc_bind_assoc]
    rfl
  | .block _ stmts => by
    rw [checkStmt, Stmt.sites, checkStmts_sites fn _ stmts, scopeAfter, tc_bind_assoc]
    rfl
  | .classDecl _ name members _ _ => by
    rw [checkStmt, Stmt.sites]
    simp only [checkStmts_sites fn _ members, scopeAfter, tc_bind_assoc, tc_pure_bind]
  | .tryCatch _ tryB errName catchB => by
    rw [checkStmt, Stmt.sites, checkStmt_sites fn scope tryB]
    simp only [runSites_append, tc_bind_assoc, tc_pure_bind, checkStmt_sites fn _ catchB, scopeAfter]
  | .enumDecl .. | .structDecl .. | .importStmt .. | .exportStmt .. | .brk _ | .cont _ => by
    rw [checkStmt, Stmt.sites, scopeAfter]
    rfl

theorem checkStmts_sites (fn : Option (TypeInfo × Bool)) (scope : Scope) : ∀ list : List Stmt,
    checkStmts conflict classes (fn.map Prod.fst) scope list = do
      runSites conflict classes (stmtsSites fn scope list)
      pure (list.foldl scopeAfter scope)
  | [] => rfl
  | s :: list => by
    rw [checkStmts, stmtsSites, checkStmt_sites fn scope s]
    simp only [runSites_append, tc_bind_assoc, tc_pure_bind, checkStmts_sites fn _ list,
      List.foldl_cons]

theorem checkElifs_sites (fn : Option (TypeInfo × Bool)) (scope : Scope) :
    ∀ elifs : List (Expr × Stmt), checkElifs conflict classes (fn.map Prod.fst) scope elifs = do
      runSites conflict classes (elifsSites fn scope elifs)
      pure (scopeAfterElifs scope elifs)
  | [] => rfl
  | (cond, body) :: elifs => by
    rw [checkElifs, elifsSites, checkExpr_sites fn scope cond]
    simp only [runSites_append, tc_bind_assoc, tc_pure_bind, checkStmt_sites fn _ body,
      checkElifs_sites fn _ elifs, scopeAfterElifs]

theorem checkElse_sites (fn : Option (TypeInfo × Bool)) (scope : Scope) : ∀ s : Option Stmt,
    checkElse conflict classes (fn.map Prod.fst) scope s = do
      runSites conflict classes (elseSites fn scope s)
      pure (scopeAfterElse scope s)
  | none => rfl
  | some s => by rw [checkElse, elseSites, checkStmt_sites fn scope s, scopeAfterElse]

end

/-- **A run of the checker is the run of its checks, one after the other.** -/
theorem typecheckWith_sites (program : List Stmt) :
    typecheckWith conflict program
      = runSites conflict (registerClasses program) (programSites program) := by
  unfold typecheckWith checkBlock
  rw [show (none : Option TypeInfo) = (none : Option (TypeInfo × Bool)).map Prod.fst from rfl,
    checkStmts_sites, tc_bind_assoc]
  exact tc_bind_pure _

end Walk

/-! ### The scopes of the checks -/

/-- The second scope has the symbols of the first, behind newer ones. -/
def Scope.Inside (scope scope' : Scope) : Prop := scope.flatten <:+ scope'.flatten

theorem Scope.Inside.refl (scope : Scope) : scope.Inside scope := List.suffix_refl _

theorem Scope.Inside.trans {scope scope' scope'' : Scope} (h : scope.Inside scope')
    (h' : scope'.Inside scope'') : scope.Inside scope'' := List.IsSuffix.trans h h'

theorem inside_push (scope : Scope) : scope.Inside ([] :: scope) := List.suffix_refl _

theorem inside_scopeDefine (scope : Scope) (sym : Sym) : scope.Inside (scopeDefine scope sym) := by
  cases scope with
  | nil => exact List.suffix_refl _
  | cons syms parent => exact List.suffix_cons sym _

theorem inside_varScope (name : Text) (scope : Scope) : scope.Inside (varScope name scope) :=
  (inside_push scope).trans (inside_scopeDefine _ _)

theorem inside_memberScope (scope : Scope) : scope.Inside (memberScope scope) :=
  ((inside_push scope).trans (inside_scopeDefine _ _)).trans (inside_scopeDefine _ _)

theorem inside_hoistSigs (list : List Stmt) (scope : Scope) : scope.Inside (hoistSigs list scope) := by
  unfold hoistSigs
  induction list generalizing scope with
  | nil => exact .refl scope
  | cons s list ih =>
    rw [List.foldl_cons]
    refine Scope.Inside.trans ?_ (ih _)
    split
    · exact inside_scopeDefine _ _
    · exact .refl scope

theorem inside_block (list : List Stmt) (scope : Scope) :
    scope.Inside (hoistSigs list ([] :: scope)) :=
  (inside_push scope).trans (inside_hoistSigs list _)

theorem inside_paramScope (params : List Param) (scope : Scope) :
    scope.Inside (paramScope params scope) := by
  unfold paramScope
  refine (inside_push scope).trans ?_
  generalize [] :: scope = inner
  induction params generalizing inner with
  | nil => exact .refl inner
  | cons p params ih =>
    rw [List.foldl_cons]
    exact (inside_scopeDefine inner _).trans (ih _)

mutual

theorem inside_scopeAfter (scope : Scope) : ∀ s : Stmt, scope.Inside (scopeAfter scope s)
  | .varDecl .. => by
    rw [scopeAfter]
    exact inside_scopeDefine _ _
  | .ifStmt _ _ thenB elifs elseB => by
    rw [scopeAfter]
    exact ((inside_scopeAfter scope thenB).trans (inside_scopeAfterElifs _ elifs)).trans
      (inside_scopeAfterElse _ elseB)
  | .loopWhile _ _ body => by
    rw [scopeAfter]
    exact inside_scopeAfter scope body
  | .doWhile _ _ body => by
    rw [scopeAfter]
    exact inside_scopeAfter scope body
  | .tryCatch _ tryB _ _ => by
    rw [scopeAfter]
    exact inside_scopeAfter scope tryB
  | .classDecl .. | .enumDecl .. | .structDecl .. => by
    rw [scopeAfter]
    exact inside_scopeDefine _ _
  | .expr .. | .forIn .. | .iterate .. | .funDecl .. | .ret .. | .block .. | .importStmt ..
  | .exportStmt .. | .brk _ | .cont _ => by
    rw [scopeAfter]
    exact .refl scope

theorem inside_scopeAfterElifs (scope : Scope) : ∀ elifs : List (Expr × Stmt),
    scope.Inside (scopeAfterElifs scope elifs)
  | [] => .refl scope
  | (_, body) :: elifs => by
    rw [scopeAfterElifs]
    exact (inside_scopeAfter scope body).trans (inside_scopeAfterElifs _ elifs)

theorem inside_scopeAfterElse (scope : Scope) : ∀ s : Option Stmt,
    scope.Inside (scopeAfterElse scope s)
  | none => .refl scope
  | some s => inside_scopeAfter scope s

end

/-- All the checks are made inside of the scope. -/
def AllInside (scope : Scope) (sites : List Site) : Prop := ∀ site ∈ sites, scope.Inside site.scope

section AllInside

variable {scope : Scope} {sites sites' : List Site}

theorem AllInside.nil : AllInside scope [] := fun _ h => absurd h List.not_mem_nil

theorem AllInside.cons {fn : Option (TypeInfo × Bool)} {node : SiteNode}
    (h : AllInside scope sites) : AllInside scope (⟨fn, scope, node⟩ :: sites) := by
  intro site hsite
  rcases List.mem_cons.mp hsite with rfl | hsite
  · exact .refl scope
  · exact h site hsite

theorem AllInside.append (h : AllInside scope sites) (h' : AllInside scope sites') :
    AllInside scope (sites ++ sites') := by
  intro site hsite
  rcases List.mem_append.mp hsite with hsite | hsite
  · exact h site hsite
  · exact h' site hsite

theorem AllInside.of_inside {inner : Scope} (h : AllInside inner sites) (hin : scope.Inside inner) :
    AllInside scope sites := fun site hsite => hin.trans (h site hsite)

end AllInside

mutual

theorem Expr.sites_inside (fn : Option (TypeInfo × Bool)) (scope : Scope) : ∀ e : Expr,
    AllInside scope (e.sites fn scope)
  | .str _ parts => by
    rw [Expr.sites]
    exact (partsSites_inside fn scope parts).cons
  | .binary _ left right _ => by
    rw [Expr.sites]
    exact ((left.sites_inside fn scope).append (right.sites_inside fn scope)).cons
  | .unary _ operand _ => by
    rw [Expr.sites]
    exact (operand.sites_inside fn scope).cons
  | .ternary _ cond thenE elseE => by
    rw [Expr.sites]
    exact ((cond.sites_inside fn scope).append
      ((thenE.sites_inside fn scope).append (elseE.sites_inside fn scope))).cons
  | .between _ value low high => by
    rw [Expr.sites]
    exact ((value.sites_inside fn scope).append
      ((low.sites_inside fn scope).append (high.sites_inside fn scope))).cons
  | .list _ items => by
    rw [Expr.sites]
    exact (exprsSites_inside fn scope items).cons
  | .data _ entries => by
    rw [Expr.sites]
    exact (entriesSites_inside fn scope entries).cons
  | .funcLit _ params _ body _ => by
    rw [Expr.sites]
    exact ((body.bodySites_inside _ _).of_inside (inside_paramScope params scope)).cons
  | .await _ e => by
    rw [Expr.sites]
    exact (e.sites_inside fn scope).cons
  | .member _ object _ => by
    rw [Expr.sites]
    exact (object.sites_inside fn scope).cons
  | .index _ object index => by
    rw [Expr.sites]
    exact ((object.sites_inside fn scope).append (index.sites_inside fn scope)).cons
  | .assign _ target value _ => by
    rw [Expr.sites]
    exact ((target.sites_inside fn scope).append (value.sites_inside fn scope)).cons
  | .new _ _ args => by
    rw [Expr.sites]
    exact (exprsSites_inside fn scope args).cons
  | .call _ callee args => by
    rw [Expr.sites]
    exact (exprsSites_inside fn scope args).append
      ((callee.sites_inside fn scope).append AllInside.nil.cons)
  | .num .. | .decimal .. | .scifi .. | .bool .. | .ident .. => by
    rw [Expr.sites]
    exact AllInside.nil.cons

theorem exprsSites_inside (fn : Option (TypeInfo × Bool)) (scope : Scope) : ∀ es : List Expr,
    AllInside scope (exprsSites fn scope es)
  | [] => .nil
  | e :: es => by
    rw [exprsSites]
    exact (e.sites_inside fn scope).append (exprsSites_inside fn scope es)

theorem optSites_inside (fn : Option (TypeInfo × Bool)) (scope : Scope) : ∀ e : Option Expr,
    AllInside scope (optSites fn scope e)
  | none => .nil
  | some e => e.sites_inside fn scope

theorem partsSites_inside (fn : Option (TypeInfo × Bool)) (scope : Scope) :
    ∀ parts : List StrPart, AllInside scope (partsSites fn scope parts)
  | [] => .nil
  | .literal _ :: parts => partsSites_inside fn scope parts
  | .expr e :: parts => by
    rw [partsSites]
    exact (e.sites_inside fn scope).append (partsSites_inside fn scope parts)

theorem entriesSites_inside (fn : Option (TypeInfo × Bool)) (scope : Scope) :
    ∀ entries : List (Text × Expr), AllInside scope (entriesSites fn scope entries)
  | [] => .nil
  | (_, e) :: entries => by
    rw [entriesSites]
    exact (e.sites_inside fn scope).append (entriesSites_inside fn scope entries)

theorem Stmt.bodySites_inside (fn : Option (TypeInfo × Bool)) (scope : Scope) : ∀ s : Stmt,
    AllInside scope (s.bodySites fn scope)
  | .block _ stmts => by
    rw [Stmt.bodySites]
    exact (stmtsSites_inside fn _ stmts).of_inside (inside_block stmts scope)
  | .varDecl .. | .expr .. | .ifStmt .. | .loopWhile .. | .doWhile .. | .forIn .. | .iterate ..
  | .funDecl .. | .ret .. | .classDecl .. | .enumDecl .. | .structDecl .. | .importStmt ..
  | .exportStmt .. | .tryCatch .. | .brk .. | .cont .. => .nil

theorem Stmt.sites_inside (fn : Option (TypeInfo × Bool)) (scope : Scope) : ∀ s : Stmt,
    AllInside scope (s.sites fn scope)
  | .varDecl _ _ _ init _ => by
    rw [Stmt.sites]
    exact ((optSites_inside fn scope init).append AllInside.nil.cons).cons
  | .expr _ e => by
    rw [Stmt.sites]
    exact e.sites_inside fn scope
  | .ifStmt _ cond thenB elifs elseB => by
    rw [Stmt.sites]
    have hthen := inside_scopeAfter scope thenB
    exact (cond.sites_inside fn scope).append ((thenB.sites_inside fn scope).append
      (((elifsSites_inside fn _ elifs).of_inside hthen).append
        ((elseSites_inside fn _ elseB).of_inside (hthen.trans (inside_scopeAfterElifs _ elifs)))))
  | .loopWhile _ cond body => by
    rw [Stmt.sites]
    exact (cond.sites_inside fn scope).append (body.sites_inside fn scope)
  | .doWhile _ cond body => by
    rw [Stmt.sites]
    exact (body.sites_inside fn scope).append
      ((cond.sites_inside fn _).of_inside (inside_scopeAfter scope body))
  | .forIn _ var iterable cond body => by
    rw [Stmt.sites]
    exact (iterable.sites_inside fn scope).append
      (((optSites_inside fn _ cond).append (body.sites_inside fn _)).of_inside
        (inside_varScope var scope))
  | .iterate _ collection item body => by
    rw [Stmt.sites]
    exact (collection.sites_inside fn scope).append
      ((body.sites_inside fn _).of_inside (inside_varScope item scope))
  | .funDecl _ _ params _ body _ => by
    rw [Stmt.sites]
    exact (body.bodySites_inside _ _).of_inside (inside_paramScope params scope)
  | .ret _ value => by
    rw [Stmt.sites]
    exact (optSites_inside fn scope value).append AllInside.nil.cons
  | .block _ stmts => by
    rw [Stmt.sites]
    exact (stmtsSites_inside fn _ stmts).of_inside (inside_block stmts scope)
  | .classDecl _ name members _ _ => by
    rw [Stmt.sites]
    exact (stmtsSites_inside fn _ members).of_inside
      ((inside_scopeDefine scope _).trans (inside_memberScope _))
  | .tryCatch _ tryB errName catchB => by
    rw [Stmt.sites]
    exact (tryB.sites_inside fn scope).append ((catchB.sites_inside fn _).of_inside
      ((inside_scopeAfter scope tryB).trans (inside_varScope errName _)))
  | .enumDecl .. | .structDecl .. | .importStmt .. | .exportStmt .. | .brk _ | .cont _ => .nil

theorem stmtsSites_inside (fn : Option (TypeInfo × Bool)) (scope : Scope) : ∀ list : List Stmt,
    AllInside scope (stmtsSites fn scope list)
  | [] => .nil
  | s :: list => by
    rw [stmtsSites]
    exact (s.sites_inside fn scope).append
      ((stmtsSites_inside fn _ list).of_inside (inside_scopeAfter scope s))

theorem elifsSites_inside (fn : Option (TypeInfo × Bool)) (scope : Scope) :
    ∀ elifs : List (Expr × Stmt), AllInside scope (elifsSites fn scope elifs)
  | [] => .nil
  | (cond, body) :: elifs => by
    rw [elifsSites]
    exact (cond.sites_inside fn scope).append ((body.sites_inside fn scope).append
      ((elifsSites_inside fn _ elifs).of_inside (inside_scopeAfter scope body)))

theorem elseSites_inside (fn : Option (TypeInfo × Bool)) (scope : Scope) : ∀ s : Option Stmt,
    AllInside scope (elseSites fn scope s)
  | none => .nil
  | some s => s.sites_inside fn scope

end

end Jaguar
