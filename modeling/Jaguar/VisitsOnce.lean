/-
Every expression is checked once (`typecheck.c`).

* `Expr.nodes`, `programNodes` — all the expressions of a program, wherever they stand;
* `programVisited_perm` — the checker's checks of expressions: each of these, once;
* `Site.returns` — without a ring of classes every check comes back;
* `visits_once` — **the errors for unknown classes are as many as the `new` expressions whose
  class the top level does not have**; inferring types reports none.
-/
import Jaguar.CheckSites
import Jaguar.KnownClasses
import Mathlib.Algebra.Order.Group.Multiset
import Mathlib.Tactic.Abel

namespace Jaguar

/-! ### The expressions of a program -/

mutual

/-- An expression, and those inside of it. -/
def Expr.nodes : Expr → List Expr
  | .str line parts => .str line parts :: partsNodes parts
  | .binary line left right op => .binary line left right op :: (left.nodes ++ right.nodes)
  | .unary line operand op => .unary line operand op :: operand.nodes
  | .ternary line cond thenE elseE =>
    .ternary line cond thenE elseE :: (cond.nodes ++ (thenE.nodes ++ elseE.nodes))
  | .between line value low high =>
    .between line value low high :: (value.nodes ++ (low.nodes ++ high.nodes))
  | .list line items => .list line items :: exprsNodes items
  | .data line entries => .data line entries :: entriesNodes entries
  | .funcLit line params retType body isAsync =>
    .funcLit line params retType body isAsync :: body.bodyNodes
  | .await line e => .await line e :: e.nodes
  | .member line object name => .member line object name :: object.nodes
  | .index line object index => .index line object index :: (object.nodes ++ index.nodes)
  | .assign line target value op => .assign line target value op :: (target.nodes ++ value.nodes)
  | .new line className args => .new line className args :: exprsNodes args
  | .call line callee args => .call line callee args :: (callee.nodes ++ exprsNodes args)
  | .num line n => [.num line n]
  | .decimal line d => [.decimal line d]
  | .scifi line d => [.scifi line d]
  | .bool line b => [.bool line b]
  | .ident line name => [.ident line name]

def exprsNodes : List Expr → List Expr
  | [] => []
  | e :: es => e.nodes ++ exprsNodes es

def optNodes : Option Expr → List Expr
  | none => []
  | some e => e.nodes

def partsNodes : List StrPart → List Expr
  | [] => []
  | .literal _ :: parts => partsNodes parts
  | .expr e :: parts => e.nodes ++ partsNodes parts

def entriesNodes : List (Text × Expr) → List Expr
  | [] => []
  | (_, e) :: entries => e.nodes ++ entriesNodes entries

/-- The expressions in the body of a function, which is a block. -/
def Stmt.bodyNodes : Stmt → List Expr
  | .block _ stmts => stmtsNodes stmts
  | _ => []

def Stmt.nodes : Stmt → List Expr
  | .varDecl _ _ _ init _ => optNodes init
  | .expr _ e => e.nodes
  | .ifStmt _ cond thenB elifs elseB =>
    cond.nodes ++ (thenB.nodes ++ (elifsNodes elifs ++ elseNodes elseB))
  | .loopWhile _ cond body => cond.nodes ++ body.nodes
  | .doWhile _ cond body => body.nodes ++ cond.nodes
  | .forIn _ _ iterable cond body => iterable.nodes ++ (optNodes cond ++ body.nodes)
  | .iterate _ collection _ body => collection.nodes ++ body.nodes
  | .funDecl _ _ _ _ body _ => body.bodyNodes
  | .ret _ value => optNodes value
  | .block _ stmts => stmtsNodes stmts
  | .classDecl _ _ members _ _ => stmtsNodes members
  | .tryCatch _ tryB _ catchB => tryB.nodes ++ catchB.nodes
  | .enumDecl .. | .structDecl .. | .importStmt .. | .exportStmt .. | .brk _ | .cont _ => []

def stmtsNodes : List Stmt → List Expr
  | [] => []
  | s :: list => s.nodes ++ stmtsNodes list

def elifsNodes : List (Expr × Stmt) → List Expr
  | [] => []
  | (cond, body) :: elifs => cond.nodes ++ (body.nodes ++ elifsNodes elifs)

def elseNodes : Option Stmt → List Expr
  | none => []
  | some s => s.nodes

end

/-- The expressions of a program. -/
def programNodes (program : List Stmt) : List Expr := stmtsNodes program

/-- The expression that a check is of. -/
def Site.expr? (site : Site) : Option Expr :=
  match site.node with
  | .expr e => some e
  | _ => none

/-- The expressions that the checks are of. -/
def visited (sites : List Site) : List Expr := sites.filterMap Site.expr?

theorem visited_append (sites sites' : List Site) :
    visited (sites ++ sites') = visited sites ++ visited sites' := List.filterMap_append

theorem visited_cons (fn : Option (TypeInfo × Bool)) (scope : Scope) (e : Expr)
    (sites : List Site) : visited (⟨fn, scope, .expr e⟩ :: sites) = e :: visited sites := rfl

mutual

theorem Expr.visited_perm (fn : Option (TypeInfo × Bool)) (scope : Scope) : ∀ e : Expr,
    (visited (e.sites fn scope)).Perm e.nodes
  | .str _ parts => by
    rw [Expr.sites, Expr.nodes, visited_cons]
    exact (partsVisited_perm fn scope parts).cons _
  | .binary _ left right _ => by
    rw [Expr.sites, Expr.nodes, visited_cons, visited_append]
    exact ((left.visited_perm fn scope).append (right.visited_perm fn scope)).cons _
  | .unary _ operand _ => by
    rw [Expr.sites, Expr.nodes, visited_cons]
    exact (operand.visited_perm fn scope).cons _
  | .ternary _ cond thenE elseE => by
    rw [Expr.sites, Expr.nodes, visited_cons, visited_append, visited_append]
    exact ((cond.visited_perm fn scope).append
      ((thenE.visited_perm fn scope).append (elseE.visited_perm fn scope))).cons _
  | .between _ value low high => by
    rw [Expr.sites, Expr.nodes, visited_cons, visited_append, visited_append]
    exact ((value.visited_perm fn scope).append
      ((low.visited_perm fn scope).append (high.visited_perm fn scope))).cons _
  | .list _ items => by
    rw [Expr.sites, Expr.nodes, visited_cons]
    exact (exprsVisited_perm fn scope items).cons _
  | .data _ entries => by
    rw [Expr.sites, Expr.nodes, visited_cons]
    exact (entriesVisited_perm fn scope entries).cons _
  | .funcLit _ _ _ body _ => by
    rw [Expr.sites, Expr.nodes, visited_cons]
    exact (body.bodyVisited_perm _ _).cons _
  | .await _ e => by
    rw [Expr.sites, Expr.nodes, visited_cons]
    exact (e.visited_perm fn scope).cons _
  | .member _ object _ => by
    rw [Expr.sites, Expr.nodes, visited_cons]
    exact (object.visited_perm fn scope).cons _
  | .index _ object index => by
    rw [Expr.sites, Expr.nodes, visited_cons, visited_append]
    exact ((object.visited_perm fn scope).append (index.visited_perm fn scope)).cons _
  | .assign _ target value _ => by
    rw [Expr.sites, Expr.nodes, visited_cons, visited_append]
    exact ((target.visited_perm fn scope).append (value.visited_perm fn scope)).cons _
  | .new _ _ args => by
    rw [Expr.sites, Expr.nodes, visited_cons]
    exact (exprsVisited_perm fn scope args).cons _
  | .call line callee args => by
    rw [Expr.sites, Expr.nodes, visited_append, visited_append]
    refine ((exprsVisited_perm fn scope args).append
      ((callee.visited_perm fn scope).append_right _)).trans ?_
    -- the call itself comes last, and the callee behind the arguments
    show (exprsNodes args ++ (callee.nodes ++ [Expr.call line callee args])).Perm _
    rw [← Multiset.coe_eq_coe, ← Multiset.cons_coe]
    simp only [← Multiset.coe_add, Multiset.coe_singleton, ← Multiset.singleton_add]
    abel
  | .num .. | .decimal .. | .scifi .. | .bool .. | .ident .. => by
    rw [Expr.sites, Expr.nodes]
    exact List.Perm.refl _

theorem exprsVisited_perm (fn : Option (TypeInfo × Bool)) (scope : Scope) : ∀ es : List Expr,
    (visited (exprsSites fn scope es)).Perm (exprsNodes es)
  | [] => List.Perm.refl _
  | e :: es => by
    rw [exprsSites, exprsNodes, visited_append]
    exact (e.visited_perm fn scope).append (exprsVisited_perm fn scope es)

theorem optVisited_perm (fn : Option (TypeInfo × Bool)) (scope : Scope) : ∀ e : Option Expr,
    (visited (optSites fn scope e)).Perm (optNodes e)
  | none => List.Perm.refl _
  | some e => e.visited_perm fn scope

theorem partsVisited_perm (fn : Option (TypeInfo × Bool)) (scope : Scope) :
    ∀ parts : List StrPart, (visited (partsSites fn scope parts)).Perm (partsNodes parts)
  | [] => List.Perm.refl _
  | .literal _ :: parts => partsVisited_perm fn scope parts
  | .expr e :: parts => by
    rw [partsSites, partsNodes, visited_append]
    exact (e.visited_perm fn scope).append (partsVisited_perm fn scope parts)

theorem entriesVisited_perm (fn : Option (TypeInfo × Bool)) (scope : Scope) :
    ∀ entries : List (Text × Expr),
      (visited (entriesSites fn scope entries)).Perm (entriesNodes entries)
  | [] => List.Perm.refl _
  | (_, e) :: entries => by
    rw [entriesSites, entriesNodes, visited_append]
    exact (e.visited_perm fn scope).append (entriesVisited_perm fn scope entries)

theorem Stmt.bodyVisited_perm (fn : Option (TypeInfo × Bool)) (scope : Scope) : ∀ s : Stmt,
    (visited (s.bodySites fn scope)).Perm s.bodyNodes
  | .block _ stmts => by
    rw [Stmt.bodySites, Stmt.bodyNodes]
    exact stmtsVisited_perm fn _ stmts
  | .varDecl .. | .expr .. | .ifStmt .. | .loopWhile .. | .doWhile .. | .forIn .. | .iterate ..
  | .funDecl .. | .ret .. | .classDecl .. | .enumDecl .. | .structDecl .. | .importStmt ..
  | .exportStmt .. | .tryCatch .. | .brk .. | .cont .. => List.Perm.refl _

theorem Stmt.visited_perm (fn : Option (TypeInfo × Bool)) (scope : Scope) : ∀ s : Stmt,
    (visited (s.sites fn scope)).Perm s.nodes
  | .varDecl line name type init isFixed => by
    rw [Stmt.sites, Stmt.nodes]
    show (visited (optSites fn scope init ++
      [⟨fn, scope, .initialized line name type init isFixed⟩])).Perm _
    rw [visited_append]
    show (visited (optSites fn scope init) ++ []).Perm _
    rw [List.append_nil]
    exact optVisited_perm fn scope init
  | .expr _ e => by
    rw [Stmt.sites, Stmt.nodes]
    exact e.visited_perm fn scope
  | .ifStmt _ cond thenB elifs elseB => by
    rw [Stmt.sites, Stmt.nodes, visited_append, visited_append, visited_append]
    exact (cond.visited_perm fn scope).append ((thenB.visited_perm fn scope).append
      ((elifsVisited_perm fn _ elifs).append (elseVisited_perm fn _ elseB)))
  | .loopWhile _ cond body => by
    rw [Stmt.sites, Stmt.nodes, visited_append]
    exact (cond.visited_perm fn scope).append (body.visited_perm fn scope)
  | .doWhile _ cond body => by
    rw [Stmt.sites, Stmt.nodes, visited_append]
    exact (body.visited_perm fn scope).append (cond.visited_perm fn _)
  | .forIn _ var iterable cond body => by
    rw [Stmt.sites, Stmt.nodes, visited_append, visited_append]
    exact (iterable.visited_perm fn scope).append
      ((optVisited_perm fn _ cond).append (body.visited_perm fn _))
  | .iterate _ collection item body => by
    rw [Stmt.sites, Stmt.nodes, visited_append]
    exact (collection.visited_perm fn scope).append (body.visited_perm fn _)
  | .funDecl _ _ _ _ body _ => by
    rw [Stmt.sites, Stmt.nodes]
    exact body.bodyVisited_perm _ _
  | .ret line value => by
    rw [Stmt.sites, Stmt.nodes, visited_append]
    show (visited (optSites fn scope value) ++ []).Perm _
    rw [List.append_nil]
    exact optVisited_perm fn scope value
  | .block _ stmts => by
    rw [Stmt.sites, Stmt.nodes]
    exact stmtsVisited_perm fn _ stmts
  | .classDecl _ _ members _ _ => by
    rw [Stmt.sites, Stmt.nodes]
    exact stmtsVisited_perm fn _ members
  | .tryCatch _ tryB _ catchB => by
    rw [Stmt.sites, Stmt.nodes, visited_append]
    exact (tryB.visited_perm fn scope).append (catchB.visited_perm fn _)
  | .enumDecl .. | .structDecl .. | .importStmt .. | .exportStmt .. | .brk _ | .cont _ =>
    List.Perm.refl _

theorem stmtsVisited_perm (fn : Option (TypeInfo × Bool)) (scope : Scope) : ∀ list : List Stmt,
    (visited (stmtsSites fn scope list)).Perm (stmtsNodes list)
  | [] => List.Perm.refl _
  | s :: list => by
    rw [stmtsSites, stmtsNodes, visited_append]
    exact (s.visited_perm fn scope).append (stmtsVisited_perm fn _ list)

theorem elifsVisited_perm (fn : Option (TypeInfo × Bool)) (scope : Scope) :
    ∀ elifs : List (Expr × Stmt), (visited (elifsSites fn scope elifs)).Perm (elifsNodes elifs)
  | [] => List.Perm.refl _
  | (cond, body) :: elifs => by
    rw [elifsSites, elifsNodes, visited_append, visited_append]
    exact (cond.visited_perm fn scope).append
      ((body.visited_perm fn scope).append (elifsVisited_perm fn _ elifs))

theorem elseVisited_perm (fn : Option (TypeInfo × Bool)) (scope : Scope) : ∀ s : Option Stmt,
    (visited (elseSites fn scope s)).Perm (elseNodes s)
  | none => List.Perm.refl _
  | some s => s.visited_perm fn scope

end

/-- **Every expression of a program is checked once**. -/
theorem programVisited_perm (program : List Stmt) :
    (visited (programSites program)).Perm (programNodes program) := stmtsVisited_perm none _ program

/-! ### Checks that come back -/

/-- Every link of the table leads to a class of it. -/
theorem link_registerClasses_lt {program : List Stmt} {a b : ℕ}
    (h : (registerClasses program).link a = some b) : b < (classNames program).length := by
  rw [registerClasses_link] at h
  have hlink : ∀ (cs : List (Text × Text)) (links : ℕ → Option ℕ),
      (∀ a b, links a = some b → b < (classNames program).length) → ∀ a b,
      linkBy (findLast (classNames program)) (findLast (classNames program)) links cs a = some b →
      b < (classNames program).length := by
    intro cs
    induction cs with
    | nil => exact fun _ hlinks => hlinks
    | cons c cs ih =>
      intro links hlinks
      rw [linkBy_cons]
      refine ih _ fun a b hab => ?_
      cases hself : findLast (classNames program) c.1 with
      | none =>
        rw [hself] at hab
        exact hlinks a b hab
      | some self =>
        rw [hself] at hab
        change Function.update links self (findLast (classNames program) c.2) a = some b at hab
        by_cases ha : a = self
        · rw [ha, Function.update_self] at hab
          exact (List.getElem?_eq_some_iff.mp (findLast_eq_some hab)).1
        · rw [Function.update_of_ne ha] at hab
          exact hlinks a b hab
  exact hlink _ _ (fun _ _ hnone => by cases hnone) a b h

theorem length_registerClasses (program : List Stmt) :
    (registerClasses program).length = (classNames program).length := by
  have hfold : ∀ (ss : List Stmt) (classes : ClassTable),
      (ss.foldl resolveParent classes).length = classes.length := by
    intro ss
    induction ss with
    | nil => exact fun _ => rfl
    | cons s ss ih =>
      intro classes
      rw [List.foldl_cons, ih]
      unfold resolveParent
      split
      · split
        · rw [List.length_modify]
        · rfl
      · rfl
  rw [registerClasses, hfold, ← classSig_names, List.length_map]

section Returns

variable {program : List Stmt} (hring : Ringless (registerClasses program).link)

include hring

/-- Without a ring of classes the walk for a method comes back. -/
theorem findClassMethod_ne_none {className : Text} {c : ℕ}
    (hc : findClass (registerClasses program) className = some c) (name : Text) :
    findClassMethod (registerClasses program) c name ≠ none := by
  have hends := climb_card_eq_none (S := Finset.range (classNames program).length)
    (fun a b hab => Finset.mem_range.mpr (link_registerClasses_lt hab)) hring (a := c)
    (Finset.mem_range.mpr (length_registerClasses program ▸ findClass_lt hc))
  rw [Finset.card_range, ← length_registerClasses] at hends
  unfold findClassMethod
  rw [findClassMember_eq_walk]
  exact walk_ne_none hends

theorem methodOn_ne_none (t : Option TypeInfo) (name : Text) :
    methodOn (registerClasses program) t name ≠ none := by
  unfold methodOn
  split
  · split
    · split
      · next c hc => exact findClassMethod_ne_none hring hc name
      · exact Option.some_ne_none _
    · exact Option.some_ne_none _
  · exact Option.some_ne_none _

/-- … and so does the inference of a type. -/
theorem inferType_ne_none (scope : Scope) :
    ∀ e : Expr, inferType (registerClasses program) scope e ≠ none
  | .ternary _ _ thenE elseE => by
    obtain ⟨a, ha⟩ := Option.ne_none_iff_exists'.mp (inferType_ne_none scope thenE)
    obtain ⟨b, hb⟩ := Option.ne_none_iff_exists'.mp (inferType_ne_none scope elseE)
    rw [inferType, ha, hb]
    exact Option.some_ne_none _
  | .binary line left right op => by
    obtain ⟨l, hl⟩ := Option.ne_none_iff_exists'.mp (inferType_ne_none scope left)
    obtain ⟨r, hr⟩ := Option.ne_none_iff_exists'.mp (inferType_ne_none scope right)
    rw [inferType.eq_def]
    dsimp only
    split
    · exact Option.some_ne_none _
    · exact Option.some_ne_none _
    · exact Option.some_ne_none _
    · exact Option.some_ne_none _
    · exact Option.some_ne_none _
    · exact Option.some_ne_none _
    · exact Option.some_ne_none _
    · exact Option.some_ne_none _
    · rw [hl, hr]
      exact Option.some_ne_none _
    · exact Option.some_ne_none _
    · rw [hl, hr]
      cases l <;> exact Option.some_ne_none _
  | .call _ (.member _ object name) _ => by
    obtain ⟨t, ht⟩ := Option.ne_none_iff_exists'.mp (inferType_ne_none scope object)
    obtain ⟨m, hm⟩ := Option.ne_none_iff_exists'.mp (methodOn_ne_none hring t name)
    rw [inferType, ht]
    show ((methodOn (registerClasses program) t name).bind _) ≠ none
    rw [hm]
    exact Option.some_ne_none _
  | .num .. | .decimal .. | .scifi .. | .bool .. | .str .. | .list .. | .data .. | .ident ..
  | .between .. | .new .. | .unary .. | .funcLit .. | .await .. | .member .. | .index .. | .assign ..
  | .call _ (.ident ..) _
  | .call _ (.num ..) _ | .call _ (.decimal ..) _ | .call _ (.scifi ..) _ | .call _ (.bool ..) _
  | .call _ (.str ..) _ | .call _ (.binary ..) _ | .call _ (.unary ..) _ | .call _ (.ternary ..) _
  | .call _ (.between ..) _ | .call _ (.list ..) _ | .call _ (.data ..) _
  | .call _ (.funcLit ..) _ | .call _ (.await ..) _ | .call _ (.index ..) _
  | .call _ (.assign ..) _ | .call _ (.new ..) _ | .call _ (.call ..) _ => Option.some_ne_none _

omit hring in
theorem result_bind_some {α β : Type} {m : Tc α} {f : α → Tc β} {a : α} (h : m.result = some a) :
    (m >>= f).result = (f a).result := by
  rw [result_bind, h]
  rfl

omit hring in
theorem errors_bind_some {α β : Type} {m : Tc α} {f : α → Tc β} {a : α} (h : m.result = some a) :
    (m >>= f).errors = m.errors ++ (f a).errors := by
  obtain ⟨errors, result⟩ := m
  subst h
  rfl

omit hring in
theorem result_errorIf (c : Bool) (line : ℕ) (message : TcMessage) :
    (Tc.errorIf c line message).result = some () := by
  cases c <;> rfl

variable (conflict : Option TypeInfo → Option TypeInfo → Bool)

/-- A type that is inferred first. -/
theorem result_inferred {scope : Scope} (e : Expr) {f : Option TypeInfo → Tc Unit}
    (h : ∀ t, (f t).result = some ()) :
    (Tc.known (inferType (registerClasses program) scope e) >>= f).result = some () := by
  obtain ⟨t, ht⟩ := Option.ne_none_iff_exists'.mp (inferType_ne_none hring scope e)
  rw [ht, result_bind_some (a := t) rfl]
  exact h t

theorem checkCallArgs_result (label : Text) (line : ℕ) (scope : Scope) (idx : ℕ)
    (params : List Param) (args : List Expr) :
    (checkCallArgs conflict (registerClasses program) label line scope idx params args).result
      = some () := by
  induction params generalizing idx args with
  | nil => rfl
  | cons p params ih =>
    cases args with
    | nil => rfl
    | cons a args =>
      rw [checkCallArgs]
      refine result_inferred hring a fun t => ?_
      rw [result_bind_some (result_errorIf _ _ _)]
      exact ih (idx + 1) args

theorem checkNode_result (scope : Scope) (e : Expr) :
    (checkNode conflict (registerClasses program) scope e).result = some () := by
  unfold checkNode
  split
  · next line target value op =>
    unfold checkAssign
    split
    · split
      · rw [result_bind_some (result_errorIf _ _ _)]
        exact result_inferred hring value fun t => result_errorIf _ _ _
      · rfl
    · rfl
  · next line className args =>
    unfold checkNew
    split
    · rfl
    · next c hc =>
      obtain ⟨ctor, hctor⟩ :=
        Option.ne_none_iff_exists'.mp (findClassMethod_ne_none hring hc (txt "constructor"))
      rw [hctor, result_bind_some (a := ctor) rfl]
      cases ctor with
      | none => rfl
      | some m => exact checkCallArgs_result hring conflict _ _ _ _ _ _
  · next line callee args =>
    unfold checkCall
    split
    · unfold checkIdentCall
      split
      · split
        · exact checkCallArgs_result hring conflict _ _ _ _ _ _
        · rfl
      · rfl
    · next object name =>
      unfold checkMemberCall
      rw [result_bind_some (result_errorIf _ _ _)]
      refine result_inferred hring object fun t => ?_
      obtain ⟨method, hmethod⟩ := Option.ne_none_iff_exists'.mp (methodOn_ne_none hring t name)
      rw [hmethod, result_bind_some (a := method) rfl]
      cases method with
      | none => rfl
      | some m => exact checkCallArgs_result hring conflict _ _ _ _ _ _
    · rfl
  · rfl

/-- Without a ring of classes every check comes back. -/
theorem Site.returns (site : Site) :
    (site.run conflict (registerClasses program)).result = some () := by
  unfold Site.run
  split
  · exact checkNode_result hring conflict _ _
  · exact result_errorIf _ _ _
  · next line name type init isFixed _ =>
    have hinit : (checkInit conflict (registerClasses program) name type init site.scope line).result
        = some () := by
      unfold checkInit
      split
      · exact result_inferred hring _ fun t => result_errorIf _ _ _
      · rfl
    rw [result_bind_some hinit]
    exact result_errorIf _ _ _
  · unfold checkReturn
    split
    · exact result_inferred hring _ fun t => result_errorIf _ _ _
    · rfl

theorem runSites_errors (sites : List Site) :
    (runSites conflict (registerClasses program) sites).errors
      = sites.flatMap fun site => (site.run conflict (registerClasses program)).errors := by
  induction sites with
  | nil => rfl
  | cons site sites ih =>
    rw [runSites, List.flatMap_cons, ← ih]
    exact errors_bind_some (site.returns hring conflict)

end Returns

/-! ### Unknown classes -/

/-- The report that the expression itself calls for: a `new` expression whose class is not
declared at the top level. -/
def Expr.unknownNew (program : List Stmt) : Expr → Option (ℕ × Text)
  | .new line className _ =>
    if (classNames program).contains className then none else some (line, className)
  | _ => none

/-- A check of an expression reports an unknown class if the expression calls for it, and no
other check does. -/
theorem Site.unknown_run (conflict : Option TypeInfo → Option TypeInfo → Bool)
    (program : List Stmt) (site : Site) :
    (site.run conflict (registerClasses program)).unknown
      = (site.expr?.bind (Expr.unknownNew program)).toList := by
  obtain ⟨fn, scope, node⟩ := site
  cases node with
  | declared line name type => exact unknown_errorIf rfl _
  | initialized line name type init isFixed =>
    exact unknown_bind_nil (checkInit_unknown ..) fun _ => unknown_errorIf rfl _
  | returned line value => exact checkReturn_unknown ..
  | expr e =>
    show (checkNode conflict (registerClasses program) scope e).unknown
      = (e.unknownNew program).toList
    cases e with
    | assign line target value op => exact checkAssign_unknown ..
    | call line callee args => exact checkCall_unknown ..
    | new line className args =>
      show (checkNew conflict _ className args scope line).unknown = _
      show _ = (if (classNames program).contains className then none
        else some (line, className)).toList
      unfold checkNew
      split
      · next hfind =>
        have hnot : className ∉ classNames program :=
          (findClass_isNone_iff program className).mp (by rw [hfind]; rfl)
        rw [if_neg (List.contains_iff_mem.not.mpr hnot)]
        rfl
      · next c hfind =>
        have hmem : className ∈ classNames program := by
          by_contra hnot
          have hnone := (findClass_isNone_iff program className).mpr hnot
          rw [hfind] at hnone
          cases hnone
        rw [if_pos (List.contains_iff_mem.mpr hmem)]
        refine unknown_bind_nil rfl fun ctor => ?_
        cases ctor with
        | none => rfl
        | some m => exact checkCallArgs_unknown ..
    | _ => rfl

/-- **Every expression is checked once**: where the classes have no ring, the errors of a
program are those of its checks one after the other, and the checks of expressions are of every
expression of the program, each once. The unknown classes that a check reports are those that
its own expression calls for, whatever types are inferred for it; so they are as many as the
`new` expressions of the program whose class is not declared at the top level. -/
theorem visits_once (program : List Stmt) (hring : Ringless (checkedExtends program)) :
    (typecheckProgram program).errors = ((programSites program).flatMap fun site =>
      (site.run typesConflict (registerClasses program)).errors) ∧
    (visited (programSites program)).Perm (programNodes program) ∧
    (∀ site ∈ programSites program, (site.run typesConflict (registerClasses program)).unknown
      = (site.expr?.bind (Expr.unknownNew program)).toList) ∧
    (typecheckProgram program).errors.countP (fun e => e.unknownClass.isSome)
      = (programNodes program).countP fun e => (e.unknownNew program).isSome := by
  have herrors : (typecheckProgram program).errors = (programSites program).flatMap fun site =>
      (site.run typesConflict (registerClasses program)).errors := by
    rw [typecheckProgram, typecheckWith_sites]
    exact runSites_errors ((ringless_registerClasses program).mpr hring) typesConflict _
  refine ⟨herrors, programVisited_perm program,
    fun site _ => site.unknown_run typesConflict program, ?_⟩
  have hunknown : (typecheckProgram program).unknown
      = (visited (programSites program)).filterMap (Expr.unknownNew program) := by
    unfold Tc.unknown
    rw [herrors, List.filterMap_flatMap, visited, List.filterMap_filterMap,
      List.filterMap_eq_flatMap_toList]
    exact List.flatMap_congr fun site _ => site.unknown_run typesConflict program
  have hlength : (typecheckProgram program).unknown.length
      = ((programNodes program).filterMap (Expr.unknownNew program)).length := by
    rw [hunknown]
    exact ((programVisited_perm program).filterMap _).length_eq
  rwa [Tc.unknown, List.length_filterMap_eq_countP, List.length_filterMap_eq_countP] at hlength

/-- `class B extends A {}  class A {}  var x: A = new B(new C(), "\x7bnew D()\x7d");` -/
def unknownArgs : List Stmt := [
  .classDecl 1 (txt "B") [] 0 (some (txt "A")),
  .classDecl 2 (txt "A") [] 0 none,
  .varDecl 3 (txt "x") (.mk .classNamed none (some (txt "A"))) (some (.new 3 (txt "B")
    [.new 3 (txt "C") [], .str 3 [.expr (.new 3 (txt "D") [])]])) false]

/-- Two classes are unknown, and two are reported. -/
theorem visits_once_unknownArgs :
    (typecheckProgram unknownArgs).errors.countP (fun e => e.unknownClass.isSome) = 2 := by
  have hextends : checkedExtends unknownArgs
      = fun i => if i = txt "B" then some (txt "A") else none := by
    have hnames : classNames unknownArgs = [txt "B", txt "A"] := rfl
    have hclauses : extendsClauses unknownArgs = [(txt "B", txt "A")] := rfl
    funext i
    rw [checkedExtends, hnames, hclauses, extendsIn]
    by_cases hi : i = txt "B"
    · subst hi
      rfl
    · rw [lastClause, lastClause, if_neg (Ne.symm hi), if_neg hi]
      exact ite_self none
  have hring : Ringless (checkedExtends unknownArgs) := by
    rw [hextends]
    refine ringless_of_rank (fun i => if i = txt "B" then 1 else 0) fun a b hab => ?_
    split_ifs at hab with ha
    obtain rfl := Option.some.inj hab
    rw [if_pos ha, if_neg (by decide)]
    exact Nat.zero_lt_one
  rw [(visits_once unknownArgs hring).2.2.2]
  rfl

end Jaguar
