/-
The linter (`linter.c`).

Its only check is for variables that are named `l`. The traversal descends into blocks and
into the two outer branches of an `if`, and nowhere else.

* `checkStmtLint`, `lintProgram` — the linter;
* `Stmt.inner`, `stmtsWithin` — all the statements of a tree, wherever they stand;
* `Stmt.unvisited` — those that the traversal does not come to;
* `visited_perm` — every statement is one or the other, once;
* `lintsAll_iff` — **every variable named `l` is reported** exactly if none stands where the
  traversal does not come;
* `field_l_not_reported` — a class with a field named `l`.
-/
import Jaguar.Diagnostics
import Jaguar.Parser
import Mathlib.Algebra.Order.Group.Multiset
import Mathlib.Tactic.Abel

namespace Jaguar

/-! ### The linter -/

/-- The call of `diag_add` for a variable that is named `l`. -/
def jag001 (filename : Option Text) (line : ℕ) : DiagCall where
  severity := .warning
  code := some (txt "JAG001")
  message := some (txt "Variable name 'l' is easily confused with '1' or 'I'")
  filename := filename
  startLine := line
  startCol := 1
  endLine := line
  endCol := 10
  source := some (txt "linter")
  help := some (txt "Consider choosing a clearer variable name")

/-- A declaration that `check_stmt_lint` warns of: of a variable whose name is one character
long, an `l`. -/
def Stmt.namedL : Stmt → Option ℕ
  | .varDecl line name _ _ _ => if name.length = 1 ∧ name.head? = some 108 then some line else none
  | _ => none

mutual

/-- `check_stmt_lint`: its calls of `diag_add`. -/
def checkStmtLint (filename : Option Text) : Stmt → List DiagCall
  | .varDecl line name _ _ _ =>
    if name.length = 1 ∧ name.head? = some 108 then [jag001 filename line] else []
  | .block _ stmts => checkStmtsLint filename stmts
  | .ifStmt _ _ thenB _ elseB => checkStmtLint filename thenB ++ checkElseLint filename elseB
  | _ => []

def checkStmtsLint (filename : Option Text) : List Stmt → List DiagCall
  | [] => []
  | s :: stmts => checkStmtLint filename s ++ checkStmtsLint filename stmts

def checkElseLint (filename : Option Text) : Option Stmt → List DiagCall
  | none => []
  | some s => checkStmtLint filename s

end

/-- `lint_program`: the memory and the bag it has written to, and what it returns. Without a
bag `diag_add` writes to `g_diag_bag`. -/
def lintProgram (program : List Stmt) (filename : Option Text) (nodes : List DiagnosticNode)
    (gDiagBag : DiagnosticBag) (bag : Option DiagnosticBag) :
    Option (List DiagnosticNode × DiagnosticBag × ℤ) :=
  let initialCount : ℤ := bag.elim 0 fun b => b.count
  (diagAdds nodes (bag.getD gDiagBag) (checkStmtsLint filename program)).map fun (nodes, b) =>
    (nodes, b, (bag.elim 0 fun _ => (b.count : ℤ)) - initialCount)

/-! ### The statements of a tree -/

mutual

/-- The statements in an expression: the bodies of its function literals. -/
def Expr.stmtsWithin : Expr → List Stmt
  | .str _ parts => partsWithin parts
  | .binary _ left right _ => left.stmtsWithin ++ right.stmtsWithin
  | .unary _ operand _ => operand.stmtsWithin
  | .assign _ target value _ => target.stmtsWithin ++ value.stmtsWithin
  | .call _ callee args => callee.stmtsWithin ++ exprsWithin args
  | .member _ object _ => object.stmtsWithin
  | .index _ object index => object.stmtsWithin ++ index.stmtsWithin
  | .ternary _ cond thenE elseE => cond.stmtsWithin ++ (thenE.stmtsWithin ++ elseE.stmtsWithin)
  | .between _ value low high => value.stmtsWithin ++ (low.stmtsWithin ++ high.stmtsWithin)
  | .list _ items => exprsWithin items
  | .data _ entries => entriesWithin entries
  | .funcLit _ _ _ body _ => body :: body.inner
  | .await _ e => e.stmtsWithin
  | .new _ _ args => exprsWithin args
  | .num .. | .decimal .. | .scifi .. | .bool .. | .ident .. => []

def exprsWithin : List Expr → List Stmt
  | [] => []
  | e :: es => e.stmtsWithin ++ exprsWithin es

def optWithin : Option Expr → List Stmt
  | none => []
  | some e => e.stmtsWithin

def partsWithin : List StrPart → List Stmt
  | [] => []
  | .literal _ :: parts => partsWithin parts
  | .expr e :: parts => e.stmtsWithin ++ partsWithin parts

def entriesWithin : List (Text × Expr) → List Stmt
  | [] => []
  | (_, e) :: entries => e.stmtsWithin ++ entriesWithin entries

/-- The statements inside a statement, at any depth. -/
def Stmt.inner : Stmt → List Stmt
  | .varDecl _ _ _ init _ => optWithin init
  | .expr _ e => e.stmtsWithin
  | .ifStmt _ cond thenB elifs elseB =>
    cond.stmtsWithin ++ ((thenB :: thenB.inner) ++ (elifsWithin elifs ++ elseWithin elseB))
  | .loopWhile _ cond body => cond.stmtsWithin ++ (body :: body.inner)
  | .doWhile _ cond body => (body :: body.inner) ++ cond.stmtsWithin
  | .forIn _ _ iterable cond body =>
    iterable.stmtsWithin ++ (optWithin cond ++ (body :: body.inner))
  | .iterate _ collection _ body => collection.stmtsWithin ++ (body :: body.inner)
  | .funDecl _ _ _ _ body _ => body :: body.inner
  | .ret _ value => optWithin value
  | .block _ stmts => stmtsWithin stmts
  | .classDecl _ _ members _ _ => stmtsWithin members
  | .tryCatch _ tryB _ catchB => (tryB :: tryB.inner) ++ (catchB :: catchB.inner)
  | .enumDecl .. | .structDecl .. | .importStmt .. | .exportStmt .. | .brk _ | .cont _ => []

/-- The statements of a list, and those inside of them. -/
def stmtsWithin : List Stmt → List Stmt
  | [] => []
  | s :: stmts => (s :: s.inner) ++ stmtsWithin stmts

def elifsWithin : List (Expr × Stmt) → List Stmt
  | [] => []
  | (cond, body) :: elifs => cond.stmtsWithin ++ ((body :: body.inner) ++ elifsWithin elifs)

def elseWithin : Option Stmt → List Stmt
  | none => []
  | some s => s :: s.inner

end

mutual

/-- The statements inside a statement that the traversal does not come to. -/
def Stmt.unvisited : Stmt → List Stmt
  | .block _ stmts => unvisitedWithin stmts
  | .ifStmt _ cond thenB elifs elseB =>
    cond.stmtsWithin ++ (thenB.unvisited ++ (elifsWithin elifs ++ unvisitedElse elseB))
  | s => s.inner

def unvisitedWithin : List Stmt → List Stmt
  | [] => []
  | s :: stmts => s.unvisited ++ unvisitedWithin stmts

def unvisitedElse : Option Stmt → List Stmt
  | none => []
  | some s => s.unvisited

end

/-- The warnings that the statements of a list call for. -/
def lintWarnings (filename : Option Text) (stmts : List Stmt) : List DiagCall :=
  (stmts.filterMap Stmt.namedL).map (jag001 filename)

theorem lintWarnings_append (filename : Option Text) (stmts stmts' : List Stmt) :
    lintWarnings filename (stmts ++ stmts')
      = lintWarnings filename stmts ++ lintWarnings filename stmts' := by
  unfold lintWarnings
  rw [List.filterMap_append, List.map_append]

theorem lintWarnings_cons {s : Stmt} (h : s.namedL = none) (filename : Option Text)
    (stmts : List Stmt) : lintWarnings filename (s :: stmts) = lintWarnings filename stmts := by
  unfold lintWarnings
  rw [List.filterMap_cons_none h]

/-- The parts of an `if`, with those that are visited in front. -/
theorem if_shuffle {α : Type*} (cond thenV thenU elifs elseV elseU : List α) :
    (cond ++ ((thenV ++ thenU) ++ (elifs ++ (elseV ++ elseU)))).Perm
      ((thenV ++ elseV) ++ (cond ++ (thenU ++ (elifs ++ elseU)))) := by
  rw [← Multiset.coe_eq_coe]
  simp only [← Multiset.coe_add]
  abel

mutual

/-- **Every statement is visited or is not**, and what is visited is warned of, once. -/
theorem visited_perm (filename : Option Text) : ∀ s : Stmt,
    (lintWarnings filename (s :: s.inner)).Perm
      (checkStmtLint filename s ++ lintWarnings filename s.unvisited)
  | .varDecl line name type init isFixed => by
    rw [checkStmtLint, Stmt.unvisited]
    · show (List.map _ (List.filterMap _ _)).Perm _
      rw [List.filterMap_cons, Stmt.namedL]
      by_cases hname : name.length = 1 ∧ name.head? = some 108
      · rw [if_pos hname, if_pos hname]
        exact List.Perm.refl _
      · rw [if_neg hname, if_neg hname]
        exact List.Perm.refl _
    all_goals
      intros
      contradiction
  | .block _ stmts => by
    rw [lintWarnings_cons rfl, checkStmtLint, Stmt.unvisited, Stmt.inner]
    exact visitedWithin_perm filename stmts
  | .ifStmt _ cond thenB elifs elseB => by
    rw [lintWarnings_cons rfl, checkStmtLint, Stmt.unvisited, Stmt.inner]
    simp only [lintWarnings_append]
    refine List.Perm.trans ?_ (if_shuffle _ _ _ _ _ _)
    exact ((visited_perm filename thenB).append
      ((visitedElse_perm filename elseB).append_left _)).append_left _
  | .expr .. | .loopWhile .. | .doWhile .. | .forIn .. | .iterate .. | .funDecl .. | .ret ..
  | .classDecl .. | .enumDecl .. | .structDecl .. | .importStmt .. | .exportStmt ..
  | .tryCatch .. | .brk _ | .cont _ => by
    rw [lintWarnings_cons rfl]
    exact List.Perm.refl _

theorem visitedWithin_perm (filename : Option Text) : ∀ stmts : List Stmt,
    (lintWarnings filename (stmtsWithin stmts)).Perm
      (checkStmtsLint filename stmts ++ lintWarnings filename (unvisitedWithin stmts))
  | [] => List.Perm.refl _
  | s :: stmts => by
    rw [stmtsWithin, checkStmtsLint, unvisitedWithin, lintWarnings_append, lintWarnings_append]
    refine ((visited_perm filename s).append (visitedWithin_perm filename stmts)).trans ?_
    exact if_shuffle [] _ _ [] _ _

theorem visitedElse_perm (filename : Option Text) : ∀ elseB : Option Stmt,
    (lintWarnings filename (elseWithin elseB)).Perm
      (checkElseLint filename elseB ++ lintWarnings filename (unvisitedElse elseB))
  | none => List.Perm.refl _
  | some s => visited_perm filename s

end

/-! ### The whole program -/

/-- On every bag the linter adds one warning for each variable named `l`, wherever it is
declared in the program, adds nothing else, and returns the number of what it has added. -/
def LintsAll (program : List Stmt) : Prop :=
  ∀ (filename : Option Text) (others nodes : List DiagnosticNode) (gDiagBag bag : DiagnosticBag)
    (ds : List Diagnostic), DiagnosticBag.Holds others nodes bag ds →
    ∃ nodes' bag' added,
      lintProgram program filename nodes gDiagBag (some bag)
        = some (nodes', bag', (added.length : ℤ)) ∧
      DiagnosticBag.Holds others nodes' bag' (ds ++ added) ∧
      added.Perm ((lintWarnings filename (stmtsWithin program)).map DiagCall.stored)

/-- What a run of the linter does to a bag. -/
theorem lintProgram_spec (program : List Stmt) (filename : Option Text)
    {others nodes : List DiagnosticNode} (gDiagBag : DiagnosticBag) {bag : DiagnosticBag}
    {ds : List Diagnostic} (h : DiagnosticBag.Holds others nodes bag ds) :
    ∃ nodes' bag', lintProgram program filename nodes gDiagBag (some bag)
        = some (nodes', bag', ((checkStmtsLint filename program).length : ℤ)) ∧
      DiagnosticBag.Holds others nodes' bag'
        (ds ++ (checkStmtsLint filename program).map DiagCall.stored) := by
  obtain ⟨nodes', bag', hadds, hholds⟩ := h.diagAdds (checkStmtsLint filename program)
  refine ⟨nodes', bag', ?_, hholds⟩
  have hcount : (bag'.count : ℤ) - bag.count = (checkStmtsLint filename program).length := by
    rw [hholds.count, h.count, List.length_append, List.length_map]
    omega
  unfold lintProgram
  rw [Option.getD_some, hadds]
  show some (nodes', bag', (bag'.count : ℤ) - bag.count) = _
  rw [hcount]

theorem lintWarnings_eq_nil {filename : Option Text} {stmts : List Stmt} :
    lintWarnings filename stmts = [] ↔ ∀ s ∈ stmts, s.namedL = none := by
  unfold lintWarnings
  rw [List.map_eq_nil_iff, List.filterMap_eq_nil_iff]

/-- **When the linter does what it is for**: exactly if no variable named `l` is declared where
the traversal does not come. -/
theorem lintsAll_iff (program : List Stmt) :
    LintsAll program ↔ ∀ s ∈ unvisitedWithin program, s.namedL = none := by
  constructor
  · intro h
    -- the number of what is added tells that nothing is left out
    have hinit := DiagnosticBag.holds_init []
    obtain ⟨nodes', bag', added, hrun, -, hperm⟩ := h none [] [] diagBagInit diagBagInit [] hinit
    obtain ⟨nodes'', bag'', hrun', -⟩ := lintProgram_spec program none diagBagInit hinit
    have hlength : added.length = (checkStmtsLint none program).length := by
      have heq := Option.some.inj (hrun.symm.trans hrun')
      have hthird : (added.length : ℤ) = (checkStmtsLint none program).length :=
        congrArg (fun r : List DiagnosticNode × DiagnosticBag × ℤ => r.2.2) heq
      exact_mod_cast hthird
    have hall := hperm.length_eq
    have hsplit := (visitedWithin_perm none program).length_eq
    rw [List.length_map] at hall
    rw [List.length_append] at hsplit
    have hnone : (lintWarnings none (unvisitedWithin program)).length = 0 := by omega
    exact lintWarnings_eq_nil.mp (List.length_eq_zero_iff.mp hnone)
  · intro h filename others nodes gDiagBag bag ds hholds
    obtain ⟨nodes', bag', hrun, hholds'⟩ := lintProgram_spec program filename gDiagBag hholds
    refine ⟨nodes', bag', (checkStmtsLint filename program).map DiagCall.stored, ?_, hholds', ?_⟩
    · rw [List.length_map]
      exact hrun
    · refine List.Perm.map _ ?_
      have hperm := visitedWithin_perm filename program
      rw [lintWarnings_eq_nil.mpr h, List.append_nil] at hperm
      exact hperm.symm

/-- `class A { var l: num; }`: the field is not reported. -/
theorem field_l_not_reported :
    ∃ r, parseProgram 40 (txt "class A \x7b var l: num; \x7d") = some r ∧ r.hadError = false ∧
      (stmtsWithin r.stmts).filterMap Stmt.namedL = [1] ∧
      (∃ nodes bag, lintProgram r.stmts none [] diagBagInit (some diagBagInit)
        = some (nodes, bag, 0)) ∧
      ¬ LintsAll r.stmts := by
  have htoks : tokenize (txt "class A \x7b var l: num; \x7d") =
      ([⟨.kwClass, txt "class", 1⟩, ⟨.ident, txt "A", 1⟩, ⟨.lbrace, txt "\x7b", 1⟩,
        ⟨.kwVar, txt "var", 1⟩, ⟨.ident, txt "l", 1⟩, ⟨.colon, txt ":", 1⟩,
        ⟨.typeNum, txt "num", 1⟩, ⟨.semi, txt ";", 1⟩, ⟨.rbrace, txt "\x7d", 1⟩], 1) := by
    decide +kernel
  have hparse : (parseProgram 40 (txt "class A \x7b var l: num; \x7d")).map (fun r =>
      (r.hadError, (stmtsWithin r.stmts).filterMap Stmt.namedL,
        (checkStmtsLint none r.stmts).length)) = some (false, [1], 0) := by
    rw [parseProgram, runProgram, initParser, htoks]
    decide +kernel
  obtain ⟨r, hr, hfacts⟩ := Option.map_eq_some_iff.mp hparse
  obtain ⟨herror, hdecls, hcalls⟩ : r.hadError = false ∧ _ ∧ _ := by
    simpa only [Prod.mk.injEq] using hfacts
  have hinit := DiagnosticBag.holds_init []
  obtain ⟨nodes, bag, hrun, -⟩ := lintProgram_spec r.stmts none diagBagInit hinit
  rw [hcalls] at hrun
  refine ⟨r, hr, herror, hdecls, ⟨nodes, bag, hrun⟩, fun h => ?_⟩
  obtain ⟨nodes', bag', added, hrun', -, hperm⟩ := h none [] [] diagBagInit diagBagInit [] hinit
  have hreturned : (added.length : ℤ) = 0 :=
    congrArg (fun r : List DiagnosticNode × DiagnosticBag × ℤ => r.2.2)
      (Option.some.inj (hrun'.symm.trans hrun))
  have hadded := hperm.length_eq
  unfold lintWarnings at hadded
  rw [hdecls] at hadded
  rw [List.length_map, List.length_map, List.length_singleton] at hadded
  omega

end Jaguar
