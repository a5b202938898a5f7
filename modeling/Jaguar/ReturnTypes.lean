/-
Declared return types: of calls by name, and at the returns of async functions (`typecheck.c`).

The functions of a statement list are known by their signatures before the first statement is
checked. A call by name has the declared return type where the name is that function's.

* `scopeFind_of_unshadowed` — the name of a function, wherever nothing newer has that name;
* `Site.Expects` — where a type is declared and an expression is used: an initialiser, an assigned
  value, an argument, a returned value;
* `expects_reported` — a type of another family is reported there;
* `callTyped_iff` — **a call by name has the declared type exactly when the function has a
  parameter**: a function without one is no function for the checker;
* `asyncReturn_iff` — **a value of type `T` is reported at the returns of an async function for a
  `Task<T>`**, unless its type is one that is not compared: the declared type is not unwrapped.
-/
import Jaguar.VisitsOnce

namespace Jaguar

/-! ### Scopes -/

/-- The symbol of a function declaration. -/
def Stmt.sig? : Stmt → Option Sym
  | .funDecl _ name params retType _ _ => some ⟨name, true, some retType, params, some retType⟩
  | _ => none

/-- The symbols of the second scope that are newer than the first scope. -/
def Scope.newer (scope scope' : Scope) : List Sym :=
  scope'.flatten.take (scope'.flatten.length - scope.flatten.length)

theorem newer_append {scope scope' : Scope} (h : scope.Inside scope') :
    scope.newer scope' ++ scope.flatten = scope'.flatten := by
  obtain ⟨newer, hnewer⟩ := h
  rw [Scope.newer, ← hnewer, List.length_append, Nat.add_sub_cancel, List.take_left]

theorem scopeFind_flatten (scope : Scope) (name : Text) :
    scopeFind scope name = scope.flatten.find? fun sym => sym.name = name := by
  induction scope with
  | nil => rfl
  | cons syms parent ih =>
    rw [scopeFind, List.flatten_cons, List.find?_append, ← ih]
    cases syms.find? fun sym => sym.name = name with
    | none => rfl
    | some sym => rfl

theorem hoistSigs_cons (s : Stmt) (list : List Stmt) (scope : Scope) :
    hoistSigs (s :: list) scope = hoistSigs list (s.sig?.elim scope (scopeDefine scope)) := by
  cases s <;> rfl

theorem hoistSigs_flatten (list : List Stmt) (syms : List Sym) (outer : Scope) :
    (hoistSigs list (syms :: outer)).flatten
      = (list.filterMap Stmt.sig?).reverse ++ (syms :: outer).flatten := by
  induction list generalizing syms with
  | nil => rfl
  | cons s list ih =>
    rw [hoistSigs_cons, List.filterMap_cons]
    cases s.sig? with
    | none => exact ih syms
    | some sym =>
      -- the newer function comes in front
      show (hoistSigs list ((sym :: syms) :: outer)).flatten = _
      rw [ih, List.reverse_cons, List.append_assoc]
      rfl

/-- The scope in which a statement list begins. -/
def listScope (outer : Scope) (list : List Stmt) : Scope := hoistSigs list ([] :: outer)

/-- A name that nothing newer than the scope has. -/
def Unshadowed (scope scope' : Scope) (name : Text) : Prop :=
  ∀ sym ∈ scope.newer scope', sym.name ≠ name

/-- What `find?` skips. -/
theorem find_skip {syms : List Sym} {name : Text} (h : ∀ sym ∈ syms, sym.name ≠ name)
    (rest : List Sym) : (syms ++ rest).find? (fun sym => sym.name = name)
      = rest.find? fun sym => sym.name = name := by
  rw [List.find?_append, List.find?_eq_none.mpr fun sym hsym => by simpa using h sym hsym,
    Option.none_or]

/-- **At every check in a statement list, the name of its function is that function's where it is
not shadowed**, be the declaration in front of it or behind it. -/
theorem scopeFind_of_unshadowed {fn : Option (TypeInfo × Bool)} {outer : Scope}
    {pre post : List Stmt} {decl : Stmt} {sym : Sym} {site : Site} (hdecl : decl.sig? = some sym)
    (hlast : ∀ later ∈ post.filterMap Stmt.sig?, later.name ≠ sym.name)
    (hsite : site ∈ blockSites fn outer (pre ++ decl :: post))
    (hun : Unshadowed (listScope outer (pre ++ decl :: post)) site.scope sym.name) :
    scopeFind site.scope sym.name = some sym := by
  have hinside : (listScope outer (pre ++ decl :: post)).Inside site.scope :=
    stmtsSites_inside fn _ _ site hsite
  rw [scopeFind_flatten, ← newer_append hinside, find_skip hun, listScope, hoistSigs_flatten,
    List.filterMap_append, List.filterMap_cons_some hdecl, List.reverse_append, List.reverse_cons,
    List.append_assoc, List.append_assoc,
    find_skip fun later hlater => hlast later (List.mem_reverse.mp hlater)]
  exact List.find?_cons_of_pos (decide_eq_true rfl)

/-! ### Declared and inferred types -/

/-- Where the type `D` is declared and the expression is used, and the report of another type. -/
inductive Site.Expects (classes : ClassTable) (site : Site) :
    TypeInfo → Expr → (TypeInfo → TcError) → Prop
  | initializer {line : ℕ} {name : Text} {D : TypeInfo} {e : Expr} {isFixed : Bool}
      (h : site.node = .initialized line name D (some e) isFixed) :
      site.Expects classes D e fun R => ⟨line, .initializer name (some D) (some R)⟩
  | assigned {line identLine : ℕ} {name : Text} {sym : Sym} {D : TypeInfo} {e : Expr}
      {op : TokenType} (h : site.node = .expr (.assign line (.ident identLine name) e op))
      (hsym : scopeFind site.scope name = some sym) (htype : sym.type = some D) :
      site.Expects classes D e fun R => ⟨line, .cannotAssign name (some D) (some R)⟩
  | returned {line : ℕ} {D : TypeInfo} {isAsync : Bool} {e : Expr}
      (h : site.node = .returned line (some e)) (hfn : site.fn = some (D, isAsync)) :
      site.Expects classes D e fun R => ⟨line, .returnType (some D) (some R)⟩
  /-- An argument of a function … -/
  | argument {line identLine : ℕ} {name : Text} {args : List Expr} {sym : Sym} {i : ℕ}
      {p : Param} {e : Expr} (h : site.node = .expr (.call line (.ident identLine name) args))
      (hsym : scopeFind site.scope name = some sym) (hp : sym.fnParams[i]? = some p)
      (he : args[i]? = some e) :
      site.Expects classes p.type e fun R => ⟨line, .argument name (i + 1) (some p.type) (some R)⟩
  /-- … of a method … -/
  | methodArgument {line memberLine : ℕ} {object : Expr} {name : Text} {args : List Expr}
      {t : Option TypeInfo} {m : Stmt} {i : ℕ} {p : Param} {e : Expr}
      (h : site.node = .expr (.call line (.member memberLine object name) args))
      (ht : inferType classes site.scope object = some t)
      (hm : methodOn classes t name = some (some m)) (hp : m.declParams[i]? = some p)
      (he : args[i]? = some e) :
      site.Expects classes p.type e fun R => ⟨line, .argument name (i + 1) (some p.type) (some R)⟩
  /-- … and of a constructor. -/
  | newArgument {line : ℕ} {className : Text} {args : List Expr} {c : ℕ} {m : Stmt} {i : ℕ}
      {p : Param} {e : Expr} (h : site.node = .expr (.new line className args))
      (hc : findClass classes className = some c)
      (hm : findClassMethod classes c (txt "constructor") = some (some m))
      (hp : m.declParams[i]? = some p) (he : args[i]? = some e) :
      site.Expects classes p.type e
        fun R => ⟨line, .argument className (i + 1) (some p.type) (some R)⟩

section Reported

variable {classes : ClassTable} {scope : Scope} {e : Expr} {D R : TypeInfo}

theorem errors_inferred {t : Option TypeInfo} (h : inferType classes scope e = some t)
    (f : Option TypeInfo → Tc Unit) :
    (Tc.known (inferType classes scope e) >>= f).errors = (f t).errors := by
  rw [h, errors_bind_some (a := t) rfl]
  rfl

theorem mem_errorIf {c : Bool} (h : c = true) (line : ℕ) (message : TcMessage) :
    ⟨line, message⟩ ∈ (Tc.errorIf c line message).errors := by
  subst h
  exact List.mem_singleton_self _

theorem mem_bind_left {α β : Type} {m : Tc α} {error : TcError} (h : error ∈ m.errors)
    (f : α → Tc β) : error ∈ (m >>= f).errors := by
  obtain ⟨errors, result⟩ := m
  cases result with
  | none => exact h
  | some a => exact List.mem_append_left _ h

variable (hinfer : inferType classes scope e = some (some R))
  (hconflict : typesConflict (some D) (some R) = true) (line : ℕ)

include hinfer hconflict

theorem mem_checkInit (name : Text) :
    ⟨line, .initializer name (some D) (some R)⟩
      ∈ (checkInit typesConflict classes name D (some e) scope line).errors := by
  rw [checkInit, errors_inferred hinfer]
  exact mem_errorIf hconflict _ _

theorem mem_checkReturn :
    ⟨line, .returnType (some D) (some R)⟩
      ∈ (checkReturn typesConflict classes (some D) (some e) scope line).errors := by
  rw [checkReturn, errors_inferred hinfer]
  exact mem_errorIf hconflict _ _

theorem mem_checkAssign {name : Text} {sym : Sym} (hsym : scopeFind scope name = some sym)
    (htype : sym.type = some D) (identLine : ℕ) :
    ⟨line, .cannotAssign name (some D) (some R)⟩
      ∈ (checkAssign typesConflict classes (.ident identLine name) e scope line).errors := by
  unfold checkAssign
  simp only [hsym]
  rw [errors_bind_some (result_errorIf _ _ _), errors_inferred hinfer, htype]
  exact List.mem_append_right _ (mem_errorIf hconflict _ _)

end Reported

section Arguments

variable {program : List Stmt} (hring : Ringless (registerClasses program).link)
  {scope : Scope} {e : Expr} {R : TypeInfo} {p : Param}
  (hinfer : inferType (registerClasses program) scope e = some (some R))
  (hconflict : typesConflict (some p.type) (some R) = true)

include hring hinfer hconflict

/-- The arguments in front are compared too, and these comparisons come back. -/
theorem mem_checkCallArgs (label : Text) (line i : ℕ) :
    ∀ (idx : ℕ) (params : List Param) (args : List Expr), params[i]? = some p → args[i]? = some e →
      ⟨line, .argument label (i + idx) (some p.type) (some R)⟩ ∈ (checkCallArgs typesConflict
        (registerClasses program) label line scope idx params args).errors := by
  induction i with
  | zero =>
    intro idx params args hp he
    cases params with
    | nil => cases hp
    | cons q params =>
      cases args with
      | nil => cases he
      | cons a args =>
        obtain rfl : q = p := Option.some.inj hp
        obtain rfl : a = e := Option.some.inj he
        rw [checkCallArgs, errors_inferred hinfer, Nat.zero_add]
        exact mem_bind_left (mem_errorIf hconflict _ _) _
  | succ i ih =>
    intro idx params args hp he
    cases params with
    | nil => cases hp
    | cons q params =>
      cases args with
      | nil => cases he
      | cons a args =>
        obtain ⟨t, ht⟩ := Option.ne_none_iff_exists'.mp (inferType_ne_none hring scope a)
        rw [checkCallArgs, errors_inferred ht, errors_bind_some (result_errorIf _ _ _),
          Nat.add_assoc, Nat.add_comm 1 idx]
        exact List.mem_append_right _ (ih (idx + 1) params args hp he)

theorem mem_checkIdentCall {name : Text} {sym : Sym} (hsym : scopeFind scope name = some sym)
    {args : List Expr} {i : ℕ} (hp : sym.fnParams[i]? = some p) (he : args[i]? = some e) (line : ℕ) :
    ⟨line, .argument name (i + 1) (some p.type) (some R)⟩ ∈ (checkIdentCall typesConflict
      (registerClasses program) name args scope line).errors := by
  have hparams : sym.fnParams ≠ [] := by
    intro hnil
    rw [hnil] at hp
    cases hp
  unfold checkIdentCall
  simp only [hsym]
  rw [if_pos hparams]
  exact mem_checkCallArgs hring hinfer hconflict name line i 1 sym.fnParams args hp he

theorem mem_checkMemberCall {object : Expr} {name : Text} {t : Option TypeInfo} {m : Stmt}
    (ht : inferType (registerClasses program) scope object = some t)
    (hm : methodOn (registerClasses program) t name = some (some m)) {args : List Expr} {i : ℕ}
    (hp : m.declParams[i]? = some p) (he : args[i]? = some e) (line : ℕ) :
    ⟨line, .argument name (i + 1) (some p.type) (some R)⟩ ∈ (checkMemberCall typesConflict
      (registerClasses program) object name args scope line).errors := by
  unfold checkMemberCall
  rw [errors_bind_some (result_errorIf _ _ _), errors_inferred ht, hm,
    errors_bind_some (a := some m) rfl]
  exact List.mem_append_right _
    (mem_checkCallArgs hring hinfer hconflict name line i 1 m.declParams args hp he)

theorem mem_checkNew {className : Text} {c : ℕ} {m : Stmt}
    (hc : findClass (registerClasses program) className = some c)
    (hm : findClassMethod (registerClasses program) c (txt "constructor") = some (some m))
    {args : List Expr} {i : ℕ} (hp : m.declParams[i]? = some p) (he : args[i]? = some e)
    (line : ℕ) :
    ⟨line, .argument className (i + 1) (some p.type) (some R)⟩ ∈ (checkNew typesConflict
      (registerClasses program) className args scope line).errors := by
  unfold checkNew
  simp only [hc]
  rw [hm, errors_bind_some (a := some m) rfl]
  exact mem_checkCallArgs hring hinfer hconflict className line i 1 m.declParams args hp he

end Arguments

/-- **A type of another family is reported** where a type is declared. -/
theorem expects_reported {program : List Stmt} (hring : Ringless (registerClasses program).link)
    {site : Site} {D R : TypeInfo} {e : Expr} {report : TypeInfo → TcError}
    (h : site.Expects (registerClasses program) D e report)
    (hinfer : inferType (registerClasses program) site.scope e = some (some R))
    (hconflict : typesConflict (some D) (some R) = true) :
    report R ∈ (site.run typesConflict (registerClasses program)).errors := by
  obtain ⟨fn, scope, node⟩ := site
  cases h with
  | initializer h =>
    obtain rfl : node = _ := h
    exact mem_bind_left (mem_checkInit hinfer hconflict _ _) _
  | @assigned _ identLine _ _ _ _ _ h hsym htype =>
    obtain rfl : node = _ := h
    exact mem_checkAssign hinfer hconflict _ hsym htype identLine
  | returned h hfn =>
    obtain rfl : node = _ := h
    obtain rfl : fn = _ := hfn
    exact mem_checkReturn hinfer hconflict _
  | argument h hsym hp he =>
    obtain rfl : node = _ := h
    exact mem_checkIdentCall hring hinfer hconflict hsym hp he _
  | methodArgument h ht hm hp he =>
    obtain rfl : node = _ := h
    exact mem_checkMemberCall hring hinfer hconflict ht hm hp he _
  | newArgument h hc hm hp he =>
    obtain rfl : node = _ := h
    exact mem_checkNew hring hinfer hconflict hc hm hp he _

/-! ### Calls by name -/

/-- A call of the name. -/
def IsCall (name : Text) (e : Expr) : Prop :=
  ∃ line identLine args, e = .call line (.ident identLine name) args

/-- At the check, a call of the name has the type `R`, and where a type of another family is
declared it is reported. -/
structure CallTyped (program : List Stmt) (site : Site) (name : Text) (R : TypeInfo) : Prop where
  inferred : ∀ e, IsCall name e →
    inferType (registerClasses program) site.scope e = some (some R)
  reported : Ringless (checkedExtends program) → site ∈ programSites program →
    ∀ D e report, IsCall name e → site.Expects (registerClasses program) D e report →
      typesConflict (some D) (some R) = true → report R ∈ (typecheckProgram program).errors

/-- The reports of a check are reports of the program. -/
theorem mem_errors_of_site {program : List Stmt} (hring : Ringless (checkedExtends program))
    {site : Site} (hsite : site ∈ programSites program) {error : TcError}
    (h : error ∈ (site.run typesConflict (registerClasses program)).errors) :
    error ∈ (typecheckProgram program).errors := by
  rw [typecheckProgram, typecheckWith_sites,
    runSites_errors ((ringless_registerClasses program).mpr hring)]
  exact List.mem_flatMap_of_mem hsite h

/-- **A call by name has the declared type exactly when the function has a parameter.** The
function stands anywhere in the statement list, and the check anywhere in the list where the name
is not shadowed. -/
theorem callTyped_iff (program : List Stmt) (fn : Option (TypeInfo × Bool)) (outer : Scope)
    (pre post : List Stmt) (line : ℕ) (name : Text) (params : List Param) (R : TypeInfo)
    (body : Stmt) (isAsync : Bool) (site : Site)
    (hlast : ∀ later ∈ post.filterMap Stmt.sig?, later.name ≠ name)
    (hsite : site ∈ blockSites fn outer
      (pre ++ .funDecl line name params R body isAsync :: post))
    (hun : Unshadowed (listScope outer (pre ++ .funDecl line name params R body isAsync :: post))
      site.scope name) :
    CallTyped program site name R ↔ params ≠ [] := by
  have hfind : scopeFind site.scope name = some ⟨name, true, some R, params, some R⟩ :=
    scopeFind_of_unshadowed rfl hlast hsite hun
  have hinfer : ∀ e, IsCall name e → inferType (registerClasses program) site.scope e
      = some (if params ≠ [] then some R else none) := by
    rintro e ⟨callLine, identLine, args, rfl⟩
    rw [inferType, hfind]
    rfl
  constructor
  · intro h hnil
    have hcall : IsCall name (.call 0 (.ident 0 name) []) := ⟨0, 0, [], rfl⟩
    have hsome := h.inferred _ hcall
    rw [hinfer _ hcall, if_neg (not_not_intro hnil)] at hsome
    cases hsome
  · intro hparams
    have hcall : ∀ e, IsCall name e →
        inferType (registerClasses program) site.scope e = some (some R) := by
      intro e he
      rw [hinfer e he, if_pos hparams]
    exact ⟨hcall, fun hring hprogram D e report he hexpects hconflict =>
      mem_errors_of_site hring hprogram (expects_reported
        ((ringless_registerClasses program).mpr hring) hexpects (hcall e he) hconflict)⟩

/-- `var s: string = f(args);  fun f(params): num { return 1; }` -/
def callInit (params : List Param) (args : List Expr) : List Stmt := [
  .varDecl 1 (txt "s") (.new .string) (some (.call 1 (.ident 1 (txt "f")) args)) false,
  .funDecl 2 (txt "f") params (.new .num) (.block 2 [.ret 2 (some (.num 2 1))]) false]

/-- The check of the initialiser. -/
def callInitSite (params : List Param) (args : List Expr) : Site where
  fn := none
  scope := listScope [[]] (callInit params args)
  node := .initialized 1 (txt "s") (.new .string) (some (.call 1 (.ident 1 (txt "f")) args)) false

theorem callTyped_iff_callInit :
    CallTyped (callInit [⟨txt "a", .new .num⟩] [.num 1 1])
      (callInitSite [⟨txt "a", .new .num⟩] [.num 1 1]) (txt "f") (.new .num) := by
  refine (callTyped_iff _ none [[]] [.varDecl 1 (txt "s") (.new .string)
    (some (.call 1 (.ident 1 (txt "f")) [.num 1 1])) false] [] 2 (txt "f") [⟨txt "a", .new .num⟩]
    (.new .num) (.block 2 [.ret 2 (some (.num 2 1))]) false _ ?_ ?_ ?_).mpr (List.cons_ne_nil _ _)
  · exact fun later hlater => absurd hlater List.not_mem_nil
  · exact List.mem_of_getElem? (i := 4) rfl
  · exact fun sym hsym => absurd hsym List.not_mem_nil

/-- A number from a function without parameters is taken for a string. -/
theorem callInit_unreported :
    callInitSite [] [] ∈ programSites (callInit [] []) ∧
    Unshadowed (listScope [[]] (callInit [] [])) (callInitSite [] []).scope (txt "f") ∧
    inferType (registerClasses (callInit [] [])) (callInitSite [] []).scope
      (.call 1 (.ident 1 (txt "f")) []) = some none ∧
    typesConflict (some (.new .string)) (some (.new .num)) = true ∧
    (typecheckProgram (callInit [] [])).errors = [] ∧
    ¬ CallTyped (callInit [] []) (callInitSite [] []) (txt "f") (.new .num) := by
  have hinfer : inferType (registerClasses (callInit [] [])) (callInitSite [] []).scope
      (.call 1 (.ident 1 (txt "f")) []) = some none := rfl
  refine ⟨List.mem_of_getElem? (i := 3) rfl, fun sym hsym => absurd hsym List.not_mem_nil, hinfer,
    rfl, rfl, fun h => ?_⟩
  have hcall := h.inferred _ ⟨1, 1, [], rfl⟩
  rw [hinfer] at hcall
  cases hcall

/-! ### Returns of async functions -/

/-- The types that are not told from a `Task`: what is not known, nothing, a class, a `Task`. -/
def PassesForTask (actual : Option TypeInfo) : Prop :=
  ∀ t, actual = some t → t.kind = .unknown ∨ t.kind = .void ∨ t.kind = .classNamed ∨ t.kind = .task

theorem typesConflict_task (elem : Option TypeInfo) (className : Option Text)
    (actual : Option TypeInfo) :
    typesConflict (some (.mk .task elem className)) actual = false ↔ PassesForTask actual := by
  cases actual with
  | none =>
    constructor
    · intro _ t ht
      cases ht
    · exact fun _ => rfl
  | some t =>
    have hpasses : PassesForTask (some t) ↔
        t.kind = .unknown ∨ t.kind = .void ∨ t.kind = .classNamed ∨ t.kind = .task := by
      constructor
      · exact fun h => h t rfl
      · intro h u hu
        exact Option.some.inj hu ▸ h
    rw [hpasses]
    obtain ⟨kind, elem', className'⟩ := t
    cases kind <;> simp [typesConflict, TypeInfo.kind, typeFamily]

/-- **What an async function for a `Task<T>` returns is accepted exactly when its type is one that
passes for a `Task`**, whether it conflicts with `T` or not. The return stands anywhere in the
function, and the function, declared or a literal, anywhere in the program. -/
theorem asyncReturn_iff (program : List Stmt) (site : Site) (line : ℕ) (e : Expr) (T : TypeInfo)
    (className : Option Text) (actual : Option TypeInfo) (hsite : site ∈ programSites program)
    (hnode : site.node = .returned line (some e))
    (hfn : site.fn = some (.mk .task (some T) className, true))
    (hinfer : inferType (registerClasses program) site.scope e = some actual) :
    ((site.run typesConflict (registerClasses program)).errors = [] ↔ PassesForTask actual) ∧
    (Ringless (checkedExtends program) → ¬ PassesForTask actual →
      ⟨line, .returnType (some (.mk .task (some T) className)) actual⟩
        ∈ (typecheckProgram program).errors) := by
  have hrun : (site.run typesConflict (registerClasses program)).errors
      = (Tc.errorIf (typesConflict (some (.mk .task (some T) className)) actual) line
        (.returnType (some (.mk .task (some T) className)) actual)).errors := by
    unfold Site.run
    rw [hnode, hfn]
    exact errors_inferred hinfer _
  rw [hrun, ← typesConflict_task (some T) className]
  constructor
  · cases typesConflict (some (.mk .task (some T) className)) actual with
    | false => exact ⟨fun _ => rfl, fun _ => rfl⟩
    | true => exact ⟨fun h => (List.cons_ne_nil _ _ h).elim, fun h => by cases h⟩
  · intro hring hconflict
    refine mem_errors_of_site hring hsite ?_
    rw [hrun]
    exact mem_errorIf (Bool.eq_true_of_not_eq_false hconflict) _ _

/-- `async fun fetchData(): Task<string> { return "data"; }` -/
def fetchData : List Stmt := [
  .funDecl 1 (txt "fetchData") [] (.mk .task (some (.new .string)) none)
    (.block 1 [.ret 2 (some (.str 2 [.literal (txt "data")]))]) true]

/-- The check of the value that is returned. -/
def fetchDataSite : Site where
  fn := some (.mk .task (some (.new .string)) none, true)
  scope := [] :: [] :: listScope [[]] fetchData
  node := .returned 2 (some (.str 2 [.literal (txt "data")]))

theorem asyncReturn_iff_fetchData :
    (fetchDataSite.run typesConflict (registerClasses fetchData)).errors = [] ↔
      PassesForTask (some (.new .string)) :=
  (asyncReturn_iff fetchData fetchDataSite 2 (.str 2 [.literal (txt "data")]) (.new .string) none
    (some (.new .string)) (List.mem_of_getElem? (i := 1) rfl) rfl rfl rfl).1

/-- The example of the documentation is rejected. -/
theorem fetchData_rejected :
    fetchDataSite ∈ programSites fetchData ∧
    inferType (registerClasses fetchData) fetchDataSite.scope (.str 2 [.literal (txt "data")])
      = some (some (.new .string)) ∧
    typesConflict (some (.new .string)) (some (.new .string)) = false ∧
    (typecheckProgram fetchData).errors.map (fun e => (e.line, e.message.text))
      = [(2, txt "return type mismatch: declared Task, returning string")] :=
  ⟨List.mem_of_getElem? (i := 1) rfl, rfl, rfl, rfl⟩

end Jaguar
