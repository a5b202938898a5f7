/-
The static checker (`typecheck.c`).

A run of the checker is a `Tc`: the errors it reports, in their order, and its result. A walk
up a ring of classes does not come back; what was reported before stays reported.

The comparison of a declared with an inferred type is a parameter of the walk over the
program, so that the comparisons themselves can be listed: `typecheckProgram` is the walk with
`typesConflict`.

* `inferType` — the type of an expression, as far as it is known;
* `checkExpr`, `checkStmt` — the checks, in the order of the source;
* `typecheckProgram` — the checker on a whole program.
-/
import Jaguar.ClassTable
import Jaguar.Double

namespace Jaguar

/-! ### Scopes -/

structure Sym where
  name : Text
  isFixed : Bool
  type : Option TypeInfo
  fnParams : List Param
  fnReturn : Option TypeInfo

/-- The symbols of a scope, the newest first, then those of the scopes around it. -/
abbrev Scope := List (List Sym)

/-- `scope_define`. -/
def scopeDefine (scope : Scope) (sym : Sym) : Scope :=
  match scope with
  | [] => []
  | syms :: parent => (sym :: syms) :: parent

/-- A symbol that is no function. -/
def Sym.var (name : Text) (isFixed : Bool) (type : Option TypeInfo) : Sym :=
  ⟨name, isFixed, type, [], none⟩

/-- `scope_find`. -/
def scopeFind (scope : Scope) (name : Text) : Option Sym :=
  match scope with
  | [] => none
  | syms :: parent =>
    match syms.find? fun sym => sym.name = name with
    | some sym => some sym
    | none => scopeFind parent name

/-! ### Types -/

def TypeInfo.kind : TypeInfo → JagType
  | .mk kind _ _ => kind

def TypeInfo.className : TypeInfo → Option Text
  | .mk _ _ name => name

/-- `type_family`. -/
def typeFamily (t : JagType) : JagType :=
  match t with
  | .num | .decimal | .scifi => .num
  | .list | .mixedlist | .vector | .matrix => .list
  | t => t

/-- `types_conflict`. -/
def typesConflict (declared actual : Option TypeInfo) : Bool :=
  match declared, actual with
  | some declared, some actual =>
    if declared.kind = .unknown ∨ actual.kind = .unknown then false
    else if declared.kind = .void ∨ actual.kind = .void then false
    else if declared.kind = .classNamed ∧ actual.kind = .classNamed then
      declared.className ≠ actual.className
    else if declared.kind = .classNamed ∨ actual.kind = .classNamed then false
    else typeFamily declared.kind ≠ typeFamily actual.kind
  | _, _ => false

/-- `type_name`. -/
def typeName (t : Option TypeInfo) : Text :=
  match t with
  | none => txt "unknown"
  | some t =>
    match t.kind with
    | .string => txt "string"
    | .num => txt "num"
    | .decimal => txt "decimal"
    | .bool => txt "bool"
    | .scifi => txt "scifi"
    | .data => txt "data"
    | .list => txt "list"
    | .mixedlist => txt "MixedList"
    | .enum => txt "enum"
    | .struct => txt "struct"
    | .vector => txt "vector"
    | .matrix => txt "matrix"
    | .task => txt "Task"
    | .worker => txt "Worker"
    | .socket => txt "Socket"
    | .void => txt "void"
    | .classNamed => t.className.getD []
    | .unknown => txt "unknown"

/-! ### Reports -/

/-- What an error says; `declared` and `actual` are the types that were compared. -/
inductive TcMessage
  | cannotReassign (name : Text)
  | cannotAssign (name : Text) (declared actual : Option TypeInfo)
  | notAClass (name : Text)
  | argument (label : Text) (idx : ℕ) (declared actual : Option TypeInfo)
  | liveDegArity
  | missingType (name : Text)
  | initializer (name : Text) (declared actual : Option TypeInfo)
  | missingInitializer
  | returnType (declared actual : Option TypeInfo)

/-- The text of a message. -/
def TcMessage.text : TcMessage → Text
  | .cannotReassign name => txt "cannot reassign fixed variable '" ++ name ++ txt "'"
  | .cannotAssign name declared actual =>
    txt "cannot assign " ++ typeName actual ++ txt " to '" ++ name ++ txt "' (declared " ++
      typeName declared ++ txt ")"
  | .notAClass name => txt "'" ++ name ++ txt "' is not a known class"
  | .argument label idx declared actual =>
    label ++ txt ": argument " ++ natText idx ++ txt " expected " ++ typeName declared ++
      txt ", got " ++ typeName actual
  | .liveDegArity =>
    txt "live.deg() requires a type name and at least one value (arity mismatch)"
  | .missingType name => txt "'" ++ name ++ txt "' is missing a required type annotation"
  | .initializer name declared actual =>
    txt "'" ++ name ++ txt "' declared as " ++ typeName declared ++
      txt " but initialized with " ++ typeName actual
  | .missingInitializer => txt "fixed declaration requires an initializer"
  | .returnType declared actual =>
    txt "return type mismatch: declared " ++ typeName declared ++ txt ", returning " ++
      typeName actual

structure TcError where
  line : ℕ
  message : TcMessage

/-- `tc_error`, as it is printed. -/
def TcError.text (filename : Text) (e : TcError) : Text :=
  filename ++ txt ":" ++ natText e.line ++ txt ": type error: " ++ e.message.text ++ [10]

/-- A run of the checker: what it reported, and the result if it came back. -/
structure Tc (α : Type) where
  errors : List TcError
  result : Option α

namespace Tc

variable {α β : Type}

protected def pure (a : α) : Tc α := ⟨[], some a⟩

protected def bind (m : Tc α) (f : α → Tc β) : Tc β :=
  match m.result with
  | none => ⟨m.errors, none⟩
  | some a => ⟨m.errors ++ (f a).errors, (f a).result⟩

instance : Monad Tc where
  pure := Tc.pure
  bind := Tc.bind

/-- What was computed without reports. -/
def known (r : Option α) : Tc α := ⟨[], r⟩

/-- `tc_error`. -/
def error (line : ℕ) (message : TcMessage) : Tc Unit := ⟨[⟨line, message⟩], some ()⟩

/-- A report under a condition. -/
def errorIf (c : Bool) (line : ℕ) (message : TcMessage) : Tc Unit :=
  if c then error line message else pure ()

end Tc

/-! ### Inference -/

/-- `find_class_member`, for a method: a chain longer than the table is a ring. -/
def findClassMethod (classes : ClassTable) (c : ℕ) (name : Text) : Option (Option Stmt) :=
  findClassMember classes name true classes.length (some c)

/-- The declaration of the method that is called on a value of the type. -/
def methodOn (classes : ClassTable) (t : Option TypeInfo) (name : Text) : Option (Option Stmt) :=
  match t with
  | some t =>
    if t.kind = .classNamed then
      match findClass classes (t.className.getD []) with
      | some c => findClassMethod classes c name
      | none => some none
    else some none
  | none => some none

/-- The declared parameters of a function declaration. -/
def Stmt.declParams : Stmt → List Param
  | .funDecl _ _ params _ _ _ => params
  | _ => []

/-- The declared return type of a function declaration. -/
def Stmt.declReturn : Stmt → Option TypeInfo
  | .funDecl _ _ _ retType _ _ => some retType
  | _ => none

/-- The type of a sum. -/
def inferSum (l r : Option TypeInfo) : Option TypeInfo :=
  if (l.any fun t => t.kind = .string) ∨ (r.any fun t => t.kind = .string) then some (.new .string)
  else l.or r

/-- `infer_type`. -/
def inferType (classes : ClassTable) (scope : Scope) : Expr → Option (Option TypeInfo)
  | .num .. => some (some (.new .num))
  | .decimal .. => some (some (.new .decimal))
  | .scifi .. => some (some (.new .scifi))
  | .bool .. => some (some (.new .bool))
  | .str .. => some (some (.new .string))
  | .list .. => some (some (.new .list))
  | .data .. => some (some (.new .data))
  | .ident _ name => some ((scopeFind scope name).bind Sym.type)
  | .ternary _ _ thenE elseE => do
    let a ← inferType classes scope thenE
    let b ← inferType classes scope elseE
    pure (if a.isSome && b.isSome && !typesConflict a b then a else none)
  | .between .. => some (some (.new .bool))
  | .binary _ left right op =>
    match op with
    | .gt | .lt | .ge | .le | .eq | .ne | .and | .or => some (some (.new .bool))
    | .plus => do
      let l ← inferType classes scope left
      let r ← inferType classes scope right
      pure (inferSum l r)
    | .slash => some (some (.new .decimal))
    | _ => do
      let l ← inferType classes scope left
      match l with
      | some t => pure (some t)
      | none => inferType classes scope right
  | .new _ className _ =>
    some ((findClass classes className).map fun _ => .mk .classNamed none (some className))
  | .call _ (.ident _ name) _ =>
    some ((scopeFind scope name).bind fun sym => if sym.fnParams ≠ [] then sym.fnReturn else none)
  | .call _ (.member _ object name) _ => do
    let t ← inferType classes scope object
    let method ← methodOn classes t name
    pure (method.bind Stmt.declReturn)
  | _ => some none

/-! ### Checks -/

section Check

variable (conflict : Option TypeInfo → Option TypeInfo → Bool) (classes : ClassTable)

/-- `check_call_args`, from the argument number `idx` on. -/
def checkCallArgs (label : Text) (line : ℕ) (scope : Scope) : ℕ → List Param → List Expr → Tc Unit
  | idx, p :: params, a :: args => do
    let actual ← Tc.known (inferType classes scope a)
    Tc.errorIf (conflict (some p.type) actual) line (.argument label idx (some p.type) actual)
    checkCallArgs label line scope (idx + 1) params args
  | _, _, _ => pure ()

/-- The arguments of a call of `name`. -/
def checkIdentCall (name : Text) (args : List Expr) (scope : Scope) (line : ℕ) : Tc Unit :=
  match scopeFind scope name with
  | some sym =>
    if sym.fnParams ≠ [] then checkCallArgs conflict classes name line scope 1 sym.fnParams args
    else pure ()
  | none => pure ()

/-- The arguments of a call of `object.name`. -/
def checkMemberCall (object : Expr) (name : Text) (args : List Expr) (scope : Scope) (line : ℕ) :
    Tc Unit := do
  let isDeg : Bool := match object with
    | .ident _ n => n = txt "live" && name = txt "deg"
    | _ => false
  Tc.errorIf (isDeg && args.length < 2) line .liveDegArity
  let t ← Tc.known (inferType classes scope object)
  let method ← Tc.known (methodOn classes t name)
  match method with
  | some m => checkCallArgs conflict classes name line scope 1 m.declParams args
  | none => pure ()

/-- The arguments of a call. -/
def checkCall (callee : Expr) (args : List Expr) (scope : Scope) (line : ℕ) : Tc Unit :=
  match callee with
  | .ident _ name => checkIdentCall conflict classes name args scope line
  | .member _ object name => checkMemberCall conflict classes object name args scope line
  | _ => pure ()

/-- The arguments of `new className(args)`. -/
def checkNew (className : Text) (args : List Expr) (scope : Scope) (line : ℕ) : Tc Unit :=
  match findClass classes className with
  | none => Tc.error line (.notAClass className)
  | some c => do
    let ctor ← Tc.known (findClassMethod classes c (txt "constructor"))
    match ctor with
    | some m => checkCallArgs conflict classes className line scope 1 m.declParams args
    | none => pure ()

/-- What an assignment to a variable is checked for. -/
def checkAssign (target value : Expr) (scope : Scope) (line : ℕ) : Tc Unit :=
  match target with
  | .ident _ name =>
    match scopeFind scope name with
    | some sym => do
      Tc.errorIf sym.isFixed line (.cannotReassign name)
      let actual ← Tc.known (inferType classes scope value)
      Tc.errorIf (conflict sym.type actual) line (.cannotAssign name sym.type actual)
    | none => pure ()
  | _ => pure ()

/-- The functions of a statement list, known before the first statement is checked. -/
def hoistSigs (list : List Stmt) (scope : Scope) : Scope :=
  list.foldl (fun scope s =>
    match s with
    | .funDecl _ name params retType _ _ =>
      scopeDefine scope ⟨name, true, some retType, params, some retType⟩
    | _ => scope) scope

/-- A scope with the parameters of a function. -/
def paramScope (params : List Param) (scope : Scope) : Scope :=
  params.foldl (fun scope p => scopeDefine scope (.var p.name false (some p.type))) ([] :: scope)

/-- A scope with one variable of unknown type. -/
def varScope (name : Text) (scope : Scope) : Scope :=
  scopeDefine ([] :: scope) (.var name false none)

/-- The scope that the members of a class are checked in. -/
def memberScope (scope : Scope) : Scope :=
  scopeDefine (scopeDefine ([] :: scope) (.var (txt "this") true none))
    (.var (txt "super") true none)

/-- What a declaration without an initialiser, or with one, is checked for. -/
def checkInit (name : Text) (type : TypeInfo) (init : Option Expr) (scope : Scope) (line : ℕ) :
    Tc Unit :=
  match init with
  | some e => do
    let actual ← Tc.known (inferType classes scope e)
    Tc.errorIf (conflict (some type) actual) line (.initializer name (some type) actual)
  | none => pure ()

/-- What a returned value is checked for. -/
def checkReturn (curReturn : Option TypeInfo) (value : Option Expr) (scope : Scope) (line : ℕ) :
    Tc Unit :=
  match value with
  | some e => do
    let actual ← Tc.known (inferType classes scope e)
    Tc.errorIf (curReturn.isSome && conflict curReturn actual) line (.returnType curReturn actual)
  | none => pure ()

mutual

/-- `check_expr`, inside of a function with the return type `ret`. -/
def checkExpr (ret : Option TypeInfo) (scope : Scope) : Expr → Tc Unit
  | .str _ parts => checkParts ret scope parts
  | .binary _ left right _ => do
    checkExpr ret scope left
    checkExpr ret scope right
  | .unary _ operand _ => checkExpr ret scope operand
  | .ternary _ cond thenE elseE => do
    checkExpr ret scope cond
    checkExpr ret scope thenE
    checkExpr ret scope elseE
  | .between _ value low high => do
    checkExpr ret scope value
    checkExpr ret scope low
    checkExpr ret scope high
  | .list _ items => checkExprs ret scope items
  | .data _ entries => checkEntries ret scope entries
  | .funcLit _ params retType body _ => checkBody (some retType) (paramScope params scope) body
  | .await _ e => checkExpr ret scope e
  | .member _ object _ => checkExpr ret scope object
  | .index _ object index => do
    checkExpr ret scope object
    checkExpr ret scope index
  | .assign line target value _ => do
    checkAssign conflict classes target value scope line
    checkExpr ret scope target
    checkExpr ret scope value
  | .new line className args => do
    checkNew conflict classes className args scope line
    checkExprs ret scope args
  | .call line callee args => do
    checkExprs ret scope args
    -- of an identifier there is nothing to check, and of a member its object
    checkExpr ret scope callee
    checkCall conflict classes callee args scope line
  | .num .. | .decimal .. | .scifi .. | .bool .. | .ident .. => pure ()

/-- `check_expr_list`. -/
def checkExprs (ret : Option TypeInfo) (scope : Scope) : List Expr → Tc Unit
  | [] => pure ()
  | e :: es => do
    checkExpr ret scope e
    checkExprs ret scope es

/-- An expression that may be missing. -/
def checkOpt (ret : Option TypeInfo) (scope : Scope) : Option Expr → Tc Unit
  | none => pure ()
  | some e => checkExpr ret scope e

/-- The expressions in a string. -/
def checkParts (ret : Option TypeInfo) (scope : Scope) : List StrPart → Tc Unit
  | [] => pure ()
  | .literal _ :: parts => checkParts ret scope parts
  | .expr e :: parts => do
    checkExpr ret scope e
    checkParts ret scope parts

/-- The values of a data literal. -/
def checkEntries (ret : Option TypeInfo) (scope : Scope) : List (Text × Expr) → Tc Unit
  | [] => pure ()
  | (_, e) :: entries => do
    checkExpr ret scope e
    checkEntries ret scope entries

/-- The body of a function, with the scope of its parameters. -/
def checkBody (ret : Option TypeInfo) (scope : Scope) : Stmt → Tc Unit
  | .block _ stmts => do
    let _ ← checkStmts ret (hoistSigs stmts ([] :: scope)) stmts
    pure ()
  | _ => pure ()

/-- `check_stmt`, and the scope with what the statement declares. -/
def checkStmt (ret : Option TypeInfo) (scope : Scope) : Stmt → Tc Scope
  | .varDecl line name type init isFixed => do
    Tc.errorIf (type.kind = .unknown) line (.missingType name)
    checkOpt ret scope init
    checkInit conflict classes name type init scope line
    Tc.errorIf (isFixed && init.isNone) line .missingInitializer
    pure (scopeDefine scope (.var name isFixed (some type)))
  | .expr _ e => do
    checkExpr ret scope e
    pure scope
  | .ifStmt _ cond thenB elifs elseB => do
    checkExpr ret scope cond
    let scope ← checkStmt ret scope thenB
    let scope ← checkElifs ret scope elifs
    checkElse ret scope elseB
  | .loopWhile _ cond body => do
    checkExpr ret scope cond
    checkStmt ret scope body
  | .doWhile _ cond body => do
    let scope ← checkStmt ret scope body
    checkExpr ret scope cond
    pure scope
  | .forIn _ var iterable cond body => do
    checkExpr ret scope iterable
    checkOpt ret (varScope var scope) cond
    let _ ← checkStmt ret (varScope var scope) body
    pure scope
  | .iterate _ collection item body => do
    checkExpr ret scope collection
    let _ ← checkStmt ret (varScope item scope) body
    pure scope
  | .funDecl _ _ params retType body _ => do
    checkBody (some retType) (paramScope params scope) body
    pure scope
  | .ret line value => do
    checkOpt ret scope value
    checkReturn conflict classes ret value scope line
    pure scope
  | .block _ stmts => do
    let _ ← checkStmts ret (hoistSigs stmts ([] :: scope)) stmts
    pure scope
  | .classDecl _ name members _ _ => do
    let scope := scopeDefine scope (.var name true none)
    let _ ← checkStmts ret (memberScope scope) members
    pure scope
  | .enumDecl _ name _ => pure (scopeDefine scope (.var name true none))
  | .structDecl _ name _ => pure (scopeDefine scope (.var name true none))
  | .tryCatch _ tryB errName catchB => do
    let scope ← checkStmt ret scope tryB
    let _ ← checkStmt ret (varScope errName scope) catchB
    pure scope
  | .importStmt .. | .exportStmt .. | .brk _ | .cont _ => pure scope

/-- The statements of a list, one after the other. -/
def checkStmts (ret : Option TypeInfo) (scope : Scope) : List Stmt → Tc Scope
  | [] => pure scope
  | s :: list => do
    let scope ← checkStmt ret scope s
    checkStmts ret scope list

/-- The `elif` branches. -/
def checkElifs (ret : Option TypeInfo) (scope : Scope) : List (Expr × Stmt) → Tc Scope
  | [] => pure scope
  | (cond, body) :: elifs => do
    checkExpr ret scope cond
    let scope ← checkStmt ret scope body
    checkElifs ret scope elifs

/-- The `else` branch, if there is one. -/
def checkElse (ret : Option TypeInfo) (scope : Scope) : Option Stmt → Tc Scope
  | none => pure scope
  | some s => checkStmt ret scope s

end

/-- `check_block`. -/
def checkBlock (ret : Option TypeInfo) (scope : Scope) (list : List Stmt) : Tc Unit := do
  let _ ← checkStmts conflict classes ret (hoistSigs list ([] :: scope)) list
  pure ()

end Check

/-- `typecheck_program`, with a comparison of types in place of `typesConflict`. -/
def typecheckWith (conflict : Option TypeInfo → Option TypeInfo → Bool) (program : List Stmt) :
    Tc Unit :=
  checkBlock conflict (registerClasses program) none [[]] program

/-- `typecheck_program`. -/
def typecheckProgram (program : List Stmt) : Tc Unit := typecheckWith typesConflict program

end Jaguar
