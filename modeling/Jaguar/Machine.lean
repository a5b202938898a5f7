/-
The state the interpreter runs on (`interp.h`), and hoisting (`hoist_functions`,
`hoist_classes`, `find_method`, `init_fields_recursive` of `interp.c`).

What lies outside of the interpreter — the terminal, files, the network, timers, threads —
is a `Host`: a world, and what the calls do to it.

* `Machine`, `Interp`, `Host` — the state, and its surroundings;
* `Act` — what a single step of the interpreter touches;
* `hoistFunctions`, `hoistClasses` — the declarations of a statement list;
* `findMethod`, `initFieldsRecursive` — the two walks up a class and its ancestors.
-/
import Jaguar.Exec
import Jaguar.Heap

namespace Jaguar

structure Interp where
  globals : Env
  hadRuntimeError : Bool
  errorMessage : Option Text
  openFile : Option ℕ
  openDirPath : Option Text

/-- The answer to a request of the HTTP client. -/
structure HttpReply where
  status : ℤ
  headers : List (Text × Text)
  body : Text

/-- The surroundings. A reading call returns what the world shows; `startsNow` and `pickJob`
say whether a thread that waits for the interpreter gets it, and which one. -/
class Host (ω : Type) where
  print : Text → ω → ω
  printErr : Text → ω → ω
  readLine : ω → Text × ω
  getenv : Text → ω → Option Text
  fopen : Text → ω → Option ℕ × ω
  fread : ℕ → ω → Text
  fclose : ℕ → ω → ω
  readdir : Text → ω → Option (List Text)
  rmdir : Text → ω → ω
  httpRequest : Text → Text → Option Text → ω → Except Text HttpReply × ω
  addTimer : ℤ → ℤ → Value → ω → ℤ × ω
  clearTimer : ℤ → ω → ω
  serverOn : ℤ → ω → ω
  serverRoute : Text → Text → Value → ω → ω
  serverListen : ω → ω
  socketOn : ℤ → ω → ω
  socketRoute : Text → Value → ω → ω
  socketListen : ω → ω
  wsWriteFrame : ℤ → ℕ → Text → ω → ω
  runFile : Text → ω → ω
  threadId : ω → ℤ × ω
  startsNow : ω → Bool × ω
  pickJob : ℕ → ω → ℕ × ω
  pow : Float → Float → Float

structure Machine (ω : Type) where
  heap : Heap
  it : Interp
  world : ω

/-- What a step touches. -/
inductive Act
  | newFrame
  | define (f : ℕ) (name : Text)
  | setVar (f : ℕ) (i : ℕ)
  | alloc
  | hoist (env : Env)
  | setList (l : ℕ)
  | setItem (p : ℕ)
  | setData (d : ℕ) (key : Text)
  | setNative (p : ℕ)
  | advance (p : ℕ)
  | raise
  | enterTry
  | leaveTry
  | catchError
  | slot
  | world

abbrev Prog (ω α : Type) := Exec (Machine ω) Act α

namespace Heap

/-! ### Hoisting -/

/-- `env_define`. -/
def envDefine (h : Heap) (env : Env) (name : Text) (v : Value) (isFixed : Bool) : Heap :=
  match env with
  | [] => h
  | f :: _ => h.define f ⟨name, v, isFixed⟩

/-- `hoist_functions`, for one statement. -/
def hoistFunction (env : Env) (h : Heap) (s : Stmt) : Heap :=
  match s with
  | .funDecl _ name params _ body isAsync =>
    let fv : FuncValue := ⟨params, body, env, isAsync, name⟩
    ({ h with funcs := h.funcs ++ [fv] } : Heap).envDefine env name (.func h.funcs.length) true
  | _ => h

def hoistFunctions (list : List Stmt) (env : Env) (h : Heap) : Heap :=
  list.foldl (hoistFunction env) h

/-- The first pass of `hoist_classes`, for one statement. -/
def hoistClass (env : Env) (h : Heap) (s : Stmt) : Heap :=
  match s with
  | .classDecl _ name members _ parentName =>
    let ci : ClassInfo := ⟨name, parentName, none, members, env⟩
    ({ h with classes := h.classes ++ [ci] } : Heap).envDefine env name (.cls h.classes.length) true
  | _ => h

/-- `ci->parent = p`. -/
def setParent (h : Heap) (c p : ℕ) : Heap :=
  { h with classes := h.classes.modify c fun ci => { ci with parent := some p } }

/-- The second pass of `hoist_classes`, for one statement. -/
def linkClass (env : Env) (h : Heap) (s : Stmt) : Heap :=
  match s with
  | .classDecl _ name _ _ (some parentName) =>
    match h.envGet env name, h.envGet env parentName with
    | some (.cls c), some (.cls p) => h.setParent c p
    | _, _ => h
  | _ => h

def hoistClasses (list : List Stmt) (env : Env) (h : Heap) : Heap :=
  list.foldl (linkClass env) (list.foldl (hoistClass env) h)

/-! ### Walking up a class -/

/-- The parent link of a class. -/
def classLink (h : Heap) (c : ℕ) : Option ℕ := (h.classes[c]?).bind (·.parent)

/-- Whether a member is the method of this name. -/
def isMethod (name : Text) : Stmt → Bool
  | .funDecl _ n _ _ _ _ => n = name
  | _ => false

/-- `find_method`, for a chain of at most `n` classes: the class where the method stands,
and its declaration. -/
def findMethod (h : Heap) (name : Text) : ℕ → Option ℕ → Option (Option (ℕ × Stmt))
  | _, none => some none
  | 0, some _ => none
  | n + 1, some c =>
    match h.classes[c]? with
    | none => some none
    | some ci =>
      match ci.members.find? (isMethod name) with
      | some s => some (some (c, s))
      | none => h.findMethod name n ci.parent

end Heap

/-! ### Steps -/

section Steps

variable {ω : Type}

/-- A step on the memory. -/
def onHeap (a : Act) (f : Heap → Heap) : Prog ω Unit := Exec.act a fun s => { s with heap := f s.heap }

/-- `env_new`. -/
def envNew (parent : Env) : Prog ω Env := do
  let f ← Exec.read fun s => s.heap.frames.length
  onHeap .newFrame Heap.newFrame
  pure (f :: parent)

/-- `value_data_set`. -/
def valueDataSet (d : ℕ) (key : Text) (v : Value) : Prog ω Unit :=
  onHeap (.setData d key) fun h => h.dataSet d key v

/-- An initialiser, or `value_void()`. -/
def evalInit (evalExpr : Expr → Env → Prog ω Value) (init : Option Expr) (env : Env) :
    Prog ω Value :=
  match init with
  | some e => evalExpr e env
  | none => pure .void

/-- The field initialisers of one class. -/
def initFields (evalExpr : Expr → Env → Prog ω Value) (members : List Stmt) (env : Env)
    (fields : ℕ) : Prog ω Unit :=
  match members with
  | [] => pure ()
  | .varDecl _ name _ init _ :: members => do
    let v ← evalInit evalExpr init env
    valueDataSet fields name v
    initFields evalExpr members env fields
  | _ :: members => initFields evalExpr members env fields

/-- `init_fields_recursive`, for a chain of at most `n` classes. -/
def initFieldsRecursive (evalExpr : Expr → Env → Prog ω Value) : ℕ → ℕ → ℕ →
    Prog ω Unit
  | 0, _, _ => Exec.giveUp
  | n + 1, c, fields => do
    let ci ← Exec.readSome fun s => s.heap.classes[c]?
    (match ci.parent with
      | some p => initFieldsRecursive evalExpr n p fields
      | none => pure () : Prog ω Unit)
    let env ← envNew ci.closure
    initFields evalExpr ci.members env fields

end Steps

end Jaguar
