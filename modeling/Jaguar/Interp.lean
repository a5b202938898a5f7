/-
The interpreter (`interp.c`).

The functions below are those of the source, with what they call recursively as a
parameter: `Evaluator` stands for `eval_expr` and `exec_stmt` one level further down.
`evaluator n` ties the knot for programs whose calls nest at most `n` deep and whose loops
turn at most `n` times; a run that needs more gives up.

A thread that `worker.spawn` or a pool starts runs its job in one piece: at once, or when
it is waited for (`Host.startsNow`). A thread that waits for a job while nobody else gets
the interpreter waits forever, and so does not return.

* `builtinDispatch`, `callListMethod`, `callNative` — what is built in;
* `evalExpr`, `execStmt` — expressions and statements;
* `execBlock`, `invokeMethod`, `constructInstance` — the scopes they run in;
* `interpRun`, `interpInvoke`, `interpInvokeClosure` — the entry points.
-/
import Jaguar.Natives

namespace Jaguar

/-- What a statement ends with. No statement ends with `SIG_THROW`. -/
inductive ExecResult
  | none
  | ret (v : Value)

/-- What a call returns. -/
def ExecResult.value (r : ExecResult) : Value :=
  match r with
  | .none => .void
  | .ret v => v

structure Evaluator (ω : Type) where
  evalExpr : Expr → Env → Prog ω Value
  execStmt : Stmt → Env → Prog ω ExecResult

/-- `body->as.block`. -/
def Stmt.stmts (s : Stmt) : List Stmt :=
  match s with
  | .block _ stmts => stmts
  | _ => []

/-- The parameters of a function declaration. -/
def Stmt.params (s : Stmt) : List Param :=
  match s with
  | .funDecl _ _ params _ _ _ => params
  | _ => []

/-- The body of a function declaration. -/
def Stmt.body (s : Stmt) : List Stmt :=
  match s with
  | .funDecl _ _ _ _ body _ => body.stmts
  | _ => []

section Interp

variable {ω : Type} (R : Evaluator ω) (n : ℕ)

/-! ### Blocks -/

/-- The statements of a block or of a program, one after the other. -/
def execStmts (list : List Stmt) (env : Env) : Prog ω ExecResult :=
  match list with
  | [] => pure .none
  | s :: rest => do
    let r ← R.execStmt s env
    match r with
    | .ret v => pure (.ret v)
    | .none => unlessError .none (execStmts rest env)

/-- `hoist_classes` and `hoist_functions`. -/
def hoist (list : List Stmt) (env : Env) : Prog ω Unit :=
  onHeap (.hoist env) fun h => h.hoistClasses list env |>.hoistFunctions list env

/-- `exec_block`. -/
def execBlock (list : List Stmt) (parentEnv : Env) : Prog ω ExecResult := do
  let env ← envNew parentEnv
  hoist list env
  execStmts R list env

/-! ### Calls -/

/-- The arguments of a call, evaluated. -/
def evalArgs (args : List Expr) (env : Env) : Prog ω (List Value) :=
  match args with
  | [] => pure []
  | a :: args => do
    let v ← R.evalExpr a env
    let vs ← evalArgs args env
    pure (v :: vs)

/-- The first argument, if there is one. -/
def argOr (dflt : Prog ω Value) (args : List Expr) (env : Env) : Prog ω Value :=
  match args with
  | [] => dflt
  | a :: _ => R.evalExpr a env

/-- The parameters of a call, each bound as soon as its argument is evaluated. -/
def bindArgs (params : List Param) (args : List Expr) (env callEnv : Env) : Prog ω Unit :=
  match params with
  | [] => pure ()
  | p :: params => do
    let v ← argOr R (pure .void) args env
    envDefine callEnv p.name v false
    bindArgs params args.tail env callEnv

/-- `call_value`. -/
def callValue (callee : Value) (args : List Expr) (env : Env) (line : ℕ) : Prog ω Value :=
  match callee with
  | .func f => do
    let fv ← funcOf f
    let callEnv ← envNew fv.closure
    bindArgs R fv.params args env callEnv
    let r ← execBlock R fv.body.stmts callEnv
    pure r.value
  | _ => fail line (txt "attempted to call a non-function value")

/-- `interp_invoke` and `interp_invoke_closure`, which differ in the environment the call is
rooted at. -/
def invokeRooted (root : FuncValue → Prog ω Env) (callee : Value) (argv : List Value) :
    Prog ω Value :=
  match callee with
  | .func f => do
    let fv ← funcOf f
    let parent ← root fv
    let callEnv ← envNew parent
    bindParams fv.params argv callEnv
    let r ← execBlock R fv.body.stmts callEnv
    pure r.value
  | _ => fail 0 (txt "attempted to call a non-function value")

/-- `it->globals`. -/
def globals : Prog ω Env := Exec.read fun s => s.it.globals

/-- `interp_invoke`. -/
def interpInvoke (callee : Value) (argv : List Value) : Prog ω Value :=
  invokeRooted R (fun _ => globals) callee argv

/-- `interp_invoke_closure`. -/
def interpInvokeClosure (callee : Value) (argv : List Value) : Prog ω Value :=
  invokeRooted R (fun fv => pure fv.closure) callee argv

/-! ### Classes -/

/-- `find_method`. -/
def findMethod (c : ℕ) (name : Text) : Prog ω (Option (ℕ × Stmt)) :=
  Exec.readSome fun s => s.heap.findMethod name n (some c)

/-- `super`, where there is a parent class. -/
def bindSuper (parent : Option ℕ) (this : Value) (callEnv : Env) : Prog ω Unit :=
  match parent with
  | some p => do
    let sr ← newNative (.superRef p this)
    envDefine callEnv (txt "super") (.native sr) true
  | none => pure ()

/-- `invoke_method`. -/
def invokeMethod (definingClass : ℕ) (method : Stmt) (this : Value) (argv : List Value) :
    Prog ω Value := do
  let ci ← classOf definingClass
  let callEnv ← envNew ci.closure
  envDefine callEnv (txt "this") this true
  bindSuper ci.parent this callEnv
  bindParams method.params argv callEnv
  let r ← execBlock R method.body callEnv
  pure r.value

/-- `construct_instance`. -/
def constructInstance (c : ℕ) (args : List Expr) (env : Env) : Prog ω Value := do
  let fields ← newData []
  initFieldsRecursive R.evalExpr n c fields
  let i ← newInstance ⟨c, fields⟩
  let ctor ← findMethod n c (txt "constructor")
  match ctor with
  | some (ctorClass, ctorStmt) => do
    let argv ← evalArgs R args env
    let _ ← invokeMethod R ctorClass ctorStmt (.inst i) argv
    pure (.inst i)
  | none => pure (.inst i)

/-! ### Lists -/

/-- The loop of `.concat(other)`, at the node `cur`; it appends while it walks. -/
def concatFrom (l : ℕ) : ℕ → Option ℕ → Prog ω Unit
  | _, none => pure ()
  | 0, some _ => Exec.giveUp
  | k + 1, some p => do
    let node ← nodeOf p
    valueListAppend l node.item
    let node ← nodeOf p
    concatFrom l k node.next

/-- The methods of a list. -/
def listMethods (l : ℕ) (args : List Expr) (env : Env) : List (Text × Prog ω Unit) := [
  (txt "append", match args with
    | [] => pure ()
    | a :: _ => do
      let v ← R.evalExpr a env
      valueListAppend l v),
  (txt "insert", match args with
    | [] => pure ()
    | a :: _ => do
      let v ← R.evalExpr a env
      valueListInsertFront l v),
  (txt "delete", match args with
    | [] => pure ()
    | a :: _ => do
      let idx ← R.evalExpr a env
      listDeleteAt l (longOfDouble (Heap.asNumber idx))),
  (txt "sort", do
    let items ← listItems l
    setItems l (sortItems items.length items)),
  (txt "concat", match args with
    | [] => pure ()
    | a :: _ => do
      let other ← R.evalExpr a env
      match other with
      | .list m => do
        let head ← Exec.read fun s => s.heap.listHead m
        concatFrom l n head
      | _ => pure ())]

/-- `call_list_method`. -/
def callListMethod (l : ℕ) (name : Text) (args : List Expr) (env : Env) (line : ℕ) :
    Prog ω Value :=
  match (listMethods R n l args env).lookup name with
  | some m => do
    m
    pure .void
  | none => fail line (txt "unknown list method '." ++ name ++ txt "'")

/-! ### Workers -/

variable [Host ω]

/-- The thread that is waited for gets the interpreter, or the wait never ends. -/
def yieldLock : Prog ω Unit := do
  let goesOn ← fromWorld Host.startsNow
  if goesOn then pure () else Exec.giveUp

/-- `thread_main_func`. -/
def runWorker (p : ℕ) (w : Worker) : Prog ω Value := do
  let result ← interpInvoke R (w.func.getD .void) []
  let threadId ← fromWorld Host.threadId
  setNative p (.worker { w with result := some result, threadId := threadId })
  pure result

/-- `worker_spawn_func`. -/
def workerSpawnFunc (fn : Option Value) : Prog ω Value := do
  let w : Worker := ⟨fn, none, 0⟩
  let p ← newNative (.worker w)
  let now ← fromWorld Host.startsNow
  if now then do
    let _ ← runWorker R p w
    pure (.native p)
  else pure (.native p)

/-- A data value that a job returned tells the thread it ran on. -/
def tagThread (result : Value) (threadId : ℤ) : Prog ω Unit :=
  match result with
  | .data d => valueDataSet d (txt "threadId") (.num threadId)
  | _ => pure ()

/-- The result of a job that is done, or of one that now is waited for. -/
def workerResult (p : ℕ) (w : Worker) : Prog ω Value :=
  match w.result with
  | some result => pure result
  | none => do
    yieldLock
    runWorker R p w

/-- `worker_handle_join`. -/
def workerHandleJoin (p : ℕ) (w : Worker) : Prog ω Value := do
  let result ← workerResult R p w
  let threadId ← Exec.readSome fun s => match s.heap.natives[p]? with
    | some (.worker w) => some w.threadId
    | _ => none
  tagThread result threadId
  pure result

/-- `worker.run(path, cb)`: the file runs on an interpreter of its own. -/
def workerRunFile (path : Text) : Prog ω Value := do
  yieldLock
  onWorld (Host.runFile path)
  let threadId ← fromWorld Host.threadId
  let d ← newData [(txt "threadId", .num threadId)]
  pure (.data d)

/-- The pool at `p`. -/
def poolOf (p : ℕ) : Prog ω Pool :=
  Exec.readSome fun s => match s.heap.natives[p]? with
    | some (.workerPool pool) => some pool
    | _ => none

/-- The turn of `pool_thread_main` for a job: the threads have taken the first jobs of the
queue, and one of them gets the interpreter. -/
def runJob (p : ℕ) : Prog ω Unit := do
  let pool ← poolOf p
  let i ← fromWorld (Host.pickJob (min pool.threads pool.queue.length))
  let job ← Exec.readSome fun _ => (pool.queue.take pool.threads)[i]?
  setNative p (.workerPool { pool with queue := pool.queue.eraseIdx i, running := pool.running + 1 })
  let result ← interpInvoke R job []
  let threadId ← fromWorld Host.threadId
  tagThread result threadId
  let pool ← poolOf p
  setNative p (.workerPool
    { pool with running := pool.running - 1, results := pool.results ++ [result] })

/-- `worker_pool_submit`. -/
def workerPoolSubmit (p : ℕ) (fn : Value) : Prog ω Unit := do
  let pool ← poolOf p
  setNative p (.workerPool { pool with queue := pool.queue ++ [fn] })
  let now ← fromWorld Host.startsNow
  if now then runJob R p else pure ()

/-- The wait of `worker_pool_wait_all`, for at most `k` jobs. -/
def runJobs (p : ℕ) : ℕ → Prog ω Unit
  | 0 => Exec.giveUp
  | k + 1 => do
    let pool ← poolOf p
    if pool.queue = [] ∧ pool.running = 0 then pure ()
    else do
      yieldLock
      runJob R p
      runJobs p k

/-- `worker_pool_wait_all`. -/
def workerPoolWaitAll (p : ℕ) : Prog ω Value := do
  runJobs R p n
  let pool ← poolOf p
  let l ← newList pool.results
  setNative p (.workerPool { pool with results := [] })
  pure (.list l)

/-! ### Built-in namespaces -/

/-- `live.deg`, for the values after the type name. -/
def liveDeg (expect : Text) (idx : ℕ) (args : List Expr) (env : Env) : Prog ω Unit :=
  match args with
  | [] => pure ()
  | a :: args => do
    let v ← R.evalExpr a env
    let met : Option Bool := [(txt "string", isString v), (txt "num", isNum v),
      (txt "decimal", match v with | .decimal _ => true | _ => false),
      (txt "bool", match v with | .bool _ => true | _ => false)].lookup expect
    onWorld (Host.print (match met with
      | none => txt "live.deg: not defined (unknown type '" ++ expect ++ txt "')\n"
      | some false => txt "live.deg: type mismatch on argument " ++ natText (idx + 1) ++
          txt " (expected " ++ expect ++ txt ")\n"
      | some true => txt "live.deg: expectation met for argument " ++ natText (idx + 1) ++
          txt "\n"))
    liveDeg expect (idx + 1) args env

/-- `live.after` and `live.every`. -/
def liveTimer (method : Text) (args : List Expr) (env : Env) (line : ℕ) : Prog ω Value :=
  match args with
  | a :: b :: _ => do
    let delayV ← R.evalExpr a env
    let fn ← R.evalExpr b env
    let delay := longOfDouble (Heap.asNumber delayV)
    let interval := if method = txt "every" then delay else 0
    let id ← fromWorld (Host.addTimer delay interval fn)
    pure (.num id)
  | _ => fail line (txt "live." ++ method ++ txt " expects (delay_ms, callback)")

/-- A call that returns `void`. -/
def thenVoid (m : Prog ω Unit) : Prog ω Value := do
  m
  pure .void

def liveBuiltins (args : List Expr) (env : Env) (line : ℕ) : List (Text × Prog ω Value) := [
  (txt "on", do
    let v ← argOr R (pure .void) args env
    unlessError .void do
      let s ← displayOf n v
      onWorld (Host.print (s ++ [10]))
      pure .void),
  (txt "in", do
    (match args with
      | [] => pure ()
      | a :: _ => do
        let prompt ← R.evalExpr a env
        let s ← displayOf n prompt
        onWorld (Host.print s) : Prog ω Unit)
    let buf ← fromWorld Host.readLine
    pure (.string (if buf.getLast? = some 10 then buf.dropLast else buf))),
  (txt "deg", match args with
    | [] => fail line (txt "live.deg expects at least a type name")
    | a :: args => do
      let tname ← R.evalExpr a env
      thenVoid (liveDeg R (safeStr tname) 0 args env)),
  (txt "after", liveTimer R (txt "after") args env line),
  (txt "every", liveTimer R (txt "every") args env line),
  (txt "clear", match args with
    | [] => pure .void
    | a :: _ => do
      let v ← R.evalExpr a env
      thenVoid (onWorld (Host.clearTimer (intOfDouble (Heap.asNumber v)))))]

def jsonBuiltins (args : List Expr) (env : Env) (line : ℕ) : List (Text × Prog ω Value) := [
  (txt "parse", do
    let v ← argOr R (pure (.string [])) args env
    match v with
    | .string s => jsonParseText s
    | _ => fail line (txt "json.parse expects a string")),
  (txt "stringify", do
    let v ← argOr R (pure .void) args env
    let s ← stringify n v
    pure (.string s))]

def envBuiltins (args : List Expr) (env : Env) : List (Text × Prog ω Value) := [
  (txt "get", match args with
    | [] => pure .void
    | a :: rest => do
      let key ← R.evalExpr a env
      let val ← Exec.read fun s => Host.getenv (safeStr key) s.world
      match val with
      | some val => pure (.string val)
      | none => argOr R (pure .void) rest env)]

/-- `if (it->open_file) fclose(it->open_file);` -/
def closeFile : Prog ω Unit := do
  let file ← Exec.read fun s => s.it.openFile
  match file with
  | some f => onWorld (Host.fclose f)
  | none => pure ()

def fileBuiltins (args : List Expr) (env : Env) (line : ℕ) : List (Text × Prog ω Value) := [
  (txt "on", do
    closeFile
    let path ← argOr R (pure (.string [])) args env
    let file ← fromWorld (Host.fopen (safeStr path))
    setOpenFile file
    match file with
    | none => fail line (txt "cannot open file '" ++ safeStr path ++ txt "'")
    | some _ => pure .void),
  (txt "read", do
    let file ← Exec.read fun s => s.it.openFile
    match file with
    | none => do
      rtError line (txt "file.read() with no file open (call file.on() first)")
      pure (.string [])
    | some f => do
      let text ← Exec.read fun s => Host.fread f s.world
      pure (.string (cStr text))),
  (txt "loop", pure .void),
  (txt "close", do
    closeFile
    setOpenFile none
    pure .void)]

/-- `dir.read` and `dir.loop`. -/
def dirRead : Prog ω Value := do
  let path ← Exec.read fun s => s.it.openDirPath
  let names ← Exec.read fun s => (path.bind fun path => Host.readdir path s.world).getD []
  let names := names.filter fun name => name ≠ txt "." ∧ name ≠ txt ".."
  let l ← newList (names.map .string)
  pure (.list l)

def dirBuiltins (args : List Expr) (env : Env) : List (Text × Prog ω Value) := [
  (txt "on", do
    let path ← argOr R (pure (.string (txt "."))) args env
    setOpenDirPath (some (safeStr path))
    pure .void),
  (txt "read", dirRead),
  (txt "loop", dirRead),
  (txt "close", pure .void),
  (txt "del", do
    let path ← Exec.read fun s => s.it.openDirPath
    match path with
    | some path => thenVoid (onWorld (Host.rmdir path))
    | none => pure .void)]

/-- A value of type `list` without items. -/
def emptyList : Prog ω Value := do
  let l ← newList []
  pure (.list l)

def taskBuiltins (args : List Expr) (env : Env) : List (Text × Prog ω Value) := [
  (txt "all", do
    let v ← argOr R emptyList args env
    taskDone v)]

def httpBuiltins (args : List Expr) (env : Env) : List (Text × Prog ω Value) := [
  (txt "get", do
    let url ← argOr R (pure (.string [])) args env
    doRequest (txt "GET") (safeStr url) none),
  (txt "post", do
    let url ← argOr R (pure (.string [])) args env
    match args.tail with
    | [] => doRequest (txt "POST") (safeStr url) none
    | b :: _ => do
      let body ← R.evalExpr b env
      let text ← stringify n body
      doRequest (txt "POST") (safeStr url) (some text))]

def serverBuiltins (args : List Expr) (env : Env) : List (Text × Prog ω Value) := [
  (txt "on", do
    let port ← argOr R (pure (.num 8080)) args env
    thenVoid (onWorld (Host.serverOn (intOfDouble (Heap.asNumber port))))),
  (txt "route", match args with
    | a :: b :: c :: _ => do
      let m ← R.evalExpr a env
      let pattern ← R.evalExpr b env
      let handler ← R.evalExpr c env
      thenVoid (onWorld (Host.serverRoute (safeStr m) (safeStr pattern) handler))
    | _ => pure .void),
  (txt "listen", thenVoid (onWorld Host.serverListen))]

def socketBuiltins (args : List Expr) (env : Env) (line : ℕ) : List (Text × Prog ω Value) := [
  (txt "on", do
    let port ← argOr R (pure (.num 9090)) args env
    thenVoid (onWorld (Host.socketOn (intOfDouble (Heap.asNumber port))))),
  (txt "route", match args with
    | a :: b :: _ => do
      let path ← R.evalExpr a env
      let handler ← R.evalExpr b env
      thenVoid (onWorld (Host.socketRoute (safeStr path) handler))
    | _ => pure .void),
  (txt "listen", thenVoid (onWorld Host.socketListen)),
  (txt "connect", fail line (txt ("socket.connect(): the WebSocket *client* is not implemented " ++
    "in this build (the server side - socket.on/route/listen - is real; " ++
    "see DESIGN_DECISIONS.md)")))]

def workerBuiltins (args : List Expr) (env : Env) : List (Text × Prog ω Value) := [
  (txt "spawn", match args with
    | [] => workerSpawnFunc R none
    | a :: _ => do
      let fn ← R.evalExpr a env
      workerSpawnFunc R (some fn)),
  (txt "run", match args with
    | a :: b :: _ => do
      let path ← R.evalExpr a env
      let cb ← R.evalExpr b env
      let result ← workerRunFile (safeStr path)
      let _ ← interpInvokeClosure R cb [result]
      pure .void
    | _ => pure .void),
  (txt "pool", do
    let threads ← argOr R (pure (.num 4)) args env
    let threads := max 1 (intOfDouble (Heap.asNumber threads))
    let p ← newNative (.workerPool ⟨threads.toNat, [], 0, []⟩)
    pure (.native p))]

/-- `builtin_ns`. -/
def builtinNs : List Text :=
  ["live", "json", "env", "file", "dir", "Task", "server", "socket", "worker", "http"].map txt

/-- The calls of a namespace. -/
def builtins (ns : Text) (args : List Expr) (env : Env) (line : ℕ) :
    List (Text × Prog ω Value) :=
  if ns = txt "live" then liveBuiltins R n args env line
  else if ns = txt "json" then jsonBuiltins R n args env line
  else if ns = txt "env" then envBuiltins R args env
  else if ns = txt "file" then fileBuiltins R args env line
  else if ns = txt "dir" then dirBuiltins R args env
  else if ns = txt "Task" then taskBuiltins R args env
  else if ns = txt "http" then httpBuiltins R n args env
  else if ns = txt "server" then serverBuiltins R args env
  else if ns = txt "socket" then socketBuiltins R args env line
  else if ns = txt "worker" then workerBuiltins R args env
  else []

/-- `builtin_dispatch`: what is called, if the call is handled. -/
def builtinDispatch (ns method : Text) (args : List Expr) (env : Env) (line : ℕ) :
    Option (Prog ω Value) :=
  (builtins R n ns args env line).lookup method

/-! ### Methods of native values -/

/-- A callback that is called where the first argument is one. -/
def thenInvoke (argv : List Value) (v : Value) : Prog ω Unit :=
  match argv with
  | [] => pure ()
  | f :: _ => do
    let _ ← interpInvokeClosure R f [v]
    pure ()

/-- The methods of a task, which stands at `p`. -/
def callTask (p : ℕ) (result : Except Text Value) (name : Text) (argv : List Value) (line : ℕ) :
    Prog ω Value :=
  if name = txt "then" then do
    (match result with
      | .ok v => thenInvoke R argv v
      | .error _ => pure () : Prog ω Unit)
    pure (.native p)
  else if name = txt "catch" then do
    (match result with
      | .ok _ => pure ()
      | .error e => thenInvoke R argv (.string e) : Prog ω Unit)
    pure (.native p)
  else if name = txt "await" then
    match result with
    | .ok v => pure v
    | .error e => fail line e
  else fail line (txt "unknown Task method '." ++ name ++ txt "'")

/-- `w.on("done", f)`: the callback, if these are the arguments. -/
def doneCallback (name : Text) (argv : List Value) : Option Value :=
  match argv with
  | .string event :: f :: _ => if name = txt "on" ∧ event = txt "done" then some f else none
  | _ => none

def callWorker (p : ℕ) (w : Worker) (name : Text) (argv : List Value) (line : ℕ) : Prog ω Value :=
  match doneCallback name argv with
  | some f => do
    let result ← workerHandleJoin R p w
    let _ ← interpInvokeClosure R f [result]
    pure .void
  | none =>
    if name = txt "terminate" then do
      let _ ← workerHandleJoin R p w
      pure .void
    else fail line (txt "unknown Worker method '." ++ name ++ txt "'")

def callWorkerPool (p : ℕ) (name : Text) (argv : List Value) (line : ℕ) : Prog ω Value :=
  match argv with
  | v :: _ =>
    if name = txt "submit" then thenVoid (workerPoolSubmit R p v)
    else if name = txt "onAll" then do
      let results ← workerPoolWaitAll R n p
      let _ ← interpInvokeClosure R v [results]
      pure .void
    else fail line (txt "unknown Worker pool method '." ++ name ++ txt "'")
  | [] => fail line (txt "unknown Worker pool method '." ++ name ++ txt "'")

/-- A method's result, or the error for a method that is not known. -/
def orFail (m : Prog ω (Option Value)) (line : ℕ) (msg : Text) : Prog ω Value := do
  let r ← m
  match r with
  | some v => pure v
  | none => fail line msg

/-- `super.name(...)`. -/
def callSuper (parentClass : ℕ) (this : Value) (name : Text) (argv : List Value) (line : ℕ) :
    Prog ω Value := do
  let method ← findMethod n parentClass name
  match method with
  | some (defining, stmt) => invokeMethod R defining stmt this argv
  | none => fail line (txt "no parent method '" ++ name ++ txt "' to call via super")

/-- A method call on a native value. -/
def callNative (p : ℕ) (name : Text) (args : List Expr) (env : Env) (line : ℕ) :
    Prog ω Value := do
  let argv ← evalArgs R args env
  let native ← nativeOf p
  match native with
  | .task result => callTask R p result name argv line
  | .worker w => callWorker R p w name argv line
  | .workerPool _ => callWorkerPool R n p name argv line
  | .socketConn fd onMessage onClose closed =>
    orFail (wsConnCallMethod n p fd onMessage onClose closed name argv) line
      (txt "unknown Socket method '." ++ name ++ txt "'")
  | .superRef parentClass this => callSuper R n parentClass this name argv line

/-! ### Assignment -/

/-- `set_lvalue`. -/
def setLvalue (target : Expr) (v : Value) (env : Env) (line : ℕ) : Prog ω Unit :=
  match target with
  | .ident _ name => do
    let bound ← envGet env name
    if name ∈ builtinNs ∧ bound.isNone then pure ()
    else do
      let isFixed ← envIsFixed env name
      if isFixed then rtError line (txt "cannot reassign fixed variable '" ++ name ++ txt "'")
      else do
        let done ← envSet env name v
        if done then pure () else envDefine env name v false
  | .index _ object index => do
    let obj ← R.evalExpr object env
    let idx ← R.evalExpr index env
    match obj with
    | .list l => do
      let node ← listNodeAt l (longOfDouble (Heap.asNumber idx))
      match node with
      | some p => onHeap (.setItem p) fun h => h.setItem p v
      | none => rtError line (txt "list index out of range")
    | .data d => valueDataSet d (safeStr idx) v
    | _ => rtError line (txt "value is not assignable by index")
  | .member _ object name => do
    let obj ← R.evalExpr object env
    match obj with
    | .data d => valueDataSet d name v
    | .inst i => do
      let inst ← instanceOf i
      valueDataSet inst.fields name v
    | _ => rtError line (txt "cannot assign member '" ++ name ++ txt "' on this value")
  | _ => rtError line (txt "invalid assignment target")

/-- The operator of an augmented assignment. -/
def binaryOf (op : TokenType) : TokenType :=
  match op with
  | .plusEq => .plus
  | .minusEq => .minus
  | .starEq => .star
  | .slashEq => .slash
  | .percentEq => .percent
  | _ => .pow

/-- `E_ASSIGN`. -/
def evalAssign (target value : Expr) (op : TokenType) (env : Env) (line : ℕ) : Prog ω Value :=
  if op = .assign then do
    let newval ← R.evalExpr value env
    setLvalue R target newval env line
    pure newval
  else do
    let cur ← R.evalExpr target env
    let rhs ← R.evalExpr value env
    let newval ← evalBinary n (binaryOf op) cur rhs line
    setLvalue R target newval env line
    pure newval

/-! ### Expressions -/

/-- `eval_string_interp`. -/
def evalStringInterp (parts : List StrPart) (out : Text) (env : Env) : Prog ω Value :=
  match parts with
  | [] => pure (.string out)
  | .literal s :: parts => evalStringInterp parts (out ++ s) env
  | .expr e :: parts => do
    let v ← R.evalExpr e env
    unlessError (.string []) do
      let piece ← displayOf n v
      evalStringInterp parts (out ++ piece) env

/-- `E_IDENT`. -/
def evalIdent (name : Text) (env : Env) (line : ℕ) : Prog ω Value := do
  let v ← envGet env name
  match v with
  | some v => pure v
  | none => fail line (txt "undefined variable '" ++ name ++ txt "'")

/-- `E_UNARY`. -/
def evalUnary (op : TokenType) (v : Value) : Prog ω Value :=
  match op with
  | .not => do
    let t ← truthy v
    pure (.bool (!t))
  | .minus =>
    match v with
    | .num k => pure (.num (wrap64 (-k)))
    | v => pure (.decimal (-Heap.asNumber v))
  | _ => pure .void

/-- The items of a list literal. -/
def appendItems (l : ℕ) (items : List Expr) (env : Env) : Prog ω Unit :=
  match items with
  | [] => pure ()
  | e :: items => do
    let v ← R.evalExpr e env
    valueListAppend l v
    appendItems l items env

/-- The entries of a data literal. -/
def setEntries (d : ℕ) (entries : List (Text × Expr)) (env : Env) : Prog ω Unit :=
  match entries with
  | [] => pure ()
  | (key, e) :: entries => do
    let v ← R.evalExpr e env
    valueDataSet d key v
    setEntries d entries env

/-- `E_AWAIT`, of a value. -/
def evalAwait (v : Value) (line : ℕ) : Prog ω Value :=
  match v with
  | .native p => do
    let native ← nativeOf p
    match native with
    | .task (.ok result) => pure result
    | .task (.error e) => fail line e
    | _ => pure v
  | _ => pure v

/-- `E_MEMBER`, of a value. -/
def evalMember (obj : Value) (name : Text) (line : ℕ) : Prog ω Value :=
  match obj with
  | .data d => do
    let v ← valueDataGet d name
    pure (v.getD .void)
  | .inst i => do
    let inst ← instanceOf i
    let v ← valueDataGet inst.fields name
    match v with
    | some v => pure v
    | none => do
      let ci ← classOf inst.classInfo
      fail line (txt "'" ++ ci.name ++ txt "' has no field '" ++ name ++ txt "'")
  | _ => fail line (txt "cannot access member '" ++ name ++ txt "' on this value")

/-- `E_INDEX`, of two values. -/
def evalIndex (obj idx : Value) (line : ℕ) : Prog ω Value :=
  match obj with
  | .list l => do
    let node ← listNodeAt l (longOfDouble (Heap.asNumber idx))
    match node with
    | some p => do
      let node ← nodeOf p
      pure node.item
    | none => fail line (txt "list index out of range")
  | .data d => do
    let v ← valueDataGet d (safeStr idx)
    pure (v.getD .void)
  | .string s =>
    let i := longOfDouble (Heap.asNumber idx)
    if i < 0 ∨ (s.length : ℤ) ≤ i then fail line (txt "string index out of range")
    else pure (.string ((s.drop i.toNat).take 1))
  | _ => fail line (txt "value is not indexable")

/-- A method call on an instance. -/
def callInstance (i : ℕ) (name : Text) (args : List Expr) (env : Env) (line : ℕ) :
    Prog ω Value := do
  let inst ← instanceOf i
  let method ← findMethod n inst.classInfo name
  match method with
  | some (defining, stmt) => do
    let argv ← evalArgs R args env
    invokeMethod R defining stmt (.inst i) argv
  | none => do
    let ci ← classOf inst.classInfo
    fail line (txt "'" ++ ci.name ++ txt "' has no method '" ++ name ++ txt "'")

/-- A method call on a data value, which only a response object has. -/
def callResponse (d : ℕ) (name : Text) (args : List Expr) (env : Env) (line : ℕ) :
    Prog ω Value := do
  let isResponse ← isResponseObject d
  if isResponse then do
    let argv ← evalArgs R args env
    orFail (httpResponseCallMethod n d name argv) line
      (txt "unknown response method '." ++ name ++ txt "'")
  else fail line (txt "unknown method '." ++ name ++ txt "' for this value")

/-- A method call on a value. -/
def callMethod (obj : Value) (name : Text) (args : List Expr) (env : Env) (line : ℕ) :
    Prog ω Value :=
  match obj with
  | .list l => callListMethod R n l name args env line
  | .inst i => callInstance R n i name args env line
  | .data d => callResponse R n d name args env line
  | .native p => callNative R n p name args env line
  | _ => fail line (txt "unknown method '." ++ name ++ txt "' for this value")

/-- The built-in function that `object.name` is: `object` is the name of a namespace, and
no variable. -/
def builtinCallee (object : Expr) (name : Text) (args : List Expr) (env : Env) (line : ℕ) :
    Prog ω (Option (Prog ω Value)) :=
  match object with
  | .ident _ ns => do
    let bound ← envGet env ns
    if bound.isNone ∧ ns ∈ builtinNs then pure (builtinDispatch R n ns name args env line)
    else pure none
  | _ => pure none

/-- `super(...)`: the constructor of the parent class, if there is one. -/
def callSuperCtor (parentClass : ℕ) (this : Value) (args : List Expr) (env : Env) :
    Prog ω Value := do
  let ctor ← findMethod n parentClass (txt "constructor")
  match ctor with
  | some (ctorClass, ctorStmt) => do
    let argv ← evalArgs R args env
    invokeMethod R ctorClass ctorStmt this argv
  | none => pure .void

/-- A call of a value. -/
def callFn (fn : Value) (args : List Expr) (env : Env) (line : ℕ) : Prog ω Value :=
  match fn with
  | .native p => do
    let native ← nativeOf p
    match native with
    | .superRef parentClass this => callSuperCtor R n parentClass this args env
    | _ => callValue R fn args env line
  | fn => callValue R fn args env line

/-- `E_CALL`. -/
def evalCall (callee : Expr) (args : List Expr) (env : Env) (line : ℕ) : Prog ω Value :=
  match callee with
  | .member _ object name => do
    let builtin ← builtinCallee R n object name args env line
    match builtin with
    | some m => m
    | none => do
      let obj ← R.evalExpr object env
      unlessError .void (callMethod R n obj name args env line)
  | callee => do
    let fn ← R.evalExpr callee env
    unlessError .void (callFn R n fn args env line)

/-- `E_NEW`. -/
def evalNew (className : Text) (args : List Expr) (env : Env) (line : ℕ) : Prog ω Value := do
  let cls ← envGet env className
  match cls with
  | some (.cls c) => constructInstance R n c args env
  | _ => fail line (txt "'" ++ className ++ txt "' is not a known class")

/-- `eval_expr`. -/
def evalExpr (e : Expr) (env : Env) : Prog ω Value :=
  unlessError .void <| match e with
    | .num _ k => pure (.num k)
    | .decimal _ d => pure (.decimal d)
    | .scifi _ d => pure (.scifi d)
    | .bool _ b => pure (.bool b)
    | .str _ parts => evalStringInterp R n parts [] env
    | .ident line name => evalIdent name env line
    | .binary line left right op => do
      let l ← R.evalExpr left env
      let r ← R.evalExpr right env
      unlessError .void (evalBinary n op l r line)
    | .unary _ operand op => do
      let v ← R.evalExpr operand env
      evalUnary op v
    | .between _ value low high => do
      let v ← R.evalExpr value env
      let lo ← R.evalExpr low env
      let hi ← R.evalExpr high env
      let vd := Heap.asNumber v
      pure (.bool (vd ≥ Heap.asNumber lo ∧ vd ≤ Heap.asNumber hi))
    | .ternary _ cond thenE elseE => do
      let c ← R.evalExpr cond env
      let t ← truthy c
      if t then R.evalExpr thenE env else R.evalExpr elseE env
    | .list _ items => do
      let l ← newList []
      appendItems R l items env
      pure (.list l)
    | .data _ entries => do
      let d ← newData []
      setEntries R d entries env
      pure (.data d)
    | .funcLit _ params _ body isAsync => do
      let f ← newFunc ⟨params, body, env, isAsync, txt "<anonymous>"⟩
      pure (.func f)
    | .await line e => do
      let v ← R.evalExpr e env
      unlessError .void (evalAwait v line)
    | .member line object name => do
      let obj ← R.evalExpr object env
      unlessError .void (evalMember obj name line)
    | .index line object index => do
      let obj ← R.evalExpr object env
      let idx ← R.evalExpr index env
      evalIndex obj idx line
    | .assign line target value op => evalAssign R n target value op env line
    | .call line callee args => evalCall R n callee args env line
    | .new line className args => evalNew R n className args env line

/-! ### Statements -/

/-- The `elif` branches, and `else`. -/
def execElifs (elifs : List (Expr × Stmt)) (elseB : Option Stmt) (env : Env) :
    Prog ω ExecResult :=
  match elifs with
  | [] =>
    match elseB with
    | some s => R.execStmt s env
    | none => pure .none
  | (cond, body) :: elifs => do
    let c ← R.evalExpr cond env
    let t ← truthy c
    if t then R.execStmt body env else execElifs elifs elseB env

/-- What follows a turn of a loop: a `return` and an error end the loop. -/
def afterTurn (r : ExecResult) (next : Prog ω ExecResult) : Prog ω ExecResult :=
  match r with
  | .ret v => pure (.ret v)
  | .none => unlessError .none next

/-- `S_LOOP_WHILE`, for at most `k` turns. -/
def loopWhile (cond : Expr) (body : Stmt) (env : Env) : ℕ → Prog ω ExecResult
  | 0 => Exec.giveUp
  | k + 1 => do
    let c ← R.evalExpr cond env
    let t ← truthy c
    if t then
      unlessError .none do
        let r ← R.execStmt body env
        afterTurn r (loopWhile cond body env k)
    else pure .none

/-- `S_DO_WHILE`, for at most `k` turns. -/
def doWhile (cond : Expr) (body : Stmt) (env : Env) : ℕ → Prog ω ExecResult
  | 0 => Exec.giveUp
  | k + 1 => do
    let r ← R.execStmt body env
    afterTurn r do
      let c ← R.evalExpr cond env
      let t ← truthy c
      if t then unlessError .none (doWhile cond body env k) else pure .none

/-- Whether a turn of a for-in loop is made. -/
def turnIsMade (cond : Option Expr) (env : Env) : Prog ω Bool :=
  match cond with
  | some e => do
    let c ← R.evalExpr e env
    truthy c
  | none => pure true

/-- `S_FOR_IN` and `S_ITERATE` over the nodes from `cur` on, for at most `k` of them. -/
def overNodes (var : Text) (cond : Option Expr) (body : Stmt) (env : Env) :
    ℕ → Option ℕ → Prog ω ExecResult
  | _, none => pure .none
  | 0, some _ => Exec.giveUp
  | k + 1, some p => do
    let node ← nodeOf p
    let loopEnv ← envNew env
    envDefine loopEnv var node.item false
    let made ← turnIsMade R cond loopEnv
    if made then do
      let r ← R.execStmt body loopEnv
      afterTurn r do
        let next ← nextNode p
        overNodes var cond body env k next
    else do
      let next ← nextNode p
      overNodes var cond body env k next

/-- `S_ITERATE` over the values of a data value. -/
def overValues (var : Text) (body : Stmt) (env : Env) (vals : List Value) : Prog ω ExecResult :=
  match vals with
  | [] => pure .none
  | v :: vals => do
    let loopEnv ← envNew env
    envDefine loopEnv var v false
    let r ← R.execStmt body loopEnv
    afterTurn r (overValues var body env vals)

/-- `S_FOR_IN`, of a value. -/
def forIn (coll : Value) (var : Text) (cond : Option Expr) (body : Stmt) (env : Env) (line : ℕ) :
    Prog ω ExecResult :=
  match coll with
  | .list l => do
    let head ← Exec.read fun s => s.heap.listHead l
    overNodes R var cond body env n head
  | _ => do
    rtError line (txt "for-in requires a list")
    pure .none

/-- `S_ITERATE`, of a value; the entries of a data value are copied first. -/
def iterate (coll : Value) (var : Text) (body : Stmt) (env : Env) (line : ℕ) :
    Prog ω ExecResult :=
  match coll with
  | .list l => do
    let head ← Exec.read fun s => s.heap.listHead l
    overNodes R var none body env n head
  | .data d => do
    let vals ← Exec.read fun s => (s.heap.data d).reverse.map Prod.snd
    overValues R var body env vals
  | _ => do
    rtError line (txt "iterate() requires a list or data collection")
    pure .none

/-- The error state with nothing pending. -/
def Interp.clearError (it : Interp) : Interp :=
  { it with hadRuntimeError := false, errorMessage := none }

/-- `S_TRY_CATCH`. -/
def tryCatch (tryB : Stmt) (errName : Text) (catchB : Stmt) (env : Env) : Prog ω ExecResult := do
  let saved ← Exec.read fun s => s.it
  Exec.act .enterTry fun s => { s with it := s.it.clearError }
  let _ ← R.execStmt tryB env
  let failed ← errorPending
  if failed then do
    let catchEnv ← envNew env
    let msg ← Exec.read fun s => s.it.errorMessage.getD (txt "error")
    envDefine catchEnv errName (.string msg) false
    Exec.act .catchError fun s => { s with it := s.it.clearError }
    R.execStmt catchB catchEnv
  else do
    Exec.act .leaveTry fun s => { s with it :=
      { s.it with hadRuntimeError := saved.hadRuntimeError, errorMessage := saved.errorMessage } }
    pure .none

/-- `exec_stmt`. -/
def execStmt (s : Stmt) (env : Env) : Prog ω ExecResult :=
  unlessError .none <| match s with
    | .varDecl _ name _ init isFixed => do
      let v ← evalInit R.evalExpr init env
      unlessError .none do
        envDefine env name v isFixed
        pure .none
    | .expr _ e => do
      let _ ← R.evalExpr e env
      pure .none
    | .ifStmt _ cond thenB elifs elseB => do
      let c ← R.evalExpr cond env
      unlessError .none do
        let t ← truthy c
        if t then R.execStmt thenB env else execElifs R elifs elseB env
    | .loopWhile _ cond body => loopWhile R cond body env n
    | .doWhile _ cond body => doWhile R cond body env n
    | .forIn line var iterable cond body => do
      let coll ← R.evalExpr iterable env
      forIn R n coll var cond body env line
    | .iterate line collection item body => do
      let coll ← R.evalExpr collection env
      iterate R n coll item body env line
    | .ret _ value => do
      let v ← evalInit R.evalExpr value env
      pure (.ret v)
    | .block _ stmts => execBlock R stmts env
    | .tryCatch _ tryB errName catchB => tryCatch R tryB errName catchB env
    | .funDecl .. | .classDecl .. | .enumDecl .. | .structDecl .. | .importStmt ..
    | .exportStmt .. | .brk _ | .cont _ => pure .none

/-! ### Runs -/

/-- `interp_run`: the exit code. -/
def interpRun (program : List Stmt) : Prog ω ℕ := do
  let env ← globals
  hoist program env
  let _ ← execStmts R program env
  closeFile
  setOpenFile none
  let failed ← errorPending
  if failed then do
    let msg ← Exec.read fun s => s.it.errorMessage.getD (txt "unknown error")
    onWorld (Host.printErr (txt "runtime error: " ++ msg ++ [10]))
    pure 1
  else pure 0

/-! ### Names that are bound -/

variable {R n} {env : Env} {s : Machine ω}

omit [Host ω] in
theorem evalIdent_of_get {name : Text} {v : Value} {line : ℕ}
    (h : s.heap.envGet env name = some v) : evalIdent name env line s = ⟨[], s, some v⟩ := by
  refine bind_of_silent (a := some v) ?_
  exact congrArg (fun v => (⟨[], s, some v⟩ : Exec.Outcome _ Act _)) h

/-- A variable is no namespace. -/
theorem builtinCallee_of_bound {object : Expr} (name : Text) (args : List Expr) (line : ℕ)
    (h : ∀ line' ns, object = .ident line' ns → (s.heap.envGet env ns).isSome) :
    builtinCallee R n object name args env line s = ⟨[], s, some none⟩ := by
  unfold builtinCallee
  split
  · next line' ns =>
    obtain ⟨v, hv⟩ := Option.isSome_iff_exists.mp (h line' ns rfl)
    have hread : envGet env ns s = ⟨[], s, some (some v)⟩ :=
      congrArg (fun v => (⟨[], s, some v⟩ : Exec.Outcome _ Act _)) hv
    rw [bind_of_silent hread, if_neg (by simp)]
    rfl
  · rfl

end Interp

section Evaluator

variable {ω : Type} [Host ω]

/-- The interpreter, for nestings and loops up to `n`. -/
def evaluator : ℕ → Evaluator ω
  | 0 => ⟨fun _ _ => Exec.giveUp, fun _ _ => Exec.giveUp⟩
  | n + 1 => ⟨evalExpr (evaluator n) n, execStmt (evaluator n) n⟩

/-- `interp_init`. -/
def interpInit (world : ω) : Machine ω where
  heap := ⟨[[]], [], [], [], [], [], [], []⟩
  it := ⟨[0], false, none, none, none⟩
  world := world

/-- Surroundings in which nothing happens, and threads start at once. -/
@[reducible]
def silentHost : Host Unit where
  print _ w := w
  printErr _ w := w
  readLine w := ([], w)
  getenv _ _ := none
  fopen _ w := (none, w)
  fread _ _ := []
  fclose _ w := w
  readdir _ _ := none
  rmdir _ w := w
  httpRequest _ _ _ w := (.error [], w)
  addTimer _ _ _ w := (0, w)
  clearTimer _ w := w
  serverOn _ w := w
  serverRoute _ _ _ w := w
  serverListen w := w
  socketOn _ w := w
  socketRoute _ _ w := w
  socketListen w := w
  wsWriteFrame _ _ _ w := w
  runFile _ w := w
  threadId w := (0, w)
  startsNow w := (true, w)
  pickJob _ w := (0, w)
  pow x _ := x

end Evaluator

end Jaguar
