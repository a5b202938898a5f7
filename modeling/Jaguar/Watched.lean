/-
Operands that have failed.

An error unwinds nothing, and many functions of the interpreter do not look at the error flag
behind an operand that has failed: they go on with what it returned, which mostly is `void`.
There are two ways to do harm then. The function may complain about the operand, and the
message of the first error is lost; or it may write to something that was there before.

* `Fault` — the two kinds of harm;
* `past` — what is looked at behind a part of a program;
* `exprFault`, `stmtFault` — whether an expression or a statement goes on with an operand that
  has failed, and does harm;
* `watched` — the interpreter, stopped where it comes to such an expression or statement.
-/
import Jaguar.InterpSteps

namespace Jaguar

/-- What a construct does that goes on with a failed operand: it raises another error, or it
writes to a variable, a list or a data value. -/
inductive Fault
  | raises
  | writes

def Fault.isRaises : Fault → Bool
  | .raises => true
  | .writes => false

def Fault.isWrites : Fault → Bool
  | .raises => false
  | .writes => true

section Faults

variable {ω α : Type}

def Machine.pending (s : Machine ω) : Bool := s.it.hadRuntimeError

/-- What `fault` says of the value that `m` returns and of the state behind it. -/
def past (m : Prog ω α) (fault : α → Machine ω → Bool) (s : Machine ω) : Bool :=
  (m s).value.any fun a => fault a (m s).state

def never (_ : Machine ω) : Bool := false

variable (φ : Fault)

/-- An error is raised here whatever the operands are. -/
def raisesNow (s : Machine ω) : Bool := φ.isRaises && s.pending

/-! ### What is done with operands -/

/-- The node of a list at an index, if the walk to it ends. -/
def Heap.nodeOfIndex (h : Heap) (l : ℕ) (idx : Value) : Option (Option ℕ) :=
  h.nodeAt (longOfDouble (Heap.asNumber idx)) h.nodes.length (h.listHead l) 0

/-- `E_INDEX` complains. -/
def indexComplains (h : Heap) (obj idx : Value) : Bool :=
  match obj with
  | .list l => match h.nodeOfIndex l idx with
    | some none => true
    | _ => false
  | .data _ => false
  | .string s =>
    let i := longOfDouble (Heap.asNumber idx)
    decide (i < 0 ∨ (s.length : ℤ) ≤ i)
  | _ => true

/-- What `set_lvalue` does with a target: it complains, or writes to something that is there. -/
def storeFault (target : Expr) (obj idx : Value) (env : Env) (h : Heap) : Bool :=
  match target with
  | .ident _ name => match φ with
    | .raises => h.envIsFixed env name
    | .writes => match h.envFind env name with
      | some (_, _, e) => !e.isFixed
      | none => false
  | .index .. => match obj with
    | .list l => match h.nodeOfIndex l idx with
      | some (some _) => φ.isWrites
      | some none => φ.isRaises
      | none => false
    | .data _ => φ.isWrites
    | _ => φ.isRaises
  | .member .. => match obj with
    | .data _ | .inst _ => φ.isWrites
    | _ => φ.isRaises
  | _ => φ.isRaises

/-- `eval_binary` complains, for the operator of an augmented assignment. -/
def binaryComplains [Host ω] (op : TokenType) (l r : Value) : Bool :=
  !(decide (op = .plus) && (isString l || isString r)) &&
    match arith (Host.pow (ω := ω)) op l r with
    | .error _ => true
    | .ok _ => false

/-- A method of a list writes to it. -/
def listMethodWrites (h : Heap) (l : ℕ) (name : Text) (v : Value) : Bool :=
  if name = txt "append" ∨ name = txt "insert" then true
  else if name = txt "delete" then
    match h.nodeOfIndex l v with
    | some (some _) => true
    | _ => false
  else if name = txt "concat" then
    match v with
    | .list m => (h.listHead m).isSome
    | _ => false
  else false

/-- The methods of a response object. -/
def responseMethods : List Text := ["send", "json", "status", "header"].map txt

/-- A method of a response object writes to it. -/
def responseWrites (name : Text) (argv : List Value) : Bool :=
  if name = txt "header" then
    match argv with
    | .string _ :: _ :: _ => true
    | _ => false
  else responseMethods.contains name

def Value.isFunc : Value → Bool
  | .func _ => true
  | _ => false

def Value.isList : Value → Bool
  | .list _ => true
  | _ => false

def Value.isData : Value → Bool
  | .data _ => true
  | _ => false

/-- A callback that is no function. -/
def invokeFault (callee : Value) (s : Machine ω) : Bool := raisesNow φ s && !callee.isFunc

/-! ### What the memory holds -/

/-- A native value holds such a value. -/
def Native.holds (q : Value → Bool) : Native → Bool
  | .task (.ok v) => q v
  | .task (.error _) => false
  | .worker w => w.func.any q || w.result.any q
  | .workerPool p => p.queue.any q || p.results.any q
  | .socketConn _ onMessage onClose _ => onMessage.any q || onClose.any q
  | .superRef _ this => q this

/-- A variable, a node, an entry or a native value holds such a value. -/
def Heap.holds (h : Heap) (q : Value → Bool) : Bool :=
  h.frames.any (fun es => es.any fun e => q e.value) || h.nodes.any (fun node => q node.item) ||
    h.datas.any (fun es => es.any fun e => q e.2) || h.natives.any (Native.holds q)

def Heap.holdsList (h : Heap) (l : ℕ) : Bool :=
  h.holds fun v => match v with
    | .list m => decide (m = l)
    | _ => false

def Heap.holdsData (h : Heap) (d : ℕ) : Bool :=
  h.instances.any (fun inst => decide (inst.fields = d)) || h.holds fun v => match v with
    | .data e => decide (e = d)
    | _ => false

/-- The result of a job gets an entry more. -/
def tagFault (result : Value) (s : Machine ω) : Bool :=
  φ.isWrites && s.pending && result.isData

end Faults

section Watched

variable {ω : Type} (φ : Fault) (R : Evaluator ω) (n : ℕ)

/-! ### Literals and new instances

What is built is written to; that does harm only if something holds it already. -/

/-- The items of a list literal. -/
def itemsFault (l : ℕ) (items : List Expr) (env : Env) : Machine ω → Bool :=
  match items with
  | [] => never
  | e :: items => past (R.evalExpr e env) fun v s =>
    φ.isWrites && s.pending && s.heap.holdsList l ||
      past (valueListAppend l v) (fun _ => itemsFault l items env) s

/-- The entries of a data literal. -/
def entriesFault (d : ℕ) (entries : List (Text × Expr)) (env : Env) : Machine ω → Bool :=
  match entries with
  | [] => never
  | (key, e) :: entries => past (R.evalExpr e env) fun v s =>
    φ.isWrites && s.pending && s.heap.holdsData d ||
      past (valueDataSet d key v) (fun _ => entriesFault d entries env) s

/-- The field initialisers of one class. -/
def initFault (members : List Stmt) (env : Env) (fields : ℕ) : Machine ω → Bool :=
  match members with
  | [] => never
  | .varDecl _ name _ init _ :: members => past (evalInit R.evalExpr init env) fun v s =>
    φ.isWrites && s.pending && s.heap.holdsData fields ||
      past (valueDataSet fields name v) (fun _ => initFault members env fields) s
  | _ :: members => initFault members env fields

/-- The initialisers of a class and of its ancestors, which run first. -/
def fieldsFault : ℕ → ℕ → ℕ → Machine ω → Bool
  | 0, _, _ => never
  | n + 1, c, fields => past (classOf c) fun ci => match ci.parent with
    | some p => fun s => fieldsFault n p fields s ||
        past (initFieldsRecursive R.evalExpr n p fields) (fun _ =>
          past (envNew ci.closure) fun env => initFault φ R ci.members env fields) s
    | none => past (envNew ci.closure) fun env => initFault φ R ci.members env fields

/-- `E_NEW`. -/
def newFault (className : Text) (env : Env) : Machine ω → Bool :=
  past (envGet env className) fun cls => match cls with
    | some (.cls c) => past (newData []) fun fields => fieldsFault φ R n c fields
    | _ => never

/-! ### Methods -/

/-- A method of a list, behind its argument. -/
def listMethodFault (l : ℕ) (name : Text) (args : List Expr) (env : Env) : Machine ω → Bool :=
  match args with
  | [] => never
  | a :: _ => past (R.evalExpr a env) fun v s =>
    φ.isWrites && s.pending && listMethodWrites s.heap l name v

/-- A method of a response object, of these arguments. -/
def responseCallFault (name : Text) (argv : List Value) (s : Machine ω) : Bool :=
  s.pending && match φ with
    | .raises => !responseMethods.contains name
    | .writes => responseWrites name argv

/-- A method of a response object, behind its arguments. -/
def responseFault (d : ℕ) (name : Text) (args : List Expr) (env : Env) : Machine ω → Bool :=
  past (isResponseObject d) fun isResponse =>
    if isResponse then past (evalArgs R args env) fun argv => responseCallFault φ name argv
    else never

/-- A method of a task, behind its arguments. -/
def taskFault (result : Except Text Value) (name : Text) (argv : List Value) :
    Machine ω → Bool :=
  if name = txt "then" then
    match result, argv with
    | .ok _, f :: _ => invokeFault φ f
    | _, _ => never
  else if name = txt "catch" then
    match result, argv with
    | .error _, f :: _ => invokeFault φ f
    | _, _ => never
  else if name = txt "await" then
    match result with
    | .ok _ => never
    | .error _ => raisesNow φ
  else raisesNow φ

variable [Host ω]

/-- The job of a worker is no function. -/
def runWorkerFault (w : Worker) : Machine ω → Bool := invokeFault φ (w.func.getD .void)

/-- `worker.spawn`. -/
def spawnFault (fn : Option Value) : Machine ω → Bool :=
  past (newNative (.worker ⟨fn, none, 0⟩)) fun _ => past (fromWorld Host.startsNow) fun now =>
    if now then runWorkerFault φ ⟨fn, none, 0⟩ else never

/-- A worker whose job has not run yet. -/
def waitFault (w : Worker) : Machine ω → Bool :=
  match w.result with
  | some _ => never
  | none => past yieldLock fun _ => runWorkerFault φ w

/-- Waiting for a worker: its job, and then its result. -/
def joinFault (p : ℕ) (w : Worker) (s : Machine ω) : Bool :=
  waitFault φ w s || past (workerResult R p w) (fun result => tagFault φ result) s

/-- A method of a worker, behind its arguments. -/
def workerFault (p : ℕ) (w : Worker) (name : Text) (argv : List Value) : Machine ω → Bool :=
  match doneCallback name argv with
  | some f => fun s => joinFault φ R p w s ||
      past (workerHandleJoin R p w) (fun _ => invokeFault φ f) s
  | none => if name = txt "terminate" then joinFault φ R p w else raisesNow φ

/-- A thread of the pool takes a job from the queue. -/
def takeJob (p : ℕ) : Prog ω Value := do
  let pool ← poolOf p
  let i ← fromWorld (Host.pickJob (min pool.threads pool.queue.length))
  let job ← Exec.readSome fun _ => (pool.queue.take pool.threads)[i]?
  setNative p (.workerPool { pool with queue := pool.queue.eraseIdx i, running := pool.running + 1 })
  pure job

/-- The turn of a job: it is no function, or its result is written to. -/
def jobFault (p : ℕ) : Machine ω → Bool :=
  past (takeJob p) fun job s => invokeFault φ job s ||
    past (interpInvoke R job []) (fun result =>
      past (fromWorld Host.threadId) fun _ => tagFault φ result) s

/-- A job is put into the queue; whether a thread takes one at once. -/
def enqueue (p : ℕ) (fn : Value) : Prog ω Bool := do
  let pool ← poolOf p
  setNative p (.workerPool { pool with queue := pool.queue ++ [fn] })
  fromWorld Host.startsNow

/-- `submit`. -/
def submitFault (p : ℕ) (fn : Value) : Machine ω → Bool :=
  past (enqueue p fn) fun now => if now then jobFault φ R p else never

/-- The jobs that are waited for, at most `k`. -/
def jobsFault (p : ℕ) : ℕ → Machine ω → Bool
  | 0 => never
  | k + 1 => past (poolOf p) fun pool =>
    if pool.queue = [] ∧ pool.running = 0 then never
    else past yieldLock fun _ s => jobFault φ R p s ||
      past (runJob R p) (fun _ => jobsFault p k) s

/-- A method of a pool, behind its arguments. -/
def poolFault (p : ℕ) (name : Text) (argv : List Value) : Machine ω → Bool :=
  match argv with
  | v :: _ =>
    if name = txt "submit" then submitFault φ R p v
    else if name = txt "onAll" then fun s => jobsFault φ R p n s ||
      past (workerPoolWaitAll R n p) (fun _ => invokeFault φ v) s
    else raisesNow φ
  | [] => raisesNow φ

/-- The methods of a socket. -/
def socketMethods : List Text := ["on", "send", "close"].map txt

/-- A method of a native value. -/
def nativeFault (p : ℕ) (name : Text) (args : List Expr) (env : Env) : Machine ω → Bool :=
  past (evalArgs R args env) fun argv => past (nativeOf p) fun native => match native with
    | .task result => taskFault φ result name argv
    | .worker w => workerFault φ R p w name argv
    | .workerPool _ => poolFault φ R n p name argv
    | .socketConn .. => if socketMethods.contains name then never else raisesNow φ
    | .superRef parentClass _ => past (findMethod n parentClass name) fun method =>
      if method.isSome then never else raisesNow φ

/-- A method of a value. -/
def methodFault (obj : Value) (name : Text) (args : List Expr) (env : Env) : Machine ω → Bool :=
  match obj with
  | .list l => listMethodFault φ R l name args env
  | .data d => responseFault φ R d name args env
  | .native p => nativeFault φ R n p name args env
  | _ => never

/-! ### Built-in functions -/

/-- A function of a namespace, behind its arguments. -/
def builtinFault (ns method : Text) (args : List Expr) (env : Env) : Machine ω → Bool :=
  if ns = txt "json" ∧ method = txt "parse" then
    past (argOr R (pure (.string [])) args env) fun v s => raisesNow φ s && !isString v
  else if ns = txt "file" ∧ method = txt "on" then
    past closeFile fun _ => past (argOr R (pure (.string [])) args env) fun path =>
      past (fromWorld (Host.fopen (safeStr path))) fun file s => raisesNow φ s && file.isNone
  else if ns = txt "worker" ∧ method = txt "spawn" then
    match args with
    | [] => spawnFault φ none
    | a :: _ => past (R.evalExpr a env) fun fn => spawnFault φ (some fn)
  else if ns = txt "worker" ∧ method = txt "run" then
    match args with
    | a :: b :: _ => past (R.evalExpr a env) fun path => past (R.evalExpr b env) fun cb =>
      past (workerRunFile (safeStr path)) fun _ => invokeFault φ cb
    | _ => never
  else never

/-- The name is that of a namespace, and of no variable. -/
def Heap.isNamespace (h : Heap) (env : Env) (ns : Text) : Bool :=
  (h.envGet env ns).isNone && builtinNs.contains ns

theorem Heap.isNamespace_iff {h : Heap} {env : Env} {ns : Text} :
    h.isNamespace env ns = true ↔ (h.envGet env ns).isNone ∧ ns ∈ builtinNs := by
  rw [isNamespace, Bool.and_eq_true, List.contains_iff_mem]

/-- A function of a namespace, if the object is one. -/
def namespaceFault (object : Expr) (name : Text) (args : List Expr) (env : Env)
    (s : Machine ω) : Bool :=
  match object with
  | .ident _ ns => s.heap.isNamespace env ns && builtinFault φ R ns name args env s
  | _ => false

/-- `E_CALL`. -/
def callFault (callee : Expr) (args : List Expr) (env : Env) (s : Machine ω) : Bool :=
  match callee with
  | .member _ object name => namespaceFault φ R object name args env s ||
      past (R.evalExpr object env) (fun obj s =>
        !s.pending && methodFault φ R n obj name args env s) s
  | _ => false

/-! ### Assignment -/

/-- `set_lvalue`, behind the operands of the target. -/
def targetFault (target : Expr) (env : Env) : Machine ω → Bool :=
  match target with
  | .index _ object index => past (R.evalExpr object env) fun obj =>
    past (R.evalExpr index env) fun idx s => s.pending && storeFault φ target obj idx env s.heap
  | .member _ object _ => past (R.evalExpr object env) fun obj s =>
    s.pending && storeFault φ target obj .void env s.heap
  | _ => fun s => s.pending && storeFault φ target .void .void env s.heap

/-- `E_ASSIGN`. -/
def assignFault (target value : Expr) (op : TokenType) (env : Env) (line : ℕ) :
    Machine ω → Bool :=
  if op = .assign then past (R.evalExpr value env) fun _ => targetFault φ R target env
  else past (R.evalExpr target env) fun cur => past (R.evalExpr value env) fun rhs s =>
    raisesNow φ s && binaryComplains (ω := ω) (binaryOf op) cur rhs ||
      past (evalBinary n (binaryOf op) cur rhs line) (fun _ => targetFault φ R target env) s

/-! ### The interpreter that is stopped -/

/-- The expression goes on with an operand that has failed, and does harm. -/
def exprFault (e : Expr) (env : Env) : Machine ω → Bool :=
  match e with
  | .list _ items => past (newList []) fun l => itemsFault φ R l items env
  | .data _ entries => past (newData []) fun d => entriesFault φ R d entries env
  | .index _ object index => past (R.evalExpr object env) fun obj =>
    past (R.evalExpr index env) fun idx s => raisesNow φ s && indexComplains s.heap obj idx
  | .assign line target value op => assignFault φ R n target value op env line
  | .call _ callee args => callFault φ R n callee args env
  | .new _ className _ => newFault φ R n className env
  | _ => never

/-- The statement does. -/
def stmtFault (st : Stmt) (env : Env) : Machine ω → Bool :=
  match st with
  | .forIn _ _ iterable _ _ => past (R.evalExpr iterable env) fun coll s =>
    raisesNow φ s && !coll.isList
  | .iterate _ collection _ _ => past (R.evalExpr collection env) fun coll s =>
    raisesNow φ s && !(coll.isList || coll.isData)
  | _ => never

/-- The run ends here, with a step of label `raise` that raises nothing. -/
def stop {α : Type} : Prog ω α := do
  Exec.act .raise id
  Exec.giveUp

/-- A step as `stop` makes it. -/
def isMark (st : Exec.Step (Machine ω) Act) : Bool :=
  (match st.label with
    | .raise => true
    | _ => false) && !st.post.pending

/-- The run is stopped where there is a fault; where an error is pending nothing is evaluated. -/
def stopAt {α : Type} (fault : Machine ω → Bool) (m : Prog ω α) : Prog ω α := fun s =>
  if !s.pending && fault s then stop s else m s

/-- `exec_stmt`, with `R'` one level down. What is raised in the block of a `try` statement is
gone when the statement ends, so for errors the block is run by `R`, which is not watched. -/
def watchedStmt (R' : Evaluator ω) (st : Stmt) (env : Env) : Prog ω ExecResult :=
  match φ, st with
  | .raises, .tryCatch _ tryB errName catchB => unlessError .none do
    let catchEnv ← tryBlock R tryB errName env
    runHandler R' catchB catchEnv
  | _, _ => execStmt R' n st env

end Watched

section Evaluator

variable {ω : Type} [Host ω]

/-- The interpreter that is stopped at the first fault. -/
def watched (φ : Fault) : ℕ → Evaluator ω
  | 0 => ⟨fun _ _ => Exec.giveUp, fun _ _ => Exec.giveUp⟩
  | n + 1 =>
    ⟨fun e env => stopAt (exprFault φ (evaluator n) n e env) (evalExpr (watched φ n) n e env),
      fun st env => stopAt (stmtFault φ (evaluator n) st env)
        (watchedStmt φ (evaluator n) n (watched φ n) st env)⟩

/-- Nothing stops the run. -/
def Unmarked (steps : List (Exec.Step (Machine ω) Act)) : Prop := ∀ st ∈ steps, isMark st = false

omit [Host ω] in
theorem unmarked_of_all {steps : List (Exec.Step (Machine ω) Act)}
    (h : (steps.all fun st => !isMark st) = true) : Unmarked steps :=
  fun st hst => (Bool.not_eq_true' _).mp (List.all_eq_true.mp h st hst)

end Evaluator

end Jaguar
