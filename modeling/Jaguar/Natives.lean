/-
What the interpreter does without running program code: `rt_error`, `eval_binary` and the
list methods of `interp.c`, and what it calls in `value.c`, `native.c`, `json.c`, in
`http.c` (the response object and the client) and `ws.c` (the socket object).

* `rtError`, `unlessError` — the error state;
* `envGet`, `envSet`, `envDefine` — environments;
* `evalBinary` — arithmetic and comparison;
* `sortItems` — the exchange sort of `.sort()`.
-/
import Jaguar.Machine

namespace Jaguar

section Natives

variable {ω α : Type}

/-! ### The error state -/

def errorPending : Prog ω Bool := Exec.read fun s => s.it.hadRuntimeError

/-- `if (it->had_runtime_error) return dflt;`, and then `m`. -/
def unlessError (dflt : α) (m : Prog ω α) : Prog ω α := do
  let failed ← errorPending
  if failed then pure dflt else m

theorem bind_of_silent {β : Type} {m : Prog ω α} {f : α → Prog ω β} {s : Machine ω} {a : α}
    (h : m s = ⟨[], s, some a⟩) : (m >>= f) s = f a s := by
  have hvalue : (m s).value = some a := by rw [h]
  rw [Exec.bind_of_some hvalue, h]
  rfl

theorem unlessError_of_clear {dflt : α} {m : Prog ω α} {s : Machine ω}
    (h : s.it.hadRuntimeError = false) : unlessError dflt m s = m s := by
  unfold unlessError errorPending
  rw [Exec.bind_of_some (m := Exec.read _) rfl, h]
  rfl

theorem unlessError_of_pending {dflt : α} {m : Prog ω α} {s : Machine ω}
    (h : s.it.hadRuntimeError = true) : unlessError dflt m s = ⟨[], s, some dflt⟩ := by
  unfold unlessError errorPending
  rw [Exec.bind_of_some (m := Exec.read _) rfl, h]
  rfl

/-- The message `rt_error` leaves: it formats into 900 bytes, and again into 1024. -/
def errorText (line : ℕ) (msg : Text) : Text :=
  (txt "line " ++ natText line ++ txt ": " ++ msg.take 899).take 1023

def Interp.raise (it : Interp) (line : ℕ) (msg : Text) : Interp :=
  { it with hadRuntimeError := true, errorMessage := some (errorText line msg) }

/-- `rt_error`. -/
def rtError (line : ℕ) (msg : Text) : Prog ω Unit :=
  Exec.act .raise fun s => { s with it := s.it.raise line msg }

/-- `rt_error(...); return value_void();` -/
def fail (line : ℕ) (msg : Text) : Prog ω Value := do
  rtError line msg
  pure .void

/-! ### The world -/

def onWorld (f : ω → ω) : Prog ω Unit :=
  Exec.act .world fun s => { s with world := f s.world }

/-- A call that answers. -/
def fromWorld (f : ω → α × ω) : Prog ω α := do
  let a ← Exec.read fun s => (f s.world).1
  onWorld fun w => (f w).2
  pure a

/-- `it->open_file = p`. -/
def setOpenFile (p : Option ℕ) : Prog ω Unit :=
  Exec.act .slot fun s => { s with it := { s.it with openFile := p } }

/-- `it->open_dir_path = path`. -/
def setOpenDirPath (path : Option Text) : Prog ω Unit :=
  Exec.act .slot fun s => { s with it := { s.it with openDirPath := path } }

/-! ### Environments -/

/-- `env_get`. -/
def envGet (env : Env) (name : Text) : Prog ω (Option Value) :=
  Exec.read fun s => s.heap.envGet env name

/-- `env_is_fixed`. -/
def envIsFixed (env : Env) (name : Text) : Prog ω Bool :=
  Exec.read fun s => s.heap.envIsFixed env name

/-- `env_set`. -/
def envSet (env : Env) (name : Text) (v : Value) : Prog ω Bool := do
  let found ← Exec.read fun s => s.heap.envFind env name
  match found with
  | some (f, i, e) =>
    if e.isFixed then pure false
    else do
      onHeap (.setVar f i) fun h => h.setVar f i v
      pure true
  | none => pure false

/-- `env_define`. -/
def envDefine (env : Env) (name : Text) (v : Value) (isFixed : Bool) : Prog ω Unit :=
  match env with
  | [] => pure ()
  | f :: _ => onHeap (.define f name) fun h => h.define f ⟨name, v, isFixed⟩

/-- Parameters and the arguments for them; one that is missing is `void`. -/
def bindParams (params : List Param) (argv : List Value) (env : Env) : Prog ω Unit :=
  match params with
  | [] => pure ()
  | p :: params => do
    envDefine env p.name (argv.headD .void) false
    bindParams params argv.tail env

/-! ### Allocation -/

/-- What is allocated stands behind what there was. -/
def alloc (size : Heap → ℕ) (f : Heap → Heap) : Prog ω ℕ := do
  let i ← Exec.read fun s => size s.heap
  onHeap .alloc f
  pure i

/-- A new list of these items. -/
def Heap.addList (h : Heap) (items : List Value) : Heap :=
  { h with lists := h.lists ++ [none] }.newNodes h.lists.length items

def Heap.addData (h : Heap) (entries : DataList Value) : Heap :=
  { h with datas := h.datas ++ [entries] }

def newList (items : List Value) : Prog ω ℕ :=
  alloc (·.lists.length) fun h => h.addList items

def newData (entries : DataList Value) : Prog ω ℕ :=
  alloc (·.datas.length) fun h => h.addData entries

def newFunc (fv : FuncValue) : Prog ω ℕ :=
  alloc (·.funcs.length) fun h => { h with funcs := h.funcs ++ [fv] }

def newInstance (inst : Instance) : Prog ω ℕ :=
  alloc (·.instances.length) fun h => { h with instances := h.instances ++ [inst] }

/-- `native_wrap`. -/
def newNative (native : Native) : Prog ω ℕ :=
  alloc (·.natives.length) fun h => { h with natives := h.natives ++ [native] }

def setNative (p : ℕ) (native : Native) : Prog ω Unit :=
  onHeap (.setNative p) fun h => { h with natives := h.natives.set p native }

/-- `task_done`. -/
def taskDone (result : Value) : Prog ω Value := do
  let p ← newNative (.task (.ok result))
  pure (.native p)

/-- `task_error`. -/
def taskError (message : Text) : Prog ω Value := do
  let p ← newNative (.task (.error message))
  pure (.native p)

def funcOf (f : ℕ) : Prog ω FuncValue := Exec.readSome fun s => s.heap.funcs[f]?

def classOf (c : ℕ) : Prog ω ClassInfo := Exec.readSome fun s => s.heap.classes[c]?

def instanceOf (i : ℕ) : Prog ω Instance := Exec.readSome fun s => s.heap.instances[i]?

def nativeOf (p : ℕ) : Prog ω Native := Exec.readSome fun s => s.heap.natives[p]?

def nodeOf (p : ℕ) : Prog ω ListNode := Exec.readSome fun s => s.heap.nodes[p]?

/-! ### Reading values -/

/-- `safe_str`. -/
def safeStr (v : Value) : Text :=
  match v with
  | .string s => s
  | _ => []

def truthy (v : Value) : Prog ω Bool := Exec.read fun s => s.heap.isTruthy v

/-- `value_to_display_string`. -/
def displayOf (n : ℕ) (v : Value) : Prog ω Text :=
  Exec.readSome fun s => s.heap.displayString n v

/-- `json_stringify`. -/
def stringify (n : ℕ) (v : Value) : Prog ω Text :=
  Exec.readSome fun s => (s.heap.toJson n v).map jsonStringify

/-- `value_data_get`. -/
def valueDataGet (d : ℕ) (key : Text) : Prog ω (Option Value) :=
  Exec.read fun s => dataGet (s.heap.data d) key

/-- `(int)x`, as x86 has it. -/
def intOfDouble (x : Float) : ℤ :=
  let n := longOfDouble x
  if n < -2 ^ 31 ∨ 2 ^ 31 ≤ n then -2 ^ 31 else n

/-! ### Lists -/

/-- A step on the memory that walks nodes. -/
def onHeapSome (a : Act) (f : Heap → Option Heap) : Prog ω Unit :=
  Exec.actSome a fun s => (f s.heap).map fun h => { s with heap := h }

def listItems (l : ℕ) : Prog ω (List Value) :=
  Exec.readSome fun s => s.heap.itemsFrom s.heap.nodes.length (s.heap.listHead l)

/-- `value_list_append`. -/
def valueListAppend (l : ℕ) (item : Value) : Prog ω Unit :=
  onHeapSome (.setList l) fun h => h.listAppend h.nodes.length l item

/-- `value_list_insert_front`. -/
def valueListInsertFront (l : ℕ) (item : Value) : Prog ω Unit :=
  onHeap (.setList l) fun h => h.listInsertFront l item

/-- The loop of `.delete(idx)`. -/
def listDeleteAt (l : ℕ) (idx : ℤ) : Prog ω Unit :=
  onHeapSome (.setList l) fun h => h.listDelete l idx h.nodes.length none (h.listHead l) 0

/-- The node at an index, if there is one. -/
def listNodeAt (l : ℕ) (idx : ℤ) : Prog ω (Option ℕ) :=
  Exec.readSome fun s => s.heap.nodeAt idx s.heap.nodes.length (s.heap.listHead l) 0

/-- `c = c->next`; what a freed node holds is not known. -/
def nextNode (p : ℕ) : Prog ω (Option ℕ) := do
  Exec.act (.advance p) fun s => s
  Exec.readSome fun s => (s.heap.nodes[p]?).bind fun node =>
    if node.freed then none else some node.next

/-- `list->as.list = …`, in `.sort()`. -/
def setItems (l : ℕ) (items : List Value) : Prog ω Unit :=
  onHeap (.setList l) fun h => h.newNodes l items

/-- Whether `.sort()` exchanges `x` and a later `y`. -/
def sortGt (x y : Value) : Bool :=
  match x, y with
  | .string s, .string t => t < s
  | _, _ => Heap.asNumber x > Heap.asNumber y

/-- The inner loop of `.sort()`: what stands at `a` in the end, and what behind it. -/
def sortPass (x : Value) (items : List Value) : Value × List Value :=
  match items with
  | [] => (x, [])
  | y :: rest =>
    if sortGt x y then
      let (m, rest) := sortPass y rest
      (m, x :: rest)
    else
      let (m, rest) := sortPass x rest
      (m, y :: rest)

/-- The outer loop, for `n` items. -/
def sortItems : ℕ → List Value → List Value
  | 0, items => items
  | _, [] => []
  | n + 1, x :: rest =>
    let (m, rest) := sortPass x rest
    m :: sortItems n rest

/-! ### `eval_binary` -/

/-- 64 bits, two's complement. -/
def wrap64 (n : ℤ) : ℤ := n.bmod (2 ^ 64)

def isNum (v : Value) : Bool :=
  match v with
  | .num _ => true
  | _ => false

def isString (v : Value) : Bool :=
  match v with
  | .string _ => true
  | _ => false

/-- The part of `eval_binary` for numbers: a value, or the message of an error. -/
def arith (pow : Float → Float → Float) (op : TokenType) (l r : Value) : Except Text Value :=
  if ¬ (Heap.isNumericish l ∧ Heap.isNumericish r) then
    .error (txt "operator requires numeric operands")
  else
    let ld := Heap.asNumber l
    let rd := Heap.asNumber r
    let li := longOfDouble ld
    let ri := longOfDouble rd
    let bothInt := isNum l && isNum r
    match op with
    | .gt => .ok (.bool (ld > rd))
    | .lt => .ok (.bool (ld < rd))
    | .ge => .ok (.bool (ld ≥ rd))
    | .le => .ok (.bool (ld ≤ rd))
    | .shl => .ok (.num (wrap64 (li * 2 ^ (ri % 64).toNat)))
    | .shr => .ok (.num (li / 2 ^ (ri % 64).toNat))
    | .plus => .ok (if bothInt then .num (wrap64 (li + ri)) else .decimal (ld + rd))
    | .minus => .ok (if bothInt then .num (wrap64 (li - ri)) else .decimal (ld - rd))
    | .star => .ok (if bothInt then .num (wrap64 (li * ri)) else .decimal (ld * rd))
    | .slash =>
      if rd == doubleOfLong 0 then .error (txt "division by zero")
      else .ok (.decimal (ld / rd))
    | .percent =>
      if ri = 0 then .error (txt "modulo by zero")
      else .ok (if bothInt then .num (li.tmod ri) else .decimal (fmod ld rd))
    | .pow =>
      .ok (if bothInt && decide (rd ≥ doubleOfLong 0) then .num (longOfDouble (pow ld rd))
        else .decimal (pow ld rd))
    | _ => .error (txt "unsupported binary operator")

/-- The remainder by -1 of the least `long long`, whose quotient is none: the processor traps. -/
def remTraps (op : TokenType) (l r : Value) : Bool :=
  decide (op = .percent) && isNum l && isNum r &&
    decide (longOfDouble (Heap.asNumber l) = -2 ^ 63) &&
    decide (longOfDouble (Heap.asNumber r) = -1)

/-- `eval_binary`. -/
def evalBinary [Host ω] (n : ℕ) (op : TokenType) (l r : Value) (line : ℕ) : Prog ω Value :=
  if op = .plus ∧ (isString l ∨ isString r) then do
    let ls ← displayOf n l
    let rs ← displayOf n r
    pure (.string (ls ++ rs))
  else match op with
    | .eq => pure (.bool (Heap.valueEqual l r))
    | .ne => pure (.bool (!Heap.valueEqual l r))
    | .and => do
      let lt ← truthy l
      let rt ← truthy r
      pure (.bool (lt && rt))
    | .or => do
      let lt ← truthy l
      let rt ← truthy r
      pure (.bool (lt || rt))
    | op =>
      if remTraps op l r then Exec.giveUp
      else match arith (Host.pow (ω := ω)) op l r with
        | .ok v => pure v
        | .error msg => fail line msg

/-! ### JSON text -/

mutual

/-- The value `json_parse` builds. -/
def Heap.ofJson (h : Heap) : JsonVal → Heap × Value
  | .string s => (h, .string s)
  | .num k => (h, .num k)
  | .decimal d => (h, .decimal d)
  | .scifi d => (h, .scifi d)
  | .bool b => (h, .bool b)
  | .list items =>
    let (h, vs) := h.ofJsonItems items
    (h.addList vs, .list h.lists.length)
  | .data entries =>
    let (h, es) := h.ofJsonEntries entries
    (h.addData es, .data h.datas.length)
  | .void | .other => (h, .void)

def Heap.ofJsonItems (h : Heap) : List JsonVal → Heap × List Value
  | [] => (h, [])
  | v :: vs =>
    let (h, v) := h.ofJson v
    let (h, vs) := h.ofJsonItems vs
    (h, v :: vs)

def Heap.ofJsonEntries (h : Heap) : List (Text × JsonVal) → Heap × DataList Value
  | [] => (h, [])
  | (k, v) :: es =>
    let (h, v) := h.ofJson v
    let (h, es) := h.ofJsonEntries es
    (h, (k, v) :: es)

end

/-- `json_parse`. -/
def jsonParseText (text : Text) : Prog ω Value := do
  let json ← Exec.readSome fun _ => jsonParse text
  let v ← Exec.read fun s => (s.heap.ofJson json).2
  onHeap .alloc fun h => (h.ofJson json).1
  pure v

/-! ### The HTTP response object and the HTTP client -/

/-- `http_is_response_object`, for a data value. -/
def isResponseObject (d : ℕ) : Prog ω Bool :=
  Exec.read fun s => (dataGet (s.heap.data d) (txt "__is_response__")).isSome

/-- `value_data_get(obj, "__headers")`, as a data value. -/
def responseHeaders (d : ℕ) : Prog ω ℕ :=
  Exec.readSome fun s => match dataGet (s.heap.data d) (txt "__headers") with
    | some (.data headers) => some headers
    | _ => none

/-- `http_response_call_method`. -/
def httpResponseCallMethod (n d : ℕ) (method : Text) (argv : List Value) :
    Prog ω (Option Value) :=
  if method = txt "send" then do
    let s ← displayOf n (argv.headD (.string []))
    valueDataSet d (txt "__body") (.string s)
    pure (some (.data d))
  else if method = txt "json" then do
    let s ← (match argv with
      | v :: _ => stringify n v
      | [] => pure (txt "\x7b\x7d") : Prog ω Text)
    valueDataSet d (txt "__body") (.string s)
    let headers ← responseHeaders d
    valueDataSet headers (txt "Content-Type") (.string (txt "application/json"))
    pure (some (.data d))
  else if method = txt "status" then do
    let code := match argv with
      | v :: _ => longOfDouble (Heap.asNumber v)
      | [] => 200
    valueDataSet d (txt "__status") (.num code)
    pure (some (.data d))
  else if method = txt "header" then
    match argv with
    | .string key :: v :: _ => do
      let headers ← responseHeaders d
      let s ← displayOf n v
      valueDataSet headers key (.string s)
      pure (some (.data d))
    | _ => pure (some (.data d))
  else pure none

/-- `do_request`; the reply's headers are set one after the other. -/
def doRequest [Host ω] (method url : Text) (body : Option Text) : Prog ω Value := do
  let reply ← fromWorld (Host.httpRequest method url body)
  match reply with
  | .error message => taskError message
  | .ok reply => do
    let headers ← newData
      (reply.headers.foldl (fun d e => dataSet d e.1 (.string e.2)) [])
    let result ← newData [(txt "body", .string reply.body), (txt "headers", .data headers),
      (txt "status", .num reply.status)]
    taskDone (.data result)

/-! ### The socket object -/

/-- `ws_conn_call_method`, for the connection at `p`. -/
def wsConnCallMethod [Host ω] (n p : ℕ) (fd : ℤ) (onMessage onClose : Option Value) (closed : Bool)
    (method : Text) (argv : List Value) : Prog ω (Option Value) :=
  if method = txt "on" then
    match argv with
    | .string event :: f :: _ =>
      if event = txt "message" then do
        setNative p (.socketConn fd (some f) onClose closed)
        pure (some .void)
      else if event = txt "close" then do
        setNative p (.socketConn fd onMessage (some f) closed)
        pure (some .void)
      else pure (some .void)
    | _ => pure (some .void)
  else if method = txt "send" then
    match argv with
    | v :: _ =>
      if closed then pure (some .void)
      else do
        let s ← displayOf n v
        onWorld (Host.wsWriteFrame fd 1 s)
        pure (some .void)
    | [] => pure (some .void)
  else if method = txt "close" then
    if closed then pure (some .void)
    else do
      onWorld (Host.wsWriteFrame fd 8 [])
      setNative p (.socketConn fd onMessage onClose true)
      pure (some .void)
  else pure none

end Natives

end Jaguar
