/-
Values and memory (`value.h`, `value.c`, `native.h`).

The memory is divided by the type of what is allocated, and a pointer is the index of its
allocation: nothing is moved, and of all that is freed only list nodes are ever looked at
again. A scalar value is never written to after it is made, so it is kept as it is.

An `Env` is its own frame and the frames of its ancestors, which `env_new` fixes once and
for all; the entries of a frame stand newest first.

* `envFind`, `envGet`, `envIsFixed` — `env_find` and what is built on it;
* `envFind_spec` — **the entry found is the newest of its name in the nearest frame that
  has one**;
* `isTruthy`, `asNumber`, `valueEqual`, `displayString`, `toJson` — reading values.
-/
import Jaguar.Ast
import Jaguar.DataList
import Jaguar.Json

namespace Jaguar


/-- An environment: its frame, its parent's, and so on. -/
abbrev Env := List ℕ

inductive Value
  | num (n : ℤ)
  | decimal (d : Float)
  | scifi (d : Float)
  | bool (b : Bool)
  | string (s : Text)
  | list (l : ℕ)
  | data (d : ℕ)
  | func (f : ℕ)
  | void
  | native (p : ℕ)
  | cls (c : ℕ)
  | inst (i : ℕ)

structure EnvEntry where
  name : Text
  value : Value
  isFixed : Bool

structure ListNode where
  item : Value
  next : Option ℕ
  freed : Bool

structure FuncValue where
  params : List Param
  body : Stmt
  closure : Env
  isAsync : Bool
  name : Text

structure ClassInfo where
  name : Text
  parentName : Option Text
  parent : Option ℕ
  members : List Stmt
  closure : Env

structure Instance where
  classInfo : ℕ
  fields : ℕ

/-- A job on its own thread: the function it calls, and its result once it is done. -/
structure Worker where
  func : Option Value
  result : Option Value
  threadId : ℤ

/-- The number of threads, the jobs that still wait for one, how many are running, and the
results so far. -/
structure Pool where
  threads : ℕ
  queue : List Value
  running : ℕ
  results : List Value

inductive Native
  | task (result : Except Text Value)
  | worker (w : Worker)
  | workerPool (p : Pool)
  | socketConn (fd : ℤ) (onMessage onClose : Option Value) (closed : Bool)
  | superRef (parentClass : ℕ) (thisInstance : Value)

structure Heap where
  frames : List (List EnvEntry)
  lists : List (Option ℕ)
  nodes : List ListNode
  datas : List (DataList Value)
  funcs : List FuncValue
  classes : List ClassInfo
  instances : List Instance
  natives : List Native

namespace Heap

/-! ### Environments -/

def frame (h : Heap) (f : ℕ) : List EnvEntry := h.frames.getD f []

/-- The first entry of a name, with its place. -/
def frameFind (entries : List EnvEntry) (name : Text) : Option (ℕ × EnvEntry) :=
  match entries with
  | [] => none
  | e :: rest => if e.name = name then some (0, e) else (frameFind rest name).map (Prod.map (· + 1) id)

/-- `env_find`. -/
def envFind (h : Heap) (env : Env) (name : Text) : Option (ℕ × ℕ × EnvEntry) :=
  match env with
  | [] => none
  | f :: parent =>
    match frameFind (h.frame f) name with
    | some (i, e) => some (f, i, e)
    | none => h.envFind parent name

/-- `env_get`. -/
def envGet (h : Heap) (env : Env) (name : Text) : Option Value :=
  (h.envFind env name).map fun p => p.2.2.value

/-- `env_is_fixed`. -/
def envIsFixed (h : Heap) (env : Env) (name : Text) : Bool :=
  match h.envFind env name with
  | some (_, _, e) => e.isFixed
  | none => false

/-- A frame with nothing in it. -/
def newFrame (h : Heap) : Heap := { h with frames := h.frames ++ [[]] }

/-- The entry goes to the front. -/
def define (h : Heap) (f : ℕ) (e : EnvEntry) : Heap :=
  { h with frames := h.frames.modify f (e :: ·) }

/-- `e->value = value`, for the entry at `i`. -/
def setVar (h : Heap) (f : ℕ) (i : ℕ) (v : Value) : Heap :=
  { h with frames := h.frames.modify f fun es => es.modify i fun e => { e with value := v } }

theorem frame_define {h : Heap} {f : ℕ} (hf : f < h.frames.length) (e : EnvEntry) (g : ℕ) :
    (h.define f e).frame g = if g = f then e :: h.frame f else h.frame g := by
  unfold frame define
  rw [List.getD_eq_getElem?_getD, List.getElem?_modify]
  by_cases hg : g = f
  · subst hg
    simp [List.getElem?_eq_getElem hf, List.getD_eq_getElem?_getD]
  · simp [hg, Ne.symm hg, List.getD_eq_getElem?_getD]

theorem frameFind_eq_some {entries : List EnvEntry} {name : Text} {i : ℕ} {e : EnvEntry}
    (h : frameFind entries name = some (i, e)) :
    entries[i]? = some e ∧ e.name = name ∧ ∀ j < i, ∀ e', entries[j]? = some e' → e'.name ≠ name := by
  induction entries generalizing i with
  | nil => cases h
  | cons d rest ih =>
    rw [frameFind] at h
    split_ifs at h with hname
    · obtain ⟨rfl, rfl⟩ := Prod.mk.inj (Option.some.inj h)
      exact ⟨rfl, hname, fun j hj => absurd hj (Nat.not_lt_zero j)⟩
    · obtain ⟨⟨k, e'⟩, hk, heq⟩ := Option.map_eq_some_iff.mp h
      obtain ⟨rfl, rfl⟩ := Prod.mk.inj heq
      obtain ⟨hget, hn, hbefore⟩ := ih hk
      refine ⟨hget, hn, fun j hj e'' he'' => ?_⟩
      cases j with
      | zero =>
        obtain rfl := Option.some.inj he''
        exact hname
      | succ j => exact hbefore j (Nat.lt_of_succ_lt_succ hj) e'' he''

theorem frameFind_eq_none {entries : List EnvEntry} {name : Text} :
    frameFind entries name = none ↔ ∀ e ∈ entries, e.name ≠ name := by
  induction entries with
  | nil => simp [frameFind]
  | cons d rest ih =>
    rw [frameFind]
    by_cases hname : d.name = name
    · simp [hname]
    · simp [hname, ih]

/-- **Lexical scoping.** -/
theorem envFind_spec {h : Heap} {env : Env} {name : Text} {f : ℕ} {i : ℕ} {e : EnvEntry}
    (hfind : h.envFind env name = some (f, i, e)) :
    (∃ inner outer, env = inner ++ f :: outer ∧
      ∀ g ∈ inner, ∀ e' ∈ h.frame g, e'.name ≠ name) ∧
    (h.frame f)[i]? = some e ∧ e.name = name ∧
    ∀ j < i, ∀ e', (h.frame f)[j]? = some e' → e'.name ≠ name := by
  induction env with
  | nil => cases hfind
  | cons g parent ih =>
    rw [envFind] at hfind
    split at hfind
    · next k e' hk =>
      obtain ⟨rfl, hk', rfl⟩ := Option.some.inj hfind
      exact ⟨⟨[], parent, rfl, nofun⟩, frameFind_eq_some hk⟩
    · next hnone =>
      obtain ⟨⟨inner, outer, rfl, hinner⟩, hentry⟩ := ih hfind
      refine ⟨⟨g :: inner, outer, rfl, fun g' hg' => ?_⟩, hentry⟩
      rcases List.mem_cons.mp hg' with rfl | hg'
      · exact frameFind_eq_none.mp hnone
      · exact hinner g' hg'

/-! ### Lists -/

/-- `list->as.list`. -/
def listHead (h : Heap) (l : ℕ) : Option ℕ := h.lists.getD l none

/-- The items from a node on, if at most `n` nodes follow. -/
def itemsFrom (h : Heap) : ℕ → Option ℕ → Option (List Value)
  | _, none => some []
  | 0, some _ => none
  | n + 1, some p =>
    match h.nodes[p]? with
    | none => none
    | some node => (h.itemsFrom n node.next).map (node.item :: ·)

/-- The last of the nodes from `p` on. -/
def lastNode (h : Heap) : ℕ → ℕ → Option ℕ
  | 0, _ => none
  | n + 1, p =>
    match h.nodes[p]? with
    | none => none
    | some node =>
      match node.next with
      | none => some p
      | some q => h.lastNode n q

def setHead (h : Heap) (l : ℕ) (p : Option ℕ) : Heap :=
  { h with lists := h.lists.set l p }

def setNext (h : Heap) (p : ℕ) (q : Option ℕ) : Heap :=
  { h with nodes := h.nodes.modify p fun node => { node with next := q } }

def setItem (h : Heap) (p : ℕ) (v : Value) : Heap :=
  { h with nodes := h.nodes.modify p fun node => { node with item := v } }

def freeNode (h : Heap) (p : ℕ) : Heap :=
  { h with nodes := h.nodes.modify p fun node => { node with freed := true } }

def newNode (h : Heap) (item : Value) (next : Option ℕ) : Heap :=
  { h with nodes := h.nodes ++ [⟨item, next, false⟩] }

/-- `value_list_append`. -/
def listAppend (n : ℕ) (h : Heap) (l : ℕ) (item : Value) : Option Heap :=
  let p := h.nodes.length
  match h.listHead l with
  | none => some ((h.newNode item none).setHead l (some p))
  | some first => (h.lastNode n first).map fun last => (h.newNode item none).setNext last (some p)

/-- `value_list_insert_front`. -/
def listInsertFront (h : Heap) (l : ℕ) (item : Value) : Heap :=
  (h.newNode item (h.listHead l)).setHead l (some h.nodes.length)

/-- The loop of `.delete(idx)`, at the node `cur` with `i` nodes before it. -/
def listDelete (h : Heap) (l : ℕ) (idx : ℤ) : ℕ → Option ℕ → Option ℕ → ℤ →
    Option Heap
  | _, _, none, _ => some h
  | 0, _, some _, _ => none
  | n + 1, prev, some cur, i =>
    match h.nodes[cur]? with
    | none => none
    | some node =>
      if i = idx then
        let h := match prev with
          | some q => h.setNext q node.next
          | none => h.setHead l node.next
        some (h.freeNode cur)
      else h.listDelete l idx n (some cur) node.next (i + 1)

/-- The node at an index. -/
def nodeAt (h : Heap) (idx : ℤ) : ℕ → Option ℕ → ℤ → Option (Option ℕ)
  | _, none, _ => some none
  | 0, some _, _ => none
  | n + 1, some p, k =>
    match h.nodes[p]? with
    | none => none
    | some node => if k = idx then some (some p) else h.nodeAt idx n node.next (k + 1)

/-- A list of new nodes for these items. -/
def newNodes (h : Heap) (l : ℕ) (items : List Value) : Heap :=
  let first := h.nodes.length
  let nodes := items.mapIdx fun i v =>
    (⟨v, if i + 1 = items.length then none else some (first + i + 1), false⟩ : ListNode)
  { h with nodes := h.nodes ++ nodes }.setHead l (if items = [] then none else some first)

/-! ### Other allocations -/

def data (h : Heap) (d : ℕ) : DataList Value := h.datas.getD d []

/-- `value_data_set`. -/
def dataSet (h : Heap) (d : ℕ) (key : Text) (v : Value) : Heap :=
  { h with datas := h.datas.modify d (Jaguar.dataSet · key v) }

theorem data_dataSet (h : Heap) {d : ℕ} (hd : d < h.datas.length) (key : Text) (v : Value)
    (d' : ℕ) :
    (h.dataSet d key v).data d'
      = if d' = d then Jaguar.dataSet (h.data d) key v else h.data d' := by
  unfold data dataSet
  rw [List.getD_eq_getElem?_getD, List.getElem?_modify]
  by_cases heq : d' = d
  · subst heq
    simp [List.getElem?_eq_getElem hd, List.getD_eq_getElem?_getD]
  · simp [heq, Ne.symm heq, List.getD_eq_getElem?_getD]

/-! ### Reading values -/

/-- `value_as_number`. -/
def asNumber (v : Value) : Float :=
  match v with
  | .num n => doubleOfLong n
  | .decimal d => d
  | .scifi d => d
  | .bool b => doubleOfLong (if b then 1 else 0)
  | _ => doubleOfLong 0

/-- `value_truthy`. -/
def isTruthy (h : Heap) (v : Value) : Bool :=
  match v with
  | .bool b => b
  | .num n => n ≠ 0
  | .decimal d => !(d == doubleOfLong 0)
  | .scifi d => !(d == doubleOfLong 0)
  | .string s => (cStr s) ≠ []
  | .void => false
  | .list l => (h.listHead l).isSome
  | .data d => !(h.data d).isEmpty
  | _ => true

/-- `is_numericish`. -/
def isNumericish (v : Value) : Bool :=
  match v with
  | .num _ | .decimal _ | .scifi _ | .bool _ => true
  | _ => false

/-- `value_equal`; what is not a scalar is compared by its address. -/
def valueEqual (a b : Value) : Bool :=
  match a, b with
  | .string s, .string t => s = t
  | .void, .void => true
  | .list l, .list m => l = m
  | .data d, .data e => d = e
  | .func f, .func g => f = g
  | .native p, .native q => p = q
  | .cls c, .cls d => c = d
  | .inst i, .inst j => i = j
  | _, _ => isNumericish a && isNumericish b && asNumber a == asNumber b

/-- `value_to_display_string`, for values nested at most `n` deep. -/
def displayString (h : Heap) : ℕ → Value → Option Text
  | 0, _ => none
  | n + 1, v =>
    match v with
    | .string s => some s
    | .num k => some (intText k)
    | .decimal d => some (formatG d)
    | .scifi d => some (formatG d)
    | .bool b => some (if b then txt "true" else txt "false")
    | .void => some (txt "void")
    | .func _ => some (txt "<function>")
    | .cls c =>
      (h.classes[c]?).map fun ci => (txt "<class " ++ ci.name ++ txt ">").take 255
    | .inst i => do
      let inst ← h.instances[i]?
      let ci ← h.classes[inst.classInfo]?
      let fields ← h.displayString n (.data inst.fields)
      some (ci.name ++ 32 :: fields)
    | .list l => do
      let items ← h.itemsFrom n (h.listHead l)
      let texts ← items.mapM (h.displayString n)
      some (91 :: ((txt ", ").intercalate texts ++ [93]))
    | .data d => do
      let texts ← (h.data d).mapM fun e => do
        let text ← h.displayString n e.2
        some (34 :: (e.1 ++ txt "\": " ++ text))
      some (123 :: ((txt ", ").intercalate texts ++ [125]))
    | .native _ => some (txt "<native>")

/-- A value as `json_stringify` sees it. -/
def toJson (h : Heap) : ℕ → Value → Option JsonVal
  | 0, _ => none
  | n + 1, v =>
    match v with
    | .string s => some (.string s)
    | .num k => some (.num k)
    | .decimal d => some (.decimal d)
    | .scifi d => some (.scifi d)
    | .bool b => some (.bool b)
    | .void => some .void
    | .list l => do
      let items ← h.itemsFrom n (h.listHead l)
      (items.mapM (h.toJson n)).map .list
    | .data d => do
      let entries ← (h.data d).mapM fun e => (h.toJson n e.2).map (e.1, ·)
      some (.data entries)
    | _ => some .other

end Heap

end Jaguar
