/-
`t op= e`.

The target is evaluated to read the element, and once more to write it: `get_lvalue_current`
and `set_lvalue` each evaluate its object and its index.

* `evalPlace`, `newValue`, `storeAt` — the parts of an augmented assignment;
* `assignOnce` — the assignment that evaluates its target once;
* `onceLaw_of_onlyReads` — **the assignment is this one**, and writes the element that it has read,
  if the object and the index only read and the right-hand side leaves alone what they read;
* `append_in_index_twice` — `xs[xs.append(7)] += 1`.
-/
import Jaguar.HeapLists
import Jaguar.PlainExprs

namespace Jaguar

/-! ### Places -/

/-- What is read and written: the item of a node, or the value of a key. -/
inductive Element
  | node (p : ℕ)
  | entry (d : ℕ) (key : Text)

/-- An index expression or a member. -/
def IsPlace (target : Expr) : Prop :=
  match target with
  | .index .. | .member .. => True
  | _ => False

/-- The element of a target whose object and index have these values. -/
def elementAt (h : Heap) (target : Expr) (obj idx : Value) : Option Element :=
  match target, obj with
  | .index .., .list l =>
    (h.nodeAt (longOfDouble (Heap.asNumber idx)) h.nodes.length (h.listHead l) 0).join.map .node
  | .index .., .data d => some (.entry d (safeStr idx))
  | .member _ _ name, .data d => some (.entry d name)
  | .member _ _ name, .inst i => (h.instances[i]?).map fun inst => .entry inst.fields name
  | _, _ => none

section Parts

variable {ω : Type} (R : Evaluator ω) (n : ℕ)

/-- The values of the object and of the index of a target. -/
def evalPlace (target : Expr) (env : Env) : Prog ω (Value × Value) :=
  match target with
  | .index _ object index => do
    let obj ← R.evalExpr object env
    let idx ← R.evalExpr index env
    pure (obj, idx)
  | .member _ object _ => do
    let obj ← R.evalExpr object env
    pure (obj, .void)
  | _ => pure (.void, .void)

/-- The last part of `E_INDEX` and `E_MEMBER`. -/
def readAt (target : Expr) (obj idx : Value) : Prog ω Value :=
  match target with
  | .index line _ _ => evalIndex obj idx line
  | .member line _ name => unlessError .void (evalMember obj name line)
  | _ => pure .void

/-- The last part of `set_lvalue`. -/
def storeAt (target : Expr) (obj idx v : Value) (line : ℕ) : Prog ω Unit :=
  match target with
  | .index .. =>
    match obj with
    | .list l => do
      let node ← listNodeAt l (longOfDouble (Heap.asNumber idx))
      match node with
      | some p => onHeap (.setItem p) fun h => h.setItem p v
      | none => rtError line (txt "list index out of range")
    | .data d => valueDataSet d (safeStr idx) v
    | _ => rtError line (txt "value is not assignable by index")
  | .member _ _ name =>
    match obj with
    | .data d => valueDataSet d name v
    | .inst i => do
      let inst ← instanceOf i
      valueDataSet inst.fields name v
    | _ => rtError line (txt "cannot assign member '" ++ name ++ txt "' on this value")
  | _ => pure ()

/-- What is done before the element is written: it is read, `e` is evaluated, and the
operator. -/
def newValue [Host ω] (target value : Expr) (op : TokenType) (env : Env) (line : ℕ) :
    Prog ω Value := do
  let cur ← R.evalExpr target env
  let rhs ← R.evalExpr value env
  evalBinary n (binaryOf op) cur rhs line

variable {R} {target : Expr} {env : Env}

theorem setLvalue_eq (h : IsPlace target) (v : Value) (line : ℕ) :
    setLvalue R target v env line
      = evalPlace R target env >>= fun p => storeAt target p.1 p.2 v line := by
  cases target <;> cases h
  all_goals
    simp only [setLvalue, evalPlace, Exec.bind_assoc]
    rfl

theorem evalAssign_eq [Host ω] {op : TokenType} (hop : op ≠ .assign) (h : IsPlace target)
    (value : Expr) (line : ℕ) :
    evalAssign R n target value op env line
      = newValue R n target value op env line >>= fun v =>
        evalPlace R target env >>= fun p => storeAt target p.1 p.2 v line >>= fun _ => pure v := by
  unfold evalAssign newValue
  rw [if_neg hop]
  simp only [setLvalue_eq h, Exec.bind_assoc]

/-- `get_lvalue_current`, when no error is pending. -/
theorem evalExpr_place [Host ω] (h : IsPlace target) {s : Machine ω}
    (hs : s.it.hadRuntimeError = false) :
    (evaluator (n + 1)).evalExpr target env s
      = (evalPlace (evaluator n) target env >>= fun p => readAt target p.1 p.2) s := by
  have hguard : ∀ m : Prog ω Value, unlessError .void m s = m s := by
    intro m
    show (Exec.read _ >>= _ : Prog ω Value) s = _
    rw [Exec.bind_of_some (show (Exec.read (fun s : Machine ω => s.it.hadRuntimeError) s).value
      = some false from congrArg some hs)]
    rfl
  show Jaguar.evalExpr (evaluator n) n target env s = _
  unfold Jaguar.evalExpr
  rw [hguard]
  cases target <;> cases h
  all_goals
    simp only [evalPlace, Exec.bind_assoc]
    rfl

end Parts

/-! ### The law -/

section Once

variable {ω : Type} [Host ω] (n : ℕ) (target value : Expr) (op : TokenType) (env : Env) (line : ℕ)
  (s : Machine ω)

/-- `E_ASSIGN` for an augmented assignment, down to the depth `n + 1`. -/
def augmentedAssign : Prog ω Value :=
  evalAssign (evaluator (n + 1)) (n + 1) target value op env line

/-- What it does before the element is written. -/
def beforeWrite : Prog ω Value := newValue (evaluator (n + 1)) (n + 1) target value op env line

/-- The same from the value of the object and of the index on. -/
def newValueAt (obj idx : Value) : Prog ω Value := do
  let cur ← readAt target obj idx
  let rhs ← (evaluator (n + 1)).evalExpr value env
  evalBinary (n + 1) (binaryOf op) cur rhs line

/-- `t op= e` with the object and the index of the target evaluated once: the element they denote
is read, and in the end it is written. -/
def assignOnce : Prog ω Value := do
  let p ← evalPlace (evaluator n) target env
  let newval ← newValueAt n target value op env line p.1 p.2
  storeAt target p.1 p.2 newval line
  pure newval

/-- The object and the index of the target are evaluated once. Unless an error is pending when the
element is to be written, the assignment does, step for step, what the one that evaluates them once
does, and the element that is written is the one that was read. Otherwise it does nothing more than
raise errors. -/
structure OnceLaw : Prop where
  once : (beforeWrite n target value op env line s).state.it.hadRuntimeError = false →
    augmentedAssign n target value op env line s = assignOnce n target value op env line s
  element : ∀ obj idx s₀ newval s₁,
    (evalPlace (evaluator n) target env s).ends = (some (obj, idx), s₀) →
    (beforeWrite n target value op env line s).ends = (some newval, s₁) →
    s₁.it.hadRuntimeError = false →
    elementAt s₁.heap target obj idx = elementAt s₀.heap target obj idx
  failed : (beforeWrite n target value op env line s).state.it.hadRuntimeError = true →
    ∃ raised, (augmentedAssign n target value op env line s).steps
        = (beforeWrite n target value op env line s).steps ++ raised ∧
      ∀ st ∈ raised, st.label = .raise

/-- The target is an index expression or a member whose object and index only read, and the
right-hand side leaves alone what they read. -/
structure OnlyReads : Prop where
  place : IsPlace target
  reads : ∃ X, target.Plain X False ∧
    LeavesAlone X env s.heap ((evaluator (n + 1)).evalExpr value env s).state.heap

variable {n target value op env line s}

omit [Host ω] in
theorem bind_eq_of_eq {α β : Type} {m m' : Prog ω α} (f : α → Prog ω β) (h : m s = m' s) :
    (m >>= f) s = (m' >>= f) s := by
  show Exec.bind m f s = Exec.bind m' f s
  unfold Exec.bind
  rw [h]

theorem beforeWrite_eq (htarget : IsPlace target) (hs : s.it.hadRuntimeError = false) :
    beforeWrite n target value op env line s
      = (evalPlace (evaluator n) target env >>= fun p =>
          newValueAt n target value op env line p.1 p.2) s := by
  refine (bind_eq_of_eq _ (evalExpr_place n htarget hs)).trans ?_
  rw [Exec.bind_assoc]
  rfl

theorem chained_evalPlace (R : ℕ) (target : Expr) (env : Env) (s : Machine ω) :
    Exec.Chained s (evalPlace (evaluator R) target env s).steps
      (evalPlace (evaluator R) target env s).state := by
  have heval : ∀ e, Confined 0 ((evaluator R : Evaluator ω).evalExpr e env) := fun e =>
    (Evaluator.confined 0 R).evalExpr e env fun _ _ => Nat.zero_le _
  have hplace : Confined 0 (evalPlace (evaluator R : Evaluator ω) target env) := by
    cases target
    case index line object index =>
      exact (heval object).bind fun _ => (heval index).bind fun _ => confined_pure _
    case member line object name => exact (heval object).bind fun _ => confined_pure _
    all_goals exact confined_pure _
  exact (hplace s (Nat.zero_le _)).chained

/-- The object and the index, evaluated again. -/
theorem repeats_evalPlace {X : Text → Prop} {s' : Machine ω} (hs : SameReads X env s s')
    (hplain : target.Plain X False) {n' : ℕ} (hn : n ≤ n') :
    Repeats s s' (evalPlace (evaluator n) target env) (evalPlace (evaluator n') target env)
      fun p => Seen s s' p.1 := by
  cases target
  case index line object index =>
    exact (repeats_evalExpr hs hn hplain.1).evalExpr_bind fun _ hobj =>
      (repeats_evalExpr hs hn hplain.2).evalExpr_bind fun _ _ => repeats_pure hobj
  case member line object name =>
    exact (repeats_evalExpr hs hn (e := object) hplain).evalExpr_bind fun _ hobj =>
      repeats_pure hobj
  all_goals exact repeats_pure (Heap.sameFrom_of_scalar rfl)

/-- What has happened when the element is to be written and no error is pending: the target was
read, without a step, and the right-hand side was evaluated. -/
theorem beforeWrite_clear (htarget : IsPlace target) {X : Text → Prop}
    (hplain : target.Plain X False) (hs : s.it.hadRuntimeError = false) {newval : Value}
    (hvalue : (beforeWrite n target value op env line s).value = some newval)
    (hclear : (beforeWrite n target value op env line s).state.it.hadRuntimeError = false) :
    ∃ p cur, evalPlace (evaluator n) target env s = ⟨[], s, some p⟩ ∧
      (readAt target p.1 p.2 s).value = some cur ∧
      (beforeWrite n target value op env line s).state
        = ((evaluator (n + 1)).evalExpr value env s).state := by
  obtain ⟨cur, hcur, hrest, hrun⟩ := Exec.exists_of_bind hvalue
  obtain ⟨rhs, hrhs, hop, hrun'⟩ := Exec.exists_of_bind hrest
  rw [show (beforeWrite n target value op env line s).state = _ from
    congrArg Exec.Outcome.state hrun, show _ = _ from congrArg Exec.Outcome.state hrun'] at hclear ⊢
  have hbinary := (raising_evalBinary (n + 1) (binaryOf op) cur rhs line).silent hclear
  rw [hbinary.2] at hclear ⊢
  -- an error of the target would still be pending
  have hread := raising_evalExpr (ω := ω) (n + 1) hplain env
  have hreadClear :
      ((evaluator (n + 1)).evalExpr target env s).state.it.hadRuntimeError = false := by
    by_contra hpending
    have hpending := Bool.eq_true_of_not_eq_false hpending
    rw [evalExpr_pending n value env hpending] at hclear
    exact absurd (hpending.symm.trans hclear) Bool.noConfusion
  obtain ⟨hsteps, hstate⟩ := hread.silent hreadClear
  rw [evalExpr_place n htarget hs] at hcur hsteps
  obtain ⟨p, hp, hcur, hrun⟩ := Exec.exists_of_bind hcur
  have hplace := (List.append_eq_nil_iff.mp
    ((congrArg Exec.Outcome.steps hrun).symm.trans hsteps)).1
  have hplaceState := state_of_silent (chained_evalPlace n target env s) hplace
  rw [hplaceState] at hcur
  refine ⟨p, cur, ?_, hcur, by rw [hstate]⟩
  rw [← hplace, ← hp]
  exact congrArg (Exec.Outcome.mk _ · _) hplaceState

omit [Host ω] in
/-- The element that was read is the one that the same object and index denote later on. -/
theorem elementAt_same {s' : Machine ω} {X : Text → Prop} (hs : SameReads X env s s')
    {obj idx cur : Value} (hobj : Seen s s' obj)
    (hread : (readAt target obj idx s).value = some cur) :
    elementAt s'.heap target obj idx = elementAt s.heap target obj idx := by
  cases target
  case index line object index =>
    cases obj
    case list l =>
      obtain ⟨found, hfound, -⟩ := Exec.exists_of_bind
        (show ((listNodeAt l (longOfDouble (Heap.asNumber idx)) >>= _ : Prog ω Value) s).value
          = some cur from hread)
      obtain ⟨hhead, hnodes⟩ := Heap.SameFrom.listHead hobj
      have hfound : s.heap.nodeAt (longOfDouble (Heap.asNumber idx)) s.heap.nodes.length
        (s.heap.listHead l) 0 = some found := hfound
      have hsame := (Heap.nodeAt_same hs.nodes hnodes hfound).1
      show (s'.heap.nodeAt _ _ _ _).join.map _ = (s.heap.nodeAt _ _ _ _).join.map _
      rw [hhead, hfound, hsame]
    all_goals rfl
  case member line object name =>
    cases obj
    case inst i => exact congrArg (Option.map _) (Heap.SameFrom.inst hobj).1
    all_goals rfl
  all_goals rfl

/-- With an error pending the assignment goes on to raise another. -/
theorem finish_pending (n line : ℕ) (env : Env) (htarget : IsPlace target)
    (hs : s.it.hadRuntimeError = true) (newval : Value) :
    ∃ s', (evalPlace (evaluator (n + 1)) target env >>= fun p =>
      storeAt target p.1 p.2 newval line >>= fun _ => pure newval : Prog ω Value) s
        = ⟨[⟨.raise, s, s'⟩], s', some newval⟩ := by
  have hskip := fun e => evalExpr_pending (ω := ω) n e env hs
  have hplace : evalPlace (evaluator (n + 1)) target env s = ⟨[], s, some (.void, .void)⟩ := by
    cases target <;> cases htarget
    case index line object index =>
      rw [evalPlace, bind_of_silent (hskip object), bind_of_silent (hskip index)]
      rfl
    case member line object name =>
      rw [evalPlace, bind_of_silent (hskip object)]
      rfl
  rw [bind_of_silent hplace]
  cases target <;> cases htarget
  all_goals exact ⟨_, rfl⟩

/-- **The target is evaluated once**, for all that happens, if it only reads and the right-hand side
leaves alone what it reads. -/
theorem onceLaw_of_onlyReads (hop : op ≠ .assign) (hs : s.it.hadRuntimeError = false)
    (honly : OnlyReads n target value env s) : OnceLaw n target value op env line s := by
  obtain ⟨htarget, X, hplain, hleaves⟩ := honly
  have hassign : augmentedAssign (ω := ω) n target value op env line
      = beforeWrite n target value op env line >>= fun v => evalPlace (evaluator (n + 1)) target env
        >>= fun p => storeAt target p.1 p.2 v line >>= fun _ => pure v :=
    evalAssign_eq (n + 1) hop htarget value line
  have hreads : ∀ {newval}, (beforeWrite n target value op env line s).value = some newval →
      (beforeWrite n target value op env line s).state.it.hadRuntimeError = false →
      SameReads X env s (beforeWrite n target value op env line s).state := by
    intro newval hvalue hclear
    obtain ⟨p, cur, -, -, hstate⟩ := beforeWrite_clear htarget hplain hs hvalue hclear
    rw [hstate] at hclear ⊢
    exact ⟨hs, hclear, length_nodes_evalExpr (n + 1) value env s, hleaves⟩
  refine ⟨fun hclear => ?_, ?_, fun hpending => ?_⟩
  · have hbefore : beforeWrite n target value op env line s = _ := beforeWrite_eq htarget hs
    rw [hassign, bind_eq_of_eq _ hbefore, Exec.bind_assoc, assignOnce]
    refine Exec.bind_congr fun p hp => Exec.bind_congr fun v hv => ?_
    -- the target is evaluated again in the state behind the operator, where it gives the same
    have hall := hbefore.trans (Exec.bind_of_some hp)
    have hvalue : (beforeWrite n target value op env line s).value = some v :=
      (congrArg Exec.Outcome.value hall).trans hv
    have hstate := congrArg Exec.Outcome.state hall
    obtain ⟨p', cur, hp', -, -⟩ := beforeWrite_clear htarget hplain hs hvalue hclear
    obtain rfl : p' = p := Option.some.inj ((congrArg Exec.Outcome.value hp').symm.trans hp)
    have hagain := (repeats_evalPlace (hreads hvalue hclear) hplain (Nat.le_succ n) _ hp').1
    rw [hstate] at hagain
    exact bind_of_silent hagain
  · intro obj idx s₀ newval s₁ hplace hbefore hclear
    obtain ⟨hvalue, rfl⟩ := Prod.mk.inj hbefore
    obtain ⟨p, cur, hp, hread, -⟩ := beforeWrite_clear htarget hplain hs hvalue hclear
    rw [hp] at hplace
    obtain ⟨heq, rfl⟩ := Prod.mk.inj hplace
    obtain rfl := Option.some.inj heq
    have hsame := hreads hvalue hclear
    exact elementAt_same hsame
      (repeats_evalPlace hsame hplain (Nat.le_refl n) _ hp).2 hread
  · rw [hassign]
    cases hvalue : (beforeWrite n target value op env line s).value with
    | none =>
      refine ⟨[], ?_, fun st hst => absurd hst List.not_mem_nil⟩
      rw [Exec.bind_of_none hvalue, List.append_nil]
    | some newval =>
      obtain ⟨s', hfinish⟩ := finish_pending n line env htarget hpending newval
      rw [Exec.bind_of_some hvalue]
      refine ⟨_, congrArg (_ ++ ·) (congrArg Exec.Outcome.steps hfinish), fun st hst => ?_⟩
      obtain rfl := List.mem_singleton.mp hst
      rfl

/-- A right-hand side that only reads leaves everything alone. -/
theorem onlyReads_of_plain {X Y : Text → Prop} (htarget : IsPlace target)
    (hplain : target.Plain X False) (hvalue : value.Plain Y False) :
    OnlyReads n target value env s := by
  refine ⟨htarget, X, hplain, ?_⟩
  rw [(raising_evalExpr (n + 1) hvalue env).heap]
  exact LeavesAlone.refl X env s.heap

end Once

/-- `xs[xs[0] - 1]` -/
def nestedIndex : Expr :=
  .index 1 (.ident 1 (txt "xs"))
    (.binary 1 (.index 1 (.ident 1 (txt "xs")) (.num 1 0)) (.num 1 1) .minus)

/-- `xs[xs[0] - 1] += (k = 2)`, with `xs` the list `[1]`: the right-hand side writes to a variable
that the target does not mention. -/
theorem onceLaw_of_onlyReads_nested : @OnceLaw Unit silentHost 4 nestedIndex
    (.assign 1 (.ident 1 (txt "k")) (.num 1 2) .assign) .plusEq [0] 1 listOfOne := by
  have hplain : nestedIndex.Plain (· = txt "xs") False := by simp [nestedIndex, Expr.Plain]
  refine @onceLaw_of_onlyReads Unit silentHost 4 _ _ _ _ _ _ (by decide) (by decide +kernel)
    (@OnlyReads.mk Unit silentHost _ _ _ _ _ trivial ⟨_, hplain, ?_⟩)
  have hheap : ((@evaluator Unit silentHost 5).evalExpr
      (.assign 1 (.ident 1 (txt "k")) (.num 1 2) .assign) [0] listOfOne).state.heap
        = { listOfOne.heap with
          frames := [[⟨txt "k", .num 2, false⟩, ⟨txt "xs", .list 0, false⟩]] } := rfl
  constructor
  · rintro name rfl
    rfl
  · intro name _ v _
    rw [hheap]
    exact Heap.sameFrom_of_frames _ _ v

/-- `xs[xs.append(7)]` -/
def appendInIndex : Expr :=
  .index 1 (.ident 1 (txt "xs"))
    (.call 1 (.member 1 (.ident 1 (txt "xs")) (txt "append")) [.num 1 7])

/-- **`xs[xs.append(7)] += 1`** appends twice. -/
theorem append_in_index_twice : ¬ ∀ (n : ℕ) (target value : Expr) (op : TokenType) (env : Env)
    (line : ℕ) (s : Machine Unit), op ≠ .assign → IsPlace target → s.it.hadRuntimeError = false →
    @OnceLaw Unit silentHost n target value op env line s := by
  intro h
  have hlaw := h 4 appendInIndex (.num 1 1) .plusEq [0] 1 listOfOne (by decide) trivial rfl
  have hclear : (@beforeWrite Unit silentHost 4 appendInIndex (.num 1 1) .plusEq [0] 1
      listOfOne).state.it.hadRuntimeError = false := by decide +kernel
  have hsteps := congrArg (fun o => o.steps.length)
    (@OnceLaw.once Unit silentHost _ _ _ _ _ _ _ hlaw hclear)
  have htwice : (@augmentedAssign Unit silentHost 4 appendInIndex (.num 1 1) .plusEq [0] 1
      listOfOne).steps.length = 3 := by decide +kernel
  have honce : (@assignOnce Unit silentHost 4 appendInIndex (.num 1 1) .plusEq [0] 1
      listOfOne).steps.length = 2 := by decide +kernel
  exact absurd (htwice.symm.trans (hsteps.trans honce)) (by decide)

end Jaguar
