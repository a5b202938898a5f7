/-
Runs of the interpreter that is stopped at faults.

The proof follows the functions of the interpreter one by one, as the definition of a fault
does; what holds of the calls one level down is the induction hypothesis.

* `Evaluator.Heeds` — what is asked of the calls one level down;
* `builtins_heeds`, `callNative_heeds`, … — function by function;
* `watched_heeds` — **of every run of the interpreter**.
-/
import Jaguar.WatchRules

set_option linter.unusedSectionVars false

namespace Jaguar

/-- The calls one level down. -/
structure Evaluator.Heeds {ω : Type} (φ : Fault) (R' R : Evaluator ω) : Prop where
  evalExpr : ∀ e env, Jaguar.Heeds φ Always (R'.evalExpr e env) (R.evalExpr e env)
  execStmt : ∀ s env, Jaguar.Heeds φ Always (R'.execStmt s env) (R.execStmt s env)

section Interp

variable {ω : Type} {φ : Fault} {R' R : Evaluator ω} (hR : R'.Heeds φ R) (n : ℕ)
  {pre : Machine ω → Prop} {env : Env}

include hR

/-! ### Blocks and calls -/

theorem execStmts_heeds (list : List Stmt) :
    Heeds φ Always (execStmts R' list env) (execStmts R list env) := by
  induction list with
  | nil => exact heeds_pure _
  | cons s rest ih =>
    refine (hR.execStmt s env).bind fun r => ?_
    cases r with
    | ret v => exact heeds_pure _
    | none => exact ih.any.unlessError

theorem execBlock_heeds (list : List Stmt) (parentEnv : Env) :
    Heeds φ Always (execBlock R' list parentEnv) (execBlock R list parentEnv) :=
  (heeds_envNew _).bind fun _ => (heeds_hoist _ _).bind fun _ => execStmts_heeds hR list

theorem evalArgs_heeds (args : List Expr) :
    Heeds φ Always (evalArgs R' args env) (evalArgs R args env) := by
  induction args with
  | nil => exact heeds_pure _
  | cons a args ih => exact (hR.evalExpr a env).bind fun v => ih.bind fun vs => heeds_pure _

theorem argOr_heeds {dflt : Prog ω Value} (hdflt : Heeds φ Always dflt dflt) (args : List Expr) :
    Heeds φ Always (argOr R' dflt args env) (argOr R dflt args env) := by
  cases args with
  | nil => exact hdflt
  | cons a args => exact hR.evalExpr a env

theorem bindArgs_heeds (params : List Param) (args : List Expr) (callEnv : Env) :
    Heeds φ Always (bindArgs R' params args env callEnv) (bindArgs R params args env callEnv) := by
  induction params generalizing args with
  | nil => exact heeds_pure _
  | cons p params ih =>
    exact (argOr_heeds hR (heeds_pure _) args).bind fun v =>
      (heeds_envDefine _ _ _ _).bind fun _ => ih args.tail

theorem callValue_heeds (callee : Value) (args : List Expr) (line : ℕ) :
    Heeds φ Calm (callValue R' callee args env line) (callValue R callee args env line) := by
  unfold callValue
  split
  · refine (heeds_readSome _).bind fun fv => (heeds_envNew _).bind fun callEnv => ?_
    exact (bindArgs_heeds hR _ _ _).bind fun _ => (execBlock_heeds hR _ _).bind fun r => heeds_pure _
  · exact heeds_fail (fun s hs => raisesNow_of_calm hs) _ _

/-- A callback. -/
theorem invokeRooted_heeds {root : FuncValue → Prog ω Env}
    (hroot : ∀ fv, Heeds φ Always (root fv) (root fv)) (callee : Value) (argv : List Value) :
    Heeds φ (Free (invokeFault φ callee)) (invokeRooted R' root callee argv)
      (invokeRooted R root callee argv) := by
  have hother : callee.isFunc = false → ∀ line msg, Heeds φ (Free (invokeFault φ callee))
      (fail line msg : Prog ω Value) (fail line msg) := by
    intro hfunc line msg
    refine heeds_fail (fun s hs => ?_) _ _
    have hfault : (raisesNow φ s && !callee.isFunc) = false := hs
    rwa [hfunc, Bool.not_false, Bool.and_true] at hfault
  cases callee with
  | func f =>
    refine (heeds_readSome _).bind fun fv => (hroot fv).bind fun parent => ?_
    refine (heeds_envNew _).bind fun callEnv => (heeds_bindParams _ _ _).bind fun _ => ?_
    exact (execBlock_heeds hR _ _).bind fun r => heeds_pure _
  | _ => exact hother rfl _ _

theorem interpInvoke_heeds (callee : Value) (argv : List Value) :
    Heeds φ (Free (invokeFault φ callee)) (interpInvoke R' callee argv)
      (interpInvoke R callee argv) :=
  invokeRooted_heeds hR (fun _ => heeds_read _) callee argv

theorem interpInvokeClosure_heeds (callee : Value) (argv : List Value) :
    Heeds φ (Free (invokeFault φ callee)) (interpInvokeClosure R' callee argv)
      (interpInvokeClosure R callee argv) :=
  invokeRooted_heeds hR (fun _ => heeds_pure _) callee argv

/-! ### Classes -/

theorem evalInit_heeds (init : Option Expr) :
    Heeds φ Always (evalInit R'.evalExpr init env) (evalInit R.evalExpr init env) := by
  cases init with
  | none => exact heeds_pure _
  | some e => exact hR.evalExpr e env

theorem initFields_heeds (members : List Stmt) (fields : ℕ) :
    Heeds φ (Free (initFault φ R members env fields))
      (initFields R'.evalExpr members env fields) (initFields R.evalExpr members env fields) := by
  induction members with
  | nil => exact heeds_pure _
  | cons s members ih =>
    cases s with
    | varDecl line name type init isFixed =>
      exact (evalInit_heeds hR init).past fun v =>
        (heeds_valueDataSet (fun s hs => hs) name v).both fun _ => ih
    | _ => exact ih

theorem initFieldsRecursive_heeds (c fields : ℕ) :
    Heeds φ (Free (fieldsFault φ R n c fields))
      (initFieldsRecursive R'.evalExpr n c fields)
      (initFieldsRecursive R.evalExpr n c fields) := by
  induction n generalizing c with
  | zero => exact heeds_giveUp
  | succ n ih =>
    refine (heeds_readSome _).past fun ci => ?_
    have hown : Heeds φ (Free (past (envNew ci.closure) fun env =>
        initFault φ R ci.members env fields)) (do
          let env ← envNew ci.closure
          initFields R'.evalExpr ci.members env fields) (do
          let env ← envNew ci.closure
          initFields R.evalExpr ci.members env fields) :=
      (heeds_envNew _).past fun env => initFields_heeds hR _ _
    cases ci.parent with
    | none => exact hown
    | some p => exact (ih p).both fun _ => hown

omit hR in
theorem heeds_bindSuper (parent : Option ℕ) (this : Value) (callEnv : Env) :
    Heeds φ pre (bindSuper parent this callEnv : Prog ω Unit) (bindSuper parent this callEnv) := by
  cases parent with
  | none => exact heeds_pure _
  | some p => exact (heeds_newNative _).bind fun _ => heeds_envDefine _ _ _ _

theorem invokeMethod_heeds (definingClass : ℕ) (method : Stmt) (this : Value)
    (argv : List Value) : Heeds φ Always (invokeMethod R' definingClass method this argv)
      (invokeMethod R definingClass method this argv) := by
  refine (heeds_readSome _).bind fun ci => (heeds_envNew _).bind fun callEnv => ?_
  refine (heeds_envDefine _ _ _ _).bind fun _ => (heeds_bindSuper _ _ _).bind fun _ => ?_
  exact (heeds_bindParams _ _ _).bind fun _ => (execBlock_heeds hR _ _).bind fun r => heeds_pure _

theorem constructInstance_heeds (c : ℕ) (args : List Expr) :
    Heeds φ (Free (past (newData []) fun fields => fieldsFault φ R n c fields))
      (constructInstance R' n c args env) (constructInstance R n c args env) := by
  refine (heeds_newData _).past fun fields => (initFieldsRecursive_heeds hR n c _).bind fun _ => ?_
  refine (heeds_newInstance _).bind fun i => (heeds_readSome _).bind fun ctor => ?_
  cases ctor with
  | none => exact heeds_pure _
  | some p =>
    exact (evalArgs_heeds hR args).bind fun argv =>
      (invokeMethod_heeds hR _ _ _ _).bind fun _ => heeds_pure _

theorem evalNew_heeds (className : Text) (args : List Expr) (line : ℕ) :
    Heeds φ (fun s => Calm s ∧ Free (newFault φ R n className env) s)
      (evalNew R' n className args env line) (evalNew R n className args env line) := by
  refine heeds_read_bind fun cls => ?_
  split
  · next c =>
    refine (constructInstance_heeds hR n c args).weaken fun s hs => ?_
    exact past_eq_false (m := envGet env className) hs.1.2 (congrArg some hs.2)
  · exact heeds_fail (fun s hs => raisesNow_of_calm hs.1.1) _ _

/-! ### Lists -/

omit hR in
theorem idle_of_fault {s : Machine ω} {b : Bool} (h : (φ.isWrites && s.pending && b) = false)
    (hb : b = true) : Idle φ s := by
  rwa [hb, Bool.and_true] at h

omit hR in
/-- Two tables of programs for the same names. -/
def HeedsTable {α : Type} (φ : Fault) (pre : Text → Machine ω → Prop)
    (table' table : List (Text × Prog ω α)) : Prop :=
  List.Forall₂ (fun p' p => p'.1 = p.1 ∧ Heeds φ (pre p.1) p'.2 p.2) table' table

section Table

variable {α : Type} {pre : Text → Machine ω → Prop} {table' table : List (Text × Prog ω α)}

omit hR

theorem heedsTable_cons {name : Text} {m' m : Prog ω α} (h : Heeds φ (pre name) m' m)
    (htable : HeedsTable φ pre table' table) :
    HeedsTable φ pre ((name, m') :: table') ((name, m) :: table) :=
  .cons ⟨rfl, h⟩ htable

theorem HeedsTable.weaken {pre' : Text → Machine ω → Prop} (h : HeedsTable φ pre' table' table)
    (hpre : ∀ name s, pre name s → pre' name s) : HeedsTable φ pre table' table :=
  List.Forall₂.imp (fun _ p hp => ⟨hp.1, hp.2.weaken (hpre p.1)⟩) h

/-- What is looked up. -/
theorem HeedsTable.lookup (h : HeedsTable φ pre table' table) (name : Text) :
    (table'.lookup name = none ∧ table.lookup name = none) ∨
      ∃ m' m, table'.lookup name = some m' ∧ table.lookup name = some m ∧
        Heeds φ (pre name) m' m := by
  induction h with
  | nil => exact .inl ⟨rfl, rfl⟩
  | @cons p' p table' table hp _ ih =>
    obtain ⟨name', m'⟩ := p'
    obtain ⟨name'', m⟩ := p
    obtain ⟨hname, hm⟩ := hp
    obtain rfl : name' = name'' := hname
    rw [List.lookup_cons, List.lookup_cons]
    cases hfound : name == name' with
    | true =>
      obtain rfl := eq_of_beq hfound
      exact .inr ⟨m', m, rfl, rfl, hm⟩
    | false => exact ih

end Table

theorem listMethods_heeds (l : ℕ) (args : List Expr) :
    HeedsTable φ (fun name s => Calm s ∧ Free (listMethodFault φ R l name args env) s)
      (listMethods R' n l args env) (listMethods R n l args env) := by
  have hsort : Heeds φ Calm
      (do
        let items ← listItems l
        setItems l (sortItems items.length items) : Prog ω Unit)
      (do
        let items ← listItems l
        setItems l (sortItems items.length items)) :=
    heeds_readSome_bind fun items => heeds_setItems (fun s hs => hs.1.idle) _
  cases args with
  | nil =>
    have hpure : ∀ pre, Heeds φ pre (pure () : Prog ω Unit) (pure ()) := fun _ => heeds_pure _
    exact heedsTable_cons (hpure _) (heedsTable_cons (hpure _) (heedsTable_cons (hpure _)
      (heedsTable_cons (hsort.weaken fun s hs => hs.1) (heedsTable_cons (hpure _) .nil))))
  | cons a args =>
    -- past the argument
    have harg : ∀ (name : Text) {f' f : Value → Prog ω Unit},
        (∀ v, Heeds φ (Free fun s => φ.isWrites && s.pending && listMethodWrites s.heap l name v)
          (f' v) (f v)) →
        Heeds φ (fun s => Calm s ∧ Free (listMethodFault φ R l name (a :: args) env) s)
          (R'.evalExpr a env >>= f') (R.evalExpr a env >>= f) :=
      fun name f' f hf => ((hR.evalExpr a env).past hf).weaken fun s hs => hs.2
    refine heedsTable_cons (harg _ fun v => ?_) (heedsTable_cons (harg _ fun v => ?_)
      (heedsTable_cons (harg _ fun v => ?_) (heedsTable_cons (hsort.weaken fun s hs => hs.1)
        (heedsTable_cons (harg _ fun v => ?_) .nil))))
    · exact (writesOnly_valueListAppend l v).heeds.weaken fun s hs =>
        idle_of_fault hs (if_pos (.inl rfl))
    · exact heeds_insertFront (fun s hs => idle_of_fault hs (if_pos (.inr rfl))) v
    · refine heeds_listDeleteAt fun s hs hpending p hnode => ?_
      have hfault : (φ.isWrites && s.pending && listMethodWrites s.heap l (txt "delete") v) = false :=
        hs
      have hwrites : listMethodWrites s.heap l (txt "delete") v = true := by
        unfold listMethodWrites
        rw [if_neg (by decide), if_pos rfl, hnode]
      rw [hpending, hwrites] at hfault
      cases hfault
    · cases v with
      | list m =>
        have hwrites : ∀ h : Heap,
            listMethodWrites h l (txt "concat") (.list m) = (h.listHead m).isSome := by
          intro h
          unfold listMethodWrites
          rw [if_neg (by decide), if_neg (by decide), if_pos rfl]
        refine heeds_read_bind fun head => ?_
        cases head with
        | none =>
          cases n <;> exact heeds_pure _
        | some p =>
          refine (writesOnly_concatFrom l n _).heeds.weaken fun s hs => ?_
          refine idle_of_fault hs.1 ?_
          rw [hwrites, show s.heap.listHead m = some p from hs.2]
          rfl
      | _ => exact heeds_pure _

theorem callListMethod_heeds (l : ℕ) (name : Text) (args : List Expr) (line : ℕ) :
    Heeds φ (fun s => Calm s ∧ Free (listMethodFault φ R l name args env) s)
      (callListMethod R' n l name args env line) (callListMethod R n l name args env line) := by
  unfold callListMethod
  rcases (listMethods_heeds hR n l args).lookup name with ⟨h', h⟩ | ⟨m', m, h', h, hm⟩
  · rw [h', h]
    exact heeds_fail (fun s hs => raisesNow_of_calm hs.1) _ _
  · rw [h', h]
    exact hm.bind fun _ => heeds_pure _

/-! ### Workers -/

variable [Host ω]

omit hR in
theorem heeds_yieldLock : Heeds φ pre (yieldLock : Prog ω Unit) yieldLock :=
  (heeds_fromWorld _).bind fun _ => heeds_ite (fun _ => heeds_pure _) fun _ => heeds_giveUp

theorem runWorker_heeds (p : ℕ) (w : Worker) :
    Heeds φ (Free (runWorkerFault φ w)) (runWorker R' p w) (runWorker R p w) :=
  (interpInvoke_heeds hR _ _).bind fun _ => (heeds_fromWorld _).bind fun _ =>
    (heeds_setNative _ _).bind fun _ => heeds_pure _

theorem workerSpawnFunc_heeds (fn : Option Value) :
    Heeds φ (Free (spawnFault φ fn)) (workerSpawnFunc R' fn) (workerSpawnFunc R fn) := by
  refine (heeds_newNative _).past fun p => (heeds_fromWorld _).past fun now => ?_
  refine heeds_free_ite (fun _ => ?_) fun _ => heeds_pure _
  exact (runWorker_heeds hR _ _).bind fun _ => heeds_pure _

theorem workerResult_heeds (p : ℕ) (w : Worker) :
    Heeds φ (Free (waitFault φ w)) (workerResult R' p w) (workerResult R p w) := by
  unfold workerResult waitFault
  cases w.result with
  | some result => exact heeds_pure _
  | none => exact heeds_yieldLock.past fun _ => runWorker_heeds hR _ _

theorem workerHandleJoin_heeds (p : ℕ) (w : Worker) :
    Heeds φ (Free (joinFault φ R p w)) (workerHandleJoin R' p w) (workerHandleJoin R p w) := by
  refine (workerResult_heeds hR p w).both fun result => heeds_readSome_bind fun threadId => ?_
  exact (heeds_tagThread (fun s hs => hs.1) threadId).bind fun _ => heeds_pure _

omit hR in
theorem heeds_workerRunFile (path : Text) :
    Heeds φ pre (workerRunFile path : Prog ω Value) (workerRunFile path) :=
  heeds_yieldLock.bind fun _ => (heeds_onWorld _).bind fun _ => (heeds_fromWorld _).bind fun _ =>
    (heeds_newData _).bind fun _ => heeds_pure _

omit hR in
/-- A job is taken from the queue, and then it runs. -/
theorem runJob_eq (R : Evaluator ω) (p : ℕ) : runJob R p = (do
    let job ← takeJob p
    let result ← interpInvoke R job []
    let threadId ← fromWorld Host.threadId
    tagThread result threadId
    let pool ← poolOf p
    setNative p (.workerPool
      { pool with running := pool.running - 1, results := pool.results ++ [result] })) := by
  unfold runJob takeJob
  simp only [Exec.bind_assoc, Exec.pure_bind]

omit hR in
theorem heeds_takeJob (p : ℕ) : Heeds φ pre (takeJob p : Prog ω Value) (takeJob p) :=
  (heeds_readSome _).bind fun _ => (heeds_fromWorld _).bind fun _ => (heeds_readSome _).bind fun _ =>
    (heeds_setNative _ _).bind fun _ => heeds_pure _

theorem runJob_heeds (p : ℕ) :
    Heeds φ (Free (jobFault φ R p)) (runJob R' p) (runJob R p) := by
  rw [runJob_eq, runJob_eq]
  refine (heeds_takeJob p).past fun job => (interpInvoke_heeds hR job []).both fun result => ?_
  refine (heeds_fromWorld _).past fun threadId => ?_
  exact (heeds_tagThread (fun s hs => hs) threadId).bind fun _ =>
    (heeds_readSome _).bind fun _ => heeds_setNative _ _

omit hR in
theorem workerPoolSubmit_eq (R : Evaluator ω) (p : ℕ) (fn : Value) :
    workerPoolSubmit R p fn = (do
      let now ← enqueue p fn
      if now then runJob R p else pure ()) := by
  unfold workerPoolSubmit enqueue
  simp only [Exec.bind_assoc]

omit hR in
theorem heeds_enqueue (p : ℕ) (fn : Value) :
    Heeds φ pre (enqueue p fn : Prog ω Bool) (enqueue p fn) :=
  (heeds_readSome _).bind fun _ => (heeds_setNative _ _).bind fun _ => heeds_fromWorld _

theorem workerPoolSubmit_heeds (p : ℕ) (fn : Value) :
    Heeds φ (Free (submitFault φ R p fn)) (workerPoolSubmit R' p fn) (workerPoolSubmit R p fn) := by
  rw [workerPoolSubmit_eq, workerPoolSubmit_eq]
  refine (heeds_enqueue p fn).past fun now => ?_
  exact heeds_free_ite (fun _ => runJob_heeds hR p) fun _ => heeds_pure _

theorem runJobs_heeds (p : ℕ) :
    Heeds φ (Free (jobsFault φ R p n)) (runJobs R' p n) (runJobs R p n) := by
  induction n with
  | zero => exact heeds_giveUp
  | succ n ih =>
    refine (heeds_readSome _).past fun pool => ?_
    refine heeds_free_ite (fun _ => heeds_pure _) fun _ => ?_
    exact heeds_yieldLock.past fun _ => (runJob_heeds hR p).both fun _ => ih

theorem workerPoolWaitAll_heeds (p : ℕ) :
    Heeds φ (Free (jobsFault φ R p n)) (workerPoolWaitAll R' n p) (workerPoolWaitAll R n p) :=
  (runJobs_heeds hR n p).bind fun _ => (heeds_readSome _).bind fun _ =>
    (heeds_newList _).bind fun _ => (heeds_setNative _ _).bind fun _ => heeds_pure _

/-! ### Built-in namespaces -/

theorem liveDeg_heeds (expect : Text) (idx : ℕ) (args : List Expr) :
    Heeds φ Always (liveDeg R' expect idx args env) (liveDeg R expect idx args env) := by
  induction args generalizing idx with
  | nil => exact heeds_pure _
  | cons a args ih =>
    exact (hR.evalExpr a env).bind fun v => (heeds_onWorld _).bind fun _ => ih _

theorem liveTimer_heeds (method : Text) (args : List Expr) (line : ℕ) :
    Heeds φ Calm (liveTimer R' method args env line) (liveTimer R method args env line) := by
  unfold liveTimer
  split
  · exact (hR.evalExpr _ env).any.bind fun _ => (hR.evalExpr _ env).bind fun _ =>
      (heeds_fromWorld _).bind fun _ => heeds_pure _
  · exact heeds_fail (fun s hs => raisesNow_of_calm hs) _ _

omit hR [Host ω] in
theorem Heeds.thenVoid {m' m : Prog ω Unit} (h : Heeds φ pre m' m) :
    Heeds φ pre (thenVoid m') (thenVoid m) :=
  h.bind fun _ => heeds_pure _

theorem liveBuiltins_heeds (args : List Expr) (line : ℕ) :
    HeedsTable φ (fun _ => Calm) (liveBuiltins R' n args env line)
      (liveBuiltins R n args env line) := by
  have htimer : ∀ method, Heeds φ Calm (liveTimer R' method args env line)
      (liveTimer R method args env line) := fun method => liveTimer_heeds hR method args line
  unfold liveBuiltins
  refine heedsTable_cons ?_ (heedsTable_cons ?_ (heedsTable_cons ?_ (heedsTable_cons (htimer _)
    (heedsTable_cons (htimer _) (heedsTable_cons ?_ .nil)))))
  · refine (argOr_heeds hR (heeds_pure _) args).any.bind fun v => Heeds.unlessError ?_
    exact (heeds_readSome _).bind fun _ => (heeds_onWorld _).bind fun _ => heeds_pure _
  · refine Heeds.bind ?_ fun _ => (heeds_fromWorld _).bind fun _ => heeds_pure _
    cases args with
    | nil => exact heeds_pure _
    | cons a args =>
      exact (hR.evalExpr a env).any.bind fun _ => (heeds_readSome _).bind fun _ => heeds_onWorld _
  · cases args with
    | nil => exact heeds_fail (fun s hs => raisesNow_of_calm hs) _ _
    | cons a args =>
      exact (hR.evalExpr a env).any.bind fun _ => (liveDeg_heeds hR _ _ _).thenVoid
  · cases args with
    | nil => exact heeds_pure _
    | cons a args => exact (hR.evalExpr a env).any.bind fun _ => (heeds_onWorld _).thenVoid

/-- The functions of a namespace, where no error is pending and there is no fault. -/
def NamespaceHeeds (φ : Fault) (R : Evaluator ω) (ns : Text) (args : List Expr) (env : Env)
    (table' table : List (Text × Prog ω Value)) : Prop :=
  HeedsTable φ (fun name s => Calm s ∧ Free (builtinFault φ R ns name args env) s) table' table

omit hR in
theorem HeedsTable.namespaceHeeds {ns : Text} {args : List Expr}
    {table' table : List (Text × Prog ω Value)} (h : HeedsTable φ (fun _ => Calm) table' table) :
    NamespaceHeeds φ R ns args env table' table :=
  h.weaken fun _ _ hs => hs.1

theorem jsonBuiltins_heeds (args : List Expr) (line : ℕ) :
    NamespaceHeeds φ R (txt "json") args env (jsonBuiltins R' n args env line)
      (jsonBuiltins R n args env line) := by
  unfold jsonBuiltins
  refine heedsTable_cons ?_ (heedsTable_cons ?_ .nil)
  · have hparse : builtinFault φ R (txt "json") (txt "parse") args env =
        past (argOr R (pure (.string [])) args env) fun v s => raisesNow φ s && !isString v :=
      if_pos ⟨rfl, rfl⟩
    rw [hparse]
    refine Heeds.weaken ?_ fun s hs => hs.2
    refine (argOr_heeds hR (heeds_pure _) args).past fun v => ?_
    have hother : isString v = false → ∀ msg, Heeds φ
        (Free fun s => raisesNow φ s && !isString v) (fail line msg : Prog ω Value)
        (fail line msg) := by
      intro hstring msg
      refine heeds_fail (fun s hs => ?_) _ _
      have hfault : (raisesNow φ s && !isString v) = false := hs
      rwa [hstring, Bool.not_false, Bool.and_true] at hfault
    cases v with
    | string s => exact heeds_jsonParseText _
    | _ => exact hother rfl _
  · exact (argOr_heeds hR (heeds_pure _) args).any.bind fun v =>
      (heeds_readSome _).bind fun _ => heeds_pure _

theorem envBuiltins_heeds (args : List Expr) :
    HeedsTable φ (fun _ => Calm) (envBuiltins R' args env) (envBuiltins R args env) := by
  unfold envBuiltins
  refine heedsTable_cons ?_ .nil
  cases args with
  | nil => exact heeds_pure _
  | cons a args =>
    refine (hR.evalExpr a env).any.bind fun key => (heeds_read _).bind fun val => ?_
    cases val with
    | some val => exact heeds_pure _
    | none => exact argOr_heeds hR (heeds_pure _) args

omit hR in
theorem heeds_closeFile : Heeds φ pre (closeFile : Prog ω Unit) closeFile := by
  refine (heeds_read _).bind fun file => ?_
  cases file with
  | some f => exact heeds_onWorld _
  | none => exact heeds_pure _

theorem fileBuiltins_heeds (args : List Expr) (line : ℕ) :
    NamespaceHeeds φ R (txt "file") args env (fileBuiltins R' args env line)
      (fileBuiltins R args env line) := by
  unfold fileBuiltins
  refine heedsTable_cons ?_ (heedsTable_cons ?_ (heedsTable_cons (heeds_pure _)
    (heedsTable_cons ?_ .nil)))
  · have hon : builtinFault φ R (txt "file") (txt "on") args env = past closeFile fun _ =>
        past (argOr R (pure (.string [])) args env) fun path =>
          past (fromWorld (Host.fopen (safeStr path))) fun file s =>
            raisesNow φ s && file.isNone := by
      unfold builtinFault
      rw [if_neg (by decide), if_pos ⟨rfl, rfl⟩]
    rw [hon]
    refine Heeds.weaken ?_ fun s hs => hs.2
    refine heeds_closeFile.past fun _ => (argOr_heeds hR (heeds_pure _) args).past fun path => ?_
    -- the slot is set before the error is raised
    refine (heeds_fromWorld _).past fun file =>
      (heeds_setOpenFile file).bind_free (fun _ => rfl) fun _ => ?_
    cases file with
    | none => exact heeds_fail (fun s hs => (Bool.and_true _).symm.trans hs) _ _
    | some f => exact heeds_pure _
  · refine heeds_read_bind fun file => ?_
    cases file with
    | none =>
      exact (heeds_rtError (fun s hs => raisesNow_of_calm hs.1.1) _ _).bind fun _ => heeds_pure _
    | some f => exact (heeds_read _).bind fun _ => heeds_pure _
  · exact heeds_closeFile.bind fun _ => (heeds_setOpenFile _).bind fun _ => heeds_pure _

omit hR in
theorem heeds_dirRead : Heeds φ pre (dirRead : Prog ω Value) dirRead :=
  (heeds_read _).bind fun _ => (heeds_read _).bind fun _ => (heeds_newList _).bind fun _ =>
    heeds_pure _

theorem dirBuiltins_heeds (args : List Expr) :
    HeedsTable φ (fun _ => Calm) (dirBuiltins R' args env) (dirBuiltins R args env) := by
  unfold dirBuiltins
  refine heedsTable_cons ?_ (heedsTable_cons heeds_dirRead (heedsTable_cons heeds_dirRead
    (heedsTable_cons (heeds_pure _) (heedsTable_cons ?_ .nil))))
  · exact (argOr_heeds hR (heeds_pure _) args).any.bind fun _ =>
      (heeds_setOpenDirPath _).bind fun _ => heeds_pure _
  · refine (heeds_read _).bind fun path => ?_
    cases path with
    | some path => exact (heeds_onWorld _).thenVoid
    | none => exact heeds_pure _

theorem taskBuiltins_heeds (args : List Expr) :
    HeedsTable φ (fun _ => Calm) (taskBuiltins R' args env) (taskBuiltins R args env) := by
  have hempty : Heeds φ Always (emptyList : Prog ω Value) emptyList :=
    (heeds_newList _).bind fun _ => heeds_pure _
  exact heedsTable_cons ((argOr_heeds hR hempty args).any.bind fun _ => heeds_taskDone _) .nil

theorem httpBuiltins_heeds (args : List Expr) :
    HeedsTable φ (fun _ => Calm) (httpBuiltins R' n args env) (httpBuiltins R n args env) := by
  unfold httpBuiltins
  refine heedsTable_cons ?_ (heedsTable_cons ?_ .nil)
  · exact (argOr_heeds hR (heeds_pure _) args).any.bind fun _ => heeds_doRequest _ _ _
  · refine (argOr_heeds hR (heeds_pure _) args).any.bind fun url => ?_
    split
    · exact heeds_doRequest _ _ _
    · exact (hR.evalExpr _ env).bind fun _ => (heeds_readSome _).bind fun _ =>
        heeds_doRequest _ _ _

theorem serverBuiltins_heeds (args : List Expr) :
    HeedsTable φ (fun _ => Calm) (serverBuiltins R' args env) (serverBuiltins R args env) := by
  unfold serverBuiltins
  refine heedsTable_cons ?_ (heedsTable_cons ?_ (heedsTable_cons (heeds_onWorld _).thenVoid .nil))
  · exact (argOr_heeds hR (heeds_pure _) args).any.bind fun _ => (heeds_onWorld _).thenVoid
  · split
    · exact (hR.evalExpr _ env).any.bind fun _ => (hR.evalExpr _ env).bind fun _ =>
        (hR.evalExpr _ env).bind fun _ => (heeds_onWorld _).thenVoid
    · exact heeds_pure _

theorem socketBuiltins_heeds (args : List Expr) (line : ℕ) :
    HeedsTable φ (fun _ => Calm) (socketBuiltins R' args env line)
      (socketBuiltins R args env line) := by
  unfold socketBuiltins
  refine heedsTable_cons ?_ (heedsTable_cons ?_ (heedsTable_cons (heeds_onWorld _).thenVoid
    (heedsTable_cons (heeds_fail (fun s hs => raisesNow_of_calm hs) _ _) .nil)))
  · exact (argOr_heeds hR (heeds_pure _) args).any.bind fun _ => (heeds_onWorld _).thenVoid
  · split
    · exact (hR.evalExpr _ env).any.bind fun _ => (hR.evalExpr _ env).bind fun _ =>
        (heeds_onWorld _).thenVoid
    · exact heeds_pure _

theorem workerBuiltins_heeds (args : List Expr) :
    NamespaceHeeds φ R (txt "worker") args env (workerBuiltins R' args env)
      (workerBuiltins R args env) := by
  have hspawn : args = [] ∨ ∃ a rest, args = a :: rest ∧
      builtinFault φ R (txt "worker") (txt "spawn") args env =
        past (R.evalExpr a env) fun fn => spawnFault φ (some fn) := by
    cases args with
    | nil => exact .inl rfl
    | cons a rest =>
      refine .inr ⟨a, rest, rfl, ?_⟩
      unfold builtinFault
      rw [if_neg (by decide), if_neg (by decide), if_pos ⟨rfl, rfl⟩]
  have hrun : ∀ a b rest, args = a :: b :: rest →
      builtinFault φ R (txt "worker") (txt "run") args env =
        past (R.evalExpr a env) fun path => past (R.evalExpr b env) fun cb =>
          past (workerRunFile (safeStr path)) fun _ => invokeFault φ cb := by
    rintro a b rest rfl
    unfold builtinFault
    rw [if_neg (by decide), if_neg (by decide), if_neg (by decide), if_pos ⟨rfl, rfl⟩]
  unfold workerBuiltins
  refine heedsTable_cons ?_ (heedsTable_cons ?_ (heedsTable_cons ?_ .nil))
  · rcases hspawn with rfl | ⟨a, rest, rfl, hfault⟩
    · exact (workerSpawnFunc_heeds hR none).weaken fun s hs => hs.2
    · rw [hfault]
      exact ((hR.evalExpr a env).past fun fn => workerSpawnFunc_heeds hR (some fn)).weaken
        fun s hs => hs.2
  · split
    · next a b rest =>
      rw [hrun a b rest rfl]
      refine Heeds.weaken ?_ fun s hs => hs.2
      refine (hR.evalExpr a env).past fun path => (hR.evalExpr b env).past fun cb => ?_
      refine (heeds_workerRunFile _).past fun result => ?_
      exact (interpInvokeClosure_heeds hR cb _).bind fun _ => heeds_pure _
    · exact heeds_pure _
  · exact (argOr_heeds hR (heeds_pure _) args).any.bind fun _ =>
      (heeds_newNative _).bind fun _ => heeds_pure _

omit hR in
/-- One of two namespaces. -/
theorem namespaceHeeds_ite {ns ns' : Text} {args : List Expr}
    {table₁' table₁ table₂' table₂ : List (Text × Prog ω Value)}
    (h₁ : NamespaceHeeds φ R ns' args env table₁' table₁)
    (h₂ : NamespaceHeeds φ R ns args env table₂' table₂) :
    NamespaceHeeds φ R ns args env (if ns = ns' then table₁' else table₂')
      (if ns = ns' then table₁ else table₂) := by
  split
  · next heq => exact heq ▸ h₁
  · exact h₂

theorem builtins_heeds (ns : Text) (args : List Expr) (line : ℕ) :
    NamespaceHeeds φ R ns args env (builtins R' n ns args env line) (builtins R n ns args env line) :=
  namespaceHeeds_ite (liveBuiltins_heeds hR n args line).namespaceHeeds <|
  namespaceHeeds_ite (jsonBuiltins_heeds hR n args line) <|
  namespaceHeeds_ite (envBuiltins_heeds hR args).namespaceHeeds <|
  namespaceHeeds_ite (fileBuiltins_heeds hR args line) <|
  namespaceHeeds_ite (dirBuiltins_heeds hR args).namespaceHeeds <|
  namespaceHeeds_ite (taskBuiltins_heeds hR args).namespaceHeeds <|
  namespaceHeeds_ite (httpBuiltins_heeds hR n args).namespaceHeeds <|
  namespaceHeeds_ite (serverBuiltins_heeds hR args).namespaceHeeds <|
  namespaceHeeds_ite (socketBuiltins_heeds hR args line).namespaceHeeds <|
  namespaceHeeds_ite (workerBuiltins_heeds hR args) .nil

/-! ### Methods of native values -/

omit [Host ω] in
theorem callTask_heeds (p : ℕ) (result : Except Text Value) (name : Text) (argv : List Value)
    (line : ℕ) : Heeds φ (Free (taskFault φ result name argv)) (callTask R' p result name argv line)
      (callTask R p result name argv line) := by
  refine heeds_free_ite (fun _ => ?_) fun _ => heeds_free_ite (fun _ => ?_) fun _ =>
    heeds_free_ite (fun _ => ?_) fun _ => heeds_fail (fun s hs => hs) _ _
  · refine Heeds.bind ?_ fun _ => heeds_pure _
    cases result with
    | error e => exact heeds_pure _
    | ok v =>
      cases argv with
      | nil => exact heeds_pure _
      | cons f argv => exact (interpInvokeClosure_heeds hR f _).bind fun _ => heeds_pure _
  · refine Heeds.bind ?_ fun _ => heeds_pure _
    cases result with
    | ok v => exact heeds_pure _
    | error e =>
      cases argv with
      | nil => exact heeds_pure _
      | cons f argv => exact (interpInvokeClosure_heeds hR f _).bind fun _ => heeds_pure _
  · cases result with
    | ok v => exact heeds_pure _
    | error e => exact heeds_fail (fun s hs => hs) _ _

theorem callWorker_heeds (p : ℕ) (w : Worker) (name : Text) (argv : List Value) (line : ℕ) :
    Heeds φ (Free (workerFault φ R p w name argv)) (callWorker R' p w name argv line)
      (callWorker R p w name argv line) := by
  unfold callWorker workerFault
  cases doneCallback name argv with
  | some f =>
    refine (workerHandleJoin_heeds hR p w).both fun result => ?_
    exact (interpInvokeClosure_heeds hR f _).bind fun _ => heeds_pure _
  | none =>
    refine heeds_free_ite (fun _ => ?_) fun _ => heeds_fail (fun s hs => hs) _ _
    exact (workerHandleJoin_heeds hR p w).bind fun _ => heeds_pure _

theorem callWorkerPool_heeds (p : ℕ) (name : Text) (argv : List Value) (line : ℕ) :
    Heeds φ (Free (poolFault φ R n p name argv)) (callWorkerPool R' n p name argv line)
      (callWorkerPool R n p name argv line) := by
  cases argv with
  | nil => exact heeds_fail (fun s hs => hs) _ _
  | cons v argv =>
    refine heeds_free_ite (fun _ => ?_) fun _ => heeds_free_ite (fun _ => ?_) fun _ =>
      heeds_fail (fun s hs => hs) _ _
    · exact (workerPoolSubmit_heeds hR p v).thenVoid
    · refine (workerPoolWaitAll_heeds hR n p).both fun results => ?_
      exact (interpInvokeClosure_heeds hR v _).bind fun _ => heeds_pure _

omit hR [Host ω] in
/-- A method that is known: what it returns is a result. -/
def Answers (m : Prog ω (Option Value)) : Prop := ∀ s r, (m s).value = some r → r.isSome

omit hR [Host ω] in
theorem answers_pure (v : Value) : Answers (pure (some v) : Prog ω (Option Value)) := by
  intro s r hr
  obtain rfl := Option.some.inj hr
  rfl

omit hR [Host ω] in
theorem Answers.bind {α : Type} {m : Prog ω α} {f : α → Prog ω (Option Value)}
    (hf : ∀ a, Answers (f a)) : Answers (m >>= f) := by
  intro s r hr
  obtain ⟨a, -, hvalue, -⟩ := Exec.exists_of_bind hr
  exact hf a _ r hvalue

omit hR [Host ω] in
theorem Answers.orFail {m : Prog ω (Option Value)} (hm : Answers m) (h : Heeds φ pre m m)
    (line : ℕ) (msg : Text) : Heeds φ pre (orFail m line msg) (orFail m line msg) := by
  refine Exec.Stops.bind h ?_ fun r => (?_ : Heeds φ (fun _ => r.isSome = true) _ _)
  · exact fun s r _ hr => hm s r hr
  · cases r with
    | some v => exact heeds_pure v
    | none => exact heeds_fail (fun s hs => Bool.noConfusion hs) _ _

omit hR in
theorem answers_wsConnCallMethod {name : Text} (hname : name ∈ socketMethods) (n p : ℕ) (fd : ℤ)
    (onMessage onClose : Option Value) (closed : Bool) (argv : List Value) :
    Answers (wsConnCallMethod n p fd onMessage onClose closed name argv :
      Prog ω (Option Value)) := by
  unfold wsConnCallMethod
  split
  · split
    · split_ifs
      · exact Answers.bind fun _ => answers_pure _
      · exact Answers.bind fun _ => answers_pure _
      · exact answers_pure _
    · exact answers_pure _
  split
  · split
    · split_ifs
      · exact answers_pure _
      · exact Answers.bind fun _ => Answers.bind fun _ => answers_pure _
    · exact answers_pure _
  split
  · split_ifs
    · exact answers_pure _
    · exact Answers.bind fun _ => Answers.bind fun _ => answers_pure _
  · next hon hsend hclose =>
    have hnot : name ∉ socketMethods := by simp [socketMethods, hon, hsend, hclose]
    exact absurd hname hnot

omit hR in
/-- A method that no socket has. -/
theorem wsConnCallMethod_of_notMem {name : Text} (hname : name ∉ socketMethods) (n p : ℕ)
    (fd : ℤ) (onMessage onClose : Option Value) (closed : Bool) (argv : List Value) :
    (wsConnCallMethod n p fd onMessage onClose closed name argv : Prog ω (Option Value))
      = pure none := by
  simp only [socketMethods, List.map_cons, List.map_nil, List.mem_cons, List.not_mem_nil, or_false,
    not_or] at hname
  obtain ⟨hon, hsend, hclose⟩ := hname
  unfold wsConnCallMethod
  rw [if_neg hon, if_neg hsend, if_neg hclose]

omit hR in
theorem heeds_wsConnCallMethod (n p : ℕ) (fd : ℤ) (onMessage onClose : Option Value)
    (closed : Bool) (name : Text) (argv : List Value) :
    Heeds φ pre (wsConnCallMethod n p fd onMessage onClose closed name argv :
      Prog ω (Option Value)) (wsConnCallMethod n p fd onMessage onClose closed name argv) := by
  unfold wsConnCallMethod
  refine heeds_ite (fun _ => ?_) fun _ => heeds_ite (fun _ => ?_) fun _ =>
    heeds_ite (fun _ => ?_) fun _ => heeds_pure _
  · split
    · refine heeds_ite (fun _ => ?_) fun _ => heeds_ite (fun _ => ?_) fun _ => heeds_pure _
      · exact (heeds_setNative _ _).bind fun _ => heeds_pure _
      · exact (heeds_setNative _ _).bind fun _ => heeds_pure _
    · exact heeds_pure _
  · split
    · refine heeds_ite (fun _ => heeds_pure _) fun _ => ?_
      exact (heeds_readSome _).bind fun _ => (heeds_onWorld _).bind fun _ => heeds_pure _
    · exact heeds_pure _
  · refine heeds_ite (fun _ => heeds_pure _) fun _ => ?_
    exact (heeds_onWorld _).bind fun _ => (heeds_setNative _ _).bind fun _ => heeds_pure _

theorem callSuper_heeds (parentClass : ℕ) (this : Value) (name : Text) (argv : List Value)
    (line : ℕ) : Heeds φ (Free (past (findMethod n parentClass name) fun method =>
        if method.isSome then never else raisesNow φ))
      (callSuper R' n parentClass this name argv line)
      (callSuper R n parentClass this name argv line) := by
  refine (heeds_readSome _).past fun method => ?_
  cases method with
  | some q => exact (invokeMethod_heeds hR _ _ _ _).any
  | none => exact heeds_fail (fun s hs => hs) _ _

theorem callNative_heeds (p : ℕ) (name : Text) (args : List Expr) (line : ℕ) :
    Heeds φ (Free (nativeFault φ R n p name args env)) (callNative R' n p name args env line)
      (callNative R n p name args env line) := by
  refine (evalArgs_heeds hR args).past fun argv => (heeds_readSome _).past fun native => ?_
  cases native with
  | task result => exact callTask_heeds hR _ _ _ _ _
  | worker w => exact callWorker_heeds hR _ _ _ _ _
  | workerPool pool => exact callWorkerPool_heeds hR n _ _ _ _
  | socketConn fd onMessage onClose closed =>
    dsimp only
    split
    · next hname =>
      exact (answers_wsConnCallMethod (List.contains_iff_mem.mp hname) _ _ _ _ _ _ _).orFail
        (heeds_wsConnCallMethod _ _ _ _ _ _ _ _) _ _
    · next hname =>
      rw [wsConnCallMethod_of_notMem fun hmem => hname (List.contains_iff_mem.mpr hmem)]
      exact heeds_fail (fun s hs => hs) _ _
  | superRef parentClass this => exact callSuper_heeds hR n _ _ _ _ _

/-! ### Methods of values -/

omit [Host ω] in
theorem callInstance_heeds (i : ℕ) (name : Text) (args : List Expr) (line : ℕ) :
    Heeds φ Calm (callInstance R' n i name args env line) (callInstance R n i name args env line) := by
  refine heeds_readSome_bind fun inst => heeds_readSome_bind fun method => ?_
  cases method with
  | some q =>
    exact (evalArgs_heeds hR args).any.bind fun argv => invokeMethod_heeds hR _ _ _ _
  | none =>
    exact heeds_readSome_bind fun ci => heeds_fail (fun s hs => raisesNow_of_calm hs.1.1.1) _ _

omit hR [Host ω] in
theorem answers_httpResponse {name : Text} (hname : name ∈ responseMethods) (n d : ℕ)
    (argv : List Value) : Answers (httpResponseCallMethod n d name argv : Prog ω (Option Value)) := by
  unfold httpResponseCallMethod
  split
  · exact Answers.bind fun _ => Answers.bind fun _ => answers_pure _
  split
  · exact Answers.bind fun _ => Answers.bind fun _ => Answers.bind fun _ =>
      Answers.bind fun _ => answers_pure _
  split
  · exact Answers.bind fun _ => answers_pure _
  split
  · split
    · exact Answers.bind fun _ => Answers.bind fun _ => Answers.bind fun _ => answers_pure _
    · exact answers_pure _
  · next hsend hjson hstatus hheader =>
    have hnot : name ∉ responseMethods := by
      simp [responseMethods, hsend, hjson, hstatus, hheader]
    exact absurd hname hnot

omit hR [Host ω] in
/-- A method that no response object has. -/
theorem httpResponseCallMethod_of_notMem {name : Text} (hname : name ∉ responseMethods) (n d : ℕ)
    (argv : List Value) :
    (httpResponseCallMethod n d name argv : Prog ω (Option Value)) = pure none := by
  simp only [responseMethods, List.map_cons, List.map_nil, List.mem_cons, List.not_mem_nil,
    or_false, not_or] at hname
  obtain ⟨hsend, hjson, hstatus, hheader⟩ := hname
  unfold httpResponseCallMethod
  rw [if_neg hsend, if_neg hjson, if_neg hstatus, if_neg hheader]

omit hR [Host ω] in
theorem heeds_httpResponse {name : Text} (hname : name ∈ responseMethods) {argv : List Value}
    (hpre : ∀ s, pre s → (φ.isWrites && s.pending && responseWrites name argv) = false)
    (n d : ℕ) : Heeds φ pre (httpResponseCallMethod n d name argv : Prog ω (Option Value))
      (httpResponseCallMethod n d name argv) := by
  cases hwrites : responseWrites name argv with
  | true => exact (writesOnly_httpResponse n d name argv).heeds.weaken fun s hs =>
      idle_of_fault (hpre s hs) hwrites
  | false =>
    -- `.header` without a name and a value
    unfold responseWrites at hwrites
    split at hwrites
    · next hheader =>
      subst hheader
      unfold httpResponseCallMethod
      rw [if_neg (by decide), if_neg (by decide), if_neg (by decide), if_pos rfl]
      split
      · cases hwrites
      · exact heeds_pure _
    · rw [List.contains_iff_mem.mpr hname] at hwrites
      cases hwrites

omit [Host ω] in
theorem callResponse_heeds (d : ℕ) (name : Text) (args : List Expr) (line : ℕ) :
    Heeds φ (fun s => Calm s ∧ Free (responseFault φ R d name args env) s)
      (callResponse R' n d name args env line) (callResponse R n d name args env line) := by
  have hcall : Heeds φ (Free (past (evalArgs R args env) fun argv =>
      responseCallFault φ name argv)) (evalArgs R' args env >>= fun argv =>
        orFail (httpResponseCallMethod n d name argv) line
          (txt "unknown response method '." ++ name ++ txt "'")) (evalArgs R args env >>= fun argv =>
        orFail (httpResponseCallMethod n d name argv) line
          (txt "unknown response method '." ++ name ++ txt "'")) := by
    refine (evalArgs_heeds hR args).past fun argv => ?_
    by_cases hname : name ∈ responseMethods
    · refine (answers_httpResponse hname n d argv).orFail ?_ _ _
      refine heeds_httpResponse hname (fun s hs => ?_) n d
      cases φ with
      | raises => rfl
      | writes => exact hs
    · rw [httpResponseCallMethod_of_notMem hname]
      refine heeds_fail (fun s hs => ?_) _ _
      cases φ with
      | raises =>
        have hpending : (s.pending && !responseMethods.contains name) = false := hs
        have hnot : responseMethods.contains name = false :=
          Bool.eq_false_iff.mpr fun hmem => hname (List.contains_iff_mem.mp hmem)
        rwa [hnot, Bool.not_false, Bool.and_true] at hpending
      | writes => rfl
  refine heeds_read_bind fun isResponse => ?_
  cases isResponse with
  | false => exact heeds_fail (fun s hs => raisesNow_of_calm hs.1.1) _ _
  | true =>
    refine hcall.weaken fun s hs => ?_
    exact past_eq_false (m := isResponseObject d) hs.1.2 (congrArg some hs.2)

theorem callMethod_heeds (obj : Value) (name : Text) (args : List Expr) (line : ℕ) :
    Heeds φ (fun s => Calm s ∧ Free (methodFault φ R n obj name args env) s)
      (callMethod R' n obj name args env line) (callMethod R n obj name args env line) := by
  cases obj with
  | list l => exact callListMethod_heeds hR n l name args line
  | inst i => exact (callInstance_heeds hR n i name args line).weaken fun s hs => hs.1
  | data d => exact callResponse_heeds hR n d name args line
  | native p => exact (callNative_heeds hR n p name args line).weaken fun s hs => hs.2
  | _ => exact heeds_fail (fun s hs => raisesNow_of_calm hs.1) _ _

omit [Host ω] in
theorem callSuperCtor_heeds (parentClass : ℕ) (this : Value) (args : List Expr) :
    Heeds φ Always (callSuperCtor R' n parentClass this args env)
      (callSuperCtor R n parentClass this args env) := by
  refine (heeds_readSome _).bind fun ctor => ?_
  cases ctor with
  | some q => exact (evalArgs_heeds hR args).bind fun argv => invokeMethod_heeds hR _ _ _ _
  | none => exact heeds_pure _

omit [Host ω] in
theorem callFn_heeds (fn : Value) (args : List Expr) (line : ℕ) :
    Heeds φ Calm (callFn R' n fn args env line) (callFn R n fn args env line) := by
  unfold callFn
  split
  · refine heeds_readSome_bind fun native => ?_
    split
    · exact (callSuperCtor_heeds hR n _ _ _).any
    · exact (callValue_heeds hR _ _ _).weaken fun s hs => hs.1
  · exact callValue_heeds hR _ _ _

omit hR in
/-- The built-in function, if there is one, as a value. -/
def calleeAt (R : Evaluator ω) (n : ℕ) (object : Expr) (name : Text) (args : List Expr) (env : Env)
    (line : ℕ) (s : Machine ω) : Option (Prog ω Value) :=
  match object with
  | .ident _ ns =>
    if s.heap.isNamespace env ns then builtinDispatch R n ns name args env line else none
  | _ => none

omit hR in
theorem builtinCallee_eq (R : Evaluator ω) (n : ℕ) (object : Expr) (name : Text)
    (args : List Expr) (env : Env) (line : ℕ) (s : Machine ω) :
    builtinCallee R n object name args env line s
      = ⟨[], s, some (calleeAt R n object name args env line s)⟩ := by
  cases object with
  | ident line' ns =>
    unfold builtinCallee calleeAt
    dsimp only
    have hread : envGet env ns s = ⟨[], s, some (s.heap.envGet env ns)⟩ := rfl
    rw [bind_of_silent hread]
    by_cases hns : s.heap.isNamespace env ns = true
    · rw [if_pos hns, if_pos (Heap.isNamespace_iff.mp hns)]
      rfl
    · rw [if_neg hns, if_neg fun h => hns (Heap.isNamespace_iff.mpr h)]
      rfl
  | _ => rfl

omit hR in
/-- A built-in function is called. -/
theorem evalCall_of_callee {R : Evaluator ω} {object : Expr} {name : Text} {args : List Expr}
    {line : ℕ} {s : Machine ω} {m : Prog ω Value}
    (h : calleeAt R n object name args env line s = some m) (line' : ℕ) :
    evalCall R n (.member line' object name) args env line s = m s := by
  show (builtinCallee R n object name args env line >>= _) s = _
  rw [bind_of_silent (builtinCallee_eq R n object name args env line s), h]

omit hR in
/-- A method is called. -/
theorem evalCall_of_none {R : Evaluator ω} {object : Expr} {name : Text} {args : List Expr}
    {line : ℕ} {s : Machine ω} (h : calleeAt R n object name args env line s = none) (line' : ℕ) :
    evalCall R n (.member line' object name) args env line s = (R.evalExpr object env >>= fun obj =>
      unlessError .void (callMethod R n obj name args env line)) s := by
  show (builtinCallee R n object name args env line >>= _) s = _
  rw [bind_of_silent (builtinCallee_eq R n object name args env line s), h]

/-- The built-in function that is called heeds the faults; or there is none. -/
theorem calleeAt_heeds (object : Expr) (name : Text) (args : List Expr) (line : ℕ)
    (s : Machine ω) :
    (calleeAt R' n object name args env line s = none ∧
      calleeAt R n object name args env line s = none) ∨
    ∃ m' m, calleeAt R' n object name args env line s = some m' ∧
      calleeAt R n object name args env line s = some m ∧
      Heeds φ (fun t => t = s ∧ Calm t ∧ Free (namespaceFault φ R object name args env) t) m' m := by
  cases object with
  | ident line' ns =>
    unfold calleeAt
    dsimp only
    split
    · next hns =>
      rcases (builtins_heeds hR n ns args line).lookup name with ⟨h', h⟩ | ⟨m', m, h', h, hm⟩
      · exact .inl ⟨h', h⟩
      · refine .inr ⟨m', m, h', h, hm.weaken ?_⟩
        rintro t ⟨rfl, hcalm, hfree⟩
        have hfault : (t.heap.isNamespace env ns && builtinFault φ R ns name args env t) = false :=
          hfree
        rw [hns, Bool.true_and] at hfault
        exact ⟨hcalm, hfault⟩
    · exact .inl ⟨rfl, rfl⟩
  | _ => exact .inl ⟨rfl, rfl⟩

theorem evalCall_heeds (callee : Expr) (args : List Expr) (line : ℕ) :
    Heeds φ (fun s => Calm s ∧ Free (callFault φ R n callee args env) s)
      (evalCall R' n callee args env line) (evalCall R n callee args env line) := by
  have hfn : Heeds φ (fun s => Calm s ∧ Free (callFault φ R n callee args env) s)
      (R'.evalExpr callee env >>= fun fn =>
        unlessError .void (callFn R' n fn args env line))
      (R.evalExpr callee env >>= fun fn => unlessError .void (callFn R n fn args env line)) :=
    (hR.evalExpr callee env).any.bind fun fn => (callFn_heeds hR n fn args line).unlessError
  cases callee with
  | member line' object name =>
    intro s hinv hs hmarks
    have hfault : (namespaceFault φ R object name args env s ||
        past (R.evalExpr object env) (fun obj s =>
          !s.pending && methodFault φ R n obj name args env s) s) = false := hs.2
    obtain ⟨hnamespace, hmethod⟩ := Bool.or_eq_false_iff.mp hfault
    rcases calleeAt_heeds hR n object name args line s with ⟨h', h⟩ | ⟨m', m, h', h, hm⟩
    · rw [evalCall_of_none n h'] at hmarks ⊢
      rw [evalCall_of_none n h]
      refine Heeds.past (hR.evalExpr object env) (fun obj => ?_) s hinv hmethod hmarks
      refine heeds_unlessError ((callMethod_heeds hR n obj name args line).weaken fun s hs => ?_)
      have hcalm : s.pending = false := hs.1
      have hfree : (!s.pending && methodFault φ R n obj name args env s) = false := hs.2
      rw [hcalm, Bool.not_false, Bool.true_and] at hfree
      exact ⟨hcalm, hfree⟩
    · rw [evalCall_of_callee n h'] at hmarks ⊢
      rw [evalCall_of_callee n h]
      exact hm s hinv ⟨rfl, hs.1, hnamespace⟩ hmarks
  | _ => exact hfn

/-! ### Assignment -/

omit hR [Host ω] in
/-- Operands that are complained about. -/
theorem raisesNow_of_store {s : Machine ω} {b : Bool} (h : (s.pending && b) = false)
    (hb : φ = .raises → b = true) : raisesNow φ s = false := by
  cases φ with
  | raises =>
    rw [hb rfl, Bool.and_true] at h
    rw [raisesNow, h, Bool.and_false]
  | writes => rfl

omit hR [Host ω] in
theorem idle_of_store {s : Machine ω} {b : Bool} (h : (s.pending && b) = false)
    (hb : φ = .writes → b = true) : Idle φ s := by
  cases φ with
  | raises => rfl
  | writes =>
    rw [hb rfl, Bool.and_true] at h
    rw [Idle, h, Bool.and_false]

omit hR [Host ω] in
theorem setIdent_heeds (line' : ℕ) (name : Text) (v : Value) (line : ℕ) :
    Heeds φ (Free (targetFault φ R (.ident line' name) env))
      (setLvalue R' (.ident line' name) v env line) (setLvalue R (.ident line' name) v env line) := by
  refine heeds_read_bind fun bound => heeds_ite (fun _ => heeds_pure _) fun _ => ?_
  refine heeds_read_bind fun isFixed => ?_
  cases isFixed with
  | true =>
    refine heeds_rtError (fun s hs => raisesNow_of_store hs.1.1 ?_) _ _
    rintro rfl
    exact hs.2
  | false =>
    refine Heeds.bind (heeds_envSet (fun s hs hpending f i e hfound => ?_) v) fun done =>
      heeds_ite (fun _ => heeds_pure _) fun _ => heeds_envDefine _ _ _ _
    cases φ with
    | raises => cases hpending
    | writes =>
      have hpending : s.pending = true := hpending
      have hstore : (s.pending && storeFault .writes (.ident line' name) .void .void env s.heap)
          = false := hs.1.1
      have hwrites : storeFault .writes (.ident line' name) .void .void env s.heap = !e.isFixed := by
        unfold storeFault
        dsimp only
        rw [hfound]
      rw [hpending, hwrites, Bool.true_and] at hstore
      exact (Bool.not_eq_false' _).mp hstore

omit [Host ω] in
theorem setIndex_heeds (line' : ℕ) (object index : Expr) (v : Value) (line : ℕ) :
    Heeds φ (Free (targetFault φ R (.index line' object index) env))
      (setLvalue R' (.index line' object index) v env line)
      (setLvalue R (.index line' object index) v env line) := by
  refine (hR.evalExpr object env).past fun obj => (hR.evalExpr index env).past fun idx => ?_
  cases obj with
  | list l =>
    refine heeds_readSome_bind fun node => ?_
    have hstore : ∀ s : Machine ω, s.heap.nodeAt (longOfDouble (Heap.asNumber idx))
        s.heap.nodes.length (s.heap.listHead l) 0 = some node →
        storeFault φ (.index line' object index) (.list l) idx env s.heap
          = if node.isSome then φ.isWrites else φ.isRaises := by
      intro s hnode
      unfold storeFault Heap.nodeOfIndex
      dsimp only
      rw [hnode]
      cases node <;> rfl
    cases node with
    | some p =>
      refine heeds_setItem (fun s hs => idle_of_store hs.1 ?_) p v
      rintro rfl
      exact hstore s hs.2
    | none =>
      refine heeds_rtError (fun s hs => raisesNow_of_store hs.1 ?_) _ _
      rintro rfl
      exact hstore s hs.2
  | data d =>
    refine (writesOnly_valueDataSet d _ v).heeds.weaken fun s hs => idle_of_store hs ?_
    rintro rfl
    rfl
  | _ =>
    refine heeds_rtError (fun s hs => raisesNow_of_store hs ?_) _ _
    rintro rfl
    rfl

omit [Host ω] in
theorem setMember_heeds (line' : ℕ) (object : Expr) (name : Text) (v : Value) (line : ℕ) :
    Heeds φ (Free (targetFault φ R (.member line' object name) env))
      (setLvalue R' (.member line' object name) v env line)
      (setLvalue R (.member line' object name) v env line) := by
  show Heeds φ (Free (past (R.evalExpr object env) fun obj s =>
    s.pending && storeFault φ (.member line' object name) obj .void env s.heap)) _ _
  refine (hR.evalExpr object env).past fun obj => ?_
  cases obj with
  | data d =>
    refine (writesOnly_valueDataSet d name v).heeds.weaken fun s hs => idle_of_store hs ?_
    rintro rfl
    rfl
  | inst i =>
    refine heeds_readSome_bind fun inst => ?_
    refine (writesOnly_valueDataSet inst.fields name v).heeds.weaken fun s hs =>
      idle_of_store hs.1 ?_
    rintro rfl
    rfl
  | _ =>
    refine heeds_rtError (fun s hs => raisesNow_of_store hs ?_) _ _
    rintro rfl
    rfl

omit [Host ω] in
theorem setLvalue_heeds (target : Expr) (v : Value) (line : ℕ) :
    Heeds φ (Free (targetFault φ R target env)) (setLvalue R' target v env line)
      (setLvalue R target v env line) := by
  cases target with
  | ident line' name => exact setIdent_heeds line' name v line
  | index line' object index => exact setIndex_heeds hR line' object index v line
  | member line' object name => exact setMember_heeds hR line' object name v line
  | _ =>
    refine heeds_rtError (fun s hs => raisesNow_of_store hs ?_) _ _
    rintro rfl
    rfl

theorem evalAssign_heeds (target value : Expr) (op : TokenType) (line : ℕ) :
    Heeds φ (Free (assignFault φ R n target value op env line))
      (evalAssign R' n target value op env line) (evalAssign R n target value op env line) := by
  have hset : ∀ v, Heeds φ (Free (targetFault φ R target env))
      (do
        setLvalue R' target v env line
        pure v : Prog ω Value)
      (do
        setLvalue R target v env line
        pure v) := fun v =>
    (setLvalue_heeds hR target v line).bind fun _ => heeds_pure _
  refine heeds_free_ite (fun _ => ?_) fun _ => ?_
  · exact (hR.evalExpr value env).past hset
  · refine (hR.evalExpr target env).past fun cur => (hR.evalExpr value env).past fun rhs => ?_
    exact (heeds_evalBinary (fun s hs => hs) n line).both hset

/-! ### Expressions -/

omit [Host ω] in
theorem evalStringInterp_heeds (parts : List StrPart) (out : Text) :
    Heeds φ Always (evalStringInterp R' n parts out env) (evalStringInterp R n parts out env) := by
  induction parts generalizing out with
  | nil => exact heeds_pure _
  | cons part parts ih =>
    cases part with
    | literal s => exact ih _
    | expr e =>
      refine (hR.evalExpr e env).bind fun v => Heeds.unlessError ?_
      exact (heeds_readSome _).bind fun piece => ih _

omit hR [Host ω] in
theorem heeds_evalIdent (name : Text) (line : ℕ) :
    Heeds φ Calm (evalIdent name env line : Prog ω Value) (evalIdent name env line) := by
  refine heeds_read_bind fun v => ?_
  cases v with
  | some v => exact heeds_pure _
  | none => exact heeds_fail (fun s hs => raisesNow_of_calm hs.1) _ _

omit hR [Host ω] in
theorem heeds_evalUnary (op : TokenType) (v : Value) :
    Heeds φ pre (evalUnary op v : Prog ω Value) (evalUnary op v) := by
  unfold evalUnary
  split
  · exact (heeds_read _).bind fun _ => heeds_pure _
  · split
    · exact heeds_pure _
    · exact heeds_pure _
  · exact heeds_pure _

omit [Host ω] in
theorem appendItems_heeds (l : ℕ) (items : List Expr) :
    Heeds φ (Free (itemsFault φ R l items env)) (appendItems R' l items env)
      (appendItems R l items env) := by
  induction items with
  | nil => exact heeds_pure _
  | cons e items ih =>
    exact (hR.evalExpr e env).past fun v =>
      (heeds_valueListAppend (fun s hs => hs) v).both fun _ => ih

omit [Host ω] in
theorem setEntries_heeds (d : ℕ) (entries : List (Text × Expr)) :
    Heeds φ (Free (entriesFault φ R d entries env)) (setEntries R' d entries env)
      (setEntries R d entries env) := by
  induction entries with
  | nil => exact heeds_pure _
  | cons entry entries ih =>
    exact (hR.evalExpr entry.2 env).past fun v =>
      (heeds_valueDataSet (fun s hs => hs) entry.1 v).both fun _ => ih

omit hR [Host ω] in
theorem heeds_evalAwait (v : Value) (line : ℕ) :
    Heeds φ Calm (evalAwait v line : Prog ω Value) (evalAwait v line) := by
  unfold evalAwait
  split
  · refine heeds_readSome_bind fun native => ?_
    split
    · exact heeds_pure _
    · exact heeds_fail (fun s hs => raisesNow_of_calm hs.1) _ _
    · exact heeds_pure _
  · exact heeds_pure _

omit hR [Host ω] in
theorem heeds_evalMember (obj : Value) (name : Text) (line : ℕ) :
    Heeds φ Calm (evalMember obj name line : Prog ω Value) (evalMember obj name line) := by
  unfold evalMember
  split
  · exact (heeds_read _).bind fun _ => heeds_pure _
  · refine heeds_readSome_bind fun inst => heeds_read_bind fun v => ?_
    cases v with
    | some v => exact heeds_pure _
    | none =>
      exact heeds_readSome_bind fun ci => heeds_fail (fun s hs => raisesNow_of_calm hs.1.1.1) _ _
  · exact heeds_fail (fun s hs => raisesNow_of_calm hs) _ _

omit hR [Host ω] in
theorem heeds_evalIndex (obj idx : Value) (line : ℕ) :
    Heeds φ (Free fun s => raisesNow φ s && indexComplains s.heap obj idx)
      (evalIndex obj idx line : Prog ω Value) (evalIndex obj idx line) := by
  have hcomplains : ∀ {s : Machine ω}, (raisesNow φ s && indexComplains s.heap obj idx) = false →
      indexComplains s.heap obj idx = true → raisesNow φ s = false := by
    intro s hfault hindex
    rwa [hindex, Bool.and_true] at hfault
  unfold evalIndex
  split
  · next l =>
    refine heeds_readSome_bind fun node => ?_
    cases node with
    | some p => exact (heeds_readSome _).bind fun _ => heeds_pure _
    | none =>
      refine heeds_fail (fun s hs => hcomplains hs.1 ?_) _ _
      have hnode : s.heap.nodeOfIndex l idx = some none := hs.2
      unfold indexComplains
      dsimp only
      rw [hnode]
  · exact (heeds_read _).bind fun _ => heeds_pure _
  · refine heeds_ite (fun hrange => ?_) fun _ => heeds_pure _
    exact heeds_fail (fun s hs => hcomplains hs (decide_eq_true hrange)) _ _
  · next hlist hdata hstring =>
    refine heeds_fail (fun s hs => hcomplains hs ?_) _ _
    cases obj with
    | list l => exact absurd rfl (hlist l)
    | data d => exact absurd rfl (hdata d)
    | string s => exact absurd rfl (hstring s)
    | _ => rfl

theorem evalExpr_heeds (e : Expr) :
    Heeds φ Always (stopAt (exprFault φ R n e env) (evalExpr R' n e env)) (evalExpr R n e env) := by
  refine heeds_stopAt ?_
  cases e with
  | num line k => exact heeds_pure _
  | decimal line d => exact heeds_pure _
  | scifi line d => exact heeds_pure _
  | bool line b => exact heeds_pure _
  | str line parts => exact (evalStringInterp_heeds hR n _ _).any
  | ident line name => exact (heeds_evalIdent name line).weaken fun s hs => hs.1
  | binary line left right op =>
    refine (hR.evalExpr left env).any.bind fun l => (hR.evalExpr right env).bind fun r => ?_
    refine Heeds.unlessError (heeds_evalBinary (fun s hs => ?_) n line)
    rw [raisesNow_of_calm hs, Bool.false_and]
  | unary line operand op => exact (hR.evalExpr operand env).any.bind fun v => heeds_evalUnary _ _
  | between line value low high =>
    exact (hR.evalExpr value env).any.bind fun v => (hR.evalExpr low env).bind fun lo =>
      (hR.evalExpr high env).bind fun hi => heeds_pure _
  | ternary line cond thenE elseE =>
    exact (hR.evalExpr cond env).any.bind fun c => (heeds_read _).bind fun t =>
      heeds_ite (fun _ => hR.evalExpr thenE env) fun _ => hR.evalExpr elseE env
  | list line items =>
    refine Heeds.weaken ?_ fun s hs => hs.2
    exact (heeds_newList _).past fun l => (appendItems_heeds hR l items).bind fun _ => heeds_pure _
  | data line entries =>
    refine Heeds.weaken ?_ fun s hs => hs.2
    exact (heeds_newData _).past fun d => (setEntries_heeds hR d entries).bind fun _ => heeds_pure _
  | funcLit line params retType body isAsync =>
    exact (heeds_newFunc _).bind fun f => heeds_pure _
  | await line e =>
    exact (hR.evalExpr e env).any.bind fun v => (heeds_evalAwait v line).unlessError
  | member line object name =>
    exact (hR.evalExpr object env).any.bind fun obj => (heeds_evalMember obj name line).unlessError
  | index line object index =>
    refine Heeds.weaken ?_ fun s hs => hs.2
    exact (hR.evalExpr object env).past fun obj => (hR.evalExpr index env).past fun idx =>
      heeds_evalIndex obj idx line
  | assign line target value op =>
    exact (evalAssign_heeds hR n target value op line).weaken fun s hs => hs.2
  | call line callee args => exact evalCall_heeds hR n callee args line
  | new line className args => exact evalNew_heeds hR n className args line

/-! ### Statements -/

omit [Host ω] in
theorem execElifs_heeds (elifs : List (Expr × Stmt)) (elseB : Option Stmt) :
    Heeds φ Always (execElifs R' elifs elseB env) (execElifs R elifs elseB env) := by
  induction elifs with
  | nil =>
    cases elseB with
    | some s => exact hR.execStmt s env
    | none => exact heeds_pure _
  | cons branch elifs ih =>
    exact (hR.evalExpr branch.1 env).bind fun c => (heeds_read _).bind fun t =>
      heeds_ite (fun _ => hR.execStmt branch.2 env) fun _ => ih

omit hR [Host ω] in
theorem heeds_afterTurn (r : ExecResult) {next' next : Prog ω ExecResult}
    (h : Heeds φ Always next' next) : Heeds φ pre (afterTurn r next') (afterTurn r next) := by
  cases r with
  | none => exact h.any.unlessError
  | ret v => exact heeds_pure _

omit [Host ω] in
theorem loopWhile_heeds (cond : Expr) (body : Stmt) :
    Heeds φ Always (loopWhile R' cond body env n) (loopWhile R cond body env n) := by
  induction n with
  | zero => exact heeds_giveUp
  | succ n ih =>
    refine (hR.evalExpr cond env).bind fun c => (heeds_read _).bind fun t =>
      heeds_ite (fun _ => Heeds.unlessError ?_) fun _ => heeds_pure _
    exact (hR.execStmt body env).any.bind fun r => heeds_afterTurn r ih

omit [Host ω] in
theorem doWhile_heeds (cond : Expr) (body : Stmt) :
    Heeds φ Always (doWhile R' cond body env n) (doWhile R cond body env n) := by
  induction n with
  | zero => exact heeds_giveUp
  | succ n ih =>
    refine (hR.execStmt body env).bind fun r => heeds_afterTurn r ?_
    exact (hR.evalExpr cond env).bind fun c => (heeds_read _).bind fun t =>
      heeds_ite (fun _ => ih.any.unlessError) fun _ => heeds_pure _

omit [Host ω] in
theorem turnIsMade_heeds (cond : Option Expr) :
    Heeds φ Always (turnIsMade R' cond env) (turnIsMade R cond env) := by
  cases cond with
  | some e => exact (hR.evalExpr e env).bind fun c => heeds_read _
  | none => exact heeds_pure _

omit [Host ω] in
theorem overNodes_heeds (var : Text) (cond : Option Expr) (body : Stmt) (cur : Option ℕ) :
    Heeds φ Always (overNodes R' var cond body env n cur) (overNodes R var cond body env n cur) := by
  induction n generalizing cur with
  | zero =>
    cases cur with
    | none => exact heeds_pure _
    | some p => exact heeds_giveUp
  | succ n ih =>
    cases cur with
    | none => exact heeds_pure _
    | some p =>
      refine (heeds_readSome _).bind fun node => (heeds_envNew env).bind fun loopEnv => ?_
      refine (heeds_envDefine _ _ _ _).bind fun _ => (turnIsMade_heeds hR cond).bind fun made => ?_
      refine heeds_ite (fun _ => ?_) fun _ => ?_
      · exact (hR.execStmt body loopEnv).bind fun r => heeds_afterTurn r
          ((heeds_nextNode p).bind fun next => ih next)
      · exact (heeds_nextNode p).bind fun next => ih next

omit [Host ω] in
theorem overValues_heeds (var : Text) (body : Stmt) (vals : List Value) :
    Heeds φ Always (overValues R' var body env vals) (overValues R var body env vals) := by
  induction vals with
  | nil => exact heeds_pure _
  | cons v vals ih =>
    refine (heeds_envNew env).bind fun loopEnv => (heeds_envDefine _ _ _ _).bind fun _ => ?_
    exact (hR.execStmt body loopEnv).bind fun r => heeds_afterTurn r ih

omit [Host ω] in
theorem forIn_heeds (coll : Value) (var : Text) (cond : Option Expr) (body : Stmt) (line : ℕ) :
    Heeds φ (Free fun s => raisesNow φ s && !coll.isList)
      (forIn R' n coll var cond body env line) (forIn R n coll var cond body env line) := by
  have hother : coll.isList = false → ∀ msg, Heeds φ (Free fun s => raisesNow φ s && !coll.isList)
      (do
        rtError line msg
        pure .none : Prog ω ExecResult)
      (do
        rtError line msg
        pure .none) := by
    intro hlist msg
    refine (heeds_rtError (fun s hs => ?_) _ _).bind fun _ => heeds_pure _
    have hfault : (raisesNow φ s && !coll.isList) = false := hs
    rwa [hlist, Bool.not_false, Bool.and_true] at hfault
  cases coll with
  | list l => exact (heeds_read _).bind fun head => overNodes_heeds hR n _ _ _ _
  | _ => exact hother rfl _

omit [Host ω] in
theorem iterate_heeds (coll : Value) (var : Text) (body : Stmt) (line : ℕ) :
    Heeds φ (Free fun s => raisesNow φ s && !(coll.isList || coll.isData))
      (iterate R' n coll var body env line) (iterate R n coll var body env line) := by
  have hother : (coll.isList || coll.isData) = false → ∀ msg,
      Heeds φ (Free fun s => raisesNow φ s && !(coll.isList || coll.isData))
        (do
          rtError line msg
          pure .none : Prog ω ExecResult)
        (do
          rtError line msg
          pure .none) := by
    intro hcoll msg
    refine (heeds_rtError (fun s hs => ?_) _ _).bind fun _ => heeds_pure _
    have hfault : (raisesNow φ s && !(coll.isList || coll.isData)) = false := hs
    rwa [hcoll, Bool.not_false, Bool.and_true] at hfault
  cases coll with
  | list l => exact (heeds_read _).bind fun head => overNodes_heeds hR n _ _ _ _
  | data d => exact (heeds_read _).bind fun vals => overValues_heeds hR _ _ _
  | _ => exact hother rfl _

/-! ### `try` and `catch` -/

omit [Host ω] in
theorem runHandler_heeds (catchB : Stmt) (catchEnv : Option Env) :
    Heeds φ Always (runHandler R' catchB catchEnv) (runHandler R catchB catchEnv) := by
  cases catchEnv with
  | some catchEnv => exact hR.execStmt catchB catchEnv
  | none => exact heeds_pure _

end Interp

section TryBlock

variable {ω : Type} {R' R : Evaluator ω} {env : Env}

/-- A step on the error state writes nothing. -/
theorem heeds_writes_it {pre : Machine ω → Prop} (a : Act) (g : Machine ω → Interp) :
    Heeds .writes pre (Exec.act a fun s => { s with it := g s })
      (Exec.act a fun s => { s with it := g s }) := by
  refine Exec.stops_act fun s hinv _ => ⟨fun st hst _ => ?_, hinv⟩
  obtain rfl := List.mem_singleton.mp hst
  exact Heap.Spares.refl _

/-- The block, where writes are watched. -/
theorem tryBlock_heeds_writes (hR : R'.Heeds .writes R) (tryB : Stmt) (errName : Text) :
    Heeds .writes Always (tryBlock R' tryB errName env) (tryBlock R tryB errName env) := by
  refine (heeds_read _).bind fun saved => (heeds_writes_it _ _).bind fun _ => ?_
  refine (hR.execStmt tryB env).bind fun _ => (heeds_read _).bind fun failed => ?_
  refine heeds_ite (fun _ => ?_) fun _ => ?_
  · refine (heeds_envNew _).bind fun _ => (heeds_read _).bind fun _ => ?_
    exact (heeds_envDefine _ _ _ _).bind fun _ => (heeds_writes_it _ _).bind fun _ =>
      heeds_pure _
  · exact (heeds_writes_it _ _).bind fun _ => heeds_pure _

/-- The block, where errors are watched: what is raised in it is gone when it ends. -/
theorem heeds_tryBlock_raises (hR : R.Follows Interp.Paired 0) (tryB : Stmt) (errName : Text) :
    Heeds .raises Calm (tryBlock R tryB errName env) (tryBlock R tryB errName env) := by
  have hown : Own 0 env := fun f _ => Nat.zero_le f
  have hnone : ∀ {it : Interp}, it.Paired → it.hadRuntimeError = false → it.errorMessage = none :=
    fun hpaired hclear => Option.not_isSome_iff_eq_none.mp
      (Bool.eq_false_iff.mp ((show _ = _ from hpaired).symm.trans hclear))
  refine Exec.stops_self fun s hinv hcalm => ?_
  have hs : s.it.Paired := hinv
  have hrun := tryBlock_follows hR tryB errName hown s ⟨⟨Nat.zero_le _, hs⟩, hcalm⟩
  -- what is known where the block has returned
  have hreturned : ∀ s' ∈ (tryBlock R tryB errName env s).returned,
      s' = (tryBlock R tryB errName env s).state ∧ s'.it.Paired ∧ s'.it.hadRuntimeError = false := by
    intro s' hs'
    obtain ⟨catchEnv, hvalue, rfl⟩ := Option.map_eq_some_iff.mp hs'
    obtain ⟨⟨hready, hclear⟩, -⟩ := hrun.value catchEnv hvalue
    exact ⟨rfl, hready.2, hclear⟩
  refine ⟨fun s' hs' => ?_, fun s' hs' => (hreturned s' hs').2.1⟩
  obtain ⟨rfl, hpaired, hclear⟩ := hreturned s' hs'
  have hnote := isSome_foldl_noteError hrun.chained hs hrun.steps rfl
  rw [hnone hpaired hclear] at hnote ⊢
  exact (Option.not_isSome_iff_eq_none.mp (Bool.eq_false_iff.mp hnote)).symm

end TryBlock

section Statements

variable {ω : Type} [Host ω] {φ : Fault} {R' R : Evaluator ω} (n : ℕ) {env : Env}

/-- A `try` statement. -/
theorem tryStmt_heeds (hR : R'.Heeds φ R) (hfollows : R.Follows Interp.Paired 0) (line : ℕ)
    (tryB : Stmt) (errName : Text) (catchB : Stmt) :
    Heeds φ Always (stopAt (stmtFault φ R (.tryCatch line tryB errName catchB) env)
        (watchedStmt φ R n R' (.tryCatch line tryB errName catchB) env))
      (execStmt R n (.tryCatch line tryB errName catchB) env) := by
  have hstmt : ∀ R : Evaluator ω, execStmt R n (.tryCatch line tryB errName catchB) env
      = unlessError .none (tryBlock R tryB errName env >>= runHandler R catchB) := by
    intro R
    rw [← tryCatch_eq]
    rfl
  cases φ with
  | raises =>
    rw [hstmt R]
    refine heeds_stopAt (Heeds.bind ?_ fun catchEnv => runHandler_heeds hR catchB catchEnv)
    exact (heeds_tryBlock_raises hfollows tryB errName).weaken fun s hs => hs.1
  | writes =>
    have hwatched : watchedStmt .writes R n R' (.tryCatch line tryB errName catchB) env
        = execStmt R' n (.tryCatch line tryB errName catchB) env := rfl
    rw [hwatched, hstmt R', hstmt R]
    exact heeds_stopAt ((tryBlock_heeds_writes hR tryB errName).any.bind fun catchEnv =>
      runHandler_heeds hR catchB catchEnv)

/-- The other statements. -/
theorem plainStmt_heeds (hR : R'.Heeds φ R) {st : Stmt}
    (hplain : ∀ line tryB errName catchB, st ≠ .tryCatch line tryB errName catchB) :
    Heeds φ Always (stopAt (stmtFault φ R st env) (execStmt R' n st env)) (execStmt R n st env) := by
  refine heeds_stopAt ?_
  cases st with
  | tryCatch line tryB errName catchB => exact absurd rfl (hplain line tryB errName catchB)
  | varDecl line name type init isFixed =>
    refine (evalInit_heeds hR init).any.bind fun v => Heeds.unlessError ?_
    exact (heeds_envDefine _ _ _ _).bind fun _ => heeds_pure _
  | expr line e => exact (hR.evalExpr e env).any.bind fun v => heeds_pure _
  | ifStmt line cond thenB elifs elseB =>
    refine (hR.evalExpr cond env).any.bind fun c => Heeds.unlessError ?_
    exact (heeds_read _).bind fun t =>
      heeds_ite (fun _ => hR.execStmt thenB env) fun _ => execElifs_heeds hR elifs elseB
  | loopWhile line cond body => exact (loopWhile_heeds hR n cond body).any
  | doWhile line cond body => exact (doWhile_heeds hR n cond body).any
  | forIn line var iterable cond body =>
    refine Heeds.weaken ?_ fun s hs => hs.2
    exact (hR.evalExpr iterable env).past fun coll => forIn_heeds hR n coll var cond body line
  | iterate line collection item body =>
    refine Heeds.weaken ?_ fun s hs => hs.2
    exact (hR.evalExpr collection env).past fun coll => iterate_heeds hR n coll item body line
  | ret line value => exact (evalInit_heeds hR value).any.bind fun v => heeds_pure _
  | block line stmts => exact (execBlock_heeds hR stmts env).any
  | _ => exact heeds_pure _

theorem watchedStmt_heeds (hR : R'.Heeds φ R) (hfollows : R.Follows Interp.Paired 0) (st : Stmt) :
    Heeds φ Always (stopAt (stmtFault φ R st env) (watchedStmt φ R n R' st env))
      (execStmt R n st env) := by
  cases st with
  | tryCatch line tryB errName catchB => exact tryStmt_heeds n hR hfollows line tryB errName catchB
  | _ =>
    cases φ with
    | raises => exact plainStmt_heeds n hR fun _ _ _ _ h => Stmt.noConfusion h
    | writes => exact plainStmt_heeds n hR fun _ _ _ _ h => Stmt.noConfusion h

end Statements

/-- **Every run of the interpreter.** -/
theorem watched_heeds {ω : Type} [Host ω] (φ : Fault) (n : ℕ) :
    (watched φ n : Evaluator ω).Heeds φ (evaluator n) := by
  induction n with
  | zero => exact ⟨fun _ _ => heeds_giveUp, fun _ _ => heeds_giveUp⟩
  | succ n ih =>
    have hfollows : (evaluator n : Evaluator ω).Follows Interp.Paired 0 :=
      Evaluator.follows Interp.Paired 0 n
    exact ⟨fun e _ => evalExpr_heeds ih n e, fun st _ => watchedStmt_heeds n ih hfollows st⟩

end Jaguar
