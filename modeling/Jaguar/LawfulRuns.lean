/-
Every run of the interpreter keeps to every lawful rule.

The proof follows the functions of the interpreter one by one; what is asked of the calls one
level down is the induction hypothesis.

* `Stmt.Declares` — the names that a statement declares in the environment it runs in;
* `Evaluator.Obeys` — what is asked of the calls one level down;
* `Evaluator.obeys` — **every run keeps to every lawful rule**.
-/
import Jaguar.RunRules

set_option linter.unusedSectionVars false

namespace Jaguar

/-! ### Declarations -/

/-- The names that a statement declares in the environment it runs in. -/
inductive Stmt.Declares (name : Text) : Stmt → Prop
  | varDecl (line : ℕ) (type : TypeInfo) (init : Option Expr) (isFixed : Bool) :
      Declares name (.varDecl line name type init isFixed)
  | thenB {line : ℕ} {cond : Expr} {thenB : Stmt} {elifs : List (Expr × Stmt)}
      {elseB : Option Stmt} : Declares name thenB → Declares name (.ifStmt line cond thenB elifs elseB)
  | elif {line : ℕ} {cond : Expr} {thenB : Stmt} {elifs : List (Expr × Stmt)}
      {elseB : Option Stmt} {branch : Expr × Stmt} : branch ∈ elifs → Declares name branch.2 →
      Declares name (.ifStmt line cond thenB elifs elseB)
  | elseB {line : ℕ} {cond : Expr} {thenB elseB : Stmt} {elifs : List (Expr × Stmt)} :
      Declares name elseB → Declares name (.ifStmt line cond thenB elifs (some elseB))
  | loopWhile {line : ℕ} {cond : Expr} {body : Stmt} : Declares name body →
      Declares name (.loopWhile line cond body)
  | doWhile {line : ℕ} {cond : Expr} {body : Stmt} : Declares name body →
      Declares name (.doWhile line cond body)
  | tryB {line : ℕ} {tryB catchB : Stmt} {errName : Text} : Declares name tryB →
      Declares name (.tryCatch line tryB errName catchB)

/-- The statement may run in the environment: it is the run's own, or may bind what the statement
declares. -/
def RunRule.MayRun {ω : Type} (ρ : RunRule ω) (env : Env) (s : Stmt) : Prop :=
  OwnEnv ρ env ∨ ρ.runsIn env ∧ ∀ name, s.Declares name → ρ.binds env name

theorem RunRule.MayRun.mono {ω : Type} {ρ : RunRule ω} {env : Env} {s s' : Stmt}
    (h : ρ.MayRun env s) (hs : ∀ name, s'.Declares name → s.Declares name) : ρ.MayRun env s' :=
  h.imp_right fun h => ⟨h.1, fun name hname => h.2 name (hs name hname)⟩

theorem RunRule.MayRun.runsIn {ω : Type} {ρ : RunRule ω} [ρ.Lawful] {env : Env} {s : Stmt}
    (h : ρ.MayRun env s) : ρ.runsIn env :=
  h.elim OwnEnv.runsIn And.left

/-- What a statement ends with meets `P`, if it is a value. -/
def ExecResult.Meets (P : Value → Prop) : ExecResult → Prop
  | .none => True
  | .ret v => P v

/-- The calls one level down keep to the rule. -/
structure Evaluator.Obeys {ω : Type} (ρ : RunRule ω) (R : Evaluator ω) : Prop where
  evalExpr : ∀ e env, ρ.runsIn env → Jaguar.Obeys ρ (R.evalExpr e env) ρ.value
  execStmt : ∀ s env, ρ.MayRun env s →
    Jaguar.Obeys ρ (R.execStmt s env) (ExecResult.Meets ρ.value)

theorem forall_mem_concat {P : Value → Prop} {vs : List Value} (hvs : ∀ v ∈ vs, P v) {v : Value}
    (hv : P v) : ∀ w ∈ vs ++ [v], P w :=
  List.forall_mem_append.mpr ⟨hvs, List.forall_mem_singleton.mpr hv⟩

section Interp

variable {ω : Type} {ρ : RunRule ω} [ρ.Lawful] {R : Evaluator ω} (hR : R.Obeys ρ) (n : ℕ)
  {env : Env}

/-- What a call returns may be held. -/
theorem value_result {r : ExecResult} (h : r.Meets ρ.value) : ρ.value r.value := by
  cases r with
  | none => exact value_void
  | ret v => exact h

include hR

/-! ### Blocks -/

theorem obeys_execStmts (list : List Stmt) (henv : ∀ s ∈ list, ρ.MayRun env s) :
    Obeys ρ (execStmts R list env) (ExecResult.Meets ρ.value) := by
  induction list with
  | nil => exact obeys_pure trivial
  | cons s rest ih =>
    refine (hR.execStmt s env (henv s List.mem_cons_self)).bind fun r hr => ?_
    cases r with
    | ret v => exact obeys_pure hr
    | none =>
      exact obeys_unlessError trivial (ih fun s hs => henv s (List.mem_cons_of_mem _ hs))

omit hR in
/-- The classes and the functions of a block stand in its new frame. -/
theorem triple_hoist (list : List Stmt) (env : Env) :
    Exec.TripleWhile ρ.assumes ρ.step (fun s => (ρ.inv s ∧ True) ∧ NewEnv ρ env s)
      (hoist list env : Prog ω Unit) fun _ s => ρ.inv s ∧ OwnEnv ρ env := by
  refine Exec.triple_act fun s hs => ?_
  have hown := hs.2.own
  obtain ⟨⟨hinv, -⟩, frames, parent, heq, rfl, hframe⟩ := hs
  have hlt : frames.length < s.heap.frames.length := by
    rw [heq]
    simp
  have hkeeps := RunRule.Lawful.keeps s _ _ hinv (.hoist frames.length parent list hframe hlt)
  exact ⟨hkeeps.1, hkeeps.2, hown⟩

/-- **A block.** -/
theorem obeys_execBlock (list : List Stmt) (parentEnv : Env) :
    Obeys ρ (execBlock R list parentEnv) (ExecResult.Meets ρ.value) := by
  refine Exec.TripleWhile.bind ((triple_newEnv (fun _ => True) parentEnv).weaken
    (fun _ hs => ⟨hs, trivial⟩) fun _ _ hs => hs) fun env => ?_
  refine Exec.TripleWhile.bind (triple_hoist list env) fun _ => ?_
  exact fun s hs => obeys_execStmts hR list (fun _ _ => .inl hs.2) s hs.1

/-! ### Calls -/

theorem obeys_evalArgs (args : List Expr) (henv : ρ.runsIn env) :
    Obeys ρ (evalArgs R args env) fun argv => ∀ v ∈ argv, ρ.value v := by
  induction args with
  | nil => exact obeys_pure (List.forall_mem_nil _)
  | cons a args ih =>
    exact (hR.evalExpr a env henv).bind fun v hv => ih.bind fun vs hvs =>
      obeys_pure (List.forall_mem_cons.mpr ⟨hv, hvs⟩)

theorem obeys_argOr {dflt : Prog ω Value} (hdflt : Obeys ρ dflt ρ.value) (args : List Expr)
    (henv : ρ.runsIn env) : Obeys ρ (argOr R dflt args env) ρ.value := by
  cases args with
  | nil => exact hdflt
  | cons a args => exact hR.evalExpr a env henv

theorem obeys_bindArgs {callEnv : Env} (hcall : OwnEnv ρ callEnv) (henv : ρ.runsIn env)
    (params : List Param) (args : List Expr) :
    Obeys ρ (bindArgs R params args env callEnv) Anything := by
  induction params generalizing args with
  | nil => exact obeys_pure trivial
  | cons p params ih =>
    exact (obeys_argOr hR (obeys_pure value_void) args henv).bind fun v hv =>
      (obeys_envDefine hcall _ hv _).bind fun _ _ => ih args.tail

theorem obeys_callValue (callee : Value) (args : List Expr) (henv : ρ.runsIn env) (line : ℕ) :
    Obeys ρ (callValue R callee args env line) ρ.value := by
  unfold callValue
  split
  · refine obeys_readSome_bind fun fv => (obeys_newEnv fv.closure).bind fun callEnv hcall => ?_
    exact (obeys_bindArgs hR hcall henv _ _).bind fun _ _ =>
      (obeys_execBlock hR _ _).bind fun r hr => obeys_pure (value_result hr)
  · exact obeys_fail _ _

/-- **A callback.** -/
theorem obeys_invokeRooted {root : FuncValue → Prog ω Env}
    (hroot : ∀ fv, Obeys ρ (root fv) Anything) (callee : Value) {argv : List Value}
    (hargv : ∀ v ∈ argv, ρ.value v) : Obeys ρ (invokeRooted R root callee argv) ρ.value := by
  unfold invokeRooted
  split
  · refine obeys_readSome_bind fun fv => (hroot fv).bind fun parent _ => ?_
    refine (obeys_newEnv parent).bind fun callEnv hcall => ?_
    exact (obeys_bindParams hcall _ _ hargv).bind fun _ _ =>
      (obeys_execBlock hR _ _).bind fun r hr => obeys_pure (value_result hr)
  · exact obeys_fail _ _

theorem obeys_interpInvoke (callee : Value) {argv : List Value} (hargv : ∀ v ∈ argv, ρ.value v) :
    Obeys ρ (interpInvoke R callee argv) ρ.value :=
  obeys_invokeRooted hR (fun _ => obeys_read fun _ _ => trivial) callee hargv

theorem obeys_interpInvokeClosure (callee : Value) {argv : List Value}
    (hargv : ∀ v ∈ argv, ρ.value v) : Obeys ρ (interpInvokeClosure R callee argv) ρ.value :=
  obeys_invokeRooted hR (fun _ => obeys_pure trivial) callee hargv

/-! ### Classes -/

theorem obeys_evalInit (init : Option Expr) (henv : ρ.runsIn env) :
    Obeys ρ (evalInit R.evalExpr init env) ρ.value := by
  cases init with
  | none => exact obeys_pure value_void
  | some e => exact hR.evalExpr e env henv

theorem obeys_initFields (members : List Stmt) (henv : ρ.runsIn env) {fields : ℕ}
    (hfields : ρ.value (.data fields)) :
    Obeys ρ (initFields R.evalExpr members env fields) Anything := by
  induction members with
  | nil => exact obeys_pure trivial
  | cons s members ih =>
    unfold initFields
    split
    · next heq => cases heq
    · next heq =>
      obtain ⟨rfl, rfl⟩ := List.cons.inj heq
      exact (obeys_evalInit hR _ henv).bind fun v hv =>
        (obeys_valueDataSet hfields _ hv).bind fun _ _ => ih
    · next heq =>
      obtain ⟨-, rfl⟩ := List.cons.inj heq
      exact ih

theorem obeys_initFieldsRecursive (c : ℕ) {fields : ℕ} (hfields : ρ.value (.data fields)) :
    Obeys ρ (initFieldsRecursive R.evalExpr n c fields) Anything := by
  induction n generalizing c with
  | zero => exact obeys_giveUp
  | succ n ih =>
    refine obeys_readSome_bind fun ci => Obeys.bind (show Obeys ρ _ Anything from ?_) fun _ _ =>
      (obeys_newEnv ci.closure).bind fun _ henv => obeys_initFields hR _ henv.runsIn hfields
    split
    · exact ih _
    · exact obeys_pure trivial

omit hR in
theorem obeys_bindSuper (parent : Option ℕ) {this : Value} (hthis : ρ.value this) {callEnv : Env}
    (hcall : OwnEnv ρ callEnv) :
    Obeys ρ (bindSuper parent this callEnv : Prog ω Unit) Anything := by
  cases parent with
  | none => exact obeys_pure trivial
  | some p =>
    exact (obeys_newNative (show (Native.superRef p this).All ρ.value from hthis)).bind fun sr _ =>
      obeys_envDefine hcall _ (value_native sr) _

theorem obeys_invokeMethod (definingClass : ℕ) (method : Stmt) {this : Value}
    (hthis : ρ.value this) {argv : List Value} (hargv : ∀ v ∈ argv, ρ.value v) :
    Obeys ρ (invokeMethod R definingClass method this argv) ρ.value := by
  refine obeys_readSome_bind fun ci => (obeys_newEnv ci.closure).bind fun callEnv hcall => ?_
  refine (obeys_envDefine hcall _ hthis _).bind fun _ _ => ?_
  refine (obeys_bindSuper _ hthis hcall).bind fun _ _ => ?_
  exact (obeys_bindParams hcall _ _ hargv).bind fun _ _ =>
    (obeys_execBlock hR _ _).bind fun r hr => obeys_pure (value_result hr)

theorem obeys_constructInstance (c : ℕ) (args : List Expr) (henv : ρ.runsIn env) :
    Obeys ρ (constructInstance R n c args env) ρ.value := by
  refine (obeys_newData (List.forall_mem_nil _)).bind fun fields hfields => ?_
  refine (obeys_initFieldsRecursive hR n c hfields).bind fun _ _ => ?_
  refine (obeys_newInstance hfields).bind fun i _ => obeys_readSome_bind fun ctor => ?_
  cases ctor with
  | none => exact obeys_pure (value_inst i)
  | some p =>
    exact (obeys_evalArgs hR args henv).bind fun argv hargv =>
      (obeys_invokeMethod hR _ _ (value_inst i) hargv).bind fun _ _ => obeys_pure (value_inst i)

/-! ### Lists -/

omit hR in
theorem obeys_concatFrom (l : ℕ) (cur : Option ℕ) :
    Obeys ρ (concatFrom l n cur : Prog ω Unit) Anything := by
  induction n generalizing cur with
  | zero =>
    cases cur with
    | none => exact obeys_pure trivial
    | some p => exact obeys_giveUp
  | succ n ih =>
    cases cur with
    | none => exact obeys_pure trivial
    | some p =>
      exact (obeys_nodeOf p).bind fun node hnode => (obeys_valueListAppend _ hnode).bind fun _ _ =>
        (obeys_nodeOf p).bind fun node _ => ih node.next

omit hR in
/-- A table of programs. -/
theorem obeys_cons {α : Type} {post : α → Prop} {p : Text × Prog ω α}
    {table : List (Text × Prog ω α)} (hp : Obeys ρ p.2 post) (h : ∀ q ∈ table, Obeys ρ q.2 post) :
    ∀ q ∈ p :: table, Obeys ρ q.2 post :=
  List.forall_mem_cons.mpr ⟨hp, h⟩

omit hR in
/-- One of two tables. -/
theorem obeys_table {α : Type} {post : α → Prop} {c : Prop} [Decidable c]
    {table table' : List (Text × Prog ω α)} (h : ∀ q ∈ table, Obeys ρ q.2 post)
    (h' : ∀ q ∈ table', Obeys ρ q.2 post) :
    ∀ q ∈ if c then table else table', Obeys ρ q.2 post := by
  split
  · exact h
  · exact h'

theorem obeys_listMethods (l : ℕ) (args : List Expr) (henv : ρ.runsIn env) :
    ∀ p ∈ listMethods R n l args env, Obeys ρ p.2 Anything := by
  have hsort : Obeys ρ (do
      let items ← listItems l
      setItems l (sortItems items.length items) : Prog ω Unit) Anything :=
    (obeys_listItems l).bind fun items hitems => obeys_setItems l fun v hv =>
      hitems v ((sortItems_perm _ _).mem_iff.mp hv)
  cases args with
  | nil =>
    have hpure : Obeys ρ (pure () : Prog ω Unit) Anything := obeys_pure trivial
    exact obeys_cons hpure (obeys_cons hpure (obeys_cons hpure (obeys_cons hsort
      (obeys_cons hpure nofun))))
  | cons a args =>
    have harg := hR.evalExpr a env henv
    refine obeys_cons (harg.bind fun v hv => obeys_valueListAppend l hv) ?_
    refine obeys_cons (harg.bind fun v hv => obeys_valueListInsertFront l hv) ?_
    refine obeys_cons (harg.bind fun v _ => obeys_listDeleteAt l _) ?_
    refine obeys_cons hsort (obeys_cons (harg.bind fun other _ => ?_) nofun)
    split
    · exact obeys_read_bind fun head => obeys_concatFrom n l head
    · exact obeys_pure trivial

theorem obeys_callListMethod (l : ℕ) (name : Text) (args : List Expr) (henv : ρ.runsIn env)
    (line : ℕ) : Obeys ρ (callListMethod R n l name args env line) ρ.value := by
  unfold callListMethod
  split
  · next m hm =>
    obtain ⟨p, hp, rfl⟩ := mem_of_lookup hm
    exact (obeys_listMethods hR n l args henv p hp).bind fun _ _ => obeys_pure value_void
  · exact obeys_fail _ _

/-! ### Workers -/

variable [Host ω]

omit hR in
theorem obeys_yieldLock : Obeys ρ (yieldLock : Prog ω Unit) Anything :=
  (obeys_fromWorld _).bind fun _ _ => obeys_ite (obeys_pure trivial) obeys_giveUp

theorem obeys_runWorker {p : ℕ} (hp : ρ.writable p) {w : Worker}
    (hw : (Native.worker w).All ρ.value) : Obeys ρ (runWorker R p w) ρ.value := by
  refine (obeys_interpInvoke hR _ (List.forall_mem_nil _)).bind fun result hresult => ?_
  refine (obeys_fromWorld _).bind fun threadId _ => ?_
  have hdone : (Native.worker { w with result := some result, threadId := threadId }).All ρ.value :=
    ⟨hw.1, fun v hv => Option.some.inj hv ▸ hresult⟩
  exact (obeys_setNative hp hdone rfl).bind fun _ _ => obeys_pure hresult

theorem obeys_workerSpawnFunc {fn : Option Value} (hfn : ∀ v ∈ fn, ρ.value v) :
    Obeys ρ (workerSpawnFunc R fn) ρ.value := by
  have hw : (Native.worker ⟨fn, none, 0⟩).All ρ.value := ⟨hfn, nofun⟩
  refine (obeys_newNative hw).bind fun p hp => (obeys_fromWorld _).bind fun now _ => ?_
  refine obeys_ite ?_ (obeys_pure (value_native p))
  exact (obeys_runWorker hR hp hw).bind fun _ _ => obeys_pure (value_native p)

omit hR [Host ω] in
theorem obeys_tagThread {result : Value} (hresult : ρ.value result) (threadId : ℤ) :
    Obeys ρ (tagThread result threadId : Prog ω Unit) Anything := by
  unfold tagThread
  split
  · exact obeys_valueDataSet hresult _ (value_num _)
  · exact obeys_pure trivial

theorem obeys_workerResult {p : ℕ} (hp : ρ.writable p) {w : Worker}
    (hw : (Native.worker w).All ρ.value) : Obeys ρ (workerResult R p w) ρ.value := by
  unfold workerResult
  split
  · next result heq => exact obeys_pure (hw.2 result heq)
  · exact obeys_yieldLock.bind fun _ _ => obeys_runWorker hR hp hw

theorem obeys_workerHandleJoin {p : ℕ} (hp : ρ.writable p) {w : Worker}
    (hw : (Native.worker w).All ρ.value) : Obeys ρ (workerHandleJoin R p w) ρ.value :=
  (obeys_workerResult hR hp hw).bind fun _ hresult => obeys_readSome_bind fun _ =>
    (obeys_tagThread hresult _).bind fun _ _ => obeys_pure hresult

omit hR in
theorem obeys_workerRunFile (path : Text) :
    Obeys ρ (workerRunFile path : Prog ω Value) ρ.value := by
  refine obeys_yieldLock.bind fun _ _ => (obeys_onWorld _).bind fun _ _ => ?_
  refine (obeys_fromWorld _).bind fun threadId _ => ?_
  have hentries : ∀ e ∈ [(txt "threadId", Value.num threadId)], ρ.value e.2 :=
    List.forall_mem_singleton.mpr (value_num _)
  exact (obeys_newData hentries).bind fun d hd => obeys_pure hd

omit hR [Host ω] in
theorem obeys_poolOf (p : ℕ) : Obeys ρ (poolOf p : Prog ω Pool) fun pool =>
    (Native.workerPool pool).All ρ.value ∧ ρ.writable p := by
  refine obeys_readSome fun s pool hs hpool => ?_
  split at hpool
  · next pool' hnative =>
    obtain rfl := Option.some.inj hpool
    have hall := RunRule.Lawful.native s p _ hs hnative
    exact ⟨hall.1, hall.2 rfl⟩
  · cases hpool

theorem obeys_runJob (p : ℕ) : Obeys ρ (runJob R p) Anything := by
  refine (obeys_poolOf p).bind fun pool hpool => (obeys_fromWorld _).bind fun i _ => ?_
  refine obeys_readSome_bind fun job => ?_
  have htaken : (Native.workerPool
      { pool with queue := pool.queue.eraseIdx i, running := pool.running + 1 }).All ρ.value :=
    ⟨fun v hv => hpool.1.1 v (List.mem_of_mem_eraseIdx hv), hpool.1.2⟩
  refine (obeys_setNative hpool.2 htaken rfl).bind fun _ _ => ?_
  refine (obeys_interpInvoke hR _ (List.forall_mem_nil _)).bind fun result hresult => ?_
  refine (obeys_fromWorld _).bind fun _ _ => (obeys_tagThread hresult _).bind fun _ _ => ?_
  refine (obeys_poolOf p).bind fun pool hpool => ?_
  have hdone : (Native.workerPool { pool with
      running := pool.running - 1, results := pool.results ++ [result] }).All ρ.value :=
    ⟨hpool.1.1, forall_mem_concat hpool.1.2 hresult⟩
  exact obeys_setNative hpool.2 hdone rfl

theorem obeys_workerPoolSubmit (p : ℕ) {fn : Value} (hfn : ρ.value fn) :
    Obeys ρ (workerPoolSubmit R p fn) Anything := by
  refine (obeys_poolOf p).bind fun pool hpool => ?_
  have hqueued : (Native.workerPool { pool with queue := pool.queue ++ [fn] }).All ρ.value :=
    ⟨forall_mem_concat hpool.1.1 hfn, hpool.1.2⟩
  refine (obeys_setNative hpool.2 hqueued rfl).bind fun _ _ => ?_
  exact (obeys_fromWorld _).bind fun _ _ => obeys_ite (obeys_runJob hR p) (obeys_pure trivial)

theorem obeys_runJobs (p : ℕ) : Obeys ρ (runJobs R p n) Anything := by
  induction n with
  | zero => exact obeys_giveUp
  | succ n ih =>
    refine (obeys_poolOf p).bind fun pool _ => obeys_ite (obeys_pure trivial) ?_
    exact obeys_yieldLock.bind fun _ _ => (obeys_runJob hR p).bind fun _ _ => ih

theorem obeys_workerPoolWaitAll (p : ℕ) : Obeys ρ (workerPoolWaitAll R n p) ρ.value := by
  refine (obeys_runJobs hR n p).bind fun _ _ => (obeys_poolOf p).bind fun pool hpool => ?_
  refine (obeys_newList hpool.1.2).bind fun l _ => ?_
  have hdrained : (Native.workerPool { pool with results := [] }).All ρ.value :=
    ⟨hpool.1.1, List.forall_mem_nil _⟩
  exact (obeys_setNative hpool.2 hdrained rfl).bind fun _ _ => obeys_pure (value_list l)

/-! ### Built-in namespaces -/

theorem obeys_liveDeg (expect : Text) (idx : ℕ) (args : List Expr) (henv : ρ.runsIn env) :
    Obeys ρ (liveDeg R expect idx args env) Anything := by
  induction args generalizing idx with
  | nil => exact obeys_pure trivial
  | cons a args ih =>
    exact (hR.evalExpr a env henv).bind fun v _ => (obeys_onWorld _).bind fun _ _ => ih _

theorem obeys_liveTimer (method : Text) (args : List Expr) (henv : ρ.runsIn env) (line : ℕ) :
    Obeys ρ (liveTimer R method args env line) ρ.value := by
  unfold liveTimer
  split
  · exact (hR.evalExpr _ env henv).bind fun _ _ => (hR.evalExpr _ env henv).bind fun _ _ =>
      (obeys_fromWorld _).bind fun _ _ => obeys_pure (value_num _)
  · exact obeys_fail _ _

omit hR [Host ω] in
theorem obeys_thenVoid {m : Prog ω Unit} (h : Obeys ρ m Anything) :
    Obeys ρ (thenVoid m) ρ.value :=
  h.bind fun _ _ => obeys_pure value_void

omit hR in
theorem obeys_print (f : ω → ω) : Obeys ρ (thenVoid (onWorld f)) ρ.value :=
  obeys_thenVoid (obeys_onWorld f)

theorem obeys_liveBuiltins (args : List Expr) (henv : ρ.runsIn env) (line : ℕ) :
    ∀ p ∈ liveBuiltins R n args env line, Obeys ρ p.2 ρ.value := by
  unfold liveBuiltins
  have htimer := fun method => obeys_liveTimer hR method args henv line
  refine obeys_cons ?_ (obeys_cons ?_ (obeys_cons ?_ (obeys_cons (htimer _)
    (obeys_cons (htimer _) (obeys_cons ?_ nofun)))))
  · exact (obeys_argOr hR (obeys_pure value_void) args henv).bind fun v _ =>
      obeys_unlessError value_void (obeys_readSome_bind fun _ =>
        (obeys_onWorld _).bind fun _ _ => obeys_pure value_void)
  · refine Obeys.bind (show Obeys ρ _ Anything from ?_) fun _ _ =>
      (obeys_fromWorld _).bind fun _ _ => obeys_pure (value_string _)
    cases args with
    | nil => exact obeys_pure trivial
    | cons a args =>
      exact (hR.evalExpr a env henv).bind fun _ _ => obeys_readSome_bind fun _ => obeys_onWorld _
  · cases args with
    | nil => exact obeys_fail _ _
    | cons a args =>
      exact (hR.evalExpr a env henv).bind fun _ _ => obeys_thenVoid (obeys_liveDeg hR _ _ _ henv)
  · cases args with
    | nil => exact obeys_pure value_void
    | cons a args => exact (hR.evalExpr a env henv).bind fun _ _ => obeys_print _

omit [Host ω] in
theorem obeys_jsonBuiltins (args : List Expr) (henv : ρ.runsIn env) (line : ℕ) :
    ∀ p ∈ jsonBuiltins R n args env line, Obeys ρ p.2 ρ.value := by
  unfold jsonBuiltins
  refine obeys_cons ?_ (obeys_cons ?_ nofun)
  · refine (obeys_argOr hR (obeys_pure (value_string _)) args henv).bind fun v _ => ?_
    split
    · exact obeys_jsonParseText _
    · exact obeys_fail _ _
  · exact (obeys_argOr hR (obeys_pure value_void) args henv).bind fun v _ =>
      obeys_readSome_bind fun _ => obeys_pure (value_string _)

theorem obeys_envBuiltins (args : List Expr) (henv : ρ.runsIn env) :
    ∀ p ∈ envBuiltins R args env, Obeys ρ p.2 ρ.value := by
  unfold envBuiltins
  refine obeys_cons ?_ nofun
  cases args with
  | nil => exact obeys_pure value_void
  | cons a args =>
    refine (hR.evalExpr a env henv).bind fun key _ => obeys_read_bind fun val => ?_
    cases val with
    | some val => exact obeys_pure (value_string val)
    | none => exact obeys_argOr hR (obeys_pure value_void) args henv

omit hR in
theorem obeys_closeFile : Obeys ρ (closeFile : Prog ω Unit) Anything := by
  refine obeys_read_bind fun file => ?_
  cases file with
  | some f => exact obeys_onWorld _
  | none => exact obeys_pure trivial

theorem obeys_fileBuiltins (args : List Expr) (henv : ρ.runsIn env) (line : ℕ) :
    ∀ p ∈ fileBuiltins R args env line, Obeys ρ p.2 ρ.value := by
  unfold fileBuiltins
  refine obeys_cons ?_ (obeys_cons ?_ (obeys_cons (obeys_pure value_void) (obeys_cons ?_ nofun)))
  · refine obeys_closeFile.bind fun _ _ =>
      (obeys_argOr hR (obeys_pure (value_string _)) args henv).bind fun _ _ => ?_
    refine (obeys_fromWorld _).bind fun file _ => (obeys_setOpenFile _).bind fun _ _ => ?_
    cases file with
    | none => exact obeys_fail _ _
    | some f => exact obeys_pure value_void
  · refine obeys_read_bind fun file => ?_
    cases file with
    | none => exact (obeys_rtError _ _).bind fun _ _ => obeys_pure (value_string _)
    | some f => exact obeys_read_bind fun _ => obeys_pure (value_string _)
  · exact obeys_closeFile.bind fun _ _ => (obeys_setOpenFile _).bind fun _ _ =>
      obeys_pure value_void

omit hR in
theorem obeys_dirRead : Obeys ρ (dirRead : Prog ω Value) ρ.value := by
  refine obeys_read_bind fun _ => obeys_read_bind fun _ => (obeys_newList fun v hv => ?_).bind
    fun l _ => obeys_pure (value_list l)
  obtain ⟨name, -, rfl⟩ := List.mem_map.mp hv
  exact value_string name

theorem obeys_dirBuiltins (args : List Expr) (henv : ρ.runsIn env) :
    ∀ p ∈ dirBuiltins R args env, Obeys ρ p.2 ρ.value := by
  unfold dirBuiltins
  refine obeys_cons ?_ (obeys_cons obeys_dirRead (obeys_cons obeys_dirRead
    (obeys_cons (obeys_pure value_void) (obeys_cons ?_ nofun))))
  · exact (obeys_argOr hR (obeys_pure (value_string _)) args henv).bind fun _ _ =>
      (obeys_setOpenDirPath _).bind fun _ _ => obeys_pure value_void
  · refine obeys_read_bind fun path => ?_
    cases path with
    | some path => exact obeys_print _
    | none => exact obeys_pure value_void

omit [Host ω] in
theorem obeys_taskBuiltins (args : List Expr) (henv : ρ.runsIn env) :
    ∀ p ∈ taskBuiltins R args env, Obeys ρ p.2 ρ.value := by
  unfold taskBuiltins
  have hempty : Obeys ρ (emptyList : Prog ω Value) ρ.value :=
    (obeys_newList (List.forall_mem_nil _)).bind fun l _ => obeys_pure (value_list l)
  exact obeys_cons ((obeys_argOr hR hempty args henv).bind fun _ hv => obeys_taskDone hv) nofun

theorem obeys_httpBuiltins (args : List Expr) (henv : ρ.runsIn env) :
    ∀ p ∈ httpBuiltins R n args env, Obeys ρ p.2 ρ.value := by
  unfold httpBuiltins
  have hurl := obeys_argOr hR (obeys_pure (value_string (ρ := ρ) (ω := ω) [])) args henv
  refine obeys_cons ?_ (obeys_cons ?_ nofun)
  · exact hurl.bind fun _ _ => obeys_doRequest _ _ _
  · refine hurl.bind fun url _ => ?_
    split
    · exact obeys_doRequest _ _ _
    · exact (hR.evalExpr _ env henv).bind fun _ _ => obeys_readSome_bind fun _ =>
        obeys_doRequest _ _ _

theorem obeys_serverBuiltins (args : List Expr) (henv : ρ.runsIn env) :
    ∀ p ∈ serverBuiltins R args env, Obeys ρ p.2 ρ.value := by
  unfold serverBuiltins
  refine obeys_cons ?_ (obeys_cons ?_ (obeys_cons (obeys_print _) nofun))
  · exact (obeys_argOr hR (obeys_pure (value_num _)) args henv).bind fun _ _ => obeys_print _
  · split
    · exact (hR.evalExpr _ env henv).bind fun _ _ => (hR.evalExpr _ env henv).bind fun _ _ =>
        (hR.evalExpr _ env henv).bind fun _ _ => obeys_print _
    · exact obeys_pure value_void

theorem obeys_socketBuiltins (args : List Expr) (henv : ρ.runsIn env) (line : ℕ) :
    ∀ p ∈ socketBuiltins R args env line, Obeys ρ p.2 ρ.value := by
  unfold socketBuiltins
  refine obeys_cons ?_ (obeys_cons ?_ (obeys_cons (obeys_print _) (obeys_cons (obeys_fail _ _)
    nofun)))
  · exact (obeys_argOr hR (obeys_pure (value_num _)) args henv).bind fun _ _ => obeys_print _
  · split
    · exact (hR.evalExpr _ env henv).bind fun _ _ => (hR.evalExpr _ env henv).bind fun _ _ =>
        obeys_print _
    · exact obeys_pure value_void

theorem obeys_workerBuiltins (args : List Expr) (henv : ρ.runsIn env) :
    ∀ p ∈ workerBuiltins R args env, Obeys ρ p.2 ρ.value := by
  unfold workerBuiltins
  refine obeys_cons ?_ (obeys_cons ?_ (obeys_cons ?_ nofun))
  · cases args with
    | nil => exact obeys_workerSpawnFunc hR nofun
    | cons a args =>
      exact (hR.evalExpr a env henv).bind fun fn hfn =>
        obeys_workerSpawnFunc hR fun v hv => Option.some.inj hv ▸ hfn
  · split
    · refine (hR.evalExpr _ env henv).bind fun path _ => (hR.evalExpr _ env henv).bind fun cb _ => ?_
      exact (obeys_workerRunFile _).bind fun result hresult =>
        (obeys_interpInvokeClosure hR _ (List.forall_mem_singleton.mpr hresult)).bind fun _ _ =>
          obeys_pure value_void
    · exact obeys_pure value_void
  · refine (obeys_argOr hR (obeys_pure (value_num _)) args henv).bind fun threads _ => ?_
    have hpool : (Native.workerPool
        ⟨(max 1 (intOfDouble (Heap.asNumber threads))).toNat, [], 0, []⟩).All ρ.value :=
      ⟨List.forall_mem_nil _, List.forall_mem_nil _⟩
    exact (obeys_newNative hpool).bind fun p _ => obeys_pure (value_native p)

theorem obeys_builtins (ns : Text) (args : List Expr) (henv : ρ.runsIn env) (line : ℕ) :
    ∀ p ∈ builtins R n ns args env line, Obeys ρ p.2 ρ.value :=
  obeys_table (obeys_liveBuiltins hR n args henv line) <|
  obeys_table (obeys_jsonBuiltins hR n args henv line) <|
  obeys_table (obeys_envBuiltins hR args henv) <|
  obeys_table (obeys_fileBuiltins hR args henv line) <|
  obeys_table (obeys_dirBuiltins hR args henv) <|
  obeys_table (obeys_taskBuiltins hR args henv) <|
  obeys_table (obeys_httpBuiltins hR n args henv) <|
  obeys_table (obeys_serverBuiltins hR args henv) <|
  obeys_table (obeys_socketBuiltins hR args henv line) <|
  obeys_table (obeys_workerBuiltins hR args henv) nofun

/-- A built-in function. -/
theorem obeys_builtinDispatch {ns method : Text} {args : List Expr} (henv : ρ.runsIn env)
    {line : ℕ} {m : Prog ω Value} (h : builtinDispatch R n ns method args env line = some m) :
    Obeys ρ m ρ.value := by
  obtain ⟨p, hp, rfl⟩ := mem_of_lookup h
  exact obeys_builtins hR n ns args henv line p hp

/-! ### Methods of native values -/

omit [Host ω] in
theorem obeys_thenInvoke (argv : List Value) {v : Value} (hv : ρ.value v) :
    Obeys ρ (thenInvoke R argv v) Anything := by
  unfold thenInvoke
  split
  · exact obeys_pure trivial
  · exact (obeys_interpInvokeClosure hR _ (List.forall_mem_singleton.mpr hv)).bind fun _ _ =>
      obeys_pure trivial

omit [Host ω] in
theorem obeys_callTask (p : ℕ) {result : Except Text Value}
    (hresult : (Native.task result).All ρ.value) (name : Text) (argv : List Value) (line : ℕ) :
    Obeys ρ (callTask R p result name argv line) ρ.value := by
  unfold callTask
  refine obeys_ite ?_ (obeys_ite ?_ (obeys_ite ?_ (obeys_fail _ _)))
  · refine Obeys.bind (show Obeys ρ _ Anything from ?_) fun _ _ => obeys_pure (value_native p)
    cases result with
    | ok v => exact obeys_thenInvoke hR _ hresult
    | error e => exact obeys_pure trivial
  · refine Obeys.bind (show Obeys ρ _ Anything from ?_) fun _ _ => obeys_pure (value_native p)
    cases result with
    | ok v => exact obeys_pure trivial
    | error e => exact obeys_thenInvoke hR _ (value_string e)
  · cases result with
    | ok v => exact obeys_pure hresult
    | error e => exact obeys_fail _ _

theorem obeys_callWorker {p : ℕ} (hp : ρ.writable p) {w : Worker}
    (hw : (Native.worker w).All ρ.value) (name : Text) (argv : List Value) (line : ℕ) :
    Obeys ρ (callWorker R p w name argv line) ρ.value := by
  have hjoin := obeys_workerHandleJoin hR hp hw
  unfold callWorker
  split
  · exact hjoin.bind fun _ hresult =>
      (obeys_interpInvokeClosure hR _ (List.forall_mem_singleton.mpr hresult)).bind fun _ _ =>
        obeys_pure value_void
  · exact obeys_ite (hjoin.bind fun _ _ => obeys_pure value_void) (obeys_fail _ _)

theorem obeys_callWorkerPool (p : ℕ) (name : Text) {argv : List Value}
    (hargv : ∀ v ∈ argv, ρ.value v) (line : ℕ) :
    Obeys ρ (callWorkerPool R n p name argv line) ρ.value := by
  cases argv with
  | nil => exact obeys_fail _ _
  | cons v argv =>
    refine obeys_ite ?_ (obeys_ite ?_ (obeys_fail _ _))
    · exact obeys_thenVoid (obeys_workerPoolSubmit hR p (hargv v List.mem_cons_self))
    · exact (obeys_workerPoolWaitAll hR n p).bind fun _ hresults =>
        (obeys_interpInvokeClosure hR _ (List.forall_mem_singleton.mpr hresults)).bind fun _ _ =>
          obeys_pure value_void

omit hR [Host ω] in
theorem obeys_orFail {m : Prog ω (Option Value)} (h : Obeys ρ m fun v => ∀ w ∈ v, ρ.value w)
    (line : ℕ) (msg : Text) : Obeys ρ (orFail m line msg) ρ.value := by
  refine h.bind fun r hr => ?_
  cases r with
  | some v => exact obeys_pure (hr v rfl)
  | none => exact obeys_fail _ _

omit [Host ω] in
theorem obeys_callSuper (parentClass : ℕ) {this : Value} (hthis : ρ.value this) (name : Text)
    {argv : List Value} (hargv : ∀ v ∈ argv, ρ.value v) (line : ℕ) :
    Obeys ρ (callSuper R n parentClass this name argv line) ρ.value := by
  refine obeys_readSome_bind fun method => ?_
  cases method with
  | some q => exact obeys_invokeMethod hR _ _ hthis hargv
  | none => exact obeys_fail _ _

theorem obeys_callNative (p : ℕ) (name : Text) (args : List Expr) (henv : ρ.runsIn env)
    (line : ℕ) : Obeys ρ (callNative R n p name args env line) ρ.value := by
  refine (obeys_evalArgs hR args henv).bind fun argv hargv => ?_
  refine (obeys_nativeOf p).bind fun native hnative => ?_
  cases native with
  | task result => exact obeys_callTask hR p hnative.1 _ _ _
  | worker w => exact obeys_callWorker hR (hnative.2 rfl) hnative.1 _ _ _
  | workerPool pool => exact obeys_callWorkerPool hR n p _ hargv _
  | socketConn fd onMessage onClose closed =>
    exact obeys_orFail (obeys_wsConnCallMethod n (hnative.2 rfl) fd hnative.1 _ hargv) _ _
  | superRef parentClass this => exact obeys_callSuper hR n _ hnative.1 _ hargv _

/-! ### Assignment -/

omit hR [Host ω] in
theorem obeys_setItem (p : ℕ) {v : Value} (hv : ρ.value v) :
    Obeys ρ (onHeap (.setItem p) fun h => h.setItem p v : Prog ω Unit) Anything :=
  obeys_onHeap fun _ _ => .setItem p v hv

omit [Host ω] in
theorem obeys_setLvalue (target : Expr) {v : Value} (hv : ρ.value v) (henv : ρ.runsIn env)
    (line : ℕ) : Obeys ρ (setLvalue R target v env line) Anything := by
  unfold setLvalue
  split
  · exact obeys_read_bind fun bound => obeys_ite (obeys_pure trivial)
      (obeys_assignVar henv _ hv (obeys_rtError _ _))
  · refine (hR.evalExpr _ env henv).bind fun obj hobj => (hR.evalExpr _ env henv).bind fun idx _ => ?_
    split
    · refine obeys_readSome_bind fun node => ?_
      cases node with
      | some p => exact obeys_setItem p hv
      | none => exact obeys_rtError _ _
    · exact obeys_valueDataSet hobj _ hv
    · exact obeys_rtError _ _
  · refine (hR.evalExpr _ env henv).bind fun obj hobj => ?_
    split
    · exact obeys_valueDataSet hobj _ hv
    · exact (obeys_instanceOf _).bind fun inst hinst => obeys_valueDataSet hinst _ hv
    · exact obeys_rtError _ _
  · exact obeys_rtError _ _

theorem obeys_evalAssign (target value : Expr) (op : TokenType) (henv : ρ.runsIn env) (line : ℕ) :
    Obeys ρ (evalAssign R n target value op env line) ρ.value := by
  have hset : ∀ v, ρ.value v → Obeys ρ (do
      setLvalue R target v env line
      pure v : Prog ω Value) ρ.value := fun v hv =>
    (obeys_setLvalue hR target hv henv line).bind fun _ _ => obeys_pure hv
  unfold evalAssign
  refine obeys_ite ?_ ?_
  · exact (hR.evalExpr _ env henv).bind hset
  · exact (hR.evalExpr _ env henv).bind fun cur _ => (hR.evalExpr _ env henv).bind fun rhs _ =>
      (obeys_evalBinary _ _ _ _ _).bind hset

/-! ### Expressions -/

omit [Host ω] in
theorem obeys_evalStringInterp (parts : List StrPart) (out : Text) (henv : ρ.runsIn env) :
    Obeys ρ (evalStringInterp R n parts out env) ρ.value := by
  induction parts generalizing out with
  | nil => exact obeys_pure (value_string out)
  | cons part parts ih =>
    cases part with
    | literal s => exact ih _
    | expr e =>
      exact (hR.evalExpr e env henv).bind fun v _ => obeys_unlessError (value_string [])
        (obeys_readSome_bind fun piece => ih _)

omit hR [Host ω] in
theorem obeys_evalIdent (name : Text) (env : Env) (line : ℕ) :
    Obeys ρ (evalIdent name env line : Prog ω Value) ρ.value := by
  refine (obeys_envGet env name).bind fun v hv => ?_
  cases v with
  | some v => exact obeys_pure (hv v rfl)
  | none => exact obeys_fail _ _

omit hR [Host ω] in
theorem obeys_evalUnary (op : TokenType) (v : Value) :
    Obeys ρ (evalUnary op v : Prog ω Value) ρ.value := by
  unfold evalUnary
  split
  · exact obeys_read_bind fun _ => obeys_pure (value_bool _)
  · split
    · exact obeys_pure (value_num _)
    · exact obeys_pure (value_decimal _)
  · exact obeys_pure value_void

omit [Host ω] in
theorem obeys_appendItems (l : ℕ) (items : List Expr) (henv : ρ.runsIn env) :
    Obeys ρ (appendItems R l items env) Anything := by
  induction items with
  | nil => exact obeys_pure trivial
  | cons e items ih =>
    exact (hR.evalExpr e env henv).bind fun v hv => (obeys_valueListAppend _ hv).bind fun _ _ => ih

omit [Host ω] in
theorem obeys_setEntries {d : ℕ} (hd : ρ.value (.data d)) (entries : List (Text × Expr))
    (henv : ρ.runsIn env) : Obeys ρ (setEntries R d entries env) Anything := by
  induction entries with
  | nil => exact obeys_pure trivial
  | cons entry entries ih =>
    exact (hR.evalExpr _ env henv).bind fun v hv => (obeys_valueDataSet hd _ hv).bind fun _ _ => ih

omit hR [Host ω] in
theorem obeys_evalAwait {v : Value} (hv : ρ.value v) (line : ℕ) :
    Obeys ρ (evalAwait v line : Prog ω Value) ρ.value := by
  unfold evalAwait
  split
  · refine (obeys_nativeOf _).bind fun native hnative => ?_
    split
    · exact obeys_pure hnative.1
    · exact obeys_fail _ _
    · exact obeys_pure hv
  · exact obeys_pure hv

omit hR [Host ω] in
theorem obeys_getD {v : Option Value} (hv : ∀ w ∈ v, ρ.value w) :
    Obeys ρ (pure (v.getD .void) : Prog ω Value) ρ.value := by
  cases v with
  | none => exact obeys_pure value_void
  | some w => exact obeys_pure (hv w rfl)

omit hR [Host ω] in
theorem obeys_evalMember {obj : Value} (hobj : ρ.value obj) (name : Text) (line : ℕ) :
    Obeys ρ (evalMember obj name line : Prog ω Value) ρ.value := by
  unfold evalMember
  split
  · exact (obeys_valueDataGet hobj name).bind fun _ hv => obeys_getD hv
  · refine (obeys_instanceOf _).bind fun inst hinst => ?_
    refine (obeys_valueDataGet hinst name).bind fun v hv => ?_
    cases v with
    | some v => exact obeys_pure (hv v rfl)
    | none => exact obeys_readSome_bind fun ci => obeys_fail _ _
  · exact obeys_fail _ _

omit hR [Host ω] in
theorem obeys_evalIndex {obj : Value} (hobj : ρ.value obj) (idx : Value) (line : ℕ) :
    Obeys ρ (evalIndex obj idx line : Prog ω Value) ρ.value := by
  unfold evalIndex
  split
  · refine obeys_readSome_bind fun node => ?_
    cases node with
    | some p => exact (obeys_nodeOf p).bind fun _ hnode => obeys_pure hnode
    | none => exact obeys_fail _ _
  · exact (obeys_valueDataGet hobj _).bind fun _ hv => obeys_getD hv
  · exact obeys_ite (obeys_fail _ _) (obeys_pure (value_string _))
  · exact obeys_fail _ _

omit [Host ω] in
theorem obeys_callInstance (i : ℕ) (name : Text) (args : List Expr) (henv : ρ.runsIn env)
    (line : ℕ) : Obeys ρ (callInstance R n i name args env line) ρ.value := by
  refine obeys_readSome_bind fun inst => obeys_readSome_bind fun method => ?_
  cases method with
  | some q =>
    exact (obeys_evalArgs hR args henv).bind fun argv hargv =>
      obeys_invokeMethod hR _ _ (value_inst i) hargv
  | none => exact obeys_readSome_bind fun ci => obeys_fail _ _

omit [Host ω] in
theorem obeys_callResponse {d : ℕ} (hd : ρ.value (.data d)) (name : Text) (args : List Expr)
    (henv : ρ.runsIn env) (line : ℕ) :
    Obeys ρ (callResponse R n d name args env line) ρ.value := by
  refine obeys_read_bind fun isResponse => obeys_ite ?_ (obeys_fail _ _)
  exact (obeys_evalArgs hR args henv).bind fun argv _ =>
    obeys_orFail (obeys_httpResponseCallMethod n hd _ _) _ _

theorem obeys_callMethod {obj : Value} (hobj : ρ.value obj) (name : Text) (args : List Expr)
    (henv : ρ.runsIn env) (line : ℕ) :
    Obeys ρ (callMethod R n obj name args env line) ρ.value := by
  unfold callMethod
  split
  · exact obeys_callListMethod hR n _ _ _ henv _
  · exact obeys_callInstance hR n _ _ _ henv _
  · exact obeys_callResponse hR n hobj _ _ henv _
  · exact obeys_callNative hR n _ _ _ henv _
  · exact obeys_fail _ _

omit [Host ω] in
theorem obeys_callSuperCtor (parentClass : ℕ) {this : Value} (hthis : ρ.value this)
    (args : List Expr) (henv : ρ.runsIn env) :
    Obeys ρ (callSuperCtor R n parentClass this args env) ρ.value := by
  refine obeys_readSome_bind fun ctor => ?_
  cases ctor with
  | some q =>
    exact (obeys_evalArgs hR args henv).bind fun argv hargv =>
      obeys_invokeMethod hR _ _ hthis hargv
  | none => exact obeys_pure value_void

omit [Host ω] in
theorem obeys_callFn (fn : Value) (args : List Expr) (henv : ρ.runsIn env) (line : ℕ) :
    Obeys ρ (callFn R n fn args env line) ρ.value := by
  unfold callFn
  split
  · refine (obeys_nativeOf _).bind fun native hnative => ?_
    split
    · exact obeys_callSuperCtor hR n _ hnative.1 _ henv
    · exact obeys_callValue hR _ _ henv _
  · exact obeys_callValue hR _ _ henv _

/-- The built-in function, if there is one, keeps to the rule too. -/
theorem obeys_builtinCallee_bind {α : Type} {post : α → Prop} (object : Expr) (name : Text)
    (args : List Expr) (henv : ρ.runsIn env) (line : ℕ) {f : Option (Prog ω Value) → Prog ω α}
    (hsome : ∀ m, Obeys ρ m ρ.value → Obeys ρ (f (some m)) post) (hnone : Obeys ρ (f none) post) :
    Obeys ρ (builtinCallee R n object name args env line >>= f) post := by
  have hf : ∀ ns, Obeys ρ (f (builtinDispatch R n ns name args env line)) post := by
    intro ns
    cases h : builtinDispatch R n ns name args env line with
    | some m => exact hsome m (obeys_builtinDispatch hR n henv h)
    | none => exact hnone
  intro s hs
  unfold builtinCallee
  split
  · next line' ns =>
    have hread : (do
        let bound ← envGet env ns
        if bound.isNone ∧ ns ∈ builtinNs then
          pure (builtinDispatch R n ns name args env line)
        else pure none : Prog ω (Option (Prog ω Value))) s
        = ⟨[], s, some (if (s.heap.envGet env ns).isNone ∧ ns ∈ builtinNs then
            builtinDispatch R n ns name args env line else none)⟩ := by
      show Exec.bind _ _ s = _
      unfold Exec.bind
      simp only [envGet, Exec.read]
      split_ifs <;> rfl
    rw [Exec.bind_of_some (by rw [hread]), hread]
    simp only [List.nil_append]
    split_ifs
    · exact hf ns s hs
    · exact hnone s hs
  · rw [Exec.bind_of_some (a := none) rfl]
    exact hnone s hs

theorem obeys_evalCall (callee : Expr) (args : List Expr) (henv : ρ.runsIn env) (line : ℕ) :
    Obeys ρ (evalCall R n callee args env line) ρ.value := by
  unfold evalCall
  split
  · refine obeys_builtinCallee_bind hR n _ _ _ henv _ (fun m hm => hm) ?_
    exact (hR.evalExpr _ env henv).bind fun obj hobj =>
      obeys_unlessError value_void (obeys_callMethod hR n hobj _ _ henv _)
  · exact (hR.evalExpr _ env henv).bind fun fn _ =>
      obeys_unlessError value_void (obeys_callFn hR n fn _ henv _)

omit [Host ω] in
theorem obeys_evalNew (className : Text) (args : List Expr) (henv : ρ.runsIn env) (line : ℕ) :
    Obeys ρ (evalNew R n className args env line) ρ.value := by
  refine (obeys_envGet env className).bind fun cls _ => ?_
  split
  · exact obeys_constructInstance hR n _ _ henv
  · exact obeys_fail _ _

/-- **An expression.** -/
theorem obeys_evalExpr (e : Expr) (henv : ρ.runsIn env) :
    Obeys ρ (evalExpr R n e env) ρ.value := by
  have hexpr := fun e => hR.evalExpr e env henv
  refine obeys_unlessError value_void ?_
  cases e with
  | num line k => exact obeys_pure (value_num k)
  | decimal line d => exact obeys_pure (value_decimal d)
  | scifi line d => exact obeys_pure (RunRule.Lawful.plain _ fun _ h => by cases h)
  | bool line b => exact obeys_pure (value_bool b)
  | str line parts => exact obeys_evalStringInterp hR n _ _ henv
  | ident line name => exact obeys_evalIdent _ _ _
  | binary line left right op =>
    exact (hexpr left).bind fun l _ => (hexpr right).bind fun r _ =>
      obeys_unlessError value_void (obeys_evalBinary _ _ _ _ _)
  | unary line operand op => exact (hexpr operand).bind fun v _ => obeys_evalUnary _ _
  | between line value low high =>
    exact (hexpr value).bind fun v _ => (hexpr low).bind fun lo _ => (hexpr high).bind fun hi _ =>
      obeys_pure (value_bool _)
  | ternary line cond thenE elseE =>
    exact (hexpr cond).bind fun c _ => obeys_read_bind fun t =>
      obeys_ite (hexpr thenE) (hexpr elseE)
  | list line items =>
    exact (obeys_newList (List.forall_mem_nil _)).bind fun l _ =>
      (obeys_appendItems hR l items henv).bind fun _ _ => obeys_pure (value_list l)
  | data line entries =>
    exact (obeys_newData (List.forall_mem_nil _)).bind fun d hd =>
      (obeys_setEntries hR hd entries henv).bind fun _ _ => obeys_pure hd
  | funcLit line params retType body isAsync =>
    exact (obeys_newFunc _).bind fun f _ =>
      obeys_pure (RunRule.Lawful.plain _ fun _ h => by cases h)
  | await line e =>
    exact (hexpr e).bind fun v hv => obeys_unlessError value_void (obeys_evalAwait hv _)
  | member line object name =>
    exact (hexpr object).bind fun obj hobj =>
      obeys_unlessError value_void (obeys_evalMember hobj _ _)
  | index line object index =>
    exact (hexpr object).bind fun obj hobj => (hexpr index).bind fun idx _ =>
      obeys_evalIndex hobj _ _
  | assign line target value op => exact obeys_evalAssign hR n _ _ _ henv _
  | call line callee args => exact obeys_evalCall hR n _ _ henv _
  | new line className args => exact obeys_evalNew hR n _ _ henv _

/-! ### Statements -/

omit [Host ω] in
theorem obeys_execElifs (elifs : List (Expr × Stmt)) (elseB : Option Stmt) (henv : ρ.runsIn env)
    (helifs : ∀ branch ∈ elifs, ρ.MayRun env branch.2) (helse : ∀ s ∈ elseB, ρ.MayRun env s) :
    Obeys ρ (execElifs R elifs elseB env) (ExecResult.Meets ρ.value) := by
  induction elifs with
  | nil =>
    cases elseB with
    | some s => exact hR.execStmt s env (helse s rfl)
    | none => exact obeys_pure trivial
  | cons branch elifs ih =>
    have hrest := ih fun branch hbranch => helifs branch (List.mem_cons_of_mem _ hbranch)
    exact (hR.evalExpr _ env henv).bind fun c _ => obeys_read_bind fun t =>
      obeys_ite (hR.execStmt _ env (helifs branch List.mem_cons_self)) hrest

omit hR [Host ω] in
theorem obeys_afterTurn {r : ExecResult} (hr : r.Meets ρ.value) {next : Prog ω ExecResult}
    (h : Obeys ρ next (ExecResult.Meets ρ.value)) :
    Obeys ρ (afterTurn r next) (ExecResult.Meets ρ.value) := by
  cases r with
  | none => exact obeys_unlessError trivial h
  | ret v => exact obeys_pure hr

omit [Host ω] in
theorem obeys_loopWhile (cond : Expr) {body : Stmt} (henv : ρ.MayRun env body) :
    Obeys ρ (loopWhile R cond body env n) (ExecResult.Meets ρ.value) := by
  induction n with
  | zero => exact obeys_giveUp
  | succ n ih =>
    refine (hR.evalExpr _ env henv.runsIn).bind fun c _ => obeys_read_bind fun t => ?_
    refine obeys_ite (obeys_unlessError trivial ?_) (obeys_pure trivial)
    exact (hR.execStmt _ env henv).bind fun r hr => obeys_afterTurn hr ih

omit [Host ω] in
theorem obeys_doWhile (cond : Expr) {body : Stmt} (henv : ρ.MayRun env body) :
    Obeys ρ (doWhile R cond body env n) (ExecResult.Meets ρ.value) := by
  induction n with
  | zero => exact obeys_giveUp
  | succ n ih =>
    refine (hR.execStmt _ env henv).bind fun r hr => obeys_afterTurn hr ?_
    exact (hR.evalExpr _ env henv.runsIn).bind fun c _ => obeys_read_bind fun t =>
      obeys_ite (obeys_unlessError trivial ih) (obeys_pure trivial)

omit [Host ω] in
theorem obeys_turnIsMade (cond : Option Expr) (henv : ρ.runsIn env) :
    Obeys ρ (turnIsMade R cond env) Anything := by
  cases cond with
  | some e => exact (hR.evalExpr _ env henv).bind fun c _ => obeys_read fun _ _ => trivial
  | none => exact obeys_pure trivial

omit [Host ω] in
theorem obeys_overNodes (var : Text) (cond : Option Expr) (body : Stmt) (env : Env)
    (cur : Option ℕ) :
    Obeys ρ (overNodes R var cond body env n cur) (ExecResult.Meets ρ.value) := by
  induction n generalizing cur with
  | zero =>
    cases cur with
    | none => exact obeys_pure trivial
    | some p => exact obeys_giveUp
  | succ n ih =>
    cases cur with
    | none => exact obeys_pure trivial
    | some p =>
      have hnext := (obeys_nextNode (ρ := ρ) p).bind fun next _ => ih next
      refine (obeys_nodeOf p).bind fun node hnode => (obeys_newEnv env).bind fun loopEnv hloop => ?_
      refine (obeys_envDefine hloop _ hnode _).bind fun _ _ => ?_
      refine (obeys_turnIsMade hR cond hloop.runsIn).bind fun made _ => obeys_ite ?_ hnext
      exact (hR.execStmt _ loopEnv (.inl hloop)).bind fun r hr => obeys_afterTurn hr hnext

omit [Host ω] in
theorem obeys_overValues (var : Text) (body : Stmt) (env : Env) {vals : List Value}
    (hvals : ∀ v ∈ vals, ρ.value v) :
    Obeys ρ (overValues R var body env vals) (ExecResult.Meets ρ.value) := by
  induction vals with
  | nil => exact obeys_pure trivial
  | cons v vals ih =>
    have hrest := ih fun v hv => hvals v (List.mem_cons_of_mem _ hv)
    refine (obeys_newEnv env).bind fun loopEnv hloop => ?_
    refine (obeys_envDefine hloop _ (hvals v List.mem_cons_self) _).bind fun _ _ => ?_
    exact (hR.execStmt _ loopEnv (.inl hloop)).bind fun r hr => obeys_afterTurn hr hrest

omit [Host ω] in
theorem obeys_forIn (coll : Value) (var : Text) (cond : Option Expr) (body : Stmt) (env : Env)
    (line : ℕ) : Obeys ρ (forIn R n coll var cond body env line) (ExecResult.Meets ρ.value) := by
  unfold forIn
  split
  · exact obeys_read_bind fun head => obeys_overNodes hR n _ _ _ _ _
  · exact (obeys_rtError _ _).bind fun _ _ => obeys_pure trivial

omit [Host ω] in
theorem obeys_iterate {coll : Value} (hcoll : ρ.value coll) (var : Text) (body : Stmt) (env : Env)
    (line : ℕ) : Obeys ρ (iterate R n coll var body env line) (ExecResult.Meets ρ.value) := by
  unfold iterate
  split
  · exact obeys_read_bind fun head => obeys_overNodes hR n _ _ _ _ _
  · next d =>
    refine (obeys_read fun s hs v hv => ?_).bind fun vals hvals => obeys_overValues hR _ _ _ hvals
    obtain ⟨e, he, rfl⟩ := List.mem_map.mp hv
    exact RunRule.Lawful.data s d hs hcoll e (List.mem_reverse.mp he)
  · exact (obeys_rtError _ _).bind fun _ _ => obeys_pure trivial

omit [Host ω] in
/-- A `try` statement starts with no error pending, so it saves a clear flag. -/
theorem obeys_tryCatch {tryB : Stmt} (htry : ρ.MayRun env tryB) (errName : Text) (catchB : Stmt) :
    ObeysClear ρ (tryCatch R tryB errName catchB env) (ExecResult.Meets ρ.value) := by
  refine Exec.TripleWhile.seq (fun saved s => (ρ.inv s ∧ s.it.hadRuntimeError = false) ∧
    ρ.saves saved ∧ saved.hadRuntimeError = false) ?_ fun saved => ?_
  · exact Exec.triple_read fun s hs => ⟨hs, RunRule.Lawful.saved s hs.1 hs.2, hs.2⟩
  refine Exec.TripleWhile.seq (fun _ s => ρ.inv s ∧ ρ.saves saved ∧ saved.hadRuntimeError = false)
    ?_ fun _ => ?_
  · refine Exec.triple_act fun s hs => ?_
    have hkeeps := RunRule.Lawful.keeps s _ _ hs.1.1 (.enterTry hs.1.2)
    exact ⟨hkeeps.1, hkeeps.2, hs.2⟩
  refine Exec.TripleWhile.seq (fun _ s => ρ.inv s ∧ ρ.saves saved ∧ saved.hadRuntimeError = false)
    ?_ fun _ => ?_
  · exact (hR.execStmt tryB env htry).frame.weaken (fun _ hs => hs) fun _ _ hs => ⟨hs.1.1, hs.2⟩
  refine Exec.TripleWhile.seq (fun b s => (ρ.inv s ∧ b = s.it.hadRuntimeError) ∧
    ρ.saves saved ∧ saved.hadRuntimeError = false) ?_ fun failed => ?_
  · exact Exec.triple_read fun s hs => ⟨⟨hs.1, rfl⟩, hs.2⟩
  cases failed with
  | false =>
    refine Exec.TripleWhile.seq (fun _ => ρ.inv) ?_ fun _ =>
      (obeys_pure trivial : Obeys ρ (pure .none) (ExecResult.Meets ρ.value))
    refine Exec.triple_act fun s hs => ?_
    obtain ⟨⟨hinv, hflag⟩, hsaved, hclear⟩ := hs
    exact RunRule.Lawful.keeps s _ _ hinv (.leaveTry saved hflag.symm hclear hsaved)
  | true =>
    -- the steps up to the handler leave the flag set
    refine Exec.TripleWhile.bind ((triple_newEnv (·.hadRuntimeError = true) env).weaken
      (fun s hs => ⟨hs.1.1, hs.1.2.symm⟩) fun _ _ hs => hs) fun catchEnv => ?_
    refine Exec.TripleWhile.seq (fun msg s => ((ρ.inv s ∧ s.it.hadRuntimeError = true ∧
      s.it.errorMessage.getD (txt "error") = msg) ∧ NewEnv ρ catchEnv s)) ?_ fun msg => ?_
    · exact Exec.triple_read fun s hs => ⟨⟨hs.1.1, hs.1.2, rfl⟩, hs.2⟩
    refine Exec.TripleWhile.bind (triple_define_newEnv (fun it => it.hadRuntimeError = true ∧
      it.errorMessage.getD (txt "error") = msg) errName (value_string msg) false) fun _ => ?_
    refine Exec.TripleWhile.seq (fun _ s => ρ.inv s ∧ OwnEnv ρ catchEnv) ?_ fun _ => ?_
    · refine Exec.triple_act fun s hs => ?_
      obtain ⟨⟨hinv, hflag, rfl⟩, hown, hentry⟩ := hs
      have hkeeps := RunRule.Lawful.keeps s _ _ hinv (.catchError errName hflag hentry)
      exact ⟨hkeeps.1, hkeeps.2, hown⟩
    · exact fun s hs => hR.execStmt catchB catchEnv (.inl hs.2) s hs.1

omit hR [Host ω] in
/-- A variable declaration. -/
theorem obeys_varDecl {line : ℕ} {name : Text} {type : TypeInfo} {init : Option Expr}
    {isFixed : Bool} (henv : ρ.MayRun env (.varDecl line name type init isFixed)) {v : Value}
    (hv : ρ.value v) : Obeys ρ (envDefine env name v isFixed : Prog ω Unit) Anything := by
  rcases henv with hown | ⟨hruns, hbinds⟩
  · exact obeys_envDefine hown name hv isFixed
  · exact obeys_declare hruns (hbinds name (.varDecl line type init isFixed)) hv isFixed

omit [Host ω] in
/-- **A statement.** -/
theorem obeys_execStmt (s : Stmt) (henv : ρ.MayRun env s) :
    Obeys ρ (execStmt R n s env) (ExecResult.Meets ρ.value) := by
  have hexpr := fun e => hR.evalExpr e env henv.runsIn
  refine obeysClear_unlessError trivial ?_
  cases s with
  | varDecl line name type init isFixed =>
    refine Obeys.clear ((obeys_evalInit hR init henv.runsIn).bind fun v hv => ?_)
    exact obeys_unlessError trivial ((obeys_varDecl henv hv).bind fun _ _ => obeys_pure trivial)
  | expr line e => exact ((hexpr e).bind fun v _ => obeys_pure trivial).clear
  | ifStmt line cond thenB elifs elseB =>
    refine Obeys.clear ((hexpr cond).bind fun c _ => obeys_unlessError trivial ?_)
    refine obeys_read_bind fun t => obeys_ite ?_ ?_
    · exact hR.execStmt _ env (henv.mono fun _ => .thenB)
    · refine obeys_execElifs hR _ _ henv.runsIn (fun branch hbranch => ?_) fun s hs => ?_
      · exact henv.mono fun _ => .elif hbranch
      · obtain rfl := Option.mem_def.mp hs
        exact henv.mono fun _ => .elseB
  | loopWhile line cond body =>
    exact (obeys_loopWhile hR n _ (henv.mono fun _ => .loopWhile)).clear
  | doWhile line cond body => exact (obeys_doWhile hR n _ (henv.mono fun _ => .doWhile)).clear
  | forIn line var iterable cond body =>
    exact ((hexpr iterable).bind fun coll _ => obeys_forIn hR n _ _ _ _ _ _).clear
  | iterate line collection item body =>
    exact ((hexpr collection).bind fun coll hcoll => obeys_iterate hR n hcoll _ _ _ _).clear
  | ret line value =>
    refine Obeys.clear ((obeys_evalInit hR value henv.runsIn).bind fun v hv => ?_)
    exact obeys_pure (show ExecResult.Meets ρ.value (.ret v) from hv)
  | block line stmts => exact (obeys_execBlock hR _ _).clear
  | tryCatch line tryB errName catchB =>
    exact obeys_tryCatch hR (henv.mono fun _ => .tryB) _ _
  | _ => exact (obeys_pure trivial).clear

end Interp

/-- **Every run of the interpreter keeps to every lawful rule.** -/
theorem Evaluator.obeys {ω : Type} [Host ω] (ρ : RunRule ω) [ρ.Lawful] (n : ℕ) :
    (evaluator n : Evaluator ω).Obeys ρ := by
  induction n with
  | zero =>
    constructor
    · exact fun _ _ _ => obeys_giveUp
    · exact fun _ _ _ => obeys_giveUp
  | succ n ih =>
    constructor
    · exact fun e _ henv => obeys_evalExpr ih n e henv
    · exact fun s _ henv => obeys_execStmt ih n s henv

end Jaguar
