/-
Callbacks one after the other.

The HTTP server, the WebSocket server, timers and worker threads call into the interpreter
with `interp_invoke` and `interp_invoke_closure`, on one and the same `Interp`. Nothing
clears the error state between two calls.

* `callback_pending` — with an error pending, a callback returns `void` and leaves it pending;
* `pending_persists` — so the first error that is not caught stays;
* `runsOwnBody_iff` — **every callback runs its body exactly when every error of a callback
  before it has been caught**, by a script or handler that waits inside a `try`.
-/
import Jaguar.InterpSteps
import Jaguar.Runs

namespace Jaguar

/-- A call from outside. -/
inductive Invocation
  | invoke (callee : Value) (argv : List Value)
  | invokeClosure (callee : Value) (argv : List Value)

section Callbacks

variable {ω : Type} [Host ω]

def Invocation.run (n : ℕ) (cb : Invocation) : Prog ω Value :=
  match cb with
  | .invoke callee argv => interpInvoke (evaluator n) callee argv
  | .invokeClosure callee argv => interpInvokeClosure (evaluator n) callee argv

/-! ### With an error pending -/

/-- From a state with an error pending, `m` returns with the error pending, and what it returns
meets `post`. -/
def WhilePending {α : Type} (m : Prog ω α) (post : α → Prop) : Prop :=
  Exec.Triple (fun _ => True) (fun s => s.it.hadRuntimeError = true) m
    fun a s => s.it.hadRuntimeError = true ∧ post a

omit [Host ω] in
theorem WhilePending.bind {α β : Type} {m : Prog ω α} {f : α → Prog ω β} {post : α → Prop}
    {post' : β → Prop} (hm : WhilePending m post) (hf : ∀ a, post a → WhilePending (f a) post') :
    WhilePending (m >>= f) post' :=
  Exec.TripleWhile.bind hm fun a s hs => hf a hs.2 s hs.1

omit [Host ω] in
theorem WhilePending.seq {α β : Type} {m : Prog ω α} {f : α → Prog ω β} {post' : β → Prop}
    (mid : α → Prop) (hm : WhilePending m mid) (hf : ∀ a, mid a → WhilePending (f a) post') :
    WhilePending (m >>= f) post' :=
  hm.bind hf

omit [Host ω] in
theorem whilePending_pure {α : Type} {a : α} {post : α → Prop} (h : post a) :
    WhilePending (pure a : Prog ω α) post :=
  Exec.triple_pure fun _ hs => ⟨hs, h⟩

omit [Host ω] in
theorem whilePending_read {α : Type} (f : Machine ω → α) :
    WhilePending (Exec.read f : Prog ω α) fun _ => True :=
  Exec.triple_read fun _ hs => ⟨hs, trivial⟩

omit [Host ω] in
theorem whilePending_readSome {α : Type} (f : Machine ω → Option α) :
    WhilePending (Exec.readSome f : Prog ω α) fun _ => True :=
  Exec.triple_readSome fun _ _ hs _ => ⟨hs, trivial⟩

omit [Host ω] in
theorem whilePending_onHeap (a : Act) (f : Heap → Heap) :
    WhilePending (onHeap a f : Prog ω Unit) fun _ => True :=
  Exec.triple_act fun _ hs => ⟨trivial, hs, trivial⟩

omit [Host ω] in
theorem whilePending_unlessError {α : Type} {dflt : α} {m : Prog ω α} :
    WhilePending (unlessError dflt m) fun a => a = dflt := by
  refine Exec.TripleWhile.seq (fun b s => s.it.hadRuntimeError = true ∧ b = true)
    (Exec.triple_read fun s hs => ⟨hs, hs⟩) fun b => ?_
  cases b with
  | true => exact Exec.triple_pure fun s hs => ⟨hs.1, rfl⟩
  | false => exact fun s hs => nomatch hs.2

omit [Host ω] in
theorem whilePending_envNew (parent : Env) :
    WhilePending (envNew parent : Prog ω Env) fun _ => True :=
  (whilePending_read _).bind fun _ _ => (whilePending_onHeap _ _).bind fun _ _ =>
    whilePending_pure trivial

omit [Host ω] in
theorem whilePending_bindParams (params : List Param) (argv : List Value) (env : Env) :
    WhilePending (bindParams params argv env : Prog ω Unit) fun _ => True := by
  induction params generalizing argv with
  | nil => exact whilePending_pure trivial
  | cons p params ih =>
    refine WhilePending.seq (fun _ => True) ?_ fun _ _ => ih argv.tail
    cases env with
    | nil => exact whilePending_pure trivial
    | cons f rest =>
      unfold envDefine
      exact whilePending_onHeap _ _

/-- No statement does anything. -/
theorem whilePending_execStmt (n : ℕ) (s : Stmt) (env : Env) :
    WhilePending ((evaluator n).execStmt s env : Prog ω ExecResult) fun r => r = .none := by
  cases n with
  | zero => exact Exec.triple_giveUp
  | succ n => exact whilePending_unlessError

theorem whilePending_execStmts (n : ℕ) (list : List Stmt) (env : Env) :
    WhilePending (execStmts (evaluator n) list env : Prog ω ExecResult) fun r => r = .none := by
  cases list with
  | nil => exact whilePending_pure rfl
  | cons s rest =>
    refine (whilePending_execStmt n s env).bind fun r hr => ?_
    subst hr
    exact whilePending_unlessError

theorem whilePending_invokeRooted (n : ℕ) {root : FuncValue → Prog ω Env}
    (hroot : ∀ fv, WhilePending (root fv) fun _ => True) (callee : Value) (argv : List Value) :
    WhilePending (invokeRooted (evaluator n) root callee argv) fun v => v = .void := by
  unfold invokeRooted
  split
  · refine (whilePending_readSome _).bind fun fv _ => (hroot fv).bind fun parent _ => ?_
    refine (whilePending_envNew _).bind fun callEnv _ => ?_
    refine (whilePending_bindParams _ _ _).bind fun _ _ => ?_
    refine WhilePending.seq (fun r => r = .none) ?_ fun r hr => ?_
    · exact (whilePending_envNew _).bind fun env _ => (whilePending_onHeap _ _).bind fun _ _ =>
        whilePending_execStmts n _ env
    · exact whilePending_pure (by rw [hr]; rfl)
  · exact Exec.TripleWhile.seq (fun _ s => s.it.hadRuntimeError = true)
      (Exec.triple_act fun s _ => ⟨trivial, rfl⟩) fun _ => Exec.triple_pure fun s hs => ⟨hs, rfl⟩

/-- **A callback that starts with an error pending.** -/
theorem callback_pending (n : ℕ) (cb : Invocation) :
    WhilePending (cb.run n : Prog ω Value) fun v => v = .void := by
  cases cb with
  | invoke callee argv =>
    exact whilePending_invokeRooted n (fun _ => whilePending_read _) callee argv
  | invokeClosure callee argv =>
    exact whilePending_invokeRooted n (fun _ => whilePending_pure trivial) callee argv

/-! ### Sequences of callbacks -/

/-- A callback, and whether it ended with an error; or what is done between callbacks: by the
host, or by a script that waits for the callbacks inside a `try` and finds their error. -/
inductive CallbackEvent
  | call (cb : Invocation) (failed : Bool)
  | host
  | caught

/-- Behind every callback that has ended with an error, an error has been caught. -/
def AllCaught (ls : List CallbackEvent) : Prop :=
  ∀ pre cb post, ls = pre ++ .call cb true :: post → .caught ∈ post

theorem allCaught_snoc {ls : List CallbackEvent} {e : CallbackEvent} :
    AllCaught (ls ++ [e]) ↔ (∀ cb, e ≠ .call cb true) ∧ (e = .caught ∨ AllCaught ls) := by
  constructor
  · intro h
    refine ⟨?_, or_iff_not_imp_left.mpr ?_⟩
    · rintro cb rfl
      exact List.not_mem_nil (h ls cb [] rfl)
    · rintro hne pre cb post rfl
      have hmem := h pre cb (post ++ [e]) (List.append_assoc pre _ [e])
      exact (List.mem_append.mp hmem).resolve_right fun hmem' =>
        hne (List.mem_singleton.mp hmem').symm
  · rintro ⟨hcall, hls⟩ pre cb post heq
    rcases List.eq_nil_or_concat' post with rfl | ⟨post', e', rfl⟩
    · exact absurd (List.append_inj_right' heq rfl) fun he => hcall cb (List.cons.inj he).1
    · obtain ⟨hpre, he⟩ := List.append_inj' (heq.trans (List.append_assoc pre (_ :: post') [e']).symm)
        rfl
      obtain rfl := (List.cons.inj he).1
      rcases hls with rfl | hls
      · exact List.mem_append_right _ List.mem_cons_self
      · exact List.mem_append_left _ (hls pre cb post' hpre)

inductive CallbackStep : Machine ω → CallbackEvent → Machine ω → Prop
  | call {s s' : Machine ω} (n : ℕ) (cb : Invocation) (v : Value) :
      ((cb.run n) s).ends = (some v, s') → CallbackStep s (.call cb s'.it.hadRuntimeError) s'
  /-- Requests come in, responses are made and sent: all but the interpreter's own state. -/
  | host {s : Machine ω} (heap : Heap) (world : ω) :
      CallbackStep s .host { s with heap := heap, world := world }
  /-- A script or handler has waited for the callbacks in the block of a `try`, and has found
  the error. It goes on in its handler. -/
  | caught {s : Machine ω} (heap : Heap) (world : ω) : s.it.hadRuntimeError = true →
      CallbackStep s .caught ⟨heap, s.it.clearError, world⟩

/-- The interpreter starts without an error. -/
def callbackSystem (ω : Type) [Host ω] : LTS (Machine ω) CallbackEvent where
  init s := s.it.hadRuntimeError = false
  step := CallbackStep

/-- **The flag tells whether an error of a callback is still to be caught.** -/
theorem pending_persists {ls : List CallbackEvent} {s : Machine ω}
    (hrun : (callbackSystem ω).Run ls s) :
    s.it.hadRuntimeError = false ↔ AllCaught ls := by
  refine hrun.invariant (I := fun ls s => s.it.hadRuntimeError = false ↔ AllCaught ls)
    (fun s hs => ?_) ?_
  · exact ⟨fun _ pre cb post h => by simp at h, fun _ => hs⟩
  intro ls s e s' hs hstep
  rw [allCaught_snoc, ← hs]
  cases hstep with
  | host heap world => simp
  | caught heap world hpending => exact iff_of_true rfl ⟨nofun, .inl rfl⟩
  | call n cb v hends =>
    have hkept : s.it.hadRuntimeError = true → s'.it.hadRuntimeError = true := fun hpending => by
      have hafter := (callback_pending n cb s hpending).value v (Prod.mk.inj hends).1
      rw [(Prod.mk.inj hends).2] at hafter
      exact hafter.1
    cases hflag : s'.it.hadRuntimeError with
    | true => exact iff_of_false nofun fun h => h.1 cb rfl
    | false =>
      refine iff_of_true rfl ⟨nofun, .inr (Bool.eq_false_iff.mpr fun hpending => ?_)⟩
      rw [hkept hpending] at hflag
      cases hflag

/-! ### The body of the next callback -/

/-- The state with no error pending. -/
def Interp.withoutError (it : Interp) : Interp :=
  if it.hadRuntimeError then it.clearError else it

/-- Every callback, from any memory and surroundings, returns what it returns without a
pending error, and has the same effects. -/
def RunsOwnBody (ω : Type) [Host ω] (it : Interp) : Prop :=
  ∀ (n : ℕ) (cb : Invocation) (heap : Heap) (world : ω) (v : Value) (s : Machine ω),
    ((cb.run n) ⟨heap, it.withoutError, world⟩).ends = (some v, s) →
    ∃ s' : Machine ω, ((cb.run n) ⟨heap, it, world⟩).ends = (some v, s') ∧
      s'.heap = s.heap ∧ s'.world = s.world ∧ s'.it.clearError = s.it.clearError

/-- `fun() { return 1; }`, in a memory of its own. -/
def returnOneHeap : Heap where
  frames := [[]]
  lists := []
  nodes := []
  datas := []
  funcs := [⟨[], .block 1 [.ret 1 (some (.num 1 1))], [0], false, txt "<anonymous>"⟩]
  classes := []
  instances := []
  natives := []

/-- A pending error keeps `fun() { return 1; }` from returning 1. -/
theorem not_runsOwnBody (world : ω) {it : Interp} (h : it.hadRuntimeError = true) :
    ¬ RunsOwnBody ω it := by
  intro hruns
  have hclear : it.withoutError = it.clearError := if_pos h
  obtain ⟨s', hends, -⟩ := hruns 2 (.invokeClosure (.func 0) []) returnOneHeap world (.num 1) _
    (by rw [hclear]; rfl)
  have hvoid := (callback_pending 2 (.invokeClosure (.func 0) [])
    (⟨returnOneHeap, it, world⟩ : Machine ω) h).value _ (Prod.mk.inj hends).1
  exact nomatch hvoid.2

theorem runsOwnBody_of_clear {it : Interp} (h : it.hadRuntimeError = false) :
    RunsOwnBody ω it := by
  intro n cb heap world v s hends
  have hclear : it.withoutError = it := if_neg (by rw [h]; exact Bool.false_ne_true)
  rw [hclear] at hends
  exact ⟨s, hends, rfl, rfl, rfl⟩

/-- **When the next callback runs its own body.**  Whatever it is, it does exactly when the
error of every callback that has failed before it has been caught. -/
theorem runsOwnBody_iff {ls : List CallbackEvent} {s : Machine ω}
    (hrun : (callbackSystem ω).Run ls s) :
    RunsOwnBody ω s.it ↔ AllCaught ls := by
  rw [← pending_persists hrun]
  constructor
  · intro hruns
    by_contra hpending
    exact not_runsOwnBody s.world (Bool.eq_true_of_not_eq_false hpending) hruns
  · exact runsOwnBody_of_clear

end Callbacks

/-- `fun() { x; }` and `fun() { return 1; }`. -/
def twoCallbacks : Machine Unit where
  heap := { returnOneHeap with funcs := ⟨[], .block 1 [.expr 1 (.ident 1 (txt "x"))], [0], false,
    txt "<anonymous>"⟩ :: returnOneHeap.funcs }
  it := (interpInit ()).it
  world := ()

/-- `twoCallbacks` after a call of one of its functions. -/
def afterCallback (f : ℕ) : Machine Unit :=
  (@Invocation.run Unit silentHost 4 (.invokeClosure (.func f) []) twoCallbacks).state

theorem afterCallback_step {f : ℕ} {v : Value} {failed : Bool}
    (hvalue : (@Invocation.run Unit silentHost 4 (.invokeClosure (.func f) []) twoCallbacks).value
      = some v) (hflag : (afterCallback f).it.hadRuntimeError = failed) :
    (@callbackSystem Unit silentHost).Run [.call (.invokeClosure (.func f) []) failed]
      (afterCallback f) := by
  subst hflag
  have hstep := @CallbackStep.call Unit silentHost twoCallbacks (afterCallback f) 4
    (.invokeClosure (.func f) []) v (Prod.ext hvalue rfl)
  exact .snoc (.nil rfl) hstep

/-- `fun() { x; }` fails, and the script that waits for it catches the error. -/
def caughtCallback : List CallbackEvent := [.call (.invokeClosure (.func 0) []) true, .caught]

theorem runsOwnBody_iff_caughtCallback :
    (∃ s : Machine Unit, (@callbackSystem Unit silentHost).Run caughtCallback s ∧
      @RunsOwnBody Unit silentHost s.it) ∧
    ¬ @RunsOwnBody Unit silentHost (afterCallback 0).it := by
  have hrun : (@callbackSystem Unit silentHost).Run [.call (.invokeClosure (.func 0) []) true]
      (afterCallback 0) := afterCallback_step (v := .void) rfl rfl
  have hcaught := hrun.snoc (@CallbackStep.caught Unit silentHost (afterCallback 0)
    twoCallbacks.heap () rfl)
  refine ⟨⟨_, hcaught, (@runsOwnBody_iff Unit silentHost _ _ hcaught).mpr ?_⟩, fun h => ?_⟩
  · exact allCaught_snoc.mpr ⟨nofun, .inl rfl⟩
  · exact List.not_mem_nil ((@runsOwnBody_iff Unit silentHost _ _ hrun).mp h [] _ [] rfl)

/-- **After `fun() { x; }`, whose error nobody catches, no callback runs.** -/
theorem failed_callback_disables : ¬ ∀ (ls : List CallbackEvent) (s : Machine Unit),
    (@callbackSystem Unit silentHost).Run ls s → @RunsOwnBody Unit silentHost s.it := by
  intro h
  have hrun : (@callbackSystem Unit silentHost).Run [.call (.invokeClosure (.func 0) []) true]
      (afterCallback 0) := afterCallback_step (v := .void) rfl rfl
  exact @not_runsOwnBody Unit silentHost () _ rfl (h _ _ hrun)

end Jaguar
