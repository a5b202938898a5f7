/-
`try` and `catch`.

* `tryCatch_clear` — a block that ends without an error: what it returned is dropped;
* `tryCatch_error` — a block that ends with one: the handler runs;
* `tryLaw_iff` — **the block is transparent exactly when it does not return**.
-/
import Jaguar.InterpSteps

namespace Jaguar

section TryCatch

variable {ω : Type} {R : Evaluator ω} {tryB catchB : Stmt} {errName : Text} {env : Env}

structure NoPendingError (s : Machine ω) : Prop where
  flag : s.it.hadRuntimeError = false
  message : s.it.errorMessage = none

theorem NoPendingError.clearError {s : Machine ω} (h : NoPendingError s) :
    ({ s with it := s.it.clearError } : Machine ω) = s := by
  obtain ⟨heap, ⟨globals, flag, message, file, path⟩, world⟩ := s
  obtain ⟨rfl, rfl⟩ := h
  rfl

/-- The fresh scope of a handler: `e` is bound to the message, and the error is cleared. -/
def handlerState (errName msg : Text) (s : Machine ω) : Machine ω where
  heap := s.heap.newFrame.define s.heap.frames.length ⟨errName, .string msg, false⟩
  it := s.it.clearError
  world := s.world

/-- The end of the block, seen from the statement. -/
theorem ends_tryCatch {s s' : Machine ω} (h : NoPendingError s) {r : ExecResult}
    (hrun : (R.execStmt tryB env s).ends = (some r, s')) :
    (tryCatch R tryB errName catchB env s).ends =
      if s'.it.hadRuntimeError then
        (R.execStmt catchB (s'.heap.frames.length :: env)
          (handlerState errName (s'.it.errorMessage.getD (txt "error")) s')).ends
      else (some .none, { s' with it := { s'.it with
        hadRuntimeError := s.it.hadRuntimeError, errorMessage := s.it.errorMessage } }) := by
  unfold tryCatch
  rw [Exec.ends_read_bind, Exec.ends_act_bind, h.clearError, Exec.ends_bind hrun, errorPending,
    Exec.ends_read_bind]
  split
  · have hnew : (envNew env s').ends
        = (some (s'.heap.frames.length :: env), { s' with heap := s'.heap.newFrame }) := rfl
    rw [Exec.ends_bind hnew, Exec.ends_read_bind, envDefine, onHeap, Exec.ends_act_bind, Exec.ends_act_bind]
    rfl
  · rw [Exec.ends_act_bind]
    rfl

/-- A `try` statement, when no error is pending. -/
theorem ends_execStmt_tryCatch (n line : ℕ) {s : Machine ω} (h : NoPendingError s) :
    (execStmt R n (.tryCatch line tryB errName catchB) env s).ends
      = (tryCatch R tryB errName catchB env s).ends := by
  unfold execStmt unlessError errorPending
  rw [Exec.ends_read_bind, h.flag]
  rfl

end TryCatch

/-! ### The law -/

section TryLaw

variable {ω : Type} [Host ω]

/-- A block that ends without an error gives the statement its result and its effects; one
that ends with an error gives it the result of the handler, in a fresh scope where the
name is bound to the message, with the error cleared. -/
structure TryLaw (n line : ℕ) (tryB : Stmt) (errName : Text) (catchB : Stmt) (env : Env)
    (s : Machine ω) : Prop where
  clear : ∀ r s', ((evaluator n).execStmt tryB env s).ends = (some r, s') →
    s'.it.hadRuntimeError = false → ∃ s'',
    ((evaluator (n + 1)).execStmt (.tryCatch line tryB errName catchB) env s).ends = (some r, s'') ∧
      s''.heap = s'.heap ∧ s''.world = s'.world ∧ s''.it.hadRuntimeError = false
  error : ∀ r s' msg, ((evaluator n).execStmt tryB env s).ends = (some r, s') →
    s'.it.hadRuntimeError = true → s'.it.errorMessage = some msg →
    ((evaluator (n + 1)).execStmt (.tryCatch line tryB errName catchB) env s).ends =
      ((evaluator n).execStmt catchB (s'.heap.frames.length :: env)
        (handlerState errName msg s')).ends

/-- The block ends with `return`, and not with an error. -/
def EndsInReturn (n : ℕ) (tryB : Stmt) (env : Env) (s : Machine ω) : Prop :=
  ∃ v s', ((evaluator n).execStmt tryB env s).ends = (some (.ret v), s') ∧
    s'.it.hadRuntimeError = false

/-- **When the law holds.** -/
theorem tryLaw_iff (n line : ℕ) (tryB : Stmt) (errName : Text) (catchB : Stmt) (env : Env)
    {s : Machine ω} (h : NoPendingError s) :
    TryLaw n line tryB errName catchB env s ↔ ¬ EndsInReturn n tryB env s := by
  have hends := @ends_execStmt_tryCatch ω (evaluator n) tryB catchB errName env n line s h
  constructor
  · rintro hlaw ⟨v, s', hrun, hclear⟩
    obtain ⟨s'', hret, -⟩ := hlaw.clear _ s' hrun hclear
    rw [evaluator, hends, ends_tryCatch h hrun, if_neg (Bool.eq_false_iff.mp hclear)] at hret
    cases hret
  · intro hreturns
    constructor
    · intro r s' hrun hclear
      rw [evaluator, hends, ends_tryCatch h hrun, if_neg (Bool.eq_false_iff.mp hclear)]
      cases r with
      | ret v => exact absurd ⟨v, s', hrun, hclear⟩ hreturns
      | none => exact ⟨_, rfl, rfl, rfl, h.flag⟩
    · intro r s' msg hrun hflag hmsg
      rw [evaluator, hends, ends_tryCatch h hrun, if_pos hflag, hmsg]
      rfl

end TryLaw

/-- The state behind `var x: num = 1;`. -/
def numOne : Machine Unit :=
  (@execStmts Unit (@evaluator Unit silentHost 3)
    [.varDecl 1 (txt "x") (.new .num) (some (.num 1 1)) false] [0] (interpInit ())).state

/-- `{ x = 2; }` -/
def setX : Stmt := .block 1 [.expr 1 (.assign 1 (.ident 1 (txt "x")) (.num 1 2) .assign)]

/-- `{ x = 2; y; x = 3; }`, which stops at `y`. -/
def failsAtY : Stmt := .block 1 [.expr 1 (.assign 1 (.ident 1 (txt "x")) (.num 1 2) .assign),
  .expr 2 (.ident 2 (txt "y")), .expr 3 (.assign 3 (.ident 3 (txt "x")) (.num 3 3) .assign)]

/-- `{ x = e; }` -/
def setToMessage : Stmt :=
  .block 1 [.expr 1 (.assign 1 (.ident 1 (txt "x")) (.ident 1 (txt "e")) .assign)]

/-- The outcome has a value, and it is no `return`. -/
def fallsThrough (o : Exec.Outcome (Machine Unit) Act ExecResult) : Bool :=
  match o.value with
  | some .none => true
  | _ => false

theorem not_endsInReturn {n : ℕ} {tryB : Stmt} {env : Env} {s : Machine Unit}
    (h : fallsThrough ((@evaluator Unit silentHost n).execStmt tryB env s) = true) :
    ¬ @EndsInReturn Unit silentHost n tryB env s := by
  rintro ⟨v, s', hrun, -⟩
  unfold fallsThrough at h
  rw [(Prod.mk.inj hrun).1] at h
  cases h

theorem tryLaw_iff_setX :
    NoPendingError numOne ∧
    @TryLaw Unit silentHost 4 1 setX (txt "e") setToMessage [0] numOne ∧
    @TryLaw Unit silentHost 4 1 failsAtY (txt "e") setToMessage [0] numOne := by
  have hclear : NoPendingError numOne := ⟨by decide +kernel, by decide +kernel⟩
  exact ⟨hclear, (@tryLaw_iff Unit silentHost 4 1 _ _ _ _ _ hclear).mpr
    (not_endsInReturn (by decide +kernel)), (@tryLaw_iff Unit silentHost 4 1 _ _ _ _ _ hclear).mpr
    (not_endsInReturn (by decide +kernel))⟩

/-- `{ return 1; }` -/
def returnOne : Stmt := .block 1 [.ret 1 (some (.num 1 1))]

/-- **`try { return 1; } catch (e) {}` does not return.** -/
theorem try_drops_return : ¬ ∀ (n line : ℕ) (tryB : Stmt) (errName : Text) (catchB : Stmt)
    (env : Env) (s : Machine Unit), NoPendingError s →
    @TryLaw Unit silentHost n line tryB errName catchB env s := by
  intro h
  have hlaw := h 3 1 returnOne (txt "e") (.block 1 []) [0] (interpInit ()) ⟨rfl, rfl⟩
  obtain ⟨s'', hends, -⟩ :=
    @TryLaw.clear Unit silentHost _ _ _ _ _ _ _ hlaw (.ret (.num 1)) _ rfl rfl
  have hfalls : fallsThrough ((@evaluator Unit silentHost 4).execStmt
      (.tryCatch 1 returnOne (txt "e") (.block 1 [])) [0] (interpInit ())) = true := by
    decide +kernel
  unfold fallsThrough at hfalls
  rw [(Prod.mk.inj hends).1] at hfalls
  cases hfalls

end Jaguar
