/-
The error state of the interpreter: a flag, and a message.

* `session_errorState` — **the two go together, and only a handler clears them**: in every
  state of every run the flag is set exactly when there is a message, and the one step that
  clears a set flag is that of a `try` statement whose handler is about to run, in a scope
  where the message is bound;
* `Allowed.clears` — what such a step is;
* `steps_tryCatch` — what stands around it.
-/
import Jaguar.Sessions
import Jaguar.TryCatch

namespace Jaguar

/-! ### The flag and the message -/

/-- The flag is set if and only if there is a message. -/
def Interp.Paired (it : Interp) : Prop := it.hadRuntimeError = it.errorMessage.isSome

instance : ErrorRule Interp.Paired where
  raise _ _ _ := rfl
  clear _ := rfl
  restore _ _ hsaved _ := hsaved
  slot _ _ _ h := h

/-- The newest frame of all is the scope of a handler: it holds the pending message. -/
def BindsPending {ω : Type} (s : Machine ω) : Prop :=
  ∃ name msg, s.it.errorMessage = some msg ∧
    s.heap.frames.getLast? = some [⟨name, .string msg, false⟩]

section Session

variable {ω : Type}

/-- **A step that clears the flag.** -/
theorem Allowed.clears {n₀ : ℕ} {st : Exec.Step (Machine ω) Act} (h : Allowed n₀ st)
    (hpaired : st.pre.it.Paired) (hset : st.pre.it.hadRuntimeError = true)
    (hclear : st.post.it.hadRuntimeError = false) :
    st.label = .catchError ∧ BindsPending st.pre ∧ st.post = { st.pre with it := st.pre.it.clearError } := by
  obtain ⟨label, s, s'⟩ := st
  have hdoes : label.Does s s' := h.1
  have hsome : s.it.errorMessage.isSome := hpaired.symm.trans hset
  cases hdoes with
  | catchError name hflag hentry =>
    obtain ⟨msg, hmsg⟩ := Option.isSome_iff_exists.mp hsome
    refine ⟨rfl, ⟨name, msg, hmsg, ?_⟩, rfl⟩
    rw [hmsg] at hentry
    exact hentry
  | raise line msg => cases hclear
  | enterTry hflag => exact absurd (hset.symm.trans hflag) Bool.noConfusion
  | leaveTry msg hflag => exact absurd (hset.symm.trans hflag) Bool.noConfusion
  | _ => exact absurd (hset.symm.trans hclear) Bool.noConfusion

end Session

section Handler

variable {ω : Type} [Host ω]

/-- The state in which the block of a `try` statement starts. -/
def entered (s : Machine ω) : Machine ω := { s with it := s.it.clearError }

/-- The steps that lead from the end of a block, at `s`, to the handler: a new scope, the
message in it, and the error is cleared. -/
def handlerSteps (errName msg : Text) (s : Machine ω) : List (Exec.Step (Machine ω) Act) :=
  let opened : Machine ω := { s with heap := s.heap.newFrame }
  let bound : Machine ω := { s with heap := (handlerState errName msg s).heap }
  [⟨.newFrame, s, opened⟩, ⟨.define s.heap.frames.length errName, opened, bound⟩,
    ⟨.catchError, bound, handlerState errName msg s⟩]

omit [Host ω] in
/-- **A `try` statement whose block ends with an error**: the steps of the block, those that
lead to the handler, and those of the handler. -/
theorem steps_tryCatch {R : Evaluator ω} {tryB catchB : Stmt} {errName : Text} {env : Env}
    {s s' : Machine ω} {r : ExecResult}
    (hrun : (R.execStmt tryB env (entered s)).ends = (some r, s'))
    (hfailed : s'.it.hadRuntimeError = true) :
    (tryCatch R tryB errName catchB env s).steps =
      ⟨.enterTry, s, entered s⟩ :: ((R.execStmt tryB env (entered s)).steps ++
        (handlerSteps errName (s'.it.errorMessage.getD (txt "error")) s' ++
          (R.execStmt catchB (s'.heap.frames.length :: env)
            (handlerState errName (s'.it.errorMessage.getD (txt "error")) s')).steps)) := by
  unfold tryCatch
  rw [Exec.steps_read_bind, Exec.steps_act_bind]
  refine congrArg _ ((Exec.steps_bind hrun).trans (congrArg _ ?_))
  rw [errorPending, Exec.steps_read_bind, if_pos hfailed]
  have hnew : (envNew env s').ends
      = (some (s'.heap.frames.length :: env), { s' with heap := s'.heap.newFrame }) := rfl
  rw [Exec.steps_bind hnew, Exec.steps_read_bind, envDefine, onHeap, Exec.steps_act_bind,
    Exec.steps_act_bind]
  rfl

/-- In every state the flag and the message go together. A step that clears the flag is that
of a `try` statement whose block has failed: it stands behind a new scope that holds the
message, and before the handler. -/
structure ErrorStateSound (o : Exec.Outcome (Machine ω) Act Unit) : Prop where
  paired : ∀ st ∈ o.steps, st.pre.it.Paired ∧ st.post.it.Paired
  ends : o.state.it.Paired
  cleared : ∀ st ∈ o.steps, st.pre.it.hadRuntimeError = true →
    st.post.it.hadRuntimeError = false →
    st.label = .catchError ∧ BindsPending st.pre ∧ st.post = entered st.pre

/-- **The error state, in every run of a program and of callbacks.** -/
theorem session_errorState (n : ℕ) (entries : List Entry) (w : ω) :
    ErrorStateSound (session n entries (interpInit w)) ∧
    ∀ (R : Evaluator ω) tryB errName catchB env s s' r,
      (R.execStmt tryB env (entered s)).ends = (some r, s') →
      s'.it.hadRuntimeError = true →
      (tryCatch R tryB errName catchB env s).steps =
        ⟨.enterTry, s, entered s⟩ :: ((R.execStmt tryB env (entered s)).steps ++
          (handlerSteps errName (s'.it.errorMessage.getD (txt "error")) s' ++
            (R.execStmt catchB (s'.heap.frames.length :: env)
              (handlerState errName (s'.it.errorMessage.getD (txt "error")) s')).steps)) := by
  refine ⟨?_, fun R tryB errName catchB env s s' r => steps_tryCatch⟩
  have hrun := session_follows Interp.Paired n entries (interpInit w) ⟨Nat.zero_le _, rfl⟩
  have hpost : ∀ st ∈ (session n entries (interpInit w)).steps, st.post.it.Paired :=
    fun st hst => (hrun.steps st hst).2
  obtain ⟨hpre, hend⟩ := hrun.chained.forall_pre (Q := fun s => s.it.Paired) rfl hpost
  refine ⟨fun st hst => ⟨hpre st hst, hpost st hst⟩, hend, fun st hst hset hclear => ?_⟩
  exact (hrun.steps st hst).1.clears (hpre st hst) hset hclear

end Handler

end Jaguar
