/-
Runs of the interpreter from outside.

A program is run, and then the callbacks it has registered are called: each of these enters
the interpreter, on the state that the entry before it has left.

* `Entry`, `session` — the entries, one after the other;
* `sessionWith` — the same of any interpreter;
* `session_follows`, `session_confined` — **what a step of such a run does**.
-/
import Jaguar.InterpSteps

namespace Jaguar

/-- Where the interpreter is entered. -/
inductive Entry
  | run (program : List Stmt)
  | invoke (callee : Value) (argv : List Value)
  | invokeClosure (callee : Value) (argv : List Value)

section Session

variable {ω : Type} [Host ω]

/-- One entry. -/
def enterWith (R : Evaluator ω) (e : Entry) : Prog ω Unit :=
  match e with
  | .run program => do
    let _ ← interpRun R program
    pure ()
  | .invoke callee argv => do
    let _ ← interpInvoke R callee argv
    pure ()
  | .invokeClosure callee argv => do
    let _ ← interpInvokeClosure R callee argv
    pure ()

/-- A program, say, and then the callbacks it has registered. -/
def sessionWith (R : Evaluator ω) (entries : List Entry) : Prog ω Unit :=
  match entries with
  | [] => pure ()
  | e :: entries => do
    enterWith R e
    sessionWith R entries

/-- The entries, for nestings and loops up to `n`. -/
def session (n : ℕ) (entries : List Entry) : Prog ω Unit := sessionWith (evaluator n) entries

variable {J : Interp → Prop} [ErrorRule J] {R : Evaluator ω}

theorem enterWith_follows (hR : R.Follows J 0) (e : Entry) : Follows J 0 (enterWith R e) := by
  cases e with
  | run program => exact (interpRun_follows hR program).bind fun _ => follows_pure _
  | invoke callee argv =>
    exact (interpInvoke_follows hR callee argv).bind fun _ => follows_pure _
  | invokeClosure callee argv =>
    exact (interpInvokeClosure_follows hR callee argv).bind fun _ => follows_pure _

theorem sessionWith_follows (hR : R.Follows J 0) (entries : List Entry) :
    Follows J 0 (sessionWith R entries) := by
  induction entries with
  | nil => exact follows_pure _
  | cons e entries ih => exact (enterWith_follows hR e).bind fun _ => ih

theorem session_follows (J : Interp → Prop) [ErrorRule J] (n : ℕ) (entries : List Entry) :
    Follows J 0 (session n entries : Prog ω Unit) :=
  sessionWith_follows (Evaluator.follows J 0 n) entries

theorem session_confined (n : ℕ) (entries : List Entry) :
    Confined 0 (session n entries : Prog ω Unit) :=
  (session_follows (fun _ => True) n entries).confined

end Session

end Jaguar
