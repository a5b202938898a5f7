/-
The error that a handler is told of.

`rt_error` replaces the message that is pending, and some constructs complain about an operand
although it has failed already. What is raised on top of an error is the message the handler
gets, unless an inner `try` statement ends before that.

* `CatchesFirst` — the handler gets the message of the first error that nobody has caught;
* `catchesFirst_of_unmarked` — **so it does where no construct complains about an operand
  that has failed**;
* `index_replaces_message` — a failed object of an index expression.
-/
import Jaguar.WatchedRuns

namespace Jaguar

section Catches

variable {ω : Type} [Host ω]

/-- If the block of a `try` statement ends with an error, the handler runs with the message of
the first error of the block that no inner handler has caught. -/
def CatchesFirst (n line : ℕ) (tryB : Stmt) (errName : Text) (catchB : Stmt) (env : Env)
    (s : Machine ω) : Prop :=
  ∀ r s', ((evaluator n).execStmt tryB env s).ends = (some r, s') → s'.it.hadRuntimeError = true →
    ∃ msg, firstMessage ((evaluator n).execStmt tryB env s).steps = some msg ∧
      ((evaluator (n + 1)).execStmt (.tryCatch line tryB errName catchB) env s).ends =
        ((evaluator n).execStmt catchB (s'.heap.frames.length :: env)
          (handlerState errName msg s')).ends

/-- The pending message of a block that returns is that of the first error. -/
theorem errorMessage_of_unmarked (n : ℕ) (tryB : Stmt) (env : Env) {s : Machine ω}
    (h : NoPendingError s) (hwatched : Unmarked ((watched .raises n).execStmt tryB env s).steps)
    {r : ExecResult} {s' : Machine ω}
    (hblock : ((evaluator n).execStmt tryB env s).ends = (some r, s')) :
    s'.it.Paired ∧
      s'.it.errorMessage = firstMessage ((evaluator n).execStmt tryB env s).steps := by
  have hs : s.it.Paired := h.flag.trans (by rw [h.message]; rfl)
  obtain ⟨heq, hholds⟩ := (watched_heeds .raises n).execStmt tryB env s hs trivial hwatched
  obtain ⟨hvalue, hstate⟩ := Prod.mk.inj hblock
  rw [← heq] at hholds
  have hreturned : ((evaluator n).execStmt tryB env s).returned = some s' := by
    rw [Exec.Outcome.returned, hvalue, hstate]
    rfl
  have htells : s'.it.errorMessage
      = ((evaluator n).execStmt tryB env s).steps.foldl noteError s.it.errorMessage :=
    hholds.tells s' hreturned
  rw [h.message] at htells
  exact ⟨hholds.inv s' hreturned, htells⟩

/-- **The handler gets the first message.** -/
theorem catchesFirst_of_unmarked (n line : ℕ) (tryB : Stmt) (errName : Text) (catchB : Stmt)
    (env : Env) {s : Machine ω} (h : NoPendingError s)
    (hwatched : Unmarked ((watched .raises n).execStmt tryB env s).steps) :
    CatchesFirst n line tryB errName catchB env s := by
  intro r s' hblock hfailed
  obtain ⟨hpaired, hmessage⟩ := errorMessage_of_unmarked n tryB env h hwatched hblock
  obtain ⟨msg, hmsg⟩ := Option.isSome_iff_exists.mp (hpaired.symm.trans hfailed)
  refine ⟨msg, hmessage.symm.trans hmsg, ?_⟩
  rw [evaluator, ends_execStmt_tryCatch n line h, ends_tryCatch h hblock, if_pos hfailed, hmsg]
  rfl

end Catches

/-- `{ y[0]; }` -/
def indexUndefined : Stmt :=
  .block 1 [.expr 1 (.index 1 (.ident 1 (txt "y")) (.num 1 0))]

/-- `{ try { y[0]; } catch (e) {} z; }`: an error on top of another that is caught, and one more. -/
def indexThenUndefined : Stmt :=
  .block 1 [.tryCatch 1 indexUndefined (txt "e") (.block 1 []), .expr 2 (.ident 2 (txt "z"))]

theorem catchesFirst_of_unmarked_caughtInside :
    @CatchesFirst Unit silentHost 8 1 indexThenUndefined (txt "e") (.block 1 []) [0]
      (interpInit ()) ∧
    firstMessage ((@evaluator Unit silentHost 8).execStmt indexThenUndefined [0]
      (interpInit ())).steps = some (txt "line 2: undefined variable 'z'") := by
  refine ⟨@catchesFirst_of_unmarked Unit silentHost 8 1 _ _ _ _ _ ⟨rfl, rfl⟩ ?_, ?_⟩
  · exact unmarked_of_all (by decide +kernel)
  · decide +kernel

/-- The texts that the variables of each frame hold. -/
def boundTexts (h : Heap) : List (List Text) :=
  h.frames.map fun es => es.filterMap fun e => match e.value with
    | .string s => some s
    | _ => none

/-- **`try { y[0]; } catch (e) {}` is told that a value is not indexable**, and not that `y`
is undefined. -/
theorem index_replaces_message : ¬ ∀ (n line : ℕ) (tryB : Stmt) (errName : Text) (catchB : Stmt)
    (env : Env) (s : Machine Unit), NoPendingError s →
    @CatchesFirst Unit silentHost n line tryB errName catchB env s := by
  intro h
  have hcatches := h 4 1 indexUndefined (txt "e") (.block 1 []) [0] (interpInit ()) ⟨rfl, rfl⟩
  obtain ⟨r, hr⟩ := Option.isSome_iff_exists.mp (show ((@evaluator Unit silentHost 4).execStmt
    indexUndefined [0] (interpInit ())).value.isSome = true by decide +kernel)
  obtain ⟨msg, hmsg, hends⟩ := hcatches r _ (Prod.ext hr rfl) (by decide +kernel)
  have hfirst : firstMessage ((@evaluator Unit silentHost 4).execStmt indexUndefined [0]
      (interpInit ())).steps = some (txt "line 1: undefined variable 'y'") := by decide +kernel
  obtain rfl := Option.some.inj (hmsg.symm.trans hfirst)
  -- what `e` is bound to in the handler
  have htexts := congrArg (fun e => boundTexts e.2.heap) hends
  exact absurd htexts (by decide +kernel)

end Jaguar
