/-
The interpreter lock (`interp_lock`) against the blocking waits of the worker
subsystem.

The main thread runs the script, HTTP/WebSocket handlers (no lock) and timer
callbacks (`timer_trampoline` takes the lock); pool threads and single workers
take the lock around every job.  Jaguar code on any of them may create pools and
workers, submit jobs, and wait in `worker_pool_wait_all` or `worker_handle_join`.

* `NoLockedWait`, `NoStuckWait` — what is wanted of every state;
* `timer_wait_deadlocks` — a timer callback that submits a job and waits for it
  sleeps for ever with the lock the job needs.
-/
import Jaguar.WorkerPool
import Mathlib.Logic.Relation

namespace Jaguar

open scoped BigOperators

/-! ### Threads, the lock and their steps -/

/-- The threads that may run Jaguar code: the main thread, thread `t` of pool
`p`, and the thread of worker handle `h`. -/
inductive Tid
  | main
  | pool (p t : ℕ)
  | worker (h : ℕ)
  deriving DecidableEq

/-- What a blocking call awaits: `worker_pool_wait_all` the jobs of a pool,
`worker_handle_join` one worker. -/
inductive Wait
  | pool (p : ℕ)
  | worker (h : ℕ)
  deriving DecidableEq

inductive Pc
  /-- Not created. -/
  | absent
  /-- The reactor loop, or the head of a pool thread's loop. -/
  | idle
  /-- A pool thread in `pthread_cond_wait(job_available)`. -/
  | asleep
  /-- A worker that reads, parses and checks its file. -/
  | loading
  /-- In `interp_lock()`. -/
  | wantLock
  /-- Running Jaguar code. -/
  | code
  /-- Running Jaguar code that sleeps in a blocking wait. -/
  | blocked (w : Wait)
  /-- Woken from that wait, about to test its condition again. -/
  | recheck (w : Wait)
  /-- Past `interp_unlock()`, about to publish the result. -/
  | unlocked
  /-- A worker whose `done` flag is set. -/
  | done
  deriving DecidableEq

/-- What the main thread runs. -/
inductive Callback
  | script
  | handler
  | timer
  deriving DecidableEq

structure LockState where
  /-- The owner of `g_interp_lock`. -/
  lock : Option Tid
  callback : Callback
  pc : Tid → Pc
  /-- `n_threads` of each pool; `0` when the pool does not exist. -/
  threads : ℕ → ℕ
  pool : ℕ → WorkerPool Unit Unit

inductive LockEvent
  | beginHandler
  | beginTimer
  | acquire (tid : Tid)
  | finish (tid : Tid)
  | newPool (tid : Tid) (p : ℕ) (n : ℤ)
  | spawn (tid : Tid) (h : ℕ)
  | run (tid : Tid) (h : ℕ)
  | loaded (h : ℕ)
  | noFile (h : ℕ)
  | submit (tid : Tid) (p : ℕ)
  | sleep (p t : ℕ)
  | wakeJob (p t : ℕ)
  | dequeue (p t : ℕ)
  | complete (p t : ℕ)
  | done (h : ℕ)
  | waitReturn (tid : Tid) (w : Wait)
  | waitSleep (tid : Tid) (w : Wait)
  | waitWake (tid : Tid) (w : Wait)
  deriving DecidableEq

namespace LockEvent

/-- The thread that takes the step. -/
def actor : LockEvent → Tid
  | beginHandler => .main
  | beginTimer => .main
  | acquire tid => tid
  | finish tid => tid
  | newPool tid _ _ => tid
  | spawn tid _ => tid
  | run tid _ => tid
  | loaded h => .worker h
  | noFile h => .worker h
  | submit tid _ => tid
  | sleep p t => .pool p t
  | wakeJob p t => .pool p t
  | dequeue p t => .pool p t
  | complete p t => .pool p t
  | done h => .worker h
  | waitReturn tid _ => tid
  | waitSleep tid _ => tid
  | waitWake tid _ => tid

/-- A wake-up that no signal caused. -/
def spurious : LockEvent → Bool
  | wakeJob _ _ => true
  | waitWake _ _ => true
  | _ => false

end LockEvent

namespace LockState

/-- Whether the Jaguar code of a thread runs under the interpreter lock. -/
def underLock (s : LockState) : Tid → Prop
  | .main => s.callback = .timer
  | _ => True

/-- The blocking call's test: `none` when it has to sleep, else the state with
the results collected. -/
def collect (s : LockState) : Wait → Option LockState
  | .pool p => (s.pool p).waitAll.map fun r => { s with pool := Function.update s.pool p r.2 }
  | .worker h => if s.pc (.worker h) = .done then some s else none

/-- The awaited pool or worker exists. -/
def known (s : LockState) : Wait → Prop
  | .pool p => 0 < s.threads p
  | .worker h => s.pc (.worker h) ≠ .absent

end LockState

/-- `pthread_cond_signal` to the threads `may` that sleep at `place`: one of them,
if there is one, moves on to `next`. -/
def signalOne (may : Tid → Prop) (place next : Pc) (pc pc' : Tid → Pc) : Prop :=
  (∃ tid, may tid ∧ pc tid = place ∧ pc' = Function.update pc tid next) ∨
    (∀ tid, may tid → pc tid ≠ place) ∧ pc' = pc

/-- The number of threads `worker_pool_create` starts. -/
def poolThreads (n : ℤ) : ℕ := if n < 1 then 1 else n.toNat

/-- Where a thread goes when the Jaguar code it ran returns. -/
def afterCode : Tid → Pc
  | .main => .idle
  | _ => .unlocked

inductive LockStep : LockState → LockEvent → LockState → Prop
  /-- `http_conn_entry` and `ws_conn_entry` call the handler without the lock.  A
  handler suspended in a write and resumed later counts as two. -/
  | beginHandler {s : LockState} : s.pc .main = .idle →
      LockStep s .beginHandler
        { s with callback := .handler, pc := Function.update s.pc .main .code }
  /-- `timer_trampoline`. -/
  | beginTimer {s : LockState} : s.pc .main = .idle →
      LockStep s .beginTimer
        { s with callback := .timer, pc := Function.update s.pc .main .wantLock }
  | acquire {s : LockState} {tid : Tid} : s.pc tid = .wantLock → s.lock = none →
      LockStep s (.acquire tid)
        { s with lock := some tid, pc := Function.update s.pc tid .code }
  /-- The callback or job returns; `interp_unlock()` where it ran under the lock. -/
  | finishLocked {s : LockState} {tid : Tid} : s.pc tid = .code → s.underLock tid →
      LockStep s (.finish tid)
        { s with lock := none, pc := Function.update s.pc tid (afterCode tid) }
  | finish {s : LockState} {tid : Tid} : s.pc tid = .code → ¬ s.underLock tid →
      LockStep s (.finish tid)
        { s with pc := Function.update s.pc tid (afterCode tid) }
  /-- `worker.pool(n)`. -/
  | newPool {s : LockState} {tid : Tid} {p : ℕ} {n : ℤ} : s.pc tid = .code → s.threads p = 0 →
      LockStep s (.newPool tid p n)
        { s with threads := Function.update s.threads p (poolThreads n),
                 pool := Function.update s.pool p .create,
                 pc := fun x => match x with
                   | .pool q t => if q = p ∧ t < poolThreads n then .idle else s.pc x
                   | _ => s.pc x }
  /-- `worker.spawn(f)`. -/
  | spawn {s : LockState} {tid : Tid} {h : ℕ} : s.pc tid = .code →
      s.pc (.worker h) = .absent →
      LockStep s (.spawn tid h) { s with pc := Function.update s.pc (.worker h) .wantLock }
  /-- The first half of `worker.run(path, cb)`. -/
  | run {s : LockState} {tid : Tid} {h : ℕ} : s.pc tid = .code →
      s.pc (.worker h) = .absent →
      LockStep s (.run tid h) { s with pc := Function.update s.pc (.worker h) .loading }
  /-- `thread_main_file` has read, parsed and checked its file. -/
  | loaded {s : LockState} {h : ℕ} : s.pc (.worker h) = .loading →
      LockStep s (.loaded h) { s with pc := Function.update s.pc (.worker h) .wantLock }
  /-- `thread_main_file` cannot read, parse or typecheck its file. -/
  | noFile {s : LockState} {h : ℕ} : s.pc (.worker h) = .loading →
      LockStep s (.noFile h) { s with pc := Function.update s.pc (.worker h) .unlocked }
  | submit {s : LockState} {tid : Tid} {p : ℕ} {pc' : Tid → Pc} : s.pc tid = .code →
      0 < s.threads p → signalOne (fun x => ∃ t, x = .pool p t) .asleep .idle s.pc pc' →
      LockStep s (.submit tid p)
        { s with pool := Function.update s.pool p ((s.pool p).submit ⟨0, ()⟩), pc := pc' }
  | sleep {s : LockState} {p t : ℕ} : s.pc (.pool p t) = .idle → (s.pool p).queue = [] →
      LockStep s (.sleep p t) { s with pc := Function.update s.pc (.pool p t) .asleep }
  | wakeJob {s : LockState} {p t : ℕ} : s.pc (.pool p t) = .asleep →
      LockStep s (.wakeJob p t) { s with pc := Function.update s.pc (.pool p t) .idle }
  | dequeue {s : LockState} {p t : ℕ} {job : Job Unit} {pool : WorkerPool Unit Unit} :
      s.pc (.pool p t) = .idle → (s.pool p).dequeue = some (job, pool) →
      LockStep s (.dequeue p t)
        { s with pc := Function.update s.pc (.pool p t) .wantLock,
                 pool := Function.update s.pool p pool }
  | complete {s : LockState} {p t : ℕ} {pc' : Tid → Pc} : s.pc (.pool p t) = .unlocked →
      signalOne (fun _ => ((s.pool p).complete ()).signalsAllDone = true)
        (.blocked (.pool p)) (.recheck (.pool p))
        (Function.update s.pc (.pool p t) .idle) pc' →
      LockStep s (.complete p t)
        { s with pool := Function.update s.pool p ((s.pool p).complete ()), pc := pc' }
  | done {s : LockState} {h : ℕ} {pc' : Tid → Pc} : s.pc (.worker h) = .unlocked →
      signalOne (fun _ => True) (.blocked (.worker h)) (.recheck (.worker h))
        (Function.update s.pc (.worker h) .done) pc' →
      LockStep s (.done h) { s with pc := pc' }
  | waitReturn {s s' : LockState} {tid : Tid} {w : Wait} :
      s.pc tid = .code ∨ s.pc tid = .recheck w → s.known w → s.collect w = some s' →
      LockStep s (.waitReturn tid w) { s' with pc := Function.update s'.pc tid .code }
  | waitSleep {s : LockState} {tid : Tid} {w : Wait} :
      s.pc tid = .code ∨ s.pc tid = .recheck w → s.known w → s.collect w = none →
      LockStep s (.waitSleep tid w) { s with pc := Function.update s.pc tid (.blocked w) }
  | waitWake {s : LockState} {tid : Tid} {w : Wait} : s.pc tid = .blocked w →
      LockStep s (.waitWake tid w) { s with pc := Function.update s.pc tid (.recheck w) }

/-- The process from the start of the script on. -/
def lockSystem : LTS LockState LockEvent where
  init s := s.lock = none ∧ s.callback = .script ∧ s.pc .main = .code ∧
    (∀ tid, tid ≠ .main → s.pc tid = .absent) ∧ ∀ p, s.threads p = 0 ∧ s.pool p = .create
  step := LockStep

/-! ### What is claimed of every state -/

namespace Pc

/-- Inside Jaguar code. -/
def inCode : Pc → Bool
  | code => true
  | blocked _ => true
  | recheck _ => true
  | _ => false

/-- With a job that has not run to its end. -/
def inJob : Pc → Bool
  | wantLock => true
  | pc => pc.inCode

/-- With a job whose result is not published. -/
def inFlight : Pc → Bool
  | unlocked => true
  | pc => pc.inJob

@[simp] theorem inFlight_idle : idle.inFlight = false := rfl
@[simp] theorem inFlight_wantLock : wantLock.inFlight = true := rfl
@[simp] theorem inFlight_unlocked : unlocked.inFlight = true := rfl

end Pc

/-- A job that `w` awaits has still to run, and so some thread needs the lock. -/
def NeedsLock (s : LockState) : Wait → Prop
  | .pool p => (s.pool p).queue ≠ [] ∨ ∃ t, (s.pc (.pool p t)).inJob
  | .worker h => (s.pc (.worker h)).inJob

/-- No thread asleep in a wait holds the lock that a job it awaits needs. -/
def NoLockedWait (s : LockState) : Prop :=
  ∀ tid w, s.pc tid = .blocked w → s.lock = some tid → ¬ NeedsLock s w

/-- Thread `tid` waits for thread `tid'`: as the owner of the lock, as a thread of
the pool it awaits, or as the worker it joins. -/
inductive Awaits (s : LockState) : Tid → Tid → Prop
  | lock {tid tid' : Tid} : s.pc tid = .wantLock → s.lock = some tid' → Awaits s tid tid'
  | pool {tid : Tid} {p t : ℕ} : s.pc tid = .blocked (.pool p) → Awaits s tid (.pool p t)
  | worker {tid : Tid} {h : ℕ} : s.pc tid = .blocked (.worker h) → Awaits s tid (.worker h)

/-- The thread can take a step that is not a spurious wake-up. -/
def CanMove (s : LockState) (tid : Tid) : Prop :=
  ∃ e s', LockStep s e s' ∧ e.actor = tid ∧ e.spurious = false

/-- Along the threads it waits for, `tid` reaches one that can move. -/
def Moves (s : LockState) (tid : Tid) : Prop :=
  ∃ tid', Relation.ReflTransGen (Awaits s) tid tid' ∧ CanMove s tid'

/-- No sleeper is stuck. -/
def NoStuckWait (s : LockState) : Prop := ∀ tid w, s.pc tid = .blocked w → Moves s tid

/-- Some thread is asleep in a wait and nothing but spurious wake-ups can happen. -/
def Deadlocked (s : LockState) : Prop :=
  (∃ tid w, s.pc tid = .blocked w) ∧ ∀ e s', LockStep s e s' → e.spurious = true

/-! ### A timer callback that waits -/

/-- Everybody needs the lock of a sleeper: nothing but a spurious wake-up happens. -/
theorem deadlocked_of_locked_wait {s : LockState} {w : Wait} (hlock : s.lock = some .main)
    (hmain : s.pc .main = .blocked w)
    (hrest : ∀ tid, tid ≠ .main → s.pc tid = .wantLock ∨ s.pc tid = .absent) : Deadlocked s := by
  refine ⟨⟨_, _, hmain⟩, ?_⟩
  have hpc : ∀ tid p, s.pc tid = p → p = .blocked w ∨ p = .wantLock ∨ p = .absent := by
    intro tid p hp
    by_cases htid : tid = .main
    · exact .inl (hp ▸ htid ▸ hmain)
    · exact .inr (hp ▸ hrest tid htid)
  have asleep : ∀ tid p, s.pc tid = p → p ≠ .wantLock → (∀ w, p ≠ .blocked w) → p = .absent := by
    intro tid p hp h1 h2
    rcases hpc tid p hp with h | h | h
    · exact absurd h (h2 w)
    · exact absurd h h1
    · exact h
  intro e s' hs
  cases hs with
  | wakeJob _ => rfl
  | waitWake _ => rfl
  | acquire _ hfree => simp [hlock] at hfree
  | beginHandler h => simp [hmain] at h
  | beginTimer h => simp [hmain] at h
  | finishLocked h _ => cases asleep _ _ h (by simp) (by simp)
  | finish h _ => cases asleep _ _ h (by simp) (by simp)
  | newPool h _ => cases asleep _ _ h (by simp) (by simp)
  | spawn h _ => cases asleep _ _ h (by simp) (by simp)
  | run h _ => cases asleep _ _ h (by simp) (by simp)
  | loaded h => cases asleep _ _ h (by simp) (by simp)
  | noFile h => cases asleep _ _ h (by simp) (by simp)
  | submit h _ _ => cases asleep _ _ h (by simp) (by simp)
  | sleep h _ => cases asleep _ _ h (by simp) (by simp)
  | dequeue h _ => cases asleep _ _ h (by simp) (by simp)
  | complete h _ => cases asleep _ _ h (by simp) (by simp)
  | done h _ => cases asleep _ _ h (by simp) (by simp)
  | waitReturn h _ _ => rcases h with h | h <;> cases asleep _ _ h (by simp) (by simp)
  | waitSleep h _ _ => rcases h with h | h <;> cases asleep _ _ h (by simp) (by simp)

/-- The process at the start of the script. -/
def scriptStart : LockState where
  lock := none
  callback := .script
  pc tid := if tid = .main then .code else .absent
  threads _ := 0
  pool _ := .create

/-- The script makes a pool of one thread and a timer whose callback is
`fun() { pool.submit(f); pool.onAll(g); }`. -/
def timerWait : List LockEvent :=
  [.newPool .main 0 1, .finish .main, .beginTimer, .acquire .main, .submit .main 0,
    .dequeue 0 0, .waitSleep .main (.pool 0)]

/-- **A timer callback that waits for a job it submitted never wakes**: it sleeps
with the lock, and the thread that has dequeued the job waits for the lock. -/
theorem timer_wait_deadlocks : ∃ s, lockSystem.Run timerWait s ∧ s.callback = .timer ∧
    ¬ NoLockedWait s ∧ Deadlocked s := by
  have h0 : lockSystem.Run [] scriptStart :=
    .nil ⟨rfl, rfl, rfl, fun tid h => if_neg h, fun _ => ⟨rfl, rfl⟩⟩
  have h1 := h0.snoc (l := LockEvent.newPool .main 0 1) (.newPool rfl rfl)
  have h2 := h1.snoc (l := LockEvent.finish .main)
    (.finish rfl (by simp [LockState.underLock, scriptStart]))
  have h3 := h2.snoc (.beginTimer rfl)
  have h4 := h3.snoc (l := LockEvent.acquire .main) (.acquire rfl rfl)
  have h5 := h4.snoc (l := LockEvent.submit .main 0) (.submit rfl (by decide)
    (.inr ⟨by
      rintro _ ⟨t, rfl⟩
      by_cases ht : t < poolThreads 1 <;> simp [scriptStart, ht], rfl⟩))
  have h6 := h5.snoc (l := LockEvent.dequeue 0 0) (.dequeue rfl rfl)
  have h7 := h6.snoc (l := LockEvent.waitSleep .main (.pool 0)) (.waitSleep (.inl rfl) Nat.one_pos rfl)
  refine ⟨_, h7, rfl, ?_, ?_⟩
  · intro h
    exact h .main (.pool 0) rfl rfl (.inr ⟨0, rfl⟩)
  · refine deadlocked_of_locked_wait rfl rfl ?_
    rintro (_ | ⟨p, t⟩ | k) h
    · exact absurd rfl h
    · by_cases ht : p = 0 ∧ t = 0
      · obtain ⟨rfl, rfl⟩ := ht
        exact .inl rfl
      · refine .inr ?_
        have hone : poolThreads 1 = 1 := rfl
        have : ¬ (p = 0 ∧ t < poolThreads 1) := by omega
        simp [scriptStart, ht, this]
    · exact .inr rfl

end Jaguar
