/-
The worker pool (`worker.c`): every submitted job is run once and its result is
returned once.

A pool is a queue, two counters and a result list behind one mutex.  Each
section between lock and unlock is one step here (`pthread_cond_wait` ends a
section and begins another), so the steps of any number of pool threads,
submitters and `wait_all` callers interleave arbitrarily.  A signal wakes one
sleeper if there is one, and a sleeper may also wake for no reason.

* `Accounts` — the ledger tying the events of a run to the pool's fields;
* `Accounts.step` — one step keeps it;
* `Attended` — a queued job never finds every pool thread asleep;
* `worker_pool_exactly_once` — over a whole run: no job is dequeued twice or
  left behind, the returned lists hold the results of the completed jobs in
  completion order, and a `wait_all` that returns has seen every job submitted
  before it.
-/
import Jaguar.Runs
import Mathlib.Algebra.BigOperators.Group.Finset.Basic
import Mathlib.Algebra.BigOperators.Group.Multiset.Basic
import Mathlib.Algebra.Order.BigOperators.Group.Multiset
import Mathlib.Data.Fintype.BigOperators

namespace Jaguar

open scoped BigOperators List

/-- Changing one summand: the old term leaves the sum and the new one enters. -/
theorem sum_update_add {κ α M : Type*} [DecidableEq κ] [AddCommMonoid M] {u : Finset κ}
    (g : κ → α → M) (f : κ → α) {k : κ} (hk : k ∈ u) (a : α) :
    (∑ x ∈ u, g x (Function.update f k a x)) + g k (f k) = (∑ x ∈ u, g x (f x)) + g k a := by
  have hnew := Finset.add_sum_erase u (fun x => g x (Function.update f k a x)) hk
  have hold := Finset.add_sum_erase u (fun x => g x (f x)) hk
  have hrest : (∑ x ∈ u.erase k, g x (Function.update f k a x))
      = ∑ x ∈ u.erase k, g x (f x) := by
    refine Finset.sum_congr rfl fun x hx => ?_
    rw [Function.update_of_ne (Finset.ne_of_mem_erase hx)]
  simp only [Function.update_self] at hnew
  rw [← hnew, ← hold, hrest]
  ac_rfl

/-! ### The pool's fields and critical sections -/

/-- A queued job.  `serial` is the identity of the `Job` node (the address that
`calloc` returned); `func` is the function to call. -/
structure Job (φ : Type*) where
  serial : ℕ
  func : φ
  deriving DecidableEq

/-- The fields of `struct WorkerPool` that its mutex guards. -/
structure WorkerPool (φ ν : Type*) where
  queue : List (Job φ)
  submitted : ℕ
  completed : ℕ
  results : List ν
  shutdown : Bool

namespace WorkerPool

variable {φ ν : Type*}

/-- The pool `worker_pool_create` returns. -/
def create : WorkerPool φ ν := ⟨[], 0, 0, [], false⟩

/-- The body of `worker_pool_submit`. -/
def submit (pool : WorkerPool φ ν) (job : Job φ) : WorkerPool φ ν :=
  { pool with queue := pool.queue ++ [job], submitted := pool.submitted + 1 }

/-- The first section of `pool_thread_main`, past its waiting loop. -/
def dequeue (pool : WorkerPool φ ν) : Option (Job φ × WorkerPool φ ν) :=
  match pool.queue with
  | [] => none
  | job :: rest => some (job, { pool with queue := rest })

/-- The second section of `pool_thread_main`: publish a result. -/
def complete (pool : WorkerPool φ ν) (result : ν) : WorkerPool φ ν :=
  { pool with results := pool.results ++ [result], completed := pool.completed + 1 }

/-- Whether a completion signals `all_done`. -/
def signalsAllDone (pool : WorkerPool φ ν) : Bool := pool.submitted ≤ pool.completed

theorem signalsAllDone_iff {pool : WorkerPool φ ν} :
    pool.signalsAllDone = true ↔ pool.submitted ≤ pool.completed := by
  simp [signalsAllDone]

/-- `worker_pool_wait_all` past its lock: `none` when it has to sleep, else the
collected results and the pool with list and counters reset. -/
def waitAll (pool : WorkerPool φ ν) : Option (List ν × WorkerPool φ ν) :=
  if pool.completed < pool.submitted then none
  else some (pool.results, { pool with results := [], submitted := 0, completed := 0 })

end WorkerPool

/-! ### Threads, callers and the interleaved system -/

/-- Where a pool thread stands in `pool_thread_main`. -/
inductive ThreadPc (φ ν : Type*)
  /-- About to lock the mutex at the head of the loop. -/
  | idle
  /-- In `pthread_cond_wait(job_available)`. -/
  | asleep
  /-- Holding a dequeued job, outside the mutex. -/
  | running (job : Job φ)
  /-- `interp_invoke` has returned; about to publish the result. -/
  | finished (job : Job φ) (result : ν)
  /-- Left the loop after a shutdown. -/
  | exited

/-- Who calls into the pool: code outside it, or the job a pool thread runs. -/
inductive Caller (n : ℕ)
  | outside (k : ℕ)
  | job (t : Fin n)
  deriving DecidableEq

/-- Where a caller stands in `worker_pool_wait_all`. -/
inductive WaitPc
  | out
  /-- In `pthread_cond_wait(all_done)`. -/
  | asleep
  /-- Woken, about to test the counters again. -/
  | recheck
  deriving DecidableEq

structure PoolState (n : ℕ) (φ ν : Type*) where
  pool : WorkerPool φ ν
  pc : Fin n → ThreadPc φ ν
  waiting : Caller n → WaitPc
  /-- The next fresh node address. -/
  next : ℕ

inductive PoolEvent (n : ℕ) (φ ν : Type*)
  | submit (c : Caller n) (job : Job φ)
  | sleep (t : Fin n)
  | wake (t : Fin n)
  | dequeue (t : Fin n) (job : Job φ)
  | finish (t : Fin n) (job : Job φ) (result : ν)
  | complete (t : Fin n) (job : Job φ) (result : ν)
  | exit (t : Fin n)
  | waitSleep (c : Caller n)
  | waitWake (c : Caller n)
  | waitReturn (c : Caller n) (list : List ν)

variable {n : ℕ} {φ ν : Type*}

/-- A caller can act when it is not inside `wait_all` and, if it is a job, its
thread is running one. -/
def PoolState.active (s : PoolState n φ ν) : Caller n → Prop
  | .outside k => s.waiting (.outside k) = .out
  | .job t => s.waiting (.job t) = .out ∧ ∃ job, s.pc t = .running job

/-- `pthread_cond_signal(job_available)`: wake one sleeping thread, if any sleeps. -/
def signalJob (pc pc' : Fin n → ThreadPc φ ν) : Prop :=
  (∃ t, pc t = .asleep ∧ pc' = Function.update pc t .idle) ∨ (∀ t, pc t ≠ .asleep) ∧ pc' = pc

/-- `pthread_cond_signal(all_done)`, sent only when `on`. -/
def signalAllDone (on : Bool) (w w' : Caller n → WaitPc) : Prop :=
  (on = true ∧ ∃ c, w c = .asleep ∧ w' = Function.update w c .recheck) ∨
    ((on = false ∨ ∀ c, w c ≠ .asleep) ∧ w' = w)

/-- One step of the pool. -/
inductive PoolStep : PoolState n φ ν → PoolEvent n φ ν → PoolState n φ ν → Prop
  | submit {s : PoolState n φ ν} {c : Caller n} {f : φ} {pc' : Fin n → ThreadPc φ ν} :
      s.active c → signalJob s.pc pc' →
      PoolStep s (.submit c ⟨s.next, f⟩)
        { s with pool := s.pool.submit ⟨s.next, f⟩, pc := pc', next := s.next + 1 }
  | sleep {s : PoolState n φ ν} {t : Fin n} : s.pc t = .idle → s.pool.queue = [] →
      s.pool.shutdown = false →
      PoolStep s (.sleep t) { s with pc := Function.update s.pc t .asleep }
  | wake {s : PoolState n φ ν} {t : Fin n} : s.pc t = .asleep →
      PoolStep s (.wake t) { s with pc := Function.update s.pc t .idle }
  | dequeue {s : PoolState n φ ν} {t : Fin n} {job : Job φ} {pool : WorkerPool φ ν} :
      s.pc t = .idle → s.pool.dequeue = some (job, pool) →
      PoolStep s (.dequeue t job)
        { s with pool := pool, pc := Function.update s.pc t (.running job) }
  | finish {s : PoolState n φ ν} {t : Fin n} {job : Job φ} {result : ν} :
      s.pc t = .running job → s.waiting (.job t) = .out →
      PoolStep s (.finish t job result)
        { s with pc := Function.update s.pc t (.finished job result) }
  | complete {s : PoolState n φ ν} {t : Fin n} {job : Job φ} {result : ν}
      {w' : Caller n → WaitPc} : s.pc t = .finished job result →
      signalAllDone (s.pool.complete result).signalsAllDone s.waiting w' →
      PoolStep s (.complete t job result)
        { s with pool := s.pool.complete result, pc := Function.update s.pc t .idle,
                 waiting := w' }
  | exit {s : PoolState n φ ν} {t : Fin n} : s.pc t = .idle → s.pool.queue = [] →
      s.pool.shutdown = true →
      PoolStep s (.exit t) { s with pc := Function.update s.pc t .exited }
  | waitSleep {s : PoolState n φ ν} {c : Caller n} :
      s.active c ∨ s.waiting c = .recheck → s.pool.waitAll = none →
      PoolStep s (.waitSleep c) { s with waiting := Function.update s.waiting c .asleep }
  | waitWake {s : PoolState n φ ν} {c : Caller n} : s.waiting c = .asleep →
      PoolStep s (.waitWake c) { s with waiting := Function.update s.waiting c .recheck }
  | waitReturn {s : PoolState n φ ν} {c : Caller n} {list : List ν} {pool : WorkerPool φ ν} :
      s.active c ∨ s.waiting c = .recheck → s.pool.waitAll = some (list, pool) →
      PoolStep s (.waitReturn c list)
        { s with pool := pool, waiting := Function.update s.waiting c .out }

/-- A pool of `n` threads, from `worker_pool_create` on. -/
def poolSystem (n : ℕ) (φ ν : Type*) : LTS (PoolState n φ ν) (PoolEvent n φ ν) where
  init s := s.pool = .create ∧ (∀ t, s.pc t = .idle) ∧ (∀ c, s.waiting c = .out) ∧ s.next = 0
  step := PoolStep

/-! ### What a run has done -/

namespace PoolEvent

def submitted? : PoolEvent n φ ν → Option (Job φ)
  | .submit _ job => some job
  | _ => none

def dequeued? : PoolEvent n φ ν → Option (Fin n × Job φ)
  | .dequeue t job => some (t, job)
  | _ => none

def completed? : PoolEvent n φ ν → Option ((Fin n × Job φ) × ν)
  | .complete t job result => some ((t, job), result)
  | _ => none

def returned? : PoolEvent n φ ν → Option (List ν)
  | .waitReturn _ list => some list
  | _ => none

end PoolEvent

/-- The jobs submitted, in order. -/
def submits (es : List (PoolEvent n φ ν)) : List (Job φ) := es.filterMap (·.submitted?)

/-- Who dequeued what, in order. -/
def dequeues (es : List (PoolEvent n φ ν)) : List (Fin n × Job φ) := es.filterMap (·.dequeued?)

/-- Who completed what with which result, in order. -/
def completions (es : List (PoolEvent n φ ν)) : List ((Fin n × Job φ) × ν) :=
  es.filterMap (·.completed?)

/-- The lists `wait_all` returned, in order. -/
def returns (es : List (PoolEvent n φ ν)) : List (List ν) := es.filterMap (·.returned?)

section Append

variable (es : List (PoolEvent n φ ν)) (e : PoolEvent n φ ν)

@[simp] theorem submits_snoc : submits (es ++ [e]) = submits es ++ e.submitted?.toList := by
  simp [submits, List.filterMap_append, List.filterMap_cons, List.filterMap_nil]
  cases e.submitted? <;> rfl

@[simp] theorem dequeues_snoc : dequeues (es ++ [e]) = dequeues es ++ e.dequeued?.toList := by
  simp [dequeues, List.filterMap_append, List.filterMap_cons, List.filterMap_nil]
  cases e.dequeued? <;> rfl

@[simp] theorem completions_snoc :
    completions (es ++ [e]) = completions es ++ e.completed?.toList := by
  simp [completions, List.filterMap_append, List.filterMap_cons, List.filterMap_nil]
  cases e.completed? <;> rfl

@[simp] theorem returns_snoc : returns (es ++ [e]) = returns es ++ e.returned?.toList := by
  simp [returns, List.filterMap_append, List.filterMap_cons, List.filterMap_nil]
  cases e.returned? <;> rfl

end Append

/-- The job in flight on thread `t`, between its dequeue and its completion. -/
def ThreadPc.held (t : Fin n) : ThreadPc φ ν → Multiset (Fin n × Job φ)
  | .running job => {(t, job)}
  | .finished job _ => {(t, job)}
  | _ => 0

/-- The jobs in flight. -/
def PoolState.inFlight (s : PoolState n φ ν) : Multiset (Fin n × Job φ) :=
  ∑ t, (s.pc t).held t

theorem inFlight_update (s : PoolState n φ ν) (t : Fin n) (p : ThreadPc φ ν) :
    (∑ x, (Function.update s.pc t p x).held x) + (s.pc t).held t = s.inFlight + p.held t :=
  sum_update_add (fun x p => ThreadPc.held x p) s.pc (Finset.mem_univ t) p

/-- A thread moving between two places where it holds the same leaves the jobs
in flight as they were. -/
theorem inFlight_update_same (s : PoolState n φ ν) {t : Fin n} {p : ThreadPc φ ν}
    (h : p.held t = (s.pc t).held t) :
    (∑ x, (Function.update s.pc t p x).held x) = s.inFlight := by
  have := inFlight_update s t p
  rw [h] at this
  exact add_right_cancel this

/-- A signal leaves the jobs in flight as they were. -/
theorem inFlight_signalJob {s : PoolState n φ ν} {pc' : Fin n → ThreadPc φ ν}
    (h : signalJob s.pc pc') : (∑ x, (pc' x).held x) = s.inFlight := by
  rcases h with ⟨t, ht, rfl⟩ | ⟨-, rfl⟩
  · exact inFlight_update_same s (by rw [ht]; rfl)
  · rfl

/-- The ledger of a run: what its events say against what the pool's fields say. -/
structure Accounts (es : List (PoolEvent n φ ν)) (s : PoolState n φ ν) : Prop where
  /-- Node addresses are handed out in order. -/
  serials : (submits es).map Job.serial = List.range s.next
  /-- First in, first out. -/
  fifo : submits es = (dequeues es).map Prod.snd ++ s.pool.queue
  /-- What was dequeued has been completed by the same thread or is in flight. -/
  flight : (dequeues es : Multiset (Fin n × Job φ))
    = ((completions es).map Prod.fst : Multiset (Fin n × Job φ)) + s.inFlight
  /-- `submitted = completed + queued + in flight`. -/
  counted : s.pool.submitted = s.pool.completed + s.pool.queue.length + Multiset.card s.inFlight
  /-- `results = completed`. -/
  stored : s.pool.results.length = s.pool.completed
  /-- Results leave the pool in completion order. -/
  paid : (completions es).map Prod.snd = (returns es).flatten ++ s.pool.results

theorem Accounts.init {s : PoolState n φ ν} (h : (poolSystem n φ ν).init s) : Accounts [] s := by
  obtain ⟨hpool, hpc, -, hnext⟩ := h
  have hflight : s.inFlight = 0 := Finset.sum_eq_zero fun t _ => by rw [hpc t]; rfl
  refine ⟨?_, ?_, ?_, ?_, ?_, ?_⟩
  · simp [submits, hnext]
  · simp [submits, dequeues, hpool, WorkerPool.create]
  · simp [dequeues, completions, hflight]
  · simp [hpool, WorkerPool.create, hflight]
  · simp [hpool, WorkerPool.create]
  · simp [completions, returns, hpool, WorkerPool.create]

/-- A step that moves thread `t` without touching the pool, between two places
where it holds the same, and logs none of the four accounted events keeps the ledger. -/
theorem Accounts.move {es : List (PoolEvent n φ ν)} {s : PoolState n φ ν} (h : Accounts es s)
    {e : PoolEvent n φ ν} {t : Fin n} {p : ThreadPc φ ν} (hp : p.held t = (s.pc t).held t)
    (he : e.submitted? = none ∧ e.dequeued? = none ∧ e.completed? = none ∧ e.returned? = none) :
    Accounts (es ++ [e]) { s with pc := Function.update s.pc t p } := by
  obtain ⟨h1, h2, h3, h4⟩ := he
  have hflight : ({ s with pc := Function.update s.pc t p } : PoolState n φ ν).inFlight
      = s.inFlight := inFlight_update_same s hp
  refine ⟨?_, ?_, ?_, ?_, ?_, ?_⟩
  · simpa [h1] using h.serials
  · simpa [h1, h2] using h.fifo
  · rw [hflight]
    simpa [h2, h3] using h.flight
  · rw [hflight]
    exact h.counted
  · exact h.stored
  · simpa [h3, h4] using h.paid

/-- The same for a step that only moves a caller inside `wait_all`. -/
theorem Accounts.moveCaller {es : List (PoolEvent n φ ν)} {s : PoolState n φ ν}
    (h : Accounts es s) {e : PoolEvent n φ ν} {w : Caller n → WaitPc}
    (he : e.submitted? = none ∧ e.dequeued? = none ∧ e.completed? = none ∧ e.returned? = none) :
    Accounts (es ++ [e]) { s with waiting := w } := by
  obtain ⟨h1, h2, h3, h4⟩ := he
  refine ⟨?_, ?_, ?_, ?_, ?_, ?_⟩
  · simpa [h1] using h.serials
  · simpa [h1, h2] using h.fifo
  · simp only [dequeues_snoc, completions_snoc, h2, h3, Option.toList_none, List.append_nil]
    exact h.flight
  · exact h.counted
  · exact h.stored
  · simpa [h3, h4] using h.paid

theorem WorkerPool.dequeue_eq_some {pool pool' : WorkerPool φ ν} {job : Job φ} :
    pool.dequeue = some (job, pool') ↔
      ∃ rest, pool.queue = job :: rest ∧ pool' = { pool with queue := rest } := by
  unfold WorkerPool.dequeue
  cases pool.queue with
  | nil => simp
  | cons j rest => simp [eq_comm]

theorem WorkerPool.waitAll_eq_some {pool pool' : WorkerPool φ ν} {list : List ν} :
    pool.waitAll = some (list, pool') ↔ pool.submitted ≤ pool.completed ∧ list = pool.results ∧
      pool' = { pool with results := [], submitted := 0, completed := 0 } := by
  unfold WorkerPool.waitAll
  split
  · simp; omega
  · simp [eq_comm]; omega

/-- **One step keeps the ledger.** -/
theorem Accounts.step {es : List (PoolEvent n φ ν)} {s s' : PoolState n φ ν}
    {e : PoolEvent n φ ν} (h : Accounts es s) (hs : PoolStep s e s') :
    Accounts (es ++ [e]) s' := by
  cases hs with
  | @submit c f pc' hc hsig =>
    have hflight := inFlight_signalJob hsig
    refine ⟨?_, ?_, ?_, ?_, ?_, ?_⟩
    · simp [PoolEvent.submitted?, h.serials, List.range_succ]
    · simp [PoolEvent.submitted?, PoolEvent.dequeued?, WorkerPool.submit, h.fifo]
    · simp only [dequeues_snoc, completions_snoc, PoolEvent.dequeued?, PoolEvent.completed?,
        Option.toList_none, List.append_nil]
      change _ = _ + ∑ x, (pc' x).held x
      rw [hflight]
      exact h.flight
    · have := h.counted
      simp only [WorkerPool.submit, List.length_append, List.length_singleton]
      change s.pool.submitted + 1 = s.pool.completed + (s.pool.queue.length + 1)
        + Multiset.card (∑ x, (pc' x).held x)
      rw [hflight]
      omega
    · exact h.stored
    · simpa [PoolEvent.completed?, PoolEvent.returned?, WorkerPool.submit] using h.paid
  | sleep hpc _ _ => exact h.move (by rw [hpc]; rfl) ⟨rfl, rfl, rfl, rfl⟩
  | wake hpc => exact h.move (by rw [hpc]; rfl) ⟨rfl, rfl, rfl, rfl⟩
  | @dequeue t job pool hpc hdeq =>
    obtain ⟨rest, hq, rfl⟩ := WorkerPool.dequeue_eq_some.mp hdeq
    have hflight : (∑ x, (Function.update s.pc t (.running job) x).held x)
        = s.inFlight + {(t, job)} := by
      have := inFlight_update s t (.running job)
      rw [hpc] at this
      simpa [ThreadPc.held] using this
    refine ⟨?_, ?_, ?_, ?_, ?_, ?_⟩
    · simpa [PoolEvent.submitted?] using h.serials
    · simpa [PoolEvent.submitted?, PoolEvent.dequeued?, hq] using h.fifo
    · change _ = _ + ∑ x, (Function.update s.pc t (.running job) x).held x
      rw [hflight, ← add_assoc]
      simp only [dequeues_snoc, completions_snoc, PoolEvent.dequeued?, PoolEvent.completed?,
        Option.toList_some, Option.toList_none, List.append_nil]
      rw [← h.flight]
      rfl
    · have hc := h.counted
      change s.pool.submitted = s.pool.completed + rest.length
        + Multiset.card (∑ x, (Function.update s.pc t (.running job) x).held x)
      rw [hflight, Multiset.card_add, Multiset.card_singleton]
      rw [hq, List.length_cons] at hc
      omega
    · exact h.stored
    · simpa [PoolEvent.completed?, PoolEvent.returned?] using h.paid
  | finish hpc _ => exact h.move (by rw [hpc]; rfl) ⟨rfl, rfl, rfl, rfl⟩
  | @complete t job result w' hpc _ =>
    have hflight : s.inFlight
        = (∑ x, (Function.update s.pc t .idle x).held x) + {(t, job)} := by
      have := inFlight_update s t .idle
      rw [hpc] at this
      simpa [ThreadPc.held] using this.symm
    refine ⟨?_, ?_, ?_, ?_, ?_, ?_⟩
    · simpa [PoolEvent.submitted?] using h.serials
    · simpa [PoolEvent.submitted?, PoolEvent.dequeued?, WorkerPool.complete] using h.fifo
    · change _ = _ + ∑ x, (Function.update s.pc t .idle x).held x
      have hf := h.flight
      rw [hflight] at hf
      simp only [dequeues_snoc, completions_snoc, PoolEvent.dequeued?, PoolEvent.completed?,
        Option.toList_some, Option.toList_none, List.append_nil, List.map_append, List.map_cons,
        List.map_nil]
      rw [hf, ← Multiset.coe_add, Multiset.coe_singleton]
      ac_rfl
    · have hc := h.counted
      change s.pool.submitted = (s.pool.completed + 1) + s.pool.queue.length
        + Multiset.card (∑ x, (Function.update s.pc t .idle x).held x)
      rw [hflight, Multiset.card_add, Multiset.card_singleton] at hc
      omega
    · have := h.stored
      simp only [WorkerPool.complete, List.length_append, List.length_singleton]
      omega
    · have := h.paid
      simp [PoolEvent.completed?, PoolEvent.returned?, WorkerPool.complete, this]
  | exit hpc _ _ => exact h.move (by rw [hpc]; rfl) ⟨rfl, rfl, rfl, rfl⟩
  | waitSleep _ _ => exact h.moveCaller ⟨rfl, rfl, rfl, rfl⟩
  | waitWake _ => exact h.moveCaller ⟨rfl, rfl, rfl, rfl⟩
  | @waitReturn c list pool hc hw =>
    obtain ⟨hle, rfl, rfl⟩ := WorkerPool.waitAll_eq_some.mp hw
    -- the counters agree, so nothing is queued or in flight while they are reset
    have hcount := h.counted
    have hq : s.pool.queue.length = 0 := by omega
    have hf : Multiset.card s.inFlight = 0 := by omega
    refine ⟨?_, ?_, ?_, ?_, ?_, ?_⟩
    · simpa [PoolEvent.submitted?] using h.serials
    · simpa [PoolEvent.submitted?, PoolEvent.dequeued?] using h.fifo
    · simp only [dequeues_snoc, completions_snoc, PoolEvent.dequeued?, PoolEvent.completed?,
        Option.toList_none, List.append_nil]
      exact h.flight
    · change 0 = 0 + s.pool.queue.length + Multiset.card s.inFlight
      omega
    · rfl
    · simpa [PoolEvent.completed?, PoolEvent.returned?] using h.paid

/-- Every run keeps its ledger. -/
theorem accounts_of_run {es : List (PoolEvent n φ ν)} {s : PoolState n φ ν}
    (h : (poolSystem n φ ν).Run es s) : Accounts es s :=
  h.invariant (fun _ h0 => .init h0) fun _ _ _ _ ih hs => ih.step hs

/-! ### No job is left behind -/

/-- No thread has left its loop, and not all sleep while a job is queued. -/
structure Attended (s : PoolState n φ ν) : Prop where
  open_ : s.pool.shutdown = false
  stays : ∀ t, s.pc t ≠ .exited
  awake : 0 < n → s.pool.queue ≠ [] → ∃ t, s.pc t ≠ .asleep

theorem Attended.update {s : PoolState n φ ν} (h : Attended s) {t : Fin n} {p : ThreadPc φ ν}
    (hp : p ≠ .exited) : ∀ t', Function.update s.pc t p t' ≠ .exited := by
  intro t'
  by_cases ht : t' = t
  · subst ht
    simpa using hp
  · rw [Function.update_of_ne ht]
    exact h.stays t'

theorem Attended.step {s s' : PoolState n φ ν} {e : PoolEvent n φ ν} (h : Attended s)
    (hs : PoolStep s e s') : Attended s' := by
  -- a thread that was just moved to an awake place is the witness
  have moved : ∀ (t : Fin n) (p : ThreadPc φ ν), p ≠ .asleep →
      ∃ t', Function.update s.pc t p t' ≠ .asleep := fun t p hp => ⟨t, by simpa using hp⟩
  cases hs with
  | @submit c f pc' hc hsig =>
    rcases hsig with ⟨t, -, rfl⟩ | ⟨hnone, rfl⟩
    · exact ⟨h.open_, h.update (by simp), fun _ _ => moved t _ (by simp)⟩
    · exact ⟨h.open_, h.stays, fun hn _ => ⟨⟨0, hn⟩, hnone _⟩⟩
  | sleep hpc hq _ => exact ⟨h.open_, h.update (by simp), fun _ hne => absurd hq hne⟩
  | @wake t hpc => exact ⟨h.open_, h.update (by simp), fun _ _ => moved t _ (by simp)⟩
  | @dequeue t job pool hpc hdeq =>
    obtain ⟨rest, hq, rfl⟩ := WorkerPool.dequeue_eq_some.mp hdeq
    exact ⟨h.open_, h.update (by simp), fun _ _ => moved t _ (by simp)⟩
  | @finish t job result hpc _ =>
    exact ⟨h.open_, h.update (by simp), fun _ _ => moved t _ (by simp)⟩
  | @complete t job result w' hpc _ =>
    exact ⟨h.open_, h.update (by simp), fun _ _ => moved t _ (by simp)⟩
  | exit _ _ hdown => exact absurd (h.open_.symm.trans hdown) (by simp)
  | waitSleep _ _ => exact ⟨h.open_, h.stays, h.awake⟩
  | waitWake _ => exact ⟨h.open_, h.stays, h.awake⟩
  | waitReturn _ hw =>
    obtain ⟨-, -, rfl⟩ := WorkerPool.waitAll_eq_some.mp hw
    exact ⟨h.open_, h.stays, h.awake⟩

theorem attended_of_run {es : List (PoolEvent n φ ν)} {s : PoolState n φ ν}
    (h : (poolSystem n φ ν).Run es s) : Attended s :=
  h.invariant (I := fun _ s => Attended s)
    (fun s h0 => ⟨by rw [h0.1]; rfl, fun t => by rw [h0.2.1 t]; simp,
      fun hn _ => ⟨⟨0, hn⟩, by rw [h0.2.1]; simp⟩⟩)
    fun _ _ _ _ ih hs => ih.step hs

/-! ### The whole run -/

/-- No job is submitted twice: node addresses are fresh. -/
theorem Accounts.submits_nodup {es : List (PoolEvent n φ ν)} {s : PoolState n φ ν}
    (h : Accounts es s) : (submits es).Nodup :=
  List.Nodup.of_map Job.serial (h.serials ▸ List.nodup_range)

/-- When `wait_all` may return, everything submitted has been completed. -/
theorem Accounts.settled {es : List (PoolEvent n φ ν)} {s : PoolState n φ ν}
    (h : Accounts es s) (hle : s.pool.submitted ≤ s.pool.completed) :
    ((completions es).map Prod.fst).map Prod.snd ~ submits es := by
  have hcount := h.counted
  have hq : s.pool.queue = [] := List.length_eq_zero_iff.mp (by omega)
  have hf : s.inFlight = 0 := Multiset.card_eq_zero.mp (by omega)
  have hflight : ((completions es).map Prod.fst) ~ dequeues es := by
    rw [← Multiset.coe_eq_coe, h.flight, hf, add_zero]
  have hfifo : submits es = (dequeues es).map Prod.snd := by
    rw [h.fifo, hq, List.append_nil]
  rw [hfifo]
  exact hflight.map Prod.snd

/-- **Exactly once.**  In every run of a pool of `n` threads:

* each submitted job is dequeued at most once, in submission order, by one
  thread, which is the thread that completes it, and a job still queued never
  finds all threads asleep;
* the lists returned so far, followed by the list still in the pool, hold the
  results of the completed jobs, each once and in completion order;
* whenever a `wait_all` returns, the jobs submitted before it are exactly the
  jobs completed before it, and their results are exactly what this and the
  earlier `wait_all`s returned. -/
theorem worker_pool_exactly_once {es : List (PoolEvent n φ ν)} {s : PoolState n φ ν}
    (h : (poolSystem n φ ν).Run es s) :
    ((submits es).Nodup ∧ submits es = (dequeues es).map Prod.snd ++ s.pool.queue ∧
      (completions es).map Prod.fst <+~ dequeues es ∧
      (0 < n → s.pool.queue ≠ [] → ∃ t, s.pc t ≠ .asleep ∧ s.pc t ≠ .exited)) ∧
    (completions es).map Prod.snd = (returns es).flatten ++ s.pool.results ∧
    ∀ pre post c list, es = pre ++ .waitReturn c list :: post →
      ((completions pre).map Prod.fst).map Prod.snd ~ submits pre ∧
      (returns pre).flatten ++ list = (completions pre).map Prod.snd := by
  have acc := accounts_of_run h
  have att := attended_of_run h
  refine ⟨⟨acc.submits_nodup, acc.fifo, ?_, ?_⟩, acc.paid, ?_⟩
  · rw [← Multiset.coe_le, acc.flight]
    exact Multiset.le_add_right _ _
  · intro hn hq
    obtain ⟨t, ht⟩ := att.awake hn hq
    exact ⟨t, ht, att.stays t⟩
  · intro pre post c list hes
    obtain ⟨t, t', hrun, hstep⟩ := h.split hes
    have acc' := accounts_of_run hrun
    cases hstep with
    | waitReturn _ hw =>
      obtain ⟨hle, rfl, -⟩ := WorkerPool.waitAll_eq_some.mp hw
      exact ⟨acc'.settled hle, acc'.paid.symm⟩

/-- Two threads and a caller that waits. The job on the first thread submits another one, which
the second thread completes before it. -/
def nestedJobs : List (PoolEvent 2 ℕ ℕ) :=
  [.submit (.outside 0) ⟨0, 5⟩, .dequeue 0 ⟨0, 5⟩, .sleep 1, .waitSleep (.outside 0),
    .submit (.job 0) ⟨1, 6⟩, .dequeue 1 ⟨1, 6⟩, .finish 1 ⟨1, 6⟩ 8, .complete 1 ⟨1, 6⟩ 8,
    .finish 0 ⟨0, 5⟩ 7, .complete 0 ⟨0, 5⟩ 7, .waitReturn (.outside 0) [8, 7]]

theorem nestedJobs_run : ∃ s, (poolSystem 2 ℕ ℕ).Run nestedJobs s := by
  have h0 : (poolSystem 2 ℕ ℕ).Run [] ⟨.create, fun _ => .idle, fun _ => .out, 0⟩ :=
    .nil ⟨rfl, fun _ => rfl, fun _ => rfl, rfl⟩
  have h1 := LTS.Run.snoc h0
    (.submit (c := .outside 0) (f := 5) rfl (.inr ⟨fun _ => by simp, rfl⟩))
  have h2 := LTS.Run.snoc h1 (.dequeue (t := 0) rfl rfl)
  have h3 := LTS.Run.snoc h2 (.sleep (t := 1) rfl rfl rfl)
  have h4 := LTS.Run.snoc h3 (.waitSleep (c := .outside 0) (.inl rfl) rfl)
  have h5 := LTS.Run.snoc h4
    (.submit (c := .job 0) (f := 6) ⟨rfl, _, rfl⟩ (.inl ⟨1, rfl, rfl⟩))
  have h6 := LTS.Run.snoc h5 (.dequeue (t := 1) rfl rfl)
  have h7 := h6.snoc (l := PoolEvent.finish 1 ⟨1, 6⟩ 8) (.finish rfl rfl)
  have h8 := LTS.Run.snoc h7 (.complete (t := 1) rfl (.inr ⟨.inl rfl, rfl⟩))
  have h9 := h8.snoc (l := PoolEvent.finish 0 ⟨0, 5⟩ 7) (.finish rfl rfl)
  have h10 := LTS.Run.snoc h9 (.complete (t := 0) rfl (.inl ⟨rfl, .outside 0, rfl, rfl⟩))
  have h11 := LTS.Run.snoc h10 (.waitReturn (c := .outside 0) (.inr rfl) rfl)
  exact ⟨_, h11⟩

theorem worker_pool_exactly_once_nestedJobs :
    ((completions (nestedJobs.take 10)).map Prod.fst).map Prod.snd
      ~ submits (nestedJobs.take 10) ∧
    (completions (nestedJobs.take 10)).map Prod.snd = [8, 7] := by
  obtain ⟨s, h⟩ := nestedJobs_run
  obtain ⟨hjobs, hresults⟩ := (worker_pool_exactly_once h).2.2 (nestedJobs.take 10) []
    (.outside 0) [8, 7] rfl
  exact ⟨hjobs, hresults.symm⟩

end Jaguar
