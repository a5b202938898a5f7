/-
Runs in which waiting under the interpreter lock is safe.

* `SafeStep` — what the steps of a run have to meet: no owner of the lock goes to
  sleep on work that has still to run, and a signal never leaves a second sleeper;
* `LockInv`, `LockInv.step` — the invariant of such runs, one lemma for each field;
* `unsafe_step_harms` — a step that is not safe leaves a locked wait or a lost
  wake-up behind it;
* `safe_waits_never_deadlock` — in a run of safe steps no sleeper keeps the lock
  from the work it awaits, and whoever sleeps is waiting, through the lock or
  through further waits, for a thread that can move.
-/
import Jaguar.InterpLock

namespace Jaguar

open scoped BigOperators

/-! ### Runs in which waiting is safe -/

/-- **What the steps of a run have to meet.**  A thread that holds the lock does not
go to sleep on work that has still to run, nobody submits to a pool such a sleeper
waits for, no file is loaded that it waits for, and a signal to the sleepers of a wait
finds at most one. -/
def SafeStep (s : LockState) : LockEvent → Prop
  | .waitSleep tid w => s.lock = some tid → ¬ NeedsLock s w
  | .submit _ p => ∀ tid, s.lock = some tid → s.pc tid ≠ .blocked (.pool p)
  | .loaded h => ∀ tid, s.lock = some tid → s.pc tid ≠ .blocked (.worker h)
  | .complete p _ => ((s.pool p).complete ()).signalsAllDone = true → ∀ tid tid',
      s.pc tid = .blocked (.pool p) → s.pc tid' = .blocked (.pool p) → tid = tid'
  | .done h => ∀ tid tid', s.pc tid = .blocked (.worker h) →
      s.pc tid' = .blocked (.worker h) → tid = tid'
  | _ => True

/-- The places a thread can be at: only timer callbacks of the main thread ask for
the lock, threads beyond the size of a pool do not exist, and only a single worker loads
a file or ends; it never goes idle. -/
def Placed (s : LockState) : Tid → Pc → Prop
  | .main, pc => pc = .wantLock → s.callback = .timer
  | .pool p t, pc => (pc = .absent ↔ s.threads p ≤ t) ∧ pc ≠ .done ∧ pc ≠ .loading
  | .worker _, pc => pc ≠ .idle ∧ pc ≠ .asleep

/-- Started and not finished. -/
def Pc.live (pc : Pc) : Prop := pc ≠ .absent ∧ pc ≠ .done

/-- What is awaited exists and is not finished. -/
def Outstanding (s : LockState) : Wait → Prop
  | .pool p => 0 < s.threads p ∧ (s.pool p).completed < (s.pool p).submitted
  | .worker h => (s.pc (.worker h)).live

/-- The number of jobs of pool `p` that some thread has dequeued and not completed. -/
def LockState.flying (s : LockState) (p : ℕ) : ℕ :=
  ∑ t ∈ Finset.range (s.threads p), (s.pc (.pool p t)).inFlight.toNat

/-- `submitted = completed + queued + in flight`. -/
def Counted (s : LockState) (p : ℕ) : Prop :=
  (s.pool p).submitted = (s.pool p).completed + (s.pool p).queue.length + s.flying p

/-- The invariant of the runs whose steps are safe. -/
structure LockInv (s : LockState) : Prop where
  /-- The owner of the lock is the thread whose Jaguar code runs under it. -/
  owner : ∀ tid, s.lock = some tid ↔ (s.pc tid).inCode = true ∧ s.underLock tid
  placed : ∀ tid, Placed s tid (s.pc tid)
  counted : ∀ p, Counted s p
  /-- A queued job never finds all threads of its pool asleep. -/
  awake : ∀ p, (s.pool p).queue ≠ [] → ∃ t < s.threads p, s.pc (.pool p t) ≠ .asleep
  /-- No wake-up is lost. -/
  sleeps : ∀ tid w, s.pc tid = .blocked w → Outstanding s w
  woken : ∀ tid w, s.pc tid = .recheck w → s.known w
  unlocked : NoLockedWait s

/-! #### Steps that leave a view of the places alone -/

section Views

variable {α : Type*} {pc pc' : Tid → Pc}

theorem view_update (f : Pc → α) {tid : Tid} {x : Pc} (h : f x = f (pc tid)) :
    ∀ y, f (Function.update pc tid x y) = f (pc y) := by
  intro y
  by_cases hy : y = tid
  · subst hy
    rw [Function.update_self, h]
  · rw [Function.update_of_ne hy]

theorem view_signal (f : Pc → α) {may : Tid → Prop} {a b : Pc} (h : signalOne may a b pc pc')
    (hab : f b = f a) : ∀ y, f (pc' y) = f (pc y) := by
  rcases h with ⟨tid, -, ha, rfl⟩ | ⟨-, rfl⟩
  · exact view_update f (by rw [hab, ha])
  · exact fun _ => rfl

/-- What holds at every place holds after one thread has moved to such a place. -/
theorem every_update {P : Tid → Pc → Prop} (h : ∀ y, P y (pc y)) {tid : Tid} {x : Pc}
    (hx : P tid x) : ∀ y, P y (Function.update pc tid x y) := by
  intro y
  by_cases hy : y = tid
  · subst hy
    rwa [Function.update_self]
  · rw [Function.update_of_ne hy]
    exact h y

theorem every_signal {P : Tid → Pc → Prop} (h : ∀ y, P y (pc y)) {may : Tid → Prop} {a b : Pc}
    (hs : signalOne may a b pc pc') (hab : ∀ y, P y a → P y b) : ∀ y, P y (pc' y) := by
  rcases hs with ⟨tid, -, ha, rfl⟩ | ⟨-, rfl⟩
  · exact every_update h (hab tid (ha ▸ h tid))
  · exact h

end Views

/-! #### One step, field by field -/

section Step

variable {s s' : LockState} {e : LockEvent}

/-- A pool that does not exist has no threads. -/
theorem LockInv.no_thread (h : LockInv s) {p : ℕ} (hp : s.threads p = 0) (t : ℕ) :
    s.pc (.pool p t) = .absent :=
  (h.placed (.pool p t)).1.mpr (by omega)

theorem LockInv.thread_lt (h : LockInv s) {p t : ℕ} (ht : s.pc (.pool p t) ≠ .absent) :
    t < s.threads p := by
  by_contra hlt
  exact ht ((h.placed (.pool p t)).1.mpr (by omega))

/-- The places after a pool was made: its threads are idle, the others where they were. -/
theorem newPool_view {α : Type*} (f : Pc → α) {p n : ℕ}
    (hnew : ∀ t, s.pc (.pool p t) = .absent) (hf : f .idle = f .absent) (y : Tid) :
    f (match y with
      | .pool q t => if q = p ∧ t < n then .idle else s.pc y
      | _ => s.pc y) = f (s.pc y) := by
  cases y with
  | main => rfl
  | worker => rfl
  | pool q t =>
    by_cases hq : q = p ∧ t < n
    · obtain ⟨rfl, ht⟩ := hq
      simp [ht, hnew, hf]
    · simp [hq]

/-- What a successful test of a wait leaves: lock, callback, places, threads and
queues as they were, and the awaited pool's counters reset. -/
theorem collect_eq_some {w : Wait} {t : LockState} (h : s.collect w = some t) :
    t.lock = s.lock ∧ t.callback = s.callback ∧ t.pc = s.pc ∧ t.threads = s.threads ∧
      ¬ Outstanding s w ∧
      ∀ p, (t.pool p).queue = (s.pool p).queue ∧ (t.pool p = s.pool p ∨
        w = .pool p ∧ (t.pool p).submitted = 0 ∧ (t.pool p).completed = 0) := by
  cases w with
  | worker k =>
    simp only [LockState.collect] at h
    split at h
    · next hd =>
      cases h
      exact ⟨rfl, rfl, rfl, rfl, fun ho => ho.2 hd, fun p => ⟨rfl, .inl rfl⟩⟩
    · cases h
  | pool p =>
    simp only [LockState.collect, Option.map_eq_some_iff] at h
    obtain ⟨⟨list, pool⟩, hw, rfl⟩ := h
    obtain ⟨hle, -, rfl⟩ := WorkerPool.waitAll_eq_some.mp hw
    refine ⟨rfl, rfl, rfl, rfl, fun ho => absurd ho.2 (by omega), fun q => ?_⟩
    by_cases hq : q = p
    · subst hq
      simp
    · simp [Function.update_of_ne hq]

theorem outstanding_of_collect_eq_none {w : Wait} (hw : s.known w) (h : s.collect w = none) :
    Outstanding s w := by
  cases w with
  | worker k =>
    refine ⟨hw, fun hd => ?_⟩
    simp [LockState.collect, hd] at h
  | pool p =>
    refine ⟨hw, ?_⟩
    by_contra hlt
    simp [LockState.collect, WorkerPool.waitAll, hlt] at h

theorem LockInv.owner_step (h : LockInv s) (hs : LockStep s e s') :
    ∀ tid, s'.lock = some tid ↔ (s'.pc tid).inCode = true ∧ s'.underLock tid := by
  have under : ∀ t : LockState, t.callback = s.callback →
      ∀ tid, t.underLock tid ↔ s.underLock tid := by
    intro t hcb tid
    cases tid <;> simp [LockState.underLock, hcb]
  -- nothing changes for a step that keeps the lock, the callback and who is in code
  have frame : ∀ t : LockState, t.lock = s.lock → t.callback = s.callback →
      (∀ tid, (t.pc tid).inCode = (s.pc tid).inCode) →
      ∀ tid, t.lock = some tid ↔ (t.pc tid).inCode = true ∧ t.underLock tid := by
    intro t hlock hcb hpc tid
    rw [hlock, hpc tid, h.owner tid, under t hcb]
  -- a thread outside Jaguar code does not own the lock
  have outside : ∀ tid, (s.pc tid).inCode = false → s.lock ≠ some tid := by
    intro tid hpc hlock
    have := ((h.owner tid).mp hlock).1
    simp [hpc] at this
  cases hs with
  | beginHandler hpc =>
    intro tid
    cases tid with
    | main => simpa [LockState.underLock] using outside .main (by rw [hpc]; rfl)
    | pool p t => simpa [LockState.underLock] using h.owner (.pool p t)
    | worker k => simpa [LockState.underLock] using h.owner (.worker k)
  | beginTimer hpc =>
    intro tid
    cases tid with
    | main => simpa [Pc.inCode] using outside .main (by rw [hpc]; rfl)
    | pool p t => simpa [LockState.underLock] using h.owner (.pool p t)
    | worker k => simpa [LockState.underLock] using h.owner (.worker k)
  | @acquire tid hpc hfree =>
    intro y
    change _ ↔ _ ∧ s.underLock y
    by_cases hy : y = tid
    · subst hy
      have hunder : s.underLock y := by
        cases y with
        | main => exact h.placed .main hpc
        | pool p t => trivial
        | worker k => trivial
      simpa [Pc.inCode] using hunder
    · have hout := mt (h.owner y).mpr (by simp [hfree])
      simpa [Function.update_of_ne hy, Ne.symm hy] using hout
  | @finishLocked tid hpc hunder =>
    intro y
    change _ ↔ _ ∧ s.underLock y
    by_cases hy : y = tid
    · subst hy
      cases y <;> simp [afterCode, Pc.inCode]
    · have howner : s.lock = some tid := (h.owner tid).mpr ⟨by rw [hpc]; rfl, hunder⟩
      have hout := mt (h.owner y).mpr (by simp [howner, Ne.symm hy])
      simpa [Function.update_of_ne hy] using hout
  | @finish tid hpc hunder =>
    intro y
    change _ ↔ _ ∧ s.underLock y
    by_cases hy : y = tid
    · subst hy
      have hout := mt (h.owner y).mp fun hc => hunder hc.2
      simpa [hunder] using hout
    · simpa [Function.update_of_ne hy] using h.owner y
  | newPool _ hp => exact frame _ rfl rfl (newPool_view Pc.inCode (h.no_thread hp) rfl)
  | spawn _ hpc => exact frame _ rfl rfl (view_update Pc.inCode (by rw [hpc]; rfl))
  | run _ hpc => exact frame _ rfl rfl (view_update Pc.inCode (by rw [hpc]; rfl))
  | loaded hpc => exact frame _ rfl rfl (view_update Pc.inCode (by rw [hpc]; rfl))
  | noFile hpc => exact frame _ rfl rfl (view_update Pc.inCode (by rw [hpc]; rfl))
  | submit _ _ hsig => exact frame _ rfl rfl (view_signal Pc.inCode hsig rfl)
  | sleep hpc _ => exact frame _ rfl rfl (view_update Pc.inCode (by rw [hpc]; rfl))
  | wakeJob hpc => exact frame _ rfl rfl (view_update Pc.inCode (by rw [hpc]; rfl))
  | dequeue hpc _ => exact frame _ rfl rfl (view_update Pc.inCode (by rw [hpc]; rfl))
  | complete hpc hsig =>
    refine frame _ rfl rfl fun y => ?_
    rw [view_signal Pc.inCode hsig rfl y, view_update Pc.inCode (by rw [hpc]; rfl) y]
  | done hpc hsig =>
    refine frame _ rfl rfl fun y => ?_
    rw [view_signal Pc.inCode hsig rfl y, view_update Pc.inCode (by rw [hpc]; rfl) y]
  | waitReturn hpc _ hw =>
    obtain ⟨hlock, hcb, hpc', -⟩ := collect_eq_some hw
    refine frame _ hlock hcb fun y => ?_
    rw [view_update Pc.inCode (by rw [hpc']; rcases hpc with hpc | hpc <;> simp [hpc, Pc.inCode]) y,
      hpc']
  | waitSleep hpc _ _ =>
    refine frame _ rfl rfl (view_update Pc.inCode ?_)
    rcases hpc with hpc | hpc <;> (rw [hpc]; rfl)
  | waitWake hpc => exact frame _ rfl rfl (view_update Pc.inCode (by rw [hpc]; rfl))

section Moves

variable {tid : Tid} {x y : Pc}

/-- A thread of a pool that exists goes on existing. -/
theorem Placed.inPool {p t : ℕ} (h : Placed s (.pool p t) x) (hx : x ≠ .absent)
    (hy : y ≠ .absent) (hworker : y ≠ .done ∧ y ≠ .loading) : Placed s (.pool p t) y :=
  ⟨iff_of_false hy fun hle => hx (h.1.mpr hle), hworker⟩

/-- Whoever exists may be in Jaguar code. -/
theorem Placed.toCode (h : Placed s tid x) (hx : x ≠ .absent) (hy : y.inCode = true) :
    Placed s tid y := by
  have hne : ∀ {z : Pc}, z.inCode = false → y ≠ z := by
    rintro z hz rfl
    exact absurd (hy.symm.trans hz) Bool.noConfusion
  cases tid with
  | main => exact fun hwant => absurd hwant (hne rfl)
  | pool p t => exact h.inPool hx (hne rfl) ⟨hne rfl, hne rfl⟩
  | worker k => exact ⟨hne rfl, hne rfl⟩

theorem Placed.afterCode (h : Placed s tid .code) : Placed s tid (afterCode tid) := by
  cases tid with
  | main =>
    intro hwant
    cases hwant
  | pool p t => exact h.inPool (by simp) (by simp [Jaguar.afterCode]) (by simp [Jaguar.afterCode])
  | worker k => exact ⟨by simp [Jaguar.afterCode], by simp [Jaguar.afterCode]⟩

/-- Who sleeps for a job may wake up. -/
theorem Placed.wake (h : Placed s tid .asleep) : Placed s tid .idle := by
  cases tid with
  | main =>
    intro hwant
    cases hwant
  | pool p t => exact h.inPool (by simp) (by simp) (by simp)
  | worker k => exact absurd rfl h.2

end Moves

theorem LockInv.placed_step (h : LockInv s) (hs : LockStep s e s') :
    ∀ tid, Placed s' tid (s'.pc tid) := by
  have frame : ∀ t : LockState, t.callback = s.callback → t.threads = s.threads →
      (∀ tid, Placed s tid (t.pc tid)) → ∀ tid, Placed t tid (t.pc tid) := by
    intro t hcb hth hpc tid
    have := hpc tid
    cases tid <;> simpa [Placed, hcb, hth] using this
  have at_pc : ∀ {tid x}, s.pc tid = x → Placed s tid x := fun hpc => hpc ▸ h.placed _
  cases hs with
  | beginHandler hpc =>
    intro tid
    cases tid with
    | main => simp [Placed]
    | pool p t => simpa [Placed] using h.placed (.pool p t)
    | worker k => simpa [Placed] using h.placed (.worker k)
  | beginTimer hpc =>
    intro tid
    cases tid with
    | main => simp [Placed]
    | pool p t => simpa [Placed] using h.placed (.pool p t)
    | worker k => simpa [Placed] using h.placed (.worker k)
  | acquire hpc _ =>
    exact frame _ rfl rfl (every_update h.placed ((h.placed _).toCode (by simp [hpc]) rfl))
  | finishLocked hpc _ => exact frame _ rfl rfl (every_update h.placed (at_pc hpc).afterCode)
  | finish hpc _ => exact frame _ rfl rfl (every_update h.placed (at_pc hpc).afterCode)
  | @newPool tid p n _ hp =>
    intro y
    cases y with
    | main => exact h.placed .main
    | worker k => exact h.placed (.worker k)
    | pool q t =>
      by_cases hq : q = p
      · subst hq
        by_cases ht : t < poolThreads n
        · simp [Placed, ht]
        · simp [Placed, ht, h.no_thread hp, not_lt.mp ht]
      · simpa [Placed, hq, Function.update_of_ne hq] using h.placed (.pool q t)
  | spawn _ _ => exact frame _ rfl rfl (every_update h.placed (by simp [Placed]))
  | run _ _ => exact frame _ rfl rfl (every_update h.placed (by simp [Placed]))
  | loaded _ => exact frame _ rfl rfl (every_update h.placed (by simp [Placed]))
  | noFile _ => exact frame _ rfl rfl (every_update h.placed (by simp [Placed]))
  | submit _ _ hsig =>
    exact frame _ rfl rfl (every_signal h.placed hsig fun y hy => hy.wake)
  | sleep hpc _ =>
    exact frame _ rfl rfl (every_update h.placed ((at_pc hpc).inPool (by simp) (by simp) (by simp)))
  | wakeJob hpc => exact frame _ rfl rfl (every_update h.placed (at_pc hpc).wake)
  | dequeue hpc _ =>
    exact frame _ rfl rfl (every_update h.placed ((at_pc hpc).inPool (by simp) (by simp) (by simp)))
  | complete hpc hsig =>
    have hidle := every_update h.placed
      ((at_pc hpc).inPool (y := .idle) (by simp) (by simp) (by simp))
    exact frame _ rfl rfl (every_signal hidle hsig fun y hy => hy.toCode (by simp) rfl)
  | done hpc hsig =>
    exact frame _ rfl rfl (every_signal (every_update h.placed (by simp [Placed])) hsig
      fun y hy => hy.toCode (by simp) rfl)
  | waitReturn hpc _ hw =>
    obtain ⟨-, hcb, hpc', hth, -⟩ := collect_eq_some hw
    refine frame _ hcb hth (every_update (hpc' ▸ h.placed) ((h.placed _).toCode ?_ rfl))
    rcases hpc with hpc | hpc <;> simp [hpc]
  | waitSleep hpc _ _ =>
    refine frame _ rfl rfl (every_update h.placed ((h.placed _).toCode ?_ rfl))
    rcases hpc with hpc | hpc <;> simp [hpc]
  | waitWake hpc =>
    exact frame _ rfl rfl (every_update h.placed ((h.placed _).toCode (by simp [hpc]) rfl))

/-- The jobs in flight, when the threads of the pool stay where they were as far as
`inFlight` can tell. -/
theorem flying_congr {t : LockState} {p : ℕ} (hth : t.threads p = s.threads p)
    (h : ∀ i, (t.pc (.pool p i)).inFlight = (s.pc (.pool p i)).inFlight) :
    t.flying p = s.flying p := by
  simp only [LockState.flying, hth, h]

/-- One thread of the pool moves. -/
theorem flying_update {p i : ℕ} (hi : i < s.threads p) (x : Pc) :
    (∑ j ∈ Finset.range (s.threads p),
        (Function.update s.pc (.pool p i) x (.pool p j)).inFlight.toNat)
      + (s.pc (.pool p i)).inFlight.toNat = s.flying p + x.inFlight.toNat := by
  have hcut : ∀ j, Function.update s.pc (.pool p i) x (.pool p j)
      = Function.update (fun j => s.pc (.pool p j)) i x j := by
    intro j
    by_cases hj : j = i
    · subst hj
      simp
    · rw [Function.update_of_ne hj, Function.update_of_ne (by simpa using hj)]
  simp only [hcut]
  exact sum_update_add (fun _ pc => pc.inFlight.toNat) (fun j => s.pc (.pool p j))
    (Finset.mem_range.mpr hi) x

theorem LockInv.counted_step (h : LockInv s) (hs : LockStep s e s') : ∀ p, Counted s' p := by
  have frame : ∀ (t : LockState) (p : ℕ), t.threads p = s.threads p →
      ((t.pool p).submitted = (s.pool p).submitted ∧ (t.pool p).completed = (s.pool p).completed ∧
        (t.pool p).queue = (s.pool p).queue) →
      (∀ i, (t.pc (.pool p i)).inFlight = (s.pc (.pool p i)).inFlight) → Counted t p := by
    intro t p hth ⟨hsub, hcom, hq⟩ hpc
    unfold Counted
    rw [flying_congr hth hpc, hsub, hcom, hq]
    exact h.counted p
  have same : ∀ p, (s.pool p).submitted = (s.pool p).submitted ∧
      (s.pool p).completed = (s.pool p).completed ∧ (s.pool p).queue = (s.pool p).queue :=
    fun _ => ⟨rfl, rfl, rfl⟩
  intro q
  cases hs with
  | beginHandler _ => exact frame _ q rfl (same q) fun i => by simp
  | beginTimer _ => exact frame _ q rfl (same q) fun i => by simp
  | acquire hpc _ =>
    exact frame _ q rfl (same q) fun i => view_update Pc.inFlight (by rw [hpc]; rfl) _
  | @finishLocked tid hpc _ =>
    refine frame _ q rfl (same q) fun i => ?_
    cases tid with
    | pool q j => exact view_update Pc.inFlight (by rw [hpc]; rfl) _
    | _ => simp
  | @finish tid hpc _ =>
    refine frame _ q rfl (same q) fun i => ?_
    cases tid with
    | pool q j => exact view_update Pc.inFlight (by rw [hpc]; rfl) _
    | _ => simp
  | @newPool tid p n _ hp =>
    by_cases hq : q = p
    · subst hq
      have hidle : ∀ t ∈ Finset.range (poolThreads n),
          (if t < poolThreads n then Pc.idle else s.pc (.pool q t)).inFlight.toNat = 0 := by
        intro t ht
        simp [Finset.mem_range.mp ht]
      simp [Counted, LockState.flying, WorkerPool.create, Finset.sum_eq_zero hidle]
    · exact frame _ q (by simp [hq]) (by simp [hq]) fun i => by simp [hq]
  | spawn _ _ => exact frame _ q rfl (same q) fun i => by simp
  | run _ _ => exact frame _ q rfl (same q) fun i => by simp
  | loaded _ => exact frame _ q rfl (same q) fun i => by simp
  | noFile _ => exact frame _ q rfl (same q) fun i => by simp
  | @submit tid p pc' _ _ hsig =>
    by_cases hq : q = p
    · subst hq
      have hcount := h.counted q
      have hfly : LockState.flying { s with pc := pc' } q = s.flying q :=
        flying_congr rfl fun i => view_signal Pc.inFlight hsig rfl _
      simp only [Counted, LockState.flying] at hcount hfly ⊢
      simp [WorkerPool.submit, hfly]
      omega
    · exact frame _ q rfl (by simp [hq]) fun i => view_signal Pc.inFlight hsig rfl _
  | sleep hpc _ =>
    exact frame _ q rfl (same q) fun i => view_update Pc.inFlight (by rw [hpc]; rfl) _
  | wakeJob hpc =>
    exact frame _ q rfl (same q) fun i => view_update Pc.inFlight (by rw [hpc]; rfl) _
  | @dequeue p t job pool hpc hdeq =>
    obtain ⟨rest, hqueue, rfl⟩ := WorkerPool.dequeue_eq_some.mp hdeq
    by_cases hq : q = p
    · subst hq
      have hcount := h.counted q
      have hmove := flying_update (h.thread_lt (p := q) (t := t) (by simp [hpc])) .wantLock
      simp only [Counted, LockState.flying, hqueue, List.length_cons] at hcount hmove ⊢
      simp only [hpc, Pc.inFlight_idle, Pc.inFlight_wantLock, Bool.toNat_true, Bool.toNat_false]
        at hmove
      simp only [Function.update_self]
      omega
    · exact frame _ q rfl (by simp [hq]) fun i => by simp [hq]
  | @complete p t pc' hpc hsig =>
    have hview := view_signal Pc.inFlight hsig rfl
    by_cases hq : q = p
    · subst hq
      have hcount := h.counted q
      have hmove := flying_update (h.thread_lt (p := q) (t := t) (by simp [hpc])) .idle
      simp only [Counted, LockState.flying, hpc, Pc.inFlight_idle, Pc.inFlight_unlocked,
        Bool.toNat_true, Bool.toNat_false] at hcount hmove ⊢
      simp only [WorkerPool.complete, Function.update_self, hview]
      omega
    · refine frame _ q rfl (by simp [hq]) fun i => ?_
      rw [hview]
      simp [hq]
  | @done k pc' hpc hsig =>
    refine frame _ q rfl (same q) fun i => ?_
    rw [view_signal Pc.inFlight hsig rfl]
    simp
  | @waitReturn t tid w hpc hknown hw =>
    obtain ⟨-, -, hpc', hth, hout, hpool⟩ := collect_eq_some hw
    have hview : ∀ i, (Function.update t.pc tid .code (.pool q i)).inFlight
        = (s.pc (.pool q i)).inFlight := by
      intro i
      rw [hpc']
      refine view_update Pc.inFlight ?_ _
      rcases hpc with hpc | hpc
      · rw [hpc]
      · rw [hpc]
        rfl
    obtain ⟨hqueue, hsame | ⟨rfl, hsub, hcom⟩⟩ := hpool q
    · exact frame _ q (by rw [hth]) (by simp [hsame]) hview
    · -- the counters agree, so nothing is queued or in flight while they are reset
      have hcount := h.counted q
      have hle : (s.pool q).submitted ≤ (s.pool q).completed :=
        not_lt.mp fun hlt => hout ⟨hknown, hlt⟩
      simp only [Counted, LockState.flying] at hcount ⊢
      simp only [hview, hth, hqueue, hsub, hcom]
      omega
  | waitSleep hpc _ _ =>
    refine frame _ q rfl (same q) fun i => view_update Pc.inFlight ?_ _
    rcases hpc with hpc | hpc <;> (rw [hpc]; rfl)
  | waitWake hpc =>
    exact frame _ q rfl (same q) fun i => view_update Pc.inFlight (by rw [hpc]; rfl) _

theorem LockInv.awake_step (h : LockInv s) (hs : LockStep s e s') : ∀ p,
    (s'.pool p).queue ≠ [] → ∃ t < s'.threads p, s'.pc (.pool p t) ≠ .asleep := by
  have frame : ∀ (t : LockState) (p : ℕ), t.threads p = s.threads p →
      ((t.pool p).queue ≠ [] → (s.pool p).queue ≠ []) →
      (∀ tid, s.pc tid ≠ .asleep → t.pc tid ≠ .asleep) →
      (t.pool p).queue ≠ [] → ∃ i < t.threads p, t.pc (.pool p i) ≠ .asleep := by
    intro t p hth hqueue hpc hne
    obtain ⟨i, hi, hawake⟩ := h.awake p (hqueue hne)
    exact ⟨i, by omega, hpc _ hawake⟩
  -- moving to a place other than sleep keeps everybody awake who was
  have move : ∀ {pc : Tid → Pc} tid x, (∀ y, s.pc y ≠ .asleep → pc y ≠ .asleep) →
      x ≠ .asleep → ∀ y, s.pc y ≠ .asleep → Function.update pc tid x y ≠ .asleep := by
    intro pc tid x hpc hx y hy
    by_cases hyt : y = tid
    · subst hyt
      simpa using hx
    · simpa [Function.update_of_ne hyt] using hpc y hy
  have signal : ∀ {pc pc' : Tid → Pc} {may a b}, (∀ y, s.pc y ≠ .asleep → pc y ≠ .asleep) →
      signalOne may a b pc pc' → b ≠ .asleep → ∀ y, s.pc y ≠ .asleep → pc' y ≠ .asleep := by
    rintro pc pc' may a b hpc (⟨tid, -, -, rfl⟩ | ⟨-, rfl⟩) hb
    · exact move tid b hpc hb
    · exact hpc
  intro q
  cases hs with
  | beginHandler _ => exact frame _ q rfl id (move _ _ (fun _ => id) (by simp))
  | beginTimer _ => exact frame _ q rfl id (move _ _ (fun _ => id) (by simp))
  | acquire _ _ => exact frame _ q rfl id (move _ _ (fun _ => id) (by simp))
  | @finishLocked tid _ _ =>
    exact frame _ q rfl id (move _ _ (fun _ => id) (by cases tid <;> simp [afterCode]))
  | @finish tid _ _ =>
    exact frame _ q rfl id (move _ _ (fun _ => id) (by cases tid <;> simp [afterCode]))
  | @newPool tid p n _ hp =>
    by_cases hq : q = p
    · simp [hq, WorkerPool.create]
    · simpa [hq] using h.awake q
  | spawn _ _ => exact frame _ q rfl id (move _ _ (fun _ => id) (by simp))
  | run _ _ => exact frame _ q rfl id (move _ _ (fun _ => id) (by simp))
  | loaded _ => exact frame _ q rfl id (move _ _ (fun _ => id) (by simp))
  | noFile _ => exact frame _ q rfl id (move _ _ (fun _ => id) (by simp))
  | @submit tid p pc' _ hn hsig =>
    by_cases hq : q = p
    · subst hq
      intro _
      rcases hsig with ⟨_, ⟨i, rfl⟩, hpc, rfl⟩ | ⟨hnone, rfl⟩
      · exact ⟨i, h.thread_lt (by simp [hpc]), by simp⟩
      · exact ⟨0, hn, hnone _ ⟨0, rfl⟩⟩
    · exact frame _ q rfl (by simp [hq]) (signal (fun _ => id) hsig (by simp))
  | @sleep p t _ hempty =>
    by_cases hq : q = p
    · exact fun hne => absurd (hq ▸ hempty) hne
    · simpa [hq] using h.awake q
  | wakeJob _ => exact frame _ q rfl id (move _ _ (fun _ => id) (by simp))
  | @dequeue p t job pool _ hdeq =>
    obtain ⟨rest, hqueue, rfl⟩ := WorkerPool.dequeue_eq_some.mp hdeq
    refine frame _ q rfl ?_ (move _ _ (fun _ => id) (by simp))
    by_cases hq : q = p
    · subst hq
      simp [hqueue]
    · simp [hq]
  | @complete p t pc' _ hsig =>
    refine frame _ q rfl ?_ (signal (move _ _ (fun _ => id) (by simp)) hsig (by simp))
    by_cases hq : q = p
    · subst hq
      simp [WorkerPool.complete]
    · simp [hq]
  | done _ hsig => exact frame _ q rfl id (signal (move _ _ (fun _ => id) (by simp)) hsig (by simp))
  | waitReturn _ _ hw =>
    obtain ⟨-, -, hpc', hth, -, hpool⟩ := collect_eq_some hw
    refine frame _ q (by rw [hth]) (by simp [(hpool q).1]) (move _ _ ?_ (by simp))
    rw [hpc']
    exact fun _ => id
  | waitSleep _ _ _ => exact frame _ q rfl id (move _ _ (fun _ => id) (by simp))
  | waitWake _ => exact frame _ q rfl id (move _ _ (fun _ => id) (by simp))

/-- Compared with `s`, nobody new sleeps in a wait and no thread has ended. -/
def KeepsWaits (s : LockState) (pc : Tid → Pc) : Prop :=
  (∀ y w, pc y = .blocked w → s.pc y = .blocked w) ∧ ∀ y, (s.pc y).live → (pc y).live

theorem blocked_update {pc : Tid → Pc} {tid y : Tid} {x : Pc} {w : Wait}
    (hx : ∀ w, x ≠ .blocked w) (hy : Function.update pc tid x y = .blocked w) :
    pc y = .blocked w := by
  by_cases hyt : y = tid
  · subst hyt
    rw [Function.update_self] at hy
    exact absurd hy (hx w)
  · rwa [Function.update_of_ne hyt] at hy

theorem KeepsWaits.update_live {pc : Tid → Pc} (h : KeepsWaits s pc) (tid : Tid) (x : Pc)
    (hlive : x.live) : ∀ y, (s.pc y).live → (Function.update pc tid x y).live :=
  every_update (P := fun y x => (s.pc y).live → x.live) h.2 fun _ => hlive

theorem KeepsWaits.update {pc : Tid → Pc} (h : KeepsWaits s pc) (tid : Tid) (x : Pc)
    (hx : ∀ w, x ≠ .blocked w) (hlive : x.live) : KeepsWaits s (Function.update pc tid x) :=
  ⟨fun y w hy => h.1 y w (blocked_update hx hy), h.update_live tid x hlive⟩

theorem KeepsWaits.signal {pc pc' : Tid → Pc} (h : KeepsWaits s pc) {may : Tid → Prop} {a b : Pc}
    (hsig : signalOne may a b pc pc') (hb : ∀ w, b ≠ .blocked w) (hlive : b.live) :
    KeepsWaits s pc' := by
  rcases hsig with ⟨tid, -, -, rfl⟩ | ⟨-, rfl⟩
  · exact h.update _ _ hb hlive
  · exact h

theorem keepsWaits_self : KeepsWaits s s.pc := ⟨fun _ _ => id, fun _ => id⟩

theorem keepsWaits_newPool (p n : ℕ) : KeepsWaits s fun y => match y with
    | .pool q t => if q = p ∧ t < n then .idle else s.pc y
    | _ => s.pc y := by
  refine ⟨fun y w hy => ?_, fun y hy => ?_⟩
  · cases y with
    | pool q t =>
      by_cases hqt : q = p ∧ t < n
      · simp [hqt] at hy
      · simpa [hqt] using hy
    | _ => exact hy
  · cases y with
    | pool q t =>
      by_cases hqt : q = p ∧ t < n
      · simp [hqt, Pc.live]
      · simpa [hqt] using hy
    | _ => exact hy

/-- A signal to a wait with at most one sleeper leaves none. -/
theorem signal_wakes_all {may : Tid → Prop} {w : Wait} {pc pc' : Tid → Pc}
    (hsig : signalOne may (.blocked w) (.recheck w) pc pc') (hmay : ∀ y, may y)
    (hone : ∀ y y', pc y = .blocked w → pc y' = .blocked w → y = y') :
    ∀ y, pc' y ≠ .blocked w := by
  rcases hsig with ⟨tid, -, ht, rfl⟩ | ⟨hnone, rfl⟩
  · intro y hy
    by_cases hyt : y = tid
    · subst hyt
      simp at hy
    · rw [Function.update_of_ne hyt] at hy
      exact hyt (hone y tid hy ht)
  · exact fun y => hnone y (hmay y)

theorem LockInv.sleeps_step (h : LockInv s) (hsafe : SafeStep s e) (hs : LockStep s e s') :
    ∀ tid w, s'.pc tid = .blocked w → Outstanding s' w := by
  have frame : ∀ t : LockState, (∀ p, 0 < s.threads p → 0 < t.threads p ∧
        ((s.pool p).completed < (s.pool p).submitted →
          (t.pool p).completed < (t.pool p).submitted)) →
      KeepsWaits s t.pc → ∀ tid w, t.pc tid = .blocked w → Outstanding t w := by
    intro t hpool hpc tid w hw
    have hout := h.sleeps tid w (hpc.1 tid w hw)
    cases w with
    | pool p => exact ⟨(hpool p hout.1).1, (hpool p hout.1).2 hout.2⟩
    | worker k => exact hpc.2 _ hout
  have same : ∀ p, 0 < s.threads p → 0 < s.threads p ∧
      ((s.pool p).completed < (s.pool p).submitted →
        (s.pool p).completed < (s.pool p).submitted) := fun _ hp => ⟨hp, id⟩
  have keep := keepsWaits_self (s := s)
  cases hs with
  | beginHandler _ => exact frame _ same (keep.update _ _ (by simp) (by simp [Pc.live]))
  | beginTimer _ => exact frame _ same (keep.update _ _ (by simp) (by simp [Pc.live]))
  | acquire _ _ => exact frame _ same (keep.update _ _ (by simp) (by simp [Pc.live]))
  | @finishLocked tid _ _ =>
    exact frame _ same (keep.update _ _ (by cases tid <;> simp [afterCode])
      (by cases tid <;> simp [afterCode, Pc.live]))
  | @finish tid _ _ =>
    exact frame _ same (keep.update _ _ (by cases tid <;> simp [afterCode])
      (by cases tid <;> simp [afterCode, Pc.live]))
  | @newPool tid p n _ hp =>
    refine frame _ (fun q hq => ?_) (keepsWaits_newPool p (poolThreads n))
    have hqp : q ≠ p := by
      rintro rfl
      omega
    simpa [hqp] using hq
  | spawn _ _ => exact frame _ same (keep.update _ _ (by simp) (by simp [Pc.live]))
  | run _ _ => exact frame _ same (keep.update _ _ (by simp) (by simp [Pc.live]))
  | loaded _ => exact frame _ same (keep.update _ _ (by simp) (by simp [Pc.live]))
  | noFile _ => exact frame _ same (keep.update _ _ (by simp) (by simp [Pc.live]))
  | @submit tid p pc' _ _ hsig =>
    refine frame _ (fun q hq => ⟨hq, ?_⟩) (keep.signal hsig (by simp) (by simp [Pc.live]))
    by_cases hqp : q = p
    · subst hqp
      simp [WorkerPool.submit]
      omega
    · simp [hqp]
  | sleep _ _ => exact frame _ same (keep.update _ _ (by simp) (by simp [Pc.live]))
  | wakeJob _ => exact frame _ same (keep.update _ _ (by simp) (by simp [Pc.live]))
  | @dequeue p t job pool _ hdeq =>
    obtain ⟨rest, hqueue, rfl⟩ := WorkerPool.dequeue_eq_some.mp hdeq
    refine frame _ (fun q hq => ⟨hq, ?_⟩) (keep.update _ _ (by simp) (by simp [Pc.live]))
    by_cases hqp : q = p
    · subst hqp
      simp
    · simp [hqp]
  | @complete p t pc' hpc hsig =>
    have keep₁ := keep.update (.pool p t) .idle (by simp) (by simp [Pc.live])
    have keep' := keep₁.signal hsig (by simp) (by simp [Pc.live])
    intro tid w hw
    have hout := h.sleeps tid w (keep'.1 tid w hw)
    cases w with
    | worker k => exact keep'.2 _ hout
    | pool q =>
      refine ⟨hout.1, ?_⟩
      by_cases hq : q = p
      · subst hq
        have hquiet : ¬ (s.pool q).submitted ≤ (s.pool q).completed + 1 := fun hle =>
          signal_wakes_all hsig (fun _ => WorkerPool.signalsAllDone_iff.mpr hle)
            (fun y y' hy hy' => hsafe (WorkerPool.signalsAllDone_iff.mpr hle) y y'
              (keep₁.1 _ _ hy) (keep₁.1 _ _ hy')) tid hw
        simpa [WorkerPool.complete] using hquiet
      · simpa [hq] using hout.2
  | @done k pc' hpc hsig =>
    -- worker `k` ends, so its sleeper must not sleep on
    have keep₁ : ∀ y w, Function.update s.pc (.worker k) .done y = .blocked w →
        s.pc y = .blocked w := fun y w => blocked_update (by simp)
    have keep' := (keepsWaits_self (s := { s with pc := Function.update s.pc (.worker k) .done }))
      |>.signal hsig (by simp) (by simp [Pc.live])
    intro tid w hw
    have hout := h.sleeps tid w (keep₁ _ _ (keep'.1 tid w hw))
    cases w with
    | pool q => exact hout
    | worker j =>
      by_cases hj : j = k
      · subst hj
        exact absurd hw (signal_wakes_all hsig (fun _ => trivial)
          (fun y y' hy hy' => hsafe y y' (keep₁ _ _ hy) (keep₁ _ _ hy')) tid)
      · exact keep'.2 _ (by simpa [hj] using (show (s.pc (.worker j)).live from hout))
  | @waitReturn t tid w _ hknown hw =>
    obtain ⟨-, -, hpc', hth, hnot, hpool⟩ := collect_eq_some hw
    refine frame _ (fun q hq => ⟨by rwa [hth], fun hlt => ?_⟩)
      (KeepsWaits.update (hpc' ▸ keep) _ _ (by simp) (by simp [Pc.live]))
    obtain ⟨-, hsame | ⟨rfl, -⟩⟩ := hpool q
    · simpa [hsame] using hlt
    · exact absurd ⟨hq, hlt⟩ hnot
  | @waitSleep tid w _ hknown hw =>
    have hlive := (keep.update_live tid (.blocked w) (by simp [Pc.live]))
    have frame' : ∀ v, Outstanding s v →
        Outstanding { s with pc := Function.update s.pc tid (.blocked w) } v := by
      intro v hv
      cases v with
      | pool q => exact hv
      | worker k => exact hlive _ hv
    intro y v hv
    by_cases hy : y = tid
    · subst hy
      simp only [Function.update_self, Pc.blocked.injEq] at hv
      exact frame' _ (hv ▸ outstanding_of_collect_eq_none hknown hw)
    · simp only [Function.update_of_ne hy] at hv
      exact frame' _ (h.sleeps y v hv)
  | waitWake _ => exact frame _ same (keep.update _ _ (by simp) (by simp [Pc.live]))

/-- Compared with `s`, nobody has ceased to exist and whoever waits awaits something
that existed. -/
def KeepsKnown (s : LockState) (y : Tid) (x : Pc) : Prop :=
  (s.pc y ≠ .absent → x ≠ .absent) ∧ ∀ w, x = .recheck w ∨ x = .blocked w → s.known w

theorem LockInv.woken_step (h : LockInv s) (hs : LockStep s e s') :
    ∀ tid w, s'.pc tid = .recheck w → s'.known w := by
  have frame : ∀ t : LockState, (∀ p, 0 < s.threads p → 0 < t.threads p) →
      (∀ y, KeepsKnown s y (t.pc y)) → ∀ tid w, t.pc tid = .recheck w → t.known w := by
    intro t hth hpc tid w hw
    have hknown := (hpc tid).2 w (.inl hw)
    cases w with
    | pool p => exact hth p hknown
    | worker k => exact (hpc _).1 hknown
  have keep : ∀ y, KeepsKnown s y (s.pc y) := by
    refine fun y => ⟨id, fun w hw => hw.elim (h.woken y w) fun hw => ?_⟩
    have hout := h.sleeps y w hw
    cases w with
    | pool p => exact hout.1
    | worker k => exact hout.1
  have same : ∀ p, 0 < s.threads p → 0 < s.threads p := fun _ => id
  have plain : ∀ {y x}, x ≠ .absent → (∀ w, x ≠ .recheck w) → (∀ w, x ≠ .blocked w) →
      KeepsKnown s y x := fun h1 h2 h3 => ⟨fun _ => h1, fun w hw => (hw.elim (h2 w) (h3 w)).elim⟩
  have wake : ∀ w y, KeepsKnown s y (.blocked w) → KeepsKnown s y (.recheck w) := by
    refine fun w y hy => ⟨fun _ => by simp, fun v hv => hy.2 v ?_⟩
    simpa using hv
  cases hs with
  | beginHandler _ => exact frame _ same (every_update keep (plain (by simp) (by simp) (by simp)))
  | beginTimer _ => exact frame _ same (every_update keep (plain (by simp) (by simp) (by simp)))
  | acquire _ _ => exact frame _ same (every_update keep (plain (by simp) (by simp) (by simp)))
  | @finishLocked tid _ _ =>
    refine frame _ same (every_update keep ?_)
    cases tid <;> exact plain (by simp [afterCode]) (by simp [afterCode]) (by simp [afterCode])
  | @finish tid _ _ =>
    refine frame _ same (every_update keep ?_)
    cases tid <;> exact plain (by simp [afterCode]) (by simp [afterCode]) (by simp [afterCode])
  | @newPool tid p n _ hp =>
    refine frame _ (fun q hq => ?_) fun y => ?_
    · have hqp : q ≠ p := by
        rintro rfl
        omega
      simpa [hqp] using hq
    · cases y with
      | pool q t =>
        by_cases hqt : q = p ∧ t < poolThreads n
        · simpa [hqt] using plain (by simp) (by simp) (by simp)
        · simpa [hqt] using keep (.pool q t)
      | _ => exact keep _
  | spawn _ _ => exact frame _ same (every_update keep (plain (by simp) (by simp) (by simp)))
  | run _ _ => exact frame _ same (every_update keep (plain (by simp) (by simp) (by simp)))
  | loaded _ => exact frame _ same (every_update keep (plain (by simp) (by simp) (by simp)))
  | noFile _ => exact frame _ same (every_update keep (plain (by simp) (by simp) (by simp)))
  | submit _ _ hsig =>
    exact frame _ same (every_signal keep hsig fun _ _ => plain (by simp) (by simp) (by simp))
  | sleep _ _ => exact frame _ same (every_update keep (plain (by simp) (by simp) (by simp)))
  | wakeJob _ => exact frame _ same (every_update keep (plain (by simp) (by simp) (by simp)))
  | dequeue _ _ => exact frame _ same (every_update keep (plain (by simp) (by simp) (by simp)))
  | complete _ hsig =>
    exact frame _ same (every_signal
      (every_update keep (plain (by simp) (by simp) (by simp))) hsig (wake _))
  | done _ hsig =>
    exact frame _ same (every_signal
      (every_update keep (plain (by simp) (by simp) (by simp))) hsig (wake _))
  | waitReturn _ _ hw =>
    obtain ⟨-, -, hpc', hth, -⟩ := collect_eq_some hw
    exact frame _ (by rw [hth]; exact same)
      (every_update (by rw [hpc']; exact keep) (plain (by simp) (by simp) (by simp)))
  | waitSleep _ hknown _ =>
    exact frame _ same (every_update keep ⟨by simp, by simpa using hknown⟩)
  | waitWake hpc =>
    exact frame _ same (every_update keep (wake _ _ (hpc ▸ keep _)))

theorem LockInv.unlocked_step (h : LockInv s) (hsafe : SafeStep s e) (hs : LockStep s e s') :
    NoLockedWait s' := by
  have frame : ∀ t : LockState, t.lock = s.lock →
      (∀ tid w, t.pc tid = .blocked w → s.pc tid = .blocked w) →
      (∀ tid w, s.lock = some tid → s.pc tid = .blocked w → NeedsLock t w → NeedsLock s w) →
      NoLockedWait t := fun t hlock hnew hneed tid w hw hown h' =>
    h.unlocked tid w (hnew tid w hw) (hlock ▸ hown)
      (hneed tid w (hlock ▸ hown) (hnew tid w hw) h')
  have needs : ∀ (t : LockState) (w : Wait),
      (∀ p, w = .pool p → (t.pool p).queue ≠ [] → (s.pool p).queue ≠ []) →
      (∀ y, y ≠ .main → (t.pc y).inJob = true → (s.pc y).inJob = true) →
      NeedsLock t w → NeedsLock s w := by
    intro t w hqueue hjob hneed
    cases w with
    | pool p => exact hneed.imp (hqueue p rfl) fun ⟨i, hi⟩ => ⟨i, hjob _ (by simp) hi⟩
    | worker k => exact hjob _ (by simp) hneed
  have keep := keepsWaits_self (s := s)
  have main : ∀ x y, y ≠ .main → (Function.update s.pc .main x y).inJob = true →
      (s.pc y).inJob = true := by
    intro x y hy hjob
    rwa [Function.update_of_ne hy] at hjob
  have jobs : ∀ {pc : Tid → Pc} {tid x}, (∀ y, (pc y).inJob = true → (s.pc y).inJob = true) →
      (x.inJob = true → (s.pc tid).inJob = true) →
      ∀ y, y ≠ .main → (Function.update pc tid x y).inJob = true → (s.pc y).inJob = true :=
    fun hpc hx y _ => every_update (P := fun y x => x.inJob = true → (s.pc y).inJob = true) hpc hx y
  have frame' : ∀ t : LockState, t.lock = s.lock → KeepsWaits s t.pc →
      (∀ p, (t.pool p).queue ≠ [] → (s.pool p).queue ≠ []) →
      (∀ y, y ≠ .main → (t.pc y).inJob = true → (s.pc y).inJob = true) → NoLockedWait t :=
    fun t hlock hkeep hqueue hjob => frame t hlock hkeep.1 fun _ w _ _ =>
      needs t w (fun p _ => hqueue p) hjob
  cases hs with
  | beginHandler _ =>
    exact frame' _ rfl (keep.update _ _ (by simp) (by simp [Pc.live])) (fun _ => id) (main _)
  | beginTimer _ =>
    exact frame' _ rfl (keep.update _ _ (by simp) (by simp [Pc.live])) (fun _ => id) (main _)
  | @acquire tid hpc hfree =>
    intro y w hw hown
    simp only [Option.some.injEq] at hown
    simp [hown] at hw
  | finishLocked _ _ =>
    intro y w _ hown
    simp at hown
  | @finish tid hpc hunder =>
    cases tid with
    | main =>
      refine frame' _ rfl ?_ (fun _ => id) (main _)
      exact keep.update _ _ (by simp [afterCode]) (by simp [afterCode, Pc.live])
    | pool p t => exact absurd trivial hunder
    | worker k => exact absurd trivial hunder
  | @newPool tid p n _ hp =>
    refine frame _ rfl (keepsWaits_newPool p _).1 fun y w _ hw => ?_
    have hout := h.sleeps y w hw
    refine needs _ w ?_ fun y _ hy => newPool_view Pc.inJob (h.no_thread hp) rfl y ▸ hy
    rintro q rfl
    have hq : q ≠ p := by
      rintro rfl
      exact absurd hout.1 (by omega)
    simp [hq]
  | @spawn tid k _ hpc =>
    refine frame _ rfl (keep.update _ _ (by simp) (by simp [Pc.live])).1 fun y w _ hw hneed => ?_
    have hout := h.sleeps y w hw
    cases w with
    | pool q => exact hneed.imp id fun ⟨i, hi⟩ => ⟨i, by simpa using hi⟩
    | worker j =>
      have hj : j ≠ k := by
        rintro rfl
        exact hout.1 hpc
      simpa [NeedsLock, hj] using hneed
  | @run tid k _ hpc =>
    refine frame _ rfl (keep.update _ _ (by simp) (by simp [Pc.live])).1 fun y w _ hw hneed => ?_
    have hout := h.sleeps y w hw
    cases w with
    | pool q => exact hneed.imp id fun ⟨i, hi⟩ => ⟨i, by simpa using hi⟩
    | worker j =>
      have hj : j ≠ k := by
        rintro rfl
        exact hout.1 hpc
      simpa [NeedsLock, hj] using hneed
  | @loaded k hpc =>
    refine frame _ rfl (keep.update _ _ (by simp) (by simp [Pc.live])).1 fun y w hown hw hneed => ?_
    cases w with
    | pool q => exact hneed.imp id fun ⟨i, hi⟩ => ⟨i, by simpa using hi⟩
    | worker j =>
      have hj : j ≠ k := by
        rintro rfl
        exact hsafe y hown hw
      simpa [NeedsLock, hj] using hneed
  | @noFile k hpc =>
    exact frame' _ rfl (keep.update _ _ (by simp) (by simp [Pc.live])) (fun _ => id)
      (jobs (fun _ => id) (by simp [hpc, Pc.inJob, Pc.inCode]))
  | @submit tid p pc' _ _ hsig =>
    refine frame _ rfl (keep.signal hsig (by simp) (by simp [Pc.live])).1 fun y w hown hw => ?_
    refine needs _ w ?_ fun y _ hy => view_signal Pc.inJob hsig rfl y ▸ hy
    rintro q rfl
    have hq : q ≠ p := by
      rintro rfl
      exact hsafe y hown hw
    simp [hq]
  | sleep hpc _ =>
    exact frame' _ rfl (keep.update _ _ (by simp) (by simp [Pc.live])) (fun _ => id)
      (jobs (fun _ => id) (by simp [hpc, Pc.inJob, Pc.inCode]))
  | wakeJob hpc =>
    exact frame' _ rfl (keep.update _ _ (by simp) (by simp [Pc.live])) (fun _ => id)
      (jobs (fun _ => id) (by simp [hpc, Pc.inJob, Pc.inCode]))
  | @dequeue p t job pool _ hdeq =>
    obtain ⟨rest, hqueue, rfl⟩ := WorkerPool.dequeue_eq_some.mp hdeq
    refine frame _ rfl (keep.update _ _ (by simp) (by simp [Pc.live])).1 fun y w _ _ hneed => ?_
    cases w with
    | worker k => simpa [NeedsLock] using hneed
    | pool q =>
      by_cases hq : q = p
      · subst hq
        exact .inl (by simp [hqueue])
      · simpa [NeedsLock, hq] using hneed
  | @complete p t pc' hpc hsig =>
    have keep' := (keep.update (.pool p t) .idle (by simp) (by simp [Pc.live])).signal
      hsig (by simp) (by simp [Pc.live])
    refine frame' _ rfl keep' (fun q => ?_) fun y _ hy => ?_
    · by_cases hq : q = p
      · subst hq
        simp [WorkerPool.complete]
      · simp [hq]
    · rw [view_signal Pc.inJob hsig rfl y] at hy
      rwa [view_update Pc.inJob (by rw [hpc]; rfl) y] at hy
  | @done k pc' hpc hsig =>
    have keep' := (keepsWaits_self (s := { s with pc := Function.update s.pc (.worker k) .done }))
      |>.signal hsig (by simp) (by simp [Pc.live])
    refine frame _ rfl (fun y w hy => blocked_update (by simp) (keep'.1 y w hy))
      fun _ w _ _ => needs _ w (fun _ _ => id) fun y _ hy => ?_
    rw [view_signal Pc.inJob hsig rfl y] at hy
    rwa [view_update Pc.inJob (by rw [hpc]; rfl) y] at hy
  | waitReturn hpc _ hw =>
    obtain ⟨hlock, -, hpc', -, -, hpool⟩ := collect_eq_some hw
    refine frame' _ hlock (KeepsWaits.update (hpc' ▸ keep) _ _ (by simp) (by simp [Pc.live]))
      (fun q => by simp [(hpool q).1]) (jobs (fun _ => by rw [hpc']; exact id) ?_)
    rcases hpc with hpc | hpc <;> simp [hpc, Pc.inJob, Pc.inCode]
  | @waitSleep tid w hpc _ _ =>
    have hjobs := @jobs _ tid (.blocked w) (fun _ => id)
      (by rcases hpc with hpc | hpc <;> simp [hpc, Pc.inJob, Pc.inCode])
    intro y v hv hown hneed
    have hneed' := needs { s with pc := Function.update s.pc tid (.blocked w) } v
      (fun _ _ => id) hjobs hneed
    by_cases hy : y = tid
    · subst hy
      simp only [Function.update_self, Pc.blocked.injEq] at hv
      exact hsafe hown (hv ▸ hneed')
    · simp only [Function.update_of_ne hy] at hv
      exact h.unlocked y v hv hown hneed'
  | waitWake hpc =>
    exact frame' _ rfl (keep.update _ _ (by simp) (by simp [Pc.live])) (fun _ => id)
      (jobs (fun _ => id) (by simp [hpc, Pc.inJob, Pc.inCode]))

theorem LockInv.init (h0 : lockSystem.init s) : LockInv s := by
  obtain ⟨hlock, hcb, hmain, hrest, hpool⟩ := h0
  have hnot : ∀ tid w, s.pc tid ≠ .blocked w ∧ s.pc tid ≠ .recheck w := by
    intro tid w
    by_cases ht : tid = .main
    · simp [ht, hmain]
    · simp [hrest tid ht]
  refine ⟨fun tid => ?_, fun tid => ?_, fun p => ?_, fun p hq => ?_, fun tid w hw => ?_,
    fun tid w hw => ?_, fun tid w hw => ?_⟩
  · by_cases ht : tid = .main
    · subst ht
      simp [hlock, LockState.underLock, hcb]
    · simp [hlock, hrest tid ht, Pc.inCode]
  · cases tid with
    | main => simp [Placed, hmain]
    | pool p t => simp [Placed, hrest, (hpool p).1]
    | worker k => simp [Placed, hrest]
  · simp [Counted, LockState.flying, hpool p, WorkerPool.create]
  · simp [(hpool p).2, WorkerPool.create] at hq
  · exact absurd hw (hnot tid w).1
  · exact absurd hw (hnot tid w).2
  · exact absurd hw (hnot tid w).1

/-- **A safe step keeps the invariant.** -/
theorem LockInv.step (h : LockInv s) (hsafe : SafeStep s e) (hs : LockStep s e s') : LockInv s' :=
  ⟨h.owner_step hs, h.placed_step hs, h.counted_step hs, h.awake_step hs,
    h.sleeps_step hsafe hs, h.woken_step hs, h.unlocked_step hsafe hs⟩

end Step

theorem lockInv_of_run {es : List LockEvent} {s : LockState}
    (h : (lockSystem.restrict SafeStep).Run es s) : LockInv s :=
  LTS.Run.invariant (S := lockSystem.restrict SafeStep) (I := fun _ s => LockInv s)
    (fun _ h0 => .init h0) (fun _ _ _ _ ih hs => ih.step hs.2 hs.1) h

/-! #### Somebody can move -/

section Progress

variable {s : LockState}

/-- A signal always has an outcome. -/
theorem signalOne_exists (may : Tid → Prop) (a b : Pc) (pc : Tid → Pc) :
    ∃ pc', signalOne may a b pc pc' := by
  by_cases h : ∃ tid, may tid ∧ pc tid = a
  · obtain ⟨tid, hmay, ha⟩ := h
    exact ⟨_, .inl ⟨tid, hmay, ha, rfl⟩⟩
  · exact ⟨pc, .inr ⟨fun tid hmay ha => h ⟨tid, hmay, ha⟩, rfl⟩⟩

theorem canMove_pool_unlocked {p t : ℕ} (h : s.pc (.pool p t) = .unlocked) :
    CanMove s (.pool p t) := by
  obtain ⟨pc', hsig⟩ := signalOne_exists
    (fun _ => ((s.pool p).complete ()).signalsAllDone = true) (.blocked (.pool p))
    (.recheck (.pool p)) (Function.update s.pc (.pool p t) .idle)
  exact ⟨_, _, .complete h hsig, rfl, rfl⟩

theorem canMove_worker_unlocked {k : ℕ} (h : s.pc (.worker k) = .unlocked) :
    CanMove s (.worker k) := by
  obtain ⟨pc', hsig⟩ := signalOne_exists (fun _ => True) (.blocked (.worker k))
    (.recheck (.worker k)) (Function.update s.pc (.worker k) .done)
  exact ⟨_, _, .done h hsig, rfl, rfl⟩

theorem canMove_code {tid : Tid} (h : s.pc tid = .code) : CanMove s tid := by
  by_cases hu : s.underLock tid
  · exact ⟨_, _, .finishLocked h hu, rfl, rfl⟩
  · exact ⟨_, _, .finish h hu, rfl, rfl⟩

theorem canMove_recheck {tid : Tid} {w : Wait} (h : s.pc tid = .recheck w) (hw : s.known w) :
    CanMove s tid := by
  cases hc : s.collect w with
  | none => exact ⟨_, _, .waitSleep (.inr h) hw hc, rfl, rfl⟩
  | some t => exact ⟨_, _, .waitReturn (.inr h) hw hc, rfl, rfl⟩

theorem CanMove.moves {tid : Tid} (h : CanMove s tid) : Moves s tid := ⟨tid, .refl, h⟩

theorem Moves.of_awaits {tid tid' : Tid} (ha : Awaits s tid tid') (h : Moves s tid') :
    Moves s tid := by
  obtain ⟨x, hx, hm⟩ := h
  exact ⟨x, .head ha hx, hm⟩

/-- What is outstanding and needs the lock no more is about to be published. -/
theorem LockInv.moves_of_not_needsLock (h : LockInv s) {tid : Tid} {w : Wait}
    (hw : s.pc tid = .blocked w) (hneed : ¬ NeedsLock s w) : Moves s tid := by
  have hout := h.sleeps tid w hw
  cases w with
  | worker k =>
    refine .of_awaits (.worker hw) ?_
    by_cases hload : s.pc (.worker k) = .loading
    · exact CanMove.moves ⟨_, _, .noFile hload, rfl, rfl⟩
    refine (canMove_worker_unlocked ?_).moves
    have hplace := h.placed (.worker k)
    cases hpc : s.pc (.worker k) <;>
      simp_all [Outstanding, Pc.live, NeedsLock, Pc.inJob, Pc.inCode, Placed]
  | pool p =>
    have hq : (s.pool p).queue = [] := by
      by_contra hq
      exact hneed (.inl hq)
    have hfly : s.flying p ≠ 0 := by
      have hcount := h.counted p
      have hlt := hout.2
      simp only [Counted, hq, List.length_nil] at hcount
      omega
    obtain ⟨t, -, ht⟩ := Finset.exists_ne_zero_of_sum_ne_zero hfly
    refine .of_awaits (.pool hw (t := t)) (canMove_pool_unlocked ?_).moves
    have hjob : (s.pc (.pool p t)).inJob = false := by
      by_contra hjob
      exact hneed (.inr ⟨t, by simpa using hjob⟩)
    cases hpc : s.pc (.pool p t) <;> simp_all [Pc.inFlight, Pc.inJob]

/-- The owner of the lock, or what it waits for, can move. -/
theorem LockInv.moves_of_owner (h : LockInv s) {tid : Tid} (hown : s.lock = some tid) :
    Moves s tid := by
  have hcode := ((h.owner tid).mp hown).1
  cases hpc : s.pc tid with
  | code => exact (canMove_code hpc).moves
  | recheck w => exact (canMove_recheck hpc (h.woken tid w hpc)).moves
  | blocked w => exact h.moves_of_not_needsLock hpc (h.unlocked tid w hpc hown)
  | _ => simp [hpc, Pc.inCode] at hcode

/-- A thread with a job can move, or waits for one that can. -/
theorem LockInv.moves_of_inJob (h : LockInv s) {tid : Tid} (htid : tid ≠ .main)
    (hjob : (s.pc tid).inJob = true) : Moves s tid := by
  by_cases hpc : s.pc tid = .wantLock
  · cases hlock : s.lock with
    | none => exact CanMove.moves ⟨_, _, .acquire hpc hlock, rfl, rfl⟩
    | some x => exact .of_awaits (.lock hpc hlock) (h.moves_of_owner hlock)
  · have hcode : (s.pc tid).inCode = true := by
      cases hp : s.pc tid <;> simp_all [Pc.inJob]
    refine h.moves_of_owner ((h.owner tid).mpr ⟨hcode, ?_⟩)
    cases tid with
    | main => exact absurd rfl htid
    | pool p t => trivial
    | worker k => trivial

theorem LockInv.noStuckWait (h : LockInv s) : NoStuckWait s := by
  intro tid w hw
  by_cases hneed : NeedsLock s w
  · cases w with
    | worker k => exact .of_awaits (.worker hw) (h.moves_of_inJob (by simp) hneed)
    | pool p =>
      rcases hneed with hq | ⟨t, ht⟩
      · obtain ⟨t, hlt, hawake⟩ := h.awake p hq
        refine .of_awaits (.pool hw (t := t)) ?_
        obtain ⟨hplace, hdone⟩ := h.placed (.pool p t)
        by_cases hidle : s.pc (.pool p t) = .idle
        · obtain ⟨job, rest, hcons⟩ := List.exists_cons_of_ne_nil hq
          have hdeq := WorkerPool.dequeue_eq_some.mpr ⟨rest, hcons, rfl⟩
          exact CanMove.moves ⟨_, _, .dequeue hidle hdeq, rfl, rfl⟩
        · by_cases hun : s.pc (.pool p t) = .unlocked
          · exact (canMove_pool_unlocked hun).moves
          · refine h.moves_of_inJob (by simp) ?_
            have habs : s.pc (.pool p t) ≠ .absent := fun habs => by
              have := hplace.mp habs
              omega
            cases hpc : s.pc (.pool p t) <;> simp_all [Pc.inJob, Pc.inCode]
      · exact .of_awaits (.pool hw) (h.moves_of_inJob (by simp) ht)
  · exact h.moves_of_not_needsLock hw hneed

end Progress

/-- A step that is not safe leaves a locked wait, or a sleeper whose wait is over
and whom nobody will signal. -/
theorem unsafe_step_harms {s s' : LockState} {e : LockEvent} (hs : LockStep s e s')
    (h : ¬ SafeStep s e) :
    ¬ NoLockedWait s' ∨ ∃ tid w, s'.pc tid = .blocked w ∧ ¬ Outstanding s' w := by
  -- of two sleepers a signal leaves one
  have left : ∀ {w : Wait} {pc pc' : Tid → Pc} {y y' : Tid} {may : Tid → Prop},
      signalOne may (.blocked w) (.recheck w) pc pc' → pc y = .blocked w → pc y' = .blocked w →
      y ≠ y' → ∃ tid, pc' tid = .blocked w := by
    rintro w pc pc' y y' may (⟨tid, -, -, rfl⟩ | ⟨-, rfl⟩) hy hy' hne
    · by_cases ht : y = tid
      · subst ht
        exact ⟨y', by rwa [Function.update_of_ne (Ne.symm hne)]⟩
      · exact ⟨y, by rwa [Function.update_of_ne ht]⟩
    · exact ⟨y, hy⟩
  cases hs with
  | @waitSleep tid w hpc _ _ =>
    simp only [SafeStep, Classical.not_imp, not_not] at h
    obtain ⟨hown, hneed⟩ := h
    have hview := @view_update _ s.pc Pc.inJob tid (.blocked w)
      (by rcases hpc with hpc | hpc <;> simp [hpc, Pc.inJob, Pc.inCode])
    refine .inl fun hno => hno tid w (by simp) hown ?_
    cases w with
    | pool p => exact hneed.imp id fun ⟨t, ht⟩ => ⟨t, by rwa [hview]⟩
    | worker k => exact (hview _).trans hneed
  | @submit tid p pc' hpc _ hsig =>
    simp only [SafeStep, not_forall, not_not] at h
    obtain ⟨y, hown, hy⟩ := h
    refine .inl fun hno => hno y (.pool p) ?_ hown (.inl (by simp [WorkerPool.submit]))
    rcases hsig with ⟨z, -, hz, rfl⟩ | ⟨-, rfl⟩
    · have hyz : y ≠ z := by
        rintro rfl
        simp [hz] at hy
      simpa [Function.update_of_ne hyz] using hy
    · exact hy
  | @loaded k hpc =>
    simp only [SafeStep, not_forall, not_not] at h
    obtain ⟨y, hown, hy⟩ := h
    have hyk : y ≠ .worker k := by
      rintro rfl
      rw [hpc] at hy
      cases hy
    refine .inl fun hno => hno y (.worker k) ?_ hown ?_
    · simpa [Function.update_of_ne hyk] using hy
    · simp [NeedsLock, Pc.inJob]
  | @complete p t pc' hpc hsig =>
    simp only [SafeStep, not_forall] at h
    obtain ⟨hsigs, y, y', hy, hy', hne⟩ := h
    have moved : ∀ z, s.pc z = .blocked (.pool p) →
        Function.update s.pc (.pool p t) .idle z = .blocked (.pool p) := by
      intro z hz
      have hzt : z ≠ .pool p t := by
        rintro rfl
        simp [hpc] at hz
      rwa [Function.update_of_ne hzt]
    obtain ⟨z, hz⟩ := left hsig (moved y hy) (moved y' hy') hne
    refine .inr ⟨z, .pool p, hz, fun hout => ?_⟩
    have hle := WorkerPool.signalsAllDone_iff.mp hsigs
    have hlt := hout.2
    simp only [Function.update_self] at hlt
    omega
  | @done k pc' hpc hsig =>
    simp only [SafeStep, not_forall] at h
    obtain ⟨y, y', hy, hy', hne⟩ := h
    have moved : ∀ z, s.pc z = .blocked (.worker k) →
        Function.update s.pc (.worker k) .done z = .blocked (.worker k) := by
      intro z hz
      have hzt : z ≠ .worker k := by
        rintro rfl
        simp [hpc] at hz
      rwa [Function.update_of_ne hzt]
    obtain ⟨z, hz⟩ := left hsig (moved y hy) (moved y' hy') hne
    refine .inr ⟨z, .worker k, hz, fun hout => hout.2 ?_⟩
    rcases hsig with ⟨x, -, hx, rfl⟩ | ⟨-, rfl⟩
    · have hxk : Tid.worker k ≠ x := by
        rintro rfl
        simp at hx
      simp [Function.update_of_ne hxk]
    · simp
  | _ => exact absurd trivial h

/-- **Waiting is safe as long as every step is.**  In every state of a run whose
steps meet `SafeStep`, no thread asleep in `worker_pool_wait_all` or
`worker_handle_join` holds the lock that a job it awaits needs, and every such thread
waits, through the lock or further waits, for a thread that can move. The first step that
does not meet it leaves such a sleeper, or one whose work is done and whom nobody will wake. -/
theorem safe_waits_never_deadlock {es : List LockEvent} {s : LockState}
    (h : (lockSystem.restrict SafeStep).Run es s) :
    (NoLockedWait s ∧ NoStuckWait s ∧ ¬ Deadlocked s) ∧
    ∀ e s', LockStep s e s' → ¬ SafeStep s e →
      ¬ NoLockedWait s' ∨ ∃ tid w, s'.pc tid = .blocked w ∧ ¬ Outstanding s' w := by
  have inv := lockInv_of_run h
  refine ⟨⟨inv.unlocked, inv.noStuckWait, ?_⟩, fun e s' hs => unsafe_step_harms hs⟩
  rintro ⟨⟨tid, w, hw⟩, hstuck⟩
  obtain ⟨_, -, e, s', hs, -, hsp⟩ := inv.noStuckWait tid w hw
  simp [hstuck e s' hs] at hsp

/-- A handler submits a job to a pool of one thread and waits for it. -/
def handlerWait : List LockEvent :=
  [.newPool .main 0 1, .finish .main, .beginHandler, .submit .main 0,
    .waitSleep .main (.pool 0), .dequeue 0 0, .acquire (.pool 0 0)]

theorem safe_waits_never_deadlock_handlerWait :
    ∃ s, (lockSystem.restrict SafeStep).Run handlerWait s ∧ s.pc .main = .blocked (.pool 0) ∧
      s.lock = some (.pool 0 0) ∧ ¬ Deadlocked s := by
  have h0 : (lockSystem.restrict SafeStep).Run [] scriptStart :=
    .nil ⟨rfl, rfl, rfl, fun tid h => if_neg h, fun _ => ⟨rfl, rfl⟩⟩
  have h1 := h0.snoc (l := LockEvent.newPool .main 0 1) ⟨.newPool rfl rfl, trivial⟩
  have h2 := h1.snoc (l := LockEvent.finish .main)
    ⟨.finish rfl (by simp [LockState.underLock, scriptStart]), trivial⟩
  have h3 := h2.snoc ⟨.beginHandler rfl, trivial⟩
  have h4 := h3.snoc (l := LockEvent.submit .main 0) ⟨.submit rfl (by decide)
    (.inr ⟨by
      rintro _ ⟨t, rfl⟩
      by_cases ht : t < poolThreads 1 <;> simp [scriptStart, ht], rfl⟩), fun _ h => by cases h⟩
  have h5 := h4.snoc (l := LockEvent.waitSleep .main (.pool 0))
    ⟨.waitSleep (.inl rfl) Nat.one_pos rfl, fun h => by cases h⟩
  have h6 := h5.snoc (l := LockEvent.dequeue 0 0) ⟨.dequeue rfl rfl, trivial⟩
  have h7 := h6.snoc (l := LockEvent.acquire (.pool 0 0)) ⟨.acquire rfl rfl, trivial⟩
  exact ⟨_, h7, rfl, rfl, (safe_waits_never_deadlock h7).1.2.2⟩

end Jaguar
