/-
How long the reactor waits (`reactor_common.c`, `reactor_epoll.c`, `reactor_kqueue.c`).

Before each round the reactor asks for the time until its next timer and hands it to the
kernel: as an `int` of milliseconds to `epoll_wait`, as a `struct timespec` to `kevent`. Of a
negative number the first makes a wait without end.

* `reactorNextTimeoutMs` — `reactor_next_timeout_ms`;
* `epollTimeout`, `kqueueTimeout` — what the two backends make of it;
* `soonestOf_spec` — the minimum that the loop over the timers computes;
* `wakesInTime_iff` — **both backends wake up in time** exactly if the bit of the remaining
  milliseconds that becomes the sign is not set;
* `epoll_waits_forever` — a timer that is due in 2 ^ 31 milliseconds.
-/
import Jaguar.Timers
import Mathlib.Algebra.Order.Group.Unbundled.Int
import Mathlib.Tactic.Linarith

namespace Jaguar

section Wait

variable {α : Type*}

/-! ### The timeout -/

/-- `t->due_ms - now`, as 64 bits hold it. -/
def Timer.remain (now : ℤ) (t : Timer α) : ℤ := (t.dueMs - now).bmod (2 ^ 64)

/-- The loop of `reactor_next_timeout_ms`. -/
def soonestOf (now : ℤ) : List (Timer α) → ℤ → ℤ
  | [], soonest => soonest
  | t :: ts, soonest =>
    if t.active then
      let remain := if t.remain now < 0 then 0 else t.remain now
      soonestOf now ts (if soonest < 0 ∨ remain < soonest then remain else soonest)
    else soonestOf now ts soonest

/-- `reactor_next_timeout_ms`, called at `now`. -/
def TimerList.reactorNextTimeoutMs (g : TimerList α) (listeningCount now : ℤ) : ℤ :=
  let soonest := soonestOf now g.nodes.reverse (-1)
  if soonest < 0 then if 0 < listeningCount then 1000 else -1 else soonest

/-- The milliseconds that `epoll_wait` waits at most: its argument is an `int`, and none of a
negative one. -/
def epollTimeout (timeout : ℤ) : Option ℤ :=
  let timeout := timeout.bmod (2 ^ 32)
  if timeout < 0 then none else some timeout

/-- `struct timespec`. -/
structure Timespec where
  sec : ℤ
  nsec : ℤ

def Timespec.nanos (ts : Timespec) : ℤ := ts.sec * 1000000000 + ts.nsec

/-- The time that `kevent` waits at most, if it is passed one. -/
def kqueueTimeout (timeoutMs : ℤ) : Option Timespec :=
  if 0 ≤ timeoutMs then some ⟨timeoutMs.tdiv 1000, timeoutMs.tmod 1000 * 1000000⟩ else none

/-! ### The earliest timer -/

/-- The milliseconds that are left until a timer is due. -/
def Timer.left (now : ℤ) (t : Timer α) : ℤ := max 0 (t.dueMs - now)

theorem remain_clamped (now : ℤ) (t : Timer α) :
    (if t.remain now < 0 then 0 else t.remain now) = max 0 (t.remain now) := by
  by_cases h : t.remain now < 0
  · rw [if_pos h, max_eq_left h.le]
  · rw [if_neg h, max_eq_right (not_lt.mp h)]

/-- **The minimum over the active timers**, and over what the loop starts with, unless that is
negative. -/
theorem soonestOf_spec (now : ℤ) (ts : List (Timer α)) (soonest : ℤ) :
    (∀ t ∈ ts, t.active = true → soonestOf now ts soonest ≤ max 0 (t.remain now)) ∧
      (0 ≤ soonest → soonestOf now ts soonest ≤ soonest) ∧
      (soonestOf now ts soonest = soonest ∨
        ∃ t ∈ ts, t.active = true ∧ soonestOf now ts soonest = max 0 (t.remain now)) ∧
      ((∃ t ∈ ts, t.active = true) → 0 ≤ soonestOf now ts soonest) := by
  induction ts generalizing soonest with
  | nil =>
    refine ⟨fun t ht => absurd ht List.not_mem_nil, fun _ => le_rfl, .inl rfl, ?_⟩
    rintro ⟨t, ht, -⟩
    exact absurd ht List.not_mem_nil
  | cons u ts ih =>
    by_cases hu : u.active = true
    · -- the loop goes on with the smaller of the two
      rw [soonestOf, if_pos hu, remain_clamped]
      have hzero : 0 ≤ max 0 (u.remain now) := le_max_left _ _
      set next := if soonest < 0 ∨ max 0 (u.remain now) < soonest then max 0 (u.remain now)
        else soonest with hnext
      have hle : 0 ≤ next ∧ next ≤ max 0 (u.remain now) ∧ (0 ≤ soonest → next ≤ soonest) ∧
          (next = soonest ∨ next = max 0 (u.remain now)) := by
        rw [hnext]
        split
        · next h => exact ⟨hzero, le_rfl, fun hs => (h.resolve_left (not_lt.mpr hs)).le, .inr rfl⟩
        · next h =>
          rw [not_or, not_lt, not_lt] at h
          exact ⟨h.1, h.2, fun _ => le_rfl, .inl rfl⟩
      obtain ⟨hpos, hu', hs', hone⟩ := hle
      obtain ⟨hall, hstart, hattained, -⟩ := ih next
      refine ⟨fun t ht hactive => ?_, fun hs => (hstart hpos).trans (hs' hs), ?_, fun _ => ?_⟩
      · rcases List.mem_cons.mp ht with rfl | ht
        · exact (hstart hpos).trans hu'
        · exact hall t ht hactive
      · rcases hattained with heq | ⟨t, ht, hactive, heq⟩
        · rcases hone with hsame | hsame
          · exact .inl (heq.trans hsame)
          · exact .inr ⟨u, List.mem_cons_self, hu, heq.trans hsame⟩
        · exact .inr ⟨t, List.mem_cons_of_mem _ ht, hactive, heq⟩
      · rcases hattained with heq | ⟨t, -, -, heq⟩
        · rw [heq]
          exact hpos
        · rw [heq]
          exact le_max_left _ _
    · rw [soonestOf, if_neg hu]
      obtain ⟨hall, hstart, hattained, hpos⟩ := ih soonest
      refine ⟨fun t ht hactive => ?_, hstart, ?_, ?_⟩
      · rcases List.mem_cons.mp ht with rfl | ht
        · exact absurd hactive hu
        · exact hall t ht hactive
      · rcases hattained with heq | ⟨t, ht, hactive, heq⟩
        · exact .inl heq
        · exact .inr ⟨t, List.mem_cons_of_mem _ ht, hactive, heq⟩
      · rintro ⟨t, ht, hactive⟩
        rcases List.mem_cons.mp ht with rfl | ht
        · exact absurd hactive hu
        · exact hpos ⟨t, ht, hactive⟩

/-! ### Whole runs -/

/-- The timers of a program that starts: none. -/
def freshTimers (α : Type*) : LTS (TimerState α) (TimerEvent α) where
  init s := s.list = ⟨[], 1⟩ ∧ s.phase = .idle
  step := TimerStep

def IsInt64 (n : ℤ) : Prop := -2 ^ 63 ≤ n ∧ n < 2 ^ 63

theorem isInt64_addMs (now ms : ℤ) : IsInt64 (addMs now ms) := by
  constructor
  · have := Int.le_bmod (x := now + ms) (m := 2 ^ 64) (by decide)
    unfold addMs
    omega
  · have := Int.bmod_lt (x := now + ms) (m := 2 ^ 64) (by decide)
    unfold addMs
    omega

/-- Every due time is a sum that `addMs` has made. -/
def TimerList.Int64Due (g : TimerList α) : Prop := ∀ t ∈ g.nodes, IsInt64 t.dueMs

theorem int64Due_step {s s' : TimerState α} {e : TimerEvent α} (h : TimerStep s e s')
    (hs : s.list.Int64Due) : s'.list.Int64Due := by
  cases h with
  | tick => exact hs
  | @add g clock phase delay interval callback =>
    intro t ht
    rcases List.mem_append.mp ht with ht | ht
    · exact hs t ht
    · obtain rfl := List.mem_singleton.mp ht
      exact isInt64_addMs clock delay
  | @clear g clock phase id =>
    intro t ht
    obtain ⟨u, hu, rfl⟩ := List.mem_map.mp ht
    rw [Timer.clear_dueMs]
    exact hs u hu
  | enter => exact hs
  | start => exact hs
  | skip => exact hs
  | @finish g clock now rest u hu =>
    intro t ht
    rcases List.mem_or_eq_of_mem_set ht with ht | rfl
    · exact hs t ht
    · unfold Timer.fired
      split
      · exact isInt64_addMs clock _
      · exact hs u (List.mem_of_getElem? hu)
  | leave => exact hs

theorem int64Due_of_run {es : List (TimerEvent α)} {s : TimerState α}
    (h : (freshTimers α).Run es s) : s.list.Int64Due :=
  h.invariant (I := fun _ s => s.list.Int64Due)
    (fun s hs t ht => by
      rw [hs.1] at ht
      exact absurd ht List.not_mem_nil)
    (fun _ _ _ _ hs hstep => int64Due_step hstep hs)

/-! ### Both backends -/

/-- Both backends wait a finite time, and no active timer is due before its end. -/
def TimerList.WakesInTime (g : TimerList α) (listeningCount now : ℤ) : Prop :=
  (∃ wait, epollTimeout (g.reactorNextTimeoutMs listeningCount now) = some wait ∧
      ∀ t ∈ g.nodes, t.active = true → wait ≤ t.left now) ∧
    ∃ ts, kqueueTimeout (g.reactorNextTimeoutMs listeningCount now) = some ts ∧
      ∀ t ∈ g.nodes, t.active = true → ts.nanos ≤ t.left now * 1000000

/-- The time until the earliest active timer is a `long long`, and bit 31 of it is not set; or
it is so long that it wraps around. -/
def TimerList.WaitFits (g : TimerList α) (now : ℤ) : Prop :=
  (∃ t ∈ g.nodes, t.active = true ∧ 2 ^ 63 ≤ t.dueMs - now) ∨
    ∃ t ∈ g.nodes, t.active = true ∧ (∀ u ∈ g.nodes, u.active = true → t.left now ≤ u.left now) ∧
      -2 ^ 63 ≤ t.dueMs - now ∧ t.left now % 2 ^ 32 < 2 ^ 31

/-- The conversion to a `struct timespec` loses nothing. -/
theorem kqueueTimeout_nanos {timeout : ℤ} (h : 0 ≤ timeout) :
    ∃ ts, kqueueTimeout timeout = some ts ∧ ts.nanos = timeout * 1000000 := by
  refine ⟨_, if_pos h, ?_⟩
  have hsplit := Int.tdiv_mul_add_tmod timeout 1000
  unfold Timespec.nanos
  linarith

/-- The conversion to an `int` keeps the lower 32 bits, of which the last is the sign. -/
theorem epollTimeout_eq_some {timeout wait : ℤ} :
    epollTimeout timeout = some wait ↔ timeout % 2 ^ 32 < 2 ^ 31 ∧ wait = timeout % 2 ^ 32 := by
  have hmod := Int.emod_nonneg timeout (show (2 ^ 32 : ℤ) ≠ 0 by decide)
  have hlt := Int.emod_lt_of_pos timeout (show (0 : ℤ) < 2 ^ 32 by decide)
  have hbmod : timeout.bmod (2 ^ 32)
      = if timeout % 2 ^ 32 < 2 ^ 31 then timeout % 2 ^ 32 else timeout % 2 ^ 32 - 2 ^ 32 := rfl
  unfold epollTimeout
  rw [hbmod]
  by_cases hsign : timeout % 2 ^ 32 < 2 ^ 31
  · rw [if_pos hsign]
    constructor
    · intro h
      exact ⟨hsign, (Option.some.inj ((if_neg (by omega)).symm.trans h)).symm⟩
    · rintro ⟨-, rfl⟩
      exact if_neg (by omega)
  · rw [if_neg hsign]
    constructor
    · intro h
      have hnone := (if_pos (by omega)).symm.trans h
      cases hnone
    · rintro ⟨hsign', -⟩
      exact absurd hsign' hsign

/-- What the backends are given when a timer is active. -/
theorem reactorNextTimeoutMs_spec (g : TimerList α) (listeningCount now : ℤ)
    (hactive : ∃ t ∈ g.nodes, t.active = true) :
    0 ≤ g.reactorNextTimeoutMs listeningCount now ∧
      (∀ t ∈ g.nodes, t.active = true →
        g.reactorNextTimeoutMs listeningCount now ≤ max 0 (t.remain now)) ∧
      ∃ t ∈ g.nodes, t.active = true ∧
        g.reactorNextTimeoutMs listeningCount now = max 0 (t.remain now) := by
  obtain ⟨hall, -, hattained, hpos⟩ := soonestOf_spec now g.nodes.reverse (-1)
  have hnonneg : 0 ≤ soonestOf now g.nodes.reverse (-1) := by
    obtain ⟨t, ht, ha⟩ := hactive
    exact hpos ⟨t, List.mem_reverse.mpr ht, ha⟩
  have heq : g.reactorNextTimeoutMs listeningCount now = soonestOf now g.nodes.reverse (-1) :=
    if_neg (not_lt.mpr hnonneg)
  rw [heq]
  refine ⟨hnonneg, fun t ht ha => hall t (List.mem_reverse.mpr ht) ha, ?_⟩
  rcases hattained with hneg | ⟨t, ht, ha, hvalue⟩
  · omega
  · exact ⟨t, List.mem_reverse.mp ht, ha, hvalue⟩

/-- Both backends are in time if the number is, and the lower 32 bits of it have no sign. -/
theorem wakesInTime_iff_timeout (g : TimerList α) (listeningCount now : ℤ)
    (hactive : ∃ t ∈ g.nodes, t.active = true) :
    g.WakesInTime listeningCount now ↔
      g.reactorNextTimeoutMs listeningCount now % 2 ^ 32 < 2 ^ 31 ∧
      ∀ t ∈ g.nodes, t.active = true →
        g.reactorNextTimeoutMs listeningCount now ≤ t.left now := by
  obtain ⟨hnonneg, -, -⟩ := reactorNextTimeoutMs_spec g listeningCount now hactive
  obtain ⟨ts, hts, hnanos⟩ := kqueueTimeout_nanos hnonneg
  have hlower : g.reactorNextTimeoutMs listeningCount now % 2 ^ 32
      ≤ g.reactorNextTimeoutMs listeningCount now := by omega
  constructor
  · rintro ⟨⟨wait, hwait, -⟩, ts', hts', hin⟩
    obtain rfl : ts = ts' := Option.some.inj (hts.symm.trans hts')
    refine ⟨(epollTimeout_eq_some.mp hwait).1, fun t ht ha => ?_⟩
    have := hin t ht ha
    rw [hnanos] at this
    omega
  · rintro ⟨hsign, hin⟩
    constructor
    · exact ⟨_, epollTimeout_eq_some.mpr ⟨hsign, rfl⟩, fun t ht ha => hlower.trans (hin t ht ha)⟩
    · refine ⟨ts, hts, fun t ht ha => ?_⟩
      rw [hnanos]
      exact Int.mul_le_mul_of_nonneg_right (hin t ht ha) (by decide)

/-- A difference of two 64-bit numbers, as 64 bits hold it. -/
theorem remain_cases {now : ℤ} {t : Timer α} (hnow : IsInt64 now) (hdue : IsInt64 t.dueMs) :
    (-2 ^ 63 ≤ t.dueMs - now ∧ t.dueMs - now < 2 ^ 63 ∧ t.remain now = t.dueMs - now) ∨
      (2 ^ 63 ≤ t.dueMs - now ∧ t.remain now < 0) ∨
      (t.dueMs - now < -2 ^ 63 ∧ 0 < t.remain now) := by
  obtain ⟨hnow₀, hnow₁⟩ := hnow
  obtain ⟨hdue₀, hdue₁⟩ := hdue
  have hremain : t.remain now = (t.dueMs - now).bmod (2 ^ 64) := rfl
  rw [Int.bmod_def] at hremain
  omega

/-- **When both backends wake up in time**: in every run and at any time, if a timer is active,
exactly if the time until the earliest of them keeps off the sign bit of an `int`. -/
theorem wakesInTime_iff {es : List (TimerEvent α)} {s : TimerState α} {listeningCount now : ℤ}
    (hrun : (freshTimers α).Run es s) (hactive : ∃ t ∈ s.list.nodes, t.active = true)
    (hnow : IsInt64 now) :
    s.list.WakesInTime listeningCount now ↔ s.list.WaitFits now := by
  have hint := int64Due_of_run hrun
  obtain ⟨hnonneg, hall, u, hu, hua, hvalue⟩ :=
    reactorNextTimeoutMs_spec s.list listeningCount now hactive
  rw [wakesInTime_iff_timeout s.list listeningCount now hactive]
  generalize s.list.reactorNextTimeoutMs listeningCount now = timeout at *
  have hcases := fun t ht => remain_cases hnow (hint t ht)
  constructor
  · rintro ⟨hsign, hin⟩
    have huin := hin u hu hua
    have hleft : u.left now = max 0 (u.dueMs - now) := rfl
    rcases hcases u hu with ⟨hlo, hhi, heq⟩ | ⟨hhi, -⟩ | ⟨hlo, hpos⟩
    · -- the timer whose time is passed on is the earliest
      rw [heq] at hvalue
      right
      refine ⟨u, hu, hua, fun t ht ha => ?_, hlo, ?_⟩
      · exact (hleft.trans hvalue.symm).le.trans (hin t ht ha)
      · rw [hleft, ← hvalue]
        exact hsign
    · exact .inl ⟨u, hu, hua, hhi⟩
    · omega
  · rintro (⟨t, ht, ha, hhi⟩ | ⟨t, ht, ha, hmin, hlo, hsign⟩)
    · -- the wait is none
      have hzero : timeout = 0 := by
        have := hall t ht ha
        rcases hcases t ht with h | h | h <;> omega
      rw [hzero]
      exact ⟨by decide, fun t _ _ => le_max_left _ _⟩
    · have hleft : t.left now = max 0 (t.dueMs - now) := rfl
      have hle : timeout ≤ t.left now := by
        have := hall t ht ha
        rcases hcases t ht with h | h | h <;> omega
      refine ⟨?_, fun v hv hva => hle.trans (hmin v hv hva)⟩
      -- the number is the time until the earliest timer, or none
      have hminu := hmin u hu hua
      have hleftu : u.left now = max 0 (u.dueMs - now) := rfl
      rcases hcases u hu with ⟨-, -, heq⟩ | ⟨-, hneg⟩ | ⟨hlo', hpos⟩
      · have : timeout = t.left now := by omega
        rw [this]
        exact hsign
      · have : timeout = 0 := by omega
        rw [this]
        decide
      · have : timeout = t.left now := by omega
        rw [this]
        exact hsign

/-- A timer for 2 ^ 31 milliseconds. -/
def longDelay : List (TimerEvent ℕ) := [.add (2 ^ 31) 0 5]

/-- On Linux the reactor waits for ever. -/
theorem epoll_waits_forever :
    ∃ s : TimerState ℕ, (freshTimers ℕ).Run longDelay s ∧
      s.list.nodes = [⟨1, 2 ^ 31, 0, 5, true⟩] ∧
      epollTimeout (s.list.reactorNextTimeoutMs 0 s.clock) = none ∧
      ¬ s.list.WakesInTime 0 s.clock := by
  have h0 : (freshTimers ℕ).Run [] ⟨⟨[], 1⟩, 0, .idle⟩ := .nil ⟨rfl, rfl⟩
  have h1 := h0.snoc (l := TimerEvent.add (2 ^ 31) 0 5) (.add trivial)
  refine ⟨_, h1, by decide, by decide, ?_⟩
  rintro ⟨⟨wait, hwait, -⟩, -⟩
  exact absurd hwait (by decide +revert)

theorem wakesInTime_iff_short :
    ∃ s : TimerState ℕ, s.list.nodes = [⟨1, 20, 0, 5, true⟩] ∧ s.list.WakesInTime 0 7 := by
  have h0 : (freshTimers ℕ).Run [] ⟨⟨[], 1⟩, 0, .idle⟩ := .nil ⟨rfl, rfl⟩
  have h1 := h0.snoc (l := TimerEvent.add 20 0 5) (.add trivial)
  refine ⟨_, by decide, (wakesInTime_iff h1 ⟨_, List.mem_singleton_self _, rfl⟩ ?_).mpr ?_⟩
  · unfold IsInt64
    decide
  · right
    refine ⟨⟨1, 20, 0, 5, true⟩, List.mem_singleton_self _, rfl, fun u hu _ => ?_, by decide,
      by decide⟩
    obtain rfl := List.mem_singleton.mp hu
    exact le_rfl

end Wait

end Jaguar
