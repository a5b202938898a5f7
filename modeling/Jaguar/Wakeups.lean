/-
Who waits is registered (`reactor_await_fd`, `reactor_watch_fd`, `reactor_unwatch_fd`).

The epoll set has one slot for a descriptor. A second coroutine that awaits it takes the slot
over, and after its wake-up the slot is empty; closing a descriptor empties the slot too.

* `Registered` — every suspended coroutine stands in the slot of what it awaits;
* `registered_after_iff` — **one step keeps that exactly when it spares the slots of others**;
* `registered_iff_sparesOthers` — the same for runs.
-/
import Jaguar.Server

namespace Jaguar

open Server

/-- Every suspended coroutine is registered, for what it awaits. -/
def Registered (s : Server) : Prop :=
  ∀ co fd interest, (s.coros co).awaiting = some (fd, interest) →
    s.epoll fd = some (interest, co)

/-- Nobody else is suspended on a descriptor that a coroutine starts to await, and nobody on
one that is closed. -/
def SparesOthers (s : Server) : ServerEvent → Prop
  | .await co fd _ => ∀ d, d ≠ co → ∀ interest, (s.coros d).awaiting ≠ some (fd, interest)
  | .close _ fd => ∀ d interest, (s.coros d).awaiting ≠ some (fd, interest)
  | _ => True

/-- The events that change registrations. -/
def ServerEvent.registers : ServerEvent → Bool
  | .await _ _ _ | .close _ _ | .resume _ _ _ => true
  | _ => false

section Step

variable {s : Server} {e : ServerEvent}

theorem epoll_after (he : e.registers = false) : (s.after e).epoll = s.epoll := by
  cases e with
  | await | close | resume => cases he
  | send n => exact s.epoll_afterSend n
  | sendFails | writeReturns => exact s.epoll_afterWrite
  | wsSend | wsClose => exact epoll_setWrite _ _ _
  | _ => rfl

theorem awaiting_after (he : e.registers = false) (d : ℕ) :
    ((s.after e).coros d).awaiting = (s.coros d).awaiting := by
  cases e with
  | await | close | resume => cases he
  | send n => exact s.awaiting_afterSend n d
  | sendFails | writeReturns => exact s.awaiting_afterWrite d
  | wsSend | wsClose => exact awaiting_setWrite _ _ _ _
  | listen | accept => exact awaiting_startCoro _ _ _
  | turn | connect => exact awaiting_setPhase _ _ _ _
  | respond | upgrade | pong | answerClose => exact awaiting_startWrite _ _ _ _ _
  | _ => rfl

/-- **One step keeps everybody registered exactly when it spares the slots of others.** -/
theorem registered_after_iff (hreg : Registered s) (hen : s.Enabled e) :
    Registered (s.after e) ↔ SparesOthers s e := by
  by_cases he : e.registers = false
  · have hspares : SparesOthers s e := by
      cases e with
      | await | close | resume => cases he
      | _ => trivial
    refine iff_of_true (fun co fd interest h => ?_) hspares
    rw [awaiting_after he] at h
    rw [epoll_after he]
    exact hreg co fd interest h
  · cases e with
    | await co fd interest =>
      have hepoll : (s.after (.await co fd interest)).epoll
          = Function.update s.epoll fd (some (interest, co)) := rfl
      have hawait : ∀ d, ((s.after (.await co fd interest)).coros d).awaiting
          = if d = co then some (fd, interest) else (s.coros d).awaiting := fun d =>
        awaiting_setAwaiting (s.reactorWatchFd fd interest co) co d _
      constructor
      · intro h d hd i hi
        have hslot := h d fd i (by rw [hawait, if_neg hd, hi])
        rw [hepoll, Function.update_self] at hslot
        exact hd (Prod.mk.inj (Option.some.inj hslot)).2.symm
      · intro hspares d fd' i hi
        rw [hawait] at hi
        rw [hepoll]
        split_ifs at hi with hd
        · obtain ⟨rfl, rfl⟩ := Prod.mk.inj (Option.some.inj hi)
          rw [hd, Function.update_self]
        · have hne : fd' ≠ fd := fun heq => hspares d hd i (heq ▸ hi)
          rw [Function.update_of_ne hne]
          exact hreg d fd' i hi
    | close co fd =>
      have hepoll : (s.after (.close co fd)).epoll = Function.update s.epoll fd none := rfl
      have hawait : ∀ d, ((s.after (.close co fd)).coros d).awaiting = (s.coros d).awaiting :=
        fun d => awaiting_setPhase ((s.setFile fd none).reactorUnwatchFd fd) co d .done
      constructor
      · intro h d i hi
        have hslot := h d fd i (by rw [hawait, hi])
        rw [hepoll, Function.update_self] at hslot
        cases hslot
      · intro hspares d fd' i hi
        rw [hawait] at hi
        have hne : fd' ≠ fd := fun heq => hspares d i (heq ▸ hi)
        rw [hepoll, Function.update_of_ne hne]
        exact hreg d fd' i hi
    | resume co fd interest =>
      -- the slot that is emptied is the one of the coroutine that wakes up
      have hepoll : (s.after (.resume co fd interest)).epoll
          = Function.update s.epoll fd none := rfl
      have hawait : ∀ d, ((s.after (.resume co fd interest)).coros d).awaiting
          = if d = co then none else (s.coros d).awaiting := fun d =>
        (awaiting_setPhase ((s.reactorUnwatchFd fd).setAwaiting co none) co d _).trans
          (awaiting_setAwaiting (s.reactorUnwatchFd fd) co d none)
      refine iff_of_true (fun d fd' i hi => ?_) trivial
      rw [hawait] at hi
      split_ifs at hi with hd
      have hslot := hreg d fd' i hi
      have hne : fd' ≠ fd := by
        rintro rfl
        rw [hreg co fd' interest hen.2.2] at hslot
        exact hd (Prod.mk.inj (Option.some.inj hslot)).2.symm
      rw [hepoll, Function.update_of_ne hne]
      exact hslot
    | _ => exact absurd rfl he

end Step

theorem registered_start : Registered Server.start := by
  intro co fd interest h
  cases h

/-- The slot of the descriptor is empty. -/
def SlotFree (s : Server) : ServerEvent → Prop
  | .await _ fd _ => s.epoll fd = none
  | .close _ fd => s.epoll fd = none
  | _ => True

instance (s : Server) : (e : ServerEvent) → Decidable (SlotFree s e)
  | .await _ fd _ | .close _ fd =>
    decidable_of_iff ((s.epoll fd).isNone = true) Option.isNone_iff_eq_none
  | .openFile _ | .closeFile _ | .on _ _ | .listen _ | .accept _ _ _ | .turn _ _ _
  | .respond _ _ _ _ | .upgrade _ _ _ | .connect _ _ | .pong _ _ _ _ | .answerClose _ _ _
  | .wsOn _ _ | .wsSend _ _ | .wsClose _ | .send _ | .sendFails | .writeReturns | .wait _
  | .resume _ _ _ => .isTrue trivial

/-- Where everybody is registered, an empty slot tells that nobody awaits the descriptor. -/
theorem Registered.sparesOthers {s : Server} {e : ServerEvent} (h : Registered s)
    (hfree : SlotFree s e) : SparesOthers s e := by
  have hnobody : ∀ fd, s.epoll fd = none → ∀ d i, (s.coros d).awaiting ≠ some (fd, i) := by
    intro fd hnone d i hi
    rw [h d fd i hi] at hnone
    cases hnone
  cases e with
  | await co fd interest => exact fun d _ i => hnobody fd hfree d i
  | close co fd => exact fun d i => hnobody fd hfree d i
  | _ => trivial

theorem Registered.meets {s : Server} {es : List ServerEvent} (h : Registered s)
    (hruns : s.Runs es) (hfree : Meets SlotFree s es) : Meets SparesOthers s es := by
  induction es generalizing s with
  | nil => trivial
  | cons e es ih =>
    obtain ⟨hen, hrest⟩ := hruns
    have hspares := h.sparesOthers hfree.1
    exact ⟨hspares, ih ((registered_after_iff h hen).mpr hspares) hrest hfree.2⟩

/-- **Who is suspended keeps its registration** as long as every step spares the slots of
others, and the first step that does not makes a coroutine miss its wake-up. -/
theorem registered_iff_sparesOthers (ls : List ServerEvent) (s : Server) :
    ((serverSystem.restrict SparesOthers).Run ls s → Registered s) ∧
    (serverSystem.Run ls s → Registered s → ∀ e s', serverSystem.step s e s' →
      (Registered s' ↔ SparesOthers s e)) := by
  constructor
  · intro hrun
    refine LTS.Run.invariant (I := fun _ s => Registered s) ?_ ?_ hrun
    · rintro s rfl
      exact registered_start
    · rintro _ s e s' hreg ⟨⟨hen, rfl⟩, hspares⟩
      exact (registered_after_iff hreg hen).mpr hspares
  · rintro - hreg e s' ⟨hen, rfl⟩
    exact registered_after_iff hreg hen

/-- A connection awaits its next frame on descriptor 5, and the accept loop the next connection on
descriptor 3. -/
def twoSuspended : List ServerEvent :=
  oneConnection ++ [.turn 1 (.routeHandler 5 0) (.frames 5 0), .await 1 5 .readable,
    .turn 0 (.accepting .ws) (.listening .ws), .await 0 3 .readable]

theorem meets_twoSuspended : Meets SparesOthers start twoSuspended :=
  registered_start.meets (by decide +kernel) (by decide +kernel)

theorem registered_iff_sparesOthers_twoSuspended :
    ∃ s, (serverSystem.restrict SparesOthers).Run twoSuspended s ∧ Registered s ∧
      (s.coros 0).awaiting = some (3, .readable) ∧ (s.coros 1).awaiting = some (5, .readable) := by
  have hrun := Runs.restrict (by decide +kernel) meets_twoSuspended
  exact ⟨_, hrun, (registered_iff_sparesOthers _ _).1 hrun, by decide +kernel, by decide +kernel⟩

/-- Connection 0 awaits its next frame on descriptor 5. The route handler of a second
connection sends to connection 0; the send buffer of descriptor 5 is full, so that it awaits
descriptor 5 too and takes over its slot. -/
theorem await_steals_registration :
    ∃ s, serverSystem.Run (oneConnection ++ [.turn 1 (.routeHandler 5 0) (.frames 5 0),
        .await 1 5 .readable, .accept 0 .ws 6, .upgrade 2 6 switchingProtocols, .send 129,
        .writeReturns, .connect 2 6, .wsSend 0 (txt "x"), .send 1, .await 2 5 .writable]) s ∧
      (s.coros 1).awaiting = some (5, .readable) ∧ s.epoll 5 = some (.writable, 2) ∧
      ¬ Registered s := by
  refine ⟨_, Server.Runs.run (by decide +kernel), by decide +kernel, by decide +kernel,
    fun hreg => ?_⟩
  have hslot := hreg 1 5 .readable (by decide +kernel)
  revert hslot
  decide +kernel

end Jaguar
