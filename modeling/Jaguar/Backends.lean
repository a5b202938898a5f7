/-
The two backends of the reactor (`reactor_epoll.c`, `reactor_kqueue.c`).

The epoll set has one slot for a descriptor, which stays until the coroutine that wakes up empties
it; a kqueue has a filter for each descriptor and kind of event, which is gone as soon as it is
reported. As long as nobody takes over the slot of another one, servers cannot tell them apart.

* `KqueueServer`, `kqueueSystem` — the servers on the kqueue backend;
* `Waiting` — who is suspended, who is registered, and who is about to be resumed;
* `Agree` — a server on either backend, in the same state;
* `backends_agree` — **the runs on one backend are those on the other**.
-/
import Jaguar.Wakeups

namespace Jaguar

open Server

/-! ### The kqueue backend -/

/-- A kqueue: for each descriptor and kind of event the coroutine of the filter. -/
abbrev Filters := ℕ → Interest → Option ℕ

namespace Filters

def set (q : Filters) (fd : ℕ) (interest : Interest) (co : Option ℕ) : Filters :=
  Function.update q fd (Function.update (q fd) interest co)

/-- `EV_DELETE`, which fails where there is no such filter. -/
def delete (q : Filters) (fd : ℕ) (interest : Interest) : Option Filters :=
  (q fd interest).map fun _ => q.set fd interest none

/-- `reactor_watch_fd`: `EV_ADD`. -/
def reactorWatchFd (q : Filters) (fd : ℕ) (interest : Interest) (co : ℕ) : Filters :=
  q.set fd interest (some co)

/-- `reactor_unwatch_fd`. `goesOn` tells whether `kevent` makes the second change where the first
one fails. -/
def reactorUnwatchFd (goesOn : Bool) (q : Filters) (fd : ℕ) : Filters :=
  match q.delete fd .readable with
  | some q' => (q'.delete fd .writable).getD q'
  | none => if goesOn then (q.delete fd .writable).getD q else q

/-- `EV_ONESHOT`: a filter that is reported is gone. -/
def report (q : Filters) (fs : List (ℕ × Interest)) : Filters :=
  fs.foldl (fun q f => q.set f.1 f.2 none) q

theorem set_apply (q : Filters) (fd : ℕ) (interest : Interest) (co : Option ℕ) (fd' : ℕ)
    (interest' : Interest) : q.set fd interest co fd' interest'
      = if fd' = fd ∧ interest' = interest then co else q fd' interest' := by
  unfold set
  by_cases hfd : fd' = fd
  · subst hfd
    rw [Function.update_self, Function.update_apply]
    simp
  · rw [Function.update_of_ne hfd, if_neg fun h => hfd h.1]

theorem report_apply (q : Filters) (fs : List (ℕ × Interest)) (fd : ℕ) (interest : Interest) :
    q.report fs fd interest = if (fd, interest) ∈ fs then none else q fd interest := by
  induction fs generalizing q with
  | nil => rfl
  | cons f fs ih =>
    rw [show q.report (f :: fs) = (q.set f.1 f.2 none).report fs from rfl, ih, set_apply]
    by_cases hmem : (fd, interest) ∈ fs
    · rw [if_pos hmem, if_pos (List.mem_cons_of_mem _ hmem)]
    · rw [if_neg hmem]
      by_cases heq : (fd, interest) = f
      · subst heq
        rw [if_pos ⟨rfl, rfl⟩, if_pos List.mem_cons_self]
      · rw [if_neg fun h => heq (Prod.ext h.1 h.2), if_neg]
        exact fun h => (List.mem_cons.mp h).elim heq hmem

/-- Where there is no filter, there is nothing to delete. -/
theorem reactorUnwatchFd_of_none (goesOn : Bool) {q : Filters} {fd : ℕ}
    (h : ∀ interest, q fd interest = none) : reactorUnwatchFd goesOn q fd = q := by
  have hdelete : ∀ interest, q.delete fd interest = none := fun interest => by
    rw [delete, h interest, Option.map_none]
  rw [reactorUnwatchFd, hdelete, hdelete]
  exact ite_self q

end Filters

/-- A server on the kqueue backend. The epoll set in `server` stays empty. -/
structure KqueueServer where
  server : Server
  filters : Filters

/-- The server without the epoll set. -/
def Server.withoutEpoll (s : Server) : Server := { s with epoll := fun _ => none }

def ServerEvent.isWait : ServerEvent → Bool
  | .wait _ => true
  | _ => false

/-- What an event does to the filters; those of a descriptor that is closed are dropped. -/
def Filters.after (goesOn : Bool) (q : Filters) : ServerEvent → Filters
  | .await co fd interest => q.reactorWatchFd fd interest co
  | .resume _ fd _ => q.reactorUnwatchFd goesOn fd
  | .close _ fd => (q.set fd .readable none).set fd .writable none
  | _ => q

inductive KqueueStep (goesOn : Bool) : KqueueServer → ServerEvent → KqueueServer → Prop
  /-- `kevent` reports some of the filters. -/
  | wait {t : KqueueServer} (fs : List (ℕ × Interest)) : t.server.running = [] →
      t.server.batch = [] → t.server.mainWrite = none → fs.Nodup → fs.length ≤ 64 →
      (∀ f ∈ fs, (t.filters f.1 f.2).isSome) →
      KqueueStep goesOn t (.wait (fs.map Prod.fst))
        ⟨{ t.server with batch := fs.filterMap fun f => t.filters f.1 f.2 }, t.filters.report fs⟩
  | other {t : KqueueServer} {e : ServerEvent} : e.isWait = false → t.server.Enabled e →
      KqueueStep goesOn t e ⟨(t.server.after e).withoutEpoll, t.filters.after goesOn e⟩

def kqueueSystem (goesOn : Bool) : LTS KqueueServer ServerEvent where
  init t := t = ⟨.start, fun _ _ => none⟩
  step := KqueueStep goesOn

/-! ### Events that do not look at the epoll set -/

section WithoutEpoll

variable (s : Server)

theorem enabled_withoutEpoll {e : ServerEvent} (he : e.isWait = false) :
    s.withoutEpoll.Enabled e ↔ s.Enabled e := by
  cases e with
  | wait => cases he
  | _ => exact Iff.rfl

theorem sparesOthers_withoutEpoll (e : ServerEvent) :
    SparesOthers s.withoutEpoll e ↔ SparesOthers s e := by
  cases e with
  | _ => exact Iff.rfl

theorem withoutEpoll_setWrite (w : Option Write) (ctx : Option ℕ) :
    (s.withoutEpoll.setWrite w ctx).withoutEpoll = (s.setWrite w ctx).withoutEpoll := by
  cases ctx <;> rfl

theorem withoutEpoll_after {e : ServerEvent} (he : e.isWait = false) :
    (s.withoutEpoll.after e).withoutEpoll = (s.after e).withoutEpoll := by
  cases e with
  | wait => cases he
  | wsSend | wsClose => exact withoutEpoll_setWrite s _ _
  | send n =>
    show (s.withoutEpoll.afterSend n).withoutEpoll = (s.afterSend n).withoutEpoll
    have hwrite : s.withoutEpoll.writeOf s.withoutEpoll.current = s.writeOf s.current := rfl
    unfold afterSend
    rw [hwrite]
    cases s.writeOf s.current with
    | none => rfl
    | some w => exact withoutEpoll_setWrite { s with accepted := s.logSend w n } _ _
  | sendFails | writeReturns =>
    show s.withoutEpoll.afterWrite.withoutEpoll = s.afterWrite.withoutEpoll
    have hwrite : s.withoutEpoll.writeOf s.withoutEpoll.current = s.writeOf s.current := rfl
    unfold afterWrite
    rw [hwrite]
    cases s.writeOf s.current with
    | none => rfl
    | some w =>
      have hcurrent : s.withoutEpoll.current = s.current := rfl
      rw [hcurrent]
      cases s.current <;> cases hcloses : w.purpose.closes? <;> simp only [hcloses] <;> rfl
  | _ => rfl

end WithoutEpoll

/-! ### Who waits -/

/-- Who is suspended stands in the slot of what it awaits, and nobody else stands anywhere; who is
in control is not suspended, and who is about to be resumed is. -/
structure Waiting (s : Server) : Prop where
  slot : ∀ co fd interest, (s.coros co).awaiting = some (fd, interest) ↔
    s.epoll fd = some (interest, co)
  running : ∀ co ∈ s.running, (s.coros co).awaiting = none
  nodup : s.running.Nodup
  unborn : ∀ co, s.coroCount ≤ co → (s.coros co).awaiting = none ∧ co ∉ s.running
  batch : ∀ co ∈ s.batch, (s.coros co).awaiting ≠ none
  once : s.batch.Nodup

/-- The events that start, suspend, resume or end a coroutine, and `epoll_wait`. -/
def ServerEvent.schedules : ServerEvent → Bool
  | .listen _ | .accept _ _ _ | .close _ _ | .await _ _ _ | .wait _ | .resume _ _ _ => true
  | _ => false

section Step

variable {s : Server} {e : ServerEvent}

theorem setWrite_schedule (s : Server) (w : Option Write) (ctx : Option ℕ) :
    (s.setWrite w ctx).running = s.running ∧ (s.setWrite w ctx).batch = s.batch ∧
      (s.setWrite w ctx).coroCount = s.coroCount := by
  cases ctx <;> exact ⟨rfl, rfl, rfl⟩

theorem afterWrite_schedule (s : Server) : s.afterWrite.running = s.running ∧
    s.afterWrite.batch = s.batch ∧ s.afterWrite.coroCount = s.coroCount := by
  unfold afterWrite
  split
  · next w _ =>
    cases w.purpose.closes? with
    | none => exact setWrite_schedule s none s.current
    | some c => exact setWrite_schedule s none s.current
  · exact ⟨rfl, rfl, rfl⟩

theorem afterSend_schedule (s : Server) (n : ℕ) : (s.afterSend n).running = s.running ∧
    (s.afterSend n).batch = s.batch ∧ (s.afterSend n).coroCount = s.coroCount := by
  unfold afterSend
  split
  · exact setWrite_schedule _ _ _
  · exact ⟨rfl, rfl, rfl⟩

theorem schedule_after (he : e.schedules = false) : (s.after e).running = s.running ∧
    (s.after e).batch = s.batch ∧ (s.after e).coroCount = s.coroCount := by
  cases e with
  | listen | accept | close | await | wait | resume => cases he
  | send n => exact afterSend_schedule s n
  | sendFails | writeReturns => exact afterWrite_schedule s
  | wsSend | wsClose => exact setWrite_schedule s _ _
  | _ => exact ⟨rfl, rfl, rfl⟩

theorem waiting_start : Waiting start where
  slot _ _ _ := by simp [Server.start]
  running _ hco := absurd hco List.not_mem_nil
  nodup := List.nodup_nil
  unborn _ _ := ⟨rfl, List.not_mem_nil⟩
  batch _ hco := absurd hco List.not_mem_nil
  once := List.nodup_nil

/-- A coroutine starts. -/
theorem Waiting.startCoro (h : Waiting s) (p : Phase) : Waiting (s.startCoro p) where
  slot co fd interest := by
    rw [awaiting_startCoro]
    exact h.slot co fd interest
  running := by
    refine List.forall_mem_cons.mpr ⟨?_, fun co hco => ?_⟩
    · rw [awaiting_startCoro]
      exact (h.unborn s.coroCount (Nat.le_refl _)).1
    · rw [awaiting_startCoro]
      exact h.running co hco
  nodup := List.nodup_cons.mpr ⟨(h.unborn s.coroCount (Nat.le_refl _)).2, h.nodup⟩
  unborn co hco := by
    have hco : s.coroCount + 1 ≤ co := hco
    obtain ⟨hawaiting, hrunning⟩ := h.unborn co (Nat.le_of_succ_le hco)
    rw [awaiting_startCoro]
    refine ⟨hawaiting, fun hmem => ?_⟩
    rcases List.mem_cons.mp hmem with rfl | hmem
    · exact Nat.not_succ_le_self _ hco
    · exact hrunning hmem
  batch co hco := by
    rw [awaiting_startCoro]
    exact h.batch co hco
  once := h.once

/-- Who is in control awaits nothing. -/
theorem Waiting.current (h : Waiting s) {co : ℕ} (hco : s.current = some co) :
    ∃ rest, s.running = co :: rest ∧ (s.coros co).awaiting = none ∧ co ∉ rest := by
  have hhead : s.running.head? = some co := hco
  obtain ⟨rest, hrest⟩ := List.head?_eq_some_iff.mp hhead
  have hnodup := h.nodup
  rw [hrest] at hnodup
  exact ⟨rest, hrest, h.running co (hrest ▸ List.mem_cons_self), (List.nodup_cons.mp hnodup).1⟩

/-- Two coroutines in one slot are one. -/
theorem Waiting.unique (h : Waiting s) {co co' fd : ℕ} {i i' : Interest}
    (hco : (s.coros co).awaiting = some (fd, i)) (hco' : (s.coros co').awaiting = some (fd, i')) :
    co' = co ∧ i' = i := by
  have heq := ((h.slot co fd i).mp hco).symm.trans ((h.slot co' fd i').mp hco')
  obtain ⟨hi, hc⟩ := Prod.mk.inj (Option.some.inj heq)
  exact ⟨hc.symm, hi.symm⟩

/-- A step that schedules nothing. -/
theorem Waiting.goesOn (h : Waiting s) (he : e.schedules = false) : Waiting (s.after e) := by
  obtain ⟨hrunning, hbatch, hcount⟩ := schedule_after (s := s) he
  have hregisters : e.registers = false := by
    cases e with
    | close | await | resume => cases he
    | _ => rfl
  have hawaiting := fun co => awaiting_after (s := s) hregisters co
  have hepoll := epoll_after (s := s) hregisters
  refine ⟨fun co fd i => ?_, fun co hco => ?_, ?_, fun co hco => ?_, fun co hco => ?_, ?_⟩
  · rw [hawaiting, hepoll]
    exact h.slot co fd i
  · rw [hawaiting]
    exact h.running co (hrunning ▸ hco)
  · exact hrunning ▸ h.nodup
  · rw [hawaiting, hrunning]
    exact h.unborn co (hcount ▸ hco)
  · rw [hawaiting]
    exact h.batch co (hbatch ▸ hco)
  · exact hbatch ▸ h.once

/-- The slot of a descriptor that nobody awaits is empty. -/
theorem Waiting.slot_none (h : Waiting s) {fd : ℕ}
    (hfree : ∀ co i, (s.coros co).awaiting ≠ some (fd, i)) : s.epoll fd = none := by
  by_contra hne
  obtain ⟨⟨i, co⟩, hslot⟩ := Option.ne_none_iff_exists'.mp hne
  exact hfree co i ((h.slot co fd i).mpr hslot)

/-- A coroutine ends. -/
theorem Waiting.close (h : Waiting s) {co fd : ℕ} (hspares : SparesOthers s (.close co fd)) :
    Waiting (s.after (.close co fd)) := by
  have hawait : ∀ d, ((s.after (.close co fd)).coros d).awaiting = (s.coros d).awaiting :=
    fun d => awaiting_setPhase ((s.setFile fd none).reactorUnwatchFd fd) co d .done
  have hepoll : (s.after (.close co fd)).epoll = s.epoll := by
    show Function.update s.epoll fd none = s.epoll
    rw [← h.slot_none hspares, Function.update_eq_self]
  refine ⟨fun d fd' i => ?_, fun d hd => ?_, h.nodup.tail, fun d hd => ?_, fun d hd => ?_,
    h.once⟩
  · rw [hawait, hepoll]
    exact h.slot d fd' i
  · rw [hawait]
    exact h.running d (List.mem_of_mem_tail hd)
  · rw [hawait]
    exact ⟨(h.unborn d hd).1, fun hmem => (h.unborn d hd).2 (List.mem_of_mem_tail hmem)⟩
  · rw [hawait]
    exact h.batch d hd

/-- A coroutine suspends. -/
theorem Waiting.await (h : Waiting s) {co fd : ℕ} {i : Interest} (hcurrent : s.current = some co)
    (hspares : SparesOthers s (.await co fd i)) : Waiting (s.after (.await co fd i)) := by
  obtain ⟨rest, hrunning, hnone, hrest⟩ := h.current hcurrent
  have hawait : ∀ d, ((s.after (.await co fd i)).coros d).awaiting
      = if d = co then some (fd, i) else (s.coros d).awaiting := fun d =>
    awaiting_setAwaiting (s.reactorWatchFd fd i co) co d _
  have htail : (s.after (.await co fd i)).running = rest := by
    show s.running.tail = rest
    rw [hrunning, List.tail_cons]
  have hepoll : (s.after (.await co fd i)).epoll
      = Function.update s.epoll fd (some (i, co)) := rfl
  have hnodup := h.nodup
  rw [hrunning] at hnodup
  refine ⟨fun d fd' j => ?_, fun d hd => ?_, htail ▸ (List.nodup_cons.mp hnodup).2,
    fun d hd => ?_, fun d hd => ?_, h.once⟩
  · rw [hawait, hepoll, Function.update_apply]
    by_cases hd : d = co
    · subst hd
      rw [if_pos rfl]
      by_cases hfd : fd' = fd
      · subst hfd
        rw [if_pos rfl]
        exact ⟨fun heq => by rw [(Prod.mk.inj (Option.some.inj heq)).2], fun heq => by
          rw [(Prod.mk.inj (Option.some.inj heq)).1]⟩
      · rw [if_neg hfd, ← h.slot, hnone]
        exact iff_of_false (fun heq => hfd (Prod.mk.inj (Option.some.inj heq)).1.symm) (by simp)
    · rw [if_neg hd]
      by_cases hfd : fd' = fd
      · subst hfd
        rw [if_pos rfl]
        exact iff_of_false (hspares d hd j)
          fun heq => hd (Prod.mk.inj (Option.some.inj heq)).2.symm
      · rw [if_neg hfd]
        exact h.slot d fd' j
  · rw [htail] at hd
    have hne : d ≠ co := fun heq => hrest (heq ▸ hd)
    rw [hawait, if_neg hne]
    exact h.running d (hrunning ▸ List.mem_cons_of_mem _ hd)
  · have hborn : d ≠ co := by
      rintro rfl
      exact (h.unborn d hd).2 (hrunning ▸ List.mem_cons_self)
    rw [hawait, if_neg hborn, htail]
    refine ⟨(h.unborn d hd).1, fun hmem => (h.unborn d hd).2 ?_⟩
    exact hrunning ▸ List.mem_cons_of_mem _ hmem
  · rw [hawait]
    split
    · exact Option.some_ne_none _
    · exact h.batch d hd

/-- The loop learns which descriptors are ready. -/
theorem Waiting.wait (h : Waiting s) {fds : List ℕ} (hnodup : fds.Nodup) :
    Waiting (s.after (.wait fds)) := by
  refine ⟨h.slot, h.running, h.nodup, h.unborn, fun co hco => ?_, ?_⟩
  · obtain ⟨fd, -, hfound⟩ := List.mem_filterMap.mp hco
    obtain ⟨⟨i, d⟩, hslot, rfl⟩ := Option.map_eq_some_iff.mp hfound
    show (s.coros d).awaiting ≠ none
    rw [(h.slot d fd i).mpr hslot]
    exact Option.some_ne_none _
  · refine List.Nodup.filterMap (fun fd fd' co hfd hfd' => ?_) hnodup
    obtain ⟨⟨i, d⟩, hslot, rfl⟩ := Option.map_eq_some_iff.mp hfd
    obtain ⟨⟨i', d'⟩, hslot', heq⟩ := Option.map_eq_some_iff.mp hfd'
    have heq : d' = d := heq
    subst heq
    have hsame := ((h.slot d' fd i).mpr hslot).symm.trans ((h.slot d' fd' i').mpr hslot')
    exact (Prod.mk.inj (Option.some.inj hsame)).1

/-- A coroutine is resumed. -/
theorem Waiting.resume (h : Waiting s) {co fd : ℕ} {i : Interest}
    (hen : s.Enabled (.resume co fd i)) : Waiting (s.after (.resume co fd i)) := by
  obtain ⟨hrunning, hhead, hco⟩ := hen
  obtain ⟨rest, hbatch⟩ := List.head?_eq_some_iff.mp hhead
  have hawait : ∀ d, ((s.after (.resume co fd i)).coros d).awaiting
      = if d = co then none else (s.coros d).awaiting := fun d =>
    (awaiting_setPhase ((s.reactorUnwatchFd fd).setAwaiting co none) co d _).trans
      (awaiting_setAwaiting (s.reactorUnwatchFd fd) co d none)
  have hepoll : (s.after (.resume co fd i)).epoll = Function.update s.epoll fd none := rfl
  have htail : (s.after (.resume co fd i)).batch = rest := by
    show s.batch.tail = rest
    rw [hbatch, List.tail_cons]
  have honce := h.once
  rw [hbatch] at honce
  refine ⟨fun d fd' j => ?_, fun d hd => ?_, List.nodup_singleton co, fun d hd => ?_,
    fun d hd => ?_, htail ▸ (List.nodup_cons.mp honce).2⟩
  · rw [hawait, hepoll, Function.update_apply]
    by_cases hd : d = co
    · subst hd
      rw [if_pos rfl]
      by_cases hfd : fd' = fd
      · rw [if_pos hfd]
        exact iff_of_false (by simp) (by simp)
      · rw [if_neg hfd, ← h.slot, hco]
        exact iff_of_false (by simp) fun heq => hfd (Prod.mk.inj (Option.some.inj heq)).1.symm
    · rw [if_neg hd]
      by_cases hfd : fd' = fd
      · subst hfd
        rw [if_pos rfl]
        exact iff_of_false (fun heq => hd (h.unique hco heq).1) (by simp)
      · rw [if_neg hfd]
        exact h.slot d fd' j
  · obtain rfl := List.mem_singleton.mp hd
    rw [hawait, if_pos rfl]
  · have hborn : d ≠ co := by
      rintro rfl
      rw [(h.unborn d hd).1] at hco
      cases hco
    rw [hawait, if_neg hborn]
    exact ⟨(h.unborn d hd).1, fun hmem => hborn (List.mem_singleton.mp hmem)⟩
  · rw [htail] at hd
    have hne : d ≠ co := fun heq => (List.nodup_cons.mp honce).1 (heq ▸ hd)
    rw [hawait, if_neg hne]
    exact h.batch d (hbatch ▸ List.mem_cons_of_mem _ hd)

/-- **One step.** -/
theorem Waiting.step (h : Waiting s) (hen : s.Enabled e) (hspares : SparesOthers s e) :
    Waiting (s.after e) := by
  by_cases he : e.schedules = false
  · exact h.goesOn he
  · cases e with
    | listen k => exact h.startCoro _
    | accept co k fd =>
      have hfile : Waiting (s.setFile fd (some (.socket s.coroCount))) :=
        ⟨h.slot, h.running, h.nodup, h.unborn, h.batch, h.once⟩
      exact hfile.startCoro _
    | close co fd => exact h.close hspares
    | await co fd i => exact h.await hen.1 hspares
    | wait fds => exact h.wait hen.2.2.2.1
    | resume co fd i => exact h.resume hen
    | _ => exact absurd rfl he

end Step

/-! ### Both backends -/

/-- The same server on either backend. A filter that is reported is gone from the kqueue, while
the slot in the epoll set stays until its coroutine is resumed. -/
structure Agree (s : Server) (t : KqueueServer) : Prop where
  waiting : Waiting s
  server : t.server = s.withoutEpoll
  filters : ∀ co fd interest, t.filters fd interest = some co ↔
    s.epoll fd = some (interest, co) ∧ co ∉ s.batch

namespace Agree

variable {s : Server} {t : KqueueServer} {e : ServerEvent} {goesOn : Bool}

/-- No filter is left for a descriptor whose slot is empty. -/
theorem filters_none (h : Agree s t) {fd : ℕ} (hslot : ∀ i co, s.epoll fd = some (i, co) →
    co ∈ s.batch) (i : Interest) : t.filters fd i = none := by
  refine Option.eq_none_iff_forall_ne_some.mpr fun co hco => ?_
  obtain ⟨hepoll, hbatch⟩ := (h.filters co fd i).mp hco
  exact hbatch (hslot i co hepoll)

/-- The filters where a coroutine suspends. -/
theorem filters_await (h : Agree s t) {d fd' : ℕ} {j : Interest} (hcurrent : s.current = some d)
    (hspares : SparesOthers s (.await d fd' j)) (co fd : ℕ) (i : Interest) :
    t.filters.after goesOn (.await d fd' j) fd i = some co ↔
      (s.after (.await d fd' j)).epoll fd = some (i, co) ∧
        co ∉ (s.after (.await d fd' j)).batch := by
  obtain ⟨rest, -, hnone, -⟩ := h.waiting.current hcurrent
  have hfree : ∀ k, t.filters fd' k = none := by
    refine h.filters_none fun k c hslot => ?_
    have hawaiting := (h.waiting.slot c fd' k).mpr hslot
    by_cases hc : c = d
    · rw [hc, hnone] at hawaiting
      cases hawaiting
    · exact absurd hawaiting (hspares c hc k)
  have hbatch : d ∉ s.batch := fun hmem => h.waiting.batch d hmem hnone
  show t.filters.set fd' j (some d) fd i = some co ↔
    Function.update s.epoll fd' (some (j, d)) fd = some (i, co) ∧ co ∉ s.batch
  rw [Filters.set_apply, Function.update_apply]
  by_cases hfd : fd = fd'
  · subst hfd
    rw [if_pos rfl]
    by_cases hi : i = j
    · subst hi
      rw [if_pos ⟨rfl, rfl⟩]
      constructor
      · intro heq
        obtain rfl := Option.some.inj heq
        exact ⟨rfl, hbatch⟩
      · rintro ⟨heq, -⟩
        rw [(Prod.mk.inj (Option.some.inj heq)).2]
    · rw [if_neg fun hand => hi hand.2, hfree]
      exact iff_of_false (by simp)
        fun hand => hi (Prod.mk.inj (Option.some.inj hand.1)).1.symm
  · rw [if_neg fun hand => hfd hand.1, if_neg hfd]
    exact h.filters co fd i

/-- The filters where a coroutine ends. -/
theorem filters_close (h : Agree s t) {d fd' : ℕ} (hspares : SparesOthers s (.close d fd'))
    (co fd : ℕ) (i : Interest) :
    t.filters.after goesOn (.close d fd') fd i = some co ↔
      (s.after (.close d fd')).epoll fd = some (i, co) ∧
        co ∉ (s.after (.close d fd')).batch := by
  have hempty := h.waiting.slot_none hspares
  have hfree := h.filters_none fun k c hslot => by
    rw [hempty] at hslot
    cases hslot
  show (t.filters.set fd' .readable none).set fd' .writable none fd i = some co ↔
    Function.update s.epoll fd' none fd = some (i, co) ∧ co ∉ s.batch
  rw [Filters.set_apply, Filters.set_apply, Function.update_apply]
  by_cases hfd : fd = fd'
  · subst hfd
    rw [if_pos rfl, hfree i, ite_self, ite_self]
    exact iff_of_false (by simp) (by simp)
  · rw [if_neg fun hand => hfd hand.1, if_neg fun hand => hfd hand.1, if_neg hfd]
    exact h.filters co fd i

/-- The filters where a coroutine is resumed. -/
theorem filters_resume (h : Agree s t) {d fd' : ℕ} {j : Interest}
    (hen : s.Enabled (.resume d fd' j)) (co fd : ℕ) (i : Interest) :
    t.filters.after goesOn (.resume d fd' j) fd i = some co ↔
      (s.after (.resume d fd' j)).epoll fd = some (i, co) ∧
        co ∉ (s.after (.resume d fd' j)).batch := by
  obtain ⟨-, hhead, hd⟩ := hen
  obtain ⟨rest, hbatch⟩ := List.head?_eq_some_iff.mp hhead
  have hslot := (h.waiting.slot d fd' j).mp hd
  have hfree := h.filters_none fun k c hslot' => by
    rw [hslot] at hslot'
    rw [← (Prod.mk.inj (Option.some.inj hslot')).2, hbatch]
    exact List.mem_cons_self
  show t.filters.reactorUnwatchFd goesOn fd' fd i = some co ↔
    Function.update s.epoll fd' none fd = some (i, co) ∧ co ∉ s.batch.tail
  rw [Filters.reactorUnwatchFd_of_none goesOn hfree, Function.update_apply, h.filters]
  by_cases hfd : fd = fd'
  · subst hfd
    rw [if_pos rfl]
    refine iff_of_false (fun hand => ?_) (by simp)
    have hnone := (h.filters co fd i).mpr hand
    rw [hfree i] at hnone
    cases hnone
  · rw [if_neg hfd, hbatch, List.tail_cons]
    refine and_congr_right fun hco => not_congr ?_
    have hne : co ≠ d := by
      rintro rfl
      rw [(h.waiting.slot co fd i).mpr hco] at hd
      exact hfd (Prod.mk.inj (Option.some.inj hd)).1
    exact ⟨fun hmem => (List.mem_cons.mp hmem).resolve_left hne, List.mem_cons_of_mem _⟩

/-- **The filters after one step** follow the epoll set. -/
theorem filters_after (h : Agree s t) (hen : s.Enabled e) (hspares : SparesOthers s e)
    (he : e.isWait = false) (co fd : ℕ) (i : Interest) :
    t.filters.after goesOn e fd i = some co ↔
      (s.after e).epoll fd = some (i, co) ∧ co ∉ (s.after e).batch := by
  by_cases hregisters : e.registers = false
  · have hbatch : (s.after e).batch = s.batch := by
      by_cases hschedules : e.schedules = false
      · exact (schedule_after hschedules).2.1
      · cases e with
        | listen | accept => rfl
        | wait => cases he
        | close | await | resume => cases hregisters
        | _ => exact absurd rfl hschedules
    have hfilters : t.filters.after goesOn e = t.filters := by
      cases e with
      | close | await | resume => cases hregisters
      | _ => rfl
    rw [hfilters, hbatch, epoll_after hregisters]
    exact h.filters co fd i
  · cases e with
    | await d fd' j => exact h.filters_await hen.1 hspares co fd i
    | close d fd' => exact h.filters_close hspares co fd i
    | resume d fd' j => exact h.filters_resume hen co fd i
    | _ => exact absurd rfl hregisters

/-- A step that is not a wait of the loop. -/
theorem other (h : Agree s t) (hen : s.Enabled e) (hspares : SparesOthers s e)
    (he : e.isWait = false) :
    Agree (s.after e) ⟨(t.server.after e).withoutEpoll, t.filters.after goesOn e⟩ where
  waiting := h.waiting.step hen hspares
  server := by
    rw [h.server]
    exact withoutEpoll_after s he
  filters co fd i := h.filters_after hen hspares he co fd i

/-- Both report the same coroutines. -/
theorem reported (h : Agree s t) {fs : List (ℕ × Interest)}
    (hsome : ∀ f ∈ fs, (t.filters f.1 f.2).isSome) :
    (fs.map Prod.fst).filterMap (fun fd => (s.epoll fd).map Prod.snd)
      = fs.filterMap fun f => t.filters f.1 f.2 := by
  rw [List.filterMap_map]
  refine List.filterMap_congr fun f hf => ?_
  obtain ⟨co, hco⟩ := Option.isSome_iff_exists.mp (hsome f hf)
  rw [hco, Function.comp_apply, ((h.filters co f.1 f.2).mp hco).1]
  rfl

/-- A wait of the loop. -/
theorem wait (h : Agree s t) {fs : List (ℕ × Interest)} (hen : s.Enabled (.wait (fs.map Prod.fst)))
    (hsome : ∀ f ∈ fs, (t.filters f.1 f.2).isSome) :
    Agree (s.after (.wait (fs.map Prod.fst)))
      ⟨{ t.server with batch := fs.filterMap fun f => t.filters f.1 f.2 },
        t.filters.report fs⟩ where
  waiting := h.waiting.step hen trivial
  server := by
    rw [h.server, ← h.reported hsome]
    rfl
  filters co fd i := by
    have hnone : ∀ c, c ∉ s.batch := fun c hc => by
      rw [hen.2.1] at hc
      cases hc
    show t.filters.report fs fd i = some co ↔ s.epoll fd = some (i, co) ∧
      co ∉ (fs.map Prod.fst).filterMap fun fd => (s.epoll fd).map Prod.snd
    rw [h.reported hsome, Filters.report_apply]
    by_cases hmem : (fd, i) ∈ fs
    · rw [if_pos hmem]
      refine iff_of_false (by simp) fun hand => hand.2 (List.mem_filterMap.mpr ⟨(fd, i), hmem, ?_⟩)
      exact (h.filters co fd i).mpr ⟨hand.1, hnone co⟩
    · rw [if_neg hmem, h.filters]
      refine and_congr_right fun hslot => iff_of_true (hnone co) fun hreported => hmem ?_
      obtain ⟨f, hf, hco⟩ := List.mem_filterMap.mp hreported
      have hfirst := (h.waiting.slot co f.1 f.2).mpr ((h.filters co f.1 f.2).mp hco).1
      have hsecond := (h.waiting.slot co fd i).mpr hslot
      rw [hfirst] at hsecond
      rwa [← Option.some.inj hsecond]

theorem start : Agree Server.start ⟨.start, fun _ _ => none⟩ where
  waiting := waiting_start
  server := rfl
  filters _ _ _ := by simp [Server.start]

/-- **A step on the epoll backend** is one on the kqueue backend. -/
theorem toKqueue (h : Agree s t) {s' : Server} (hstep : serverSystem.step s e s')
    (hspares : SparesOthers s e) : ∃ t', KqueueStep goesOn t e t' ∧ Agree s' t' := by
  obtain ⟨hen, rfl⟩ := hstep
  by_cases he : e.isWait = false
  · refine ⟨_, .other he ?_, h.other hen hspares he⟩
    rw [h.server]
    exact (enabled_withoutEpoll s he).mpr hen
  · cases e with
    | wait fds =>
      obtain ⟨hrunning, hbatch, hmain, hnodup, hlength, hregistered⟩ := hen
      -- the kind of event that each descriptor is registered for
      let kind : ℕ → Interest := fun fd => ((s.epoll fd).map Prod.fst).getD .readable
      have hfst : (fds.map fun fd => (fd, kind fd)).map Prod.fst = fds := by
        rw [List.map_map]
        exact List.map_id fds
      have hsome : ∀ f ∈ fds.map fun fd => (fd, kind fd), (t.filters f.1 f.2).isSome := by
        refine List.forall_mem_map.mpr fun fd hfd => ?_
        obtain ⟨⟨i, co⟩, hslot⟩ := Option.isSome_iff_exists.mp (hregistered fd hfd)
        have hkind : kind fd = i := by
          show ((s.epoll fd).map Prod.fst).getD .readable = i
          rw [hslot]
          rfl
        have hfilter := (h.filters co fd i).mpr ⟨hslot, by rw [hbatch]; exact List.not_mem_nil⟩
        show (t.filters fd (kind fd)).isSome
        rw [hkind, hfilter]
        rfl
      have hserver := h.server
      have hagree := @Agree.wait s t h (fds.map fun fd => (fd, kind fd))
        (by rw [hfst]; exact ⟨hrunning, hbatch, hmain, hnodup, hlength, hregistered⟩) hsome
      have hkqueue := @KqueueStep.wait goesOn t (fds.map fun fd => (fd, kind fd))
        (by rw [hserver]; exact hrunning) (by rw [hserver]; exact hbatch)
        (by rw [hserver]; exact hmain) (List.Nodup.of_map Prod.fst (by rwa [hfst]))
        (by rwa [List.length_map]) hsome
      rw [hfst] at hagree hkqueue
      exact ⟨_, hkqueue, hagree⟩
    | _ => exact absurd rfl he

/-- **A step on the kqueue backend** is one on the epoll backend. -/
theorem toEpoll (h : Agree s t) {t' : KqueueServer} (hstep : KqueueStep goesOn t e t')
    (hspares : SparesOthers t.server e) : ∃ s', serverSystem.step s e s' ∧ Agree s' t' := by
  have hserver := h.server
  cases hstep with
  | other he hen =>
    rw [hserver] at hen hspares
    have hen := (enabled_withoutEpoll s he).mp hen
    exact ⟨_, ⟨hen, rfl⟩, h.other hen ((sparesOthers_withoutEpoll s e).mp hspares) he⟩
  | wait fs hrunning hbatch hmain hnodup hlength hsome =>
    rw [hserver] at hrunning hbatch hmain
    have hslot : ∀ f ∈ fs, ∃ co, s.epoll f.1 = some (f.2, co) := fun f hf => by
      obtain ⟨co, hco⟩ := Option.isSome_iff_exists.mp (hsome f hf)
      exact ⟨co, ((h.filters co f.1 f.2).mp hco).1⟩
    have hen : s.Enabled (.wait (fs.map Prod.fst)) := by
      refine ⟨hrunning, hbatch, hmain, ?_, by rwa [List.length_map], ?_⟩
      · refine hnodup.map_on fun f hf g hg heq => ?_
        obtain ⟨co, hco⟩ := hslot f hf
        obtain ⟨co', hco'⟩ := hslot g hg
        rw [← heq, hco] at hco'
        exact Prod.ext heq (Prod.mk.inj (Option.some.inj hco')).1
      · refine List.forall_mem_map.mpr fun f hf => ?_
        obtain ⟨co, hco⟩ := hslot f hf
        rw [hco]
        rfl
    exact ⟨_, ⟨hen, rfl⟩, h.wait hen hsome⟩

end Agree

/-- **The runs on one backend are those on the other**, as long as no coroutine starts to await a
descriptor that another one awaits and none that is awaited is closed; whether or not `kevent` goes
on behind a change that fails. -/
theorem backends_agree (goesOn : Bool) (ls : List ServerEvent) :
    (∀ s, (serverSystem.restrict SparesOthers).Run ls s →
      ∃ t, ((kqueueSystem goesOn).restrict fun t => SparesOthers t.server).Run ls t ∧ Agree s t) ∧
    (∀ t, ((kqueueSystem goesOn).restrict fun t => SparesOthers t.server).Run ls t →
      ∃ s, (serverSystem.restrict SparesOthers).Run ls s ∧ Agree s t) := by
  constructor
  · intro s hrun
    refine LTS.Run.simulate ?_ ?_ hrun
    · rintro s rfl
      exact ⟨_, rfl, Agree.start⟩
    · rintro s t e s' h ⟨hstep, hspares⟩
      obtain ⟨t', hstep', h'⟩ := h.toKqueue hstep hspares
      refine ⟨t', ⟨hstep', ?_⟩, h'⟩
      show SparesOthers t.server e
      rw [h.server]
      exact (sparesOthers_withoutEpoll s e).mpr hspares
  · intro t hrun
    refine LTS.Run.simulate (R := fun t s => Agree s t) ?_ ?_ hrun
    · rintro t rfl
      exact ⟨_, rfl, Agree.start⟩
    · rintro t s e t' h ⟨hstep, hspares⟩
      obtain ⟨s', hstep', h'⟩ := h.toEpoll hstep hspares
      rw [h.server] at hspares
      exact ⟨s', ⟨hstep', (sparesOthers_withoutEpoll s e).mp hspares⟩, h'⟩

/-- Of two suspended coroutines one is resumed, writes, and waits again; then the other. -/
def bothResumed : List ServerEvent :=
  twoSuspended ++ [.wait [5], .resume 1 5 .readable, .await 1 5 .readable, .wait [3, 5],
    .resume 0 3 .readable]

theorem backends_agree_bothResumed :
    ∃ s t, (serverSystem.restrict SparesOthers).Run bothResumed s ∧
      ((kqueueSystem false).restrict fun t => SparesOthers t.server).Run bothResumed t ∧
      Agree s t := by
  have hmeets : Meets SparesOthers Server.start bothResumed :=
    registered_start.meets (by decide +kernel) (by decide +kernel)
  have hrun := Runs.restrict (by decide +kernel) hmeets
  obtain ⟨t, hkqueue, hagree⟩ := (backends_agree false _).1 _ hrun
  exact ⟨_, t, hrun, hkqueue, hagree⟩

end Jaguar
