/-
Timers (`reactor_common.c`).

The loop of `reactor_fire_due_timers` walks a linked list that its callbacks change: they
put nodes in front and flip `active` flags. Each turn is cut into steps here, so that
anything a callback does, and anything the rest of the program does between two passes,
comes between them.

* `TimerState`, `timerSystem` — the list, the clock, and where the walk stands;
* `PassInv`, `passInv_of_run` — what a pass has done by the time it stands at a node;
* `fires_discipline` — **never early, once in a pass, once ever without an interval, never
  behind a clear**, in every run;
* `clear_unborn_id_fires` — an id cleared before it is handed out fires all the same;
* `inOrder_iff_dueOrdered` — a pass fires in due-time order just when the later registered
  of two due timers is never the later due.
-/
import Jaguar.Runs
import Mathlib.Data.List.Basic
import Mathlib.Data.Int.Order.Basic
import Mathlib.Tactic.Ring
import Mathlib.Tactic.SplitIfs

namespace Jaguar

/-! ### The list -/

/-- `struct Timer`; `callback` stands for `fn` and its `arg`. -/
structure Timer (α : Type*) where
  id : ℤ
  dueMs : ℤ
  intervalMs : ℤ
  callback : α
  active : Bool
  deriving DecidableEq

/-- The file's variables. The nodes stand in the order they were made, so the list
`g_timers` leads from the last one to the first. -/
structure TimerList (α : Type*) where
  nodes : List (Timer α)
  nextId : ℤ
  deriving DecidableEq

variable {α : Type*}

/-- `now + ms`, as 64 bits hold it. -/
def addMs (now ms : ℤ) : ℤ := (now + ms).bmod (2 ^ 64)

/-- `reactor_add_timer`, called at `now`. -/
def TimerList.reactorAddTimer (g : TimerList α) (now delay interval : ℤ) (callback : α) :
    TimerList α :=
  ⟨g.nodes ++ [⟨g.nextId, addMs now delay, interval, callback, true⟩],
    (g.nextId + 1).bmod (2 ^ 32)⟩

def Timer.clear (id : ℤ) (t : Timer α) : Timer α :=
  if t.id = id then { t with active := false } else t

/-- `reactor_clear_timer`. -/
def TimerList.reactorClearTimer (g : TimerList α) (id : ℤ) : TimerList α :=
  { g with nodes := g.nodes.map (Timer.clear id) }

/-- `t->active && t->due_ms <= now`. -/
def Timer.Due (now : ℤ) (t : Timer α) : Prop := t.active = true ∧ t.dueMs ≤ now

instance (now : ℤ) (t : Timer α) : Decidable (t.Due now) := inferInstanceAs (Decidable (_ ∧ _))

/-- What the loop does to a node behind its callback, at `now`. -/
def Timer.fired (now : ℤ) (t : Timer α) : Timer α :=
  if 0 < t.intervalMs ∧ t.active then { t with dueMs := addMs now t.intervalMs }
  else { t with active := false }

@[simp] theorem Timer.clear_id (id : ℤ) (t : Timer α) : (t.clear id).id = t.id := by
  unfold Timer.clear
  split_ifs <;> rfl

@[simp] theorem Timer.clear_dueMs (id : ℤ) (t : Timer α) : (t.clear id).dueMs = t.dueMs := by
  unfold Timer.clear
  split_ifs <;> rfl

@[simp] theorem Timer.clear_intervalMs (id : ℤ) (t : Timer α) :
    (t.clear id).intervalMs = t.intervalMs := by
  unfold Timer.clear
  split_ifs <;> rfl

theorem Timer.clear_active {id : ℤ} {t : Timer α} :
    (t.clear id).active = true ↔ t.active = true ∧ t.id ≠ id := by
  unfold Timer.clear
  split_ifs with h <;> simp [h]

@[simp] theorem Timer.fired_id (now : ℤ) (t : Timer α) : (t.fired now).id = t.id := by
  unfold Timer.fired
  split_ifs <;> rfl

@[simp] theorem Timer.fired_intervalMs (now : ℤ) (t : Timer α) :
    (t.fired now).intervalMs = t.intervalMs := by
  unfold Timer.fired
  split_ifs <;> rfl

theorem Timer.fired_active {now : ℤ} {t : Timer α} :
    (t.fired now).active = true ↔ 0 < t.intervalMs ∧ t.active = true := by
  unfold Timer.fired
  split_ifs with h <;> simp [h]

/-! ### The system -/

/-- Where `reactor_fire_due_timers` stands. -/
inductive WalkPhase
  /-- It is not running. -/
  | idle
  /-- At the head of its loop, with `rest` nodes still to come, the first of them node
  `rest - 1`; `now` is the time the pass started at. -/
  | walking (now : ℤ) (rest : ℕ)
  /-- In the callback of a node; `rest` nodes come behind it. -/
  | firing (now : ℤ) (rest : ℕ)
  deriving DecidableEq

structure TimerState (α : Type*) where
  list : TimerList α
  /-- What `now_ms` returns. -/
  clock : ℤ
  phase : WalkPhase
  deriving DecidableEq

inductive TimerEvent (α : Type*)
  | tick (now : ℤ)
  | add (delay interval : ℤ) (callback : α)
  | clear (id : ℤ)
  /-- A pass starts. -/
  | enter
  /-- The callback of a node starts. -/
  | start (node : ℕ)
  /-- A node is not due. -/
  | skip (node : ℕ)
  /-- The callback has returned. -/
  | finish (node : ℕ)
  | leave
  deriving DecidableEq

/-- Code of the program runs: the script, a handler, or the callback that the walk has
called. -/
def WalkPhase.RunsCode : WalkPhase → Prop
  | .walking _ _ => False
  | _ => True

inductive TimerStep : TimerState α → TimerEvent α → TimerState α → Prop
  | tick {g clock phase now} : clock ≤ now →
      TimerStep ⟨g, clock, phase⟩ (.tick now) ⟨g, now, phase⟩
  | add {g clock phase delay interval callback} : phase.RunsCode →
      TimerStep ⟨g, clock, phase⟩ (.add delay interval callback)
        ⟨g.reactorAddTimer clock delay interval callback, clock, phase⟩
  | clear {g clock phase id} : phase.RunsCode →
      TimerStep ⟨g, clock, phase⟩ (.clear id) ⟨g.reactorClearTimer id, clock, phase⟩
  | enter {g clock} :
      TimerStep ⟨g, clock, .idle⟩ .enter ⟨g, clock, .walking clock g.nodes.length⟩
  | start {g clock now rest t} : g.nodes[rest]? = some t → t.Due now →
      TimerStep ⟨g, clock, .walking now (rest + 1)⟩ (.start rest) ⟨g, clock, .firing now rest⟩
  | skip {g clock now rest t} : g.nodes[rest]? = some t → ¬ t.Due now →
      TimerStep ⟨g, clock, .walking now (rest + 1)⟩ (.skip rest) ⟨g, clock, .walking now rest⟩
  | finish {g clock now rest t} : g.nodes[rest]? = some t →
      TimerStep ⟨g, clock, .firing now rest⟩ (.finish rest)
        ⟨{ g with nodes := g.nodes.set rest (t.fired clock) }, clock, .walking now rest⟩
  | leave {g clock now} :
      TimerStep ⟨g, clock, .walking now 0⟩ .leave ⟨g, clock, .idle⟩

/-- Any timers with distinct ids, at any time. -/
def timerSystem (α : Type*) : LTS (TimerState α) (TimerEvent α) where
  init s := s.phase = .idle ∧ (s.list.nodes.map Timer.id).Nodup
  step := TimerStep

/-! ### One node -/

/-- What a step does to a node. -/
structure NodeStep (e : TimerEvent α) (k : ℕ) (t t' : Timer α) : Prop where
  id : t'.id = t.id
  intervalMs : t'.intervalMs = t.intervalMs
  /-- A node that is not active stays so. -/
  active : t'.active = true → t.active = true ∧ e ≠ .clear t.id
  /-- Only the end of its own callback reschedules it or switches it off. -/
  kept : e ≠ .finish k → t'.dueMs = t.dueMs ∧
    (t.active = true → e ≠ .clear t.id → t'.active = true)
  once : e = .finish k → t'.active = true → 0 < t.intervalMs

theorem NodeStep.refl {e : TimerEvent α} {k : ℕ} {t : Timer α} (hclear : e ≠ .clear t.id)
    (hfinish : e ≠ .finish k) : NodeStep e k t t where
  id := rfl
  intervalMs := rfl
  active h := ⟨h, hclear⟩
  kept _ := ⟨rfl, fun h _ => h⟩
  once h := absurd h hfinish

theorem TimerStep.node {s s' : TimerState α} {e : TimerEvent α} (h : TimerStep s e s') {k : ℕ}
    {t : Timer α} (hk : s.list.nodes[k]? = some t) :
    ∃ t', s'.list.nodes[k]? = some t' ∧ NodeStep e k t t' := by
  cases h with
  | tick => exact ⟨t, hk, .refl nofun nofun⟩
  | add => exact ⟨t, (List.getElem?_append_left (List.getElem?_eq_some_iff.mp hk).1).trans hk,
      .refl nofun nofun⟩
  | @clear g clock phase id =>
    refine ⟨t.clear id, by simp [TimerList.reactorClearTimer, show g.nodes[k]? = some t from hk], ?_⟩
    exact {
      id := Timer.clear_id id t
      intervalMs := Timer.clear_intervalMs id t
      active := fun h => by
        obtain ⟨hactive, hne⟩ := Timer.clear_active.mp h
        exact ⟨hactive, fun heq => hne (TimerEvent.clear.inj heq).symm⟩
      kept := fun _ => ⟨Timer.clear_dueMs id t, fun hactive hne =>
        Timer.clear_active.mpr ⟨hactive, fun heq => hne (by rw [heq])⟩⟩
      once := nofun }
  | enter => exact ⟨t, hk, .refl nofun nofun⟩
  | start => exact ⟨t, hk, .refl nofun nofun⟩
  | skip => exact ⟨t, hk, .refl nofun nofun⟩
  | @finish g clock now rest u hu =>
    by_cases hrest : rest = k
    · subst hrest
      obtain rfl : u = t := Option.some.inj (hu.symm.trans hk)
      have hlt : rest < g.nodes.length := (List.getElem?_eq_some_iff.mp hk).1
      exact ⟨u.fired clock, List.getElem?_set_self hlt, {
        id := Timer.fired_id clock u
        intervalMs := Timer.fired_intervalMs clock u
        active := fun h => ⟨(Timer.fired_active.mp h).2, nofun⟩
        kept := fun h => absurd rfl h
        once := fun _ h => (Timer.fired_active.mp h).1 }⟩
    · refine ⟨t, (List.getElem?_set_ne hrest).trans hk, .refl nofun fun heq => hrest ?_⟩
      exact TimerEvent.finish.inj heq
  | leave => exact ⟨t, hk, .refl nofun nofun⟩

theorem TimerStep.length_le {s s' : TimerState α} {e : TimerEvent α} (h : TimerStep s e s') :
    s.list.nodes.length ≤ s'.list.nodes.length := by
  cases h <;> simp [TimerList.reactorAddTimer, TimerList.reactorClearTimer]

/-- The nodes whose callbacks start. -/
def starts (es : List (TimerEvent α)) : List ℕ :=
  es.filterMap fun
    | .start k => some k
    | _ => none

@[simp] theorem starts_append (es es' : List (TimerEvent α)) :
    starts (es ++ es') = starts es ++ starts es' := List.filterMap_append

@[simp] theorem starts_nil : starts ([] : List (TimerEvent α)) = [] := rfl

theorem starts_singleton {e : TimerEvent α} (h : ∀ k, e ≠ .start k) : starts [e] = [] := by
  cases e <;> first | rfl | exact absurd rfl (h _)

@[simp] theorem starts_start (k : ℕ) : starts ([.start k] : List (TimerEvent α)) = [k] := rfl

theorem mem_starts {k : ℕ} {es : List (TimerEvent α)} : k ∈ starts es ↔ .start k ∈ es := by
  unfold starts
  rw [List.mem_filterMap]
  constructor
  · rintro ⟨e, he, hk⟩
    cases e <;> simp at hk
    subst hk
    exact he
  · intro h
    exact ⟨_, h, rfl⟩

theorem mem_starts_singleton {k : ℕ} {e : TimerEvent α} : k ∈ starts [e] ↔ e = .start k := by
  rw [mem_starts, List.mem_singleton, eq_comm]

/-- A callback starts at the head of the loop, for a node that is active and due. -/
theorem TimerStep.start_inv {s s' : TimerState α} {k : ℕ} (h : TimerStep s (.start k) s') :
    ∃ now t, s.phase = .walking now (k + 1) ∧ s'.phase = .firing now k ∧ s'.list = s.list ∧
      s.list.nodes[k]? = some t ∧ t.Due now := by
  cases h with
  | start hk hdue => exact ⟨_, _, rfl, rfl, rfl, hk, hdue⟩

/-! ### Whole runs -/

/-- A pass started in the past. -/
def TimerState.OnTime (s : TimerState α) : Prop :=
  match s.phase with
  | .idle => True
  | .walking now _ | .firing now _ => now ≤ s.clock

/-- What the callbacks started so far say about a state. -/
structure RunInv (es : List (TimerEvent α)) (s : TimerState α) : Prop where
  onTime : s.OnTime
  born : ∀ k ∈ starts es, k < s.list.nodes.length
  /-- A node without an interval fires once, and is not active behind that. -/
  once : ∀ k t, s.list.nodes[k]? = some t → t.intervalMs ≤ 0 →
    (starts es).count k ≤ 1 ∧
      (t.active = true → k ∈ starts es → ∃ now, s.phase = .firing now k)

theorem TimerStep.onTime {s s' : TimerState α} {e : TimerEvent α} (h : TimerStep s e s')
    (hs : s.OnTime) : s'.OnTime := by
  cases h with
  | @tick g clock phase now hle =>
    cases phase with
    | idle => trivial
    | walking => exact le_trans hs hle
    | firing => exact le_trans hs hle
  | add => exact hs
  | clear => exact hs
  | @enter g clock => exact le_refl clock
  | start => exact hs
  | skip => exact hs
  | finish => exact hs
  | leave => trivial

/-- Only the end of its callback ends the time a node is firing. -/
theorem TimerStep.firing {s s' : TimerState α} {e : TimerEvent α} (h : TimerStep s e s')
    {now : ℤ} {k : ℕ} (hfiring : s.phase = .firing now k) (hfinish : e ≠ .finish k) :
    s'.phase = .firing now k := by
  cases h with
  | tick => exact hfiring
  | add => exact hfiring
  | clear => exact hfiring
  | enter => cases hfiring
  | start => cases hfiring
  | skip => cases hfiring
  | finish =>
    obtain ⟨rfl, rfl⟩ := WalkPhase.firing.inj hfiring
    exact absurd rfl hfinish
  | leave => cases hfiring

/-- A node of the new state is a node of the old one, or was just made. -/
theorem TimerStep.node_back {s s' : TimerState α} {e : TimerEvent α} (h : TimerStep s e s') {k : ℕ}
    {t' : Timer α} (hk : s'.list.nodes[k]? = some t') :
    (∃ t, s.list.nodes[k]? = some t ∧ NodeStep e k t t') ∨ s.list.nodes.length ≤ k := by
  rcases Nat.lt_or_ge k s.list.nodes.length with hlt | hge
  · obtain ⟨t'', ht'', hnode⟩ := h.node (List.getElem?_eq_getElem hlt)
    obtain rfl : t'' = t' := Option.some.inj (ht''.symm.trans hk)
    exact .inl ⟨_, List.getElem?_eq_getElem hlt, hnode⟩
  · exact .inr hge

theorem RunInv.step {es : List (TimerEvent α)} {s s' : TimerState α} {e : TimerEvent α}
    (hs : RunInv es s) (h : TimerStep s e s') : RunInv (es ++ [e]) s' := by
  have hstart : ∀ k, e = .start k → ∃ now t, s.phase = .walking now (k + 1) ∧
      s'.phase = .firing now k ∧ s.list.nodes[k]? = some t ∧ t.active = true ∧
      s'.list = s.list := by
    rintro k rfl
    obtain ⟨now, t, hphase, hphase', hlist, hk, hdue⟩ := h.start_inv
    exact ⟨now, t, hphase, hphase', hk, hdue.1, hlist⟩
  refine ⟨h.onTime hs.onTime, fun k hk => ?_, fun k t' hk hinterval => ?_⟩
  · rw [starts_append, List.mem_append] at hk
    rcases hk with hk | hk
    · exact Nat.lt_of_lt_of_le (hs.born k hk) h.length_le
    · obtain ⟨now, t, -, -, hnode, -, hlist⟩ := hstart k (mem_starts_singleton.mp hk)
      rw [hlist]
      exact (List.getElem?_eq_some_iff.mp hnode).1
  · rw [starts_append, List.count_append]
    rcases h.node_back hk with ⟨t, ht, hnode⟩ | hnew
    · obtain ⟨hcount, hfired⟩ := hs.once k t ht (hnode.intervalMs ▸ hinterval)
      by_cases hthis : e = .start k
      · -- its callback starts now: it has not started before
        obtain ⟨now, u, hphase, hphase', hu, hactive, -⟩ := hstart k hthis
        obtain rfl : u = t := Option.some.inj (hu.symm.trans ht)
        have hfirst : k ∉ starts es := by
          intro hmem
          obtain ⟨now', hfiring⟩ := hfired hactive hmem
          rw [hphase] at hfiring
          cases hfiring
        rw [List.count_eq_zero_of_not_mem hfirst, hthis]
        exact ⟨by simp, fun _ _ => ⟨now, hphase'⟩⟩
      · have hother : k ∉ starts [e] := fun h => hthis (mem_starts_singleton.mp h)
        rw [List.count_eq_zero_of_not_mem hother]
        refine ⟨hcount, fun hactive hmem => ?_⟩
        rw [List.mem_append] at hmem
        have hmem := hmem.resolve_right hother
        obtain ⟨now, hfiring⟩ := hfired (hnode.active hactive).1 hmem
        refine ⟨now, h.firing hfiring fun hfinish => ?_⟩
        have := hnode.once hfinish hactive
        rw [← hnode.intervalMs] at this
        omega
    · have hold : k ∉ starts es := fun hmem => absurd (hs.born k hmem) (Nat.not_lt_of_le hnew)
      have hthis : k ∉ starts [e] := by
        intro hmem
        obtain ⟨now, t, -, -, hnode, -⟩ := hstart k (mem_starts_singleton.mp hmem)
        exact absurd (List.getElem?_eq_some_iff.mp hnode).1 (Nat.not_lt_of_le hnew)
      rw [List.count_eq_zero_of_not_mem hold, List.count_eq_zero_of_not_mem hthis]
      exact ⟨Nat.zero_le 1, fun _ hmem => absurd (List.mem_append.mp hmem) (by tauto)⟩

theorem runInv_of_run {es : List (TimerEvent α)} {s : TimerState α}
    (h : (timerSystem α).Run es s) : RunInv es s := by
  refine h.invariant (fun s hs => ?_) fun _ _ _ _ => RunInv.step
  refine ⟨?_, by simp, by simp⟩
  rw [TimerState.OnTime, hs.1]
  trivial

/-- A node that was cleared does not fire any more. -/
theorem not_start_of_inactive {s s' : TimerState α} {ls : List (TimerEvent α)} {k : ℕ} {t : Timer α}
    (h : (timerSystem α).Steps s ls s') (hk : s.list.nodes[k]? = some t)
    (hactive : t.active = false) : k ∉ starts ls := by
  have hI := h.invariant []
    (I := fun es s => k ∉ starts es ∧ ∃ t, s.list.nodes[k]? = some t ∧ t.active = false)
    (fun es s e s' ⟨hmem, t, ht, hactive⟩ _ hstep => by
      obtain ⟨t', ht', hnode⟩ := TimerStep.node hstep ht
      refine ⟨?_, t', ht', ?_⟩
      · rw [starts_append, List.mem_append]
        rintro (hmem' | hthis)
        · exact hmem hmem'
        · obtain rfl := mem_starts_singleton.mp hthis
          obtain ⟨now, u, -, -, -, hu, hdue⟩ := TimerStep.start_inv hstep
          obtain rfl : u = t := Option.some.inj (hu.symm.trans ht)
          rw [hdue.1] at hactive
          cases hactive
      · by_contra hne
        have := (hnode.active (by simpa using hne)).1
        rw [hactive] at this
        cases this)
    ⟨by simp, t, hk, hactive⟩
  exact hI.1

/-! ### One pass -/

/-- The nodes below `rest` are still to come in the pass. -/
def WalkPhase.rest : WalkPhase → ℕ
  | .idle => 0
  | .walking _ rest | .firing _ rest => rest

/-- The time the pass started at. -/
def WalkPhase.Since (now : ℤ) : WalkPhase → Prop
  | .idle => True
  | .walking now' _ | .firing now' _ => now' = now

/-- What a pass over the nodes `ns`, started at `now`, has done with the events `mid`. -/
structure PassInv (ns : List (Timer α)) (now : ℤ) (mid : List (TimerEvent α))
    (s : TimerState α) : Prop where
  since : s.phase.Since now
  /-- A node still to come is as it was, unless it was cleared. -/
  waiting : ∀ k t₀, k < s.phase.rest → ns[k]? = some t₀ → ∃ t, s.list.nodes[k]? = some t ∧
    t.id = t₀.id ∧ t.dueMs = t₀.dueMs ∧ (t.active = true → t₀.active = true) ∧
    (t₀.active = true → .clear t₀.id ∉ mid → t.active = true)
  /-- A node that was due and not cleared has fired when the walk has passed it. -/
  passed : ∀ k t₀, s.phase.rest ≤ k → ns[k]? = some t₀ → t₀.Due now → .clear t₀.id ∉ mid →
    k ∈ starts mid
  started : ∀ k ∈ starts mid, s.phase.rest ≤ k ∧ k < ns.length
  rest_le : s.phase.rest ≤ ns.length
  nodup : (starts mid).Nodup

theorem passInv_enter (g : TimerList α) (clock : ℤ) :
    PassInv g.nodes clock [.enter] ⟨g, clock, .walking clock g.nodes.length⟩ where
  since := rfl
  waiting k t₀ _ ht₀ := ⟨t₀, ht₀, rfl, rfl, id, fun h _ => h⟩
  passed k t₀ hle ht₀ := absurd (List.getElem?_eq_some_iff.mp ht₀).1 (Nat.not_lt_of_le hle)
  started k hk := absurd hk (by simp [starts])
  rest_le := Nat.le_refl _
  nodup := by simp [starts]

/-- The walk goes on by `skip` and `start`; every other step leaves it where it is. -/
theorem TimerStep.rest {s s' : TimerState α} {e : TimerEvent α} (h : TimerStep s e s')
    (henter : e ≠ .enter) :
    (s'.phase.rest = s.phase.rest ∧ (∀ now, s.phase.Since now → s'.phase.Since now) ∧
        (∀ k, e ≠ .start k) ∧ ∀ k < s.phase.rest, e ≠ .finish k) ∨
      ∃ now rest t, s.phase = .walking now (rest + 1) ∧ s'.list = s.list ∧
        s.list.nodes[rest]? = some t ∧
        ((e = .start rest ∧ s'.phase = .firing now rest ∧ t.Due now) ∨
          (e = .skip rest ∧ s'.phase = .walking now rest ∧ ¬ t.Due now)) := by
  cases h with
  | tick => exact .inl ⟨rfl, fun _ h => h, nofun, nofun⟩
  | add => exact .inl ⟨rfl, fun _ h => h, nofun, nofun⟩
  | clear => exact .inl ⟨rfl, fun _ h => h, nofun, nofun⟩
  | enter => exact absurd rfl henter
  | start hk hdue => exact .inr ⟨_, _, _, rfl, rfl, hk, .inl ⟨rfl, rfl, hdue⟩⟩
  | skip hk hdue => exact .inr ⟨_, _, _, rfl, rfl, hk, .inr ⟨rfl, rfl, hdue⟩⟩
  | finish =>
    refine .inl ⟨rfl, fun _ h => h, nofun, fun k hk heq => ?_⟩
    rw [TimerEvent.finish.inj heq] at hk
    exact absurd hk (Nat.lt_irrefl k)
  | leave => exact .inl ⟨rfl, fun _ _ => trivial, nofun, nofun⟩

theorem PassInv.step {ns : List (Timer α)} {now : ℤ} {mid : List (TimerEvent α)}
    {s s' : TimerState α} {e : TimerEvent α} (hs : PassInv ns now mid s) (h : TimerStep s e s')
    (henter : e ≠ .enter) : PassInv ns now (mid ++ [e]) s' := by
  have hclear : ∀ {id : ℤ}, .clear id ∉ mid ++ [e] → .clear id ∉ mid ∧ e ≠ .clear id := by
    intro id hmem
    rw [List.mem_append, List.mem_singleton, not_or] at hmem
    exact ⟨hmem.1, fun heq => hmem.2 heq.symm⟩
  rcases h.rest henter with ⟨hrest, hsince, hstart, hfinish⟩ | ⟨now', rest, u, hphase, hlist, hu, hev⟩
  · have hstarts : starts (mid ++ [e]) = starts mid := by
      rw [starts_append, starts_singleton hstart, List.append_nil]
    refine ⟨hsince now hs.since, fun k t₀ hk ht₀ => ?_, fun k t₀ hk ht₀ hdue hmem => ?_, ?_, ?_, ?_⟩
    · rw [hrest] at hk
      obtain ⟨t, ht, hid, hdue, hback, hkept⟩ := hs.waiting k t₀ hk ht₀
      obtain ⟨t', ht', hnode⟩ := h.node ht
      obtain ⟨hdue', hactive'⟩ := hnode.kept (hfinish k hk)
      refine ⟨t', ht', hnode.id.trans hid, hdue'.trans hdue, fun h => hback (hnode.active h).1,
        fun hactive hmem => ?_⟩
      obtain ⟨hmid, hne⟩ := hclear hmem
      exact hactive' (hkept hactive hmid) (by rwa [hid])
    · rw [hrest] at hk
      rw [hstarts]
      exact hs.passed k t₀ hk ht₀ hdue (hclear hmem).1
    · rw [hstarts, hrest]
      exact hs.started
    · rw [hrest]
      exact hs.rest_le
    · rw [hstarts]
      exact hs.nodup
  · -- the walk passes the node `rest`
    have hrest : s.phase.rest = rest + 1 := by
      rw [hphase]
      rfl
    obtain rfl : now' = now := by
      have := hs.since
      rwa [hphase] at this
    have hrest' : s'.phase.rest = rest ∧ s'.phase.Since now' := by
      rcases hev with ⟨-, h, -⟩ | ⟨-, h, -⟩ <;> rw [h] <;> exact ⟨rfl, rfl⟩
    have hle := hs.rest_le
    have hnot : rest ∉ starts mid := fun hmem => by
      have := (hs.started rest hmem).1
      omega
    have hsub : ∀ k ∈ starts (mid ++ [e]), k ∈ starts mid ∨ k = rest := by
      intro k hk
      rw [starts_append, List.mem_append] at hk
      refine hk.imp_right fun hk => ?_
      have he := mem_starts_singleton.mp hk
      rcases hev with ⟨heq, -, -⟩ | ⟨heq, -, -⟩
      · exact TimerEvent.start.inj (he.symm.trans heq)
      · rw [heq] at he
        cases he
    refine ⟨hrest'.2, fun k t₀ hk ht₀ => ?_, fun k t₀ hk ht₀ hdue hmem => ?_, fun k hk => ?_, ?_, ?_⟩
    · rw [hrest'.1] at hk
      obtain ⟨t, ht, hid, hdue, hback, hkept⟩ := hs.waiting k t₀ (by omega) ht₀
      exact ⟨t, by rw [hlist, ht], hid, hdue, hback, fun hactive hmem =>
        hkept hactive (hclear hmem).1⟩
    · rw [starts_append, List.mem_append]
      rcases Nat.lt_or_ge rest k with hlt | hge
      · exact .inl (hs.passed k t₀ (by omega) ht₀ hdue (hclear hmem).1)
      · obtain rfl : k = rest := by omega
        obtain ⟨t, ht, -, hdueMs, -, hkept⟩ := hs.waiting k t₀ (by omega) ht₀
        obtain rfl : u = t := Option.some.inj (hu.symm.trans ht)
        have hdue' : u.Due now' := ⟨hkept hdue.1 (hclear hmem).1, hdueMs ▸ hdue.2⟩
        rcases hev with ⟨heq, -, -⟩ | ⟨-, -, hnot⟩
        · exact .inr (by rw [heq]; simp)
        · exact absurd hdue' hnot
    · rw [hrest'.1]
      rcases hsub k hk with hk | rfl
      · have := hs.started k hk
        omega
      · omega
    · omega
    · rw [starts_append]
      refine List.nodup_append.mpr ⟨hs.nodup, ?_, fun a ha b hb heq => ?_⟩
      · rcases hev with ⟨heq, -, -⟩ | ⟨heq, -, -⟩ <;> rw [heq] <;> simp [starts]
      · subst heq
        have hmem : a ∈ starts (mid ++ [e]) := by
          rw [starts_append, List.mem_append]
          exact .inr hb
        have he := mem_starts_singleton.mp hb
        rcases hev with ⟨heq, -, -⟩ | ⟨heq, -, -⟩
        · obtain rfl := TimerEvent.start.inj (he.symm.trans heq)
          exact hnot ha
        · rw [heq] at he
          cases he

/-- What a pass that has begun in `s₀` has done. -/
theorem passInv_of_steps {s₀ s : TimerState α} {mid : List (TimerEvent α)}
    (h : (timerSystem α).Steps s₀ (.enter :: mid) s) (henter : .enter ∉ mid) :
    PassInv s₀.list.nodes s₀.clock (.enter :: mid) s := by
  cases h with
  | cons hstep hrest =>
    cases hstep with
    | enter =>
      exact hrest.invariant [.enter]
        (fun done s e s' hI he hstep => hI.step hstep fun heq => henter (heq ▸ he))
        (passInv_enter _ _)

/-- **What the timers keep to**, in every run, whatever the callbacks do: a callback starts
only when its timer is active and due; a timer without an interval fires once at most; a
timer that is registered when its id is cleared does not fire behind that; and a pass
fires no timer twice, and none that was added while it runs. -/
theorem fires_discipline :
    (∀ es (s : TimerState α) k s', (timerSystem α).Run es s → TimerStep s (.start k) s' →
      ∃ t, s.list.nodes[k]? = some t ∧ t.active = true ∧ t.dueMs ≤ s.clock) ∧
    (∀ es (s : TimerState α) k t, (timerSystem α).Run es s → s.list.nodes[k]? = some t →
      t.intervalMs ≤ 0 → (starts es).count k ≤ 1) ∧
    (∀ es (s : TimerState α) k t, (timerSystem α).Run es s → s.list.nodes[k]? = some t →
      ∀ post s', (timerSystem α).Steps s (.clear t.id :: post) s' → k ∉ starts post) ∧
    (∀ es (s : TimerState α) mid s', (timerSystem α).Run es s →
      (timerSystem α).Steps s (.enter :: mid) s' → .enter ∉ mid →
      (starts mid).Nodup ∧ ∀ k ∈ starts mid, k < s.list.nodes.length) := by
  refine ⟨fun es s k s' hrun hstep => ?_, fun es s k t hrun hk hinterval => ?_,
    fun es s k t _ hk post s' hsteps => ?_, fun es s mid s' _ hsteps henter => ?_⟩
  · obtain ⟨now, t, hphase, -, -, hk, hdue⟩ := hstep.start_inv
    have hnow : now ≤ s.clock := by
      have := (runInv_of_run hrun).onTime
      rwa [TimerState.OnTime, hphase] at this
    exact ⟨t, hk, hdue.1, le_trans hdue.2 hnow⟩
  · exact ((runInv_of_run hrun).once k t hk hinterval).1
  · cases hsteps with
    | cons hclear hpost =>
      obtain ⟨t', hk', hnode⟩ := TimerStep.node hclear hk
      refine not_start_of_inactive hpost hk' ?_
      by_contra hne
      exact (hnode.active (by simpa using hne)).2 rfl
  · have hpass := passInv_of_steps hsteps henter
    exact ⟨hpass.nodup, fun k hk => (hpass.started k hk).2⟩

/-- One timer that clears the id 2 and adds a timer, which gets this id and fires in the
next pass. -/
def unbornClear : List (TimerEvent ℕ) :=
  [.enter, .start 0, .clear 2, .add 0 0 7, .finish 0, .leave, .enter, .start 1]

/-- A callback of an id starts behind a clear of that id, when the id was not handed out
yet. -/
theorem clear_unborn_id_fires :
    ∃ s t, (timerSystem ℕ).Run unbornClear s ∧ s.list.nodes[1]? = some t ∧ t.id = 2 ∧
      unbornClear = [.enter, .start 0] ++ .clear 2 :: [.add 0 0 7, .finish 0, .leave, .enter]
        ++ [.start 1] := by
  have h0 : (timerSystem ℕ).Run [] ⟨⟨[⟨1, 0, 0, 5, true⟩], 2⟩, 0, .idle⟩ := .nil ⟨rfl, by simp⟩
  have h1 := h0.snoc .enter
  have h2 := h1.snoc (l := TimerEvent.start 0) (.start rfl (by decide))
  have h3 := h2.snoc (l := TimerEvent.clear 2) (.clear trivial)
  have h4 := h3.snoc (l := TimerEvent.add 0 0 7) (.add trivial)
  have h5 := h4.snoc (.finish rfl)
  have h6 := h5.snoc .leave
  have h7 := h6.snoc .enter
  have h8 := h7.snoc (l := TimerEvent.start 1) (.start rfl (by decide))
  exact ⟨_, _, h8, rfl, rfl, rfl⟩

theorem fires_discipline_unbornClear :
    ∃ s t, (timerSystem ℕ).Run [.enter] s ∧ s.list.nodes[0]? = some t ∧ t.dueMs ≤ s.clock ∧
      (starts unbornClear).count 0 ≤ 1 := by
  have h0 : (timerSystem ℕ).Run [] ⟨⟨[⟨1, 0, 0, 5, true⟩], 2⟩, 0, .idle⟩ := .nil ⟨rfl, by simp⟩
  have h1 := h0.snoc .enter
  obtain ⟨t, ht, -, hdue⟩ := fires_discipline.1 _ _ 0 _ h1 (.start rfl (by decide))
  have h2 := h1.snoc (l := TimerEvent.start 0) (.start rfl (by decide))
  have h3 := h2.snoc (l := TimerEvent.clear 2) (.clear trivial)
  have h4 := h3.snoc (l := TimerEvent.add 0 0 7) (.add trivial)
  have h5 := h4.snoc (.finish rfl)
  have h6 := h5.snoc .leave
  have h7 := h6.snoc .enter
  have h8 := h7.snoc (l := TimerEvent.start 1) (.start rfl (by decide))
  exact ⟨_, t, h1, ht, hdue, fires_discipline.2.1 _ _ 0 _ h8 rfl (by decide)⟩

/-! ### The order of one pass -/

/-- Of two due timers the one with the later due time is not the later registered. -/
def DueOrdered (ns : List (Timer α)) (now : ℤ) : Prop :=
  ∀ (i j : ℕ) (tᵢ tⱼ : Timer α), i < j → ns[i]? = some tᵢ → ns[j]? = some tⱼ → tᵢ.Due now →
    tⱼ.Due now → tⱼ.dueMs ≤ tᵢ.dueMs

/-- A pass with the events `mid` fires in due-time order: no timer fires while one with an
earlier due time, which has not been cleared, is still to come. -/
def InOrder (ns : List (Timer α)) (now : ℤ) (mid : List (TimerEvent α)) : Prop :=
  ∀ (i j : ℕ) (tᵢ tⱼ : Timer α), ns[i]? = some tᵢ → ns[j]? = some tⱼ → tᵢ.Due now →
    tⱼ.Due now → tᵢ.dueMs < tⱼ.dueMs → ∀ a b, mid = a ++ .start j :: b →
    .clear tᵢ.id ∉ a → i ∈ starts a

theorem inOrder_of_dueOrdered {s s' : TimerState α} {mid : List (TimerEvent α)}
    (hordered : DueOrdered s.list.nodes s.clock)
    (h : (timerSystem α).Steps s (.enter :: mid) s') (henter : .enter ∉ mid) :
    InOrder s.list.nodes s.clock mid := by
  intro i j tᵢ tⱼ hi hj hdueᵢ hdueⱼ hlt a b hmid hclear
  subst hmid
  obtain ⟨s₁, s₂, hsteps, hstep⟩ := LTS.Steps.split (show LTS.Steps _ _ ((.enter :: a) ++ .start j :: b) _ from h)
  have hpass := passInv_of_steps hsteps fun hmem => henter (List.mem_append.mpr (.inl hmem))
  obtain ⟨now, t, hphase, -⟩ := TimerStep.start_inv hstep
  have hrest : s₁.phase.rest = j + 1 := by
    rw [hphase]
    rfl
  have hji : j < i := by
    rcases Nat.lt_trichotomy i j with hij | rfl | hji
    · have := hordered i j tᵢ tⱼ hij hi hj hdueᵢ hdueⱼ
      omega
    · obtain rfl := Option.some.inj (hi.symm.trans hj)
      omega
    · exact hji
  have hmem := hpass.passed i tᵢ (by omega) hi hdueᵢ (by simpa using hclear)
  simpa [starts] using hmem

/-- The walk can pass nodes whose callbacks do nothing, down to any node. -/
theorem quietWalk {g : TimerList α} {clock now : ℤ} {rest : ℕ} (hrest : rest ≤ g.nodes.length)
    (k : ℕ) (hk : k ≤ rest) :
    ∃ g' mid, (timerSystem α).Steps ⟨g, clock, .walking now rest⟩ mid
        ⟨g', clock, .walking now k⟩ ∧
      (∀ i < k, g'.nodes[i]? = g.nodes[i]?) ∧ g'.nodes.length = g.nodes.length ∧
      (∀ i ∈ starts mid, k ≤ i) ∧ .enter ∉ mid ∧ ∀ id, .clear id ∉ mid := by
  induction rest generalizing g with
  | zero =>
    obtain rfl : k = 0 := by omega
    exact ⟨g, [], .nil, fun _ _ => rfl, rfl, by simp, by simp, by simp⟩
  | succ rest ih =>
    rcases Nat.lt_or_ge rest k with hlt | hge
    · obtain rfl : k = rest + 1 := by omega
      exact ⟨g, [], .nil, fun _ _ => rfl, rfl, by simp, by simp, by simp⟩
    have hnode : g.nodes[rest]? = some g.nodes[rest] := List.getElem?_eq_getElem hrest
    by_cases hdue : g.nodes[rest].Due now
    · obtain ⟨g', mid, hsteps, hsame, hlen, hstarts, henter, hclear⟩ :=
        ih (g := { g with nodes := g.nodes.set rest (g.nodes[rest].fired clock) })
          (by rw [List.length_set]; omega) hge
      rw [List.length_set] at hlen
      refine ⟨g', .start rest :: .finish rest :: mid,
        .cons (.start hnode hdue) (.cons (.finish hnode) hsteps), fun i hi => ?_, hlen,
        fun i hi => ?_, by simpa using henter, by simpa using hclear⟩
      · rw [hsame i hi]
        exact List.getElem?_set_ne (by omega)
      · have hi' : i = rest ∨ i ∈ starts mid := by simpa [starts] using hi
        rcases hi' with rfl | hi'
        · exact hge
        · exact hstarts i hi'
    · obtain ⟨g', mid, hsteps, hsame, hlen, hstarts, henter, hclear⟩ :=
        ih (g := g) (by omega) hge
      exact ⟨g', .skip rest :: mid, .cons (.skip hnode hdue) hsteps, hsame, hlen,
        fun i hi => hstarts i (by simpa [starts] using hi), by simpa using henter,
        by simpa using hclear⟩

theorem dueOrdered_of_inOrder {g : TimerList α} {clock : ℤ}
    (h : ∀ mid s', (timerSystem α).Steps ⟨g, clock, .idle⟩ (.enter :: mid) s' → .enter ∉ mid →
      InOrder g.nodes clock mid) : DueOrdered g.nodes clock := by
  intro i j tᵢ tⱼ hij hi hj hdueᵢ hdueⱼ
  by_contra hlt
  have hjlt : j < g.nodes.length := (List.getElem?_eq_some_iff.mp hj).1
  obtain ⟨g', mid, hsteps, hsame, -, hstarts, henter, hclear⟩ :=
    quietWalk (Nat.le_refl g.nodes.length) (j + 1) hjlt
  have hrun : (timerSystem α).Steps ⟨g, clock, .idle⟩ (.enter :: (mid ++ [.start j]))
      ⟨g', clock, .firing clock j⟩ :=
    .cons .enter (hsteps.append (.cons (.start ((hsame j (by omega)).trans hj) hdueⱼ) .nil))
  have hmem := h _ _ hrun (by simpa using henter) i j tᵢ tⱼ hi hj hdueᵢ hdueⱼ (by omega) mid []
    rfl (hclear _)
  have := hstarts i hmem
  omega

/-- The condition on a step: a pass starts on a list that is due-ordered. -/
def StartsOrdered (s : TimerState α) (e : TimerEvent α) : Prop :=
  e = .enter → DueOrdered s.list.nodes s.clock

/-- **When timers fire in due-time order.** Every pass over a list fires in due-time order,
whatever its callbacks do, just when of two due timers the one with the later due time is
not the later registered; so in a run all of whose passes start on such lists every pass
fires in due-time order. -/
theorem inOrder_iff_dueOrdered :
    (∀ (g : TimerList α) (clock : ℤ),
      (∀ mid s', (timerSystem α).Steps ⟨g, clock, .idle⟩ (.enter :: mid) s' → .enter ∉ mid →
        InOrder g.nodes clock mid) ↔ DueOrdered g.nodes clock) ∧
    ∀ es (s : TimerState α) mid s', ((timerSystem α).restrict StartsOrdered).Run es s →
      ((timerSystem α).restrict StartsOrdered).Steps s (.enter :: mid) s' → .enter ∉ mid →
      InOrder s.list.nodes s.clock mid := by
  refine ⟨fun g clock => ⟨dueOrdered_of_inOrder, fun hordered mid s' h henter =>
    inOrder_of_dueOrdered hordered h henter⟩, fun es s mid s' _ h henter => ?_⟩
  cases h with
  | cons hstep hrest =>
    exact inOrder_of_dueOrdered (hstep.2 rfl) (.cons hstep.1 hrest.of_restrict) henter

/-- Timers for 2 ms and 1 ms, and a pass at 10 ms: the one for 1 ms fires first. -/
theorem inOrder_iff_dueOrdered_twoTimers :
    ∃ s : TimerState ℕ, s.list.nodes = [⟨1, 2, 0, 5, true⟩, ⟨2, 1, 0, 6, true⟩] ∧ s.clock = 10 ∧
      InOrder s.list.nodes s.clock [.start 1, .finish 1, .start 0] := by
  have h0 : ((timerSystem ℕ).restrict StartsOrdered).Run [] ⟨⟨[], 1⟩, 0, .idle⟩ :=
    .nil ⟨rfl, by simp⟩
  have h1 := h0.snoc (l := TimerEvent.add 2 0 5) ⟨.add trivial, nofun⟩
  have h2 := h1.snoc (l := TimerEvent.add 1 0 6) ⟨.add trivial, nofun⟩
  have h3 := h2.snoc (l := TimerEvent.tick 10) ⟨.tick (by decide), nofun⟩
  have hordered : DueOrdered [(⟨1, 2, 0, 5, true⟩ : Timer ℕ), ⟨2, 1, 0, 6, true⟩] 10 := by
    intro i j tᵢ tⱼ hij hi hj _ _
    have hlt : j < 2 := (List.getElem?_eq_some_iff.mp hj).1
    obtain ⟨rfl, rfl⟩ : i = 0 ∧ j = 1 := by omega
    obtain rfl := Option.some.inj hi
    obtain rfl := Option.some.inj hj
    decide
  exact ⟨_, rfl, rfl, inOrder_iff_dueOrdered.2 _ _ [.start 1, .finish 1, .start 0] _ h3
    (.cons ⟨.enter, fun _ => hordered⟩
      (.cons (l := TimerEvent.start 1) ⟨.start rfl (by decide), nofun⟩
        (.cons (l := TimerEvent.finish 1) ⟨.finish rfl, nofun⟩
          (.cons (l := TimerEvent.start 0) ⟨.start rfl (by decide), nofun⟩ .nil)))) (by simp)⟩

/-- Timers for 1 ms and 2 ms, and a pass at 10 ms. -/
def latePass : List (TimerEvent ℕ) := [.add 1 0 5, .add 2 0 6, .tick 10]

/-- The timer for 2 ms fires, and the one for 1 ms is still to come. -/
theorem latePass_out_of_order :
    ∃ s s' t₀ t₁, (timerSystem ℕ).Run latePass s ∧
      (timerSystem ℕ).Steps s (.enter :: [.start 1]) s' ∧ s.list.nodes = [t₀, t₁] ∧
      t₀.Due s.clock ∧ t₁.Due s.clock ∧ t₀.dueMs < t₁.dueMs ∧
      ¬ InOrder s.list.nodes s.clock [.start 1] := by
  have h0 : (timerSystem ℕ).Run [] ⟨⟨[], 1⟩, 0, .idle⟩ := .nil ⟨rfl, by simp⟩
  have h1 := h0.snoc (l := TimerEvent.add 1 0 5) (.add trivial)
  have h2 := h1.snoc (l := TimerEvent.add 2 0 6) (.add trivial)
  have h3 := h2.snoc (l := TimerEvent.tick 10) (.tick (by decide))
  refine ⟨_, _, ⟨1, 1, 0, 5, true⟩, ⟨2, 2, 0, 6, true⟩, h3,
    .cons .enter (.cons (l := TimerEvent.start 1) (.start rfl (by decide)) .nil), rfl, by decide, by decide,
    by decide, fun h => ?_⟩
  have hmem := h 0 1 ⟨1, 1, 0, 5, true⟩ ⟨2, 2, 0, 6, true⟩ rfl rfl (by decide) (by decide)
    (by decide) [] [] rfl (by simp)
  simp at hmem

end Jaguar
