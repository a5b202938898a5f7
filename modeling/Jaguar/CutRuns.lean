/-
Runs that are stopped.

Whoever watches a program may stop it, at a step of his own that he marks. A run without a
mark is a run of the program that is watched, and of such runs more can be said than of all.

* `Exec.Watch` — what a mark is, and what is said of the runs without one;
* `Exec.Stops` — a program that is another one but for where it is stopped;
* `Exec.Stops.bind`, `Exec.stops_act`, … — the rules of composition.
-/
import Jaguar.Exec

namespace Exec

universe u

variable {σ ι : Type*} {α β : Type u}

/-- Where the run ends, if it returns. -/
def Outcome.returned (o : Outcome σ ι α) : Option σ := o.value.map fun _ => o.state

/-- What is said of a run is about where it starts, its steps, and where it ends, if it returns;
`inv` holds between the parts of a run. -/
structure Watch (σ ι : Type*) where
  mark : Step σ ι → Bool
  inv : σ → Prop
  tells : σ → List (Step σ ι) → Option σ → Prop

/-- What is said of the parts of a run can be said of the run, and of a run up to any place. -/
class Watch.Lawful (W : Watch σ ι) : Prop where
  nil : ∀ s, W.tells s [] (some s)
  append : ∀ {s s' steps steps' r}, W.tells s steps (some s') → W.tells s' steps' r →
    W.tells s (steps ++ steps') r
  upTo : ∀ {s steps r}, W.tells s steps r → W.tells s steps none

/-- The run is as it is said to be. -/
structure Watch.Holds (W : Watch σ ι) (s : σ) (o : Outcome σ ι α) : Prop where
  tells : W.tells s o.steps o.returned
  inv : ∀ s' ∈ o.returned, W.inv s'

/-- A run of `m'` from a state that meets `pre` is that of `m`, unless it has a mark. -/
def Stops (W : Watch σ ι) (pre : σ → Prop) (m' m : Exec σ ι α) : Prop :=
  ∀ s, W.inv s → pre s → (∀ st ∈ (m' s).steps, W.mark st = false) →
    m s = m' s ∧ W.Holds s (m' s)

variable {W : Watch σ ι} {pre : σ → Prop} {m' m : Exec σ ι α}

theorem Stops.weaken {pre' : σ → Prop} (h : Stops W pre m' m) (hpre : ∀ s, pre' s → pre s) :
    Stops W pre' m' m :=
  fun s hinv hs hmarks => h s hinv (hpre s hs) hmarks

/-- A program that is not stopped. -/
theorem stops_self (h : ∀ s, W.inv s → pre s → W.Holds s (m s)) : Stops W pre m m :=
  fun s hinv hs _ => ⟨rfl, h s hinv hs⟩

theorem stops_ite {c : Prop} [Decidable c] {n' n : Exec σ ι α} (h : c → Stops W pre m' m)
    (h' : ¬ c → Stops W pre n' n) :
    Stops W pre (if c then m' else n') (if c then m else n) := by
  split
  · next hc => exact h hc
  · next hc => exact h' hc

/-- **Composition.** What the first part leaves is where the second part starts. -/
theorem Stops.bind [W.Lawful] {f' f : α → Exec σ ι β} {mid : α → σ → Prop}
    (hm : Stops W pre m' m)
    (hmid : ∀ s a, pre s → (m s).value = some a → mid a (m s).state)
    (hf : ∀ a, Stops W (mid a) (f' a) (f a)) : Stops W pre (m' >>= f') (m >>= f) := by
  intro s hinv hs hmarks
  cases hvalue : (m' s).value with
  | none =>
    rw [bind_of_none hvalue] at hmarks ⊢
    obtain ⟨heq, hholds⟩ := hm s hinv hs hmarks
    rw [← heq] at hvalue hholds ⊢
    refine ⟨bind_of_none hvalue, ?_, fun s' hs' => nomatch hs'⟩
    exact Watch.Lawful.upTo hholds.tells
  | some a =>
    rw [bind_of_some hvalue] at hmarks ⊢
    obtain ⟨heq, hholds⟩ := hm s hinv hs fun st hst => hmarks st (List.mem_append_left _ hst)
    rw [← heq] at hvalue hholds hmarks ⊢
    have hreturned : (m s).returned = some (m s).state := by rw [Outcome.returned, hvalue]; rfl
    obtain ⟨heq', hholds'⟩ := hf a (m s).state (hholds.inv _ hreturned) (hmid s a hs hvalue)
      fun st hst => hmarks st (List.mem_append_right _ hst)
    refine ⟨?_, ?_, hholds'.inv⟩
    · rw [bind_of_some hvalue, heq']
    · exact Watch.Lawful.append (hreturned ▸ hholds.tells) hholds'.tells

/-! ### Programs that are not stopped -/

section Whole

variable [W.Lawful]

/-- A program that does no step. -/
theorem stops_silent (hsilent : ∀ s, (m s).steps = [] ∧ (m s).state = s) : Stops W pre m m := by
  refine stops_self fun s hinv _ => ?_
  obtain ⟨hsteps, hstate⟩ := hsilent s
  have hnil : W.tells s [] (some s) := Watch.Lawful.nil s
  constructor
  · rw [hsteps, Outcome.returned, hstate]
    cases (m s).value with
    | none => exact Watch.Lawful.upTo hnil
    | some a => exact hnil
  · intro s' hs'
    obtain ⟨a, -, rfl⟩ := Option.map_eq_some_iff.mp hs'
    exact hstate.symm ▸ hinv

theorem stops_pure (a : α) : Stops W pre (pure a : Exec σ ι α) (pure a) :=
  stops_silent fun _ => ⟨rfl, rfl⟩

theorem stops_readSome (f : σ → Option α) :
    Stops W pre (readSome f : Exec σ ι α) (readSome f) :=
  stops_silent fun _ => ⟨rfl, rfl⟩

theorem stops_giveUp : Stops W pre (giveUp : Exec σ ι α) giveUp :=
  stops_silent fun _ => ⟨rfl, rfl⟩

/-- The program goes on with what it has read. -/
theorem stops_read_bind {g : σ → α} {f' f : α → Exec σ ι β}
    (h : ∀ a, Stops W (fun s => pre s ∧ g s = a) (f' a) (f a)) :
    Stops W pre (read g >>= f') (read g >>= f) := by
  refine Stops.bind (stops_silent fun _ => ⟨rfl, rfl⟩) (fun s a hs ha => ?_) h
  exact ⟨hs, Option.some.inj ha⟩

theorem stops_readSome_bind {g : σ → Option α} {f' f : α → Exec σ ι β}
    (h : ∀ a, Stops W (fun s => pre s ∧ g s = some a) (f' a) (f a)) :
    Stops W pre (readSome g >>= f') (readSome g >>= f) :=
  Stops.bind (stops_readSome g) (fun _ _ hs ha => ⟨hs, ha⟩) h

end Whole

/-- One step. -/
theorem stops_act {l : ι} {f : σ → σ}
    (h : ∀ s, W.inv s → pre s → W.tells s [⟨l, s, f s⟩] (some (f s)) ∧ W.inv (f s)) :
    Stops W pre (act l f) (act l f) := by
  refine stops_self fun s hinv hs => ⟨(h s hinv hs).1, fun s' hs' => ?_⟩
  exact Option.some.inj hs' ▸ (h s hinv hs).2

theorem stops_actSome [W.Lawful] {l : ι} {f : σ → Option σ}
    (h : ∀ s s', W.inv s → pre s → f s = some s' →
      W.tells s [⟨l, s, s'⟩] (some s') ∧ W.inv s') :
    Stops W pre (actSome l f) (actSome l f) := by
  refine stops_self fun s hinv hs => ?_
  unfold actSome
  split
  · next s' hf =>
    obtain ⟨htells, hinv'⟩ := h s s' hinv hs hf
    exact ⟨htells, fun t ht => Option.some.inj ht ▸ hinv'⟩
  · exact ⟨Watch.Lawful.upTo (Watch.Lawful.nil s), fun t ht => nomatch ht⟩

end Exec
