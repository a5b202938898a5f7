/-
Two runs of state functions that may fail, side by side.

`Tracks S V m m'` says that from states related by `S` the run of `m'` returns wherever that of
`m` does, and then the states behind the two are related again, and the values by `V`. It is
proved along the bodies of `m` and `m'`, rule by rule; a loop by induction on its bound.

* `Tracks.bind`, `Tracks.then` — running one after the other;
* `tracks_ite`, `tracks_bool` — branches that are taken alike.

`Settles good S m` is for functions that go on after a failure: a run of `m` that ends in a good
state also started in one, and it returns the same value from every state related to that one. Of
runs that do not end well nothing is said, so they need not be followed.

* `Settles.bind`, `settles_ite` — the rules;
* `settles_of_bad` — a run that cannot end well.
-/
import Mathlib.Data.Nat.Notation
import Mathlib.Tactic.Basic

namespace Jaguar

variable {σ σ' α α' β β' : Type} {S : σ → σ' → Prop} {V W : α → α' → Prop} {U : β → β' → Prop}

def Tracks (S : σ → σ' → Prop) (V : α → α' → Prop) (m : StateT σ Option α)
    (m' : StateT σ' Option α') : Prop :=
  ∀ s s', S s s' → ∀ a t, m s = some (a, t) → ∃ a' t', m' s' = some (a', t') ∧ S t t' ∧ V a a'

/-- Values that nothing is said about. -/
def AnyTwo (_ : α) (_ : α') : Prop := True

section

variable {m n : StateT σ Option α} {m' n' : StateT σ' Option α'} {f : α → StateT σ Option β}
  {f' : α' → StateT σ' Option β'}

theorem tracks_pure {a : α} {a' : α'} (h : V a a') :
    Tracks S V (pure a : StateT σ Option α) (pure a' : StateT σ' Option α') := by
  rintro s s' hs b t hrun
  obtain ⟨rfl, rfl⟩ := Prod.mk.inj (Option.some.inj hrun)
  exact ⟨a', s', rfl, hs, h⟩

theorem tracks_of_none (h : ∀ s, m s = none) : Tracks S V m m' := by
  rintro s s' - a t hrun
  rw [h] at hrun
  cases hrun

theorem Tracks.bind (hm : Tracks S V m m') (hf : ∀ a a', V a a' → Tracks S U (f a) (f' a')) :
    Tracks S U (m >>= f) (m' >>= f') := by
  rintro s s' hs b t hrun
  have hbind : (m >>= f) s = (m s).bind fun x => f x.1 x.2 := rfl
  have hbind' : (m' >>= f') s' = (m' s').bind fun x => f' x.1 x.2 := rfl
  rw [hbind] at hrun
  obtain ⟨⟨a, s₁⟩, hfirst, hrest⟩ := Option.bind_eq_some_iff.mp hrun
  obtain ⟨a', s₁', hfirst', hs₁, ha⟩ := hm s s' hs a s₁ hfirst
  obtain ⟨b', t', hrest', ht, hb⟩ := hf a a' ha s₁ s₁' hs₁ b t hrest
  exact ⟨b', t', by rw [hbind', hfirst', Option.bind_some, hrest'], ht, hb⟩

theorem Tracks.then (hm : Tracks S AnyTwo m m') (hf : ∀ a a', Tracks S U (f a) (f' a')) :
    Tracks S U (m >>= f) (m' >>= f') := hm.bind fun a a' _ => hf a a'

/-- What only the first run does, and what leaves it related to where the second one stands. -/
theorem tracks_left {n' : StateT σ' Option β'}
    (hm : ∀ s s' a t, S s s' → m s = some (a, t) → S t s') (hf : ∀ a, Tracks S U (f a) n') :
    Tracks S U (m >>= f) n' := by
  rintro s s' hs b t hrun
  have hbind : (m >>= f) s = (m s).bind fun x => f x.1 x.2 := rfl
  rw [hbind] at hrun
  obtain ⟨⟨a, s₁⟩, hfirst, hrest⟩ := Option.bind_eq_some_iff.mp hrun
  exact hf a s₁ s' (hm s s' a s₁ hs hfirst) b t hrest

theorem Tracks.map {g : α → β} {g' : α' → β'} (hm : Tracks S AnyTwo m m') :
    Tracks S AnyTwo (g <$> m) (g' <$> m') :=
  hm.then fun _ _ => tracks_pure trivial

theorem tracks_ite {c c' : Prop} [Decidable c] [Decidable c'] (hc : c ↔ c')
    (hm : Tracks S V m m') (hn : Tracks S V n n') :
    Tracks S V (if c then m else n) (if c' then m' else n') := by
  by_cases h : c
  · rw [if_pos h, if_pos (hc.mp h)]
    exact hm
  · rw [if_neg h, if_neg fun h' => h (hc.mpr h')]
    exact hn

/-- Branches on what is tested alike. -/
theorem tracks_bool {b : StateT σ Option Bool} {b' : StateT σ' Option Bool} (hb : Tracks S Eq b b')
    (hm : Tracks S V m m') (hn : Tracks S V n n') :
    Tracks S V (b >>= fun c => if c then m else n) (b' >>= fun c => if c then m' else n') := by
  refine hb.bind fun c c' hc => ?_
  subst hc
  exact tracks_ite Iff.rfl hm hn

end

/-! ### Runs that end well -/

section

variable {good : σ → Prop} {R : σ → σ → Prop} {m n : StateT σ Option α} {f : α → StateT σ Option β}

def Settles (good : σ → Prop) (R : σ → σ → Prop) (m : StateT σ Option α) : Prop :=
  ∀ s a t, m s = some (a, t) → good t →
    good s ∧ ∀ s', R s s' → ∃ t', m s' = some (a, t') ∧ R t t'

theorem settles_pure {a : α} : Settles good R (pure a : StateT σ Option α) := by
  intro s b t hrun hgood
  obtain ⟨rfl, rfl⟩ := Prod.mk.inj (Option.some.inj hrun)
  exact ⟨hgood, fun s' hs' => ⟨s', rfl, hs'⟩⟩

theorem settles_of_none (h : ∀ s, m s = none) : Settles good R m := by
  intro s a t hrun
  rw [h] at hrun
  cases hrun

theorem settles_of_bad (h : ∀ s a t, m s = some (a, t) → ¬ good t) : Settles good R m :=
  fun s a t hrun hgood => absurd hgood (h s a t hrun)

theorem Settles.bind (hm : Settles good R m) (hf : ∀ a, Settles good R (f a)) :
    Settles good R (m >>= f) := by
  intro s b t hrun hgood
  have hbind : ∀ s, (m >>= f) s = (m s).bind fun x => f x.1 x.2 := fun _ => rfl
  rw [hbind] at hrun
  obtain ⟨⟨a, s₁⟩, hfirst, hrest⟩ := Option.bind_eq_some_iff.mp hrun
  obtain ⟨hgood₁, hsecond⟩ := hf a s₁ b t hrest hgood
  obtain ⟨hgood₀, hstart⟩ := hm s a s₁ hfirst hgood₁
  refine ⟨hgood₀, fun s' hs' => ?_⟩
  obtain ⟨s₁', hfirst', hs₁'⟩ := hstart s' hs'
  obtain ⟨t', hrest', ht'⟩ := hsecond s₁' hs₁'
  exact ⟨t', by rw [hbind, hfirst', Option.bind_some, hrest'], ht'⟩

theorem settles_ite {c : Prop} [Decidable c] (hm : Settles good R m) (hn : Settles good R n) :
    Settles good R (if c then m else n) := by
  split
  · exact hm
  · exact hn

end

end Jaguar
