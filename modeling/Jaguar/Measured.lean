/-
State functions that may run out of fuel, judged by a measure of the state.

`ReturnsAt μ n R m s` says two things about a run of `m` from `s`: if the measure of
`s` is below `n` then the run returns, and if it returns, the state it ends in is
related to `s` by `R`. Both are proved in one pass over the body of `m`.

* `ReturnsAt.exists_eq`, `ReturnsAt.rel` — the two readings;
* `ReturnsAt.bind` — running one after the other, when the first takes as much off the
  measure as the second's bound is smaller;
* `Returns.mono` — a smaller bound is a weaker statement.
-/
import Mathlib.Data.Nat.Notation
import Mathlib.Tactic.Basic

namespace Jaguar

variable {σ α β : Type} {μ : σ → ℕ} {n k : ℕ} {R S T : σ → σ → Prop}

def ReturnsAt (μ : σ → ℕ) (n : ℕ) (R : σ → σ → Prop) (m : StateT σ Option α) (s : σ) : Prop :=
  match m s with
  | none => n ≤ μ s
  | some x => R s x.2

def Returns (μ : σ → ℕ) (n : ℕ) (R : σ → σ → Prop) (m : StateT σ Option α) : Prop :=
  ∀ s, ReturnsAt μ n R m s

/-- Where `m` returns. -/
theorem ReturnsAt.rel {m : StateT σ Option α} {s : σ} (h : ReturnsAt μ n R m s) {a : α} {s' : σ}
    (hm : m s = some (a, s')) : R s s' := by
  unfold ReturnsAt at h
  rw [hm] at h
  exact h

/-- That `m` returns. -/
theorem ReturnsAt.exists_eq {m : StateT σ Option α} {s : σ} (h : ReturnsAt μ n R m s)
    (hs : μ s < n) : ∃ a s', m s = some (a, s') ∧ R s s' := by
  cases hm : m s with
  | none =>
    unfold ReturnsAt at h
    rw [hm] at h
    exact absurd hs (Nat.not_lt_of_le h)
  | some x => exact ⟨x.1, x.2, rfl, h.rel hm⟩

theorem ReturnsAt.mono {m : StateT σ Option α} {s : σ} (h : ReturnsAt μ n R m s) (hk : k ≤ n)
    (hR : ∀ s', R s s' → S s s') : ReturnsAt μ k S m s := by
  cases hm : m s with
  | none =>
    unfold ReturnsAt at h ⊢
    rw [hm] at h ⊢
    exact Nat.le_trans hk h
  | some x =>
    unfold ReturnsAt
    rw [hm]
    exact hR _ (h.rel hm)

theorem Returns.mono {m : StateT σ Option α} (h : Returns μ n R m) (hk : k ≤ n) :
    Returns μ k R m :=
  fun s => (h s).mono hk fun _ => id

theorem Returns.weaken {m : StateT σ Option α} (h : Returns μ n R m)
    (hR : ∀ s s', R s s' → S s s') : Returns μ n S m :=
  fun s => (h s).mono (Nat.le_refl _) (hR s)

/-- The monad, spelled out. -/
theorem stateT_pure_eq {a : α} {s : σ} : (pure a : StateT σ Option α) s = some (a, s) := rfl

theorem stateT_bind_eq {m : StateT σ Option α} {f : α → StateT σ Option β} {s : σ} :
    (m >>= f) s = match m s with
      | none => none
      | some (a, s') => f a s' := by
  show (m s).bind _ = _
  cases m s <;> rfl

/-- Running `m` and then `f`. -/
theorem ReturnsAt.bind {m : StateT σ Option α} {f : α → StateT σ Option β} {s : σ}
    (hm : ReturnsAt μ n R m s)
    (hf : ∀ a s', m s = some (a, s') → R s s' → ReturnsAt μ k S (f a) s')
    (hμ : ∀ s', R s s' → n + μ s' ≤ μ s + k)
    (hcomp : ∀ s' s'', R s s' → S s' s'' → T s s'') : ReturnsAt μ n T (m >>= f) s := by
  unfold ReturnsAt
  rw [stateT_bind_eq]
  cases hms : m s with
  | none =>
    unfold ReturnsAt at hm
    rw [hms] at hm
    exact hm
  | some x =>
    obtain ⟨a, s'⟩ := x
    have hR := hm.rel hms
    have hfa := hf a s' hms hR
    have hle := hμ s' hR
    unfold ReturnsAt at hfa
    dsimp only
    cases hfs : f a s' with
    | none =>
      rw [hfs] at hfa
      dsimp only at hfa ⊢
      omega
    | some y =>
      rw [hfs] at hfa
      exact hcomp s' y.2 hR hfa

end Jaguar
