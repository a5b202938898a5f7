/-
Runs of a labelled transition system.

A system has initial states and a step relation whose steps carry labels; a run
is a finite sequence of labels leading from an initial state to some state.

* `LTS.Run.invariant` — what holds of the empty run and is preserved by one
  step holds of every run and of the state it ends in;
* `LTS.Run.simulate` — a run of one system is followed by a run of another one;
* `LTS.Run.split` — a run through a label passes through the two states before
  and after that step;
* `LTS.Steps`, `LTS.Steps.invariant` — the same for steps from any state, as they
  continue a run;
* `LTS.restrict` — the system whose steps all meet a condition: its runs are
  the runs of the original all of whose steps meet it.
-/
import Mathlib.Data.Nat.Notation
import Mathlib.Tactic.Basic
import Mathlib.Order.Notation

/-- A labelled transition system. -/
structure LTS (σ ι : Type*) where
  /-- Where a run may start. -/
  init : σ → Prop
  /-- `step s l s'`: from `s` a step labelled `l` may lead to `s'`. -/
  step : σ → ι → σ → Prop

namespace LTS

variable {σ ι : Type*} {S : LTS σ ι}

/-- `S.Run ls s`: the labels `ls`, oldest first, lead from an initial state to `s`. -/
inductive Run (S : LTS σ ι) : List ι → σ → Prop
  | nil {s : σ} : S.init s → Run S [] s
  | snoc {ls : List ι} {s s' : σ} {l : ι} :
      Run S ls s → S.step s l s' → Run S (ls ++ [l]) s'

/-- A state is reachable when some run ends in it. -/
def Reachable (S : LTS σ ι) (s : σ) : Prop := ∃ ls, S.Run ls s

/-- **The invariant rule.**  The step may use the invariant before it. -/
theorem Run.invariant {I : List ι → σ → Prop} (init : ∀ s, S.init s → I [] s)
    (step : ∀ ls s l s', I ls s → S.step s l s' → I (ls ++ [l]) s') :
    ∀ {ls s}, S.Run ls s → I ls s := by
  intro ls s h
  induction h with
  | nil h0 => exact init _ h0
  | snoc _ hs ih => exact step _ _ _ _ ih hs

/-- **The simulation rule.** A relation that every step of `S` can be followed along leads from a
run of `S` to one of `S'` with the same labels. -/
theorem Run.simulate {σ' : Type*} {S' : LTS σ' ι} {R : σ → σ' → Prop}
    (init : ∀ s, S.init s → ∃ t, S'.init t ∧ R s t)
    (step : ∀ s t l s', R s t → S.step s l s' → ∃ t', S'.step t l t' ∧ R s' t') {ls : List ι}
    {s : σ} (h : S.Run ls s) : ∃ t, S'.Run ls t ∧ R s t := by
  induction h with
  | nil h0 =>
    obtain ⟨t, ht, hrel⟩ := init _ h0
    exact ⟨t, .nil ht, hrel⟩
  | snoc _ hs ih =>
    obtain ⟨t, hrun, hrel⟩ := ih
    obtain ⟨t', hstep, hrel'⟩ := step _ _ _ _ hrel hs
    exact ⟨t', .snoc hrun hstep, hrel'⟩

/-- A run through `l` splits there, into a run to some `s` and a step from it. -/
theorem Run.split {ls : List ι} {t : σ} (h : S.Run ls t) :
    ∀ {pre post : List ι} {l : ι}, ls = pre ++ l :: post →
      ∃ s s', S.Run pre s ∧ S.step s l s' := by
  induction h with
  | nil h0 =>
    intro pre post l h
    simp at h
  | @snoc ls s s' l' hrun hstep ih =>
    intro pre post l h
    rcases List.eq_nil_or_concat post with rfl | ⟨post', x, rfl⟩
    · obtain ⟨rfl, hl⟩ := List.append_inj' h rfl
      simp only [List.cons.injEq, and_true] at hl
      subst hl
      exact ⟨s, s', hrun, hstep⟩
    · have hcut : ls ++ [l'] = (pre ++ l :: post') ++ [x] := by simpa using h
      exact ih (List.append_inj' hcut rfl).1

/-- `S.Steps s ls s'`: the labels `ls` lead from `s` to `s'`. -/
inductive Steps (S : LTS σ ι) : σ → List ι → σ → Prop
  | nil {s : σ} : Steps S s [] s
  | cons {s s' s'' : σ} {l : ι} {ls : List ι} :
      S.step s l s' → Steps S s' ls s'' → Steps S s (l :: ls) s''

theorem Run.append {ls ls' : List ι} {s s' : σ} (h : S.Run ls s) (h' : S.Steps s ls' s') :
    S.Run (ls ++ ls') s' := by
  induction h' generalizing ls with
  | nil => rwa [List.append_nil]
  | @cons s s₁ s' l ls' hstep _ ih =>
    have hrun := ih (.snoc h hstep)
    rwa [List.append_assoc] at hrun

theorem Steps.append {ls ls' : List ι} {s s' s'' : σ} (h : S.Steps s ls s')
    (h' : S.Steps s' ls' s'') : S.Steps s (ls ++ ls') s'' := by
  induction h with
  | nil => exact h'
  | cons hstep _ ih => exact .cons hstep (ih h')

/-- **The invariant rule for steps that follow `done`.** -/
theorem Steps.invariant {I : List ι → σ → Prop} {ls : List ι} {s s' : σ}
    (h : S.Steps s ls s') (done : List ι)
    (step : ∀ done s l s', I done s → l ∈ ls → S.step s l s' → I (done ++ [l]) s')
    (hI : I done s) : I (done ++ ls) s' := by
  induction h generalizing done with
  | nil => rwa [List.append_nil]
  | @cons s s₁ s' l ls hstep _ ih =>
    have hrest := ih (done ++ [l])
      (fun done s l' s' hI hl => step done s l' s' hI (List.mem_cons_of_mem l hl))
      (step done s l s₁ hI List.mem_cons_self hstep)
    rwa [List.append_assoc] at hrest

/-- The system whose steps are the steps of `S` that meet `C` (a condition on
the state before the step and on its label). -/
def restrict (S : LTS σ ι) (C : σ → ι → Prop) : LTS σ ι where
  init := S.init
  step s l s' := S.step s l s' ∧ C s l

theorem Run.of_restrict {C : σ → ι → Prop} {ls : List ι} {s : σ}
    (h : (S.restrict C).Run ls s) : S.Run ls s := by
  induction h with
  | nil h0 => exact .nil h0
  | snoc _ hs ih => exact .snoc ih hs.1

theorem Steps.of_restrict {C : σ → ι → Prop} {ls : List ι} {s s' : σ}
    (h : (S.restrict C).Steps s ls s') : S.Steps s ls s' := by
  induction h with
  | nil => exact .nil
  | cons hs _ ih => exact .cons hs.1 ih

/-- Steps through `l` split there. -/
theorem Steps.split {s s' : σ} {ls post : List ι} {l : ι} (h : S.Steps s (ls ++ l :: post) s') :
    ∃ s₁ s₂, S.Steps s ls s₁ ∧ S.step s₁ l s₂ := by
  induction ls generalizing s with
  | nil =>
    cases h with
    | cons hstep _ => exact ⟨s, _, .nil, hstep⟩
  | cons l' ls ih =>
    cases h with
    | cons hstep hrest =>
      obtain ⟨s₁, s₂, hsteps, hlast⟩ := ih hrest
      exact ⟨s₁, s₂, .cons hstep hsteps, hlast⟩

end LTS
