/-
Lexical scopes.

Scopes of type `ι` bind names of type `κ` to values of type `β`; a name is looked up along
a path of scopes, nearest first.  Paths may share scopes, as the paths of the nodes of a
tree share those of their common ancestors.

* `Scopes.bind_apply` — what a definition changes;
* `Scopes.assign_fst` — an assignment succeeds when the binding found is not fixed.
-/
import Mathlib.Logic.Function.Basic

/-- What a name stands for in a scope. -/
structure Binding (β : Type*) where
  value : β
  fixed : Bool

/-- What every scope binds every name to. -/
abbrev Scopes (ι κ β : Type*) := ι → κ → Option (Binding β)

namespace Scopes

variable {ι κ β : Type*}

/-- The binding in the nearest scope that has one, with that scope. -/
def lookup (S : Scopes ι κ β) : List ι → κ → Option (ι × Binding β)
  | [], _ => none
  | i :: path, x =>
    match S i x with
    | some b => some (i, b)
    | none => lookup S path x

section Update

variable [DecidableEq ι] [DecidableEq κ]

/-- A definition: it replaces what the scope bound the name to. -/
def bind (S : Scopes ι κ β) (i : ι) (x : κ) (b : Binding β) : Scopes ι κ β :=
  Function.update S i (Function.update (S i) x (some b))

theorem bind_apply (S : Scopes ι κ β) (i : ι) (x : κ) (b : Binding β) (j : ι) (y : κ) :
    S.bind i x b j y = if j = i ∧ y = x then some b else S j y := by
  unfold bind
  by_cases hj : j = i
  · subst hj
    rw [Function.update_self]
    by_cases hy : y = x
    · rw [hy, Function.update_self, if_pos ⟨rfl, rfl⟩]
    · rw [Function.update_of_ne hy, if_neg fun h => hy h.2]
  · rw [Function.update_of_ne hj, if_neg fun h => hj h.1]

/-- An assignment changes the value of the binding found, unless that is fixed; it says
whether it did. -/
def assign (S : Scopes ι κ β) (path : List ι) (x : κ) (v : β) : Bool × Scopes ι κ β :=
  match lookup S path x with
  | some (i, b) => if b.fixed then (false, S) else (true, S.bind i x { b with value := v })
  | none => (false, S)

/-- **An assignment succeeds when the binding found is not fixed.** -/
theorem assign_fst {S : Scopes ι κ β} {path : List ι} {x : κ} {v : β} :
    (S.assign path x v).1 = true ↔ ∃ i b, lookup S path x = some (i, b) ∧ b.fixed = false := by
  unfold assign
  cases hfind : lookup S path x with
  | none =>
    constructor
    · intro h
      cases h
    · rintro ⟨i, b, h, -⟩
      cases h
  | some p =>
    obtain ⟨i, b⟩ := p
    dsimp only
    cases hb : b.fixed with
    | true =>
      constructor
      · intro h
        cases h
      · rintro ⟨j, c, h, hc⟩
        obtain ⟨rfl, rfl⟩ := Prod.mk.inj (Option.some.inj h)
        rw [hb] at hc
        cases hc
    | false => exact ⟨fun _ => ⟨i, b, rfl, hb⟩, fun _ => rfl⟩

end Update

end Scopes
