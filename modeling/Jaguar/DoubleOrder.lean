/-
The order of doubles.

Two doubles that are numbers are compared by their class (negative infinity, negative, zero,
positive, infinity), then by exponent, then by mantissa; so they stand as their ranks do,
which are triples of integers in lexicographic order.

* `unpackedRank`, `compare_compares` — the triple, and what a comparison says of it;
* `float_lt_iff`, `float_le_iff`, `float_beq_iff` — **`<`, `≤` and `==` by rank**.
-/
import Jaguar.Double
import Mathlib.Data.Prod.Lex

namespace Jaguar

open Float.Model Float.Model.UnpackedFloat

abbrev Rank := ℤ ×ₗ ℤ ×ₗ ℤ

def Rank.mk (c e m : ℤ) : Rank := toLex (c, toLex (e, m))

/-- Where a number stands among the doubles. -/
def unpackedRank (u : UnpackedFloat) : Rank :=
  match u with
  | .infinity .positive => Rank.mk 2 0 0
  | .infinity .negative => Rank.mk (-2) 0 0
  | .finite .positive m e _ => Rank.mk 1 e m
  | .finite .negative m e _ => Rank.mk (-1) (-e) (-m)
  | .zero _ | .notANumber => Rank.mk 0 0 0

theorem Rank.mk_lt {c e m c' e' m' : ℤ} :
    Rank.mk c e m < Rank.mk c' e' m' ↔ c < c' ∨ c = c' ∧ (e < e' ∨ e = e' ∧ m < m') := by
  simp [Rank.mk, Prod.Lex.toLex_lt_toLex]

theorem Rank.mk_inj {c e m c' e' m' : ℤ} :
    Rank.mk c e m = Rank.mk c' e' m' ↔ c = c' ∧ e = e' ∧ m = m' := by
  simp [Rank.mk]

/-- The comparison of two numbers of the same sign. -/
theorem compares_finite (c e e' : ℤ) (m m' : ℕ) :
    ((compare e e').then (compare m m')).Compares (Rank.mk c e m) (Rank.mk c e' m') := by
  rcases lt_trichotomy e e' with he | rfl | he
  · rw [compare_lt_iff_lt.mpr he]
    exact Rank.mk_lt.mpr (.inr ⟨rfl, .inl he⟩)
  · rw [compare_eq_iff_eq.mpr rfl]
    rcases lt_trichotomy m m' with hm | rfl | hm
    · rw [compare_lt_iff_lt.mpr hm]
      exact Rank.mk_lt.mpr (.inr ⟨rfl, .inr ⟨rfl, Int.ofNat_lt.mpr hm⟩⟩)
    · rw [compare_eq_iff_eq.mpr rfl]
      exact rfl
    · rw [compare_gt_iff_gt.mpr hm]
      exact Rank.mk_lt.mpr (.inr ⟨rfl, .inr ⟨rfl, Int.ofNat_lt.mpr hm⟩⟩)
  · rw [compare_gt_iff_gt.mpr he]
    exact Rank.mk_lt.mpr (.inr ⟨rfl, .inl he⟩)

/-- Where the signs are turned, so is the order. -/
theorem compares_neg {c e e' m m' : ℤ} {o : Ordering}
    (h : o.Compares (Rank.mk c e m) (Rank.mk c e' m')) :
    o.swap.Compares (Rank.mk (-c) (-e) (-m)) (Rank.mk (-c) (-e') (-m')) := by
  cases o with
  | lt =>
    have hlt := Rank.mk_lt.mp h
    exact Rank.mk_lt.mpr (by omega)
  | eq =>
    have heq := Rank.mk_inj.mp h
    exact Rank.mk_inj.mpr (by omega)
  | gt =>
    have hgt := Rank.mk_lt.mp h
    exact Rank.mk_lt.mpr (by omega)

/-- **What a comparison of two numbers returns.** -/
theorem compare_compares {a b : UnpackedFloat} (ha : a.isNaN = false) (hb : b.isNaN = false) :
    ∃ o, a.compare b = some o ∧ o.Compares (unpackedRank a) (unpackedRank b) := by
  have hmk : ∀ {c e m c' e' m' : ℤ}, c < c' → Rank.mk c e m < Rank.mk c' e' m' := fun h =>
    Rank.mk_lt.mpr (.inl h)
  cases a with
  | notANumber => cases ha
  | infinity s =>
    cases b with
    | notANumber => cases hb
    | infinity s' =>
      rcases s with _ | _ <;> rcases s' with _ | _ <;> refine ⟨_, rfl, ?_⟩
      · exact rfl
      · exact hmk (by decide)
      · exact hmk (by decide)
      · exact rfl
    | zero s' => rcases s with _ | _ <;> exact ⟨_, rfl, hmk (by decide)⟩
    | finite s' m e hm =>
      rcases s with _ | _ <;> rcases s' with _ | _ <;> exact ⟨_, rfl, hmk (by decide)⟩
  | zero s =>
    cases b with
    | notANumber => cases hb
    | infinity s' => rcases s' with _ | _ <;> exact ⟨_, rfl, hmk (by decide)⟩
    | zero s' => exact ⟨_, rfl, rfl⟩
    | finite s' m e hm => rcases s' with _ | _ <;> exact ⟨_, rfl, hmk (by decide)⟩
  | finite s m e hm =>
    cases b with
    | notANumber => cases hb
    | infinity s' =>
      rcases s with _ | _ <;> rcases s' with _ | _ <;> exact ⟨_, rfl, hmk (by decide)⟩
    | zero s' => rcases s with _ | _ <;> exact ⟨_, rfl, hmk (by decide)⟩
    | finite s' m' e' hm' =>
      rcases s with _ | _ <;> rcases s' with _ | _ <;> refine ⟨_, rfl, ?_⟩
      · exact compares_neg (compares_finite 1 e e' m m')
      · exact hmk (by decide)
      · exact hmk (by decide)
      · exact compares_finite 1 e e' m m'

/-! ### Doubles -/

def floatRank (x : Float) : Rank := unpackedRank x.toModel.unpack

section Float

variable {x y : Float}

theorem float_compares (hx : x.isNaN = false) (hy : y.isNaN = false) :
    ∃ o, x.toModel.unpack.compare y.toModel.unpack = some o ∧
      o.Compares (floatRank x) (floatRank y) :=
  compare_compares hx hy

theorem float_lt_iff (hx : x.isNaN = false) (hy : y.isNaN = false) :
    x < y ↔ floatRank x < floatRank y := by
  obtain ⟨o, ho, hcompares⟩ := float_compares hx hy
  have hlt : x < y ↔ o = .lt := by
    refine Iff.trans (decide_eq_true_iff (p := x.toModel < y.toModel)) ?_
    show (x.toModel.unpack.compare y.toModel.unpack == some .lt) = true ↔ _
    rw [ho]
    cases o <;> decide
  rw [hlt]
  exact hcompares.eq_lt

theorem float_le_iff (hx : x.isNaN = false) (hy : y.isNaN = false) :
    x ≤ y ↔ floatRank x ≤ floatRank y := by
  obtain ⟨o, ho, hcompares⟩ := float_compares hx hy
  have hle : x ≤ y ↔ o ≠ .gt := by
    refine Iff.trans (decide_eq_true_iff (p := x.toModel ≤ y.toModel)) ?_
    show ((x.toModel.unpack.compare y.toModel.unpack).any (·.isLE)) = true ↔ _
    rw [ho]
    cases o <;> decide
  rw [hle, ne_eq, hcompares.eq_gt, not_lt]

theorem float_beq_iff (hx : x.isNaN = false) (hy : y.isNaN = false) :
    (x == y) = true ↔ floatRank x = floatRank y := by
  obtain ⟨o, ho, hcompares⟩ := float_compares hx hy
  have hbeq : (x == y) = true ↔ o = .eq := by
    show (x.toModel.unpack.compare y.toModel.unpack == some .eq) = true ↔ _
    rw [ho]
    cases o <;> decide
  rw [hbeq]
  exact hcompares.eq_eq

end Float

end Jaguar
