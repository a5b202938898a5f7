/-
Arithmetic on `num`s.

Every operator takes its operands as doubles and casts them back: what it returns is exact for
the integers nearest to them. `slip` is what the rounding adds.

* `exactResult` — what an operator makes of two integers;
* `Survives` — when the slips of the operands do no harm;
* `mul_nearest_iff`, `tmod_nearest_iff`, `lt_nearest_iff` — what the slips do to a product, to a
  remainder, to the order;
* `exactLaw_iff` — **the result is exact just then**;
* `plus_loses_one` — `9007199254740993 + 0`.
-/
import Jaguar.Sessions
import Jaguar.NearestDouble
import Mathlib.Algebra.Order.Ring.Abs

namespace Jaguar

/-- The range of a `num`. -/
def IsLong (n : ℤ) : Prop := -2 ^ 63 ≤ n ∧ n < 2 ^ 63

instance (n : ℤ) : Decidable (IsLong n) := inferInstanceAs (Decidable (_ ∧ _))

/-- What an operator makes of two integers: none for the other operators, where the result is no
`num`, and where C leaves it open. -/
def exactResult (op : TokenType) (a b : ℤ) : Option Value :=
  match op with
  | .plus => if IsLong (a + b) then some (.num (a + b)) else none
  | .minus => if IsLong (a - b) then some (.num (a - b)) else none
  | .star => if IsLong (a * b) then some (.num (a * b)) else none
  | .percent => if b ≠ 0 ∧ IsLong (a.tdiv b) then some (.num (a.tmod b)) else none
  | .eq => some (.bool (a = b))
  | .ne => some (.bool (a ≠ b))
  | .lt => some (.bool (a < b))
  | .le => some (.bool (a ≤ b))
  | .gt => some (.bool (a > b))
  | .ge => some (.bool (a ≥ b))
  | _ => none

/-- When the slips of the operands do no harm. -/
def Survives (op : TokenType) (a b : ℤ) : Prop :=
  match op with
  | .plus => IsLong (a + b) → slip 53 a + slip 53 b = 0
  | .minus => IsLong (a - b) → slip 53 a = slip 53 b
  | .star => IsLong (a * b) → (slip 53 a = 0 ∨ b = 0) ∧ (slip 53 b = 0 ∨ a = 0)
  | .percent => b ≠ 0 → IsLong (a.tdiv b) →
      nearest 53 b ∣ slip 53 a - a.tdiv b * slip 53 b ∧ |a.tmod b| < |nearest 53 b| ∧
        (nearest 53 a = 2 ^ 63 → b ∣ a) ∧ ¬ (|nearest 53 a| = 2 ^ 63 ∧ b = -1)
  | .eq | .ne => nearest 53 a = nearest 53 b → a = b
  | .lt | .ge => a < b → nearest 53 a ≠ nearest 53 b
  | .gt | .le => b < a → nearest 53 a ≠ nearest 53 b
  | _ => True

/-! ### Two's complement -/

section Wrap

variable {x y : ℤ}

theorem wrap64_eq_iff (hy : IsLong y) (h : |x - y| < 2 ^ 64) : wrap64 x = y ↔ x = y := by
  obtain ⟨hlo, hhi⟩ := hy
  obtain ⟨hdown, hup⟩ := abs_lt.mp h
  rw [wrap64, Int.bmod_eq_iff (by positivity)]
  constructor
  · rintro ⟨-, -, k, hk⟩
    push_cast at hk
    omega
  · rintro rfl
    exact ⟨by push_cast; omega, by push_cast; omega, by simp⟩

/-- The cast of a double that is a whole number. -/
theorem longOfDouble_wrap {a : ℤ} (ha : a.natAbs ≤ 2 ^ 63) :
    longOfDouble (doubleOfLong a) = wrap64 (nearest 53 a) := by
  have hbound := nearest_natAbs_le (p := 53) (by omega) ha
  rw [longOfDouble_nearest ha]
  split
  · next htop =>
    rw [htop]
    rfl
  · exact ((wrap64_eq_iff ⟨by omega, by omega⟩ (by simp)).mpr rfl).symm

theorem wrap64_add (x y : ℤ) : wrap64 (wrap64 x + wrap64 y) = wrap64 (x + y) := by
  unfold wrap64
  rw [Int.add_bmod_bmod, Int.bmod_add_bmod]

theorem wrap64_sub (x y : ℤ) : wrap64 (wrap64 x - wrap64 y) = wrap64 (x - y) := by
  unfold wrap64
  rw [Int.sub_bmod_bmod, Int.bmod_sub_bmod]

theorem wrap64_mul (x y : ℤ) : wrap64 (wrap64 x * wrap64 y) = wrap64 (x * y) := by
  unfold wrap64
  rw [Int.mul_bmod_bmod, Int.bmod_mul_bmod]

end Wrap

/-! ### The slips -/

section Slips

variable {a b : ℤ}

theorem IsLong.natAbs_le (ha : IsLong a) : a.natAbs ≤ 2 ^ 63 := by
  obtain ⟨hlo, hhi⟩ := ha
  omega

theorem nearest_eq (p : ℕ) (n : ℤ) : nearest p n = n + slip p n := by
  rw [slip]
  omega

theorem slip_small (ha : IsLong a) : |slip 53 a| ≤ 2 ^ 10 := by
  have herror := nearest_error (p := 53) (by omega) a
  have habs : |a| ≤ 2 ^ 63 := abs_le.mpr ⟨ha.1, ha.2.le⟩
  omega

/-- Where there is a slip, the number has more than 53 digits. -/
theorem abs_ge_of_slip (h : slip 53 a ≠ 0) : 2 ^ 53 ≤ |a| := by
  by_contra hlt
  have habs := Int.abs_eq_natAbs a
  exact h (slip_of_lt (by omega))

/-- A product of two that are rounded does not fit. -/
theorem slip_mul (ha : slip 53 a ≠ 0) (hb : b ≠ 0) (h : IsLong (a * b)) :
    slip 53 b = 0 ∧ |slip 53 a * b| ≤ 2 ^ 10 := by
  have hfits : |a| * |b| ≤ 2 ^ 63 := by
    rw [← abs_mul]
    exact abs_le.mpr ⟨h.1, h.2.le⟩
  have hge := abs_ge_of_slip ha
  have herror := nearest_error (p := 53) (by omega) a
  have hpos : 1 ≤ |b| := Int.one_le_abs hb
  have hsmall : |b| ≤ 2 ^ 10 := by nlinarith
  have habs := Int.abs_eq_natAbs b
  refine ⟨slip_of_lt (by omega), ?_⟩
  rw [abs_mul]
  nlinarith

/-- When a product is exact. -/
theorem mul_nearest_iff (h : IsLong (a * b)) :
    |nearest 53 a * nearest 53 b - a * b| < 2 ^ 64 ∧
      (nearest 53 a * nearest 53 b = a * b ↔
        (slip 53 a = 0 ∨ b = 0) ∧ (slip 53 b = 0 ∨ a = 0)) := by
  have hzero : slip 53 0 = 0 := slip_of_lt (by positivity)
  rw [nearest_eq 53 a, nearest_eq 53 b]
  rcases eq_or_ne a 0 with rfl | ha₀
  · simp [hzero]
  rcases eq_or_ne b 0 with rfl | hb₀
  · simp [hzero]
  rcases eq_or_ne (slip 53 a) 0 with ha | ha
  · rcases eq_or_ne (slip 53 b) 0 with hb | hb
    · simp [ha, hb]
    · have hbound := (slip_mul hb ha₀ (mul_comm a b ▸ h)).2
      have hdiff : (a + slip 53 a) * (b + slip 53 b) - a * b = slip 53 b * a := by
        rw [ha]
        ring
      refine ⟨by rw [hdiff]; omega, fun heq => ?_, fun hslips => absurd hslips.2 (by simp [hb, ha₀])⟩
      rw [heq, sub_self] at hdiff
      exact absurd hdiff.symm (mul_ne_zero hb ha₀)
  · obtain ⟨hb, hbound⟩ := slip_mul ha hb₀ h
    have hdiff : (a + slip 53 a) * (b + slip 53 b) - a * b = slip 53 a * b := by
      rw [hb]
      ring
    refine ⟨by rw [hdiff]; omega, fun heq => ?_, fun hslips => absurd hslips.1 (by simp [ha, hb₀])⟩
    rw [heq, sub_self] at hdiff
    exact absurd hdiff.symm (mul_ne_zero ha hb₀)

/-! ### Remainders -/

/-- A remainder, by what it is: congruent, small, and of the sign of the dividend. -/
theorem tmod_eq_iff {r : ℤ} (hb : b ≠ 0) :
    a.tmod b = r ↔ b ∣ a - r ∧ |r| < |b| ∧ (0 < a → 0 ≤ r) ∧ (a < 0 → r ≤ 0) := by
  have habs := Int.abs_eq_natAbs b
  constructor
  · rintro rfl
    refine ⟨⟨a.tdiv b, ?_⟩, ?_, fun ha => Int.tmod_nonneg b ha.le, fun ha => ?_⟩
    · have := Int.mul_tdiv_add_tmod a b
      omega
    · rw [Int.abs_eq_natAbs, habs, Int.natAbs_tmod]
      have := Nat.mod_lt a.natAbs (Int.natAbs_pos.mpr hb)
      omega
    · have := Int.tmod_nonneg b (show 0 ≤ -a by omega)
      rw [Int.neg_tmod] at this
      omega
  · rintro ⟨⟨q, hq⟩, hlt, hpos, hneg⟩
    obtain ⟨hlo, hhi⟩ := abs_lt.mp hlt
    rcases lt_trichotomy a 0 with ha | rfl | ha
    · have hr := hneg ha
      exact ((Int.tdiv_tmod_unique' (q := q) ha.le hb).mpr ⟨by omega, by omega, hr⟩).2
    · have hdvd : b ∣ r := ⟨-q, by rw [mul_neg]; omega⟩
      rw [Int.zero_tmod]
      exact (Int.eq_zero_of_dvd_of_natAbs_lt_natAbs hdvd (by omega)).symm
    · have hr := hpos ha
      exact ((Int.tdiv_tmod_unique (q := q) ha.le hb).mpr ⟨by omega, hr, by omega⟩).2

theorem nearest_zero (p : ℕ) : nearest p 0 = 0 := nearest_of_lt (by positivity)

theorem nearest_ne_zero (hb : b ≠ 0) : nearest 53 b ≠ 0 := by
  rcases lt_or_gt_of_ne hb with hneg | hpos
  · have h := nearest_pos (p := 53) (by omega) (show 0 < -b by omega)
    rw [nearest_neg] at h
    omega
  · exact (nearest_pos (by omega) hpos).ne'

/-- When the remainder of the nearest is the remainder. -/
theorem tmod_nearest_iff (hb : b ≠ 0) :
    (nearest 53 a).tmod (nearest 53 b) = a.tmod b ↔
      nearest 53 b ∣ slip 53 a - a.tdiv b * slip 53 b ∧ |a.tmod b| < |nearest 53 b| := by
  have hdvd : nearest 53 b ∣ nearest 53 a - a.tmod b ↔
      nearest 53 b ∣ slip 53 a - a.tdiv b * slip 53 b := by
    have hdiv := Int.mul_tdiv_add_tmod a b
    have hsum : nearest 53 a - a.tmod b
        = nearest 53 b * a.tdiv b + (slip 53 a - a.tdiv b * slip 53 b) := by
      rw [nearest_eq 53 a, nearest_eq 53 b]
      linarith
    rw [hsum]
    exact (Int.dvd_add_right ⟨_, rfl⟩)
  have hpos : 0 < nearest 53 a → 0 ≤ a.tmod b := fun h => by
    refine Int.tmod_nonneg b (not_lt.mp fun hneg => ?_)
    have hmono := nearest_mono (p := 53) (by omega) hneg.le
    rw [nearest_zero] at hmono
    omega
  have hneg : nearest 53 a < 0 → a.tmod b ≤ 0 := fun h => by
    have hle : a ≤ 0 := not_lt.mp fun hpos => by
      have := nearest_pos (p := 53) (by omega) hpos
      omega
    have := Int.tmod_nonneg b (show 0 ≤ -a by omega)
    rw [Int.neg_tmod] at this
    omega
  rw [tmod_eq_iff (nearest_ne_zero hb), hdvd]
  exact ⟨fun ⟨h, hlt, _⟩ => ⟨h, hlt⟩, fun ⟨h, hlt⟩ => ⟨h, hlt, hpos, hneg⟩⟩

end Slips

/-! ### The operators -/

section Law

variable {ω : Type} [Host ω] (n line : ℕ) (op : TokenType) (a b : ℤ) (s : Machine ω)

/-- The code returns the exact result, where there is one. -/
def ExactLaw : Prop := ∀ v, exactResult op a b = some v →
  (evalBinary n op (.num a) (.num b) line : Prog ω Value) s = ⟨[], s, some v⟩

variable {n line op a b s}

theorem exactLaw_of_value {v w : Value} (hcode : (evalBinary n op (.num a) (.num b) line : Prog ω Value) s
    = ⟨[], s, some w⟩) (hresult : exactResult op a b = some v) :
    ExactLaw n line op a b s ↔ w = v := by
  unfold ExactLaw
  rw [hcode, hresult]
  constructor
  · intro h
    exact Option.some.inj (congrArg Exec.Outcome.value (h v rfl))
  · rintro rfl v' hv'
    rw [Option.some.inj hv']

theorem exactLaw_of_none (hresult : exactResult op a b = none) : ExactLaw n line op a b s := by
  intro v hv
  rw [hresult] at hv
  cases hv

theorem exactLaw_bool {P Q : Prop} [Decidable P] [Decidable Q]
    (hcode : (evalBinary n op (.num a) (.num b) line : Prog ω Value) s = ⟨[], s, some (.bool P)⟩)
    (hresult : exactResult op a b = some (.bool Q)) : ExactLaw n line op a b s ↔ (P ↔ Q) := by
  rw [exactLaw_of_value hcode hresult, Value.bool.injEq, decide_eq_decide]

variable (ha : IsLong a) (hb : IsLong b)

include ha hb

omit ha hb in
/-- An operator whose result is not far from the exact one. -/
theorem exactLaw_wrap64 {x y : ℤ}
    (hcode : (evalBinary n op (.num a) (.num b) line : Prog ω Value) s
      = ⟨[], s, some (.num (wrap64 x))⟩)
    (hresult : exactResult op a b = if IsLong y then some (.num y) else none)
    (hnear : IsLong y → |x - y| < 2 ^ 64) : ExactLaw n line op a b s ↔ (IsLong y → x = y) := by
  by_cases hfits : IsLong y
  · rw [if_pos hfits] at hresult
    rw [exactLaw_of_value hcode hresult, Value.num.injEq, wrap64_eq_iff hfits (hnear hfits)]
    exact ⟨fun h _ => h, fun h => h hfits⟩
  · rw [if_neg hfits] at hresult
    exact ⟨fun _ h => absurd h hfits, fun _ => exactLaw_of_none hresult⟩

theorem exactLaw_plus : ExactLaw n line .plus a b s ↔ Survives .plus a b := by
  have hcode : (evalBinary n .plus (.num a) (.num b) line : Prog ω Value) s
      = ⟨[], s, some (.num (wrap64 (nearest 53 a + nearest 53 b)))⟩ := by
    rw [← wrap64_add, ← longOfDouble_wrap ha.natAbs_le, ← longOfDouble_wrap hb.natAbs_le]
    rfl
  have hsum : nearest 53 a + nearest 53 b - (a + b) = slip 53 a + slip 53 b := by
    rw [slip, slip]
    ring
  have hsmall := abs_add_le (slip 53 a) (slip 53 b)
  have ha' := slip_small ha
  have hb' := slip_small hb
  rw [exactLaw_wrap64 hcode rfl fun _ => by rw [hsum]; omega]
  refine forall_congr' fun _ => ?_
  rw [← sub_eq_zero, hsum]

theorem exactLaw_minus : ExactLaw n line .minus a b s ↔ Survives .minus a b := by
  have hcode : (evalBinary n .minus (.num a) (.num b) line : Prog ω Value) s
      = ⟨[], s, some (.num (wrap64 (nearest 53 a - nearest 53 b)))⟩ := by
    rw [← wrap64_sub, ← longOfDouble_wrap ha.natAbs_le, ← longOfDouble_wrap hb.natAbs_le]
    rfl
  have hdiff : nearest 53 a - nearest 53 b - (a - b) = slip 53 a - slip 53 b := by
    rw [slip, slip]
    ring
  have hsmall := abs_sub (slip 53 a) (slip 53 b)
  have ha' := slip_small ha
  have hb' := slip_small hb
  rw [exactLaw_wrap64 hcode rfl fun _ => by rw [hdiff]; omega]
  refine forall_congr' fun _ => ?_
  rw [← sub_eq_zero, hdiff, sub_eq_zero]

theorem exactLaw_star : ExactLaw n line .star a b s ↔ Survives .star a b := by
  have hcode : (evalBinary n .star (.num a) (.num b) line : Prog ω Value) s
      = ⟨[], s, some (.num (wrap64 (nearest 53 a * nearest 53 b)))⟩ := by
    rw [← wrap64_mul, ← longOfDouble_wrap ha.natAbs_le, ← longOfDouble_wrap hb.natAbs_le]
    rfl
  rw [exactLaw_wrap64 hcode rfl fun hfits => (mul_nearest_iff hfits).1]
  exact forall_congr' fun hfits => (mul_nearest_iff hfits).2

omit ha hb in
/-- A comparison goes wrong only with two integers that round to the same. -/
theorem lt_nearest_iff : (nearest 53 a < nearest 53 b ↔ a < b) ↔
    (a < b → nearest 53 a ≠ nearest 53 b) := by
  have hmono : ∀ {x y : ℤ}, x ≤ y → nearest 53 x ≤ nearest 53 y := nearest_mono (by omega)
  constructor
  · exact fun h hlt => (h.mpr hlt).ne
  · refine fun h => ⟨fun hlt => ?_, fun hlt => lt_of_le_of_ne (hmono hlt.le) (h hlt)⟩
    by_contra hle
    exact absurd (hmono (not_lt.mp hle)) (not_le.mpr hlt)

/-- Two `num`s are equal for the code when they round to the same. -/
theorem valueEqual_num :
    Heap.valueEqual (.num a) (.num b) = decide (nearest 53 a = nearest 53 b) :=
  Bool.eq_iff_iff.mpr
    ((doubleOfLong_beq ha.natAbs_le hb.natAbs_le).trans decide_eq_true_iff.symm)

theorem exactLaw_eq : ExactLaw n line .eq a b s ↔ Survives .eq a b := by
  have hcode : (evalBinary n .eq (.num a) (.num b) line : Prog ω Value) s
      = ⟨[], s, some (.bool (nearest 53 a = nearest 53 b))⟩ := by
    rw [← valueEqual_num ha hb]
    rfl
  rw [exactLaw_bool hcode rfl]
  exact ⟨fun h => h.mp, fun h => ⟨h, fun heq => by rw [heq]⟩⟩

theorem exactLaw_ne : ExactLaw n line .ne a b s ↔ Survives .ne a b := by
  have hcode : (evalBinary n .ne (.num a) (.num b) line : Prog ω Value) s
      = ⟨[], s, some (.bool (nearest 53 a ≠ nearest 53 b))⟩ := by
    rw [decide_not, ← valueEqual_num ha hb]
    rfl
  rw [exactLaw_bool hcode rfl, not_iff_not]
  exact ⟨fun h => h.mp, fun h => ⟨h, fun heq => by rw [heq]⟩⟩

theorem exactLaw_lt : ExactLaw n line .lt a b s ↔ Survives .lt a b := by
  rw [exactLaw_bool (P := doubleOfLong a < doubleOfLong b) rfl rfl,
    doubleOfLong_lt ha.natAbs_le hb.natAbs_le]
  exact lt_nearest_iff

theorem exactLaw_gt : ExactLaw n line .gt a b s ↔ Survives .gt a b := by
  rw [exactLaw_bool (P := doubleOfLong b < doubleOfLong a) (Q := b < a) rfl rfl,
    doubleOfLong_lt hb.natAbs_le ha.natAbs_le, lt_nearest_iff]
  exact ⟨fun h hlt => (h hlt).symm, fun h hlt => (h hlt).symm⟩

theorem exactLaw_le : ExactLaw n line .le a b s ↔ Survives .le a b := by
  rw [exactLaw_bool (P := doubleOfLong a ≤ doubleOfLong b) rfl rfl,
    doubleOfLong_le ha.natAbs_le hb.natAbs_le, ← not_lt, ← not_lt, not_iff_not, lt_nearest_iff]
  exact ⟨fun h hlt => (h hlt).symm, fun h hlt => (h hlt).symm⟩

theorem exactLaw_ge : ExactLaw n line .ge a b s ↔ Survives .ge a b := by
  rw [exactLaw_bool (P := doubleOfLong b ≤ doubleOfLong a) (Q := b ≤ a) rfl rfl,
    doubleOfLong_le hb.natAbs_le ha.natAbs_le, ← not_lt, ← not_lt, not_iff_not]
  exact lt_nearest_iff

omit hb in
theorem longOfDouble_eq_min : longOfDouble (doubleOfLong a) = -2 ^ 63 ↔ |nearest 53 a| = 2 ^ 63 := by
  have hbound := nearest_natAbs_le (p := 53) (by omega) ha.natAbs_le
  have habs := Int.abs_eq_natAbs (nearest 53 a)
  rw [longOfDouble_nearest ha.natAbs_le]
  split <;> omega

omit ha in
theorem longOfDouble_eq_neg_one : longOfDouble (doubleOfLong b) = -1 ↔ b = -1 := by
  have hone : nearest 53 (-1) = -1 := nearest_of_lt (by decide)
  have hhalf : nearest 53 (-2) = -2 := nearest_of_lt (by decide)
  rw [longOfDouble_nearest hb.natAbs_le]
  constructor
  · intro h
    have hnearest : nearest 53 b = -1 := by
      split at h <;> omega
    have hlo : ¬ b ≤ -2 := fun hle => by
      have := nearest_mono (p := 53) (by omega) hle
      omega
    have hhi : ¬ 0 ≤ b := fun hle => by
      have := nearest_mono (p := 53) (by omega) hle
      rw [nearest_zero] at this
      omega
    omega
  · rintro rfl
    rw [hone]
    decide

/-- The remainder of the casts: a dividend that is cast to the least `num` has changed its
sign. -/
theorem tmod_longOfDouble_iff :
    (longOfDouble (doubleOfLong a)).tmod (longOfDouble (doubleOfLong b)) = a.tmod b ↔
      (nearest 53 a).tmod (nearest 53 b) = a.tmod b ∧ (nearest 53 a = 2 ^ 63 → b ∣ a) := by
  have hdivisor : ∀ x : ℤ, x.tmod (longOfDouble (doubleOfLong b)) = x.tmod (nearest 53 b) := by
    intro x
    rw [longOfDouble_nearest hb.natAbs_le]
    split
    · next htop => rw [htop, Int.tmod_neg]
    · rfl
  rw [hdivisor, longOfDouble_nearest ha.natAbs_le]
  by_cases htop : nearest 53 a = 2 ^ 63
  · have hpos : 0 ≤ a := not_lt.mp fun hneg => by
      have := nearest_mono (p := 53) (by omega) hneg.le
      rw [nearest_zero] at this
      omega
    have hr := Int.tmod_nonneg b hpos
    have hr' := Int.tmod_nonneg (nearest 53 b) (show 0 ≤ nearest 53 a by omega)
    rw [if_pos htop, ← htop, Int.neg_tmod, Int.dvd_iff_tmod_eq_zero]
    constructor
    · exact fun h => ⟨by omega, fun _ => by omega⟩
    · rintro ⟨h, hzero⟩
      have := hzero rfl
      omega
  · rw [if_neg htop]
    exact ⟨fun h => ⟨h, fun heq => absurd heq htop⟩, fun h => h.1⟩

theorem remTraps_iff : remTraps .percent (.num a) (.num b) = true ↔
    |nearest 53 a| = 2 ^ 63 ∧ b = -1 := by
  rw [← longOfDouble_eq_min ha, ← longOfDouble_eq_neg_one hb]
  show (true && decide (longOfDouble (doubleOfLong a) = -2 ^ 63) &&
    decide (longOfDouble (doubleOfLong b) = -1)) = true ↔ _
  rw [Bool.true_and, Bool.and_eq_true, decide_eq_true_iff, decide_eq_true_iff]

omit ha in
theorem longOfDouble_ne_zero (hb₀ : b ≠ 0) : longOfDouble (doubleOfLong b) ≠ 0 := by
  have hne := nearest_ne_zero hb₀
  rw [longOfDouble_nearest hb.natAbs_le]
  split <;> omega

/-- What the code does with a divisor other than zero. -/
theorem evalBinary_percent (hb₀ : b ≠ 0) :
    (evalBinary n .percent (.num a) (.num b) line : Prog ω Value) s =
      ⟨[], s, if |nearest 53 a| = 2 ^ 63 ∧ b = -1 then none else
        some (.num ((longOfDouble (doubleOfLong a)).tmod (longOfDouble (doubleOfLong b))))⟩ := by
  have hplus : ¬ (TokenType.percent = .plus ∧ (isString (.num a) ∨ isString (.num b))) := by
    rintro ⟨h, -⟩
    cases h
  have harith : arith (Host.pow (ω := ω)) .percent (.num a) (.num b)
      = .ok (.num ((longOfDouble (doubleOfLong a)).tmod (longOfDouble (doubleOfLong b)))) :=
    if_neg (longOfDouble_ne_zero hb hb₀)
  unfold evalBinary
  rw [if_neg hplus]
  dsimp only
  by_cases htrap : |nearest 53 a| = 2 ^ 63 ∧ b = -1
  · rw [if_pos ((remTraps_iff ha hb).mpr htrap), if_pos htrap]
    rfl
  · rw [if_neg (fun h => htrap ((remTraps_iff ha hb).mp h)), if_neg htrap, harith]
    rfl

theorem exactLaw_percent : ExactLaw n line .percent a b s ↔ Survives .percent a b := by
  by_cases hdefined : b ≠ 0 ∧ IsLong (a.tdiv b)
  · obtain ⟨hb₀, hfits⟩ := hdefined
    have hresult : exactResult .percent a b = some (.num (a.tmod b)) := if_pos ⟨hb₀, hfits⟩
    have hcode : (evalBinary n .percent (.num a) (.num b) line : Prog ω Value) s = ⟨[], s, _⟩ :=
      evalBinary_percent ha hb hb₀
    by_cases htrap : |nearest 53 a| = 2 ^ 63 ∧ b = -1
    · rw [if_pos htrap] at hcode
      constructor
      · intro h
        have hvalue := h _ hresult
        rw [hcode] at hvalue
        cases hvalue
      · exact fun h => absurd htrap (h hb₀ hfits).2.2.2
    · rw [if_neg htrap] at hcode
      rw [exactLaw_of_value hcode hresult, Value.num.injEq, tmod_longOfDouble_iff ha hb,
        tmod_nearest_iff hb₀]
      constructor
      · rintro ⟨⟨hdvd, hlt⟩, htop⟩ - -
        exact ⟨hdvd, hlt, htop, htrap⟩
      · intro h
        obtain ⟨hdvd, hlt, htop, -⟩ := h hb₀ hfits
        exact ⟨⟨hdvd, hlt⟩, htop⟩
  · exact ⟨fun _ hb₀ hfits => absurd ⟨hb₀, hfits⟩ hdefined,
      fun _ => exactLaw_of_none (if_neg hdefined)⟩

/-- **When the result is exact.** -/
theorem exactLaw_iff (op : TokenType) : ExactLaw n line op a b s ↔ Survives op a b := by
  have hother : exactResult op a b = none → Survives op a b →
      (ExactLaw n line op a b s ↔ Survives op a b) := fun hnone hsurvives =>
    ⟨fun _ => hsurvives, fun _ => exactLaw_of_none hnone⟩
  cases op with
  | plus => exact exactLaw_plus ha hb
  | minus => exact exactLaw_minus ha hb
  | star => exact exactLaw_star ha hb
  | percent => exact exactLaw_percent ha hb
  | eq => exact exactLaw_eq ha hb
  | ne => exact exactLaw_ne ha hb
  | lt => exact exactLaw_lt ha hb
  | le => exact exactLaw_le ha hb
  | gt => exact exactLaw_gt ha hb
  | ge => exact exactLaw_ge ha hb
  | _ => exact hother rfl trivial

end Law

/-- With operands of 53 digits nothing slips. -/
theorem survives_of_lt {a b : ℤ} (ha : a.natAbs < 2 ^ 53) (hb : b.natAbs < 2 ^ 53)
    (op : TokenType) : Survives op a b := by
  have ha' := nearest_of_lt ha
  have hb' := nearest_of_lt hb
  have hslips : slip 53 a = 0 ∧ slip 53 b = 0 := ⟨slip_of_lt ha, slip_of_lt hb⟩
  cases op with
  | plus => exact fun _ => by rw [hslips.1, hslips.2, add_zero]
  | minus => exact fun _ => by rw [hslips.1, hslips.2]
  | star => exact fun _ => ⟨.inl hslips.1, .inl hslips.2⟩
  | percent =>
    intro hb₀ _
    refine ⟨?_, ?_, fun htop => ?_, fun htop => ?_⟩
    · rw [hslips.1, hslips.2, mul_zero, sub_zero]
      exact dvd_zero _
    · rw [hb']
      exact ((tmod_eq_iff hb₀).mp rfl).2.1
    · omega
    · rw [ha', Int.abs_eq_natAbs] at htop
      omega
  | eq | ne => exact fun h => by rwa [ha', hb'] at h
  | lt | ge => exact fun h => by rw [ha', hb']; exact h.ne
  | gt | le => exact fun h => by rw [ha', hb']; exact h.ne'
  | _ => trivial

/-- With `9007199254740993` and `9007199254740995` both operands are rounded: in the sum the two
errors meet, in the product with 2 there is one. -/
theorem exactLaw_iff_roundedOperands :
    @ExactLaw Unit silentHost 1 1 .plus 9007199254740993 9007199254740995 (interpInit ()) ∧
    ¬ @ExactLaw Unit silentHost 1 1 .star 9007199254740993 2 (interpInit ()) := by
  constructor
  · refine (@exactLaw_iff Unit silentHost 1 1 _ _ (interpInit ()) (by decide) (by decide) .plus).mpr
      fun _ => ?_
    decide +kernel
  · intro h
    have hslips := (@exactLaw_iff Unit silentHost 1 1 _ _ (interpInit ()) (by decide) (by decide)
      .star).mp h (by decide)
    exact absurd hslips.1 (by decide +kernel)

/-- **`9007199254740993 + 0`** is 9007199254740992. -/
theorem plus_loses_one : ¬ ∀ (n line : ℕ) (op : TokenType) (a b : ℤ) (s : Machine Unit),
    IsLong a → IsLong b → @ExactLaw Unit silentHost n line op a b s := by
  intro h
  have hlaw := h 1 1 .plus 9007199254740993 0 (interpInit ()) (by decide) (by decide)
  have hslips := (@exactLaw_plus Unit silentHost 1 1 9007199254740993 0 (interpInit ()) (by decide)
    (by decide)).mp hlaw (by decide)
  exact absurd hslips (by decide +kernel)

end Jaguar
