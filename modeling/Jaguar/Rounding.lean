/-
Rounding to a number of binary digits.

`roundTo p m` keeps the first `p` binary digits of `m`: it is the nearest multiple of their
unit, and of two that are as near the even one. `nearest p n` does so with integers.

* `roundDiv_error`, `roundDiv_mono` — a rounded quotient is near, and keeps the order;
* `roundTo_of_lt`, `roundTo_pow` — what is left as it is;
* `nearest_mono` — **rounding keeps the order**, though not strictly;
* `nearest_error` — **the error** is one part in `2 ^ p` at most.
-/
import Jaguar.Double
import Mathlib.Data.Nat.Log
import Mathlib.Tactic.Linarith

namespace Jaguar

/-! ### Quotients -/

section Quotient

variable {n m d : ℕ}

theorem roundDiv_error (hd : 0 < d) :
    2 * (roundDiv n d * d) ≤ 2 * n + d ∧ 2 * n ≤ 2 * (roundDiv n d * d) + d := by
  have hn := Nat.div_add_mod' n d
  have hr := Nat.mod_lt n hd
  unfold roundDiv
  dsimp only
  split
  · next hup =>
    have hhalf : d ≤ 2 * (n % d) := by omega
    rw [Nat.add_one_mul (n / d) d]
    omega
  · next hdown =>
    have hhalf : 2 * (n % d) ≤ d := by omega
    omega

theorem roundDiv_mul (hd : 0 < d) (q : ℕ) : roundDiv (q * d) d = q := by
  unfold roundDiv
  dsimp only
  rw [Nat.mul_mod_left, Nat.mul_div_cancel q hd]
  exact if_neg (by omega)

theorem div_le_roundDiv (n d : ℕ) : n / d ≤ roundDiv n d := by
  unfold roundDiv
  dsimp only
  split <;> omega

theorem roundDiv_le (n d : ℕ) : roundDiv n d ≤ n / d + 1 := by
  unfold roundDiv
  dsimp only
  split <;> omega

theorem roundDiv_mono (h : n ≤ m) : roundDiv n d ≤ roundDiv m d := by
  rcases (Nat.div_le_div_right h : n / d ≤ m / d).lt_or_eq with hlt | heq
  · calc roundDiv n d ≤ n / d + 1 := roundDiv_le n d
      _ ≤ m / d := hlt
      _ ≤ roundDiv m d := div_le_roundDiv m d
  · have hn := Nat.div_add_mod n d
    have hm := Nat.div_add_mod m d
    rw [heq] at hn
    have hmod : n % d ≤ m % d := by omega
    unfold roundDiv
    dsimp only
    rw [heq]
    split <;> split <;> omega

end Quotient

/-! ### Natural numbers -/

/-- `m` to `p` binary digits. -/
def roundTo (p m : ℕ) : ℕ :=
  let unit := 2 ^ (m.log2 + 1 - p)
  roundDiv m unit * unit

section Natural

variable {p m m' : ℕ}

theorem roundTo_zero (p : ℕ) : roundTo p 0 = 0 := by
  have hzero := roundDiv_mul (d := 2 ^ (Nat.log2 0 + 1 - p)) (by positivity) 0
  rw [Nat.zero_mul] at hzero
  unfold roundTo
  dsimp only
  rw [hzero, Nat.zero_mul]

theorem roundTo_of_lt (h : m < 2 ^ p) : roundTo p m = m := by
  rcases eq_or_ne m 0 with rfl | hm
  · exact roundTo_zero p
  · have hunit : m.log2 + 1 - p = 0 := by
      have := (Nat.log2_lt hm).mpr h
      omega
    have hmul := roundDiv_mul Nat.one_pos m
    rw [Nat.mul_one] at hmul
    unfold roundTo
    rw [hunit]
    dsimp only
    rw [pow_zero, Nat.mul_one, hmul]

theorem roundTo_pow (hp : 0 < p) (k : ℕ) : roundTo p (2 ^ k) = 2 ^ k := by
  unfold roundTo
  dsimp only
  rw [Nat.log2_two_pow]
  have hpow : 2 ^ k = 2 ^ (k - (k + 1 - p)) * 2 ^ (k + 1 - p) := by
    rw [← pow_add]
    congr 1
    omega
  rw [hpow, roundDiv_mul (by positivity)]

/-- Numbers with as many digits are rounded to the same unit. -/
theorem roundTo_mono_of_log2 (hlog : m.log2 = m'.log2) (h : m ≤ m') :
    roundTo p m ≤ roundTo p m' := by
  unfold roundTo
  dsimp only
  rw [hlog]
  exact Nat.mul_le_mul_right _ (roundDiv_mono h)

/-- The first digit stays, if the number is not rounded up to the next power. -/
theorem pow_le_roundTo (hp : 0 < p) (hm : m ≠ 0) : 2 ^ m.log2 ≤ roundTo p m :=
  calc 2 ^ m.log2 = roundTo p (2 ^ m.log2) := (roundTo_pow hp _).symm
    _ ≤ roundTo p m := roundTo_mono_of_log2 Nat.log2_two_pow (Nat.log2_self_le hm)

theorem roundTo_le_pow (hp : 0 < p) (m : ℕ) : roundTo p m ≤ 2 ^ (m.log2 + 1) := by
  have hlt : m < 2 ^ (m.log2 + 1) := Nat.lt_log2_self
  have hpow : 2 ^ (m.log2 + 1)
      = 2 ^ (m.log2 + 1 - (m.log2 + 1 - p)) * 2 ^ (m.log2 + 1 - p) := by
    rw [← pow_add]
    congr 1
    omega
  unfold roundTo
  dsimp only
  calc roundDiv m (2 ^ (m.log2 + 1 - p)) * 2 ^ (m.log2 + 1 - p)
      ≤ roundDiv (2 ^ (m.log2 + 1)) (2 ^ (m.log2 + 1 - p)) * 2 ^ (m.log2 + 1 - p) :=
        Nat.mul_le_mul_right _ (roundDiv_mono hlt.le)
    _ = 2 ^ (m.log2 + 1) := by
        conv_lhs => rw [hpow]
        rw [roundDiv_mul (by positivity), ← hpow]

theorem roundTo_mono (hp : 0 < p) (h : m ≤ m') : roundTo p m ≤ roundTo p m' := by
  rcases eq_or_ne m 0 with rfl | hm
  · rw [roundTo_zero]
    exact Nat.zero_le _
  · have hm' : m' ≠ 0 := by omega
    have hlog : m.log2 ≤ m'.log2 := (Nat.le_log2 hm').mpr ((Nat.log2_self_le hm).trans h)
    rcases hlog.lt_or_eq with hlt | heq
    · calc roundTo p m ≤ 2 ^ (m.log2 + 1) := roundTo_le_pow hp m
        _ ≤ 2 ^ m'.log2 := Nat.pow_le_pow_right (by omega) hlt
        _ ≤ roundTo p m' := pow_le_roundTo hp hm'
    · exact roundTo_mono_of_log2 heq h

/-- The error is one part in `2 ^ p` at most. -/
theorem roundTo_error (hp : 0 < p) (m : ℕ) :
    roundTo p m * 2 ^ p ≤ m * 2 ^ p + m ∧ m * 2 ^ p ≤ roundTo p m * 2 ^ p + m := by
  rcases lt_or_ge m (2 ^ p) with hlt | hge
  · rw [roundTo_of_lt hlt]
    omega
  · have hm : m ≠ 0 := by
      have : 0 < 2 ^ p := by positivity
      omega
    have hlog : p ≤ m.log2 := (Nat.le_log2 hm).mpr hge
    obtain ⟨k, hk⟩ : ∃ k, m.log2 + 1 - p = k := ⟨_, rfl⟩
    have hunit : 2 ^ (p - 1) * 2 ^ k ≤ m := by
      rw [← pow_add, show p - 1 + k = m.log2 by omega]
      exact Nat.log2_self_le hm
    have hpow : 2 ^ p = 2 * 2 ^ (p - 1) := by
      rw [← pow_succ']
      congr 1
      omega
    obtain ⟨hup, hdown⟩ := roundDiv_error (n := m) (d := 2 ^ k) (by positivity)
    have hrounded : roundTo p m = roundDiv m (2 ^ k) * 2 ^ k := by
      rw [← hk]
      rfl
    rw [hrounded, hpow]
    have hup' := Nat.mul_le_mul_left (2 ^ (p - 1)) hup
    have hdown' := Nat.mul_le_mul_left (2 ^ (p - 1)) hdown
    rw [Nat.mul_add] at hup' hdown'
    constructor <;> nlinarith

end Natural

/-! ### Integers -/

/-- `n` to `p` binary digits. -/
def nearest (p : ℕ) (n : ℤ) : ℤ :=
  if n < 0 then -(roundTo p n.natAbs : ℤ) else roundTo p n.natAbs

/-- What rounding adds. -/
def slip (p : ℕ) (n : ℤ) : ℤ := nearest p n - n

section Integer

variable {p : ℕ} {n n' : ℤ}

theorem nearest_neg (p : ℕ) (n : ℤ) : nearest p (-n) = -nearest p n := by
  unfold nearest
  rw [Int.natAbs_neg]
  rcases lt_trichotomy n 0 with hneg | rfl | hpos
  · rw [if_neg (by omega), if_pos hneg, neg_neg]
  · simp [roundTo_zero]
  · rw [if_pos (by omega), if_neg (by omega)]

theorem nearest_of_lt (h : n.natAbs < 2 ^ p) : nearest p n = n := by
  unfold nearest
  rw [roundTo_of_lt h]
  split <;> omega

theorem slip_of_lt (h : n.natAbs < 2 ^ p) : slip p n = 0 := by
  rw [slip, nearest_of_lt h, sub_self]

/-- **Rounding keeps the order.** -/
theorem nearest_mono (hp : 0 < p) (h : n ≤ n') : nearest p n ≤ nearest p n' := by
  have hmono : ∀ {a b : ℤ}, a.natAbs ≤ b.natAbs →
      (roundTo p a.natAbs : ℤ) ≤ roundTo p b.natAbs := fun h =>
    Int.ofNat_le.mpr (roundTo_mono hp h)
  unfold nearest
  split
  · split
    · exact neg_le_neg (hmono (by omega))
    · omega
  · rw [if_neg (by omega)]
    exact hmono (by omega)

/-- **The error.** -/
theorem nearest_error (hp : 0 < p) (n : ℤ) : |slip p n| * 2 ^ p ≤ |n| := by
  obtain ⟨hup, hdown⟩ := roundTo_error hp n.natAbs
  have hslip : |slip p n| = |(roundTo p n.natAbs : ℤ) - n.natAbs| := by
    unfold slip nearest
    split
    · rw [← abs_neg]
      congr 1
      omega
    · congr 1
      omega
  rw [hslip]
  zify at hup hdown ⊢
  rcases abs_cases ((roundTo p n.natAbs : ℤ) - |n|) with ⟨heq, -⟩ | ⟨heq, -⟩
  · rw [heq]
    linarith
  · rw [heq]
    linarith

theorem nearest_pos (hp : 0 < p) (h : 0 < n) : 0 < nearest p n := by
  rw [nearest, if_neg (by omega)]
  have hle := pow_le_roundTo hp (m := n.natAbs) (by omega)
  have hpow : 0 < 2 ^ n.natAbs.log2 := by positivity
  omega

theorem nearest_natAbs_le (hp : 0 < p) {k : ℕ} (h : n.natAbs ≤ 2 ^ k) :
    (nearest p n).natAbs ≤ 2 ^ k := by
  have hle : roundTo p n.natAbs ≤ 2 ^ k := (roundTo_mono hp h).trans_eq (roundTo_pow hp k)
  unfold nearest
  split <;> omega

end Integer

end Jaguar
