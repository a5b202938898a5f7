/-
Integers as doubles, up to `2 ^ 63`.

The double of an integer is the nearest of 53 binary digits; such a double is a whole number,
which the conversion back returns, and these doubles stand in the order of their numbers.

* `shiftRight_exact`, `roundedMantissa_exact` — the residual bits round a quotient;
* `round_of_ge` — rounding a number of more than 53 digits;
* `isWhole_doubleOfLong` — **the double of an integer** is that of the nearest;
* `IsWhole.toInt`, `IsWhole.lt_iff` — reading back, and the order.
-/
import Jaguar.Doubles
import Jaguar.DoubleOrder
import Jaguar.Rounding

namespace Jaguar

open Float.Model Float.Model.UnpackedFloat

/-! ### The residual bits -/

/-- The bits that are shifted out are the remainder: the first of them, and whether there are
others. -/
theorem shiftRight_exact (m k : ℕ) :
    (⟨m, false, false⟩ : ExtendedMantissa) >>> (k + 1)
      = ⟨m / 2 ^ (k + 1), m / 2 ^ k % 2 != 0, m % 2 ^ k != 0⟩ := by
  show (k + 1).repeat ExtendedMantissa.shiftRightOne ⟨m, false, false⟩ = _
  induction k with
  | zero =>
    show (⟨m / 2, m % 2 != 0, false⟩ : ExtendedMantissa) = _
    simp [Nat.mod_one]
  | succ k ih =>
    show ((k + 1).repeat ExtendedMantissa.shiftRightOne ⟨m, false, false⟩).shiftRightOne = _
    rw [ih]
    have hhalf : m / 2 ^ (k + 1) / 2 = m / 2 ^ (k + 1 + 1) := by
      rw [Nat.div_div_eq_div_mul, ← pow_succ]
    have hsticky : (m / 2 ^ k % 2 != 0 || m % 2 ^ k != 0) = (m % 2 ^ (k + 1) != 0) := by
      have hmod : m % 2 ^ (k + 1) = m % 2 ^ k + 2 ^ k * (m / 2 ^ k % 2) := Nat.mod_pow_succ
      have hpow : 0 < 2 ^ k := by positivity
      rcases Nat.mod_two_eq_zero_or_one (m / 2 ^ k) with hbit | hbit
      · rw [hmod, hbit, Nat.mul_zero, Nat.add_zero]
        rfl
      · have hne : m % 2 ^ (k + 1) ≠ 0 := by
          rw [hmod, hbit]
          omega
        rw [hbit, bne_iff_ne.mpr hne]
        rfl
    show (⟨m / 2 ^ (k + 1) / 2, m / 2 ^ (k + 1) % 2 != 0,
      m / 2 ^ k % 2 != 0 || m % 2 ^ k != 0⟩ : ExtendedMantissa) = _
    rw [hhalf, hsticky]

/-- The rounded mantissa is the rounded quotient. -/
theorem roundedMantissa_exact (m k : ℕ) :
    ((⟨m, false, false⟩ : ExtendedMantissa) >>> (k + 1)).roundedMantissa
      = roundDiv m (2 ^ (k + 1)) := by
  rw [shiftRight_exact]
  have hmod : m % 2 ^ (k + 1) = m % 2 ^ k + 2 ^ k * (m / 2 ^ k % 2) := Nat.mod_pow_succ
  have hpow : 2 ^ (k + 1) = 2 * 2 ^ k := pow_succ' 2 k
  have hlow : m % 2 ^ k < 2 ^ k := Nat.mod_lt _ (by positivity)
  obtain ⟨q, hq⟩ : ∃ q, m / 2 ^ (k + 1) = q := ⟨_, rfl⟩
  have hround : roundDiv m (2 ^ (k + 1))
      = if 2 ^ (k + 1) < 2 * (m % 2 ^ (k + 1)) ∨ (2 * (m % 2 ^ (k + 1)) = 2 ^ (k + 1) ∧ q % 2 = 1)
        then q + 1 else q := by
    rw [← hq]
    rfl
  rw [hround, hq, hmod]
  rcases Nat.mod_two_eq_zero_or_one (m / 2 ^ k) with hbit | hbit
  · -- below the half
    rw [hbit, if_neg (by omega)]
    cases m % 2 ^ k != 0 <;> rfl
  · rw [hbit]
    rcases eq_or_ne (m % 2 ^ k) 0 with hzero | hne
    · -- the half
      rw [hzero]
      show q + q % 2 = _
      rcases Nat.mod_two_eq_zero_or_one q with heven | hodd
      · rw [if_neg (by omega), heven, Nat.add_zero]
      · rw [if_pos (by omega), hodd]
    · rw [if_pos (by omega), bne_iff_ne.mpr hne]
      rfl

/-! ### Rounding -/

/-- `u` is the whole number `v`. -/
def IsWhole (u : UnpackedFloat) (v : ℤ) : Prop :=
  match u with
  | .zero _ => v = 0
  | .finite s m e _ =>
    2 ^ 52 ≤ m ∧ m < 2 ^ 53 ∧ -52 ≤ e ∧ e ≤ 971 ∧ s.apply (m * 2 ^ (e + 52).toNat) = v * 2 ^ 52
  | _ => False

theorem log2_eq {m k : ℕ} (hlo : 2 ^ k ≤ m) (hhi : m < 2 ^ (k + 1)) : m.log2 = k := by
  have hm : m ≠ 0 := by
    have : 0 < 2 ^ k := by positivity
    omega
  have h₁ := (Nat.le_log2 hm).mpr hlo
  have h₂ := (Nat.log2_lt hm).mpr hhi
  omega

/-- A number of more than 53 digits. -/
theorem round_of_ge (s : Sign) {m : ℕ} (hge : 2 ^ 53 ≤ m) (hle : m ≤ 2 ^ 63) :
    ∃ (M : ℕ) (E : ℤ) (hM : 0 < M), UnpackedFloat.round Format.binary64 s m 0 = .finite s M E hM ∧
      2 ^ 52 ≤ M ∧ M < 2 ^ 53 ∧ 0 ≤ E ∧ E ≤ 971 ∧ M * 2 ^ E.toNat = roundTo 53 m := by
  have hm : m ≠ 0 := by omega
  have hlog : 53 ≤ m.log2 := (Nat.le_log2 hm).mpr hge
  have hlog' : m.log2 < 64 := (Nat.log2_lt hm).mpr (by omega)
  obtain ⟨k, hk⟩ : ∃ k, m.log2 = k + 53 := ⟨m.log2 - 53, by omega⟩
  have hunit : m.log2 + 1 - 53 = k + 1 := by omega
  have hvalue : roundTo 53 m = roundDiv m (2 ^ (k + 1)) * 2 ^ (k + 1) := by
    unfold roundTo
    rw [hunit]
  obtain ⟨q, hq⟩ : ∃ q, roundDiv m (2 ^ (k + 1)) = q := ⟨_, rfl⟩
  have hlo : 2 ^ 52 ≤ q := by
    have hpow := pow_le_roundTo (p := 53) (by omega) hm
    rw [hvalue, hq, hk, show k + 53 = 52 + (k + 1) by omega,
      pow_add 2 52] at hpow
    exact Nat.le_of_mul_le_mul_right hpow (by positivity)
  have hhi : q ≤ 2 ^ 53 := by
    have hpow := roundTo_le_pow (p := 53) (by omega) m
    rw [hvalue, hq, hk, show k + 53 + 1 = 53 + (k + 1) by omega,
      pow_add 2 53] at hpow
    exact Nat.le_of_mul_le_mul_right hpow (by positivity)
  have htarget : Format.binary64.targetExponent (totalExponent m 0) = ((k + 1 : ℕ) : ℤ) := by
    rw [totalExponent, hk, targetExponent_eq (by omega)]
    omega
  have hshift : shiftToTargetExponent Format.binary64 m 0 .exact
      = ((⟨m, false, false⟩ : ExtendedMantissa) >>> (k + 1), ((k + 1 : ℕ) : ℤ)) := by
    rw [shiftToTargetExponent, htarget, shiftToExponent, sub_zero, Int.toNat_natCast, zero_add]
    rfl
  have hround : UnpackedFloat.round Format.binary64 s m 0
      = roundWithAccuracy Format.binary64 s m 0 .exact := by
    rw [UnpackedFloat.round, htarget, decreaseExponent, zero_sub,
      show (-((k + 1 : ℕ) : ℤ)).toNat = 0 by omega]
    rfl
  rw [hround, roundWithAccuracy, hshift]
  dsimp only
  rw [roundedMantissa_exact, hq, hvalue, hq]
  rcases hhi.lt_or_eq with hlt | rfl
  · -- no carry out of the first digit
    have hq₀ : q ≠ 0 := by omega
    refine ⟨q, ((k + 1 : ℕ) : ℤ), by omega, ?_, hlo, hlt, by omega, by omega, ?_⟩
    · rw [shiftToTargetExponent_normal (log2_eq hlo hlt) (by omega)]
      exact dif_neg hq₀
    · rw [Int.toNat_natCast]
  · have hcarry : shiftToTargetExponent Format.binary64 (2 ^ 53) ((k + 1 : ℕ) : ℤ) .exact
        = (⟨2 ^ 52, false, false⟩, ((k + 2 : ℕ) : ℤ)) := by
      rw [shiftToTargetExponent, totalExponent, Nat.log2_two_pow, targetExponent_eq (by omega),
        shiftToExponent, show (((53 : ℕ) : ℤ) + 1 + ((k + 1 : ℕ) : ℤ) - 53 - ((k + 1 : ℕ) : ℤ)).toNat
          = 1 by omega]
      refine Prod.ext ?_ (by push_cast; omega)
      exact shiftRight_exact (2 ^ 53) 0
    refine ⟨2 ^ 52, ((k + 2 : ℕ) : ℤ), by omega, ?_, le_refl _, by omega, by omega, by omega, ?_⟩
    · rw [hcarry]
      exact dif_neg (show ¬ 2 ^ 52 = 0 by decide)
    · rw [Int.toNat_natCast, show k + 2 = k + 1 + 1 by omega, pow_succ 2 (k + 1)]
      omega

/-- The nearest double of a positive number, and its opposite. -/
theorem isWhole_round (s : Sign) {m : ℕ} (hm : 0 < m) (hle : m ≤ 2 ^ 63) :
    IsWhole (UnpackedFloat.round Format.binary64 s m 0) (s.apply (roundTo 53 m)) := by
  have happly : ∀ a b c : ℤ, a = b * c → s.apply a = s.apply b * c := by
    rintro a b c rfl
    cases s
    · exact (neg_mul b c).symm
    · rfl
  rcases lt_or_ge m (2 ^ 53) with hlt | hge
  · obtain ⟨k, hpos, hlog, hk, hround⟩ := round_of_lt s hm hlt
    rw [hround]
    refine ⟨(Nat.le_log2 hpos.ne').mp hlog.ge, (Nat.log2_lt hpos.ne').mp (by omega), by omega,
      by omega, happly _ _ _ ?_⟩
    rw [roundTo_of_lt hlt, show (-(k : ℤ) + 52).toNat = 52 - k by omega, Nat.shiftLeft_eq]
    have hpow : 2 ^ k * 2 ^ (52 - k) = 2 ^ 52 := by
      rw [← pow_add]
      congr 1
      omega
    have hnat : m * 2 ^ k * 2 ^ (52 - k) = m * 2 ^ 52 := by rw [Nat.mul_assoc, hpow]
    exact_mod_cast hnat
  · obtain ⟨M, E, hM, hround, hlo, hhi, hE, hE', hvalue⟩ := round_of_ge s hge hle
    rw [hround]
    refine ⟨hlo, hhi, by omega, hE', happly _ _ _ ?_⟩
    have hexp : (E + 52).toNat = E.toNat + 52 := by omega
    rw [← hvalue, hexp, pow_add]
    push_cast
    ring

/-- Such a number is read back from its bits. -/
theorem IsWhole.unpack_pack {u : UnpackedFloat} {v : ℤ} (h : IsWhole u v) :
    IsWhole (unpack Format.binary64 (pack Format.binary64 u)) v := by
  cases u with
  | zero s => cases s <;> exact h
  | finite s m e hm =>
    obtain ⟨hlo, hhi, hmin, hmax, hvalue⟩ := h
    rw [unpack_pack_normal s hm hlo hhi (by omega) hmax]
    exact ⟨hlo, hhi, hmin, hmax, hvalue⟩
  | infinity s => exact False.elim h
  | notANumber => exact False.elim h

/-- **The double of an integer.** -/
theorem isWhole_doubleOfLong {n : ℤ} (h : n.natAbs ≤ 2 ^ 63) :
    IsWhole (doubleOfLong n).toModel.unpack (nearest 53 n) := by
  refine IsWhole.unpack_pack (u := UnpackedFloat.ofInt Format.binary64 n) ?_
  rw [UnpackedFloat.ofInt, UnpackedFloat.normalize, nearest]
  rcases lt_trichotomy n 0 with hneg | rfl | hpos
  · rw [compare_lt_iff_lt.mpr hneg, if_pos hneg, show n.natAbs = (-n).toNat by omega]
    exact isWhole_round .negative (by omega) (by omega)
  · exact rfl
  · rw [compare_gt_iff_gt.mpr hpos, if_neg (by omega), show n.natAbs = n.toNat by omega]
    exact isWhole_round .positive (by omega) (by omega)

/-! ### Reading back -/

section IsWhole

variable {u u' : UnpackedFloat} {v v' : ℤ}

theorem IsWhole.not_isNaN (h : IsWhole u v) : u.isNaN = false := by
  cases u with
  | notANumber => exact False.elim h
  | _ => rfl

/-- The sign and the digits. -/
theorem IsWhole.value {s : Sign} {m : ℕ} {e : ℤ} {hm : 0 < m} (h : IsWhole (.finite s m e hm) v) :
    v = s.apply v.natAbs ∧ m * 2 ^ (e + 52).toNat = v.natAbs * 2 ^ 52 := by
  obtain ⟨-, -, -, -, hvalue⟩ := h
  have hdigits : 0 ≤ (m : ℤ) * 2 ^ (e + 52).toNat := by positivity
  cases s with
  | negative =>
    have hneg : -((m : ℤ) * 2 ^ (e + 52).toNat) = v * 2 ^ 52 := hvalue
    have habs : (v.natAbs : ℤ) = -v := by omega
    refine ⟨show v = -(v.natAbs : ℤ) by omega, ?_⟩
    zify
    rw [← Int.natCast_natAbs, habs]
    linarith
  | positive =>
    have hpos : (m : ℤ) * 2 ^ (e + 52).toNat = v * 2 ^ 52 := hvalue
    have habs : (v.natAbs : ℤ) = v := by omega
    refine ⟨habs.symm, ?_⟩
    zify
    rw [← Int.natCast_natAbs, habs, hpos]

/-- The conversion back to an integer. -/
theorem IsWhole.toInt (h : IsWhole u v) (lo hi : ℤ) : u.toInt lo hi = v := by
  cases u with
  | infinity s => exact False.elim h
  | notANumber => exact False.elim h
  | zero s => exact Eq.symm h
  | finite s m e hm =>
    obtain ⟨hsign, hdigits⟩ := h.value
    obtain ⟨-, -, hmin, -, -⟩ := h
    rcases le_or_gt 0 e with he | he
    · have hnat : m * 2 ^ e.toNat = v.natAbs := by
        rw [show (e + 52).toNat = e.toNat + 52 by omega, pow_add, ← Nat.mul_assoc] at hdigits
        exact Nat.eq_of_mul_eq_mul_right (by positivity) hdigits
      show roundToInt s m e = v
      rw [roundToInt, decreaseExponent, sub_zero]
      dsimp only
      rw [shiftToExponent, Int.toNat_of_nonneg he, sub_self]
      show s.apply ((m <<< e.toNat : ℕ) : ℤ) = v
      rw [Nat.shiftLeft_eq, hnat, ← hsign]
    · obtain ⟨k, hk⟩ : ∃ k : ℕ, e = -k := ⟨(-e).toNat, by omega⟩
      subst hk
      have hshift : m = v.natAbs <<< k := by
        rw [Nat.shiftLeft_eq]
        have hpow : 2 ^ k * 2 ^ (-(k : ℤ) + 52).toNat = 2 ^ 52 := by
          rw [← pow_add]
          congr 1
          omega
        rw [← hpow, ← Nat.mul_assoc] at hdigits
        exact Nat.eq_of_mul_eq_mul_right (by positivity) hdigits
      show roundToInt s m (-k) = v
      rw [hshift, roundToInt_shiftLeft, ← hsign]

/-! ### The order -/

/-- Of two numbers the greater has the greater exponent, or the greater digits. -/
theorem digits_lt {m m' : ℕ} {e e' : ℤ} (hlo : 2 ^ 52 ≤ m') (hhi : m < 2 ^ 53) (he : -52 ≤ e)
    (h : e < e' ∨ e = e' ∧ (m : ℤ) < m') :
    m * 2 ^ (e + 52).toNat < m' * 2 ^ (e' + 52).toNat := by
  rcases h with hlt | ⟨rfl, hlt⟩
  · calc m * 2 ^ (e + 52).toNat < 2 ^ 53 * 2 ^ (e + 52).toNat :=
          Nat.mul_lt_mul_of_pos_right hhi (by positivity)
      _ = 2 ^ 52 * 2 ^ ((e + 52).toNat + 1) := by ring
      _ ≤ 2 ^ 52 * 2 ^ (e' + 52).toNat :=
          Nat.mul_le_mul_left _ (Nat.pow_le_pow_right (by omega) (by omega))
      _ ≤ m' * 2 ^ (e' + 52).toNat := Nat.mul_le_mul_right _ hlo
  · exact Nat.mul_lt_mul_of_pos_right (by omega) (by positivity)

/-- The rank of a whole number: its sign, and then its digits. -/
theorem IsWhole.rank (h : IsWhole u v) : ∃ e m : ℤ, unpackedRank u = Rank.mk v.sign (v.sign * e)
    (v.sign * m) ∧ (v ≠ 0 → ∃ k : ℕ, m = k ∧ 2 ^ 52 ≤ k ∧ k < 2 ^ 53 ∧ -52 ≤ e ∧
      k * 2 ^ (e + 52).toNat = v.natAbs * 2 ^ 52) := by
  cases u with
  | infinity s => exact False.elim h
  | notANumber => exact False.elim h
  | zero s =>
    obtain rfl : v = 0 := h
    exact ⟨0, 0, rfl, fun hne => absurd rfl hne⟩
  | finite s m e hm =>
    obtain ⟨hsign, hdigits⟩ := h.value
    obtain ⟨hlo, hhi, hmin, -, -⟩ := h
    have hpos : 0 < v.natAbs := by
      have : 0 < m * 2 ^ (e + 52).toNat := by positivity
      omega
    refine ⟨e, m, ?_, fun _ => ⟨m, rfl, hlo, hhi, hmin, hdigits⟩⟩
    cases s with
    | negative =>
      have hneg : v < 0 := by
        have : v = -(v.natAbs : ℤ) := hsign
        omega
      rw [Int.sign_eq_neg_one_of_neg hneg, neg_one_mul, neg_one_mul]
      rfl
    | positive =>
      have hpos : 0 < v := by
        have : v = (v.natAbs : ℤ) := hsign
        omega
      rw [Int.sign_eq_one_of_pos hpos, one_mul, one_mul]
      rfl

theorem sign_cases (n : ℤ) :
    (n < 0 ∧ n.sign = -1) ∨ (n = 0 ∧ n.sign = 0) ∨ (0 < n ∧ n.sign = 1) := by
  rcases lt_trichotomy n 0 with hneg | rfl | hpos
  · exact .inl ⟨hneg, Int.sign_eq_neg_one_of_neg hneg⟩
  · exact .inr (.inl ⟨rfl, rfl⟩)
  · exact .inr (.inr ⟨hpos, Int.sign_eq_one_of_pos hpos⟩)

theorem IsWhole.lt_of_rank (h : IsWhole u v) (h' : IsWhole u' v')
    (hlt : unpackedRank u < unpackedRank u') : v < v' := by
  obtain ⟨e, m, hrank, hdigits⟩ := h.rank
  obtain ⟨e', m', hrank', hdigits'⟩ := h'.rank
  rw [hrank, hrank', Rank.mk_lt] at hlt
  rcases hlt with hsign | ⟨hsign, hlt⟩
  · rcases sign_cases v with ⟨hv, heq⟩ | ⟨hv, heq⟩ | ⟨hv, heq⟩ <;>
      rcases sign_cases v' with ⟨hv', heq'⟩ | ⟨hv', heq'⟩ | ⟨hv', heq'⟩ <;> omega
  · rw [← hsign] at hlt
    rcases sign_cases v with ⟨hv, heq⟩ | ⟨hv, heq⟩ | ⟨hv, heq⟩
    · -- of two negative numbers the greater has the smaller digits
      have hv' : v' < 0 := Int.sign_eq_neg_one_iff_neg.mp (hsign ▸ heq)
      obtain ⟨k, hm, hlo, hhi, hmin, hk⟩ := hdigits hv.ne
      obtain ⟨k', hm', hlo', hhi', hmin', hk'⟩ := hdigits' hv'.ne
      rw [heq, hm, hm'] at hlt
      have hrank : e' < e ∨ e' = e ∧ (k' : ℤ) < k := by omega
      have hdig := digits_lt hlo hhi' hmin' hrank
      rw [hk, hk'] at hdig
      omega
    · rw [heq] at hlt
      omega
    · have hv' : 0 < v' := Int.sign_eq_one_iff_pos.mp (hsign ▸ heq)
      obtain ⟨k, hm, hlo, hhi, hmin, hk⟩ := hdigits hv.ne'
      obtain ⟨k', hm', hlo', hhi', hmin', hk'⟩ := hdigits' hv'.ne'
      rw [heq, hm, hm'] at hlt
      have hrank : e < e' ∨ e = e' ∧ (k : ℤ) < k' := by omega
      have hdig := digits_lt hlo' hhi hmin hrank
      rw [hk, hk'] at hdig
      omega

theorem IsWhole.eq_of_rank (h : IsWhole u v) (h' : IsWhole u' v')
    (heq : unpackedRank u = unpackedRank u') : v = v' := by
  obtain ⟨e, m, hrank, hdigits⟩ := h.rank
  obtain ⟨e', m', hrank', hdigits'⟩ := h'.rank
  rw [hrank, hrank', Rank.mk_inj] at heq
  obtain ⟨hsign, hexp, hdig⟩ := heq
  rcases eq_or_ne v 0 with rfl | hv
  · exact (Int.sign_eq_zero_iff_zero.mp hsign.symm).symm
  · have hsign₀ : v.sign ≠ 0 := fun hzero => hv (Int.sign_eq_zero_iff_zero.mp hzero)
    have hv' : v' ≠ 0 := fun hzero => hsign₀ (hsign.trans (Int.sign_eq_zero_iff_zero.mpr hzero))
    rw [← hsign] at hexp hdig
    obtain rfl := mul_left_cancel₀ hsign₀ hexp
    obtain rfl := mul_left_cancel₀ hsign₀ hdig
    obtain ⟨k, hk, -, -, -, hvalue⟩ := hdigits hv
    obtain ⟨k', hk', -, -, -, hvalue'⟩ := hdigits' hv'
    obtain rfl : k = k' := Int.ofNat.inj (hk.symm.trans hk')
    have habs : v.natAbs = v'.natAbs :=
      Nat.eq_of_mul_eq_mul_right (by positivity) (hvalue.symm.trans hvalue')
    rw [← Int.sign_mul_natAbs v, ← Int.sign_mul_natAbs v', hsign, habs]

theorem IsWhole.lt_iff (h : IsWhole u v) (h' : IsWhole u' v') :
    unpackedRank u < unpackedRank u' ↔ v < v' := by
  constructor
  · exact h.lt_of_rank h'
  · intro hlt
    rcases lt_trichotomy (unpackedRank u) (unpackedRank u') with hrank | hrank | hrank
    · exact hrank
    · exact absurd (h.eq_of_rank h' hrank) hlt.ne
    · exact absurd (h'.lt_of_rank h hrank) hlt.asymm

theorem IsWhole.eq_iff (h : IsWhole u v) (h' : IsWhole u' v') :
    unpackedRank u = unpackedRank u' ↔ v = v' := by
  constructor
  · exact h.eq_of_rank h'
  · rintro rfl
    rcases lt_trichotomy (unpackedRank u) (unpackedRank u') with hrank | hrank | hrank
    · exact absurd (h.lt_of_rank h' hrank) (lt_irrefl v)
    · exact hrank
    · exact absurd (h'.lt_of_rank h hrank) (lt_irrefl v)

end IsWhole

/-! ### Doubles of integers -/

section Long

variable {a b : ℤ} (ha : a.natAbs ≤ 2 ^ 63) (hb : b.natAbs ≤ 2 ^ 63)

include ha

theorem doubleOfLong_not_isNaN : (doubleOfLong a).isNaN = false :=
  (isWhole_doubleOfLong ha).not_isNaN

/-- **The conversion there and back**: 2 ^ 63 does not fit. -/
theorem longOfDouble_nearest :
    longOfDouble (doubleOfLong a) = if nearest 53 a = 2 ^ 63 then -2 ^ 63 else nearest 53 a := by
  have hbound := nearest_natAbs_le (p := 53) (by omega) ha
  rw [longOfDouble, (isWhole_doubleOfLong ha).toInt, doubleOfLong_not_isNaN ha]
  by_cases htop : nearest 53 a = 2 ^ 63
  · rw [if_pos htop, if_pos (.inr (.inr htop.ge))]
  · rw [if_neg htop, if_neg]
    rw [Bool.false_eq_true, false_or]
    omega

include hb

theorem doubleOfLong_lt : doubleOfLong a < doubleOfLong b ↔ nearest 53 a < nearest 53 b :=
  (float_lt_iff (doubleOfLong_not_isNaN ha) (doubleOfLong_not_isNaN hb)).trans
    ((isWhole_doubleOfLong ha).lt_iff (isWhole_doubleOfLong hb))

theorem doubleOfLong_le : doubleOfLong a ≤ doubleOfLong b ↔ nearest 53 a ≤ nearest 53 b := by
  rw [float_le_iff (doubleOfLong_not_isNaN ha) (doubleOfLong_not_isNaN hb), ← not_lt, ← not_lt]
  exact not_congr ((isWhole_doubleOfLong hb).lt_iff (isWhole_doubleOfLong ha))

theorem doubleOfLong_beq :
    (doubleOfLong a == doubleOfLong b) = true ↔ nearest 53 a = nearest 53 b :=
  (float_beq_iff (doubleOfLong_not_isNaN ha) (doubleOfLong_not_isNaN hb)).trans
    ((isWhole_doubleOfLong ha).eq_iff (isWhole_doubleOfLong hb))

end Long

end Jaguar
