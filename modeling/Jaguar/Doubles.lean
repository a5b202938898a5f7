/-
Whole numbers as doubles: the conversions of `Double` are exact below `2 ^ 53`.

The double of such a number is its binary digits, shifted up to 53 of them; no digit is
rounded away, and the conversion back shifts them down again.

* `unpack_pack_normal` — a normal number is read back from its bits;
* `round_of_lt` — rounding a number of at most 53 digits shifts it;
* `longOfDouble_doubleOfLong` — **the conversion there and back**.
-/
import Jaguar.Double
import Mathlib.Data.Nat.Log
import Mathlib.Tactic.NormNum

namespace Jaguar

open Float.Model Float.Model.UnpackedFloat

theorem sign_ofBitVec_toBitVec (s : Sign) : Sign.ofBitVec s.toBitVec = s := by
  cases s <;> rfl

theorem unpackSign_packComponents (s : Sign) (e : BitVec 11) (m : BitVec 52) :
    unpackSign (packComponents Format.binary64 s e m) = s.toBitVec := by
  apply BitVec.eq_of_getLsbD_eq
  intro i hi
  obtain rfl : i = 0 := by omega
  have hlast : (s.toBitVec ++ e ++ m : BitVec (1 + 11 + 52)).getLsbD 63 = s.toBitVec[0] := by
    rw [BitVec.getLsbD_append, BitVec.getLsbD_append]
    rfl
  show ((s.toBitVec ++ e ++ m : BitVec (1 + 11 + 52)).extractLsb 63 63).getLsbD 0 = _
  rw [BitVec.getLsbD_extractLsb]
  simp only [Nat.sub_self, Nat.add_zero]
  exact hlast

theorem finite_eq {s : Sign} {m m' : ℕ} {e e' : ℤ} (hm : 0 < m) (hm' : 0 < m') (h : m = m')
    (he : e = e') : finite s m e hm = finite s m' e' hm' := by
  subst h he
  rfl

/-- The bit in front of the stored ones. -/
theorem toNat_implicit {m : ℕ} (hlo : 2 ^ 52 ≤ m) (hhi : m < 2 ^ 53) :
    (1#1 ++ BitVec.ofNat 52 m).toNat = m := by
  rw [BitVec.toNat_append, ← Nat.shiftLeft_add_eq_or_of_lt (BitVec.isLt _), BitVec.toNat_ofNat,
    Nat.shiftLeft_eq]
  simp only [BitVec.toNat_ofNat]
  omega

theorem implicit_pos (m : BitVec 52) : 0 < (1#1 ++ m).toNat := by
  rw [BitVec.toNat_append, ← Nat.shiftLeft_add_eq_or_of_lt (BitVec.isLt _), Nat.shiftLeft_eq]
  simp only [BitVec.toNat_ofNat]
  omega

theorem unpack_normal {b : BitVec Format.binary64.numBits} {mantissa : BitVec 52}
    {exponent : BitVec 11} {sign : BitVec 1} (hm : unpackMantissa b = mantissa)
    (he : unpackExponent b = exponent) (hs : unpackSign b = sign) (hones : exponent ≠ -1#11)
    (hzero : exponent ≠ 0#11) :
    unpack Format.binary64 b = .finite (Sign.ofBitVec sign) (1#1 ++ mantissa).toNat
      (exponent.toNat - ((Format.binary64.exponentBias : ℕ) + (52 : ℕ)))
      (implicit_pos mantissa) := by
  subst hm he hs
  unfold UnpackedFloat.unpack
  dsimp only
  rw [if_neg hones, if_neg hzero]

/-- A number with 53 digits, read back from its bits. -/
theorem unpack_pack_normal (s : Sign) {m : ℕ} {e : ℤ} (hm : 0 < m) (hlo : 2 ^ 52 ≤ m)
    (hhi : m < 2 ^ 53) (hmin : -1074 ≤ e) (hmax : e ≤ 971) :
    unpack Format.binary64 (pack Format.binary64 (.finite s m e hm)) = .finite s m e hm := by
  have hlog : m.log2 + 1 = 53 := by
    have h₁ := (Nat.le_log2 hm.ne').mpr hlo
    have h₂ := (Nat.log2_lt hm.ne').mpr hhi
    omega
  obtain ⟨b, hb⟩ : ∃ b : ℕ, (b : ℤ) = e + 1075 := ⟨(e + 1075).toNat, by omega⟩
  have hbias : (e + (Format.binary64.exponentBias : ℕ) + (52 : ℕ)).toNat = b := by
    show (e + ((2 ^ (11 - 1) - 1 : ℕ) : ℤ) + (52 : ℕ)).toNat = b
    omega
  have hbits : (BitVec.ofNat 11 b).toNat = b := by
    rw [BitVec.toNat_ofNat, Nat.mod_eq_of_lt (by omega)]
  have hzero : BitVec.ofNat 11 b ≠ 0#11 := by
    intro heq
    have := congrArg BitVec.toNat heq
    rw [hbits] at this
    simp at this
    omega
  have hones : BitVec.ofNat 11 b ≠ -1#11 := by
    intro heq
    have := congrArg BitVec.toNat heq
    rw [hbits] at this
    simp at this
    omega
  have hpack : pack Format.binary64 (.finite s m e hm)
      = packComponents Format.binary64 s (BitVec.ofNat 11 b) (BitVec.ofNat 52 m) := by
    show (if 2 ^ 11 ≤ (e + (Format.binary64.exponentBias : ℕ) + (52 : ℕ)).toNat + 1 then _
      else if m.log2 + 1 = 53 then packComponents Format.binary64 s
        (BitVec.ofNat 11 (e + (Format.binary64.exponentBias : ℕ) + (52 : ℕ)).toNat)
        (BitVec.ofNat 52 m) else _) = _
    rw [hbias, if_neg (by omega), if_pos hlog]
  rw [hpack]
  rw [unpack_normal (unpackMantissa_packComponents ..) (unpackExponent_packComponents ..)
    (unpackSign_packComponents ..) hones hzero, sign_ofBitVec_toBitVec]
  refine finite_eq _ hm (toNat_implicit hlo hhi) ?_
  show ((BitVec.ofNat 11 b).toNat : ℤ) - (((2 ^ (11 - 1) - 1 : ℕ) : ℤ) + (52 : ℕ)) = e
  omega

/-! ### Rounding -/

theorem targetExponent_eq {k : ℤ} (hk : -1021 ≤ k) :
    Format.binary64.targetExponent k = k - 53 := by
  show max (k - ((1 + 52 : ℕ) : ℤ)) (3 - 2 ^ (11 - 1) - ((1 + 52 : ℕ) : ℤ)) = k - 53
  omega

theorem shiftToTargetExponent_normal {m : ℕ} {e : ℤ} (hlog : m.log2 = 52) (hmin : -1074 ≤ e) :
    shiftToTargetExponent Format.binary64 m e .exact = (⟨m, false, false⟩, e) := by
  have htarget : Format.binary64.targetExponent (totalExponent m e) = e := by
    rw [totalExponent, hlog, targetExponent_eq (by omega)]
    omega
  rw [shiftToTargetExponent, htarget, shiftToExponent, sub_self]
  simp only [Int.toNat_zero, Int.natCast_zero, add_zero]
  rfl

/-- No digit is rounded away. -/
theorem roundWithAccuracy_normal (s : Sign) {m : ℕ} {e : ℤ} (hm : 0 < m) (hlog : m.log2 = 52)
    (hmin : -1074 ≤ e) :
    roundWithAccuracy Format.binary64 s m e .exact = .finite s m e hm := by
  rw [roundWithAccuracy, shiftToTargetExponent_normal hlog hmin]
  dsimp only
  have hrounded : (⟨m, false, false⟩ : ExtendedMantissa).roundedMantissa = m := rfl
  rw [hrounded, shiftToTargetExponent_normal hlog hmin]
  rw [dif_neg hm.ne']

theorem log2_shiftLeft {m : ℕ} (hm : 0 < m) (k : ℕ) : (m <<< k).log2 = m.log2 + k := by
  induction k with
  | zero => rfl
  | succ k ih =>
    have hpos : m <<< k ≠ 0 := by
      rw [Nat.shiftLeft_eq]
      positivity
    rw [Nat.shiftLeft_succ, Nat.log2_two_mul hpos, ih, Nat.add_assoc]

/-- A number of at most 53 digits is shifted until it has 53. -/
theorem round_of_lt (s : Sign) {m : ℕ} (hm : 0 < m) (hlt : m < 2 ^ 53) :
    ∃ k, ∃ h : 0 < m <<< k, (m <<< k).log2 = 52 ∧ k ≤ 52 ∧
      UnpackedFloat.round Format.binary64 s m 0 = .finite s (m <<< k) (-k) h := by
  have hlog : m.log2 < 53 := (Nat.log2_lt hm.ne').mpr hlt
  have hpos : 0 < m <<< (52 - m.log2) := by
    rw [Nat.shiftLeft_eq]
    positivity
  have hdigits : (m <<< (52 - m.log2)).log2 = 52 := by
    rw [log2_shiftLeft hm]
    omega
  have htarget : Format.binary64.targetExponent (totalExponent m 0) = -((52 - m.log2 : ℕ) : ℤ) := by
    rw [totalExponent, targetExponent_eq (by omega)]
    omega
  refine ⟨52 - m.log2, hpos, hdigits, Nat.sub_le _ _, ?_⟩
  rw [UnpackedFloat.round, htarget, decreaseExponent, zero_sub, neg_neg, Int.toNat_natCast]
  dsimp only
  rw [zero_sub, roundWithAccuracy_normal s hpos hdigits (by omega)]

/-! ### There and back -/

theorem shiftRight_mantissa (em : ExtendedMantissa) (k : ℕ) :
    (em >>> k).mantissa = em.mantissa >>> k := by
  show (k.repeat ExtendedMantissa.shiftRightOne em).mantissa = em.mantissa >>> k
  induction k with
  | zero => rfl
  | succ k ih =>
    show (k.repeat ExtendedMantissa.shiftRightOne em).mantissa / 2 = em.mantissa >>> (k + 1)
    rw [ih, Nat.shiftRight_succ]

theorem roundToInt_shiftLeft (s : Sign) (m k : ℕ) : roundToInt s (m <<< k) (-k) = s.apply m := by
  have hdecrease : decreaseExponent (m <<< k) (-k) 0 = (m <<< k, -(k : ℤ)) := by
    have hzero : (-(k : ℤ) - 0).toNat = 0 := by omega
    rw [decreaseExponent, hzero]
    simp
  rw [roundToInt, hdecrease]
  dsimp only
  rw [shiftToExponent, zero_sub, neg_neg, Int.toNat_natCast]
  dsimp only
  rw [shiftRight_mantissa]
  show s.apply ((m <<< k >>> k : ℕ) : ℤ) = s.apply m
  rw [Nat.shiftLeft_shiftRight]

/-- The double of an integer other than 0. -/
theorem ofInt_eq {n : ℤ} (h : n.natAbs < 2 ^ 53) (hn : n ≠ 0) :
    ∃ s, ∃ m k : ℕ, ∃ hm : 0 < m <<< k, (m <<< k).log2 = 52 ∧ k ≤ 52 ∧ Sign.apply s m = n ∧
      UnpackedFloat.ofInt Format.binary64 n = .finite s (m <<< k) (-k) hm := by
  rcases lt_or_gt_of_ne hn with hneg | hpos
  · obtain ⟨k, hm, hlog, hk, hround⟩ :=
      round_of_lt .negative (m := (-n).toNat) (by omega) (by omega)
    refine ⟨.negative, (-n).toNat, k, hm, hlog, hk, ?_, ?_⟩
    · show -(((-n).toNat : ℕ) : ℤ) = n
      omega
    · rw [UnpackedFloat.ofInt, UnpackedFloat.normalize, compare_lt_iff_lt.mpr hneg]
      exact hround
  · obtain ⟨k, hm, hlog, hk, hround⟩ :=
      round_of_lt .positive (m := n.toNat) (by omega) (by omega)
    refine ⟨.positive, n.toNat, k, hm, hlog, hk, ?_, ?_⟩
    · show ((n.toNat : ℕ) : ℤ) = n
      omega
    · rw [UnpackedFloat.ofInt, UnpackedFloat.normalize, compare_gt_iff_gt.mpr hpos]
      exact hround

/-- **The conversion there and back.** -/
theorem longOfDouble_doubleOfLong {n : ℤ} (h : n.natAbs < 2 ^ 53) :
    longOfDouble (doubleOfLong n) = n := by
  have hunpack : ∃ u, (doubleOfLong n).toModel.unpack = u ∧ u.isNaN = false ∧
      u.toInt (-2 ^ 63) (-2 ^ 63) = n := by
    refine ⟨unpack Format.binary64 (pack Format.binary64 (UnpackedFloat.ofInt Format.binary64 n)),
      rfl, ?_⟩
    rcases eq_or_ne n 0 with rfl | hn
    · exact ⟨rfl, rfl⟩
    · obtain ⟨s, m, k, hm, hlog, hk, hvalue, hofInt⟩ := ofInt_eq h hn
      have hlo := (Nat.le_log2 hm.ne').mp hlog.ge
      have hhi := (Nat.log2_lt hm.ne').mp (show (m <<< k).log2 < 53 by omega)
      rw [hofInt, unpack_pack_normal s hm hlo hhi (by omega) (by omega)]
      exact ⟨rfl, (roundToInt_shiftLeft s m k).trans hvalue⟩
  obtain ⟨u, hu, hnan, hvalue⟩ := hunpack
  have hisNaN : (doubleOfLong n).isNaN = false := by
    show (doubleOfLong n).toModel.unpack.isNaN = false
    rw [hu, hnan]
  rw [longOfDouble, hu, hvalue, hisNaN]
  refine if_neg ?_
  rw [Bool.false_eq_true, false_or]
  omega

end Jaguar
