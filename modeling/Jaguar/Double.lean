/-
C's `double`, on top of Lean's `Float` and its logical model.

`Float` computes what C computes for `+ - * /` and the comparisons; here is what
the repository uses beyond that: reading a numeral (`atof`), the conversions from
and to `long long`, `fmod`, and `printf("%g")`.
-/
import Jaguar.Bytes
import Mathlib.Data.List.TakeWhile

namespace Jaguar

/-- The decimal digits of a number. -/
def natText (n : ℕ) : Text := (Nat.toDigits 10 n).map Char.toUInt8

/-- `printf("%lld")`. -/
def intText (n : ℤ) : Text := if n < 0 then 45 :: natText n.natAbs else natText n.natAbs

theorem digit_range {n : ℕ} {c : Char} (h : c ∈ Nat.toDigits 10 n) :
    48 ≤ c.toNat ∧ c.toNat ≤ 57 := by
  have hdigit : c.isDigit := Nat.isDigit_of_mem_toDigits (by decide) (by decide) h
  simpa [Char.isDigit, UInt32.le_iff_toNat_le] using hdigit

theorem toNat_toUInt8 {c : Char} (h : c.toNat ≤ 57) : c.toUInt8.toNat = c.toNat := by
  show c.toNat % 256 = c.toNat
  omega

theorem isDigit_of_mem_natText {n : ℕ} {b : UInt8} (h : b ∈ natText n) : isDigit b := by
  obtain ⟨c, hc, rfl⟩ := List.mem_map.mp h
  obtain ⟨hlo, hhi⟩ := digit_range hc
  have hb := toNat_toUInt8 hhi
  simp only [isDigit, Bool.and_eq_true, decide_eq_true_eq, UInt8.le_iff_toNat_le, hb]
  exact ⟨hlo, hhi⟩

theorem natText_ne_nil (n : ℕ) : natText n ≠ [] := by
  simp [natText]

theorem digitsVal_natText (n : ℕ) : digitsVal (natText n) = n := by
  have hfold : ∀ cs : List Char, (∀ c ∈ cs, c.toNat ≤ 57) → ∀ init : ℕ,
      (cs.map Char.toUInt8).foldl (fun n c => 10 * n + (c.toNat - 48)) init
        = Nat.ofDigitChars 10 cs init := by
    intro cs hcs
    induction cs with
    | nil => exact fun init => rfl
    | cons c cs ih =>
      intro init
      rw [List.map_cons, List.foldl_cons, Nat.ofDigitChars_cons,
        toNat_toUInt8 (hcs c List.mem_cons_self)]
      exact ih (fun c hc => hcs c (List.mem_cons_of_mem _ hc)) _
  rw [digitsVal, natText, hfold _ fun c hc => (digit_range hc).2, Nat.ofDigitChars_ten_toDigits]

/-- `atol` reads back what `%lld` printed. -/
theorem atol_natText {n : ℕ} (h : n < 2 ^ 63) : atol (natText n) = n := by
  have hdigits : (natText n).takeWhile isDigit = natText n :=
    List.takeWhile_eq_self_iff.mpr fun b => isDigit_of_mem_natText
  obtain ⟨b, bs, hb⟩ := List.exists_cons_of_ne_nil (natText_ne_nil n)
  have hdigit : 48 ≤ b.toNat ∧ b.toNat ≤ 57 :=
    isDigit_iff.mp (isDigit_of_mem_natText (n := n) (by simp [hb]))
  have hspace : isSpace b = false := by
    rw [Bool.eq_false_iff, ne_eq, isSpace_iff]
    omega
  have hsign : ∀ c : UInt8, c.toNat < 48 → (natText n).head? ≠ some c := by
    intro c hc heq
    rw [hb, List.head?_cons] at heq
    obtain rfl := Option.some.inj heq
    omega
  have hdrop : (natText n).dropWhile isSpace = natText n := by
    rw [hb, List.dropWhile_cons_of_neg (by simp [hspace])]
  have hval := digitsVal_natText n
  simp only [atol, hdrop, hsign 45 (by decide), hsign 43 (by decide), if_false, or_self, hdigits,
    hval]
  omega

/-- `atof` on text that starts with a decimal numeral. Without a digit there is none, and the sign
does not count: 0. -/
def atof (s : Text) : Float :=
  let s := s.dropWhile isSpace
  let neg := s.head? = some 45
  let s := if neg ∨ s.head? = some 43 then s.drop 1 else s
  let whole := s.takeWhile isDigit
  let s := s.drop whole.length
  let frac := if s.head? = some 46 then (s.drop 1).takeWhile isDigit else []
  let s := if s.head? = some 46 then s.drop (1 + frac.length) else s
  let exp : ℤ :=
    if s.head? = some 101 ∨ s.head? = some 69 then
      let s := s.drop 1
      let expNeg := s.head? = some 45
      let s := if expNeg ∨ s.head? = some 43 then s.drop 1 else s
      let n : ℤ := digitsVal (s.takeWhile isDigit)
      if expNeg then -n else n
    else 0
  let mag := Float.ofModel (.ofScientific (digitsVal (whole ++ frac)) (exp - frac.length))
  if neg ∧ whole ++ frac ≠ [] then -mag else mag

/-- `(double)n`. -/
def doubleOfLong (n : ℤ) : Float := Float.ofModel (.ofInt n)

/-- `(long long)x`; what x86 makes of a value out of range. -/
def longOfDouble (x : Float) : ℤ :=
  let n := x.toModel.unpack.toInt (-2 ^ 63) (-2 ^ 63)
  if x.isNaN ∨ n < -2 ^ 63 ∨ 2 ^ 63 ≤ n then -2 ^ 63 else n

open Float.Model UnpackedFloat in
/-- `fmod`: the exact remainder of the truncated quotient, with the sign of `x`. -/
def fmod (x y : Float) : Float :=
  match x.toModel.unpack, y.toModel.unpack with
  | .finite sx mx ex _, .finite _ my ey _ =>
    let e := min ex ey
    let m := (mx * 2 ^ (ex - e).toNat) % (my * 2 ^ (ey - e).toNat)
    Float.ofModel (.pack (if m = 0 then .zero sx else .round Format.binary64 sx m e))
  | .zero sx, .finite .. => Float.ofModel (.pack (.zero sx))
  | .zero sx, .infinity _ => Float.ofModel (.pack (.zero sx))
  | .finite .., .infinity _ => x
  | _, _ => Float.ofModel (.pack .notANumber)

/-! ### `printf("%g")` -/

/-- `n / d` rounded to the nearest integer, ties to even. -/
def roundDiv (n d : ℕ) : ℕ :=
  let q := n / d
  let r := n % d
  if d < 2 * r ∨ (2 * r = d ∧ q % 2 = 1) then q + 1 else q

/-- The exponent `k` with `10 ^ k ≤ n / d < 10 ^ (k + 1)`. -/
def decimalExponent (n d : ℕ) : ℤ :=
  if d ≤ n then (Nat.toDigits 10 (n / d)).length - 1
  else -(Nat.toDigits 10 ((d - 1) / n)).length

/-- `n / d` to six significant digits: the digits as a number, and the exponent of
the first one. -/
def sixDigits (n d : ℕ) : ℕ × ℤ :=
  let k := decimalExponent n d
  let m := if k ≤ 5 then roundDiv (n * 10 ^ (5 - k).toNat) d
    else roundDiv n (d * 10 ^ (k - 5).toNat)
  if m = 10 ^ 6 then (10 ^ 5, k + 1) else (m, k)

/-- `%g` drops trailing zeros of the fraction, and the point with the last of them. -/
def dropZeros (frac : Text) : Text :=
  let frac := (frac.reverse.dropWhile (· = 48)).reverse
  if frac = [] then [] else 46 :: frac

/-- `%g` of the positive number `n / d`. -/
def formatRatio (n d : ℕ) : Text :=
  let (m, k) := sixDigits n d
  let digits := natText m
  if k < -4 ∨ 6 ≤ k then
    let exp := natText k.natAbs
    let exp := if exp.length < 2 then 48 :: exp else exp
    digits.take 1 ++ dropZeros (digits.drop 1) ++ txt (if k < 0 then "e-" else "e+") ++ exp
  else if k < 0 then 48 :: dropZeros (List.replicate (-k - 1).toNat 48 ++ digits)
  else digits.take (k.toNat + 1) ++ dropZeros (digits.drop (k.toNat + 1))

open Float.Model UnpackedFloat in
/-- `%g`. A NaN prints as the one that an invalid operation leaves on x86, whose sign bit is set; the
sign of a NaN is no part of a `Float`, so one that has been negated prints alike. -/
def formatG (x : Float) : Text :=
  let minus : Sign → Text := fun s => match s with
    | .negative => [45]
    | .positive => []
  match x.toModel.unpack with
  | .notANumber => txt "-nan"
  | .infinity s => minus s ++ txt "inf"
  | .zero s => minus s ++ txt "0"
  | .finite s m e _ =>
    minus s ++ (if e < 0 then formatRatio m (2 ^ (-e).toNat) else formatRatio (m * 2 ^ e.toNat) 1)

example : formatG (atof (txt "-0.10E2") / atof (txt "4")) = txt "-2.5" := by decide +kernel

example : formatG (atof (txt "-e5")) = txt "0" := by decide +kernel

example : formatG (atof (txt "0.0") / atof (txt "0")) = txt "-nan" := by decide +kernel

end Jaguar
