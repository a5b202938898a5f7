/-
Byte strings.

`Text` stands for the bytes of a C string or of a length-counted buffer; where
the source relies on the terminating NUL, `cStr` cuts there.

* `isSpace`, `isDigit`, `isAlpha`, `atol` — the C library on characters and numerals;
* `beNat`, `beBytes` — big-endian numbers, as the wire formats write them;
* `beNat_beBytes` — decoding what was written.
-/
import Mathlib.Data.Nat.Notation
import Mathlib.Data.List.Basic
import Mathlib.Data.List.Induction
import Mathlib.Data.List.TakeWhile
import Mathlib.Tactic.Basic
import Mathlib.Tactic.Ring

namespace Jaguar

/-- The bytes of a buffer. -/
abbrev Text := List UInt8

/-- The bytes of a string literal of the source. -/
def txt (s : String) : Text := s.toList.map Char.toUInt8

/-- What a C string function sees of a buffer: the bytes before the first NUL. -/
def cStr (s : Text) : Text := s.takeWhile (· ≠ 0)

/-- What holds of all items of a list is decided by running over them. -/
theorem forall_mem_of_all {α : Type*} {p : α → Prop} [DecidablePred p] {l : List α}
    (h : (l.all fun a => p a) = true) : ∀ a ∈ l, p a := by
  intro a ha
  exact of_decide_eq_true (List.all_eq_true.mp h a ha)

theorem cStr_eq_self {s : Text} (h : 0 ∉ s) : cStr s = s := by
  refine List.takeWhile_eq_self_iff.mpr fun c hc => ?_
  have hne : c ≠ 0 := fun heq => h (heq ▸ hc)
  simpa using hne

/-! ### Bytes as characters -/

/-- `isspace`. -/
def isSpace (c : UInt8) : Bool := c = 32 || (9 ≤ c && c ≤ 13)

/-- `tolower`. -/
def toLower (c : UInt8) : UInt8 := if 65 ≤ c && c ≤ 90 then c + 32 else c

/-- `strcasecmp(a, b) == 0`. -/
def strcaseEq (a b : Text) : Bool := a.map toLower = b.map toLower

/-- The value of a run of decimal digits. -/
def digitsVal (s : Text) : ℕ := s.foldl (fun n c => 10 * n + (c.toNat - 48)) 0

/-- `isdigit`. -/
def isDigit (c : UInt8) : Bool := 48 ≤ c && c ≤ 57

theorem isDigit_iff {c : UInt8} : isDigit c ↔ 48 ≤ c.toNat ∧ c.toNat ≤ 57 := by
  simp [isDigit, UInt8.le_iff_toNat_le]

theorem isSpace_iff {c : UInt8} : isSpace c ↔ c.toNat = 32 ∨ 9 ≤ c.toNat ∧ c.toNat ≤ 13 := by
  simp [isSpace, UInt8.le_iff_toNat_le, ← UInt8.toNat_inj]

/-- `atol`, which saturates at the bounds of `long`. -/
def atol (s : Text) : ℤ :=
  let s := s.dropWhile isSpace
  let neg := s.head? = some 45
  let s := if neg ∨ s.head? = some 43 then s.drop 1 else s
  let n : ℤ := digitsVal (s.takeWhile isDigit)
  if neg then max (-n) (-2 ^ 63) else min n (2 ^ 63 - 1)

/-- `isalpha` in the C locale. -/
def isAlpha (c : UInt8) : Bool := (65 ≤ c && c ≤ 90) || (97 ≤ c && c ≤ 122)

/-- `isalnum`. -/
def isAlnum (c : UInt8) : Bool := isAlpha c || isDigit c

/-! ### Big-endian numbers -/

/-- The number written big-endian in a list of bytes, `plen = (plen << 8) | byte`. -/
def beNat (bs : Text) : ℕ := bs.foldl (fun n b => n <<< 8 ||| b.toNat) 0

/-- `n` as `k` bytes, most significant first. -/
def beBytes : ℕ → ℕ → Text
  | 0, _ => []
  | k + 1, n => beBytes k (n / 256) ++ [UInt8.ofNat (n % 256)]

theorem beNat_snoc (bs : Text) (b : UInt8) : beNat (bs ++ [b]) = 256 * beNat bs + b.toNat := by
  have hb : b.toNat < 2 ^ 8 := b.toNat_lt
  simp only [beNat, List.foldl_append, List.foldl_cons, List.foldl_nil]
  rw [← Nat.shiftLeft_add_eq_or_of_lt hb, Nat.shiftLeft_eq]
  ring

@[simp] theorem length_beBytes (k n : ℕ) : (beBytes k n).length = k := by
  induction k generalizing n with
  | zero => rfl
  | succ k ih => simp [beBytes, ih]

theorem beNat_beBytes {k n : ℕ} (h : n < 256 ^ k) : beNat (beBytes k n) = n := by
  induction k generalizing n with
  | zero =>
    have : n = 0 := by simpa using h
    simp [beBytes, beNat, this]
  | succ k ih =>
    have hq : n / 256 < 256 ^ k := Nat.div_lt_of_lt_mul (by rwa [pow_succ, mul_comm] at h)
    rw [beBytes, beNat_snoc, ih hq, UInt8.toNat_ofNat_of_lt' (show n % 256 < 256 by omega)]
    omega

theorem beBytes_beNat (bs : Text) : beBytes bs.length (beNat bs) = bs := by
  induction bs using List.reverseRecOn with
  | nil => rfl
  | append_singleton bs b ih =>
    have hb : b.toNat < 256 := b.toNat_lt
    rw [List.length_append, List.length_singleton, beBytes, beNat_snoc]
    rw [show (256 * beNat bs + b.toNat) / 256 = beNat bs by omega, ih]
    rw [show (256 * beNat bs + b.toNat) % 256 = b.toNat by omega, UInt8.ofNat_toNat]

theorem beNat_lt (bs : Text) : beNat bs < 256 ^ bs.length := by
  induction bs using List.reverseRecOn with
  | nil => simp [beNat]
  | append_singleton bs b ih =>
    have hb : b.toNat < 256 := b.toNat_lt
    rw [beNat_snoc, List.length_append, List.length_singleton, pow_succ]
    omega

end Jaguar
