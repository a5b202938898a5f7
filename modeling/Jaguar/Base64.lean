/-
Base64 as the WebSocket handshake writes it (`base64.c`).

Three bytes are regrouped as four sextets, and each sextet is a character of a table.

* `base64Encode` — the encoder;
* `length_base64Encode` — the text fills the buffer that was allocated for it;
* `base64Decode_base64Encode` — **the text can be read back**, whatever was encoded.
-/
import Jaguar.Bytes

namespace Jaguar

/-! ### The source -/

/-- `TABLE`. -/
def base64Table : Text :=
  txt "ABCDEFGHIJKLMNOPQRSTUVWXYZabcdefghijklmnopqrstuvwxyz0123456789+/"

/-- `TABLE[(n >> k) & 0x3F]`. -/
def base64Char (n k : ℕ) : UInt8 := base64Table.getD ((n >>> k) &&& 0x3F) 0

/-- `base64_encode`. -/
def base64Encode : Text → Text
  | a :: b :: c :: s =>
    let n := a.toNat <<< 16 ||| b.toNat <<< 8 ||| c.toNat
    [base64Char n 18, base64Char n 12, base64Char n 6, base64Char n 0] ++ base64Encode s
  | [a, b] =>
    let n := a.toNat <<< 16 ||| b.toNat <<< 8
    [base64Char n 18, base64Char n 12, base64Char n 6, 61]
  | [a] =>
    let n := a.toNat <<< 16
    [base64Char n 18, base64Char n 12, 61, 61]
  | [] => []

/-- **The text fills its buffer**: `out_len` characters, and the byte behind them. -/
theorem length_base64Encode (s : Text) :
    (base64Encode s).length = 4 * ((s.length + 2) / 3) := by
  induction s using base64Encode.induct with
  | case1 a b c s ih =>
    rw [base64Encode, List.length_append, ih]
    simp only [List.length_cons, List.length_nil]
    omega
  | case2 a b => simp [base64Encode]
  | case3 a => simp [base64Encode]
  | case4 => rfl

/-- A character of the table, or the sign that fills up a group. -/
def isBase64 (c : UInt8) : Bool := isAlnum c || c = 43 || c = 47 || c = 61

theorem isBase64_char (n k : ℕ) : isBase64 (base64Char n k) = true := by
  have hall : ∀ i < 64, isBase64 (base64Table.getD i 0) = true := by decide +kernel
  exact hall _ (lt_of_le_of_lt Nat.and_le_right (by decide))

/-- The text has no other characters. -/
theorem isBase64_of_mem {s : Text} {c : UInt8} (h : c ∈ base64Encode s) : isBase64 c = true := by
  have hsign : isBase64 61 = true := by decide
  induction s using base64Encode.induct with
  | case1 a b x s ih =>
    rw [base64Encode, List.mem_append] at h
    rcases h with h | h
    · simp only [List.mem_cons, List.not_mem_nil, or_false] at h
      rcases h with rfl | rfl | rfl | rfl <;> exact isBase64_char _ _
    · exact ih h
  | case2 a b =>
    simp only [base64Encode, List.mem_cons, List.not_mem_nil, or_false] at h
    rcases h with rfl | rfl | rfl | rfl
    exacts [isBase64_char _ _, isBase64_char _ _, isBase64_char _ _, hsign]
  | case3 a =>
    simp only [base64Encode, List.mem_cons, List.not_mem_nil, or_false] at h
    rcases h with rfl | rfl | rfl | rfl
    exacts [isBase64_char _ _, isBase64_char _ _, hsign, hsign]
  | case4 => exact absurd h List.not_mem_nil

/-! ### Reading it back -/

/-- The sextet of a character. -/
def base64Value (c : UInt8) : Option ℕ := base64Table.idxOf? c

/-- The bytes that a text of whole groups stands for. -/
def base64Decode : Text → Option Text
  | a :: b :: c :: d :: s => do
    let x ← base64Value a
    let y ← base64Value b
    if s = [] ∧ c = 61 ∧ d = 61 then
      return [UInt8.ofNat ((x * 2 ^ 18 + y * 2 ^ 12) / 2 ^ 16)]
    let z ← base64Value c
    if s = [] ∧ d = 61 then
      let n := x * 2 ^ 18 + y * 2 ^ 12 + z * 2 ^ 6
      return [UInt8.ofNat (n / 2 ^ 16), UInt8.ofNat (n / 2 ^ 8)]
    let w ← base64Value d
    let n := x * 2 ^ 18 + y * 2 ^ 12 + z * 2 ^ 6 + w
    let rest ← base64Decode s
    return UInt8.ofNat (n / 2 ^ 16) :: UInt8.ofNat (n / 2 ^ 8) :: UInt8.ofNat n :: rest
  | [] => some []
  | _ => none

/-- The table is read back. -/
theorem base64Table_spec : ∀ i < 64,
    base64Value (base64Table.getD i 0) = some i ∧ base64Table.getD i 0 ≠ 61 := by
  decide +kernel

theorem base64Char_spec (n k : ℕ) :
    base64Value (base64Char n k) = some (n / 2 ^ k % 64) ∧ base64Char n k ≠ 61 := by
  have hsextet : (n >>> k) &&& 0x3F = n / 2 ^ k % 64 := by
    rw [Nat.shiftRight_eq_div_pow]
    exact Nat.and_two_pow_sub_one_eq_mod _ 6
  rw [base64Char, hsextet]
  exact base64Table_spec _ (Nat.mod_lt _ (by decide))

/-- The number that three bytes make. -/
theorem group_eq (a b c : UInt8) :
    a.toNat <<< 16 ||| b.toNat <<< 8 ||| c.toNat
      = a.toNat * 2 ^ 16 + b.toNat * 2 ^ 8 + c.toNat := by
  have hc : c.toNat < 2 ^ 8 := c.toNat_lt
  have hb : b.toNat < 2 ^ 8 := b.toNat_lt
  have hshift : a.toNat <<< 16 ||| b.toNat <<< 8 = (a.toNat <<< 8 ||| b.toNat) <<< 8 := by
    rw [Nat.shiftLeft_or_distrib, ← Nat.shiftLeft_add]
  rw [hshift, ← Nat.shiftLeft_add_eq_or_of_lt hc, ← Nat.shiftLeft_add_eq_or_of_lt hb]
  simp only [Nat.shiftLeft_eq]
  ring

theorem ofNat_eq_of_mod {n : ℕ} {a : UInt8} (h : n % 2 ^ 8 = a.toNat) : UInt8.ofNat n = a := by
  rw [← UInt8.toNat_inj, UInt8.toNat_ofNat', h]

/-- **What was encoded is read back.** -/
theorem base64Decode_base64Encode (s : Text) : base64Decode (base64Encode s) = some s := by
  induction s using base64Encode.induct with
  | case1 a b c s ih =>
    have ha := a.toNat_lt
    have hb := b.toNat_lt
    have hc := c.toNat_lt
    have hgroup := group_eq a b c
    rw [base64Encode]
    set n := a.toNat <<< 16 ||| b.toNat <<< 8 ||| c.toNat
    have h18 := base64Char_spec n 18
    have h12 := base64Char_spec n 12
    have h6 := base64Char_spec n 6
    have h0 := base64Char_spec n 0
    show base64Decode (base64Char n 18 :: base64Char n 12 :: base64Char n 6 :: base64Char n 0
      :: base64Encode s) = _
    simp only [base64Decode, h18.1, h12.1, h6.1, h0.1, h6.2, h0.2, ih, Option.bind_eq_bind,
      Option.bind_some, and_false, if_false, Option.pure_def, Option.some.injEq,
      List.cons.injEq, and_true]
    refine ⟨ofNat_eq_of_mod ?_, ofNat_eq_of_mod ?_, ofNat_eq_of_mod ?_⟩ <;> omega
  | case2 a b =>
    have ha := a.toNat_lt
    have hb := b.toNat_lt
    have hgroup := group_eq a b 0
    rw [base64Encode]
    set n := a.toNat <<< 16 ||| b.toNat <<< 8
    have hn : n = a.toNat * 2 ^ 16 + b.toNat * 2 ^ 8 := by
      have hzero : (0 : UInt8).toNat = 0 := rfl
      rw [hzero, Nat.or_zero, Nat.add_zero] at hgroup
      exact hgroup
    have h18 := base64Char_spec n 18
    have h12 := base64Char_spec n 12
    have h6 := base64Char_spec n 6
    simp only [base64Decode, h18.1, h12.1, h6.1, h6.2, Option.bind_eq_bind, Option.bind_some,
      true_and, if_false, if_true, Option.pure_def, Option.some.injEq, List.cons.injEq,
      and_true]
    refine ⟨ofNat_eq_of_mod ?_, ofNat_eq_of_mod ?_⟩ <;> omega
  | case3 a =>
    have ha := a.toNat_lt
    rw [base64Encode]
    have hn : a.toNat <<< 16 = a.toNat * 2 ^ 16 := Nat.shiftLeft_eq _ _
    have h18 := base64Char_spec (a.toNat <<< 16) 18
    have h12 := base64Char_spec (a.toNat <<< 16) 12
    simp only [base64Decode, h18.1, h12.1, Option.bind_eq_bind, Option.bind_some, if_true,
      and_self, Option.pure_def, Option.some.injEq, List.cons.injEq, and_true]
    exact ofNat_eq_of_mod (by omega)
  | case4 => rw [base64Encode]; rfl

end Jaguar
