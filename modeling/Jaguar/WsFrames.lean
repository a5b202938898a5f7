/-
WebSocket frames (`ws.c`): the frame parser and the frame loop of a connection.

`try_parse_frame` is retried on a buffer that grows by one chunk at a time, and
the bytes of a parsed frame are shifted out of its front.

* `WireFrame`, `WireFrame.code` — frames as they stand on the wire, a prefix code;
* `tryParseFrame_bytes` — a complete frame at the front is parsed, whatever follows;
* `tryParseFrame_sound` — whatever is parsed is a complete frame;
* `frameLoop_handles_complete_frames` — however the stream arrives, the loop
  handles its complete frames, each once and in order, up to the first Close.
-/
import Jaguar.Bytes
import Jaguar.PrefixCode

namespace Jaguar

/-! ### The parser -/

/-- What `try_parse_frame` does: ask for more bytes, fill its out parameters, or
copy a payload from beyond the buffer (`buf->len < pos + plen` after wrapping). -/
inductive ParsedFrame
  | need
  | frame (fin : Bool) (opcode : ℕ) (payload : Text) (consumed : ℕ)
  | overrun
  deriving DecidableEq

/-- The payload length and the position behind it: `none` when the buffer ends
inside the length field. -/
def lengthField (buf : Text) (plen : ℕ) : Option (ℕ × ℕ) :=
  if plen = 126 then
    if buf.length < 4 then none else some (beNat ((buf.drop 2).take 2), 4)
  else if plen = 127 then
    if buf.length < 10 then none else some (beNat ((buf.drop 2).take 8), 10)
  else some (plen, 2)

/-- `payload[i] ^= mask[i % 4]`. -/
def xorMask (mask payload : Text) : Text :=
  payload.mapIdx fun i b => b ^^^ mask.getD (i % 4) 0

def tryParseFrame (buf : Text) : ParsedFrame :=
  if buf.length < 2 then .need else
  let b0 := buf.getD 0 0
  let b1 := buf.getD 1 0
  let fin := b0 &&& 0x80 ≠ 0
  let opcode := (b0 &&& 0x0F).toNat
  let masked := b1 &&& 0x80 ≠ 0
  match lengthField buf (b1 &&& 0x7F).toNat with
  | none => .need
  | some (plen, pos) =>
    if masked ∧ buf.length < pos + 4 then .need else
    let mask := if masked then (buf.drop pos).take 4 else [0, 0, 0, 0]
    let pos := if masked then pos + 4 else pos
    -- `pos + plen` is a `size_t`
    if buf.length < (pos + plen) % 2 ^ 64 then .need
    else if buf.length < pos + plen then .overrun
    else
      let payload := (buf.drop pos).take plen
      .frame fin opcode (if masked then xorMask mask payload else payload) (pos + plen)

def bufConsumeFront (buf : Text) (n : ℕ) : Text :=
  if buf.length ≤ n then [] else buf.drop n

theorem two_le_of_lengthField {buf : Text} {n plen pos : ℕ}
    (h : lengthField buf n = some (plen, pos)) : 2 ≤ pos := by
  unfold lengthField at h
  split_ifs at h <;> simp at h <;> omega

/-- A parsed frame takes bytes of the buffer, at least two. -/
theorem tryParseFrame_consumed {buf : Text} {fin : Bool} {opcode n : ℕ} {payload : Text}
    (h : tryParseFrame buf = .frame fin opcode payload n) : 2 ≤ n ∧ n ≤ buf.length := by
  unfold tryParseFrame at h
  by_cases hlen : buf.length < 2
  · rw [if_pos hlen] at h
    cases h
  · rw [if_neg hlen] at h
    dsimp only at h
    cases hfield : lengthField buf (buf.getD 1 0 &&& 0x7F).toNat with
    | none =>
      rw [hfield] at h
      cases h
    | some p =>
      have hpos := two_le_of_lengthField hfield
      rw [hfield] at h
      dsimp only at h
      split_ifs at h <;> (obtain ⟨-, -, -, rfl⟩ := ParsedFrame.frame.inj h; omega)

theorem bufConsumeFront_eq_drop (buf : Text) (n : ℕ) : bufConsumeFront buf n = buf.drop n := by
  unfold bufConsumeFront
  split
  · next h => exact (List.drop_eq_nil_of_le h).symm
  · rfl

/-! ### Frames on the wire -/

/-- The three encodings of a payload length. -/
inductive LengthForm
  | short
  | medium
  | long
  deriving DecidableEq

namespace LengthForm

/-- The seven length bits of the second byte. -/
def code : LengthForm → ℕ → ℕ
  | short, n => n
  | medium, _ => 126
  | long, _ => 127

/-- The extended length field. -/
def bytes : LengthForm → ℕ → Text
  | short, _ => []
  | medium, n => beBytes 2 n
  | long, n => beBytes 8 n

def Fits : LengthForm → ℕ → Prop
  | short, n => n < 126
  | medium, n => n < 2 ^ 16
  | long, n => n < 2 ^ 63

theorem code_lt {form : LengthForm} {n : ℕ} (h : form.Fits n) : form.code n < 128 := by
  cases form with
  | short => exact lt_trans h (by decide)
  | medium => exact (by decide : 126 < 128)
  | long => exact (by decide : 127 < 128)

theorem code_inj {form form' : LengthForm} {n n' : ℕ} (h : form.Fits n) (h' : form'.Fits n')
    (hc : form.code n = form'.code n') : form = form' := by
  cases form <;> cases form' <;> simp [code, Fits] at * <;> omega

theorem bytes_inj {form : LengthForm} {n n' : ℕ} (h : form.Fits n) (h' : form.Fits n')
    (hc : form.code n = form.code n') (hb : form.bytes n = form.bytes n') : n = n' := by
  cases form with
  | short => exact hc
  | medium => rw [← beNat_beBytes (k := 2) h, ← beNat_beBytes (k := 2) h']; exact congrArg beNat hb
  | long =>
    rw [← beNat_beBytes (k := 8) (lt_trans h (by decide)),
      ← beNat_beBytes (k := 8) (lt_trans h' (by decide))]
    exact congrArg beNat hb

end LengthForm

/-- A frame whose payload is shorter than `2 ^ 63` bytes. -/
structure WireFrame where
  /-- The FIN bit, the reserved bits and the opcode. -/
  first : UInt8
  form : LengthForm
  /-- The masking key, when the MASK bit is set. -/
  key : Option Text
  payload : Text
  fits : form.Fits payload.length
  key_length : ∀ k ∈ key, k.length = 4

namespace WireFrame

variable (f : WireFrame)

def fin : Bool := f.first &&& 0x80 ≠ 0

def opcode : ℕ := (f.first &&& 0x0F).toNat

/-- The MASK bit and the length code. -/
def second : UInt8 :=
  UInt8.ofNat ((if f.key.isSome then 128 else 0) + f.form.code f.payload.length)

/-- The bytes in front of the masking key. -/
def head : Text := f.first :: f.second :: f.form.bytes f.payload.length

/-- The frame on the wire. -/
def bytes : Text := f.head ++ (f.key.getD [] ++ xorMask (f.key.getD []) f.payload)

end WireFrame

@[simp] theorem length_xorMask (mask payload : Text) :
    (xorMask mask payload).length = payload.length := by simp [xorMask]

theorem xorMask_xorMask (mask payload : Text) : xorMask mask (xorMask mask payload) = payload := by
  have hself (b k : UInt8) : b ^^^ k ^^^ k = b := by
    rw [UInt8.xor_assoc, UInt8.xor_self, UInt8.xor_zero]
  refine List.ext_getElem? fun i => ?_
  simp only [xorMask, List.getElem?_mapIdx, Option.map_map]
  cases payload[i]? with
  | none => rfl
  | some b => exact congrArg some (hself b _)

theorem xorMask_nil (payload : Text) : xorMask [] payload = payload := by
  refine List.ext_getElem? fun i => ?_
  cases h : payload[i]? <;> simp [xorMask, h]

theorem xorMask_inj {mask p q : Text} (h : xorMask mask p = xorMask mask q) : p = q := by
  rw [← xorMask_xorMask mask p, h, xorMask_xorMask]

namespace WireFrame

variable {f g : WireFrame} {s t : Text}

theorem second_toNat (f : WireFrame) : f.second.toNat
    = (if f.key.isSome then 128 else 0) + f.form.code f.payload.length := by
  have hc := LengthForm.code_lt f.fits
  refine UInt8.toNat_ofNat_of_lt' ?_
  show _ < 256
  split <;> omega

theorem length_key (f : WireFrame) :
    (f.key.getD []).length = if f.key.isSome then 4 else 0 := by
  cases h : f.key with
  | none => rfl
  | some k => exact f.key_length k h

/-- **No frame is a proper prefix of another.** -/
theorem bytes_prefix_free (h : f.bytes ++ s = g.bytes ++ t) : f = g := by
  simp only [bytes, head, List.cons_append, List.append_assoc, List.cons.injEq] at h
  obtain ⟨hfirst, hsecond, hrest⟩ := h
  -- the second byte tells whether there is a key, and how the length is written
  have hbyte := congrArg UInt8.toNat hsecond
  rw [second_toNat, second_toNat] at hbyte
  have hcf := LengthForm.code_lt f.fits
  have hcg := LengthForm.code_lt g.fits
  have hkey : f.key.isSome = g.key.isSome := by
    by_contra hne
    cases hf : f.key.isSome <;> cases hg : g.key.isSome <;> simp [hf, hg] at hbyte hne <;> omega
  have hcode : f.form.code f.payload.length = g.form.code g.payload.length := by
    rw [hkey] at hbyte
    omega
  have hform := LengthForm.code_inj f.fits g.fits hcode
  have hfits : f.form.Fits g.payload.length := hform ▸ g.fits
  rw [← hform] at hcode hrest
  obtain ⟨hlen, hrest⟩ := List.append_inj hrest (by cases f.form <;> simp [LengthForm.bytes])
  have hlen := LengthForm.bytes_inj f.fits hfits hcode hlen
  obtain ⟨hkeys, hrest⟩ := List.append_inj hrest (by rw [length_key, length_key, hkey])
  have hkeys' : f.key = g.key := by
    cases hf : f.key <;> cases hg : g.key <;> simp_all
  rw [hkeys'] at hrest
  have hpay := xorMask_inj (List.append_inj hrest (by simpa using hlen)).1
  obtain ⟨f1, f2, f3, f4, _, _⟩ := f
  obtain ⟨g1, g2, g3, g4, _, _⟩ := g
  simp only at hfirst hform hkeys' hpay
  subst hfirst hform hkeys' hpay
  rfl

/-- Frames on the wire are a prefix code. -/
def code : PrefixCode UInt8 WireFrame where
  word := bytes
  word_ne_nil f := by simp [bytes, head]
  prefix_free _ _ _ _ := bytes_prefix_free

end WireFrame

/-! ### The parser against the wire format -/

/-- The length field of a frame is read back. -/
theorem lengthField_head (f : WireFrame) (t : Text) :
    lengthField (f.head ++ t) (f.form.code f.payload.length)
      = some (f.payload.length, f.head.length) := by
  have hfits := f.fits
  unfold lengthField WireFrame.head
  cases hform : f.form with
  | short =>
    simp only [hform, LengthForm.Fits] at hfits
    simp [LengthForm.code, LengthForm.bytes, show f.payload.length ≠ 126 by omega,
      show f.payload.length ≠ 127 by omega]
  | medium =>
    simp only [hform, LengthForm.Fits] at hfits
    have hbe : beNat (beBytes 2 f.payload.length) = f.payload.length := beNat_beBytes hfits
    simp [LengthForm.code, LengthForm.bytes, hbe]
  | long =>
    simp only [hform, LengthForm.Fits] at hfits
    have hbe : beNat (beBytes 8 f.payload.length) = f.payload.length :=
      beNat_beBytes (lt_trans hfits (by decide))
    simp [LengthForm.code, LengthForm.bytes, hbe]

theorem and_127_toNat (b : UInt8) : (b &&& 0x7F).toNat = b.toNat % 128 := by
  rw [UInt8.toNat_and]
  exact Nat.and_two_pow_sub_one_eq_mod b.toNat 7

theorem and_128_ne_zero (b : UInt8) : b &&& 0x80 ≠ 0 ↔ 128 ≤ b.toNat := by
  have h : ∀ n : Fin 256, UInt8.ofNat n.val &&& 0x80 ≠ 0 ↔ 128 ≤ n.val := by decide +kernel
  simpa using h ⟨b.toNat, b.toNat_lt⟩

theorem WireFrame.second_and_127 (f : WireFrame) :
    (f.second &&& 0x7F).toNat = f.form.code f.payload.length := by
  have hc := LengthForm.code_lt f.fits
  rw [and_127_toNat, f.second_toNat]
  split <;> omega

theorem WireFrame.second_and_128 (f : WireFrame) :
    f.second &&& 0x80 ≠ 0 ↔ f.key.isSome = true := by
  have hc := LengthForm.code_lt f.fits
  rw [and_128_ne_zero, f.second_toNat]
  cases f.key.isSome with
  | false => simp; omega
  | true => simp

/-- The payload length fits in 63 bits, whatever its form. -/
theorem WireFrame.payload_lt (f : WireFrame) : f.payload.length < 2 ^ 63 := by
  have h := f.fits
  cases hform : f.form <;> simp only [hform, LengthForm.Fits] at h <;> omega

theorem WireFrame.length_head_le (f : WireFrame) : f.head.length ≤ 10 := by
  cases hform : f.form <;> simp [WireFrame.head, LengthForm.bytes, hform]

/-- **A complete frame at the front is parsed, whatever follows it.** -/
theorem tryParseFrame_bytes (f : WireFrame) (t : Text) :
    tryParseFrame (f.bytes ++ t) = .frame f.fin f.opcode f.payload f.bytes.length := by
  have hlen : ¬ (f.bytes ++ t).length < 2 := by simp [WireFrame.bytes, WireFrame.head]
  have h0 : (f.bytes ++ t).getD 0 0 = f.first := rfl
  have h1 : (f.bytes ++ t).getD 1 0 = f.second := rfl
  have hfield := lengthField_head f (f.key.getD [] ++ (xorMask (f.key.getD []) f.payload ++ t))
  have hbytes : f.bytes ++ t
      = f.head ++ (f.key.getD [] ++ (xorMask (f.key.getD []) f.payload ++ t)) := by
    simp [WireFrame.bytes]
  have hpay := f.payload_lt
  have hhead := f.length_head_le
  have hkey := f.length_key
  unfold tryParseFrame
  rw [if_neg hlen]
  simp only [h0, h1, f.second_and_127, f.second_and_128]
  rw [hbytes, hfield]
  cases hk : f.key with
  | none =>
    have hmod : (f.head.length + f.payload.length) % 2 ^ 64
        = f.head.length + f.payload.length := Nat.mod_eq_of_lt (by omega)
    simp only [Option.isSome_none, Bool.false_eq_true, false_and, if_false, Option.getD_none,
      List.nil_append, xorMask_nil, List.length_append, WireFrame.bytes, hk, hmod]
    rw [if_neg (by omega), if_neg (by omega)]
    simp [WireFrame.fin, WireFrame.opcode]
  | some k =>
    have hk4 : k.length = 4 := f.key_length k hk
    have hmod : (f.head.length + 4 + f.payload.length) % 2 ^ 64
        = f.head.length + 4 + f.payload.length := Nat.mod_eq_of_lt (by omega)
    simp only [Option.isSome_some, true_and, if_true, Option.getD_some, List.length_append,
      WireFrame.bytes, hk, hk4, hmod, length_xorMask]
    rw [if_neg (by omega), if_neg (by omega), if_neg (by omega)]
    have hmask : (f.head ++ (k ++ (xorMask k f.payload ++ t))).drop f.head.length
        = k ++ (xorMask k f.payload ++ t) := by simp
    have hdata : (f.head ++ (k ++ (xorMask k f.payload ++ t))).drop (f.head.length + 4)
        = xorMask k f.payload ++ t := by rw [← List.drop_drop, hmask, ← hk4, List.drop_left]
    rw [hmask, hdata, ← hk4, List.take_left, List.take_left' (length_xorMask _ _), xorMask_xorMask]
    simp [WireFrame.fin, WireFrame.opcode, hk4, Nat.add_assoc]

/-! ### Declared lengths -/

/-- The header at the front, as far as it has arrived, declares a payload shorter
than `2 ^ 63` bytes. -/
def DeclaresUnder (s : Text) : Prop :=
  ∀ b0 b1 l t, s = b0 :: b1 :: (l ++ t) → l.length = 8 → b1.toNat % 128 = 127 → beNat l < 2 ^ 63

theorem DeclaresUnder.of_append {s t : Text} (h : DeclaresUnder (s ++ t)) : DeclaresUnder s := by
  intro b0 b1 l r hs
  exact h b0 b1 l (r ++ t) (by simp [hs])

/-- What the length field of a buffer says, as a form of length. -/
theorem lengthField_eq_some {b0 b1 : UInt8} {buf : Text} {plen pos : ℕ}
    (hd : DeclaresUnder (b0 :: b1 :: buf))
    (h : lengthField (b0 :: b1 :: buf) (b1.toNat % 128) = some (plen, pos)) :
    ∃ form : LengthForm, form.Fits plen ∧ b1.toNat % 128 = form.code plen ∧
      b0 :: b1 :: (form.bytes plen ++ buf.drop (pos - 2)) = b0 :: b1 :: buf ∧
      pos = 2 + (form.bytes plen).length := by
  unfold lengthField at h
  split at h
  · next h126 =>
    split at h
    · cases h
    · next hlen =>
      simp only [Option.some.injEq, Prod.mk.injEq] at h
      obtain ⟨rfl, rfl⟩ := h
      simp only [List.length_cons, not_lt] at hlen
      have htake : (buf.take 2).length = 2 := by simp; omega
      have hlt := beNat_lt (buf.take 2)
      have hbe := beBytes_beNat (buf.take 2)
      rw [htake] at hlt hbe
      refine ⟨.medium, hlt, h126, ?_, by simp [LengthForm.bytes]⟩
      simp [LengthForm.bytes, hbe]
  · split at h
    · next h127 =>
      split at h
      · cases h
      · next hlen =>
        simp only [Option.some.injEq, Prod.mk.injEq] at h
        obtain ⟨rfl, rfl⟩ := h
        simp only [List.length_cons, not_lt] at hlen
        have htake : (buf.take 8).length = 8 := by simp; omega
        have hbe := beBytes_beNat (buf.take 8)
        rw [htake] at hbe
        have hlt := hd b0 b1 (buf.take 8) (buf.drop 8) (by simp) htake h127
        refine ⟨.long, hlt, h127, ?_, by simp [LengthForm.bytes]⟩
        simp [LengthForm.bytes, hbe]
    · next h126 h127 =>
      simp only [Option.some.injEq, Prod.mk.injEq] at h
      obtain ⟨rfl, rfl⟩ := h
      refine ⟨.short, ?_, rfl, by simp [LengthForm.bytes], by simp [LengthForm.bytes]⟩
      have := Nat.mod_lt b1.toNat (show 128 > 0 by decide)
      simp only [LengthForm.Fits]
      omega

theorem LengthForm.Fits.lt {form : LengthForm} {n : ℕ} (h : form.Fits n) : n < 2 ^ 63 := by
  cases form <;> simp only [LengthForm.Fits] at h <;> omega

theorem LengthForm.length_bytes_le (form : LengthForm) (n : ℕ) : (form.bytes n).length ≤ 8 := by
  cases form <;> simp [LengthForm.bytes]

/-- The frame with a given head, key and payload. -/
theorem exists_frame {b0 b1 : UInt8} {form : LengthForm} {key : Option Text} {payload : Text}
    (hfits : form.Fits payload.length) (hcode : b1.toNat % 128 = form.code payload.length)
    (hmask : key.isSome = true ↔ 128 ≤ b1.toNat) (hkey : ∀ k ∈ key, k.length = 4) :
    ∃ f : WireFrame, f.opcode = (b0 &&& 0x0F).toNat ∧ f.payload = payload ∧
      f.bytes = (b0 :: b1 :: form.bytes payload.length)
        ++ (key.getD [] ++ xorMask (key.getD []) payload) := by
  refine ⟨⟨b0, form, key, payload, hfits, hkey⟩, rfl, rfl, ?_⟩
  have hb : b1.toNat < 256 := b1.toNat_lt
  have hsecond : WireFrame.second ⟨b0, form, key, payload, hfits, hkey⟩ = b1 := by
    refine UInt8.toNat_inj.mp ?_
    rw [WireFrame.second_toNat]
    cases hk : key.isSome <;> simp [hk, ← hcode] at hmask ⊢ <;> omega
  rw [WireFrame.bytes, WireFrame.head, hsecond]

/-- **Whatever is parsed is a complete frame**, and under the bound on declared
lengths no payload is copied from beyond the buffer. -/
theorem tryParseFrame_sound {buf : Text} (hd : DeclaresUnder buf) :
    tryParseFrame buf ≠ .overrun ∧ ∀ fin opcode payload n,
      tryParseFrame buf = .frame fin opcode payload n →
      ∃ f : WireFrame, buf = f.bytes ++ buf.drop n ∧ f.opcode = opcode ∧ f.payload = payload ∧
        n = f.bytes.length := by
  match buf with
  | [] => simp [tryParseFrame]
  | [b0] => simp [tryParseFrame]
  | b0 :: b1 :: rest =>
    unfold tryParseFrame
    simp only [List.length_cons, show ¬ rest.length + 1 + 1 < 2 by omega, if_false,
      List.getD_cons_zero, List.getD_cons_succ, and_127_toNat, and_128_ne_zero]
    cases hfield : lengthField (b0 :: b1 :: rest) (b1.toNat % 128) with
    | none => simp
    | some p =>
      obtain ⟨plen, pos⟩ := p
      obtain ⟨form, hfits, hcode, hbuf, hpos⟩ := lengthField_eq_some hd hfield
      have hplen := hfits.lt
      have hform := form.length_bytes_le plen
      -- the buffer is the head of a frame and what follows it
      set r := rest.drop (pos - 2) with hr
      set head := b0 :: b1 :: form.bytes plen with hhead
      have hsplit : b0 :: b1 :: rest = head ++ r := by rw [← hbuf]; rfl
      have hheadlen : head.length = pos := by simp [hhead, hpos]; omega
      have hlen : rest.length + 1 + 1 = pos + r.length := by
        have := congrArg List.length hsplit
        simpa [hheadlen] using this
      simp only [hlen, hsplit]
      by_cases hmask : 128 ≤ b1.toNat
      · simp only [hmask, true_and, if_true]
        by_cases hfour : pos + r.length < pos + 4
        · simp [hfour]
        · -- masked: the key is the four bytes behind the head
          rw [if_neg hfour, Nat.mod_eq_of_lt (by omega)]
          by_cases hshort : pos + r.length < pos + 4 + plen
          · simp [hshort]
          · rw [if_neg hshort, if_neg hshort]
            refine ⟨by simp, ?_⟩
            intro fin opcode payload n heq
            obtain ⟨-, rfl, rfl, rfl⟩ := ParsedFrame.frame.inj heq
            have hkey : (head ++ r).drop pos = r := by rw [← hheadlen, List.drop_left]
            have hdata : (head ++ r).drop (pos + 4) = r.drop 4 := by
              rw [← List.drop_drop, hkey]
            rw [hkey, hdata]
            have hplen' : (xorMask (r.take 4) ((r.drop 4).take plen)).length = plen := by
              simp
              omega
            obtain ⟨f, hop, hpay, hbytes⟩ := @exists_frame b0 _ _ (some (r.take 4)) _
              (hplen'.symm ▸ hfits) (hplen'.symm ▸ hcode) (by simpa using hmask)
              (by simp; omega)
            rw [hplen', ← hhead] at hbytes
            simp only [Option.getD_some, xorMask_xorMask] at hbytes
            refine ⟨f, ?_, hop, hpay, ?_⟩
            · rw [hbytes, show pos + 4 + plen = pos + (4 + plen) by omega, ← List.drop_drop, hkey,
                ← List.drop_drop, List.append_assoc, List.append_assoc, List.take_append_drop,
                List.take_append_drop]
            · rw [hbytes]
              simp [hheadlen]
              omega
      · simp only [hmask, false_and, if_false]
        rw [Nat.mod_eq_of_lt (by omega)]
        by_cases hshort : pos + r.length < pos + plen
        · simp [hshort]
        · rw [if_neg hshort, if_neg hshort]
          refine ⟨by simp, ?_⟩
          intro fin opcode payload n heq
          obtain ⟨-, rfl, rfl, rfl⟩ := ParsedFrame.frame.inj heq
          have hdata : (head ++ r).drop pos = r := by rw [← hheadlen, List.drop_left]
          rw [hdata]
          have hplen' : (r.take plen).length = plen := by
            simp
            omega
          obtain ⟨f, hop, hpay, hbytes⟩ := @exists_frame b0 _ _ none _
            (hplen'.symm ▸ hfits) (hplen'.symm ▸ hcode) (by simpa using hmask) (by simp)
          rw [hplen', ← hhead] at hbytes
          simp only [Option.getD_none, List.nil_append, xorMask_nil] at hbytes
          refine ⟨f, ?_, hop, hpay, ?_⟩
          · rw [hbytes, ← List.drop_drop, hdata, List.append_assoc, List.take_append_drop]
          · rw [hbytes]
            simp [hheadlen]
            omega

/-! ### The frame loop -/

/-- The fields of `SocketConnNative` that the loop reads. -/
structure SocketConn (φ : Type*) where
  onMessage : Option φ
  onClose : Option φ
  closed : Bool

/-- Jaguar code, as the loop sees it: what calling a callback (with a message, or
with nothing) makes of the connection object, and the frames it sends on it. -/
structure WsHost (φ : Type*) where
  invoke : φ → Option Text → SocketConn φ → SocketConn φ × List (ℕ × Text)

/-- What the loop does with a frame, and the frames it writes. -/
def handleFrame {φ : Type*} (host : WsHost φ) (conn : SocketConn φ) (opcode : ℕ)
    (payload : Text) : SocketConn φ × List (ℕ × Text) :=
  if opcode = 0x1 ∨ opcode = 0x2 then
    match conn.onMessage with
    | some f => if conn.closed then (conn, []) else host.invoke f (some (cStr payload)) conn
    | none => (conn, [])
  else if opcode = 0x8 then
    if conn.closed then (conn, []) else ({ conn with closed := true }, [(0x8, [])])
  else if opcode = 0x9 then (conn, [(0xA, payload)])
  else (conn, [])

/-- The state in which a connection's loop ends. -/
structure LoopEnd (φ : Type*) where
  /-- The frames handled, in order. -/
  handled : List (ℕ × Text)
  /-- The frames sent, in order. -/
  sent : List (ℕ × Text)
  conn : SocketConn φ
  /-- The loop was left because a payload was copied from beyond the buffer. -/
  overrun : Bool

/-- The loop of `ws_conn_entry`; `chunks` is what the calls of `recv` deliver before
the end of file. -/
def frameLoop {φ : Type*} (host : WsHost φ) (conn : SocketConn φ) (buf : Text)
    (chunks : List Text) : LoopEnd φ :=
  match _h : tryParseFrame buf with
  | .overrun => ⟨[], [], conn, true⟩
  | .need =>
    match chunks with
    | [] => ⟨[], [], conn, false⟩
    | chunk :: chunks => frameLoop host conn (buf ++ chunk) chunks
  | .frame _ opcode payload consumed =>
    let (conn, out) := handleFrame host conn opcode payload
    if opcode = 0x8 then ⟨[(opcode, payload)], out, conn, false⟩
    else
      let rest := frameLoop host conn (bufConsumeFront buf consumed) chunks
      { rest with handled := (opcode, payload) :: rest.handled, sent := out ++ rest.sent }
termination_by (chunks.length, buf.length)
decreasing_by
  · exact .left _ _ (Nat.lt_succ_self _)
  · have hn := tryParseFrame_consumed _h
    refine .right _ ?_
    rw [bufConsumeFront_eq_drop, List.length_drop]
    omega

/-- `ws_conn_entry` from the end of the handshake on: `b` holds the handshake head of
`headerEnd` bytes and whatever arrived behind it. -/
def wsConnFrames {φ : Type*} (host : WsHost φ) (conn : SocketConn φ) (b : Text) (headerEnd : ℕ)
    (chunks : List Text) : LoopEnd φ :=
  let r := frameLoop host conn (bufConsumeFront b headerEnd) chunks
  match r.conn.onClose with
  | some f =>
    if r.conn.closed then r
    else
      let (conn, out) := host.invoke f none r.conn
      { r with conn := conn, sent := r.sent ++ out }
  | none => r

/-- The close callback changes neither the frames handled nor how the loop ended. -/
theorem wsConnFrames_eq {φ : Type*} (host : WsHost φ) (conn : SocketConn φ) (b : Text)
    (headerEnd : ℕ) (chunks : List Text) :
    (wsConnFrames host conn b headerEnd chunks).overrun
        = (frameLoop host conn (bufConsumeFront b headerEnd) chunks).overrun ∧
      (wsConnFrames host conn b headerEnd chunks).handled
        = (frameLoop host conn (bufConsumeFront b headerEnd) chunks).handled := by
  unfold wsConnFrames
  dsimp only
  split
  · split <;> exact ⟨rfl, rfl⟩
  · exact ⟨rfl, rfl⟩

/-- Frames handled one after the other, and the frames that are written meanwhile. -/
def handleFrames {φ : Type*} (host : WsHost φ) (conn : SocketConn φ) :
    List (ℕ × Text) → SocketConn φ × List (ℕ × Text)
  | [] => (conn, [])
  | f :: fs =>
    let (conn, out) := handleFrame host conn f.1 f.2
    let (conn, rest) := handleFrames host conn fs
    (conn, out ++ rest)

/-- What follows the loop: `on_close`, unless the connection is marked closed. -/
def leaveLoop {φ : Type*} (host : WsHost φ) (r : SocketConn φ × List (ℕ × Text)) :
    SocketConn φ × List (ℕ × Text) :=
  match r.1.onClose with
  | some f =>
    if r.1.closed then r
    else
      let (conn, out) := host.invoke f none r.1
      (conn, r.2 ++ out)
  | none => r

/-- The frames up to and including the first Close frame. -/
def uptoClose : List WireFrame → List WireFrame
  | [] => []
  | f :: fs => if f.opcode = 0x8 then [f] else f :: uptoClose fs

/-- Every header in the stream declares a payload shorter than `2 ^ 63` bytes. -/
def AllDeclareUnder (s : Text) : Prop :=
  ∀ (fs : List WireFrame) (rest : Text), s = fs.flatMap WireFrame.bytes ++ rest →
    DeclaresUnder rest

theorem AllDeclareUnder.of_cons {f : WireFrame} {s : Text} (h : AllDeclareUnder (f.bytes ++ s)) :
    AllDeclareUnder s := by
  intro fs rest hs
  exact h (f :: fs) rest (by rw [hs, List.flatMap_cons, List.append_assoc])

section Unfold

variable {φ : Type*} {host : WsHost φ} {conn : SocketConn φ} {buf : Text} {chunks : List Text}

theorem frameLoop_overrun (h : tryParseFrame buf = .overrun) :
    frameLoop host conn buf chunks = ⟨[], [], conn, true⟩ := by
  rw [frameLoop.eq_def]
  split <;> simp_all

theorem frameLoop_need_nil (h : tryParseFrame buf = .need) :
    frameLoop host conn buf [] = ⟨[], [], conn, false⟩ := by
  rw [frameLoop.eq_def]
  split <;> simp_all

theorem frameLoop_need_cons (h : tryParseFrame buf = .need) (chunk : Text) :
    frameLoop host conn buf (chunk :: chunks) = frameLoop host conn (buf ++ chunk) chunks := by
  rw [frameLoop.eq_def]
  split <;> simp_all

theorem frameLoop_frame {fin : Bool} {opcode n : ℕ} {payload : Text}
    (h : tryParseFrame buf = .frame fin opcode payload n) :
    frameLoop host conn buf chunks =
      let after := handleFrame host conn opcode payload
      if opcode = 0x8 then ⟨[(opcode, payload)], after.2, after.1, false⟩
      else
        let rest := frameLoop host after.1 (bufConsumeFront buf n) chunks
        { rest with handled := (opcode, payload) :: rest.handled,
                    sent := after.2 ++ rest.sent } := by
  rw [frameLoop.eq_def]
  split <;> simp_all

end Unfold

/-- A parsed frame is the next complete frame of what is still to come. -/
theorem reads_of_parsed {buf t : Text} {fin : Bool} {opcode n : ℕ} {payload : Text}
    {fs : List WireFrame} (h : tryParseFrame buf = .frame fin opcode payload n)
    (hfs : WireFrame.code.Reads (buf ++ t) fs) (hd : AllDeclareUnder (buf ++ t)) :
    ∃ f fs', fs = f :: fs' ∧ f.opcode = opcode ∧ f.payload = payload ∧
      WireFrame.code.Reads (bufConsumeFront buf n ++ t) fs' ∧
      AllDeclareUnder (bufConsumeFront buf n ++ t) := by
  obtain ⟨f, hbuf, hop, hpay, -⟩ := (tryParseFrame_sound (hd [] _ rfl).of_append).2 _ _ _ _ h
  rw [hbuf, List.append_assoc] at hfs hd
  obtain ⟨fs', rfl, hfs'⟩ := PrefixCode.Reads.of_cons (C := WireFrame.code) hfs
  rw [bufConsumeFront_eq_drop]
  exact ⟨f, fs', rfl, hop, hpay, hfs', hd.of_cons⟩

/-- **The loop does with each frame what `handleFrame` does**, and nothing besides. -/
theorem frameLoop_handleFrames {φ : Type*} (host : WsHost φ) (conn : SocketConn φ) (buf : Text)
    (chunks : List Text) :
    ((frameLoop host conn buf chunks).conn, (frameLoop host conn buf chunks).sent)
      = handleFrames host conn (frameLoop host conn buf chunks).handled := by
  induction conn, buf, chunks using frameLoop.induct host with
  | case1 conn buf chunks h =>
    rw [frameLoop_overrun h]
    rfl
  | case2 conn buf h =>
    rw [frameLoop_need_nil h]
    rfl
  | case3 conn buf h chunk chunks ih =>
    rw [frameLoop_need_cons h]
    exact ih
  | case4 conn buf chunks fin payload n conn' out h hout =>
    rw [frameLoop_frame h]
    simp [handleFrames, hout]
  | case5 conn buf chunks fin opcode payload n h conn' out hout hclose ih =>
    obtain ⟨hconn, hsent⟩ := Prod.mk.inj ih
    rw [frameLoop_frame h]
    simp [handleFrames, hclose, hout, ← hconn, ← hsent]

theorem wsConnFrames_leaveLoop {φ : Type*} (host : WsHost φ) (conn : SocketConn φ) (b : Text)
    (headerEnd : ℕ) (chunks : List Text) :
    ((wsConnFrames host conn b headerEnd chunks).conn,
        (wsConnFrames host conn b headerEnd chunks).sent)
      = leaveLoop host (handleFrames host conn
        (frameLoop host conn (bufConsumeFront b headerEnd) chunks).handled) := by
  rw [← frameLoop_handleFrames]
  unfold wsConnFrames leaveLoop
  dsimp only
  split
  · split <;> rfl
  · rfl

/-- The loop, from any point on, against the complete frames of what is still to come. -/
theorem frameLoop_reads {φ : Type*} (host : WsHost φ) (conn : SocketConn φ) (buf : Text)
    (chunks : List Text) : ∀ fs, WireFrame.code.Reads (buf ++ chunks.flatten) fs →
      AllDeclareUnder (buf ++ chunks.flatten) →
      (frameLoop host conn buf chunks).overrun = false ∧
      (frameLoop host conn buf chunks).handled
        = (uptoClose fs).map fun f => (f.opcode, f.payload) := by
  induction conn, buf, chunks using frameLoop.induct host with
  | case1 conn buf chunks h =>
    intro fs _ hd
    exact absurd h (tryParseFrame_sound (hd [] _ rfl).of_append).1
  | case2 conn buf h =>
    intro fs hfs _
    have hno : ¬ WireFrame.code.Starts (buf ++ [].flatten) := by
      rintro ⟨f, t, hs⟩
      rw [List.flatten_nil, List.append_nil] at hs
      rw [hs] at h
      exact absurd ((tryParseFrame_bytes f t).symm.trans h) (by simp)
    rw [hfs.eq_nil hno, frameLoop_need_nil h]
    exact ⟨rfl, rfl⟩
  | case3 conn buf h chunk chunks ih =>
    intro fs hfs hd
    rw [List.flatten_cons, ← List.append_assoc] at hfs hd
    rw [frameLoop_need_cons h]
    exact ih fs hfs hd
  | case4 conn buf chunks fin payload n conn' out h hout =>
    intro fs hfs hd
    obtain ⟨f, fs', rfl, hop, hpay, -⟩ := reads_of_parsed h hfs hd
    rw [frameLoop_frame h]
    simp [uptoClose, hop, hpay]
  | case5 conn buf chunks fin opcode payload n h conn' out hout hclose ih =>
    intro fs hfs hd
    obtain ⟨f, fs', rfl, hop, hpay, hfs', hd'⟩ := reads_of_parsed h hfs hd
    have hrest := ih fs' hfs' hd'
    rw [frameLoop_frame h]
    simp [uptoClose, hop, hpay, hclose, hout, hrest]

/-- **The frames handled are the frames sent, however they arrive.**  Let every header
of the stream `s` declare a payload shorter than `2 ^ 63` bytes.  Then `s` is the bytes of
one sequence of complete frames followed by an incomplete rest, and for every number of
leading bytes left behind the handshake head and every division of the others into
chunks, the frames handled are the frames of that sequence, in order, up to and including
the first Close; and what is written and how the connection ends is what handling these
frames one after the other makes of it. -/
theorem frameLoop_handles_complete_frames {s : Text} (hd : AllDeclareUnder s) :
    ∃ fs, (∃ rest, s = fs.flatMap WireFrame.bytes ++ rest ∧ ¬ WireFrame.code.Starts rest) ∧
      (∀ fs', WireFrame.code.Reads s fs' ↔ fs' = fs) ∧
      ∀ {φ : Type} (host : WsHost φ) (conn : SocketConn φ) (head leftover : Text)
        (chunks : List Text), leftover ++ chunks.flatten = s →
        (wsConnFrames host conn (head ++ leftover) head.length chunks).overrun = false ∧
        (wsConnFrames host conn (head ++ leftover) head.length chunks).handled
          = (uptoClose fs).map (fun f => (f.opcode, f.payload)) ∧
        ((wsConnFrames host conn (head ++ leftover) head.length chunks).conn,
            (wsConnFrames host conn (head ++ leftover) head.length chunks).sent)
          = leaveLoop host (handleFrames host conn
            ((uptoClose fs).map fun f => (f.opcode, f.payload))) := by
  obtain ⟨fs, hfs⟩ := WireFrame.code.exists_reads s
  refine ⟨fs, hfs.eq_append, fun fs' => ⟨fun h => h.unique hfs, fun h => h ▸ hfs⟩, ?_⟩
  rintro φ host conn head leftover chunks rfl
  have h := frameLoop_reads host conn leftover chunks fs hfs hd
  obtain ⟨hover, hhandled⟩ := wsConnFrames_eq host conn (head ++ leftover) head.length chunks
  have hends := wsConnFrames_leaveLoop host conn (head ++ leftover) head.length chunks
  rw [bufConsumeFront_eq_drop, List.drop_left] at hover hhandled hends
  rw [h.2] at hends
  exact ⟨hover.trans h.1, hhandled.trans h.2, hends⟩

/-- A stream too short for an eight-byte length field. -/
theorem allDeclareUnder_of_length {s : Text} (h : s.length < 10) : AllDeclareUnder s := by
  intro fs rest hs b0 b1 l t hrest hl
  have := congrArg List.length hs
  simp [hrest, hl] at this
  omega

/-- A masked Ping with payload `hi` and the first byte of a Close: one byte behind the
handshake head, the others in two chunks. -/
theorem frameLoop_handles_complete_frames_ping :
    ∃ fs : List WireFrame, ∀ (host : WsHost Unit) (conn : SocketConn Unit),
      (wsConnFrames host conn ([10] ++ [0x89]) 1
        [[0x82, 1, 2, 3], [4, 0x69, 0x6B, 0x88]]).handled
        = (uptoClose fs).map fun f => (f.opcode, f.payload) := by
  obtain ⟨fs, -, -, h⟩ := frameLoop_handles_complete_frames
    (s := [0x89, 0x82, 1, 2, 3, 4, 0x69, 0x6B, 0x88]) (allDeclareUnder_of_length (by decide))
  exact ⟨fs, fun host conn => (h host conn [10] [0x89] _ rfl).2.1⟩

end Jaguar
