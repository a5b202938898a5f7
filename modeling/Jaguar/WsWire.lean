/-
The frames `ws.c` writes, the frames its parser accepts, and the bounds of the buffer.

`ws_write_frame` and `try_parse_frame` meet at the wire format of `WsFrames`: what is
written is a `WireFrame` in its shortest length form, and so is the masked form in which a
client sends the same frame.

* `WireFrame.recovered` — a frame is parsed when it is complete, and no sooner;
* `written_frame_recovered` — the frames of `ws_write_frame` and of a client are recovered;
* `frameInside_iff` — the parser stays inside the buffer exactly when the header size and
  the declared length do not wrap.
-/
import Jaguar.Server

namespace Jaguar

/-! ### Frames written -/

/-- The shortest form of a length. -/
def shortestForm (len : ℕ) : LengthForm :=
  if len < 126 then .short else if len < 65536 then .medium else .long

theorem shortestForm_fits {len : ℕ} (h : len < 2 ^ 63) : (shortestForm len).Fits len := by
  unfold shortestForm
  split_ifs <;> simp only [LengthForm.Fits] <;> omega

/-- The frame a client sends for an opcode and a payload: FIN and MASK set, the length in
its shortest form, the key, and the payload XORed with the key. -/
def clientFrame (opcode : ℕ) (mask payload : Text) : Text :=
  let form := shortestForm payload.length
  [UInt8.ofNat (0x80 + opcode), UInt8.ofNat (0x80 + form.code payload.length)]
    ++ form.bytes payload.length ++ mask ++ xorMask mask payload

/-- A final frame in its shortest form, with or without a key. -/
def finalFrame (opcode : ℕ) (key : Option Text) (hkey : ∀ k ∈ key, k.length = 4) (payload : Text)
    (hlen : payload.length < 2 ^ 63) : WireFrame where
  first := UInt8.ofNat (0x80 + opcode)
  form := shortestForm payload.length
  key := key
  payload := payload
  fits := shortestForm_fits hlen
  key_length := hkey

/-- The bytes of a number, each cut out by a shift. -/
theorem beBytes_eq_shifts (k n : ℕ) :
    beBytes k n = (List.range k).map fun i => UInt8.ofNat (n >>> (8 * (k - 1 - i))) := by
  induction k generalizing n with
  | zero => rfl
  | succ k ih =>
    rw [beBytes, ih, List.range_succ, List.map_append, List.map_singleton]
    have hlast : UInt8.ofNat (n >>> (8 * (k + 1 - 1 - k))) = UInt8.ofNat (n % 256) := by
      have hzero : 8 * (k + 1 - 1 - k) = 0 := by omega
      rw [hzero, Nat.shiftRight_zero]
      exact (UInt8.ofNat_mod_size (x := n)).symm
    rw [hlast]
    refine congrArg (· ++ _) (List.map_congr_left ?_)
    intro i hi
    -- one byte less to shift, after a division by 256
    have hik := List.mem_range.mp hi
    have hshift : 8 * (k + 1 - 1 - i) = 8 + 8 * (k - 1 - i) := by omega
    rw [hshift, Nat.shiftRight_add, Nat.shiftRight_eq_div_pow n 8]

/-- The first byte of a final frame: no reserved bit is set. -/
theorem final_first {opcode : ℕ} (hop : opcode < 16) :
    0x80 ||| (opcode &&& 0x0F) = 0x80 + opcode ∧
      UInt8.ofNat (0x80 + opcode) &&& 0x80 ≠ 0 ∧
      (UInt8.ofNat (0x80 + opcode) &&& 0x0F).toNat = opcode := by
  have h : ∀ n : Fin 16, 0x80 ||| (n.val &&& 0x0F) = 0x80 + n.val ∧
      UInt8.ofNat (0x80 + n.val) &&& 0x80 ≠ 0 ∧
      (UInt8.ofNat (0x80 + n.val) &&& 0x0F).toNat = n.val := by decide
  exact h ⟨opcode, hop⟩

/-- `ws_write_frame` writes a final frame without a key. -/
theorem wsWriteFrame_eq_bytes {opcode : ℕ} (hop : opcode < 16) (payload : Text)
    (hlen : payload.length < 2 ^ 63) :
    wsWriteFrame opcode payload
      = (finalFrame opcode none (fun _ hk => by cases hk) payload hlen).bytes := by
  have hmedium := beBytes_eq_shifts 2 payload.length
  have hlong := beBytes_eq_shifts 8 payload.length
  simp only [wsWriteFrame, (final_first hop).1, WireFrame.bytes, WireFrame.head, finalFrame,
    WireFrame.second, Option.getD_none, xorMask_nil, List.nil_append, Option.isSome_none,
    Bool.false_eq_true, if_false, Nat.zero_add]
  unfold shortestForm
  split_ifs with hshort hmed
  · simp [LengthForm.code, LengthForm.bytes]
  · simp [LengthForm.code, LengthForm.bytes, hmedium, List.range_succ]
  · simp only [LengthForm.code, LengthForm.bytes, hlong]
    rfl

/-- The client form is the final frame with its key. -/
theorem clientFrame_eq_bytes (opcode : ℕ) {mask : Text} (hmask : mask.length = 4) (payload : Text)
    (hlen : payload.length < 2 ^ 63) :
    clientFrame opcode mask payload
      = (finalFrame opcode (some mask) (fun _ hk => Option.some.inj hk ▸ hmask) payload
          hlen).bytes := by
  simp [clientFrame, WireFrame.bytes, WireFrame.head, finalFrame, WireFrame.second]

/-! ### Frames read back -/

/-- The parser recovers a frame from its bytes: the whole of it, whatever follows, and
nothing before the last byte has arrived. -/
structure Recovered (bytes : Text) (opcode : ℕ) (payload : Text) : Prop where
  whole : ∀ t, tryParseFrame (bytes ++ t) = .frame true opcode payload bytes.length
  cut : ∀ p, p <+: bytes → p ≠ bytes → tryParseFrame p = .need

namespace WireFrame

/-- A frame declares the length of its own payload, which fits in 63 bits. -/
theorem declaresUnder_bytes_append (f : WireFrame) (t : Text) : DeclaresUnder (f.bytes ++ t) := by
  intro b0 b1 l r hbytes hl hcode
  simp only [bytes, head, List.cons_append, List.append_assoc, List.cons.injEq] at hbytes
  obtain ⟨-, rfl, hrest⟩ := hbytes
  have hc := LengthForm.code_lt f.fits
  have hfits := f.fits
  have hform : f.form.code f.payload.length = 127 := by
    rw [second_toNat] at hcode
    split at hcode <;> omega
  cases hf : f.form with
  | short =>
    rw [hf] at hform hfits
    simp only [LengthForm.code, LengthForm.Fits] at hform hfits
    omega
  | medium =>
    rw [hf] at hform
    simp [LengthForm.code] at hform
  | long =>
    rw [hf] at hrest hfits
    have hlbe := (List.append_inj hrest (by simp [LengthForm.bytes, hl])).1
    have hlt := f.payload_lt
    rw [← hlbe, LengthForm.bytes, beNat_beBytes (lt_trans hlt (by decide))]
    exact hlt

/-- **A frame is parsed when it is complete, and no sooner.** -/
theorem recovered (f : WireFrame) (hfin : f.fin = true) : Recovered f.bytes f.opcode f.payload where
  whole := by
    intro t
    rw [tryParseFrame_bytes, hfin]
  cut := by
    rintro p ⟨q, hpq⟩ hne
    have hd : DeclaresUnder p := by
      have := f.declaresUnder_bytes_append []
      rw [List.append_nil, ← hpq] at this
      exact this.of_append
    obtain ⟨hover, hsound⟩ := tryParseFrame_sound hd
    cases hp : tryParseFrame p with
    | need => rfl
    | overrun => exact absurd hp hover
    | frame fin opcode payload n =>
      -- a frame inside `p` would be a frame in front of `f`
      obtain ⟨g, hg, -, -, -⟩ := hsound _ _ _ _ hp
      have hfg : f.bytes ++ [] = g.bytes ++ (p.drop n ++ q) := by
        rw [List.append_nil, ← hpq, ← List.append_assoc, ← hg]
      obtain rfl := bytes_prefix_free hfg
      have hlen := congrArg List.length hg
      have hlen' := congrArg List.length hpq
      simp only [List.length_append] at hlen hlen'
      refine absurd ?_ hne
      have hq : q = [] := List.eq_nil_of_length_eq_zero (by omega)
      rw [← hpq, hq, List.append_nil]

end WireFrame

theorem finalFrame_recovered {opcode : ℕ} (hop : opcode < 16) (key : Option Text)
    (hkey : ∀ k ∈ key, k.length = 4) (payload : Text) (hlen : payload.length < 2 ^ 63) :
    Recovered (finalFrame opcode key hkey payload hlen).bytes opcode payload := by
  obtain ⟨-, hfin, hopcode⟩ := final_first hop
  have h := (finalFrame opcode key hkey payload hlen).recovered (decide_eq_true hfin)
  have hopc : (finalFrame opcode key hkey payload hlen).opcode = opcode := hopcode
  rwa [hopc] at h

/-- **Encoder and decoder meet at every length.**  For every opcode, every payload and
whatever follows, the parser recovers the frame `ws_write_frame` sends, and its masked
client form for every key, when they are complete and not before. -/
theorem written_frame_recovered {opcode : ℕ} (hop : opcode < 16) {payload : Text}
    (hlen : payload.length < 2 ^ 63) :
    Recovered (wsWriteFrame opcode payload) opcode payload ∧
      ∀ mask : Text, mask.length = 4 →
        Recovered (clientFrame opcode mask payload) opcode payload := by
  refine ⟨?_, ?_⟩
  · rw [wsWriteFrame_eq_bytes hop payload hlen]
    exact finalFrame_recovered hop none _ payload hlen
  · intro mask hmask
    rw [clientFrame_eq_bytes opcode hmask payload hlen]
    exact finalFrame_recovered hop (some mask) _ payload hlen

/-- The text frame `hi` and its form under the key `1 2 3 4`, whole and cut. -/
theorem written_frame_recovered_hi :
    tryParseFrame (wsWriteFrame 1 (txt "hi") ++ [0x88]) = .frame true 1 (txt "hi") 4 ∧
      tryParseFrame (clientFrame 1 [1, 2, 3, 4] (txt "hi") ++ [0x88])
        = .frame true 1 (txt "hi") 8 ∧
      tryParseFrame [0x81, 0x82, 1, 2, 3, 4, 0x69] = .need := by
  obtain ⟨hserver, hclient⟩ := @written_frame_recovered 1 (by decide) (txt "hi") (by decide)
  have hmasked := hclient [1, 2, 3, 4] rfl
  exact ⟨hserver.whole [0x88], hmasked.whole [0x88],
    hmasked.cut _ ⟨[0x6B], by decide⟩ (by decide)⟩

/-! ### The bounds of the buffer -/

/-- Once the header is complete: its size and the payload length it declares. -/
def frameHeader (buf : Text) : Option (ℕ × ℕ) :=
  if buf.length < 2 then none else
  let b1 := buf.getD 1 0
  let masked := b1 &&& 0x80 ≠ 0
  (lengthField buf (b1 &&& 0x7F).toNat).bind fun (plen, pos) =>
    if masked ∧ buf.length < pos + 4 then none
    else some (if masked then pos + 4 else pos, plen)

/-- What `try_parse_frame` does behind a complete header. -/
theorem tryParseFrame_of_header {buf : Text} {pos plen : ℕ}
    (h : frameHeader buf = some (pos, plen)) :
    ∃ fin opcode payload, (pos + plen ≤ buf.length → payload.length = plen) ∧
      tryParseFrame buf =
        if buf.length < (pos + plen) % 2 ^ 64 then .need
        else if buf.length < pos + plen then .overrun
        else .frame fin opcode payload (pos + plen) := by
  unfold frameHeader at h
  unfold tryParseFrame
  by_cases hlen : buf.length < 2
  · rw [if_pos hlen] at h
    cases h
  · rw [if_neg hlen] at h ⊢
    dsimp only at h ⊢
    cases hfield : lengthField buf (buf.getD 1 0 &&& 0x7F).toNat with
    | none =>
      rw [hfield] at h
      cases h
    | some p =>
      obtain ⟨n, q⟩ := p
      rw [hfield] at h
      simp only [Option.bind_some] at h ⊢
      by_cases hmask : buf.getD 1 0 &&& 0x80 ≠ 0
      · simp only [hmask, true_and, if_true, ne_eq, not_false_eq_true] at h ⊢
        split at h
        · cases h
        · next hkey =>
          obtain ⟨rfl, rfl⟩ := Prod.mk.inj (Option.some.inj h)
          rw [if_neg hkey]
          refine ⟨_, _, _, ?_, rfl⟩
          intro hin
          rw [length_xorMask, List.length_take, List.length_drop]
          omega
      · simp only [hmask, false_and, if_false] at h ⊢
        obtain ⟨rfl, rfl⟩ := Prod.mk.inj (Option.some.inj h)
        refine ⟨_, _, _, ?_, rfl⟩
        intro hin
        rw [List.length_take, List.length_drop]
        omega

theorem tryParseFrame_of_no_header {buf : Text} (h : frameHeader buf = none) :
    tryParseFrame buf = .need := by
  unfold frameHeader at h
  unfold tryParseFrame
  by_cases hlen : buf.length < 2
  · rw [if_pos hlen]
  · rw [if_neg hlen] at h ⊢
    dsimp only at h ⊢
    cases hfield : lengthField buf (buf.getD 1 0 &&& 0x7F).toNat with
    | none => rfl
    | some p =>
      rw [hfield] at h
      simp only [Option.bind_some] at h ⊢
      split at h
      · next hkey => rw [if_pos hkey]
      · cases h

/-- A frame returned lies inside the buffer: the end of its payload, computed without
wrapping, is what is reported as consumed, and no byte is read from behind the buffer. -/
def FrameInside (buf : Text) : Prop :=
  tryParseFrame buf ≠ .need →
    ∃ pos plen, frameHeader buf = some (pos, plen) ∧ pos + plen < 2 ^ 64 ∧
      pos + plen ≤ buf.length ∧
      ∃ fin opcode payload, tryParseFrame buf = .frame fin opcode payload (pos + plen) ∧
        payload.length = plen

/-- A complete header of the eight-byte form declares a payload that ends past the top
of a `size_t`. -/
def DeclaresPastTop (buf : Text) : Prop :=
  let b1 := buf.getD 1 0
  let size := if b1 &&& 0x80 ≠ 0 then 14 else 10
  b1 &&& 0x7F = 127 ∧ size ≤ buf.length ∧ 2 ^ 64 ≤ size + beNat ((buf.drop 2).take 8)

instance (buf : Text) : Decidable (DeclaresPastTop buf) :=
  inferInstanceAs (Decidable (_ ∧ _ ∧ _))

/-- The length field lies inside the buffer, and only its eight-byte form declares 65536
bytes or more. -/
theorem lengthField_cases {buf : Text} {n plen pos : ℕ} (hn : n < 128) (hlen : 2 ≤ buf.length)
    (h : lengthField buf n = some (plen, pos)) :
    pos ≤ buf.length ∧ (plen < 65536 ∧ pos ≤ 4 ∨
      n = 127 ∧ pos = 10 ∧ plen = beNat ((buf.drop 2).take 8)) := by
  have htwo : beNat ((buf.drop 2).take 2) < 256 ^ 2 :=
    lt_of_lt_of_le (beNat_lt _) (Nat.pow_le_pow_right (by decide) (List.length_take_le _ _))
  unfold lengthField at h
  split_ifs at h <;>
    (obtain ⟨rfl, rfl⟩ := Prod.mk.inj (Option.some.inj h)
     omega)

/-- What a complete header says. -/
theorem frameHeader_cases {buf : Text} {pos plen : ℕ} (h : frameHeader buf = some (pos, plen)) :
    pos ≤ buf.length ∧ (plen < 65536 ∧ pos ≤ 8 ∨
      buf.getD 1 0 &&& 0x7F = 127 ∧ pos = (if buf.getD 1 0 &&& 0x80 ≠ 0 then 14 else 10) ∧
        plen = beNat ((buf.drop 2).take 8)) := by
  have hsmall := Nat.mod_lt (buf.getD 1 0).toNat (show 128 > 0 by decide)
  rw [← and_127_toNat] at hsmall
  unfold frameHeader at h
  split at h
  · cases h
  · next hlen =>
    obtain ⟨⟨n, q⟩, hfield, hhead⟩ := Option.bind_eq_some_iff.mp h
    have hcases := lengthField_cases hsmall (by omega) hfield
    have h127 : (buf.getD 1 0 &&& 0x7F).toNat = 127 ↔ buf.getD 1 0 &&& 0x7F = 127 :=
      UInt8.toNat_inj (b := 127)
    rw [h127] at hcases
    obtain ⟨hq, hcases⟩ := hcases
    dsimp only at hhead
    by_cases hmask : buf.getD 1 0 &&& 0x80 ≠ 0
    · simp only [hmask, true_and, if_true, ne_eq, not_false_eq_true] at hhead ⊢
      split at hhead
      · cases hhead
      · obtain ⟨rfl, rfl⟩ := Prod.mk.inj (Option.some.inj hhead)
        refine ⟨by omega, ?_⟩
        rcases hcases with ⟨hsmall, hle⟩ | ⟨hcode, rfl, hplen⟩
        · exact .inl ⟨hsmall, by omega⟩
        · exact .inr ⟨hcode, rfl, hplen⟩
    · simp only [hmask, false_and, if_false] at hhead ⊢
      obtain ⟨rfl, rfl⟩ := Prod.mk.inj (Option.some.inj hhead)
      refine ⟨hq, ?_⟩
      rcases hcases with ⟨hsmall, hle⟩ | ⟨hcode, rfl, hplen⟩
      · exact .inl ⟨hsmall, by omega⟩
      · exact .inr ⟨hcode, rfl, hplen⟩

/-- The declared length is a `uint64_t`. -/
theorem frameHeader_plen_lt {buf : Text} {pos plen : ℕ}
    (h : frameHeader buf = some (pos, plen)) : plen < 2 ^ 64 := by
  obtain ⟨-, ⟨hsmall, -⟩ | ⟨-, -, rfl⟩⟩ := frameHeader_cases h
  · omega
  · have hlen : ((buf.drop 2).take 8).length ≤ 8 := List.length_take_le _ _
    exact lt_of_lt_of_le (beNat_lt _) (Nat.pow_le_pow_right (by decide) hlen)

/-- The sum wraps for the headers of the eight-byte form that declare that much. -/
theorem wraps_iff {buf : Text} :
    (∃ pos plen, frameHeader buf = some (pos, plen) ∧ 2 ^ 64 ≤ pos + plen)
      ↔ DeclaresPastTop buf := by
  constructor
  · rintro ⟨pos, plen, hhead, hwrap⟩
    obtain ⟨hpos, ⟨hsmall, hle⟩ | ⟨hcode, rfl, rfl⟩⟩ := frameHeader_cases hhead
    · omega
    · exact ⟨hcode, hpos, hwrap⟩
  · rintro ⟨hcode, hsize, hwrap⟩
    refine ⟨_, _, ?_, hwrap⟩
    have hten : ¬ buf.length < 10 := by
      split at hsize <;> omega
    have hfield : lengthField buf (buf.getD 1 0 &&& 0x7F).toNat
        = some (beNat ((buf.drop 2).take 8), 10) := by
      unfold lengthField
      rw [hcode, if_neg (by decide), if_pos (by decide), if_neg hten]
    unfold frameHeader
    dsimp only
    rw [if_neg (by omega), hfield]
    by_cases hmask : buf.getD 1 0 &&& 0x80 ≠ 0
    · simp only [hmask, if_true, ne_eq, not_false_eq_true] at hsize
      simp only [hmask, Option.bind_some, true_and, if_true, ne_eq, not_false_eq_true]
      rw [if_neg (by omega)]
    · simp only [hmask, Option.bind_some, false_and, if_false]

/-- **The parser stays inside the buffer exactly when the declared end does not wrap.**
`buf->len < pos + plen` is computed modulo `2 ^ 64`, so a header that declares a payload
ending past the top passes the test, and the copy runs over the end of the buffer. -/
theorem frameInside_iff {buf : Text} (hlen : buf.length < 2 ^ 63) :
    FrameInside buf ↔ ¬ DeclaresPastTop buf := by
  rw [← wraps_iff]
  constructor
  · rintro hin ⟨pos, plen, hhead, hwrap⟩
    obtain ⟨fin, opcode, payload, -, hparse⟩ := tryParseFrame_of_header hhead
    have hpos := (frameHeader_cases hhead).1
    have hplen := frameHeader_plen_lt hhead
    -- what is left of the sum lies inside the header
    have hmod : (pos + plen) % 2 ^ 64 < pos := by omega
    rw [if_neg (by omega), if_pos (by omega)] at hparse
    obtain ⟨pos', plen', hhead', hlt, -⟩ := hin (by rw [hparse]; simp)
    rw [hhead] at hhead'
    obtain ⟨rfl, rfl⟩ := Prod.mk.inj (Option.some.inj hhead')
    omega
  · intro hno hret
    cases hhead : frameHeader buf with
    | none => exact absurd (tryParseFrame_of_no_header hhead) hret
    | some p =>
      obtain ⟨pos, plen⟩ := p
      have hwrap : pos + plen < 2 ^ 64 := by
        by_contra hge
        exact hno ⟨pos, plen, hhead, by omega⟩
      obtain ⟨fin, opcode, payload, hpay, hparse⟩ := tryParseFrame_of_header hhead
      rw [Nat.mod_eq_of_lt hwrap] at hparse
      by_cases hshort : buf.length < pos + plen
      · rw [if_pos hshort] at hparse
        exact absurd hparse hret
      · rw [if_neg hshort, if_neg hshort] at hparse
        exact ⟨pos, plen, rfl, hwrap, by omega, fin, opcode, payload, hparse, hpay (by omega)⟩

/-- A header that declares `2 ^ 64 - 1` bytes: the sum wraps to 9. -/
theorem declaresPastTop_max :
    ¬ FrameInside [0x82, 0x7F, 0xFF, 0xFF, 0xFF, 0xFF, 0xFF, 0xFF, 0xFF, 0xFF] := by
  intro h
  obtain ⟨pos, plen, hhead, hlt, -⟩ := h (by decide +kernel)
  have hmax : frameHeader [0x82, 0x7F, 0xFF, 0xFF, 0xFF, 0xFF, 0xFF, 0xFF, 0xFF, 0xFF]
      = some (10, 2 ^ 64 - 1) := by decide +kernel
  rw [hmax] at hhead
  obtain ⟨rfl, rfl⟩ := Prod.mk.inj (Option.some.inj hhead)
  omega

/-- The frame of a one-byte payload in the eight-byte form. -/
theorem frameInside_long_one :
    FrameInside [0x82, 0x7F, 0, 0, 0, 0, 0, 0, 0, 1, 0x41] :=
  (frameInside_iff (by decide)).mpr (by decide +kernel)

end Jaguar
