/-
SHA-1 as the WebSocket handshake uses it (`sha1.c`).

The context takes in its data in pieces of any size, and padding is put in by the same function,
byte after byte, up to the place of the length.

* `sha1Transform` — one block;
* `sha1Final_update` — **the digest of any pieces is that of the padded message's blocks**;
* `sha1_eq` — the same for the message in one piece;
* `sha1_collides` — two messages with one digest make `sha1Transform` collide on the way.
-/
import Jaguar.BlockFeed
import Jaguar.Bytes

namespace Jaguar

/-! ### The source -/

/-- `state[5]`. -/
structure Sha1State where
  a : UInt32
  b : UInt32
  c : UInt32
  d : UInt32
  e : UInt32
  deriving DecidableEq

/-- `ROL`. -/
def rol (v s : UInt32) : UInt32 := (v <<< s) ||| (v >>> (32 - s))

/-- The first sixteen words of a block. -/
def blockWords (block : Text) : List UInt32 :=
  (List.range 16).map fun i => UInt32.ofNat (beNat ((block.drop (4 * i)).take 4))

/-- `w[i]` from the sixteen words before it, newest first. -/
def nextWord (w : List UInt32) : UInt32 :=
  rol (w.getD 2 0 ^^^ w.getD 7 0 ^^^ w.getD 13 0 ^^^ w.getD 15 0) 1

/-- The words of a block, from `w[15]` on: `n` more are put in front. -/
def extendWords : ℕ → List UInt32 → List UInt32
  | 0, w => w
  | n + 1, w => extendWords n (nextWord w :: w)

/-- `w[80]`. -/
def sha1Words (block : Text) : List UInt32 :=
  (extendWords 64 (blockWords block).reverse).reverse

/-- One turn of the second loop, with `w[i]`. -/
def sha1Round (s : Sha1State) (i : ℕ) (w : UInt32) : Sha1State :=
  let f :=
    if i < 20 then (s.b &&& s.c) ||| (~~~ s.b &&& s.d)
    else if i < 40 then s.b ^^^ s.c ^^^ s.d
    else if i < 60 then (s.b &&& s.c) ||| (s.b &&& s.d) ||| (s.c &&& s.d)
    else s.b ^^^ s.c ^^^ s.d
  let k : UInt32 :=
    if i < 20 then 0x5A827999
    else if i < 40 then 0x6ED9EBA1
    else if i < 60 then 0x8F1BBCDC
    else 0xCA62C1D6
  let temp := rol s.a 5 + f + s.e + k + w
  ⟨temp, s.a, rol s.b 30, s.c, s.d⟩

/-- `sha1_transform`. -/
def sha1Transform (s : Sha1State) (block : Text) : Sha1State :=
  let t := (sha1Words block).zipIdx.foldl (fun t w => sha1Round t w.2 w.1) s
  ⟨s.a + t.a, s.b + t.b, s.c + t.c, s.d + t.d, s.e + t.e⟩

/-- `SHA1_CTX`; the first `buflen` bytes of its buffer. -/
structure Sha1Ctx where
  blocks : BlockFeed Sha1State UInt8 64
  bitlen : UInt64

/-- The state that `sha1_init` sets. -/
def sha1Start : Sha1State := ⟨0x67452301, 0xEFCDAB89, 0x98BADCFE, 0x10325476, 0xC3D2E1F0⟩

/-- `sha1_init`. -/
def sha1Init : Sha1Ctx := ⟨⟨sha1Start, [], by decide⟩, 0⟩

/-- `sha1_update`. -/
def sha1Update (ctx : Sha1Ctx) (data : Text) : Sha1Ctx where
  blocks := ctx.blocks.feed sha1Transform data
  bitlen := ctx.bitlen + UInt64.ofNat data.length * 8

/-- The number of zeros that `sha1_final` puts in. -/
def Sha1Ctx.gap (ctx : Sha1Ctx) : ℕ := (120 - ctx.blocks.buffer.length) % 64

theorem feed_singleton_length (c : BlockFeed Sha1State UInt8 64) (b : UInt8) :
    (c.feed sha1Transform [b]).buffer.length = (c.buffer.length + 1) % 64 := by
  have hspec := congrArg (fun p => p.2.length) (c.feed_spec (f := sha1Transform) [b])
  dsimp only at hspec
  rw [hspec, length_blockFold_rest sha1Transform (by decide), List.length_append,
    List.length_singleton]

/-- `while (ctx->buflen != 56) sha1_update(ctx, &zero, 1);` -/
def sha1Zeros (ctx : Sha1Ctx) : Sha1Ctx :=
  if _h : ctx.blocks.buffer.length = 56 then ctx else sha1Zeros (sha1Update ctx [0])
termination_by ctx.gap
decreasing_by
  have hshort := ctx.blocks.short
  have hnext := feed_singleton_length ctx.blocks 0
  rw [Sha1Ctx.gap, Sha1Ctx.gap, sha1Update, hnext]
  omega

/-- `out[20]`. -/
def Sha1State.bytes (s : Sha1State) : Text :=
  [s.a, s.b, s.c, s.d, s.e].flatMap fun w => beBytes 4 w.toNat

/-- `sha1_final`. -/
def sha1Final (ctx : Sha1Ctx) : Text :=
  let padded := sha1Zeros (sha1Update ctx [0x80])
  (sha1Transform padded.blocks.state
    (padded.blocks.buffer ++ beBytes 8 ctx.bitlen.toNat)).bytes

/-- `sha1`. -/
def sha1 (data : Text) : Text := sha1Final (sha1Update sha1Init data)

example : sha1 (txt "abc") = [0xA9, 0x99, 0x3E, 0x36, 0x47, 0x06, 0x81, 0x6A, 0xBA, 0x3E, 0x25, 0x71,
    0x78, 0x50, 0xC2, 0x6C, 0x9C, 0xD0, 0xD8, 0x9D] := by
  decide +kernel

@[simp] theorem length_sha1 (data : Text) : (sha1 data).length = 20 := by
  rw [sha1, sha1Final]
  simp [Sha1State.bytes]

/-! ### What is digested -/

/-- The zeros between a message of `length` bytes and its length. -/
def padZeros (length : ℕ) : Text := List.replicate ((120 - (length + 1) % 64) % 64) 0

/-- The message with its padding: the byte `0x80`, zeros up to the last eight bytes of a block, and
the length in bits. -/
def sha1Pad (s : Text) : Text :=
  s ++ 0x80 :: padZeros s.length ++ beBytes 8 (8 * s.length % 2 ^ 64)

theorem length_sha1Pad (s : Text) :
    (sha1Pad s).length = s.length + 9 + (120 - (s.length + 1) % 64) % 64 := by
  simp only [sha1Pad, padZeros, List.length_append, List.length_cons, List.length_replicate,
    length_beBytes]
  omega

theorem blocks_foldl_sha1Update (ctx : Sha1Ctx) (pieces : List Text) :
    (pieces.foldl sha1Update ctx).blocks = ctx.blocks.feed sha1Transform pieces.flatten := by
  induction pieces generalizing ctx with
  | nil =>
    rw [List.flatten_nil, BlockFeed.feed, dif_pos rfl]
    rfl
  | cons s pieces ih =>
    rw [List.foldl_cons, ih, List.flatten_cons]
    exact ctx.blocks.feed_feed s pieces.flatten

theorem bitlen_foldl_sha1Update (ctx : Sha1Ctx) (pieces : List Text) :
    (pieces.foldl sha1Update ctx).bitlen.toNat
      = (ctx.bitlen.toNat + 8 * pieces.flatten.length) % 2 ^ 64 := by
  induction pieces generalizing ctx with
  | nil =>
    have hlt := ctx.bitlen.toNat_lt
    simp only [List.foldl_nil, List.flatten_nil, List.length_nil]
    omega
  | cons s pieces ih =>
    rw [List.foldl_cons, ih, List.flatten_cons, List.length_append]
    simp only [sha1Update, UInt64.toNat_add, UInt64.toNat_mul, UInt64.toNat_ofNat']
    have height : UInt64.toNat 8 = 8 := rfl
    rw [height]
    omega

/-- The zeros are put in one by one, until the place of the length. -/
theorem blocks_sha1Zeros (ctx : Sha1Ctx) :
    (sha1Zeros ctx).blocks = ctx.blocks.feed sha1Transform (List.replicate ctx.gap 0) ∧
      (sha1Zeros ctx).blocks.buffer.length = 56 := by
  induction ctx using sha1Zeros.induct with
  | case1 ctx h =>
    have hgap : ctx.gap = 0 := by rw [Sha1Ctx.gap, h]
    rw [sha1Zeros, dif_pos h, hgap, List.replicate_zero, BlockFeed.feed, dif_pos rfl]
    exact ⟨rfl, h⟩
  | case2 ctx h ih =>
    have hshort := ctx.blocks.short
    have hnext := feed_singleton_length ctx.blocks 0
    have hgap : ctx.gap = (sha1Update ctx [0]).gap + 1 := by
      rw [Sha1Ctx.gap, Sha1Ctx.gap, sha1Update, hnext]
      omega
    rw [sha1Zeros, dif_neg h, ih.1, hgap, List.replicate_succ]
    refine ⟨ctx.blocks.feed_feed [0] _, ?_⟩
    rw [← ih.1]
    exact ih.2

/-- Everything in front of the length is fed to the first context. -/
theorem blocks_sha1Padded (pieces : List Text) :
    (sha1Zeros (sha1Update (pieces.foldl sha1Update sha1Init) [0x80])).blocks
      = sha1Init.blocks.feed sha1Transform
          (pieces.flatten ++ 0x80 :: padZeros pieces.flatten.length) := by
  set s := pieces.flatten
  have hupdate : (sha1Update (pieces.foldl sha1Update sha1Init) [0x80]).blocks
      = sha1Init.blocks.feed sha1Transform (s ++ [0x80]) := by
    rw [sha1Update, blocks_foldl_sha1Update]
    exact sha1Init.blocks.feed_feed s [0x80]
  have hlength : (sha1Init.blocks.feed sha1Transform (s ++ [0x80])).buffer.length
      = (s.length + 1) % 64 := by
    have hspec := congrArg (fun p => p.2.length)
      (sha1Init.blocks.feed_spec (f := sha1Transform) (s ++ [0x80]))
    dsimp only at hspec
    rw [hspec, length_blockFold_rest sha1Transform (by decide)]
    simp [sha1Init]
  rw [(blocks_sha1Zeros _).1, Sha1Ctx.gap, hupdate, hlength, BlockFeed.feed_feed,
    List.append_assoc]
  rfl

/-- **The digest of any pieces**: the padded message is cut into blocks, and these are taken in one
after the other. -/
theorem sha1Final_update (pieces : List Text) :
    ∃ bs : List Text, (∀ b ∈ bs, b.length = 64) ∧ bs.flatten = sha1Pad pieces.flatten ∧
      sha1Final (pieces.foldl sha1Update sha1Init)
        = (bs.foldl sha1Transform sha1Start).bytes := by
  have hlength := length_sha1Pad pieces.flatten
  obtain ⟨bs, hbs, hflatten⟩ := exists_blocks
    (show 64 ∣ (sha1Pad pieces.flatten).length by omega)
  refine ⟨bs, hbs, hflatten, ?_⟩
  have hbitlen : (pieces.foldl sha1Update sha1Init).bitlen.toNat
      = 8 * pieces.flatten.length % 2 ^ 64 := by
    rw [bitlen_foldl_sha1Update]
    exact congrArg (· % 2 ^ 64) (Nat.zero_add _)
  have hplace := (blocks_sha1Zeros (sha1Update (pieces.foldl sha1Update sha1Init) [0x80])).2
  have hspec := sha1Init.blocks.feed_spec (f := sha1Transform)
    (pieces.flatten ++ 0x80 :: padZeros pieces.flatten.length)
  rw [← blocks_sha1Padded] at hspec
  rw [sha1Final, hbitlen]
  set padded := (sha1Zeros (sha1Update (pieces.foldl sha1Update sha1Init) [0x80])).blocks
  -- the length fills the last block
  have hlast : (padded.buffer ++ beBytes 8 (8 * pieces.flatten.length % 2 ^ 64)).length = 64 := by
    rw [List.length_append, hplace, length_beBytes]
  have hblock := blockFold_cons sha1Transform (show 0 < 64 by decide) hlast padded.state []
  rw [List.append_nil, blockFold_of_short sha1Transform (s := []) (by decide)] at hblock
  have hfold := blockFold_flatten sha1Transform (show 0 < 64 by decide) hbs sha1Start []
  rw [List.append_nil, hflatten, sha1Pad, blockFold_append sha1Transform (by decide),
    blockFold_of_short sha1Transform (s := []) (by decide)] at hfold
  have hstart : (padded.state, padded.buffer) = blockFold 64 sha1Transform sha1Start
      (pieces.flatten ++ 0x80 :: padZeros pieces.flatten.length) := hspec
  rw [← hstart, hblock] at hfold
  rw [(Prod.mk.inj hfold).1]

/-- The same for a message in one piece. -/
theorem sha1_eq (s : Text) :
    ∃ bs : List Text, (∀ b ∈ bs, b.length = 64) ∧ bs.flatten = sha1Pad s ∧
      sha1 s = (bs.foldl sha1Transform sha1Start).bytes := by
  have hone := sha1Final_update [s]
  rwa [List.flatten_singleton] at hone

/-! ### Collisions -/

theorem beBytes_inj {k n m : ℕ} (hn : n < 256 ^ k) (hm : m < 256 ^ k)
    (h : beBytes k n = beBytes k m) : n = m := by
  rw [← beNat_beBytes hn, h, beNat_beBytes hm]

theorem Sha1State.bytes_inj {s t : Sha1State} (h : s.bytes = t.bytes) : s = t := by
  have hword : ∀ v w : UInt32, beBytes 4 v.toNat = beBytes 4 w.toNat → v = w := fun v w hvw =>
    UInt32.toNat_inj.mp (beBytes_inj v.toNat_lt w.toNat_lt hvw)
  have hcut : ∀ (v w : UInt32) (u u' : Text), beBytes 4 v.toNat ++ u = beBytes 4 w.toNat ++ u' →
      v = w ∧ u = u' := by
    intro v w u u' heq
    obtain ⟨hfirst, hrest⟩ := List.append_inj heq (by rw [length_beBytes, length_beBytes])
    exact ⟨hword v w hfirst, hrest⟩
  obtain ⟨a, b, c, d, e⟩ := s
  obtain ⟨a', b', c', d', e'⟩ := t
  simp only [Sha1State.bytes, List.flatMap_cons, List.flatMap_nil] at h
  obtain ⟨ha, h₁⟩ := hcut _ _ _ _ h
  obtain ⟨hb, h₂⟩ := hcut _ _ _ _ h₁
  obtain ⟨hc, h₃⟩ := hcut _ _ _ _ h₂
  obtain ⟨hd, h₄⟩ := hcut _ _ _ _ h₃
  obtain ⟨he, -⟩ := hcut _ _ _ _ h₄
  rw [ha, hb, hc, hd, he]

/-- The padding can be taken off again. -/
theorem sha1Pad_inj {s t : Text} (hs : s.length < 2 ^ 61) (ht : t.length < 2 ^ 61)
    (h : sha1Pad s = sha1Pad t) : s = t := by
  have hlength := congrArg List.length h
  have hend := List.append_inj_right' h (by rw [length_beBytes, length_beBytes])
  have hbits := beBytes_inj (by omega) (by omega) hend
  have hsame : s.length = t.length := by omega
  simp only [sha1Pad, List.append_assoc] at h
  exact List.append_inj_left h hsame

/-- The last block ends with the length of the message. -/
theorem getLast_sha1Pad {s : Text} {bs : List Text} (hbs : ∀ b ∈ bs, b.length = 64)
    (hflatten : bs.flatten = sha1Pad s) (hne : bs ≠ []) :
    (bs.getLast hne).drop 56 = beBytes 8 (8 * s.length % 2 ^ 64) := by
  have hlast := hbs _ (List.getLast_mem hne)
  have hsplit : bs.dropLast.flatten ++ ((bs.getLast hne).take 56 ++ (bs.getLast hne).drop 56)
      = (s ++ 0x80 :: padZeros s.length) ++ beBytes 8 (8 * s.length % 2 ^ 64) := by
    have hparts : bs.dropLast.flatten ++ bs.getLast hne = bs.flatten := by
      conv_rhs => rw [← List.dropLast_append_getLast hne]
      rw [List.flatten_append, List.flatten_singleton]
    rw [List.take_append_drop, hparts, hflatten, sha1Pad]
  rw [← List.append_assoc] at hsplit
  refine List.append_inj_right' hsplit ?_
  rw [List.length_drop, hlast, length_beBytes]

theorem length_flatten_blocks {n : ℕ} {bs : List Text} (hbs : ∀ b ∈ bs, b.length = n) :
    bs.flatten.length = n * bs.length := by
  induction bs with
  | nil => rfl
  | cons b bs ih =>
    rw [List.forall_mem_cons] at hbs
    rw [List.flatten_cons, List.length_append, hbs.1, ih hbs.2, List.length_cons]
    ring

/-- The blocks that `sha1_final` has taken in for a message. -/
structure PaddedBlocks (s : Text) (bs : List Text) : Prop where
  length : ∀ b ∈ bs, b.length = 64
  flatten : bs.flatten = sha1Pad s

theorem PaddedBlocks.ne_nil {s : Text} {bs : List Text} (h : PaddedBlocks s bs) : bs ≠ [] := by
  rintro rfl
  have hlength := length_sha1Pad s
  rw [← h.flatten, List.flatten_nil, List.length_nil] at hlength
  omega

/-- **Two messages with one digest collide on the way**: `sha1_transform` takes two different pairs
of a state and a block, both met while the messages are digested, to one state. -/
theorem sha1_collides {s t : Text} (hs : s.length < 2 ^ 61) (ht : t.length < 2 ^ 61) :
    s = t ∨ sha1 s ≠ sha1 t ∨
      ∃ bs cs, PaddedBlocks s bs ∧ PaddedBlocks t cs ∧ Collides sha1Transform sha1Start bs cs := by
  by_cases hne : s = t
  · exact .inl hne
  by_cases hdigests : sha1 s = sha1 t
  swap
  · exact .inr (.inl hdigests)
  obtain ⟨bs, hbs, hflatten, hdigest⟩ := sha1_eq s
  obtain ⟨cs, hcs, hflatten', hdigest'⟩ := sha1_eq t
  have hpadded : PaddedBlocks s bs := ⟨hbs, hflatten⟩
  have hpadded' : PaddedBlocks t cs := ⟨hcs, hflatten'⟩
  refine .inr (.inr ⟨bs, cs, hpadded, hpadded', ?_⟩)
  refine collides_of_foldl_eq sha1Transform ?_ hpadded.ne_nil hpadded'.ne_nil ?_
    (Sha1State.bytes_inj (hdigest.symm.trans (hdigests.trans hdigest')))
  · rintro rfl
    exact hne (sha1Pad_inj hs ht (hflatten.symm.trans hflatten'))
  · intro hblocks hlast
    -- blocks that end alike tell of one length, and so of one number of blocks
    have hends := getLast_sha1Pad hbs hflatten hpadded.ne_nil
    rw [hlast, getLast_sha1Pad hcs hflatten' hpadded'.ne_nil] at hends
    have hbits := beBytes_inj (by omega) (by omega) hends
    have hsame : s.length = t.length := by omega
    have hcount := length_flatten_blocks hbs
    have hcount' := length_flatten_blocks hcs
    rw [hflatten, length_sha1Pad] at hcount
    rw [hflatten', length_sha1Pad, ← hsame] at hcount'
    omega

/-- Messages of one block that differ in a bit: the second case, unless SHA-1 has a collision among
messages as short as these. -/
theorem sha1_collides_abc : txt "abc" = txt "abd" ∨ sha1 (txt "abc") ≠ sha1 (txt "abd") ∨
    ∃ bs cs, PaddedBlocks (txt "abc") bs ∧ PaddedBlocks (txt "abd") cs ∧
      Collides sha1Transform sha1Start bs cs :=
  sha1_collides (by decide) (by decide)

end Jaguar
