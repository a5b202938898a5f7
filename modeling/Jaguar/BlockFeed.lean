/-
Streams that are taken in by whole blocks.

A function `f` that takes a state and a block of `n` items is fed a stream piece by piece: items
wait in a buffer until their block is full. What counts is the stream and not the pieces.

* `BlockFeed` — a state and a buffer that is never full;
* `feed_spec`, `feed_feed` — **feeding piece by piece is feeding the pieces in one**;
* `blockFold_flatten` — a stream of whole blocks is folded block by block;
* `collides_of_foldl_eq` — **two lists of blocks with one outcome collide on the way**, if lists of
  different lengths differ in their last blocks.
-/
import Mathlib.Data.List.Basic
import Mathlib.Data.List.Induction
import Mathlib.Data.Nat.Notation
import Mathlib.Tactic.Basic

namespace Jaguar

/-- A state, and the items that wait for their block to be full. -/
@[ext] structure BlockFeed (σ α : Type*) (n : ℕ) where
  state : σ
  buffer : List α
  short : buffer.length < n

section

variable {σ α : Type*} {n : ℕ} (f : σ → List α → σ)

namespace BlockFeed

/-- Takes in a piece: what fits into the buffer, and a block whenever it is full. -/
def feed (c : BlockFeed σ α n) (s : List α) : BlockFeed σ α n :=
  if _hs : s = [] then c
  else
    let take := min (n - c.buffer.length) s.length
    if hfull : (c.buffer ++ s.take take).length = n then
      feed ⟨f c.state (c.buffer ++ s.take take), [], Nat.lt_of_le_of_lt (Nat.zero_le _) c.short⟩
        (s.drop take)
    else
      feed ⟨c.state, c.buffer ++ s.take take, by
        have hshort := c.short
        simp only [List.length_append, List.length_take] at hfull ⊢
        omega⟩ (s.drop take)
termination_by s.length
decreasing_by
  all_goals
    have hshort := c.short
    have hpos := List.length_pos_of_ne_nil _hs
    rw [List.length_drop]
    omega

end BlockFeed

/-- The state behind all whole blocks of a stream, and what is left over. -/
def blockFold (n : ℕ) (f : σ → List α → σ) (x : σ) (s : List α) : σ × List α :=
  if _h : 0 < n ∧ n ≤ s.length then blockFold n f (f x (s.take n)) (s.drop n) else (x, s)
termination_by s.length
decreasing_by
  rw [List.length_drop]
  omega

theorem blockFold_of_short {s : List α} (h : s.length < n) (x : σ) : blockFold n f x s = (x, s) := by
  rw [blockFold, dif_neg (by omega)]

theorem blockFold_cons (hn : 0 < n) {b : List α} (hb : b.length = n) (x : σ) (s : List α) :
    blockFold n f x (b ++ s) = blockFold n f (f x b) s := by
  rw [blockFold, dif_pos ⟨hn, by simp [hb]⟩, ← hb, List.take_left, List.drop_left]

/-- **A stream of whole blocks is folded block by block.** -/
theorem blockFold_flatten (hn : 0 < n) {bs : List (List α)} (hbs : ∀ b ∈ bs, b.length = n) (x : σ)
    (s : List α) : blockFold n f x (bs.flatten ++ s) = blockFold n f (bs.foldl f x) s := by
  induction bs generalizing x with
  | nil => rfl
  | cons b bs ih =>
    rw [List.forall_mem_cons] at hbs
    rw [List.flatten_cons, List.append_assoc, blockFold_cons f hn hbs.1, ih hbs.2, List.foldl_cons]

/-- What is left over goes in front of what comes next. -/
theorem blockFold_append (hn : 0 < n) (x : σ) (s t : List α) :
    blockFold n f x (s ++ t) = blockFold n f (blockFold n f x s).1 ((blockFold n f x s).2 ++ t) := by
  induction hlen : s.length using Nat.strongRecOn generalizing x s with
  | ind k ih =>
    by_cases hlong : n ≤ s.length
    · have hsplit : s = s.take n ++ s.drop n := (List.take_append_drop n s).symm
      have hblock : (s.take n).length = n := by rw [List.length_take]; omega
      rw [hsplit, List.append_assoc, blockFold_cons f hn hblock, blockFold_cons f hn hblock]
      exact ih (s.drop n).length (by rw [List.length_drop]; omega) _ _ rfl
    · rw [blockFold_of_short f (Nat.lt_of_not_le hlong)]

/-- The length of the rest. -/
theorem length_blockFold_rest (hn : 0 < n) (x : σ) (s : List α) :
    (blockFold n f x s).2.length = s.length % n := by
  induction hlen : s.length using Nat.strongRecOn generalizing x s with
  | ind k ih =>
    rw [blockFold]
    split
    · next h =>
      have hdrop : (s.drop n).length = s.length - n := List.length_drop
      rw [ih _ (by omega) _ _ rfl, hdrop, ← hlen, Nat.mod_eq_sub_mod h.2]
    · next h =>
      rw [← hlen, Nat.mod_eq_of_lt (Nat.lt_of_not_le fun hle => h ⟨hn, hle⟩)]

/-- A stream that is long enough for whole blocks is made of them. -/
theorem exists_blocks {s : List α} (h : n ∣ s.length) :
    ∃ bs : List (List α), (∀ b ∈ bs, b.length = n) ∧ bs.flatten = s := by
  obtain ⟨k, hk⟩ := h
  induction k generalizing s with
  | zero => exact ⟨[], List.forall_mem_nil _, (List.length_eq_zero_iff.mp hk).symm⟩
  | succ k ih =>
    rw [Nat.mul_succ] at hk
    obtain ⟨bs, hbs, hflatten⟩ := ih (s := s.drop n) (by rw [List.length_drop]; omega)
    refine ⟨s.take n :: bs, List.forall_mem_cons.mpr ⟨?_, hbs⟩, ?_⟩
    · rw [List.length_take]
      omega
    · rw [List.flatten_cons, hflatten, List.take_append_drop]

namespace BlockFeed

variable {f}

/-- **What feeding comes to**: the buffer and the piece, folded block by block. -/
theorem feed_spec (c : BlockFeed σ α n) (s : List α) :
    ((c.feed f s).state, (c.feed f s).buffer) = blockFold n f c.state (c.buffer ++ s) := by
  induction c, s using BlockFeed.feed.induct f with
  | case1 c =>
    rw [feed, dif_pos rfl, List.append_nil, blockFold_of_short f c.short]
  | case2 c s hs take hfull ih =>
    have hn : 0 < n := Nat.lt_of_le_of_lt (Nat.zero_le _) c.short
    have hsplit : c.buffer ++ s = (c.buffer ++ s.take take) ++ s.drop take := by
      rw [List.append_assoc, List.take_append_drop]
    rw [feed, dif_neg hs]
    dsimp only
    rw [dif_pos hfull, ih, hsplit, blockFold_cons f hn hfull, List.nil_append]
  | case3 c s hs take hfull ih =>
    have hsplit : c.buffer ++ s = (c.buffer ++ s.take take) ++ s.drop take := by
      rw [List.append_assoc, List.take_append_drop]
    rw [feed, dif_neg hs]
    dsimp only
    rw [dif_neg hfull, ih, hsplit]

/-- **Feeding piece by piece is feeding the pieces in one.** -/
theorem feed_feed (c : BlockFeed σ α n) (s t : List α) :
    (c.feed f s).feed f t = c.feed f (s ++ t) := by
  have hn : 0 < n := Nat.lt_of_le_of_lt (Nat.zero_le _) c.short
  have htwo := feed_spec (f := f) (c.feed f s) t
  have hone := feed_spec (f := f) c s
  have hall := feed_spec (f := f) c (s ++ t)
  rw [← List.append_assoc, blockFold_append f hn, ← hone, ← htwo] at hall
  obtain ⟨hstate, hbuffer⟩ := Prod.mk.inj hall
  exact BlockFeed.ext hstate.symm hbuffer.symm

end BlockFeed

/-! ### Collisions -/

/-- On the way through two lists of blocks, two different pairs of a state and a block give one
state. -/
def Collides (f : σ → List α → σ) (x : σ) (bs cs : List (List α)) : Prop :=
  ∃ us b vs c, us ++ [b] <+: bs ∧ vs ++ [c] <+: cs ∧
    (us.foldl f x, b) ≠ (vs.foldl f x, c) ∧ f (us.foldl f x) b = f (vs.foldl f x) c

/-- Lists of equally many blocks. -/
theorem eq_or_collides {x : σ} {bs cs : List (List α)} (hlength : bs.length = cs.length)
    (h : bs.foldl f x = cs.foldl f x) : bs = cs ∨ Collides f x bs cs := by
  induction bs using List.reverseRecOn generalizing cs with
  | nil => exact .inl (List.length_eq_zero_iff.mp hlength.symm).symm
  | append_singleton bs b ih =>
    obtain ⟨cs, c, rfl⟩ : ∃ cs' c, cs = cs' ++ [c] := by
      rcases List.eq_nil_or_concat cs with rfl | ⟨cs', c, rfl⟩
      · simp at hlength
      · exact ⟨cs', c, by simp⟩
    rw [List.foldl_append, List.foldl_append] at h
    by_cases hlast : (bs.foldl f x, b) = (cs.foldl f x, c)
    · obtain ⟨hstate, rfl⟩ := Prod.mk.inj hlast
      have hlength' : bs.length = cs.length := by simpa using hlength
      rcases ih hlength' hstate with rfl | ⟨us, d, vs, e, hus, hvs, hne, heq⟩
      · exact .inl rfl
      · exact .inr ⟨us, d, vs, e, hus.trans (List.prefix_append _ _),
          hvs.trans (List.prefix_append _ _), hne, heq⟩
    · -- the last steps collide
      exact .inr ⟨bs, b, cs, c, List.prefix_rfl, List.prefix_rfl, hlast, h⟩

/-- **Two lists of blocks with one outcome collide on the way**, if lists of different lengths
differ in their last blocks. -/
theorem collides_of_foldl_eq {x : σ} {bs cs : List (List α)} (hne : bs ≠ cs) (hbs : bs ≠ [])
    (hcs : cs ≠ []) (hlast : bs.length ≠ cs.length → bs.getLast hbs ≠ cs.getLast hcs)
    (h : bs.foldl f x = cs.foldl f x) : Collides f x bs cs := by
  by_cases hlength : bs.length = cs.length
  · exact (eq_or_collides f hlength h).resolve_left hne
  · have hends : ∀ {ds : List (List α)} (hds : ds ≠ []), ds.dropLast ++ [ds.getLast hds] = ds :=
      fun hds => List.dropLast_append_getLast hds
    refine ⟨_, _, _, _, ⟨[], (List.append_nil _).trans (hends hbs)⟩,
      ⟨[], (List.append_nil _).trans (hends hcs)⟩, ?_, ?_⟩
    · exact fun heq => hlast hlength (Prod.mk.inj heq).2
    · rw [← hends hbs, ← hends hcs, List.foldl_append, List.foldl_append] at h
      exact h

end

end Jaguar
