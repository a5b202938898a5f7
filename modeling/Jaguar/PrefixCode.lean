/-
Streams of self-delimiting items.

A prefix code writes items as non-empty words none of which is a proper prefix
of another, so a stream can be cut into items in one way only, whoever cuts it
and whenever.

* `PrefixCode.Reads` — the complete items at the front of a stream, in order;
* `PrefixCode.Reads.unique`, `PrefixCode.exists_reads` — there is exactly one such
  sequence;
* `PrefixCode.Reads.eq_append` — the stream is their words and an incomplete rest.
-/
import Mathlib.Data.List.Basic
import Mathlib.Tactic.Basic

/-- Items of type `β` written as words over `α`. -/
structure PrefixCode (α β : Type*) where
  word : β → List α
  word_ne_nil : ∀ x, word x ≠ []
  prefix_free : ∀ x y s t, word x ++ s = word y ++ t → x = y

namespace PrefixCode

variable {α β : Type*} (C : PrefixCode α β)

/-- A complete item stands at the front. -/
def Starts (s : List α) : Prop := ∃ x t, s = C.word x ++ t

/-- `C.Reads s xs`: the complete items at the front of the stream `s` are `xs`. -/
inductive Reads : List α → List β → Prop
  | nil {s : List α} : ¬ C.Starts s → Reads s []
  | cons {s : List α} {x : β} {xs : List β} : Reads s xs → Reads (C.word x ++ s) (x :: xs)

variable {C}

/-- The items behind a complete one. -/
theorem Reads.of_cons {x : β} {s : List α} {xs : List β} (h : C.Reads (C.word x ++ s) xs) :
    ∃ xs', xs = x :: xs' ∧ C.Reads s xs' := by
  generalize hs : C.word x ++ s = s' at h
  cases h with
  | nil hno => exact absurd ⟨x, s, hs.symm⟩ hno
  | @cons t y ys hys =>
    obtain rfl := C.prefix_free x y s t hs
    obtain rfl := List.append_cancel_left hs
    exact ⟨ys, rfl, hys⟩

theorem Reads.eq_nil {s : List α} {xs : List β} (h : C.Reads s xs) (hno : ¬ C.Starts s) :
    xs = [] := by
  cases h with
  | nil _ => rfl
  | @cons t y ys _ => exact absurd ⟨y, t, rfl⟩ hno

/-- **A stream is cut in one way only.** -/
theorem Reads.unique {s : List α} {xs ys : List β} (h : C.Reads s xs) (h' : C.Reads s ys) :
    xs = ys := by
  induction h generalizing ys with
  | nil hno => exact (h'.eq_nil hno).symm
  | cons _ ih =>
    obtain ⟨ys', rfl, hys⟩ := h'.of_cons
    rw [ih hys]

theorem exists_reads (C : PrefixCode α β) (s : List α) : ∃ xs, C.Reads s xs := by
  induction hn : s.length using Nat.strongRecOn generalizing s with
  | ind n ih =>
    by_cases hs : C.Starts s
    · obtain ⟨x, t, rfl⟩ := hs
      have hpos : 0 < (C.word x).length := List.length_pos_iff.mpr (C.word_ne_nil x)
      obtain ⟨xs, hxs⟩ := ih t.length (by simp at hn; omega) t rfl
      exact ⟨x :: xs, hxs.cons⟩
    · exact ⟨[], .nil hs⟩

/-- **Nothing is skipped or shared**: the stream is the words of its items, one
after the other, and a rest with no complete item. -/
theorem Reads.eq_append {s : List α} {xs : List β} (h : C.Reads s xs) :
    ∃ rest, s = xs.flatMap C.word ++ rest ∧ ¬ C.Starts rest := by
  induction h with
  | @nil s hno => exact ⟨s, rfl, hno⟩
  | @cons s x xs _ ih =>
    obtain ⟨rest, hs, hno⟩ := ih
    exact ⟨rest, by rw [hs, List.flatMap_cons, List.append_assoc], hno⟩

end PrefixCode
