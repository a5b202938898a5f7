/-
Text that is built in a block of memory with `strcat`, beside a counter.

A block has a capacity, and the counter says what the program takes the length of its text to
be: room is made by the counter, but `strcat` finds the end of the text by itself. Nothing
here is about one program.

* `Buffer`, `BufferOp` — the block, and the three statements that work on it;
* `Sound` — in a run of statements every `strcat` ends below the capacity, and behind every
  other statement the counter is the length;
* `Sound.append`, `sound_strcat`, `sound_count`, `sound_reserve` — the rules;
* `Ready` — the invariant of a loop that makes room before it writes.
-/
import Mathlib.Data.Nat.Notation
import Mathlib.Data.List.Basic

namespace Jaguar

/-- A block of `cap` bytes. -/
structure Buffer (α : Type*) where
  text : List α
  cap : ℕ
  len : ℕ
  cap_pos : 0 < cap

inductive BufferOp (α : Type*)
  /-- `strcat(out, s)`. -/
  | strcat (s : List α)
  /-- `len += n`. -/
  | count (n : ℕ)
  /-- `while (len + need > cap) { cap *= 2; out = realloc(out, cap); }` -/
  | reserve (need : ℕ)

variable {α : Type*}

namespace Buffer

def reserve (b : Buffer α) (need : ℕ) : Buffer α :=
  if b.cap < b.len + need then
    reserve { b with cap := b.cap * 2, cap_pos := Nat.mul_pos b.cap_pos Nat.two_pos } need
  else b
  termination_by b.len + need - b.cap
  decreasing_by
    have := b.cap_pos
    show b.len + need - b.cap * 2 < b.len + need - b.cap
    omega

/-- There is room behind it, and nothing else has changed. -/
theorem reserve_spec (b : Buffer α) (need : ℕ) :
    (b.reserve need).text = b.text ∧ (b.reserve need).len = b.len ∧
      b.len + need ≤ (b.reserve need).cap := by
  fun_induction b.reserve need with
  | case1 b hlt ih => exact ih
  | case2 b hge => exact ⟨rfl, rfl, Nat.le_of_not_lt hge⟩

def exec (b : Buffer α) : BufferOp α → Buffer α
  | .strcat s => { b with text := b.text ++ s }
  | .count n => { b with len := b.len + n }
  | .reserve need => b.reserve need

def run (b : Buffer α) (ops : List (BufferOp α)) : Buffer α := ops.foldl exec b

@[simp] theorem run_nil (b : Buffer α) : b.run [] = b := rfl

@[simp] theorem run_cons (b : Buffer α) (op : BufferOp α) (ops : List (BufferOp α)) :
    b.run (op :: ops) = (b.exec op).run ops := rfl

theorem run_append (b : Buffer α) (ops ops' : List (BufferOp α)) :
    b.run (ops ++ ops') = (b.run ops).run ops' := List.foldl_append

/-- The counter is the length of the text. -/
def Counted (b : Buffer α) : Prop := b.len = b.text.length

/-- `strcat` and its terminator end below the capacity; any other statement leaves the right
counter. -/
def Fits (b : Buffer α) : BufferOp α → Prop
  | .strcat s => b.text.length + s.length + 1 ≤ b.cap
  | op => (b.exec op).Counted

/-- Every statement of a run, at the point where it stands. -/
def Sound (b : Buffer α) (ops : List (BufferOp α)) : Prop :=
  ∀ pre op post, ops = pre ++ op :: post → (b.run pre).Fits op

/-! ### The rules -/

theorem sound_nil (b : Buffer α) : b.Sound [] := by
  intro pre op post h
  simp at h

theorem sound_cons {b : Buffer α} {op : BufferOp α} {ops : List (BufferOp α)} (hop : b.Fits op)
    (hops : (b.exec op).Sound ops) : b.Sound (op :: ops) := by
  intro pre op' post h
  rcases List.cons_eq_append_iff.mp h with ⟨rfl, hcons⟩ | ⟨pre', rfl, hops'⟩
  · obtain ⟨rfl, -⟩ := List.cons.inj hcons
    exact hop
  · exact hops pre' op' post hops'

theorem Sound.append {b : Buffer α} {ops ops' : List (BufferOp α)} (h : b.Sound ops)
    (h' : (b.run ops).Sound ops') : b.Sound (ops ++ ops') := by
  induction ops generalizing b with
  | nil => exact h'
  | cons op ops ih =>
    have hop : b.Fits op := h [] op ops rfl
    refine sound_cons hop (ih (fun pre op' post heq => ?_) h')
    exact h (op :: pre) op' post (by rw [heq, List.cons_append])

theorem sound_strcat {b : Buffer α} {s : List α} {ops : List (BufferOp α)}
    (hroom : b.text.length + s.length + 1 ≤ b.cap)
    (hops : ({ b with text := b.text ++ s } : Buffer α).Sound ops) :
    b.Sound (.strcat s :: ops) := sound_cons hroom hops

theorem sound_count {b : Buffer α} {n : ℕ} {ops : List (BufferOp α)}
    (hlen : b.len + n = b.text.length)
    (hops : ({ b with len := b.len + n } : Buffer α).Sound ops) :
    b.Sound (.count n :: ops) := sound_cons hlen hops

theorem sound_reserve {b : Buffer α} {need : ℕ} {ops : List (BufferOp α)} (hb : b.Counted)
    (hops : (b.reserve need).Sound ops) : b.Sound (.reserve need :: ops) := by
  refine sound_cons ?_ hops
  show (b.reserve need).len = (b.reserve need).text.length
  obtain ⟨htext, hlen, -⟩ := b.reserve_spec need
  rw [htext, hlen]
  exact hb

/-- The head of a loop: the counter is right, and `room` bytes are left. -/
structure Ready (room : ℕ) (b : Buffer α) : Prop where
  counted : b.Counted
  room : b.len + room ≤ b.cap

theorem Ready.mono {b : Buffer α} {room room' : ℕ} (hb : Ready room b) (h : room' ≤ room) :
    Ready room' b := ⟨hb.counted, Nat.le_trans (Nat.add_le_add_left h b.len) hb.room⟩

end Buffer

end Jaguar
