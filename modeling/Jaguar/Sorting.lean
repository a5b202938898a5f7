/-
`.sort()`.

Two loops exchange items until each is no greater than those behind it; the nodes of the list
are then made anew.

* `sortItems_perm` — what the loops do to any items is a permutation;
* `sortItems_pairwise` — items that one order compares come out in that order;
* `sort_spec` — **the method**, on any list of any state the interpreter comes to.
-/
import Jaguar.HeapLists
import Jaguar.DoubleOrder

namespace Jaguar

/-! ### The loops -/

theorem sortPass_perm (x : Value) (items : List Value) :
    ((sortPass x items).1 :: (sortPass x items).2).Perm (x :: items) := by
  induction items generalizing x with
  | nil => exact .refl _
  | cons y rest ih =>
    rw [sortPass]
    split_ifs with hgt
    · -- `x` goes where `y` was
      exact (List.Perm.swap x _ _).trans ((ih y).cons x)
    · exact ((List.Perm.swap y _ _).trans ((ih x).cons y)).trans (List.Perm.swap x y rest)

theorem sortItems_perm (n : ℕ) (items : List Value) : (sortItems n items).Perm items := by
  induction n generalizing items with
  | zero => exact .refl _
  | succ n ih =>
    cases items with
    | nil => exact .refl _
    | cons x rest =>
      rw [sortItems]
      exact ((ih _).cons _).trans (sortPass_perm x rest)

/-- `sortGt` tells these items apart as `le` does. -/
structure SortsBy (le : Value → Value → Prop) (items : List Value) : Prop where
  gt : ∀ x ∈ items, ∀ y ∈ items, sortGt x y = true → le y x
  not_gt : ∀ x ∈ items, ∀ y ∈ items, sortGt x y = false → le x y
  trans : ∀ x ∈ items, ∀ y ∈ items, ∀ z ∈ items, le x y → le y z → le x z

section SortsBy

variable {le : Value → Value → Prop} {items items' : List Value}

theorem SortsBy.subset (h : SortsBy le items) (hsub : items' ⊆ items) : SortsBy le items' where
  gt x hx y hy := h.gt x (hsub hx) y (hsub hy)
  not_gt x hx y hy := h.not_gt x (hsub hx) y (hsub hy)
  trans x hx y hy z hz := h.trans x (hsub hx) y (hsub hy) z (hsub hz)

/-- **One pass of the inner loop**: the item in front is no greater than the others. -/
theorem sortPass_le {x : Value} {rest : List Value} (h : SortsBy le (x :: rest)) :
    ∀ z ∈ x :: rest, le (sortPass x rest).1 z := by
  induction rest generalizing x with
  | nil =>
    have hrefl : le x x := by
      have hx : x ∈ [x] := List.mem_singleton_self x
      cases hgt : sortGt x x with
      | true => exact h.gt x hx x hx hgt
      | false => exact h.not_gt x hx x hx hgt
    intro z hz
    exact List.mem_singleton.mp hz ▸ hrefl
  | cons y rest ih =>
    have hx : x ∈ x :: y :: rest := List.mem_cons_self
    have hy : y ∈ x :: y :: rest := List.mem_cons_of_mem _ List.mem_cons_self
    rw [sortPass]
    split_ifs with hgt
    · have hle := ih (h.subset (List.subset_cons_self x (y :: rest)))
      have hmem : (sortPass y rest).1 ∈ x :: y :: rest :=
        List.mem_cons_of_mem _ ((sortPass_perm y rest).subset List.mem_cons_self)
      intro z hz
      rcases List.mem_cons.mp hz with rfl | hz
      · exact h.trans _ hmem y hy z hx (hle y List.mem_cons_self) (h.gt z hx y hy hgt)
      · exact hle z hz
    · have hsub : x :: rest ⊆ x :: y :: rest := List.cons_subset_cons x (List.subset_cons_self y rest)
      have hle := ih (h.subset hsub)
      have hmem : (sortPass x rest).1 ∈ x :: y :: rest :=
        hsub ((sortPass_perm x rest).subset List.mem_cons_self)
      intro z hz
      rcases List.mem_cons.mp hz with rfl | hz
      · exact hle z List.mem_cons_self
      · rcases List.mem_cons.mp hz with rfl | hz
        · exact h.trans _ hmem x hx z hy (hle x List.mem_cons_self)
            (h.not_gt x hx z hy (Bool.eq_false_iff.mpr hgt))
        · exact hle z (List.mem_cons_of_mem _ hz)

/-- **The outer loop.** -/
theorem sortItems_pairwise {n : ℕ} (h : SortsBy le items) (hn : items.length ≤ n) :
    (sortItems n items).Pairwise le := by
  induction n generalizing items with
  | zero =>
    obtain rfl := List.length_eq_zero_iff.mp (Nat.le_zero.mp hn)
    exact .nil
  | succ n ih =>
    cases items with
    | nil => exact .nil
    | cons x rest =>
      have hperm := sortPass_perm x rest
      have hsub : (sortPass x rest).2 ⊆ x :: rest := fun z hz =>
        hperm.subset (List.mem_cons_of_mem _ hz)
      have hlength : (sortPass x rest).2.length ≤ n := by
        have heq := hperm.length_eq
        rw [List.length_cons, List.length_cons] at heq
        rw [List.length_cons] at hn
        omega
      rw [sortItems]
      refine .cons (fun z hz => ?_) (ih (h.subset hsub) hlength)
      exact sortPass_le h z (hsub ((sortItems_perm n _).subset hz))

end SortsBy

/-! ### Strings and numbers -/

/-- Strings by their bytes, as `strcmp` has it. -/
theorem sortsBy_strings {items : List Value} (h : ∀ v ∈ items, isString v = true) :
    SortsBy (fun x y => safeStr x ≤ safeStr y) items := by
  have hgt : ∀ x ∈ items, ∀ y ∈ items, sortGt x y = decide (safeStr y < safeStr x) := by
    intro x hx y hy
    have hstring := h x hx
    have hstring' := h y hy
    cases x <;> cases hstring
    cases y <;> cases hstring'
    rfl
  constructor
  · intro x hx y hy heq
    rw [hgt x hx y hy] at heq
    exact List.le_of_lt (of_decide_eq_true heq)
  · intro x hx y hy heq
    rw [hgt x hx y hy] at heq
    exact List.not_lt.mp (of_decide_eq_false heq)
  · exact fun x _ y _ z _ => List.le_trans

/-- A value that is a number, and no NaN. -/
structure IsOrdered (v : Value) : Prop where
  numericish : Heap.isNumericish v = true
  notNaN : (Heap.asNumber v).isNaN = false

theorem sortsBy_numbers {items : List Value} (h : ∀ v ∈ items, IsOrdered v) :
    SortsBy (fun x y => Heap.asNumber x ≤ Heap.asNumber y) items := by
  have hgt : ∀ x ∈ items, ∀ y ∈ items,
      sortGt x y = decide (Heap.asNumber y < Heap.asNumber x) := by
    intro x hx y hy
    have hnum := (h x hx).numericish
    cases x <;> cases hnum <;> rfl
  have hlt : ∀ x ∈ items, ∀ y ∈ items, Heap.asNumber y < Heap.asNumber x ↔
      floatRank (Heap.asNumber y) < floatRank (Heap.asNumber x) := fun x hx y hy =>
    float_lt_iff (h y hy).notNaN (h x hx).notNaN
  have hle : ∀ x ∈ items, ∀ y ∈ items, Heap.asNumber x ≤ Heap.asNumber y ↔
      floatRank (Heap.asNumber x) ≤ floatRank (Heap.asNumber y) := fun x hx y hy =>
    float_le_iff (h x hx).notNaN (h y hy).notNaN
  constructor
  · intro x hx y hy heq
    rw [hgt x hx y hy, decide_eq_true_eq, hlt x hx y hy] at heq
    exact (hle y hy x hx).mpr heq.le
  · intro x hx y hy heq
    rw [hgt x hx y hy, decide_eq_false_iff_not, hlt x hx y hy, not_lt] at heq
    exact (hle x hx y hy).mpr heq
  · intro x hx y hy z hz hxy hyz
    exact (hle x hx z hz).mpr (((hle x hx y hy).mp hxy).trans ((hle y hy z hz).mp hyz))

/-! ### The method -/

section Method

variable {ω : Type}

/-- What `.sort()` makes of the items of a list. -/
structure Sorted (items sorted : List Value) : Prop where
  perm : sorted.Perm items
  strings : (∀ v ∈ items, isString v = true) →
    sorted.Pairwise fun x y => safeStr x ≤ safeStr y
  numbers : (∀ v ∈ items, IsOrdered v) →
    sorted.Pairwise fun x y => Heap.asNumber x ≤ Heap.asNumber y

theorem sorted_sortItems (items : List Value) : Sorted items (sortItems items.length items) where
  perm := sortItems_perm _ items
  strings h := sortItems_pairwise (sortsBy_strings h) (Nat.le_refl _)
  numbers h := sortItems_pairwise (sortsBy_numbers h) (Nat.le_refl _)

/-- **`.sort()`.** -/
theorem sort_spec [Host ω] (R : Evaluator ω) (n : ℕ) (args : List Expr) (env : Env) (line : ℕ)
    {s : Machine ω} (hs : Reached s) {l : ℕ} (hl : l < s.heap.lists.length) :
    ∃ items sorted s', s.heap.Items l items ∧ Sorted items sorted ∧ s'.heap.Items l sorted ∧
      (callListMethod R n l (txt "sort") args env line s).ends = (some .void, s') := by
  obtain ⟨items, hitems⟩ := hs.linked.exists_items l
  refine ⟨items, sortItems items.length items,
    { s with heap := s.heap.newNodes l (sortItems items.length items) }, hitems,
    sorted_sortItems items, Heap.items_newNodes hl _, ?_⟩
  have hread : (listItems l s).ends = (some items, s) := Prod.ext hitems rfl
  have hset : ((listItems l >>= fun items => setItems l (sortItems items.length items)) s).ends
      = (some (), { s with heap := s.heap.newNodes l (sortItems items.length items) }) :=
    (Exec.ends_bind hread).trans rfl
  have hcall : callListMethod R n l (txt "sort") args env line =
      (listItems l >>= fun items => setItems l (sortItems items.length items)) >>=
        fun _ => pure .void := rfl
  rw [hcall, Exec.ends_bind hset]
  rfl

end Method

/-- The state behind `[2, 1];`. -/
def listOfTwo : Machine Unit :=
  (@session Unit silentHost 4 [.run [.expr 1 (.list 1 [.num 1 2, .num 1 1])]] (interpInit ())).state

theorem reached_listOfTwo : @Reached Unit silentHost listOfTwo :=
  ⟨4, [.run [.expr 1 (.list 1 [.num 1 2, .num 1 1])]], (), .inl rfl⟩

theorem listOfTwo_length : 0 < listOfTwo.heap.lists.length := by decide +kernel

theorem sort_spec_listOfTwo : ∃ items sorted s', listOfTwo.heap.Items 0 items ∧
    Sorted items sorted ∧ s'.heap.Items 0 sorted ∧
    (@callListMethod Unit (@evaluator Unit silentHost 1) 1 0 (txt "sort") [] [0] 1
      listOfTwo).ends = (some .void, s') :=
  @sort_spec Unit silentHost _ 1 [] [0] 1 listOfTwo reached_listOfTwo 0 listOfTwo_length

end Jaguar
