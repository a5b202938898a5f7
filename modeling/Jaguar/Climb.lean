/-
Climbing a partial successor function.

`climb next k a` is the `k`-th element from `a` along `next`, if `next` goes that far. A
walk that follows `next` until it gives nothing ends exactly when it does not run into a
ring.

* `ends_of_ringless` — without rings every climb ends, where only finitely many elements
  have a successor;
* `Ring.not_ends` — on a ring no climb ends;
* `Lineage`, `Lineage.nodup` — all that is climbed, each element once;
* `walk`, `Lineage.walk_eq` — a search along `next` finds the first on the way;
* `NamedLinks.ringless_iff` — links set by name: what is newly linked forms a ring exactly
  when the names do;
* `linkBy`, `namedLinks_linkBy` — such links, set by one clause `i extends j` after the other.
-/
import Mathlib.Data.Option.Basic
import Mathlib.Data.Set.Finite.Basic
import Mathlib.Data.Finset.Card
import Mathlib.Logic.Function.Basic
import Mathlib.Order.Interval.Set.Infinite
import Mathlib.Tactic.Basic

namespace Jaguar

variable {α β ι : Type*} {next : α → Option α} {a b : α}

/-- The `k`-th element from `a`. -/
def climb (next : α → Option α) : ℕ → α → Option α
  | 0, a => some a
  | k + 1, a => (next a).bind (climb next k)

/-- From `a` the climb ends. -/
def Ends (next : α → Option α) (a : α) : Prop := ∃ k, climb next k a = none

/-- `a` is reached again from itself. -/
def Ring (next : α → Option α) (a : α) : Prop := ∃ k, 0 < k ∧ climb next k a = some a

/-- No element is reached again. -/
def Ringless (next : α → Option α) : Prop := ∀ a, ¬ Ring next a

@[simp] theorem climb_zero (a : α) : climb next 0 a = some a := rfl

theorem climb_succ (k : ℕ) (a : α) : climb next (k + 1) a = (next a).bind (climb next k) := rfl

theorem climb_add (j k : ℕ) (a : α) :
    climb next (j + k) a = (climb next j a).bind (climb next k) := by
  induction j generalizing a with
  | zero => rw [Nat.zero_add, climb_zero, Option.bind_some]
  | succ j ih =>
    rw [Nat.succ_add, climb_succ, climb_succ]
    cases next a with
    | none => rfl
    | some b => exact ih b

/-- Where the climb has ended it stays ended. -/
theorem climb_eq_none_of_le {j k : ℕ} (hjk : j ≤ k) (h : climb next j a = none) :
    climb next k a = none := by
  obtain ⟨i, rfl⟩ := Nat.exists_eq_add_of_le hjk
  rw [climb_add, h, Option.bind_none]

theorem Ends.of_next (hb : Ends next b) (h : next a = some b) : Ends next a := by
  obtain ⟨k, hk⟩ := hb
  exact ⟨k + 1, by rw [climb_succ, h, Option.bind_some, hk]⟩

theorem climb_mul_of_ring {k : ℕ} (h : climb next k a = some a) (m : ℕ) :
    climb next (m * k) a = some a := by
  induction m with
  | zero => rw [Nat.zero_mul, climb_zero]
  | succ m ih => rw [Nat.succ_mul, climb_add, ih, Option.bind_some, h]

/-- **On a ring no climb ends.** -/
theorem Ring.not_ends (h : Ring next a) : ¬ Ends next a := by
  rintro ⟨j, hj⟩
  obtain ⟨k, hk, hring⟩ := h
  have hle : j ≤ j * k := Nat.le_mul_of_pos_right j hk
  have hnone := climb_eq_none_of_le hle hj
  rw [climb_mul_of_ring hring] at hnone
  cases hnone

/-- A climb that goes on and on comes by some element twice. -/
theorem ends_of_ringless {S : Set α} (hS : S.Finite) (hdom : ∀ a b, next a = some b → a ∈ S)
    (h : Ringless next) (a : α) : Ends next a := by
  by_contra hends
  have hsome : ∀ k, ∃ b, climb next k a = some b := fun k =>
    Option.ne_none_iff_exists'.mp fun hk => hends ⟨k, hk⟩
  choose f hf using hsome
  have hmem : ∀ k, f k ∈ S := by
    intro k
    have hlast := hf (k + 1)
    rw [climb_add, hf k, Option.bind_some, climb_succ] at hlast
    cases hb : next (f k) with
    | none =>
      rw [hb] at hlast
      cases hlast
    | some b => exact hdom _ b hb
  obtain ⟨i, -, j, -, hne, hij⟩ :=
    Set.infinite_univ.exists_ne_map_eq_of_mapsTo (f := f) (fun k _ => hmem k) hS
  -- the later of the two visits closes the ring
  have hclose : ∀ i j, i < j → f i = f j → False := by
    intro i j hlt heq
    obtain ⟨d, rfl⟩ := Nat.exists_eq_add_of_lt hlt
    have hj := hf (i + d + 1)
    rw [Nat.add_assoc, climb_add, hf i, Option.bind_some] at hj
    exact h (f i) ⟨d + 1, Nat.succ_pos d, by rw [hj, heq, Nat.add_assoc]⟩
  rcases Nat.lt_or_gt_of_ne hne with hlt | hlt
  · exact hclose i j hlt hij
  · exact hclose j i hlt hij.symm

/-- Without rings a climb among finitely many elements takes fewer steps than there are. -/
theorem climb_card_eq_none {S : Finset α} (hdom : ∀ a b, next a = some b → b ∈ S)
    (h : Ringless next) {a : α} (ha : a ∈ S) : climb next S.card a = none := by
  by_contra hsome
  have hget : ∀ k ≤ S.card, ∃ b ∈ S, climb next k a = some b := by
    intro k hk
    obtain ⟨b, hb⟩ := Option.ne_none_iff_exists'.mp fun hnone =>
      hsome (climb_eq_none_of_le hk hnone)
    refine ⟨b, ?_, hb⟩
    cases k with
    | zero => exact Option.some.inj hb ▸ ha
    | succ k =>
      rw [climb_add] at hb
      obtain ⟨c, -, hc⟩ := Option.bind_eq_some_iff.mp hb
      rw [climb_succ] at hc
      obtain ⟨d, hd, hlast⟩ := Option.bind_eq_some_iff.mp hc
      exact Option.some.inj hlast ▸ hdom c d hd
  have : Nonempty α := ⟨a⟩
  choose! f hf using hget
  obtain ⟨i, hi, j, hj, hne, hij⟩ := Finset.exists_ne_map_eq_of_card_lt_of_maps_to
    (s := Finset.range (S.card + 1)) (t := S) (f := f) (by rw [Finset.card_range]; omega)
    (fun k hk => (hf k (by have := Finset.mem_range.mp hk; omega)).1)
  -- the later of the two visits closes the ring
  have hclose : ∀ i j, i < j → j ≤ S.card → f i = f j → False := by
    intro i j hlt hle heq
    obtain ⟨d, rfl⟩ := Nat.exists_eq_add_of_lt hlt
    have hj := (hf (i + d + 1) hle).2
    rw [Nat.add_assoc, climb_add, (hf i (by omega)).2, Option.bind_some] at hj
    exact h (f i) ⟨d + 1, Nat.succ_pos d, by rw [hj, heq, Nat.add_assoc]⟩
  have hi := Finset.mem_range.mp hi
  have hj := Finset.mem_range.mp hj
  rcases Nat.lt_or_gt_of_ne hne with hlt | hlt
  · exact hclose i j hlt (by omega) hij
  · exact hclose j i hlt (by omega) hij.symm

/-- Where every step goes down there are no rings. -/
theorem ringless_of_rank (rank : α → ℕ) (h : ∀ a b, next a = some b → rank b < rank a) :
    Ringless next := by
  have hle : ∀ k a b, climb next k a = some b → rank b + k ≤ rank a := by
    intro k
    induction k with
    | zero =>
      intro a b hb
      rw [Option.some.inj hb, Nat.add_zero]
    | succ k ih =>
      intro a b hb
      obtain ⟨c, hc, hrest⟩ := Option.bind_eq_some_iff.mp hb
      have h₁ := h a c hc
      have h₂ := ih c b hrest
      omega
  rintro a ⟨k, hk, ha⟩
  have := hle k a a ha
  omega

/-- Every climb ends exactly when there are no rings. -/
theorem ends_iff_ringless {S : Set α} (hS : S.Finite)
    (hdom : ∀ a b, next a = some b → a ∈ S) : (∀ a, Ends next a) ↔ Ringless next :=
  ⟨fun h a hring => hring.not_ends (h a), fun h a => ends_of_ringless hS hdom h a⟩

/-- A ring among elements that `next'` links as `next` does. -/
theorem Ring.of_agree {next' : α → Option α} {old : α → Prop} (agree : ∀ a, old a → next' a = next a)
    (closed : ∀ a b, old a → next a = some b → old b) (ha : old a) (h : Ring next' a) :
    Ring next a := by
  have hclimb : ∀ k a, old a → climb next' k a = climb next k a := by
    intro k
    induction k with
    | zero => exact fun _ _ => rfl
    | succ k ih =>
      intro a ha
      rw [climb_succ, climb_succ, agree a ha]
      cases hb : next a with
      | none => rfl
      | some b => exact ih b (closed a b ha hb)
  obtain ⟨k, hk, hring⟩ := h
  exact ⟨k, hk, hclimb k a ha ▸ hring⟩

/-! ### The whole way -/

/-- All that is climbed from `a` on, to an element that has no next one. -/
inductive Lineage (next : α → Option α) : α → List α → Prop
  | last {a : α} : next a = none → Lineage next a [a]
  | cons {a b : α} {as : List α} : next a = some b → Lineage next b as → Lineage next a (a :: as)

namespace Lineage

variable {as as' before after : List α} {next' : α → Option α}

theorem unique (h : Lineage next a as) (h' : Lineage next a as') : as = as' := by
  induction h generalizing as' with
  | last hnone =>
    cases h' with
    | last _ => rfl
    | cons hnext _ =>
      rw [hnone] at hnext
      cases hnext
  | cons hnext _ ih =>
    cases h' with
    | last hnone =>
      rw [hnext] at hnone
      cases hnone
    | cons hnext' h' =>
      obtain rfl := Option.some.inj (hnext.symm.trans hnext')
      rw [ih h']

theorem length_pos (h : Lineage next a as) : 0 < as.length := by
  cases h <;> exact Nat.succ_pos _

/-- From an element on, the way is the rest of the way. -/
theorem after_mem (h : Lineage next a (before ++ b :: after)) : Lineage next b (b :: after) := by
  induction before generalizing a with
  | nil =>
    cases h with
    | last hnone => exact .last hnone
    | cons hnext h => exact .cons hnext h
  | cons c before ih =>
    rw [List.cons_append] at h
    generalize hrest : before ++ b :: after = rest at h
    cases h with
    | last _ => exact absurd hrest (by simp)
    | cons _ h =>
      subst hrest
      exact ih h

/-- What is behind an element is the way from the next one. -/
theorem next_after (h : Lineage next a (before ++ b :: after)) {c : α} (hc : next b = some c) :
    Lineage next c after := by
  cases h.after_mem with
  | last hnone =>
    rw [hc] at hnone
    cases hnone
  | cons hnext h =>
    obtain rfl := Option.some.inj (hc.symm.trans hnext)
    exact h

/-- No element is on the way twice. -/
theorem nodup (h : Lineage next a as) : as.Nodup := by
  induction h with
  | last _ => exact List.nodup_singleton _
  | @cons a b as hnext h ih =>
    refine List.nodup_cons.mpr ⟨fun ha => ?_, ih⟩
    -- the way from `a` would be a part of the rest of itself
    obtain ⟨before, after, rfl⟩ := List.append_of_mem ha
    have hrest : Lineage next a (a :: after) := h.after_mem
    have hlength := congrArg List.length (hrest.unique (.cons hnext h))
    simp only [List.length_cons, List.length_append] at hlength
    omega

theorem congr (h : Lineage next a as) (hnext : ∀ b ∈ as, next' b = next b) :
    Lineage next' a as := by
  induction h with
  | last hnone => exact .last ((hnext _ List.mem_cons_self).trans hnone)
  | cons hb _ ih =>
    exact .cons ((hnext _ List.mem_cons_self).trans hb)
      (ih fun c hc => hnext c (List.mem_cons_of_mem _ hc))

end Lineage

theorem Ends.exists_lineage (h : Ends next a) : ∃ as, Lineage next a as := by
  obtain ⟨k, hk⟩ := h
  induction k generalizing a with
  | zero => cases hk
  | succ k ih =>
    rw [climb_succ] at hk
    cases hb : next a with
    | none => exact ⟨[a], .last hb⟩
    | some b =>
      rw [hb] at hk
      obtain ⟨as, has⟩ := ih hk
      exact ⟨a :: as, .cons hb has⟩

/-! ### Searching on the way -/

/-- The first thing found along `next`, looking at `n` elements at most. -/
def walk (next : α → Option α) (found : α → Option β) : ℕ → Option α → Option (Option β)
  | _, none => some none
  | 0, some _ => none
  | n + 1, some a =>
    match found a with
    | some b => some (some b)
    | none => walk next found n (next a)

@[simp] theorem walk_none (found : α → Option β) (n : ℕ) : walk next found n none = some none := by
  cases n <;> rfl

theorem walk_ne_none {found : α → Option β} {n : ℕ} (h : climb next n a = none) :
    walk next found n (some a) ≠ none := by
  induction n generalizing a with
  | zero => cases h
  | succ n ih =>
    rw [walk]
    cases found a with
    | some b => exact Option.some_ne_none _
    | none =>
      rw [climb_succ] at h
      cases hb : next a with
      | none =>
        rw [walk]
        exact Option.some_ne_none _
      | some b =>
        rw [hb] at h
        exact ih h

/-- What is found may be looked at afterwards. -/
theorem walk_map {γ : Type*} {found : α → Option β} {found' : α → Option γ} {g : β → γ}
    (h : ∀ a, found' a = (found a).map g) (n : ℕ) (c : Option α) :
    walk next found' n c = (walk next found n c).map (Option.map g) := by
  induction n generalizing c with
  | zero => cases c <;> rfl
  | succ n ih =>
    cases c with
    | none => rfl
    | some a =>
      rw [walk, walk, h a]
      cases found a with
      | some b => rfl
      | none => exact ih (next a)

/-- The search finds the first on the whole way. -/
theorem Lineage.walk_eq {found : α → Option β} {as : List α} (h : Lineage next a as) {n : ℕ}
    (hn : as.length ≤ n) : walk next found n (some a) = some (as.findSome? found) := by
  induction n generalizing a as with
  | zero => exact absurd hn (Nat.not_le_of_lt h.length_pos)
  | succ n ih =>
    rw [walk]
    cases h with
    | last hnone =>
      rw [List.findSome?_cons, List.findSome?_nil, hnone, walk_none]
      cases found a <;> rfl
    | cons hnext h =>
      rw [List.findSome?_cons, hnext, ih h (Nat.le_of_succ_le_succ hn)]
      cases found a <;> rfl

/-- What a search has found is the first on the whole way. -/
theorem Lineage.findSome?_of_walk {found : α → Option β} {as : List α} (h : Lineage next a as)
    {n : ℕ} {x : β} (hwalk : walk next found n (some a) = some (some x)) :
    as.findSome? found = some x := by
  induction n generalizing a as with
  | zero => cases hwalk
  | succ n ih =>
    rw [walk] at hwalk
    cases hfound : found a with
    | some y =>
      rw [hfound] at hwalk
      cases h <;> rw [List.findSome?_cons, hfound] <;> exact Option.some.inj hwalk
    | none =>
      rw [hfound] at hwalk
      cases h with
      | last hnone =>
        rw [hnone, walk_none] at hwalk
        cases hwalk
      | cons hnext h =>
        rw [hnext] at hwalk
        rw [List.findSome?_cons, hfound]
        exact ih h hwalk

/-- A search for what is nowhere ends only where the climb does. -/
theorem ends_of_walk {found : α → Option β} (hno : ∀ a, found a = none) {n : ℕ}
    (h : walk next found n (some a) ≠ none) : Ends next a := by
  induction n generalizing a with
  | zero => exact absurd rfl h
  | succ n ih =>
    rw [walk, hno a] at h
    cases hb : next a with
    | none => exact ⟨1, by rw [climb_succ, hb]; rfl⟩
    | some b =>
      rw [hb] at h
      exact (ih h).of_next hb

/-- What is `old` links among itself as before; the node of a name gets linked to the node
of the name it extends, or to something old. -/
structure NamedLinks (next : α → Option α) (old : α → Prop) (node : ι → Option α)
    (ext : ι → Option ι) : Prop where
  closed : ∀ a b, old a → next a = some b → old b
  fresh : ∀ i a, node i = some a → ¬ old a
  inj : ∀ i j a, node i = some a → node j = some a → i = j
  declared : ∀ i j, ext i = some j → node i ≠ none
  linked : ∀ i j a, node i = some a → ext i = some j → ∃ b, node j = some b ∧ next a = some b
  only : ∀ a b, ¬ old a → next a = some b →
    old b ∨ ∃ i j, node i = some a ∧ ext i = some j ∧ node j = some b

namespace NamedLinks

variable {old : α → Prop} {node : ι → Option α} {ext : ι → Option ι}

theorem climb_old (h : NamedLinks next old node ext) {k : ℕ} (ha : old a)
    (hk : climb next k a = some b) : old b := by
  induction k generalizing a with
  | zero => exact Option.some.inj hk ▸ ha
  | succ k ih =>
    obtain ⟨c, hc, hrest⟩ := Option.bind_eq_some_iff.mp hk
    exact ih (h.closed a c ha hc) hrest

/-- A climb over names is one over their nodes. -/
theorem climb_node (h : NamedLinks next old node ext) {i j : ι} {k : ℕ} (hi : node i = some a)
    (hk : climb ext k i = some j) : ∃ b, node j = some b ∧ climb next k a = some b := by
  induction k generalizing i a with
  | zero =>
    obtain rfl := Option.some.inj hk
    exact ⟨a, hi, rfl⟩
  | succ k ih =>
    obtain ⟨m, hm, hrest⟩ := Option.bind_eq_some_iff.mp hk
    obtain ⟨c, hc, hac⟩ := h.linked i m a hi hm
    obtain ⟨b, hb, hclimb⟩ := ih hc hrest
    exact ⟨b, hb, by rw [climb_succ, hac, Option.bind_some, hclimb]⟩

/-- A climb from the node of a name that does not get old is one over names. -/
theorem climb_name (h : NamedLinks next old node ext) {i : ι} {k : ℕ} (hi : node i = some a)
    (hk : climb next k a = some b) (hb : ¬ old b) :
    ∃ j, node j = some b ∧ climb ext k i = some j := by
  induction k generalizing i a with
  | zero =>
    obtain rfl := Option.some.inj hk
    exact ⟨i, hi, rfl⟩
  | succ k ih =>
    obtain ⟨c, hc, hrest⟩ := Option.bind_eq_some_iff.mp hk
    rcases h.only a c (h.fresh i a hi) hc with hold | ⟨i', m, hi', hext, hm⟩
    · exact absurd (h.climb_old hold hrest) hb
    · obtain rfl := h.inj i i' a hi hi'
      obtain ⟨j, hj, hclimb⟩ := ih hm hrest
      exact ⟨j, hj, by rw [climb_succ, hext, Option.bind_some, hclimb]⟩

/-- **The new links form a ring exactly when the names do.** -/
theorem ringless_iff (h : NamedLinks next old node ext) :
    Ringless next ↔ (∀ a, old a → ¬ Ring next a) ∧ Ringless ext := by
  constructor
  · intro hring
    refine ⟨fun a _ => hring a, fun i => ?_⟩
    rintro ⟨k, hk, hi⟩
    obtain ⟨k, rfl⟩ := Nat.exists_eq_succ_of_ne_zero (Nat.ne_of_gt hk)
    obtain ⟨m, hm, -⟩ := Option.bind_eq_some_iff.mp hi
    obtain ⟨a, ha⟩ := Option.ne_none_iff_exists'.mp (h.declared i m hm)
    obtain ⟨b, hb, hclimb⟩ := h.climb_node ha hi
    obtain rfl := Option.some.inj (ha.symm.trans hb)
    exact hring a ⟨k + 1, hk, hclimb⟩
  · rintro ⟨hold, hnames⟩ a ⟨k, hk, ha⟩
    by_cases hnew : old a
    · exact hold a hnew ⟨k, hk, ha⟩
    · obtain ⟨k, rfl⟩ := Nat.exists_eq_succ_of_ne_zero (Nat.ne_of_gt hk)
      obtain ⟨c, hc, hrest⟩ := Option.bind_eq_some_iff.mp ha
      rcases h.only a c hnew hc with hc' | ⟨i, m, hi, -, -⟩
      · exact hnew (h.climb_old hc' hrest)
      · obtain ⟨j, hj, hclimb⟩ := h.climb_name hi ha hnew
        obtain rfl := h.inj i j a hi hj
        exact hnames i ⟨k + 1, hk, hclimb⟩

end NamedLinks

/-! ### Linking clause by clause -/

section Clauses

variable [DecidableEq α] [DecidableEq ι] {node resolve : ι → Option α} {links : α → Option α}
  {old : α → Prop}

/-- What the last clause of `i` says. -/
def lastClause (cs : List (ι × ι)) (i : ι) : Option ι :=
  match cs with
  | [] => none
  | c :: cs =>
    match lastClause cs i with
    | some j => some j
    | none => if c.1 = i then some c.2 else none

/-- One clause after the other sets the link of its first name's node to what its second
name stands for. -/
def linkBy (node resolve : ι → Option α) (links : α → Option α) (cs : List (ι × ι)) :
    α → Option α :=
  cs.foldl (fun links c => match node c.1 with
    | some a => Function.update links a (resolve c.2)
    | none => links) links

omit [DecidableEq ι] in
theorem linkBy_cons (c : ι × ι) (cs : List (ι × ι)) :
    linkBy node resolve links (c :: cs) = linkBy node resolve (match node c.1 with
      | some a => Function.update links a (resolve c.2)
      | none => links) cs := rfl

/-- The name that `i` extends, among the names that have a node. -/
def extendsIn (node : ι → Option α) (cs : List (ι × ι)) (i : ι) : Option ι :=
  if (node i).isSome then (lastClause cs i).filter fun j => (node j).isSome else none

theorem linkBy_of_node (inj : ∀ i j a, node i = some a → node j = some a → i = j) {i : ι} {a : α}
    (hi : node i = some a) (cs : List (ι × ι)) :
    linkBy node resolve links cs a =
      match lastClause cs i with
      | some j => resolve j
      | none => links a := by
  induction cs generalizing links with
  | nil => rfl
  | cons c cs ih =>
    rw [linkBy_cons, ih, lastClause]
    cases lastClause cs i with
    | some j => rfl
    | none =>
      by_cases hc : c.1 = i
      · rw [hc, if_pos rfl, hi]
        exact Function.update_self _ _ _
      · rw [if_neg hc]
        cases hnode : node c.1 with
        | none => rfl
        | some b =>
          have hne : a ≠ b := fun heq => hc (inj c.1 i b hnode (heq ▸ hi))
          exact Function.update_of_ne hne _ _

omit [DecidableEq ι] in
theorem linkBy_of_forall_ne {a : α} (ha : ∀ i, node i ≠ some a) (cs : List (ι × ι)) :
    linkBy node resolve links cs a = links a := by
  induction cs generalizing links with
  | nil => rfl
  | cons c cs ih =>
    rw [linkBy_cons, ih]
    cases hnode : node c.1 with
    | none => rfl
    | some b =>
      have hne : a ≠ b := fun heq => ha c.1 (heq ▸ hnode)
      exact Function.update_of_ne hne _ _

theorem lastClause_eq_none {cs : List (ι × ι)} {i : ι} (h : i ∉ cs.map Prod.fst) :
    lastClause cs i = none := by
  induction cs with
  | nil => rfl
  | cons c cs ih =>
    rw [List.map_cons, List.mem_cons, not_or] at h
    rw [lastClause, ih h.2, if_neg (Ne.symm h.1)]

theorem lastClause_cons_of_ne {c : ι × ι} (cs : List (ι × ι)) {i : ι} (h : c.1 ≠ i) :
    lastClause (c :: cs) i = lastClause cs i := by
  rw [lastClause, if_neg h]
  cases lastClause cs i <;> rfl

/-- Where every name has one clause at most, dropping clauses uncovers no others. -/
theorem lastClause_filter {cs : List (ι × ι)} (hnodup : (cs.map Prod.fst).Nodup) (p : ι → Bool)
    (i : ι) : lastClause (cs.filter fun c => p c.2) i = (lastClause cs i).filter p := by
  induction cs with
  | nil => rfl
  | cons c cs ih =>
    rw [List.map_cons, List.nodup_cons] at hnodup
    have ih := ih hnodup.2
    by_cases hi : c.1 = i
    · subst hi
      have hnone := lastClause_eq_none hnodup.1
      rw [hnone, Option.filter_none] at ih
      have hsome : lastClause (c :: cs) c.1 = some c.2 := by
        rw [lastClause, hnone, if_pos rfl]
      rw [hsome, Option.filter_some, List.filter_cons]
      split_ifs
      · rw [lastClause, ih, if_pos rfl]
      · exact ih
    · rw [lastClause_cons_of_ne cs hi, ← ih, List.filter_cons]
      split_ifs
      · exact lastClause_cons_of_ne _ hi
      · rfl

/-- A clause that names nothing sets the link that is there without it. -/
theorem linkBy_filter (inj : ∀ i j a, node i = some a → node j = some a → i = j)
    {cs : List (ι × ι)} (hnodup : (cs.map Prod.fst).Nodup) :
    linkBy node resolve (fun _ => none) (cs.filter fun c => (resolve c.2).isSome)
      = linkBy node resolve (fun _ => none) cs := by
  funext a
  by_cases hnode : ∃ i, node i = some a
  · obtain ⟨i, hi⟩ := hnode
    rw [linkBy_of_node inj hi, linkBy_of_node inj hi,
      lastClause_filter hnodup fun j => (resolve j).isSome]
    cases lastClause cs i with
    | none => rfl
    | some j =>
      rw [Option.filter_some]
      cases hj : resolve j with
      | none => exact hj.symm
      | some b => rfl
  · have hne : ∀ i, node i ≠ some a := fun i hi => hnode ⟨i, hi⟩
    rw [linkBy_of_forall_ne hne, linkBy_of_forall_ne hne]

/-- Where a name stands for its own node first, and else for something old, the links set
clause by clause are links by name. -/
theorem namedLinks_linkBy (closed : ∀ a b, old a → links a = some b → old b)
    (fresh : ∀ i a, node i = some a → ¬ old a)
    (inj : ∀ i j a, node i = some a → node j = some a → i = j)
    (unlinked : ∀ a, ¬ old a → links a = none)
    (resolve_node : ∀ j a, node j = some a → resolve j = some a)
    (resolve_old : ∀ j a, node j = none → resolve j = some a → old a) (cs : List (ι × ι)) :
    NamedLinks (linkBy node resolve links cs) old node (extendsIn node cs) where
  closed a b ha hb := by
    rw [linkBy_of_forall_ne fun i hi => fresh i a hi ha] at hb
    exact closed a b ha hb
  fresh := fresh
  inj := inj
  declared i j hij hnode := by
    rw [extendsIn, hnode] at hij
    cases hij
  linked i j a hi hij := by
    rw [extendsIn, hi] at hij
    obtain ⟨hlast, hj⟩ := Option.filter_eq_some_iff.mp hij
    obtain ⟨b, hb⟩ := Option.isSome_iff_exists.mp hj
    refine ⟨b, hb, ?_⟩
    rw [linkBy_of_node inj hi, hlast]
    exact resolve_node j b hb
  only a b ha hb := by
    by_cases hnew : ∃ i, node i = some a
    · obtain ⟨i, hi⟩ := hnew
      rw [linkBy_of_node inj hi] at hb
      cases hlast : lastClause cs i with
      | none =>
        rw [hlast, unlinked a ha] at hb
        cases hb
      | some j =>
        rw [hlast] at hb
        cases hj : node j with
        | none => exact .inl (resolve_old j b hj hb)
        | some c =>
          obtain rfl := Option.some.inj ((resolve_node j c hj).symm.trans hb)
          refine .inr ⟨i, j, hi, ?_, hj⟩
          have hsome : (node j).isSome := Option.isSome_of_eq_some hj
          rw [extendsIn, hi, if_pos Option.isSome_some, hlast, Option.filter_some, if_pos hsome]
    · rw [linkBy_of_forall_ne fun i hi => hnew ⟨i, hi⟩, unlinked a ha] at hb
      cases hb

end Clauses

end Jaguar
