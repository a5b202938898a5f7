/-
Chains of cells.

A memory has cells, each of which refers to one other cell at most, and roots that refer to
cells too: `ref x` is what `x` refers to. Some cells are live. Where every cell that is
referred to is live, and is referred to once, a walk from a root meets no cell twice, two
walks from different roots meet no cell in common, and in a finite memory every walk ends.

* `Path`, `IsChain` — a walk, and one to the end;
* `Unshared` — each live cell is referred to at most once;
* `Unshared.path_eq` — **two walks from roots to one place are the same walk**;
* `Unshared.exists_chain` — **the walk from a root ends**;
* `Unshared.insert`, `Unshared.unlink`, `Unshared.replace` — a cell more, a cell less, and
  new cells for old ones.
-/
import Mathlib.Data.Nat.Notation
import Mathlib.Data.List.Nodup
import Mathlib.Data.Fintype.Card

namespace Chains

variable {ρ α : Type*}

/-! ### Walks -/

/-- The walk from `x` meets the cells `ps` and stands at `y`. -/
def Path (ref : ρ ⊕ α → Option α) (x : ρ ⊕ α) (ps : List α) (y : ρ ⊕ α) : Prop :=
  match ps with
  | [] => x = y
  | p :: ps => ref x = some p ∧ Path ref (.inr p) ps y

/-- The walk from `x` meets the cells `ps`, and ends. -/
def IsChain (ref : ρ ⊕ α → Option α) (x : ρ ⊕ α) (ps : List α) : Prop :=
  ∃ y, Path ref x ps y ∧ ref y = none

variable {ref : ρ ⊕ α → Option α} {x y z : ρ ⊕ α} {ps qs : List α}

theorem Path.append (h : Path ref x ps y) (h' : Path ref y qs z) : Path ref x (ps ++ qs) z := by
  induction ps generalizing x with
  | nil =>
    obtain rfl : x = y := h
    exact h'
  | cons p ps ih => exact ⟨h.1, ih h.2⟩

theorem Path.split (h : Path ref x (ps ++ qs) z) :
    ∃ y, Path ref x ps y ∧ Path ref y qs z := by
  induction ps generalizing x with
  | nil => exact ⟨x, rfl, h⟩
  | cons p ps ih =>
    obtain ⟨y, hfirst, hrest⟩ := ih h.2
    exact ⟨y, ⟨h.1, hfirst⟩, hrest⟩

/-- One cell more. -/
theorem Path.snoc {p : α} (h : Path ref x ps y) (hy : ref y = some p) :
    Path ref x (ps ++ [p]) (.inr p) :=
  h.append ⟨hy, rfl⟩

/-- Where a walk stands: at its last cell, or where it started. -/
theorem Path.last_eq (h : Path ref x ps y) : y = (ps.getLast?.map .inr).getD x := by
  induction ps generalizing x with
  | nil => exact (show x = y from h).symm
  | cons p ps ih =>
    rw [ih h.2, List.getLast?_cons]
    cases ps.getLast? <;> rfl

/-- A walk depends only on what the places refer to that it goes on from. -/
theorem Path.congr {ref' : ρ ⊕ α → Option α} (h : Path ref x ps y)
    (hsame : ∀ as p bs z, ps = as ++ p :: bs → Path ref x as z → ref' z = ref z) :
    Path ref' x ps y := by
  induction ps generalizing x with
  | nil => exact h
  | cons p ps ih =>
    refine ⟨(hsame [] p ps x rfl rfl).trans h.1, ih h.2 fun as q bs z heq hz => ?_⟩
    exact hsame (p :: as) q bs z (congrArg (p :: ·) heq) ⟨h.1, hz⟩

/-- There is one walk to the end. -/
theorem IsChain.unique (h : IsChain ref x ps) (h' : IsChain ref x qs) : ps = qs := by
  obtain ⟨y, hpath, hend⟩ := h
  obtain ⟨y', hpath', hend'⟩ := h'
  induction ps generalizing x qs with
  | nil =>
    obtain rfl : x = y := hpath
    cases qs with
    | nil => rfl
    | cons q qs => exact absurd (hend.symm.trans hpath'.1) (Option.some_ne_none q).symm
  | cons p ps ih =>
    cases qs with
    | nil =>
      obtain rfl : x = y' := hpath'
      exact absurd (hend'.symm.trans hpath.1) (Option.some_ne_none p).symm
    | cons q qs =>
      obtain rfl := Option.some.inj (hpath.1.symm.trans hpath'.1)
      exact congrArg (p :: ·) (ih hpath.2 hpath'.2)

/-! ### Memories where nothing is shared -/

/-- What is referred to is live, and is referred to once; what is not live refers to nothing. -/
structure Unshared (live : α → Prop) (ref : ρ ⊕ α → Option α) : Prop where
  isLive : ∀ {x p}, ref x = some p → live p
  inj : ∀ {x y p}, ref x = some p → ref y = some p → x = y
  dead : ∀ {p}, ¬ live p → ref (.inr p) = none

namespace Unshared

variable {live live' : α → Prop} {ref' : ρ ⊕ α → Option α} {r s : ρ} {p q c : α}

/-- **Two walks from roots to one place are the same walk.** -/
theorem path_eq (h : Unshared live ref) (hr : Path ref (.inl r) ps z)
    (hs : Path ref (.inl s) qs z) : r = s ∧ ps = qs := by
  induction ps using List.reverseRecOn generalizing qs z with
  | nil =>
    obtain rfl : .inl r = z := hr
    rcases List.eq_nil_or_concat' qs with rfl | ⟨qs, q, rfl⟩
    · exact ⟨(Sum.inl.inj hs).symm, rfl⟩
    · obtain ⟨y, -, -, hy⟩ := hs.split
      cases hy
  | append_singleton ps p ih =>
    obtain ⟨y, hfirst, hp, rfl⟩ := hr.split
    rcases List.eq_nil_or_concat' qs with rfl | ⟨qs, q, rfl⟩
    · cases hs
    · obtain ⟨y', hfirst', hq, heq⟩ := hs.split
      obtain rfl := Sum.inr.inj heq
      -- both walks come to the last cell from the one place that refers to it
      obtain rfl := h.inj hp hq
      obtain ⟨hroot, rfl⟩ := ih hfirst hfirst'
      exact ⟨hroot, rfl⟩

/-- A walk to a cell that is met on the way. -/
theorem path_of_mem (hr : Path ref x ps y) (hp : p ∈ ps) :
    ∃ as bs, ps = as ++ p :: bs ∧ Path ref x (as ++ [p]) (.inr p) := by
  obtain ⟨as, bs, rfl⟩ := List.append_of_mem hp
  obtain ⟨z, hfirst, hz, -⟩ := hr.split
  exact ⟨as, bs, rfl, hfirst.snoc hz⟩

/-- A walk from a root meets no cell twice. -/
theorem nodup (h : Unshared live ref) (hr : Path ref (.inl r) ps y) : ps.Nodup := by
  induction ps using List.reverseRecOn generalizing y with
  | nil => exact List.nodup_nil
  | append_singleton ps p ih =>
    obtain ⟨z, hfirst, hp, -⟩ := hr.split
    refine List.nodup_append'.mpr ⟨ih hfirst, List.nodup_singleton p, ?_⟩
    refine List.disjoint_singleton.mpr fun hmem => ?_
    obtain ⟨as, bs, rfl, hto⟩ := path_of_mem hfirst hmem
    have heq := congrArg List.length (h.path_eq hto (hfirst.snoc hp)).2
    simp only [List.length_append, List.length_cons, List.length_nil] at heq
    omega

theorem live_of_mem (h : Unshared live ref) (hr : Path ref x ps y) (hp : p ∈ ps) : live p := by
  obtain ⟨as, -, -, hto⟩ := path_of_mem hr hp
  obtain ⟨z, -, hz, -⟩ := hto.split
  exact h.isLive hz

theorem length_le {n : ℕ} {ref : ρ ⊕ ℕ → Option ℕ} {live : ℕ → Prop} {ps : List ℕ}
    {y : ρ ⊕ ℕ} (h : Unshared live ref) (hn : ∀ p, live p → p < n)
    (hr : Path ref (.inl r) ps y) : ps.length ≤ n := by
  have hsub : ps ⊆ List.range n := fun p hp => List.mem_range.mpr (hn p (h.live_of_mem hr hp))
  have hle := (h.nodup hr).subperm hsub |>.length_le
  rwa [List.length_range] at hle

/-- **In a memory of `n` cells every walk from a root ends.** -/
theorem exists_chain {n : ℕ} {ref : ρ ⊕ ℕ → Option ℕ} {live : ℕ → Prop}
    (h : Unshared live ref) (hn : ∀ p, live p → p < n) (r : ρ) :
    ∃ ps, IsChain ref (.inl r) ps := by
  by_contra hnone
  -- a walk that does not end has as many cells as one likes
  have hlong : ∀ k, ∃ ps y, ps.length = k ∧ Path ref (.inl r) ps y := by
    intro k
    induction k with
    | zero => exact ⟨[], .inl r, rfl, rfl⟩
    | succ k ih =>
      obtain ⟨ps, y, hlength, hpath⟩ := ih
      cases hy : ref y with
      | none => exact absurd ⟨ps, y, hpath, hy⟩ hnone
      | some p => exact ⟨ps ++ [p], .inr p, by simp [hlength], hpath.snoc hy⟩
  obtain ⟨ps, y, hlength, hpath⟩ := hlong (n + 1)
  have hle := h.length_le hn hpath
  omega

/-! ### Changes -/

/-- A root, or a live cell. -/
def Held (live : α → Prop) (z : ρ ⊕ α) : Prop := ∀ p, z = .inr p → live p

theorem held_of_path (h : Unshared live ref) (hr : Path ref (.inl r) ps z) : Held live z := by
  rintro p rfl
  rcases List.eq_nil_or_concat' ps with rfl | ⟨ps, q, rfl⟩
  · cases hr
  · obtain ⟨y, -, hq, heq⟩ := hr.split
    exact Sum.inr.inj heq ▸ h.isLive hq

theorem held_of_ref (h : Unshared live ref) (hy : ref y = some p) : Held live y := by
  rintro q rfl
  by_contra hdead
  exact absurd ((h.dead hdead).symm.trans hy) nofun

/-- More live cells, to which nothing refers. -/
theorem grow (h : Unshared live ref) (href : ∀ z, ref' z = ref z)
    (hlive : ∀ p, live p → live' p) : Unshared live' ref' where
  isLive hz := hlive _ (h.isLive (href _ ▸ hz))
  inj hz hw := h.inj (href _ ▸ hz) (href _ ▸ hw)
  dead hdead := (href _).trans (h.dead fun hp => hdead (hlive _ hp))

/-- A new cell, between a place and what the place refers to. -/
theorem insert (h : Unshared live ref) (hlive : ∀ p, live' p ↔ live p ∨ p = c) (hc : ¬ live c)
    (hheld : Held live y) (hy : ref' y = some c) (hnew : ref' (.inr c) = ref y)
    (hsame : ∀ z, z ≠ y → z ≠ .inr c → ref' z = ref z) : Unshared live' ref' := by
  have hyc : y ≠ .inr c := fun heq => hc (hheld c heq)
  -- what a place refers to now, by the place
  have hcases : ∀ z p, ref' z = some p → (z = y ∧ p = c) ∨ (z = .inr c ∧ ref y = some p) ∨
      (z ≠ y ∧ z ≠ .inr c ∧ ref z = some p) := by
    intro z p hz
    by_cases hzy : z = y
    · rw [hzy, hy] at hz
      exact .inl ⟨hzy, (Option.some.inj hz).symm⟩
    · by_cases hzc : z = .inr c
      · rw [hzc, hnew] at hz
        exact .inr (.inl ⟨hzc, hz⟩)
      · rw [hsame z hzy hzc] at hz
        exact .inr (.inr ⟨hzy, hzc, hz⟩)
  constructor
  · intro z p hz
    rcases hcases z p hz with ⟨-, rfl⟩ | ⟨-, hp⟩ | ⟨-, -, hp⟩
    · exact (hlive _).mpr (.inr rfl)
    · exact (hlive _).mpr (.inl (h.isLive hp))
    · exact (hlive _).mpr (.inl (h.isLive hp))
  · intro z w p hz hw
    rcases hcases z p hz with ⟨rfl, rfl⟩ | ⟨rfl, hp⟩ | ⟨hzy, hzc, hp⟩ <;>
      rcases hcases w _ hw with ⟨rfl, heq⟩ | ⟨rfl, hq⟩ | ⟨hwy, hwc, hq⟩
    · rfl
    · exact absurd (h.isLive hq) hc
    · exact absurd (h.isLive hq) hc
    · exact absurd (heq ▸ h.isLive hp) hc
    · rfl
    · exact absurd (h.inj hq hp) hwy
    · exact absurd (heq ▸ h.isLive hp) hc
    · exact absurd (h.inj hp hq) hzy
    · exact h.inj hp hq
  · intro p hdead
    obtain ⟨hp, hpc⟩ := not_or.mp fun hor => hdead ((hlive p).mpr hor)
    rw [hsame _ (fun heq => hp (hheld p heq.symm)) fun heq => hpc (Sum.inr.inj heq)]
    exact h.dead hp

/-- A cell less: the place that refers to it now refers to what it referred to. -/
theorem unlink (h : Unshared live ref) (hlive : ∀ q, live' q ↔ live q ∧ q ≠ p)
    (hold : ref y = some p) (hyp : y ≠ .inr p) (hy : ref' y = ref (.inr p))
    (hp : ref' (.inr p) = none) (hsame : ∀ z, z ≠ y → z ≠ .inr p → ref' z = ref z) :
    Unshared live' ref' := by
  have hcases : ∀ z q, ref' z = some q → (z = y ∧ ref (.inr p) = some q) ∨
      (z ≠ y ∧ z ≠ .inr p ∧ ref z = some q) := by
    intro z q hz
    by_cases hzy : z = y
    · rw [hzy, hy] at hz
      exact .inl ⟨hzy, hz⟩
    · by_cases hzp : z = .inr p
      · rw [hzp, hp] at hz
        cases hz
      · rw [hsame z hzy hzp] at hz
        exact .inr ⟨hzy, hzp, hz⟩
  constructor
  · intro z q hz
    rcases hcases z q hz with ⟨-, hq⟩ | ⟨hzy, -, hq⟩
    · exact (hlive q).mpr ⟨h.isLive hq, fun heq => hyp (h.inj hold (heq ▸ hq))⟩
    · exact (hlive q).mpr ⟨h.isLive hq, fun heq => hzy (h.inj (heq ▸ hq) hold)⟩
  · intro z w q hz hw
    rcases hcases z q hz with ⟨rfl, hq⟩ | ⟨hzy, hzp, hq⟩ <;>
      rcases hcases w q hw with ⟨rfl, hq'⟩ | ⟨hwy, hwp, hq'⟩
    · rfl
    · exact absurd (h.inj hq' hq) hwp
    · exact absurd (h.inj hq hq') hzp
    · exact h.inj hq hq'
  · intro q hdead
    by_cases hq : q = p
    · exact hq ▸ hp
    · have hdead' : ¬ live q := fun hl => hdead ((hlive q).mpr ⟨hl, hq⟩)
      rw [hsame _ ?_ fun heq => hq (Sum.inr.inj heq)]
      · exact h.dead hdead'
      · rintro rfl
        exact absurd ((h.dead hdead').symm.trans hold) nofun

/-- New cells for a root, each of which is referred to once. -/
theorem replace {fresh : α → Prop} (h : Unshared live ref)
    (hlive : ∀ p, live' p ↔ live p ∨ fresh p) (hfresh : ∀ p, fresh p → ¬ live p)
    (hnew : ∀ z p, (z = .inl r ∨ ∃ c, fresh c ∧ z = .inr c) → ref' z = some p → fresh p)
    (hinj : ∀ z w p, (z = .inl r ∨ ∃ c, fresh c ∧ z = .inr c) →
      (w = .inl r ∨ ∃ c, fresh c ∧ w = .inr c) → ref' z = some p → ref' w = some p → z = w)
    (hsame : ∀ z, z ≠ .inl r → (∀ c, z = .inr c → ¬ fresh c) → ref' z = ref z) :
    Unshared live' ref' := by
  have hcases : ∀ z, (z = .inl r ∨ ∃ c, fresh c ∧ z = .inr c) ∨ ref' z = ref z := by
    intro z
    by_cases hz : z = .inl r ∨ ∃ c, fresh c ∧ z = .inr c
    · exact .inl hz
    · obtain ⟨hroot, hcell⟩ := not_or.mp hz
      exact .inr (hsame z hroot fun c heq hc => hcell ⟨c, hc, heq⟩)
  constructor
  · intro z p hz
    rcases hcases z with hplace | heq
    · exact (hlive p).mpr (.inr (hnew z p hplace hz))
    · exact (hlive p).mpr (.inl (h.isLive (heq ▸ hz)))
  · intro z w p hz hw
    rcases hcases z with hplace | heq <;> rcases hcases w with hplace' | heq'
    · exact hinj z w p hplace hplace' hz hw
    · exact absurd (h.isLive (heq' ▸ hw)) (hfresh p (hnew z p hplace hz))
    · exact absurd (h.isLive (heq ▸ hz)) (hfresh p (hnew w p hplace' hw))
    · exact h.inj (heq ▸ hz) (heq' ▸ hw)
  · intro p hdead
    obtain ⟨hp, hnot⟩ := not_or.mp fun hor => hdead ((hlive p).mpr hor)
    rw [hsame (.inr p) nofun fun c heq hc => hnot (Sum.inr.inj heq ▸ hc)]
    exact h.dead hp

/-! ### What a change leaves alone -/

/-- A walk up to the place that changes. -/
theorem path_upTo (h : Unshared live ref) (hr : Path ref (.inl r) ps y)
    (hsame : ∀ z, z ≠ y → Held live z → ref' z = ref z) : Path ref' (.inl r) ps y := by
  refine hr.congr fun as p bs z heq hz => hsame z ?_ (h.held_of_path hz)
  rintro rfl
  have hlength := congrArg List.length (h.path_eq hz hr).2
  rw [heq, List.length_append, List.length_cons] at hlength
  omega

/-- The walk from another root. -/
theorem isChain_of_ne (h : Unshared live ref) (hr : Path ref (.inl r) ps y)
    (hs : IsChain ref (.inl s) qs) (hne : s ≠ r)
    (hsame : ∀ z, z ≠ y → Held live z → ref' z = ref z) : IsChain ref' (.inl s) qs := by
  obtain ⟨z, hpath, hend⟩ := hs
  have hother : ∀ {as w}, Path ref (.inl s) as w → ref' w = ref w := fun hw =>
    hsame _ (fun heq => hne (h.path_eq (heq ▸ hw) hr).1) (h.held_of_path hw)
  exact ⟨z, hpath.congr fun as p bs w _ hw => hother hw, (hother hpath).trans hend⟩

/-- A new cell at the end of a walk. -/
theorem isChain_append (h : Unshared live ref) (hr : Path ref (.inl r) ps y)
    (hy : ref' y = some c) (hc : ref' (.inr c) = none)
    (hsame : ∀ z, z ≠ y → Held live z → ref' z = ref z) : IsChain ref' (.inl r) (ps ++ [c]) :=
  ⟨.inr c, (h.path_upTo hr hsame).snoc hy, hc⟩

end Unshared

end Chains
