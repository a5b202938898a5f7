/-
Programs that act on a state and leave a trace.

A program of type `Exec σ ι α` runs from a state of type `σ`: it acts on the state in
labelled steps, and either returns a value or gives up (a bound on its recursion was too
small). The outcome lists the steps, each with the state before and after it.

* `Exec.Triple` — from which states, doing which steps only, the program returns what;
* `Exec.TripleWhile` — the same as long as the steps meet an assumption;
* `Exec.TripleWhile.bind`, `Exec.triple_act`, … — the rules of composition;
* `Exec.Total` — the programs that always return.
-/
import Mathlib.Data.Nat.Notation
import Mathlib.Tactic.Basic

/-- A step and the states around it. -/
structure Exec.Step (σ ι : Type*) where
  label : ι
  pre : σ
  post : σ

/-- What a run did, where it stopped, and what it returned. -/
structure Exec.Outcome (σ ι α : Type*) where
  steps : List (Exec.Step σ ι)
  state : σ
  value : Option α

def Exec (σ ι α : Type*) := σ → Exec.Outcome σ ι α

namespace Exec

universe u

variable {σ ι : Type*} {α β : Type u}

protected def pure (a : α) : Exec σ ι α := fun s => ⟨[], s, some a⟩

protected def bind (m : Exec σ ι α) (f : α → Exec σ ι β) : Exec σ ι β := fun s =>
  match m s with
  | ⟨steps, s', none⟩ => ⟨steps, s', none⟩
  | ⟨steps, s', some a⟩ =>
    let o := f a s'
    ⟨steps ++ o.steps, o.state, o.value⟩

instance : Monad (Exec σ ι) where
  pure := Exec.pure
  bind := Exec.bind

/-- One step. -/
def act (l : ι) (f : σ → σ) : Exec σ ι Unit := fun s => ⟨[⟨l, s, f s⟩], f s, some ()⟩

/-- One step, if it can be done. -/
def actSome (l : ι) (f : σ → Option σ) : Exec σ ι Unit := fun s =>
  match f s with
  | some s' => ⟨[⟨l, s, s'⟩], s', some ()⟩
  | none => ⟨[], s, none⟩

/-- What the state shows. -/
def read (f : σ → α) : Exec σ ι α := fun s => ⟨[], s, some (f s)⟩

/-- The run goes on only with a value. -/
def readSome (f : σ → Option α) : Exec σ ι α := fun s => ⟨[], s, f s⟩

/-- The run does not return: the bound was too small, or the process is killed. -/
def giveUp : Exec σ ι α := fun s => ⟨[], s, none⟩

/-! ### The trace -/

/-- The steps lead from `s` to `s'`. -/
inductive Chained : σ → List (Step σ ι) → σ → Prop
  | nil {s : σ} : Chained s [] s
  | cons {l : ι} {s s' s'' : σ} {steps : List (Step σ ι)} :
      Chained s' steps s'' → Chained s (⟨l, s, s'⟩ :: steps) s''

theorem Chained.append {s s' s'' : σ} {steps steps' : List (Step σ ι)}
    (h : Chained s steps s') (h' : Chained s' steps' s'') : Chained s (steps ++ steps') s'' := by
  induction h with
  | nil => exact h'
  | cons _ ih => exact .cons (ih h')

/-- A relation that every step keeps is kept by the run. -/
theorem Chained.rel {R : σ → σ → Prop} {s s' : σ} {steps : List (Step σ ι)}
    (h : Chained s steps s') (refl : ∀ s, R s s) (trans : ∀ {s t u}, R s t → R t u → R s u)
    (hsteps : ∀ st ∈ steps, R st.pre st.post) : R s s' := by
  induction h with
  | nil => exact refl _
  | cons _ ih =>
    exact trans (hsteps _ List.mem_cons_self)
      (ih fun st hst => hsteps st (List.mem_cons_of_mem _ hst))

/-- A run ends where it started, or behind one of its steps. -/
theorem Chained.eq_or_post {s s' : σ} {steps : List (Step σ ι)} (h : Chained s steps s') :
    s' = s ∨ ∃ st ∈ steps, st.post = s' := by
  induction h with
  | nil => exact .inl rfl
  | cons _ ih =>
    rcases ih with rfl | ⟨st, hst, rfl⟩
    · exact .inr ⟨_, List.mem_cons_self, rfl⟩
    · exact .inr ⟨st, List.mem_cons_of_mem _ hst, rfl⟩

/-- What holds at the start and behind every step holds before every step, and at the end. -/
theorem Chained.forall_pre {Q : σ → Prop} {s s' : σ} {steps : List (Step σ ι)}
    (h : Chained s steps s') (hs : Q s) (hpost : ∀ st ∈ steps, Q st.post) :
    (∀ st ∈ steps, Q st.pre) ∧ Q s' := by
  induction h with
  | nil => exact ⟨fun st hst => absurd hst List.not_mem_nil, hs⟩
  | cons _ ih =>
    obtain ⟨hpre, hend⟩ := ih (hpost _ List.mem_cons_self)
      fun st hst => hpost st (List.mem_cons_of_mem _ hst)
    refine ⟨fun st hst => ?_, hend⟩
    rcases List.mem_cons.mp hst with rfl | hst
    · exact hs
    · exact hpre st hst

/-- The states of a run are the ends of its beginnings. -/
theorem Chained.exists_prefix {s s' t : σ} {steps : List (Step σ ι)} (h : Chained s steps s')
    (ht : t = s' ∨ ∃ st ∈ steps, t = st.pre ∨ t = st.post) :
    ∃ before, before <+: steps ∧ Chained s before t := by
  rcases ht with rfl | ⟨st, hst, ht⟩
  · exact ⟨steps, List.prefix_rfl, h⟩
  induction h with
  | nil => cases hst
  | @cons l s s₁ s' steps _ ih =>
    rcases List.mem_cons.mp hst with rfl | hst
    · rcases ht with rfl | rfl
      · exact ⟨[], List.nil_prefix, .nil⟩
      · exact ⟨[_], List.prefix_append [_] _, .cons .nil⟩
    · obtain ⟨before, hbefore, hchained⟩ := ih hst
      exact ⟨_ :: before, List.cons_prefix_cons.mpr ⟨rfl, hbefore⟩, .cons hchained⟩

/-- What no step makes less is largest at the end. -/
theorem Chained.forall_le {s s' : σ} {steps : List (Step σ ι)} (h : Chained s steps s')
    (size : σ → ℕ) (hsteps : ∀ st ∈ steps, size st.pre ≤ size st.post) :
    ∀ st ∈ steps, size st.post ≤ size s' := by
  induction h with
  | nil => exact fun st hst => absurd hst List.not_mem_nil
  | @cons l s s₁ s' steps hchained ih =>
    obtain ⟨-, hsteps⟩ := List.forall_mem_cons.mp hsteps
    refine List.forall_mem_cons.mpr ⟨?_, ih hsteps⟩
    exact hchained.rel (R := fun s s' => size s ≤ size s') (fun _ => Nat.le_refl _) Nat.le_trans
      hsteps

/-- The part of a run between two of its steps is a run. -/
theorem Chained.between {s s' : σ} {before during after : List (Step σ ι)}
    (h : Chained s (before ++ during ++ after) s') {first last : Step σ ι}
    (hfirst : during.head? = some first) (hlast : during.getLast? = some last) :
    Chained first.pre during last.post := by
  induction before generalizing s with
  | cons st before ih =>
    cases h with
    | cons hrest => exact ih hrest
  | nil =>
    rw [List.nil_append] at h
    induction during generalizing s first with
    | nil => cases hfirst
    | cons st during ih =>
      obtain rfl := Option.some.inj hfirst
      cases h with
      | cons hrest =>
        cases during with
        | nil =>
          obtain rfl := Option.some.inj hlast
          exact .cons .nil
        | cons st' during =>
          have hlast' : (st' :: during).getLast? = some last := by
            rwa [List.getLast?_cons_cons] at hlast
          have hpre : (st' :: during).head? = some st' := rfl
          have hnext := ih hpre hlast' hrest
          cases hrest with
          | cons _ => exact .cons hnext

/-! ### Rules -/

/-- The outcome of a run from `s`: as long as its steps meet `A` they meet `P`, and if all of them
do, they follow each other, and a value meets `post` with the state it is returned in. -/
structure Outcome.Meets (o : Outcome σ ι α) (A P : Step σ ι → Prop) (post : α → σ → Prop) (s : σ) :
    Prop where
  upTo : ∀ l, l <+: o.steps → (∀ st ∈ l, A st) → ∀ st ∈ l, P st
  links : (∀ st ∈ o.steps, A st) → Chained s o.steps o.state
  returns : (∀ st ∈ o.steps, A st) → ∀ a, o.value = some a → post a o.state

section Meets

variable {o : Outcome σ ι α} {P : Step σ ι → Prop} {post : α → σ → Prop} {s : σ}

theorem Outcome.Meets.chained (h : o.Meets (fun _ => True) P post s) : Chained s o.steps o.state :=
  h.links fun _ _ => trivial

theorem Outcome.Meets.steps (h : o.Meets (fun _ => True) P post s) : ∀ st ∈ o.steps, P st :=
  h.upTo o.steps List.prefix_rfl fun _ _ => trivial

theorem Outcome.Meets.value (h : o.Meets (fun _ => True) P post s) :
    ∀ a, o.value = some a → post a o.state :=
  h.returns fun _ _ => trivial

end Meets

/-- Every run from a state that meets `pre`, as long as its steps meet `A`. -/
def TripleWhile (A P : Step σ ι → Prop) (pre : σ → Prop) (m : Exec σ ι α) (post : α → σ → Prop) :
    Prop :=
  ∀ s, pre s → (m s).Meets A P post s

/-- Every run from a state that meets `pre`. -/
abbrev Triple (P : Step σ ι → Prop) (pre : σ → Prop) (m : Exec σ ι α) (post : α → σ → Prop) : Prop :=
  TripleWhile (fun _ => True) P pre m post

variable {A P : Step σ ι → Prop} {pre : σ → Prop} {post : α → σ → Prop} {m : Exec σ ι α}

theorem TripleWhile.weaken {pre' : σ → Prop} {post' : α → σ → Prop} (h : TripleWhile A P pre m post)
    (hpre : ∀ s, pre' s → pre s) (hpost : ∀ a s, post a s → post' a s) :
    TripleWhile A P pre' m post' :=
  fun s hs =>
    have hm := h s (hpre s hs)
    ⟨hm.upTo, hm.links, fun hall a ha => hpost a _ (hm.returns hall a ha)⟩

theorem TripleWhile.mono {P' : Step σ ι → Prop} (h : TripleWhile A P pre m post)
    (hsteps : ∀ st, P st → P' st) : TripleWhile A P' pre m post :=
  fun s hs =>
    have hm := h s hs
    ⟨fun l hl hall st hst => hsteps st (hm.upTo l hl hall st hst), hm.links, hm.returns⟩

/-- What does not depend on the state stays. -/
theorem TripleWhile.frame {K : Prop} (h : TripleWhile A P pre m post) :
    TripleWhile A P (fun s => pre s ∧ K) m fun a s => post a s ∧ K :=
  fun s hs =>
    have hm := h s hs.1
    ⟨hm.upTo, hm.links, fun hall a ha => ⟨hm.returns hall a ha, hs.2⟩⟩

/-- A program that does no step. -/
theorem triple_silent (hsilent : ∀ s, (m s).steps = [] ∧ (m s).state = s)
    (h : ∀ s a, pre s → (m s).value = some a → post a s) : TripleWhile A P pre m post := by
  intro s hs
  obtain ⟨hsteps, hstate⟩ := hsilent s
  refine ⟨?_, ?_, ?_⟩
  · rw [hsteps]
    intro l hl _ st hst
    exact absurd (hl.subset hst) List.not_mem_nil
  · rw [hsteps, hstate]
    exact fun _ => .nil
  · rw [hstate]
    exact fun _ a ha => h s a hs ha

theorem triple_pure {a : α} (h : ∀ s, pre s → post a s) :
    TripleWhile A P pre (pure a : Exec σ ι α) post :=
  triple_silent (fun _ => ⟨rfl, rfl⟩) fun s _ hs hb => Option.some.inj hb ▸ h s hs

theorem triple_read {f : σ → α} (h : ∀ s, pre s → post (f s) s) :
    TripleWhile A P pre (read f : Exec σ ι α) post :=
  triple_silent (fun _ => ⟨rfl, rfl⟩) fun s _ hs hb => Option.some.inj hb ▸ h s hs

theorem triple_readSome {f : σ → Option α} (h : ∀ s a, pre s → f s = some a → post a s) :
    TripleWhile A P pre (readSome f : Exec σ ι α) post :=
  triple_silent (fun _ => ⟨rfl, rfl⟩) h

theorem triple_giveUp : TripleWhile A P pre (giveUp : Exec σ ι α) post :=
  triple_silent (fun _ => ⟨rfl, rfl⟩) fun _ _ _ h => nomatch h

/-- A step that the assumption is looked at for. -/
theorem triple_assume {l : ι} {f : σ → σ} {post : Unit → σ → Prop}
    (h : ∀ s, pre s → A ⟨l, s, f s⟩ → P ⟨l, s, f s⟩ ∧ post () (f s)) :
    TripleWhile A P pre (act l f) post := by
  intro s hs
  refine ⟨fun l' hl' hall st hst => ?_, fun _ => .cons .nil, fun hall a _ => ?_⟩
  · obtain rfl := List.mem_singleton.mp (hl'.subset hst)
    exact (h s hs (hall _ hst)).1
  · exact (h s hs (hall _ List.mem_cons_self)).2

theorem triple_act {l : ι} {f : σ → σ} {post : Unit → σ → Prop}
    (h : ∀ s, pre s → P ⟨l, s, f s⟩ ∧ post () (f s)) : TripleWhile A P pre (act l f) post :=
  triple_assume fun s hs _ => h s hs

theorem triple_actSome {l : ι} {f : σ → Option σ} {post : Unit → σ → Prop}
    (h : ∀ s s', pre s → f s = some s' → P ⟨l, s, s'⟩ ∧ post () s') :
    TripleWhile A P pre (actSome l f) post := by
  intro s hs
  unfold actSome
  split
  · next s' hf =>
    refine ⟨fun l' hl' _ st hst => ?_, fun _ => .cons .nil, fun _ a _ => (h s s' hs hf).2⟩
    obtain rfl := List.mem_singleton.mp (hl'.subset hst)
    exact (h s s' hs hf).1
  · exact ⟨fun l' hl' _ st hst => absurd (hl'.subset hst) List.not_mem_nil, fun _ => .nil,
      fun _ a ha => nomatch ha⟩

/-- Where the first program gives up the second does not run. -/
theorem bind_of_none {f : α → Exec σ ι β} {s : σ} (h : (m s).value = none) :
    (m >>= f) s = ⟨(m s).steps, (m s).state, none⟩ := by
  show Exec.bind m f s = _
  unfold Exec.bind
  split
  · next heq => rw [heq]
  · next heq =>
    rw [heq] at h
    cases h

theorem bind_of_some {f : α → Exec σ ι β} {s : σ} {a : α} (h : (m s).value = some a) :
    (m >>= f) s = ⟨(m s).steps ++ (f a (m s).state).steps, (f a (m s).state).state,
      (f a (m s).state).value⟩ := by
  show Exec.bind m f s = _
  unfold Exec.bind
  split
  · next heq =>
    rw [heq] at h
    cases h
  · next heq =>
    rw [heq] at h ⊢
    obtain rfl := Option.some.inj h
    rfl

/-- A run of both that returns is one of the first, and one of the second. -/
theorem exists_of_bind {f : α → Exec σ ι β} {s : σ} {b : β} (h : ((m >>= f) s).value = some b) :
    ∃ a, (m s).value = some a ∧ (f a (m s).state).value = some b ∧
      (m >>= f) s = ⟨(m s).steps ++ (f a (m s).state).steps, (f a (m s).state).state, some b⟩ := by
  cases hvalue : (m s).value with
  | none =>
    rw [bind_of_none hvalue] at h
    cases h
  | some a =>
    rw [bind_of_some hvalue] at h
    have hb : (f a (m s).state).value = some b := h
    exact ⟨a, rfl, hb, by rw [bind_of_some hvalue, hb]⟩

/-- Runs that go on alike from where the first program ends. -/
theorem bind_congr {f g : α → Exec σ ι β} {s : σ}
    (h : ∀ a, (m s).value = some a → f a (m s).state = g a (m s).state) :
    (m >>= f) s = (m >>= g) s := by
  cases hvalue : (m s).value with
  | none => rw [bind_of_none hvalue, bind_of_none hvalue]
  | some a => rw [bind_of_some hvalue, bind_of_some hvalue, h a hvalue]

theorem pure_bind (a : α) (f : α → Exec σ ι β) : (pure a >>= f : Exec σ ι β) = f a := rfl

theorem bind_assoc {γ : Type u} (m : Exec σ ι α) (f : α → Exec σ ι β) (g : β → Exec σ ι γ) :
    m >>= f >>= g = m >>= fun a => f a >>= g := by
  funext s
  show Exec.bind (Exec.bind m f) g s = Exec.bind m (fun a => Exec.bind (f a) g) s
  unfold Exec.bind
  rcases m s with ⟨steps, s', _ | a⟩
  · rfl
  · dsimp only
    rcases f a s' with ⟨steps', s'', _ | b⟩
    · rfl
    · dsimp only
      rw [List.append_assoc]

/-! ### Where a run ends -/

/-- The outcome without the steps. -/
def Outcome.ends (o : Outcome σ ι α) : Option α × σ := (o.value, o.state)

theorem ends_bind {f : α → Exec σ ι β} {s s' : σ} {a : α} (h : (m s).ends = (some a, s')) :
    ((m >>= f) s).ends = (f a s').ends := by
  obtain ⟨hvalue, rfl⟩ := Prod.mk.inj h
  rw [bind_of_some hvalue]
  rfl

theorem ends_bind_none {f : α → Exec σ ι β} {s s' : σ} (h : (m s).ends = (none, s')) :
    ((m >>= f) s).ends = (none, s') := by
  obtain ⟨hvalue, rfl⟩ := Prod.mk.inj h
  rw [bind_of_none hvalue]
  rfl

/-- Runs that end alike go on alike. -/
theorem ends_bind_congr {m' : Exec σ ι α} {f : α → Exec σ ι β} {s s' : σ}
    (h : (m s).ends = (m' s').ends) : ((m >>= f) s).ends = ((m' >>= f) s').ends := by
  cases hends : (m' s').ends with
  | mk value last =>
    cases value with
    | none => rw [ends_bind_none (h.trans hends), ends_bind_none hends]
    | some a => rw [ends_bind (h.trans hends), ends_bind hends]

@[simp] theorem ends_pure (a : α) (s : σ) : ((pure a : Exec σ ι α) s).ends = (some a, s) := rfl

@[simp] theorem ends_read_bind {f : σ → α} {g : α → Exec σ ι β} (s : σ) :
    ((read f >>= g) s).ends = (g (f s) s).ends := ends_bind rfl

@[simp] theorem ends_act_bind {β : Type} {l : ι} {f : σ → σ} {g : Unit → Exec σ ι β} (s : σ) :
    ((act l f >>= g) s).ends = (g () (f s)).ends := ends_bind rfl

theorem steps_bind {f : α → Exec σ ι β} {s s' : σ} {a : α} (h : (m s).ends = (some a, s')) :
    ((m >>= f) s).steps = (m s).steps ++ (f a s').steps := by
  obtain ⟨hvalue, rfl⟩ := Prod.mk.inj h
  rw [bind_of_some hvalue]

@[simp] theorem steps_read_bind {f : σ → α} {g : α → Exec σ ι β} (s : σ) :
    ((read f >>= g) s).steps = (g (f s) s).steps := steps_bind rfl

@[simp] theorem steps_act_bind {β : Type} {l : ι} {f : σ → σ} {g : Unit → Exec σ ι β} (s : σ) :
    ((act l f >>= g) s).steps = ⟨l, s, f s⟩ :: (g () (f s)).steps := steps_bind rfl

/-- **Composition.** -/
theorem TripleWhile.bind {f : α → Exec σ ι β} {post' : β → σ → Prop} (hm : TripleWhile A P pre m post)
    (hf : ∀ a, TripleWhile A P (post a) (f a) post') : TripleWhile A P pre (m >>= f) post' := by
  intro s hs
  have hfirst := hm s hs
  cases h : (m s).value with
  | none =>
    rw [bind_of_none h]
    exact ⟨hfirst.upTo, hfirst.links, fun _ b hb => nomatch hb⟩
  | some a =>
    have hsecond : (∀ st ∈ (m s).steps, A st) → (f a (m s).state).Meets A P post' (m s).state :=
      fun hall => hf a (m s).state (hfirst.returns hall a h)
    rw [bind_of_some h]
    refine ⟨fun l hl hall => ?_, fun hall => ?_, fun hall => ?_⟩
    · rcases List.prefix_or_prefix_of_prefix hl (List.prefix_append _ _) with hl | ⟨l', rfl⟩
      · exact hfirst.upTo l hl hall
      · obtain ⟨hall₁, hall₂⟩ := List.forall_mem_append.mp hall
        have hl' : l' <+: (f a (m s).state).steps := (List.prefix_append_right_inj _).mp hl
        exact List.forall_mem_append.mpr
          ⟨hfirst.upTo _ List.prefix_rfl hall₁, (hsecond hall₁).upTo l' hl' hall₂⟩
    · obtain ⟨hall₁, hall₂⟩ := List.forall_mem_append.mp hall
      exact (hfirst.links hall₁).append ((hsecond hall₁).links hall₂)
    · obtain ⟨hall₁, hall₂⟩ := List.forall_mem_append.mp hall
      exact (hsecond hall₁).returns hall₂

/-- Composition, by way of a given condition. -/
theorem TripleWhile.seq {f : α → Exec σ ι β} {post' : β → σ → Prop} (mid : α → σ → Prop)
    (hm : TripleWhile A P pre m mid) (hf : ∀ a, TripleWhile A P (mid a) (f a) post') :
    TripleWhile A P pre (m >>= f) post' :=
  hm.bind hf

theorem triple_ite {c : Prop} [Decidable c] {m' : Exec σ ι α} (h : c → TripleWhile A P pre m post)
    (h' : ¬ c → TripleWhile A P pre m' post) : TripleWhile A P pre (if c then m else m') post := by
  split
  · next hc => exact h hc
  · next hc => exact h' hc

/-! ### Programs that always return -/

def Total (m : Exec σ ι α) : Prop := ∀ s, (m s).value.isSome

theorem total_pure (a : α) : Total (pure a : Exec σ ι α) := fun _ => rfl

theorem total_act (l : ι) (f : σ → σ) : Total (act l f) := fun _ => rfl

theorem total_read (f : σ → α) : Total (read f : Exec σ ι α) := fun _ => rfl

theorem Total.bind {f : α → Exec σ ι β} (hm : Total m) (hf : ∀ a, Total (f a)) :
    Total (m >>= f) := by
  intro s
  obtain ⟨a, ha⟩ := Option.isSome_iff_exists.mp (hm s)
  rw [bind_of_some ha]
  exact hf a _

/-- What runs last and always returns does not matter for whether the run returns. -/
theorem isSome_bind_of_total {m : Exec σ ι α} {f : α → Exec σ ι β} (hf : ∀ a, Total (f a)) (s : σ) :
    ((m >>= f) s).value.isSome = (m s).value.isSome := by
  cases h : (m s).value with
  | none =>
    rw [bind_of_none h]
    rfl
  | some a =>
    rw [bind_of_some h]
    exact hf a _

end Exec
