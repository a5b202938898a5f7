/-
What a block does to the environments that were there before it.

* `EntryKept` — the name and the fixed flag of an entry stay, and the value of a fixed one;
* `Allowed.frameKept` — one step;
* `execBlock_framesKept` — **a run of a block keeps every frame that was there**, entry for
  entry, wherever the run stops.
-/
import Jaguar.InterpSteps
import Mathlib.Data.List.Forall2
import Mathlib.Data.List.GetD

namespace Jaguar

structure EntryKept (e e' : EnvEntry) : Prop where
  name : e'.name = e.name
  isFixed : e'.isFixed = e.isFixed
  value : e.isFixed = true → e'.value = e.value

/-- The same entries in the same order. -/
def FrameKept (es es' : List EnvEntry) : Prop := List.Forall₂ EntryKept es es'

theorem EntryKept.refl (e : EnvEntry) : EntryKept e e := ⟨rfl, rfl, fun _ => rfl⟩

theorem EntryKept.trans {e e' e'' : EnvEntry} (h : EntryKept e e') (h' : EntryKept e' e'') :
    EntryKept e e'' where
  name := h'.name.trans h.name
  isFixed := h'.isFixed.trans h.isFixed
  value hfixed := (h'.value (h.isFixed.trans hfixed)).trans (h.value hfixed)

theorem FrameKept.refl (es : List EnvEntry) : FrameKept es es :=
  List.forall₂_same.mpr fun e _ => EntryKept.refl e

theorem FrameKept.trans {es es' es'' : List EnvEntry} (h : FrameKept es es')
    (h' : FrameKept es' es'') : FrameKept es es'' := by
  induction h generalizing es'' with
  | nil => exact h'
  | cons he _ ih =>
    cases h' with
    | cons he' hrest => exact .cons (he.trans he') (ih hrest)

/-- Another value in an entry that is not fixed. -/
theorem FrameKept.modify {es : List EnvEntry} {i : ℕ} {e : EnvEntry} (hget : es[i]? = some e)
    (hfixed : e.isFixed = false) (v : Value) :
    FrameKept es (es.modify i fun e => { e with value := v }) := by
  induction es generalizing i with
  | nil => cases hget
  | cons d es ih =>
    cases i with
    | zero =>
      obtain rfl := Option.some.inj hget
      refine .cons ⟨rfl, rfl, fun htrue => ?_⟩ (FrameKept.refl es)
      rw [hfixed] at htrue
      cases htrue
    | succ i => exact .cons (EntryKept.refl d) (ih hget)

/-- The frames that were there first. -/
def FramesKept (n₀ : ℕ) (h h' : Heap) : Prop := ∀ f < n₀, FrameKept (h.frame f) (h'.frame f)

theorem FramesKept.of_frames {n₀ : ℕ} {h h' : Heap} (heq : h'.frames = h.frames) :
    FramesKept n₀ h h' := by
  intro f _
  rw [show h'.frame f = h.frame f from congrArg (·.getD f []) heq]
  exact FrameKept.refl _

theorem Heap.frame_newFrame (h : Heap) (f : ℕ) : h.newFrame.frame f = h.frame f := by
  show (h.frames ++ [[]]).getD f [] = h.frames.getD f []
  rcases lt_trichotomy f h.frames.length with hlt | rfl | hgt
  · exact List.getD_append _ _ _ _ hlt
  · simp
  · rw [List.getD_eq_default _ _ (by simp; omega), List.getD_eq_default _ _ (by omega)]

theorem Heap.frame_setVar (h : Heap) (f i : ℕ) (v : Value) (g : ℕ) :
    (h.setVar f i v).frame g
      = if f = g then (h.frame g).modify i fun e => { e with value := v } else h.frame g := by
  show (h.frames.modify f _).getD g [] = if f = g then (h.frames.getD g []).modify i _
    else h.frames.getD g []
  rw [List.getD_eq_getElem?_getD, List.getD_eq_getElem?_getD, List.getElem?_modify]
  cases h.frames[g]? with
  | none => split <;> simp
  | some es => split <;> simp

/-- **One step.** -/
theorem Allowed.framesKept {ω : Type} {n₀ : ℕ} {st : Exec.Step (Machine ω) Act}
    (h : Allowed n₀ st) : FramesKept n₀ st.pre.heap st.post.heap := by
  obtain ⟨label, s, s'⟩ := st
  have hdoes : label.Does s s' := h.1
  have hwithin : label.Within n₀ := h.2
  show FramesKept n₀ s.heap s'.heap
  cases hdoes with
  | newFrame =>
    intro f _
    rw [show s.heap.newFrame.frame f = _ from Heap.frame_newFrame s.heap f]
    exact FrameKept.refl _
  | define g e =>
    intro f hf
    rcases s.heap.frame_define_or g e f with heq | ⟨rfl, -⟩
    · rw [show (s.heap.define g e).frame f = _ from heq]
      exact FrameKept.refl _
    · exact absurd hf (Nat.not_lt_of_le hwithin)
  | setVar g i v e hget hfixed =>
    intro f _
    rw [show (s.heap.setVar g i v).frame f = _ from Heap.frame_setVar s.heap g i v f]
    split
    · next heq =>
      subst heq
      exact FrameKept.modify hget hfixed v
    · exact FrameKept.refl _
  | alloc h hgrows _ => exact FramesKept.of_frames hgrows.frames
  | hoist env list =>
    intro f hf
    have hhead : env.head? ≠ some f := fun heq => absurd hf (Nat.not_lt_of_le (hwithin f heq))
    rw [show (s.heap.hoistClasses list env |>.hoistFunctions list env).frame f = _ from
      (s.heap.hoists_hoist list env).outer f hhead]
    exact FrameKept.refl _
  | setList l h hedit => exact FramesKept.of_frames hedit.frames
  | _ => exact FramesKept.of_frames rfl

/-- **The effect of a block on what was there.**  `parentEnv`, its ancestors, the environments
of closures and the globals are all among the frames there are when the block starts. -/
theorem execBlock_framesKept {ω : Type} [Host ω] (n : ℕ) (list : List Stmt) (parentEnv : Env)
    (s : Machine ω) : FramesKept s.heap.frames.length s.heap
      (execBlock (evaluator n) list parentEnv s).state.heap := by
  have hR : (evaluator n : Evaluator ω).Follows (fun _ => True) s.heap.frames.length :=
    Evaluator.follows _ _ n
  have hrun := (execBlock_follows hR list parentEnv).confined s (Nat.le_refl _)
  intro f hf
  refine hrun.chained.rel (R := fun s s' => FrameKept (s.heap.frame f) (s'.heap.frame f))
    (fun s => FrameKept.refl _) FrameKept.trans ?_
  intro st hst
  exact (hrun.steps st hst).framesKept f hf

end Jaguar
