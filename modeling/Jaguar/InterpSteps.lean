/-
What the steps of the interpreter do.

A label of `Act` says what a step touches; `Act.Does` says what the step does to it, and
`Act.Within` that no frame below a bound gets a new entry. The bound is the number of frames
when the run starts, and the environments that entries are put into are those the run made.
What holds of the error state may be kept along the run: `ErrorRule` says what it takes.

* `Follows` — every run does such steps only, and keeps to such a rule;
* `Evaluator.follows` — **every run of the interpreter does**, by induction on the nesting;
* `execBlock_follows`, `invokeRooted_follows`, `interpRun_follows` — at its entry points;
* `Confined`, `Evaluator.confined` — the same where nothing is asked of the error state.
-/
import Jaguar.Interp

set_option linter.unusedSectionVars false

namespace Jaguar

/-! ### Labels -/

/-- What is allocated comes behind what there was, which stays. -/
structure Heap.Grows (h h' : Heap) : Prop where
  frames : h'.frames = h.frames
  lists : h.lists <+: h'.lists
  nodes : h.nodes <+: h'.nodes
  datas : h.datas <+: h'.datas
  funcs : h.funcs <+: h'.funcs
  classes : h'.classes = h.classes
  instances : h.instances <+: h'.instances
  natives : h.natives <+: h'.natives

/-- Some lists of new nodes more, and nothing else about lists. -/
inductive Heap.AddsLists (h : Heap) : Heap → Prop
  | refl : AddsLists h h
  | add {h' : Heap} (items : List Value) : AddsLists h h' → AddsLists h (h'.addList items)
  | other {h' h'' : Heap} : AddsLists h h' → h''.lists = h'.lists → h''.nodes = h'.nodes →
      AddsLists h h''

/-- What the methods of a list do to it. -/
inductive Heap.Edits (h : Heap) (l : ℕ) : Heap → Prop
  | append {h' : Heap} (item : Value) : h.listAppend h.nodes.length l item = some h' → Edits h l h'
  | insertFront (item : Value) : Edits h l (h.listInsertFront l item)
  | delete {h' : Heap} (idx : ℤ) :
      h.listDelete l idx h.nodes.length none (h.listHead l) 0 = some h' → Edits h l h'
  | setItems (items : List Value) : Edits h l (h.newNodes l items)

/-- What a step with this label does. -/
inductive Act.Does {ω : Type} (s : Machine ω) : Act → Machine ω → Prop
  | newFrame : Does s .newFrame { s with heap := s.heap.newFrame }
  | define (f : ℕ) (e : EnvEntry) :
      Does s (.define f e.name) { s with heap := s.heap.define f e }
  | setVar (f i : ℕ) (v : Value) (e : EnvEntry) :
      (s.heap.frame f)[i]? = some e → e.isFixed = false →
      Does s (.setVar f i) { s with heap := s.heap.setVar f i v }
  | alloc (h : Heap) : s.heap.Grows h → s.heap.AddsLists h → Does s .alloc { s with heap := h }
  | hoist (env : Env) (list : List Stmt) : Does s (.hoist env)
      { s with heap := s.heap.hoistClasses list env |>.hoistFunctions list env }
  | setList (l : ℕ) (h : Heap) : s.heap.Edits l h → Does s (.setList l) { s with heap := h }
  | setItem (p : ℕ) (v : Value) : Does s (.setItem p) { s with heap := s.heap.setItem p v }
  | setData (d : ℕ) (key : Text) (v : Value) :
      Does s (.setData d key) { s with heap := s.heap.dataSet d key v }
  | setNative (p : ℕ) (native : Native) : Does s (.setNative p)
      { s with heap := { s.heap with natives := s.heap.natives.set p native } }
  | advance (p : ℕ) : Does s (.advance p) s
  | raise (line : ℕ) (msg : Text) : Does s .raise { s with it := s.it.raise line msg }
  | enterTry : s.it.hadRuntimeError = false →
      Does s .enterTry { s with it := s.it.clearError }
  | leaveTry (msg : Option Text) : s.it.hadRuntimeError = false →
      Does s .leaveTry { s with it := { s.it with hadRuntimeError := false, errorMessage := msg } }
  | catchError (name : Text) : s.it.hadRuntimeError = true →
      s.heap.frames.getLast? = some
        [⟨name, .string (s.it.errorMessage.getD (txt "error")), false⟩] →
      Does s .catchError { s with it := s.it.clearError }
  | slot (file : Option ℕ) (path : Option Text) :
      Does s .slot { s with it := { s.it with openFile := file, openDirPath := path } }
  | world (w : ω) : Does s .world { s with world := w }

/-- The innermost frame of an environment is none of the first `n₀`. -/
def Own (n₀ : ℕ) (env : Env) : Prop := ∀ f ∈ env.head?, n₀ ≤ f

/-- New entries are put into none of the first `n₀` frames. -/
def Act.Within (n₀ : ℕ) (a : Act) : Prop :=
  match a with
  | .define f _ => n₀ ≤ f
  | .hoist env => Own n₀ env
  | _ => True

def Allowed {ω : Type} (n₀ : ℕ) (st : Exec.Step (Machine ω) Act) : Prop :=
  st.label.Does st.pre st.post ∧ st.label.Within n₀

/-- There are at least `n₀` frames. -/
def HasFrames {ω : Type} (n₀ : ℕ) (s : Machine ω) : Prop := n₀ ≤ s.heap.frames.length

/-- What may be asked of the error state along a run: an error may be raised or cleared at
any time, and what is saved while none is pending may be restored. -/
class ErrorRule (J : Interp → Prop) : Prop where
  raise : ∀ (it : Interp) line msg, J (it.raise line msg)
  clear : ∀ it : Interp, J it.clearError
  restore : ∀ it saved : Interp, J saved → saved.hadRuntimeError = false → J { it with
    hadRuntimeError := saved.hadRuntimeError, errorMessage := saved.errorMessage }
  slot : ∀ (it : Interp) file path, J it → J { it with openFile := file, openDirPath := path }

instance : ErrorRule fun _ => True := ⟨fun _ _ _ => trivial, fun _ => trivial,
  fun _ _ _ _ => trivial, fun _ _ _ _ => trivial⟩

def Ready {ω : Type} (J : Interp → Prop) (n₀ : ℕ) (s : Machine ω) : Prop := HasFrames n₀ s ∧ J s.it

def StepKeeps {ω : Type} (J : Interp → Prop) (n₀ : ℕ) (st : Exec.Step (Machine ω) Act) : Prop :=
  Allowed n₀ st ∧ J st.post.it

/-- Every run does allowed steps, and keeps to the rule. -/
def Follows {ω α : Type} (J : Interp → Prop) (n₀ : ℕ) (m : Prog ω α) : Prop :=
  Exec.Triple (StepKeeps J n₀) (Ready J n₀) m fun _ => Ready J n₀

/-- Every run that starts with no error pending does. -/
def FollowsClear {ω α : Type} (J : Interp → Prop) (n₀ : ℕ) (m : Prog ω α) : Prop :=
  Exec.Triple (StepKeeps J n₀) (fun s => Ready J n₀ s ∧ s.it.hadRuntimeError = false) m
    fun _ => Ready J n₀

section Rules

variable {ω α β : Type} {J : Interp → Prop} {n₀ : ℕ} {m : Prog ω α}

theorem follows_pure (a : α) : Follows J n₀ (pure a : Prog ω α) := Exec.triple_pure fun _ h => h

theorem follows_read (f : Machine ω → α) : Follows J n₀ (Exec.read f : Prog ω α) :=
  Exec.triple_read fun _ h => h

theorem follows_readSome (f : Machine ω → Option α) : Follows J n₀ (Exec.readSome f : Prog ω α) :=
  Exec.triple_readSome fun _ _ h _ => h

theorem follows_giveUp : Follows J n₀ (Exec.giveUp : Prog ω α) := Exec.triple_giveUp

theorem Follows.bind {f : α → Prog ω β} (hm : Follows J n₀ m) (hf : ∀ a, Follows J n₀ (f a)) :
    Follows J n₀ (m >>= f) :=
  Exec.TripleWhile.bind hm hf

theorem follows_ite {c : Prop} [Decidable c] {m' : Prog ω α} (h : Follows J n₀ m) (h' : Follows J n₀ m') :
    Follows J n₀ (if c then m else m') :=
  Exec.triple_ite (fun _ => h) fun _ => h'

theorem Follows.clear (h : Follows J n₀ m) : FollowsClear J n₀ m :=
  h.weaken (fun _ hs => hs.1) fun _ _ hs => hs

theorem followsClear_unlessError {dflt : α} (h : FollowsClear J n₀ m) :
    Follows J n₀ (unlessError dflt m) := by
  refine Exec.TripleWhile.seq (fun b s => Ready J n₀ s ∧ b = s.it.hadRuntimeError) ?_ fun b => ?_
  · exact Exec.triple_read fun s hs => ⟨hs, rfl⟩
  · cases b with
    | true => exact Exec.triple_pure fun s hs => hs.1
    | false => exact h.weaken (fun s hs => ⟨hs.1, hs.2.symm⟩) fun _ _ hs => hs

theorem follows_unlessError {dflt : α} (h : Follows J n₀ m) : Follows J n₀ (unlessError dflt m) :=
  followsClear_unlessError h.clear

/-- A step that makes no frame less, and keeps to the rule. -/
theorem follows_act {a : Act} {f : Machine ω → Machine ω} (hdoes : ∀ s, a.Does s (f s))
    (hwithin : a.Within n₀) (hframes : ∀ s, s.heap.frames.length ≤ (f s).heap.frames.length)
    (hrule : ∀ s, J s.it → J (f s).it) : Follows J n₀ (Exec.act a f) :=
  Exec.triple_act fun s hs => ⟨⟨⟨hdoes s, hwithin⟩, hrule s hs.2⟩,
    Nat.le_trans hs.1 (hframes s), hrule s hs.2⟩

end Rules

/-! ### Single steps -/

section Single

variable {ω : Type} {J : Interp → Prop} [ErrorRule J] {n₀ : ℕ}

theorem follows_rtError (line : ℕ) (msg : Text) : Follows J n₀ (rtError line msg : Prog ω Unit) :=
  follows_act (fun _ => .raise line msg) trivial (fun _ => Nat.le_refl _)
    fun s _ => ErrorRule.raise s.it line msg

theorem follows_fail (line : ℕ) (msg : Text) : Follows J n₀ (fail line msg : Prog ω Value) :=
  (follows_rtError line msg).bind fun _ => follows_pure _

theorem follows_onWorld (f : ω → ω) : Follows J n₀ (onWorld f) :=
  follows_act (fun s => .world (f s.world)) trivial (fun _ => Nat.le_refl _) fun _ hs => hs

theorem follows_fromWorld {α : Type} (f : ω → α × ω) : Follows J n₀ (fromWorld f) :=
  (follows_read _).bind fun _ => (follows_onWorld _).bind fun _ => follows_pure _

theorem follows_setOpenFile (p : Option ℕ) : Follows J n₀ (setOpenFile p : Prog ω Unit) :=
  follows_act (fun s => .slot p s.it.openDirPath) trivial (fun _ => Nat.le_refl _)
    fun s hs => ErrorRule.slot s.it p s.it.openDirPath hs

theorem follows_setOpenDirPath (path : Option Text) :
    Follows J n₀ (setOpenDirPath path : Prog ω Unit) :=
  follows_act (fun s => .slot s.it.openFile path) trivial (fun _ => Nat.le_refl _)
    fun s hs => ErrorRule.slot s.it s.it.openFile path hs

/-- The innermost frame of the environment is the newest of all, and empty. -/
def NewScope (n₀ : ℕ) (env : Env) (s : Machine ω) : Prop :=
  ∃ frames parent, s.heap.frames = frames ++ [[]] ∧ env = frames.length :: parent ∧
    n₀ ≤ frames.length

theorem NewScope.own {env : Env} {s : Machine ω} (h : NewScope n₀ env s) : Own n₀ env := by
  obtain ⟨frames, parent, -, rfl, hle⟩ := h
  intro f hf
  obtain rfl := Option.some.inj hf
  exact hle

/-- A new frame is the innermost of its environment; the interpreter's own state stays. -/
theorem triple_envNew (K : Interp → Prop) (parent : Env) :
    Exec.Triple (StepKeeps J n₀) (fun s => Ready J n₀ s ∧ K s.it) (envNew parent : Prog ω Env)
      fun env s => (Ready J n₀ s ∧ K s.it) ∧ NewScope n₀ env s := by
  refine Exec.TripleWhile.seq (fun g s => (Ready J n₀ s ∧ K s.it) ∧ g = s.heap.frames.length)
    ?_ fun g => ?_
  · exact Exec.triple_read fun s hs => ⟨hs, rfl⟩
  refine Exec.TripleWhile.seq (fun _ s => (Ready J n₀ s ∧ K s.it) ∧ NewScope n₀ (g :: parent) s)
    ?_ fun _ => Exec.triple_pure fun s hs => hs
  refine Exec.triple_act fun s hs => ?_
  obtain ⟨⟨⟨hframes, hrule⟩, hK⟩, rfl⟩ := hs
  have hmore : HasFrames n₀ ({ s with heap := s.heap.newFrame } : Machine ω) := by
    show n₀ ≤ (s.heap.frames ++ [[]]).length
    rw [List.length_append]
    exact Nat.le_trans hframes (Nat.le_add_right _ _)
  exact ⟨⟨⟨.newFrame, trivial⟩, hrule⟩, ⟨⟨hmore, hrule⟩, hK⟩,
    s.heap.frames, parent, rfl, rfl, hframes⟩

theorem follows_envNew_bind {α : Type} {f : Env → Prog ω α} (parent : Env)
    (hf : ∀ env, Own n₀ env → Follows J n₀ (f env)) : Follows J n₀ (envNew parent >>= f) := by
  refine Exec.TripleWhile.bind ((triple_envNew (fun _ => True) parent).weaken
    (fun s hs => ⟨hs, trivial⟩) fun _ _ hs => hs) fun env => ?_
  exact fun s hs => hf env hs.2.own s hs.1.1

theorem follows_envDefine {env : Env} (h : Own n₀ env) (name : Text) (v : Value) (isFixed : Bool) :
    Follows J n₀ (envDefine env name v isFixed : Prog ω Unit) := by
  cases env with
  | nil => exact follows_pure ()
  | cons f rest =>
    refine follows_act (fun s => .define f ⟨name, v, isFixed⟩) (h f rfl) (fun s => ?_)
      fun _ hs => hs
    show s.heap.frames.length ≤ (s.heap.frames.modify f _).length
    rw [List.length_modify]

theorem modify_last {α : Type*} (l : List α) (a : α) (f : α → α) :
    (l ++ [a]).modify l.length f = l ++ [f a] := by
  induction l with
  | nil => rfl
  | cons b l ih => exact congrArg (b :: ·) ih

/-- The first entry of a new scope. -/
theorem triple_envDefine_new (K : Interp → Prop) {env : Env} (name : Text) (v : Value)
    (isFixed : Bool) :
    Exec.Triple (StepKeeps J n₀) (fun s => (Ready J n₀ s ∧ K s.it) ∧ NewScope n₀ env s)
      (envDefine env name v isFixed : Prog ω Unit) fun _ s => (Ready J n₀ s ∧ K s.it) ∧
        Own n₀ env ∧ s.heap.frames.getLast? = some [⟨name, v, isFixed⟩] := by
  intro s hs
  have hown := hs.2.own
  obtain ⟨⟨⟨hframes, hrule⟩, hK⟩, frames, parent, heq, rfl, hle⟩ := hs
  have hdefine : (s.heap.define frames.length ⟨name, v, isFixed⟩).frames
      = frames ++ [[⟨name, v, isFixed⟩]] := by
    show s.heap.frames.modify frames.length _ = _
    rw [heq]
    exact modify_last frames [] _
  have hmore : n₀ ≤ (s.heap.define frames.length ⟨name, v, isFixed⟩).frames.length := by
    rw [hdefine, List.length_append]
    exact Nat.le_trans hle (Nat.le_add_right _ _)
  have hlast : (s.heap.define frames.length ⟨name, v, isFixed⟩).frames.getLast?
      = some [⟨name, v, isFixed⟩] := by
    rw [hdefine, List.getLast?_append]
    rfl
  have hact := @Exec.triple_act (Machine ω) Act (fun _ => True) (StepKeeps J n₀) (· = s)
    (.define frames.length name)
    (fun s => { s with heap := s.heap.define frames.length ⟨name, v, isFixed⟩ })
    (fun _ s => (Ready J n₀ s ∧ K s.it) ∧ Own n₀ (frames.length :: parent) ∧
      s.heap.frames.getLast? = some [⟨name, v, isFixed⟩])
  refine hact (fun s' hs' => ?_) s rfl
  subst hs'
  exact ⟨⟨⟨.define _ ⟨name, v, isFixed⟩, hle⟩, hrule⟩, ⟨⟨hmore, hrule⟩, hK⟩, hown, hlast⟩

theorem follows_envSet (env : Env) (name : Text) (v : Value) :
    Follows J n₀ (envSet env name v : Prog ω Bool) := by
  refine Exec.TripleWhile.seq (fun found s => Ready J n₀ s ∧ found = s.heap.envFind env name)
    ?_ fun found => ?_
  · exact Exec.triple_read fun s hs => ⟨hs, rfl⟩
  · cases found with
    | none => exact Exec.triple_pure fun s hs => hs.1
    | some p =>
      obtain ⟨f, i, e⟩ := p
      refine Exec.triple_ite (fun _ => Exec.triple_pure fun s hs => hs.1) fun hfixed => ?_
      refine Exec.TripleWhile.seq (fun _ => Ready J n₀) ?_ fun _ => follows_pure _
      refine Exec.triple_act fun s hs => ⟨⟨⟨?_, trivial⟩, hs.1.2⟩, ?_, hs.1.2⟩
      · exact .setVar f i v e (Heap.envFind_spec hs.2.symm).2.1 (Bool.eq_false_iff.mpr hfixed)
      · show n₀ ≤ (s.heap.frames.modify f _).length
        rw [List.length_modify]
        exact hs.1.1

theorem follows_alloc (size : Heap → ℕ) {f : Heap → Heap} (h : ∀ h : Heap, h.Grows (f h))
    (hadds : ∀ h : Heap, h.AddsLists (f h)) : Follows J n₀ (alloc size f : Prog ω ℕ) := by
  refine (follows_read _).bind fun _ => Follows.bind ?_ fun _ => follows_pure _
  refine follows_act (fun s => .alloc _ (h s.heap) (hadds s.heap)) trivial (fun s => ?_)
    fun _ hs => hs
  rw [show ({ s with heap := f s.heap } : Machine ω).heap.frames = s.heap.frames from
    (h s.heap).frames]

/-- A step that touches neither frames nor the error state. -/
theorem follows_onHeap {a : Act} {f : Heap → Heap}
    (hdoes : ∀ s : Machine ω, a.Does s { s with heap := f s.heap }) (hwithin : a.Within n₀)
    (hframes : ∀ h, (f h).frames.length = h.frames.length) :
    Follows J n₀ (onHeap a f : Prog ω Unit) :=
  follows_act hdoes hwithin (fun s => Nat.le_of_eq (hframes s.heap).symm) fun _ hs => hs

theorem follows_valueDataSet (d : ℕ) (key : Text) (v : Value) :
    Follows J n₀ (valueDataSet d key v : Prog ω Unit) :=
  follows_onHeap (fun _ => .setData d key v) trivial fun _ => rfl

theorem follows_setItem (p : ℕ) (v : Value) :
    Follows J n₀ (onHeap (.setItem p) fun h => h.setItem p v : Prog ω Unit) :=
  follows_onHeap (fun _ => .setItem p v) trivial fun _ => rfl

theorem follows_setNative (p : ℕ) (native : Native) :
    Follows J n₀ (setNative p native : Prog ω Unit) :=
  follows_onHeap (fun _ => .setNative p native) trivial fun _ => rfl

/-! ### Lists -/

/-- Only lists and their nodes differ. -/
def Heap.OnLists (h h' : Heap) : Prop :=
  ∃ lists nodes, h' = { h with lists := lists, nodes := nodes }

theorem Heap.onLists_setNext (h : Heap) (p : ℕ) (q : Option ℕ) : h.OnLists (h.setNext p q) :=
  ⟨h.lists, _, rfl⟩

theorem Heap.onLists_setHead (h : Heap) (l : ℕ) (p : Option ℕ) : h.OnLists (h.setHead l p) :=
  ⟨_, h.nodes, rfl⟩

theorem Heap.OnLists.trans {h h' h'' : Heap} (h₁ : h.OnLists h') (h₂ : h'.OnLists h'') :
    h.OnLists h'' := by
  obtain ⟨lists, nodes, rfl⟩ := h₁
  obtain ⟨lists', nodes', rfl⟩ := h₂
  exact ⟨lists', nodes', rfl⟩

theorem Heap.onLists_listAppend {h h' : Heap} {n l : ℕ} {item : Value}
    (happend : h.listAppend n l item = some h') : h.OnLists h' := by
  have hnode : h.OnLists (h.newNode item none) := ⟨h.lists, _, rfl⟩
  unfold listAppend at happend
  split at happend
  · obtain rfl := Option.some.inj happend
    exact hnode.trans (onLists_setHead _ _ _)
  · obtain ⟨last, -, rfl⟩ := Option.map_eq_some_iff.mp happend
    exact hnode.trans (onLists_setNext _ _ _)

theorem Heap.onLists_listDelete {h h' : Heap} {l : ℕ} {idx : ℤ} {n : ℕ} {prev cur : Option ℕ}
    {i : ℤ} (hdelete : h.listDelete l idx n prev cur i = some h') : h.OnLists h' := by
  induction n generalizing prev cur i with
  | zero =>
    cases cur with
    | none =>
      obtain rfl := Option.some.inj hdelete
      exact ⟨h.lists, h.nodes, rfl⟩
    | some p => cases hdelete
  | succ n ih =>
    cases cur with
    | none =>
      obtain rfl := Option.some.inj hdelete
      exact ⟨h.lists, h.nodes, rfl⟩
    | some p =>
      rw [listDelete] at hdelete
      split at hdelete
      · cases hdelete
      · next node hnode =>
        split_ifs at hdelete with hi
        · obtain rfl := Option.some.inj hdelete
          have hfree : ∀ g : Heap, g.OnLists (g.freeNode p) := fun g => ⟨g.lists, _, rfl⟩
          cases prev with
          | none => exact (onLists_setHead _ _ _).trans (hfree _)
          | some q => exact (onLists_setNext _ _ _).trans (hfree _)
        · exact ih hdelete

theorem Heap.Edits.onLists {h h' : Heap} {l : ℕ} (hedit : h.Edits l h') : h.OnLists h' := by
  cases hedit with
  | append item happend => exact onLists_listAppend happend
  | insertFront item => exact ⟨_, _, rfl⟩
  | delete idx hdelete => exact onLists_listDelete hdelete
  | setItems items => exact ⟨_, _, rfl⟩

theorem Heap.Edits.frames {h h' : Heap} {l : ℕ} (hedit : h.Edits l h') :
    h'.frames = h.frames := by
  obtain ⟨lists, nodes, rfl⟩ := hedit.onLists
  rfl

theorem follows_edit {l : ℕ} {f : Heap → Heap} (hf : ∀ h : Heap, h.Edits l (f h)) :
    Follows J n₀ (onHeap (.setList l) f : Prog ω Unit) :=
  follows_onHeap (fun s => .setList l _ (hf s.heap)) trivial fun h => by rw [(hf h).frames]

theorem follows_editSome {l : ℕ} {f : Heap → Option Heap}
    (hf : ∀ h h' : Heap, f h = some h' → h.Edits l h') :
    Follows J n₀ (onHeapSome (.setList l) f : Prog ω Unit) := by
  refine Exec.triple_actSome fun s s' hs heq => ?_
  obtain ⟨h', hh', rfl⟩ := Option.map_eq_some_iff.mp heq
  have hedit := hf s.heap h' hh'
  have hframes : n₀ ≤ h'.frames.length := hedit.frames ▸ hs.1
  exact ⟨⟨⟨.setList l h' hedit, trivial⟩, hs.2⟩, hframes, hs.2⟩

theorem follows_valueListAppend (l : ℕ) (item : Value) :
    Follows J n₀ (valueListAppend l item : Prog ω Unit) :=
  follows_editSome fun _ _ => .append item

theorem follows_valueListInsertFront (l : ℕ) (item : Value) :
    Follows J n₀ (valueListInsertFront l item : Prog ω Unit) :=
  follows_edit fun _ => .insertFront item

theorem follows_listDeleteAt (l : ℕ) (idx : ℤ) : Follows J n₀ (listDeleteAt l idx : Prog ω Unit) :=
  follows_editSome fun _ _ => .delete idx

theorem follows_setItems (l : ℕ) (items : List Value) :
    Follows J n₀ (setItems l items : Prog ω Unit) :=
  follows_edit fun _ => .setItems items

theorem follows_nextNode (p : ℕ) : Follows J n₀ (nextNode p : Prog ω (Option ℕ)) :=
  (follows_act (fun _ => .advance p) trivial (fun _ => Nat.le_refl _) fun _ hs => hs).bind
    fun _ => follows_readSome _

/-! ### Allocation -/

theorem Heap.Grows.refl (h : Heap) : h.Grows h :=
  ⟨rfl, List.prefix_rfl, List.prefix_rfl, List.prefix_rfl, List.prefix_rfl, rfl,
    List.prefix_rfl, List.prefix_rfl⟩

theorem Heap.Grows.trans {h h' h'' : Heap} (h₁ : h.Grows h') (h₂ : h'.Grows h'') : h.Grows h'' where
  frames := h₂.frames.trans h₁.frames
  lists := h₁.lists.trans h₂.lists
  nodes := h₁.nodes.trans h₂.nodes
  datas := h₁.datas.trans h₂.datas
  funcs := h₁.funcs.trans h₂.funcs
  classes := h₂.classes.trans h₁.classes
  instances := h₁.instances.trans h₂.instances
  natives := h₁.natives.trans h₂.natives

theorem Heap.grows_addList (h : Heap) (items : List Value) : h.Grows (h.addList items) := by
  refine { Heap.Grows.refl h with lists := ?_, nodes := List.prefix_append _ _ }
  show h.lists <+: (h.lists ++ [none]).set h.lists.length _
  rw [List.set_append_right _ _ (Nat.le_refl _)]
  exact List.prefix_append _ _

theorem Heap.grows_addData (h : Heap) (entries : DataList Value) : h.Grows (h.addData entries) :=
  { Heap.Grows.refl h with datas := List.prefix_append _ _ }

theorem Heap.AddsLists.trans {h h' h'' : Heap} (h₁ : h.AddsLists h') (h₂ : h'.AddsLists h'') :
    h.AddsLists h'' := by
  induction h₂ with
  | refl => exact h₁
  | add items _ ih => exact ih.add items
  | other _ hlists hnodes ih => exact ih.other hlists hnodes

mutual

theorem Heap.grows_ofJson (h : Heap) (v : JsonVal) : h.Grows (h.ofJson v).1 := by
  cases v with
  | list items =>
    unfold Heap.ofJson
    exact (Heap.grows_ofJsonItems h items).trans (Heap.grows_addList _ _)
  | data entries =>
    unfold Heap.ofJson
    exact (Heap.grows_ofJsonEntries h entries).trans (Heap.grows_addData _ _)
  | _ =>
    unfold Heap.ofJson
    exact Heap.Grows.refl h

theorem Heap.grows_ofJsonItems (h : Heap) (vs : List JsonVal) : h.Grows (h.ofJsonItems vs).1 := by
  cases vs with
  | nil => exact Heap.Grows.refl h
  | cons v vs =>
    unfold Heap.ofJsonItems
    exact (Heap.grows_ofJson h v).trans (Heap.grows_ofJsonItems _ vs)

theorem Heap.grows_ofJsonEntries (h : Heap) (es : List (Text × JsonVal)) :
    h.Grows (h.ofJsonEntries es).1 := by
  cases es with
  | nil => exact Heap.Grows.refl h
  | cons e es =>
    obtain ⟨k, v⟩ := e
    unfold Heap.ofJsonEntries
    exact (Heap.grows_ofJson h v).trans (Heap.grows_ofJsonEntries _ es)

end

mutual

theorem Heap.addsLists_ofJson (h : Heap) (v : JsonVal) : h.AddsLists (h.ofJson v).1 := by
  cases v with
  | list items =>
    unfold Heap.ofJson
    exact (Heap.addsLists_ofJsonItems h items).add _
  | data entries =>
    unfold Heap.ofJson
    exact (Heap.addsLists_ofJsonEntries h entries).other rfl rfl
  | _ =>
    unfold Heap.ofJson
    exact .refl

theorem Heap.addsLists_ofJsonItems (h : Heap) (vs : List JsonVal) :
    h.AddsLists (h.ofJsonItems vs).1 := by
  cases vs with
  | nil => exact .refl
  | cons v vs =>
    unfold Heap.ofJsonItems
    exact (Heap.addsLists_ofJson h v).trans (Heap.addsLists_ofJsonItems _ vs)

theorem Heap.addsLists_ofJsonEntries (h : Heap) (es : List (Text × JsonVal)) :
    h.AddsLists (h.ofJsonEntries es).1 := by
  cases es with
  | nil => exact .refl
  | cons e es =>
    obtain ⟨k, v⟩ := e
    unfold Heap.ofJsonEntries
    exact (Heap.addsLists_ofJson h v).trans (Heap.addsLists_ofJsonEntries _ es)

end

theorem follows_newList (items : List Value) : Follows J n₀ (newList items : Prog ω ℕ) :=
  follows_alloc _ (fun h => h.grows_addList items) fun _ => .add items .refl

theorem follows_newData (entries : DataList Value) : Follows J n₀ (newData entries : Prog ω ℕ) :=
  follows_alloc _ (fun h => h.grows_addData entries) fun _ => .other .refl rfl rfl

theorem follows_newFunc (fv : FuncValue) : Follows J n₀ (newFunc fv : Prog ω ℕ) :=
  follows_alloc _ (fun h => { Heap.Grows.refl h with funcs := List.prefix_append _ _ })
    fun _ => .other .refl rfl rfl

theorem follows_newInstance (inst : Instance) : Follows J n₀ (newInstance inst : Prog ω ℕ) :=
  follows_alloc _ (fun h => { Heap.Grows.refl h with instances := List.prefix_append _ _ })
    fun _ => .other .refl rfl rfl

theorem follows_newNative (native : Native) : Follows J n₀ (newNative native : Prog ω ℕ) :=
  follows_alloc _ (fun h => { Heap.Grows.refl h with natives := List.prefix_append _ _ })
    fun _ => .other .refl rfl rfl

theorem follows_taskDone (result : Value) : Follows J n₀ (taskDone result : Prog ω Value) :=
  (follows_newNative _).bind fun _ => follows_pure _

theorem follows_taskError (message : Text) : Follows J n₀ (taskError message : Prog ω Value) :=
  (follows_newNative _).bind fun _ => follows_pure _

theorem follows_jsonParseText (text : Text) : Follows J n₀ (jsonParseText text : Prog ω Value) := by
  refine (follows_readSome _).bind fun json => (follows_read _).bind fun v => ?_
  refine Follows.bind ?_ fun _ => follows_pure _
  exact follows_onHeap
    (fun s => .alloc _ (s.heap.grows_ofJson json) (s.heap.addsLists_ofJson json)) trivial
    fun h => by rw [(h.grows_ofJson json).frames]

/-! ### What calls no program code -/

theorem follows_bindParams {env : Env} (h : Own n₀ env) (params : List Param) (argv : List Value) :
    Follows J n₀ (bindParams params argv env : Prog ω Unit) := by
  induction params generalizing argv with
  | nil => exact follows_pure _
  | cons p params ih => exact (follows_envDefine h _ _ _).bind fun _ => ih argv.tail

theorem follows_evalBinary [Host ω] (n : ℕ) (op : TokenType) (l r : Value) (line : ℕ) :
    Follows J n₀ (evalBinary n op l r line : Prog ω Value) := by
  unfold evalBinary
  refine follows_ite ?_ ?_
  · exact (follows_readSome _).bind fun _ => (follows_readSome _).bind fun _ => follows_pure _
  · have hboth : ∀ f : Bool → Bool → Value,
        Follows J n₀ (do
          let lt ← truthy l
          let rt ← truthy r
          pure (f lt rt) : Prog ω Value) := fun f =>
      (follows_read _).bind fun _ => (follows_read _).bind fun _ => follows_pure _
    split
    · exact follows_pure _
    · exact follows_pure _
    · exact hboth fun lt rt => .bool (lt && rt)
    · exact hboth fun lt rt => .bool (lt || rt)
    · refine follows_ite follows_giveUp ?_
      split
      · exact follows_pure _
      · exact follows_fail _ _

theorem follows_httpResponseCallMethod (n d : ℕ) (method : Text) (argv : List Value) :
    Follows J n₀ (httpResponseCallMethod n d method argv : Prog ω (Option Value)) := by
  have hset : ∀ key v, Follows J n₀ (do
      valueDataSet d key v
      pure (some (.data d)) : Prog ω (Option Value)) := fun key v =>
    (follows_valueDataSet _ _ _).bind fun _ => follows_pure _
  unfold httpResponseCallMethod
  refine follows_ite ?_ (follows_ite ?_ (follows_ite ?_ (follows_ite ?_ (follows_pure _))))
  · exact (follows_readSome _).bind fun s => hset _ _
  · refine Follows.bind ?_ fun s => (follows_valueDataSet _ _ _).bind fun _ =>
      (follows_readSome _).bind fun headers => (follows_valueDataSet _ _ _).bind fun _ => follows_pure _
    cases argv with
    | nil => exact follows_pure _
    | cons v argv => exact follows_readSome _
  · exact hset _ _
  · split
    · exact (follows_readSome _).bind fun headers => (follows_readSome _).bind fun s =>
        (follows_valueDataSet _ _ _).bind fun _ => follows_pure _
    · exact follows_pure _

theorem follows_doRequest [Host ω] (method url : Text) (body : Option Text) :
    Follows J n₀ (doRequest method url body : Prog ω Value) := by
  refine (follows_fromWorld _).bind fun reply => ?_
  cases reply with
  | error message => exact follows_taskError _
  | ok reply => exact (follows_newData _).bind fun _ => (follows_newData _).bind fun _ => follows_taskDone _

theorem follows_wsConnCallMethod [Host ω] (n p : ℕ) (fd : ℤ) (onMessage onClose : Option Value)
    (closed : Bool) (method : Text) (argv : List Value) :
    Follows J n₀ (wsConnCallMethod n p fd onMessage onClose closed method argv :
      Prog ω (Option Value)) := by
  unfold wsConnCallMethod
  refine follows_ite ?_ (follows_ite ?_ (follows_ite ?_ (follows_pure _)))
  · split
    · refine follows_ite ?_ (follows_ite ?_ (follows_pure _))
      · exact (follows_setNative _ _).bind fun _ => follows_pure _
      · exact (follows_setNative _ _).bind fun _ => follows_pure _
    · exact follows_pure _
  · split
    · exact follows_ite (follows_pure _)
        ((follows_readSome _).bind fun _ => (follows_onWorld _).bind fun _ => follows_pure _)
    · exact follows_pure _
  · exact follows_ite (follows_pure _)
      ((follows_onWorld _).bind fun _ => (follows_setNative _ _).bind fun _ => follows_pure _)

end Single

/-! ### Hoisting -/

/-- An entry more in one frame, if that frame is there. -/
theorem Heap.frame_define_or (h : Heap) (f : ℕ) (e : EnvEntry) (g : ℕ) :
    (h.define f e).frame g = h.frame g ∨ g = f ∧ (h.define f e).frame g = e :: h.frame g := by
  show (h.frames.modify f (e :: ·)).getD g [] = h.frames.getD g [] ∨
    g = f ∧ (h.frames.modify f (e :: ·)).getD g [] = e :: h.frames.getD g []
  rw [List.getD_eq_getElem?_getD, List.getD_eq_getElem?_getD, List.getElem?_modify]
  cases h.frames[g]? with
  | none => exact .inl rfl
  | some es =>
    by_cases hg : f = g
    · exact .inr ⟨hg.symm, by simp [hg]⟩
    · exact .inl (by simp [hg])

/-- Only entries in the innermost frame of `env`, functions and classes are new. -/
structure Heap.Hoists (env : Env) (h h' : Heap) : Prop where
  outer : ∀ g, env.head? ≠ some g → h'.frame g = h.frame g
  entries : ∀ g, h.frame g <:+ h'.frame g
  length : h'.frames.length = h.frames.length
  lists : h'.lists = h.lists
  nodes : h'.nodes = h.nodes
  datas : h'.datas = h.datas
  instances : h'.instances = h.instances
  natives : h'.natives = h.natives

theorem Heap.Hoists.refl (env : Env) (h : Heap) : h.Hoists env h :=
  ⟨fun _ _ => rfl, fun _ => List.suffix_rfl, rfl, rfl, rfl, rfl, rfl, rfl⟩

theorem Heap.Hoists.trans {env : Env} {h h' h'' : Heap} (h₁ : h.Hoists env h')
    (h₂ : h'.Hoists env h'') : h.Hoists env h'' where
  outer g hg := (h₂.outer g hg).trans (h₁.outer g hg)
  entries g := (h₁.entries g).trans (h₂.entries g)
  length := h₂.length.trans h₁.length
  lists := h₂.lists.trans h₁.lists
  nodes := h₂.nodes.trans h₁.nodes
  datas := h₂.datas.trans h₁.datas
  instances := h₂.instances.trans h₁.instances
  natives := h₂.natives.trans h₁.natives

theorem Heap.hoists_envDefine (h : Heap) (env : Env) (name : Text) (v : Value) (isFixed : Bool) :
    h.Hoists env (h.envDefine env name v isFixed) := by
  cases env with
  | nil => exact Heap.Hoists.refl _ _
  | cons f rest =>
    have hframe := fun g => h.frame_define_or f ⟨name, v, isFixed⟩ g
    refine ⟨fun g hg => ?_, fun g => ?_, List.length_modify _ _ _, rfl, rfl, rfl, rfl, rfl⟩
    · rcases hframe g with heq | ⟨rfl, -⟩
      · exact heq
      · exact absurd rfl hg
    · rcases hframe g with heq | ⟨-, heq⟩
      · exact heq ▸ List.suffix_rfl
      · exact heq ▸ List.suffix_cons _ _

theorem Heap.hoists_foldl {env : Env} {step : Heap → Stmt → Heap}
    (hstep : ∀ h s, Heap.Hoists env h (step h s)) (list : List Stmt) (h : Heap) :
    h.Hoists env (list.foldl step h) := by
  induction list generalizing h with
  | nil => exact Heap.Hoists.refl _ _
  | cons s list ih => exact (hstep h s).trans (ih (step h s))

/-- **What hoisting does.** -/
theorem Heap.hoists_hoist (h : Heap) (list : List Stmt) (env : Env) :
    h.Hoists env (h.hoistClasses list env |>.hoistFunctions list env) := by
  refine ((hoists_foldl ?_ list h).trans (hoists_foldl ?_ list _)).trans (hoists_foldl ?_ list _)
  · intro h s
    unfold hoistClass
    split
    · exact { Heap.hoists_envDefine _ _ _ _ _ with }
    · exact Heap.Hoists.refl _ _
  · intro h s
    unfold linkClass
    split
    · split
      · exact { Heap.Hoists.refl env h with }
      · exact Heap.Hoists.refl _ _
    · exact Heap.Hoists.refl _ _
  · intro h s
    unfold hoistFunction
    split
    · exact { Heap.hoists_envDefine _ _ _ _ _ with }
    · exact Heap.Hoists.refl _ _

/-! ### The interpreter -/

/-- The calls one level down do allowed steps, in environments of the run's own. -/
structure Evaluator.Follows {ω : Type} (J : Interp → Prop) (n₀ : ℕ) (R : Evaluator ω) : Prop where
  evalExpr : ∀ e env, Own n₀ env → Jaguar.Follows J n₀ (R.evalExpr e env)
  execStmt : ∀ s env, Own n₀ env → Jaguar.Follows J n₀ (R.execStmt s env)

section Interp

variable {ω : Type} {J : Interp → Prop} [ErrorRule J] {n₀ : ℕ} {R : Evaluator ω}
  (hR : R.Follows J n₀) (n : ℕ) {env : Env}

include hR

theorem execStmts_follows (list : List Stmt) (henv : Own n₀ env) :
    Follows J n₀ (execStmts R list env) := by
  induction list with
  | nil => exact follows_pure _
  | cons s rest ih =>
    refine (hR.execStmt s env henv).bind fun r => ?_
    cases r with
    | ret v => exact follows_pure _
    | none => exact follows_unlessError ih

omit hR in
theorem follows_hoist (list : List Stmt) (henv : Own n₀ env) :
    Follows J n₀ (hoist list env : Prog ω Unit) :=
  follows_onHeap (fun _ => .hoist env list) henv fun h => (h.hoists_hoist list env).length

/-- **A block.** -/
theorem execBlock_follows (list : List Stmt) (parentEnv : Env) :
    Follows J n₀ (execBlock R list parentEnv) :=
  follows_envNew_bind parentEnv fun _ henv =>
    (follows_hoist list henv).bind fun _ => execStmts_follows hR list henv

theorem evalArgs_follows (args : List Expr) (henv : Own n₀ env) :
    Follows J n₀ (evalArgs R args env) := by
  induction args with
  | nil => exact follows_pure _
  | cons a args ih =>
    exact (hR.evalExpr a env henv).bind fun v => ih.bind fun vs => follows_pure _

theorem argOr_follows {dflt : Prog ω Value} (hdflt : Follows J n₀ dflt) (args : List Expr)
    (henv : Own n₀ env) : Follows J n₀ (argOr R dflt args env) := by
  cases args with
  | nil => exact hdflt
  | cons a args => exact hR.evalExpr a env henv

theorem bindArgs_follows {callEnv : Env} (hcall : Own n₀ callEnv) (henv : Own n₀ env)
    (params : List Param) (args : List Expr) :
    Follows J n₀ (bindArgs R params args env callEnv) := by
  induction params generalizing args with
  | nil => exact follows_pure _
  | cons p params ih =>
    exact (argOr_follows hR (follows_pure _) args henv).bind fun v =>
      (follows_envDefine hcall _ _ _).bind fun _ => ih args.tail

theorem callValue_follows (callee : Value) (args : List Expr) (henv : Own n₀ env) (line : ℕ) :
    Follows J n₀ (callValue R callee args env line) := by
  unfold callValue
  split
  · refine (follows_readSome _).bind fun fv => follows_envNew_bind fv.closure fun callEnv hcall => ?_
    exact (bindArgs_follows hR hcall henv _ _).bind fun _ =>
      (execBlock_follows hR _ _).bind fun r => follows_pure _
  · exact follows_fail _ _

/-- **A callback.** -/
theorem invokeRooted_follows {root : FuncValue → Prog ω Env} (hroot : ∀ fv, Follows J n₀ (root fv))
    (callee : Value) (argv : List Value) : Follows J n₀ (invokeRooted R root callee argv) := by
  unfold invokeRooted
  split
  · refine (follows_readSome _).bind fun fv => (hroot fv).bind fun parent => ?_
    refine follows_envNew_bind parent fun callEnv hcall => ?_
    exact (follows_bindParams hcall _ _).bind fun _ =>
      (execBlock_follows hR _ _).bind fun r => follows_pure _
  · exact follows_fail _ _

theorem interpInvoke_follows (callee : Value) (argv : List Value) :
    Follows J n₀ (interpInvoke R callee argv) :=
  invokeRooted_follows hR (fun _ => follows_read _) callee argv

theorem interpInvokeClosure_follows (callee : Value) (argv : List Value) :
    Follows J n₀ (interpInvokeClosure R callee argv) :=
  invokeRooted_follows hR (fun _ => follows_pure _) callee argv

/-! ### Classes -/

theorem evalInit_follows (init : Option Expr) (henv : Own n₀ env) :
    Follows J n₀ (evalInit R.evalExpr init env) := by
  cases init with
  | none => exact follows_pure _
  | some e => exact hR.evalExpr e env henv

theorem initFields_follows (members : List Stmt) (henv : Own n₀ env) (fields : ℕ) :
    Follows J n₀ (initFields R.evalExpr members env fields) := by
  induction members with
  | nil => exact follows_pure _
  | cons s members ih =>
    unfold initFields
    split
    · next heq => cases heq
    · next heq =>
      obtain ⟨rfl, rfl⟩ := List.cons.inj heq
      exact (evalInit_follows hR _ henv).bind fun v => (follows_valueDataSet _ _ _).bind fun _ => ih
    · next heq =>
      obtain ⟨-, rfl⟩ := List.cons.inj heq
      exact ih

theorem initFieldsRecursive_follows (c fields : ℕ) :
    Follows J n₀ (initFieldsRecursive R.evalExpr n c fields) := by
  induction n generalizing c with
  | zero => exact follows_giveUp
  | succ n ih =>
    refine (follows_readSome _).bind fun ci => Follows.bind ?_ fun _ =>
      follows_envNew_bind ci.closure fun _ henv => initFields_follows hR _ henv _
    split
    · exact ih _
    · exact follows_pure _

omit hR in
theorem bindSuper_follows (parent : Option ℕ) (this : Value) {callEnv : Env}
    (hcall : Own n₀ callEnv) : Follows J n₀ (bindSuper parent this callEnv : Prog ω Unit) := by
  cases parent with
  | none => exact follows_pure _
  | some p => exact (follows_newNative _).bind fun _ => follows_envDefine hcall _ _ _

theorem invokeMethod_follows (definingClass : ℕ) (method : Stmt) (this : Value)
    (argv : List Value) : Follows J n₀ (invokeMethod R definingClass method this argv) := by
  refine (follows_readSome _).bind fun ci => follows_envNew_bind ci.closure fun callEnv hcall => ?_
  refine (follows_envDefine hcall _ _ _).bind fun _ => (bindSuper_follows _ _ hcall).bind fun _ => ?_
  exact (follows_bindParams hcall _ _).bind fun _ =>
    (execBlock_follows hR _ _).bind fun r => follows_pure _

theorem constructInstance_follows (c : ℕ) (args : List Expr) (henv : Own n₀ env) :
    Follows J n₀ (constructInstance R n c args env) := by
  refine (follows_newData _).bind fun fields => (initFieldsRecursive_follows hR n c _).bind fun _ => ?_
  refine (follows_newInstance _).bind fun i => (follows_readSome _).bind fun ctor => ?_
  cases ctor with
  | none => exact follows_pure _
  | some p =>
    exact (evalArgs_follows hR args henv).bind fun argv =>
      (invokeMethod_follows hR _ _ _ _).bind fun _ => follows_pure _

/-! ### Lists -/

omit hR in
theorem concatFrom_follows (l : ℕ) (cur : Option ℕ) :
    Follows J n₀ (concatFrom l n cur : Prog ω Unit) := by
  induction n generalizing cur with
  | zero =>
    cases cur with
    | none => exact follows_pure _
    | some p => exact follows_giveUp
  | succ n ih =>
    cases cur with
    | none => exact follows_pure _
    | some p =>
      exact (follows_readSome _).bind fun node => (follows_valueListAppend _ _).bind fun _ =>
        (follows_readSome _).bind fun node => ih node.next

omit hR in
/-- A table of programs. -/
theorem follows_cons {α : Type} {p : Text × Prog ω α} {table : List (Text × Prog ω α)}
    (hp : Follows J n₀ p.2) (h : ∀ q ∈ table, Follows J n₀ q.2) : ∀ q ∈ p :: table, Follows J n₀ q.2 :=
  List.forall_mem_cons.mpr ⟨hp, h⟩

omit hR in
/-- One of two tables. -/
theorem follows_table {α : Type} {c : Prop} [Decidable c] {table table' : List (Text × Prog ω α)}
    (h : ∀ q ∈ table, Follows J n₀ q.2) (h' : ∀ q ∈ table', Follows J n₀ q.2) :
    ∀ q ∈ if c then table else table', Follows J n₀ q.2 := by
  split
  · exact h
  · exact h'

omit hR in
/-- What is found in a table stands in it. -/
theorem mem_of_lookup {α : Type} {name : Text} {table : List (Text × α)} {m : α}
    (h : table.lookup name = some m) : ∃ p ∈ table, p.2 = m := by
  induction table with
  | nil => cases h
  | cons p table ih =>
    obtain ⟨k, m'⟩ := p
    rw [List.lookup_cons] at h
    split at h
    · exact ⟨(k, m'), List.mem_cons_self, Option.some.inj h⟩
    · obtain ⟨q, hq, hm⟩ := ih h
      exact ⟨q, List.mem_cons_of_mem _ hq, hm⟩

theorem listMethods_follows (l : ℕ) (args : List Expr) (henv : Own n₀ env) :
    ∀ p ∈ listMethods R n l args env, Follows J n₀ p.2 := by
  have hsort : Follows J n₀ (do
      let items ← listItems l
      setItems l (sortItems items.length items) : Prog ω Unit) :=
    (follows_readSome _).bind fun items => follows_setItems l _
  cases args with
  | nil =>
    have hpure : Follows J n₀ (pure () : Prog ω Unit) := follows_pure _
    exact follows_cons hpure (follows_cons hpure (follows_cons hpure (follows_cons hsort
      (follows_cons hpure nofun))))
  | cons a args =>
    have harg := hR.evalExpr a env henv
    refine follows_cons (harg.bind fun v => follows_valueListAppend l v) ?_
    refine follows_cons (harg.bind fun v => follows_valueListInsertFront l v) ?_
    refine follows_cons (harg.bind fun v => follows_listDeleteAt l _) ?_
    refine follows_cons hsort (follows_cons (harg.bind fun other => ?_) nofun)
    split
    · exact (follows_read _).bind fun head => concatFrom_follows n l head
    · exact follows_pure _

theorem callListMethod_follows (l : ℕ) (name : Text) (args : List Expr) (henv : Own n₀ env)
    (line : ℕ) : Follows J n₀ (callListMethod R n l name args env line) := by
  unfold callListMethod
  split
  · next m hm =>
    obtain ⟨p, hp, rfl⟩ := mem_of_lookup hm
    exact (listMethods_follows hR n l args henv p hp).bind fun _ => follows_pure _
  · exact follows_fail _ _

/-! ### Workers -/

variable [Host ω]

omit hR in
theorem yieldLock_follows : Follows J n₀ (yieldLock : Prog ω Unit) :=
  (follows_fromWorld _).bind fun _ => follows_ite (follows_pure _) follows_giveUp

theorem runWorker_follows (p : ℕ) (w : Worker) : Follows J n₀ (runWorker R p w) :=
  (interpInvoke_follows hR _ _).bind fun _ => (follows_fromWorld _).bind fun _ =>
    (follows_setNative _ _).bind fun _ => follows_pure _

theorem workerSpawnFunc_follows (fn : Option Value) : Follows J n₀ (workerSpawnFunc R fn) := by
  refine (follows_newNative _).bind fun p => (follows_fromWorld _).bind fun now => follows_ite ?_ ?_
  · exact (runWorker_follows hR _ _).bind fun _ => follows_pure _
  · exact follows_pure _

omit hR [Host ω] in
theorem tagThread_follows (result : Value) (threadId : ℤ) :
    Follows J n₀ (tagThread result threadId : Prog ω Unit) := by
  unfold tagThread
  split
  · exact follows_valueDataSet _ _ _
  · exact follows_pure _

theorem workerResult_follows (p : ℕ) (w : Worker) : Follows J n₀ (workerResult R p w) := by
  unfold workerResult
  split
  · exact follows_pure _
  · exact yieldLock_follows.bind fun _ => runWorker_follows hR _ _

theorem workerHandleJoin_follows (p : ℕ) (w : Worker) : Follows J n₀ (workerHandleJoin R p w) :=
  (workerResult_follows hR p w).bind fun _ => (follows_readSome _).bind fun _ =>
    (tagThread_follows _ _).bind fun _ => follows_pure _

omit hR in
theorem workerRunFile_follows (path : Text) : Follows J n₀ (workerRunFile path : Prog ω Value) :=
  yieldLock_follows.bind fun _ => (follows_onWorld _).bind fun _ => (follows_fromWorld _).bind fun _ =>
    (follows_newData _).bind fun _ => follows_pure _

theorem runJob_follows (p : ℕ) : Follows J n₀ (runJob R p) := by
  refine (follows_readSome _).bind fun pool => (follows_fromWorld _).bind fun i => ?_
  refine (follows_readSome _).bind fun job => (follows_setNative _ _).bind fun _ => ?_
  refine (interpInvoke_follows hR _ _).bind fun result => (follows_fromWorld _).bind fun _ => ?_
  exact (tagThread_follows _ _).bind fun _ => (follows_readSome _).bind fun _ => follows_setNative _ _

theorem workerPoolSubmit_follows (p : ℕ) (fn : Value) : Follows J n₀ (workerPoolSubmit R p fn) :=
  (follows_readSome _).bind fun _ => (follows_setNative _ _).bind fun _ =>
    (follows_fromWorld _).bind fun _ => follows_ite (runJob_follows hR p) (follows_pure _)

theorem runJobs_follows (p : ℕ) : Follows J n₀ (runJobs R p n) := by
  induction n with
  | zero => exact follows_giveUp
  | succ n ih =>
    refine (follows_readSome _).bind fun pool => follows_ite (follows_pure _) ?_
    exact yieldLock_follows.bind fun _ => (runJob_follows hR p).bind fun _ => ih

theorem workerPoolWaitAll_follows (p : ℕ) : Follows J n₀ (workerPoolWaitAll R n p) :=
  (runJobs_follows hR n p).bind fun _ => (follows_readSome _).bind fun _ =>
    (follows_newList _).bind fun _ => (follows_setNative _ _).bind fun _ => follows_pure _

/-! ### Built-in namespaces -/

theorem liveDeg_follows (expect : Text) (idx : ℕ) (args : List Expr) (henv : Own n₀ env) :
    Follows J n₀ (liveDeg R expect idx args env) := by
  induction args generalizing idx with
  | nil => exact follows_pure _
  | cons a args ih =>
    exact (hR.evalExpr a env henv).bind fun v => (follows_onWorld _).bind fun _ => ih _

theorem liveTimer_follows (method : Text) (args : List Expr) (henv : Own n₀ env) (line : ℕ) :
    Follows J n₀ (liveTimer R method args env line) := by
  unfold liveTimer
  split
  · exact (hR.evalExpr _ env henv).bind fun _ => (hR.evalExpr _ env henv).bind fun _ =>
      (follows_fromWorld _).bind fun _ => follows_pure _
  · exact follows_fail _ _

omit hR [Host ω] in
theorem thenVoid_follows {m : Prog ω Unit} (h : Follows J n₀ m) : Follows J n₀ (thenVoid m) :=
  h.bind fun _ => follows_pure _

theorem liveBuiltins_follows (args : List Expr) (henv : Own n₀ env) (line : ℕ) :
    ∀ p ∈ liveBuiltins R n args env line, Follows J n₀ p.2 := by
  unfold liveBuiltins
  have htimer := fun method => liveTimer_follows hR method args henv line
  refine follows_cons ?_ (follows_cons ?_ (follows_cons ?_ (follows_cons (htimer _)
    (follows_cons (htimer _) (follows_cons ?_ nofun)))))
  · exact (argOr_follows hR (follows_pure _) args henv).bind fun v => follows_unlessError
      ((follows_readSome _).bind fun _ => (follows_onWorld _).bind fun _ => follows_pure _)
  · refine Follows.bind ?_ fun _ => (follows_fromWorld _).bind fun _ => follows_pure _
    cases args with
    | nil => exact follows_pure _
    | cons a args =>
      exact (hR.evalExpr a env henv).bind fun _ => (follows_readSome _).bind fun _ =>
        follows_onWorld _
  · cases args with
    | nil => exact follows_fail _ _
    | cons a args =>
      exact (hR.evalExpr a env henv).bind fun _ => thenVoid_follows (liveDeg_follows hR _ _ _ henv)
  · cases args with
    | nil => exact follows_pure _
    | cons a args =>
      exact (hR.evalExpr a env henv).bind fun _ => thenVoid_follows (follows_onWorld _)

omit [Host ω] in
theorem jsonBuiltins_follows (args : List Expr) (henv : Own n₀ env) (line : ℕ) :
    ∀ p ∈ jsonBuiltins R n args env line, Follows J n₀ p.2 := by
  unfold jsonBuiltins
  refine follows_cons ?_ (follows_cons ?_ nofun)
  · refine (argOr_follows hR (follows_pure _) args henv).bind fun v => ?_
    split
    · exact follows_jsonParseText _
    · exact follows_fail _ _
  · exact (argOr_follows hR (follows_pure _) args henv).bind fun v =>
      (follows_readSome _).bind fun _ => follows_pure _

theorem envBuiltins_follows (args : List Expr) (henv : Own n₀ env) :
    ∀ p ∈ envBuiltins R args env, Follows J n₀ p.2 := by
  unfold envBuiltins
  refine follows_cons ?_ nofun
  cases args with
  | nil => exact follows_pure _
  | cons a args =>
    refine (hR.evalExpr a env henv).bind fun key => (follows_read _).bind fun val => ?_
    cases val with
    | some val => exact follows_pure _
    | none => exact argOr_follows hR (follows_pure _) args henv

omit hR in
theorem closeFile_follows : Follows J n₀ (closeFile : Prog ω Unit) := by
  refine (follows_read _).bind fun file => ?_
  cases file with
  | some f => exact follows_onWorld _
  | none => exact follows_pure _

theorem fileBuiltins_follows (args : List Expr) (henv : Own n₀ env) (line : ℕ) :
    ∀ p ∈ fileBuiltins R args env line, Follows J n₀ p.2 := by
  unfold fileBuiltins
  refine follows_cons ?_ (follows_cons ?_ (follows_cons (follows_pure _) (follows_cons ?_ nofun)))
  · refine closeFile_follows.bind fun _ => (argOr_follows hR (follows_pure _) args henv).bind fun _ => ?_
    refine (follows_fromWorld _).bind fun file => (follows_setOpenFile _).bind fun _ => ?_
    cases file with
    | none => exact follows_fail _ _
    | some f => exact follows_pure _
  · refine (follows_read _).bind fun file => ?_
    cases file with
    | none => exact (follows_rtError _ _).bind fun _ => follows_pure _
    | some f => exact (follows_read _).bind fun _ => follows_pure _
  · exact closeFile_follows.bind fun _ => (follows_setOpenFile _).bind fun _ => follows_pure _

omit hR in
theorem dirRead_follows : Follows J n₀ (dirRead : Prog ω Value) :=
  (follows_read _).bind fun _ => (follows_read _).bind fun _ => (follows_newList _).bind fun _ =>
    follows_pure _

theorem dirBuiltins_follows (args : List Expr) (henv : Own n₀ env) :
    ∀ p ∈ dirBuiltins R args env, Follows J n₀ p.2 := by
  unfold dirBuiltins
  refine follows_cons ?_ (follows_cons dirRead_follows (follows_cons dirRead_follows
    (follows_cons (follows_pure _) (follows_cons ?_ nofun))))
  · exact (argOr_follows hR (follows_pure _) args henv).bind fun _ =>
      (follows_setOpenDirPath _).bind fun _ => follows_pure _
  · refine (follows_read _).bind fun path => ?_
    cases path with
    | some path => exact thenVoid_follows (follows_onWorld _)
    | none => exact follows_pure _

omit [Host ω] in
theorem taskBuiltins_follows (args : List Expr) (henv : Own n₀ env) :
    ∀ p ∈ taskBuiltins R args env, Follows J n₀ p.2 := by
  unfold taskBuiltins
  have hempty : Follows J n₀ (emptyList : Prog ω Value) :=
    (follows_newList _).bind fun _ => follows_pure _
  exact follows_cons ((argOr_follows hR hempty args henv).bind fun _ => follows_taskDone _) nofun

theorem httpBuiltins_follows (args : List Expr) (henv : Own n₀ env) :
    ∀ p ∈ httpBuiltins R n args env, Follows J n₀ p.2 := by
  unfold httpBuiltins
  refine follows_cons ?_ (follows_cons ?_ nofun)
  · exact (argOr_follows hR (follows_pure _) args henv).bind fun _ => follows_doRequest _ _ _
  · refine (argOr_follows hR (follows_pure _) args henv).bind fun url => ?_
    split
    · exact follows_doRequest _ _ _
    · exact (hR.evalExpr _ env henv).bind fun _ => (follows_readSome _).bind fun _ =>
        follows_doRequest _ _ _

theorem serverBuiltins_follows (args : List Expr) (henv : Own n₀ env) :
    ∀ p ∈ serverBuiltins R args env, Follows J n₀ p.2 := by
  unfold serverBuiltins
  refine follows_cons ?_ (follows_cons ?_ (follows_cons (thenVoid_follows (follows_onWorld _)) nofun))
  · exact (argOr_follows hR (follows_pure _) args henv).bind fun _ => thenVoid_follows (follows_onWorld _)
  · split
    · exact (hR.evalExpr _ env henv).bind fun _ => (hR.evalExpr _ env henv).bind fun _ =>
        (hR.evalExpr _ env henv).bind fun _ => thenVoid_follows (follows_onWorld _)
    · exact follows_pure _

theorem socketBuiltins_follows (args : List Expr) (henv : Own n₀ env) (line : ℕ) :
    ∀ p ∈ socketBuiltins R args env line, Follows J n₀ p.2 := by
  unfold socketBuiltins
  refine follows_cons ?_ (follows_cons ?_ (follows_cons (thenVoid_follows (follows_onWorld _))
    (follows_cons (follows_fail _ _) nofun)))
  · exact (argOr_follows hR (follows_pure _) args henv).bind fun _ => thenVoid_follows (follows_onWorld _)
  · split
    · exact (hR.evalExpr _ env henv).bind fun _ => (hR.evalExpr _ env henv).bind fun _ =>
        thenVoid_follows (follows_onWorld _)
    · exact follows_pure _

theorem workerBuiltins_follows (args : List Expr) (henv : Own n₀ env) :
    ∀ p ∈ workerBuiltins R args env, Follows J n₀ p.2 := by
  unfold workerBuiltins
  refine follows_cons ?_ (follows_cons ?_ (follows_cons ?_ nofun))
  · cases args with
    | nil => exact workerSpawnFunc_follows hR _
    | cons a args => exact (hR.evalExpr a env henv).bind fun _ => workerSpawnFunc_follows hR _
  · split
    · refine (hR.evalExpr _ env henv).bind fun path => (hR.evalExpr _ env henv).bind fun cb => ?_
      exact (workerRunFile_follows _).bind fun _ => (interpInvokeClosure_follows hR _ _).bind fun _ =>
        follows_pure _
    · exact follows_pure _
  · exact (argOr_follows hR (follows_pure _) args henv).bind fun _ =>
      (follows_newNative _).bind fun _ => follows_pure _

theorem builtins_follows (ns : Text) (args : List Expr) (henv : Own n₀ env) (line : ℕ) :
    ∀ p ∈ builtins R n ns args env line, Follows J n₀ p.2 :=
  follows_table (liveBuiltins_follows hR n args henv line) <|
  follows_table (jsonBuiltins_follows hR n args henv line) <|
  follows_table (envBuiltins_follows hR args henv) <|
  follows_table (fileBuiltins_follows hR args henv line) <|
  follows_table (dirBuiltins_follows hR args henv) <|
  follows_table (taskBuiltins_follows hR args henv) <|
  follows_table (httpBuiltins_follows hR n args henv) <|
  follows_table (serverBuiltins_follows hR args henv) <|
  follows_table (socketBuiltins_follows hR args henv line) <|
  follows_table (workerBuiltins_follows hR args henv) nofun

/-- A built-in function. -/
theorem builtinDispatch_follows {ns method : Text} {args : List Expr} (henv : Own n₀ env)
    {line : ℕ} {m : Prog ω Value} (h : builtinDispatch R n ns method args env line = some m) :
    Follows J n₀ m := by
  obtain ⟨p, hp, rfl⟩ := mem_of_lookup h
  exact builtins_follows hR n ns args henv line p hp

/-! ### Methods of native values -/

omit [Host ω] in
theorem thenInvoke_follows (argv : List Value) (v : Value) : Follows J n₀ (thenInvoke R argv v) := by
  unfold thenInvoke
  split
  · exact follows_pure _
  · exact (interpInvokeClosure_follows hR _ _).bind fun _ => follows_pure _

omit [Host ω] in
theorem callTask_follows (p : ℕ) (result : Except Text Value) (name : Text) (argv : List Value)
    (line : ℕ) : Follows J n₀ (callTask R p result name argv line) := by
  unfold callTask
  refine follows_ite ?_ (follows_ite ?_ (follows_ite ?_ (follows_fail _ _)))
  · refine Follows.bind ?_ fun _ => follows_pure _
    split
    · exact thenInvoke_follows hR _ _
    · exact follows_pure _
  · refine Follows.bind ?_ fun _ => follows_pure _
    split
    · exact follows_pure _
    · exact thenInvoke_follows hR _ _
  · split
    · exact follows_pure _
    · exact follows_fail _ _

theorem callWorker_follows (p : ℕ) (w : Worker) (name : Text) (argv : List Value) (line : ℕ) :
    Follows J n₀ (callWorker R p w name argv line) := by
  unfold callWorker
  split
  · exact (workerHandleJoin_follows hR p w).bind fun _ =>
      (interpInvokeClosure_follows hR _ _).bind fun _ => follows_pure _
  · refine follows_ite ?_ (follows_fail _ _)
    exact (workerHandleJoin_follows hR p w).bind fun _ => follows_pure _

theorem callWorkerPool_follows (p : ℕ) (name : Text) (argv : List Value) (line : ℕ) :
    Follows J n₀ (callWorkerPool R n p name argv line) := by
  unfold callWorkerPool
  split
  · refine follows_ite ?_ (follows_ite ?_ (follows_fail _ _))
    · exact thenVoid_follows (workerPoolSubmit_follows hR p _)
    · exact (workerPoolWaitAll_follows hR n p).bind fun _ =>
        (interpInvokeClosure_follows hR _ _).bind fun _ => follows_pure _
  · exact follows_fail _ _

omit hR [Host ω] in
theorem orFail_follows {m : Prog ω (Option Value)} (h : Follows J n₀ m) (line : ℕ) (msg : Text) :
    Follows J n₀ (orFail m line msg) := by
  refine h.bind fun r => ?_
  cases r with
  | some v => exact follows_pure _
  | none => exact follows_fail _ _

omit [Host ω] in
theorem callSuper_follows (parentClass : ℕ) (this : Value) (name : Text) (argv : List Value)
    (line : ℕ) : Follows J n₀ (callSuper R n parentClass this name argv line) := by
  refine (follows_readSome _).bind fun method => ?_
  cases method with
  | some q => exact invokeMethod_follows hR _ _ _ _
  | none => exact follows_fail _ _

theorem callNative_follows (p : ℕ) (name : Text) (args : List Expr) (henv : Own n₀ env)
    (line : ℕ) : Follows J n₀ (callNative R n p name args env line) := by
  refine (evalArgs_follows hR args henv).bind fun argv => (follows_readSome _).bind fun native => ?_
  cases native with
  | task result => exact callTask_follows hR _ _ _ _ _
  | worker w => exact callWorker_follows hR _ _ _ _ _
  | workerPool pool => exact callWorkerPool_follows hR n _ _ _ _
  | socketConn fd onMessage onClose closed =>
    exact orFail_follows (follows_wsConnCallMethod _ _ _ _ _ _ _ _) _ _
  | superRef parentClass this => exact callSuper_follows hR n _ _ _ _ _

/-! ### Assignment -/

omit [Host ω] in
theorem setLvalue_follows (target : Expr) (v : Value) (henv : Own n₀ env) (line : ℕ) :
    Follows J n₀ (setLvalue R target v env line) := by
  unfold setLvalue
  split
  · refine (follows_read _).bind fun bound => follows_ite (follows_pure _) ?_
    refine (follows_read _).bind fun isFixed => follows_ite (follows_rtError _ _) ?_
    exact (follows_envSet _ _ _).bind fun done => follows_ite (follows_pure _) (follows_envDefine henv _ _ _)
  · refine (hR.evalExpr _ env henv).bind fun obj => (hR.evalExpr _ env henv).bind fun idx => ?_
    split
    · refine (follows_readSome _).bind fun node => ?_
      cases node with
      | some p => exact follows_setItem _ _
      | none => exact follows_rtError _ _
    · exact follows_valueDataSet _ _ _
    · exact follows_rtError _ _
  · refine (hR.evalExpr _ env henv).bind fun obj => ?_
    split
    · exact follows_valueDataSet _ _ _
    · exact (follows_readSome _).bind fun _ => follows_valueDataSet _ _ _
    · exact follows_rtError _ _
  · exact follows_rtError _ _

theorem evalAssign_follows (target value : Expr) (op : TokenType) (henv : Own n₀ env) (line : ℕ) :
    Follows J n₀ (evalAssign R n target value op env line) := by
  have hset : ∀ v, Follows J n₀ (do
      setLvalue R target v env line
      pure v : Prog ω Value) := fun v =>
    (setLvalue_follows hR target v henv line).bind fun _ => follows_pure _
  unfold evalAssign
  refine follows_ite ?_ ?_
  · exact (hR.evalExpr _ env henv).bind hset
  · exact (hR.evalExpr _ env henv).bind fun cur => (hR.evalExpr _ env henv).bind fun rhs =>
      (follows_evalBinary _ _ _ _ _).bind hset

/-! ### Expressions -/

omit [Host ω] in
theorem evalStringInterp_follows (parts : List StrPart) (out : Text) (henv : Own n₀ env) :
    Follows J n₀ (evalStringInterp R n parts out env) := by
  induction parts generalizing out with
  | nil => exact follows_pure _
  | cons part parts ih =>
    cases part with
    | literal s => exact ih _
    | expr e =>
      exact (hR.evalExpr e env henv).bind fun v => follows_unlessError
        ((follows_readSome _).bind fun piece => ih _)

omit hR [Host ω] in
theorem evalIdent_follows (name : Text) (env : Env) (line : ℕ) :
    Follows J n₀ (evalIdent name env line : Prog ω Value) := by
  refine (follows_read _).bind fun v => ?_
  cases v with
  | some v => exact follows_pure _
  | none => exact follows_fail _ _

omit hR [Host ω] in
theorem evalUnary_follows (op : TokenType) (v : Value) :
    Follows J n₀ (evalUnary op v : Prog ω Value) := by
  unfold evalUnary
  split
  · exact (follows_read _).bind fun _ => follows_pure _
  · split
    · exact follows_pure _
    · exact follows_pure _
  · exact follows_pure _

omit [Host ω] in
theorem appendItems_follows (l : ℕ) (items : List Expr) (henv : Own n₀ env) :
    Follows J n₀ (appendItems R l items env) := by
  induction items with
  | nil => exact follows_pure _
  | cons e items ih =>
    exact (hR.evalExpr e env henv).bind fun v => (follows_valueListAppend _ _).bind fun _ => ih

omit [Host ω] in
theorem setEntries_follows (d : ℕ) (entries : List (Text × Expr)) (henv : Own n₀ env) :
    Follows J n₀ (setEntries R d entries env) := by
  induction entries with
  | nil => exact follows_pure _
  | cons entry entries ih =>
    exact (hR.evalExpr _ env henv).bind fun v => (follows_valueDataSet _ _ _).bind fun _ => ih

omit hR [Host ω] in
theorem evalAwait_follows (v : Value) (line : ℕ) :
    Follows J n₀ (evalAwait v line : Prog ω Value) := by
  unfold evalAwait
  split
  · refine (follows_readSome _).bind fun native => ?_
    split
    · exact follows_pure _
    · exact follows_fail _ _
    · exact follows_pure _
  · exact follows_pure _

omit hR [Host ω] in
theorem evalMember_follows (obj : Value) (name : Text) (line : ℕ) :
    Follows J n₀ (evalMember obj name line : Prog ω Value) := by
  unfold evalMember
  split
  · exact (follows_read _).bind fun _ => follows_pure _
  · refine (follows_readSome _).bind fun inst => (follows_read _).bind fun v => ?_
    cases v with
    | some v => exact follows_pure _
    | none => exact (follows_readSome _).bind fun ci => follows_fail _ _
  · exact follows_fail _ _

omit hR [Host ω] in
theorem evalIndex_follows (obj idx : Value) (line : ℕ) :
    Follows J n₀ (evalIndex obj idx line : Prog ω Value) := by
  unfold evalIndex
  split
  · refine (follows_readSome _).bind fun node => ?_
    cases node with
    | some p => exact (follows_readSome _).bind fun _ => follows_pure _
    | none => exact follows_fail _ _
  · exact (follows_read _).bind fun _ => follows_pure _
  · exact follows_ite (follows_fail _ _) (follows_pure _)
  · exact follows_fail _ _

omit [Host ω] in
theorem callInstance_follows (i : ℕ) (name : Text) (args : List Expr) (henv : Own n₀ env)
    (line : ℕ) : Follows J n₀ (callInstance R n i name args env line) := by
  refine (follows_readSome _).bind fun inst => (follows_readSome _).bind fun method => ?_
  cases method with
  | some q => exact (evalArgs_follows hR args henv).bind fun argv => invokeMethod_follows hR _ _ _ _
  | none => exact (follows_readSome _).bind fun ci => follows_fail _ _

omit [Host ω] in
theorem callResponse_follows (d : ℕ) (name : Text) (args : List Expr) (henv : Own n₀ env)
    (line : ℕ) : Follows J n₀ (callResponse R n d name args env line) := by
  refine (follows_read _).bind fun isResponse => follows_ite ?_ (follows_fail _ _)
  exact (evalArgs_follows hR args henv).bind fun argv =>
    orFail_follows (follows_httpResponseCallMethod _ _ _ _) _ _

theorem callMethod_follows (obj : Value) (name : Text) (args : List Expr) (henv : Own n₀ env)
    (line : ℕ) : Follows J n₀ (callMethod R n obj name args env line) := by
  unfold callMethod
  split
  · exact callListMethod_follows hR n _ _ _ henv _
  · exact callInstance_follows hR n _ _ _ henv _
  · exact callResponse_follows hR n _ _ _ henv _
  · exact callNative_follows hR n _ _ _ henv _
  · exact follows_fail _ _

omit [Host ω] in
theorem callSuperCtor_follows (parentClass : ℕ) (this : Value) (args : List Expr)
    (henv : Own n₀ env) : Follows J n₀ (callSuperCtor R n parentClass this args env) := by
  refine (follows_readSome _).bind fun ctor => ?_
  cases ctor with
  | some q => exact (evalArgs_follows hR args henv).bind fun argv => invokeMethod_follows hR _ _ _ _
  | none => exact follows_pure _

omit [Host ω] in
theorem callFn_follows (fn : Value) (args : List Expr) (henv : Own n₀ env) (line : ℕ) :
    Follows J n₀ (callFn R n fn args env line) := by
  unfold callFn
  split
  · refine (follows_readSome _).bind fun native => ?_
    split
    · exact callSuperCtor_follows hR n _ _ _ henv
    · exact callValue_follows hR _ _ henv _
  · exact callValue_follows hR _ _ henv _

/-- The built-in function, if there is one, does allowed steps too. -/
theorem builtinCallee_bind (object : Expr) (name : Text) (args : List Expr) (henv : Own n₀ env)
    (line : ℕ) {f : Option (Prog ω Value) → Prog ω Value}
    (hsome : ∀ m, Follows J n₀ m → Follows J n₀ (f (some m))) (hnone : Follows J n₀ (f none)) :
    Follows J n₀ (builtinCallee R n object name args env line >>= f) := by
  have hf : ∀ ns, Follows J n₀ (f (builtinDispatch R n ns name args env line)) := by
    intro ns
    cases h : builtinDispatch R n ns name args env line with
    | some m => exact hsome m (builtinDispatch_follows hR n henv h)
    | none => exact hnone
  intro s hs
  unfold builtinCallee
  split
  · next line' ns =>
    have hread : (do
        let bound ← envGet env ns
        if bound.isNone ∧ ns ∈ builtinNs then
          pure (builtinDispatch R n ns name args env line)
        else pure none : Prog ω (Option (Prog ω Value))) s
        = ⟨[], s, some (if (s.heap.envGet env ns).isNone ∧ ns ∈ builtinNs then
            builtinDispatch R n ns name args env line else none)⟩ := by
      show Exec.bind _ _ s = _
      unfold Exec.bind
      simp only [envGet, Exec.read]
      split_ifs <;> rfl
    rw [Exec.bind_of_some (by rw [hread]), hread]
    simp only [List.nil_append]
    split_ifs
    · exact hf ns s hs
    · exact hnone s hs
  · rw [Exec.bind_of_some (a := none) rfl]
    exact hnone s hs

theorem evalCall_follows (callee : Expr) (args : List Expr) (henv : Own n₀ env) (line : ℕ) :
    Follows J n₀ (evalCall R n callee args env line) := by
  unfold evalCall
  split
  · refine builtinCallee_bind hR n _ _ _ henv _ (fun m hm => hm) ?_
    exact (hR.evalExpr _ env henv).bind fun obj =>
      follows_unlessError (callMethod_follows hR n _ _ _ henv _)
  · exact (hR.evalExpr _ env henv).bind fun fn =>
      follows_unlessError (callFn_follows hR n _ _ henv _)

omit [Host ω] in
theorem evalNew_follows (className : Text) (args : List Expr) (henv : Own n₀ env) (line : ℕ) :
    Follows J n₀ (evalNew R n className args env line) := by
  refine (follows_read _).bind fun cls => ?_
  split
  · exact constructInstance_follows hR n _ _ henv
  · exact follows_fail _ _

theorem evalExpr_follows (e : Expr) (henv : Own n₀ env) : Follows J n₀ (evalExpr R n e env) := by
  refine follows_unlessError ?_
  cases e with
  | num line k => exact follows_pure _
  | decimal line d => exact follows_pure _
  | scifi line d => exact follows_pure _
  | bool line b => exact follows_pure _
  | str line parts => exact evalStringInterp_follows hR n _ _ henv
  | ident line name => exact evalIdent_follows _ _ _
  | binary line left right op =>
    exact (hR.evalExpr _ env henv).bind fun l => (hR.evalExpr _ env henv).bind fun r =>
      follows_unlessError (follows_evalBinary _ _ _ _ _)
  | unary line operand op => exact (hR.evalExpr _ env henv).bind fun v => evalUnary_follows _ _
  | between line value low high =>
    exact (hR.evalExpr _ env henv).bind fun v => (hR.evalExpr _ env henv).bind fun lo =>
      (hR.evalExpr _ env henv).bind fun hi => follows_pure _
  | ternary line cond thenE elseE =>
    exact (hR.evalExpr _ env henv).bind fun c => (follows_read _).bind fun t =>
      follows_ite (hR.evalExpr _ env henv) (hR.evalExpr _ env henv)
  | list line items =>
    exact (follows_newList _).bind fun l => (appendItems_follows hR _ _ henv).bind fun _ => follows_pure _
  | data line entries =>
    exact (follows_newData _).bind fun d => (setEntries_follows hR _ _ henv).bind fun _ => follows_pure _
  | funcLit line params retType body isAsync =>
    exact (follows_newFunc _).bind fun f => follows_pure _
  | await line e =>
    exact (hR.evalExpr _ env henv).bind fun v => follows_unlessError (evalAwait_follows _ _)
  | member line object name =>
    exact (hR.evalExpr _ env henv).bind fun obj => follows_unlessError (evalMember_follows _ _ _)
  | index line object index =>
    exact (hR.evalExpr _ env henv).bind fun obj => (hR.evalExpr _ env henv).bind fun idx =>
      evalIndex_follows _ _ _
  | assign line target value op => exact evalAssign_follows hR n _ _ _ henv _
  | call line callee args => exact evalCall_follows hR n _ _ henv _
  | new line className args => exact evalNew_follows hR n _ _ henv _

/-! ### Statements -/

omit [Host ω] in
theorem execElifs_follows (elifs : List (Expr × Stmt)) (elseB : Option Stmt) (henv : Own n₀ env) :
    Follows J n₀ (execElifs R elifs elseB env) := by
  induction elifs with
  | nil =>
    cases elseB with
    | some s => exact hR.execStmt s env henv
    | none => exact follows_pure _
  | cons branch elifs ih =>
    exact (hR.evalExpr _ env henv).bind fun c => (follows_read _).bind fun t =>
      follows_ite (hR.execStmt _ env henv) ih

omit hR [Host ω] in
theorem afterTurn_follows (r : ExecResult) {next : Prog ω ExecResult} (h : Follows J n₀ next) :
    Follows J n₀ (afterTurn r next) := by
  cases r with
  | none => exact follows_unlessError h
  | ret v => exact follows_pure _

omit [Host ω] in
theorem loopWhile_follows (cond : Expr) (body : Stmt) (henv : Own n₀ env) :
    Follows J n₀ (loopWhile R cond body env n) := by
  induction n with
  | zero => exact follows_giveUp
  | succ n ih =>
    refine (hR.evalExpr _ env henv).bind fun c => (follows_read _).bind fun t => ?_
    refine follows_ite (follows_unlessError ?_) (follows_pure _)
    exact (hR.execStmt _ env henv).bind fun r => afterTurn_follows r ih

omit [Host ω] in
theorem doWhile_follows (cond : Expr) (body : Stmt) (henv : Own n₀ env) :
    Follows J n₀ (doWhile R cond body env n) := by
  induction n with
  | zero => exact follows_giveUp
  | succ n ih =>
    refine (hR.execStmt _ env henv).bind fun r => afterTurn_follows r ?_
    exact (hR.evalExpr _ env henv).bind fun c => (follows_read _).bind fun t =>
      follows_ite (follows_unlessError ih) (follows_pure _)

omit [Host ω] in
theorem turnIsMade_follows (cond : Option Expr) (henv : Own n₀ env) :
    Follows J n₀ (turnIsMade R cond env) := by
  cases cond with
  | some e => exact (hR.evalExpr _ env henv).bind fun c => follows_read _
  | none => exact follows_pure _

omit [Host ω] in
theorem overNodes_follows (var : Text) (cond : Option Expr) (body : Stmt) (env : Env)
    (cur : Option ℕ) : Follows J n₀ (overNodes R var cond body env n cur) := by
  induction n generalizing cur with
  | zero =>
    cases cur with
    | none => exact follows_pure _
    | some p => exact follows_giveUp
  | succ n ih =>
    cases cur with
    | none => exact follows_pure _
    | some p =>
      refine (follows_readSome _).bind fun node => follows_envNew_bind env fun loopEnv hloop => ?_
      refine (follows_envDefine hloop _ _ _).bind fun _ => ?_
      refine (turnIsMade_follows hR cond hloop).bind fun made => follows_ite ?_ ?_
      · exact (hR.execStmt _ loopEnv hloop).bind fun r => afterTurn_follows r
          ((follows_nextNode p).bind fun next => ih next)
      · exact (follows_nextNode p).bind fun next => ih next

omit [Host ω] in
theorem overValues_follows (var : Text) (body : Stmt) (env : Env) (vals : List Value) :
    Follows J n₀ (overValues R var body env vals) := by
  induction vals with
  | nil => exact follows_pure _
  | cons v vals ih =>
    refine follows_envNew_bind env fun loopEnv hloop => (follows_envDefine hloop _ _ _).bind fun _ => ?_
    exact (hR.execStmt _ loopEnv hloop).bind fun r => afterTurn_follows r ih

omit [Host ω] in
theorem forIn_follows (coll : Value) (var : Text) (cond : Option Expr) (body : Stmt) (env : Env)
    (line : ℕ) : Follows J n₀ (forIn R n coll var cond body env line) := by
  unfold forIn
  split
  · exact (follows_read _).bind fun head => overNodes_follows hR n _ _ _ _ _
  · exact (follows_rtError _ _).bind fun _ => follows_pure _

omit [Host ω] in
theorem iterate_follows (coll : Value) (var : Text) (body : Stmt) (env : Env) (line : ℕ) :
    Follows J n₀ (iterate R n coll var body env line) := by
  unfold iterate
  split
  · exact (follows_read _).bind fun head => overNodes_follows hR n _ _ _ _ _
  · exact (follows_read _).bind fun vals => overValues_follows hR _ _ _ _
  · exact (follows_rtError _ _).bind fun _ => follows_pure _

omit hR [Host ω] in
/-- The block of a `try` statement, up to where the handler starts: its scope, if it does. -/
def tryBlock (R : Evaluator ω) (tryB : Stmt) (errName : Text) (env : Env) :
    Prog ω (Option Env) := do
  let saved ← Exec.read fun s => s.it
  Exec.act .enterTry fun s => { s with it := s.it.clearError }
  let _ ← R.execStmt tryB env
  let failed ← errorPending
  if failed then do
    let catchEnv ← envNew env
    let msg ← Exec.read fun s => s.it.errorMessage.getD (txt "error")
    envDefine catchEnv errName (.string msg) false
    Exec.act .catchError fun s => { s with it := s.it.clearError }
    pure (some catchEnv)
  else do
    Exec.act .leaveTry fun s => { s with it :=
      { s.it with hadRuntimeError := saved.hadRuntimeError, errorMessage := saved.errorMessage } }
    pure none

omit hR [Host ω] in
/-- The handler. -/
def runHandler (R : Evaluator ω) (catchB : Stmt) (catchEnv : Option Env) : Prog ω ExecResult :=
  match catchEnv with
  | some catchEnv => R.execStmt catchB catchEnv
  | none => pure .none

omit hR [Host ω] in
/-- A `try` statement is its block and then its handler. -/
theorem tryCatch_eq (R : Evaluator ω) (tryB : Stmt) (errName : Text) (catchB : Stmt) (env : Env) :
    tryCatch R tryB errName catchB env = tryBlock R tryB errName env >>= runHandler R catchB := by
  unfold tryCatch tryBlock
  simp only [Exec.bind_assoc]
  refine congrArg _ (funext fun saved => congrArg _ (funext fun _ => congrArg _ (funext fun _ =>
    congrArg _ (funext fun failed => ?_))))
  cases failed with
  | true => simp only [if_pos, Exec.bind_assoc, Exec.pure_bind, runHandler]
  | false => simp only [Bool.false_eq_true, if_false, Exec.bind_assoc, Exec.pure_bind, runHandler]

omit [Host ω] in
/-- A `try` statement starts with no error pending, so it saves a clear flag; when its handler
starts, or when it ends, no error is pending either. -/
theorem tryBlock_follows (tryB : Stmt) (errName : Text) (henv : Own n₀ env) :
    Exec.Triple (StepKeeps J n₀) (fun s => Ready J n₀ s ∧ s.it.hadRuntimeError = false)
      (tryBlock R tryB errName env) fun catchEnv s =>
        (Ready J n₀ s ∧ s.it.hadRuntimeError = false) ∧ ∀ e ∈ catchEnv, Own n₀ e := by
  refine Exec.TripleWhile.seq (fun saved s => (Ready J n₀ s ∧ s.it.hadRuntimeError = false) ∧
    J saved ∧ saved.hadRuntimeError = false) ?_ fun saved => ?_
  · exact Exec.triple_read fun s hs => ⟨hs, hs.1.2, hs.2⟩
  refine Exec.TripleWhile.seq (fun _ s => Ready J n₀ s ∧ J saved ∧ saved.hadRuntimeError = false)
    ?_ fun _ => ?_
  · refine Exec.triple_act fun s hs => ?_
    have hclear : J s.it.clearError := ErrorRule.clear s.it
    exact ⟨⟨⟨.enterTry hs.1.2, trivial⟩, hclear⟩, ⟨hs.1.1.1, hclear⟩, hs.2⟩
  refine Exec.TripleWhile.seq (fun _ s => Ready J n₀ s ∧ J saved ∧ saved.hadRuntimeError = false)
    ?_ fun _ => ?_
  · exact (hR.execStmt tryB env henv).frame
  refine Exec.TripleWhile.seq (fun b s => (Ready J n₀ s ∧ b = s.it.hadRuntimeError) ∧
    J saved ∧ saved.hadRuntimeError = false) ?_ fun failed => ?_
  · exact Exec.triple_read fun s hs => ⟨⟨hs.1, rfl⟩, hs.2⟩
  cases failed with
  | false =>
    refine Exec.TripleWhile.seq (fun _ s => Ready J n₀ s ∧ s.it.hadRuntimeError = false) ?_ fun _ =>
      Exec.triple_pure fun s hs => ⟨hs, fun e he => nomatch he⟩
    refine Exec.triple_act fun s hs => ?_
    obtain ⟨⟨hready, hflag⟩, hsaved, hclear⟩ := hs
    have hrule := ErrorRule.restore s.it saved hsaved hclear
    refine ⟨⟨⟨?_, trivial⟩, hrule⟩, ⟨hready.1, hrule⟩, hclear⟩
    show Act.Does s .leaveTry { s with it := { s.it with
      hadRuntimeError := saved.hadRuntimeError, errorMessage := saved.errorMessage } }
    rw [hclear]
    exact .leaveTry saved.errorMessage hflag.symm
  | true =>
    -- the steps up to the handler leave the flag set
    refine Exec.TripleWhile.bind ((triple_envNew (·.hadRuntimeError = true) env).weaken
      (fun s hs => ⟨hs.1.1, hs.1.2.symm⟩) fun _ _ hs => hs) fun catchEnv => ?_
    refine Exec.TripleWhile.seq (fun msg s => ((Ready J n₀ s ∧ s.it.hadRuntimeError = true ∧
      s.it.errorMessage.getD (txt "error") = msg) ∧ NewScope n₀ catchEnv s)) ?_ fun msg => ?_
    · exact Exec.triple_read fun s hs => ⟨⟨hs.1.1, hs.1.2, rfl⟩, hs.2⟩
    refine Exec.TripleWhile.bind (triple_envDefine_new (fun it => it.hadRuntimeError = true ∧
      it.errorMessage.getD (txt "error") = msg) errName (.string msg) false) fun _ => ?_
    refine Exec.TripleWhile.seq (fun _ s => (Ready J n₀ s ∧ s.it.hadRuntimeError = false) ∧
      Own n₀ catchEnv) ?_ fun _ =>
        Exec.triple_pure fun s hs => ⟨hs.1, fun e he => Option.some.inj he ▸ hs.2⟩
    refine Exec.triple_act fun s hs => ?_
    obtain ⟨⟨hready, hflag, rfl⟩, hown, hentry⟩ := hs
    have hclear : J s.it.clearError := ErrorRule.clear s.it
    exact ⟨⟨⟨.catchError errName hflag hentry, trivial⟩, hclear⟩, ⟨⟨hready.1, hclear⟩, rfl⟩, hown⟩

omit [Host ω] in
theorem tryCatch_follows (tryB : Stmt) (errName : Text) (catchB : Stmt) (henv : Own n₀ env) :
    FollowsClear J n₀ (tryCatch R tryB errName catchB env) := by
  rw [tryCatch_eq]
  refine Exec.TripleWhile.bind (tryBlock_follows hR tryB errName henv) fun catchEnv => ?_
  cases catchEnv with
  | none => exact Exec.triple_pure fun s hs => hs.1.1
  | some catchEnv => exact fun s hs => hR.execStmt catchB catchEnv (hs.2 _ rfl) s hs.1.1

omit [Host ω] in
theorem execStmt_follows (s : Stmt) (henv : Own n₀ env) : Follows J n₀ (execStmt R n s env) := by
  refine followsClear_unlessError ?_
  cases s with
  | varDecl line name type init isFixed =>
    refine Follows.clear ?_
    exact (evalInit_follows hR init henv).bind fun v => follows_unlessError
      ((follows_envDefine henv _ _ _).bind fun _ => follows_pure _)
  | expr line e => exact ((hR.evalExpr _ env henv).bind fun v => follows_pure _).clear
  | ifStmt line cond thenB elifs elseB =>
    refine Follows.clear ?_
    refine (hR.evalExpr _ env henv).bind fun c => follows_unlessError ?_
    exact (follows_read _).bind fun t =>
      follows_ite (hR.execStmt _ env henv) (execElifs_follows hR _ _ henv)
  | loopWhile line cond body => exact (loopWhile_follows hR n _ _ henv).clear
  | doWhile line cond body => exact (doWhile_follows hR n _ _ henv).clear
  | forIn line var iterable cond body =>
    refine Follows.clear ?_
    exact (hR.evalExpr _ env henv).bind fun coll => forIn_follows hR n _ _ _ _ _ _
  | iterate line collection item body =>
    refine Follows.clear ?_
    exact (hR.evalExpr _ env henv).bind fun coll => iterate_follows hR n _ _ _ _ _
  | ret line value => exact ((evalInit_follows hR value henv).bind fun v => follows_pure _).clear
  | block line stmts => exact (execBlock_follows hR _ _).clear
  | tryCatch line tryB errName catchB => exact tryCatch_follows hR _ _ _ henv
  | _ => exact (follows_pure _).clear

omit hR in
/-- **A program.** Its statements run in the environment that is there. -/
theorem interpRun_follows (hR : R.Follows J 0) (program : List Stmt) :
    Follows J 0 (interpRun R program) := by
  have hown : ∀ env, Own 0 env := fun env f _ => Nat.zero_le f
  refine (follows_read _).bind fun env => (follows_hoist program (hown env)).bind fun _ => ?_
  refine (execStmts_follows hR program (hown env)).bind fun _ => closeFile_follows.bind fun _ => ?_
  refine (follows_setOpenFile _).bind fun _ => (follows_read _).bind fun failed => ?_
  refine follows_ite ?_ (follows_pure _)
  exact (follows_read _).bind fun msg => (follows_onWorld _).bind fun _ => follows_pure _

end Interp

/-- **Every run of the interpreter.** -/
theorem Evaluator.follows {ω : Type} [Host ω] (J : Interp → Prop) [ErrorRule J] (n₀ n : ℕ) :
    (evaluator n : Evaluator ω).Follows J n₀ := by
  induction n with
  | zero => exact ⟨fun _ _ _ => follows_giveUp, fun _ _ _ => follows_giveUp⟩
  | succ n ih =>
    constructor
    · exact fun e _ henv => evalExpr_follows ih n e henv
    · exact fun s _ henv => execStmt_follows ih n s henv

/-! ### Where nothing is asked of the error state -/

/-- Every run does allowed steps. -/
def Confined {ω α : Type} (n₀ : ℕ) (m : Prog ω α) : Prop :=
  Exec.Triple (Allowed n₀) (HasFrames n₀) m fun _ => HasFrames n₀

theorem Follows.confined {ω α : Type} {n₀ : ℕ} {m : Prog ω α} (h : Follows (fun _ => True) n₀ m) :
    Confined n₀ m :=
  (h.mono fun _ hst => hst.1).weaken (fun _ hs => ⟨hs, trivial⟩) fun _ _ hs => hs.1

theorem confined_pure {ω α : Type} {n₀ : ℕ} (a : α) : Confined n₀ (pure a : Prog ω α) :=
  (follows_pure a).confined

theorem confined_read {ω α : Type} {n₀ : ℕ} (f : Machine ω → α) :
    Confined n₀ (Exec.read f : Prog ω α) :=
  (follows_read f).confined

theorem Confined.bind {ω α β : Type} {n₀ : ℕ} {m : Prog ω α} {f : α → Prog ω β}
    (hm : Confined n₀ m) (hf : ∀ a, Confined n₀ (f a)) : Confined n₀ (m >>= f) :=
  Exec.TripleWhile.bind hm hf

/-- The calls one level down do allowed steps, in environments of the run's own. -/
structure Evaluator.Confined {ω : Type} (n₀ : ℕ) (R : Evaluator ω) : Prop where
  evalExpr : ∀ e env, Own n₀ env → Jaguar.Confined n₀ (R.evalExpr e env)
  execStmt : ∀ s env, Own n₀ env → Jaguar.Confined n₀ (R.execStmt s env)

theorem Evaluator.confined {ω : Type} [Host ω] (n₀ n : ℕ) :
    (evaluator n : Evaluator ω).Confined n₀ where
  evalExpr e env henv := ((Evaluator.follows (fun _ => True) n₀ n).evalExpr e env henv).confined
  execStmt s env henv := ((Evaluator.follows (fun _ => True) n₀ n).execStmt s env henv).confined

end Jaguar
