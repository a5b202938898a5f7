/-
Environments that share ancestors (`env_new`, `env_define`, `env_set` of `value.c`).

Closures keep their environments alive, so the environments of a program are a tree whose
nodes share mutable ancestors.  The scopes of `Scopes` say what the nodes mean: a name
stands for the latest definition in the nearest scope that has one.

* `EnvTree.step_agrees`, `EnvTree.run_agrees` — the frames of the heap agree with the
  scopes after every sequence of operations on the nodes;
* `env_tree_lexical` — what `env_get` and `env_set` do from every node of every tree, and
  what `env_set` leaves alone.
-/
import Jaguar.Scopes
import Jaguar.FrameEffect

namespace Jaguar

/-! ### The source -/

/-- `env_set`: its return value, and the heap afterwards. -/
def Heap.envSet (h : Heap) (env : Env) (name : Text) (v : Value) : Bool × Heap :=
  match h.envFind env name with
  | some (f, i, e) => if e.isFixed then (false, h) else (true, h.setVar f i v)
  | none => (false, h)

/-- The environments made so far, in a heap. -/
structure EnvTree where
  heap : Heap
  envs : List Env

/-- An operation on the node `n` of a tree; the parent of a new node is a node or `NULL`. -/
inductive EnvOp
  | new (parent : Option ℕ)
  | define (n : ℕ) (name : Text) (v : Value) (isFixed : Bool)
  | set (n : ℕ) (name : Text) (v : Value)

namespace EnvTree

/-- The environment of a node. -/
def env (t : EnvTree) (n : ℕ) : Env := t.envs.getD n []

/-- The result of an operation (of `env_set`, true for the others) and the tree behind it. -/
def step (t : EnvTree) (op : EnvOp) : Bool × EnvTree :=
  match op with
  | .new parent =>
    let f := t.heap.frames.length
    (true, ⟨t.heap.newFrame, t.envs ++ [f :: (parent.elim [] t.env)]⟩)
  | .define n name v isFixed => (true, { t with heap := t.heap.envDefine (t.env n) name v isFixed })
  | .set n name v =>
    let r := t.heap.envSet (t.env n) name v
    (r.1, { t with heap := r.2 })

/-- The tree behind a sequence of operations. -/
def run (ops : List EnvOp) : EnvTree :=
  ops.foldl (fun t op => (t.step op).2) ⟨⟨[], [], [], [], [], [], [], []⟩, []⟩

end EnvTree

/-! ### The reference semantics -/

/-- Scopes, the paths from the nodes to the root, and the number of scopes so far. -/
structure Reference where
  scopes : Scopes ℕ Text Value
  paths : List (List ℕ)
  count : ℕ

namespace Reference

def path (r : Reference) (n : ℕ) : List ℕ := r.paths.getD n []

/-- What a name stands for at a node. -/
def lookup (r : Reference) (n : ℕ) (x : Text) : Option (ℕ × Binding Value) :=
  r.scopes.lookup (r.path n) x

def step (r : Reference) (op : EnvOp) : Reference :=
  match op with
  | .new parent =>
    { r with paths := r.paths ++ [r.count :: (parent.elim [] r.path)], count := r.count + 1 }
  | .define n x v isFixed =>
    { r with scopes := (r.path n).head?.elim r.scopes fun i => r.scopes.bind i x ⟨v, isFixed⟩ }
  | .set n x v => { r with scopes := (r.scopes.assign (r.path n) x v).2 }

def run (ops : List EnvOp) : Reference := ops.foldl step ⟨fun _ _ => none, [], 0⟩

end Reference

/-! ### Frames as scopes -/

namespace Heap

/-- What a frame binds a name to: the value and the mark of its newest entry. -/
def scopes (h : Heap) : Scopes ℕ Text Value := fun f x =>
  (frameFind (h.frame f) x).map fun p => ⟨p.2.value, p.2.isFixed⟩

/-- **`env_find` is the lookup along the environment.** -/
theorem envFind_eq_lookup (h : Heap) (env : Env) (x : Text) :
    (h.envFind env x).map (fun p => (p.1, (⟨p.2.2.value, p.2.2.isFixed⟩ : Binding Value)))
      = h.scopes.lookup env x := by
  induction env with
  | nil => rfl
  | cons f parent ih =>
    rw [envFind, Scopes.lookup, scopes]
    cases frameFind (h.frame f) x with
    | some p => rfl
    | none => exact ih

/-- The search through entries one of which has got another value. -/
theorem frameFind_modify (es : List EnvEntry) (i : ℕ) (v : Value) (y : Text) :
    frameFind (es.modify i fun e => { e with value := v }) y
      = (frameFind es y).map fun p => (p.1, if p.1 = i then { p.2 with value := v } else p.2) := by
  induction es generalizing i with
  | nil => simp [frameFind]
  | cons d es ih =>
    cases i with
    | zero =>
      rw [List.modify_zero_cons, frameFind, frameFind]
      by_cases hd : d.name = y
      · rw [if_pos hd, if_pos hd]
        rfl
      · rw [if_neg hd, if_neg hd, Option.map_map]
        refine congrArg (fun g => Option.map g _) (funext fun p => ?_)
        simp [Prod.map]
    | succ i =>
      rw [List.modify_succ_cons, frameFind, frameFind, ih]
      by_cases hd : d.name = y
      · rw [if_pos hd, if_pos hd]
        rfl
      · rw [if_neg hd, if_neg hd, Option.map_map, Option.map_map]
        refine congrArg (fun g => Option.map g _) (funext fun p => ?_)
        simp [Prod.map]

/-- Another value for a found entry is not seen under other names: an entry found under
another name stands in another place. -/
theorem frameFind_modify_of_ne {es : List EnvEntry} {i : ℕ} {x y : Text} {e : EnvEntry}
    (hfind : frameFind es x = some (i, e)) (hy : y ≠ x) (v : Value) :
    frameFind (es.modify i fun e => { e with value := v }) y = frameFind es y := by
  rw [frameFind_modify]
  cases hother : frameFind es y with
  | none => rfl
  | some p =>
    obtain ⟨j, e'⟩ := p
    have hi := frameFind_eq_some hfind
    have hj := frameFind_eq_some hother
    have hne : j ≠ i := by
      rintro rfl
      rw [hi.1] at hj
      obtain rfl := Option.some.inj hj.1
      exact hy (hj.2.1.symm.trans hi.2.1)
    simp [hne]

theorem scopes_newFrame (h : Heap) : h.newFrame.scopes = h.scopes := by
  funext f x
  rw [scopes, frame_newFrame, scopes]

/-- A new entry hides the older ones of its name. -/
theorem scopes_define (h : Heap) {f : ℕ} (hf : f < h.frames.length) (e : EnvEntry) :
    (h.define f e).scopes = h.scopes.bind f e.name ⟨e.value, e.isFixed⟩ := by
  funext g x
  rw [Scopes.bind_apply, scopes, frame_define hf]
  by_cases hg : g = f
  · subst hg
    rw [if_pos rfl, frameFind]
    by_cases hx : e.name = x
    · rw [if_pos hx, if_pos ⟨rfl, hx.symm⟩]
      rfl
    · rw [if_neg hx, if_neg fun h => hx h.2.symm, Option.map_map, scopes]
      rfl
  · rw [if_neg hg, if_neg fun h => hg h.1, scopes]

/-- An assignment to the newest entry of a name. -/
theorem scopes_setVar (h : Heap) {f i : ℕ} {x : Text} {e : EnvEntry}
    (hfind : frameFind (h.frame f) x = some (i, e)) (v : Value) :
    (h.setVar f i v).scopes = h.scopes.bind f x ⟨v, e.isFixed⟩ := by
  funext g y
  rw [Scopes.bind_apply, scopes, frame_setVar]
  by_cases hg : f = g
  · subst hg
    rw [if_pos rfl]
    by_cases hy : y = x
    · rw [hy, frameFind_modify, hfind, if_pos ⟨rfl, rfl⟩]
      simp
    · rw [if_neg fun h => hy h.2, scopes, frameFind_modify_of_ne hfind hy]
  · rw [if_neg hg, if_neg fun h => hg h.1.symm, scopes]

theorem envFind_frameFind {h : Heap} {env : Env} {x : Text} {f i : ℕ} {e : EnvEntry}
    (hfind : h.envFind env x = some (f, i, e)) :
    f ∈ env ∧ frameFind (h.frame f) x = some (i, e) := by
  induction env with
  | nil => cases hfind
  | cons g parent ih =>
    rw [envFind] at hfind
    cases hg : frameFind (h.frame g) x with
    | some p =>
      rw [hg] at hfind
      obtain ⟨rfl, rfl, rfl⟩ := Option.some.inj hfind
      exact ⟨List.mem_cons_self, hg⟩
    | none =>
      rw [hg] at hfind
      obtain ⟨hmem, hentry⟩ := ih hfind
      exact ⟨List.mem_cons_of_mem _ hmem, hentry⟩

/-- **`env_set` is the assignment along the environment.** -/
theorem envSet_assign (h : Heap) (env : Env) (x : Text) (v : Value) :
    (h.envSet env x v).1 = (h.scopes.assign env x v).1 ∧
      (h.envSet env x v).2.scopes = (h.scopes.assign env x v).2 := by
  unfold envSet Scopes.assign
  rw [← envFind_eq_lookup]
  cases hfind : h.envFind env x with
  | none => exact ⟨rfl, rfl⟩
  | some p =>
    obtain ⟨f, i, e⟩ := p
    dsimp only [Option.map_some]
    cases he : e.isFixed with
    | true => exact ⟨rfl, rfl⟩
    | false =>
      have hset := h.scopes_setVar (envFind_frameFind hfind).2 v
      rw [he] at hset
      exact ⟨rfl, hset⟩

end Heap

/-! ### Runs -/

/-- The frames of the heap mean what the reference says. -/
structure EnvTree.Agrees (t : EnvTree) (r : Reference) : Prop where
  scopes : t.heap.scopes = r.scopes
  envs : t.envs = r.paths
  count : t.heap.frames.length = r.count
  bounded : ∀ env ∈ t.envs, ∀ f ∈ env, f < t.heap.frames.length

namespace EnvTree

variable {t : EnvTree} {r : Reference}

theorem Agrees.env (h : t.Agrees r) (n : ℕ) : t.env n = r.path n := by
  rw [EnvTree.env, Reference.path, h.envs]

theorem Agrees.lt (h : t.Agrees r) {n f : ℕ} (hf : f ∈ t.env n) : f < t.heap.frames.length := by
  unfold EnvTree.env at hf
  rw [List.getD_eq_getElem?_getD] at hf
  cases hn : t.envs[n]? with
  | none =>
    rw [hn] at hf
    cases hf
  | some env =>
    rw [hn] at hf
    exact h.bounded env (List.mem_of_getElem? hn) f hf

theorem length_frames_envSet (h : Heap) (env : Env) (x : Text) (v : Value) :
    (h.envSet env x v).2.frames.length = h.frames.length := by
  unfold Heap.envSet
  split
  · split
    · rfl
    · exact List.length_modify _ _ _
  · rfl

/-- **One operation.** -/
theorem step_agrees (h : t.Agrees r) (op : EnvOp) : (t.step op).2.Agrees (r.step op) := by
  cases op with
  | new parent =>
    have hparent : parent.elim [] t.env = parent.elim [] r.path := by
      cases parent with
      | none => rfl
      | some n => exact h.env n
    have hlength : t.heap.newFrame.frames.length = t.heap.frames.length + 1 := by
      simp [Heap.newFrame]
    constructor
    · exact (t.heap.scopes_newFrame).trans h.scopes
    · show t.envs ++ [t.heap.frames.length :: parent.elim [] t.env]
        = r.paths ++ [r.count :: parent.elim [] r.path]
      rw [h.envs, h.count, hparent]
    · exact hlength.trans (congrArg (· + 1) h.count)
    · intro env henv f hf
      show f < t.heap.newFrame.frames.length
      rw [hlength]
      rcases List.mem_append.mp henv with hold | hnew
      · exact Nat.lt_succ_of_lt (h.bounded env hold f hf)
      · rw [List.mem_singleton.mp hnew] at hf
        rcases List.mem_cons.mp hf with rfl | hf
        · exact Nat.lt_succ_self _
        · cases parent with
          | none => cases hf
          | some n => exact Nat.lt_succ_of_lt (h.lt hf)
  | define n x v isFixed =>
    show EnvTree.Agrees ⟨t.heap.envDefine (t.env n) x v isFixed, t.envs⟩
      ⟨(r.path n).head?.elim r.scopes fun i => r.scopes.bind i x ⟨v, isFixed⟩, r.paths, r.count⟩
    rw [← h.env n]
    cases hpath : t.env n with
    | nil => exact ⟨h.scopes, h.envs, h.count, h.bounded⟩
    | cons f parent =>
      have hf : f < t.heap.frames.length := h.lt (by rw [hpath]; exact List.mem_cons_self)
      have hlength : (t.heap.define f ⟨x, v, isFixed⟩).frames.length = t.heap.frames.length :=
        List.length_modify _ _ _
      constructor
      · show (t.heap.define f ⟨x, v, isFixed⟩).scopes = r.scopes.bind f x ⟨v, isFixed⟩
        rw [t.heap.scopes_define hf, h.scopes]
      · exact h.envs
      · exact hlength.trans h.count
      · intro env henv g hg
        exact hlength.symm ▸ h.bounded env henv g hg
  | set n x v =>
    have hlength := length_frames_envSet t.heap (t.env n) x v
    constructor
    · show (t.heap.envSet (t.env n) x v).2.scopes = (r.scopes.assign (r.path n) x v).2
      rw [(t.heap.envSet_assign _ _ _).2, h.scopes, h.env]
    · exact h.envs
    · exact hlength.trans h.count
    · intro env henv f hf
      exact hlength.symm ▸ h.bounded env henv f hf

/-- **Every sequence of operations.** -/
theorem run_agrees (ops : List EnvOp) : (run ops).Agrees (Reference.run ops) := by
  have hstart : EnvTree.Agrees ⟨⟨[], [], [], [], [], [], [], []⟩, []⟩ ⟨fun _ _ => none, [], 0⟩ := by
    refine ⟨?_, rfl, rfl, List.forall_mem_nil _⟩
    funext f x
    rfl
  unfold run Reference.run
  generalize (⟨⟨[], [], [], [], [], [], [], []⟩, []⟩ : EnvTree) = t at hstart
  generalize (⟨fun _ _ => none, [], 0⟩ : Reference) = r at hstart
  induction ops generalizing t r with
  | nil => exact hstart
  | cons op ops ih => exact ih _ _ (step_agrees hstart op)

end EnvTree

/-! ### What a node sees, and what an assignment changes -/

/-- What `env_set` does from a node with a name that stands for `found`. -/
structure SetsOnly (h : Heap) (env : Env) (x : Text) (v : Value)
    (found : Option (ℕ × Binding Value)) : Prop where
  succeeds : (h.envSet env x v).1 = true ↔ ∃ f b, found = some (f, b) ∧ b.fixed = false
  fails : (h.envSet env x v).1 = false → (h.envSet env x v).2 = h
  changes : (h.envSet env x v).1 = true → ∃ f i e, h.envFind env x = some (f, i, e) ∧
    e.isFixed = false ∧ (h.envSet env x v).2 = h.setVar f i v
  /-- Every entry of every frame stays, but for the one that is found, if it is not fixed. -/
  entries : ∀ g j e, (h.frame g)[j]? = some e →
    ((h.envSet env x v).2.frame g)[j]? = some e ∨
      (h.envFind env x = some (g, j, e) ∧ e.name = x ∧ e.isFixed = false ∧
        ((h.envSet env x v).2.frame g)[j]? = some { e with value := v })
  /-- Along every path, other names stand for what they stood for. -/
  others : ∀ env' y, y ≠ x → (h.envSet env x v).2.envFind env' y = h.envFind env' y

theorem Heap.envFind_setVar {h : Heap} {f i : ℕ} {x y : Text} {e : EnvEntry}
    (hfind : frameFind (h.frame f) x = some (i, e)) (hy : y ≠ x) (v : Value) (env : Env) :
    (h.setVar f i v).envFind env y = h.envFind env y := by
  have hframe : ∀ g, frameFind ((h.setVar f i v).frame g) y = frameFind (h.frame g) y := by
    intro g
    rw [frame_setVar]
    split
    · next hg =>
      subst hg
      exact frameFind_modify_of_ne hfind hy v
    · rfl
  induction env with
  | nil => rfl
  | cons g parent ih => rw [envFind, envFind, hframe, ih]

theorem setsOnly (h : Heap) (env : Env) (x : Text) (v : Value) :
    SetsOnly h env x v (h.scopes.lookup env x) := by
  have hsucceeds : (h.envSet env x v).1 = true ↔
      ∃ f b, h.scopes.lookup env x = some (f, b) ∧ b.fixed = false := by
    rw [(h.envSet_assign env x v).1, Scopes.assign_fst]
  -- what the three branches of `env_set` leave
  have hcases : (h.envSet env x v = (false, h)) ∨ ∃ f i e,
      h.envFind env x = some (f, i, e) ∧ e.isFixed = false ∧
        h.envSet env x v = (true, h.setVar f i v) := by
    unfold Heap.envSet
    cases hfind : h.envFind env x with
    | none => exact .inl rfl
    | some p =>
      obtain ⟨f, i, e⟩ := p
      dsimp only
      cases he : e.isFixed with
      | true => exact .inl rfl
      | false => exact .inr ⟨f, i, e, rfl, he, rfl⟩
  rcases hcases with hset | ⟨f, i, e, hfind, he, hset⟩
  · refine ⟨hsucceeds, ?_, ?_, ?_, ?_⟩ <;> rw [hset]
    · exact fun _ => rfl
    · intro htrue
      cases htrue
    · exact fun _ _ _ hentry => .inl hentry
    · exact fun _ _ _ => rfl
  · obtain ⟨-, hentry⟩ := Heap.envFind_frameFind hfind
    have hspec := Heap.frameFind_eq_some hentry
    refine ⟨hsucceeds, ?_, ?_, ?_, ?_⟩ <;> rw [hset]
    · intro hfalse
      cases hfalse
    · exact fun _ => ⟨f, i, e, hfind, he, rfl⟩
    · intro g j e' hold
      show ((h.setVar f i v).frame g)[j]? = some e' ∨ _ ∧ _ ∧ _ ∧
        ((h.setVar f i v).frame g)[j]? = _
      rw [Heap.frame_setVar]
      by_cases hg : f = g
      · subst hg
        rw [if_pos rfl, List.getElem?_modify]
        by_cases hj : i = j
        · subst hj
          obtain rfl := Option.some.inj (hspec.1.symm.trans hold)
          refine .inr ⟨hfind, hspec.2.1, he, ?_⟩
          rw [hold]
          simp
        · refine .inl ?_
          rw [hold]
          simp [hj]
      · rw [if_neg hg]
        exact .inl hold
    · exact fun env' y hy => Heap.envFind_setVar hentry hy v env'

/-- **Environments are lexical scopes.**  After every sequence of operations on the nodes of
a tree, `env_get` finds at every node the latest definition in the nearest scope that has
the name; and `env_set` succeeds exactly when that binding exists and is not fixed, then
changes its value only, and otherwise nothing: what any node sees under another name, the
bindings in scopes that are not reached first and the fixed ones all stay. -/
theorem env_tree_lexical (ops : List EnvOp) (n : ℕ) (x : Text) :
    (EnvTree.run ops).heap.envGet ((EnvTree.run ops).env n) x
        = ((Reference.run ops).lookup n x).map (fun p => p.2.value) ∧
      ∀ v, SetsOnly (EnvTree.run ops).heap ((EnvTree.run ops).env n) x v
        ((Reference.run ops).lookup n x) := by
  have h := EnvTree.run_agrees ops
  have hlookup : (EnvTree.run ops).heap.scopes.lookup ((EnvTree.run ops).env n) x
      = (Reference.run ops).lookup n x := by
    rw [h.scopes, h.env]
    rfl
  constructor
  · rw [← hlookup, ← Heap.envFind_eq_lookup, Heap.envGet, Option.map_map]
    rfl
  · intro v
    rw [← hlookup]
    exact setsOnly _ _ x v

end Jaguar
