/-
Rules that every run of the interpreter keeps to.

A rule says what is asked of the memory along a run, which values a run may hold, in which
environments its code runs and what it may write to. A lawful rule is kept by every single
effect; so every run keeps it, by induction on the nesting of the calls.

* `RunRule`, `RunRule.Effect` — a rule, and the effects that a run may have under it;
* `RunRule.Lawful` — the effects keep the rule, and what is read is a value that may be held;
* `Obeys` — a program keeps to the rule;
* `obeys_act` — what a single effect has to meet;
* `obeys_define`, `obeys_assignVar`, `obeys_allocAfter`, `obeys_setNative` — the effects there are.
-/
import Jaguar.InterpSteps
import Jaguar.Sorting

set_option linter.unusedSectionVars false

namespace Jaguar

/-! ### Rules -/

/-- All values in a native value. -/
def Native.All (P : Value → Prop) : Native → Prop
  | .task (.ok v) => P v
  | .task (.error _) => True
  | .worker w => (∀ v ∈ w.func, P v) ∧ ∀ v ∈ w.result, P v
  | .workerPool p => (∀ v ∈ p.queue, P v) ∧ ∀ v ∈ p.results, P v
  | .socketConn _ onMessage onClose _ => (∀ v ∈ onMessage, P v) ∧ ∀ v ∈ onClose, P v
  | .superRef _ this => P this

def Native.isSuper : Native → Bool
  | .superRef .. => true
  | _ => false

/-- Only allocations, of values that meet `P`. -/
structure Heap.Allocates (P : Value → Prop) (h h' : Heap) : Prop where
  grows : h.Grows h'
  lists : h.AddsLists h'
  nodes : ∀ node ∈ h'.nodes, node ∈ h.nodes ∨ P node.item
  datas : ∀ d, h'.data d = h.data d ∨ h.datas.length ≤ d ∧ ∀ e ∈ h'.data d, P e.2
  instances : ∀ inst ∈ h'.instances, inst ∈ h.instances ∨ P (.data inst.fields)
  natives : ∀ native ∈ h'.natives, native ∈ h.natives ∨ native.All P

/-- What is asked of a run. -/
structure RunRule (ω : Type) where
  inv : Machine ω → Prop
  step : Exec.Step (Machine ω) Act → Prop
  /-- The values that may be held. -/
  value : Value → Prop
  /-- The frames that may be bound in as one likes. -/
  own : ℕ → Prop
  /-- The environments that code may run in, and the names it may declare there. -/
  runsIn : Env → Prop
  binds : Env → Text → Prop
  /-- The native values that may be written to. -/
  writable : ℕ → Prop
  /-- The error states that may be restored. -/
  saves : Interp → Prop
  /-- A run keeps to the rule as long as its steps meet this. -/
  assumes : Exec.Step (Machine ω) Act → Prop

namespace RunRule

variable {ω : Type} (ρ : RunRule ω)

/-- In a frame of the run's own any name may be defined; elsewhere those that are declared, and
those that mean nothing yet. -/
def MayDefine (s : Machine ω) (f : ℕ) (name : Text) : Prop :=
  ρ.own f ∨ ∃ rest, ρ.runsIn (f :: rest) ∧
    (ρ.binds (f :: rest) name ∨ s.heap.envFind (f :: rest) name = none)

/-- The effects that a run may have. -/
inductive Effect (s : Machine ω) : Act → Machine ω → Prop
  | newFrame : Effect s .newFrame { s with heap := s.heap.newFrame }
  | define (f : ℕ) (e : EnvEntry) : ρ.value e.value → ρ.MayDefine s f e.name →
      Effect s (.define f e.name) { s with heap := s.heap.define f e }
  | setVar (f i : ℕ) (v : Value) (e : EnvEntry) :
      (s.heap.frame f)[i]? = some e → e.isFixed = false → ρ.value v →
      Effect s (.setVar f i) { s with heap := s.heap.setVar f i v }
  | alloc (h : Heap) : s.heap.Allocates ρ.value h → Effect s .alloc { s with heap := h }
  | hoist (f : ℕ) (rest : Env) (list : List Stmt) : ρ.own f → f < s.heap.frames.length →
      Effect s (.hoist (f :: rest))
        { s with heap := (s.heap.hoistClasses list (f :: rest)).hoistFunctions list (f :: rest) }
  | setList (l : ℕ) (h : Heap) : s.heap.Edits l h →
      (∀ node ∈ h.nodes, (∃ node' ∈ s.heap.nodes, node'.item = node.item) ∨ ρ.value node.item) →
      Effect s (.setList l) { s with heap := h }
  | setItem (p : ℕ) (v : Value) : ρ.value v →
      Effect s (.setItem p) { s with heap := s.heap.setItem p v }
  | setData (d : ℕ) (key : Text) (v : Value) : ρ.value (.data d) → ρ.value v →
      Effect s (.setData d key) { s with heap := s.heap.dataSet d key v }
  | setNative (p : ℕ) (native : Native) : ρ.writable p → native.All ρ.value →
      native.isSuper = false → Effect s (.setNative p)
        { s with heap := { s.heap with natives := s.heap.natives.set p native } }
  | advance (p : ℕ) : Effect s (.advance p) s
  | raise (line : ℕ) (msg : Text) : Effect s .raise { s with it := s.it.raise line msg }
  | enterTry : s.it.hadRuntimeError = false → Effect s .enterTry { s with it := s.it.clearError }
  | leaveTry (saved : Interp) : s.it.hadRuntimeError = false → saved.hadRuntimeError = false →
      ρ.saves saved → Effect s .leaveTry { s with it := { s.it with
        hadRuntimeError := saved.hadRuntimeError, errorMessage := saved.errorMessage } }
  | catchError (name : Text) : s.it.hadRuntimeError = true →
      s.heap.frames.getLast? = some
        [⟨name, .string (s.it.errorMessage.getD (txt "error")), false⟩] →
      Effect s .catchError { s with it := s.it.clearError }
  | slot (file : Option ℕ) (path : Option Text) :
      Effect s .slot { s with it := { s.it with openFile := file, openDirPath := path } }
  | world (w : ω) : Effect s .world { s with world := w }

/-- Every effect keeps the rule, and what is read may be held. -/
class Lawful : Prop where
  keeps : ∀ s a s', ρ.inv s → ρ.Effect s a s' → ρ.step ⟨a, s, s'⟩ ∧ ρ.inv s'
  own_new : ∀ s, ρ.inv s → ρ.own s.heap.frames.length
  own_runsIn : ∀ f rest, ρ.own f → ρ.runsIn (f :: rest)
  plain : ∀ v, (∀ d, v ≠ .data d) → ρ.value v
  fresh : ∀ s s' d, ρ.inv s → ρ.assumes ⟨.alloc, s, s'⟩ → s.heap.datas.length ≤ d →
    d < s'.heap.datas.length → ρ.value (.data d)
  fresh_native : ∀ s p, ρ.inv s → s.heap.natives.length ≤ p → ρ.writable p
  entry : ∀ s f e, ρ.inv s → e ∈ s.heap.frame f → ρ.value e.value
  item : ∀ s node, ρ.inv s → node ∈ s.heap.nodes → ρ.value node.item
  data : ∀ s d, ρ.inv s → ρ.value (.data d) → ∀ e ∈ s.heap.data d, ρ.value e.2
  fields : ∀ s inst, ρ.inv s → inst ∈ s.heap.instances → ρ.value (.data inst.fields)
  native : ∀ s p native, ρ.inv s → s.heap.natives[p]? = some native →
    native.All ρ.value ∧ (native.isSuper = false → ρ.writable p)
  saved : ∀ s, ρ.inv s → s.it.hadRuntimeError = false → ρ.saves s.it

end RunRule

/-- Every run keeps to the rule, and returns what meets `post`. -/
def Obeys {ω α : Type} (ρ : RunRule ω) (m : Prog ω α) (post : α → Prop) : Prop :=
  Exec.TripleWhile ρ.assumes ρ.step ρ.inv m fun a s => ρ.inv s ∧ post a

/-- Every run that starts with no error pending does. -/
def ObeysClear {ω α : Type} (ρ : RunRule ω) (m : Prog ω α) (post : α → Prop) : Prop :=
  Exec.TripleWhile ρ.assumes ρ.step (fun s => ρ.inv s ∧ s.it.hadRuntimeError = false) m
    fun a s => ρ.inv s ∧ post a

/-- Nothing is asked of what is returned. -/
def Anything {α : Type} (_ : α) : Prop := True

section Rules

variable {ω α β : Type} {ρ : RunRule ω} {m : Prog ω α} {post : α → Prop} {post' : β → Prop}

theorem obeys_pure {a : α} (h : post a) : Obeys ρ (pure a : Prog ω α) post :=
  Exec.triple_pure fun _ hs => ⟨hs, h⟩

theorem obeys_read {f : Machine ω → α} (h : ∀ s, ρ.inv s → post (f s)) :
    Obeys ρ (Exec.read f : Prog ω α) post :=
  Exec.triple_read fun s hs => ⟨hs, h s hs⟩

theorem obeys_readSome {f : Machine ω → Option α} (h : ∀ s a, ρ.inv s → f s = some a → post a) :
    Obeys ρ (Exec.readSome f : Prog ω α) post :=
  Exec.triple_readSome fun s a hs ha => ⟨hs, h s a hs ha⟩

theorem obeys_giveUp : Obeys ρ (Exec.giveUp : Prog ω α) post := Exec.triple_giveUp

theorem Obeys.bind {f : α → Prog ω β} (hm : Obeys ρ m post)
    (hf : ∀ a, post a → Obeys ρ (f a) post') : Obeys ρ (m >>= f) post' :=
  Exec.TripleWhile.bind hm fun a s hs => hf a hs.2 s hs.1

/-- Nothing is known of what is read. -/
theorem obeys_read_bind {f : Machine ω → α} {g : α → Prog ω β} (h : ∀ a, Obeys ρ (g a) post') :
    Obeys ρ (Exec.read f >>= g) post' :=
  Obeys.bind (show Obeys ρ (Exec.read f) Anything from obeys_read fun _ _ => trivial) fun a _ => h a

theorem obeys_readSome_bind {f : Machine ω → Option α} {g : α → Prog ω β}
    (h : ∀ a, Obeys ρ (g a) post') : Obeys ρ (Exec.readSome f >>= g) post' :=
  Obeys.bind (show Obeys ρ (Exec.readSome f) Anything from obeys_readSome fun _ _ _ _ => trivial)
    fun a _ => h a

theorem Obeys.weaken {post₁ : α → Prop} (h : Obeys ρ m post) (hpost : ∀ a, post a → post₁ a) :
    Obeys ρ m post₁ :=
  Exec.TripleWhile.weaken h (fun _ hs => hs) fun a _ hs => ⟨hs.1, hpost a hs.2⟩

theorem obeys_ite {c : Prop} [Decidable c] {m' : Prog ω α} (h : Obeys ρ m post)
    (h' : Obeys ρ m' post) : Obeys ρ (if c then m else m') post :=
  Exec.triple_ite (fun _ => h) fun _ => h'

theorem Obeys.clear (h : Obeys ρ m post) : ObeysClear ρ m post :=
  Exec.TripleWhile.weaken h (fun _ hs => hs.1) fun _ _ hs => hs

theorem obeysClear_unlessError {dflt : α} (hdflt : post dflt) (h : ObeysClear ρ m post) :
    Obeys ρ (unlessError dflt m) post := by
  refine Exec.TripleWhile.seq (fun b s => ρ.inv s ∧ b = s.it.hadRuntimeError) ?_ fun b => ?_
  · exact Exec.triple_read fun s hs => ⟨hs, rfl⟩
  · cases b with
    | true => exact Exec.triple_pure fun s hs => ⟨hs.1, hdflt⟩
    | false => exact Exec.TripleWhile.weaken h (fun s hs => ⟨hs.1, hs.2.symm⟩) fun _ _ hs => hs

theorem obeys_unlessError {dflt : α} (hdflt : post dflt) (h : Obeys ρ m post) :
    Obeys ρ (unlessError dflt m) post :=
  obeysClear_unlessError hdflt h.clear

/-- One effect. -/
theorem obeys_act [ρ.Lawful] {a : Act} {f : Machine ω → Machine ω}
    (h : ∀ s, ρ.inv s → ρ.Effect s a (f s)) : Obeys ρ (Exec.act a f) Anything :=
  Exec.triple_act fun s hs =>
    have hkeeps := RunRule.Lawful.keeps s a (f s) hs (h s hs)
    ⟨hkeeps.1, hkeeps.2, trivial⟩

theorem obeys_onHeap [ρ.Lawful] {a : Act} {f : Heap → Heap}
    (h : ∀ s, ρ.inv s → ρ.Effect s a { s with heap := f s.heap }) :
    Obeys ρ (onHeap a f : Prog ω Unit) Anything :=
  obeys_act h

theorem obeys_onHeapSome [ρ.Lawful] {a : Act} {f : Heap → Option Heap}
    (h : ∀ s h', ρ.inv s → f s.heap = some h' → ρ.Effect s a { s with heap := h' }) :
    Obeys ρ (onHeapSome a f : Prog ω Unit) Anything := by
  refine Exec.triple_actSome fun s s' hs heq => ?_
  obtain ⟨h', hh', rfl⟩ := Option.map_eq_some_iff.mp heq
  have hkeeps := RunRule.Lawful.keeps s a _ hs (h s h' hs hh')
  exact ⟨hkeeps.1, hkeeps.2, trivial⟩

end Rules

/-! ### Single effects -/

section Single

variable {ω : Type} {ρ : RunRule ω} [ρ.Lawful]

theorem obeys_rtError (line : ℕ) (msg : Text) : Obeys ρ (rtError line msg : Prog ω Unit) Anything :=
  obeys_act fun _ _ => .raise line msg

theorem value_void : ρ.value .void := RunRule.Lawful.plain _ fun _ h => by cases h

theorem value_string (text : Text) : ρ.value (.string text) :=
  RunRule.Lawful.plain _ fun _ h => by cases h

theorem value_num (k : ℤ) : ρ.value (.num k) := RunRule.Lawful.plain _ fun _ h => by cases h

theorem value_bool (b : Bool) : ρ.value (.bool b) := RunRule.Lawful.plain _ fun _ h => by cases h

theorem value_decimal (d : Float) : ρ.value (.decimal d) :=
  RunRule.Lawful.plain _ fun _ h => by cases h

theorem value_list (l : ℕ) : ρ.value (.list l) := RunRule.Lawful.plain _ fun _ h => by cases h

theorem value_native (p : ℕ) : ρ.value (.native p) := RunRule.Lawful.plain _ fun _ h => by cases h

theorem value_inst (i : ℕ) : ρ.value (.inst i) := RunRule.Lawful.plain _ fun _ h => by cases h

theorem obeys_fail (line : ℕ) (msg : Text) : Obeys ρ (fail line msg : Prog ω Value) ρ.value :=
  (obeys_rtError line msg).bind fun _ _ => obeys_pure value_void

theorem obeys_onWorld (f : ω → ω) : Obeys ρ (onWorld f) Anything :=
  obeys_act fun s _ => .world (f s.world)

theorem obeys_fromWorld {α : Type} (f : ω → α × ω) : Obeys ρ (fromWorld f) Anything :=
  obeys_read_bind fun _ => (obeys_onWorld _).bind fun _ _ => obeys_pure trivial

theorem obeys_setOpenFile (p : Option ℕ) : Obeys ρ (setOpenFile p : Prog ω Unit) Anything :=
  obeys_act fun s _ => .slot p s.it.openDirPath

theorem obeys_setOpenDirPath (path : Option Text) :
    Obeys ρ (setOpenDirPath path : Prog ω Unit) Anything :=
  obeys_act fun s _ => .slot s.it.openFile path

/-! ### Environments -/

/-- The innermost frame is one of the run's own. -/
def OwnEnv (ρ : RunRule ω) (env : Env) : Prop := ∃ f rest, env = f :: rest ∧ ρ.own f

theorem OwnEnv.runsIn {env : Env} (h : OwnEnv ρ env) : ρ.runsIn env := by
  obtain ⟨f, rest, rfl, hf⟩ := h
  exact RunRule.Lawful.own_runsIn f rest hf

/-- The innermost frame of the environment is the newest of all, and empty. -/
def NewEnv (ρ : RunRule ω) (env : Env) (s : Machine ω) : Prop :=
  ∃ frames parent, s.heap.frames = frames ++ [[]] ∧ env = frames.length :: parent ∧
    ρ.own frames.length

theorem NewEnv.own {env : Env} {s : Machine ω} (h : NewEnv ρ env s) : OwnEnv ρ env := by
  obtain ⟨frames, parent, -, rfl, hown⟩ := h
  exact ⟨_, _, rfl, hown⟩

/-- A new frame is the innermost of its environment; the interpreter's own state stays. -/
theorem triple_newEnv (K : Interp → Prop) (parent : Env) :
    Exec.TripleWhile ρ.assumes ρ.step (fun s => ρ.inv s ∧ K s.it) (envNew parent : Prog ω Env)
      fun env s => (ρ.inv s ∧ K s.it) ∧ NewEnv ρ env s := by
  refine Exec.TripleWhile.seq (fun g s => (ρ.inv s ∧ K s.it) ∧ g = s.heap.frames.length) ?_ fun g => ?_
  · exact Exec.triple_read fun s hs => ⟨hs, rfl⟩
  refine Exec.TripleWhile.seq (fun _ s => (ρ.inv s ∧ K s.it) ∧ NewEnv ρ (g :: parent) s)
    ?_ fun _ => Exec.triple_pure fun s hs => hs
  refine Exec.triple_act fun s hs => ?_
  obtain ⟨⟨hinv, hK⟩, rfl⟩ := hs
  have hkeeps := RunRule.Lawful.keeps s .newFrame _ hinv .newFrame
  exact ⟨hkeeps.1, ⟨hkeeps.2, hK⟩, s.heap.frames, parent, rfl, rfl,
    RunRule.Lawful.own_new s hinv⟩

theorem obeys_newEnv (parent : Env) : Obeys ρ (envNew parent : Prog ω Env) (OwnEnv ρ) :=
  (triple_newEnv (fun _ => True) parent).weaken (fun _ hs => ⟨hs, trivial⟩)
    fun _ _ hs => ⟨hs.1.1, hs.2.own⟩

theorem obeys_define {f : ℕ} {name : Text} {v : Value} (hv : ρ.value v)
    (hmay : ∀ s, ρ.inv s → ρ.MayDefine s f name) (rest : Env) (isFixed : Bool) :
    Obeys ρ (envDefine (f :: rest) name v isFixed : Prog ω Unit) Anything := by
  show Obeys ρ (onHeap (.define f name) fun h => h.define f ⟨name, v, isFixed⟩) Anything
  exact obeys_onHeap fun s hs => .define f ⟨name, v, isFixed⟩ hv (hmay s hs)

theorem obeys_envDefine {env : Env} (h : OwnEnv ρ env) (name : Text) {v : Value} (hv : ρ.value v)
    (isFixed : Bool) : Obeys ρ (envDefine env name v isFixed : Prog ω Unit) Anything := by
  obtain ⟨f, rest, rfl, hown⟩ := h
  exact obeys_define hv (fun _ _ => .inl hown) rest isFixed

/-- A declaration. -/
theorem obeys_declare {env : Env} (h : ρ.runsIn env) {name : Text} (hname : ρ.binds env name)
    {v : Value} (hv : ρ.value v) (isFixed : Bool) :
    Obeys ρ (envDefine env name v isFixed : Prog ω Unit) Anything := by
  cases env with
  | nil => exact obeys_pure trivial
  | cons f rest => exact obeys_define hv (fun _ _ => .inr ⟨rest, h, .inl hname⟩) rest isFixed

/-- The first entry of a new environment. -/
theorem triple_define_newEnv (K : Interp → Prop) {env : Env} (name : Text) {v : Value}
    (hv : ρ.value v) (isFixed : Bool) :
    Exec.TripleWhile ρ.assumes ρ.step (fun s => (ρ.inv s ∧ K s.it) ∧ NewEnv ρ env s)
      (envDefine env name v isFixed : Prog ω Unit) fun _ s => (ρ.inv s ∧ K s.it) ∧
        OwnEnv ρ env ∧ s.heap.frames.getLast? = some [⟨name, v, isFixed⟩] := by
  intro s hs
  have hown := hs.2.own
  obtain ⟨⟨hinv, hK⟩, frames, parent, heq, rfl, hframe⟩ := hs
  have hlast : (s.heap.define frames.length ⟨name, v, isFixed⟩).frames.getLast?
      = some [⟨name, v, isFixed⟩] := by
    show (s.heap.frames.modify frames.length _).getLast? = _
    rw [heq, modify_last, List.getLast?_append]
    rfl
  have hkeeps := RunRule.Lawful.keeps s _ _ hinv
    (.define frames.length ⟨name, v, isFixed⟩ hv (.inl hframe))
  have hact := @Exec.triple_act (Machine ω) Act ρ.assumes ρ.step (· = s) (.define frames.length name)
    (fun s => { s with heap := s.heap.define frames.length ⟨name, v, isFixed⟩ })
    (fun _ s => (ρ.inv s ∧ K s.it) ∧ OwnEnv ρ (frames.length :: parent) ∧
      s.heap.frames.getLast? = some [⟨name, v, isFixed⟩])
  refine hact (fun s' hs' => ?_) s rfl
  subst hs'
  exact ⟨hkeeps.1, ⟨hkeeps.2, hK⟩, hown, hlast⟩

theorem value_envFind {s : Machine ω} (hs : ρ.inv s) {env : Env} {name : Text} {f i : ℕ}
    {e : EnvEntry} (h : s.heap.envFind env name = some (f, i, e)) : ρ.value e.value :=
  RunRule.Lawful.entry s f e hs (List.mem_of_getElem? (Heap.envFind_spec h).2.1)

theorem obeys_envGet (env : Env) (name : Text) :
    Obeys ρ (envGet env name : Prog ω (Option Value)) fun v => ∀ w ∈ v, ρ.value w := by
  refine obeys_read fun s hs w hw => ?_
  obtain ⟨⟨f, i, e⟩, hfind, rfl⟩ := Option.map_eq_some_iff.mp hw
  exact value_envFind hs hfind

/-- An assignment to a variable that is not fixed: where none is bound, one is defined. -/
theorem obeys_assignVar {env : Env} (henv : ρ.runsIn env) (name : Text) {v : Value}
    (hv : ρ.value v) {m : Prog ω Unit} (hm : Obeys ρ m Anything) :
    Obeys ρ (do
      let isFixed ← envIsFixed env name
      if isFixed then m
      else do
        let done ← envSet env name v
        if done then pure () else envDefine env name v false : Prog ω Unit) Anything := by
  refine Exec.TripleWhile.seq (fun isFixed s => ρ.inv s ∧ isFixed = s.heap.envIsFixed env name)
    (Exec.triple_read fun s hs => ⟨hs, rfl⟩) fun isFixed => ?_
  cases isFixed with
  | true => exact Exec.TripleWhile.weaken hm (fun s hs => hs.1) fun _ _ hs => hs
  | false =>
    refine Exec.TripleWhile.seq (fun done s => ρ.inv s ∧
      (done = true ∨ s.heap.envFind env name = none)) ?_ fun done => ?_
    · refine Exec.TripleWhile.seq (fun found s => (ρ.inv s ∧ false = s.heap.envIsFixed env name) ∧
        found = s.heap.envFind env name) (Exec.triple_read fun s hs => ⟨hs, rfl⟩) fun found => ?_
      cases found with
      | none => exact Exec.triple_pure fun s hs => ⟨hs.1.1, .inr hs.2.symm⟩
      | some p =>
        obtain ⟨f, i, e⟩ := p
        have hfixed : ∀ s : Machine ω, (ρ.inv s ∧ false = s.heap.envIsFixed env name) ∧
            some (f, i, e) = s.heap.envFind env name → e.isFixed = false := by
          rintro s ⟨⟨-, hfixed⟩, hfind⟩
          rw [Heap.envIsFixed, ← hfind] at hfixed
          exact hfixed.symm
        refine Exec.triple_ite (fun htrue => Exec.triple_pure fun s hs => ?_) fun _ => ?_
        · rw [hfixed s hs] at htrue
          cases htrue
        · refine Exec.TripleWhile.seq (fun _ => ρ.inv) (Exec.triple_act fun s hs => ?_) fun _ =>
            Exec.triple_pure fun s hs => ⟨hs, .inl rfl⟩
          exact RunRule.Lawful.keeps s _ _ hs.1.1
            (.setVar f i v e (Heap.envFind_spec hs.2.symm).2.1 (hfixed s hs) hv)
    · cases done with
      | true => exact Exec.triple_pure fun s hs => ⟨hs.1, trivial⟩
      | false =>
        cases env with
        | nil => exact Exec.triple_pure fun s hs => ⟨hs.1, trivial⟩
        | cons f rest =>
          refine Exec.triple_act fun s hs => ?_
          have hnone := hs.2.resolve_left Bool.false_ne_true
          have hkeeps := RunRule.Lawful.keeps s _ _ hs.1
            (.define f ⟨name, v, false⟩ hv (.inr ⟨rest, henv, .inr hnone⟩))
          exact ⟨hkeeps.1, hkeeps.2, trivial⟩

theorem obeys_bindParams {env : Env} (h : OwnEnv ρ env) (params : List Param) :
    ∀ argv : List Value, (∀ v ∈ argv, ρ.value v) →
      Obeys ρ (bindParams params argv env : Prog ω Unit) Anything := by
  induction params with
  | nil => exact fun _ _ => obeys_pure trivial
  | cons p params ih =>
    intro argv hargv
    have hhead : ρ.value (argv.headD .void) := by
      cases argv with
      | nil => exact value_void
      | cons v argv => exact hargv v List.mem_cons_self
    exact (obeys_envDefine h p.name hhead false).bind fun _ _ =>
      ih argv.tail fun v hv => hargv v (List.mem_of_mem_tail hv)

/-! ### Allocation -/

section Allocates

variable {P : Value → Prop} {h h' h'' : Heap}

theorem Heap.Allocates.refl (h : Heap) : h.Allocates P h where
  grows := Heap.Grows.refl h
  lists := .refl
  nodes _ hnode := .inl hnode
  datas _ := .inl rfl
  instances _ hinst := .inl hinst
  natives _ hnative := .inl hnative

theorem Heap.Allocates.trans (h₁ : h.Allocates P h') (h₂ : h'.Allocates P h'') :
    h.Allocates P h'' where
  grows := h₁.grows.trans h₂.grows
  lists := h₁.lists.trans h₂.lists
  nodes node hnode := (h₂.nodes node hnode).elim (h₁.nodes node) .inr
  datas d := by
    rcases h₂.datas d with heq | ⟨hle, hvalues⟩
    · rw [heq]
      exact h₁.datas d
    · exact .inr ⟨Nat.le_trans h₁.grows.datas.length_le hle, hvalues⟩
  instances inst hinst := (h₂.instances inst hinst).elim (h₁.instances inst) .inr
  natives native hnative := (h₂.natives native hnative).elim (h₁.natives native) .inr

theorem Heap.allocates_addList (h : Heap) {items : List Value} (hitems : ∀ v ∈ items, P v) :
    h.Allocates P (h.addList items) where
  grows := h.grows_addList items
  lists := .add items .refl
  nodes node hnode := by
    rcases List.mem_append.mp hnode with hold | hnew
    · exact .inl hold
    · obtain ⟨i, hi, rfl⟩ := List.mem_mapIdx.mp hnew
      exact .inr (hitems _ (List.getElem_mem hi))
  datas _ := .inl rfl
  instances _ hinst := .inl hinst
  natives _ hnative := .inl hnative

theorem Heap.allocates_addData (h : Heap) {entries : DataList Value}
    (hentries : ∀ e ∈ entries, P e.2) : h.Allocates P (h.addData entries) where
  grows := h.grows_addData entries
  lists := .other .refl rfl rfl
  nodes _ hnode := .inl hnode
  datas d := by
    show (h.datas ++ [entries]).getD d [] = h.datas.getD d [] ∨ _ ∧
      ∀ e ∈ (h.datas ++ [entries]).getD d [], P e.2
    rcases Nat.lt_or_ge d h.datas.length with hlt | hge
    · exact .inl (List.getD_append _ _ _ _ hlt)
    · rw [List.getD_append_right _ _ _ _ hge]
      refine .inr ⟨hge, ?_⟩
      cases d - h.datas.length with
      | zero => exact hentries
      | succ k => exact fun e he => absurd he List.not_mem_nil
  instances _ hinst := .inl hinst
  natives _ hnative := .inl hnative

theorem Heap.length_datas_addData (h : Heap) (entries : DataList Value) :
    h.datas.length < (h.addData entries).datas.length := by
  show _ < (h.datas ++ [entries]).length
  simp

theorem Heap.allocates_addFunc (h : Heap) (fv : FuncValue) :
    h.Allocates P { h with funcs := h.funcs ++ [fv] } :=
  { Heap.Allocates.refl h with
    grows := { Heap.Grows.refl h with funcs := List.prefix_append _ _ }
    lists := .other .refl rfl rfl }

theorem Heap.allocates_addInstance (h : Heap) {inst : Instance} (hinst : P (.data inst.fields)) :
    h.Allocates P { h with instances := h.instances ++ [inst] } :=
  { Heap.Allocates.refl h with
    grows := { Heap.Grows.refl h with instances := List.prefix_append _ _ }
    lists := .other .refl rfl rfl
    instances := by
      intro inst' hinst'
      rcases List.mem_append.mp hinst' with hold | hnew
      · exact .inl hold
      · obtain rfl := List.mem_singleton.mp hnew
        exact .inr hinst }

theorem Heap.allocates_addNative (h : Heap) {native : Native} (hnative : native.All P) :
    h.Allocates P { h with natives := h.natives ++ [native] } :=
  { Heap.Allocates.refl h with
    grows := { Heap.Grows.refl h with natives := List.prefix_append _ _ }
    lists := .other .refl rfl rfl
    natives := by
      intro native' hnative'
      rcases List.mem_append.mp hnative' with hold | hnew
      · exact .inl hold
      · obtain rfl := List.mem_singleton.mp hnew
        exact .inr hnative }

end Allocates

/-- What is allocated is new: the assumption of the rule is looked at for this step. -/
theorem obeys_allocAfter {β : Type} {g : Machine ω → β} {f : β → Heap → Heap} {post : β → Prop}
    (h : ∀ s, ρ.inv s → ρ.assumes ⟨.alloc, s, { s with heap := f (g s) s.heap }⟩ →
      s.heap.Allocates ρ.value (f (g s) s.heap) ∧ post (g s)) :
    Obeys ρ (do
      let b ← Exec.read g
      onHeap .alloc (f b)
      pure b : Prog ω β) post := by
  refine Exec.TripleWhile.seq (fun b s => ρ.inv s ∧ b = g s)
    (Exec.triple_read fun s hs => ⟨hs, rfl⟩) fun b => ?_
  refine Exec.TripleWhile.seq (fun _ s => ρ.inv s ∧ post b) (Exec.triple_assume ?_) fun _ =>
    Exec.triple_pure fun s hs => hs
  rintro s ⟨hs, rfl⟩ hassumes
  obtain ⟨halloc, hpost⟩ := h s hs hassumes
  have hkeeps := RunRule.Lawful.keeps s _ _ hs (.alloc _ halloc)
  exact ⟨hkeeps.1, hkeeps.2, hpost⟩

theorem obeys_alloc {size : Heap → ℕ} {f : Heap → Heap}
    (h : ∀ s, ρ.inv s → s.heap.Allocates ρ.value (f s.heap)) :
    Obeys ρ (alloc size f : Prog ω ℕ) Anything :=
  obeys_allocAfter fun s hs _ => ⟨h s hs, trivial⟩

theorem obeys_newList {items : List Value} (h : ∀ v ∈ items, ρ.value v) :
    Obeys ρ (newList items : Prog ω ℕ) Anything :=
  obeys_alloc fun s _ => s.heap.allocates_addList h

theorem obeys_newData {entries : DataList Value} (h : ∀ e ∈ entries, ρ.value e.2) :
    Obeys ρ (newData entries : Prog ω ℕ) fun d => ρ.value (.data d) :=
  obeys_allocAfter fun s hs hassumes => ⟨s.heap.allocates_addData h,
    RunRule.Lawful.fresh s _ _ hs hassumes (Nat.le_refl _) (s.heap.length_datas_addData entries)⟩

theorem obeys_newFunc (fv : FuncValue) : Obeys ρ (newFunc fv : Prog ω ℕ) Anything :=
  obeys_alloc fun s _ => s.heap.allocates_addFunc fv

theorem obeys_newInstance {inst : Instance} (h : ρ.value (.data inst.fields)) :
    Obeys ρ (newInstance inst : Prog ω ℕ) Anything :=
  obeys_alloc fun s _ => s.heap.allocates_addInstance h

theorem obeys_newNative {native : Native} (h : native.All ρ.value) :
    Obeys ρ (newNative native : Prog ω ℕ) ρ.writable :=
  obeys_allocAfter fun s hs _ =>
    ⟨s.heap.allocates_addNative h, RunRule.Lawful.fresh_native s _ hs (Nat.le_refl _)⟩

theorem obeys_taskDone {result : Value} (h : ρ.value result) :
    Obeys ρ (taskDone result : Prog ω Value) ρ.value :=
  (obeys_newNative (show (Native.task (.ok result)).All ρ.value from h)).bind fun p _ =>
    obeys_pure (value_native p)

theorem obeys_taskError (message : Text) : Obeys ρ (taskError message : Prog ω Value) ρ.value :=
  (obeys_newNative (show (Native.task (.error message)).All ρ.value from trivial)).bind fun p _ =>
    obeys_pure (value_native p)

section Json

variable {P : Value → Prop} {n₀ n₁ : ℕ} (hplain : ∀ v, (∀ d, v ≠ .data d) → P v)
  (hfresh : ∀ d, n₀ ≤ d → d < n₁ → P (.data d))

include hplain hfresh

mutual

/-- Decoded data is fresh. -/
theorem Heap.allocates_ofJson (h : Heap) (v : JsonVal) (hle : n₀ ≤ h.datas.length)
    (hend : (h.ofJson v).1.datas.length ≤ n₁) :
    h.Allocates P (h.ofJson v).1 ∧ P (h.ofJson v).2 := by
  cases v with
  | list items =>
    unfold Heap.ofJson at hend ⊢
    have hitems := Heap.allocates_ofJsonItems h items hle hend
    exact ⟨hitems.1.trans (Heap.allocates_addList _ hitems.2), hplain _ fun _ h => by cases h⟩
  | data entries =>
    unfold Heap.ofJson at hend ⊢
    have hlt := Nat.lt_of_lt_of_le ((h.ofJsonEntries entries).1.length_datas_addData _) hend
    have hentries := Heap.allocates_ofJsonEntries h entries hle (Nat.le_of_lt hlt)
    exact ⟨hentries.1.trans (Heap.allocates_addData _ hentries.2),
      hfresh _ (Nat.le_trans hle hentries.1.grows.datas.length_le) hlt⟩
  | _ =>
    unfold Heap.ofJson
    exact ⟨.refl h, hplain _ fun _ h => by cases h⟩

theorem Heap.allocates_ofJsonItems (h : Heap) (vs : List JsonVal) (hle : n₀ ≤ h.datas.length)
    (hend : (h.ofJsonItems vs).1.datas.length ≤ n₁) :
    h.Allocates P (h.ofJsonItems vs).1 ∧ ∀ v ∈ (h.ofJsonItems vs).2, P v := by
  cases vs with
  | nil => exact ⟨.refl h, fun v hv => absurd hv List.not_mem_nil⟩
  | cons v vs =>
    unfold Heap.ofJsonItems at hend ⊢
    have hgrows := Heap.grows_ofJsonItems (h.ofJson v).1 vs
    have hv := Heap.allocates_ofJson h v hle (Nat.le_trans hgrows.datas.length_le hend)
    have hvs := Heap.allocates_ofJsonItems (h.ofJson v).1 vs
      (Nat.le_trans hle hv.1.grows.datas.length_le) hend
    exact ⟨hv.1.trans hvs.1, List.forall_mem_cons.mpr ⟨hv.2, hvs.2⟩⟩

theorem Heap.allocates_ofJsonEntries (h : Heap) (es : List (Text × JsonVal))
    (hle : n₀ ≤ h.datas.length) (hend : (h.ofJsonEntries es).1.datas.length ≤ n₁) :
    h.Allocates P (h.ofJsonEntries es).1 ∧ ∀ e ∈ (h.ofJsonEntries es).2, P e.2 := by
  cases es with
  | nil => exact ⟨.refl h, fun e he => absurd he List.not_mem_nil⟩
  | cons e es =>
    obtain ⟨k, v⟩ := e
    unfold Heap.ofJsonEntries at hend ⊢
    have hgrows := Heap.grows_ofJsonEntries (h.ofJson v).1 es
    have hv := Heap.allocates_ofJson h v hle (Nat.le_trans hgrows.datas.length_le hend)
    have hes := Heap.allocates_ofJsonEntries (h.ofJson v).1 es
      (Nat.le_trans hle hv.1.grows.datas.length_le) hend
    exact ⟨hv.1.trans hes.1, List.forall_mem_cons.mpr ⟨hv.2, hes.2⟩⟩

end

end Json

theorem obeys_jsonParseText (text : Text) :
    Obeys ρ (jsonParseText text : Prog ω Value) ρ.value := by
  refine obeys_readSome_bind fun json => ?_
  exact obeys_allocAfter fun s hs hassumes =>
    Heap.allocates_ofJson RunRule.Lawful.plain
      (fun d hd hd' => RunRule.Lawful.fresh s _ d hs hassumes hd hd') s.heap json (Nat.le_refl _)
      (Nat.le_refl _)

/-! ### Lists, data and native values -/

theorem obeys_nodeOf (p : ℕ) :
    Obeys ρ (nodeOf p : Prog ω ListNode) fun node => ρ.value node.item :=
  obeys_readSome fun s node hs hnode => RunRule.Lawful.item s node hs (List.mem_of_getElem? hnode)

theorem value_itemsFrom {s : Machine ω} (hs : ρ.inv s) {n : ℕ} {cur : Option ℕ}
    {items : List Value} (h : s.heap.itemsFrom n cur = some items) : ∀ v ∈ items, ρ.value v := by
  induction n generalizing cur items with
  | zero =>
    cases cur with
    | none =>
      obtain rfl := Option.some.inj h
      exact fun v hv => absurd hv List.not_mem_nil
    | some p => cases h
  | succ n ih =>
    cases cur with
    | none =>
      obtain rfl := Option.some.inj h
      exact fun v hv => absurd hv List.not_mem_nil
    | some p =>
      rw [Heap.itemsFrom] at h
      split at h
      · cases h
      · next node hnode =>
        obtain ⟨rest, hrest, rfl⟩ := Option.map_eq_some_iff.mp h
        exact List.forall_mem_cons.mpr
          ⟨RunRule.Lawful.item s node hs (List.mem_of_getElem? hnode), ih hrest⟩

theorem obeys_listItems (l : ℕ) :
    Obeys ρ (listItems l : Prog ω (List Value)) fun items => ∀ v ∈ items, ρ.value v :=
  obeys_readSome fun _ _ hs hitems => value_itemsFrom hs hitems

/-- The items of the nodes are those there were, or new ones that meet `P`. -/
def Heap.ItemsFrom (P : Value → Prop) (h h' : Heap) : Prop :=
  ∀ node ∈ h'.nodes, (∃ node' ∈ h.nodes, node'.item = node.item) ∨ P node.item

section Items

variable {P : Value → Prop} {h h' h'' : Heap}

theorem Heap.ItemsFrom.refl (h : Heap) : h.ItemsFrom P h := fun node hnode => .inl ⟨node, hnode, rfl⟩

theorem Heap.ItemsFrom.trans (h₁ : h.ItemsFrom P h') (h₂ : h'.ItemsFrom P h'') :
    h.ItemsFrom P h'' := by
  intro node hnode
  rcases h₂ node hnode with ⟨node', hnode', heq⟩ | hnew
  · rw [← heq]
    exact h₁ node' hnode'
  · exact .inr hnew

/-- A node is written to, but for its item. -/
theorem Heap.itemsFrom_modify (h : Heap) (p : ℕ) {f : ListNode → ListNode}
    (hf : ∀ node, (f node).item = node.item) :
    h.ItemsFrom P { h with nodes := h.nodes.modify p f } := by
  intro node hnode
  obtain ⟨i, hi⟩ := List.mem_iff_getElem?.mp hnode
  rw [List.getElem?_modify] at hi
  obtain ⟨node', hnode', heq⟩ := Option.map_eq_some_iff.mp hi
  refine .inl ⟨node', List.mem_of_getElem? hnode', ?_⟩
  rw [← heq]
  split
  · exact (hf node').symm
  · rfl

theorem Heap.itemsFrom_newNode (h : Heap) {item : Value} (hitem : P item) (next : Option ℕ) :
    h.ItemsFrom P (h.newNode item next) := by
  intro node hnode
  rcases List.mem_append.mp hnode with hold | hnew
  · exact .inl ⟨node, hold, rfl⟩
  · obtain rfl := List.mem_singleton.mp hnew
    exact .inr hitem

theorem Heap.itemsFrom_listAppend {n l : ℕ} {item : Value} (hitem : P item)
    (happend : h.listAppend n l item = some h') : h.ItemsFrom P h' := by
  unfold listAppend at happend
  split at happend
  · obtain rfl := Option.some.inj happend
    exact h.itemsFrom_newNode hitem none
  · obtain ⟨last, -, rfl⟩ := Option.map_eq_some_iff.mp happend
    exact (h.itemsFrom_newNode hitem none).trans (Heap.itemsFrom_modify _ _ fun _ => rfl)

theorem Heap.itemsFrom_listDelete {l : ℕ} {idx : ℤ} {n : ℕ} {prev cur : Option ℕ} {i : ℤ}
    (hdelete : h.listDelete l idx n prev cur i = some h') : h.ItemsFrom P h' := by
  induction n generalizing prev cur i with
  | zero =>
    cases cur with
    | none =>
      obtain rfl := Option.some.inj hdelete
      exact .refl h
    | some p => cases hdelete
  | succ n ih =>
    cases cur with
    | none =>
      obtain rfl := Option.some.inj hdelete
      exact .refl h
    | some p =>
      rw [listDelete] at hdelete
      split at hdelete
      · cases hdelete
      · next node hnode =>
        split_ifs at hdelete with hi
        · obtain rfl := Option.some.inj hdelete
          have hfree : ∀ g : Heap, g.ItemsFrom P (g.freeNode p) := fun g =>
            g.itemsFrom_modify p fun _ => rfl
          cases prev with
          | none => exact (show h.ItemsFrom P (h.setHead l node.next) from .refl h).trans (hfree _)
          | some q =>
            exact (show h.ItemsFrom P (h.setNext q node.next) from
              h.itemsFrom_modify q fun _ => rfl).trans (hfree _)
        · exact ih hdelete

theorem Heap.itemsFrom_newNodes (h : Heap) (l : ℕ) {items : List Value}
    (hitems : ∀ v ∈ items, P v) : h.ItemsFrom P (h.newNodes l items) := by
  intro node hnode
  rcases List.mem_append.mp hnode with hold | hnew
  · exact .inl ⟨node, hold, rfl⟩
  · obtain ⟨i, hi, rfl⟩ := List.mem_mapIdx.mp hnew
    exact .inr (hitems _ (List.getElem_mem hi))

end Items

theorem obeys_valueListAppend (l : ℕ) {item : Value} (h : ρ.value item) :
    Obeys ρ (valueListAppend l item : Prog ω Unit) Anything :=
  obeys_onHeapSome fun _ _ _ happend =>
    .setList l _ (.append item happend) (Heap.itemsFrom_listAppend h happend)

theorem obeys_valueListInsertFront (l : ℕ) {item : Value} (h : ρ.value item) :
    Obeys ρ (valueListInsertFront l item : Prog ω Unit) Anything :=
  obeys_onHeap fun s _ => .setList l _ (.insertFront item) (s.heap.itemsFrom_newNode h _)

theorem obeys_listDeleteAt (l : ℕ) (idx : ℤ) :
    Obeys ρ (listDeleteAt l idx : Prog ω Unit) Anything :=
  obeys_onHeapSome fun _ _ _ hdelete =>
    .setList l _ (.delete idx hdelete) (Heap.itemsFrom_listDelete hdelete)

theorem obeys_setItems (l : ℕ) {items : List Value} (h : ∀ v ∈ items, ρ.value v) :
    Obeys ρ (setItems l items : Prog ω Unit) Anything :=
  obeys_onHeap fun s _ => .setList l _ (.setItems items) (s.heap.itemsFrom_newNodes l h)

theorem obeys_nextNode (p : ℕ) : Obeys ρ (nextNode p : Prog ω (Option ℕ)) Anything :=
  (obeys_act fun _ _ => .advance p).bind fun _ _ => obeys_readSome fun _ _ _ _ => trivial

theorem obeys_valueDataSet {d : ℕ} (hd : ρ.value (.data d)) (key : Text) {v : Value}
    (hv : ρ.value v) : Obeys ρ (valueDataSet d key v : Prog ω Unit) Anything :=
  obeys_onHeap fun _ _ => .setData d key v hd hv

theorem obeys_valueDataGet {d : ℕ} (hd : ρ.value (.data d)) (key : Text) :
    Obeys ρ (valueDataGet d key : Prog ω (Option Value)) fun v => ∀ w ∈ v, ρ.value w := by
  refine obeys_read fun s hs w hw => ?_
  obtain ⟨e, he, rfl⟩ := mem_of_dataGet hw
  exact RunRule.Lawful.data s d hs hd e he

theorem obeys_instanceOf (i : ℕ) :
    Obeys ρ (instanceOf i : Prog ω Instance) fun inst => ρ.value (.data inst.fields) :=
  obeys_readSome fun s inst hs hinst =>
    RunRule.Lawful.fields s inst hs (List.mem_of_getElem? hinst)

theorem obeys_nativeOf (p : ℕ) : Obeys ρ (nativeOf p : Prog ω Native) fun native =>
    native.All ρ.value ∧ (native.isSuper = false → ρ.writable p) :=
  obeys_readSome fun s native hs hnative => RunRule.Lawful.native s p native hs hnative

theorem obeys_setNative {p : ℕ} (hp : ρ.writable p) {native : Native} (h : native.All ρ.value)
    (hsuper : native.isSuper = false) : Obeys ρ (setNative p native : Prog ω Unit) Anything :=
  obeys_onHeap fun _ _ => .setNative p native hp h hsuper

/-! ### What calls no program code -/

theorem arith_plain {pow : Float → Float → Float} {op : TokenType} {l r v : Value}
    (h : arith pow op l r = .ok v) (d : ℕ) : v ≠ .data d := by
  unfold arith at h
  rintro rfl
  split_ifs at h
  dsimp only at h
  split at h <;> (try split_ifs at h) <;> cases h

theorem obeys_evalBinary [Host ω] (n : ℕ) (op : TokenType) (l r : Value) (line : ℕ) :
    Obeys ρ (evalBinary n op l r line : Prog ω Value) ρ.value := by
  unfold evalBinary
  refine obeys_ite ?_ ?_
  · exact obeys_readSome_bind fun _ => obeys_readSome_bind fun _ => obeys_pure (value_string _)
  · have hboth : ∀ f : Bool → Bool → Bool, Obeys ρ (do
          let lt ← truthy l
          let rt ← truthy r
          pure (.bool (f lt rt)) : Prog ω Value) ρ.value := fun f =>
      obeys_read_bind fun _ => obeys_read_bind fun _ => obeys_pure (value_bool _)
    split
    · exact obeys_pure (value_bool _)
    · exact obeys_pure (value_bool _)
    · exact hboth fun lt rt => lt && rt
    · exact hboth fun lt rt => lt || rt
    · refine obeys_ite obeys_giveUp ?_
      split
      · next v hv => exact obeys_pure (RunRule.Lawful.plain v (arith_plain hv))
      · exact obeys_fail _ _

theorem obeys_responseHeaders {d : ℕ} (hd : ρ.value (.data d)) :
    Obeys ρ (responseHeaders d : Prog ω ℕ) fun headers => ρ.value (.data headers) := by
  refine obeys_readSome fun s headers hs h => ?_
  split at h
  · next w hget =>
    obtain rfl := Option.some.inj h
    obtain ⟨e, he, heq⟩ := mem_of_dataGet hget
    exact heq ▸ RunRule.Lawful.data s d hs hd e he
  · cases h

theorem obeys_httpResponseCallMethod (n : ℕ) {d : ℕ} (hd : ρ.value (.data d)) (method : Text)
    (argv : List Value) : Obeys ρ (httpResponseCallMethod n d method argv : Prog ω (Option Value))
      fun v => ∀ w ∈ v, ρ.value w := by
  have hself : ∀ w ∈ some (Value.data d), ρ.value w := fun w hw => Option.some.inj hw ▸ hd
  have hset : ∀ {key v}, ρ.value v → Obeys ρ (do
      valueDataSet d key v
      pure (some (.data d)) : Prog ω (Option Value)) fun v => ∀ w ∈ v, ρ.value w := fun hv =>
    (obeys_valueDataSet hd _ hv).bind fun _ _ => obeys_pure hself
  have hheader : ∀ {key v}, ρ.value v → Obeys ρ (do
      let headers ← responseHeaders d
      valueDataSet headers key v
      pure (some (.data d)) : Prog ω (Option Value)) fun v => ∀ w ∈ v, ρ.value w := fun hv =>
    (obeys_responseHeaders hd).bind fun headers hheaders =>
      (obeys_valueDataSet hheaders _ hv).bind fun _ _ => obeys_pure hself
  unfold httpResponseCallMethod
  refine obeys_ite ?_ (obeys_ite ?_ (obeys_ite ?_ (obeys_ite ?_ ?_)))
  · exact obeys_readSome_bind fun s => hset (value_string s)
  · refine Obeys.bind (show Obeys ρ _ Anything from ?_) fun s _ =>
      (obeys_valueDataSet hd _ (value_string s)).bind fun _ _ => hheader (value_string _)
    cases argv with
    | nil => exact obeys_pure trivial
    | cons v argv => exact obeys_readSome fun _ _ _ _ => trivial
  · exact hset (value_num _)
  · split
    · exact (obeys_responseHeaders hd).bind fun headers hheaders => obeys_readSome_bind fun s =>
        (obeys_valueDataSet hheaders _ (value_string s)).bind fun _ _ => obeys_pure hself
    · exact obeys_pure hself
  · exact obeys_pure fun w hw => by cases hw

theorem obeys_doRequest [Host ω] (method url : Text) (body : Option Text) :
    Obeys ρ (doRequest method url body : Prog ω Value) ρ.value := by
  refine (obeys_fromWorld _).bind fun reply _ => ?_
  cases reply with
  | error message => exact obeys_taskError _
  | ok reply =>
    have hheaders : ∀ (es : List (Text × Text)) (d : DataList Value), (∀ e ∈ d, ρ.value e.2) →
        ∀ e ∈ es.foldl (fun d e => dataSet d e.1 (.string e.2)) d, ρ.value e.2 := by
      intro es
      induction es with
      | nil => exact fun _ hd => hd
      | cons e es ih =>
        refine fun d hd => ih _ fun e' he' => ?_
        rcases mem_dataSet he' with hold | rfl
        · exact hd e' hold
        · exact value_string _
    refine (obeys_newData (hheaders _ [] fun e he => absurd he List.not_mem_nil)).bind
      fun headers hheaders => ?_
    refine (obeys_newData ?_).bind fun result hresult => obeys_taskDone hresult
    exact List.forall_mem_cons.mpr ⟨value_string _, List.forall_mem_cons.mpr ⟨hheaders,
      List.forall_mem_cons.mpr ⟨value_num _, fun e he => absurd he List.not_mem_nil⟩⟩⟩

theorem obeys_wsConnCallMethod [Host ω] (n : ℕ) {p : ℕ} (hp : ρ.writable p) (fd : ℤ)
    {onMessage onClose : Option Value} {closed : Bool}
    (hconn : (Native.socketConn fd onMessage onClose closed).All ρ.value) (method : Text)
    {argv : List Value} (hargv : ∀ v ∈ argv, ρ.value v) :
    Obeys ρ (wsConnCallMethod n p fd onMessage onClose closed method argv :
      Prog ω (Option Value)) fun v => ∀ w ∈ v, ρ.value w := by
  have hvoid : ∀ w ∈ some Value.void, ρ.value w := fun w hw => Option.some.inj hw ▸ value_void
  have hset : ∀ {onMessage' onClose' closed'},
      (Native.socketConn fd onMessage' onClose' closed').All ρ.value → Obeys ρ (do
        setNative p (.socketConn fd onMessage' onClose' closed')
        pure (some .void) : Prog ω (Option Value)) fun v => ∀ w ∈ v, ρ.value w := fun h =>
    (obeys_setNative hp h rfl).bind fun _ _ => obeys_pure hvoid
  unfold wsConnCallMethod
  refine obeys_ite ?_ (obeys_ite ?_ (obeys_ite ?_ (obeys_pure fun w hw => by cases hw)))
  · split
    · next event f rest =>
      have hf : ∀ v ∈ some f, ρ.value v := by
        intro v hv
        obtain rfl := Option.some.inj hv
        exact hargv _ (List.mem_cons_of_mem _ List.mem_cons_self)
      exact obeys_ite (hset ⟨hf, hconn.2⟩) (obeys_ite (hset ⟨hconn.1, hf⟩) (obeys_pure hvoid))
    · exact obeys_pure hvoid
  · split
    · exact obeys_ite (obeys_pure hvoid) (obeys_readSome_bind fun _ =>
        (obeys_onWorld _).bind fun _ _ => obeys_pure hvoid)
    · exact obeys_pure hvoid
  · exact obeys_ite (obeys_pure hvoid) ((obeys_onWorld _).bind fun _ _ => hset hconn)

end Single

end Jaguar
