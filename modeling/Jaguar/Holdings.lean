/-
What the memory holds.

A value that a run writes is one it has read, or one it has just made, so no place of the memory
ever holds the number of a data value that is not there yet. While the run goes on the values
it has in hand are bounded beforehand: by the number of data values that there are at the end.

* `Heap.HoldsOnly` — every place of the memory holds a value that meets a condition;
* `RunRule.Effect.holdsOnly` — **what a run may write keeps the memory to the condition**;
* `bornRule` — as long as there are at most so many data values, all that is held is below that;
* `Known.holdsOnly` — **the data values that the memory holds are there**, in every state of a run.
-/
import Jaguar.EnvTree
import Jaguar.Sessions
import Jaguar.LawfulRuns

namespace Jaguar

/-! ### Places -/

theorem mem_or_of_mem_modify {α : Type*} {l : List α} {i : ℕ} {f : α → α} {a : α}
    (h : a ∈ l.modify i f) : a ∈ l ∨ ∃ b ∈ l, a = f b := by
  obtain ⟨j, hj⟩ := List.mem_iff_getElem?.mp h
  rw [List.getElem?_modify] at hj
  obtain ⟨b, hb, rfl⟩ := Option.map_eq_some_iff.mp hj
  have hmem := List.mem_of_getElem? hb
  split
  · exact .inr ⟨b, hmem, rfl⟩
  · exact .inl hmem

/-- Every place of the memory holds a value that meets `P`. -/
structure Heap.HoldsOnly (P : Value → Prop) (h : Heap) : Prop where
  frames : ∀ f, ∀ e ∈ h.frame f, P e.value
  nodes : ∀ node ∈ h.nodes, P node.item
  datas : ∀ d, ∀ e ∈ h.data d, P e.2
  instances : ∀ inst ∈ h.instances, P (.data inst.fields)
  natives : ∀ native ∈ h.natives, native.All P

theorem Native.All.mono {P Q : Value → Prop} {native : Native} (h : native.All P)
    (hPQ : ∀ v, P v → Q v) : native.All Q := by
  cases native with
  | task result =>
    cases result with
    | ok v => exact hPQ v h
    | error message => trivial
  | worker w => exact ⟨fun v hv => hPQ v (h.1 v hv), fun v hv => hPQ v (h.2 v hv)⟩
  | workerPool p => exact ⟨fun v hv => hPQ v (h.1 v hv), fun v hv => hPQ v (h.2 v hv)⟩
  | socketConn fd onMessage onClose closed =>
    exact ⟨fun v hv => hPQ v (h.1 v hv), fun v hv => hPQ v (h.2 v hv)⟩
  | superRef parentClass this => exact hPQ this h

namespace Heap

variable {P : Value → Prop} {h h' : Heap}

/-- A definition adds an entry of its value to one frame. -/
theorem entry_envDefine (hframes : h'.frames = h.frames) {env : Env} {name : Text} {v : Value}
    {isFixed : Bool} (hv : P v) (f : ℕ) :
    ∀ e ∈ (h'.envDefine env name v isFixed).frame f, e ∈ h.frame f ∨ P e.value := by
  intro e he
  have hframe : h'.frame f = h.frame f := by rw [frame, frame, hframes]
  cases env with
  | nil => exact .inl (hframe ▸ he)
  | cons g rest =>
    rcases h'.frame_define_or g ⟨name, v, isFixed⟩ f with heq | ⟨rfl, heq⟩
    · exact .inl (hframe ▸ heq ▸ he)
    · rw [show (h'.envDefine (f :: rest) name v isFixed).frame f = _ from heq] at he
      rcases List.mem_cons.mp he with rfl | he
      · exact .inr hv
      · exact .inl (hframe ▸ he)

/-- A pass over a block adds what its steps add. -/
theorem entry_foldl {step : Heap → Stmt → Heap} {f : ℕ}
    (hstep : ∀ h s, ∀ e ∈ (step h s).frame f, e ∈ h.frame f ∨ P e.value)
    (list : List Stmt) (h : Heap) :
    ∀ e ∈ (list.foldl step h).frame f, e ∈ h.frame f ∨ P e.value := by
  induction list generalizing h with
  | nil => exact fun e he => .inl he
  | cons s list ih =>
    intro e he
    rcases ih _ e he with he | hnew
    · exact hstep h s e he
    · exact .inr hnew

section Hoist

variable (hplain : ∀ v, (∀ d, v ≠ .data d) → P v)
include hplain

theorem entry_hoistClass (env : Env) (h : Heap) (s : Stmt) (f : ℕ) :
    ∀ e ∈ (hoistClass env h s).frame f, e ∈ h.frame f ∨ P e.value := by
  intro e he
  unfold hoistClass at he
  split at he
  · refine entry_envDefine ?_ (hplain _ fun d => ?_) f e he
    · rfl
    · simp
  · exact .inl he

omit hplain in
theorem entry_linkClass (env : Env) (h : Heap) (s : Stmt) (f : ℕ) :
    ∀ e ∈ (linkClass env h s).frame f, e ∈ h.frame f ∨ P e.value := by
  intro e he
  unfold linkClass at he
  split at he
  · split at he
    · exact .inl he
    · exact .inl he
  · exact .inl he

theorem entry_hoistFunction (env : Env) (h : Heap) (s : Stmt) (f : ℕ) :
    ∀ e ∈ (hoistFunction env h s).frame f, e ∈ h.frame f ∨ P e.value := by
  intro e he
  unfold hoistFunction at he
  split at he
  · refine entry_envDefine ?_ (hplain _ fun d => ?_) f e he
    · rfl
    · simp
  · exact .inl he

/-- The entries that hoisting adds are functions and classes. -/
theorem entry_hoist (h : Heap) (list : List Stmt) (env : Env) (f : ℕ) :
    ∀ e ∈ ((h.hoistClasses list env).hoistFunctions list env).frame f,
      e ∈ h.frame f ∨ P e.value := by
  intro e he
  rcases entry_foldl (fun h s => entry_hoistFunction hplain env h s f) list _ e he with he | hnew
  · rcases entry_foldl (P := P) (fun h s => entry_linkClass env h s f) list _ e he with he | hnew
    · exact entry_foldl (fun h s => entry_hoistClass hplain env h s f) list h e he
    · exact .inr hnew
  · exact .inr hnew

end Hoist

namespace HoldsOnly

theorem mono {Q : Value → Prop} (hh : h.HoldsOnly P) (hPQ : ∀ v, P v → Q v) : h.HoldsOnly Q where
  frames f e he := hPQ _ (hh.frames f e he)
  nodes node hnode := hPQ _ (hh.nodes node hnode)
  datas d e he := hPQ _ (hh.datas d e he)
  instances inst hinst := hPQ _ (hh.instances inst hinst)
  natives native hnative := (hh.natives native hnative).mono hPQ

/-- Only the frames differ. -/
theorem of_frames (hh : h.HoldsOnly P)
    (hframes : ∀ f, ∀ e ∈ h'.frame f, e ∈ h.frame f ∨ P e.value)
    (hnodes : h'.nodes = h.nodes) (hdatas : h'.datas = h.datas)
    (hinstances : h'.instances = h.instances) (hnatives : h'.natives = h.natives) :
    h'.HoldsOnly P where
  frames f e he := (hframes f e he).elim (hh.frames f e) id
  nodes := hnodes ▸ hh.nodes
  datas d e he := hh.datas d e (by rwa [data, hdatas] at he)
  instances := hinstances ▸ hh.instances
  natives := hnatives ▸ hh.natives

theorem newFrame (hh : h.HoldsOnly P) : h.newFrame.HoldsOnly P :=
  hh.of_frames (fun f _ he => .inl (h.frame_newFrame f ▸ he)) rfl rfl rfl rfl

theorem allocates (hh : h.HoldsOnly P) (halloc : h.Allocates P h') : h'.HoldsOnly P where
  frames f e he := hh.frames f e (by rwa [frame, halloc.grows.frames] at he)
  nodes node hnode := (halloc.nodes node hnode).elim (hh.nodes node) id
  datas d e he := by
    rcases halloc.datas d with heq | ⟨-, hall⟩
    · exact hh.datas d e (heq ▸ he)
    · exact hall e he
  instances inst hinst := (halloc.instances inst hinst).elim (hh.instances inst) id
  natives native hnative := (halloc.natives native hnative).elim (hh.natives native) id

theorem dataSet (hh : h.HoldsOnly P) (d : ℕ) (key : Text) {v : Value} (hv : P v) :
    (h.dataSet d key v).HoldsOnly P where
  frames := hh.frames
  nodes := hh.nodes
  datas d' e he := by
    by_cases hd : d < h.datas.length
    · rw [h.data_dataSet hd] at he
      split at he
      · rcases mem_dataSet he with he | rfl
        · exact hh.datas d e he
        · exact hv
      · exact hh.datas d' e he
    · have hsame : (h.dataSet d key v).datas = h.datas := List.modify_eq_self (Nat.le_of_not_lt hd)
      exact hh.datas d' e (by rwa [data, hsame] at he)
  instances := hh.instances
  natives := hh.natives

end HoldsOnly

end Heap

/-- **Whatever a run may write keeps the memory to the values it may hold.** -/
theorem RunRule.Effect.holdsOnly {ω : Type} {ρ : RunRule ω} {s s' : Machine ω} {a : Act}
    (heffect : ρ.Effect s a s') (hplain : ∀ v, (∀ d, v ≠ .data d) → ρ.value v)
    (hs : s.heap.HoldsOnly ρ.value) : s'.heap.HoldsOnly ρ.value := by
  cases heffect with
  | newFrame => exact hs.newFrame
  | define f e hv _ =>
    refine hs.of_frames (fun g e' he => ?_) rfl rfl rfl rfl
    rcases s.heap.frame_define_or f e g with heq | ⟨-, heq⟩
    · exact .inl (heq ▸ he)
    · rw [show ({ s with heap := s.heap.define f e } : Machine ω).heap.frame g = _ from heq] at he
      rcases List.mem_cons.mp he with rfl | he
      · exact .inr hv
      · exact .inl he
  | setVar f i v e _ _ hv =>
    refine hs.of_frames (fun g e' he => ?_) rfl rfl rfl rfl
    rw [show ({ s with heap := s.heap.setVar f i v } : Machine ω).heap.frame g = _ from
      Heap.frame_setVar s.heap f i v g] at he
    split at he
    · rcases mem_or_of_mem_modify he with he | ⟨e'', -, rfl⟩
      · exact .inl he
      · exact .inr hv
    · exact .inl he
  | alloc h halloc => exact hs.allocates halloc
  | hoist f rest list _ _ =>
    have hhoists := s.heap.hoists_hoist list (f :: rest)
    exact hs.of_frames (fun g => s.heap.entry_hoist hplain list (f :: rest) g) hhoists.nodes
      hhoists.datas hhoists.instances hhoists.natives
  | setList l h hedits hnodes =>
    obtain ⟨lists, nodes, rfl⟩ := hedits.onLists
    refine { hs with nodes := fun node hnode => ?_ }
    rcases hnodes node hnode with ⟨node', hnode', heq⟩ | hv
    · exact heq ▸ hs.nodes node' hnode'
    · exact hv
  | setItem p v hv =>
    refine { hs with nodes := fun node hnode => ?_ }
    rcases mem_or_of_mem_modify hnode with hnode | ⟨node', -, rfl⟩
    · exact hs.nodes node hnode
    · exact hv
  | setData d key v _ hv => exact hs.dataSet d key hv
  | setNative p native _ hall _ =>
    refine { hs with natives := fun native' hnative => ?_ }
    rcases List.mem_or_eq_of_mem_set hnative with hnative | rfl
    · exact hs.natives native' hnative
    · exact hall
  | _ => exact { hs with }

/-! ### Data values that are there -/

/-- If the value is a data value, it is one of the first `n`. -/
def Value.Born (n : ℕ) (v : Value) : Prop := ∀ d, v = .data d → d < n

theorem Value.born_of_plain {n : ℕ} {v : Value} (h : ∀ d, v ≠ .data d) : v.Born n :=
  fun d heq => absurd heq (h d)

/-- As long as there are at most `n` data values, only the first `n` are held. -/
def bornRule (ω : Type) (n : ℕ) : RunRule ω where
  inv s := s.heap.HoldsOnly (Value.Born n) ∧ s.it.globals = [0] ∧ 0 < s.heap.frames.length
  step st := st.post.heap.HoldsOnly (Value.Born n)
  value := Value.Born n
  own _ := True
  runsIn _ := True
  binds _ _ := True
  writable _ := True
  saves _ := True
  assumes st := st.post.heap.datas.length ≤ n

/-- What a run may do under a rule is a step of the interpreter. -/
theorem RunRule.Effect.does {ω : Type} {ρ : RunRule ω} {s s' : Machine ω} {a : Act}
    (heffect : ρ.Effect s a s') : a.Does s s' := by
  cases heffect with
  | newFrame => exact .newFrame
  | define f e _ _ => exact .define f e
  | setVar f i v e he hfixed _ => exact .setVar f i v e he hfixed
  | alloc h halloc => exact .alloc h halloc.grows halloc.lists
  | hoist f rest list _ _ => exact .hoist _ list
  | setList l h hedits _ => exact .setList l h hedits
  | setItem p v _ => exact .setItem p v
  | setData d key v _ _ => exact .setData d key v
  | setNative p native _ _ _ => exact .setNative p native
  | advance p => exact .advance p
  | raise line msg => exact .raise line msg
  | enterTry hclear => exact .enterTry hclear
  | leaveTry saved hclear hsaved _ =>
    rw [hsaved]
    exact .leaveTry saved.errorMessage hclear
  | catchError name hflag hlast => exact .catchError name hflag hlast
  | slot file path => exact .slot file path
  | world w => exact .world w

section Does

variable {ω : Type} {a : Act} {s s' : Machine ω}

theorem Act.Does.globals (h : a.Does s s') : s'.it.globals = s.it.globals := by
  cases h <;> rfl

theorem Act.Does.length_frames (h : a.Does s s') :
    s.heap.frames.length ≤ s'.heap.frames.length := by
  cases h with
  | newFrame =>
    show _ ≤ (s.heap.frames ++ [[]]).length
    simp
  | define f e => exact Nat.le_of_eq (List.length_modify _ _ _).symm
  | setVar f i v e _ _ => exact Nat.le_of_eq (List.length_modify _ _ _).symm
  | alloc h' hgrows _ => exact Nat.le_of_eq (congrArg List.length hgrows.frames.symm)
  | hoist env list => exact Nat.le_of_eq (s.heap.hoists_hoist list env).length.symm
  | setList l h' hedits => exact Nat.le_of_eq (congrArg List.length hedits.frames.symm)
  | _ => exact Nat.le_refl _

/-- No step makes the data values fewer. -/
theorem Act.Does.length_datas (h : a.Does s s') : s.heap.datas.length ≤ s'.heap.datas.length := by
  cases h with
  | alloc h' hgrows _ => exact hgrows.datas.length_le
  | hoist env list =>
    exact Nat.le_of_eq (congrArg List.length (s.heap.hoists_hoist list env).datas.symm)
  | setList l h' hedits =>
    obtain ⟨lists, nodes, rfl⟩ := hedits.onLists
    exact Nat.le_refl _
  | setData d key v => exact Nat.le_of_eq (List.length_modify _ _ _).symm
  | _ => exact Nat.le_refl _

end Does

instance {ω : Type} {n : ℕ} : (bornRule ω n).Lawful where
  keeps s a s' hs heffect := by
    obtain ⟨hholds, hglobals, hframes⟩ := hs
    have hholds' := heffect.holdsOnly (fun _ => Value.born_of_plain) hholds
    exact ⟨hholds', hholds', heffect.does.globals.trans hglobals,
      Nat.lt_of_lt_of_le hframes heffect.does.length_frames⟩
  own_new _ _ := trivial
  own_runsIn _ _ _ := trivial
  plain _ := Value.born_of_plain
  fresh s s' d _ hassumes _ hlt d' heq := by
    obtain rfl := Value.data.inj heq
    exact Nat.lt_of_lt_of_le hlt hassumes
  fresh_native _ _ _ _ := trivial
  entry _ f e hs he := Heap.HoldsOnly.frames hs.1 f e he
  item _ node hs hnode := Heap.HoldsOnly.nodes hs.1 node hnode
  data _ d hs _ e he := Heap.HoldsOnly.datas hs.1 d e he
  fields _ inst hs hinst := Heap.HoldsOnly.instances hs.1 inst hinst
  native _ _ native hs hnative :=
    ⟨Heap.HoldsOnly.natives hs.1 native (List.mem_of_getElem? hnative), fun _ => trivial⟩
  saved _ _ _ := trivial

/-! ### Runs from outside -/

section Session

variable {ω : Type} [Host ω] {ρ : RunRule ω} [ρ.Lawful] {R : Evaluator ω}

/-- A program. The frame of the globals is one that names may be defined in. -/
theorem obeys_interpRun (hR : R.Obeys ρ) (hglobals : ∀ s, ρ.inv s → ∃ f rest,
    s.it.globals = f :: rest ∧ ρ.own f ∧ f < s.heap.frames.length) (program : List Stmt) :
    Obeys ρ (interpRun R program) Anything := by
  have hafter : ∀ env, OwnEnv ρ env → Obeys ρ (do
      let _ ← execStmts R program env
      closeFile
      setOpenFile none
      let failed ← errorPending
      if failed then do
        let msg ← Exec.read fun s => s.it.errorMessage.getD (txt "unknown error")
        onWorld (Host.printErr (txt "runtime error: " ++ msg ++ [10]))
        pure 1
      else pure 0 : Prog ω ℕ) Anything := by
    intro env hown
    refine (obeys_execStmts hR program fun _ _ => .inl hown).bind fun _ _ => ?_
    refine obeys_closeFile.bind fun _ _ => (obeys_setOpenFile none).bind fun _ _ => ?_
    refine obeys_read_bind fun failed => obeys_ite ?_ (obeys_pure trivial)
    exact obeys_read_bind fun msg => (obeys_onWorld _).bind fun _ _ => obeys_pure trivial
  refine Exec.TripleWhile.seq (fun env s => ρ.inv s ∧ env = s.it.globals)
    (Exec.triple_read fun s hs => ⟨hs, rfl⟩) fun env => ?_
  refine Exec.TripleWhile.seq (fun _ s => ρ.inv s ∧ OwnEnv ρ env) (Exec.triple_act ?_) fun _ =>
    fun s hs => hafter env hs.2 s hs.1
  rintro s ⟨hs, rfl⟩
  obtain ⟨f, rest, hglobals, hown, hlt⟩ := hglobals s hs
  rw [hglobals]
  have hkeeps := RunRule.Lawful.keeps s _ _ hs (.hoist f rest program hown hlt)
  exact ⟨hkeeps.1, hkeeps.2, f, rest, rfl, hown⟩

/-- What is handed in from outside. -/
def Entry.values (e : Entry) : List Value :=
  match e with
  | .run _ => []
  | .invoke callee argv => callee :: argv
  | .invokeClosure callee argv => callee :: argv

theorem obeys_enterWith (hR : R.Obeys ρ) (hglobals : ∀ s, ρ.inv s → ∃ f rest,
    s.it.globals = f :: rest ∧ ρ.own f ∧ f < s.heap.frames.length) (e : Entry)
    (he : ∀ v ∈ e.values, ρ.value v) : Obeys ρ (enterWith R e) Anything := by
  cases e with
  | run program => exact (obeys_interpRun hR hglobals program).bind fun _ _ => obeys_pure trivial
  | invoke callee argv =>
    exact (obeys_interpInvoke hR callee (List.forall_mem_cons.mp he).2).bind fun _ _ =>
      obeys_pure trivial
  | invokeClosure callee argv =>
    exact (obeys_interpInvokeClosure hR callee (List.forall_mem_cons.mp he).2).bind fun _ _ =>
      obeys_pure trivial

theorem obeys_sessionWith (hR : R.Obeys ρ) (hglobals : ∀ s, ρ.inv s → ∃ f rest,
    s.it.globals = f :: rest ∧ ρ.own f ∧ f < s.heap.frames.length) (entries : List Entry)
    (hentries : ∀ e ∈ entries, ∀ v ∈ e.values, ρ.value v) :
    Obeys ρ (sessionWith R entries) Anything := by
  induction entries with
  | nil => exact obeys_pure trivial
  | cons e entries ih =>
    obtain ⟨he, hentries⟩ := List.forall_mem_cons.mp hentries
    exact (obeys_enterWith hR hglobals e he).bind fun _ _ => ih hentries

end Session

section Known

variable {ω : Type} [Host ω]

/-- A state of a run of a program and of callbacks, which are handed in data values that are
there. -/
def Known (s : Machine ω) : Prop :=
  ∃ n entries w, (∀ e ∈ entries, ∀ v ∈ e.values, v.Born s.heap.datas.length) ∧
    (s = (session n entries (interpInit w)).state ∨
      ∃ st ∈ (session n entries (interpInit w)).steps, s = st.pre ∨ s = st.post)

/-- **The data values that the memory holds are there**, in every state of every run. -/
theorem Known.holdsOnly {s : Machine ω} (h : Known s) :
    s.heap.HoldsOnly (Value.Born s.heap.datas.length) := by
  obtain ⟨n, entries, w, hentries, hs⟩ := h
  have hconfined := session_confined n entries (interpInit w) (Nat.zero_le _)
  obtain ⟨before, hbefore, hchained⟩ := hconfined.chained.exists_prefix hs
  have hinit : (bornRule ω s.heap.datas.length).inv (interpInit w) := by
    refine ⟨⟨fun f e he => ?_, ?_, fun d e he => ?_, ?_, ?_⟩, rfl, Nat.zero_lt_one⟩
    · cases f with
      | zero => cases he
      | succ f => cases he
    · exact List.forall_mem_nil _
    · cases he
    · exact List.forall_mem_nil _
    · exact List.forall_mem_nil _
  have hrun := obeys_sessionWith (Evaluator.obeys (bornRule ω s.heap.datas.length) n)
    (fun t ht => ⟨0, [], ht.2.1, trivial, ht.2.2⟩) entries hentries (interpInit w) hinit
  -- up to `s` there are at most as many data values as in `s`
  have hall := hrun.upTo before hbefore <| hchained.forall_le (fun t => t.heap.datas.length)
    fun st hst => (hconfined.steps st (hbefore.subset hst)).1.length_datas
  rcases hchained.eq_or_post with rfl | ⟨st, hst, rfl⟩
  · exact hinit.1
  · exact hall st hst

end Known

end Jaguar
