/-
Rules for the interpreter that is stopped at faults.

A run of it is a run of the interpreter that is not, as far as it goes, and does no harm.

* `Heeds` — a run from a state without a fault is that of the program, unless it is stopped;
* `Heeds.past` — **what is looked at behind a part holds where the rest starts**;
* `heeds_rtError`, `heeds_valueDataSet`, … — what raises errors and what writes;
* `WritesOnly` — the programs that write, where no error is pending.
-/
import Jaguar.FaultWatch

set_option linter.unusedSectionVars false

namespace Jaguar

/-- There is no such fault here. -/
def Free {ω : Type} (fault : Machine ω → Bool) (s : Machine ω) : Prop := fault s = false

def Always {ω : Type} (_ : Machine ω) : Prop := True

/-- No error is pending. -/
def Calm {ω : Type} (s : Machine ω) : Prop := s.pending = false

section Rules

variable {ω α β : Type} {φ : Fault} {pre : Machine ω → Prop} {fault : Machine ω → Bool}
  {m' m : Prog ω α}

/-- A run of `m'` from a state that meets `pre` is that of `m`, unless it is stopped, and it
does no harm. -/
def Heeds (φ : Fault) (pre : Machine ω → Prop) (m' m : Prog ω α) : Prop :=
  Exec.Stops (faultWatch φ) pre m' m

theorem Heeds.weaken {pre' : Machine ω → Prop} (h : Heeds φ pre' m' m)
    (hpre : ∀ s, pre s → pre' s) : Heeds φ pre m' m :=
  Exec.Stops.weaken h hpre

theorem Heeds.any (h : Heeds φ Always m' m) : Heeds φ pre m' m := h.weaken fun _ _ => trivial

theorem heeds_pure (a : α) : Heeds φ pre (pure a : Prog ω α) (pure a) := Exec.stops_pure a

theorem heeds_read (f : Machine ω → α) : Heeds φ pre (Exec.read f : Prog ω α) (Exec.read f) :=
  Exec.stops_silent fun _ => ⟨rfl, rfl⟩

theorem heeds_readSome (f : Machine ω → Option α) :
    Heeds φ pre (Exec.readSome f : Prog ω α) (Exec.readSome f) :=
  Exec.stops_readSome f

theorem heeds_giveUp : Heeds φ pre (Exec.giveUp : Prog ω α) Exec.giveUp := Exec.stops_giveUp

theorem Heeds.bind {f' f : α → Prog ω β} (hm : Heeds φ pre m' m)
    (hf : ∀ a, Heeds φ Always (f' a) (f a)) : Heeds φ pre (m' >>= f') (m >>= f) :=
  Exec.Stops.bind hm (fun _ _ _ _ => trivial) hf

theorem past_eq_false {fault : α → Machine ω → Bool} {s : Machine ω} {a : α}
    (h : past m fault s = false) (ha : (m s).value = some a) : fault a (m s).state = false := by
  unfold past at h
  rw [ha] at h
  exact h

/-- **What is looked at behind the first part.** -/
theorem Heeds.past {f' f : α → Prog ω β} {fault : α → Machine ω → Bool}
    (hm : Heeds φ Always m' m) (hf : ∀ a, Heeds φ (Free (fault a)) (f' a) (f a)) :
    Heeds φ (Free (past m fault)) (m' >>= f') (m >>= f) :=
  Exec.Stops.bind hm.any (fun _ _ hs ha => past_eq_false hs ha) hf

/-- A fault of the first part, or one that is looked at behind it. -/
theorem Heeds.both {f' f : α → Prog ω β} {fault' : α → Machine ω → Bool}
    (hm : Heeds φ (Free fault) m' m) (hf : ∀ a, Heeds φ (Free (fault' a)) (f' a) (f a)) :
    Heeds φ (Free fun s => fault s || Jaguar.past m fault' s) (m' >>= f') (m >>= f) := by
  refine Exec.Stops.bind (Heeds.weaken hm fun s hs => ?_) (fun s a hs ha => ?_) hf
  · exact (Bool.or_eq_false_iff.mp hs).1
  · exact past_eq_false (Bool.or_eq_false_iff.mp hs).2 ha

/-- What is looked at is not changed by the first part. -/
theorem Heeds.bind_free {f' f : α → Prog ω β} (hm : Heeds φ (Free fault) m' m)
    (hsame : ∀ s, fault (m s).state = fault s) (hf : ∀ a, Heeds φ (Free fault) (f' a) (f a)) :
    Heeds φ (Free fault) (m' >>= f') (m >>= f) :=
  Exec.Stops.bind hm (fun s _ hs _ => (hsame s).trans hs) hf

theorem heeds_ite {c : Prop} [Decidable c] {n' n : Prog ω α} (h : c → Heeds φ pre m' m)
    (h' : ¬ c → Heeds φ pre n' n) :
    Heeds φ pre (if c then m' else n') (if c then m else n) :=
  Exec.stops_ite h h'

/-- The fault of the branch that is taken. -/
theorem heeds_free_ite {c : Prop} [Decidable c] {fault' : Machine ω → Bool} {n' n : Prog ω α}
    (h : c → Heeds φ (Free fault) m' m) (h' : ¬ c → Heeds φ (Free fault') n' n) :
    Heeds φ (Free (if c then fault else fault')) (if c then m' else n') (if c then m else n) := by
  split
  · next hc => exact h hc
  · next hc => exact h' hc

/-- The program goes on with what it has read. -/
theorem heeds_read_bind {g : Machine ω → α} {f' f : α → Prog ω β}
    (h : ∀ a, Heeds φ (fun s => pre s ∧ g s = a) (f' a) (f a)) :
    Heeds φ pre (Exec.read g >>= f') (Exec.read g >>= f) :=
  Exec.stops_read_bind h

theorem heeds_readSome_bind {g : Machine ω → Option α} {f' f : α → Prog ω β}
    (h : ∀ a, Heeds φ (fun s => pre s ∧ g s = some a) (f' a) (f a)) :
    Heeds φ pre (Exec.readSome g >>= f') (Exec.readSome g >>= f) :=
  Exec.stops_readSome_bind h

/-- What is skipped where an error is pending. -/
theorem heeds_unlessError {dflt : α} (h : Heeds φ (fun s => Calm s ∧ pre s) m' m) :
    Heeds φ pre (unlessError dflt m') (unlessError dflt m) := by
  refine heeds_read_bind fun failed => ?_
  cases failed with
  | true => exact heeds_pure dflt
  | false => exact h.weaken fun s hs => ⟨hs.2, hs.1⟩

theorem Heeds.unlessError {dflt : α} (h : Heeds φ Calm m' m) :
    Heeds φ pre (unlessError dflt m') (unlessError dflt m) :=
  heeds_unlessError (h.weaken fun _ hs => hs.1)

/-- Where there is a fault the run is stopped. -/
theorem heeds_stopAt {dflt : α} (h : Heeds φ (fun s => Calm s ∧ Free fault s) m' m) :
    Heeds φ Always (stopAt fault (unlessError dflt m')) (unlessError dflt m) := by
  intro s hinv _ hmarks
  unfold stopAt at hmarks ⊢
  split at hmarks
  · next hfault =>
    have hclear : s.pending = false := by
      rw [Bool.and_eq_true, Bool.not_eq_true'] at hfault
      exact hfault.1
    have hmark : isMark (⟨.raise, s, s⟩ : Exec.Step (Machine ω) Act) = true := by
      simp [isMark, hclear]
    exact absurd ((hmarks ⟨.raise, s, s⟩ List.mem_cons_self).symm.trans hmark) Bool.noConfusion
  · next hfault =>
    rw [if_neg hfault]
    have hgoes : Heeds φ (Free fun s => !s.pending && fault s) (Jaguar.unlessError dflt m')
        (Jaguar.unlessError dflt m) := by
      refine heeds_unlessError (h.weaken fun s hs => ⟨hs.1, ?_⟩)
      have hclear : s.pending = false := hs.1
      have hnot : (!s.pending && fault s) = false := hs.2
      rwa [hclear, Bool.not_false, Bool.true_and] at hnot
    exact hgoes s hinv (Bool.eq_false_iff.mpr hfault) hmarks

/-! ### Single steps -/

/-- The steps that raise nothing, restore nothing and write to nothing but what is native. -/
def Act.isQuiet : Act → Bool
  | .setVar .. | .setList _ | .setItem _ | .setData .. | .raise | .leaveTry => false
  | _ => true

theorem Act.spares_of_isQuiet {a : Act} (h : a.isQuiet = true) (s s' : Machine ω) :
    φ.Spares a s s' := by
  cases φ with
  | raises =>
    rintro rfl
    cases h
  | writes =>
    right
    cases a with
    | setVar | setList | setItem | setData | raise | leaveTry => cases h
    | _ => trivial

theorem heeds_act {a : Act} {f : Machine ω → Machine ω} (hdoes : ∀ s, pre s → a.Does s (f s))
    (hleave : a ≠ .leaveTry) (hspares : ∀ s, pre s → s.pending = true → φ.Spares a s (f s)) :
    Heeds φ pre (Exec.act a f) (Exec.act a f) :=
  Exec.stops_act fun s hinv hs =>
    faultWatch_step (hdoes s hs) hinv (fun _ => hleave) (hspares s hs)

theorem heeds_quiet {a : Act} {f : Machine ω → Machine ω} (hdoes : ∀ s, a.Does s (f s))
    (hquiet : a.isQuiet = true) : Heeds φ pre (Exec.act a f) (Exec.act a f) := by
  refine heeds_act (fun s _ => hdoes s) ?_ fun s _ _ => Act.spares_of_isQuiet hquiet s (f s)
  rintro rfl
  cases hquiet

end Rules

/-! ### What calls no program code -/

section Single

variable {ω : Type} {φ : Fault} {pre : Machine ω → Prop}

theorem heeds_rtError (hpre : ∀ s, pre s → raisesNow φ s = false) (line : ℕ) (msg : Text) :
    Heeds φ pre (rtError line msg : Prog ω Unit) (rtError line msg) := by
  refine heeds_act (fun s _ => .raise line msg) (fun h => Act.noConfusion h) fun s hs hpending => ?_
  have hraises := hpre s hs
  rw [raisesNow, hpending, Bool.and_true] at hraises
  cases φ with
  | raises => cases hraises
  | writes => exact .inr trivial

theorem heeds_fail (hpre : ∀ s, pre s → raisesNow φ s = false) (line : ℕ) (msg : Text) :
    Heeds φ pre (fail line msg : Prog ω Value) (fail line msg) :=
  (heeds_rtError hpre line msg).bind fun _ => heeds_pure _

theorem raisesNow_of_calm {s : Machine ω} (h : Calm s) : raisesNow φ s = false := by
  rw [raisesNow, show s.pending = false from h, Bool.and_false]

theorem heeds_onWorld (f : ω → ω) : Heeds φ pre (onWorld f) (onWorld f) :=
  heeds_quiet (fun s => .world (f s.world)) rfl

theorem heeds_fromWorld {α : Type} (f : ω → α × ω) : Heeds φ pre (fromWorld f) (fromWorld f) :=
  (heeds_read _).bind fun _ => (heeds_onWorld _).bind fun _ => heeds_pure _

theorem heeds_setOpenFile (p : Option ℕ) :
    Heeds φ pre (setOpenFile p : Prog ω Unit) (setOpenFile p) :=
  heeds_quiet (fun s => .slot p s.it.openDirPath) rfl

theorem heeds_setOpenDirPath (path : Option Text) :
    Heeds φ pre (setOpenDirPath path : Prog ω Unit) (setOpenDirPath path) :=
  heeds_quiet (fun s => .slot s.it.openFile path) rfl

theorem heeds_envNew (parent : Env) : Heeds φ pre (envNew parent : Prog ω Env) (envNew parent) :=
  (heeds_read _).bind fun _ => (heeds_quiet (fun _ => .newFrame) rfl).bind fun _ => heeds_pure _

theorem heeds_envDefine (env : Env) (name : Text) (v : Value) (isFixed : Bool) :
    Heeds φ pre (envDefine env name v isFixed : Prog ω Unit) (envDefine env name v isFixed) := by
  cases env with
  | nil => exact heeds_pure ()
  | cons f rest => exact heeds_quiet (fun _ => .define f ⟨name, v, isFixed⟩) rfl

theorem heeds_hoist (list : List Stmt) (env : Env) :
    Heeds φ pre (hoist list env : Prog ω Unit) (hoist list env) :=
  heeds_quiet (fun _ => .hoist env list) rfl

theorem heeds_bindParams (params : List Param) (argv : List Value) (env : Env) :
    Heeds φ pre (bindParams params argv env : Prog ω Unit) (bindParams params argv env) := by
  induction params generalizing pre argv with
  | nil => exact heeds_pure _
  | cons p params ih => exact (heeds_envDefine _ _ _ _).bind fun _ => ih argv.tail

theorem heeds_alloc (size : Heap → ℕ) {f : Heap → Heap} (h : ∀ h : Heap, h.Grows (f h))
    (hadds : ∀ h : Heap, h.AddsLists (f h)) :
    Heeds φ pre (alloc size f : Prog ω ℕ) (alloc size f) :=
  (heeds_read _).bind fun _ =>
    (heeds_quiet (fun s => .alloc _ (h s.heap) (hadds s.heap)) rfl).bind fun _ => heeds_pure _

theorem heeds_newList (items : List Value) :
    Heeds φ pre (newList items : Prog ω ℕ) (newList items) :=
  heeds_alloc _ (fun h => h.grows_addList items) fun _ => .add items .refl

theorem heeds_newData (entries : DataList Value) :
    Heeds φ pre (newData entries : Prog ω ℕ) (newData entries) :=
  heeds_alloc _ (fun h => h.grows_addData entries) fun _ => .other .refl rfl rfl

theorem heeds_newFunc (fv : FuncValue) : Heeds φ pre (newFunc fv : Prog ω ℕ) (newFunc fv) :=
  heeds_alloc _ (fun h => { Heap.Grows.refl h with funcs := List.prefix_append _ _ })
    fun _ => .other .refl rfl rfl

theorem heeds_newInstance (inst : Instance) :
    Heeds φ pre (newInstance inst : Prog ω ℕ) (newInstance inst) :=
  heeds_alloc _ (fun h => { Heap.Grows.refl h with instances := List.prefix_append _ _ })
    fun _ => .other .refl rfl rfl

theorem heeds_newNative (native : Native) :
    Heeds φ pre (newNative native : Prog ω ℕ) (newNative native) :=
  heeds_alloc _ (fun h => { Heap.Grows.refl h with natives := List.prefix_append _ _ })
    fun _ => .other .refl rfl rfl

theorem heeds_setNative (p : ℕ) (native : Native) :
    Heeds φ pre (setNative p native : Prog ω Unit) (setNative p native) :=
  heeds_quiet (fun _ => .setNative p native) rfl

theorem heeds_taskDone (result : Value) :
    Heeds φ pre (taskDone result : Prog ω Value) (taskDone result) :=
  (heeds_newNative _).bind fun _ => heeds_pure _

theorem heeds_taskError (message : Text) :
    Heeds φ pre (taskError message : Prog ω Value) (taskError message) :=
  (heeds_newNative _).bind fun _ => heeds_pure _

theorem heeds_jsonParseText (text : Text) :
    Heeds φ pre (jsonParseText text : Prog ω Value) (jsonParseText text) := by
  refine (heeds_readSome _).bind fun json => (heeds_read _).bind fun v => ?_
  refine Heeds.bind (heeds_quiet (fun s => ?_) rfl) fun _ => heeds_pure _
  exact .alloc _ (s.heap.grows_ofJson json) (s.heap.addsLists_ofJson json)

theorem heeds_nextNode (p : ℕ) :
    Heeds φ pre (nextNode p : Prog ω (Option ℕ)) (nextNode p) :=
  (heeds_quiet (fun _ => .advance p) rfl).bind fun _ => heeds_readSome _

theorem heeds_doRequest [Host ω] (method url : Text) (body : Option Text) :
    Heeds φ pre (doRequest method url body : Prog ω Value) (doRequest method url body) := by
  refine (heeds_fromWorld _).bind fun reply => ?_
  cases reply with
  | error message => exact heeds_taskError _
  | ok reply => exact (heeds_newData _).bind fun _ => (heeds_newData _).bind fun _ => heeds_taskDone _

/-- The operands of `eval_binary` are complained about. -/
theorem heeds_evalBinary [Host ω] {op : TokenType} {l r : Value}
    (hpre : ∀ s, pre s → (raisesNow φ s && binaryComplains (ω := ω) op l r) = false) (n line : ℕ) :
    Heeds φ pre (evalBinary n op l r line : Prog ω Value) (evalBinary n op l r line) := by
  unfold evalBinary
  refine heeds_ite (fun _ => ?_) fun hplus => ?_
  · exact (heeds_readSome _).bind fun _ => (heeds_readSome _).bind fun _ => heeds_pure _
  · have hboth : ∀ f : Bool → Bool → Value, Heeds φ pre
        (do
          let lt ← truthy l
          let rt ← truthy r
          pure (f lt rt) : Prog ω Value)
        (do
          let lt ← truthy l
          let rt ← truthy r
          pure (f lt rt)) := fun f =>
      (heeds_read _).bind fun _ => (heeds_read _).bind fun _ => heeds_pure _
    split
    · exact heeds_pure _
    · exact heeds_pure _
    · exact hboth fun lt rt => .bool (lt && rt)
    · exact hboth fun lt rt => .bool (lt || rt)
    · refine heeds_ite (fun _ => heeds_giveUp) fun _ => ?_
      split
      · exact heeds_pure _
      · next msg harith =>
        refine heeds_fail (fun s hs => ?_) _ _
        have hcomplains : binaryComplains (ω := ω) op l r = true := by
          unfold binaryComplains
          rw [harith, Bool.and_true, Bool.not_eq_true', Bool.and_eq_false_iff]
          simp only [not_and_or, not_or] at hplus
          rcases hplus with hop | ⟨hl, hr⟩
          · exact .inl (decide_eq_false hop)
          · right
            rw [Bool.eq_false_iff.mpr hl, Bool.eq_false_iff.mpr hr]
            rfl
        have hfault := hpre s hs
        rwa [hcomplains, Bool.and_true] at hfault

end Single

/-! ### Writing -/

/-- Nothing is written to while an error is pending. -/
def Idle {ω : Type} (φ : Fault) (s : Machine ω) : Prop := (φ.isWrites && s.pending) = false

section Writing

variable {ω : Type} {φ : Fault} {pre : Machine ω → Prop}

theorem Calm.idle {s : Machine ω} (h : Calm s) : Idle φ s := by
  rw [Idle, show s.pending = false from h, Bool.and_false]

theorem heeds_valueDataSet {d : ℕ}
    (hpre : ∀ s, pre s → (φ.isWrites && s.pending && s.heap.holdsData d) = false)
    (key : Text) (v : Value) :
    Heeds φ pre (valueDataSet d key v : Prog ω Unit) (valueDataSet d key v) := by
  refine heeds_act (fun _ _ => .setData d key v) (fun h => Act.noConfusion h) ?_
  intro s hs hpending
  have hheld := hpre s hs
  cases φ with
  | raises => exact fun h => Act.noConfusion h
  | writes =>
    rw [hpending] at hheld
    exact .inr hheld

/-- A list that is edited: it is not held, or no error is pending. -/
theorem heeds_editSome {l : ℕ} {f : Heap → Option Heap}
    (hf : ∀ h h' : Heap, f h = some h' → h.Edits l h')
    (hspares : ∀ s h', pre s → φ = .writes → s.pending = true → f s.heap = some h' →
      φ.Spares (.setList l) s { s with heap := h' }) :
    Heeds φ pre (onHeapSome (.setList l) f : Prog ω Unit) (onHeapSome (.setList l) f) := by
  refine Exec.stops_actSome fun s s' hinv hs heq => ?_
  obtain ⟨h', hh', rfl⟩ := Option.map_eq_some_iff.mp heq
  have hleave : Act.setList l ≠ .leaveTry := fun h => Act.noConfusion h
  refine faultWatch_step (.setList l h' (hf s.heap h' hh')) hinv (fun _ => hleave) ?_
  intro hpending
  cases φ with
  | raises => exact fun h => Act.noConfusion h
  | writes => exact hspares s h' hs rfl hpending hh'

theorem heeds_valueListAppend {l : ℕ}
    (hpre : ∀ s, pre s → (φ.isWrites && s.pending && s.heap.holdsList l) = false) (item : Value) :
    Heeds φ pre (valueListAppend l item : Prog ω Unit) (valueListAppend l item) := by
  refine heeds_editSome (fun _ _ => .append item) ?_
  rintro s h' hs rfl hpending happend
  have hheld := hpre s hs
  rw [hpending] at hheld
  exact .inr ⟨hheld, item, happend⟩

/-- Where no node stands at the index, nothing is deleted. -/
theorem Heap.listDelete_of_nodeAt {h h' : Heap} {l : ℕ} {idx : ℤ} {n : ℕ} {prev cur : Option ℕ}
    {i : ℤ} (hdelete : h.listDelete l idx n prev cur i = some h') :
    h' = h ∨ ∃ p, h.nodeAt idx n cur i = some (some p) := by
  induction n generalizing prev cur i with
  | zero =>
    cases cur with
    | none => exact .inl (Option.some.inj hdelete).symm
    | some p => cases hdelete
  | succ n ih =>
    cases cur with
    | none => exact .inl (Option.some.inj hdelete).symm
    | some p =>
      rw [listDelete] at hdelete
      rw [nodeAt]
      cases hnode : h.nodes[p]? with
      | none =>
        rw [hnode] at hdelete
        cases hdelete
      | some node =>
        rw [hnode] at hdelete
        by_cases hi : i = idx
        · exact .inr ⟨p, if_pos hi⟩
        · rcases ih ((if_neg hi).symm.trans hdelete) with hsame | ⟨q, hq⟩
          · exact .inl hsame
          · exact .inr ⟨q, (if_neg hi).trans hq⟩

/-- A program that may write, and leaves the error state alone. -/
structure WritesOnly {α : Type} (φ : Fault) (m : Prog ω α) : Prop where
  heeds : Heeds φ (Idle φ) m m
  it : ∀ s, (m s).state.it = s.it

theorem writesOnly_pure {α : Type} (a : α) : WritesOnly φ (pure a : Prog ω α) :=
  ⟨heeds_pure a, fun _ => rfl⟩

theorem writesOnly_readSome {α : Type} (f : Machine ω → Option α) :
    WritesOnly φ (Exec.readSome f : Prog ω α) :=
  ⟨heeds_readSome f, fun _ => rfl⟩

theorem writesOnly_giveUp {α : Type} : WritesOnly φ (Exec.giveUp : Prog ω α) :=
  ⟨heeds_giveUp, fun _ => rfl⟩

theorem writesOnly_valueDataSet (d : ℕ) (key : Text) (v : Value) :
    WritesOnly φ (valueDataSet d key v : Prog ω Unit) := by
  refine ⟨heeds_valueDataSet (fun s hs => ?_) key v, fun _ => rfl⟩
  rw [show (φ.isWrites && s.pending) = false from hs, Bool.false_and]

theorem writesOnly_valueListAppend (l : ℕ) (item : Value) :
    WritesOnly φ (valueListAppend l item : Prog ω Unit) := by
  refine ⟨heeds_valueListAppend (fun s hs => ?_) item, fun s => ?_⟩
  · rw [show (φ.isWrites && s.pending) = false from hs, Bool.false_and]
  · unfold valueListAppend onHeapSome Exec.actSome
    split
    · next heq =>
      obtain ⟨h', -, rfl⟩ := Option.map_eq_some_iff.mp heq
      rfl
    · rfl

theorem WritesOnly.bind {α β : Type} {m : Prog ω α} {f : α → Prog ω β} (hm : WritesOnly φ m)
    (hf : ∀ a, WritesOnly φ (f a)) : WritesOnly φ (m >>= f) := by
  constructor
  · refine Exec.Stops.bind hm.heeds (fun s a hs _ => ?_) fun a => (hf a).heeds
    have hflag : (m s).state.pending = s.pending := congrArg (·.hadRuntimeError) (hm.it s)
    show (φ.isWrites && (m s).state.pending) = false
    rw [hflag]
    exact hs
  · intro s
    cases hvalue : (m s).value with
    | none => rw [Exec.bind_of_none hvalue, hm.it s]
    | some a => rw [Exec.bind_of_some hvalue, (hf a).it, hm.it s]

/-- The loop of `.concat(other)`. -/
theorem writesOnly_concatFrom (l n : ℕ) (cur : Option ℕ) :
    WritesOnly φ (concatFrom l n cur : Prog ω Unit) := by
  induction n generalizing cur with
  | zero =>
    cases cur with
    | none => exact writesOnly_pure _
    | some p => exact writesOnly_giveUp
  | succ n ih =>
    cases cur with
    | none => exact writesOnly_pure _
    | some p =>
      exact (writesOnly_readSome _).bind fun node => (writesOnly_valueListAppend _ _).bind fun _ =>
        (writesOnly_readSome _).bind fun node => ih node.next

/-- A method of a response object that writes. -/
theorem writesOnly_httpResponse (n d : ℕ) (name : Text) (argv : List Value) :
    WritesOnly φ (httpResponseCallMethod n d name argv : Prog ω (Option Value)) := by
  have hset : ∀ key v, WritesOnly φ (do
      valueDataSet d key v
      pure (some (.data d)) : Prog ω (Option Value)) := fun key v =>
    (writesOnly_valueDataSet _ _ _).bind fun _ => writesOnly_pure _
  unfold httpResponseCallMethod
  split
  · exact (writesOnly_readSome _).bind fun s => hset _ _
  split
  · refine WritesOnly.bind ?_ fun s => (writesOnly_valueDataSet _ _ _).bind fun _ =>
      (writesOnly_readSome _).bind fun headers => (writesOnly_valueDataSet _ _ _).bind fun _ =>
        writesOnly_pure _
    cases argv with
    | nil => exact writesOnly_pure _
    | cons v argv => exact writesOnly_readSome _
  split
  · exact hset _ _
  split
  · split
    · exact (writesOnly_readSome _).bind fun headers => (writesOnly_readSome _).bind fun s =>
        (writesOnly_valueDataSet _ _ _).bind fun _ => writesOnly_pure _
    · exact writesOnly_pure _
  · exact writesOnly_pure _

theorem heeds_tagThread {result : Value}
    (hpre : ∀ s, pre s → tagFault φ result s = false) (threadId : ℤ) :
    Heeds φ pre (tagThread result threadId : Prog ω Unit) (tagThread result threadId) := by
  cases result with
  | data d =>
    refine (writesOnly_valueDataSet d _ _).heeds.weaken fun s hs => ?_
    have hfault := hpre s hs
    rwa [tagFault, Value.isData, Bool.and_true] at hfault
  | _ => exact heeds_pure _

/-- A step that may write, where no error is pending. -/
theorem heeds_write {a : Act} {f : Machine ω → Machine ω} (hidle : ∀ s, pre s → Idle φ s)
    (hdoes : ∀ s, a.Does s (f s)) (hraise : a ≠ .raise) (hleave : a ≠ .leaveTry) :
    Heeds φ pre (Exec.act a f) (Exec.act a f) := by
  refine heeds_act (fun s _ => hdoes s) hleave fun s hs hpending => ?_
  have hclear := hidle s hs
  cases φ with
  | raises => exact hraise
  | writes => exact absurd (hclear.symm.trans hpending) Bool.noConfusion

theorem heeds_insertFront {l : ℕ} (hidle : ∀ s, pre s → Idle φ s) (item : Value) :
    Heeds φ pre (valueListInsertFront l item : Prog ω Unit) (valueListInsertFront l item) :=
  heeds_write hidle (fun _ => .setList l _ (.insertFront item)) (fun h => Act.noConfusion h)
    fun h => Act.noConfusion h

theorem heeds_setItems {l : ℕ} (hidle : ∀ s, pre s → Idle φ s) (items : List Value) :
    Heeds φ pre (setItems l items : Prog ω Unit) (setItems l items) :=
  heeds_write hidle (fun _ => .setList l _ (.setItems items)) (fun h => Act.noConfusion h)
    fun h => Act.noConfusion h

theorem heeds_setItem (hidle : ∀ s, pre s → Idle φ s) (p : ℕ) (v : Value) :
    Heeds φ pre (onHeap (.setItem p) fun h => h.setItem p v : Prog ω Unit)
      (onHeap (.setItem p) fun h => h.setItem p v) :=
  heeds_write hidle (fun _ => .setItem p v) (fun h => Act.noConfusion h)
    fun h => Act.noConfusion h

/-- A variable that can be set. -/
theorem heeds_envSet {env : Env} {name : Text} (hpre : ∀ s, pre s → φ.isWrites && s.pending →
      ∀ f i e, s.heap.envFind env name = some (f, i, e) → e.isFixed = true) (v : Value) :
    Heeds φ pre (envSet env name v : Prog ω Bool) (envSet env name v) := by
  refine heeds_read_bind fun found => ?_
  cases found with
  | none => exact heeds_pure _
  | some place =>
    obtain ⟨f, i, e⟩ := place
    refine heeds_ite (fun _ => heeds_pure _) fun hfixed => Heeds.bind ?_ fun _ => heeds_pure _
    refine heeds_act (fun s hs => ?_) (fun h => Act.noConfusion h) fun s hs hpending => ?_
    · exact .setVar f i v e (Heap.envFind_spec hs.2).2.1 (Bool.eq_false_iff.mpr hfixed)
    · cases φ with
      | raises => exact fun h => Act.noConfusion h
      | writes => exact absurd (hpre s hs.1 hpending f i e hs.2) hfixed

theorem heeds_listDeleteAt {l : ℕ} {idx : Value} (hpre : ∀ s, pre s → φ.isWrites && s.pending →
      ∀ p, s.heap.nodeOfIndex l idx ≠ some (some p)) :
    Heeds φ pre (listDeleteAt l (longOfDouble (Heap.asNumber idx)) : Prog ω Unit)
      (listDeleteAt l (longOfDouble (Heap.asNumber idx))) := by
  refine heeds_editSome (fun _ _ => .delete _) ?_
  rintro s h' hs rfl hpending hdelete
  rcases Heap.listDelete_of_nodeAt hdelete with rfl | ⟨p, hp⟩
  · exact .inl rfl
  · exact absurd hp (hpre s hs hpending p)

end Writing

end Jaguar
