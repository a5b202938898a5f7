/-
The fields of a new instance (`init_fields_recursive`, `construct_instance`).

`new` starts with an empty data value that nobody holds yet, so whatever an initialiser runs
leaves it alone; the initialisers of the ancestors run before those of the class.

* `hiddenRule` — a data value that is held nowhere stays as it is along every run;
* `Initialises` — initialisers that run one behind the other, and the writes of their values;
* `InstanceFields` — each declared field has one entry, that of the most derived class;
* `new_instance` — **a new instance has these fields, and one constructor runs on it**;
* `instance_of_known` — the same in every state of every run.
-/
import Jaguar.DataOrder
import Jaguar.Holdings
import Jaguar.MethodCalls

namespace Jaguar

/-! ### Data values that are held nowhere -/

/-- The data value exists, and no place of the memory holds it. -/
structure Heap.Hides (h : Heap) (d : ℕ) : Prop where
  known : d < h.datas.length
  places : h.HoldsOnly (· ≠ .data d)

/-- A data value that is held nowhere, with these entries. -/
def hiddenRule (ω : Type) (d : ℕ) (entries : DataList Value) : RunRule ω where
  inv s := s.heap.Hides d ∧ s.heap.data d = entries
  step _ := True
  value v := v ≠ .data d
  own _ := True
  runsIn _ := True
  binds _ _ := True
  writable _ := True
  saves _ := True
  assumes _ := True

/-- Nothing is written to a data value that the run cannot have. -/
theorem RunRule.Effect.data_hidden {ω : Type} {d : ℕ} {entries : DataList Value} {s s' : Machine ω}
    {a : Act} (heffect : (hiddenRule ω d entries).Effect s a s') (hknown : d < s.heap.datas.length) :
    s'.heap.data d = s.heap.data d := by
  cases heffect with
  | alloc h halloc =>
    rcases halloc.datas d with heq | ⟨hle, -⟩
    · exact heq
    · exact absurd hknown (Nat.not_lt_of_le hle)
  | hoist f rest list _ _ =>
    exact congrArg (·.getD d []) (s.heap.hoists_hoist list (f :: rest)).datas
  | setList l h hedits _ =>
    obtain ⟨lists, nodes, rfl⟩ := hedits.onLists
    rfl
  | setData d' key v hd' _ =>
    have hne : d' ≠ d := fun heq => hd' (congrArg Value.data heq)
    show (s.heap.datas.modify d' _).getD d [] = s.heap.datas.getD d []
    rw [List.getD_eq_getElem?_getD, List.getElem?_modify_ne _ _ hne, List.getD_eq_getElem?_getD]
  | _ => rfl

instance {ω : Type} {d : ℕ} {entries : DataList Value} : (hiddenRule ω d entries).Lawful where
  keeps s a s' hs heffect := by
    obtain ⟨⟨hknown, hplaces⟩, hdata⟩ := hs
    have hknown' : d < s'.heap.datas.length := Nat.lt_of_lt_of_le hknown heffect.does.length_datas
    have hplaces' := heffect.holdsOnly (fun _ h => h d) hplaces
    exact ⟨trivial, ⟨hknown', hplaces'⟩, (heffect.data_hidden hknown).trans hdata⟩
  own_new _ _ := trivial
  own_runsIn _ _ _ := trivial
  plain _ h := h d
  fresh s s' d' hs _ hd' _ heq := by
    obtain rfl := Value.data.inj heq
    exact absurd (Heap.Hides.known hs.1) (Nat.not_lt_of_le hd')
  fresh_native _ _ _ _ := trivial
  entry _ f e hs he := (Heap.Hides.places hs.1).frames f e he
  item _ node hs hnode := (Heap.Hides.places hs.1).nodes node hnode
  data _ d' hs _ e he := (Heap.Hides.places hs.1).datas d' e he
  fields _ inst hs hinst := (Heap.Hides.places hs.1).instances inst hinst
  native _ _ native hs hnative :=
    ⟨(Heap.Hides.places hs.1).natives native (List.mem_of_getElem? hnative), fun _ => trivial⟩
  saved _ _ _ := trivial

/-! ### The initialisers of a chain -/

/-- The name of a field and its initialiser. -/
def Stmt.field? : Stmt → Option (Text × Option Expr)
  | .varDecl _ name _ init _ => some (name, init)
  | _ => none

/-- The declarations of fields in these members, and the environment they are made in. -/
def fieldsIn (members : List Stmt) (closure : Env) : List (Text × Option Expr × Env) :=
  members.filterMap fun m => m.field?.map fun f => (f.1, f.2, closure)

/-- The declarations of a class. -/
def Heap.fieldsOf (h : Heap) (c : ℕ) : List (Text × Option Expr × Env) :=
  match h.classes[c]? with
  | some ci => fieldsIn ci.members ci.closure
  | none => []

/-- The declarations of a chain, those of the last ancestor first. -/
def Heap.declarations (h : Heap) (cs : List ℕ) : List (Text × Option Expr × Env) :=
  cs.reverse.flatMap h.fieldsOf

/-- A declaration whose initialiser ran in `env`, and what it came to. -/
structure FieldTurn where
  name : Text
  init : Option Expr
  env : Env
  value : Value

def FieldTurn.declared (t : FieldTurn) : Text × Option Expr × Env := (t.name, t.init, t.env.tail)

def FieldTurn.entry (t : FieldTurn) : Text × Value := (t.name, t.value)

section Initialises

variable {ω : Type}

/-- The initialisers run one behind the other, some of them in a new frame; the value of each is
written to the data value before the next one starts. -/
inductive Initialises (evalExpr : Expr → Env → Prog ω Value) (d : ℕ) :
    Machine ω → List FieldTurn → Machine ω → Prop
  | done {s : Machine ω} : Initialises evalExpr d s [] s
  | enter {s s' : Machine ω} {ts : List FieldTurn} :
      Initialises evalExpr d { s with heap := s.heap.newFrame } ts s' →
      Initialises evalExpr d s ts s'
  | turn {s s₁ s' : Machine ω} {t : FieldTurn} {ts : List FieldTurn} :
      (evalInit evalExpr t.init t.env s).ends = (some t.value, s₁) →
      Initialises evalExpr d { s₁ with heap := s₁.heap.dataSet d t.name t.value } ts s' →
      Initialises evalExpr d s (t :: ts) s'

variable {evalExpr : Expr → Env → Prog ω Value} {d : ℕ} {s s₁ s' : Machine ω}
  {ts ts' : List FieldTurn}

theorem Initialises.append (h : Initialises evalExpr d s ts s₁)
    (h' : Initialises evalExpr d s₁ ts' s') : Initialises evalExpr d s (ts ++ ts') s' := by
  induction h with
  | done => exact h'
  | enter _ ih => exact .enter (ih h')
  | turn hinit _ ih => exact .turn hinit (ih h')

/-- A field without an initialiser is `void`. -/
theorem Initialises.void (h : Initialises evalExpr d s ts s') :
    ∀ t ∈ ts, t.init = none → t.value = .void := by
  induction h with
  | done => exact fun t ht => absurd ht List.not_mem_nil
  | enter _ ih => exact ih
  | @turn s s₁ s' t ts hinit _ ih =>
    refine List.forall_mem_cons.mpr ⟨fun hnone => ?_, ih⟩
    rw [hnone] at hinit
    exact (Option.some.inj (congrArg Prod.fst hinit)).symm

/-- A program that returns has gone through both of its parts. -/
theorem ends_of_bind {α β : Type} {m : Prog ω α} {f : α → Prog ω β} {b : β} {s s' : Machine ω}
    (h : ((m >>= f) s).ends = (some b, s')) :
    ∃ a s₁, (m s).ends = (some a, s₁) ∧ (f a s₁).ends = (some b, s') := by
  cases hm : (m s).ends with
  | mk value s₁ =>
    cases value with
    | none =>
      rw [Exec.ends_bind_none hm] at h
      cases h
    | some a =>
      rw [Exec.ends_bind hm] at h
      exact ⟨a, s₁, rfl, h⟩

/-- The initialisers of one class. -/
theorem initialises_initFields (members : List Stmt) (env : Env)
    (h : (initFields evalExpr members env d s).ends = (some (), s')) :
    ∃ ts, Initialises evalExpr d s ts s' ∧
      ts.map FieldTurn.declared = fieldsIn members env.tail := by
  induction members generalizing s with
  | nil =>
    obtain ⟨-, rfl⟩ := Prod.mk.inj h
    exact ⟨[], .done, rfl⟩
  | cons m members ih =>
    cases m with
    | varDecl line name type init isFixed =>
      obtain ⟨v, s₁, hinit, hrest⟩ := ends_of_bind h
      obtain ⟨u, s₂, hset, hrest⟩ := ends_of_bind hrest
      obtain ⟨-, rfl⟩ := Prod.mk.inj hset
      obtain ⟨ts, hts, hdeclared⟩ := ih hrest
      refine ⟨⟨name, init, env, v⟩ :: ts, .turn hinit hts, ?_⟩
      exact congrArg ((name, init, env.tail) :: ·) hdeclared
    | _ => exact ih h

/-- One class, behind its ancestors. -/
theorem initialises_level {n c : ℕ}
    (h : (initFieldsRecursive evalExpr (n + 1) c d s).ends = (some (), s')) :
    ∃ ci s₁ ts, s.heap.classes[c]? = some ci ∧
      ((match ci.parent with
        | some p => initFieldsRecursive evalExpr n p d
        | none => pure () : Prog ω Unit) s).ends = (some (), s₁) ∧
      Initialises evalExpr d s₁ ts s' ∧ ts.map FieldTurn.declared = s.heap.fieldsOf c := by
  obtain ⟨ci, s₀, hread, hrest⟩ := ends_of_bind h
  obtain ⟨hci, rfl⟩ := Prod.mk.inj hread
  obtain ⟨u, s₁, hparent, hrest⟩ := ends_of_bind hrest
  obtain ⟨env, s₂, hnew, hinit⟩ := ends_of_bind hrest
  have hnew : (some (s₁.heap.frames.length :: ci.closure),
      ({ s₁ with heap := s₁.heap.newFrame } : Machine ω)) = (some env, s₂) := hnew
  obtain ⟨henv, rfl⟩ := Prod.mk.inj hnew
  obtain rfl := Option.some.inj henv
  obtain ⟨ts, hts, hdeclared⟩ := initialises_initFields _ _ hinit
  refine ⟨ci, s₁, ts, hci, hparent, .enter hts, hdeclared.trans ?_⟩
  have hci : s.heap.classes[c]? = some ci := hci
  rw [Heap.fieldsOf, hci]
  rfl

/-- **The ancestors first.** -/
theorem initialises_chain {n c : ℕ} {cs : List ℕ} (hlineage : Lineage s.heap.classLink c cs)
    (h : (initFieldsRecursive evalExpr n c d s).ends = (some (), s')) :
    ∃ ts, Initialises evalExpr d s ts s' ∧
      ts.map FieldTurn.declared = s.heap.declarations cs := by
  -- all classes are read before the first initialiser runs
  induction hlineage generalizing n s' with
  | @last c hlast =>
    cases n with
    | zero => cases congrArg Prod.fst h
    | succ n =>
      obtain ⟨ci, s₁, ts, hci, hparent, hts, hdeclared⟩ := initialises_level h
      rw [Heap.classLink, hci, Option.bind_some] at hlast
      rw [hlast] at hparent
      obtain ⟨-, rfl⟩ := Prod.mk.inj hparent
      refine ⟨ts, hts, hdeclared.trans ?_⟩
      rw [Heap.declarations, List.reverse_singleton, List.flatMap_singleton]
  | @cons c p cs hlink _ ih =>
    cases n with
    | zero => cases congrArg Prod.fst h
    | succ n =>
      obtain ⟨ci, s₁, ts, hci, hparent, hts, hdeclared⟩ := initialises_level h
      rw [Heap.classLink, hci, Option.bind_some] at hlink
      rw [hlink] at hparent
      obtain ⟨ts₀, hts₀, hdeclared₀⟩ := ih hparent
      refine ⟨ts₀ ++ ts, hts₀.append hts, ?_⟩
      rw [List.map_append, hdeclared₀, hdeclared, Heap.declarations, Heap.declarations,
        List.reverse_cons, List.flatMap_append, List.flatMap_singleton]

/-- **The data value behind the initialisers**, which none of them could reach. -/
theorem Initialises.data [Host ω] {k : ℕ} (h : Initialises (evaluator k).evalExpr d s ts s')
    (hhides : s.heap.Hides d) : s'.heap.Hides d ∧
      s'.heap.data d = dataSetAll (s.heap.data d) (ts.map FieldTurn.entry) := by
  induction h with
  | done => exact ⟨hhides, rfl⟩
  | enter _ ih => exact ih ⟨hhides.known, hhides.places.newFrame⟩
  | @turn s s₁ s' t ts hinit _ ih =>
    obtain ⟨hvalue, rfl⟩ := Prod.mk.inj hinit
    have hobeys : Obeys (hiddenRule ω d (s.heap.data d))
        (evalInit (evaluator k).evalExpr t.init t.env) _ :=
      obeys_evalInit (Evaluator.obeys _ k) t.init trivial
    obtain ⟨⟨hhides₁, hdata₁⟩, hne⟩ := (hobeys s ⟨hhides, rfl⟩).value _ hvalue
    have hplaces := hhides₁.places.dataSet d t.name hne
    obtain ⟨hhides', hdata'⟩ :=
      ih ⟨Nat.lt_of_lt_of_eq hhides₁.known (List.length_modify _ _ _).symm, hplaces⟩
    refine ⟨hhides', hdata'.trans ?_⟩
    have hwritten := Heap.data_dataSet _ hhides₁.known t.name t.value d
    rw [if_pos rfl, hdata₁] at hwritten
    exact congrArg (dataSetAll · (ts.map FieldTurn.entry)) hwritten

end Initialises

/-! ### The most derived declaration -/

theorem mem_keys_dataSetAll {es : List (Text × Value)} {key : Text} :
    key ∈ (dataSetAll [] es).map Prod.fst ↔ key ∈ es.map Prod.fst := by
  rw [← not_iff_not, ← dataGet_eq_none, dataGet_dataSetAll]
  simp only [dataGet, Option.or_none, Option.map_eq_none_iff, List.find?_eq_none, List.mem_reverse,
    decide_eq_true_eq, List.mem_map, not_exists, not_and]

theorem nodup_keys_dataSetAll (es : List (Text × Value)) :
    ((dataSetAll [] es).map Prod.fst).Nodup := by
  have hfold : ∀ d : DataList Value, (d.map Prod.fst).Nodup →
      ((dataSetAll d es).map Prod.fst).Nodup := by
    induction es with
    | nil => exact fun d hd => hd
    | cons e es ih => exact fun d hd => ih _ (dataSet_keys_nodup hd e.1 e.2)
  exact hfold [] List.nodup_nil

/-- The fields of an instance whose class and ancestors are `cs`. -/
structure InstanceFields (h : Heap) (cs : List ℕ) (ts : List FieldTurn)
    (fields : DataList Value) : Prop where
  nodup : (fields.map Prod.fst).Nodup
  /-- There is an entry for each declared name, and no other. -/
  declared : ∀ name, name ∈ fields.map Prod.fst ↔ ∃ c ∈ cs, name ∈ (h.fieldsOf c).map Prod.fst
  /-- In the first class that declares the name, the last declaration counts. -/
  most_derived : ∀ before c after, cs = before ++ c :: after →
    ∀ name, (∀ b ∈ before, name ∉ (h.fieldsOf b).map Prod.fst) →
    ∀ f, (h.fieldsOf c).reverse.find? (fun f => f.1 = name) = some f →
    ∃ t ∈ ts, t.declared = f ∧ dataGet fields name = some t.value

theorem InstanceFields.of_turns {h : Heap} {cs : List ℕ} {ts : List FieldTurn}
    (hts : ts.map FieldTurn.declared = h.declarations cs) :
    InstanceFields h cs ts (dataSetAll [] (ts.map FieldTurn.entry)) where
  nodup := nodup_keys_dataSetAll _
  declared name := by
    have hnames : (ts.map FieldTurn.entry).map Prod.fst = (h.declarations cs).map Prod.fst := by
      rw [← hts, List.map_map, List.map_map]
      rfl
    rw [mem_keys_dataSetAll, hnames, Heap.declarations, List.map_flatMap, List.mem_flatMap]
    simp only [List.mem_reverse]
  most_derived before c after hcs name hbefore f hf := by
    have hfind : (h.declarations cs).reverse.find? (fun f => f.1 = name) = some f := by
      rw [Heap.declarations, List.reverse_flatMap, List.reverse_reverse, hcs, List.flatMap_append,
        List.flatMap_cons, List.find?_append, List.find?_eq_none.mpr, Option.none_or,
        List.find?_append, Function.comp_apply, hf, Option.some_or]
      intro g hg hname
      obtain ⟨b, hb, hg⟩ := List.mem_flatMap.mp hg
      refine hbefore b hb (List.mem_map.mpr ⟨g, List.mem_reverse.mp hg, ?_⟩)
      exact of_decide_eq_true hname
    rw [← hts, ← List.map_reverse, List.find?_map] at hfind
    obtain ⟨t, ht, hdeclared⟩ := Option.map_eq_some_iff.mp hfind
    refine ⟨t, List.mem_reverse.mp (List.mem_of_find?_eq_some ht), hdeclared, ?_⟩
    rw [dataGet_dataSetAll, ← List.map_reverse, List.find?_map]
    rw [show ts.reverse.find? ((fun e => decide (e.1 = name)) ∘ FieldTurn.entry) = some t from ht]
    rfl

/-! ### New instances -/

section New

variable {ω : Type} [Host ω]

/-- The constructor runs on the instance, if there is one. -/
def runConstructor (R : Evaluator ω) (ctor : Option (ℕ × Stmt)) (i : ℕ) (args : List Expr)
    (env : Env) : Prog ω Value :=
  match ctor with
  | some p => do
    let argv ← evalArgs R args env
    let callEnv ← enterMethod p.1 p.2 (.inst i) argv
    let _ ← execBlock R p.2.body callEnv
    pure (.inst i)
  | none => pure (.inst i)

variable {k n c : ℕ} {cs : List ℕ} {s s₁ : Machine ω}

/-- The initialisers of a chain, and the fields behind them. -/
theorem fields_of_hides (hchain : s.heap.Chain c cs)
    (hfresh : (s.heap.addData []).Hides s.heap.datas.length)
    (hinit : (initFieldsRecursive (evaluator k).evalExpr n c s.heap.datas.length
      { s with heap := s.heap.addData [] }).ends = (some (), s₁)) :
    ∃ ts, Initialises (evaluator k).evalExpr s.heap.datas.length
        { s with heap := s.heap.addData [] } ts s₁ ∧
      (∀ t ∈ ts, t.init = none → t.value = .void) ∧
      InstanceFields s.heap cs ts (s₁.heap.data s.heap.datas.length) ∧
      s₁.heap.Hides s.heap.datas.length := by
  set d := s.heap.datas.length with hd
  set s₀ : Machine ω := { s with heap := s.heap.addData [] } with hs₀
  obtain ⟨ts, hts, hdeclared⟩ := initialises_chain (s := s₀) hchain.lineage hinit
  obtain ⟨hhides, hentries⟩ := hts.data hfresh
  have hempty : s₀.heap.data d = [] := by
    show (s.heap.datas ++ [[]]).getD d [] = []
    simp [hd]
  rw [hempty] at hentries
  exact ⟨ts, hts, hts.void, hentries ▸ InstanceFields.of_turns hdeclared, hhides⟩

/-- Behind the initialisers `new` comes to the constructor: they leave the classes alone. -/
theorem constructInstance_ends (hchain : s.heap.Chain c cs) (hn : cs.length ≤ n)
    (hinit : (initFieldsRecursive (evaluator k).evalExpr n c s.heap.datas.length
      { s with heap := s.heap.addData [] }).ends = (some (), s₁)) (args : List Expr) (env : Env) :
    (constructInstance (evaluator k) n c args env s).ends
      = (runConstructor (evaluator k) (s.heap.firstMethod (txt "constructor") cs)
          s₁.heap.instances.length args env
          { s₁ with heap := { s₁.heap with
            instances := s₁.heap.instances ++ [⟨c, s.heap.datas.length⟩] } }).ends := by
  set d := s.heap.datas.length with hd
  set s₀ : Machine ω := { s with heap := s.heap.addData [] } with hs₀
  have hobeys : Obeys (keptRule ω s₀.heap)
      (initFieldsRecursive (evaluator k).evalExpr n c d) Anything :=
    obeys_initFieldsRecursive (Evaluator.obeys _ k) n c trivial
  obtain ⟨hvalue, hstate⟩ := Prod.mk.inj hinit
  have hkeeps := (keeps_of_obeys hobeys).2 () hvalue
  rw [hstate] at hkeeps
  set s₂ : Machine ω := { s₁ with heap := { s₁.heap with
    instances := s₁.heap.instances ++ [⟨c, d⟩] } }
  have hkept : s.heap.Keeps s₂.heap := by
    refine (Heap.keeps_of_eq rfl rfl rfl : s.heap.Keeps s₀.heap).trans (hkeeps.trans ?_)
    exact Heap.keeps_of_classes rfl (List.prefix_append _ _) (Nat.le_refl _) fun _ _ hq _ => hq
  have hdata : (newData [] s : Exec.Outcome (Machine ω) Act ℕ).ends = (some d, s₀) := rfl
  have hinstance : (newInstance ⟨c, d⟩ s₁ : Exec.Outcome (Machine ω) Act ℕ).ends
      = (some s₁.heap.instances.length, s₂) := rfl
  have hfind : (findMethod n c (txt "constructor") s₂ : Exec.Outcome (Machine ω) Act _).ends
      = (some (s.heap.firstMethod (txt "constructor") cs), s₂) := by
    rw [findMethod, Exec.readSome, Heap.findMethod_eq (hkept.chain hchain) hn,
      hkept.firstMethod hchain.known]
    rfl
  rw [constructInstance, Exec.ends_bind hdata, Exec.ends_bind hinit, Exec.ends_bind hinstance,
    Exec.ends_bind hfind]
  cases s.heap.firstMethod (txt "constructor") cs with
  | none => rfl
  | some p =>
    have hrun : (runConstructor (evaluator k) (some p) s₁.heap.instances.length args env :
        Prog ω Value) = (do
        let argv ← evalArgs (evaluator k) args env
        let _ ← invokeMethod (evaluator k) p.1 p.2 (.inst s₁.heap.instances.length) argv
        pure (.inst s₁.heap.instances.length)) := by
      simp only [runConstructor, invokeMethod_eq, Exec.bind_assoc, Exec.pure_bind]
    rw [hrun]

omit [Host ω] in
/-- The next data value is held nowhere, if all that is held is there. -/
theorem hides_addData (h : s.heap.HoldsOnly (Value.Born s.heap.datas.length)) :
    (s.heap.addData []).Hides s.heap.datas.length where
  known := s.heap.length_datas_addData []
  places := by
    have hnew : (s.heap.addData []).HoldsOnly (Value.Born s.heap.datas.length) :=
      h.allocates (s.heap.allocates_addData (List.forall_mem_nil _))
    exact hnew.mono fun v hv heq => Nat.lt_irrefl _ (hv _ heq)

/-- **A new instance, in a run.** Each field name that is declared in the chain has one entry, with
the value of its most derived declaration, and the nearest constructor of the chain, if there is
one, runs on the instance. -/
theorem instance_of_known (hknown : Known s) (hchain : s.heap.Chain c cs) (hn : cs.length ≤ n)
    (hinit : (initFieldsRecursive (evaluator k).evalExpr n c s.heap.datas.length
      { s with heap := s.heap.addData [] }).ends = (some (), s₁)) (args : List Expr) (env : Env) :
    ∃ ts, Initialises (evaluator k).evalExpr s.heap.datas.length
        { s with heap := s.heap.addData [] } ts s₁ ∧
      (∀ t ∈ ts, t.init = none → t.value = .void) ∧
      InstanceFields s.heap cs ts (s₁.heap.data s.heap.datas.length) ∧
      (constructInstance (evaluator k) n c args env s).ends
        = (runConstructor (evaluator k) (s.heap.firstMethod (txt "constructor") cs)
            s₁.heap.instances.length args env
            { s₁ with heap := { s₁.heap with
              instances := s₁.heap.instances ++ [⟨c, s.heap.datas.length⟩] } }).ends := by
  obtain ⟨ts, hts, hvoid, hfields, -⟩ :=
    fields_of_hides hchain (hides_addData hknown.holdsOnly) hinit
  exact ⟨ts, hts, hvoid, hfields, constructInstance_ends hchain hn hinit args env⟩

end New

/-- The field `x`, with a number. -/
def numField (line : ℕ) (n : ℤ) : Stmt :=
  .varDecl line (txt "x") (.new .num) (some (.num line n)) false

/-- `B` extends `A`, and both declare `x`; the constructor is that of `A`. -/
def redeclaring : List Stmt := [
  .classDecl 1 (txt "A") [numField 2 1,
    .funDecl 3 (txt "constructor") [] (.new .void) (.block 3 []) false] 0 none,
  .classDecl 5 (txt "B") [numField 6 2] 0 (some (txt "A"))]

/-- The state behind these classes. -/
def redeclared : Machine Unit :=
  (@session Unit silentHost 2 [.run redeclaring] (interpInit ())).state

theorem known_redeclared : @Known Unit silentHost redeclared := by
  refine ⟨2, [.run redeclaring], (), fun e he v hv => ?_, .inl rfl⟩
  obtain rfl := List.mem_singleton.mp he
  cases hv

theorem chain_redeclared : redeclared.heap.Chain 1 [1, 0] where
  lineage := .cons rfl (.last rfl)
  known := by decide +kernel

/-- The fields of `B`, one behind the other, and the constructor of `A`. -/
theorem initFields_redeclared : (initFieldsRecursive (@evaluator Unit silentHost 1).evalExpr 2 1 0
    { redeclared with heap := redeclared.heap.addData [] }).ends
      = (some (), (initFieldsRecursive (@evaluator Unit silentHost 1).evalExpr 2 1 0
        { redeclared with heap := redeclared.heap.addData [] }).state) := rfl

theorem instance_of_known_redeclared :
    ∃ ts s₁, Initialises (@evaluator Unit silentHost 1).evalExpr 0
        { redeclared with heap := redeclared.heap.addData [] } ts s₁ ∧
      (∀ t ∈ ts, t.init = none → t.value = .void) ∧
      InstanceFields redeclared.heap [1, 0] ts (s₁.heap.data 0) ∧
      (@constructInstance Unit (@evaluator Unit silentHost 1) 2 1 [] [0] redeclared).ends
        = (runConstructor (@evaluator Unit silentHost 1)
            (redeclared.heap.firstMethod (txt "constructor") [1, 0]) s₁.heap.instances.length [] [0]
            { s₁ with heap := { s₁.heap with
              instances := s₁.heap.instances ++ [⟨1, 0⟩] } }).ends := by
  obtain ⟨ts, hrun⟩ := @instance_of_known Unit silentHost 1 2 1 [1, 0] redeclared _
    known_redeclared chain_redeclared (Nat.le_refl _) initFields_redeclared [] [0]
  exact ⟨ts, _, hrun⟩

end Jaguar
