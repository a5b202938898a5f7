/-
Expressions without calls, assignments and `new`.

They raise errors, and what they make is new; without literals they only read. An expression that
only reads gives the same value again as long as its variables, and all that can be reached from
them, stay as they are.

* `Expr.Plain` — such an expression;
* `evaluator_labelled` — **what its evaluation may do**;
* `LeavesAlone`, `repeats_evalExpr` — **the same value again**.
-/
import Jaguar.InterpSteps
import Jaguar.Places

namespace Jaguar

/-! ### Plain expressions -/

mutual

/-- There is no call, no assignment and no `new`, the variables meet `X`, and lists, data values
and functions are made only under a condition. -/
def Expr.Plain (X : Text → Prop) (literals : Prop) : Expr → Prop
  | .num .. | .decimal .. | .scifi .. | .bool .. => True
  | .str _ parts => partsPlain X literals parts
  | .ident _ name => X name
  | .binary _ left right _ => left.Plain X literals ∧ right.Plain X literals
  | .unary _ operand _ => operand.Plain X literals
  | .ternary _ cond thenE elseE =>
    cond.Plain X literals ∧ thenE.Plain X literals ∧ elseE.Plain X literals
  | .between _ value low high =>
    value.Plain X literals ∧ low.Plain X literals ∧ high.Plain X literals
  | .await _ e => e.Plain X literals
  | .member _ object _ => object.Plain X literals
  | .index _ object index => object.Plain X literals ∧ index.Plain X literals
  | .list _ items => literals ∧ itemsPlain X literals items
  | .data _ entries => literals ∧ entriesPlain X literals entries
  | .funcLit .. => literals
  | .assign .. | .call .. | .new .. => False

def partsPlain (X : Text → Prop) (literals : Prop) : List StrPart → Prop
  | [] => True
  | .literal _ :: parts => partsPlain X literals parts
  | .expr e :: parts => e.Plain X literals ∧ partsPlain X literals parts

def itemsPlain (X : Text → Prop) (literals : Prop) : List Expr → Prop
  | [] => True
  | e :: items => e.Plain X literals ∧ itemsPlain X literals items

def entriesPlain (X : Text → Prop) (literals : Prop) : List (Text × Expr) → Prop
  | [] => True
  | (_, e) :: entries => e.Plain X literals ∧ entriesPlain X literals entries

end

/-! ### What they do -/

/-- The steps of every run have such labels. -/
def Labelled {ω α : Type} (ok : Act → Prop) (m : Prog ω α) : Prop :=
  Exec.Triple (fun st => ok st.label) (fun _ => True) m fun _ _ => True

section Labelled

variable {ω α β : Type} {ok : Act → Prop} {m : Prog ω α}

theorem labelled_pure (a : α) : Labelled ok (pure a : Prog ω α) :=
  Exec.triple_pure fun _ _ => trivial

theorem labelled_read (f : Machine ω → α) : Labelled ok (Exec.read f : Prog ω α) :=
  Exec.triple_read fun _ _ => trivial

theorem labelled_readSome (f : Machine ω → Option α) : Labelled ok (Exec.readSome f : Prog ω α) :=
  Exec.triple_readSome fun _ _ _ _ => trivial

theorem labelled_giveUp : Labelled ok (Exec.giveUp : Prog ω α) := Exec.triple_giveUp

theorem Labelled.bind {f : α → Prog ω β} (hm : Labelled ok m) (hf : ∀ a, Labelled ok (f a)) :
    Labelled ok (m >>= f) :=
  Exec.TripleWhile.bind hm hf

theorem labelled_ite {c : Prop} [Decidable c] {m' : Prog ω α} (h : Labelled ok m)
    (h' : Labelled ok m') : Labelled ok (if c then m else m') :=
  Exec.triple_ite (fun _ => h) fun _ => h'

theorem labelled_unlessError {dflt : α} (h : Labelled ok m) : Labelled ok (unlessError dflt m) :=
  (labelled_read _).bind fun _ => labelled_ite (labelled_pure _) h

theorem labelled_act {a : Act} (h : ok a) (f : Machine ω → Machine ω) :
    Labelled ok (Exec.act a f) :=
  Exec.triple_act fun _ _ => ⟨h, trivial⟩

theorem labelled_actSome {a : Act} (h : ok a) (f : Machine ω → Option (Machine ω)) :
    Labelled ok (Exec.actSome a f) :=
  Exec.triple_actSome fun _ _ _ _ => ⟨h, trivial⟩

theorem labelled_fail (h : ok .raise) (line : ℕ) (msg : Text) :
    Labelled ok (fail line msg : Prog ω Value) :=
  (labelled_act h _).bind fun _ => labelled_pure _

theorem labelled_alloc (h : ok .alloc) (size : Heap → ℕ) (f : Heap → Heap) :
    Labelled ok (alloc size f : Prog ω ℕ) :=
  (labelled_read _).bind fun _ => (labelled_act h _).bind fun _ => labelled_pure _

end Labelled

/-- Errors, and what it takes to make a literal. -/
def PlainAct (literals : Prop) (a : Act) : Prop :=
  match a with
  | .raise => True
  | .alloc | .setList _ | .setData .. => literals
  | _ => False

section Plain

variable {ω : Type} {X : Text → Prop} {literals : Prop}

theorem labelled_evalMember (obj : Value) (name : Text) (line : ℕ) :
    Labelled (PlainAct literals) (evalMember obj name line : Prog ω Value) := by
  cases obj with
  | data d => exact (labelled_read _).bind fun _ => labelled_pure _
  | inst i =>
    refine (labelled_readSome _).bind fun inst => (labelled_read _).bind fun found => ?_
    cases found with
    | some v => exact labelled_pure _
    | none => exact (labelled_readSome _).bind fun _ => labelled_fail trivial _ _
  | _ => exact labelled_fail trivial _ _

theorem labelled_evalIndex (obj idx : Value) (line : ℕ) :
    Labelled (PlainAct literals) (evalIndex obj idx line : Prog ω Value) := by
  cases obj with
  | list l =>
    refine (labelled_readSome _).bind fun node => ?_
    cases node with
    | some p => exact (labelled_readSome _).bind fun _ => labelled_pure _
    | none => exact labelled_fail trivial _ _
  | data d => exact (labelled_read _).bind fun _ => labelled_pure _
  | string s => exact labelled_ite (labelled_fail trivial _ _) (labelled_pure _)
  | _ => exact labelled_fail trivial _ _

theorem labelled_evalAwait (v : Value) (line : ℕ) :
    Labelled (PlainAct literals) (evalAwait v line : Prog ω Value) := by
  cases v with
  | native p =>
    refine (labelled_readSome _).bind fun native => ?_
    cases native with
    | task result =>
      cases result with
      | ok v => exact labelled_pure _
      | error e => exact labelled_fail trivial _ _
    | _ => exact labelled_pure _
  | _ => exact labelled_pure _

theorem labelled_evalUnary (op : TokenType) (v : Value) :
    Labelled (PlainAct literals) (evalUnary op v : Prog ω Value) := by
  cases op with
  | not => exact (labelled_read _).bind fun _ => labelled_pure _
  | minus => cases v <;> exact labelled_pure _
  | _ => exact labelled_pure _

theorem labelled_evalIdent (name : Text) (env : Env) (line : ℕ) :
    Labelled (PlainAct literals) (evalIdent name env line : Prog ω Value) := by
  refine (labelled_read _).bind fun v => ?_
  cases v with
  | some v => exact labelled_pure _
  | none => exact labelled_fail trivial _ _

variable [Host ω] {R : Evaluator ω} {env : Env}

theorem labelled_evalBinary (n : ℕ) (op : TokenType) (l r : Value) (line : ℕ) :
    Labelled (PlainAct literals) (evalBinary n op l r line : Prog ω Value) := by
  have htruthy : ∀ f : Bool → Bool → Value, Labelled (PlainAct literals) (do
      let lt ← truthy l
      let rt ← truthy r
      pure (f lt rt) : Prog ω Value) := fun f =>
    (labelled_read _).bind fun _ => (labelled_read _).bind fun _ => labelled_pure _
  unfold evalBinary
  refine labelled_ite ?_ ?_
  · exact (labelled_readSome _).bind fun _ => (labelled_readSome _).bind fun _ => labelled_pure _
  · cases op with
    | eq => exact labelled_pure _
    | ne => exact labelled_pure _
    | and => exact htruthy _
    | or => exact htruthy _
    | _ =>
      refine labelled_ite labelled_giveUp ?_
      split
      · exact labelled_pure _
      · exact labelled_fail trivial _ _

omit [Host ω] in
theorem labelled_evalStringInterp
    (hR : ∀ e : Expr, e.Plain X literals → Labelled (PlainAct literals) (R.evalExpr e env))
    (n : ℕ) (parts : List StrPart) (hparts : partsPlain X literals parts) (out : Text) :
    Labelled (PlainAct literals) (evalStringInterp R n parts out env) := by
  induction parts generalizing out with
  | nil => exact labelled_pure _
  | cons part parts ih =>
    cases part with
    | literal s => exact ih hparts _
    | expr e =>
      exact (hR e hparts.1).bind fun _ => labelled_unlessError
        ((labelled_readSome _).bind fun _ => ih hparts.2 _)

omit [Host ω] in
theorem labelled_appendItems (hlits : literals)
    (hR : ∀ e : Expr, e.Plain X literals → Labelled (PlainAct literals) (R.evalExpr e env))
    (l : ℕ) (items : List Expr) (hitems : itemsPlain X literals items) :
    Labelled (PlainAct literals) (appendItems R l items env) := by
  induction items with
  | nil => exact labelled_pure _
  | cons e items ih =>
    exact (hR e hitems.1).bind fun _ => (labelled_actSome hlits _).bind fun _ => ih hitems.2

omit [Host ω] in
theorem labelled_setEntries (hlits : literals)
    (hR : ∀ e : Expr, e.Plain X literals → Labelled (PlainAct literals) (R.evalExpr e env))
    (d : ℕ) (entries : List (Text × Expr)) (hentries : entriesPlain X literals entries) :
    Labelled (PlainAct literals) (setEntries R d entries env) := by
  induction entries with
  | nil => exact labelled_pure _
  | cons entry entries ih =>
    exact (hR entry.2 hentries.1).bind fun _ => (labelled_act hlits _).bind fun _ => ih hentries.2

/-- **What the evaluation of a plain expression may do.** -/
theorem evaluator_labelled (n : ℕ) {e : Expr} (he : e.Plain X literals) :
    Labelled (PlainAct literals) ((evaluator n : Evaluator ω).evalExpr e env) := by
  induction n generalizing e with
  | zero => exact labelled_giveUp
  | succ n ih =>
    refine labelled_unlessError ?_
    cases e with
    | num | decimal | scifi | bool => exact labelled_pure _
    | str line parts => exact labelled_evalStringInterp (fun _ => ih) n parts he []
    | ident line name => exact labelled_evalIdent name env line
    | binary line left right op =>
      exact (ih he.1).bind fun _ => (ih he.2).bind fun _ =>
        labelled_unlessError (labelled_evalBinary n op _ _ line)
    | unary line operand op => exact (ih (e := operand) he).bind fun _ => labelled_evalUnary op _
    | between line value low high =>
      exact (ih he.1).bind fun _ => (ih he.2.1).bind fun _ => (ih he.2.2).bind fun _ =>
        labelled_pure _
    | ternary line cond thenE elseE =>
      exact (ih he.1).bind fun _ => (labelled_read _).bind fun _ =>
        labelled_ite (ih he.2.1) (ih he.2.2)
    | list line items =>
      exact (labelled_alloc he.1 _ _).bind fun l =>
        (labelled_appendItems he.1 (fun _ => ih) l items he.2).bind fun _ => labelled_pure _
    | data line entries =>
      exact (labelled_alloc he.1 _ _).bind fun d =>
        (labelled_setEntries he.1 (fun _ => ih) d entries he.2).bind fun _ => labelled_pure _
    | funcLit line params retType body isAsync =>
      exact (labelled_alloc he _ _).bind fun _ => labelled_pure _
    | await line e =>
      exact (ih (e := e) he).bind fun _ => labelled_unlessError (labelled_evalAwait _ line)
    | member line object name =>
      exact (ih (e := object) he).bind fun _ =>
        labelled_unlessError (labelled_evalMember _ name line)
    | index line object index =>
      exact (ih he.1).bind fun _ => (ih he.2).bind fun _ => labelled_evalIndex _ _ line
    | assign => exact he.elim
    | call => exact he.elim
    | new => exact he.elim

end Plain

/-! ### Errors only -/

/-- With an error pending an expression is not evaluated. -/
theorem evalExpr_pending {ω : Type} [Host ω] (n : ℕ) (e : Expr) (env : Env) {s : Machine ω}
    (hs : s.it.hadRuntimeError = true) :
    (evaluator (n + 1)).evalExpr e env s = ⟨[], s, some .void⟩ :=
  unlessError_of_pending hs

/-- A program that does nothing but raise errors. -/
structure Raising {ω α : Type} (m : Prog ω α) : Prop where
  labelled : Labelled (PlainAct False) m
  confined : Confined 0 m

section Raising

variable {ω α : Type} {m : Prog ω α} {s s' : Machine ω}

theorem Raising.post (h : Raising m) (s : Machine ω) :
    ∀ st ∈ (m s).steps, st.label = .raise ∧ st.post.it.hadRuntimeError = true := by
  intro st hst
  obtain ⟨label, pre, post⟩ := st
  have hdoes : label.Does pre post := ((h.confined s (Nat.zero_le _)).steps _ hst).1
  have hlabel : PlainAct False label := (h.labelled s trivial).steps _ hst
  cases hdoes with
  | raise line msg => exact ⟨rfl, rfl⟩
  | _ => exact hlabel.elim

theorem Raising.heap (h : Raising m) (s : Machine ω) : (m s).state.heap = s.heap := by
  refine ((h.labelled s trivial).chained.rel (R := fun s s' => s.heap = s'.heap) (fun _ => rfl)
    Eq.trans fun st hst => ?_).symm
  obtain ⟨label, pre, post⟩ := st
  have hdoes : label.Does pre post := ((h.confined s (Nat.zero_le _)).steps _ hst).1
  obtain rfl : label = .raise := (h.post s _ hst).1
  cases hdoes
  rfl

/-- A run that ends with no error pending has raised none. -/
theorem silent_of_clear {steps : List (Exec.Step (Machine ω) Act)} (h : Exec.Chained s steps s')
    (hpost : ∀ st ∈ steps, st.post.it.hadRuntimeError = true)
    (hclear : s'.it.hadRuntimeError = false) : steps = [] ∧ s' = s := by
  induction h with
  | nil => exact ⟨rfl, rfl⟩
  | cons _ ih =>
    obtain ⟨-, rfl⟩ := ih (fun st hst => hpost st (List.mem_cons_of_mem _ hst)) hclear
    exact absurd ((hpost _ List.mem_cons_self).symm.trans hclear) Bool.noConfusion

theorem Raising.silent (h : Raising m) (hclear : (m s).state.it.hadRuntimeError = false) :
    (m s).steps = [] ∧ (m s).state = s :=
  silent_of_clear (h.labelled s trivial).chained (fun st hst => (h.post s st hst).2) hclear

theorem Raising.pending (h : Raising m) (hs : s.it.hadRuntimeError = true) :
    (m s).state.it.hadRuntimeError = true := by
  by_contra hclear
  rw [(h.silent (Bool.eq_false_iff.mpr hclear)).2] at hclear
  exact hclear hs

variable [Host ω]

theorem raising_evalExpr {X : Text → Prop} (n : ℕ) {e : Expr} (he : e.Plain X False) (env : Env) :
    Raising ((evaluator n : Evaluator ω).evalExpr e env) :=
  ⟨evaluator_labelled n he, (Evaluator.confined 0 n).evalExpr e env fun _ _ => Nat.zero_le _⟩

theorem raising_evalBinary (n : ℕ) (op : TokenType) (l r : Value) (line : ℕ) :
    Raising (evalBinary n op l r line : Prog ω Value) :=
  ⟨labelled_evalBinary n op l r line, (follows_evalBinary n op l r line).confined⟩

end Raising

/-! ### Nodes stay -/

section Nodes

variable {ω : Type} {s s' : Machine ω}

theorem Heap.length_listDelete {h h' : Heap} {l : ℕ} {idx : ℤ} {n : ℕ} {prev cur : Option ℕ}
    {i : ℤ} (hdelete : h.listDelete l idx n prev cur i = some h') :
    h'.nodes.length = h.nodes.length := by
  induction n generalizing prev cur i with
  | zero =>
    cases cur with
    | none =>
      obtain rfl := Option.some.inj hdelete
      rfl
    | some p => cases hdelete
  | succ n ih =>
    cases cur with
    | none =>
      obtain rfl := Option.some.inj hdelete
      rfl
    | some p =>
      rw [listDelete] at hdelete
      split at hdelete
      · cases hdelete
      · next node hnode =>
        split_ifs at hdelete with hi
        · obtain rfl := Option.some.inj hdelete
          cases prev with
          | none => exact List.length_modify _ _ _
          | some q => exact (List.length_modify _ _ _).trans (List.length_modify _ _ _)
        · exact ih hdelete

theorem Heap.Edits.length_nodes {h h' : Heap} {l : ℕ} (hedit : h.Edits l h') :
    h.nodes.length ≤ h'.nodes.length := by
  have hnew : ∀ item next, h.nodes.length ≤ (h.newNode item next).nodes.length := by
    intro item next
    show _ ≤ (h.nodes ++ [_]).length
    rw [List.length_append]
    exact Nat.le_add_right _ _
  cases hedit with
  | append item happend =>
    unfold listAppend at happend
    split at happend
    · obtain rfl := Option.some.inj happend
      exact hnew item none
    · obtain ⟨last, -, rfl⟩ := Option.map_eq_some_iff.mp happend
      exact (hnew item none).trans (Nat.le_of_eq (List.length_modify _ _ _).symm)
  | insertFront item => exact hnew item _
  | delete idx hdelete => exact Nat.le_of_eq (length_listDelete hdelete).symm
  | setItems items =>
    show _ ≤ (h.nodes ++ _).length
    rw [List.length_append]
    exact Nat.le_add_right _ _

theorem Act.Does.length_nodes {a : Act} (h : a.Does s s') :
    s.heap.nodes.length ≤ s'.heap.nodes.length := by
  cases h with
  | alloc h' hgrows _ => exact hgrows.nodes.length_le
  | hoist env list => rw [(s.heap.hoists_hoist list env).nodes]
  | setList l h' hedit => exact hedit.length_nodes
  | setItem p v => exact Nat.le_of_eq (List.length_modify _ _ _).symm
  | _ => exact Nat.le_refl _

theorem length_nodes_evalExpr [Host ω] (n : ℕ) (e : Expr) (env : Env) (s : Machine ω) :
    s.heap.nodes.length ≤ ((evaluator n).evalExpr e env s).state.heap.nodes.length := by
  have hrun := (Evaluator.confined 0 n).evalExpr e env (fun _ _ => Nat.zero_le _) s (Nat.zero_le _)
  exact hrun.chained.rel (R := fun s s' => s.heap.nodes.length ≤ s'.heap.nodes.length)
    (fun _ => Nat.le_refl _) Nat.le_trans fun st hst => (hrun.steps st hst).1.length_nodes

end Nodes

/-! ### Expressions that only read -/

/-- The variables have the same values, and all that can be reached from them is the same. -/
structure LeavesAlone (X : Text → Prop) (env : Env) (h h' : Heap) : Prop where
  vars : ∀ name, X name → h'.envGet env name = h.envGet env name
  values : ∀ name, X name → ∀ v, h.envGet env name = some v → h.SameFrom h' v

theorem LeavesAlone.refl (X : Text → Prop) (env : Env) (h : Heap) : LeavesAlone X env h h :=
  ⟨fun _ _ => rfl, fun _ _ v _ => Heap.SameFrom.refl h v⟩

/-- No error is pending in either state, and the second leaves the variables of the first alone. -/
structure SameReads {ω : Type} (X : Text → Prop) (env : Env) (s s' : Machine ω) : Prop where
  clear : s.it.hadRuntimeError = false
  clear' : s'.it.hadRuntimeError = false
  nodes : s.heap.nodes.length ≤ s'.heap.nodes.length
  leaves : LeavesAlone X env s.heap s'.heap

/-- Where `m` does nothing and returns a value, so does `m'`, with the same value. -/
def Repeats {ω α : Type} (s s' : Machine ω) (m m' : Prog ω α) (post : α → Prop) : Prop :=
  ∀ a, m s = ⟨[], s, some a⟩ → m' s' = ⟨[], s', some a⟩ ∧ post a

section Repeats

variable {ω α β : Type} {s s' : Machine ω} {m m' : Prog ω α} {Q : α → Prop} {Q' : β → Prop}

theorem repeats_pure {a : α} (h : Q a) : Repeats s s' (pure a) (pure a) Q := by
  intro b hb
  obtain rfl := Option.some.inj (congrArg Exec.Outcome.value hb)
  exact ⟨rfl, h⟩

/-- A run without steps ends where it starts. -/
theorem state_of_silent (h : Exec.Chained s (m s).steps (m s).state) (hsteps : (m s).steps = []) :
    (m s).state = s := by
  rcases h.eq_or_post with heq | ⟨st, hst, -⟩
  · exact heq
  · rw [hsteps] at hst
    cases hst

theorem Repeats.bind {f f' : α → Prog ω β} (hchained : Exec.Chained s (m s).steps (m s).state)
    (hm : Repeats s s' m m' Q) (hf : ∀ a, Q a → Repeats s s' (f a) (f' a) Q') :
    Repeats s s' (m >>= f) (m' >>= f') Q' := by
  intro b hb
  cases hvalue : (m s).value with
  | none =>
    rw [Exec.bind_of_none hvalue] at hb
    cases congrArg Exec.Outcome.value hb
  | some a =>
    rw [Exec.bind_of_some hvalue] at hb
    have hsteps := List.append_eq_nil_iff.mp (congrArg Exec.Outcome.steps hb)
    have hstate := state_of_silent hchained hsteps.1
    have hfirst : m s = ⟨[], s, some a⟩ := by
      rw [← hsteps.1, ← hvalue]
      exact congrArg (fun s₁ => Exec.Outcome.mk (m s).steps s₁ (m s).value) hstate
    obtain ⟨hagain, ha⟩ := hm a hfirst
    rw [bind_of_silent hagain]
    refine hf a ha b ?_
    rw [hstate] at hb hsteps
    rw [← hb, hsteps.1]
    rfl

theorem repeats_read_bind {f : Machine ω → α} {g g' : α → Prog ω β} (hf : f s' = f s)
    (hg : Q (f s)) (h : ∀ a, Q a → Repeats s s' (g a) (g' a) Q') :
    Repeats s s' (Exec.read f >>= g) (Exec.read f >>= g') Q' := by
  refine Repeats.bind (.nil) (fun a ha => ?_) h
  obtain rfl := Option.some.inj (congrArg Exec.Outcome.value ha)
  exact ⟨congrArg (fun a => (⟨[], s', some a⟩ : Exec.Outcome _ Act α)) hf, hg⟩

theorem repeats_readSome_bind {f f' : Machine ω → Option α} {g g' : α → Prog ω β}
    (hf : ∀ a, f s = some a → f' s' = some a ∧ Q a)
    (h : ∀ a, Q a → Repeats s s' (g a) (g' a) Q') :
    Repeats s s' (Exec.readSome f >>= g) (Exec.readSome f' >>= g') Q' := by
  refine Repeats.bind (.nil) (fun a ha => ?_) h
  obtain ⟨hsame, hQ⟩ := hf a (congrArg Exec.Outcome.value ha)
  exact ⟨congrArg (fun v => (⟨[], s', v⟩ : Exec.Outcome _ Act α)) hsame, hQ⟩

theorem repeats_unlessError {dflt : α} (hs : s.it.hadRuntimeError = false)
    (hs' : s'.it.hadRuntimeError = false) (h : Repeats s s' m m' Q) :
    Repeats s s' (unlessError dflt m) (unlessError dflt m') Q := by
  intro a ha
  rw [unlessError_of_clear hs] at ha
  rw [unlessError_of_clear hs']
  exact h a ha

theorem repeats_ite {c : Prop} [Decidable c] {m₁ m₁' : Prog ω α}
    (h : Repeats s s' m m' Q) (h' : Repeats s s' m₁ m₁' Q) :
    Repeats s s' (if c then m else m₁) (if c then m' else m₁') Q := by
  split
  · exact h
  · exact h'

/-- An error is a step. -/
theorem repeats_fail {line : ℕ} {msg : Text} {m' : Prog ω Value} {Q : Value → Prop} :
    Repeats s s' (fail line msg) m' Q := by
  intro a ha
  cases congrArg Exec.Outcome.steps ha

/-- What ends with a step does not repeat anything. -/
theorem repeats_of_last {f : α → Prog ω β} {m' : Prog ω β} (h : ∀ a s₁, (f a s₁).steps ≠ []) :
    Repeats s s' (m >>= f) m' Q' := by
  intro b hb
  cases hvalue : (m s).value with
  | none =>
    rw [Exec.bind_of_none hvalue] at hb
    cases congrArg Exec.Outcome.value hb
  | some a =>
    rw [Exec.bind_of_some hvalue] at hb
    have hsteps := List.append_eq_nil_iff.mp (congrArg Exec.Outcome.steps hb)
    exact absurd hsteps.2 (h a _)

theorem repeats_giveUp {m' : Prog ω α} : Repeats s s' Exec.giveUp m' Q := by
  intro a ha
  cases congrArg Exec.Outcome.value ha

end Repeats

section Reads

variable {ω : Type} [Host ω] {X : Text → Prop} {env : Env} {s s' : Machine ω}

/-- Nothing that can be reached from the value differs. -/
def Seen (s s' : Machine ω) (v : Value) : Prop := s.heap.SameFrom s'.heap v

omit [Host ω] in
theorem repeats_pure_scalar {v : Value} (hv : v.place? = none) :
    Repeats s s' (pure v) (pure v) (Seen s s') :=
  repeats_pure (Heap.sameFrom_of_scalar hv)

omit [Host ω] in
theorem repeats_evalMember {obj : Value} (hobj : Seen s s' obj) (name : Text) (line : ℕ) :
    Repeats s s' (evalMember obj name line) (evalMember obj name line) (Seen s s') := by
  cases obj with
  | data d =>
    obtain ⟨hsame, hvalue⟩ := Heap.SameFrom.dataGet hobj name
    refine repeats_read_bind (Q := fun v : Option Value => ∀ w ∈ v, Seen s s' w) hsame hvalue
      fun v hv => ?_
    cases v with
    | some v => exact repeats_pure (hv v rfl)
    | none => exact repeats_pure_scalar rfl
  | inst i =>
    obtain ⟨hsame, hfields⟩ := Heap.SameFrom.inst hobj
    refine repeats_readSome_bind (Q := fun inst : Instance => Seen s s' (.data inst.fields))
      (fun inst hinst => ⟨hsame.trans hinst, (hfields inst hinst).1⟩) fun inst hinst => ?_
    obtain ⟨hsame, hvalue⟩ := Heap.SameFrom.dataGet hinst name
    refine repeats_read_bind (Q := fun v : Option Value => ∀ w ∈ v, Seen s s' w) hsame hvalue
      fun v hv => ?_
    cases v with
    | some v => exact repeats_pure (hv v rfl)
    | none =>
      -- the class is read for the message of an error only
      exact repeats_of_last fun ci s₁ => List.cons_ne_nil _ _
  | _ => exact repeats_fail

omit [Host ω] in
theorem repeats_evalIndex (hs : SameReads X env s s') {obj : Value} (hobj : Seen s s' obj)
    (idx : Value) (line : ℕ) :
    Repeats s s' (evalIndex obj idx line) (evalIndex obj idx line) (Seen s s') := by
  cases obj with
  | list l =>
    obtain ⟨hhead, hnodes⟩ := Heap.SameFrom.listHead hobj
    refine repeats_readSome_bind
      (Q := fun found : Option ℕ => ∀ p ∈ found, s.heap.SameBehind s'.heap (.node p))
      (fun found hfound => ?_) fun found hfound => ?_
    · rw [hhead]
      exact Heap.nodeAt_same hs.nodes hnodes hfound
    · cases found with
      | none => exact repeats_fail
      | some p =>
        have hp := hfound p rfl
        refine repeats_readSome_bind (Q := fun node : ListNode => Seen s s' node.item)
          (fun node hnode => ⟨hp.sameAt.trans hnode, hp.node_item hnode⟩) fun node hnode => ?_
        exact repeats_pure hnode
  | data d =>
    obtain ⟨hsame, hvalue⟩ := Heap.SameFrom.dataGet hobj (safeStr idx)
    refine repeats_read_bind (Q := fun v : Option Value => ∀ w ∈ v, Seen s s' w) hsame hvalue
      fun v hv => ?_
    cases v with
    | some v => exact repeats_pure (hv v rfl)
    | none => exact repeats_pure_scalar rfl
  | string t => exact repeats_ite repeats_fail (repeats_pure_scalar rfl)
  | _ => exact repeats_fail

omit [Host ω] in
theorem repeats_evalAwait {v : Value} (hv : Seen s s' v) (line : ℕ) :
    Repeats s s' (evalAwait v line) (evalAwait v line) (Seen s s') := by
  cases v with
  | native p =>
    obtain ⟨hsame, hresult⟩ := Heap.SameFrom.task hv
    refine repeats_readSome_bind
      (Q := fun native : Native => ∀ w, native = .task (.ok w) → Seen s s' w)
      (fun native hnative => ⟨hsame.trans hnative, fun w hw => hresult w (hw ▸ hnative)⟩)
      fun native hnative => ?_
    cases native with
    | task result =>
      cases result with
      | ok w => exact repeats_pure (hnative w rfl)
      | error e => exact repeats_fail
    | _ => exact repeats_pure hv
  | _ => exact repeats_pure hv

omit [Host ω] in
theorem repeats_evalUnary (op : TokenType) {v : Value} (hv : Seen s s' v) :
    Repeats s s' (evalUnary op v) (evalUnary op v) (Seen s s') := by
  cases op with
  | not =>
    exact repeats_read_bind (Q := fun _ => True) (Heap.SameFrom.isTruthy hv) trivial
      fun _ _ => repeats_pure_scalar rfl
  | minus => cases v <;> exact repeats_pure_scalar rfl
  | _ => exact repeats_pure_scalar rfl

/-- The result of arithmetic is a scalar. -/
theorem arith_scalar {pow : Float → Float → Float} {op : TokenType} {l r v : Value}
    (h : arith pow op l r = .ok v) : v.place? = none := by
  unfold arith at h
  split at h
  · cases h
  · cases op
    all_goals dsimp only at h
    all_goals try split at h
    all_goals first
      | cases h; done
      | obtain rfl := Except.ok.inj h
        first
        | rfl
        | split <;> rfl

theorem repeats_evalBinary {n n' : ℕ} (hn : n ≤ n') (op : TokenType) {l r : Value}
    (hl : Seen s s' l) (hr : Seen s s' r) (line : ℕ) :
    Repeats s s' (evalBinary n op l r line) (evalBinary n' op l r line) (Seen s s') := by
  have htruthy : ∀ f : Bool → Bool → Bool, Repeats s s'
      (do let lt ← truthy l; let rt ← truthy r; pure (.bool (f lt rt)))
      (do let lt ← truthy l; let rt ← truthy r; pure (.bool (f lt rt))) (Seen s s') := fun f =>
    repeats_read_bind (Q := fun _ => True) (Heap.SameFrom.isTruthy hl) trivial fun _ _ =>
      repeats_read_bind (Q := fun _ => True) (Heap.SameFrom.isTruthy hr) trivial fun _ _ =>
        repeats_pure_scalar rfl
  have hdisplay : ∀ {v : Value}, Seen s s' v → ∀ t, s.heap.displayString n v = some t →
      s'.heap.displayString n' v = some t ∧ True := fun hv t ht =>
    ⟨Heap.SameFrom.displayString hn hv ht, trivial⟩
  unfold evalBinary
  refine repeats_ite ?_ ?_
  · exact repeats_readSome_bind (hdisplay hl) fun _ _ =>
      repeats_readSome_bind (hdisplay hr) fun _ _ => repeats_pure_scalar rfl
  · cases op with
    | eq => exact repeats_pure_scalar rfl
    | ne => exact repeats_pure_scalar rfl
    | and => exact htruthy _
    | or => exact htruthy _
    | _ =>
      refine repeats_ite repeats_giveUp ?_
      split
      · next v hv => exact repeats_pure_scalar (arith_scalar hv)
      · exact repeats_fail

/-- The steps of an evaluation follow each other. -/
theorem chained_evalExpr (n : ℕ) (e : Expr) (env : Env) (s : Machine ω) :
    Exec.Chained s ((evaluator n).evalExpr e env s).steps ((evaluator n).evalExpr e env s).state :=
  ((Evaluator.confined 0 n).evalExpr e env (fun _ _ => Nat.zero_le _) s (Nat.zero_le _)).chained

/-- The evaluation of an expression, and what follows it. -/
theorem Repeats.evalExpr_bind {β : Type} {n n' : ℕ} {e : Expr} {f f' : Value → Prog ω β}
    {Q : β → Prop}
    (he : Repeats s s' ((evaluator n).evalExpr e env) ((evaluator n').evalExpr e env) (Seen s s'))
    (hf : ∀ v, Seen s s' v → Repeats s s' (f v) (f' v) Q) :
    Repeats s s' ((evaluator n).evalExpr e env >>= f) ((evaluator n').evalExpr e env >>= f') Q :=
  he.bind (chained_evalExpr n e env s) hf

theorem repeats_evalStringInterp (hs : SameReads X env s s') {n n' m m' : ℕ} (hm : m ≤ m')
    (hR : ∀ e : Expr, e.Plain X False →
      Repeats s s' ((evaluator n).evalExpr e env) ((evaluator n').evalExpr e env) (Seen s s'))
    (parts : List StrPart) (hparts : partsPlain X False parts) (out : Text) :
    Repeats s s' (evalStringInterp (evaluator n) m parts out env)
      (evalStringInterp (evaluator n') m' parts out env) (Seen s s') := by
  induction parts generalizing out with
  | nil => exact repeats_pure_scalar rfl
  | cons part parts ih =>
    cases part with
    | literal t => exact ih hparts _
    | expr e =>
      refine (hR e hparts.1).evalExpr_bind fun v hv => repeats_unlessError hs.clear hs.clear' ?_
      exact repeats_readSome_bind (Q := fun _ => True)
        (fun t ht => ⟨Heap.SameFrom.displayString hm hv ht, trivial⟩) fun _ _ => ih hparts.2 _

/-- **An expression that only reads, evaluated again**, as deep or deeper. -/
theorem repeats_evalExpr (hs : SameReads X env s s') {n n' : ℕ} (hn : n ≤ n') {e : Expr}
    (he : e.Plain X False) :
    Repeats s s' ((evaluator n).evalExpr e env) ((evaluator n').evalExpr e env) (Seen s s') := by
  induction n generalizing n' e with
  | zero => exact repeats_giveUp
  | succ n ih =>
    obtain ⟨n', rfl⟩ : ∃ m, n' = m + 1 := ⟨n' - 1, by omega⟩
    have hn := Nat.le_of_succ_le_succ hn
    have hguard : ∀ {m m' : Prog ω Value}, Repeats s s' m m' (Seen s s') →
        Repeats s s' (unlessError .void m) (unlessError .void m') (Seen s s') :=
      repeats_unlessError hs.clear hs.clear'
    refine hguard ?_
    cases e with
    | num | decimal | scifi | bool => exact repeats_pure_scalar rfl
    | str line parts => exact repeats_evalStringInterp hs hn (fun _ => ih hn) parts he []
    | ident line name =>
      refine repeats_read_bind (Q := fun v : Option Value => ∀ w ∈ v, Seen s s' w)
        (hs.leaves.vars name he) (hs.leaves.values name he) fun v hv => ?_
      cases v with
      | some v => exact repeats_pure (hv v rfl)
      | none => exact repeats_fail
    | binary line left right op =>
      exact (ih hn he.1).evalExpr_bind fun l hl => (ih hn he.2).evalExpr_bind fun r hr =>
        hguard (repeats_evalBinary hn op hl hr line)
    | unary line operand op =>
      exact (ih hn (e := operand) he).evalExpr_bind fun v hv => repeats_evalUnary op hv
    | between line value low high =>
      exact (ih hn he.1).evalExpr_bind fun _ _ => (ih hn he.2.1).evalExpr_bind fun _ _ =>
        (ih hn he.2.2).evalExpr_bind fun _ _ => repeats_pure_scalar rfl
    | ternary line cond thenE elseE =>
      refine (ih hn he.1).evalExpr_bind fun c hc => ?_
      exact repeats_read_bind (Q := fun _ => True) (Heap.SameFrom.isTruthy hc) trivial
        fun _ _ => repeats_ite (ih hn he.2.1) (ih hn he.2.2)
    | await line e =>
      exact (ih hn (e := e) he).evalExpr_bind fun v hv => hguard (repeats_evalAwait hv line)
    | member line object name =>
      exact (ih hn (e := object) he).evalExpr_bind fun v hv =>
        hguard (repeats_evalMember hv name line)
    | index line object index =>
      exact (ih hn he.1).evalExpr_bind fun obj hobj => (ih hn he.2).evalExpr_bind fun idx _ =>
        repeats_evalIndex hs hobj idx line
    | list => exact he.1.elim
    | data => exact he.1.elim
    | funcLit => exact he.elim
    | assign => exact he.elim
    | call => exact he.elim
    | new => exact he.elim

end Reads

end Jaguar
