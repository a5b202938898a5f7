/-
What `infer_type` says about an expression, and what `eval_expr` returns for it.

The inferred type of an expression rests on the types of its variables, on what the functions and
methods it calls are declared to return, and on the operators. It is right where it rests on nothing
that the interpreter does not hold itself to.

* `Agrees` — a scope of the checker and an environment of the interpreter;
* `Trust`, `Firm` — what the inferred type of an expression rests on;
* `Trust.Valid`, `Trust.Valid.after` — what is trusted, and what of it is left behind an expression;
* `keepsType` — **a firm expression returns a value of its inferred type, or fails**.
-/
import Jaguar.OperatorTypes
import Jaguar.MethodCalls
import Jaguar.PlainExprs

namespace Jaguar

/-! ### Scopes and environments -/

/-- A scope and an environment agree: every variable of a known type has a binding, with
nothing or a value of that type, and every function's name stands for a function with its
parameters. -/
structure Agrees (scope : Scope) (env : Env) (h : Heap) : Prop where
  var : ∀ name sym, scopeFind scope name = some sym → sym.fnReturn = none →
    ∀ t, sym.type = some t → t.Known → ∃ v, h.envGet env name = some v ∧ h.Holds t v
  func : ∀ name sym ret, scopeFind scope name = some sym → sym.fnReturn = some ret →
    ∃ f fv, h.envGet env name = some (.func f) ∧ h.funcs[f]? = some fv ∧ fv.params = sym.fnParams

/-! ### What a type rests on -/

/-- The type inferred for an expression, if there is one. -/
def inferred (classes : ClassTable) (scope : Scope) (e : Expr) : Option TypeInfo :=
  (inferType classes scope e).join

/-- The declared type of a name. -/
def declared (scope : Scope) (name : Text) : Option TypeInfo :=
  (scopeFind scope name).bind Sym.type

/-- The declared return type of the function that a name stands for. -/
def callReturn (scope : Scope) (name : Text) : Option TypeInfo :=
  (scopeFind scope name).bind fun sym => if sym.fnParams ≠ [] then sym.fnReturn else none

/-- The declared return type of the method that is called on a value of the type. -/
def methodReturn (classes : ClassTable) (t : Option TypeInfo) (name : Text) : Option TypeInfo :=
  (methodOn classes t name).join.bind Stmt.declReturn

/-- There is no call, no assignment and no `new` in the expression. -/
def Expr.Calm (e : Expr) : Prop := e.Plain (fun _ => True) True

/-- What a type may rest on: the variables that hold what they are declared to hold, the functions
and methods that return what they are declared to return, and the names that are fixed. -/
structure Trust where
  var : Text → Prop
  call : Text → Prop
  method : Text → TypeInfo → Prop
  fixed : Text → Prop

/-- Literals and operators only. -/
def Trust.none : Trust := ⟨fun _ => False, fun _ => False, fun _ _ => False, fun _ => False⟩

/-- What is left behind an expression: if there are calls in it, a variable may have been assigned
to, and a class declared. -/
def Trust.after (T : Trust) (e : Expr) : Trust where
  var name := T.var name ∧ (e.Calm ∨ T.fixed name)
  call name := T.call name ∧ (e.Calm ∨ T.fixed name)
  method name t := T.method name t ∧ e.Calm
  fixed := T.fixed

section Firm

variable (classes : ClassTable) (scope : Scope)

/-- The inferred type of an expression rests on what is trusted only. -/
def Firm : Trust → Expr → Prop
  | T, .ident _ name => T.var name
  | T, .ternary _ cond thenE elseE => Firm (T.after cond) thenE ∧ Firm (T.after cond) elseE ∧
    ∀ t u, inferred classes scope thenE = some t → inferred classes scope elseE = some u →
      typeFamily t.kind = typeFamily u.kind
  | T, .binary _ left right op =>
    if isComparison op ∨ op = .slash then True
    else if op = .plus then
      FirmSum (Firm T left) (Firm (T.after left) right) (inferred classes scope left)
        (inferred classes scope right)
    else
      FirmArith (Firm T left) (Firm (T.after left) right) (inferred classes scope left)
        (inferred classes scope right)
  | T, .call _ (.ident _ name) _ => T.call name
  | T, .call _ (.member _ object name) _ => Firm T object ∧ object.Calm ∧
    ∀ t, methodReturn classes (inferred classes scope object) name = some t → T.method name t
  | _, _ => True

end Firm

/-! ### Literals and instances -/

section Literals

variable {ω : Type} (R : Evaluator ω) (n : ℕ) (env : Env)

theorem only_evalStringInterp (parts : List StrPart) (out : Text) :
    Only (fun v => ∃ s, v = .string s) (evalStringInterp R n parts out env) := by
  induction parts generalizing out with
  | nil => exact only_pure ⟨out, rfl⟩
  | cons part parts ih =>
    cases part with
    | literal s => exact ih _
    | expr e =>
      exact only_bind fun _ => only_unlessError ⟨[], rfl⟩ (only_bind fun _ => ih _)

theorem only_constructInstance (c : ℕ) (args : List Expr) :
    Only (fun v => ∃ i, v = .inst i) (constructInstance R n c args env) := by
  refine only_bind fun fields => only_bind fun _ => only_bind fun i => only_bind fun ctor => ?_
  cases ctor with
  | none => exact only_pure ⟨i, rfl⟩
  | some m => exact only_bind fun _ => only_bind fun _ => only_pure ⟨i, rfl⟩

theorem only_evalNew (className : Text) (args : List Expr) (line : ℕ) :
    Only (fun v => v = .void ∨ ∃ i, v = .inst i) (evalNew R n className args env line) := by
  refine only_bind fun cls => ?_
  split
  · exact (only_constructInstance R n env _ args).weaken fun _ => .inr
  · exact only_fail (.inl rfl) _ _

end Literals
/-! ### Operands -/

section Operands

variable {ω : Type} [Host ω] {s : Machine ω}

/-- With an error pending an expression is not evaluated. -/
theorem state_evalExpr_pending (n : ℕ) (e : Expr) (env : Env)
    (h : s.it.hadRuntimeError = true) : ((evaluator n).evalExpr e env s).state = s := by
  cases n with
  | zero => rfl
  | succ n => exact congrArg Exec.Outcome.state (evalExpr_pending n e env h)

/-- What an evaluation returns if it succeeds. -/
def Gives (Q : Value → Prop) (o : Exec.Outcome (Machine ω) Act Value) : Prop :=
  ∀ v, o.value = some v → o.state.it.hadRuntimeError = false → Q v

/-- Two operands and an operator. After an error in one of them the result is `void`. -/
theorem gives_binary {n : ℕ} {left right : Expr} {env : Env} {op : TokenType} {line : ℕ}
    {L R Q : Value → Prop} (hleft : Gives L ((evaluator n).evalExpr left env s))
    (hright : ∀ l, ((evaluator n).evalExpr left env s).value = some l →
      Gives R ((evaluator n).evalExpr right env ((evaluator n).evalExpr left env s).state))
    (hop : ∀ l r, L l → R r → Only Q (evalBinary n op l r line : Prog ω Value)) (hvoid : Q .void)
    {v : Value} (h : ((do
      let l ← (evaluator n).evalExpr left env
      let r ← (evaluator n).evalExpr right env
      unlessError .void (evalBinary n op l r line) : Prog ω Value) s).value = some v) : Q v := by
  obtain ⟨l, hl, h, -⟩ := Exec.exists_of_bind h
  obtain ⟨r, hr, h, -⟩ := Exec.exists_of_bind h
  cases hpending : ((evaluator n).evalExpr right env
      ((evaluator n).evalExpr left env s).state).state.it.hadRuntimeError with
  | true =>
    rw [unlessError_of_pending hpending] at h
    exact Option.some.inj h ▸ hvoid
  | false =>
    rw [unlessError_of_clear hpending] at h
    have hclear : ((evaluator n).evalExpr left env s).state.it.hadRuntimeError = false := by
      by_contra hs
      rw [state_evalExpr_pending n right env (Bool.not_eq_false _ ▸ hs)] at hpending
      exact hs hpending
    exact hop l r (hleft l hl hclear) (hright l hl r hr hpending) _ v h

end Operands

/-! ### The type of an expression from those of its parts -/

section Inferred

variable {classes : ClassTable} {scope : Scope} {line : ℕ} {left right : Expr} {op : TokenType}
  {t : TypeInfo}

theorem inferType_of_inferred {e : Expr} (h : inferred classes scope e = some t) :
    inferType classes scope e = some (some t) :=
  Option.join_eq_some_iff.mp h

theorem inferred_of_inferType {e : Expr} {a : Option TypeInfo}
    (h : inferType classes scope e = some a) : inferred classes scope e = a := by
  rw [inferred, h]
  rfl

theorem inferred_comparison (hop : isComparison op = true) :
    inferred classes scope (.binary line left right op) = some (.new .bool) := by
  cases op <;> first | rfl | cases hop

theorem inferred_sum (h : inferred classes scope (.binary line left right .plus) = some t) :
    inferSum (inferred classes scope left) (inferred classes scope right) = some t := by
  have htype := inferType_of_inferred h
  simp only [inferType, bind, Option.bind_eq_some_iff, pure, Option.some.injEq] at htype
  obtain ⟨a, ha, b, hb, hsum⟩ := htype
  rw [inferred_of_inferType ha, inferred_of_inferType hb, hsum]

theorem inferred_arith (hop : isComparison op = false) (hslash : op ≠ .slash) (hplus : op ≠ .plus)
    (h : inferred classes scope (.binary line left right op) = some t) :
    (inferred classes scope left).or (inferred classes scope right) = some t := by
  have htype := inferType_of_inferred h
  rw [inferType] at htype
  · simp only [bind, Option.bind_eq_some_iff] at htype
    obtain ⟨a, ha, hrest⟩ := htype
    rw [inferred_of_inferType ha]
    cases a with
    | none => exact inferred_of_inferType hrest
    | some u => exact Option.some.inj hrest
  all_goals
    rintro rfl
    first | exact hslash rfl | exact hplus rfl | cases hop

theorem inferred_ternary {cond : Expr}
    (h : inferred classes scope (.ternary line cond left right) = some t) :
    inferred classes scope left = some t ∧ ∃ u, inferred classes scope right = some u := by
  have htype := inferType_of_inferred h
  simp only [inferType, bind, Option.bind_eq_some_iff, pure, Option.some.injEq] at htype
  obtain ⟨a, ha, b, hb, hite⟩ := htype
  split at hite
  · next hcond =>
    simp only [Bool.and_eq_true, Option.isSome_iff_exists] at hcond
    rw [inferred_of_inferType ha, inferred_of_inferType hb]
    exact ⟨hite, hcond.1.2⟩
  · cases hite

theorem inferred_call {line' : ℕ} {object : Expr} {name : Text} {args : List Expr}
    (h : inferred classes scope (.call line (.member line' object name) args) = some t) :
    methodReturn classes (inferred classes scope object) name = some t := by
  have htype := inferType_of_inferred h
  simp only [inferType, bind, Option.bind_eq_some_iff, pure, Option.some.injEq] at htype
  obtain ⟨a, ha, m, hm, method, hmethod, hreturn⟩ := htype
  rw [methodReturn, inferred_of_inferType ha, hm, hmethod]
  exact hreturn

/-- A method is found for an instance of a class only. -/
theorem kind_of_methodReturn {a : Option TypeInfo} {name : Text}
    (h : methodReturn classes a name = some t) : ∃ u, a = some u ∧ u.kind = .classNamed := by
  cases a with
  | none => cases h
  | some u =>
    refine ⟨u, rfl, ?_⟩
    by_contra hkind
    rw [methodReturn, methodOn, if_neg hkind] at h
    cases h

end Inferred
/-! ### Calls -/

/-- A value of the type, or a failure. -/
def KeepsTo {ω : Type} (t : TypeInfo) (o : Exec.Outcome (Machine ω) Act Value) : Prop :=
  ∀ v, o.value = some v → o.state.it.hadRuntimeError = false → o.state.heap.Holds t v

/-- Whatever a body returns is of the type. -/
def BodyKeeps (ω : Type) [Host ω] (t : TypeInfo) (body : List Stmt) : Prop :=
  ∀ (n : ℕ) (env : Env) (s : Machine ω) (v : Value),
    (execBlock (evaluator n) body env s).value = some (.ret v) →
    (execBlock (evaluator n) body env s).state.it.hadRuntimeError = false →
    (execBlock (evaluator n) body env s).state.heap.Holds t v

section Results

variable {ω α β : Type} {s : Machine ω} {t : TypeInfo}

theorem KeepsTo.of_only {m : Prog ω Value} (h : Only (fun v => ∀ h : Heap, h.Holds t v) m) :
    KeepsTo t (m s) :=
  fun v hv _ => h s v hv _

theorem KeepsTo.unlessError {m : Prog ω Value}
    (h : s.it.hadRuntimeError = false → KeepsTo t (m s)) :
    KeepsTo t (unlessError .void m s) := by
  cases hpending : s.it.hadRuntimeError with
  | true =>
    rw [unlessError_of_pending hpending]
    exact fun v hv _ => .inl (Option.some.inj hv).symm
  | false =>
    rw [unlessError_of_clear hpending]
    exact h hpending

/-- The last run returns the result. -/
theorem KeepsTo.bind {m : Prog ω α} {f : α → Prog ω Value}
    (h : ∀ a, (m s).value = some a → KeepsTo t (f a (m s).state)) : KeepsTo t ((m >>= f) s) := by
  intro v hv hclear
  obtain ⟨a, ha, hfa, -⟩ := Exec.exists_of_bind hv
  rw [Exec.bind_of_some ha] at hclear ⊢
  exact h a ha v hfa hclear
theorem Heap.holds_bool (h : Heap) {v : Value} (hv : v = .void ∨ ∃ b, v = .bool b) :
    h.Holds (.new .bool) v := by
  rcases hv with rfl | ⟨b, rfl⟩
  · exact .inl rfl
  · exact .inr rfl

end Results

/-! ### What is trusted -/

theorem getElem?_of_longer {α : Type} {l l' : List α} (h : l <+: l') {i : ℕ} {a : α}
    (hi : l[i]? = some a) : l'[i]? = some a := by
  obtain ⟨more, rfl⟩ := h
  rw [List.getElem?_append_left (List.getElem?_eq_some_iff.mp hi).1, hi]

namespace Heap

variable {h h' : Heap}

/-- From all scopes of the environment up to its own the name is that of this fixed value. -/
def FixedName (h : Heap) (env : Env) (name : Text) (v : Value) : Prop :=
  ∃ frames outer, env = frames ++ outer ∧ h.Binds frames name v

theorem FixedName.envGet {env : Env} {name : Text} {v : Value} (hv : h.FixedName env name v) :
    h.envGet env name = some v := by
  obtain ⟨frames, outer, rfl, hbinds⟩ := hv
  exact hbinds.envGet outer

/-- What a variable holds is no native value, whose kind the memory knows. -/
theorem Holds.of_not_native {t : TypeInfo} {v : Value} (hv : h.Holds t v)
    (hnative : ∀ p, v ≠ .native p) : h'.Holds t v := by
  refine hv.imp_right fun hfits => ?_
  cases v with
  | native p => exact absurd rfl (hnative p)
  | _ => exact hfits

/-- Scopes and classes are as they were, functions and native values have come behind the others. -/
structure Settled (h h' : Heap) : Prop where
  frames : h'.frames = h.frames
  classes : h'.classes = h.classes
  funcs : h.funcs <+: h'.funcs
  natives : h.natives <+: h'.natives

theorem Settled.refl (h : Heap) : h.Settled h := ⟨rfl, rfl, List.prefix_rfl, List.prefix_rfl⟩

theorem Settled.trans {h'' : Heap} (h₁ : h.Settled h') (h₂ : h'.Settled h'') : h.Settled h'' where
  frames := h₂.frames.trans h₁.frames
  classes := h₂.classes.trans h₁.classes
  funcs := h₁.funcs.trans h₂.funcs
  natives := h₁.natives.trans h₂.natives

theorem Settled.envGet (hs : h.Settled h') (env : Env) (name : Text) :
    h'.envGet env name = h.envGet env name := by
  have hfind : h'.envFind env name = h.envFind env name := by
    induction env with
    | nil => rfl
    | cons f env ih => rw [envFind, envFind, ih, frame, frame, hs.frames]
  rw [Heap.envGet, Heap.envGet, hfind]

theorem Settled.holds (hs : h.Settled h') {t : TypeInfo} {v : Value} (hv : h.Holds t v) :
    h'.Holds t v := by
  cases v with
  | native p =>
    refine hv.imp_right fun hfits => ?_
    rw [Fits, kindOf] at hfits ⊢
    obtain ⟨k, hk, -⟩ := Option.map_eq_some_iff.mp hfits
    obtain ⟨native, hnative, -⟩ := Option.bind_eq_some_iff.mp hk
    rw [getElem?_of_longer hs.natives hnative]
    rw [hnative] at hfits
    exact hfits
  | _ => exact hv.of_not_native fun _ h => by cases h

theorem funcs_hoistFunctions (h : Heap) (list : List Stmt) (env : Env) :
    h.funcs <+: (h.hoistFunctions list env).funcs := by
  unfold hoistFunctions
  induction list generalizing h with
  | nil => exact List.prefix_rfl
  | cons s list ih =>
    refine List.IsPrefix.trans ?_ (ih (hoistFunction env h s))
    cases s with
    | funDecl line name params retType body isAsync =>
      cases env <;> exact List.prefix_append _ _
    | _ => exact List.prefix_rfl

theorem funcs_hoistClasses (h : Heap) (list : List Stmt) (env : Env) :
    (h.hoistClasses list env).funcs = h.funcs := by
  have hhoist : ∀ (list : List Stmt) (h : Heap),
      (list.foldl (hoistClass env) h).funcs = h.funcs := by
    intro list
    induction list with
    | nil => exact fun _ => rfl
    | cons s list ih =>
      refine fun h => (ih (hoistClass env h s)).trans ?_
      cases s <;> cases env <;> rfl
  have hlink : ∀ (list : List Stmt) (h : Heap), (list.foldl (linkClass env) h).funcs = h.funcs := by
    intro list
    induction list with
    | nil => exact fun _ => rfl
    | cons s list ih =>
      refine fun h => (ih (linkClass env h s)).trans ?_
      unfold linkClass
      split
      · split <;> rfl
      · rfl
  exact (hlink list _).trans (hhoist list h)

end Heap

section Valid

variable {ω : Type} {s s' : Machine ω}

/-- Functions stay. -/
theorem Act.Does.funcs {a : Act} (h : a.Does s s') : s.heap.funcs <+: s'.heap.funcs := by
  cases h with
  | alloc h' hgrows _ => exact hgrows.funcs
  | hoist env list =>
    rw [← s.heap.funcs_hoistClasses list env]
    exact Heap.funcs_hoistFunctions _ list env
  | setList l h' hedit =>
    obtain ⟨lists, nodes, rfl⟩ := hedit.onLists
    exact List.prefix_rfl
  | _ => exact List.prefix_rfl

theorem settled_of_does {a : Act} (hlabel : PlainAct True a) (h : a.Does s s') :
    s.heap.Settled s'.heap := by
  cases h with
  | raise => exact Heap.Settled.refl _
  | alloc h' hgrows _ => exact ⟨hgrows.frames, hgrows.classes, hgrows.funcs, hgrows.natives⟩
  | setList l h' hedit =>
    obtain ⟨lists, nodes, rfl⟩ := hedit.onLists
    exact ⟨rfl, rfl, List.prefix_rfl, List.prefix_rfl⟩
  | setData => exact ⟨rfl, rfl, List.prefix_rfl, List.prefix_rfl⟩
  | _ => exact hlabel.elim

variable [Host ω] {env : Env}

theorem funcs_evalExpr (n : ℕ) (e : Expr) (env : Env) (s : Machine ω) :
    s.heap.funcs <+: ((evaluator n).evalExpr e env s).state.heap.funcs := by
  have hrun := (Evaluator.confined 0 n).evalExpr e env (fun _ _ => Nat.zero_le _) s (Nat.zero_le _)
  exact hrun.chained.rel (R := fun s s' => s.heap.funcs <+: s'.heap.funcs)
    (fun _ => List.prefix_rfl) List.IsPrefix.trans fun st hst => (hrun.steps st hst).1.funcs

/-- A calm expression. -/
theorem settled_evalExpr {e : Expr} (he : e.Calm) (n : ℕ) (env : Env) (s : Machine ω) :
    s.heap.Settled ((evaluator n).evalExpr e env s).state.heap := by
  have hrun := (Evaluator.confined 0 n).evalExpr e env (fun _ _ => Nat.zero_le _) s (Nat.zero_le _)
  have hlabels : Labelled (PlainAct True) ((evaluator n : Evaluator ω).evalExpr e env) :=
    evaluator_labelled n he
  exact hrun.chained.rel (R := fun s s' => s.heap.Settled s'.heap) (fun s => .refl s.heap)
    Heap.Settled.trans fun st hst => settled_of_does ((hlabels s trivial).steps st hst) (hrun.steps st hst).1

/-- A fixed name. -/
theorem fixedName_evalExpr {name : Text} {v : Value} (hname : s.heap.FixedName env name v) {n : ℕ}
    {e : Expr} {w : Value} (hw : ((evaluator n).evalExpr e env s).value = some w) :
    ((evaluator n).evalExpr e env s).state.heap.FixedName env name v := by
  obtain ⟨frames, outer, rfl, hbinds⟩ := hname
  obtain ⟨inner, f, hframes, -⟩ := hbinds.bound
  have hruns : (nameRule ω frames outer name v).runsIn (frames ++ outer) :=
    .inr ⟨frames, List.suffix_rfl, by simp [hframes], rfl⟩
  have hrun := (Evaluator.obeys (nameRule ω frames outer name v) n).evalExpr e _ hruns s hbinds
  exact ⟨frames, outer, rfl, (hrun.value w hw).1⟩

/-- What is trusted is so. -/
structure Trust.Valid (T : Trust) (scope : Scope) (env : Env) (s : Machine ω) : Prop where
  var : ∀ name t, T.var name → declared scope name = some t → t.Known →
    ∃ v, s.heap.envGet env name = some v ∧ s.heap.Holds t v
  call : ∀ name t, T.call name → callReturn scope name = some t → ∃ f fv,
    s.heap.envGet env name = some (.func f) ∧ s.heap.funcs[f]? = some fv ∧
      BodyKeeps ω t fv.body.stmts
  method : ∀ name t, T.method name t → ∀ ci ∈ s.heap.classes, ∀ m ∈ ci.members,
    Heap.isMethod name m = true → BodyKeeps ω t m.body
  fixed : ∀ name, T.fixed name → ∃ v, s.heap.FixedName env name v ∧ ∀ p, v ≠ .native p

theorem Trust.valid_none (scope : Scope) (env : Env) (s : Machine ω) :
    Trust.none.Valid scope env s :=
  ⟨nofun, nofun, nofun, nofun⟩

variable {T : Trust} {scope : Scope}

theorem Trust.Valid.of_settled (hvalid : T.Valid scope env s) (hs : s.heap.Settled s'.heap) :
    T.Valid scope env s' where
  var name t hvar ht hknown := by
    obtain ⟨v, hv, hholds⟩ := hvalid.var name t hvar ht hknown
    exact ⟨v, (hs.envGet env name).trans hv, hs.holds hholds⟩
  call name t hcall ht := by
    obtain ⟨f, fv, hget, hf, hkeeps⟩ := hvalid.call name t hcall ht
    exact ⟨f, fv, (hs.envGet env name).trans hget, getElem?_of_longer hs.funcs hf, hkeeps⟩
  method name t hmethod ci hci := hvalid.method name t hmethod ci (hs.classes ▸ hci)
  fixed name hfixed := by
    obtain ⟨v, ⟨frames, outer, henv, hbinds⟩, hnative⟩ := hvalid.fixed name hfixed
    exact ⟨v, ⟨frames, outer, henv, hbinds.of_frames hs.frames⟩, hnative⟩

/-- **What is trusted behind an expression.** -/
theorem Trust.Valid.after (hvalid : T.Valid scope env s) {n : ℕ} {e : Expr} {w : Value}
    (hw : ((evaluator n).evalExpr e env s).value = some w) :
    (T.after e).Valid scope env ((evaluator n).evalExpr e env s).state := by
  have hcalm : e.Calm → T.Valid scope env ((evaluator n).evalExpr e env s).state := fun he =>
    hvalid.of_settled (settled_evalExpr he n env s)
  constructor
  · rintro name t ⟨hvar, he | hfixed⟩ ht hknown
    · exact (hcalm he).var name t hvar ht hknown
    · obtain ⟨v, hv, hholds⟩ := hvalid.var name t hvar ht hknown
      obtain ⟨v', hname, hnative⟩ := hvalid.fixed name hfixed
      obtain rfl := Option.some.inj (hv.symm.trans hname.envGet)
      exact ⟨v, (fixedName_evalExpr hname hw).envGet, hholds.of_not_native hnative⟩
  · rintro name t ⟨hcall, he | hfixed⟩ ht
    · exact (hcalm he).call name t hcall ht
    · obtain ⟨f, fv, hget, hf, hkeeps⟩ := hvalid.call name t hcall ht
      obtain ⟨v, hname, -⟩ := hvalid.fixed name hfixed
      obtain rfl := Option.some.inj (hget.symm.trans hname.envGet)
      exact ⟨f, fv, (fixedName_evalExpr hname hw).envGet,
        getElem?_of_longer (funcs_evalExpr n e env s) hf, hkeeps⟩
  · rintro name t ⟨hmethod, he⟩
    exact (hcalm he).method name t hmethod
  · intro name hfixed
    obtain ⟨v, hname, hnative⟩ := hvalid.fixed name hfixed
    exact ⟨v, fixedName_evalExpr hname hw, hnative⟩

end Valid

/-! ### Calls of what is trusted -/

section Calls

variable {ω : Type} [Host ω] {env : Env} {s : Machine ω} {t : TypeInfo} {n line : ℕ}
  {args : List Expr}

/-- The value of a body. -/
theorem BodyKeeps.value {body : List Stmt} (h : BodyKeeps ω t body) (n : ℕ) (env : Env)
    (s : Machine ω) :
    KeepsTo t ((execBlock (evaluator n) body env >>= fun r => pure r.value) s) := by
  intro v hv hclear
  obtain ⟨r, hr, hvalue, hrun⟩ := Exec.exists_of_bind hv
  rw [hrun] at hclear ⊢
  cases r with
  | none => exact .inl (Option.some.inj hvalue).symm
  | ret w =>
    obtain rfl := Option.some.inj hvalue
    exact h n env s w hr hclear

theorem BodyKeeps.callValue {f : ℕ} {fv : FuncValue} (hf : s.heap.funcs[f]? = some fv)
    (h : BodyKeeps ω t fv.body.stmts) :
    KeepsTo t (callValue (evaluator n) (.func f) args env line s) := by
  refine KeepsTo.bind fun fv' hfv => ?_
  obtain rfl := Option.some.inj (hf.symm.trans hfv)
  exact .bind fun callEnv _ => .bind fun _ _ => h.value n callEnv _

theorem BodyKeeps.invokeMethod {c : ℕ} {m : Stmt} {this : Value} {argv : List Value}
    (h : BodyKeeps ω t m.body) :
    KeepsTo t (invokeMethod (evaluator n) c m this argv s) :=
  .bind fun _ _ => .bind fun callEnv _ => .bind fun _ _ => .bind fun _ _ => .bind fun _ _ =>
    h.value n callEnv _

omit [Host ω] in
theorem evalIdent_keepsTo {name : Text} {v : Value} (hv : s.heap.envGet env name = some v)
    (hholds : s.heap.Holds t v) : KeepsTo t (evalIdent name env line s) := by
  rw [evalIdent_of_get hv]
  exact fun w hw _ => Option.some.inj hw ▸ hholds

/-- A call by name is a call of the function that the name stands for. -/
theorem identCall_keepsTo {line' : ℕ} {name : Text} {f : ℕ}
    (hget : s.heap.envGet env name = some (.func f)) (hclear : s.it.hadRuntimeError = false)
    (hcall : KeepsTo t (callValue (evaluator n) (.func f) args env line s)) :
    KeepsTo t (evalCall (evaluator n) n (.ident line' name) args env line s) := by
  cases n with
  | zero => exact fun v hv => by cases hv
  | succ n =>
    have hident : (evaluator (n + 1)).evalExpr (.ident line' name) env s
        = ⟨[], s, some (.func f)⟩ := by
      show unlessError .void (evalIdent name env line') s = _
      rw [unlessError_of_clear hclear, evalIdent_of_get hget]
    show KeepsTo t (((evaluator (n + 1)).evalExpr (.ident line' name) env >>= fun fn =>
      unlessError .void (callFn (evaluator (n + 1)) (n + 1) fn args env line)) s)
    rw [bind_of_silent hident]
    exact .unlessError fun _ => hcall

/-- A call on an instance. -/
theorem callInstance_keepsTo {i : ℕ} {name : Text}
    (h : ∀ ci ∈ s.heap.classes, ∀ m ∈ ci.members, Heap.isMethod name m = true →
      BodyKeeps ω t m.body) :
    KeepsTo t (callInstance (evaluator n) n i name args env line s) := by
  refine .bind fun inst _ => .bind fun found hfound => ?_
  cases found with
  | none => exact .bind fun _ _ => .of_only (only_fail (fun _ => .inl rfl) _ _)
  | some p =>
    obtain ⟨members, hmembers, hfind⟩ := Heap.members_of_findMethod
      (show s.heap.findMethod name n (some inst.classInfo) = some (some (p.1, p.2)) from hfound)
    obtain ⟨ci, hci, rfl⟩ := Option.map_eq_some_iff.mp hmembers
    have hkeeps := h ci (List.mem_of_getElem? hci) p.2 (List.mem_of_find?_eq_some hfind)
      (List.find?_some hfind)
    exact .bind fun argv _ => hkeeps.invokeMethod

/-- A call of a method of an instance. -/
theorem memberCall_keepsTo {line' : ℕ} {object : Expr} {name : Text} {u : TypeInfo}
    (hu : u.kind = .classNamed)
    (hbound : ∀ line' ns, object = .ident line' ns → (s.heap.envGet env ns).isSome)
    (hobject : KeepsTo u ((evaluator n).evalExpr object env s))
    (hcall : ∀ obj i, ((evaluator n).evalExpr object env s).value = some obj →
      KeepsTo t (callInstance (evaluator n) n i name args env line
        ((evaluator n).evalExpr object env s).state)) :
    KeepsTo t (evalCall (evaluator n) n (.member line' object name) args env line s) := by
  rw [evalCall, bind_of_silent (builtinCallee_of_bound name args line hbound)]
  refine KeepsTo.bind fun obj hobj => .unlessError fun hclear => ?_
  rcases (hobject obj hobj hclear).eq_inst hu with rfl | ⟨i, rfl⟩
  · exact .of_only (only_fail (fun _ => .inl rfl) _ _)
  · exact hcall _ i hobj

end Calls

/-! ### Expressions -/

theorem TypeInfo.Known.of_family {t u : TypeInfo} (ht : t.Known)
    (h : typeFamily t.kind = typeFamily u.kind) : u.Known := by
  obtain ⟨hunknown, hvoid⟩ := ht
  refine ⟨fun hu => hunknown ?_, fun hu => hvoid ?_⟩
  · rw [hu] at h
    revert h
    cases t.kind <;> first | exact fun _ => rfl | exact fun h => by cases h
  · rw [hu] at h
    revert h
    cases t.kind <;> first | exact fun _ => rfl | exact fun h => by cases h

/-- A firm expression returns a value of its inferred type, or fails. -/
def KeepsType (ω : Type) [Host ω] (classes : ClassTable) (scope : Scope) (env : Env) (e : Expr) :
    Prop :=
  ∀ (n : ℕ) (s : Machine ω) (T : Trust) (t : TypeInfo), T.Valid scope env s →
    Firm classes scope T e → inferred classes scope e = some t → t.Known →
    KeepsTo t ((evaluator n).evalExpr e env s)

section KeepsType

variable {ω : Type} [Host ω] {classes : ClassTable} {scope : Scope} {env : Env}

/-- An evaluation down to the depth zero does not come back. -/
theorem keepsType_succ {e : Expr}
    (h : ∀ (n : ℕ) (s : Machine ω) (T : Trust) (t : TypeInfo), T.Valid scope env s →
      Firm classes scope T e → inferred classes scope e = some t → t.Known →
      KeepsTo t (evalExpr (evaluator n) n e env s)) :
    KeepsType ω classes scope env e := by
  intro n s T t hvalid hfirm ht hknown
  cases n with
  | zero => exact fun v hv => by cases hv
  | succ n => exact h n s T t hvalid hfirm ht hknown

/-- An expression whose results are all of one form. -/
theorem keepsType_of_only {e : Expr} {u : TypeInfo} (htype : inferred classes scope e = some u)
    (h : ∀ n, Only (fun v => ∀ h : Heap, h.Holds u v)
      (evalExpr (evaluator n) n e env : Prog ω Value)) :
    KeepsType ω classes scope env e := by
  refine keepsType_succ fun n s _ t _ _ ht _ => ?_
  obtain rfl := Option.some.inj (htype.symm.trans ht)
  exact .of_only (h n)

/-- An expression of which nothing is known. -/
theorem keepsType_of_none {e : Expr} (htype : inferred classes scope e = none) :
    KeepsType ω classes scope env e := by
  intro n s T t _ _ ht
  rw [htype] at ht
  cases ht

theorem str_keepsType (line : ℕ) (parts : List StrPart) :
    KeepsType ω classes scope env (.str line parts) := by
  refine keepsType_of_only rfl fun n => only_unlessError (fun _ => .inl rfl) ?_
  refine (only_evalStringInterp (evaluator n) n env parts []).weaken ?_
  rintro v ⟨text, rfl⟩ h
  exact .inr rfl

theorem new_keepsType (line : ℕ) (className : Text) (args : List Expr) :
    KeepsType ω classes scope env (.new line className args) := by
  cases hfind : findClass classes className with
  | none =>
    refine keepsType_of_none ?_
    rw [inferred, inferType, hfind]
    rfl
  | some c =>
    have htype : inferred classes scope (.new line className args)
        = some (.mk .classNamed none (some className)) := by
      rw [inferred, inferType, hfind]
      rfl
    refine keepsType_of_only htype fun n => only_unlessError (fun _ => .inl rfl) ?_
    refine (only_evalNew (evaluator n) n env className args line).weaken fun v hv h => ?_
    rcases hv with rfl | ⟨i, rfl⟩
    · exact .inl rfl
    · exact .inr rfl

theorem ident_keepsType (line : ℕ) (name : Text) :
    KeepsType ω classes scope env (.ident line name) := by
  refine keepsType_succ fun _ s T t hvalid hfirm ht hknown => .unlessError fun _ => ?_
  obtain ⟨v, hv, hholds⟩ := hvalid.var name t hfirm ht hknown
  exact evalIdent_keepsTo hv hholds

theorem ternary_keepsType {cond thenE elseE : Expr} (line : ℕ)
    (hthen : KeepsType ω classes scope env thenE) (helse : KeepsType ω classes scope env elseE) :
    KeepsType ω classes scope env (.ternary line cond thenE elseE) := by
  refine keepsType_succ fun n s T t hvalid hfirm ht hknown => ?_
  obtain ⟨hfirmThen, hfirmElse, hfamily⟩ := hfirm
  obtain ⟨ht, u, hu⟩ := inferred_ternary ht
  have hsame := hfamily t u ht hu
  refine .unlessError fun _ => .bind fun c hc => .bind fun b _ => ?_
  have hafter := hvalid.after hc
  cases b with
  | true => exact hthen n _ _ t hafter hfirmThen ht hknown
  | false =>
    -- the value belongs to the family of the other branch's type, which is the same
    intro v hv hclear
    have hholds := helse n _ _ u hafter hfirmElse hu (hknown.of_family hsame) v hv hclear
    exact hholds.imp_right fun hfits => hfits.trans (congrArg some hsame.symm)

theorem operand_of_keepsType {e : Expr} (h : KeepsType ω classes scope env e) (n : ℕ)
    {s : Machine ω} {T : Trust} (hvalid : T.Valid scope env s) :
    Gives (Operand (Firm classes scope T e) (inferred classes scope e))
      ((evaluator n).evalExpr e env s) :=
  fun v hv hclear hfirm _ ht hknown => ⟨_, h n s T _ hvalid hfirm ht hknown v hv hclear⟩

theorem binary_keepsType {left right : Expr} (line : ℕ) (op : TokenType)
    (hleft : KeepsType ω classes scope env left) (hright : KeepsType ω classes scope env right) :
    KeepsType ω classes scope env (.binary line left right op) := by
  refine keepsType_succ fun n s T t hvalid hfirm ht hknown => ?_
  refine .unlessError fun _ v hv _ => ?_
  refine gives_binary (operand_of_keepsType hleft n hvalid)
    (fun l hl => operand_of_keepsType hright n (hvalid.after hl))
    (Q := fun v => ∀ h : Heap, h.Holds t v) (fun l r hl hr => ?_) (fun _ => .inl rfl) hv _
  rw [Firm] at hfirm
  cases hop : isComparison op with
  | true =>
    rw [inferred_comparison hop] at ht
    obtain rfl := Option.some.inj ht
    exact (only_evalBinary_comparison hop).weaken fun v hv h => h.holds_bool hv
  | false =>
    rw [hop] at hfirm
    by_cases hslash : op = .slash
    · subst hslash
      obtain rfl := Option.some.inj ht
      refine only_evalBinary_slash.weaken fun v hv h => ?_
      rcases hv with rfl | ⟨d, rfl⟩
      · exact .inl rfl
      · exact .inr rfl
    · rw [if_neg (by simp [hslash])] at hfirm
      by_cases hplus : op = .plus
      · subst hplus
        rw [if_pos rfl] at hfirm
        exact hfirm.only (inferred_sum ht) hl hr
      · rw [if_neg hplus] at hfirm
        exact hfirm.only hop hplus (inferred_arith hop hslash hplus ht) hknown hl hr

theorem identCall_keepsType (line line' : ℕ) (name : Text) (args : List Expr) :
    KeepsType ω classes scope env (.call line (.ident line' name) args) := by
  refine keepsType_succ fun n s T t hvalid hfirm ht _ => .unlessError fun hclear => ?_
  obtain ⟨f, fv, hget, hf, hkeeps⟩ := hvalid.call name t hfirm ht
  exact identCall_keepsTo hget hclear (hkeeps.callValue hf)

theorem memberCall_keepsType {object : Expr} (line line' : ℕ) (name : Text) (args : List Expr)
    (h : KeepsType ω classes scope env object) :
    KeepsType ω classes scope env (.call line (.member line' object name) args) := by
  refine keepsType_succ fun n s T t hvalid hfirm ht _ => .unlessError fun _ => ?_
  obtain ⟨hobject, hcalm, hmethod⟩ := hfirm
  have hreturn := inferred_call ht
  obtain ⟨u, hu, hclass⟩ := kind_of_methodReturn hreturn
  have hku : u.Known := by
    rw [TypeInfo.Known, hclass]
    decide
  refine memberCall_keepsTo hclass ?_ (h n s T u hvalid hobject hu hku) fun obj i hobj => ?_
  · -- an object of a known type is no namespace
    rintro line ns rfl
    obtain ⟨v, hv, -⟩ := hvalid.var ns u hobject hu hku
    rw [hv]
    rfl
  · exact callInstance_keepsTo
      ((hvalid.of_settled (settled_evalExpr hcalm n env s)).method name t (hmethod t hreturn))

/-- **A firm expression returns a value of its inferred type, or fails.** -/
theorem keepsType : ∀ e : Expr, KeepsType ω classes scope env e
  | .num .. | .decimal .. | .scifi .. | .bool .. =>
    keepsType_of_only rfl fun _ =>
      only_unlessError (fun _ => .inl rfl) (only_pure fun _ => .inr rfl)
  | .list .. | .data .. =>
    keepsType_of_only rfl fun _ => only_unlessError (fun _ => .inl rfl)
      (only_bind fun _ => only_bind fun _ => only_pure fun _ => .inr rfl)
  | .between .. =>
    keepsType_of_only rfl fun _ => only_unlessError (fun _ => .inl rfl)
      (only_bind fun _ => only_bind fun _ => only_bind fun _ => only_pure fun _ => .inr rfl)
  | .str line parts => str_keepsType line parts
  | .new line className args => new_keepsType line className args
  | .ident line name => ident_keepsType line name
  | .ternary line _ thenE elseE => ternary_keepsType line (keepsType thenE) (keepsType elseE)
  | .binary line left right op => binary_keepsType line op (keepsType left) (keepsType right)
  | .call line (.ident line' name) args => identCall_keepsType line line' name args
  | .call line (.member line' object name) args =>
    memberCall_keepsType line line' name args (keepsType object)
  | .unary .. | .funcLit .. | .await .. | .member .. | .index .. | .assign ..
  | .call _ (.num ..) _ | .call _ (.decimal ..) _ | .call _ (.scifi ..) _ | .call _ (.bool ..) _
  | .call _ (.str ..) _ | .call _ (.binary ..) _ | .call _ (.unary ..) _ | .call _ (.ternary ..) _
  | .call _ (.between ..) _ | .call _ (.list ..) _ | .call _ (.data ..) _
  | .call _ (.funcLit ..) _ | .call _ (.await ..) _ | .call _ (.index ..) _
  | .call _ (.assign ..) _ | .call _ (.new ..) _ | .call _ (.call ..) _ => keepsType_of_none rfl

end KeepsType

end Jaguar
