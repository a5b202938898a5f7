/-
The cursor of a loop over a list.

A loop holds on to a node of the list while its body runs, and then goes on to the node
behind it. The body may free the node.

* `turn`, `cursorSteps` — the steps of a loop, each with the node the loop is at;
* `Allowed.live_iff` — what frees a node is `.delete` with its index, and nothing else;
* `cursorsLive_iff` — **the cursor is live at every step** exactly if no `.delete` in the body
  takes out the node of the turn.
-/
import Jaguar.HeapLists

namespace Jaguar

open Chains

/-! ### What frees a node -/

namespace Heap

variable {h h' : Heap} {l p : ℕ}

theorem live_listAppend {n : ℕ} {item : Value} (heq : h.listAppend n l item = some h')
    (hp : h.Live p) : h'.Live p := by
  unfold listAppend at heq
  cases hhead : h.listHead l with
  | none =>
    simp only [hhead, Option.some.injEq] at heq
    subst heq
    exact (live_newNode h item none p).mpr (.inl hp)
  | some first =>
    simp only [hhead, Option.map_eq_some_iff] at heq
    obtain ⟨last, -, rfl⟩ := heq
    exact (live_setNext _ last _ p).mpr ((live_newNode h item none p).mpr (.inl hp))

theorem live_addsLists (hadds : h.AddsLists h') (hp : h.Live p) : h'.Live p := by
  induction hadds with
  | refl => exact hp
  | add items _ ih => exact (live_newNodes _ _ items p).mpr (.inl ih)
  | other _ _ hnodes ih =>
    rw [live_congr hnodes]
    exact ih

end Heap

/-- A step of `.delete` with the index of the node `p`. -/
def Deletes {ω : Type} (st : Exec.Step (Machine ω) Act) (p : ℕ) : Prop :=
  ∃ l idx, st.label = .setList l ∧
    st.pre.heap.listDelete l idx st.pre.heap.nodes.length none (st.pre.heap.listHead l) 0
      = some st.post.heap ∧
    st.pre.heap.nodeAt idx st.pre.heap.nodes.length (st.pre.heap.listHead l) 0 = some (some p)

/-- **What frees a node.** -/
theorem Allowed.live_iff {ω : Type} {n₀ p : ℕ} {st : Exec.Step (Machine ω) Act}
    (h : Allowed n₀ st) (hl : st.pre.heap.Linked) (hp : st.pre.heap.Live p) :
    st.post.heap.Live p ↔ ¬ Deletes st p := by
  constructor
  · rintro hlive ⟨l, idx, -, hdelete, hat⟩
    have hpath : Path st.pre.heap.ref (.inl l) [] (Heap.place l none) := rfl
    exact ((hl.listDelete hpath rfl hdelete).2 p hp).mp hlive hat
  · intro hdeletes
    obtain ⟨label, s, s'⟩ := st
    have hdoes : label.Does s s' := h.1
    cases hdoes with
    | setList l h' hedit =>
      cases hedit with
      | append item heq => exact Heap.live_listAppend heq hp
      | insertFront item => exact (Heap.live_newNode s.heap item _ p).mpr (.inl hp)
      | setItems items => exact (Heap.live_newNodes s.heap l items p).mpr (.inl hp)
      | delete idx heq =>
        have hpath : Path s.heap.ref (.inl l) [] (Heap.place l none) := rfl
        exact ((hl.listDelete hpath rfl heq).2 p hp).mpr fun hat =>
          hdeletes ⟨l, idx, rfl, heq, hat⟩
    | alloc h' _ hadds => exact Heap.live_addsLists hadds hp
    | setItem q v => exact Heap.live_setItem hp q v
    | hoist env list =>
      have hnodes := (s.heap.hoists_hoist list env).nodes
      show (s.heap.hoistClasses list env |>.hoistFunctions list env).Live p
      rw [Heap.live_congr hnodes]
      exact hp
    | _ => exact hp

/-! ### The steps of a loop -/

section Loop

variable {ω : Type} (R : Evaluator ω) (var : Text) (cond : Option Expr) (body : Stmt) (env : Env)

/-- A turn at the node `p`, up to where the loop goes on: whether the body was run, and how it
ended. -/
def turn (p : ℕ) : Prog ω (Bool × ExecResult) := do
  let node ← nodeOf p
  let loopEnv ← envNew env
  envDefine loopEnv var node.item false
  let made ← turnIsMade R cond loopEnv
  if made then do
    let r ← R.execStmt body loopEnv
    pure (true, r)
  else pure (false, .none)

/-- Whether the loop goes on behind a turn. -/
def goesOn (s : Machine ω) (v : Bool × ExecResult) : Bool :=
  match v with
  | (false, _) => true
  | (true, .ret _) => false
  | (true, .none) => !s.it.hadRuntimeError

/-- The steps of a loop from the node `cur` on, each with the node the loop is at. -/
def cursorSteps : ℕ → Option ℕ → Machine ω → List (ℕ × Exec.Step (Machine ω) Act)
  | _, none, _ => []
  | 0, some _, _ => []
  | k + 1, some p, s =>
    let o := turn R var cond body env p s
    o.steps.map (p, ·) ++ match o.value with
      | none => []
      | some v =>
        if goesOn o.state v then
          (p, ⟨.advance p, o.state, o.state⟩) :: match (nextNode p o.state).value with
            | some next => cursorSteps k next o.state
            | none => []
        else []

variable {R var cond body env}

/-- A turn, and what follows it. -/
theorem overNodes_succ (k p : ℕ) :
    overNodes R var cond body env (k + 1) (some p) = turn R var cond body env p >>= fun v =>
      if v.1 then afterTurn v.2 (nextNode p >>= overNodes R var cond body env k)
      else nextNode p >>= overNodes R var cond body env k := by
  unfold turn
  simp only [Exec.bind_assoc]
  refine congrArg (nodeOf p >>= ·) (funext fun node => congrArg (envNew env >>= ·)
    (funext fun loopEnv => congrArg (envDefine loopEnv var node.item false >>= ·)
      (funext fun _ => congrArg (turnIsMade R cond loopEnv >>= ·) (funext fun made => ?_))))
  cases made with
  | true =>
    have hassoc := Exec.bind_assoc (R.execStmt body loopEnv) (fun r => (pure (true, r) : Prog ω _))
      fun v => if v.1 then afterTurn v.2 (nextNode p >>= overNodes R var cond body env k)
        else nextNode p >>= overNodes R var cond body env k
    exact hassoc.symm
  | false => rfl

/-- `c = c->next`, and the turns that follow. -/
theorem steps_nextNode_bind {α : Type} {f : Option ℕ → Prog ω α} (p : ℕ) (s : Machine ω) :
    ((nextNode p >>= f) s).steps = ⟨.advance p, s, s⟩ :: match (nextNode p s).value with
      | some next => (f next s).steps
      | none => [] := by
  have hsteps : (nextNode p s).steps = [⟨.advance p, s, s⟩] := rfl
  have hstate : (nextNode p s).state = s := rfl
  cases hvalue : (nextNode p s).value with
  | none =>
    rw [Exec.bind_of_none hvalue]
    exact hsteps
  | some next =>
    rw [Exec.bind_of_some hvalue, hsteps, hstate]
    rfl

theorem steps_goesOn (s : Machine ω) (v : Bool × ExecResult) (next : Prog ω ExecResult) :
    ((if v.1 then afterTurn v.2 next else next : Prog ω ExecResult) s).steps
      = if goesOn s v then (next s).steps else [] := by
  obtain ⟨made, r⟩ := v
  cases made with
  | false => rfl
  | true =>
    cases r with
    | ret v => rfl
    | none =>
      show (unlessError .none next s).steps = _
      unfold unlessError errorPending
      rw [Exec.steps_read_bind]
      cases hflag : s.it.hadRuntimeError <;> simp only [goesOn, hflag] <;> rfl

/-- **The steps are those of the loop.** -/
theorem cursorSteps_steps (k : ℕ) (cur : Option ℕ) (s : Machine ω) :
    (cursorSteps R var cond body env k cur s).map Prod.snd
      = (overNodes R var cond body env k cur s).steps := by
  induction k generalizing cur s with
  | zero => cases cur <;> rfl
  | succ k ih =>
    cases cur with
    | none => rfl
    | some p =>
      have hmap : ∀ steps : List (Exec.Step (Machine ω) Act),
          (steps.map (p, ·)).map Prod.snd = steps := fun steps => by simp
      rw [overNodes_succ, cursorSteps, List.map_append, hmap]
      cases hvalue : (turn R var cond body env p s).value with
      | none =>
        rw [Exec.bind_of_none hvalue]
        exact List.append_nil _
      | some v =>
        rw [Exec.bind_of_some hvalue, steps_goesOn, steps_nextNode_bind]
        refine congrArg _ ?_
        dsimp only
        split
        · rw [List.map_cons]
          refine congrArg _ ?_
          split
          · exact ih _ _
          · rfl
        · rfl

end Loop

/-! ### The invariant -/

/-- At every step of the loop the node it is at is live, before the step and behind it. -/
def CursorsLive {ω : Type} (steps : List (ℕ × Exec.Step (Machine ω) Act)) : Prop :=
  ∀ c ∈ steps, c.2.pre.heap.Live c.1 ∧ c.2.post.heap.Live c.1

/-- No step takes out the node that the loop is at. -/
def SparesCursors {ω : Type} (steps : List (ℕ × Exec.Step (Machine ω) Act)) : Prop :=
  ∀ c ∈ steps, ¬ Deletes c.2 c.1

theorem cursorsLive_nil_iff {ω : Type} :
    CursorsLive ([] : List (ℕ × Exec.Step (Machine ω) Act)) ↔ SparesCursors (ω := ω) [] :=
  ⟨fun _ _ hc => absurd hc List.not_mem_nil, fun _ _ hc => absurd hc List.not_mem_nil⟩

/-- The node behind a live one is live. -/
theorem Heap.Linked.live_nextNode {ω : Type} {s : Machine ω} {p : ℕ} {next : Option ℕ}
    (hl : s.heap.Linked) (hp : s.heap.Live p) (hnext : (nextNode p s).value = some next) :
    ∀ q ∈ next, s.heap.Live q := by
  obtain ⟨node, hnode, hfreed⟩ := hp
  have hvalue : (nextNode p s).value = (s.heap.nodes[p]?).bind fun node =>
      if node.freed then none else some node.next := rfl
  rw [hvalue, hnode, Option.bind_some, hfreed] at hnext
  obtain rfl : node.next = next := Option.some.inj hnext
  intro q hq
  exact hl.isLive ((Heap.ref_node hnode hfreed).trans hq)

section Live

variable {ω : Type} {s s' : Machine ω} {p : ℕ}

/-- **A part of a run**, while the loop is at one node. -/
theorem live_of_chained {steps : List (Exec.Step (Machine ω) Act)}
    (h : Exec.Chained s steps s') (hallowed : ∀ st ∈ steps, Allowed 0 st)
    (hl : s.heap.Linked) (hp : s.heap.Live p) :
    (CursorsLive (steps.map (p, ·)) ↔ SparesCursors (steps.map (p, ·))) ∧
      (SparesCursors (steps.map (p, ·)) → s'.heap.Live p) := by
  induction h with
  | nil => exact ⟨cursorsLive_nil_iff, fun _ => hp⟩
  | cons _ ih =>
    obtain ⟨hstep, hrest⟩ := List.forall_mem_cons.mp hallowed
    have hlive := hstep.live_iff hl hp
    have hnext := ih hrest (hstep.linked hl)
    simp only [CursorsLive, SparesCursors, List.map_cons, List.forall_mem_cons] at hnext ⊢
    constructor
    · constructor
      · rintro ⟨⟨-, hpost⟩, hsteps⟩
        exact ⟨hlive.mp hpost, (hnext hpost).1.mp hsteps⟩
      · rintro ⟨hspares, hsteps⟩
        exact ⟨⟨hp, hlive.mpr hspares⟩, (hnext (hlive.mpr hspares)).1.mpr hsteps⟩
    · rintro ⟨hspares, hsteps⟩
      exact (hnext (hlive.mpr hspares)).2 hsteps

variable [Host ω] (n : ℕ) (var : Text) (cond : Option Expr) (body : Stmt) (env : Env)

theorem turn_confined (p : ℕ) :
    Confined 0 (turn (evaluator n : Evaluator ω) var cond body env p) := by
  have hR : (evaluator n : Evaluator ω).Follows (fun _ => True) 0 := Evaluator.follows _ 0 n
  have hfollows : Follows (fun _ => True) 0 (turn (evaluator n : Evaluator ω) var cond body env p) := by
    refine (follows_readSome _).bind fun node => follows_envNew_bind env fun loopEnv hloop => ?_
    refine (follows_envDefine hloop _ _ _).bind fun _ => ?_
    refine (turnIsMade_follows hR cond hloop).bind fun made => follows_ite ?_ (follows_pure _)
    exact (hR.execStmt _ loopEnv hloop).bind fun r => follows_pure _
  exact hfollows.confined

/-- **The loop**, from a live node on, or at its end. -/
theorem cursorsLive_from {k : ℕ} {cur : Option ℕ} (hl : s.heap.Linked)
    (hcur : ∀ p ∈ cur, s.heap.Live p) :
    CursorsLive (cursorSteps (evaluator n) var cond body env k cur s) ↔
      SparesCursors (cursorSteps (evaluator n) var cond body env k cur s) := by
  induction k generalizing cur s with
  | zero => cases cur <;> exact cursorsLive_nil_iff
  | succ k ih =>
    cases cur with
    | none => exact cursorsLive_nil_iff
    | some p =>
      have hrun := turn_confined n var cond body env p s (Nat.zero_le _)
      obtain ⟨hturn, hend⟩ := live_of_chained hrun.chained hrun.steps hl (hcur p rfl)
      have hl' := (linked_of_chained hrun.chained hl hrun.steps).2
      rw [cursorSteps]
      unfold CursorsLive SparesCursors at hturn ih ⊢
      unfold SparesCursors at hend
      rw [List.forall_mem_append, List.forall_mem_append, hturn]
      refine and_congr_right fun hspares => ?_
      have hlive := hend hspares
      split
      · exact cursorsLive_nil_iff
      · split
        · rw [List.forall_mem_cons, List.forall_mem_cons]
          refine and_congr (iff_of_true ⟨hlive, hlive⟩ ?_) ?_
          · rintro ⟨l, idx, hlabel, -⟩
            cases hlabel
          · split
            · next hnext => exact ih hl' (hl'.live_nextNode hlive hnext)
            · exact cursorsLive_nil_iff
        · exact cursorsLive_nil_iff

/-- **The loops over a list.**  The list, the body and the state are any that a run may come
to; the steps of a loop are those of the statement. -/
theorem cursorsLive_iff (line l : ℕ) (hs : Reached s) :
    (((cursorSteps (evaluator n) var cond body env n (s.heap.listHead l) s).map Prod.snd
        = (forIn (evaluator n) n (.list l) var cond body env line s).steps ∧
      (cursorSteps (evaluator n) var none body env n (s.heap.listHead l) s).map Prod.snd
        = (iterate (evaluator n) n (.list l) var body env line s).steps)) ∧
    (CursorsLive (cursorSteps (evaluator n) var cond body env n (s.heap.listHead l) s) ↔
      SparesCursors (cursorSteps (evaluator n) var cond body env n (s.heap.listHead l) s)) := by
  refine ⟨⟨cursorSteps_steps _ _ _, cursorSteps_steps _ _ _⟩, ?_⟩
  exact cursorsLive_from n var cond body env hs.linked fun p hp =>
    hs.linked.isLive (x := .inl l) hp

end Live

/-- The state behind `xs: list = [1, 2];`. -/
def oneAndTwo : Machine Unit :=
  (@session Unit silentHost 4 [.run [.varDecl 1 (txt "xs") (.new .list)
    (some (.list 1 [.num 1 1, .num 1 2])) false]] (interpInit ())).state

theorem reached_oneAndTwo : @Reached Unit silentHost oneAndTwo :=
  ⟨4, [.run [.varDecl 1 (txt "xs") (.new .list) (some (.list 1 [.num 1 1, .num 1 2])) false]], (),
    .inl rfl⟩

/-- `xs.delete(1);` -/
def deleteSecond : Stmt :=
  .expr 1 (.call 1 (.member 1 (.ident 1 (txt "xs")) (txt "delete")) [.num 1 1])

/-- The steps of `for x in xs { xs.delete(1); }`. -/
def deleteSecondSteps : List (ℕ × Exec.Step (Machine Unit) Act) :=
  @cursorSteps Unit (@evaluator Unit silentHost 4) (txt "x") none deleteSecond [0] 4
    (oneAndTwo.heap.listHead 0) oneAndTwo

/-- The node that the body takes out is not the one of the turn. -/
theorem cursorsLive_iff_deleteSecond :
    deleteSecondSteps.map Prod.snd
      = (@forIn Unit (@evaluator Unit silentHost 4) 4 (.list 0) (txt "x") none deleteSecond [0] 1
        oneAndTwo).steps ∧
    (deleteSecondSteps.any fun c => (c.2.post.heap.nodes[1]?).any (·.freed)) = true ∧
    SparesCursors deleteSecondSteps := by
  have hspec := @cursorsLive_iff Unit _ silentHost 4 (txt "x") none deleteSecond [0] 1 0
    reached_oneAndTwo
  refine ⟨hspec.1.1, by decide +kernel, hspec.2.mp ?_⟩
  have hlive : (deleteSecondSteps.all fun c =>
      (c.2.pre.heap.nodes[c.1]?).any (!·.freed) && (c.2.post.heap.nodes[c.1]?).any (!·.freed))
      = true := by decide +kernel
  have hnode : ∀ (h : Heap) p, (h.nodes[p]?).any (!·.freed) = true → h.Live p := by
    intro h p hany
    cases hget : h.nodes[p]? with
    | none => simp [hget] at hany
    | some node => exact ⟨node, hget, by simpa [hget] using hany⟩
  intro c hc
  obtain ⟨hpre, hpost⟩ := Bool.and_eq_true_iff.mp (List.all_eq_true.mp hlive c hc)
  exact ⟨hnode _ _ hpre, hnode _ _ hpost⟩

/-- `xs.delete(0);` -/
def deleteFirst : Stmt :=
  .expr 1 (.call 1 (.member 1 (.ident 1 (txt "xs")) (txt "delete")) [.num 1 0])

/-- **`for x in xs { xs.delete(0); }`**: the loop reads on in the node that the body has
freed. -/
theorem delete_frees_cursor : ¬ ∀ (n : ℕ) (var : Text) (cond : Option Expr) (body : Stmt) (env : Env)
    (l : ℕ) (s : Machine Unit), @Reached Unit silentHost s →
    CursorsLive (@cursorSteps Unit (@evaluator Unit silentHost n) var cond body env n
      (s.heap.listHead l) s) := by
  intro h
  have hlive := h 4 (txt "x") none deleteFirst [0] 0 listOfOne reached_listOfOne
  have hfreed : ((@cursorSteps Unit (@evaluator Unit silentHost 4) (txt "x") none deleteFirst [0] 4
      (listOfOne.heap.listHead 0) listOfOne).any fun c =>
        (c.2.pre.heap.nodes[c.1]?).any (·.freed)) = true := by decide +kernel
  obtain ⟨c, hc, hany⟩ := List.any_eq_true.mp hfreed
  obtain ⟨node, hnode, hnot⟩ := (hlive c hc).1
  rw [hnode, Option.any_some, hnot] at hany
  cases hany

end Jaguar
