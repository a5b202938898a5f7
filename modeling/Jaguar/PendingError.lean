/-
What a run changes while an error is pending.

An error does not unwind anything: the evaluation goes on with `void`. What was there
before is safe from all of this but for writes whose operands have failed, which still
happen.

* `Heap.Accessible` — what a program gets at from its variables;
* `PendingPreserves` — no variable changes while an error is pending, and no list, data value
  or field that it gets at;
* `session_pendingPreserves` — **so it is where no write goes on with a failed operand**, in
  every run of a program and of callbacks;
* `failed_assignment_writes` — an assignment whose right-hand side fails writes `void`.
-/
import Jaguar.WatchedRuns

namespace Jaguar

namespace Heap

/-! ### What variables lead to -/

/-- A value in a variable, or in a list, a data value or a field that is accessible. -/
inductive Accessible (h : Heap) : Value → Prop
  | entry {f : ℕ} {e : EnvEntry} : e ∈ h.frame f → Accessible h e.value
  | item {l : ℕ} {items : List Value} {v : Value} :
      Accessible h (.list l) → h.Items l items → v ∈ items → Accessible h v
  | ofData {d : ℕ} {e : Text × Value} : Accessible h (.data d) → e ∈ h.data d → Accessible h e.2
  | field {i : ℕ} {inst : Instance} :
      Accessible h (.inst i) → h.instances[i]? = some inst → Accessible h (.data inst.fields)

theorem mem_nodes_of_itemsFrom {h : Heap} {n : ℕ} {cur : Option ℕ} {items : List Value}
    (hitems : h.itemsFrom n cur = some items) {v : Value} (hv : v ∈ items) :
    ∃ node ∈ h.nodes, node.item = v := by
  induction n generalizing cur items with
  | zero =>
    cases cur with
    | none =>
      obtain rfl := Option.some.inj hitems
      exact absurd hv List.not_mem_nil
    | some p => cases hitems
  | succ n ih =>
    cases cur with
    | none =>
      obtain rfl := Option.some.inj hitems
      exact absurd hv List.not_mem_nil
    | some p =>
      rw [itemsFrom] at hitems
      cases hnode : h.nodes[p]? with
      | none =>
        rw [hnode] at hitems
        cases hitems
      | some node =>
        rw [hnode] at hitems
        obtain ⟨rest, hrest, rfl⟩ := Option.map_eq_some_iff.mp hitems
        rcases List.mem_cons.mp hv with rfl | hv
        · exact ⟨node, List.mem_of_getElem? hnode, rfl⟩
        · exact ih hrest hv

theorem exists_mem_of_mem_getD {α : Type*} {xss : List (List α)} {i : ℕ} {x : α}
    (hx : x ∈ xss.getD i []) : ∃ xs ∈ xss, x ∈ xs := by
  rw [List.getD_eq_getElem?_getD] at hx
  cases hxs : xss[i]? with
  | none =>
    rw [hxs] at hx
    exact absurd hx List.not_mem_nil
  | some xs =>
    rw [hxs] at hx
    exact ⟨xs, List.mem_of_getElem? hxs, hx⟩

/-- What is accessible is held by the memory. -/
theorem Accessible.holds {h : Heap} {v : Value} (hv : h.Accessible v) {q : Value → Bool}
    (hq : q v = true) : h.holds q = true ∨ ∃ inst ∈ h.instances, v = .data inst.fields := by
  unfold Heap.holds
  simp only [Bool.or_eq_true, List.any_eq_true]
  cases hv with
  | entry he =>
    obtain ⟨es, hes, he⟩ := exists_mem_of_mem_getD he
    exact .inl (.inl (.inl (.inl ⟨es, hes, _, he, hq⟩)))
  | item _ hitems hv =>
    obtain ⟨node, hnode, rfl⟩ := mem_nodes_of_itemsFrom hitems hv
    exact .inl (.inl (.inl (.inr ⟨node, hnode, hq⟩)))
  | ofData _ he =>
    obtain ⟨es, hes, he⟩ := exists_mem_of_mem_getD he
    exact .inl (.inl (.inr ⟨es, hes, _, he, hq⟩))
  | field _ hinst => exact .inr ⟨_, List.mem_of_getElem? hinst, rfl⟩

theorem Accessible.holdsList {h : Heap} {l : ℕ} (hl : h.Accessible (.list l)) :
    h.holdsList l = true := by
  unfold Heap.holdsList
  refine (hl.holds ?_).elim id fun ⟨inst, _, heq⟩ => ?_
  · exact decide_eq_true rfl
  · cases heq

theorem Accessible.holdsData {h : Heap} {d : ℕ} (hd : h.Accessible (.data d)) :
    h.holdsData d = true := by
  unfold Heap.holdsData
  rw [Bool.or_eq_true]
  refine (hd.holds ?_).elim .inr fun ⟨inst, hinst, heq⟩ => .inl ?_
  · exact decide_eq_true rfl
  · exact List.any_eq_true.mpr ⟨inst, hinst, decide_eq_true (Value.data.inj heq).symm⟩

/-- What variables lead to is as it was. -/
structure Preserves (h h' : Heap) : Prop where
  bindings : ∀ f, h.frame f <:+ h'.frame f
  lists : ∀ l < h.lists.length, h.Accessible (.list l) → ∀ items, h.Items l items → h'.Items l items
  datas : ∀ d < h.datas.length, h.Accessible (.data d) → h'.data d = h.data d
  instances : h.instances <+: h'.instances
  accessible : ∀ v, h.Accessible v → h'.Accessible v
  listsLength : h.lists.length ≤ h'.lists.length
  datasLength : h.datas.length ≤ h'.datas.length

theorem Preserves.refl (h : Heap) : h.Preserves h :=
  ⟨fun _ => List.suffix_rfl, fun _ _ _ _ hitems => hitems, fun _ _ _ => rfl, List.prefix_rfl,
    fun _ hv => hv, Nat.le_refl _, Nat.le_refl _⟩

theorem Preserves.trans {h h' h'' : Heap} (h₁ : h.Preserves h') (h₂ : h'.Preserves h'') : h.Preserves h'' where
  bindings f := (h₁.bindings f).trans (h₂.bindings f)
  lists l hl hacc items hitems :=
    h₂.lists l (Nat.lt_of_lt_of_le hl h₁.listsLength) (h₁.accessible _ hacc) items
      (h₁.lists l hl hacc items hitems)
  datas d hd hacc :=
    (h₂.datas d (Nat.lt_of_lt_of_le hd h₁.datasLength) (h₁.accessible _ hacc)).trans
      (h₁.datas d hd hacc)
  instances := h₁.instances.trans h₂.instances
  accessible v hv := h₂.accessible v (h₁.accessible v hv)
  listsLength := Nat.le_trans h₁.listsLength h₂.listsLength
  datasLength := Nat.le_trans h₁.datasLength h₂.datasLength

/-- A number that no list has leads nowhere. -/
theorem lt_of_mem_items {h : Heap} {l : ℕ} {items : List Value} (hitems : h.Items l items)
    {v : Value} (hv : v ∈ items) : l < h.lists.length := by
  by_contra hl
  have hhead : h.listHead l = none := List.getD_eq_default _ _ (Nat.le_of_not_lt hl)
  unfold Items at hitems
  rw [hhead] at hitems
  cases hn : h.nodes.length <;> rw [hn] at hitems <;> obtain rfl := Option.some.inj hitems <;>
    exact absurd hv List.not_mem_nil

theorem lt_of_mem_data {h : Heap} {d : ℕ} {e : Text × Value} (he : e ∈ h.data d) :
    d < h.datas.length := by
  by_contra hd
  have hdata : h.data d = [] := List.getD_eq_default _ _ (Nat.le_of_not_lt hd)
  rw [hdata] at he
  exact absurd he List.not_mem_nil

theorem Spares.accessible {h h' : Heap} (hspares : h.Spares h') {v : Value} (hv : h.Accessible v) :
    h'.Accessible v := by
  induction hv with
  | entry he => exact .entry ((hspares.bindings _).subset he)
  | item hl hitems hv ih =>
    exact .item ih (hspares.lists _ (lt_of_mem_items hitems hv) hl.holdsList _ hitems) hv
  | ofData hd he ih =>
    refine .ofData ih ?_
    rw [hspares.datas _ (lt_of_mem_data he) hd.holdsData]
    exact he
  | field _ hinst ih =>
    refine .field ih ?_
    obtain ⟨rest, heq⟩ := hspares.instances
    rw [← heq, List.getElem?_append_left (List.getElem?_eq_some_iff.mp hinst).1, hinst]

theorem Spares.preserves {h h' : Heap} (hspares : h.Spares h') : h.Preserves h' where
  bindings := hspares.bindings
  lists l hl hacc := hspares.lists l hl hacc.holdsList
  datas d hd hacc := hspares.datas d hd hacc.holdsData
  instances := hspares.instances
  accessible _ := hspares.accessible
  listsLength := hspares.listsLength
  datasLength := hspares.datasLength

end Heap

/-! ### Runs -/

section Runs

variable {ω : Type}

/-- An error is pending before each of these steps. -/
def Pending (steps : List (Exec.Step (Machine ω) Act)) : Prop :=
  ∀ st ∈ steps, st.pre.it.hadRuntimeError = true

/-- From `h` to `h'`, along these steps: what variables lead to is as it was, and so are the
lists and the data values that the memory holds all the time, wherever that is. -/
structure PreservesAlong (steps : List (Exec.Step (Machine ω) Act)) (h h' : Heap) : Prop where
  whole : h.Preserves h'
  lists : ∀ l < h.lists.length, (∀ st ∈ steps, st.pre.heap.holdsList l = true) →
    ∀ items, h.Items l items → h'.Items l items
  datas : ∀ d < h.datas.length, (∀ st ∈ steps, st.pre.heap.holdsData d = true) →
    h'.data d = h.data d

/-- From where an error is pending to where it is caught, nothing that was there changes. -/
def PendingPreserves (steps : List (Exec.Step (Machine ω) Act)) : Prop :=
  ∀ before during after first last, steps = before ++ during ++ after → Pending during →
    during.head? = some first → during.getLast? = some last →
    PreservesAlong during first.pre.heap last.post.heap

theorem preservesAlong_of_spares {s s' : Machine ω} {steps : List (Exec.Step (Machine ω) Act)}
    (hchained : Exec.Chained s steps s')
    (hspares : ∀ st ∈ steps, st.pre.heap.Spares st.post.heap) :
    PreservesAlong steps s.heap s'.heap := by
  induction hchained with
  | nil => exact ⟨Heap.Preserves.refl _, fun _ _ _ _ hitems => hitems, fun _ _ _ => rfl⟩
  | @cons l s s₁ s' steps _ ih =>
    obtain ⟨hstep, hrest⟩ := List.forall_mem_cons.mp hspares
    have hstep : s.heap.Spares s₁.heap := hstep
    have hnext := ih hrest
    refine ⟨hstep.preserves.trans hnext.whole, fun l hl hheld items hitems => ?_, fun d hd hheld => ?_⟩
    · obtain ⟨hfirst, hheld⟩ := List.forall_mem_cons.mp hheld
      exact hnext.lists l (Nat.lt_of_lt_of_le hl hstep.listsLength) hheld items
        (hstep.lists l hl hfirst items hitems)
    · obtain ⟨hfirst, hheld⟩ := List.forall_mem_cons.mp hheld
      exact (hnext.datas d (Nat.lt_of_lt_of_le hd hstep.datasLength) hheld).trans
        (hstep.datas d hd hfirst)

theorem pendingPreserves_of_spares {s s' : Machine ω} {steps : List (Exec.Step (Machine ω) Act)}
    (hchained : Exec.Chained s steps s')
    (hspares : ∀ st ∈ steps, st.pre.it.hadRuntimeError = true →
      st.pre.heap.Spares st.post.heap) : PendingPreserves steps := by
  rintro before during after first last rfl hpending hfirst hlast
  refine preservesAlong_of_spares (hchained.between hfirst hlast) fun st hst => ?_
  exact hspares st (List.mem_append_left _ (List.mem_append_right _ hst)) (hpending st hst)

end Runs

/-! ### Programs and callbacks -/

section Session

variable {ω : Type} [Host ω] {R' R : Evaluator ω}

theorem interpRun_heeds (hR : R'.Heeds .writes R) (program : List Stmt) :
    Heeds .writes Always (interpRun R' program) (interpRun R program) := by
  refine (heeds_read _).bind fun env => (heeds_hoist program env).bind fun _ => ?_
  refine (execStmts_heeds hR program).bind fun _ => heeds_closeFile.bind fun _ => ?_
  refine (heeds_setOpenFile _).bind fun _ => (heeds_read _).bind fun failed => ?_
  refine heeds_ite (fun _ => ?_) fun _ => heeds_pure _
  exact (heeds_read _).bind fun msg => (heeds_onWorld _).bind fun _ => heeds_pure _

theorem enterWith_heeds (hR : R'.Heeds .writes R) (e : Entry) :
    Heeds .writes Always (enterWith R' e) (enterWith R e) := by
  cases e with
  | run program => exact (interpRun_heeds hR program).bind fun _ => heeds_pure _
  | invoke callee argv =>
    exact ((interpInvoke_heeds hR callee argv).weaken fun _ _ => rfl).bind fun _ => heeds_pure _
  | invokeClosure callee argv =>
    exact ((interpInvokeClosure_heeds hR callee argv).weaken fun _ _ => rfl).bind fun _ =>
      heeds_pure _

theorem sessionWith_heeds (hR : R'.Heeds .writes R) (entries : List Entry) :
    Heeds .writes Always (sessionWith R' entries) (sessionWith R entries) := by
  induction entries with
  | nil => exact heeds_pure _
  | cons e entries ih => exact (enterWith_heeds hR e).bind fun _ => ih

/-- **An error changes nothing by itself.**  In a run where no write goes on with an operand
that has failed, everything is as it was when the error is caught. -/
theorem session_pendingPreserves (n : ℕ) (entries : List Entry) (w : ω)
    (hwatched : Unmarked (sessionWith (watched .writes n) entries (interpInit w)).steps) :
    PendingPreserves (session n entries (interpInit w)).steps := by
  have hrun := session_confined n entries (interpInit w) (Nat.zero_le _)
  obtain ⟨heq, hholds⟩ := sessionWith_heeds (watched_heeds .writes n) entries (interpInit w)
    (linked_interpInit w) trivial hwatched
  rw [← heq] at hholds
  exact pendingPreserves_of_spares hrun.chained hholds.tells

end Session

/-- `x: num = 1; try { ...; } catch (e) {}`. -/
def tryProgram (st : Stmt) : List Stmt := [
  .varDecl 1 (txt "x") (.new .num) (some (.num 1 1)) false,
  .tryCatch 2 (.block 2 [st]) (txt "e") (.block 2 [])]

/-- `x = y;` -/
def assignUndefined : Stmt :=
  .expr 2 (.assign 2 (.ident 2 (txt "x")) (.ident 2 (txt "y")) .assign)

/-- `z: list = [y, x];`, which puts the value of `y` into the new list. -/
def listOfUndefined : Stmt :=
  .varDecl 2 (txt "z") (.new .list) (some (.list 2 [.ident 2 (txt "y"), .ident 2 (txt "x")])) false

theorem session_pendingPreserves_newList :
    PendingPreserves (@session Unit silentHost 8 [.run (tryProgram listOfUndefined)]
      (interpInit ())).steps ∧
    ∃ st ∈ (@session Unit silentHost 8 [.run (tryProgram listOfUndefined)] (interpInit ())).steps,
      st.pre.it.hadRuntimeError = true ∧ st.label.isWrite = true := by
  refine ⟨@session_pendingPreserves Unit silentHost 8 _ _ ?_, ?_⟩
  · exact unmarked_of_all (by decide +kernel)
  · have hany : ((@session Unit silentHost 8 [.run (tryProgram listOfUndefined)]
        (interpInit ())).steps.any fun st => st.pre.it.hadRuntimeError && st.label.isWrite) = true := by
      decide +kernel
    obtain ⟨st, hst, hboth⟩ := List.any_eq_true.mp hany
    exact ⟨st, hst, (Bool.and_eq_true _ _).mp hboth⟩

/-- Which values are `void`. -/
def voids (es : List EnvEntry) : List Bool :=
  es.map fun e => match e.value with
    | .void => true
    | _ => false

/-- **`x` is `void` in the handler.** -/
theorem failed_assignment_writes : ¬ ∀ (n : ℕ) (entries : List Entry) (w : Unit),
    PendingPreserves (@session Unit silentHost n entries (interpInit w)).steps := by
  intro h
  have hrun := h 8 [.run (tryProgram assignUndefined)] ()
  have hany : ((@session Unit silentHost 8 [.run (tryProgram assignUndefined)]
      (interpInit ())).steps.any fun st => st.pre.it.hadRuntimeError &&
        decide ((st.pre.heap.frame 0).length = (st.post.heap.frame 0).length) &&
        decide (voids (st.pre.heap.frame 0) ≠ voids (st.post.heap.frame 0))) = true := by
    decide +kernel
  obtain ⟨st, hst, hcond⟩ := List.any_eq_true.mp hany
  simp only [Bool.and_eq_true, decide_eq_true_eq] at hcond
  obtain ⟨⟨hpending, hlength⟩, hvoids⟩ := hcond
  obtain ⟨before, after, hsplit⟩ := List.append_of_mem hst
  have hpreserves := hrun before [st] after st st (by rw [hsplit]; simp)
    (fun st' hst' => List.mem_singleton.mp hst' ▸ hpending) rfl rfl
  exact hvoids (congrArg voids ((hpreserves.whole.bindings 0).eq_of_length hlength))

end Jaguar
