/-
What is said of a run without faults.

* `noteError` — the message of the first error that nobody has caught, step by step;
* `Heap.Extends` — what was there is as it was;
* `Heap.Spares` — variables stay, and what the memory holds;
* `faultWatch` — of a run without errors raised on top of others: at its end the message is
  that of the first error; of a run without faulty writes: what it finds, it spares;
* `faultWatch_step` — **this holds of a single step that does no harm**.
-/
import Jaguar.CutRuns
import Jaguar.ErrorState
import Jaguar.FrameEffect
import Jaguar.ListConcat
import Jaguar.Watched

namespace Jaguar

/-! ### The first error -/

/-- The message of the first error that is not caught yet, behind one more step. -/
def noteError {ω : Type} (first : Option Text) (st : Exec.Step (Machine ω) Act) : Option Text :=
  match st.label with
  | .raise => first.orElse fun _ => st.post.it.errorMessage
  | .catchError => none
  | _ => first

/-- The message of the first error of a run that nobody has caught. -/
def firstMessage {ω : Type} (steps : List (Exec.Step (Machine ω) Act)) : Option Text :=
  steps.foldl noteError none

section FirstError

variable {ω : Type} {n₀ : ℕ}

/-- **One step**: the message stays the first one unless an error is raised on top of it. -/
theorem Allowed.errorMessage {st : Exec.Step (Machine ω) Act} (h : Allowed n₀ st)
    (hpre : st.pre.it.Paired) (hpost : st.post.it.Paired) :
    st.post.it.errorMessage = noteError st.pre.it.errorMessage st ↔
      (st.label = .raise → st.pre.it.hadRuntimeError = true →
        st.post.it.errorMessage = st.pre.it.errorMessage) := by
  obtain ⟨label, s, s'⟩ := st
  have hdoes : label.Does s s' := h.1
  have hpaired : s.it.hadRuntimeError = s.it.errorMessage.isSome := hpre
  have hpaired' : s'.it.hadRuntimeError = s'.it.errorMessage.isSome := hpost
  have hnone : ∀ {it : Interp}, it.hadRuntimeError = it.errorMessage.isSome →
      it.hadRuntimeError = false → it.errorMessage = none := fun hp hclear =>
    Option.not_isSome_iff_eq_none.mp (Bool.eq_false_iff.mp (hp.symm.trans hclear))
  have hother : label ≠ .raise → s'.it.errorMessage = noteError s.it.errorMessage ⟨label, s, s'⟩ →
      (s'.it.errorMessage = noteError s.it.errorMessage ⟨label, s, s'⟩ ↔
        (label = .raise → s.it.hadRuntimeError = true →
          s'.it.errorMessage = s.it.errorMessage)) := fun hlabel heq =>
    ⟨fun _ hraise => absurd hraise hlabel, fun _ => heq⟩
  cases hdoes with
  | raise line msg =>
    cases hmsg : s.it.errorMessage with
    | none =>
      rw [hmsg] at hpaired
      have hclear : s.it.hadRuntimeError = false := hpaired
      exact ⟨fun _ _ hset => absurd (hset.symm.trans hclear) Bool.noConfusion, fun _ => rfl⟩
    | some first =>
      rw [hmsg] at hpaired
      have hset : s.it.hadRuntimeError = true := hpaired
      constructor
      · intro heq _ _
        exact heq
      · intro halike
        exact halike rfl hset
  | enterTry hclear => exact hother nofun (hnone hpaired hclear).symm
  | leaveTry msg hclear =>
    exact hother nofun ((hnone hpaired' rfl).trans (hnone hpaired hclear).symm)
  | catchError name => exact hother nofun rfl
  | _ => exact hother nofun rfl

/-- Behind one more step there is a message noted exactly if there is one pending. -/
theorem Allowed.isSome_noteError {st : Exec.Step (Machine ω) Act} (h : Allowed n₀ st)
    (hpre : st.pre.it.Paired) (hpost : st.post.it.Paired) {first : Option Text}
    (hfirst : first.isSome = st.pre.it.errorMessage.isSome) :
    (noteError first st).isSome = st.post.it.errorMessage.isSome := by
  obtain ⟨label, s, s'⟩ := st
  have hdoes : label.Does s s' := h.1
  have hpaired : s.it.hadRuntimeError = s.it.errorMessage.isSome := hpre
  have hpaired' : s'.it.hadRuntimeError = s'.it.errorMessage.isSome := hpost
  have hfirst : first.isSome = s.it.errorMessage.isSome := hfirst
  cases hdoes with
  | raise line msg => cases first <;> rfl
  | enterTry hclear => exact hfirst.trans (hpaired.symm.trans hclear)
  | leaveTry msg hclear => exact (hfirst.trans (hpaired.symm.trans hclear)).trans hpaired'
  | catchError name => rfl
  | _ => exact hfirst

/-- **A run that starts and ends with no error pending notes none.** -/
theorem isSome_foldl_noteError {s s' : Machine ω}
    {steps : List (Exec.Step (Machine ω) Act)} (hchained : Exec.Chained s steps s')
    (hs : s.it.Paired) (hsteps : ∀ st ∈ steps, StepKeeps Interp.Paired n₀ st)
    {first : Option Text} (hfirst : first.isSome = s.it.errorMessage.isSome) :
    (steps.foldl noteError first).isSome = s'.it.errorMessage.isSome := by
  induction hchained generalizing first with
  | nil => exact hfirst
  | @cons l s s₁ s' steps _ ih =>
    obtain ⟨hstep, hrest⟩ := List.forall_mem_cons.mp hsteps
    exact ih hstep.2 hrest (hstep.1.isSome_noteError hs hstep.2 hfirst)

end FirstError

/-! ### What the memory keeps -/

/-- The steps that write to a variable, a list or a data value. -/
def Act.isWrite (a : Act) : Bool :=
  match a with
  | .setVar .. | .setList _ | .setItem _ | .setData .. => true
  | _ => false

/-- Every binding, list, node and data value is as it was; there may be new ones. -/
structure Heap.Extends (h h' : Heap) : Prop where
  bindings : ∀ f, h.frame f <:+ h'.frame f
  lists : h.lists <+: h'.lists
  nodes : h.nodes <+: h'.nodes
  datas : h.datas <+: h'.datas
  instances : h.instances <+: h'.instances

theorem Heap.Extends.refl (h : Heap) : h.Extends h :=
  ⟨fun _ => List.suffix_rfl, List.prefix_rfl, List.prefix_rfl, List.prefix_rfl, List.prefix_rfl⟩

theorem Heap.Extends.trans {h h' h'' : Heap} (h₁ : h.Extends h') (h₂ : h'.Extends h'') :
    h.Extends h'' where
  bindings f := (h₁.bindings f).trans (h₂.bindings f)
  lists := h₁.lists.trans h₂.lists
  nodes := h₁.nodes.trans h₂.nodes
  datas := h₁.datas.trans h₂.datas
  instances := h₁.instances.trans h₂.instances

/-- **A step that is no write changes nothing that was there.** -/
theorem Allowed.extends {ω : Type} {n₀ : ℕ} {st : Exec.Step (Machine ω) Act}
    (h : Allowed n₀ st) (hwrite : st.label.isWrite = false) :
    st.pre.heap.Extends st.post.heap := by
  obtain ⟨label, s, s'⟩ := st
  have hdoes : label.Does s s' := h.1
  have hlabel : label.isWrite = false := hwrite
  show s.heap.Extends s'.heap
  cases hdoes with
  | newFrame =>
    refine { Heap.Extends.refl s.heap with bindings := fun f => ?_ }
    have hframe : s.heap.newFrame.frame f = s.heap.frame f := Heap.frame_newFrame s.heap f
    exact hframe ▸ List.suffix_rfl
  | define g e =>
    refine { Heap.Extends.refl s.heap with bindings := fun f => ?_ }
    rcases s.heap.frame_define_or g e f with heq | ⟨-, heq⟩
    · exact heq ▸ List.suffix_rfl
    · exact heq ▸ List.suffix_cons _ _
  | alloc h' hgrows _ =>
    refine ⟨fun f => ?_, hgrows.lists, hgrows.nodes, hgrows.datas, hgrows.instances⟩
    have hframe : h'.frame f = s.heap.frame f := congrArg (·.getD f []) hgrows.frames
    exact hframe ▸ List.suffix_rfl
  | hoist env list =>
    have hhoist := s.heap.hoists_hoist list env
    exact ⟨hhoist.entries, hhoist.lists ▸ List.prefix_rfl, hhoist.nodes ▸ List.prefix_rfl,
      hhoist.datas ▸ List.prefix_rfl, hhoist.instances ▸ List.prefix_rfl⟩
  | setVar => cases hlabel
  | setList => cases hlabel
  | setItem => cases hlabel
  | setData => cases hlabel
  | _ => exact { Heap.Extends.refl s.heap with }

namespace Heap

/-- The entries of every frame are there, perhaps behind new ones. The lists and the data values
that something holds have the items and the entries they had, and so have the instances. -/
structure Spares (h h' : Heap) : Prop where
  bindings : ∀ f, h.frame f <:+ h'.frame f
  lists : ∀ l < h.lists.length, h.holdsList l = true → ∀ items, h.Items l items → h'.Items l items
  datas : ∀ d < h.datas.length, h.holdsData d = true → h'.data d = h.data d
  instances : h.instances <+: h'.instances
  listsLength : h.lists.length ≤ h'.lists.length
  datasLength : h.datas.length ≤ h'.datas.length

theorem Spares.refl (h : Heap) : h.Spares h :=
  ⟨fun _ => List.suffix_rfl, fun _ _ _ _ hitems => hitems, fun _ _ _ => rfl, List.prefix_rfl,
    Nat.le_refl _, Nat.le_refl _⟩

theorem itemsFrom_of_prefix {h h' : Heap} (hnodes : h.nodes <+: h'.nodes) {n n' : ℕ} (hn : n ≤ n')
    {cur : Option ℕ} {items : List Value} (hitems : h.itemsFrom n cur = some items) :
    h'.itemsFrom n' cur = some items := by
  induction n generalizing n' cur items with
  | zero =>
    cases cur with
    | none =>
      obtain rfl := Option.some.inj hitems
      cases n' <;> rfl
    | some p => cases hitems
  | succ n ih =>
    obtain ⟨n', rfl⟩ : ∃ m, n' = m + 1 := ⟨n' - 1, by omega⟩
    cases cur with
    | none => exact hitems
    | some p =>
      rw [itemsFrom] at hitems ⊢
      cases hnode : h.nodes[p]? with
      | none =>
        rw [hnode] at hitems
        cases hitems
      | some node =>
        have hnode' : h'.nodes[p]? = some node := by
          obtain ⟨rest, heq⟩ := hnodes
          rw [← heq, List.getElem?_append_left (List.getElem?_eq_some_iff.mp hnode).1, hnode]
        rw [hnode] at hitems
        rw [hnode']
        obtain ⟨rest, hrest, rfl⟩ := Option.map_eq_some_iff.mp hitems
        exact Option.map_eq_some_iff.mpr ⟨rest, ih (Nat.le_of_succ_le_succ hn) hrest, rfl⟩

theorem getD_of_prefix {α : Type*} {as bs : List α} (h : as <+: bs) {i : ℕ} (hi : i < as.length)
    (dflt : α) : bs.getD i dflt = as.getD i dflt := by
  obtain ⟨rest, rfl⟩ := h
  exact List.getD_append as rest dflt i hi

/-- There may be more lists, nodes, data values and instances. -/
theorem Extends.spares {h h' : Heap} (hext : h.Extends h') : h.Spares h' where
  bindings := hext.bindings
  lists l hl _ items hitems := by
    have hhead : h'.listHead l = h.listHead l := getD_of_prefix hext.lists hl none
    unfold Items
    rw [hhead]
    exact itemsFrom_of_prefix hext.nodes hext.nodes.length_le hitems
  datas d hd _ := getD_of_prefix hext.datas hd []
  instances := hext.instances
  listsLength := hext.lists.length_le
  datasLength := hext.datas.length_le

/-- An item more in a list that nothing holds. -/
theorem spares_listAppend {h h' : Heap} (hlinked : h.Linked) {l : ℕ} (hl : h.holdsList l = false)
    {item : Value} (happend : h.listAppend h.nodes.length l item = some h') : h.Spares h' := by
  obtain ⟨lists, nodes, heq⟩ := onLists_listAppend happend
  have hdatas : h'.datas = h.datas := by rw [heq]
  have hlength : h'.lists.length = h.lists.length := by
    unfold listAppend at happend
    split at happend
    · obtain rfl := Option.some.inj happend
      exact List.length_set
    · obtain ⟨last, -, rfl⟩ := Option.map_eq_some_iff.mp happend
      rfl
  refine ⟨fun f => ?_, fun m hm hheld items hitems => ?_, fun d _ _ => ?_, ?_,
    Nat.le_of_eq hlength.symm, Nat.le_of_eq (congrArg List.length hdatas.symm)⟩
  · rw [frame, frame, heq]
  · have hne : m ≠ l := by
      rintro rfl
      exact absurd (hheld.symm.trans hl) Bool.noConfusion
    by_cases hlt : l < h.lists.length
    · obtain ⟨h'', happend', happended⟩ := listAppend_spec hlinked hlt item
      obtain rfl := Option.some.inj (happend.symm.trans happend')
      exact happended.items_other hlinked hne hitems
    · -- there is no such list, and the new node belongs to none
      have hhead : h.listHead l = none := List.getD_eq_default _ _ (Nat.le_of_not_lt hlt)
      unfold listAppend at happend
      simp only [hhead, Option.some.injEq] at happend
      subst happend
      have hsame : ((h.newNode item none).setHead l (some h.nodes.length)).listHead m
          = h.listHead m := (listHead_setHead _ l _ m).trans (if_neg fun hm => hne hm.1)
      unfold Items
      rw [hsame]
      have hnodes : h.nodes <+: ((h.newNode item none).setHead l (some h.nodes.length)).nodes :=
        List.prefix_append _ _
      exact itemsFrom_of_prefix hnodes hnodes.length_le hitems
  · rw [data, data, hdatas]
  · rw [heq]

/-- An entry of a data value that nothing holds. -/
theorem spares_dataSet {h : Heap} {d : ℕ} (hd : h.holdsData d = false) (key : Text) (v : Value) :
    h.Spares (h.dataSet d key v) := by
  refine ⟨fun _ => List.suffix_rfl, fun _ _ _ _ hitems => ?_, fun e he hheld => ?_,
    List.prefix_rfl, Nat.le_refl _, Nat.le_of_eq (List.length_modify _ _ _).symm⟩
  · have hnodes : h.nodes <+: (h.dataSet d key v).nodes := List.prefix_rfl
    exact itemsFrom_of_prefix hnodes hnodes.length_le hitems
  · have hne : d ≠ e := by
      rintro rfl
      exact absurd (hheld.symm.trans hd) Bool.noConfusion
    show (h.datas.modify d _).getD e [] = h.datas.getD e []
    rw [List.getD_eq_getElem?_getD, List.getElem?_modify_ne _ _ hne, List.getD_eq_getElem?_getD]

end Heap

/-! ### Single steps -/

section Step

variable {ω : Type}

/-- The step does no harm, should an error be pending: it raises none; it writes at most to a
list or a data value that is still being built. -/
def Fault.Spares (φ : Fault) (a : Act) (s s' : Machine ω) : Prop :=
  match φ with
  | .raises => a ≠ .raise
  | .writes => s' = s ∨ match a with
    | .setVar .. | .setItem _ => False
    | .setList l => s.heap.holdsList l = false ∧
        ∃ item, s.heap.listAppend s.heap.nodes.length l item = some s'.heap
    | .setData d _ => s.heap.holdsData d = false
    | _ => True

/-- The flag and the message go together; the lists of the memory are in order. -/
def faultWatch (φ : Fault) : Exec.Watch (Machine ω) Act where
  mark := isMark
  inv s := match φ with
    | .raises => s.it.Paired
    | .writes => s.heap.Linked
  tells s steps r := match φ with
    | .raises => ∀ s' ∈ r, s'.it.errorMessage = steps.foldl noteError s.it.errorMessage
    | .writes => ∀ st ∈ steps, st.pre.it.hadRuntimeError = true →
        st.pre.heap.Spares st.post.heap

instance (φ : Fault) : (faultWatch φ : Exec.Watch (Machine ω) Act).Lawful where
  nil s := by
    cases φ with
    | raises => exact fun s' hs' => Option.some.inj hs' ▸ rfl
    | writes => exact fun st hst => absurd hst List.not_mem_nil
  append {s s' steps steps' r} h h' := by
    cases φ with
    | raises =>
      intro t ht
      rw [List.foldl_append, ← (show s'.it.errorMessage = _ from h s' rfl)]
      exact h' t ht
    | writes =>
      intro st hst
      rcases List.mem_append.mp hst with hst | hst
      · exact h st hst
      · exact h' st hst
  upTo {s steps r} h := by
    cases φ with
    | raises => exact fun s' hs' => nomatch hs'
    | writes => exact h

theorem allowed_of_does {a : Act} {s s' : Machine ω} (h : a.Does s s') : Allowed 0 ⟨a, s, s'⟩ := by
  refine ⟨h, ?_⟩
  cases a with
  | define f name => exact Nat.zero_le f
  | hoist env => exact fun f _ => Nat.zero_le f
  | _ => trivial

/-- The flag and the message are set and cleared together, but by what is restored. -/
theorem Act.Does.paired {a : Act} {s s' : Machine ω} (h : a.Does s s') (ha : a ≠ .leaveTry)
    (hs : s.it.Paired) : s'.it.Paired := by
  cases h with
  | raise line msg => rfl
  | enterTry => rfl
  | catchError => rfl
  | leaveTry => exact absurd rfl ha
  | _ => exact hs

/-- A write that is allowed while an error is pending spares what is held. -/
theorem Act.Does.spares {a : Act} {s s' : Machine ω} (h : a.Does s s') (hlinked : s.heap.Linked)
    (hspares : Fault.writes.Spares a s s') : s.heap.Spares s'.heap := by
  rcases hspares with rfl | hspares
  · exact Heap.Spares.refl _
  have hallowed := allowed_of_does h
  cases h with
  | setVar => exact absurd hspares id
  | setItem => exact absurd hspares id
  | setList l h' hedit =>
    obtain ⟨hheld, item, happend⟩ := hspares
    exact Heap.spares_listAppend hlinked hheld happend
  | setData d key v => exact Heap.spares_dataSet hspares key v
  | _ => exact (hallowed.extends rfl).spares

/-- **A step that does no harm.** -/
theorem faultWatch_step {φ : Fault} {a : Act} {s s' : Machine ω} (h : a.Does s s')
    (hinv : (faultWatch φ).inv s) (hleave : φ = .raises → a ≠ .leaveTry)
    (hspares : s.pending = true → φ.Spares a s s') :
    (faultWatch φ).tells s [⟨a, s, s'⟩] (some s') ∧ (faultWatch φ).inv s' := by
  have hallowed := allowed_of_does h
  cases φ with
  | raises =>
    have hs : s.it.Paired := hinv
    have hs' : s'.it.Paired := h.paired (hleave rfl) hs
    refine ⟨fun t ht => ?_, hs'⟩
    obtain rfl := Option.some.inj ht
    refine (hallowed.errorMessage hs hs').mpr fun hraise hpending => ?_
    exact absurd hraise (hspares hpending)
  | writes =>
    have hs : s.heap.Linked := hinv
    refine ⟨fun st hst hpending => ?_, hallowed.linked hs⟩
    obtain rfl := List.mem_singleton.mp hst
    exact h.spares hs (hspares hpending)

end Step

end Jaguar
