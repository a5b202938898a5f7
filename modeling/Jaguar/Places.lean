/-
What can be reached from a value.

A list, a node of it, a data value, an instance, a task and a class are places of the memory. A
place refers to others by the values in it; two memories that agree in all places that can be
reached from a value show the same value.

* `Place`, `Heap.refs`, `Heap.Reaches` — the places, and the way from one to another;
* `Heap.SameAt`, `Heap.SameFrom` — memories that agree in a place, and from a value on;
* `SameFrom.nodeAt`, `SameFrom.displayString` — **what is read from such a value is the same**.
-/
import Jaguar.Heap
import Mathlib.Logic.Relation

namespace Jaguar

inductive Place
  | list (l : ℕ)
  | node (p : ℕ)
  | data (d : ℕ)
  | inst (i : ℕ)
  | native (p : ℕ)
  | cls (c : ℕ)

/-- Where a value stands, if it is no scalar. -/
def Value.place? : Value → Option Place
  | .list l => some (.list l)
  | .data d => some (.data d)
  | .inst i => some (.inst i)
  | .native p => some (.native p)
  | .cls c => some (.cls c)
  | _ => none

namespace Heap

/-- The places of what a node holds. -/
def nodeRefs (node : ListNode) : List Place := node.item.place?.toList ++ node.next.toList.map .node

/-- The places that a place refers to; of what is native only a finished task has a value. -/
def refs (h : Heap) : Place → List Place
  | .list l => (h.listHead l).toList.map .node
  | .node p => ((h.nodes[p]?).map nodeRefs).getD []
  | .data d => (h.data d).filterMap fun e => e.2.place?
  | .inst i => ((h.instances[i]?).map fun inst => [.data inst.fields, .cls inst.classInfo]).getD []
  | .native p => match h.natives[p]? with
    | some (.task (.ok v)) => v.place?.toList
    | _ => []
  | .cls _ => []

def Reaches (h : Heap) : Place → Place → Prop := Relation.ReflTransGen fun p q => q ∈ h.refs p

/-- The same stands in a place; of a class, its name is all that a value shows. -/
def SameAt (h h' : Heap) : Place → Prop
  | .list l => h'.lists[l]? = h.lists[l]?
  | .node p => h'.nodes[p]? = h.nodes[p]?
  | .data d => h'.datas[d]? = h.datas[d]?
  | .inst i => h'.instances[i]? = h.instances[i]?
  | .native p => h'.natives[p]? = h.natives[p]?
  | .cls c => (h'.classes[c]?).map (·.name) = (h.classes[c]?).map (·.name)

/-- … in this place and in all that can be reached from it. -/
def SameBehind (h h' : Heap) (p : Place) : Prop := ∀ q, h.Reaches p q → h.SameAt h' q

/-- … in all that can be reached from a value. -/
def SameFrom (h h' : Heap) (v : Value) : Prop := ∀ p ∈ v.place?, h.SameBehind h' p

variable {h h' : Heap}

theorem SameAt.refl (h : Heap) : ∀ p, h.SameAt h p
  | .list _ | .node _ | .data _ | .inst _ | .native _ | .cls _ => rfl

theorem SameFrom.refl (h : Heap) (v : Value) : h.SameFrom h v := fun _ _ q _ => SameAt.refl h q

/-- Variables are no places. -/
theorem sameFrom_of_frames (h : Heap) (frames : List (List EnvEntry)) (v : Value) :
    h.SameFrom { h with frames := frames } v := by
  intro p _ q _
  cases q <;> rfl

theorem sameFrom_of_scalar {v : Value} (hv : v.place? = none) : h.SameFrom h' v := by
  intro p hp
  rw [hv] at hp
  cases hp

theorem SameBehind.sameAt {p : Place} (hp : h.SameBehind h' p) : h.SameAt h' p := hp p .refl

theorem SameBehind.next {p q : Place} (hp : h.SameBehind h' p) (hq : q ∈ h.refs p) :
    h.SameBehind h' q :=
  fun r hr => hp r (.head hq hr)

theorem SameBehind.value {p : Place} (hp : h.SameBehind h' p) {v : Value}
    (hv : ∀ q ∈ v.place?, q ∈ h.refs p) : h.SameFrom h' v :=
  fun q hq => hp.next (hv q hq)

/-! ### Lists -/

theorem SameBehind.node_item {p : ℕ} (hp : h.SameBehind h' (.node p)) {node : ListNode}
    (hnode : h.nodes[p]? = some node) : h.SameFrom h' node.item := by
  refine hp.value fun q hq => ?_
  rw [refs, hnode]
  exact List.mem_append_left _ (Option.mem_toList.mpr hq)

theorem SameBehind.node_next {p q : ℕ} (hp : h.SameBehind h' (.node p)) {node : ListNode}
    (hnode : h.nodes[p]? = some node) (hnext : node.next = some q) :
    h.SameBehind h' (.node q) := by
  refine hp.next ?_
  rw [refs, hnode]
  refine List.mem_append_right _ ?_
  rw [hnext]
  exact List.mem_singleton_self _

theorem SameFrom.listHead {l : ℕ} (hl : h.SameFrom h' (.list l)) :
    h'.listHead l = h.listHead l ∧
      ∀ p, h.listHead l = some p → h.SameBehind h' (.node p) := by
  have hplace : h.SameBehind h' (.list l) := hl _ rfl
  have hsame : h'.lists[l]? = h.lists[l]? := hplace.sameAt
  refine ⟨?_, fun p hp => hplace.next ?_⟩
  · rw [Heap.listHead, Heap.listHead, List.getD_eq_getElem?_getD, List.getD_eq_getElem?_getD, hsame]
  · rw [refs, hp]
    exact List.mem_singleton_self _

/-- The node at an index, and what can be reached from it. -/
theorem nodeAt_same {idx : ℤ} {n n' : ℕ} (hn : n ≤ n') {cur : Option ℕ} {k : ℤ}
    {found : Option ℕ} (hcur : ∀ p ∈ cur, h.SameBehind h' (.node p))
    (hfound : h.nodeAt idx n cur k = some found) :
    h'.nodeAt idx n' cur k = some found ∧ ∀ p ∈ found, h.SameBehind h' (.node p) := by
  induction n generalizing n' cur k with
  | zero =>
    cases cur with
    | none =>
      obtain rfl := Option.some.inj hfound
      exact ⟨by cases n' <;> rfl, nofun⟩
    | some p => cases hfound
  | succ n ih =>
    cases cur with
    | none =>
      obtain rfl := Option.some.inj hfound
      exact ⟨by cases n' <;> rfl, nofun⟩
    | some p =>
      obtain ⟨n', rfl⟩ : ∃ m, n' = m + 1 := ⟨n' - 1, by omega⟩
      have hp := hcur p rfl
      have hsame : h'.nodes[p]? = h.nodes[p]? := hp.sameAt
      rw [Heap.nodeAt] at hfound ⊢
      rw [hsame]
      cases hnode : h.nodes[p]? with
      | none =>
        rw [hnode] at hfound
        cases hfound
      | some node =>
        rw [hnode] at hfound
        dsimp only at hfound ⊢
        split_ifs at hfound ⊢ with hk
        · obtain rfl := Option.some.inj hfound
          exact ⟨rfl, fun q hq => Option.some.inj hq ▸ hp⟩
        · exact ih (Nat.le_of_succ_le_succ hn) (fun q hq => hp.node_next hnode hq) hfound

/-- The items from a node on. -/
theorem itemsFrom_same {n n' : ℕ} (hn : n ≤ n') {cur : Option ℕ} {items : List Value}
    (hcur : ∀ p ∈ cur, h.SameBehind h' (.node p)) (hitems : h.itemsFrom n cur = some items) :
    h'.itemsFrom n' cur = some items ∧ ∀ v ∈ items, h.SameFrom h' v := by
  induction n generalizing n' cur items with
  | zero =>
    cases cur with
    | none =>
      obtain rfl := Option.some.inj hitems
      exact ⟨by cases n' <;> rfl, nofun⟩
    | some p => cases hitems
  | succ n ih =>
    cases cur with
    | none =>
      obtain rfl := Option.some.inj hitems
      exact ⟨by cases n' <;> rfl, nofun⟩
    | some p =>
      obtain ⟨n', rfl⟩ : ∃ m, n' = m + 1 := ⟨n' - 1, by omega⟩
      have hp := hcur p rfl
      have hsame : h'.nodes[p]? = h.nodes[p]? := hp.sameAt
      rw [itemsFrom] at hitems ⊢
      rw [hsame]
      cases hnode : h.nodes[p]? with
      | none =>
        rw [hnode] at hitems
        cases hitems
      | some node =>
        rw [hnode] at hitems
        obtain ⟨rest, hrest, rfl⟩ := Option.map_eq_some_iff.mp hitems
        obtain ⟨hsame', hvalues⟩ := ih (Nat.le_of_succ_le_succ hn)
          (fun q hq => hp.node_next hnode hq) hrest
        refine ⟨congrArg (Option.map (node.item :: ·)) hsame', fun v hv => ?_⟩
        rcases List.mem_cons.mp hv with rfl | hv
        · exact hp.node_item hnode
        · exact hvalues v hv

/-! ### Data values, instances and tasks -/

theorem SameFrom.data {d : ℕ} (hd : h.SameFrom h' (.data d)) :
    h'.data d = h.data d ∧ ∀ e ∈ h.data d, h.SameFrom h' e.2 := by
  have hplace : h.SameBehind h' (.data d) := hd _ rfl
  have hsame : h'.datas[d]? = h.datas[d]? := hplace.sameAt
  refine ⟨?_, fun e he => hplace.value fun q hq => List.mem_filterMap.mpr ⟨e, he, hq⟩⟩
  rw [Heap.data, Heap.data, List.getD_eq_getElem?_getD, List.getD_eq_getElem?_getD, hsame]

theorem SameFrom.dataGet {d : ℕ} (hd : h.SameFrom h' (.data d)) (key : Text) :
    dataGet (h'.data d) key = dataGet (h.data d) key ∧
      ∀ v ∈ Jaguar.dataGet (h.data d) key, h.SameFrom h' v := by
  obtain ⟨hsame, hvalues⟩ := hd.data
  refine ⟨by rw [hsame], fun v hv => ?_⟩
  obtain ⟨e, he, rfl⟩ := mem_of_dataGet hv
  exact hvalues e he

theorem SameFrom.inst {i : ℕ} (hi : h.SameFrom h' (.inst i)) :
    h'.instances[i]? = h.instances[i]? ∧ ∀ inst, h.instances[i]? = some inst →
      h.SameFrom h' (.data inst.fields) ∧ h.SameAt h' (.cls inst.classInfo) := by
  have hplace : h.SameBehind h' (.inst i) := hi _ rfl
  refine ⟨hplace.sameAt, fun inst hinst => ⟨hplace.value fun q hq => ?_, ?_⟩⟩
  · obtain rfl := Option.some.inj hq
    rw [refs, hinst]
    exact List.mem_cons_self
  · refine (hplace.next ?_).sameAt
    rw [refs, hinst]
    exact List.mem_cons_of_mem _ List.mem_cons_self

theorem SameFrom.task {p : ℕ} (hp : h.SameFrom h' (.native p)) :
    h'.natives[p]? = h.natives[p]? ∧
      ∀ v, h.natives[p]? = some (.task (.ok v)) → h.SameFrom h' v := by
  have hplace : h.SameBehind h' (.native p) := hp _ rfl
  refine ⟨hplace.sameAt, fun v hv => hplace.value fun q hq => ?_⟩
  rw [refs, hv]
  exact Option.mem_toList.mpr hq

/-! ### What a value shows -/

theorem SameFrom.isTruthy {v : Value} (hv : h.SameFrom h' v) : h'.isTruthy v = h.isTruthy v := by
  cases v with
  | list l => exact congrArg Option.isSome hv.listHead.1
  | data d => exact congrArg (fun es => !List.isEmpty es) hv.data.1
  | _ => rfl

theorem mapM_same {α β : Type} {f g : α → Option β} {as : List α} {bs : List β}
    (hfg : ∀ a ∈ as, ∀ b, f a = some b → g a = some b) (h : as.mapM f = some bs) :
    as.mapM g = some bs := by
  induction as generalizing bs with
  | nil => exact h
  | cons a as ih =>
    rw [List.mapM_cons] at h ⊢
    obtain ⟨b, hb, h⟩ := Option.bind_eq_some_iff.mp h
    obtain ⟨rest, hrest, hbs⟩ := Option.bind_eq_some_iff.mp h
    rw [hfg a List.mem_cons_self b hb,
      ih (fun a' ha' => hfg a' (List.mem_cons_of_mem _ ha')) hrest]
    exact hbs

/-- **The text of a value.** -/
theorem SameFrom.displayString {n n' : ℕ} (hn : n ≤ n') {v : Value} (hv : h.SameFrom h' v)
    {text : Text} (htext : h.displayString n v = some text) :
    h'.displayString n' v = some text := by
  induction n generalizing n' v text with
  | zero => cases htext
  | succ n ih =>
    obtain ⟨n', rfl⟩ : ∃ m, n' = m + 1 := ⟨n' - 1, by omega⟩
    have hn := Nat.le_of_succ_le_succ hn
    cases v with
    | cls c =>
      have hname : (h'.classes[c]?).map (·.name) = (h.classes[c]?).map (·.name) := (hv _ rfl).sameAt
      obtain ⟨ci, hci, rfl⟩ := Option.map_eq_some_iff.mp htext
      rw [hci] at hname
      obtain ⟨ci', hci', heq⟩ := Option.map_eq_some_iff.mp hname
      show (h'.classes[c]?).map _ = _
      rw [hci', Option.map_some, heq]
    | inst i =>
      obtain ⟨hsame, hinst⟩ := hv.inst
      obtain ⟨inst, hi, htext⟩ := Option.bind_eq_some_iff.mp htext
      obtain ⟨ci, hci, htext⟩ := Option.bind_eq_some_iff.mp htext
      obtain ⟨fields, hfields, htext⟩ := Option.bind_eq_some_iff.mp htext
      obtain ⟨hdata, hname⟩ := hinst inst hi
      obtain ⟨ci', hci', heq⟩ := Option.map_eq_some_iff.mp
        (Eq.trans (show (h'.classes[inst.classInfo]?).map (·.name) = _ from hname)
          (congrArg (Option.map (·.name)) hci))
      refine Option.bind_eq_some_iff.mpr ⟨inst, hsame.trans hi, ?_⟩
      refine Option.bind_eq_some_iff.mpr ⟨ci', hci', ?_⟩
      refine Option.bind_eq_some_iff.mpr ⟨fields, ih hn hdata hfields, ?_⟩
      rw [heq]
      exact htext
    | list l =>
      obtain ⟨hhead, hnodes⟩ := hv.listHead
      obtain ⟨items, hitems, htext⟩ := Option.bind_eq_some_iff.mp htext
      obtain ⟨texts, htexts, htext⟩ := Option.bind_eq_some_iff.mp htext
      obtain ⟨hsame, hvalues⟩ := itemsFrom_same hn hnodes hitems
      refine Option.bind_eq_some_iff.mpr ⟨items, hhead ▸ hsame, ?_⟩
      exact Option.bind_eq_some_iff.mpr
        ⟨texts, mapM_same (fun w hw t ht => ih hn (hvalues w hw) ht) htexts, htext⟩
    | data d =>
      obtain ⟨hsame, hvalues⟩ := hv.data
      obtain ⟨texts, htexts, htext⟩ := Option.bind_eq_some_iff.mp htext
      show (h'.data d).mapM _ >>= _ = _
      rw [hsame]
      refine Option.bind_eq_some_iff.mpr ⟨texts, mapM_same (fun e he t ht => ?_) htexts, htext⟩
      obtain ⟨shown, hshown, ht⟩ := Option.bind_eq_some_iff.mp ht
      exact Option.bind_eq_some_iff.mpr ⟨shown, ih hn (hvalues e he) hshown, ht⟩
    | _ => exact htext

end Heap

end Jaguar
