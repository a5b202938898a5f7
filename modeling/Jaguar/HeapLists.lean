/-
The lists of the memory, as chains of nodes.

A list refers to its first node and a node to the next one, until `.delete` frees it.

* `Heap.Linked` — each node that is not freed is referred to at most once, and only such
  nodes are;
* `Heap.HasNodes`, `Heap.itemsFrom_eq` — the nodes of a list, and its items;
* `Linked.append`, `Linked.setItems` — `value_list_append`, and what `.sort()` builds;
* `session_linked` — **so it is in every state of every run**.
-/
import Jaguar.Chains
import Jaguar.Sessions
import Mathlib.Data.List.GetD

namespace Jaguar

open Chains

namespace Heap

/-! ### Chains -/

/-- The node is there, and not freed. -/
def Live (h : Heap) (p : ℕ) : Prop := ∃ node, h.nodes[p]? = some node ∧ node.freed = false

/-- What a list or a node refers to. -/
def ref (h : Heap) (x : ℕ ⊕ ℕ) : Option ℕ :=
  match x with
  | .inl l => h.listHead l
  | .inr p => (h.nodes[p]?).bind fun node => if node.freed then none else node.next

def Linked (h : Heap) : Prop := Unshared h.Live h.ref

/-- The nodes of a list. -/
def HasNodes (h : Heap) (l : ℕ) (ps : List ℕ) : Prop := IsChain h.ref (.inl l) ps

def itemAt (h : Heap) (p : ℕ) : Value := (h.nodes[p]?).elim .void (·.item)

theorem Live.lt {h : Heap} {p : ℕ} (hp : h.Live p) : p < h.nodes.length := by
  obtain ⟨node, hnode, -⟩ := hp
  exact (List.getElem?_eq_some_iff.mp hnode).1

theorem ref_node {h : Heap} {p : ℕ} {node : ListNode} (hnode : h.nodes[p]? = some node)
    (hfreed : node.freed = false) : h.ref (.inr p) = node.next := by
  simp [ref, hnode, hfreed]

theorem Linked.exists_hasNodes {h : Heap} (hl : h.Linked) (l : ℕ) : ∃ ps, h.HasNodes l ps :=
  hl.exists_chain (fun _ hp => hp.lt) l

theorem Linked.length_le {h : Heap} (hl : h.Linked) {l : ℕ} {ps : List ℕ} (hps : h.HasNodes l ps) :
    ps.length ≤ h.nodes.length := by
  obtain ⟨y, hpath, -⟩ := hps
  exact Unshared.length_le hl (fun _ hp => hp.lt) hpath

/-- The items from a place on are those of the nodes a walk meets. -/
theorem itemsFrom_path {h : Heap} (hl : h.Linked) {ps : List ℕ} {x y : ℕ ⊕ ℕ}
    (hpath : Path h.ref x ps y) (hend : h.ref y = none) {n : ℕ} (hn : ps.length ≤ n) :
    h.itemsFrom n (h.ref x) = some (ps.map h.itemAt) := by
  induction ps generalizing x n with
  | nil =>
    obtain rfl : x = y := hpath
    rw [hend]
    cases n <;> rfl
  | cons p ps ih =>
    obtain ⟨n, rfl⟩ := Nat.exists_eq_succ_of_ne_zero (Nat.ne_of_gt (Nat.lt_of_lt_of_le
      (Nat.succ_pos _) hn))
    obtain ⟨hp, hrest⟩ := hpath
    obtain ⟨node, hnode, hfreed⟩ := hl.isLive hp
    rw [hp, itemsFrom, hnode]
    show Option.map _ (h.itemsFrom n node.next) = _
    rw [← ref_node hnode hfreed, ih hrest (Nat.le_of_succ_le_succ hn), Option.map_some,
      List.map_cons, itemAt, hnode]
    rfl

/-- The items of a list. -/
def Items (h : Heap) (l : ℕ) (items : List Value) : Prop :=
  h.itemsFrom h.nodes.length (h.listHead l) = some items

theorem Linked.items {h : Heap} (hl : h.Linked) {l : ℕ} {ps : List ℕ} (hps : h.HasNodes l ps) :
    h.Items l (ps.map h.itemAt) := by
  obtain ⟨y, hpath, hend⟩ := hps
  exact itemsFrom_path hl hpath hend (hl.length_le ⟨y, hpath, hend⟩)

/-- **Every list has its items.** -/
theorem Linked.exists_items {h : Heap} (hl : h.Linked) (l : ℕ) : ∃ items, h.Items l items := by
  obtain ⟨ps, hps⟩ := hl.exists_hasNodes l
  exact ⟨_, hl.items hps⟩

/-- Two memories with the same nodes and the same heads. -/
theorem ref_congr {h h' : Heap} (hlists : h'.lists = h.lists) (hnodes : h'.nodes = h.nodes) :
    h'.ref = h.ref := by
  funext x
  cases x with
  | inl l => exact congrArg (·.getD l none) hlists
  | inr p => simp only [ref, hnodes]

theorem live_congr {h h' : Heap} (hnodes : h'.nodes = h.nodes) : h'.Live = h.Live := by
  funext p
  simp only [Live, hnodes]

theorem Linked.congr {h h' : Heap} (hl : h.Linked) (hlists : h'.lists = h.lists)
    (hnodes : h'.nodes = h.nodes) : h'.Linked := by
  unfold Linked
  rw [ref_congr hlists hnodes, live_congr hnodes]
  exact hl

/-! ### Single changes -/

theorem listHead_setHead (h : Heap) (l : ℕ) (p : Option ℕ) (m : ℕ) :
    (h.setHead l p).listHead m
      = if m = l ∧ l < h.lists.length then p else h.listHead m := by
  show (h.lists.set l p).getD m none = _
  rw [List.getD_eq_getElem?_getD, List.getElem?_set]
  by_cases hm : l = m
  · subst hm
    by_cases hlt : l < h.lists.length
    · simp [hlt]
    · simp [hlt, listHead, List.getD_eq_getElem?_getD]
  · simp [hm, Ne.symm hm, listHead, List.getD_eq_getElem?_getD]

theorem getElem?_newNode (h : Heap) (item : Value) (next : Option ℕ) (p : ℕ) :
    (h.newNode item next).nodes[p]?
      = if p = h.nodes.length then some ⟨item, next, false⟩ else h.nodes[p]? := by
  show (h.nodes ++ [_])[p]? = _
  rw [List.getElem?_append]
  split_ifs with hlt heq heq
  · omega
  · rfl
  · simp [heq]
  · rw [List.getElem?_eq_none (by simp; omega), List.getElem?_eq_none (by omega)]

theorem getElem?_setNext (h : Heap) (q : ℕ) (next : Option ℕ) (p : ℕ) :
    (h.setNext q next).nodes[p]? = if p = q
      then (h.nodes[p]?).map fun node => { node with next := next } else h.nodes[p]? := by
  show (h.nodes.modify q _)[p]? = _
  rw [List.getElem?_modify]
  by_cases hp : p = q
  · rw [if_pos hp]
    simp only [hp, if_true, Option.map_eq_map]
  · rw [if_neg hp]
    simp only [Ne.symm hp, if_false, Option.map_eq_map, Option.map_id']

theorem getElem?_freeNode (h : Heap) (q p : ℕ) :
    (h.freeNode q).nodes[p]? = if p = q
      then (h.nodes[p]?).map fun node => { node with freed := true } else h.nodes[p]? := by
  show (h.nodes.modify q _)[p]? = _
  rw [List.getElem?_modify]
  by_cases hp : p = q
  · rw [if_pos hp]
    simp only [hp, if_true, Option.map_eq_map]
  · rw [if_neg hp]
    simp only [Ne.symm hp, if_false, Option.map_eq_map, Option.map_id']

theorem ref_newNode (h : Heap) (item : Value) (next : Option ℕ) (p : ℕ) :
    (h.newNode item next).ref (.inr p)
      = if p = h.nodes.length then next else h.ref (.inr p) := by
  simp only [ref, getElem?_newNode]
  split_ifs <;> rfl

theorem live_newNode (h : Heap) (item : Value) (next : Option ℕ) (p : ℕ) :
    (h.newNode item next).Live p ↔ h.Live p ∨ p = h.nodes.length := by
  simp only [Live, getElem?_newNode]
  split_ifs with hp
  · exact iff_of_true ⟨_, rfl, rfl⟩ (.inr hp)
  · exact (or_iff_left hp).symm

theorem ref_setNext (h : Heap) {q : ℕ} (hq : h.Live q) (next : Option ℕ) (p : ℕ) :
    (h.setNext q next).ref (.inr p) = if p = q then next else h.ref (.inr p) := by
  simp only [ref, getElem?_setNext]
  split_ifs with hp
  · subst hp
    obtain ⟨node, hnode, hfreed⟩ := hq
    simp [hnode, hfreed]
  · rfl

theorem live_setNext (h : Heap) (q : ℕ) (next : Option ℕ) (p : ℕ) :
    (h.setNext q next).Live p ↔ h.Live p := by
  simp only [Live, getElem?_setNext]
  split_ifs with hp
  · cases h.nodes[p]? <;> simp
  · exact Iff.rfl

theorem ref_freeNode (h : Heap) (q p : ℕ) :
    (h.freeNode q).ref (.inr p) = if p = q then none else h.ref (.inr p) := by
  simp only [ref, getElem?_freeNode]
  split_ifs with hp
  · cases h.nodes[p]? <;> simp
  · rfl

theorem live_freeNode (h : Heap) (q p : ℕ) : (h.freeNode q).Live p ↔ h.Live p ∧ p ≠ q := by
  simp only [Live, getElem?_freeNode]
  split_ifs with hp
  · cases h.nodes[p]? <;> simp [hp]
  · exact (and_iff_left hp).symm

/-! ### What the methods of a list do -/

section Edits

variable {h h' : Heap} {l : ℕ} {item : Value}

/-- A new node at the head of a list. -/
theorem Linked.push (hl : h.Linked) (hlt : l < h.lists.length) (item : Value) :
    ((h.newNode item (h.listHead l)).setHead l (some h.nodes.length)).Linked := by
  have hhead := listHead_setHead (h.newNode item (h.listHead l)) l (some h.nodes.length)
  refine Unshared.insert (y := .inl l) (c := h.nodes.length) hl (live_newNode h item _)
    (fun hlive => absurd hlive.lt (Nat.lt_irrefl _)) nofun ?_ ?_ ?_
  · exact (hhead l).trans (if_pos ⟨rfl, hlt⟩)
  · exact (ref_newNode h item _ _).trans (if_pos rfl)
  · intro z hz hnew
    cases z with
    | inl m => exact (hhead m).trans (if_neg fun hm => hz (congrArg _ hm.1))
    | inr p => exact (ref_newNode h item _ p).trans (if_neg fun hp => hnew (congrArg _ hp))

/-- A new node that nothing refers to: there is no such list. -/
theorem Linked.stray (hl : h.Linked) (hlt : ¬ l < h.lists.length) (item : Value) :
    ((h.newNode item none).setHead l (some h.nodes.length)).Linked := by
  refine Unshared.grow hl (fun z => ?_) fun p hp => (live_newNode h item none p).mpr (.inl hp)
  cases z with
  | inl m => exact (listHead_setHead _ l _ m).trans (if_neg fun hm => hlt hm.2)
  | inr p =>
    refine (ref_newNode h item none p).trans ?_
    split_ifs with hp
    · exact (hl.dead fun hlive => absurd hlive.lt (by omega)).symm
    · rfl

/-- A new node behind a node that is the last. -/
theorem Linked.behind (hl : h.Linked) {q : ℕ} (hq : h.Live q) (hlast : h.ref (.inr q) = none)
    (item : Value) : ((h.newNode item none).setNext q (some h.nodes.length)).Linked := by
  have hq' : (h.newNode item none).Live q := (live_newNode h item none q).mpr (.inl hq)
  have hne : h.nodes.length ≠ q := fun heq => absurd hq.lt (heq ▸ Nat.lt_irrefl _)
  refine Unshared.insert (y := .inr q) (c := h.nodes.length) hl
    (fun p => (live_setNext _ q _ p).trans (live_newNode h item none p))
    (fun hlive => absurd hlive.lt (Nat.lt_irrefl _)) (fun p heq => Sum.inr.inj heq ▸ hq) ?_ ?_ ?_
  · exact (ref_setNext _ hq' _ q).trans (if_pos rfl)
  · rw [ref_setNext _ hq', if_neg hne, ref_newNode, if_pos rfl, hlast]
  · intro z hz hnew
    cases z with
    | inl m => rfl
    | inr p =>
      rw [ref_setNext _ hq', if_neg fun heq => hz (congrArg _ heq), ref_newNode,
        if_neg fun heq => hnew (congrArg _ heq)]

/-- `lastNode` follows the chain to its end. -/
theorem Linked.lastNode_spec {n q last : ℕ} (hl : h.Linked) (hq : h.Live q)
    (heq : h.lastNode n q = some last) : h.Live last ∧ h.ref (.inr last) = none := by
  induction n generalizing q with
  | zero => cases heq
  | succ n ih =>
    obtain ⟨node, hnode, hfreed⟩ := hq
    have href := ref_node hnode hfreed
    rw [lastNode, hnode] at heq
    cases hnext : node.next with
    | none =>
      simp only [hnext, Option.some.injEq] at heq
      exact heq ▸ ⟨⟨node, hnode, hfreed⟩, href.trans hnext⟩
    | some p =>
      simp only [hnext] at heq
      exact ih (hl.isLive (href.trans hnext)) heq

theorem Linked.listAppend {n : ℕ} (hl : h.Linked) (heq : h.listAppend n l item = some h') :
    h'.Linked := by
  unfold Heap.listAppend at heq
  cases hhead : h.listHead l with
  | none =>
    simp only [hhead, Option.some.injEq] at heq
    subst heq
    by_cases hlt : l < h.lists.length
    · exact hhead ▸ hl.push hlt item
    · exact hl.stray hlt item
  | some first =>
    simp only [hhead, Option.map_eq_some_iff] at heq
    obtain ⟨last, hlast, rfl⟩ := heq
    have hfirst : h.Live first := hl.isLive (x := .inl l) hhead
    obtain ⟨hlive, hend⟩ := hl.lastNode_spec hfirst hlast
    exact hl.behind hlive hend item

theorem Linked.listInsertFront (hl : h.Linked) (l : ℕ) (item : Value) :
    (h.listInsertFront l item).Linked := by
  by_cases hlt : l < h.lists.length
  · exact hl.push hlt item
  · have hnone : h.listHead l = none := List.getD_eq_default _ _ (Nat.le_of_not_lt hlt)
    unfold Heap.listInsertFront
    rw [hnone]
    exact hl.stray hlt item

/-- Where `.delete` stands: behind a node, or at the head of the list. -/
def place (l : ℕ) (prev : Option ℕ) : ℕ ⊕ ℕ := prev.elim (.inl l) .inr

theorem lt_of_listHead {p : ℕ} (hp : h.listHead l = some p) : l < h.lists.length := by
  by_contra hge
  have hnone : h.listHead l = none := List.getD_eq_default _ _ (Nat.le_of_not_lt hge)
  exact absurd (hnone.symm.trans hp) nofun

/-- The node `p` is taken out of the chain, behind `prev`. -/
theorem Linked.remove {ps : List ℕ} {prev : Option ℕ} {p : ℕ} {node : ListNode}
    (hl : h.Linked) (hpath : Path h.ref (.inl l) ps (place l prev))
    (hp : h.ref (place l prev) = some p) (hnode : h.nodes[p]? = some node) :
    ((match prev with
      | some q => h.setNext q node.next
      | none => h.setHead l node.next).freeNode p).Linked := by
  have hnext : h.ref (.inr p) = node.next := by
    obtain ⟨node', hnode', hfreed⟩ := hl.isLive hp
    obtain rfl := Option.some.inj (hnode.symm.trans hnode')
    exact ref_node hnode hfreed
  -- the walk does not come back to where it stands
  have hne : place l prev ≠ .inr p := by
    intro heq
    have hlength := congrArg List.length (Unshared.path_eq hl (heq ▸ hpath) (hpath.snoc hp)).2
    rw [List.length_append, List.length_singleton] at hlength
    omega
  cases prev with
  | none =>
    have hhead := listHead_setHead h l node.next
    refine Unshared.unlink hl (live_freeNode (h.setHead l node.next) p) hp hne ?_ ?_ ?_
    · exact ((hhead l).trans (if_pos ⟨rfl, lt_of_listHead hp⟩)).trans hnext.symm
    · exact (ref_freeNode _ p p).trans (if_pos rfl)
    · intro z hz hzp
      cases z with
      | inl m => exact (hhead m).trans (if_neg fun hm => hz (congrArg _ hm.1))
      | inr r => exact (ref_freeNode _ p r).trans (if_neg fun hr => hzp (congrArg _ hr))
  | some q =>
    have hq : h.Live q := Unshared.held_of_ref hl hp q rfl
    have hqp : q ≠ p := fun heq => hne (congrArg _ heq)
    refine Unshared.unlink hl (fun r => ?_) hp hne ?_ ?_ ?_
    · exact (live_freeNode _ p r).trans (and_congr_left' (live_setNext h q _ r))
    · show ((h.setNext q node.next).freeNode p).ref (.inr q) = _
      rw [ref_freeNode, if_neg hqp, ref_setNext h hq, if_pos rfl, hnext]
    · exact (ref_freeNode _ p p).trans (if_pos rfl)
    · intro z hz hzp
      cases z with
      | inl m => rfl
      | inr r =>
        show ((h.setNext q node.next).freeNode p).ref (.inr r) = _
        rw [ref_freeNode, if_neg fun hr => hzp (congrArg _ hr), ref_setNext h hq,
          if_neg fun hr => hz (congrArg _ hr)]

/-- **The loop of `.delete`**: it frees the node at the index, if there is one. -/
theorem Linked.listDelete {idx : ℤ} {n : ℕ} {ps : List ℕ} {prev cur : Option ℕ} {i : ℤ}
    (hl : h.Linked) (hpath : Path h.ref (.inl l) ps (place l prev))
    (hcur : h.ref (place l prev) = cur) (heq : h.listDelete l idx n prev cur i = some h') :
    h'.Linked ∧ ∀ p, h.Live p → (h'.Live p ↔ h.nodeAt idx n cur i ≠ some (some p)) := by
  induction n generalizing ps prev cur i with
  | zero =>
    cases cur with
    | none =>
      obtain rfl := Option.some.inj heq
      exact ⟨hl, fun p hp => iff_of_true hp nofun⟩
    | some p => cases heq
  | succ n ih =>
    cases cur with
    | none =>
      obtain rfl := Option.some.inj heq
      exact ⟨hl, fun p hp => iff_of_true hp nofun⟩
    | some p =>
      obtain ⟨node, hnode, hfreed⟩ := hl.isLive hcur
      have hnext := ref_node hnode hfreed
      rw [Heap.listDelete, hnode] at heq
      rw [nodeAt, hnode]
      simp only at heq ⊢
      by_cases hi : i = idx
      · rw [if_pos hi] at heq
        obtain rfl := Option.some.inj heq
        refine ⟨hl.remove hpath hcur hnode, fun r hr => ?_⟩
        have hone : some (some p) ≠ some (some r) ↔ r ≠ p := by
          rw [ne_eq, Option.some.injEq, Option.some.injEq, eq_comm]
        rw [if_pos hi, hone, live_freeNode]
        cases prev with
        | none => exact and_iff_right hr
        | some q => exact and_iff_right ((live_setNext h q node.next r).mpr hr)
      · rw [if_neg hi] at heq
        rw [if_neg hi]
        have hpath' : Path h.ref (.inl l) (ps ++ [p]) (place l (some p)) := hpath.snoc hcur
        exact ih hpath' hnext heq

/-! ### A list of new nodes -/

/-- The node at `p` of a new list. -/
def freshNode (h : Heap) (items : List Value) (p : ℕ) (v : Value) : ListNode :=
  ⟨v, if p + 1 < h.nodes.length + items.length then some (p + 1) else none, false⟩

theorem getElem?_newNodes (h : Heap) (l : ℕ) (items : List Value) (p : ℕ) :
    (h.newNodes l items).nodes[p]? = if p < h.nodes.length then h.nodes[p]?
      else (items[p - h.nodes.length]?).map (h.freshNode items p) := by
  show (h.nodes ++ items.mapIdx _)[p]? = _
  rw [List.getElem?_append, List.getElem?_mapIdx]
  by_cases hp : p < h.nodes.length
  · rw [if_pos hp, if_pos hp]
  · rw [if_neg hp, if_neg hp]
    cases hitem : items[p - h.nodes.length]? with
    | none => rfl
    | some v =>
      have hlt := (List.getElem?_eq_some_iff.mp hitem).1
      have hnext : h.nodes.length + (p - h.nodes.length) + 1 = p + 1 := by omega
      simp only [Option.map_some, freshNode, hnext]
      by_cases hlast : p - h.nodes.length + 1 = items.length
      · rw [if_pos hlast, if_neg (by omega)]
      · rw [if_neg hlast, if_pos (by omega)]

/-- The nodes of the new list. -/
def Fresh (h : Heap) (items : List Value) (p : ℕ) : Prop :=
  h.nodes.length ≤ p ∧ p < h.nodes.length + items.length

theorem fresh_newNodes {items : List Value} {p : ℕ} (hp : h.Fresh items p) (l : ℕ) :
    ∃ v, items[p - h.nodes.length]? = some v ∧
      (h.newNodes l items).nodes[p]? = some (h.freshNode items p v) := by
  obtain ⟨hge, hlt⟩ := hp
  have hitem := List.getElem?_eq_getElem (show p - h.nodes.length < items.length by omega)
  refine ⟨_, hitem, ?_⟩
  rw [getElem?_newNodes, if_neg (Nat.not_lt_of_le hge), hitem]
  rfl

theorem old_newNodes {items : List Value} {p : ℕ} (hp : ¬ h.Fresh items p) (l : ℕ) :
    (h.newNodes l items).nodes[p]? = h.nodes[p]? := by
  rw [getElem?_newNodes]
  split_ifs with hlt
  · rfl
  · have hge : items.length ≤ p - h.nodes.length := by
      by_contra hlt'
      exact hp ⟨by omega, by omega⟩
    rw [List.getElem?_eq_none hge, List.getElem?_eq_none (Nat.le_of_not_lt hlt)]
    rfl

theorem live_newNodes (h : Heap) (l : ℕ) (items : List Value) (p : ℕ) :
    (h.newNodes l items).Live p ↔ h.Live p ∨ h.Fresh items p := by
  by_cases hp : h.Fresh items p
  · obtain ⟨v, -, hnode⟩ := fresh_newNodes hp l
    exact iff_of_true ⟨_, hnode, rfl⟩ (.inr hp)
  · rw [or_iff_left hp]
    simp only [Live, old_newNodes hp]

theorem ref_fresh {items : List Value} {p : ℕ} (hp : h.Fresh items p) (l : ℕ) :
    (h.newNodes l items).ref (.inr p)
      = if p + 1 < h.nodes.length + items.length then some (p + 1) else none := by
  obtain ⟨v, -, hnode⟩ := fresh_newNodes hp l
  exact ref_node hnode rfl

theorem ref_newNodes_head (h : Heap) (l : ℕ) (items : List Value) (m : ℕ) :
    (h.newNodes l items).ref (.inl m) = if m = l ∧ l < h.lists.length then
      (if items = [] then none else some h.nodes.length) else h.ref (.inl m) :=
  listHead_setHead _ l _ m

/-- The items of the new list, from its `j`-th node on. -/
theorem itemsFrom_fresh (l : ℕ) {items : List Value} {n j : ℕ} (hj : j ≤ items.length)
    (hn : items.length ≤ n + j) :
    (h.newNodes l items).itemsFrom n (if j < items.length then some (h.nodes.length + j) else none)
      = some (items.drop j) := by
  induction n generalizing j with
  | zero =>
    rw [if_neg (by omega), List.drop_of_length_le (by omega)]
    rfl
  | succ n ih =>
    by_cases hlt : j < items.length
    · obtain ⟨v, hv, hnode⟩ := fresh_newNodes (h := h) (p := h.nodes.length + j)
        ⟨Nat.le_add_right _ _, Nat.add_lt_add_left hlt _⟩ l
      rw [Nat.add_sub_cancel_left] at hv
      have hnext : (h.freshNode items (h.nodes.length + j) v).next
          = if j + 1 < items.length then some (h.nodes.length + (j + 1)) else none := by
        rw [freshNode, Nat.add_assoc]
        simp only [Nat.add_lt_add_iff_left]
      rw [if_pos hlt, itemsFrom, hnode]
      show Option.map _ ((h.newNodes l items).itemsFrom n _) = _
      rw [hnext, ih hlt (by omega), List.drop_eq_getElem_cons hlt]
      obtain ⟨-, rfl⟩ := List.getElem?_eq_some_iff.mp hv
      rfl
    · rw [if_neg hlt, List.drop_of_length_le (by omega)]
      rfl

theorem items_newNodes {l : ℕ} (hlt : l < h.lists.length) (items : List Value) :
    (h.newNodes l items).Items l items := by
  have hlength : items.length ≤ (h.newNodes l items).nodes.length := by
    show items.length ≤ (h.nodes ++ items.mapIdx _).length
    rw [List.length_append, List.length_mapIdx]
    exact Nat.le_add_left _ _
  have hhead : (h.newNodes l items).listHead l
      = if 0 < items.length then some (h.nodes.length + 0) else none := by
    refine (ref_newNodes_head h l items l).trans ((if_pos ⟨rfl, hlt⟩).trans ?_)
    cases items <;> rfl
  unfold Items
  rw [hhead]
  exact itemsFrom_fresh l (Nat.zero_le _) hlength

theorem Linked.newNodes (hl : h.Linked) (l : ℕ) (items : List Value) :
    (h.newNodes l items).Linked := by
  have hhead := ref_newNodes_head h l items
  -- the list itself refers to the first new node, if there is such a list and such a node
  have hfirst : ∀ {p}, (h.newNodes l items).ref (.inl l) = some p →
      p = h.nodes.length ∧ h.Fresh items p := by
    intro p hp
    rw [hhead] at hp
    split_ifs at hp with hlt hitems
    · obtain rfl := Option.some.inj hp
      exact ⟨rfl, Nat.le_refl _, Nat.lt_add_of_pos_right (List.length_pos_iff.mpr hitems)⟩
    · exact absurd ⟨rfl, lt_of_listHead hp⟩ hlt
  have hnext : ∀ {c p}, h.Fresh items c → (h.newNodes l items).ref (.inr c) = some p →
      p = c + 1 ∧ h.nodes.length < p ∧ h.Fresh items p := by
    intro c p hc hp
    rw [ref_fresh hc] at hp
    split_ifs at hp with hlt
    obtain rfl := Option.some.inj hp
    exact ⟨rfl, Nat.lt_succ_of_le hc.1, Nat.le_succ_of_le hc.1, hlt⟩
  refine Unshared.replace (r := l) hl (live_newNodes h l items)
    (fun p hp hlive => absurd hlive.lt (Nat.not_lt_of_le hp.1)) ?_ ?_ ?_
  · rintro z p (rfl | ⟨c, hc, rfl⟩) hz
    · exact (hfirst hz).2
    · exact (hnext hc hz).2.2
  · rintro z w p (rfl | ⟨c, hc, rfl⟩) (rfl | ⟨d, hd, rfl⟩) hz hw
    · rfl
    · have hp := (hfirst hz).1
      have hlt := (hnext hd hw).2.1
      omega
    · have hp := (hfirst hw).1
      have hlt := (hnext hc hz).2.1
      omega
    · have hc' := (hnext hc hz).1
      have hd' := (hnext hd hw).1
      exact congrArg _ (by omega)
  · intro z hz hold
    cases z with
    | inl m => exact (hhead m).trans (if_neg fun hm => hz (congrArg _ hm.1))
    | inr p => simp only [ref, old_newNodes (hold p rfl)]

theorem Linked.edits (hl : h.Linked) (hedit : h.Edits l h') : h'.Linked := by
  cases hedit with
  | append item heq => exact hl.listAppend heq
  | insertFront item => exact hl.listInsertFront l item
  | delete idx heq =>
    have hpath : Path h.ref (.inl l) [] (place l none) := rfl
    exact (hl.listDelete hpath rfl heq).1
  | setItems items => exact hl.newNodes l items

theorem Linked.addsLists (hl : h.Linked) (hadds : h.AddsLists h') : h'.Linked := by
  induction hadds with
  | refl => exact hl
  | @add h' items _ ih =>
    refine Linked.newNodes ?_ _ items
    refine Unshared.grow ih (fun z => ?_) fun _ hp => hp
    cases z with
    | inl m =>
      show (h'.lists ++ [none]).getD m none = h'.lists.getD m none
      rcases Nat.lt_or_ge m h'.lists.length with hlt | hge
      · exact List.getD_append _ _ _ _ hlt
      · rw [List.getD_append_right _ _ _ _ hge, List.getD_eq_default _ _ hge]
        cases m - h'.lists.length <;> rfl
    | inr p => rfl
  | other _ hlists hnodes ih => exact ih.congr hlists hnodes

end Edits

theorem getElem?_setItem (h : Heap) (p : ℕ) (v : Value) (q : ℕ) :
    (h.setItem p v).nodes[q]? = if q = p
      then (h.nodes[q]?).map fun node => { node with item := v } else h.nodes[q]? := by
  show (h.nodes.modify p _)[q]? = _
  rw [List.getElem?_modify]
  by_cases hq : q = p
  · rw [if_pos hq]
    simp only [hq, if_true, Option.map_eq_map]
  · rw [if_neg hq]
    simp only [Ne.symm hq, if_false, Option.map_eq_map, Option.map_id']

theorem live_setItem {h : Heap} {q : ℕ} (hq : h.Live q) (p : ℕ) (v : Value) :
    (h.setItem p v).Live q := by
  obtain ⟨node, hnode, hfreed⟩ := hq
  simp only [Live, getElem?_setItem, hnode]
  split_ifs
  · exact ⟨_, rfl, hfreed⟩
  · exact ⟨node, rfl, hfreed⟩

theorem Linked.setItem {h : Heap} (hl : h.Linked) (p : ℕ) (v : Value) :
    (h.setItem p v).Linked := by
  refine Unshared.grow hl (fun z => ?_) fun q hq => live_setItem hq p v
  cases z with
  | inl m => rfl
  | inr q =>
    simp only [ref, getElem?_setItem]
    split_ifs
    · cases h.nodes[q]? <;> rfl
    · rfl

end Heap

/-! ### Runs -/

section Session

variable {ω : Type}

/-- **One step.** -/
theorem Allowed.linked {n₀ : ℕ} {st : Exec.Step (Machine ω) Act} (h : Allowed n₀ st)
    (hl : st.pre.heap.Linked) : st.post.heap.Linked := by
  obtain ⟨label, s, s'⟩ := st
  have hdoes : label.Does s s' := h.1
  cases hdoes with
  | alloc h' _ hadds => exact hl.addsLists hadds
  | setList l h' hedit => exact hl.edits hedit
  | setItem p v => exact hl.setItem p v
  | hoist env list =>
    have hhoist := s.heap.hoists_hoist list env
    exact hl.congr hhoist.lists hhoist.nodes
  | _ => exact hl.congr rfl rfl

/-- A run from a memory with its lists in order. -/
theorem linked_of_chained {n₀ : ℕ} {s s' : Machine ω} {steps : List (Exec.Step (Machine ω) Act)}
    (h : Exec.Chained s steps s') (hs : s.heap.Linked) (hallowed : ∀ st ∈ steps, Allowed n₀ st) :
    (∀ st ∈ steps, st.pre.heap.Linked ∧ st.post.heap.Linked) ∧ s'.heap.Linked := by
  induction h with
  | nil => exact ⟨fun st hst => absurd hst List.not_mem_nil, hs⟩
  | cons _ ih =>
    obtain ⟨hstep, hrest⟩ := List.forall_mem_cons.mp hallowed
    have hnext := hstep.linked hs
    obtain ⟨hsteps, hend⟩ := ih hnext hrest
    exact ⟨List.forall_mem_cons.mpr ⟨⟨hs, hnext⟩, hsteps⟩, hend⟩

theorem linked_interpInit (w : ω) : (interpInit w).heap.Linked where
  isLive := by
    rintro (l | p) q hq
    · exact absurd hq nofun
    · exact absurd hq nofun
  inj := by
    rintro (l | p) y q hq
    · exact absurd hq nofun
    · exact absurd hq nofun
  dead _ := rfl

/-- A state of a run of a program and of callbacks. -/
def Reached [Host ω] (s : Machine ω) : Prop :=
  ∃ n entries w, s = (session n entries (interpInit w)).state ∨
    ∃ st ∈ (session n entries (interpInit w)).steps, s = st.pre ∨ s = st.post

/-- **In every state of every run the lists are in order.** -/
theorem Reached.linked [Host ω] {s : Machine ω} (h : Reached s) : s.heap.Linked := by
  obtain ⟨n, entries, w, hs⟩ := h
  have hrun := session_confined n entries (interpInit w) (Nat.zero_le _)
  obtain ⟨hsteps, hend⟩ := linked_of_chained hrun.chained (linked_interpInit w) hrun.steps
  rcases hs with rfl | ⟨st, hst, rfl | rfl⟩
  · exact hend
  · exact (hsteps st hst).1
  · exact (hsteps st hst).2

end Session

/-- The state behind `xs: list = [1];`. -/
def listOfOne : Machine Unit :=
  (@session Unit silentHost 4 [.run [.varDecl 1 (txt "xs") (.new .list)
    (some (.list 1 [.num 1 1])) false]] (interpInit ())).state

theorem reached_listOfOne : @Reached Unit silentHost listOfOne :=
  ⟨4, [.run [.varDecl 1 (txt "xs") (.new .list) (some (.list 1 [.num 1 1])) false]], (), .inl rfl⟩

theorem listOfOne_length : 0 < listOfOne.heap.lists.length := by decide +kernel

end Jaguar
