/-
`.concat(other)`.

The loop walks the nodes of the other list and appends to its own while it walks. Where the
two are the same list there is always a node more in front of it.

* `listAppend_spec` — `value_list_append`: the new node is the last, other lists stay;
* `concatFrom_ends` — the loop over another list;
* `concatFrom_never_ends` — the loop over its own list;
* `concatLaw_iff` — **when `.concat` returns the two lists one behind the other**.
-/
import Jaguar.HeapLists

namespace Jaguar

open Chains

namespace Heap

variable {h h' h'' : Heap} {l : ℕ}

/-! ### What comes next -/

theorem HasNodes.ref_head {p : ℕ} {ps qs : List ℕ} (hps : h.HasNodes l (qs ++ p :: ps)) :
    h.ref (.inr p) = ps.head? := by
  obtain ⟨y, hpath, hend⟩ := hps
  obtain ⟨z, -, -, hrest⟩ := hpath.split
  cases ps with
  | nil => exact (show Sum.inr p = y from hrest) ▸ hend
  | cons q ps => exact hrest.1

theorem HasNodes.listHead {ps : List ℕ} (hps : h.HasNodes l ps) : h.listHead l = ps.head? := by
  obtain ⟨y, hpath, hend⟩ := hps
  cases ps with
  | nil =>
    obtain rfl : Sum.inl l = y := hpath
    exact hend
  | cons p ps => exact hpath.1

theorem Linked.live_of_hasNodes (hl : h.Linked) {ps : List ℕ} (hps : h.HasNodes l ps) {p : ℕ}
    (hp : p ∈ ps) : h.Live p := by
  obtain ⟨y, hpath, -⟩ := hps
  exact Unshared.live_of_mem hl hpath hp

/-! ### Appending -/

/-- The items `vs` are put behind those of the list `l`; no other list is touched. -/
structure Appended (h : Heap) (l : ℕ) (vs : List Value) (h' : Heap) : Prop where
  linked : h'.Linked
  length : h'.lists.length = h.lists.length
  nodes : h.nodes.length ≤ h'.nodes.length
  items : ∀ ps, h.HasNodes l ps → ∃ qs, h'.HasNodes l (ps ++ qs) ∧ qs.map h'.itemAt = vs
  others : ∀ m ≠ l, ∀ qs, h.HasNodes m qs → h'.HasNodes m qs
  itemAt : ∀ p < h.nodes.length, h'.itemAt p = h.itemAt p

theorem Appended.refl (hl : h.Linked) (l : ℕ) : h.Appended l [] h :=
  ⟨hl, rfl, Nat.le_refl _, fun ps hps => ⟨[], by rwa [List.append_nil], rfl⟩, fun _ _ _ hq => hq,
    fun _ _ => rfl⟩

theorem Appended.trans {vs ws : List Value} (h₁ : h.Appended l vs h')
    (h₂ : h'.Appended l ws h'') : h.Appended l (vs ++ ws) h'' where
  linked := h₂.linked
  length := h₂.length.trans h₁.length
  nodes := Nat.le_trans h₁.nodes h₂.nodes
  items ps hps := by
    obtain ⟨qs, hqs, hvs⟩ := h₁.items ps hps
    obtain ⟨rs, hrs, hws⟩ := h₂.items _ hqs
    refine ⟨qs ++ rs, by rwa [← List.append_assoc], ?_⟩
    rw [List.map_append, hws, ← hvs]
    refine congrArg (· ++ ws) (List.map_congr_left fun q hq => h₂.itemAt q ?_)
    exact (h₁.linked.live_of_hasNodes hqs (List.mem_append_right _ hq)).lt
  others m hm qs hqs := h₂.others m hm qs (h₁.others m hm qs hqs)
  itemAt p hp := (h₂.itemAt p (Nat.lt_of_lt_of_le hp h₁.nodes)).trans (h₁.itemAt p hp)

/-- The items of the lists, afterwards. -/
theorem Appended.items_eq {vs items : List Value} (hl : h.Linked) (happ : h.Appended l vs h')
    (hitems : h.Items l items) : h'.Items l (items ++ vs) := by
  obtain ⟨ps, hps⟩ := hl.exists_hasNodes l
  obtain rfl : ps.map h.itemAt = items := Option.some.inj ((hl.items hps).symm.trans hitems)
  obtain ⟨qs, hqs, rfl⟩ := happ.items ps hps
  have hold : ps.map h'.itemAt = ps.map h.itemAt :=
    List.map_congr_left fun p hp => happ.itemAt p (hl.live_of_hasNodes hps hp).lt
  have hnew := happ.linked.items hqs
  rwa [List.map_append, hold] at hnew

theorem Appended.items_other {vs items : List Value} (hl : h.Linked) (happ : h.Appended l vs h')
    {m : ℕ} (hm : m ≠ l) (hitems : h.Items m items) : h'.Items m items := by
  obtain ⟨ps, hps⟩ := hl.exists_hasNodes m
  obtain rfl : ps.map h.itemAt = items := Option.some.inj ((hl.items hps).symm.trans hitems)
  have hold : ps.map h'.itemAt = ps.map h.itemAt :=
    List.map_congr_left fun p hp => happ.itemAt p (hl.live_of_hasNodes hps hp).lt
  exact hold ▸ happ.linked.items (happ.others m hm ps hps)

/-- A memory with a new node behind the place `y`, where the list `l` ended. -/
theorem appended_of_ref {ps : List ℕ} {y : ℕ ⊕ ℕ} {item : Value} (hl : h.Linked)
    (hlinked : h'.Linked) (hpath : Path h.ref (.inl l) ps y) (hend : h.ref y = none)
    (hlength : h'.lists.length = h.lists.length)
    (hnodes : h'.nodes.length = h.nodes.length + 1)
    (hitem : ∀ p, h'.itemAt p = if p = h.nodes.length then item else h.itemAt p)
    (hy : h'.ref y = some h.nodes.length) (hnew : h'.ref (.inr h.nodes.length) = none)
    (hsame : ∀ z, z ≠ y → z ≠ .inr h.nodes.length → h'.ref z = h.ref z) :
    h.Appended l [item] h' := by
  have hheld : ∀ z, z ≠ y → Unshared.Held h.Live z → h'.ref z = h.ref z := fun z hz hlive =>
    hsame z hz fun heq => absurd (hlive _ heq).lt (Nat.lt_irrefl _)
  refine ⟨hlinked, hlength, hnodes ▸ Nat.le_succ _, fun qs hqs => ?_, fun m hm qs hqs => ?_,
    fun p hp => (hitem p).trans (if_neg (Nat.ne_of_lt hp))⟩
  · obtain rfl := IsChain.unique hqs ⟨y, hpath, hend⟩
    refine ⟨[h.nodes.length], Unshared.isChain_append hl hpath hy hnew hheld, ?_⟩
    rw [List.map_singleton, hitem, if_pos rfl]
  · exact Unshared.isChain_of_ne hl hpath hqs hm hheld

/-- `lastNode` finds the last node. -/
theorem Linked.lastNode_eq (hl : h.Linked) {p q n : ℕ} {ps : List ℕ} (hp : h.Live p)
    (hpath : Path h.ref (.inr p) ps (.inr q)) (hend : h.ref (.inr q) = none)
    (hn : ps.length < n) : h.lastNode n p = some q := by
  induction ps generalizing p n with
  | nil =>
    obtain rfl := Sum.inr.inj (show Sum.inr p = (Sum.inr q : ℕ ⊕ ℕ) from hpath)
    obtain ⟨n, rfl⟩ := Nat.exists_eq_succ_of_ne_zero (Nat.ne_of_gt hn)
    obtain ⟨node, hnode, hfreed⟩ := hp
    rw [lastNode, hnode]
    simp only [← ref_node hnode hfreed, hend]
  | cons r ps ih =>
    obtain ⟨n, rfl⟩ := Nat.exists_eq_succ_of_ne_zero (Nat.ne_of_gt (Nat.lt_of_le_of_lt
      (Nat.zero_le _) hn))
    obtain ⟨node, hnode, hfreed⟩ := hp
    rw [lastNode, hnode]
    simp only [← ref_node hnode hfreed, hpath.1]
    exact ih (hl.isLive hpath.1) hpath.2 (Nat.lt_of_succ_lt_succ hn)

theorem itemAt_newNode (h : Heap) (item : Value) (next : Option ℕ) (p : ℕ) :
    (h.newNode item next).itemAt p = if p = h.nodes.length then item else h.itemAt p := by
  simp only [Heap.itemAt, getElem?_newNode]
  split_ifs <;> rfl

theorem itemAt_setNext (h : Heap) (q : ℕ) (next : Option ℕ) (p : ℕ) :
    (h.setNext q next).itemAt p = h.itemAt p := by
  simp only [Heap.itemAt, getElem?_setNext]
  split_ifs with hp
  · cases h.nodes[p]? <;> rfl
  · rfl

/-- **`value_list_append`.** -/
theorem listAppend_spec (hl : h.Linked) (hlt : l < h.lists.length) (item : Value) :
    ∃ h', h.listAppend h.nodes.length l item = some h' ∧ h.Appended l [item] h' := by
  obtain ⟨ps, y, hpath, hend⟩ := hl.exists_hasNodes l
  cases ps with
  | nil =>
    obtain rfl : Sum.inl l = y := hpath
    have hpath : Path h.ref (.inl l) [] (.inl l) := rfl
    have hhead : h.listHead l = none := hend
    have hheads := listHead_setHead (h.newNode item none) l (some h.nodes.length)
    refine ⟨(h.newNode item none).setHead l (some h.nodes.length), ?_, ?_⟩
    · rw [listAppend]
      simp only [hhead]
    refine appended_of_ref hl (hhead ▸ hl.push hlt item) hpath hend ?_ ?_
      (itemAt_newNode h item none) ?_ ?_ ?_
    · exact List.length_set ..
    · exact List.length_append
    · exact (hheads l).trans (if_pos ⟨rfl, hlt⟩)
    · exact (ref_newNode h item none _).trans (if_pos rfl)
    · intro z hz hnew
      cases z with
      | inl m => exact (hheads m).trans (if_neg fun hm => hz (congrArg _ hm.1))
      | inr p => exact (ref_newNode h item none p).trans (if_neg fun hp => hnew (congrArg _ hp))
  | cons p ps =>
    obtain ⟨hp, hrest⟩ := hpath
    have hhead : h.listHead l = some p := hp
    obtain ⟨q, rfl⟩ : ∃ q, y = .inr q := by
      rw [hrest.last_eq]
      cases ps.getLast? <;> exact ⟨_, rfl⟩
    have hpath : Path h.ref (.inl l) (p :: ps) (.inr q) := ⟨hp, hrest⟩
    have hq : h.Live q := Unshared.held_of_path hl hpath q rfl
    have hlast : h.lastNode h.nodes.length p = some q :=
      hl.lastNode_eq (hl.isLive hp) hrest hend (hl.length_le ⟨.inr q, hpath, hend⟩)
    have hq' : (h.newNode item none).Live q := (live_newNode h item none q).mpr (.inl hq)
    have hne : h.nodes.length ≠ q := fun heq => absurd hq.lt (heq ▸ Nat.lt_irrefl _)
    refine ⟨(h.newNode item none).setNext q (some h.nodes.length), ?_, ?_⟩
    · rw [listAppend]
      simp only [hhead, hlast, Option.map_some]
    refine appended_of_ref hl (hl.behind hq hend item) hpath hend rfl ?_ ?_ ?_ ?_ ?_
    · show ((h.nodes ++ [_]).modify q _).length = _
      rw [List.length_modify]
      exact List.length_append
    · intro r
      rw [itemAt_setNext, itemAt_newNode]
    · exact (ref_setNext _ hq' _ q).trans (if_pos rfl)
    · rw [ref_setNext _ hq', if_neg hne, ref_newNode, if_pos rfl]
    · intro z hz hnew
      cases z with
      | inl m => rfl
      | inr r =>
        rw [ref_setNext _ hq', if_neg fun heq => hz (congrArg _ heq), ref_newNode,
          if_neg fun heq => hnew (congrArg _ heq)]

end Heap

/-! ### The loop -/

section Concat

variable {ω : Type} {s : Machine ω} {l m : ℕ}

theorem ends_nodeOf {p : ℕ} {node : ListNode} (hnode : s.heap.nodes[p]? = some node) :
    (nodeOf p s).ends = (some node, s) := Prod.ext hnode rfl

theorem ends_valueListAppend {item : Value} {h' : Heap}
    (happend : s.heap.listAppend s.heap.nodes.length l item = some h') :
    (valueListAppend l item s).ends = (some (), { s with heap := h' }) := by
  unfold valueListAppend onHeapSome Exec.actSome
  simp only [happend, Option.map_some]
  rfl

/-- A turn at a node of the list `m`: the nodes behind it are still there, and if `m` is the
list that is appended to, there is one more of them. -/
theorem concatFrom_succ (hl : s.heap.Linked) (hlt : l < s.heap.lists.length) {p : ℕ}
    {qs ps : List ℕ} (hps : s.heap.HasNodes m (qs ++ p :: ps)) :
    ∃ h' rs, s.heap.Appended l [s.heap.itemAt p] h' ∧ h'.HasNodes m (qs ++ p :: (ps ++ rs)) ∧
      (m ≠ l → rs = []) ∧ (m = l → rs ≠ []) ∧
      ∀ k, (concatFrom l (k + 1) (some p) s).ends
        = (concatFrom l k (ps ++ rs).head? { s with heap := h' }).ends := by
  obtain ⟨node, hnode, -⟩ :=
    hl.live_of_hasNodes hps (List.mem_append_right _ List.mem_cons_self)
  have hitem : s.heap.itemAt p = node.item := by
    rw [Heap.itemAt, hnode]
    rfl
  obtain ⟨h', happend, happ⟩ := Heap.listAppend_spec hl hlt node.item
  obtain ⟨rs, hps', hother, hsame⟩ : ∃ rs, h'.HasNodes m (qs ++ p :: (ps ++ rs)) ∧
      (m ≠ l → rs = []) ∧ (m = l → rs ≠ []) := by
    by_cases hm : m = l
    · subst hm
      obtain ⟨rs, hrs, hitems⟩ := happ.items _ hps
      rw [List.append_assoc, List.cons_append] at hrs
      exact ⟨rs, hrs, fun hne => absurd rfl hne, fun _ hnil => by simp [hnil] at hitems⟩
    · refine ⟨[], ?_, fun _ => rfl, fun heq => absurd heq hm⟩
      rw [List.append_nil]
      exact happ.others m hm _ hps
  obtain ⟨node', hnode', hfreed'⟩ :=
    happ.linked.live_of_hasNodes hps' (List.mem_append_right _ List.mem_cons_self)
  refine ⟨h', rs, hitem ▸ happ, hps', hother, hsame, fun k => ?_⟩
  rw [concatFrom, Exec.ends_bind (ends_nodeOf hnode), Exec.ends_bind (ends_valueListAppend happend)]
  have hread : (nodeOf p ({ s with heap := h' } : Machine ω)).ends = (some node', _) :=
    ends_nodeOf hnode'
  rw [Exec.ends_bind hread, ← Heap.ref_node hnode' hfreed', hps'.ref_head]

/-- **Over another list**: the loop ends, and its items are appended. -/
theorem concatFrom_ends (hne : m ≠ l) {qs ps : List ℕ} (hl : s.heap.Linked)
    (hlt : l < s.heap.lists.length) (hps : s.heap.HasNodes m (qs ++ ps)) :
    ∃ h', s.heap.Appended l (ps.map s.heap.itemAt) h' ∧ ∀ k ≥ ps.length,
      (concatFrom l k ps.head? s).ends = (some (), { s with heap := h' }) := by
  induction ps generalizing qs s with
  | nil =>
    refine ⟨s.heap, .refl hl l, fun k _ => ?_⟩
    cases k <;> rfl
  | cons p ps ih =>
    obtain ⟨h₁, rs, happ, hps₁, hnil, -, hturn⟩ := concatFrom_succ hl hlt hps
    obtain rfl := hnil hne
    rw [List.append_nil] at hps₁ hturn
    have hsuffix : h₁.HasNodes m ((qs ++ [p]) ++ ps) := by rwa [List.append_assoc]
    obtain ⟨h', happ', hends⟩ := ih (s := { s with heap := h₁ }) happ.linked
      (happ.length ▸ hlt) hsuffix
    refine ⟨h', ?_, fun k hk => ?_⟩
    · have hitems : ps.map h₁.itemAt = ps.map s.heap.itemAt := List.map_congr_left fun q hq =>
        happ.itemAt q (hl.live_of_hasNodes hps (by simp [hq])).lt
      have hrest : h₁.Appended l (ps.map s.heap.itemAt) h' := hitems ▸ happ'
      exact happ.trans hrest
    · obtain ⟨k, rfl⟩ := Nat.exists_eq_succ_of_ne_zero (Nat.ne_of_gt (Nat.lt_of_lt_of_le
        (Nat.succ_pos ps.length) hk))
      exact (hturn k).trans (hends k (Nat.le_of_succ_le_succ hk))

/-- **Over its own list** the loop does not end: there is always a node more. -/
theorem concatFrom_never_ends {qs ps : List ℕ} (hl : s.heap.Linked)
    (hlt : l < s.heap.lists.length) (hps : s.heap.HasNodes l (qs ++ ps)) (hne : ps ≠ []) (k : ℕ) :
    (concatFrom l k ps.head? s).value = none := by
  induction k generalizing qs ps s with
  | zero =>
    cases ps with
    | nil => exact absurd rfl hne
    | cons p ps => rfl
  | succ k ih =>
    cases ps with
    | nil => exact absurd rfl hne
    | cons p ps =>
      obtain ⟨h', rs, happ, hps', -, hrs, hturn⟩ := concatFrom_succ hl hlt hps
      have hsuffix : h'.HasNodes l ((qs ++ [p]) ++ (ps ++ rs)) := by
        rwa [List.append_assoc, List.singleton_append]
      have hmore : ps ++ rs ≠ [] := fun hnil => hrs rfl (List.append_eq_nil_iff.mp hnil).2
      have hnone := ih (s := { s with heap := h' }) happ.linked (happ.length ▸ hlt) hsuffix hmore
      exact (congrArg Prod.fst (hturn k)).trans hnone

end Concat

/-! ### The method -/

section Method

variable {ω : Type} [Host ω]

/-- From some bound on, the call returns in one and the same state: the items of the argument
are behind those of the list, and the argument, if it is another list, has its own. -/
def ConcatLaw (R : Evaluator ω) (l m : ℕ) (arg : Expr) (env : Env) (line : ℕ) (s₀ s : Machine ω) :
    Prop :=
  ∃ s' bound, (∀ n ≥ bound,
      (callListMethod R n l (txt "concat") [arg] env line s₀).ends = (some .void, s')) ∧
    ∀ items items', s.heap.Items l items → s.heap.Items m items' →
      s'.heap.Items l (items ++ items') ∧ (m ≠ l → s'.heap.Items m items')

variable {R : Evaluator ω} {arg : Expr} {env : Env} {s₀ s : Machine ω} {l m : ℕ}

omit [Host ω] in
/-- The call, from its evaluated argument on. -/
theorem ends_concat (n line : ℕ) (harg : (R.evalExpr arg env s₀).ends = (some (.list m), s))
    {ps : List ℕ} (hps : s.heap.HasNodes m ps) :
    (callListMethod R n l (txt "concat") [arg] env line s₀).ends
      = ((concatFrom l n ps.head? >>= fun _ => pure .void : Prog ω Value) s).ends :=
  Exec.ends_bind_congr ((Exec.ends_bind harg).trans (congrArg (fun head =>
    (concatFrom l n head s).ends) hps.listHead))

omit [Host ω] in
/-- A list that is not empty, and its own argument. -/
theorem concat_self_gives_up (n line : ℕ)
    (harg : (R.evalExpr arg env s₀).ends = (some (.list l), s)) (hlinked : s.heap.Linked)
    (hl : l < s.heap.lists.length) (hitems : ¬ s.heap.Items l []) :
    (callListMethod R n l (txt "concat") [arg] env line s₀).ends.1 = none := by
  obtain ⟨ps, hps⟩ := hlinked.exists_hasNodes l
  have hall : s.heap.HasNodes l ([] ++ ps) := hps
  have hne : ps ≠ [] := by
    rintro rfl
    exact hitems (hlinked.items hps)
  have hnone := concatFrom_never_ends hlinked hl hall hne n
  rw [ends_concat n line harg hps, Exec.ends_bind_none (Prod.ext hnone rfl)]

/-- **When `l.concat(m)` returns the two lists one behind the other.** -/
theorem concatLaw_iff (line : ℕ) (harg : (R.evalExpr arg env s₀).ends = (some (.list m), s))
    (hs : Reached s) (hl : l < s.heap.lists.length) :
    ConcatLaw R l m arg env line s₀ s ↔ m ≠ l ∨ s.heap.Items l [] := by
  have hlinked := hs.linked
  obtain ⟨ps, hps⟩ := hlinked.exists_hasNodes m
  by_cases hm : m = l
  · subst hm
    rw [or_iff_right (not_not_intro rfl)]
    constructor
    · rintro ⟨s', bound, hends, -⟩
      by_contra hitems
      have hnone := concat_self_gives_up bound line harg hlinked hl hitems
      rw [hends bound (Nat.le_refl _)] at hnone
      cases hnone
    · intro hnil
      obtain rfl : ps = [] :=
        List.map_eq_nil_iff.mp (Option.some.inj ((hlinked.items hps).symm.trans hnil))
      refine ⟨s, 0, fun n _ => (ends_concat n line harg hps).trans ?_,
        fun items items' hitems hitems' => ⟨?_, fun hne => absurd rfl hne⟩⟩
      · cases n <;> rfl
      · obtain rfl := Option.some.inj (hnil.symm.trans hitems)
        exact hitems'
  · have hall : s.heap.HasNodes m ([] ++ ps) := hps
    obtain ⟨h', happ, hends⟩ := concatFrom_ends hm hlinked hl hall
    refine iff_of_true ⟨{ s with heap := h' }, ps.length, fun n hn => ?_, ?_⟩ (.inl hm)
    · rw [ends_concat n line harg hps, Exec.ends_bind (hends n hn)]
      rfl
    · intro items items' hitems hitems'
      obtain rfl := Option.some.inj ((hlinked.items hps).symm.trans hitems')
      exact ⟨happ.items_eq hlinked hitems, fun _ => happ.items_other hlinked hm hitems'⟩

end Method

theorem evalExpr_listOfOne : ((@evaluator Unit silentHost 1).evalExpr (.ident 1 (txt "xs")) [0]
    listOfOne).ends = (some (.list 0), listOfOne) := by
  rfl

theorem concatLaw_iff_listOfOne :
    @ConcatLaw Unit (@evaluator Unit silentHost 1) 0 0 (.ident 1 (txt "xs")) [0] 1 listOfOne
      listOfOne ↔ 0 ≠ 0 ∨ listOfOne.heap.Items 0 [] :=
  @concatLaw_iff Unit silentHost _ _ _ _ _ 0 0 1 evalExpr_listOfOne reached_listOfOne
    listOfOne_length

/-- **`xs.concat(xs)` never returns**, unless `xs` is empty. -/
theorem concat_self_diverges : ¬ ∀ (R : Evaluator Unit) (arg : Expr) (env : Env) (line : ℕ)
    (s₀ s : Machine Unit) (l m : ℕ), (R.evalExpr arg env s₀).ends = (some (.list m), s) →
    @Reached Unit silentHost s → l < s.heap.lists.length → m < s.heap.lists.length →
    @ConcatLaw Unit R l m arg env line s₀ s := by
  intro h
  obtain ⟨s', bound, hends, -⟩ := h (@evaluator Unit silentHost 1) (.ident 1 (txt "xs")) [0] 1
    listOfOne listOfOne 0 0 evalExpr_listOfOne reached_listOfOne listOfOne_length listOfOne_length
  have hlinked := @Reached.linked Unit silentHost listOfOne reached_listOfOne
  have hlength : (listOfOne.heap.itemsFrom listOfOne.heap.nodes.length
      (listOfOne.heap.listHead 0)).map List.length = some 1 := by decide +kernel
  have hitems : ¬ listOfOne.heap.Items 0 [] := by
    intro hnil
    rw [show listOfOne.heap.itemsFrom _ _ = some [] from hnil] at hlength
    cases hlength
  have hnone := @concat_self_gives_up Unit _ _ _ _ _ _ bound 1 evalExpr_listOfOne
    hlinked listOfOne_length hitems
  rw [hends bound (Nat.le_refl _)] at hnone
  cases hnone

end Jaguar
