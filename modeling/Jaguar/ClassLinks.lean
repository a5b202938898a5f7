/-
The interpreter's class links (`hoist_classes`), and the four walks up a class.

`hoist_classes` links the classes of one statement list, by name, to classes of that list
or of the scopes around it; a class that existed before is never linked again. So whether
the links form a ring is decided list by list, by the names alone.

* `envGet_hoistClasses`, `classLink_hoistClasses` — what hoisting does to names and links;
* `ringless_hoistClasses` — **a list adds a ring exactly when its names form one**;
* `methodWalksEnd_iff`, `initWalksEnd_iff` — exactly without rings do the walks end;
* `class_walks_end_iff` — **termination of the walks, for the checker and for every run of
  the interpreter**.
-/
import Jaguar.ClassTable
import Jaguar.Machine
import Jaguar.Parser
import Jaguar.Runs

namespace Jaguar

namespace Heap

/-- The pointers to classes lead to classes. -/
structure ClassesValid (h : Heap) : Prop where
  link : ∀ c p, h.classLink c = some p → p < h.classes.length
  entry : ∀ f, ∀ e ∈ h.frame f, ∀ c, e.value = .cls c → c < h.classes.length

/-! ### Names -/

theorem envGet_cons (h : Heap) (f : ℕ) (outer : Env) (name : Text) :
    h.envGet (f :: outer) name = match frameFind (h.frame f) name with
      | some (_, e) => some e.value
      | none => h.envGet outer name := by
  unfold envGet
  rw [envFind]
  cases frameFind (h.frame f) name <;> rfl

theorem envGet_congr {h h' : Heap} (hframes : h'.frames = h.frames) (env : Env) (name : Text) :
    h'.envGet env name = h.envGet env name := by
  have hframe : ∀ g, h'.frame g = h.frame g := fun g => by rw [frame, frame, hframes]
  induction env with
  | nil => rfl
  | cons g env ih => rw [envGet_cons, envGet_cons, hframe, ih]

/-- A definition hides the earlier ones of its name. -/
theorem envGet_define {h : Heap} {f : ℕ} (hf : f < h.frames.length) (outer : Env) (e : EnvEntry)
    (name : Text) :
    (h.define f e).envGet (f :: outer) name
      = if e.name = name then some e.value else h.envGet (f :: outer) name := by
  by_cases hname : e.name = name
  · rw [if_pos hname, envGet_cons, frame_define hf, if_pos rfl, frameFind, if_pos hname]
  · rw [if_neg hname]
    have hframe : ∀ g, (frameFind ((h.define f e).frame g) name).map Prod.snd
        = (frameFind (h.frame g) name).map Prod.snd := by
      intro g
      rw [frame_define hf]
      split_ifs with hg
      · subst hg
        rw [frameFind, if_neg hname]
        cases frameFind (h.frame g) name <;> rfl
      · rfl
    generalize f :: outer = env
    induction env with
    | nil => rfl
    | cons g env ih =>
      have hg := hframe g
      rw [envGet_cons, envGet_cons]
      cases hfind : frameFind (h.frame g) name with
      | none =>
        rw [hfind] at hg
        rw [Option.map_eq_none_iff.mp hg]
        exact ih
      | some p =>
        rw [hfind] at hg
        obtain ⟨q, hq, hqp⟩ := Option.map_eq_some_iff.mp hg
        rw [hq]
        exact congrArg (fun e => some (EnvEntry.value e)) hqp

/-- A name found is that of an entry. -/
theorem exists_entry_of_envGet {h : Heap} {env : Env} {name : Text} {v : Value}
    (hget : h.envGet env name = some v) : ∃ f, ∃ e ∈ h.frame f, e.value = v := by
  obtain ⟨⟨f, i, e⟩, hfind, rfl⟩ := Option.map_eq_some_iff.mp hget
  exact ⟨f, e, List.mem_of_getElem? (envFind_spec hfind).2.1, rfl⟩

/-! ### The first pass -/

theorem hoistClass_classDecl (h : Heap) (f : ℕ) (outer : Env) {s : Stmt} {name : Text}
    (hs : s.className? = some name) :
    ∃ (ci : ClassInfo) (h₁ : Heap), ci.parent = none ∧ h₁.frames = h.frames ∧
      h₁.classes = h.classes ++ [ci] ∧
      hoistClass (f :: outer) h s = h₁.define f ⟨name, .cls h.classes.length, true⟩ := by
  unfold Stmt.className? at hs
  split at hs
  · obtain rfl := Option.some.inj hs
    exact ⟨⟨_, _, none, _, _⟩, { h with classes := h.classes ++ [⟨_, _, none, _, _⟩] }, rfl, rfl,
      rfl, rfl⟩
  · cases hs

theorem hoistClass_other (h : Heap) (env : Env) {s : Stmt} (hs : s.className? = none) :
    hoistClass env h s = h := by
  cases s <;> first | rfl | cases hs

/-- What the first pass leaves. -/
structure Hoisted (h : Heap) (names : List Text) (f : ℕ) (outer : Env) (h' : Heap) : Prop where
  frames : h'.frames.length = h.frames.length
  classes : h'.classes.length = h.classes.length + names.length
  link : ∀ c, h'.classLink c = h.classLink c
  get : ∀ name, h'.envGet (f :: outer) name = match findLast names name with
    | some i => some (.cls (h.classes.length + i))
    | none => h.envGet (f :: outer) name
  entry : ∀ g, ∀ e ∈ h'.frame g, e ∈ h.frame g ∨
    ∃ i < names.length, e.value = .cls (h.classes.length + i)

theorem hoisted {h : Heap} {f : ℕ} (hf : f < h.frames.length) (outer : Env) (list : List Stmt) :
    Hoisted h (classNames list) f outer (list.foldl (hoistClass (f :: outer)) h) := by
  induction list using List.reverseRecOn with
  | nil => exact ⟨rfl, rfl, fun _ => rfl, fun _ => rfl, fun _ _ he => .inl he⟩
  | append_singleton list s ih =>
    rw [List.foldl_append, List.foldl_cons, List.foldl_nil, classNames, List.filterMap_append,
      ← classNames]
    set h' := list.foldl (hoistClass (f :: outer)) h with hh'
    have hf' : f < h'.frames.length := ih.frames ▸ hf
    cases hs : s.className? with
    | none =>
      rw [hoistClass_other h' _ hs, List.filterMap_cons_none hs, List.filterMap_nil, List.append_nil]
      exact ih
    | some name =>
      obtain ⟨ci, h₁, hparent, hframes, hclasses, heq⟩ := hoistClass_classDecl h' f outer hs
      have hf₁ : f < h₁.frames.length := hframes ▸ hf'
      rw [heq, List.filterMap_cons_some hs, List.filterMap_nil]
      refine ⟨?_, ?_, fun c => ?_, fun n => ?_, fun g e he => ?_⟩
      · simpa [define, hframes] using ih.frames
      · simp [define, hclasses, ih.classes, Nat.add_assoc]
      · rw [← ih.link c]
        unfold classLink
        show (h₁.classes[c]?).bind _ = _
        rw [hclasses]
        by_cases hc : c < h'.classes.length
        · rw [List.getElem?_append_left hc]
        · rw [List.getElem?_append_right (Nat.le_of_not_lt hc),
            List.getElem?_eq_none (Nat.le_of_not_lt hc), Option.bind_none, Option.bind_eq_none_iff]
          intro ci' hci'
          obtain rfl := List.mem_singleton.mp (List.mem_of_getElem? hci')
          exact hparent
      · rw [envGet_define hf₁, findLast_append, envGet_congr hframes]
        by_cases hn : name = n
        · rw [if_pos hn, if_pos hn, ih.classes]
        · rw [if_neg hn, if_neg hn]
          exact ih.get n
      · have hframe : ∀ g, h₁.frame g = h'.frame g := fun g => by rw [frame, frame, hframes]
        have hold : ∀ e ∈ h'.frame g, e ∈ h.frame g ∨
            ∃ i < (classNames list ++ [name]).length, e.value = .cls (h.classes.length + i) := by
          intro e he
          rcases ih.entry g e he with hmem | ⟨i, hi, hv⟩
          · exact .inl hmem
          · exact .inr ⟨i, by rw [List.length_append]; omega, hv⟩
        rw [frame_define hf₁] at he
        split_ifs at he with hg
        · rcases List.mem_cons.mp he with rfl | he
          · exact .inr ⟨(classNames list).length, by simp, by rw [ih.classes]⟩
          · exact hold e (by rwa [hframe, ← hg] at he)
        · exact hold e (hframe g ▸ he)

/-! ### The second pass -/

/-- The class that a value is. -/
def asClass : Option Value → Option ℕ
  | some (.cls c) => some c
  | _ => none

theorem asClass_eq_some {v : Option Value} {c : ℕ} : asClass v = some c ↔ v = some (.cls c) := by
  unfold asClass
  split <;> simp_all

/-- The class of the list that has this name. -/
def newClass (h : Heap) (list : List Stmt) (name : Text) : Option ℕ :=
  (findLast (classNames list) name).map (h.classes.length + ·)

/-- The class that a name stands for once those of the list are declared. -/
def classFor (h : Heap) (list : List Stmt) (env : Env) (name : Text) : Option ℕ :=
  match h.newClass list name with
  | some c => some c
  | none => asClass (h.envGet env name)

/-- The clauses whose parent name stands for a class. -/
def hoistedClauses (h : Heap) (list : List Stmt) (env : Env) : List (Text × Text) :=
  (extendsClauses list).filter fun c => (h.classFor list env c.2).isSome

/-- The class of the list that hoisting takes a class of the list to extend. -/
def hoistedExtends (h : Heap) (list : List Stmt) (env : Env) : Text → Option Text :=
  extendsIn (findLast (classNames list)) (h.hoistedClauses list env)

theorem asClass_hoisted {h h' : Heap} {list : List Stmt} {f : ℕ} {outer : Env}
    (hh : Hoisted h (classNames list) f outer h') (name : Text) :
    asClass (h'.envGet (f :: outer) name) = h.classFor list (f :: outer) name := by
  rw [hh.get, classFor, newClass]
  cases findLast (classNames list) name <;> rfl

theorem classLink_setParent {h : Heap} {c : ℕ} (hc : c < h.classes.length) (p : ℕ) :
    (h.setParent c p).classLink = Function.update h.classLink c (some p) := by
  funext i
  rw [classLink, setParent, List.getElem?_modify]
  by_cases hi : i = c
  · subst hi
    rw [Function.update_self, List.getElem?_eq_getElem hc]
    simp
  · rw [Function.update_of_ne hi]
    simp [classLink, Ne.symm hi]

/-- The link that a clause sets, when both of its names stand for classes. -/
def linkParent (h : Heap) (c p : Option ℕ) : Heap :=
  match c, p with
  | some c, some p => h.setParent c p
  | _, _ => h

theorem linkClass_eq (env : Env) (h : Heap) {s : Stmt} {c : Text × Text}
    (hs : s.extendsClause? = some c) :
    linkClass env h s
      = h.linkParent (asClass (h.envGet env c.1)) (asClass (h.envGet env c.2)) := by
  unfold Stmt.extendsClause? at hs
  split at hs
  · obtain rfl := Option.some.inj hs
    rw [linkClass]
    cases h.envGet env _ with
    | none => rfl
    | some v =>
      cases h.envGet env _ with
      | none => cases v <;> rfl
      | some w => cases v <;> cases w <;> rfl
  · cases hs

theorem frames_linkClass (env : Env) (h : Heap) (s : Stmt) :
    (linkClass env h s).frames = h.frames := by
  unfold linkClass
  split
  · split <;> rfl
  · rfl

theorem frames_foldl_linkClass (env : Env) (list : List Stmt) (h : Heap) :
    (list.foldl (linkClass env) h).frames = h.frames := by
  induction list generalizing h with
  | nil => rfl
  | cons s list ih => rw [List.foldl_cons, ih, frames_linkClass]

/-- What the second pass leaves, where `node` gives the class of every name that is linked. -/
theorem foldl_linkClass (env : Env) {node : Text → Option ℕ} (list : List Stmt) {h : Heap}
    (hnode : ∀ c ∈ extendsClauses list, asClass (h.envGet env c.1) = node c.1)
    (hlt : ∀ name c, node name = some c → c < h.classes.length) :
    (list.foldl (linkClass env) h).classLink
      = linkBy node (fun name => asClass (h.envGet env name)) h.classLink
        ((extendsClauses list).filter fun c => (asClass (h.envGet env c.2)).isSome) ∧
    (list.foldl (linkClass env) h).classes.length = h.classes.length := by
  induction list generalizing h with
  | nil => exact ⟨rfl, rfl⟩
  | cons s list ih =>
    rw [List.foldl_cons]
    have hnone : s.extendsClause? = none → linkClass env h s = h := by
      intro hs
      unfold linkClass
      split
      · cases hs
      · rfl
    cases hs : s.extendsClause? with
    | none =>
      rw [hnone hs, extendsClauses, List.filterMap_cons_none hs, ← extendsClauses]
      refine ih (fun c hc => hnode c ?_) hlt
      rwa [extendsClauses, List.filterMap_cons_none hs]
    | some c =>
      have hclauses : extendsClauses (s :: list) = c :: extendsClauses list := by
        rw [extendsClauses, List.filterMap_cons_some hs, ← extendsClauses]
      rw [hclauses]
      rw [hclauses] at hnode
      have hself := hnode c List.mem_cons_self
      have hrest : ∀ d ∈ extendsClauses list, asClass (h.envGet env d.1) = node d.1 :=
        fun d hd => hnode d (List.mem_cons_of_mem c hd)
      rw [linkClass_eq env h hs, hself]
      cases hp : asClass (h.envGet env c.2) with
      | none =>
        rw [List.filter_cons_of_neg (by simp [hp])]
        cases node c.1 <;> exact ih hrest hlt
      | some p =>
        rw [List.filter_cons_of_pos (by simp [hp]), linkBy_cons]
        cases ha : node c.1 with
        | none => exact ih hrest hlt
        | some a =>
          have hframes : (h.setParent a p).frames = h.frames := rfl
          have hlength : (h.setParent a p).classes.length = h.classes.length := by
            rw [setParent, List.length_modify]
          have hget : ∀ name, (h.setParent a p).envGet env name = h.envGet env name :=
            envGet_congr hframes env
          obtain ⟨h₁, h₃⟩ := ih (h := h.setParent a p)
            (fun d hd => by rw [hget, hrest d hd]) (fun name c hc => hlength ▸ hlt name c hc)
          simp only [hget] at h₁
          rw [linkParent, h₁, classLink_setParent (hlt c.1 a ha), hp]
          exact ⟨rfl, h₃.trans hlength⟩

section Hoist

variable {h : Heap} {f : ℕ} {outer : Env} {list : List Stmt}

theorem newClass_lt {name : Text} {c : ℕ} (hc : h.newClass list name = some c) :
    h.classes.length ≤ c ∧ c < h.classes.length + (classNames list).length := by
  obtain ⟨i, hi, rfl⟩ := Option.map_eq_some_iff.mp hc
  have hlt := (List.getElem?_eq_some_iff.mp (findLast_eq_some hi)).1
  exact ⟨Nat.le_add_right _ i, Nat.add_lt_add_left hlt _⟩

theorem newClass_inj {m n : Text} {c : ℕ} (hm : h.newClass list m = some c)
    (hn : h.newClass list n = some c) : m = n := by
  obtain ⟨i, hi, rfl⟩ := Option.map_eq_some_iff.mp hm
  obtain ⟨j, hj, heq⟩ := Option.map_eq_some_iff.mp hn
  have hij : j = i := Nat.add_left_cancel heq
  exact findLast_inj hi (hij ▸ hj)

/-- Every class with a clause is declared in the list. -/
theorem newClass_of_clause {c : Text × Text} (hc : c ∈ extendsClauses list) :
    (h.newClass list c.1).isSome := by
  obtain ⟨s, hs, hclause⟩ := List.mem_filterMap.mp hc
  rw [newClass, Option.isSome_map, findLast_isSome]
  refine List.mem_filterMap.mpr ⟨s, hs, ?_⟩
  unfold Stmt.extendsClause? at hclause
  split at hclause
  · obtain rfl := Option.some.inj hclause
    rfl
  · cases hclause

/-- **What hoisting does to the links.** -/
theorem classLink_hoistClasses (hf : f < h.frames.length) (list : List Stmt) :
    (h.hoistClasses list (f :: outer)).classLink
      = linkBy (h.newClass list) (h.classFor list (f :: outer)) h.classLink
        (h.hoistedClauses list (f :: outer)) ∧
    (h.hoistClasses list (f :: outer)).classes.length
      = h.classes.length + (classNames list).length ∧
    ∀ g, ∀ e ∈ (h.hoistClasses list (f :: outer)).frame g, e ∈ h.frame g ∨
      ∃ i < (classNames list).length, e.value = .cls (h.classes.length + i) := by
  have hh := hoisted hf outer list
  set h' := list.foldl (hoistClass (f :: outer)) h with hh'
  have hnode : ∀ c ∈ extendsClauses list,
      asClass (h'.envGet (f :: outer) c.1) = h.newClass list c.1 := by
    intro c hc
    obtain ⟨a, ha⟩ := Option.isSome_iff_exists.mp (newClass_of_clause (h := h) hc)
    rw [asClass_hoisted hh, classFor, ha]
  have hlt : ∀ name c, h.newClass list name = some c → c < h'.classes.length := by
    intro name c hc
    rw [hh.classes]
    exact (newClass_lt hc).2
  have hlinks : h'.classLink = h.classLink := funext hh.link
  obtain ⟨h₁, h₃⟩ := foldl_linkClass (f :: outer) list hnode hlt
  simp only [asClass_hoisted hh] at h₁
  refine ⟨?_, ?_, fun g e he => ?_⟩
  · rw [hoistClasses, h₁, hlinks]
    rfl
  · rw [hoistClasses, h₃, hh.classes]
  · refine hh.entry g e ?_
    rwa [hoistClasses, frame, frames_foldl_linkClass] at he

/-- **What hoisting does to the names.** -/
theorem envGet_hoistClasses (hf : f < h.frames.length) (list : List Stmt) (name : Text) :
    (h.hoistClasses list (f :: outer)).envGet (f :: outer) name
      = match findLast (classNames list) name with
        | some i => some (.cls (h.classes.length + i))
        | none => h.envGet (f :: outer) name := by
  rw [hoistClasses, envGet_congr (frames_foldl_linkClass _ list _), (hoisted hf outer list).get]

theorem classLink_eq_none (h : Heap) {c : ℕ} (hc : h.classes.length ≤ c) :
    h.classLink c = none := by
  rw [classLink, List.getElem?_eq_none hc]
  rfl

/-- Classes that are not of the list. -/
def NotNew (h : Heap) (list : List Stmt) (c : ℕ) : Prop :=
  ¬ (h.classes.length ≤ c ∧ c < h.classes.length + (classNames list).length)

theorem notNew_of_lt {c : ℕ} (hc : c < h.classes.length) : h.NotNew list c := by
  unfold NotNew
  omega

theorem classFor_lt (hvalid : h.ClassesValid) {env : Env} {name : Text} {c : ℕ}
    (hc : h.classFor list env name = some c) :
    c < h.classes.length + (classNames list).length := by
  unfold classFor at hc
  split at hc
  · next hnew =>
    obtain rfl := Option.some.inj hc
    exact (newClass_lt hnew).2
  · obtain ⟨g, e, he, hv⟩ := exists_entry_of_envGet (asClass_eq_some.mp hc)
    exact Nat.lt_add_right _ (hvalid.entry g e he c hv)

theorem namedLinks_hoistClasses (hvalid : h.ClassesValid) (hf : f < h.frames.length) :
    NamedLinks (h.hoistClasses list (f :: outer)).classLink (h.NotNew list) (h.newClass list)
      (extendsIn (h.newClass list) (h.hoistedClauses list (f :: outer))) := by
  rw [(classLink_hoistClasses hf list).1]
  refine namedLinks_linkBy (fun a b _ hb => ?_) (fun i a hi => ?_) (fun _ _ _ => newClass_inj)
    (fun a ha => ?_) (fun j a hj => ?_) (fun j a hj ha => ?_) _
  · exact notNew_of_lt (hvalid.link a b hb)
  · exact fun hnot => hnot (newClass_lt hi)
  · have hge : h.classes.length ≤ a := (not_not.mp ha).1
    exact classLink_eq_none h hge
  · rw [classFor, hj]
  · rw [classFor, hj] at ha
    obtain ⟨g, e, he, hv⟩ := exists_entry_of_envGet (asClass_eq_some.mp ha)
    exact notNew_of_lt (hvalid.entry g e he a hv)

/-- **A list adds a ring exactly when its names form one.** -/
theorem ringless_hoistClasses (hvalid : h.ClassesValid) (hf : f < h.frames.length)
    (hring : Ringless h.classLink) :
    Ringless (h.hoistClasses list (f :: outer)).classLink ↔
      Ringless (h.hoistedExtends list (f :: outer)) := by
  have hlinks : NamedLinks (h.hoistClasses list (f :: outer)).classLink (h.NotNew list)
      (h.newClass list) (extendsIn (h.newClass list) (h.hoistedClauses list (f :: outer))) :=
    namedLinks_hoistClasses hvalid hf
  have hextends : extendsIn (h.newClass list) (h.hoistedClauses list (f :: outer))
      = h.hoistedExtends list (f :: outer) := by
    funext name
    simp only [hoistedExtends, extendsIn, newClass, Option.isSome_map]
  have hold : ∀ a, h.NotNew list a →
      (h.hoistClasses list (f :: outer)).classLink a = h.classLink a := by
    intro a ha
    rw [(classLink_hoistClasses hf list).1]
    exact linkBy_of_forall_ne (fun i hi => ha (newClass_lt hi)) _
  rw [hlinks.ringless_iff, hextends]
  refine ⟨fun hboth => hboth.2, fun hnames => ⟨fun a ha hbad => hring a ?_, hnames⟩⟩
  exact hbad.of_agree hold (fun a b _ hb => notNew_of_lt (hvalid.link a b hb)) ha

theorem classesValid_hoistClasses (hvalid : h.ClassesValid) (hf : f < h.frames.length) :
    (h.hoistClasses list (f :: outer)).ClassesValid := by
  obtain ⟨hlink, hlength, hentry⟩ := @classLink_hoistClasses h f outer hf list
  refine ⟨fun c p hp => ?_, fun g e he c hc => ?_⟩
  · rw [hlength]
    rw [hlink] at hp
    by_cases hnew : ∃ i, h.newClass list i = some c
    · obtain ⟨i, hi⟩ := hnew
      rw [linkBy_of_node (fun _ _ _ => newClass_inj) hi] at hp
      split at hp
      · exact classFor_lt hvalid hp
      · exact Nat.lt_add_right _ (hvalid.link c p hp)
    · rw [linkBy_of_forall_ne fun i hi => hnew ⟨i, hi⟩] at hp
      exact Nat.lt_add_right _ (hvalid.link c p hp)
  · rw [hlength]
    rcases hentry g e he with hold | ⟨i, hi, hv⟩
    · exact Nat.lt_add_right _ (hvalid.entry g e hold c hc)
    · obtain rfl := Value.cls.inj (hv.symm.trans hc)
      omega

end Hoist

/-! ### The walks -/

/-- Every search for a method ends. -/
def MethodWalksEnd (h : Heap) : Prop := ∀ c name, ∃ n, h.findMethod name n (some c) ≠ none

/-- With initialisers that return, the fields of every class get initialised. -/
def InitWalksEnd (h : Heap) : Prop :=
  ∀ (ω : Type) (evalExpr : Expr → Env → Prog ω Value), (∀ e env, (evalExpr e env).Total) →
    ∀ s : Machine ω, s.heap = h → ∀ c < h.classes.length, ∀ fields,
      ∃ n, (initFieldsRecursive evalExpr n c fields s).value.isSome

theorem memberName_of_isMethod {name : Text} {s : Stmt} (hs : isMethod name s) :
    s.memberName? = some name := by
  unfold isMethod at hs
  split at hs
  · exact congrArg some (of_decide_eq_true hs)
  · cases hs

theorem findMethod_eq_walk (h : Heap) (name : Text) (n : ℕ) (c : Option ℕ) :
    h.findMethod name n c = walk h.classLink (fun c => (h.classes[c]?).bind fun ci =>
      (ci.members.find? (isMethod name)).map (c, ·)) n c := by
  induction n generalizing c with
  | zero => cases c <;> rfl
  | succ n ih =>
    cases c with
    | none => rfl
    | some c =>
      rw [findMethod, walk, classLink]
      cases h.classes[c]? with
      | none => cases n <;> rfl
      | some ci =>
        simp only [Option.bind_some, ih]
        cases ci.members.find? (isMethod name) <;> rfl

theorem ends_classLink_iff (h : Heap) :
    (∀ c, Ends h.classLink c) ↔ Ringless h.classLink := by
  refine ends_iff_ringless (Set.finite_lt_nat h.classes.length) fun a b hab => ?_
  by_contra hge
  rw [classLink_eq_none h (Nat.le_of_not_lt hge)] at hab
  cases hab

theorem methodWalksEnd_iff (h : Heap) : h.MethodWalksEnd ↔ Ringless h.classLink := by
  rw [← ends_classLink_iff]
  constructor
  · intro hends c
    obtain ⟨name, hname⟩ := exists_notMem (h.classes.flatMap fun ci =>
      ci.members.filterMap Stmt.memberName?)
    obtain ⟨n, hn⟩ := hends c name
    rw [findMethod_eq_walk] at hn
    refine ends_of_walk (fun c => ?_) hn
    rw [Option.bind_eq_none_iff]
    refine fun ci hci => Option.map_eq_none_iff.mpr <| List.find?_eq_none.mpr fun s hs hmethod =>
      hname ?_
    exact List.mem_flatMap.mpr ⟨ci, List.mem_of_getElem? hci,
      List.mem_filterMap.mpr ⟨s, hs, memberName_of_isMethod hmethod⟩⟩
  · intro hends c name
    obtain ⟨n, hn⟩ := hends c
    refine ⟨n, ?_⟩
    rw [findMethod_eq_walk]
    exact walk_ne_none hn

end Heap

theorem total_initFields {ω : Type} {evalExpr : Expr → Env → Prog ω Value}
    (heval : ∀ e env, (evalExpr e env).Total) (members : List Stmt) (env : Env) (fields : ℕ) :
    (initFields evalExpr members env fields).Total := by
  induction members with
  | nil => exact Exec.total_pure ()
  | cons s members ih =>
    cases s with
    | varDecl line name type init isFixed =>
      rw [initFields]
      refine Exec.Total.bind ?_ fun v => (Exec.total_act _ _).bind fun _ => ih
      cases init with
      | some e => exact heval e env
      | none => exact Exec.total_pure _
    | _ => exact ih

/-- The fields get initialised exactly when the walk up reaches a class without a parent: the
whole way up is made before the first initialiser is evaluated. -/
theorem initFieldsRecursive_isSome {ω : Type} {evalExpr : Expr → Env → Prog ω Value}
    (heval : ∀ e env, (evalExpr e env).Total) {s : Machine ω} (hvalid : s.heap.ClassesValid) (n : ℕ)
    {c : ℕ} (hc : c < s.heap.classes.length) (fields : ℕ) :
    (initFieldsRecursive evalExpr n c fields s).value.isSome ↔
      climb s.heap.classLink n c = none := by
  induction n generalizing c with
  | zero => exact ⟨fun h => (Bool.false_ne_true h).elim, nofun⟩
  | succ n ih =>
    obtain ⟨ci, hci⟩ : ∃ ci, s.heap.classes[c]? = some ci := ⟨_, List.getElem?_eq_getElem hc⟩
    have hrest : ∀ u : Unit, (do
        let env ← envNew ci.closure
        initFields evalExpr ci.members env fields : Prog ω Unit).Total := by
      intro _
      refine Exec.Total.bind ?_ fun env => total_initFields heval _ env fields
      exact (Exec.total_read _).bind fun _ => (Exec.total_act _ _).bind fun _ => Exec.total_pure _
    have hread : (Exec.readSome fun t : Machine ω => t.heap.classes[c]? :
        Prog ω ClassInfo) s = ⟨[], s, some ci⟩ := by
      rw [Exec.readSome, hci]
    have hlink : s.heap.classLink c = ci.parent := by
      rw [Heap.classLink, hci]
      rfl
    rw [initFieldsRecursive, Exec.bind_of_some (by rw [hread]), hread, climb_succ, hlink]
    rw [Exec.isSome_bind_of_total hrest]
    cases hp : ci.parent with
    | none => exact ⟨fun _ => rfl, fun _ => rfl⟩
    | some p => exact ih (hvalid.link c p (hlink.trans hp))

theorem Heap.initWalksEnd_iff {h : Heap} (hvalid : h.ClassesValid) :
    h.InitWalksEnd ↔ Ringless h.classLink := by
  rw [← h.ends_classLink_iff]
  constructor
  · intro hinit c
    by_cases hc : c < h.classes.length
    · obtain ⟨n, hn⟩ := hinit Unit (fun _ _ => pure .void) (fun _ _ => Exec.total_pure _)
        ⟨h, ⟨[], false, none, none, none⟩, ()⟩ rfl c hc 0
      exact ⟨n, (initFieldsRecursive_isSome (fun _ _ => Exec.total_pure _) hvalid n hc 0).mp hn⟩
    · exact ⟨1, by rw [climb_succ, h.classLink_eq_none (Nat.le_of_not_lt hc)]; rfl⟩
  · rintro hends ω evalExpr heval s rfl c hc fields
    obtain ⟨n, hn⟩ := hends c
    exact ⟨n, (initFieldsRecursive_isSome heval hvalid n hc fields).mpr hn⟩

/-! ### Runs -/

/-- Every walk up a class ends. -/
structure Heap.WalksEnd (h : Heap) : Prop where
  ringless : Ringless h.classLink
  method : h.MethodWalksEnd
  init : h.InitWalksEnd

theorem Heap.walksEnd_iff {h : Heap} (hvalid : h.ClassesValid) :
    h.WalksEnd ↔ Ringless h.classLink := by
  constructor
  · exact fun hends => hends.ringless
  · intro hring
    exact ⟨hring, h.methodWalksEnd_iff.mpr hring, (initWalksEnd_iff hvalid).mpr hring⟩

/-- A statement list starts and declares its classes, or something else happens. -/
inductive ClassEvent
  | hoist (list : List Stmt) (env : Env)
  | other

inductive ClassStep : Heap → ClassEvent → Heap → Prop
  | hoist {h : Heap} {f : ℕ} {outer : Env} {list : List Stmt} :
      f < h.frames.length →
      ClassStep h (.hoist list (f :: outer)) (h.hoistClasses list (f :: outer))
  -- nothing else makes a class or sets a link
  | other {h h' : Heap} :
      h'.classes = h.classes → h'.ClassesValid → ClassStep h .other h'

/-- What the interpreter does to its classes. -/
def classSystem : LTS Heap ClassEvent where
  init h := h.classes = [] ∧ h.ClassesValid
  step := ClassStep

/-- The names of the list that starts form no ring. -/
def RinglessHoist (h : Heap) : ClassEvent → Prop
  | .hoist list env => Ringless (h.hoistedExtends list env)
  | .other => True

theorem classesValid_of_run {ls : List ClassEvent} {h : Heap} (hrun : classSystem.Run ls h) :
    h.ClassesValid := by
  refine LTS.Run.invariant (I := fun _ h => h.ClassesValid) ?_ ?_ hrun
  · exact fun h hinit => hinit.2
  · intro _ h ev h' hvalid hstep
    cases hstep with
    | hoist hf => exact Heap.classesValid_hoistClasses hvalid hf
    | other _ hvalid' => exact hvalid'

/-- The run of one hoisting. -/
theorem run_singleton {C : Heap → ClassEvent → Prop} {h h' : Heap} {ev : ClassEvent}
    (hnil : h.classes = []) (hvalid : h.ClassesValid) (hstep : ClassStep h ev h') (hC : C h ev) :
    (classSystem.restrict C).Run [ev] h' :=
  LTS.Run.snoc (.nil (And.intro hnil hvalid)) (And.intro hstep hC)

theorem classLink_congr {h h' : Heap} (hclasses : h'.classes = h.classes) :
    h'.classLink = h.classLink := by
  funext c
  rw [Heap.classLink, Heap.classLink, hclasses]

theorem ringless_of_run {ls : List ClassEvent} {h : Heap}
    (hrun : (classSystem.restrict RinglessHoist).Run ls h) : Ringless h.classLink := by
  suffices h.ClassesValid ∧ Ringless h.classLink from this.2
  refine LTS.Run.invariant (I := fun _ h => h.ClassesValid ∧ Ringless h.classLink) ?_ ?_ hrun
  · rintro h ⟨hnil, hvalid⟩
    refine ⟨hvalid, ringless_of_rank id fun a b hab => ?_⟩
    rw [Heap.classLink_eq_none h (by rw [hnil]; exact Nat.zero_le a)] at hab
    cases hab
  · rintro _ h ev h' ⟨hvalid, hring⟩ ⟨hstep, hcond⟩
    cases hstep with
    | hoist hf =>
      constructor
      · exact Heap.classesValid_hoistClasses hvalid hf
      · exact (Heap.ringless_hoistClasses hvalid hf hring).mpr hcond
    | other hclasses hvalid' => exact ⟨hvalid', classLink_congr hclasses ▸ hring⟩

/-- **Where the walks end.** In the checker they end exactly when the names of the program's
classes form no ring. In the interpreter they end as long as no statement list has such a
ring, and the first list that has one breaks them. -/
theorem class_walks_end_iff (program : List Stmt) (ls : List ClassEvent) (h : Heap) :
    ((Ringless (registerClasses program).link ∧ (registerClasses program).MemberWalksEnd) ↔
      Ringless (checkedExtends program)) ∧
    ((classSystem.restrict RinglessHoist).Run ls h → h.WalksEnd) ∧
    (classSystem.Run ls h → h.WalksEnd → ∀ list env h', classSystem.step h (.hoist list env) h' →
      (h'.WalksEnd ↔ Ringless (h.hoistedExtends list env))) := by
  refine ⟨?_, fun hrun => ?_, fun hrun hends list env h' hstep => ?_⟩
  · rw [memberWalksEnd_iff, and_self]
    exact ringless_registerClasses program
  · exact (Heap.walksEnd_iff (classesValid_of_run hrun.of_restrict)).mpr (ringless_of_run hrun)
  · have hvalid := classesValid_of_run hrun
    cases hstep with
    | hoist hf =>
      rw [Heap.walksEnd_iff (Heap.classesValid_hoistClasses hvalid hf)]
      exact Heap.ringless_hoistClasses hvalid hf hends.ringless

/-- The heap of an interpreter with nothing but its global frame. -/
def Heap.globalsOnly : Heap := ⟨[[]], [], [], [], [], [], [], []⟩

theorem Heap.classesValid_globalsOnly : globalsOnly.ClassesValid := by
  constructor
  · intro c p hp
    cases hp
  · intro f e he c _
    have hnil : globalsOnly.frame f = [] := by
      unfold frame globalsOnly
      cases f <;> rfl
    rw [hnil] at he
    cases he

/-- `class A` and `class B extends A`: the names form no ring, and every walk ends. -/
theorem class_walks_end_iff_twoClasses :
    ∃ h, (classSystem.restrict RinglessHoist).Run [.hoist
      [.classDecl 1 (txt "A") [] 0 none, .classDecl 2 (txt "B") [] 0 (some (txt "A"))] [0]] h ∧
      h.WalksEnd := by
  set list : List Stmt :=
    [.classDecl 1 (txt "A") [] 0 none, .classDecl 2 (txt "B") [] 0 (some (txt "A"))] with hlist
  have hextends : Heap.globalsOnly.hoistedExtends list [0]
      = fun i => if i = txt "B" then some (txt "A") else none := by
    have hclauses : Heap.globalsOnly.hoistedClauses list [0] = [(txt "B", txt "A")] := by decide
    have hnames : classNames list = [txt "A", txt "B"] := rfl
    funext i
    rw [Heap.hoistedExtends, hclauses, hnames, extendsIn]
    by_cases hi : i = txt "B"
    · subst hi
      rfl
    · rw [lastClause, lastClause, if_neg (Ne.symm hi), if_neg hi]
      exact ite_self none
  have hring : RinglessHoist Heap.globalsOnly (.hoist list [0]) := by
    rw [RinglessHoist, hextends]
    refine ringless_of_rank (fun i => if i = txt "B" then 1 else 0) fun a b hab => ?_
    split_ifs at hab with ha
    obtain rfl := Option.some.inj hab
    rw [if_pos ha, if_neg (by decide)]
    exact Nat.zero_lt_one
  have hrun : (classSystem.restrict RinglessHoist).Run [.hoist list [0]]
      (Heap.globalsOnly.hoistClasses list [0]) :=
    run_singleton rfl Heap.classesValid_globalsOnly (.hoist Nat.zero_lt_one) hring
  exact ⟨_, hrun, (class_walks_end_iff list _ _).2.1 hrun⟩

/-- The parser accepts `class A extends A`, both passes link the class to itself, and no
walk for a name that it does not have ends. -/
theorem class_extends_itself :
    ∃ r, parseProgram 30 (txt "class A extends A \x7b\x7d") = some r ∧ r.hadError = false ∧
      ¬ Ringless (registerClasses r.stmts).link ∧ ¬ (registerClasses r.stmts).MemberWalksEnd ∧
      ∃ h, classSystem.Run [.hoist r.stmts [0]] h ∧
        ¬ Ringless h.classLink ∧ ¬ h.MethodWalksEnd ∧ ¬ h.InitWalksEnd := by
  have htoks : tokenize (txt "class A extends A \x7b\x7d") =
      ([⟨.kwClass, txt "class", 1⟩, ⟨.ident, txt "A", 1⟩, ⟨.kwExtends, txt "extends", 1⟩,
        ⟨.ident, txt "A", 1⟩, ⟨.lbrace, txt "\x7b", 1⟩, ⟨.rbrace, txt "\x7d", 1⟩], 1) := by
    decide +kernel
  have hparse : parseProgram 30 (txt "class A extends A \x7b\x7d")
      = some ⟨[.classDecl 1 (txt "A") [] 0 (some (txt "A"))], false⟩ := by
    rw [parseProgram, runProgram, initParser, htoks]
    rfl
  refine ⟨_, hparse, rfl, ?_⟩
  set list : List Stmt := [.classDecl 1 (txt "A") [] 0 (some (txt "A"))]
  have htable : ¬ Ringless (registerClasses list).link := fun h => h 0 ⟨1, Nat.one_pos, rfl⟩
  have hheap : ¬ Ringless (Heap.globalsOnly.hoistClasses list [0]).classLink :=
    fun h => h 0 ⟨1, Nat.one_pos, rfl⟩
  have hrun : (classSystem.restrict fun _ _ => True).Run [.hoist list [0]]
      (Heap.globalsOnly.hoistClasses list [0]) :=
    run_singleton rfl Heap.classesValid_globalsOnly (.hoist Nat.zero_lt_one) trivial
  have hvalid : (Heap.globalsOnly.hoistClasses list [0]).ClassesValid :=
    Heap.classesValid_hoistClasses Heap.classesValid_globalsOnly Nat.zero_lt_one
  refine ⟨htable, fun h => htable ((memberWalksEnd_iff _).mp h), _, hrun.of_restrict, hheap, ?_, ?_⟩
  · exact fun h => hheap ((Heap.methodWalksEnd_iff _).mp h)
  · exact fun h => hheap ((Heap.initWalksEnd_iff hvalid).mp h)

end Jaguar
