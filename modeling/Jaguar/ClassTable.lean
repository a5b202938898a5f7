/-
The checker's class table (`register_classes`, `find_class`, `find_class_member` of
`typecheck.c`), and when its parent links form no ring.

The table is kept in the order of declaration, so that a class is its place in the table;
the source's list holds the newest first.

* `registerClasses` — the table of a program;
* `registerClasses_link` — its links, set clause by clause;
* `ringless_registerClasses` — **they form no ring exactly when the names do not**;
* `memberWalksEnd_iff` — and then exactly every walk up a class ends.
-/
import Jaguar.Ast
import Jaguar.Climb
import Mathlib.Data.List.Induction
import Mathlib.Data.List.Range

namespace Jaguar

structure ClassSig where
  name : Text
  members : List Stmt
  parent : Option ℕ

abbrev ClassTable := List ClassSig

/-- The name of a class declaration. -/
def Stmt.className? : Stmt → Option Text
  | .classDecl _ name _ _ _ => some name
  | _ => none

/-- The name of a class declaration and the one it extends. -/
def Stmt.extendsClause? : Stmt → Option (Text × Text)
  | .classDecl _ name _ _ (some parentName) => some (name, parentName)
  | _ => none

/-- The place of the last of these names. -/
def findLast (names : List Text) (name : Text) : Option ℕ :=
  match names with
  | [] => none
  | n :: rest =>
    match findLast rest name with
    | some i => some (i + 1)
    | none => if n = name then some 0 else none

/-- `find_class`. -/
def findClass (classes : ClassTable) (name : Text) : Option ℕ :=
  findLast (classes.map ClassSig.name) name

/-- The first pass of `register_classes`, for one statement. -/
def Stmt.classSig? : Stmt → Option ClassSig
  | .classDecl _ name members _ _ => some ⟨name, members, none⟩
  | _ => none

/-- The second pass of `register_classes`, for one statement. -/
def resolveParent (classes : ClassTable) (s : Stmt) : ClassTable :=
  match s with
  | .classDecl _ name _ _ (some parentName) =>
    match findClass classes name with
    | some self => classes.modify self fun c => { c with parent := findClass classes parentName }
    | none => classes
  | _ => classes

def registerClasses (list : List Stmt) : ClassTable :=
  list.foldl resolveParent (list.filterMap Stmt.classSig?)

/-- The parent link of a class. -/
def ClassTable.link (classes : ClassTable) (c : ℕ) : Option ℕ := (classes[c]?).bind (·.parent)

/-- Whether a member is the method, or the field, of this name. -/
def isMember (name : Text) (wantMethod : Bool) : Stmt → Bool
  | .funDecl _ n _ _ _ _ => wantMethod && n = name
  | .varDecl _ n _ _ _ => !wantMethod && n = name
  | _ => false

/-- `find_class_member`, for a chain of at most `n` classes. -/
def findClassMember (classes : ClassTable) (name : Text) (wantMethod : Bool) : ℕ → Option ℕ →
    Option (Option Stmt)
  | _, none => some none
  | 0, some _ => none
  | n + 1, some c =>
    match classes[c]? with
    | none => some none
    | some sig =>
      match sig.members.find? (isMember name wantMethod) with
      | some s => some (some s)
      | none => findClassMember classes name wantMethod n sig.parent

/-! ### Names and places -/

theorem findLast_append (names : List Text) (n name : Text) :
    findLast (names ++ [n]) name = if n = name then some names.length else findLast names name := by
  induction names with
  | nil => rfl
  | cons m names ih =>
    rw [List.cons_append, findLast, ih, findLast]
    split_ifs <;> rfl

theorem findLast_eq_some {names : List Text} {name : Text} {i : ℕ}
    (h : findLast names name = some i) : names[i]? = some name := by
  induction names generalizing i with
  | nil => cases h
  | cons n names ih =>
    rw [findLast] at h
    split at h
    · next j hj =>
      obtain rfl := Option.some.inj h
      exact ih hj
    · split_ifs at h with hn
      obtain rfl := Option.some.inj h
      exact congrArg some hn

theorem findLast_isSome {names : List Text} {name : Text} :
    (findLast names name).isSome ↔ name ∈ names := by
  induction names using List.reverseRecOn with
  | nil => simp [findLast]
  | append_singleton names n ih =>
    rw [findLast_append]
    by_cases hn : n = name
    · simp [hn]
    · simp [hn, Ne.symm hn, ih]

theorem findLast_inj {names : List Text} {m n : Text} {i : ℕ} (hm : findLast names m = some i)
    (hn : findLast names n = some i) : m = n :=
  Option.some.inj ((findLast_eq_some hm).symm.trans (findLast_eq_some hn))

/-! ### The links -/

/-- The class names of a statement list, in order. -/
def classNames (list : List Stmt) : List Text := list.filterMap Stmt.className?

/-- The `extends` clauses of a statement list, in order. -/
def extendsClauses (list : List Stmt) : List (Text × Text) := list.filterMap Stmt.extendsClause?

/-- The class that the checker takes a class to extend: what the last `extends` clause of a
class of this name says, if there is such a class. -/
def checkedExtends (program : List Stmt) : Text → Option Text :=
  extendsIn (findLast (classNames program)) (extendsClauses program)

theorem classSig_names (list : List Stmt) :
    (list.filterMap Stmt.classSig?).map ClassSig.name = classNames list := by
  rw [classNames, List.map_filterMap]
  refine List.filterMap_congr fun s _ => ?_
  cases s <;> rfl

theorem findClass_modify (classes : ClassTable) (c : ℕ) (p : Option ℕ) :
    findClass (classes.modify c fun sig => { sig with parent := p }) = findClass classes := by
  have hnames : (classes.modify c fun sig => { sig with parent := p }).map ClassSig.name
      = classes.map ClassSig.name := by
    refine List.ext_getElem? fun i => ?_
    simp only [List.getElem?_map, List.getElem?_modify]
    split_ifs <;> cases classes[i]? <;> rfl
  funext name
  rw [findClass, hnames, findClass]

theorem link_modify {classes : ClassTable} {c : ℕ} (hc : c < classes.length) (p : Option ℕ) :
    ClassTable.link (classes.modify c fun sig => { sig with parent := p })
      = Function.update classes.link c p := by
  funext i
  rw [ClassTable.link, List.getElem?_modify]
  by_cases hi : i = c
  · subst hi
    rw [Function.update_self, List.getElem?_eq_getElem hc]
    simp
  · rw [Function.update_of_ne hi]
    simp [ClassTable.link, Ne.symm hi]

theorem findClass_lt {classes : ClassTable} {name : Text} {c : ℕ}
    (h : findClass classes name = some c) : c < classes.length := by
  have hget := (List.getElem?_eq_some_iff.mp (findLast_eq_some h)).1
  rwa [List.length_map] at hget

theorem findClass_resolveParent (classes : ClassTable) (s : Stmt) :
    findClass (resolveParent classes s) = findClass classes := by
  unfold resolveParent
  split
  · split
    · exact findClass_modify classes _ _
    · rfl
  · rfl

theorem findClass_registerClasses (program : List Stmt) :
    findClass (registerClasses program) = findLast (classNames program) := by
  have hfold : ∀ (ss : List Stmt) (classes : ClassTable),
      findClass (ss.foldl resolveParent classes) = findClass classes := by
    intro ss
    induction ss with
    | nil => exact fun _ => rfl
    | cons s ss ih =>
      intro classes
      rw [List.foldl_cons, ih, findClass_resolveParent]
  rw [registerClasses, hfold]
  funext name
  rw [findClass, classSig_names]

theorem foldl_resolveParent_link (list : List Stmt) (classes : ClassTable) :
    ClassTable.link (list.foldl resolveParent classes)
      = linkBy (findClass classes) (findClass classes) classes.link (extendsClauses list) := by
  induction list generalizing classes with
  | nil => rfl
  | cons s list ih =>
    rw [List.foldl_cons, ih, extendsClauses, extendsClauses]
    -- one statement sets the link of its clause, if it has one
    have hnone : s.extendsClause? = none → resolveParent classes s = classes := by
      intro h
      unfold resolveParent
      split
      · cases h
      · rfl
    cases hs : s.extendsClause? with
    | none => rw [hnone hs, List.filterMap_cons_none hs]
    | some c =>
      obtain ⟨line, name, members, vis, parentName, rfl, rfl⟩ : ∃ line name members vis parentName,
          s = .classDecl line name members vis (some parentName) ∧ c = (name, parentName) := by
        unfold Stmt.extendsClause? at hs
        split at hs
        · exact ⟨_, _, _, _, _, rfl, (Option.some.inj hs).symm⟩
        · cases hs
      rw [List.filterMap_cons_some hs, linkBy_cons, resolveParent]
      cases hself : findClass classes name with
      | none => rfl
      | some self => rw [findClass_modify, link_modify (findClass_lt hself)]

theorem registerClasses_link (program : List Stmt) :
    (registerClasses program).link
      = linkBy (findLast (classNames program)) (findLast (classNames program)) (fun _ => none)
        (extendsClauses program) := by
  have hclass : findClass (program.filterMap Stmt.classSig?) = findLast (classNames program) := by
    funext name
    rw [findClass, classSig_names]
  have hlink : ClassTable.link (program.filterMap Stmt.classSig?) = fun _ => none := by
    funext i
    rw [ClassTable.link, Option.bind_eq_none_iff]
    intro sig hsig
    obtain ⟨s, -, hs⟩ := List.mem_filterMap.mp (List.mem_of_getElem? hsig)
    unfold Stmt.classSig? at hs
    split at hs
    · obtain rfl := Option.some.inj hs
      rfl
    · cases hs
  rw [registerClasses, foldl_resolveParent_link, hclass, hlink]

theorem namedLinks_registerClasses (program : List Stmt) :
    NamedLinks (registerClasses program).link (fun _ => False) (findLast (classNames program))
      (checkedExtends program) := by
  rw [registerClasses_link]
  refine namedLinks_linkBy (fun _ _ h => h.elim) (fun _ _ _ h => h)
    (fun _ _ _ => findLast_inj) (fun _ _ => rfl) (fun _ _ h => h) (fun _ _ hnone h => ?_) _
  rw [hnone] at h
  cases h

/-- **The links form no ring exactly when the names form none.** -/
theorem ringless_registerClasses (program : List Stmt) :
    Ringless (registerClasses program).link ↔ Ringless (checkedExtends program) :=
  (namedLinks_registerClasses program).ringless_iff.trans
    ⟨fun h => h.2, fun h => ⟨fun _ hfalse => hfalse.elim, h⟩⟩

/-! ### Walks up a class -/

/-- Every walk up a class for a member ends. -/
def ClassTable.MemberWalksEnd (classes : ClassTable) : Prop :=
  ∀ c name wantMethod, ∃ n, findClassMember classes name wantMethod n (some c) ≠ none

/-- The name of a field or a method. -/
def Stmt.memberName? : Stmt → Option Text
  | .funDecl _ name _ _ _ _ => some name
  | .varDecl _ name _ _ _ => some name
  | _ => none

theorem exists_notMem (names : List Text) : ∃ name, name ∉ names := by
  refine ⟨0 :: names.flatten, fun h => ?_⟩
  have hle := (List.sublist_flatten_of_mem h).length_le
  rw [List.length_cons] at hle
  omega

theorem memberName_of_isMember {name : Text} {wantMethod : Bool} {s : Stmt}
    (h : isMember name wantMethod s) : s.memberName? = some name := by
  unfold isMember at h
  split at h
  · exact congrArg some (of_decide_eq_true (Bool.and_eq_true_iff.mp h).2)
  · exact congrArg some (of_decide_eq_true (Bool.and_eq_true_iff.mp h).2)
  · cases h

theorem findClassMember_eq_walk (classes : ClassTable) (name : Text) (wantMethod : Bool) (n : ℕ)
    (c : Option ℕ) :
    findClassMember classes name wantMethod n c = walk classes.link
      (fun c => (classes[c]?).bind fun sig => sig.members.find? (isMember name wantMethod)) n c := by
  induction n generalizing c with
  | zero => cases c <;> rfl
  | succ n ih =>
    cases c with
    | none => rfl
    | some c =>
      rw [findClassMember, walk, ClassTable.link]
      cases classes[c]? with
      | none => cases n <;> rfl
      | some sig =>
        simp only [Option.bind_some, ih]
        cases sig.members.find? (isMember name wantMethod) <;> rfl

/-- **Every walk ends exactly when there is no ring.** -/
theorem memberWalksEnd_iff (classes : ClassTable) :
    classes.MemberWalksEnd ↔ Ringless classes.link := by
  have hdom : ∀ a b, classes.link a = some b → a ∈ {i | i < classes.length} := by
    intro a b h
    obtain ⟨sig, hsig, -⟩ := Option.bind_eq_some_iff.mp h
    exact (List.getElem?_eq_some_iff.mp hsig).1
  rw [← ends_iff_ringless (Set.finite_lt_nat classes.length) hdom]
  constructor
  · intro h c
    obtain ⟨name, hname⟩ := exists_notMem (classes.flatMap fun sig =>
      sig.members.filterMap Stmt.memberName?)
    obtain ⟨n, hn⟩ := h c name true
    rw [findClassMember_eq_walk] at hn
    refine ends_of_walk (fun c => ?_) hn
    rw [Option.bind_eq_none_iff]
    refine fun sig hsig => List.find?_eq_none.mpr fun s hs hmember => hname ?_
    exact List.mem_flatMap.mpr ⟨sig, List.mem_of_getElem? hsig,
      List.mem_filterMap.mpr ⟨s, hs, memberName_of_isMember hmember⟩⟩
  · intro h c name wantMethod
    obtain ⟨n, hn⟩ := h c
    refine ⟨n, ?_⟩
    rw [findClassMember_eq_walk]
    exact walk_ne_none hn

end Jaguar
