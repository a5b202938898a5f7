/-
The checker's lookup of a method and the interpreter's (`find_class_member` after
`register_classes`, `find_method` after `hoist_classes`).

Both number the classes of a statement list in the order of their declarations, so the two
hierarchies are compared place by place: they hold the same members, and where no name is
declared twice they have the same links. Then the two lookups take the same walk.

* `members_registerClasses`, `members_hoistClasses` — the members of the classes;
* `classLink_globalsOnly` — the links agree;
* `findClassMember_eq_findMethod` — **the lookups agree, at every bound on the walk**;
* `method_lookups_agree` — and without rings both end, with the same method of the same class.
-/
import Jaguar.ClassLinks

namespace Jaguar

/-! ### The members -/

/-- The members of a class declaration. -/
def Stmt.classMembers? : Stmt → Option (List Stmt)
  | .classDecl _ _ members _ _ => some members
  | _ => none

theorem map_members_modify (classes : ClassTable) (c : ℕ) (p : Option ℕ) :
    (classes.modify c fun sig => { sig with parent := p }).map ClassSig.members
      = classes.map ClassSig.members := by
  refine List.ext_getElem? fun i => ?_
  simp only [List.getElem?_map, List.getElem?_modify]
  split_ifs <;> cases classes[i]? <;> rfl

theorem map_members_resolveParent (classes : ClassTable) (s : Stmt) :
    (resolveParent classes s).map ClassSig.members = classes.map ClassSig.members := by
  unfold resolveParent
  split
  · split
    · exact map_members_modify classes _ _
    · rfl
  · rfl

theorem members_registerClasses (list : List Stmt) :
    (registerClasses list).map ClassSig.members = list.filterMap Stmt.classMembers? := by
  have hfold : ∀ (ss : List Stmt) (classes : ClassTable),
      (ss.foldl resolveParent classes).map ClassSig.members = classes.map ClassSig.members := by
    intro ss
    induction ss with
    | nil => exact fun _ => rfl
    | cons s ss ih =>
      intro classes
      rw [List.foldl_cons, ih, map_members_resolveParent]
  rw [registerClasses, hfold, List.map_filterMap]
  refine List.filterMap_congr fun s _ => ?_
  cases s <;> rfl

namespace Heap

theorem members_hoistClass (env : Env) (h : Heap) (s : Stmt) :
    (hoistClass env h s).classes.map ClassInfo.members
      = h.classes.map ClassInfo.members ++ s.classMembers?.toList := by
  cases s with
  | classDecl line name members vis parentName =>
    have hdefine : ∀ (h : Heap) (v : Value), (h.envDefine env name v true).classes = h.classes := by
      intro h v
      cases env <;> rfl
    rw [hoistClass, hdefine, List.map_append]
    rfl
  | _ => exact (List.append_nil _).symm

theorem members_linkClass (env : Env) (h : Heap) (s : Stmt) :
    (linkClass env h s).classes.map ClassInfo.members = h.classes.map ClassInfo.members := by
  unfold linkClass
  split
  · split
    · refine List.ext_getElem? fun i => ?_
      simp only [setParent, List.getElem?_map, List.getElem?_modify]
      split_ifs <;> cases h.classes[i]? <;> rfl
    · rfl
  · rfl

theorem members_hoistClasses (list : List Stmt) (env : Env) (h : Heap) :
    (h.hoistClasses list env).classes.map ClassInfo.members
      = h.classes.map ClassInfo.members ++ list.filterMap Stmt.classMembers? := by
  have hlink : ∀ (ss : List Stmt) (h : Heap),
      (ss.foldl (linkClass env) h).classes.map ClassInfo.members
        = h.classes.map ClassInfo.members := by
    intro ss
    induction ss with
    | nil => exact fun _ => rfl
    | cons s ss ih =>
      intro h
      rw [List.foldl_cons, ih, members_linkClass]
  have hdeclare : ∀ (ss : List Stmt) (h : Heap),
      (ss.foldl (hoistClass env) h).classes.map ClassInfo.members
        = h.classes.map ClassInfo.members ++ ss.filterMap Stmt.classMembers? := by
    intro ss
    induction ss with
    | nil => exact fun _ => (List.append_nil _).symm
    | cons s ss ih =>
      intro h
      rw [List.foldl_cons, ih, members_hoistClass, List.append_assoc]
      cases hs : s.classMembers? with
      | none => rw [List.filterMap_cons_none hs]; rfl
      | some members => rw [List.filterMap_cons_some hs]; rfl
  rw [hoistClasses, hlink, hdeclare]

end Heap

/-! ### The links -/

/-- Where no name is declared twice, at most one clause is of any name. -/
theorem nodup_extendsClauses {list : List Stmt} (hnodup : (classNames list).Nodup) :
    ((extendsClauses list).map Prod.fst).Nodup := by
  refine hnodup.sublist ?_
  rw [classNames, extendsClauses, List.map_filterMap]
  clear hnodup
  induction list with
  | nil => exact List.Sublist.slnil
  | cons s list ih =>
    cases s with
    | classDecl line name members vis parentName =>
      cases parentName with
      | none => exact ih.cons _
      | some parentName => exact ih.cons_cons _
    | _ => exact ih

theorem classFor_globalsOnly (list : List Stmt) :
    Heap.globalsOnly.classFor list [0] = findLast (classNames list) := by
  funext name
  rw [Heap.classFor, Heap.newClass]
  cases findLast (classNames list) name with
  | none => rfl
  | some i => exact congrArg some (Nat.zero_add i)

/-- **The hierarchies are linked alike.** -/
theorem classLink_globalsOnly {list : List Stmt} (hnodup : (classNames list).Nodup) :
    (Heap.globalsOnly.hoistClasses list [0]).classLink = (registerClasses list).link := by
  have hnew : Heap.globalsOnly.newClass list = findLast (classNames list) := by
    funext name
    rw [Heap.newClass]
    cases findLast (classNames list) name with
    | none => rfl
    | some i => exact congrArg some (Nat.zero_add i)
  have hlinks : Heap.globalsOnly.classLink = fun _ => none := rfl
  rw [(Heap.classLink_hoistClasses Nat.zero_lt_one list).1, registerClasses_link, hnew, hlinks,
    Heap.hoistedClauses, classFor_globalsOnly]
  exact linkBy_filter (fun _ _ _ => findLast_inj) (nodup_extendsClauses hnodup)

/-! ### The lookups -/

namespace Heap

theorem isMember_eq_isMethod (name : Text) : isMember name true = isMethod name := by
  funext s
  cases s <;> rfl

/-- The two hierarchies hold the same members. -/
theorem members_globalsOnly (list : List Stmt) (c : ℕ) :
    ((globalsOnly.hoistClasses list [0]).classes[c]?).map ClassInfo.members
      = ((registerClasses list)[c]?).map ClassSig.members := by
  rw [← List.getElem?_map, ← List.getElem?_map, members_hoistClasses, members_registerClasses]
  rfl

/-- **The lookups agree.** Whatever the bound on the walk, the checker finds what the
interpreter does. -/
theorem findClassMember_eq_findMethod {list : List Stmt} (hnodup : (classNames list).Nodup)
    (name : Text) (n : ℕ) (c : Option ℕ) :
    findClassMember (registerClasses list) name true n c
      = ((globalsOnly.hoistClasses list [0]).findMethod name n c).map (Option.map Prod.snd) := by
  rw [findClassMember_eq_walk, findMethod_eq_walk, classLink_globalsOnly hnodup]
  refine walk_map (fun c => ?_) n c
  have hmembers := members_globalsOnly list c
  rw [isMember_eq_isMethod]
  cases hsig : (registerClasses list)[c]? with
  | none =>
    rw [hsig] at hmembers
    rw [Option.map_eq_none_iff.mp hmembers]
    rfl
  | some sig =>
    rw [hsig] at hmembers
    obtain ⟨ci, hci, heq⟩ := Option.map_eq_some_iff.mp hmembers
    rw [hci, Option.bind_some, Option.bind_some, heq, Option.map_map]
    exact Option.map_id.symm ▸ rfl

/-- What a search for a method finds is the first one of a class. -/
theorem members_of_findMethod {h : Heap} {name : Text} {n : ℕ} {c : Option ℕ} {d : ℕ} {s : Stmt}
    (hfind : h.findMethod name n c = some (some (d, s))) :
    ∃ members, (h.classes[d]?).map ClassInfo.members = some members ∧
      members.find? (isMethod name) = some s := by
  induction n generalizing c with
  | zero => cases c <;> cases hfind
  | succ n ih =>
    cases c with
    | none => cases hfind
    | some c =>
      rw [findMethod] at hfind
      split at hfind
      · cases hfind
      · next ci hci =>
        split at hfind
        · next s' hs =>
          obtain ⟨rfl, rfl⟩ := Prod.mk.inj (Option.some.inj (Option.some.inj hfind))
          exact ⟨ci.members, by rw [hci]; rfl, hs⟩
        · exact ih hfind

end Heap

/-- **Arguments are checked against the method that runs.** A name of a class stands for the
same place in the checker's table and in the interpreter's memory, and from there both
lookups end, and both without a method or both with the first one of the same class. -/
theorem method_lookups_agree {list : List Stmt} (hnodup : (classNames list).Nodup)
    (hring : Ringless (checkedExtends list)) {name : Text} (hname : name ∈ classNames list)
    (method : Text) :
    ∃ c, findClass (registerClasses list) name = some c ∧
      (Heap.globalsOnly.hoistClasses list [0]).envGet [0] name = some (.cls c) ∧
      (∃ n, (Heap.globalsOnly.hoistClasses list [0]).findMethod method n (some c) ≠ none) ∧
      (∀ n, findClassMember (registerClasses list) method true n (some c)
        = ((Heap.globalsOnly.hoistClasses list [0]).findMethod method n (some c)).map
            (Option.map Prod.snd)) ∧
      ∀ n d s,
        (Heap.globalsOnly.hoistClasses list [0]).findMethod method n (some c) = some (some (d, s)) →
        ∃ members, ((registerClasses list)[d]?).map ClassSig.members = some members ∧
          ((Heap.globalsOnly.hoistClasses list [0]).classes[d]?).map ClassInfo.members
            = some members ∧
          members.find? (isMember method true) = some s := by
  obtain ⟨c, hc⟩ := Option.isSome_iff_exists.mp (findLast_isSome.mpr hname)
  have hlinks := classLink_globalsOnly hnodup
  refine ⟨c, ?_, ?_, ?_, ?_, fun n d s hfind => ?_⟩
  · rw [findClass_registerClasses, hc]
  · rw [Heap.envGet_hoistClasses Nat.zero_lt_one, hc]
    exact congrArg (fun i => some (Value.cls i)) (Nat.zero_add c)
  · refine (Heap.methodWalksEnd_iff _).mpr ?_ c method
    rw [hlinks]
    exact (ringless_registerClasses list).mpr hring
  · exact fun n => Heap.findClassMember_eq_findMethod hnodup method n (some c)
  · obtain ⟨members, hmembers, hs⟩ := Heap.members_of_findMethod hfind
    rw [Heap.members_globalsOnly] at hmembers
    exact ⟨members, hmembers, (Heap.members_globalsOnly list d).trans hmembers,
      by rw [Heap.isMember_eq_isMethod]; exact hs⟩

/-- `class B extends A` comes first and has no method; the one of `A` is found. -/
theorem method_lookups_agree_inherited :
    ∃ list : List Stmt, list = [.classDecl 1 (txt "B") [] 0 (some (txt "A")),
        .classDecl 2 (txt "A") [.funDecl 3 (txt "f") [] (.new .void) (.block 3 []) false] 0 none] ∧
      ∃ c, (Heap.globalsOnly.hoistClasses list [0]).envGet [0] (txt "B") = some (.cls c) ∧
        findClassMember (registerClasses list) (txt "f") true 2 (some c)
          = some (some (.funDecl 3 (txt "f") [] (.new .void) (.block 3 []) false)) := by
  refine ⟨_, rfl, ?_⟩
  set list : List Stmt := [.classDecl 1 (txt "B") [] 0 (some (txt "A")),
    .classDecl 2 (txt "A") [.funDecl 3 (txt "f") [] (.new .void) (.block 3 []) false] 0 none]
    with hlist
  have hextends : checkedExtends list = fun i => if i = txt "B" then some (txt "A") else none := by
    have hnames : classNames list = [txt "B", txt "A"] := rfl
    have hclauses : extendsClauses list = [(txt "B", txt "A")] := rfl
    funext i
    rw [checkedExtends, hnames, hclauses, extendsIn]
    by_cases hi : i = txt "B"
    · subst hi
      rfl
    · rw [lastClause, lastClause, if_neg (Ne.symm hi), if_neg hi]
      exact ite_self none
  have hring : Ringless (checkedExtends list) := by
    rw [hextends]
    refine ringless_of_rank (fun i => if i = txt "B" then 1 else 0) fun a b hab => ?_
    split_ifs at hab with ha
    obtain rfl := Option.some.inj hab
    rw [if_pos ha, if_neg (by decide)]
    exact Nat.zero_lt_one
  have hnodup : (classNames list).Nodup := by
    have hnames : classNames list = [txt "B", txt "A"] := rfl
    rw [hnames]
    decide
  obtain ⟨c, hc, hget, -, hagree, -⟩ := @method_lookups_agree list hnodup hring (txt "B")
    List.mem_cons_self (txt "f")
  obtain rfl : 0 = c := Option.some.inj hc
  exact ⟨0, hget, (hagree 2).trans rfl⟩

end Jaguar
