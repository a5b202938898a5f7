/-
Which definition a method call runs (`find_method`, `invoke_method`, `E_CALL` of `eval_expr`).

A call on an instance, and `this.m()` in any body that runs on it, starts the search at the class of
the instance; `super.m()` starts it at the parent of the class where the running body stands. What
`this` and `super` mean in a body is decided when the body starts. Both names are keywords, so no
declaration of a program can hide them, and both are fixed, so that no assignment changes them: they
mean the same in every scope of the body, at any depth, for as long as anything runs.

* `Heap.Binds`, `NameRule` — a fixed name of a scope keeps its meaning along every run;
* `Inside`, `Inside.runsOn` — what `this` and `super` mean inside a body;
* `Heap.findMethod_eq` — the search finds the first definition of the chain;
* `method_dispatch` — **which definition runs, for `obj.m()`, `this.m()` and `super.m()`**.
-/
import Jaguar.EnvTree
import Jaguar.LawfulRuns
import Jaguar.MethodLookup

namespace Jaguar

/-! ### Names of a scope -/

theorem Native.all_true (native : Native) : native.All fun _ => True := by
  cases native with
  | task result => cases result <;> trivial
  | superRef p this => trivial
  | _ => exact ⟨fun _ _ => trivial, fun _ _ => trivial⟩

/-- An entry of another frame, or of another name. -/
theorem Heap.scopes_define_of_ne (h : Heap) {f g : ℕ} {e : EnvEntry} {name : Text}
    (hne : g ≠ f ∨ e.name ≠ name) : (h.define f e).scopes g name = h.scopes g name := by
  rw [scopes, scopes]
  rcases h.frame_define_or f e g with heq | ⟨rfl, heq⟩
  · rw [heq]
  · rw [heq, frameFind, if_neg (hne.resolve_left fun h => h rfl), Option.map_map]
    rfl

/-- An assignment does not change what is fixed. -/
theorem Heap.scopes_setVar_of_fixed (h : Heap) {f i g : ℕ} {e : EnvEntry} {name : Text}
    (hentry : (h.frame f)[i]? = some e) (hfixed : e.isFixed = false) (v : Value)
    (hg : ∀ b ∈ h.scopes g name, b.fixed = true) :
    (h.setVar f i v).scopes g name = h.scopes g name := by
  rw [scopes, scopes, frame_setVar]
  by_cases hgf : f = g
  · subst hgf
    rw [if_pos rfl, frameFind_modify, Option.map_map]
    cases hfind : frameFind (h.frame f) name with
    | none => rfl
    | some p =>
      obtain ⟨j, e'⟩ := p
      have hfixed' : e'.isFixed = true := by
        refine hg ⟨e'.value, e'.isFixed⟩ ?_
        rw [scopes, hfind]
        rfl
      have hne : j ≠ i := by
        rintro rfl
        rw [(frameFind_eq_some hfind).1] at hentry
        obtain rfl := Option.some.inj hentry
        rw [hfixed] at hfixed'
        cases hfixed'
      simp [hne]
  · rw [if_neg hgf]

/-- From all of the frames, the outermost of which is the last, the name is that of this fixed
value. -/
structure Heap.Binds (h : Heap) (frames : List ℕ) (name : Text) (v : Value) : Prop where
  valid : ∀ f ∈ frames, f < h.frames.length
  bound : ∃ inner f, frames = inner ++ [f] ∧ (∀ g ∈ inner, h.scopes g name = none) ∧
    h.scopes f name = some ⟨v, true⟩

namespace Heap.Binds

variable {h h' : Heap} {frames frames' : List ℕ} {name : Text} {v : Value}

theorem congr (hb : h.Binds frames name v) (hlength : h.frames.length ≤ h'.frames.length)
    (hscopes : ∀ f ∈ frames, h'.scopes f name = h.scopes f name) : h'.Binds frames name v where
  valid f hf := Nat.lt_of_lt_of_le (hb.valid f hf) hlength
  bound := by
    obtain ⟨inner, f, rfl, hinner, hf⟩ := hb.bound
    refine ⟨inner, f, rfl, fun g hg => ?_, ?_⟩
    · rw [hscopes g (List.mem_append_left _ hg)]
      exact hinner g hg
    · rw [hscopes f (List.mem_append_right _ List.mem_cons_self)]
      exact hf

theorem fixed (hb : h.Binds frames name v) :
    ∀ g ∈ frames, ∀ b ∈ h.scopes g name, b.fixed = true := by
  obtain ⟨inner, f, rfl, hinner, hf⟩ := hb.bound
  intro g hg b hfound
  rcases List.mem_append.mp hg with hg | hg
  · rw [hinner g hg] at hfound
    cases hfound
  · obtain rfl := List.mem_singleton.mp hg
    rw [hf] at hfound
    exact Option.some.inj hfound ▸ rfl

theorem of_frames (hb : h.Binds frames name v) (hframes : h'.frames = h.frames) :
    h'.Binds frames name v :=
  hb.congr (Nat.le_of_eq (congrArg List.length hframes.symm)) fun f _ => by
    rw [scopes, scopes, frame, frame, hframes]

/-- Other names are declared. -/
theorem envDefine (hb : h.Binds frames name v) (env : Env) {name' : Text} (hname : name' ≠ name)
    (v' : Value) (isFixed : Bool) : (h.envDefine env name' v' isFixed).Binds frames name v := by
  cases env with
  | nil => exact hb
  | cons f rest =>
    exact hb.congr (Nat.le_of_eq (List.length_modify _ _ _).symm) fun g _ =>
      h.scopes_define_of_ne (.inr hname)

/-- The outer ones of the frames. -/
theorem suffix (hb : h.Binds frames name v) (hsuffix : frames' <:+ frames) (hne : frames' ≠ []) :
    h.Binds frames' name v where
  valid f hf := hb.valid f (hsuffix.mem hf)
  bound := by
    obtain ⟨inner, f, rfl, hinner, hf⟩ := hb.bound
    rcases List.suffix_concat_iff.mp hsuffix with rfl | ⟨inner', rfl, hsuffix'⟩
    · exact absurd rfl hne
    · exact ⟨inner', f, rfl, fun g hg => hinner g (hsuffix'.mem hg), hf⟩

/-- A scope more. -/
theorem cons {f : ℕ} (hb : h.Binds frames name v) (hf : f < h.frames.length)
    (hnone : h.scopes f name = none) : h.Binds (f :: frames) name v where
  valid := List.forall_mem_cons.mpr ⟨hf, hb.valid⟩
  bound := by
    obtain ⟨inner, g, rfl, hinner, hg⟩ := hb.bound
    exact ⟨f :: inner, g, rfl, List.forall_mem_cons.mpr ⟨hnone, hinner⟩, hg⟩

theorem envFind (hb : h.Binds frames name v) (outer : Env) :
    ∃ f i e, h.envFind (frames ++ outer) name = some (f, i, e) ∧ e.value = v := by
  obtain ⟨inner, f, rfl, hinner, hf⟩ := hb.bound
  obtain ⟨⟨i, e⟩, hentry, heq⟩ := Option.map_eq_some_iff.mp hf
  refine ⟨f, i, e, ?_, (Binding.mk.inj heq).1⟩
  clear hb hf
  induction inner with
  | nil =>
    rw [List.nil_append, List.singleton_append, Heap.envFind, hentry]
  | cons g inner ih =>
    have hnone := Option.map_eq_none_iff.mp (hinner g List.mem_cons_self)
    rw [List.cons_append, List.cons_append, Heap.envFind, hnone]
    exact ih fun g hg => hinner g (List.mem_cons_of_mem _ hg)

theorem envGet (hb : h.Binds frames name v) (outer : Env) :
    h.envGet (frames ++ outer) name = some v := by
  obtain ⟨f, i, e, hfind, rfl⟩ := hb.envFind outer
  rw [Heap.envGet, hfind]
  rfl

end Heap.Binds

section NameRule

variable {ω : Type} {frames : List ℕ} {outer : Env} {name : Text} {v : Value}

/-- The environment is that of one of the scopes, or of other scopes altogether. -/
def InOrElsewhere (frames : List ℕ) (outer env : Env) : Prop :=
  (∀ f ∈ env.head?, f ∉ frames) ∨
    ∃ frames', frames' <:+ frames ∧ frames' ≠ [] ∧ env = frames' ++ outer

/-- A name that is fixed in a scope: whatever runs, be it in one of the frames or elsewhere. Code
that runs in one of the frames declares no such name there. -/
def nameRule (ω : Type) (frames : List ℕ) (outer : Env) (name : Text) (v : Value) : RunRule ω where
  inv s := s.heap.Binds frames name v
  step st := st.post.heap.Binds frames name v
  value _ := True
  own f := f ∉ frames
  runsIn env := InOrElsewhere frames outer env
  binds env name' := (∀ f ∈ env.head?, f ∉ frames) ∨ name' ≠ name
  writable _ := True
  saves _ := True
  assumes _ := True

/-- A declaration: in a scope of the name only other names are declared, as the name is bound. -/
theorem Heap.Binds.define {s : Machine ω} (hb : s.heap.Binds frames name v) {f : ℕ}
    {e : EnvEntry} (hmay : (nameRule ω frames outer name v).MayDefine s f e.name) :
    (s.heap.define f e).Binds frames name v := by
  refine hb.congr (Nat.le_of_eq (List.length_modify _ _ _).symm) fun g hg =>
    s.heap.scopes_define_of_ne ?_
  by_cases hgf : g = f
  · subst hgf
    rcases hmay with hown | ⟨rest, hruns, hbinds | hnone⟩
    · exact absurd hg hown
    · exact .inr (hbinds.resolve_left fun hout => hout g rfl hg)
    · rcases hruns with hout | ⟨frames', hsuffix, hne, henv⟩
      · exact absurd hg (hout g rfl)
      · refine .inr fun hname => ?_
        obtain ⟨f, i, e', hfind, -⟩ := (hb.suffix hsuffix hne).envFind outer
        rw [← henv, ← hname, hnone] at hfind
        cases hfind
  · exact .inl hgf

instance : (nameRule ω frames outer name v).Lawful where
  keeps s a s' hs heffect := by
    refine (and_self_iff (a := s'.heap.Binds frames name v)).mpr ?_
    have hs : s.heap.Binds frames name v := hs
    have hframes : ∀ h : Heap, h.frames = s.heap.frames → h.Binds frames name v := fun _ =>
      hs.of_frames
    cases heffect with
    | newFrame =>
      refine hs.congr (by simp [Heap.newFrame]) fun f _ => ?_
      rw [Heap.scopes_newFrame]
    | define f e _ hmay => exact hs.define hmay
    | setVar f i v' e hentry hfixed _ =>
      refine hs.congr (Nat.le_of_eq (List.length_modify _ _ _).symm) fun g hg => ?_
      exact s.heap.scopes_setVar_of_fixed hentry hfixed v' (hs.fixed g hg)
    | alloc h halloc => exact hframes h halloc.grows.frames
    | hoist f rest list hown _ =>
      have hhoists := s.heap.hoists_hoist list (f :: rest)
      refine hs.congr (Nat.le_of_eq hhoists.length.symm) fun g hg => ?_
      have hframe := hhoists.outer g fun heq => hown (Option.some.inj heq ▸ hg)
      rw [Heap.scopes, Heap.scopes, hframe]
    | setList l h hedits _ => exact hframes h hedits.frames
    | _ => exact hframes _ rfl
  own_new s hs h := Nat.lt_irrefl _ (Heap.Binds.valid hs _ h)
  own_runsIn f rest h := .inl fun g hg => Option.some.inj hg ▸ h
  plain _ _ := trivial
  fresh _ _ _ _ _ _ _ := trivial
  fresh_native _ _ _ _ := trivial
  entry _ _ _ _ _ := trivial
  item _ _ _ _ := trivial
  data _ _ _ _ _ _ := trivial
  fields _ _ _ _ := trivial
  native _ _ native _ _ := ⟨native.all_true, fun _ => trivial⟩
  saved _ _ _ := trivial

end NameRule

/-! ### Classes, instances and parents -/

/-- The classes, the instances and what `super` stands for are as they were. -/
structure Heap.Keeps (h h' : Heap) : Prop where
  classes : h.classes.length ≤ h'.classes.length
  link : ∀ c < h.classes.length, h'.classLink c = h.classLink c
  members : ∀ c < h.classes.length,
    (h'.classes[c]?).map ClassInfo.members = (h.classes[c]?).map ClassInfo.members
  instances : h.instances <+: h'.instances
  natives : h.natives.length ≤ h'.natives.length
  supers : ∀ (q : ℕ) (native : Native), h.natives[q]? = some native → native.isSuper = true →
    h'.natives[q]? = some native

namespace Heap

variable {h h' h'' : Heap}

theorem Keeps.refl (h : Heap) : h.Keeps h where
  classes := Nat.le_refl _
  link _ _ := rfl
  members _ _ := rfl
  instances := List.prefix_rfl
  natives := Nat.le_refl _
  supers _ _ hq _ := hq

theorem Keeps.trans (h₁ : h.Keeps h') (h₂ : h'.Keeps h'') : h.Keeps h'' where
  classes := Nat.le_trans h₁.classes h₂.classes
  link c hc := (h₂.link c (Nat.lt_of_lt_of_le hc h₁.classes)).trans (h₁.link c hc)
  members c hc := (h₂.members c (Nat.lt_of_lt_of_le hc h₁.classes)).trans (h₁.members c hc)
  instances := h₁.instances.trans h₂.instances
  natives := Nat.le_trans h₁.natives h₂.natives
  supers q native hq hsuper := h₂.supers q native (h₁.supers q native hq hsuper) hsuper

/-- Classes are not touched. -/
theorem keeps_of_classes (hclasses : h'.classes = h.classes)
    (hinstances : h.instances <+: h'.instances) (hnatives : h.natives.length ≤ h'.natives.length)
    (hsupers : ∀ (q : ℕ) (native : Native), h.natives[q]? = some native → native.isSuper = true →
      h'.natives[q]? = some native) : h.Keeps h' where
  classes := Nat.le_of_eq (congrArg List.length hclasses.symm)
  link _ _ := by rw [classLink, classLink, hclasses]
  members _ _ := by rw [hclasses]
  instances := hinstances
  natives := hnatives
  supers := hsupers

theorem keeps_of_eq (hclasses : h'.classes = h.classes) (hinstances : h'.instances = h.instances)
    (hnatives : h'.natives = h.natives) : h.Keeps h' :=
  keeps_of_classes hclasses (hinstances ▸ List.prefix_rfl)
    (Nat.le_of_eq (congrArg List.length hnatives.symm)) fun _ _ hq _ => hnatives ▸ hq

theorem classes_hoistFunctions (h : Heap) (list : List Stmt) (env : Env) :
    (h.hoistFunctions list env).classes = h.classes := by
  unfold hoistFunctions
  induction list generalizing h with
  | nil => rfl
  | cons s list ih =>
    rw [List.foldl_cons, ih]
    unfold hoistFunction
    split
    · cases env <;> rfl
    · rfl

/-- Hoisting links no class that was there before. -/
theorem keeps_hoist {f : ℕ} (hf : f < h.frames.length) (outer : Env) (list : List Stmt) :
    h.Keeps ((h.hoistClasses list (f :: outer)).hoistFunctions list (f :: outer)) := by
  have hhoists := h.hoists_hoist list (f :: outer)
  obtain ⟨hlink, hlength, -⟩ := @classLink_hoistClasses h f outer hf list
  have hclasses := classes_hoistFunctions (h.hoistClasses list (f :: outer)) list (f :: outer)
  constructor
  · rw [hclasses, hlength]
    exact Nat.le_add_right _ _
  · intro c hc
    rw [classLink_congr hclasses, hlink]
    refine linkBy_of_forall_ne (fun name hname => ?_) _
    exact Nat.not_le_of_lt hc (newClass_lt hname).1
  · intro c hc
    rw [hclasses, ← List.getElem?_map, members_hoistClasses, List.getElem?_append_left
      (by rwa [List.length_map]), List.getElem?_map]
  · exact hhoists.instances ▸ List.prefix_rfl
  · exact Nat.le_of_eq (congrArg List.length hhoists.natives.symm)
  · exact fun _ _ hq _ => hhoists.natives ▸ hq

end Heap

/-- The classes, the instances and what `super` stands for stay as they were at `h₀`. -/
def keptRule (ω : Type) (h₀ : Heap) : RunRule ω where
  inv s := h₀.Keeps s.heap
  step st := h₀.Keeps st.post.heap
  value _ := True
  own _ := True
  runsIn _ := True
  binds _ _ := True
  writable p := ∀ native, h₀.natives[p]? = some native → native.isSuper = false
  saves _ := True
  assumes _ := True

instance {ω : Type} {h₀ : Heap} : (keptRule ω h₀).Lawful where
  keeps s a s' hs heffect := by
    refine (and_self_iff (a := h₀.Keeps s'.heap)).mpr ?_
    have hs : h₀.Keeps s.heap := hs
    have hsame : ∀ h : Heap, h.classes = s.heap.classes → h.instances = s.heap.instances →
        h.natives = s.heap.natives → h₀.Keeps h := fun _ hclasses hinstances hnatives =>
      hs.trans (Heap.keeps_of_eq hclasses hinstances hnatives)
    cases heffect with
    | alloc h halloc =>
      have hgrows := halloc.grows
      refine hs.trans (Heap.keeps_of_classes hgrows.classes hgrows.instances
        hgrows.natives.length_le fun q native hq _ => ?_)
      obtain ⟨new, hnew⟩ := hgrows.natives
      rw [← hnew, List.getElem?_append_left (List.getElem?_eq_some_iff.mp hq).1]
      exact hq
    | hoist f rest list _ hlt => exact hs.trans (Heap.keeps_hoist hlt rest list)
    | setList l h hedits _ =>
      obtain ⟨lists, nodes, rfl⟩ := hedits.onLists
      exact hsame _ rfl rfl rfl
    | setNative p native hwritable _ _ =>
      refine { hs with natives := ?_, supers := fun q sr hq hsuper => ?_ }
      · rw [List.length_set]
        exact hs.natives
      · have hne : p ≠ q := by
          rintro rfl
          rw [hwritable sr hq] at hsuper
          cases hsuper
        rw [List.getElem?_set_ne hne]
        exact hs.supers q sr hq hsuper
    | _ => exact hsame _ rfl rfl rfl
  own_new _ _ := trivial
  own_runsIn _ _ _ := trivial
  plain _ _ := trivial
  fresh _ _ _ _ _ _ _ := trivial
  fresh_native s p hs hp native hnative := by
    have hlt := (List.getElem?_eq_some_iff.mp hnative).1
    exact absurd (Nat.lt_of_lt_of_le hlt (Heap.Keeps.natives hs)) (Nat.not_lt_of_le hp)
  entry _ _ _ _ _ := trivial
  item _ _ _ _ := trivial
  data _ _ _ _ _ _ := trivial
  fields _ _ _ _ := trivial
  native s p native hs hnative := by
    refine ⟨native.all_true, fun hsuper native₀ hnative₀ => ?_⟩
    by_contra hne
    have hkept := Heap.Keeps.supers hs p native₀ hnative₀ (Bool.eq_true_of_not_eq_false hne)
    rw [hnative] at hkept
    obtain rfl := Option.some.inj hkept
    exact hne hsuper
  saved _ _ _ := trivial

/-! ### The chain of a class -/

/-- The classes from `c` on, each of which extends the next; the last one extends none. -/
structure Heap.Chain (h : Heap) (c : ℕ) (cs : List ℕ) : Prop where
  lineage : Lineage h.classLink c cs
  known : ∀ c ∈ cs, c < h.classes.length

namespace Heap

variable {h h' : Heap} {name : Text} {c : ℕ} {cs : List ℕ}

/-- The definition of the method in the class itself. -/
def methodOf (h : Heap) (name : Text) (c : ℕ) : Option (ℕ × Stmt) :=
  (h.classes[c]?).bind fun ci => (ci.members.find? (isMethod name)).map (c, ·)

/-- The definition in the first of the classes that has one. -/
def firstMethod (h : Heap) (name : Text) (cs : List ℕ) : Option (ℕ × Stmt) :=
  cs.findSome? (h.methodOf name)

/-- The classes that define the method. -/
def definers (h : Heap) (name : Text) (cs : List ℕ) : List ℕ :=
  cs.filter fun c => (h.methodOf name c).isSome

theorem methodOf_fst {p : ℕ × Stmt} (hp : h.methodOf name c = some p) : p.1 = c := by
  obtain ⟨ci, -, hfind⟩ := Option.bind_eq_some_iff.mp hp
  obtain ⟨s, -, rfl⟩ := Option.map_eq_some_iff.mp hfind
  rfl

theorem firstMethod_fst (h : Heap) (name : Text) (cs : List ℕ) :
    (h.firstMethod name cs).map Prod.fst = (h.definers name cs).head? := by
  induction cs with
  | nil => rfl
  | cons c cs ih =>
    rw [firstMethod, List.findSome?_cons, definers, List.filter_cons]
    cases hc : h.methodOf name c with
    | none => exact ih
    | some p => exact congrArg some (methodOf_fst hc)

/-- **The search finds the first definition of the chain.** -/
theorem findMethod_eq (hchain : h.Chain c cs) {n : ℕ} (hn : cs.length ≤ n) :
    h.findMethod name n (some c) = some (h.firstMethod name cs) := by
  rw [findMethod_eq_walk]
  exact hchain.lineage.walk_eq hn

/-- What a search has found is the first definition of the chain. -/
theorem firstMethod_of_findMethod (hchain : h.Chain c cs) {n : ℕ} {p : ℕ × Stmt}
    (hfind : h.findMethod name n (some c) = some (some p)) : h.firstMethod name cs = some p := by
  rw [findMethod_eq_walk] at hfind
  exact hchain.lineage.findSome?_of_walk hfind

theorem Keeps.chain (hkeeps : h.Keeps h') (hchain : h.Chain c cs) : h'.Chain c cs where
  lineage := hchain.lineage.congr fun c hc => hkeeps.link c (hchain.known c hc)
  known c hc := Nat.lt_of_lt_of_le (hchain.known c hc) hkeeps.classes

theorem Keeps.methodOf (hkeeps : h.Keeps h') (hc : c < h.classes.length) :
    h'.methodOf name c = h.methodOf name c := by
  have hmembers : ∀ g : Heap, g.methodOf name c = ((g.classes[c]?).map ClassInfo.members).bind
      fun members => (members.find? (isMethod name)).map (c, ·) := fun g => by
    rw [Heap.methodOf, Option.bind_map]
    rfl
  rw [hmembers, hmembers, hkeeps.members c hc]

theorem Keeps.firstMethod (hkeeps : h.Keeps h') (hknown : ∀ c ∈ cs, c < h.classes.length) :
    h'.firstMethod name cs = h.firstMethod name cs := by
  induction cs with
  | nil => rfl
  | cons c cs ih =>
    rw [Heap.firstMethod, Heap.firstMethod, List.findSome?_cons, List.findSome?_cons,
      hkeeps.methodOf (hknown c List.mem_cons_self)]
    have hrest := ih fun d hd => hknown d (List.mem_cons_of_mem _ hd)
    rw [Heap.firstMethod, Heap.firstMethod] at hrest
    rw [hrest]

/-- A class from which the links end has a chain. -/
theorem exists_chain (hvalid : h.ClassesValid) (hc : c < h.classes.length)
    (hends : Ends h.classLink c) : ∃ cs, h.Chain c cs := by
  obtain ⟨cs, hlineage⟩ := hends.exists_lineage
  refine ⟨cs, hlineage, ?_⟩
  clear hends
  induction hlineage with
  | last _ => exact List.forall_mem_singleton.mpr hc
  | cons hlink _ ih => exact List.forall_mem_cons.mpr ⟨hc, ih (hvalid.link _ _ hlink)⟩

/-- The chain of the parent of a class is what is behind the class. -/
theorem Chain.after {before after : List ℕ} {k p : ℕ} (hchain : h.Chain c (before ++ k :: after))
    (hp : h.classLink k = some p) : h.Chain p after where
  lineage := hchain.lineage.next_after hp
  known d hd := hchain.known d (List.mem_append_right _ (List.mem_cons_of_mem _ hd))

/-- A class with classes behind it extends one of them. -/
theorem Chain.link_of_firstMethod {before after : List ℕ} {k : ℕ} {p : ℕ × Stmt}
    (hchain : h.Chain c (before ++ k :: after)) (hfirst : h.firstMethod name after = some p) :
    ∃ d, h.classLink k = some d := by
  cases hchain.lineage.after_mem with
  | last _ => cases hfirst
  | cons hnext _ => exact ⟨_, hnext⟩

/-- From one definition on, the next one is the first behind its class. -/
theorem next_definer {before after : List ℕ} {k : ℕ}
    (hdefiners : h.definers name cs = before ++ k :: after) :
    ∃ ks ls, cs = ks ++ k :: ls ∧ (h.firstMethod name ls).map Prod.fst = after.head? := by
  obtain ⟨ks, cs', rfl, -, hrest⟩ := List.filter_eq_append_iff.mp hdefiners
  obtain ⟨ks', ls, rfl, -, -, hafter⟩ := List.filter_eq_cons_iff.mp hrest
  refine ⟨ks ++ ks', ls, (List.append_assoc _ _ _).symm, ?_⟩
  rw [firstMethod_fst, definers, hafter]

end Heap

/-! ### Inside a body -/

/-- The names that no declaration has, as they are keywords. -/
def Reserved (name : Text) : Prop := name = txt "this" ∨ name = txt "super"

/-- The name that a statement declares before its list runs. -/
def Stmt.hoistedName? : Stmt → Option Text
  | .funDecl _ name _ _ _ _ => some name
  | .classDecl _ name _ _ _ => some name
  | _ => none

section Inside

variable {ω : Type}

/-- `invoke_method`, up to the body: the environment that the body runs in. -/
def enterMethod (definingClass : ℕ) (method : Stmt) (this : Value) (argv : List Value) :
    Prog ω Env := do
  let ci ← classOf definingClass
  let callEnv ← envNew ci.closure
  envDefine callEnv (txt "this") this true
  bindSuper ci.parent this callEnv
  bindParams method.params argv callEnv
  pure callEnv

theorem invokeMethod_eq (R : Evaluator ω) (definingClass : ℕ) (method : Stmt) (this : Value)
    (argv : List Value) : invokeMethod R definingClass method this argv = (do
      let callEnv ← enterMethod definingClass method this argv
      let r ← execBlock R method.body callEnv
      pure r.value) := by
  simp only [enterMethod, Exec.bind_assoc]
  rfl

/-- One more thing that happens while a body runs: a scope is entered or left, a name is declared, a
list of statements is hoisted, or code runs, in one of the scopes of the body or elsewhere. `outer`
is the environment of the class. -/
inductive BodyStep [Host ω] (outer : Env) : Machine ω → List ℕ → Machine ω → List ℕ → Prop
  | enter {s : Machine ω} {scopes : List ℕ} : BodyStep outer s scopes
      { s with heap := s.heap.newFrame } (s.heap.frames.length :: scopes)
  | leave {s : Machine ω} {f g : ℕ} {scopes : List ℕ} :
      BodyStep outer s (f :: g :: scopes) s (g :: scopes)
  | declare {s : Machine ω} {f : ℕ} {scopes : List ℕ} (e : EnvEntry) : ¬ Reserved e.name →
      BodyStep outer s (f :: scopes) { s with heap := s.heap.define f e } (f :: scopes)
  | hoist {s : Machine ω} {f : ℕ} {scopes : List ℕ} {env : Env} (list : List Stmt) :
      env = f :: scopes ++ outer → (∀ st ∈ list, ∀ name ∈ st.hoistedName?, ¬ Reserved name) →
      BodyStep outer s (f :: scopes)
        { s with heap := (s.heap.hoistClasses list env).hoistFunctions list env } (f :: scopes)
  | expr {s : Machine ω} {scopes : List ℕ} (n : ℕ) (e : Expr) {env : Env} :
      InOrElsewhere scopes outer env →
      ∀ st ∈ ((evaluator n).evalExpr e env s).steps, BodyStep outer s scopes st.post scopes
  | stmt {s : Machine ω} {scopes : List ℕ} (n : ℕ) (code : Stmt) {env : Env} :
      InOrElsewhere scopes outer env → (∀ name, code.Declares name → ¬ Reserved name) →
      ∀ st ∈ ((evaluator n).execStmt code env s).steps, BodyStep outer s scopes st.post scopes

/-- The memory while a body runs that was found in class `k`, on instance `i`: `scopes` are the
scopes of the body, and `outer` is the environment of the class. -/
inductive Inside [Host ω] (i k : ℕ) : Machine ω → List ℕ → Env → Prop
  | start {s s' : Machine ω} {method : Stmt} {argv : List Value} {f : ℕ} {outer : Env} :
      (∀ p ∈ method.params, ¬ Reserved p.name) →
      (enterMethod k method (.inst i) argv s).ends = (some (f :: outer), s') →
      Inside i k s' [f] outer
  | next {s s' : Machine ω} {scopes scopes' : List ℕ} {outer : Env} : Inside i k s scopes outer →
      BodyStep outer s scopes s' scopes' → Inside i k s' scopes' outer

/-- What `this` and `super` mean in the scopes of a body of class `k`, on instance `i`. -/
structure Heap.RunsOn (h : Heap) (i k : ℕ) (scopes : List ℕ) : Prop where
  known : k < h.classes.length
  this_bound : h.Binds scopes (txt "this") (.inst i)
  super_bound : ∀ p, h.classLink k = some p → ∃ q, h.Binds scopes (txt "super") (.native q) ∧
    h.natives[q]? = some (.superRef p (.inst i))

theorem Heap.RunsOn.kept {h h' : Heap} {i k : ℕ} {scopes scopes' : List ℕ}
    (hruns : h.RunsOn i k scopes) (hkeeps : h.Keeps h')
    (hbinds : ∀ name v, Reserved name → h.Binds scopes name v → h'.Binds scopes' name v) :
    h'.RunsOn i k scopes' where
  known := Nat.lt_of_lt_of_le hruns.known hkeeps.classes
  this_bound := hbinds _ _ (.inl rfl) hruns.this_bound
  super_bound p hp := by
    rw [hkeeps.link k hruns.known] at hp
    obtain ⟨q, hq, hsuper⟩ := hruns.super_bound p hp
    exact ⟨q, hbinds _ _ (.inr rfl) hq, hkeeps.supers q _ hsuper rfl⟩

/-- Nothing but reserved names is kept from being declared. -/
theorem Heap.Binds.hoist {h : Heap} {frames : List ℕ} {name : Text} {v : Value}
    (hb : h.Binds frames name v) {list : List Stmt}
    (hlist : ∀ st ∈ list, ∀ name' ∈ st.hoistedName?, name' ≠ name) (env : Env) :
    ((h.hoistClasses list env).hoistFunctions list env).Binds frames name v := by
  have hfold : ∀ step : Heap → Stmt → Heap, (∀ (h : Heap) (st : Stmt), st ∈ list →
      h.Binds frames name v → (step h st).Binds frames name v) →
      ∀ h : Heap, h.Binds frames name v → (list.foldl step h).Binds frames name v := by
    intro step hstep
    clear hb hlist
    induction list with
    | nil => exact fun _ hb => hb
    | cons st list ih =>
      exact fun h hb => ih (fun h st' hst' => hstep h st' (List.mem_cons_of_mem _ hst')) _
        (hstep h st List.mem_cons_self hb)
  refine hfold _ (fun h st hst hb => ?_) _ (hfold _ (fun h st _ hb => ?_) _
    (hfold _ (fun h st hst hb => ?_) _ hb))
  · unfold Heap.hoistFunction
    split
    · refine Heap.Binds.envDefine ?_ env (hlist _ hst _ rfl) _ _
      exact hb.of_frames rfl
    · exact hb
  · unfold Heap.linkClass
    split
    · split
      · exact hb.of_frames rfl
      · exact hb
    · exact hb
  · unfold Heap.hoistClass
    split
    · refine Heap.Binds.envDefine ?_ env (hlist _ hst _ rfl) _ _
      exact hb.of_frames rfl
    · exact hb

/-- Every run keeps the classes, the instances and what `super` stands for. -/
theorem keeps_of_obeys {α : Type} {m : Prog ω α} {post : α → Prop} {s : Machine ω}
    (hm : Obeys (keptRule ω s.heap) m post) :
    (∀ st ∈ (m s).steps, s.heap.Keeps st.post.heap) ∧
      ∀ a, (m s).value = some a → s.heap.Keeps (m s).state.heap := by
  have hrun := hm s (Heap.Keeps.refl s.heap)
  exact ⟨hrun.steps, fun a ha => (hrun.value a ha).1⟩

variable [Host ω] {i k : ℕ} {s : Machine ω} {scopes : List ℕ} {outer : Env}

theorem Heap.RunsOn.expr (hruns : s.heap.RunsOn i k scopes) (n : ℕ) (e : Expr) {env : Env}
    (henv : InOrElsewhere scopes outer env) :
    ∀ st ∈ ((evaluator n).evalExpr e env s).steps, st.post.heap.RunsOn i k scopes := by
  intro st hst
  have hkeeps := keeps_of_obeys ((Evaluator.obeys (keptRule ω s.heap) n).evalExpr e env trivial)
  refine hruns.kept (hkeeps.1 st hst) fun name v _ hb => ?_
  exact ((Evaluator.obeys (nameRule ω scopes outer name v) n).evalExpr e env henv s hb).steps st hst

theorem Heap.RunsOn.stmt (hruns : s.heap.RunsOn i k scopes) (n : ℕ) (code : Stmt) {env : Env}
    (henv : InOrElsewhere scopes outer env) (hcode : ∀ name, code.Declares name → ¬ Reserved name) :
    ∀ st ∈ ((evaluator n).execStmt code env s).steps, st.post.heap.RunsOn i k scopes := by
  intro st hst
  have hkeeps := keeps_of_obeys ((Evaluator.obeys (keptRule ω s.heap) n).execStmt code env
    (.inr ⟨trivial, fun _ _ => trivial⟩))
  refine hruns.kept (hkeeps.1 st hst) fun name v hreserved hb => ?_
  have hmay : (nameRule ω scopes outer name v).MayRun env code :=
    .inr ⟨henv, fun name' hname' => .inr fun heq => hcode name' hname' (heq ▸ hreserved)⟩
  exact ((Evaluator.obeys (nameRule ω scopes outer name v) n).execStmt code env hmay s hb).steps
    st hst

/-- Other names are declared. -/
theorem Heap.RunsOn.envDefine {h : Heap} (hruns : h.RunsOn i k scopes) (env : Env) {name : Text}
    (hname : ¬ Reserved name) (v : Value) (isFixed : Bool) :
    (h.envDefine env name v isFixed).RunsOn i k scopes := by
  refine hruns.kept ?_ fun name' v' hreserved hb => hb.envDefine env ?_ v isFixed
  · cases env <;> exact Heap.keeps_of_eq rfl rfl rfl
  · rintro rfl
    exact hname hreserved

omit [Host ω] in
/-- The first entry of its name in a frame of a body. -/
theorem Heap.binds_define {h : Heap} {f : ℕ} (hf : f < h.frames.length) (name : Text) (v : Value) :
    (h.define f ⟨name, v, true⟩).Binds [f] name v where
  valid g hg := by
    obtain rfl := List.mem_singleton.mp hg
    exact Nat.lt_of_lt_of_eq hf (List.length_modify _ _ _).symm
  bound := by
    refine ⟨[], f, rfl, fun g hg => absurd hg List.not_mem_nil, ?_⟩
    rw [Heap.scopes_define h hf, Scopes.bind_apply, if_pos ⟨rfl, rfl⟩]

omit [Host ω] in
theorem bindParams_runsOn (params : List Param) (hparams : ∀ p ∈ params, ¬ Reserved p.name)
    (argv : List Value) (env : Env) : Exec.Triple (fun _ => True)
      (fun s => s.heap.RunsOn i k scopes) (bindParams params argv env : Prog ω Unit)
      fun _ s => s.heap.RunsOn i k scopes := by
  induction params generalizing argv with
  | nil => exact Exec.triple_pure fun _ hs => hs
  | cons p params ih =>
    refine Exec.TripleWhile.bind ?_ fun _ => ih (fun q hq => hparams q (List.mem_cons_of_mem _ hq)) _
    cases env with
    | nil => exact Exec.triple_pure fun _ hs => hs
    | cons f rest =>
      refine Exec.triple_act fun s hs => ⟨trivial, ?_⟩
      exact hs.envDefine (f :: rest) (hparams p List.mem_cons_self) _ _

omit [Host ω] in
theorem bindSuper_runsOn (ci : ClassInfo) (f : ℕ) : Exec.Triple (fun _ => True)
    (fun s => s.heap.classes[k]? = some ci ∧ s.heap.Binds [f] (txt "this") (.inst i))
    (bindSuper ci.parent (.inst i) (f :: ci.closure) : Prog ω Unit)
    fun _ s => s.heap.RunsOn i k [f] := by
  have hknown : ∀ h : Heap, h.classes[k]? = some ci →
      k < h.classes.length ∧ h.classLink k = ci.parent := fun h hci =>
    ⟨(List.getElem?_eq_some_iff.mp hci).1, by rw [Heap.classLink, hci]; rfl⟩
  cases hparent : ci.parent with
  | none =>
    refine Exec.triple_pure fun s hs => ⟨(hknown _ hs.1).1, hs.2, fun p hp => ?_⟩
    rw [(hknown _ hs.1).2, hparent] at hp
    cases hp
  | some p =>
    refine Exec.TripleWhile.seq (fun q s => s.heap.classes[k]? = some ci ∧
      s.heap.Binds [f] (txt "this") (.inst i) ∧ s.heap.natives[q]? = some (.superRef p (.inst i)))
      ?_ fun q => ?_
    · refine Exec.TripleWhile.seq (fun q s => s.heap.classes[k]? = some ci ∧
        s.heap.Binds [f] (txt "this") (.inst i) ∧ q = s.heap.natives.length)
        (Exec.triple_read fun s hs => ⟨hs.1, hs.2, rfl⟩) fun q => ?_
      refine Exec.TripleWhile.seq (fun _ s => s.heap.classes[k]? = some ci ∧
        s.heap.Binds [f] (txt "this") (.inst i) ∧ s.heap.natives[q]? = some (.superRef p (.inst i)))
        (Exec.triple_act fun s hs => ⟨trivial, hs.1, hs.2.1.of_frames rfl, ?_⟩) fun _ =>
        Exec.triple_pure fun s hs => hs
      rw [hs.2.2]
      exact List.getElem?_concat_length
    · refine Exec.triple_act fun s hs => ⟨trivial, (hknown _ hs.1).1, ?_, fun p' hp' => ?_⟩
      · exact hs.2.1.envDefine (f :: ci.closure) (by decide) _ _
      · have hlink : s.heap.classLink k = some p' := hp'
        rw [(hknown _ hs.1).2, hparent] at hlink
        obtain rfl := Option.some.inj hlink
        exact ⟨q, Heap.binds_define (hs.2.1.valid f List.mem_cons_self) _ _, hs.2.2⟩

omit [Host ω] in
/-- **Where a body starts, `this` is the instance, and `super` the parent of the class where the
body was found.** -/
theorem enterMethod_runsOn {method : Stmt} (hparams : ∀ p ∈ method.params, ¬ Reserved p.name)
    (argv : List Value) : Exec.Triple (fun _ => True) (fun _ => True)
      (enterMethod k method (.inst i) argv : Prog ω Env)
      fun env s => ∃ f outer, env = f :: outer ∧ s.heap.RunsOn i k [f] := by
  refine Exec.TripleWhile.seq (fun ci s => s.heap.classes[k]? = some ci)
    (Exec.triple_readSome fun s ci _ hci => hci) fun ci => ?_
  refine Exec.TripleWhile.seq (fun env s => s.heap.classes[k]? = some ci ∧
    ∃ f, env = f :: ci.closure ∧ f < s.heap.frames.length) ?_ fun env => ?_
  · refine Exec.TripleWhile.seq (fun f s => s.heap.classes[k]? = some ci ∧ f = s.heap.frames.length)
      (Exec.triple_read fun s hs => ⟨hs, rfl⟩) fun f => ?_
    refine Exec.TripleWhile.seq (fun _ s => s.heap.classes[k]? = some ci ∧ f < s.heap.frames.length)
      (Exec.triple_act fun s hs => ⟨trivial, hs.1, ?_⟩) fun _ =>
      Exec.triple_pure fun s hs => ⟨hs.1, f, rfl, hs.2⟩
    rw [hs.2]
    simp [Heap.newFrame]
  refine Exec.TripleWhile.seq (fun _ s => s.heap.classes[k]? = some ci ∧
    ∃ f, env = f :: ci.closure ∧ s.heap.Binds [f] (txt "this") (.inst i)) ?_ fun _ => ?_
  · rintro s ⟨hci, f, rfl, hf⟩
    have hdefine : Exec.Triple (fun _ => True)
        (fun s => s.heap.classes[k]? = some ci ∧ f < s.heap.frames.length)
        (envDefine (f :: ci.closure) (txt "this") (.inst i) true : Prog ω Unit)
        fun _ s => s.heap.classes[k]? = some ci ∧ ∃ g, f :: ci.closure = g :: ci.closure ∧
          s.heap.Binds [g] (txt "this") (.inst i) :=
      Exec.triple_act fun s hs => ⟨trivial, hs.1, f, rfl, Heap.binds_define hs.2 _ _⟩
    exact hdefine s ⟨hci, hf⟩
  refine Exec.TripleWhile.seq (fun _ s => ∃ f, env = f :: ci.closure ∧ s.heap.RunsOn i k [f])
    ?_ fun _ => ?_
  · rintro s ⟨hci, f, rfl, hthis⟩
    refine (bindSuper_runsOn ci f).weaken (fun s hs => hs) (fun _ s hs => ?_) s ⟨hci, hthis⟩
    exact ⟨f, rfl, hs⟩
  · rintro s ⟨f, rfl, hruns⟩
    refine Exec.TripleWhile.bind (bindParams_runsOn method.params hparams argv (f :: ci.closure))
      (fun _ => Exec.triple_pure fun s hs => ?_) s hruns
    exact ⟨f, ci.closure, rfl, hs⟩

omit [Host ω] in
/-- The first scope of a body. -/
theorem runsOn_of_enterMethod {method : Stmt} (hparams : ∀ p ∈ method.params, ¬ Reserved p.name)
    {argv : List Value} {s' : Machine ω} {f : ℕ}
    (henter : (enterMethod k method (.inst i) argv s).ends = (some (f :: outer), s')) :
    s'.heap.RunsOn i k [f] := by
  obtain ⟨hvalue, rfl⟩ := Prod.mk.inj henter
  obtain ⟨g, outer', henv, hruns⟩ :=
    (enterMethod_runsOn hparams argv s trivial).value _ hvalue
  obtain ⟨rfl, rfl⟩ := List.cons.inj henv
  exact hruns

theorem BodyStep.keeps {s' : Machine ω} {scopes' : List ℕ}
    (h : BodyStep outer s scopes s' scopes') (hvalid : ∀ f ∈ scopes, f < s.heap.frames.length) :
    s.heap.Keeps s'.heap := by
  cases h with
  | enter | declare => exact Heap.keeps_of_eq rfl rfl rfl
  | leave => exact Heap.Keeps.refl _
  | hoist list henv _ =>
    subst henv
    exact Heap.keeps_hoist (hvalid _ List.mem_cons_self) _ list
  | expr n e _ st hst =>
    exact (keeps_of_obeys ((Evaluator.obeys (keptRule ω s.heap) n).evalExpr e _ trivial)).1 st hst
  | stmt n code _ _ st hst =>
    exact (keeps_of_obeys ((Evaluator.obeys (keptRule ω s.heap) n).execStmt code _
      (.inr ⟨trivial, fun _ _ => trivial⟩))).1 st hst

/-- A step of a body. -/
theorem Heap.RunsOn.next {s' : Machine ω} {scopes' : List ℕ} (hruns : s.heap.RunsOn i k scopes)
    (h : BodyStep outer s scopes s' scopes') : s'.heap.RunsOn i k scopes' := by
  have hkeeps := h.keeps hruns.this_bound.valid
  cases h with
  | enter =>
    refine hruns.kept hkeeps fun name v _ hb => Heap.Binds.cons ?_ ?_ ?_
    · exact hb.congr (by simp [Heap.newFrame]) fun f _ => by rw [Heap.scopes_newFrame]
    · simp [Heap.newFrame]
    · rw [Heap.scopes_newFrame, Heap.scopes, Heap.frame, List.getD_eq_default _ _ (Nat.le_refl _)]
      rfl
  | leave =>
    exact hruns.kept hkeeps fun _ _ _ hb =>
      hb.suffix (List.suffix_cons _ _) (List.cons_ne_nil _ _)
  | @declare f scopes e hname => exact hruns.envDefine (f :: scopes) hname e.value e.isFixed
  | hoist list _ hlist =>
    refine hruns.kept hkeeps fun name v hreserved hb => ?_
    exact hb.hoist (fun st hst name' hname' heq => hlist st hst name' hname' (heq ▸ hreserved)) _
  | expr n e henv st hst => exact hruns.expr n e henv st hst
  | stmt n code henv hcode st hst => exact hruns.stmt n code henv hcode st hst

/-- **What `this` and `super` mean inside a body.** -/
theorem Inside.runsOn (h : Inside i k s scopes outer) : s.heap.RunsOn i k scopes := by
  induction h with
  | start hparams henter => exact runsOn_of_enterMethod hparams henter
  | next _ hstep ih => exact ih.next hstep

/-! ### Calls -/

/-- The outcome of a run that did these steps before. -/
def behind {α : Type} (steps : List (Exec.Step (Machine ω) Act))
    (o : Exec.Outcome (Machine ω) Act α) : Exec.Outcome (Machine ω) Act α :=
  ⟨steps ++ o.steps, o.state, o.value⟩

/-- The arguments are evaluated, and then the body of the definition runs on the instance. -/
def runMethod (R : Evaluator ω) (p : ℕ × Stmt) (i : ℕ) (args : List Expr) (env : Env) :
    Prog ω Value := do
  let argv ← evalArgs R args env
  let callEnv ← enterMethod p.1 p.2 (.inst i) argv
  let r ← execBlock R p.2.body callEnv
  pure r.value

omit [Host ω] in
theorem runMethod_eq (R : Evaluator ω) (p : ℕ × Stmt) (i : ℕ) (args : List Expr) (env : Env) :
    runMethod R p i args env = (do
      let argv ← evalArgs R args env
      invokeMethod R p.1 p.2 (.inst i) argv) := by
  simp only [invokeMethod_eq]
  rfl

variable {n : ℕ} {env : Env} {name : Text} {args : List Expr} {line line' : ℕ} {c : ℕ}
  {cs : List ℕ}

/-- A variable. -/
theorem evalExpr_ident (hclear : s.it.hadRuntimeError = false) {v : Value}
    (hget : s.heap.envGet env name = some v) :
    (evaluator (n + 1)).evalExpr (.ident line name) env s = ⟨[], s, some v⟩ := by
  show unlessError .void (evalIdent name env line) s = _
  rw [unlessError_of_clear hclear, evalIdent_of_get hget]

/-- A variable that is not bound leaves an error. -/
theorem bound_of_evalExpr (hclear : s.it.hadRuntimeError = false) {s' : Machine ω}
    {steps : List (Exec.Step (Machine ω) Act)} {v : Option Value}
    (hrun : (evaluator (n + 1)).evalExpr (.ident line name) env s = ⟨steps, s', v⟩)
    (hclear' : s'.it.hadRuntimeError = false) : (s.heap.envGet env name).isSome := by
  by_contra hnone
  rw [Option.not_isSome_iff_eq_none] at hnone
  have hident : evalIdent name env line s
      = fail line (txt "undefined variable '" ++ name ++ txt "'") s :=
    bind_of_silent (a := none) (congrArg (fun v => (⟨[], s, some v⟩ : Exec.Outcome _ Act _)) hnone)
  have heq : unlessError .void (evalIdent name env line) s = ⟨steps, s', v⟩ := hrun
  rw [unlessError_of_clear hclear, hident] at heq
  have hstate := congrArg (fun o => o.state.it.hadRuntimeError) heq
  rw [hclear'] at hstate
  cases hstate

/-- A call of a method of what an expression stands for. -/
theorem evalExpr_call (hclear : s.it.hadRuntimeError = false) {object : Expr} {obj : Value}
    {s' : Machine ω} {steps : List (Exec.Step (Machine ω) Act)}
    (hobject : (evaluator (n + 1)).evalExpr object env s = ⟨steps, s', some obj⟩)
    (hclear' : s'.it.hadRuntimeError = false) :
    (evaluator (n + 2)).evalExpr (.call line (.member line' object name) args) env s
      = behind steps (callMethod (evaluator (n + 1)) (n + 1) obj name args env line s') := by
  have hbuiltin : builtinCallee (evaluator (n + 1)) (n + 1) object name args env line s
      = ⟨[], s, some none⟩ := by
    refine builtinCallee_of_bound name args line fun l ns heq => ?_
    subst heq
    exact bound_of_evalExpr hclear hobject hclear'
  show unlessError .void (evalCall (evaluator (n + 1)) (n + 1) (.member line' object name) args env
    line) s = _
  rw [unlessError_of_clear hclear, evalCall, bind_of_silent hbuiltin]
  show ((evaluator (n + 1)).evalExpr object env >>= fun obj => unlessError .void
    (callMethod (evaluator (n + 1)) (n + 1) obj name args env line)) s = _
  rw [Exec.bind_of_some (a := obj) (by rw [hobject]), hobject, unlessError_of_clear hclear']
  rfl

omit [Host ω] in
/-- **A call on an instance runs the first definition of the chain of its class.** -/
theorem callInstance_eq {fields : ℕ} (hinst : s.heap.instances[i]? = some ⟨c, fields⟩)
    (hchain : s.heap.Chain c cs) (hn : cs.length ≤ n) {p : ℕ × Stmt}
    (hfirst : s.heap.firstMethod name cs = some p) (R : Evaluator ω) :
    callInstance R n i name args env line s = runMethod R p i args env s := by
  have hfind : findMethod n c name s = ⟨[], s, some (some p)⟩ := by
    rw [findMethod, Exec.readSome, Heap.findMethod_eq hchain hn, hfirst]
  rw [callInstance, bind_of_silent (congrArg (fun o => (⟨[], s, o⟩ : Exec.Outcome _ Act _)) hinst),
    bind_of_silent hfind, runMethod_eq]

/-- **A call on `super` runs the first definition of the chain of the parent**, and it is an error
where there is none. -/
theorem callNative_super {p q : ℕ} (hsuper : s.heap.natives[q]? = some (.superRef p (.inst i)))
    (hchain : s.heap.Chain p cs) (hn : cs.length ≤ n) :
    callNative (evaluator n) n q name args env line s = match s.heap.firstMethod name cs with
      | some d => runMethod (evaluator n) d i args env s
      | none => (evalArgs (evaluator n) args env >>= fun _ =>
          fail line (txt "no parent method '" ++ name ++ txt "' to call via super")) s := by
  have hrun : callNative (evaluator n) n q name args env line s
      = (evalArgs (evaluator n) args env >>= fun argv => match s.heap.firstMethod name cs with
        | some d => invokeMethod (evaluator n) d.1 d.2 (.inst i) argv
        | none => fail line (txt "no parent method '" ++ name ++ txt "' to call via super")) s := by
    refine Exec.bind_congr fun argv hargv => ?_
    have hargs : Obeys (keptRule ω s.heap) (evalArgs (evaluator n) args env) _ :=
      obeys_evalArgs (Evaluator.obeys (keptRule ω s.heap) n) args trivial
    have hkeeps := (keeps_of_obeys hargs).2 argv hargv
    set s' := (evalArgs (evaluator n) args env s).state
    have hnative := hkeeps.supers q _ hsuper rfl
    have hfind : findMethod n p name s' = ⟨[], s', some (s.heap.firstMethod name cs)⟩ := by
      rw [findMethod, Exec.readSome, Heap.findMethod_eq (hkeeps.chain hchain) hn,
        hkeeps.firstMethod hchain.known]
    rw [bind_of_silent (congrArg (fun o => (⟨[], s', o⟩ : Exec.Outcome _ Act _)) hnative)]
    show callSuper (evaluator n) n p (.inst i) name argv line s' = _
    rw [callSuper, bind_of_silent hfind]
    cases s.heap.firstMethod name cs <;> rfl
  rw [hrun]
  cases s.heap.firstMethod name cs with
  | none => rfl
  | some d => exact (congrFun (runMethod_eq (evaluator n) d i args env) s).symm

/-- `super.name(args)` in a body that was found in class `k`, where `k` has a parent. -/
theorem evalExpr_super {p : ℕ} (hclear : s.it.hadRuntimeError = false)
    (hruns : s.heap.RunsOn i k scopes) (hlink : s.heap.classLink k = some p)
    (hchain : s.heap.Chain p cs) (hn : cs.length ≤ n + 1) (line'' : ℕ) :
    (evaluator (n + 2)).evalExpr
        (.call line (.member line' (.ident line'' (txt "super")) name) args) (scopes ++ outer) s
      = match s.heap.firstMethod name cs with
        | some d => runMethod (evaluator (n + 1)) d i args (scopes ++ outer) s
        | none => (evalArgs (evaluator (n + 1)) args (scopes ++ outer) >>= fun _ =>
            fail line (txt "no parent method '" ++ name ++ txt "' to call via super")) s := by
  obtain ⟨q, hbound, hsuper⟩ := hruns.super_bound p hlink
  rw [evalExpr_call hclear (evalExpr_ident hclear (hbound.envGet outer)) hclear]
  exact congrArg (behind []) (callNative_super hsuper hchain hn)

/-! ### Chains of calls -/

/-- A call of the method on instance `i` of class `c` and calls of `super.name(..)` behind it, each
made in the body that the one before runs: `calls` are the classes whose bodies are entered, with
what they run on, `s` is the memory in the last of the bodies, and `scopes` are its scopes. What is
entered is what `find_method` finds at the time of the call. -/
inductive SuperChain [Host ω] (name : Text) (c i : ℕ) (s₀ : Machine ω) :
    List (ℕ × Value) → Machine ω → List ℕ → Env → Prop
  | call {m m' k f : ℕ} {method : Stmt} {args : List Expr} {argv : List Value} {env outer : Env}
      {s₁ s₂ : Machine ω} :
      s₀.heap.findMethod name m (some c) = some (some (k, method)) →
      (∀ p ∈ method.params, ¬ Reserved p.name) →
      (evalArgs (evaluator m') args env s₀).ends = (some argv, s₁) →
      (enterMethod k method (.inst i) argv s₁).ends = (some (f :: outer), s₂) →
      SuperChain name c i s₀ [(k, .inst i)] s₂ [f] outer
  | next {calls : List (ℕ × Value)} {s s' : Machine ω} {scopes scopes' : List ℕ} {outer : Env} :
      SuperChain name c i s₀ calls s scopes outer → BodyStep outer s scopes s' scopes' →
      SuperChain name c i s₀ calls s' scopes' outer
  | super {calls : List (ℕ × Value)} {m m' k p p' q k' f : ℕ} {this this' : Value} {method : Stmt}
      {args : List Expr} {argv : List Value} {scopes : List ℕ} {outer outer' : Env}
      {s s₁ s₂ : Machine ω} :
      SuperChain name c i s₀ (calls ++ [(k, this)]) s scopes outer →
      s.heap.classLink k = some p →
      s.heap.envGet (scopes ++ outer) (txt "super") = some (.native q) →
      (evalArgs (evaluator m') args (scopes ++ outer) s).ends = (some argv, s₁) →
      s₁.heap.natives[q]? = some (.superRef p' this') →
      s₁.heap.findMethod name m (some p') = some (some (k', method)) →
      (∀ p ∈ method.params, ¬ Reserved p.name) →
      (enterMethod k' method this' argv s₁).ends = (some (f :: outer'), s₂) →
      SuperChain name c i s₀ (calls ++ [(k, this)] ++ [(k', this')]) s₂ [f] outer'

/-- The last of the bodies: its class is the last entered of those that define the method. -/
structure SuperChain.Reached [Host ω] (name : Text) (cs : List ℕ) (i : ℕ) (s₀ : Machine ω)
    (calls : List (ℕ × Value)) (s : Machine ω) (scopes : List ℕ) (k : ℕ) (after : List ℕ) :
    Prop where
  entered : s₀.heap.definers name cs = calls.map Prod.fst ++ after
  last : (calls.map Prod.fst).getLast? = some k
  receiver : ∀ call ∈ calls, call.2 = .inst i
  kept : s₀.heap.Keeps s.heap
  runsOn : s.heap.RunsOn i k scopes

theorem keeps_of_evalArgs {s' : Machine ω} {argv : List Value}
    (hargs : (evalArgs (evaluator n) args env s).ends = (some argv, s')) :
    s.heap.Keeps s'.heap := by
  obtain ⟨hvalue, rfl⟩ := Prod.mk.inj hargs
  have hobeys : Obeys (keptRule ω s.heap) (evalArgs (evaluator n) args env) _ :=
    obeys_evalArgs (Evaluator.obeys (keptRule ω s.heap) n) args trivial
  exact (keeps_of_obeys hobeys).2 _ hvalue

omit [Host ω] in
theorem keeps_of_enterMethod {method : Stmt} {this : Value} {argv : List Value} {s' : Machine ω}
    (henter : (enterMethod k method this argv s).ends = (some env, s')) :
    s.heap.Keeps s'.heap := by
  obtain ⟨hvalue, rfl⟩ := Prod.mk.inj henter
  have hobeys : Obeys (keptRule ω s.heap) (enterMethod k method this argv) Anything := by
    refine obeys_readSome_bind fun ci => (obeys_newEnv ci.closure).bind fun callEnv hcall => ?_
    refine (obeys_envDefine hcall _ trivial _).bind fun _ _ => ?_
    refine (obeys_bindSuper _ trivial hcall).bind fun _ _ => ?_
    exact (obeys_bindParams hcall _ _ fun _ _ => trivial).bind fun _ _ => obeys_pure trivial
  exact (keeps_of_obeys hobeys).2 _ hvalue

/-- **The classes of a chain of calls are those that define the method, one after the other.** -/
theorem SuperChain.reached {s₀ : Machine ω} {calls : List (ℕ × Value)}
    (h : SuperChain name c i s₀ calls s scopes outer) (hchain : s₀.heap.Chain c cs) :
    ∃ k after, SuperChain.Reached name cs i s₀ calls s scopes k after := by
  induction h with
  | @call m m' k f method args argv env outer s₁ s₂ hfind hparams hargs henter =>
    have hfirst := Heap.firstMethod_of_findMethod hchain hfind
    have hdefiners := s₀.heap.firstMethod_fst name cs
    rw [hfirst] at hdefiners
    obtain ⟨after, hafter⟩ := List.head?_eq_some_iff.mp hdefiners.symm
    exact ⟨k, after, hafter, rfl, List.forall_mem_singleton.mpr rfl,
      (keeps_of_evalArgs hargs).trans (keeps_of_enterMethod henter),
      runsOn_of_enterMethod hparams henter⟩
  | next _ hstep ih =>
    obtain ⟨k, after, hreached⟩ := ih
    exact ⟨k, after, { hreached with
      kept := hreached.kept.trans (hstep.keeps hreached.runsOn.this_bound.valid)
      runsOn := hreached.runsOn.next hstep }⟩
  | @super calls m m' k p p' q k' f this this' method args argv scopes outer outer' s s₁ s₂ _ hlink
      hget hargs hnative hfind hparams henter ih =>
    obtain ⟨k₀, after, hreached⟩ := ih
    have hk : k₀ = k := by simpa using hreached.last.symm
    subst hk
    -- `super` stands for the parent of the class of the body, on the same instance
    obtain ⟨q', hbound, hsuper⟩ := hreached.runsOn.super_bound p hlink
    rw [hbound.envGet outer] at hget
    obtain rfl := Value.native.inj (Option.some.inj hget)
    have hkept := hreached.kept.trans (keeps_of_evalArgs hargs)
    have hsame := (keeps_of_evalArgs hargs).supers _ _ hsuper rfl
    obtain ⟨rfl, rfl⟩ := Native.superRef.inj (Option.some.inj (hsame.symm.trans hnative))
    -- and the search from there finds the next class that defines the method
    have hdefiners := hreached.entered
    rw [List.map_append, List.map_singleton, List.append_assoc, List.singleton_append] at hdefiners
    obtain ⟨ks, ls, rfl, hnext⟩ := Heap.next_definer hdefiners
    have hknown : k₀ < s₀.heap.classes.length :=
      hchain.known _ (List.mem_append_right _ List.mem_cons_self)
    have hparent := hchain.after ((hreached.kept.link k₀ hknown).symm.trans hlink)
    have hfirst := Heap.firstMethod_of_findMethod (hkept.chain hparent) hfind
    rw [hkept.firstMethod hparent.known] at hfirst
    rw [hfirst] at hnext
    obtain ⟨after', rfl⟩ := List.head?_eq_some_iff.mp hnext.symm
    refine ⟨k', after', ?_, by simp, ?_, hkept.trans (keeps_of_enterMethod henter),
      runsOn_of_enterMethod hparams henter⟩
    · simpa using hdefiners
    · exact List.forall_mem_append.mpr ⟨hreached.receiver, List.forall_mem_singleton.mpr rfl⟩

/-- Which definition of the method runs, at a state where `cs` are the classes from that of the
instance on. -/
structure MethodDispatch (n : ℕ) (s : Machine ω) (i c : ℕ) (cs : List ℕ) (name : Text) : Prop where
  /-- `object.name(args)`, where the object is the instance. -/
  direct : ∀ p, s.heap.firstMethod name cs = some p →
    ∀ (object : Expr) (args : List Expr) (line line' : ℕ) (env : Env) (s₁ : Machine ω)
      (steps : List (Exec.Step (Machine ω) Act)), s₁.it.hadRuntimeError = false →
      (evaluator (n + 1)).evalExpr object env s₁ = ⟨steps, s, some (.inst i)⟩ →
      (evaluator (n + 2)).evalExpr (.call line (.member line' object name) args) env s₁
        = behind steps (runMethod (evaluator (n + 1)) p i args env s)
  /-- `this.name(args)`, in any body that runs on the instance. -/
  viaThis : ∀ p, s.heap.firstMethod name cs = some p →
    ∀ (k : ℕ) (scopes : List ℕ) (outer : Env), Inside i k s scopes outer →
    ∀ (args : List Expr) (line line' line'' : ℕ),
      (evaluator (n + 2)).evalExpr
          (.call line (.member line' (.ident line'' (txt "this")) name) args) (scopes ++ outer) s
        = runMethod (evaluator (n + 1)) p i args (scopes ++ outer) s
  /-- `super.name(args)`, in a body that was found in class `k`. -/
  viaSuper : ∀ before k after, cs = before ++ k :: after →
    ∀ p, s.heap.firstMethod name after = some p →
    ∀ (scopes : List ℕ) (outer : Env), Inside i k s scopes outer →
    ∀ (args : List Expr) (line line' line'' : ℕ),
      (evaluator (n + 2)).evalExpr
          (.call line (.member line' (.ident line'' (txt "super")) name) args) (scopes ++ outer) s
        = runMethod (evaluator (n + 1)) p i args (scopes ++ outer) s
  /-- The first definition is that of the first class that has one, and from one definition the
  next one is that of the next class that has one. -/
  first : (s.heap.firstMethod name cs).map Prod.fst = (s.heap.definers name cs).head?
  next : ∀ before k after, s.heap.definers name cs = before ++ k :: after →
    ∃ ks ls, cs = ks ++ k :: ls ∧ (s.heap.firstMethod name ls).map Prod.fst = after.head?
  once : (s.heap.definers name cs).Nodup
  /-- The chain stays as it is, whatever runs. -/
  stays : ∀ (m : ℕ) (e : Expr) (env : Env), ∀ st ∈ ((evaluator m).evalExpr e env s).steps,
    s.heap.Keeps st.post.heap
  /-- A chain of calls enters the classes that define the method from the most derived one on, none
  of them twice, and all of the bodies run on the instance. -/
  chain : ∀ (calls : List (ℕ × Value)) (s' : Machine ω) (scopes : List ℕ) (outer : Env),
    SuperChain name c i s calls s' scopes outer →
    calls.map Prod.fst <+: s.heap.definers name cs ∧ (calls.map Prod.fst).Nodup ∧
      ∀ call ∈ calls, call.2 = .inst i
  /-- While classes that define it are left, `super.name(args)` runs the body of the next one. -/
  chainGoesOn : ∀ (calls : List (ℕ × Value)) (s' : Machine ω) (scopes : List ℕ) (outer : Env),
    SuperChain name c i s calls s' scopes outer → s'.it.hadRuntimeError = false →
    ∀ k' after, s.heap.definers name cs = calls.map Prod.fst ++ k' :: after →
    ∃ method, s.heap.methodOf name k' = some (k', method) ∧
      ∀ (args : List Expr) (line line' line'' : ℕ),
        (evaluator (n + 2)).evalExpr
            (.call line (.member line' (.ident line'' (txt "super")) name) args) (scopes ++ outer)
            s'
          = runMethod (evaluator (n + 1)) (k', method) i args (scopes ++ outer) s'
  /-- Where all of them have been entered, and the last one has a parent, it is an error. -/
  chainEnds : ∀ (calls : List (ℕ × Value)) (s' : Machine ω) (scopes : List ℕ) (outer : Env),
    SuperChain name c i s calls s' scopes outer → s'.it.hadRuntimeError = false →
    s.heap.definers name cs = calls.map Prod.fst →
    ∀ k p, (calls.map Prod.fst).getLast? = some k → s.heap.classLink k = some p →
    ∀ (args : List Expr) (line line' line'' : ℕ),
      (evaluator (n + 2)).evalExpr
          (.call line (.member line' (.ident line'' (txt "super")) name) args) (scopes ++ outer) s'
        = (evalArgs (evaluator (n + 1)) args (scopes ++ outer) >>= fun _ =>
            fail line (txt "no parent method '" ++ name ++ txt "' to call via super")) s'

/-- What `super.name(args)` does in the last of the bodies, where its class has a parent; it has one
where classes that define the method are left. -/
theorem SuperChain.Reached.evalExpr_super {s₀ : Machine ω} {calls : List (ℕ × Value)}
    {after : List ℕ} (h : SuperChain.Reached name cs i s₀ calls s scopes k after) (outer : Env)
    (hchain : s₀.heap.Chain c cs) (hn : cs.length ≤ n + 1)
    (hclear : s.it.hadRuntimeError = false) :
    ∃ found : Option (ℕ × Stmt), found.map Prod.fst = after.head? ∧
      (∀ d ∈ found, s₀.heap.methodOf name d.1 = some d) ∧
      (∀ d ∈ found, ∃ p, s₀.heap.classLink k = some p) ∧
      ∀ p, s₀.heap.classLink k = some p → ∀ (args : List Expr) (line line' line'' : ℕ),
        (evaluator (n + 2)).evalExpr
            (.call line (.member line' (.ident line'' (txt "super")) name) args) (scopes ++ outer) s
          = match found with
            | some d => runMethod (evaluator (n + 1)) d i args (scopes ++ outer) s
            | none => (evalArgs (evaluator (n + 1)) args (scopes ++ outer) >>= fun _ =>
                fail line (txt "no parent method '" ++ name ++ txt "' to call via super")) s := by
  obtain ⟨before, hbefore⟩ := List.getLast?_eq_some_iff.mp h.last
  have hdefiners := h.entered
  rw [hbefore, List.append_assoc, List.singleton_append] at hdefiners
  obtain ⟨ks, ls, rfl, hnext⟩ := Heap.next_definer hdefiners
  refine ⟨s₀.heap.firstMethod name ls, hnext, fun d hd => ?_,
    fun d hd => hchain.link_of_firstMethod hd, fun p hlink args line line' line'' => ?_⟩
  · obtain ⟨k', -, hk'⟩ := List.exists_of_findSome?_eq_some hd
    rwa [Heap.methodOf_fst hk']
  · have hparent := hchain.after hlink
    have hknown : k < s₀.heap.classes.length :=
      hchain.known _ (List.mem_append_right _ List.mem_cons_self)
    have hlength : ls.length ≤ n + 1 := by
      simp only [List.length_append, List.length_cons] at hn
      omega
    rw [Jaguar.evalExpr_super hclear h.runsOn ((h.kept.link k hknown).trans hlink)
      (h.kept.chain hparent) hlength, h.kept.firstMethod hparent.known]

/-- **Which definition of a method runs.** `object.m()` and `this.m()` run the first definition of
the chain of the class of the instance, `super.m()` in a body found in class `k` runs the first one
behind `k`, on the same instance; so a chain of calls of `super.m()` goes through the definitions
one by one, each class once. -/
theorem method_dispatch {s : Machine ω} (hclear : s.it.hadRuntimeError = false) {i c fields : ℕ}
    (hinst : s.heap.instances[i]? = some ⟨c, fields⟩) {cs : List ℕ} (hchain : s.heap.Chain c cs)
    {n : ℕ} (hn : cs.length ≤ n + 1) (name : Text) : MethodDispatch n s i c cs name := by
  have hcall : ∀ p, s.heap.firstMethod name cs = some p →
      ∀ (object : Expr) (args : List Expr) (line line' : ℕ) (env : Env) (s₁ : Machine ω)
        (steps : List (Exec.Step (Machine ω) Act)), s₁.it.hadRuntimeError = false →
        (evaluator (n + 1)).evalExpr object env s₁ = ⟨steps, s, some (.inst i)⟩ →
        (evaluator (n + 2)).evalExpr (.call line (.member line' object name) args) env s₁
          = behind steps (runMethod (evaluator (n + 1)) p i args env s) := by
    intro p hp object args line line' env s₁ steps hclear₁ hobject
    rw [evalExpr_call hclear₁ hobject hclear]
    exact congrArg (behind steps) (callInstance_eq hinst hchain hn hp _)
  have hnodup : (s.heap.definers name cs).Nodup := hchain.lineage.nodup.filter _
  constructor
  · exact hcall
  · intro p hp k scopes outer hinside args line line' line''
    exact hcall p hp _ args line line' _ s [] hclear
      (evalExpr_ident hclear (hinside.runsOn.this_bound.envGet outer))
  · intro before k after hcs p hp scopes outer hinside args line line' line''
    subst hcs
    obtain ⟨parent, hlink⟩ := hchain.link_of_firstMethod hp
    have hlength : after.length ≤ n + 1 := by
      simp only [List.length_append, List.length_cons] at hn
      omega
    rw [evalExpr_super hclear hinside.runsOn hlink (hchain.after hlink) hlength, hp]
  · exact s.heap.firstMethod_fst name cs
  · exact fun before k after => Heap.next_definer
  · exact hnodup
  · exact fun m e env => (keeps_of_obeys
      ((Evaluator.obeys (keptRule ω s.heap) m).evalExpr e env trivial)).1
  · intro calls s' scopes outer hcalls
    obtain ⟨k, after, hreached⟩ := hcalls.reached hchain
    have hcalled : calls.map Prod.fst <+: s.heap.definers name cs := ⟨after, hreached.entered.symm⟩
    exact ⟨hcalled, hnodup.sublist hcalled.sublist, hreached.receiver⟩
  · intro calls s' scopes outer hcalls hclear' k' after hentered
    obtain ⟨k, after', hreached⟩ := hcalls.reached hchain
    obtain rfl := List.append_cancel_left (hreached.entered.symm.trans hentered)
    obtain ⟨found, hfound, hmethod, hlink, hrun⟩ :=
      hreached.evalExpr_super outer hchain hn hclear'
    obtain ⟨⟨k'', method⟩, rfl, rfl⟩ := Option.map_eq_some_iff.mp hfound
    obtain ⟨p, hp⟩ := hlink _ rfl
    exact ⟨method, hmethod _ rfl, hrun p hp⟩
  · intro calls s' scopes outer hcalls hclear' hentered k p hlast hlink
    obtain ⟨k', after, hreached⟩ := hcalls.reached hchain
    obtain rfl := Option.some.inj (hlast.symm.trans hreached.last)
    have hafter : after = [] := by simpa using hreached.entered.symm.trans hentered
    subst hafter
    obtain ⟨found, hfound, -, -, hrun⟩ :=
      hreached.evalExpr_super outer hchain hn hclear'
    obtain rfl := Option.map_eq_none_iff.mp hfound
    exact hrun p hlink

end Inside

/-- A method `m` without parameters and with an empty body. -/
def emptyMethod (line : ℕ) : Stmt :=
  .funDecl line (txt "m") [] (.new .void) (.block line []) false

/-- `C` extends `B`, and `B` extends `A`; `A` and `C` define `m`, and `B` does not. There is an
instance of `C`. -/
def skippingChain : Machine Unit where
  heap := ⟨[[]], [], [], [[]], [], [⟨txt "A", none, none, [emptyMethod 1], [0]⟩,
    ⟨txt "B", some (txt "A"), some 0, [], [0]⟩,
    ⟨txt "C", some (txt "B"), some 1, [emptyMethod 3], [0]⟩], [⟨2, 0⟩], []⟩
  it := ⟨[0], false, none, none, none⟩
  world := ()

theorem chain_skippingChain {s : Machine Unit}
    (hclasses : s.heap.classes = skippingChain.heap.classes) : s.heap.Chain 2 [2, 1, 0] := by
  have hlink : ∀ c, s.heap.classLink c = skippingChain.heap.classLink c := fun c => by
    rw [Heap.classLink, Heap.classLink, hclasses]
  constructor
  · exact .cons (hlink 2) (.cons (hlink 1) (.last (hlink 0)))
  · rw [hclasses]
    decide

/-- In the body of `m` of `C`, `super.m()` runs the body of `A`; the two bodies are a chain. -/
theorem method_dispatch_skips :
    (@evaluator Unit silentHost 4).evalExpr
        (.call 3 (.member 3 (.ident 3 (txt "super")) (txt "m")) []) [1, 0]
        (enterMethod 2 (emptyMethod 3) (.inst 0) [] skippingChain).state
      = runMethod (@evaluator Unit silentHost 3) (0, emptyMethod 1) 0 [] [1, 0]
          (enterMethod 2 (emptyMethod 3) (.inst 0) [] skippingChain).state ∧
    (∃ s scopes outer, @SuperChain Unit silentHost (txt "m") 2 0 skippingChain
      [(2, .inst 0), (0, .inst 0)] s scopes outer) ∧
    [2, 0] <+: skippingChain.heap.definers (txt "m") [2, 1, 0] := by
  set s₁ := (enterMethod 2 (emptyMethod 3) (.inst 0) [] skippingChain).state with hs₁
  have hnone : ∀ (line : ℕ), ∀ p ∈ (emptyMethod line).params, ¬ Reserved p.name :=
    fun _ p hp => absurd hp List.not_mem_nil
  have hinside : @Inside Unit silentHost 0 2 s₁ [1] [0] :=
    @Inside.start Unit silentHost 0 2 skippingChain _ (emptyMethod 3) [] 1 [0] (hnone 3) rfl
  have hfirst : @SuperChain Unit silentHost (txt "m") 2 0 skippingChain [(2, .inst 0)] s₁ [1] [0] :=
    @SuperChain.call Unit silentHost (txt "m") 2 0 skippingChain 1 1 2 1 (emptyMethod 3) [] [] [0]
      [0] skippingChain s₁ rfl (hnone 3) rfl rfl
  have hsecond : @SuperChain Unit silentHost (txt "m") 2 0 skippingChain
      [(2, .inst 0), (0, .inst 0)] (enterMethod 0 (emptyMethod 1) (.inst 0) [] s₁).state [2] [0] :=
    @SuperChain.super Unit silentHost (txt "m") 2 0 skippingChain [] 2 1 2 1 1 0 0 2 (.inst 0)
      (.inst 0) (emptyMethod 1) [] [] [1] [0] [0] s₁ s₁ _ hfirst rfl rfl rfl rfl rfl (hnone 1) rfl
  have hdispatch := @method_dispatch Unit silentHost s₁ rfl 0 2 0 rfl [2, 1, 0]
    (chain_skippingChain rfl) 2 (Nat.le_refl _) (txt "m")
  have hwhole := @method_dispatch Unit silentHost skippingChain rfl 0 2 0 rfl [2, 1, 0]
    (chain_skippingChain rfl) 2 (Nat.le_refl _) (txt "m")
  refine ⟨?_, ⟨_, _, _, hsecond⟩, ?_⟩
  · exact @MethodDispatch.viaSuper Unit silentHost _ _ _ _ _ _ hdispatch [] 2 [1, 0] rfl _ rfl [1]
      [0] hinside [] 3 3 3
  · exact (@MethodDispatch.chain Unit silentHost _ _ _ _ _ _ hwhole _ _ _ _ hsecond).1

end Jaguar
