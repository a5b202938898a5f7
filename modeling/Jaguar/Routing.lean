/-
Routing (`http.c`): `http_server_route` and the loops of `match_route`.

`match_route` cuts a pattern and a path with two `strtok_r` that advance in lockstep over
mutable copies.  Here the loops are followed step by step, down to the two save pointers;
`matchRoute` of `Http` is the same function with the tokens as lists.

* `segmentsOf_strtokR` — what a `strtok_r` yields, call by call, are the non-empty segments;
* `matchRouteLoop_eq` — the loops compute `matchRoute`;
* `match_route_first` — the route returned is the first that answers, and the parameters
  left are its last bindings and nothing else.
-/
import Jaguar.Http
import Mathlib.Data.List.Nodup

namespace Jaguar

/-! ### The loops of the source -/

/-- `strtok_r` on a C string: the next token, and what the save pointer is left at. -/
def strtokR (sep : UInt8) (s : Text) : Option (Text × Text) :=
  let s := s.dropWhile (· = sep)
  if s = [] then none
  else some (s.takeWhile (· ≠ sep), (s.dropWhile (· ≠ sep)).drop 1)

theorem strtokR_save_lt {sep : UInt8} {s tok save : Text}
    (h : strtokR sep s = some (tok, save)) : save.length < s.length := by
  unfold strtokR at h
  dsimp only at h
  split at h
  · cases h
  · next hne =>
    obtain ⟨-, rfl⟩ := Prod.mk.inj (Option.some.inj h)
    have hpos := List.length_pos_iff.mpr hne
    have hs := (List.dropWhile_suffix (l := s) (· = sep)).length_le
    have ht := (List.dropWhile_suffix (l := s.dropWhile (· = sep)) (· ≠ sep)).length_le
    rw [List.length_drop]
    omega

/-- The segment loop: `pat` and `pth` are `pat_seg` and `pth_seg` with their save pointers. -/
def segmentLoop (pat pth : Option (Text × Text)) (params : DataList Text) :
    Option (DataList Text) :=
  match pat, pth with
  | none, none => some params
  | some (patSeg, patSave), some (pthSeg, pthSave) =>
    if 2 ≤ patSeg.length ∧ patSeg.head? = some 123 ∧ patSeg.getLast? = some 125 then
      let name := (patSeg.drop 1).take (min (patSeg.length - 2) 127)
      segmentLoop (strtokR 47 patSave) (strtokR 47 pthSave) (dataSet params name pthSeg)
    else if patSeg = pthSeg then
      segmentLoop (strtokR 47 patSave) (strtokR 47 pthSave) params
    else none
  | _, _ => none
termination_by pat.elim 0 fun p => p.2.length + 1
decreasing_by
  all_goals
    cases h : strtokR 47 patSave with
    | none => simp
    | some p => simpa using strtokR_save_lt h

/-- `match_route`: the route, and what is left in `params_out`. -/
def matchRouteLoop {η : Type*} (routes : List (Route η)) (method path : Text)
    (out : DataList Text) : Option (Route η) × DataList Text :=
  match routes with
  | [] => (none, out)
  | r :: rest =>
    if strcaseEq r.method method then
      let pat := cStr (r.pattern.take 1023)
      let pth := cStr (path.take 1023)
      match segmentLoop (strtokR 47 pat) (strtokR 47 pth) [] with
      | some params => (some r, params.foldl (fun out e => dataSet out e.1 e.2) out)
      | none => matchRouteLoop rest method path out
    else matchRouteLoop rest method path out

def toUpper (c : UInt8) : UInt8 := if 97 ≤ c && c ≤ 122 then c - 32 else c

/-- `http_server_route`: the new route goes to the front of the table. -/
def httpServerRoute {η : Type*} (routes : List (Route η)) (method pattern : Text) (handler : η) :
    List (Route η) :=
  ⟨method.map toUpper, pattern, handler⟩ :: routes

/-- The table after registrations of a method, a pattern and a handler. -/
def routeTable {η : Type*} (registered : List (Text × Text × η)) : List (Route η) :=
  registered.foldl (fun routes r => httpServerRoute routes r.1 r.2.1 r.2.2) []

/-- The most recently registered route comes first. -/
theorem routeTable_eq {η : Type*} (registered : List (Text × Text × η)) :
    routeTable registered
      = (registered.map fun r => ⟨r.1.map toUpper, r.2.1, r.2.2⟩).reverse := by
  have hfold : ∀ (rs : List (Text × Text × η)) (routes : List (Route η)),
      rs.foldl (fun routes r => httpServerRoute routes r.1 r.2.1 r.2.2) routes
        = (rs.map fun r => ⟨r.1.map toUpper, r.2.1, r.2.2⟩).reverse ++ routes := by
    intro rs
    induction rs with
    | nil => exact fun _ => rfl
    | cons r rs ih =>
      intro routes
      rw [List.foldl_cons, ih, List.map_cons, List.reverse_cons, List.append_assoc]
      rfl
  rw [routeTable, hfold, List.append_nil]

/-! ### Tokens are segments -/

/-- The segments of a path: what stands between slashes, empty segments dropped. -/
def segmentsOf (s : Text) : List Text := (s.splitOn 47).filter (· ≠ [])

theorem segmentsOf_slash (s : Text) : segmentsOf (47 :: s) = segmentsOf s := by
  have h : (47 :: s).splitOn 47 = [] :: s.splitOn 47 :=
    @List.splitOn_append_cons_self_of_not_mem _ [] _ _ 47 List.not_mem_nil s
  rw [segmentsOf, h, List.filter_cons_of_neg (by simp), segmentsOf]

theorem segmentsOf_dropWhile (s : Text) : segmentsOf (s.dropWhile (· = 47)) = segmentsOf s := by
  induction s with
  | nil => rfl
  | cons c s ih =>
    by_cases hc : c = 47
    · rw [hc, List.dropWhile_cons_of_pos (by simp), ih, segmentsOf_slash]
    · rw [List.dropWhile_cons_of_neg (by simpa using hc)]

/-- **What `strtok_r` yields, call by call, are the segments.** -/
theorem segmentsOf_strtokR (s : Text) :
    segmentsOf s = (strtokR 47 s).elim [] fun p => p.1 :: segmentsOf p.2 := by
  rw [← segmentsOf_dropWhile, strtokR]
  generalize hs : s.dropWhile (· = 47) = t
  by_cases hnil : t = []
  · rw [if_pos hnil, hnil]
    rfl
  · rw [if_neg hnil, Option.elim_some]
    have hhead : t.takeWhile (· ≠ 47) ≠ [] := by
      have hne := List.head_dropWhile_not (p := (· = (47 : UInt8))) (l := s) (by rw [hs]; exact hnil)
      cases t with
      | nil => exact absurd rfl hnil
      | cons c t =>
        simp only [hs, List.head_cons, decide_eq_false_iff_not] at hne
        simp [hne]
    have hmem : (47 : UInt8) ∉ t.takeWhile (· ≠ 47) := by
      intro hmem
      simpa using List.mem_takeWhile_imp hmem
    have hsplit := List.takeWhile_append_dropWhile (p := (· ≠ (47 : UInt8))) (l := t)
    cases hd : t.dropWhile (· ≠ 47) with
    | nil =>
      -- the last token ends with the string
      rw [hd, List.append_nil] at hsplit
      rw [hsplit] at hmem ⊢
      rw [segmentsOf, List.splitOn_eq_singleton hmem]
      simp [hnil, segmentsOf]
    | cons c rest =>
      have hc : c = 47 := by
        have hhead := List.head_dropWhile_not (p := (· ≠ (47 : UInt8))) (l := t)
          (by rw [hd]; exact List.cons_ne_nil _ _)
        simp only [hd, List.head_cons] at hhead
        simpa using hhead
      rw [hd, hc] at hsplit
      conv_lhs => rw [← hsplit]
      rw [segmentsOf, List.splitOn_append_cons_self_of_not_mem hmem,
        List.filter_cons_of_pos (by simpa using hhead)]
      rfl

/-- The loop over two save pointers is the loop over two lists of segments. -/
theorem segmentLoop_eq (s t : Text) (params : DataList Text) :
    segmentLoop (strtokR 47 s) (strtokR 47 t) params
      = matchSegments (segmentsOf s) (segmentsOf t) params := by
  induction hn : s.length using Nat.strongRecOn generalizing s t params with
  | ind n ih =>
    rw [segmentsOf_strtokR s, segmentsOf_strtokR t]
    cases hs : strtokR 47 s with
    | none =>
      cases strtokR 47 t with
      | none =>
        rw [segmentLoop.eq_def]
        rfl
      | some q =>
        rw [segmentLoop.eq_def]
        rfl
    | some p =>
      cases strtokR 47 t with
      | none =>
        rw [segmentLoop.eq_def]
        rfl
      | some q =>
        have hlt := strtokR_save_lt hs
        rw [segmentLoop.eq_def]
        simp only [Option.elim_some, matchSegments]
        rw [ih _ (hn ▸ hlt) p.2 q.2 _ rfl, ih _ (hn ▸ hlt) p.2 q.2 _ rfl]

/-- **The loops compute `matchRoute`.** -/
theorem matchRouteLoop_eq {η : Type*} (routes : List (Route η)) (method path : Text) :
    matchRoute routes method path
      = (matchRouteLoop routes method path []).1.map
          fun r => (r, (matchRouteLoop routes method path []).2) := by
  induction routes with
  | nil => rfl
  | cons r rest ih =>
    have htok : ∀ s : Text, strtok 47 s = segmentsOf (cStr s) := fun _ => rfl
    rw [matchRoute, matchRouteLoop, htok, htok, ← segmentLoop_eq]
    by_cases hm : strcaseEq r.method method
    · rw [if_pos hm, if_pos hm]
      dsimp only
      cases segmentLoop (strtokR 47 (cStr (r.pattern.take 1023)))
        (strtokR 47 (cStr (path.take 1023))) [] with
      | none => exact ih
      | some params => rfl
    · rw [if_neg hm, if_neg hm]
      exact ih

/-! ### Which route answers, and what it binds -/

/-- The segment `{name}`. -/
def paramSegment (name : Text) : Text := 123 :: name ++ [125]

/-- A segment of a pattern against a segment of a path: `{name}` matches anything, any
other segment only itself. -/
inductive SegmentMatches : Text → Text → Prop
  | param (name seg : Text) : SegmentMatches (paramSegment name) seg
  | literal (seg : Text) : SegmentMatches seg seg

/-- The method is the request's, ignoring case, and the segments match one to one. -/
structure Route.Answers {η : Type*} (r : Route η) (method path : Text) : Prop where
  method : strcaseEq r.method method
  segments : List.Forall₂ SegmentMatches (segmentsOf r.pattern) (segmentsOf path)

/-- The last segment `{name}` of the pattern stands against `val`. -/
inductive LastBinding (name val : Text) : List Text → List Text → Prop
  | here {pats segs : List Text} : paramSegment name ∉ pats →
      LastBinding name val (paramSegment name :: pats) (val :: segs)
  | later {pat seg : Text} {pats segs : List Text} : LastBinding name val pats segs →
      LastBinding name val (pat :: pats) (seg :: segs)

theorem lastBinding_cons_iff {name val pat seg : Text} {pats segs : List Text} :
    LastBinding name val (pat :: pats) (seg :: segs) ↔
      LastBinding name val pats segs ∨
        (pat = paramSegment name ∧ seg = val ∧ paramSegment name ∉ pats) := by
  constructor
  · intro h
    cases h with
    | here hno => exact .inr ⟨rfl, rfl, hno⟩
    | later hlast => exact .inl hlast
  · rintro (hlast | ⟨rfl, rfl, hno⟩)
    · exact .later hlast
    · exact .here hno

/-- The parameters are the last bindings of the pattern, each once, and nothing else. -/
structure BindsExactly (params : DataList Text) (pats segs : List Text) : Prop where
  nodup : (params.map Prod.fst).Nodup
  mem_iff : ∀ name val, (name, val) ∈ params ↔ LastBinding name val pats segs

theorem length_paramSegment (name : Text) : (paramSegment name).length = name.length + 2 := by
  simp [paramSegment]

theorem paramSegment_inj {name name' : Text} (h : paramSegment name = paramSegment name') :
    name = name' := by
  simpa [paramSegment] using h

/-- The test of the source for `{name}`. -/
theorem isParam_iff {pat : Text} :
    (2 ≤ pat.length ∧ pat.head? = some 123 ∧ pat.getLast? = some 125)
      ↔ ∃ name, pat = paramSegment name := by
  constructor
  · rintro ⟨hlen, hhead, hlast⟩
    cases pat with
    | nil => cases hhead
    | cons c s =>
      obtain rfl : c = 123 := by simpa using hhead
      cases s using List.reverseRecOn with
      | nil => simp at hlen
      | append_singleton name d =>
        change ((123 :: name) ++ [d]).getLast? = some 125 at hlast
        rw [List.getLast?_concat] at hlast
        exact ⟨name, by rw [Option.some.inj hlast, paramSegment, List.cons_append]⟩
  · rintro ⟨name, rfl⟩
    refine ⟨by rw [length_paramSegment]; omega, rfl, ?_⟩
    exact List.getLast?_concat

/-- The name copied out of a `{name}` shorter than the buffer. -/
theorem param_name {name : Text} (h : name.length < 128) :
    ((paramSegment name).drop 1).take (min ((paramSegment name).length - 2) 127) = name := by
  rw [length_paramSegment, Nat.add_sub_cancel, Nat.min_eq_left (by omega)]
  simp [paramSegment]

theorem dataGet_eq_some {d : DataList Text} (h : (d.map Prod.fst).Nodup) {key val : Text} :
    dataGet d key = some val ↔ (key, val) ∈ d := by
  induction d with
  | nil => simp [dataGet]
  | cons e d ih =>
    obtain ⟨k, v⟩ := e
    rw [List.map_cons, List.nodup_cons] at h
    rw [dataGet, List.mem_cons, Prod.mk.injEq, ← ih h.2]
    by_cases hk : k = key
    · have hnone : dataGet d key = none := dataGet_eq_none.mpr (hk ▸ h.1)
      simp [hk, hnone, eq_comm]
    · simp [hk, Ne.symm hk]

/-- The bindings left by a match: the last one of a name, or the one it had before. -/
structure Bound (before params : DataList Text) (pats segs : List Text) : Prop where
  nodup : (params.map Prod.fst).Nodup
  get_iff : ∀ name val, dataGet params name = some val ↔
    LastBinding name val pats segs ∨ (paramSegment name ∉ pats ∧ dataGet before name = some val)

theorem Bound.cons_param {before params : DataList Text} {name seg : Text}
    {pats segs : List Text} (h : Bound (dataSet before name seg) params pats segs) :
    Bound before params (paramSegment name :: pats) (seg :: segs) := by
  refine ⟨h.nodup, fun key val => ?_⟩
  rw [h.get_iff, dataGet_dataSet, lastBinding_cons_iff, List.mem_cons, not_or]
  by_cases hkey : key = name
  · subst hkey
    rw [if_pos rfl, Option.some.injEq]
    constructor
    · rintro (hlast | ⟨hno, hseg⟩)
      · exact .inl (.inl hlast)
      · exact .inl (.inr ⟨rfl, hseg, hno⟩)
    · rintro ((hlast | ⟨-, hseg, hno⟩) | ⟨⟨hne, -⟩, -⟩)
      · exact .inl hlast
      · exact .inr ⟨hno, hseg⟩
      · exact absurd rfl hne
  · have hne : paramSegment key ≠ paramSegment name := fun heq => hkey (paramSegment_inj heq)
    rw [if_neg hkey]
    constructor
    · rintro (hlast | ⟨hno, hget⟩)
      · exact .inl (.inl hlast)
      · exact .inr ⟨⟨hne, hno⟩, hget⟩
    · rintro ((hlast | ⟨heq, -⟩) | ⟨⟨-, hno⟩, hget⟩)
      · exact .inl hlast
      · exact absurd heq.symm hne
      · exact .inr ⟨hno, hget⟩

theorem Bound.cons_literal {before params : DataList Text} {pat seg : Text}
    {pats segs : List Text} (hpat : ¬ ∃ name, pat = paramSegment name)
    (h : Bound before params pats segs) : Bound before params (pat :: pats) (seg :: segs) := by
  refine ⟨h.nodup, fun key val => ?_⟩
  have hne : pat ≠ paramSegment key := fun heq => hpat ⟨key, heq⟩
  rw [h.get_iff, lastBinding_cons_iff, List.mem_cons, not_or]
  constructor
  · rintro (hlast | ⟨hno, hget⟩)
    · exact .inl (.inl hlast)
    · exact .inr ⟨⟨Ne.symm hne, hno⟩, hget⟩
  · rintro ((hlast | ⟨heq, -⟩) | ⟨⟨-, hno⟩, hget⟩)
    · exact .inl hlast
    · exact absurd heq hne
    · exact .inr ⟨hno, hget⟩

/-- The segment loop: it succeeds when the segments match one to one. -/
theorem matchSegments_eq_some {pats segs : List Text} {before params : DataList Text}
    (hnames : ∀ name, paramSegment name ∈ pats → name.length < 128)
    (hbefore : (before.map Prod.fst).Nodup) (h : matchSegments pats segs before = some params) :
    List.Forall₂ SegmentMatches pats segs ∧ Bound before params pats segs := by
  induction pats, segs, before using matchSegments.induct with
  | case1 before =>
    obtain rfl := Option.some.inj h
    refine ⟨.nil, hbefore, fun name val => ?_⟩
    constructor
    · intro hget
      exact .inr ⟨List.not_mem_nil, hget⟩
    · rintro (hlast | ⟨-, hget⟩)
      · cases hlast
      · exact hget
  | case2 pat pats seg segs before hparam ih =>
    obtain ⟨name, rfl⟩ := isParam_iff.mp hparam
    have hname := hnames name List.mem_cons_self
    rw [matchSegments, if_pos hparam] at h
    rw [param_name hname] at h ih
    obtain ⟨hmatch, hbound⟩ := ih (fun n hn => hnames n (List.mem_cons_of_mem _ hn))
      (dataSet_keys_nodup hbefore name seg) h
    exact ⟨.cons (.param name seg) hmatch, hbound.cons_param⟩
  | case3 pats seg segs before hparam ih =>
    rw [matchSegments, if_neg hparam, if_pos rfl] at h
    obtain ⟨hmatch, hbound⟩ := ih (fun n hn => hnames n (List.mem_cons_of_mem _ hn)) hbefore h
    exact ⟨.cons (.literal seg) hmatch, hbound.cons_literal (mt isParam_iff.mpr hparam)⟩
  | case4 pat pats seg segs before hparam hne =>
    rw [matchSegments, if_neg hparam, if_neg hne] at h
    cases h
  | case5 pats segs before hnil hcons =>
    rw [matchSegments.eq_3 _ _ _ hnil hcons] at h
    cases h

theorem matchSegments_isSome {pats segs : List Text}
    (h : List.Forall₂ SegmentMatches pats segs) (before : DataList Text) :
    (matchSegments pats segs before).isSome := by
  induction h generalizing before with
  | nil => rfl
  | @cons pat seg pats segs hmatch _ ih =>
    rw [matchSegments]
    by_cases hparam : 2 ≤ pat.length ∧ pat.head? = some 123 ∧ pat.getLast? = some 125
    · rw [if_pos hparam]
      exact ih _
    · rw [if_neg hparam]
      cases hmatch with
      | param name => exact absurd (isParam_iff.mpr ⟨name, rfl⟩) hparam
      | literal =>
        rw [if_pos rfl]
        exact ih _

/-! ### Routing a request -/

/-- What a table can hold: C strings, patterns shorter than 1024 bytes, parameter names
shorter than 128. -/
structure Route.Fits {η : Type*} (r : Route η) : Prop where
  nulFree : 0 ∉ r.pattern
  pattern : r.pattern.length < 1024
  names : ∀ name, paramSegment name ∈ segmentsOf r.pattern → name.length < 128

/-- What the loops make of one route whose method is the request's. -/
theorem segmentLoop_route {η : Type*} {r : Route η} (hr : r.Fits) {path : Text} (hpath : 0 ∉ path)
    (hlen : path.length < 1024) :
    segmentLoop (strtokR 47 (cStr (r.pattern.take 1023))) (strtokR 47 (cStr (path.take 1023))) []
      = matchSegments (segmentsOf r.pattern) (segmentsOf path) [] := by
  have hpat := hr.pattern
  rw [List.take_of_length_le (show r.pattern.length ≤ 1023 by omega),
    List.take_of_length_le (show path.length ≤ 1023 by omega), cStr_eq_self hr.nulFree,
    cStr_eq_self hpath, segmentLoop_eq]

/-- The copy into an empty `params_out` keeps the bindings. -/
theorem Bound.copied {params : DataList Text} {pats segs : List Text}
    (h : Bound [] params pats segs) :
    BindsExactly (params.foldl (fun out e => dataSet out e.1 e.2) []) pats segs := by
  have hcopy : params.foldl (fun out e => dataSet out e.1 e.2) [] = params.reverse := by
    have hall := @dataSetAll_new _ [] params
      (by rw [List.append_nil, List.map_reverse, List.nodup_reverse]; exact h.nodup)
    rwa [List.append_nil] at hall
  rw [hcopy]
  constructor
  · rw [List.map_reverse, List.nodup_reverse]
    exact h.nodup
  · intro name val
    rw [List.mem_reverse, ← dataGet_eq_some h.nodup, h.get_iff]
    constructor
    · rintro (hlast | ⟨-, hget⟩)
      · exact hlast
      · cases hget
    · exact .inl

/-- **A route table is searched in order.**  A table holds the most recently registered route
first, and for every table the loops return the first route that answers the request,
`NULL` if none does.  With a route they leave exactly its last bindings in
`params_out`, and without one nothing: no route that was tried and rejected leaves a
binding behind. -/
theorem match_route_first {η : Type*} {routes : List (Route η)} (hroutes : ∀ r ∈ routes, r.Fits)
    (method : Text) {path : Text} (hpath : 0 ∉ path) (hlen : path.length < 1024) :
    (∀ registered : List (Text × Text × η), routeTable registered
      = (registered.map fun r => ⟨r.1.map toUpper, r.2.1, r.2.2⟩).reverse) ∧
    ((matchRouteLoop routes method path []).1 = none →
      (matchRouteLoop routes method path []).2 = [] ∧ ∀ r ∈ routes, ¬ r.Answers method path) ∧
    ∀ r, (matchRouteLoop routes method path []).1 = some r →
      ∃ newer older, routes = newer ++ r :: older ∧ (∀ r' ∈ newer, ¬ r'.Answers method path) ∧
        r.Answers method path ∧
        BindsExactly (matchRouteLoop routes method path []).2 (segmentsOf r.pattern)
          (segmentsOf path) := by
  refine ⟨routeTable_eq, ?_⟩
  induction routes with
  | nil => exact ⟨fun _ => ⟨rfl, List.forall_mem_nil _⟩, fun r hr => by cases hr⟩
  | cons r₀ rest ih =>
    obtain ⟨hnone, hsome⟩ := ih fun r hr => hroutes r (List.mem_cons_of_mem _ hr)
    have hr₀ := hroutes r₀ List.mem_cons_self
    rw [matchRouteLoop]
    dsimp only
    rw [segmentLoop_route hr₀ hpath hlen]
    -- a route that does not answer is passed over, and leaves nothing behind
    have hskip : ¬ r₀.Answers method path →
        ((matchRouteLoop rest method path []).1 = none →
          (matchRouteLoop rest method path []).2 = [] ∧
            ∀ r ∈ r₀ :: rest, ¬ r.Answers method path) ∧
        ∀ r, (matchRouteLoop rest method path []).1 = some r →
          ∃ newer older, r₀ :: rest = newer ++ r :: older ∧
            (∀ r' ∈ newer, ¬ r'.Answers method path) ∧ r.Answers method path ∧
            BindsExactly (matchRouteLoop rest method path []).2 (segmentsOf r.pattern)
              (segmentsOf path) := by
      intro hno
      constructor
      · intro h
        obtain ⟨hout, hall⟩ := hnone h
        exact ⟨hout, List.forall_mem_cons.mpr ⟨hno, hall⟩⟩
      · intro r h
        obtain ⟨newer, older, rfl, hall, hrest⟩ := hsome r h
        exact ⟨r₀ :: newer, older, rfl, List.forall_mem_cons.mpr ⟨hno, hall⟩, hrest⟩
    by_cases hm : strcaseEq r₀.method method
    · rw [if_pos hm]
      cases hseg : matchSegments (segmentsOf r₀.pattern) (segmentsOf path) [] with
      | none =>
        refine hskip fun h => ?_
        have := matchSegments_isSome h.segments []
        rw [hseg] at this
        cases this
      | some params =>
        have hempty : (([] : DataList Text).map Prod.fst).Nodup := List.nodup_nil
        obtain ⟨hmatch, hbound⟩ := matchSegments_eq_some hr₀.names hempty hseg
        refine ⟨fun h => absurd h (Option.some_ne_none _), fun r h => ?_⟩
        obtain rfl := Option.some.inj h
        exact ⟨[], rest, rfl, List.forall_mem_nil _, ⟨hm, hmatch⟩, hbound.copied⟩
    · rw [if_neg hm]
      exact hskip fun h => hm h.method

/-- The path `/users//7`: the newer route `/users` has another number of segments. -/
theorem match_route_first_users :
    ∃ newer older, routeTable [(txt "get", txt "/users/{id}", 1), (txt "get", txt "/users", 2)]
        = newer ++ ⟨txt "GET", txt "/users/{id}", 1⟩ :: older ∧
      (∀ r ∈ newer, ¬ r.Answers (txt "Get") (txt "/users//7")) ∧
      BindsExactly [(txt "id", txt "7")] (segmentsOf (txt "/users/{id}"))
        (segmentsOf (txt "/users//7")) := by
  have hfits : ∀ r ∈ routeTable [(txt "get", txt "/users/{id}", 1), (txt "get", txt "/users", 2)],
      r.Fits := by
    have husers : ∀ s ∈ segmentsOf (txt "/users"), s.length < 128 := forall_mem_of_all rfl
    have hid : ∀ s ∈ segmentsOf (txt "/users/{id}"), s.length < 128 := forall_mem_of_all rfl
    intro r hr
    have hname : ∀ name, (paramSegment name).length < 128 → name.length < 128 := by
      intro name h
      rw [length_paramSegment] at h
      omega
    rcases hr with _ | ⟨_, _ | ⟨_, hr⟩⟩
    · exact ⟨by decide, by decide, fun name h => hname name (husers _ h)⟩
    · exact ⟨by decide, by decide, fun name h => hname name (hid _ h)⟩
    · cases hr
  have hroute : matchRoute (routeTable [(txt "get", txt "/users/{id}", 1),
      (txt "get", txt "/users", 2)]) (txt "Get") (txt "/users//7")
      = some (⟨txt "GET", txt "/users/{id}", 1⟩, [(txt "id", txt "7")]) := rfl
  obtain ⟨-, -, hfirst⟩ := @match_route_first _ _ hfits (txt "Get")
    (txt "/users//7") (by decide) (by decide)
  rw [matchRouteLoop_eq] at hroute
  obtain ⟨r, hr, heq⟩ := Option.map_eq_some_iff.mp hroute
  obtain ⟨rfl, hparams⟩ := Prod.mk.inj heq
  obtain ⟨newer, older, htable, hnewer, -, hbinds⟩ := hfirst _ hr
  rw [hparams] at hbinds
  exact ⟨newer, older, htable, hnewer, hbinds⟩

/-! ### Malformed requests -/

/-- The first word of the request line, as far as `method` holds it. -/
def methodWord (b : Text) : Text :=
  ((((b.take ((findCrlf b).getD 0)).take 2047).dropWhile isSpace).takeWhile (! isSpace ·)).take 15

/-- What a failed parse leaves: the first word of the request line and an empty path. -/
theorem parseRequest_failed {b : Text} {n : ℕ} (h : (parseRequest b n).1 = false) :
    (parseRequest b n).2.method = methodWord b ∧ (parseRequest b n).2.path = [] := by
  unfold parseRequest at h ⊢
  unfold methodWord
  cases hline : findCrlf b with
  | none => exact ⟨by simp [ParsedRequest.zero], rfl⟩
  | some lineEnd =>
    rw [hline] at h
    dsimp only [Option.getD_some] at h ⊢
    unfold scanTwoWords at h ⊢
    dsimp only at h ⊢
    set first := ((((b.take lineEnd).take 2047).dropWhile isSpace).takeWhile (! isSpace ·)).take 15
    split_ifs at h ⊢ with hfirst hsecond
    · exact ⟨hfirst.symm, rfl⟩
    · exact ⟨rfl, rfl⟩
    · cases h

/-- An empty path is matched by the patterns without segments. -/
theorem matchRoute_nil_path {η : Type*} (routes : List (Route η)) (method : Text) :
    matchRoute routes method [] = none ↔
      ∀ r ∈ routes, strcaseEq r.method method = true → strtok 47 (r.pattern.take 1023) ≠ [] := by
  induction routes with
  | nil => exact ⟨fun _ => List.forall_mem_nil _, fun _ => rfl⟩
  | cons r rest ih =>
    have hpath : strtok 47 (([] : Text).take 1023) = [] := rfl
    rw [matchRoute, hpath, List.forall_mem_cons]
    by_cases hm : strcaseEq r.method method = true
    · rw [if_pos hm]
      cases hseg : strtok 47 (r.pattern.take 1023) with
      | nil =>
        have hyes : matchSegments [] [] [] = some [] := rfl
        rw [hyes]
        exact ⟨fun h => (by cases h), fun h => absurd rfl (h.1 hm)⟩
      | cons pat pats =>
        have hno : matchSegments (pat :: pats) [] [] = none := rfl
        rw [hno]
        dsimp only
        rw [ih]
        exact ⟨fun h => ⟨fun _ => List.cons_ne_nil _ _, h⟩, fun h => h.2⟩
    · rw [if_neg hm, ih]
      exact ⟨fun h => ⟨fun h' => absurd h' hm, h⟩, fun h => h.2⟩

/-- **A malformed request reaches a handler through the patterns without segments.**
`http_conn_entry` does not look at what `parse_request` returns, so a request line of fewer
than two words is routed with an empty path: no handler is called exactly when every route
whose method is the first word, ignoring case, has a segment in its pattern. -/
theorem malformed_unhandled_iff {η : Type*} (routes : List (Route η)) {chunks : List Text}
    {b : Text} {n : ℕ} (hread : readRequest [] chunks = some (b, n))
    (hbad : (parseRequest b n).1 = false) :
    (∀ handler req, httpConnEntry routes chunks ≠ .handled handler req) ↔
      ∀ r ∈ routes, strcaseEq r.method (methodWord b) = true →
        strtok 47 (r.pattern.take 1023) ≠ [] := by
  obtain ⟨hmethod, hpath⟩ := parseRequest_failed hbad
  rw [← matchRoute_nil_path, ← hmethod, ← hpath]
  unfold httpConnEntry
  rw [hread]
  dsimp only
  cases matchRoute routes (parseRequest b n).2.method (parseRequest b n).2.path with
  | none => exact ⟨fun _ => rfl, fun _ _ _ h => by cases h⟩
  | some p => exact ⟨fun h => absurd rfl (h _ _), fun h => by cases h⟩

theorem readRequest_get_line :
    readRequest [] [txt "GET\r\n\r\n"] = some (txt "GET\r\n\r\n", 7) ∧
      (parseRequest (txt "GET\r\n\r\n") 7).1 = false := by
  decide +kernel

/-- The request `GET` alone, and a table whose pattern has a segment. -/
theorem malformed_unhandled_get :
    (parseRequest (txt "GET\r\n\r\n") 7).1 = false ∧
      ∀ handler req, httpConnEntry [⟨txt "GET", txt "/a", ()⟩] [txt "GET\r\n\r\n"]
        ≠ .handled handler req :=
  ⟨readRequest_get_line.2,
    (malformed_unhandled_iff _ readRequest_get_line.1 readRequest_get_line.2).mpr
      (by decide +kernel)⟩

/-- The same request, and a table with the pattern `/`: its handler is called. -/
theorem malformed_handled_root :
    (parseRequest (txt "GET\r\n\r\n") 7).1 = false ∧
      ∃ req, httpConnEntry [⟨txt "GET", txt "/", ()⟩] [txt "GET\r\n\r\n"] = .handled () req := by
  refine ⟨readRequest_get_line.2, ?_⟩
  obtain ⟨hmethod, hpath⟩ := parseRequest_failed readRequest_get_line.2
  have hword : methodWord (txt "GET\r\n\r\n") = txt "GET" := by decide +kernel
  have hroute : matchRoute [⟨txt "GET", txt "/", ()⟩] (txt "GET") []
      = some (⟨txt "GET", txt "/", ()⟩, []) := rfl
  refine ⟨makeRequest (parseRequest (txt "GET\r\n\r\n") 7).2 [], ?_⟩
  unfold httpConnEntry
  rw [readRequest_get_line.1]
  dsimp only
  rw [hmethod, hpath, hword, hroute]

end Jaguar
