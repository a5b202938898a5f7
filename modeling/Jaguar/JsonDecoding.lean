/-
What `json_parse` makes of a text in the grammar.

The decoder knows the escapes `\"`, `\\`, `\/`, `\n` and `\t`; behind any other backslash it
takes the letter itself, also for `\b`, `\f`, `\r` and `\u`. Everything else of the grammar
is read as it is meant.

* `docVal` — the value that a document stands for;
* `knownEscapes` — the text has no escape but those the decoder knows;
* `JsonValue.read` — the value the decoder makes of a text in the grammar, against the meant one;
* `jsonParse_denotes` — **the decoder is right where the escapes are known**, and nowhere
  else unless a repeated name covers it up.
-/
import Jaguar.JsonReading

namespace Jaguar

mutual

/-- The value that a document stands for. Of members with one name the last one counts. -/
def docVal : JsonDoc → JsonVal
  | .null => .void
  | .bool b => .bool b
  | .int n => .num n
  | .decimal literal => .decimal (atof literal)
  | .string s => .string s
  | .list items => .list (docVals items)
  | .object members => .data (dataSetAll [] (memberVals members))

def docVals : List JsonDoc → List JsonVal
  | [] => []
  | d :: ds => docVal d :: docVals ds

def memberVals : List (Text × JsonDoc) → List (Text × JsonVal)
  | [] => []
  | (name, d) :: ms => (name, docVal d) :: memberVals ms

end

theorem docVals_eq (ds : List JsonDoc) : docVals ds = ds.map docVal := by
  induction ds with
  | nil => rfl
  | cons d ds ih => rw [docVals, ih, List.map_cons]

theorem memberVals_eq (ms : List (Text × JsonDoc)) :
    memberVals ms = ms.map fun m => (m.1, docVal m.2) := by
  induction ms with
  | nil => rfl
  | cons m ms ih =>
    obtain ⟨name, d⟩ := m
    rw [memberVals, ih, List.map_cons]

/-- Documents whose numbers are integers of 64 bits and whose strings hold no NUL. -/
inductive Storable : JsonDoc → Prop
  | null : Storable .null
  | bool (b : Bool) : Storable (.bool b)
  | int {n : ℤ} (hlo : -2 ^ 63 ≤ n) (hhi : n < 2 ^ 63) : Storable (.int n)
  | string {s : Text} (hnul : 0 ∉ s) : Storable (.string s)
  | list {ds : List JsonDoc} (h : ∀ d ∈ ds, Storable d) : Storable (.list ds)
  | object {ms : List (Text × JsonDoc)} (hname : ∀ m ∈ ms, 0 ∉ m.1)
      (h : ∀ m ∈ ms, Storable m.2) : Storable (.object ms)

/-- No object of the document has two members with one name. -/
inductive DistinctNames : JsonDoc → Prop
  | null : DistinctNames .null
  | bool (b : Bool) : DistinctNames (.bool b)
  | int (n : ℤ) : DistinctNames (.int n)
  | decimal (literal : Text) : DistinctNames (.decimal literal)
  | string (s : Text) : DistinctNames (.string s)
  | list {ds : List JsonDoc} (h : ∀ d ∈ ds, DistinctNames d) : DistinctNames (.list ds)
  | object {ms : List (Text × JsonDoc)} (hnames : (ms.map Prod.fst).Nodup)
      (h : ∀ m ∈ ms, DistinctNames m.2) : DistinctNames (.object ms)

/-- The letters behind a backslash that the decoder knows. -/
def isKnownEscape (n : UInt8) : Bool := n = 34 || n = 92 || n = 47 || n = 110 || n = 116

/-- In the strings of the text every escape is one that the decoder knows; the flag says
whether the text starts inside a string. -/
def knownEscapes : Bool → Text → Bool
  | _, [] => true
  | false, c :: s => knownEscapes (c = 34) s
  | true, [_] => true
  | true, c :: n :: s =>
    if c = 92 then isKnownEscape n && knownEscapes true s else knownEscapes (c ≠ 34) (n :: s)

/-! ### The flag over a text -/

theorem knownEscapes_plain {t : Text} (h : 34 ∉ t) (r : Text) :
    knownEscapes false (t ++ r) = knownEscapes false r := by
  induction t with
  | nil => rfl
  | cons c t ih =>
    rw [List.mem_cons, not_or] at h
    rw [List.cons_append, knownEscapes, decide_eq_false (Ne.symm h.1)]
    exact ih h.2

theorem knownEscapes_char {c : UInt8} (hquote : c ≠ 34) (hback : c ≠ 92) (r : Text) :
    knownEscapes true (c :: r) = knownEscapes true r := by
  cases r with
  | nil => rfl
  | cons n r =>
    rw [knownEscapes, if_neg hback, decide_eq_true hquote]

theorem knownEscapes_backslash (n : UInt8) (r : Text) :
    knownEscapes true (92 :: n :: r) = (isKnownEscape n && knownEscapes true r) := by
  rw [knownEscapes, if_pos rfl]

theorem knownEscapes_quote (r : Text) : knownEscapes true (34 :: r) = knownEscapes false r := by
  cases r <;> rfl

theorem knownEscapes_open (r : Text) : knownEscapes false (34 :: r) = knownEscapes true r := rfl

/-! ### Strings -/

theorem jsonChars_run {p enc s : Text} (hp : ∀ c ∈ p, c ≠ 34 ∧ c ≠ 92) (h : JsonChars enc s) :
    JsonChars (p ++ enc) (p ++ s) := by
  induction p with
  | nil => exact h
  | cons c p ih =>
    obtain ⟨hquote, hback⟩ := hp c List.mem_cons_self
    exact .char hquote hback (ih fun d hd => hp d (List.mem_cons_of_mem c hd))

/-- The decoder's letter is the meant one where it knows the escape. -/
theorem knownEscape_iff {n c : UInt8} (h : simpleEscape n = some c) :
    (if n = 110 then 10 else if n = 116 then 9 else n) = c ↔ isKnownEscape n := by
  unfold simpleEscape at h
  split_ifs at h with h₁ h₂ h₃ h₄ h₅ h₆
  · obtain rfl := Option.some.inj h
    rcases h₁ with rfl | rfl | rfl <;> decide
  all_goals
    obtain rfl := Option.some.inj h
    subst_vars
    decide

/-- A string as the decoder takes it: `s'` for `s`, right if and only if its escapes are known.
Where `\u` is taken for its letters, more bytes come out than were meant. -/
theorem JsonString.taken {t s : Text} (h : JsonString t s) :
    ∃ (s' : Text) (known : Bool), JsonChars t s' ∧ s.length ≤ s'.length ∧ (s' = s ↔ known) ∧
      ∀ r, knownEscapes true (t ++ 34 :: r) = (known && knownEscapes false r) := by
  -- what `\u` with its digits becomes in front of a string
  have hunicode : ∀ {hs : Text} {n : ℕ} {enc s : Text}, Hex4 hs n → JsonChars enc s →
      JsonChars (92 :: 117 :: (hs ++ enc)) (117 :: (hs ++ s)) := by
    intro hs n enc s hhex h
    exact .escaped rfl (jsonChars_run (fun c hc => ⟨hhex.ne rfl c hc, hhex.ne rfl c hc⟩) h)
  have hutf8 : ∀ n, (String.utf8EncodeChar (Char.ofNat n)).length ≤ 4 := fun n => by
    rw [String.length_utf8EncodeChar]
    exact Char.utf8Size_le_four _
  induction h with
  | nil => exact ⟨[], true, .nil, Nat.le_refl _, by simp, fun r => by
      rw [List.nil_append, knownEscapes_quote, Bool.true_and]⟩
  | @char c enc s hctrl hquote hback _ ih =>
    obtain ⟨s', known, hchars, hlen, heq, hknown⟩ := ih
    refine ⟨c :: s', known, .char hquote hback hchars, Nat.succ_le_succ hlen, ?_, fun r => ?_⟩
    · rw [List.cons.injEq, heq]
      exact and_iff_right rfl
    · rw [List.cons_append, knownEscapes_char hquote hback, hknown]
  | @escape e out enc s he _ ih =>
    obtain ⟨s', known, hchars, hlen, heq, hknown⟩ := ih
    cases he with
    | @simple n c hn =>
      refine ⟨_ :: s', isKnownEscape n && known, .escaped rfl hchars, Nat.succ_le_succ hlen, ?_,
        fun r => ?_⟩
      · rw [List.cons_append, List.nil_append, List.cons.injEq, heq, knownEscape_iff hn,
          Bool.and_eq_true]
      · show knownEscapes true (92 :: n :: (enc ++ 34 :: r)) = _
        rw [knownEscapes_backslash, hknown, Bool.and_assoc]
    | @unit hs n hhex _ _ =>
      have hout := hutf8 n
      have hdigits := hhex.length
      refine ⟨117 :: (hs ++ s'), false, hunicode hhex hchars, ?_, ?_, fun r => ?_⟩
      · simp only [List.length_append, List.length_cons]
        omega
      · refine iff_of_false (fun h => ?_) (by decide)
        have := congrArg List.length h
        simp only [List.length_append, List.length_cons] at this
        omega
      · rw [List.cons_append, List.cons_append, List.cons_append, List.cons_append,
          knownEscapes_backslash]
        rfl
    | @pair hs ls n m hh hl _ _ =>
      have hout := hutf8 (0x10000 + (n - 0xD800) * 0x400 + (m - 0xDC00))
      have hhigh := hh.length
      have hlow := hl.length
      have hpair := hunicode hh (hunicode hl hchars)
      refine ⟨117 :: (hs ++ 117 :: (ls ++ s')), false, ?_, ?_, ?_, fun r => ?_⟩
      · simpa using hpair
      · simp only [List.length_append, List.length_cons]
        omega
      · refine iff_of_false (fun h => ?_) (by decide)
        have := congrArg List.length h
        simp only [List.length_append, List.length_cons] at this
        omega
      · rw [List.cons_append, List.cons_append, List.cons_append, List.cons_append,
          knownEscapes_backslash]
        rfl

/-! ### Values -/

/-- The value that the decoder makes of a text for the document, and whether all escapes of
the text are known to it. -/
structure Reading (d : JsonDoc) (t : Text) (v : JsonVal) (known : Bool) : Prop where
  reads : ReadAs t v
  flag : ∀ r, knownEscapes false (t ++ r) = (known && knownEscapes false r)
  sound : known = true → v = docVal d
  complete : DistinctNames d → v = docVal d → known = true

/-- Texts without strings. -/
theorem Reading.plain {d : JsonDoc} {t : Text} (h : ReadAs t (docVal d)) (hquote : 34 ∉ t) :
    Reading d t (docVal d) true :=
  ⟨h, fun r => by rw [knownEscapes_plain hquote, Bool.true_and], fun _ => rfl, fun _ _ => rfl⟩

theorem JsonWs.no_quote {w : Text} (hw : JsonWs w) : 34 ∉ w := by
  intro h
  exact absurd (hw 34 h) (by decide)

theorem JsonInt.no_quote {n : ℤ} {t : Text} (h : JsonInt n t) : 34 ∉ t := by
  intro hquote
  rcases h.digits 34 hquote with h | h <;> cases h

theorem knownEscapes_string {t : Text} {known : Bool}
    (h : ∀ r, knownEscapes true (t ++ 34 :: r) = (known && knownEscapes false r)) (r : Text) :
    knownEscapes false (34 :: (t ++ 34 :: r)) = (known && knownEscapes false r) := by
  rw [knownEscapes_open, h]

section Flags

variable {α : Type*} {full : α → Text} {known : α → Bool}

theorem knownEscapes_commaSep {xs : List α}
    (h : ∀ x ∈ xs, ∀ r, knownEscapes false (full x ++ r) = (known x && knownEscapes false r))
    (r : Text) :
    knownEscapes false (commaSep (xs.map full) ++ r) = (xs.all known && knownEscapes false r) := by
  induction xs with
  | nil => rfl
  | cons x xs ih =>
    have hx := h x List.mem_cons_self
    have hxs := ih fun y hy => h y (List.mem_cons_of_mem x hy)
    cases xs with
    | nil =>
      rw [List.all_cons, List.all_nil, Bool.and_true]
      exact hx r
    | cons y xs =>
      have htext : commaSep ((x :: y :: xs).map full) ++ r
          = full x ++ ([44] ++ (commaSep ((y :: xs).map full) ++ r)) := by simp [commaSep]
      rw [htext, hx, knownEscapes_plain (t := [44]) (by decide), hxs, ← Bool.and_assoc]
      rfl

end Flags

theorem JsonItem.flag {i : JsonItem} (hws : JsonWs i.before ∧ JsonWs i.after) {known : Bool}
    (h : ∀ r, knownEscapes false (i.text ++ r) = (known && knownEscapes false r)) (r : Text) :
    knownEscapes false (i.full ++ r) = (known && knownEscapes false r) := by
  rw [JsonItem.full, List.append_assoc, List.append_assoc, knownEscapes_plain hws.1.no_quote, h,
    knownEscapes_plain hws.2.no_quote]

theorem JsonMember.flag {m : JsonMember}
    (hws : JsonWs m.before ∧ JsonWs m.colon ∧ JsonWs m.value.before ∧ JsonWs m.value.after)
    {knownName known : Bool}
    (hname : ∀ r, knownEscapes true (m.keyText ++ 34 :: r) = (knownName && knownEscapes false r))
    (h : ∀ r, knownEscapes false (m.value.text ++ r) = (known && knownEscapes false r))
    (r : Text) :
    knownEscapes false (m.full ++ r) = (knownName && known && knownEscapes false r) := by
  have hcolon : 34 ∉ m.colon ++ [58] := by
    simp only [List.mem_append, not_or]
    exact ⟨hws.2.1.no_quote, by decide⟩
  have htext : m.full ++ r
      = m.before ++ (34 :: (m.keyText ++ 34 :: ((m.colon ++ [58]) ++ (m.value.full ++ r)))) := by
    simp [JsonMember.full]
  rw [htext, knownEscapes_plain hws.1.no_quote, knownEscapes_string hname,
    knownEscapes_plain hcolon, JsonItem.flag hws.2.2 h, Bool.and_assoc]

theorem reading_list {is : List JsonItem} (hne : is ≠ [])
    (hws : ∀ i ∈ is, JsonWs i.before ∧ JsonWs i.after)
    (h : ∀ i ∈ is, ∃ v known, Reading i.doc i.text v known) :
    ∃ v known, Reading (.list (is.map JsonItem.doc))
      (91 :: (commaSep (is.map JsonItem.full) ++ [93])) v known := by
  have : Inhabited JsonVal := ⟨.void⟩
  choose! val known hread using h
  refine ⟨.list (is.map val), is.all known, ?_, fun r => ?_, fun hall => ?_, fun hd hv => ?_⟩
  · exact @readAs_list _ val id is hne hws fun i hi => (hread i hi).reads
  · have hflags := @knownEscapes_commaSep _ JsonItem.full known is
      (fun i hi => JsonItem.flag (hws i hi) (hread i hi).flag) (93 :: r)
    rw [List.cons_append, List.append_assoc]
    show knownEscapes false (commaSep _ ++ 93 :: r) = _
    rw [hflags]
    rfl
  · rw [docVal, docVals_eq, List.map_map]
    refine congrArg JsonVal.list (List.map_congr_left fun i hi => ?_)
    exact (hread i hi).sound (List.all_eq_true.mp hall i hi)
  · cases hd with
    | list hd =>
      rw [docVal, docVals_eq, List.map_map, JsonVal.list.injEq, List.map_inj_left] at hv
      rw [List.all_eq_true]
      intro i hi
      exact (hread i hi).complete (hd i.doc (List.mem_map_of_mem hi)) (hv i hi)

/-- With distinct names every misread name or value shows: as many entries come out as there
are members, so none was replaced, and they stand in the order of the members. -/
theorem reading_object {ms : List JsonMember} (hne : ms ≠ [])
    (hws : ∀ m ∈ ms, JsonWs m.before ∧ JsonWs m.colon ∧ JsonWs m.value.before ∧
      JsonWs m.value.after)
    (hkey : ∀ m ∈ ms, JsonString m.keyText m.key)
    (h : ∀ m ∈ ms, ∃ v known, Reading m.value.doc m.value.text v known) :
    ∃ v known, Reading (.object (ms.map fun m => (m.key, m.value.doc)))
      (123 :: (commaSep (ms.map JsonMember.full) ++ [125])) v known := by
  have : Inhabited JsonVal := ⟨.void⟩
  choose! val known hread using h
  have hnames := fun m hm => (hkey m hm).taken
  choose! name knownName hchars _ hname hflag using hnames
  have hdoc : docVal (.object (ms.map fun m => (m.key, m.value.doc)))
      = .data (dataSetAll [] (ms.map fun m => (m.key, docVal m.value.doc))) := by
    rw [docVal, memberVals_eq, List.map_map]
    rfl
  refine ⟨.data (dataSetAll [] (ms.map fun m => (name m, val m))),
    ms.all fun m => knownName m && known m, ?_, fun r => ?_, fun hall => ?_, fun hd hv => ?_⟩
  · exact @readAs_data _ val id name ms hne hws hchars fun m hm => (hread m hm).reads
  · have hflags := @knownEscapes_commaSep _ JsonMember.full (fun m => knownName m && known m) ms
      (fun m hm => JsonMember.flag (hws m hm) (hflag m hm) (hread m hm).flag) (125 :: r)
    rw [List.cons_append, List.append_assoc]
    show knownEscapes false (commaSep _ ++ 125 :: r) = _
    rw [hflags]
    rfl
  · rw [hdoc]
    refine congrArg (fun es => JsonVal.data (dataSetAll [] es)) (List.map_congr_left fun m hm => ?_)
    have hm' := List.all_eq_true.mp hall m hm
    rw [Bool.and_eq_true] at hm'
    rw [(hname m hm).mpr hm'.1, (hread m hm).sound hm'.2]
  · cases hd with
    | object hnodup hd =>
      rw [hdoc, JsonVal.data.injEq] at hv
      have hmeant : dataSetAll [] (ms.map fun m => (m.key, docVal m.value.doc))
          = (ms.map fun m => (m.key, docVal m.value.doc)).reverse ++ [] := by
        refine dataSetAll_new [] ?_
        rw [List.append_nil, List.map_reverse, List.map_map]
        rw [List.map_map] at hnodup
        exact (List.reverse_perm _).nodup_iff.mpr hnodup
      have hfull : dataSetAll [] (ms.map fun m => (name m, val m))
          = (ms.map fun m => (name m, val m)).reverse ++ [] := by
        refine dataSetAll_full ?_
        rw [hv, hmeant]
        simp
      rw [hmeant, hfull, List.append_cancel_right_eq, List.reverse_inj, List.map_inj_left] at hv
      rw [List.all_eq_true]
      intro m hm
      obtain ⟨hn, hval⟩ := Prod.mk.inj (hv m hm)
      rw [Bool.and_eq_true]
      exact ⟨(hname m hm).mp hn,
        (hread m hm).complete (hd _ (List.mem_map_of_mem hm)) hval⟩

/-- The decoder makes a value of every text in the grammar, and the known escapes tell whether
it is the meant one. -/
theorem JsonValue.read {d : JsonDoc} {t : Text} (h : JsonValue d t) (hd : Storable d) :
    ∃ v known, Reading d t v known := by
  induction h with
  | null => exact ⟨_, _, .plain readAs_void (by decide)⟩
  | bool b => exact ⟨_, _, .plain (readAs_bool b) (by cases b <;> decide)⟩
  | number h =>
    cases h with
    | int h =>
      cases hd with
      | int hlo hhi => exact ⟨_, _, .plain (readAs_int h hlo hhi) h.no_quote⟩
    | decimal => cases hd
  | @string t s h =>
    obtain ⟨s', known, hchars, -, heq, hknown⟩ := h.taken
    refine ⟨.string s', known, readAs_string hchars, fun r => ?_, fun h => ?_, fun _ h => ?_⟩
    · rw [List.cons_append, List.append_assoc]
      exact knownEscapes_string hknown r
    · rw [heq.mpr h, docVal]
    · exact heq.mp (JsonVal.string.inj h)
  | emptyList hw =>
    refine ⟨_, _, .plain (readAs_emptyList hw) ?_⟩
    simp [hw.no_quote]
  | list hne hws _ ih =>
    cases hd with
    | list hd => exact reading_list hne hws fun i hi => ih i hi (hd _ (List.mem_map_of_mem hi))
  | emptyObject hw =>
    refine ⟨_, _, .plain (readAs_emptyData hw) ?_⟩
    simp [hw.no_quote]
  | object hne hws hkey _ ih =>
    cases hd with
    | object _ hd =>
      exact reading_object hne hws hkey fun m hm => ih m hm (hd _ (List.mem_map_of_mem hm))

/-! ### Texts hold no NUL -/

theorem JsonString.no_nul {t s : Text} (h : JsonString t s) : 0 ∉ t := by
  induction h with
  | nil => exact List.not_mem_nil
  | @char c t s hctrl _ _ _ ih =>
    have hc : 0 ≠ c := by
      rintro rfl
      exact absurd hctrl (by decide)
    simp [hc, ih]
  | @escape e out t s he _ ih =>
    have he' : 0 ∉ e := by
      cases he with
      | @simple n c hn =>
        have hn0 : 0 ≠ n := by
          rintro rfl
          cases hn
        simp [hn0]
      | unit h => simpa using fun hc => h.ne rfl 0 hc rfl
      | @pair hs ls _ _ hh hl =>
        have hhigh : 0 ∉ hs := fun hc => hh.ne rfl 0 hc rfl
        have hlow : 0 ∉ ls := fun hc => hl.ne rfl 0 hc rfl
        simp [hhigh, hlow]
    simp [he', ih]

theorem JsonWs.no_nul {w : Text} (hw : JsonWs w) : 0 ∉ w := fun h => absurd (hw 0 h) (by decide)

theorem JsonItem.no_nul {i : JsonItem} (hws : JsonWs i.before ∧ JsonWs i.after)
    (h : 0 ∉ i.text) : 0 ∉ i.full := by
  simp [JsonItem.full, hws.1.no_nul, hws.2.no_nul, h]

theorem JsonValue.no_nul {d : JsonDoc} {t : Text} (h : JsonValue d t) : 0 ∉ t := by
  induction h with
  | null => decide
  | bool b => cases b <;> decide
  | number h => exact fun h0 => absurd (h.numeral 0 h0) (by decide)
  | string h => simp [h.no_nul]
  | emptyList hw => simp [hw.no_nul]
  | @list is _ hws _ ih =>
    have hitems : 0 ∉ commaSep (is.map JsonItem.full) := by
      refine zero_not_mem_commaSep fun p hp => ?_
      obtain ⟨i, hi, rfl⟩ := List.mem_map.mp hp
      exact JsonItem.no_nul (hws i hi) (ih i hi)
    simp [hitems]
  | emptyObject hw => simp [hw.no_nul]
  | @object ms _ hws hkey _ ih =>
    have hmembers : 0 ∉ commaSep (ms.map JsonMember.full) := by
      refine zero_not_mem_commaSep fun p hp => ?_
      obtain ⟨m, hm, rfl⟩ := List.mem_map.mp hp
      obtain ⟨hbefore, hcolon, hvalue⟩ := hws m hm
      simp [JsonMember.full, hbefore.no_nul, hcolon.no_nul, (hkey m hm).no_nul,
        JsonItem.no_nul hvalue (ih m hm)]
    simp [hmembers]

/-- **The decoder is right where the escapes are known.** A text in the grammar is decoded to
the value it denotes if every escape is `\"`, `\\`, `\/`, `\n` or `\t`. With distinct names
it is decoded so only then; of members with one name all but the last may be misread. -/
theorem jsonParse_denotes {text : Text} {d : JsonDoc} (h : Denotes text d) (hd : Storable d) :
    (knownEscapes false text → jsonParse text = some (docVal d)) ∧
    (DistinctNames d → (jsonParse text = some (docVal d) ↔ knownEscapes false text)) := by
  obtain ⟨b, t, a, hb, ha, ht, rfl⟩ := h
  obtain ⟨v, known, hread⟩ := ht.read hd
  have hnul : 0 ∉ b ++ (t ++ a) := by simp [hb.no_nul, ha.no_nul, ht.no_nul]
  have hparse := hread.reads.jsonParse hb ha hnul
  have hflag : knownEscapes false (b ++ (t ++ a)) = known := by
    have hafter : knownEscapes false a = true := by
      rw [← List.append_nil a, knownEscapes_plain ha.no_quote]
      rfl
    rw [knownEscapes_plain hb.no_quote, hread.flag, hafter, Bool.and_true]
  rw [hparse, hflag, Option.some.injEq]
  exact ⟨hread.sound, fun hnames => ⟨hread.complete hnames, hread.sound⟩⟩

/-- ` ["a\n"] `. -/
theorem jsonParse_denotes_list :
    (knownEscapes false (txt " [\"a\\n\"] ") →
      jsonParse (txt " [\"a\\n\"] ") = some (docVal (.list [.string [97, 10]]))) ∧
    (DistinctNames (.list [.string [97, 10]]) →
      (jsonParse (txt " [\"a\\n\"] ") = some (docVal (.list [.string [97, 10]])) ↔
        knownEscapes false (txt " [\"a\\n\"] "))) := by
  have hspace : JsonWs [32] := forall_mem_of_all rfl
  have hstring : JsonString [97, 92, 110] [97, 10] :=
    .char (by decide) (by decide) (by decide) (.escape (.simple rfl) .nil)
  refine jsonParse_denotes ⟨[32], _, [32], hspace, hspace,
    @JsonValue.list [⟨[], .string [97, 10], [34, 97, 92, 110, 34], []⟩] (List.cons_ne_nil _ _)
      ?_ ?_, by decide⟩ (.list ?_)
  · intro i hi
    obtain rfl := List.mem_singleton.mp hi
    exact ⟨nofun, nofun⟩
  · intro i hi
    obtain rfl := List.mem_singleton.mp hi
    exact .string hstring
  · intro d hd
    obtain rfl := List.mem_singleton.mp hd
    exact .string (by decide)

/-- `\b` and `\u0041` are taken for their letters. -/
theorem jsonParse_misread :
    (Denotes (txt "\"\\b\"") (.string [8]) ∧ Storable (.string [8]) ∧
      jsonParse (txt "\"\\b\"") = some (.string (txt "b"))) ∧
    (Denotes (txt "\"\\u0041\"") (.string (txt "A")) ∧ Storable (.string (txt "A")) ∧
      jsonParse (txt "\"\\u0041\"") = some (.string (txt "u0041"))) := by
  refine ⟨⟨⟨[], _, [], nofun, nofun, .string (.escape (@JsonEscape.simple 98 8 rfl) .nil), by decide⟩,
    .string (by decide), rfl⟩, ⟨[], _, [], nofun, nofun,
    .string (.escape (@JsonEscape.unit [48, 48, 52, 49] 65
      ⟨48, 48, 52, 49, 0, 0, 4, 1, rfl, rfl, rfl, rfl, rfl, rfl⟩ ?_ ?_) .nil), by decide⟩,
    .string (by decide), rfl⟩
  · unfold HighSurrogate
    decide
  · unfold LowSurrogate
    decide

end Jaguar
