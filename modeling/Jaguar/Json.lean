/-
JSON (`json.c`).

`JsonVal` is a value as the encoder sees it: unfolded to a finite tree. The decoder works on
the text still ahead, with a bound on its recursion that `jsonParse` sets high enough for
every text.

* `jsonStringify`, `jsonParseValue` — encoder and decoder;
* `jsonParse_total`, `jsonParse_mono` — the bound suffices, and more does no harm.
-/
import Jaguar.DataList
import Jaguar.JsonGrammar
import Mathlib.Tactic.SplitIfs

namespace Jaguar

/-! ### The encoder -/

/-- A value, unfolded. The entries of a `data` value stand as in its list, the newest
first; `other` stands for functions, classes, instances and native values. -/
inductive JsonVal
  | num (n : ℤ)
  | decimal (d : Float)
  | scifi (d : Float)
  | bool (b : Bool)
  | string (s : Text)
  | void
  | list (items : List JsonVal)
  | data (entries : List (Text × JsonVal))
  | other

/-- The characters of a string: quotes, backslashes and newlines are escaped. -/
def jsonEscape : Text → Text
  | [] => []
  | c :: s =>
    if c = 34 ∨ c = 92 then 92 :: c :: jsonEscape s
    else if c = 10 then 92 :: 110 :: jsonEscape s
    else c :: jsonEscape s

mutual

/-- `json_stringify_into`. -/
def jsonStringify : JsonVal → Text
  | .string s => 34 :: (jsonEscape s ++ [34])
  | .num n => intText n
  | .decimal d => formatG d
  | .scifi d => formatG d
  | .bool b => if b then txt "true" else txt "false"
  | .void => txt "null"
  | .list items => 91 :: (commaSep (jsonItemTexts items) ++ [93])
  | .data entries => 123 :: (commaSep (jsonEntryTexts entries).reverse ++ [125])
  | .other => txt "null"

def jsonItemTexts : List JsonVal → List Text
  | [] => []
  | v :: vs => jsonStringify v :: jsonItemTexts vs

/-- The entries as they are written; keys are not escaped. -/
def jsonEntryTexts : List (Text × JsonVal) → List Text
  | [] => []
  | (key, v) :: es => (34 :: (key ++ 34 :: 58 :: jsonStringify v)) :: jsonEntryTexts es

end

/-- The text of an entry. -/
def jsonEntryText (e : Text × JsonVal) : Text := 34 :: (e.1 ++ 34 :: 58 :: jsonStringify e.2)

theorem jsonItemTexts_eq (vs : List JsonVal) : jsonItemTexts vs = vs.map jsonStringify := by
  induction vs with
  | nil => rfl
  | cons v vs ih => rw [jsonItemTexts, ih, List.map_cons]

theorem jsonEntryTexts_eq (es : List (Text × JsonVal)) :
    jsonEntryTexts es = es.map jsonEntryText := by
  induction es with
  | nil => rfl
  | cons e es ih =>
    obtain ⟨key, v⟩ := e
    rw [jsonEntryTexts, ih, List.map_cons]
    rfl

/-! ### The decoder -/

/-- `json_skip_ws`. -/
def jsonSkipWs (s : Text) : Text := s.dropWhile fun c => c = 32 || c = 9 || c = 10 || c = 13

/-- The characters of a string up to its closing quote or the end, and what is left from
there on. -/
def jsonStringBody : Text → Text × Text
  | [] => ([], [])
  | [c] => if c = 34 then ([], [c]) else ([c], [])
  | c :: n :: s =>
    if c = 34 then ([], c :: n :: s)
    else if c = 92 then
      let (out, rest) := jsonStringBody s
      ((if n = 110 then 10 else if n = 116 then 9 else n) :: out, rest)
    else
      let (out, rest) := jsonStringBody (n :: s)
      (c :: out, rest)

/-- `json_parse_string_raw`, which takes nothing when there is no quote. -/
def jsonParseStringRaw (s : Text) : Text × Text :=
  if s.head? = some 34 then
    let (out, rest) := jsonStringBody s.tail
    (out, if rest.head? = some 34 then rest.tail else rest)
  else ([], s)

/-- The end of a number: what is left behind it, and whether it is one with a fraction or
an exponent. -/
def jsonNumberEnd (s : Text) : Text × Bool :=
  let s := if s.head? = some 45 then s.tail else s
  let s := s.dropWhile isDigit
  let (s, isFloat) := if s.head? = some 46 then (s.tail.dropWhile isDigit, true) else (s, false)
  if s.head? = some 101 ∨ s.head? = some 69 then
    let s := s.tail
    let s := if s.head? = some 43 ∨ s.head? = some 45 then s.tail else s
    (s.dropWhile isDigit, true)
  else (s, isFloat)

/-- A number: its text goes through a buffer of 64 bytes. -/
def jsonParseNumber (s : Text) : JsonVal × Text :=
  let (rest, isFloat) := jsonNumberEnd s
  let numbuf := (s.take (s.length - rest.length)).take 63
  (if isFloat then .decimal (atof numbuf) else .num (atol numbuf), rest)

mutual

/-- `json_parse_value`. -/
def jsonParseValue : ℕ → Text → Option (JsonVal × Text)
  | 0, _ => none
  | n + 1, s =>
    let s := jsonSkipWs s
    if s.head? = some 34 then
      let (str, rest) := jsonParseStringRaw s
      some (.string str, rest)
    else if s.head? = some 123 then
      let s := jsonSkipWs s.tail
      if s.head? = some 125 then some (.data [], s.tail) else jsonParseEntries n [] s
    else if s.head? = some 91 then
      let s := jsonSkipWs s.tail
      if s.head? = some 93 then some (.list [], s.tail) else jsonParseItems n [] s
    else if txt "true" <+: s then some (.bool true, s.drop 4)
    else if txt "false" <+: s then some (.bool false, s.drop 5)
    else if txt "null" <+: s then some (.void, s.drop 4)
    else some (jsonParseNumber s)

/-- The loop over the entries of an object, `obj` so far. -/
def jsonParseEntries : ℕ → DataList JsonVal → Text → Option (JsonVal × Text)
  | 0, _, _ => none
  | n + 1, obj, s =>
    let (key, s) := jsonParseStringRaw (jsonSkipWs s)
    let s := jsonSkipWs s
    let s := if s.head? = some 58 then s.tail else s
    match jsonParseValue n s with
    | none => none
    | some (val, s) =>
      let obj := dataSet obj key val
      let s := jsonSkipWs s
      if s.head? = some 44 then jsonParseEntries n obj s.tail
      else some (.data obj, if s.head? = some 125 then s.tail else s)

/-- The loop over the items of an array, `items` so far. -/
def jsonParseItems : ℕ → List JsonVal → Text → Option (JsonVal × Text)
  | 0, _, _ => none
  | n + 1, items, s =>
    match jsonParseValue n s with
    | none => none
    | some (item, s) =>
      let items := items ++ [item]
      let s := jsonSkipWs s
      if s.head? = some 44 then jsonParseItems n items s.tail
      else some (.list items, if s.head? = some 93 then s.tail else s)

end

/-- `json_parse`. -/
def jsonParse (text : Text) : Option JsonVal :=
  (jsonParseValue (2 * (cStr text).length + 1) (cStr text)).map Prod.fst

/-! ### The bound -/

theorem jsonSkipWs_length (s : Text) : (jsonSkipWs s).length ≤ s.length :=
  (List.dropWhile_suffix _).length_le

theorem jsonStringBody_length : ∀ s : Text, (jsonStringBody s).2.length ≤ s.length
  | [] => Nat.le_refl _
  | [c] => by
    unfold jsonStringBody
    split_ifs <;> simp
  | c :: n :: s => by
    have hs := jsonStringBody_length s
    have hns := jsonStringBody_length (n :: s)
    unfold jsonStringBody
    by_cases hquote : c = 34
    · rw [if_pos hquote]
    · rw [if_neg hquote]
      by_cases hback : c = 92
      · rw [if_pos hback]
        exact hs.trans (Nat.le_add_right _ 2)
      · rw [if_neg hback]
        exact hns.trans (Nat.le_succ _)

theorem jsonParseStringRaw_length (s : Text) : (jsonParseStringRaw s).2.length ≤ s.length := by
  unfold jsonParseStringRaw
  split_ifs
  · have hbody := jsonStringBody_length s.tail
    have htail := List.length_tail (l := s)
    dsimp only
    split_ifs
    · rw [List.length_tail]
      omega
    · omega
  · exact Nat.le_refl _

theorem jsonNumberEnd_length (s : Text) : (jsonNumberEnd s).1.length ≤ s.length := by
  have hdrop : ∀ s : Text, (s.dropWhile isDigit).length ≤ s.length := fun s =>
    (List.dropWhile_suffix _).length_le
  have htail : ∀ s : Text, s.tail.length ≤ s.length := fun s => (List.tail_sublist s).length_le
  have hsign : ∀ (c : Prop) [Decidable c] (s : Text), (if c then s.tail else s).length ≤ s.length := by
    intro c _ s
    split_ifs
    · exact htail s
    · exact Nat.le_refl _
  unfold jsonNumberEnd
  dsimp only
  set s₁ := (if s.head? = some 45 then s.tail else s).dropWhile isDigit with hs₁
  have h₁ : s₁.length ≤ s.length := (hdrop _).trans (hsign _ s)
  set p := if s₁.head? = some 46 then (s₁.tail.dropWhile isDigit, true) else (s₁, false) with hp
  have h₂ : p.1.length ≤ s.length := by
    rw [hp]
    split_ifs
    · exact ((hdrop _).trans (htail _)).trans h₁
    · exact h₁
  split_ifs
  · exact ((hdrop _).trans (htail _)).trans ((htail _).trans h₂)
  · exact ((hdrop _).trans (htail _)).trans h₂
  · exact h₂

/-- A run of the decoder on `s` that returns and does not go back. -/
def JsonReads (r : Option (JsonVal × Text)) (s : Text) : Prop :=
  ∃ v rest, r = some (v, rest) ∧ rest.length ≤ s.length

theorem JsonReads.mono {r : Option (JsonVal × Text)} {s t : Text} (h : JsonReads r s)
    (hle : s.length ≤ t.length) : JsonReads r t := by
  obtain ⟨v, rest, hr, hlen⟩ := h
  exact ⟨v, rest, hr, hlen.trans hle⟩

/-- Every value behind an opening bracket or a comma is read from a shorter text. -/
theorem jsonParse_total (n : ℕ) :
    (∀ s : Text, 2 * s.length + 1 ≤ n → JsonReads (jsonParseValue n s) s) ∧
    (∀ obj (s : Text), 2 * s.length + 2 ≤ n → JsonReads (jsonParseEntries n obj s) s) ∧
    (∀ items (s : Text), 2 * s.length + 2 ≤ n → JsonReads (jsonParseItems n items s) s) := by
  have htail : ∀ s : Text, s.tail.length ≤ s.length := fun s => (List.tail_sublist s).length_le
  have hpos : ∀ {s : Text} {c : UInt8}, s.head? = some c → s.tail.length + 1 = s.length := by
    intro s c h
    cases s with
    | nil => cases h
    | cons d s => rfl
  induction n with
  | zero => exact ⟨fun s h => by omega, fun _ s h => by omega, fun _ s h => by omega⟩
  | succ n ih =>
    obtain ⟨hvalue, hentries, hitems⟩ := ih
    refine ⟨fun s hn => ?_, fun obj s hn => ?_, fun items s hn => ?_⟩
    · have hskip := jsonSkipWs_length s
      rw [jsonParseValue]
      dsimp only
      set s' := jsonSkipWs s with hs'
      have hinner := jsonSkipWs_length s'.tail
      split_ifs with h₁ h₂ h₃ h₄ h₅ h₆ h₇ h₈
      · exact ⟨_, _, rfl, (jsonParseStringRaw_length s').trans hskip⟩
      · exact ⟨_, _, rfl, ((htail _).trans hinner).trans ((htail _).trans hskip)⟩
      · have := hpos h₂
        exact (hentries [] _ (by omega)).mono (by omega)
      · exact ⟨_, _, rfl, ((htail _).trans hinner).trans ((htail _).trans hskip)⟩
      · have := hpos h₄
        exact (hitems [] _ (by omega)).mono (by omega)
      · exact ⟨_, _, rfl, by rw [List.length_drop]; omega⟩
      · exact ⟨_, _, rfl, by rw [List.length_drop]; omega⟩
      · exact ⟨_, _, rfl, by rw [List.length_drop]; omega⟩
      · exact ⟨_, _, rfl, (jsonNumberEnd_length s').trans hskip⟩
    · rw [jsonParseEntries]
      dsimp only
      set p := jsonParseStringRaw (jsonSkipWs s) with hp
      have hkey : p.2.length ≤ s.length :=
        (jsonParseStringRaw_length _).trans (jsonSkipWs_length s)
      set s₁ := if (jsonSkipWs p.2).head? = some 58 then (jsonSkipWs p.2).tail
        else jsonSkipWs p.2 with hs₁
      have h₁ : s₁.length ≤ s.length := by
        rw [hs₁]
        split_ifs
        · exact (htail _).trans ((jsonSkipWs_length _).trans hkey)
        · exact (jsonSkipWs_length _).trans hkey
      obtain ⟨v, rest, hv, hrest⟩ := hvalue s₁ (by omega)
      rw [hv]
      dsimp only
      have hskip := jsonSkipWs_length rest
      split_ifs with h₂ h₃
      · have := hpos h₂
        exact (hentries _ _ (by omega)).mono (by omega)
      · exact ⟨_, _, rfl, (htail _).trans (by omega)⟩
      · exact ⟨_, _, rfl, by omega⟩
    · rw [jsonParseItems]
      obtain ⟨v, rest, hv, hrest⟩ := hvalue s (by omega)
      rw [hv]
      dsimp only
      have hskip := jsonSkipWs_length rest
      split_ifs with h₂ h₃
      · have := hpos h₂
        exact (hitems _ _ (by omega)).mono (by omega)
      · exact ⟨_, _, rfl, (htail _).trans (by omega)⟩
      · exact ⟨_, _, rfl, by omega⟩

/-- More recursion does no harm. -/
theorem jsonParse_mono (n : ℕ) :
    (∀ s x, jsonParseValue n s = some x → jsonParseValue (n + 1) s = some x) ∧
    (∀ obj s x, jsonParseEntries n obj s = some x → jsonParseEntries (n + 1) obj s = some x) ∧
    (∀ items s x, jsonParseItems n items s = some x → jsonParseItems (n + 1) items s = some x) := by
  induction n with
  | zero => exact ⟨nofun, nofun, nofun⟩
  | succ n ih =>
    obtain ⟨hvalue, hentries, hitems⟩ := ih
    refine ⟨fun s x h => ?_, fun obj s x h => ?_, fun items s x h => ?_⟩
    · rw [jsonParseValue] at h ⊢
      dsimp only at h ⊢
      split_ifs at h ⊢ with h₁ h₂ h₃ h₄ h₅ h₆ h₇ h₈
      · exact h
      · exact h
      · exact hentries _ _ _ h
      · exact h
      · exact hitems _ _ _ h
      · exact h
      · exact h
      · exact h
      · exact h
    · rw [jsonParseEntries] at h ⊢
      dsimp only at h ⊢
      split at h
      · cases h
      · next val rest hv =>
        rw [hvalue _ _ hv]
        dsimp only
        split_ifs at h ⊢ with h₂
        · exact hentries _ _ _ h
        · exact h
        · exact h
    · rw [jsonParseItems] at h ⊢
      split at h
      · cases h
      · next val rest hv =>
        rw [hvalue _ _ hv]
        dsimp only at h ⊢
        split_ifs at h ⊢ with h₂
        · exact hitems _ _ _ h
        · exact h
        · exact h

theorem jsonParseValue_le {n m : ℕ} (h : n ≤ m) {s : Text} {x : JsonVal × Text}
    (hx : jsonParseValue n s = some x) : jsonParseValue m s = some x := by
  induction h with
  | refl => exact hx
  | step _ ih => exact (jsonParse_mono _).1 _ _ ih

end Jaguar
