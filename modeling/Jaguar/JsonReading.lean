/-
What the decoder reads: a token or a bracketed sequence with any whitespace inside, and
anything behind it.

* `ReadAs` — the decoder takes a text, as the beginning of a longer one, for a value;
* `readAs_string`, `readAs_int`, `readAs_list`, `readAs_data` — **what each kind of text is
  taken for**;
* `ReadAs.jsonParse` — from there to a whole text.
-/
import Jaguar.Json
import Mathlib.Data.List.DropRight

namespace Jaguar

/-! ### Strings -/

/-- `JsonChars enc s`: inside quotes, `enc` is read as `s`. -/
inductive JsonChars : Text → Text → Prop
  | nil : JsonChars [] []
  | char {c : UInt8} {enc s : Text} (hquote : c ≠ 34) (hback : c ≠ 92) (h : JsonChars enc s) :
      JsonChars (c :: enc) (c :: s)
  | escaped {n c : UInt8} {enc s : Text}
      (hn : c = if n = 110 then 10 else if n = 116 then 9 else n) (h : JsonChars enc s) :
      JsonChars (92 :: n :: enc) (c :: s)

theorem jsonChars_escape (s : Text) : JsonChars (jsonEscape s) s := by
  induction s with
  | nil => exact .nil
  | cons c s ih =>
    unfold jsonEscape
    split_ifs with hquote hnewline
    · refine .escaped ?_ ih
      rcases hquote with rfl | rfl <;> rfl
    · exact .escaped hnewline ih
    · exact .char (fun h => hquote (.inl h)) (fun h => hquote (.inr h)) ih

/-- Text without quotes and backslashes is read as it stands. -/
theorem jsonChars_plain {s : Text} (h : ∀ c ∈ s, c ≠ 34 ∧ c ≠ 92) : JsonChars s s := by
  induction s with
  | nil => exact .nil
  | cons c s ih =>
    have hc := h c List.mem_cons_self
    exact .char hc.1 hc.2 (ih fun d hd => h d (List.mem_cons_of_mem c hd))

theorem jsonStringBody_chars {enc s : Text} (h : JsonChars enc s) (rest : Text) :
    jsonStringBody (enc ++ 34 :: rest) = (s, 34 :: rest) := by
  induction h with
  | nil => cases rest <;> rfl
  | @char c enc s hquote hback _ ih =>
    obtain ⟨d, t, ht⟩ := List.exists_cons_of_ne_nil (l := enc ++ 34 :: rest) (by simp)
    rw [List.cons_append, ht, jsonStringBody, if_neg hquote, if_neg hback, ← ht, ih]
  | @escaped n c enc s hn _ ih =>
    rw [List.cons_append, List.cons_append, jsonStringBody, if_neg (by decide), if_pos rfl, ih, hn]

theorem jsonParseStringRaw_chars {enc s : Text} (h : JsonChars enc s) (rest : Text) :
    jsonParseStringRaw (34 :: (enc ++ 34 :: rest)) = (s, rest) := by
  rw [jsonParseStringRaw, if_pos List.head?_cons, List.tail_cons, jsonStringBody_chars h]
  rfl

/-! ### Numbers -/

theorem natText_length {n : ℕ} (h : n < 10 ^ 62) : (natText n).length ≤ 62 := by
  rw [natText, List.length_map]
  exact (Nat.length_toDigits_le_iff (by decide) (by decide)).mpr h

theorem atol_neg_natText {n : ℕ} (h : n ≤ 2 ^ 63) : atol (45 :: natText n) = -n := by
  have hdigits : (natText n).takeWhile isDigit = natText n :=
    List.takeWhile_eq_self_iff.mpr fun b => isDigit_of_mem_natText
  have hdrop : (45 :: natText n).dropWhile isSpace = 45 :: natText n :=
    List.dropWhile_cons_of_neg (by decide)
  simp only [atol, hdrop, List.head?_cons, true_or, if_true, List.drop_succ_cons, List.drop_zero,
    hdigits, digitsVal_natText]
  omega

theorem EndsValue.head_ne {rest : Text} (h : EndsValue rest) {c : UInt8} (hc : isNumeral c) :
    rest.head? ≠ some c := by
  intro heq
  rw [h c heq] at hc
  cases hc

theorem EndsValue.digits {rest : Text} (h : EndsValue rest) : StopsRun isDigit rest := by
  intro c hc
  rw [Bool.eq_false_iff]
  intro hdigit
  have hnumeral := isNumeral_of_digit hdigit
  rw [h c hc] at hnumeral
  cases hnumeral

theorem jsonNumberEnd_int {n : ℤ} {t rest : Text} (h : JsonInt n t) (hrest : EndsValue rest) :
    jsonNumberEnd (t ++ rest) = (rest, false) := by
  have hdot : rest.head? ≠ some 46 := hrest.head_ne rfl
  have hexp : ¬ (rest.head? = some 101 ∨ rest.head? = some 69) := by
    rintro (he | he)
    · exact hrest.head_ne rfl he
    · exact hrest.head_ne rfl he
  have hdrop : ∀ n, (natText n ++ rest).dropWhile isDigit = rest := fun n =>
    dropWhile_run (fun _ => isDigit_of_mem_natText) hrest.digits
  cases h with
  | nonneg n =>
    obtain ⟨b, bs, hbs⟩ := List.exists_cons_of_ne_nil (natText_ne_nil n)
    have hsign : ¬ (natText n ++ rest).head? = some 45 := by
      rw [hbs]
      intro heq
      have hdigit := isDigit_of_mem_natText (n := n) (hbs ▸ List.mem_cons_self)
      rw [Option.some.inj heq] at hdigit
      cases hdigit
    simp only [jsonNumberEnd, if_neg hsign, hdrop, if_neg hdot, if_neg hexp]
  | minus n =>
    simp only [jsonNumberEnd, List.cons_append, List.head?_cons, if_true, List.tail_cons, hdrop,
      if_neg hdot, if_neg hexp]

/-- An integer of 64 bits fits in the buffer and in the result. -/
theorem jsonParseNumber_int {n : ℤ} {t rest : Text} (h : JsonInt n t) (hlo : -2 ^ 63 ≤ n)
    (hhi : n < 2 ^ 63) (hrest : EndsValue rest) :
    jsonParseNumber (t ++ rest) = (.num n, rest) := by
  have htake : (t ++ rest).take ((t ++ rest).length - rest.length) = t := by
    rw [List.length_append, Nat.add_sub_cancel, List.take_left]
  simp only [jsonParseNumber, jsonNumberEnd_int h hrest, htake, Bool.false_eq_true, if_false]
  refine congrArg (fun m => (JsonVal.num m, rest)) ?_
  cases h with
  | nonneg n =>
    rw [List.take_of_length_le ((natText_length (by omega)).trans (by omega)),
      atol_natText (by omega)]
  | minus n =>
    have hlen : (natText n).length ≤ 62 := natText_length (by omega)
    rw [List.take_of_length_le (by rw [List.length_cons]; omega), atol_neg_natText (by omega)]

/-! ### Where a value starts -/

/-- A byte that starts a value: no space, and nothing that ends a list. -/
def StartsValue (c : UInt8) : Prop :=
  c ≠ 32 ∧ c ≠ 9 ∧ c ≠ 10 ∧ c ≠ 13 ∧ c ≠ 93 ∧ c ≠ 125

theorem jsonSkipWs_cons {c : UInt8} (hc : c ≠ 32 ∧ c ≠ 9 ∧ c ≠ 10 ∧ c ≠ 13) (s : Text) :
    jsonSkipWs (c :: s) = c :: s :=
  List.dropWhile_cons_of_neg (by simpa [and_assoc] using hc)

/-- What starts a number starts nothing else. -/
theorem number_start {c : UInt8} (h : c = 45 ∨ isDigit c = true) :
    StartsValue c ∧ c ≠ 34 ∧ c ≠ 123 ∧ c ≠ 91 ∧ c ≠ 116 ∧ c ≠ 102 ∧ c ≠ 110 := by
  rcases h with rfl | h
  · exact ⟨by unfold StartsValue; decide, by decide⟩
  · obtain ⟨hlo, hhi⟩ := isDigit_iff.mp h
    have hne : ∀ d : UInt8, d.toNat < 48 ∨ 57 < d.toNat → c ≠ d := by
      rintro d hd rfl
      omega
    exact ⟨⟨hne _ (by decide), hne _ (by decide), hne _ (by decide), hne _ (by decide),
      hne _ (by decide), hne _ (by decide)⟩, hne _ (by decide), hne _ (by decide),
      hne _ (by decide), hne _ (by decide), hne _ (by decide), hne _ (by decide)⟩

/-- Where `jsonParseValue` goes by the first byte. -/
theorem jsonParseValue_cons (n : ℕ) {c : UInt8} (hc : StartsValue c) (t : Text) :
    jsonParseValue (n + 1) (c :: t) =
      if c = 34 then some (.string (jsonParseStringRaw (c :: t)).1, (jsonParseStringRaw (c :: t)).2)
      else if c = 123 then
        if (jsonSkipWs t).head? = some 125 then some (.data [], (jsonSkipWs t).tail)
        else jsonParseEntries n [] (jsonSkipWs t)
      else if c = 91 then
        if (jsonSkipWs t).head? = some 93 then some (.list [], (jsonSkipWs t).tail)
        else jsonParseItems n [] (jsonSkipWs t)
      else if txt "true" <+: c :: t then some (.bool true, (c :: t).drop 4)
      else if txt "false" <+: c :: t then some (.bool false, (c :: t).drop 5)
      else if txt "null" <+: c :: t then some (.void, (c :: t).drop 4)
      else some (jsonParseNumber (c :: t)) := by
  rw [jsonParseValue, jsonSkipWs_cons ⟨hc.1, hc.2.1, hc.2.2.1, hc.2.2.2.1⟩]
  simp only [List.head?_cons, Option.some.injEq, List.tail_cons]
  rfl

theorem jsonSkipWs_ws {w : Text} (hw : JsonWs w) (s : Text) :
    jsonSkipWs (w ++ s) = jsonSkipWs s :=
  List.dropWhile_append_of_pos hw

theorem jsonSkipWs_run {w s : Text} (hw : JsonWs w) (hs : StopsRun isJsonWs s) :
    jsonSkipWs (w ++ s) = s :=
  dropWhile_run hw hs

theorem jsonSkipWs_skipWs (s : Text) : jsonSkipWs (jsonSkipWs s) = jsonSkipWs s :=
  List.dropWhile_idempotent _ _

theorem jsonParseValue_congr (n : ℕ) {s s' : Text} (h : jsonSkipWs s = jsonSkipWs s') :
    jsonParseValue (n + 1) s = jsonParseValue (n + 1) s' := by
  rw [jsonParseValue, jsonParseValue, h]

theorem jsonParseItems_congr (n : ℕ) (items : List JsonVal) {s s' : Text}
    (h : jsonSkipWs s = jsonSkipWs s') :
    jsonParseItems (n + 2) items s = jsonParseItems (n + 2) items s' := by
  rw [jsonParseItems, jsonParseItems, jsonParseValue_congr n h]

theorem jsonParseEntries_congr (n : ℕ) (obj : DataList JsonVal) {s s' : Text}
    (h : jsonSkipWs s = jsonSkipWs s') :
    jsonParseEntries (n + 1) obj s = jsonParseEntries (n + 1) obj s' := by
  rw [jsonParseEntries, jsonParseEntries, h]

/-! ### What the decoder takes a text for -/

/-- With enough recursion the decoder takes the text for the value, and stops behind it. -/
structure ReadAs (t : Text) (v : JsonVal) : Prop where
  starts : ∃ c u, t = c :: u ∧ StartsValue c
  reads : ∃ N, ∀ n ≥ N, ∀ rest, EndsValue rest → jsonParseValue n (t ++ rest) = some (v, rest)

theorem readAs_int {n : ℤ} {t : Text} (h : JsonInt n t) (hlo : -2 ^ 63 ≤ n) (hhi : n < 2 ^ 63) :
    ReadAs t (.num n) := by
  obtain ⟨c, u, rfl, hc⟩ := (JsonNumeral.int h).head
  obtain ⟨hstart, h34, h123, h91, h116, h102, h110⟩ := number_start hc.symm
  refine ⟨⟨c, u, rfl, hstart⟩, 1, fun k hk rest hrest => ?_⟩
  obtain ⟨k, rfl⟩ := Nat.exists_eq_succ_of_ne_zero (Nat.ne_of_gt hk)
  have hnumber := jsonParseNumber_int h hlo hhi hrest
  rw [List.cons_append] at hnumber ⊢
  have hpre : ∀ (d : UInt8) (p : Text), c ≠ d → ¬ d :: p <+: c :: (u ++ rest) :=
    fun d p hne h => hne (List.cons_prefix_cons.mp h).1.symm
  have htrue : ¬ txt "true" <+: c :: (u ++ rest) := hpre 116 (txt "rue") h116
  have hfalse : ¬ txt "false" <+: c :: (u ++ rest) := hpre 102 (txt "alse") h102
  have hnull : ¬ txt "null" <+: c :: (u ++ rest) := hpre 110 (txt "ull") h110
  rw [jsonParseValue_cons k hstart, if_neg h34, if_neg h123, if_neg h91, if_neg htrue,
    if_neg hfalse, if_neg hnull, hnumber]

theorem readAs_bool (b : Bool) : ReadAs (if b then txt "true" else txt "false") (.bool b) := by
  cases b with
  | false =>
    refine ⟨⟨102, txt "alse", rfl, by unfold StartsValue; decide⟩, 1, fun k hk rest _ => ?_⟩
    obtain ⟨k, rfl⟩ := Nat.exists_eq_succ_of_ne_zero (Nat.ne_of_gt hk)
    show jsonParseValue (k + 1) (102 :: (txt "alse" ++ rest)) = _
    have hnot : ¬ txt "true" <+: 102 :: (txt "alse" ++ rest) := fun h =>
      absurd (List.cons_prefix_cons.mp h).1 (by decide)
    have hfalse : txt "false" <+: 102 :: (txt "alse" ++ rest) := List.prefix_append _ rest
    rw [jsonParseValue_cons k (by unfold StartsValue; decide), if_neg (by decide),
      if_neg (by decide), if_neg (by decide), if_neg hnot, if_pos hfalse]
    rfl
  | true =>
    refine ⟨⟨116, txt "rue", rfl, by unfold StartsValue; decide⟩, 1, fun k hk rest _ => ?_⟩
    obtain ⟨k, rfl⟩ := Nat.exists_eq_succ_of_ne_zero (Nat.ne_of_gt hk)
    show jsonParseValue (k + 1) (116 :: (txt "rue" ++ rest)) = _
    have htrue : txt "true" <+: 116 :: (txt "rue" ++ rest) := List.prefix_append _ rest
    rw [jsonParseValue_cons k (by unfold StartsValue; decide), if_neg (by decide),
      if_neg (by decide), if_neg (by decide), if_pos htrue]
    rfl

theorem readAs_void : ReadAs (txt "null") .void := by
  refine ⟨⟨110, txt "ull", rfl, by unfold StartsValue; decide⟩, 1, fun k hk rest _ => ?_⟩
  obtain ⟨k, rfl⟩ := Nat.exists_eq_succ_of_ne_zero (Nat.ne_of_gt hk)
  show jsonParseValue (k + 1) (110 :: (txt "ull" ++ rest)) = _
  have htrue : ¬ txt "true" <+: 110 :: (txt "ull" ++ rest) := fun h =>
    absurd (List.cons_prefix_cons.mp h).1 (by decide)
  have hfalse : ¬ txt "false" <+: 110 :: (txt "ull" ++ rest) := fun h =>
    absurd (List.cons_prefix_cons.mp h).1 (by decide)
  have hnull : txt "null" <+: 110 :: (txt "ull" ++ rest) := List.prefix_append _ rest
  rw [jsonParseValue_cons k (by unfold StartsValue; decide), if_neg (by decide),
    if_neg (by decide), if_neg (by decide), if_neg htrue, if_neg hfalse, if_pos hnull]
  rfl

theorem readAs_string {enc s : Text} (h : JsonChars enc s) :
    ReadAs (34 :: (enc ++ [34])) (.string s) := by
  refine ⟨⟨34, _, rfl, by unfold StartsValue; decide⟩, 1, fun k hk rest _ => ?_⟩
  obtain ⟨k, rfl⟩ := Nat.exists_eq_succ_of_ne_zero (Nat.ne_of_gt hk)
  have henc : 34 :: (enc ++ [34]) ++ rest = 34 :: (enc ++ 34 :: rest) := by simp
  rw [henc, jsonParseValue_cons k (by unfold StartsValue; decide), if_pos rfl,
    jsonParseStringRaw_chars h]

/-! ### The loops -/

theorem jsonSkipWs_delimits {w : Text} (hw : JsonWs w) {c : UInt8} (hc : Delimits c) (r : Text) :
    jsonSkipWs (w ++ c :: r) = c :: r :=
  jsonSkipWs_run hw (stopsRun_cons hc.1 r)

/-- The value between its whitespace. -/
theorem ReadAs.padded {t : Text} {v : JsonVal} (h : ReadAs t v) :
    ∃ N, ∀ n ≥ N, ∀ {b a : Text} {c : UInt8} {r : Text}, JsonWs b → JsonWs a → Delimits c →
      jsonParseValue n (b ++ (t ++ a) ++ c :: r) = some (v, a ++ c :: r) := by
  obtain ⟨N, hN⟩ := h.reads
  refine ⟨N + 1, fun n hn b a c r hb ha hc => ?_⟩
  obtain ⟨n, rfl⟩ := Nat.exists_eq_add_of_le' (Nat.one_le_of_lt hn)
  rw [List.append_assoc, List.append_assoc, jsonParseValue_congr n (jsonSkipWs_ws hb _)]
  exact hN (n + 1) (by omega) _ (ends_ws ha hc.2 r)

/-- One turn of the loop over items. -/
theorem ReadAs.item {t : Text} {v : JsonVal} (h : ReadAs t v) :
    ∃ N, ∀ n ≥ N, ∀ {b a : Text} {c : UInt8} {r : Text} (acc : List JsonVal), JsonWs b →
      JsonWs a → Delimits c →
      jsonParseItems (n + 1) acc (b ++ (t ++ a) ++ c :: r) =
        if c = 44 then jsonParseItems n (acc ++ [v]) r
        else some (.list (acc ++ [v]), if c = 93 then r else c :: r) := by
  obtain ⟨N, hN⟩ := h.padded
  refine ⟨N, fun n hn b a c r acc hb ha hc => ?_⟩
  rw [jsonParseItems, hN n hn hb ha hc]
  simp only [jsonSkipWs_delimits ha hc, List.head?_cons, Option.some.injEq, List.tail_cons]

/-- One turn of the loop over entries. -/
theorem ReadAs.entry {t : Text} {v : JsonVal} (h : ReadAs t v) :
    ∃ N, ∀ n ≥ N, ∀ {b enc key w b' a : Text} {c : UInt8} {r : Text} (obj : DataList JsonVal),
      JsonWs b → JsonChars enc key → JsonWs w → JsonWs b' → JsonWs a → Delimits c →
      jsonParseEntries (n + 1) obj
          (b ++ 34 :: (enc ++ 34 :: (w ++ 58 :: (b' ++ (t ++ a)))) ++ c :: r) =
        if c = 44 then jsonParseEntries n (dataSet obj key v) r
        else some (.data (dataSet obj key v), if c = 125 then r else c :: r) := by
  obtain ⟨N, hN⟩ := h.padded
  refine ⟨N, fun n hn b enc key w b' a c r obj hb hkey hw hb' ha hc => ?_⟩
  have htext : b ++ 34 :: (enc ++ 34 :: (w ++ 58 :: (b' ++ (t ++ a)))) ++ c :: r
      = b ++ 34 :: (enc ++ 34 :: (w ++ 58 :: (b' ++ (t ++ a) ++ c :: r))) := by simp
  have hquote : ∀ r, StopsRun isJsonWs (34 :: r) := stopsRun_cons rfl
  have hcolon : ∀ r, StopsRun isJsonWs (58 :: r) := stopsRun_cons rfl
  rw [htext, jsonParseEntries, jsonSkipWs_run hb (hquote _), jsonParseStringRaw_chars hkey]
  simp only [jsonSkipWs_run hw (hcolon _), List.head?_cons, if_true, List.tail_cons]
  rw [hN n hn hb' ha hc]
  simp only [jsonSkipWs_delimits ha hc, List.head?_cons, Option.some.injEq, List.tail_cons]

section Loops

variable {α : Type*} {val : α → JsonVal}

/-- The loop over the items reads each and appends it. -/
theorem jsonParseItems_read {item : α → JsonItem} {xs : List α} (hne : xs ≠ [])
    (hws : ∀ x ∈ xs, JsonWs (item x).before ∧ JsonWs (item x).after)
    (h : ∀ x ∈ xs, ReadAs (item x).text (val x)) :
    ∃ N, ∀ n ≥ N, ∀ acc rest,
      jsonParseItems n acc (commaSep (xs.map fun x => (item x).full) ++ 93 :: rest)
        = some (.list (acc ++ xs.map val), rest) := by
  induction xs with
  | nil => exact absurd rfl hne
  | cons x xs ih =>
    obtain ⟨N, hN⟩ := (h x List.mem_cons_self).item
    obtain ⟨hb, ha⟩ := hws x List.mem_cons_self
    cases xs with
    | nil =>
      refine ⟨N + 1, fun n hn acc rest => ?_⟩
      obtain ⟨n, rfl⟩ := Nat.exists_eq_add_of_le' (Nat.one_le_of_lt hn)
      exact hN n (by omega) acc hb ha ⟨rfl, rfl⟩
    | cons y xs =>
      obtain ⟨M, hM⟩ := ih (List.cons_ne_nil y xs)
        (fun x hx => hws x (List.mem_cons_of_mem _ hx)) fun x hx => h x (List.mem_cons_of_mem _ hx)
      refine ⟨max N M + 1, fun n hn acc rest => ?_⟩
      obtain ⟨n, rfl⟩ := Nat.exists_eq_add_of_le' (Nat.one_le_of_lt hn)
      have hle := Nat.le_of_succ_le_succ hn
      have htexts : commaSep ((x :: y :: xs).map fun x => (item x).full) ++ 93 :: rest
          = (item x).full ++
            44 :: (commaSep ((y :: xs).map fun x => (item x).full) ++ 93 :: rest) := by
        simp [commaSep]
      have hturn := hN n ((le_max_left N M).trans hle) acc hb ha (c := 44)
        (r := commaSep ((y :: xs).map fun x => (item x).full) ++ 93 :: rest) ⟨rfl, rfl⟩
      rw [htexts, JsonItem.full, hturn, if_pos rfl, hM n ((le_max_right N M).trans hle),
        List.append_assoc]
      rfl

/-- The loop over the entries sets one after the other. -/
theorem jsonParseEntries_read {member : α → JsonMember} {name : α → Text} {xs : List α}
    (hne : xs ≠ [])
    (hws : ∀ x ∈ xs, JsonWs (member x).before ∧ JsonWs (member x).colon ∧
      JsonWs (member x).value.before ∧ JsonWs (member x).value.after)
    (hkey : ∀ x ∈ xs, JsonChars (member x).keyText (name x))
    (h : ∀ x ∈ xs, ReadAs (member x).value.text (val x)) :
    ∃ N, ∀ n ≥ N, ∀ obj rest,
      jsonParseEntries n obj (commaSep (xs.map fun x => (member x).full) ++ 125 :: rest)
        = some (.data (dataSetAll obj (xs.map fun x => (name x, val x))), rest) := by
  induction xs with
  | nil => exact absurd rfl hne
  | cons x xs ih =>
    obtain ⟨N, hN⟩ := (h x List.mem_cons_self).entry
    obtain ⟨hb, hw, hb', ha⟩ := hws x List.mem_cons_self
    have hname := hkey x List.mem_cons_self
    cases xs with
    | nil =>
      refine ⟨N + 1, fun n hn obj rest => ?_⟩
      obtain ⟨n, rfl⟩ := Nat.exists_eq_add_of_le' (Nat.one_le_of_lt hn)
      exact hN n (by omega) obj hb hname hw hb' ha ⟨rfl, rfl⟩
    | cons y xs =>
      obtain ⟨M, hM⟩ := ih (List.cons_ne_nil y xs)
        (fun x hx => hws x (List.mem_cons_of_mem _ hx))
        (fun x hx => hkey x (List.mem_cons_of_mem _ hx)) fun x hx => h x (List.mem_cons_of_mem _ hx)
      refine ⟨max N M + 1, fun n hn obj rest => ?_⟩
      obtain ⟨n, rfl⟩ := Nat.exists_eq_add_of_le' (Nat.one_le_of_lt hn)
      have hle := Nat.le_of_succ_le_succ hn
      have htexts : commaSep ((x :: y :: xs).map fun x => (member x).full) ++ 125 :: rest
          = (member x).full ++
            44 :: (commaSep ((y :: xs).map fun x => (member x).full) ++ 125 :: rest) := by
        simp [commaSep]
      have hturn := hN n ((le_max_left N M).trans hle) obj hb hname hw hb' ha (c := 44)
        (r := commaSep ((y :: xs).map fun x => (member x).full) ++ 125 :: rest) ⟨rfl, rfl⟩
      rw [htexts, JsonMember.full, JsonItem.full, hturn, if_pos rfl,
        hM n ((le_max_right N M).trans hle)]
      rfl

theorem readAs_emptyList {w : Text} (hw : JsonWs w) : ReadAs (91 :: (w ++ [93])) (.list []) := by
  have hopen : StartsValue 91 := by unfold StartsValue; decide
  refine ⟨⟨91, _, rfl, hopen⟩, 1, fun n hn rest _ => ?_⟩
  obtain ⟨n, rfl⟩ := Nat.exists_eq_add_of_le' (Nat.one_le_of_lt hn)
  have hskip : jsonSkipWs (w ++ [93] ++ rest) = 93 :: rest := by
    rw [List.append_assoc]
    exact jsonSkipWs_run hw (stopsRun_cons rfl rest)
  rw [List.cons_append, jsonParseValue_cons n hopen, if_neg (by decide), if_neg (by decide),
    if_pos rfl, hskip]
  rfl

theorem readAs_emptyData {w : Text} (hw : JsonWs w) :
    ReadAs (123 :: (w ++ [125])) (.data []) := by
  have hopen : StartsValue 123 := by unfold StartsValue; decide
  refine ⟨⟨123, _, rfl, hopen⟩, 1, fun n hn rest _ => ?_⟩
  obtain ⟨n, rfl⟩ := Nat.exists_eq_add_of_le' (Nat.one_le_of_lt hn)
  have hskip : jsonSkipWs (w ++ [125] ++ rest) = 125 :: rest := by
    rw [List.append_assoc]
    exact jsonSkipWs_run hw (stopsRun_cons rfl rest)
  rw [List.cons_append, jsonParseValue_cons n hopen, if_neg (by decide), if_pos rfl, hskip]
  rfl

theorem readAs_list {item : α → JsonItem} {xs : List α} (hne : xs ≠ [])
    (hws : ∀ x ∈ xs, JsonWs (item x).before ∧ JsonWs (item x).after)
    (h : ∀ x ∈ xs, ReadAs (item x).text (val x)) :
    ReadAs (91 :: (commaSep (xs.map fun x => (item x).full) ++ [93])) (.list (xs.map val)) := by
  have hopen : StartsValue 91 := by unfold StartsValue; decide
  obtain ⟨N, hN⟩ := jsonParseItems_read hne hws h
  refine ⟨⟨91, _, rfl, hopen⟩, N + 3, fun n hn rest _ => ?_⟩
  obtain ⟨n, rfl⟩ := Nat.exists_eq_add_of_le' (show 3 ≤ n by omega)
  have hitems := hN (n + 2) (by omega) [] rest
  rw [List.cons_append, List.append_assoc, jsonParseValue_cons (n + 2) hopen, if_neg (by decide),
    if_neg (by decide), if_pos rfl, if_neg, jsonParseItems_congr n [] (jsonSkipWs_skipWs _)]
  · exact hitems
  · -- the first item starts with no closing bracket
    obtain ⟨x, xs, rfl⟩ := List.exists_cons_of_ne_nil hne
    obtain ⟨c, u, htext, hc⟩ := (h x List.mem_cons_self).starts
    obtain ⟨r, hr⟩ := commaSep_cons (item x).full (xs.map fun x => (item x).full) ([93] ++ rest)
    rw [List.map_cons, hr, JsonItem.full, List.append_assoc,
      jsonSkipWs_ws (hws x List.mem_cons_self).1, htext]
    show (jsonSkipWs (c :: _)).head? ≠ some 93
    rw [jsonSkipWs_cons ⟨hc.1, hc.2.1, hc.2.2.1, hc.2.2.2.1⟩]
    exact fun heq => hc.2.2.2.2.1 (Option.some.inj heq)

theorem readAs_data {member : α → JsonMember} {name : α → Text} {xs : List α} (hne : xs ≠ [])
    (hws : ∀ x ∈ xs, JsonWs (member x).before ∧ JsonWs (member x).colon ∧
      JsonWs (member x).value.before ∧ JsonWs (member x).value.after)
    (hkey : ∀ x ∈ xs, JsonChars (member x).keyText (name x))
    (h : ∀ x ∈ xs, ReadAs (member x).value.text (val x)) :
    ReadAs (123 :: (commaSep (xs.map fun x => (member x).full) ++ [125]))
      (.data (dataSetAll [] (xs.map fun x => (name x, val x)))) := by
  have hopen : StartsValue 123 := by unfold StartsValue; decide
  obtain ⟨N, hN⟩ := jsonParseEntries_read hne hws hkey h
  refine ⟨⟨123, _, rfl, hopen⟩, N + 2, fun n hn rest _ => ?_⟩
  obtain ⟨n, rfl⟩ := Nat.exists_eq_add_of_le' (show 2 ≤ n by omega)
  have hentries := hN (n + 1) (by omega) [] rest
  rw [List.cons_append, List.append_assoc, jsonParseValue_cons (n + 1) hopen, if_neg (by decide),
    if_pos rfl, if_neg, jsonParseEntries_congr n [] (jsonSkipWs_skipWs _)]
  · exact hentries
  · obtain ⟨x, xs, rfl⟩ := List.exists_cons_of_ne_nil hne
    obtain ⟨r, hr⟩ := commaSep_cons (member x).full (xs.map fun x => (member x).full)
      ([125] ++ rest)
    have hquote : ∀ r, StopsRun isJsonWs (34 :: r) := stopsRun_cons rfl
    rw [List.map_cons, hr, JsonMember.full, List.append_assoc, List.cons_append,
      jsonSkipWs_run (hws x List.mem_cons_self).1 (hquote _)]
    exact fun heq => absurd (Option.some.inj heq) (by decide)

end Loops

/-- From the beginning of a text to a whole one. -/
theorem ReadAs.jsonParse {t : Text} {v : JsonVal} (h : ReadAs t v) {b a : Text} (hb : JsonWs b)
    (ha : JsonWs a) (hnul : 0 ∉ b ++ (t ++ a)) : jsonParse (b ++ (t ++ a)) = some v := by
  obtain ⟨N, hN⟩ := h.reads
  set text := b ++ (t ++ a) with htext
  obtain ⟨w, rest, hw, _⟩ := (jsonParse_total (2 * text.length + 1)).1 text (Nat.le_refl _)
  have hbig := hN (max N (2 * text.length) + 1) (by omega) a ha.ends
  rw [← jsonParseValue_congr _ (jsonSkipWs_ws hb (t ++ a)), ← htext,
    jsonParseValue_le (by omega) hw] at hbig
  obtain ⟨rfl, rfl⟩ := Prod.mk.inj (Option.some.inj hbig)
  rw [Jaguar.jsonParse, cStr_eq_self hnul, hw]
  rfl

end Jaguar
