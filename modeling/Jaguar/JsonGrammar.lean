/-
The grammar of JSON texts (RFC 8259), as a relation between a text and the document that
it stands for. Bytes from 0x80 on are characters like any other.

* `JsonString`, `JsonNumeral`, `JsonValue`, `Denotes` — the grammar;
* `JsonString.unique`, `JsonValue.unique` — where a token ends and what it says are
  settled by the text;
* `Denotes.unique` — **a text stands for at most one document**.
-/
import Jaguar.Double
import Mathlib.Data.List.Forall2
import Mathlib.Tactic.SplitIfs

namespace Jaguar

/-! ### Documents -/

/-- A document. A number with a fraction or an exponent is kept as its literal; the members
of an object stand in the order of the text. -/
inductive JsonDoc
  | null
  | bool (b : Bool)
  | int (n : ℤ)
  | decimal (literal : Text)
  | string (s : Text)
  | list (items : List JsonDoc)
  | object (members : List (Text × JsonDoc))

/-- The pieces with commas between them. -/
def commaSep : List Text → Text
  | [] => []
  | [p] => p
  | p :: q :: ps => p ++ 44 :: commaSep (q :: ps)

/-! ### Tokens -/

/-- Insignificant whitespace. -/
def isJsonWs (c : UInt8) : Bool := c = 32 || c = 9 || c = 10 || c = 13

def JsonWs (w : Text) : Prop := ∀ c ∈ w, isJsonWs c

/-- What the letter behind a backslash stands for; `u` is not among these. -/
def simpleEscape (n : UInt8) : Option UInt8 :=
  if n = 34 ∨ n = 92 ∨ n = 47 then some n
  else if n = 98 then some 8
  else if n = 102 then some 12
  else if n = 110 then some 10
  else if n = 114 then some 13
  else if n = 116 then some 9
  else none

/-- A hexadecimal digit's value. -/
def hexDigit (c : UInt8) : Option ℕ :=
  if isDigit c then some (c.toNat - 48)
  else if 97 ≤ c ∧ c ≤ 102 then some (c.toNat - 87)
  else if 65 ≤ c ∧ c ≤ 70 then some (c.toNat - 55)
  else none

/-- `hs` are four hexadecimal digits, together `n`. -/
def Hex4 (hs : Text) (n : ℕ) : Prop :=
  ∃ a b c d w x y z, hs = [a, b, c, d] ∧ hexDigit a = some w ∧ hexDigit b = some x ∧
    hexDigit c = some y ∧ hexDigit d = some z ∧ n = ((w * 16 + x) * 16 + y) * 16 + z

/-- The halves of a UTF-16 surrogate pair. -/
def HighSurrogate (n : ℕ) : Prop := 0xD800 ≤ n ∧ n < 0xDC00

def LowSurrogate (n : ℕ) : Prop := 0xDC00 ≤ n ∧ n < 0xE000

/-- An escape and the bytes it stands for, in UTF-8. Half a pair by itself is no character
and stands for nothing. -/
inductive JsonEscape : Text → Text → Prop
  | simple {n c : UInt8} (h : simpleEscape n = some c) : JsonEscape [92, n] [c]
  | unit {hs : Text} {n : ℕ} (h : Hex4 hs n) (hhigh : ¬ HighSurrogate n)
      (hlow : ¬ LowSurrogate n) :
      JsonEscape (92 :: 117 :: hs) (String.utf8EncodeChar (Char.ofNat n))
  | pair {hs ls : Text} {n m : ℕ} (hh : Hex4 hs n) (hl : Hex4 ls m) (hhigh : HighSurrogate n)
      (hlow : LowSurrogate m) :
      JsonEscape (92 :: 117 :: (hs ++ 92 :: 117 :: ls))
        (String.utf8EncodeChar (Char.ofNat (0x10000 + (n - 0xD800) * 0x400 + (m - 0xDC00))))

/-- What stands between the quotes of a string, and the string. -/
inductive JsonString : Text → Text → Prop
  | nil : JsonString [] []
  | char {c : UInt8} {enc s : Text} (hctrl : 32 ≤ c) (hquote : c ≠ 34) (hback : c ≠ 92)
      (h : JsonString enc s) : JsonString (c :: enc) (c :: s)
  | escape {e out enc s : Text} (he : JsonEscape e out) (h : JsonString enc s) :
      JsonString (e ++ enc) (out ++ s)

/-- An integer: `natText` writes decimal digits without leading zeros. -/
inductive JsonInt : ℤ → Text → Prop
  | nonneg (n : ℕ) : JsonInt n (natText n)
  | minus (n : ℕ) : JsonInt (-n) (45 :: natText n)

def Digits (ds : Text) : Prop := ds ≠ [] ∧ ∀ c ∈ ds, isDigit c

/-- `.` and digits. -/
def JsonFrac (t : Text) : Prop := ∃ ds, Digits ds ∧ t = 46 :: ds

/-- `e` or `E`, perhaps a sign, and digits. -/
def JsonExp (t : Text) : Prop :=
  ∃ e sign ds, (e = 101 ∨ e = 69) ∧ (sign = [] ∨ sign = [43] ∨ sign = [45]) ∧ Digits ds ∧
    t = e :: (sign ++ ds)

/-- A number, without or with a fraction or an exponent. -/
inductive JsonNumeral : JsonDoc → Text → Prop
  | int {n : ℤ} {t : Text} (h : JsonInt n t) : JsonNumeral (.int n) t
  | decimal {n : ℤ} {t frac exp : Text} (h : JsonInt n t) (hfrac : frac = [] ∨ JsonFrac frac)
      (hexp : exp = [] ∨ JsonExp exp) (hne : frac ++ exp ≠ []) :
      JsonNumeral (.decimal (t ++ (frac ++ exp))) (t ++ (frac ++ exp))

/-! ### Values -/

/-- An item of an array: a value with the whitespace around it. -/
structure JsonItem where
  before : Text
  doc : JsonDoc
  text : Text
  after : Text

def JsonItem.full (i : JsonItem) : Text := i.before ++ (i.text ++ i.after)

/-- A member of an object: the key between quotes, the colon, the value, with the whitespace
around each. -/
structure JsonMember where
  before : Text
  key : Text
  keyText : Text
  colon : Text
  value : JsonItem

def JsonMember.full (m : JsonMember) : Text :=
  m.before ++ 34 :: (m.keyText ++ 34 :: (m.colon ++ 58 :: m.value.full))

/-- A value, without whitespace around it. -/
inductive JsonValue : JsonDoc → Text → Prop
  | null : JsonValue .null (txt "null")
  | bool (b : Bool) : JsonValue (.bool b) (if b then txt "true" else txt "false")
  | number {d : JsonDoc} {t : Text} (h : JsonNumeral d t) : JsonValue d t
  | string {t s : Text} (h : JsonString t s) : JsonValue (.string s) (34 :: (t ++ [34]))
  | emptyList {w : Text} (hw : JsonWs w) : JsonValue (.list []) (91 :: (w ++ [93]))
  | list {is : List JsonItem} (hne : is ≠ [])
      (hws : ∀ i ∈ is, JsonWs i.before ∧ JsonWs i.after)
      (h : ∀ i ∈ is, JsonValue i.doc i.text) :
      JsonValue (.list (is.map JsonItem.doc)) (91 :: (commaSep (is.map JsonItem.full) ++ [93]))
  | emptyObject {w : Text} (hw : JsonWs w) : JsonValue (.object []) (123 :: (w ++ [125]))
  | object {ms : List JsonMember} (hne : ms ≠ [])
      (hws : ∀ m ∈ ms, JsonWs m.before ∧ JsonWs m.colon ∧ JsonWs m.value.before ∧
        JsonWs m.value.after)
      (hkey : ∀ m ∈ ms, JsonString m.keyText m.key)
      (h : ∀ m ∈ ms, JsonValue m.value.doc m.value.text) :
      JsonValue (.object (ms.map fun m => (m.key, m.value.doc)))
        (123 :: (commaSep (ms.map JsonMember.full) ++ [125]))

/-- The text is in the grammar and stands for the document. -/
def Denotes (text : Text) (d : JsonDoc) : Prop :=
  ∃ before t after, JsonWs before ∧ JsonWs after ∧ JsonValue d t ∧ text = before ++ (t ++ after)

/-! ### Runs of a kind of byte -/

/-- `r` does not go on with a byte of the kind. -/
def StopsRun (p : UInt8 → Bool) (r : Text) : Prop := ∀ c, r.head? = some c → p c = false

theorem stopsRun_nil (p : UInt8 → Bool) : StopsRun p [] := nofun

theorem stopsRun_cons {p : UInt8 → Bool} {c : UInt8} (h : p c = false) (r : Text) :
    StopsRun p (c :: r) := by
  intro d hd
  obtain rfl := Option.some.inj hd
  exact h

theorem takeWhile_run {p : UInt8 → Bool} {t r : Text} (ht : ∀ c ∈ t, p c) (hr : StopsRun p r) :
    (t ++ r).takeWhile p = t := by
  rw [List.takeWhile_append_of_pos ht]
  cases r with
  | nil => simp
  | cons c r =>
    have hc : p c = false := hr c rfl
    rw [List.takeWhile_cons_of_neg (by simp [hc]), List.append_nil]

theorem dropWhile_run {p : UInt8 → Bool} {t r : Text} (ht : ∀ c ∈ t, p c) (hr : StopsRun p r) :
    (t ++ r).dropWhile p = r := by
  rw [List.dropWhile_append_of_pos ht]
  cases r with
  | nil => rfl
  | cons c r =>
    have hc : p c = false := hr c rfl
    exact List.dropWhile_cons_of_neg (by simp [hc])

/-- A run ends where the bytes of its kind end. -/
theorem run_unique {p : UInt8 → Bool} {t t' r r' : Text} (ht : ∀ c ∈ t, p c)
    (ht' : ∀ c ∈ t', p c) (hr : StopsRun p r) (hr' : StopsRun p r') (heq : t ++ r = t' ++ r') :
    t = t' ∧ r = r' := by
  constructor
  · rw [← takeWhile_run ht hr, heq, takeWhile_run ht' hr']
  · rw [← dropWhile_run ht hr, heq, dropWhile_run ht' hr']

/-! ### Strings -/

theorem simpleEscape_ne {n c : UInt8} (h : simpleEscape n = some c) : n ≠ 117 := by
  rintro rfl
  cases h

theorem Hex4.length {hs : Text} {n : ℕ} (h : Hex4 hs n) : hs.length = 4 := by
  obtain ⟨a, b, c, d, _, _, _, _, rfl, _⟩ := h
  rfl

theorem Hex4.hexDigit {hs : Text} {n : ℕ} (h : Hex4 hs n) :
    ∀ c ∈ hs, ∃ k, hexDigit c = some k := by
  obtain ⟨a, b, c, d, _, _, _, _, rfl, ha, hb, hc, hd, -⟩ := h
  intro e he
  simp only [List.mem_cons, List.not_mem_nil, or_false] at he
  rcases he with rfl | rfl | rfl | rfl
  · exact ⟨_, ha⟩
  · exact ⟨_, hb⟩
  · exact ⟨_, hc⟩
  · exact ⟨_, hd⟩

/-- A byte that is no hexadecimal digit. -/
theorem Hex4.ne {hs : Text} {n : ℕ} (h : Hex4 hs n) {e : UInt8} (he : Jaguar.hexDigit e = none) :
    ∀ c ∈ hs, c ≠ e := by
  rintro c hc rfl
  obtain ⟨k, hk⟩ := h.hexDigit c hc
  rw [he] at hk
  cases hk

theorem Hex4.unique {hs : Text} {n m : ℕ} (h : Hex4 hs n) (h' : Hex4 hs m) : n = m := by
  obtain ⟨a, b, c, d, w, x, y, z, rfl, ha, hb, hc, hd, rfl⟩ := h
  obtain ⟨a', b', c', d', w', x', y', z', heq, ha', hb', hc', hd', rfl⟩ := h'
  simp only [List.cons.injEq, and_true] at heq
  obtain ⟨rfl, rfl, rfl, rfl⟩ := heq
  obtain rfl := Option.some.inj (ha.symm.trans ha')
  obtain rfl := Option.some.inj (hb.symm.trans hb')
  obtain rfl := Option.some.inj (hc.symm.trans hc')
  obtain rfl := Option.some.inj (hd.symm.trans hd')
  rfl

/-- Every escape starts with a backslash, and stands for fewer bytes than it takes. -/
theorem JsonEscape.shape {e out : Text} (h : JsonEscape e out) :
    (∃ n t, e = 92 :: n :: t) ∧ out ≠ [] ∧ out.length < e.length := by
  have hutf8 : ∀ n, (String.utf8EncodeChar (Char.ofNat n)).length ≤ 4 := fun n => by
    rw [String.length_utf8EncodeChar]
    exact Char.utf8Size_le_four _
  cases h with
  | simple h => exact ⟨⟨_, _, rfl⟩, List.cons_ne_nil _ _, by simp⟩
  | @unit hs n h _ _ =>
    refine ⟨⟨_, _, rfl⟩, String.utf8EncodeChar_ne_nil, ?_⟩
    have hlen := hutf8 n
    have := h.length
    simp only [List.length_cons]
    omega
  | @pair hs ls n m hh hl _ _ =>
    refine ⟨⟨_, _, rfl⟩, String.utf8EncodeChar_ne_nil, ?_⟩
    have hlen := hutf8 (0x10000 + (n - 0xD800) * 0x400 + (m - 0xDC00))
    have hh := hh.length
    simp only [List.length_cons, List.length_append]
    omega

theorem JsonEscape.unique {e e' out out' r r' : Text} (h : JsonEscape e out)
    (h' : JsonEscape e' out') (heq : e ++ r = e' ++ r') : e = e' ∧ out = out' ∧ r = r' := by
  cases h with
  | @simple n c h =>
    cases h' with
    | @simple n' c' h' =>
      simp only [List.cons_append, List.nil_append, List.cons.injEq, true_and] at heq
      obtain ⟨rfl, rfl⟩ := heq
      obtain rfl := Option.some.inj (h.symm.trans h')
      exact ⟨rfl, rfl, rfl⟩
    | unit | pair =>
      simp only [List.cons_append, List.nil_append, List.cons.injEq, true_and] at heq
      exact absurd heq.1 (simpleEscape_ne h)
  | @unit hs n h hhigh hlow =>
    cases h' with
    | simple h' =>
      simp only [List.cons_append, List.nil_append, List.cons.injEq, true_and] at heq
      exact absurd heq.1.symm (simpleEscape_ne h')
    | @unit hs' n' h' _ _ =>
      simp only [List.cons_append, List.cons.injEq, true_and] at heq
      obtain ⟨rfl, rfl⟩ := List.append_inj heq (h.length.trans h'.length.symm)
      obtain rfl := h.unique h'
      exact ⟨rfl, rfl, rfl⟩
    | @pair hs' ls n' m hh hl hhigh' _ =>
      simp only [List.cons_append, List.cons.injEq, true_and, List.append_assoc] at heq
      obtain ⟨rfl, -⟩ := List.append_inj heq (h.length.trans hh.length.symm)
      obtain rfl := h.unique hh
      exact absurd hhigh' hhigh
  | @pair hs ls n m hh hl hhigh hlow =>
    cases h' with
    | simple h' =>
      simp only [List.cons_append, List.nil_append, List.cons.injEq, true_and] at heq
      exact absurd heq.1.symm (simpleEscape_ne h')
    | @unit hs' n' h' hhigh' _ =>
      simp only [List.cons_append, List.cons.injEq, true_and, List.append_assoc] at heq
      obtain ⟨rfl, -⟩ := List.append_inj heq (hh.length.trans h'.length.symm)
      obtain rfl := hh.unique h'
      exact absurd hhigh hhigh'
    | @pair hs' ls' n' m' hh' hl' _ _ =>
      simp only [List.cons_append, List.cons.injEq, true_and, List.append_assoc] at heq
      obtain ⟨rfl, hrest⟩ := List.append_inj heq (hh.length.trans hh'.length.symm)
      simp only [List.cons.injEq, true_and] at hrest
      obtain ⟨rfl, rfl⟩ := List.append_inj hrest (hl.length.trans hl'.length.symm)
      obtain rfl := hh.unique hh'
      obtain rfl := hl.unique hl'
      exact ⟨rfl, rfl, rfl⟩

/-- A string ends at its first quote that is not escaped. -/
theorem JsonString.unique {t s : Text} (h : JsonString t s) {t' s' r r' : Text}
    (h' : JsonString t' s') (heq : t ++ 34 :: r = t' ++ 34 :: r') :
    t = t' ∧ s = s' ∧ r = r' := by
  induction h generalizing t' s' with
  | nil =>
    cases h' with
    | nil => exact ⟨rfl, rfl, List.tail_eq_of_cons_eq heq⟩
    | char _ hquote => exact absurd (List.head_eq_of_cons_eq heq).symm hquote
    | escape he =>
      obtain ⟨⟨n, u, rfl⟩, -⟩ := he.shape
      cases List.head_eq_of_cons_eq heq
  | @char c enc s _ hquote hback _ ih =>
    cases h' with
    | nil => exact absurd (List.head_eq_of_cons_eq heq) hquote
    | char _ _ _ h' =>
      obtain rfl := List.head_eq_of_cons_eq heq
      obtain ⟨rfl, rfl, rfl⟩ := ih h' (List.tail_eq_of_cons_eq heq)
      exact ⟨rfl, rfl, rfl⟩
    | escape he =>
      obtain ⟨⟨n, u, rfl⟩, -⟩ := he.shape
      exact absurd (List.head_eq_of_cons_eq heq) hback
  | @escape e out enc s he _ ih =>
    cases h' with
    | nil =>
      obtain ⟨⟨n, u, rfl⟩, -⟩ := he.shape
      cases List.head_eq_of_cons_eq heq
    | char _ _ hback =>
      obtain ⟨⟨n, u, rfl⟩, -⟩ := he.shape
      exact absurd (List.head_eq_of_cons_eq heq).symm hback
    | escape he' h' =>
      rw [List.append_assoc, List.append_assoc] at heq
      obtain ⟨rfl, rfl, heq⟩ := he.unique he' heq
      obtain ⟨rfl, rfl, rfl⟩ := ih h' heq
      exact ⟨rfl, rfl, rfl⟩

/-! ### Numbers -/

/-- A byte that a number may hold. -/
def isNumeral (c : UInt8) : Bool :=
  isDigit c || c = 43 || c = 45 || c = 46 || c = 69 || c = 101

theorem isNumeral_of_digit {c : UInt8} (h : isDigit c) : isNumeral c := by
  simp [isNumeral, h]

theorem JsonInt.digits {n : ℤ} {t : Text} (h : JsonInt n t) :
    ∀ c ∈ t, isDigit c ∨ c = 45 := by
  intro c hc
  cases h with
  | nonneg n => exact .inl (isDigit_of_mem_natText hc)
  | minus n =>
    rcases List.mem_cons.mp hc with rfl | hc
    · exact .inr rfl
    · exact .inl (isDigit_of_mem_natText hc)

theorem natText_inj {n m : ℕ} (h : natText n = natText m) : n = m := by
  rw [← digitsVal_natText n, h, digitsVal_natText]

theorem JsonInt.unique {n m : ℤ} {t : Text} (h : JsonInt n t) (h' : JsonInt m t) : n = m := by
  have hsign : ∀ n m : ℕ, natText n ≠ 45 :: natText m := fun n m heq => by
    have := isDigit_of_mem_natText (n := n) (heq ▸ List.mem_cons_self)
    exact absurd this (by decide)
  cases h with
  | nonneg n =>
    generalize ht : natText n = t at h'
    cases h' with
    | nonneg m => rw [natText_inj ht]
    | minus m => exact absurd ht (hsign n m)
  | minus n =>
    generalize ht : 45 :: natText n = t at h'
    cases h' with
    | nonneg m => exact absurd ht.symm (hsign m n)
    | minus m => rw [natText_inj (List.tail_eq_of_cons_eq ht)]

/-- A fraction or an exponent shows. -/
theorem decimal_mark {frac exp : Text} (hfrac : frac = [] ∨ JsonFrac frac)
    (hexp : exp = [] ∨ JsonExp exp) (hne : frac ++ exp ≠ []) :
    ∃ c ∈ frac ++ exp, isDigit c = false ∧ c ≠ 45 := by
  rcases hfrac with rfl | ⟨ds, -, rfl⟩
  · rcases hexp with rfl | ⟨e, sign, ds, he, -, -, rfl⟩
    · exact absurd rfl hne
    · refine ⟨e, by simp, ?_⟩
      rcases he with rfl | rfl <;> decide
  · exact ⟨46, by simp, by decide⟩

theorem JsonNumeral.numeral {d : JsonDoc} {t : Text} (h : JsonNumeral d t) :
    ∀ c ∈ t, isNumeral c := by
  have hint : ∀ {n : ℤ} {t : Text}, JsonInt n t → ∀ c ∈ t, isNumeral c := by
    intro n t h c hc
    rcases h.digits c hc with hc | rfl
    · exact isNumeral_of_digit hc
    · decide
  cases h with
  | int h => exact hint h
  | @decimal n t frac exp h hfrac hexp _ =>
    intro c hc
    rw [List.mem_append, List.mem_append] at hc
    rcases hc with hc | hc | hc
    · exact hint h c hc
    · rcases hfrac with rfl | ⟨ds, hds, rfl⟩
      · cases hc
      · rcases List.mem_cons.mp hc with rfl | hc
        · decide
        · exact isNumeral_of_digit (hds.2 c hc)
    · rcases hexp with rfl | ⟨e, sign, ds, he, hsign, hds, rfl⟩
      · cases hc
      · rw [List.mem_cons, List.mem_append] at hc
        rcases hc with rfl | hc | hc
        · rcases he with rfl | rfl <;> decide
        · rcases hsign with rfl | rfl | rfl
          · cases hc
          · obtain rfl := List.mem_singleton.mp hc
            decide
          · obtain rfl := List.mem_singleton.mp hc
            decide
        · exact isNumeral_of_digit (hds.2 c hc)

theorem JsonNumeral.doc_unique {d d' : JsonDoc} {t : Text} (h : JsonNumeral d t)
    (h' : JsonNumeral d' t) : d = d' := by
  have hmark : ∀ {n : ℤ} {t i frac exp : Text}, JsonInt n t → (frac = [] ∨ JsonFrac frac) →
      (exp = [] ∨ JsonExp exp) → frac ++ exp ≠ [] → t ≠ i ++ (frac ++ exp) := by
    rintro n t i frac exp h hfrac hexp hne rfl
    obtain ⟨c, hc, hdigit, hminus⟩ := decimal_mark hfrac hexp hne
    rcases h.digits c (List.mem_append_right i hc) with h | h
    · rw [hdigit] at h
      cases h
    · exact hminus h
  cases h with
  | int h =>
    generalize ht : t = u at h'
    cases h' with
    | int h' => rw [h.unique (ht ▸ h')]
    | decimal _ hfrac hexp hne => exact absurd ht (hmark h hfrac hexp hne)
  | @decimal n i frac exp _ hfrac hexp hne =>
    generalize ht : i ++ (frac ++ exp) = u at h'
    cases h' with
    | int h' => exact absurd ht.symm (hmark h' hfrac hexp hne)
    | decimal => rfl

theorem JsonNumeral.head {d : JsonDoc} {t : Text} (h : JsonNumeral d t) :
    ∃ c u, t = c :: u ∧ (isDigit c ∨ c = 45) := by
  have hint : ∀ {n : ℤ} {t : Text}, JsonInt n t → ∃ c u, t = c :: u ∧ (isDigit c ∨ c = 45) := by
    intro n t h
    cases t with
    | nil =>
      generalize ht : ([] : Text) = t at h
      cases h with
      | nonneg n => exact absurd ht.symm (natText_ne_nil n)
      | minus n => cases ht
    | cons c u => exact ⟨c, u, rfl, h.digits c List.mem_cons_self⟩
  cases h with
  | int h => exact hint h
  | decimal h =>
    obtain ⟨c, u, rfl, hc⟩ := hint h
    exact ⟨c, _, rfl, hc⟩

/-! ### Values -/

/-- The kind of a document, which its first byte gives away. -/
def JsonDoc.kind : JsonDoc → ℕ
  | .null => 0
  | .bool _ => 1
  | .int _ => 2
  | .decimal _ => 2
  | .string _ => 3
  | .list _ => 4
  | .object _ => 5

def leadKind (c : UInt8) : Option ℕ :=
  if c = 110 then some 0
  else if c = 116 ∨ c = 102 then some 1
  else if isDigit c ∨ c = 45 then some 2
  else if c = 34 then some 3
  else if c = 91 then some 4
  else if c = 123 then some 5
  else none

theorem JsonValue.head {d : JsonDoc} {t : Text} (h : JsonValue d t) :
    ∃ c u, t = c :: u ∧ leadKind c = some d.kind := by
  cases h with
  | null => exact ⟨110, _, rfl, rfl⟩
  | bool b =>
    cases b with
    | false => exact ⟨102, _, rfl, rfl⟩
    | true => exact ⟨116, _, rfl, rfl⟩
  | number h =>
    have hkind : d.kind = 2 := by cases h <;> rfl
    obtain ⟨c, u, rfl, hc⟩ := h.head
    refine ⟨c, u, rfl, ?_⟩
    have hne : ∀ e : UInt8, isDigit e = false → e ≠ 45 → c ≠ e := by
      rintro e hdigit hminus rfl
      rcases hc with hc | hc
      · rw [hdigit] at hc
        cases hc
      · exact hminus hc
    rw [leadKind, if_neg (hne 110 (by decide) (by decide)), if_neg, if_pos hc, hkind]
    rintro (h | h)
    · exact hne 116 (by decide) (by decide) h
    · exact hne 102 (by decide) (by decide) h
  | string => exact ⟨34, _, rfl, rfl⟩
  | emptyList | list => exact ⟨91, _, rfl, rfl⟩
  | emptyObject | object => exact ⟨123, _, rfl, rfl⟩

/-- A byte with which no value starts. -/
theorem JsonValue.head_ne {d : JsonDoc} {t r : Text} (h : JsonValue d t) {c : UInt8} {s : Text}
    (hc : leadKind c = none) : t ++ r ≠ c :: s := by
  obtain ⟨e, u, rfl, he⟩ := h.head
  intro heq
  rw [← List.head_eq_of_cons_eq heq, he] at hc
  cases hc

theorem leadKind_ws {c : UInt8} (hc : isJsonWs c) : leadKind c = none := by
  simp only [isJsonWs, Bool.or_eq_true, decide_eq_true_eq] at hc
  rcases hc with ((rfl | rfl) | rfl) | rfl <;> rfl

theorem JsonValue.stops {d : JsonDoc} {t : Text} (h : JsonValue d t) (r : Text) :
    StopsRun isJsonWs (t ++ r) := by
  obtain ⟨c, u, rfl, hc⟩ := h.head
  refine stopsRun_cons (Bool.eq_false_iff.mpr fun hws => ?_) _
  rw [leadKind_ws hws] at hc
  cases hc

/-- What may stand behind a value: nothing that a number could go on with. -/
abbrev EndsValue (r : Text) : Prop := StopsRun isNumeral r

theorem isNumeral_ws {c : UInt8} (hc : isJsonWs c) : isNumeral c = false := by
  simp only [isJsonWs, Bool.or_eq_true, decide_eq_true_eq] at hc
  rcases hc with ((rfl | rfl) | rfl) | rfl <;> rfl

theorem JsonWs.ends {w : Text} (hw : JsonWs w) : EndsValue w := by
  cases w with
  | nil => exact stopsRun_nil _
  | cons c w => exact stopsRun_cons (isNumeral_ws (hw c List.mem_cons_self)) w

/-- Whitespace and then a byte that ends a value. -/
theorem ends_ws {w : Text} (hw : JsonWs w) {c : UInt8} (hc : isNumeral c = false) (r : Text) :
    EndsValue (w ++ c :: r) := by
  cases w with
  | nil => exact stopsRun_cons hc r
  | cons d w => exact stopsRun_cons (isNumeral_ws (hw d List.mem_cons_self)) _

/-- The text of a value settles where it ends and what it says. -/
def Settled (d : JsonDoc) (t : Text) : Prop :=
  ∀ {d' : JsonDoc} {t' r r' : Text}, JsonValue d' t' → t ++ r = t' ++ r' → EndsValue r → EndsValue r' →
    d = d' ∧ t = t' ∧ r = r'

/-- A byte that is neither whitespace nor part of a number. -/
def Delimits (c : UInt8) : Prop := isJsonWs c = false ∧ isNumeral c = false

theorem JsonItem.peel {i j : JsonItem} (hsettled : Settled i.doc i.text)
    (hi : JsonValue i.doc i.text) (hj : JsonValue j.doc j.text)
    (hwi : JsonWs i.before ∧ JsonWs i.after) (hwj : JsonWs j.before ∧ JsonWs j.after)
    {c c' : UInt8} {r r' : Text} (hc : Delimits c) (hc' : Delimits c')
    (heq : i.full ++ c :: r = j.full ++ c' :: r') : i = j ∧ c :: r = c' :: r' := by
  obtain ⟨b, d, t, a⟩ := i
  obtain ⟨b', d', t', a'⟩ := j
  simp only [JsonItem.full, List.append_assoc] at heq
  obtain ⟨rfl, hvalue⟩ := run_unique hwi.1 hwj.1 (hi.stops _) (hj.stops _) heq
  obtain ⟨rfl, rfl, hafter⟩ := hsettled hj hvalue (ends_ws hwi.2 hc.2 r) (ends_ws hwj.2 hc'.2 r')
  obtain ⟨rfl, hrest⟩ := run_unique hwi.2 hwj.2 (stopsRun_cons hc.1 r) (stopsRun_cons hc'.1 r') hafter
  exact ⟨rfl, hrest⟩

theorem JsonMember.peel {m k : JsonMember} (hsettled : Settled m.value.doc m.value.text)
    (hm : JsonValue m.value.doc m.value.text) (hk : JsonValue k.value.doc k.value.text)
    (hmkey : JsonString m.keyText m.key) (hkkey : JsonString k.keyText k.key)
    (hwm : JsonWs m.before ∧ JsonWs m.colon ∧ JsonWs m.value.before ∧ JsonWs m.value.after)
    (hwk : JsonWs k.before ∧ JsonWs k.colon ∧ JsonWs k.value.before ∧ JsonWs k.value.after)
    {c c' : UInt8} {r r' : Text} (hc : Delimits c) (hc' : Delimits c')
    (heq : m.full ++ c :: r = k.full ++ c' :: r') : m = k ∧ c :: r = c' :: r' := by
  obtain ⟨b, key, t, w, i⟩ := m
  obtain ⟨b', key', t', w', i'⟩ := k
  have hquote : ∀ r, StopsRun isJsonWs (34 :: r) := stopsRun_cons rfl
  have hcolon : ∀ r, StopsRun isJsonWs (58 :: r) := stopsRun_cons rfl
  simp only [JsonMember.full, List.append_assoc, List.cons_append] at heq
  obtain ⟨rfl, hstring⟩ := run_unique hwm.1 hwk.1 (hquote _) (hquote _) heq
  obtain ⟨rfl, rfl, hrest⟩ := hmkey.unique hkkey (List.tail_eq_of_cons_eq hstring)
  obtain ⟨rfl, hvalue⟩ := run_unique hwm.2.1 hwk.2.1 (hcolon _) (hcolon _) hrest
  obtain ⟨rfl, hend⟩ := JsonItem.peel hsettled hm hk hwm.2.2 hwk.2.2 hc hc'
    (List.tail_eq_of_cons_eq hvalue)
  exact ⟨rfl, hend⟩

theorem commaSep_cons (p : Text) (ps : List Text) (r : Text) :
    ∃ r', commaSep (p :: ps) ++ r = p ++ r' := by
  cases ps with
  | nil => exact ⟨r, rfl⟩
  | cons q ps => exact ⟨44 :: (commaSep (q :: ps) ++ r), by simp [commaSep]⟩

theorem zero_not_mem_commaSep {ps : List Text} (h : ∀ p ∈ ps, 0 ∉ p) : 0 ∉ commaSep ps := by
  induction ps with
  | nil => exact List.not_mem_nil
  | cons p ps ih =>
    have hp := h p List.mem_cons_self
    have hps := ih fun q hq => h q (List.mem_cons_of_mem p hq)
    cases ps with
    | nil => exact hp
    | cons q ps => simp [commaSep, hp, hps]

section Sequences

variable {α β : Type*} {full : α → Text} {full' : β → Text} {close : UInt8}

/-- Two sequences with commas between, each up to its closing bracket: where the pieces of
each position peel off together, the sequences end together. -/
theorem commaSep_peel (hcomma : Delimits 44) (hclose : Delimits close) (hne : close ≠ 44)
    {P : α → β → Prop} {xs : List α} {ys : List β} (hxs : xs ≠ []) (hys : ys ≠ [])
    (hpeel : ∀ (n : ℕ) x y, xs[n]? = some x → ys[n]? = some y → ∀ {c c' r r'}, Delimits c →
      Delimits c' → full x ++ c :: r = full' y ++ c' :: r' → P x y ∧ c :: r = c' :: r')
    {r r' : Text}
    (heq : commaSep (xs.map full) ++ close :: r = commaSep (ys.map full') ++ close :: r') :
    List.Forall₂ P xs ys ∧ r = r' := by
  induction xs generalizing ys with
  | nil => exact absurd rfl hxs
  | cons x xs ih =>
    cases ys with
    | nil => exact absurd rfl hys
    | cons y ys =>
      have hxy := @hpeel 0 x y rfl rfl
      cases xs with
      | nil =>
        cases ys with
        | nil =>
          obtain ⟨hP, hrest⟩ := hxy hclose hclose heq
          exact ⟨.cons hP .nil, List.tail_eq_of_cons_eq hrest⟩
        | cons z ys =>
          simp only [List.map_cons, List.map_nil, commaSep, List.append_assoc,
            List.cons_append] at heq
          exact absurd (List.head_eq_of_cons_eq (hxy hclose hcomma heq).2) hne
      | cons z xs =>
        cases ys with
        | nil =>
          simp only [List.map_cons, List.map_nil, commaSep, List.append_assoc,
            List.cons_append] at heq
          exact absurd (List.head_eq_of_cons_eq (hxy hcomma hclose heq).2).symm hne
        | cons w ys =>
          simp only [List.map_cons, commaSep, List.append_assoc, List.cons_append] at heq
          obtain ⟨hP, hrest⟩ := hxy hcomma hcomma heq
          obtain ⟨htail, rfl⟩ := ih (List.cons_ne_nil z xs) (List.cons_ne_nil w ys)
            (fun n => hpeel (n + 1)) (List.tail_eq_of_cons_eq hrest)
          exact ⟨.cons hP htail, rfl⟩

end Sequences

/-- Brackets with nothing but whitespace between are not those of a sequence. -/
theorem items_ne_empty {w : Text} (hw : JsonWs w) {is : List JsonItem} (hne : is ≠ [])
    (hws : ∀ i ∈ is, JsonWs i.before ∧ JsonWs i.after)
    (h : ∀ i ∈ is, JsonValue i.doc i.text) {c : UInt8} (hc : isJsonWs c = false)
    (hlead : leadKind c = none) {r r' : Text} :
    w ++ c :: r ≠ commaSep (is.map JsonItem.full) ++ r' := by
  intro heq
  cases is with
  | nil => exact hne rfl
  | cons i is =>
    have hi := h i List.mem_cons_self
    obtain ⟨r₁, hr₁⟩ := commaSep_cons i.full (is.map JsonItem.full) r'
    rw [List.map_cons, hr₁, JsonItem.full, List.append_assoc, List.append_assoc] at heq
    obtain ⟨-, hrest⟩ := run_unique hw (hws i List.mem_cons_self).1 (stopsRun_cons hc r)
      (hi.stops _) heq
    exact hi.head_ne hlead hrest.symm

theorem members_ne_empty {w : Text} (hw : JsonWs w) {ms : List JsonMember} (hne : ms ≠ [])
    (hws : ∀ m ∈ ms, JsonWs m.before) {c : UInt8} (hc : isJsonWs c = false) (hquote : c ≠ 34)
    {r r' : Text} : w ++ c :: r ≠ commaSep (ms.map JsonMember.full) ++ r' := by
  intro heq
  cases ms with
  | nil => exact hne rfl
  | cons m ms =>
    obtain ⟨r₁, hr₁⟩ := commaSep_cons m.full (ms.map JsonMember.full) r'
    rw [List.map_cons, hr₁, JsonMember.full, List.append_assoc, List.cons_append] at heq
    obtain ⟨-, hrest⟩ := run_unique hw (hws m List.mem_cons_self) (stopsRun_cons hc r)
      (stopsRun_cons rfl _) heq
    exact hquote (List.head_eq_of_cons_eq hrest)

theorem JsonValue.kind_eq {d d' : JsonDoc} {t t' r r' : Text} (h : JsonValue d t)
    (h' : JsonValue d' t') (heq : t ++ r = t' ++ r') : d.kind = d'.kind := by
  obtain ⟨c, u, rfl, hc⟩ := h.head
  obtain ⟨c', u', rfl, hc'⟩ := h'.head
  rw [List.head_eq_of_cons_eq heq, hc'] at hc
  exact (Option.some.inj hc).symm

theorem JsonNumeral.kind {d : JsonDoc} {t : Text} (h : JsonNumeral d t) : d.kind = 2 := by
  cases h <;> rfl

/-- By the first byte both readings are of one kind, and each kind shows its end. -/
theorem JsonValue.settled {d : JsonDoc} {t : Text} (h : JsonValue d t) : Settled d t := by
  induction h with
  | null =>
    intro d' t' r r' h' heq _ _
    have hkind := JsonValue.null.kind_eq h' heq
    cases h' with
    | null => exact ⟨rfl, rfl, List.append_cancel_left heq⟩
    | number h' => rw [h'.kind] at hkind; cases hkind
    | bool | string | emptyList | list | emptyObject | object => cases hkind
  | bool b =>
    intro d' t' r r' h' heq _ _
    have hkind := (JsonValue.bool b).kind_eq h' heq
    cases h' with
    | bool b' =>
      cases b <;> cases b'
      · exact ⟨rfl, rfl, List.append_cancel_left heq⟩
      · cases List.head_eq_of_cons_eq heq
      · cases List.head_eq_of_cons_eq heq
      · exact ⟨rfl, rfl, List.append_cancel_left heq⟩
    | number h' => rw [h'.kind] at hkind; cases hkind
    | null | string | emptyList | list | emptyObject | object => cases hkind
  | number h =>
    intro d' t' r r' h' heq hr hr'
    have hkind := (JsonValue.number h).kind_eq h' heq
    rw [h.kind] at hkind
    cases h' with
    | number h' =>
      obtain ⟨rfl, rfl⟩ := run_unique h.numeral h'.numeral hr hr' heq
      exact ⟨h.doc_unique h', rfl, rfl⟩
    | null | bool | string | emptyList | list | emptyObject | object => cases hkind
  | string h =>
    intro d' t' r r' h' heq _ _
    have hkind := (JsonValue.string h).kind_eq h' heq
    cases h' with
    | string h' =>
      simp only [List.cons_append, List.append_assoc, List.nil_append] at heq
      obtain ⟨rfl, rfl, rfl⟩ := h.unique h' (List.tail_eq_of_cons_eq heq)
      exact ⟨rfl, rfl, rfl⟩
    | number h' => rw [h'.kind] at hkind; cases hkind
    | null | bool | emptyList | list | emptyObject | object => cases hkind
  | emptyList hw =>
    intro d' t' r r' h' heq _ _
    have hkind := (JsonValue.emptyList hw).kind_eq h' heq
    cases h' with
    | emptyList hw' =>
      simp only [List.cons_append, List.append_assoc, List.nil_append] at heq
      obtain ⟨rfl, hrest⟩ := run_unique hw hw' (stopsRun_cons rfl _) (stopsRun_cons rfl _)
        (List.tail_eq_of_cons_eq heq)
      exact ⟨rfl, rfl, List.tail_eq_of_cons_eq hrest⟩
    | list hne hws h =>
      simp only [List.cons_append, List.append_assoc, List.nil_append] at heq
      exact absurd (List.tail_eq_of_cons_eq heq) (items_ne_empty hw hne hws h rfl rfl)
    | number h' => rw [h'.kind] at hkind; cases hkind
    | null | bool | string | emptyObject | object => cases hkind
  | @list is hne hws h ih =>
    intro d' t' r r' h' heq _ _
    have hkind := (JsonValue.list hne hws h).kind_eq h' heq
    cases h' with
    | emptyList hw =>
      simp only [List.cons_append, List.append_assoc, List.nil_append] at heq
      exact absurd (List.tail_eq_of_cons_eq heq).symm (items_ne_empty hw hne hws h rfl rfl)
    | @list js hne' hws' h' =>
      simp only [List.cons_append, List.append_assoc, List.nil_append] at heq
      have hpeel : ∀ (n : ℕ) i j, is[n]? = some i → js[n]? = some j → ∀ {c c' r r'},
          Delimits c → Delimits c' → i.full ++ c :: r = j.full ++ c' :: r' →
          i = j ∧ c :: r = c' :: r' := by
        intro n i j hin hjn c c' r r'
        have hi := List.mem_of_getElem? hin
        have hj := List.mem_of_getElem? hjn
        exact JsonItem.peel (ih i hi) (h i hi) (h' j hj) (hws i hi) (hws' j hj)
      obtain ⟨hall, rfl⟩ := commaSep_peel ⟨rfl, rfl⟩ ⟨rfl, rfl⟩ (by decide) hne hne' hpeel
        (List.tail_eq_of_cons_eq heq)
      obtain rfl : is = js := List.forall₂_eq_eq_eq ▸ hall
      exact ⟨rfl, rfl, rfl⟩
    | number h' => rw [h'.kind] at hkind; cases hkind
    | null | bool | string | emptyObject | object => cases hkind
  | emptyObject hw =>
    intro d' t' r r' h' heq _ _
    have hkind := (JsonValue.emptyObject hw).kind_eq h' heq
    cases h' with
    | emptyObject hw' =>
      simp only [List.cons_append, List.append_assoc, List.nil_append] at heq
      obtain ⟨rfl, hrest⟩ := run_unique hw hw' (stopsRun_cons rfl _) (stopsRun_cons rfl _)
        (List.tail_eq_of_cons_eq heq)
      exact ⟨rfl, rfl, List.tail_eq_of_cons_eq hrest⟩
    | object hne hws =>
      simp only [List.cons_append, List.append_assoc, List.nil_append] at heq
      exact absurd (List.tail_eq_of_cons_eq heq)
        (members_ne_empty hw hne (fun m hm => (hws m hm).1) rfl (by decide))
    | number h' => rw [h'.kind] at hkind; cases hkind
    | null | bool | string | emptyList | list => cases hkind
  | @object ms hne hws hkey h ih =>
    intro d' t' r r' h' heq _ _
    have hkind := (JsonValue.object hne hws hkey h).kind_eq h' heq
    cases h' with
    | emptyObject hw =>
      simp only [List.cons_append, List.append_assoc, List.nil_append] at heq
      exact absurd (List.tail_eq_of_cons_eq heq).symm
        (members_ne_empty hw hne (fun m hm => (hws m hm).1) rfl (by decide))
    | @object ks hne' hws' hkey' h' =>
      simp only [List.cons_append, List.append_assoc, List.nil_append] at heq
      have hpeel : ∀ (n : ℕ) m k, ms[n]? = some m → ks[n]? = some k → ∀ {c c' r r'},
          Delimits c → Delimits c' → m.full ++ c :: r = k.full ++ c' :: r' →
          m = k ∧ c :: r = c' :: r' := by
        intro n m k hmn hkn c c' r r'
        have hm := List.mem_of_getElem? hmn
        have hk := List.mem_of_getElem? hkn
        exact JsonMember.peel (ih m hm) (h m hm) (h' k hk) (hkey m hm) (hkey' k hk) (hws m hm)
          (hws' k hk)
      obtain ⟨hall, rfl⟩ := commaSep_peel ⟨rfl, rfl⟩ ⟨rfl, rfl⟩ (by decide) hne hne' hpeel
        (List.tail_eq_of_cons_eq heq)
      obtain rfl : ms = ks := List.forall₂_eq_eq_eq ▸ hall
      exact ⟨rfl, rfl, rfl⟩
    | number h' => rw [h'.kind] at hkind; cases hkind
    | null | bool | string | emptyList | list => cases hkind

/-- **A text stands for at most one document.** -/
theorem Denotes.unique {text : Text} {d d' : JsonDoc} (h : Denotes text d)
    (h' : Denotes text d') : d = d' := by
  obtain ⟨b, t, a, hb, ha, ht, rfl⟩ := h
  obtain ⟨b', t', a', hb', ha', ht', heq⟩ := h'
  obtain ⟨rfl, hvalue⟩ := run_unique hb hb' (ht.stops a) (ht'.stops a') heq
  exact (ht.settled ht' hvalue ha.ends ha'.ends).1

end Jaguar
