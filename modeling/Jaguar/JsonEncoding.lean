/-
What `json_stringify` puts on the wire, read by the grammar.

The encoder escapes quotes, backslashes and newlines in string values and nothing else, and
it writes keys as they stand. A control byte in a string, or a quote, a backslash or a control
byte in a key, is therefore misread or leaves the grammar.

* `jsonDoc` — the document a value is meant as;
* `Writable.jsonValue` — the text of a value free of such bytes;
* `keyText_plain` — a key is read back only if there is nothing in it to escape;
* `denotes_jsonStringify_iff` — **the encoder is right exactly on writable values**.
-/
import Jaguar.Json

namespace Jaguar

mutual

/-- The document that a value stands for, the entries of `data` values from the oldest. -/
def jsonDoc : JsonVal → JsonDoc
  | .string s => .string s
  | .num n => .int n
  | .decimal d => .decimal (formatG d)
  | .scifi d => .decimal (formatG d)
  | .bool b => .bool b
  | .void => .null
  | .list items => .list (itemDocs items)
  | .data entries => .object (entryDocs entries).reverse
  | .other => .null

def itemDocs : List JsonVal → List JsonDoc
  | [] => []
  | v :: vs => jsonDoc v :: itemDocs vs

def entryDocs : List (Text × JsonVal) → List (Text × JsonDoc)
  | [] => []
  | (key, v) :: es => (key, jsonDoc v) :: entryDocs es

end

theorem itemDocs_eq (vs : List JsonVal) : itemDocs vs = vs.map jsonDoc := by
  induction vs with
  | nil => rfl
  | cons v vs ih => rw [itemDocs, ih, List.map_cons]

theorem entryDocs_eq (es : List (Text × JsonVal)) :
    entryDocs es = es.map fun e => (e.1, jsonDoc e.2) := by
  induction es with
  | nil => rfl
  | cons e es ih =>
    obtain ⟨key, v⟩ := e
    rw [entryDocs, ih, List.map_cons]

/-- Values built from integers, booleans, void and C strings, with C strings as keys. -/
inductive JsonEncodable : JsonVal → Prop
  | num (n : ℤ) : JsonEncodable (.num n)
  | bool (b : Bool) : JsonEncodable (.bool b)
  | void : JsonEncodable .void
  | string {s : Text} (hnul : 0 ∉ s) : JsonEncodable (.string s)
  | list {items : List JsonVal} (h : ∀ v ∈ items, JsonEncodable v) : JsonEncodable (.list items)
  | data {entries : List (Text × JsonVal)} (hkey : ∀ e ∈ entries, 0 ∉ e.1)
      (h : ∀ e ∈ entries, JsonEncodable e.2) : JsonEncodable (.data entries)

/-- No control byte in a string but the newline. -/
def WritableString (s : Text) : Prop := ∀ c ∈ s, 32 ≤ c ∨ c = 10

/-- Nothing in the key that has to be escaped. -/
def WritableKey (key : Text) : Prop := ∀ c ∈ key, 32 ≤ c ∧ c ≠ 34 ∧ c ≠ 92

/-- All strings and keys of the value are writable. -/
inductive Writable : JsonVal → Prop
  | num (n : ℤ) : Writable (.num n)
  | bool (b : Bool) : Writable (.bool b)
  | void : Writable .void
  | string {s : Text} (h : WritableString s) : Writable (.string s)
  | list {items : List JsonVal} (h : ∀ v ∈ items, Writable v) : Writable (.list items)
  | data {entries : List (Text × JsonVal)} (hkey : ∀ e ∈ entries, WritableKey e.1)
      (h : ∀ e ∈ entries, Writable e.2) : Writable (.data entries)

/-! ### Writable values -/

theorem simpleEscape_special {c : UInt8} (h : c = 34 ∨ c = 92) : simpleEscape c = some c := by
  rcases h with rfl | rfl <;> rfl

theorem jsonString_escape {s : Text} (h : WritableString s) : JsonString (jsonEscape s) s := by
  induction s with
  | nil => exact .nil
  | cons c s ih =>
    have hs := ih fun d hd => h d (List.mem_cons_of_mem c hd)
    unfold jsonEscape
    split_ifs with hspecial hnewline
    · exact .escape (.simple (simpleEscape_special hspecial)) hs
    · subst hnewline
      exact .escape (.simple rfl) hs
    · have hctrl : 32 ≤ c := (h c List.mem_cons_self).resolve_right hnewline
      exact .char hctrl (fun h => hspecial (.inl h)) (fun h => hspecial (.inr h)) hs

theorem jsonString_key {key : Text} (h : WritableKey key) : JsonString key key := by
  induction key with
  | nil => exact .nil
  | cons c key ih =>
    obtain ⟨hctrl, hquote, hback⟩ := h c List.mem_cons_self
    exact .char hctrl hquote hback (ih fun d hd => h d (List.mem_cons_of_mem c hd))

theorem jsonInt_intText (n : ℤ) : JsonInt n (intText n) := by
  unfold intText
  split_ifs with hneg
  · have hn : n = -(n.natAbs : ℤ) := by omega
    nth_rewrite 1 [hn]
    exact .minus n.natAbs
  · have hn : n = (n.natAbs : ℤ) := by omega
    nth_rewrite 1 [hn]
    exact .nonneg n.natAbs

/-- The item that the encoder writes for a value. -/
def plainItem (v : JsonVal) : JsonItem := ⟨[], jsonDoc v, jsonStringify v, []⟩

/-- The member that the encoder writes for an entry. -/
def plainMember (e : Text × JsonVal) : JsonMember := ⟨[], e.1, e.1, [], plainItem e.2⟩

theorem plainItem_full (v : JsonVal) : (plainItem v).full = jsonStringify v :=
  List.append_nil _

theorem plainMember_full (e : Text × JsonVal) : (plainMember e).full = jsonEntryText e := by
  show 34 :: (e.1 ++ 34 :: 58 :: (plainItem e.2).full) = jsonEntryText e
  rw [plainItem_full, jsonEntryText]

theorem Writable.jsonValue {v : JsonVal} (h : Writable v) :
    JsonValue (jsonDoc v) (jsonStringify v) := by
  have hnone : JsonWs [] := nofun
  induction h with
  | num n => exact .number (.int (jsonInt_intText n))
  | bool b => exact .bool b
  | void => exact .null
  | string h => exact .string (jsonString_escape h)
  | @list items _ ih =>
    rw [jsonDoc, itemDocs_eq, jsonStringify, jsonItemTexts_eq]
    rcases eq_or_ne items [] with rfl | hne
    · exact .emptyList hnone
    · have htexts : items.map jsonStringify = (items.map plainItem).map JsonItem.full := by
        rw [List.map_map]
        exact List.map_congr_left fun v _ => (plainItem_full v).symm
      have hdocs : items.map jsonDoc = (items.map plainItem).map JsonItem.doc := by
        rw [List.map_map]
        rfl
      rw [htexts, hdocs]
      refine .list (by simpa using hne) ?_ ?_
      · intro i hi
        obtain ⟨v, -, rfl⟩ := List.mem_map.mp hi
        exact ⟨hnone, hnone⟩
      · intro i hi
        obtain ⟨v, hv, rfl⟩ := List.mem_map.mp hi
        exact ih v hv
  | @data entries hkey _ ih =>
    rw [jsonDoc, entryDocs_eq, jsonStringify, jsonEntryTexts_eq, ← List.map_reverse,
      ← List.map_reverse]
    rcases eq_or_ne entries [] with rfl | hne
    · exact .emptyObject hnone
    · have htexts : entries.reverse.map jsonEntryText
          = (entries.reverse.map plainMember).map JsonMember.full := by
        rw [List.map_map]
        exact List.map_congr_left fun e _ => (plainMember_full e).symm
      have hdocs : entries.reverse.map (fun e => (e.1, jsonDoc e.2))
          = (entries.reverse.map plainMember).map fun m => (m.key, m.value.doc) := by
        rw [List.map_map]
        rfl
      rw [htexts, hdocs]
      have hmem : ∀ m ∈ entries.reverse.map plainMember, ∃ e ∈ entries, plainMember e = m := by
        intro m hm
        obtain ⟨e, he, rfl⟩ := List.mem_map.mp hm
        exact ⟨e, List.mem_reverse.mp he, rfl⟩
      refine .object (by simpa using hne) ?_ ?_ ?_
      · intro m hm
        obtain ⟨e, -, rfl⟩ := hmem m hm
        exact ⟨hnone, hnone, hnone, hnone⟩
      · intro m hm
        obtain ⟨e, he, rfl⟩ := hmem m hm
        exact jsonString_key (hkey e he)
      · intro m hm
        obtain ⟨e, he, rfl⟩ := hmem m hm
        exact ih e he

/-! ### What is read back was writable -/

/-- Behind a backslash that the encoder wrote stands the byte it escaped. -/
theorem jsonEscape_backslash {x n : UInt8} {s r u : Text}
    (h : 92 :: n :: u = jsonEscape (x :: s) ++ r) :
    (n = x ∧ (x = 34 ∨ x = 92) ∨ n = 110 ∧ x = 10) ∧ u = jsonEscape s ++ r := by
  rw [jsonEscape] at h
  split_ifs at h with hspecial hnewline
  · simp only [List.cons_append, List.cons.injEq, true_and] at h
    exact ⟨.inl ⟨h.1, hspecial⟩, h.2⟩
  · simp only [List.cons_append, List.cons.injEq, true_and] at h
    exact ⟨.inr ⟨h.1, hnewline⟩, h.2⟩
  · exact absurd (List.head_eq_of_cons_eq h).symm fun hback => hspecial (.inr hback)

/-- A string is read back only if the encoder escaped every byte that has to be. -/
theorem JsonString.writable_escape {t s : Text} (h : JsonString t s) {r r' : Text}
    (heq : t ++ 34 :: r = jsonEscape s ++ 34 :: r') :
    WritableString s ∧ t = jsonEscape s ∧ r = r' := by
  induction h with
  | nil => exact ⟨nofun, rfl, List.tail_eq_of_cons_eq heq⟩
  | @char c t s hctrl hquote hback _ ih =>
    have hnewline : c ≠ 10 := by
      rintro rfl
      exact absurd hctrl (by decide)
    have hesc : jsonEscape (c :: s) = c :: jsonEscape s := by
      rw [jsonEscape, if_neg (by rintro (h | h) <;> contradiction), if_neg hnewline]
    rw [hesc] at heq ⊢
    obtain ⟨hs, rfl, rfl⟩ := ih (List.tail_eq_of_cons_eq heq)
    refine ⟨fun d hd => ?_, rfl, rfl⟩
    rcases List.mem_cons.mp hd with rfl | hd
    · exact .inl hctrl
    · exact hs d hd
  | @escape e out t s he _ ih =>
    have hunicode : ∀ {u out s' : Text}, out ≠ [] →
        92 :: 117 :: u ≠ jsonEscape (out ++ s') ++ 34 :: r' := by
      intro u out s' hne heq
      obtain ⟨x, out, rfl⟩ := List.exists_cons_of_ne_nil hne
      rcases (jsonEscape_backslash heq).1 with ⟨rfl, h | h⟩ | ⟨h, -⟩ <;> cases h
    cases he with
    | @simple n c hn =>
      obtain ⟨hcode, hrest⟩ := jsonEscape_backslash heq
      obtain ⟨hs, rfl, rfl⟩ := ih hrest
      have hesc : jsonEscape (c :: s) = 92 :: n :: jsonEscape s := by
        rcases hcode with ⟨rfl, hspecial⟩ | ⟨rfl, rfl⟩
        · rw [jsonEscape, if_pos hspecial]
        · rfl
      refine ⟨fun d hd => ?_, hesc.symm, rfl⟩
      rcases List.mem_cons.mp hd with rfl | hd
      · rcases hcode with ⟨-, rfl | rfl⟩ | ⟨-, rfl⟩
        · exact .inl (by decide)
        · exact .inl (by decide)
        · exact .inr rfl
      · exact hs d hd
    | unit | pair => exact absurd heq (hunicode String.utf8EncodeChar_ne_nil)

theorem Hex4.no_quote {hs : Text} {n : ℕ} (h : Hex4 hs n) : 34 ∉ hs :=
  fun hc => h.ne rfl 34 hc rfl

/-- Only a quote is written with a quote. -/
theorem JsonEscape.no_quote {e out : Text} (h : JsonEscape e out) (hout : out.head? ≠ some 34) :
    34 ∉ e := by
  cases h with
  | @simple n c hn =>
    have hquote : 34 ≠ n := by
      rintro rfl
      exact hout (congrArg some (Option.some.inj hn).symm)
    simp [hquote]
  | unit h => simp [h.no_quote]
  | pair hh hl => simp [hh.no_quote, hl.no_quote]

/-- What holds no quote is over before the first one. -/
theorem prefix_of_no_quote {e key x r : Text} (he : 34 ∉ e) (heq : e ++ x = key ++ 34 :: r) :
    ∃ k, key = e ++ k ∧ x = k ++ 34 :: r := by
  rcases List.append_eq_append_iff.mp heq with ⟨k, hkey, hx⟩ | ⟨k, hkey, hx⟩
  · exact ⟨k, hkey, hx⟩
  · cases k with
    | nil => exact ⟨[], by rw [hkey, List.append_nil, List.append_nil], hx.symm⟩
    | cons c k =>
      obtain rfl := List.head_eq_of_cons_eq hx
      exact absurd (hkey ▸ List.mem_append_right key List.mem_cons_self) he

/-- A key is read back only if there is nothing in it to escape.

Suppose that an escape was read. It stands for fewer bytes than it takes, so from there on
the reading is behind the key by some bytes `w`, which hold no quote, and it stays behind:
a quote would have to come from `w`, and the end of the key cannot be passed. -/
theorem JsonString.writable_key {t s : Text} (h : JsonString t s) {w key r r' : Text}
    (hs : s = w ++ key) (hw : 34 ∉ w) (heq : t ++ 34 :: r = key ++ 34 :: r') :
    w = [] ∧ WritableKey key ∧ t = key ∧ r = r' := by
  induction h generalizing w key with
  | nil =>
    obtain ⟨rfl, rfl⟩ := List.append_eq_nil_iff.mp hs.symm
    exact ⟨rfl, nofun, rfl, List.tail_eq_of_cons_eq heq⟩
  | @char c t s hctrl hquote hback _ ih =>
    cases key with
    | nil => exact absurd (List.head_eq_of_cons_eq heq) hquote
    | cons d key =>
      obtain rfl := List.head_eq_of_cons_eq heq
      have hrest := List.tail_eq_of_cons_eq heq
      cases w with
      | nil =>
        obtain ⟨-, hkey, rfl, rfl⟩ := ih (List.tail_eq_of_cons_eq hs) List.not_mem_nil hrest
        refine ⟨rfl, fun d hd => ?_, rfl, rfl⟩
        rcases List.mem_cons.mp hd with rfl | hd
        · exact ⟨hctrl, hquote, hback⟩
        · exact hkey d hd
      | cons x w =>
        have hbehind : s = (w ++ [c]) ++ key := by
          rw [List.append_assoc]
          exact List.tail_eq_of_cons_eq hs
        have hw' : 34 ∉ w ++ [c] := by
          simp only [List.mem_cons, not_or] at hw
          simp [hw.2, hquote.symm]
        exact absurd (ih hbehind hw' hrest).1 (by simp)
  | @escape e out t s he _ ih =>
    exfalso
    obtain ⟨⟨n, u, hcons⟩, hne, hlen⟩ := he.shape
    obtain ⟨x, out', hout⟩ := List.exists_cons_of_ne_nil hne
    have hback : key.head? = some 92 := by
      rw [hcons] at heq
      cases key with
      | nil => cases List.head_eq_of_cons_eq heq
      | cons c key => exact congrArg some (List.head_eq_of_cons_eq heq).symm
    have hquote : out.head? ≠ some 34 := by
      rw [hout] at hs ⊢
      cases w with
      | nil =>
        have hx : key.head? = some x := by rw [← List.nil_append key, ← hs]; rfl
        rw [List.head?_cons, ← hx, hback]
        decide
      | cons y w =>
        rw [List.head?_cons, List.head_eq_of_cons_eq hs]
        exact fun h => hw (Option.some.inj h ▸ List.mem_cons_self)
    rw [List.append_assoc] at heq
    obtain ⟨k, rfl, hrest⟩ := prefix_of_no_quote (he.no_quote hquote) heq
    rw [← List.append_assoc] at hs
    rcases List.append_eq_append_iff.mp hs with ⟨a, ha, hk⟩ | ⟨a, ha, -⟩
    · have hmem : 34 ∉ a := fun h => by
        have := ha ▸ List.mem_append_right out h
        rcases List.mem_append.mp this with h | h
        · exact hw h
        · exact he.no_quote hquote h
      obtain rfl := (ih hk hmem hrest).1
      have := congrArg List.length ha
      simp only [List.length_append, List.length_nil] at this
      omega
    · have := congrArg List.length ha
      simp only [List.length_append] at this
      omega

/-- Where the text of the value is read as that value, it is writable. -/
def ReadsBack (v : JsonVal) : Prop :=
  ∀ {t r r' : Text}, JsonValue (jsonDoc v) t → t ++ r = jsonStringify v ++ r' → EndsValue r →
    EndsValue r' → Writable v ∧ r = r'

theorem JsonEncodable.stops {v : JsonVal} (h : JsonEncodable v) (r : Text) :
    StopsRun isJsonWs (jsonStringify v ++ r) := by
  cases h with
  | num n => exact (JsonValue.number (.int (jsonInt_intText n))).stops r
  | bool b => cases b <;> exact stopsRun_cons rfl _
  | void => exact stopsRun_cons rfl _
  | string => rw [jsonStringify]; exact stopsRun_cons rfl _
  | list => rw [jsonStringify]; exact stopsRun_cons rfl _
  | data => rw [jsonStringify]; exact stopsRun_cons rfl _

theorem ReadsBack.item {v : JsonVal} (h : ReadsBack v) (hv : JsonEncodable v) {i : JsonItem}
    (hdoc : i.doc = jsonDoc v) (hi : JsonValue i.doc i.text)
    (hws : JsonWs i.before ∧ JsonWs i.after) {c c' : UInt8} {r r' : Text} (hc : Delimits c)
    (hc' : Delimits c') (heq : i.full ++ c :: r = jsonStringify v ++ c' :: r') :
    Writable v ∧ c :: r = c' :: r' := by
  have hnone : JsonWs [] := nofun
  rw [JsonItem.full, List.append_assoc, List.append_assoc] at heq
  obtain ⟨-, hvalue⟩ := run_unique hws.1 hnone (hi.stops _) (hv.stops _) heq
  obtain ⟨hwrite, hafter⟩ := h (hdoc ▸ hi) hvalue (ends_ws hws.2 hc.2 r) (stopsRun_cons hc'.2 r')
  obtain ⟨-, hrest⟩ := run_unique hws.2 hnone (stopsRun_cons hc.1 r) (stopsRun_cons hc'.1 r') hafter
  exact ⟨hwrite, hrest⟩

theorem ReadsBack.member {e : Text × JsonVal} (h : ReadsBack e.2) (he : JsonEncodable e.2)
    {m : JsonMember} (hdoc : (m.key, m.value.doc) = (e.1, jsonDoc e.2))
    (hkey : JsonString m.keyText m.key) (hm : JsonValue m.value.doc m.value.text)
    (hws : JsonWs m.before ∧ JsonWs m.colon ∧ JsonWs m.value.before ∧ JsonWs m.value.after)
    {c c' : UInt8} {r r' : Text} (hc : Delimits c) (hc' : Delimits c')
    (heq : m.full ++ c :: r = jsonEntryText e ++ c' :: r') :
    (WritableKey e.1 ∧ Writable e.2) ∧ c :: r = c' :: r' := by
  have hnone : JsonWs [] := nofun
  obtain ⟨hname, hdoc⟩ := Prod.mk.inj hdoc
  simp only [JsonMember.full, jsonEntryText, List.append_assoc, List.cons_append] at heq
  obtain ⟨-, hquote⟩ := run_unique hws.1 hnone (stopsRun_cons rfl _) (stopsRun_cons rfl _) heq
  obtain ⟨-, hwkey, -, hcolon⟩ :=
    hkey.writable_key (w := []) hname List.not_mem_nil (List.tail_eq_of_cons_eq hquote)
  obtain ⟨-, hvalue⟩ := run_unique hws.2.1 hnone (stopsRun_cons rfl _) (stopsRun_cons rfl _) hcolon
  obtain ⟨hwrite, hrest⟩ := h.item he hdoc hm hws.2.2 hc hc' (List.tail_eq_of_cons_eq hvalue)
  exact ⟨⟨hwkey, hwrite⟩, hrest⟩

theorem forall_of_forall₂ {α β : Type*} {Q : β → Prop} {xs : List α} {ys : List β}
    (h : List.Forall₂ (fun _ y => Q y) xs ys) : ∀ y ∈ ys, Q y := by
  induction h with
  | nil => exact nofun
  | cons hy _ ih => exact List.forall_mem_cons.mpr ⟨hy, ih⟩

theorem readsBack_list {items : List JsonVal} (henc : ∀ v ∈ items, JsonEncodable v)
    (h : ∀ v ∈ items, ReadsBack v) : ReadsBack (.list items) := by
  intro t r r' ht heq _ _
  rw [jsonDoc, itemDocs_eq] at ht
  rw [jsonStringify, jsonItemTexts_eq] at heq
  generalize hdocs : items.map jsonDoc = docs at ht
  cases ht with
  | number h => cases h
  | @emptyList w hw =>
    obtain rfl := List.map_eq_nil_iff.mp hdocs
    simp only [List.map_nil, commaSep, List.cons_append, List.nil_append, List.append_assoc] at heq
    obtain ⟨-, hrest⟩ := @run_unique _ w [] _ _ hw (List.forall_mem_nil _) (stopsRun_cons rfl r)
      (stopsRun_cons rfl r') (List.tail_eq_of_cons_eq heq)
    exact ⟨.list (List.forall_mem_nil _), List.tail_eq_of_cons_eq hrest⟩
  | @list is hne hws hval =>
    have hne' : items ≠ [] := by
      rintro rfl
      exact hne (List.map_eq_nil_iff.mp hdocs.symm)
    simp only [List.cons_append, List.append_assoc] at heq
    have hpeel : ∀ (n : ℕ) i v, is[n]? = some i → items[n]? = some v → ∀ {c c' r r'},
        Delimits c → Delimits c' → i.full ++ c :: r = jsonStringify v ++ c' :: r' →
        Writable v ∧ c :: r = c' :: r' := by
      intro n i v hin hvn c c' r r' hc hc' heq
      have hi := List.mem_of_getElem? hin
      have hv := List.mem_of_getElem? hvn
      have hdoc : i.doc = jsonDoc v := by
        have := congrArg (·[n]?) hdocs
        simp only [List.getElem?_map, hin, hvn, Option.map_some, Option.some.injEq] at this
        exact this.symm
      exact ReadsBack.item (h v hv) (henc v hv) hdoc (hval i hi) (hws i hi) hc hc' heq
    obtain ⟨hall, rfl⟩ := commaSep_peel ⟨rfl, rfl⟩ ⟨rfl, rfl⟩ (by decide) hne hne' hpeel
      (List.tail_eq_of_cons_eq heq)
    exact ⟨.list (forall_of_forall₂ hall), rfl⟩

theorem readsBack_data {entries : List (Text × JsonVal)}
    (henc : ∀ e ∈ entries, JsonEncodable e.2) (h : ∀ e ∈ entries, ReadsBack e.2) :
    ReadsBack (.data entries) := by
  intro t r r' ht heq _ _
  rw [jsonDoc, entryDocs_eq, ← List.map_reverse] at ht
  rw [jsonStringify, jsonEntryTexts_eq, ← List.map_reverse] at heq
  replace henc : ∀ e ∈ entries.reverse, JsonEncodable e.2 := fun e he =>
    henc e (List.mem_reverse.mp he)
  replace h : ∀ e ∈ entries.reverse, ReadsBack e.2 := fun e he => h e (List.mem_reverse.mp he)
  have hwrite : (∀ e ∈ entries.reverse, WritableKey e.1 ∧ Writable e.2) → Writable (.data entries) :=
    fun hall => .data (fun e he => (hall e (List.mem_reverse.mpr he)).1) fun e he =>
      (hall e (List.mem_reverse.mpr he)).2
  generalize entries.reverse = es at *
  generalize hdocs : es.map (fun e => (e.1, jsonDoc e.2)) = docs at ht
  cases ht with
  | number h => cases h
  | @emptyObject w hw =>
    obtain rfl := List.map_eq_nil_iff.mp hdocs
    simp only [List.map_nil, commaSep, List.cons_append, List.nil_append, List.append_assoc] at heq
    obtain ⟨-, hrest⟩ := @run_unique _ w [] _ _ hw (List.forall_mem_nil _) (stopsRun_cons rfl r)
      (stopsRun_cons rfl r') (List.tail_eq_of_cons_eq heq)
    exact ⟨hwrite (List.forall_mem_nil _), List.tail_eq_of_cons_eq hrest⟩
  | @object ms hne hws hkey hval =>
    have hne' : es ≠ [] := by
      rintro rfl
      exact hne (List.map_eq_nil_iff.mp hdocs.symm)
    simp only [List.cons_append, List.append_assoc] at heq
    have hpeel : ∀ (n : ℕ) m e, ms[n]? = some m → es[n]? = some e → ∀ {c c' r r'},
        Delimits c → Delimits c' → m.full ++ c :: r = jsonEntryText e ++ c' :: r' →
        (WritableKey e.1 ∧ Writable e.2) ∧ c :: r = c' :: r' := by
      intro n m e hmn hen c c' r r' hc hc' heq
      have hm := List.mem_of_getElem? hmn
      have he := List.mem_of_getElem? hen
      have hdoc : (m.key, m.value.doc) = (e.1, jsonDoc e.2) := by
        have := congrArg (·[n]?) hdocs
        simp only [List.getElem?_map, hmn, hen, Option.map_some, Option.some.injEq] at this
        exact this.symm
      exact ReadsBack.member (h e he) (henc e he) hdoc (hkey m hm) (hval m hm) (hws m hm) hc hc' heq
    obtain ⟨hall, rfl⟩ := commaSep_peel ⟨rfl, rfl⟩ ⟨rfl, rfl⟩ (by decide) hne hne' hpeel
      (List.tail_eq_of_cons_eq heq)
    exact ⟨hwrite (forall_of_forall₂ hall), rfl⟩

theorem JsonEncodable.readsBack {v : JsonVal} (h : JsonEncodable v) : ReadsBack v := by
  induction h with
  | num n =>
    intro t r r' ht heq hr hr'
    cases ht with
    | number ht =>
      obtain ⟨-, hrest⟩ := run_unique ht.numeral (JsonNumeral.int (jsonInt_intText n)).numeral
        hr hr' heq
      exact ⟨.num n, hrest⟩
  | bool b =>
    intro t r r' ht heq _ _
    cases ht with
    | number ht => cases ht
    | bool => exact ⟨.bool b, List.append_cancel_left heq⟩
  | void =>
    intro t r r' ht heq _ _
    cases ht with
    | number ht => cases ht
    | null => exact ⟨.void, List.append_cancel_left heq⟩
  | string =>
    intro t r r' ht heq _ _
    cases ht with
    | number ht => cases ht
    | string ht =>
      simp only [jsonStringify, List.cons_append, List.append_assoc, List.nil_append] at heq
      obtain ⟨hwrite, -, hrest⟩ := ht.writable_escape (List.tail_eq_of_cons_eq heq)
      exact ⟨.string hwrite, hrest⟩
  | list h ih => exact readsBack_list h ih
  | data _ h ih => exact readsBack_data h ih

theorem JsonEncodable.writable {v : JsonVal} (h : JsonEncodable v)
    (hread : Denotes (jsonStringify v) (jsonDoc v)) : Writable v := by
  obtain ⟨b, t, a, hb, ha, ht, heq⟩ := hread
  have hstops := h.stops []
  rw [List.append_nil, heq] at hstops
  obtain rfl : b = [] := by
    cases b with
    | nil => rfl
    | cons c b =>
      have hc := hb c List.mem_cons_self
      rw [hstops c rfl] at hc
      cases hc
  exact (h.readsBack ht (heq.symm.trans (List.append_nil _).symm) ha.ends (stopsRun_nil _)).1

/-- **The encoder is right exactly on writable values.** Its text is in the grammar and read
as nothing but the value if and only if no string and no key holds a byte that would have had
to be escaped and is not. -/
theorem denotes_jsonStringify_iff {v : JsonVal} (h : JsonEncodable v) :
    ((∃ d, Denotes (jsonStringify v) d) ∧ ∀ d, Denotes (jsonStringify v) d → d = jsonDoc v) ↔
      Writable v := by
  constructor
  · rintro ⟨⟨d, hd⟩, hall⟩
    obtain rfl := hall d hd
    exact h.writable hd
  · intro hwrite
    have hread : Denotes (jsonStringify v) (jsonDoc v) :=
      ⟨[], jsonStringify v, [], nofun, nofun, hwrite.jsonValue, (List.append_nil _).symm⟩
    exact ⟨⟨_, hread⟩, fun d hd => hd.unique hread⟩

/-- `{"k": "ab"}`. -/
theorem denotes_jsonStringify_plain :
    ((∃ d, Denotes (jsonStringify (.data [(txt "k", .string (txt "ab"))])) d) ∧
      ∀ d, Denotes (jsonStringify (.data [(txt "k", .string (txt "ab"))])) d →
        d = jsonDoc (.data [(txt "k", .string (txt "ab"))])) ↔
      Writable (.data [(txt "k", .string (txt "ab"))]) :=
  denotes_jsonStringify_iff (.data (by decide) (by
    intro e he
    obtain rfl := List.mem_singleton.mp he
    exact .string (by decide)))

theorem not_denotes_tab (d : JsonDoc) : ¬ Denotes [34, 9, 34] d := by
  rintro ⟨b, t, a, hb, -, ht, heq⟩
  obtain rfl : b = [] := by
    cases b with
    | nil => rfl
    | cons c b =>
      have hc := hb c List.mem_cons_self
      rw [← List.head_eq_of_cons_eq heq] at hc
      cases hc
  obtain ⟨c, u, hcons, hlead⟩ := ht.head
  obtain rfl : 34 = c := by
    rw [hcons] at heq
    exact List.head_eq_of_cons_eq heq
  have hkind : d.kind = 3 := (Option.some.inj hlead).symm
  cases ht with
  | number ht => rw [ht.kind] at hkind; cases hkind
  | @string enc s hs =>
    have hbody := List.tail_eq_of_cons_eq heq
    cases hs with
    | nil => cases List.head_eq_of_cons_eq hbody
    | char hctrl =>
      obtain rfl := List.head_eq_of_cons_eq hbody
      exact absurd hctrl (by decide)
    | escape he =>
      obtain ⟨⟨n, u, rfl⟩, -⟩ := he.shape
      cases List.head_eq_of_cons_eq hbody
  | null | bool | emptyList | list | emptyObject | object => cases hkind

/-- A tab in a string is written as it stands, and no document is read. A quote in a key ends
the key: the one entry `a":1,"b` is read as two members. -/
theorem jsonStringify_misread :
    (JsonEncodable (.string [9]) ∧ ∀ d, ¬ Denotes (jsonStringify (.string [9])) d) ∧
    JsonEncodable (.data [(txt "a\":1,\"b", .num 2)]) ∧
      Denotes (jsonStringify (.data [(txt "a\":1,\"b", .num 2)]))
        (.object [(txt "a", .int 1), (txt "b", .int 2)]) := by
  refine ⟨⟨.string (by decide), not_denotes_tab⟩, .data (by decide) ?_, ?_⟩
  · intro e he
    obtain rfl := List.mem_singleton.mp he
    exact .num 2
  · have hnone : JsonWs [] := nofun
    have hkey : ∀ c : UInt8, 97 ≤ c → JsonString [c] [c] := fun c hc =>
      jsonString_key fun d hd => by
        obtain rfl := List.mem_singleton.mp hd
        refine ⟨UInt8.le_trans (by decide) hc, ?_, ?_⟩ <;> rintro rfl <;> exact absurd hc (by decide)
    refine ⟨[], _, [], hnone, hnone, @JsonValue.object [⟨[], [97], [97], [], plainItem (.num 1)⟩,
      ⟨[], [98], [98], [], plainItem (.num 2)⟩] (List.cons_ne_nil _ _) ?_ ?_ ?_, by decide⟩
    · intro m hm
      simp only [List.mem_cons, List.not_mem_nil, or_false] at hm
      rcases hm with rfl | rfl <;> exact ⟨hnone, hnone, hnone, hnone⟩
    · intro m hm
      simp only [List.mem_cons, List.not_mem_nil, or_false] at hm
      rcases hm with rfl | rfl <;> exact hkey _ (by decide)
    · intro m hm
      simp only [List.mem_cons, List.not_mem_nil, or_false] at hm
      rcases hm with rfl | rfl <;> exact .number (.int (jsonInt_intText _))

end Jaguar
