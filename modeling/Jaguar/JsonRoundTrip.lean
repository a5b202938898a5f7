/-
What was encoded is decoded to the same value.

The encoder escapes more than the decoder needs and writes no whitespace, so that its text is
read back also where other programs would not read it: control bytes are taken as they stand.
A key is not escaped; one with a quote or a backslash does not come back.

* `JsonPlain.readAs` — the decoder on encoded text with anything behind it;
* `jsonParse_jsonStringify` — **the round trip**.
-/
import Jaguar.JsonEncoding
import Jaguar.JsonReading

namespace Jaguar

/-- Integers of 64 bits, booleans, void, C strings, and lists and `data` values of these,
with unique keys that hold no quotes and no backslashes. -/
inductive JsonPlain : JsonVal → Prop
  | num {n : ℤ} (hlo : -2 ^ 63 ≤ n) (hhi : n < 2 ^ 63) : JsonPlain (.num n)
  | bool (b : Bool) : JsonPlain (.bool b)
  | void : JsonPlain .void
  | string {s : Text} (hnul : 0 ∉ s) : JsonPlain (.string s)
  | list {items : List JsonVal} (h : ∀ v ∈ items, JsonPlain v) : JsonPlain (.list items)
  | data {entries : List (Text × JsonVal)} (hkeys : (entries.map Prod.fst).Nodup)
      (hkey : ∀ e ∈ entries, 0 ∉ e.1 ∧ 34 ∉ e.1 ∧ 92 ∉ e.1)
      (h : ∀ e ∈ entries, JsonPlain e.2) : JsonPlain (.data entries)

theorem JsonPlain.readAs {v : JsonVal} (h : JsonPlain v) : ReadAs (jsonStringify v) v := by
  have hnone : JsonWs [] := nofun
  induction h with
  | @num n hlo hhi => exact readAs_int (jsonInt_intText n) hlo hhi
  | bool b => exact readAs_bool b
  | void => exact readAs_void
  | @string s _ => exact readAs_string (jsonChars_escape s)
  | @list items _ ih =>
    rw [jsonStringify, jsonItemTexts_eq]
    rcases eq_or_ne items [] with rfl | hne
    · exact readAs_emptyList hnone
    · have hread := @readAs_list _ id plainItem _ hne
        (fun _ _ => ⟨hnone, hnone⟩) ih
      simpa only [plainItem_full, List.map_id] using hread
  | @data entries hkeys hkey _ ih =>
    rw [jsonStringify, jsonEntryTexts_eq, ← List.map_reverse]
    rcases eq_or_ne entries [] with rfl | hne
    · exact readAs_emptyData hnone
    · have hchars : ∀ e ∈ entries.reverse, JsonChars (plainMember e).keyText e.1 := by
        intro e he
        obtain ⟨-, hquote, hback⟩ := hkey e (List.mem_reverse.mp he)
        exact jsonChars_plain fun c hc => ⟨fun h => hquote (h ▸ hc), fun h => hback (h ▸ hc)⟩
      have hread := @readAs_data _ Prod.snd plainMember _ _
        (mt List.reverse_eq_nil_iff.mp hne) (fun _ _ => ⟨hnone, hnone, hnone, hnone⟩) hchars
        fun e he => ih e (List.mem_reverse.mp he)
      have hset : dataSetAll [] entries.reverse = entries := by
        have hnodup : ((entries.reverse.reverse ++ []).map Prod.fst).Nodup := by simpa using hkeys
        rw [dataSetAll_new [] hnodup]
        simp
      simpa only [plainMember_full, Prod.mk.eta, List.map_id', hset] using hread

/-! ### Encoded text is a C string -/

theorem zero_not_mem_jsonEscape {s : Text} (h : 0 ∉ s) : 0 ∉ jsonEscape s := by
  induction s with
  | nil => exact h
  | cons c s ih =>
    rw [List.mem_cons, not_or] at h
    have hs := ih h.2
    unfold jsonEscape
    split_ifs <;> simp [h.1, hs]

theorem zero_not_mem_intText (n : ℤ) : 0 ∉ intText n := by
  have hdigits : 0 ∉ natText n.natAbs := fun h => absurd (isDigit_of_mem_natText h) (by decide)
  unfold intText
  split_ifs
  · simp [hdigits]
  · exact hdigits

theorem JsonPlain.zero_not_mem {v : JsonVal} (h : JsonPlain v) : 0 ∉ jsonStringify v := by
  induction h with
  | num => exact zero_not_mem_intText _
  | bool b => cases b <;> decide
  | void => decide
  | string hnul => simp [jsonStringify, zero_not_mem_jsonEscape hnul]
  | @list items _ ih =>
    have hitems : 0 ∉ commaSep (items.map jsonStringify) :=
      zero_not_mem_commaSep fun p hp => by
        obtain ⟨v, hv, rfl⟩ := List.mem_map.mp hp
        exact ih v hv
    simp [jsonStringify, jsonItemTexts_eq, hitems]
  | @data entries _ hkey _ ih =>
    have hentries : 0 ∉ commaSep (entries.reverse.map jsonEntryText) :=
      zero_not_mem_commaSep fun p hp => by
        obtain ⟨e, he, rfl⟩ := List.mem_map.mp hp
        have he := List.mem_reverse.mp he
        simp [jsonEntryText, (hkey e he).1, ih e he]
    rw [List.map_reverse] at hentries
    simp [jsonStringify, jsonEntryTexts_eq, hentries]

/-- **What was encoded is decoded to the same value.** -/
theorem jsonParse_jsonStringify {v : JsonVal} (h : JsonPlain v) :
    jsonParse (jsonStringify v) = some v := by
  have hnul : 0 ∉ [] ++ (jsonStringify v ++ []) := by simpa using h.zero_not_mem
  have hparse := h.readAs.jsonParse (b := []) (a := []) nofun nofun hnul
  simpa using hparse

/-- `{"a": [-1, "x\"\n"], "b": {}}` and back. -/
theorem jsonParse_jsonStringify_nested :
    jsonParse (jsonStringify (.data [(txt "b", .data []),
        (txt "a", .list [.num (-1), .string (txt "x\"\n")])]))
      = some (.data [(txt "b", .data []),
        (txt "a", .list [.num (-1), .string (txt "x\"\n")])]) := by
  refine jsonParse_jsonStringify (.data (by decide) (by decide) ?_)
  intro e he
  rcases List.mem_cons.mp he with rfl | he
  · exact .data List.nodup_nil nofun nofun
  · obtain rfl := List.mem_singleton.mp he
    refine .list fun v hv => ?_
    rcases List.mem_cons.mp hv with rfl | hv
    · exact .num (by decide) (by decide)
    · obtain rfl := List.mem_singleton.mp hv
      exact .string (by decide)

end Jaguar
