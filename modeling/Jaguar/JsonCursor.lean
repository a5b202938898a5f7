/-
The decoder as the code runs it: with a pointer into a NUL-terminated string (`json.c`).

`Json` describes `json_parse` on the text still ahead. Here every function gets the place of
the cursor and reads the memory behind it byte by byte; a read behind the terminator is a
fault. `rest p` is the text ahead at `p`, and the two descriptions agree.

* `CString`, `CString.read` — the string in memory, and one `*s`;
* `valueAt`, `entriesAt`, `itemsAt` — `json_parse_value` with its two loops;
* `Follows`, `valueAt_follows` — **the cursor never faults, never goes back and never passes
  the terminator**, and the result is the one of `jsonParseValue`;
* `itemsAt_turn`, `entriesAt_turn` — a turn of a loop ends at a comma, or is the last;
* `jsonParse_terminates` — all of it, for every string.
-/
import Jaguar.Json

namespace Jaguar

/-- A C string. -/
structure CString where
  bytes : Text
  noNul : (0 : UInt8) ∉ bytes

/-- Why a run of the decoder does not return. -/
inductive CursorStop
  /-- It has read behind the terminator. -/
  | fault
  /-- It has come to the bound of the recursion. -/
  | fuel

namespace CString

/-- The place of the terminator. -/
def len (t : CString) : ℕ := t.bytes.length

/-- The text ahead. -/
def rest (t : CString) (p : ℕ) : Text := t.bytes.drop p

/-- `*s`. -/
def read (t : CString) (p : ℕ) : Except CursorStop UInt8 :=
  match (t.bytes ++ [0])[p]? with
  | some c => .ok c
  | none => .error .fault

theorem read_eq (t : CString) {p : ℕ} (hp : p ≤ t.len) :
    t.read p = .ok ((t.rest p).headD 0) := by
  have hget : (t.bytes ++ [0])[p]? = some ((t.rest p).headD 0) := by
    unfold rest
    rw [List.headD_eq_head?_getD, List.head?_drop]
    rcases Nat.lt_or_eq_of_le hp with hlt | rfl
    · rw [List.getElem?_append_left hlt, List.getElem?_eq_getElem hlt]
      rfl
    · unfold len
      rw [List.getElem?_append_right (Nat.le_refl _), Nat.sub_self,
        List.getElem?_eq_none (Nat.le_refl _)]
      rfl
  unfold read
  rw [hget]

/-- What is not the terminator stands in front of it. -/
theorem lt_of_read {t : CString} {p : ℕ} {c : UInt8} (h : t.read p = .ok c) (hc : c ≠ 0) :
    p < t.len := by
  unfold read at h
  split at h
  · next d hd =>
    obtain rfl := Except.ok.inj h
    have hlt := (List.getElem?_eq_some_iff.mp hd).1
    rw [List.length_append, List.length_singleton] at hlt
    rcases Nat.lt_or_eq_of_le (Nat.le_of_lt_succ hlt) with h | rfl
    · exact h
    · rw [List.getElem?_append_right (Nat.le_refl _), Nat.sub_self] at hd
      exact absurd (Option.some.inj hd).symm hc
  · cases h

/-! ### The code -/

/-- `while (…*s…) s++`, for a test that the terminator fails. -/
def scanAt (t : CString) (test : UInt8 → Bool) (htest : test 0 = false) (p : ℕ) :
    Except CursorStop ℕ :=
  match h : t.read p with
  | .error e => .error e
  | .ok c => if hc : test c = true then scanAt t test htest (p + 1) else .ok p
  termination_by t.len - p
  decreasing_by
    have hne : c ≠ 0 := by
      rintro rfl
      rw [htest] at hc
      cases hc
    have := lt_of_read h hne
    omega

def isJsonWs (c : UInt8) : Bool := c = 32 || c = 9 || c = 10 || c = 13

/-- `json_skip_ws`. -/
def jsonSkipWsAt (t : CString) (p : ℕ) : Except CursorStop ℕ := t.scanAt isJsonWs (by decide) p

/-- `if (*s == c) s++;` -/
def stepIf (t : CString) (c : UInt8) (p : ℕ) : Except CursorStop ℕ := do
  let d ← t.read p
  .ok (if d = c then p + 1 else p)

/-- The loop of `json_parse_string_raw`. -/
def stringBodyAt (t : CString) (p : ℕ) : Except CursorStop (Text × ℕ) :=
  match h : t.read p with
  | .error e => .error e
  | .ok c =>
    if hc : c = 0 ∨ c = 34 then .ok ([], p)
    else if c = 92 then
      match t.read (p + 1) with
      | .error e => .error e
      | .ok n =>
        if n = 0 then
          (stringBodyAt t (p + 1)).map fun (out, q) => (c :: out, q)
        else
          (stringBodyAt t (p + 2)).map fun (out, q) =>
            ((if n = 110 then 10 else if n = 116 then 9 else n) :: out, q)
    else (stringBodyAt t (p + 1)).map fun (out, q) => (c :: out, q)
  termination_by t.len - p
  decreasing_by
    all_goals
      have := lt_of_read h fun hzero => hc (.inl hzero)
      omega

/-- `json_parse_string_raw`. -/
def jsonParseStringRawAt (t : CString) (p : ℕ) : Except CursorStop (Text × ℕ) := do
  let c ← t.read p
  if c = 34 then
    let (out, s) ← t.stringBodyAt (p + 1)
    let s ← t.stepIf 34 s
    .ok (out, s)
  else .ok ([], p)

/-- `strncmp(s, w, …) == 0`. -/
def startsAt (t : CString) : Text → ℕ → Except CursorStop Bool
  | [], _ => .ok true
  | c :: w, p => do
    let d ← t.read p
    if d = c then t.startsAt w (p + 1) else .ok false

/-- The fraction of a number. -/
def fractionAt (t : CString) (p : ℕ) : Except CursorStop (ℕ × Bool) := do
  let c ← t.read p
  if c = 46 then
    let s ← t.scanAt isDigit (by decide) (p + 1)
    .ok (s, true)
  else .ok (p, false)

/-- The exponent of a number; `isFloat` says whether it has a fraction. -/
def exponentAt (t : CString) (isFloat : Bool) (p : ℕ) : Except CursorStop (ℕ × Bool) := do
  let c ← t.read p
  if c = 101 ∨ c = 69 then
    let d ← t.read (p + 1)
    let s ← t.scanAt isDigit (by decide) (if d = 43 ∨ d = 45 then p + 2 else p + 1)
    .ok (s, true)
  else .ok (p, isFloat)

def numberEndAt (t : CString) (p : ℕ) : Except CursorStop (ℕ × Bool) := do
  let s ← t.stepIf 45 p
  let s ← t.scanAt isDigit (by decide) s
  let (s, isFloat) ← t.fractionAt s
  t.exponentAt isFloat s

/-- `memcpy` of `n` bytes. -/
def copyAt (t : CString) : ℕ → ℕ → Except CursorStop Text
  | 0, _ => .ok []
  | n + 1, p => do
    let c ← t.read p
    let cs ← t.copyAt n (p + 1)
    .ok (c :: cs)

/-- `json_parse_number`, on texts shorter than `2 ^ 31` bytes: the length of the number is an
`int` there. -/
def jsonParseNumberAt (t : CString) (p : ℕ) : Except CursorStop (JsonVal × ℕ) := do
  let (s, isFloat) ← t.numberEndAt p
  let numbuf ← t.copyAt (min (s - p) 63) p
  .ok (if isFloat then .decimal (atof numbuf) else .num (atol numbuf), s)

mutual

/-- `json_parse_value`. -/
def valueAt (t : CString) : ℕ → ℕ → Except CursorStop (JsonVal × ℕ)
  | 0, _ => .error .fuel
  | n + 1, p => do
    let s ← t.jsonSkipWsAt p
    let c ← t.read s
    if c = 34 then
      let (str, s) ← t.jsonParseStringRawAt s
      .ok (.string str, s)
    else if c = 123 then
      let s ← t.jsonSkipWsAt (s + 1)
      let c ← t.read s
      if c = 125 then .ok (.data [], s + 1) else t.entriesAt n [] s
    else if c = 91 then
      let s ← t.jsonSkipWsAt (s + 1)
      let c ← t.read s
      if c = 93 then .ok (.list [], s + 1) else t.itemsAt n [] s
    else if ← t.startsAt (txt "true") s then .ok (.bool true, s + 4)
    else if ← t.startsAt (txt "false") s then .ok (.bool false, s + 5)
    else if ← t.startsAt (txt "null") s then .ok (.void, s + 4)
    else t.jsonParseNumberAt s

/-- The loop over the entries of an object. -/
def entriesAt (t : CString) : ℕ → DataList JsonVal → ℕ → Except CursorStop (JsonVal × ℕ)
  | 0, _, _ => .error .fuel
  | n + 1, obj, s => do
    let s ← t.jsonSkipWsAt s
    let (key, s) ← t.jsonParseStringRawAt s
    let s ← t.jsonSkipWsAt s
    let s ← t.stepIf 58 s
    let (val, s) ← t.valueAt n s
    let obj := dataSet obj key val
    let s ← t.jsonSkipWsAt s
    let c ← t.read s
    if c = 44 then t.entriesAt n obj (s + 1)
    else .ok (.data obj, if c = 125 then s + 1 else s)

/-- The loop over the items of an array. -/
def itemsAt (t : CString) : ℕ → List JsonVal → ℕ → Except CursorStop (JsonVal × ℕ)
  | 0, _, _ => .error .fuel
  | n + 1, items, s => do
    let (item, s) ← t.valueAt n s
    let items := items ++ [item]
    let s ← t.jsonSkipWsAt s
    let c ← t.read s
    if c = 44 then t.itemsAt n items (s + 1)
    else .ok (.list items, if c = 93 then s + 1 else s)

end

/-! ### Both descriptions agree -/

/-- From the place `p` the code comes to a place in front of the terminator or at it, with the
value and the text ahead that the other description names; or both run out of recursion. -/
def Follows {α : Type} (t : CString) (p : ℕ) (r : Except CursorStop (α × ℕ)) :
    Option (α × Text) → Prop
  | none => r = .error .fuel
  | some (a, s) => ∃ q, r = .ok (a, q) ∧ p ≤ q ∧ q ≤ t.len ∧ s = t.rest q

theorem Follows.of_le {α : Type} {t : CString} {p q : ℕ} {r : Except CursorStop (α × ℕ)}
    {a : Option (α × Text)} (h : t.Follows q r a) (hpq : p ≤ q) : t.Follows p r a := by
  cases a with
  | none => exact h
  | some a =>
    obtain ⟨q', hr, hle, hlen, hs⟩ := h
    exact ⟨q', hr, hpq.trans hle, hlen, hs⟩

theorem headD_eq_iff {s : Text} {c : UInt8} (hc : c ≠ 0) : s.headD 0 = c ↔ s.head? = some c := by
  cases s with
  | nil =>
    constructor
    · intro h
      exact absurd h.symm hc
    · intro h
      cases h
  | cons d s =>
    show d = c ↔ some d = some c
    rw [Option.some.injEq]

theorem tail_rest (t : CString) (p : ℕ) : (t.rest p).tail = t.rest (p + 1) := List.tail_drop

theorem lt_of_head {t : CString} {p : ℕ} {c : UInt8} (h : (t.rest p).head? = some c) :
    p < t.len := by
  by_contra hge
  have hnil : t.rest p = [] := List.drop_eq_nil_of_le (Nat.le_of_not_lt hge)
  rw [hnil] at h
  cases h

theorem head_ne_zero {t : CString} {p : ℕ} {c : UInt8} (h : (t.rest p).head? = some c) :
    c ≠ 0 := by
  rintro rfl
  exact t.noNul (List.mem_of_mem_drop (List.mem_of_head? h))

/-- What the loop over a test finds. -/
theorem scanAt_follows (t : CString) {test : UInt8 → Bool} (htest : test 0 = false) {p : ℕ}
    (hp : p ≤ t.len) : ∃ q, t.scanAt test htest p = .ok q ∧ p ≤ q ∧ q ≤ t.len ∧
      (t.rest p).dropWhile test = t.rest q := by
  induction hk : t.len - p generalizing p with
  | zero =>
    have hnil : t.rest p = [] := List.drop_eq_nil_of_le (Nat.le_of_sub_eq_zero hk)
    refine ⟨p, ?_, Nat.le_refl _, hp, by rw [hnil]; rfl⟩
    rw [scanAt, t.read_eq hp, hnil]
    simp [htest]
  | succ k ih =>
    have hlt : p < t.len := by omega
    have hcons : t.rest p = t.bytes[p] :: t.rest (p + 1) := List.drop_eq_getElem_cons hlt
    rw [scanAt, t.read_eq hp, hcons]
    by_cases hc : test t.bytes[p] = true
    · obtain ⟨q, hq, hle, hlen, hrest⟩ := ih (p := p + 1) hlt (by omega)
      refine ⟨q, ?_, by omega, hlen, ?_⟩
      · simpa [hc] using hq
      · rw [List.dropWhile_cons, if_pos hc, hrest]
    · refine ⟨p, by simp [hc], Nat.le_refl _, hp, ?_⟩
      rw [List.dropWhile_cons, if_neg hc, hcons]

theorem jsonSkipWsAt_follows (t : CString) {p : ℕ} (hp : p ≤ t.len) :
    ∃ q, t.jsonSkipWsAt p = .ok q ∧ p ≤ q ∧ q ≤ t.len ∧ jsonSkipWs (t.rest p) = t.rest q :=
  t.scanAt_follows _ hp

theorem stepIf_follows (t : CString) {c : UInt8} (hc : c ≠ 0) {p : ℕ} (hp : p ≤ t.len) :
    ∃ q, t.stepIf c p = .ok q ∧ p ≤ q ∧ q ≤ t.len ∧
      (if (t.rest p).head? = some c then (t.rest p).tail else t.rest p) = t.rest q := by
  unfold stepIf
  rw [t.read_eq hp]
  by_cases h : (t.rest p).head? = some c
  · refine ⟨p + 1, congrArg Except.ok (if_pos ((headD_eq_iff hc).mpr h)), Nat.le_succ p,
      lt_of_head h, ?_⟩
    rw [if_pos h, tail_rest]
  · refine ⟨p, congrArg Except.ok (if_neg fun hd => h ((headD_eq_iff hc).mp hd)), Nat.le_refl p,
      hp, ?_⟩
    rw [if_neg h]

theorem Follows.exists_place {α : Type} {t : CString} {p : ℕ} {r : Except CursorStop (α × ℕ)}
    {a : α × Text} (h : t.Follows p r (some a)) :
    ∃ q, r = .ok (a.1, q) ∧ p ≤ q ∧ q ≤ t.len ∧ a.2 = t.rest q := h

theorem Follows.map {α β : Type} {t : CString} {p : ℕ} {r : Except CursorStop (α × ℕ)}
    {a : α × Text} (h : t.Follows p r (some a)) (f : α → β) :
    t.Follows p (r.map fun (x, q) => (f x, q)) (some (f a.1, a.2)) := by
  obtain ⟨q, rfl, hle, hlen, hs⟩ := h
  exact ⟨q, rfl, hle, hlen, hs⟩

theorem jsonStringBody_quote (s : Text) : jsonStringBody (34 :: s) = ([], 34 :: s) := by
  cases s <;> simp [jsonStringBody]

theorem jsonStringBody_char {c : UInt8} (hquote : c ≠ 34) {s : Text} (hback : c = 92 → s = []) :
    jsonStringBody (c :: s) = (c :: (jsonStringBody s).1, (jsonStringBody s).2) := by
  cases s with
  | nil => simp [jsonStringBody, hquote]
  | cons n s =>
    have hne : c ≠ 92 := fun h => absurd (hback h) (List.cons_ne_nil n s)
    simp [jsonStringBody, hquote, hne]

theorem jsonStringBody_escape (n : UInt8) (s : Text) :
    jsonStringBody (92 :: n :: s) = ((if n = 110 then 10 else if n = 116 then 9 else n) ::
      (jsonStringBody s).1, (jsonStringBody s).2) := by
  simp [jsonStringBody]

theorem stringBodyAt_follows (t : CString) {p : ℕ} (hp : p ≤ t.len) :
    t.Follows p (t.stringBodyAt p) (some (jsonStringBody (t.rest p))) := by
  induction hk : t.len - p using Nat.strong_induction_on generalizing p with
  | _ k ih =>
    subst hk
    rw [stringBodyAt, t.read_eq hp]
    cases hrest : t.rest p with
    | nil => exact ⟨p, by simp, Nat.le_refl p, hp, hrest.symm⟩
    | cons c s =>
      have hhead : (t.rest p).head? = some c := by rw [hrest]; rfl
      have hlt := lt_of_head hhead
      have hne := head_ne_zero hhead
      have hs : t.rest (p + 1) = s := by rw [← tail_rest, hrest]; rfl
      have hnext := (ih (t.len - (p + 1)) (by omega) hlt rfl).of_le (Nat.le_succ p)
      rw [hs] at hnext
      by_cases hquote : c = 34
      · subst hquote
        rw [jsonStringBody_quote]
        exact ⟨p, by simp, Nat.le_refl p, hp, hrest.symm⟩
      by_cases hback : c = 92
      · subst hback
        cases s with
        | nil =>
          -- a backslash in front of the terminator stands for itself
          rw [jsonStringBody_char hquote fun _ => rfl]
          simpa [t.read_eq (show p + 1 ≤ t.len from hlt), hs] using hnext.map (92 :: ·)
        | cons n s =>
          have hhead' : (t.rest (p + 1)).head? = some n := by rw [hs]; rfl
          have hs' : t.rest (p + 2) = s := by rw [← tail_rest, hs]; rfl
          have hskip := (ih (t.len - (p + 2)) (by omega) (lt_of_head hhead') rfl).of_le
            (show p ≤ p + 2 by omega)
          rw [hs'] at hskip
          rw [jsonStringBody_escape]
          simpa [t.read_eq (show p + 1 ≤ t.len from hlt), hs, head_ne_zero hhead'] using
            hskip.map fun out => (if n = 110 then 10 else if n = 116 then 9 else n) :: out
      · rw [jsonStringBody_char hquote fun h => absurd h hback]
        simpa [hne, hquote, hback] using hnext.map (c :: ·)

theorem jsonParseStringRawAt_follows (t : CString) {p : ℕ} (hp : p ≤ t.len) :
    t.Follows p (t.jsonParseStringRawAt p) (some (jsonParseStringRaw (t.rest p))) := by
  unfold jsonParseStringRawAt jsonParseStringRaw
  rw [t.read_eq hp]
  by_cases hquote : (t.rest p).head? = some 34
  · obtain ⟨q, hq, hle, hlen, hs⟩ := (t.stringBodyAt_follows (lt_of_head hquote)).exists_place
    obtain ⟨q', hq', hle', hlen', hs'⟩ := t.stepIf_follows (show (34 : UInt8) ≠ 0 by decide) hlen
    rw [if_pos hquote, tail_rest]
    refine ⟨q', ?_, by omega, hlen', ?_⟩
    · show (if (t.rest p).headD 0 = 34 then _ else _) = _
      rw [if_pos ((headD_eq_iff (by decide)).mpr hquote), hq]
      show (t.stepIf 34 q).bind _ = _
      rw [hq']
      rfl
    · show (if (jsonStringBody (t.rest (p + 1))).2.head? = some 34 then _ else _) = _
      rw [hs]
      exact hs'
  · rw [if_neg hquote]
    refine ⟨p, ?_, Nat.le_refl p, hp, rfl⟩
    exact if_neg fun h => hquote ((headD_eq_iff (by decide)).mp h)

theorem startsAt_eq (t : CString) {w : Text} (hw : 0 ∉ w) {p : ℕ} (hp : p ≤ t.len) :
    t.startsAt w p = .ok (decide (w <+: t.rest p)) := by
  induction w generalizing p with
  | nil => simp [startsAt]
  | cons c w ih =>
    have hc : c ≠ 0 := fun h => hw (by rw [h]; exact List.mem_cons_self)
    rw [startsAt, t.read_eq hp]
    show (if (t.rest p).headD 0 = c then t.startsAt w (p + 1) else .ok false) = _
    by_cases hhead : (t.rest p).head? = some c
    · rw [if_pos ((headD_eq_iff hc).mpr hhead),
        ih (fun h => hw (List.mem_cons_of_mem c h)) (lt_of_head hhead), ← tail_rest]
      cases hrest : t.rest p with
      | nil =>
        rw [hrest] at hhead
        cases hhead
      | cons d s =>
        rw [hrest] at hhead
        obtain rfl := Option.some.inj hhead
        refine congrArg Except.ok (decide_eq_decide.mpr ?_)
        show w <+: s ↔ d :: w <+: d :: s
        simp [List.cons_prefix_cons]
    · rw [if_neg fun h => hhead ((headD_eq_iff hc).mp h)]
      cases hrest : t.rest p with
      | nil => simp
      | cons d s =>
        have hne : c ≠ d := by
          rintro rfl
          rw [hrest] at hhead
          exact hhead rfl
        simp [List.cons_prefix_cons, hne]

theorem copyAt_eq (t : CString) {n p : ℕ} (h : p + n ≤ t.len) :
    t.copyAt n p = .ok ((t.rest p).take n) := by
  induction n generalizing p with
  | zero => simp [copyAt]
  | succ n ih =>
    have hlt : p < t.len := by omega
    have hcons : t.rest p = t.bytes[p] :: t.rest (p + 1) := List.drop_eq_getElem_cons hlt
    rw [copyAt, t.read_eq hlt.le, hcons]
    show (t.copyAt n (p + 1)).bind _ = _
    rw [ih (by omega)]
    rfl

theorem fractionAt_follows (t : CString) {p : ℕ} (hp : p ≤ t.len) :
    ∃ q b, t.fractionAt p = .ok (q, b) ∧ p ≤ q ∧ q ≤ t.len ∧
      (if (t.rest p).head? = some 46 then ((t.rest p).tail.dropWhile isDigit, true)
        else (t.rest p, false)) = (t.rest q, b) := by
  unfold fractionAt
  rw [t.read_eq hp]
  by_cases h : (t.rest p).head? = some 46
  · obtain ⟨q, hq, hle, hlen, hs⟩ := t.scanAt_follows (show isDigit 0 = false by decide) (lt_of_head h)
    refine ⟨q, true, ?_, by omega, hlen, ?_⟩
    · show (if (t.rest p).headD 0 = 46 then _ else _) = _
      rw [if_pos ((headD_eq_iff (by decide)).mpr h), hq]
      rfl
    · rw [if_pos h, tail_rest, hs]
  · refine ⟨p, false, ?_, Nat.le_refl p, hp, if_neg h⟩
    exact if_neg fun hd => h ((headD_eq_iff (by decide)).mp hd)

theorem exponentAt_follows (t : CString) (isFloat : Bool) {p : ℕ} (hp : p ≤ t.len) :
    ∃ q b, t.exponentAt isFloat p = .ok (q, b) ∧ p ≤ q ∧ q ≤ t.len ∧
      (if (t.rest p).head? = some 101 ∨ (t.rest p).head? = some 69 then
        ((if (t.rest p).tail.head? = some 43 ∨ (t.rest p).tail.head? = some 45 then
          (t.rest p).tail.tail else (t.rest p).tail).dropWhile isDigit, true)
        else (t.rest p, isFloat)) = (t.rest q, b) := by
  have hexp : (t.rest p).headD 0 = 101 ∨ (t.rest p).headD 0 = 69 ↔
      (t.rest p).head? = some 101 ∨ (t.rest p).head? = some 69 :=
    or_congr (headD_eq_iff (by decide)) (headD_eq_iff (by decide))
  unfold exponentAt
  rw [t.read_eq hp]
  by_cases h : (t.rest p).head? = some 101 ∨ (t.rest p).head? = some 69
  · have hlt : p < t.len := by
      rcases h with h | h
      · exact lt_of_head h
      · exact lt_of_head h
    have hsign : (t.rest (p + 1)).headD 0 = 43 ∨ (t.rest (p + 1)).headD 0 = 45 ↔
        (t.rest (p + 1)).head? = some 43 ∨ (t.rest (p + 1)).head? = some 45 :=
      or_congr (headD_eq_iff (by decide)) (headD_eq_iff (by decide))
    -- the digits start behind a sign, if there is one
    obtain ⟨d, hd, hdle, hdlen, hdrest⟩ : ∃ d,
        (if (t.rest (p + 1)).headD 0 = 43 ∨ (t.rest (p + 1)).headD 0 = 45 then p + 2 else p + 1)
          = d ∧ p ≤ d ∧ d ≤ t.len ∧
        (if (t.rest (p + 1)).head? = some 43 ∨ (t.rest (p + 1)).head? = some 45 then
          (t.rest (p + 1)).tail else t.rest (p + 1)) = t.rest d := by
      by_cases hs : (t.rest (p + 1)).head? = some 43 ∨ (t.rest (p + 1)).head? = some 45
      · refine ⟨p + 2, if_pos (hsign.mpr hs), by omega, ?_, ?_⟩
        · rcases hs with hs | hs
          · exact lt_of_head hs
          · exact lt_of_head hs
        · rw [if_pos hs, tail_rest]
      · refine ⟨p + 1, if_neg fun h => hs (hsign.mp h), Nat.le_succ p, hlt, if_neg hs⟩
    obtain ⟨q, hq, hle, hlen, hrest⟩ := t.scanAt_follows (show isDigit 0 = false by decide) hdlen
    refine ⟨q, true, ?_, by omega, hlen, ?_⟩
    · show (if (t.rest p).headD 0 = 101 ∨ (t.rest p).headD 0 = 69 then _ else _) = _
      rw [if_pos (hexp.mpr h), t.read_eq hlt]
      show (t.scanAt isDigit _ (if (t.rest (p + 1)).headD 0 = 43 ∨
        (t.rest (p + 1)).headD 0 = 45 then p + 2 else p + 1)).bind _ = _
      rw [hd, hq]
      rfl
    · rw [if_pos h, tail_rest, hdrest, hrest]
  · refine ⟨p, isFloat, ?_, Nat.le_refl p, hp, if_neg h⟩
    exact if_neg fun hd => h (hexp.mp hd)

theorem numberEndAt_follows (t : CString) {p : ℕ} (hp : p ≤ t.len) :
    ∃ q b, t.numberEndAt p = .ok (q, b) ∧ p ≤ q ∧ q ≤ t.len ∧
      jsonNumberEnd (t.rest p) = (t.rest q, b) := by
  obtain ⟨q₁, hq₁, hle₁, hlen₁, hs₁⟩ := t.stepIf_follows (show (45 : UInt8) ≠ 0 by decide) hp
  obtain ⟨q₂, hq₂, hle₂, hlen₂, hs₂⟩ := t.scanAt_follows (show isDigit 0 = false by decide) hlen₁
  obtain ⟨q₃, b₃, hq₃, hle₃, hlen₃, hs₃⟩ := t.fractionAt_follows hlen₂
  obtain ⟨q₄, b₄, hq₄, hle₄, hlen₄, hs₄⟩ := t.exponentAt_follows b₃ hlen₃
  refine ⟨q₄, b₄, ?_, by omega, hlen₄, ?_⟩
  · unfold numberEndAt
    rw [hq₁]
    show (t.scanAt isDigit _ q₁).bind _ = _
    rw [hq₂]
    show (t.fractionAt q₂).bind _ = _
    rw [hq₃]
    exact hq₄
  · unfold jsonNumberEnd
    dsimp only
    rw [hs₁, hs₂, hs₃]
    exact hs₄

theorem jsonParseNumberAt_follows (t : CString) {p : ℕ} (hp : p ≤ t.len) :
    t.Follows p (t.jsonParseNumberAt p) (some (jsonParseNumber (t.rest p))) := by
  obtain ⟨q, b, hq, hle, hlen, hs⟩ := t.numberEndAt_follows hp
  have hlength : (t.rest p).length - (t.rest q).length = q - p := by
    unfold rest
    rw [List.length_drop, List.length_drop]
    show t.len - p - (t.len - q) = q - p
    omega
  have hnumber : jsonParseNumber (t.rest p) =
      (if b then .decimal (atof ((t.rest p).take (min (q - p) 63)))
        else .num (atol ((t.rest p).take (min (q - p) 63))), t.rest q) := by
    unfold jsonParseNumber
    rw [hs]
    dsimp only
    rw [hlength, List.take_take, Nat.min_comm]
  rw [hnumber]
  refine ⟨q, ?_, hle, hlen, rfl⟩
  unfold jsonParseNumberAt
  rw [hq]
  show (t.copyAt (min (q - p) 63) p).bind _ = _
  rw [t.copyAt_eq (by omega)]
  rfl

/-! ### The recursion -/

theorem zero_not_mem_words : 0 ∉ txt "true" ∧ 0 ∉ txt "false" ∧ 0 ∉ txt "null" := by decide

/-- A word that the text starts with ends in front of the terminator. -/
theorem rest_of_prefix {t : CString} {w : Text} {p : ℕ} (hp : p ≤ t.len) (h : w <+: t.rest p) :
    p + w.length ≤ t.len ∧ (t.rest p).drop w.length = t.rest (p + w.length) := by
  constructor
  · have hle := h.length_le
    unfold rest at hle
    rw [List.length_drop] at hle
    have : t.bytes.length - p = t.len - p := rfl
    omega
  · unfold rest
    rw [List.drop_drop]

theorem valueAt_succ {t : CString} {n : ℕ}
    (hentries : ∀ obj p, p ≤ t.len →
      t.Follows p (t.entriesAt n obj p) (jsonParseEntries n obj (t.rest p)))
    (hitems : ∀ items p, p ≤ t.len →
      t.Follows p (t.itemsAt n items p) (jsonParseItems n items (t.rest p)))
    {p : ℕ} (hp : p ≤ t.len) :
    t.Follows p (t.valueAt (n + 1) p) (jsonParseValue (n + 1) (t.rest p)) := by
  obtain ⟨q, hq, hle, hlen, hs⟩ := t.jsonSkipWsAt_follows hp
  have hif : ∀ c : UInt8, c ≠ 0 → ((t.rest q).headD 0 = c ↔ (t.rest q).head? = some c) :=
    fun c hc => headD_eq_iff hc
  rw [valueAt, hq, jsonParseValue, hs]
  refine Follows.of_le ?_ hle
  show t.Follows q ((t.read q).bind _) _
  rw [t.read_eq hlen]
  dsimp only [Except.bind]
  simp only [hif 34 (by decide), hif 123 (by decide), hif 91 (by decide)]
  by_cases hstring : (t.rest q).head? = some 34
  · rw [if_pos hstring, if_pos hstring]
    obtain ⟨q', hq', hle', hlen', hs'⟩ := (t.jsonParseStringRawAt_follows hlen).exists_place
    rw [hq', hs']
    exact ⟨q', rfl, hle', hlen', rfl⟩
  rw [if_neg hstring, if_neg hstring]
  by_cases hobject : (t.rest q).head? = some 123
  · obtain ⟨q', hq', hle', hlen', hs'⟩ := t.jsonSkipWsAt_follows (lt_of_head hobject)
    rw [if_pos hobject, if_pos hobject, hq', tail_rest, hs']
    show t.Follows q ((t.read q').bind _) _
    rw [t.read_eq hlen']
    show t.Follows q (if (t.rest q').headD 0 = 125 then _ else _) _
    by_cases hclose : (t.rest q').head? = some 125
    · rw [if_pos hclose, if_pos ((headD_eq_iff (by decide)).mpr hclose), tail_rest]
      exact ⟨q' + 1, rfl, by omega, lt_of_head hclose, rfl⟩
    · rw [if_neg hclose, if_neg fun h => hclose ((headD_eq_iff (by decide)).mp h)]
      exact (hentries [] q' hlen').of_le (by omega)
  rw [if_neg hobject, if_neg hobject]
  by_cases harray : (t.rest q).head? = some 91
  · obtain ⟨q', hq', hle', hlen', hs'⟩ := t.jsonSkipWsAt_follows (lt_of_head harray)
    rw [if_pos harray, if_pos harray, hq', tail_rest, hs']
    show t.Follows q ((t.read q').bind _) _
    rw [t.read_eq hlen']
    show t.Follows q (if (t.rest q').headD 0 = 93 then _ else _) _
    by_cases hclose : (t.rest q').head? = some 93
    · rw [if_pos hclose, if_pos ((headD_eq_iff (by decide)).mpr hclose), tail_rest]
      exact ⟨q' + 1, rfl, by omega, lt_of_head hclose, rfl⟩
    · rw [if_neg hclose, if_neg fun h => hclose ((headD_eq_iff (by decide)).mp h)]
      exact (hitems [] q' hlen').of_le (by omega)
  rw [if_neg harray, if_neg harray]
  obtain ⟨htrue, hfalse, hnull⟩ := zero_not_mem_words
  have hword : ∀ (w : Text) (v : JsonVal), w <+: t.rest q →
      t.Follows q (.ok (v, q + w.length)) (some (v, (t.rest q).drop w.length)) := by
    intro w v hw
    obtain ⟨hend, hdrop⟩ := rest_of_prefix hlen hw
    exact ⟨q + w.length, rfl, Nat.le_add_right q _, hend, hdrop⟩
  rw [t.startsAt_eq htrue hlen]
  by_cases h₁ : txt "true" <+: t.rest q
  · rw [if_pos h₁, decide_eq_true h₁]
    exact hword (txt "true") (.bool true) h₁
  rw [if_neg h₁, decide_eq_false h₁, t.startsAt_eq hfalse hlen]
  by_cases h₂ : txt "false" <+: t.rest q
  · rw [if_pos h₂, decide_eq_true h₂]
    exact hword (txt "false") (.bool false) h₂
  rw [if_neg h₂, decide_eq_false h₂, t.startsAt_eq hnull hlen]
  by_cases h₃ : txt "null" <+: t.rest q
  · rw [if_pos h₃, decide_eq_true h₃]
    exact hword (txt "null") .void h₃
  rw [if_neg h₃, decide_eq_false h₃]
  exact t.jsonParseNumberAt_follows hlen

/-- The end of a turn, behind the value: at a comma the loop goes on. -/
theorem turn_follows {t : CString} {close : UInt8} (hclose : close ≠ 0) {v : JsonVal}
    {again : ℕ → Except CursorStop (JsonVal × ℕ)} {again' : Text → Option (JsonVal × Text)}
    (hagain : ∀ q, q ≤ t.len → t.Follows q (again q) (again' (t.rest q))) {p : ℕ} (hp : p ≤ t.len) :
    t.Follows p
      ((t.jsonSkipWsAt p).bind fun s => (t.read s).bind fun c =>
        if c = 44 then again (s + 1) else .ok (v, if c = close then s + 1 else s))
      (if (jsonSkipWs (t.rest p)).head? = some 44 then again' (jsonSkipWs (t.rest p)).tail
        else some (v, if (jsonSkipWs (t.rest p)).head? = some close then
          (jsonSkipWs (t.rest p)).tail else jsonSkipWs (t.rest p))) := by
  obtain ⟨q, hq, hle, hlen, hs⟩ := t.jsonSkipWsAt_follows hp
  rw [hq, hs]
  show t.Follows p ((t.read q).bind _) _
  rw [t.read_eq hlen]
  show t.Follows p (if (t.rest q).headD 0 = 44 then _ else _) _
  by_cases hcomma : (t.rest q).head? = some 44
  · rw [if_pos hcomma, if_pos ((headD_eq_iff (by decide)).mpr hcomma), tail_rest]
    exact (hagain _ (lt_of_head hcomma)).of_le (by omega)
  · rw [if_neg hcomma, if_neg fun h => hcomma ((headD_eq_iff (by decide)).mp h)]
    by_cases hend : (t.rest q).head? = some close
    · refine ⟨q + 1, ?_, by omega, lt_of_head hend, ?_⟩
      · rw [if_pos ((headD_eq_iff hclose).mpr hend)]
      · rw [if_pos hend, tail_rest]
    · refine ⟨q, ?_, hle, hlen, if_neg hend⟩
      rw [if_neg fun h => hend ((headD_eq_iff hclose).mp h)]

theorem entriesAt_succ {t : CString} {n : ℕ}
    (hvalue : ∀ p, p ≤ t.len → t.Follows p (t.valueAt n p) (jsonParseValue n (t.rest p)))
    (hentries : ∀ obj p, p ≤ t.len →
      t.Follows p (t.entriesAt n obj p) (jsonParseEntries n obj (t.rest p)))
    (obj : DataList JsonVal) {p : ℕ} (hp : p ≤ t.len) :
    t.Follows p (t.entriesAt (n + 1) obj p) (jsonParseEntries (n + 1) obj (t.rest p)) := by
  obtain ⟨q₁, hq₁, hle₁, hlen₁, hs₁⟩ := t.jsonSkipWsAt_follows hp
  obtain ⟨q₂, hq₂, hle₂, hlen₂, hs₂⟩ := (t.jsonParseStringRawAt_follows hlen₁).exists_place
  obtain ⟨q₃, hq₃, hle₃, hlen₃, hs₃⟩ := t.jsonSkipWsAt_follows hlen₂
  obtain ⟨q₄, hq₄, hle₄, hlen₄, hs₄⟩ := t.stepIf_follows (show (58 : UInt8) ≠ 0 by decide) hlen₃
  have hval := hvalue q₄ hlen₄
  rw [entriesAt, jsonParseEntries, hs₁]
  dsimp only
  rw [hs₂, hs₃, hs₄, hq₁]
  show t.Follows p ((t.jsonParseStringRawAt q₁).bind _) _
  rw [hq₂]
  show t.Follows p ((t.jsonSkipWsAt q₂).bind _) _
  rw [hq₃]
  show t.Follows p ((t.stepIf 58 q₃).bind _) _
  rw [hq₄]
  show t.Follows p ((t.valueAt n q₄).bind _) _
  cases hv : jsonParseValue n (t.rest q₄) with
  | none =>
    rw [hv] at hval
    rw [show t.valueAt n q₄ = .error .fuel from hval]
    rfl
  | some vs =>
    obtain ⟨v, s⟩ := vs
    rw [hv] at hval
    obtain ⟨q₅, hq₅, hle₅, hlen₅, rfl⟩ := hval
    rw [hq₅]
    exact (turn_follows (by decide) (fun q hq => hentries _ q hq) hlen₅).of_le (by omega)

theorem itemsAt_succ {t : CString} {n : ℕ}
    (hvalue : ∀ p, p ≤ t.len → t.Follows p (t.valueAt n p) (jsonParseValue n (t.rest p)))
    (hitems : ∀ items p, p ≤ t.len →
      t.Follows p (t.itemsAt n items p) (jsonParseItems n items (t.rest p)))
    (items : List JsonVal) {p : ℕ} (hp : p ≤ t.len) :
    t.Follows p (t.itemsAt (n + 1) items p) (jsonParseItems (n + 1) items (t.rest p)) := by
  have hval := hvalue p hp
  rw [itemsAt, jsonParseItems]
  show t.Follows p ((t.valueAt n p).bind _) _
  cases hv : jsonParseValue n (t.rest p) with
  | none =>
    rw [hv] at hval
    rw [show t.valueAt n p = .error .fuel from hval]
    rfl
  | some vs =>
    obtain ⟨v, s⟩ := vs
    rw [hv] at hval
    obtain ⟨q, hq, hle, hlen, rfl⟩ := hval
    rw [hq]
    exact (turn_follows (by decide) (fun q hq => hitems _ q hq) hlen).of_le hle

/-- **The code follows the description**, from every place up to the terminator. -/
theorem decoder_follows (t : CString) (n : ℕ) :
    (∀ p, p ≤ t.len → t.Follows p (t.valueAt n p) (jsonParseValue n (t.rest p))) ∧
    (∀ obj p, p ≤ t.len →
      t.Follows p (t.entriesAt n obj p) (jsonParseEntries n obj (t.rest p))) ∧
    (∀ items p, p ≤ t.len →
      t.Follows p (t.itemsAt n items p) (jsonParseItems n items (t.rest p))) := by
  induction n with
  | zero => exact ⟨fun _ _ => rfl, fun _ _ _ => rfl, fun _ _ _ => rfl⟩
  | succ n ih =>
    obtain ⟨hvalue, hentries, hitems⟩ := ih
    refine ⟨fun p hp => ?_, fun obj p hp => ?_, fun items p hp => ?_⟩
    · exact valueAt_succ hentries hitems hp
    · exact entriesAt_succ hvalue hentries obj hp
    · exact itemsAt_succ hvalue hitems items hp

/-! ### Termination and bounds -/

/-- From `p` on the cursor has gone forward, up to the terminator at most. -/
def Forward {α : Type} (t : CString) (p : ℕ) (r : Except CursorStop (α × ℕ)) : Prop :=
  r = .error .fuel ∨ ∃ a q, r = .ok (a, q) ∧ p ≤ q ∧ q ≤ t.len

theorem Follows.forward {α : Type} {t : CString} {p : ℕ} {r : Except CursorStop (α × ℕ)}
    {a : Option (α × Text)} (h : t.Follows p r a) : t.Forward p r := by
  cases a with
  | none => exact .inl h
  | some a =>
    obtain ⟨q, hr, hle, hlen, -⟩ := h
    exact .inr ⟨a.1, q, hr, hle, hlen⟩

/-- What a turn of one of the loops comes to: it runs out of recursion; or it takes a comma in
front of the terminator, behind which the loop goes on; or it is the last. -/
def Turn {α : Type} (t : CString) (p : ℕ) (close : UInt8)
    (again : α → ℕ → Except CursorStop (JsonVal × ℕ)) (done : α → JsonVal)
    (r : Except CursorStop (JsonVal × ℕ)) : Prop :=
  r = .error .fuel ∨ ∃ acc q c, p ≤ q ∧ q ≤ t.len ∧ t.read q = .ok c ∧
    ((c = 44 ∧ q < t.len ∧ r = again acc (q + 1)) ∨
      (c ≠ 44 ∧ r = .ok (done acc, if c = close then q + 1 else q)))

theorem turn_of_value {α : Type} {t : CString} {p q : ℕ} {close : UInt8}
    {again : α → ℕ → Except CursorStop (JsonVal × ℕ)} {done : α → JsonVal} (acc : α) (hpq : p ≤ q)
    (hq : q ≤ t.len) :
    t.Turn p close again done
      ((t.jsonSkipWsAt q).bind fun s => (t.read s).bind fun c =>
        if c = 44 then again acc (s + 1) else .ok (done acc, if c = close then s + 1 else s)) := by
  obtain ⟨q', hq', hle, hlen, -⟩ := t.jsonSkipWsAt_follows hq
  have hread := t.read_eq hlen
  right
  refine ⟨acc, q', _, by omega, hlen, hread, ?_⟩
  rw [hq']
  show _ ∨ _ ∧ (t.read q').bind _ = _
  rw [hread]
  by_cases hcomma : (t.rest q').headD 0 = 44
  · left
    refine ⟨hcomma, lt_of_read hread ?_, ?_⟩
    · rw [hcomma]
      decide
    · show (t.read q').bind _ = _
      rw [hread]
      exact if_pos hcomma
  · right
    exact ⟨hcomma, if_neg hcomma⟩

theorem entriesAt_turn (t : CString) (n : ℕ) (obj : DataList JsonVal) {p : ℕ} (hp : p ≤ t.len) :
    t.Turn p 125 (t.entriesAt n) .data (t.entriesAt (n + 1) obj p) := by
  obtain ⟨q₁, hq₁, hle₁, hlen₁, -⟩ := t.jsonSkipWsAt_follows hp
  obtain ⟨q₂, hq₂, hle₂, hlen₂, -⟩ := (t.jsonParseStringRawAt_follows hlen₁).exists_place
  obtain ⟨q₃, hq₃, hle₃, hlen₃, -⟩ := t.jsonSkipWsAt_follows hlen₂
  obtain ⟨q₄, hq₄, hle₄, hlen₄, -⟩ := t.stepIf_follows (show (58 : UInt8) ≠ 0 by decide) hlen₃
  rw [entriesAt, hq₁]
  show t.Turn p 125 _ _ ((t.jsonParseStringRawAt q₁).bind _)
  rw [hq₂]
  show t.Turn p 125 _ _ ((t.jsonSkipWsAt q₂).bind _)
  rw [hq₃]
  show t.Turn p 125 _ _ ((t.stepIf 58 q₃).bind _)
  rw [hq₄]
  show t.Turn p 125 _ _ ((t.valueAt n q₄).bind _)
  rcases ((t.decoder_follows n).1 q₄ hlen₄).forward with hfuel | ⟨v, q₅, hq₅, hle₅, hlen₅⟩
  · rw [hfuel]
    exact .inl rfl
  · rw [hq₅]
    exact turn_of_value _ (by omega) hlen₅

theorem itemsAt_turn (t : CString) (n : ℕ) (items : List JsonVal) {p : ℕ} (hp : p ≤ t.len) :
    t.Turn p 93 (t.itemsAt n) .list (t.itemsAt (n + 1) items p) := by
  rw [itemsAt]
  show t.Turn p 93 _ _ ((t.valueAt n p).bind _)
  rcases ((t.decoder_follows n).1 p hp).forward with hfuel | ⟨v, q, hq, hle, hlen⟩
  · rw [hfuel]
    exact .inl rfl
  · rw [hq]
    exact turn_of_value _ hle hlen

/-- **`json_parse` comes to an end on every string**, and with the same result whatever bound
of the recursion is above the one named. Every function of the decoder moves its cursor
forward, up to the terminator at most, and never reads behind it. Every turn of a loop takes a
comma, or is the last. -/
theorem jsonParse_terminates (t : CString) :
    (∃ v q, jsonParse t.bytes = some v ∧ q ≤ t.len ∧
      ∀ n, 2 * t.len + 1 ≤ n → t.valueAt n 0 = .ok (v, q)) ∧
    (∀ p, p ≤ t.len → (∃ q, t.jsonSkipWsAt p = .ok q ∧ p ≤ q ∧ q ≤ t.len) ∧
      (∃ str q, t.jsonParseStringRawAt p = .ok (str, q) ∧ p ≤ q ∧ q ≤ t.len) ∧
      (∃ v q, t.jsonParseNumberAt p = .ok (v, q) ∧ p ≤ q ∧ q ≤ t.len)) ∧
    (∀ n p, p ≤ t.len → t.Forward p (t.valueAt n p) ∧
      (∀ obj, t.Forward p (t.entriesAt n obj p)) ∧
      ∀ items, t.Forward p (t.itemsAt n items p)) ∧
    ∀ n p, p ≤ t.len →
      (∀ obj, t.Turn p 125 (t.entriesAt n) .data (t.entriesAt (n + 1) obj p)) ∧
      ∀ items, t.Turn p 93 (t.itemsAt n) .list (t.itemsAt (n + 1) items p) := by
  refine ⟨?_, fun p hp => ⟨?_, ?_, ?_⟩, fun n p hp => ⟨?_, ?_, ?_⟩, fun n p hp => ⟨?_, ?_⟩⟩
  · -- what is read with the bound of `json_parse` is read with every higher one
    obtain ⟨v, s, hv, -⟩ := (jsonParse_total (2 * t.len + 1)).1 t.bytes (Nat.le_refl _)
    obtain ⟨q, -, -, hlen, hs⟩ : t.Follows 0 (t.valueAt (2 * t.len + 1) 0) (some (v, s)) := by
      rw [← hv]
      exact (t.decoder_follows _).1 0 (Nat.zero_le _)
    refine ⟨v, q, ?_, hlen, fun n hn => ?_⟩
    · unfold jsonParse
      rw [cStr_eq_self t.noNul]
      exact congrArg (Option.map Prod.fst) hv
    · have hfollows := (t.decoder_follows n).1 0 (Nat.zero_le _)
      rw [show jsonParseValue n (t.rest 0) = some (v, s) from jsonParseValue_le hn hv] at hfollows
      obtain ⟨q', hq', -, hlen', hs'⟩ := hfollows
      have hsame : q' = q := by
        have hlength := congrArg List.length (hs'.symm.trans hs)
        unfold rest at hlength
        rw [List.length_drop, List.length_drop] at hlength
        unfold len at hlen hlen'
        omega
      rw [hq', hsame]
  · obtain ⟨q, hq, hle, hlen, -⟩ := t.jsonSkipWsAt_follows hp
    exact ⟨q, hq, hle, hlen⟩
  · obtain ⟨q, hq, hle, hlen, -⟩ := (t.jsonParseStringRawAt_follows hp).exists_place
    exact ⟨_, q, hq, hle, hlen⟩
  · obtain ⟨q, hq, hle, hlen, -⟩ := (t.jsonParseNumberAt_follows hp).exists_place
    exact ⟨_, q, hq, hle, hlen⟩
  · exact ((t.decoder_follows n).1 p hp).forward
  · exact fun obj => ((t.decoder_follows n).2.1 obj p hp).forward
  · exact fun items => ((t.decoder_follows n).2.2 items p hp).forward
  · exact fun obj => t.entriesAt_turn n obj hp
  · exact fun items => t.itemsAt_turn n items hp

end CString

end Jaguar
