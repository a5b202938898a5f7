/-
Header lines, and the scanners that walk over them (`http.c`, `ws.c`).

`parse_request`, `do_request` and `extract_header` each have a loop of their own over the
lines between the first CRLF and the blank line.

* `headerLines` — the lines such a loop stops at;
* `parseHeaders_eq_take` — `parse_request` keeps the first 48 of them that have a colon;
* `extract_header_eq_get_header` — the lookup of the handshake finds what `get_header` finds
  in the parsed request.
-/
import Jaguar.HttpSegments

namespace Jaguar

/-! ### The walk -/

/-- The lines a header loop stops at, from the line at `s` on; the blank line is `stop` bytes
ahead. -/
def headerLines (s : Text) (stop : ℕ) : List Text :=
  if _hstop : 0 < stop then
    match findCrlf s with
    | none => []
    | some nl =>
      if stop < nl then []
      else s.take nl :: headerLines (s.drop (nl + 2)) (stop - (nl + 2))
  else []
termination_by stop

/-- The header lines of a buffer whose head ends at `headerEnd`. -/
def headLines (b : Text) (headerEnd : ℕ) : List Text :=
  match findCrlf b with
  | none => []
  | some lineEnd => headerLines (b.drop (lineEnd + 2)) (headerEnd - 4 - (lineEnd + 2))

/-- What precedes the CRLF that `strstr` finds holds no NUL. -/
theorem zero_not_mem_line {s : Text} {nl : ℕ} (h : findCrlf s = some nl) : 0 ∉ s.take nl := by
  induction s generalizing nl with
  | nil => cases h
  | cons c s ih =>
    unfold findCrlf at h
    split at h
    · obtain rfl := Option.some.inj h
      exact List.not_mem_nil
    · split at h
      · cases h
      · next hc =>
        obtain ⟨m, hm, rfl⟩ := Option.map_eq_some_iff.mp h
        rw [List.take_succ_cons, List.mem_cons, not_or]
        exact ⟨Ne.symm hc, ih hm⟩

theorem findCrlf_lt {s : Text} {nl : ℕ} (h : findCrlf s = some nl) : nl + 2 ≤ s.length := by
  induction s generalizing nl with
  | nil => cases h
  | cons c s ih =>
    unfold findCrlf at h
    split at h
    · next hc =>
      obtain rfl := Option.some.inj h
      cases s with
      | nil => cases hc.2
      | cons d s => simp
    · split at h
      · cases h
      · obtain ⟨m, hm, rfl⟩ := Option.map_eq_some_iff.mp h
        have := ih hm
        rw [List.length_cons]
        omega

/-- The walk reads nothing behind the blank line. -/
theorem headerLines_append (n : ℕ) : ∀ u t : Text, u.length = n →
    headerLines (u ++ (blankLine ++ t)) n = headerLines (u ++ blankLine) n := by
  induction n using Nat.strongRecOn with
  | ind n ih =>
    intro u t hn
    rw [headerLines.eq_def, headerLines.eq_def (u ++ blankLine)]
    split
    · next hpos =>
      rw [findCrlf_append]
      cases hnl : findCrlf (u ++ blankLine) with
      | none => rfl
      | some nl =>
        have hle : nl ≤ u.length := @findCrlf_le u [] _ (by simpa using hnl)
        dsimp only
        rw [if_neg (by omega), if_neg (by omega), List.take_append_of_le_length hle,
          List.take_append_of_le_length hle]
        refine congrArg _ ?_
        by_cases hmore : nl + 2 ≤ u.length
        · rw [List.drop_append_of_le_length hmore, List.drop_append_of_le_length hmore]
          exact ih _ (by omega) _ _ (by rw [List.length_drop, hn])
        · -- the line just read was the last one
          have hstop : n - (nl + 2) = 0 := by omega
          rw [hstop, headerLines.eq_def, headerLines.eq_def _ 0]
          rfl
    · rfl

/-- A prefix that holds the head has the header lines of the stream. -/
theorem headLines_take {s : Text} {n k : ℕ} (h : findHeaderEnd s = some n) (hk : n ≤ k) :
    headLines (s.take k) n = headLines s n := by
  obtain ⟨u, t, rfl, rfl, htake⟩ := exists_head_take h hk
  have hsame : ∀ t' : Text, headLines (u ++ (blankLine ++ t')) (u.length + 4)
      = headLines (u ++ blankLine) (u.length + 4) := by
    intro t'
    unfold headLines
    rw [findCrlf_append]
    cases hline : findCrlf (u ++ blankLine) with
    | none => rfl
    | some i =>
      dsimp only
      by_cases hmore : i + 2 ≤ u.length
      · rw [List.drop_append_of_le_length hmore, List.drop_append_of_le_length hmore]
        exact headerLines_append _ _ _ (by rw [List.length_drop]; omega)
      · have hstop : u.length + 4 - 4 - (i + 2) = 0 := by omega
        rw [hstop, headerLines.eq_def, headerLines.eq_def _ 0]
        rfl
  rw [htake, hsame, hsame]

/-! ### The header loop of `parse_request` -/

/-- A header line cut at its first colon, without the spaces in front of the value. -/
def splitHeaderLine (line : Text) : Option (Text × Text) :=
  (line.findIdx? (· = 58)).map fun colon =>
    (line.take colon, (line.drop (colon + 1)).dropWhile (· = 32))

theorem parseHeaderLine_eq (line : Text) :
    parseHeaderLine line = (splitHeaderLine line).map fun h => (h.1.take 127, h.2.take 511) := by
  unfold parseHeaderLine splitHeaderLine
  cases line.findIdx? (· = 58) <;> rfl

/-- **`parse_request` keeps the first 48 header lines that have a colon.** -/
theorem parseHeaders_eq_take (s : Text) (stop : ℕ) (acc : List (Text × Text))
    (hacc : acc.length ≤ 48) :
    parseHeaders s stop acc
      = acc ++ ((headerLines s stop).filterMap parseHeaderLine).take (48 - acc.length) := by
  induction s, stop, acc using parseHeaders.induct with
  | case1 s stop acc hpos hnone =>
    rw [parseHeaders, dif_pos hpos, headerLines, dif_pos hpos, hnone]
    simp
  | case2 s stop acc hpos nl hnl hlt =>
    rw [parseHeaders, dif_pos hpos, headerLines, dif_pos hpos, hnl]
    simp [hlt]
  | case3 s stop acc hpos nl hnl hge headers ih =>
    rw [parseHeaders, dif_pos hpos, headerLines, dif_pos hpos, hnl]
    dsimp only
    rw [if_neg hge, if_neg hge, List.filterMap_cons]
    cases hline : parseHeaderLine (s.take nl) with
    | none =>
      have hheaders : headers = acc := by
        simp only [headers, hline]
      rw [hheaders] at ih
      exact ih hacc
    | some h =>
      by_cases hroom : acc.length < 48
      · have hheaders : headers = acc ++ [h] := by
          simp only [headers, hline, dif_pos hroom]
        rw [hheaders, List.length_append, List.length_singleton] at ih
        have hsucc : 48 - acc.length = 48 - (acc.length + 1) + 1 := by omega
        dsimp only
        rw [if_pos hroom, ih hroom, hsucc, List.take_succ_cons, List.append_assoc,
          List.singleton_append]
      · have hheaders : headers = acc := by
          simp only [headers, hline, dif_neg hroom]
        rw [hheaders] at ih
        have hzero : 48 - acc.length = 0 := by omega
        dsimp only
        rw [if_neg hroom, ih hacc, hzero, List.take_zero, List.take_zero]
  | case4 s stop acc hneg =>
    rw [parseHeaders, dif_neg hneg, headerLines, dif_neg hneg]
    simp

/-- The headers of a parsed request. -/
theorem parseRequest_headers {b : Text} {n : ℕ} (h : (parseRequest b n).1 = true) :
    (parseRequest b n).2.headers = ((headLines b n).filterMap parseHeaderLine).take 48 := by
  unfold parseRequest at h ⊢
  unfold headLines
  cases hline : findCrlf b with
  | none =>
    rw [hline] at h
    cases h
  | some lineEnd =>
    rw [hline] at h
    dsimp only at h ⊢
    rw [parseHeaders_eq_take _ _ [] (Nat.zero_le _), List.nil_append] at h ⊢
    generalize scanTwoWords ((b.take lineEnd).take 2047) 15 1023 = words at h ⊢
    rcases words with _ | ⟨_, _ | ⟨_, _ | _⟩⟩
    · cases h
    · cases h
    · rfl
    · cases h

theorem parseRequest_failed_headers {b : Text} {n : ℕ} (h : (parseRequest b n).1 = false) :
    (parseRequest b n).2.headers = [] := by
  unfold parseRequest at h ⊢
  cases hline : findCrlf b with
  | none => rfl
  | some lineEnd =>
    rw [hline] at h
    dsimp only at h ⊢
    generalize scanTwoWords ((b.take lineEnd).take 2047) 15 1023 = words at h ⊢
    rcases words with _ | ⟨_, _ | ⟨_, _ | _⟩⟩
    · rfl
    · rfl
    · cases h
    · rfl

/-! ### The lookup of the handshake -/

/-- `strncasecmp(a, b, n) == 0`. -/
def strncaseEq (a b : Text) (n : ℕ) : Bool :=
  ((cStr a).take n).map toLower = ((cStr b).take n).map toLower

/-- The loop of `extract_header`; `none` when it returns 0. -/
def extractHeaderLoop (s : Text) (stop : ℕ) (name : Text) (size : ℕ) : Option Text :=
  if _hstop : 0 < stop then
    match findCrlf s with
    | none => none
    | some nl =>
      if stop < nl then none
      else
        match (s.take nl).findIdx? (· = 58) with
        | some klen =>
          if strncaseEq s name klen ∧ (cStr name).length = klen then
            let value := ((s.take nl).drop (klen + 1)).dropWhile (· = 32)
            let vlen := if size ≤ value.length then size - 1 else value.length
            some (value.take vlen)
          else extractHeaderLoop (s.drop (nl + 2)) (stop - (nl + 2)) name size
        | none => extractHeaderLoop (s.drop (nl + 2)) (stop - (nl + 2)) name size
  else none
termination_by stop

/-- `extract_header` with an output buffer of `size` bytes: what it leaves there when it
returns 1, `none` (and an empty buffer) when it returns 0. -/
def extractHeader (b : Text) (headerEnd : ℕ) (name : Text) (size : ℕ) : Option Text :=
  match findCrlf b with
  | none => none
  | some lineEnd =>
    extractHeaderLoop (b.drop (lineEnd + 2)) (headerEnd - 4 - (lineEnd + 2)) name size

/-- The value of the first line whose name matches ignoring case. -/
def firstValue (lines : List Text) (name : Text) : Option Text :=
  ((lines.filterMap splitHeaderLine).find? fun h => strcaseEq h.1 name).map Prod.snd

theorem strcaseEq_length {a b : Text} (h : strcaseEq a b = true) : a.length = b.length := by
  have := congrArg List.length (of_decide_eq_true h)
  simpa using this

/-- The comparison of `extract_header` for the name on a line. -/
theorem strncaseEq_iff {s name : Text} {nl klen : ℕ} (hnl : findCrlf s = some nl)
    (hklen : klen ≤ nl) (hname : 0 ∉ name) :
    strncaseEq s name klen = true ∧ (cStr name).length = klen ↔
      strcaseEq ((s.take nl).take klen) name = true := by
  have hlt := findCrlf_lt hnl
  have hlen : ((s.take nl).take klen).length = klen := by
    rw [List.length_take, List.length_take]
    omega
  have hline : (cStr s).take klen = (s.take nl).take klen := by
    have hsplit : cStr s = s.take nl ++ cStr (s.drop nl) := by
      conv_lhs => rw [← List.take_append_drop nl s]
      refine List.takeWhile_append_of_pos fun c hc => ?_
      have hne : c ≠ 0 := fun heq => zero_not_mem_line hnl (heq ▸ hc)
      simpa using hne
    rw [hsplit, List.take_append_of_le_length (by rw [List.length_take]; omega)]
  rw [cStr_eq_self hname, strncaseEq, hline, cStr_eq_self hname, strcaseEq]
  constructor
  · rintro ⟨heq, rfl⟩
    rwa [List.take_length] at heq
  · intro heq
    have hsame := strcaseEq_length heq
    rw [hlen] at hsame
    rw [hsame, List.take_length]
    exact ⟨hsame ▸ heq, rfl⟩

/-- The copy into a buffer of `size` bytes. -/
theorem take_vlen {value : Text} {size : ℕ} :
    value.take (if size ≤ value.length then size - 1 else value.length) = value.take (size - 1) := by
  split
  · rfl
  · rw [List.take_length, List.take_of_length_le (by omega)]

/-- The loop of `extract_header` finds the first value. -/
theorem extractHeaderLoop_eq (s : Text) (stop : ℕ) {name : Text} (hname : 0 ∉ name) (size : ℕ) :
    extractHeaderLoop s stop name size
      = (firstValue (headerLines s stop) name).map (List.take (size - 1)) := by
  induction hn : stop using Nat.strongRecOn generalizing s stop with
  | ind n ih =>
    subst hn
    rw [extractHeaderLoop, headerLines]
    split
    · next hpos =>
      cases hnl : findCrlf s with
      | none => rfl
      | some nl =>
        dsimp only
        split
        · rfl
        · have hrest := ih (stop - (nl + 2)) (by omega) (s.drop (nl + 2)) _ rfl
          unfold firstValue
          rw [List.filterMap_cons, splitHeaderLine]
          cases hcolon : (s.take nl).findIdx? (· = 58) with
          | none =>
            dsimp only [Option.map_none]
            exact hrest
          | some klen =>
            have hklen : klen < (s.take nl).length := (List.findIdx?_eq_some_iff_findIdx_eq.mp hcolon).1
            rw [List.length_take] at hklen
            have hcmp := @strncaseEq_iff s name nl klen hnl (by omega) hname
            dsimp only [Option.map_some]
            rw [List.find?_cons]
            by_cases hmatch : strcaseEq ((s.take nl).take klen) name = true
            · rw [if_pos (hcmp.mpr hmatch), hmatch, take_vlen]
              rfl
            · rw [if_neg (mt hcmp.mp hmatch), Bool.eq_false_iff.mpr hmatch]
              exact hrest
    · rfl

theorem extractHeader_eq (b : Text) (n : ℕ) {name : Text} (hname : 0 ∉ name) (size : ℕ) :
    extractHeader b n name size
      = (firstValue (headLines b n) name).map (List.take (size - 1)) := by
  unfold extractHeader headLines
  cases findCrlf b with
  | none => rfl
  | some lineEnd => exact extractHeaderLoop_eq _ _ hname size

/-- A key cut to 127 bytes is no name shorter than that. -/
theorem strcaseEq_take {key name : Text} (h : name.length < 127) :
    strcaseEq (key.take 127) name = strcaseEq key name := by
  by_cases hlong : key.length ≤ 127
  · rw [List.take_of_length_le hlong]
  · have hno : ∀ a : Text, a.length ≠ name.length → strcaseEq a name = false :=
      fun a hne => Bool.eq_false_iff.mpr fun heq => hne (strcaseEq_length heq)
    rw [hno _ (by rw [List.length_take]; omega), hno _ (by omega)]

/-- `get_header` on headers cut to the sizes of `Header`. -/
theorem find_cut (hs : List (Text × Text)) {name : Text} (h : name.length < 127) :
    (hs.map fun e => (e.1.take 127, e.2.take 511)).find? (fun e => strcaseEq e.1 name)
      = (hs.find? fun e => strcaseEq e.1 name).map fun e => (e.1.take 127, e.2.take 511) := by
  induction hs with
  | nil => rfl
  | cons e hs ih =>
    rw [List.map_cons, List.find?_cons, List.find?_cons, strcaseEq_take h]
    cases strcaseEq e.1 name with
    | true => rfl
    | false => exact ih

/-- **The two scanners find the same header.**  For every head that parses and has at most 48
header lines, `extract_header` leaves what `get_header` finds in the parsed request: the
value of the first line whose name matches ignoring case, cut to the output buffer, or
nothing. -/
theorem extract_header_eq_get_header {b : Text} {n : ℕ} (hok : (parseRequest b n).1 = true)
    (hlines : (headLines b n).length ≤ 48) {name : Text} (hnul : 0 ∉ name)
    (hname : name.length < 127) {size : ℕ} (hsize : size ≤ 512) :
    (extractHeader b n name size).getD [] = getHeader (parseRequest b n).2 name size ∧
      (extractHeader b n name size).getD []
        = ((firstValue (headLines b n) name).getD []).take (size - 1) := by
  have hall : (parseRequest b n).2.headers
      = ((headLines b n).filterMap splitHeaderLine).map fun e => (e.1.take 127, e.2.take 511) := by
    rw [parseRequest_headers hok, List.take_of_length_le
      (le_trans (List.length_filterMap_le _ _) hlines), List.map_filterMap]
    exact List.filterMap_congr fun line _ => parseHeaderLine_eq line
  unfold getHeader
  rw [extractHeader_eq b n hnul, hall, find_cut _ hname]
  unfold firstValue
  cases ((headLines b n).filterMap splitHeaderLine).find? fun e => strcaseEq e.1 name with
  | none => exact ⟨rfl, by simp⟩
  | some e =>
    refine ⟨?_, rfl⟩
    show e.2.take (size - 1) = (e.2.take 511).take (size - 1)
    rw [List.take_take, Nat.min_eq_left (by omega)]

/-- A handshake whose key comes twice, behind a line without a colon. -/
def handshake : Text :=
  txt "GET /chat HTTP/1.1\r\nnote\r\nsec-websocket-key:  dGhl\r\nSec-WebSocket-Key: x\r\n\r\n"

theorem extract_header_handshake :
    (extractHeader handshake 76 (txt "Sec-WebSocket-Key") 256).getD []
      = getHeader (parseRequest handshake 76).2 (txt "Sec-WebSocket-Key") 256 :=
  (extract_header_eq_get_header (by decide +kernel) (by decide +kernel) (by decide) (by decide)
    (by decide)).1

end Jaguar
