/-
Requests on the wire, written and read back (`http.c`).

`requestText` writes a request as a client sends it. Within the sizes of the buffers of
`parse_request`, what is read back is what was written.

* `Request`, `Request.Fits` — a request, and the sizes and bytes that are allowed in it;
* `findHeaderEnd_messageText`, `headLines_messageText` — **the head ends where it was written
  to end**, and its lines are those that were written;
* `parseHeaders_lines` — the header lines, read back one by one;
* `parseRequest_requestText` — **the request that was written is the one that is read**.
-/
import Jaguar.HeaderLines

namespace Jaguar

/-! ### Writing -/

/-- A request as its sender has it. -/
structure Request where
  method : Text
  target : Text
  headers : List (Text × Text)
  body : Text

/-- `key: value`. -/
def headerLine (h : Text × Text) : Text := h.1 ++ [58, 32] ++ h.2

/-- The same with its line end. -/
def headerText (h : Text × Text) : Text := headerLine h ++ [13, 10]

namespace Request

/-- The request line without its line end. -/
def line (r : Request) : Text := r.method ++ 32 :: (r.target ++ 32 :: txt "HTTP/1.1")

/-- Everything in front of the body. -/
def head (r : Request) : Text :=
  r.line ++ [13, 10] ++ r.headers.flatMap headerText ++ [13, 10]

def text (r : Request) : Text := r.head ++ r.body

/-- The bytes that a method and a target are made of. -/
def isWordByte (c : UInt8) : Prop := isSpace c = false ∧ c ≠ 0

instance : DecidablePred isWordByte := fun c =>
  inferInstanceAs (Decidable (isSpace c = false ∧ c ≠ 0))

/-- A key and a value as they fit into a header line and into the buffers for them. -/
structure HeaderFits (h : Text × Text) : Prop where
  keyPos : 1 ≤ h.1.length
  keyLength : h.1.length ≤ 127
  key : ∀ c ∈ h.1, c ≠ 58 ∧ c ≠ 13 ∧ c ≠ 10 ∧ c ≠ 0
  valueLength : h.2.length ≤ 511
  value : ∀ c ∈ h.2, c ≠ 13 ∧ c ≠ 10 ∧ c ≠ 0
  noSpace : h.2.head? ≠ some 32

/-- A request that fits into the buffers of `parse_request`. -/
structure Fits (r : Request) : Prop where
  methodPos : 1 ≤ r.method.length
  methodLength : r.method.length ≤ 15
  method : ∀ c ∈ r.method, isWordByte c
  targetLength : r.target.length ≤ 1023
  target : ∀ c ∈ r.target, isWordByte c
  path : r.target.takeWhile (· ≠ 63) ≠ []
  headerCount : r.headers.length ≤ 48
  headers : ∀ h ∈ r.headers, HeaderFits h

end Request

/-! ### The end of the head -/

theorem findHeaderEnd_append_line {line : Text} (h : 13 ∉ line) (s : Text) :
    findHeaderEnd (line ++ s) = (findHeaderEnd s).map (· + line.length) := by
  induction line with
  | nil => simp
  | cons c line ih =>
    rw [List.mem_cons, not_or] at h
    have hne : ¬ (c :: (line ++ s)).take 4 = blankLine := fun heq => h.1 (List.cons.inj heq).1.symm
    rw [List.cons_append, findHeaderEnd, if_neg hne, ih h.2, Option.map_map]
    rfl

theorem findHeaderEnd_newline {s : Text} (h : s.head? ≠ some 13) :
    findHeaderEnd (13 :: 10 :: s) = (findHeaderEnd s).map (· + 2) := by
  have hfirst : ¬ (13 :: 10 :: s).take 4 = blankLine := by
    intro heq
    cases s with
    | nil => cases heq
    | cons c s =>
      have htail := (List.cons.inj (List.cons.inj heq).2).2
      exact h (congrArg some (List.cons.inj htail).1)
  have hsecond : ¬ (10 :: s).take 4 = blankLine := fun heq =>
    absurd (List.cons.inj heq).1 (by decide)
  rw [findHeaderEnd, if_neg hfirst, findHeaderEnd, if_neg hsecond, Option.map_map]
  rfl

/-- Nothing in the key or the value that a header loop would take for more than that. -/
structure HeaderClean (h : Text × Text) : Prop where
  key : ∀ c ∈ h.1, c ≠ 58 ∧ c ≠ 13 ∧ c ≠ 0
  value : ∀ c ∈ h.2, c ≠ 13 ∧ c ≠ 0
  noSpace : h.2.head? ≠ some 32

theorem Request.HeaderFits.clean {h : Text × Text} (hfits : Request.HeaderFits h) :
    HeaderClean h := by
  constructor
  · intro c hc
    exact ⟨(hfits.key c hc).1, (hfits.key c hc).2.1, (hfits.key c hc).2.2.2⟩
  · intro c hc
    exact ⟨(hfits.value c hc).1, (hfits.value c hc).2.2⟩
  · exact hfits.noSpace

theorem headerLine_eq (h : Text × Text) : headerLine h = h.1 ++ 58 :: (32 :: h.2) := by
  simp [headerLine]

theorem headerLine_ne_nil (h : Text × Text) : headerLine h ≠ [] := by
  rw [headerLine_eq]
  simp

theorem headerLine_bytes {h : Text × Text} (hclean : HeaderClean h) :
    ∀ c ∈ headerLine h, c ≠ 13 ∧ c ≠ 0 := by
  intro c hc
  rw [headerLine_eq, List.mem_append, List.mem_cons, List.mem_cons] at hc
  rcases hc with hc | rfl | rfl | hc
  · exact (hclean.key c hc).2
  · decide
  · decide
  · exact hclean.value c hc

theorem headerLine_head {h : Text × Text} (hclean : HeaderClean h) (s : Text) :
    (headerLine h ++ s).head? ≠ some 13 := by
  obtain ⟨c, t, hline⟩ := List.exists_cons_of_ne_nil (headerLine_ne_nil h)
  have hc := headerLine_bytes hclean c (by rw [hline]; exact List.mem_cons_self)
  rw [hline]
  exact fun heq => hc.1 (Option.some.inj heq)

/-- The first of several header lines, and what follows it. -/
theorem flatMap_headerText_cons (e : Text × Text) (headers : List (Text × Text)) (s : Text) :
    (e :: headers).flatMap headerText ++ s
      = headerLine e ++ 13 :: 10 :: (headers.flatMap headerText ++ s) := by
  rw [List.flatMap_cons, headerText, List.append_assoc, List.append_assoc]
  rfl

theorem length_flatMap_headerText_cons (e : Text × Text) (headers : List (Text × Text)) :
    ((e :: headers).flatMap headerText).length
      = (headerLine e).length + 2 + (headers.flatMap headerText).length := by
  rw [List.flatMap_cons, headerText, List.length_append, List.length_append]
  rfl

/-- From the end of the line before the headers on. -/
theorem findHeaderEnd_headers {headers : List (Text × Text)} (h : ∀ e ∈ headers, HeaderClean e)
    (body : Text) :
    findHeaderEnd (13 :: 10 :: (headers.flatMap headerText ++ 13 :: 10 :: body))
      = some ((headers.flatMap headerText).length + 4) := by
  induction headers with
  | nil => exact if_pos rfl
  | cons e headers ih =>
    rw [List.forall_mem_cons] at h
    have hline : 13 ∉ headerLine e := fun hmem => (headerLine_bytes h.1 13 hmem).1 rfl
    rw [flatMap_headerText_cons, findHeaderEnd_newline (headerLine_head h.1 _),
      findHeaderEnd_append_line hline, ih h.2, length_flatMap_headerText_cons, Option.map_some,
      Option.map_some]
    exact congrArg some (by omega)

/-! ### Messages -/

/-- A message: its first line, its headers and its body. -/
def messageText (line : Text) (headers : List (Text × Text)) (body : Text) : Text :=
  line ++ 13 :: 10 :: (headers.flatMap headerText ++ 13 :: 10 :: body)

/-- The length of its head. -/
def messageHead (line : Text) (headers : List (Text × Text)) : ℕ :=
  line.length + (headers.flatMap headerText).length + 4

theorem findCrlf_line {line : Text} (h : ∀ c ∈ line, c ≠ 13 ∧ c ≠ 0) (s : Text) :
    findCrlf (line ++ 13 :: 10 :: s) = some line.length := by
  induction line with
  | nil => exact if_pos ⟨rfl, rfl⟩
  | cons c line ih =>
    rw [List.forall_mem_cons] at h
    rw [List.cons_append, findCrlf, if_neg fun hc => h.1.1 hc.1, if_neg h.1.2, ih h.2]
    rfl

theorem drop_line (line s : Text) : (line ++ 13 :: 10 :: s).drop (line.length + 2) = s := by
  rw [← List.drop_drop, List.drop_left]
  rfl

theorem drop_messageText (line : Text) (headers : List (Text × Text)) (body : Text) :
    (messageText line headers body).drop (messageHead line headers) = body := by
  have hsplit : messageText line headers body
      = (line ++ 13 :: 10 :: headers.flatMap headerText) ++ 13 :: 10 :: body := by
    simp [messageText]
  have hlength : messageHead line headers
      = (line ++ 13 :: 10 :: headers.flatMap headerText).length + 2 := by
    simp only [messageHead, List.length_append, List.length_cons]
    omega
  rw [hsplit, hlength, drop_line]

/-- The header loops stop at the lines that were written. The blank line is two bytes behind
the end of the last one. -/
theorem headerLines_headers {headers : List (Text × Text)} (h : ∀ e ∈ headers, HeaderClean e)
    (body : Text) :
    headerLines (headers.flatMap headerText ++ 13 :: 10 :: body)
      ((headers.flatMap headerText).length - 2) = headers.map headerLine := by
  induction headers with
  | nil =>
    rw [headerLines, dif_neg (by simp)]
    rfl
  | cons e headers ih =>
    rw [List.forall_mem_cons] at h
    have hpos := List.length_pos_of_ne_nil (headerLine_ne_nil e)
    have hstop : (headerLine e).length + 2 + (headers.flatMap headerText).length - 2
        - ((headerLine e).length + 2) = (headers.flatMap headerText).length - 2 := by omega
    rw [flatMap_headerText_cons, length_flatMap_headerText_cons, headerLines, dif_pos (by omega),
      findCrlf_line (headerLine_bytes h.1)]
    dsimp only
    rw [if_neg (by omega), List.take_left, drop_line, hstop, ih h.2, List.map_cons]

section Message

variable {line : Text} (hline : ∀ c ∈ line, c ≠ 13 ∧ c ≠ 0) {headers : List (Text × Text)}
  (h : ∀ e ∈ headers, HeaderClean e) (body : Text)

include hline

theorem findCrlf_messageText : findCrlf (messageText line headers body) = some line.length :=
  findCrlf_line hline _

include h

/-- **The end of the head.** -/
theorem findHeaderEnd_messageText :
    findHeaderEnd (messageText line headers body) = some (messageHead line headers) := by
  have h13 : 13 ∉ line := fun hmem => (hline 13 hmem).1 rfl
  rw [messageText, findHeaderEnd_append_line h13, findHeaderEnd_headers h, Option.map_some,
    messageHead]
  exact congrArg some (by omega)

/-- **The lines of the head.** -/
theorem headLines_messageText :
    headLines (messageText line headers body) (messageHead line headers)
      = headers.map headerLine := by
  have hstop : messageHead line headers - 4 - (line.length + 2)
      = (headers.flatMap headerText).length - 2 := by
    rw [messageHead]
    omega
  rw [headLines, findCrlf_messageText hline]
  dsimp only
  rw [messageText, drop_line, hstop, headerLines_headers h]

end Message

namespace Request

theorem isWordByte_ne {c : UInt8} (h : isWordByte c) : c ≠ 13 ∧ c ≠ 0 := by
  refine ⟨?_, h.2⟩
  rintro rfl
  exact absurd h.1 (by decide)

theorem line_bytes {r : Request} (h : r.Fits) : ∀ c ∈ r.line, c ≠ 13 ∧ c ≠ 0 := by
  intro c hc
  simp only [line, List.mem_append, List.mem_cons] at hc
  rcases hc with hc | rfl | hc | rfl | hc
  · exact isWordByte_ne (h.method c hc)
  · decide
  · exact isWordByte_ne (h.target c hc)
  · decide
  · have hversion : ∀ c ∈ txt "HTTP/1.1", c ≠ 13 ∧ c ≠ 0 := forall_mem_of_all rfl
    exact hversion c hc

theorem text_eq (r : Request) : r.text = messageText r.line r.headers r.body := by
  simp only [text, head, messageText, List.append_assoc]
  rfl

theorem length_head (r : Request) : r.head.length = messageHead r.line r.headers := by
  simp only [head, messageHead, List.length_append, List.length_cons, List.length_nil]
  omega

end Request

/-! ### The request line -/

theorem takeWhile_word {w s : Text} (h : ∀ c ∈ w, Request.isWordByte c) :
    (w ++ 32 :: s).takeWhile (! isSpace ·) = w := by
  rw [List.takeWhile_append_of_pos fun c hc => by rw [(h c hc).1]; rfl]
  rw [List.takeWhile_cons_of_neg (by decide), List.append_nil]

theorem dropWhile_word {w s : Text} (h : ∀ c ∈ w, Request.isWordByte c) (hne : w ≠ []) :
    (w ++ s).dropWhile isSpace = w ++ s := by
  cases w with
  | nil => exact absurd rfl hne
  | cons c w => exact List.dropWhile_cons_of_neg (by rw [(h c List.mem_cons_self).1]; decide)

theorem scanTwoWords_line {method target s : Text} (hmethod : ∀ c ∈ method, Request.isWordByte c)
    (htarget : ∀ c ∈ target, Request.isWordByte c) (hpos : method ≠ []) (hpos' : target ≠ [])
    {a b : ℕ} (ha : method.length ≤ a) (hb : target.length ≤ b) :
    scanTwoWords (method ++ 32 :: (target ++ 32 :: s)) a b = [method, target] := by
  unfold scanTwoWords
  dsimp only
  rw [dropWhile_word hmethod hpos, takeWhile_word hmethod, List.take_of_length_le ha,
    List.drop_left, List.dropWhile_cons_of_pos (by decide), dropWhile_word htarget hpos',
    takeWhile_word htarget, List.take_of_length_le hb, if_neg hpos, if_neg hpos']

/-! ### The header lines -/

theorem findIdx_colon {key : Text} (h : ∀ c ∈ key, c ≠ 58) (s : Text) :
    (key ++ 58 :: s).findIdx? (· = 58) = some key.length := by
  induction key with
  | nil => rfl
  | cons c key ih =>
    rw [List.forall_mem_cons] at h
    have hne : decide (c = 58) = false := decide_eq_false h.1
    rw [List.cons_append, List.findIdx?_cons, hne, ih h.2]
    rfl

/-- A header line is cut where it was joined. -/
theorem splitHeaderLine_headerLine {h : Text × Text} (hclean : HeaderClean h) :
    splitHeaderLine (headerLine h) = some h := by
  obtain ⟨key, value⟩ := h
  have hcolon : (headerLine (key, value)).findIdx? (· = 58) = some key.length := by
    rw [headerLine_eq]
    exact findIdx_colon (fun c hc => (hclean.key c hc).1) _
  have hvalue : (32 :: value).dropWhile (· = 32) = value := by
    rw [List.dropWhile_cons_of_pos (by decide)]
    cases value with
    | nil => rfl
    | cons c value =>
      exact List.dropWhile_cons_of_neg fun heq =>
        hclean.noSpace (congrArg some (of_decide_eq_true heq))
  have hdrop : (key ++ 58 :: (32 :: value)).drop (key.length + 1) = 32 :: value := by
    rw [← List.drop_drop, List.drop_left]
    rfl
  rw [splitHeaderLine, hcolon, headerLine_eq, Option.map_some, List.take_left, hdrop, hvalue]

/-- What the buffers of a header loop hold of a line. -/
theorem parseHeaderLine_headerLine {h : Text × Text} (hclean : HeaderClean h) :
    parseHeaderLine (headerLine h) = some (h.1.take 127, h.2.take 511) := by
  rw [parseHeaderLine_eq, splitHeaderLine_headerLine hclean, Option.map_some]

theorem filterMap_parseHeaderLine {headers : List (Text × Text)}
    (h : ∀ e ∈ headers, HeaderClean e) :
    (headers.map headerLine).filterMap parseHeaderLine
      = headers.map fun e => (e.1.take 127, e.2.take 511) := by
  induction headers with
  | nil => rfl
  | cons e headers ih =>
    rw [List.forall_mem_cons] at h
    rw [List.map_cons, List.filterMap_cons, parseHeaderLine_headerLine h.1, ih h.2, List.map_cons]

/-- **The header lines.** -/
theorem parseHeaders_lines {headers : List (Text × Text)}
    (h : ∀ e ∈ headers, Request.HeaderFits e) (hcount : headers.length ≤ 48) (body : Text) :
    parseHeaders (headers.flatMap headerText ++ 13 :: 10 :: body)
      ((headers.flatMap headerText).length - 2) [] = headers := by
  have hclean : ∀ e ∈ headers, HeaderClean e := fun e he => (h e he).clean
  have hcut : headers.map (fun e => (e.1.take 127, e.2.take 511)) = headers := by
    refine (List.map_congr_left fun e he => ?_).trans (List.map_id headers)
    rw [List.take_of_length_le (h e he).keyLength, List.take_of_length_le (h e he).valueLength]
    rfl
  rw [parseHeaders_eq_take _ _ [] (Nat.zero_le _), headerLines_headers hclean,
    filterMap_parseHeaderLine hclean, hcut, List.nil_append]
  exact List.take_of_length_le hcount

/-- **A request is read as it was written.** Its head ends where the body begins; method, target
and headers are those that were sent, the target split at its first question mark. -/
theorem parseRequest_requestText {r : Request} (h : r.Fits) :
    findHeaderEnd r.text = some r.head.length ∧ r.text.drop r.head.length = r.body ∧
      parseRequest r.text r.head.length
        = (true, ⟨r.method, r.target.takeWhile (· ≠ 63), (r.target.dropWhile (· ≠ 63)).tail,
            r.headers, r.body⟩) := by
  have hbody : r.text.drop r.head.length = r.body := List.drop_left
  have hclean : ∀ e ∈ r.headers, HeaderClean e := fun e he => (h.headers e he).clean
  refine ⟨?_, hbody, ?_⟩
  · rw [r.text_eq, r.length_head]
    exact findHeaderEnd_messageText (Request.line_bytes h) hclean _
  have hmethod : r.method ≠ [] := List.ne_nil_of_length_pos h.methodPos
  have htarget : r.target ≠ [] := by
    intro hnil
    exact h.path (by rw [hnil]; rfl)
  have hlength : r.line.length ≤ 2047 := by
    have h₁ := h.methodLength
    have h₂ := h.targetLength
    have h₃ : (txt "HTTP/1.1").length = 8 := rfl
    simp only [Request.line, List.length_append, List.length_cons]
    omega
  have hcrlf : findCrlf r.text = some r.line.length := by
    rw [r.text_eq]
    exact findCrlf_messageText (Request.line_bytes h) _
  have htake : (r.text.take r.line.length).take 2047 = r.line := by
    rw [r.text_eq, messageText, List.take_left, List.take_of_length_le hlength]
  have hdrop : r.text.drop (r.line.length + 2)
      = r.headers.flatMap headerText ++ 13 :: 10 :: r.body := by
    rw [r.text_eq, messageText, drop_line]
  have hstop : r.head.length - 4 - (r.line.length + 2)
      = (r.headers.flatMap headerText).length - 2 := by
    rw [r.length_head, messageHead]
    omega
  have hquery : r.target.drop ((r.target.takeWhile (· ≠ 63)).length + 1)
      = (r.target.dropWhile (· ≠ 63)).tail := by
    have hsplit : (r.target.takeWhile (· ≠ 63) ++ r.target.dropWhile (· ≠ 63)).drop
        (r.target.takeWhile (· ≠ 63)).length = r.target.dropWhile (· ≠ 63) := List.drop_left
    rw [List.takeWhile_append_dropWhile] at hsplit
    rw [← List.tail_drop, hsplit]
  rw [parseRequest, hcrlf]
  dsimp only
  rw [htake, hdrop, hstop, hbody, Request.line,
    scanTwoWords_line h.method h.target hmethod htarget h.methodLength h.targetLength,
    parseHeaders_lines h.headers h.headerCount, requestOfWords, hquery]

/-- A request with a query, two headers, one of them empty, and a body that looks like more. -/
theorem parseRequest_requestText_get :
    parseRequest (Request.text ⟨txt "GET", txt "/a?b=1", [(txt "Host", txt "x"), (txt "E", [])],
        txt "X: y\r\n\r\n"⟩)
      (Request.head ⟨txt "GET", txt "/a?b=1", [(txt "Host", txt "x"), (txt "E", [])],
        txt "X: y\r\n\r\n"⟩).length
      = (true, ⟨txt "GET", txt "/a", txt "b=1", [(txt "Host", txt "x"), (txt "E", [])],
          txt "X: y\r\n\r\n"⟩) := by
  have hfits : Request.Fits ⟨txt "GET", txt "/a?b=1", [(txt "Host", txt "x"), (txt "E", [])],
      txt "X: y\r\n\r\n"⟩ := by
    refine ⟨by decide, by decide, forall_mem_of_all rfl, by decide, forall_mem_of_all rfl,
      by decide, by decide, ?_⟩
    intro h hh
    rcases List.mem_cons.mp hh with rfl | hh
    · exact ⟨by decide, by decide, forall_mem_of_all rfl, by decide, forall_mem_of_all rfl,
        by decide⟩
    · obtain rfl := List.mem_singleton.mp hh
      exact ⟨by decide, by decide, forall_mem_of_all rfl, by decide, forall_mem_of_all rfl,
        by decide⟩
  exact (parseRequest_requestText hfits).2.2

end Jaguar
