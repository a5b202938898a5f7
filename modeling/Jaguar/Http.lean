/-
The HTTP server's side of one connection (`http.c`), up to the point where the
request is handed to a route handler.

* `findHeaderEnd`, `parseRequest`, `contentLengthOf` — the wire format, read from
  the buffer the connection has collected so far;
* `matchRoute`, `parseQueryString` — routing;
* `readRequest`, `httpConnEntry` — the read loop: after every `recv` the head is
  looked for again and Content-Length is taken from a fresh parse;
* `parseRequest_append` — of a buffer whose head is complete, method, path, query
  and headers depend on the head only.
-/
import Jaguar.DataList

namespace Jaguar

/-! ### C library -/

/-- `strstr(s, "\r\n") - s` of a C string. -/
def findCrlf : Text → Option ℕ
  | [] => none
  | c :: s =>
    if c = 13 ∧ s.head? = some 10 then some 0
    else if c = 0 then none
    else (findCrlf s).map (· + 1)

/-- The tokens `strtok_r` yields for a one-byte delimiter set. -/
def strtok (sep : UInt8) (s : Text) : List Text :=
  ((cStr s).splitOn sep).filter (· ≠ [])

/-- `sscanf(s, "%<a>s %<b>s", …)`: the words read, fewer than two when input ends. -/
def scanTwoWords (s : Text) (a b : ℕ) : List Text :=
  let s := s.dropWhile isSpace
  let first := (s.takeWhile (! isSpace ·)).take a
  let s := (s.drop first.length).dropWhile isSpace
  let second := (s.takeWhile (! isSpace ·)).take b
  if first = [] then [] else if second = [] then [first] else [first, second]

/-! ### Wire format -/

/-- The blank line that ends a head, with the line end before it. -/
def blankLine : Text := [13, 10, 13, 10]

/-- `find_header_end`: the index behind the first blank line. -/
def findHeaderEnd : Text → Option ℕ
  | [] => none
  | c :: s => if (c :: s).take 4 = blankLine then some 4 else (findHeaderEnd s).map (· + 1)

structure ParsedRequest where
  method : Text
  path : Text
  query : Text
  headers : List (Text × Text)
  body : Text
  deriving DecidableEq

/-- What `memset` leaves. -/
def ParsedRequest.zero : ParsedRequest := ⟨[], [], [], [], []⟩

/-- `get_header` with an output buffer of `size` bytes. -/
def getHeader (req : ParsedRequest) (name : Text) (size : ℕ) : Text :=
  match req.headers.find? (fun h => strcaseEq h.1 name) with
  | some h => h.2.take (size - 1)
  | none => []

/-- The key and value of one header line (which holds no NUL: `strstr` would have
stopped there), cut to the sizes of `Header`. -/
def parseHeaderLine (line : Text) : Option (Text × Text) :=
  match line.findIdx? (· = 58) with
  | some colon =>
    some ((line.take colon).take 127, ((line.drop (colon + 1)).dropWhile (· = 32)).take 511)
  | none => none

/-- The header loop from the line at `s` on; the blank line is `stop` bytes ahead. -/
def parseHeaders (s : Text) (stop : ℕ) (headers : List (Text × Text)) : List (Text × Text) :=
  if _hstop : 0 < stop then
    match findCrlf s with
    | none => headers
    | some nl =>
      if stop < nl then headers
      else
        let headers := match parseHeaderLine (s.take nl) with
          | some h => if headers.length < 48 then headers ++ [h] else headers
          | none => headers
        parseHeaders (s.drop (nl + 2)) (stop - (nl + 2)) headers
  else headers
termination_by stop

/-- What `parse_request` makes of the words of the request line. -/
def requestOfWords (words : List Text) (headers : List (Text × Text)) (body : Text) :
    Bool × ParsedRequest :=
  match words with
  | [method, fullPath] =>
    let path := fullPath.takeWhile (· ≠ 63)
    (true, { method, path, query := fullPath.drop (path.length + 1), headers, body })
  | [method] => (false, { ParsedRequest.zero with method })
  | _ => (false, .zero)

/-- `parse_request`: its return value and what it leaves in `*req`. -/
def parseRequest (b : Text) (headerEnd : ℕ) : Bool × ParsedRequest :=
  match findCrlf b with
  | none => (false, .zero)
  | some lineEnd =>
    requestOfWords (scanTwoWords ((b.take lineEnd).take 2047) 15 1023)
      (parseHeaders (b.drop (lineEnd + 2)) (headerEnd - 4 - (lineEnd + 2)) []) (b.drop headerEnd)

/-- `content_length_of`. -/
def contentLengthOf (b : Text) (headerEnd : ℕ) : ℤ :=
  match getHeader (parseRequest b headerEnd).2 (txt "Content-Length") 64 with
  | [] => 0
  | cl => atol cl

/-! ### Routes -/

structure Route (η : Type*) where
  /-- Stored in upper case. -/
  method : Text
  pattern : Text
  handler : η

/-- The segment loop of `match_route`. -/
def matchSegments : List Text → List Text → DataList Text → Option (DataList Text)
  | [], [], params => some params
  | pat :: pats, seg :: segs, params =>
    if 2 ≤ pat.length ∧ pat.head? = some 123 ∧ pat.getLast? = some 125 then
      matchSegments pats segs (dataSet params ((pat.drop 1).take (min (pat.length - 2) 127)) seg)
    else if pat = seg then matchSegments pats segs params
    else none
  | _, _, _ => none

/-- `match_route`, with the parameters it leaves in an empty `params_out`. -/
def matchRoute {η : Type*} (routes : List (Route η)) (method path : Text) :
    Option (Route η × DataList Text) :=
  match routes with
  | [] => none
  | r :: rest =>
    if strcaseEq r.method method then
      match matchSegments (strtok 47 (r.pattern.take 1023)) (strtok 47 (path.take 1023)) [] with
      | some params => some (r, params.foldl (fun out e => dataSet out e.1 e.2) [])
      | none => matchRoute rest method path
    else matchRoute rest method path

/-- `parse_query_string`. -/
def parseQueryString (q : Text) : DataList Text :=
  (strtok 38 (q.take 1023)).foldl
    (fun out pair =>
      let key := pair.takeWhile (· ≠ 61)
      dataSet out key (pair.drop (key.length + 1))) []

/-! ### The connection -/

/-- The request object given to a handler. -/
structure RequestValue where
  method : Text
  path : Text
  params : DataList Text
  query : DataList Text
  headers : DataList Text
  body : Text
  deriving DecidableEq

def makeRequest (req : ParsedRequest) (params : DataList Text) : RequestValue where
  method := req.method
  path := req.path
  params := params
  query := parseQueryString req.query
  headers := req.headers.foldl (fun d h => dataSet d h.1 h.2) []
  body := cStr req.body

/-- `header_end + content_len`, as a `size_t`. -/
def requestLength (b : Text) (headerEnd : ℕ) : ℕ :=
  ((headerEnd + contentLengthOf b headerEnd) % 2 ^ 64 : ℤ).toNat

/-- The test at the head of the read loop. -/
def requestReady (b : Text) : Option ℕ :=
  match findHeaderEnd b with
  | some headerEnd => if requestLength b headerEnd ≤ b.length then some headerEnd else none
  | none => none

/-- The guard on the buffer's size. -/
def maxRequest : ℕ := 4 * 1024 * 1024

/-- The read loop: the buffer and the end of its head when it is left to dispatch,
`none` when the connection is closed instead.  `chunks` is what `recv` delivers. -/
def readRequest (b : Text) (chunks : List Text) : Option (Text × ℕ) :=
  match requestReady b with
  | some headerEnd => some (b, headerEnd)
  | none =>
    match chunks with
    | [] => none
    | chunk :: chunks =>
      if maxRequest < (b ++ chunk).length then none else readRequest (b ++ chunk) chunks

/-- How a connection ends: closed without a request, answered 404, or handed to a
route's handler with a request object. -/
inductive ConnOutcome (η : Type*)
  | closed
  | notFound
  | handled (handler : η) (req : RequestValue)

/-- `http_conn_entry` up to the call of the handler. -/
def httpConnEntry {η : Type*} (routes : List (Route η)) (chunks : List Text) : ConnOutcome η :=
  match readRequest [] chunks with
  | none => .closed
  | some (b, headerEnd) =>
    let req := (parseRequest b headerEnd).2
    match matchRoute routes req.method req.path with
    | some (route, params) => .handled route.handler (makeRequest req params)
    | none => .notFound

/-! ### What the head determines -/

/-- The first CRLF of a string that contains one is not moved by what follows. -/
theorem findCrlf_append (u t : Text) :
    findCrlf (u ++ (blankLine ++ t)) = findCrlf (u ++ blankLine) := by
  induction u with
  | nil => rfl
  | cons c u ih =>
    have hhead : (u ++ (blankLine ++ t)).head? = (u ++ blankLine).head? := by cases u <;> rfl
    simp only [List.cons_append, findCrlf, hhead, ih]

theorem findCrlf_le {u t : Text} {i : ℕ} (h : findCrlf (u ++ (blankLine ++ t)) = some i) :
    i ≤ u.length := by
  induction u generalizing i with
  | nil =>
    simp [blankLine, findCrlf] at h
    simp [← h]
  | cons c u ih =>
    simp only [List.cons_append, findCrlf] at h
    split at h
    · simp at h
      omega
    · split at h
      · cases h
      · obtain ⟨j, hj, rfl⟩ := Option.map_eq_some_iff.mp h
        exact Nat.succ_le_succ (ih hj)

/-- The header loop reads nothing behind the blank line. -/
theorem parseHeaders_append (n : ℕ) : ∀ (u t : Text) (headers : List (Text × Text)),
    u.length = n →
    parseHeaders (u ++ (blankLine ++ t)) n headers = parseHeaders (u ++ blankLine) n headers := by
  induction n using Nat.strongRecOn with
  | ind n ih =>
    intro u t headers hn
    rw [parseHeaders.eq_def, parseHeaders.eq_def (u ++ blankLine)]
    split
    · next hpos =>
      rw [findCrlf_append]
      cases hnl : findCrlf (u ++ blankLine) with
      | none => rfl
      | some nl =>
        have hle : nl ≤ u.length := findCrlf_le (t := []) (by simpa using hnl)
        simp only [show ¬ n < nl by omega, if_false]
        rw [List.take_append_of_le_length hle, List.take_append_of_le_length hle]
        by_cases hmore : nl + 2 ≤ u.length
        · rw [List.drop_append_of_le_length hmore, List.drop_append_of_le_length hmore]
          exact ih _ (by omega) _ _ _ (by simp; omega)
        · -- the line just read was the last one
          rw [show n - (nl + 2) = 0 by omega]
          rw [parseHeaders.eq_def, parseHeaders.eq_def _ 0]
          rfl
    · rfl

theorem requestOfWords_body (words : List Text) (headers : List (Text × Text)) (t t' : Text) :
    requestOfWords words headers t = ((requestOfWords words headers t').1,
      { (requestOfWords words headers t').2 with
        body := if (requestOfWords words headers t').1 then t else [] }) := by
  rcases words with _ | ⟨_, _ | ⟨_, _ | _⟩⟩ <;> rfl

/-- **Of a buffer with a complete head, only the body depends on what follows the head.** -/
theorem parseRequest_append (u t : Text) :
    parseRequest (u ++ (blankLine ++ t)) (u.length + 4) =
      ((parseRequest (u ++ blankLine) (u.length + 4)).1,
        { (parseRequest (u ++ blankLine) (u.length + 4)).2 with
          body := if (parseRequest (u ++ blankLine) (u.length + 4)).1 then t else [] }) := by
  unfold parseRequest
  rw [findCrlf_append]
  cases hline : findCrlf (u ++ blankLine) with
  | none => rfl
  | some i =>
    have hle : i ≤ u.length := findCrlf_le (t := []) (by simpa using hline)
    have hbody : (u ++ (blankLine ++ t)).drop (u.length + 4) = t := by
      rw [← List.drop_drop, List.drop_left]
      rfl
    have hheaders : parseHeaders ((u ++ (blankLine ++ t)).drop (i + 2))
          (u.length + 4 - 4 - (i + 2)) []
        = parseHeaders ((u ++ blankLine).drop (i + 2)) (u.length + 4 - 4 - (i + 2)) [] := by
      by_cases hmore : i + 2 ≤ u.length
      · rw [List.drop_append_of_le_length hmore, List.drop_append_of_le_length hmore]
        exact parseHeaders_append _ _ _ _ (by simp)
      · rw [show u.length + 4 - 4 - (i + 2) = 0 by omega]
        rw [parseHeaders.eq_def, parseHeaders.eq_def _ 0]
        rfl
    have htake : (u ++ (blankLine ++ t)).take i = (u ++ blankLine).take i := by
      rw [List.take_append_of_le_length hle, List.take_append_of_le_length hle]
    dsimp only
    rw [htake, hbody, hheaders]
    exact requestOfWords_body _ _ _ _

end Jaguar
