/-
One exchange between the HTTP client and the HTTP server (`http.c`).

The client cuts a URL into its parts, connects, writes a request and reads what comes back; the
server reads the request, looks for a route and writes the response that the handler has built. The
network delivers the bytes of either side in order, cut into segments as it likes.

* `parseUrl_text` — the parts of a URL are those that it was put together from;
* `writeRequest_eq`, `parseRequest_writeRequest` — **the server reads the request that was sent**;
* `query_received` — **the parameters of a URL's query, as the handler of the route finds them**;
* `http_exchange` — **the client gets the response that the handler has built for the request that
  it was asked to send**, or an error if the request is larger than what the server takes;
* `http_post_json` — the value that is posted is the one that the handler decodes.
-/
import Jaguar.DataOrder
import Jaguar.HttpRequest
import Jaguar.HttpResponse
import Jaguar.JsonRoundTrip

namespace Jaguar

/-! ### The source -/

/-- `strstr(s, "://") - s`. -/
def findSchemeEnd : Text → Option ℕ
  | [] => none
  | c :: s => if (c :: s).take 3 = txt "://" then some 0 else (findSchemeEnd s).map (· + 1)

/-- `atoi`: the low 32 bits of what `strtol` returns. -/
def atoi (s : Text) : ℤ := Int.bmod (atol s) (2 ^ 32)

/-- What `parse_url` leaves in its buffers. -/
structure Url where
  scheme : Text
  host : Text
  port : ℤ
  path : Text
  deriving DecidableEq

/-- `parse_url`. -/
def parseUrl (url : Text) : Option Url :=
  match findSchemeEnd url with
  | none => none
  | some n =>
    let scheme := (url.take n).take 15
    let p := url.drop (n + 3)
    let hostport := (p.takeWhile (· ≠ 47)).take 255
    let host := hostport.takeWhile (· ≠ 58)
    let slash := p.dropWhile (· ≠ 47)
    some {
      scheme := scheme
      host := host
      port :=
        if hostport.contains 58 then atoi (hostport.drop (host.length + 1))
        else if strcaseEq scheme (txt "https") then 443
        else 80
      path := if slash = [] then txt "/" else slash.take 1023 }

/-- `snprintf` into `line`. -/
def fmtRequestLine (s : Text) : Text := s.take 1023

/-- The header lines of a body. -/
def writeBodyHeaders (body : Option Text) : Text :=
  match body with
  | none => []
  | some body => txt "Content-Type: application/json\r\n"
      ++ fmtRequestLine (txt "Content-Length: " ++ (natText body.length ++ [13, 10]))

/-- The bytes that `do_request` writes. -/
def writeRequest (method : Text) (url : Url) (body : Option Text) : Text :=
  fmtRequestLine (method ++ 32 :: (url.path ++ txt " HTTP/1.1\r\n"))
    ++ (fmtRequestLine (txt "Host: " ++ (url.host ++ [13, 10]))
    ++ (txt "Connection: close\r\n"
    ++ (writeBodyHeaders body
    ++ (txt "\r\n" ++ body.getD []))))

/-- A connection: what `recv` delivers once the bytes have been written, or nothing if they could
not be. -/
abbrev Connected := Text → Option (List Text)

/-- `do_request`; `connect` is `net_connect_blocking`. -/
def doRequestOver (connect : Text → ℤ → Option Connected) (method url : Text)
    (body : Option Text) : ClientResult :=
  match parseUrl url with
  | none => .error (txt "invalid URL")
  | some u =>
    if strcaseEq u.scheme (txt "https") then
      .error (txt "https:// is not available in this build: no TLS library is linked " ++
        txt "(see DESIGN_DECISIONS.md). Plain http:// works.")
    else
      match connect u.host u.port with
      | none => .error (txt "could not connect")
      | some conn =>
        match conn (writeRequest method u body) with
        | none => .error (txt "write failed")
        | some chunks => receiveResponse chunks

/-- `http_client_get`. -/
def httpClientGet (connect : Text → ℤ → Option Connected) (url : Text) : ClientResult :=
  doRequestOver connect (txt "GET") url none

/-- `http_client_post`. -/
def httpClientPost (connect : Text → ℤ → Option Connected) (url : Text) (body : JsonVal) :
    ClientResult :=
  doRequestOver connect (txt "POST") url (some (jsonStringify body))

/-- A route's handler, as far as its connection can tell: the calls it makes on the response. -/
abbrev Handler := RequestValue → List ResponseCall

/-- The response that `http_conn_entry` writes for the request that it has read. -/
def answerTo (routes : List (Route Handler)) (req : ParsedRequest) : HttpResponse :=
  match matchRoute routes req.method req.path with
  | some (route, params) => responseOf (route.handler (makeRequest req params))
  | none => responseOf [.status 404, .send (txt "Not Found")]

/-- `http_conn_entry`: all bytes that it writes. -/
def serveConn (routes : List (Route Handler)) (chunks : List Text) : Text :=
  match httpConnEntry routes chunks with
  | .closed => []
  | .notFound => writeResponse (responseOf [.status 404, .send (txt "Not Found")])
  | .handled handler req => writeResponse (responseOf (handler req))

/-! ### URLs -/

/-- A URL as it is put together: no port is the default one, and no target the root. -/
structure UrlParts where
  scheme : Text
  host : Text
  port : Option ℕ
  target : Text

namespace UrlParts

def portText (u : UrlParts) : Text :=
  match u.port with
  | none => []
  | some p => 58 :: natText p

def text (u : UrlParts) : Text :=
  u.scheme ++ (txt "://" ++ (u.host ++ u.portText ++ u.target))

def path (u : UrlParts) : Text := if u.target = [] then txt "/" else u.target

def portNumber (u : UrlParts) : ℤ :=
  match u.port with
  | none => if strcaseEq u.scheme (txt "https") then 443 else 80
  | some p => p

/-- The parts fit the buffers of `parse_url`, and no part holds a delimiter of another. -/
structure Fits (u : UrlParts) : Prop where
  scheme : 58 ∉ u.scheme
  schemeLength : u.scheme.length ≤ 15
  host : ∀ c ∈ u.host, c ≠ 47 ∧ c ≠ 58
  hostLength : (u.host ++ u.portText).length ≤ 255
  port : ∀ p ∈ u.port, p < 2 ^ 31
  target : u.target = [] ∨ u.target.head? = some 47
  targetLength : u.target.length ≤ 1023

end UrlParts

theorem findSchemeEnd_append {scheme : Text} (h : 58 ∉ scheme) (s : Text) :
    findSchemeEnd (scheme ++ (txt "://" ++ s)) = some scheme.length := by
  induction scheme with
  | nil => exact if_pos rfl
  | cons c scheme ih =>
    rw [List.mem_cons, not_or] at h
    have hne : ¬ (c :: (scheme ++ (txt "://" ++ s))).take 3 = txt "://" := fun heq =>
      h.1 (List.cons.inj heq).1.symm
    rw [List.cons_append, findSchemeEnd, if_neg hne, ih h.2]
    rfl

/-- A part ends where the next one begins with a byte that it does not have. -/
theorem takeWhile_dropWhile_part {c : UInt8} {part rest : Text} (hpart : c ∉ part)
    (hrest : rest = [] ∨ rest.head? = some c) :
    (part ++ rest).takeWhile (· ≠ c) = part ∧ (part ++ rest).dropWhile (· ≠ c) = rest := by
  have hall : ∀ d ∈ part, decide (d ≠ c) = true := fun d hd =>
    decide_eq_true fun heq => hpart (heq ▸ hd)
  rw [List.takeWhile_append_of_pos hall, List.dropWhile_append_of_pos hall]
  rcases hrest with rfl | hhead
  · exact ⟨List.append_nil _, rfl⟩
  · obtain ⟨t, rfl⟩ : ∃ t, rest = c :: t := by
      cases rest with
      | nil => cases hhead
      | cons d t => exact ⟨t, by rw [Option.some.inj hhead]⟩
    simp

namespace UrlParts

variable {u : UrlParts}

/-- The port of a host with its port, or the default one. -/
theorem port_read (h : u.Fits) :
    (u.host ++ u.portText).takeWhile (· ≠ 58) = u.host ∧
    (if (u.host ++ u.portText).contains 58 then
        atoi ((u.host ++ u.portText).drop (u.host.length + 1))
      else if strcaseEq u.scheme (txt "https") then 443
      else 80) = u.portNumber := by
  have hhost : 58 ∉ u.host := fun hmem => (h.host 58 hmem).2 rfl
  cases hport : u.port with
  | none =>
    have htext : u.portText = [] := by rw [portText, hport]
    have hnot : (u.host ++ u.portText).contains 58 = false := by
      rw [htext, List.append_nil]
      simpa using hhost
    constructor
    · exact (takeWhile_dropWhile_part hhost (.inl htext)).1
    · rw [hnot, portNumber, hport]
      rfl
  | some p =>
    have htext : u.portText = 58 :: natText p := by rw [portText, hport]
    have hyes : (u.host ++ u.portText).contains 58 = true := by
      rw [htext]
      simp
    have hnumber := h.port p hport
    have hdrop : (u.host ++ u.portText).drop (u.host.length + 1) = natText p := by
      rw [htext, ← List.drop_drop, List.drop_left]
      rfl
    constructor
    · exact (takeWhile_dropWhile_part hhost (.inr (by rw [htext]; rfl))).1
    · rw [hyes, if_pos rfl, hdrop, atoi, atol_natText (by omega), portNumber, hport]
      exact Int.bmod_eq_of_le (by omega) (by omega)

/-- **The parts of a URL are those that it was put together from.** -/
theorem parseUrl_text (h : u.Fits) :
    parseUrl u.text = some ⟨u.scheme, u.host, u.portNumber, u.path⟩ := by
  have hslash : 47 ∉ u.host ++ u.portText := by
    intro hmem
    rcases List.mem_append.mp hmem with hmem | hmem
    · exact (h.host 47 hmem).1 rfl
    · unfold portText at hmem
      cases hport : u.port with
      | none =>
        rw [hport] at hmem
        cases hmem
      | some p =>
        rw [hport] at hmem
        rcases List.mem_cons.mp hmem with heq | hdigit
        · cases heq
        · exact absurd (isDigit_of_mem_natText hdigit) (by decide)
  obtain ⟨hhostport, htarget⟩ := takeWhile_dropWhile_part hslash h.target
  have hscheme : (u.text.take u.scheme.length).take 15 = u.scheme := by
    rw [text, List.take_left, List.take_of_length_le h.schemeLength]
  have hrest : u.text.drop (u.scheme.length + 3) = u.host ++ u.portText ++ u.target := by
    rw [text, ← List.drop_drop, List.drop_left]
    rfl
  have hpath : (if u.target = [] then txt "/" else u.target.take 1023) = u.path := by
    rw [List.take_of_length_le h.targetLength]
    rfl
  obtain ⟨hhost, hport⟩ := port_read h
  rw [parseUrl, text, findSchemeEnd_append h.scheme, ← text]
  dsimp only
  rw [hscheme, hrest, hhostport, htarget, List.take_of_length_le h.hostLength, hhost, hport, hpath]

end UrlParts

/-! ### Requests -/

/-- What the client is asked to send. -/
structure ClientRequest where
  method : Text
  url : UrlParts
  body : Option Text

namespace ClientRequest

def bodyHeaders (body : Option Text) : List (Text × Text) :=
  match body with
  | none => []
  | some body => [(txt "Content-Type", txt "application/json"),
      (txt "Content-Length", natText body.length)]

/-- The headers that `do_request` sends. -/
def headers (r : ClientRequest) : List (Text × Text) :=
  (txt "Host", r.url.host) :: (txt "Connection", txt "close") :: bodyHeaders r.body

/-- The request as it is meant. -/
def request (r : ClientRequest) : Request := ⟨r.method, r.url.path, r.headers, r.body.getD []⟩

/-- What the server is meant to read. -/
def received (r : ClientRequest) : ParsedRequest :=
  ⟨r.method, r.url.path.takeWhile (· ≠ 63), (r.url.path.dropWhile (· ≠ 63)).tail, r.headers,
    r.body.getD []⟩

/-- The parts of the URL fit, the request line fits the buffer it is written through, and nothing
is taken for a delimiter. -/
structure Fits (r : ClientRequest) : Prop where
  url : r.url.Fits
  plain : strcaseEq r.url.scheme (txt "https") = false
  methodPos : 1 ≤ r.method.length
  methodLength : r.method.length ≤ 15
  method : ∀ c ∈ r.method, Request.isWordByte c
  target : ∀ c ∈ r.url.target, Request.isWordByte c
  lineLength : r.method.length + r.url.path.length + 12 ≤ 1023
  host : ∀ c ∈ r.url.host, c ≠ 13 ∧ c ≠ 10 ∧ c ≠ 0
  hostStart : r.url.host.head? ≠ some 32
  body : 0 ∉ r.body.getD []
  bodyLength : (r.body.getD []).length < 2 ^ 63

section

variable {r : ClientRequest} (h : r.Fits)

include h

theorem path_head : r.url.path.head? = some 47 := by
  unfold UrlParts.path
  split
  · rfl
  · next hne => exact h.url.target.resolve_left hne

theorem host_length : r.url.host.length ≤ 255 := by
  have hlength := h.url.hostLength
  rw [List.length_append] at hlength
  omega

theorem body_digits : (natText (r.body.getD []).length).length ≤ 62 := by
  have hlength := h.bodyLength
  exact natText_length (by omega)

theorem header_fits : ∀ e ∈ r.headers, Request.HeaderFits e := by
  have hkey : ∀ name ∈ [txt "Host", txt "Content-Length"], 1 ≤ name.length ∧ name.length ≤ 127 ∧
      ∀ c ∈ name, c ≠ 58 ∧ c ≠ 13 ∧ c ≠ 10 ∧ c ≠ 0 := by decide +kernel
  have hhost : Request.HeaderFits (txt "Host", r.url.host) := by
    have hlength := host_length h
    obtain ⟨hpos, hlong, hbytes⟩ := hkey (txt "Host") (by decide)
    exact ⟨hpos, hlong, hbytes, by dsimp only; omega, h.host, h.hostStart⟩
  have hclose : Request.HeaderFits (txt "Connection", txt "close") :=
    ⟨by decide, by decide, forall_mem_of_all rfl, by decide, forall_mem_of_all rfl, by decide⟩
  intro e he
  rcases List.mem_cons.mp he with rfl | he
  · exact hhost
  rcases List.mem_cons.mp he with rfl | he
  · exact hclose
  cases hbody : r.body with
  | none =>
    rw [hbody] at he
    cases he
  | some body =>
    rw [hbody] at he
    rcases List.mem_cons.mp he with rfl | he
    · exact ⟨by decide, by decide, forall_mem_of_all rfl, by decide, forall_mem_of_all rfl,
        by decide⟩
    · obtain rfl := List.mem_singleton.mp he
      have hdigits := body_digits h
      rw [hbody, Option.getD_some] at hdigits
      have hclean := HttpResponse.natText_clean body.length
      obtain ⟨hpos, hlong, hbytes⟩ := hkey (txt "Content-Length") (by decide)
      refine ⟨hpos, hlong, hbytes, by dsimp only; omega, fun c hc => ?_, hclean.noSpace⟩
      have hdigit := isDigit_of_mem_natText hc
      refine ⟨(hclean.value c hc).1, ?_, (hclean.value c hc).2⟩
      rintro rfl
      exact absurd hdigit (by decide)

theorem request_fits : r.request.Fits := by
  have hline := h.lineLength
  constructor
  · exact h.methodPos
  · exact h.methodLength
  · exact h.method
  · show r.url.path.length ≤ 1023
    omega
  · show ∀ c ∈ r.url.path, Request.isWordByte c
    unfold UrlParts.path
    split
    · exact forall_mem_of_all rfl
    · exact h.target
  · show r.url.path.takeWhile (· ≠ 63) ≠ []
    have hhead := path_head h
    cases hpath : r.url.path with
    | nil =>
      rw [hpath] at hhead
      cases hhead
    | cons c t =>
      rw [hpath] at hhead
      obtain rfl := Option.some.inj hhead
      rw [List.takeWhile_cons_of_pos (by decide)]
      exact List.cons_ne_nil _ _
  · show (bodyHeaders r.body).length + 2 ≤ 48
    cases r.body with
    | none => exact Nat.le_add_left _ _
    | some body => exact Nat.le_add_left 4 44
  · exact header_fits h

/-- **The bytes that are written are those of the request.** -/
theorem writeRequest_eq (port : ℤ) :
    writeRequest r.method ⟨r.url.scheme, r.url.host, port, r.url.path⟩ r.body
      = r.request.text := by
  have hline := h.lineLength
  have hhost := host_length h
  have hdigits := body_digits h
  have hversion : (txt " HTTP/1.1\r\n").length = 11 := rfl
  have hname : (txt "Host: ").length = 6 := rfl
  have hname' : (txt "Content-Length: ").length = 16 := rfl
  have hfirst : fmtRequestLine (r.method ++ 32 :: (r.url.path ++ txt " HTTP/1.1\r\n"))
      = r.request.line ++ [13, 10] := by
    rw [fmtRequestLine, List.take_of_length_le]
    · simp only [request, Request.line, List.append_assoc, List.cons_append]
      rfl
    · simp only [List.length_append, List.length_cons]
      omega
  have hsecond : fmtRequestLine (txt "Host: " ++ (r.url.host ++ [13, 10]))
      = headerText (txt "Host", r.url.host) := by
    rw [fmtRequestLine, List.take_of_length_le]
    · simp only [headerText, headerLine, List.append_assoc]
      rfl
    · simp only [List.length_append, List.length_cons, List.length_nil]
      omega
  have hclose : txt "Connection: close\r\n" = headerText (txt "Connection", txt "close") := rfl
  have hlines : writeBodyHeaders r.body = (bodyHeaders r.body).flatMap headerText := by
    cases hbody : r.body with
    | none => rfl
    | some body =>
      rw [hbody, Option.getD_some] at hdigits
      have hlength : fmtRequestLine (txt "Content-Length: " ++ (natText body.length ++ [13, 10]))
          = headerText (txt "Content-Length", natText body.length) := by
        rw [fmtRequestLine, List.take_of_length_le]
        · simp only [headerText, headerLine, List.append_assoc]
          rfl
        · simp only [List.length_append, List.length_cons, List.length_nil]
          omega
      rw [writeBodyHeaders, hlength, bodyHeaders, List.flatMap_cons, List.flatMap_cons,
        List.flatMap_nil, List.append_nil]
      rfl
  rw [writeRequest, hfirst, hsecond, hclose, hlines]
  simp only [request, Request.text, Request.head, headers, List.flatMap_cons, List.append_assoc]
  rfl

/-- **The server reads the request that was sent.** -/
theorem parseRequest_request :
    findHeaderEnd r.request.text = some r.request.head.length ∧
      parseRequest r.request.text r.request.head.length = (true, r.received) := by
  obtain ⟨hend, -, hparse⟩ := parseRequest_requestText (request_fits h)
  exact ⟨hend, hparse⟩

/-- It finds the length of the body. -/
theorem contentLength_request :
    contentLengthOf r.request.text r.request.head.length = (r.body.getD []).length := by
  have hlength := h.bodyLength
  have hdigits := body_digits h
  have hother : ∀ name ∈ [txt "Host", txt "Connection", txt "Content-Type"],
      strcaseEq name (txt "Content-Length") = false := by decide
  have hskip : ∀ (name value : Text) (headers : List (Text × Text)),
      name ∈ [txt "Host", txt "Connection", txt "Content-Type"] →
      ((name, value) :: headers).find? (fun e => strcaseEq e.1 (txt "Content-Length"))
        = headers.find? fun e => strcaseEq e.1 (txt "Content-Length") :=
    fun name value headers hname => List.find?_cons_of_neg (by simp [hother name hname])
  have hfind : r.headers.find? (fun e => strcaseEq e.1 (txt "Content-Length"))
      = r.body.map fun body => (txt "Content-Length", natText body.length) := by
    rw [headers, hskip _ _ _ (by decide), hskip _ _ _ (by decide)]
    cases r.body with
    | none => rfl
    | some body =>
      have hself : strcaseEq (txt "Content-Length") (txt "Content-Length") = true := by decide
      rw [bodyHeaders, hskip _ _ _ (by decide)]
      exact List.find?_cons_of_pos hself
  have hget : getHeader r.received (txt "Content-Length") 64
      = ((r.body.map fun body => natText body.length).getD []) := by
    rw [getHeader, received, hfind]
    cases hbody : r.body with
    | none => rfl
    | some body =>
      rw [hbody, Option.getD_some] at hdigits
      exact List.take_of_length_le (by dsimp only; omega)
  rw [contentLengthOf, (parseRequest_request h).2, hget]
  cases hbody : r.body with
  | none => rfl
  | some body =>
    rw [hbody, Option.getD_some] at hlength
    obtain ⟨c, t, hcons⟩ := List.exists_cons_of_ne_nil (natText_ne_nil body.length)
    have hvalue := atol_natText hlength
    rw [Option.map_some, Option.getD_some, hcons]
    rw [hcons] at hvalue
    exact hvalue

theorem head_length_lt : r.request.head.length < 2 ^ 62 := by
  have hline := h.lineLength
  have hhost := host_length h
  have hdigits := body_digits h
  have hversion : (txt "HTTP/1.1").length = 8 := rfl
  have hbodyHeaders : ((bodyHeaders r.body).flatMap headerText).length ≤ 1000 := by
    cases hbody : r.body with
    | none => exact Nat.zero_le _
    | some body =>
      rw [hbody, Option.getD_some] at hdigits
      have htype : (headerText (txt "Content-Type", txt "application/json")).length = 32 := rfl
      have hname : (txt "Content-Length").length = 14 := rfl
      simp only [bodyHeaders, List.flatMap_cons, List.flatMap_nil, List.length_append, htype,
        HttpResponse.length_headerText, List.length_nil]
      omega
  have hheaders : (r.headers.flatMap headerText).length ≤ 2000 := by
    have hclose : (headerText (txt "Connection", txt "close")).length = 19 := rfl
    have hname : (txt "Host").length = 4 := rfl
    simp only [headers, List.flatMap_cons, List.length_append, hclose,
      HttpResponse.length_headerText]
    omega
  simp only [request, Request.head, Request.line, List.length_append, List.length_cons,
    List.length_nil]
  omega

/-- The server waits for the whole request, and for no more. -/
theorem requestSpan_request :
    requestSpan r.request.text r.request.head.length = r.request.text.length := by
  have hhead := head_length_lt h
  have hbody := h.bodyLength
  have hlength : r.request.text.length = r.request.head.length + (r.body.getD []).length :=
    List.length_append
  rw [requestSpan, requestLength, contentLength_request h, hlength]
  omega

end

end ClientRequest

/-! ### The server -/

/-- A request that declares its own length is read whole. -/
theorem readRequest_whole {s : Text} {n : ℕ} (h : findHeaderEnd s = some n)
    (hspan : requestSpan s n = s.length) (hmax : s.length ≤ maxRequest) {chunks : List Text} :
    ∀ {k : ℕ}, k ≤ s.length → s.drop k = chunks.flatten →
      readRequest (s.take k) chunks = some (s, n) := by
  induction chunks with
  | nil =>
    intro k hk hrest
    have hlength := congrArg List.length hrest
    rw [List.length_drop, List.flatten_nil, List.length_nil] at hlength
    rw [readRequest, requestReady_take h hk, if_pos (by omega), List.take_of_length_le (by omega)]
  | cons chunk chunks ih =>
    intro k hk hrest
    rw [readRequest, requestReady_take h hk]
    by_cases hready : requestSpan s n ≤ k
    · rw [if_pos hready, List.take_of_length_le (by omega)]
    · have hbuf : s.take k ++ chunk = s.take (k + chunk.length) := by
        rw [List.take_add, hrest, List.flatten_cons, List.take_left]
      have hlen : k + chunk.length ≤ s.length := by
        have hlength := congrArg List.length hrest
        simp at hlength
        omega
      have hnext : s.drop (k + chunk.length) = chunks.flatten := by
        rw [← List.drop_drop, hrest, List.flatten_cons, List.drop_left]
      rw [if_neg hready]
      dsimp only
      rw [hbuf, if_neg (by rw [List.length_take]; omega), ih hlen hnext]

/-- One that is larger than the guard is never read. -/
theorem readRequest_too_large {s : Text} {n : ℕ} (h : findHeaderEnd s = some n)
    (hspan : maxRequest < requestSpan s n) {chunks : List Text} (hchunks : chunks.flatten = s) :
    readRequest [] chunks = none := by
  cases hread : readRequest [] chunks with
  | none => rfl
  | some found =>
    obtain ⟨b, m⟩ := found
    obtain ⟨-, j, -, hj, -, hmax⟩ := readRequest_eq_some h (Nat.zero_le _) (Nat.zero_le _)
      (by rw [List.drop_zero, hchunks]) (by rw [List.take_zero]; exact hread)
    omega

/-- **What the server hands over for a request** within the guard, however the bytes are cut. -/
theorem httpConnEntry_request {η : Type*} {r : ClientRequest} (h : r.Fits)
    (hmax : r.request.text.length ≤ maxRequest) (routes : List (Route η)) {chunks : List Text}
    (hchunks : chunks.flatten = r.request.text) :
    httpConnEntry routes chunks = match matchRoute routes r.received.method r.received.path with
      | some (route, params) => .handled route.handler (makeRequest r.received params)
      | none => .notFound := by
  obtain ⟨hend, hparse⟩ := ClientRequest.parseRequest_request h
  have hread := readRequest_whole hend (ClientRequest.requestSpan_request h) hmax (Nat.zero_le _)
    (by rw [List.drop_zero, hchunks])
  rw [List.take_zero] at hread
  rw [httpConnEntry, hread]
  dsimp only
  exact hparse ▸ rfl

/-- **What the server writes for a request.** -/
theorem serveConn_request {r : ClientRequest} (h : r.Fits)
    (hmax : r.request.text.length ≤ maxRequest) (routes : List (Route Handler))
    {chunks : List Text} (hchunks : chunks.flatten = r.request.text) :
    serveConn routes chunks = writeResponse (answerTo routes r.received) := by
  rw [serveConn, httpConnEntry_request h hmax routes hchunks, answerTo]
  cases matchRoute routes r.received.method r.received.path <;> rfl

/-! ### Exchanges -/

/-- One request within the guard: the server reads all of it, and waits for no more. -/
def ReadWhole (bytes : Text) : Prop :=
  ∃ n, findHeaderEnd bytes = some n ∧ requestSpan bytes n = bytes.length ∧
    bytes.length ≤ maxRequest

/-- A request beyond the guard: the server closes the connection before it has read it. -/
def TooLarge (bytes : Text) : Prop :=
  ∃ n, findHeaderEnd bytes = some n ∧ maxRequest < requestSpan bytes n ∧ maxRequest < bytes.length

/-- The connection leads to a server with these routes. -/
structure LeadsTo (conn : Connected) (routes : List (Route Handler)) : Prop where
  answered : ∀ bytes, ReadWhole bytes → ∃ there back, Segmented bytes there ∧
    Segmented (serveConn routes there) back ∧ conn bytes = some back
  /-- What is not read any more may not even be taken. -/
  dropped : ∀ bytes, TooLarge bytes → conn bytes = none ∨
    ∃ there back, Segmented bytes there ∧ Segmented (serveConn routes there) back ∧
      conn bytes = some back

/-- All handlers keep to allowed calls. -/
def HandlersAllowed (routes : List (Route Handler)) : Prop :=
  ∀ route ∈ routes, ∀ req, ∀ c ∈ route.handler req, c.Allowed

theorem mem_of_matchRoute {η : Type*} {routes : List (Route η)} {method path : Text}
    {found : Route η × DataList Text} (h : matchRoute routes method path = some found) :
    found.1 ∈ routes := by
  induction routes with
  | nil => cases h
  | cons r routes ih =>
    rw [matchRoute] at h
    split at h
    · split at h
      · rw [← Option.some.inj h]
        exact List.mem_cons_self
      · exact List.mem_cons_of_mem _ (ih h)
    · exact List.mem_cons_of_mem _ (ih h)

theorem sound_answerTo {routes : List (Route Handler)} (h : HandlersAllowed routes)
    (req : ParsedRequest) : (answerTo routes req).Sound := by
  unfold answerTo
  split
  · next route params hmatch =>
    exact HttpResponse.sound_responseOf (h route (mem_of_matchRoute hmatch) _)
  · refine HttpResponse.sound_responseOf fun c hc => ?_
    rcases List.mem_cons.mp hc with rfl | hc
    · trivial
    · obtain rfl := List.mem_singleton.mp hc
      show 0 ∉ txt "Not Found"
      decide

theorem doRequestOver_eq {connect : Text → ℤ → Option Connected} {conn : Connected}
    {r : ClientRequest} (h : r.Fits) (hconnect : connect r.url.host r.url.portNumber = some conn) :
    doRequestOver connect r.method r.url.text r.body = match conn r.request.text with
      | none => .error (txt "write failed")
      | some chunks => receiveResponse chunks := by
  rw [doRequestOver, UrlParts.parseUrl_text h.url]
  dsimp only
  rw [h.plain, if_neg Bool.false_ne_true, hconnect]
  dsimp only
  rw [ClientRequest.writeRequest_eq h]

/-- Nothing comes in no piece. -/
theorem Segmented.eq_nil {chunks : List Text} (h : Segmented [] chunks) : chunks = [] := by
  cases chunks with
  | nil => rfl
  | cons chunk chunks =>
    have hempty := h.1
    rw [List.flatten_cons, List.append_eq_nil_iff] at hempty
    exact absurd hempty.1 (h.2 chunk List.mem_cons_self).1

/-- What the server answers where it has no route. -/
theorem deliverable_notFound : (responseOf [.status 404, .send (txt "Not Found")]).Deliverable := by
  have hheaders : (responseOf [.status 404, .send (txt "Not Found")]).headers = [] := rfl
  refine ⟨?_, ⟨by decide, by decide⟩, .inl (by decide), .inl (by decide), ?_⟩
  · intro e he
    rw [hheaders] at he
    cases he
  · intro newer key value older hsplit _
    rw [hheaders] at hsplit
    cases newer <;> cases hsplit

/-- **The client gets the response to the request that it was asked to send.** A deliverable
response of the handler arrives as it is, whatever the network makes of the bytes, and so does the
answer that there is no route; a request that is larger than what the server takes is an error: it
cannot be written, or nothing comes back. -/
theorem http_exchange {routes : List (Route Handler)} (hroutes : HandlersAllowed routes)
    {connect : Text → ℤ → Option Connected} {conn : Connected} (hconn : LeadsTo conn routes)
    {r : ClientRequest} (h : r.Fits)
    (hconnect : connect r.url.host r.url.portNumber = some conn) :
    (maxRequest < r.request.text.length →
      doRequestOver connect r.method r.url.text r.body = .error (txt "write failed") ∨
      doRequestOver connect r.method r.url.text r.body = .error (txt "malformed response")) ∧
    (r.request.text.length ≤ maxRequest → (answerTo routes r.received).Deliverable →
      ∃ reply, doRequestOver connect r.method r.url.text r.body = .done reply ∧
        (answerTo routes r.received).Recovered reply) ∧
    (r.request.text.length ≤ maxRequest →
      matchRoute routes r.received.method r.received.path = none →
      ∃ reply, doRequestOver connect r.method r.url.text r.body = .done reply ∧
        reply.status = 404 ∧ reply.body = txt "Not Found") := by
  have hend := (ClientRequest.parseRequest_request h).1
  have hspan := ClientRequest.requestSpan_request h
  have harrives : r.request.text.length ≤ maxRequest → (answerTo routes r.received).Deliverable →
      ∃ reply, doRequestOver connect r.method r.url.text r.body = .done reply ∧
        (answerTo routes r.received).Recovered reply := by
    intro hmax hdeliver
    obtain ⟨there, back, hthere, hanswer, hback⟩ := hconn.answered _ ⟨_, hend, hspan, hmax⟩
    rw [serveConn_request h hmax routes hthere.1] at hanswer
    rw [doRequestOver_eq h hconnect, hback]
    exact (hdeliver.arrives (sound_answerTo hroutes _)).client back hanswer
  refine ⟨fun hmax => ?_, harrives, fun hmax hnone => ?_⟩
  · rw [doRequestOver_eq h hconnect]
    rcases hconn.dropped _ ⟨_, hend, by omega, hmax⟩ with hnone | ⟨there, back, hthere, hanswer,
      hback⟩
    · exact .inl (by rw [hnone])
    · -- the server closes the connection without a byte
      have hread := readRequest_too_large hend (by omega) hthere.1
      rw [serveConn, httpConnEntry, hread] at hanswer
      rw [hback, hanswer.eq_nil]
      exact .inr rfl
  · have heq : answerTo routes r.received = responseOf [.status 404, .send (txt "Not Found")] := by
      rw [answerTo, hnone]
    obtain ⟨reply, hreply, hrecovered⟩ := harrives hmax (heq ▸ deliverable_notFound)
    rw [heq] at hrecovered
    exact ⟨reply, hreply, hrecovered.status, hrecovered.body⟩

/-- A network that delivers byte after byte, with one server behind every address; nobody takes
what is beyond the guard. -/
def byteNetwork (routes : List (Route Handler)) : Text → ℤ → Option Connected := fun _ _ =>
  some fun bytes =>
    if maxRequest < bytes.length then none
    else some ((serveConn routes (bytes.map fun c => [c])).map fun c => [c])

theorem leadsTo_byteNetwork (routes : List (Route Handler)) (host : Text) (port : ℤ) :
    ∃ conn, byteNetwork routes host port = some conn ∧ LeadsTo conn routes := by
  refine ⟨_, rfl, ⟨fun bytes hwhole => ?_, fun bytes hlarge => ?_⟩⟩
  · obtain ⟨n, -, -, hmax⟩ := hwhole
    exact ⟨_, _, segmented_bytes _, segmented_bytes _, if_neg (Nat.not_lt_of_le hmax)⟩
  · obtain ⟨n, -, -, hlarge⟩ := hlarge
    exact .inl (if_pos hlarge)

theorem http_exchange_notFound :
    ∃ reply, doRequestOver (byteNetwork []) (txt "GET")
        (UrlParts.text ⟨txt "http", txt "localhost", some 8080, txt "/a?b=1"⟩) none = .done reply ∧
      reply.status = 404 ∧ reply.body = txt "Not Found" := by
  have hfits : ClientRequest.Fits
      ⟨txt "GET", ⟨txt "http", txt "localhost", some 8080, txt "/a?b=1"⟩, none⟩ := by
    have hport : ∀ p ∈ some 8080, p < 2 ^ 31 := by
      rintro p hp
      obtain rfl := Option.some.inj hp
      decide
    exact ⟨⟨by decide, by decide, forall_mem_of_all rfl, by decide, hport, .inr rfl, by decide⟩,
      by decide, by decide, by decide, forall_mem_of_all rfl, forall_mem_of_all rfl, by decide,
      forall_mem_of_all rfl, by decide, by decide, by decide⟩
  have hroutes : HandlersAllowed [] := List.forall_mem_nil _
  obtain ⟨conn, hconnect, hconn⟩ := leadsTo_byteNetwork [] (txt "localhost") 8080
  exact (http_exchange hroutes hconn hfits hconnect).2.2 (by decide) rfl

/-! ### Queries -/

/-- `name=value` for each parameter, with ampersands between them. -/
def queryText : List (Text × Text) → Text
  | [] => []
  | [e] => e.1 ++ 61 :: e.2
  | e :: params => e.1 ++ 61 :: e.2 ++ 38 :: queryText params

/-- No part of a parameter is taken for a delimiter. -/
structure QueryFits (e : Text × Text) : Prop where
  name : ∀ c ∈ e.1, c ≠ 38 ∧ c ≠ 61 ∧ c ≠ 0
  value : ∀ c ∈ e.2, c ≠ 38 ∧ c ≠ 0

theorem queryText_cons (e e' : Text × Text) (params : List (Text × Text)) :
    queryText (e :: e' :: params) = e.1 ++ 61 :: e.2 ++ 38 :: queryText (e' :: params) := rfl

theorem QueryFits.pair {e : Text × Text} (h : QueryFits e) :
    ∀ c ∈ e.1 ++ 61 :: e.2, c ≠ 38 ∧ c ≠ 0 := by
  intro c hc
  rcases List.mem_append.mp hc with hc | hc
  · exact ⟨(h.name c hc).1, (h.name c hc).2.2⟩
  · rcases List.mem_cons.mp hc with rfl | hc
    · decide
    · exact h.value c hc

theorem splitOn_queryText {params : List (Text × Text)} (h : ∀ e ∈ params, QueryFits e)
    (hne : params ≠ []) :
    (queryText params).splitOn 38 = params.map fun e => e.1 ++ 61 :: e.2 := by
  induction params with
  | nil => exact absurd rfl hne
  | cons e params ih =>
    rw [List.forall_mem_cons] at h
    have hpair : 38 ∉ e.1 ++ 61 :: e.2 := fun hmem => (h.1.pair 38 hmem).1 rfl
    cases params with
    | nil => exact List.splitOn_eq_singleton hpair
    | cons e' params =>
      rw [queryText_cons, List.splitOn_append_cons_self_of_not_mem hpair,
        ih h.2 (List.cons_ne_nil _ _)]
      rfl

theorem zero_not_mem_queryText {params : List (Text × Text)} (h : ∀ e ∈ params, QueryFits e) :
    0 ∉ queryText params := by
  induction params with
  | nil => exact List.not_mem_nil
  | cons e params ih =>
    rw [List.forall_mem_cons] at h
    have hpair : 0 ∉ e.1 ++ 61 :: e.2 := fun hmem => (h.1.pair 0 hmem).2 rfl
    cases params with
    | nil => exact hpair
    | cons e' params =>
      rw [queryText_cons, List.mem_append, List.mem_cons, not_or, not_or]
      exact ⟨hpair, by decide, ih h.2⟩

/-- **A query is taken apart into the parameters that it was put together from.** -/
theorem parseQueryString_queryText {params : List (Text × Text)} (h : ∀ e ∈ params, QueryFits e)
    (hlength : (queryText params).length ≤ 1023) :
    parseQueryString (queryText params) = dataSetAll [] params := by
  have htokens : strtok 38 ((queryText params).take 1023)
      = params.map fun e => e.1 ++ 61 :: e.2 := by
    rw [strtok, List.take_of_length_le hlength, cStr_eq_self (zero_not_mem_queryText h)]
    rcases eq_or_ne params [] with rfl | hne
    · rfl
    · rw [splitOn_queryText h hne]
      refine List.filter_eq_self.mpr fun pair hpair => ?_
      obtain ⟨e, -, rfl⟩ := List.mem_map.mp hpair
      simp
  rw [parseQueryString, htokens, List.foldl_map, dataSetAll]
  refine List.foldl_ext _ _ _ fun out e he => ?_
  have hname : 61 ∉ e.1 := fun hmem => ((h e he).name 61 hmem).2.1 rfl
  have hkey : (e.1 ++ 61 :: e.2).takeWhile (· ≠ 61) = e.1 :=
    (takeWhile_dropWhile_part hname (.inr rfl)).1
  have hvalue : (e.1 ++ 61 :: e.2).drop (e.1.length + 1) = e.2 := by
    rw [← List.drop_drop, List.drop_left]
    rfl
  dsimp only
  rw [hkey, hvalue]

/-- **What a handler finds in the query** of a URL that was put together from a path and
parameters. The client cuts the URL into its parts and writes a request; the server reads it,
however it has been cut, and hands it to the handler of the route, under every name the value that
was given last. -/
theorem query_received {η : Type*} {params : List (Text × Text)}
    (hparams : ∀ e ∈ params, QueryFits e) {path : Text} (hpath : 63 ∉ path) {r : ClientRequest}
    (h : r.Fits) (htarget : r.url.target = path ++ 63 :: queryText params)
    (hmax : r.request.text.length ≤ maxRequest) {routes : List (Route η)} {route : Route η}
    {routeParams : DataList Text}
    (hroute : matchRoute routes r.method path = some (route, routeParams)) :
    ∃ url, parseUrl r.url.text = some url ∧
      ∀ chunks : List Text, chunks.flatten = writeRequest r.method url r.body →
        ∃ req, httpConnEntry routes chunks = .handled route.handler req ∧ req.path = path ∧
          ∀ name, dataGet req.query name = lastSet params name := by
  have hpathText : r.url.path = path ++ 63 :: queryText params := by
    rw [UrlParts.path, htarget, if_neg (by simp)]
  obtain ⟨htake, hdrop⟩ := takeWhile_dropWhile_part hpath
    (.inr rfl : 63 :: queryText params = [] ∨ (63 :: queryText params).head? = some 63)
  have hlength : (queryText params).length ≤ 1023 := by
    have hline := h.url.targetLength
    rw [htarget, List.length_append, List.length_cons] at hline
    omega
  have hreceived : r.received.path = path := by
    show r.url.path.takeWhile (· ≠ 63) = path
    rw [hpathText, htake]
  refine ⟨_, UrlParts.parseUrl_text h.url, fun chunks hchunks => ?_⟩
  rw [ClientRequest.writeRequest_eq h] at hchunks
  refine ⟨makeRequest r.received routeParams, ?_, hreceived, fun name => ?_⟩
  · have hmatch : matchRoute routes r.received.method r.received.path
        = some (route, routeParams) := by
      rw [hreceived]
      exact hroute
    rw [httpConnEntry_request h hmax routes hchunks, hmatch]
  · show dataGet (parseQueryString (r.url.path.dropWhile (· ≠ 63)).tail) name = _
    rw [hpathText, hdrop, List.tail_cons, parseQueryString_queryText hparams hlength,
      dataGet_dataSetAll_lastSet]
    exact Option.or_none

/-- A name that is given twice, and one without a value. -/
theorem query_received_twice :
    ∃ url, parseUrl (UrlParts.text ⟨txt "http", txt "localhost", none, txt "/s?q=1&p=&q=2"⟩)
        = some url ∧
      ∀ chunks : List Text, chunks.flatten = writeRequest (txt "GET") url none →
        ∃ req, httpConnEntry [⟨txt "GET", txt "/s", 7⟩] chunks = .handled 7 req ∧
          req.path = txt "/s" ∧ ∀ name, dataGet req.query name
            = lastSet [(txt "q", txt "1"), (txt "p", []), (txt "q", txt "2")] name := by
  have hfits : ClientRequest.Fits
      ⟨txt "GET", ⟨txt "http", txt "localhost", none, txt "/s?q=1&p=&q=2"⟩, none⟩ :=
    ⟨⟨by decide, by decide, forall_mem_of_all rfl, by decide, nofun, .inr rfl, by decide⟩,
      by decide, by decide, by decide, forall_mem_of_all rfl, forall_mem_of_all rfl, by decide,
      forall_mem_of_all rfl, by decide, by decide, by decide⟩
  have hparams : ∀ e ∈ [(txt "q", txt "1"), (txt "p", []), (txt "q", txt "2")], QueryFits e := by
    intro e he
    simp only [List.mem_cons, List.not_mem_nil, or_false] at he
    rcases he with rfl | rfl | rfl
    · exact ⟨forall_mem_of_all rfl, forall_mem_of_all rfl⟩
    · exact ⟨forall_mem_of_all rfl, forall_mem_of_all rfl⟩
    · exact ⟨forall_mem_of_all rfl, forall_mem_of_all rfl⟩
  have hroute : matchRoute [⟨txt "GET", txt "/s", 7⟩] (txt "GET") (txt "/s")
      = some (⟨txt "GET", txt "/s", 7⟩, []) := rfl
  exact query_received hparams (by decide) hfits rfl (by decide) hroute

/-! ### Values over the wire -/

/-- A handler that decodes the body and answers with the value that `f` makes of it. -/
def jsonHandler (f : JsonVal → JsonVal) : Handler := fun req =>
  match jsonParse req.body with
  | some v => [.json (jsonStringify (f v))]
  | none => [.status 400]

/-- What a handler sends with `json` alone. -/
theorem deliverable_json {body : Text} (hsize : (responseOf [.json body]).SizeFits) :
    (responseOf [.json body]).Deliverable := by
  have hheaders : (responseOf [.json body]).headers
      = [(txt "Content-Type", txt "application/json")] := rfl
  refine ⟨?_, ⟨?_, ?_⟩, hsize, .inl ?_, ?_⟩
  · intro e he
    rw [hheaders] at he
    obtain rfl := List.mem_singleton.mp he
    decide
  · show (-2 ^ 31 : ℤ) ≤ 200
    decide
  · show (200 : ℤ) < 2 ^ 31
    decide
  · rw [hheaders]
    decide
  · intro newer key value older hsplit _
    rw [hheaders] at hsplit
    cases newer with
    | nil =>
      obtain ⟨hpair, rfl⟩ := List.cons.inj hsplit
      obtain ⟨rfl, rfl⟩ := Prod.mk.inj hpair
      rw [if_neg (by decide)]
      exact fun e he => nomatch he
    | cons e newer =>
      have hlength := congrArg List.length hsplit
      simp at hlength

/-- **A value that is posted to a handler comes back as the handler's value of it.** The value is
encoded, sent, decoded by the handler, and its answer encoded, sent back and decoded. -/
theorem http_post_json {routes : List (Route Handler)} (hroutes : HandlersAllowed routes)
    {connect : Text → ℤ → Option Connected} {conn : Connected} (hconn : LeadsTo conn routes)
    {v : JsonVal} (hv : JsonPlain v) {u : UrlParts}
    (h : ClientRequest.Fits ⟨txt "POST", u, some (jsonStringify v)⟩)
    (hconnect : connect u.host u.portNumber = some conn)
    {route : Route Handler} {params : DataList Text}
    (hmatch : matchRoute routes (txt "POST") (u.path.takeWhile (· ≠ 63)) = some (route, params))
    {f : JsonVal → JsonVal} (hroute : route.handler = jsonHandler f) (hf : JsonPlain (f v))
    (hrequest : (ClientRequest.request ⟨txt "POST", u, some (jsonStringify v)⟩).text.length
      ≤ maxRequest)
    (hsize : (responseOf [.json (jsonStringify (f v))]).SizeFits) :
    ∃ reply, httpClientPost connect u.text v = .done reply ∧ reply.status = 200 ∧
      jsonParse reply.body = some (f v) := by
  have hanswer : answerTo routes (ClientRequest.received ⟨txt "POST", u, some (jsonStringify v)⟩)
      = responseOf [.json (jsonStringify (f v))] := by
    have hbody : cStr (jsonStringify v) = jsonStringify v := cStr_eq_self hv.zero_not_mem
    have hcalls : ∀ req : RequestValue, req.body = cStr (jsonStringify v) →
        jsonHandler f req = [.json (jsonStringify (f v))] := by
      intro req hreq
      rw [jsonHandler, hreq, hbody, jsonParse_jsonStringify hv]
    rw [answerTo, ClientRequest.received]
    dsimp only
    rw [hmatch]
    dsimp only
    rw [hroute, hcalls _ rfl]
  obtain ⟨reply, hreply, hrecovered⟩ := (http_exchange hroutes hconn h hconnect).2.1 hrequest
    (hanswer ▸ deliverable_json hsize)
  rw [hanswer] at hrecovered
  refine ⟨reply, hreply, hrecovered.status, ?_⟩
  have hbody : reply.body = jsonStringify (f v) := hrecovered.body
  rw [hbody, jsonParse_jsonStringify hf]

/-- Whether a number is positive. -/
def isPositive : JsonVal → JsonVal
  | .num n => .bool (decide (0 < n))
  | _ => .void

theorem http_post_json_isPositive :
    ∃ reply, httpClientPost (byteNetwork [⟨txt "POST", txt "/", jsonHandler isPositive⟩])
        (UrlParts.text ⟨txt "http", txt "localhost", none, []⟩) (.num (-7)) = .done reply ∧
      reply.status = 200 ∧ jsonParse reply.body = some (.bool false) := by
  have hroutes : HandlersAllowed [⟨txt "POST", txt "/", jsonHandler isPositive⟩] := by
    intro route hroute req c hc
    obtain rfl := List.mem_singleton.mp hroute
    unfold jsonHandler at hc
    dsimp only at hc
    split at hc
    · next v _ =>
      obtain rfl := List.mem_singleton.mp hc
      show 0 ∉ jsonStringify (isPositive v)
      cases v with
      | num n => exact (JsonPlain.bool _).zero_not_mem
      | _ => exact JsonPlain.void.zero_not_mem
    · obtain rfl := List.mem_singleton.mp hc
      trivial
  have hv : JsonPlain (.num (-7)) := .num (by decide) (by decide)
  have hfits : ClientRequest.Fits
      ⟨txt "POST", ⟨txt "http", txt "localhost", none, []⟩, some (jsonStringify (.num (-7)))⟩ :=
    ⟨⟨by decide, by decide, forall_mem_of_all rfl, by decide, nofun, .inl rfl, by decide⟩,
      by decide, by decide, by decide, forall_mem_of_all rfl, nofun, by decide,
      forall_mem_of_all rfl, by decide, hv.zero_not_mem, by decide⟩
  obtain ⟨conn, hconnect, hconn⟩ :=
    leadsTo_byteNetwork [⟨txt "POST", txt "/", jsonHandler isPositive⟩] (txt "localhost") 80
  exact http_post_json hroutes hconn hv hfits hconnect rfl rfl (.bool false) (by decide)
    (.inl (by decide))

end Jaguar
