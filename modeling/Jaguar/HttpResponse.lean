/-
The response object, on its way to the wire and back through the client (`http.c`).

A handler builds the response with calls of its methods, `http_conn_entry` writes it line by
line through a buffer of 256 bytes, and `do_request` reads it. A header line that does not fit
the buffer loses its end, the line end included.

* `HttpResponse`, `httpResponseCall`, `writeResponse` — the object, its methods, the writer;
* `httpResponseCallMethod_holds` — the interpreter's method calls are those calls;
* `writeResponse_eq`, `lines_of_writeResponse_eq` — the bytes are right exactly when every
  header line fits;
* `receiveResponse_responseText` — what the client makes of them;
* `response_arrives_iff` — **which responses arrive as they were meant**.
-/
import Jaguar.Doubles
import Jaguar.HttpClient
import Jaguar.HttpRequest
import Jaguar.JsonReading
import Jaguar.Natives

namespace Jaguar

/-! ### The source -/

/-- A response object: `__status`, `__body` and `__headers`. -/
structure HttpResponse where
  status : ℤ
  body : Text
  headers : DataList Text

/-- `http_make_response`. -/
def httpMakeResponse : HttpResponse := ⟨200, [], []⟩

/-- A method call on a response object, with the texts its arguments are rendered to. -/
inductive ResponseCall
  | send (body : Text)
  | json (body : Text)
  | status (code : ℤ)
  | header (key value : Text)

/-- `http_response_call_method`, behind the rendering. -/
def httpResponseCall (r : HttpResponse) : ResponseCall → HttpResponse
  | .send body => { r with body := body }
  | .json body =>
    { r with
      body := body
      headers := dataSet r.headers (txt "Content-Type") (txt "application/json") }
  | .status code => { r with status := code }
  | .header key value => { r with headers := dataSet r.headers key value }

/-- One call after another, on a new response object. -/
def responseOf (calls : List ResponseCall) : HttpResponse :=
  calls.foldl httpResponseCall httpMakeResponse

/-- `status_text`. -/
def statusText (code : ℤ) : Text :=
  if code = 200 then txt "OK"
  else if code = 201 then txt "Created"
  else if code = 204 then txt "No Content"
  else if code = 301 then txt "Moved Permanently"
  else if code = 302 then txt "Found"
  else if code = 400 then txt "Bad Request"
  else if code = 401 then txt "Unauthorized"
  else if code = 403 then txt "Forbidden"
  else if code = 404 then txt "Not Found"
  else if code = 405 then txt "Method Not Allowed"
  else if code = 500 then txt "Internal Server Error"
  else if code = 502 then txt "Bad Gateway"
  else if code = 503 then txt "Service Unavailable"
  else txt "OK"

/-- `HTTP/1.1 %lld %s`. -/
def statusLine (status : ℤ) : Text := txt "HTTP/1.1 " ++ (intText status ++ 32 :: statusText status)

/-- `snprintf` into `line`. -/
def fmtLine (s : Text) : Text := s.take 255

/-- The bytes that `http_conn_entry` writes for a response. -/
def writeResponse (r : HttpResponse) : Text :=
  let status := longOfDouble (doubleOfLong r.status)
  fmtLine (statusLine status ++ [13, 10])
    ++ (r.headers.flatMap (fun e => fmtLine (headerText e))
    ++ (fmtLine (txt "Content-Length: " ++ (natText r.body.length ++ [13, 10]))
    ++ (txt "Connection: close\r\n\r\n" ++ r.body)))

/-! ### The interpreter's calls -/

/-- The data value at `d` is a response object that stands for `r`. -/
structure Heap.HoldsResponse (h : Heap) (d : ℕ) (r : HttpResponse) (headers : ℕ) : Prop where
  apart : headers ≠ d
  object : d < h.datas.length
  table : headers < h.datas.length
  status : dataGet (h.data d) (txt "__status") = some (.num r.status)
  body : dataGet (h.data d) (txt "__body") = some (.string r.body)
  link : dataGet (h.data d) (txt "__headers") = some (.data headers)
  entries : h.data headers = r.headers.map fun e => (e.1, .string e.2)

theorem dataReplace_map {α β : Type*} (f : α → β) (d : DataList α) (key : Text) (v : α) :
    dataReplace (d.map fun e => (e.1, f e.2)) key (f v)
      = (dataReplace d key v).map fun e => (e.1, f e.2) := by
  induction d with
  | nil => rfl
  | cons e d ih =>
    obtain ⟨k, w⟩ := e
    rw [List.map_cons, dataReplace, dataReplace]
    split
    · rfl
    · rw [ih, List.map_cons]

theorem dataGet_map {α β : Type*} (f : α → β) (d : DataList α) (key : Text) :
    dataGet (d.map fun e => (e.1, f e.2)) key = (dataGet d key).map f := by
  induction d with
  | nil => rfl
  | cons e d ih =>
    obtain ⟨k, w⟩ := e
    rw [List.map_cons, dataGet, dataGet]
    split
    · rfl
    · exact ih

theorem dataSet_map {α β : Type*} (f : α → β) (d : DataList α) (key : Text) (v : α) :
    dataSet (d.map fun e => (e.1, f e.2)) key (f v)
      = (dataSet d key v).map fun e => (e.1, f e.2) := by
  rw [dataSet, dataGet_map, dataSet]
  cases dataGet d key with
  | none => rfl
  | some w => exact dataReplace_map f d key v

namespace Heap.HoldsResponse

variable {h : Heap} {d headers : ℕ} {r : HttpResponse} (hr : h.HoldsResponse d r headers)

include hr

/-- Writing into the object itself, not into its link to the table of headers. -/
theorem setObject {key : Text} {v : Value} {r' : HttpResponse} (hlink : txt "__headers" ≠ key)
    (hstatus : dataGet (Jaguar.dataSet (h.data d) key v) (txt "__status") = some (.num r'.status))
    (hbody : dataGet (Jaguar.dataSet (h.data d) key v) (txt "__body") = some (.string r'.body))
    (hheaders : r'.headers = r.headers) : (h.dataSet d key v).HoldsResponse d r' headers := by
  have hobject := h.data_dataSet hr.object key v
  constructor
  · exact hr.apart
  · exact (List.length_modify ..).symm ▸ hr.object
  · exact (List.length_modify ..).symm ▸ hr.table
  · rw [hobject, if_pos rfl, hstatus]
  · rw [hobject, if_pos rfl, hbody]
  · rw [hobject, if_pos rfl, dataGet_dataSet, if_neg hlink, hr.link]
  · rw [hobject, if_neg hr.apart, hr.entries, hheaders]

theorem setBody (body : Text) :
    (h.dataSet d (txt "__body") (.string body)).HoldsResponse d { r with body := body }
      headers := by
  refine hr.setObject (by decide) ?_ ?_ rfl
  · rw [dataGet_dataSet, if_neg (by decide), hr.status]
  · rw [dataGet_dataSet, if_pos rfl]

theorem setStatus (code : ℤ) :
    (h.dataSet d (txt "__status") (.num code)).HoldsResponse d { r with status := code }
      headers := by
  refine hr.setObject (by decide) ?_ ?_ rfl
  · rw [dataGet_dataSet, if_pos rfl]
  · rw [dataGet_dataSet, if_neg (by decide), hr.body]

theorem setHeader (key value : Text) :
    (h.dataSet headers key (.string value)).HoldsResponse d
      { r with headers := Jaguar.dataSet r.headers key value } headers := by
  have htable := h.data_dataSet hr.table key (.string value)
  constructor
  · exact hr.apart
  · exact (List.length_modify ..).symm ▸ hr.object
  · exact (List.length_modify ..).symm ▸ hr.table
  · rw [htable, if_neg hr.apart.symm, hr.status]
  · rw [htable, if_neg hr.apart.symm, hr.body]
  · rw [htable, if_neg hr.apart.symm, hr.link]
  · rw [htable, if_pos rfl, hr.entries]
    exact dataSet_map Value.string r.headers key value

end Heap.HoldsResponse

/-- `http_make_response`: the object, and behind it its table of headers. -/
def Heap.makeResponse (h : Heap) : Heap :=
  { h with datas := h.datas ++ [[(txt "__headers", .data (h.datas.length + 1)),
    (txt "__body", .string []), (txt "__status", .num 200), (txt "__is_response__", .bool true)],
    []] }

theorem Heap.makeResponse_holds (h : Heap) :
    h.makeResponse.HoldsResponse h.datas.length httpMakeResponse (h.datas.length + 1) := by
  have hlength : h.makeResponse.datas.length = h.datas.length + 2 := by simp [makeResponse]
  have hobject : h.makeResponse.data h.datas.length
      = [(txt "__headers", .data (h.datas.length + 1)), (txt "__body", .string []),
        (txt "__status", .num 200), (txt "__is_response__", .bool true)] := by
    simp [data, makeResponse, List.getD_eq_getElem?_getD]
  constructor
  · omega
  · omega
  · omega
  · rw [hobject]
    rfl
  · rw [hobject]
    rfl
  · rw [hobject]
    rfl
  · simp [data, makeResponse, List.getD_eq_getElem?_getD, httpMakeResponse]

section Calls

variable {ω : Type} {d headers : ℕ} {r : HttpResponse}

/-- The object stands for `r`. -/
def Holding (d headers : ℕ) (r : HttpResponse) (s : Machine ω) : Prop :=
  s.heap.HoldsResponse d r headers

/-- Writing into a data value, and then the object as the value of the call. -/
theorem triple_set {target : ℕ} {key : Text} {v : Value} {r' : HttpResponse}
    (hset : ∀ h : Heap, h.HoldsResponse d r headers →
      (h.dataSet target key v).HoldsResponse d r' headers) {α : Type} {m : Prog ω α}
    {post : α → Machine ω → Prop}
    (hm : Exec.Triple (fun _ => True) (Holding d headers r') m post) :
    Exec.Triple (fun _ => True) (Holding d headers r)
      (do valueDataSet target key v; m : Prog ω α) post :=
  Exec.TripleWhile.seq (fun _ => Holding d headers r')
    (Exec.triple_act fun s hs => ⟨trivial, hset s.heap hs⟩) fun _ => hm

theorem triple_render {f : Machine ω → Option Text} {α : Type} {m : Text → Prog ω α}
    {post : α → Machine ω → Prop}
    (hm : ∀ text, Exec.Triple (fun _ => True) (Holding d headers r) (m text) post) :
    Exec.Triple (fun _ => True) (Holding d headers r) (Exec.readSome f >>= m) post :=
  Exec.TripleWhile.seq (fun _ => Holding d headers r)
    (Exec.triple_readSome fun _ _ hs _ => hs) hm

theorem triple_headers {α : Type} {m : ℕ → Prog ω α} {post : α → Machine ω → Prop}
    (hm : Exec.Triple (fun _ => True) (Holding d headers r) (m headers) post) :
    Exec.Triple (fun _ => True) (Holding d headers r) (responseHeaders d >>= m) post := by
  refine Exec.TripleWhile.seq (fun a s => Holding d headers r s ∧ a = headers)
    (Exec.triple_readSome fun s a hs ha => ⟨hs, ?_⟩) fun a s hs => ?_
  · rw [hs.link] at ha
    exact (Option.some.inj ha).symm
  · obtain ⟨hs, rfl⟩ := hs
    exact hm s hs

/-- **The method calls of the interpreter** take one object to the next, as `httpResponseCall`
does; a call with arguments of the wrong kind, or of an unknown method, changes nothing. -/
theorem httpResponseCallMethod_holds (n : ℕ) (method : Text) (argv : List Value) :
    Exec.Triple (fun _ => True) (Holding d headers r)
      (httpResponseCallMethod n d method argv : Prog ω (Option Value))
      (fun _ s => Holding d headers r s ∨ ∃ c, Holding d headers (httpResponseCall r c) s) := by
  have hcall : ∀ (c : ResponseCall) (v : Option Value), Exec.Triple (fun _ => True)
      (Holding d headers (httpResponseCall r c)) (pure v : Prog ω (Option Value))
      (fun _ s => Holding d headers r s ∨ ∃ c, Holding d headers (httpResponseCall r c) s) :=
    fun c v => Exec.triple_pure fun s hs => .inr ⟨c, hs⟩
  have hnone : ∀ v : Option Value, Exec.Triple (fun _ => True) (Holding d headers r)
      (pure v : Prog ω (Option Value))
      (fun _ s => Holding d headers r s ∨ ∃ c, Holding d headers (httpResponseCall r c) s) :=
    fun v => Exec.triple_pure fun s hs => .inl hs
  unfold httpResponseCallMethod
  refine Exec.triple_ite (fun _ => ?_) fun _ => Exec.triple_ite (fun _ => ?_) fun _ =>
    Exec.triple_ite (fun _ => ?_) fun _ => Exec.triple_ite (fun _ => ?_) fun _ => hnone _
  · exact triple_render fun body => triple_set (fun h hs => hs.setBody body) (hcall (.send body) _)
  · have hjson : ∀ body : Text, Exec.Triple (fun _ => True) (Holding d headers r)
        (do
          valueDataSet d (txt "__body") (.string body)
          let headers ← responseHeaders d
          valueDataSet headers (txt "Content-Type") (.string (txt "application/json"))
          pure (some (.data d)) : Prog ω (Option Value))
        (fun _ s => Holding d headers r s ∨ ∃ c, Holding d headers (httpResponseCall r c) s) :=
      fun body => triple_set (fun h hs => hs.setBody body) (triple_headers
        (triple_set (fun h hs => hs.setHeader _ _) (hcall (.json body) _)))
    cases argv with
    | nil =>
      exact Exec.TripleWhile.seq (fun _ => Holding d headers r) (Exec.triple_pure fun _ hs => hs) hjson
    | cons v argv => exact triple_render hjson
  · exact triple_set (fun h hs => hs.setStatus _) (hcall (.status _) _)
  · split
    · next key v _ =>
      exact triple_headers (triple_render fun value =>
        triple_set (fun h hs => hs.setHeader key value) (hcall (.header key value) _))
    · exact hnone _

end Calls

/-! ### Responses that can be built -/

/-- A header without line ends, without a colon in its key or a space in front of its value, and
no Content-Length. -/
structure HeaderAllowed (h : Text × Text) : Prop where
  key : ∀ c ∈ h.1, c ≠ 58 ∧ c ≠ 13 ∧ c ≠ 10 ∧ c ≠ 0
  value : ∀ c ∈ h.2, c ≠ 13 ∧ c ≠ 10 ∧ c ≠ 0
  noSpace : h.2.head? ≠ some 32
  notLength : strcaseEq h.1 (txt "Content-Length") = false

theorem HeaderAllowed.clean {h : Text × Text} (ha : HeaderAllowed h) : HeaderClean h := by
  constructor
  · intro c hc
    exact ⟨(ha.key c hc).1, (ha.key c hc).2.1, (ha.key c hc).2.2.2⟩
  · intro c hc
    exact ⟨(ha.value c hc).1, (ha.value c hc).2.2⟩
  · exact ha.noSpace

/-- Bodies are C strings, and headers are allowed. -/
def ResponseCall.Allowed : ResponseCall → Prop
  | .send body => 0 ∉ body
  | .json body => 0 ∉ body
  | .status _ => True
  | .header key value => HeaderAllowed (key, value)

/-- What holds of a response whatever a handler does with it. -/
structure HttpResponse.Sound (r : HttpResponse) : Prop where
  body : 0 ∉ r.body
  headers : ∀ e ∈ r.headers, HeaderAllowed e

theorem contentType_allowed : HeaderAllowed (txt "Content-Type", txt "application/json") :=
  ⟨forall_mem_of_all rfl, forall_mem_of_all rfl, by decide, by decide⟩

namespace HttpResponse

theorem Sound.call {r : HttpResponse} (h : r.Sound) {c : ResponseCall} (hc : c.Allowed) :
    (httpResponseCall r c).Sound := by
  have hset : ∀ {key value : Text}, HeaderAllowed (key, value) →
      ∀ e ∈ dataSet r.headers key value, HeaderAllowed e := by
    intro key value ha e he
    rcases mem_dataSet he with he | rfl
    · exact h.headers e he
    · exact ha
  cases c with
  | send body => exact ⟨hc, h.headers⟩
  | json body => exact ⟨hc, hset contentType_allowed⟩
  | status code => exact ⟨h.body, h.headers⟩
  | header key value => exact ⟨h.body, hset hc⟩

theorem sound_responseOf {calls : List ResponseCall} (h : ∀ c ∈ calls, c.Allowed) :
    (responseOf calls).Sound := by
  have hrun : ∀ r : HttpResponse, r.Sound → (calls.foldl httpResponseCall r).Sound := by
    induction calls with
    | nil => exact fun r hr => hr
    | cons c calls ih =>
      intro r hr
      rw [List.forall_mem_cons] at h
      exact ih h.2 _ (hr.call h.1)
  exact hrun httpMakeResponse ⟨List.not_mem_nil, nofun⟩

/-! ### The bytes -/

/-- The headers as they are meant to be sent. -/
def sentHeaders (r : HttpResponse) : List (Text × Text) :=
  r.headers ++ [(txt "Content-Length", natText r.body.length), (txt "Connection", txt "close")]

/-- The response as it is meant: the status line, a line for each header, the length of the body
and that the connection is closed, a blank line and the body. -/
def responseText (r : HttpResponse) : Text :=
  messageText (statusLine r.status) r.sentHeaders r.body

theorem responseText_eq (r : HttpResponse) :
    r.responseText = (statusLine r.status ++ [13, 10])
      ++ (r.headers.flatMap headerText
      ++ ((txt "Content-Length: " ++ (natText r.body.length ++ [13, 10]))
      ++ (txt "Connection: close\r\n\r\n" ++ r.body))) := by
  have hlast : headerText (txt "Connection", txt "close") ++ 13 :: 10 :: r.body
      = txt "Connection: close\r\n\r\n" ++ r.body := rfl
  have hlength : headerText (txt "Content-Length", natText r.body.length)
      = txt "Content-Length: " ++ (natText r.body.length ++ [13, 10]) := by
    rw [headerText, headerLine, List.append_assoc, List.append_assoc]
    rfl
  rw [responseText, messageText, sentHeaders, List.flatMap_append, List.append_assoc,
    List.flatMap_cons, List.flatMap_cons, List.flatMap_nil, List.append_nil, List.append_assoc,
    hlast, hlength, List.append_assoc (statusLine r.status)]
  rfl

theorem length_headerText (e : Text × Text) :
    (headerText e).length = e.1.length + e.2.length + 4 := by
  simp only [headerText, headerLine, List.length_append, List.length_cons, List.length_nil]
  omega

theorem longOfDouble_range (x : Float) : -2 ^ 63 ≤ longOfDouble x ∧ longOfDouble x < 2 ^ 63 := by
  unfold longOfDouble
  dsimp only
  split
  · omega
  · next hin =>
    rw [not_or, not_or] at hin
    omega

/-- The texts of `status_text`. -/
def statusTexts : List Text :=
  [txt "OK", txt "Created", txt "No Content", txt "Moved Permanently", txt "Found",
    txt "Bad Request", txt "Unauthorized", txt "Forbidden", txt "Not Found",
    txt "Method Not Allowed", txt "Internal Server Error", txt "Bad Gateway",
    txt "Service Unavailable"]

theorem statusText_mem (code : ℤ) : statusText code ∈ statusTexts := by
  have hite : ∀ {c : Prop} [Decidable c] {a b : Text}, a ∈ statusTexts → b ∈ statusTexts →
      (if c then a else b) ∈ statusTexts := by
    intro c _ a b ha hb
    split
    · exact ha
    · exact hb
  unfold statusText
  iterate 13 refine hite (by decide) ?_
  decide

theorem statusText_length (code : ℤ) : (statusText code).length ≤ 21 := by
  have hall : ∀ t ∈ statusTexts, t.length ≤ 21 := forall_mem_of_all rfl
  exact hall _ (statusText_mem code)

theorem statusText_bytes (code : ℤ) : ∀ c ∈ statusText code, c ≠ 13 ∧ c ≠ 0 := by
  have hall : ∀ t ∈ statusTexts, (t.all fun c => c ≠ 13 && c ≠ 0) = true := forall_mem_of_all rfl
  intro c hc
  have hbyte := List.all_eq_true.mp (hall _ (statusText_mem code)) c hc
  simpa using hbyte

theorem intText_length {n : ℤ} (hlo : -2 ^ 63 ≤ n) (hhi : n < 2 ^ 63) :
    (intText n).length ≤ 63 := by
  have hdigits : (natText n.natAbs).length ≤ 62 := natText_length (by omega)
  unfold intText
  split
  · rw [List.length_cons]
    omega
  · omega

/-- The status line fits the buffer. -/
theorem fmtLine_statusLine {status : ℤ} (hlo : -2 ^ 63 ≤ status) (hhi : status < 2 ^ 63) :
    fmtLine (statusLine status ++ [13, 10]) = statusLine status ++ [13, 10] := by
  have h₁ := intText_length hlo hhi
  have h₂ := statusText_length status
  have h₃ : (txt "HTTP/1.1 ").length = 9 := rfl
  apply List.take_of_length_le
  simp only [statusLine, List.length_append, List.length_cons, List.length_nil]
  omega

/-- Every header line fits the buffer. -/
def LinesFit (r : HttpResponse) : Prop := ∀ e ∈ r.headers, e.1.length + e.2.length + 4 ≤ 255

theorem fmtLine_headerText {e : Text × Text} (h : e.1.length + e.2.length + 4 ≤ 255) :
    fmtLine (headerText e) = headerText e :=
  List.take_of_length_le (by rw [length_headerText]; exact h)

/-- **The bytes that are written**, when every line fits. -/
theorem writeResponse_eq {r : HttpResponse} (hstatus : r.status.natAbs < 2 ^ 53)
    (hbody : r.body.length < 10 ^ 62) (hfit : r.LinesFit) : writeResponse r = r.responseText := by
  have hheaders : r.headers.flatMap (fun e => fmtLine (headerText e))
      = r.headers.flatMap headerText := by
    rw [List.flatMap_def, List.flatMap_def]
    exact congrArg List.flatten (List.map_congr_left fun e he => fmtLine_headerText (hfit e he))
  have hlength : fmtLine (txt "Content-Length: " ++ (natText r.body.length ++ [13, 10]))
      = txt "Content-Length: " ++ (natText r.body.length ++ [13, 10]) := by
    have hdigits := natText_length hbody
    have hkey : (txt "Content-Length: ").length = 16 := rfl
    apply List.take_of_length_le
    simp only [List.length_append, List.length_cons, List.length_nil]
    omega
  rw [responseText_eq, writeResponse, longOfDouble_doubleOfLong hstatus,
    fmtLine_statusLine (by omega) (by omega), hheaders, hlength]

theorem intText_bytes (n : ℤ) : ∀ c ∈ intText n, c = 45 ∨ isDigit c := by
  intro c hc
  unfold intText at hc
  split at hc
  · rcases List.mem_cons.mp hc with rfl | hc
    · exact .inl rfl
    · exact .inr (isDigit_of_mem_natText hc)
  · exact .inr (isDigit_of_mem_natText hc)

theorem intText_inj {n m : ℤ} (h : intText n = intText m) : n = m := by
  have hminus : ∀ k l, 45 :: natText k ≠ natText l := by
    intro k l heq
    have hdigit : isDigit 45 := isDigit_of_mem_natText (n := l) (heq ▸ List.mem_cons_self)
    cases hdigit
  unfold intText at h
  split at h
  · split at h
    · have := natText_inj (List.tail_eq_of_cons_eq h)
      omega
    · exact absurd h (hminus _ _)
  · split at h
    · exact absurd h.symm (hminus _ _)
    · have := natText_inj h
      omega

/-- The status that a status line shows. -/
theorem statusLine_inj {n m : ℤ} {s t : Text} (h : statusLine n ++ s = statusLine m ++ t) :
    n = m := by
  have hblank : ∀ n : ℤ, ∀ c ∈ intText n, (c ≠ 32 : Bool) := by
    intro n c hc
    rcases intText_bytes n c hc with rfl | hdigit
    · rfl
    · refine decide_eq_true ?_
      rintro rfl
      cases hdigit
  simp only [statusLine, List.append_assoc, List.cons_append] at h
  have htail := List.append_cancel_left h
  exact intText_inj (run_unique (hblank n) (hblank m) (stopsRun_cons rfl _) (stopsRun_cons rfl _)
    htail).1

/-- Lines that are cut somewhere are shorter than they were meant. -/
theorem flatMap_fmtLine_length (headers : List (Text × Text)) :
    (headers.flatMap fun e => fmtLine (headerText e)).length ≤ (headers.flatMap headerText).length ∧
      ((headers.flatMap fun e => fmtLine (headerText e)).length
          = (headers.flatMap headerText).length →
        ∀ e ∈ headers, e.1.length + e.2.length + 4 ≤ 255) := by
  induction headers with
  | nil => exact ⟨Nat.le_refl _, fun _ => nofun⟩
  | cons e headers ih =>
    have hline : (fmtLine (headerText e)).length = min 255 (e.1.length + e.2.length + 4) := by
      rw [fmtLine, List.length_take, length_headerText]
    rw [List.flatMap_cons, List.flatMap_cons, List.length_append, List.length_append, hline,
      length_headerText]
    constructor
    · have := ih.1
      omega
    · intro hlength
      rw [List.forall_mem_cons]
      have hle := ih.1
      exact ⟨by omega, ih.2 (by omega)⟩

/-- **The bytes are as they are meant only if every line fits.** -/
theorem lines_of_writeResponse_eq {r : HttpResponse} (h : writeResponse r = r.responseText) :
    longOfDouble (doubleOfLong r.status) = r.status ∧ r.LinesFit := by
  obtain ⟨hlo, hhi⟩ := longOfDouble_range (doubleOfLong r.status)
  rw [responseText_eq, writeResponse, fmtLine_statusLine hlo hhi, List.append_assoc,
    List.append_assoc] at h
  have hstatus := statusLine_inj h
  rw [hstatus] at h
  refine ⟨hstatus, ?_⟩
  have hrest := List.append_cancel_left (List.append_cancel_left h)
  have hlength := congrArg List.length hrest
  obtain ⟨hle, hfit⟩ := flatMap_fmtLine_length r.headers
  have hcut : (fmtLine (txt "Content-Length: " ++ (natText r.body.length ++ [13, 10]))).length
      ≤ (txt "Content-Length: " ++ (natText r.body.length ++ [13, 10])).length := by
    rw [fmtLine, List.length_take]
    exact Nat.min_le_right _ _
  simp only [List.length_append] at hlength hcut
  exact hfit (by omega)

/-! ### What the client finds -/

/-- Where the head of the response ends. -/
def headEnd (r : HttpResponse) : ℕ := messageHead (statusLine r.status) r.sentHeaders

/-- The headers as the client's buffers hold them. -/
def keptHeaders (r : HttpResponse) : List (Text × Text) :=
  r.sentHeaders.map fun e => (e.1.take 127, e.2.take 511)

theorem isWordByte_intText (n : ℤ) : ∀ c ∈ intText n, Request.isWordByte c := by
  intro c hc
  rcases intText_bytes n c hc with rfl | hdigit
  · decide
  · have hrange := isDigit_iff.mp hdigit
    constructor
    · rw [Bool.eq_false_iff, ne_eq, isSpace_iff]
      omega
    · rintro rfl
      cases hdigit

theorem intText_ne_nil (n : ℤ) : intText n ≠ [] := by
  unfold intText
  split
  · exact List.cons_ne_nil _ _
  · exact natText_ne_nil _

theorem statusLine_bytes (status : ℤ) : ∀ c ∈ statusLine status, c ≠ 13 ∧ c ≠ 0 := by
  intro c hc
  rw [statusLine, List.mem_append, List.mem_append, List.mem_cons] at hc
  rcases hc with hc | hc | rfl | hc
  · have hversion : ∀ c ∈ txt "HTTP/1.1 ", c ≠ 13 ∧ c ≠ 0 := forall_mem_of_all rfl
    exact hversion c hc
  · exact Request.isWordByte_ne (isWordByte_intText status c hc)
  · decide
  · exact statusText_bytes status c hc

/-- The status line, as two words and a text. -/
theorem statusLine_eq (status : ℤ) :
    statusLine status = txt "HTTP/1.1" ++ 32 :: (intText status ++ 32 :: statusText status) := rfl

theorem natText_clean (n : ℕ) : HeaderClean (txt "Content-Length", natText n) := by
  have hdigits : ∀ c ∈ natText n, c ≠ 13 ∧ c ≠ 0 ∧ c ≠ 32 := by
    intro c hc
    have hrange := isDigit_iff.mp (isDigit_of_mem_natText hc)
    refine ⟨?_, ?_, ?_⟩
    · rintro rfl
      exact absurd hrange.1 (by decide)
    · rintro rfl
      exact absurd hrange.1 (by decide)
    · rintro rfl
      exact absurd hrange.1 (by decide)
  constructor
  · exact forall_mem_of_all rfl
  · exact fun c hc => ⟨(hdigits c hc).1, (hdigits c hc).2.1⟩
  · intro hspace
    exact (hdigits 32 (List.mem_of_head? hspace)).2.2 rfl

theorem Sound.sentHeaders_clean {r : HttpResponse} (h : r.Sound) :
    ∀ e ∈ r.sentHeaders, HeaderClean e := by
  intro e he
  rw [sentHeaders, List.mem_append, List.mem_cons, List.mem_singleton] at he
  rcases he with he | rfl | rfl
  · exact (h.headers e he).clean
  · exact natText_clean _
  · exact ⟨forall_mem_of_all rfl, forall_mem_of_all rfl, by decide⟩

section Client

variable {r : HttpResponse} (h : r.Sound)

theorem findCrlf_responseText (r : HttpResponse) :
    findCrlf r.responseText = some (statusLine r.status).length :=
  findCrlf_messageText (statusLine_bytes r.status) _

theorem take_responseText (r : HttpResponse) :
    r.responseText.take (statusLine r.status).length = statusLine r.status :=
  List.take_left

theorem length_responseText (r : HttpResponse) :
    r.responseText.length = r.headEnd + r.body.length := by
  simp only [responseText, messageText, headEnd, messageHead, List.length_append, List.length_cons]
  omega

theorem drop_responseText (r : HttpResponse) : r.responseText.drop r.headEnd = r.body :=
  drop_messageText _ _ _

theorem parse_responseText (hlo : -2 ^ 63 ≤ r.status) (hhi : r.status < 2 ^ 63) :
    (parseRequest r.responseText r.headEnd).1 = true := by
  have h₁ := intText_length hlo hhi
  have h₂ := statusText_length r.status
  have h₃ : (txt "HTTP/1.1").length = 8 := rfl
  have hlength : (statusLine r.status).length ≤ 2047 := by
    simp only [statusLine_eq, List.length_append, List.length_cons]
    omega
  have hversion : ∀ c ∈ txt "HTTP/1.1", Request.isWordByte c := forall_mem_of_all rfl
  rw [parseRequest, findCrlf_responseText]
  dsimp only
  rw [take_responseText, List.take_of_length_le hlength, statusLine_eq,
    scanTwoWords_line hversion (isWordByte_intText r.status) (by decide) (intText_ne_nil _)
      (by decide) (by omega)]
  rfl

include h

theorem Sound.findHeaderEnd : findHeaderEnd r.responseText = some r.headEnd :=
  findHeaderEnd_messageText (statusLine_bytes r.status) h.sentHeaders_clean _

theorem Sound.headers_read :
    (headLines r.responseText r.headEnd).filterMap parseHeaderLine = r.keptHeaders := by
  have hlines : headLines r.responseText r.headEnd = r.sentHeaders.map headerLine :=
    headLines_messageText (statusLine_bytes r.status) h.sentHeaders_clean _
  rw [hlines, filterMap_parseHeaderLine h.sentHeaders_clean, keptHeaders]

/-- **The length that the client finds**: the one that was sent, if its line is one of the first
48. -/
theorem Sound.contentLength (hlo : -2 ^ 63 ≤ r.status) (hhi : r.status < 2 ^ 63)
    (hbody : r.body.length < 2 ^ 63) :
    contentLengthOf r.responseText r.headEnd
      = if r.headers.length < 48 then (r.body.length : ℤ) else 0 := by
  have hnone : r.headers.find? (fun e => strcaseEq e.1 (txt "Content-Length")) = none := by
    rw [List.find?_eq_none]
    intro e he hmatch
    rw [(h.headers e he).notLength] at hmatch
    cases hmatch
  have hcut : (r.headers.map fun e => (e.1.take 127, e.2.take 511)).find?
      (fun e => strcaseEq e.1 (txt "Content-Length")) = none := by
    rw [find_cut _ (by decide), hnone]
    rfl
  have hheaders := parseRequest_headers (parse_responseText hlo hhi)
  rw [h.headers_read] at hheaders
  have hget : getHeader (parseRequest r.responseText r.headEnd).2 (txt "Content-Length") 64
      = if r.headers.length < 48 then natText r.body.length else [] := by
    have hdigits : (natText r.body.length).length ≤ 62 := natText_length (by omega)
    have hvalue : (natText r.body.length).take 511 = natText r.body.length :=
      List.take_of_length_le (by omega)
    have hname : strcaseEq ((txt "Content-Length").take 127) (txt "Content-Length") = true := by
      decide
    rw [getHeader, hheaders, keptHeaders, sentHeaders, List.map_append, List.take_append,
      List.length_map, List.find?_append]
    split_ifs with hroom
    · obtain ⟨k, hk⟩ : ∃ k, 48 - r.headers.length = k + 1 := ⟨47 - r.headers.length, by omega⟩
      rw [List.take_of_length_le (by rw [List.length_map]; omega), hcut, hk, List.map_cons,
        List.take_succ_cons]
      simp only [List.find?_cons, hname, Option.none_or, hvalue]
      exact List.take_of_length_le (by omega)
    · have hfirst : ((r.headers.map fun e => (e.1.take 127, e.2.take 511)).take 48).find?
          (fun e => strcaseEq e.1 (txt "Content-Length")) = none := by
        rw [List.find?_eq_none] at hcut ⊢
        exact fun e he => hcut e (List.mem_of_mem_take he)
      have hzero : 48 - r.headers.length = 0 := by omega
      rw [hfirst, hzero, List.take_zero]
      rfl
  rw [contentLengthOf, hget]
  split_ifs with hroom
  · obtain ⟨c, t, hdigits⟩ := List.exists_cons_of_ne_nil (natText_ne_nil r.body.length)
    have hvalue := atol_natText hbody
    rw [hdigits] at hvalue ⊢
    exact hvalue
  · rfl

end Client

theorem takeWhile_stop {p : UInt8 → Bool} {c : UInt8} (hc : p c = false) (s t : Text) :
    (s ++ c :: t).takeWhile p = s.takeWhile p := by
  induction s with
  | nil => exact List.takeWhile_cons_of_neg (by rw [hc]; decide)
  | cons d s ih =>
    rw [List.cons_append, List.takeWhile_cons, List.takeWhile_cons, ih]

/-- `%d` reads the status that `%lld` wrote. -/
theorem atol_intText {n : ℤ} (hlo : -2 ^ 63 ≤ n) (hhi : n < 2 ^ 63) (t : Text) :
    atol (intText n ++ 32 :: t) = n := by
  have hsame : atol (intText n ++ 32 :: t) = atol (intText n) := by
    obtain ⟨c, s, hcs⟩ := List.exists_cons_of_ne_nil (intText_ne_nil n)
    have hc : isSpace c = false := (isWordByte_intText n c (hcs ▸ List.mem_cons_self)).1
    have hdrop : ∀ u : Text, (c :: u).dropWhile isSpace = c :: u := fun u =>
      List.dropWhile_cons_of_neg (by rw [hc]; decide)
    have hdigits : (if some c = some 45 ∨ some c = some 43 then (c :: (s ++ 32 :: t)).drop 1
          else c :: (s ++ 32 :: t)).takeWhile isDigit
        = (if some c = some 45 ∨ some c = some 43 then (c :: s).drop 1
          else c :: s).takeWhile isDigit := by
      split
      · exact takeWhile_stop rfl s t
      · exact takeWhile_stop rfl (c :: s) t
    rw [hcs, List.cons_append]
    unfold atol
    dsimp only
    rw [hdrop, hdrop, List.head?_cons, List.head?_cons, hdigits]
  rw [hsame, intText]
  split
  · next hneg =>
    rw [atol_neg_natText (by omega)]
    omega
  · next hpos =>
    rw [atol_natText (by omega)]
    omega

/-- **The status that the client finds.** -/
theorem scanStatus_statusLine {status : ℤ} (hlo : -2 ^ 63 ≤ status) (hhi : status < 2 ^ 63) :
    scanStatus (statusLine status) = Int.bmod status (2 ^ 32) := by
  have hversion : ∀ c ∈ txt "HTTP/1.1", Request.isWordByte c := forall_mem_of_all rfl
  have hword : ((statusLine status).takeWhile (! isSpace ·)).take 31 = txt "HTTP/1.1" := by
    rw [statusLine_eq, takeWhile_word hversion]
    exact List.take_of_length_le (by decide)
  have hrest : ((statusLine status).drop (txt "HTTP/1.1").length).dropWhile isSpace
      = intText status ++ 32 :: statusText status := by
    rw [statusLine_eq, List.drop_left, List.dropWhile_cons_of_pos (by decide),
      dropWhile_word (isWordByte_intText status) (intText_ne_nil status)]
  have hstart : (statusLine status).dropWhile isSpace = statusLine status := by
    rw [statusLine_eq, dropWhile_word hversion (by decide)]
  rw [scanStatus, hstart, hword, if_neg (by decide), hrest, atol_intText hlo hhi]

/-- The client's buffer holds the response: it is small enough, or one byte larger and read so
far that the head was found before. -/
def SizeFits (r : HttpResponse) : Prop :=
  r.responseText.length ≤ maxResponse ∨
    r.responseText.length = maxResponse + 1 ∧ 8192 ≤ r.body.length

theorem SizeFits.headEnd_le {r : HttpResponse} (h : r.SizeFits) : r.headEnd ≤ maxResponse := by
  have hlength := length_responseText r
  rcases h with h | ⟨h, hbody⟩
  · omega
  · omega

/-- The number of bytes that the client waits for. -/
theorem Sound.requestSpan {r : HttpResponse} (h : r.Sound) (hlo : -2 ^ 63 ≤ r.status)
    (hhi : r.status < 2 ^ 63) (hsize : r.SizeFits) :
    Jaguar.requestSpan r.responseText r.headEnd
      = if r.headers.length < 48 then r.responseText.length else r.headEnd := by
  have hhead := hsize.headEnd_le
  have hlength := length_responseText r
  have hmax : r.responseText.length ≤ maxResponse + 1 := by
    rcases hsize with h | ⟨h, -⟩ <;> omega
  unfold maxResponse at hhead hmax
  rw [Jaguar.requestSpan, requestLength, h.contentLength hlo hhi (by omega)]
  split_ifs with hroom
  · omega
  · omega

/-- The reply of the client. -/
def reply (r : HttpResponse) : HttpReply := ⟨Int.bmod r.status (2 ^ 32), r.keptHeaders, r.body⟩

/-- The reply made of a run that read everything up to byte `j`. -/
theorem Sound.receive {r : HttpResponse} (h : r.Sound) (hlo : -2 ^ 63 ≤ r.status)
    (hhi : r.status < 2 ^ 63) {chunks : List Text} {j : ℕ} (hj : r.headEnd ≤ j)
    (hread : readResponse [] chunks = (r.responseText.take j, some r.headEnd)) :
    receiveResponse chunks = .done { r.reply with body := r.body.take (j - r.headEnd) } := by
  have h₁ := intText_length hlo hhi
  have h₂ := statusText_length r.status
  have h₃ : (txt "HTTP/1.1 ").length = 9 := rfl
  have hline : (statusLine r.status).length ≤ 255 := by
    simp only [statusLine, List.length_append, List.length_cons]
    omega
  have hbody : (r.responseText.take j).drop r.headEnd = r.body.take (j - r.headEnd) := by
    rw [List.drop_take, drop_responseText]
  have hnul : 0 ∉ r.body.take (j - r.headEnd) := fun hmem => h.body (List.mem_of_mem_take hmem)
  rw [receiveResponse_of_read h.findHeaderEnd hj hread (findCrlf_responseText r),
    take_responseText, List.take_of_length_le hline, scanStatus_statusLine hlo hhi,
    h.headers_read, hbody, cStr_eq_self hnul]
  rfl

/-- **What the client makes of the response**, however it is cut into segments. -/
theorem Sound.receiveResponse_responseText {r : HttpResponse} (h : r.Sound)
    (hlo : -2 ^ 63 ≤ r.status) (hhi : r.status < 2 ^ 63) (hsize : r.SizeFits)
    (hroom : r.headers.length < 48 ∨ r.body = []) {chunks : List Text}
    (hchunks : Segmented r.responseText chunks) : receiveResponse chunks = .done r.reply := by
  have hlength := length_responseText r
  have hhead := hsize.headEnd_le
  have hn : r.headEnd < 2 ^ 64 := by
    unfold maxResponse at hhead
    omega
  have hguard : r.responseText.length ≤ maxResponse ∨ r.responseText.length = maxResponse + 1 ∧
      r.headEnd + 8192 ≤ r.responseText.length ∧ ∀ c ∈ chunks, c.length ≤ 8192 := by
    rcases hsize with hsmall | ⟨hone, hbody⟩
    · exact .inl hsmall
    · exact .inr ⟨hone, by omega, fun c hc => (hchunks.2 c hc).2⟩
  obtain ⟨j, hread, hj, hstop⟩ := readResponse_stops h.findHeaderEnd hn (Nat.zero_le _)
    (by rw [List.drop_zero, hchunks.1]) hguard
  rw [List.take_zero] at hread
  have hall : r.body.length ≤ j - r.headEnd := by
    rcases hstop with hspan | rfl
    · rw [h.requestSpan hlo hhi hsize] at hspan
      split_ifs at hspan with hfew
      · omega
      · rw [hroom.resolve_left hfew, List.length_nil]
        exact Nat.zero_le _
    · omega
  rw [h.receive hlo hhi hj hread, List.take_of_length_le hall]
  rfl

/-! ### Headers with one key -/

/-- No later line gives the client another value under the key: not the Connection line, and
not a line whose key is the same up to 127 bytes. -/
def KeysKept (r : HttpResponse) : Prop :=
  ∀ newer key value older, r.headers = newer ++ (key, value) :: older → key.length ≤ 127 →
    if key = txt "Connection" then value = txt "close"
    else ∀ e, (older.reverse.find? fun e => e.1.take 127 = key) = some e → e.2 = value

/-- What the client has under the key of a header. -/
theorem Sound.dataGet_kept {r : HttpResponse} (h : r.Sound) {newer older : List (Text × Text)}
    {key value : Text} (hsplit : r.headers = newer ++ (key, value) :: older)
    (hkey : key.length ≤ 127) :
    dataGet (dataSetAll [] r.keptHeaders) key
      = if key = txt "Connection" then some (txt "close")
        else some (((older.reverse.find? fun e => e.1.take 127 = key).map
          fun e => e.2.take 511).getD (value.take 511)) := by
  have hlength : txt "Content-Length" ≠ key := by
    rintro rfl
    have hnot := (h.headers (txt "Content-Length", value) (by rw [hsplit]; simp)).notLength
    have hname : strcaseEq (txt "Content-Length") (txt "Content-Length") = true := by decide
    exact absurd (hname.symm.trans hnot) (by decide)
  have hfind : ∀ es : List (Text × Text),
      (es.map fun e => (e.1.take 127, e.2.take 511)).find? (fun e => e.1 = key)
        = (es.find? fun e => e.1.take 127 = key).map fun e => (e.1.take 127, e.2.take 511) := by
    intro es
    rw [List.find?_map]
    rfl
  have hsent : r.keptHeaders.reverse = (txt "Connection", txt "close")
      :: (txt "Content-Length", (natText r.body.length).take 511)
      :: (older.reverse ++ (key, value) :: newer.reverse).map
        fun e => (e.1.take 127, e.2.take 511) := by
    have hreverse : r.sentHeaders.reverse = (txt "Connection", txt "close")
        :: (txt "Content-Length", natText r.body.length)
        :: (older.reverse ++ (key, value) :: newer.reverse) := by
      rw [sentHeaders, hsplit]
      simp
    rw [keptHeaders, ← List.map_reverse, hreverse]
    rfl
  have hskip : ∀ (e : Text × Text) (es : List (Text × Text)), e.1 ≠ key →
      (e :: es).find? (fun e => e.1 = key) = es.find? fun e => e.1 = key :=
    fun e es hne => List.find?_cons_of_neg (by simpa using hne)
  rw [dataGet_dataSetAll, hsent]
  by_cases hconn : key = txt "Connection"
  · subst hconn
    rfl
  · rw [if_neg hconn, hskip _ _ (Ne.symm hconn), hskip _ _ hlength, hfind, List.find?_append]
    cases older.reverse.find? (fun e => e.1.take 127 = key) with
    | some e => rfl
    | none =>
      have hself : key.take 127 = key := List.take_of_length_le hkey
      rw [Option.none_or, List.find?_cons_of_pos (by simpa using hself)]
      rfl

/-- The headers that fit the client's buffers arrive, if the keys are kept. -/
theorem Sound.headers_arrive_iff {r : HttpResponse} (h : r.Sound) (hfit : r.LinesFit) :
    (∀ e ∈ r.headers, e.1.length ≤ 127 → e.2.length ≤ 511 →
      dataGet (dataSetAll [] r.keptHeaders) e.1 = some e.2) ↔ r.KeysKept := by
  have hshort : ∀ e ∈ r.headers, e.2.take 511 = e.2 := by
    intro e he
    have := hfit e he
    exact List.take_of_length_le (by omega)
  constructor
  · intro harrive newer key value older hsplit hkey
    have hmem : (key, value) ∈ r.headers := by rw [hsplit]; simp
    have hline := hfit _ hmem
    dsimp only at hline
    have hget := harrive _ hmem hkey (by dsimp only; omega)
    dsimp only at hget
    rw [h.dataGet_kept hsplit hkey] at hget
    split_ifs at hget ⊢ with hconn
    · exact (Option.some.inj hget).symm
    · intro e he
      have holder : e ∈ r.headers := by
        rw [hsplit]
        exact List.mem_append_right _ (List.mem_cons_of_mem _
          (List.mem_reverse.mp (List.mem_of_find?_eq_some he)))
      rw [he, Option.map_some, Option.getD_some, hshort e holder] at hget
      exact Option.some.inj hget
  · rintro hkept ⟨key, value⟩ hmem hkey -
    obtain ⟨newer, older, hsplit⟩ := List.append_of_mem hmem
    have hvalue := hkept newer key value older hsplit hkey
    rw [h.dataGet_kept hsplit hkey]
    split_ifs at hvalue ⊢ with hconn
    · rw [hvalue]
    · cases hfind : older.reverse.find? (fun e => e.1.take 127 = key) with
      | none =>
        rw [Option.map_none, Option.getD_none, hshort _ hmem]
      | some e =>
        have holder : e ∈ r.headers := by
          rw [hsplit]
          exact List.mem_append_right _ (List.mem_cons_of_mem _
            (List.mem_reverse.mp (List.mem_of_find?_eq_some hfind)))
        rw [Option.map_some, Option.getD_some, hshort e holder, hvalue e hfind]

/-! ### Arriving -/

/-- The reply has the status, the body, and every header that fits the client's buffers. -/
structure Recovered (r : HttpResponse) (reply : HttpReply) : Prop where
  status : reply.status = r.status
  body : reply.body = r.body
  headers : ∀ e ∈ r.headers, e.1.length ≤ 127 → e.2.length ≤ 511 →
    dataGet (dataSetAll [] reply.headers) e.1 = some e.2

/-- The bytes are as they are meant, and however they are cut into segments, the client recovers
the response. -/
structure Arrives (r : HttpResponse) : Prop where
  bytes : writeResponse r = r.responseText
  client : ∀ chunks, Segmented (writeResponse r) chunks →
    ∃ reply, receiveResponse chunks = .done reply ∧ r.Recovered reply

/-- What the response has to be like: every header line fits the buffer it is written through,
the status is an `int`, the client's buffer holds the response, the Content-Length is among the
48 headers that are searched for it, and no later line has the key of a header. -/
structure Deliverable (r : HttpResponse) : Prop where
  lines : r.LinesFit
  status : -2 ^ 31 ≤ r.status ∧ r.status < 2 ^ 31
  size : r.SizeFits
  room : r.headers.length < 48 ∨ r.body = []
  keys : r.KeysKept

theorem recovered_reply_iff {r : HttpResponse} (h : r.Sound) (hfit : r.LinesFit) :
    r.Recovered r.reply ↔ (-2 ^ 31 ≤ r.status ∧ r.status < 2 ^ 31) ∧ r.KeysKept := by
  rw [← h.headers_arrive_iff hfit]
  constructor
  · intro hrec
    have hstatus : Int.bmod r.status (2 ^ 32) = r.status := hrec.status
    have hlo := @Int.le_bmod r.status (2 ^ 32) (by decide)
    have hhi := @Int.bmod_lt r.status (2 ^ 32) (by decide)
    rw [hstatus] at hlo hhi
    exact ⟨⟨by omega, by omega⟩, hrec.headers⟩
  · rintro ⟨⟨hlo, hhi⟩, hheaders⟩
    refine ⟨?_, rfl, hheaders⟩
    exact Int.bmod_eq_of_le (by omega) (by omega)

/-- A deliverable response arrives. -/
theorem Deliverable.arrives {r : HttpResponse} (h : r.Sound) (hd : r.Deliverable) : r.Arrives := by
  obtain ⟨hlo, hhi⟩ := hd.status
  have hlength := length_responseText r
  have hbody : r.body.length ≤ maxResponse + 1 := by
    rcases hd.size with hsmall | ⟨hone, -⟩
    · omega
    · omega
  unfold maxResponse at hbody
  have hbytes : writeResponse r = r.responseText :=
    writeResponse_eq (by omega) (by omega) hd.lines
  refine ⟨hbytes, fun chunks hchunks => ⟨r.reply, ?_, ?_⟩⟩
  · rw [hbytes] at hchunks
    exact h.receiveResponse_responseText (by omega) (by omega) hd.size hd.room hchunks
  · exact (recovered_reply_iff h hd.lines).mpr ⟨hd.status, hd.keys⟩

/-- Read byte after byte, a response that is too large is cut off. -/
theorem readResponse_singles {s : Text} {n : ℕ} (h : findHeaderEnd s = some n)
    (hlong : maxResponse + 1 < s.length) {chunks : List Text} :
    ∀ {k : ℕ}, k ≤ maxResponse → s.drop k = chunks.flatten → (∀ c ∈ chunks, c.length = 1) →
      ∃ j e, readResponse (s.take k) chunks = (s.take j, e) ∧ j ≤ maxResponse + 1 ∧
        (e = none ∨ e = some n ∧ n ≤ j) := by
  induction chunks with
  | nil =>
    intro k hk hrest _
    have hlength := congrArg List.length hrest
    rw [List.length_drop, List.flatten_nil, List.length_nil] at hlength
    omega
  | cons chunk chunks ih =>
    intro k hk hrest hsingle
    rw [List.forall_mem_cons] at hsingle
    have hhead : findHeaderEnd (s.take k) = none ∨ findHeaderEnd (s.take k) = some n ∧ n ≤ k := by
      rw [findHeaderEnd_take h]
      split_ifs with hnk
      · exact .inr ⟨rfl, hnk⟩
      · exact .inl rfl
    have hbuf : s.take k ++ chunk = s.take (k + 1) := by
      rw [List.take_add, hrest, List.flatten_cons, ← hsingle.1, List.take_left]
    have hnext : s.drop (k + 1) = chunks.flatten := by
      rw [← List.drop_drop, hrest, List.flatten_cons, ← hsingle.1, List.drop_left]
    rw [readResponse]
    by_cases hready : responseReady (s.take k) = true
    · rw [if_pos hready]
      exact ⟨k, _, rfl, by omega, hhead⟩
    · rw [if_neg hready, hbuf, List.length_take, Nat.min_eq_left (by omega)]
      split_ifs with hguard
      · exact ⟨k + 1, _, rfl, by omega, hhead.imp_right fun hh => ⟨hh.1, by omega⟩⟩
      · exact ih (by omega) hnext hsingle.2

/-- A run in which the last of the head comes with the whole body, and too late. -/
theorem exists_late_head {r : HttpResponse} (h : r.Sound)
    (hone : r.responseText.length = maxResponse + 1) (hbody : r.body.length < 8192) :
    ∃ chunks, Segmented r.responseText chunks ∧ receiveResponse chunks
      = .error (txt "malformed response") := by
  have hlength := length_responseText r
  have hpos : 0 < r.headEnd := by
    rw [headEnd, messageHead]
    omega
  have hn : r.headEnd < 2 ^ 64 := by
    unfold maxResponse at hone
    omega
  obtain ⟨k, hk⟩ : ∃ k, r.headEnd = k + 1 := Nat.exists_eq_succ_of_ne_zero hpos.ne'
  have htake : (r.responseText.take k).length = k := by
    rw [List.length_take]
    omega
  have hhead : findHeaderEnd (r.responseText.take k) = none := by
    rw [findHeaderEnd_take h.findHeaderEnd, if_neg (by omega)]
  have hspan : r.headEnd ≤ requestSpan r.responseText r.headEnd := le_max_left _ _
  refine ⟨(r.responseText.take k).map (fun c => [c]) ++ [r.responseText.drop k], ?_, ?_⟩
  · conv_lhs => rw [← List.take_append_drop k r.responseText]
    refine (segmented_bytes _).append ⟨by simp, ?_⟩
    intro c hc
    obtain rfl := List.mem_singleton.mp hc
    have hrest : (r.responseText.drop k).length = r.body.length + 1 := by
      rw [List.length_drop]
      omega
    exact ⟨List.ne_nil_of_length_pos (by omega), by omega⟩
  · have hrun := readResponse_bytes h.findHeaderEnd hn [r.responseText.drop k]
      (r.responseText.take k) (k := 0)
      (by rw [Nat.zero_add, htake, List.drop_zero, List.take_append_drop]) (by omega) (by omega)
      (by omega)
    rw [Nat.zero_add, htake, List.take_zero] at hrun
    have hready : ¬ responseReady (r.responseText.take k) = true := by
      rw [responseReady, hhead]
      exact Bool.false_ne_true
    rw [receiveResponse, hrun, readResponse, if_neg hready, List.take_append_drop,
      if_pos (by omega), hhead]

theorem Arrives.status_range {r : HttpResponse} (ha : r.Arrives) :
    -2 ^ 63 ≤ r.status ∧ r.status < 2 ^ 63 := by
  have hrange := longOfDouble_range (doubleOfLong r.status)
  rwa [(lines_of_writeResponse_eq ha.bytes).1] at hrange

/-- A response that arrives fits the client's buffer. -/
theorem Arrives.size {r : HttpResponse} (h : r.Sound) (ha : r.Arrives) : r.SizeFits := by
  have hlength := length_responseText r
  obtain ⟨hlo, hhi⟩ := ha.status_range
  have hclient := ha.client
  rw [ha.bytes] at hclient
  by_contra hno
  rw [SizeFits, not_or, not_le, not_and, not_le] at hno
  rcases Nat.lt_or_ge (maxResponse + 1) r.responseText.length with hlong | hone
  · obtain ⟨j, e, hread, hj, he⟩ := readResponse_singles h.findHeaderEnd hlong (Nat.zero_le _)
      (by rw [List.drop_zero, (segmented_bytes r.responseText).1])
      (fun c hc => by obtain ⟨b, -, rfl⟩ := List.mem_map.mp hc; rfl)
    rw [List.take_zero] at hread
    obtain ⟨reply, hreply, hrec⟩ := hclient _ (segmented_bytes _)
    rcases he with rfl | ⟨rfl, hnj⟩
    · rw [receiveResponse, hread] at hreply
      cases hreply
    · rw [h.receive hlo hhi hnj hread] at hreply
      have hbody := hrec.body
      rw [← ClientResult.done.inj hreply] at hbody
      have hcut := congrArg List.length hbody
      rw [List.length_take] at hcut
      omega
  · have hexact : r.responseText.length = maxResponse + 1 := by omega
    obtain ⟨chunks, hchunks, herror⟩ := exists_late_head h hexact (hno.2 hexact)
    obtain ⟨reply, hreply, -⟩ := hclient chunks hchunks
    rw [herror] at hreply
    cases hreply

/-- A response with a body that arrives has its Content-Length among the first 48 headers. -/
theorem Arrives.room {r : HttpResponse} (h : r.Sound) (ha : r.Arrives) :
    r.headers.length < 48 ∨ r.body = [] := by
  have hsize := ha.size h
  have hhead := hsize.headEnd_le
  have hlength := length_responseText r
  obtain ⟨hlo, hhi⟩ := ha.status_range
  by_contra hno
  rw [not_or] at hno
  have hspan : requestSpan r.responseText r.headEnd = r.headEnd := by
    rw [h.requestSpan hlo hhi hsize, if_neg hno.1]
  have hn : r.headEnd < 2 ^ 64 := by
    unfold maxResponse at hhead
    omega
  -- the loop stops at the end of the head, before the body
  obtain ⟨chunks, hchunks, hread⟩ := exists_response_span h.findHeaderEnd hn (by omega) (by omega)
  rw [hspan] at hread
  rw [← ha.bytes] at hchunks
  obtain ⟨reply, hreply, hrec⟩ := ha.client chunks hchunks
  rw [h.receive hlo hhi (Nat.le_refl _) hread] at hreply
  have hbody := hrec.body
  rw [← ClientResult.done.inj hreply] at hbody
  dsimp only at hbody
  rw [Nat.sub_self, List.take_zero] at hbody
  exact hno.2 hbody.symm

/-- Only deliverable responses arrive. -/
theorem Arrives.deliverable {r : HttpResponse} (h : r.Sound) (ha : r.Arrives) : r.Deliverable := by
  obtain ⟨hlo, hhi⟩ := ha.status_range
  have hfit := (lines_of_writeResponse_eq ha.bytes).2
  have hsize := ha.size h
  have hroom := ha.room h
  obtain ⟨reply, hreply, hrec⟩ := ha.client _ (segmented_bytes _)
  rw [h.receiveResponse_responseText hlo hhi hsize hroom
    (by rw [← ha.bytes]; exact segmented_bytes _)] at hreply
  rw [← ClientResult.done.inj hreply] at hrec
  obtain ⟨hrange, hkeys⟩ := (recovered_reply_iff h hfit).mp hrec
  exact ⟨hfit, hrange, hsize, hroom, hkeys⟩

end HttpResponse

open HttpResponse in
/-- **Which responses arrive as they were meant.**  For every response that a handler can build
from allowed headers, the bytes are exactly those of the response and the client recovers it
under every segmentation, if and only if the response is deliverable. -/
theorem response_arrives_iff {calls : List ResponseCall} (h : ∀ c ∈ calls, c.Allowed) :
    (responseOf calls).Arrives ↔ (responseOf calls).Deliverable :=
  ⟨Arrives.deliverable (sound_responseOf h), Deliverable.arrives (sound_responseOf h)⟩

/-- A header whose line is one byte longer than the buffer. -/
def longHeader : List ResponseCall :=
  [.header (txt "X-Note") (List.replicate 246 97), .send (txt "hi")]

/-- Its line end is cut to a CR, and the Content-Length stands on the same line. -/
theorem longHeader_not_arrives :
    (responseOf longHeader).headers = [(txt "X-Note", List.replicate 246 97)] ∧
      (∀ c ∈ longHeader, c.Allowed) ∧ ¬ (responseOf longHeader).Arrives := by
  refine ⟨rfl, ?_, fun ha => ?_⟩
  · intro c hc
    simp only [longHeader, List.mem_cons, List.not_mem_nil, or_false] at hc
    have hvalue : ∀ c ∈ List.replicate 246 (97 : UInt8), c ≠ 13 ∧ c ≠ 10 ∧ c ≠ 0 := by
      intro c hc
      rw [List.eq_of_mem_replicate hc]
      decide
    rcases hc with rfl | rfl
    · exact ⟨forall_mem_of_all rfl, hvalue, by decide, by decide⟩
    · show 0 ∉ txt "hi"
      decide
  · have hfit := (HttpResponse.lines_of_writeResponse_eq ha.bytes).2
    have hline := hfit (txt "X-Note", List.replicate 246 97) List.mem_cons_self
    have hkey : (txt "X-Note").length = 6 := rfl
    have hvalue : (List.replicate 246 (97 : UInt8)).length = 246 := List.length_replicate
    dsimp only at hline
    omega

/-- A response with a status, one header and a body. -/
theorem response_arrives_json : (responseOf [.status 404, .json (txt "[]")]).Arrives := by
  have hallowed : ∀ c ∈ [ResponseCall.status 404, .json (txt "[]")], c.Allowed := by
    intro c hc
    simp only [List.mem_cons, List.not_mem_nil, or_false] at hc
    rcases hc with rfl | rfl
    · trivial
    · show 0 ∉ txt "[]"
      decide
  have hone : ∀ newer key value older, (responseOf [.status 404, .json (txt "[]")]).headers
      = newer ++ (key, value) :: older → key = txt "Content-Type" ∧ older = [] := by
    intro newer key value older hsplit
    have hheaders : (responseOf [.status 404, .json (txt "[]")]).headers
        = [(txt "Content-Type", txt "application/json")] := rfl
    rw [hheaders] at hsplit
    cases newer with
    | nil =>
      obtain ⟨hpair, hrest⟩ := List.cons.inj hsplit
      exact ⟨(Prod.mk.inj hpair).1.symm, hrest.symm⟩
    | cons e newer =>
      have hlength := congrArg List.length hsplit
      simp at hlength
  refine (response_arrives_iff hallowed).mpr ⟨forall_mem_of_all rfl, ⟨by decide, by decide⟩,
    .inl (by decide), .inl (by decide), ?_⟩
  intro newer key value older hsplit _
  obtain ⟨rfl, rfl⟩ := hone newer key value older hsplit
  rw [if_neg (by decide)]
  exact fun e he => nomatch he

end Jaguar
