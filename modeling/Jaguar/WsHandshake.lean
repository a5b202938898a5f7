/-
The opening of a WebSocket connection (`ws.c`), up to the frame loop.

The server collects bytes until a head is complete, looks for the key and for a route, and answers
with a digest of the key. What has arrived behind the head is left to the frame loop.

* `readHandshake`, `wsHandshake` — `ws_conn_entry` up to the call of the route's handler;
* `wsHandshake_eq` — **the answer depends on the head only**, whatever the network delivers with it;
* `wsDigest_wsReply` — the client reads the digest of its key out of the reply;
* `websocket_session` — **from the request to the frames**: the right route, the right reply, and
  every frame that was sent, once and in order.
-/
import Jaguar.Base64
import Jaguar.HttpRequest
import Jaguar.HttpSegments
import Jaguar.Sha1
import Jaguar.WsClose

namespace Jaguar

/-! ### The source -/

/-- `WS_GUID`. -/
def wsGuid : Text := txt "258EAFA5-E914-47DA-95CA-C5AB0DC85B11"

/-- `WsRoute`. -/
structure WsRoute (η : Type*) where
  path : Text
  handler : η

variable {η : Type*}

/-- `ws_server_route`: the newest route comes first. -/
def wsServerRoute (routes : List (WsRoute η)) (path : Text) (handler : η) : List (WsRoute η) :=
  ⟨cStr path, handler⟩ :: routes

/-- The loop that waits for a head: the buffer, the end of the head, and what `recv` has still to
deliver. `none` when the connection is closed instead. -/
def readHandshake (b : Text) (chunks : List Text) : Option (Text × ℕ × List Text) :=
  match findHeaderEnd b with
  | some headerEnd => some (b, headerEnd, chunks)
  | none =>
    match chunks with
    | [] => none
    | chunk :: chunks =>
      if 65536 < (b ++ chunk).length then none else readHandshake (b ++ chunk) chunks

/-- `reqline`. With a NUL in front of the first line end `strstr` finds none, and the length that is
computed from the null pointer is cut to the size of the buffer. -/
def wsRequestLine (b : Text) : Text :=
  match findCrlf b with
  | some lineEnd => (b.take lineEnd).take 511
  | none => (cStr b).take 511

/-- `path`. `stale` is what the array holds when `sscanf` does not get as far as the second word. -/
def wsRequestPath (stale reqline : Text) : Text :=
  let path := match scanTwoWords reqline 15 511 with
    | [_, path] => path
    | _ => stale
  path.takeWhile (· ≠ 63)

/-- `ws_key`. -/
def wsKey (b : Text) (headerEnd : ℕ) : Text :=
  (extractHeader b headerEnd (txt "Sec-WebSocket-Key") 256).getD []

/-- `accept_key`. -/
def wsAcceptKey (key : Text) : Text := base64Encode (sha1 ((key ++ wsGuid).take 511))

/-- The reply up to the answer to the key. -/
def wsReplyStart : Text :=
  txt "HTTP/1.1 101 Switching Protocols\r\n" ++ txt "Upgrade: websocket\r\n" ++
    txt "Connection: Upgrade\r\n" ++ txt "Sec-WebSocket-Accept: "

/-- The reply to a handshake. -/
def wsReply (acceptKey : Text) : Text :=
  (wsReplyStart ++ acceptKey ++ txt "\r\n\r\n").take 511

def wsBadRequest : Text := txt "HTTP/1.1 400 Bad Request\r\nConnection: close\r\n\r\n"

/-- How the opening of a connection ends: closed without an answer, answered and closed, or
answered and left to the frame loop. -/
inductive WsOutcome (η : Type*)
  | closed
  | refused (reply : Text)
  | upgraded (reply : Text) (handler : η) (b : Text) (headerEnd : ℕ) (chunks : List Text)

/-- The answer to a head. -/
def wsAnswer (routes : List (WsRoute η)) (stale b : Text) (headerEnd : ℕ) : Option (Text × η) :=
  match routes.find? fun r => r.path = wsRequestPath stale (wsRequestLine b) with
  | some route =>
    if wsKey b headerEnd = [] then none
    else some (wsReply (wsAcceptKey (wsKey b headerEnd)), route.handler)
  | none => none

/-- `ws_conn_entry` up to the call of the handler. -/
def wsHandshake (routes : List (WsRoute η)) (stale : Text) (chunks : List Text) : WsOutcome η :=
  match readHandshake [] chunks with
  | none => .closed
  | some (b, headerEnd, chunks) =>
    match wsAnswer routes stale b headerEnd with
    | some (reply, handler) => .upgraded reply handler b headerEnd chunks
    | none => .refused wsBadRequest

example : wsReply (wsAcceptKey (txt "dGhlIHNhbXBsZSBub25jZQ=="))
    = wsReplyStart ++ txt "s3pPLMBiTxaQ9kYGzzhZRbK+xOo=\r\n\r\n" := by
  decide +kernel

/-! ### Reading the head -/

/-- **The loop stops behind the head**, at the end of some chunk. -/
theorem readHandshake_take {s : Text} {n : ℕ} (h : findHeaderEnd s = some n) (hn : n ≤ 57345)
    {chunks : List Text} (hchunks : ∀ c ∈ chunks, c.length ≤ 8192) :
    ∀ {k : ℕ}, k ≤ s.length → s.drop k = chunks.flatten →
      ∃ j rest, n ≤ j ∧ j ≤ s.length ∧ s.drop j = rest.flatten ∧
        readHandshake (s.take k) chunks = some (s.take j, n, rest) := by
  have hlength : n ≤ s.length := by
    obtain ⟨u, t, rfl, rfl⟩ := exists_head h
    simp [blankLine]
  induction chunks with
  | nil =>
    intro k hk hdrop
    have hall : s.length ≤ k := by
      have hnil := congrArg List.length hdrop
      rw [List.length_drop, List.flatten_nil, List.length_nil] at hnil
      omega
    refine ⟨k, [], by omega, hk, hdrop, ?_⟩
    rw [readHandshake, findHeaderEnd_take h, if_pos (by omega)]
  | cons chunk chunks ih =>
    intro k hk hdrop
    rw [List.forall_mem_cons] at hchunks
    rw [readHandshake, findHeaderEnd_take h]
    by_cases hnk : n ≤ k
    · rw [if_pos hnk]
      exact ⟨k, chunk :: chunks, hnk, hk, hdrop, rfl⟩
    · rw [if_neg hnk]
      have hbuf : s.take k ++ chunk = s.take (k + chunk.length) := by
        rw [List.take_add, hdrop, List.flatten_cons, List.take_left]
      have hlen : k + chunk.length ≤ s.length := by
        have hcount := congrArg List.length hdrop
        rw [List.length_drop, List.flatten_cons, List.length_append] at hcount
        omega
      have hnext : s.drop (k + chunk.length) = chunks.flatten := by
        rw [← List.drop_drop, hdrop, List.flatten_cons, List.drop_left]
      simp only [hbuf, List.length_take, Nat.min_eq_left hlen]
      -- a head that is not complete leaves room for one more chunk
      rw [if_neg (by omega)]
      exact ih hchunks.2 hlen hnext

/-! ### What the head determines -/

/-- A line end that `strstr` does not find is one behind a NUL. -/
theorem cStr_of_findCrlf_none {u : Text} (h : findCrlf (u ++ blankLine) = none) (t : Text) :
    cStr (u ++ (blankLine ++ t)) = cStr u := by
  induction u with
  | nil => cases h
  | cons c u ih =>
    rw [List.cons_append, findCrlf] at h
    split at h
    · cases h
    · split at h
      · next hzero =>
        subst hzero
        rfl
      · next hzero =>
        have hrest : findCrlf (u ++ blankLine) = none := Option.map_eq_none_iff.mp h
        have hcons : ∀ v : Text, cStr (c :: v) = c :: cStr v := fun v =>
          List.takeWhile_cons_of_pos (decide_eq_true hzero)
        rw [List.cons_append, hcons, hcons, ih hrest]

theorem wsRequestLine_append (u t : Text) :
    wsRequestLine (u ++ (blankLine ++ t)) = wsRequestLine (u ++ blankLine) := by
  have hnil : u ++ blankLine = u ++ (blankLine ++ []) := by rw [List.append_nil]
  unfold wsRequestLine
  rw [findCrlf_append]
  cases hline : findCrlf (u ++ blankLine) with
  | some lineEnd =>
    have hle : lineEnd ≤ u.length := findCrlf_le (t := []) (by rw [← hnil]; exact hline)
    dsimp only
    rw [List.take_append_of_le_length hle, List.take_append_of_le_length hle]
  | none =>
    dsimp only
    rw [cStr_of_findCrlf_none hline, hnil, cStr_of_findCrlf_none hline]

/-- The answer to a buffer is the answer to its head. -/
theorem wsAnswer_take (routes : List (WsRoute η)) (stale : Text) {s : Text} {n k : ℕ}
    (h : findHeaderEnd s = some n) (hk : n ≤ k) :
    wsAnswer routes stale (s.take k) n = wsAnswer routes stale s n := by
  have hkey : wsKey (s.take k) n = wsKey s n := by
    have hname : (0 : UInt8) ∉ txt "Sec-WebSocket-Key" := by decide
    rw [wsKey, wsKey, extractHeader_eq _ _ hname, extractHeader_eq _ _ hname, headLines_take h hk]
  have hline : wsRequestLine (s.take k) = wsRequestLine s := by
    obtain ⟨u, t, rfl, rfl, htake⟩ := exists_head_take h hk
    rw [htake, wsRequestLine_append, ← wsRequestLine_append u t]
  rw [wsAnswer, wsAnswer, hkey, hline]

/-- **The answer depends on the head only**, and the bytes behind the head are kept for the frame
loop, however `recv` delivers the stream. -/
theorem wsHandshake_eq (routes : List (WsRoute η)) (stale : Text) {s : Text} {n : ℕ}
    (h : findHeaderEnd s = some n) (hn : n ≤ 57345) {chunks : List Text} (hs : Segmented s chunks) :
    ∃ leftover rest, leftover ++ rest.flatten = s.drop n ∧
      wsHandshake routes stale chunks =
        match wsAnswer routes stale s n with
        | some (reply, handler) => .upgraded reply handler (s.take n ++ leftover) n rest
        | none => .refused wsBadRequest := by
  obtain ⟨j, rest, hnj, hj, hdrop, hread⟩ := readHandshake_take h hn (fun c hc => (hs.2 c hc).2)
    (Nat.zero_le _) (show s.drop 0 = chunks.flatten from hs.1.symm)
  have hsplit : s.take j = s.take n ++ (s.drop n).take (j - n) := by
    rw [← List.take_add, Nat.add_sub_cancel' hnj]
  refine ⟨(s.drop n).take (j - n), rest, ?_, ?_⟩
  · rw [← hdrop, ← Nat.add_sub_cancel' hnj, ← List.drop_drop, Nat.add_sub_cancel',
      List.take_append_drop]
    omega
  · rw [List.take_zero] at hread
    rw [wsHandshake, hread]
    dsimp only
    rw [wsAnswer_take routes stale h hnj, hsplit]

/-! ### From the request to the frames -/

theorem firstValue_headerLines {headers : List (Text × Text)} (h : ∀ e ∈ headers, HeaderClean e)
    (name : Text) : firstValue (headers.map headerLine) name
      = (headers.find? fun e => strcaseEq e.1 name).map Prod.snd := by
  have hlines : (headers.map headerLine).filterMap splitHeaderLine = headers := by
    rw [List.filterMap_map]
    refine Eq.trans (List.filterMap_congr fun e he => ?_) List.filterMap_some
    exact splitHeaderLine_headerLine (h e he)
  rw [firstValue, hlines]

/-- The headers of the reply. -/
def wsReplyHeaders (acceptKey : Text) : List (Text × Text) :=
  [(txt "Upgrade", txt "websocket"), (txt "Connection", txt "Upgrade"),
    (txt "Sec-WebSocket-Accept", acceptKey)]

theorem length_wsAcceptKey (key : Text) : (wsAcceptKey key).length = 28 := by
  rw [wsAcceptKey, length_base64Encode, length_sha1]

/-- The reply fits into its buffer, and is a message. -/
theorem wsReply_append (key t : Text) : wsReply (wsAcceptKey key) ++ t
    = messageText (txt "HTTP/1.1 101 Switching Protocols") (wsReplyHeaders (wsAcceptKey key)) t := by
  have hhead : wsReplyStart
      = txt "HTTP/1.1 101 Switching Protocols" ++ 13 :: 10 ::
          (headerText (txt "Upgrade", txt "websocket") ++
            (headerText (txt "Connection", txt "Upgrade") ++
              (txt "Sec-WebSocket-Accept" ++ [58, 32]))) := by
    decide +kernel
  have hend : txt "\r\n\r\n" = 13 :: 10 :: 13 :: [10] := by decide
  rw [wsReply, List.take_of_length_le, hhead, hend]
  · simp [messageText, wsReplyHeaders, headerText, headerLine]
  · rw [List.length_append, List.length_append, length_wsAcceptKey]
    decide +kernel

theorem wsReplyHeaders_clean (key : Text) :
    ∀ e ∈ wsReplyHeaders (wsAcceptKey key), HeaderClean e := by
  have hvalue : ∀ c ∈ wsAcceptKey key, c ≠ 13 ∧ c ≠ 0 ∧ c ≠ 32 := by
    intro c hc
    have hbase := isBase64_of_mem hc
    refine ⟨?_, ?_, ?_⟩ <;>
      (rintro rfl
       exact absurd hbase (by decide))
  have hplain : ∀ e ∈ [(txt "Upgrade", txt "websocket"), (txt "Connection", txt "Upgrade")],
      (∀ c ∈ e.1, c ≠ 58 ∧ c ≠ 13 ∧ c ≠ 0) ∧ (∀ c ∈ e.2, c ≠ 13 ∧ c ≠ 0) ∧
        e.2.head? ≠ some 32 := by
    decide +kernel
  have hname : ∀ c ∈ txt "Sec-WebSocket-Accept", c ≠ 58 ∧ c ≠ 13 ∧ c ≠ 0 := by decide +kernel
  intro e he
  rw [wsReplyHeaders, show ∀ a b c : Text × Text, [a, b, c] = [a, b] ++ [c] from fun _ _ _ => rfl,
    List.mem_append, List.mem_singleton] at he
  rcases he with he | rfl
  · obtain ⟨hkey, hval, hspace⟩ := hplain e he
    exact ⟨hkey, hval, hspace⟩
  · refine ⟨hname, fun c hc => ⟨(hvalue c hc).1, (hvalue c hc).2.1⟩, fun heq => ?_⟩
    exact (hvalue 32 (List.mem_of_head? heq)).2.2 rfl

/-- The digest that a client finds in the reply. -/
def wsDigest (reply : Text) : Option Text := do
  let headerEnd ← findHeaderEnd reply
  let acceptKey ← extractHeader reply headerEnd (txt "Sec-WebSocket-Accept") 256
  base64Decode acceptKey

/-- **The client reads the digest of its key**, whatever follows the reply. -/
theorem wsDigest_wsReply {key : Text} (hkey : key.length ≤ 255) (t : Text) :
    wsDigest (wsReply (wsAcceptKey key) ++ t) = some (sha1 (key ++ wsGuid)) := by
  have hclean := wsReplyHeaders_clean key
  have hline : ∀ c ∈ txt "HTTP/1.1 101 Switching Protocols", c ≠ 13 ∧ c ≠ 0 :=
    forall_mem_of_all rfl
  have hupgrade : strcaseEq (txt "Upgrade") (txt "Sec-WebSocket-Accept") = false := by
    decide +kernel
  have hconnection : strcaseEq (txt "Connection") (txt "Sec-WebSocket-Accept") = false := by
    decide +kernel
  have haccept : strcaseEq (txt "Sec-WebSocket-Accept") (txt "Sec-WebSocket-Accept") = true := by
    decide +kernel
  have hvalue : (wsReplyHeaders (wsAcceptKey key)).find?
      (fun e => strcaseEq e.1 (txt "Sec-WebSocket-Accept"))
      = some (txt "Sec-WebSocket-Accept", wsAcceptKey key) := by
    simp only [wsReplyHeaders, List.find?_cons, hupgrade, hconnection, haccept]
  have hguid : wsGuid.length = 36 := by decide +kernel
  have hwhole : (wsAcceptKey key).take 255 = wsAcceptKey key :=
    List.take_of_length_le (by rw [length_wsAcceptKey]; decide)
  have hcut : (key ++ wsGuid).take 511 = key ++ wsGuid := by
    refine List.take_of_length_le ?_
    rw [List.length_append, hguid]
    omega
  have hvalue' : extractHeader (messageText (txt "HTTP/1.1 101 Switching Protocols")
      (wsReplyHeaders (wsAcceptKey key)) t) (messageHead (txt "HTTP/1.1 101 Switching Protocols")
      (wsReplyHeaders (wsAcceptKey key))) (txt "Sec-WebSocket-Accept") 256
      = some (wsAcceptKey key) := by
    rw [extractHeader_eq _ _ (by decide), headLines_messageText hline hclean,
      firstValue_headerLines hclean, hvalue, Option.map_some, Option.map_some, hwhole]
  rw [wsDigest, wsReply_append, findHeaderEnd_messageText hline hclean, Option.bind_eq_bind,
    Option.bind_some, hvalue', Option.bind_eq_bind, Option.bind_some, wsAcceptKey,
    base64Decode_base64Encode, hcut]

namespace Request

/-- A request whose words and headers fit into the buffers of `ws_conn_entry`. -/
structure FitsWs (r : Request) : Prop where
  methodPos : 1 ≤ r.method.length
  methodLength : r.method.length ≤ 15
  method : ∀ c ∈ r.method, isWordByte c
  targetPos : 1 ≤ r.target.length
  target : ∀ c ∈ r.target, isWordByte c
  lineLength : r.method.length + 1 + r.target.length < 511
  headers : ∀ h ∈ r.headers, HeaderClean h
  headLength : r.head.length ≤ 57345

/-- The path that is asked for. -/
def path (r : Request) : Text := r.target.takeWhile (· ≠ 63)

/-- The value of the first header of a name. -/
def header (r : Request) (name : Text) : Option Text :=
  (r.headers.find? fun h => strcaseEq h.1 name).map Prod.snd

namespace FitsWs

variable {r : Request} (h : r.FitsWs)

include h

theorem line_bytes : ∀ c ∈ r.line, c ≠ 13 ∧ c ≠ 0 := by
  intro c hc
  simp only [line, List.mem_append, List.mem_cons] at hc
  rcases hc with hc | rfl | hc | rfl | hc
  · exact isWordByte_ne (h.method c hc)
  · decide
  · exact isWordByte_ne (h.target c hc)
  · decide
  · have hversion : ∀ c ∈ txt "HTTP/1.1", c ≠ 13 ∧ c ≠ 0 := forall_mem_of_all rfl
    exact hversion c hc

theorem findHeaderEnd_text : findHeaderEnd r.text = some r.head.length := by
  rw [text_eq, length_head]
  exact findHeaderEnd_messageText h.line_bytes h.headers _

/-- The path is read, without its query. -/
theorem wsRequestPath_text (stale : Text) : wsRequestPath stale (wsRequestLine r.text) = r.path := by
  have hlength := h.lineLength
  have hmethod : r.method ≠ [] := List.length_pos_iff.mp h.methodPos
  have htarget : r.target ≠ [] := List.length_pos_iff.mp h.targetPos
  -- the line is cut behind its second word
  have hcut : ∃ t, r.line.take 511 = r.method ++ 32 :: (r.target ++ 32 :: t) := by
    have hwords : r.line = (r.method ++ 32 :: (r.target ++ [32])) ++ txt "HTTP/1.1" := by
      simp [line]
    refine ⟨(txt "HTTP/1.1").take (511 - (r.method ++ 32 :: (r.target ++ [32])).length), ?_⟩
    rw [hwords, List.take_append, List.take_of_length_le]
    · simp
    · simp only [List.length_append, List.length_cons, List.length_nil]
      omega
  obtain ⟨t, hcut⟩ := hcut
  have hline : wsRequestLine r.text = r.line.take 511 := by
    rw [wsRequestLine, text_eq, findCrlf_messageText h.line_bytes]
    dsimp only
    rw [messageText, List.take_left]
  rw [wsRequestPath, hline, hcut, scanTwoWords_line h.method h.target hmethod htarget
    h.methodLength (by omega)]
  rfl

/-- The first key is read. -/
theorem wsKey_text : wsKey r.text r.head.length
    = ((r.header (txt "Sec-WebSocket-Key")).getD []).take 255 := by
  rw [wsKey, text_eq, length_head, extractHeader_eq _ _ (by decide),
    headLines_messageText h.line_bytes h.headers, firstValue_headerLines h.headers, header]
  cases (r.headers.find? fun e => strcaseEq e.1 (txt "Sec-WebSocket-Key")).map Prod.snd with
  | none => rfl
  | some key => rfl

end FitsWs

end Request

/-- **From the request to the frames.** A client sends a request, frames, and then ends the
connection, maybe inside a frame. However its bytes arrive: without a key, or without a route for
the path, the connection is refused. Otherwise the newest route for the path is called, the reply
holds the digest of the key, and the frames that are handled are those that were sent, up to the
first Close. -/
theorem websocket_session (routes : List (WsRoute η)) (stale : Text) {r : Request} (hr : r.FitsWs)
    {key : Text} (hkey : (r.header (txt "Sec-WebSocket-Key")).getD [] = key)
    (hlength : key.length ≤ 255) {fs : List WireFrame} {rest : Text} (hrest : CutShort rest)
    (hbody : r.body = fs.flatMap WireFrame.bytes ++ rest) {chunks : List Text}
    (hchunks : Segmented r.text chunks) :
    match routes.find? fun route => route.path = r.path with
    | none => wsHandshake routes stale chunks = .refused wsBadRequest
    | some route =>
      (key = [] → wsHandshake routes stale chunks = .refused wsBadRequest) ∧
      (key ≠ [] → ∃ reply b n after,
        wsHandshake routes stale chunks = .upgraded reply route.handler b n after ∧
        (∀ t, wsDigest (reply ++ t) = some (sha1 (key ++ wsGuid))) ∧
        ∀ {φ : Type} (host : WsHost φ) (conn : SocketConn φ),
          (wsConnFrames host conn b n after).overrun = false ∧
          (wsConnFrames host conn b n after).handled
            = (uptoClose fs).map fun f => (f.opcode, f.payload)) := by
  obtain ⟨leftover, after, hsplit, hanswer⟩ :=
    wsHandshake_eq routes stale hr.findHeaderEnd_text hr.headLength hchunks
  have hwsKey : wsKey r.text r.head.length = key := by
    rw [hr.wsKey_text, hkey, List.take_of_length_le hlength]
  rw [wsAnswer, hr.wsRequestPath_text, hwsKey] at hanswer
  cases hroute : routes.find? fun route => route.path = r.path with
  | none =>
    rw [hroute] at hanswer
    exact hanswer
  | some route =>
    rw [hroute] at hanswer
    dsimp only at hanswer
    refine ⟨fun hnil => ?_, fun hne => ?_⟩
    · rw [if_pos hnil] at hanswer
      exact hanswer
    · rw [if_neg hne] at hanswer
      refine ⟨_, _, _, _, hanswer, wsDigest_wsReply hlength, fun host conn => ?_⟩
      have hstream : leftover ++ after.flatten = fs.flatMap WireFrame.bytes ++ rest := by
        rw [hsplit, Request.text, List.drop_left, hbody]
      obtain ⟨hreads, hdeclare⟩ := hrest.reads fs
      rw [← hstream] at hreads hdeclare
      obtain ⟨hover, hhandled⟩ :=
        wsConnFrames_eq host conn (r.text.take r.head.length ++ leftover) r.head.length after
      have hhead : (r.text.take r.head.length).length = r.head.length := by
        rw [Request.text, List.take_left]
      have hdrop : bufConsumeFront (r.text.take r.head.length ++ leftover) r.head.length
          = leftover := by
        rw [bufConsumeFront_eq_drop, List.drop_left' hhead]
      rw [hover, hhandled, hdrop]
      exact frameLoop_reads host conn leftover after fs hreads hdeclare

/-- A masked Ping. -/
def pingFrame : WireFrame :=
  finalFrame 9 (some [1, 2, 3, 4]) (by simp) (txt "hi") (by decide)

/-- A request with a key, and behind it a Ping and the first byte of a Close. -/
def chatRequest : Request where
  method := txt "GET"
  target := txt "/chat?room=1"
  headers := [(txt "Host", txt "localhost"), (txt "sec-websocket-key", txt "dGhlIHNhbXBsZQ==")]
  body := pingFrame.bytes ++ [0x88]

theorem websocket_session_chat :
    ∃ reply b n after,
      wsHandshake [⟨txt "/other", false⟩, ⟨txt "/chat", true⟩] []
        [chatRequest.text.take 50, chatRequest.text.drop 50] = .upgraded reply true b n after ∧
      (∀ t, wsDigest (reply ++ t) = some (sha1 (txt "dGhlIHNhbXBsZQ==" ++ wsGuid))) ∧
      ∀ (host : WsHost Unit) (conn : SocketConn Unit),
        (wsConnFrames host conn b n after).handled = [(9, txt "hi")] := by
  have hfits : chatRequest.FitsWs := {
    methodPos := by decide
    methodLength := by decide
    method := by decide +kernel
    targetPos := by decide
    target := by decide +kernel
    lineLength := by decide +kernel
    headers := by
      intro e he
      have hall : ∀ e ∈ chatRequest.headers, (∀ c ∈ e.1, c ≠ 58 ∧ c ≠ 13 ∧ c ≠ 0) ∧
          (∀ c ∈ e.2, c ≠ 13 ∧ c ≠ 0) ∧ e.2.head? ≠ some 32 := by
        decide +kernel
      obtain ⟨hkey, hvalue, hspace⟩ := hall e he
      exact ⟨hkey, hvalue, hspace⟩
    headLength := by decide +kernel }
  have hcut : CutShort [0x88] :=
    ⟨finalFrame 8 none (by simp) [] (by decide), [0], by decide, by decide +kernel⟩
  have hchunks : Segmented chatRequest.text [chatRequest.text.take 50, chatRequest.text.drop 50] := by
    refine ⟨by simp, by decide +kernel⟩
  have hkey : (chatRequest.header (txt "Sec-WebSocket-Key")).getD [] = txt "dGhlIHNhbXBsZQ==" := by
    decide +kernel
  have hbody : chatRequest.body = [pingFrame].flatMap WireFrame.bytes ++ [0x88] := by
    rw [List.flatMap_singleton]
    rfl
  have hroute : [WsRoute.mk (txt "/other") false, ⟨txt "/chat", true⟩].find?
      (fun route => route.path = chatRequest.path) = some ⟨txt "/chat", true⟩ := by
    have hother : decide (txt "/other" = chatRequest.path) = false := by decide +kernel
    have hchat : decide (txt "/chat" = chatRequest.path) = true := by decide +kernel
    simp only [List.find?_cons, hother, hchat]
  have hsession := websocket_session [⟨txt "/other", false⟩, ⟨txt "/chat", true⟩] [] hfits hkey
    (by decide +kernel) hcut hbody hchunks
  rw [hroute] at hsession
  obtain ⟨reply, b, n, after, hopen, hreply, hframes⟩ := hsession.2 (by decide +kernel)
  exact ⟨reply, b, n, after, hopen, hreply, fun host conn => (hframes host conn).2⟩

end Jaguar
