/-
The answer to a request of the HTTP client (`http.c`, `do_request` behind its write).

The read loop stops as soon as the head is complete and no length, or the declared body,
has to be waited for; the body is then everything behind the head that has arrived.

* `readResponse_stops` — where the loop stops: at a chunk boundary behind the declared
  body, or at the end of the stream;
* `response_settled_iff` — the reply is the same under every segmentation, and holds the
  whole body when no length is declared, exactly when nothing behind the declared body can
  get into it.
-/
import Jaguar.HeaderLines
import Jaguar.Machine

namespace Jaguar

/-! ### The source -/

/-- The guard on the buffer's size. -/
def maxResponse : ℕ := 16 * 1024 * 1024

/-- The test that leaves the read loop. -/
def responseReady (b : Text) : Bool :=
  match findHeaderEnd b with
  | some headerEnd => contentLengthOf b headerEnd = 0 || requestLength b headerEnd ≤ b.length
  | none => false

/-- The read loop: the buffer, and `header_end` as it was computed last.  `chunks` is what
`recv` delivers before the connection is closed. -/
def readResponse (b : Text) (chunks : List Text) : Text × Option ℕ :=
  if responseReady b then (b, findHeaderEnd b)
  else
    match chunks with
    | [] => (b, findHeaderEnd b)
    | chunk :: chunks =>
      if maxResponse < (b ++ chunk).length then (b ++ chunk, findHeaderEnd b)
      else readResponse (b ++ chunk) chunks

/-- `sscanf(line, "%31s %d", httpver, &status)`, with `status` 0 at first: the number is
read as a `long` and stored as an `int`. -/
def scanStatus (line : Text) : ℤ :=
  let s := line.dropWhile isSpace
  let httpver := (s.takeWhile (! isSpace ·)).take 31
  if httpver = [] then 0
  else Int.bmod (atol ((s.drop httpver.length).dropWhile isSpace)) (2 ^ 32)

/-- How `do_request` ends: a Task in error, a Task with a reply, or a read through the null
pointer that `strstr` returned. -/
inductive ClientResult
  | error (message : Text)
  | done (reply : HttpReply)
  | crash

/-- What is made of the buffer; the headers are in the order of their lines. -/
def parseResponse (b : Text) (headerEnd : ℕ) : ClientResult :=
  match findCrlf b with
  | none => .crash
  | some nl => .done
      { status := scanStatus ((b.take nl).take 255)
        headers := (headLines b headerEnd).filterMap parseHeaderLine
        body := cStr (b.drop headerEnd) }

def receiveResponse (chunks : List Text) : ClientResult :=
  match readResponse [] chunks with
  | (_, none) => .error (txt "malformed response")
  | (b, some headerEnd) => parseResponse b headerEnd

/-! ### Where the loop stops -/

section Stream

variable {s : Text} {n : ℕ} (h : findHeaderEnd s = some n)

include h

theorem headerEnd_le_length : n ≤ s.length := by
  obtain ⟨u, t, rfl, rfl⟩ := exists_head h
  simp [blankLine]

theorem contentLengthOf_take {k : ℕ} (hk : n ≤ k) :
    contentLengthOf (s.take k) n = contentLengthOf s n := by
  unfold contentLengthOf
  rw [parseRequest_take h hk]
  rfl

/-- **The loop can stop from the end of the declared body on.** -/
theorem responseReady_take {k : ℕ} (hk : k ≤ s.length) (hn : n < 2 ^ 64) :
    responseReady (s.take k) = true ↔ requestSpan s n ≤ k := by
  unfold responseReady requestSpan
  rw [findHeaderEnd_take h]
  by_cases hnk : n ≤ k
  · rw [if_pos hnk]
    dsimp only
    rw [contentLengthOf_take h hnk, requestLength_take h hnk, List.length_take,
      Nat.min_eq_left hk, Bool.or_eq_true, decide_eq_true_iff, decide_eq_true_iff]
    constructor
    · rintro (hzero | hle)
      · have hlen : requestLength s n = n := by
          unfold requestLength
          rw [hzero]
          omega
        rw [hlen, max_self]
        exact hnk
      · exact max_le hnk hle
    · intro hle
      exact .inr (le_trans (le_max_right _ _) hle)
  · rw [if_neg hnk]
    constructor
    · intro hfalse
      cases hfalse
    · intro hle
      exact absurd (le_trans (le_max_left _ _) hle) hnk

/-- **Where the loop stops**, for a stream that the guard lets through. -/
theorem readResponse_stops (hn : n < 2 ^ 64) {chunks : List Text} :
    ∀ {k : ℕ}, k ≤ s.length → s.drop k = chunks.flatten →
      (s.length ≤ maxResponse ∨ s.length = maxResponse + 1 ∧ n + 8192 ≤ s.length ∧
        ∀ c ∈ chunks, c.length ≤ 8192) →
      ∃ j, readResponse (s.take k) chunks = (s.take j, some n) ∧ n ≤ j ∧
        (requestSpan s n ≤ j ∨ j = s.length) := by
  induction chunks with
  | nil =>
    intro k hk hrest _
    obtain rfl : k = s.length := by
      have := congrArg List.length hrest
      simp at this
      omega
    refine ⟨s.length, ?_, headerEnd_le_length h, .inr rfl⟩
    unfold readResponse
    rw [List.take_length, h, ite_self]
  | cons chunk chunks ih =>
    intro k hk hrest hroom
    unfold readResponse
    by_cases hready : responseReady (s.take k) = true
    · have hspan := (responseReady_take h hk hn).mp hready
      have hnk : n ≤ k := le_trans (le_max_left _ _) hspan
      refine ⟨k, ?_, hnk, .inl hspan⟩
      rw [if_pos hready, findHeaderEnd_take h, if_pos hnk]
    · have hbuf : s.take k ++ chunk = s.take (k + chunk.length) := by
        rw [List.take_add, hrest, List.flatten_cons, List.take_left]
      have hlen : k + chunk.length ≤ s.length := by
        have := congrArg List.length hrest
        simp at this
        omega
      have hnext : s.drop (k + chunk.length) = chunks.flatten := by
        rw [← List.drop_drop, hrest, List.flatten_cons, List.drop_left]
      rw [if_neg hready]
      dsimp only
      rw [hbuf, List.length_take, Nat.min_eq_left hlen]
      split
      · next hguard =>
        -- the guard: the last byte has arrived, and the head was complete before
        obtain hsmall | ⟨hone, hhead, hchunk⟩ := hroom
        · omega
        · have hlast := hchunk chunk List.mem_cons_self
          have hnk : n ≤ k := by omega
          refine ⟨k + chunk.length, ?_, by omega, .inr (by omega)⟩
          rw [findHeaderEnd_take h, if_pos hnk]
      · refine ih hlen hnext ?_
        obtain hsmall | ⟨hone, hhead, hchunk⟩ := hroom
        · exact .inl hsmall
        · exact .inr ⟨hone, hhead, fun c hc => hchunk c (List.mem_cons_of_mem _ hc)⟩

/-- As long as the response is not complete, the loop takes in byte after byte. -/
theorem readResponse_bytes (hn : n < 2 ^ 64) (rest : List Text) :
    ∀ (t : Text) {k : ℕ}, s.drop k = t ++ s.drop (k + t.length) →
      k + t.length ≤ requestSpan s n → k + t.length ≤ s.length → k + t.length ≤ maxResponse →
      readResponse (s.take k) (t.map (fun c => [c]) ++ rest)
        = readResponse (s.take (k + t.length)) rest := by
  intro t
  induction t with
  | nil => intros; rfl
  | cons c t ih =>
    intro k hdrop hspan hlen hmax
    rw [List.length_cons] at hspan hlen hmax hdrop
    rw [List.length_cons]
    obtain ⟨hbuf, hnext⟩ := take_snoc_of_drop hdrop
    have hwait : ¬ responseReady (s.take k) = true := by
      rw [responseReady_take h (by omega) hn]
      omega
    rw [List.map_cons, List.cons_append, readResponse, if_neg hwait, hbuf, List.length_take,
      Nat.min_eq_left (by omega), if_neg (by omega),
      ih hnext (by omega) (by omega) (by omega), Nat.add_assoc, Nat.add_comm 1]

/-- The first CRLF stands in the head. -/
theorem findCrlf_take {k : ℕ} (hk : n ≤ k) :
    findCrlf (s.take k) = findCrlf s ∧ ∀ nl, findCrlf s = some nl → nl + 4 ≤ n := by
  obtain ⟨u, t, rfl, rfl, htake⟩ := exists_head_take h hk
  constructor
  · rw [htake, findCrlf_append, findCrlf_append]
  · intro nl hnl
    have := findCrlf_le hnl
    omega

/-- The reply made of a prefix that holds the head: only the body depends on it. -/
theorem parseResponse_take {k : ℕ} (hk : n ≤ k) {nl : ℕ} (hline : findCrlf s = some nl) :
    parseResponse (s.take k) n = .done
      { status := scanStatus ((s.take nl).take 255)
        headers := (headLines s n).filterMap parseHeaderLine
        body := cStr ((s.take k).drop n) } := by
  obtain ⟨hsame, hle⟩ := findCrlf_take h hk
  have hnl := hle nl hline
  unfold parseResponse
  rw [hsame, hline, headLines_take h hk]
  dsimp only
  rw [@List.take_take _ nl k, Nat.min_eq_left (by omega)]

/-- The result of a run whose loop stops at byte `j`. -/
theorem receiveResponse_of_read {chunks : List Text} {j : ℕ} (hj : n ≤ j)
    (hr : readResponse [] chunks = (s.take j, some n)) {nl : ℕ} (hline : findCrlf s = some nl) :
    receiveResponse chunks = .done
      { status := scanStatus ((s.take nl).take 255)
        headers := (headLines s n).filterMap parseHeaderLine
        body := cStr ((s.take j).drop n) } := by
  unfold receiveResponse
  rw [hr]
  exact parseResponse_take h hj hline

/-- A run whose loop stops right behind the declared body. -/
theorem exists_response_span (hn : n < 2 ^ 64) (hlen : requestSpan s n ≤ s.length)
    (hmax : requestSpan s n ≤ maxResponse) :
    ∃ chunks, Segmented s chunks ∧
      readResponse [] chunks = (s.take (requestSpan s n), some n) := by
  have hspan : n ≤ requestSpan s n := le_max_left _ _
  set M := requestSpan s n with hM
  have htake : (s.take M).length = M := by simp [hlen]
  refine ⟨_, segmented_bytes_bytes s M, ?_⟩
  have hrun := readResponse_bytes h hn ((s.drop M).map fun c => [c]) (s.take M) (k := 0)
    (by simp [htake]) (by omega) (by omega) (by omega)
  rw [Nat.zero_add, htake] at hrun
  change readResponse (s.take 0) _ = _
  rw [hrun, readResponse.eq_def, if_pos ((responseReady_take h hlen hn).mpr le_rfl),
    findHeaderEnd_take h, if_pos hspan]

/-- A run whose loop stops one byte later. -/
theorem exists_response_span_succ (hn : n < 2 ^ 64) (hlen : requestSpan s n < s.length)
    (hmax : requestSpan s n < maxResponse) :
    ∃ chunks, Segmented s chunks ∧
      readResponse [] chunks = (s.take (requestSpan s n + 1), some n) := by
  have hspan : n ≤ requestSpan s n := le_max_left _ _
  obtain ⟨m, hm⟩ := Nat.exists_eq_succ_of_ne_zero (requestSpan_pos h).ne'
  have htake : (s.take m).length = m := by
    simp
    omega
  refine ⟨_, segmented_two (show m < s.length by omega), ?_⟩
  have hrun := readResponse_bytes h hn ([(s.drop m).take 2] ++ (s.drop (m + 2)).map fun c => [c])
    (s.take m) (k := 0) (by simp [htake]) (by omega) (by omega) (by omega)
  rw [Nat.zero_add, htake] at hrun
  have hbuf : s.take m ++ (s.drop m).take 2 = s.take (m + 2) := by rw [List.take_add]
  have hwait : ¬ responseReady (s.take m) = true := by
    rw [responseReady_take h (by omega) hn]
    omega
  have hready : responseReady (s.take (m + 2)) = true :=
    (responseReady_take h (by omega) hn).mpr (by omega)
  change readResponse (s.take 0) _ = _
  rw [hrun, List.singleton_append, readResponse.eq_def, if_neg hwait]
  dsimp only
  rw [hbuf, List.length_take, if_neg (by omega), readResponse.eq_def, if_pos hready,
    findHeaderEnd_take h, if_pos (by omega), hm]

end Stream

/-! ### Two runs -/

/-- A header line of the stream is a Content-Length. -/
def DeclaresLength (s : Text) (headerEnd : ℕ) : Prop :=
  ∃ e ∈ (headLines s headerEnd).filterMap parseHeaderLine,
    strcaseEq e.1 (txt "Content-Length") = true

/-- Without such a line the declared length is 0, and the loop waits for the head only. -/
theorem requestSpan_of_no_length {s : Text} {n : ℕ} (hn : n < 2 ^ 64)
    (hno : ¬ DeclaresLength s n) : requestSpan s n = n := by
  have hzero : contentLengthOf s n = 0 := by
    have hget : getHeader (parseRequest s n).2 (txt "Content-Length") 64 = [] := by
      have hnone : (parseRequest s n).2.headers.find?
          (fun e => strcaseEq e.1 (txt "Content-Length")) = none := by
        rw [List.find?_eq_none]
        intro e he hmatch
        refine hno ⟨e, ?_, hmatch⟩
        cases hok : (parseRequest s n).1 with
        | true =>
          rw [parseRequest_headers hok] at he
          exact List.mem_of_mem_take he
        | false =>
          rw [parseRequest_failed_headers hok] at he
          cases he
      unfold getHeader
      rw [hnone]
    unfold contentLengthOf
    rw [hget]
  have hlen : requestLength s n = n := by
    unfold requestLength
    rw [hzero]
    omega
  rw [requestSpan, hlen, max_self]

/-- Every segmentation gives one reply, and without a declared length its body is everything
up to the close. -/
def OneReply (s : Text) (headerEnd : ℕ) : Prop :=
  ∃ reply : HttpReply, (∀ chunks, Segmented s chunks → receiveResponse chunks = .done reply) ∧
    (¬ DeclaresLength s headerEnd → reply.body = s.drop headerEnd)

/-- The status line is read, and nothing behind the declared body can get into the body: the
stream ends there, or the body is cut off before by a NUL.  Without a declared length
nothing follows the head. -/
structure ResponseSettled (s : Text) (headerEnd : ℕ) : Prop where
  line : findCrlf s ≠ none
  body : s.length ≤ requestSpan s headerEnd ∨ DeclaresLength s headerEnd ∧
    0 ∈ (s.drop headerEnd).take (requestSpan s headerEnd + 1 - headerEnd)

/-- A settled response is read the same under every segmentation. -/
theorem oneReply_of_settled {s : Text} {n : ℕ} (h : findHeaderEnd s = some n)
    (hmax : s.length ≤ maxResponse) (hset : ResponseSettled s n) : OneReply s n := by
  have hn : n < 2 ^ 64 := by
    have := headerEnd_le_length h
    unfold maxResponse at hmax
    omega
  obtain ⟨nl, hline⟩ := Option.ne_none_iff_exists'.mp hset.line
  refine ⟨⟨scanStatus ((s.take nl).take 255), (headLines s n).filterMap parseHeaderLine,
    cStr (s.drop n)⟩, fun chunks hchunks => ?_, fun hno => ?_⟩
  · obtain ⟨j, hread, hj, hstop⟩ := @readResponse_stops s n h hn chunks 0 (Nat.zero_le _)
      (by rw [List.drop_zero, hchunks.1]) (.inl hmax)
    rw [List.take_zero] at hread
    have hbody : cStr ((s.take j).drop n) = cStr (s.drop n) := by
      rcases hset.body with hlen | ⟨-, hnul⟩
      · rw [List.take_of_length_le (by omega)]
      · rcases hstop with hspan | rfl
        · have hle : n ≤ requestSpan s n := le_max_left _ _
          have hcut : requestSpan s n + 1 - n = (requestSpan s n - n) + 1 := by omega
          rw [hcut] at hnul
          rw [List.drop_take, cStr_take hnul (by omega)]
        · rw [List.take_length]
    rw [receiveResponse_of_read h hj hread hline, hbody]
  · have hspan := requestSpan_of_no_length hn hno
    have hnil : s.drop n = [] := by
      rcases hset.body with hlen | ⟨hyes, -⟩
      · exact List.drop_eq_nil_of_le (hspan ▸ hlen)
      · exact absurd hyes hno
    show cStr (s.drop n) = s.drop n
    rw [hnil]
    rfl

/-- With an unsettled response, the runs that stop right behind the declared body and one byte
later differ, or the first of them has lost what follows the head. -/
theorem settled_of_oneReply {s : Text} {n : ℕ} (h : findHeaderEnd s = some n)
    (hmax : s.length < maxResponse) (hone : OneReply s n) : ResponseSettled s n := by
  have hn : n < 2 ^ 64 := by
    have := headerEnd_le_length h
    unfold maxResponse at hmax
    omega
  obtain ⟨reply, hruns, hwhole⟩ := hone
  have hspan : n ≤ requestSpan s n := le_max_left _ _
  have hline : findCrlf s ≠ none := by
    intro hnone
    obtain ⟨j, hread, hj, -⟩ := @readResponse_stops s n h hn (s.map fun c => [c]) 0
      (Nat.zero_le _) (by rw [List.drop_zero, (segmented_bytes s).1]) (.inl hmax.le)
    have hrun := hruns _ (segmented_bytes s)
    rw [List.take_zero] at hread
    unfold receiveResponse at hrun
    rw [hread] at hrun
    dsimp only [parseResponse] at hrun
    rw [(findCrlf_take h hj).1, hnone] at hrun
    cases hrun
  refine ⟨hline, ?_⟩
  by_contra hno
  rw [not_or, not_le] at hno
  obtain ⟨hlen, hno⟩ := hno
  obtain ⟨nl, hline⟩ := Option.ne_none_iff_exists'.mp hline
  obtain ⟨c, hc, hr⟩ := exists_response_span h hn hlen.le (by omega)
  have hreply := (receiveResponse_of_read h hspan hr hline).symm.trans (hruns c hc)
  have hbody := congrArg HttpReply.body (ClientResult.done.inj hreply)
  by_cases hdecl : DeclaresLength s n
  · have hnul : 0 ∉ (s.drop n).take (requestSpan s n + 1 - n) := fun hmem => hno ⟨hdecl, hmem⟩
    obtain ⟨c', hc', hr'⟩ := exists_response_span_succ h hn hlen (by omega)
    have hreply' := (receiveResponse_of_read h (Nat.le_succ_of_le hspan) hr' hline).symm.trans
      (hruns c' hc')
    have hsame := hbody.trans (congrArg HttpReply.body (ClientResult.done.inj hreply')).symm
    dsimp only at hsame
    exact cStr_drop_take_ne hspan hlen hnul hsame
  · -- the first run stops at the end of the head, with an empty body
    rw [requestSpan_of_no_length hn hdecl] at hlen hbody
    dsimp only at hbody
    rw [List.drop_take, Nat.sub_self, List.take_zero, hwhole hdecl] at hbody
    have hlens := congrArg List.length hbody
    rw [List.length_drop] at hlens
    simp [cStr] at hlens
    omega

/-- **The client's reply is independent of TCP segmentation exactly when the response is
settled.**  The loop leaves off as soon as the head is complete when no length has been
found, so what follows the head is in the body or not, as it has arrived or not. -/
theorem response_settled_iff {s : Text} {n : ℕ} (h : findHeaderEnd s = some n)
    (hmax : s.length < maxResponse) : OneReply s n ↔ ResponseSettled s n :=
  ⟨settled_of_oneReply h hmax, oneReply_of_settled h hmax.le⟩

/-- A response without a length, and two bytes up to the close. -/
def unboundedResponse : Text := txt "HTTP/1.1 200 OK\r\n\r\nhi"

/-- A run that stops before the body has arrived leaves it empty. -/
theorem unboundedResponse_not_oneReply :
    findHeaderEnd unboundedResponse = some 19 ∧ unboundedResponse.length < maxResponse ∧
      ¬ OneReply unboundedResponse 19 := by
  refine ⟨by decide, by decide, fun hone => ?_⟩
  have hset := settled_of_oneReply (by decide) (by decide) hone
  have hno : ¬ DeclaresLength unboundedResponse 19 := by
    rintro ⟨e, he, -⟩
    have hnil : headLines unboundedResponse 19 = [] := by decide +kernel
    rw [hnil] at he
    cases he
  rcases hset.body with hlen | ⟨hyes, -⟩
  · rw [requestSpan_of_no_length (by decide) hno] at hlen
    exact absurd hlen (by decide)
  · exact hno hyes

/-- A response that declares the length of its body. -/
theorem boundedResponse_oneReply :
    OneReply (txt "HTTP/1.1 200 OK\r\nContent-Length: 2\r\n\r\nhi") 38 :=
  (response_settled_iff (by decide) (by decide)).mpr
    ⟨by decide, .inl (by decide +kernel)⟩

end Jaguar
