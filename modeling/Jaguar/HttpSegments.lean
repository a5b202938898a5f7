/-
Requests and TCP segmentation: does the request a handler gets depend on how
`recv` cuts the client's bytes?

The read loop leaves the buffer to dispatch as soon as it holds the head and the
declared body, and the body is then everything behind the head, declared or not.

* `requestReady_take` — the loop can stop at every chunk boundary from
  `requestSpan` on and at none before;
* `segmentationFree_iff_bodySettled` — the request is the same under every
  segmentation exactly when nothing that follows the declared body can get into it;
* `pipelined_body_depends_on_segments` — two segmentations of one stream, two bodies.
-/
import Jaguar.Http
import Mathlib.Data.List.TakeWhile

namespace Jaguar

/-! ### The end of the head -/

theorem exists_head {s : Text} {n : ℕ} (h : findHeaderEnd s = some n) :
    ∃ u t, s = u ++ (blankLine ++ t) ∧ n = u.length + 4 := by
  induction s generalizing n with
  | nil => cases h
  | cons c s ih =>
    unfold findHeaderEnd at h
    split at h
    · next hc =>
      cases h
      exact ⟨[], (c :: s).drop 4, by rw [← hc, List.nil_append, List.take_append_drop], rfl⟩
    · obtain ⟨m, hm, rfl⟩ := Option.map_eq_some_iff.mp h
      obtain ⟨u, t, rfl, rfl⟩ := ih hm
      exact ⟨c :: u, t, rfl, by simp⟩

theorem findHeaderEnd_isSome (u t : Text) : (findHeaderEnd (u ++ (blankLine ++ t))).isSome := by
  induction u with
  | nil => simp [blankLine, findHeaderEnd]
  | cons c u ih =>
    rw [List.cons_append, findHeaderEnd]
    split
    · rfl
    · simpa using ih

/-- What follows does not move the end of the head. -/
theorem findHeaderEnd_append {s : Text} {n : ℕ} (h : findHeaderEnd s = some n) (t : Text) :
    findHeaderEnd (s ++ t) = some n := by
  induction s generalizing n with
  | nil => cases h
  | cons c s ih =>
    obtain ⟨u, r, hs, -⟩ := exists_head h
    have hlen : 4 ≤ (c :: s).length := by
      rw [hs]
      simp [blankLine]
      omega
    rw [List.cons_append, findHeaderEnd, ← List.cons_append, List.take_append_of_le_length hlen]
    unfold findHeaderEnd at h
    split at h
    · next hc => rw [if_pos hc, h]
    · next hc =>
      obtain ⟨m, hm, rfl⟩ := Option.map_eq_some_iff.mp h
      rw [if_neg hc, ih hm]
      rfl

/-- The head of a prefix that holds it. -/
theorem exists_head_take {s : Text} {n k : ℕ} (h : findHeaderEnd s = some n) (hk : n ≤ k) :
    ∃ u t, s = u ++ (blankLine ++ t) ∧ n = u.length + 4 ∧
      s.take k = u ++ (blankLine ++ t.take (k - n)) := by
  obtain ⟨u, t, rfl, rfl⟩ := exists_head h
  have hhead : (u ++ blankLine).length = u.length + 4 := by simp [blankLine]
  refine ⟨u, t, rfl, rfl, ?_⟩
  rw [← List.append_assoc, List.take_append, ← List.append_assoc, hhead,
    List.take_of_length_le (by omega)]

theorem findHeaderEnd_take {s : Text} {n : ℕ} (h : findHeaderEnd s = some n) (k : ℕ) :
    findHeaderEnd (s.take k) = if n ≤ k then some n else none := by
  cases hk : findHeaderEnd (s.take k) with
  | none =>
    rw [if_neg]
    intro hle
    obtain ⟨u, t, -, -, htake⟩ := exists_head_take h hle
    have hsome := findHeaderEnd_isSome u (t.take (k - n))
    rw [← htake, hk] at hsome
    cases hsome
  | some m =>
    have happ := findHeaderEnd_append hk (s.drop k)
    rw [List.take_append_drop, h] at happ
    obtain rfl := Option.some.inj happ
    obtain ⟨v, r, hv, hm⟩ := exists_head hk
    have hlen := congrArg List.length hv
    simp [blankLine] at hlen
    rw [if_pos (by omega)]

theorem findHeaderEnd_take_eq_none {s : Text} (h : findHeaderEnd s = none) (k : ℕ) :
    findHeaderEnd (s.take k) = none := by
  cases hk : findHeaderEnd (s.take k) with
  | none => rfl
  | some m =>
    have happ := findHeaderEnd_append hk (s.drop k)
    rw [List.take_append_drop, h] at happ
    cases happ

/-! ### When the loop can stop -/

/-- The number of bytes the read loop waits for: head and declared body. -/
def requestSpan (s : Text) (headerEnd : ℕ) : ℕ := max headerEnd (requestLength s headerEnd)

theorem requestSpan_pos {s : Text} {n : ℕ} (h : findHeaderEnd s = some n) :
    0 < requestSpan s n := by
  obtain ⟨u, t, -, rfl⟩ := exists_head h
  exact lt_of_lt_of_le (Nat.succ_pos _) (le_max_left _ _)

/-- A prefix that holds the head has the request of the stream, but for its body. -/
theorem parseRequest_take {s : Text} {n k : ℕ} (h : findHeaderEnd s = some n) (hk : n ≤ k) :
    parseRequest (s.take k) n = ((parseRequest s n).1,
      { (parseRequest s n).2 with
        body := if (parseRequest s n).1 then (s.take k).drop n else [] }) := by
  obtain ⟨u, t, rfl, rfl, htake⟩ := exists_head_take h hk
  have hhead : (u ++ blankLine).length = u.length + 4 := by simp [blankLine]
  have hdrop : (u ++ (blankLine ++ t.take (k - (u.length + 4)))).drop (u.length + 4)
      = t.take (k - (u.length + 4)) := by
    rw [← List.append_assoc, ← hhead, List.drop_left]
  rw [htake, hdrop, parseRequest_append u t, parseRequest_append]

theorem requestLength_take {s : Text} {n k : ℕ} (h : findHeaderEnd s = some n) (hk : n ≤ k) :
    requestLength (s.take k) n = requestLength s n := by
  unfold requestLength contentLengthOf
  rw [parseRequest_take h hk]
  rfl

/-- **The loop stops at the first chunk boundary from `requestSpan` on.** -/
theorem requestReady_take {s : Text} {n k : ℕ} (h : findHeaderEnd s = some n)
    (hk : k ≤ s.length) :
    requestReady (s.take k) = if requestSpan s n ≤ k then some n else none := by
  unfold requestReady requestSpan
  rw [findHeaderEnd_take h]
  by_cases hnk : n ≤ k
  · rw [if_pos hnk]
    simp [requestLength_take h hnk, hk, hnk]
  · simp [hnk]

/-- Where the loop has stopped, for a stream with head end `n`. -/
theorem readRequest_eq_some {s : Text} {n : ℕ} (h : findHeaderEnd s = some n)
    {chunks : List Text} : ∀ {k : ℕ}, k ≤ s.length → k ≤ maxRequest → s.drop k = chunks.flatten →
      ∀ {b : Text} {m : ℕ}, readRequest (s.take k) chunks = some (b, m) →
        m = n ∧ ∃ j, b = s.take j ∧ requestSpan s n ≤ j ∧ j ≤ s.length ∧ j ≤ maxRequest := by
  induction chunks with
  | nil =>
    intro k hk hmax _ b m hr
    unfold readRequest at hr
    rw [requestReady_take h hk] at hr
    by_cases hspan : requestSpan s n ≤ k
    · rw [if_pos hspan] at hr
      cases hr
      exact ⟨rfl, k, rfl, hspan, hk, hmax⟩
    · rw [if_neg hspan] at hr
      cases hr
  | cons chunk chunks ih =>
    intro k hk hmax hrest b m hr
    unfold readRequest at hr
    rw [requestReady_take h hk] at hr
    by_cases hspan : requestSpan s n ≤ k
    · rw [if_pos hspan] at hr
      cases hr
      exact ⟨rfl, k, rfl, hspan, hk, hmax⟩
    · rw [if_neg hspan] at hr
      have hbuf : s.take k ++ chunk = s.take (k + chunk.length) := by
        rw [List.take_add, hrest, List.flatten_cons, List.take_left]
      have hlen : k + chunk.length ≤ s.length := by
        have := congrArg List.length hrest
        simp at this
        omega
      simp only [hbuf, List.length_take, Nat.min_eq_left hlen] at hr
      split at hr
      · cases hr
      · refine ih hlen (by omega) ?_ hr
        rw [← List.drop_drop, hrest, List.flatten_cons, List.drop_left]

/-- Without a complete head nothing is dispatched. -/
theorem readRequest_eq_none {s : Text} (h : findHeaderEnd s = none) {chunks : List Text} :
    ∀ {k : ℕ}, s.drop k = chunks.flatten → readRequest (s.take k) chunks = none := by
  induction chunks with
  | nil =>
    intro k _
    simp [readRequest, requestReady, findHeaderEnd_take_eq_none h]
  | cons chunk chunks ih =>
    intro k hrest
    have hbuf : s.take k ++ chunk = s.take (k + chunk.length) := by
      rw [List.take_add, hrest, List.flatten_cons, List.take_left]
    simp only [readRequest, requestReady, findHeaderEnd_take_eq_none h, hbuf]
    split
    · rfl
    · refine ih ?_
      rw [← List.drop_drop, hrest, List.flatten_cons, List.drop_left]

/-- One byte more of the stream. -/
theorem take_snoc_of_drop {s : Text} {c : UInt8} {t : Text} {k : ℕ}
    (hdrop : s.drop k = c :: t ++ s.drop (k + (t.length + 1))) :
    s.take k ++ [c] = s.take (k + 1) ∧ s.drop (k + 1) = t ++ s.drop (k + 1 + t.length) := by
  constructor
  · rw [List.take_add, hdrop]
    rfl
  · rw [← List.drop_drop, hdrop, Nat.add_assoc, Nat.add_comm 1]
    rfl

/-- As long as the request is not complete, the loop takes in byte after byte. -/
theorem readRequest_bytes {s : Text} {n : ℕ} (h : findHeaderEnd s = some n) (rest : List Text) :
    ∀ (t : Text) {k : ℕ}, s.drop k = t ++ s.drop (k + t.length) →
      k + t.length ≤ requestSpan s n → k + t.length ≤ s.length → k + t.length ≤ maxRequest →
      readRequest (s.take k) (t.map (fun c => [c]) ++ rest)
        = readRequest (s.take (k + t.length)) rest := by
  intro t
  induction t with
  | nil => intros; rfl
  | cons c t ih =>
    intro k hdrop hspan hlen hmax
    simp only [List.length_cons] at hspan hlen hmax hdrop ⊢
    obtain ⟨hbuf, hnext⟩ := take_snoc_of_drop hdrop
    rw [List.map_cons, List.cons_append, readRequest, requestReady_take h (by omega),
      if_neg (by omega)]
    simp only [hbuf, List.length_take, Nat.min_eq_left (show k + 1 ≤ s.length by omega)]
    rw [if_neg (by omega), ih hnext (by omega) (by omega) (by omega), Nat.add_assoc,
      Nat.add_comm 1]

/-! ### Two runs -/

/-- A way `recv` can deliver the stream. -/
def Segmented (s : Text) (chunks : List Text) : Prop :=
  chunks.flatten = s ∧ ∀ c ∈ chunks, c ≠ [] ∧ c.length ≤ 8192

variable {η : Type*}

/-- Whatever the segmentation, a handler that gets a request gets the same one. -/
def SegmentationFree (routes : List (Route η)) (s : Text) : Prop :=
  ∀ chunks chunks', Segmented s chunks → Segmented s chunks' → ∀ handler req handler' req',
    httpConnEntry routes chunks = .handled handler req →
    httpConnEntry routes chunks' = .handled handler' req' → req = req'

/-- Nothing behind the declared body can get into the body: there is no request line to
dispatch or no route for it, or the stream ends with the declared body, or the declared
body reaches the size guard, or a NUL in it or right behind it ends the text. -/
def BodySettled (routes : List (Route η)) (s : Text) : Prop :=
  ∀ n, findHeaderEnd s = some n →
    (parseRequest s n).1 = false ∨
    matchRoute routes (parseRequest s n).2.method (parseRequest s n).2.path = none ∨
    s.length ≤ requestSpan s n ∨ maxRequest ≤ requestSpan s n ∨
    0 ∈ (s.drop n).take (requestSpan s n + 1 - n)

/-- The outcome of a run whose read loop stops at byte `j`. -/
theorem httpConnEntry_of_readRequest {routes : List (Route η)} {s : Text} {n j : ℕ}
    (h : findHeaderEnd s = some n) (hj : requestSpan s n ≤ j) {chunks : List Text}
    (hr : readRequest [] chunks = some (s.take j, n)) :
    httpConnEntry routes chunks =
      match matchRoute routes (parseRequest s n).2.method (parseRequest s n).2.path with
      | some (route, params) => .handled route.handler
          { makeRequest (parseRequest s n).2 params with
            body := if (parseRequest s n).1 then cStr ((s.take j).drop n) else [] }
      | none => .notFound := by
  unfold httpConnEntry
  rw [hr]
  simp only [parseRequest_take h (le_trans (le_max_left _ _) hj), makeRequest]
  cases (parseRequest s n).1 <;> rfl

theorem cStr_take {x : Text} : ∀ {a b : ℕ}, 0 ∈ x.take (a + 1) → a ≤ b →
    cStr (x.take b) = cStr x := by
  induction x with
  | nil => simp
  | cons c x ih =>
    intro a b h hab
    by_cases hc : c = 0
    · cases b <;> simp [cStr, hc]
    · rw [List.take_succ_cons, List.mem_cons] at h
      have h := h.resolve_left (Ne.symm hc)
      obtain _ | a := a
      · simp at h
      obtain _ | b := b
      · omega
      have := ih h (show a ≤ b by omega)
      simpa [cStr, hc] using this

theorem segmented_bytes (t : Text) : Segmented t (t.map fun c => [c]) := by
  refine ⟨?_, ?_⟩
  · induction t with
    | nil => rfl
    | cons c t ih => rw [List.map_cons, List.flatten_cons, ih]; rfl
  · simp

theorem Segmented.append {s t : Text} {c c' : List Text} (h : Segmented s c)
    (h' : Segmented t c') : Segmented (s ++ t) (c ++ c') := by
  refine ⟨by rw [List.flatten_append, h.1, h'.1], fun x hx => ?_⟩
  rcases List.mem_append.mp hx with hx | hx
  · exact h.2 x hx
  · exact h'.2 x hx

/-- Byte after byte. -/
theorem segmented_bytes_bytes (s : Text) (m : ℕ) :
    Segmented s ((s.take m).map (fun c => [c]) ++ (s.drop m).map (fun c => [c])) := by
  conv_lhs => rw [← List.take_append_drop m s]
  exact (segmented_bytes _).append (segmented_bytes _)

/-- Byte after byte, but for one chunk of two bytes. -/
theorem segmented_two {s : Text} {m : ℕ} (hm : m < s.length) :
    Segmented s ((s.take m).map (fun c => [c]) ++ ([(s.drop m).take 2]
      ++ (s.drop (m + 2)).map (fun c => [c]))) := by
  have hcut : s = s.take m ++ ((s.drop m).take 2 ++ s.drop (m + 2)) := by
    rw [← List.drop_drop, List.take_append_drop, List.take_append_drop]
  conv_lhs => rw [hcut]
  refine (segmented_bytes _).append (.append ⟨by simp, ?_⟩ (segmented_bytes _))
  simp only [List.mem_singleton, forall_eq]
  refine ⟨fun hnil => ?_, by simp⟩
  have := congrArg List.length hnil
  simp at this
  omega

/-- A run whose loop stops right behind the declared body. -/
theorem exists_run_span {s : Text} {n : ℕ} (h : findHeaderEnd s = some n)
    (hlen : requestSpan s n ≤ s.length) (hmax : requestSpan s n ≤ maxRequest) :
    ∃ chunks, Segmented s chunks ∧
      readRequest [] chunks = some (s.take (requestSpan s n), n) := by
  set M := requestSpan s n with hM
  have htake : (s.take M).length = M := by simp [hlen]
  refine ⟨_, segmented_bytes_bytes s M, ?_⟩
  have hrun := readRequest_bytes h ((s.drop M).map fun c => [c]) (s.take M) (k := 0)
    (by simp [htake]) (by omega) (by omega) (by omega)
  rw [Nat.zero_add, htake] at hrun
  change readRequest (s.take 0) _ = _
  rw [hrun, readRequest.eq_def, requestReady_take h hlen, if_pos le_rfl]

/-- A run whose loop stops one byte later. -/
theorem exists_run_span_succ {s : Text} {n : ℕ} (h : findHeaderEnd s = some n)
    (hlen : requestSpan s n < s.length) (hmax : requestSpan s n < maxRequest) :
    ∃ chunks, Segmented s chunks ∧
      readRequest [] chunks = some (s.take (requestSpan s n + 1), n) := by
  obtain ⟨m, hm⟩ := Nat.exists_eq_succ_of_ne_zero (requestSpan_pos h).ne'
  have htake : (s.take m).length = m := by
    simp
    omega
  refine ⟨_, segmented_two (show m < s.length by omega), ?_⟩
  have hrun := readRequest_bytes h ([(s.drop m).take 2] ++ (s.drop (m + 2)).map fun c => [c])
    (s.take m) (k := 0) (by simp [htake]) (by omega) (by omega) (by omega)
  rw [Nat.zero_add, htake] at hrun
  have hbuf : s.take m ++ (s.drop m).take 2 = s.take (m + 2) := by rw [List.take_add]
  change readRequest (s.take 0) _ = _
  rw [hrun, List.singleton_append, readRequest.eq_def, requestReady_take h (by omega),
    if_neg (by omega)]
  simp only [hbuf, List.length_take]
  rw [if_neg (by omega), readRequest.eq_def, requestReady_take h (by omega),
    if_pos (by omega), hm]

/-- Of two bodies without a NUL, one of which has a byte more, the C strings differ. -/
theorem cStr_drop_take_ne {s : Text} {n m : ℕ} (hnm : n ≤ m) (hm : m < s.length)
    (hnul : 0 ∉ (s.drop n).take (m + 1 - n)) :
    cStr ((s.take m).drop n) ≠ cStr ((s.take (m + 1)).drop n) := by
  intro hsame
  rw [← List.drop_take] at hnul
  have hnul' : 0 ∉ (s.take m).drop n := fun h0 => hnul <| by
    rw [List.drop_take] at h0 ⊢
    exact List.take_subset_take_left _ (by omega) h0
  rw [cStr_eq_self hnul, cStr_eq_self hnul'] at hsame
  have hlens := congrArg List.length hsame
  simp only [List.length_drop, List.length_take] at hlens
  omega

/-- With an unsettled body, the runs that stop right behind the declared body and one
byte later differ. -/
theorem bodySettled_of_segmentationFree {routes : List (Route η)} {s : Text} :
    SegmentationFree routes s → BodySettled routes s := by
  intro hfree n h
  by_contra hno
  simp only [not_or, Bool.not_eq_false, not_le] at hno
  obtain ⟨hok, hroute, hlen, hmax, hnul⟩ := hno
  obtain ⟨⟨route, params⟩, hroute⟩ := Option.ne_none_iff_exists'.mp hroute
  obtain ⟨c, hc, hr⟩ := exists_run_span h hlen.le hmax.le
  obtain ⟨c', hc', hr'⟩ := exists_run_span_succ h hlen hmax
  have he := @httpConnEntry_of_readRequest _ routes _ _ _ h le_rfl _ hr
  have he' := @httpConnEntry_of_readRequest _ routes _ _ _ h (Nat.le_succ _) _ hr'
  rw [hroute] at he he'
  have hsame := congrArg RequestValue.body (hfree c c' hc hc' _ _ _ _ he he')
  simp only [hok, if_true] at hsame
  exact cStr_drop_take_ne (le_max_left _ _) hlen hnul hsame

/-- A settled body is the same wherever the loop stops. -/
theorem segmentationFree_of_bodySettled {routes : List (Route η)} {s : Text} :
    BodySettled routes s → SegmentationFree routes s := by
  intro hset c c' hc hc' handler req handler' req' he he'
  cases h : findHeaderEnd s with
  | none =>
    have hr := @readRequest_eq_none _ h c 0 (by rw [hc.1]; rfl)
    change readRequest [] c = none at hr
    unfold httpConnEntry at he
    rw [hr] at he
    cases he
  | some n =>
    -- where the two loops stopped
    have stop : ∀ {c : List Text} {handler : η} {req : RequestValue}, Segmented s c →
        httpConnEntry routes c = .handled handler req → ∃ j route params,
          requestSpan s n ≤ j ∧ j ≤ s.length ∧ j ≤ maxRequest ∧
          matchRoute routes (parseRequest s n).2.method (parseRequest s n).2.path
            = some (route, params) ∧
          req = { makeRequest (parseRequest s n).2 params with
            body := if (parseRequest s n).1 then cStr ((s.take j).drop n) else [] } := by
      intro c handler req hc he
      cases hr : readRequest [] c with
      | none => simp [httpConnEntry, hr] at he
      | some p =>
        obtain ⟨rfl, j, hb, h1, h2, h3⟩ := @readRequest_eq_some _ _ h c 0
          (Nat.zero_le _) (Nat.zero_le _) (by rw [hc.1]; rfl) p.1 p.2 hr
        rw [httpConnEntry_of_readRequest h h1 (by rw [hr, ← hb])] at he
        cases hroute : matchRoute routes (parseRequest s p.2).2.method
            (parseRequest s p.2).2.path with
        | none => simp [hroute] at he
        | some q =>
          rw [hroute] at he
          cases he
          exact ⟨j, q.1, q.2, h1, h2, h3, rfl, rfl⟩
    obtain ⟨j, route, params, h1, h2, h3, hroute, rfl⟩ := stop hc he
    obtain ⟨j', route', params', h1', h2', h3', hroute', rfl⟩ := stop hc' he'
    obtain ⟨rfl, rfl⟩ := Prod.mk.inj (Option.some.inj (hroute.symm.trans hroute'))
    rcases hset n h with hbad | hnone | hlen | hmax | hnul
    · simp [hbad]
    · simp [hroute] at hnone
    · rw [show j = j' by omega]
    · rw [show j = j' by omega]
    · have hspan : n ≤ requestSpan s n := le_max_left _ _
      rw [show requestSpan s n + 1 - n = (requestSpan s n - n) + 1 by omega] at hnul
      have hcut := cStr_take hnul (show requestSpan s n - n ≤ j - n by omega)
      have hcut' := cStr_take hnul (show requestSpan s n - n ≤ j' - n by omega)
      rw [List.drop_take, List.drop_take, hcut, hcut']

/-- **The request is independent of TCP segmentation exactly when the body is settled.** -/
theorem segmentationFree_iff_bodySettled (routes : List (Route η)) (s : Text) :
    SegmentationFree routes s ↔ BodySettled routes s :=
  ⟨bodySettled_of_segmentationFree, segmentationFree_of_bodySettled⟩

/-- A client sends two bytes behind a head that declares one. -/
def pipelined : Text := txt "POST /e HTTP/1.1\r\nContent-Length: 1\r\n\r\nab"

/-- The body is `a` or `ab`, as the last byte comes in a later segment or in the same. -/
theorem pipelined_body_depends_on_segments :
    ¬ SegmentationFree [⟨txt "POST", txt "/e", ()⟩] pipelined := by
  intro hfree
  have hroute : (matchRoute [⟨txt "POST", txt "/e", ()⟩] (parseRequest pipelined 39).2.method
      (parseRequest pipelined 39).2.path).isSome = true := by decide +kernel
  rcases bodySettled_of_segmentationFree hfree 39 (by decide) with hbad | hnone | hlen | hmax | hnul
  · exact absurd hbad (by decide +kernel)
  · rw [hnone] at hroute
    cases hroute
  · exact absurd hlen (by decide +kernel)
  · exact absurd hmax (by decide +kernel)
  · exact absurd hnul (by decide +kernel)

end Jaguar
