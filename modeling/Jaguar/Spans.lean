/-
What the lexer makes of every byte of the source.

A call of `lexer_next` reads a gap, which is whitespace and comments, and behind it the
bytes of one token. So the source falls into gaps and tokens, in the order of the calls,
and the line is counted along with the bytes.

* `Reads` — the bytes between two cursors, and the newlines among them;
* `Gap`, `Token.Takes` — whitespace and comments; the lexeme of a token, with its quotes;
* `Lexer.next_reads` — **one call**;
* `lexer_calls` — **all calls**: they reach the end, and no byte is lost or read twice.
-/
import Jaguar.Lexer
import Mathlib.Data.List.Count
import Mathlib.Logic.Function.Iterate

namespace Jaguar

/-- The number of newlines. -/
def newlines (s : Text) : ℕ := s.count 10

theorem newlines_append (s t : Text) : newlines (s ++ t) = newlines s + newlines t :=
  List.count_append

theorem newlines_eq_zero {s : Text} (h : 10 ∉ s) : newlines s = 0 := List.count_eq_zero.mpr h

theorem lineAfter_eq (c : UInt8) (line : ℕ) : lineAfter c line = line + newlines [c] := by
  unfold lineAfter newlines
  by_cases hc : c = 10
  · rw [if_pos hc, hc]
    rfl
  · rw [if_neg hc, List.count_singleton, if_neg (by simpa using hc), Nat.add_zero]

/-! ### Between two cursors -/

/-- The bytes `s` lie between the two cursors. -/
structure Reads (lx : Lexer) (s : Text) (lx' : Lexer) : Prop where
  rest : lx.rest = s ++ lx'.rest
  line : lx'.line = lx.line + newlines s

namespace Reads

variable {lx lx₁ lx₂ : Lexer} {s t : Text}

theorem refl (lx : Lexer) : Reads lx [] lx := ⟨rfl, rfl⟩

theorem trans (h₁ : Reads lx s lx₁) (h₂ : Reads lx₁ t lx₂) : Reads lx (s ++ t) lx₂ where
  rest := by rw [h₁.rest, h₂.rest, List.append_assoc]
  line := by rw [h₂.line, h₁.line, newlines_append, Nat.add_assoc]

theorem byte (c : UInt8) (s : Text) (line : ℕ) : Reads ⟨c :: s, line⟩ [c] ⟨s, lineAfter c line⟩ :=
  ⟨rfl, lineAfter_eq c line⟩

theorem cons {c : UInt8} {s t : Text} {line : ℕ} {lx : Lexer}
    (h : Reads ⟨s, lineAfter c line⟩ t lx) : Reads ⟨c :: s, line⟩ (c :: t) lx :=
  (byte c s line).trans h

theorem advance {c : UInt8} (h : lx.rest = c :: s) : Reads lx [c] lx.advance := by
  obtain ⟨r, line⟩ := lx
  obtain rfl : r = c :: s := h
  exact byte c s line

/-- The lexeme of a token is what was read. -/
theorem lexeme_make (h : Reads lx s lx₁) (type : TokenType) : (lx₁.make type lx).lexeme = s := by
  rw [Lexer.make, h.rest, List.length_append, Nat.add_sub_cancel, List.take_left]

end Reads

theorem advanceWhile_reads (p : UInt8 → Bool) (s : Text) (line : ℕ) :
    ∃ t, Reads ⟨s, line⟩ t (advanceWhile p s line) ∧ (∀ c ∈ t, p c) ∧
      ∀ c ∈ (advanceWhile p s line).rest.head?, ¬ p c := by
  induction s generalizing line with
  | nil => exact ⟨[], Reads.refl _, nofun, nofun⟩
  | cons c s ih =>
    unfold advanceWhile
    split_ifs with hc
    · obtain ⟨t, hreads, ht, hstop⟩ := ih (lineAfter c line)
      exact ⟨c :: t, hreads.cons, List.forall_mem_cons.mpr ⟨hc, ht⟩, hstop⟩
    · refine ⟨[], Reads.refl _, nofun, fun d hd => ?_⟩
      obtain rfl := Option.some.inj hd
      exact hc

/-- The mark that closes a block comment. -/
def closingMark : Text := [42, 47]

theorem blockComment_reads (s : Text) (line : ℕ) :
    ∃ t, Reads ⟨s, line⟩ t (blockComment s line) ∧ ¬ closingMark <:+: t ∧
      ((blockComment s line).rest = [] ∨ closingMark <+: (blockComment s line).rest) := by
  induction s generalizing line with
  | nil => exact ⟨[], Reads.refl _, by decide, .inl rfl⟩
  | cons c s ih =>
    unfold blockComment
    split_ifs with hc
    · obtain ⟨rfl, hs⟩ := hc
      obtain ⟨r, rfl⟩ : ∃ r, s = 47 :: r := List.head?_eq_some_iff.mp hs
      exact ⟨[], Reads.refl _, by decide, .inr ⟨r, rfl⟩⟩
    · obtain ⟨t, hreads, ht, hstop⟩ := ih (lineAfter c line)
      refine ⟨c :: t, hreads.cons, fun hmark => ?_, hstop⟩
      rcases List.infix_cons_iff.mp hmark with hpre | hin
      · obtain ⟨r, hr⟩ := hpre
        obtain ⟨rfl, rfl⟩ := List.cons.inj hr
        refine hc ⟨rfl, ?_⟩
        have hs := hreads.rest
        rw [show s = _ from hs]
        rfl
      · exact ht hin

theorem stringBody_reads : ∀ (s : Text) (line : ℕ),
    ∃ t, Reads ⟨s, line⟩ t (stringBody s line) ∧
      ((stringBody s line).rest = [] ∨ ∃ r, (stringBody s line).rest = 34 :: r)
  | [], line => ⟨[], Reads.refl _, .inl rfl⟩
  | [c], line => by
    unfold stringBody
    split_ifs with hc
    · exact ⟨[], Reads.refl _, .inr ⟨[], by rw [hc]⟩⟩
    · exact ⟨[c], Reads.byte c [] line, .inl rfl⟩
  | c :: d :: s, line => by
    unfold stringBody
    split_ifs with hc hescape
    · exact ⟨[], Reads.refl _, .inr ⟨d :: s, by rw [hc]⟩⟩
    · obtain ⟨t, hreads, hstop⟩ := stringBody_reads s (lineAfter d (lineAfter c line))
      exact ⟨c :: d :: t, hreads.cons.cons, hstop⟩
    · obtain ⟨t, hreads, hstop⟩ := stringBody_reads (d :: s) (lineAfter c line)
      exact ⟨c :: t, hreads.cons, hstop⟩

/-! ### Gaps -/

/-- Whitespace and comments, in front of `rest`. A line comment ends with its line; a block
comment ends with the first closing mark, or not at all. -/
inductive Gap (rest : Text) : Text → Prop
  | nil : Gap rest []
  | space {c : UInt8} {s : Text} : c = 32 ∨ c = 9 ∨ c = 13 ∨ c = 10 → Gap rest s → Gap rest (c :: s)
  | lineComment {body s : Text} : 10 ∉ body → (∀ c ∈ (s ++ rest).head?, c = 10) → Gap rest s →
      Gap rest (47 :: 47 :: body ++ s)
  | blockComment {body s : Text} : ¬ closingMark <:+: body → Gap rest s →
      Gap rest (47 :: 42 :: body ++ closingMark ++ s)
  | openComment {body : Text} : rest = [] → ¬ closingMark <:+: body → Gap rest (47 :: 42 :: body)

theorem skipWsAndComments_reads (s : Text) (line : ℕ) :
    ∃ gap, Reads ⟨s, line⟩ gap (skipWsAndComments s line) ∧
      Gap (skipWsAndComments s line).rest gap ∧
      ∀ c ∈ (skipWsAndComments s line).rest.head?, c ≠ 10 := by
  induction s, line using skipWsAndComments.induct with
  | case1 line =>
    rw [skipWsAndComments]
    refine ⟨[], Reads.refl _, .nil, fun c hc => ?_⟩
    cases hc
  | case2 line c s hspace ih =>
    obtain ⟨gap, hreads, hgap, hstop⟩ := ih
    rw [skipWsAndComments, if_pos hspace]
    exact ⟨c :: gap, hreads.cons, .space hspace hgap, hstop⟩
  | case3 line c s hspace hline lx ih =>
    obtain ⟨gap, hreads, hgap, hstop⟩ := ih
    obtain ⟨rfl, hs⟩ := hline
    obtain ⟨r, rfl⟩ : ∃ r, s = 47 :: r := List.head?_eq_some_iff.mp hs
    rw [skipWsAndComments, if_neg hspace, if_pos ⟨rfl, hs⟩]
    obtain ⟨body, hbody, hno, hend⟩ := advanceWhile_reads (· ≠ 10) (47 :: r) line
    have hrest : 47 :: r = body ++ lx.rest := hbody.rest
    -- the second slash is part of what is skipped
    obtain ⟨body, rfl⟩ : ∃ body', body = 47 :: body' := by
      cases body with
      | nil =>
        have hhead : lx.rest.head? = some 47 := by
          rw [← List.nil_append lx.rest, ← hrest]
          rfl
        exact absurd (hend 47 hhead) (by decide)
      | cons d body' =>
        obtain ⟨rfl, -⟩ := List.cons.inj hrest
        exact ⟨body', rfl⟩
    refine ⟨47 :: 47 :: body ++ gap, (Reads.cons hbody).trans hreads,
      .lineComment (fun h => ?_) (fun c hc => ?_) hgap, hstop⟩
    · exact absurd (hno 10 (List.mem_cons_of_mem 47 h)) (by decide)
    · rw [← hreads.rest] at hc
      by_contra hne
      exact hend c hc (by simpa using hne)
  | case4 line c s hspace hline hblock lx ih =>
    obtain ⟨gap, hreads, hgap, hstop⟩ := ih
    obtain ⟨rfl, hs⟩ := hblock
    obtain ⟨r, rfl⟩ : ∃ r, s = 42 :: r := List.head?_eq_some_iff.mp hs
    rw [skipWsAndComments, if_neg hspace, if_neg hline, if_pos ⟨rfl, hs⟩]
    obtain ⟨body, hbody, hno, hend⟩ := blockComment_reads r line
    have hopen : Reads ⟨47 :: 42 :: r, line⟩ (47 :: 42 :: body) (blockComment r line) :=
      Reads.cons (Reads.cons hbody)
    rcases hend with hnil | ⟨q, hq⟩
    · -- not closed: nothing is left to advance over, or to skip
      have hlx : lx = blockComment r line := by
        show (blockComment r line).advance.advance = blockComment r line
        simp only [Lexer.advance, hnil]
      have hskip : skipWsAndComments lx.rest lx.line = lx := by
        obtain ⟨rest, l⟩ := lx
        obtain rfl : rest = [] := (congrArg Lexer.rest hlx).trans hnil
        rw [skipWsAndComments]
      show ∃ gap, Reads _ gap (skipWsAndComments lx.rest lx.line) ∧
        Gap (skipWsAndComments lx.rest lx.line).rest gap ∧
        ∀ c ∈ (skipWsAndComments lx.rest lx.line).rest.head?, c ≠ 10
      rw [hskip, hlx]
      refine ⟨_, hopen, .openComment hnil hno, fun c hc => ?_⟩
      rw [hnil] at hc
      cases hc
    · have hstar : Reads (blockComment r line) [42] (blockComment r line).advance :=
        Reads.advance hq.symm
      have hslash : (blockComment r line).advance.rest = 47 :: q :=
        (List.cons.inj (hq.trans hstar.rest)).2.symm
      have hclose : Reads (blockComment r line) closingMark lx :=
        hstar.trans (Reads.advance hslash)
      refine ⟨47 :: 42 :: body ++ closingMark ++ gap, (hopen.trans hclose).trans hreads,
        .blockComment hno hgap, hstop⟩
  | case5 line c s hspace hline hblock =>
    rw [skipWsAndComments, if_neg hspace, if_neg hline, if_neg hblock]
    refine ⟨[], Reads.refl _, .nil, fun d hd heq => hspace ?_⟩
    obtain rfl := Option.some.inj hd
    exact .inr (.inr (.inr heq))

/-! ### Tokens -/

/-- The bytes of a token, in front of `rest`: its lexeme, and the quotes of a string
literal. The closing one is missing only at the end. -/
inductive Token.Takes (t : Token) (rest : Text) : Text → Prop
  | lexeme : t.type ≠ .stringLit → t.Takes rest t.lexeme
  | quoted : t.type = .stringLit → t.Takes rest (34 :: t.lexeme ++ [34])
  | unclosed : t.type = .stringLit → rest = [] → t.Takes rest (34 :: t.lexeme)

theorem digits_reads (cur : Lexer) : ∃ t, Reads cur t (digits cur) := by
  obtain ⟨t, h, -⟩ := advanceWhile_reads isDigit cur.rest cur.line
  exact ⟨t, h⟩

/-- At a byte other than NUL the cursor is not at the end, and it may be advanced. -/
theorem advance_reads {cur : Lexer} (h : cur.peek ≠ 0) : Reads cur [cur.peek] cur.advance := by
  obtain ⟨rest, line⟩ := cur
  cases rest with
  | nil => exact absurd rfl h
  | cons c s => exact Reads.byte c s line

theorem fraction_reads {cur cur' : Lexer} (h : fraction cur = some cur') :
    ∃ t, Reads cur t cur' := by
  unfold fraction at h
  split_ifs at h with hpoint
  obtain rfl := Option.some.inj h
  obtain ⟨t, ht⟩ := digits_reads cur.advance
  have hpeek : cur.peek ≠ 0 := by
    rw [hpoint.1]
    decide
  exact ⟨_, (advance_reads hpeek).trans ht⟩

theorem exponent_reads {cur cur' : Lexer} (h : exponent cur = some cur') :
    ∃ t, Reads cur t cur' := by
  unfold exponent at h
  dsimp only at h
  split_ifs at h with hE hsign
  · have hpeek : cur.peek ≠ 0 := by
      rcases hE with hE | hE <;> rw [hE] <;> decide
    have hpeek' : cur.advance.peek ≠ 0 := by
      rcases hsign with hsign | hsign <;> rw [hsign] <;> decide
    obtain rfl := Option.some.inj h
    obtain ⟨t, ht⟩ := digits_reads cur.advance.advance
    exact ⟨_, ((advance_reads hpeek).trans (advance_reads hpeek')).trans ht⟩
  · have hpeek : cur.peek ≠ 0 := by
      rcases hE with hE | hE <;> rw [hE] <;> decide
    obtain rfl := Option.some.inj h
    obtain ⟨t, ht⟩ := digits_reads cur.advance
    exact ⟨_, (advance_reads hpeek).trans ht⟩

/-- What one token is read from: from the cursor `lx` on, the bytes `s`. -/
structure ReadsToken (lx : Lexer) (s : Text) (r : Token × Lexer) : Prop where
  reads : Reads lx s r.2
  takes : r.1.Takes r.2.rest s
  line : r.1.line = r.2.line

/-- A token made of what was read. -/
theorem readsToken_make {start cur : Lexer} {s : Text} (h : Reads start s cur) {type : TokenType}
    (htype : type ≠ .stringLit) : ReadsToken start s (cur.make type start, cur) where
  reads := h
  takes := by
    have htakes : (cur.make type start).Takes cur.rest (cur.make type start).lexeme :=
      .lexeme htype
    rwa [h.lexeme_make] at htakes
  line := rfl

theorem number_reads {start cur : Lexer} {s : Text} (h : Reads start s cur) :
    ∃ t, ReadsToken start (s ++ t) (number cur start) := by
  obtain ⟨t₁, h₁⟩ := digits_reads cur
  obtain ⟨t₂, h₂⟩ : ∃ t, Reads (digits cur) t ((fraction (digits cur)).getD (digits cur)) := by
    cases hfraction : fraction (digits cur) with
    | none => exact ⟨[], Reads.refl _⟩
    | some cur' => exact fraction_reads hfraction
  have hdecimal := (h.trans h₁).trans h₂
  have hne : ∀ b : Bool, (if b then TokenType.decimalLit else .numLit) ≠ .stringLit := by decide
  unfold number
  dsimp only
  cases hexp : exponent ((fraction (digits cur)).getD (digits cur)) with
  | none =>
    refine ⟨t₁ ++ t₂, ?_⟩
    rw [← List.append_assoc]
    exact readsToken_make hdecimal (hne _)
  | some cur' =>
    obtain ⟨t₃, h₃⟩ := exponent_reads hexp
    refine ⟨t₁ ++ t₂ ++ t₃, ?_⟩
    rw [← List.append_assoc, ← List.append_assoc]
    exact readsToken_make (hdecimal.trans h₃) (by decide)

theorem stringLit_reads (s : Text) (line : ℕ) :
    ∃ t, ReadsToken ⟨34 :: s, line⟩ (34 :: t) (stringLit ⟨s, lineAfter 34 line⟩) := by
  obtain ⟨body, hbody, hend⟩ := stringBody_reads s (lineAfter 34 line)
  have hlit : stringLit ⟨s, lineAfter 34 line⟩
      = (⟨.stringLit, body, (stringBody s (lineAfter 34 line)).advance.line⟩,
        (stringBody s (lineAfter 34 line)).advance) := by
    rw [stringLit]
    dsimp only
    rw [hbody.lexeme_make]
  have hopen := Reads.cons hbody
  rw [hlit]
  rcases hend with hnil | ⟨r, hr⟩
  · -- at the end, where no quote is left to take
    have hadvance : (stringBody s (lineAfter 34 line)).advance = stringBody s (lineAfter 34 line) := by
      simp only [Lexer.advance, hnil]
    rw [hadvance]
    exact ⟨body, hopen, .unclosed rfl hnil, rfl⟩
  · have hclose : Reads ⟨34 :: s, line⟩ (34 :: (body ++ [34]))
        (stringBody s (lineAfter 34 line)).advance := hopen.trans (Reads.advance hr)
    exact ⟨body ++ [34], hclose, .quoted rfl, rfl⟩

/-- The bytes that an operator has behind its first one. -/
def operatorBytes : List Char := ['=', '*', '&', '|', '>', '<']

/-- From its first byte on, in front of `s`, an operator may have `n` bytes. -/
def OperatorSpan (s : Text) (n : ℕ) : Prop :=
  n ≤ s.length + 1 ∧ ∀ b ∈ s.take (n - 1), b ∈ operatorBytes.map Char.toUInt8

section OperatorSpan

variable {s : Text} {d e : Char}

theorem OperatorSpan.one : OperatorSpan s 1 := ⟨Nat.le_add_left 1 _, fun _ hb => by cases hb⟩

theorem OperatorSpan.two (hd : d ∈ operatorBytes) (h : s.head? = some d.toUInt8) :
    OperatorSpan s 2 := by
  obtain ⟨s', rfl⟩ := List.head?_eq_some_iff.mp h
  refine ⟨by simp, fun b hb => ?_⟩
  obtain rfl : b = d.toUInt8 := by simpa using hb
  exact List.mem_map_of_mem hd

theorem OperatorSpan.three (hd : d ∈ operatorBytes) (he : e ∈ operatorBytes)
    (h : s.head? = some d.toUInt8) (h' : s.tail.head? = some e.toUInt8) : OperatorSpan s 3 := by
  obtain ⟨s', rfl⟩ := List.head?_eq_some_iff.mp h
  obtain ⟨s'', rfl : s' = _⟩ := List.head?_eq_some_iff.mp h'
  refine ⟨by simp, fun b hb => ?_⟩
  obtain rfl | rfl : b = d.toUInt8 ∨ b = e.toUInt8 := by simpa using hb
  · exact List.mem_map_of_mem hd
  · exact List.mem_map_of_mem he

/-- The length of an operator, by what its first byte may be. -/
theorem operatorSpan_operatorAt (c : UInt8) (s : Text) : OperatorSpan s (operatorAt c s).2 := by
  have hif : ∀ {p : Prop} [Decidable p] {x y : TokenType × ℕ}, (p → OperatorSpan s x.2) →
      OperatorSpan s y.2 → OperatorSpan s (if p then x else y).2 := by
    intro p _ x y hx hy
    by_cases hp : p
    · rw [if_pos hp]
      exact hx hp
    · rw [if_neg hp]
      exact hy
  have hnext : ∀ {d : Char}, d ∈ operatorBytes → decide (s.head? = some d.toUInt8) = true →
      OperatorSpan s 2 := fun hd h => .two hd (of_decide_eq_true h)
  unfold operatorAt
  dsimp only
  split
  case h_14 =>
    -- `**=`, `**`, `*=` and `*`
    refine hif (fun hstar => hif (fun heq => ?_) (hnext (by decide) hstar))
      (hif (hnext (by decide)) .one)
    exact .three (by decide) (by decide) (of_decide_eq_true hstar) (of_decide_eq_true heq)
  case h_22 =>
    -- `<=`, `<<<`, `<<` and `<`
    refine hif (hnext (by decide)) (hif (fun hshl => ?_) (hif (hnext (by decide)) .one))
    obtain ⟨hlt, hlt'⟩ := Bool.and_eq_true_iff.mp hshl
    exact .three (by decide) (by decide) (of_decide_eq_true hlt) (of_decide_eq_true hlt')
  case h_21 => exact hif (hnext (by decide)) (hif (hnext (by decide)) .one)
  all_goals first | exact .one | exact hif (hnext (by decide)) .one

end OperatorSpan

/-- An operator lies within the text, and in one line. -/
theorem operatorAt_take {c : UInt8} (s : Text) (hc : c ≠ 10) :
    (operatorAt c s).2 ≤ s.length + 1 ∧ 10 ∉ (c :: s).take (operatorAt c s).2 := by
  obtain ⟨hlength, hbytes⟩ := operatorSpan_operatorAt c s
  refine ⟨hlength, fun hmem => ?_⟩
  obtain ⟨-, -, hpos⟩ := operatorAt_spec c s
  obtain ⟨k, hk⟩ := Nat.exists_eq_succ_of_ne_zero hpos.ne'
  rw [hk, Nat.succ_sub_one] at hbytes
  rw [hk, List.take_succ_cons] at hmem
  rcases List.mem_cons.mp hmem with heq | hrest
  · exact hc heq.symm
  · exact absurd (hbytes 10 hrest) (by decide)

theorem nextFrom_reads {c : UInt8} (s : Text) (line : ℕ) (hc : c ≠ 10) :
    ∃ t, ReadsToken ⟨c :: s, line⟩ (c :: t) (Lexer.nextFrom c s line) := by
  unfold Lexer.nextFrom
  dsimp only
  split_ifs with halpha hdigit hquote
  · -- identifiers and keywords
    obtain ⟨t, ht, -⟩ := advanceWhile_reads (fun c => isAlnum c || c = 95) s (lineAfter c line)
    exact ⟨t, readsToken_make (Reads.cons ht) (keywordType_ne _).2⟩
  · exact number_reads (Reads.byte c s line)
  · subst hquote
    exact stringLit_reads s line
  · -- operators and punctuation
    obtain ⟨-, hstr, hpos⟩ := operatorAt_spec c s
    obtain ⟨k, hk⟩ := Nat.exists_eq_succ_of_ne_zero (Nat.ne_of_gt hpos)
    have hline := (operatorAt_take s hc).2
    rw [hk] at hline ⊢
    exact ⟨s.take k, ⟨(List.take_append_drop (k + 1) (c :: s)).symm,
      (Nat.add_eq_left.mpr (newlines_eq_zero hline)).symm⟩, .lexeme hstr, rfl⟩

/-! ### Calls -/

/-- **One call.** -/
theorem Lexer.next_reads (lx : Lexer) :
    ∃ gap piece, Reads lx (gap ++ piece) lx.next.2 ∧ Gap (piece ++ lx.next.2.rest) gap ∧
      lx.next.1.Takes lx.next.2.rest piece ∧ lx.next.1.line = lx.next.2.line ∧
      (lx.next.1.type = .eof ∧ piece = [] ∧ lx.next.2.rest = [] ∨
        lx.next.1.type ≠ .eof ∧ piece ≠ []) := by
  obtain ⟨gap, hreads, hgap, hstop⟩ := skipWsAndComments_reads lx.rest lx.line
  have heof := fun c s => (nextFrom_spec c s (skipWsAndComments lx.rest lx.line).line).1
  unfold Lexer.next
  generalize skipWsAndComments lx.rest lx.line = start at *
  obtain ⟨rest, line⟩ := start
  cases rest with
  | nil =>
    refine ⟨gap, [], ?_, hgap, .lexeme nofun, rfl, .inl ⟨rfl, rfl, rfl⟩⟩
    rw [List.append_nil]
    exact hreads
  | cons c s =>
    obtain ⟨t, ht⟩ := nextFrom_reads s line (hstop c rfl)
    refine ⟨gap, c :: t, hreads.trans ht.reads, ?_, ht.takes, ht.line,
      .inr ⟨heof c s, List.cons_ne_nil c t⟩⟩
    rw [← ht.reads.rest]
    exact hgap

/-- The lexer after `k` calls. -/
def lexerAfter (source : Text) (k : ℕ) : Lexer := (fun lx => lx.next.2)^[k] (Lexer.init source)

/-- What the call after `k` others returns. -/
def callToken (source : Text) (k : ℕ) : Token := (lexerAfter source k).next.1

theorem lexerAfter_succ (source : Text) (k : ℕ) :
    lexerAfter source (k + 1) = (lexerAfter source k).next.2 :=
  Function.iterate_succ_apply' _ _ _

/-- What `k` calls have read. -/
theorem lexerAfter_reads (source : Text) (k : ℕ) :
    ∃ before, Reads (Lexer.init source) before (lexerAfter source k) := by
  induction k with
  | zero => exact ⟨[], Reads.refl _⟩
  | succ k ih =>
    obtain ⟨before, hbefore⟩ := ih
    obtain ⟨gap, piece, hreads, -⟩ := (lexerAfter source k).next_reads
    rw [lexerAfter_succ]
    exact ⟨_, hbefore.trans hreads⟩

/-- The EOF token is reached. -/
theorem exists_eof (source : Text) : ∃ n, (callToken source n).type = .eof := by
  by_contra hno
  push Not at hno
  have hshrink : ∀ k, (lexerAfter source k).rest.length + k ≤ (cStr source).length := by
    intro k
    induction k with
    | zero => exact Nat.le_refl _
    | succ k ih =>
      obtain ⟨gap, piece, hreads, -, -, -, hkind⟩ := (lexerAfter source k).next_reads
      rcases hkind with ⟨heof, -⟩ | ⟨-, hpiece⟩
      · exact absurd heof (hno k)
      · have hlength := congrArg List.length hreads.rest
        have hpos := List.length_pos_of_ne_nil hpiece
        rw [List.length_append, List.length_append] at hlength
        rw [lexerAfter_succ]
        omega
  have := hshrink ((cStr source).length + 1)
  omega

/-- **All calls.** They reach EOF; before it each takes at least one byte. What a call reads
begins where the call before it stopped, and is a gap and then the bytes of its token, whose
line is one more than the newlines up to its end. -/
theorem lexer_calls (source : Text) :
    ∃ n, (callToken source n).type = .eof ∧ (lexerAfter source n).next.2.rest = [] ∧
      (∀ k < n, (callToken source k).type ≠ .eof ∧
        (lexerAfter source (k + 1)).rest.length < (lexerAfter source k).rest.length) ∧
      ∀ k, ∃ before gap piece,
        cStr source = before ++ (lexerAfter source k).rest ∧
        (lexerAfter source k).rest = gap ++ piece ++ (lexerAfter source (k + 1)).rest ∧
        Gap (piece ++ (lexerAfter source (k + 1)).rest) gap ∧
        (callToken source k).Takes (lexerAfter source (k + 1)).rest piece ∧
        (callToken source k).line = 1 + newlines (before ++ gap ++ piece) := by
  classical
  obtain ⟨n, heof, hmin⟩ : ∃ n, (callToken source n).type = .eof ∧
      ∀ k < n, (callToken source k).type ≠ .eof :=
    ⟨Nat.find (exists_eof source), Nat.find_spec (exists_eof source),
      fun k hk => Nat.find_min (exists_eof source) hk⟩
  refine ⟨n, heof, ?_, fun k hk => ⟨hmin k hk, ?_⟩, fun k => ?_⟩
  · obtain ⟨gap, piece, -, -, -, -, hkind⟩ := (lexerAfter source n).next_reads
    rcases hkind with ⟨-, -, hrest⟩ | ⟨hne, -⟩
    · exact hrest
    · exact absurd heof hne
  · obtain ⟨gap, piece, hreads, -, -, -, hkind⟩ := (lexerAfter source k).next_reads
    rcases hkind with ⟨hbad, -⟩ | ⟨-, hpiece⟩
    · exact absurd hbad (hmin k hk)
    · have hlength := congrArg List.length hreads.rest
      have hpos := List.length_pos_of_ne_nil hpiece
      rw [List.length_append, List.length_append] at hlength
      rw [lexerAfter_succ]
      omega
  · obtain ⟨before, hbefore⟩ := lexerAfter_reads source k
    obtain ⟨gap, piece, hreads, hgap, htakes, hline, -⟩ := (lexerAfter source k).next_reads
    rw [lexerAfter_succ]
    refine ⟨before, gap, piece, hbefore.rest, hreads.rest, hgap, htakes, ?_⟩
    have hend := (hbefore.trans hreads).line
    rw [← List.append_assoc] at hend
    exact hline.trans hend

end Jaguar
