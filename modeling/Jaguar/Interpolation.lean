/-
From a template to its literal and back.

A `Template` alternates literal text and holes. Written between quotes, its literal text
with escapes and its holes in double braces, it is one string token for the lexer, and the
parser splits that token into the template's parts again.

* `stringLit_body` — the lexer finds the closing quote;
* `splitTemplate_body` — the splitter finds the holes;
* `parseStringLiteralToken_template` — **the round trip**.
-/
import Jaguar.Templates

namespace Jaguar

/-! ### Escaped segments -/

/-- Literal text as it is written in a source: `"`, `\`, newline and tab behind a
backslash. -/
def escapeSegment : Text → Text
  | [] => []
  | c :: s =>
    if c = 34 ∨ c = 92 then 92 :: c :: escapeSegment s
    else if c = 10 then 92 :: 110 :: escapeSegment s
    else if c = 9 then 92 :: 116 :: escapeSegment s
    else c :: escapeSegment s

theorem escapeSegment_eq_nil {s : Text} : escapeSegment s = [] ↔ s = [] := by
  cases s with
  | nil => simp [escapeSegment]
  | cons c s =>
    unfold escapeSegment
    split_ifs <;> simp

theorem unescapeSegment_cons {c : UInt8} (hc : c ≠ 92) (s : Text) :
    unescapeSegment (c :: s) = c :: unescapeSegment s := by
  cases s with
  | nil => rfl
  | cons d s => rw [unescapeSegment, if_neg hc]

theorem unescapeSegment_escapeSegment (s : Text) : unescapeSegment (escapeSegment s) = s := by
  induction s with
  | nil => rfl
  | cons c s ih =>
    unfold escapeSegment
    split_ifs with hquote hnewline htab
    · have hn : c ≠ 110 ∧ c ≠ 116 := by rcases hquote with rfl | rfl <;> decide
      rw [unescapeSegment, if_pos rfl, if_neg hn.1, if_neg hn.2, ih]
    · rw [unescapeSegment, if_pos rfl, if_pos rfl, ih, hnewline]
    · rw [unescapeSegment, if_pos rfl, if_neg (by decide), if_pos rfl, ih, htab]
    · rw [unescapeSegment_cons (fun h => hquote (.inr h)), ih]

/-- An escape ends in none of the bytes an opener starts with. -/
theorem getLast?_escapeSegment {s : Text} {c : UInt8} (hc : c = 123 ∨ c = 36) :
    (escapeSegment s).getLast? = some c ↔ s.getLast? = some c := by
  have hne : c ≠ 34 ∧ c ≠ 92 ∧ c ≠ 110 ∧ c ≠ 116 ∧ c ≠ 10 ∧ c ≠ 9 := by
    rcases hc with rfl | rfl <;> decide
  induction s with
  | nil => simp [escapeSegment]
  | cons d s ih =>
    have hlast : ∀ a : UInt8, (a = c ↔ d = c) →
        ((a :: escapeSegment s).getLast? = some c ↔ (d :: s).getLast? = some c) := by
      intro a ha
      cases s with
      | nil => simpa [escapeSegment] using ha
      | cons e s =>
        obtain ⟨f, t, ht⟩ := List.exists_cons_of_ne_nil
          (fun h => absurd (escapeSegment_eq_nil.mp h) (List.cons_ne_nil e s))
        rw [ht] at ih ⊢
        rw [List.getLast?_cons_cons, List.getLast?_cons_cons]
        exact ih
    unfold escapeSegment
    split_ifs with hquote hnewline htab
    · rw [List.getLast?_cons_cons]
      exact hlast d Iff.rfl
    · rw [List.getLast?_cons_cons]
      exact hlast 110 (by simp [hnewline, hne.2.2.1.symm, hne.2.2.2.2.1.symm])
    · rw [List.getLast?_cons_cons]
      exact hlast 116 (by simp [htab, hne.2.2.2.1.symm, hne.2.2.2.2.2.symm])
    · exact hlast d Iff.rfl

theorem head?_escapeSegment {s : Text} {c : UInt8} (h : (escapeSegment s).head? = some c)
    (hc : c ≠ 92) : s.head? = some c := by
  cases s with
  | nil => simp [escapeSegment] at h
  | cons d s =>
    unfold escapeSegment at h
    split_ifs at h
    · exact absurd (Option.some.inj h).symm hc
    · exact absurd (Option.some.inj h).symm hc
    · exact absurd (Option.some.inj h).symm hc
    · exact h

/-- Escaping opens no hole. -/
theorem openerFree_escapeSegment {s : Text} (h : OpenerFree s) : OpenerFree (escapeSegment s) := by
  have hpair : ∀ c : UInt8, c = 123 ∨ c = 36 → ¬ [c, 123] <:+: s →
      ¬ [c, 123] <:+: escapeSegment s := by
    intro c hc
    have hne : c ≠ 34 ∧ c ≠ 92 ∧ c ≠ 110 ∧ c ≠ 116 := by
      rcases hc with rfl | rfl <;> decide
    clear h
    induction s with
    | nil => exact fun h => h
    | cons d s ih =>
      intro hs
      have hih := ih fun h => hs (h.trans (List.suffix_cons d s).isInfix)
      have hcons : ∀ a, (a = c → d = c) → ¬ [c, 123] <:+: a :: escapeSegment s := by
        intro a ha hinf
        rcases List.infix_cons_iff.mp hinf with hpre | hinf
        · obtain ⟨rfl, t, ht⟩ := List.cons_prefix_cons.mp hpre
          have hhead : s.head? = some 123 :=
            head?_escapeSegment (by rw [← ht]; rfl) (by decide)
          obtain ⟨s', rfl⟩ : ∃ s', s = 123 :: s' := by
            cases s with
            | nil => simp at hhead
            | cons e s' => exact ⟨s', by rw [Option.some.inj hhead]⟩
          exact hs ⟨[], s', by rw [ha rfl]; rfl⟩
        · exact hih hinf
      have hback : ∀ a, a ≠ c → ¬ [c, 123] <:+: 92 :: a :: escapeSegment s := by
        intro a ha hinf
        rcases List.infix_cons_iff.mp hinf with hpre | hinf
        · exact hne.2.1 (List.cons_prefix_cons.mp hpre).1
        · exact hcons a (fun h => absurd h ha) hinf
      unfold escapeSegment
      split_ifs with hquote hnewline htab
      · refine hback d ?_
        rcases hquote with rfl | rfl
        · exact hne.1.symm
        · exact hne.2.1.symm
      · exact hback 110 hne.2.2.1.symm
      · exact hback 116 hne.2.2.2.symm
      · exact hcons d id
  exact ⟨hpair 123 (.inl rfl) h.braces, hpair 36 (.inr rfl) h.dollar⟩

/-! ### Templates -/

/-- The text of an expression as it may stand in a hole of a string literal. -/
structure HoleText where
  text : Text
  nonempty : text ≠ []
  balanced : Balanced text
  plain : ∀ c ∈ text, c ≠ 0 ∧ c ≠ 34 ∧ c ≠ 92

/-- Literal text: it is a C string and opens no hole. -/
structure LiteralText where
  text : Text
  noNul : 0 ∉ text
  openerFree : OpenerFree text

/-- An opener behind the text starts where the text ends. -/
def LiteralText.Before (l : LiteralText) : Prop :=
  l.text.getLast? ≠ some 123 ∧ l.text.getLast? ≠ some 36

/-- Literal text in front of a hole. -/
structure Lead where
  literal : LiteralText
  hole : HoleText
  before : literal.Before

/-- Literal texts and holes in turn: `l0, e1, l1, …, en, ln`. -/
structure Template where
  leads : List Lead
  last : LiteralText

/-- The literal text in front of a hole, and the hole, as written in a source. -/
def Lead.body (p : Lead) : Text :=
  escapeSegment p.literal.text ++ 123 :: 123 :: (p.hole.text ++ [125, 125])

/-- What stands between the quotes. -/
def Template.body (t : Template) : Text :=
  t.leads.flatMap Lead.body ++ escapeSegment t.last.text

/-! ### The lexer -/

/-- Text in which every quote stands behind a backslash, and no backslash is the last. -/
inductive Quotable : Text → Prop
  | nil : Quotable []
  | cons {c : UInt8} {s : Text} (hquote : c ≠ 34) (hback : c ≠ 92) (h : Quotable s) :
      Quotable (c :: s)
  | escaped (c : UInt8) {s : Text} (h : Quotable s) : Quotable (92 :: c :: s)

theorem Quotable.append {s t : Text} (hs : Quotable s) (ht : Quotable t) : Quotable (s ++ t) := by
  induction hs with
  | nil => exact ht
  | cons hquote hback _ ih => exact .cons hquote hback ih
  | escaped c _ ih => exact .escaped c ih

theorem quotable_of_plain {s : Text} (h : ∀ c ∈ s, c ≠ 34 ∧ c ≠ 92) : Quotable s := by
  induction s with
  | nil => exact .nil
  | cons c s ih =>
    have hc := h c List.mem_cons_self
    exact .cons hc.1 hc.2 (ih fun d hd => h d (List.mem_cons_of_mem c hd))

theorem quotable_escapeSegment (s : Text) : Quotable (escapeSegment s) := by
  induction s with
  | nil => exact .nil
  | cons c s ih =>
    unfold escapeSegment
    split_ifs with hquote
    · exact .escaped c ih
    · exact .escaped 110 ih
    · exact .escaped 116 ih
    · exact .cons (fun h => hquote (.inl h)) (fun h => hquote (.inr h)) ih

theorem Template.quotable (t : Template) : Quotable t.body := by
  have hleads : ∀ leads : List Lead, Quotable (leads.flatMap Lead.body) := by
    intro leads
    induction leads with
    | nil => exact .nil
    | cons p leads ih =>
      have hhole : Quotable (123 :: 123 :: (p.hole.text ++ [125, 125])) := by
        refine .cons (by decide) (by decide) (.cons (by decide) (by decide) ?_)
        exact (quotable_of_plain fun c hc => (p.hole.plain c hc).2).append
          (quotable_of_plain (by simp))
      exact ((quotable_escapeSegment _).append hhole).append ih
  exact (hleads t.leads).append (quotable_escapeSegment _)

/-- The scan for the closing quote passes over quotable text. -/
theorem stringBody_quotable {s : Text} (h : Quotable s) (rest : Text) (line : ℕ) :
    ∃ line', stringBody (s ++ 34 :: rest) line = ⟨34 :: rest, line'⟩ := by
  induction h generalizing line with
  | nil =>
    refine ⟨line, ?_⟩
    cases rest with
    | nil => rfl
    | cons d rest => rw [List.nil_append, stringBody, if_pos rfl]
  | @cons c s hquote hback _ ih =>
    obtain ⟨line', h'⟩ := ih (lineAfter c line)
    refine ⟨line', ?_⟩
    obtain ⟨d, t, ht⟩ := List.exists_cons_of_ne_nil (l := s ++ 34 :: rest) (by simp)
    rw [List.cons_append, ht, stringBody, if_neg hquote, if_neg hback, ← ht, h']
  | @escaped c s _ ih =>
    obtain ⟨line', h'⟩ := ih (lineAfter c (lineAfter 92 line))
    refine ⟨line', ?_⟩
    rw [List.cons_append, List.cons_append, stringBody, if_neg (by decide), if_pos rfl, h']

/-- A quotable text between quotes is one token, which covers the text. -/
theorem next_stringLit {s : Text} (h : Quotable s) (rest : Text) (line : ℕ) :
    ∃ line', Lexer.next ⟨34 :: (s ++ 34 :: rest), line⟩
      = (⟨.stringLit, s, line'⟩, ⟨rest, line'⟩) := by
  obtain ⟨line', h'⟩ := stringBody_quotable h rest line
  refine ⟨line', ?_⟩
  have hskip : skipWsAndComments (34 :: (s ++ 34 :: rest)) line
      = ⟨34 :: (s ++ 34 :: rest), line⟩ := by
    rw [skipWsAndComments, if_neg (by decide), if_neg (by simp), if_neg (by simp)]
  have hlen : (s ++ 34 :: rest).take ((s ++ 34 :: rest).length - (34 :: rest).length) = s := by
    rw [List.length_append, Nat.add_sub_cancel, List.take_left]
  have hline : lineAfter 34 line = line := rfl
  simp only [Lexer.next, hskip, Lexer.nextFrom, Lexer.advance, hline]
  rw [if_neg (by decide), if_neg (by decide), if_pos trivial]
  simp only [stringLit, h', Lexer.make, hlen, Lexer.advance]
  rfl

/-! ### The splitter -/

/-- What the splitter makes of the literal text and the hole of a lead. -/
def Lead.raw (p : Lead) : List RawPart :=
  literalPart (escapeSegment p.literal.text) ++ [.expr p.hole.text]

def Template.raw (t : Template) : List RawPart :=
  t.leads.flatMap Lead.raw ++ literalPart (escapeSegment t.last.text)

theorem splitTemplate_lead (p : Lead) (s : Text) :
    splitTemplate [] (p.body ++ s) = p.raw ++ splitTemplate [] s := by
  have hmeet : (escapeSegment p.literal.text).getLast? = some 123 ∨
      (escapeSegment p.literal.text).getLast? = some 36 →
      (123 :: 123 :: (p.hole.text ++ 125 :: 125 :: s)).head? ≠ some 123 := by
    intro h
    rcases h with h | h
    · exact absurd ((getLast?_escapeSegment (.inl rfl)).mp h) p.before.1
    · exact absurd ((getLast?_escapeSegment (.inr rfl)).mp h) p.before.2
  have hbody : p.body ++ s
      = escapeSegment p.literal.text ++ 123 :: 123 :: (p.hole.text ++ 125 :: 125 :: s) := by
    simp [Lead.body]
  rw [hbody, splitTemplate_append (openerFree_escapeSegment p.literal.openerFree) hmeet,
    splitTemplate]
  simp only [List.head?_cons, and_self, true_or, if_true, decide_true,
    takeExpr_braces p.hole.balanced, List.nil_append]
  simp [Lead.raw]

/-- The splitter finds the parts of a template. -/
theorem splitTemplate_body (t : Template) : splitTemplate [] t.body = t.raw := by
  obtain ⟨leads, last⟩ := t
  unfold Template.body Template.raw
  dsimp only
  induction leads with
  | nil => exact splitTemplate_openerFree (openerFree_escapeSegment last.openerFree) []
  | cons p leads ih =>
    rw [List.flatMap_cons, List.append_assoc, splitTemplate_lead, ih, List.flatMap_cons,
      List.append_assoc]

/-! ### The round trip -/

/-- A literal part, unless the text is empty. -/
def strLiteral (s : Text) : List StrPart := if s = [] then [] else [.literal s]

/-- The parts of a template whose holes have been parsed to `xs`. -/
def Template.parts (t : Template) (xs : List Expr) : List StrPart :=
  (t.leads.zip xs).flatMap (fun p => strLiteral p.1.literal.text ++ [.expr p.2])
    ++ strLiteral t.last.text

/-- One empty part stands for none. -/
def Template.strParts (t : Template) (xs : List Expr) : List StrPart :=
  if (t.parts xs).isEmpty then [.literal []] else t.parts xs

/-- `x` is what the parser makes of the expression text `e` in a literal on line `line`. -/
def ParsedFrom (r : Rec) (line : ℕ) (e : Text) (x : Expr) : Prop :=
  ∃ x₀ sub, r.assignment (initParser e) = some (x₀, sub) ∧ x = x₀.withLine line

variable {r : Rec} {n : ℕ}

theorem parseParts_literal (r : Rec) (line : ℕ) (s : Text) (raw : List RawPart) (st : PState) :
    parseParts r line (literalPart (escapeSegment s) ++ raw) st
      = (parseParts r line raw st).map fun p => (strLiteral s ++ p.1, p.2) := by
  unfold literalPart strLiteral
  by_cases h : s = []
  · subst h
    simp [escapeSegment]
  · rw [if_neg (mt escapeSegment_eq_nil.mp h), if_neg h, List.singleton_append, parseParts,
      stateT_bind_eq, unescapeSegment_escapeSegment]
    cases parseParts r line raw st <;> rfl

/-- An expression part: a nested parse, and the other parts. -/
theorem parseParts_expr {e : Text} {line : ℕ} {raw : List RawPart} {st : PState} {x₀ : Expr}
    {sub : PState} (h : r.assignment (initParser e) = some (x₀, sub)) :
    ∃ st', parseParts r line (.expr e :: raw) st
      = (parseParts r line raw st').map fun p => (.expr (x₀.withLine line) :: p.1, p.2) := by
  refine ⟨{ st with nested := st.nested ++ sub.nested
    ++ [⟨st.source, e, sub.errors, sub.toks.length⟩] }, ?_⟩
  rw [parseParts, stateT_bind_eq, parseExprSubstring]
  simp only [h]
  rw [stateT_bind_eq]
  cases parseParts r line raw _ <;> rfl

theorem parseParts_leads (hr : r.Upto n) (line : ℕ) (last : LiteralText) :
    ∀ (leads : List Lead), (∀ p ∈ leads, p.hole.text.length < n) → ∀ st : PState, ∃ xs st',
      List.Forall₂ (ParsedFrom r line) (leads.map (·.hole.text)) xs ∧
      parseParts r line (Template.raw ⟨leads, last⟩) st
        = some (Template.parts ⟨leads, last⟩ xs, st') := by
  intro leads
  induction leads with
  | nil =>
    intro _ st
    refine ⟨[], st, .nil, ?_⟩
    have h := parseParts_literal r line last.text [] st
    rw [List.append_nil] at h
    simp only [Template.raw, List.flatMap_nil, List.nil_append, h]
    simp [Template.parts, parseParts, stateT_pure_eq]
  | cons p leads ih =>
    intro hlen st
    have hweight : (initParser p.hole.text).weight < n :=
      (initParser_weight _).trans_lt (hlen p List.mem_cons_self)
    obtain ⟨x₀, sub, hx₀, -⟩ := (hr.assignment (initParser p.hole.text)).exists_eq hweight
    have hraw : Template.raw ⟨p :: leads, last⟩ = literalPart (escapeSegment p.literal.text)
        ++ .expr p.hole.text :: Template.raw ⟨leads, last⟩ := by
      simp [Template.raw, Lead.raw]
    obtain ⟨st₁, hexpr⟩ := @parseParts_expr _ _ line (Template.raw ⟨leads, last⟩) st _ _ hx₀
    obtain ⟨xs, st', hxs, hrest⟩ := ih (fun q hq => hlen q (List.mem_cons_of_mem p hq)) st₁
    refine ⟨x₀.withLine line :: xs, st', .cons ⟨x₀, sub, hx₀, rfl⟩ hxs, ?_⟩
    rw [hraw, parseParts_literal, hexpr, hrest]
    simp [Template.parts]

theorem hole_length_le {t : Template} {p : Lead} (hp : p ∈ t.leads) :
    p.hole.text.length ≤ t.body.length := by
  have hsub : p.body.length ≤ (t.leads.flatMap Lead.body).length :=
    (List.sublist_flatten_of_mem (List.mem_map_of_mem hp)).length_le
  simp only [Template.body, Lead.body, List.length_append, List.length_cons] at hsub ⊢
  omega

/-- **A template survives being written as a string literal.** Between quotes, the body of
a template is one string token, which covers just the body, and at every depth from some
depth on `parse_string_literal_token` splits this token into the template's literal texts,
without the empty ones and with one empty part if nothing is left, and the expressions
parsed from its holes, in order. -/
theorem parseStringLiteralToken_template (t : Template) (rest : Text) (line : ℕ) :
    ∃ line', Lexer.next ⟨34 :: (t.body ++ 34 :: rest), line⟩
        = (⟨.stringLit, t.body, line'⟩, ⟨rest, line'⟩) ∧
      ∃ N, ∀ n ≥ N, ∀ s : PState, ∃ xs s',
        List.Forall₂ (ParsedFrom (recAt n) line') (t.leads.map (·.hole.text)) xs ∧
        parseStringLiteralToken (recAt n) ⟨.stringLit, t.body, line'⟩ s
          = some (.str line' (t.strParts xs), s') := by
  obtain ⟨line', hnext⟩ := next_stringLit t.quotable rest line
  refine ⟨line', hnext, t.body.length + 1, fun n hn s => ?_⟩
  obtain ⟨xs, s', hxs, hparts⟩ := parseParts_leads (recAt_upto n) line' t.last t.leads
    (fun p hp => lt_of_le_of_lt (hole_length_le hp) hn) s
  refine ⟨xs, s', hxs, ?_⟩
  rw [parseStringLiteralToken, stateT_bind_eq, splitTemplate_body, hparts]
  rfl

end Jaguar
