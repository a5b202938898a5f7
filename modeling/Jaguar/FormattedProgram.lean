/-
What the formatter leaves of a program.

Where no string literal is laid out anew, the formatter keeps every token, and the line it stands
in. The parser copies line numbers and does not look at them, so the program is the same.

* `bodyNewlines_laid` — up to the last byte that is no whitespace, both texts have the same lines;
* `lexAll_laid` — **the tokens are the same, with their lines**;
* `format_keeps_program` — **the program is the same**, and what is said about it. Only the end of
  the file may stand in another line.
-/
import Jaguar.LineMaps
import Jaguar.Relexing

namespace Jaguar

/-! ### Lines -/

/-- The newlines in front of the last byte that is no whitespace. -/
def bodyNewlines : Text → ℕ
  | [] => 0
  | c :: s => if isWs c && s.all isWs then 0 else newlines [c] + bodyNewlines s

theorem bodyNewlines_of_ws {s : Text} (h : ∀ c ∈ s, isWs c) : bodyNewlines s = 0 := by
  cases s with
  | nil => rfl
  | cons c s =>
    have hall : (c :: s).all isWs = true := List.all_eq_true.mpr h
    exact if_pos hall

theorem bodyNewlines_cons {c : UInt8} {s : Text} (h : ¬ ∀ d ∈ c :: s, isWs d) :
    bodyNewlines (c :: s) = newlines [c] + bodyNewlines s := by
  have hall : ¬ (c :: s).all isWs = true := fun hall => h (List.all_eq_true.mp hall)
  exact if_neg hall

/-- In front of a byte that is no whitespace all newlines count. -/
theorem bodyNewlines_append {s t : Text} (h : ¬ ∀ c ∈ t, isWs c) :
    bodyNewlines (s ++ t) = newlines s + bodyNewlines t := by
  induction s with
  | nil => exact (Nat.zero_add _).symm
  | cons c s ih =>
    have hne : ¬ ∀ d ∈ c :: (s ++ t), isWs d := fun hall =>
      h fun d hd => hall d (List.mem_cons_of_mem c (List.mem_append_right s hd))
    rw [List.cons_append, bodyNewlines_cons hne, ih, ← Nat.add_assoc, ← newlines_append]
    rfl

theorem newlines_blank {b : Text} (h : ∀ c ∈ b, isTrailing c) : newlines b = 0 :=
  newlines_eq_zero fun hmem => ne_newline_of_isTrailing (h 10 hmem) rfl

theorem isTrailing_of_isBlank {c : UInt8} (h : isBlank c) : isTrailing c := by
  simp only [isBlank, Bool.or_eq_true, decide_eq_true_eq] at h
  rcases h with rfl | rfl <;> rfl

/-- A piece between the bytes of the lines, which has the same newlines when it is laid out. -/
theorem bodyNewlines_gap {p : Piece} {ps : List Piece} (hp : Gaplike p)
    (hlines : newlines p.text = newlines p.laid)
    (hws : (∀ c ∈ texts ps, isWs c) ↔ ∀ c ∈ laids ps, isWs c)
    (h : bodyNewlines (texts ps) = bodyNewlines (laids ps)) :
    ((∀ c ∈ texts (p :: ps), isWs c) ↔ ∀ c ∈ laids (p :: ps), isWs c) ∧
      bodyNewlines (texts (p :: ps)) = bodyNewlines (laids (p :: ps)) := by
  rw [texts_cons, laids_cons, List.forall_mem_append, List.forall_mem_append]
  refine ⟨⟨fun hall => ⟨hp.laid, hws.mp hall.2⟩, fun hall => ⟨hp.text, hws.mpr hall.2⟩⟩, ?_⟩
  by_cases hall : ∀ c ∈ texts ps, isWs c
  · rw [bodyNewlines_of_ws (List.forall_mem_append.mpr ⟨hp.text, hall⟩),
      bodyNewlines_of_ws (List.forall_mem_append.mpr ⟨hp.laid, hws.mp hall⟩)]
  · rw [bodyNewlines_append hall, bodyNewlines_append (mt hws.mpr hall), hlines, h]

/-- **Both texts have the same lines**, as far as there is anything in them. -/
theorem bodyNewlines_laid {start : Bool} {ps : List Piece} (h : Laid start ps) :
    ((∀ c ∈ texts ps, isWs c) ↔ ∀ c ∈ laids ps, isWs c) ∧
      bodyNewlines (texts ps) = bodyNewlines (laids ps) := by
  have hnil : ((∀ c ∈ texts [], isWs c) ↔ ∀ c ∈ laids [], isWs c) ∧
      bodyNewlines (texts []) = bodyNewlines (laids []) := ⟨Iff.rfl, rfl⟩
  induction h with
  | drop hl =>
    have hblank := newlines_blank fun c hc => isTrailing_of_isBlank (hl c hc)
    exact bodyNewlines_gap (gaplike_lead hl (List.forall_mem_nil _)) hblank hnil.1 hnil.2
  | lead hl hindent hc hps ih =>
    have hleft := newlines_blank fun c hc => isTrailing_of_isBlank (hl c hc)
    have hright := newlines_blank fun c hc => isTrailing_of_isBlank (hindent c hc)
    exact bodyNewlines_gap (gaplike_lead hl hindent) (hleft.trans hright.symm) ih.1 ih.2
  | newline hb hps ih =>
    refine bodyNewlines_gap (gaplike_newline hb) ?_ ih.1 ih.2
    rw [newlines_append, newlines_blank hb, Nat.zero_add]
  | @last _ b hb =>
    have hend := gaplike_last hb
    have htext : ∀ c ∈ texts [⟨b, [10]⟩, ⟨[], []⟩], isWs c := by
      intro c hc
      rw [texts_cons, texts_cons, texts_nil, List.append_nil, List.append_nil] at hc
      exact hend.text c hc
    have hlaid : ∀ c ∈ laids [⟨b, [10]⟩, ⟨[], []⟩], isWs c := by
      intro c hc
      rw [laids_cons, laids_cons, laids_nil, List.append_nil, List.append_nil] at hc
      exact hend.laid c hc
    exact ⟨iff_of_true htext hlaid, by rw [bodyNewlines_of_ws htext, bodyNewlines_of_ws hlaid]⟩
  | @byte c ps hps ih =>
    by_cases hc : isWs c
    · have hgap : Gaplike (.byte c) :=
        ⟨List.forall_mem_singleton.mpr hc, List.forall_mem_singleton.mpr hc⟩
      exact bodyNewlines_gap hgap rfl ih.1 ih.2
    · have hno : ∀ s : Text, ¬ ∀ d ∈ c :: s, isWs d := fun s h => hc (h c List.mem_cons_self)
      refine ⟨iff_of_false (hno _) (hno _), ?_⟩
      show bodyNewlines (c :: texts ps) = bodyNewlines (c :: laids ps)
      rw [bodyNewlines_cons (hno _), bodyNewlines_cons (hno _), ih.2]

/-! ### Tokens -/

theorem toks_nil {s : Text} {line : ℕ} (h : (skipWsAndComments s line).rest = []) :
    (lexAll ⟨s, line⟩).1 = [] := by
  have hnext : (Lexer.next ⟨s, line⟩).1.type = .eof := by
    rw [Lexer.next]
    dsimp only
    rw [h]
  rw [lexAll_eq, if_pos hnext]

theorem toks_cons {s t : Text} {line : ℕ} {c : UInt8}
    (h : (skipWsAndComments s line).rest = c :: t) :
    (lexAll ⟨s, line⟩).1 = (Lexer.nextFrom c t (skipWsAndComments s line).line).1 ::
      (lexAll (Lexer.nextFrom c t (skipWsAndComments s line).line).2).1 := by
  have hnext : Lexer.next ⟨s, line⟩ = Lexer.nextFrom c t (skipWsAndComments s line).line := by
    rw [Lexer.next]
    dsimp only
    rw [h]
  have heof := (Lexer.nextFrom_spec c t (skipWsAndComments s line).line).1
  rw [lexAll_eq, hnext, if_neg heof]

/-- The line behind a gap. -/
theorem skip_line {s t : Text} {line : ℕ} {c : UInt8} (hc : ¬ isWs c)
    (h : (skipWsAndComments s line).rest = c :: t) :
    (skipWsAndComments s line).line + bodyNewlines (c :: t) = line + bodyNewlines s := by
  obtain ⟨gap, hreads, -⟩ := skipWsAndComments_reads s line
  have hsplit : s = gap ++ c :: t := by
    rw [← h]
    exact hreads.rest
  have hno : ¬ ∀ d ∈ c :: t, isWs d := fun hall => hc (hall c List.mem_cons_self)
  have hline : (skipWsAndComments s line).line = line + newlines gap := hreads.line
  rw [hline, Nat.add_assoc, ← bodyNewlines_append hno, ← hsplit]

/-- The line behind the bytes of a token. -/
theorem nextFrom_line {c : UInt8} (hc : c ≠ 10) {s t r : Text} (hs : s = t ++ r) (line : ℕ)
    (h : (Lexer.nextFrom c s line).2.rest = r) :
    (Lexer.nextFrom c s line).1.line = line + newlines (c :: t) ∧
      (Lexer.nextFrom c s line).2 = ⟨r, line + newlines (c :: t)⟩ := by
  obtain ⟨u, hu⟩ := nextFrom_reads s line hc
  have hsplit : c :: s = c :: u ++ (Lexer.nextFrom c s line).2.rest := hu.reads.rest
  rw [h, hs, List.cons_append, List.cons_inj_right] at hsplit
  obtain rfl := List.append_cancel_right hsplit
  have hline := hu.reads.line
  refine ⟨hu.line.trans hline, ?_⟩
  rw [← hline, ← h]

theorem ne_newline_of_not_isWs {c : UInt8} (h : ¬ isWs c) : c ≠ 10 := by
  rintro rfl
  exact h rfl

theorem token_ext {t t' : Token} (hword : t.word = t'.word) (hline : t.line = t'.line) : t = t' := by
  obtain ⟨type, lexeme, line⟩ := t
  obtain ⟨type', lexeme', line'⟩ := t'
  obtain ⟨rfl, rfl⟩ := Prod.mk.inj hword
  obtain rfl := hline
  rfl

/-- **The tokens from some place on, with their lines.** -/
theorem lexAll_laid {start : Bool} {ps : List Piece} (h : Laid start ps) (hkept : Kept .code ps)
    (line : ℕ) : (lexAll ⟨laids ps, line⟩).1 = (lexAll ⟨texts ps, line⟩).1 := by
  induction hn : ps.length using Nat.strongRecOn generalizing start ps line with
  | ind n ih =>
    subst hn
    obtain ⟨qs, hqs⟩ := skip_laid h
    have hlength := hqs.length
    rw [hqs.kept] at hkept
    rcases hqs.stop with rfl | ⟨c, rs, rfl, hrs, hws, hcomment⟩
    · rw [toks_nil (hqs.text line), toks_nil (hqs.laid line)]
    have htext : (skipWsAndComments (texts ps) line).rest = c :: texts rs := hqs.text line
    have hlaid : (skipWsAndComments (laids ps) line).rest = c :: laids rs := hqs.laid line
    -- the next token starts in the same line
    have hgap := skip_line hws htext
    have hgap' := skip_line hws hlaid
    have hbody := (bodyNewlines_laid (.byte hrs : Laid false (.byte c :: rs))).2
    have hline : (skipWsAndComments (laids ps) line).line
        = (skipWsAndComments (texts ps) line).line := by
      have hsame : bodyNewlines (c :: texts rs) = bodyNewlines (c :: laids rs) := hbody
      rw [hsame, (bodyNewlines_laid h).2] at hgap
      omega
    rw [toks_cons htext, toks_cons hlaid, hline]
    generalize (skipWsAndComments (texts ps) line).line = l
    by_cases hquote : c = 34
    · subst hquote
      obtain ⟨u, u', vs, hends⟩ := stringBody_laid hrs
      obtain ⟨rfl, hkept'⟩ := hends.kept.mp (kept_byte.mp hkept)
      obtain ⟨hword, hrest⟩ := @nextFrom_quote _ _ _ l hends.text (hends.bodyText _)
      obtain ⟨hword', hrest'⟩ := @nextFrom_quote _ _ _ l hends.laid (hends.bodyLaid _)
      rcases hends.stop with rfl | ⟨us, rfl, hus⟩
      · -- a literal that is not closed goes to the end of both texts
        rw [hends.text, hends.laid]
        rfl
      · have htoken := @nextFrom_line 34 (by decide) _ (u ++ [34]) (texts us)
          (by rw [hends.text, List.append_assoc]; rfl) l hrest
        have htoken' := @nextFrom_line 34 (by decide) _ (u ++ [34]) (laids us)
          (by rw [hends.laid, List.append_assoc]; rfl) l hrest'
        have hsame := token_ext (hword'.trans hword.symm) (htoken'.1.trans htoken.1.symm)
        rw [hsame, htoken.2, htoken'.2]
        refine congrArg _ (ih us.length ?_ hus (kept_byte.mp hkept') _ rfl)
        have := hends.length
        simp only [List.length_cons] at this hlength
        omega
    · obtain ⟨w, vs, rfl, hvs, hend⟩ := exists_lineEnd hrs
      rw [texts_bytes] at hcomment ⊢
      rw [laids_bytes]
      obtain ⟨w₁, w₂, hsame⟩ := nextFrom_soft hend.text hend.laid hws hquote w l l
      obtain ⟨rfl, hplain, hword, hleft, hright⟩ := hsame
      have hne := ne_newline_of_not_isWs hws
      have htoken := nextFrom_line hne (List.append_assoc w₁ w₂ (texts vs)) l hleft
      have htoken' := nextFrom_line hne (List.append_assoc w₁ w₂ (laids vs)) l hright
      rw [token_ext hword.symm (htoken'.1.trans htoken.1.symm), htoken.2, htoken'.2]
      have hrest := ih (w₂.map Piece.byte ++ vs).length (by
        simp only [List.length_cons, List.length_append, List.length_map] at hlength ⊢
        omega) (laid_bytes hvs) ((kept_token hquote hplain hvs hcomment).mp hkept)
        (l + newlines (c :: w₁)) rfl
      rw [texts_bytes, laids_bytes] at hrest
      exact congrArg _ hrest

/-! ### Programs -/

/-- **The tokens of a formatted source**, and their lines. -/
theorem tokenize_formatted {source : Text} {config : FormatterConfig}
    (h : Kept .code (layout source config)) :
    (tokenize (formatJaguarSource source config)).1 = (tokenize source).1 := by
  have hlaid := lexAll_laid (laid_layoutFrom config (cStr source) 0) h 1
  have htexts := texts_layout source config
  have hlaids := laids_layout source config
  have hsource := cStr_eq_self (zero_notMem_formatJaguarSource source config)
  rw [layout] at htexts hlaids
  rw [htexts, hlaids] at hlaid
  rw [tokenize, tokenize, Lexer.init, Lexer.init, hsource]
  exact hlaid

/-- The line of the end of the file. -/
def endLine (source : Text) : ℕ := (tokenize source).2

/-- **A formatted program is the same program.** Where no string literal is laid out anew, the
statements and the messages about them, and about the holes in their strings, are the same, with
all their line numbers, under every map of line numbers that does not tell the two ends of file
apart. -/
theorem format_keeps_program {source : Text} {config : FormatterConfig}
    (h : Kept .code (layout source config)) (n : ℕ) {f : ℕ → ℕ}
    (hend : f (endLine (formatJaguarSource source config)) = f (endLine source)) :
    parsedUnder f n (formatJaguarSource source config) = parsedUnder f n source := by
  refine parsedUnder_eq ?_ hend n
  rw [tokenize_formatted h]
  exact List.forall₂_same.mpr fun t _ => ⟨rfl, rfl, rfl⟩

theorem format_keeps_program_loop :
    formatJaguarSource (txt "loop (x) \x7b\nprint(\"a b\");   \n  \x7d\n") ⟨4, false⟩
        = txt "loop (x) \x7b\n    print(\"a b\");\n\x7d\n" ∧
      parsedUnder id 30 (formatJaguarSource (txt "loop (x) \x7b\nprint(\"a b\");   \n  \x7d\n") ⟨4, false⟩)
        = parsedUnder id 30 (txt "loop (x) \x7b\nprint(\"a b\");   \n  \x7d\n") := by
  have hwords : words (texts (layout (txt "loop (x) \x7b\nprint(\"a b\");   \n  \x7d\n") ⟨4, false⟩)) 1
      = words (laids (layout (txt "loop (x) \x7b\nprint(\"a b\");   \n  \x7d\n") ⟨4, false⟩)) 1 := by
    rw [texts_layout, laids_layout]
    decide +kernel
  refine ⟨by decide +kernel, format_keeps_program ?_ 30 (by decide +kernel)⟩
  exact (words_eq_iff (laid_layoutFrom _ _ 0) 1 1).mp hwords

end Jaguar
