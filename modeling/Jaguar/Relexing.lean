/-
The lexer on a source and on what the formatter makes of it.

Both texts are given by the same pieces, and the lexer keeps pace on them: it stops at the
same piece in both. A token other than a string literal consists of bytes that the formatter
keeps. So the tokens agree exactly when every string literal does.

* `skip_laid`, `stringBody_laid`, `nextFrom_laid` — the parts of `lexer_next`;
* `words_eq_iff` — all tokens from some place on;
* `tokens_formatted_iff` — **a source and its formatted text have the same tokens exactly
  when what stands within string literals is laid out already**.
-/
import Jaguar.Layout
import Jaguar.Spans

namespace Jaguar

/-! ### Whitespace -/

theorem isWs_iff {c : UInt8} : isWs c ↔ c = 32 ∨ c = 9 ∨ c = 13 ∨ c = 10 := by
  simp only [isWs, Bool.or_eq_true, decide_eq_true_eq, or_assoc]

theorem ne_of_isWs {c : UInt8} (h : isWs c) : c ≠ 34 ∧ c ≠ 47 ∧ c ≠ 42 ∧ c ≠ 92 := by
  rcases isWs_iff.mp h with rfl | rfl | rfl | rfl <;> decide

theorem run_of_forall {m : Mode} {w : Text} (h : ∀ c ∈ w, m.step c = m) : m.run w = m := by
  induction w with
  | nil => rfl
  | cons c w ih =>
    rw [List.forall_mem_cons] at h
    rw [Mode.run_cons, h.1, ih h.2]

theorem step_ws {m : Mode} {c : UInt8} (h : isWs c) :
    (m = .code ∨ m = .string ∨ m = .blockComment → m.step c = m) ∧
      (m = .slash → m.step c = .code) ∧ (m = .escape → m.step c = .string) ∧
      (m = .star → m.step c = .blockComment) := by
  obtain ⟨h₁, h₂, h₃, h₄⟩ := ne_of_isWs h
  refine ⟨?_, ?_, ?_, ?_⟩
  · rintro (rfl | rfl | rfl) <;> simp [Mode.step, h₁, h₂, h₃, h₄]
  · rintro rfl
    simp [Mode.step, h₁, h₂, h₃]
  · rintro rfl
    rfl
  · rintro rfl
    simp [Mode.step, h₂, h₃]

theorem run_ws {m : Mode} {w : Text} (hm : m = .code ∨ m = .string ∨ m = .blockComment)
    (h : ∀ c ∈ w, isWs c) : m.run w = m := run_of_forall fun c hc => (step_ws (h c hc)).1 hm

/-- The pieces between the bytes of the lines. -/
structure Gaplike (p : Piece) : Prop where
  text : ∀ c ∈ p.text, isWs c
  laid : ∀ c ∈ p.laid, isWs c

theorem gaplike_newline {b : Text} (hb : ∀ c ∈ b, isTrailing c) : Gaplike ⟨b ++ [10], [10]⟩ where
  text c hc := by
    rcases List.mem_append.mp hc with hc | hc
    · exact isWs_of_isTrailing (hb c hc)
    · obtain rfl := List.mem_singleton.mp hc
      rfl
  laid c hc := by
    obtain rfl := List.mem_singleton.mp hc
    rfl

theorem gaplike_last {b : Text} (hb : ∀ c ∈ b, isTrailing c) : Gaplike ⟨b, [10]⟩ where
  text c hc := isWs_of_isTrailing (hb c hc)
  laid c hc := by
    obtain rfl := List.mem_singleton.mp hc
    rfl

theorem gaplike_lead {l indent : Text} (hl : ∀ c ∈ l, isBlank c)
    (hindent : ∀ c ∈ indent, isBlank c) : Gaplike ⟨l, indent⟩ :=
  ⟨fun c hc => isWs_of_isBlank (hl c hc), fun c hc => isWs_of_isBlank (hindent c hc)⟩

/-! ### String literals -/

theorem stringBody_quote (s : Text) (line : ℕ) : stringBody (34 :: s) line = ⟨34 :: s, line⟩ := by
  cases s <;> rfl

theorem stringBody_cons {c : UInt8} (hc : c ≠ 34) (hc' : c ≠ 92) (s : Text) (line : ℕ) :
    stringBody (c :: s) line = stringBody s (lineAfter c line) := by
  cases s with
  | nil =>
    unfold stringBody
    rw [if_neg hc]
  | cons d s => rw [stringBody, if_neg hc, if_neg hc']

theorem stringBody_escape (d : UInt8) (s : Text) (line : ℕ) :
    stringBody (92 :: d :: s) line = stringBody s (lineAfter d (lineAfter 92 line)) := by
  rw [stringBody, if_neg (by decide), if_pos rfl]

theorem stringBody_ws {w : Text} (hw : ∀ c ∈ w, isWs c) (s : Text) (line : ℕ) :
    ∃ line', stringBody (w ++ s) line = stringBody s line' := by
  induction w generalizing line with
  | nil => exact ⟨line, rfl⟩
  | cons c w ih =>
    rw [List.forall_mem_cons] at hw
    obtain ⟨hquote, -, -, hslash⟩ := ne_of_isWs hw.1
    rw [List.cons_append, stringBody_cons hquote hslash]
    exact ih hw.2 _

/-- A text that does not start with a byte of a line. -/
def Soft (s : Text) : Prop := ∀ c ∈ s.head?, isWs c

theorem stringBody_escape_soft {s : Text} (hs : Soft s) (line : ℕ) :
    (stringBody (92 :: s) line).rest = (stringBody s (lineAfter 92 line)).rest := by
  cases s with
  | nil => rfl
  | cons d s =>
    obtain ⟨hquote, -, -, hslash⟩ := ne_of_isWs (hs d rfl)
    rw [stringBody_escape, stringBody_cons hquote hslash]

/-- A string literal in both texts: its bytes, and the pieces from its closing quote on. -/
structure StringEnds (ps : List Piece) (u u' : Text) (qs : List Piece) : Prop where
  text : texts ps = u ++ texts qs
  laid : laids ps = u' ++ laids qs
  bodyText : ∀ line, (stringBody (texts ps) line).rest = texts qs
  bodyLaid : ∀ line, (stringBody (laids ps) line).rest = laids qs
  kept : Kept .string ps ↔ u = u' ∧ Kept .string qs
  stop : qs = [] ∨ ∃ rs, qs = .byte 34 :: rs ∧ Laid false rs
  length : qs.length ≤ ps.length

namespace StringEnds

variable {ps qs : List Piece} {u u' : Text}

theorem gap (h : StringEnds ps u u' qs) {p : Piece} (hp : Gaplike p)
    (heq : p.text ++ u = p.laid ++ u' ↔ p.text = p.laid ∧ u = u') :
    StringEnds (p :: ps) (p.text ++ u) (p.laid ++ u') qs where
  text := by rw [texts_cons, h.text, List.append_assoc]
  laid := by rw [laids_cons, h.laid, List.append_assoc]
  bodyText line := by
    obtain ⟨line', hline⟩ := stringBody_ws hp.text (texts ps) line
    rw [texts_cons, hline, h.bodyText]
  bodyLaid line := by
    obtain ⟨line', hline⟩ := stringBody_ws hp.laid (laids ps) line
    rw [laids_cons, hline, h.bodyLaid]
  kept := by
    rw [heq, and_assoc, ← h.kept, Kept, run_ws (.inr (.inl rfl)) hp.text]
    exact and_congr_left fun _ => ⟨fun himp => himp rfl, fun hp _ => hp⟩
  stop := h.stop
  length := h.length.trans (Nat.le_succ _)

theorem byte (h : StringEnds ps u u' qs) {c : UInt8} (hc : c ≠ 34) (hc' : c ≠ 92) :
    StringEnds (.byte c :: ps) (c :: u) (c :: u') qs where
  text := congrArg (c :: ·) h.text
  laid := congrArg (c :: ·) h.laid
  bodyText line := (congrArg Lexer.rest (stringBody_cons hc hc' _ line)).trans (h.bodyText _)
  bodyLaid line := (congrArg Lexer.rest (stringBody_cons hc hc' _ line)).trans (h.bodyLaid _)
  kept := by
    have hstep : Mode.string.step c = .string := by simp [Mode.step, hc, hc']
    rw [kept_byte, hstep, h.kept, List.cons_inj_right]
  stop := h.stop
  length := h.length.trans (Nat.le_succ _)

/-- A backslash takes a byte of the line along. -/
theorem escape (h : StringEnds ps u u' qs) (d : UInt8) :
    StringEnds (.byte 92 :: .byte d :: ps) (92 :: d :: u) (92 :: d :: u') qs where
  text := congrArg (92 :: d :: ·) h.text
  laid := congrArg (92 :: d :: ·) h.laid
  bodyText line := (congrArg Lexer.rest (stringBody_escape d _ line)).trans (h.bodyText _)
  bodyLaid line := (congrArg Lexer.rest (stringBody_escape d _ line)).trans (h.bodyLaid _)
  kept := by
    have hstep : (Mode.string.step 92).step d = .string := rfl
    rw [kept_byte, kept_byte, hstep, h.kept, List.cons_inj_right, List.cons_inj_right]
  stop := h.stop
  length := h.length.trans (Nat.le_add_right _ 2)

/-- At the end of a line it takes a blank or the newline along, which are no quotes. -/
theorem escape_gap (h : StringEnds ps u u' qs) (htext : Soft (texts ps)) (hlaid : Soft (laids ps))
    (hkept : Kept .escape ps ↔ Kept .string ps) :
    StringEnds (.byte 92 :: ps) (92 :: u) (92 :: u') qs where
  text := congrArg (92 :: ·) h.text
  laid := congrArg (92 :: ·) h.laid
  bodyText line := (stringBody_escape_soft htext line).trans (h.bodyText _)
  bodyLaid line := (stringBody_escape_soft hlaid line).trans (h.bodyLaid _)
  kept := by
    have hstep : Mode.string.step 92 = .escape := rfl
    rw [kept_byte, hstep, hkept, h.kept, List.cons_inj_right]
  stop := h.stop
  length := h.length.trans (Nat.le_succ _)

end StringEnds

/-- Blanks in front of a byte that is none. -/
theorem append_eq_append_iff_of_blank {l indent u u' : Text} (hl : ∀ c ∈ l, isBlank c)
    (hindent : ∀ c ∈ indent, isBlank c) (hu : ∀ c ∈ u.head?, ¬ isBlank c)
    (hu' : ∀ c ∈ u'.head?, ¬ isBlank c) : l ++ u = indent ++ u' ↔ l = indent ∧ u = u' := by
  constructor
  · intro heq
    have htake : ∀ {l u : Text}, (∀ c ∈ l, isBlank c) → (∀ c ∈ u.head?, ¬ isBlank c) →
        (l ++ u).takeWhile isBlank = l := by
      intro l u hl hu
      rw [List.takeWhile_append_of_pos hl]
      cases u with
      | nil => exact List.append_nil l
      | cons c u => rw [List.takeWhile_cons_of_neg (hu c rfl), List.append_nil]
    have hleft := congrArg (List.takeWhile isBlank) heq
    rw [htake hl hu, htake hindent hu'] at hleft
    subst hleft
    exact ⟨rfl, List.append_cancel_left heq⟩
  · rintro ⟨rfl, rfl⟩
    rfl

theorem head_of_append {c : UInt8} {s u t : Text} (h : c :: s = u ++ t) :
    ∀ d ∈ u.head?, d = c := by
  intro d hd
  obtain ⟨r, rfl⟩ := List.head?_eq_some_iff.mp hd
  exact (List.cons.inj h).1.symm

theorem stringEnds_nil : StringEnds [] [] [] [] where
  text := rfl
  laid := rfl
  bodyText _ := rfl
  bodyLaid _ := rfl
  kept := by simp
  stop := .inl rfl
  length := Nat.le_refl _

theorem stringEnds_end : StringEnds [⟨[], []⟩] [] [] [] :=
  stringEnds_nil.gap ⟨nofun, nofun⟩ (by simp)

theorem newline_append_iff {b u u' : Text} (hb : ∀ c ∈ b, isTrailing c) :
    b ++ [10] ++ u = [10] ++ u' ↔ b ++ [10] = [10] ∧ u = u' := by
  cases b with
  | nil => simp
  | cons d b =>
    have hd : d ≠ 10 := by
      rintro rfl
      exact absurd (hb 10 List.mem_cons_self) (by decide)
    constructor
    · intro heq
      exact absurd (List.cons.inj heq).1 hd
    · intro heq
      exact absurd (List.cons.inj heq.1).1 hd

/-- The pieces behind the last byte of a line. -/
structure LineEnd (ps : List Piece) : Prop where
  text : Soft (texts ps)
  laid : Soft (laids ps)
  escape : Kept .escape ps ↔ Kept .string ps
  slash : Kept .slash ps ↔ Kept .code ps
  star : Kept .star ps ↔ Kept .blockComment ps

theorem kept_end (m : Mode) : Kept m [⟨[], []⟩] := ⟨fun _ => rfl, trivial⟩

theorem lineEnd_of_gaplike {p : Piece} (hp : Gaplike p) (hlaid : p.laid ≠ []) {ps : List Piece}
    (htext : p.text = [] → ps = [⟨[], []⟩]) : LineEnd (p :: ps) := by
  obtain ⟨text, laid⟩ := p
  have hsoft : ∀ {w s : Text}, (∀ c ∈ w, isWs c) → (w = [] → s = []) → Soft (w ++ s) := by
    intro w s hw hs c hc
    cases w with
    | nil =>
      rw [hs rfl] at hc
      cases hc
    | cons d w =>
      obtain rfl := Option.some.inj hc
      exact hw _ List.mem_cons_self
  -- both modes are the same behind the first blank or newline
  have hmode : ∀ {m m' : Mode}, m.inString = m'.inString → (∀ c, isWs c → m.step c = m'.step c) →
      (Kept m (⟨text, laid⟩ :: ps) ↔ Kept m' (⟨text, laid⟩ :: ps)) := by
    intro m m' hin hstep
    rw [Kept, Kept, hin]
    cases text with
    | nil =>
      rw [htext rfl]
      exact and_congr_right fun _ => iff_of_true (kept_end _) (kept_end _)
    | cons d w => rw [Mode.run_cons, Mode.run_cons, hstep d (hp.text d List.mem_cons_self)]
  refine ⟨hsoft hp.text fun hnil => ?_, hsoft hp.laid fun hnil => absurd hnil hlaid,
    hmode rfl fun c hc => ?_, hmode rfl fun c hc => ?_, hmode rfl fun c hc => ?_⟩
  · rw [htext hnil]
    rfl
  · rw [(step_ws hc).2.2.1 rfl, (step_ws hc).1 (.inr (.inl rfl))]
  · rw [(step_ws hc).2.1 rfl, (step_ws hc).1 (.inl rfl)]
  · rw [(step_ws hc).2.2.2 rfl, (step_ws hc).1 (.inr (.inr rfl))]

theorem lineEnd_newline {b : Text} (hb : ∀ c ∈ b, isTrailing c) (ps : List Piece) :
    LineEnd (⟨b ++ [10], [10]⟩ :: ps) :=
  lineEnd_of_gaplike (gaplike_newline hb) (by simp) (by simp)

theorem lineEnd_last {b : Text} (hb : ∀ c ∈ b, isTrailing c) : LineEnd [⟨b, [10]⟩, ⟨[], []⟩] :=
  lineEnd_of_gaplike (gaplike_last hb) (by simp) fun _ => rfl

theorem stringBody_laid {start : Bool} {ps : List Piece} (h : Laid start ps) :
    ∃ u u' qs, StringEnds ps u u' qs := by
  induction hn : ps.length using Nat.strongRecOn generalizing start ps with
  | ind n ih =>
    subst hn
    have hshort : ∀ {start : Bool} {p : Piece} {ps' : List Piece}, ps = p :: ps' → Laid start ps' →
        ∃ u u' qs, StringEnds ps' u u' qs := by
      rintro start p ps' rfl hps'
      exact ih _ (Nat.lt_succ_self _) hps' rfl
    cases h with
    | drop hl => exact ⟨_, _, _, stringEnds_nil.gap (gaplike_lead hl (List.forall_mem_nil _)) (by simp)⟩
    | @lead l indent c ps hl hindent hc hps =>
      obtain ⟨u, u', qs, hends⟩ := hshort rfl hps
      have hu : ∀ {u : Text}, (∀ d ∈ u.head?, d = c) → ∀ d ∈ u.head?, ¬ isBlank d := by
        intro u hu d hd
        rw [hu d hd]
        exact hc
      exact ⟨_, _, _, hends.gap (gaplike_lead hl hindent)
        (append_eq_append_iff_of_blank hl hindent (hu (head_of_append hends.text))
          (hu (head_of_append hends.laid)))⟩
    | newline hb hps =>
      obtain ⟨u, u', qs, hends⟩ := hshort rfl hps
      exact ⟨_, _, _, hends.gap (gaplike_newline hb) (newline_append_iff hb)⟩
    | last hb => exact ⟨_, _, _, stringEnds_end.gap (gaplike_last hb) (by simp)⟩
    | @byte c ps hps =>
      by_cases hquote : c = 34
      · subst hquote
        refine ⟨[], [], .byte 34 :: ps, rfl, rfl, fun line => ?_, fun line => ?_, ?_, .inr ⟨ps, rfl, hps⟩,
          Nat.le_refl _⟩
        · exact congrArg Lexer.rest (stringBody_quote _ line)
        · exact congrArg Lexer.rest (stringBody_quote _ line)
        · simp
      by_cases hslash : c = 92
      · subst hslash
        obtain ⟨u, u', qs, hends⟩ := hshort rfl hps
        cases hps with
        | newline hb hps =>
          have hend := lineEnd_newline hb ‹_›
          exact ⟨_, _, _, hends.escape_gap hend.text hend.laid hend.escape⟩
        | last hb =>
          have hend := lineEnd_last hb
          exact ⟨_, _, _, hends.escape_gap hend.text hend.laid hend.escape⟩
        | @byte d ps hps =>
          obtain ⟨u, u', qs, hends⟩ := ih ps.length (by simp only [List.length_cons]; omega) hps rfl
          exact ⟨_, _, _, hends.escape d⟩
      · obtain ⟨u, u', qs, hends⟩ := hshort rfl hps
        exact ⟨_, _, _, hends.byte hquote hslash⟩

/-! ### Comments and whitespace -/

theorem advanceWhile_rest (p : UInt8 → Bool) (s : Text) (line : ℕ) :
    (advanceWhile p s line).rest = s.dropWhile p := by
  induction s generalizing line with
  | nil => rfl
  | cons c s ih =>
    rw [advanceWhile, List.dropWhile_cons]
    split_ifs
    · exact ih _
    · rfl

theorem skip_ws {w : Text} (hw : ∀ c ∈ w, isWs c) (s : Text) (line : ℕ) :
    ∃ line', skipWsAndComments (w ++ s) line = skipWsAndComments s line' := by
  induction w generalizing line with
  | nil => exact ⟨line, rfl⟩
  | cons c w ih =>
    rw [List.forall_mem_cons] at hw
    rw [List.cons_append, skipWsAndComments, if_pos (isWs_iff.mp hw.1)]
    exact ih hw.2 _

/-- A line comment ends before the same piece in both texts, but for whitespace. -/
structure LineCommentEnds (ps qs : List Piece) : Prop where
  text : ∃ w, (texts ps).dropWhile (· ≠ 10) = w ++ texts qs ∧ ∀ c ∈ w, isWs c
  laid : ∃ w, (laids ps).dropWhile (· ≠ 10) = w ++ laids qs ∧ ∀ c ∈ w, isWs c
  kept : Kept .lineComment ps ↔ Kept .code qs
  start : ∃ start, Laid start qs
  length : qs.length ≤ ps.length

theorem Mode.run_append (m : Mode) (s t : Text) : m.run (s ++ t) = (m.run s).run t :=
  List.foldl_append

theorem ne_newline_of_isTrailing {c : UInt8} (h : isTrailing c) : c ≠ 10 := by
  rintro rfl
  exact absurd h (by decide)

theorem lineComment_laid {ps : List Piece} (h : Laid false ps) :
    ∃ qs, LineCommentEnds ps qs := by
  have hdrop : ∀ {b : Text} (s : Text), (∀ c ∈ b, isTrailing c) →
      (b ++ s).dropWhile (· ≠ 10) = s.dropWhile (· ≠ 10) := by
    intro b s hb
    exact List.dropWhile_append_of_pos fun c hc => by simpa using ne_newline_of_isTrailing (hb c hc)
  have hnewline : ∀ s : Text, (10 :: s).dropWhile (· ≠ 10) = 10 :: s := fun s =>
    List.dropWhile_cons_of_neg (by decide)
  have hws : ∀ c ∈ ([10] : Text), isWs c := forall_mem_of_all rfl
  induction ps with
  | nil => cases h
  | cons p ps ih =>
    cases h with
    | @newline _ b ps hb hps =>
      have hrun : Mode.lineComment.run (b ++ [10]) = .code := by
        have hblank : Mode.lineComment.run b = .lineComment :=
          run_of_forall fun c hc => if_neg (ne_newline_of_isTrailing (hb c hc))
        rw [Mode.run_append, hblank]
        rfl
      refine ⟨ps, ⟨[10], ?_, hws⟩, ⟨[10], hnewline _, hws⟩, ?_, ⟨true, hps⟩, Nat.le_succ _⟩
      · rw [texts_cons, List.append_assoc, hdrop _ hb]
        exact hnewline _
      · rw [Kept, hrun]
        exact and_iff_right nofun
    | last hb =>
      refine ⟨[⟨[], []⟩], ⟨[], ?_, nofun⟩, ⟨[10], hnewline _, hws⟩, ?_, ⟨true, .drop nofun⟩,
        Nat.le_succ _⟩
      · exact hdrop _ hb
      · exact iff_of_true ⟨nofun, kept_end _⟩ (kept_end _)
    | @byte c ps hps =>
      by_cases hc : c = 10
      · subst hc
        exact ⟨.byte 10 :: ps, ⟨[], hnewline _, nofun⟩, ⟨[], hnewline _, nofun⟩, Iff.rfl,
          ⟨false, .byte hps⟩, Nat.le_refl _⟩
      · obtain ⟨qs, htext, hlaid, hkept, hstart, hlength⟩ := ih hps
        have hcons : ∀ s : Text, (c :: s).dropWhile (· ≠ 10) = s.dropWhile (· ≠ 10) := fun s =>
          List.dropWhile_cons_of_pos (by simpa using hc)
        have hstep : Mode.lineComment.step c = .lineComment := if_neg hc
        refine ⟨qs, ?_, ?_, ?_, hstart, hlength.trans (Nat.le_succ _)⟩
        · rwa [texts_cons, Piece.byte, List.singleton_append, hcons]
        · rwa [laids_cons, Piece.byte, List.singleton_append, hcons]
        · rw [kept_byte, hstep, hkept]

theorem blockComment_cons {c : UInt8} {s : Text} (h : c = 42 → s.head? ≠ some 47) (line : ℕ) :
    blockComment (c :: s) line = blockComment s (lineAfter c line) := by
  rw [blockComment, if_neg fun hc => h hc.1 hc.2]

theorem blockComment_ws {w : Text} (hw : ∀ c ∈ w, isWs c) (s : Text) (line : ℕ) :
    ∃ line', blockComment (w ++ s) line = blockComment s line' := by
  induction w generalizing line with
  | nil => exact ⟨line, rfl⟩
  | cons c w ih =>
    rw [List.forall_mem_cons] at hw
    rw [List.cons_append, blockComment_cons fun hc => absurd hc (ne_of_isWs hw.1).2.2.1]
    exact ih hw.2 _

/-- Where a block comment that is read from here on ends. -/
def behindComment (s : Text) (line : ℕ) : Text := (blockComment s line).advance.advance.rest

theorem behindComment_ws {w : Text} (hw : ∀ c ∈ w, isWs c) (s : Text) (line : ℕ) :
    ∃ line', behindComment (w ++ s) line = behindComment s line' := by
  obtain ⟨line', hline⟩ := blockComment_ws hw s line
  exact ⟨line', by rw [behindComment, hline, behindComment]⟩

theorem behindComment_cons {c : UInt8} {s : Text} (h : c = 42 → s.head? ≠ some 47) (line : ℕ) :
    behindComment (c :: s) line = behindComment s (lineAfter c line) := by
  rw [behindComment, blockComment_cons h, behindComment]

theorem behindComment_close (s : Text) (line : ℕ) : behindComment (42 :: 47 :: s) line = s := by
  rw [behindComment, blockComment, if_pos ⟨rfl, rfl⟩]
  rfl

/-- A block comment ends before the same piece in both texts. -/
structure BlockEnds (ps qs : List Piece) : Prop where
  text : ∀ line, behindComment (texts ps) line = texts qs
  laid : ∀ line, behindComment (laids ps) line = laids qs
  kept : Kept .blockComment ps ↔ Kept .code qs
  start : ∃ start, Laid start qs
  length : qs.length ≤ ps.length

theorem BlockEnds.gap {ps qs : List Piece} (h : BlockEnds ps qs) {p : Piece} (hp : Gaplike p) :
    BlockEnds (p :: ps) qs where
  text line := by
    obtain ⟨line', hline⟩ := behindComment_ws hp.text (texts ps) line
    rw [texts_cons, hline, h.text]
  laid line := by
    obtain ⟨line', hline⟩ := behindComment_ws hp.laid (laids ps) line
    rw [laids_cons, hline, h.laid]
  kept := by
    rw [Kept, run_ws (.inr (.inr rfl)) hp.text, ← h.kept]
    exact and_iff_right nofun
  start := h.start
  length := h.length.trans (Nat.le_succ _)

theorem BlockEnds.byte {ps qs : List Piece} (h : BlockEnds ps qs) {c : UInt8}
    (htext : c = 42 → (texts ps).head? ≠ some 47) (hlaid : c = 42 → (laids ps).head? ≠ some 47)
    (hkept : Kept (Mode.blockComment.step c) ps ↔ Kept .blockComment ps) :
    BlockEnds (.byte c :: ps) qs where
  text line := (behindComment_cons htext line).trans (h.text _)
  laid line := (behindComment_cons hlaid line).trans (h.laid _)
  kept := kept_byte.trans (hkept.trans h.kept)
  start := h.start
  length := h.length.trans (Nat.le_succ _)

theorem head_ne_of_soft {s : Text} (hs : Soft s) {c : UInt8} (hc : ¬ isWs c) : s.head? ≠ some c :=
  fun h => hc (hs c h)

theorem LineEnd.blockEnds {ps qs : List Piece} (h : LineEnd ps) (hends : BlockEnds ps qs)
    (c : UInt8) : BlockEnds (.byte c :: ps) qs := by
  refine hends.byte (fun _ => head_ne_of_soft h.text (by decide))
    (fun _ => head_ne_of_soft h.laid (by decide)) ?_
  by_cases hc : c = 42
  · rw [hc]
    exact h.star
  · rw [show Mode.blockComment.step c = .blockComment from if_neg hc]

theorem blockComment_laid {start : Bool} {ps : List Piece} (h : Laid start ps) :
    ∃ qs, BlockEnds ps qs := by
  have hend : BlockEnds [⟨[], []⟩] [⟨[], []⟩] :=
    ⟨fun _ => rfl, fun _ => rfl, iff_of_true (kept_end _) (kept_end _), ⟨true, .drop nofun⟩,
      Nat.le_refl _⟩
  induction hn : ps.length using Nat.strongRecOn generalizing start ps with
  | ind n ih =>
    subst hn
    have hshort : ∀ {start : Bool} {p : Piece} {ps' : List Piece}, ps = p :: ps' → Laid start ps' →
        ∃ qs, BlockEnds ps' qs := by
      rintro start p ps' rfl hps'
      exact ih _ (Nat.lt_succ_self _) hps' rfl
    cases h with
    | @drop l hl =>
      refine ⟨[⟨[], []⟩], fun line => ?_, fun _ => rfl, iff_of_true ⟨nofun, trivial⟩ (kept_end _),
        ⟨true, .drop nofun⟩, Nat.le_refl _⟩
      obtain ⟨line', hline⟩ := behindComment_ws (fun c hc => isWs_of_isBlank (hl c hc)) [] line
      exact hline
    | lead hl hindent hc hps =>
      obtain ⟨qs, hqs⟩ := hshort rfl hps
      exact ⟨qs, hqs.gap (gaplike_lead hl hindent)⟩
    | newline hb hps =>
      obtain ⟨qs, hqs⟩ := hshort rfl hps
      exact ⟨qs, hqs.gap (gaplike_newline hb)⟩
    | last hb => exact ⟨_, hend.gap (gaplike_last hb)⟩
    | @byte c ps hps =>
      obtain ⟨qs, hqs⟩ := hshort rfl hps
      cases hps with
      | newline hb hps => exact ⟨qs, (lineEnd_newline hb _).blockEnds hqs c⟩
      | last hb => exact ⟨qs, (lineEnd_last hb).blockEnds hqs c⟩
      | @byte d ps hps =>
        by_cases hclose : c = 42 ∧ d = 47
        · obtain ⟨rfl, rfl⟩ := hclose
          exact ⟨ps, behindComment_close _, behindComment_close _, kept_byte.trans kept_byte,
            ⟨false, hps⟩, Nat.le_add_right _ 2⟩
        · have hhead : c = 42 → some d ≠ some 47 := fun hc hd =>
            hclose ⟨hc, Option.some.inj hd⟩
          refine ⟨qs, hqs.byte hhead hhead ?_⟩
          by_cases hc : c = 42
          · have hd : d ≠ 47 := fun hd => hclose ⟨hc, hd⟩
            rw [kept_byte, kept_byte, hc]
            simp [Mode.step, hd]
          · rw [show Mode.blockComment.step c = .blockComment from if_neg hc]

/-- The lexer skips to the same piece in both texts: to the end, or to a byte that starts a
token. -/
structure Skips (ps qs : List Piece) : Prop where
  text : ∀ line, (skipWsAndComments (texts ps) line).rest = texts qs
  laid : ∀ line, (skipWsAndComments (laids ps) line).rest = laids qs
  kept : Kept .code ps ↔ Kept .code qs
  stop : qs = [] ∨ ∃ c rs, qs = .byte c :: rs ∧ Laid false rs ∧ ¬ isWs c ∧
    (c = 47 → (texts rs).head? ≠ some 47 ∧ (texts rs).head? ≠ some 42)
  length : qs.length ≤ ps.length

theorem Skips.gap {ps qs : List Piece} (h : Skips ps qs) {p : Piece} (hp : Gaplike p) :
    Skips (p :: ps) qs where
  text line := by
    obtain ⟨line', hline⟩ := skip_ws hp.text (texts ps) line
    rw [texts_cons, hline, h.text]
  laid line := by
    obtain ⟨line', hline⟩ := skip_ws hp.laid (laids ps) line
    rw [laids_cons, hline, h.laid]
  kept := by
    rw [Kept, run_ws (.inl rfl) hp.text, ← h.kept]
    exact and_iff_right nofun
  stop := h.stop
  length := h.length.trans (Nat.le_succ _)

theorem skip_token {c : UInt8} {s : Text} (hc : ¬ isWs c)
    (hs : c = 47 → s.head? ≠ some 47 ∧ s.head? ≠ some 42) (line : ℕ) :
    (skipWsAndComments (c :: s) line).rest = c :: s := by
  rw [skipWsAndComments, if_neg fun h => hc (isWs_iff.mpr h), if_neg fun h => (hs h.1).1 h.2,
    if_neg fun h => (hs h.1).2 h.2]

theorem skips_token {c : UInt8} {ps : List Piece} (hps : Laid false ps) (hc : ¬ isWs c)
    (htext : c = 47 → (texts ps).head? ≠ some 47 ∧ (texts ps).head? ≠ some 42)
    (hlaid : c = 47 → (laids ps).head? ≠ some 47 ∧ (laids ps).head? ≠ some 42) :
    Skips (.byte c :: ps) (.byte c :: ps) where
  text line := skip_token hc htext line
  laid line := skip_token hc hlaid line
  kept := Iff.rfl
  stop := .inr ⟨c, ps, rfl, hps, hc, htext⟩
  length := Nat.le_refl _

theorem skip_lineComment (s : Text) (line : ℕ) :
    ∃ line', skipWsAndComments (47 :: 47 :: s) line
      = skipWsAndComments (s.dropWhile (· ≠ 10)) line' := by
  refine ⟨(advanceWhile (· ≠ 10) (47 :: s) line).line, ?_⟩
  have hrest : (advanceWhile (· ≠ 10) (47 :: s) line).rest = s.dropWhile (· ≠ 10) := by
    rw [advanceWhile_rest, List.dropWhile_cons_of_pos (by decide)]
  rw [skipWsAndComments, if_neg (by decide), if_pos ⟨rfl, rfl⟩]
  show skipWsAndComments (advanceWhile (· ≠ 10) (47 :: s) line).rest _ = _
  rw [hrest]

theorem skip_blockComment (s : Text) (line : ℕ) :
    ∃ line', skipWsAndComments (47 :: 42 :: s) line
      = skipWsAndComments (behindComment s line) line' := by
  refine ⟨(blockComment s line).advance.advance.line, ?_⟩
  have hline : ¬ ((47 : UInt8) = 47 ∧ (42 :: s).head? = some 47) := fun h =>
    absurd (Option.some.inj h.2) (by decide)
  rw [skipWsAndComments, if_neg (by decide), if_neg hline, if_pos ⟨rfl, rfl⟩]
  rfl

theorem LineCommentEnds.skips {ps qs rs : List Piece} (h : LineCommentEnds ps qs)
    (hskips : Skips qs rs) : Skips (.byte 47 :: .byte 47 :: ps) rs where
  text line := by
    obtain ⟨line', hline⟩ := skip_lineComment (texts ps) line
    obtain ⟨w, hw, hws⟩ := h.text
    obtain ⟨line'', hline'⟩ := skip_ws hws (texts qs) line'
    show (skipWsAndComments (47 :: 47 :: texts ps) line).rest = _
    rw [hline, hw, hline', hskips.text]
  laid line := by
    obtain ⟨line', hline⟩ := skip_lineComment (laids ps) line
    obtain ⟨w, hw, hws⟩ := h.laid
    obtain ⟨line'', hline'⟩ := skip_ws hws (laids qs) line'
    show (skipWsAndComments (47 :: 47 :: laids ps) line).rest = _
    rw [hline, hw, hline', hskips.laid]
  kept := kept_byte.trans (kept_byte.trans (h.kept.trans hskips.kept))
  stop := hskips.stop
  length := hskips.length.trans (h.length.trans (Nat.le_add_right _ 2))

theorem BlockEnds.skips {ps qs rs : List Piece} (h : BlockEnds ps qs) (hskips : Skips qs rs) :
    Skips (.byte 47 :: .byte 42 :: ps) rs where
  text line := by
    obtain ⟨line', hline⟩ := skip_blockComment (texts ps) line
    show (skipWsAndComments (47 :: 42 :: texts ps) line).rest = _
    rw [hline, h.text, hskips.text]
  laid line := by
    obtain ⟨line', hline⟩ := skip_blockComment (laids ps) line
    show (skipWsAndComments (47 :: 42 :: laids ps) line).rest = _
    rw [hline, h.laid, hskips.laid]
  kept := kept_byte.trans (kept_byte.trans (h.kept.trans hskips.kept))
  stop := hskips.stop
  length := hskips.length.trans (h.length.trans (Nat.le_add_right _ 2))

theorem skip_laid {start : Bool} {ps : List Piece} (h : Laid start ps) : ∃ qs, Skips ps qs := by
  have hnil : Skips [] [] := by
    have hskip : ∀ line, (skipWsAndComments [] line).rest = [] := fun line => by
      rw [skipWsAndComments]
    exact ⟨hskip, hskip, Iff.rfl, .inl rfl, Nat.le_refl _⟩
  induction hn : ps.length using Nat.strongRecOn generalizing start ps with
  | ind n ih =>
    subst hn
    have hshort : ∀ {start : Bool} {p : Piece} {ps' : List Piece}, ps = p :: ps' → Laid start ps' →
        ∃ qs, Skips ps' qs := by
      rintro start p ps' rfl hps'
      exact ih _ (Nat.lt_succ_self _) hps' rfl
    cases h with
    | drop hl => exact ⟨[], hnil.gap (gaplike_lead hl (List.forall_mem_nil _))⟩
    | lead hl hindent hc hps =>
      obtain ⟨qs, hqs⟩ := hshort rfl hps
      exact ⟨qs, hqs.gap (gaplike_lead hl hindent)⟩
    | newline hb hps =>
      obtain ⟨qs, hqs⟩ := hshort rfl hps
      exact ⟨qs, hqs.gap (gaplike_newline hb)⟩
    | last hb =>
      have hempty : Gaplike ⟨[], []⟩ := ⟨List.forall_mem_nil _, List.forall_mem_nil _⟩
      exact ⟨[], (hnil.gap hempty).gap (gaplike_last hb)⟩
    | @byte c ps hps =>
      by_cases hc : isWs c
      · obtain ⟨qs, hqs⟩ := hshort rfl hps
        refine ⟨qs, hqs.gap ⟨?_, ?_⟩⟩
        · exact List.forall_mem_singleton.mpr hc
        · exact List.forall_mem_singleton.mpr hc
      have hend : LineEnd ps → ∃ qs, Skips (.byte c :: ps) qs := fun hend =>
        ⟨_, skips_token hps hc
          (fun _ => ⟨head_ne_of_soft hend.text (by decide), head_ne_of_soft hend.text (by decide)⟩)
          (fun _ => ⟨head_ne_of_soft hend.laid (by decide), head_ne_of_soft hend.laid (by decide)⟩)⟩
      cases hps with
      | newline hb hps => exact hend (lineEnd_newline hb _)
      | last hb => exact hend (lineEnd_last hb)
      | @byte d ps hps' =>
        by_cases hcomment : c = 47 ∧ (d = 47 ∨ d = 42)
        · obtain ⟨rfl, rfl | rfl⟩ := hcomment
          · obtain ⟨qs, hqs⟩ := lineComment_laid hps'
            obtain ⟨start, hstart⟩ := hqs.start
            obtain ⟨rs, hrs⟩ := ih qs.length (Nat.lt_succ_of_le (hqs.length.trans (Nat.le_succ _)))
              hstart rfl
            exact ⟨rs, hqs.skips hrs⟩
          · obtain ⟨qs, hqs⟩ := blockComment_laid hps'
            obtain ⟨start, hstart⟩ := hqs.start
            obtain ⟨rs, hrs⟩ := ih qs.length (Nat.lt_succ_of_le (hqs.length.trans (Nat.le_succ _)))
              hstart rfl
            exact ⟨rs, hqs.skips hrs⟩
        · have hhead : c = 47 → some d ≠ some 47 ∧ some d ≠ some 42 := fun hc =>
            ⟨fun hd => hcomment ⟨hc, .inl (Option.some.inj hd)⟩,
              fun hd => hcomment ⟨hc, .inr (Option.some.inj hd)⟩⟩
          exact ⟨_, skips_token (.byte hps') hc hhead hhead⟩

/-! ### Other tokens -/

/-- What the bytes of a line that are left are followed by. -/
theorem exists_lineEnd {ps : List Piece} (h : Laid false ps) :
    ∃ (w : Text) (qs : List Piece), ps = w.map Piece.byte ++ qs ∧ Laid false qs ∧ LineEnd qs := by
  induction ps with
  | nil => cases h
  | cons p ps ih =>
    cases h with
    | newline hb hps => exact ⟨[], _, rfl, .newline hb hps, lineEnd_newline hb _⟩
    | last hb => exact ⟨[], _, rfl, .last hb, lineEnd_last hb⟩
    | @byte c ps hps =>
      obtain ⟨w, qs, rfl, hqs, hend⟩ := ih hps
      exact ⟨c :: w, qs, rfl, hqs, hend⟩

/-- Bytes that start neither a string literal nor a comment. -/
def Plain (w : Text) : Prop := ∀ c ∈ w, c ≠ 34 ∧ c ≠ 47

theorem plain_of_forall {p : UInt8 → Bool} (hquote : ¬ p 34) (hslash : ¬ p 47) {w : Text}
    (hw : ∀ c ∈ w, p c) : Plain w := by
  intro c hc
  constructor
  · rintro rfl
    exact hquote (hw _ hc)
  · rintro rfl
    exact hslash (hw _ hc)

/-- Two lexers on the same line `w`, with different ends. -/
structure Twin (x y w : Text) (cur cur' : Lexer) : Prop where
  left : cur.rest = w ++ x
  right : cur'.rest = w ++ y

/-- Both lexers read the same bytes of the line, or both do not. -/
inductive Same (x y w : Text) : Option Lexer → Option Lexer → Prop
  | neither : Same x y w none none
  | both {cur cur' : Lexer} {w₁ w₂ : Text} : w = w₁ ++ w₂ → Plain w₁ → Twin x y w₂ cur cur' →
      Same x y w (some cur) (some cur')

section Soft

variable {x y w : Text} {cur cur' : Lexer} (hx : Soft x) (hy : Soft y)

include hx in
theorem dropWhile_soft {p : UInt8 → Bool} (hp : ∀ c, isWs c → ¬ p c) (w : Text) :
    (w ++ x).dropWhile p = w.dropWhile p ++ x := by
  induction w with
  | nil =>
    cases x with
    | nil => rfl
    | cons c x => exact List.dropWhile_cons_of_neg (hp c (hx c rfl))
  | cons c w ih =>
    rw [List.cons_append, List.dropWhile_cons, List.dropWhile_cons]
    split_ifs
    · exact ih
    · rfl

include hx hy

theorem Twin.advanceWhile (h : Twin x y w cur cur') {p : UInt8 → Bool} (hp : ∀ c, isWs c → ¬ p c)
    (hquote : ¬ p 34) (hslash : ¬ p 47) :
    Same x y w (some (Jaguar.advanceWhile p cur.rest cur.line))
      (some (Jaguar.advanceWhile p cur'.rest cur'.line)) := by
  refine .both List.takeWhile_append_dropWhile.symm
    (plain_of_forall hquote hslash fun c hc => List.mem_takeWhile_imp hc) ⟨?_, ?_⟩
  · rw [advanceWhile_rest, h.left, dropWhile_soft hx hp]
  · rw [advanceWhile_rest, h.right, dropWhile_soft hy hp]

/-- A byte that a line has is seen by both lexers. -/
theorem Twin.peek (h : Twin x y w cur cur') {q : UInt8 → Prop} (hzero : ¬ q 0)
    (hws : ∀ c, isWs c → ¬ q c) : (q cur.peek ↔ q cur'.peek) ∧
      (q cur.peek → ∃ c w', w = c :: w' ∧ q c ∧ Twin x y w' cur.advance cur'.advance) := by
  have hsoft : ∀ {s : Text}, Soft s → ¬ q (s.headD 0) := by
    intro s hs
    cases s with
    | nil => exact hzero
    | cons c s => exact hws c (hs c rfl)
  rw [Lexer.peek, Lexer.peek, h.left, h.right]
  cases w with
  | nil => exact ⟨iff_of_false (hsoft hx) (hsoft hy), fun hq => absurd hq (hsoft hx)⟩
  | cons c w =>
    refine ⟨Iff.rfl, fun hq => ⟨c, w, rfl, hq, ?_, ?_⟩⟩
    · rw [Lexer.advance, h.left]
      rfl
    · rw [Lexer.advance, h.right]
      rfl

theorem Twin.digits (h : Twin x y w cur cur') :
    Same x y w (some (Jaguar.digits cur)) (some (Jaguar.digits cur')) :=
  h.advanceWhile hx hy (fun c hc => by rcases isWs_iff.mp hc with rfl | rfl | rfl | rfl <;> decide)
    (by decide) (by decide)

omit hx hy in
theorem Same.cons {c : UInt8} {o o' : Option Lexer} (h : Same x y w o o') (hc : c ≠ 34 ∧ c ≠ 47) :
    Same x y (c :: w) o o' := by
  cases h with
  | neither => exact .neither
  | @both _ _ w₁ _ hw hplain htwin =>
    exact .both (congrArg (c :: ·) hw) (List.forall_mem_cons.mpr ⟨hc, hplain⟩) htwin

omit hx hy in
theorem isDigit_soft {c : UInt8} (hc : isWs c) : ¬ isDigit c := by
  rcases isWs_iff.mp hc with rfl | rfl | rfl | rfl <;> decide

omit hx hy in
theorem peek2_eq (cur : Lexer) : cur.peek2 = cur.advance.peek := by
  obtain ⟨rest, line⟩ := cur
  cases rest <;> rfl

theorem Twin.fraction (h : Twin x y w cur cur') :
    Same x y w (Jaguar.fraction cur) (Jaguar.fraction cur') := by
  obtain ⟨hiff, hpoint⟩ := h.peek hx hy (q := (· = 46)) (by decide) fun c hc heq => by
    rw [heq] at hc
    exact absurd hc (by decide)
  unfold Jaguar.fraction
  by_cases hp : cur.peek = 46
  · obtain ⟨c, w', rfl, rfl, hadvance⟩ := hpoint hp
    have hdigit := (hadvance.peek hx hy (q := fun c => isDigit c) (by decide)
      fun c hc => isDigit_soft hc).1
    rw [peek2_eq, peek2_eq]
    by_cases hd : isDigit cur.advance.peek
    · rw [if_pos ⟨hp, hd⟩, if_pos ⟨hiff.mp hp, hdigit.mp hd⟩]
      exact (hadvance.digits hx hy).cons (by decide)
    · rw [if_neg fun h => hd h.2, if_neg fun h => hd (hdigit.mpr h.2)]
      exact .neither
  · rw [if_neg fun h => hp h.1, if_neg fun h => hp (hiff.mpr h.1)]
    exact .neither

/-- Digits, if there is one. -/
theorem Twin.someDigits (h : Twin x y w cur cur') :
    Same x y w (if isDigit cur.peek then some (Jaguar.digits cur) else none)
      (if isDigit cur'.peek then some (Jaguar.digits cur') else none) := by
  have hdigit := (h.peek hx hy (q := fun c => isDigit c) (by decide) fun c hc => isDigit_soft hc).1
  by_cases hd : isDigit cur.peek
  · rw [if_pos hd, if_pos (hdigit.mp hd)]
    exact h.digits hx hy
  · rw [if_neg hd, if_neg fun h => hd (hdigit.mpr h)]
    exact .neither

theorem Twin.exponent (h : Twin x y w cur cur') :
    Same x y w (Jaguar.exponent cur) (Jaguar.exponent cur') := by
  have hE : ∀ c, isWs c → ¬ (c = 69 ∨ c = 101) := by
    intro c hc heq
    rcases heq with rfl | rfl <;> exact absurd hc (by decide)
  have hsign : ∀ c, isWs c → ¬ (c = 43 ∨ c = 45) := by
    intro c hc heq
    rcases heq with rfl | rfl <;> exact absurd hc (by decide)
  obtain ⟨hiff, hread⟩ := h.peek hx hy (q := fun c => c = 69 ∨ c = 101) (by decide) hE
  unfold Jaguar.exponent
  by_cases hp : cur.peek = 69 ∨ cur.peek = 101
  · obtain ⟨c, w', rfl, hc, hadvance⟩ := hread hp
    have hplain : c ≠ 34 ∧ c ≠ 47 := by rcases hc with rfl | rfl <;> decide
    obtain ⟨hiff', hread'⟩ := hadvance.peek hx hy (q := fun c => c = 43 ∨ c = 45) (by decide) hsign
    rw [if_pos hp, if_pos (hiff.mp hp)]
    dsimp only
    refine Same.cons ?_ hplain
    by_cases hs : cur.advance.peek = 43 ∨ cur.advance.peek = 45
    · obtain ⟨d, w'', rfl, hd, hadvance'⟩ := hread' hs
      rw [if_pos hs, if_pos (hiff'.mp hs)]
      exact (hadvance'.someDigits hx hy).cons (by rcases hd with rfl | rfl <;> decide)
    · rw [if_neg hs, if_neg fun h => hs (hiff'.mpr h)]
      exact hadvance.someDigits hx hy
  · rw [if_neg hp, if_neg fun h => hp (hiff.mpr h)]
    exact .neither

end Soft

/-- The type and the lexeme of a token. -/
def Token.word (t : Token) : TokenType × Text := (t.type, t.lexeme)

/-- Both lexers, at a line `c :: w`, read the same token from its bytes. -/
structure SameToken (x y : Text) (c : UInt8) (w : Text) (r r' : Token × Lexer) (w₁ w₂ : Text) :
    Prop where
  line : w = w₁ ++ w₂
  plain : Plain w₁
  word : r.1.word = r'.1.word
  twin : Twin x y w₂ r.2 r'.2

theorem lexeme_make {start cur : Lexer} {s : Text} (h : start.rest = s ++ cur.rest)
    (type : TokenType) : (cur.make type start).lexeme = s := by
  rw [Lexer.make, h, List.length_append, Nat.add_sub_cancel, List.take_left]

section Soft

variable {x y w : Text} (hx : Soft x) (hy : Soft y)

/-- Tokens that both lexers make of the same bytes. -/
theorem sameToken_make {c : UInt8} {w₁ w₂ : Text} (hw : w = w₁ ++ w₂) (hplain : Plain w₁)
    {start start' cur cur' : Lexer} (hstart : start.rest = c :: (w ++ x))
    (hstart' : start'.rest = c :: (w ++ y)) (htwin : Twin x y w₂ cur cur') (type : TokenType) :
    SameToken x y c w (cur.make type start, cur) (cur'.make type start', cur') w₁ w₂ where
  line := hw
  plain := hplain
  word := by
    have hlexeme : (cur.make type start).lexeme = c :: w₁ := by
      refine lexeme_make ?_ type
      rw [hstart, htwin.left, hw, List.append_assoc]
      rfl
    have hlexeme' : (cur'.make type start').lexeme = c :: w₁ := by
      refine lexeme_make ?_ type
      rw [hstart', htwin.right, hw, List.append_assoc]
      rfl
    rw [Token.word, Token.word, hlexeme, hlexeme']
    rfl
  twin := htwin

theorem Same.inv {o o' : Option Lexer} (h : Same x y w o o') :
    o = none ∧ o' = none ∨ ∃ cur cur' w₁ w₂, o = some cur ∧ o' = some cur' ∧ w = w₁ ++ w₂ ∧
      Plain w₁ ∧ Twin x y w₂ cur cur' := by
  cases h with
  | neither => exact .inl ⟨rfl, rfl⟩
  | both hw hplain htwin => exact .inr ⟨_, _, _, _, rfl, rfl, hw, hplain, htwin⟩

theorem plain_append {s t : Text} (hs : Plain s) (ht : Plain t) : Plain (s ++ t) := by
  intro c hc
  rcases List.mem_append.mp hc with hc | hc
  · exact hs c hc
  · exact ht c hc

include hx hy

theorem number_soft {c : UInt8} {start start' cur cur' : Lexer} (h : Twin x y w cur cur')
    (hstart : start.rest = c :: (w ++ x)) (hstart' : start'.rest = c :: (w ++ y)) :
    ∃ w₁ w₂, SameToken x y c w (number cur start) (number cur' start') w₁ w₂ := by
  obtain ⟨hnone, -⟩ | ⟨d, d', w₁, v, hd, hd', rfl, hw₁, htwin⟩ := (h.digits hx hy).inv
  · cases hnone
  -- the number so far, and whether there was a fraction
  obtain ⟨e, e', b, w₂, v, he, he', hb, hb', rfl, hw₂, htwin'⟩ : ∃ e e' b w₂ w₃,
      (fraction d).getD d = e ∧ (fraction d').getD d' = e' ∧ (fraction d).isSome = b ∧
        (fraction d').isSome = b ∧ v = w₂ ++ w₃ ∧ Plain w₂ ∧ Twin x y w₃ e e' := by
    obtain ⟨hf, hf'⟩ | ⟨e, e', w₂, w₃, hf, hf', hv, hw₂, htwin'⟩ := (htwin.fraction hx hy).inv
    · exact ⟨d, d', false, [], v, by rw [hf]; rfl, by rw [hf']; rfl, by rw [hf]; rfl,
        by rw [hf']; rfl, rfl, nofun, htwin⟩
    · exact ⟨e, e', true, w₂, w₃, by rw [hf]; rfl, by rw [hf']; rfl, by rw [hf]; rfl,
        by rw [hf']; rfl, hv, hw₂, htwin'⟩
  unfold number
  dsimp only
  rw [Option.some.inj hd, Option.some.inj hd', he, he', hb, hb']
  obtain ⟨hg, hg'⟩ | ⟨g, g', w₃, w₄, hg, hg', rfl, hw₃, htwin''⟩ := (htwin'.exponent hx hy).inv
  · rw [hg, hg']
    exact ⟨w₁ ++ w₂, v, sameToken_make (List.append_assoc _ _ _).symm (plain_append hw₁ hw₂)
      hstart hstart' htwin' _⟩
  · rw [hg, hg']
    refine ⟨w₁ ++ w₂ ++ w₃, w₄, sameToken_make ?_ (plain_append (plain_append hw₁ hw₂) hw₃)
      hstart hstart' htwin'' _⟩
    simp only [List.append_assoc]

theorem operatorAt_soft (c : UInt8) (w : Text) :
    operatorAt c (w ++ x) = operatorAt c (w ++ y) := by
  have hhead : ∀ {s : Text}, Soft s → ∀ d ∈ operatorBytes,
      (s.head? = some d.toUInt8) = False := by
    intro s hs d hd
    refine eq_false fun h => ?_
    have hws := hs _ h
    revert hws
    simp only [operatorBytes, List.mem_cons, List.not_mem_nil, or_false] at hd
    rcases hd with rfl | rfl | rfl | rfl | rfl | rfl <;> decide
  have hx₁ := hhead hx
  have hy₁ := hhead hy
  simp only [operatorBytes, List.forall_mem_cons] at hx₁ hy₁
  obtain ⟨hx₁, hx₂, hx₃, hx₄, hx₅, hx₆, -⟩ := hx₁
  obtain ⟨hy₁, hy₂, hy₃, hy₄, hy₅, hy₆, -⟩ := hy₁
  unfold operatorAt
  rcases w with _ | ⟨d, _ | ⟨e, w⟩⟩
  · simp only [List.nil_append, hx₁, hx₂, hx₃, hx₄, hx₅, hx₆, hy₁, hy₂, hy₃, hy₄, hy₅, hy₆,
      decide_false, Bool.false_eq_true, Bool.false_and, if_false]
  · simp only [List.singleton_append, List.head?_cons, List.tail_cons, hx₁, hy₁,
      hx₆, hy₆, decide_false, Bool.false_eq_true, Bool.and_false, if_false]
    rfl
  · rfl

omit hy in
/-- An operator ends with its line. -/
theorem operatorAt_line {c : UInt8} (hc : c ≠ 10) (w : Text) :
    ∃ w₁ w₂, w = w₁ ++ w₂ ∧ Plain w₁ ∧ (operatorAt c (w ++ x)).2 = w₁.length + 1 := by
  obtain ⟨-, -, hpos⟩ := operatorAt_spec c (w ++ x)
  obtain ⟨k, hk⟩ := Nat.exists_eq_succ_of_ne_zero (Nat.ne_of_gt hpos)
  have hlength := (operatorAt_take (w ++ x) hc).1
  have hrest := (operatorSpan_operatorAt c (w ++ x)).2
  rw [hk, Nat.succ_sub_one] at hrest
  rw [hk, List.length_append] at hlength
  by_cases hle : k ≤ w.length
  · rw [List.take_append_of_le_length hle] at hrest
    refine ⟨w.take k, w.drop k, (List.take_append_drop k w).symm, fun d hd => ?_, ?_⟩
    · have hops : ∀ d ∈ operatorBytes.map Char.toUInt8, d ≠ 34 ∧ d ≠ 47 :=
        forall_mem_of_all rfl
      exact hops d (hrest d hd)
    · rw [hk, List.length_take, Nat.min_eq_left hle]
  · -- it would go on with what follows the line
    cases x with
    | nil =>
      rw [List.length_nil] at hlength
      omega
    | cons d x =>
      have hmem : d ∈ (w ++ d :: x).take k := by
        obtain ⟨j, rfl⟩ := Nat.exists_eq_add_of_lt (Nat.lt_of_not_le hle)
        rw [Nat.add_assoc, List.take_length_add_append]
        exact List.mem_append_right _ List.mem_cons_self
      have hops : ∀ d ∈ operatorBytes.map Char.toUInt8, ¬ isWs d :=
        forall_mem_of_all rfl
      exact absurd (hx d rfl) (hops d (hrest d hmem))

/-- From a byte on that starts no string literal, both lexers read the same token. -/
theorem nextFrom_soft {c : UInt8} (hws : ¬ isWs c) (hquote : c ≠ 34) (w : Text) (line line' : ℕ) :
    ∃ w₁ w₂, SameToken x y c w (Lexer.nextFrom c (w ++ x) line) (Lexer.nextFrom c (w ++ y) line')
      w₁ w₂ := by
  have htwin : Twin x y w (Lexer.advance ⟨c :: (w ++ x), line⟩)
      (Lexer.advance ⟨c :: (w ++ y), line'⟩) := ⟨rfl, rfl⟩
  unfold Lexer.nextFrom
  dsimp only
  split_ifs with halpha hdigit
  · -- identifiers and keywords
    have hsoft : ∀ c, isWs c → ¬ (isAlnum c || c = 95) := by
      intro c hc
      rcases isWs_iff.mp hc with rfl | rfl | rfl | rfl <;> decide
    obtain ⟨hnone, -⟩ | ⟨d, d', w₁, w₂, hd, hd', hw, hplain, htwin'⟩ :=
      (htwin.advanceWhile hx hy (p := fun c => isAlnum c || c = 95) hsoft (by decide)
        (by decide)).inv
    · cases hnone
    unfold identifierOrKeyword
    dsimp only
    rw [Option.some.inj hd, Option.some.inj hd']
    have hsame : ∀ type, SameToken x y c w (d.make type ⟨c :: (w ++ x), line⟩, d)
        (d'.make type ⟨c :: (w ++ y), line'⟩, d') w₁ w₂ :=
      fun type => sameToken_make hw hplain rfl rfl htwin' type
    have hlexeme := congrArg Prod.snd (hsame .ident).word
    dsimp only [Token.word] at hlexeme
    rw [← hlexeme]
    exact ⟨w₁, w₂, hsame _⟩
  · exact number_soft hx hy htwin rfl rfl
  · -- operators and punctuation
    have hne : c ≠ 10 := by
      rintro rfl
      exact hws rfl
    obtain ⟨w₁, w₂, rfl, hplain, hlength⟩ := operatorAt_line hx hne w
    rw [← operatorAt_soft hx hy c]
    refine ⟨w₁, w₂, rfl, hplain, ?_, ?_, ?_⟩
    · rw [Token.word, Token.word]
      dsimp only
      rw [hlength, List.take_succ_cons, List.take_succ_cons, List.append_assoc, List.append_assoc,
        List.take_left, List.take_left]
    · show (c :: (w₁ ++ w₂ ++ x)).drop _ = w₂ ++ x
      rw [hlength, List.drop_succ_cons, List.append_assoc, List.drop_left]
    · show (c :: (w₁ ++ w₂ ++ y)).drop _ = w₂ ++ y
      rw [hlength, List.drop_succ_cons, List.append_assoc, List.drop_left]

end Soft

/-! ### All tokens -/

theorem kept_slash {ps : List Piece} (h : Laid false ps)
    (hhead : (texts ps).head? ≠ some 47 ∧ (texts ps).head? ≠ some 42) :
    Kept .slash ps ↔ Kept .code ps := by
  cases h with
  | newline hb hps => exact (lineEnd_newline hb _).slash
  | last hb => exact (lineEnd_last hb).slash
  | @byte d ps hps =>
    have h₁ : d ≠ 47 := fun hd => hhead.1 (congrArg some hd)
    have h₂ : d ≠ 42 := fun hd => hhead.2 (congrArg some hd)
    rw [kept_byte, kept_byte]
    simp [Mode.step, h₁, h₂]

/-- Behind a token that is no string literal the code goes on. -/
theorem kept_token {c : UInt8} (hquote : c ≠ 34) {w₁ w₂ : Text} (hplain : Plain w₁)
    {qs : List Piece} (hqs : Laid false qs)
    (hhead : c = 47 → (w₁ ++ w₂ ++ texts qs).head? ≠ some 47 ∧
      (w₁ ++ w₂ ++ texts qs).head? ≠ some 42) :
    Kept .code (.byte c :: (w₁ ++ w₂).map Piece.byte ++ qs) ↔
      Kept .code (w₂.map Piece.byte ++ qs) := by
  have hcode : ∀ {w : Text}, Plain w → Mode.code.run w = .code := fun hw =>
    run_of_forall fun d hd => by simp [Mode.step, hw d hd]
  rw [List.cons_append, kept_byte, List.map_append, List.append_assoc, kept_bytes]
  by_cases hc : c = 47
  · have hstep : Mode.code.step c = .slash := by
      rw [hc]
      rfl
    rw [hstep]
    cases w₁ with
    | nil =>
      refine kept_slash (laid_bytes hqs) ?_
      rw [texts_bytes]
      exact hhead hc
    | cons d w₁ =>
      have hd := hplain d List.mem_cons_self
      have hd' : d ≠ 42 := fun heq => (hhead hc).2 (congrArg some heq)
      have hstep' : Mode.slash.step d = .code := by simp [Mode.step, hd, hd']
      rw [Mode.run_cons, hstep', hcode fun e he => hplain e (List.mem_cons_of_mem d he)]
  · have hstep : Mode.code.step c = .code := by simp [Mode.step, hquote, hc]
    rw [hstep, hcode hplain]

/-- The types and lexemes of the tokens up to EOF. -/
def words (s : Text) (line : ℕ) : List (TokenType × Text) := (lexAll ⟨s, line⟩).1.map Token.word

theorem words_nil {s : Text} {line : ℕ} (h : (skipWsAndComments s line).rest = []) :
    words s line = [] := by
  have hnext : (Lexer.next ⟨s, line⟩).1.type = .eof := by
    rw [Lexer.next]
    dsimp only
    rw [h]
  rw [words, lexAll_eq, if_pos hnext]
  rfl

theorem words_cons {s t : Text} {line : ℕ} {c : UInt8}
    (h : (skipWsAndComments s line).rest = c :: t) :
    ∃ line', words s line = (Lexer.nextFrom c t line').1.word ::
      words (Lexer.nextFrom c t line').2.rest (Lexer.nextFrom c t line').2.line := by
  refine ⟨(skipWsAndComments s line).line, ?_⟩
  have hnext : Lexer.next ⟨s, line⟩ = Lexer.nextFrom c t (skipWsAndComments s line).line := by
    rw [Lexer.next]
    dsimp only
    rw [h]
  have heof := (Lexer.nextFrom_spec c t (skipWsAndComments s line).line).1
  rw [words, lexAll_eq, hnext, if_neg heof]
  rfl

/-- A string literal that is read up to `v`. -/
theorem nextFrom_quote {t u v : Text} {line : ℕ} (ht : t = u ++ v)
    (hrest : (stringBody t (lineAfter 34 line)).rest = v) :
    (Lexer.nextFrom 34 t line).1.word = (.stringLit, u) ∧
      (Lexer.nextFrom 34 t line).2.rest = v.tail := by
  have hlexeme : ((stringBody t (lineAfter 34 line)).make .stringLit
      ⟨t, lineAfter 34 line⟩).lexeme = u := lexeme_make (by rw [hrest]; exact ht) _
  constructor
  · exact congrArg (Prod.mk TokenType.stringLit) hlexeme
  · show (stringBody t (lineAfter 34 line)).advance.rest = v.tail
    rw [Lexer.advance, hrest]
    cases v with
    | nil => exact hrest
    | cons c v => rfl

/-- **The tokens from some place on.** They agree exactly when what stands in string literals
is laid out already. -/
theorem words_eq_iff {start : Bool} {ps : List Piece} (h : Laid start ps) (line line' : ℕ) :
    words (texts ps) line = words (laids ps) line' ↔ Kept .code ps := by
  induction hn : ps.length using Nat.strongRecOn generalizing start ps line line' with
  | ind n ih =>
    subst hn
    obtain ⟨qs, hqs⟩ := skip_laid h
    rw [hqs.kept]
    have hlength := hqs.length
    rcases hqs.stop with rfl | ⟨c, rs, rfl, hrs, hws, hcomment⟩
    · rw [words_nil (hqs.text line), words_nil (hqs.laid line')]
      exact iff_of_true rfl trivial
    have htext : (skipWsAndComments (texts ps) line).rest = c :: texts rs := hqs.text line
    have hlaid : (skipWsAndComments (laids ps) line').rest = c :: laids rs := hqs.laid line'
    obtain ⟨l, hl⟩ := words_cons htext
    obtain ⟨l', hl'⟩ := words_cons hlaid
    rw [hl, hl']
    by_cases hquote : c = 34
    · -- a string literal, and what follows its closing quote
      subst hquote
      obtain ⟨u, u', vs, hends⟩ := stringBody_laid hrs
      obtain ⟨hword, hrest⟩ := @nextFrom_quote _ _ _ l hends.text (hends.bodyText _)
      obtain ⟨hword', hrest'⟩ := @nextFrom_quote _ _ _ l' hends.laid (hends.bodyLaid _)
      have htail : ∀ k k', words (texts vs).tail k = words (laids vs).tail k' ↔
          Kept .string vs := by
        intro k k'
        rcases hends.stop with rfl | ⟨us, rfl, hus⟩
        · have hnil : ∀ k, words [] k = [] := fun k => words_nil (by rw [skipWsAndComments])
          exact iff_of_true ((hnil k).trans (hnil k').symm) trivial
        · have hclose : Kept .string (.byte 34 :: us) ↔ Kept .code us := kept_byte
          refine (ih us.length ?_ hus k k' rfl).trans hclose.symm
          have := hends.length
          simp only [List.length_cons] at this hlength
          omega
      have hstep : Kept .code (.byte 34 :: rs) ↔ Kept .string rs := kept_byte
      rw [hword, hword', hrest, hrest', List.cons.injEq, Prod.mk.injEq, htail, hstep, hends.kept]
      simp
    · obtain ⟨w, vs, rfl, hvs, hend⟩ := exists_lineEnd hrs
      rw [texts_bytes, laids_bytes]
      obtain ⟨w₁, w₂, hsame⟩ := nextFrom_soft hend.text hend.laid hws hquote w l l'
      obtain ⟨rfl, hplain, hword, hleft, hright⟩ := hsame
      rw [texts_bytes] at hcomment
      have hrest := ih (w₂.map Piece.byte ++ vs).length (by
        simp only [List.length_cons, List.length_append, List.length_map] at hlength ⊢
        omega) (laid_bytes hvs)
        (Lexer.nextFrom c (w₁ ++ w₂ ++ texts vs) l).2.line
        (Lexer.nextFrom c (w₁ ++ w₂ ++ laids vs) l').2.line rfl
      rw [texts_bytes, laids_bytes] at hrest
      rw [hword, hleft, hright, List.cons_inj_right, hrest]
      exact (kept_token hquote hplain hvs hcomment).symm

/-- **What formatting does to the tokens.** -/
theorem tokens_formatted_iff (source : Text) (config : FormatterConfig) :
    (tokenize (formatJaguarSource source config)).1.map Token.word
        = (tokenize source).1.map Token.word ↔
      Kept .code (layout source config) := by
  have hlaid := words_eq_iff (laid_layoutFrom config (cStr source) 0) 1 1
  have htexts := texts_layout source config
  have hlaids := laids_layout source config
  have hsource := cStr_eq_self (zero_notMem_formatJaguarSource source config)
  rw [tokenize, tokenize, Lexer.init, Lexer.init, hsource]
  rw [layout] at *
  rw [htexts, hlaids] at hlaid
  exact eq_comm.trans hlaid

/-- A string literal over two lines, of which the second is indented: its blanks go. -/
theorem formatted_string_differs :
    formatJaguarSource (txt "\"a\n  b\";") ⟨4, false⟩ = txt "\"a\nb\";\n" ∧
      (tokenize (formatJaguarSource (txt "\"a\n  b\";") ⟨4, false⟩)).1.map Token.word
        ≠ (tokenize (txt "\"a\n  b\";")).1.map Token.word := by
  have hformat : formatJaguarSource (txt "\"a\n  b\";") ⟨4, false⟩ = txt "\"a\nb\";\n" := by
    decide +kernel
  refine ⟨hformat, ?_⟩
  rw [hformat]
  decide +kernel

end Jaguar
