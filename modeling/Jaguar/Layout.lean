/-
What the formatter changes, piece by piece.

A source is cut into pieces: the bytes of its lines, which the formatter keeps, and between
them the blanks and the newlines, which it lays out anew. `Mode` says whether a piece stands
in a string literal, where every byte counts.

* `layoutFrom`, `layout` — the pieces of a source;
* `texts_layout`, `laids_layout` — **they are the source, and what the formatter writes**;
* `Mode.step` — string literals and comments, byte by byte;
* `Kept` — no piece within a string literal is laid out anew;
* `Laid` — how pieces may follow each other.
-/
import Jaguar.Formatter

namespace Jaguar

/-- A piece of a source, and what the formatter writes there. -/
structure Piece where
  text : Text
  laid : Text

/-- A byte that the formatter keeps. -/
def Piece.byte (c : UInt8) : Piece := ⟨[c], [c]⟩

def texts (ps : List Piece) : Text := ps.flatMap Piece.text

def laids (ps : List Piece) : Text := ps.flatMap Piece.laid

@[simp] theorem texts_nil : texts [] = [] := rfl

@[simp] theorem laids_nil : laids [] = [] := rfl

@[simp] theorem texts_cons (p : Piece) (ps : List Piece) : texts (p :: ps) = p.text ++ texts ps :=
  rfl

@[simp] theorem laids_cons (p : Piece) (ps : List Piece) : laids (p :: ps) = p.laid ++ laids ps :=
  rfl

@[simp] theorem texts_bytes (w : Text) (ps : List Piece) :
    texts (w.map Piece.byte ++ ps) = w ++ texts ps := by
  induction w with
  | nil => rfl
  | cons c w ih => exact congrArg (c :: ·) ih

@[simp] theorem laids_bytes (w : Text) (ps : List Piece) :
    laids (w.map Piece.byte ++ ps) = w ++ laids ps := by
  induction w with
  | nil => rfl
  | cons c w ih => exact congrArg (c :: ·) ih

/-! ### The pieces of a source -/

/-- The pieces of a line, in front of those of the rest. -/
def layoutLine (config : FormatterConfig) (level : ℤ) (lead raw newline : Text)
    (rest : ℤ → List Piece) : List Piece :=
  if trimTrailing raw = [] then ⟨lead ++ raw ++ newline, [10]⟩ :: rest level
  else ⟨lead, indentText config level (trimTrailing raw)⟩ ::
    (trimTrailing raw).map Piece.byte ++
    ⟨raw.rtakeWhile isTrailing ++ newline, [10]⟩ :: rest (levelAfter level (trimTrailing raw))

/-- The pieces of a source, from the start of a line on. -/
def layoutFrom (config : FormatterConfig) (s : Text) (level : ℤ) : List Piece :=
  match _h : s.dropWhile isBlank with
  | [] => [⟨s, []⟩]
  | c :: p =>
    layoutLine config level (s.takeWhile isBlank) ((c :: p).takeWhile (· ≠ 10))
      (((c :: p).dropWhile (· ≠ 10)).take 1)
      fun level => layoutFrom config ((c :: p).dropWhile (· ≠ 10)).tail level
termination_by s.length
decreasing_by
  have h₁ := length_dropWhile_le isBlank s
  have h₂ := length_dropWhile_le (· ≠ 10) (c :: p)
  simp only [_h, List.length_cons, List.length_tail] at h₁ h₂ ⊢
  omega

def layout (source : Text) (config : FormatterConfig) : List Piece :=
  layoutFrom config (cStr source) 0

theorem layoutFrom_blank (config : FormatterConfig) {s : Text} (h : ∀ c ∈ s, isBlank c)
    (level : ℤ) : layoutFrom config s level = [⟨s, []⟩] := by
  have hdrop : s.dropWhile isBlank = [] := List.dropWhile_eq_nil_iff.mpr h
  rw [layoutFrom]
  split
  · rfl
  · next c p heq =>
    rw [hdrop] at heq
    cases heq

theorem layoutFrom_line (config : FormatterConfig) {lead raw : Text} (h : IsLine lead raw)
    (rest : Text) (level : ℤ) :
    layoutFrom config (lead ++ raw ++ 10 :: rest) level
      = layoutLine config level lead raw [10] (layoutFrom config rest) := by
  have hhead := h.head_append rest
  have hdrop := h.dropWhile hhead
  have htake := h.takeWhile hhead
  rw [layoutFrom]
  split
  · next heq =>
    rw [hdrop] at heq
    simp at heq
  · next c p heq =>
    rw [hdrop] at heq
    rw [← heq, h.takeWhile_newline, h.dropWhile_newline, htake]
    rfl

theorem layoutFrom_last (config : FormatterConfig) {lead raw : Text} (h : IsLine lead raw)
    (hraw : raw ≠ []) (level : ℤ) :
    layoutFrom config (lead ++ raw) level
      = layoutLine config level lead raw [] fun _ => [⟨[], []⟩] := by
  have hhead : ∀ c ∈ (raw ++ []).head?, ¬ isBlank c := by
    rw [List.append_nil]
    exact h.head
  have hdrop := h.dropWhile hhead
  have htake := h.takeWhile hhead
  rw [List.append_nil, List.append_nil] at hdrop
  rw [List.append_nil] at htake
  have hnil : layoutFrom config [] = fun _ => [⟨[], []⟩] :=
    funext fun level => layoutFrom_blank config (s := []) nofun level
  rw [layoutFrom]
  split
  · next heq => exact absurd (hdrop.symm.trans heq) hraw
  · next c p heq =>
    rw [hdrop] at heq
    rw [← heq, h.takeWhile_last, h.dropWhile_last, htake]
    dsimp only [List.tail_nil]
    rw [hnil]
    rfl

/-! ### The source and what is written -/

theorem texts_layoutLine (config : FormatterConfig) (level : ℤ) (lead raw newline t : Text)
    {rest : ℤ → List Piece} (hrest : ∀ level, texts (rest level) = t) :
    texts (layoutLine config level lead raw newline rest) = lead ++ raw ++ newline ++ t := by
  unfold layoutLine
  split_ifs with hnil
  · rw [texts_cons, hrest]
  · have hraw : trimTrailing raw ++ raw.rtakeWhile isTrailing = raw :=
      List.rdropWhile_append_rtakeWhile
    rw [List.cons_append, texts_cons, texts_bytes, texts_cons, hrest]
    simp only [← List.append_assoc]
    rw [List.append_assoc lead, hraw]

theorem laids_layoutLine (config : FormatterConfig) (level : ℤ) (lead raw newline : Text)
    {rest : ℤ → List Piece} {t : ℤ → Text} (hrest : ∀ level, laids (rest level) = t level) :
    laids (layoutLine config level lead raw newline rest) = formatLine config level raw t := by
  unfold layoutLine formatLine
  split_ifs with hnil
  · rw [laids_cons, hrest]
    rfl
  · rw [List.cons_append, laids_cons, laids_bytes, laids_cons, hrest, ← List.append_assoc]
    rfl

theorem texts_layoutFrom (config : FormatterConfig) (s : Text) (level : ℤ) :
    texts (layoutFrom config s level) = s := by
  induction hn : s.length using Nat.strongRecOn generalizing s level with
  | ind n ih =>
    subst hn
    rcases line_cases s with hblank | ⟨lead, raw, rest, rfl, hline⟩ | ⟨lead, raw, rfl, hline, hraw⟩
    · rw [layoutFrom_blank config hblank, texts_cons, texts_nil, List.append_nil]
    · have hrest : ∀ level, texts (layoutFrom config rest level) = rest := by
        refine fun level => ih _ ?_ rest level rfl
        simp only [List.length_append, List.length_cons]
        omega
      rw [layoutFrom_line config hline, texts_layoutLine config level lead raw [10] rest hrest,
        List.append_assoc (lead ++ raw)]
      rfl
    · rw [layoutFrom_last config hline hraw, texts_layoutLine config level lead raw [] [] fun _ => rfl,
        List.append_nil, List.append_nil]

theorem laids_layoutFrom (config : FormatterConfig) (s : Text) (level : ℤ) :
    laids (layoutFrom config s level) = formatFrom config s level := by
  induction hn : s.length using Nat.strongRecOn generalizing s level with
  | ind n ih =>
    subst hn
    rcases line_cases s with hblank | ⟨lead, raw, rest, rfl, hline⟩ | ⟨lead, raw, rfl, hline, hraw⟩
    · rw [layoutFrom_blank config hblank, formatFrom_blank config hblank]
      rfl
    · rw [layoutFrom_line config hline, formatFrom_line config hline]
      refine laids_layoutLine config level lead raw [10] fun level => ih _ ?_ rest level rfl
      simp only [List.length_append, List.length_cons]
      omega
    · rw [layoutFrom_last config hline hraw, formatFrom_last config hline hraw]
      exact laids_layoutLine config level lead raw [] fun _ => rfl

/-- **The pieces are the source.** -/
theorem texts_layout (source : Text) (config : FormatterConfig) :
    texts (layout source config) = cStr source := texts_layoutFrom config _ _

/-- **They are laid out as the formatter writes them.** -/
theorem laids_layout (source : Text) (config : FormatterConfig) :
    laids (layout source config) = formatJaguarSource source config := laids_layoutFrom config _ _

/-! ### String literals -/

/-- Where a byte stands: in the code, behind a slash of it, in a string literal, behind a
backslash there, in a comment, or in a block comment behind a star. -/
inductive Mode
  | code | slash | string | escape | lineComment | blockComment | star
  deriving DecidableEq

/-- The mode behind a byte. -/
def Mode.step : Mode → UInt8 → Mode
  | .code, c => if c = 34 then .string else if c = 47 then .slash else .code
  | .slash, c =>
    if c = 34 then .string else if c = 47 then .lineComment else if c = 42 then .blockComment
    else .code
  | .string, c => if c = 34 then .code else if c = 92 then .escape else .string
  | .escape, _ => .string
  | .lineComment, c => if c = 10 then .code else .lineComment
  | .blockComment, c => if c = 42 then .star else .blockComment
  | .star, c => if c = 47 then .code else if c = 42 then .star else .blockComment

def Mode.run (m : Mode) (s : Text) : Mode := s.foldl Mode.step m

@[simp] theorem Mode.run_nil (m : Mode) : m.run [] = m := rfl

@[simp] theorem Mode.run_cons (m : Mode) (c : UInt8) (s : Text) :
    m.run (c :: s) = (m.step c).run s := rfl

def Mode.inString : Mode → Bool
  | .string | .escape => true
  | _ => false

/-- What stands within a string literal is already laid out. -/
def Kept : Mode → List Piece → Prop
  | _, [] => True
  | m, p :: ps => (m.inString → p.text = p.laid) ∧ Kept (m.run p.text) ps

@[simp] theorem kept_nil (m : Mode) : Kept m [] := trivial

@[simp] theorem kept_byte {m : Mode} {c : UInt8} {ps : List Piece} :
    Kept m (.byte c :: ps) ↔ Kept (m.step c) ps :=
  ⟨fun h => h.2, fun h => ⟨fun _ => rfl, h⟩⟩

theorem kept_bytes {m : Mode} {w : Text} {ps : List Piece} :
    Kept m (w.map Piece.byte ++ ps) ↔ Kept (m.run w) ps := by
  induction w generalizing m with
  | nil => rfl
  | cons c w ih => exact kept_byte.trans ih

/-- Whitespace, as the lexer skips it. -/
def isWs (c : UInt8) : Bool := c = 32 || c = 9 || c = 13 || c = 10

theorem isWs_of_isBlank {c : UInt8} (h : isBlank c) : isWs c := by
  simp only [isBlank, Bool.or_eq_true, decide_eq_true_eq] at h
  rcases h with rfl | rfl <;> rfl

theorem isWs_of_isTrailing {c : UInt8} (h : isTrailing c) : isWs c := by
  simp only [isTrailing, Bool.or_eq_true, decide_eq_true_eq] at h
  rcases h with (rfl | rfl) | rfl <;> rfl

/-- The pieces from some place on, at the start of a line or within it. -/
inductive Laid : Bool → List Piece → Prop
  /-- The end, with blanks that are left out. -/
  | drop {l : Text} : (∀ c ∈ l, isBlank c) → Laid true [⟨l, []⟩]
  /-- The blanks in front of a line. -/
  | lead {l indent : Text} {c : UInt8} {ps : List Piece} : (∀ c ∈ l, isBlank c) →
      (∀ c ∈ indent, isBlank c) → ¬ isBlank c → Laid false (.byte c :: ps) →
      Laid true (⟨l, indent⟩ :: .byte c :: ps)
  /-- The blanks behind a line, or a line of blanks, and the newline. -/
  | newline {start : Bool} {b : Text} {ps : List Piece} : (∀ c ∈ b, isTrailing c) →
      Laid true ps → Laid start (⟨b ++ [10], [10]⟩ :: ps)
  /-- The same for a last line without newline. -/
  | last {start : Bool} {b : Text} : (∀ c ∈ b, isTrailing c) →
      Laid start [⟨b, [10]⟩, ⟨[], []⟩]
  | byte {c : UInt8} {ps : List Piece} : Laid false ps → Laid false (.byte c :: ps)

theorem laid_bytes {w : Text} {ps : List Piece} (h : Laid false ps) :
    Laid false (w.map Piece.byte ++ ps) := by
  induction w with
  | nil => exact h
  | cons c w ih => exact .byte ih

theorem laid_layoutLine (config : FormatterConfig) (level : ℤ) {lead raw newline : Text}
    (h : IsLine lead raw) {rest : ℤ → List Piece}
    (hrest : ∀ b level, (∀ c ∈ b, isTrailing c) → ∀ start,
      Laid start (⟨b ++ newline, [10]⟩ :: rest level)) :
    Laid true (layoutLine config level lead raw newline rest) := by
  have hblank : ∀ c ∈ lead, isTrailing c := by
    intro c hc
    have hc := h.blank c hc
    simp only [isBlank, Bool.or_eq_true, decide_eq_true_eq] at hc
    rcases hc with rfl | rfl <;> rfl
  have htrail : ∀ c ∈ raw.rtakeWhile isTrailing, isTrailing c :=
    fun c hc => List.mem_rtakeWhile_imp hc
  unfold layoutLine
  split_ifs with hnil
  · refine hrest _ level (fun c hc => ?_) true
    rcases List.mem_append.mp hc with hc | hc
    · exact hblank c hc
    · exact List.rdropWhile_eq_nil_iff.mp hnil c hc
  · obtain ⟨c, w, hw⟩ := List.exists_cons_of_ne_nil hnil
    have hline := isLine_indentText config h level
    have htail := hrest (raw.rtakeWhile isTrailing) (levelAfter level (trimTrailing raw)) htrail
      false
    rw [hw] at hline htail ⊢
    exact .lead h.blank hline.blank (hline.head c rfl) (.byte (laid_bytes htail))

theorem laid_layoutFrom (config : FormatterConfig) (s : Text) (level : ℤ) :
    Laid true (layoutFrom config s level) := by
  induction hn : s.length using Nat.strongRecOn generalizing s level with
  | ind n ih =>
    subst hn
    rcases line_cases s with hblank | ⟨lead, raw, rest, rfl, hline⟩ | ⟨lead, raw, rfl, hline, hraw⟩
    · rw [layoutFrom_blank config hblank]
      exact .drop hblank
    · rw [layoutFrom_line config hline]
      refine laid_layoutLine config level hline fun b level hb start => .newline hb (ih _ ?_ rest
        level rfl)
      simp only [List.length_append, List.length_cons]
      omega
    · rw [layoutFrom_last config hline hraw]
      refine laid_layoutLine config level hline fun b level hb start => ?_
      rw [List.append_nil]
      exact .last hb

end Jaguar
