/-
The code formatter (`formatter.c`).

`format_jaguar_source` goes through the source line by line: it drops the blanks around a
line and indents what is left by the level that the braces of the lines before it give. The
length of a line is an `int` there: the lines are shorter than `2 ^ 31` bytes.

* `formatFrom`, `formatJaguarSource` — `format_jaguar_source`, from the start of a line on;
* `jagFmtFile` — `jag_fmt_file`;
* `line_cases` — the line that a source starts with;
* `format_idempotent` — **formatting twice is formatting once**, and so a file that
  `jag fmt --write` has written passes `jag fmt --check`;
* `format_keeps_lines` — **no line is lost, merged or doubled**, but for the blanks around it.
-/
import Jaguar.Bytes
import Mathlib.Data.List.DropRight

namespace Jaguar

structure FormatterConfig where
  indentWidth : ℤ
  useTabs : Bool

/-! ### A line -/

/-- What is skipped in front of a line. -/
def isBlank (c : UInt8) : Bool := c = 32 || c = 9

/-- What is trimmed behind a line. -/
def isTrailing (c : UInt8) : Bool := c = 32 || c = 9 || c = 13

def trimTrailing (line : Text) : Text := line.rdropWhile isTrailing

/-- The number of closing braces in front of everything else. -/
def leadingClose : Text → ℤ
  | [] => 0
  | c :: s => if c = 125 then leadingClose s + 1 else if isSpace c then leadingClose s else 0

/-- The opening braces of a line, less its closing ones, outside of its strings; `prev` is the
character before. -/
def netBraces (prev : Option UInt8) (inStr : Bool) : Text → ℤ
  | [] => 0
  | c :: s =>
    let inStr := if c = 34 ∧ prev ≠ some 92 then !inStr else inStr
    (if inStr then 0 else if c = 123 then 1 else if c = 125 then -1 else 0)
      + netBraces (some c) inStr s

/-- The spaces or tabs that go in front of a line. -/
def indentText (config : FormatterConfig) (level : ℤ) (line : Text) : Text :=
  let indentWidth := if 0 < config.indentWidth then config.indentWidth else 4
  let effIndent := if level - leadingClose line < 0 then 0 else level - leadingClose line
  List.replicate (effIndent * indentWidth).toNat (if config.useTabs then 9 else 32)

/-- `indent_level` behind a line. -/
def levelAfter (level : ℤ) (line : Text) : ℤ :=
  if level + netBraces none false line < 0 then 0 else level + netBraces none false line

/-! ### The source -/

theorem length_dropWhile_le (p : UInt8 → Bool) (s : Text) : (s.dropWhile p).length ≤ s.length :=
  (List.dropWhile_suffix p).length_le

/-- The loop of `format_jaguar_source`, from the start of a line on. -/
def formatFrom (config : FormatterConfig) (s : Text) (level : ℤ) : Text :=
  match _h : s.dropWhile isBlank with
  | [] => []
  | c :: p =>
    let line := trimTrailing ((c :: p).takeWhile (· ≠ 10))
    let rest := ((c :: p).dropWhile (· ≠ 10)).tail
    if line = [] then 10 :: formatFrom config rest level
    else indentText config level line ++ line ++
      10 :: formatFrom config rest (levelAfter level line)
termination_by s.length
decreasing_by
  all_goals
    have h₁ := length_dropWhile_le isBlank s
    have h₂ := length_dropWhile_le (· ≠ 10) (c :: p)
    simp only [_h, List.length_cons, List.length_tail] at h₁ h₂ ⊢
    omega

def formatJaguarSource (source : Text) (config : FormatterConfig) : Text :=
  formatFrom config (cStr source) 0

/-- What `jag_fmt_file` returns, what it leaves in the file, and what it prints. -/
structure FmtResult where
  exitCode : ℕ
  file : Option Text
  output : Text

/-- `jag_fmt_file`, on the contents of the file; `writable` tells whether it can be opened for
writing. -/
def jagFmtFile (filepath : Text) (file : Option Text) (writable checkOnly writeInPlace : Bool)
    (config : FormatterConfig) : FmtResult :=
  match file with
  | none => ⟨1, none, []⟩
  | some buf =>
    let formatted := formatJaguarSource buf config
    let isDiff : Bool := cStr buf ≠ formatted
    if checkOnly then
      if isDiff then ⟨1, some buf, filepath ++ txt ": requires formatting\n"⟩ else ⟨0, some buf, []⟩
    else if writeInPlace && isDiff then
      if writable then ⟨0, some formatted, filepath ++ txt ": formatted\n"⟩ else ⟨0, some buf, []⟩
    else if !writeInPlace then ⟨0, some buf, formatted⟩
    else ⟨0, some buf, []⟩

/-! ### Line by line -/

/-- A line without its newline: blanks, and text that does not start with a blank. -/
structure IsLine (lead raw : Text) : Prop where
  blank : ∀ c ∈ lead, isBlank c
  head : ∀ c ∈ raw.head?, ¬ isBlank c
  oneLine : 10 ∉ raw

namespace IsLine

variable {lead raw : Text}

theorem dropWhile (h : IsLine lead raw) {s : Text} (hs : ∀ c ∈ (raw ++ s).head?, ¬ isBlank c) :
    (lead ++ raw ++ s).dropWhile isBlank = raw ++ s := by
  rw [List.append_assoc, List.dropWhile_append_of_pos h.blank]
  cases hraw : raw ++ s with
  | nil => rfl
  | cons c t =>
    rw [hraw] at hs
    exact List.dropWhile_cons_of_neg (hs c rfl)

theorem takeWhile (h : IsLine lead raw) {s : Text} (hs : ∀ c ∈ (raw ++ s).head?, ¬ isBlank c) :
    (lead ++ raw ++ s).takeWhile isBlank = lead := by
  rw [List.append_assoc, List.takeWhile_append_of_pos h.blank]
  cases hraw : raw ++ s with
  | nil => exact List.append_nil lead
  | cons c t =>
    rw [hraw] at hs
    rw [List.takeWhile_cons_of_neg (hs c rfl), List.append_nil]

theorem head_append (h : IsLine lead raw) (rest : Text) :
    ∀ c ∈ (raw ++ 10 :: rest).head?, ¬ isBlank c := by
  intro c hc
  cases raw with
  | nil =>
    obtain rfl := Option.some.inj hc
    decide
  | cons d raw => exact h.head c hc

theorem takeWhile_newline (h : IsLine lead raw) (rest : Text) :
    (raw ++ 10 :: rest).takeWhile (· ≠ 10) = raw := by
  rw [List.takeWhile_append_of_pos fun c hc => ?_]
  · rw [List.takeWhile_cons_of_neg (by decide), List.append_nil]
  · exact decide_eq_true fun heq => h.oneLine (heq ▸ hc)

theorem dropWhile_newline (h : IsLine lead raw) (rest : Text) :
    (raw ++ 10 :: rest).dropWhile (· ≠ 10) = 10 :: rest := by
  rw [List.dropWhile_append_of_pos fun c hc => ?_]
  · exact List.dropWhile_cons_of_neg (by decide)
  · exact decide_eq_true fun heq => h.oneLine (heq ▸ hc)

theorem takeWhile_last (h : IsLine lead raw) : raw.takeWhile (· ≠ 10) = raw :=
  List.takeWhile_eq_self_iff.mpr fun _ hc => decide_eq_true fun heq => h.oneLine (heq ▸ hc)

theorem dropWhile_last (h : IsLine lead raw) : raw.dropWhile (· ≠ 10) = [] :=
  List.dropWhile_eq_nil_iff.mpr fun _ hc => decide_eq_true fun heq => h.oneLine (heq ▸ hc)

end IsLine

/-- The line that a source starts with: nothing but blanks, or a line and the rest, or the
last line. -/
theorem line_cases (s : Text) :
    (∀ c ∈ s, isBlank c) ∨
      (∃ lead raw rest, s = lead ++ raw ++ 10 :: rest ∧ IsLine lead raw) ∨
      ∃ lead raw, s = lead ++ raw ∧ IsLine lead raw ∧ raw ≠ [] := by
  set lead := s.takeWhile isBlank with hlead
  set t := s.dropWhile isBlank with ht
  have hs : s = lead ++ t := List.takeWhile_append_dropWhile.symm
  have hblank : ∀ c ∈ lead, isBlank c := fun c hc => List.mem_takeWhile_imp hc
  have hhead : ∀ c ∈ t.head?, ¬ isBlank c := by
    intro c hc
    have hnot := List.head?_dropWhile_not isBlank s
    rw [← ht, hc] at hnot
    simpa using hnot
  by_cases hnewline : 10 ∈ t
  · obtain ⟨raw, rest, heq, hraw⟩ := List.eq_append_cons_of_mem hnewline
    refine .inr (.inl ⟨lead, raw, rest, ?_, hblank, fun c hc => hhead c ?_, hraw⟩)
    · rw [hs, heq, List.append_assoc]
    · obtain ⟨r, rfl⟩ := List.head?_eq_some_iff.mp hc
      rw [heq]
      rfl
  · by_cases ht' : t = []
    · refine .inl fun c hc => hblank c ?_
      rwa [hs, ht', List.append_nil] at hc
    · exact .inr (.inr ⟨lead, t, hs, ⟨hblank, hhead, hnewline⟩, ht'⟩)

/-- A line that is formatted, in front of what the rest of the source is formatted to. -/
def formatLine (config : FormatterConfig) (level : ℤ) (raw : Text) (rest : ℤ → Text) : Text :=
  if trimTrailing raw = [] then 10 :: rest level
  else indentText config level (trimTrailing raw) ++ trimTrailing raw ++
    10 :: rest (levelAfter level (trimTrailing raw))

theorem formatFrom_blank (config : FormatterConfig) {s : Text} (h : ∀ c ∈ s, isBlank c)
    (level : ℤ) : formatFrom config s level = [] := by
  have hdrop : s.dropWhile isBlank = [] := List.dropWhile_eq_nil_iff.mpr h
  rw [formatFrom]
  split
  · rfl
  · next c p heq =>
    rw [hdrop] at heq
    cases heq

theorem formatFrom_line (config : FormatterConfig) {lead raw : Text} (h : IsLine lead raw)
    (rest : Text) (level : ℤ) :
    formatFrom config (lead ++ raw ++ 10 :: rest) level
      = formatLine config level raw (formatFrom config rest) := by
  have hdrop := h.dropWhile (h.head_append rest)
  rw [formatFrom]
  split
  · next heq =>
    rw [hdrop] at heq
    simp at heq
  · next c p heq =>
    rw [hdrop] at heq
    rw [← heq, h.takeWhile_newline, h.dropWhile_newline]
    rfl

theorem formatFrom_last (config : FormatterConfig) {lead raw : Text} (h : IsLine lead raw)
    (hraw : raw ≠ []) (level : ℤ) :
    formatFrom config (lead ++ raw) level = formatLine config level raw fun _ => [] := by
  have hdrop := h.dropWhile (s := []) (by rw [List.append_nil]; exact h.head)
  rw [List.append_nil, List.append_nil] at hdrop
  have hnil : formatFrom config [] = fun _ => [] :=
    funext fun level => formatFrom_blank config (s := []) nofun level
  rw [formatFrom]
  split
  · next heq => exact absurd (hdrop.symm.trans heq) hraw
  · next c p heq =>
    rw [hdrop] at heq
    rw [← heq, h.takeWhile_last, h.dropWhile_last]
    dsimp only [List.tail_nil]
    rw [hnil]
    rfl

/-! ### Idempotence -/

theorem isLine_indentText (config : FormatterConfig) {lead raw : Text} (h : IsLine lead raw)
    (level : ℤ) : IsLine (indentText config level (trimTrailing raw)) (trimTrailing raw) where
  blank c hc := by
    obtain rfl := List.eq_of_mem_replicate hc
    cases config.useTabs <;> rfl
  head c hc := by
    obtain ⟨r, hr⟩ := List.head?_eq_some_iff.mp hc
    have hpre : trimTrailing raw <+: raw := List.rdropWhile_prefix isTrailing raw
    rw [hr] at hpre
    obtain ⟨t, rfl⟩ := hpre
    exact h.head c rfl
  oneLine hmem := h.oneLine ((List.rdropWhile_prefix isTrailing raw).subset hmem)

/-- A line that is formatted is a line again, and formats to itself. -/
theorem formatFrom_formatLine (config : FormatterConfig) {lead raw : Text} (h : IsLine lead raw)
    (level : ℤ) (rest : ℤ → Text) :
    formatFrom config (formatLine config level raw rest) level
      = formatLine config level raw fun level => formatFrom config (rest level) level := by
  have htrim : trimTrailing (trimTrailing raw) = trimTrailing raw :=
    List.rdropWhile_idempotent isTrailing raw
  unfold formatLine
  split_ifs with hnil
  · have hempty : IsLine [] [] := ⟨nofun, nofun, List.not_mem_nil⟩
    exact formatFrom_line config hempty (rest level) level
  · rw [formatFrom_line config (isLine_indentText config h level), formatLine, htrim, if_neg hnil]

theorem formatFrom_formatFrom (config : FormatterConfig) (s : Text) (level : ℤ) :
    formatFrom config (formatFrom config s level) level = formatFrom config s level := by
  induction hn : s.length using Nat.strongRecOn generalizing s level with
  | ind n ih =>
    subst hn
    rcases line_cases s with hblank | ⟨lead, raw, rest, rfl, hline⟩ | ⟨lead, raw, rfl, hline, hraw⟩
    · rw [formatFrom_blank config hblank, formatFrom_blank config (s := []) nofun]
    · have hrest : ∀ level, formatFrom config (formatFrom config rest level) level
          = formatFrom config rest level := by
        refine fun level => ih _ ?_ rest level rfl
        simp only [List.length_append, List.length_cons]
        omega
      rw [formatFrom_line config hline, formatFrom_formatLine config hline, funext hrest]
    · have hnil : (fun level => formatFrom config [] level) = fun _ => [] :=
        funext fun level => formatFrom_blank config (s := []) nofun level
      rw [formatFrom_last config hline hraw, formatFrom_formatLine config hline, hnil]

/-- What is written holds no NUL, as the source does not. -/
theorem zero_notMem_formatFrom (config : FormatterConfig) {s : Text} (h : 0 ∉ s) (level : ℤ) :
    0 ∉ formatFrom config s level := by
  have hformat : ∀ {raw : Text} {rest : ℤ → Text}, 0 ∉ raw → (∀ level, 0 ∉ rest level) →
      ∀ level, 0 ∉ formatLine config level raw rest := by
    intro raw rest hraw hrest level hmem
    unfold formatLine at hmem
    have hnewline : (0 : UInt8) ≠ 10 := by decide
    split_ifs at hmem
    · rcases List.mem_cons.mp hmem with heq | hmem
      · exact hnewline heq
      · exact hrest _ hmem
    · rcases List.mem_append.mp hmem with hmem | hmem
      · rcases List.mem_append.mp hmem with hmem | hmem
        · have heq := List.eq_of_mem_replicate hmem
          cases htabs : config.useTabs <;> simp [htabs] at heq
        · exact hraw ((List.rdropWhile_prefix isTrailing raw).subset hmem)
      · rcases List.mem_cons.mp hmem with heq | hmem
        · exact hnewline heq
        · exact hrest _ hmem
  induction hn : s.length using Nat.strongRecOn generalizing s level with
  | ind n ih =>
    subst hn
    rcases line_cases s with hblank | ⟨lead, raw, rest, rfl, hline⟩ | ⟨lead, raw, rfl, hline, hraw⟩
    · rw [formatFrom_blank config hblank]
      exact List.not_mem_nil
    · rw [formatFrom_line config hline]
      simp only [List.mem_append, List.mem_cons, not_or] at h
      refine hformat h.1.2 (fun level => ih _ ?_ h.2.2 level rfl) level
      simp only [List.length_append, List.length_cons]
      omega
    · rw [formatFrom_last config hline hraw]
      rw [List.mem_append, not_or] at h
      exact hformat h.2 (fun _ => List.not_mem_nil) level

theorem zero_notMem_formatJaguarSource (source : Text) (config : FormatterConfig) :
    0 ∉ formatJaguarSource source config :=
  zero_notMem_formatFrom config (fun h => absurd (List.mem_takeWhile_imp h) (by decide)) 0

theorem formatJaguarSource_idempotent (source : Text) (config : FormatterConfig) :
    formatJaguarSource (formatJaguarSource source config) config
      = formatJaguarSource source config := by
  have hformatted := zero_notMem_formatJaguarSource source config
  rw [formatJaguarSource, cStr_eq_self hformatted, formatJaguarSource, formatFrom_formatFrom]

theorem exitCode_check (filepath : Text) (buf : Text) (writable writeInPlace : Bool)
    (config : FormatterConfig) :
    (jagFmtFile filepath (some buf) writable true writeInPlace config).exitCode = 0 ↔
      cStr buf = formatJaguarSource buf config := by
  rw [jagFmtFile]
  by_cases heq : cStr buf = formatJaguarSource buf config
  · simp [heq]
  · simp [heq]

/-- **Formatting is idempotent.** A file that was written back holds the formatted text, and
passes the check, whatever was in it. -/
theorem format_idempotent (source filepath : Text) (config : FormatterConfig)
    (checkWritable checkInPlace : Bool) :
    formatJaguarSource (formatJaguarSource source config) config
        = formatJaguarSource source config ∧
      (jagFmtFile filepath (some source) true false true config).file.map cStr
        = some (formatJaguarSource source config) ∧
      (jagFmtFile filepath (jagFmtFile filepath (some source) true false true config).file
        checkWritable true checkInPlace config).exitCode = 0 := by
  have hidem := formatJaguarSource_idempotent source config
  refine ⟨hidem, ?_⟩
  by_cases heq : cStr source = formatJaguarSource source config
  · -- nothing is written
    have hfile : (jagFmtFile filepath (some source) true false true config).file = some source := by
      simp [jagFmtFile, heq]
    rw [hfile, exitCode_check]
    exact ⟨congrArg some heq, heq⟩
  · have hfile : (jagFmtFile filepath (some source) true false true config).file
        = some (formatJaguarSource source config) := by
      simp [jagFmtFile, heq]
    have hwhole := cStr_eq_self (zero_notMem_formatJaguarSource source config)
    rw [hfile, exitCode_check, hidem]
    exact ⟨congrArg some hwhole, hwhole⟩

/-! ### The lines -/

/-- The lines that end in a newline, and what stands behind the last newline. -/
def splitLines : Text → List Text × Text
  | [] => ([], [])
  | c :: s =>
    let (lines, last) := splitLines s
    if c = 10 then ([] :: lines, last)
    else
      match lines with
      | [] => ([], c :: last)
      | line :: lines => ((c :: line) :: lines, last)

theorem splitLines_last {line : Text} (h : 10 ∉ line) : splitLines line = ([], line) := by
  induction line with
  | nil => rfl
  | cons c line ih =>
    rw [List.mem_cons, not_or] at h
    rw [splitLines, ih h.2]
    exact if_neg fun hc => h.1 hc.symm

theorem splitLines_line {line : Text} (h : 10 ∉ line) (s : Text) :
    splitLines (line ++ 10 :: s) = (line :: (splitLines s).1, (splitLines s).2) := by
  induction line with
  | nil => rfl
  | cons c line ih =>
    rw [List.mem_cons, not_or] at h
    rw [List.cons_append, splitLines, ih h.2]
    exact if_neg fun hc => h.1 hc.symm

/-- A line without the blanks around it. -/
def stripLine (line : Text) : Text := trimTrailing (line.dropWhile isBlank)

theorem IsLine.stripLine {lead raw : Text} (h : IsLine lead raw) :
    stripLine (lead ++ raw) = trimTrailing raw := by
  have hdrop := h.dropWhile (s := []) (by rw [List.append_nil]; exact h.head)
  rw [List.append_nil, List.append_nil] at hdrop
  rw [Jaguar.stripLine, hdrop]

theorem IsLine.newline_notMem {lead raw : Text} (h : IsLine lead raw) : 10 ∉ lead ++ raw := by
  intro hmem
  rcases List.mem_append.mp hmem with hlead | hraw
  · exact absurd (h.blank 10 hlead) (by decide)
  · exact h.oneLine hraw

/-- The lines of a source, without a last one that no newline ends and that is blank. -/
def codeLines (s : Text) : List Text :=
  (splitLines s).1 ++ if (splitLines s).2.all isBlank then [] else [(splitLines s).2]

theorem codeLines_line {line : Text} (h : 10 ∉ line) (s : Text) :
    codeLines (line ++ 10 :: s) = line :: codeLines s := by
  unfold codeLines
  rw [splitLines_line h, List.cons_append]

/-- A line that is formatted is one line of what is written, and strips to the same. -/
theorem splitLines_formatLine (config : FormatterConfig) {lead raw : Text} (h : IsLine lead raw)
    (level : ℤ) (rest : ℤ → Text) :
    ∃ line level', splitLines (formatLine config level raw rest)
        = (line :: (splitLines (rest level')).1, (splitLines (rest level')).2) ∧
      stripLine line = stripLine (lead ++ raw) := by
  rw [h.stripLine]
  unfold formatLine
  split_ifs with hnil
  · exact ⟨[], level, splitLines_line List.not_mem_nil _, hnil.symm⟩
  · have hout := isLine_indentText config h level
    refine ⟨_, _, splitLines_line hout.newline_notMem _, ?_⟩
    rw [hout.stripLine]
    exact List.rdropWhile_idempotent isTrailing raw

theorem splitLines_formatFrom (config : FormatterConfig) (s : Text) (level : ℤ) :
    (splitLines (formatFrom config s level)).2 = [] ∧
      (splitLines (formatFrom config s level)).1.map stripLine = (codeLines s).map stripLine := by
  induction hn : s.length using Nat.strongRecOn generalizing s level with
  | ind n ih =>
    subst hn
    rcases line_cases s with hblank | ⟨lead, raw, rest, rfl, hline⟩ | ⟨lead, raw, rfl, hline, hraw⟩
    · -- nothing is written for what is blank up to the end
      have hnewline : 10 ∉ s := fun hmem => absurd (hblank 10 hmem) (by decide)
      have hlines : codeLines s = [] := by
        unfold codeLines
        rw [splitLines_last hnewline, if_pos (List.all_eq_true.mpr hblank)]
        rfl
      rw [formatFrom_blank config hblank, hlines]
      exact ⟨rfl, rfl⟩
    · obtain ⟨line, level', hsplit, hstrip⟩ :=
        splitLines_formatLine config hline level (formatFrom config rest)
      obtain ⟨hlast, hlines⟩ := ih rest.length
        (by simp only [List.length_append, List.length_cons]; omega) rest level' rfl
      rw [formatFrom_line config hline, hsplit, codeLines_line hline.newline_notMem]
      refine ⟨hlast, ?_⟩
      rw [List.map_cons, List.map_cons, hstrip, hlines]
    · obtain ⟨line, level', hsplit, hstrip⟩ :=
        splitLines_formatLine config hline level fun _ => []
      have hlines : codeLines (lead ++ raw) = [lead ++ raw] := by
        have hnot : ¬ (lead ++ raw).all isBlank = true := by
          intro hall
          cases raw with
          | nil => exact hraw rfl
          | cons c raw =>
            exact hline.head c rfl (List.all_eq_true.mp hall c (by simp))
        unfold codeLines
        rw [splitLines_last hline.newline_notMem, if_neg hnot]
        rfl
      rw [formatFrom_last config hline hraw, hsplit, hlines]
      refine ⟨rfl, ?_⟩
      rw [List.map_cons, hstrip]
      rfl

/-- **Formatting loses no code.** Every line of the output ends in a newline, and without the
blanks around them its lines are those of the source, one for one, but for a blank rest behind
the last newline. -/
theorem format_keeps_lines (source : Text) (config : FormatterConfig) (h : 0 ∉ source) :
    (splitLines (formatJaguarSource source config)).2 = [] ∧
      (splitLines (formatJaguarSource source config)).1.map stripLine
        = ((splitLines source).1 ++
          if (splitLines source).2.all isBlank then [] else [(splitLines source).2]).map
            stripLine := by
  unfold formatJaguarSource
  rw [cStr_eq_self h]
  exact splitLines_formatFrom config source 0

/-- A function of three lines, the last of which is not ended. -/
theorem format_keeps_lines_unended :
    (splitLines (formatJaguarSource (txt "fun f() \x7b\r\n\treturn 1;  \n\x7d ") ⟨2, false⟩)).1.map
        stripLine = [txt "fun f() \x7b", txt "return 1;", txt "\x7d"] := by
  have hlines := (format_keeps_lines (txt "fun f() \x7b\r\n\treturn 1;  \n\x7d ") ⟨2, false⟩
    (by decide)).2
  rw [hlines]
  decide

end Jaguar
