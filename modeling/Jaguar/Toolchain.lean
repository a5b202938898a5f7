/-
The command line (`main.c`): `jag <file>`, `jag check <file>` and `jag lint <file>`, and what
becomes of them when `jag fmt` has rewritten the file.

The parser's messages are kept as they are logged; what the checker, the linter and the program
itself print goes to the terminal. The reactor loop behind a program that listens or has timers is
a parameter: it goes on from the machine that the program leaves, or does not return.

* `runSource` — the stages one after the other: parse, check, run;
* `jagRun`, `jagLint` — the commands, on the contents of the file;
* `jag_lint_reports` — **the report of the linter** in both formats;
* `runSource_of_toks` — **what a program does depends on its tokens only**;
* `jag_after_fmt` — **a formatted file is checked, linted and run as before**.
-/
import Jaguar.EndOfFile
import Jaguar.FormattedProgram
import Jaguar.Interp
import Jaguar.Linter
import Jaguar.Typecheck

namespace Jaguar

/-! ### The stages -/

/-- How a command ends: the exit code, the parser's messages, those about the expressions in string
literals, and the world. -/
structure RunOutcome (ω : Type) where
  code : ℕ
  messages : List (TokenType × Text × ℕ × String)
  holes : List (Text × List ParseError × ℕ)
  world : ω

section Commands

variable {ω : Type} [Host ω]

/-- `run_source`, behind the parser. -/
def runProgramText (n : ℕ) (react : Machine ω → Option (Machine ω)) (program : List Stmt)
    (filename : Text) (typecheckOnly enterReactor : Bool) (w : ω) : Option (ℕ × ω) :=
  let errs := (typecheckProgram program).errors
  let w := errs.foldl (fun w e => Host.printErr (e.text filename) w) w
  match (typecheckProgram program).result with
  | none => none
  | some () =>
    if errs ≠ [] then
      some (3, Host.printErr
        (filename ++ txt ": " ++ natText errs.length ++ txt " type error(s)\n") w)
    else if typecheckOnly then
      some (0, Host.print (filename ++ txt ": OK (lex + parse + typecheck passed)\n") w)
    else
      let run := interpRun (evaluator n) program (interpInit w)
      match run.value with
      | none => none
      | some rc =>
        if enterReactor then (react run.state).map fun s => (rc, s.world)
        else some (rc, run.state.world)

/-- `run_source`. -/
def runSource (n : ℕ) (react : Machine ω → Option (Machine ω)) (source filename : Text)
    (typecheckOnly enterReactor : Bool) (w : ω) : Option (RunOutcome ω) :=
  match runProgram n source with
  | none => none
  | some (program, s) =>
    let said := s.errors.map (ParseError.message id)
    let holes := s.nested.map NestedParse.report
    if s.hadError then
      some ⟨2, said, holes, Host.printErr (filename ++ txt ": parsing failed\n") w⟩
    else
      (runProgramText n react program filename typecheckOnly enterReactor w).map fun (rc, w) =>
        ⟨rc, said, holes, w⟩

/-- `jag <file>` and `jag check <file>`, where the file can be read or not. -/
def jagRun (n : ℕ) (react : Machine ω → Option (Machine ω)) (file : Text)
    (contents : Option Text) (isCheck : Bool) (w : ω) : Option (RunOutcome ω) :=
  match contents with
  | none => some ⟨1, [], [], Host.printErr (txt "jag: cannot read file '" ++ file ++ txt "'\n") w⟩
  | some src => runSource n react src file isCheck true w

end Commands

/-- One round of the loop of `diag_print_terminal`. -/
def diagTerminalNode (d : Diagnostic) : Text :=
  d.filename ++ txt ":" ++ intText d.startLine ++ txt ":" ++ intText d.startCol ++ txt ": [" ++
    sevStr d.severity ++ txt " " ++ d.code ++ txt "] " ++ d.message ++ txt "\n" ++
    d.help.elim [] fun help => txt "  help: " ++ help ++ txt "\n"

/-- The loop of `diag_print_terminal`, if at most `n` nodes follow. -/
def diagTerminalNodes (nodes : List DiagnosticNode) : ℕ → Option ℕ → Option Text
  | _, none => some []
  | 0, some _ => none
  | n + 1, some p => do
    let node ← nodes[p]?
    let rest ← diagTerminalNodes nodes n node.next
    some (diagTerminalNode node.diag ++ rest)

/-- `diag_print_terminal`. -/
def diagPrintTerminal (nodes : List DiagnosticNode) (bag : DiagnosticBag) : Option Text :=
  diagTerminalNodes nodes nodes.length bag.head

/-- `jag lint <file>`: the exit code and what is printed. -/
def jagLint (n : ℕ) (file : Text) (contents : Option Text) (jsonFormat : Bool) :
    Option (ℕ × Text) :=
  match contents with
  | none => some (1, txt "jag lint: cannot read '" ++ file ++ txt "'\n")
  | some src =>
    match runProgram n src with
    | none => none
    | some (program, s) =>
      if s.hadError then some (2, [])
      else do
        let (nodes, bag, _) ← lintProgram program (some file) [] diagBagInit (some diagBagInit)
        let out ← if jsonFormat then diagPrintJson nodes bag else diagPrintTerminal nodes bag
        some (if bag.errorCount > 0 then 1 else 0, out)

/-! ### The report of the linter -/

/-- The loop follows the links to the end. -/
theorem diagTerminalNodes_linked (others : List DiagnosticNode) (d : Diagnostic)
    (ds : List Diagnostic) {n : ℕ} (hn : ds.length < n) :
    diagTerminalNodes (others ++ linkedNodes others.length (d :: ds)) n (some others.length)
      = some ((d :: ds).flatMap diagTerminalNode) := by
  induction ds generalizing others d n with
  | nil =>
    obtain ⟨m, rfl⟩ := Nat.exists_eq_succ_of_ne_zero (Nat.ne_of_gt hn)
    have hnode : (others ++ linkedNodes others.length [d])[others.length]? = some ⟨d, none⟩ := by
      rw [List.getElem?_append_right (Nat.le_refl _), Nat.sub_self]
      rfl
    rw [diagTerminalNodes, hnode]
    simp [diagTerminalNodes]
  | cons e ds ih =>
    obtain ⟨m, rfl⟩ := Nat.exists_eq_succ_of_ne_zero (Nat.ne_of_gt (Nat.zero_lt_of_lt hn))
    have hnext := ih (others ++ [⟨d, some (others.length + 1)⟩]) e (Nat.lt_of_succ_lt_succ hn)
    rw [List.length_append, List.length_singleton, List.append_assoc] at hnext
    have hnode : (others ++ linkedNodes others.length (d :: e :: ds))[others.length]?
        = some ⟨d, some (others.length + 1)⟩ := by
      rw [List.getElem?_append_right (Nat.le_refl _), Nat.sub_self]
      rfl
    rw [diagTerminalNodes, hnode]
    show (diagTerminalNodes (others ++ ([_] ++ linkedNodes _ _)) m _).bind _ = _
    rw [hnext]
    rfl

theorem DiagnosticBag.Holds.diagPrintTerminal {others nodes : List DiagnosticNode}
    {bag : DiagnosticBag} {ds : List Diagnostic} (h : Holds others nodes bag ds) :
    Jaguar.diagPrintTerminal nodes bag = some (ds.flatMap diagTerminalNode) := by
  rw [Jaguar.diagPrintTerminal, h.nodes, h.head]
  cases ds with
  | nil =>
    rw [if_pos rfl]
    simp [diagTerminalNodes]
  | cons d ds =>
    rw [if_neg (List.cons_ne_nil d ds)]
    refine diagTerminalNodes_linked others d ds ?_
    rw [List.length_append, linkedNodes_length, List.length_cons]
    omega

/-- The linter only warns, and only of variables named `l`. -/
theorem mem_checkStmtsLint {filename : Option Text} {stmts : List Stmt} {c : DiagCall}
    (h : c ∈ checkStmtsLint filename stmts) :
    ∃ s ∈ stmtsWithin stmts, ∃ line, s.namedL = some line ∧ c = jag001 filename line := by
  have hmem : c ∈ lintWarnings filename (stmtsWithin stmts) :=
    (visitedWithin_perm filename stmts).mem_iff.mpr (List.mem_append_left _ h)
  obtain ⟨line, hline, rfl⟩ := List.mem_map.mp hmem
  obtain ⟨s, hs, hnamed⟩ := List.mem_filterMap.mp hline
  exact ⟨s, hs, line, hnamed, rfl⟩

/-- What `jag lint` reports about a program. -/
def lintReport (file : Text) (program : List Stmt) : List Diagnostic :=
  (checkStmtsLint (some file) program).map DiagCall.stored

theorem severity_of_mem_lintReport {file : Text} {program : List Stmt} {d : Diagnostic}
    (h : d ∈ lintReport file program) : d.severity = .warning := by
  obtain ⟨c, hc, rfl⟩ := List.mem_map.mp h
  obtain ⟨-, -, line, -, rfl⟩ := mem_checkStmtsLint hc
  rfl

theorem nulFree_of_mem_lintReport {file : Text} (hfile : 0 ∉ file) {program : List Stmt}
    {d : Diagnostic} (h : d ∈ lintReport file program) : d.NulFree := by
  obtain ⟨c, hc, rfl⟩ := List.mem_map.mp h
  obtain ⟨-, -, line, -, rfl⟩ := mem_checkStmtsLint hc
  have hsome : ∀ {t : Text}, 0 ∉ t → ∀ s ∈ some t, 0 ∉ s := by
    intro t ht s hs
    obtain rfl := Option.some.inj hs
    exact ht
  have hfree : (jag001 (some file) line).NulFree :=
    ⟨hsome (by decide), hsome (by decide +kernel), hsome hfile, hsome (by decide),
      hsome (by decide +kernel)⟩
  exact hfree.stored

/-- **The report of `jag lint`.** On a file that the parser accepts, both formats list the same
warnings in the order of the traversal; the JSON denotes the one document that does, and the exit
code is 0 whatever is found. -/
theorem jag_lint_reports {n : ℕ} {source file : Text} {program : List Stmt} {s : PState}
    (hrun : runProgram n source = some (program, s)) (hgood : s.hadError = false)
    (hfile : 0 ∉ file) :
    jagLint n file (some source) false
        = some (0, (lintReport file program).flatMap diagTerminalNode) ∧
      ∃ out, jagLint n file (some source) true = some (0, out) ∧
        ∀ doc, Denotes out doc ↔ doc = reportDoc (lintReport file program) := by
  obtain ⟨nodes, bag, hlint, hholds⟩ :=
    lintProgram_spec program (some file) diagBagInit (DiagnosticBag.holds_init [])
  rw [List.nil_append] at hholds
  have hreport : (checkStmtsLint (some file) program).map DiagCall.stored
      = lintReport file program := rfl
  rw [hreport] at hholds
  have hcode : ¬ bag.errorCount > 0 := by
    have hnone : (lintReport file program).countP (·.severity = .error) = 0 := by
      refine List.countP_eq_zero.mpr fun d hd => ?_
      rw [severity_of_mem_lintReport hd]
      decide
    rw [hholds.errorCount, hnone]
    exact Nat.lt_irrefl 0
  have hnulFree : ∀ d ∈ lintReport file program, d.NulFree := fun d hd =>
    nulFree_of_mem_lintReport hfile hd
  have hdenotes := denotes_report hnulFree
  have hjag : ∀ jsonFormat, jagLint n file (some source) jsonFormat
      = (if jsonFormat then diagPrintJson nodes bag else diagPrintTerminal nodes bag).map
          fun out => (0, out) := by
    intro jsonFormat
    rw [jagLint]
    simp only [hrun, hgood, hlint, Bool.false_eq_true, if_false, Option.bind_eq_bind,
      Option.bind_some, if_neg hcode]
    cases jsonFormat with
    | false => cases diagPrintTerminal nodes bag <;> rfl
    | true => cases diagPrintJson nodes bag <;> rfl
  refine ⟨?_, _, ?_, fun doc => ⟨fun hdoc => hdoc.unique hdenotes, ?_⟩⟩
  · rw [hjag, if_neg Bool.false_ne_true, hholds.diagPrintTerminal, Option.map_some]
  · rw [hjag, if_pos rfl, hholds.diagPrintJson, Option.map_some]
  · rintro rfl
    exact hdenotes

theorem jag_lint_reports_l :
    ∃ program out, (∃ s, runProgram 20 (txt "var l: num = 1;") = some (program, s)) ∧
      jagLint 20 (txt "a.jag") (some (txt "var l: num = 1;")) true = some (0, out) ∧
      ∀ doc, Denotes out doc ↔ doc = reportDoc (lintReport (txt "a.jag") program) := by
  have hclean : (runProgram 20 (txt "var l: num = 1;")).map (fun x => x.2.hadError)
      = some false := by
    decide +kernel
  obtain ⟨⟨program, s⟩, hrun, hgood⟩ := Option.map_eq_some_iff.mp hclean
  obtain ⟨-, out, hjson, hdoc⟩ := @jag_lint_reports 20 _ (txt "a.jag") program s hrun hgood
    (by decide)
  exact ⟨program, out, ⟨s, hrun⟩, hjson, hdoc⟩

/-! ### Sources with the same tokens -/

/-- The parser comes to an end without errors. -/
def Accepted (n : ℕ) (source : Text) : Prop :=
  ∃ program s, runProgram n source = some (program, s) ∧ s.hadError = false

section SameTokens

variable {source source' : Text}

/-- Either both run out of depth, or both report errors, or neither does. -/
theorem hadError_of_toks (htoks : (tokenize source').1 = (tokenize source).1) (n : ℕ) :
    (runProgram n source').map (fun x => x.2.hadError)
      = (runProgram n source).map fun x => x.2.hadError := by
  have hlike : List.Forall₂ (Token.Like fun _ => 0) (tokenize source).1 (tokenize source').1 := by
    rw [htoks]
    exact List.forall₂_same.mpr fun t _ => ⟨rfl, rfl, rfl⟩
  have hparsed := congrArg (Option.map fun x => !x.2.1.isEmpty) (parsedUnder_eq hlike rfl n)
  have hread : ∀ s : Text, (parsedUnder (fun _ => 0) n s).map (fun x => !x.2.1.isEmpty)
      = (runProgram n s).map fun x => x.2.hadError := by
    intro s
    rw [parsedUnder, Option.map_map]
    refine congrArg (fun f => (runProgram n s).map f) (funext fun x => ?_)
    rw [Function.comp_apply, List.isEmpty_map, PState.hadError]
  rw [← hread, ← hread, hparsed]

theorem runProgram_rejected (htoks : (tokenize source').1 = (tokenize source).1) {n : ℕ}
    {x : List Stmt × PState} (hrun : runProgram n source = some x) (hbad : x.2.hadError = true) :
    ∃ x', runProgram n source' = some x' ∧ x'.2.hadError = true := by
  have hsame := hadError_of_toks htoks n
  rw [hrun, Option.map_some, hbad] at hsame
  exact Option.map_eq_some_iff.mp hsame

theorem runProgram_none (htoks : (tokenize source').1 = (tokenize source).1) {n : ℕ}
    (hrun : runProgram n source = none) : runProgram n source' = none := by
  have hsame := hadError_of_toks htoks n
  rw [hrun, Option.map_none] at hsame
  exact Option.map_eq_none_iff.mp hsame

variable {ω : Type} [Host ω] {n : ℕ} {react : Machine ω → Option (Machine ω)} {filename : Text}
  {typecheckOnly enterReactor : Bool} {w : ω}

/-- **What a program does depends on its tokens only.** Where it is rejected, the messages may name
another line for the end of the file. -/
theorem runSource_of_toks (htoks : (tokenize source').1 = (tokenize source).1) :
    (runSource n react source' filename typecheckOnly enterReactor w).map (·.code)
        = (runSource n react source filename typecheckOnly enterReactor w).map (·.code) ∧
      (Accepted n source →
        runSource n react source' filename typecheckOnly enterReactor w
          = runSource n react source filename typecheckOnly enterReactor w) := by
  cases hrun : runProgram n source with
  | none =>
    have hrun' := runProgram_none htoks hrun
    have heq : runSource n react source' filename typecheckOnly enterReactor w
        = runSource n react source filename typecheckOnly enterReactor w := by
      rw [runSource, runSource, hrun, hrun']
    exact ⟨congrArg _ heq, fun _ => heq⟩
  | some x =>
    obtain ⟨program, s⟩ := x
    cases herr : s.hadError with
    | true =>
      obtain ⟨⟨program', s'⟩, hrun', herr'⟩ := runProgram_rejected htoks hrun herr
      have herr' : s'.hadError = true := herr'
      refine ⟨?_, ?_⟩
      · rw [runSource, runSource, hrun, hrun']
        simp only [herr, herr', if_true, Option.map_some]
      · rintro ⟨program₁, s₁, hrun₁, hgood⟩
        rw [hrun] at hrun₁
        obtain ⟨-, rfl⟩ := Prod.mk.inj (Option.some.inj hrun₁)
        rw [herr] at hgood
        cases hgood
    | false =>
      obtain ⟨s', hrun', herr', hnested⟩ := runProgram_of_toks htoks hrun herr
      have heq : runSource n react source' filename typecheckOnly enterReactor w
          = runSource n react source filename typecheckOnly enterReactor w := by
        have hclean := hadError_eq_false.mp herr
        have hclean' := hadError_eq_false.mp herr'
        rw [PState.Clean] at hclean hclean'
        rw [runSource, runSource, hrun, hrun']
        simp only [herr, herr', hnested, hclean, hclean']
      exact ⟨congrArg _ heq, fun _ => heq⟩

theorem jagLint_of_toks (htoks : (tokenize source').1 = (tokenize source).1) (file : Text)
    (jsonFormat : Bool) :
    jagLint n file (some source') jsonFormat = jagLint n file (some source) jsonFormat := by
  rw [jagLint, jagLint]
  cases hrun : runProgram n source with
  | none => rw [runProgram_none htoks hrun]
  | some x =>
    obtain ⟨program, s⟩ := x
    cases herr : s.hadError with
    | true =>
      obtain ⟨⟨program', s'⟩, hrun', herr'⟩ := runProgram_rejected htoks hrun herr
      have herr' : s'.hadError = true := herr'
      rw [hrun']
      simp only [herr, herr', if_true]
    | false =>
      obtain ⟨s', hrun', herr', -⟩ := runProgram_of_toks htoks hrun herr
      rw [hrun']
      simp only [herr, herr']

end SameTokens

/-! ### After `jag fmt` -/

/-- The options of `jag fmt`, and whether the file can be written to. -/
structure FmtOptions where
  writable : Bool
  checkOnly : Bool
  writeInPlace : Bool
  config : FormatterConfig

/-- What is in the file when `jag fmt` is done. -/
def afterFmt (file source : Text) (o : FmtOptions) : Option Text :=
  (jagFmtFile file (some source) o.writable o.checkOnly o.writeInPlace o.config).file

theorem afterFmt_eq (file source : Text) (o : FmtOptions) :
    afterFmt file source o = some source ∨
      afterFmt file source o = some (formatJaguarSource source o.config) := by
  rw [afterFmt, jagFmtFile]
  split_ifs <;> simp

/-- **A formatted file is checked, linted and run as before.** Where no string literal is laid out
anew, `jag fmt` changes no exit code, and where the parser accepts the file, nothing that the
program prints or does: the line numbers in its error messages are the same, too. -/
theorem jag_after_fmt {ω : Type} [Host ω] {source : Text} {o : FmtOptions}
    (hkept : Kept .code (layout source o.config)) (file : Text) (n : ℕ)
    (react : Machine ω → Option (Machine ω)) (isCheck : Bool) (w : ω) :
    (jagRun n react file (afterFmt file source o) isCheck w).map (·.code)
        = (jagRun n react file (some source) isCheck w).map (·.code) ∧
      (Accepted n source → jagRun n react file (afterFmt file source o) isCheck w
        = jagRun n react file (some source) isCheck w) ∧
      ∀ jsonFormat, jagLint n file (afterFmt file source o) jsonFormat
        = jagLint n file (some source) jsonFormat := by
  rcases afterFmt_eq file source o with hfile | hfile
  · rw [hfile]
    exact ⟨rfl, fun _ => rfl, fun _ => rfl⟩
  · have htoks := tokenize_formatted hkept
    rw [hfile]
    exact ⟨(runSource_of_toks htoks).1, (runSource_of_toks htoks).2, jagLint_of_toks htoks file⟩

/-- A failing division in the third line. -/
def halvesSource : Text := txt "fixed n: num = 6;   \nif (n > 1) \x7b\nn / 0;\n \x7d"

theorem jag_after_fmt_halves :
    afterFmt (txt "a.jag") halvesSource ⟨true, false, true, ⟨4, false⟩⟩
        = some (txt "fixed n: num = 6;\nif (n > 1) \x7b\n    n / 0;\n\x7d\n") ∧
      @jagRun Unit silentHost 20 some (txt "a.jag")
          (afterFmt (txt "a.jag") halvesSource ⟨true, false, true, ⟨4, false⟩⟩) false ()
        = @jagRun Unit silentHost 20 some (txt "a.jag") (some halvesSource) false () := by
  have hwords : words (texts (layout halvesSource ⟨4, false⟩)) 1
      = words (laids (layout halvesSource ⟨4, false⟩)) 1 := by
    rw [texts_layout, laids_layout]
    decide +kernel
  have hkept : Kept .code (layout halvesSource ⟨4, false⟩) :=
    (words_eq_iff (laid_layoutFrom _ _ 0) 1 1).mp hwords
  have hclean : (runProgram 20 halvesSource).map (fun x => x.2.hadError) = some false := by
    decide +kernel
  obtain ⟨x, hrun, hgood⟩ := Option.map_eq_some_iff.mp hclean
  refine ⟨by decide +kernel, ?_⟩
  exact (@jag_after_fmt Unit silentHost halvesSource ⟨true, false, true, ⟨4, false⟩⟩ hkept
    (txt "a.jag") 20 some false ()).2.1 ⟨x.1, x.2, hrun, hgood⟩

end Jaguar
