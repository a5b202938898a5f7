/-
The diagnostics bag (`diagnostics.c`): `diag_add`, and the report of `diag_print_json`.

A bag is a linked list with counters, and the report is put together piece by piece. The
grammar of `JsonGrammar` reads it.

* `DiagnosticBag.Holds` — the nodes, the two ends and the counters of a bag, as its list of
  diagnostics determines them;
* `Holds.diagAdd`, `Holds.diagAdds` — a call adds one diagnostic at the end;
* `jsonString_printJsonEscapedLoop` — **every byte that has to be escaped is**;
* `diag_print_json_denotes` — **the report stands for the diagnostics, in call order, and
  for the numbers of errors and warnings**.
-/
import Jaguar.JsonEncoding

namespace Jaguar

/-! ### The source -/

inductive DiagnosticSeverity
  | error | warning | info | hint
  deriving DecidableEq

structure Diagnostic where
  severity : DiagnosticSeverity
  code : Text
  message : Text
  filename : Text
  startLine : ℤ
  startCol : ℤ
  endLine : ℤ
  endCol : ℤ
  source : Text
  help : Option Text

structure DiagnosticNode where
  diag : Diagnostic
  next : Option ℕ

/-- A bag; a pointer is the index of its node among the nodes allocated so far. -/
structure DiagnosticBag where
  head : Option ℕ
  tail : Option ℕ
  count : ℕ
  errorCount : ℕ
  warningCount : ℕ

/-- `diag_bag_init`. -/
def diagBagInit : DiagnosticBag := ⟨none, none, 0, 0, 0⟩

/-- The arguments of a call of `diag_add`; a string may be `NULL`. -/
structure DiagCall where
  severity : DiagnosticSeverity
  code : Option Text
  message : Option Text
  filename : Option Text
  startLine : ℤ
  startCol : ℤ
  endLine : ℤ
  endCol : ℤ
  source : Option Text
  help : Option Text

/-- What `diag_add` stores in the new node. -/
def DiagCall.stored (c : DiagCall) : Diagnostic :=
  let startLine := if c.startLine > 0 then c.startLine else 1
  let startCol := if c.startCol > 0 then c.startCol else 1
  { severity := c.severity
    code := c.code.getD (txt "JAG000")
    message := c.message.getD []
    filename := c.filename.getD (txt "<stdin>")
    startLine := startLine
    startCol := startCol
    endLine := if c.endLine ≥ c.startLine then c.endLine else startLine
    endCol := if c.endCol ≥ c.startCol then c.endCol else startCol
    source := c.source.getD (txt "compiler")
    help := c.help }

/-- The new node of `diag_add`, linked. A bag with a head but no tail would be written through
`NULL`. -/
def diagLink (nodes : List DiagnosticNode) (bag : DiagnosticBag) (d : Diagnostic) :
    Option (List DiagnosticNode × DiagnosticBag) :=
  let node := nodes.length
  let nodes := nodes ++ [⟨d, none⟩]
  match bag.head with
  | none => some (nodes, { bag with head := some node, tail := some node })
  | some _ => bag.tail.map fun tail =>
    (nodes.modify tail fun n => { n with next := some node }, { bag with tail := some node })

/-- The counters, after a call of `diag_add` with this severity. -/
def diagCount (bag : DiagnosticBag) (severity : DiagnosticSeverity) : DiagnosticBag :=
  let bag := { bag with count := bag.count + 1 }
  if severity = .error then { bag with errorCount := bag.errorCount + 1 }
  else if severity = .warning then { bag with warningCount := bag.warningCount + 1 }
  else bag

/-- `diag_add`. -/
def diagAdd (nodes : List DiagnosticNode) (bag : DiagnosticBag) (c : DiagCall) :
    Option (List DiagnosticNode × DiagnosticBag) :=
  (diagLink nodes bag c.stored).map fun s => (s.1, diagCount s.2 c.severity)

/-- One call of `diag_add` after another. -/
def diagAdds (nodes : List DiagnosticNode) (bag : DiagnosticBag) (calls : List DiagCall) :
    Option (List DiagnosticNode × DiagnosticBag) :=
  calls.foldlM (fun s c => diagAdd s.1 s.2 c) (nodes, bag)

/-- `sev_str`. -/
def sevStr : DiagnosticSeverity → Text
  | .error => txt "error"
  | .warning => txt "warning"
  | .info => txt "info"
  | .hint => txt "hint"

/-- A digit of `%x`. -/
def hexLower (n : ℕ) : UInt8 := if n < 10 then (48 + n).toUInt8 else (87 + n).toUInt8

/-- `%04x`, for numbers of at most four digits. -/
def hex04 (n : ℕ) : Text :=
  [hexLower (n / 4096), hexLower (n / 256 % 16), hexLower (n / 16 % 16), hexLower (n % 16)]

/-- The switch of `print_json_escaped`. -/
def jsonEscapeByte (c : UInt8) : Text :=
  if c = 34 then txt "\\\""
  else if c = 92 then txt "\\\\"
  else if c = 8 then txt "\\b"
  else if c = 12 then txt "\\f"
  else if c = 10 then txt "\\n"
  else if c = 13 then txt "\\r"
  else if c = 9 then txt "\\t"
  else if c < 32 then txt "\\u" ++ hex04 c.toNat
  else [c]

/-- The loop of `print_json_escaped`. -/
def printJsonEscapedLoop : Text → Text
  | [] => []
  | c :: s => if c = 0 then [] else jsonEscapeByte c ++ printJsonEscapedLoop s

/-- `print_json_escaped`. -/
def printJsonEscaped (s : Text) : Text := txt "\"" ++ (printJsonEscapedLoop s ++ txt "\"")

/-- `{ "line": %d, "column": %d }`. -/
def diagPosition (line column : ℤ) : Text :=
  txt "\x7b \"line\": " ++ (intText line
    ++ (txt ", \"column\": " ++ (intText column ++ txt " \x7d")))

/-- One round of the loop of `diag_print_json`. -/
def diagPrintNode (d : Diagnostic) (next : Option ℕ) : Text :=
  txt "    \x7b\n"
    ++ (txt "      \"severity\": " ++ (printJsonEscaped (sevStr d.severity) ++ (txt ",\n"
    ++ (txt "      \"code\": " ++ (printJsonEscaped d.code ++ (txt ",\n"
    ++ (txt "      \"message\": " ++ (printJsonEscaped d.message ++ (txt ",\n"
    ++ (txt "      \"filename\": " ++ (printJsonEscaped d.filename ++ (txt ",\n"
    ++ (txt "      \"range\": \x7b\n"
    ++ (txt "        \"start\": " ++ (diagPosition d.startLine d.startCol ++ (txt ",\n"
    ++ (txt "        \"end\": " ++ (diagPosition d.endLine d.endCol ++ (txt "\n"
    ++ (txt "      \x7d,\n"
    ++ (txt "      \"source\": " ++ (printJsonEscaped d.source
    ++ (d.help.elim [] (fun help => txt ",\n      \"help\": " ++ printJsonEscaped help)
    ++ (txt "\n    \x7d" ++ ((if next.isSome then txt "," else [])
    ++ txt "\n")))))))))))))))))))))))))

/-- The loop of `diag_print_json`, if at most `n` nodes follow. -/
def diagPrintNodes (nodes : List DiagnosticNode) : ℕ → Option ℕ → Option Text
  | _, none => some []
  | 0, some _ => none
  | n + 1, some p => do
    let node ← nodes[p]?
    let rest ← diagPrintNodes nodes n node.next
    some (diagPrintNode node.diag node.next ++ rest)

/-- `diag_print_json`. -/
def diagPrintJson (nodes : List DiagnosticNode) (bag : DiagnosticBag) : Option Text :=
  (diagPrintNodes nodes nodes.length bag.head).map fun entries =>
    txt "\x7b\n  \"diagnostics\": [\n" ++ (entries ++ (txt "  ],\n  \"errorCount\": "
      ++ (natText bag.errorCount ++ (txt ",\n  \"warningCount\": "
      ++ (natText bag.warningCount ++ txt "\n\x7d\n")))))

/-! ### The linked list -/

/-- The nodes of a list of diagnostics that is allocated in one piece from `p` on. -/
def linkedNodes : ℕ → List Diagnostic → List DiagnosticNode
  | _, [] => []
  | _, [d] => [⟨d, none⟩]
  | p, d :: e :: ds => ⟨d, some (p + 1)⟩ :: linkedNodes (p + 1) (e :: ds)

theorem linkedNodes_length (p : ℕ) (ds : List Diagnostic) :
    (linkedNodes p ds).length = ds.length := by
  induction ds generalizing p with
  | nil => rfl
  | cons d ds ih =>
    cases ds with
    | nil => rfl
    | cons e ds => rw [linkedNodes, List.length_cons, ih, List.length_cons]; rfl

/-- Linking a new node behind the last one. -/
theorem linkedNodes_append (p : ℕ) (d e : Diagnostic) (ds : List Diagnostic) :
    linkedNodes p (d :: ds ++ [e])
      = (linkedNodes p (d :: ds)).modify ds.length
          (fun n => { n with next := some (p + ds.length + 1) }) ++ [⟨e, none⟩] := by
  induction ds generalizing p d with
  | nil => rfl
  | cons d' ds ih =>
    have htail := ih (p + 1) d'
    rw [List.cons_append] at htail
    rw [List.cons_append, List.cons_append, linkedNodes, htail, linkedNodes, List.length_cons,
      List.modify_succ_cons, List.cons_append]
    congr 4
    funext n
    congr 2
    omega

/-- The bag holds the diagnostics `ds`, in nodes allocated behind `others`. -/
structure DiagnosticBag.Holds (others nodes : List DiagnosticNode) (bag : DiagnosticBag)
    (ds : List Diagnostic) : Prop where
  nodes : nodes = others ++ linkedNodes others.length ds
  head : bag.head = if ds = [] then none else some others.length
  tail : bag.tail = if ds = [] then none else some (others.length + (ds.length - 1))
  count : bag.count = ds.length
  errorCount : bag.errorCount = ds.countP (·.severity = .error)
  warningCount : bag.warningCount = ds.countP (·.severity = .warning)

/-- A change in the middle part. -/
theorem modify_between {α : Type*} (f : α → α) (as : List α) {bs : List α} {k : ℕ}
    (hk : k < bs.length) (cs : List α) :
    (as ++ (bs ++ cs)).modify (as.length + k) f = as ++ (bs.modify k f ++ cs) := by
  induction as with
  | cons a as ih =>
    rw [List.length_cons, Nat.add_right_comm, List.cons_append, List.modify_succ_cons, ih,
      List.cons_append]
  | nil =>
    rw [List.length_nil, Nat.zero_add, List.nil_append, List.nil_append]
    induction bs generalizing k with
    | nil => exact absurd hk (Nat.not_lt_zero k)
    | cons b bs ih =>
      cases k with
      | zero => rfl
      | succ k =>
        rw [List.cons_append, List.modify_succ_cons, ih (Nat.lt_of_succ_lt_succ hk),
          List.modify_succ_cons, List.cons_append]

namespace DiagnosticBag

theorem holds_init (others : List DiagnosticNode) : Holds others others diagBagInit [] :=
  ⟨(List.append_nil others).symm, rfl, rfl, rfl, rfl, rfl⟩

/-- The new node goes behind the last one. -/
theorem Holds.diagLink {others nodes : List DiagnosticNode} {bag : DiagnosticBag}
    {ds : List Diagnostic} (h : Holds others nodes bag ds) (d : Diagnostic) :
    Jaguar.diagLink nodes bag d = some (others ++ linkedNodes others.length (ds ++ [d]),
      { bag with head := some others.length, tail := some (others.length + ds.length) }) := by
  obtain ⟨hnodes, hhead, htail, -, -, -⟩ := h
  unfold Jaguar.diagLink
  cases ds with
  | nil =>
    rw [hhead, if_pos rfl, hnodes]
    simp [linkedNodes]
  | cons e ds =>
    have hlast : ds.length < (linkedNodes others.length (e :: ds)).length := by
      rw [linkedNodes_length, List.length_cons]
      exact Nat.lt_succ_self _
    rw [hhead, htail, if_neg (List.cons_ne_nil e ds), if_neg (List.cons_ne_nil e ds), hnodes,
      linkedNodes_append]
    simp only [Option.map_some, List.append_assoc, List.length_cons, Nat.add_sub_cancel,
      List.length_append, linkedNodes_length]
    rw [modify_between _ _ hlast]
    simp [Nat.add_assoc]

/-- A call of `diag_add` adds its diagnostic at the end. -/
theorem Holds.diagAdd {others nodes : List DiagnosticNode} {bag : DiagnosticBag}
    {ds : List Diagnostic} (h : Holds others nodes bag ds) (c : DiagCall) :
    ∃ nodes' bag', Jaguar.diagAdd nodes bag c = some (nodes', bag') ∧
      Holds others nodes' bag' (ds ++ [c.stored]) := by
  refine ⟨_, _, by rw [Jaguar.diagAdd, h.diagLink, Option.map_some], ?_⟩
  obtain ⟨-, -, -, hcount, herror, hwarning⟩ := h
  have hseverity : c.stored.severity = c.severity := rfl
  constructor
  · rfl
  · cases c.severity <;> simp [diagCount]
  · cases c.severity <;> simp [diagCount]
  · rw [List.length_append, ← hcount]
    cases c.severity <;> rfl
  · rw [List.countP_append, ← herror, List.countP_singleton, hseverity]
    cases c.severity <;> rfl
  · rw [List.countP_append, ← hwarning, List.countP_singleton, hseverity]
    cases c.severity <;> rfl

/-- **A bag after any sequence of calls.** -/
theorem Holds.diagAdds {others nodes : List DiagnosticNode} {bag : DiagnosticBag}
    {ds : List Diagnostic} (h : Holds others nodes bag ds) (calls : List DiagCall) :
    ∃ nodes' bag', Jaguar.diagAdds nodes bag calls = some (nodes', bag') ∧
      Holds others nodes' bag' (ds ++ calls.map DiagCall.stored) := by
  induction calls generalizing nodes bag ds with
  | nil =>
    refine ⟨nodes, bag, rfl, ?_⟩
    rwa [List.map_nil, List.append_nil]
  | cons c calls ih =>
    obtain ⟨nodes₁, bag₁, hadd, h₁⟩ := h.diagAdd c
    obtain ⟨nodes', bag', hadds, h'⟩ := ih h₁
    refine ⟨nodes', bag', ?_, ?_⟩
    · rw [Jaguar.diagAdds, List.foldlM_cons, hadd]
      exact hadds
    · rwa [List.map_cons, ← List.singleton_append, ← List.append_assoc]

end DiagnosticBag

/-! ### The text of the report -/

/-- The entries of the report. -/
def diagEntriesText : List Diagnostic → Text
  | [] => []
  | [d] => diagPrintNode d none
  | d :: e :: ds => diagPrintNode d (some 0) ++ diagEntriesText (e :: ds)

/-- The loop follows the links to the end. -/
theorem diagPrintNodes_linked (others : List DiagnosticNode) (d : Diagnostic)
    (ds : List Diagnostic) {n : ℕ} (hn : ds.length < n) :
    diagPrintNodes (others ++ linkedNodes others.length (d :: ds)) n (some others.length)
      = some (diagEntriesText (d :: ds)) := by
  induction ds generalizing others d n with
  | nil =>
    obtain ⟨m, rfl⟩ := Nat.exists_eq_succ_of_ne_zero (Nat.ne_of_gt hn)
    have hnode : (others ++ linkedNodes others.length [d])[others.length]? = some ⟨d, none⟩ := by
      rw [List.getElem?_append_right (Nat.le_refl _), Nat.sub_self]
      rfl
    rw [diagPrintNodes, hnode]
    simp [diagPrintNodes, diagEntriesText]
  | cons e ds ih =>
    obtain ⟨m, rfl⟩ := Nat.exists_eq_succ_of_ne_zero (Nat.ne_of_gt (Nat.zero_lt_of_lt hn))
    -- the first node is one of the others, for the nodes behind it
    have hnext := ih (others ++ [⟨d, some (others.length + 1)⟩]) e (Nat.lt_of_succ_lt_succ hn)
    rw [List.length_append, List.length_singleton, List.append_assoc] at hnext
    have hnode : (others ++ linkedNodes others.length (d :: e :: ds))[others.length]?
        = some ⟨d, some (others.length + 1)⟩ := by
      rw [List.getElem?_append_right (Nat.le_refl _), Nat.sub_self]
      rfl
    rw [diagPrintNodes, hnode]
    show (diagPrintNodes (others ++ ([_] ++ linkedNodes _ _)) m _).bind _ = _
    rw [hnext]
    rfl

theorem DiagnosticBag.Holds.diagPrintJson {others nodes : List DiagnosticNode}
    {bag : DiagnosticBag} {ds : List Diagnostic} (h : Holds others nodes bag ds) :
    Jaguar.diagPrintJson nodes bag = some (txt "\x7b\n  \"diagnostics\": [\n"
      ++ (diagEntriesText ds ++ (txt "  ],\n  \"errorCount\": "
      ++ (natText (ds.countP (·.severity = .error)) ++ (txt ",\n  \"warningCount\": "
      ++ (natText (ds.countP (·.severity = .warning)) ++ txt "\n\x7d\n")))))) := by
  have hentries : diagPrintNodes nodes nodes.length bag.head = some (diagEntriesText ds) := by
    rw [h.nodes, h.head]
    cases ds with
    | nil => rw [if_pos rfl]; simp [diagPrintNodes, diagEntriesText]
    | cons d ds =>
      rw [if_neg (List.cons_ne_nil d ds)]
      apply diagPrintNodes_linked
      rw [List.length_append, linkedNodes_length, List.length_cons]
      omega
  rw [Jaguar.diagPrintJson, hentries, h.errorCount, h.warningCount, Option.map_some]

/-! ### Strings -/

theorem hexDigit_hexLower {n : ℕ} (hn : n < 16) : hexDigit (hexLower n) = some n := by
  have hall : ∀ n < 16, hexDigit (hexLower n) = some n := by decide
  exact hall n hn

theorem hex4_hex04 {n : ℕ} (hn : n < 65536) : Hex4 (hex04 n) n := by
  refine ⟨_, _, _, _, n / 4096, n / 256 % 16, n / 16 % 16, n % 16, rfl, ?_, ?_, ?_, ?_, ?_⟩
  · exact hexDigit_hexLower (by omega)
  · exact hexDigit_hexLower (by omega)
  · exact hexDigit_hexLower (by omega)
  · exact hexDigit_hexLower (by omega)
  · omega

/-- A control byte, by its number. -/
theorem utf8EncodeChar_control {c : UInt8} (hc : c < 32) :
    String.utf8EncodeChar (Char.ofNat c.toNat) = [c] := by
  have hall : ∀ n < 32, String.utf8EncodeChar (Char.ofNat n) = [n.toUInt8] := by decide
  have hlt : c.toNat < 32 := hc
  rw [hall c.toNat hlt, Nat.toUInt8, UInt8.ofNat_toNat]

/-- A byte that is escaped stands for itself again. -/
theorem jsonEscape_or_char (c : UInt8) :
    JsonEscape (jsonEscapeByte c) [c] ∨
      (32 ≤ c ∧ c ≠ 34 ∧ c ≠ 92 ∧ jsonEscapeByte c = [c]) := by
  rw [jsonEscapeByte]
  by_cases h34 : c = 34
  · rw [if_pos h34, h34]
    exact .inl (.simple rfl)
  rw [if_neg h34]
  by_cases h92 : c = 92
  · rw [if_pos h92, h92]
    exact .inl (.simple rfl)
  rw [if_neg h92]
  by_cases h8 : c = 8
  · rw [if_pos h8, h8]
    exact .inl (.simple rfl)
  rw [if_neg h8]
  by_cases h12 : c = 12
  · rw [if_pos h12, h12]
    exact .inl (.simple rfl)
  rw [if_neg h12]
  by_cases h10 : c = 10
  · rw [if_pos h10, h10]
    exact .inl (.simple rfl)
  rw [if_neg h10]
  by_cases h13 : c = 13
  · rw [if_pos h13, h13]
    exact .inl (.simple rfl)
  rw [if_neg h13]
  by_cases h9 : c = 9
  · rw [if_pos h9, h9]
    exact .inl (.simple rfl)
  rw [if_neg h9]
  by_cases hctrl : c < 32
  · have hlt : c.toNat < 32 := hctrl
    have hunit := JsonEscape.unit (hex4_hex04 (n := c.toNat) (by omega))
      (by unfold HighSurrogate; omega) (by unfold LowSurrogate; omega)
    rw [utf8EncodeChar_control hctrl] at hunit
    rw [if_pos hctrl]
    exact .inl hunit
  · rw [if_neg hctrl]
    exact .inr ⟨UInt8.not_lt.mp hctrl, h34, h92, rfl⟩

/-- **Every byte that has to be escaped is.** -/
theorem jsonString_printJsonEscapedLoop {s : Text} (hs : 0 ∉ s) :
    JsonString (printJsonEscapedLoop s) s := by
  induction s with
  | nil => exact .nil
  | cons c s ih =>
    rw [List.mem_cons, not_or] at hs
    rw [printJsonEscapedLoop, if_neg (Ne.symm hs.1)]
    rcases jsonEscape_or_char c with hescape | ⟨hctrl, hquote, hback, hsame⟩
    · exact .escape hescape (ih hs.2)
    · rw [hsame]
      exact .char hctrl hquote hback (ih hs.2)

theorem jsonValue_printJsonEscaped {s : Text} (hs : 0 ∉ s) :
    JsonValue (.string s) (printJsonEscaped s) :=
  .string (jsonString_printJsonEscapedLoop hs)

/-! ### Objects and arrays -/

/-- A member in the grammar. -/
structure JsonMember.Valid (m : JsonMember) : Prop where
  ws : JsonWs m.before ∧ JsonWs m.colon ∧ JsonWs m.value.before ∧ JsonWs m.value.after
  key : JsonString m.keyText m.key
  value : JsonValue m.value.doc m.value.text

theorem jsonValue_object {ms : List JsonMember} (hne : ms ≠ []) (h : ∀ m ∈ ms, m.Valid) :
    JsonValue (.object (ms.map fun m => (m.key, m.value.doc)))
      (123 :: (commaSep (ms.map JsonMember.full) ++ [125])) :=
  .object hne (fun m hm => (h m hm).ws) (fun m hm => (h m hm).key) fun m hm => (h m hm).value

/-- A member as the report writes it, with a blank behind the colon. -/
def reportMember (before key : Text) (doc : JsonDoc) (text after : Text) : JsonMember :=
  ⟨before, key, key, [], ⟨txt " ", doc, text, after⟩⟩

theorem reportMember_valid {before key text after : Text} {doc : JsonDoc} (hbefore : JsonWs before)
    (hkey : WritableKey key) (h : JsonValue doc text) (hafter : JsonWs after) :
    (reportMember before key doc text after).Valid :=
  ⟨⟨hbefore, nofun, forall_mem_of_all rfl, hafter⟩, jsonString_key hkey, h⟩

def positionMembers (line column : ℤ) : List JsonMember :=
  [reportMember (txt " ") (txt "line") (.int line) (intText line) [],
    reportMember (txt " ") (txt "column") (.int column) (intText column) (txt " ")]

/-- The document of a position. -/
def positionDoc (line column : ℤ) : JsonDoc :=
  .object [(txt "line", .int line), (txt "column", .int column)]

theorem jsonValue_diagPosition (line column : ℤ) :
    JsonValue (positionDoc line column) (diagPosition line column) := by
  have hvalid : ∀ m ∈ positionMembers line column, m.Valid := by
    intro m hm
    simp only [positionMembers, List.mem_cons, List.not_mem_nil, or_false] at hm
    rcases hm with rfl | rfl
    · exact reportMember_valid (forall_mem_of_all rfl) (forall_mem_of_all rfl)
        (.number (.int (jsonInt_intText line))) (forall_mem_of_all rfl)
    · exact reportMember_valid (forall_mem_of_all rfl) (forall_mem_of_all rfl)
        (.number (.int (jsonInt_intText column))) (forall_mem_of_all rfl)
  have htext : diagPosition line column
      = 123 :: (commaSep ((positionMembers line column).map JsonMember.full) ++ [125]) := by
    simp only [positionMembers, reportMember, List.map_cons, List.map_nil, commaSep,
      JsonMember.full, JsonItem.full, List.append_assoc, List.cons_append, List.nil_append,
      diagPosition]
    rfl
  rw [htext]
  exact jsonValue_object (List.cons_ne_nil _ _) hvalid

/-- No byte of the strings is NUL. -/
structure Diagnostic.NulFree (d : Diagnostic) : Prop where
  code : 0 ∉ d.code
  message : 0 ∉ d.message
  filename : 0 ∉ d.filename
  source : 0 ∉ d.source
  help : ∀ s ∈ d.help, 0 ∉ s

/-- The document of a diagnostic; there is a help member only if help was given. -/
def Diagnostic.doc (d : Diagnostic) : JsonDoc :=
  .object ([(txt "severity", .string (sevStr d.severity)), (txt "code", .string d.code),
    (txt "message", .string d.message), (txt "filename", .string d.filename),
    (txt "range", .object [(txt "start", positionDoc d.startLine d.startCol),
      (txt "end", positionDoc d.endLine d.endCol)]),
    (txt "source", .string d.source)]
    ++ d.help.elim [] fun help => [(txt "help", .string help)])

def rangeMembers (d : Diagnostic) : List JsonMember :=
  [reportMember (txt "\n        ") (txt "start") (positionDoc d.startLine d.startCol)
      (diagPosition d.startLine d.startCol) [],
    reportMember (txt "\n        ") (txt "end") (positionDoc d.endLine d.endCol)
      (diagPosition d.endLine d.endCol) (txt "\n      ")]

/-- A member with a string. -/
def stringMember (key s after : Text) : JsonMember :=
  reportMember (txt "\n      ") key (.string s) (printJsonEscaped s) after

def diagMembers (d : Diagnostic) : List JsonMember :=
  [stringMember (txt "severity") (sevStr d.severity) [], stringMember (txt "code") d.code [],
    stringMember (txt "message") d.message [], stringMember (txt "filename") d.filename [],
    reportMember (txt "\n      ") (txt "range")
      (.object ((rangeMembers d).map fun m => (m.key, m.value.doc)))
      (123 :: (commaSep ((rangeMembers d).map JsonMember.full) ++ [125])) []]
    ++ d.help.elim [stringMember (txt "source") d.source (txt "\n    ")] fun help =>
      [stringMember (txt "source") d.source [], stringMember (txt "help") help (txt "\n    ")]

/-- The text of an entry, from its opening to its closing bracket. -/
def diagObject (d : Diagnostic) : Text :=
  123 :: (commaSep ((diagMembers d).map JsonMember.full) ++ [125])

set_option maxRecDepth 4000 in
theorem diagPrintNode_eq (d : Diagnostic) (next : Option ℕ) :
    diagPrintNode d next = txt "    "
      ++ (diagObject d ++ ((if next.isSome then txt "," else []) ++ txt "\n")) := by
  unfold diagPrintNode diagObject diagMembers
  cases d.help with
  | none =>
    simp only [rangeMembers, stringMember, reportMember, List.map_cons, List.map_nil, commaSep,
      JsonMember.full, JsonItem.full, List.append_assoc, List.cons_append, List.nil_append,
      Option.elim]
    rfl
  | some help =>
    simp only [rangeMembers, stringMember, reportMember, List.map_cons, List.map_nil, commaSep,
      JsonMember.full, JsonItem.full, List.append_assoc, List.cons_append, List.nil_append,
      Option.elim]
    rfl

theorem rangeMembers_valid (d : Diagnostic) : ∀ m ∈ rangeMembers d, m.Valid := by
  intro m hm
  simp only [rangeMembers, List.mem_cons, List.not_mem_nil, or_false] at hm
  rcases hm with rfl | rfl
  · exact reportMember_valid (forall_mem_of_all rfl) (forall_mem_of_all rfl)
      (jsonValue_diagPosition _ _) (forall_mem_of_all rfl)
  · exact reportMember_valid (forall_mem_of_all rfl) (forall_mem_of_all rfl)
      (jsonValue_diagPosition _ _) (forall_mem_of_all rfl)

theorem stringMember_valid {key s after : Text} (hkey : WritableKey key) (hs : 0 ∉ s)
    (hafter : JsonWs after) : (stringMember key s after).Valid :=
  reportMember_valid (forall_mem_of_all rfl) hkey (jsonValue_printJsonEscaped hs) hafter

theorem zero_not_mem_sevStr (severity : DiagnosticSeverity) : 0 ∉ sevStr severity := by
  cases severity <;> decide

theorem diagMembers_valid {d : Diagnostic} (h : d.NulFree) : ∀ m ∈ diagMembers d, m.Valid := by
  intro m hm
  have hnone : JsonWs [] := nofun
  rcases List.mem_append.mp hm with hm | hm
  · simp only [List.mem_cons, List.not_mem_nil, or_false] at hm
    rcases hm with rfl | rfl | rfl | rfl | rfl
    · exact stringMember_valid (forall_mem_of_all rfl) (zero_not_mem_sevStr _) hnone
    · exact stringMember_valid (forall_mem_of_all rfl) h.code hnone
    · exact stringMember_valid (forall_mem_of_all rfl) h.message hnone
    · exact stringMember_valid (forall_mem_of_all rfl) h.filename hnone
    · exact reportMember_valid (forall_mem_of_all rfl) (forall_mem_of_all rfl)
        (jsonValue_object (List.cons_ne_nil _ _) (rangeMembers_valid d)) hnone
  · have hend : JsonWs (txt "\n    ") := forall_mem_of_all rfl
    cases hhelp : d.help with
    | none =>
      rw [hhelp] at hm
      obtain rfl := List.mem_singleton.mp hm
      exact stringMember_valid (forall_mem_of_all rfl) h.source hend
    | some help =>
      rw [hhelp] at hm
      simp only [Option.elim, List.mem_cons, List.not_mem_nil, or_false] at hm
      rcases hm with rfl | rfl
      · exact stringMember_valid (forall_mem_of_all rfl) h.source hnone
      · exact stringMember_valid (forall_mem_of_all rfl) (h.help help hhelp) hend

theorem jsonValue_diagObject {d : Diagnostic} (h : d.NulFree) : JsonValue d.doc (diagObject d) := by
  have hdoc : d.doc = .object ((diagMembers d).map fun m => (m.key, m.value.doc)) := by
    unfold Diagnostic.doc diagMembers
    cases d.help <;> rfl
  rw [hdoc]
  exact jsonValue_object (List.cons_ne_nil _ _) (diagMembers_valid h)

/-- The entries as items of the array: the text puts a newline before each of them and before
the closing bracket. -/
def diagItems : List Diagnostic → List JsonItem
  | [] => []
  | [d] => [⟨txt "\n    ", d.doc, diagObject d, txt "\n  "⟩]
  | d :: e :: ds => ⟨txt "\n    ", d.doc, diagObject d, []⟩ :: diagItems (e :: ds)

theorem diagItems_docs (ds : List Diagnostic) :
    (diagItems ds).map JsonItem.doc = ds.map Diagnostic.doc := by
  induction ds with
  | nil => rfl
  | cons d ds ih =>
    cases ds with
    | nil => rfl
    | cons e ds => rw [diagItems, List.map_cons, ih]; rfl

theorem diagItems_texts (d : Diagnostic) (ds : List Diagnostic) :
    txt "\n" ++ (diagEntriesText (d :: ds) ++ txt "  ")
      = commaSep ((diagItems (d :: ds)).map JsonItem.full) := by
  induction ds generalizing d with
  | nil =>
    rw [diagEntriesText, diagPrintNode_eq]
    simp only [List.append_assoc]
    rfl
  | cons e ds ih =>
    obtain ⟨i, is, hitems⟩ : ∃ i is, diagItems (e :: ds) = i :: is := by
      cases ds <;> exact ⟨_, _, rfl⟩
    rw [diagItems, hitems, List.map_cons, List.map_cons, commaSep, ← List.map_cons, ← hitems,
      ← ih e, diagEntriesText, diagPrintNode_eq]
    simp only [List.append_assoc, JsonItem.full]
    rfl

theorem jsonValue_diagItems {ds : List Diagnostic} (h : ∀ d ∈ ds, d.NulFree) :
    JsonValue (.list (ds.map Diagnostic.doc))
      (91 :: (txt "\n" ++ (diagEntriesText ds ++ (txt "  " ++ [93])))) := by
  cases ds with
  | nil => exact .emptyList (w := txt "\n  ") (forall_mem_of_all rfl)
  | cons d ds =>
    have hitems : ∀ i ∈ diagItems (d :: ds),
        (JsonWs i.before ∧ JsonWs i.after) ∧ JsonValue i.doc i.text := by
      induction ds generalizing d with
      | nil =>
        intro i hi
        obtain rfl := List.mem_singleton.mp hi
        exact ⟨⟨forall_mem_of_all rfl, forall_mem_of_all rfl⟩,
          jsonValue_diagObject (h d List.mem_cons_self)⟩
      | cons e ds ih =>
        intro i hi
        rw [diagItems, List.mem_cons] at hi
        rcases hi with rfl | hi
        · exact ⟨⟨forall_mem_of_all rfl, nofun⟩, jsonValue_diagObject (h d List.mem_cons_self)⟩
        · exact ih e (fun d' hd' => h d' (List.mem_cons_of_mem d hd')) i hi
    have hne : diagItems (d :: ds) ≠ [] := by
      cases ds <;> exact List.cons_ne_nil _ _
    have hlist := JsonValue.list hne (fun i hi => (hitems i hi).1) fun i hi => (hitems i hi).2
    rw [diagItems_docs, ← diagItems_texts] at hlist
    simpa only [List.append_assoc] using hlist

/-! ### The report -/

/-- The document of a report. -/
def reportDoc (ds : List Diagnostic) : JsonDoc :=
  .object [(txt "diagnostics", .list (ds.map Diagnostic.doc)),
    (txt "errorCount", .int (ds.countP (·.severity = .error))),
    (txt "warningCount", .int (ds.countP (·.severity = .warning)))]

theorem denotes_report {ds : List Diagnostic} (h : ∀ d ∈ ds, d.NulFree) :
    Denotes (txt "\x7b\n  \"diagnostics\": [\n"
      ++ (diagEntriesText ds ++ (txt "  ],\n  \"errorCount\": "
      ++ (natText (ds.countP (·.severity = .error)) ++ (txt ",\n  \"warningCount\": "
      ++ (natText (ds.countP (·.severity = .warning)) ++ txt "\n\x7d\n")))))) (reportDoc ds) := by
  let members : List JsonMember :=
    [reportMember (txt "\n  ") (txt "diagnostics") (.list (ds.map Diagnostic.doc))
        (91 :: (txt "\n" ++ (diagEntriesText ds ++ (txt "  " ++ [93])))) [],
      reportMember (txt "\n  ") (txt "errorCount") (.int (ds.countP (·.severity = .error)))
        (natText (ds.countP (·.severity = .error))) [],
      reportMember (txt "\n  ") (txt "warningCount") (.int (ds.countP (·.severity = .warning)))
        (natText (ds.countP (·.severity = .warning))) (txt "\n")]
  have hnone : JsonWs [] := nofun
  have hindent : JsonWs (txt "\n  ") := forall_mem_of_all rfl
  have hvalid : ∀ m ∈ members, m.Valid := by
    intro m hm
    simp only [members, List.mem_cons, List.not_mem_nil, or_false] at hm
    rcases hm with rfl | rfl | rfl
    · exact reportMember_valid hindent (forall_mem_of_all rfl) (jsonValue_diagItems h) hnone
    · exact reportMember_valid hindent (forall_mem_of_all rfl) (.number (.int (.nonneg _))) hnone
    · exact reportMember_valid hindent (forall_mem_of_all rfl) (.number (.int (.nonneg _)))
        (forall_mem_of_all rfl)
  refine ⟨[], 123 :: (commaSep (members.map JsonMember.full) ++ [125]), txt "\n", hnone,
    forall_mem_of_all rfl, jsonValue_object (List.cons_ne_nil _ _) hvalid, ?_⟩
  simp only [members, reportMember, List.map_cons, List.map_nil, commaSep, JsonMember.full,
    JsonItem.full, List.append_assoc, List.cons_append, List.nil_append]
  rfl

/-- The strings of a call are C strings. -/
structure DiagCall.NulFree (c : DiagCall) : Prop where
  code : ∀ s ∈ c.code, 0 ∉ s
  message : ∀ s ∈ c.message, 0 ∉ s
  filename : ∀ s ∈ c.filename, 0 ∉ s
  source : ∀ s ∈ c.source, 0 ∉ s
  help : ∀ s ∈ c.help, 0 ∉ s

theorem DiagCall.NulFree.stored {c : DiagCall} (h : c.NulFree) : c.stored.NulFree := by
  have hgetD : ∀ {o : Option Text} {t : Text}, (∀ s ∈ o, 0 ∉ s) → 0 ∉ t → 0 ∉ o.getD t := by
    intro o t ho ht
    cases o with
    | none => exact ht
    | some s => exact ho s rfl
  constructor
  · exact hgetD h.code (by decide)
  · exact hgetD h.message List.not_mem_nil
  · exact hgetD h.filename (by decide)
  · exact hgetD h.source (by decide)
  · exact h.help

/-- **The report of any sequence of calls on a new bag** is one JSON text. It stands for the
diagnostics, one for each call and in call order, and for the numbers of errors and warnings
among them, and for no other document. -/
theorem diag_print_json_denotes (others : List DiagnosticNode) (calls : List DiagCall)
    (h : ∀ c ∈ calls, c.NulFree) :
    ∃ nodes bag text, diagAdds others diagBagInit calls = some (nodes, bag) ∧
      diagPrintJson nodes bag = some text ∧
      ∀ d, Denotes text d ↔ d = reportDoc (calls.map DiagCall.stored) := by
  obtain ⟨nodes, bag, hadds, hbag⟩ := (DiagnosticBag.holds_init others).diagAdds calls
  rw [List.nil_append] at hbag
  have hstored : ∀ d ∈ calls.map DiagCall.stored, d.NulFree := by
    intro d hd
    obtain ⟨c, hc, rfl⟩ := List.mem_map.mp hd
    exact (h c hc).stored
  refine ⟨nodes, bag, _, hadds, hbag.diagPrintJson, fun d => ⟨fun hd => ?_, ?_⟩⟩
  · exact hd.unique (denotes_report hstored)
  · rintro rfl
    exact denotes_report hstored

/-- An error whose message is a tab, a quote and the byte 1, and which ends before it starts. -/
def tabError : DiagCall :=
  ⟨.error, none, some [9, 34, 1], some (txt "a.jag"), 3, 0, 1, 5, none, none⟩

/-- A warning with help. -/
def helpedWarning : DiagCall :=
  ⟨.warning, some (txt "JAG001"), some (txt "unused"), none, 1, 1, 1, 4, some (txt "linter"),
    some (txt "C:\\")⟩

theorem diag_print_json_denotes_two :
    ∃ nodes bag text, diagAdds [] diagBagInit [tabError, helpedWarning] = some (nodes, bag) ∧
      diagPrintJson nodes bag = some text ∧
      ∀ d, Denotes text d ↔ d = reportDoc [tabError.stored, helpedWarning.stored] := by
  refine diag_print_json_denotes [] [tabError, helpedWarning] fun c hc => ?_
  have hsome : ∀ {t : Text}, 0 ∉ t → ∀ s ∈ some t, 0 ∉ s := by
    intro t ht s hs
    obtain rfl := Option.some.inj hs
    exact ht
  simp only [List.mem_cons, List.not_mem_nil, or_false] at hc
  rcases hc with rfl | rfl
  · exact ⟨nofun, hsome (by decide), hsome (by decide), nofun, nofun⟩
  · exact ⟨hsome (by decide), hsome (by decide), nofun, hsome (by decide), hsome (by decide)⟩

end Jaguar
