/-
Tokens (`token.h`) and the lexer (`lexer.c`).

The lexer's cursor is the text that is still ahead of it; `lexer_next` never looks
back. A string literal is one raw token whose lexeme is the text between the
quotes: the parser splits it later. Sources are shorter than `2 ^ 31` bytes: the code
keeps the length of a lexeme in an `int`.

* `Lexer.next` — `lexer_next`;
* `Lexer.next_spec` — up to EOF a call takes at least as many bytes as the weight of
  its token, at EOF it takes none;
* `lexAll` — the tokens up to EOF.
-/
import Jaguar.Bytes
import Mathlib.Data.List.Infix
import Mathlib.Tactic.SplitIfs

namespace Jaguar

inductive TokenType
  | eof | error
  -- literals
  | numLit | decimalLit | scifiLit | stringLit | kwTrue | kwFalse | ident
  -- type keywords
  | typeString | typeNum | typeDecimal | typeBool | typeScifi | typeData | typeList
  | typeMixedlist | typeEnum | typeStruct | typeVector | typeMatrix | typeTask
  | typeWorker | typeSocket
  -- keywords
  | kwVar | kwFixed | kwFun | kwAsync | kwAwait | kwReturn | kwIf | kwElif | kwElse
  | kwLoop | kwDo | kwWhile | kwFor | kwIn | kwIterate | kwClass | kwPublic | kwPrivate
  | kwImport | kwExport | kwTry | kwCatch | kwLive | kwNew | kwThis | kwExtends | kwSuper
  -- punctuation and operators
  | lparen | rparen | lbrace | rbrace | lbracket | rbracket
  | semi | colon | comma | dot | question
  | assign | plus | minus | star | slash | percent | pow
  | plusEq | minusEq | starEq | slashEq | percentEq | powEq
  | gt | lt | ge | le | eq | ne | shl | shr | between | and | or | not
  deriving DecidableEq, Repr

/-- A token; `lexeme` is the text its `start` and `length` delimit. -/
structure Token where
  type : TokenType
  lexeme : Text
  line : ℕ
  deriving DecidableEq

/-- The part of a token the parser's work on it is bounded by. The quotes of a
string literal are not in its lexeme; at least the opening one is in the source. -/
def Token.weight (t : Token) : ℕ :=
  if t.type = .stringLit then t.lexeme.length + 1 else max 1 t.lexeme.length

theorem Token.weight_pos (t : Token) : 0 < t.weight := by
  unfold Token.weight
  split_ifs <;> omega

/-! ### The cursor -/

/-- The lexer: the source from the cursor on, which holds no NUL, and the line. -/
structure Lexer where
  rest : Text
  line : ℕ
  deriving DecidableEq

/-- The line behind the byte `c`. -/
def lineAfter (c : UInt8) (line : ℕ) : ℕ := if c = 10 then line + 1 else line

namespace Lexer

/-- `lexer_init`. -/
def init (source : Text) : Lexer := ⟨cStr source, 1⟩

/-- The byte at the cursor; the terminating NUL at the end. -/
def peek (lx : Lexer) : UInt8 := lx.rest.headD 0

def peek2 (lx : Lexer) : UInt8 := lx.rest.tail.headD 0

def advance (lx : Lexer) : Lexer :=
  match lx.rest with
  | [] => lx
  | c :: s => ⟨s, lineAfter c lx.line⟩

/-- `make`: a token from `start` up to the cursor. -/
def make (cur : Lexer) (type : TokenType) (start : Lexer) : Token :=
  ⟨type, start.rest.take (start.rest.length - cur.rest.length), cur.line⟩

end Lexer

/-- `while (p(peek(lx))) advance(lx);` -/
def advanceWhile (p : UInt8 → Bool) : Text → ℕ → Lexer
  | [], line => ⟨[], line⟩
  | c :: s, line => if p c then advanceWhile p s (lineAfter c line) else ⟨c :: s, line⟩

/-- The inside of a block comment, up to its closing mark or the end. -/
def blockComment : Text → ℕ → Lexer
  | [], line => ⟨[], line⟩
  | c :: s, line =>
    if c = 42 ∧ s.head? = some 47 then ⟨c :: s, line⟩ else blockComment s (lineAfter c line)

/-- The inside of a string literal, up to its closing quote or the end: a backslash
takes the byte behind it along. -/
def stringBody : Text → ℕ → Lexer
  | [], line => ⟨[], line⟩
  | [c], line => if c = 34 then ⟨[c], line⟩ else ⟨[], lineAfter c line⟩
  | c :: d :: s, line =>
    if c = 34 then ⟨c :: d :: s, line⟩
    else if c = 92 then stringBody s (lineAfter d (lineAfter c line))
    else stringBody (d :: s) (lineAfter c line)

theorem advanceWhile_suffix (p : UInt8 → Bool) (s : Text) (line : ℕ) :
    (advanceWhile p s line).rest <:+ s := by
  induction s generalizing line with
  | nil => exact List.suffix_refl _
  | cons c s ih =>
    unfold advanceWhile
    split
    · exact (ih _).trans (List.suffix_cons c s)
    · exact List.suffix_refl _

theorem blockComment_suffix (s : Text) (line : ℕ) : (blockComment s line).rest <:+ s := by
  induction s generalizing line with
  | nil => exact List.suffix_refl _
  | cons c s ih =>
    unfold blockComment
    split
    · exact List.suffix_refl _
    · exact (ih _).trans (List.suffix_cons c s)

theorem stringBody_suffix : ∀ (s : Text) (line : ℕ), (stringBody s line).rest <:+ s
  | [], _ => List.suffix_refl _
  | [c], line => by
    unfold stringBody
    split
    · exact List.suffix_refl _
    · exact List.suffix_cons c []
  | c :: d :: s, line => by
    unfold stringBody
    split
    · exact List.suffix_refl _
    · split
      · exact (stringBody_suffix s _).trans ((List.suffix_cons d s).trans (List.suffix_cons c _))
      · exact (stringBody_suffix (d :: s) _).trans (List.suffix_cons c _)

theorem Lexer.advance_suffix (lx : Lexer) : lx.advance.rest <:+ lx.rest := by
  unfold Lexer.advance
  split
  · exact List.suffix_refl _
  · next h =>
    rw [h]
    exact List.suffix_cons _ _

@[simp] theorem Lexer.advance_length (lx : Lexer) :
    lx.advance.rest.length = lx.rest.length - 1 := by
  unfold Lexer.advance
  split
  · next h => simp [h]
  · next h => simp [h]

/-! ### Tokens -/

/-- The loop of `skip_ws_and_comments`. -/
def skipWsAndComments (s : Text) (line : ℕ) : Lexer :=
  match s with
  | [] => ⟨[], line⟩
  | c :: s =>
    if c = 32 ∨ c = 9 ∨ c = 13 ∨ c = 10 then skipWsAndComments s (lineAfter c line)
    else if c = 47 ∧ s.head? = some 47 then
      let lx := advanceWhile (· ≠ 10) s line
      skipWsAndComments lx.rest lx.line
    else if c = 47 ∧ s.head? = some 42 then
      let lx := (blockComment s.tail line).advance.advance
      skipWsAndComments lx.rest lx.line
    else ⟨c :: s, line⟩
termination_by s.length
decreasing_by
  · simp
  · exact Nat.lt_succ_of_le (advanceWhile_suffix _ _ _).length_le
  · have := (blockComment_suffix s.tail line).length_le
    simp only [Lexer.advance_length, List.length_cons, List.length_tail] at this ⊢
    omega

theorem skipWsAndComments_suffix (s : Text) (line : ℕ) :
    (skipWsAndComments s line).rest <:+ s := by
  induction s, line using skipWsAndComments.induct with
  | case1 line => simp [skipWsAndComments]
  | case2 line c s h ih =>
    rw [skipWsAndComments, if_pos h]
    exact ih.trans (List.suffix_cons c s)
  | case3 line c s h₁ h₂ lx ih =>
    rw [skipWsAndComments, if_neg h₁, if_pos h₂]
    exact ih.trans ((advanceWhile_suffix _ _ _).trans (List.suffix_cons c s))
  | case4 line c s h₁ h₂ h₃ lx ih =>
    rw [skipWsAndComments, if_neg h₁, if_neg h₂, if_pos h₃]
    have hlx : lx.rest <:+ s.tail :=
      (Lexer.advance_suffix _).trans ((Lexer.advance_suffix _).trans (blockComment_suffix _ _))
    exact ih.trans (hlx.trans ((List.tail_suffix s).trans (List.suffix_cons c s)))
  | case5 line c s h₁ h₂ h₃ =>
    rw [skipWsAndComments, if_neg h₁, if_neg h₂, if_neg h₃]

def keywords : List (Text × TokenType) := [
  (txt "string", .typeString), (txt "num", .typeNum), (txt "decimal", .typeDecimal),
  (txt "bool", .typeBool), (txt "scifi", .typeScifi), (txt "data", .typeData),
  (txt "list", .typeList), (txt "MixedList", .typeMixedlist), (txt "enum", .typeEnum),
  (txt "struct", .typeStruct), (txt "vector", .typeVector), (txt "matrix", .typeMatrix),
  (txt "Task", .typeTask), (txt "Worker", .typeWorker), (txt "Socket", .typeSocket),
  (txt "var", .kwVar), (txt "fixed", .kwFixed), (txt "fun", .kwFun), (txt "async", .kwAsync),
  (txt "await", .kwAwait), (txt "return", .kwReturn), (txt "if", .kwIf), (txt "elif", .kwElif),
  (txt "else", .kwElse), (txt "loop", .kwLoop), (txt "do", .kwDo), (txt "while", .kwWhile),
  (txt "for", .kwFor), (txt "in", .kwIn), (txt "iterate", .kwIterate), (txt "class", .kwClass),
  (txt "public", .kwPublic), (txt "private", .kwPrivate), (txt "import", .kwImport),
  (txt "export", .kwExport), (txt "try", .kwTry), (txt "catch", .kwCatch),
  (txt "new", .kwNew), (txt "this", .kwThis), (txt "extends", .kwExtends),
  (txt "super", .kwSuper), (txt "true", .kwTrue), (txt "false", .kwFalse)]

/-- The type of an identifier or keyword. -/
def keywordType (lexeme : Text) : TokenType :=
  match keywords.find? (·.1 = lexeme) with
  | some kw => kw.2
  | none => .ident

/-- `identifier_or_keyword`, from the cursor behind the first character. -/
def identifierOrKeyword (cur start : Lexer) : Token × Lexer :=
  let cur := advanceWhile (fun c => isAlnum c || c = 95) cur.rest cur.line
  (cur.make (keywordType (cur.make .ident start).lexeme) start, cur)

/-- Digits, from the cursor on. -/
def digits (cur : Lexer) : Lexer := advanceWhile isDigit cur.rest cur.line

/-- The fraction of a number, if there is one. -/
def fraction (cur : Lexer) : Option Lexer :=
  if cur.peek = 46 ∧ isDigit cur.peek2 then some (digits cur.advance) else none

/-- The exponent of a number; an `E` without digits behind it is none. -/
def exponent (cur : Lexer) : Option Lexer :=
  if cur.peek = 69 ∨ cur.peek = 101 then
    let cur := cur.advance
    let cur := if cur.peek = 43 ∨ cur.peek = 45 then cur.advance else cur
    if isDigit cur.peek then some (digits cur) else none
  else none

/-- Numbers: num (123), decimal (1.5), scifi (3.14E2). -/
def number (cur start : Lexer) : Token × Lexer :=
  let cur := digits cur
  let decimal := fraction cur
  let cur := decimal.getD cur
  match exponent cur with
  | some cur => (cur.make .scifiLit start, cur)
  | none => (cur.make (if decimal.isSome then .decimalLit else .numLit) start, cur)

/-- `string_lit`, from the cursor behind the opening quote. -/
def stringLit (start : Lexer) : Token × Lexer :=
  let cur := stringBody start.rest start.line
  let text := (cur.make .stringLit start).lexeme
  (⟨.stringLit, text, cur.advance.line⟩, cur.advance)

/-- The type and length of the operator or punctuation that starts with `c`. -/
def operatorAt (c : UInt8) (s : Text) : TokenType × ℕ :=
  let next (d : Char) : Bool := s.head? = some d.toUInt8
  let next2 (d : Char) : Bool := s.tail.head? = some d.toUInt8
  match Char.ofNat c.toNat with
  | '(' => (.lparen, 1)
  | ')' => (.rparen, 1)
  | '\x7b' => (.lbrace, 1)
  | '\x7d' => (.rbrace, 1)
  | '[' => (.lbracket, 1)
  | ']' => (.rbracket, 1)
  | ';' => (.semi, 1)
  | ':' => (.colon, 1)
  | ',' => (.comma, 1)
  | '.' => (.dot, 1)
  | '?' => (.question, 1)
  | '+' => if next '=' then (.plusEq, 2) else (.plus, 1)
  | '-' => if next '=' then (.minusEq, 2) else (.minus, 1)
  | '*' =>
    if next '*' then if next2 '=' then (.powEq, 3) else (.pow, 2)
    else if next '=' then (.starEq, 2) else (.star, 1)
  | '/' => if next '=' then (.slashEq, 2) else (.slash, 1)
  | '%' => if next '=' then (.percentEq, 2) else (.percent, 1)
  | '=' => if next '=' then (.eq, 2) else (.assign, 1)
  | '!' => if next '=' then (.ne, 2) else (.not, 1)
  | '&' => if next '&' then (.and, 2) else (.error, 1)
  | '|' => if next '|' then (.or, 2) else (.error, 1)
  | '>' => if next '=' then (.ge, 2) else if next '>' then (.shr, 2) else (.gt, 1)
  | '<' =>
    if next '=' then (.le, 2)
    else if next '<' && next2 '<' then (.between, 3)
    else if next '<' then (.shl, 2) else (.lt, 1)
  | _ => (.error, 1)

/-- `lexer_next` from a token's first byte on. -/
def Lexer.nextFrom (c : UInt8) (s : Text) (line : ℕ) : Token × Lexer :=
  let start : Lexer := ⟨c :: s, line⟩
  if isAlpha c || c = 95 then identifierOrKeyword start.advance start
  else if isDigit c then number start.advance start
  else if c = 34 then stringLit start.advance
  else
    let (type, length) := operatorAt c s
    (⟨type, (c :: s).take length, line⟩, ⟨(c :: s).drop length, line⟩)

/-- `lexer_next`. -/
def Lexer.next (lx : Lexer) : Token × Lexer :=
  let start := skipWsAndComments lx.rest lx.line
  match start.rest with
  | [] => (⟨.eof, [], start.line⟩, start)
  | c :: s => nextFrom c s start.line

/-! ### Progress -/

theorem digits_suffix (cur : Lexer) : (digits cur).rest <:+ cur.rest :=
  advanceWhile_suffix _ _ _

theorem fraction_suffix {cur cur' : Lexer} (h : fraction cur = some cur') :
    cur'.rest <:+ cur.rest := by
  unfold fraction at h
  split_ifs at h
  obtain rfl := Option.some.inj h
  exact (digits_suffix _).trans cur.advance_suffix

theorem exponent_suffix {cur cur' : Lexer} (h : exponent cur = some cur') :
    cur'.rest <:+ cur.rest := by
  unfold exponent at h
  dsimp only at h
  split_ifs at h
  · obtain rfl := Option.some.inj h
    exact (digits_suffix _).trans (cur.advance.advance_suffix.trans cur.advance_suffix)
  · obtain rfl := Option.some.inj h
    exact (digits_suffix _).trans cur.advance_suffix

/-- A token made at `cur` covers what lies between `start` and `cur`. -/
theorem Lexer.make_weight {cur start : Lexer} {type : TokenType} (htype : type ≠ .stringLit)
    (h : cur.rest.length < start.rest.length) :
    (cur.make type start).weight + cur.rest.length = start.rest.length := by
  simp only [Lexer.make, Token.weight, if_neg htype, List.length_take]
  omega

theorem number_spec (cur start : Lexer) :
    ((number cur start).1.type = .numLit ∨ (number cur start).1.type = .decimalLit ∨
      (number cur start).1.type = .scifiLit) ∧
    (number cur start).2.rest <:+ cur.rest ∧
    (cur.rest.length < start.rest.length →
      (number cur start).1.weight + (number cur start).2.rest.length = start.rest.length) := by
  unfold number
  dsimp only
  have hdecimal : ((fraction (digits cur)).getD (digits cur)).rest <:+ cur.rest := by
    cases hfrac : fraction (digits cur) with
    | none => exact digits_suffix cur
    | some cur' => exact (fraction_suffix hfrac).trans (digits_suffix cur)
  cases hexp : exponent ((fraction (digits cur)).getD (digits cur)) with
  | none =>
    have htype : ∀ b : Bool, (if b then TokenType.decimalLit else .numLit) = .numLit ∨
        (if b then TokenType.decimalLit else .numLit) = .decimalLit ∨
        (if b then TokenType.decimalLit else .numLit) = .scifiLit := by decide
    have hne : ∀ b : Bool, (if b then TokenType.decimalLit else .numLit) ≠ .stringLit := by decide
    exact ⟨htype _, hdecimal, fun h =>
      Lexer.make_weight (hne _) (hdecimal.length_le.trans_lt h)⟩
  | some cur' =>
    have hsuffix := (exponent_suffix hexp).trans hdecimal
    exact ⟨.inr (.inr rfl), hsuffix, fun h =>
      Lexer.make_weight (by decide) (hsuffix.length_le.trans_lt h)⟩

theorem keywordType_mem (lexeme : Text) :
    keywordType lexeme = .ident ∨ ∃ kw ∈ keywords, keywordType lexeme = kw.2 := by
  unfold keywordType
  split
  · next kw h => exact .inr ⟨kw, List.mem_of_find?_eq_some h, rfl⟩
  · exact .inl rfl

theorem keywordType_ne (lexeme : Text) :
    keywordType lexeme ≠ .eof ∧ keywordType lexeme ≠ .stringLit := by
  have hall : ∀ kw ∈ keywords, kw.2 ≠ .eof ∧ kw.2 ≠ .stringLit := by decide
  rcases keywordType_mem lexeme with h | ⟨kw, hmem, h⟩
  · rw [h]
    decide
  · rw [h]
    exact hall kw hmem

theorem operatorAt_spec (c : UInt8) (s : Text) :
    (operatorAt c s).1 ≠ .eof ∧ (operatorAt c s).1 ≠ .stringLit ∧ 0 < (operatorAt c s).2 := by
  unfold operatorAt
  dsimp only
  split <;> (try split_ifs) <;> decide

/-- What a call of `lexer_next` takes from a token's first byte on. -/
theorem Lexer.nextFrom_spec (c : UInt8) (s : Text) (line : ℕ) :
    (nextFrom c s line).1.type ≠ .eof ∧ (nextFrom c s line).2.rest <:+ s ∧
      (nextFrom c s line).1.weight + (nextFrom c s line).2.rest.length ≤ s.length + 1 := by
  have hstart : ∀ rest : Text, rest <:+ s → rest.length < (c :: s).length := fun rest h =>
    Nat.lt_succ_of_le h.length_le
  unfold nextFrom
  dsimp only
  split_ifs
  · -- identifiers and keywords
    simp only [identifierOrKeyword, Lexer.advance]
    have hsuffix := advanceWhile_suffix (fun c => isAlnum c || c = 95) s (lineAfter c line)
    set lexeme := (Lexer.make _ .ident _).lexeme
    obtain ⟨heof, hstr⟩ := keywordType_ne lexeme
    exact ⟨heof, hsuffix, (Lexer.make_weight hstr (hstart _ hsuffix)).le⟩
  · -- numbers
    obtain ⟨htype, hsuffix, hweight⟩ := number_spec ⟨s, lineAfter c line⟩ ⟨c :: s, line⟩
    refine ⟨?_, hsuffix, (hweight (Nat.lt_succ_self _)).le⟩
    rcases htype with h | h | h <;> exact h ▸ TokenType.noConfusion
  · -- strings
    have hbody := stringBody_suffix s (lineAfter c line)
    refine ⟨TokenType.noConfusion, (Lexer.advance_suffix _).trans hbody, ?_⟩
    have hlen := hbody.length_le
    have hclose := (Lexer.advance_suffix (stringBody s (lineAfter c line))).length_le
    have hadvance : Lexer.advance ⟨c :: s, line⟩ = ⟨s, lineAfter c line⟩ := rfl
    simp only [hadvance, stringLit, Token.weight, Lexer.make, if_true, List.length_take]
    omega
  · -- operators and punctuation
    obtain ⟨heof, hstr, hlen⟩ := operatorAt_spec c s
    obtain ⟨k, hk⟩ := Nat.exists_eq_succ_of_ne_zero (Nat.ne_of_gt hlen)
    refine ⟨heof, ?_, ?_⟩
    · rw [hk]
      exact List.drop_suffix k s
    · simp only [Token.weight, if_neg hstr, List.length_take, List.length_drop,
        List.length_cons]
      omega

/-- A call of `lexer_next` at the end of the text yields EOF and stays there; any
other call takes at least as many bytes as its token weighs. -/
theorem Lexer.next_spec (lx : Lexer) :
    (∃ line, lx.next = (⟨.eof, [], line⟩, ⟨[], line⟩)) ∨
      (lx.next.1.type ≠ .eof ∧ lx.next.2.rest <:+ lx.rest ∧
        lx.next.1.weight + lx.next.2.rest.length ≤ lx.rest.length) := by
  have hskip := skipWsAndComments_suffix lx.rest lx.line
  unfold Lexer.next
  generalize skipWsAndComments lx.rest lx.line = start at hskip
  obtain ⟨rest, line⟩ := start
  cases rest with
  | nil => exact .inl ⟨line, rfl⟩
  | cons c s =>
    obtain ⟨heof, hsuffix, hweight⟩ := nextFrom_spec c s line
    exact .inr ⟨heof, hsuffix.trans ((List.suffix_cons c s).trans hskip),
      hweight.trans hskip.length_le⟩

/-! ### The whole token sequence -/

/-- The tokens `lexer_next` yields up to EOF, and the line of the EOF token. -/
def lexAll (lx : Lexer) : List Token × ℕ :=
  let (t, lx') := lx.next
  if t.type = .eof then ([], t.line)
  else if _h : lx'.rest.length < lx.rest.length then
    let (ts, line) := lexAll lx'
    (t :: ts, line)
  else ([], t.line)
termination_by lx.rest.length

/-- The weight of a token sequence. -/
def tokensWeight (ts : List Token) : ℕ := (ts.map Token.weight).sum

@[simp] theorem tokensWeight_nil : tokensWeight [] = 0 := rfl

@[simp] theorem tokensWeight_cons (t : Token) (ts : List Token) :
    tokensWeight (t :: ts) = t.weight + tokensWeight ts := List.sum_cons

theorem weight_le_tokensWeight {t : Token} {ts : List Token} (h : t ∈ ts) :
    t.weight ≤ tokensWeight ts := by
  induction ts with
  | nil => cases h
  | cons u ts ih =>
    rw [tokensWeight_cons]
    rcases List.mem_cons.mp h with rfl | h
    · exact Nat.le_add_right _ _
    · exact (ih h).trans (Nat.le_add_left _ _)

/-- The recursion of `lexAll` never stops short of EOF. -/
theorem lexAll_eq (lx : Lexer) :
    lexAll lx =
      if lx.next.1.type = .eof then ([], lx.next.1.line)
      else (lx.next.1 :: (lexAll lx.next.2).1, (lexAll lx.next.2).2) := by
  rw [lexAll.eq_def]
  dsimp only
  split_ifs with heof hlt
  · rfl
  · rfl
  · rcases lx.next_spec with ⟨line, hnext⟩ | ⟨-, -, hweight⟩
    · rw [hnext] at heof
      exact absurd rfl heof
    · have := lx.next.1.weight_pos
      omega

/-- All tokens of a text together weigh at most its length. -/
theorem lexAll_weight (lx : Lexer) : tokensWeight (lexAll lx).1 ≤ lx.rest.length := by
  induction hn : lx.rest.length using Nat.strongRecOn generalizing lx with
  | ind n ih =>
    subst hn
    rw [lexAll_eq]
    split_ifs with heof
    · exact Nat.zero_le _
    · rcases lx.next_spec with ⟨line, hnext⟩ | ⟨-, -, hweight⟩
      · rw [hnext] at heof
        exact absurd rfl heof
      · have hpos := lx.next.1.weight_pos
        have := ih _ (by omega) lx.next.2 rfl
        rw [tokensWeight_cons]
        omega

/-- The tokens of a source text. -/
def tokenize (source : Text) : List Token × ℕ := lexAll (Lexer.init source)

theorem tokenize_weight (source : Text) : tokensWeight (tokenize source).1 ≤ source.length :=
  (lexAll_weight _).trans (List.takeWhile_sublist _).length_le

end Jaguar
