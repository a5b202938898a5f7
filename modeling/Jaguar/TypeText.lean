/-
Type expressions and their text.

A type is a built-in keyword, the name of a class, or a built-in keyword with the type of its
elements in angle brackets. Its text is read back by the lexer and `parse_type`, but for the
brackets that close it: two that follow each other are one token.

* `TypeExpr`, `text`, `info` — types, their text without spaces and the `TypeInfo` they mean;
* `lexAll_text` — **the tokens of a type**, which end in those of its closing brackets;
* `parseType_leading` — `parse_type` builds the type and expects as many brackets;
* `parsesExactly_iff` — **the text is parsed without an error** exactly if brackets are not
  nested.
-/
import Jaguar.Precedence

namespace Jaguar

/-! ### Words -/

def isIdentByte (c : UInt8) : Bool := isAlnum c || c = 95

/-- What the lexer takes for an identifier or a keyword. -/
def IsWord (w : Text) : Prop :=
  match w with
  | [] => False
  | c :: s => (isAlpha c || c = 95) = true ∧ s.all isIdentByte = true

instance (w : Text) : Decidable (IsWord w) :=
  match w with
  | [] => inferInstanceAs (Decidable False)
  | _ :: _ => inferInstanceAs (Decidable (_ ∧ _))

theorem keywords_isWord : ∀ kw ∈ keywords, IsWord kw.1 ∧ keywordType kw.1 = kw.2 := by
  decide +kernel

/-- A keyword that names a type. -/
structure BuiltIn where
  text : Text
  token : TokenType
  kind : JagType
  keyword : (text, token) ∈ keywords
  names : typeKeyword token = some kind

/-- A word that is no keyword. -/
structure ClassName where
  text : Text
  isWord : IsWord text
  noKeyword : keywordType text = .ident

/-! ### Types -/

inductive TypeExpr
  | builtIn (k : BuiltIn)
  | named (c : ClassName)
  | generic (k : BuiltIn) (elem : TypeExpr)

namespace TypeExpr

/-- The source text, without spaces. -/
def text : TypeExpr → Text
  | builtIn k => k.text
  | named c => c.text
  | generic k elem => k.text ++ 60 :: (elem.text ++ [62])

def info : TypeExpr → TypeInfo
  | builtIn k => .new k.kind
  | named c => .mk .classNamed none (some c.text)
  | generic k elem => .mk k.kind (some elem.info) none

/-- How deep the brackets are nested. -/
def depth : TypeExpr → ℕ
  | builtIn _ | named _ => 0
  | generic _ elem => elem.depth + 1

/-- The tokens in front of the closing brackets. -/
def leading (line : ℕ) : TypeExpr → List Token
  | builtIn k => [⟨k.token, k.text, line⟩]
  | named c => [⟨.ident, c.text, line⟩]
  | generic k elem => ⟨k.token, k.text, line⟩ :: ⟨.lt, [60], line⟩ :: elem.leading line

end TypeExpr

/-- The tokens of `d` closing brackets. -/
def closers (line : ℕ) : ℕ → List Token
  | 0 => []
  | 1 => [⟨.gt, [62], line⟩]
  | d + 2 => ⟨.shr, [62, 62], line⟩ :: closers line d

theorem IsWord.no_zero {w : Text} (h : IsWord w) : 0 ∉ w := by
  cases w with
  | nil => exact List.not_mem_nil
  | cons c s =>
    intro hmem
    rcases List.mem_cons.mp hmem with rfl | hmem
    · exact absurd h.1 (by decide)
    · exact absurd (List.all_eq_true.mp h.2 0 hmem) (by decide)

/-! ### Their tokens -/

section Lexing

variable {line : ℕ}

theorem advanceWhile_word {s r : Text} (hs : s.all isIdentByte = true)
    (hr : ∀ b ∈ r.head?, isIdentByte b = false) :
    advanceWhile (fun c => isAlnum c || c = 95) (s ++ r) line = ⟨r, line⟩ := by
  induction s with
  | nil =>
    cases r with
    | nil => rfl
    | cons c r =>
      have hc : (isAlnum c || decide (c = 95)) = false := hr c rfl
      rw [List.nil_append, advanceWhile, hc]
      rfl
  | cons c s ih =>
    rw [List.all_cons, Bool.and_eq_true] at hs
    obtain ⟨hc, hs⟩ := hs
    have hline : lineAfter c line = line := by
      refine if_neg ?_
      rintro rfl
      exact absurd hc (by decide)
    have hc' : (isAlnum c || decide (c = 95)) = true := hc
    rw [List.cons_append, advanceWhile, hc', hline]
    exact ih hs

/-- A byte that is neither white space nor the start of a comment. -/
theorem skipWsAndComments_of_lt {c : UInt8} (hc : 47 < c.toNat) (s : Text) (line : ℕ) :
    skipWsAndComments (c :: s) line = ⟨c :: s, line⟩ := by
  have hne : ∀ b : UInt8, b.toNat ≤ 47 → c ≠ b := by
    rintro b hb rfl
    omega
  rw [skipWsAndComments]
  rw [if_neg, if_neg, if_neg]
  · exact fun h => hne 47 (by decide) h.1
  · exact fun h => hne 47 (by decide) h.1
  · rintro (h | h | h | h)
    · exact hne 32 (by decide) h
    · exact hne 9 (by decide) h
    · exact hne 13 (by decide) h
    · exact hne 10 (by decide) h

theorem lt_of_isAlpha {c : UInt8} (h : (isAlpha c || c = 95) = true) : 47 < c.toNat := by
  simp only [isAlpha, Bool.or_eq_true, Bool.and_eq_true, decide_eq_true_eq,
    UInt8.le_iff_toNat_le] at h
  rcases h with (⟨h, -⟩ | ⟨h, -⟩) | rfl
  · exact lt_of_lt_of_le (by decide) h
  · exact lt_of_lt_of_le (by decide) h
  · decide

/-- A word in front of what cannot continue it. -/
theorem next_word {w r : Text} (hw : IsWord w) (hr : ∀ b ∈ r.head?, isIdentByte b = false) :
    Lexer.next ⟨w ++ r, line⟩ = (⟨keywordType w, w, line⟩, ⟨r, line⟩) := by
  cases w with
  | nil => exact False.elim hw
  | cons c s =>
    obtain ⟨hc, hs⟩ := hw
    have hline : lineAfter c line = line := by
      refine if_neg ?_
      rintro rfl
      exact absurd hc (by decide)
    have hskip := skipWsAndComments_of_lt (lt_of_isAlpha hc) (s ++ r) line
    have hword : advanceWhile (fun c => isAlnum c || c = 95) (s ++ r) line = ⟨r, line⟩ :=
      advanceWhile_word hs hr
    have hmake : ∀ type, (⟨r, line⟩ : Lexer).make type ⟨c :: (s ++ r), line⟩
        = ⟨type, c :: s, line⟩ := by
      intro type
      unfold Lexer.make
      have hlength : (c :: (s ++ r)).length - r.length = (c :: s).length := by
        simp only [List.length_cons, List.length_append]
        omega
      rw [hlength, ← List.cons_append, List.take_left]
    rw [List.cons_append, Lexer.next, hskip]
    dsimp only
    rw [Lexer.nextFrom, if_pos hc, Lexer.advance, identifierOrKeyword]
    dsimp only
    rw [hline, hword, hmake, hmake]

/-- An opening bracket in front of a word. -/
theorem next_lt {w : Text} (hw : IsWord w) (r : Text) :
    Lexer.next ⟨60 :: (w ++ r), line⟩ = (⟨.lt, [60], line⟩, ⟨w ++ r, line⟩) := by
  cases w with
  | nil => exact False.elim hw
  | cons c s =>
    have hne : ∀ b : UInt8, (isAlpha b || b = 95) = false → c ≠ b := by
      rintro b hb rfl
      rw [hw.1] at hb
      cases hb
    have hop : operatorAt 60 (c :: (s ++ r)) = (.lt, 1) := by
      have heq : ∀ b, (isAlpha b || b = 95) = false →
          decide ((c :: (s ++ r)).head? = some b) = false := fun b hb =>
        decide_eq_false fun h => hne b hb (Option.some.inj h)
      show (if decide ((c :: (s ++ r)).head? = some 61) = true then _
        else if (decide ((c :: (s ++ r)).head? = some 60) && _) = true then _
        else if decide ((c :: (s ++ r)).head? = some 60) = true then _ else _) = _
      rw [heq 61 (by decide), heq 60 (by decide)]
      rfl
    rw [List.cons_append, Lexer.next, skipWsAndComments_of_lt (by decide)]
    dsimp only
    rw [Lexer.nextFrom, if_neg (by decide), if_neg (by decide), if_neg (by decide), hop]
    rfl

theorem next_shr (r : Text) :
    Lexer.next ⟨62 :: 62 :: r, line⟩ = (⟨.shr, [62, 62], line⟩, ⟨r, line⟩) := by
  rw [Lexer.next, skipWsAndComments_of_lt (by decide)]
  rfl

theorem lexAll_cons {lx lx' : Lexer} {t : Token} (h : lx.next = (t, lx')) (ht : t.type ≠ .eof) :
    lexAll lx = (t :: (lexAll lx').1, (lexAll lx').2) := by
  rw [lexAll_eq, h]
  exact if_neg ht

theorem lexAll_closers (d : ℕ) : lexAll ⟨List.replicate d 62, line⟩ = (closers line d, line) := by
  have hend : lexAll ⟨[], line⟩ = ([], line) := by
    have hnext : Lexer.next ⟨[], line⟩ = (⟨.eof, [], line⟩, ⟨[], line⟩) := by
      rw [Lexer.next, skipWsAndComments]
    rw [lexAll_eq, hnext]
    rfl
  induction d using closers.induct with
  | case1 => exact hend
  | case2 =>
    have hnext : Lexer.next ⟨[62], line⟩ = (⟨.gt, [62], line⟩, ⟨[], line⟩) := by
      rw [Lexer.next, skipWsAndComments_of_lt (by decide)]
      rfl
    have hgt : TokenType.gt ≠ .eof := by
      intro h
      cases h
    rw [show List.replicate 1 (62 : UInt8) = [62] from rfl, lexAll_cons hnext hgt, hend]
    rfl
  | case3 d ih =>
    have hshr : TokenType.shr ≠ .eof := by
      intro h
      cases h
    rw [List.replicate_succ, List.replicate_succ, lexAll_cons (next_shr _) hshr, ih]
    rfl

/-! ### The tokens of a type -/

theorem BuiltIn.isWord (k : BuiltIn) : IsWord k.text := (keywords_isWord _ k.keyword).1

theorem BuiltIn.keywordType (k : BuiltIn) : Jaguar.keywordType k.text = k.token :=
  (keywords_isWord _ k.keyword).2

theorem BuiltIn.token_ne_eof (k : BuiltIn) : k.token ≠ .eof := by
  intro h
  have hnames := k.names
  rw [h] at hnames
  cases hnames

/-- A type starts with a word. -/
theorem TypeExpr.exists_word (T : TypeExpr) : ∃ w r, IsWord w ∧ T.text = w ++ r := by
  cases T with
  | builtIn k => exact ⟨k.text, [], k.isWord, (List.append_nil _).symm⟩
  | named c => exact ⟨c.text, [], c.isWord, (List.append_nil _).symm⟩
  | generic k elem => exact ⟨k.text, _, k.isWord, rfl⟩

theorem closing_not_word (e : ℕ) :
    ∀ b ∈ (List.replicate e (62 : UInt8)).head?, isIdentByte b = false := by
  intro b hb
  cases e with
  | zero => cases hb
  | succ e =>
    obtain rfl := Option.some.inj hb
    decide

/-- **The tokens of a type.** -/
theorem lexAll_text (T : TypeExpr) (e : ℕ) :
    lexAll ⟨T.text ++ List.replicate e 62, line⟩
      = (T.leading line ++ closers line (T.depth + e), line) := by
  induction T generalizing e with
  | builtIn k =>
    have hnext : Lexer.next ⟨k.text ++ List.replicate e 62, line⟩
        = (⟨keywordType k.text, k.text, line⟩, ⟨List.replicate e 62, line⟩) :=
      next_word k.isWord (closing_not_word e)
    rw [k.keywordType] at hnext
    rw [TypeExpr.text, lexAll_cons hnext k.token_ne_eof, lexAll_closers, TypeExpr.depth, Nat.zero_add]
    rfl
  | named c =>
    have hnext : Lexer.next ⟨c.text ++ List.replicate e 62, line⟩
        = (⟨keywordType c.text, c.text, line⟩, ⟨List.replicate e 62, line⟩) :=
      next_word c.isWord (closing_not_word e)
    rw [c.noKeyword] at hnext
    rw [TypeExpr.text, lexAll_cons hnext nofun, lexAll_closers, TypeExpr.depth, Nat.zero_add]
    rfl
  | generic k elem ih =>
    obtain ⟨w, r, hw, htext⟩ := elem.exists_word
    have hsplit : (TypeExpr.generic k elem).text ++ List.replicate e 62
        = k.text ++ 60 :: (elem.text ++ List.replicate (e + 1) 62) := by
      rw [TypeExpr.text, List.replicate_succ]
      simp
    have hkeyword : Lexer.next ⟨k.text ++ 60 :: (elem.text ++ List.replicate (e + 1) 62), line⟩
        = (⟨keywordType k.text, k.text, line⟩,
          ⟨60 :: (elem.text ++ List.replicate (e + 1) 62), line⟩) := by
      refine next_word k.isWord fun b hb => ?_
      obtain rfl := Option.some.inj hb
      decide
    rw [k.keywordType] at hkeyword
    have hopen : Lexer.next ⟨60 :: (elem.text ++ List.replicate (e + 1) 62), line⟩
        = (⟨.lt, [60], line⟩, ⟨elem.text ++ List.replicate (e + 1) 62, line⟩) := by
      rw [htext, List.append_assoc]
      exact next_lt hw _
    rw [hsplit, lexAll_cons hkeyword k.token_ne_eof, lexAll_cons hopen nofun, ih,
      TypeExpr.depth, show elem.depth + (e + 1) = elem.depth + 1 + e by omega]
    rfl

end Lexing

/-! ### Parsing -/

/-- The state behind `expect(p, TOK_GT, …)`. -/
def PState.close (s : PState) : PState :=
  if s.cur.type = .gt then { s with toks := s.toks.tail }
  else
    { s with
      errors := s.errors ++ [⟨s.cur, "expected '>' to close generic type", s.cur, s.toks.length⟩]
      toks := if s.cur.type = .eof then s.toks else s.toks.tail }

theorem expect_close (s : PState) :
    expect .gt "expected '>' to close generic type" s = some ((), s.close) := by
  show (if s.cur.type = .gt then advance else recover s.cur _) s = _
  unfold PState.close
  by_cases hgt : s.cur.type = .gt
  · rw [if_pos hgt, if_pos hgt]
    rfl
  · rw [if_neg hgt, if_neg hgt]
    by_cases heof : s.cur.type = .eof
    · show (if decide (s.cur.type = .eof) then pure () else advance : P Unit) _ = _
      rw [if_pos (decide_eq_true heof), if_pos heof]
      rfl
    · show (if decide (s.cur.type = .eof) then pure () else advance : P Unit) _ = _
      rw [decide_eq_false heof, if_neg heof]
      rfl

section Parsing

variable {r : Rec} {t : Token} {ts : List Token} (s : PState)

/-- `parse_type` behind a keyword. -/
theorem parseType_keyword {kind : JagType} (h : typeKeyword t.type = some kind) :
    parseType r (s.ahead (t :: ts))
      = (matchT .lt >>= fun b =>
          if b then do
            let elem ← r.type
            expect .gt "expected '>' to close generic type"
            pure (.mk kind (some elem) none)
          else pure (.new kind)) (s.ahead ts) := by
  rw [parseType, run_cur]
  simp only [PState.cur_ahead_cons, h]
  exact run_advance

/-- `parse_type` at a class name. -/
theorem parseType_ident (h : t.type = .ident) :
    parseType r (s.ahead (t :: ts)) = some (.mk .classNamed none (some t.lexeme), s.ahead ts) := by
  have hkeyword : typeKeyword t.type = none := by
    rw [h]
    rfl
  rw [parseType, run_cur]
  simp only [PState.cur_ahead_cons, hkeyword]
  exact run_match_hit h

/-- **The keywords and brackets of a type build it**, and leave the closing brackets. -/
theorem parseType_leading {line : ℕ} (hts : ∀ t ∈ ts.head?, t.type ≠ .lt) (T : TypeExpr) {n : ℕ}
    (hn : T.depth ≤ n) :
    parseType (recAt n) (s.ahead (T.leading line ++ ts))
      = some (T.info, PState.close^[T.depth] (s.ahead ts)) := by
  have hlt : (s.ahead ts).cur.type ≠ .lt := by
    cases ts with
    | nil => exact nofun
    | cons t ts => exact hts t rfl
  induction T generalizing n with
  | builtIn k => exact (parseType_keyword s k.names).trans (run_match_miss hlt)
  | named c => exact parseType_ident s rfl
  | generic k elem ih =>
    rw [TypeExpr.depth] at hn
    obtain ⟨n, rfl⟩ : ∃ m, n = m + 1 := ⟨n - 1, by omega⟩
    refine (parseType_keyword s k.names).trans ((run_match_hit rfl).trans ?_)
    refine (run_bind (ih (by omega))).trans ((run_bind (expect_close _)).trans ?_)
    rw [TypeExpr.depth, Function.iterate_succ_apply']
    rfl

end Parsing

/-! ### The closing brackets -/

theorem PState.hadError_close {s : PState} (h : s.cur.type ≠ .gt ∨ s.hadError = true) :
    s.close.hadError = true := by
  unfold PState.close
  split
  · next hgt => exact h.resolve_left fun hne => hne hgt
  · simp [PState.hadError]

theorem PState.hadError_closes {s : PState} (h : s.hadError = true) (d : ℕ) :
    (PState.close^[d] s).hadError = true := by
  induction d generalizing s with
  | zero => exact h
  | succ d ih => exact ih (PState.hadError_close (.inr h))

/-- A bracket is expected and there; where two follow each other another token is. -/
theorem closers_spec (s : PState) (line d : ℕ) :
    (d ≤ 1 ∧ PState.close^[d] (s.ahead (closers line d)) = s.ahead []) ∨
      1 < d ∧ (PState.close^[d] (s.ahead (closers line d))).hadError = true := by
  match d with
  | 0 => exact .inl ⟨by omega, rfl⟩
  | 1 => exact .inl ⟨le_refl 1, rfl⟩
  | d + 2 =>
    have hshr : (s.ahead (closers line (d + 2))).cur.type ≠ .gt := show TokenType.shr ≠ .gt by decide
    refine .inr ⟨by omega, ?_⟩
    rw [Function.iterate_succ_apply]
    exact PState.hadError_closes (PState.hadError_close (.inl hshr)) _

theorem closers_lexemes (line d : ℕ) :
    (closers line d).flatMap Token.lexeme = List.replicate d 62 := by
  induction d using closers.induct with
  | case1 => rfl
  | case2 => rfl
  | case3 d ih =>
    rw [closers, List.flatMap_cons, ih]
    rfl

namespace TypeExpr

theorem leading_lexemes (T : TypeExpr) (line : ℕ) :
    (T.leading line).flatMap Token.lexeme ++ List.replicate T.depth 62 = T.text := by
  induction T with
  | builtIn k => exact (List.append_nil _).trans (List.append_nil _)
  | named c => exact (List.append_nil _).trans (List.append_nil _)
  | generic k elem ih =>
    rw [leading, List.flatMap_cons, List.flatMap_cons, depth, List.replicate_succ', text, ← ih]
    simp

theorem text_no_zero (T : TypeExpr) : 0 ∉ T.text := by
  induction T with
  | builtIn k => exact k.isWord.no_zero
  | named c => exact c.isWord.no_zero
  | generic k elem ih =>
    intro hmem
    rcases List.mem_append.mp hmem with hmem | hmem
    · exact k.isWord.no_zero hmem
    · rcases List.mem_cons.mp hmem with hmem | hmem
      · cases hmem
      · rcases List.mem_append.mp hmem with hmem | hmem
        · exact ih hmem
        · cases List.mem_singleton.mp hmem

/-! ### The law -/

/-- The text of a type is parsed into the type: without an error, and to its end. Every byte of
it is in a token. -/
def ParsesExactly (T : TypeExpr) : Prop :=
  (tokenize T.text).1.flatMap Token.lexeme = T.text ∧
    ∃ N, ∀ n ≥ N, ∃ s, parseType (recAt n) (initParser T.text) = some (T.info, s) ∧
      s.hadError = false ∧ s.toks = []

theorem tokenize_text (T : TypeExpr) :
    tokenize T.text = (T.leading 1 ++ closers 1 T.depth, 1) := by
  have htokens : lexAll ⟨T.text ++ List.replicate 0 62, 1⟩
      = (T.leading 1 ++ closers 1 (T.depth + 0), 1) := lexAll_text T 0
  rw [List.replicate_zero, List.append_nil, Nat.add_zero] at htokens
  rw [tokenize, Lexer.init, cStr_eq_self T.text_no_zero, htokens]

theorem parseType_text (T : TypeExpr) {n : ℕ} (hn : T.depth ≤ n) :
    parseType (recAt n) (initParser T.text) = some (T.info,
      PState.close^[T.depth] ((initParser T.text).ahead (closers 1 T.depth))) := by
  have hstate : initParser T.text = (initParser T.text).ahead (T.leading 1 ++ closers 1 T.depth) := by
    unfold initParser
    rw [T.tokenize_text]
    rfl
  rw [hstate, PState.ahead_ahead]
  refine parseType_leading _ (fun t ht => ?_) T hn
  match hdepth : T.depth with
  | 0 =>
    rw [hdepth] at ht
    cases ht
  | 1 =>
    rw [hdepth] at ht
    obtain rfl := Option.some.inj ht
    exact nofun
  | d + 2 =>
    rw [hdepth] at ht
    obtain rfl := Option.some.inj ht
    exact nofun

end TypeExpr

/-- **When the text of a type is parsed into it.** -/
theorem parsesExactly_iff (T : TypeExpr) : T.ParsesExactly ↔ T.depth ≤ 1 := by
  have hclosers := closers_spec (initParser T.text) 1 T.depth
  constructor
  · rintro ⟨-, N, h⟩
    obtain ⟨s, hrun, hs, -⟩ := h (max N T.depth) (le_max_left _ _)
    rw [T.parseType_text (le_max_right _ _)] at hrun
    obtain rfl := congrArg Prod.snd (Option.some.inj hrun)
    rcases hclosers with ⟨hdepth, -⟩ | ⟨-, herror⟩
    · exact hdepth
    · rw [hs] at herror
      cases herror
  · intro hdepth
    refine ⟨?_, T.depth, fun n hn => ⟨_, T.parseType_text hn, ?_⟩⟩
    · rw [T.tokenize_text, List.flatMap_append, closers_lexemes]
      exact T.leading_lexemes 1
    · rcases hclosers with ⟨-, hclose⟩ | ⟨hlt, -⟩
      · rw [hclose]
        exact ⟨rfl, rfl⟩
      · omega

/-- `num` -/
def numType : BuiltIn := ⟨txt "num", .typeNum, .num, by decide, rfl⟩

/-- `list` -/
def listType : BuiltIn := ⟨txt "list", .typeList, .list, by decide, rfl⟩

/-- `list<list<num>>` -/
def listOfLists : TypeExpr := .generic listType (.generic listType (.builtIn numType))

/-- **`list<list<num>>`** is not parsed without an error. -/
theorem nested_list_error : ¬ ∀ T : TypeExpr, T.ParsesExactly := by
  intro h
  obtain ⟨-, N, hruns⟩ := h listOfLists
  obtain ⟨s, hrun, hs, -⟩ := hruns (max N 2) (le_max_left _ _)
  rw [listOfLists.parseType_text (le_max_right N 2)] at hrun
  obtain rfl := congrArg Prod.snd (Option.some.inj hrun)
  rcases closers_spec (initParser listOfLists.text) 1 2 with ⟨hdepth, -⟩ | ⟨-, herror⟩
  · omega
  · exact absurd (hs.symm.trans herror) Bool.false_ne_true

end Jaguar
