/-
The two spellings of a hole, `{{e}}` and `${e}`, are not the same.

For `${` the splitter passes one byte of the opener, so the text it hands to the expression
parser starts with the brace, and the brace that should end the hole only closes that one.
What is parsed is a data literal, and the text behind the hole is lost to it.

* `splitTemplate_braces`, `splitTemplate_dollar` — what the two are split into;
* `parseAssignment_starts` — what an expression starts with is what `parse_primary` read;
* `cleanKey` — in a parse without errors a key is an identifier or a string;
* `leadKey_ne` — an expression and the data literal read in its place start differently;
* `dollarHole_ne_braces` — **the parts differ for every expression**.
-/
import Jaguar.Interpolation

namespace Jaguar

/-! ### The two spellings -/

/-- A literal with one hole, spelled `{{e}}`. -/
def Lead.braces (p : Lead) (suffix : LiteralText) : Text :=
  p.literal.text ++ 123 :: 123 :: (p.hole.text ++ 125 :: 125 :: suffix.text)

/-- The same literal with the hole spelled `${e}`. -/
def Lead.dollar (p : Lead) (suffix : LiteralText) : Text :=
  p.literal.text ++ 36 :: 123 :: (p.hole.text ++ 125 :: suffix.text)

theorem splitTemplate_braces (p : Lead) (suffix : LiteralText) :
    splitTemplate [] (p.braces suffix)
      = literalPart p.literal.text ++ .expr p.hole.text :: literalPart suffix.text := by
  have hmeet : p.literal.text.getLast? = some 123 ∨ p.literal.text.getLast? = some 36 →
      (123 :: 123 :: (p.hole.text ++ 125 :: 125 :: suffix.text)).head? ≠ some 123 := by
    intro h
    rcases h with h | h
    · exact absurd h p.before.1
    · exact absurd h p.before.2
  rw [Lead.braces, splitTemplate_append p.literal.openerFree hmeet, splitTemplate]
  simp only [List.head?_cons, and_self, true_or, if_true, decide_true,
    takeExpr_braces p.hole.balanced, List.nil_append,
    splitTemplate_openerFree suffix.openerFree]

/-- The text that is parsed for a hole spelled `${e}`. -/
def Lead.dollarText (p : Lead) (suffix : LiteralText) : Text :=
  123 :: (p.hole.text ++ 125 :: suffix.text.take (exprLength 1 suffix.text))

theorem splitTemplate_dollar (p : Lead) (suffix : LiteralText) :
    splitTemplate [] (p.dollar suffix)
      = literalPart p.literal.text ++ .expr (p.dollarText suffix)
        :: splitTemplate [] (suffix.text.drop (exprLength 1 suffix.text + 1)) := by
  have hmeet : p.literal.text.getLast? = some 123 ∨ p.literal.text.getLast? = some 36 →
      (36 :: 123 :: (p.hole.text ++ 125 :: suffix.text)).head? ≠ some 123 := by
    intro _
    simp
  have hopen : ¬ ((36 : UInt8) = 123) := by decide
  rw [Lead.dollar, splitTemplate_append p.literal.openerFree hmeet, splitTemplate]
  simp only [List.head?_cons, and_true, or_true, if_true, hopen, if_false, decide_false,
    takeExpr_dollar p.hole.balanced, List.nil_append]
  rfl

/-! ### What an expression starts with -/

/-- The first key of the data literal an expression starts with: `none` if it starts with
something else, `some none` for `{}`. -/
def Expr.leadKey : Expr → Option (Option Text)
  | .data _ entries => some (entries.head?.map Prod.fst)
  | .binary _ left _ _ => left.leadKey
  | .assign _ target _ _ => target.leadKey
  | .call _ callee _ => callee.leadKey
  | .member _ object _ => object.leadKey
  | .index _ object _ => object.leadKey
  | .ternary _ cond _ _ => cond.leadKey
  | .between _ value _ _ => value.leadKey
  | _ => none

theorem Expr.leadKey_withLine (e : Expr) (line : ℕ) : (e.withLine line).leadKey = e.leadKey := by
  cases e <;> rfl

variable {α β : Type} {r : Rec} {n : ℕ}

/-- Every run of `m` from `s` that returns yields a value with `Q`. -/
def Yields (m : P α) (s : PState) (Q : α → Prop) : Prop := ∀ a s', m s = some (a, s') → Q a

theorem Yields.bind {m : P α} {f : α → P β} {s : PState} {Q : β → Prop}
    (h : ∀ a s', m s = some (a, s') → Yields (f a) s' Q) : Yields (m >>= f) s Q := by
  intro b s'' hrun
  rw [stateT_bind_eq] at hrun
  cases hm : m s with
  | none => simp [hm] at hrun
  | some x =>
    rw [hm] at hrun
    exact h x.1 x.2 hm b s'' hrun

theorem yields_pure {a : α} {s : PState} {Q : α → Prop} (h : Q a) :
    Yields (pure a : P α) s Q := by
  intro b s' hrun
  obtain ⟨rfl, -⟩ := Prod.mk.inj (Option.some.inj hrun)
  exact h

theorem yields_ite {c : Prop} [Decidable c] {f g : P α} {s : PState} {Q : α → Prop}
    (hf : c → Yields f s Q) (hg : ¬ c → Yields g s Q) : Yields (if c then f else g) s Q := by
  split_ifs with h
  · exact hf h
  · exact hg h

theorem yields_match {t : TokenType} {f g : P α} {s : PState} {Q : α → Prop}
    (hf : s.cur.type = t → Yields f s.next Q) (hg : s.cur.type ≠ t → Yields g s Q) :
    Yields (matchT t >>= fun b => if b then f else g) s Q := by
  intro a s' hrun
  rw [matchT_bind] at hrun
  by_cases h : s.cur.type = t
  · rw [if_pos h] at hrun
    exact hf h a s' hrun
  · rw [if_neg h] at hrun
    exact hg h a s' hrun

/-- A continuation that keeps what the expression starts with, and only moves on. -/
structure Keeps (f : Expr → P Expr) : Prop where
  leadKey : ∀ e₀ s₀, Yields (f e₀) s₀ fun e => e.leadKey = e₀.leadKey
  progress : ∀ e₀, ∃ n, Within n Progress (f e₀)

/-- What `upper` yields from `s` starts with what `lower` yields. -/
def Starts (lower upper : P Expr) (s : PState) : Prop :=
  ∀ e s', upper s = some (e, s') → ∃ e₀ s₀, lower s = some (e₀, s₀) ∧
    e.leadKey = e₀.leadKey ∧ Progress s₀ s'

theorem Keeps.starts {m : P Expr} {f : Expr → P Expr} (hf : Keeps f) (s : PState) :
    Starts m (m >>= f) s := by
  intro e s' hrun
  rw [stateT_bind_eq] at hrun
  cases hm : m s with
  | none => simp [hm] at hrun
  | some x =>
    rw [hm] at hrun
    obtain ⟨n, hprogress⟩ := hf.progress x.1
    exact ⟨x.1, x.2, rfl, hf.leadKey x.1 x.2 e s' hrun, (hprogress x.2).rel hrun⟩

theorem Starts.trans {m₁ m₂ m₃ : P Expr} {s : PState} (h : Starts m₁ m₂ s)
    (h' : Starts m₂ m₃ s) : Starts m₁ m₃ s := by
  intro e s' hrun
  obtain ⟨e₁, s₁, hrun₁, hkey₁, hprogress₁⟩ := h' e s' hrun
  obtain ⟨e₀, s₀, hrun₀, hkey₀, hprogress₀⟩ := h e₁ s₁ hrun₁
  exact ⟨e₀, s₀, hrun₀, hkey₁.trans hkey₀, hprogress₀.trans hprogress₁⟩

theorem keeps_postfixLoop (hr : r.Upto n) (k : ℕ) : Keeps (postfixLoop r k) where
  leadKey := by
    induction k with
    | zero =>
      intro _ _ _ _ h
      cases h
    | succ k ih =>
      intro e s
      refine yields_match (fun _ => ?_) fun _ => yields_match (fun _ => ?_) fun _ =>
        yields_match (fun _ => ?_) fun _ => yields_pure rfl
      · refine Yields.bind fun name s₁ _ => ?_
        refine yields_match (fun _ => ?_) fun _ => ih (.member e.line e name) _
        exact Yields.bind fun args s₂ _ => ih (.call e.line (.member e.line e name) args) _
      · exact Yields.bind fun i s₁ _ => Yields.bind fun _ s₂ _ => ih (.index e.line e i) _
      · exact Yields.bind fun args s₁ _ => ih (.call e.line e args) _
  progress e := ⟨_, within_postfixLoop hr k e⟩

theorem keeps_binaryLoop {ops : List TokenType} (hops : .eof ∉ ops) {operand : P Expr}
    (hoperand : Within n Progress operand) {line : Token → Expr → ℕ} (k : ℕ) :
    Keeps (binaryLoop ops operand line k) where
  leadKey := by
    induction k with
    | zero =>
      intro _ _ _ _ h
      cases h
    | succ k ih =>
      intro e s
      refine Yields.bind fun op s₁ _ => yields_ite (fun _ => ?_) fun _ => yields_pure rfl
      refine Yields.bind fun _ s₂ _ => Yields.bind fun right s₃ _ => ?_
      exact ih (.binary (line op e) e right op.type) _
  progress e := ⟨_, within_binaryLoop hops hoperand k e⟩

/-- A level of expressions above `parse_unary`. -/
structure LevelAbove (r : Rec) (n : ℕ) (m : P Expr) : Prop where
  within : Within (n + 1) Eats m
  starts : ∀ s, Starts (parseUnary r) m s

theorem LevelAbove.binary (hr : r.Upto n) {ops : List TokenType} (hops : .eof ∉ ops) {m : P Expr}
    (hm : LevelAbove r n m) {line : Token → Expr → ℕ} :
    LevelAbove r n (parseLevel r ops m line) where
  within := within_parseLevel hr hops hm.within
  starts s := (hm.starts s).trans ((keeps_binaryLoop hops hm.within.progress r.turns).starts s)

/-- The levels between `parse_unary` and `parse_assignment`. -/
theorem parseAssignment_starts (hr : r.Upto n) (s : PState) :
    Starts (parseUnary r) (parseAssignment r) s := by
  have hpower : Keeps fun left => matchT .pow >>= fun b =>
      if b then r.power >>= fun right => pure (.binary left.line left right .pow)
      else pure left := {
    leadKey := fun e s => yields_match (fun _ => Yields.bind fun _ _ _ => yields_pure rfl)
      fun _ => yields_pure rfl
    progress := fun e => ⟨n + 1, within_match' (by decide)
      (hr.power.progress.then fun _ => within_pure _) (within_pure _)⟩ }
  have hbetween : Keeps fun left => matchT .between >>= fun b =>
      if b then
        expect .lparen "expected '(' after '<<<'" >>= fun _ => r.assignment >>= fun low =>
        expect .comma "expected ',' between low and high bounds" >>= fun _ =>
        r.assignment >>= fun high => expect .rparen "expected ')' after bounds" >>= fun _ =>
        pure (.between left.line left low high)
      else pure left := {
    leadKey := fun e s => yields_match (fun _ => Yields.bind fun _ _ _ => Yields.bind fun _ _ _ =>
      Yields.bind fun _ _ _ => Yields.bind fun _ _ _ => Yields.bind fun _ _ _ => yields_pure rfl)
      fun _ => yields_pure rfl
    progress := fun e => ⟨n + 1, within_match' (by decide)
      ((within_expect' _ _).then fun _ => (within_assignment hr).then fun _ =>
        (within_expect' _ _).then fun _ => (within_assignment hr).then fun _ =>
        (within_expect' _ _).then fun _ => within_pure _) (within_pure _)⟩ }
  have hternary : Keeps fun cond => matchT .question >>= fun b =>
      if b then
        r.assignment >>= fun thenE => expect .colon "expected ':' in ternary expression" >>=
        fun _ => r.assignment >>= fun elseE => pure (.ternary cond.line cond thenE elseE)
      else pure cond := {
    leadKey := fun e s => yields_match (fun _ => Yields.bind fun _ _ _ => Yields.bind fun _ _ _ =>
      Yields.bind fun _ _ _ => yields_pure rfl) fun _ => yields_pure rfl
    progress := fun e => ⟨n + 1, within_match' (by decide)
      ((within_assignment hr).then fun _ => (within_expect' _ _).then fun _ =>
        (within_assignment hr).then fun _ => within_pure _) (within_pure _)⟩ }
  have hassign : Keeps fun left => cur >>= fun op =>
      if isAssignOp op.type then
        advance >>= fun _ => r.assignment >>= fun value =>
        pure (.assign op.line left value op.type)
      else pure left := {
    leadKey := fun e s => Yields.bind fun op _ _ => yields_ite
      (fun _ => Yields.bind fun _ _ _ => Yields.bind fun _ _ _ => yields_pure rfl)
      fun _ => yields_pure rfl
    progress := fun e => ⟨n + 1, within_cur_if (c := fun t => isAssignOp t = true) (by decide)
      (fun _ => (within_assignment hr).then fun _ => within_pure _) fun _ => within_pure _⟩ }
  have hshift : LevelAbove r n (parseShift r) :=
    .binary hr (by decide) <| .binary hr (by decide) <| .binary hr (by decide)
      ⟨within_parsePower hr, fun s => hpower.starts s⟩
  have hor : LevelAbove r n (parseOr r) :=
    .binary hr (by decide) <| .binary hr (by decide) <| .binary hr (by decide) <|
      .binary hr (by decide)
        ⟨within_parseBetween hr, fun s => (hshift.starts s).trans (hbetween.starts s)⟩
  exact ((hor.starts s).trans (hternary.starts s)).trans (hassign.starts s)

theorem parseUnary_eq (r : Rec) (s : PState) :
    parseUnary r s = (if s.cur.type ∈ [.not, .minus] then
      advance >>= fun _ => r.unary >>= fun operand => pure (.unary s.cur.line operand s.cur.type)
      else parsePostfix r) s := rfl

/-- A prefix operator is no start of a data literal. -/
theorem parseUnary_operator (r : Rec) {s : PState} (h : s.cur.type ∈ [.not, .minus]) :
    Yields (parseUnary r) s fun e => e.leadKey = none := by
  intro e s' he
  rw [parseUnary_eq, if_pos h] at he
  have hyields : Yields (advance >>= fun _ => r.unary >>= fun operand =>
      pure (Expr.unary s.cur.line operand s.cur.type)) s fun e => e.leadKey = none :=
    Yields.bind fun _ _ _ => Yields.bind fun _ _ _ => yields_pure rfl
  exact hyields e s' he

theorem parseUnary_starts (hr : r.Upto n) {s : PState} (h : s.cur.type ∉ [.not, .minus]) :
    Starts (parsePrimary r) (parseUnary r) s := by
  intro e s' he
  rw [parseUnary_eq, if_neg h] at he
  exact (keeps_postfixLoop hr r.turns).starts s e s' he

/-! ### Data literals -/

/-- Only a brace or a parenthesis can start a data literal. -/
theorem parsePrimary_leadKey (r : Rec) {s : PState} (hbrace : s.cur.type ≠ .lbrace)
    (hparen : s.cur.type ≠ .lparen) : Yields (parsePrimary r) s fun e => e.leadKey = none := by
  have hfunc : ∀ (t : Token) (isAsync : Bool) (s : PState),
      Yields (parseFuncLit r t isAsync) s fun e => e.leadKey = none := fun t isAsync s =>
    Yields.bind fun _ _ _ => Yields.bind fun _ _ _ => Yields.bind fun _ _ _ =>
      Yields.bind fun _ _ _ => Yields.bind fun _ _ _ => Yields.bind fun _ _ _ => yields_pure rfl
  refine Yields.bind fun t s' ht => ?_
  obtain ⟨-, rfl⟩ := Prod.mk.inj (Option.some.inj ht)
  iterate 5 refine yields_match (fun _ => yields_pure rfl) fun _ => ?_
  refine yields_match (fun _ => Yields.bind fun _ _ _ => yields_pure rfl) fun _ => ?_
  iterate 4 refine yields_match (fun _ => yields_pure rfl) fun _ => ?_
  refine yields_match (fun _ => Yields.bind fun _ _ _ => Yields.bind fun _ _ _ =>
    Yields.bind fun _ _ _ => Yields.bind fun _ _ _ => Yields.bind fun _ _ _ => yields_pure rfl)
    fun _ => ?_
  refine yields_match (fun _ => Yields.bind fun _ _ _ => yields_pure rfl) fun _ => ?_
  refine yields_match (fun _ => Yields.bind fun _ _ _ => hfunc _ _ _) fun _ => ?_
  refine yields_match (fun _ => hfunc _ _ _) fun _ => ?_
  refine yields_match (fun h => absurd h hparen) fun _ => ?_
  refine yields_match (fun _ => Yields.bind fun _ _ _ => Yields.bind fun _ _ _ => yields_pure rfl)
    fun _ => ?_
  refine yields_match (fun h => absurd h hbrace) fun _ => ?_
  exact Yields.bind fun _ _ _ => yields_pure rfl

/-- A data literal behind its brace. -/
def parseDataLit (r : Rec) (line : ℕ) : P Expr := do
  let entries ← listUntil r .rbrace (parseDataEntry r)
  expect .rbrace "expected '\x7d'"
  pure (.data line entries)

theorem parsePrimary_lbrace (r : Rec) {s : PState} (h : s.cur.type = .lbrace) :
    parsePrimary r s = parseDataLit r s.cur.line s.next := by
  obtain ⟨source, toks, eofLine, errors, nested⟩ := s
  cases toks with
  | nil => cases h
  | cons t ts =>
    obtain ⟨type, lexeme, line⟩ := t
    obtain rfl : type = .lbrace := h
    rfl

theorem parsePrimary_lparen (r : Rec) {s : PState} (h : s.cur.type = .lparen) :
    parsePrimary r s
      = (r.assignment >>= fun e => expect .rparen "expected ')'" >>= fun _ => pure e) s.next := by
  obtain ⟨source, toks, eofLine, errors, nested⟩ := s
  cases toks with
  | nil => cases h
  | cons t ts =>
    obtain ⟨type, lexeme, line⟩ := t
    obtain rfl : type = .lparen := h
    rfl

/-- A run of `m >>= f` is a run of `m` and one of `f`. -/
theorem bind_eq_some {m : P α} {f : α → P β} {s s'' : PState} {b : β}
    (h : (m >>= f) s = some (b, s'')) :
    ∃ a s', m s = some (a, s') ∧ f a s' = some (b, s'') := by
  rw [stateT_bind_eq] at h
  cases hm : m s with
  | none => simp [hm] at h
  | some x =>
    rw [hm] at h
    exact ⟨x.1, x.2, rfl, h⟩

theorem pure_eq_some {a b : α} {s s' : PState} (h : (pure a : P α) s = some (b, s')) :
    a = b ∧ s = s' := by
  obtain ⟨rfl, rfl⟩ := Prod.mk.inj (Option.some.inj h)
  exact ⟨rfl, rfl⟩

theorem check_bind (t : TokenType) (f : Bool → P α) (s : PState) :
    (check t >>= f) s = f (decide (s.cur.type = t)) s := rfl

/-- The first key of a data literal is the text of the token behind its brace. -/
theorem parseDataLit_leadKey (hr : r.Upto n) {line : ℕ} {s s' : PState} {e : Expr}
    (h : parseDataLit r line s = some (e, s')) :
    (s.cur.type = .rbrace ∧ e.leadKey = some none) ∨
      (s.cur.type ≠ .rbrace ∧ e.leadKey = some (some s.cur.lexeme) ∧
        ∃ s₁, expectKey s = some ((), s₁) ∧ Progress s₁ s') := by
  obtain ⟨entries, s₁, hentries, h⟩ := bind_eq_some h
  obtain ⟨⟨⟩, s₂, hclose, h⟩ := bind_eq_some h
  obtain ⟨rfl, rfl⟩ := pure_eq_some h
  have hprogress₂ : Progress s₁ s₂ := (within_expect' (n := 0) _ _ s₁).rel hclose
  rw [listUntil, check_bind] at hentries
  by_cases hclosed : s.cur.type = .rbrace
  · rw [if_pos (decide_eq_true hclosed)] at hentries
    obtain ⟨rfl, -⟩ := pure_eq_some hentries
    exact .inl ⟨hclosed, rfl⟩
  · rw [if_neg (by simpa using hclosed)] at hentries
    obtain ⟨k, hk⟩ := Nat.exists_eq_succ_of_ne_zero (Nat.ne_of_gt (Nat.zero_lt_of_lt hr.turns))
    rw [hk] at hentries
    obtain ⟨entry, s₃, hentry, hentries⟩ := bind_eq_some hentries
    have hhead : entries.head? = some entry ∧ Progress s₃ s₁ := by
      obtain ⟨b, s₄, hcomma, hentries⟩ := bind_eq_some hentries
      have hprogress₄ : Progress s₃ s₄ := (within_matchT (n := 0) _ s₃).rel hcomma
      cases b with
      | false =>
        obtain ⟨rfl, rfl⟩ := pure_eq_some hentries
        exact ⟨rfl, hprogress₄⟩
      | true =>
        obtain ⟨as, s₅, has, hentries⟩ := bind_eq_some hentries
        obtain ⟨rfl, rfl⟩ := pure_eq_some hentries
        exact ⟨rfl, hprogress₄.trans ((within_commaList (within_parseDataEntry hr) k s₄).rel has)⟩
    obtain ⟨key, s₀, hkey, hentry⟩ := bind_eq_some hentry
    obtain ⟨rfl, rfl⟩ := Prod.mk.inj (Option.some.inj hkey)
    obtain ⟨⟨⟩, s₅, hexpect, hentry⟩ := bind_eq_some hentry
    obtain ⟨⟨⟩, s₆, hcolon, hentry⟩ := bind_eq_some hentry
    obtain ⟨value, s₇, hvalue, hentry⟩ := bind_eq_some hentry
    obtain ⟨rfl, rfl⟩ := pure_eq_some hentry
    refine .inr ⟨hclosed, ?_, s₅, hexpect, ?_⟩
    · show some (entries.head?.map Prod.fst) = _
      rw [hhead.1]
      rfl
    · exact (((within_expect' (n := 0) _ _ s₅).rel hcolon).trans
        ((within_assignment hr s₆).rel hvalue)).trans (hhead.2.trans hprogress₂)

/-- Errors are never taken back. -/
theorem Progress.errors_eq {s s' s'' : PState} (h : Progress s s') (h' : Progress s' s'')
    (herrors : s''.errors = s.errors) : s'.errors = s.errors ∧ s''.errors = s'.errors := by
  obtain ⟨new, hnew, -⟩ := h.errors
  obtain ⟨new', hnew', -⟩ := h'.errors
  have hnil : new ++ new' = [] := by
    rw [hnew', hnew, List.append_assoc] at herrors
    exact List.self_eq_append_right.mp herrors.symm
  obtain ⟨rfl, rfl⟩ := List.append_eq_nil_iff.mp hnil
  rw [hnew', hnew, List.append_nil, List.append_nil]
  exact ⟨rfl, rfl⟩

/-- Without an error `expect` passed the token it expects. -/
theorem expect_clean {t : TokenType} {what : String} {s s' : PState}
    (h : expect t what s = some ((), s')) (herrors : s'.errors = s.errors) : s.cur.type = t := by
  by_contra hne
  have hrun : expect t what s = (if s.cur.type = t then advance else recover s.cur what) s := rfl
  rw [hrun, if_neg hne] at h
  obtain ⟨⟨⟩, s₁, hlog, h⟩ := bind_eq_some h
  obtain ⟨-, rfl⟩ := Prod.mk.inj (Option.some.inj hlog)
  have hlast : s'.errors = s.errors ++ [⟨s.cur, what, s.cur, s.toks.length⟩] := by
    rw [check_bind] at h
    split_ifs at h
    · obtain ⟨-, rfl⟩ := pure_eq_some h
      rfl
    · obtain ⟨-, rfl⟩ := Prod.mk.inj (Option.some.inj h)
      rfl
  rw [hlast] at herrors
  exact absurd (List.append_right_eq_self.mp herrors) (List.cons_ne_nil _ _)

theorem expectKey_clean {s s' : PState} (h : expectKey s = some ((), s'))
    (herrors : s'.errors = s.errors) : s.cur.type = .stringLit ∨ s.cur.type = .ident := by
  rw [expectKey, matchT_bind] at h
  by_cases hstr : s.cur.type = .stringLit
  · exact .inl hstr
  · rw [if_neg hstr] at h
    exact .inr (expect_clean h herrors)

/-- **In a parse without errors a key is an identifier or a string.** -/
theorem cleanKey (n : ℕ) {s s' : PState} {e : Expr} {key : Text}
    (h : (recAt n).assignment s = some (e, s')) (herrors : s'.errors = s.errors)
    (hkey : e.leadKey = some (some key)) :
    ∃ t ∈ s.toks, t.lexeme = key ∧ (t.type = .stringLit ∨ t.type = .ident) := by
  induction n generalizing s s' e with
  | zero => cases h
  | succ n ih =>
    have hr := recAt_upto n
    obtain ⟨e₁, s₁, hunary, hkey₁, hprogress₁⟩ := parseAssignment_starts hr s e s' h
    by_cases hop : s.cur.type ∈ [.not, .minus]
    · rw [hkey₁, parseUnary_operator _ hop e₁ s₁ hunary] at hkey
      cases hkey
    obtain ⟨e₀, s₀, hprimary, hkey₀, hprogress₀⟩ := parseUnary_starts hr hop e₁ s₁ hunary
    rw [hkey₁, hkey₀] at hkey
    have herrors₀ : s₀.errors = s.errors :=
      (((within_parsePrimary hr s).rel hprimary).toProgress.errors_eq
        (hprogress₀.trans hprogress₁) herrors).1
    by_cases hparen : s.cur.type = .lparen
    · -- a parenthesised expression starts with what is inside
      rw [parsePrimary_lparen _ hparen] at hprimary
      obtain ⟨e₂, s₂, hinner, hprimary⟩ := bind_eq_some hprimary
      obtain ⟨⟨⟩, s₃, hclose, hprimary⟩ := bind_eq_some hprimary
      obtain ⟨rfl, rfl⟩ := pure_eq_some hprimary
      have hinnerProgress : Progress s.next s₂ := (within_assignment hr s.next).rel hinner
      have herrors₂ : s₂.errors = s.next.errors :=
        (hinnerProgress.errors_eq ((within_expect' (n := 0) _ _ s₂).rel hclose) herrors₀).1
      obtain ⟨t, ht, hlexeme, htype⟩ := ih hinner herrors₂ hkey
      exact ⟨t, List.mem_of_mem_tail ht, hlexeme, htype⟩
    by_cases hbrace : s.cur.type = .lbrace
    · rw [parsePrimary_lbrace _ hbrace] at hprimary
      rcases parseDataLit_leadKey hr hprimary with ⟨-, hempty⟩ | ⟨-, hfirst, s₂, hexpect, hprogress⟩
      · rw [hempty] at hkey
        cases hkey
      · have hkeyProgress : Progress s.next s₂ := by
          have hwithin : Within 0 Progress expectKey := (within_matchT _).then fun _ =>
            within_ite (fun _ => within_pure _) fun _ => within_expect' _ _
          exact (hwithin s.next).rel hexpect
        have hexpectErrors := (hkeyProgress.errors_eq hprogress herrors₀).1
        rw [hfirst] at hkey
        have hclean := expectKey_clean hexpect hexpectErrors
        have hne : s.next.cur.type ≠ .eof := by
          rcases hclean with h | h <;> rw [h] <;> decide
        exact ⟨s.next.cur, List.mem_of_mem_tail (cur_mem hne),
          Option.some.inj (Option.some.inj hkey), hclean⟩
    · rw [parsePrimary_leadKey _ hbrace hparen _ _ hprimary] at hkey
      cases hkey

/-! ### The first tokens -/

theorem operatorAt_ne_ident (c : UInt8) (s : Text) : (operatorAt c s).1 ≠ .ident := by
  unfold operatorAt
  dsimp only
  split <;> (try split_ifs) <;> decide

/-- Which byte a token with an opening bracket starts with. -/
theorem operatorAt_opening {c : UInt8} {s : Text} :
    ((operatorAt c s).1 = .lbrace → c = 123) ∧ ((operatorAt c s).1 = .lparen → c = 40) := by
  have hchar : ∀ n < 256, (Char.ofNat n = '\x7b' → n = 123) ∧ (Char.ofNat n = '(' → n = 40) := by
    decide +kernel
  have hc := hchar c.toNat c.toNat_lt
  constructor
  · intro h
    refine UInt8.toNat_inj.mp (hc.1 ?_)
    unfold operatorAt at h
    dsimp only at h
    split at h <;> first | assumption | cases h | (split_ifs at h)
  · intro h
    refine UInt8.toNat_inj.mp (hc.2 ?_)
    unfold operatorAt at h
    dsimp only at h
    split at h <;> first | assumption | cases h | (split_ifs at h)

/-- What the type of a token says about its text. -/
theorem Lexer.nextFrom_type (c : UInt8) (s : Text) (line : ℕ) :
    ((nextFrom c s line).1.type = .stringLit → c = 34) ∧
      ((nextFrom c s line).1.type = .ident →
        (isAlpha c || c = 95) = true ∧ (nextFrom c s line).1.lexeme.head? = some c) ∧
      ((nextFrom c s line).1.type = .lbrace → c = 123) ∧
      ((nextFrom c s line).1.type = .lparen → c = 40) := by
  unfold nextFrom
  dsimp only
  split_ifs with halpha hdigit hquote
  · simp only [identifierOrKeyword, Lexer.advance, Lexer.make]
    have hlen := (advanceWhile_suffix (fun c => isAlnum c || c = 95) s (lineAfter c line)).length_le
    set lexeme := (c :: s).take _ with hlexeme
    have hhead : lexeme.head? = some c := by
      obtain ⟨k, hk⟩ := Nat.exists_eq_succ_of_ne_zero (n := (c :: s).length -
        (advanceWhile (fun c => isAlnum c || c = 95) s (lineAfter c line)).rest.length)
        (by rw [List.length_cons]; omega)
      rw [hlexeme, hk]
      rfl
    have hopening : keywordType lexeme ≠ .lbrace ∧ keywordType lexeme ≠ .lparen := by
      have hall : ∀ kw ∈ keywords, kw.2 ≠ .lbrace ∧ kw.2 ≠ .lparen := by decide
      rcases keywordType_mem lexeme with h | ⟨kw, hmem, h⟩
      · rw [h]
        decide
      · rw [h]
        exact hall kw hmem
    exact ⟨fun h => absurd h (keywordType_ne lexeme).2, fun _ => ⟨by simpa using halpha, hhead⟩,
      fun h => absurd h hopening.1, fun h => absurd h hopening.2⟩
  · obtain ⟨htype, -⟩ := number_spec (Lexer.advance ⟨c :: s, line⟩) ⟨c :: s, line⟩
    rcases htype with h | h | h <;> rw [h] <;> simp
  · exact ⟨fun _ => hquote, TokenType.noConfusion, TokenType.noConfusion, TokenType.noConfusion⟩
  · exact ⟨fun h => absurd h (operatorAt_spec c s).2.1, fun h => absurd h (operatorAt_ne_ident c s),
      operatorAt_opening.1, operatorAt_opening.2⟩

/-- A text without quotes has no string tokens, and its identifiers start as identifiers
do. -/
theorem lexAll_keys (lx : Lexer) (h : 34 ∉ lx.rest) :
    ∀ t ∈ (lexAll lx).1, t.type ≠ .stringLit ∧
      (t.type = .ident → ∃ c, t.lexeme.head? = some c ∧ (isAlpha c || c = 95) = true) := by
  induction hn : lx.rest.length using Nat.strongRecOn generalizing lx with
  | ind n ih =>
    subst hn
    rw [lexAll_eq]
    split_ifs with heof
    · simp
    · have hskip := skipWsAndComments_suffix lx.rest lx.line
      rcases lx.next_spec with ⟨line, hnext⟩ | ⟨-, hsuffix, hweight⟩
      · rw [hnext] at heof
        exact absurd rfl heof
      intro t ht
      rcases List.mem_cons.mp ht with rfl | ht
      · unfold Lexer.next at heof ⊢
        generalize skipWsAndComments lx.rest lx.line = start at hskip heof
        obtain ⟨rest, line⟩ := start
        cases rest with
        | nil => exact absurd rfl heof
        | cons c s =>
          obtain ⟨hstr, hident, -⟩ := Lexer.nextFrom_type c s line
          have hc : c ≠ 34 := fun hc => h (hskip.subset (by rw [hc]; exact List.mem_cons_self))
          exact ⟨fun ht => hc (hstr ht), fun ht => ⟨c, (hident ht).2, (hident ht).1⟩⟩
      · have hpos := lx.next.1.weight_pos
        exact ih _ (by omega) lx.next.2 (fun hmem => h (hsuffix.subset hmem)) rfl t ht

theorem advanceWhile_append {p : UInt8 → Bool} {s u : Text} {line : ℕ}
    (h : (advanceWhile p s line).rest ≠ []) :
    advanceWhile p (s ++ u) line
      = ⟨(advanceWhile p s line).rest ++ u, (advanceWhile p s line).line⟩ := by
  induction s generalizing line with
  | nil => exact absurd rfl h
  | cons c s ih =>
    rw [List.cons_append]
    unfold advanceWhile at h ⊢
    split_ifs at h ⊢ with hc
    · exact ih h
    · rfl

/-- A comment that is closed, is closed whatever follows. -/
theorem blockComment_append {s u : Text} {line : ℕ} (hu : u.head? ≠ some 47)
    (h : (blockComment s line).rest ≠ []) :
    ∃ t, (blockComment s line).rest = 42 :: 47 :: t ∧
      blockComment (s ++ u) line = ⟨42 :: 47 :: (t ++ u), (blockComment s line).line⟩ := by
  induction s generalizing line with
  | nil => exact absurd rfl h
  | cons c s ih =>
    rw [List.cons_append]
    unfold blockComment at h ⊢
    by_cases hclose : c = 42 ∧ s.head? = some 47
    · obtain ⟨rfl, hhead⟩ := hclose
      obtain ⟨t, rfl⟩ : ∃ t, s = 47 :: t := by
        cases s with
        | nil => simp at hhead
        | cons d t => exact ⟨t, by rw [Option.some.inj hhead]⟩
      exact ⟨t, rfl, rfl⟩
    · have hclose' : ¬ (c = 42 ∧ (s ++ u).head? = some 47) := by
        rintro ⟨hc, hhead⟩
        cases s with
        | nil => exact hu hhead
        | cons d t => exact hclose ⟨hc, hhead⟩
      rw [if_neg hclose] at h ⊢
      rw [if_neg hclose']
      exact ih h

/-- The scan for a token's first byte does not depend on what stands behind it, unless it
is a slash that could open a comment with it. -/
theorem skipWsAndComments_append {s s' u : Text} {c : UInt8} {line line' : ℕ}
    (hu : u.head? ≠ some 47 ∧ u.head? ≠ some 42)
    (h : skipWsAndComments s line = ⟨c :: s', line'⟩) :
    skipWsAndComments (s ++ u) line = ⟨c :: (s' ++ u), line'⟩ := by
  have hnil : ∀ line, skipWsAndComments [] line = ⟨[], line⟩ := fun line => by
    rw [skipWsAndComments]
  have hhead : ∀ (d : UInt8) (s : Text), s.head? = some d → (s ++ u).head? = some d := by
    intro d s hd
    cases s with
    | nil => simp at hd
    | cons e s => exact hd
  induction s, line using skipWsAndComments.induct with
  | case1 line =>
    rw [hnil] at h
    cases h
  | case2 line d s hws ih =>
    rw [skipWsAndComments, if_pos hws] at h
    rw [List.cons_append, skipWsAndComments, if_pos hws]
    exact ih h
  | case3 line d s hws hline lx ih =>
    rw [skipWsAndComments, if_neg hws, if_pos hline] at h
    rw [List.cons_append, skipWsAndComments, if_neg hws, if_pos ⟨hline.1, hhead _ _ hline.2⟩]
    have hne : lx.rest ≠ [] := by
      intro hempty
      change skipWsAndComments lx.rest lx.line = _ at h
      rw [hempty, hnil] at h
      cases h
    rw [advanceWhile_append hne]
    exact ih h
  | case4 line d s hws hline hblock lx ih =>
    rw [skipWsAndComments, if_neg hws, if_neg hline, if_pos hblock] at h
    obtain ⟨t, rfl⟩ : ∃ t, s = 42 :: t := by
      cases s with
      | nil => simp at hblock
      | cons d t => exact ⟨t, by rw [Option.some.inj hblock.2]⟩
    have hne : (blockComment t line).rest ≠ [] := by
      intro hempty
      simp only [List.tail_cons, Lexer.advance, hempty, hnil] at h
      cases h
    obtain ⟨t', hrest, happend⟩ := blockComment_append hu.1 hne
    rw [List.cons_append, List.cons_append, skipWsAndComments, if_neg hws,
      if_neg (by simp), if_pos ⟨hblock.1, rfl⟩]
    have hlx : lx.rest = t' ∧
        lx.line = lineAfter 47 (lineAfter 42 (blockComment t line).line) := by
      simp only [lx, List.tail_cons, Lexer.advance, hrest, and_self]
    have hskip := ih h
    rw [hlx.1, hlx.2] at hskip
    simpa only [List.tail_cons, Lexer.advance, happend] using hskip
  | case5 line d s hws hline hblock =>
    rw [skipWsAndComments, if_neg hws, if_neg hline, if_neg hblock] at h
    obtain ⟨⟨rfl, rfl⟩, rfl⟩ := by simpa using h
    have hstop : ∀ e : UInt8, u.head? ≠ some e → ¬ (d = 47 ∧ s.head? = some e) →
        ¬ (d = 47 ∧ (s ++ u).head? = some e) := by
      rintro e hue hne ⟨hd, he⟩
      cases s with
      | nil => exact hue he
      | cons f s => exact hne ⟨hd, he⟩
    rw [List.cons_append, skipWsAndComments, if_neg hws, if_neg (hstop 47 hu.1 hline),
      if_neg (hstop 42 hu.2 hblock)]

theorem cStr_append {s t : Text} (h : 0 ∉ s) : cStr (s ++ t) = s ++ cStr t := by
  induction s with
  | nil => rfl
  | cons c s ih =>
    have hc : c ≠ 0 := fun hc => h (by rw [hc]; exact List.mem_cons_self)
    show (c :: (s ++ t)).takeWhile _ = _
    rw [List.takeWhile_cons_of_pos (by simpa using hc), List.cons_append]
    exact congrArg _ (ih fun hmem => h (List.mem_cons_of_mem c hmem))

/-- The first token of a text in front of a brace. -/
theorem lexAll_opening {s u : Text} {line : ℕ} {t : Token}
    (hu : u.head? ≠ some 47 ∧ u.head? ≠ some 42) (h : (lexAll ⟨s, line⟩).1.head? = some t)
    (ht : t.type = .lbrace ∨ t.type = .lparen) :
    ∃ t', (lexAll ⟨s ++ u, line⟩).1.head? = some t' ∧ t'.type ≠ .rbrace ∧
      (t'.lexeme = [123] ∨ t'.lexeme = [40]) := by
  rw [lexAll_eq] at h
  by_cases heof : (Lexer.next ⟨s, line⟩).1.type = .eof
  · rw [if_pos heof] at h
    cases h
  rw [if_neg heof] at h
  obtain rfl := Option.some.inj h
  have hnext : ∃ c s' line', skipWsAndComments s line = ⟨c :: s', line'⟩ := by
    unfold Lexer.next at heof
    generalize skipWsAndComments s line = start at heof
    obtain ⟨rest, line'⟩ := start
    cases rest with
    | nil => exact absurd rfl heof
    | cons c s' => exact ⟨c, s', line', rfl⟩
  obtain ⟨c, s', line', hskip⟩ := hnext
  have hnext : Lexer.next ⟨s, line⟩ = Lexer.nextFrom c s' line' := by
    unfold Lexer.next
    dsimp only
    rw [hskip]
  have hnext' : Lexer.next ⟨s ++ u, line⟩ = Lexer.nextFrom c (s' ++ u) line' := by
    unfold Lexer.next
    dsimp only
    rw [skipWsAndComments_append hu hskip]
  rw [hnext] at ht
  obtain ⟨-, -, hbrace, hparen⟩ := Lexer.nextFrom_type c s' line'
  rw [lexAll_eq, hnext']
  rcases ht with ht | ht
  · obtain rfl := hbrace ht
    exact ⟨_, rfl, TokenType.noConfusion, .inl rfl⟩
  · obtain rfl := hparen ht
    exact ⟨_, rfl, TokenType.noConfusion, .inr rfl⟩

theorem initParser_lbrace (u : Text) :
    (initParser (123 :: u)).toks = ⟨.lbrace, [123], 1⟩ :: (lexAll ⟨cStr u, 1⟩).1 := by
  have hinit : Lexer.init (123 :: u) = ⟨123 :: cStr u, 1⟩ := rfl
  have hskip : skipWsAndComments (123 :: cStr u) 1 = ⟨123 :: cStr u, 1⟩ := by
    rw [skipWsAndComments, if_neg (by decide), if_neg (by simp), if_neg (by simp)]
  have hnext : Lexer.next ⟨123 :: cStr u, 1⟩ = (⟨.lbrace, [123], 1⟩, ⟨cStr u, 1⟩) := by
    unfold Lexer.next
    dsimp only
    rw [hskip]
    rfl
  show (tokenize (123 :: u)).1 = _
  rw [tokenize, hinit, lexAll_eq, hnext]
  rfl

/-- The text of an expression and the same text as the rest of a data literal do not parse
to expressions that start alike. -/
theorem leadKey_ne {n : ℕ} {e : HoleText} {v : Text} {x₁ x₂ : Expr} {sub₁ sub₂ : PState}
    (h₁ : (recAt n).assignment (initParser e.text) = some (x₁, sub₁)) (hclean : sub₁.errors = [])
    (h₂ : (recAt n).assignment (initParser (123 :: (e.text ++ 125 :: v))) = some (x₂, sub₂)) :
    x₁.leadKey ≠ x₂.leadKey := by
  obtain ⟨n, rfl⟩ : ∃ k, n = k + 1 := by
    cases n with
    | zero => cases h₁
    | succ n => exact ⟨n, rfl⟩
  have hr := recAt_upto n
  have hnul : 0 ∉ e.text := fun h => (e.plain 0 h).1 rfl
  have hinit₁ : Lexer.init e.text = ⟨e.text, 1⟩ := by
    have h := cStr_append (t := []) hnul
    rw [List.append_nil] at h
    rw [Lexer.init, h]
    exact congrArg (Lexer.mk · 1) (List.append_nil _)
  have htoks₁ : (initParser e.text).toks = (lexAll ⟨e.text, 1⟩).1 := by
    show (lexAll (Lexer.init e.text)).1 = _
    rw [hinit₁]
  set s₂ := initParser (123 :: (e.text ++ 125 :: v)) with hs₂
  have htoks₂ : s₂.toks = ⟨.lbrace, [123], 1⟩ :: (lexAll ⟨e.text ++ 125 :: cStr v, 1⟩).1 := by
    rw [hs₂, initParser_lbrace, cStr_append hnul]
    rfl
  have hcur₂ : s₂.cur = ⟨.lbrace, [123], 1⟩ := by simp [PState.cur, htoks₂]
  -- the data literal
  obtain ⟨y, s, hunary, hkey, -⟩ := parseAssignment_starts hr s₂ x₂ sub₂ h₂
  obtain ⟨z, s', hprimary, hkey', -⟩ :=
    parseUnary_starts hr (by rw [hcur₂]; decide) y s hunary
  rw [parsePrimary_lbrace _ (by rw [hcur₂])] at hprimary
  have hlit := parseDataLit_leadKey hr hprimary
  rw [← hkey', ← hkey] at hlit
  by_cases hopen : (initParser e.text).cur.type = .lbrace ∨ (initParser e.text).cur.type = .lparen
  · -- the first key is the opening bracket itself, which is no key of the other
    have hfirst : (lexAll ⟨e.text, 1⟩).1.head? = some (initParser e.text).cur := by
      have hne : (initParser e.text).cur.type ≠ .eof := by
        rcases hopen with h | h <;> rw [h] <;> decide
      obtain ⟨t, ts, ht⟩ := List.exists_cons_of_ne_nil (toks_ne_nil hne)
      rw [← htoks₁, ht]
      simp [PState.cur, ht]
    obtain ⟨t, ht, hrbrace, hlexeme⟩ :=
      lexAll_opening (u := 125 :: cStr v) (by simp) hfirst hopen
    have hnext : s₂.next.cur = t := by
      obtain ⟨t', ts, hts⟩ := List.exists_cons_of_ne_nil
        (l := (lexAll ⟨e.text ++ 125 :: cStr v, 1⟩).1) (by rintro h; simp [h] at ht)
      rw [hts] at ht htoks₂
      simpa [PState.next, PState.cur, htoks₂] using ht
    rw [hnext] at hlit
    rcases hlit with ⟨h, -⟩ | ⟨-, hkey₂, -⟩
    · exact absurd h hrbrace
    · intro heq
      rw [hkey₂] at heq
      obtain ⟨t', ht', hlexeme', htype⟩ := cleanKey (n + 1) h₁ hclean heq
      rw [htoks₁] at ht'
      have hquote : 34 ∉ e.text := fun h => (e.plain 34 h).2.1 rfl
      obtain ⟨hstr, hident⟩ := lexAll_keys ⟨e.text, 1⟩ hquote t' ht'
      rcases htype with htype | htype
      · exact hstr htype
      · obtain ⟨c, hc, halpha⟩ := hident htype
        rw [hlexeme'] at hc
        rcases hlexeme with hlexeme | hlexeme
        · rw [hlexeme] at hc
          obtain rfl := Option.some.inj hc
          exact absurd halpha (by decide)
        · rw [hlexeme] at hc
          obtain rfl := Option.some.inj hc
          exact absurd halpha (by decide)
  · -- the other expression starts with no data literal
    have hnone : x₁.leadKey = none := by
      obtain ⟨y₁, s₁, hunary₁, hkey₁, -⟩ := parseAssignment_starts hr _ x₁ sub₁ h₁
      by_cases hop : (initParser e.text).cur.type ∈ [.not, .minus]
      · rw [hkey₁, parseUnary_operator _ hop y₁ s₁ hunary₁]
      · obtain ⟨z₁, s₁', hprimary₁, hkey₁', -⟩ := parseUnary_starts hr hop y₁ s₁ hunary₁
        rw [hkey₁, hkey₁', parsePrimary_leadKey _ (fun h => hopen (.inl h))
          (fun h => hopen (.inr h)) _ _ hprimary₁]
    rw [hnone]
    rcases hlit with ⟨-, h⟩ | ⟨-, h, -⟩ <;> rw [h] <;> simp

/-! ### The parts differ -/

/-- The text is read as an expression: to whatever depth the parser runs, it reports no
error. -/
def HoleText.IsExpr (e : HoleText) : Prop :=
  ∀ n x sub, (recAt n).assignment (initParser e.text) = some (x, sub) → sub.errors = []

/-- Every part the literal prefix comes to stands in front of the first expression. -/
theorem parseParts_prefix {r : Rec} {line : ℕ} {l e : Text} {raw : List RawPart} {s s' : PState}
    {parts : List StrPart} (h : parseParts r line (literalPart l ++ .expr e :: raw) s
      = some (parts, s')) :
    ∃ x sub, r.assignment (initParser e) = some (x, sub) ∧
      parts[(literalPart l).length]? = some (.expr (x.withLine line)) := by
  have hexpr : ∀ {parts s}, parseParts r line (.expr e :: raw) s = some (parts, s') →
      ∃ x sub, r.assignment (initParser e) = some (x, sub) ∧
        parts.head? = some (.expr (x.withLine line)) := by
    intro parts s h
    obtain ⟨x, s₁, hx, h⟩ := bind_eq_some h
    obtain ⟨rest, s₂, hrest, h⟩ := bind_eq_some h
    obtain ⟨rfl, -⟩ := pure_eq_some h
    unfold parseExprSubstring at hx
    cases hrun : r.assignment (initParser e) with
    | none => simp [hrun] at hx
    | some y =>
      obtain ⟨x₀, sub⟩ := y
      rw [hrun] at hx
      obtain ⟨rfl, -⟩ := Prod.mk.inj (Option.some.inj hx)
      exact ⟨x₀, sub, rfl, rfl⟩
  unfold literalPart at h ⊢
  by_cases hl : l = []
  · rw [if_pos hl] at h ⊢
    obtain ⟨x, sub, hx, hhead⟩ := hexpr h
    exact ⟨x, sub, hx, by rw [List.length_nil, ← List.head?_eq_getElem?, hhead]⟩
  · rw [if_neg hl] at h ⊢
    obtain ⟨rest, s₁, hrest, h⟩ := bind_eq_some h
    obtain ⟨rfl, rfl⟩ := pure_eq_some h
    obtain ⟨x, sub, hx, hhead⟩ := hexpr hrest
    refine ⟨x, sub, hx, ?_⟩
    rw [List.length_singleton, List.getElem?_cons_succ, ← List.head?_eq_getElem?, hhead]

/-- **The two spellings of a hole never come to the same parts.** The raw parts of
`prefix ${e} suffix` and `prefix {{e}} suffix` differ for every text `e` that may stand in
a hole, and if `e` is an expression, the string expressions the parser makes of the two
literals differ at every depth from some depth on. -/
theorem dollarHole_ne_braces (p : Lead) (suffix : LiteralText) :
    splitTemplate [] (p.dollar suffix) ≠ splitTemplate [] (p.braces suffix) ∧
      (p.hole.IsExpr → ∃ N, ∀ n ≥ N, ∀ (line : ℕ) (s : PState), ∃ x₁ s₁ x₂ s₂,
        parseStringLiteralToken (recAt n) ⟨.stringLit, p.dollar suffix, line⟩ s = some (x₁, s₁) ∧
        parseStringLiteralToken (recAt n) ⟨.stringLit, p.braces suffix, line⟩ s = some (x₂, s₂) ∧
        x₁ ≠ x₂) := by
  constructor
  · rw [splitTemplate_dollar, splitTemplate_braces]
    intro h
    have hhead := (List.cons.inj (List.append_cancel_left h)).1
    have hlen := congrArg List.length (RawPart.expr.inj hhead)
    simp only [Lead.dollarText, List.length_cons, List.length_append] at hlen
    omega
  · intro hexpr
    refine ⟨max (p.dollar suffix).length (p.braces suffix).length + 1, fun n hn line s => ?_⟩
    have hr := recAt_upto n
    have hruns : ∀ l : Text, l.length < n → ∃ parts s',
        parseParts (recAt n) line (splitTemplate [] l) s = some (parts, s') := by
      intro l hl
      obtain ⟨parts, s', h, -⟩ := (returns_parseParts hr (t := ⟨.stringLit, l, line⟩)
        (fun e he => splitTemplate_length he) line s).exists_eq hl
      exact ⟨parts, s', h⟩
    obtain ⟨parts₁, s₁, h₁⟩ := hruns (p.dollar suffix) (by omega)
    obtain ⟨parts₂, s₂, h₂⟩ := hruns (p.braces suffix) (by omega)
    have hstr : ∀ {l : Text} {parts : List StrPart} {s' : PState},
        parseParts (recAt n) line (splitTemplate [] l) s = some (parts, s') → parts ≠ [] →
        parseStringLiteralToken (recAt n) ⟨.stringLit, l, line⟩ s
          = some (.str line parts, s') := by
      intro l parts s' h hne
      rw [parseStringLiteralToken, stateT_bind_eq, h]
      obtain ⟨q, qs, rfl⟩ := List.exists_cons_of_ne_nil hne
      rfl
    have hsplit₁ := h₁
    have hsplit₂ := h₂
    rw [splitTemplate_dollar] at hsplit₁
    rw [splitTemplate_braces] at hsplit₂
    obtain ⟨x₁, sub₁, hx₁, hget₁⟩ := parseParts_prefix hsplit₁
    obtain ⟨x₂, sub₂, hx₂, hget₂⟩ := parseParts_prefix hsplit₂
    have hne : ∀ {parts : List StrPart} {i : ℕ} {q : StrPart}, parts[i]? = some q → parts ≠ [] := by
      rintro parts i q h rfl
      simp at h
    refine ⟨_, s₁, _, s₂, hstr h₁ (hne hget₁), hstr h₂ (hne hget₂), fun heq => ?_⟩
    obtain ⟨-, rfl⟩ := Expr.str.inj heq
    have hsame := StrPart.expr.inj (Option.some.inj (hget₂.symm.trans hget₁))
    have hlead := congrArg Expr.leadKey hsame
    rw [Expr.leadKey_withLine, Expr.leadKey_withLine] at hlead
    exact leadKey_ne hx₂ (hexpr n x₂ sub₂ hx₂) hx₁ hlead

/-- No literal text. -/
def LiteralText.empty : LiteralText := ⟨[], by simp, ⟨by simp, by simp⟩⟩

/-- The hole `a` with nothing in front. -/
def Lead.a : Lead :=
  ⟨.empty, ⟨txt "a", by decide, rfl, fun _ hc => List.mem_singleton.mp hc ▸ by decide⟩,
    ⟨nofun, nofun⟩⟩

theorem dollarHole_ne_braces_a :
    splitTemplate [] (Lead.a.dollar .empty) ≠ splitTemplate [] (Lead.a.braces .empty) ∧
      ∃ N, ∀ n ≥ N, ∀ (line : ℕ) (s : PState), ∃ x₁ s₁ x₂ s₂,
        parseStringLiteralToken (recAt n) ⟨.stringLit, Lead.a.dollar .empty, line⟩ s
          = some (x₁, s₁) ∧
        parseStringLiteralToken (recAt n) ⟨.stringLit, Lead.a.braces .empty, line⟩ s
          = some (x₂, s₂) ∧ x₁ ≠ x₂ := by
  have hexpr : Lead.a.hole.IsExpr := by
    intro n x sub h
    have htoks : tokenize (txt "a") = ([⟨.ident, txt "a", 1⟩], 1) := by decide +kernel
    have hinit : initParser Lead.a.hole.text
        = ⟨txt "a", [⟨.ident, txt "a", 1⟩], 1, [], []⟩ := by
      show initParser (txt "a") = _
      rw [initParser, htoks]
    rw [hinit] at h
    rcases n with _ | _ | n
    · cases h
    · obtain ⟨-, rfl⟩ := Prod.mk.inj (Option.some.inj h)
      rfl
    · obtain ⟨-, rfl⟩ := Prod.mk.inj (Option.some.inj h)
      rfl
  exact ⟨(dollarHole_ne_braces Lead.a .empty).1, (dollarHole_ne_braces Lead.a .empty).2 hexpr⟩

/-- The literals `"${a}"` and `"{{a}}"`: a data literal with the key `a`, and the variable
`a`. -/
theorem dollarHole_a :
    ∃ x₁ s₁ x₂ s₂,
      parseStringLiteralToken (recAt 3) ⟨.stringLit, txt "$\x7ba\x7d", 1⟩ (initParser [])
        = some (x₁, s₁) ∧
      parseStringLiteralToken (recAt 3) ⟨.stringLit, txt "\x7b\x7ba\x7d\x7d", 1⟩ (initParser [])
        = some (x₂, s₂) ∧
      x₁ = .str 1 [.expr (.data 1 [(txt "a", .bool 1 false)])] ∧
      x₂ = .str 1 [.expr (.ident 1 (txt "a"))] ∧ x₁ ≠ x₂ := by
  have hsplit₁ : splitTemplate [] (txt "$\x7ba\x7d") = [.expr (txt "\x7ba\x7d")] := by
    decide +kernel
  have hsplit₂ : splitTemplate [] (txt "\x7b\x7ba\x7d\x7d") = [.expr (txt "a")] := by
    decide +kernel
  have htoks₁ : tokenize (txt "\x7ba\x7d") = ([⟨.lbrace, txt "\x7b", 1⟩, ⟨.ident, txt "a", 1⟩,
    ⟨.rbrace, txt "\x7d", 1⟩], 1) := by decide +kernel
  have htoks₂ : tokenize (txt "a") = ([⟨.ident, txt "a", 1⟩], 1) := by decide +kernel
  have hinit₁ : initParser (txt "\x7ba\x7d") = ⟨txt "\x7ba\x7d", [⟨.lbrace, txt "\x7b", 1⟩,
    ⟨.ident, txt "a", 1⟩, ⟨.rbrace, txt "\x7d", 1⟩], 1, [], []⟩ := by
    rw [initParser, htoks₁]
  have hinit₂ : initParser (txt "a") = ⟨txt "a", [⟨.ident, txt "a", 1⟩], 1, [], []⟩ := by
    rw [initParser, htoks₂]
  have h₁ : (parseStringLiteralToken (recAt 3) ⟨.stringLit, txt "$\x7ba\x7d", 1⟩
      (initParser [])).map Prod.fst
      = some (.str 1 [.expr (.data 1 [(txt "a", .bool 1 false)])]) := by
    rw [parseStringLiteralToken, hsplit₁]
    simp only [parseParts, stateT_bind_eq, parseExprSubstring, hinit₁]
    rfl
  have h₂ : (parseStringLiteralToken (recAt 3) ⟨.stringLit, txt "\x7b\x7ba\x7d\x7d", 1⟩
      (initParser [])).map Prod.fst = some (.str 1 [.expr (.ident 1 (txt "a"))]) := by
    rw [parseStringLiteralToken, hsplit₂]
    simp only [parseParts, stateT_bind_eq, parseExprSubstring, hinit₂]
    rfl
  obtain ⟨⟨x₁, s₁⟩, hrun₁, rfl⟩ := Option.map_eq_some_iff.mp h₁
  obtain ⟨⟨x₂, s₂⟩, hrun₂, rfl⟩ := Option.map_eq_some_iff.mp h₂
  exact ⟨_, s₁, _, s₂, hrun₁, hrun₂, rfl, rfl, by simp⟩

end Jaguar
