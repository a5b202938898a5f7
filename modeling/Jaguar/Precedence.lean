/-
Operator precedence: printing an expression with the fewest parentheses and parsing the
tokens gives the expression back.

* `CoreExpr` — expressions built from literals, identifiers and operators, without line
  numbers; `Denotes` relates one to the syntax trees that differ from it in lines only;
* `CoreExpr.level`, `wrap`, `CoreExpr.print` — the printer;
* `Parses`, `Loops`, `Trails` — what the function of a level does with printed tokens: read
  them all, reach its loop behind them, reach the postfix loop behind them;
* `parseExpr_print` — the round trip.
-/
import Jaguar.Templates

namespace Jaguar

/-! ### Expressions and their levels -/

inductive UnaryOp
  | not | neg
  deriving DecidableEq

inductive BinaryOp
  | mul | div | mod | add | sub | shl | shr | gt | lt | ge | le | eq | ne | and | or | pow
  deriving DecidableEq

inductive AssignOp
  | set | add | sub | mul | div | mod | pow
  deriving DecidableEq

inductive CoreExpr
  | ident (name : Text)
  | num (n : ℕ) (h : n < 2 ^ 63)
  | decimal (numeral : Text)
  | scifi (numeral : Text)
  | bool (b : Bool)
  | str (s : Text)
  | unary (op : UnaryOp) (e : CoreExpr)
  | binary (op : BinaryOp) (left right : CoreExpr)
  | between (value low high : CoreExpr)
  | ternary (cond thenE elseE : CoreExpr)
  | assign (op : AssignOp) (target value : CoreExpr)
  | member (object : CoreExpr) (name : Text)
  | index (object index : CoreExpr)
  | call (callee : CoreExpr) (args : List CoreExpr)

/-- The token of an operator, on line `line`. -/
def UnaryOp.token (line : ℕ) : UnaryOp → Token
  | not => ⟨.not, txt "!", line⟩
  | neg => ⟨.minus, txt "-", line⟩

def BinaryOp.token (line : ℕ) : BinaryOp → Token
  | mul => ⟨.star, txt "*", line⟩
  | div => ⟨.slash, txt "/", line⟩
  | mod => ⟨.percent, txt "%", line⟩
  | add => ⟨.plus, txt "+", line⟩
  | sub => ⟨.minus, txt "-", line⟩
  | shl => ⟨.shl, txt "<<", line⟩
  | shr => ⟨.shr, txt ">>", line⟩
  | gt => ⟨.gt, txt ">", line⟩
  | lt => ⟨.lt, txt "<", line⟩
  | ge => ⟨.ge, txt ">=", line⟩
  | le => ⟨.le, txt "<=", line⟩
  | eq => ⟨.eq, txt "==", line⟩
  | ne => ⟨.ne, txt "!=", line⟩
  | and => ⟨.and, txt "&&", line⟩
  | or => ⟨.or, txt "||", line⟩
  | pow => ⟨.pow, txt "**", line⟩

def AssignOp.token (line : ℕ) : AssignOp → Token
  | set => ⟨.assign, txt "=", line⟩
  | add => ⟨.plusEq, txt "+=", line⟩
  | sub => ⟨.minusEq, txt "-=", line⟩
  | mul => ⟨.starEq, txt "*=", line⟩
  | div => ⟨.slashEq, txt "/=", line⟩
  | mod => ⟨.percentEq, txt "%=", line⟩
  | pow => ⟨.powEq, txt "**=", line⟩

/-- `e.Denotes x`: the syntax tree `x` is `e`, with some line numbers. -/
inductive CoreExpr.Denotes : CoreExpr → Expr → Prop
  | ident (l : ℕ) (name : Text) : Denotes (.ident name) (.ident l name)
  | num (l n : ℕ) (h : n < 2 ^ 63) : Denotes (.num n h) (.num l n)
  | decimal (l : ℕ) (s : Text) : Denotes (.decimal s) (.decimal l (atof s))
  | scifi (l : ℕ) (s : Text) : Denotes (.scifi s) (.scifi l (atof s))
  | bool (l : ℕ) (b : Bool) : Denotes (.bool b) (.bool l b)
  | str (l : ℕ) (s : Text) : Denotes (.str s) (.str l [.literal s])
  | unary (l : ℕ) (op : UnaryOp) {e : CoreExpr} {x : Expr} (h : Denotes e x) :
      Denotes (.unary op e) (.unary l x (op.token 0).type)
  | binary (l : ℕ) (op : BinaryOp) {e e' : CoreExpr} {x x' : Expr} (h : Denotes e x)
      (h' : Denotes e' x') : Denotes (.binary op e e') (.binary l x x' (op.token 0).type)
  | between (l : ℕ) {e lo hi : CoreExpr} {x xlo xhi : Expr} (h : Denotes e x)
      (hlo : Denotes lo xlo) (hhi : Denotes hi xhi) :
      Denotes (.between e lo hi) (.between l x xlo xhi)
  | ternary (l : ℕ) {c t e : CoreExpr} {xc xt xe : Expr} (hc : Denotes c xc)
      (ht : Denotes t xt) (he : Denotes e xe) : Denotes (.ternary c t e) (.ternary l xc xt xe)
  | assign (l : ℕ) (op : AssignOp) {t v : CoreExpr} {xt xv : Expr} (ht : Denotes t xt)
      (hv : Denotes v xv) : Denotes (.assign op t v) (.assign l xt xv (op.token 0).type)
  | member (l : ℕ) {o : CoreExpr} {x : Expr} (h : Denotes o x) (name : Text) :
      Denotes (.member o name) (.member l x name)
  | index (l : ℕ) {o i : CoreExpr} {x xi : Expr} (h : Denotes o x) (hi : Denotes i xi) :
      Denotes (.index o i) (.index l x xi)
  | call (l : ℕ) {f : CoreExpr} {x : Expr} {args : List CoreExpr} {xs : List Expr}
      (h : Denotes f x) (hargs : List.Forall₂ Denotes args xs) :
      Denotes (.call f args) (.call l x xs)

/-- The level of an operator, from the loosest. -/
def BinaryOp.level : BinaryOp → ℕ
  | or => 2
  | and => 3
  | eq | ne => 4
  | gt | lt | ge | le => 5
  | shl | shr => 7
  | add | sub => 8
  | mul | div | mod => 9
  | pow => 10

/-- What the positions of the operands require: `**` is right-associative. -/
def BinaryOp.leftLevel (op : BinaryOp) : ℕ := if op = pow then 11 else op.level

def BinaryOp.rightLevel (op : BinaryOp) : ℕ := if op = pow then 10 else op.level + 1

def CoreExpr.level : CoreExpr → ℕ
  | assign .. => 0
  | ternary .. => 1
  | binary op _ _ => op.level
  | between .. => 6
  | unary .. => 11
  | _ => 12

/-! ### Printing -/

/-- The tokens of an expression of level `level` where the position requires `need`. -/
def parenthesize (line need level : ℕ) (toks : List Token) : List Token :=
  if level < need then
    ⟨.lparen, txt "(", line⟩ :: toks ++ [⟨.rparen, txt ")", line⟩]
  else toks

mutual

/-- The tokens of an expression, all on one line, with parentheses only around a child
whose level is lower than its position requires. -/
def CoreExpr.print (line : ℕ) : CoreExpr → List Token
  | .ident name => [⟨.ident, name, line⟩]
  | .num n _ => [⟨.numLit, natText n, line⟩]
  | .decimal s => [⟨.decimalLit, s, line⟩]
  | .scifi s => [⟨.scifiLit, s, line⟩]
  | .bool true => [⟨.kwTrue, txt "true", line⟩]
  | .bool false => [⟨.kwFalse, txt "false", line⟩]
  | .str s => [⟨.stringLit, escape s, line⟩]
  | .unary op e => op.token line :: parenthesize line 11 e.level (e.print line)
  | .binary op e e' =>
    parenthesize line op.leftLevel e.level (e.print line) ++ op.token line ::
      parenthesize line op.rightLevel e'.level (e'.print line)
  | .between e lo hi =>
    parenthesize line 7 e.level (e.print line) ++ ⟨.between, txt "<<<", line⟩ ::
      ⟨.lparen, txt "(", line⟩ :: lo.print line ++ ⟨.comma, txt ",", line⟩ ::
      hi.print line ++ [⟨.rparen, txt ")", line⟩]
  | .ternary c t e =>
    parenthesize line 2 c.level (c.print line) ++ ⟨.question, txt "?", line⟩ ::
      t.print line ++ ⟨.colon, txt ":", line⟩ :: e.print line
  | .assign op t v =>
    parenthesize line 2 t.level (t.print line) ++ op.token line :: v.print line
  | .member o name =>
    parenthesize line 12 o.level (o.print line) ++
      [⟨.dot, txt ".", line⟩, ⟨.ident, name, line⟩]
  | .index o i =>
    parenthesize line 12 o.level (o.print line) ++ ⟨.lbracket, txt "[", line⟩ ::
      i.print line ++ [⟨.rbracket, txt "]", line⟩]
  | .call f args =>
    parenthesize line 12 f.level (f.print line) ++ ⟨.lparen, txt "(", line⟩ ::
      printArgs line args ++ [⟨.rparen, txt ")", line⟩]

def printArgs (line : ℕ) : List CoreExpr → List Token
  | [] => []
  | e :: es => e.print line ++ printMoreArgs line es

def printMoreArgs (line : ℕ) : List CoreExpr → List Token
  | [] => []
  | e :: es => ⟨.comma, txt ",", line⟩ :: e.print line ++ printMoreArgs line es

end

/-! ### Running the parser on known tokens -/

/-- The state `s` with other tokens ahead. -/
def PState.ahead (s : PState) (toks : List Token) : PState := { s with toks := toks }

section

variable {α β : Type} {s s' : PState} {n L : ℕ} {r : Rec}

@[simp] theorem PState.cur_ahead_cons (t : Token) (ts : List Token) :
    (s.ahead (t :: ts)).cur = t := rfl

@[simp] theorem PState.ahead_ahead (ts ts' : List Token) :
    (s.ahead ts).ahead ts' = s.ahead ts' := rfl

theorem tokensWeight_append (ts ts' : List Token) :
    tokensWeight (ts ++ ts') = tokensWeight ts + tokensWeight ts' := by
  simp [tokensWeight]

/-- Running `m` and then `f`, when the run of `m` is known. -/
theorem run_bind {m : P α} {f : α → P β} {a : α} (h : m s = some (a, s')) :
    (m >>= f) s = f a s' := by
  rw [stateT_bind_eq, h]

theorem run_cur {f : Token → P α} : (cur >>= f) s = f s.cur s := rfl

theorem run_advance {f : P α} {t : Token} {ts : List Token} :
    (advance >>= fun _ => f) (s.ahead (t :: ts)) = f (s.ahead ts) := rfl

theorem run_match_hit {f g : P α} {t : Token} {ts : List Token} {k : TokenType}
    (h : t.type = k) :
    (matchT k >>= fun b => if b then f else g) (s.ahead (t :: ts)) = f (s.ahead ts) := by
  rw [matchT_bind, if_pos (by exact h)]
  rfl

theorem run_match_miss {f g : P α} {k : TokenType} (h : s.cur.type ≠ k) :
    (matchT k >>= fun b => if b then f else g) s = g s := by
  rw [matchT_bind, if_neg h]
  rfl

theorem run_expect {f : P α} {t : Token} {ts : List Token} {k : TokenType} {what : String}
    (h : t.type = k) :
    (expect k what >>= fun _ => f) (s.ahead (t :: ts)) = f (s.ahead ts) := by
  refine run_bind (a := ()) ?_
  show (if t.type = k then advance else recover t what) (s.ahead (t :: ts)) = _
  rw [if_pos h]
  rfl

end

/-! ### Levels of the parser -/

/-- The level at which a token continues an expression in front of it. -/
def contLevel : TokenType → Option ℕ
  | .dot | .lbracket | .lparen => some 12
  | .pow => some 10
  | .star | .slash | .percent => some 9
  | .plus | .minus => some 8
  | .shl | .shr => some 7
  | .between => some 6
  | .gt | .lt | .ge | .le => some 5
  | .eq | .ne => some 4
  | .and => some 3
  | .or => some 2
  | .question => some 1
  | .assign | .plusEq | .minusEq | .starEq | .slashEq | .percentEq | .powEq => some 1
  | _ => none

/-- The current token does not continue an expression of level `L`. -/
def Stops (L : ℕ) (s : PState) : Prop := ∀ l, contLevel s.cur.type = some l → l < L

theorem Stops.mono {L M : ℕ} (hLM : L ≤ M) {s : PState} (h : Stops L s) : Stops M s :=
  fun l hl => (h l hl).trans_le hLM

theorem Stops.ne {L : ℕ} {s : PState} (h : Stops L s) {k : TokenType} {l : ℕ}
    (hk : contLevel k = some l) (hl : L ≤ l) : s.cur.type ≠ k := by
  rintro rfl
  exact absurd (h l hk) (Nat.not_lt_of_le hl)

/-- No token continues an expression at level 0 only. -/
theorem Stops.zero {s : PState} (h : Stops 1 s) : Stops 0 s := by
  have hne : ∀ k, contLevel k ≠ some 0 := by
    intro k
    cases k <;> decide
  intro l hl
  obtain rfl : l = 0 := Nat.lt_one_iff.mp (h l hl)
  exact absurd hl (hne _)

/-- The parsing function of a level. -/
def parseAt (L : ℕ) (r : Rec) : P Expr :=
  match L with
  | 0 => parseAssignment r
  | 1 => parseTernary r
  | 2 => parseOr r
  | 3 => parseAnd r
  | 4 => parseEquality r
  | 5 => parseComparison r
  | 6 => parseBetween r
  | 7 => parseShift r
  | 8 => parseAdd r
  | 9 => parseMul r
  | 10 => parsePower r
  | 11 => parseUnary r
  | _ => parsePostfix r

/-- The operators of the left-associative levels. -/
def levelOps : ℕ → List TokenType
  | 2 => [.or]
  | 3 => [.and]
  | 4 => [.eq, .ne]
  | 5 => [.gt, .lt, .ge, .le]
  | 7 => [.shl, .shr]
  | 8 => [.plus, .minus]
  | 9 => [.star, .slash, .percent]
  | _ => []

/-- The line of a node of a left-associative level. -/
def levelLine (L : ℕ) (op : Token) (left : Expr) : ℕ := if L ≤ 3 then left.line else op.line

theorem parseAt_eq_parseLevel {L : ℕ} (hL : levelOps L ≠ []) (r : Rec) :
    parseAt L r = parseLevel r (levelOps L) (parseAt (L + 1) r) (levelLine L) := by
  match L with
  | 2 | 3 | 4 | 5 | 7 | 8 | 9 => rfl
  | 0 | 1 | 6 | L + 10 => exact absurd rfl hL

theorem contLevel_of_mem_levelOps {L : ℕ} {k : TokenType} (hk : k ∈ levelOps L) :
    contLevel k = some L := by
  match L with
  | 2 | 3 | 4 | 5 | 7 | 8 | 9 =>
    revert hk
    revert k
    decide
  | 0 | 1 | 6 | L + 10 => exact absurd hk List.not_mem_nil

/-- A loop stops in front of a token that is not one of its operators. -/
theorem binaryLoop_stop {ops : List TokenType} {operand : P Expr} {line : Token → Expr → ℕ}
    {k : ℕ} (hk : 0 < k) {x : Expr} {s : PState} (h : s.cur.type ∉ ops) :
    binaryLoop ops operand line k x s = some (x, s) := by
  obtain ⟨k, rfl⟩ := Nat.exists_eq_add_of_lt hk
  show (if s.cur.type ∈ ops then _ else _ : P Expr) s = _
  rw [if_neg h]
  rfl

theorem notMem_levelOps {L : ℕ} {s : PState} (h : Stops L s) : s.cur.type ∉ levelOps L :=
  fun hmem => (h.ne (contLevel_of_mem_levelOps hmem) (Nat.le_refl L)) rfl

/-- `parse_ternary` in front of a token other than `?`. -/
theorem parseTernary_miss {r : Rec} {s s' : PState} {x : Expr}
    (h : parseAt 2 r s = some (x, s')) (hne : s'.cur.type ≠ .question) :
    parseTernary r s = some (x, s') :=
  (run_bind h).trans (run_match_miss hne)

/-- What one level reads, the next looser one reads too when nothing continues it; from
`parse_postfix` to `parse_unary` this needs a look at the first token. -/
theorem parseAt_descend {L : ℕ} (hL : L ≤ 11) {r : Rec} (hr : 0 < r.turns) {s s' : PState}
    {x : Expr} (hfirst : L = 11 → s.cur.type ∉ [TokenType.not, .minus])
    (h : parseAt (L + 1) r s = some (x, s')) (hstop : Stops L s') :
    parseAt L r s = some (x, s') := by
  have hloop : levelOps L ≠ [] → parseAt L r s = some (x, s') := by
    intro hops
    rw [parseAt_eq_parseLevel hops]
    exact (run_bind h).trans (binaryLoop_stop hr (notMem_levelOps hstop))
  match L with
  | 2 | 3 | 4 | 5 | 7 | 8 | 9 => exact hloop (by decide)
  | 0 =>
    refine (run_bind h).trans ?_
    show (if isAssignOp s'.cur.type then _ else _ : P Expr) s' = _
    rw [if_neg fun hop => ?_]
    · rfl
    · have hcont : contLevel s'.cur.type = some 1 := by
        revert hop
        cases s'.cur.type <;> decide
      exact absurd (hstop 1 hcont) (by decide)
  | 1 => exact parseTernary_miss h (hstop.ne rfl (by decide))
  | 6 => exact (run_bind h).trans (run_match_miss (hstop.ne rfl (by decide)))
  | 10 => exact (run_bind h).trans (run_match_miss (hstop.ne rfl (by decide)))
  | 11 =>
    show (if s.cur.type ∈ [TokenType.not, .minus] then _ else _ : P Expr) s = _
    rw [if_neg (hfirst rfl)]
    exact h
  | L + 12 => omega

/-! ### What a level does with printed tokens -/

/-- At level `L` and depth `n`, the tokens are read as `e` and what follows is left,
unless it continues `e`. -/
def Parses (n L : ℕ) (toks : List Token) (e : CoreExpr) : Prop :=
  ∀ s rest, tokensWeight (toks ++ rest) ≤ n → Stops L (PState.ahead s rest) →
    ∃ x, e.Denotes x ∧ parseAt L (recAt n) (s.ahead (toks ++ rest)) = some (x, s.ahead rest)

/-- At the left-associative level `L`, reading the tokens leads to the level's loop with
`e` as left operand. -/
def Loops (n L : ℕ) (toks : List Token) (e : CoreExpr) : Prop :=
  ∀ s rest, tokensWeight (toks ++ rest) ≤ n → Stops (L + 1) (PState.ahead s rest) →
    ∃ x k, e.Denotes x ∧ tokensWeight rest < k ∧
      parseAt L (recAt n) (s.ahead (toks ++ rest)) =
        binaryLoop (levelOps L) (parseAt (L + 1) (recAt n)) (levelLine L) k x (s.ahead rest)

/-- Reading the tokens leads to the postfix loop with `e` in front. A member access with
an argument list behind it is read as a call in one turn, hence the exception. -/
def Trails (n : ℕ) (toks : List Token) (e : CoreExpr) : Prop :=
  ∀ s rest, tokensWeight (toks ++ rest) ≤ n →
    ((∃ o name, e = .member o name) → (PState.ahead s rest).cur.type ≠ .lparen) →
    ∃ x k, e.Denotes x ∧ tokensWeight rest < k ∧
      parsePostfix (recAt n) (s.ahead (toks ++ rest)) =
        postfixLoop (recAt n) k x (s.ahead rest)

/-- The first token satisfies `p`. -/
def StartsWith (p : TokenType → Prop) (toks : List Token) : Prop :=
  ∃ t ts, toks = t :: ts ∧ p t.type

theorem StartsWith.append {p : TokenType → Prop} {toks toks' : List Token}
    (h : StartsWith p toks) : StartsWith p (toks ++ toks') := by
  obtain ⟨t, ts, rfl, ht⟩ := h
  exact ⟨t, ts ++ toks', rfl, ht⟩

theorem StartsWith.mono {p q : TokenType → Prop} {toks : List Token} (h : StartsWith p toks)
    (hpq : ∀ k, p k → q k) : StartsWith q toks := by
  obtain ⟨t, ts, rfl, ht⟩ := h
  exact ⟨t, ts, rfl, hpq _ ht⟩

theorem lt_turns (n : ℕ) : n < (recAt n).turns := (recAt_upto n).turns

section

variable {n L line : ℕ} {toks : List Token} {e : CoreExpr}

theorem Parses.descend (hL : L ≤ 11) (h : Parses n (L + 1) toks e)
    (hfirst : L = 11 → StartsWith (· ∉ [.not, .minus]) toks) :
    Parses n L toks e := by
  intro s rest hweight hstop
  obtain ⟨x, hx, hrun⟩ := h s rest hweight (hstop.mono (Nat.le_succ L))
  refine ⟨x, hx, parseAt_descend hL (Nat.zero_lt_of_lt (lt_turns n)) (fun h11 => ?_) hrun hstop⟩
  obtain ⟨t, ts, rfl, ht⟩ := hfirst h11
  exact ht

theorem Parses.descendTo {M : ℕ} (hLM : L ≤ M) (hM : M ≤ 12) (h : Parses n M toks e)
    (hfirst : M = 12 → StartsWith (· ∉ [.not, .minus]) toks) :
    Parses n L toks e := by
  induction M, hLM using Nat.le_induction with
  | base => exact h
  | succ M hLM ih =>
    refine ih (by omega) (h.descend (by omega) fun h11 => hfirst (by omega)) fun h12 => ?_
    omega

/-- A level without operator in front of the loop. -/
theorem Parses.loops (hL : levelOps L ≠ []) (h : Parses n (L + 1) toks e) : Loops n L toks e := by
  intro s rest hweight hstop
  obtain ⟨x, hx, hrun⟩ := h s rest hweight hstop
  refine ⟨x, (recAt n).turns, hx, ?_, ?_⟩
  · have := lt_turns n
    rw [tokensWeight_append] at hweight
    omega
  · rw [parseAt_eq_parseLevel hL]
    exact run_bind hrun

/-- Behind the last operand the loop stops. -/
theorem Loops.parses (h : Loops n L toks e) : Parses n L toks e := by
  intro s rest hweight hstop
  obtain ⟨x, k, hx, hk, hrun⟩ := h s rest hweight (hstop.mono (Nat.le_succ L))
  exact ⟨x, hx, hrun.trans (binaryLoop_stop (Nat.zero_lt_of_lt hk) (notMem_levelOps hstop))⟩

/-- One turn of the loop of a left-associative level. -/
theorem Loops.binary {op : BinaryOp} {e' : CoreExpr} {toks' : List Token}
    (hop : (op.token 0).type ∈ levelOps L) (hl : Loops n L toks e)
    (hr : Parses n (L + 1) toks' e') :
    Loops n L (toks ++ op.token line :: toks') (.binary op e e') := by
  intro s rest hweight hstop
  have htype : (op.token line).type = (op.token 0).type := by cases op <;> rfl
  have hcont := contLevel_of_mem_levelOps hop
  rw [List.append_assoc, List.cons_append] at hweight ⊢
  obtain ⟨x, k, hx, hk, hrun⟩ := hl s (op.token line :: (toks' ++ rest)) hweight fun l hl => by
    rw [PState.cur_ahead_cons, htype, hcont] at hl
    obtain rfl := Option.some.inj hl
    exact Nat.lt_succ_self _
  have hpos := (op.token line).weight_pos
  simp only [tokensWeight_append, tokensWeight_cons] at hweight hk
  obtain ⟨x', hx', hrun'⟩ := hr s rest (by rw [tokensWeight_append]; omega) hstop
  obtain ⟨k, rfl⟩ := Nat.exists_eq_succ_of_ne_zero (show k ≠ 0 by omega)
  refine ⟨.binary (levelLine L (op.token line) x) x x' (op.token 0).type, k,
    .binary _ op hx hx', by omega, hrun.trans ?_⟩
  show (if (op.token line).type ∈ levelOps L then _ else _ : P Expr) _ = _
  rw [if_pos (htype ▸ hop)]
  refine run_advance.trans ((run_bind hrun').trans ?_)
  rw [PState.cur_ahead_cons, htype]

/-! ### Postfix expressions -/

theorem postfixLoop_stop {r : Rec} {k : ℕ} (hk : 0 < k) {x : Expr} {s : PState}
    (h : Stops 12 s) : postfixLoop r k x s = some (x, s) := by
  obtain ⟨k, rfl⟩ := Nat.exists_eq_add_of_lt hk
  refine (run_match_miss (h.ne rfl (Nat.le_refl 12))).trans ?_
  refine (run_match_miss (h.ne rfl (Nat.le_refl 12))).trans ?_
  exact run_match_miss (h.ne rfl (Nat.le_refl 12))

theorem Trails.parses (h : Trails n toks e) : Parses n 12 toks e := by
  intro s rest hweight hstop
  obtain ⟨x, k, hx, hk, hrun⟩ := h s rest hweight fun _ => hstop.ne rfl (Nat.le_refl 12)
  exact ⟨x, hx, hrun.trans (postfixLoop_stop (Nat.zero_lt_of_lt hk) hstop)⟩

/-- A primary expression is in front of the postfix loop as soon as it is read. -/
theorem Trails.ofPrimary
    (h : ∀ s rest, tokensWeight (toks ++ rest) ≤ n → ∃ x, e.Denotes x ∧
      parsePrimary (recAt n) (PState.ahead s (toks ++ rest)) = some (x, s.ahead rest)) :
    Trails n toks e := by
  intro s rest hweight _
  obtain ⟨x, hx, hrun⟩ := h s rest hweight
  refine ⟨x, (recAt n).turns, hx, ?_, run_bind hrun⟩
  have := lt_turns n
  rw [tokensWeight_append] at hweight
  omega

/-- The call back into the cycle behind a consumed token. -/
theorem Parses.callback (h : ∀ n, Parses n 0 toks e) {s : PState} (rest : List Token)
    (hweight : tokensWeight (toks ++ rest) < n) (hstop : Stops 0 (s.ahead rest)) :
    ∃ x, e.Denotes x ∧
      (recAt n).assignment (s.ahead (toks ++ rest)) = some (x, s.ahead rest) := by
  obtain ⟨n, rfl⟩ := Nat.exists_eq_succ_of_ne_zero (Nat.ne_of_gt (Nat.zero_lt_of_lt hweight))
  exact h n s rest (Nat.le_of_lt_succ hweight) hstop

/-- A token that continues nothing. -/
theorem stops_cons {s : PState} {t : Token} {ts : List Token} (h : contLevel t.type = none) :
    Stops L (s.ahead (t :: ts)) := by
  intro l hl
  rw [PState.cur_ahead_cons, h] at hl
  cases hl

theorem stops_cons' {s : PState} {t : Token} {ts : List Token} {l : ℕ}
    (h : contLevel t.type = some l) (hl : l < L) : Stops L (s.ahead (t :: ts)) := by
  intro l' hl'
  rw [PState.cur_ahead_cons, h] at hl'
  exact Option.some.inj hl' ▸ hl

/-- Parentheses. -/
theorem Trails.paren (h : ∀ n, Parses n 0 toks e) :
    Trails n (⟨.lparen, txt "(", line⟩ :: toks ++ [⟨.rparen, txt ")", line⟩]) e := by
  refine Trails.ofPrimary fun s rest hweight => ?_
  have htoks : ⟨.lparen, txt "(", line⟩ :: toks ++ [⟨.rparen, txt ")", line⟩] ++ rest
      = (⟨.lparen, txt "(", line⟩ : Token) :: (toks ++ ⟨.rparen, txt ")", line⟩ :: rest) := by simp
  rw [htoks] at hweight ⊢
  have hpos := Token.weight_pos ⟨.lparen, txt "(", line⟩
  rw [tokensWeight_cons] at hweight
  obtain ⟨x, hx, hrun⟩ := Parses.callback (n := n) h (s := s)
    (⟨.rparen, txt ")", line⟩ :: rest) (by omega) (stops_cons rfl)
  have hprimary : ∀ (r : Rec) (ts : List Token),
      parsePrimary r (s.ahead (⟨.lparen, txt "(", line⟩ :: ts)) =
        (r.assignment >>= fun e => expect .rparen "expected ')'" >>= fun _ => pure e)
          (s.ahead ts) := fun _ _ => rfl
  refine ⟨x, hx, ?_⟩
  rw [hprimary, run_bind hrun]
  exact run_expect rfl

/-- A member access. -/
theorem Trails.member (h : Trails n toks e) (name : Text) :
    Trails n (toks ++ [⟨.dot, txt ".", line⟩, ⟨.ident, name, line⟩]) (.member e name) := by
  intro s rest hweight hnext
  have hne := hnext ⟨e, name, rfl⟩
  have htoks : toks ++ [⟨.dot, txt ".", line⟩, ⟨.ident, name, line⟩] ++ rest
      = toks ++ ((⟨.dot, txt ".", line⟩ : Token) :: ⟨.ident, name, line⟩ :: rest) := by simp
  rw [htoks] at hweight ⊢
  obtain ⟨x, k, hx, hk, hrun⟩ := h s _ hweight fun _ => TokenType.noConfusion
  have hdot := Token.weight_pos ⟨.dot, txt ".", line⟩
  rw [tokensWeight_cons, tokensWeight_cons] at hk
  obtain ⟨k, rfl⟩ := Nat.exists_eq_succ_of_ne_zero (show k ≠ 0 by omega)
  refine ⟨.member x.line x name, k, .member _ hx name, by omega, hrun.trans ?_⟩
  have hname : parseMemberName (s.ahead (⟨.ident, name, line⟩ :: rest)) = some (name, s.ahead rest) :=
    rfl
  exact (run_match_hit rfl).trans ((run_bind hname).trans (run_match_miss hne))

theorem Trails.index {i : CoreExpr} {toks' : List Token} (h : Trails n toks e)
    (hi : ∀ n, Parses n 0 toks' i) :
    Trails n (toks ++ ⟨.lbracket, txt "[", line⟩ :: toks' ++ [⟨.rbracket, txt "]", line⟩])
      (.index e i) := by
  intro s rest hweight _
  have htoks : toks ++ ⟨.lbracket, txt "[", line⟩ :: toks' ++ [⟨.rbracket, txt "]", line⟩] ++ rest
      = toks ++ ((⟨.lbracket, txt "[", line⟩ : Token) ::
          (toks' ++ ⟨.rbracket, txt "]", line⟩ :: rest)) := by simp
  rw [htoks] at hweight ⊢
  obtain ⟨x, k, hx, hk, hrun⟩ := h s _ hweight fun _ => TokenType.noConfusion
  have hopen := Token.weight_pos ⟨.lbracket, txt "[", line⟩
  rw [tokensWeight_append, tokensWeight_cons] at hweight
  obtain ⟨xi, hxi, hruni⟩ := Parses.callback (n := n) hi (s := s)
    (⟨.rbracket, txt "]", line⟩ :: rest) (by omega) (stops_cons rfl)
  simp only [tokensWeight_append, tokensWeight_cons] at hk
  obtain ⟨k, rfl⟩ := Nat.exists_eq_succ_of_ne_zero (show k ≠ 0 by omega)
  refine ⟨.index x.line x xi, k, .index _ hx hxi, by omega, hrun.trans ?_⟩
  refine (run_match_miss TokenType.noConfusion).trans ((run_match_hit rfl).trans ?_)
  exact (run_bind hruni).trans (run_expect rfl)

/-! ### Argument lists -/

/-- The rest of an argument list, behind its first argument. -/
theorem commaList_more {args : List CoreExpr} (hargs : ∀ a ∈ args, ∀ n, Parses n 0 (a.print line) a)
    {toks : List Token} {e : CoreExpr} (he : ∀ n, Parses n 0 toks e) {s : PState}
    {rest : List Token} (close : Token) (hclose : close.type = .rparen)
    (hweight : tokensWeight (toks ++ printMoreArgs line args ++ close :: rest) < n) {k : ℕ}
    (hk : args.length < k) :
    ∃ xs, List.Forall₂ CoreExpr.Denotes (e :: args) xs ∧
      commaList (recAt n).assignment k (s.ahead (toks ++ printMoreArgs line args ++ close :: rest))
        = some (xs, s.ahead (close :: rest)) := by
  induction args generalizing toks e k with
  | nil =>
    obtain ⟨k, rfl⟩ := Nat.exists_eq_succ_of_ne_zero (show k ≠ 0 by omega)
    rw [printMoreArgs, List.append_nil] at hweight ⊢
    have hnone : contLevel close.type = none := by rw [hclose]; rfl
    obtain ⟨x, hx, hrun⟩ := Parses.callback he _ hweight (stops_cons hnone)
    refine ⟨[x], .cons hx .nil, (run_bind hrun).trans ?_⟩
    refine (run_match_miss ?_).trans rfl
    rw [PState.cur_ahead_cons, hclose]
    decide
  | cons a args ih =>
    obtain ⟨k, rfl⟩ := Nat.exists_eq_succ_of_ne_zero (show k ≠ 0 by omega)
    have htoks : toks ++ printMoreArgs line (a :: args) ++ close :: rest = toks ++
        ((⟨.comma, txt ",", line⟩ : Token) ::
          (a.print line ++ printMoreArgs line args ++ close :: rest)) := by
      simp [printMoreArgs]
    rw [htoks] at hweight ⊢
    obtain ⟨x, hx, hrun⟩ := Parses.callback he _ hweight (stops_cons rfl)
    rw [tokensWeight_append, tokensWeight_cons] at hweight
    obtain ⟨xs, hxs, hruns⟩ := ih (fun b hb => hargs b (List.mem_cons_of_mem _ hb))
      (hargs a List.mem_cons_self) (by omega) (Nat.lt_of_succ_lt_succ hk)
    refine ⟨x :: xs, .cons hx hxs, (run_bind hrun).trans ?_⟩
    exact (run_match_hit rfl).trans (run_bind hruns)

theorem length_le_printMoreArgs (args : List CoreExpr) :
    args.length ≤ tokensWeight (printMoreArgs line args) := by
  induction args with
  | nil => exact Nat.zero_le _
  | cons a args ih =>
    have := Token.weight_pos ⟨.comma, txt ",", line⟩
    simp only [printMoreArgs, List.length_cons, tokensWeight_append, tokensWeight_cons,
      List.cons_append]
    omega

theorem parseCallArgs_print {args : List CoreExpr}
    (hargs : ∀ a ∈ args, (∀ n, Parses n 0 (a.print line) a) ∧ StartsWith (· ≠ .rparen) (a.print line))
    {s : PState} (rest : List Token)
    (hweight : tokensWeight (printArgs line args ++ ⟨.rparen, txt ")", line⟩ :: rest) < n) :
    ∃ xs, List.Forall₂ CoreExpr.Denotes args xs ∧
      parseCallArgs (recAt n) (s.ahead (printArgs line args ++ ⟨.rparen, txt ")", line⟩ :: rest))
        = some (xs, s.ahead rest) := by
  cases args with
  | nil => exact ⟨[], .nil, rfl⟩
  | cons a args =>
    rw [printArgs] at hweight ⊢
    have hlen : args.length ≤ tokensWeight (printMoreArgs line args) :=
      length_le_printMoreArgs args
    have hturns := lt_turns n
    obtain ⟨xs, hxs, hrun⟩ := commaList_more (s := s) (k := (recAt n).turns)
      (fun b hb => (hargs b (List.mem_cons_of_mem _ hb)).1) (hargs a List.mem_cons_self).1
      ⟨.rparen, txt ")", line⟩ rfl hweight (by
        simp only [tokensWeight_append] at hweight
        omega)
    refine ⟨xs, hxs, ?_⟩
    obtain ⟨t, ts, htoks, ht⟩ := (hargs a List.mem_cons_self).2
    have hlist : parseArgList (recAt n) (s.ahead
        (a.print line ++ printMoreArgs line args ++ ⟨.rparen, txt ")", line⟩ :: rest))
        = some (xs, s.ahead (⟨.rparen, txt ")", line⟩ :: rest)) := by
      rw [← hrun, htoks]
      show (if decide (t.type = .rparen) then pure [] else _ : P (List Expr)) _ = _
      rw [if_neg (by simpa using ht)]
    exact (run_bind hlist).trans (run_expect rfl)

theorem Trails.call {args : List CoreExpr} (h : Trails n toks e)
    (he : ∀ o name, e ≠ .member o name)
    (hargs : ∀ a ∈ args, (∀ n, Parses n 0 (a.print line) a) ∧ StartsWith (· ≠ .rparen) (a.print line)) :
    Trails n (toks ++ ⟨.lparen, txt "(", line⟩ :: printArgs line args ++
      [⟨.rparen, txt ")", line⟩]) (.call e args) := by
  intro s rest hweight _
  have htoks : toks ++ ⟨.lparen, txt "(", line⟩ :: printArgs line args ++
        [⟨.rparen, txt ")", line⟩] ++ rest
      = toks ++ ((⟨.lparen, txt "(", line⟩ : Token) ::
          (printArgs line args ++ ⟨.rparen, txt ")", line⟩ :: rest)) := by simp
  rw [htoks] at hweight ⊢
  obtain ⟨x, k, hx, hk, hrun⟩ := h s _ hweight fun ⟨o, name, h⟩ => absurd h (he o name)
  have hopen := Token.weight_pos ⟨.lparen, txt "(", line⟩
  rw [tokensWeight_append, tokensWeight_cons] at hweight
  obtain ⟨xs, hxs, hruns⟩ := parseCallArgs_print (n := n) hargs (s := s) rest (by omega)
  simp only [tokensWeight_append, tokensWeight_cons] at hk
  obtain ⟨k, rfl⟩ := Nat.exists_eq_succ_of_ne_zero (show k ≠ 0 by omega)
  refine ⟨.call x.line x xs, k, .call _ hx hxs, by omega, hrun.trans ?_⟩
  refine (run_match_miss TokenType.noConfusion).trans ((run_match_miss TokenType.noConfusion).trans ?_)
  exact (run_match_hit rfl).trans (run_bind hruns)

/-- A method call: the parser takes the member access and the call in one turn. -/
theorem Trails.methodCall {args : List CoreExpr} (h : Trails n toks e) (name : Text)
    (hargs : ∀ a ∈ args, (∀ n, Parses n 0 (a.print line) a) ∧ StartsWith (· ≠ .rparen) (a.print line)) :
    Trails n (toks ++ [⟨.dot, txt ".", line⟩, ⟨.ident, name, line⟩] ++
      ⟨.lparen, txt "(", line⟩ :: printArgs line args ++ [⟨.rparen, txt ")", line⟩])
      (.call (.member e name) args) := by
  intro s rest hweight _
  have htoks : toks ++ [⟨.dot, txt ".", line⟩, ⟨.ident, name, line⟩] ++
        ⟨.lparen, txt "(", line⟩ :: printArgs line args ++ [⟨.rparen, txt ")", line⟩] ++ rest
      = toks ++ ((⟨.dot, txt ".", line⟩ : Token) :: ⟨.ident, name, line⟩ ::
          ⟨.lparen, txt "(", line⟩ ::
          (printArgs line args ++ ⟨.rparen, txt ")", line⟩ :: rest)) := by simp
  rw [htoks] at hweight ⊢
  obtain ⟨x, k, hx, hk, hrun⟩ := h s _ hweight fun _ => TokenType.noConfusion
  have hdot := Token.weight_pos ⟨.dot, txt ".", line⟩
  rw [tokensWeight_append, tokensWeight_cons, tokensWeight_cons, tokensWeight_cons] at hweight
  obtain ⟨xs, hxs, hruns⟩ := parseCallArgs_print (n := n) hargs (s := s) rest (by omega)
  simp only [tokensWeight_append, tokensWeight_cons] at hk
  obtain ⟨k, rfl⟩ := Nat.exists_eq_succ_of_ne_zero (show k ≠ 0 by omega)
  refine ⟨.call x.line (.member x.line x name) xs, k, .call _ (.member _ hx name) hxs, by omega,
    hrun.trans ?_⟩
  have hname : ∀ ts, parseMemberName (s.ahead (⟨.ident, name, line⟩ :: ts))
      = some (name, s.ahead ts) := fun _ => rfl
  refine (run_match_hit rfl).trans ((run_bind (hname _)).trans ?_)
  exact (run_match_hit rfl).trans (run_bind hruns)

/-! ### The other operators -/

theorem Parses.unary (op : UnaryOp) (h : ∀ n, Parses n 11 toks e) (n : ℕ) :
    Parses n 11 (op.token line :: toks) (.unary op e) := by
  intro s rest hweight hstop
  rw [List.cons_append] at hweight ⊢
  have htype : (op.token line).type = (op.token 0).type := by cases op <;> rfl
  have hpos := (op.token line).weight_pos
  rw [tokensWeight_cons] at hweight
  obtain ⟨n, rfl⟩ := Nat.exists_eq_succ_of_ne_zero (show n ≠ 0 by omega)
  obtain ⟨x, hx, hrun⟩ := h n s rest (by omega) hstop
  refine ⟨.unary line x (op.token 0).type, .unary _ op hx, ?_⟩
  show (if (op.token line).type ∈ [TokenType.not, .minus] then _ else _ : P Expr) _ = _
  rw [if_pos (by cases op <;> simp [UnaryOp.token])]
  refine run_advance.trans ((run_bind hrun).trans ?_)
  rw [PState.cur_ahead_cons, htype]
  cases op <;> rfl

theorem Parses.power {e' : CoreExpr} {toks' : List Token} (hl : ∀ n, Parses n 11 toks e)
    (hr : ∀ n, Parses n 10 toks' e') (n : ℕ) :
    Parses n 10 (toks ++ BinaryOp.pow.token line :: toks') (.binary .pow e e') := by
  intro s rest hweight hstop
  rw [List.append_assoc, List.cons_append] at hweight ⊢
  obtain ⟨x, hx, hrun⟩ := hl n s _ hweight (stops_cons' rfl (by decide))
  have hpos := (BinaryOp.pow.token line).weight_pos
  rw [tokensWeight_append, tokensWeight_cons] at hweight
  obtain ⟨n, rfl⟩ := Nat.exists_eq_succ_of_ne_zero (show n ≠ 0 by omega)
  obtain ⟨x', hx', hrun'⟩ := hr n s rest (by omega) hstop
  refine ⟨_, .binary x.line .pow hx hx', (run_bind hrun).trans ?_⟩
  exact (run_match_hit rfl).trans (run_bind hrun')

theorem Parses.between {lo hi : CoreExpr} {toks₁ toks₂ : List Token}
    (h : ∀ n, Parses n 7 toks e) (hlo : ∀ n, Parses n 0 toks₁ lo) (hhi : ∀ n, Parses n 0 toks₂ hi)
    (n : ℕ) :
    Parses n 6 (toks ++ ⟨.between, txt "<<<", line⟩ :: ⟨.lparen, txt "(", line⟩ :: toks₁ ++
      ⟨.comma, txt ",", line⟩ :: toks₂ ++ [⟨.rparen, txt ")", line⟩]) (.between e lo hi) := by
  intro s rest hweight _
  have htoks : toks ++ ⟨.between, txt "<<<", line⟩ :: ⟨.lparen, txt "(", line⟩ :: toks₁ ++
        ⟨.comma, txt ",", line⟩ :: toks₂ ++ [⟨.rparen, txt ")", line⟩] ++ rest
      = toks ++ ((⟨.between, txt "<<<", line⟩ : Token) :: ⟨.lparen, txt "(", line⟩ ::
          (toks₁ ++ ⟨.comma, txt ",", line⟩ :: (toks₂ ++ ⟨.rparen, txt ")", line⟩ :: rest))) := by
    simp
  rw [htoks] at hweight ⊢
  obtain ⟨x, hx, hrun⟩ := h n s _ hweight (stops_cons' rfl (by decide))
  have hpos := Token.weight_pos ⟨.between, txt "<<<", line⟩
  simp only [tokensWeight_append, tokensWeight_cons] at hweight
  obtain ⟨xlo, hxlo, hrunlo⟩ := Parses.callback (n := n) hlo (s := s)
    (⟨.comma, txt ",", line⟩ :: (toks₂ ++ ⟨.rparen, txt ")", line⟩ :: rest))
    (by simp only [tokensWeight_append, tokensWeight_cons]; omega) (stops_cons rfl)
  obtain ⟨xhi, hxhi, hrunhi⟩ := Parses.callback (n := n) hhi (s := s)
    (⟨.rparen, txt ")", line⟩ :: rest)
    (by simp only [tokensWeight_append, tokensWeight_cons]; omega) (stops_cons rfl)
  refine ⟨_, .between x.line hx hxlo hxhi, (run_bind hrun).trans ?_⟩
  refine (run_match_hit rfl).trans ((run_expect rfl).trans ((run_bind hrunlo).trans ?_))
  exact (run_expect rfl).trans ((run_bind hrunhi).trans (run_expect rfl))

theorem Parses.ternary {t f : CoreExpr} {toks₁ toks₂ : List Token}
    (hc : ∀ n, Parses n 2 toks e) (ht : ∀ n, Parses n 0 toks₁ t) (hf : ∀ n, Parses n 0 toks₂ f)
    (n : ℕ) :
    Parses n 1 (toks ++ ⟨.question, txt "?", line⟩ :: toks₁ ++ ⟨.colon, txt ":", line⟩ :: toks₂)
      (.ternary e t f) := by
  intro s rest hweight hstop
  have htoks : toks ++ ⟨.question, txt "?", line⟩ :: toks₁ ++ ⟨.colon, txt ":", line⟩ :: toks₂ ++
        rest
      = toks ++ ((⟨.question, txt "?", line⟩ : Token) ::
          (toks₁ ++ ⟨.colon, txt ":", line⟩ :: (toks₂ ++ rest))) := by simp
  rw [htoks] at hweight ⊢
  obtain ⟨x, hx, hrun⟩ := hc n s _ hweight (stops_cons' rfl (by decide))
  have hpos := Token.weight_pos ⟨.question, txt "?", line⟩
  simp only [tokensWeight_append, tokensWeight_cons] at hweight
  obtain ⟨xt, hxt, hrunt⟩ := Parses.callback (n := n) ht (s := s)
    (⟨.colon, txt ":", line⟩ :: (toks₂ ++ rest))
    (by simp only [tokensWeight_append, tokensWeight_cons]; omega) (stops_cons rfl)
  obtain ⟨xf, hxf, hrunf⟩ := Parses.callback (n := n) hf (s := s) rest
    (by simp only [tokensWeight_append]; omega) hstop.zero
  refine ⟨_, .ternary x.line hx hxt hxf, (run_bind hrun).trans ?_⟩
  refine (run_match_hit rfl).trans ((run_bind hrunt).trans ((run_expect rfl).trans ?_))
  exact run_bind hrunf

theorem Parses.assign (op : AssignOp) {v : CoreExpr} {toks' : List Token}
    (ht : ∀ n, Parses n 2 toks e) (hv : ∀ n, Parses n 0 toks' v) (n : ℕ) :
    Parses n 0 (toks ++ op.token line :: toks') (.assign op e v) := by
  intro s rest hweight hstop
  rw [List.append_assoc, List.cons_append] at hweight ⊢
  have htype : (op.token line).type = (op.token 0).type := by cases op <;> rfl
  have hcont : contLevel (op.token line).type = some 1 := by cases op <;> rfl
  obtain ⟨x, hx, hrun⟩ := ht n s _ hweight (stops_cons' hcont (by decide))
  have hternary := parseTernary_miss hrun (by cases op <;> exact TokenType.noConfusion)
  have hpos := (op.token line).weight_pos
  rw [tokensWeight_append, tokensWeight_cons] at hweight
  obtain ⟨xv, hxv, hrunv⟩ := Parses.callback (n := n) hv (s := s) rest (by omega) hstop
  refine ⟨_, .assign line op hx hxv, (run_bind hternary).trans ?_⟩
  show (if isAssignOp (op.token line).type then _ else _ : P Expr) _ = _
  rw [if_pos (by cases op <;> rfl)]
  refine run_advance.trans ((run_bind hrunv).trans ?_)
  rw [PState.cur_ahead_cons, htype]
  cases op <;> rfl

end

/-! ### All expressions -/

/-- What the induction carries for an expression. -/
structure CoreExpr.Good (line : ℕ) (e : CoreExpr) : Prop where
  starts : StartsWith (fun k => k ≠ .rparen ∧ (e.level = 12 → k ∉ [.not, .minus])) (e.print line)
  native : ∀ n, Parses n e.level (e.print line) e
  trails : e.level = 12 → ∀ n, Trails n (e.print line) e
  loops : levelOps e.level ≠ [] → ∀ n, Loops n e.level (e.print line) e

theorem CoreExpr.level_le (e : CoreExpr) : e.level ≤ 12 := by
  cases e with
  | binary op l r => cases op <;> simp [CoreExpr.level, BinaryOp.level]
  | _ => simp [CoreExpr.level]

namespace CoreExpr.Good

variable {line n L : ℕ} {e : CoreExpr}

theorem parses_zero (h : e.Good line) (n : ℕ) : Parses n 0 (e.print line) e :=
  (h.native n).descendTo (Nat.zero_le _) e.level_le fun h12 => h.starts.mono fun _ hk => hk.2 h12

/-- In a position that requires level 12. -/
theorem trails_operand (h : e.Good line) (n : ℕ) :
    Trails n (parenthesize line 12 e.level (e.print line)) e := by
  unfold parenthesize
  split_ifs with hlevel
  · exact Trails.paren h.parses_zero
  · exact h.trails (Nat.le_antisymm e.level_le (Nat.le_of_not_lt hlevel)) n

/-- **In every position**, with the parentheses it requires. -/
theorem parses (h : e.Good line) (hL : L ≤ 12) (n : ℕ) :
    Parses n L (parenthesize line L e.level (e.print line)) e := by
  unfold parenthesize
  split_ifs with hlevel
  · refine (Trails.paren h.parses_zero).parses.descendTo hL (Nat.le_refl 12) fun _ => ?_
    exact ⟨_, _, rfl, by simp⟩
  · exact (h.native n).descendTo (Nat.le_of_not_lt hlevel) e.level_le fun h12 =>
      h.starts.mono fun _ hk => hk.2 h12

/-- As left operand of a left-associative level. -/
theorem loops_operand (h : e.Good line) (hL : levelOps L ≠ []) (n : ℕ) :
    Loops n L (parenthesize line L e.level (e.print line)) e := by
  by_cases hlevel : e.level = L
  · subst hlevel
    rw [parenthesize, if_neg (Nat.lt_irrefl _)]
    exact h.loops hL n
  · have hL' : L + 1 ≤ 12 := by
      have hle : ∀ M, levelOps (M + 12) = [] := fun M => rfl
      by_contra hlt
      obtain ⟨M, rfl⟩ := Nat.exists_eq_add_of_le' (show 12 ≤ L by omega)
      exact hL (hle M)
    have hsame : parenthesize line L e.level (e.print line)
        = parenthesize line (L + 1) e.level (e.print line) := by
      unfold parenthesize
      split_ifs <;> first | rfl | omega
    rw [hsame]
    exact (h.parses hL' n).loops hL

theorem starts_parenthesize (h : e.Good line) (L : ℕ) :
    StartsWith (fun k => k ≠ .rparen ∧ (L = 12 → k ∉ [.not, .minus]))
      (parenthesize line L e.level (e.print line)) := by
  unfold parenthesize
  split_ifs with hlevel
  · exact ⟨_, _, rfl, by simp, fun _ => by simp⟩
  · refine h.starts.mono fun k hk => ⟨hk.1, fun h12 => hk.2 ?_⟩
    have := e.level_le
    omega

/-- An expression that is in front of the postfix loop once it is read. -/
theorem ofTrails (hlevel : e.level = 12) (htrails : ∀ n, Trails n (e.print line) e)
    (hstarts : StartsWith (fun k => k ≠ .rparen ∧ k ∉ [.not, .minus]) (e.print line)) :
    e.Good line where
  starts := hstarts.mono fun _ hk => ⟨hk.1, fun _ => hk.2⟩
  native n := hlevel ▸ (htrails n).parses
  trails _ := htrails
  loops hops := absurd (by rw [hlevel]; rfl) hops

/-- A token that is an expression by itself. -/
theorem ofToken (hlevel : e.level = 12) {t : Token} (hprint : e.print line = [t])
    (ht : t.type ≠ .rparen ∧ t.type ∉ [TokenType.not, .minus]) {x : Expr} (hx : e.Denotes x)
    (hrun : ∀ r (s : PState) rest, parsePrimary r (s.ahead (t :: rest)) = some (x, s.ahead rest)) :
    e.Good line := by
  refine ofTrails hlevel (fun n => ?_) ⟨t, [], hprint, ht.1, ht.2⟩
  rw [hprint]
  exact Trails.ofPrimary fun s rest _ => ⟨x, hx, hrun _ s rest⟩

/-- An expression of a level without loop. -/
theorem ofNative (hlevel : e.level ≠ 12) (hops : levelOps e.level = [])
    (hnative : ∀ n, Parses n e.level (e.print line) e)
    (hstarts : StartsWith (· ≠ .rparen) (e.print line)) : e.Good line where
  starts := hstarts.mono fun _ hk => ⟨hk, fun h => absurd h hlevel⟩
  native := hnative
  trails h := absurd h hlevel
  loops h := absurd hops h

end CoreExpr.Good

/-- **Every expression** is read back from its tokens. -/
theorem CoreExpr.good (line : ℕ) (e : CoreExpr) : e.Good line := by
  induction hn : sizeOf e using Nat.strongRecOn generalizing e with
  | ind n ih =>
    subst hn
    have ih : ∀ e' : CoreExpr, sizeOf e' < sizeOf e → e'.Good line := fun e' h => ih _ h e' rfl
    cases e with
    | ident name => exact .ofToken rfl rfl (by simp) (.ident line name) fun _ _ _ => rfl
    | num n h =>
      refine .ofToken rfl rfl (by simp) (.num line n h) fun r s rest => ?_
      have hrun : parsePrimary r (s.ahead (⟨.numLit, natText n, line⟩ :: rest))
          = some (.num line (atol (natText n)), s.ahead rest) := rfl
      rw [hrun, atol_natText h]
    | decimal t => exact .ofToken rfl rfl (by simp) (.decimal line t) fun _ _ _ => rfl
    | scifi t => exact .ofToken rfl rfl (by simp) (.scifi line t) fun _ _ _ => rfl
    | bool b =>
      cases b with
      | true => exact .ofToken rfl rfl (by simp) (.bool line true) fun _ _ _ => rfl
      | false => exact .ofToken rfl rfl (by simp) (.bool line false) fun _ _ _ => rfl
    | str t =>
      exact .ofToken rfl rfl (by simp) (.str line t) fun r s rest =>
        parseStringLiteralToken_escape r t line (s.ahead rest)
    | unary op e =>
      have he := ih e (by rw [CoreExpr.unary.sizeOf_spec]; omega)
      exact .ofNative (by simp [CoreExpr.level]) rfl
        (fun n => Parses.unary op (he.parses (by decide)) n)
        ⟨_, _, rfl, by cases op <;> simp [UnaryOp.token]⟩
    | binary op l r =>
      have hl := ih l (by rw [CoreExpr.binary.sizeOf_spec]; omega)
      have hr := ih r (by rw [CoreExpr.binary.sizeOf_spec]; omega)
      have hstarts : StartsWith (· ≠ .rparen) ((CoreExpr.binary op l r).print line) :=
        ((hl.starts_parenthesize op.leftLevel).mono fun _ hk => hk.1).append
      by_cases hop : op = .pow
      · subst hop
        exact .ofNative (by simp [CoreExpr.level, BinaryOp.level]) rfl
          (fun n => Parses.power (hl.parses (by decide)) (hr.parses (by decide)) n) hstarts
      · have hmem : (op.token 0).type ∈ levelOps op.level := by
          revert hop
          cases op <;> decide
        have hlevel : op.level < 12 := by cases op <;> decide
        have hloops : ∀ n, Loops n op.level ((CoreExpr.binary op l r).print line) (.binary op l r) := by
          intro n
          rw [CoreExpr.print, BinaryOp.leftLevel, BinaryOp.rightLevel, if_neg hop, if_neg hop]
          exact (hl.loops_operand (List.ne_nil_of_mem hmem) n).binary hmem (hr.parses hlevel n)
        exact {
          starts := hstarts.mono fun _ hk => ⟨hk, fun h12 => absurd h12 (Nat.ne_of_lt hlevel)⟩
          native := fun n => (hloops n).parses
          trails := fun h12 => absurd h12 (Nat.ne_of_lt hlevel)
          loops := fun _ => hloops }
    | between v lo hi =>
      have hv := ih v (by rw [CoreExpr.between.sizeOf_spec]; omega)
      have hlo := ih lo (by rw [CoreExpr.between.sizeOf_spec]; omega)
      have hhi := ih hi (by rw [CoreExpr.between.sizeOf_spec]; omega)
      exact .ofNative (by simp [CoreExpr.level]) rfl
        (fun n => Parses.between (hv.parses (by decide)) hlo.parses_zero hhi.parses_zero n)
        ((hv.starts_parenthesize 7).mono fun _ hk => hk.1).append.append.append
    | ternary c a b =>
      have hc := ih c (by rw [CoreExpr.ternary.sizeOf_spec]; omega)
      have ha := ih a (by rw [CoreExpr.ternary.sizeOf_spec]; omega)
      have hb := ih b (by rw [CoreExpr.ternary.sizeOf_spec]; omega)
      exact .ofNative (by simp [CoreExpr.level]) rfl
        (fun n => Parses.ternary (hc.parses (by decide)) ha.parses_zero hb.parses_zero n)
        ((hc.starts_parenthesize 2).mono fun _ hk => hk.1).append.append
    | assign op a v =>
      have ha := ih a (by rw [CoreExpr.assign.sizeOf_spec]; omega)
      have hv := ih v (by rw [CoreExpr.assign.sizeOf_spec]; omega)
      exact .ofNative (by simp [CoreExpr.level]) rfl
        (fun n => Parses.assign op (ha.parses (by decide)) hv.parses_zero n)
        ((ha.starts_parenthesize 2).mono fun _ hk => hk.1).append
    | member o name =>
      have ho := ih o (by rw [CoreExpr.member.sizeOf_spec]; omega)
      have hstarts := (ho.starts_parenthesize 12).mono fun _ hk => And.intro hk.1 (hk.2 rfl)
      exact .ofTrails rfl (fun n => (ho.trails_operand n).member name) hstarts.append
    | index o i =>
      have ho := ih o (by rw [CoreExpr.index.sizeOf_spec]; omega)
      have hi := ih i (by rw [CoreExpr.index.sizeOf_spec]; omega)
      have hstarts := (ho.starts_parenthesize 12).mono fun _ hk => And.intro hk.1 (hk.2 rfl)
      exact .ofTrails rfl (fun n => (ho.trails_operand n).index hi.parses_zero)
        hstarts.append.append
    | call f args =>
      have hf := ih f (by rw [CoreExpr.call.sizeOf_spec]; omega)
      have hargs : ∀ a ∈ args,
          (∀ n, Parses n 0 (a.print line) a) ∧ StartsWith (· ≠ .rparen) (a.print line) := by
        intro a ha
        have hlt := List.sizeOf_lt_of_mem ha
        have hgood := ih a (by rw [CoreExpr.call.sizeOf_spec]; omega)
        exact ⟨hgood.parses_zero, hgood.starts.mono fun _ hk => hk.1⟩
      have hstarts := (hf.starts_parenthesize 12).mono fun _ hk => And.intro hk.1 (hk.2 rfl)
      refine .ofTrails rfl (fun n => ?_) hstarts.append.append
      -- a method call is read in one turn
      by_cases hmember : ∃ o name, f = .member o name
      · obtain ⟨o, name, rfl⟩ := hmember
        have ho := ih o (by rw [CoreExpr.call.sizeOf_spec, CoreExpr.member.sizeOf_spec]; omega)
        exact (ho.trails_operand n).methodCall name hargs
      · exact (hf.trails_operand n).call (fun o name h => hmember ⟨o, name, h⟩) hargs

/-- **Printing and parsing back.** For every expression, every parser state whose tokens
ahead are the printed ones, with anything behind them that does not continue an
expression, and every sufficient depth: `parse_expr` returns the expression, up to line
numbers, and leaves the state as it was but for the printed tokens, which are consumed; in
particular it reports no error. -/
theorem parseExpr_print (line : ℕ) (e : CoreExpr) (s : PState) (rest : List Token)
    (hrest : contLevel (s.ahead rest).cur.type = none) :
    ∃ N, ∀ n ≥ N, ∃ x, e.Denotes x ∧
      parseExpr (recAt n) (s.ahead (e.print line ++ rest)) = some (x, s.ahead rest) := by
  refine ⟨tokensWeight (e.print line ++ rest), fun n hn => ?_⟩
  exact (e.good line).parses_zero n s rest hn fun l hl => by
    rw [hrest] at hl
    cases hl

/-- `(a ? b : c) = -2 ** x`, with EOF behind it: the conditional target keeps its
parentheses. -/
theorem parseExpr_print_target :
    ∃ N, ∀ n ≥ N, ∃ x,
      CoreExpr.Denotes (.assign .set (.ternary (.ident (txt "a")) (.ident (txt "b"))
        (.ident (txt "c"))) (.binary .pow (.unary .neg (.num 2 (by decide))) (.ident (txt "x")))) x ∧
      parseExpr (recAt n) ((initParser []).ahead
        ([⟨.lparen, txt "(", 1⟩, ⟨.ident, txt "a", 1⟩, ⟨.question, txt "?", 1⟩,
          ⟨.ident, txt "b", 1⟩, ⟨.colon, txt ":", 1⟩, ⟨.ident, txt "c", 1⟩, ⟨.rparen, txt ")", 1⟩,
          ⟨.assign, txt "=", 1⟩, ⟨.minus, txt "-", 1⟩, ⟨.numLit, txt "2", 1⟩, ⟨.pow, txt "**", 1⟩,
          ⟨.ident, txt "x", 1⟩] ++ [])) = some (x, (initParser []).ahead []) :=
  parseExpr_print 1 (.assign .set (.ternary (.ident (txt "a")) (.ident (txt "b"))
    (.ident (txt "c"))) (.binary .pow (.unary .neg (.num 2 (by decide))) (.ident (txt "x"))))
    (initParser []) [] rfl

end Jaguar
