/-
The parser always comes to an end.

Every parsing function returns once the depth exceeds the weight of the tokens ahead
(`Token.weight`), because each call back into the cycle happens behind a consumed token,
and the text of a nested parse is shorter than the string literal it was cut from.

* `Progress` — what any run of the parser does to its state: tokens are only consumed,
  the logs only grow, every error is recovered from, nested texts are shorter;
* `Eats` — and a token is consumed unless the parser is at EOF;
* `Rec.Upto` — the functions of a record return below a weight; `recAt_upto`;
* `parseProgram_terminates`.
-/
import Jaguar.Parser
import Jaguar.Measured

namespace Jaguar

/-! ### The measure and the relations -/

/-- The weight of the tokens ahead. -/
def PState.weight (s : PState) : ℕ := tokensWeight s.toks

/-- No token ahead is longer than the source, as it is when the source was tokenized. -/
def PState.Fits (s : PState) : Prop := ∀ t ∈ s.toks, t.lexeme.length ≤ s.source.length

/-- An error at EOF, or one behind which a token was consumed; `left` tokens are still
ahead. -/
def ParseError.Recovered (left : ℕ) (e : ParseError) : Prop :=
  e.cur.type = .eof ∨ left < e.left

/-- A nested parse of a shorter text, all errors of which were recovered from. -/
structure NestedParse.Shrinks (p : NestedParse) : Prop where
  shorter : p.text.length < p.enclosing.length
  recovered : ∀ e ∈ p.errors, e.Recovered p.left

/-- Such a nested parse, or one of a text shorter than a token ahead of `s`. -/
structure NestedParse.From (s : PState) (p : NestedParse) : Prop where
  shorter : p.text.length < p.enclosing.length ∨
    p.enclosing = s.source ∧ ∃ t ∈ s.toks, p.text.length < t.lexeme.length
  recovered : ∀ e ∈ p.errors, e.Recovered p.left

theorem NestedParse.From.shrinks {s : PState} {p : NestedParse} (h : p.From s) (hs : s.Fits) :
    p.Shrinks where
  shorter := by
    rcases h.shorter with hlt | ⟨hsource, t, ht, hlt⟩
    · exact hlt
    · rw [hsource]
      exact hlt.trans_le (hs t ht)
  recovered := h.recovered

structure Progress (s s' : PState) : Prop where
  source : s'.source = s.source
  eofLine : s'.eofLine = s.eofLine
  toks : s'.toks <:+ s.toks
  errors : ∃ new, s'.errors = s.errors ++ new ∧ ∀ e ∈ new, e.Recovered s'.toks.length
  nested : ∃ new, s'.nested = s.nested ++ new ∧ ∀ p ∈ new, p.From s

structure Eats (s s' : PState) : Prop extends Progress s s' where
  eats : s.cur.type ≠ .eof → s'.toks.length < s.toks.length

abbrev Within (n : ℕ) (R : PState → PState → Prop) {α : Type} (m : P α) : Prop :=
  Returns PState.weight n R m

theorem tokensWeight_suffix {ts ts' : List Token} (h : ts' <:+ ts) :
    tokensWeight ts' + (ts.length - ts'.length) ≤ tokensWeight ts := by
  obtain ⟨pre, rfl⟩ := h
  induction pre with
  | nil => simp
  | cons t pre ih =>
    have := t.weight_pos
    simp only [List.cons_append, tokensWeight_cons, List.length_cons, List.length_append] at ih ⊢
    omega

namespace Progress

variable {s s' s'' : PState}

theorem weight_le (h : Progress s s') :
    s'.weight + (s.toks.length - s'.toks.length) ≤ s.weight :=
  tokensWeight_suffix h.toks

theorem length_le (h : Progress s s') : s'.toks.length ≤ s.toks.length := h.toks.length_le

theorem refl (s : PState) : Progress s s where
  source := rfl
  eofLine := rfl
  toks := List.suffix_refl _
  errors := ⟨[], by simp, by simp⟩
  nested := ⟨[], by simp, by simp⟩

theorem trans (h : Progress s s') (h' : Progress s' s'') : Progress s s'' where
  source := h'.source.trans h.source
  eofLine := h'.eofLine.trans h.eofLine
  toks := h'.toks.trans h.toks
  errors := by
    obtain ⟨new, hnew, hrec⟩ := h.errors
    obtain ⟨new', hnew', hrec'⟩ := h'.errors
    refine ⟨new ++ new', by rw [hnew', hnew, List.append_assoc], fun e he => ?_⟩
    rcases List.mem_append.mp he with he | he
    · exact (hrec e he).imp_right fun hlt => h'.length_le.trans_lt hlt
    · exact hrec' e he
  nested := by
    obtain ⟨new, hnew, hok⟩ := h.nested
    obtain ⟨new', hnew', hok'⟩ := h'.nested
    refine ⟨new ++ new', by rw [hnew', hnew, List.append_assoc], fun p hp => ?_⟩
    rcases List.mem_append.mp hp with hp | hp
    · exact hok p hp
    · refine ⟨(hok' p hp).shorter.imp_right ?_, (hok' p hp).recovered⟩
      rintro ⟨hsource, t, ht, hlt⟩
      exact ⟨hsource.trans h.source, t, h.toks.subset ht, hlt⟩

end Progress

theorem Eats.then {s s' s'' : PState} (h : Eats s s') (h' : Progress s' s'') : Eats s s'' where
  toProgress := h.toProgress.trans h'
  eats hcur := h'.length_le.trans_lt (h.eats hcur)

/-- If nothing was consumed before, the same token is current. -/
theorem Progress.thenEats {s s' s'' : PState} (h : Progress s s') (h' : Eats s' s'') :
    Eats s s'' where
  toProgress := h.trans h'.toProgress
  eats hcur := by
    rcases h.length_le.lt_or_eq with hlt | heq
    · exact h'.toProgress.length_le.trans_lt hlt
    · have htoks : s'.toks = s.toks := h.toks.eq_of_length heq
      have hcur' : s'.cur = s.cur := by
        unfold PState.cur
        rw [htoks, h.eofLine]
      rw [← htoks]
      exact h'.eats (hcur' ▸ hcur)

/-! ### Rules -/

variable {α β : Type} {n k : ℕ} {r : Rec}

theorem Within.then {m : P α} {f : α → P β} (hm : Within n Progress m)
    (hf : ∀ a, Within n Progress (f a)) : Within n Progress (m >>= f) := fun s =>
  (hm s).bind (fun a s' _ _ => hf a s')
    (fun s' h => by have := h.weight_le; omega) fun _ _ h h' => h.trans h'

theorem Within.eatsThen {m : P α} {f : α → P β} (hm : Within n Eats m)
    (hf : ∀ a, Within n Progress (f a)) : Within n Eats (m >>= f) := fun s =>
  (hm s).bind (fun a s' _ _ => hf a s')
    (fun s' h => by have := h.toProgress.weight_le; omega) fun _ _ h h' => h.then h'

theorem Within.thenEats {m : P α} {f : α → P β} (hm : Within n Progress m)
    (hf : ∀ a, Within n Eats (f a)) : Within n Eats (m >>= f) := fun s =>
  (hm s).bind (fun a s' _ _ => hf a s')
    (fun s' h => by have := h.weight_le; omega) fun _ _ h h' => h.thenEats h'

theorem Within.progress {m : P α} (hm : Within n Eats m) : Within n Progress m :=
  hm.weaken fun _ _ h => h.toProgress

theorem within_pure (a : α) : Within n Progress (pure a : P α) := fun s => Progress.refl s

theorem within_cur {R : PState → PState → Prop} {f : Token → P α} (hf : ∀ t, Within n R (f t)) :
    Within n R (cur >>= f) := fun s => hf s.cur s

theorem returns_cur {R : PState → PState → Prop} {f : Token → P α} {s : PState}
    (hf : ReturnsAt PState.weight n R (f s.cur) s) :
    ReturnsAt PState.weight n R (cur >>= f) s := hf

theorem within_map {R : PState → PState → Prop} {m : P α} (f : α → β) (hm : Within n R m) :
    Within n R (f <$> m) := by
  intro s
  have h := hm s
  unfold ReturnsAt at h ⊢
  have hmap : (f <$> m) s = (m s).map fun x => (f x.1, x.2) := by
    show (m s).bind _ = _
    cases m s <;> rfl
  rw [hmap]
  cases hms : m s with
  | none => rwa [hms] at h
  | some x => rwa [hms] at h

/-- The state behind a consumed token. -/
def PState.next (s : PState) : PState := { s with toks := s.toks.tail }

theorem progress_next (s : PState) : Progress s s.next where
  source := rfl
  eofLine := rfl
  toks := List.tail_suffix _
  errors := ⟨[], by simp [PState.next], by simp⟩
  nested := ⟨[], by simp [PState.next], by simp⟩

theorem toks_ne_nil {s : PState} (h : s.cur.type ≠ .eof) : s.toks ≠ [] := by
  intro hnil
  simp [PState.cur, hnil] at h

theorem cur_mem {s : PState} (h : s.cur.type ≠ .eof) : s.cur ∈ s.toks := by
  obtain ⟨t, ts, htoks⟩ := List.exists_cons_of_ne_nil (toks_ne_nil h)
  simp [PState.cur, htoks]

theorem eats_next (s : PState) : Eats s s.next where
  toProgress := progress_next s
  eats h := by
    have := List.length_pos_iff.mpr (toks_ne_nil h)
    simp only [PState.next, List.length_tail]
    omega

/-- A token that is not EOF pays for the rest of the run. -/
theorem within_next {f : P α} {s : PState} (hcur : s.cur.type ≠ .eof) (hf : Within n Progress f) :
    ReturnsAt PState.weight (n + 1) Eats (advance >>= fun _ => f) s :=
  ReturnsAt.bind (R := fun s s' => Eats s s' ∧ s'.weight + 1 ≤ s.weight) (k := n)
    ⟨eats_next s, by
      have h := (eats_next s).eats hcur
      have := (progress_next s).weight_le
      show s.next.weight + 1 ≤ s.weight
      omega⟩
    (fun _ s' _ _ => hf s') (fun s' h => by have := h.2; omega) fun _ _ h h' => h.1.then h'

theorem within_ite {R : PState → PState → Prop} {c : Prop} [Decidable c] {f g : P α}
    (hf : c → Within n R f) (hg : ¬ c → Within n R g) : Within n R (if c then f else g) := by
  split_ifs with h
  · exact hf h
  · exact hg h

theorem matchT_eq (t : TokenType) (s : PState) :
    matchT t s = if s.cur.type = t then some (true, s.next) else some (false, s) := by
  by_cases h : s.cur.type = t
  · simp only [matchT, check, stateT_bind_eq, h]
    rfl
  · simp only [matchT, check, stateT_bind_eq, h]
    rfl

theorem within_matchT (t : TokenType) : Within n Progress (matchT t) := by
  intro s
  unfold ReturnsAt
  rw [matchT_eq]
  split_ifs
  · exact progress_next s
  · exact Progress.refl s

theorem matchT_bind (t : TokenType) (f : Bool → P α) (s : PState) :
    (matchT t >>= f) s = if s.cur.type = t then (advance >>= fun _ => f true) s else f false s := by
  rw [stateT_bind_eq, matchT_eq]
  split_ifs <;> rfl

/-- `if (match_t(p, t)) f else g`: in `f` a token has been consumed. -/
theorem returns_matchT {t : TokenType} {R : PState → PState → Prop} {f g : P α} {s : PState}
    (hf : s.cur.type = t → ReturnsAt PState.weight n R (advance >>= fun _ => f) s)
    (hg : ReturnsAt PState.weight n R g s) :
    ReturnsAt PState.weight n R (matchT t >>= fun b => if b then f else g) s := by
  unfold ReturnsAt
  rw [matchT_bind]
  by_cases h : s.cur.type = t
  · rw [if_pos h]
    exact hf h
  · rw [if_neg h]
    exact hg

theorem returns_match {t : TokenType} (ht : t ≠ .eof) {f g : P α} {s : PState}
    (hf : Within n Progress f) (hg : ReturnsAt PState.weight (n + 1) Eats g s) :
    ReturnsAt PState.weight (n + 1) Eats (matchT t >>= fun b => if b then f else g) s :=
  returns_matchT (fun h => within_next (h ▸ ht) hf) hg

theorem within_match {t : TokenType} (ht : t ≠ .eof) {f g : P α} (hf : Within n Progress f)
    (hg : Within (n + 1) Eats g) :
    Within (n + 1) Eats (matchT t >>= fun b => if b then f else g) :=
  fun s => returns_match ht hf (hg s)

theorem within_match' {t : TokenType} (ht : t ≠ .eof) {f g : P α} (hf : Within n Progress f)
    (hg : Within (n + 1) Progress g) :
    Within (n + 1) Progress (matchT t >>= fun b => if b then f else g) := fun s =>
  returns_matchT (fun h => (within_next (h ▸ ht) hf).mono (Nat.le_refl _) fun _ => Eats.toProgress)
    (hg s)

/-- The same for a set of tokens that is tested on the current one. -/
theorem within_cur_if {c : TokenType → Prop} [DecidablePred c] (hc : ¬ c .eof) {f g : Token → P α}
    (hf : ∀ t, Within n Progress (f t)) (hg : ∀ t, Within (n + 1) Progress (g t)) :
    Within (n + 1) Progress
      (cur >>= fun t => if c t.type then advance >>= fun _ => f t else g t) := by
  intro s
  show ReturnsAt PState.weight (n + 1) Progress
    (if c s.cur.type then advance >>= fun _ => f s.cur else g s.cur) s
  split_ifs with h
  · have hcur : s.cur.type ≠ .eof := fun heof => hc (heof ▸ h)
    exact (within_next hcur (hf _)).mono (Nat.le_refl _) fun _ h => h.toProgress
  · exact hg _ s

theorem within_check {R : PState → PState → Prop} (t : TokenType) {f : Bool → P α}
    (hf : ∀ b, Within n R (f b)) : Within n R (check t >>= f) := fun s => hf _ s

theorem within_advance : Within n Eats advance := fun s => eats_next s

/-- An error is recovered from by what consumes a token behind it, or at EOF. -/
theorem within_errorThen (t : Token) (msg : String) {f : P α} (hf : Within n Eats f) :
    Within n Eats (errorAt t msg >>= fun _ => f) := by
  intro s
  refine ReturnsAt.bind (k := n)
    (R := fun s s' => s' = { s with errors := s.errors ++ [⟨t, msg, s.cur, s.toks.length⟩] })
    (by exact (rfl : _ = _)) (fun _ s' _ _ => hf s') (by rintro s' rfl; exact Nat.add_comm n _ |>.le) ?_
  rintro _ s' rfl h
  obtain ⟨new, hnew, hrec⟩ := h.errors
  exact {
    source := h.source
    eofLine := h.eofLine
    toks := h.toks
    errors := by
      refine ⟨_, hnew.trans (List.append_assoc _ _ _), fun e he => ?_⟩
      rcases List.mem_append.mp he with he | he
      · obtain rfl := List.mem_singleton.mp he
        exact (em (s.cur.type = .eof)).imp_right h.eats
      · exact hrec e he
    nested := by
      obtain ⟨nested, hnested, hok⟩ := h.nested
      exact ⟨nested, hnested, fun p hp => ⟨(hok p hp).shorter, (hok p hp).recovered⟩⟩
    eats := h.eats }

theorem within_recover (t : Token) (msg : String) : Within n Eats (recover t msg) := by
  refine within_errorThen t msg fun s => ?_
  show ReturnsAt PState.weight n Eats (if decide (s.cur.type = .eof) then pure () else advance) s
  split_ifs with h
  · exact ⟨Progress.refl s, fun hne => absurd (of_decide_eq_true h) hne⟩
  · exact within_advance s

theorem within_expect (t : TokenType) (what : String) : Within n Eats (expect t what) := by
  unfold expect
  refine within_cur fun c => within_ite (fun _ => within_advance) fun _ => within_recover c what

/-! ### Loops -/

theorem within_outOfDepth {R : PState → PState → Prop} :
    Within 0 R (outOfDepth : P α) := fun _ => Nat.zero_le _

theorem within_commaList {item : P α} (hitem : Within n Progress item) (k : ℕ) :
    Within (min n k) Progress (commaList item k) := by
  induction k with
  | zero => exact within_outOfDepth.mono (by omega)
  | succ k ih =>
    refine Within.then (hitem.mono (Nat.min_le_left _ _)) fun a => ?_
    refine Returns.mono (n := min n k + 1) (within_match' (by decide) ?_ (within_pure _)) (by omega)
    exact ih.then fun as => within_pure _

theorem within_untilBrace {item : P (Option α)} (hitem : Within n Eats item) (k : ℕ) :
    Within (min n k) Progress (untilBrace item k) := by
  induction k with
  | zero => exact within_outOfDepth.mono (by omega)
  | succ k ih =>
    intro s
    show ReturnsAt PState.weight _ Progress (if (decide (s.cur.type = .rbrace) ||
      decide (s.cur.type = .eof)) = true then pure []
      else item >>= fun a => untilBrace item k >>= fun as => pure (a.toList ++ as)) s
    split_ifs with h
    · exact Progress.refl s
    · have hcur : s.cur.type ≠ .eof := fun heof => h (by simp [heof])
      refine ReturnsAt.bind (k := min n k) (((hitem s).mono (Nat.min_le_left _ _)) fun _ => id)
        (fun a s' _ _ => (ih.then fun as => within_pure _) s') (fun s' hs' => ?_)
        fun _ _ h h' => h.toProgress.trans h'
      have := hs'.eats hcur
      have := hs'.toProgress.weight_le
      omega

theorem within_binaryLoop {ops : List TokenType} (hops : .eof ∉ ops) {operand : P Expr}
    (hoperand : Within n Progress operand) {line : Token → Expr → ℕ} (k : ℕ) (left : Expr) :
    Within (min (n + 1) k) Progress (binaryLoop ops operand line k left) := by
  induction k generalizing left with
  | zero => exact within_outOfDepth.mono (by omega)
  | succ k ih =>
    refine Returns.mono (n := min n k + 1)
      (within_cur_if (c := (· ∈ ops)) hops (fun op => ?_) fun op => within_pure _) (by omega)
    refine Within.then (hoperand.mono (Nat.min_le_left _ _)) fun right => ?_
    exact (ih _).mono (by omega)

/-! ### Types -/

/-- The functions of `r` return on less than `n` tokens' weight, and its loops may turn
more than `n` times. -/
structure Rec.Upto (r : Rec) (n : ℕ) : Prop where
  turns : n < r.turns
  type : Within n Eats r.type
  assignment : Within n Eats r.assignment
  unary : Within n Eats r.unary
  power : Within n Eats r.power
  block : Within n Eats r.block

theorem within_listUntil (hr : r.Upto n) {close : TokenType} {item : P α}
    (hitem : Within n Progress item) : Within n Progress (listUntil r close item) := by
  refine within_check close fun b => within_ite (fun _ => within_pure _) fun _ => ?_
  exact (within_commaList hitem r.turns).mono (by have := hr.turns; omega)

theorem within_parseType (hr : r.Upto n) : Within (n + 1) Eats (parseType r) := by
  intro s
  unfold parseType
  refine returns_cur ?_
  cases hkind : typeKeyword s.cur.type with
  | some kind =>
    refine within_next (fun heof => ?_) ?_
    · rw [heof] at hkind
      cases hkind
    · refine (within_matchT _).then fun b => within_ite (fun _ => ?_) fun _ => within_pure _
      exact hr.type.progress.then fun elem =>
        (within_expect _ _).progress.then fun _ => within_pure _
  | none =>
    refine within_match (by decide) (within_pure _) ?_ s
    exact within_errorThen _ _ (within_advance.eatsThen fun _ => within_pure _)

theorem within_parseTypeAnnotation (hr : r.Upto n) (default : JagType) :
    Within n Progress ( parseTypeAnnotation r default) :=
  (within_matchT _).then fun _ =>
    within_ite (fun _ => Within.progress ((within_parseType hr).mono (Nat.le_succ n)))
      fun _ => within_pure _

/-! ### Nested parses -/

theorem takeExpr_length {openLen : ℕ} (h : 0 < openLen) (isDbl : Bool) (c : UInt8) (s : Text) :
    (takeExpr openLen isDbl (c :: s)).1.length < (c :: s).length := by
  simp only [takeExpr, List.length_take, List.length_drop, List.length_cons]
  omega

theorem expr_notMem_literalPart (lit e : Text) : .expr e ∉ literalPart lit := by
  unfold literalPart
  split_ifs <;> simp

/-- The text of an interpolated expression is shorter than the literal. -/
theorem splitTemplate_length {lit s e : Text} (h : .expr e ∈ splitTemplate lit s) :
    e.length < s.length := by
  induction lit, s using splitTemplate.induct with
  | case1 lit =>
    rw [splitTemplate] at h
    exact absurd h (expr_notMem_literalPart _ _)
  | case2 lit c s isDbl isDollarBrace hopen expr ih =>
    rw [splitTemplate, if_pos hopen] at h
    have hpos : 0 < if isDbl then 2 else 1 := by split_ifs <;> omega
    rcases List.mem_append.mp h with h | h
    · exact absurd h (expr_notMem_literalPart _ _)
    · rcases List.mem_cons.mp h with h | h
      · rw [RawPart.expr.inj h]
        exact takeExpr_length hpos _ _ _
      · exact (ih h).trans (takeExpr_rest_length hpos _ _ _)
  | case3 lit c s isDbl isDollarBrace hopen ih =>
    rw [splitTemplate, if_neg hopen] at h
    exact (ih h).trans (Nat.lt_succ_self _)

theorem initParser_weight (text : Text) : (initParser text).weight ≤ text.length :=
  tokenize_weight text

theorem initParser_fits (text : Text) : (initParser text).Fits := by
  intro t ht
  have hle : t.weight ≤ (initParser text).weight := weight_le_tokensWeight ht
  have hlex : t.lexeme.length ≤ t.weight := by
    unfold Token.weight
    split_ifs <;> omega
  exact hlex.trans (hle.trans (initParser_weight text))

/-- What the parts of the string literal `t` do to the state: they log nested parses. -/
def Aside (t : Token) (s s' : PState) : Prop :=
  ∃ new, s' = { s with nested := s.nested ++ new } ∧ ∀ p ∈ new,
    (p.text.length < p.enclosing.length ∨
      p.enclosing = s.source ∧ p.text.length < t.lexeme.length) ∧
    ∀ e ∈ p.errors, e.Recovered p.left

theorem Aside.refl (t : Token) (s : PState) : Aside t s s := ⟨[], by simp, by simp⟩

theorem Aside.trans {t : Token} {s s' s'' : PState} (h : Aside t s s') (h' : Aside t s' s'') :
    Aside t s s'' := by
  obtain ⟨new, rfl, hok⟩ := h
  obtain ⟨new', rfl, hok'⟩ := h'
  refine ⟨new ++ new', by simp, fun p hp => ?_⟩
  rcases List.mem_append.mp hp with hp | hp
  · exact hok p hp
  · exact hok' p hp

/-- Consuming a string literal and parsing its parts. -/
theorem Aside.eats {s s' : PState} (hcur : s.cur.type ≠ .eof) (h : Aside s.cur s.next s') :
    Eats s s' := by
  obtain ⟨new, rfl, hok⟩ := h
  have hlt := (eats_next s).eats hcur
  exact {
    source := rfl
    eofLine := rfl
    toks := List.tail_suffix _
    errors := ⟨[], by simp [PState.next], by simp⟩
    nested := ⟨new, rfl, fun p hp =>
      ⟨(hok p hp).1.imp_right fun h => ⟨h.1, _, cur_mem hcur, h.2⟩, (hok p hp).2⟩⟩
    eats := fun _ => hlt }

theorem returns_parseExprSubstring (hr : r.Upto n) {t : Token} {text : Text}
    (htext : text.length < t.lexeme.length) (line : ℕ) (s : PState) :
    ReturnsAt (fun _ => t.lexeme.length) n (Aside t) (parseExprSubstring r text line) s := by
  have hsub := hr.assignment (initParser text)
  unfold ReturnsAt parseExprSubstring
  unfold ReturnsAt at hsub
  cases hrun : r.assignment (initParser text) with
  | none =>
    rw [hrun] at hsub
    exact hsub.trans ((initParser_weight text).trans htext.le)
  | some x =>
    rw [hrun] at hsub
    obtain ⟨new, hnew, hrec⟩ := hsub.errors
    obtain ⟨nested, hnested, hok⟩ := hsub.nested
    refine ⟨_, congrArg (fun l => { s with nested := l }) (List.append_assoc _ _ _), fun p hp => ?_⟩
    rcases List.mem_append.mp hp with hp | hp
    · have hp := (hok p (by rw [hnested] at hp; exact hp)).shrinks (initParser_fits text)
      exact ⟨.inl hp.shorter, hp.recovered⟩
    · obtain rfl := List.mem_singleton.mp hp
      exact ⟨.inr ⟨rfl, htext⟩, fun e he => hrec e (by rw [hnew] at he; exact he)⟩

theorem returns_parseParts (hr : r.Upto n) {t : Token} {raw : List RawPart}
    (hraw : ∀ e, .expr e ∈ raw → e.length < t.lexeme.length) (line : ℕ) (s : PState) :
    ReturnsAt (fun _ => t.lexeme.length) n (Aside t) (parseParts r line raw) s := by
  have hbind : ∀ {α β : Type} {m : P α} {f : α → P β} {s : PState},
      ReturnsAt (fun _ => t.lexeme.length) n (Aside t) m s →
      (∀ a s', ReturnsAt (fun _ => t.lexeme.length) n (Aside t) (f a) s') →
      ReturnsAt (fun _ => t.lexeme.length) n (Aside t) (m >>= f) s := fun hm hf =>
    hm.bind (fun a s' _ _ => hf a s') (fun _ _ => Nat.add_comm n _ |>.le) fun _ _ => Aside.trans
  have hpure : ∀ {α : Type} (a : α) (s : PState),
      ReturnsAt (fun _ => t.lexeme.length) n (Aside t) (pure a : P α) s := fun a s => Aside.refl t s
  induction raw generalizing s with
  | nil => exact hpure _ s
  | cons p raw ih =>
    have ih := ih fun e he => hraw e (List.mem_cons_of_mem _ he)
    cases p with
    | literal lit => exact hbind (ih s) fun parts s' => hpure _ s'
    | expr text =>
      exact hbind (returns_parseExprSubstring hr (hraw text List.mem_cons_self) line s)
        fun e s' => hbind (ih s') fun parts s'' => hpure _ s''

/-- A string literal that is the current token. -/
theorem within_stringLiteral (hr : r.Upto n) {s : PState} (hs : s.cur.type = .stringLit) :
    ReturnsAt PState.weight (n + 1) Eats
      (advance >>= fun _ => parseStringLiteralToken r s.cur) s := by
  have hne : s.cur.type ≠ .eof := by simp [hs]
  have hparts := @returns_parseParts _ _ hr s.cur (splitTemplate [] s.cur.lexeme)
    (fun e he => splitTemplate_length he) s.cur.line s.next
  have hrun : (advance >>= fun _ => parseStringLiteralToken r s.cur) s
      = parseStringLiteralToken r s.cur s.next := rfl
  unfold ReturnsAt at hparts ⊢
  rw [hrun, parseStringLiteralToken, stateT_bind_eq]
  cases hp : parseParts r s.cur.line (splitTemplate [] s.cur.lexeme) s.next with
  | none =>
    rw [hp] at hparts
    have hweight : s.cur.weight ≤ s.weight := weight_le_tokensWeight (cur_mem hne)
    rw [Token.weight, if_pos hs] at hweight
    exact (Nat.succ_le_succ hparts).trans hweight
  | some x =>
    rw [hp] at hparts
    exact hparts.eats hne

/-! ### Expressions -/

theorem within_assignment (hr : r.Upto n) : Within n Progress r.assignment :=
  hr.assignment.progress

theorem within_block (hr : r.Upto n) : Within n Progress r.block := hr.block.progress

theorem within_expect' (t : TokenType) (what : String) : Within n Progress (expect t what) :=
  (within_expect t what).progress

theorem within_parseParam (hr : r.Upto n) : Within n Progress (parseParam r) :=
  within_cur fun _ => (within_expect' _ _).then fun _ =>
    ( within_parseTypeAnnotation hr _).then fun _ => within_pure _

theorem within_expectFun (isAsync : Bool) : Within n Progress (expectFun isAsync) :=
  within_ite (fun _ => within_expect' _ _) fun _ => within_pure _

theorem within_parseFuncLit (hr : r.Upto n) (t : Token) (isAsync : Bool) :
    Within n Progress (parseFuncLit r t isAsync) :=
  (within_expectFun isAsync).then fun _ => (within_expect' _ _).then fun _ =>
    (within_listUntil hr (within_parseParam hr)).then fun _ => (within_expect' _ _).then fun _ =>
    ( within_parseTypeAnnotation hr _).then fun _ => (within_block hr).then fun _ => within_pure _

theorem within_parseArgList (hr : r.Upto n) : Within n Progress (parseArgList r) :=
  within_listUntil hr (within_assignment hr)

theorem within_parseNew (hr : r.Upto n) (t : Token) : Within n Progress (parseNew r t) :=
  within_cur fun _ => (within_expect' _ _).then fun _ => (within_expect' _ _).then fun _ =>
    (within_parseArgList hr).then fun _ => (within_expect' _ _).then fun _ => within_pure _

theorem within_parseDataEntry (hr : r.Upto n) : Within n Progress (parseDataEntry r) := by
  have hkey : Within n Progress expectKey :=
    (within_matchT _).then fun _ =>
      within_ite (fun _ => within_pure _) fun _ => within_expect' _ _
  exact within_cur fun _ => hkey.then fun _ => (within_expect' _ _).then fun _ =>
    (within_assignment hr).then fun _ => within_pure _

theorem within_parsePrimary (hr : r.Upto n) : Within (n + 1) Eats (parsePrimary r) := by
  intro s
  have hassign := within_assignment hr
  unfold parsePrimary
  refine returns_cur ?_
  refine returns_match (by decide) (within_pure _) ?_
  refine returns_match (by decide) (within_pure _) ?_
  refine returns_match (by decide) (within_pure _) ?_
  refine returns_match (by decide) (within_pure _) ?_
  refine returns_match (by decide) (within_pure _) ?_
  refine returns_matchT (fun h => within_stringLiteral hr h) ?_
  refine within_match (by decide) (within_pure _) ?_ s
  refine within_match (by decide) (within_pure _) ?_
  refine within_match (by decide) (within_pure _) ?_
  refine within_match (by decide) (within_pure _) ?_
  refine within_match (by decide) (within_parseNew hr _) ?_
  refine within_match (by decide) (hassign.then fun _ => within_pure _) ?_
  refine within_match (by decide)
    ((within_matchT _).then fun isAsync => within_parseFuncLit hr _ isAsync) ?_
  refine within_match (by decide) (within_parseFuncLit hr _ true) ?_
  refine within_match (by decide)
    (hassign.then fun _ => (within_expect' _ _).then fun _ => within_pure _) ?_
  refine within_match (by decide)
    ((within_listUntil hr hassign).then fun _ =>
      (within_expect' _ _).then fun _ => within_pure _) ?_
  refine within_match (by decide)
    ((within_listUntil hr (within_parseDataEntry hr)).then fun _ =>
      (within_expect' _ _).then fun _ => within_pure _) ?_
  exact (within_recover _ _).eatsThen fun _ => within_pure _

theorem within_parseCallArgs (hr : r.Upto n) : Within n Progress (parseCallArgs r) :=
  (within_parseArgList hr).then fun _ => (within_expect' _ _).then fun _ => within_pure _

theorem within_parseMemberName : Within n Progress parseMemberName :=
  within_cur fun nm => by
    have hname : Within n Progress (expectMemberName nm) :=
      within_ite (fun _ => within_advance.progress) fun _ => within_expect' _ _
    exact hname.then fun _ => within_pure _

theorem within_postfixLoop (hr : r.Upto n) (k : ℕ) (e : Expr) :
    Within (min (n + 1) k) Progress (postfixLoop r k e) := by
  induction k generalizing e with
  | zero => exact within_outOfDepth.mono (by omega)
  | succ k ih =>
    -- each turn has consumed a token when it calls anything
    have ih' : ∀ e, Within (min n k) Progress (postfixLoop r k e) := fun e => (ih e).mono (by omega)
    have hle : min n k ≤ n := Nat.min_le_left _ _
    have hargs := Returns.mono (within_parseCallArgs hr) hle
    refine Returns.mono (n := min n k + 1) (within_match' (by decide) ?_
      (within_match' (by decide) ?_ (within_match' (by decide) ?_ (within_pure _)))) (by omega)
    · refine within_parseMemberName.then fun name => ?_
      refine (within_matchT _).then fun b => within_ite (fun _ => ?_) fun _ => ih' _
      exact Within.then hargs fun args => ih' _
    · refine Within.then (Returns.mono (within_assignment hr) hle) fun idx => ?_
      exact (within_expect' _ _).then fun _ => ih' _
    · exact Within.then hargs fun args => ih' _

theorem within_parsePostfix (hr : r.Upto n) : Within (n + 1) Eats (parsePostfix r) :=
  (within_parsePrimary hr).eatsThen fun e =>
    (within_postfixLoop hr r.turns e).mono (by have := hr.turns; omega)

theorem within_parseUnary (hr : r.Upto n) : Within (n + 1) Eats (parseUnary r) := by
  intro s
  unfold parseUnary
  refine returns_cur ?_
  split_ifs with h
  · have hne : s.cur.type ≠ .eof := fun heof => by
      rw [heof] at h
      exact absurd h (by decide)
    exact within_next hne (hr.unary.progress.then fun _ => within_pure _)
  · exact within_parsePostfix hr s

theorem within_parsePower (hr : r.Upto n) : Within (n + 1) Eats (parsePower r) :=
  (within_parseUnary hr).eatsThen fun left =>
    within_match' (by decide) (hr.power.progress.then fun _ => within_pure _) (within_pure _)

theorem within_parseLevel (hr : r.Upto n) {ops : List TokenType} (hops : .eof ∉ ops)
    {operand : P Expr} (hoperand : Within (n + 1) Eats operand) {line : Token → Expr → ℕ} :
    Within (n + 1) Eats (parseLevel r ops operand line) :=
  hoperand.eatsThen fun left =>
    Returns.mono (within_binaryLoop hops hoperand.progress r.turns left)
      (by have := hr.turns; omega)

theorem within_parseShift (hr : r.Upto n) : Within (n + 1) Eats (parseShift r) :=
  within_parseLevel hr (by decide) <| within_parseLevel hr (by decide) <|
    within_parseLevel hr (by decide) (within_parsePower hr)

theorem within_parseBetween (hr : r.Upto n) : Within (n + 1) Eats (parseBetween r) :=
  (within_parseShift hr).eatsThen fun left =>
    within_match' (by decide)
      ((within_expect' _ _).then fun _ => (within_assignment hr).then fun _ =>
        (within_expect' _ _).then fun _ => (within_assignment hr).then fun _ =>
        (within_expect' _ _).then fun _ => within_pure _)
      (within_pure _)

theorem within_parseOr (hr : r.Upto n) : Within (n + 1) Eats (parseOr r) :=
  within_parseLevel hr (by decide) <| within_parseLevel hr (by decide) <|
    within_parseLevel hr (by decide) <| within_parseLevel hr (by decide) (within_parseBetween hr)

theorem within_parseTernary (hr : r.Upto n) : Within (n + 1) Eats (parseTernary r) :=
  (within_parseOr hr).eatsThen fun cond =>
    within_match' (by decide)
      ((within_assignment hr).then fun _ => (within_expect' _ _).then fun _ =>
        (within_assignment hr).then fun _ => within_pure _)
      (within_pure _)

theorem within_parseAssignment (hr : r.Upto n) : Within (n + 1) Eats (parseAssignment r) :=
  (within_parseTernary hr).eatsThen fun left =>
    within_cur_if (c := fun t => isAssignOp t = true) (by decide)
      (fun _ => (within_assignment hr).then fun _ => within_pure _) fun _ => within_pure _

/-! ### Statements -/

theorem within_parseExpr (hr : r.Upto n) : Within n Progress (parseExpr r) :=
  Within.progress ((within_parseAssignment hr).mono (Nat.le_succ n))

theorem within_parseCondition (hr : r.Upto n) (opening closing : String) :
    Within n Progress (parseCondition r opening closing) :=
  (within_expect' _ _).then fun _ => (within_parseExpr hr).then fun _ =>
    (within_expect' _ _).then fun _ => within_pure _

/-- The initialiser and the semicolon that end a declaration. -/
theorem within_initialiser (hr : r.Upto n) (what : String) (some' : Expr → Stmt) (none' : Stmt) :
    Within n Progress (matchT .assign >>= fun b =>
      if b then parseExpr r >>= fun init => expect .semi what >>= fun _ => pure (some' init)
      else expect .semi what >>= fun _ => pure none') :=
  (within_matchT _).then fun _ => within_ite
    (fun _ => (within_parseExpr hr).then fun _ => (within_expect' _ _).then fun _ => within_pure _)
    fun _ => (within_expect' _ _).then fun _ => within_pure _

theorem within_parseVarOrFixed (hr : r.Upto n) (isFixed : Bool) :
    Within n Progress (parseVarOrFixed r isFixed) :=
  within_cur fun _ => (within_expect' _ _).then fun _ =>
    ( within_parseTypeAnnotation hr _).then fun _ => within_initialiser hr _ _ _

theorem within_parseFunDecl (hr : r.Upto n) (isAsync : Bool) :
    Within n Progress (parseFunDecl r isAsync) :=
  within_cur fun _ => (within_expect' _ _).then fun _ => (within_expect' _ _).then fun _ =>
    (within_listUntil hr (within_parseParam hr)).then fun _ => (within_expect' _ _).then fun _ =>
    ( within_parseTypeAnnotation hr _).then fun _ => (within_block hr).then fun _ => within_pure _

theorem within_elifLoop (hr : r.Upto n) (k : ℕ) : Within (min n k) Progress (elifLoop r k) := by
  induction k with
  | zero => exact within_outOfDepth.mono (by omega)
  | succ k ih =>
    have hle : min n k ≤ n := Nat.min_le_left _ _
    refine Returns.mono (n := min n k + 1) (within_match' (by decide) ?_ (within_pure _)) (by omega)
    exact Within.then (Returns.mono (within_parseCondition hr _ _) hle) fun _ =>
      Within.then (Returns.mono (within_block hr) hle) fun _ => ih.then fun _ => within_pure _

theorem within_parseIf (hr : r.Upto n) : Within n Progress (parseIf r) :=
  within_cur fun _ => (within_parseCondition hr _ _).then fun _ => (within_block hr).then fun _ =>
    Within.then ((within_elifLoop hr r.turns).mono (by have := hr.turns; omega)) fun _ =>
    (within_matchT _).then fun _ => within_ite
      (fun _ => (within_block hr).then fun _ => within_pure _) fun _ => within_pure _

theorem within_parseReturn (hr : r.Upto n) (line : ℕ) : Within n Progress (parseReturn r line) :=
  (within_matchT _).then fun _ => within_ite (fun _ => within_pure _) fun _ =>
    (within_parseExpr hr).then fun _ => (within_expect' _ _).then fun _ => within_pure _

theorem within_parseLoopWhile (hr : r.Upto n) (line : ℕ) :
    Within n Progress (parseLoopWhile r line) :=
  (within_parseCondition hr _ _).then fun _ => (within_block hr).then fun _ => within_pure _

theorem within_parseDoWhile (hr : r.Upto n) (line : ℕ) : Within n Progress (parseDoWhile r line) :=
  (within_expect' _ _).then fun _ => (within_block hr).then fun _ => (within_expect' _ _).then
    fun _ => (within_parseCondition hr _ _).then fun _ => (within_expect' _ _).then
    fun _ => within_pure _

theorem within_parseForIn (hr : r.Upto n) (line : ℕ) : Within n Progress (parseForIn r line) := by
  have hcond : Within n Progress (parseForCondition r) :=
    (within_matchT _).then fun _ => within_ite
      (fun _ => (within_parseExpr hr).then fun _ => within_pure _) fun _ => within_pure _
  exact (within_expect' _ _).then fun _ => within_cur fun _ => (within_expect' _ _).then fun _ =>
    (within_expect' _ _).then fun _ => (within_parseExpr hr).then fun _ => hcond.then fun _ =>
    (within_expect' _ _).then fun _ => (within_block hr).then fun _ => within_pure _

theorem within_parseIterate (hr : r.Upto n) (line : ℕ) :
    Within n Progress (parseIterate r line) :=
  (within_expect' _ _).then fun _ => (within_parseExpr hr).then fun _ => (within_expect' _ _).then
    fun _ => within_cur fun _ => (within_expect' _ _).then fun _ => (within_expect' _ _).then
    fun _ => (within_block hr).then fun _ => within_pure _

/-- Every turn of the loop over a class body consumes a token. -/
theorem within_parseClassMember (hr : r.Upto n) : Within n Eats (parseClassMember r) := by
  have hmember : ∀ {m : P Stmt}, Within n Progress m → Within n Progress (some <$> m) :=
    fun hm => within_map _ hm
  exact Returns.mono (n := n + 1)
    (within_match (by decide) (hmember (within_parseVarOrFixed hr _)) <|
      within_match (by decide) (hmember (within_parseVarOrFixed hr _)) <|
      within_match (by decide) (hmember (within_parseFunDecl hr _)) <|
      within_cur fun _ => within_errorThen _ _ (within_advance.eatsThen fun _ => within_pure _))
    (Nat.le_succ n)

theorem within_untilBrace' (hr : r.Upto n) {item : P (Option α)} (hitem : Within n Eats item) :
    Within n Progress (untilBrace item r.turns) :=
  Returns.mono (within_untilBrace hitem r.turns) (by have := hr.turns; omega)

theorem within_parseVisibility : Within n Progress parseVisibility :=
  (within_matchT _).then fun _ => within_ite (fun _ => within_pure _) fun _ =>
    (within_matchT _).then fun _ => within_ite (fun _ => within_pure _) fun _ => within_pure _

theorem within_parseParentName : Within n Progress parseParentName :=
  (within_matchT _).then fun _ => within_ite
    (fun _ => within_cur fun _ => (within_expect' _ _).then fun _ => within_pure _)
    fun _ => within_pure _

/-- The token where `class` is expected is consumed in any case. -/
theorem within_parseClass (hr : r.Upto n) (line : ℕ) : Within n Eats (parseClass r line) :=
  within_parseVisibility.thenEats fun _ => (within_expect _ _).eatsThen fun _ =>
    within_cur fun _ => (within_expect' _ _).then fun _ => within_parseParentName.then fun _ =>
    (within_expect' _ _).then fun _ =>
    (within_untilBrace' hr (within_parseClassMember hr)).then fun _ =>
    (within_expect' _ _).then fun _ => within_pure _

theorem within_parseEnum (hr : r.Upto n) (line : ℕ) : Within n Progress (parseEnum r line) := by
  have hvalue : Within n Progress parseEnumValue :=
    within_cur fun _ => (within_expect' _ _).then fun _ => within_pure _
  exact within_cur fun _ => (within_expect' _ _).then fun _ => (within_expect' _ _).then fun _ =>
    (within_listUntil hr hvalue).then fun _ => (within_expect' _ _).then fun _ => within_pure _

theorem within_parseField (hr : r.Upto n) : Within n Eats (parseField r) :=
  within_cur fun _ => (within_expect _ _).eatsThen fun _ => (within_expect' _ _).then fun _ =>
    Within.then (Within.progress ((within_parseType hr).mono (Nat.le_succ n))) fun _ =>
    (within_expect' _ _).then fun _ => within_pure _

theorem within_parseStruct (hr : r.Upto n) (line : ℕ) : Within n Progress (parseStruct r line) :=
  within_cur fun _ => (within_expect' _ _).then fun _ => (within_expect' _ _).then fun _ =>
    (within_untilBrace' hr (within_parseField hr)).then fun _ =>
    (within_expect' _ _).then fun _ => within_pure _

theorem within_parseVector (hr : r.Upto n) (line : ℕ) : Within n Eats (parseVector r line) :=
  Within.eatsThen ((within_parseType hr).mono (Nat.le_succ n)) fun _ => within_cur fun _ =>
    (within_expect' _ _).then fun _ => within_initialiser hr _ _ _

/-- The error at a missing `from` is recovered from where the path is expected. -/
theorem within_parseImport (line : ℕ) : Within n Progress (parseImport line) := by
  have hpath : Within n Eats (parseImportPath line) :=
    within_cur fun _ => (within_expect _ _).eatsThen fun _ => (within_expect' _ _).then fun _ =>
      within_pure _
  refine within_cur fun nm => within_ite (fun _ => ?_) fun _ => hpath.progress
  refine within_advance.progress.then fun _ => within_cur fun t => within_ite (fun _ => ?_) fun _ => ?_
  · exact within_advance.progress.then fun _ => hpath.progress
  · exact (within_errorThen _ _ hpath).progress

theorem within_parseExport (line : ℕ) : Within n Progress (parseExport line) :=
  within_cur fun _ => (within_expect' _ _).then fun _ => (within_expect' _ _).then fun _ =>
    within_pure _

theorem within_parseTry (hr : r.Upto n) (line : ℕ) : Within n Progress (parseTry r line) := by
  have htype : Within n Progress (parseCatchType r) :=
    (within_matchT _).then fun _ => within_ite
      (fun _ => Within.then (Within.progress ((within_parseType hr).mono (Nat.le_succ n)))
        fun _ => within_pure _) fun _ => within_pure _
  exact (within_block hr).then fun _ => (within_expect' _ _).then fun _ =>
    (within_expect' _ _).then fun _ => within_cur fun _ => (within_expect' _ _).then fun _ =>
    htype.then fun _ => (within_expect' _ _).then fun _ => (within_block hr).then fun _ =>
    within_pure _

theorem within_parseExprStmt (hr : r.Upto n) (line : ℕ) : Within n Eats (parseExprStmt r line) :=
  Within.eatsThen ((within_parseAssignment hr).mono (Nat.le_succ n)) fun _ =>
    (within_expect' _ _).then fun _ => within_pure _

/-- A statement in front of EOF consumes at least one token. -/
theorem within_parseStatement (hr : r.Upto n) : Within n Eats (parseStatement r) := by
  have hmatch : ∀ {t : TokenType} {f g : P Stmt}, t ≠ .eof → Within n Progress f →
      Within n Eats g → Within n Eats (matchT t >>= fun b => if b then f else g) := by
    intro t f g ht hf hg s
    exact returns_matchT (fun h => (within_next (h ▸ ht) hf).mono (Nat.le_succ n) fun _ => id) (hg s)
  refine within_cur fun t => ?_
  refine hmatch (by decide) (within_parseVarOrFixed hr _) ?_
  refine hmatch (by decide) (within_parseVarOrFixed hr _) ?_
  refine hmatch (by decide) (within_parseIf hr) ?_
  refine hmatch (by decide) ((within_expect' _ _).then fun _ => within_parseFunDecl hr _) ?_
  refine hmatch (by decide) (within_parseFunDecl hr _) ?_
  refine hmatch (by decide) (within_parseReturn hr _) ?_
  refine hmatch (by decide) (within_parseLoopWhile hr _) ?_
  refine hmatch (by decide) (within_parseDoWhile hr _) ?_
  refine hmatch (by decide) (within_parseForIn hr _) ?_
  refine hmatch (by decide) (within_parseIterate hr _) ?_
  refine within_ite (fun _ => within_parseClass hr _) fun _ => ?_
  refine hmatch (by decide) (within_parseEnum hr _) ?_
  refine hmatch (by decide) (within_parseStruct hr _) ?_
  refine within_ite (fun _ => within_parseVector hr _) fun _ => ?_
  refine hmatch (by decide) (within_parseImport _) ?_
  refine hmatch (by decide) (within_parseExport _) ?_
  refine hmatch (by decide) (within_parseTry hr _) ?_
  exact within_check _ fun b => within_ite (fun _ => hr.block) fun _ => within_parseExprStmt hr _

theorem untilBrace_eof (item : P (Option α)) (k : ℕ) {s : PState} (h : s.cur.type = .eof) :
    untilBrace item (k + 1) s = some ([], s) := by
  show (if (decide (s.cur.type = .rbrace) || decide (s.cur.type = .eof)) = true then pure []
      else item >>= fun a => untilBrace item k >>= fun as => pure (a.toList ++ as) : P _) s = _
  rw [if_pos (by simp [h])]
  rfl

/-- At EOF `expect` stays there. -/
theorem expect_eof {t : TokenType} (ht : t ≠ .eof) (what : String) {s : PState}
    (h : s.cur.type = .eof) : ∃ s', expect t what s = some ((), s') ∧ s'.cur.type = .eof := by
  refine ⟨{ s with errors := s.errors ++ [⟨s.cur, what, s.cur, s.toks.length⟩] }, ?_, h⟩
  show (if s.cur.type = t then advance else recover s.cur what) s = _
  rw [if_neg (by rw [h]; exact ht.symm)]
  show (if decide (s.cur.type = .eof) then pure () else advance : P Unit) _ = _
  rw [if_pos (decide_eq_true h)]
  rfl

/-- A block consumes the token where its brace is expected, so its statements are
parsed on less weight. -/
theorem within_parseBlock (hr : r.Upto n) : Within (n + 1) Eats (parseBlock r) := by
  have hstmt : Within n Eats (some <$> parseStatement r) :=
    within_map some (within_parseStatement hr)
  intro s
  unfold parseBlock
  refine returns_cur ?_
  by_cases hcur : s.cur.type = .eof
  · refine ReturnsAt.bind (R := Eats) (k := n + 1) (within_expect _ _ s) (fun _ s' hs' _ => ?_)
      (fun s' h => by have := h.toProgress.weight_le; omega) fun _ _ => Eats.then
    obtain ⟨s₁, hs₁, heof⟩ := expect_eof (t := .lbrace) (by decide) "expected '\x7b'" hcur
    obtain ⟨-, rfl⟩ := Prod.mk.inj (Option.some.inj (hs₁.symm.trans hs'))
    obtain ⟨k, hk⟩ := Nat.exists_eq_succ_of_ne_zero (Nat.ne_of_gt (Nat.zero_lt_of_lt hr.turns))
    have hrest : Within (n + 1) Progress
        (expect .rbrace "expected '\x7d'" >>= fun _ => pure (Stmt.block s.cur.line [])) :=
      (within_expect' _ _).then fun _ => within_pure _
    unfold ReturnsAt
    rw [stateT_bind_eq, hk, untilBrace_eof _ _ heof]
    exact hrest s₁
  · refine ReturnsAt.bind (R := fun s s' => Eats s s' ∧ s'.weight + 1 ≤ s.weight) (k := n)
      ((within_expect _ _ s).mono (Nat.le_refl _) fun s' h => ⟨h, ?_⟩)
      (fun _ s' _ _ => ((within_untilBrace' hr hstmt).then fun _ =>
        (within_expect' _ _).then fun _ => within_pure _) s')
      (fun s' h => by have := h.2; omega) fun _ _ h h' => h.1.then h'
    have := h.eats hcur
    have := h.toProgress.weight_le
    omega

theorem recAt_upto (n : ℕ) : (recAt n).Upto n := by
  induction n with
  | zero =>
    exact ⟨Nat.zero_lt_one, within_outOfDepth, within_outOfDepth, within_outOfDepth,
      within_outOfDepth, within_outOfDepth⟩
  | succ n ih =>
    exact ⟨Nat.lt_succ_self _, within_parseType ih, within_parseAssignment ih,
      within_parseUnary ih, within_parsePower ih, within_parseBlock ih⟩

/-! ### The whole program -/

theorem within_programLoop (hr : r.Upto n) (k : ℕ) :
    Within (min n k) Progress (programLoop r k) := by
  induction k with
  | zero => exact within_outOfDepth.mono (by omega)
  | succ k ih =>
    intro s
    show ReturnsAt PState.weight _ Progress (if decide (s.cur.type = .eof) = true then pure []
      else parseStatement r >>= fun st => hadError >>= fun b => if b then pure [st]
        else programLoop r k >>= fun stmts => pure (st :: stmts)) s
    split_ifs with h
    · exact Progress.refl s
    · have hcur : s.cur.type ≠ .eof := fun heof => h (decide_eq_true heof)
      have hrest : ∀ st, Within (min n k) Progress (hadError >>= fun b => if b then pure [st]
          else programLoop r k >>= fun stmts => pure (st :: stmts)) := by
        intro st
        have hflag : Within (min n k) Progress hadError := fun s => Progress.refl s
        exact hflag.then fun b => within_ite (fun _ => within_pure _) fun _ =>
          ih.then fun _ => within_pure _
      refine ReturnsAt.bind (k := min n k)
        ((within_parseStatement hr s).mono (Nat.min_le_left _ _) fun _ => id)
        (fun st s' _ _ => hrest st s') (fun s' hs' => ?_) fun _ _ h h' => h.toProgress.trans h'
      have := hs'.eats hcur
      have := hs'.toProgress.weight_le
      omega

/-- **The parser comes to an end on every source.** To any depth above the length of the
source, the run of `parse_program` returns, every error it logged was recovered from, and
every nested parse ran on a text shorter than the enclosing source. Wherever a statement
starts in front of EOF, `parse_statement` consumes a token, and so does every function
that recovers from an error. -/
theorem parseProgram_terminates (source : Text) :
    (∃ N, ∀ n ≥ N, ∃ stmts s, runProgram n source = some (stmts, s) ∧
      parseProgram n source = some ⟨stmts, s.hadError⟩ ∧
      (∀ e ∈ s.errors, e.Recovered s.toks.length) ∧ ∀ p ∈ s.nested, p.Shrinks) ∧
    ∀ n s,
      (∀ st s', parseStatement (recAt n) s = some (st, s') → Eats s s') ∧
      (∀ t what s', expect t what s = some ((), s') → Eats s s') ∧
      (∀ e s', parsePrimary (recAt n) s = some (e, s') → Eats s s') ∧
      (∀ ty s', parseType (recAt n) s = some (ty, s') → Eats s s') ∧
      (∀ m s', parseClassMember (recAt n) s = some (m, s') → Eats s s') := by
  refine ⟨⟨source.length + 1, fun n hn => ?_⟩, fun n s => ?_⟩
  · have hr := recAt_upto n
    have hweight : (initParser source).weight < min n (n + 1) := by
      have := initParser_weight source
      omega
    obtain ⟨stmts, s, hrun, hprogress⟩ :=
      (within_programLoop hr (n + 1) (initParser source)).exists_eq hweight
    obtain ⟨errors, herrors, hrec⟩ := hprogress.errors
    obtain ⟨nested, hnested, hok⟩ := hprogress.nested
    refine ⟨stmts, s, hrun, by rw [parseProgram, runProgram, hrun]; rfl, fun e he => ?_,
      fun p hp => ?_⟩
    · rw [herrors] at he
      exact hrec e he
    · rw [hnested] at hp
      exact (hok p hp).shrinks (initParser_fits source)
  · have hr := recAt_upto n
    exact ⟨fun st s' h => (within_parseStatement hr s).rel h,
      fun t what s' h => (within_expect (n := 0) t what s).rel h,
      fun e s' h => (within_parsePrimary hr s).rel h,
      fun ty s' h => (within_parseType hr s).rel h,
      fun m s' h => (within_parseClassMember hr s).rel h⟩

end Jaguar
