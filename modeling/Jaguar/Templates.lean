/-
String literals with interpolated expressions.

The guide documents `{{e}}` and `${e}` as two spellings of the same thing. The loop that
splits a literal takes only one byte for the opener of the second, so the expression text
starts with its brace and the closing brace is taken for the partner of that brace.

* `splitTemplate_append` — text without openers is passed over;
* `splitTemplate_escape` — a literal written with escapes is one literal part;
* `takeExpr_braces`, `takeExpr_dollar` — what the two openers take for the expression.
-/
import Jaguar.ParserProgress

namespace Jaguar

/-! ### Literal text -/

/-- Text that opens no interpolation. -/
structure OpenerFree (s : Text) : Prop where
  braces : ¬ [123, 123] <:+: s
  dollar : ¬ [36, 123] <:+: s

theorem OpenerFree.tail {c : UInt8} {s : Text} (h : OpenerFree (c :: s)) : OpenerFree s :=
  ⟨fun hs => h.braces (hs.trans (List.suffix_cons c s).isInfix),
    fun hs => h.dollar (hs.trans (List.suffix_cons c s).isInfix)⟩

/-- At the front of such a text stands no opener, even with `t` behind it unless the two
meet in one. -/
theorem OpenerFree.head {c : UInt8} {s t : Text} (h : OpenerFree (c :: s))
    (hmeet : (c :: s).getLast? = some 123 ∨ (c :: s).getLast? = some 36 → t.head? ≠ some 123) :
    ¬ ((c = 123 ∧ (s ++ t).head? = some 123) ∨ (c = 36 ∧ (s ++ t).head? = some 123)) := by
  cases s with
  | nil =>
    rintro (⟨rfl, hd⟩ | ⟨rfl, hd⟩)
    · exact hmeet (.inl rfl) hd
    · exact hmeet (.inr rfl) hd
  | cons d s =>
    have hpair : ∀ a : UInt8, [a, d] <:+: a :: d :: s := fun a => ⟨[], s, rfl⟩
    rintro (⟨rfl, hd⟩ | ⟨rfl, hd⟩)
    · obtain rfl := Option.some.inj hd
      exact h.braces (hpair _)
    · obtain rfl := Option.some.inj hd
      exact h.dollar (hpair _)

/-- Text without openers is passed over. -/
theorem splitTemplate_append {p t : Text} (hp : OpenerFree p)
    (hmeet : p.getLast? = some 123 ∨ p.getLast? = some 36 → t.head? ≠ some 123) (lit : Text) :
    splitTemplate lit (p ++ t) = splitTemplate (lit ++ p) t := by
  induction p generalizing lit with
  | nil => rw [List.nil_append, List.append_nil]
  | cons c p ih =>
    have hmeet' : p.getLast? = some 123 ∨ p.getLast? = some 36 → t.head? ≠ some 123 := by
      intro h
      refine hmeet ?_
      cases p with
      | nil => simp at h
      | cons d p => simpa [List.getLast?_cons_cons] using h
    rw [List.cons_append, splitTemplate, if_neg (hp.head hmeet), ih hp.tail hmeet',
      List.append_assoc]
    rfl

theorem splitTemplate_openerFree {p : Text} (hp : OpenerFree p) (lit : Text) :
    splitTemplate lit p = literalPart (lit ++ p) := by
  have h := splitTemplate_append (t := []) hp (fun _ => by simp) lit
  rwa [List.append_nil, splitTemplate] at h

/-! ### Escapes -/

/-- The body of a string literal: quotes, backslashes and braces behind a backslash. -/
def escape : Text → Text
  | [] => []
  | c :: s => if c = 34 ∨ c = 92 ∨ c = 123 then 92 :: c :: escape s else c :: escape s

theorem unescapeSegment_escape (s : Text) : unescapeSegment (escape s) = s := by
  induction s with
  | nil => rfl
  | cons c s ih =>
    unfold escape
    split_ifs with h
    · rw [unescapeSegment, if_pos rfl, ih]
      have hn : c ≠ 110 ∧ c ≠ 116 := by
        rcases h with rfl | rfl | rfl <;> decide
      rw [if_neg hn.1, if_neg hn.2]
    · have hc : c ≠ 92 := fun hc => h (.inr (.inl hc))
      cases hs : escape s with
      | nil =>
        rw [hs] at ih
        rw [← ih]
        rfl
      | cons d t => rw [unescapeSegment, if_neg hc, ← hs, ih]

/-- A brace in escaped text stands behind a backslash. -/
theorem openerFree_escape (s : Text) : OpenerFree (escape s) := by
  have hpair : ∀ c, c ≠ 92 → ¬ [c, 123] <:+: escape s := by
    intro c hc
    induction s with
    | nil => simp [escape]
    | cons d s ih =>
      have hhead : (escape s).head? ≠ some 123 := by
        cases s with
        | nil => simp [escape]
        | cons e s =>
          unfold escape
          split_ifs with he
          · simp
          · simpa using fun h => he (.inr (.inr h))
      have hcons : ∀ a, a ≠ c ∨ (escape s).head? ≠ some 123 → ¬ [c, 123] <:+: a :: escape s := by
        intro a ha hinf
        rcases List.infix_cons_iff.mp hinf with hpre | hinf
        · obtain ⟨rfl, t, ht⟩ := List.cons_prefix_cons.mp hpre
          rcases ha with ha | ha
          · exact ha rfl
          · rw [← ht] at ha
            exact ha rfl
        · exact ih hinf
      unfold escape
      split_ifs with hd
      · intro hinf
        rcases List.infix_cons_iff.mp hinf with hpre | hinf
        · exact hc (List.cons_prefix_cons.mp hpre).1
        · exact hcons d (.inr hhead) hinf
      · exact hcons d (.inr hhead)
  exact ⟨hpair 123 (by decide), hpair 36 (by decide)⟩

theorem splitTemplate_escape (s : Text) : splitTemplate [] (escape s) = literalPart (escape s) :=
  splitTemplate_openerFree (openerFree_escape s) []

/-- A literal without interpolation, written with escapes. -/
theorem parseStringLiteralToken_escape (r : Rec) (s : Text) (line : ℕ) (p : PState) :
    parseStringLiteralToken r ⟨.stringLit, escape s, line⟩ p
      = some (.str line [.literal s], p) := by
  have hunescape := unescapeSegment_escape s
  unfold parseStringLiteralToken
  rw [splitTemplate_escape]
  unfold literalPart
  split_ifs with h
  · rw [h] at hunescape
    rw [← hunescape]
    rfl
  · show some (Expr.str line [.literal (unescapeSegment (escape s))], p) = _
    rw [hunescape]

/-! ### The two spellings -/

/-- The depth of braces behind a text that is read at depth `d`; `none` when a brace
closes that was not opened. -/
def braceBalance : ℕ → Text → Option ℕ
  | d, [] => some d
  | d, c :: s =>
    if c = 123 then braceBalance (d + 1) s
    else if c = 125 then if d = 0 then none else braceBalance (d - 1) s
    else braceBalance d s

/-- Every brace has its partner. -/
def Balanced (e : Text) : Prop := braceBalance 0 e = some 0

/-- Balanced text is passed over by the scan for the closing brace. -/
theorem exprLength_append {d d' : ℕ} {e : Text} (h : braceBalance d e = some d') (t : Text) :
    exprLength (d + 1) (e ++ t) = e.length + exprLength (d' + 1) t := by
  induction e generalizing d with
  | nil =>
    obtain rfl := Option.some.inj h
    simp
  | cons c e ih =>
    unfold braceBalance at h
    rw [List.cons_append, exprLength, List.length_cons]
    split_ifs at h ⊢ with hopen hclose hle hdepth
    · rw [ih h]
      omega
    · omega
    · obtain ⟨k, rfl⟩ := Nat.exists_eq_succ_of_ne_zero ‹¬_ = 0›
      rw [Nat.succ_eq_add_one, Nat.add_sub_cancel] at h
      rw [Nat.succ_eq_add_one, Nat.add_sub_cancel, ih h]
      omega
    · rw [ih h]
      omega

theorem takeExpr_braces {e : Text} (he : Balanced e) (suffix : Text) :
    takeExpr 2 true (123 :: 123 :: (e ++ 125 :: 125 :: suffix)) = (e, suffix) := by
  have hlen : exprLength 1 (e ++ 125 :: 125 :: suffix) = e.length := by
    rw [exprLength_append he]
    rfl
  simp [takeExpr, hlen, List.drop_append, List.drop_eq_nil_of_le]

/-- The dollar form: the opening brace belongs to the text of the expression, so the
brace that should close it does not, and the text goes on. -/
theorem takeExpr_dollar {e : Text} (he : Balanced e) (suffix : Text) :
    takeExpr 1 false (36 :: 123 :: (e ++ 125 :: suffix)) =
      (123 :: (e ++ 125 :: suffix.take (exprLength 1 suffix)),
        suffix.drop (exprLength 1 suffix + 1)) := by
  have he' : braceBalance 1 e = some 1 := by
    have hshift : ∀ (e : Text) (d d' : ℕ), braceBalance d e = some d' →
        braceBalance (d + 1) e = some (d' + 1) := by
      intro e
      induction e with
      | nil =>
        intro d d' h
        obtain rfl := Option.some.inj h
        rfl
      | cons c e ih =>
        intro d d' h
        unfold braceBalance at h ⊢
        split_ifs at h with hopen hclose hdepth
        · rw [if_pos hopen]
          exact ih _ _ h
        · obtain ⟨k, rfl⟩ := Nat.exists_eq_succ_of_ne_zero hdepth
          rw [if_neg hopen, if_pos hclose, if_neg (Nat.succ_ne_zero _)]
          exact ih k d' h
        · rw [if_neg hopen, if_neg hclose]
          exact ih _ _ h
    exact hshift e 0 0 he
  have hlen : exprLength 1 (123 :: (e ++ 125 :: suffix)) = e.length + 2 + exprLength 1 suffix := by
    rw [exprLength, if_pos rfl, exprLength_append he', exprLength, if_neg (by decide), if_pos rfl,
      if_neg (by decide), Nat.add_sub_cancel]
    omega
  have htake : ∀ k, (123 :: (e ++ 125 :: suffix)).take (e.length + 2 + k)
      = 123 :: (e ++ 125 :: suffix.take k) := by
    intro k
    rw [show e.length + 2 + k = (e.length + (k + 1)) + 1 by omega, List.take_succ_cons,
      List.take_length_add_append, List.take_succ_cons]
  have hdrop : ∀ k, (123 :: (e ++ 125 :: suffix)).drop (e.length + 2 + k + 1)
      = suffix.drop (k + 1) := by
    intro k
    rw [show e.length + 2 + k + 1 = (e.length + (k + 1 + 1)) + 1 by omega, List.drop_succ_cons,
      List.drop_length_add_append, List.drop_succ_cons]
  simp only [takeExpr, List.drop_succ_cons, List.drop_zero, hlen, htake, hdrop]
  simp

end Jaguar
