/-
What the operators return, and what `infer_type` makes of it.

The result of a comparison is a truth value and that of `/` a decimal. For `+` the inferred type is
`string` or that of an operand, for other arithmetic that of an operand. It is right where it rests
on nothing that the interpreter does not hold itself to: not on one operand of a sum while nothing
is known about the other, and not on the arithmetic of truth values.

* `Heap.Fits` — the value belongs to the family of the type;
* `Only` — all results of a program are of one form;
* `FirmSum`, `FirmArith` — when the type of a sum, and that of other arithmetic, is right;
* `FirmSum.only`, `FirmArith.only` — **then it is**;
* `exists_wrong_sum`, `exists_wrong_arith` — **and only then**.
-/
import Jaguar.Typecheck
import Jaguar.Interp
import Jaguar.Doubles

namespace Jaguar

/-! ### Types and values -/

/-- A type that says something about a value. -/
def TypeInfo.Known (t : TypeInfo) : Prop := t.kind ≠ .unknown ∧ t.kind ≠ .void

instance (t : TypeInfo) : Decidable t.Known :=
  inferInstanceAs (Decidable (t.kind ≠ .unknown ∧ t.kind ≠ .void))

def TypeInfo.Numeric (t : TypeInfo) : Prop := typeFamily t.kind = .num

/-- A type whose values take part in no arithmetic. -/
def TypeInfo.NonNumeric (t : TypeInfo) : Prop :=
  t.Known ∧ typeFamily t.kind ≠ .num ∧ t.kind ≠ .bool

/-- The type that a native value is declared with. -/
def Native.kind (native : Native) : Option JagType :=
  match native with
  | .task _ => some .task
  | .worker _ | .workerPool _ => some .worker
  | .socketConn .. => some .socket
  | .superRef .. => none

namespace Heap

/-- The type that the kind of a value stands for. -/
def kindOf (h : Heap) (v : Value) : Option JagType :=
  match v with
  | .num _ => some .num
  | .decimal _ => some .decimal
  | .scifi _ => some .scifi
  | .bool _ => some .bool
  | .string _ => some .string
  | .list _ => some .list
  | .data _ => some .data
  | .inst _ => some .classNamed
  | .native p => (h.natives[p]?).bind Native.kind
  | .func _ | .cls _ | .void => none

/-- The value belongs to the family of the type. -/
def Fits (h : Heap) (t : TypeInfo) (v : Value) : Prop :=
  (h.kindOf v).map typeFamily = some (typeFamily t.kind)

instance (h : Heap) (t : TypeInfo) (v : Value) : Decidable (h.Fits t v) :=
  inferInstanceAs (Decidable ((h.kindOf v).map typeFamily = some (typeFamily t.kind)))

/-- … or there is none yet. -/
def Holds (h : Heap) (t : TypeInfo) (v : Value) : Prop := v = .void ∨ h.Fits t v

variable {h : Heap} {t : TypeInfo} {v : Value}

theorem typeFamily_eq_string {k : JagType} (hk : typeFamily k = .string) : k = .string := by
  cases k <;> first | rfl | cases hk

theorem typeFamily_eq_bool {k : JagType} (hk : typeFamily k = .bool) : k = .bool := by
  cases k <;> first | rfl | cases hk

/-- A sum with a value of another type than `string` joins no texts. -/
theorem Holds.not_string (hv : h.Holds t v) (ht : t.kind ≠ .string) : isString v = false := by
  rcases hv with rfl | hfits
  · rfl
  · cases v with
    | string s => exact absurd (typeFamily_eq_string (Option.some.inj hfits).symm) ht
    | _ => rfl

theorem Holds.not_numericish (hv : h.Holds t v) (ht : t.NonNumeric) : isNumericish v = false := by
  rcases hv with rfl | hfits
  · rfl
  · cases v with
    | num k => exact absurd (Option.some.inj hfits).symm ht.2.1
    | decimal d => exact absurd (Option.some.inj hfits).symm ht.2.1
    | scifi d => exact absurd (Option.some.inj hfits).symm ht.2.1
    | bool b => exact absurd (typeFamily_eq_bool (Option.some.inj hfits).symm) ht.2.2
    | _ => rfl

/-- What a variable of a class holds, if it holds something. -/
theorem Holds.eq_inst (hv : h.Holds t v) (ht : t.kind = .classNamed) :
    v = .void ∨ ∃ i, v = .inst i := by
  rcases hv with rfl | hfits
  · exact .inl rfl
  · rw [Fits, ht] at hfits
    cases v with
    | inst i => exact .inr ⟨i, rfl⟩
    | native p =>
      simp only [kindOf] at hfits
      cases hp : (h.natives[p]?).bind Native.kind with
      | none =>
        rw [hp] at hfits
        cases hfits
      | some k =>
        obtain ⟨native, -, hk⟩ := Option.bind_eq_some_iff.mp hp
        rw [hp] at hfits
        cases native with
        | superRef c this => cases hk
        | _ =>
          obtain rfl := Option.some.inj hk
          cases hfits
    | _ => cases hfits

end Heap

/-! ### What a type rests on -/

/-- The operators whose result is a truth value. -/
def isComparison (op : TokenType) : Bool :=
  match op with
  | .gt | .lt | .ge | .le | .eq | .ne | .and | .or => true
  | _ => false

/-- A sum: a text is added to, or both operands are known and not a truth value is among the
numbers. -/
def FirmSum (firmL firmR : Prop) (l r : Option TypeInfo) : Prop :=
  (firmL ∧ ∃ t, l = some t ∧ t.kind = .string) ∨ (firmR ∧ ∃ t, r = some t ∧ t.kind = .string) ∨
  (firmL ∧ firmR ∧ ∃ t u, l = some t ∧ r = some u ∧ t.Known ∧ u.Known ∧
    (t.Numeric ∨ t.NonNumeric ∨ u.NonNumeric))

/-- Other arithmetic: a number is expected, or the operation always fails. -/
def FirmArith (firmL firmR : Prop) (l r : Option TypeInfo) : Prop :=
  (∀ t, l.or r = some t → t.Known → t.Numeric) ∨ (firmL ∧ ∃ t, l = some t ∧ t.NonNumeric) ∨
  (firmR ∧ ∃ t, r = some t ∧ t.NonNumeric)


/-! ### Results of one form -/

/-- Whatever the program returns is of this form. -/
def Only {ω α : Type} (Q : α → Prop) (m : Prog ω α) : Prop := ∀ s a, (m s).value = some a → Q a

section Only

variable {ω α β : Type} {Q : β → Prop}

theorem only_pure {a : β} (h : Q a) : Only Q (pure a : Prog ω β) := by
  intro s b hb
  exact Option.some.inj hb ▸ h

theorem only_giveUp : Only Q (Exec.giveUp : Prog ω β) := by
  intro s b hb
  cases hb

/-- The last program returns the result. -/
theorem only_bind {m : Prog ω α} {f : α → Prog ω β} (h : ∀ a, Only Q (f a)) :
    Only Q (m >>= f) := by
  intro s b hb
  obtain ⟨a, -, ha, -⟩ := Exec.exists_of_bind hb
  exact h a _ b ha

theorem only_ite {c : Prop} [Decidable c] {m m' : Prog ω β} (h : c → Only Q m)
    (h' : ¬ c → Only Q m') : Only Q (if c then m else m') := by
  split
  · next hc => exact h hc
  · next hc => exact h' hc

theorem Only.weaken {Q' : β → Prop} {m : Prog ω β} (h : Only Q m) (hQ : ∀ b, Q b → Q' b) :
    Only Q' m :=
  fun s b hb => hQ b (h s b hb)

theorem only_unlessError {dflt : β} {m : Prog ω β} (hdflt : Q dflt) (h : Only Q m) :
    Only Q (unlessError dflt m) :=
  only_bind fun _ => only_ite (fun _ => only_pure hdflt) fun _ => h

theorem only_fail {Q : Value → Prop} (h : Q .void) (line : ℕ) (msg : Text) :
    Only Q (fail line msg : Prog ω Value) :=
  only_bind fun _ => only_pure h

end Only

/-! ### Operators -/

section Operators

variable {pow : Float → Float → Float} {op : TokenType} {l r v : Value}

theorem arith_numericish (h : arith pow op l r = .ok v) :
    Heap.isNumericish l = true ∧ Heap.isNumericish r = true := by
  by_contra hnot
  rw [arith, if_pos hnot] at h
  cases h

theorem arith_comparison (hop : isComparison op = true) (h : arith pow op l r = .ok v) :
    ∃ b, v = .bool b := by
  have hnum := not_not.mpr (arith_numericish h)
  rw [arith, if_neg hnum] at h
  cases op with
  | gt => exact ⟨_, (Except.ok.inj h).symm⟩
  | lt => exact ⟨_, (Except.ok.inj h).symm⟩
  | ge => exact ⟨_, (Except.ok.inj h).symm⟩
  | le => exact ⟨_, (Except.ok.inj h).symm⟩
  | eq => cases h
  | ne => cases h
  | and => cases h
  | or => cases h
  | _ => cases hop

theorem arith_slash (h : arith pow .slash l r = .ok v) : ∃ d, v = .decimal d := by
  have hnum := not_not.mpr (arith_numericish h)
  rw [arith, if_neg hnum] at h
  simp only at h
  split at h
  · cases h
  · exact ⟨_, (Except.ok.inj h).symm⟩

/-- A number. -/
def IsNumber (v : Value) : Prop := (∃ k, v = .num k) ∨ ∃ d, v = .decimal d

theorem isNumber_ite {c : Prop} [Decidable c] {k : ℤ} {d : Float} :
    IsNumber (if c then .num k else .decimal d) := by
  split
  · exact .inl ⟨k, rfl⟩
  · exact .inr ⟨d, rfl⟩

theorem arith_number (hop : isComparison op = false) (h : arith pow op l r = .ok v) :
    IsNumber v := by
  have hnum := not_not.mpr (arith_numericish h)
  rw [arith, if_neg hnum] at h
  cases op with
  | plus => exact Except.ok.inj h ▸ isNumber_ite
  | minus => exact Except.ok.inj h ▸ isNumber_ite
  | star => exact Except.ok.inj h ▸ isNumber_ite
  | pow => exact Except.ok.inj h ▸ isNumber_ite
  | shl => exact .inl ⟨_, (Except.ok.inj h).symm⟩
  | shr => exact .inl ⟨_, (Except.ok.inj h).symm⟩
  | slash =>
    simp only at h
    split at h
    · cases h
    · exact .inr ⟨_, (Except.ok.inj h).symm⟩
  | percent =>
    simp only at h
    split at h
    · cases h
    · exact Except.ok.inj h ▸ isNumber_ite
  | gt => cases hop
  | lt => cases hop
  | ge => cases hop
  | le => cases hop
  | _ => cases h

variable {ω : Type} [Host ω] {n line : ℕ}

/-- The operators that are defined for values of any kind. -/
def isGeneral (op : TokenType) : Bool :=
  match op with
  | .eq | .ne | .and | .or => true
  | _ => false

theorem only_evalBinary_general (hop : isGeneral op = true) :
    Only (fun v => ∃ b, v = .bool b) (evalBinary n op l r line : Prog ω Value) := by
  unfold evalBinary
  cases op with
  | eq => exact only_pure ⟨_, rfl⟩
  | ne => exact only_pure ⟨_, rfl⟩
  | and => exact only_bind fun _ => only_bind fun _ => only_pure ⟨_, rfl⟩
  | or => exact only_bind fun _ => only_bind fun _ => only_pure ⟨_, rfl⟩
  | _ => cases hop

theorem only_evalBinary_arith {Q : Value → Prop} (hop : isGeneral op = false)
    (hplus : ¬ (op = .plus ∧ (isString l ∨ isString r))) (hvoid : Q .void)
    (h : ∀ v, arith (Host.pow (ω := ω)) op l r = .ok v → Q v) :
    Only Q (evalBinary n op l r line : Prog ω Value) := by
  unfold evalBinary
  rw [if_neg hplus]
  cases op with
  | eq => cases hop
  | ne => cases hop
  | and => cases hop
  | or => cases hop
  | _ =>
    dsimp only
    refine only_ite (fun _ => only_giveUp) fun _ => ?_
    split
    · next v hv => exact only_pure (h v hv)
    · exact only_fail hvoid _ _

theorem only_evalBinary_comparison (hop : isComparison op = true) :
    Only (fun v => v = .void ∨ ∃ b, v = .bool b) (evalBinary n op l r line : Prog ω Value) := by
  cases hgeneral : isGeneral op with
  | true => exact (only_evalBinary_general hgeneral).weaken fun _ => .inr
  | false =>
    refine only_evalBinary_arith hgeneral ?_ (.inl rfl) fun v hv => .inr (arith_comparison hop hv)
    rintro ⟨rfl, -⟩
    cases hop

theorem only_evalBinary_slash :
    Only (fun v => v = .void ∨ ∃ d, v = .decimal d)
      (evalBinary n .slash l r line : Prog ω Value) := by
  refine only_evalBinary_arith rfl ?_ (.inl rfl) fun v hv => .inr (arith_slash hv)
  rintro ⟨h, -⟩
  cases h

theorem only_evalBinary_text (h : isString l ∨ isString r) :
    Only (fun v => ∃ s, v = .string s) (evalBinary n .plus l r line : Prog ω Value) := by
  unfold evalBinary
  rw [if_pos ⟨rfl, h⟩]
  exact only_bind fun _ => only_bind fun _ => only_pure ⟨_, rfl⟩

theorem only_evalBinary_number (hop : isComparison op = false)
    (hplus : ¬ (op = .plus ∧ (isString l ∨ isString r))) :
    Only (fun v => v = .void ∨
        (Heap.isNumericish l = true ∧ Heap.isNumericish r = true) ∧ IsNumber v)
      (evalBinary n op l r line : Prog ω Value) := by
  refine only_evalBinary_arith ?_ hplus (.inl rfl) fun v hv =>
    .inr ⟨arith_numericish hv, arith_number hop hv⟩
  cases op with
  | eq => cases hop
  | ne => cases hop
  | and => cases hop
  | or => cases hop
  | _ => rfl

end Operators

/-! ### Sums and other arithmetic -/

section Arithmetic

variable {ω : Type} [Host ω] {n line : ℕ} {op : TokenType} {l r v : Value} {t : TypeInfo}

theorem Heap.holds_of_isNumber (h : Heap) (ht : t.Numeric) (hv : IsNumber v) : h.Holds t v := by
  rcases hv with ⟨k, rfl⟩ | ⟨d, rfl⟩
  · exact .inr (congrArg some ht.symm)
  · exact .inr (congrArg some ht.symm)

theorem nonNumeric_of_string (ht : t.kind = .string) : t.NonNumeric := by
  simp only [TypeInfo.NonNumeric, TypeInfo.Known, ht, typeFamily]
  decide

/-- A sum where one of the operands is no number is a text, if it is anything. -/
theorem only_sum_text (h : ¬ (Heap.isNumericish l = true ∧ Heap.isNumericish r = true)) :
    Only (fun v => v = .void ∨ ∃ s, v = .string s)
      (evalBinary n .plus l r line : Prog ω Value) := by
  by_cases htext : isString l ∨ isString r
  · exact (only_evalBinary_text htext).weaken fun _ => .inr
  · refine (only_evalBinary_number rfl fun hplus => htext hplus.2).weaken fun v hv => ?_
    rcases hv with hvoid | ⟨hnum, -⟩
    · exact .inl hvoid
    · exact absurd hnum h

theorem not_numericish_of_left {a : TypeInfo} {h : Heap} (ha : a.NonNumeric) (hl : h.Holds a l) :
    ¬ (Heap.isNumericish l = true ∧ Heap.isNumericish r = true) := by
  rw [hl.not_numericish ha]
  simp

theorem not_numericish_of_right {a : TypeInfo} {h : Heap} (ha : a.NonNumeric) (hr : h.Holds a r) :
    ¬ (Heap.isNumericish l = true ∧ Heap.isNumericish r = true) := by
  rw [hr.not_numericish ha]
  simp

/-- An operand of this type, if the type is firm. -/
def Operand (firm : Prop) (a : Option TypeInfo) (v : Value) : Prop :=
  firm → ∀ t, a = some t → t.Known → ∃ h : Heap, h.Holds t v

theorem inferSum_eq {a b : Option TypeInfo} (ht : inferSum a b = some t) :
    t.kind = .string ∧ ((∃ u, a = some u ∧ u.kind = .string) ∨ ∃ u, b = some u ∧ u.kind = .string) ∨
    (∀ u, a = some u → u.kind ≠ .string) ∧ (∀ u, b = some u → u.kind ≠ .string) ∧
      a.or b = some t := by
  have hany {a : Option TypeInfo} :
      (a.any fun t => t.kind = .string) = true ↔ ∃ u, a = some u ∧ u.kind = .string := by
    simp [Option.any_eq_true_iff_get, Option.eq_some_iff_get_eq]
  rw [inferSum] at ht
  split at ht
  · next htext =>
    rw [hany, hany] at htext
    exact .inl ⟨(congrArg TypeInfo.kind (Option.some.inj ht)).symm, htext⟩
  · next hnot =>
    rw [hany, hany, not_or] at hnot
    exact .inr ⟨fun u hu hkind => hnot.1 ⟨u, hu, hkind⟩,
      fun u hu hkind => hnot.2 ⟨u, hu, hkind⟩, ht⟩

theorem FirmSum.only {firmL firmR : Prop} {a b : Option TypeInfo} (hfirm : FirmSum firmL firmR a b)
    (ht : inferSum a b = some t) (hl : Operand firmL a l) (hr : Operand firmR b r) :
    Only (fun v => ∀ h : Heap, h.Holds t v) (evalBinary n .plus l r line : Prog ω Value) := by
  have htext (hside : (firmL ∧ ∃ u, a = some u ∧ u.kind = .string) ∨
      (firmR ∧ ∃ u, b = some u ∧ u.kind = .string)) :
      Only (fun v => ∀ h : Heap, h.Holds t v) (evalBinary n .plus l r line : Prog ω Value) := by
    have hstring : t.kind = .string := by
      rcases inferSum_eq ht with ⟨hstring, -⟩ | ⟨hna, hnb, -⟩
      · exact hstring
      · rcases hside with ⟨-, u, ha, hu⟩ | ⟨-, u, hb, hu⟩
        · exact absurd hu (hna u ha)
        · exact absurd hu (hnb u hb)
    have hnot : ¬ (Heap.isNumericish l = true ∧ Heap.isNumericish r = true) := by
      rcases hside with ⟨hfl, u, ha, hu⟩ | ⟨hfr, u, hb, hu⟩
      · obtain ⟨h, hh⟩ := hl hfl u ha (nonNumeric_of_string hu).1
        exact not_numericish_of_left (nonNumeric_of_string hu) hh
      · obtain ⟨h, hh⟩ := hr hfr u hb (nonNumeric_of_string hu).1
        exact not_numericish_of_right (nonNumeric_of_string hu) hh
    refine (only_sum_text hnot).weaken fun v hv h => ?_
    rcases hv with hvoid | ⟨s, rfl⟩
    · exact .inl hvoid
    · refine .inr ?_
      rw [Heap.Fits, hstring]
      rfl
  rcases hfirm with hleft | hright | ⟨hfl, hfr, u, w, ha, hb, hku, hkw, hcases⟩
  · exact htext (.inl hleft)
  · exact htext (.inr hright)
  · rcases inferSum_eq ht with ⟨-, hleft | hright⟩ | ⟨hna, hnb, hor⟩
    · exact htext (.inl ⟨hfl, hleft⟩)
    · exact htext (.inr ⟨hfr, hright⟩)
    · obtain ⟨h, hh⟩ := hl hfl u ha hku
      obtain ⟨h', hh'⟩ := hr hfr w hb hkw
      have hplus : ¬ (TokenType.plus = .plus ∧ (isString l ∨ isString r)) := by
        rw [hh.not_string (hna u ha), hh'.not_string (hnb w hb)]
        simp
      obtain rfl : u = t := by
        rw [ha, Option.some_or] at hor
        exact Option.some.inj hor
      refine (only_evalBinary_number rfl hplus).weaken fun v hv h₀ => ?_
      rcases hv with rfl | ⟨hnum, hv⟩
      · exact .inl rfl
      · rcases hcases with hnumeric | hnon | hnon
        · exact h₀.holds_of_isNumber hnumeric hv
        · exact absurd hnum (not_numericish_of_left hnon hh)
        · exact absurd hnum (not_numericish_of_right hnon hh')

theorem FirmArith.only {firmL firmR : Prop} {a b : Option TypeInfo}
    (hfirm : FirmArith firmL firmR a b) (hop : isComparison op = false) (hplus : op ≠ .plus)
    (ht : a.or b = some t) (hknown : t.Known) (hl : Operand firmL a l) (hr : Operand firmR b r) :
    Only (fun v => ∀ h : Heap, h.Holds t v) (evalBinary n op l r line : Prog ω Value) := by
  refine (only_evalBinary_number hop fun h => hplus h.1).weaken fun v hv h₀ => ?_
  rcases hv with rfl | ⟨hnum, hv⟩
  · exact .inl rfl
  · rcases hfirm with hnumeric | ⟨hfl, u, ha, hnon⟩ | ⟨hfr, u, hb, hnon⟩
    · exact h₀.holds_of_isNumber (hnumeric t ht hknown) hv
    · obtain ⟨h, hh⟩ := hl hfl u ha hnon.1
      exact absurd hnum (not_numericish_of_left hnon hh)
    · obtain ⟨h, hh⟩ := hr hfr u hb hnon.1
      exact absurd hnum (not_numericish_of_right hnon hh)

end Arithmetic

/-! ### The conditions on operands are exact -/

/-- What an operand of this type may be. -/
def Possible (a : Option TypeInfo) (v : Value) : Prop :=
  ∀ (h : Heap) (t : TypeInfo), a = some t → t.Known → h.Holds t v

/-- Operands of these types are combined to a value that is none of the type `t`. -/
def Misjudged (ω : Type) [Host ω] (op : TokenType) (a b : Option TypeInfo) (t : TypeInfo) : Prop :=
  ∃ l r v, Possible a l ∧ Possible b r ∧
    (∀ (n line : ℕ) (s : Machine ω), evalBinary (n + 1) op l r line s = ⟨[], s, some v⟩) ∧
    ∀ h : Heap, ¬ h.Holds t v

/-- The operators whose inferred type is that of an operand. -/
def isArith (op : TokenType) : Bool :=
  match op with
  | .minus | .star | .percent | .pow | .shl | .shr => true
  | _ => false

section Exact

variable {ω : Type} [Host ω] {a b : Option TypeInfo} {t : TypeInfo} {l r v : Value}
  {op : TokenType}

theorem possible_void (a : Option TypeInfo) : Possible a .void := fun _ _ _ _ => .inl rfl

theorem possible_of_unknown (ha : ¬ ∃ u, a = some u ∧ u.Known) (v : Value) : Possible a v :=
  fun _ u hu hk => absurd ⟨u, hu, hk⟩ ha

theorem TypeInfo.kind_eq_bool (ht : t.Known) (hnum : ¬ t.Numeric) (hnon : ¬ t.NonNumeric) :
    t.kind = .bool := by
  by_contra hbool
  exact hnon ⟨ht, hnum, hbool⟩

/-- A type with values that arithmetic is done with has one that goes with a truth value. -/
theorem exists_numericish (ha : ∀ u, a = some u → ¬ u.NonNumeric) :
    Possible a (.num 1) ∨ Possible a (.bool true) := by
  by_cases hnum : ∃ u, a = some u ∧ u.Known ∧ ¬ u.Numeric
  · obtain ⟨u, rfl, hk, hnum⟩ := hnum
    refine .inr fun h w hw _ => .inr ?_
    obtain rfl := Option.some.inj hw
    rw [Heap.Fits, TypeInfo.kind_eq_bool hk hnum (ha u rfl)]
    rfl
  · refine .inl fun h u hu hk => .inr ?_
    have hnumeric : u.Numeric := by
      by_contra hnot
      exact hnum ⟨u, hu, hk, hnot⟩
    exact congrArg some hnumeric.symm

theorem possible_true (ht : t.kind = .bool) : Possible (some t) (.bool true) := by
  intro h u hu _
  obtain rfl := Option.some.inj hu
  refine .inr ?_
  rw [Heap.Fits, ht]
  rfl

omit [Host ω] in
theorem Heap.not_holds_number (h : Heap) (ht : t.kind = .bool) (hv : IsNumber v) :
    ¬ h.Holds t v := by
  rintro (rfl | hfits)
  · rcases hv with ⟨k, hk⟩ | ⟨d, hd⟩
    · cases hk
    · cases hd
  · rw [Heap.Fits, ht] at hfits
    rcases hv with ⟨k, rfl⟩ | ⟨d, rfl⟩ <;> cases hfits

theorem Heap.not_holds_string (h : Heap) (ht : t.kind ≠ .string) (s : Text) :
    ¬ h.Holds t (.string s) := by
  rintro (hvoid | hfits)
  · cases hvoid
  · exact ht (typeFamily_eq_string (Option.some.inj hfits).symm)

omit [Host ω] in
/-- Arithmetic fails for a divisor only. -/
theorem arith_succeeds {pow : Float → Float → Float} (hop : isArith op = true ∨ op = .plus)
    (hl : Heap.isNumericish l = true) (hr : Heap.isNumericish r = true)
    (hzero : longOfDouble (Heap.asNumber r) ≠ 0) : ∃ v, arith pow op l r = .ok v := by
  rw [arith, if_neg (not_not.mpr ⟨hl, hr⟩)]
  rcases hop with hop | rfl
  · cases op with
    | minus | star | pow | shl | shr => exact ⟨_, rfl⟩
    | percent => exact ⟨_, if_neg hzero⟩
    | _ => cases hop
  · exact ⟨_, rfl⟩

/-- A truth value takes part in arithmetic, and what comes out is a number. -/
theorem evalBinary_truth (hop : isArith op = true ∨ op = .plus)
    (hl : l = .bool true ∨ l = .num 1) (hr : r = .bool true ∨ r = .num 1)
    (htruth : ¬ (isNum l = true ∧ isNum r = true)) :
    ∃ v, IsNumber v ∧
      ∀ (n line : ℕ) (s : Machine ω), evalBinary n op l r line s = ⟨[], s, some v⟩ := by
  have hnumL : Heap.isNumericish l = true ∧ isString l = false := by
    rcases hl with rfl | rfl <;> exact ⟨rfl, rfl⟩
  have hnumR : Heap.isNumericish r = true ∧ isString r = false ∧
      Heap.asNumber r = doubleOfLong 1 := by
    rcases hr with rfl | rfl <;> exact ⟨rfl, rfl, rfl⟩
  have hone : longOfDouble (Heap.asNumber r) ≠ 0 := by
    rw [hnumR.2.2, longOfDouble_doubleOfLong (by decide)]
    decide
  obtain ⟨v, hv⟩ : ∃ v, arith (Host.pow (ω := ω)) op l r = .ok v :=
    arith_succeeds hop hnumL.1 hnumR.1 hone
  have hcomparison : isComparison op = false := by
    rcases hop with hop | rfl
    · cases op <;> first | rfl | cases hop
    · rfl
  refine ⟨v, arith_number hcomparison hv, fun n line s => ?_⟩
  have htext : ¬ (op = .plus ∧ (isString l = true ∨ isString r = true)) := by
    rw [hnumL.2, hnumR.2.1]
    simp
  have htraps : remTraps op l r = false := by
    rw [remTraps, Bool.and_assoc (decide (op = .percent)),
      show (isNum l && isNum r) = false by simpa using htruth]
    simp
  unfold evalBinary
  rw [if_neg htext]
  cases op with
  | minus | star | percent | pow | shl | shr | plus =>
    simp only [htraps, hv]
    rfl
  | _ => rcases hop with hop | hop <;> cases hop

theorem misjudged_truth (hop : isArith op = true ∨ op = .plus) (ht : t.kind = .bool)
    (hl : l = .bool true ∨ l = .num 1) (hr : r = .bool true ∨ r = .num 1)
    (htruth : ¬ (isNum l = true ∧ isNum r = true)) (ha : Possible a l) (hb : Possible b r) :
    Misjudged ω op a b t := by
  obtain ⟨v, hnumber, hv⟩ := evalBinary_truth (ω := ω) hop hl hr htruth
  exact ⟨l, r, v, ha, hb, fun n => hv (n + 1), fun h => h.not_holds_number ht hnumber⟩

/-- **The condition on a sum is exact.** -/
theorem exists_wrong_sum (ht : inferSum a b = some t) (hknown : t.Known)
    (hnot : ¬ FirmSum True True a b) : Misjudged ω .plus a b t := by
  rcases inferSum_eq ht with ⟨-, hleft | hright⟩ | ⟨hna, hnb, hor⟩
  · exact absurd (.inl ⟨trivial, hleft⟩) hnot
  · exact absurd (.inr (.inl ⟨trivial, hright⟩)) hnot
  have hstring : t.kind ≠ .string := by
    rcases Option.or_eq_some_iff.mp hor with ha | ⟨-, hb⟩
    · exact hna t ha
    · exact hnb t hb
  by_cases hb : ∃ w, b = some w ∧ w.Known
  · obtain ⟨w, rfl, hw⟩ := hb
    cases a with
    | none =>
      exact ⟨.string [], .void, _, possible_of_unknown (by simp) _, possible_void _,
        fun _ _ _ => rfl, fun h => h.not_holds_string hstring _⟩
    | some u =>
      obtain rfl : u = t := Option.some.inj hor
      have hcases : ¬ (u.Numeric ∨ u.NonNumeric ∨ w.NonNumeric) := fun hcases =>
        hnot (.inr (.inr ⟨trivial, trivial, u, w, rfl, rfl, hknown, hw, hcases⟩))
      rw [not_or, not_or] at hcases
      obtain ⟨hnum, hnon, hnon'⟩ := hcases
      have hbool := TypeInfo.kind_eq_bool hknown hnum hnon
      have hw' : ∀ u, some w = some u → ¬ u.NonNumeric := fun u hu => Option.some.inj hu ▸ hnon'
      rcases exists_numericish hw' with hr | hr
      · exact misjudged_truth (.inr rfl) hbool (.inl rfl) (.inr rfl) (by simp [isNum])
          (possible_true hbool) hr
      · exact misjudged_truth (.inr rfl) hbool (.inl rfl) (.inl rfl) (by simp [isNum])
          (possible_true hbool) hr
  · exact ⟨.void, .string [], _, possible_void a, possible_of_unknown hb _, fun _ _ _ => rfl,
      fun h => h.not_holds_string hstring _⟩

/-- **The condition on other arithmetic is exact.** -/
theorem exists_wrong_arith (hop : isArith op = true) (ht : a.or b = some t) (hknown : t.Known)
    (hnot : ¬ FirmArith True True a b) : Misjudged ω op a b t := by
  rw [FirmArith, not_or, not_or] at hnot
  obtain ⟨hnum, hna, hnb⟩ := hnot
  have hnum : ¬ t.Numeric := fun hnumeric => hnum fun u hu _ => by
    obtain rfl := Option.some.inj (ht.symm.trans hu)
    exact hnumeric
  have ha : ∀ u, a = some u → ¬ u.NonNumeric := fun u hu hnon => hna ⟨trivial, u, hu, hnon⟩
  have hb : ∀ u, b = some u → ¬ u.NonNumeric := fun u hu hnon => hnb ⟨trivial, u, hu, hnon⟩
  have hbool : t.kind = .bool := by
    refine TypeInfo.kind_eq_bool hknown hnum fun hnon => ?_
    rcases Option.or_eq_some_iff.mp ht with h | ⟨-, h⟩
    · exact ha t h hnon
    · exact hb t h hnon
  cases a with
  | none =>
    obtain rfl : b = some t := ht
    exact misjudged_truth (.inl hop) hbool (.inr rfl) (.inl rfl) (by simp [isNum])
      (possible_of_unknown (by simp) _) (possible_true hbool)
  | some u =>
    obtain rfl : u = t := Option.some.inj ht
    rcases exists_numericish hb with hr | hr
    · exact misjudged_truth (.inl hop) hbool (.inl rfl) (.inr rfl) (by simp [isNum])
        (possible_true hbool) hr
    · exact misjudged_truth (.inl hop) hbool (.inl rfl) (.inl rfl) (by simp [isNum])
        (possible_true hbool) hr

end Exact

end Jaguar
