import Mizu.Lib.FixedPoint
import Mizu.Logic.Binop
import Mizu.Types.Number

/-!
# Arithmetic against the rational numbers

A number value denotes a rational (`Value.number`). `applyBinop_exact`: an arithmetic operator computes the exact
rational result, truncated to the steps of the kind of number it yields, or reports why there is none.

Main result: `arithmetic_exact`.
-/

namespace Mizu

open Exec FixedPoint

/-- The rational that a number stands for. -/
def Value.number : Value → Option ℚ
  | int i => some i.toInt
  | decimal i => some (i.toInt / decimalScale)
  | _ => none

namespace BinOp

def isArithmetic : BinOp → Bool
  | add | sub | mul | div => true
  | _ => false

/-- The rational result of an arithmetic operator. -/
def exact : BinOp → ℚ → ℚ → Option ℚ
  | add, x, y => some (x + y)
  | sub, x, y => some (x - y)
  | mul, x, y => some (x * y)
  | div, x, y => if y = 0 then none else some (x / y)
  | _, _, _ => none

/-- The truth of a comparison of rationals. -/
def holds (op : BinOp) (x y : ℚ) : Bool :=
  match op with
  | eq => x = y
  | ne => x ≠ y
  | lt => x < y
  | gt => x > y
  | le => x ≤ y
  | ge => x ≥ y
  | _ => false

end BinOp

/-- The range of an `i64`. -/
def InI64 (n : Int) : Prop := -2 ^ 63 ≤ n ∧ n < 2 ^ 63

instance (n : Int) : Decidable (InI64 n) := inferInstanceAs (Decidable (_ ∧ _))

/-- The steps to the one of an operator's result: integers yield integers, unless they are divided. -/
def resultUnit : BinOp → Value → Value → Int
  | .div, _, _ => decimalScale
  | _, .int _, .int _ => 1
  | _, _, _ => decimalScale

/-- Whether the integer operand of mixed arithmetic, if there is one, has a decimal equal to it. -/
def Promotable : Value → Value → Prop
  | .int i, .decimal _ => InI64 (i.toInt * decimalScale)
  | .decimal _, .int i => InI64 (i.toInt * decimalScale)
  | _, _ => True

/-- What an operator with this exact result returns. -/
def Outcome (unit : Int) (result : Option ℚ) (n : Nat) (out : EStateM.Result MizuError Nat Value) : Prop :=
  match result with
  | none => out = .error .divisionByZero n
  | some q =>
    (InI64 (truncate (q * unit)) → ∃ v, out = .ok v n ∧ v.number = some ((truncate (q * unit) : ℚ) / (unit : ℚ))) ∧
      (¬ InI64 (truncate (q * unit)) → out = .error .integerOverflow n)

section Outcome

variable {n : Nat} {k : Int} {q : ℚ}

theorem i64TryFrom_of_inI64 (h : InI64 k) : ∃ i : Int64, i.toInt = k ∧ i64TryFrom k = some i :=
  ⟨Int64.ofInt k, Int64.toInt_ofInt_of_le h.1 h.2, if_pos h⟩

theorem i64TryFrom_of_not_inI64 (h : ¬ InI64 k) : i64TryFrom k = none := if_neg h

theorem checked_of_inI64 (wrap : Int64 → Value) (h : InI64 k) :
    ∃ i : Int64, i.toInt = k ∧ checked wrap k n = .ok (wrap i) n := by
  obtain ⟨i, hi, htry⟩ := i64TryFrom_of_inI64 h
  exact ⟨i, hi, by rw [checked, htry]; rfl⟩

theorem checked_of_not_inI64 (wrap : Int64 → Value) (h : ¬ InI64 k) :
    checked wrap k n = .error .integerOverflow n := by
  rw [checked, i64TryFrom_of_not_inI64 h]
  rfl

theorem outcome_int (hq : q = k) : Outcome 1 (some q) n (checked .int k n) := by
  have hk : truncate (q * (1 : Int)) = k := by rw [hq, Int.cast_one, mul_one, truncate_intCast]
  unfold Outcome
  simp only [hk]
  refine ⟨fun h => ?_, checked_of_not_inI64 _⟩
  obtain ⟨i, hi, hrun⟩ := checked_of_inI64 Value.int h
  exact ⟨.int i, hrun, by rw [Value.number, hi, Int.cast_one, div_one]⟩

theorem outcome_decimal (hk : truncate (q * decimalScale) = k) :
    Outcome decimalScale (some q) n (checked .decimal k n) := by
  unfold Outcome
  simp only [hk]
  refine ⟨fun h => ?_, checked_of_not_inI64 _⟩
  obtain ⟨i, hi, hrun⟩ := checked_of_inI64 Value.decimal h
  exact ⟨.decimal i, hrun, by rw [Value.number, hi]⟩

end Outcome

theorem promote_run {i : Int64} (h : InI64 (i.toInt * decimalScale)) (n : Nat) :
    ∃ d : Int64, (d.toInt / decimalScale : ℚ) = i.toInt ∧ promote i n = .ok d n := by
  obtain ⟨d, hd, htry⟩ := i64TryFrom_of_inI64 h
  refine ⟨d, ?_, by rw [promote, htry]; rfl⟩
  rw [hd, Int.cast_mul, mul_div_cancel_right₀ _ (by decide)]

variable {x y : ℚ} {l r : Value}

section Operators

variable {op : BinOp} (hop : op.isArithmetic = true) (n : Nat)

include hop

theorem intBinop_outcome (l r : Int64) :
    Outcome (resultUnit op (.int l) (.int r)) (op.exact l.toInt r.toInt) n (intBinop op l r n) := by
  cases op with
  | add | sub | mul => exact outcome_int (by push_cast; rfl)
  | div =>
    simp only [BinOp.exact, intBinop, Int.cast_eq_zero]
    split
    · rfl
    · rename_i hr
      refine outcome_decimal ?_
      rw [← truncate_div (K := ℚ) _ _ hr, div_mul_eq_mul_div, Int.cast_mul]
  | _ => exact absurd hop Bool.false_ne_true

theorem decimalBinop_outcome (l r : Int64) :
    Outcome decimalScale (op.exact (l.toInt / decimalScale) (r.toInt / decimalScale)) n (decimalBinop op l r n) := by
  have hscale : (decimalScale : ℚ) ≠ 0 := by decide
  cases op with
  | add =>
    refine outcome_decimal ?_
    rw [add_mul, div_mul_cancel₀ _ hscale, div_mul_cancel₀ _ hscale, ← Int.cast_add, truncate_intCast]
  | sub =>
    refine outcome_decimal ?_
    rw [sub_mul, div_mul_cancel₀ _ hscale, div_mul_cancel₀ _ hscale, ← Int.cast_sub, truncate_intCast]
  | mul =>
    refine outcome_decimal ?_
    rw [← truncate_div (K := ℚ) _ _ (by decide)]
    congr 1
    push_cast
    field_simp
  | div =>
    simp only [BinOp.exact, decimalBinop, div_eq_zero_iff, hscale, or_false, Int.cast_eq_zero]
    split
    · rfl
    · rename_i hr
      have hr' : (r.toInt : ℚ) ≠ 0 := Int.cast_ne_zero.mpr hr
      refine outcome_decimal ?_
      rw [← truncate_div (K := ℚ) _ _ hr]
      congr 1
      push_cast
      field_simp
  | _ => exact absurd hop Bool.false_ne_true

/-- An arithmetic operator computes the exact result, in the steps of the number it yields. -/
theorem applyBinop_exact (hl : l.number = some x) (hr : r.number = some y)
    (hpromotable : Promotable l r) (max : Nat) :
    Outcome (resultUnit op l r) (op.exact x y) n (applyBinop max op l r n) := by
  have hcomparison : op.isComparison = false := by cases op <;> first | rfl | exact absurd hop Bool.false_ne_true
  have hunit : ∀ i j, resultUnit op (.decimal i) j = decimalScale ∧ resultUnit op j (.decimal i) = decimalScale := by
    intro i j
    cases op <;> cases j <;> exact ⟨rfl, rfl⟩
  cases l with
  | int l =>
    cases hl
    cases r with
    | int r =>
      cases hr
      exact intBinop_outcome hop n l r
    | decimal r =>
      cases hr
      obtain ⟨d, hd, hrun⟩ := promote_run hpromotable n
      unfold applyBinop
      dsimp only
      rw [(hunit r _).2, ← hd, hcomparison, if_neg Bool.false_ne_true, bind_ok hrun]
      exact decimalBinop_outcome hop n d r
    | _ => cases hr
  | decimal l =>
    cases hl
    cases r with
    | int r =>
      cases hr
      obtain ⟨d, hd, hrun⟩ := promote_run hpromotable n
      unfold applyBinop
      dsimp only
      rw [(hunit l _).1, ← hd, hcomparison, if_neg Bool.false_ne_true, bind_ok hrun]
      exact decimalBinop_outcome hop n l d
    | decimal r =>
      cases hr
      rw [(hunit l _).1]
      exact decimalBinop_outcome hop n l r
    | _ => cases hr
  | _ => cases hl

end Operators

variable {op : BinOp}

theorem compareOp_eq_holds (hop : op.isComparison = true) (a b : Int) {unit : ℚ} (hunit : 0 < unit) :
    compareOp op a b = op.holds (a / unit) (b / unit) := by
  cases op <;> simp [compareOp, BinOp.holds, div_left_inj' hunit.ne', div_lt_div_iff_of_pos_right hunit,
    div_le_div_iff_of_pos_right hunit]

/-- A comparison is that of the rationals, whatever their representation. -/
theorem applyBinop_holds (hop : op.isComparison = true)
    (hl : l.number = some x) (hr : r.number = some y) (max n : Nat) :
    applyBinop max op l r n = .ok (.bool (op.holds x y)) n := by
  have hscale : (0 : ℚ) < decimalScale := by decide
  have hscaled : ∀ i : Int64, (i.toInt : ℚ) = ((i.toInt * decimalScale : Int) : ℚ) / decimalScale := by
    intro i
    rw [Int.cast_mul, mul_div_cancel_right₀ _ hscale.ne']
  cases l with
  | int l =>
    cases hl
    cases r with
    | int r =>
      cases hr
      rw [← div_one (l.toInt : ℚ), ← div_one (r.toInt : ℚ), ← compareOp_eq_holds hop _ _ one_pos]
      cases op <;> first | rfl | exact absurd hop Bool.false_ne_true
    | decimal r =>
      cases hr
      rw [hscaled l, ← compareOp_eq_holds hop _ _ hscale]
      unfold applyBinop
      dsimp only
      rw [hop, if_pos rfl]
      rfl
    | _ => cases hr
  | decimal l =>
    cases hl
    cases r with
    | int r =>
      cases hr
      rw [hscaled r, ← compareOp_eq_holds hop _ _ hscale]
      unfold applyBinop
      dsimp only
      rw [hop, if_pos rfl]
      rfl
    | decimal r =>
      cases hr
      rw [← compareOp_eq_holds hop _ _ hscale]
      cases op <;> first | rfl | exact absurd hop Bool.false_ne_true
    | _ => cases hr
  | _ => cases hl

/-- The logical operators do not apply to numbers. -/
theorem applyBinop_logical (harithmetic : op.isArithmetic = false) (hcomparison : op.isComparison = false)
    (hl : l.number = some x) (hr : r.number = some y) (hpromotable : Promotable l r)
    (max n : Nat) : ∃ found, applyBinop max op l r n = .error (.typeError "compatible operand types" found) n := by
  have hop : op = .and ∨ op = .or := by cases op <;> simp_all [BinOp.isArithmetic, BinOp.isComparison]
  have hint : ∀ a b, intBinop op a b n = .error (.typeError "compatible operand types" "num") n := by
    rcases hop with rfl | rfl <;> exact fun _ _ => rfl
  have hdecimal : ∀ a b, decimalBinop op a b n = .error (.typeError "compatible operand types" "num") n := by
    rcases hop with rfl | rfl <;> exact fun _ _ => rfl
  refine ⟨"num", ?_⟩
  cases l with
  | int l =>
    cases r with
    | int r => exact hint l r
    | decimal r =>
      obtain ⟨d, -, hrun⟩ := promote_run hpromotable n
      unfold applyBinop
      dsimp only
      rw [hcomparison, if_neg Bool.false_ne_true, bind_ok hrun, hdecimal]
    | _ => cases hr
  | decimal l =>
    cases r with
    | int r =>
      obtain ⟨d, -, hrun⟩ := promote_run hpromotable n
      unfold applyBinop
      dsimp only
      rw [hcomparison, if_neg Bool.false_ne_true, bind_ok hrun, hdecimal]
    | decimal r => exact hdecimal l r
    | _ => cases hr
  | _ => cases hl

/-! ## The representation of the operands -/

/-- Two runs that return the same number or fail alike. -/
def SameOutcome (out out' : EStateM.Result MizuError Nat Value) : Prop :=
  (∃ v v' n n', out = .ok v n ∧ out' = .ok v' n' ∧ v.number = v'.number) ∨
    ∃ e n n', out = .error e n ∧ out' = .error e n'

variable {out out' : EStateM.Result MizuError Nat Value}

theorem Outcome.same {unit : Int} {result : Option ℚ} {n n' : Nat}
    (h : Outcome unit result n out) (h' : Outcome unit result n' out') : SameOutcome out out' := by
  cases result with
  | none => exact .inr ⟨_, _, _, h, h'⟩
  | some q =>
    by_cases hfits : InI64 (truncate (q * unit))
    · obtain ⟨v, hout, hv⟩ := h.1 hfits
      obtain ⟨v', hout', hv'⟩ := h'.1 hfits
      exact .inl ⟨v, v', n, n', hout, hout', hv.trans hv'.symm⟩
    · exact .inr ⟨_, _, _, h.2 hfits, h'.2 hfits⟩

/-- An integer result is the same as a decimal one, if it has decimals or is out of every range. -/
theorem Outcome.same_of_int {k : Int} {n n' : Nat}
    (h : Outcome 1 (some (k : ℚ)) n out) (h' : Outcome decimalScale (some (k : ℚ)) n' out')
    (hrange : InI64 (k * decimalScale) ∨ ¬ InI64 k) : SameOutcome out out' := by
  have hint : truncate ((k : ℚ) * (1 : Int)) = k := by rw [Int.cast_one, mul_one, truncate_intCast]
  have hdecimal : truncate ((k : ℚ) * decimalScale) = k * decimalScale := by rw [← Int.cast_mul, truncate_intCast]
  unfold Outcome at h h'
  dsimp only at h h'
  rw [hint] at h
  rw [hdecimal] at h'
  have hsmaller : InI64 (k * decimalScale) → InI64 k := by
    unfold InI64 decimalScale
    omega
  rcases hrange with hfits | hbeyond
  · obtain ⟨v, hout, hv⟩ := h.1 (hsmaller hfits)
    obtain ⟨v', hout', hv'⟩ := h'.1 hfits
    refine .inl ⟨v, v', n, n', hout, hout', ?_⟩
    rw [hv, hv', Int.cast_one, div_one, Int.cast_mul, mul_div_cancel_right₀ _ (by decide)]
  · exact .inr ⟨_, _, _, h.2 hbeyond, h'.2 fun hfits => hbeyond (hsmaller hfits)⟩

theorem SameOutcome.symm (h : SameOutcome out out') : SameOutcome out' out := by
  rcases h with ⟨v, v', n, n', hout, hout', hv⟩ | ⟨e, n, n', hout, hout'⟩
  · exact .inl ⟨v', v, n', n, hout', hout, hv.symm⟩
  · exact .inr ⟨e, n', n, hout', hout⟩

theorem resultUnit_cases (hop : op.isArithmetic = true) (hl : l.number = some x) (hr : r.number = some y) :
    resultUnit op l r = decimalScale ∨ resultUnit op l r = 1 ∧ ∃ k : Int, op.exact x y = some (k : ℚ) := by
  cases l with
  | int l =>
    cases hl
    cases r with
    | int r =>
      cases hr
      cases op with
      | add => exact .inr ⟨rfl, l.toInt + r.toInt, by push_cast; rfl⟩
      | sub => exact .inr ⟨rfl, l.toInt - r.toInt, by push_cast; rfl⟩
      | mul => exact .inr ⟨rfl, l.toInt * r.toInt, by push_cast; rfl⟩
      | div => exact .inl rfl
      | _ => exact absurd hop Bool.false_ne_true
    | decimal r => cases op <;> exact .inl rfl
    | _ => cases hr
  | decimal l => cases op <;> exact .inl rfl
  | _ => cases hl

/-- The outcome depends on the numbers only, unless it is an integer that has no decimal. -/
theorem applyBinop_same (hop : op.isArithmetic = true) {l r l' r' : Value}
    (hl : l.number = some x) (hr : r.number = some y) (hl' : l'.number = some x) (hr' : r'.number = some y)
    (hpromotable : Promotable l r) (hpromotable' : Promotable l' r')
    (hrange : ∀ q, op.exact x y = some q → InI64 (truncate (q * decimalScale)) ∨ ¬ InI64 (truncate q))
    (max max' n n' : Nat) : SameOutcome (applyBinop max op l r n) (applyBinop max' op l' r' n') := by
  have hout := applyBinop_exact hop n hl hr hpromotable max
  have hout' := applyBinop_exact hop n' hl' hr' hpromotable' max'
  have hwhole : ∀ k : Int, op.exact x y = some (k : ℚ) → InI64 (k * decimalScale) ∨ ¬ InI64 k := by
    intro k hk
    have hrange := hrange k hk
    rwa [truncate_intCast, ← Int.cast_mul, truncate_intCast] at hrange
  rcases resultUnit_cases hop hl hr with hunit | ⟨hunit, k, hk⟩ <;>
    rcases resultUnit_cases hop hl' hr' with hunit' | ⟨hunit', k', hk'⟩
  · rw [hunit] at hout
    rw [hunit'] at hout'
    exact hout.same hout'
  · rw [hunit, hk'] at hout
    rw [hunit', hk'] at hout'
    exact (hout'.same_of_int hout (hwhole k' hk')).symm
  · rw [hunit, hk] at hout
    rw [hunit', hk] at hout'
    exact hout.same_of_int hout' (hwhole k hk)
  · rw [hunit] at hout
    rw [hunit'] at hout'
    exact hout.same hout'

end Mizu
