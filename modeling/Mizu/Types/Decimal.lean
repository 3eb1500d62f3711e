import Mizu.Types.Number

/-!
# Writing numbers

What is written of an integer or a decimal follows the grammar of JSON and is read back:
`parseJsonNumberExact_int` and `parseJsonNumberExact_formatDecimal`.
-/

namespace Mizu

open List

theorem toDigits_allDigits (n : Nat) : AllDigits (Nat.toDigits 10 n) := fun _ hc =>
  Nat.isDigit_of_mem_toDigits (by decide) (by decide) hc

/-- No leading zero but in zero itself. -/
theorem toDigits_head (n : Nat) :
    (Nat.toDigits 10 n).length = 1 ∨ (Nat.toDigits 10 n).head? ≠ some '0' := by
  by_cases hn : n < 10
  · exact .inl (by rw [Nat.toDigits_of_lt_base hn]; rfl)
  right
  induction n using Nat.strong_induction_on with
  | _ n ih =>
    rw [Nat.toDigits_of_base_le (by decide) (Nat.not_lt.mp hn),
      List.head?_append_of_ne_nil _ Nat.toDigits_ne_nil]
    by_cases hsmall : n / 10 < 10
    · rw [Nat.toDigits_of_lt_base hsmall, List.head?_cons]
      have hpos : 1 ≤ n / 10 := (Nat.le_div_iff_mul_le (by decide)).mpr (by omega)
      have hdigit : ∀ d < 10, 1 ≤ d → some (Nat.digitChar d) ≠ some '0' := by decide
      exact hdigit _ hsmall hpos
    · exact ih (n / 10) (by omega) hsmall

theorem toString_signed (n : Int) :
    (toString n).toList = signOf (n < 0) ++ Nat.toDigits 10 n.natAbs := by
  rw [Int.toString_eq_repr, Int.repr_eq_if]
  by_cases h : 0 ≤ n
  · rw [if_pos h, Nat.toList_repr, show n.natAbs = n.toNat by omega]
    simp [signOf, show ¬n < 0 by omega]
  · rw [if_neg h, String.toList_append, Nat.toList_repr, show n.natAbs = (-n).toNat by omega]
    simp [signOf, show n < 0 by omega]

theorem signed_natAbs (n : Int) : signed (n < 0) n.natAbs = n := by
  by_cases h : n < 0
  · simp only [signed, h, decide_true, if_true]
    omega
  · simp only [signed, h, decide_false, Bool.false_eq_true, if_false]
    omega

theorem digitsVal_toDigits (n : Nat) : digitsVal (Nat.toDigits 10 n) = n :=
  Nat.ofDigitChars_ten_toDigits

/-- An integer is read back. -/
theorem parseJsonNumberExact_int (f64 : ScaledF64) (i : Int64) :
    parseJsonNumberExact f64 (toString i.toInt).toList = .ok (.int i) := by
  rw [toString_signed, parse_int f64 Nat.toDigits_ne_nil (toDigits_allDigits _), digitsVal_toDigits,
    signed_natAbs, i64TryFrom_eq_some.mpr rfl]

theorem trimFraction_spec : ∀ (digits frac : Nat),
    (Value.trimFraction frac digits).1 * 10 ^ (digits - (Value.trimFraction frac digits).2) = frac ∧
      (Value.trimFraction frac digits).2 ≤ digits
  | 0, frac => ⟨Nat.mul_one _, Nat.le_refl _⟩
  | digits + 1, frac => by
    rw [Value.trimFraction]
    split
    · rename_i hzero
      obtain ⟨hval, hle⟩ := trimFraction_spec digits (frac / 10)
      refine ⟨?_, by omega⟩
      generalize Value.trimFraction (frac / 10) digits = t at *
      rw [show digits + 1 - t.2 = digits - t.2 + 1 by omega, Nat.pow_succ, ← Nat.mul_assoc, hval]
      omega
    · exact ⟨by simp, Nat.le_refl _⟩

theorem toList_pushn (c : Char) (k : Nat) : ("".pushn c k).toList = List.replicate k c := by
  induction k with
  | zero => rfl
  | succ k ih =>
    rw [String.pushn_eq_repeat_push] at ih ⊢
    rw [Nat.repeat, String.toList_push, ih, replicate_succ']

theorem padZeros_toString {width n : Nat} (hpos : 0 < width) (hlt : n < 10 ^ width) :
    ∃ cs, (Value.padZeros width (toString n)).toList = cs ∧ AllDigits cs ∧ cs.length = width ∧
      digitsVal cs = n := by
  have hlist : (toString n).toList = Nat.toDigits 10 n := Nat.toList_repr
  have hlen : (toString n).length = (Nat.toDigits 10 n).length := by
    rw [← hlist, String.length_toList]
  have hle := (Nat.length_toDigits_le_iff (by decide) hpos).mpr hlt
  refine ⟨List.replicate (width - (toString n).length) '0' ++ Nat.toDigits 10 n, ?_, ?_, ?_, ?_⟩
  · rw [Value.padZeros, String.toList_append, toList_pushn, hlist]
  · intro c hc
    rcases mem_append.mp hc with hc | hc
    · rw [eq_of_mem_replicate hc]
      rfl
    · exact toDigits_allDigits n c hc
  · rw [length_append, length_replicate, hlen]
    omega
  · simp [digitsVal, Nat.ofDigitChars_append, Nat.ofDigitChars_replicate_zero, Nat.mul_zero]

theorem formatDecimal_parts (i : Int64) :
    ∃ frac, (Value.formatDecimal i true).toList =
        signOf (i.toInt < 0) ++ Nat.toDigits 10 (i.toInt.natAbs / 10 ^ 8) ++ '.' :: frac ∧
      frac ≠ [] ∧ AllDigits frac ∧ frac.length ≤ 8 ∧
      digitsVal frac * 10 ^ 8 = i.toInt.natAbs % 10 ^ 8 * 10 ^ frac.length := by
  have hscale : decimalScale.natAbs = 10 ^ 8 := rfl
  have hint : (i.toInt.tdiv decimalScale).natAbs = i.toInt.natAbs / 10 ^ 8 := by
    rw [Int.natAbs_tdiv, hscale]
    rfl
  have hfrac : (i.toInt.tmod decimalScale).natAbs = i.toInt.natAbs % 10 ^ 8 := by
    rw [Int.natAbs_tmod, hscale]
  have hhead : ((if i.toInt < 0 ∧ i.toInt.tdiv decimalScale = 0 then "-" else "") ++
      toString (i.toInt.tdiv decimalScale)).toList =
        signOf (i.toInt < 0) ++ Nat.toDigits 10 (i.toInt.natAbs / 10 ^ 8) := by
    rw [String.toList_append, toString_signed, hint]
    by_cases hneg : i.toInt < 0
    · have hle : i.toInt.tdiv decimalScale ≤ 0 :=
        Int.neg_nonneg.mp (by
          rw [← Int.neg_tdiv]
          exact Int.tdiv_nonneg (by omega) (by decide))
      by_cases hzero : i.toInt.tdiv decimalScale = 0
      · simp [hneg, hzero, signOf]
      · simp [hneg, hzero, signOf, show i.toInt.tdiv decimalScale < 0 by omega]
    · have hnonneg : 0 ≤ i.toInt.tdiv decimalScale := Int.tdiv_nonneg (by omega) (by decide)
      simp [hneg, signOf, show ¬i.toInt.tdiv decimalScale < 0 by omega]
  unfold Value.formatDecimal
  simp only [if_true]
  split
  · rename_i hzero
    rw [hfrac] at hzero
    exact ⟨['0'], by rw [String.toList_append, hhead]; rfl, cons_ne_nil _ _,
      fun c hc => by rw [mem_singleton.mp hc]; rfl, by decide, by rw [hzero]; rfl⟩
  · rename_i hnonzero
    obtain ⟨hval, hle⟩ := trimFraction_spec 8 (i.toInt.tmod decimalScale).natAbs
    rw [hfrac] at hnonzero hval hle ⊢
    generalize htrim : Value.trimFraction (i.toInt.natAbs % 10 ^ 8) 8 = t at *
    obtain ⟨f, d⟩ := t
    have hpow : 10 ^ 8 = 10 ^ d * 10 ^ (8 - d) := by
      rw [← Nat.pow_add]
      congr 1
      omega
    have hlt : f < 10 ^ d := by
      refine Nat.lt_of_mul_lt_mul_right (a := 10 ^ (8 - d)) ?_
      rw [hval, ← hpow]
      exact Nat.mod_lt _ (by decide)
    have hpos : 0 < d := by grind
    obtain ⟨cs, hcs, hdigits, hlen, hn⟩ := padZeros_toString hpos hlt
    refine ⟨cs, ?_, ?_, hdigits, by omega, ?_⟩
    · simp only [String.toList_append, hcs] at hhead ⊢
      rw [hhead]
      simp
    · rintro rfl
      exact absurd hlen (by simp; omega)
    · rw [hn, hlen, ← hval, hpow]
      ring

/-- The text of a decimal denotes it. -/
theorem parseJsonNumberExact_formatDecimal (f64 : ScaledF64) (i : Int64) :
    parseJsonNumberExact f64 (Value.formatDecimal i true).toList = .ok (.decimal i) := by
  obtain ⟨frac, htext, hne, hdigits, -, hval⟩ := formatDecimal_parts i
  rw [htext]
  refine (parse_decimal f64 Nat.toDigits_ne_nil (toDigits_allDigits _) hne hdigits).1 i ?_
  rw [digitsVal_toDigits, Nat.add_mul, hval, Nat.mul_right_comm, ← Nat.add_mul,
    roundHalfUp_exact _ _ (Nat.pow_pos (by decide)), Nat.mul_comm, Nat.div_add_mod, signed_natAbs]

theorem isJsonNumber_of_parts {negative : Bool} {int rest : List Char} (hne : int ≠ [])
    (hint : AllDigits int) (hhead : int.length = 1 ∨ int.head? ≠ some '0')
    (hrest : isJsonFraction rest = true) (hstop : ∀ c cs, rest = c :: cs → c.isDigit = false) :
    isJsonNumber (signOf negative ++ int ++ rest) = true := by
  have hunsigned : (if (signOf negative ++ int ++ rest).head? = some '-'
      then (signOf negative ++ int ++ rest).tail else signOf negative ++ int ++ rest) = int ++ rest := by
    cases negative with
    | true => simp [signOf]
    | false =>
      obtain ⟨c, cs, rfl⟩ := exists_cons_of_ne_nil hne
      have hminus : c ≠ '-' := isDigit_ne hint.cons.1 (by decide)
      simp [signOf, hminus]
  have htake : (int ++ rest).takeWhile Char.isDigit = int := by
    rw [takeWhile_append_of_pos hint]
    cases rest with
    | nil => simp
    | cons c cs => simp [hstop c cs rfl]
  have hdrop : (int ++ rest).dropWhile Char.isDigit = rest := by
    rw [dropWhile_append_of_pos hint]
    cases rest with
    | nil => rfl
    | cons c cs => simp [hstop c cs rfl]
  unfold isJsonNumber
  simp only [hunsigned, htake, hdrop, hrest, Bool.and_true, Bool.and_eq_true]
  exact ⟨by simpa using hne, by simpa using hhead⟩

theorem isJsonNumber_int (n : Int) : isJsonNumber (toString n).toList = true := by
  rw [toString_signed, ← append_nil (signOf _ ++ _)]
  exact isJsonNumber_of_parts Nat.toDigits_ne_nil (toDigits_allDigits _) (toDigits_head _) rfl nofun

theorem isJsonNumber_formatDecimal (i : Int64) :
    isJsonNumber (Value.formatDecimal i true).toList = true := by
  obtain ⟨frac, htext, hne, hdigits, -⟩ := formatDecimal_parts i
  rw [htext]
  refine isJsonNumber_of_parts Nat.toDigits_ne_nil (toDigits_allDigits _) (toDigits_head _) ?_ ?_
  · have htake : frac.takeWhile Char.isDigit = frac := by
      have h := @takeWhile_append_of_pos _ Char.isDigit frac [] hdigits
      simpa using h
    have hdrop : frac.dropWhile Char.isDigit = [] := by
      have h := @dropWhile_append_of_pos _ Char.isDigit frac [] hdigits
      simpa using h
    simp [isJsonFraction, htake, hdrop, isJsonExponent, hne]
  · intro c cs heq
    rw [← (List.cons.inj heq).1]
    rfl

end Mizu
