import Mathlib

/-!
# Fixed-point numbers

`truncate x` is `x` rounded toward zero; a fixed-point number with `unit` steps to the one stands for `x` as
`truncate (x * unit)`, or as `roundAway (x * unit)`, the nearest one.

* `truncate_div`: truncating the exact quotient of two integers is their truncated division.
* `abs_sub_roundAway_le`: the nearest integer is within a half.
* `roundAway_div`: rounding the exact quotient of two natural numbers by a division.
-/

namespace FixedPoint

variable {K : Type*} [Field K] [LinearOrder K] [IsStrictOrderedRing K] [FloorRing K]

/-- Rounding toward zero. -/
def truncate (x : K) : ℤ := if 0 ≤ x then ⌊x⌋ else ⌈x⌉

theorem truncate_intCast (a : ℤ) : truncate (a : K) = a := by
  simp [truncate]

theorem truncate_neg (x : K) : truncate (-x) = -truncate x := by
  unfold truncate
  rcases lt_trichotomy x 0 with hx | rfl | hx
  · rw [if_pos (neg_nonneg.mpr hx.le), if_neg (not_le.mpr hx), Int.floor_neg]
  · simp
  · rw [if_neg (not_le.mpr (neg_neg_of_pos hx)), if_pos hx.le, Int.ceil_neg]

theorem truncate_div_of_nonneg {a b : ℤ} (ha : 0 ≤ a) (hb : 0 < b) : truncate ((a : K) / b) = a.tdiv b := by
  have hb' : (0 : K) < b := Int.cast_pos.mpr hb
  have hnonneg : 0 ≤ (a : K) / b := div_nonneg (by exact_mod_cast ha) hb'.le
  rw [truncate, if_pos hnonneg, Int.tdiv_eq_ediv_of_nonneg ha, Int.floor_eq_iff, le_div_iff₀ hb', div_lt_iff₀ hb']
  have hle : a / b * b ≤ a := Int.ediv_mul_le a hb.ne'
  have hlt : a < (a / b + 1) * b := Int.lt_ediv_add_one_mul_self a hb
  exact ⟨by exact_mod_cast hle, by exact_mod_cast hlt⟩

theorem truncate_div (a b : ℤ) (hb : b ≠ 0) : truncate ((a : K) / b) = a.tdiv b := by
  -- The sign of a quotient is that of its parts.
  have hpos : ∀ {b : ℤ}, 0 < b → truncate ((a : K) / b) = a.tdiv b := by
    intro b hb
    rcases le_total 0 a with ha | ha
    · exact truncate_div_of_nonneg ha hb
    · have h := truncate_div_of_nonneg (K := K) (neg_nonneg.mpr ha) hb
      rw [Int.cast_neg, neg_div, truncate_neg, Int.neg_tdiv] at h
      exact neg_inj.mp h
  rcases lt_or_gt_of_ne hb with hneg | hb
  · grind [Int.cast_neg, div_neg, truncate_neg, Int.tdiv_neg]
  · exact hpos hb

/-! ## Rounding to the nearest -/

/-- The nearest integer; a tie goes away from zero. -/
def roundAway (x : K) : ℤ := if 0 ≤ x then ⌊x + 1 / 2⌋ else ⌈x - 1 / 2⌉

theorem roundAway_neg (x : K) : roundAway (-x) = -roundAway x := by
  unfold roundAway
  rcases lt_trichotomy x 0 with hx | rfl | hx
  · rw [if_pos (neg_nonneg.mpr hx.le), if_neg (not_le.mpr hx), ← Int.floor_neg]
    congr 1
    ring
  · have hhalf : ⌊(1 / 2 : K)⌋ = 0 := Int.floor_eq_iff.mpr (by norm_num)
    rw [neg_zero, if_pos le_rfl, zero_add, hhalf, neg_zero]
  · rw [if_neg (not_le.mpr (neg_neg_of_pos hx)), if_pos hx.le, ← Int.ceil_neg]
    congr 1
    ring

theorem roundAway_intCast (a : ℤ) : roundAway (a : K) = a := by
  unfold roundAway
  split
  · grind [Int.floor_eq_iff]
  · rw [sub_eq_add_neg, Int.ceil_intCast_add]
    have hhalf : ⌈(-(1 / 2) : K)⌉ = 0 := Int.ceil_eq_iff.mpr (by norm_num)
    rw [hhalf, add_zero]

theorem abs_sub_roundAway_le (x : K) : |x - roundAway x| ≤ 1 / 2 := by
  unfold roundAway
  rw [abs_le]
  split
  · have hle := Int.floor_le (x + 1 / 2)
    have hlt := Int.lt_floor_add_one (x + 1 / 2)
    constructor <;> linarith
  · grind [Int.le_ceil, Int.ceil_lt_add_one]

/-- Rounding a quotient of natural numbers by their division. -/
theorem roundAway_div (num : ℕ) {den : ℕ} (hden : 0 < den) :
    roundAway ((num : K) / den) = ((2 * num + den) / (2 * den) : ℕ) := by
  have hden' : (0 : K) < den := Nat.cast_pos.mpr hden
  have hnonneg : 0 ≤ (num : K) / den := div_nonneg (Nat.cast_nonneg num) hden'.le
  have hsum : (num : K) / den + 1 / 2 = ((2 * num + den : ℕ) : K) / (2 * den : ℕ) := by
    push_cast
    field_simp
  rw [roundAway, if_pos hnonneg, hsum, Int.floor_div_natCast, Int.floor_natCast, Int.natCast_div]

end FixedPoint
