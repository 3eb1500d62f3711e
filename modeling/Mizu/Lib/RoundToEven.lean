import Mathlib

/-!
# Rounding to the nearest number of a binary format

A positive number of a format with `p` bits is `K * 2 ^ j` for a `K` of `p` bits; the exponent has no bounds. `roundTo`
takes a positive number to the nearest one of the format, and to the one with an even `K` from halfway between two.

* `nearestEven_eq_iff`: which numbers are rounded to an integer.
* `roundTo_of_rounds`, `exists_rounds`: which numbers are rounded to a number of the format, `Rounds`: those that are
  nearer to it than half the gap to its neighbours. The gap below a power of two is the smaller one.
-/

namespace RoundToEven

/-! ## To an integer -/

/-- The nearest integer, and the even one from halfway between two. -/
def nearestEven (t : ℚ) : ℤ :=
  let low := ⌊t⌋
  if t - low < 1 / 2 then low
  else if 1 / 2 < t - low then low + 1
  else if Even low then low
  else low + 1

/-- A number that is rounded to `k`. -/
def NearEven (t : ℚ) (k : ℤ) : Prop :=
  (k - 1 / 2 < t ∨ t = k - 1 / 2 ∧ Even k) ∧ (t < k + 1 / 2 ∨ t = k + 1 / 2 ∧ Even k)

theorem nearEven_nearestEven (t : ℚ) : NearEven t (nearestEven t) := by
  have hle := Int.floor_le t
  have hlt := Int.lt_floor_add_one t
  unfold nearestEven
  dsimp only
  split
  · exact ⟨.inl (by linarith), .inl (by linarith)⟩
  · split
    · refine ⟨.inl ?_, .inl ?_⟩ <;> push_cast <;> linarith
    · -- halfway: one of two neighbours is even
      have hhalf : t = ⌊t⌋ + 1 / 2 := by linarith
      split
      · rename_i heven
        exact ⟨.inl (by linarith), .inr ⟨hhalf, heven⟩⟩
      · rename_i hodd
        have heven : Even (⌊t⌋ + 1) := Int.even_add_one.mpr hodd
        refine ⟨.inr ⟨?_, heven⟩, .inl ?_⟩ <;> push_cast <;> linarith

/-- No number is rounded to two integers. -/
theorem nearEven_unique {t : ℚ} {k l : ℤ} (hk : NearEven t k) (hl : NearEven t l) : k = l := by
  -- of two integers that a number is near, one is the next one, and then the number is halfway
  have key : ∀ {k l : ℤ}, NearEven t k → NearEven t l → ¬k < l := by
    intro k l hk hl hlt
    have hle : (k : ℚ) + 1 ≤ l := by exact_mod_cast hlt
    rcases hk.2 with hk | ⟨hk, hkeven⟩
    · rcases hl.1 with hl | ⟨hl, -⟩ <;> linarith
    · rcases hl.1 with hl | ⟨hl, hleven⟩
      · linarith
      · have heq : (l : ℚ) = k + 1 := by linarith
        have heq' : l = k + 1 := by exact_mod_cast heq
        rw [heq'] at hleven
        exact Int.even_add_one.mp hleven hkeven
  exact le_antisymm (not_lt.mp (key hl hk)) (not_lt.mp (key hk hl))

theorem nearestEven_eq_iff {t : ℚ} {k : ℤ} : nearestEven t = k ↔ NearEven t k := by
  constructor
  · rintro rfl
    exact nearEven_nearestEven t
  · exact fun h => nearEven_unique (nearEven_nearestEven t) h

/-! ## To a number of a format -/

section Format

variable {p : ℕ} {x : ℚ} {K : ℤ} {j : ℤ}

/-- The gap between the numbers of a format of `p` bits around `x`. -/
def unitExponent (p : ℕ) (x : ℚ) : ℤ := Int.log 2 x - (p - 1)

/-- The nearest number of a format of `p` bits to a positive number. -/
def roundTo (p : ℕ) (x : ℚ) : ℚ :=
  if x ≤ 0 then 0 else nearestEven (x / 2 ^ unitExponent p x) * 2 ^ unitExponent p x

/-- A positive number that is rounded to `K * 2 ^ j`. -/
structure Rounds (p : ℕ) (x : ℚ) (K j : ℤ) : Prop where
  low : 2 ^ (p - 1) ≤ K
  high : K < 2 ^ p
  /-- Not below the half of the gap, which is half as wide below the least `K`. -/
  above : if K = 2 ^ (p - 1) then K - 1 / 4 ≤ x / 2 ^ j else K - 1 / 2 < x / 2 ^ j ∨ x / 2 ^ j = K - 1 / 2 ∧ Even K
  below : x / 2 ^ j < K + 1 / 2 ∨ x / 2 ^ j = K + 1 / 2 ∧ Even K

theorem two_zpow_pos (j : ℤ) : (0 : ℚ) < 2 ^ j := zpow_pos (by norm_num) j

theorem log_eq (h1 : (2 : ℚ) ^ j ≤ x) (h2 : x < 2 ^ (j + 1)) : Int.log 2 x = j := by
  have hx : 0 < x := (two_zpow_pos j).trans_le h1
  have hle : j ≤ Int.log 2 x := (Int.zpow_le_iff_le_log (b := 2) (by decide) hx).mp (by exact_mod_cast h1)
  have hlt : Int.log 2 x < j + 1 := (Int.lt_zpow_iff_log_lt (b := 2) (by decide) hx).mp (by exact_mod_cast h2)
  omega

theorem roundTo_eq_of_log (hx : 0 < x) (hlog : Int.log 2 x = j + (p - 1)) (hnear : NearEven (x / 2 ^ j) K) :
    roundTo p x = K * 2 ^ j := by
  have hunit : unitExponent p x = j := by
    rw [unitExponent, hlog]
    omega
  rw [roundTo, if_neg (not_le.mpr hx), hunit, nearestEven_eq_iff.mpr hnear]

theorem two_zpow_add (j : ℤ) (n : ℕ) : (2 : ℚ) ^ (j + n) = 2 ^ n * 2 ^ j := by
  rw [zpow_add₀ (by norm_num), zpow_natCast, mul_comm]

theorem log_eq_of_scaled {q : ℕ} (h1 : 2 ^ q ≤ x / 2 ^ j) (h2 : x / 2 ^ j < 2 ^ (q + 1)) : Int.log 2 x = j + q := by
  have hpos := two_zpow_pos j
  refine log_eq ?_ ?_
  · rw [two_zpow_add]
    exact (le_div_iff₀ hpos).mp h1
  · have hexp : j + q + 1 = j + (q + 1 : ℕ) := by push_cast; ring
    rw [hexp, two_zpow_add]
    exact (div_lt_iff₀ hpos).mp h2

theorem pos_of_scaled {a : ℚ} (ha : 0 < a) (h : a ≤ x / 2 ^ j) : 0 < x := by
  have hpos := two_zpow_pos j
  exact (mul_pos ha hpos).trans_le ((le_div_iff₀ hpos).mp h)

/-- What rounds to a number of the format is rounded to it. -/
theorem roundTo_of_rounds (hp : 2 ≤ p) (h : Rounds p x K j) : roundTo p x = K * 2 ^ j := by
  obtain ⟨hlow, hhigh, habove, hbelow⟩ := h
  obtain ⟨q, rfl⟩ : ∃ q, p = q + 2 := ⟨p - 2, by omega⟩
  have hq : q + 2 - 1 = q + 1 := rfl
  rw [hq] at hlow habove
  have hlow' : (2 : ℚ) ^ (q + 1) ≤ K := by exact_mod_cast hlow
  have hhigh' : (K : ℚ) + 1 ≤ 2 ^ (q + 2) := by exact_mod_cast hhigh
  have hone : (1 : ℚ) ≤ 2 ^ q := one_le_pow₀ (by norm_num)
  have hsucc : (2 : ℚ) ^ (q + 1) = 2 * 2 ^ q := pow_succ' 2 q
  have hlt : x / 2 ^ j < 2 ^ (q + 2) := by rcases hbelow with h | ⟨h, -⟩ <;> linarith
  by_cases hmin : (2 : ℚ) ^ (q + 1) ≤ x / 2 ^ j
  · -- the exponent of `x` is that of the number
    have hlog := log_eq_of_scaled hmin hlt
    refine roundTo_eq_of_log (pos_of_scaled (by positivity) hmin) (by rw [hlog]; push_cast; ring) ⟨?_, hbelow⟩
    split at habove
    · grind
    · exact habove
  · -- below the least number of its exponent, in the smaller gap
    have hK : K = 2 ^ (q + 1) := by
      by_contra hne
      have hlt' : (2 : ℤ) ^ (q + 1) + 1 ≤ K := lt_of_le_of_ne hlow (Ne.symm hne)
      have hlt'' : (2 : ℚ) ^ (q + 1) + 1 ≤ K := by exact_mod_cast hlt'
      rw [if_neg hne] at habove
      rcases habove with h | ⟨h, -⟩ <;> linarith
    have hK' : (K : ℚ) = 2 ^ (q + 1) := by exact_mod_cast hK
    rw [if_pos hK] at habove
    have hscale : x / 2 ^ (j - 1) = 2 * (x / 2 ^ j) := by grind [zpow_sub_one₀]
    have hpow : (2 : ℚ) ^ (q + 2) = 2 * 2 ^ (q + 1) := pow_succ' 2 (q + 1)
    have hlog : Int.log 2 x = j - 1 + (q + 1 : ℕ) := by
      refine log_eq_of_scaled ?_ ?_ <;> rw [hscale] <;> linarith
    have hge : 1 ≤ x / 2 ^ j := by linarith
    have hx : 0 < x := pos_of_scaled one_pos hge
    have hround : roundTo (q + 2) x = (2 ^ (q + 2) : ℤ) * 2 ^ (j - 1) := by
      refine roundTo_eq_of_log hx (by rw [hlog]; push_cast; ring) ?_
      have heven : Even ((2 : ℤ) ^ (q + 2)) := (even_two).pow_of_ne_zero (by omega)
      rw [hscale]
      refine ⟨?_, .inl ?_⟩
      · grind
      · push_cast
        linarith
    rw [hround, hK, zpow_sub_one₀ (by norm_num)]
    push_cast
    ring

/-- Every positive number rounds to a number of the format. -/
theorem exists_rounds (hp : 2 ≤ p) (hx : 0 < x) : ∃ K j, Rounds p x K j := by
  obtain ⟨q, rfl⟩ : ∃ q, p = q + 2 := ⟨p - 2, by omega⟩
  have hpos := two_zpow_pos (unitExponent (q + 2) x)
  generalize hj : unitExponent (q + 2) x = j at hpos
  have hlog : Int.log 2 x = j + (q + 1 : ℕ) := by grind [unitExponent]
  have h1 : (2 : ℚ) ^ (q + 1) ≤ x / 2 ^ j := by
    have h := Int.zpow_log_le_self (b := 2) (by decide) hx
    rw [hlog] at h
    exact (le_div_iff₀ hpos).mpr (by rw [← two_zpow_add]; exact_mod_cast h)
  have h2 : x / 2 ^ j < 2 ^ (q + 2) := by
    have h := Int.lt_zpow_succ_log_self (b := 2) (by decide) x
    have hexp : j + (q + 1 : ℕ) + 1 = j + (q + 2 : ℕ) := by push_cast; ring
    rw [hlog, hexp] at h
    exact (div_lt_iff₀ hpos).mpr (by rw [← two_zpow_add]; exact_mod_cast h)
  obtain ⟨habove, hbelow⟩ := nearEven_nearestEven (x / 2 ^ j)
  generalize nearestEven (x / 2 ^ j) = K at habove hbelow
  have hpow : (2 : ℚ) ^ (q + 2) = 2 * 2 ^ (q + 1) := pow_succ' 2 (q + 1)
  have hKlow : (2 : ℤ) ^ (q + 1) ≤ K := by
    by_contra hlt
    have hlt' : K + 1 ≤ (2 : ℤ) ^ (q + 1) := not_le.mp hlt
    have hlt'' : (K : ℚ) + 1 ≤ 2 ^ (q + 1) := by exact_mod_cast hlt'
    rcases hbelow with h | ⟨h, -⟩ <;> linarith
  have hKhigh : K ≤ (2 : ℤ) ^ (q + 2) := by
    by_contra hlt
    have hlt' : (2 : ℤ) ^ (q + 2) + 1 ≤ K := not_le.mp hlt
    have hlt'' : (2 : ℚ) ^ (q + 2) + 1 ≤ K := by exact_mod_cast hlt'
    rcases habove with h | ⟨h, -⟩ <;> linarith
  rcases lt_or_eq_of_le hKhigh with hK | hK
  · refine ⟨K, j, hKlow, hK, ?_, hbelow⟩
    show if K = 2 ^ (q + 1) then _ else _
    split
    · rename_i hmin
      have hmin' : (K : ℚ) = 2 ^ (q + 1) := by exact_mod_cast hmin
      linarith
    · exact habove
  · -- the next power of two
    have hK' : (K : ℚ) = 2 ^ (q + 2) := by exact_mod_cast hK
    have hscale : x / 2 ^ (j + 1) = (x / 2 ^ j) / 2 := by grind [zpow_add_one₀]
    refine ⟨2 ^ (q + 1), j + 1, le_rfl, pow_lt_pow_right₀ (by norm_num) (by omega), ?_, .inl ?_⟩
    · grind
    · rw [hscale]
      push_cast
      linarith

theorem roundTo_zero (p : ℕ) : roundTo p 0 = 0 := if_pos le_rfl

end Format

end RoundToEven
