import Mathlib

/-!
# Blocks of addresses

Addresses are numbers below a power of two, and a block is what shares its leading bits. Whether blocks are
covered by others is decided on the blocks alone:

* `outside_of_covers`: what is outside of the blocks that cover others is outside of those.
* `outside_of_apart`: what is in one of the blocks is outside of those that none of them meets.
* `and_highMask`: masking the leading bits.
-/

namespace AddressBlock

/-- The addresses of `width` bits that share their first `length` bits with `base`. -/
structure Block (width : Nat) where
  base : Nat
  length : Nat

variable {width : Nat}

def Block.Contains (b : Block width) (n : Nat) : Prop :=
  n / 2 ^ (width - b.length) = b.base / 2 ^ (width - b.length)

instance (b : Block width) (n : Nat) : Decidable (b.Contains n) := inferInstanceAs (Decidable (_ = _))

/-- `b` has no shorter prefix than `b'` and shares it. -/
def Block.within (b b' : Block width) : Bool :=
  b'.length ≤ b.length && b.base / 2 ^ (width - b'.length) = b'.base / 2 ^ (width - b'.length)

/-- In none of the blocks. -/
def Outside (blocks : List (Block width)) (n : Nat) : Prop := ∀ b ∈ blocks, ¬b.Contains n

instance (blocks : List (Block width)) (n : Nat) : Decidable (Outside blocks n) :=
  inferInstanceAs (Decidable (∀ b ∈ blocks, ¬b.Contains n))

/-- Each of the second blocks is within one of the first. -/
def covers (blocks blocks' : List (Block width)) : Bool := blocks'.all fun b => blocks.any b.within

/-- Neither of two blocks is within the other, for all pairs. -/
def apart (blocks blocks' : List (Block width)) : Bool :=
  blocks.all fun b => blocks'.all fun b' => !b.within b' && !b'.within b

/-- What a longer prefix leaves is a part of what a shorter one leaves. -/
theorem two_pow_rest (width : Nat) {length length' : Nat} (h : length' ≤ length) :
    2 ^ (width - length') = 2 ^ (width - length) * 2 ^ ((width - length') - (width - length)) := by
  rw [← Nat.pow_add, Nat.add_sub_cancel' (by omega)]

variable {n : Nat}

theorem Block.Contains.of_within {b b' : Block width} (h : b.Contains n)
    (hwithin : b.within b' = true) : b'.Contains n := by
  simp only [Block.within, Bool.and_eq_true, decide_eq_true_eq] at hwithin
  obtain ⟨hle, hbase⟩ := hwithin
  have hpow := two_pow_rest width hle
  have hn : n / 2 ^ (width - b.length) = b.base / 2 ^ (width - b.length) := h
  show n / 2 ^ (width - b'.length) = _
  rw [← hbase, hpow, ← Nat.div_div_eq_div_mul, ← Nat.div_div_eq_div_mul, hn]

/-- Two blocks that share an address are one within the other. -/
theorem Block.within_of_contains {b b' : Block width} (h : b.Contains n) (h' : b'.Contains n)
    (hle : b'.length ≤ b.length) : b.within b' = true := by
  have hpow := two_pow_rest width hle
  have hn : n / 2 ^ (width - b.length) = b.base / 2 ^ (width - b.length) := h
  have hn' : n / 2 ^ (width - b'.length) = b'.base / 2 ^ (width - b'.length) := h'
  have hbase : b.base / 2 ^ (width - b'.length) = b'.base / 2 ^ (width - b'.length) := by
    rw [← hn', hpow, ← Nat.div_div_eq_div_mul, ← Nat.div_div_eq_div_mul, hn]
  simp [Block.within, hle, hbase]

variable {blocks blocks' : List (Block width)}

/-- Outside of blocks that cover others, an address is outside of those. -/
theorem outside_of_covers (hcovers : covers blocks blocks' = true)
    (h : Outside blocks n) : Outside blocks' n := by
  intro b hb hn
  obtain ⟨b', hb', hwithin⟩ := List.any_eq_true.mp (List.all_eq_true.mp hcovers b hb)
  exact h b' hb' (hn.of_within hwithin)

/-- In blocks that are apart from others, an address is outside of those. -/
theorem outside_of_apart (hapart : apart blocks blocks' = true)
    (h : ¬Outside blocks n) : Outside blocks' n := by
  intro b' hb' hn'
  have hin : ∃ b ∈ blocks, b.Contains n := by simpa [Outside] using h
  obtain ⟨b, hb, hn⟩ := hin
  have hpair := List.all_eq_true.mp (List.all_eq_true.mp hapart b hb) b' hb'
  simp only [Bool.and_eq_true, Bool.not_eq_true'] at hpair
  rcases Nat.le_total b'.length b.length with hle | hle
  · exact Bool.false_ne_true (hpair.1.symm.trans (Block.within_of_contains hn hn' hle))
  · exact Bool.false_ne_true (hpair.2.symm.trans (Block.within_of_contains hn' hn hle))

theorem outside_append : Outside (blocks ++ blocks') n ↔ Outside blocks n ∧ Outside blocks' n :=
  List.forall_mem_append

theorem outside_cons {b : Block width} {blocks : List (Block width)} :
    Outside (b :: blocks) n ↔ ¬b.Contains n ∧ Outside blocks n :=
  List.forall_mem_cons

theorem outside_nil (n : Nat) : Outside ([] : List (Block width)) n := by
  simp [Outside]

/-- Of a number, the mask of its leading bits keeps what the division by the rest keeps. -/
theorem and_highMask {x w : Nat} (k : Nat) (hx : x < 2 ^ (w + k)) :
    x &&& (2 ^ w - 1) * 2 ^ k = x / 2 ^ k * 2 ^ k := by
  have hmod : (x &&& (2 ^ w - 1) * 2 ^ k) % 2 ^ k = 0 := by
    rw [Nat.and_mod_two_pow, Nat.mul_mod_left, Nat.and_zero]
  have hdiv : (x &&& (2 ^ w - 1) * 2 ^ k) / 2 ^ k = x / 2 ^ k := by
    rw [Nat.and_div_two_pow, Nat.mul_div_cancel _ (Nat.two_pow_pos k), Nat.and_two_pow_sub_one_eq_mod]
    apply Nat.mod_eq_of_lt
    rw [Nat.div_lt_iff_lt_mul (Nat.two_pow_pos k), ← Nat.pow_add]
    exact hx
  have hsplit := Nat.div_add_mod (x &&& (2 ^ w - 1) * 2 ^ k) (2 ^ k)
  rw [hmod, hdiv, Nat.add_zero, Nat.mul_comm] at hsplit
  exact hsplit.symm

end AddressBlock
