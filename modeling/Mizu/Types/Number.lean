import Mizu.Types.Value

/-!
# Number texts

How a number is read out of a JSON text: `parseI64`, `parseJsonNumberExact` and the grammar that every
number text of a document follows.

`parseJsonNumberExact_iff`: a number text is read as the number that it denotes.

Texts with an exponent are read through a 64-bit float, which is not modelled: `ScaledF64` stands for
reading the float, scaling and rounding it.
-/

namespace Mizu

open List

/-- A text as a float, scaled and rounded; `none` if it is no float, `some none` if the result is out
of range. -/
abbrev ScaledF64 := List Char → Option (Option Int64)

/-! ## Reading -/

/-- `i64::from_str`. -/
def parseI64 (s : List Char) : Option Int64 :=
  let (negative, digits) : Bool × List Char :=
    match s with
    | '-' :: cs => (true, cs)
    | '+' :: cs => (false, cs)
    | cs => (false, cs)
  if digits.isEmpty || !digits.all Char.isDigit then none
  else
    let n : Int := Nat.ofDigitChars 10 digits 0
    i64TryFrom (if negative then -n else n)

/-- The loop over the fractional digits from the `i`-th on: what it adds up to, and whether the first
digit that is dropped rounds up. `none` at a character that is no digit, unless the loop has stopped
before it. -/
def fracLoop (i : Nat) (frac mult : Int) : List Char → Option (Int × Bool)
  | [] => some (frac, false)
  | c :: cs =>
    if !c.isDigit then none
    else
      let digit : Int := c.toNat - '0'.toNat
      if i < 8 then fracLoop (i + 1) (frac + digit * mult) (mult / 10) cs
      else if i = 8 ∧ digit ≥ 5 then some (frac, true)
      else fracLoop (i + 1) frac mult cs

/-- A number without fraction or exponent is an integer; with a fraction it is a decimal, rounded half
away from zero at the ninth digit. -/
def parsePlainNumber (s int frac : List Char) : Except MizuError Value :=
  match parseI64 int with
  | none =>
    .error (.securityViolation
      ("JSON integer `" ++ String.ofList int ++ "` exceeds the 64-bit range"))
  | some intPart =>
    if frac.isEmpty then .ok (.int intPart)
    else
      match fracLoop 0 0 (decimalScale / 10) frac with
      | none => .error (.parseError ("malformed JSON number `" ++ String.ofList s ++ "`"))
      | some (fracVal, roundUp) =>
        let fracVal := if roundUp then fracVal + 1 else fracVal
        match i64TryFrom (intPart.toInt * decimalScale) with
        | none =>
          .error (.securityViolation ("JSON number `" ++ String.ofList s ++
            "` exceeds the fixed-point range (±92,233,720,368.54775807)"))
        | some base =>
          -- `-0.5` has an integer part without a sign of its own.
          match i64TryFrom (if int.head? = some '-' then base.toInt - fracVal else base.toInt + fracVal) with
          | none =>
            .error (.securityViolation
              ("JSON number `" ++ String.ofList s ++ "` exceeds the fixed-point range"))
          | some scaled => .ok (.decimal scaled)

/-- `parse_json_number_exact`. -/
def parseJsonNumberExact (f64 : ScaledF64) (s : List Char) : Except MizuError Value :=
  let hasExponent := s.contains 'e' || s.contains 'E'
  let parts := s.splitOn '.'
  if parts.length > 2 || hasExponent then
    match f64 s with
    | none => .error (.parseError ("malformed JSON number `" ++ String.ofList s ++ "`"))
    | some none => .error (.securityViolation "JSON number exceeds representable range")
    | some (some scaled) => .ok (.decimal scaled)
  else parsePlainNumber s (parts[0]?.getD ['0']) (parts[1]?.getD [])

/-! ## The grammar -/

def isJsonExponent : List Char → Bool
  | [] => true
  | c :: cs =>
    let digits : List Char :=
      match cs with
      | '+' :: ds => ds
      | '-' :: ds => ds
      | ds => ds
    (c = 'e' || c = 'E') && !digits.isEmpty && digits.all Char.isDigit

def isJsonFraction : List Char → Bool
  | '.' :: cs =>
    !(cs.takeWhile Char.isDigit).isEmpty && isJsonExponent (cs.dropWhile Char.isDigit)
  | cs => isJsonExponent cs

/-- The grammar of JSON numbers. -/
def isJsonNumber (s : List Char) : Bool :=
  let unsigned := if s.head? = some '-' then s.tail else s
  let int := unsigned.takeWhile Char.isDigit
  !int.isEmpty && (int.length = 1 || int.head? ≠ some '0') &&
    isJsonFraction (unsigned.dropWhile Char.isDigit)

/-- `serde_json::Number` keeps the text. -/
structure JsonNumber where
  text : List Char
  valid : isJsonNumber text = true

/-- `serde_json::Number::from_str`. -/
def JsonNumber.fromStr (s : List Char) : Option JsonNumber :=
  if h : isJsonNumber s then some ⟨s, h⟩ else none

example : ["-0.5", "5.0", "0", "1e9", "-12.50E-3"].map (isJsonNumber ·.toList) =
    [true, true, true, true, true] := by decide
example : ["", "-", "01", "1.", ".5", "1e", "+1", "1.5.2"].map (isJsonNumber ·.toList) =
    [false, false, false, false, false, false, false, false] := by decide
example : (parseJsonNumberExact (fun _ => none) "-0.123456785".toList).toOption.map Value.display =
    some "-0.12345679" := by decide +kernel

/-! ## What a text denotes -/

/-- The number that digits spell. -/
def digitsVal (cs : List Char) : Nat := Nat.ofDigitChars 10 cs 0

def AllDigits (cs : List Char) : Prop := ∀ c ∈ cs, c.isDigit = true

/-- The nearest integer to `num / den`; a tie goes up. -/
def roundHalfUp (num den : Nat) : Nat := (2 * num + den) / (2 * den)

def signOf (negative : Bool) : List Char := if negative then ['-'] else []

def signed (negative : Bool) (n : Nat) : Int := if negative then -n else n

/-- The number that a text denotes: an integer as it is, a fraction rounded to eight digits, ties away
from zero, and with an exponent what the float comes to. -/
inductive NumberDenotes (f64 : ScaledF64) : List Char → Value → Prop
  | int {negative : Bool} {int : List Char} {i : Int64} (nonempty : int ≠ []) (digits : AllDigits int)
    (value : i.toInt = signed negative (digitsVal int)) :
    NumberDenotes f64 (signOf negative ++ int) (.int i)
  | decimal {negative : Bool} {int frac : List Char} {i : Int64} (nonempty : int ≠ [])
    (digits : AllDigits int) (fracNonempty : frac ≠ []) (fracDigits : AllDigits frac)
    (value : i.toInt = signed negative (roundHalfUp
      ((digitsVal int * 10 ^ frac.length + digitsVal frac) * 10 ^ 8) (10 ^ frac.length))) :
    NumberDenotes f64 (signOf negative ++ int ++ '.' :: frac) (.decimal i)
  | exponent {s : List Char} {i : Int64} (hasExponent : 'e' ∈ s ∨ 'E' ∈ s)
    (value : f64 s = some (some i)) : NumberDenotes f64 s (.decimal i)

theorem i64TryFrom_eq_some {n : Int} {i : Int64} : i64TryFrom n = some i ↔ i.toInt = n := by
  unfold i64TryFrom
  constructor
  · intro h
    split at h
    · rename_i hrange
      obtain rfl := Option.some.inj h
      exact Int64.toInt_ofInt_of_le (by omega) (by omega)
    · cases h
  · rintro rfl
    have hlo := Int64.le_toInt i
    have hhi := Int64.toInt_lt i
    rw [if_pos ⟨by omega, by omega⟩, Int64.ofInt_toInt]

theorem isDigit_ne {c d : Char} (h : c.isDigit = true) (hd : d.isDigit = false) : c ≠ d := by
  grind

variable {cs : List Char}

theorem AllDigits.notMem (h : AllDigits cs) {d : Char} (hd : d.isDigit = false) :
    d ∉ cs := fun hmem => isDigit_ne (h d hmem) hd rfl

theorem AllDigits.cons {c : Char} (h : AllDigits (c :: cs)) : c.isDigit = true ∧ AllDigits cs :=
  ⟨h c (mem_cons_self ..), fun d hd => h d (mem_cons_of_mem _ hd)⟩

theorem AllDigits.all (h : AllDigits cs) : cs.all Char.isDigit = true :=
  all_eq_true.mpr h

theorem digitsVal_append (as cs : List Char) :
    digitsVal (as ++ cs) = digitsVal as * 10 ^ cs.length + digitsVal cs := by
  rw [digitsVal, Nat.ofDigitChars_append, Nat.ofDigitChars_eq_ofDigitChars_zero, Nat.mul_comm]
  rfl

theorem digitsVal_cons (c : Char) (cs : List Char) :
    digitsVal (c :: cs) = (c.toNat - '0'.toNat) * 10 ^ cs.length + digitsVal cs := by
  rw [← singleton_append, digitsVal_append]
  simp [digitsVal, Nat.ofDigitChars]

theorem digit_lt {c : Char} (h : c.isDigit = true) : '0'.toNat ≤ c.toNat ∧ c.toNat - '0'.toNat < 10 := by
  simp only [Char.isDigit, ge_iff_le, Bool.and_eq_true, decide_eq_true_eq] at h
  have hlo : 48 ≤ c.toNat := h.1
  have hhi : c.toNat ≤ 57 := h.2
  exact ⟨hlo, by show c.toNat - 48 < 10; omega⟩

theorem digitsVal_lt (h : AllDigits cs) : digitsVal cs < 10 ^ cs.length := by
  induction cs with
  | nil => exact Nat.one_pos
  | cons c cs ih =>
    obtain ⟨hc, hcs⟩ := h.cons
    have hdigit := (digit_lt hc).2
    have htail := ih hcs
    rw [digitsVal_cons, length_cons, Nat.pow_succ]
    have hmul : (c.toNat - '0'.toNat) * 10 ^ cs.length ≤ 9 * 10 ^ cs.length :=
      Nat.mul_le_mul_right _ (by omega)
    omega

theorem parseI64_digits (negative : Bool) {digits : List Char} (hne : digits ≠ [])
    (hdigits : AllDigits digits) :
    parseI64 (signOf negative ++ digits) = i64TryFrom (signed negative (digitsVal digits)) := by
  have hcond : (digits.isEmpty || !digits.all Char.isDigit) = false := by
    simp [hdigits.all, isEmpty_eq_false_iff.mpr hne]
  cases negative with
  | true => simp only [signOf, if_true, singleton_append, parseI64, hcond, Bool.false_eq_true,
      if_false, signed, digitsVal]
  | false =>
    obtain ⟨c, cs, rfl⟩ := exists_cons_of_ne_nil hne
    have hminus : c ≠ '-' := isDigit_ne hdigits.cons.1 (by decide)
    have hplus : c ≠ '+' := isDigit_ne hdigits.cons.1 (by decide)
    simp only [signOf, Bool.false_eq_true, if_false, nil_append, signed, digitsVal]
    unfold parseI64
    split
    · grind

/-! ## The fraction -/

theorem fracLoop_kept (h : AllDigits cs) : ∀ {i : Nat} (frac : Int) (rest : List Char), i + cs.length ≤ 8 →
    fracLoop i frac (10 ^ (8 - i) / 10) (cs ++ rest) =
      fracLoop (i + cs.length) (frac + digitsVal cs * 10 ^ (8 - (i + cs.length)))
        (10 ^ (8 - (i + cs.length)) / 10) rest := by
  induction cs with
  | nil =>
    intro i frac rest hle
    simp [digitsVal]
  | cons c cs ih =>
    intro i frac rest hle
    obtain ⟨hc, hcs⟩ := h.cons
    rw [length_cons] at hle
    have hpow : (10 : Int) ^ (8 - i) / 10 = 10 ^ (8 - (i + 1)) := by
      rw [show 8 - i = 8 - (i + 1) + 1 by omega, Int.pow_succ, Int.mul_ediv_cancel _ (by decide)]
    have hpos : (((c.toNat - '0'.toNat : Nat) : Int)) = (c.toNat : Int) - '0'.toNat :=
      Int.ofNat_sub (digit_lt hc).1
    rw [cons_append, fracLoop, if_neg (by simp [hc]), if_pos (by omega), hpow,
      ih hcs _ _ (by omega), digitsVal_cons, length_cons]
    have hsplit : (10 : Int) ^ (8 - (i + 1)) = 10 ^ cs.length * 10 ^ (8 - (i + 1 + cs.length)) := by
      rw [← Int.pow_add]
      congr 1
      omega
    rw [show i + (cs.length + 1) = i + 1 + cs.length by omega]
    congr 1
    rw [hsplit, ← hpos]
    push_cast
    ring

theorem fracLoop_dropped (h : AllDigits cs) : ∀ {i : Nat} (frac mult : Int), 8 < i →
    fracLoop i frac mult cs = some (frac, false) := by
  induction cs with
  | nil => intros; rfl
  | cons c cs ih =>
    intro i frac mult hi
    obtain ⟨hc, hcs⟩ := h.cons
    rw [fracLoop, if_neg (by simp [hc]), if_neg (by omega), if_neg (by omega)]
    exact ih hcs frac mult (by omega)

theorem roundHalfUp_exact (n m : Nat) (hm : 0 < m) : roundHalfUp (n * m) m = n := by
  unfold roundHalfUp
  rw [show 2 * (n * m) + m = m + n * (2 * m) by ring, Nat.add_mul_div_right _ _ (by omega),
    Nat.div_eq_of_lt (by omega), Nat.zero_add]

/-- A quotient is rounded up if its remainder is at least half. -/
theorem roundHalfUp_add (q r m : Nat) (hr : r < m) :
    roundHalfUp (q * m + r) m = q + if m ≤ 2 * r then 1 else 0 := by
  unfold roundHalfUp
  rw [show 2 * (q * m + r) + m = 2 * r + m + q * (2 * m) by ring,
    Nat.add_mul_div_right _ _ (by omega), Nat.add_comm]
  congr 1
  split
  · rw [Nat.div_eq_iff (by omega)]
    omega
  · exact Nat.div_eq_of_lt (by omega)

theorem roundHalfUp_scale (num den k : Nat) (hk : 0 < k) :
    roundHalfUp (num * k) (den * k) = roundHalfUp num den := by
  unfold roundHalfUp
  rw [show 2 * (num * k) + den * k = (2 * num + den) * k by ring,
    show 2 * (den * k) = 2 * den * k by ring, Nat.mul_div_mul_right _ _ hk]

/-- The loop rounds the fraction to eight digits. -/
theorem fracLoop_rounds {frac : List Char} (h : AllDigits frac) :
    ∃ fracVal roundUp, fracLoop 0 0 (decimalScale / 10) frac = some (fracVal, roundUp) ∧
      (if roundUp then fracVal + 1 else fracVal) =
        (roundHalfUp (digitsVal frac * 10 ^ 8) (10 ^ frac.length) : Nat) := by
  have hmult : decimalScale / 10 = 10 ^ (8 - 0) / 10 := rfl
  by_cases hlen : frac.length ≤ 8
  · refine ⟨digitsVal frac * 10 ^ (8 - frac.length), false, ?_, ?_⟩
    · have hkept := fracLoop_kept h 0 [] (i := 0) (by omega)
      rw [append_nil] at hkept
      rw [hmult, hkept, Nat.zero_add, Int.zero_add]
      rfl
    · have hpow : 10 ^ 8 = 10 ^ (8 - frac.length) * 10 ^ frac.length := by
        rw [← Nat.pow_add]
        congr 1
        omega
      rw [hpow, ← Nat.mul_assoc, roundHalfUp_exact _ _ (Nat.pow_pos (by decide))]
      simp
  · -- Eight digits, the one that rounds, and the rest.
    have hcut : (frac.take 8).length = 8 := by
      rw [length_take]
      omega
    obtain ⟨d, rest, hdrop⟩ : ∃ d rest, frac.drop 8 = d :: rest := by
      refine exists_cons_of_ne_nil fun hnil => ?_
      have hzero := congrArg List.length hnil
      rw [length_drop, length_nil] at hzero
      omega
    have hfrac : frac = frac.take 8 ++ d :: rest := by rw [← hdrop, take_append_drop]
    have hhead : AllDigits (frac.take 8) := fun c hc => h c (mem_of_mem_take hc)
    have htail : AllDigits (d :: rest) := fun c hc => h c (by rw [hfrac]; exact mem_append_right _ hc)
    obtain ⟨hd, hrest⟩ := htail.cons
    generalize frac.take 8 = head at *
    subst hfrac
    have hkept := fracLoop_kept hhead 0 (d :: rest) (i := 0) (by omega)
    simp only [hcut, Nat.zero_add, Nat.sub_self, Int.pow_zero, Int.mul_one, Int.zero_add] at hkept
    have hdigit := (digit_lt hd).1
    have hnum : roundHalfUp (digitsVal (head ++ d :: rest) * 10 ^ 8) (10 ^ (head ++ d :: rest).length) =
        digitsVal head + if 5 ≤ d.toNat - '0'.toNat then 1 else 0 := by
      have hlt := digitsVal_lt hrest
      have hten := (digit_lt hd).2
      rw [length_append, hcut, length_cons, Nat.add_comm 8, Nat.pow_add,
        roundHalfUp_scale _ _ _ (by decide), digitsVal_append, length_cons,
        roundHalfUp_add _ _ _ (by simpa using digitsVal_lt htail), digitsVal_cons, Nat.pow_succ]
      generalize 10 ^ rest.length = m at *
      congr 1
      refine if_congr ?_ rfl rfl
      generalize d.toNat - '0'.toNat = n at *
      constructor
      · intro hle
        by_contra hn
        have hmul : n * m ≤ 4 * m := Nat.mul_le_mul_right _ (by omega)
        omega
      · intro hle
        have hmul : 5 * m ≤ n * m := Nat.mul_le_mul_right _ hle
        omega
    rw [hmult, hkept, hnum, fracLoop, if_neg (by simp [hd]), if_neg (by decide)]
    by_cases hup : 5 ≤ d.toNat - '0'.toNat
    · rw [if_pos ⟨rfl, by omega⟩]
      exact ⟨_, true, rfl, by rw [if_pos hup]; rfl⟩
    · rw [if_neg (fun hc => hup (by omega)), fracLoop_dropped hrest _ _ (by decide)]
      exact ⟨_, false, rfl, by rw [if_neg hup]; rfl⟩

/-! ## Reading what a text denotes -/

theorem signed_scaled (negative : Bool) (a f : Nat) :
    signed negative (a * 10 ^ 8 + f) =
      if negative = true then signed negative a * decimalScale - f
      else signed negative a * decimalScale + f := by
  have hscale : decimalScale = ((10 ^ 8 : Nat) : Int) := rfl
  cases negative with
  | true =>
    simp only [signed, if_true, hscale]
    push_cast
    ring
  | false =>
    simp only [signed, Bool.false_eq_true, if_false, hscale]
    push_cast
    ring

theorem i64TryFrom_isSome {n : Int} (hlo : -2 ^ 63 ≤ n) (hhi : n < 2 ^ 63) : ∃ i : Int64, i.toInt = n := by
  refine ⟨Int64.ofInt n, i64TryFrom_eq_some.mp ?_⟩
  rw [i64TryFrom, if_pos ⟨hlo, hhi⟩]

/-- If the whole fits, so do its parts. -/
theorem i64_parts {negative : Bool} {a f : Nat} {i : Int64}
    (h : i.toInt = signed negative (a * 10 ^ 8 + f)) :
    ∃ p base : Int64, p.toInt = signed negative a ∧ base.toInt = p.toInt * decimalScale ∧
      i.toInt = if negative = true then base.toInt - f else base.toInt + f := by
  have hlo := Int64.le_toInt i
  have hhi := Int64.toInt_lt i
  have hscale : decimalScale = 100000000 := rfl
  rw [signed_scaled, hscale] at h
  rw [hscale]
  -- Neither part is farther from zero than the whole.
  have hrange : -2 ^ 63 ≤ signed negative a * 100000000 ∧ signed negative a * 100000000 < 2 ^ 63 := by
    cases negative <;> simp only [signed, if_true, Bool.false_eq_true, if_false] at h ⊢ <;> omega
  obtain ⟨base, hbase⟩ := i64TryFrom_isSome hrange.1 hrange.2
  obtain ⟨p, hp⟩ := i64TryFrom_isSome (n := signed negative a) (by omega) (by omega)
  exact ⟨p, base, hp, by rw [hbase, hp], by rw [hbase]; exact h⟩

section Exact

variable (f64 : ScaledF64) {negative : Bool} {int frac : List Char}

theorem signOf_notMem (negative : Bool) {d : Char} (hd : d ≠ '-') : d ∉ signOf negative := by
  cases negative <;> simp [signOf, hd]

theorem mem_intText {c d : Char} (hint : AllDigits int) (hd : d.isDigit = false) (hminus : d ≠ '-')
    (hc : c ∈ signOf negative ++ int) : c ≠ d := by
  rintro rfl
  rcases mem_append.mp hc with h | h
  · exact signOf_notMem negative hminus h
  · exact hint.notMem hd h

theorem parse_int (hne : int ≠ []) (hint : AllDigits int) :
    parseJsonNumberExact f64 (signOf negative ++ int) =
      match i64TryFrom (signed negative (digitsVal int)) with
      | some i => .ok (.int i)
      | none => .error (.securityViolation
        ("JSON integer `" ++ String.ofList (signOf negative ++ int) ++ "` exceeds the 64-bit range")) := by
  have hsplit : (signOf negative ++ int).splitOn '.' = [signOf negative ++ int] :=
    splitOn_eq_singleton fun hmem => mem_intText hint (by decide) (by decide) hmem rfl
  have hexp : ((signOf negative ++ int).contains 'e' || (signOf negative ++ int).contains 'E') = false := by
    have he : ∀ d : Char, d.isDigit = false → d ≠ '-' → (signOf negative ++ int).contains d = false :=
      fun d hd hminus => by
        rw [contains_eq_mem]
        exact decide_eq_false fun hmem => mem_intText hint hd hminus hmem rfl
    rw [he 'e' (by decide) (by decide), he 'E' (by decide) (by decide)]
    rfl
  simp only [parseJsonNumberExact, hsplit, hexp, parsePlainNumber]
  simp only [length_singleton, gt_iff_lt, Nat.reduceLT, decide_false, Bool.or_self,
    Bool.false_eq_true, if_false, List.getElem?_cons_zero, Option.getD_some,
    parseI64_digits negative hne hint]
  cases i64TryFrom (signed negative (digitsVal int)) <;> rfl

/-- The whole number, scaled. -/
theorem scaled_eq (hfrac : 0 < 10 ^ frac.length) :
    digitsVal int * 10 ^ 8 + roundHalfUp (digitsVal frac * 10 ^ 8) (10 ^ frac.length) =
      roundHalfUp ((digitsVal int * 10 ^ frac.length + digitsVal frac) * 10 ^ 8) (10 ^ frac.length) := by
  generalize 10 ^ frac.length = m at *
  unfold roundHalfUp
  rw [show 2 * ((digitsVal int * m + digitsVal frac) * 10 ^ 8) + m =
    2 * (digitsVal frac * 10 ^ 8) + m + digitsVal int * 10 ^ 8 * (2 * m) by ring,
    Nat.add_mul_div_right _ _ (by omega), Nat.add_comm]

theorem parse_decimal (hne : int ≠ []) (hint : AllDigits int) (hfne : frac ≠ [])
    (hfrac : AllDigits frac) :
    (∀ i : Int64, i.toInt = signed negative (roundHalfUp
        ((digitsVal int * 10 ^ frac.length + digitsVal frac) * 10 ^ 8) (10 ^ frac.length)) →
      parseJsonNumberExact f64 (signOf negative ++ int ++ '.' :: frac) = .ok (.decimal i)) ∧
    ∀ v, parseJsonNumberExact f64 (signOf negative ++ int ++ '.' :: frac) = .ok v →
      ∃ i : Int64, v = .decimal i ∧ i.toInt = signed negative (roundHalfUp
        ((digitsVal int * 10 ^ frac.length + digitsVal frac) * 10 ^ 8) (10 ^ frac.length)) := by
  have hsplit : (signOf negative ++ int ++ '.' :: frac).splitOn '.' = [signOf negative ++ int, frac] := by
    rw [splitOn_append_cons_self_of_not_mem, splitOn_eq_singleton]
    · exact hfrac.notMem (by decide)
    · exact fun hmem => mem_intText hint (by decide) (by decide) hmem rfl
  have hexp : ((signOf negative ++ int ++ '.' :: frac).contains 'e' ||
      (signOf negative ++ int ++ '.' :: frac).contains 'E') = false := by
    have he : ∀ d : Char, d.isDigit = false → d ≠ '-' → d ≠ '.' →
        (signOf negative ++ int ++ '.' :: frac).contains d = false := fun d hd hminus hdot => by
      rw [contains_eq_mem]
      refine decide_eq_false fun hmem => ?_
      rcases mem_append.mp hmem with hmem | hmem
      · exact mem_intText hint hd hminus hmem rfl
      rcases mem_cons.mp hmem with rfl | hmem
      · exact hdot rfl
      · exact hfrac.notMem hd hmem
    rw [he 'e' (by decide) (by decide) (by decide), he 'E' (by decide) (by decide) (by decide)]
    rfl
  have hhead : ((signOf negative ++ int).head? = some '-') ↔ negative = true := by
    cases negative with
    | true => simp [signOf]
    | false =>
      obtain ⟨c, cs, rfl⟩ := exists_cons_of_ne_nil hne
      have hminus : c ≠ '-' := isDigit_ne hint.cons.1 (by decide)
      simp [signOf, hminus]
  obtain ⟨fracVal, roundUp, hloop, hval⟩ := fracLoop_rounds hfrac
  have htotal := @scaled_eq int frac (Nat.pow_pos (by decide))
  have hparse : parseJsonNumberExact f64 (signOf negative ++ int ++ '.' :: frac) =
      parsePlainNumber (signOf negative ++ int ++ '.' :: frac) (signOf negative ++ int) frac := by
    simp only [parseJsonNumberExact, hsplit, hexp]
    rfl
  rw [hparse, ← htotal]
  simp only [parsePlainNumber, parseI64_digits negative hne hint, isEmpty_eq_false_iff.mpr hfne,
    hloop, hval, hhead, Bool.false_eq_true, if_false]
  constructor
  · intro i hi
    obtain ⟨p, base, hp, hbase, hsum⟩ := i64_parts hi
    simp only [i64TryFrom_eq_some.mpr hp, i64TryFrom_eq_some.mpr hbase,
      i64TryFrom_eq_some.mpr hsum]
  · intro v hv
    split at hv
    · cases hv
    rename_i p hp
    split at hv
    · cases hv
    rename_i base hbase
    split at hv
    · cases hv
    rename_i i hi
    cases hv
    rw [i64TryFrom_eq_some] at hp hbase hi
    refine ⟨i, rfl, ?_⟩
    rw [hi, hbase, hp]
    exact (signed_scaled negative _ _).symm

theorem parse_exponent {s : List Char} (h : 'e' ∈ s ∨ 'E' ∈ s) (i : Int64) :
    (f64 s = some (some i) → parseJsonNumberExact f64 s = .ok (.decimal i)) ∧
      ∀ v, parseJsonNumberExact f64 s = .ok v → ∃ j, v = .decimal j ∧ f64 s = some (some j) := by
  have hexp : (s.contains 'e' || s.contains 'E') = true := by grind
  simp only [parseJsonNumberExact, hexp, Bool.or_true, if_true]
  constructor
  · intro hf
    rw [hf]
  · grind

end Exact

/-- The parts of a number text: sign, digits, and then nothing, a fraction or an exponent. -/
theorem isJsonNumber_parts {s : List Char} (h : isJsonNumber s = true) :
    ∃ negative int, int ≠ [] ∧ AllDigits int ∧
      (s = signOf negative ++ int ∨
        (∃ frac, frac ≠ [] ∧ AllDigits frac ∧ s = signOf negative ++ int ++ '.' :: frac) ∨
        ('e' ∈ s ∨ 'E' ∈ s)) := by
  have hdigits : ∀ cs : List Char, AllDigits (cs.takeWhile Char.isDigit) := fun cs =>
    all_eq_true.mp all_takeWhile
  have hexponent : ∀ {cs : List Char}, isJsonExponent cs = true → cs = [] ∨ 'e' ∈ cs ∨ 'E' ∈ cs := by
    intro cs hcs
    cases cs with
    | nil => exact .inl rfl
    | cons c cs =>
      simp only [isJsonExponent, Bool.and_eq_true, Bool.or_eq_true, decide_eq_true_eq] at hcs
      obtain ⟨⟨rfl | rfl, -⟩, -⟩ := hcs
      · exact .inr (.inl (mem_cons_self ..))
      · exact .inr (.inr (mem_cons_self ..))
  have hsign : s = signOf (s.head? = some '-') ++ (if s.head? = some '-' then s.tail else s) := by
    by_cases hminus : s.head? = some '-'
    · obtain ⟨cs, rfl⟩ := List.head?_eq_some_iff.mp hminus
      simp [signOf]
    · simp [signOf, hminus]
  simp only [isJsonNumber, Bool.and_eq_true] at h
  generalize (if s.head? = some '-' then s.tail else s) = unsigned at h hsign
  generalize decide (s.head? = some '-') = negative at hsign
  obtain ⟨⟨hne, -⟩, hrest⟩ := h
  have hunsigned := takeWhile_append_dropWhile (p := Char.isDigit) (l := unsigned)
  refine ⟨negative, unsigned.takeWhile Char.isDigit, by simpa using hne, hdigits _, ?_⟩
  generalize unsigned.takeWhile Char.isDigit = int at *
  generalize unsigned.dropWhile Char.isDigit = rest at *
  rw [← hunsigned, ← append_assoc] at hsign
  unfold isJsonFraction at hrest
  split at hrest
  · rename_i cs
    rw [Bool.and_eq_true] at hrest
    have hcs := takeWhile_append_dropWhile (p := Char.isDigit) (l := cs)
    rcases hexponent hrest.2 with hnil | hmem
    · grind
    · grind
  · grind

/-- A number text is read as the number that it denotes, and refused if that does not fit. -/
theorem parseJsonNumberExact_iff (f64 : ScaledF64) (n : JsonNumber) (v : Value) :
    parseJsonNumberExact f64 n.text = .ok v ↔ NumberDenotes f64 n.text v := by
  constructor
  · intro h
    obtain ⟨negative, int, hne, hint, hs | ⟨frac, hfne, hfrac, hs⟩ | hexp⟩ := isJsonNumber_parts n.valid
    · rw [hs] at h ⊢
      rw [parse_int f64 hne hint] at h
      split at h
      · rename_i i hi
        cases h
        exact .int hne hint (i64TryFrom_eq_some.mp hi)
      · cases h
    · rw [hs] at h ⊢
      obtain ⟨i, rfl, hi⟩ := (parse_decimal f64 hne hint hfne hfrac).2 v h
      exact .decimal hne hint hfne hfrac hi
    · obtain ⟨i, rfl, hi⟩ := (parse_exponent f64 hexp 0).2 v h
      exact .exponent hexp hi
  · intro h
    generalize n.text = s at h
    cases h with
    | int hne hint hi => rw [parse_int f64 hne hint, i64TryFrom_eq_some.mpr hi]
    | decimal hne hint hfne hfrac hi => exact (parse_decimal f64 hne hint hfne hfrac).1 _ hi
    | exponent hexp hi => exact (parse_exponent f64 hexp _).1 hi

end Mizu
