import Mizu.Lib.RoundToEven
import Mizu.Logic.Parse.Assignment
import Mizu.Network.Vault

/-!
# The root timers of a logic block

`parseRootTimers` reads the headers `timer <interval> -> <action>`. An interval is a number of milliseconds, a number of
seconds, or a variable: `readInterval` decides it by the last letters of the text.

* `readInterval_denotes_iff`: which texts are read as what they denote. A name that ends in `s` is read without it, and a
  number of seconds goes through two roundings of a 64-bit float.
* `rootTimers_denote_iff`: the timers of an accepted block.
-/

namespace Mizu

open List Option

open RoundToEven (roundTo Rounds)

/-! ## Floats -/

/-- A 64-bit float. A finite one is rounded to 53 bits; what is out of its range of exponents is below every
millisecond or above every `u64`. -/
inductive F64 where
  | nan
  | infinite (negative : Bool)
  | finite (negative : Bool) (magnitude : ℚ)
  deriving DecidableEq, Repr

/-- The exponent of a number text. -/
def parseExponent : List Char → Option Int
  | [] => some 0
  | c :: cs =>
    let (negative, digits) : Bool × List Char :=
      match cs with
      | '-' :: ds => (true, ds)
      | '+' :: ds => (false, ds)
      | ds => (false, ds)
    if (c = 'e' ∨ c = 'E') ∧ digits ≠ [] ∧ digits.all Char.isDigit then
      some (if negative then -(digitsVal digits : Int) else digitsVal digits)
    else none

/-- An unsigned decimal number. -/
def parseDecimal (cs : List Char) : Option ℚ :=
  let int := cs.takeWhile Char.isDigit
  let rest := cs.dropWhile Char.isDigit
  let (frac, rest) : List Char × List Char :=
    match rest with
    | '.' :: cs => (cs.takeWhile Char.isDigit, cs.dropWhile Char.isDigit)
    | rest => ([], rest)
  if int = [] ∧ frac = [] then none
  else (parseExponent rest).map fun e => (digitsVal (int ++ frac) : ℚ) * 10 ^ (e - (frac.length : Int))

/-- `str::parse::<f64>`. -/
def parseF64 (cs : List Char) : Option F64 :=
  let (negative, body) : Bool × List Char :=
    match cs with
    | '-' :: cs => (true, cs)
    | '+' :: cs => (false, cs)
    | cs => (false, cs)
  let word := body.map Char.toLower
  if word = "inf".toList ∨ word = "infinity".toList then some (.infinite negative)
  else if word = "nan".toList then some .nan
  else (parseDecimal body).map fun q => .finite negative (roundTo 53 q)

/-- `(s_val * 1000.0) as u64`. -/
def secondsToMillis : F64 → Nat
  | .nan => 0
  | .infinite negative => if negative then 0 else u64Max
  | .finite negative magnitude => if negative then 0 else min ⌊roundTo 53 (magnitude * 1000)⌋.toNat u64Max

/-! ## Headers -/

/-- A plain number, or else a variable. -/
def readMillis (text : List Char) : TimerInterval :=
  match parseU64 (String.ofList text) with
  | some ms => .millis ms
  | none => .var (String.ofList text)

/-- The interval of a header. -/
def readInterval (intervalStr : List Char) : TimerInterval :=
  if "ms".toList.isSuffixOf intervalStr then readMillis (trimChars (intervalStr.take (intervalStr.length - 2)))
  else if "s".toList.isSuffixOf intervalStr then
    let sStr := trimChars (intervalStr.take (intervalStr.length - 1))
    match parseF64 sStr with
    | some seconds => .millis (secondsToMillis seconds)
    | none => .var (String.ofList sStr)
  else readMillis intervalStr

/-- `RootTimer`, as it is declared. -/
structure DeclaredTimer where
  interval : TimerInterval
  action : ActionTree
  deriving Repr

def maxRootTimers : Nat := 64

section Headers

variable (env : ActionEnv)

/-- What stands behind `timer ` on a line with the least indent. -/
def timerRest (baseline : Nat) (rawLine : List Char) : Option (List Char) :=
  let stripped := trimEnd (rawLine.drop baseline)
  if (trimChars rawLine).isEmpty || leadingSpaces rawLine ≠ baseline then none
  else if "timer ".toList.isPrefixOf stripped then some (stripped.drop 6)
  else none

/-- The timers of some lines, behind `timers`. -/
def parseTimerLines (baseline : Nat) (timers : List DeclaredTimer) :
    List (List Char) → Except MizuError (List DeclaredTimer)
  | [] => .ok timers
  | rawLine :: rawLines =>
    match timerRest baseline rawLine with
    | none => parseTimerLines baseline timers rawLines
    | some rest =>
      match splitOnText "->".toList rest with
      | none =>
        .error (.parseError ("timer declaration missing `->`: `timer " ++ String.ofList rest ++ "`"))
      | some (intervalStr, actionStr) =>
        let interval := readInterval (trimChars intervalStr)
        if timers.length = maxRootTimers then
          .error (.parseError ("document declares more than " ++ toString maxRootTimers ++ " root `timer` " ++
            "declarations; each one is an independent event source and the total dispatch rate must stay bounded"))
        else
          match parseActionWithUrls { env with registry := none } (trimChars actionStr) with
          | .error e => .error e
          | .ok action => parseTimerLines baseline (timers ++ [⟨interval, action⟩]) rawLines

/-- The least indent of the lines that are not blank. -/
def baselineOf (rawLines : List (List Char)) : Nat :=
  (((rawLines.filter fun l => !(trimChars l).isEmpty).map leadingSpaces).min?).getD 0

/-- `parse_root_timers`. -/
def parseRootTimers (logicContent : List Char) : Except MizuError (List DeclaredTimer) :=
  parseTimerLines env (baselineOf (lines logicContent)) [] (lines logicContent)

end Headers

/-! ## What an interval denotes -/

/-- A number as it is written. -/
inductive NumberText : List Char → ℚ → Prop where
  | whole {int : List Char} (nonempty : int ≠ []) (digits : AllDigits int) : NumberText int (digitsVal int)
  | fraction {int frac : List Char} (nonempty : int ≠ []) (digits : AllDigits int) (fracNonempty : frac ≠ [])
    (fracDigits : AllDigits frac) :
    NumberText (int ++ '.' :: frac) (digitsVal (int ++ frac) / 10 ^ frac.length)

/-- What an interval denotes: a name a variable, a number so many milliseconds or seconds. -/
inductive IntervalDenotes : List Char → TimerInterval → Prop where
  | ident {name : List Char} (h : IsIdent name) : IntervalDenotes name (.var (String.ofList name))
  | bare {digits : List Char} (nonempty : digits ≠ []) (h : AllDigits digits) :
    IntervalDenotes digits (.millis (digitsVal digits))
  | millis {digits blanks : List Char} (nonempty : digits ≠ []) (h : AllDigits digits)
    (hblanks : ∀ c ∈ blanks, isWhitespace c = true) :
    IntervalDenotes (digits ++ blanks ++ ['m', 's']) (.millis (digitsVal digits))
  | seconds {number blanks : List Char} {value : ℚ} {ms : Nat} (h : NumberText number value)
    (hblanks : ∀ c ∈ blanks, isWhitespace c = true) (hms : value * 1000 = ms) :
    IntervalDenotes (number ++ blanks ++ ['s']) (.millis ms)

/-- A number of seconds keeps its milliseconds: a thousand times the float nearest to it is nearest to a float that is
not below them, and not above the next one unless that is out of range. -/
def KeepsMillis (value : ℚ) (ms : Nat) : Prop :=
  ∃ K j L i : ℤ, Rounds 53 value K j ∧ Rounds 53 (K * 2 ^ j * 1000) L i ∧ ms ≤ (L : ℚ) * 2 ^ i ∧
    ((L : ℚ) * 2 ^ i < ms + 1 ∨ ms = u64Max)

/-- The intervals that are read right: a name that does not end in `s`, a number of milliseconds in range, or a number of
seconds that keeps them. -/
inductive Readable : List Char → Prop where
  | ident {name : List Char} (h : IsIdent name) (hlast : name.getLast? ≠ some 's') : Readable name
  | bare {digits : List Char} (nonempty : digits ≠ []) (h : AllDigits digits) (hlt : digitsVal digits ≤ u64Max) :
    Readable digits
  | millis {digits blanks : List Char} (nonempty : digits ≠ []) (h : AllDigits digits)
    (hblanks : ∀ c ∈ blanks, isWhitespace c = true) (hlt : digitsVal digits ≤ u64Max) :
    Readable (digits ++ blanks ++ ['m', 's'])
  | seconds {number blanks : List Char} {value : ℚ} {ms : Nat} (h : NumberText number value)
    (hblanks : ∀ c ∈ blanks, isWhitespace c = true) (hms : value * 1000 = ms) (hle : ms ≤ u64Max)
    (hkeeps : value = 0 ∨ KeepsMillis value ms) : Readable (number ++ blanks ++ ['s'])

/-! ## Digits -/

section Digits

variable {cs digits blanks : List Char} {c : Char}

theorem toDigit_of_isDigit (h : c.isDigit = true) : toDigit 10 c = some (c.toNat - '0'.toNat) := by
  obtain ⟨hlo, hlt⟩ := digit_lt h
  have hhi : c.toNat ≤ '9'.toNat := by grind
  rw [toDigit]
  simp only [if_pos (And.intro hlo hhi), filter_some, decide_eq_true hlt, if_true]

theorem spanDigits_of_digits (h : AllDigits cs) : spanDigits 10 cs = (cs.map fun c => c.toNat - '0'.toNat, []) := by
  induction cs with
  | nil => rfl
  | cons c cs ih =>
    obtain ⟨hc, hcs⟩ := h.cons
    rw [spanDigits, toDigit_of_isDigit hc, ih hcs]
    rfl

theorem parseU64_digits (hne : cs ≠ []) (h : AllDigits cs) :
    parseU64 (String.ofList cs) = if digitsVal cs ≤ u64Max then some (digitsVal cs) else none := by
  have hplus : ∀ rest, cs ≠ '+' :: rest := by
    rintro rest rfl
    cases h '+' mem_cons_self
  have hvalue : (cs.map fun c => c.toNat - '0'.toNat).foldl (fun n d => n * 10 + d) 0 = digitsVal cs := by
    rw [digitsVal, Nat.ofDigitChars_eq_foldl, foldl_map]
    simp only [Nat.mul_comm]
  have hempty : (cs.map fun c => c.toNat - '0'.toNat).isEmpty = false := by simpa using hne
  unfold parseU64
  rw [String.toList_ofList]
  split
  · rename_i rest
    exact absurd rfl (hplus rest)
  · simp only [spanDigits_of_digits h, hvalue, hempty, isEmpty_nil, Bool.not_true, Bool.or_false, Bool.false_or,
      decide_eq_true_eq]
    have hmax : u64Max = 2 ^ 64 - 1 := rfl
    by_cases hlt : digitsVal cs ≤ u64Max
    · rw [if_pos hlt, if_neg (by omega)]
    · rw [if_neg hlt, if_pos (by omega)]

/-- A text that starts with no digit and no sign is no number. -/
theorem parseU64_of_head (h : ∀ c ∈ cs.head?, toDigit 10 c = none ∧ c ≠ '+') : parseU64 (String.ofList cs) = none := by
  cases cs with
  | nil => rfl
  | cons c cs => grind [String.toList_ofList, spanDigits, parseU64]

theorem not_blank_of_isDigit (h : c.isDigit = true) : isWhitespace c = false := by
  grind [isWhitespace, digit_lt]

end Digits

variable {cs : List Char}

namespace NumberText

variable {number : List Char} {value : ℚ}

theorem starts (h : NumberText number value) : ∃ c rest, number = c :: rest ∧ c.isDigit = true := by
  cases h with
  | whole nonempty digits =>
    obtain ⟨c, rest, rfl⟩ := exists_cons_of_ne_nil nonempty
    exact ⟨c, rest, rfl, digits c mem_cons_self⟩
  | @fraction int frac nonempty digits =>
    obtain ⟨c, rest, rfl⟩ := exists_cons_of_ne_nil nonempty
    exact ⟨c, rest ++ '.' :: frac, rfl, digits c mem_cons_self⟩

theorem ends (h : NumberText number value) : ∃ c, number.getLast? = some c ∧ c.isDigit = true := by
  cases h with
  | whole nonempty digits => exact ⟨_, List.getLast?_eq_some_getLast nonempty, digits _ (getLast_mem nonempty)⟩
  | @fraction int frac nonempty digits fracNonempty fracDigits =>
    refine ⟨frac.getLast fracNonempty, ?_, fracDigits _ (getLast_mem fracNonempty)⟩
    rw [List.getLast?_append_cons, List.getLast?_cons, List.getLast?_eq_some_getLast fracNonempty]
    rfl

theorem nonneg (h : NumberText number value) : 0 ≤ value := by
  cases h with
  | whole => exact Nat.cast_nonneg _
  | fraction => positivity

theorem takeWhile_digits (h : AllDigits cs) : cs.takeWhile Char.isDigit = cs :=
  takeWhile_eq_self_iff.mpr h

theorem dropWhile_digits (h : AllDigits cs) : cs.dropWhile Char.isDigit = [] :=
  dropWhile_eq_nil_iff.mpr h

theorem parseDecimal_eq (h : NumberText number value) : parseDecimal number = some value := by
  cases h with
  | @whole int nonempty digits =>
    unfold parseDecimal
    simp [takeWhile_digits digits, dropWhile_digits digits, nonempty, parseExponent]
  | @fraction int frac nonempty digits fracNonempty fracDigits =>
    have htake : (int ++ '.' :: frac).takeWhile Char.isDigit = int := by
      rw [takeWhile_append_stop (by decide), takeWhile_digits digits]
    have hdrop : (int ++ '.' :: frac).dropWhile Char.isDigit = '.' :: frac := by
      rw [dropWhile_append_stop (by decide), dropWhile_digits digits, nil_append]
    unfold parseDecimal
    simp only [htake, hdrop, takeWhile_digits fracDigits, dropWhile_digits fracDigits, nonempty, false_and, if_false,
      parseExponent, map_some, zero_sub, zpow_neg, zpow_natCast, div_eq_mul_inv]

theorem parseF64_eq (h : NumberText number value) : parseF64 number = some (.finite false (roundTo 53 value)) := by
  obtain ⟨c, rest, rfl, hc⟩ := h.starts
  have hminus : c ≠ '-' := isDigit_ne hc (by decide)
  have hplus : c ≠ '+' := isDigit_ne hc (by decide)
  have hlower : c.toLower = c := by
    simp only [Char.isDigit, ge_iff_le, Bool.and_eq_true, decide_eq_true_eq] at hc
    exact dif_neg fun h => absurd (UInt32.le_trans h.1 hc.2) (by decide)
  have hi : c ≠ 'i' := isDigit_ne hc (by decide)
  have hn : c ≠ 'n' := isDigit_ne hc (by decide)
  unfold parseF64
  simp [hminus, hplus, hlower, hi, hn, h.parseDecimal_eq]

end NumberText

/-! ## Seconds -/

theorem secondsToMillis_zero : secondsToMillis (.finite false (roundTo 53 0)) = 0 := by
  simp [RoundToEven.roundTo_zero, secondsToMillis, zero_mul]

theorem roundTo_nonneg {p : ℕ} {x : ℚ} (hp : 2 ≤ p) (hx : 0 < x) : 0 < roundTo p x := by
  obtain ⟨K, j, h⟩ := RoundToEven.exists_rounds hp hx
  rw [RoundToEven.roundTo_of_rounds hp h]
  have hK : (0 : ℤ) < K := (by positivity : (0 : ℤ) < 2 ^ (p - 1)).trans_le h.low
  have hK' : (0 : ℚ) < K := by exact_mod_cast hK
  exact mul_pos hK' (RoundToEven.two_zpow_pos j)

/-- A cast keeps a number of milliseconds if it is in the millisecond above it. -/
theorem min_floor_eq_iff {d : ℚ} {ms : Nat} (hd : 0 < d) :
    min ⌊d⌋.toNat u64Max = ms ↔ ms ≤ u64Max ∧ ms ≤ d ∧ (d < ms + 1 ∨ ms = u64Max) := by
  have hfloor : 0 ≤ ⌊d⌋ := Int.floor_nonneg.mpr hd.le
  have hle : ∀ n : Nat, n ≤ ⌊d⌋.toNat ↔ (n : ℚ) ≤ d := by
    intro n
    rw [← Int.ofNat_le, Int.toNat_of_nonneg hfloor, Int.le_floor]
    simp
  have hlt : ⌊d⌋.toNat < ms + 1 ↔ d < ms + 1 := by
    rw [← not_le, hle, not_le]
    push_cast
    rfl
  rw [← hle, ← hlt]
  omega

theorem secondsToMillis_eq_iff {value : ℚ} (hvalue : 0 < value) {ms : Nat} :
    secondsToMillis (.finite false (roundTo 53 value)) = ms ↔ ms ≤ u64Max ∧ KeepsMillis value ms := by
  have hround := roundTo_nonneg (p := 53) (by decide) hvalue
  have hproduct : 0 < roundTo 53 value * 1000 := by positivity
  rw [secondsToMillis, if_neg Bool.false_ne_true, min_floor_eq_iff (roundTo_nonneg (by decide) hproduct)]
  refine and_congr_right fun _ => ⟨fun h => ?_, ?_⟩
  · obtain ⟨K, j, hKj⟩ := RoundToEven.exists_rounds (p := 53) (by decide) hvalue
    have hK := RoundToEven.roundTo_of_rounds (by decide) hKj
    rw [hK] at h hproduct
    obtain ⟨L, i, hLi⟩ := RoundToEven.exists_rounds (p := 53) (by decide) hproduct
    rw [RoundToEven.roundTo_of_rounds (by decide) hLi] at h
    exact ⟨K, j, L, i, hKj, hLi, h⟩
  · rintro ⟨K, j, L, i, hKj, hLi, h⟩
    rwa [RoundToEven.roundTo_of_rounds (by decide) hKj, RoundToEven.roundTo_of_rounds (by decide) hLi]

/-! ## The last letters -/

section Suffix

variable {cs name : List Char}

theorem readInterval_ms (cs : List Char) : readInterval (cs ++ ['m', 's']) = readMillis (trimChars cs) := by
  have hsuffix : "ms".toList.isSuffixOf (cs ++ ['m', 's']) = true := by
    rw [isSuffixOf_iff_suffix]
    exact suffix_append cs _
  have htake : (cs ++ ['m', 's']).take ((cs ++ ['m', 's']).length - 2) = cs := by simp
  rw [readInterval, if_pos hsuffix, htake]

theorem readInterval_s (h : cs.getLast? ≠ some 'm') :
    readInterval (cs ++ ['s']) =
      match parseF64 (trimChars cs) with
      | some seconds => .millis (secondsToMillis seconds)
      | none => .var (String.ofList (trimChars cs)) := by
  have hms : ¬"ms".toList.isSuffixOf (cs ++ ['s']) = true := by
    rw [isSuffixOf_iff_suffix]
    rintro ⟨ds, heq⟩
    have heq' : (ds ++ ['m']) ++ ['s'] = cs ++ ['s'] := by rw [← heq, append_assoc]; rfl
    refine h ?_
    rw [← append_cancel_right heq', List.getLast?_append]
    rfl
  have hs : "s".toList.isSuffixOf (cs ++ ['s']) = true := by simp
  have htake : (cs ++ ['s']).take ((cs ++ ['s']).length - 1) = cs := by simp
  rw [readInterval, if_neg hms, if_pos hs, htake]

theorem readInterval_other (h : cs.getLast? ≠ some 's') : readInterval cs = readMillis cs := by
  have hnot : ∀ ds : List Char, ¬(ds ++ ['s']).isSuffixOf cs = true := by
    intro ds hsuffix
    rw [isSuffixOf_iff_suffix] at hsuffix
    obtain ⟨es, rfl⟩ := hsuffix
    refine h ?_
    rw [← append_assoc, List.getLast?_append]
    rfl
  have hms : ¬"ms".toList.isSuffixOf cs = true := hnot ['m']
  have hs : ¬"s".toList.isSuffixOf cs = true := hnot []
  rw [readInterval, if_neg hms, if_neg hs]

theorem trimChars_length_le (cs : List Char) : (trimChars cs).length ≤ cs.length := by
  obtain ⟨ws, heq, -⟩ := trimEnd_split (trimStart cs)
  have hstart : (trimStart cs).length ≤ cs.length := (dropWhile_sublist _).length_le
  have hlength := congrArg List.length heq
  rw [length_append] at hlength
  rw [trimChars]
  omega

theorem readMillis_var (h : readMillis cs = .var (String.ofList name)) : cs = name := by
  grind [readMillis, String.ofList_injective]

/-- A name that ends in `s` is not read as itself. -/
theorem readInterval_ne_of_s (h : name.getLast? = some 's') : readInterval name ≠ .var (String.ofList name) := by
  obtain ⟨cs, rfl⟩ := List.getLast?_eq_some_iff.mp h
  intro heq
  have hshorter : ∀ ds : List Char, ds.length ≤ cs.length → trimChars ds ≠ cs ++ ['s'] := by
    grind [trimChars_length_le]
  by_cases hm : cs.getLast? = some 'm'
  · obtain ⟨ds, rfl⟩ := List.getLast?_eq_some_iff.mp hm
    rw [append_assoc, singleton_append, readInterval_ms] at heq
    refine hshorter ds (by simp) ?_
    rw [readMillis_var heq]
    simp
  · rw [readInterval_s hm] at heq
    split at heq
    · cases heq
    · exact hshorter cs (Nat.le_refl _) (String.ofList_injective (TimerInterval.var.inj heq))

end Suffix

/-! ## What is read right -/

section Readable

variable {cs digits blanks number name : List Char} {value : ℚ}

theorem toDigit_of_isIdentStart {c : Char} (h : isIdentStart c = true) : toDigit 10 c = none ∧ c ≠ '+' := by
  refine ⟨?_, ?_⟩
  · have hnot : ¬('0'.toNat ≤ c.toNat ∧ c.toNat ≤ '9'.toNat) := by
      rintro ⟨hlo, hhi⟩
      have h0 : '0'.toNat = 48 := rfl
      have h9 : '9'.toNat = 57 := rfl
      simp only [isIdentStart, isAsciiAlphabetic, Bool.or_eq_true, Bool.and_eq_true, decide_eq_true_eq] at h
      rcases h with ((⟨ha, -⟩ | ⟨ha, -⟩) | rfl) | rfl
      · have : 'a'.toNat = 97 := rfl
        omega
      · have : 'A'.toNat = 65 := rfl
        omega
      · have : '_'.toNat = 95 := rfl
        omega
      · have : '$'.toNat = 36 := rfl
        omega
    rw [toDigit]
    simp only [if_neg hnot]
    split
    · simp
    · split <;> simp
  · rintro rfl
    cases h

theorem IsIdent.readMillis_eq (h : IsIdent name) : readMillis name = .var (String.ofList name) := by
  obtain ⟨c, rest, rfl, hc, -⟩ := h.exists_cons
  have hnumber : parseU64 (String.ofList (c :: rest)) = none := by
    refine parseU64_of_head fun d hd => ?_
    obtain rfl := some.inj hd
    exact toDigit_of_isIdentStart hc
  rw [readMillis, hnumber]

theorem readMillis_digits (hne : digits ≠ []) (h : AllDigits digits) :
    readMillis digits = .millis (digitsVal digits) ↔ digitsVal digits ≤ u64Max := by
  rw [readMillis, parseU64_digits hne h]
  by_cases hle : digitsVal digits ≤ u64Max
  · rw [if_pos hle]
    exact ⟨fun _ => hle, fun _ => rfl⟩
  · rw [if_neg hle]
    exact ⟨nofun, fun h => absurd h hle⟩

theorem trimChars_number (h : NumberText number value) (hblanks : ∀ c ∈ blanks, isWhitespace c = true) :
    trimChars (number ++ blanks) = number := by
  obtain ⟨c, rest, hcons, hc⟩ := h.starts
  obtain ⟨d, hlast, hd⟩ := h.ends
  refine trimChars_append_blank (fun e he => ?_) (fun e he => ?_) (by rw [hcons]; exact cons_ne_nil c rest) hblanks
  · rw [hcons] at he
    obtain rfl := some.inj he
    exact not_blank_of_isDigit hc
  · rw [hlast] at he
    obtain rfl := some.inj he
    exact not_blank_of_isDigit hd

/-- Neither a number nor the blanks behind it end in a letter. -/
theorem getLast_number_ne (h : NumberText number value) (hblanks : ∀ c ∈ blanks, isWhitespace c = true) {c : Char}
    (hdigit : c.isDigit = false) (hblank : isWhitespace c = false) : (number ++ blanks).getLast? ≠ some c := by
  intro hlast
  cases hb : blanks.getLast? with
  | none =>
    rw [List.getLast?_eq_none_iff.mp hb, append_nil] at hlast
    obtain ⟨d, hd, hdig⟩ := h.ends
    rw [hd] at hlast
    obtain rfl := some.inj hlast
    rw [hdigit] at hdig
    cases hdig
  | some d => grind

theorem readInterval_bare (hne : digits ≠ []) (h : AllDigits digits) : readInterval digits = readMillis digits := by
  have hnumber : NumberText digits (digitsVal digits) := .whole hne h
  refine readInterval_other ?_
  have hnil : ∀ c ∈ ([] : List Char), isWhitespace c = true := fun c hc => nomatch hc
  have hlast : (digits ++ []).getLast? ≠ some 's' := getLast_number_ne hnumber hnil (by decide) (by decide)
  rwa [append_nil] at hlast

theorem readInterval_millis (hne : digits ≠ []) (h : AllDigits digits) (hblanks : ∀ c ∈ blanks, isWhitespace c = true) :
    readInterval (digits ++ blanks ++ ['m', 's']) = readMillis digits := by
  rw [readInterval_ms, trimChars_number (.whole hne h) hblanks]

theorem readInterval_seconds (h : NumberText number value) (hblanks : ∀ c ∈ blanks, isWhitespace c = true) :
    readInterval (number ++ blanks ++ ['s']) = .millis (secondsToMillis (.finite false (roundTo 53 value))) := by
  rw [readInterval_s (getLast_number_ne h hblanks (by decide) (by decide)), trimChars_number h hblanks, h.parseF64_eq]

theorem secondsToMillis_iff (h : NumberText number value) {ms : Nat} (hms : value * 1000 = ms) :
    secondsToMillis (.finite false (roundTo 53 value)) = ms ↔ ms ≤ u64Max ∧ (value = 0 ∨ KeepsMillis value ms) := by
  rcases h.nonneg.eq_or_lt with hzero | hpos
  · have hms' : ms = 0 := by
      rw [← hzero, zero_mul] at hms
      exact_mod_cast hms.symm
    rw [hms', ← hzero, secondsToMillis_zero]
    exact ⟨fun _ => ⟨Nat.zero_le _, .inl rfl⟩, fun _ => rfl⟩
  · rw [secondsToMillis_eq_iff hpos]
    exact and_congr_right fun _ => (or_iff_right hpos.ne').symm

/-- An interval is read as what it denotes exactly if it is readable. -/
theorem readInterval_denotes_iff (cs : List Char) : IntervalDenotes cs (readInterval cs) ↔ Readable cs := by
  constructor
  · intro h
    generalize hread : readInterval cs = interval at h
    cases h with
    | ident h =>
      refine .ident h fun hlast => ?_
      exact readInterval_ne_of_s hlast hread
    | bare nonempty h =>
      rw [readInterval_bare nonempty h] at hread
      exact .bare nonempty h ((readMillis_digits nonempty h).mp hread)
    | millis nonempty h hblanks =>
      rw [readInterval_millis nonempty h hblanks] at hread
      exact .millis nonempty h hblanks ((readMillis_digits nonempty h).mp hread)
    | seconds h hblanks hms =>
      rw [readInterval_seconds h hblanks] at hread
      obtain ⟨hle, hkeeps⟩ := (secondsToMillis_iff h hms).mp (TimerInterval.millis.inj hread)
      exact .seconds h hblanks hms hle hkeeps
  · intro h
    cases h with
    | ident h hlast =>
      rw [readInterval_other hlast, h.readMillis_eq]
      exact .ident h
    | bare nonempty h hle =>
      rw [readInterval_bare nonempty h, (readMillis_digits nonempty h).mpr hle]
      exact .bare nonempty h
    | millis nonempty h hblanks hle =>
      rw [readInterval_millis nonempty h hblanks, (readMillis_digits nonempty h).mpr hle]
      exact .millis nonempty h hblanks
    | seconds h hblanks hms hle hkeeps =>
      rw [readInterval_seconds h hblanks, (secondsToMillis_iff h hms).mpr ⟨hle, hkeeps⟩]
      exact .seconds h hblanks hms

end Readable

/-! ## A block -/

section Block

variable {env : ActionEnv} {baseline : Nat} {rawLines : List (List Char)} {timers acc : List DeclaredTimer}

/-- The intervals and actions of the headers. -/
def timerHeaders (baseline : Nat) (rawLines : List (List Char)) : List (List Char × List Char) :=
  rawLines.filterMap fun l =>
    ((timerRest baseline l).bind (splitOnText "->".toList)).map fun (interval, action) =>
      (trimChars interval, trimChars action)

/-- The timer of a header. -/
def ReadHeader (env : ActionEnv) (header : List Char × List Char) (timer : DeclaredTimer) : Prop :=
  timer.interval = readInterval header.1 ∧
    parseActionWithUrls { env with registry := none } header.2 = .ok timer.action

theorem timerHeaders_cons_of_none {l : List Char} (h : timerRest baseline l = none) :
    timerHeaders baseline (l :: rawLines) = timerHeaders baseline rawLines := by
  simp [timerHeaders, h]

theorem timerHeaders_cons_of_some {l rest interval action : List Char} (h : timerRest baseline l = some rest)
    (hsplit : splitOnText "->".toList rest = some (interval, action)) :
    timerHeaders baseline (l :: rawLines) =
      (trimChars interval, trimChars action) :: timerHeaders baseline rawLines := by
  rw [timerHeaders, filterMap_cons, h, bind_some, hsplit]
  rfl

/-- The lines of an accepted block: every header has an arrow and an action, and there are not too many. -/
theorem parseTimerLines_ok_iff (hacc : acc.length ≤ maxRootTimers) :
    parseTimerLines env baseline acc rawLines = .ok timers ↔
      (∀ l ∈ rawLines, ∀ rest, timerRest baseline l = some rest → (splitOnText "->".toList rest).isSome) ∧
      acc.length + (timerHeaders baseline rawLines).length ≤ maxRootTimers ∧
      ∃ more, timers = acc ++ more ∧ List.Forall₂ (ReadHeader env) (timerHeaders baseline rawLines) more := by
  induction rawLines generalizing acc with
  | nil =>
    rw [parseTimerLines]
    constructor
    · intro h
      obtain rfl := Except.ok.inj h
      exact ⟨nofun, hacc, [], (append_nil acc).symm, .nil⟩
    · rintro ⟨-, -, more, rfl, hmore⟩
      obtain rfl : more = [] := forall₂_nil_left_iff.mp hmore
      rw [append_nil]
  | cons l ls ih =>
    rw [parseTimerLines]
    cases hrest : timerRest baseline l with
    | none =>
      rw [timerHeaders_cons_of_none hrest, forall_mem_cons, ih hacc]
      refine and_congr_left fun _ => ⟨fun h => ⟨fun rest hsome => ?_, h⟩, And.right⟩
      rw [hrest] at hsome
      cases hsome
    | some rest =>
      dsimp only
      cases hsplit : splitOnText "->".toList rest with
      | none => grind
      | some parts =>
        obtain ⟨interval, action⟩ := parts
        rw [timerHeaders_cons_of_some hrest hsplit, length_cons]
        dsimp only
        by_cases hfull : acc.length = maxRootTimers
        · grind
        · rw [if_neg hfull]
          cases haction : parseActionWithUrls { env with registry := none } (trimChars action) with
          | error e =>
            refine iff_of_false (fun h => nomatch h) fun h => ?_
            obtain ⟨more, -, hmore⟩ := h.2.2
            obtain ⟨timer, more', hhead, -⟩ := forall₂_cons_left_iff.mp hmore
            rw [ReadHeader, haction] at hhead
            cases hhead.2
          | ok tree =>
            have hlt : (acc ++ [DeclaredTimer.mk (readInterval (trimChars interval)) tree]).length ≤ maxRootTimers := by
              grind
            have hcount : acc.length + 1 + (timerHeaders baseline ls).length =
                acc.length + ((timerHeaders baseline ls).length + 1) := by omega
            have hstep := ih hlt
            rw [length_append, length_singleton, hcount] at hstep
            rw [forall_mem_cons]
            refine hstep.trans ?_
            clear hstep
            constructor
            · rintro ⟨hls, hle, more, rfl, hmore⟩
              refine ⟨⟨fun rest' hrest' => ?_, hls⟩, hle, _, append_assoc .., .cons ⟨rfl, haction⟩ hmore⟩
              rw [hrest] at hrest'
              obtain rfl := some.inj hrest'
              rw [hsplit]
              rfl
            · rintro ⟨⟨-, hls⟩, hle, more, rfl, hmore⟩
              obtain ⟨⟨interval', tree'⟩, more', ⟨hinterval, htree⟩, hmore', rfl⟩ :=
                forall₂_cons_left_iff.mp hmore
              dsimp only at hinterval htree
              rw [haction] at htree
              obtain rfl := Except.ok.inj htree
              refine ⟨hls, hle, more', ?_, hmore'⟩
              rw [hinterval, append_assoc]
              rfl

/-- The timers of a block wait for what their headers denote. -/
def ReadAsWritten (logicContent : List Char) (timers : List DeclaredTimer) : Prop :=
  List.Forall₂ (fun header timer => IntervalDenotes header.1 timer.interval)
    (timerHeaders (baselineOf (lines logicContent)) (lines logicContent)) timers

/-- The timers of an accepted block wait for what their headers denote exactly if every interval is readable. -/
theorem rootTimers_denote_iff (env : ActionEnv) (logicContent : List Char) (timers : List DeclaredTimer)
    (h : parseRootTimers env logicContent = .ok timers) :
    ReadAsWritten logicContent timers ↔
      ∀ header ∈ timerHeaders (baselineOf (lines logicContent)) (lines logicContent), Readable header.1 := by
  obtain ⟨-, -, more, rfl, hread⟩ := (parseTimerLines_ok_iff (Nat.zero_le _)).mp h
  clear h
  rw [ReadAsWritten]
  generalize timerHeaders (baselineOf (lines logicContent)) (lines logicContent) = headers at hread
  induction hread with
  | nil => exact ⟨fun _ => nofun, fun _ => .nil⟩
  | cons hhead _ ih => rw [forall₂_cons, ih, hhead.1, readInterval_denotes_iff, forall_mem_cons]

end Block

theorem IntervalDenotes.var_eq {name : String} (h : IntervalDenotes cs (.var name)) :
    name = String.ofList cs := by
  cases h
  rfl

def timersEnv : ActionEnv where
  maxParseDepth := 256
  scaledF64 _ := none
  debugStr s := s
  headerName _ := .ok ()
  registry := none

def tickBlock : List Char := "timer tick -> n".toList

theorem tickBlock_headers :
    timerHeaders (baselineOf (lines tickBlock)) (lines tickBlock) = [("tick".toList, "n".toList)] := by
  rfl

theorem tick_ident : IsIdent "tick".toList := ⟨rfl, all_eq_true.mp rfl, ⟨_, rfl⟩⟩

theorem tickBlock_denotes : ReadAsWritten tickBlock [⟨.var "tick", .eval (.var "n")⟩] := by
  refine (rootTimers_denote_iff timersEnv tickBlock _ (by rfl)).mpr ?_
  rw [tickBlock_headers]
  exact forall_mem_singleton.mpr (.ident tick_ident (by decide))

def itemsBlock : List Char := "timer items -> n".toList

theorem itemsBlock_headers :
    timerHeaders (baselineOf (lines itemsBlock)) (lines itemsBlock) = [("items".toList, "n".toList)] := by
  rfl

/-- The timer of `items` waits for `ite`. -/
theorem rootTimers_misread :
    ¬∀ (env : ActionEnv) (logicContent : List Char) (timers : List DeclaredTimer),
      parseRootTimers env logicContent = .ok timers → ReadAsWritten logicContent timers := by
  intro h
  have hread := h timersEnv itemsBlock [⟨.var "ite", .eval (.var "n")⟩] (by rfl)
  rw [ReadAsWritten, itemsBlock_headers] at hread
  have hname := (forall₂_cons.mp hread).1.var_eq
  revert hname
  decide

end Mizu
