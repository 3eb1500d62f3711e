import Mizu.Security.Navigation

/-!
# Addresses between brackets

The IPv6 parser of the URL standard, which keeps its place by the number of pieces to go, beside the
one of the standard library, which reads groups and gives characters back.

* `ipv6Parses_eq`: both read the same texts.
* `urlIpv6_chars`: what such a text consists of.
-/

namespace Mizu

open List Option

section Address

/-- An `IPv4` part of an address: four octets, the first without a dot before it. -/
def urlIpv4 : (octets : Nat) → List Char → Option (List Nat)
  | 0, cs => if cs.isEmpty then some [] else none
  | n + 1, cs => do
    let cs ← readSeparator '.' (3 - n) cs
    let (digits, rest) := spanDigits 10 cs
    let octet := digits.foldl (fun v d => v * 10 + d) 0
    if digits.isEmpty || (digits.head? = some 0 && 1 < digits.length) || 255 < octet then none
    else (octet :: ·) <$> urlIpv4 n rest

/-- The end of the text, with `left` pieces to go. -/
def urlIpv6End (left : Nat) (compressed : Bool) : Option (List (Option Nat)) :=
  if compressed || left = 0 then some [] else none

/-- The loop of the IPv6 parser, with `left` pieces to go; `none` in the result stands for the pieces
that `::` leaves out. -/
def urlIpv6Pieces : (left : Nat) → (compressed : Bool) → List Char → Option (List (Option Nat))
  | left, compressed, [] => urlIpv6End left compressed
  | 0, _, _ :: _ => none
  | left + 1, compressed, c :: cs =>
    if c = ':' then
      if compressed then none else (none :: ·) <$> urlIpv6Pieces left true cs
    else
      let digits := (spanDigits 16 (c :: cs)).1.take 4
      let value := digits.foldl (fun v d => v * 16 + d) 0
      match (c :: cs).drop digits.length with
      | [] => (some value :: ·) <$> urlIpv6End left compressed
      | '.' :: _ =>
        if digits.isEmpty || left = 0 then none
        else do
          let octets ← urlIpv4 4 (c :: cs)
          let pieces ← urlIpv6End (left - 1) compressed
          pure (some (octets.getD 0 0 * 256 + octets.getD 1 0) ::
            some (octets.getD 2 0 * 256 + octets.getD 3 0) :: pieces)
      | ':' :: rest =>
        if rest.isEmpty then none else (some value :: ·) <$> urlIpv6Pieces left compressed rest
      | _ :: _ => none

/-- The pieces with the ones that were left out. -/
def urlIpv6Fill (pieces : List (Option Nat)) : List Nat :=
  pieces.flatMap fun
    | some piece => [piece]
    | none => List.replicate (9 - pieces.length) 0

/-- The IPv6 parser. -/
def urlIpv6 (cs : List Char) : Option (List Nat) :=
  match cs with
  | ':' :: ':' :: rest => (fun pieces => urlIpv6Fill (none :: pieces)) <$> urlIpv6Pieces 7 true rest
  | ':' :: _ => none
  | cs => urlIpv6Fill <$> urlIpv6Pieces 8 false cs

end Address

example : ["::1", "1:2:3:4:5:6:7:8", "::ffff:127.0.0.1", "1::", "12345::", "1:2", ":::",
    "1::2:3:4:5:6:7:8"].map (fun s => (urlIpv6 s.toList).isSome) =
    [true, true, true, true, false, false, false, false] := by
  decide

section Agree

variable {cs : List Char}

/-- The digits at the start are as many characters, and no digit follows. -/
theorem spanDigits_drop (radix : Nat) (cs : List Char) :
    cs.drop (spanDigits radix cs).1.length = (spanDigits radix cs).2 := by
  induction cs with
  | nil => rfl
  | cons c cs ih => grind [spanDigits]

/-- More digits than are dropped: a digit comes next. -/
theorem spanDigits_drop_lt {radix n : Nat} (h : n < (spanDigits radix cs).1.length) :
    ∃ c rest, cs.drop n = c :: rest ∧ (toDigit radix c).isSome := by
  induction cs generalizing n with
  | nil => simp [spanDigits] at h
  | cons c cs ih =>
    unfold spanDigits at h
    cases hdigit : toDigit radix c with
    | none => simp [hdigit] at h
    | some d =>
      cases n with
      | zero => exact ⟨c, cs, rfl, by rw [hdigit]; rfl⟩
      | succ n =>
        rw [hdigit] at h
        exact ih (Nat.lt_of_succ_lt_succ h)

variable {rest : List Char}

/-- A decimal number before a dot has the same digits in base 16. -/
theorem spanDigits_of_dot (h : (spanDigits 10 cs).2 = '.' :: rest) :
    spanDigits 16 cs = spanDigits 10 cs := by
  induction cs with
  | nil => rfl
  | cons c cs ih =>
    unfold spanDigits at h ⊢
    cases hdigit : toDigit 10 c with
    | none =>
      rw [hdigit] at h
      obtain ⟨rfl, -⟩ := List.cons.inj h
      rfl
    | some d =>
      have hhex : toDigit 16 c = some d := by
        simp only [toDigit, filter_eq_some_iff, decide_eq_true_eq] at hdigit ⊢
        exact ⟨hdigit.1, by omega⟩
      rw [hdigit] at h
      rw [hhex, ih h]

theorem le_foldl_digits (radix v : Nat) (ds : List Nat) :
    v * radix ^ ds.length ≤ ds.foldl (fun n d => n * radix + d) v := by
  induction ds generalizing v with
  | nil => simp
  | cons d ds ih =>
    calc v * radix ^ (d :: ds).length = (v * radix) * radix ^ ds.length := by
          rw [length_cons, Nat.pow_succ', Nat.mul_assoc]
      _ ≤ (v * radix + d) * radix ^ ds.length := Nat.mul_le_mul_right _ (Nat.le_add_right _ _)
      _ ≤ _ := ih _

theorem foldl_digits_lt (radix v : Nat) (ds : List Nat) (h : ∀ d ∈ ds, d < radix) :
    ds.foldl (fun n d => n * radix + d) v < (v + 1) * radix ^ ds.length := by
  induction ds generalizing v with
  | nil => simp
  | cons d ds ih =>
    have hd : v * radix + d + 1 ≤ (v + 1) * radix := by
      have := h d (.head _)
      rw [Nat.add_mul]
      omega
    calc (d :: ds).foldl (fun n d => n * radix + d) v
        < (v * radix + d + 1) * radix ^ ds.length := ih _ fun d' hd' => h d' (.tail _ hd')
      _ ≤ ((v + 1) * radix) * radix ^ ds.length := Nat.mul_le_mul_right _ hd
      _ = _ := by rw [length_cons, Nat.pow_succ', Nat.mul_assoc]

theorem spanDigits_lt {radix d : Nat} (h : d ∈ (spanDigits radix cs).1) : d < radix := by
  induction cs with
  | nil => cases h
  | cons c cs ih =>
    unfold spanDigits at h
    cases hdigit : toDigit radix c with
    | none =>
      rw [hdigit] at h
      cases h
    | some v =>
      rw [hdigit] at h
      rcases mem_cons.mp h with rfl | h
      · simp only [toDigit, filter_eq_some_iff, decide_eq_true_eq] at hdigit
        exact hdigit.2
      · exact ih h

/-- An octet of more than three digits starts with a zero or is too large. -/
theorem readNumber_octet : readNumber 10 3 256 false cs =
    let (digits, rest) := spanDigits 10 cs
    let octet := digits.foldl (fun v d => v * 10 + d) 0
    if digits.isEmpty || (digits.head? = some 0 && 1 < digits.length) || 255 < octet then none
    else some (octet, rest) := by
  unfold readNumber
  obtain ⟨digits, rest⟩ := spanDigits 10 cs
  dsimp only
  cases digits with
  | nil => rfl
  | cons d ds =>
    have hle := le_foldl_digits 10 d ds
    simp only [isEmpty_cons, foldl_cons, Nat.zero_mul, Nat.zero_add, length_cons,
      List.head?_cons, some.injEq, Bool.false_or, Bool.not_false, Bool.true_and]
    by_cases hzero : d = 0
    · grind
    · have hlong : 3 < ds.length + 1 → 255 < ds.foldl (fun v d => v * 10 + d) d := by
        intro hlen
        have hpow : 10 ^ 3 ≤ 10 ^ ds.length := Nat.pow_le_pow_right (by decide) (by omega)
        have := Nat.mul_le_mul (Nat.pos_of_ne_zero hzero) hpow
        omega
      grind

theorem readIpv4_eq_nil_iff (n : Nat) : readIpv4 n cs = some [] ↔ (urlIpv4 n cs).isSome := by
  induction n generalizing cs with
  | zero =>
    rw [readIpv4, urlIpv4]
    cases cs <;> simp
  | succ n ih =>
    rw [readIpv4, urlIpv4]
    cases readSeparator '.' (3 - n) cs with
    | none => simp
    | some cs => grind [readNumber_octet]

/-- An IPv4 address starts with a number and a dot. -/
theorem readIpv4_dot (h : readIpv4 4 cs = some rest) :
    ∃ more, (spanDigits 16 cs).2 = '.' :: more ∧ (spanDigits 16 cs).1 ≠ [] ∧
      (spanDigits 16 cs).1.length ≤ 4 := by
  rw [readIpv4] at h
  simp only [Nat.sub_self, readSeparator, if_true, bind_eq_bind, bind_some] at h
  cases hnumber : readNumber 10 3 256 false cs with
  | none => simp [hnumber] at h
  | some p =>
    rw [hnumber, bind_some, readIpv4] at h
    obtain ⟨more, hmore⟩ : ∃ more, p.2 = '.' :: more := by
      cases hp : p.2 with
      | nil => simp [hp, readSeparator] at h
      | cons c more => grind [readSeparator]
    unfold readNumber at hnumber
    dsimp only at hnumber
    split at hnumber
    · cases hnumber
    rename_i hcond
    split at hnumber
    · cases hnumber
    obtain rfl := some.inj hnumber
    rw [spanDigits_of_dot hmore]
    refine ⟨more, hmore, ?_, ?_⟩
    · intro hnil
      simp [hnil] at hcond
    · simp only [Bool.or_eq_true, not_or, decide_eq_true_eq] at hcond
      omega

/-- A group of hexadecimal digits never gets too large. -/
theorem readNumber_group : readNumber 16 4 65536 true cs =
    if (spanDigits 16 cs).1 = [] ∨ 4 < (spanDigits 16 cs).1.length then none
    else some ((spanDigits 16 cs).1.foldl (fun v d => v * 16 + d) 0, (spanDigits 16 cs).2) := by
  have hlt := foldl_digits_lt 16 0 (spanDigits 16 cs).1 fun d hd => spanDigits_lt hd
  unfold readNumber
  by_cases hlen : 4 < (spanDigits 16 cs).1.length
  · simp [hlen]
  · have hpow : 16 ^ (spanDigits 16 cs).1.length ≤ 16 ^ 4 := Nat.pow_le_pow_right (by decide) (by omega)
    have hvalue : ¬65536 ≤ (spanDigits 16 cs).1.foldl (fun v d => v * 16 + d) 0 := by omega
    simp [hlen, hvalue]

/-- What the standard library still wants of the groups at the start, of `limit` ones: that nothing
follows, and after the first ones that there are eight or that `::` and other groups follow. -/
def groupsClose (compressed : Bool) (groups : Nat × Bool × List Char) : Bool :=
  if compressed then groups.2.2.isEmpty
  else if groups.1 = 8 then groups.2.2.isEmpty
  else if groups.2.1 then false
  else
    match groups.2.2 with
    | ':' :: ':' :: cs =>
      (readGroups (8 - (groups.1 + 1)) (8 - (groups.1 + 1)) cs).2.2.isEmpty
    | _ => false

theorem ipv6Parses_eq_groupsClose (cs : List Char) :
    ipv6Parses (String.ofList cs) = groupsClose false (readGroups 8 8 cs) := by
  rw [ipv6Parses, String.toList_ofList]
  rfl

/-- The text of the group at an index, with its separator. -/
def separated (index : Nat) (cs : List Char) : List Char := if index = 0 then cs else ':' :: cs

theorem readSeparator_separated (index : Nat) (cs : List Char) :
    readSeparator ':' index (separated index cs) = some cs := by
  unfold readSeparator separated
  split <;> simp

/-- One group, or an IPv4 address, after its separator. -/
theorem readGroups_separated (limit left : Nat) (cs : List Char) :
    readGroups limit (left + 1) (separated (limit - (left + 1)) cs) =
      match (if limit - (left + 1) + 1 < limit then readIpv4 4 cs else none) with
      | some rest => (limit - (left + 1) + 2, true, rest)
      | none =>
        if (spanDigits 16 cs).1 = [] ∨ 4 < (spanDigits 16 cs).1.length then
          (limit - (left + 1), false, separated (limit - (left + 1)) cs)
        else readGroups limit left (spanDigits 16 cs).2 := by
  grind [readGroups, readSeparator_separated, readNumber_group]

variable {limit left : Nat}

/-- Without a separator no further group is read. -/
theorem readGroups_stop {cs : List Char} (hpos : 0 < limit - left)
    (hhead : ∀ rest, cs ≠ ':' :: rest) : readGroups limit left cs = (limit - left, false, cs) := by
  cases left with
  | zero => rw [readGroups, Nat.sub_zero]
  | succ left =>
    have hsep : readSeparator ':' (limit - (left + 1)) cs = none := by
      unfold readSeparator
      rw [if_neg (by omega)]
      cases cs with
      | nil => rfl
      | cons c cs => grind
    rw [readGroups]
    simp [hsep]

/-- Nothing is read after a separator that ends the text. -/
theorem readGroups_colon (hpos : 0 < limit - left) :
    readGroups limit left [':'] = (limit - left, false, [':']) := by
  cases left with
  | zero => rw [readGroups, Nat.sub_zero]
  | succ left =>
    have hsep : [':'] = separated (limit - (left + 1)) [] := by rw [separated, if_neg (by omega)]
    rw [hsep, readGroups_separated]
    have hipv4 : (if limit - (left + 1) + 1 < limit then readIpv4 4 [] else none) = none := by
      split <;> rfl
    rw [hipv4]
    rfl

theorem separated_ne_nil {index : Nat} {cs : List Char} (h : cs ≠ [] ∨ 0 < index) :
    separated index cs ≠ [] := by
  grind [separated]

/-- Something is left that neither ends the text nor starts with `::`. -/
theorem not_groupsClose {compressed : Bool} {size : Nat} {ipv4 : Bool} {c : Char}
    (h : c = ':' → ∀ more, rest ≠ ':' :: more) : groupsClose compressed (size, ipv4, c :: rest) = false := by
  grind [groupsClose]

theorem urlIpv6End_isSome (left : Nat) (compressed : Bool) :
    (urlIpv6End left compressed).isSome = (compressed || left = 0) := by
  unfold urlIpv6End
  split <;> simp_all

theorem groups_agree_end {compressed : Bool} (hle : left ≤ limit)
    (hlimit : compressed = false → limit = 8) (hpos : 0 < limit - left ∨ compressed = true) :
    (urlIpv6End left compressed).isSome = groupsClose compressed (readGroups limit left []) := by
  have hread : (readGroups limit left []).2 = (false, []) ∧
      (0 < limit - left → (readGroups limit left []).1 = limit - left) := by
    cases left with
    | zero => exact ⟨rfl, fun _ => rfl⟩
    | succ left =>
      rw [readGroups]
      by_cases hi : limit - (left + 1) = 0
      · simp [hi, readSeparator, readIpv4, readNumber, spanDigits]
      · simp [readSeparator, hi]
  rw [urlIpv6End_isSome, groupsClose]
  cases compressed with
  | true => simp [hread.1]
  | false =>
    have hsize := hread.2 (by simpa using hpos)
    obtain rfl := hlimit rfl
    by_cases hzero : left = 0
    · subst hzero
      rfl
    · have hne : ¬8 - left = 8 := by omega
      simp [hread.1, hsize, hzero, hne]

/-- What is left when no group fits fails on both sides. -/
theorem not_groupsClose_separated {compressed : Bool} {size index : Nat} {c : Char} (hc : c ≠ ':')
    (cs : List Char) : groupsClose compressed (size, false, separated index (c :: cs)) = false := by
  grind [separated, not_groupsClose]

theorem groups_agree_ipv4 {compressed : Bool} {cs rest : List Char}
    (hle : left + 1 ≤ limit) (hlimit : compressed = false → limit = 8) (hpos : left ≠ 0)
    (h : readIpv4 4 cs = some rest) : (do
      let octets ← urlIpv4 4 cs
      let pieces ← urlIpv6End (left - 1) compressed
      pure (some (octets.getD 0 0 * 256 + octets.getD 1 0) ::
        some (octets.getD 2 0 * 256 + octets.getD 3 0) :: pieces) :
      Option (List (Option Nat))).isSome =
      groupsClose compressed (limit - (left + 1) + 2, true, rest) := by
  have hall : readIpv4 4 cs = some [] ↔ (urlIpv4 4 cs).isSome := readIpv4_eq_nil_iff 4
  rw [h, some.injEq] at hall
  have hend := urlIpv6End_isSome (left - 1) compressed
  by_cases hnil : rest = []
  · subst hnil
    obtain ⟨octets, hoctets⟩ := isSome_iff_exists.mp (hall.mp rfl)
    rw [hoctets]
    simp only [bind_eq_bind, bind_some, groupsClose]
    cases compressed with
    | true => grind [isSome_iff_exists]
    | false =>
      obtain rfl := hlimit rfl
      by_cases hlast : left = 1
      · subst hlast
        rfl
      · have hsize : ¬8 - (left + 1) + 2 = 8 := by omega
        have hnone : urlIpv6End (left - 1) false = none := by
          rw [← not_isSome_iff_eq_none, hend]
          simp only [Bool.false_or, decide_eq_true_eq]
          omega
        simp only [hnone, bind_none, isSome_none, Bool.false_eq_true, if_false, hsize, if_true]
  · grind [not_isSome_iff_eq_none, groupsClose]

/-- The loop of the standard goes on exactly where the groups of the standard library fit. -/
theorem groups_agree {compressed : Bool} (cs : List Char) (hle : left ≤ limit)
    (hlimit : compressed = false → limit = 8) (hcs : cs ≠ [] ∨ left = limit)
    (hstart : compressed = false → left = limit → cs ≠ [] ∧ ∀ rest, cs ≠ ':' :: rest) :
    (urlIpv6Pieces left compressed cs).isSome =
      groupsClose compressed (readGroups limit left (separated (limit - left) cs)) := by
  induction left generalizing limit compressed cs with
  | zero =>
    cases cs with
    | nil =>
      have hzero : limit = 0 := (hcs.resolve_left (by simp)).symm
      subst hzero
      cases compressed with
      | true => rfl
      | false => exact absurd (hlimit rfl) (by decide)
    | cons c cs => grind [urlIpv6Pieces, readGroups, groupsClose, separated_ne_nil]
  | succ left ih =>
    cases cs with
    | nil =>
      have hlim : left + 1 = limit := hcs.resolve_left (by simp)
      have hcompressed : compressed = true := by grind
      rw [urlIpv6Pieces, separated, if_pos (by omega)]
      exact groups_agree_end hle hlimit (.inr hcompressed)
    | cons c cs =>
      rw [urlIpv6Pieces, readGroups_separated]
      by_cases hc : c = ':'
      · -- Pieces are left out here; the standard library stops in front of the colons.
        subst hc
        have hspan : (spanDigits 16 (':' :: cs)).1 = [] := rfl
        have hipv4 : (if limit - (left + 1) + 1 < limit then readIpv4 4 (':' :: cs) else none) = none := by
          split <;> rfl
        rw [if_pos rfl, hipv4]
        simp only [hspan, true_or, if_true]
        cases compressed with
        | true =>
          simp only [if_true, isSome_none, groupsClose]
          exact (by simpa using separated_ne_nil (.inl (by simp)))
        | false =>
          obtain rfl := hlimit rfl
          have hindex : 8 - (left + 1) ≠ 0 := fun h => (hstart rfl (by omega)).2 cs rfl
          have hsize : ¬8 - (left + 1) = 8 := by omega
          have hleft : 8 - (8 - (left + 1) + 1) = left := by omega
          have hrest := @ih left true cs (le_refl left) (by simp) (.inr rfl) (by simp)
          rw [Nat.sub_self, separated, if_pos rfl] at hrest
          simp only [Bool.false_eq_true, if_false, separated, hindex, groupsClose, hsize, hleft]
          simpa [groupsClose] using hrest
      · rw [if_neg hc]
        have hdrop := spanDigits_drop 16 (c :: cs)
        cases hipv4 : (if limit - (left + 1) + 1 < limit then readIpv4 4 (c :: cs) else none) with
        | some rest =>
          have hroom : limit - (left + 1) + 1 < limit := by grind
          rw [if_pos hroom] at hipv4
          obtain ⟨more, hmore, hne, hlen⟩ := readIpv4_dot hipv4
          have hzero : left ≠ 0 := by omega
          dsimp only
          rw [take_of_length_le hlen, hdrop, hmore]
          have hempty : (spanDigits 16 (c :: cs)).1.isEmpty = false := by simpa using hne
          simp only [hempty, hzero, decide_false, Bool.or_self, Bool.false_eq_true, if_false]
          exact groups_agree_ipv4 hle hlimit hzero hipv4
        | none =>
          dsimp only
          by_cases hlen : (spanDigits 16 (c :: cs)).1 = [] ∨ 4 < (spanDigits 16 (c :: cs)).1.length
          · -- No group fits, and neither goes on.
            rw [if_pos hlen, not_groupsClose_separated hc]
            rcases hlen with hnil | hlong
            · grind
            · obtain ⟨d, more, hd, hdigit⟩ := spanDigits_drop_lt hlong
              rw [length_take, Nat.min_eq_left (by omega), hd]
              split
              · contradiction
              · rename_i heq
                rw [(List.cons.inj heq).1] at hdigit
                exact absurd hdigit (by decide)
              · rename_i heq
                rw [(List.cons.inj heq).1] at hdigit
                exact absurd hdigit (by decide)
              · rfl
          · rw [if_neg hlen]
            obtain ⟨hne, hle4⟩ := not_or.mp hlen
            rw [take_of_length_le (by omega), hdrop]
            have hpos : 0 < limit - left := by omega
            cases hrest : (spanDigits 16 (c :: cs)).2 with
            | nil => grind [groups_agree_end]
            | cons d more =>
              by_cases hdot : d = '.'
              · subst hdot
                rw [readGroups_stop hpos (by simp), not_groupsClose (by simp)]
                by_cases hzero : left = 0
                · simp [hzero]
                · rw [if_pos (by omega)] at hipv4
                  have hnone : urlIpv4 4 (c :: cs) = none := by
                    grind [not_isSome_iff_eq_none, readIpv4_eq_nil_iff]
                  simp [hzero, hnone]
              by_cases hcolon : d = ':'
              · subst hcolon
                cases more with
                | nil => grind [readGroups_colon, not_groupsClose]
                | cons e more =>
                  have hgroup := @ih limit compressed (e :: more) (by omega) hlimit
                    (.inl (by simp)) fun _ heq => absurd heq (by omega)
                  rw [separated, if_neg (by omega)] at hgroup
                  rw [← hgroup]
                  simp
              · rw [readGroups_stop hpos (by simp [hcolon]), not_groupsClose (by simp [hcolon])]
                split
                · contradiction
                · rename_i heq
                  exact absurd (List.cons.inj heq).1 hdot
                · grind
                · rfl

/-- The standard and the standard library read the same addresses. -/
theorem ipv6Parses_eq (cs : List Char) : ipv6Parses (String.ofList cs) = (urlIpv6 cs).isSome := by
  rw [ipv6Parses_eq_groupsClose]
  unfold urlIpv6
  split
  · rename_i rest
    have htail := @groups_agree 7 7 true rest (le_refl 7) (by simp) (.inr rfl)
      (by simp)
    rw [Nat.sub_self, separated, if_pos rfl] at htail
    rw [Option.map_eq_map, Option.isSome_map, htail]
    rfl
  · rename_i rest hrest
    show groupsClose false (0, false, ':' :: rest) = false
    exact not_groupsClose fun _ more h => hrest more h
  · rename_i hcolon hstart
    rw [Option.map_eq_map, Option.isSome_map]
    cases cs with
    | nil => rfl
    | cons c cs =>
      rw [@groups_agree 8 8 false (c :: cs) (le_refl 8) (fun _ => rfl) (.inr rfl)
        fun _ _ => ⟨by simp, fun rest h => hstart rest h⟩]
      rfl

end Agree

/-! ## Characters of addresses -/

theorem toDigit_of_mem_take {radix n : Nat} {cs : List Char} {c : Char}
    (hn : n ≤ (spanDigits radix cs).1.length) (hc : c ∈ cs.take n) : (toDigit radix c).isSome := by
  induction cs generalizing n with
  | nil => simp at hc
  | cons d cs ih =>
    unfold spanDigits at hn
    cases hdigit : toDigit radix d with
    | none => simp_all
    | some v =>
      rw [hdigit] at hn
      cases n with
      | zero => simp at hc
      | succ n => grind

/-- A digit, a dot or a colon. -/
def isUrlAddressChar (c : Char) : Bool := (toDigit 16 c).isSome || c = '.' || c = ':'

theorem not_forbidden_of_address {c : Char} (h : isUrlAddressChar c = true) : isForbiddenHostChar c = false := by
  have hlist : ∀ c ∈ "#/<>?[\\]^|".toList, isUrlAddressChar c = false := by
    simp [isUrlAddressChar, toDigit]
  have hdigit : c.toNat ≤ 0x20 ∨ c.toNat = 0x7f → isUrlAddressChar c = false := by
    intro hnat
    have hnone : toDigit 16 c = none := by grind [toDigit, filter_eq_none_iff]
    have hdot : c ≠ '.' := by
      rintro rfl
      exact absurd hnat (by decide)
    have hcolon : c ≠ ':' := by
      rintro rfl
      exact absurd hnat (by decide)
    simp [isUrlAddressChar, hnone, hdot, hcolon]
  rw [← Bool.not_eq_true]
  intro hforbidden
  simp only [isForbiddenHostChar, Bool.or_eq_true, decide_eq_true_eq, contains_iff_mem] at hforbidden
  have : isUrlAddressChar c = false := by grind
  rw [this] at h
  cases h

/-- The characters of a number and of what follows it. -/
theorem address_of_digits {radix n : Nat} (hradix : radix ≤ 16) {cs : List Char}
    (hn : n ≤ (spanDigits radix cs).1.length) (hrest : ∀ c ∈ cs.drop n, isUrlAddressChar c = true) :
    ∀ c ∈ cs, isUrlAddressChar c = true := by
  intro c hc
  rw [← take_append_drop n cs, mem_append] at hc
  rcases hc with hc | hc
  · have hdigit := toDigit_of_mem_take hn hc
    have hhex : (toDigit 16 c).isSome := by
      obtain ⟨v, hv⟩ := isSome_iff_exists.mp hdigit
      simp only [toDigit, filter_eq_some_iff, decide_eq_true_eq] at hv
      refine isSome_iff_exists.mpr ⟨v, ?_⟩
      simp only [toDigit, filter_eq_some_iff, decide_eq_true_eq]
      exact ⟨hv.1, by omega⟩
    simp [isUrlAddressChar, hhex]
  · exact hrest c hc

theorem urlIpv4_chars (n : Nat) {cs : List Char} (h : (urlIpv4 n cs).isSome) :
    ∀ c ∈ cs, isUrlAddressChar c = true := by
  induction n generalizing cs with
  | zero => grind [urlIpv4]
  | succ n ih =>
    rw [urlIpv4] at h
    cases hsep : readSeparator '.' (3 - n) cs with
    | none => simp [hsep] at h
    | some rest =>
      rw [hsep] at h
      simp only [bind_eq_bind, bind_some] at h
      have hdrop := spanDigits_drop 10 rest
      have hrest : ∀ c ∈ rest, isUrlAddressChar c = true := by
        refine address_of_digits (show 10 ≤ 16 by decide) (le_refl _) ?_
        rw [hdrop]
        split at h
        · simp at h
        · exact ih (by simpa using h)
      unfold readSeparator at hsep
      split at hsep
      · obtain rfl := some.inj hsep
        exact hrest
      · cases cs with
        | nil => cases hsep
        | cons d cs =>
          dsimp only at hsep
          split at hsep
          · rename_i hd
            obtain rfl := some.inj hsep
            intro c hc
            rcases mem_cons.mp hc with rfl | hc
            · rw [hd]
              decide
            · exact hrest c hc
          · cases hsep

theorem urlIpv6Pieces_chars {left : Nat} {compressed : Bool} {cs : List Char}
    (h : (urlIpv6Pieces left compressed cs).isSome) : ∀ c ∈ cs, isUrlAddressChar c = true := by
  induction left generalizing compressed cs with
  | zero =>
    cases cs with
    | nil => simp
    | cons c cs => simp [urlIpv6Pieces] at h
  | succ left ih =>
    cases cs with
    | nil => simp
    | cons c cs =>
      rw [urlIpv6Pieces] at h
      by_cases hc : c = ':'
      · subst hc
        rw [if_pos rfl] at h
        split at h
        · simp at h
        · intro c hc
          rcases mem_cons.mp hc with rfl | hc
          · decide
          · exact ih (by simpa using h) c hc
      · rw [if_neg hc] at h
        dsimp only at h
        have hdigits : ((spanDigits 16 (c :: cs)).1.take 4).length ≤ (spanDigits 16 (c :: cs)).1.length :=
          length_take_le' _ _
        split at h
        · rename_i hrest
          refine address_of_digits (le_refl 16) hdigits ?_
          rw [hrest]
          simp
        · split at h
          · simp at h
          · refine urlIpv4_chars 4 ?_
            cases hipv4 : urlIpv4 4 (c :: cs) with
            | none => simp [hipv4] at h
            | some octets => rfl
        · rename_i rest hrest
          refine address_of_digits (le_refl 16) hdigits ?_
          rw [hrest]
          split at h
          · simp at h
          · intro c hc
            rcases mem_cons.mp hc with rfl | hc
            · decide
            · exact ih (by simpa using h) c hc
        · simp at h

theorem urlIpv6_chars {cs : List Char} (h : (urlIpv6 cs).isSome) : ∀ c ∈ cs, isUrlAddressChar c = true := by
  unfold urlIpv6 at h
  split at h
  · rename_i rest
    have hrest : ∀ c ∈ rest, isUrlAddressChar c = true := urlIpv6Pieces_chars (by simpa using h)
    intro c hc
    simp only [mem_cons] at hc
    rcases hc with rfl | rfl | hc
    · decide
    · decide
    · exact hrest c hc
  · simp at h
  · exact urlIpv6Pieces_chars (by simpa using h)

end Mizu
