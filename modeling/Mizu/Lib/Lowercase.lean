import Mathlib

/-!
# Lower-casing over Unicode tables

`toLowercase` is the full lower-casing of a text: every character is replaced by its mapping, and a
capital sigma takes its final form at the end of a word. The tables are a parameter; only what they
say of ASCII is fixed.

* `lowercaseFrom_map`: the letter case of ASCII never matters.
* `lowercaseFrom_of_plain`: without other letters that have a lower case it is ASCII lower-casing.
-/

namespace Mizu

open List

/-- What lower-casing reads of the Unicode data. -/
structure CaseTable where
  /-- The lower-case mapping of a character. -/
  mapping : Char → List Char
  cased : Char → Bool
  caseIgnorable : Char → Bool
  mapping_ascii : ∀ c, c.toNat < 128 → mapping c = [c.toLower]
  cased_ascii : ∀ c, c.toNat < 128 → cased c = c.isAlpha
  caseIgnorable_ascii : ∀ c, c.toNat < 128 →
    caseIgnorable c = [0x27, 0x2e, 0x3a, 0x5e, 0x60].contains c.toNat

section Ascii

variable {c : Char}

/-- Lower-casing leaves a character alone, or it is one of the 26 capitals of ASCII. -/
theorem toLower_cases (c : Char) :
    c.toLower = c ∨ ∃ i < 26, c = Char.ofNat (65 + i) ∧ c.toLower = Char.ofNat (97 + i) := by
  by_cases h : 65 ≤ c.toNat ∧ c.toNat ≤ 90
  · right
    have hc : c = Char.ofNat (65 + (c.toNat - 65)) := by
      rw [Nat.add_sub_cancel' h.1, Char.ofNat_toNat]
    have hlower : ∀ i < 26, (Char.ofNat (65 + i)).toLower = Char.ofNat (97 + i) := by decide
    refine ⟨c.toNat - 65, by omega, hc, ?_⟩
    rw [← hlower (c.toNat - 65) (by omega), ← hc]
  · left
    rw [Char.toLower, dif_neg]
    simpa [UInt32.le_iff_toNat_le, ← Char.toNat_val] using h

theorem letters_lt :
    ∀ i < 26, (Char.ofNat (97 + i)).toNat < 128 ∧ (Char.ofNat (65 + i)).toNat < 128 := by
  decide

theorem toLower_of_le (h : 128 ≤ c.toNat) : c.toLower = c := by
  grind [toLower_cases, letters_lt]

/-- What does not tell the capitals from the small letters ignores letter case. -/
theorem toLower_invariant {α : Type} (f : Char → α)
    (h : ∀ i < 26, f (Char.ofNat (97 + i)) = f (Char.ofNat (65 + i))) (c : Char) :
    f c.toLower = f c := by
  grind [toLower_cases]

/-- A character that is no letter of ASCII is the lower case of itself only. -/
theorem toLower_eq_iff {d : Char}
    (h : ∀ i < 26, Char.ofNat (97 + i) ≠ d ∧ Char.ofNat (65 + i) ≠ d) (c : Char) :
    c.toLower = d ↔ c = d := by
  grind [toLower_cases]

end Ascii

namespace CaseTable

variable (table : CaseTable)

/-- The first character that is not case-ignorable is a cased one. -/
def caseIgnorableThenCased (cs : List Char) : Bool :=
  match cs.dropWhile table.caseIgnorable with
  | c :: _ => table.cased c
  | [] => false

/-- A capital sigma between what stands `before` it, backwards, and what stands `after` it. -/
def mapUppercaseSigma (before after : List Char) : Char :=
  if table.caseIgnorableThenCased before && !table.caseIgnorableThenCased after then 'ς' else 'σ'

def lowercaseFrom (before : List Char) : List Char → List Char
  | [] => []
  | c :: cs =>
    (if c = 'Σ' then [table.mapUppercaseSigma before cs] else table.mapping c) ++
      lowercaseFrom (c :: before) cs

/-- `str::to_lowercase`. -/
def toLowercase (s : String) : String := String.ofList (table.lowercaseFrom [] s.toList)

theorem mapping_toLower (c : Char) : table.mapping c.toLower = table.mapping c := by
  refine toLower_invariant table.mapping (fun i hi => ?_) c
  rw [table.mapping_ascii _ (letters_lt i hi).1, table.mapping_ascii _ (letters_lt i hi).2]
  revert i
  decide

theorem cased_toLower (c : Char) : table.cased c.toLower = table.cased c := by
  refine toLower_invariant table.cased (fun i hi => ?_) c
  rw [table.cased_ascii _ (letters_lt i hi).1, table.cased_ascii _ (letters_lt i hi).2]
  revert i
  decide

theorem caseIgnorable_toLower (c : Char) : table.caseIgnorable c.toLower = table.caseIgnorable c := by
  refine toLower_invariant table.caseIgnorable (fun i hi => ?_) c
  rw [table.caseIgnorable_ascii _ (letters_lt i hi).1,
    table.caseIgnorable_ascii _ (letters_lt i hi).2]
  revert i
  decide

theorem toLower_eq_sigma_iff (c : Char) : c.toLower = 'Σ' ↔ c = 'Σ' :=
  toLower_eq_iff (by decide) c

theorem caseIgnorableThenCased_map (cs : List Char) :
    table.caseIgnorableThenCased (cs.map Char.toLower) = table.caseIgnorableThenCased cs := by
  induction cs with
  | nil => rfl
  | cons c cs ih =>
    unfold caseIgnorableThenCased at ih ⊢
    rw [map_cons, dropWhile_cons, dropWhile_cons, table.caseIgnorable_toLower]
    by_cases hc : table.caseIgnorable c
    · rw [if_pos hc, if_pos hc]
      exact ih
    · rw [if_neg hc, if_neg hc]
      exact table.cased_toLower c

theorem lowercaseFrom_map (before cs : List Char) :
    table.lowercaseFrom (before.map Char.toLower) (cs.map Char.toLower) =
      table.lowercaseFrom before cs := by
  induction cs generalizing before with
  | nil => rfl
  | cons c cs ih =>
    have ih' := ih (c :: before)
    rw [map_cons] at ih'
    rw [map_cons, lowercaseFrom, lowercaseFrom, ih']
    congr 1
    by_cases hc : c = 'Σ'
    · rw [if_pos ((toLower_eq_sigma_iff c).mpr hc), if_pos hc]
      unfold mapUppercaseSigma
      rw [caseIgnorableThenCased_map, caseIgnorableThenCased_map]
    · rw [if_neg (mt (toLower_eq_sigma_iff c).mp hc), if_neg hc, table.mapping_toLower]

/-- A character whose lower case is that of ASCII: one of ASCII, or one without another form. -/
def Plain (c : Char) : Prop := c.toNat < 128 ∨ (table.mapping c = [c] ∧ c ≠ 'Σ')

theorem lowercaseFrom_cons_of_plain {c : Char} (h : table.Plain c) (before cs : List Char) :
    table.lowercaseFrom before (c :: cs) = c.toLower :: table.lowercaseFrom (c :: before) cs := by
  have hne : c ≠ 'Σ' := by
    rcases h with hc | ⟨-, hne⟩
    · rintro rfl
      exact absurd hc (by decide)
    · exact hne
  rw [lowercaseFrom, if_neg hne]
  by_cases hc : c.toNat < 128
  · rw [table.mapping_ascii c hc]
    rfl
  · have hmap : table.mapping c = [c] := by
      rcases h with h | h
      · exact absurd h hc
      · exact h.1
    rw [hmap, toLower_of_le (by omega)]
    rfl

/-- What stands first is lower-cased as in ASCII, whatever follows it. -/
theorem lowercaseFrom_append_of_plain {cs : List Char} (h : ∀ c ∈ cs, table.Plain c)
    (before ds : List Char) : table.lowercaseFrom before (cs ++ ds) =
      cs.map Char.toLower ++ table.lowercaseFrom (cs.reverse ++ before) ds := by
  induction cs generalizing before with
  | nil => rfl
  | cons c cs ih => grind [table.lowercaseFrom_cons_of_plain]

theorem lowercaseFrom_of_plain {cs : List Char} (h : ∀ c ∈ cs, table.Plain c)
    (before : List Char) : table.lowercaseFrom before cs = cs.map Char.toLower := by
  have happ := table.lowercaseFrom_append_of_plain h before []
  rwa [append_nil, lowercaseFrom, append_nil] at happ

end CaseTable

theorem punctuation_ascii : ∀ c : Char, c.toNat < 128 →
    [0x27, 0x2e, 0x3a, 0x5e, 0x60].contains c.toNat = [0x27, 0x2e, 0x3a, 0x5e, 0x60].contains c.toNat :=
  fun _ _ => rfl

/-- Lower-casing of ASCII. -/
def asciiTable : CaseTable where
  mapping c := [c.toLower]
  cased c := c.isAlpha
  caseIgnorable c := [0x27, 0x2e, 0x3a, 0x5e, 0x60].contains c.toNat
  mapping_ascii _ _ := rfl
  cased_ascii _ _ := rfl
  caseIgnorable_ascii := punctuation_ascii

end Mizu
