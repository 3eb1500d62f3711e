import Mizu.Logic.Parse.Cut

/-!
# Which actions are assignments

* `startsAssignment_iff_tokens`: an identifier and a `=` start the text if they are its first tokens.
* `isAssignment_iff`: what is taken for an assignment.
* `isAssignment_iff_startsAssignment`: when that is an assignment by its first tokens.
-/

namespace Mizu

open List Option

/-! ## The first bare `=` -/

/-- A `=` between two parts of a text that makes no comparison with its neighbours. -/
def IsBareEq (before after : List Char) : Prop :=
  before.getLast?.any isComparisonStart = false ∧ after.head? ≠ some '='

def HasBareEq (s : List Char) : Prop := ∃ before after, s = before ++ '=' :: after ∧ IsBareEq before after

theorem findAssignmentEqAfter_isSome_iff (prev : Option Char) (s : List Char) :
    (findAssignmentEqAfter prev s).isSome = true ↔
      ∃ before after, s = before ++ '=' :: after ∧
        (before.getLast?.or prev).any isComparisonStart = false ∧ after.head? ≠ some '=' := by
  induction s generalizing prev with
  | nil =>
    refine ⟨fun h => (nomatch h), ?_⟩
    rintro ⟨before, after, h, -⟩
    simp at h
  | cons c cs ih =>
    rw [findAssignmentEqAfter]
    split
    · next hhere =>
      obtain ⟨rfl, hprev, hnext⟩ := hhere
      exact ⟨fun _ => ⟨[], cs, rfl, by simpa using hprev, hnext⟩, fun _ => rfl⟩
    · next hhere =>
      rw [isSome_map, ih]
      constructor
      · grind
      · rintro ⟨before, after, heq, hbare⟩
        cases before with
        | nil => grind
        | cons d before => grind

theorem findAssignmentEq_isSome_iff (s : List Char) : (findAssignmentEq s).isSome = true ↔ HasBareEq s := by
  simp only [findAssignmentEq, findAssignmentEqAfter_isSome_iff, or_none, HasBareEq, IsBareEq]

/-! ## What an assignment starts with -/

/-- An identifier. -/
structure IsIdent (cs : List Char) : Prop where
  starts : cs.head?.any isIdentStart = true
  continues : ∀ c ∈ cs.tail, isIdentChar c = true
  noBool : ∃ name, wordToken cs = .ident name

/-- An identifier and a `=` that starts no comparison. -/
def StartsAssignment (s : List Char) : Prop :=
  ∃ name blanks after, s = name ++ (blanks ++ '=' :: after) ∧ IsIdent name ∧
    (∀ c ∈ blanks, c = ' ' ∨ c = '\t') ∧ after.head? ≠ some '='

section Ident

variable {cs : List Char} (h : IsIdent cs)
include h

theorem IsIdent.exists_cons : ∃ c rest, cs = c :: rest ∧ isIdentStart c = true ∧ ∀ d ∈ rest, isIdentChar d = true := by
  obtain ⟨hstarts, hcontinues, -⟩ := h
  cases cs with
  | nil => cases hstarts
  | cons c rest => exact ⟨c, rest, rfl, hstarts, hcontinues⟩

theorem IsIdent.forall_mem {p : Char → Prop} (hstart : ∀ c, isIdentStart c = true → p c)
    (hchar : ∀ c, isIdentChar c = true → p c) : ∀ c ∈ cs, p c := by
  obtain ⟨c, rest, rfl, hc, hrest⟩ := h.exists_cons
  intro d hd
  rcases mem_cons.mp hd with rfl | hd
  · exact hstart d hc
  · exact hchar d (hrest d hd)

theorem IsIdent.not_mem {c : Char} (hstart : isIdentStart c = false) (hchar : isIdentChar c = false) : c ∉ cs := by
  intro hmem
  refine h.forall_mem (p := (· ≠ c)) (fun d hd hne => ?_) (fun d hd hne => ?_) c hmem rfl
  · rw [hne, hstart] at hd
    cases hd
  · rw [hne, hchar] at hd
    cases hd

end Ident

section Operators

variable {c : Char} {next : Option Char} {k : Nat}

theorem operatorToken_ne_ident (name : String) : operatorToken c next ≠ some (.ident name, k) := by
  intro h
  unfold operatorToken at h
  iterate 22 refine of_ite h (fun _ heq => nomatch heq) fun _ h => ?_
  cases h

theorem operatorToken_eq (h : operatorToken c next = some (.eq, k)) : c = '=' ∧ next ≠ some '=' ∧ k = 1 := by
  unfold operatorToken at h
  refine of_ite h (fun _ heq => nomatch heq) fun hdouble h => ?_
  iterate 5 refine of_ite h (fun _ heq => nomatch heq) fun _ h => ?_
  refine of_ite h (fun hc heq => ?_) fun _ h => ?_
  · cases heq
    exact ⟨hc, fun hnext => hdouble ⟨hc, hnext⟩, rfl⟩
  iterate 15 refine of_ite h (fun _ heq => nomatch heq) fun _ h => ?_
  cases h

end Operators

section Tokens

variable {n : Nat} {last o : Option Token} {c : Char} {cs rest s : List Char} {toks : List Token}

theorem wordToken_ne_eq (word : List Char) : wordToken word ≠ .eq := by
  unfold wordToken
  split
  · exact nofun
  · split <;> exact nofun

theorem lexStep_cases (h : lexStep n last c cs = .ok (o, rest)) :
    (∀ name, o = some (.ident name) →
      isIdentStart c = true ∧ wordToken (c :: cs.takeWhile isIdentChar) = .ident name ∧
        rest = cs.dropWhile isIdentChar) ∧
      (o = some .eq → c = '=' ∧ cs.head? ≠ some '=' ∧ rest = cs) ∧
      (o = none → (c = ' ' ∨ c = '\t') ∧ rest = cs) := by
  unfold lexStep at h
  split at h
  · next hblank =>
    cases h
    exact ⟨nofun, nofun, fun _ => ⟨hblank, rfl⟩⟩
  · split at h
    · grind
    · split at h
      · grind
      · split at h
        · grind [wordToken_ne_eq]
        · split at h
          · next tok advance hop =>
            cases h
            refine ⟨fun name heq => ?_, fun heq => ?_, nofun⟩
            · grind [operatorToken_ne_ident]
            · rw [some.inj heq] at hop
              obtain ⟨hc, hnext, rfl⟩ := operatorToken_eq hop
              exact ⟨hc, hnext, rfl⟩
          · cases h

theorem lexStep_word (hstart : isIdentStart c = true) :
    lexStep n last c cs = .ok (some (wordToken (c :: cs.takeWhile isIdentChar)), cs.dropWhile isIdentChar) := by
  have hne : ∀ d, isIdentStart d = false → c ≠ d := by grind
  have hdigit : isAsciiDigit c = false := by
    simp only [isIdentStart, isAsciiAlphabetic, Bool.or_eq_true, Bool.and_eq_true, decide_eq_true_eq,
      Char.reduceToNat] at hstart
    simp only [isAsciiDigit, Bool.and_eq_false_iff, decide_eq_false_iff_not, Char.reduceToNat]
    rcases hstart with (hletter | rfl) | rfl
    · omega
    · decide
    · decide
  unfold lexStep
  rw [if_neg (by simp [hne ' ' rfl, hne '\t' rfl]), if_neg (hne '"' rfl), if_neg (by simp [hdigit, hne '-' rfl]),
    if_pos hstart]

theorem lexStep_bareEq (h : cs.head? ≠ some '=') : lexStep n last '=' cs = .ok (some .eq, cs) := by
  unfold lexStep
  rw [if_neg (by decide), if_neg (by decide), if_neg (by simp [isAsciiDigit]), if_neg (by decide)]
  simp [operatorToken, h]

theorem lexStep_skip (h : c = ' ' ∨ c = '\t') : lexStep n last c cs = .ok (none, cs) := if_pos h

/-- A `=` that is read next stands behind blanks. -/
theorem LexesFrom.bareEq_iff (h : LexesFrom n last s toks) :
    (∃ more, toks = .eq :: more) ↔
      ∃ blanks after, s = blanks ++ '=' :: after ∧ (∀ c ∈ blanks, c = ' ' ∨ c = '\t') ∧ after.head? ≠ some '=' := by
  induction h with
  | nil last => simp
  | skip hstep _ ih =>
    obtain ⟨hblank, rfl⟩ := (lexStep_cases hstep).2.2 rfl
    rw [ih]
    constructor
    · grind
    · rintro ⟨blanks, after, heq, hblanks, hafter⟩
      cases blanks with
      | nil => grind
      | cons b blanks => grind
  | token hstep _ _ =>
    constructor
    · rintro ⟨more, heq⟩
      cases heq
      obtain ⟨rfl, hafter, rfl⟩ := (lexStep_cases hstep).2.1 rfl
      exact ⟨[], _, rfl, nofun, hafter⟩
    · rintro ⟨blanks, after, heq, hblanks, hafter⟩
      cases blanks with
      | nil =>
        cases heq
        cases hstep.symm.trans (lexStep_bareEq hafter)
        exact ⟨_, rfl⟩
      | cons b blanks => grind [lexStep_skip, mem_cons_self]

theorem takeWhile_append_all {p : Char → Bool} {xs ys : List Char} (hxs : ∀ x ∈ xs, p x = true)
    (hys : ys.head?.any p = false) : (xs ++ ys).takeWhile p = xs ∧ (xs ++ ys).dropWhile p = ys := by
  have hnone : ys.takeWhile p = [] ∧ ys.dropWhile p = ys := by
    cases ys with
    | nil => exact ⟨rfl, rfl⟩
    | cons y ys =>
      have hy : p y = false := hys
      simp [hy]
  rw [takeWhile_append_of_pos hxs, dropWhile_append_of_pos hxs, hnone.1, hnone.2, append_nil]
  exact ⟨rfl, rfl⟩

/-- Of a text that is tokenised, the first tokens decide. -/
theorem startsAssignment_iff_tokens (hstarts : ∀ c, s.head? = some c → isWhitespace c = false)
    (h : LexesFrom n last s toks) : StartsAssignment s ↔ ∃ name more, toks = .ident name :: .eq :: more := by
  constructor
  · rintro ⟨name, blanks, after, rfl, hname, hblanks, hafter⟩
    obtain ⟨c, rest, rfl, hc, hrest⟩ := hname.exists_cons
    obtain ⟨word, hword⟩ := hname.noBool
    have hstop : (blanks ++ '=' :: after).head?.any isIdentChar = false := by
      cases blanks with
      | nil => rfl
      | cons b blanks => rcases hblanks b mem_cons_self with rfl | rfl <;> rfl
    obtain ⟨htake, hdrop⟩ := takeWhile_append_all hrest hstop
    have hstep := @lexStep_word n last c (rest ++ (blanks ++ '=' :: after)) hc
    rw [htake, hdrop, hword] at hstep
    cases h with
    | skip hstep' _ => cases hstep.symm.trans hstep'
    | token hstep' hmore =>
      cases hstep.symm.trans hstep'
      obtain ⟨more, rfl⟩ := hmore.bareEq_iff.mpr ⟨blanks, after, rfl, hblanks, hafter⟩
      exact ⟨word, more, rfl⟩
  · rintro ⟨name, more, rfl⟩
    cases h with
    | skip hstep _ =>
      obtain ⟨hblank, rfl⟩ := (lexStep_cases hstep).2.2 rfl
      have hnot := hstarts _ rfl
      rcases hblank with rfl | rfl <;> cases hnot
    | @token _ c cs rest _ _ hstep hmore =>
      obtain ⟨hc, hword, rfl⟩ := (lexStep_cases hstep).1 name rfl
      obtain ⟨blanks, after, hrest, hblanks, hafter⟩ := hmore.bareEq_iff.mp ⟨more, rfl⟩
      refine ⟨c :: cs.takeWhile isIdentChar, blanks, after, ?_, ⟨hc, ?_, name, hword⟩, hblanks, hafter⟩
      · rw [← hrest, cons_append, takeWhile_append_dropWhile]
      · exact fun d hd => mem_takeWhile_imp hd

end Tokens

/-! ## What an action is taken for -/

/-- A verb or `navigate`, with a space behind it, starts the action. -/
def StartsSpacedWord (s : List Char) : Prop :=
  (spacedVerb s).isSome = true ∨ "navigate ".toList.isPrefixOf s = true

/-- Something else than an assignment starts the action. -/
def StartsOther (s : List Char) : Prop :=
  (foldedCall s).isSome = true ∨ "download(".toList.isPrefixOf s = true ∨ StartsSpacedWord s

/-- An action is taken for an assignment. -/
def IsAssignment (s : List Char) : Prop := ∃ lhs rhs, actionForm s = .assign lhs rhs

section Form

variable {s : List Char}

theorem upperChars_prefix {method : NetworkMethod} (h : (method.asStr ++ "(").toList.isPrefixOf s = true) :
    (method.asStr ++ "(").toList.isPrefixOf (upperChars s) = true := by
  rw [ isPrefixOf_iff_prefix] at h ⊢
  have hupper := h.map Char.toUpper
  cases method <;> exact hupper

theorem foldedCall_isSome_iff : (foldedCall s).isSome = true ↔
    ∃ method : NetworkMethod, (method.asStr ++ "(").toList.isPrefixOf (upperChars s) = true := by
  rw [foldedCall, List.findSome?_isSome_iff]
  constructor
  · grind
  · rintro ⟨method, h⟩
    refine ⟨method, by cases method <;> decide, ?_⟩
    rw [if_pos h]
    rfl

/-- An action is taken for an assignment if nothing else starts it and a bare `=` is anywhere in it. -/
theorem isAssignment_iff : IsAssignment s ↔ ¬ StartsOther s ∧ HasBareEq s := by
  unfold IsAssignment actionForm
  have hrefuse : ∀ {form : ActionForm}, (∀ lhs rhs, form ≠ .assign lhs rhs) → StartsOther s →
      ((∃ lhs rhs, form = .assign lhs rhs) ↔ ¬ StartsOther s ∧ HasBareEq s) := fun hform hother =>
    ⟨fun ⟨lhs, rhs, h⟩ => absurd h (hform lhs rhs), fun h => absurd hother h.1⟩
  split
  · next method hfind =>
    have hprefix := List.find?_some hfind
    exact hrefuse nofun (.inl (foldedCall_isSome_iff.mpr ⟨method, upperChars_prefix hprefix⟩))
  · split
    · next hfolded => exact hrefuse nofun (.inl (by rw [hfolded]; rfl))
    · next hfolded =>
      split
      · next hspaced => exact hrefuse nofun (.inr (.inr (.inl (by rw [hspaced]; rfl))))
      · next hspaced =>
        split
        · next hdownload => exact hrefuse nofun (.inr (.inl hdownload))
        · next hdownload =>
          split
          · next hnavigate => exact hrefuse nofun (.inr (.inr (.inr hnavigate)))
          · next hnavigate =>
            have hother : ¬ StartsOther s := by
              rintro (h | h | h | h)
              · rw [hfolded] at h
                cases h
              · exact hdownload h
              · rw [hspaced] at h
                cases h
              · exact hnavigate h
            rw [← findAssignmentEq_isSome_iff]
            split
            · next lhs rhs hfind => exact ⟨fun _ => ⟨hother, by rw [hfind]; rfl⟩, fun _ => ⟨lhs, rhs, rfl⟩⟩
            · grind

end Form

/-! ## Assignments by their start -/

theorem append_cons_ne {x y : Char} {u w a b : List Char} (hne : x ≠ y) (hu : x ∉ u) (hw : y ∉ w) :
    u ++ y :: a ≠ w ++ x :: b := by
  induction u generalizing w with
  | nil =>
    cases w with
    | nil => exact fun h => hne (List.cons.inj h).1.symm
    | cons d w => exact fun h => hw ((List.cons.inj h).1 ▸ mem_cons_self)
  | cons c u ih =>
    cases w with
    | nil => exact fun h => hu ((List.cons.inj h).1 ▸ mem_cons_self)
    | cons d w => grind

theorem toUpper_eq_paren {c : Char} (h : c.toUpper = '(') : c = '(' := by
  unfold Char.toUpper at h
  split at h
  · next hrange =>
    have hval := congrArg (·.val.toNat) h
    simp [UInt32.le_iff_toNat_le, UInt32.toNat_add] at hval hrange
    omega
  · exact h

namespace StartsAssignment

variable {s : List Char} (h : StartsAssignment s)
include h

theorem hasBareEq : HasBareEq s := by
  obtain ⟨name, blanks, after, rfl, hname, hblanks, hafter⟩ := h
  refine ⟨name ++ blanks, after, (append_assoc ..).symm, ?_, hafter⟩
  cases hlast : (name ++ blanks).getLast? with
  | none => rfl
  | some c =>
    rcases mem_append.mp (mem_of_getLast? hlast) with hc | hc
    · have hnot : ∀ d, isIdentStart d = false → isIdentChar d = false → c ≠ d := by
        rintro d hstart hchar rfl
        exact hname.not_mem hstart hchar hc
      simp [isComparisonStart, hnot '!' rfl rfl, hnot '<' rfl rfl, hnot '>' rfl rfl, hnot '=' rfl rfl]
    · rcases hblanks c hc with rfl | rfl <;> rfl

theorem exists_append : ∃ before after, s = before ++ '=' :: after ∧ '(' ∉ before := by
  obtain ⟨name, blanks, after, rfl, hname, hblanks, -⟩ := h
  refine ⟨name ++ blanks, after, (append_assoc ..).symm, fun hmem => ?_⟩
  rcases mem_append.mp hmem with hmem | hmem
  · exact hname.not_mem rfl rfl hmem
  · rcases hblanks _ hmem with h | h <;> cases h

/-- Nothing but a word with a space may come in its way. -/
theorem startsOther_iff : StartsOther s ↔ StartsSpacedWord s := by
  refine ⟨fun hother => ?_, fun hspaced => .inr (.inr hspaced)⟩
  obtain ⟨before, after, rfl, hparen⟩ := h.exists_append
  rcases hother with hfolded | hdownload | hspaced
  · obtain ⟨method, hprefix⟩ := foldedCall_isSome_iff.mp hfolded
    obtain ⟨t, ht⟩ := isPrefixOf_iff_prefix.mp hprefix
    have hupper : upperChars (before ++ '=' :: after) = upperChars before ++ '=' :: upperChars after := by
      simp [upperChars]
    have hnot : '(' ∉ upperChars before := by
      intro hmem
      obtain ⟨c, hc, heq⟩ := mem_map.mp hmem
      exact hparen (toUpper_eq_paren heq ▸ hc)
    have hname : '=' ∉ method.asStr.toList := by cases method <;> decide
    rw [hupper, String.toList_append, append_assoc] at ht
    exact absurd ht.symm (append_cons_ne (by decide) hnot hname)
  · obtain ⟨t, ht⟩ := isPrefixOf_iff_prefix.mp hdownload
    have hname : '=' ∉ "download".toList := by decide
    exact absurd ht.symm (append_cons_ne (by decide) hparen hname)
  · exact hspaced

end StartsAssignment

/-- An action is an assignment by its start if and only if it is taken for one, unless a word with a space comes in the
way of the identifier or the bare `=` comes later. -/
theorem isAssignment_iff_startsAssignment (s : List Char) :
    (IsAssignment s ↔ StartsAssignment s) ↔
      (StartsAssignment s → ¬ StartsSpacedWord s) ∧ (¬ StartsAssignment s → StartsOther s ∨ ¬ HasBareEq s) := by
  rw [isAssignment_iff]
  by_cases h : StartsAssignment s
  · simp [h, h.hasBareEq, h.startsOther_iff]
  · simp only [h, iff_false, not_and_or, not_not, false_imp_iff, not_false_iff, true_imp_iff, true_and]

end Mizu
