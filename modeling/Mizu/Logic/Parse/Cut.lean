import Mizu.Logic.Parse.Action
import Mizu.Logic.Parse.Progress

/-!
# Tokens of a text that is cut

`LexesFrom` is the tokeniser of one line as a relation, with no bound on the steps.

* `lexFrom_ok_iff`: it is what the tokeniser accepts.
* `LexesFrom.split`: the tokens of a text up to a separator come first among those of the whole text.
* `LexesFrom.passes`: the search for a closing parenthesis passes over a text as its tokens do.
* `lex_line`: the tokens of a text of one line.
-/

namespace Mizu

open List Option

/-! ## The tokeniser as a relation -/

/-- The tokens of the rest of a line, after `last`. -/
inductive LexesFrom (lineNum : Nat) : Option Token → List Char → List Token → Prop
  | nil (last : Option Token) : LexesFrom lineNum last [] []
  | skip {last : Option Token} {c : Char} {cs rest : List Char} {toks : List Token}
    (step : lexStep lineNum last c cs = .ok (none, rest)) (more : LexesFrom lineNum last rest toks) :
    LexesFrom lineNum last (c :: cs) toks
  | token {last : Option Token} {c : Char} {cs rest : List Char} {tok : Token} {toks : List Token}
    (step : lexStep lineNum last c cs = .ok (some tok, rest)) (more : LexesFrom lineNum (some tok) rest toks) :
    LexesFrom lineNum last (c :: cs) (tok :: toks)

section Relation

variable {n : Nat} {last : Option Token} {c : Char} {cs rest : List Char} {o : Option Token} {toks : List Token}

theorem scanString_eq {s : List Char} (h : scanString cs = some (s, rest)) : cs = s ++ '"' :: rest := by
  induction cs using scanString.induct generalizing s with
  | case1 => cases h
  | case2 | case4 =>
    cases h
    rfl
  | case3 c hc =>
    rw [scanString, if_neg hc] at h
    cases h
  | case5 d cs hquote ih =>
    rw [scanString, if_neg hquote, if_pos rfl] at h
    obtain ⟨⟨s', rest'⟩, hscan, heq⟩ := map_eq_some_iff.mp h
    cases heq
    rw [ih hscan]
    rfl
  | case6 c d cs hquote hslash ih =>
    rw [scanString, if_neg hquote, if_neg hslash] at h
    obtain ⟨⟨s', rest'⟩, hscan, heq⟩ := map_eq_some_iff.mp h
    cases heq
    rw [ih hscan]
    rfl

/-- A character that is no quote and hides none belongs to the string. -/
theorem scanString_cons (hquote : c ≠ '"') (hslash : c ≠ '\\') (cs : List Char) :
    scanString (c :: cs) = (scanString cs).map fun (s, rest) => (c :: s, rest) := by
  cases cs with
  | nil => simp [scanString, hquote]
  | cons d cs => rw [scanString, if_neg hquote, if_neg hslash]

/-- The content of a string is read again, whatever follows it. -/
theorem scanString_content {s : List Char} (h : scanString cs = some (s, rest)) (ys : List Char) :
    scanString (s ++ '"' :: ys) = some (s, ys) := by
  have hempty : scanString ('"' :: ys) = some ([], ys) := by cases ys <;> rfl
  induction cs using scanString.induct generalizing s with
  | case1 => cases h
  | case2 | case4 =>
    cases h
    exact hempty
  | case3 c hc =>
    rw [scanString, if_neg hc] at h
    cases h
  | case5 d cs hquote ih =>
    rw [scanString, if_neg hquote, if_pos rfl] at h
    obtain ⟨⟨s', rest'⟩, hscan, heq⟩ := map_eq_some_iff.mp h
    cases heq
    rw [cons_append, cons_append, scanString, if_neg hquote, if_pos rfl, ih hscan]
    rfl
  | case6 c d cs hquote hslash ih => grind [scanString_cons, map_eq_some_iff]

/-- What follows a string does not matter to it. -/
theorem scanString_append {s : List Char} (h : scanString cs = some (s, rest)) (ys : List Char) :
    scanString (cs ++ ys) = some (s, rest ++ ys) := by
  rw [scanString_eq h, append_assoc]
  exact scanString_content h (rest ++ ys)

/-- The characters that the search for a parenthesis passes over. -/
def isSilent (c : Char) : Bool := c ≠ '"' && c ≠ '(' && c ≠ ')'

theorem of_ite {α : Type} {p : Prop} [Decidable p] {x y : Option α} {a : α} {q : Prop}
    (h : (if p then x else y) = some a) (hp : p → x = some a → q) (hn : ¬ p → y = some a → q) : q := by
  grind

/-- How far an operator goes, and which are parentheses. -/
theorem operatorToken_cases {next : Option Char} {tok : Token} {advance : Nat}
    (h : operatorToken c next = some (tok, advance)) :
    (∃ d, advance = 2 ∧ next = some d ∧ (d = '=' ∨ d = '&' ∨ d = '|') ∧ isSilent c = true ∧ tok.isParen = false) ∨
      advance = 1 ∧ (c = '(' ∧ tok = .lParen ∨ c = ')' ∧ tok = .rParen ∨
        isSilent c = true ∧ tok.isParen = false) := by
  unfold operatorToken at h
  -- Six operators of two characters, then sixteen of one.
  iterate 22
    refine of_ite h (fun hc heq => ?_) fun _ h => ?_
    · cases heq
      first
        | exact .inr ⟨rfl, .inr (.inr ⟨by rw [hc]; rfl, rfl⟩)⟩
        | exact .inr ⟨rfl, .inl ⟨hc, rfl⟩⟩
        | exact .inr ⟨rfl, .inr (.inl ⟨hc, rfl⟩)⟩
        | exact .inl ⟨_, rfl, hc.2, by simp, by rw [hc.1]; rfl, rfl⟩
  cases h

/-- A step takes the character it starts at, and more from the front. -/
theorem lexStep_suffix (h : lexStep n last c cs = .ok (o, rest)) : rest <:+ cs := by
  unfold lexStep at h
  split at h
  · cases h
    exact suffix_refl _
  · split at h
    · split at h
      · next hscan =>
        cases h
        rw [scanString_eq hscan]
        exact (suffix_cons _ _).trans (suffix_append _ _)
      · cases h
    · grind [dropWhile_suffix, drop_suffix]

/-- The tokeniser accepts what the relation says, with enough steps. -/
theorem lexFrom_ok_iff {fuel : Nat} (hfuel : cs.length ≤ fuel) :
    lexFrom n fuel last cs = .ok toks ↔ LexesFrom n last cs toks := by
  induction fuel generalizing cs last toks with
  | zero =>
    obtain rfl := length_eq_zero_iff.mp (Nat.le_zero.mp hfuel)
    constructor
    · intro h
      cases h
      exact .nil last
    · intro h
      cases h
      rfl
  | succ fuel ih =>
    cases cs with
    | nil =>
      constructor
      · intro h
        cases h
        exact .nil last
      · intro h
        cases h
        rfl
    | cons c cs =>
      have hle : ∀ {o rest}, lexStep n last c cs = .ok (o, rest) → rest.length ≤ fuel := fun hstep =>
        (lexStep_suffix hstep).length_le.trans (Nat.le_of_succ_le_succ hfuel)
      rw [lexFrom]
      constructor
      · intro h
        split at h
        · cases h
        · next hstep => exact .skip hstep ((ih (hle hstep)).mp h)
        · next hstep =>
          split at h
          · cases h
          · next hmore =>
            cases h
            exact .token hstep ((ih (hle hstep)).mp hmore)
      · intro h
        cases h with
        | skip | token => grind

end Relation

/-! ## Cutting at a separator -/

/-- A character that belongs to no token before it. -/
def endsToken (c : Char) : Bool := c = ',' || isWhitespace c

variable {p : Char → Bool}

section Cut

variable {n : Nat} {last : Option Token} {c x : Char} {cs xs rest : List Char} {o : Option Token} {toks : List Token}

theorem takeWhile_append_stop (hx : p x = false) (cs xs : List Char) :
    (cs ++ x :: xs).takeWhile p = cs.takeWhile p := by
  induction cs with
  | nil => simp [hx]
  | cons c cs ih => simp only [cons_append, takeWhile_cons, ih]

theorem dropWhile_append_stop (hx : p x = false) (cs xs : List Char) :
    (cs ++ x :: xs).dropWhile p = cs.dropWhile p ++ x :: xs := by
  induction cs with
  | nil => simp [hx]
  | cons c cs ih =>
    simp only [cons_append, dropWhile_cons, ih]
    split <;> rfl

theorem endsToken_not (hx : endsToken x = true) {d : Char} (hd : endsToken d = false) : x ≠ d := by
  grind

/-- It continues no number and no name. -/
theorem endsToken_stops (hx : endsToken x = true) : isNumChar x = false ∧ isIdentChar x = false := by
  have hpoint : x ≠ '.' := endsToken_not hx (by decide)
  have hunderscore : x ≠ '_' := endsToken_not hx (by decide)
  have hrange : x.toNat = 44 ∨ x.toNat ≤ 32 ∨ 133 ≤ x.toNat := by
    simp only [endsToken, isWhitespace, Bool.or_eq_true, decide_eq_true_eq, Bool.and_eq_true] at hx
    rcases hx with rfl | hx
    · exact .inl rfl
    · omega
  have hdigit : isAsciiDigit x = false := by
    simp only [isAsciiDigit, Bool.and_eq_false_iff, decide_eq_false_iff_not, Char.reduceToNat]
    omega
  have halpha : isAsciiAlphabetic x = false := by
    simp only [isAsciiAlphabetic, Bool.or_eq_false_iff, Bool.and_eq_false_iff, decide_eq_false_iff_not,
      Char.reduceToNat]
    omega
  simp [isNumChar, isIdentChar, hdigit, halpha, hpoint, hunderscore]

theorem isAsciiDigit_of_endsToken (hx : endsToken x = true) : isAsciiDigit x = false :=
  (Bool.or_eq_false_iff.mp (endsToken_stops hx).1).1

theorem operatorToken_append (hx : endsToken x = true) :
    operatorToken c (cs ++ x :: xs).head? = operatorToken c cs.head? := by
  cases cs with
  | cons d cs => rfl
  | nil =>
    have heq : x ≠ '=' := endsToken_not hx (by decide)
    have hand : x ≠ '&' := endsToken_not hx (by decide)
    have hor : x ≠ '|' := endsToken_not hx (by decide)
    simp [operatorToken, heq, hand, hor]

theorem lexStep_append (hx : endsToken x = true) (h : lexStep n last c cs = .ok (o, rest)) :
    lexStep n last c (cs ++ x :: xs) = .ok (o, rest ++ x :: xs) := by
  obtain ⟨hnum, hident⟩ := endsToken_stops hx
  have hdigit : (cs ++ x :: xs).head?.any isAsciiDigit = cs.head?.any isAsciiDigit := by
    cases cs with
    | nil => exact isAsciiDigit_of_endsToken hx
    | cons d cs => rfl
  unfold lexStep at h ⊢
  rw [hdigit, takeWhile_append_stop hnum, dropWhile_append_stop hnum, takeWhile_append_stop hident,
    dropWhile_append_stop hident, operatorToken_append hx]
  split at h
  · next hblank =>
    cases h
    rw [if_pos hblank]
  · next hblank =>
    rw [if_neg hblank]
    split at h
    · next hquote =>
      rw [if_pos hquote]
      split at h
      · next hscan =>
        cases h
        rw [scanString_append hscan]
      · cases h
    · next hquote =>
      rw [if_neg hquote]
      split at h
      · grind
      · next hstart =>
        rw [if_neg hstart]
        split at h
        · next hword =>
          cases h
          rw [if_pos hword]
        · next hword =>
          rw [if_neg hword]
          split at h
          · next tok advance hop =>
            cases h
            have hlength : advance - 1 ≤ cs.length := by
              rcases operatorToken_cases hop with ⟨d, rfl, hd, -⟩ | ⟨rfl, -⟩
              · grind
              · exact Nat.zero_le _
            rw [drop_append_of_le_length hlength]
          · cases h

/-- The tokens of a text up to a separator come first among those of the whole text. -/
theorem LexesFrom.split {toks' : List Token} (hx : endsToken x = true) (h : LexesFrom n last cs toks)
    (h' : LexesFrom n last (cs ++ x :: xs) toks') :
    ∃ last' more, toks' = toks ++ more ∧ LexesFrom n last' (x :: xs) more := by
  induction h generalizing toks' with
  | nil last => exact ⟨last, toks', rfl, h'⟩
  | skip hstep _ ih =>
    have hstep' := @lexStep_append _ _ _ x _ xs _ _ hx hstep
    cases h' with
    | skip hstep'' hmore =>
      cases hstep''.symm.trans hstep'
      exact ih hmore
    | token hstep'' hmore => cases hstep''.symm.trans hstep'
  | token hstep _ ih =>
    have hstep' := @lexStep_append _ _ _ x _ xs _ _ hx hstep
    cases h' with
    | skip hstep'' hmore => cases hstep''.symm.trans hstep'
    | token hstep'' hmore =>
      cases hstep''.symm.trans hstep'
      obtain ⟨last', more, rfl, hrest⟩ := ih hmore
      exact ⟨last', more, rfl, hrest⟩

end Cut

/-! ## Parentheses -/

/-- How many parentheses are open behind a token; none if it closes one that is not open. -/
def Token.depth (depth : Nat) : Token → Option Nat
  | .lParen => some (depth + 1)
  | .rParen => if depth = 0 then none else some (depth - 1)
  | _ => some depth

def tokDepth (depth : Nat) : List Token → Option Nat
  | [] => some depth
  | tok :: toks => (tok.depth depth).bind (tokDepth · toks)

/-- The search for a closing parenthesis passes over a text, from one depth to another. -/
def Passes (cs : List Char) (d d' : Nat) : Prop :=
  ∀ ys, findMatchingParen d false (cs ++ ys) =
    (findMatchingParen d' false ys).map fun (inside, after) => (cs ++ inside, after)

section Passes

variable {cs cs' : List Char} {d d' d'' : Nat} {c : Char}

theorem Token.depth_of_not_paren {tok : Token} (h : tok.isParen = false) (d : Nat) : tok.depth d = some d := by
  cases tok <;> first | rfl | cases h

theorem Passes.nil (d : Nat) : Passes [] d d := by
  intro ys
  rw [nil_append]
  cases findMatchingParen d false ys <;> rfl

theorem Passes.append (h : Passes cs d d') (h' : Passes cs' d' d'') : Passes (cs ++ cs') d d'' := by
  intro ys
  rw [append_assoc, h, h']
  cases findMatchingParen d'' false ys with
  | none => rfl
  | some r => simp

theorem passes_silent (h : isSilent c = true) (d : Nat) : Passes [c] d d := by
  simp only [isSilent, Bool.and_eq_true, decide_eq_true_eq] at h
  obtain ⟨⟨hquote, hopen⟩, hclose⟩ := h
  intro ys
  cases ys with
  | nil => simp [findMatchingParen, hclose]
  | cons y ys => simp [findMatchingParen, hquote, hopen, hclose]

theorem passes_open (d : Nat) : Passes ['('] d (d + 1) := by
  intro ys
  cases ys with
  | nil | cons => simp [findMatchingParen]

theorem passes_close (d : Nat) : Passes [')'] (d + 1) d := by
  intro ys
  cases ys with
  | nil | cons => simp [findMatchingParen]

theorem passes_all_silent (h : ∀ c ∈ cs, isSilent c = true) (d : Nat) : Passes cs d d := by
  induction cs with
  | nil => exact .nil d
  | cons c cs ih =>
    obtain ⟨hc, hcs⟩ := forall_mem_cons.mp h
    exact (passes_silent hc d).append (ih hcs)

/-- In a string the search ends where the tokeniser does. -/
theorem findMatchingParen_string {s rest : List Char} (h : scanString cs = some (s, rest)) (d : Nat) :
    findMatchingParen d true cs =
      (findMatchingParen d false rest).map fun (inside, after) => (s ++ '"' :: inside, after) := by
  induction cs using scanString.induct generalizing s with
  | case1 => cases h
  | case2 =>
    cases h
    rfl
  | case3 c hc =>
    rw [scanString, if_neg hc] at h
    cases h
  | case4 e cs =>
    cases h
    simp [findMatchingParen]
  | case5 e cs hquote ih =>
    rw [scanString, if_neg hquote, if_pos rfl] at h
    obtain ⟨⟨s', rest'⟩, hscan, heq⟩ := map_eq_some_iff.mp h
    cases heq
    rw [findMatchingParen, if_pos rfl, if_pos rfl, ih hscan]
    cases findMatchingParen d false rest <;> rfl
  | case6 c e cs hquote hslash ih =>
    rw [scanString, if_neg hquote, if_neg hslash] at h
    obtain ⟨⟨s', rest'⟩, hscan, heq⟩ := map_eq_some_iff.mp h
    cases heq
    have hin : decide (c ≠ '"') = true := decide_eq_true hquote
    rw [findMatchingParen, if_pos rfl, if_neg hslash, hin, ih hscan]
    cases findMatchingParen d false rest <;> rfl

theorem passes_string {s rest : List Char} (h : scanString cs = some (s, rest)) (d : Nat) :
    Passes ('"' :: s ++ ['"']) d d := by
  intro ys
  have hcontent := scanString_content h ys
  have hstring := findMatchingParen_string hcontent d
  have hne : s ++ '"' :: ys ≠ [] := by simp
  obtain ⟨e, es, hes⟩ := exists_cons_of_ne_nil hne
  have hopen : findMatchingParen d false ('"' :: (s ++ '"' :: ys)) =
      (findMatchingParen d true (s ++ '"' :: ys)).map fun (inside, after) => ('"' :: inside, after) := by
    rw [hes]
    simp [findMatchingParen]
  rw [show '"' :: s ++ ['"'] ++ ys = '"' :: (s ++ '"' :: ys) by simp, hopen, hstring]
  cases findMatchingParen d false ys with
  | none => rfl
  | some r => simp

/-- A class of characters without quotes and parentheses. -/
theorem isSilent_of (hquote : p '"' = false) (hopen : p '(' = false) (hclose : p ')' = false)
    (h : p c = true) : isSilent c = true := by
  grind [isSilent]

theorem isSilent_of_isNumChar (h : isNumChar c = true) : isSilent c = true := isSilent_of rfl rfl rfl h

theorem isSilent_of_isIdentChar (h : isIdentChar c = true) : isSilent c = true := isSilent_of rfl rfl rfl h

end Passes

section Lexed

variable {n d d' : Nat} {last o : Option Token} {c : Char} {cs rest : List Char} {toks : List Token}

theorem passes_takeWhile (hp : ∀ c, p c = true → isSilent c = true) (hc : isSilent c = true)
    (cs : List Char) (d : Nat) : Passes (c :: cs.takeWhile p) d d := by
  grind [passes_all_silent, mem_takeWhile_imp]

theorem lexStep_passes (h : lexStep n last c cs = .ok (o, rest)) (hd : tokDepth d o.toList = some d') :
    ∃ used, c :: cs = used ++ rest ∧ Passes used d d' := by
  have hsame : ∀ tok : Token, tok.isParen = false → tokDepth d [tok] = some d' → d' = d := by
    grind [tokDepth, Token.depth_of_not_paren]
  unfold lexStep at h
  split at h
  · next hblank =>
    cases h
    cases hd
    refine ⟨[c], rfl, passes_silent ?_ _⟩
    rcases hblank with rfl | rfl <;> rfl
  · split at h
    · next hquote =>
      split at h
      · next s rest' hscan =>
        cases h
        cases hsame _ rfl hd
        refine ⟨'"' :: s ++ ['"'], ?_, passes_string hscan _⟩
        rw [hquote, scanString_eq hscan]
        simp
      · cases h
    · split at h
      · next hstart =>
        have hsilent : isSilent c = true := by
          rcases hstart with hdigit | ⟨rfl, -⟩
          · exact isSilent_of_isNumChar (by rw [isNumChar, hdigit, Bool.true_or])
          · rfl
        split at h
        · cases h
          cases hsame _ rfl hd
          exact ⟨[c], rfl, passes_silent hsilent _⟩
        · cases h
          cases hsame _ rfl hd
          refine ⟨c :: cs.takeWhile isNumChar, ?_, passes_takeWhile (fun _ => isSilent_of_isNumChar) hsilent cs _⟩
          rw [cons_append, takeWhile_append_dropWhile]
      · split at h
        · next hword =>
          cases h
          have hnot : (wordToken (c :: cs.takeWhile isIdentChar)).isParen = false := by
            unfold wordToken
            split
            · rfl
            · split <;> rfl
          cases hsame _ hnot hd
          have hsilent : isSilent c = true := isSilent_of rfl rfl rfl hword
          refine ⟨c :: cs.takeWhile isIdentChar, ?_, passes_takeWhile (fun _ => isSilent_of_isIdentChar) hsilent cs _⟩
          rw [cons_append, takeWhile_append_dropWhile]
        · split at h
          · next tok advance hop =>
            cases h
            rcases operatorToken_cases hop with ⟨e, rfl, he, hchar, hsilent, hnot⟩ | ⟨rfl, hone⟩
            · cases hsame _ hnot hd
              obtain ⟨cs', rfl⟩ := List.head?_eq_some_iff.mp he
              have hnext : isSilent e = true := by rcases hchar with rfl | rfl | rfl <;> rfl
              exact ⟨[c, e], rfl, (passes_silent hsilent _).append (passes_silent hnext _)⟩
            · refine ⟨[c], rfl, ?_⟩
              rcases hone with ⟨rfl, rfl⟩ | ⟨rfl, rfl⟩ | ⟨hsilent, hnot⟩
              · cases hd
                exact passes_open d
              · simp only [toList_some, tokDepth, Token.depth] at hd
                cases d with
                | zero => cases hd
                | succ d => grind [passes_close]
              · cases hsame _ hnot hd
                exact passes_silent hsilent _
          · cases h

/-- The search for a closing parenthesis passes over a text as its tokens do. -/
theorem LexesFrom.passes (h : LexesFrom n last cs toks) (hd : tokDepth d toks = some d') : Passes cs d d' := by
  induction h generalizing d with
  | nil last =>
    cases hd
    exact .nil _
  | skip hstep _ ih =>
    obtain ⟨used, hused, hpasses⟩ := lexStep_passes hstep rfl
    rw [hused]
    exact hpasses.append (ih hd)
  | token hstep _ ih =>
    obtain ⟨d₁, hd₁, hd⟩ := bind_eq_some_iff.mp hd
    obtain ⟨used, hused, hpasses⟩ := lexStep_passes hstep (bind_eq_some_iff.mpr ⟨d₁, hd₁, rfl⟩)
    rw [hused]
    exact hpasses.append (ih hd)

end Lexed

/-! ## A text of one line -/

/-- A text on one line, with no white space around it. -/
structure OneLine (cs : List Char) : Prop where
  nonempty : cs ≠ []
  noBreak : '\n' ∉ cs
  starts : ∀ c, cs.head? = some c → isWhitespace c = false
  ends : ∀ c, cs.getLast? = some c → isWhitespace c = false

section OneLine

variable {cs : List Char}

theorem trimStart_of_starts (h : ∀ c, cs.head? = some c → isWhitespace c = false) : trimStart cs = cs := by
  cases cs with
  | nil => rfl
  | cons c cs => rw [trimStart, dropWhile_cons, if_neg (by rw [h c rfl]; decide)]

theorem trimChars_eq_self (hstarts : ∀ c, cs.head? = some c → isWhitespace c = false)
    (hends : ∀ c, cs.getLast? = some c → isWhitespace c = false) : trimChars cs = cs := by
  rw [trimChars, trimStart_of_starts hstarts, trimEnd_of_ends hends]

/-- Blanks around a text that starts and ends with none are trimmed. -/
theorem trimChars_append_blank (hstarts : ∀ c, cs.head? = some c → isWhitespace c = false)
    (hends : ∀ c, cs.getLast? = some c → isWhitespace c = false) (hne : cs ≠ [])
    {blanks : List Char} (hblanks : ∀ c ∈ blanks, isWhitespace c = true) : trimChars (cs ++ blanks) = cs := by
  have hstarts' : ∀ c, (cs ++ blanks).head? = some c → isWhitespace c = false := by
    rw [List.head?_append_of_ne_nil _ hne]
    exact hstarts
  rw [trimChars, trimStart_of_starts hstarts', trimEnd_append_blank _ hblanks, trimEnd_of_ends hends]

theorem OneLine.trimChars (h : OneLine cs) : trimChars cs = cs := trimChars_eq_self h.starts h.ends

theorem lines_of_noBreak (hne : cs ≠ []) (h : '\n' ∉ cs) : lines cs = [cs] := by
  induction cs with
  | nil => exact absurd rfl hne
  | cons c cs ih =>
    obtain ⟨hc, hcs⟩ := not_or.mp (mt mem_cons.mpr h)
    rw [lines, if_neg (Ne.symm hc)]
    cases cs with
    | nil => rfl
    | cons d cs => grind

theorem leadingSpaces_of_starts (h : ∀ c, cs.head? = some c → isWhitespace c = false) : leadingSpaces cs = 0 := by
  cases cs with
  | nil => rfl
  | cons c cs =>
    have hc : c ≠ ' ' := by
      rintro rfl
      cases h ' ' rfl
    simp [leadingSpaces, hc]

theorem lex_line (h : OneLine cs) :
    lex (String.ofList cs) =
      match lexFrom 1 cs.length none cs with
      | .error e => .error e
      | .ok toks => .ok (toks ++ [.newline]) := by
  have hempty : cs.isEmpty = false := isEmpty_eq_false_iff.mpr h.nonempty
  unfold lex
  rw [String.toList_ofList, lines_of_noBreak h.nonempty h.noBreak]
  simp only [lexLines, trimEnd_of_ends h.ends, hempty, leadingSpaces_of_starts h.starts, Nat.lt_irrefl, if_false,
    trimStart_of_starts h.starts, lexLine, List.getLast?_nil, Bool.false_eq_true]
  cases lexFrom 1 cs.length none cs with
  | error e => rfl
  | ok toks => simp

theorem lex_line_ok_iff (h : OneLine cs) {toks : List Token} :
    lex (String.ofList cs) = .ok toks ↔ ∃ toks', LexesFrom 1 none cs toks' ∧ toks = toks' ++ [.newline] := by
  rw [lex_line h]
  cases hlex : lexFrom 1 cs.length none cs with
  | error e =>
    refine ⟨fun h => (nomatch h), ?_⟩
    rintro ⟨toks', htoks, -⟩
    rw [(lexFrom_ok_iff (Nat.le_refl _)).mpr htoks] at hlex
    cases hlex
  | ok toks' =>
    have htoks := (lexFrom_ok_iff (Nat.le_refl _)).mp hlex
    constructor
    · intro h
      cases h
      exact ⟨toks', htoks, rfl⟩
    · rintro ⟨toks'', htoks', rfl⟩
      rw [(lexFrom_ok_iff (Nat.le_refl _)).mpr htoks'] at hlex
      cases hlex
      rfl

end OneLine

end Mizu
