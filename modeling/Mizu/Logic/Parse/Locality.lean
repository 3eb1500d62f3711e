import Mizu.Logic.Parse.Stops
import Mizu.Logic.Parse.Cut

/-!
# What an expression leaves behind

* `parseExpr_eats`: the tokens of an expression open and close the same parentheses.
* `parseExpr_cut`: an expression that stops before the end of its line is the same before a comma.
-/

namespace Mizu

/-! ## Parentheses -/

theorem tokDepth_append (toks toks' : List Token) (d : Nat) :
    tokDepth d (toks ++ toks') = (tokDepth d toks).bind (tokDepth · toks') := by
  induction toks generalizing d with
  | nil => rfl
  | cons tok toks ih =>
    simp only [List.cons_append, tokDepth]
    cases tok.depth d with
    | none => rfl
    | some d' => exact ih d'

/-- What is taken from the front of a cursor opens and closes the same parentheses. -/
def Eats (ts rest : List Token) : Prop := ∃ used, ts = used ++ rest ∧ ∀ d, tokDepth d used = some d

section Eats

variable {ts rest rest' : List Token} {tok : Token}

theorem Eats.refl (ts : List Token) : Eats ts ts := ⟨[], rfl, fun _ => rfl⟩

theorem Eats.trans (h : Eats ts rest) (h' : Eats rest rest') : Eats ts rest' := by
  obtain ⟨used, rfl, hused⟩ := h
  obtain ⟨used', rfl, hused'⟩ := h'
  refine ⟨used ++ used', (List.append_assoc ..).symm, fun d => ?_⟩
  rw [tokDepth_append, hused, Option.bind_some, hused']

theorem Eats.token (htok : tok.isParen = false) (h : Eats ts rest) : Eats (tok :: ts) rest := by
  obtain ⟨used, rfl, hused⟩ := h
  refine ⟨tok :: used, rfl, fun d => ?_⟩
  rw [tokDepth, Token.depth_of_not_paren htok, Option.bind_some, hused]

theorem Eats.parens (h : Eats ts (.rParen :: rest)) : Eats (.lParen :: ts) rest := by
  obtain ⟨used, rfl, hused⟩ := h
  refine ⟨.lParen :: used ++ [.rParen], by simp, fun d => ?_⟩
  rw [tokDepth_append, tokDepth, Token.depth, Option.bind_some, hused]
  rfl

theorem moves_eats : CursorMoves Eats Eats where
  refl := .refl
  trans := .trans
  token := .token
  parens := .parens
  stays := id
  goesOn := .trans

end Eats

variable {env : ParseEnv}

/-- The tokens of an expression open and close the same parentheses. -/
theorem parseExpr_eats {left m : Nat} {ts rest : List Token} {t : Tree}
    (h : parseExpr env left m ts = .ok (t, rest)) : Eats ts rest := moves_eats.parseExpr env left h

/-! ## Cutting at a comma -/

/-- Two cursors that agree up to a place where one ends its line and the other has a comma. -/
inductive CutAt : List Token → List Token → Prop
  | here (rest rest' : List Token) : CutAt (.newline :: rest) (.comma :: rest')
  | cons (tok : Token) {ts ts' : List Token} (more : CutAt ts ts') : CutAt (tok :: ts) (tok :: ts')

/-- A parser whose result is the same before a comma as at the end of a line. -/
def Cuts {α : Type} (parse : List Token → Parses α) : Prop :=
  ∀ {ts a rest ts'}, parse ts = .ok (a, rest) → CutAt ts ts' → ∃ rest', parse ts' = .ok (a, rest') ∧ CutAt rest rest'

section CutAt

variable {ts ts' rest : List Token} {tok : Token}

theorem CutAt.comma_mem (h : CutAt ts ts') : .comma ∈ ts' := by
  induction h with
  | here => exact List.mem_cons_self
  | cons tok _ ih => exact List.mem_cons_of_mem tok ih

theorem CutAt.append (toks : List Token) (h : CutAt ts ts') : CutAt (toks ++ ts) (toks ++ ts') := by
  induction toks with
  | nil => exact h
  | cons tok toks ih => exact .cons tok ih

theorem CutAt.of_cons (h : CutAt (tok :: rest) ts') (htok : tok ≠ .newline) :
    ∃ rest', ts' = tok :: rest' ∧ CutAt rest rest' := by
  cases h with
  | here => exact absurd rfl htok
  | cons _ h => exact ⟨_, rfl, h⟩

theorem CutAt.skipComma (h : CutAt ts ts') :
    CutAt (skipComma ts) (skipComma ts') ∨ ∃ rest, skipComma ts = .newline :: rest := by
  cases h with
  | here rest _ => exact .inr ⟨rest, rfl⟩
  | cons tok h =>
    left
    cases tok <;> first | exact h | exact .cons _ h

theorem CutAt.argsEnd_eq (h : CutAt ts ts') : argsEnd ts = argsEnd ts' := by
  cases h with
  | here => rfl
  | cons tok _ => cases tok <;> rfl

theorem CutAt.stops (hts : CutAt ts ts') {m : Nat} (h : Stops m ts) : Stops m ts' := by
  cases hts with
  | here rest rest' => exact fun _ hop => nomatch hop
  | cons tok _ => cases tok <;> exact h

end CutAt

section Forms

variable {sub : Nat → List Token → Parses Tree}

/-- A name and a comma are an operator if the name is one. -/
theorem parseFilterValue_op (w : String) (more : List Token) :
    parseFilterValue sub (.ident w :: .comma :: more) =
      match sub 0 (if w ∈ filterOps then more else .ident w :: .comma :: more) with
      | .error e => .error e
      | .ok (value, rest) => .ok ((if w ∈ filterOps then w else "eq", value), rest) := by
  unfold parseFilterValue
  by_cases hw : w ∈ filterOps
  · simp only [hw, if_true] <;> rfl
  · simp only [hw, if_false] <;> rfl

theorem parseFilterValue_plain {ts : List Token} (h : ∀ w more, ts ≠ .ident w :: .comma :: more) :
    parseFilterValue sub ts =
      match sub 0 ts with
      | .error e => .error e
      | .ok (value, rest) => .ok (("eq", value), rest) := by
  unfold parseFilterValue
  split
  · grind

theorem parsePrefix_if (env : ParseEnv) (ts : List Token) :
    parsePrefix env sub (.ident "if" :: ts) =
      match parseIf env sub ts with
      | .error e => .error e
      | .ok (t, rest) => .ok ((t, false), rest) := by
  rfl

theorem parsePrefix_call {name : String} (h : name ≠ "if") (ts : List Token) :
    parsePrefix env sub (.ident name :: .lParen :: ts) =
      match parseCall env sub name ts with
      | .error e => .error e
      | .ok (t, rest) => .ok ((t, true), rest) := by
  unfold parsePrefix
  dsimp only
  rw [if_neg h] <;> rfl

theorem parsePrefix_var {name : String} (h : name ≠ "if") {ts : List Token}
    (hopen : ∀ more, ts ≠ .lParen :: more) :
    parsePrefix env sub (.ident name :: ts) = .ok ((.var name, true), ts) := by
  unfold parsePrefix
  dsimp only
  rw [if_neg h]
  split
  · exact absurd rfl (hopen _)
  · rfl

end Forms

section Cuts

variable {env : ParseEnv} {sub : Nat → List Token → Parses Tree} {ts ts' rest : List Token}
variable (hcut : ∀ m, Cuts (sub m)) (hbreak : ∀ m rest r, sub m (.newline :: rest) ≠ .ok r)
include hcut hbreak

theorem sub_skipComma {m : Nat} {t : Tree} (h : sub m (skipComma ts) = .ok (t, rest)) (hts : CutAt ts ts') :
    ∃ rest', sub m (skipComma ts') = .ok (t, rest') ∧ CutAt rest rest' := by
  rcases hts.skipComma with hskip | ⟨more, hnewline⟩
  · exact hcut m h hskip
  · rw [hnewline] at h
    exact (hbreak _ _ _ h).elim

theorem parseSortCallArgs_cut : Cuts (parseSortCallArgs env sub) := by
  intro ts args rest ts' h hts
  unfold parseSortCallArgs at h ⊢
  split at h
  · cases h
  · next hlist =>
    obtain ⟨ts₁, hlist', hts⟩ := hcut 0 hlist hts
    rw [hlist']
    dsimp only
    split at h
    · cases h
    · next ts₂ hfield =>
      obtain ⟨ts₂', hfield', hts⟩ := sub_skipComma hcut hbreak hfield hts
      rw [hfield']
      dsimp only
      rcases hts.skipComma with hskip | ⟨more, hnewline⟩
      · split at h
        · next heq =>
          cases h
          rw [heq] at hskip
          obtain ⟨rest', heq', hrest⟩ := hskip.of_cons (by simp)
          rw [heq']
          exact ⟨rest', rfl, hrest⟩
        · next heq =>
          cases h
          rw [heq] at hskip
          obtain ⟨rest', heq', hrest⟩ := hskip.of_cons (by simp)
          rw [heq']
          exact ⟨rest', rfl, hrest⟩
        · cases h
      · rw [hnewline] at h
        cases h

omit hcut in
theorem parseFilterValue_break (more : List Token) (r : (String × Tree) × List Token) :
    parseFilterValue sub (.newline :: more) ≠ .ok r := by
  grind [parseFilterValue]

omit hcut in
theorem parseArgs_break (fuel : Nat) (more : List Token) (r : List Tree × List Token) :
    parseArgs sub (fuel + 1) (.newline :: more) ≠ .ok r := by
  intro h
  rw [parseArgs, if_neg (by simp [argsEnd])] at h
  split at h
  · cases h
  · next harg => exact hbreak _ _ _ harg

variable (hprogress : Progress sub)
include hprogress

omit hbreak in
/-- The value of a filter, before the parenthesis that closes the call. -/
theorem parseFilterValue_cut {value : String × Tree} (h : parseFilterValue sub ts = .ok (value, .rParen :: rest))
    (hts : CutAt ts ts') : ∃ rest', parseFilterValue sub ts' = .ok (value, .rParen :: rest') ∧ CutAt rest rest' := by
  have hsub : ∀ {ts ts' : List Token} {t : Tree}, CutAt ts ts' → sub 0 ts = .ok (t, .rParen :: rest) →
      ∃ rest', sub 0 ts' = .ok (t, .rParen :: rest') ∧ CutAt rest rest' := by
    intro ts ts' t hts h
    obtain ⟨rest', h', hrest⟩ := hcut 0 h hts
    obtain ⟨rest', rfl, hmore⟩ := hrest.of_cons (by simp)
    exact ⟨rest', h', hmore⟩
  by_cases hop : ∃ w more, ts = .ident w :: .comma :: more
  · obtain ⟨w, more, rfl⟩ := hop
    obtain ⟨ts', rfl, hcomma⟩ := hts.of_cons (by simp)
    obtain ⟨more', rfl, hmore⟩ := hcomma.of_cons (by simp)
    rw [parseFilterValue_op] at h ⊢
    split at h
    · cases h
    · grind
  · have hplain : ∀ w more, ts ≠ .ident w :: .comma :: more := fun w more heq => hop ⟨w, more, heq⟩
    rw [parseFilterValue_plain hplain] at h
    split at h
    · cases h
    · next hvalue =>
      cases h
      have hplain' : ∀ w more, ts' ≠ .ident w :: .comma :: more := by
        rintro w more rfl
        cases hts with
        | cons _ hts =>
          cases hts with
          | cons _ hts => exact hplain _ _ rfl
          | here more more' =>
            -- A value of one token would leave the end of the line, not a parenthesis.
            obtain ⟨rest', hvalue', -⟩ := hsub (.cons _ (.here more [])) hvalue
            obtain ⟨hsuffix, hshorter⟩ := hprogress hvalue'
            rcases List.suffix_cons_iff.mp hsuffix with heq | hsuffix
            · cases heq
            · have hmem := hsuffix.subset List.mem_cons_self
              simp at hmem
      obtain ⟨rest', hvalue', hrest⟩ := hsub hts hvalue
      rw [parseFilterValue_plain hplain', hvalue']
      exact ⟨rest', rfl, hrest⟩

variable {args : List Tree}

theorem parseFilterCallArgs_cut (h : parseFilterCallArgs sub ts = .ok (args, .rParen :: rest))
    (hts : CutAt ts ts') :
    ∃ rest', parseFilterCallArgs sub ts' = .ok (args, .rParen :: rest') ∧ CutAt rest rest' := by
  unfold parseFilterCallArgs at h ⊢
  split at h
  · cases h
  · next hlist =>
    obtain ⟨ts₁, hlist', hts⟩ := hcut 0 hlist hts
    rw [hlist']
    dsimp only
    split at h
    · cases h
    · next hfield =>
      obtain ⟨ts₂', hfield', hts⟩ := sub_skipComma hcut hbreak hfield hts
      rw [hfield']
      dsimp only
      split at h
      · cases h
      · next hvalue =>
        cases h
        rcases hts.skipComma with hskip | ⟨more, hnewline⟩
        · grind [parseFilterValue_cut]
        · grind [parseFilterValue_break]

theorem parseArgs_cut {fuel : Nat} (hfuel : ts.length ≤ fuel)
    (h : parseArgs sub fuel ts = .ok (args, rest)) (hts : CutAt ts ts') :
    ∃ rest', parseArgs sub fuel ts' = .ok (args, rest') ∧ CutAt rest rest' := by
  induction fuel generalizing ts ts' args with
  | zero =>
    rw [List.length_eq_zero_iff.mp (Nat.le_zero.mp hfuel)] at hts
    cases hts
  | succ fuel ih =>
    rw [parseArgs] at h ⊢
    rw [← hts.argsEnd_eq]
    split at h
    · next hend =>
      cases h
      rw [if_pos hend]
      exact ⟨ts', rfl, hts⟩
    · next hend =>
      rw [if_neg hend]
      split at h
      · cases h
      · next ts₁ harg =>
        obtain ⟨ts₁', harg', hts⟩ := hcut 0 harg hts
        rw [harg']
        dsimp only
        split at h
        · cases h
        · next hargs =>
          cases h
          have hshorter := (hprogress harg).shorter
          have hskip := (skipComma_suffix ts₁).length_le
          rcases hts.skipComma with hcomma | ⟨more, hnewline⟩
          · grind
          · rw [hnewline] at hargs hskip
            obtain ⟨fuel, rfl⟩ : ∃ n, fuel = n + 1 := ⟨fuel - 1, by simp at hskip; omega⟩
            exact (parseArgs_break hbreak fuel _ _ hargs).elim

/-- The arguments of a call, before the parenthesis that closes it. -/
theorem parseCallArgs_cut {name : String}
    (h : parseCallArgs env sub name ts = .ok (args, .rParen :: rest)) (hts : CutAt ts ts') :
    ∃ rest', parseCallArgs env sub name ts' = .ok (args, .rParen :: rest') ∧ CutAt rest rest' := by
  unfold parseCallArgs at h ⊢
  split at h
  · next hsort =>
    obtain ⟨rest', hargs, hrest⟩ := parseSortCallArgs_cut hcut hbreak h hts
    obtain ⟨rest', rfl, hmore⟩ := hrest.of_cons (by simp)
    exact ⟨rest', by rw [if_pos hsort, hargs], hmore⟩
  · next hsort =>
    rw [if_neg hsort]
    split at h
    · next hfilter =>
      rw [if_pos hfilter]
      exact parseFilterCallArgs_cut hcut hbreak hprogress h hts
    · next hfilter =>
      have hfuel : parseArgs sub ts.length ts = parseArgs sub (max ts.length ts'.length) ts :=
        parseArgs_fuel hprogress (Nat.le_refl _) (Nat.le_max_left ..)
      rw [hfuel] at h
      obtain ⟨rest', hargs, hrest⟩ := parseArgs_cut hcut hbreak hprogress (Nat.le_max_left ..) h hts
      obtain ⟨rest', rfl, hmore⟩ := hrest.of_cons (by simp)
      rw [if_neg hfilter, parseArgs_fuel hprogress (Nat.le_refl _) (Nat.le_max_right ts.length _), hargs]
      exact ⟨rest', rfl, hmore⟩

theorem parseCall_cut (name : String) : Cuts (parseCall env sub name) := by
  intro ts t rest ts' h hts
  unfold parseCall at h ⊢
  split at h
  · cases h
  · next hargs =>
    obtain ⟨rest', hargs', hrest⟩ := parseCallArgs_cut hcut hbreak hprogress hargs hts
    rw [hargs']
    split at h
    · cases h
    · next hsystem =>
      cases h
      exact ⟨rest', if_neg hsystem, hrest⟩
  · cases h

omit hbreak hprogress in
theorem parseIf_cut : Cuts (parseIf env sub) := by
  intro ts t rest ts' h hts
  unfold parseIf at h
  split at h
  · cases h
  · next hcondition =>
    obtain ⟨ts₁, hcondition', hts⟩ := hcut 0 hcondition hts
    obtain ⟨ts₁, rfl, hts₁⟩ := hts.of_cons (by simp)
    split at h
    · cases h
    · next hthen =>
      obtain ⟨ts₂, hthen', hts⟩ := hcut 0 hthen hts₁
      obtain ⟨ts₂, rfl, hts₂⟩ := hts.of_cons (by simp)
      split at h
      · cases h
      · next helse =>
        cases h
        obtain ⟨rest', helse', hrest⟩ := hcut 0 helse hts₂
        exact ⟨rest', by simp only [parseIf, hcondition', hthen', helse'], hrest⟩
    · cases h
  · cases h

theorem parsePrefix_cut : Cuts (parsePrefix env sub) := by
  intro ts r rest ts' h hts
  unfold parsePrefix at h
  split at h
  · obtain ⟨ts₁, rfl, hmore⟩ := hts.of_cons (by simp)
    split at h
    · cases h
    · grind [parsePrefix]
  · obtain ⟨ts₁, rfl, hmore⟩ := hts.of_cons (by simp)
    cases h
    exact ⟨ts₁, rfl, hmore⟩
  · obtain ⟨ts₁, rfl, hmore⟩ := hts.of_cons (by simp)
    cases h
    exact ⟨ts₁, rfl, hmore⟩
  · obtain ⟨ts₁, rfl, hmore⟩ := hts.of_cons (by simp)
    split at h
    · next hif =>
      split at h
      · cases h
      · next hparse =>
        cases h
        obtain ⟨rest', hparse', hrest⟩ := parseIf_cut hcut hparse hmore
        exact ⟨rest', by rw [hif, parsePrefix_if, hparse'], hrest⟩
    · next hif =>
      split at h
      · obtain ⟨ts₂, rfl, hmore₂⟩ := hmore.of_cons (by simp)
        split at h
        · cases h
        · next hcall =>
          cases h
          obtain ⟨rest', hcall', hrest⟩ := parseCall_cut hcut hbreak hprogress _ hcall hmore₂
          exact ⟨rest', by rw [parsePrefix_call hif, hcall'], hrest⟩
      · next hopen =>
        cases h
        refine ⟨ts₁, parsePrefix_var hif ?_, hmore⟩
        rintro more rfl
        cases hmore with
        | cons _ _ => exact hopen _ rfl
  · obtain ⟨ts₁, rfl, hmore⟩ := hts.of_cons (by simp)
    split at h
    · cases h
    · next hoperand =>
      cases h
      obtain ⟨rest', hoperand', hrest⟩ := hcut 30 hoperand hmore
      exact ⟨rest', by rw [parsePrefix, hoperand'], hrest⟩
  · obtain ⟨ts₁, rfl, hmore⟩ := hts.of_cons (by simp)
    split at h
    · cases h
    · next hoperand =>
      cases h
      obtain ⟨rest', hoperand', hrest⟩ := hcut 30 hoperand hmore
      exact ⟨rest', by rw [parsePrefix, hoperand'], hrest⟩
  · obtain ⟨ts₁, rfl, hmore⟩ := hts.of_cons (by simp)
    split at h
    · cases h
    · next hinner =>
      cases h
      obtain ⟨rest', hinner', hrest⟩ := hcut 0 hinner hmore
      obtain ⟨rest', rfl, hclosed⟩ := hrest.of_cons (by simp)
      exact ⟨rest', by rw [parsePrefix, hinner'], hclosed⟩
    · cases h
  · cases h

omit hbreak hprogress in
theorem infixStep_cut {m : Nat} {lhs t : Tree} (h : infixStep env sub m lhs ts = some (.ok (t, rest)))
    (hts : CutAt ts ts') : ∃ rest', infixStep env sub m lhs ts' = some (.ok (t, rest')) ∧ CutAt rest rest' := by
  unfold infixStep at h
  split at h
  · cases h
  · obtain ⟨ts₁, rfl, hmore⟩ := hts.of_cons (by simp)
    split at h
    · cases h
    · next hm =>
      unfold parseField at h
      split at h
      · next hfield =>
        obtain ⟨ts₂, rfl, hrest⟩ := hmore.of_cons (by simp)
        cases h
        exact ⟨ts₂, by simp only [infixStep, hm, if_false, parseField], hrest⟩
      · cases h
  · obtain ⟨ts₁, rfl, hmore⟩ := hts.of_cons (by simp)
    split at h
    · cases h
    · next hm =>
      unfold parseTernary at h
      split at h
      · cases h
      · next hthen =>
        obtain ⟨ts₂, hthen', hts₂⟩ := hcut 0 hthen hmore
        obtain ⟨ts₂, rfl, hbranch⟩ := hts₂.of_cons (by simp)
        split at h
        · cases h
        · next helse =>
          cases h
          obtain ⟨rest', helse', hrest⟩ := hcut 0 helse hbranch
          exact ⟨rest', by simp only [infixStep, hm, if_false, parseTernary, hthen', helse'], hrest⟩
      · cases h
  · next tok more hdot hquestion =>
    split at h
    · cases h
    · next op hop =>
      have htok : tok ≠ .newline := by
        rintro rfl
        cases hop
      obtain ⟨ts₁, rfl, hmore⟩ := hts.of_cons htok
      split at h
      · cases h
      · next hm =>
        unfold parseOperand at h
        split at h
        · cases h
        · next hrhs =>
          cases h
          obtain ⟨rest', hrhs', hrest⟩ := hcut _ hrhs hmore
          exact ⟨rest', by simp only [infixStep, hop, hm, if_false, parseOperand, hrhs'], hrest⟩

omit hbreak hprogress in
theorem parseInfix_cut {m fuel : Nat} {lhs t : Tree} (h : parseInfix env sub m fuel lhs ts = .ok (t, rest))
    (hts : CutAt ts ts') : ∃ rest', parseInfix env sub m fuel lhs ts' = .ok (t, rest') ∧ CutAt rest rest' := by
  induction fuel generalizing lhs ts ts' with
  | zero =>
    cases h
    exact ⟨ts', rfl, hts⟩
  | succ fuel ih =>
    rw [parseInfix] at h ⊢
    split at h
    · next hnone =>
      cases h
      rw [infixStep_eq_none_iff.mpr (hts.stops (infixStep_eq_none_iff.mp hnone))]
      exact ⟨ts', rfl, hts⟩
    · cases h
    · grind [infixStep_cut]

end Cuts

theorem parseExpr_break (env : ParseEnv) (left m : Nat) (more : List Token) (r : Tree × List Token) :
    parseExpr env left m (.newline :: more) ≠ .ok r := by
  cases left with
  | zero | succ => exact fun h => (nomatch h)

/-- An expression that stops before the end of its line is the same before a comma. -/
theorem parseExpr_cut (env : ParseEnv) (left m : Nat) : Cuts (parseExpr env left m) := by
  induction left generalizing m with
  | zero =>
    intro ts t rest ts' h
    cases h
  | succ left ih =>
    intro ts t rest ts' h hts
    have hprogress : Progress (parseExpr env left) := parseExpr_takes env left
    rw [parseExpr] at h ⊢
    split at h
    · cases h
    · next hprefix =>
      cases h
      obtain ⟨rest', hprefix', hrest⟩ := parsePrefix_cut ih (parseExpr_break env left) hprogress hprefix hts
      rw [hprefix']
      exact ⟨rest', rfl, hrest⟩
    · next lhs ts₁ hprefix =>
      obtain ⟨ts₁', hprefix', hts₁⟩ := parsePrefix_cut ih (parseExpr_break env left) hprogress hprefix hts
      rw [hprefix']
      have hfuel : parseInfix env (parseExpr env left) m ts₁.length lhs ts₁ =
          parseInfix env (parseExpr env left) m (max ts₁.length ts₁'.length) lhs ts₁ :=
        parseInfix_fuel hprogress lhs (Nat.le_refl _) (Nat.le_max_left ..)
      rw [hfuel] at h
      obtain ⟨rest', hinfix, hrest⟩ := parseInfix_cut ih h hts₁
      refine ⟨rest', ?_, hrest⟩
      exact (parseInfix_fuel hprogress lhs (Nat.le_refl _) (Nat.le_max_right ts₁.length _)).trans hinfix

end Mizu
