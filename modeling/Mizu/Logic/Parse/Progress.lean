import Mizu.Logic.Parse.Expr

/-!
# Progress of the expression parser

Every parser takes tokens from the front of its cursor, so its loops end before their bounds do.

* `CursorMoves`: the relations between a cursor and its rest that every parser keeps.
* `parseExpr_takes`: an expression takes at least one token and leaves the rest as it is.
* `parseInfix_fuel`, `parseArgs_fuel`: the bounds of the loops do not matter.
-/

namespace Mizu

open List

def Token.isParen : Token → Bool
  | .lParen | .rParen => true
  | _ => false

theorem isParen_of_infixOp {tok : Token} {op : BinOp} (h : infixOp tok = some op) : tok.isParen = false := by
  cases tok <;> first | rfl | cases h

/-! ## How a cursor moves -/

/-- What holds of every move of a parser's cursor (`weak`) and of one that takes a token (`strict`). A parenthesis is
taken with the one that closes it. -/
structure CursorMoves (weak strict : List Token → List Token → Prop) : Prop where
  refl (ts : List Token) : weak ts ts
  trans {ts rest rest' : List Token} : weak ts rest → weak rest rest' → weak ts rest'
  token {tok : Token} {ts rest : List Token} : tok.isParen = false → weak ts rest → strict (tok :: ts) rest
  parens {ts rest : List Token} : weak ts (.rParen :: rest) → strict (.lParen :: ts) rest
  stays {ts rest : List Token} : strict ts rest → weak ts rest
  goesOn {ts rest rest' : List Token} : strict ts rest → weak rest rest' → strict ts rest'

section CursorMoves

variable {weak strict : List Token → List Token → Prop} (moves : CursorMoves weak strict)
include moves

theorem CursorMoves.skip {tok : Token} {ts rest : List Token} (htok : tok.isParen = false) (h : weak ts rest) :
    weak (tok :: ts) rest := moves.stays (moves.token htok h)

theorem CursorMoves.skipComma (ts : List Token) : weak ts (skipComma ts) := by
  unfold Mizu.skipComma
  split
  · exact moves.skip rfl (moves.refl _)
  · exact moves.refl _

variable {env : ParseEnv} {sub : Nat → List Token → Parses Tree} {ts rest : List Token}
variable (hsub : ∀ {m : Nat} {ts : List Token} {t : Tree} {rest : List Token}, sub m ts = .ok (t, rest) → weak ts rest)
include hsub

variable {args : List Tree}

theorem CursorMoves.parseSortCallArgs (h : parseSortCallArgs env sub ts = .ok (args, rest)) :
    weak ts rest := by
  unfold Mizu.parseSortCallArgs at h
  split at h
  · cases h
  · next hlist =>
    split at h
    · cases h
    · next ts' hfield =>
      have htaken := moves.trans (hsub hlist) (moves.trans (moves.skipComma _) (hsub hfield))
      have hcomma := moves.skipComma ts'
      split at h
      · next heq =>
        cases h
        rw [heq] at hcomma
        exact moves.trans htaken (moves.trans hcomma (moves.skip rfl (moves.refl _)))
      · next heq =>
        cases h
        rw [heq] at hcomma
        exact moves.trans htaken (moves.trans hcomma (moves.skip rfl (moves.refl _)))
      · cases h

theorem CursorMoves.parseFilterValue {value : String × Tree} (h : parseFilterValue sub ts = .ok (value, rest)) :
    weak ts rest := by
  unfold Mizu.parseFilterValue at h
  dsimp only at h
  split at h
  · cases h
  · next hvalue =>
    cases h
    split at hvalue
    · split at hvalue
      · exact moves.skip rfl (moves.skip rfl (hsub hvalue))
      · exact hsub hvalue
    · exact hsub hvalue

theorem CursorMoves.parseFilterCallArgs (h : parseFilterCallArgs sub ts = .ok (args, rest)) :
    weak ts rest := by
  unfold Mizu.parseFilterCallArgs at h
  split at h
  · cases h
  · next hlist =>
    split at h
    · cases h
    · next hfield =>
      split at h
      · cases h
      · next hvalue =>
        cases h
        have htaken := moves.trans (hsub hlist) (moves.trans (moves.skipComma _) (hsub hfield))
        exact moves.trans htaken (moves.trans (moves.skipComma _) (moves.parseFilterValue hsub hvalue))

theorem CursorMoves.parseArgs {fuel : Nat} (h : parseArgs sub fuel ts = .ok (args, rest)) :
    weak ts rest := by
  induction fuel generalizing ts args with
  | zero =>
    cases h
    exact moves.refl _
  | succ fuel ih =>
    rw [Mizu.parseArgs] at h
    split at h
    · cases h
      exact moves.refl _
    · split at h
      · cases h
      · next harg =>
        split at h
        · cases h
        · next hargs =>
          cases h
          exact moves.trans (hsub harg) (moves.trans (moves.skipComma _) (ih hargs))

theorem CursorMoves.parseCallArgs {name : String}
    (h : parseCallArgs env sub name ts = .ok (args, rest)) : weak ts rest := by
  grind [Mizu.parseCallArgs, moves.parseSortCallArgs, moves.parseFilterCallArgs, moves.parseArgs]

theorem CursorMoves.parseCall {name : String} {t : Tree} (h : parseCall env sub name ts = .ok (t, rest)) :
    weak ts (.rParen :: rest) := by
  unfold Mizu.parseCall at h
  split at h
  · cases h
  · next hargs =>
    split at h
    · cases h
    · cases h
      exact moves.parseCallArgs hsub hargs
  · cases h

theorem CursorMoves.parseIf {t : Tree} (h : parseIf env sub ts = .ok (t, rest)) : weak ts rest := by
  unfold Mizu.parseIf at h
  split at h
  · cases h
  · next hcondition =>
    split at h
    · cases h
    · next hthen =>
      split at h
      · cases h
      · next helse =>
        cases h
        have hbranches := moves.trans (hsub hthen) (moves.skip rfl (hsub helse))
        exact moves.trans (hsub hcondition) (moves.skip rfl hbranches)
    · cases h
  · cases h

theorem CursorMoves.parsePrefix {r : Tree × Bool} (h : parsePrefix env sub ts = .ok (r, rest)) : strict ts rest := by
  unfold Mizu.parsePrefix at h
  split at h
  · split at h
    · cases h
    · cases h
      exact moves.token rfl (moves.refl _)
  · cases h
    exact moves.token rfl (moves.refl _)
  · cases h
    exact moves.token rfl (moves.refl _)
  · split at h
    · split at h
      · cases h
      · next hif =>
        cases h
        exact moves.token rfl (moves.parseIf hsub hif)
    · split at h
      · split at h
        · cases h
        · next hcall =>
          cases h
          exact moves.token rfl (moves.stays (moves.parens (moves.parseCall hsub hcall)))
      · cases h
        exact moves.token rfl (moves.refl _)
  · split at h
    · cases h
    · next hoperand =>
      cases h
      exact moves.token rfl (hsub hoperand)
  · split at h
    · cases h
    · next hoperand =>
      cases h
      exact moves.token rfl (hsub hoperand)
  · grind [moves.parens]
  · cases h

theorem CursorMoves.infixStep {m : Nat} {lhs t : Tree} (h : infixStep env sub m lhs ts = some (.ok (t, rest))) :
    strict ts rest := by
  unfold Mizu.infixStep at h
  split at h
  · cases h
  · split at h
    · cases h
    · unfold parseField at h
      split at h
      · cases h
        exact moves.token rfl (moves.skip rfl (moves.refl _))
      · cases h
  · split at h
    · cases h
    · unfold parseTernary at h
      split at h
      · cases h
      · next hthen =>
        split at h
        · cases h
        · next helse =>
          cases h
          exact moves.token rfl (moves.trans (hsub hthen) (moves.skip rfl (hsub helse)))
      · cases h
  · grind [parseOperand, moves.token, isParen_of_infixOp]

theorem CursorMoves.parseInfix {m fuel : Nat} {lhs t : Tree} (h : parseInfix env sub m fuel lhs ts = .ok (t, rest)) :
    weak ts rest := by
  induction fuel generalizing lhs ts with
  | zero =>
    cases h
    exact moves.refl _
  | succ fuel ih =>
    rw [Mizu.parseInfix] at h
    split at h
    · cases h
      exact moves.refl _
    · cases h
    · next hstep => exact moves.trans (moves.stays (moves.infixStep hsub hstep)) (ih h)

omit hsub in
theorem CursorMoves.parseExpr (env : ParseEnv) (left : Nat) {m : Nat} {ts : List Token} {t : Tree} {rest : List Token}
    (h : parseExpr env left m ts = .ok (t, rest)) : strict ts rest := by
  induction left generalizing m ts t rest with
  | zero => cases h
  | succ left ih =>
    have hsub := fun {m ts t rest} (h : Mizu.parseExpr env left m ts = .ok (t, rest)) => moves.stays (ih h)
    rw [Mizu.parseExpr] at h
    split at h
    · cases h
    · next hprefix =>
      cases h
      exact moves.parsePrefix hsub hprefix
    · next hprefix => exact moves.goesOn (moves.parsePrefix hsub hprefix) (moves.parseInfix hsub h)

end CursorMoves

/-! ## Progress -/

/-- The rest of a cursor that has moved. -/
structure Takes (ts rest : List Token) : Prop where
  suffix : rest <:+ ts
  shorter : rest.length < ts.length

theorem moves_takes : CursorMoves (fun ts rest => rest <:+ ts) Takes where
  refl := suffix_refl
  trans h h' := h'.trans h
  token _ h := ⟨h.trans (suffix_cons _ _), Nat.lt_succ_of_le h.length_le⟩
  parens h :=
    have h := (suffix_cons _ _).trans h
    ⟨h.trans (suffix_cons _ _), Nat.lt_succ_of_le h.length_le⟩
  stays := Takes.suffix
  goesOn h h' := ⟨h'.trans h.suffix, Nat.lt_of_le_of_lt h'.length_le h.shorter⟩

theorem skipComma_suffix (ts : List Token) : skipComma ts <:+ ts := moves_takes.skipComma ts

/-- What a parser returns leaves a cursor that has moved. -/
def Progress (sub : Nat → List Token → Parses Tree) : Prop :=
  ∀ {m ts t rest}, sub m ts = .ok (t, rest) → Takes ts rest

section Progress

variable {env : ParseEnv} {sub : Nat → List Token → Parses Tree} (hsub : Progress sub)
include hsub

variable {ts rest : List Token}

theorem infixStep_takes {m : Nat} {lhs t : Tree} (h : infixStep env sub m lhs ts = some (.ok (t, rest))) :
    Takes ts rest := moves_takes.infixStep (fun h => (hsub h).suffix) h

theorem parseInfix_fuel {minBp fuel fuel' : Nat} (lhs : Tree) (hfuel : ts.length ≤ fuel) (hfuel' : ts.length ≤ fuel') :
    parseInfix env sub minBp fuel lhs ts = parseInfix env sub minBp fuel' lhs ts := by
  induction fuel generalizing fuel' lhs ts with
  | zero =>
    obtain rfl := length_eq_zero_iff.mp (Nat.le_zero.mp hfuel)
    cases fuel' <;> rfl
  | succ fuel ih =>
    cases fuel' with
    | zero =>
      obtain rfl := length_eq_zero_iff.mp (Nat.le_zero.mp hfuel')
      rfl
    | succ fuel' =>
      rw [parseInfix, parseInfix]
      cases hstep : infixStep env sub minBp lhs ts with
      | none => rfl
      | some r =>
        cases r with
        | error e => rfl
        | ok r =>
          have hshorter := (infixStep_takes hsub hstep).shorter
          exact ih r.1 (by omega) (by omega)

theorem parseArgs_fuel {fuel fuel' : Nat} (hfuel : ts.length ≤ fuel) (hfuel' : ts.length ≤ fuel') :
    parseArgs sub fuel ts = parseArgs sub fuel' ts := by
  induction fuel generalizing fuel' ts with
  | zero =>
    obtain rfl := length_eq_zero_iff.mp (Nat.le_zero.mp hfuel)
    cases fuel' <;> rfl
  | succ fuel ih =>
    cases fuel' with
    | zero =>
      obtain rfl := length_eq_zero_iff.mp (Nat.le_zero.mp hfuel')
      rfl
    | succ fuel' =>
      rw [parseArgs, parseArgs]
      cases argsEnd ts with
      | true => rfl
      | false =>
        cases harg : sub 0 ts with
        | error e => rfl
        | ok r =>
          obtain ⟨arg, rest⟩ := r
          have hshorter := (hsub harg).shorter
          have hskip := (skipComma_suffix rest).length_le
          have hrest : parseArgs sub fuel (skipComma rest) = parseArgs sub fuel' (skipComma rest) :=
            ih (by omega) (by omega)
          simp only [hrest]

end Progress

theorem parseExpr_takes (env : ParseEnv) (left : Nat) : Progress (parseExpr env left) := moves_takes.parseExpr env left

end Mizu
