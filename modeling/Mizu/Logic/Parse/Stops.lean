import Mizu.Logic.Parse.Progress

/-!
# Where the expression parser stops

* `parseExpr_stops`: an expression ends where no operator binds strongly enough to go on.
* `parseExpr_goesOn`: an expression that binds weaker goes on from one that binds stronger.
* `parseInfix_literal`: no operator, conditional or call yields a literal.
* `parseExpr_refuses`: what is not accepted is refused with a parse error.
-/

namespace Mizu

/-- No operator that binds as strongly as `minBp` comes next. -/
def Stops (minBp : Nat) : List Token → Prop
  | [] => True
  | .dot :: _ => 50 < minBp
  | .question :: _ => 0 < minBp
  | tok :: _ => ∀ op, infixOp tok = some op → (infixBindingPower op).1 < minBp

theorem Stops.mono {m m' : Nat} (hm : m ≤ m') {ts : List Token} (h : Stops m ts) : Stops m' ts := by
  unfold Stops at h ⊢
  split at h
  · trivial
  · exact Nat.lt_of_lt_of_le h hm
  · exact Nat.lt_of_lt_of_le h hm
  · exact fun op hop => Nat.lt_of_lt_of_le (h op hop) hm

theorem infixBindingPower_lt (op : BinOp) : (infixBindingPower op).1 < 30 := by cases op <;> decide

theorem stops_sign_iff {ts : List Token} : Stops 30 ts ↔ ts.head? ≠ some .dot := by
  unfold Stops
  split
  · simp
  · simp
  · simp
  · grind [infixBindingPower_lt]

theorem stops_rParen (m : Nat) (ts : List Token) : Stops m (.rParen :: ts) := fun _ hop => nomatch hop

variable {v : Value}

section Step

variable {env : ParseEnv} {sub : Nat → List Token → Parses Tree} {m : Nat} {lhs : Tree} {ts rest : List Token}

theorem infixStep_eq_none_iff : infixStep env sub m lhs ts = none ↔ Stops m ts := by
  unfold infixStep Stops
  split
  · simp
  · split <;> simp [*]
  · split <;> simp [*]
  · grind

theorem infixStep_not_literal (h : infixStep env sub m lhs ts = some (.ok (.literal v, rest))) : False := by
  unfold infixStep parseField parseTernary parseOperand at h
  split at h
  · cases h
  · grind
  · grind
  · grind

theorem parseIf_not_literal (h : parseIf env sub ts = .ok (.literal v, rest)) : False := by
  unfold parseIf at h
  grind

theorem parseCall_not_literal {name : String} (h : parseCall env sub name ts = .ok (.literal v, rest)) :
    False := by
  unfold parseCall at h
  split at h
  · cases h
  · split at h <;> cases h
  · cases h

/-- A step that an operator of less strength may take as well. -/
theorem infixStep_weaker {m' : Nat} (hm : m' ≤ m) (h : ¬ Stops m ts) :
    infixStep env sub m' lhs ts = infixStep env sub m lhs ts := by
  unfold Stops at h
  unfold infixStep
  split at h
  · exact absurd trivial h
  · have h' : ¬ 50 < m' := by omega
    simp only [h, h', if_false]
  · have h' : ¬ 0 < m' := by omega
    simp only [h, h', if_false]
  · grind

end Step

section Loop

variable {env : ParseEnv} {sub : Nat → List Token → Parses Tree} {m : Nat} {ts rest : List Token} {lhs t : Tree}

/-- Where it stops, the loop over operators leaves everything as it is. -/
theorem parseInfix_of_stops (h : Stops m ts) (fuel : Nat) : parseInfix env sub m fuel lhs ts = .ok (lhs, ts) := by
  cases fuel with
  | zero => rfl
  | succ fuel => rw [parseInfix, infixStep_eq_none_iff.mpr h]

/-- If the loop yields a literal, it has made no step. -/
theorem parseInfix_literal {fuel : Nat} (h : parseInfix env sub m fuel lhs ts = .ok (.literal v, rest)) :
    lhs = .literal v ∧ rest = ts := by
  induction fuel generalizing lhs ts with
  | zero =>
    cases h
    exact ⟨rfl, rfl⟩
  | succ fuel ih => grind [parseInfix, infixStep_not_literal]

variable (hsub : Progress sub)
include hsub

theorem parseInfix_stops {fuel : Nat} (hfuel : ts.length ≤ fuel)
    (h : parseInfix env sub m fuel lhs ts = .ok (t, rest)) : Stops m rest := by
  induction fuel generalizing lhs ts with
  | zero =>
    cases h
    rw [List.length_eq_zero_iff.mp (Nat.le_zero.mp hfuel)]
    trivial
  | succ fuel ih =>
    rw [parseInfix] at h
    split at h
    · next hnone =>
      cases h
      exact infixStep_eq_none_iff.mp hnone
    · cases h
    · next hstep =>
      have hshorter := (infixStep_takes hsub hstep).shorter
      exact ih (by omega) h

/-- A loop of less strength first makes the steps of one of more. -/
theorem parseInfix_goesOn {m' fuel : Nat} (hm : m' ≤ m) (hfuel : ts.length ≤ fuel) :
    parseInfix env sub m' fuel lhs ts =
      match parseInfix env sub m fuel lhs ts with
      | .error e => .error e
      | .ok (t, rest) => parseInfix env sub m' rest.length t rest := by
  induction fuel generalizing lhs ts with
  | zero =>
    obtain rfl := List.length_eq_zero_iff.mp (Nat.le_zero.mp hfuel)
    rfl
  | succ fuel ih =>
    by_cases hstops : Stops m ts
    · rw [parseInfix_of_stops hstops]
      exact parseInfix_fuel hsub lhs hfuel (Nat.le_refl _)
    · rw [parseInfix, parseInfix, infixStep_weaker hm hstops]
      cases hstep : infixStep env sub m lhs ts with
      | none => exact absurd (infixStep_eq_none_iff.mp hstep) hstops
      | some r =>
        cases r with
        | error e => rfl
        | ok r =>
          have hshorter := (infixStep_takes hsub hstep).shorter
          exact ih (by omega)

end Loop

section Entry

variable {env : ParseEnv} {m left : Nat} {ts rest : List Token} {t : Tree}

theorem parsePrefix_closed {sub : Nat → List Token → Parses Tree}
    (h : parsePrefix env sub ts = .ok ((t, false), rest)) : ∃ e ts', sub 0 ts' = .ok (e, rest) := by
  unfold parsePrefix parseIf at h
  split at h <;> grind

/-- An expression ends where no operator binds strongly enough to go on. -/
theorem parseExpr_stops (h : parseExpr env left m ts = .ok (t, rest)) : Stops m rest := by
  induction left generalizing m ts t rest with
  | zero => cases h
  | succ left ih =>
    rw [parseExpr] at h
    split at h
    · cases h
    · next hprefix =>
      cases h
      obtain ⟨e, ts', helse⟩ := parsePrefix_closed hprefix
      exact (ih helse).mono (Nat.zero_le m)
    · exact parseInfix_stops (parseExpr_takes env left) (Nat.le_refl _) h

/-- An expression that binds weaker goes on from one that binds stronger. -/
theorem parseExpr_goesOn {m' : Nat} (hm : m' ≤ m) :
    parseExpr env (left + 1) m' ts =
      match parseExpr env (left + 1) m ts with
      | .error e => .error e
      | .ok (t, rest) => parseInfix env (parseExpr env left) m' rest.length t rest := by
  rw [parseExpr, parseExpr]
  cases hprefix : parsePrefix env (parseExpr env left) ts with
  | error e => rfl
  | ok r =>
    obtain ⟨⟨lhs, b⟩, ts'⟩ := r
    cases b with
    | false =>
      obtain ⟨e, ts₀, helse⟩ := parsePrefix_closed hprefix
      exact (parseInfix_of_stops ((parseExpr_stops helse).mono (Nat.zero_le m')) _).symm
    | true => exact parseInfix_goesOn (parseExpr_takes env left) hm (Nat.le_refl _)

end Entry

/-! ## Refusals -/

/-- A refusal of the parser is a parse error. -/
def Refuses {α : Type} (x : Except MizuError α) : Prop := ∀ e, x = .error e → ∃ text, e = .parseError text

section Rules

variable {α β : Type}

theorem Refuses.ok (a : α) : Refuses (.ok a) := fun _ h => nomatch h

theorem Refuses.parseError (text : String) : Refuses (.error (.parseError text) : Except MizuError α) := by
  rintro e h
  cases h
  exact ⟨text, rfl⟩

theorem Refuses.error {x : Except MizuError α} (h : Refuses x) {e : MizuError} (hx : x = .error e) :
    Refuses (.error e : Except MizuError β) := by
  rintro e' h'
  cases h'
  exact h e hx

end Rules

theorem parseNum_refuses (env : ParseEnv) (text : String) : Refuses (parseNum env text) := by
  unfold parseNum
  dsimp only
  split <;> split
  · exact .ok _
  · exact .parseError _
  · exact .ok _
  · exact .parseError _

theorem parseField_refuses (env : ParseEnv) (base : Tree) (ts : List Token) : Refuses (parseField env base ts) := by
  unfold parseField
  split
  · exact .ok _
  · exact .parseError _

section Refuses

variable {env : ParseEnv} {sub : Nat → List Token → Parses Tree} (hsub : ∀ m ts, Refuses (sub m ts))
include hsub

variable (ts : List Token)

theorem parseSortCallArgs_refuses : Refuses (parseSortCallArgs env sub ts) := by
  unfold parseSortCallArgs
  split
  · next hlist => exact (hsub _ _).error hlist
  · split
    · next hfield => exact (hsub _ _).error hfield
    · split
      · exact .ok _
      · exact .ok _
      · exact .parseError _

theorem parseFilterValue_refuses : Refuses (parseFilterValue sub ts) := by
  unfold parseFilterValue
  dsimp only
  split
  · next hvalue => exact (hsub _ _).error hvalue
  · exact .ok _

theorem parseFilterCallArgs_refuses : Refuses (parseFilterCallArgs sub ts) := by
  unfold parseFilterCallArgs
  split
  · next hlist => exact (hsub _ _).error hlist
  · split
    · next hfield => exact (hsub _ _).error hfield
    · split
      · next hvalue => exact (parseFilterValue_refuses hsub _).error hvalue
      · exact .ok _

theorem parseArgs_refuses (fuel : Nat) : Refuses (parseArgs sub fuel ts) := by
  induction fuel generalizing ts with
  | zero => exact .ok _
  | succ fuel ih =>
    rw [parseArgs]
    split
    · exact .ok _
    · split
      · next harg => exact (hsub _ _).error harg
      · split
        · next hargs => exact (ih _).error hargs
        · exact .ok _

theorem parseCallArgs_refuses (name : String) : Refuses (parseCallArgs env sub name ts) := by
  grind [parseCallArgs, parseSortCallArgs_refuses, parseFilterCallArgs_refuses, parseArgs_refuses]

theorem parseCall_refuses (name : String) : Refuses (parseCall env sub name ts) := by
  unfold parseCall
  split
  · next hargs => exact (parseCallArgs_refuses hsub ts name).error hargs
  · split
    · exact .parseError _
    · exact .ok _
  · exact .parseError _

theorem parseIf_refuses : Refuses (parseIf env sub ts) := by
  unfold parseIf
  split
  · next hcondition => exact (hsub _ _).error hcondition
  · split
    · next hthen => exact (hsub _ _).error hthen
    · split
      · next helse => exact (hsub _ _).error helse
      · exact .ok _
    · exact .parseError _
  · exact .parseError _

theorem parsePrefix_refuses : Refuses (parsePrefix env sub ts) := by
  unfold parsePrefix
  split
  · split
    · next hnum => exact (parseNum_refuses env _).error hnum
    · exact .ok _
  · exact .ok _
  · exact .ok _
  · split
    · split
      · next hif => exact (parseIf_refuses hsub _).error hif
      · exact .ok _
    · split
      · split
        · next hcall => exact (parseCall_refuses hsub _ _).error hcall
        · exact .ok _
      · exact .ok _
  · split
    · next hoperand => exact (hsub _ _).error hoperand
    · exact .ok _
  · split
    · next hoperand => exact (hsub _ _).error hoperand
    · exact .ok _
  · split
    · next hinner => exact (hsub _ _).error hinner
    · exact .ok _
    · exact .parseError _
  · exact .parseError _

theorem parseTernary_refuses (condition : Tree) : Refuses (parseTernary env sub condition ts) := by
  unfold parseTernary
  split
  · next hthen => exact (hsub _ _).error hthen
  · split
    · next helse => exact (hsub _ _).error helse
    · exact .ok _
  · exact .parseError _

theorem parseOperand_refuses (lhs : Tree) (op : BinOp) : Refuses (parseOperand sub lhs op ts) := by
  unfold parseOperand
  split
  · next hrhs => exact (hsub _ _).error hrhs
  · exact .ok _

theorem infixStep_refuses {m : Nat} {lhs : Tree} {x : Parses Tree} (h : infixStep env sub m lhs ts = some x) :
    Refuses x := by
  have hfield := parseField_refuses env lhs
  have hternary : ∀ ts, Refuses (parseTernary env sub lhs ts) := fun ts => parseTernary_refuses hsub ts lhs
  have hoperand := fun ts => parseOperand_refuses hsub ts lhs
  unfold infixStep at h
  grind

theorem parseInfix_refuses (m fuel : Nat) (lhs : Tree) : Refuses (parseInfix env sub m fuel lhs ts) := by
  induction fuel generalizing lhs ts with
  | zero => exact .ok _
  | succ fuel ih =>
    rw [parseInfix]
    split
    · exact .ok _
    · next hstep => exact (infixStep_refuses hsub ts hstep).error rfl
    · exact ih _ _

end Refuses

theorem parseExpr_refuses (env : ParseEnv) (left m : Nat) (ts : List Token) : Refuses (parseExpr env left m ts) := by
  induction left generalizing m ts with
  | zero => exact .parseError _
  | succ left ih =>
    rw [parseExpr]
    split
    · next hprefix => exact (parsePrefix_refuses ih ts).error hprefix
    · exact .ok _
    · exact parseInfix_refuses ih _ m _ _

end Mizu
