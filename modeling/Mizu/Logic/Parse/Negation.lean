import Mizu.Logic.ExactArithmetic
import Mizu.Logic.Parse.Arena
import Mizu.Logic.Parse.Stops
import Mizu.Types.Eval.Sites

/-!
# Signs

A minus sign before a number literal changes the literal while it is parsed, on machine integers; before anything
else it becomes a subtraction from zero, which the evaluator checks. The lexer reads the most negative integer as one
token, so a sign may stand before it.

* `parseExpr_signs`: signs are read one by one, each a level deeper than the one before.
* `parseExpr_extreme_iff`: the most negative number comes from a token that reads as it, under parentheses and signs.
* `evaluate_zero_sub`: a subtraction from zero negates exactly or reports why it does not.
* `negatesTree_iff`: signs negate, unless there are some before the most negative number.

Main result: `negation_exact`.
-/

namespace Mizu

open Exec

/-! ## Reading signs -/

section Signs

variable {env : ParseEnv}

/-- `count` minus signs. -/
def signs (count : Nat) (ts : List Token) : List Token := List.replicate count .minus ++ ts

theorem parseExpr_minus (left : Nat) (ts : List Token) :
    parseExpr env (left + 1) 30 (.minus :: ts) =
      match parseExpr env left 30 ts with
      | .error e => .error e
      | .ok (operand, rest) => .ok (negate operand, rest) := by
  grind [parseExpr, parsePrefix, parseInfix_of_stops, parseExpr_stops]

/-- Signs are read one by one, each a level deeper than the one before. -/
theorem parseExpr_signs (left count : Nat) (ts : List Token) :
    parseExpr env left 30 (signs count ts) =
      match parseExpr env (left - count) 30 ts with
      | .error e => .error e
      | .ok (operand, rest) => .ok (negate^[count] operand, rest) := by
  induction count generalizing left with
  | zero =>
    show parseExpr env left 30 ts = _
    rw [Nat.sub_zero]
    cases parseExpr env left 30 ts <;> rfl
  | succ count ih =>
    cases left with
    | zero => rw [Nat.zero_sub]; rfl
    | succ left =>
      have hcons : signs (count + 1) ts = .minus :: signs count ts := rfl
      rw [hcons, parseExpr_minus, ih, Nat.add_sub_add_right]
      cases parseExpr env (left - count) 30 ts with
      | error e => rfl
      | ok r =>
        simp only [Function.iterate_succ_apply']

end Signs

/-! ## Number literals -/

variable {text : String} {v : Value}

section Literals

variable {env : ParseEnv}

/-- The values whose negation has no representation. -/
def Value.Extreme (v : Value) : Prop := v = .int Int64.minValue ∨ v = .decimal Int64.minValue

/-- Whether the text of a number is read through a float. -/
def isFloatText (cs : List Char) : Bool := cs.contains '.' || cs.contains 'e' || cs.contains 'E'

/-- The text of a number reads as the most negative integer or decimal. -/
def MostNegative (env : ParseEnv) (text : String) : Prop :=
  if isFloatText text.toList then env.scaledF64 text.toList = some Int64.minValue
  else parseI64 text.toList = some Int64.minValue

/-- The number token that an expression is, under parentheses and signs, and what comes after it. -/
def numberUnder : Nat → List Token → Option (String × List Token)
  | 0, _ => none
  | _ + 1, .num text :: ts => some (text, ts)
  | left + 1, .minus :: ts => numberUnder left ts
  | left + 1, .lParen :: ts =>
    match numberUnder left ts with
    | some (text, .rParen :: rest) => some (text, rest)
    | _ => none
  | _ + 1, _ => none

theorem parseNum_ok_iff {t : Tree} : parseNum env text = .ok t ↔
    if isFloatText text.toList then ∃ i, env.scaledF64 text.toList = some i ∧ t = .literal (.decimal i)
    else ∃ i, parseI64 text.toList = some i ∧ t = .literal (.int i) := by
  unfold parseNum isFloatText
  dsimp only
  split
  · cases env.scaledF64 text.toList <;> simp [eq_comm]
  · cases parseI64 text.toList <;> simp [eq_comm]

theorem mostNegative_iff :
    MostNegative env text ↔ ∃ v : Value, v.Extreme ∧ parseNum env text = .ok (.literal v) := by
  simp only [parseNum_ok_iff, MostNegative, Value.Extreme]
  split <;> simp

/-- Only the most negative number changes to itself. -/
theorem negate_eq_extreme_iff {t : Tree} (hv : v.Extreme) : negate t = .literal v ↔ t = .literal v := by
  have hneg : ∀ i : Int64, -i = Int64.minValue ↔ i = Int64.minValue := by grind
  unfold negate
  rcases hv with rfl | rfl
  · split <;> simp [hneg]
    grind
  · split <;> simp [hneg]
    grind

variable {ts rest : List Token}

/-- What an expression that is parsed to the most negative number starts with. -/
theorem numberUnder_of_prefix {left : Nat} {b : Bool} (hv : v.Extreme)
    (ih : ∀ {m ts rest}, m ≤ 30 → (parseExpr env left m ts = .ok (.literal v, rest) ↔
      Stops m rest ∧ ∃ text, numberUnder left ts = some (text, rest) ∧ parseNum env text = .ok (.literal v)))
    (h : parsePrefix env (parseExpr env left) ts = .ok ((.literal v, b), rest)) :
    ∃ text, numberUnder (left + 1) ts = some (text, rest) ∧ parseNum env text = .ok (.literal v) := by
  unfold parsePrefix at h
  split at h
  · split at h
    · cases h
    · next hnum =>
      cases h
      exact ⟨_, rfl, hnum⟩
  · rcases hv with rfl | rfl <;> cases h
  · rcases hv with rfl | rfl <;> cases h
  · grind [parseIf_not_literal, parseCall_not_literal]
  · split at h
    · cases h
    · next operand ts' hoperand =>
      have hneg := (Prod.mk.inj (Except.ok.inj h)).1
      obtain ⟨hneg, -⟩ := Prod.mk.inj hneg
      cases (Prod.mk.inj (Except.ok.inj h)).2
      rw [(negate_eq_extreme_iff hv).mp hneg] at hoperand
      exact ((ih (Nat.le_refl _)).mp hoperand).2
  · split at h
    · cases h
    · cases h
  · grind [numberUnder]
  · cases h

theorem prefix_of_numberUnder {left : Nat} (hv : v.Extreme)
    (ih : ∀ {m ts rest}, m ≤ 30 → (parseExpr env left m ts = .ok (.literal v, rest) ↔
      Stops m rest ∧ ∃ text, numberUnder left ts = some (text, rest) ∧ parseNum env text = .ok (.literal v)))
    (hstops : Stops 30 rest) (hunder : numberUnder (left + 1) ts = some (text, rest))
    (htext : parseNum env text = .ok (.literal v)) :
    parsePrefix env (parseExpr env left) ts = .ok ((.literal v, true), rest) := by
  unfold numberUnder at hunder
  split at hunder
  · next heq => cases heq
  · cases hunder
    rw [parsePrefix, htext]
  · next hleft =>
    cases hleft
    have hoperand := (ih (Nat.le_refl _)).mpr ⟨hstops, text, hunder, htext⟩
    rw [parsePrefix, hoperand]
    dsimp only
    rw [(negate_eq_extreme_iff hv).mpr rfl]
  · next hleft =>
    cases hleft
    split at hunder
    · next hinner =>
      cases hunder
      have hparsed := (ih (Nat.zero_le _)).mpr ⟨stops_rParen _ _, text, hinner, htext⟩
      rw [parsePrefix, hparsed]
    · cases hunder
  · cases hunder

/-- An expression is parsed to the most negative number if it is a token that reads as it, under parentheses and
signs. -/
theorem parseExpr_extreme_iff {left m : Nat} (hm : m ≤ 30) (hv : v.Extreme) :
    parseExpr env left m ts = .ok (.literal v, rest) ↔
      Stops m rest ∧ ∃ text, numberUnder left ts = some (text, rest) ∧ parseNum env text = .ok (.literal v) := by
  induction left generalizing m ts rest with
  | zero => simp [parseExpr, numberUnder]
  | succ left ih =>
    constructor
    · intro h
      refine ⟨parseExpr_stops h, ?_⟩
      have hprefix : ∃ b, parsePrefix env (parseExpr env left) ts = .ok ((.literal v, b), rest) := by
        rw [parseExpr] at h
        split at h
        · cases h
        · next hprefix =>
          cases h
          exact ⟨_, hprefix⟩
        · next hprefix =>
          obtain ⟨rfl, rfl⟩ := parseInfix_literal h
          exact ⟨_, hprefix⟩
      obtain ⟨b, hprefix⟩ := hprefix
      exact numberUnder_of_prefix hv (fun hm => ih hm) hprefix
    · rintro ⟨hstops, text, hunder, htext⟩
      have hprefix := prefix_of_numberUnder hv (fun hm => ih hm) (hstops.mono hm) hunder htext
      rw [parseExpr, hprefix]
      exact parseInfix_of_stops hstops _

end Literals

/-! ## Negation -/

/-- A value is the negation of another, as often as there are signs; each negation on the way has a representation. -/
inductive Negates (count : Nat) : Value → Value → Prop
  | none (h : count = 0) (v : Value) : Negates count v v
  | int {i j : Int64} (fits : InI64 (-i.toInt)) (value : j.toInt = (-1) ^ count * i.toInt) :
    Negates count (.int i) (.int j)
  | decimal {i j : Int64} (fits : InI64 (-i.toInt)) (value : j.toInt = (-1) ^ count * i.toInt) :
    Negates count (.decimal i) (.decimal j)

/-- Why a value has no negation. -/
inductive NotNegated : Value → MizuError → Prop
  | int {i : Int64} (h : ¬ InI64 (-i.toInt)) : NotNegated (.int i) .integerOverflow
  | decimal {i : Int64} (h : ¬ InI64 (-i.toInt)) : NotNegated (.decimal i) .integerOverflow
  | other {v : Value} (h : v.number = none) : NotNegated v (.typeError "compatible operand types" "num")

section Negates

variable {count : Nat} {v w : Value}

theorem neg_one_pow_mul (count : Nat) (n : Int) : (-1) ^ count * n = n ∨ (-1) ^ count * n = -n := by
  rcases neg_one_pow_eq_or Int count with h | h <;> simp [h]

theorem Negates.succ {u : Value} (h : Negates count u v) (h' : Negates 1 v w) : Negates (count + 1) u w := by
  cases h with
  | none h v =>
    subst h
    exact h'
  | int fits value =>
    cases h' with
    | none h v => cases h
    | int fits' value' => exact .int fits (by rw [value', value, pow_succ]; ring)
  | decimal fits value =>
    cases h' with
    | none h v => cases h
    | decimal fits' value' => exact .decimal fits (by rw [value', value, pow_succ]; ring)

theorem inI64_neg_of_pow {i j : Int64} (value : j.toInt = (-1) ^ count * i.toInt) (h : ¬ InI64 (-j.toInt)) :
    ¬ InI64 (-i.toInt) := by
  have hlo := Int64.le_toInt i
  have hhi := Int64.toInt_lt i
  rcases neg_one_pow_mul count i.toInt with hpow | hpow
  · rwa [value, hpow] at h
  · refine absurd ?_ h
    rw [value, hpow, neg_neg]
    exact ⟨hlo, hhi⟩

theorem inI64_neg_iff {i : Int64} : InI64 (-i.toInt) ↔ i ≠ Int64.minValue := by
  have hlo := Int64.le_toInt i
  have hhi := Int64.toInt_lt i
  rw [Ne, ← Int64.toInt_inj, Int64.toInt_minValue]
  unfold InI64
  omega

/-- There is no sign before a number without a negation. -/
theorem Negates.not_extreme (h : Negates count v w) : count = 0 ∨ ¬ v.Extreme := by
  cases h with
  | none h v => exact .inl h
  | int fits value => exact .inr fun hextreme => inI64_neg_iff.mp fits (by simpa [Value.Extreme] using hextreme)
  | decimal fits value => exact .inr fun hextreme => inI64_neg_iff.mp fits (by simpa [Value.Extreme] using hextreme)

/-- What cannot be negated once more could not be negated before. -/
theorem Negates.notNegated {e : MizuError} (h : Negates count v w) (h' : NotNegated w e) : NotNegated v e := by
  cases h with
  | none h v => exact h'
  | int fits value =>
    cases h' with
    | int h => exact .int (inI64_neg_of_pow value h)
    | other h => cases h
  | decimal fits value =>
    cases h' with
    | decimal h => exact .decimal (inI64_neg_of_pow value h)
    | other h => cases h

/-- A subtraction from zero negates, or says why it does not. -/
theorem applyBinop_zero_sub (max n : Nat) (v : Value) :
    (∃ w n', applyBinop max .sub (.int 0) v n = .ok w n' ∧ Negates 1 v w) ∨
      ∃ e n', applyBinop max .sub (.int 0) v n = .error e n' ∧ NotNegated v e := by
  have hzero : ∀ i : Int64, (0 : Int64).toInt - i.toInt = -i.toInt := fun i => zero_sub _
  cases v with
  | int i =>
    have hrun : applyBinop max .sub (.int 0) (.int i) n = checked .int (-i.toInt) n := by rw [← hzero]; rfl
    rw [hrun]
    by_cases h : InI64 (-i.toInt)
    · obtain ⟨j, hj, hok⟩ := checked_of_inI64 (n := n) Value.int h
      exact .inl ⟨_, _, hok, .int h (by rw [hj]; ring)⟩
    · exact .inr ⟨_, _, checked_of_not_inI64 _ h, .int h⟩
  | decimal i =>
    have hrun : applyBinop max .sub (.int 0) (.decimal i) n = checked .decimal (-i.toInt) n := by rw [← hzero]; rfl
    rw [hrun]
    by_cases h : InI64 (-i.toInt)
    · obtain ⟨j, hj, hok⟩ := checked_of_inI64 (n := n) Value.decimal h
      exact .inl ⟨_, _, hok, .decimal h (by rw [hj]; ring)⟩
    · exact .inr ⟨_, _, checked_of_not_inI64 _ h, .decimal h⟩
  | _ => exact .inr ⟨_, _, rfl, .other rfl⟩

end Negates

/-! ## Evaluation -/

/-- The state in which an operand is evaluated, after the subtractions around it have been entered and their zeros
evaluated. -/
def Evaluator.charged (s : Evaluator) (count : Nat) : Evaluator :=
  { s with instructionCount := s.instructionCount + 2 * count, evalDepth := s.evalDepth + count }

/-- How an evaluation under signs ends, next to how that of the operand does: with the exact negation, with the
operand's own error, or with a report that a limit is reached or that there is no negation. -/
def Signed (count : Nat) (operand out : EStateM.Result MizuError Evaluator Value) : Prop :=
  match out with
  | .ok v _ => ∃ w s, operand = .ok w s ∧ Negates count w v
  | .error e _ => e = .timeout ∨ e = tooDeep ∨ (∃ s, operand = .error e s) ∨ ∃ w s, operand = .ok w s ∧ NotNegated w e

theorem Signed.succ {count : Nat} {operand mid out : EStateM.Result MizuError Evaluator Value}
    (h : Signed count operand mid) (h' : Signed 1 mid out) : Signed (count + 1) operand out := by
  cases out with
  | ok v s =>
    obtain ⟨w, s', rfl, hneg⟩ := h'
    obtain ⟨u, s'', rfl, hneg'⟩ := h
    exact ⟨u, s'', rfl, hneg'.succ hneg⟩
  | error e s =>
    rcases h' with he | he | ⟨s', rfl⟩ | ⟨w, s', rfl, hnot⟩
    · exact .inl he
    · exact .inr (.inl he)
    · exact h
    · obtain ⟨u, s'', rfl, hneg⟩ := h
      exact .inr (.inr (.inr ⟨u, s'', rfl, hneg.notNegated hnot⟩))

theorem Signed.zero (out : EStateM.Result MizuError Evaluator Value) : Signed 0 out out := by
  cases out with
  | ok v s => exact ⟨v, s, rfl, .none rfl v⟩
  | error e s => exact .inr (.inr (.inl ⟨s, rfl⟩))

section Evaluate

variable {ctx : EvalCtx} {fp : Nat} {a : ExprArena}

theorem enter_error {s s' : Evaluator} {e : MizuError} (h : enter s = .error e s') : e = .timeout ∨ e = tooDeep := by
  grind [enter]

/-- A literal evaluates to itself, unless a limit is reached. -/
theorem evaluate_literal_cases (s : Evaluator) :
    (∃ e s', (∀ v, evaluate ctx fp a (.literal v) s = .error e s') ∧ (e = .timeout ∨ e = tooDeep)) ∨
      ∀ v, evaluate ctx fp a (.literal v) s = .ok v { s with instructionCount := s.instructionCount + 1 } := by
  cases henter : enter s with
  | error e s' => exact .inl ⟨e, s', fun v => evaluate_of_enter_error henter, enter_error henter⟩
  | ok u s' =>
    obtain ⟨-, rfl⟩ := enter_ok henter
    refine .inr fun v => ?_
    rw [evaluate_of_enter_ok henter]
    rfl

theorem evaluate_zero_sub {l r : ExprId} (hl : a.get l = .literal (.int 0)) (s : Evaluator) :
    Signed 1 (evaluate ctx fp a (a.get r) (s.charged 1)) (evaluate ctx fp a (.binaryOp l .sub r) s) := by
  cases henter : enter s with
  | error e s' =>
    rw [evaluate_of_enter_error henter]
    exact (enter_error henter).imp_right .inl
  | ok u s' =>
    obtain ⟨-, rfl⟩ := enter_ok henter
    rw [evaluate_of_enter_ok henter]
    unfold onExit
    rw [evaluateImpl, hl]
    rcases @evaluate_literal_cases ctx fp a
      { s with instructionCount := s.instructionCount + 1, evalDepth := s.evalDepth + 1 } with
      ⟨e, s', hzero, he⟩ | hzero
    · rw [bind_error (hzero _)]
      exact he.imp_right .inl
    · have hcharged : evaluate ctx fp a (.literal (.int 0)) _ = .ok (.int 0) (s.charged 1) := hzero _
      rw [bind_ok hcharged]
      cases hoperand : evaluate ctx fp a (a.get r) (s.charged 1) with
      | error e s' =>
        rw [bind_error hoperand]
        exact .inr (.inr (.inl ⟨s', rfl⟩))
      | ok v s' =>
        rw [bind_ok hoperand]
        unfold native
        dsimp only
        rcases applyBinop_zero_sub s'.maxInstructions s'.instructionCount v with
          ⟨w, n, hrun, hneg⟩ | ⟨e, n, hrun, hnot⟩
        · rw [hrun]
          exact ⟨v, s', rfl, hneg⟩
        · rw [hrun]
          exact .inr (.inr (.inr ⟨v, s', rfl, hnot⟩))

end Evaluate

/-! ## Trees under signs -/

/-- However it is stored, a tree evaluates to the negation of an operand, as often as there are signs. -/
def NegatesTree (count : Nat) (operand t : Tree) : Prop :=
  ∀ (ctx : EvalCtx) (a : ExprArena) (e : Expr), Holds ctx.interner a t e →
    ∃ e', Holds ctx.interner a operand e' ∧ ∃ charge ≤ count, ∀ fp s,
      Signed count (evaluate ctx fp a e' (s.charged charge)) (evaluate ctx fp a e s)

section Trees

variable {count : Nat}

/-- The literals that a sign changes. -/
def Tree.isNumber : Tree → Bool
  | .literal (.int _) | .literal (.decimal _) => true
  | _ => false

/-- A sign before anything else is a subtraction from zero. -/
theorem negate_of_not_number {t : Tree} (h : t.isNumber = false) :
    negate t = .binaryOp (.literal (.int 0)) .sub t := by
  unfold negate
  split
  · cases h
  · cases h
  · rfl

theorem not_number_of_signs {t : Tree} (h : t.isNumber = false) (count : Nat) :
    (negate^[count] t).isNumber = false := by
  induction count with
  | zero => exact h
  | succ count ih => rw [Function.iterate_succ_apply', negate_of_not_number ih]; rfl

/-- Signs before anything but a number literal negate. -/
theorem negatesTree_other {operand : Tree} (h : operand.isNumber = false) :
    NegatesTree count operand (negate^[count] operand) := by
  induction count with
  | zero => exact fun ctx a e he => ⟨e, he, 0, Nat.le_refl 0, fun fp s => Signed.zero _⟩
  | succ count ih =>
    intro ctx a e he
    rw [Function.iterate_succ_apply', negate_of_not_number (not_number_of_signs h count)] at he
    obtain ⟨l, r, rfl, hl, hr⟩ := he
    obtain ⟨e', he', charge, hcharge, hsigned⟩ := ih ctx a _ hr
    refine ⟨e', he', charge + 1, Nat.succ_le_succ hcharge, fun fp s => ?_⟩
    have hcharged : s.charged (charge + 1) = (s.charged 1).charged charge := by
      simp only [Evaluator.charged, Evaluator.mk.injEq, true_and, and_true]
      omega
    rw [hcharged]
    exact (hsigned fp (s.charged 1)).succ (evaluate_zero_sub hl s)

theorem negate_int (i : Int64) (count : Nat) :
    negate^[count] (.literal (.int i)) = .literal (.int (Neg.neg^[count] i)) := by
  induction count with
  | zero => rfl
  | succ count ih => rw [Function.iterate_succ_apply', Function.iterate_succ_apply', ih]; rfl

theorem negate_decimal (i : Int64) (count : Nat) :
    negate^[count] (.literal (.decimal i)) = .literal (.decimal (Neg.neg^[count] i)) := by
  induction count with
  | zero => rfl
  | succ count ih => rw [Function.iterate_succ_apply', Function.iterate_succ_apply', ih]; rfl

theorem toInt_neg_of_inI64 {i : Int64} (h : InI64 (-i.toInt)) : (-i).toInt = -i.toInt := by
  grind [Int64.toInt_neg, InI64]

/-- The negation on machine integers is exact, unless the first one wraps. -/
theorem toInt_neg_iterate {i : Int64} (h : InI64 (-i.toInt)) (count : Nat) :
    (Neg.neg^[count] i).toInt = (-1) ^ count * i.toInt := by
  have hlo := Int64.le_toInt i
  have hhi := Int64.toInt_lt i
  induction count with
  | zero => rw [pow_zero, one_mul]; rfl
  | succ count ih =>
    have hfits : InI64 (-(Neg.neg^[count] i).toInt) := by
      rw [ih]
      rcases neg_one_pow_mul count i.toInt with hpow | hpow
      · rwa [hpow]
      · rw [hpow, neg_neg]
        exact ⟨hlo, hhi⟩
    rw [Function.iterate_succ_apply', toInt_neg_of_inI64 hfits, ih, pow_succ]
    ring

/-- A literal that has been changed, if the exact negation is the one that it has been changed to. -/
theorem negatesTree_literal {v w : Value} (h : Negates count v w) : NegatesTree count (.literal v) (.literal w) := by
  rintro ctx a e rfl
  refine ⟨.literal v, rfl, 0, Nat.zero_le _, fun fp s => ?_⟩
  rcases @evaluate_literal_cases ctx fp a s with ⟨e, s', hrun, he⟩ | hrun
  · rw [hrun w]
    exact he.imp_right .inl
  · rw [hrun w]
    exact ⟨v, _, hrun v, h⟩

theorem negates_of_negatesTree {v w : Value} (h : NegatesTree count (.literal v) (.literal w)) : Negates count v w := by
  obtain ⟨e', rfl, charge, -, hsigned⟩ := h ⟨∅, .new, ⟨fun _ _ => false, fun h => nomatch h⟩⟩ .new _ rfl
  have hrun := @evaluate_literal ⟨∅, .new, ⟨fun _ _ => false, fun h => nomatch h⟩⟩ 0 .new w (.new 1)
    (by decide) (by decide)
  have hsigned := hsigned 0 (.new 1)
  rw [hrun] at hsigned
  obtain ⟨u, s, hu, hneg⟩ := hsigned
  rcases @evaluate_literal_cases ⟨∅, .new, ⟨fun _ _ => false, fun h => nomatch h⟩⟩ 0 .new
    (Evaluator.charged (.new 1) charge) with ⟨e, s', hfail, -⟩ | hval
  · rw [hfail v] at hu
    cases hu
  · rw [hval v] at hu
    cases hu
    exact hneg

/-- The signs before a number literal negate it, unless there are some before the most negative number. -/
theorem negatesTree_number_iff (hv : (Tree.literal v).isNumber = true) :
    NegatesTree count (.literal v) (negate^[count] (.literal v)) ↔ count = 0 ∨ ¬ v.Extreme := by
  rcases Nat.eq_zero_or_pos count with rfl | hcount
  · exact ⟨fun _ => .inl rfl, fun _ => negatesTree_literal (.none rfl v)⟩
  · cases v with
    | int i =>
      rw [negate_int]
      refine ⟨fun h => (negates_of_negatesTree h).not_extreme, fun h => ?_⟩
      have hfits : InI64 (-i.toInt) := inI64_neg_iff.mpr fun hi => h.resolve_left (by omega) (.inl (by rw [hi]))
      exact negatesTree_literal (.int hfits (toInt_neg_iterate hfits count))
    | decimal i =>
      rw [negate_decimal]
      refine ⟨fun h => (negates_of_negatesTree h).not_extreme, fun h => ?_⟩
      have hfits : InI64 (-i.toInt) := inI64_neg_iff.mpr fun hi => h.resolve_left (by omega) (.inr (by rw [hi]))
      exact negatesTree_literal (.decimal hfits (toInt_neg_iterate hfits count))
    | _ => cases hv

/-- Signs negate, unless there are some before the most negative number. -/
theorem negatesTree_iff {operand : Tree} :
    NegatesTree count operand (negate^[count] operand) ↔
      count = 0 ∨ ¬ ∃ v : Value, v.Extreme ∧ operand = .literal v := by
  cases hnumber : operand.isNumber with
  | false =>
    refine ⟨fun _ => .inr ?_, fun _ => negatesTree_other hnumber⟩
    rintro ⟨v, rfl | rfl, rfl⟩ <;> cases hnumber
  | true =>
    cases operand with
    | literal v => grind [negatesTree_number_iff]
    | _ => cases hnumber

end Trees

/-! ## What a literal denotes -/

section Denoted

/-- A text after its sign. -/
def signedText {α : Type} [Neg α] (f : List Char → α) : List Char → α
  | '-' :: cs => -f cs
  | '+' :: cs => f cs
  | cs => f cs

/-- The number that digits around a point denote. -/
def pointText (cs : List Char) : ℚ :=
  let fraction := (cs.dropWhile (· ≠ '.')).drop 1
  digitsVal (cs.takeWhile (· ≠ '.') ++ fraction) / 10 ^ fraction.length

def isExponentMark (c : Char) : Bool := c = 'e' || c = 'E'

/-- The power of ten that follows the mark. -/
def exponentText : List Char → ℤ
  | [] => 0
  | _ :: cs => signedText (digitsVal · : List Char → ℤ) cs

/-- The number that the text of a number token denotes. -/
def numText (cs : List Char) : ℚ :=
  signedText pointText (cs.takeWhile (!isExponentMark ·)) * 10 ^ exponentText (cs.dropWhile (!isExponentMark ·))

example : numText "-12.50e2".toList = -1250 := by with_unfolding_all decide

variable {cs : List Char}

theorem parseI64_signedText {n : Int64} (h : parseI64 cs = some n) :
    n.toInt = signedText (digitsVal · : List Char → ℤ) cs := by
  have hread : ∀ (negative : Bool) (digits : List Char),
      (if digits.isEmpty || !digits.all Char.isDigit then none
        else i64TryFrom (if negative then -(Nat.ofDigitChars 10 digits 0 : Int) else Nat.ofDigitChars 10 digits 0)) =
          some n →
        n.toInt = if negative then -(digitsVal digits : Int) else digitsVal digits := by
    intro negative digits hsome
    split at hsome
    · cases hsome
    · exact i64TryFrom_eq_some.mp hsome
  unfold parseI64 at h
  dsimp only at h
  split at h
  · exact hread true _ h
  · exact hread false _ h
  · next hminus hplus =>
    rw [signedText.eq_3 _ _ hminus hplus]
    exact hread false _ h

theorem signedText_cast {f : List Char → ℤ} {g : List Char → ℚ} (h : ∀ c ∈ cs, c ≠ '.')
    (hfg : ∀ ds : List Char, (∀ c ∈ ds, c ≠ '.') → g ds = f ds) : signedText g cs = (signedText f cs : ℤ) := by
  unfold signedText
  split
  · rw [hfg _ fun c hc => h c (List.mem_cons_of_mem _ hc), Int.cast_neg]
  · exact hfg _ fun c hc => h c (List.mem_cons_of_mem _ hc)
  · exact hfg _ h

/-- The text of an integer is read as the number that it denotes. -/
theorem parseI64_exact {n : Int64} (htext : isFloatText cs = false) (h : parseI64 cs = some n) :
    (n.toInt : ℚ) = numText cs := by
  unfold isFloatText at htext
  simp only [Bool.or_eq_false_iff, List.contains_eq_mem, decide_eq_false_iff_not] at htext
  obtain ⟨⟨hpoint, he⟩, hE⟩ := htext
  have hmark : ∀ c ∈ cs, (!isExponentMark c) = true := by
    intro c hc
    have hne : c ≠ 'e' := fun heq => he (heq ▸ hc)
    have hNe : c ≠ 'E' := fun heq => hE (heq ▸ hc)
    simp [isExponentMark, hne, hNe]
  have hpoints : ∀ c ∈ cs, c ≠ '.' := fun c hc heq => hpoint (heq ▸ hc)
  rw [numText, List.takeWhile_eq_self_iff.mpr hmark, List.dropWhile_eq_nil_iff.mpr hmark, exponentText, zpow_zero,
    mul_one, parseI64_signedText h]
  refine (signedText_cast hpoints fun ds hds => ?_).symm
  have hdigits : ∀ c ∈ ds, (decide (c ≠ '.')) = true := fun c hc => decide_eq_true (hds c hc)
  rw [pointText, List.takeWhile_eq_self_iff.mpr hdigits, List.dropWhile_eq_nil_iff.mpr hdigits]
  simp

end Denoted

/-! ## The claim of the parser -/

/-- A text that is read through a float comes out as the number that it denotes. -/
def FloatExact (env : ParseEnv) (text : String) : Prop :=
  isFloatText text.toList → ∀ i, env.scaledF64 text.toList = some i → (i.toInt / decimalScale : ℚ) = numText text.toList

/-- Signs before a literal or another operand, with `left` levels left: the literal is the number that its text
denotes; what is not accepted is a parse error; what is accepted evaluates to the negation of the operand, as often as
there are signs. -/
structure NegationExact (env : ParseEnv) (left count : Nat) (ts : List Token) : Prop where
  literal : ∀ text v, ts.head? = some (.num text) → parseNum env text = .ok (.literal v) →
    v.number = some (numText text.toList)
  refused : ∀ m, Refuses (parseExpr env left m (signs count ts))
  negates : ∀ t rest, parseExpr env left 30 (signs count ts) = .ok (t, rest) →
    ∃ operand, parseExpr env (left - count) 30 ts = .ok (operand, rest) ∧ NegatesTree count operand t
  /-- Operators that bind weaker than a sign only go on from there. -/
  goesOn : ∀ m ≤ 30, parseExpr env left m (signs count ts) =
    match parseExpr env left 30 (signs count ts) with
    | .error e => .error e
    | .ok (t, rest) => parseInfix env (parseExpr env (left - 1)) m rest.length t rest

section Claim

variable {env : ParseEnv} {left count : Nat} {ts : List Token}

theorem literal_exact_iff :
    (∀ v, parseNum env text = .ok (.literal v) → v.number = some (numText text.toList)) ↔ FloatExact env text := by
  simp only [parseNum_ok_iff, FloatExact]
  cases hfloat : isFloatText text.toList with
  | true =>
    constructor
    · intro h _ i hi
      exact Option.some.inj (h (.decimal i) ⟨i, hi, rfl⟩)
    · rintro h v ⟨i, hi, heq⟩
      cases heq
      exact congrArg some (h rfl i hi)
  | false =>
    refine ⟨fun _ hfalse => absurd hfalse Bool.false_ne_true, ?_⟩
    rintro - v ⟨i, hi, heq⟩
    cases heq
    exact congrArg some (parseI64_exact hfloat hi)

theorem negates_iff :
    (∀ t rest, parseExpr env left 30 (signs count ts) = .ok (t, rest) →
      ∃ operand, parseExpr env (left - count) 30 ts = .ok (operand, rest) ∧ NegatesTree count operand t) ↔
    (count = 0 ∨ ∀ text rest, numberUnder (left - count) ts = some (text, rest) → rest.head? ≠ some .dot →
      ¬ MostNegative env text) := by
  have hsigned := @parseExpr_signs env left count ts
  constructor
  · intro h
    refine or_iff_not_imp_left.mpr fun hcount text rest hunder hrest hmost => ?_
    obtain ⟨v, hv, htext⟩ := mostNegative_iff.mp hmost
    have hoperand := (parseExpr_extreme_iff (Nat.le_refl 30) hv).mpr ⟨stops_sign_iff.mpr hrest, text, hunder, htext⟩
    rw [hoperand] at hsigned
    obtain ⟨operand, hoperand', hneg⟩ := h _ _ hsigned
    cases hoperand'.symm.trans hoperand
    exact (negatesTree_iff.mp hneg).elim hcount fun hnot => hnot ⟨v, hv, rfl⟩
  · intro h t rest hparsed
    rw [hparsed] at hsigned
    split at hsigned
    · cases hsigned
    · next operand rest' hoperand =>
      cases hsigned
      refine ⟨operand, hoperand, negatesTree_iff.mpr (h.imp_right ?_)⟩
      rintro hnot ⟨v, hv, rfl⟩
      obtain ⟨hstops, text, hunder, htext⟩ := (parseExpr_extreme_iff (Nat.le_refl 30) hv).mp hoperand
      exact hnot text _ hunder (stops_sign_iff.mp hstops) (mostNegative_iff.mpr ⟨v, hv, htext⟩)

end Claim

/-- Literals and signs are exact, unless a sign stands before the most negative number or a float is. -/
theorem negation_exact (env : ParseEnv) (left count : Nat) (ts : List Token) :
    NegationExact env left count ts ↔
      (∀ text, ts.head? = some (.num text) → FloatExact env text) ∧
      (count = 0 ∨ ∀ text rest, numberUnder (left - count) ts = some (text, rest) → rest.head? ≠ some .dot →
        ¬ MostNegative env text) := by
  constructor
  · intro h
    exact ⟨fun text hhead => literal_exact_iff.mp fun v => h.literal text v hhead, negates_iff.mp h.negates⟩
  · rintro ⟨hliteral, hnegates⟩
    refine ⟨fun text v hhead => literal_exact_iff.mpr (hliteral text hhead) v, fun m => parseExpr_refuses _ _ _ _,
      negates_iff.mpr hnegates, fun m hm => ?_⟩
    cases left with
    | zero => rfl
    | succ left => exact parseExpr_goesOn hm

/-- A parser whose floats are of no use. -/
def plainParseEnv : ParseEnv where
  maxParseDepth := 256
  scaledF64 := fun _ => none
  debugStr := id

/-- Two minus signs and the digits of the most negative integer are one sign before a literal, which wraps. -/
theorem negation_wraps :
    lex "--9223372036854775808" = .ok (signs 1 [.num "-9223372036854775808", .newline]) ∧
      parseExprTree plainParseEnv (signs 1 [.num "-9223372036854775808", .newline]) =
        .ok (.literal (.int Int64.minValue), [.newline]) ∧
      ¬ NegationExact plainParseEnv (plainParseEnv.maxParseDepth + 1) 1 [.num "-9223372036854775808", .newline] := by
  have htext : parseNum plainParseEnv "-9223372036854775808" = .ok (.literal (.int Int64.minValue)) := by rfl
  have hextreme : Value.Extreme (.int Int64.minValue) := .inl rfl
  refine ⟨by decide, ?_, fun h => ?_⟩
  · exact (parseExpr_extreme_iff (Nat.zero_le 30) hextreme).mpr ⟨(fun _ hop => nomatch hop), _, rfl, htext⟩
  · have hnot := (negates_iff.mp h.negates).resolve_left Nat.one_ne_zero
    have hunder : numberUnder 256 [.num "-9223372036854775808", .newline] =
        some ("-9223372036854775808", [.newline]) := by rfl
    have hmost : MostNegative plainParseEnv "-9223372036854775808" := by
      rw [mostNegative_iff]
      exact ⟨.int Int64.minValue, hextreme, htext⟩
    have hrest : [Token.newline].head? ≠ some .dot := by decide
    have hno : ¬ MostNegative plainParseEnv "-9223372036854775808" := hnot "-9223372036854775808" [.newline] hunder hrest
    exact hno hmost

end Mizu
