import Mizu.Logic.Action
import Mizu.Logic.Recompute
import Mizu.Security.PathParam
import Mizu.Types.NumberText

/-!
# The path parameter and what is shown

A network call sends its path parameter as `pathParamText` renders it, which is not what `display` shows of a number.

Main result: `pathParam_shown`: the two agree on the strings that the gate lets through, and on the decimal zero.
-/

namespace Mizu

open Exec

/-- Whether the parameter is sent as it is shown. -/
def Value.sentAsShown : Value → Bool
  | string s => pathParamOk s
  | decimal i => i = 0
  | _ => false

/-- The scaled integer of a decimal is shown of no decimal but zero. -/
theorem toString_eq_formatDecimal (i : Int64) : toString i.toInt = Value.formatDecimal i false ↔ i = 0 := by
  constructor
  · intro h
    have hread := parseJsonNumberExact_int (fun _ => none) i
    by_cases hwhole : i.toInt.tmod decimalScale = 0
    · have hsum := Int.mul_tdiv_add_tmod i.toInt decimalScale
      have hfits : InI64 (i.toInt.tdiv decimalScale) := by grind [InI64, decimalScale, inI64_toInt]
      obtain ⟨j, hj, -⟩ := i64TryFrom_of_inI64 hfits
      rw [h, formatDecimal_whole hwhole, ← hj, parseJsonNumberExact_int] at hread
      cases hread
      rw [← Int64.toInt_inj, Int64.toInt_zero]
      unfold decimalScale at *
      omega
    · grind [formatDecimal_fraction, parseJsonNumberExact_formatDecimal]
  · rintro rfl
    decide

theorem percentEncode_inj {a b : String} : percentEncode a = percentEncode b ↔ a = b := by
  grind [toList_percentEncode, encodedParam_injective]

/-! ## The segment -/

/-- The text of a parameter, if the gate lets it through. -/
def gateSegment (text : String) : Except MizuError String :=
  if pathParamOk text then .ok text else .error (.executionError "path_param must be a single path segment")

/-- What becomes of a parameter. -/
def segmentOf : Value → Except MizuError String
  | .string s => gateSegment s
  | .decimal n => gateSegment (toString n.toInt)
  | _ => .error (.executionError "path_param must be a string or number")

theorem gateSegment_ok {text segment : String} :
    gateSegment text = .ok segment ↔ pathParamOk text = true ∧ text = segment := by
  unfold gateSegment
  split <;> simp [*]

theorem segmentOf_shown {v : Value} (hv : (ValueType.num.accepts v || ValueType.str.accepts v) = true) :
    (∃ segment, segmentOf v = .ok segment ∧ percentEncode segment = percentEncode v.display) ↔
      v.sentAsShown = true := by
  cases v with
  | int i => exact ⟨nofun, nofun⟩
  | decimal i =>
    rw [Value.sentAsShown, decide_eq_true_eq, ← toString_eq_formatDecimal]
    constructor
    · rintro ⟨segment, hsegment, hshown⟩
      obtain ⟨-, rfl⟩ := gateSegment_ok.mp hsegment
      exact percentEncode_inj.mp hshown
    · intro hsame
      obtain rfl := (toString_eq_formatDecimal i).mp hsame
      exact ⟨_, gateSegment_ok.mpr ⟨by decide, rfl⟩, congrArg percentEncode hsame⟩
  | string text =>
    rw [Value.sentAsShown]
    constructor
    · rintro ⟨segment, hsegment, -⟩
      exact (gateSegment_ok.mp hsegment).1
    · exact fun hgate => ⟨text, gateSegment_ok.mpr ⟨hgate, rfl⟩, rfl⟩
  | _ => exact absurd hv Bool.false_ne_true

/-! ## The call -/

theorem evalPathParam_run {ctx : EvalCtx} {t : ExprTree} {v : Value} {s s' : Evaluator}
    (h : evalTree ctx t s = .ok v s') :
    evalPathParam ctx (some t) s =
      match segmentOf v with
      | .ok segment => .ok (some segment) s'
      | .error e => .error e s' := by
  have hgate : ∀ text, (do
      if !pathParamOk text then throw (.executionError "path_param must be a single path segment")
      else return some text : EvalM (Option String)) s' =
      match gateSegment text with
      | .ok segment => .ok (some segment) s'
      | .error e => .error e s' := by
    intro text
    unfold gateSegment
    cases pathParamOk text <;> rfl
  unfold evalPathParam
  dsimp only
  rw [bind_ok h]
  cases v with
  | string text => exact hgate text
  | decimal n => exact hgate (toString n.toInt)
  | _ => rfl

/-- A network call whose payload, target and headers evaluate is queued with the segment that stands for what is shown
of its parameter if and only if the parameter is a string that passes the gate or the decimal zero. -/
theorem pathParam_shown (ctx : EvalCtx) (method : NetworkMethod) (aliasSym : Symbol) (payload : Option ExprTree)
    (param : ExprTree) (targetVar : String) (format : PayloadFormat) (headers : List (String × ExprTree))
    {s s₁ s₂ s₃ : Evaluator} {sent : Option Value} {v : Value} {target : Symbol} {sentHeaders : List (String × Value)}
    (hpayload : evalPayload ctx payload { s with instructionCount := 0 } = .ok sent s₁)
    (hparam : evalTree ctx param s₁ = .ok v s₂) (htarget : ctx.interner.get targetVar = some target)
    (hheaders : evalHeaders ctx headers s₂ = .ok sentHeaders s₃)
    (hv : (ValueType.num.accepts v || ValueType.str.accepts v) = true) :
    (∃ segment, executeAction ctx (.networkCall method aliasSym payload (some param) targetVar format headers) s =
        .ok true (s₃.act (.networkCall method aliasSym.id sent (some segment) target format sentHeaders)) ∧
      percentEncode segment = percentEncode v.display) ↔ v.sentAsShown = true := by
  have hqueued : executeAction ctx (.networkCall method aliasSym payload (some param) targetVar format headers) s =
      match segmentOf v with
      | .ok segment =>
        .ok true (s₃.act (.networkCall method aliasSym.id sent (some segment) target format sentHeaders))
      | .error e => .error e s₂ := by
    have hsymbol : targetSymbol ctx targetVar s₂ = .ok target s₂ := by
      unfold targetSymbol
      rw [htarget]
      rfl
    have hpath := evalPathParam_run hparam
    unfold executeAction
    rw [bind_ok (modify_apply _ _)]
    dsimp only
    rw [bind_ok hpayload, bind_apply, hpath]
    cases segmentOf v with
    | error e => rfl
    | ok segment =>
      dsimp only
      rw [bind_ok hsymbol, bind_ok hheaders]
      rfl
  rw [← segmentOf_shown hv, hqueued]
  refine exists_congr fun segment => and_congr_left fun _ => ?_
  cases segmentOf v with
  | error e => exact ⟨nofun, nofun⟩
  | ok found =>
    refine ⟨fun h => ?_, fun h => ?_⟩
    · have hfound : found = segment := by simpa [Evaluator.act] using h
      rw [hfound]
    · cases h
      rfl

/-- An expression that is a literal. -/
def literalTree (v : Value) : ExprTree where
  arena := { nodes := [.literal v], argsPool := [], nodes_valid := by simp [Expr.refsValid], pool_valid := by simp }
  root := 0
  root_valid := Nat.one_pos

/-- A call with this parameter, for a document with the variable `x`. -/
def callWith (v : Value) : Action := .networkCall .get ⟨0⟩ none (some (literalTree v)) "x" .json []

/-- The state in which the parameter is evaluated. -/
def afterOne : Evaluator := { Evaluator.new 20000 with instructionCount := 1 }

theorem pathParam_shown_item :
    (∃ segment, executeAction constantCtx (callWith (.string "item 1")) (.new 20000) =
        .ok true (afterOne.act (.networkCall .get 0 none (some segment) ⟨0⟩ .json [])) ∧
      percentEncode segment = percentEncode (Value.string "item 1").display) ↔
      (Value.string "item 1").sentAsShown = true :=
  pathParam_shown constantCtx .get ⟨0⟩ none (literalTree (.string "item 1")) "x" .json [] rfl rfl rfl rfl rfl

/-- A parameter that is an integer is refused. -/
theorem integer_param_refused : ¬ ∀ (ctx : EvalCtx) (param : ExprTree) (s s₂ : Evaluator) (v : Value) (target : Symbol),
    evalTree ctx param { s with instructionCount := 0 } = .ok v s₂ → ctx.interner.get "x" = some target →
    (ValueType.num.accepts v || ValueType.str.accepts v) = true →
      ∃ segment, executeAction ctx (.networkCall .get ⟨0⟩ none (some param) "x" .json []) s =
          .ok true (s₂.act (.networkCall .get 0 none (some segment) target .json [])) ∧
        percentEncode segment = percentEncode v.display := by
  intro h
  obtain ⟨segment, hqueued, -⟩ := h constantCtx (literalTree (.int 42)) (.new 20000) afterOne (.int 42) ⟨0⟩ rfl rfl rfl
  have hrefused : executeAction constantCtx (callWith (.int 42)) (.new 20000) =
      .error (.executionError "path_param must be a string or number") afterOne := rfl
  rw [show (Action.networkCall .get ⟨0⟩ none (some (literalTree (.int 42))) "x" .json []) = callWith (.int 42) from rfl,
    hrefused] at hqueued
  cases hqueued

end Mizu
