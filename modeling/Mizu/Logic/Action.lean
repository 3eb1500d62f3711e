import Mizu.Types.Eval.Frame
import Mizu.Types.Store

/-!
# Actions

`executeAction` runs an action of the document against the store.

* `executeAction_error`: an action that fails has written nothing.
* `executeAction_ok`: an action that returns has evaluated its expressions and then done one thing.
-/

namespace Mizu

open Exec

/-- `set_runtime` on the evaluator of a store. -/
def Evaluator.setRuntime (s : Evaluator) (interner : Interner) (name : String) (v : Value) : Evaluator :=
  match interner.get name with
  | some sym => s.setGlobal sym v
  | none => s

theorem VariableStore.setRuntime_evaluator (s : VariableStore) (name : String) (v : Value) :
    (s.setRuntime name v).evaluator = s.evaluator.setRuntime s.interner name v := by
  unfold setRuntime Evaluator.setRuntime
  cases s.interner.get name <;> rfl

section Execute

variable (ctx : EvalCtx)

/-- Evaluates an expression of the document in the global frame. -/
def evalTree (t : ExprTree) : EvalM Value := evaluate ctx 0 t.arena t.rootExpr

def evalPayload : Option ExprTree → EvalM (Option Value)
  | none => return none
  | some t => return some (← evalTree ctx t)

/-- A string, or a decimal as its scaled integer. -/
def pathParamText : Value → EvalM String
  | .string s => pure s
  | .decimal n => pure (toString n.toInt)
  | _ => throw (.executionError "path_param must be a string or number")

def evalPathParam : Option ExprTree → EvalM (Option String)
  | none => return none
  | some t => do
    let v ← evalTree ctx t
    let s ← pathParamText v
    if !pathParamOk s then throw (.executionError "path_param must be a single path segment")
    else return some s

def evalHeaders : List (String × ExprTree) → EvalM (List (String × Value))
  | [] => return []
  | (name, t) :: headers => do
    let v ← evalTree ctx t
    return (name, v) :: (← evalHeaders headers)

def targetSymbol (targetVar : String) : EvalM Symbol :=
  match ctx.interner.get targetVar with
  | some sym => pure sym
  | none => throw (.executionError ("Network target variable `" ++ targetVar ++
      "` was not declared in the logic block"))

/-- `execute_action`. Whether it assigned is read by nobody. -/
def executeAction (action : Action) : EvalM Bool := do
  modify fun s => { s with instructionCount := 0 }
  match action with
  | .assign target expr =>
    let s ← get
    if (ctx.interner.get target).any (· ∈ s.computedVarSyms) then
      throw (.executionError ("cannot assign to computed variable `" ++ target ++ "`"))
    else
      let result ← evalTree ctx expr
      modify (·.setRuntime ctx.interner target result)
      return true
  | .eval expr =>
    let _ ← evalTree ctx expr
    return false
  | .navigate url =>
    match ← evalTree ctx url with
    | .string s =>
      modify (·.act (.navigate s))
      return true
    | _ => throw (.executionError "Navigate URL must evaluate to a string")
  | .networkCall method aliasSym payload pathParam targetVar format headers =>
    let payload ← evalPayload ctx payload
    let pathParam ← evalPathParam ctx pathParam
    let target ← targetSymbol ctx targetVar
    let headers ← evalHeaders ctx headers
    modify (·.act (.networkCall method aliasSym.id payload pathParam target format headers))
    return true

end Execute

/-! ## What an action does -/

section Frame

variable (ctx : EvalCtx)

theorem evalTree_framed (t : ExprTree) : Framed (evalTree ctx t) :=
  evaluate_frame ctx 0 t.arena t.rootExpr

theorem evalPayload_framed (payload : Option ExprTree) : Framed (evalPayload ctx payload) := by
  cases payload with
  | none => exact .pure frame_composes _
  | some t => exact .bind frame_composes (evalTree_framed ctx t) fun _ => .pure frame_composes _

omit ctx in
theorem pathSegment_framed (v : Value) : Framed (do
    let s ← pathParamText v
    if !pathParamOk s then throw (.executionError "path_param must be a single path segment")
    else return some s : EvalM (Option String)) := by
  refine .bind frame_composes ?_ fun s => ?_
  · cases v with
    | string | decimal => exact .pure frame_composes _
    | _ => exact .throw frame_composes _
  · split
    · exact .throw frame_composes _
    · exact .pure frame_composes _

theorem evalPathParam_framed (pathParam : Option ExprTree) : Framed (evalPathParam ctx pathParam) := by
  cases pathParam with
  | none => exact .pure frame_composes _
  | some t => exact .bind frame_composes (evalTree_framed ctx t) pathSegment_framed

theorem evalHeaders_framed (headers : List (String × ExprTree)) : Framed (evalHeaders ctx headers) := by
  induction headers with
  | nil => exact .pure frame_composes _
  | cons header headers ih =>
    refine .bind frame_composes (evalTree_framed ctx header.2) fun v => ?_
    exact .bind frame_composes ih fun _ => .pure frame_composes _

theorem targetSymbol_framed (targetVar : String) : Framed (targetSymbol ctx targetVar) := by
  unfold targetSymbol
  split
  · exact .pure frame_composes _
  · exact .throw frame_composes _

/-- What an action does once its expressions are evaluated. -/
inductive Finishes (ctx : EvalCtx) (s t : Evaluator) : Action → Evaluator → Prop where
  | assign {target expr} (v : Value)
      (hcomputed : ∀ sym, ctx.interner.get target = some sym → sym ∉ s.computedVarSyms) :
      Finishes ctx s t (.assign target expr) (t.setRuntime ctx.interner target v)
  | eval {expr} : Finishes ctx s t (.eval expr) t
  | navigate {url} (text : String) : Finishes ctx s t (.navigate url) (t.act (.navigate text))
  | networkCall {method aliasSym payload pathParam targetVar format headers} (v : Option Value)
      (segment : Option String) (target : Symbol) (vs : List (String × Value))
      (htarget : ctx.interner.get targetVar = some target) :
      Finishes ctx s t (.networkCall method aliasSym payload pathParam targetVar format headers)
        (t.act (.networkCall method aliasSym.id v segment target format vs))

theorem executeAction_spec (action : Action) (s : Evaluator) :
    wp (executeAction ctx action) (fun _ s' => ∃ t, Returned s t ∧ Finishes ctx s t action s')
      (fun _ s' => Threw s s') s := by
  have hreset : Returned s { s with instructionCount := 0 } :=
    ⟨Kept.of_locals s s.locals 0, rfl⟩
  -- From the reset state on, a framed part keeps what it keeps from `s`.
  have hpart : ∀ {α : Type} {x : EvalM α} {Q : α → Evaluator → Prop} {t : Evaluator}, Framed x →
      Returned s t → (∀ a t', Returned s t' → Q a t') → wp x Q (fun _ s' => Threw s s') t := by
    intro α x Q t hx hst hQ
    exact (hx t).mono (fun a t' h => hQ a t' (frame_composes.trans hst h))
      fun _ t' h => frame_composes.after hst h
  unfold executeAction
  rw [wp_bind, wp_modify]
  cases action with
  | assign target expr =>
    dsimp only
    rw [wp_bind, wp_get]
    split
    · exact frame_composes.after hreset (frame_composes.fail _)
    · rename_i hcomputed
      rw [wp_bind]
      refine hpart (evalTree_framed ctx expr) hreset fun v t ht => ?_
      rw [wp_bind, wp_modify, wp_pure]
      refine ⟨t, ht, .assign v fun sym hsym hmem => hcomputed ?_⟩
      simp [hsym, hmem]
  | eval expr =>
    dsimp only
    rw [wp_bind]
    refine hpart (evalTree_framed ctx expr) hreset fun v t ht => ?_
    exact ⟨t, ht, .eval⟩
  | navigate url =>
    dsimp only
    rw [wp_bind]
    refine hpart (evalTree_framed ctx url) hreset fun v t ht => ?_
    split
    · rename_i text
      exact ⟨t, ht, .navigate text⟩
    · exact frame_composes.after ht (frame_composes.fail _)
  | networkCall method aliasSym payload pathParam targetVar format headers =>
    dsimp only
    rw [wp_bind]
    refine hpart (evalPayload_framed ctx payload) hreset fun v t₁ h₁ => ?_
    rw [wp_bind]
    refine hpart (evalPathParam_framed ctx pathParam) h₁ fun segment t₂ h₂ => ?_
    rw [wp_bind]
    unfold targetSymbol
    split
    · rename_i target htarget
      rw [wp_pure, wp_bind]
      refine hpart (evalHeaders_framed ctx headers) h₂ fun vs t₃ h₃ => ?_
      exact ⟨t₃, h₃, .networkCall v segment target vs htarget⟩
    · exact frame_composes.after h₂ (frame_composes.fail _)

/-- An action that fails has written no global and logged nothing. -/
theorem executeAction_error {action : Action} {s s' : Evaluator} {e : MizuError}
    (h : executeAction ctx action s = .error e s') : Threw s s' :=
  wp_of_error (E := fun _ s' => Threw s s') (executeAction_spec ctx action s) h

theorem executeAction_ok {action : Action} {s s' : Evaluator} {b : Bool}
    (h : executeAction ctx action s = .ok b s') :
    ∃ t, Returned s t ∧ Finishes ctx s t action s' :=
  wp_of_ok (Q := fun _ s' => ∃ t, Returned s t ∧ Finishes ctx s t action s')
    (executeAction_spec ctx action s) h

end Frame

end Mizu
