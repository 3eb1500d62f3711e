import Mizu.LogicWorker.Frame

/-!
# What a session answers

* `responses_alike`: the instruction count and the undo log that an event leaves behind do not show in any
  later response.
-/

namespace Mizu

open Exec

/-! ## Evaluators that have counted differently -/

section Count

variable (ctx : EvalCtx)

/-- The same evaluator but for its count. -/
def Recounted (s s' : Evaluator) : Prop := ∃ n, s' = { s with instructionCount := n }

theorem Recounted.refl (s : Evaluator) : Recounted s s := ⟨s.instructionCount, rfl⟩

theorem recounted_recompute (bindings : List ComputedBinding) : RecomputeRel ctx bindings Recounted where
  max := fun ⟨_, h⟩ => h ▸ rfl
  unset := fun _ _ _ _ ⟨_, h⟩ => h ▸ rfl
  setCount := fun ⟨_, h⟩ _ m => ⟨m, h ▸ rfl⟩
  setGlobal := fun _ _ _ _ ⟨n, h⟩ _ => ⟨n, h ▸ rfl⟩
  eval := by
    rintro cb - s t ⟨⟨n, rfl⟩, hcount⟩
    have hsame : ({ s with instructionCount := n } : Evaluator) = s := by
      simp only at hcount
      rw [← hcount]
    rw [hsame]
    cases evaluate ctx 0 cb.expr.arena cb.expr.rootExpr s with
    | ok v u => exact ⟨rfl, .refl u, rfl⟩
    | error e u => exact ⟨rfl, .refl u, rfl⟩

theorem executeAction_recounted (action : Action) {s s' : Evaluator} (h : Recounted s s') :
    executeAction ctx action s' = executeAction ctx action s := by
  obtain ⟨n, rfl⟩ := h
  rfl

theorem Recounted.setRuntime {s s' : Evaluator} (h : Recounted s s') (interner : Interner) (name : String)
    (v : Value) : Recounted (s.setRuntime interner name v) (s'.setRuntime interner name v) := by
  obtain ⟨n, rfl⟩ := h
  unfold Evaluator.setRuntime
  split
  · exact ⟨n, rfl⟩
  · exact ⟨n, rfl⟩

end Count

/-! ## Sessions -/

namespace TabSession

/-- The same session but for the instruction count. -/
def SameButCount (t t' : TabSession) : Prop :=
  ∃ s', Recounted t.store.evaluator s' ∧ t' = t.withEvaluator s'

/-- The same session but for the instruction count and the undo log. -/
def Alike (t t' : TabSession) : Prop := SameButCount t.clearUndo t'.clearUndo

section Same

variable {t t' : TabSession}

theorem SameButCount.refl (t : TabSession) : SameButCount t t := ⟨_, .refl _, rfl⟩

theorem SameButCount.alike (h : SameButCount t t') : Alike t t' := by
  obtain ⟨_, ⟨n, rfl⟩, rfl⟩ := h
  exact ⟨_, ⟨n, rfl⟩, rfl⟩

theorem Alike.refl (t : TabSession) : Alike t t := (SameButCount.refl t).alike

theorem SameButCount.setRuntime (h : SameButCount t t') (name : String) (v : Value) :
    SameButCount (t.setRuntime name v) (t'.setRuntime name v) := by
  obtain ⟨s', hs, rfl⟩ := h
  rw [setRuntime_eq, setRuntime_eq]
  exact ⟨_, hs.setRuntime t.store.interner name v, rfl⟩

variable (platform : Platform)

theorem SameButCount.recompute (h : SameButCount t t') :
    SameButCount (t.recomputeAfterMutation platform) (t'.recomputeAfterMutation platform) := by
  obtain ⟨_, ⟨n, rfl⟩, rfl⟩ := h
  unfold recomputeAfterMutation
  by_cases hnone : t.computedVars.isEmpty = true
  · have hnone' : (t.withEvaluator { t.store.evaluator with instructionCount := n }).computedVars.isEmpty =
        true := hnone
    rw [if_pos hnone, if_pos hnone']
    exact ⟨_, ⟨n, rfl⟩, rfl⟩
  · have hsome' : ¬(t.withEvaluator { t.store.evaluator with instructionCount := n }).computedVars.isEmpty =
        true := hnone
    rw [if_neg hnone, if_neg hsome']
    have hrun := recompute_related (recounted_recompute (t.ctx platform) t.computedVars)
      (t.store.evaluator.undoLog.map (·.1)).toFinset t.computedReverseIndex
      (s := t.store.evaluator) ⟨n, rfl⟩
    exact ⟨_, hrun.1, rfl⟩

theorem SameButCount.surface (h : SameButCount t t') (mutated : List (Symbol × Value))
    (error : String × Value) :
    SameButCount (TabSession.surface (t, mutated) error).1 (TabSession.surface (t', mutated) error).1 ∧
      (TabSession.surface (t, mutated) error).2 = (TabSession.surface (t', mutated) error).2 := by
  have hset := h.setRuntime error.1 error.2
  obtain ⟨s', hs, rfl⟩ := h
  unfold TabSession.surface
  dsimp only
  have hinterner : (t.withEvaluator s').store.interner = t.store.interner := rfl
  rw [hinterner]
  split
  · exact ⟨hset, rfl⟩
  · exact ⟨⟨s', hs, rfl⟩, rfl⟩

theorem SameButCount.surfaceAll (h : SameButCount t t') (mutated : List (Symbol × Value))
    (errors : List (String × Value)) :
    SameButCount (errors.foldl TabSession.surface (t, mutated)).1
        (errors.foldl TabSession.surface (t', mutated)).1 ∧
      (errors.foldl TabSession.surface (t, mutated)).2 =
        (errors.foldl TabSession.surface (t', mutated)).2 := by
  induction errors generalizing t t' mutated with
  | nil => exact ⟨h, rfl⟩
  | cons error errors ih =>
    obtain ⟨hsame, hreported⟩ := h.surface mutated error
    rw [List.foldl_cons, List.foldl_cons]
    have hnext := ih hsame (TabSession.surface (t, mutated) error).2
    rw [Prod.mk.eta] at hnext
    have hright : ((TabSession.surface (t', mutated) error).1, (TabSession.surface (t, mutated) error).2) =
        TabSession.surface (t', mutated) error := by rw [hreported]
    rwa [hright] at hnext

theorem SameButCount.buildResponse (gesture : Bool) (h : SameButCount t t') :
    (t.buildResponse platform gesture).1 = (t'.buildResponse platform gesture).1 ∧
      SameButCount (t.buildResponse platform gesture).2 (t'.buildResponse platform gesture).2 := by
  obtain ⟨_, ⟨n, rfl⟩, rfl⟩ := h
  have hresolve : resolveOneAction (t.withEvaluator { t.store.evaluator with instructionCount := n }) =
      resolveOneAction t := rfl
  have hmutated : mutatedVariables platform { t.store.evaluator with instructionCount := n } =
      mutatedVariables platform t.store.evaluator := rfl
  have hdrained : SameButCount
      (t.mapEvaluator fun s => { s with undoLog := [], accumulatedActions := [] })
      ((t.withEvaluator { t.store.evaluator with instructionCount := n }).mapEvaluator fun s =>
        { s with undoLog := [], accumulatedActions := [] }) := ⟨_, ⟨n, rfl⟩, rfl⟩
  obtain ⟨hsame, hreported⟩ := hdrained.surfaceAll (mutatedVariables platform t.store.evaluator)
    ((t.store.evaluator.accumulatedActions.map (resolveOneAction t)).flatMap (·.2))
  unfold TabSession.buildResponse
  refine ⟨?_, hsame⟩
  exact congrArg (fun mutated => WorkerResponse.mk ⟨mutated⟩ _ _) hreported

/-! ## Events -/

theorem alike_iff : Alike t t' ↔
    ∃ n log, t' = t.withEvaluator { t.store.evaluator with instructionCount := n, undoLog := log } := by
  constructor
  · rintro ⟨_, ⟨n, rfl⟩, h⟩
    refine ⟨n, t'.store.evaluator.undoLog, ?_⟩
    have hrestore : t' = t'.clearUndo.withEvaluator
        { t'.clearUndo.store.evaluator with undoLog := t'.store.evaluator.undoLog } := rfl
    rw [hrestore, h]
    rfl
  · rintro ⟨n, log, rfl⟩
    exact ⟨_, ⟨n, rfl⟩, rfl⟩

/-- What a session that differs in count and log only goes on to do is the same. -/
theorem executeActionAndBuild_alike (action : Action) (gesture : Bool) (h : Alike t t') :
    t.executeActionAndBuild platform action gesture = t'.executeActionAndBuild platform action gesture := by
  obtain ⟨s', hs, hclear⟩ := h
  have hrun := executeAction_recounted (t.clearUndo.ctx platform) action hs
  unfold executeActionAndBuild
  dsimp only
  rw [hclear]
  have hctx : (t.clearUndo.withEvaluator s').ctx platform = t.clearUndo.ctx platform := rfl
  have heval : (t.clearUndo.withEvaluator s').store.evaluator = s' := rfl
  rw [hctx, heval, hrun]
  obtain ⟨n, rfl⟩ := hs
  rfl

theorem setFields_alike (fields : List (String × Value)) (h : Alike t t') :
    SameButCount (t.setFields fields) (t'.setFields fields) := by
  unfold setFields
  have hform : SameButCount (t.clearUndo.setRuntime "$form" (Value.recordFromUnsorted fields))
      (t'.clearUndo.setRuntime "$form" (Value.recordFromUnsorted fields)) :=
    SameButCount.setRuntime h _ _
  generalize t.clearUndo.setRuntime "$form" (Value.recordFromUnsorted fields) = u at hform
  generalize t'.clearUndo.setRuntime "$form" (Value.recordFromUnsorted fields) = u' at hform
  induction fields generalizing u u' with
  | nil => exact hform
  | cons field fields ih => exact ih _ _ (hform.setRuntime field.1 field.2)

theorem runSubmit_alike (action : Option Action) (h : SameButCount t t') :
    SameButCount (t.runSubmit platform action) (t'.runSubmit platform action) := by
  cases action with
  | none => exact h
  | some action =>
    obtain ⟨s', hs, rfl⟩ := h
    unfold runSubmit
    dsimp only
    have hctx : (t.withEvaluator s').ctx platform = t.ctx platform := rfl
    have heval : (t.withEvaluator s').store.evaluator = s' := rfl
    rw [hctx, heval, executeAction_recounted (t.ctx platform) action hs]
    exact ⟨_, .refl _, rfl⟩

theorem applyEvent_alike (event : UiEvent) (h : Alike t t') :
    (t.applyEvent platform event).1 = (t'.applyEvent platform event).1 ∧
      Alike (t.applyEvent platform event).2 (t'.applyEvent platform event).2 := by
  have hfields := (alike_iff.mp h)
  obtain ⟨n, log, hfields⟩ := hfields
  cases event with
  | closeTab => exact ⟨rfl, h⟩
  | reload payload =>
    have hloaded : t'.loaded payload = t.loaded payload := by rw [hfields]; rfl
    simp only [applyEvent, applyReload, hloaded]
    exact ⟨trivial, .refl _⟩
  | click nodeId =>
    have hactions : t'.clickActions = t.clickActions := by rw [hfields]; rfl
    simp only [applyEvent, hactions]
    cases t.clickActions.lookup nodeId with
    | none => exact ⟨rfl, h⟩
    | some action =>
      dsimp only
      rw [executeActionAndBuild_alike platform action true h]
      exact ⟨rfl, .refl _⟩
  | rootTimer index =>
    have hactions : t'.rootTimerActions = t.rootTimerActions := by rw [hfields]; rfl
    simp only [applyEvent, hactions]
    cases t.rootTimerActions[index]? with
    | none => exact ⟨rfl, h⟩
    | some action =>
      dsimp only
      rw [executeActionAndBuild_alike platform action false h]
      exact ⟨rfl, .refl _⟩
  | submitForm submitterNodeId fields =>
    have hactions : t'.submitActions = t.submitActions := by rw [hfields]; rfl
    have hrun := runSubmit_alike platform (t.submitActions.lookup submitterNodeId)
      (setFields_alike fields h)
    obtain ⟨hresponse, hsame⟩ := (hrun.recompute platform).buildResponse platform true
    simp only [applyEvent, hactions, hresponse, true_and]
    exact hsame.alike
  | updateVariable name v =>
    have hset : SameButCount (t.clearUndo.setRuntime name v) (t'.clearUndo.setRuntime name v) :=
      SameButCount.setRuntime h name v
    obtain ⟨hresponse, hsame⟩ := (hset.recompute platform).buildResponse platform false
    simp only [applyEvent, hresponse, true_and]
    exact hsame.alike

/-- The answers to events, one after another. -/
def responses (platform : Platform) : TabSession → List UiEvent →
    List (Option (Except MizuError WorkerResponse))
  | _, [] => []
  | t, event :: events =>
    (t.applyEvent platform event).1 :: responses platform (t.applyEvent platform event).2 events

theorem responses_alike (events : List UiEvent) (h : Alike t t') :
    responses platform t events = responses platform t' events := by
  induction events generalizing t t' with
  | nil => rfl
  | cons event events ih => grind [responses, applyEvent_alike]

end Same

end TabSession

end Mizu
