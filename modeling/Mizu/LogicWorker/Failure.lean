import Mizu.Logic.ActionSites
import Mizu.Logic.Trace
import Mizu.LogicWorker.InitOrder
import Mizu.LogicWorker.Responses

/-!
# Failed actions and failed expressions

* `failures_vanish_iff`: in which runs an action that fails leaves nothing behind, and no expression that
  fails queues an action.
* `submit_keeps_queue`: a form whose action fails still emits what the action queued.
-/

namespace Mizu

open Exec

def UiEvent.isSubmit : UiEvent → Prop
  | .submitForm _ _ => True
  | _ => False

namespace TabSession

variable (platform : Platform)

/-! ## Failures -/

/-- The action an event runs, and the session it runs in. -/
def pendingAction (t : TabSession) : UiEvent → Option (Action × TabSession)
  | .click nodeId => (t.clickActions.lookup nodeId).map (·, t.clearUndo)
  | .rootTimer index => t.rootTimerActions[index]?.map (·, t.clearUndo)
  | .submitForm submitterNodeId fields =>
    (t.submitActions.lookup submitterNodeId).map (·, t.setFields fields)
  | _ => none

/-- The event runs an action in `u`, which fails in `s'`. -/
def ActionFails (t : TabSession) (event : UiEvent) (action : Action) (u : TabSession) (e : MizuError)
    (s' : Evaluator) : Prop :=
  t.pendingAction event = some (action, u) ∧
    executeAction (t.ctx platform) action u.store.evaluator = .error e s'

/-- What an event amounts to without its failed action: the fields of a form are written. -/
def withoutAction (t : TabSession) (e : MizuError) :
    UiEvent → Option (Except MizuError WorkerResponse) × TabSession
  | .submitForm _ fields =>
    let (response, t) := ((t.setFields fields).recomputeAfterMutation platform).buildResponse platform true
    (some (.ok response), t)
  | _ => (some (.error e), t)

/-- A failed action leaves nothing behind: not in the answer, not in the session, and not in any later
answer. -/
structure Vanishes (t : TabSession) (event : UiEvent) (e : MizuError) : Prop where
  response : (t.applyEvent platform event).1 = (withoutAction platform t e event).1
  globalStore : (t.applyEvent platform event).2.store.evaluator.globalStore =
    (withoutAction platform t e event).2.store.evaluator.globalStore
  locals : (t.applyEvent platform event).2.store.evaluator.locals = t.store.evaluator.locals
  queue : (t.applyEvent platform event).2.store.evaluator.accumulatedActions =
    t.store.evaluator.accumulatedActions
  later : ∀ events, responses platform (t.applyEvent platform event).2 events =
    responses platform (withoutAction platform t e event).2 events

/-- The evaluations of `recompute_after_mutation`. -/
def compSites (t : TabSession) : List Site :=
  if t.computedVars.isEmpty then []
  else (recomputeSites (t.ctx platform) t.computedVars (t.store.evaluator.undoLog.map (·.1)).toFinset
    t.computedReverseIndex t.store.evaluator).map (·.2)

/-- The evaluations of the functions without parameters, in the given order. -/
def functionSites (ctx : EvalCtx) : List Symbol → Evaluator → List Site
  | [], _ => []
  | f :: order, s =>
    let here := match ctx.functions.lookup f with
      | some func => if func.params.isEmpty then [initSite s func] else []
      | none => []
    here ++ functionSites ctx order (initFunction ctx s f)

/-- The context an event's expressions are evaluated in. -/
def eventCtx (t : TabSession) : UiEvent → EvalCtx
  | .reload payload => (t.loaded payload).ctx platform
  | _ => t.ctx platform

/-- The evaluations of computed bindings and of functions without parameters in an event. -/
def eventSites (t : TabSession) : UiEvent → List Site
  | .reload payload =>
    let loaded := t.loaded payload
    let t := loaded.initFunctions platform
    functionSites (loaded.ctx platform) (platform.functionOrder.list loaded.logicFns)
        loaded.store.evaluator ++
      (recomputeSites (t.ctx platform) t.computedVars t.store.evaluator.globalStore.keys
        t.computedReverseIndex t.store.evaluator).map (·.2)
  | .submitForm submitterNodeId fields =>
    compSites platform ((t.setFields fields).runSubmit platform (t.submitActions.lookup submitterNodeId))
  | .updateVariable name v => compSites platform (t.clearUndo.setRuntime name v)
  | event =>
    match t.pendingAction event with
    | some (action, u) =>
      match executeAction (t.ctx platform) action u.store.evaluator with
      | .ok _ s => compSites platform (u.withEvaluator s)
      | .error _ _ => []
    | none => []

/-- An event in which failures leave nothing behind. -/
structure FailuresVanish (t : TabSession) (event : UiEvent) : Prop where
  action : ∀ action u e s', ActionFails platform t event action u e s' → Vanishes platform t event e
  expression : ∀ site ∈ eventSites platform t event, ∀ e s',
    site.run (eventCtx platform t event) = .error e s' →
      s'.globalStore = site.state.globalStore ∧ s'.locals = site.state.locals ∧
        s'.accumulatedActions = site.state.accumulatedActions

/-- No action that fails leaves a local behind, and that of a form queues nothing; no other expression that
fails does either. -/
structure FailsClean (t : TabSession) (event : UiEvent) : Prop where
  action : ∀ action u e s', ActionFails platform t event action u e s' →
    ∀ site, ActionEval (t.ctx platform) action u.store.evaluator site →
      ¬Leaks (t.ctx platform) site ∧ (event.isSubmit → ¬Queues (t.ctx platform) site)
  expression : ∀ site ∈ eventSites platform t event, ∀ e s',
    site.run (eventCtx platform t event) = .error e s' →
      ¬Leaks (eventCtx platform t event) site ∧ ¬Queues (eventCtx platform t event) site

/-! ## What an event leaves of the locals and the queue -/

variable {s' : Evaluator}

section Ends

variable {platform} {t : TabSession}

/-- Only globals were written. -/
structure OnlyWrites (s s' : Evaluator) : Prop where
  locals : s'.locals = s.locals
  queue : s'.accumulatedActions = s.accumulatedActions

theorem setRuntime_onlyWrites (t : TabSession) (name : String) (v : Value) :
    OnlyWrites t.store.evaluator (t.setRuntime name v).store.evaluator := by
  rw [setRuntime_eq]
  unfold mapEvaluator withEvaluator Evaluator.setRuntime
  dsimp only
  split
  · exact ⟨rfl, rfl⟩
  · exact ⟨rfl, rfl⟩

theorem OnlyWrites.trans {a b c : Evaluator} (h : OnlyWrites a b) (h' : OnlyWrites b c) : OnlyWrites a c :=
  ⟨h'.locals.trans h.locals, h'.queue.trans h.queue⟩

theorem setFields_onlyWrites (fields : List (String × Value)) :
    OnlyWrites t.store.evaluator (t.setFields fields).store.evaluator := by
  have hform := setRuntime_onlyWrites t.clearUndo "$form" (Value.recordFromUnsorted fields)
  unfold setFields
  generalize t.clearUndo.setRuntime "$form" (Value.recordFromUnsorted fields) = u at hform
  have key : ∀ (fields : List (String × Value)) (u : TabSession),
      OnlyWrites u.store.evaluator
        (fields.foldl (fun t field => t.setRuntime field.1 field.2) u).store.evaluator := by
    intro fields
    induction fields with
    | nil => exact fun _ => ⟨rfl, rfl⟩
    | cons field fields ih => exact fun u => (setRuntime_onlyWrites u field.1 field.2).trans (ih _)
  exact OnlyWrites.trans ⟨hform.locals, hform.queue⟩ (key fields u)

theorem surface_onlyWrites (acc : TabSession × List (Symbol × Value)) (errors : List (String × Value)) :
    OnlyWrites acc.1.store.evaluator (errors.foldl surface acc).1.store.evaluator := by
  induction errors generalizing acc with
  | nil => exact ⟨rfl, rfl⟩
  | cons error errors ih =>
    refine OnlyWrites.trans ?_ (ih _)
    unfold surface
    split
    · exact setRuntime_onlyWrites acc.1 error.1 error.2
    · exact ⟨rfl, rfl⟩

theorem buildResponse_queue (platform : Platform) (gesture : Bool) (t : TabSession) :
    (t.buildResponse platform gesture).2.store.evaluator.accumulatedActions = [] :=
  (surface_onlyWrites _ _).queue

theorem buildResponse_locals (platform : Platform) (gesture : Bool) (t : TabSession) :
    (t.buildResponse platform gesture).2.store.evaluator.locals = t.store.evaluator.locals :=
  (surface_onlyWrites _ _).locals

theorem buildResponse_actions (platform : Platform) (gesture : Bool) (t : TabSession) :
    (t.buildResponse platform gesture).1.runtimeActions.length =
      t.store.evaluator.accumulatedActions.length := by
  simp [buildResponse]

theorem recompute_below (platform : Platform) (t : TabSession) :
    t.store.evaluator.locals.Below (t.recomputeAfterMutation platform).store.evaluator.locals := by
  unfold recomputeAfterMutation
  split
  · exact Locals.Below.refl _
  · exact recompute_invariant (I := fun s => t.store.evaluator.locals.Below s.locals) _
      (fun _ _ hthrew hs => hs.trans hthrew.locals) (fun _ _ _ _ hs => hs) _ _ (Locals.Below.refl _)

/-- Where no failing evaluation leaves a local behind, a recomputation does not. -/
theorem recompute_locals (platform : Platform) (t : TabSession)
    (h : ∀ site ∈ compSites platform t, ∀ e s', site.run (t.ctx platform) = .error e s' →
      ¬Leaks (t.ctx platform) site) :
    (t.recomputeAfterMutation platform).store.evaluator.locals = t.store.evaluator.locals := by
  unfold recomputeAfterMutation
  unfold compSites at h
  split
  · rfl
  · rename_i hsome
    rw [if_neg hsome] at h
    refine recompute_of_sites (I := fun s => s.locals = t.store.evaluator.locals)
      (G := fun _ site => ∀ e s', site.run (t.ctx platform) = .error e s' →
        ¬Leaks (t.ctx platform) site) (fun _ _ hs => hs) ?_ ?_ ?_ rfl
    · rintro cb - site v u hs - hrun
      exact (evaluate_returned hrun).locals.trans hs
    · rintro cb - site e u hs hclean hrun
      have hrestored := (evaluate_restores_locals_iff (t.ctx platform) site.framePointer site.arena
        site.expr site.state).mpr (hclean e u hrun)
      unfold Site.run at hrun
      rw [hrun, finalState_error] at hrestored
      exact hrestored.1.trans hs
    · exact fun cb site hmem => h site (List.mem_map_of_mem hmem)

/-- The same evaluator but for its count, with `k` more actions queued. -/
structure Ahead (k : Nat) (s s' : Evaluator) : Prop extends SameStore s s' where
  queue : s'.accumulatedActions.length = s.accumulatedActions.length + k

theorem ahead_runRel (k : Nat) :
    RunRel fun s s' => Ahead k s s' ∧ s.instructionCount = s'.instructionCount where
  locals h := h.1.locals
  count h := h.2
  max h := h.1.max
  computed h := h.1.computed
  depth h := h.1.depth
  setLocals h _ := ⟨{ h.1 with globalStore := h.1.globalStore, locals := rfl }, h.2⟩
  setCount h _ := ⟨{ h.1 with globalStore := h.1.globalStore }, rfl⟩
  setDepth h _ := ⟨{ h.1 with globalStore := h.1.globalStore, depth := rfl }, h.2⟩
  act {s t} h a := by
    refine ⟨{ h.1 with globalStore := h.1.globalStore, queue := ?_ }, h.2⟩
    have hqueue := h.1.queue
    simp only [Evaluator.act, List.length_append, List.length_singleton]
    omega

theorem ahead_recompute (k : Nat) (ctx : EvalCtx) (bindings : List ComputedBinding) :
    RecomputeRel ctx bindings (Ahead k) where
  max h := h.max
  unset cb _ {s t} h := by rw [h.getGlobal]
  setCount h _ _ := { h with globalStore := h.globalStore }
  setGlobal cb _ {s t} h v := { h with globalStore := congrArg (·.insert cb.name v) h.globalStore }
  eval cb _ :=
    evaluate_sameGlobals (ahead_runRel k) (fun sym _ _ h => h.1.getGlobal sym) 0 cb.expr.arena
      cb.expr.rootExpr

/-- What was queued before a recomputation is queued after it. -/
theorem recompute_ahead {k : Nat} (hundo : s'.undoLog = t.store.evaluator.undoLog)
    (h : Ahead k t.store.evaluator s') : Ahead k (t.recomputeAfterMutation platform).store.evaluator
      ((t.withEvaluator s').recomputeAfterMutation platform).store.evaluator := by
  have hundo' : (t.withEvaluator s').store.evaluator.undoLog = t.store.evaluator.undoLog := hundo
  unfold recomputeAfterMutation
  by_cases hnone : t.computedVars.isEmpty = true
  · have hnone' : (t.withEvaluator s').computedVars.isEmpty = true := hnone
    rw [if_pos hnone, if_pos hnone']
    exact h
  · have hsome' : ¬(t.withEvaluator s').computedVars.isEmpty = true := hnone
    have hrun := recompute_related (ahead_recompute k (t.ctx platform) t.computedVars)
      (t.store.evaluator.undoLog.map (·.1)).toFinset t.computedReverseIndex h
    rw [if_neg hnone, if_neg hsome']
    unfold mapEvaluator
    dsimp only
    rw [hundo']
    exact hrun.1

end Ends

/-! ## Clicks and timers -/

variable {e : MizuError} {action : Action}

section Rollback

variable {platform} {t : TabSession}

/-- A failed action is undone but for the locals it leaves behind. -/
theorem executeActionAndBuild_error {gesture : Bool}
    (h : executeAction (t.ctx platform) action t.clearUndo.store.evaluator = .error e s') :
    t.executeActionAndBuild platform action gesture =
      (.error e, t.withEvaluator { t.store.evaluator with
        locals := s'.locals, instructionCount := s'.instructionCount, undoLog := [] }) := by
  have hkept := (executeAction_error (t.ctx platform) h).toKept
  obtain ⟨as, has, -⟩ := hkept.actions
  have hctx : t.clearUndo.ctx platform = t.ctx platform := rfl
  unfold executeActionAndBuild
  dsimp only
  rw [hctx, h]
  have hroll : rollback t.clearUndo.store.evaluator.accumulatedActions.length s' =
      { t.store.evaluator with
        locals := s'.locals, instructionCount := s'.instructionCount, undoLog := [] } := by
    unfold rollback
    rw [has, List.take_left, hkept.undoLog]
    have hstore := hkept.globalStore
    have hmax := hkept.maxInstructions
    have hdepth := hkept.evalDepth
    have hcomputed := hkept.computedVarSyms
    cases s'
    simp only at hstore hmax hdepth hcomputed
    subst hstore hmax hdepth hcomputed
    rfl
  simp only [hroll]
  rfl

/-- It vanishes exactly if it left none. -/
theorem rollback_vanishes {t' : TabSession} (ht' : t' = t.withEvaluator { t.store.evaluator with
      locals := s'.locals, instructionCount := s'.instructionCount, undoLog := [] })
    (h : executeAction (t.ctx platform) action t.clearUndo.store.evaluator = .error e s') :
    (t'.store.evaluator.locals = t.store.evaluator.locals →
        ∀ events, responses platform t' events = responses platform t events) ∧
      (t'.store.evaluator.locals = t.store.evaluator.locals ↔
        ∀ site, ActionEval (t.ctx platform) action t.clearUndo.store.evaluator site →
          ¬Leaks (t.ctx platform) site) := by
  subst ht'
  constructor
  · intro hlocals events
    refine (responses_alike platform events ?_).symm
    rw [alike_iff]
    refine ⟨s'.instructionCount, [], ?_⟩
    have hlocals' : s'.locals = t.store.evaluator.locals := hlocals
    rw [hlocals']
  · have hiff := executeAction_locals (t.ctx platform) action t.clearUndo.store.evaluator
    rw [h, finalState_error] at hiff
    exact hiff

end Rollback

/-! ## Forms -/

section Submit

variable {platform} {t : TabSession} {submitterNodeId : Nat} {fields : List (String × Value)}
  {action : Action} {e : MizuError} {s' : Evaluator}

theorem runSubmit_error
    (h : executeAction (t.ctx platform) action t.store.evaluator = .error e s') :
    t.runSubmit platform (some action) = t.withEvaluator s' := by
  unfold runSubmit
  dsimp only
  rw [h, finalState_error]

/-- After a failed action the locals are those from before it and what it left behind, and the queue
holds what it queued. -/
theorem failed_ahead (h : executeAction (t.ctx platform) action t.store.evaluator = .error e s')
    (hlocals : s'.locals = t.store.evaluator.locals) :
    ∃ as, s'.accumulatedActions = t.store.evaluator.accumulatedActions ++ as ∧
      Ahead as.length t.store.evaluator s' := by
  have hkept := (executeAction_error (t.ctx platform) h).toKept
  obtain ⟨as, has, -⟩ := hkept.actions
  exact ⟨as, has, ⟨hkept.globalStore.symm, hlocals.symm, hkept.maxInstructions.symm, hkept.evalDepth.symm,
    hkept.computedVarSyms.symm⟩, by rw [has, List.length_append]⟩

/-- A failed action that left no local and queued nothing only counted. -/
theorem failed_recounted (h : executeAction (t.ctx platform) action t.store.evaluator = .error e s')
    (hlocals : s'.locals = t.store.evaluator.locals)
    (hqueue : s'.accumulatedActions = t.store.evaluator.accumulatedActions) :
    SameButCount t (t.withEvaluator s') := by
  have hkept := (executeAction_error (t.ctx platform) h).toKept
  have hstore := hkept.globalStore
  have hundo := hkept.undoLog
  have hmax := hkept.maxInstructions
  have hdepth := hkept.evalDepth
  have hcomputed := hkept.computedVarSyms
  refine ⟨s', ⟨s'.instructionCount, ?_⟩, rfl⟩
  cases s'
  simp only at hstore hundo hmax hdepth hcomputed hlocals hqueue
  subst hstore hundo hmax hdepth hcomputed hlocals hqueue
  rfl

theorem setFields_ctx (platform : Platform) (fields : List (String × Value)) (t : TabSession) :
    (t.setFields fields).ctx platform = t.ctx platform := by
  rw [(setFields_logged t.store.evaluator fields t).rest]
  rfl

variable (haction : t.submitActions.lookup submitterNodeId = some action)
  (hfails : executeAction (t.ctx platform) action (t.setFields fields).store.evaluator = .error e s')

include haction hfails

theorem applyEvent_submit_failed :
    t.applyEvent platform (.submitForm submitterNodeId fields) =
      (some (.ok ((((t.setFields fields).withEvaluator s').recomputeAfterMutation platform).buildResponse
        platform true).1),
      ((((t.setFields fields).withEvaluator s').recomputeAfterMutation platform).buildResponse
        platform true).2) := by
  grind [applyEvent, runSubmit_error, setFields_ctx]

/-- If nothing of a form's failed action shows, it left no local behind and queued nothing. -/
theorem submit_of_vanishes (h : Vanishes platform t (.submitForm submitterNodeId fields) e) :
    s'.locals = (t.setFields fields).store.evaluator.locals ∧
      s'.accumulatedActions = (t.setFields fields).store.evaluator.accumulatedActions := by
  have hevent := applyEvent_submit_failed haction hfails
  have hwrites := setFields_onlyWrites (t := t) fields
  have hlocals : s'.locals = (t.setFields fields).store.evaluator.locals := by
    have hend := h.locals
    rw [hevent, buildResponse_locals, ← hwrites.locals] at hend
    have hbelow := recompute_below platform ((t.setFields fields).withEvaluator s')
    rw [hend] at hbelow
    exact (executeAction_error _ hfails).locals.eq_of_length hbelow.length_le
  refine ⟨hlocals, ?_⟩
  obtain ⟨as, has, hahead⟩ := failed_ahead (setFields_ctx platform fields t ▸ hfails) hlocals
  have hundo := (executeAction_error _ hfails).undoLog
  have hafter : Ahead as.length ((t.setFields fields).recomputeAfterMutation platform).store.evaluator
      (((t.setFields fields).withEvaluator s').recomputeAfterMutation platform).store.evaluator :=
    recompute_ahead hundo hahead
  have hqueue := hafter.queue
  have hresponse := h.response
  rw [hevent] at hresponse
  simp only [withoutAction, Option.some.injEq, Except.ok.injEq] at hresponse
  have hlength := congrArg (fun r => r.runtimeActions.length) hresponse
  simp only [buildResponse_actions] at hlength
  have hnone : as = [] := List.eq_nil_of_length_eq_zero (by omega)
  rw [has, hnone, List.append_nil]

/-- A form's failed action that left no local behind and queued nothing does not show. -/
theorem submit_vanishes (hqueue : t.store.evaluator.accumulatedActions = [])
    (hcomps : ∀ site ∈ eventSites platform t (.submitForm submitterNodeId fields), ∀ e s',
      site.run (t.ctx platform) = .error e s' → ¬Leaks (t.ctx platform) site)
    (hlocals : s'.locals = (t.setFields fields).store.evaluator.locals)
    (hkeeps : s'.accumulatedActions = (t.setFields fields).store.evaluator.accumulatedActions) :
    Vanishes platform t (.submitForm submitterNodeId fields) e := by
  have hevent := applyEvent_submit_failed haction hfails
  have hctx := setFields_ctx platform fields t
  have hsame := ((failed_recounted (hctx ▸ hfails) hlocals hkeeps).recompute platform).buildResponse
    platform true
  have hsites : ∀ site ∈ compSites platform ((t.setFields fields).withEvaluator s'), ∀ e u,
      site.run (((t.setFields fields).withEvaluator s').ctx platform) = .error e u →
        ¬Leaks (((t.setFields fields).withEvaluator s').ctx platform) site := by
    have hctx' : ((t.setFields fields).withEvaluator s').ctx platform = t.ctx platform := hctx
    rw [hctx']
    simpa only [eventSites, haction, runSubmit_error (hctx ▸ hfails)] using hcomps
  obtain ⟨_, ⟨n, hn⟩, hend⟩ := hsame.2
  constructor
  case response =>
    rw [hevent]
    simp only [withoutAction, hsame.1]
  case globalStore =>
    rw [hevent]
    simp only [withoutAction]
    rw [hend, hn]
    rfl
  case locals =>
    rw [hevent]
    simp only [buildResponse_locals]
    rw [recompute_locals platform _ hsites]
    exact hlocals.trans (setFields_onlyWrites fields).locals
  case queue =>
    rw [hevent, hqueue]
    exact buildResponse_queue platform true _
  case later =>
    intro events
    rw [hevent]
    exact (responses_alike platform events hsame.2.alike).symm

end Submit

/-! ## Every run -/

section Run

variable {platform} {t : TabSession}

theorem vanishes_iff_click (gesture : Bool) {event : UiEvent}
    (hfails : executeAction (t.ctx platform) action t.clearUndo.store.evaluator = .error e s')
    (hevent : t.applyEvent platform event =
      (some (t.executeActionAndBuild platform action gesture).1,
        (t.executeActionAndBuild platform action gesture).2))
    (hwithout : withoutAction platform t e event = (some (.error e), t)) : Vanishes platform t event e ↔
      ∀ site, ActionEval (t.ctx platform) action t.clearUndo.store.evaluator site →
        ¬Leaks (t.ctx platform) site := by
  obtain ⟨hlater, hiff⟩ := rollback_vanishes rfl hfails
  rw [executeActionAndBuild_error hfails] at hevent
  rw [← hiff]
  constructor
  · intro h
    have hlocals := h.locals
    rwa [hevent] at hlocals
  · intro hlocals
    constructor
    · rw [hevent, hwithout]
    · rw [hevent, hwithout]
      rfl
    · rw [hevent]
      exact hlocals
    · rw [hevent]
      rfl
    · intro events
      rw [hevent, hwithout]
      exact hlater hlocals events

/-- An expression that fails keeps the globals; it keeps the locals and the queue exactly if it is clean. -/
theorem failed_site_iff {ctx : EvalCtx} {site : Site} (hrun : site.run ctx = .error e s') :
    (s'.globalStore = site.state.globalStore ∧ s'.locals = site.state.locals ∧
        s'.accumulatedActions = site.state.accumulatedActions) ↔ ¬Leaks ctx site ∧ ¬Queues ctx site := by
  have hlocals := evaluate_restores_locals_iff ctx site.framePointer site.arena site.expr site.state
  have hqueues := @queues_iff ctx site
  have hthrew := evaluate_threw hrun
  unfold Site.run at hrun
  rw [hrun, finalState_error] at hlocals hqueues
  rw [← hlocals, ← hqueues]
  constructor
  · rintro ⟨-, hl, hq⟩
    exact ⟨⟨hl, hthrew.evalDepth, fun sym fp => by simp only [Evaluator.getLocal, hl]⟩, hq⟩
  · rintro ⟨⟨hl, -⟩, hq⟩
    exact ⟨hthrew.globalStore, hl, hq⟩

/-- A failed action vanishes exactly if it is clean, where no computed binding leaves a local behind. -/
theorem vanishes_iff (hqueue : t.store.evaluator.accumulatedActions = []) {event : UiEvent}
    (hcomps : ∀ site ∈ eventSites platform t event, ∀ e s',
      site.run (eventCtx platform t event) = .error e s' → ¬Leaks (eventCtx platform t event) site)
    {u : TabSession} (h : ActionFails platform t event action u e s') : Vanishes platform t event e ↔
      ∀ site, ActionEval (t.ctx platform) action u.store.evaluator site →
        ¬Leaks (t.ctx platform) site ∧ (event.isSubmit → ¬Queues (t.ctx platform) site) := by
  obtain ⟨hpending, hfails⟩ := h
  cases event with
  | closeTab | reload | updateVariable => cases hpending
  | click nodeId =>
    obtain ⟨action', hlookup, heq⟩ := Option.map_eq_some_iff.mp hpending
    obtain ⟨rfl, rfl⟩ := Prod.mk.inj heq
    rw [vanishes_iff_click true hfails (by simp only [applyEvent, hlookup]) rfl]
    simp [UiEvent.isSubmit]
  | rootTimer index =>
    obtain ⟨action', hlookup, heq⟩ := Option.map_eq_some_iff.mp hpending
    obtain ⟨rfl, rfl⟩ := Prod.mk.inj heq
    rw [vanishes_iff_click false hfails (by simp only [applyEvent, hlookup]) rfl]
    simp [UiEvent.isSubmit]
  | submitForm submitterNodeId fields =>
    obtain ⟨action', hlookup, heq⟩ := Option.map_eq_some_iff.mp hpending
    obtain ⟨rfl, rfl⟩ := Prod.mk.inj heq
    have hlocals := executeAction_locals (t.ctx platform) action' (t.setFields fields).store.evaluator
    rw [hfails, finalState_error] at hlocals
    have hkeeps := executeAction_queue hfails
    constructor
    · grind [submit_of_vanishes]
    · intro hclean
      exact submit_vanishes hlookup hfails hqueue hcomps
        (hlocals.mpr fun site hsite => (hclean site hsite).1)
        (hkeeps.mpr fun site hsite => (hclean site hsite).2 trivial)

/-- For one event: nothing of a failure remains exactly if what fails is clean. -/
theorem failuresVanish_iff (hqueue : t.store.evaluator.accumulatedActions = []) (event : UiEvent) :
    FailuresVanish platform t event ↔ FailsClean platform t event := by
  constructor
  · intro h
    have hexpression : ∀ site ∈ eventSites platform t event, ∀ e s',
        site.run (eventCtx platform t event) = .error e s' →
          ¬Leaks (eventCtx platform t event) site ∧ ¬Queues (eventCtx platform t event) site :=
      fun site hsite e s' hrun => (failed_site_iff hrun).mp (h.expression site hsite e s' hrun)
    refine ⟨fun action u e s' hfails => ?_, hexpression⟩
    have hcomps := fun site hsite e s' hrun => (hexpression site hsite e s' hrun).1
    exact (vanishes_iff hqueue hcomps hfails).mp (h.action action u e s' hfails)
  · intro h
    refine ⟨fun action u e s' hfails => ?_, fun site hsite e s' hrun =>
      (failed_site_iff hrun).mpr (h.expression site hsite e s' hrun)⟩
    have hcomps := fun site hsite e s' hrun => (h.expression site hsite e s' hrun).1
    exact (vanishes_iff hqueue hcomps hfails).mpr (h.action action u e s' hfails)

theorem applyEvent_queue (event : UiEvent) (h : t.store.evaluator.accumulatedActions = []) :
    (t.applyEvent platform event).2.store.evaluator.accumulatedActions = [] := by
  have haction : ∀ action gesture,
      (t.executeActionAndBuild platform action gesture).2.store.evaluator.accumulatedActions = [] := by
    intro action gesture
    cases hrun : executeAction (t.ctx platform) action t.clearUndo.store.evaluator with
    | error e s' =>
      rw [executeActionAndBuild_error hrun]
      exact h
    | ok b s =>
      have hctx : t.clearUndo.ctx platform = t.ctx platform := rfl
      unfold executeActionAndBuild
      dsimp only
      rw [hctx, hrun]
      exact buildResponse_queue platform gesture _
  cases event with
  | closeTab => exact h
  | reload | updateVariable => exact buildResponse_queue platform false _
  | submitForm submitterNodeId fields => exact buildResponse_queue platform true _
  | click nodeId => grind [applyEvent]
  | rootTimer index => grind [applyEvent]

end Run

/-- A statement about each event of a run, in the session it comes to. -/
def EachEvent (P : TabSession → UiEvent → Prop) : TabSession → List UiEvent → Prop
  | _, [] => True
  | t, event :: events => P t event ∧ EachEvent P (t.applyEvent platform event).2 events

/-- In a run of a tab nothing remains of any failure exactly if in every event what fails is clean. -/
theorem failures_vanish_iff (events : List UiEvent) :
    EachEvent platform (FailuresVanish platform) .new events ↔
      EachEvent platform (FailsClean platform) .new events := by
  have key : ∀ (events : List UiEvent) (t : TabSession), t.store.evaluator.accumulatedActions = [] →
      (EachEvent platform (FailuresVanish platform) t events ↔
        EachEvent platform (FailsClean platform) t events) := by
    intro events
    induction events with
    | nil => exact fun _ _ => Iff.rfl
    | cons event events ih =>
      intro t hqueue
      exact and_congr (failuresVanish_iff hqueue event) (ih _ (applyEvent_queue event hqueue))
  exact key events .new rfl

/-! ## A form that keeps its queue -/

/-- `store_local("k", 1) + 1`, with `store_local` the first symbol. -/
def storeThenFail : ExprTree where
  arena :=
    { nodes := [.literal (.string "k"), .literal (.int 1), .functionCall ⟨0⟩ 0 2, .binaryOp 2 .add 1]
      argsPool := [0, 1]
      nodes_valid := by simp [Expr.refsValid]
      pool_valid := by simp }
  root := 3
  root_valid := by simp

/-- A document whose submit button runs it. -/
def storingForm : ReloadPayload where
  logicFns := ∅
  clickActions := ∅
  submitActions := Finmap.singleton 0 (.eval storeThenFail)
  rootTimerActions := []
  interner := .ofNames ["store_local"]
  initialVariables := []
  urlRegistry := ∅
  documentDomain := ""
  computedBindings := []

def succeeds {ε σ α : Type} : EStateM.Result ε σ α → Bool
  | .ok _ _ => true
  | .error _ _ => false

/-- How many actions a response sends. -/
def queued : Option (Except MizuError WorkerResponse) → Nat
  | some (.ok r) => r.runtimeActions.length
  | _ => 0

theorem submit_keeps_queue :
    ¬∀ (platform : Platform) (events : List UiEvent),
      EachEvent platform (FailuresVanish platform) .new events := by
  intro h
  obtain ⟨-, hsubmit, -⟩ := h .plain [.reload storingForm, .submitForm 0 []]
  have horder : TableOrder.ascending.list storingForm.logicFns = [] := by
    simp [TableOrder.ascending, storingForm]
  have ht : (new.applyEvent .plain (.reload storingForm)).2 = new.loaded storingForm := by
    simp only [applyEvent, applyReload, initFunctions, Platform.plain]
    rw [show (new.loaded storingForm).logicFns = storingForm.logicFns from rfl, horder]
    rfl
  rw [ht] at hsubmit
  let t := new.loaded storingForm
  let u := t.setFields []
  cases hrun : executeAction (t.ctx .plain) (.eval storeThenFail) u.store.evaluator with
  | ok b s' =>
    have hthrows : ¬succeeds (executeAction (t.ctx .plain) (.eval storeThenFail) u.store.evaluator) := by decide +kernel
    rw [hrun] at hthrows
    exact absurd rfl hthrows
  | error e s' =>
    have hresponse := (hsubmit.action (.eval storeThenFail) u e s' ⟨rfl, hrun⟩).response
    have hwithout : (withoutAction .plain t e (.submitForm 0 [])).1 =
        some (.ok ((u.recomputeAfterMutation .plain).buildResponse .plain true).1) := rfl
    rw [hwithout] at hresponse
    have hcount := congrArg queued hresponse
    revert hcount
    decide +kernel

end TabSession

end Mizu
