import Mizu.Ipc.Dehydrate
import Mizu.LogicWorker.Failure
import Mizu.Render.Broker

/-!
# The two ways to resolve an alias

A session resolves the aliases of its actions itself, or hands them out as they are; then the answer
crosses the wire and the broker resolves them.

* `paths_agree`: what both ways come to in every event of every run.
* `timer_navigation_differs`: the broker refuses a navigation that the session hands on.
-/

namespace Mizu

open Exec List

/-! ## One action -/

def RuntimeAction.isNone : RuntimeAction → Bool
  | none => true
  | _ => false

def RuntimeAction.isNavigate : RuntimeAction → Bool
  | navigate _ => true
  | _ => false

def RuntimeAction.isNetworkCall : RuntimeAction → Bool
  | networkCall _ _ _ _ _ _ _ => true
  | _ => false

/-- The actions that are executed: `RuntimeAction::None` does nothing. -/
def executed (actions : List RuntimeAction) : List RuntimeAction := actions.filter (!·.isNone)

/-- What an event without a user gesture may not do in a sandbox. -/
def RuntimeAction.gated (agency : EventAgency) (a : RuntimeAction) : Bool :=
  a.isNavigate && !agency.isUserGesture

/-- The session's own resolution of an action beside the broker's verdict. -/
def Judged (agency : EventAgency) (resolved : RuntimeAction) : Except MizuError RuntimeAction → Prop
  | .ok granted => resolved = granted
  | .error _ => resolved = .none ∨ resolved.gated agency = true

namespace TabSession

/-- The session with aliases left to the broker, or not. -/
def deferring (t : TabSession) (defer : Bool) : TabSession := { t with deferAliasResolution := defer }

variable {t : TabSession} {a : RuntimeAction}

/-- Both ways judge an action alike, but for a navigation without a gesture. -/
theorem resolveOneAction_judged (h : a.Raw) (agency : EventAgency) :
    Judged agency (resolveOneAction (t.deferring false) a).1
      (authorizeAction a t.documentDomain t.urlRegistry agency) := by
  have hresolve : (t.deferring false).deferAliasResolution = false := rfl
  have hregistry : (t.deferring false).urlRegistry = t.urlRegistry := rfl
  have hdomain : (t.deferring false).documentDomain = t.documentDomain := rfl
  simp only [resolveOneAction, hresolve, hregistry, hdomain, Bool.false_eq_true, if_false]
  cases a with
  | resolvedCall => exact h.elim
  | downloadMedia => exact h.elim
  | navigate url =>
    cases hgesture : agency.isUserGesture with
    | true =>
      simp only [authorizeAction, hgesture, if_true]
      rfl
    | false =>
      simp only [authorizeAction, hgesture, Bool.false_eq_true, if_false]
      exact .inr (by simp [RuntimeAction.gated, RuntimeAction.isNavigate, hgesture])
  | networkCall method sym payload pathParam target format headers =>
    simp only [authorizeAction, lookupEndpoint]
    cases t.urlRegistry.lookup ⟨sym⟩ with
    | none => exact .inl rfl
    | some ep =>
      change Judged agency _ (Except.bind (resolveEndpointUrl t.documentDomain ep pathParam) _)
      dsimp only
      cases resolveEndpointUrl t.documentDomain ep pathParam with
      | error e => exact .inl rfl
      | ok url => exact rfl
  | downloadAlias sym =>
    simp only [authorizeAction, lookupEndpoint]
    cases t.urlRegistry.lookup ⟨sym⟩ with
    | none => exact .inl rfl
    | some ep => exact rfl
  | _ => exact rfl

/-- An action whose alias both resolve leaves no message. -/
theorem resolveOneAction_silent (agency : EventAgency) (h : a.isNetworkCall = true →
      ∃ granted, authorizeAction a t.documentDomain t.urlRegistry agency = .ok granted) :
    (resolveOneAction (t.deferring false) a).2 = [] := by
  have hresolve : (t.deferring false).deferAliasResolution = false := rfl
  have hregistry : (t.deferring false).urlRegistry = t.urlRegistry := rfl
  have hdomain : (t.deferring false).documentDomain = t.documentDomain := rfl
  simp only [resolveOneAction, hresolve, hregistry, hdomain, Bool.false_eq_true, if_false]
  cases a with
  | networkCall method sym payload pathParam target format headers =>
    obtain ⟨granted, h⟩ := h rfl
    simp only [authorizeAction, lookupEndpoint] at h
    cases hlookup : t.urlRegistry.lookup ⟨sym⟩ with
    | none =>
      rw [hlookup] at h
      cases h
    | some ep =>
      rw [hlookup] at h
      change Except.bind (resolveEndpointUrl t.documentDomain ep pathParam) _ = _ at h
      cases hurl : resolveEndpointUrl t.documentDomain ep pathParam with
      | error e =>
        rw [hurl] at h
        cases h
      | ok url => simp only [hlookup, hurl]
  | downloadAlias sym =>
    dsimp only
    cases t.urlRegistry.lookup ⟨sym⟩ <;> rfl
  | _ => rfl

/-! ## One answer -/

/-- The answer of a session that resolves its aliases beside the one that the broker resolves. -/
structure SameAnswer (agency : EventAgency) (r : WorkerResponse) (t : TabSession) (deferred : WorkerResponse)
    (worker : TabSession) : Prop where
  gesture : r.gesture = agency.isUserGesture ∧ deferred.gesture = agency.isUserGesture
  /-- Action by action, what one refuses the other refuses, but for a navigation without a gesture. -/
  judged : List.Forall₂ (fun resolved a =>
    Judged agency resolved (authorizeAction a worker.documentDomain worker.urlRegistry agency))
    r.runtimeActions deferred.runtimeActions
  /-- What is executed is the same, but for a navigation without a gesture. -/
  executed : executed (authorizeAll deferred.runtimeActions agency worker.urlRegistry worker.documentDomain) =
    executed (r.runtimeActions.filter (!·.gated agency))
  /-- An answer of values that the wire carries reaches the broker as it was. -/
  arrives : (∀ v ∈ deferred.values, v.Carried) → Rehydrate.workerResponse deferred.toWire = .ok deferred
  /-- An answer with a value nested too deep does not reach it. -/
  refused : (∃ v ∈ deferred.values, Rehydrate.TooDeep v) →
    ∃ e, Rehydrate.workerResponse deferred.toWire = .error e
  /-- The stores are the same if no network call is refused. -/
  stored : (∀ a ∈ deferred.runtimeActions, a.isNetworkCall = true →
      ∃ granted, authorizeAction a worker.documentDomain worker.urlRegistry agency = .ok granted) →
    r.stateUpdate = deferred.stateUpdate ∧ t = worker.deferring false

/-- The broker lets no navigation without a gesture through. -/
theorem authorizeAction_not_gated {a granted : RuntimeAction} {domain : String} {registry : UrlRegistry}
    {agency : EventAgency} (h : authorizeAction a domain registry agency = .ok granted) :
    granted.gated agency = false := by
  cases a with
  | navigate url =>
    cases hgesture : agency.isUserGesture with
    | true => simp [RuntimeAction.gated, hgesture]
    | false =>
      simp only [authorizeAction, hgesture, Bool.false_eq_true, if_false] at h
      cases h
  | networkCall =>
    obtain ⟨ep, -, h⟩ := except_of_bind_ok h
    obtain ⟨url, -, h⟩ := except_of_bind_ok h
    cases h
    rfl
  | downloadAlias sym =>
    obtain ⟨ep, -, h⟩ := except_of_bind_ok h
    cases h
    rfl
  | resolvedCall => cases h
  | downloadMedia => cases h
  | _ =>
    cases h
    rfl

/-- What is left of judged actions is the same on both ways. -/
theorem executed_of_judged {agency : EventAgency} {registry : UrlRegistry} {domain : String}
    {resolved actions : List RuntimeAction}
    (h : List.Forall₂ (fun r a => Judged agency r (authorizeAction a domain registry agency)) resolved actions) :
    executed (authorizeAll actions agency registry domain) =
      executed (resolved.filter (!·.gated agency)) := by
  induction h with
  | nil => rfl
  | @cons r a rs as hjudged htail ih =>
    unfold executed authorizeAll at ih ⊢
    rw [filterMap_cons]
    cases hverdict : authorizeAction a domain registry agency with
    | ok granted =>
      rw [hverdict] at hjudged
      obtain rfl : r = granted := hjudged
      simp only [filter_cons, authorizeAction_not_gated hverdict, Bool.not_false, if_true, ih]
    | error e =>
      rw [hverdict] at hjudged
      rcases hjudged with rfl | hgated
      · have hgated : (RuntimeAction.none).gated agency = false := rfl
        have hnone : RuntimeAction.none.isNone = true := rfl
        simp only [filter_cons, hgated, hnone, Bool.not_false, if_true, Bool.not_true,
          Bool.false_eq_true, if_false, ih]
      · simp only [filter_cons, hgated, Bool.not_true, Bool.false_eq_true, if_false, ih]

theorem resolveOneAction_deferred (t : TabSession) (a : RuntimeAction) :
    resolveOneAction (t.deferring true) a = (a, []) := rfl

variable (platform : Platform)

/-- A session that leaves its aliases hands its queue out. -/
theorem buildResponse_deferred (gesture : Bool) :
    (t.deferring true).buildResponse platform gesture =
      ({ stateUpdate := ⟨mutatedVariables platform t.store.evaluator⟩
         runtimeActions := t.store.evaluator.accumulatedActions, gesture },
        (t.mapEvaluator fun s => { s with undoLog := [], accumulatedActions := [] }).deferring true) := by
  have hqueue : t.store.evaluator.accumulatedActions.map (resolveOneAction (t.deferring true)) =
      t.store.evaluator.accumulatedActions.map fun a => (a, []) := rfl
  have hactions : (t.store.evaluator.accumulatedActions.map
      fun a => ((a, []) : RuntimeAction × List (String × Value))).map (·.1) =
      t.store.evaluator.accumulatedActions := by
    rw [map_map]
    exact map_id _
  have herrors : (t.store.evaluator.accumulatedActions.map
      fun a => ((a, []) : RuntimeAction × List (String × Value))).flatMap (·.2) = [] := by simp
  have hstore : (t.deferring true).store = t.store := rfl
  unfold buildResponse
  dsimp only
  rw [hstore, hqueue, hactions, herrors]
  rfl

/-- A session that resolves its aliases and finds them all reports what it would have reported. -/
theorem buildResponse_resolved (gesture : Bool)
    (h : ∀ a ∈ t.store.evaluator.accumulatedActions, (resolveOneAction (t.deferring false) a).2 = []) :
    (t.deferring false).buildResponse platform gesture =
      ({ stateUpdate := ⟨mutatedVariables platform t.store.evaluator⟩
         runtimeActions := t.store.evaluator.accumulatedActions.map
            fun a => (resolveOneAction (t.deferring false) a).1
         gesture },
        (t.mapEvaluator fun s => { s with undoLog := [], accumulatedActions := [] }).deferring false) := by
  have herrors : (t.store.evaluator.accumulatedActions.map (resolveOneAction (t.deferring false))).flatMap
      (·.2) = [] := by
    rw [flatMap_eq_nil_iff]
    intro r hr
    obtain ⟨a, ha, rfl⟩ := mem_map.mp hr
    exact h a ha
  have hstore : (t.deferring false).store = t.store := rfl
  unfold buildResponse
  dsimp only
  rw [hstore, herrors, map_map]
  rfl

/-- Both ways of answering agree on a queue of actions that are not resolved yet. -/
theorem buildResponse_sameAnswer (agency : EventAgency)
    (hraw : ∀ a ∈ t.store.evaluator.accumulatedActions, a.Raw) :
    SameAnswer agency
      ((t.deferring false).buildResponse platform agency.isUserGesture).1
      ((t.deferring false).buildResponse platform agency.isUserGesture).2
      ((t.deferring true).buildResponse platform agency.isUserGesture).1
      ((t.deferring true).buildResponse platform agency.isUserGesture).2 := by
  have hresolved : ((t.deferring false).buildResponse platform agency.isUserGesture).1.runtimeActions =
      t.store.evaluator.accumulatedActions.map fun a => (resolveOneAction (t.deferring false) a).1 := by
    unfold buildResponse
    dsimp only
    rw [map_map]
    rfl
  rw [buildResponse_deferred]
  have hjudged : List.Forall₂ (fun resolved a =>
      Judged agency resolved (authorizeAction a t.documentDomain t.urlRegistry agency))
      (t.store.evaluator.accumulatedActions.map fun a => (resolveOneAction (t.deferring false) a).1)
      t.store.evaluator.accumulatedActions := by
    rw [forall₂_map_left_iff, forall₂_same]
    exact fun a ha => resolveOneAction_judged (hraw a ha) agency
  exact
    { gesture := ⟨rfl, rfl⟩
      judged := hresolved ▸ hjudged
      executed := hresolved ▸ executed_of_judged hjudged
      arrives := Rehydrate.workerResponse_toWire
      refused := Rehydrate.workerResponse_tooDeep
      stored := fun hgranted => by
        have hsilent : ∀ a ∈ t.store.evaluator.accumulatedActions,
            (resolveOneAction (t.deferring false) a).2 = [] :=
          fun a ha => resolveOneAction_silent agency (hgranted a ha)
        rw [buildResponse_resolved platform _ hsilent]
        exact ⟨rfl, rfl⟩ }

/-! ## One event -/

/-- What an event comes to in a session that resolves its aliases, and in one that does not. -/
inductive SameOutcome (agency : EventAgency) :
    Option (Except MizuError WorkerResponse) × TabSession →
      Option (Except MizuError WorkerResponse) × TabSession → Prop where
  | silent (t : TabSession) : SameOutcome agency (none, t.deferring false) (none, t.deferring true)
  | failed (e : MizuError) (t : TabSession) :
    SameOutcome agency (some (.error e), t.deferring false) (some (.error e), t.deferring true)
  | answered {r deferred : WorkerResponse} {t worker : TabSession} (h : SameAnswer agency r t deferred worker) :
    SameOutcome agency (some (.ok r), t) (some (.ok deferred), worker)

/-- The event comes to the same on both ways. -/
def PathsAgree (t : TabSession) (event : UiEvent) : Prop :=
  SameOutcome (.of event) ((t.deferring false).applyEvent platform event)
    ((t.deferring true).applyEvent platform event)

/-- Every action of the queue is still to be resolved. -/
def RawQueue (s : Evaluator) : Prop := ∀ a ∈ s.accumulatedActions, a.Raw

theorem RawQueue.act {s : Evaluator} (h : RawQueue s) (ha : a.Raw) : RawQueue (s.act a) := by
  intro b hb
  rcases mem_append.mp hb with hb | hb
  · exact h b hb
  · exact mem_singleton.mp hb ▸ ha

theorem RawQueue.invariant : StoreInvariant RawQueue where
  kept {s s'} hkept h := by
    obtain ⟨as, has, hfrom⟩ := hkept.actions
    intro a ha
    rw [has] at ha
    rcases mem_append.mp ha with ha | ha
    · exact h a ha
    · exact RuntimeAction.raw_of_fromExpr (hfrom a ha)
  setGlobal _ _ h := h

theorem RawQueue.of_nil {s : Evaluator} (h : s.accumulatedActions = []) : RawQueue s := by
  intro a ha
  rw [h] at ha
  cases ha

theorem RawQueue.recompute (h : RawQueue t.store.evaluator) :
    RawQueue (t.recomputeAfterMutation platform).store.evaluator := by
  unfold recomputeAfterMutation
  split
  · exact h
  · exact RawQueue.invariant.recompute _ _ _ _ h

theorem RawQueue.executeAction (ctx : EvalCtx) (action : Action) {s : Evaluator} (h : RawQueue s) :
    RawQueue (finalState (executeAction ctx action s)) :=
  RawQueue.invariant.executeAction ctx action h fun _ _ _ ha ht => ht.act ha

theorem RawQueue.runSubmit (action : Option Action) (h : RawQueue t.store.evaluator) :
    RawQueue (t.runSubmit platform action).store.evaluator := by
  cases action with
  | none => exact h
  | some action => exact RawQueue.executeAction (t.ctx platform) action h

theorem deferring_recompute (t : TabSession) (defer : Bool) :
    (t.deferring defer).recomputeAfterMutation platform =
      (t.recomputeAfterMutation platform).deferring defer := by
  have hcomps : (t.deferring defer).computedVars = t.computedVars := rfl
  unfold recomputeAfterMutation
  rw [hcomps]
  split
  · rfl
  · rfl

theorem deferring_setRuntime (t : TabSession) (defer : Bool) (name : String) (v : Value) :
    (t.deferring defer).setRuntime name v = (t.setRuntime name v).deferring defer := rfl

theorem deferring_setFields (t : TabSession) (defer : Bool) (fields : List (String × Value)) :
    (t.deferring defer).setFields fields = (t.setFields fields).deferring defer := by
  unfold setFields
  have hform : (t.deferring defer).clearUndo.setRuntime "$form" (Value.recordFromUnsorted fields) =
      (t.clearUndo.setRuntime "$form" (Value.recordFromUnsorted fields)).deferring defer := rfl
  rw [hform]
  clear hform
  generalize t.clearUndo.setRuntime "$form" (Value.recordFromUnsorted fields) = u
  induction fields generalizing u with
  | nil => rfl
  | cons field fields ih => exact ih (u.setRuntime field.1 field.2)

theorem deferring_runSubmit (t : TabSession) (defer : Bool) (action : Option Action) :
    (t.deferring defer).runSubmit platform action = (t.runSubmit platform action).deferring defer := by
  cases action <;> rfl

/-- An answer from a queue of actions that are not resolved yet. -/
theorem answered_of_raw (event : UiEvent) (h : RawQueue t.store.evaluator) :
    SameOutcome (.of event)
      (some (.ok ((t.deferring false).buildResponse platform (EventAgency.of event).isUserGesture).1),
        ((t.deferring false).buildResponse platform (EventAgency.of event).isUserGesture).2)
      (some (.ok ((t.deferring true).buildResponse platform (EventAgency.of event).isUserGesture).1),
        ((t.deferring true).buildResponse platform (EventAgency.of event).isUserGesture).2) :=
  .answered (buildResponse_sameAnswer platform (.of event) h)

theorem action_agrees (event : UiEvent) (hqueue : t.store.evaluator.accumulatedActions = [])
    (action : Action) :
    SameOutcome (.of event)
      ((some ((t.deferring false).executeActionAndBuild platform action
          (EventAgency.of event).isUserGesture).1),
        ((t.deferring false).executeActionAndBuild platform action (EventAgency.of event).isUserGesture).2)
      ((some ((t.deferring true).executeActionAndBuild platform action
          (EventAgency.of event).isUserGesture).1),
        ((t.deferring true).executeActionAndBuild platform action (EventAgency.of event).isUserGesture).2) := by
  have hctx : ∀ defer, (t.deferring defer).clearUndo.ctx platform = t.ctx platform := fun _ => rfl
  have hstore : ∀ defer, (t.deferring defer).clearUndo.store = t.clearUndo.store := fun _ => rfl
  have hraw := RawQueue.executeAction (t.ctx platform) action
    (RawQueue.of_nil (s := t.clearUndo.store.evaluator) hqueue)
  unfold executeActionAndBuild
  simp only [hctx, hstore]
  cases hrun : executeAction (t.ctx platform) action t.clearUndo.store.evaluator with
  | error e s => exact .failed e (t.clearUndo.withEvaluator _)
  | ok b s =>
    rw [hrun] at hraw
    have hdefer : ∀ defer, ((t.deferring defer).clearUndo.withEvaluator s).recomputeAfterMutation platform =
        ((t.clearUndo.withEvaluator s).recomputeAfterMutation platform).deferring defer :=
      fun defer => deferring_recompute platform (t.clearUndo.withEvaluator s) defer
    simp only [hdefer]
    exact answered_of_raw platform event (RawQueue.recompute (t := t.clearUndo.withEvaluator s) platform hraw)

/-- One event, from any session whose queue is empty. -/
theorem pathsAgree_of_queue (event : UiEvent) (hqueue : t.store.evaluator.accumulatedActions = []) :
    PathsAgree platform t event := by
  unfold PathsAgree
  cases event with
  | closeTab => exact .silent t
  | click nodeId =>
    have hactions : ∀ defer, (t.deferring defer).clickActions = t.clickActions := fun _ => rfl
    simp only [applyEvent, hactions]
    cases t.clickActions.lookup nodeId with
    | none => exact .silent t
    | some action => exact action_agrees platform (.click nodeId) hqueue action
  | rootTimer index =>
    have hactions : ∀ defer, (t.deferring defer).rootTimerActions = t.rootTimerActions := fun _ => rfl
    simp only [applyEvent, hactions]
    cases t.rootTimerActions[index]? with
    | none => exact .silent t
    | some action => exact action_agrees platform (.rootTimer index) hqueue action
  | submitForm submitterNodeId fields =>
    have hactions : ∀ defer, (t.deferring defer).submitActions = t.submitActions := fun _ => rfl
    have hfields : RawQueue (t.setFields fields).store.evaluator :=
      .of_nil ((setFields_onlyWrites fields).queue.trans hqueue)
    have hsubmit := RawQueue.runSubmit platform (t.submitActions.lookup submitterNodeId) hfields
    simp only [applyEvent, hactions, deferring_setFields, deferring_runSubmit, deferring_recompute]
    exact answered_of_raw platform (.submitForm submitterNodeId fields)
      (RawQueue.recompute platform hsubmit)
  | updateVariable name v =>
    have hset : RawQueue (t.clearUndo.setRuntime name v).store.evaluator :=
      .of_nil ((setRuntime_onlyWrites t.clearUndo name v).queue.trans hqueue)
    have hdefer : ∀ defer, (t.deferring defer).clearUndo.setRuntime name v =
        (t.clearUndo.setRuntime name v).deferring defer := fun _ => rfl
    simp only [applyEvent, hdefer, deferring_recompute]
    exact answered_of_raw platform (.updateVariable name v) (RawQueue.recompute platform hset)
  | reload payload =>
    have hloaded : RawQueue (t.loaded payload).store.evaluator :=
      fun a ha => RuntimeAction.raw_of_fromExpr (loaded_exprActions payload t a ha)
    have hraw := RawQueue.invariant.initComps platform (RawQueue.invariant.initFunctions platform hloaded)
    have hdefer : ∀ defer, (((t.deferring defer).loaded payload).initFunctions platform).initComps platform =
        (((t.loaded payload).initFunctions platform).initComps platform).deferring defer := fun _ => rfl
    simp only [applyEvent, applyReload, hdefer]
    exact answered_of_raw platform (.reload payload) hraw

/-- In every event of every run, of a session that resolves its aliases and of one that does not, both
ways come to the same. -/
theorem paths_agree (defer : Bool) (events : List UiEvent) :
    EachEvent platform (PathsAgree platform) (new.deferring defer) events := by
  have key : ∀ (events : List UiEvent) (t : TabSession), t.store.evaluator.accumulatedActions = [] →
      EachEvent platform (PathsAgree platform) t events := by
    intro events
    induction events with
    | nil => exact fun _ _ => trivial
    | cons event events ih =>
      intro t hqueue
      exact ⟨pathsAgree_of_queue platform event hqueue, ih _ (applyEvent_queue event hqueue)⟩
  exact key events _ rfl

/-! ## A timer that navigates -/

/-- Both ways execute the same actions. -/
def SameActions (t : TabSession) (event : UiEvent) : Prop :=
  ∀ r deferred, ((t.deferring false).applyEvent platform event).1 = some (.ok r) →
    ((t.deferring true).applyEvent platform event).1 = some (.ok deferred) →
    let worker := ((t.deferring true).applyEvent platform event).2
    executed (authorizeAll deferred.runtimeActions (.of event) worker.urlRegistry worker.documentDomain) =
      executed r.runtimeActions

/-- A document whose root timer goes to another page. -/
def navigatingTimer : ReloadPayload where
  logicFns := ∅
  clickActions := ∅
  submitActions := ∅
  rootTimerActions := [.navigate
    { arena :=
        { nodes := [.literal (.string "mizu://a.mizu/next")]
          argsPool := []
          nodes_valid := nextUrl_valid
          pool_valid := emptyPool_valid }
      root := 0
      root_valid := Nat.zero_lt_one }]
  interner := .new
  initialVariables := []
  urlRegistry := ∅
  documentDomain := "a.mizu"
  computedBindings := []

/-- The broker refuses a navigation that the session hands on. -/
theorem timer_navigation_differs :
    ¬∀ (platform : Platform) (events : List UiEvent), EachEvent platform (SameActions platform) new events := by
  intro h
  obtain ⟨-, htimer, -⟩ := h .plain [.reload navigatingTimer, .rootTimer 0]
  have horder : TableOrder.ascending.list navigatingTimer.logicFns = [] := by
    simp [TableOrder.ascending, navigatingTimer]
  have ht : (new.applyEvent .plain (.reload navigatingTimer)).2 = new.loaded navigatingTimer := by
    simp only [applyEvent, applyReload, initFunctions, Platform.plain]
    rw [show (new.loaded navigatingTimer).logicFns = navigatingTimer.logicFns from rfl, horder]
    rfl
  rw [ht] at htimer
  have hsame := htimer _ _ rfl rfl
  have hlength := congrArg List.length hsame
  revert hlength
  decide

end TabSession

end Mizu
