import Mizu.Flow.LowRuns
import Mizu.LogicWorker.Kinds

/-!
# What untrusted data cannot reach

Two runs of a session that differ in the values of network responses and of form fields only.

* `timerNavigations_confined`: in which runs of an accepted document the root timers navigate to the same URLs.
* `form_steers_timer`: a form field that decides where a root timer navigates to.
-/

namespace Mizu

open Exec List

/-- What a session is loaded with for a document after the check. Names may have been interned since. -/
structure ReloadOf (d : Document) (comps : List ComputedBinding) (payload : ReloadPayload) : Prop where
  logicFns : payload.logicFns = d.functions
  names : payload.interner.WellFormed
  interner : payload.interner.Extends d.interner
  comps : payload.computedBindings = comps
  timers : payload.rootTimerActions = d.timerActions
  clicks : ∀ id action, payload.clickActions.lookup id = some action → action ∈ d.eventActions
  submits : ∀ id action, payload.submitActions.lookup id = some action → action ∈ d.eventActions

/-- The same event but for its untrusted values: what a variable that a network call targets is set to, and the
values of the fields of a form. -/
inductive SameButUntrusted (d : Document) (comps : List ComputedBinding) : UiEvent → UiEvent → Prop where
  | same {event} (h : ∀ payload, event ≠ .reload payload) : SameButUntrusted d comps event event
  | reload {payload} (h : ReloadOf d comps payload) : SameButUntrusted d comps (.reload payload) (.reload payload)
  | update {method aliasSym payload pathParam targetVar format headers v v'}
      (h : .networkCall method aliasSym payload pathParam targetVar format headers ∈ d.actions) :
      SameButUntrusted d comps (.updateVariable targetVar v) (.updateVariable targetVar v')
  | submit {submitterNodeId fields fields'} (h : fields.map (·.1) = fields'.map (·.1)) :
      SameButUntrusted d comps (.submitForm submitterNodeId fields) (.submitForm submitterNodeId fields')

namespace TabSession

/-- The URLs an answer navigates to. -/
def navigatesTo : Option (Except MizuError WorkerResponse) → List String
  | some (.ok response) => navigations response.runtimeActions
  | _ => []

/-- The URLs the root timers navigate to in a run. -/
def timerNavigations (platform : Platform) : TabSession → List UiEvent → List String
  | _, [] => []
  | u, event :: events =>
    let (answer, u) := u.applyEvent platform event
    match event with
    | .rootTimer _ => navigatesTo answer ++ timerNavigations platform u events
    | _ => timerNavigations platform u events

/-- A statement about each pair of events of two runs, in the sessions they come to. -/
def EachPair (platform : Platform) (P : TabSession → TabSession → UiEvent → UiEvent → Prop) :
    TabSession → TabSession → List (UiEvent × UiEvent) → Prop
  | _, _, [] => True
  | u, u', (event, event') :: events =>
    P u u' event event' ∧
      EachPair platform P (u.applyEvent platform event).2 (u'.applyEvent platform event').2 events

/-- No expression the event evaluates leaves a local behind. -/
structure LeavesNoLocals (platform : Platform) (u : TabSession) (event : UiEvent) : Prop where
  action : ∀ action v, u.pendingAction event = some (action, v) →
    ∀ site, ActionEval (u.ctx platform) action v.store.evaluator site → ¬Leaks (u.ctx platform) site
  comps : (∀ payload, event ≠ .reload payload) → ∀ site ∈ eventSites platform u event, ¬Leaks (u.ctx platform) site

/-- The event's action fails. -/
def Fails (platform : Platform) (u : TabSession) (event : UiEvent) : Prop :=
  ∃ action v e s', ActionFails platform u event action v e s'

/-- A message about the action's alias is written to no low variable. -/
def MessagesHigh (D : Symbol → Prop) (u : TabSession) : Action → Prop
  | .networkCall _ aliasSym _ _ targetVar _ _ =>
    u.deferAliasResolution = false → u.urlRegistry.lookup aliasSym = none →
      ∀ target, u.store.interner.get targetVar = some target → HighName D u.store.interner (toString target.id)
  | _ => True

/-- A low binding without dependencies has no value yet. -/
def Waits (D : Symbol → Prop) (u : TabSession) : Prop :=
  ∃ cb ∈ u.computedVars, cb.dependsOn = [] ∧ ¬D cb.name ∧ (u.store.evaluator.getGlobal cb.name).isNull = true

/-- A pair of events that stays within what the check takes into account. -/
structure Confined (platform : Platform) (d : Document) (t : Taint) (u u' : TabSession) (event event' : UiEvent) :
    Prop where
  fields : ∀ id fields fields', event = .submitForm id fields → event' = .submitForm id fields' →
    List.Forall₂ (fun f f' => f.2 = f'.2 ∨ HighName (d.High t) u.store.interner f.1) fields fields'
  tidy : LeavesNoLocals platform u event
  tidy' : LeavesNoLocals platform u' event'
  outcome : Waits (d.High t) u → ¬event.isSubmit → (Fails platform u event ↔ Fails platform u' event')
  messages : ∀ action v, u.pendingAction event = some (action, v) → MessagesHigh (d.High t) u action

/-! ## Sessions of the document -/

/-- A session in which the document is loaded. -/
structure Serves (d : Document) (t : Taint) (u : TabSession) : Prop where
  logicFns : u.logicFns = d.functions
  names : u.store.interner.WellFormed
  interner : u.store.interner.Extends d.interner
  comps : u.computedVars = markComps t d.comps
  index : u.computedReverseIndex = buildCompReverseIndex (markComps t d.comps)
  timers : u.rootTimerActions = d.timerActions
  clicks : ∀ id action, u.clickActions.lookup id = some action → action ∈ d.eventActions
  submits : ∀ id action, u.submitActions.lookup id = some action → action ∈ d.eventActions

variable {action : Action}

section Serves

variable {d : Document} {t : Taint} {u : TabSession} (h : Serves d t u)

include h

theorem Serves.runsIn (platform : Platform) : d.RunsIn (u.ctx platform) := ⟨h.logicFns, h.names, h.interner⟩

theorem Serves.withEvaluator (s : Evaluator) : Serves d t (u.withEvaluator s) := { h with }

theorem Serves.mem_actions {event : UiEvent} {v : TabSession}
    (hpending : u.pendingAction event = some (action, v)) : action ∈ d.actions := by
  cases event with
  | click id =>
    obtain ⟨_, hlookup, hpair⟩ := Option.map_eq_some_iff.mp hpending
    cases hpair
    exact mem_append_left _ (h.clicks id action hlookup)
  | rootTimer index =>
    obtain ⟨_, hlookup, hpair⟩ := Option.map_eq_some_iff.mp hpending
    cases hpair
    exact mem_append_right _ (h.timers ▸ mem_of_getElem? hlookup)
  | submitForm id fields =>
    obtain ⟨_, hlookup, hpair⟩ := Option.map_eq_some_iff.mp hpending
    cases hpair
    exact mem_append_left _ (h.submits id action hlookup)
  | updateVariable | reload | closeTab => cases hpending

end Serves

/-! ## The parts of an event -/

variable {D : Symbol → Prop}

section Parts

variable {platform : Platform} {d : Document} {t : Taint} {u : TabSession} {s' : Evaluator}

theorem resolveOneAction_navigation (u : TabSession) (a : RuntimeAction) :
    navigations [(resolveOneAction u a).1] = navigations [a] := by
  unfold resolveOneAction
  split
  · rfl
  · cases a with
    | networkCall =>
      dsimp only
      split
      · rfl
      · split <;> rfl
    | downloadAlias sym =>
      dsimp only
      split <;> rfl
    | _ => rfl

theorem buildResponse_navigations (gesture : Bool) (u : TabSession) :
    navigations (u.buildResponse platform gesture).1.runtimeActions =
      navigations u.store.evaluator.accumulatedActions := by
  have hmap : (u.buildResponse platform gesture).1.runtimeActions =
      (u.store.evaluator.accumulatedActions.map (resolveOneAction u)).map (·.1) := rfl
  rw [hmap]
  generalize u.store.evaluator.accumulatedActions = queue
  induction queue with
  | nil => rfl
  | cons a queue ih =>
    have hhead := resolveOneAction_navigation u a
    rw [← singleton_append, navigations_append, ← hhead, ← ih, ← navigations_append]
    rfl

/-- The messages about a queued action are written to no low variable. -/
def QueueHigh (D : Symbol → Prop) (u : TabSession) (s : Evaluator) : Prop :=
  AllQueued (fun a => ∀ message ∈ (resolveOneAction u a).2, HighName D u.store.interner message.1) s

theorem QueueHigh.kept {s s' : Evaluator} (h : QueueHigh D u s) (hkept : Kept s s') : QueueHigh D u s' := by
  obtain ⟨as, has, hfrom⟩ := hkept.actions
  intro a ha
  rw [has] at ha
  rcases mem_append.mp ha with ha | ha
  · exact h a ha
  · grind [resolveOneAction_noError]

theorem QueueHigh.recompute {v : TabSession} (h : QueueHigh D u v.store.evaluator) :
    QueueHigh D u (v.recomputeAfterMutation platform).store.evaluator := by
  unfold recomputeAfterMutation
  split
  · exact h
  · exact recompute_invariant (I := QueueHigh D u) _ (fun _ _ hthrew hs => hs.kept hthrew.toKept)
      (fun _ _ _ _ hs => hs) _ _ h

/-- An action of the document queues at most a call about which no message goes to a low variable. -/
theorem executeAction_queueHigh (hchecked : d.Checked t) (hserves : Serves d t u)
    (hmem : action ∈ d.actions) (hmessages : MessagesHigh (d.High t) u action) {s : Evaluator}
    (h : QueueHigh (d.High t) u s) :
    QueueHigh (d.High t) u (finalState (executeAction (u.ctx platform) action s)) := by
  have hctx : d.RunsIn (u.ctx platform) := hserves.runsIn platform
  cases hrun : executeAction (u.ctx platform) action s with
  | error e v => exact h.kept (executeAction_error _ hrun).toKept
  | ok b v =>
    obtain ⟨w, hreturned, hfinishes⟩ := executeAction_ok _ hrun
    have hw : QueueHigh (d.High t) u w := h.kept hreturned.toKept
    cases hfinishes with
    | @assign target expr value _ =>
      show QueueHigh (d.High t) u (w.setRuntime (u.ctx platform).interner target value)
      unfold Evaluator.setRuntime
      split
      · exact hw
      · exact hw
    | eval => exact hw
    | navigate text =>
      refine AllQueued.act hw ?_
      unfold resolveOneAction
      split <;> exact fun message hmem => nomatch hmem
    | @networkCall method aliasSym payload pathParam targetVar format headers value segment target vs htarget =>
      refine AllQueued.act hw ?_
      unfold resolveOneAction
      split
      · exact fun message hno => nomatch hno
      · rename_i hdefer
        dsimp only
        have htargetHigh : HighName (d.High t) (u.ctx platform).interner targetVar :=
          highName_target hchecked hctx hmem
        split
        · rename_i hlookup
          intro message hmessage
          rw [mem_singleton.mp hmessage]
          exact hmessages (Bool.eq_false_iff.mpr hdefer) hlookup target htarget
        · split
          · exact fun message hno => nomatch hno
          · intro message hmessage
            rw [mem_singleton.mp hmessage]
            have hname : u.store.interner.resolve target = some targetVar := hserves.names.resolve_of_get htarget
            simp only [hname, Option.getD_some]
            exact htargetHigh

theorem buildResponse_sameDocument (gesture : Bool) (u : TabSession) :
    u.SameDocument (u.buildResponse platform gesture).2 := by
  obtain ⟨s, hs⟩ := surface_sameDocument
    (u.mapEvaluator fun s => { s with undoLog := [], accumulatedActions := [] },
      mutatedVariables platform u.store.evaluator)
    ((u.store.evaluator.accumulatedActions.map (resolveOneAction u)).flatMap (·.2))
  exact ⟨s, hs⟩

theorem buildResponse_low (gesture : Bool) (u : TabSession) (h : QueueHigh D u u.store.evaluator) :
    SameOutside D u.store.evaluator (u.buildResponse platform gesture).2.store.evaluator := by
  have key : ∀ (messages : List (String × Value)) (acc : TabSession × List (Symbol × Value)),
      acc.1.store.interner = u.store.interner →
      (∀ message ∈ messages, HighName D u.store.interner message.1) →
      SameOutside D acc.1.store.evaluator (messages.foldl surface acc).1.store.evaluator := by
    intro messages
    induction messages with
    | nil => exact fun acc _ _ => .refl D _
    | cons message messages ih =>
      intro acc hinterner hhigh
      have hstep : SameOutside D acc.1.store.evaluator (surface acc message).1.store.evaluator ∧
          (surface acc message).1.store.interner = u.store.interner := by
        unfold surface
        split
        · rw [setRuntime_eq]
          refine ⟨?_, hinterner⟩
          have hname := hhigh message mem_cons_self
          rw [← hinterner] at hname
          exact (SameLogged.setRuntime_high hname _ _).toSameOutside
        · exact ⟨.refl D _, hinterner⟩
      exact hstep.1.trans (ih _ hstep.2 fun m hm => hhigh m (mem_cons_of_mem _ hm))
  have hstart : SameOutside D u.store.evaluator
      { u.store.evaluator with undoLog := [], accumulatedActions := [] } :=
    { SameOutside.refl D u.store.evaluator with globals := fun _ _ => rfl }
  have hsurfaced := key ((u.store.evaluator.accumulatedActions.map (resolveOneAction u)).flatMap (·.2))
    (u.mapEvaluator fun s => { s with undoLog := [], accumulatedActions := [] },
      mutatedVariables platform u.store.evaluator) rfl
  refine hstart.trans (hsurfaced fun message hmessage => ?_)
  obtain ⟨r, hr, hmem⟩ := mem_flatMap.mp hmessage
  obtain ⟨a, ha, rfl⟩ := mem_map.mp hr
  exact h a ha message hmem

theorem recompute_rest (u : TabSession) (s : Evaluator) :
    (u.withEvaluator s).recomputeAfterMutation platform =
      u.withEvaluator ((u.withEvaluator s).recomputeAfterMutation platform).store.evaluator :=
  (recompute_logged platform s (u.withEvaluator s)).rest

theorem recompute_navigations (u : TabSession) :
    navigations (u.recomputeAfterMutation platform).store.evaluator.accumulatedActions =
      navigations u.store.evaluator.accumulatedActions := by
  unfold recomputeAfterMutation
  split
  · rfl
  · exact recompute_invariant
      (I := fun s => navigations s.accumulatedActions = navigations u.store.evaluator.accumulatedActions) _
      (fun _ _ hthrew hs => hthrew.toKept.navigations.trans hs) (fun _ _ _ _ hs => hs) _ _ rfl

/-- What an event answers and leaves after its recomputation. -/
theorem answer_low (platform : Platform) (gesture : Bool) {s : Evaluator} (h : QueueHigh D u s) :
    let v := (u.withEvaluator s).recomputeAfterMutation platform
    SameOutside D v.store.evaluator (v.buildResponse platform gesture).2.store.evaluator ∧
      navigations (v.buildResponse platform gesture).1.runtimeActions = navigations s.accumulatedActions := by
  intro v
  have hv : v = u.withEvaluator v.store.evaluator := recompute_rest u s
  have hqueue : QueueHigh D u v.store.evaluator :=
    QueueHigh.recompute (v := u.withEvaluator s) h
  constructor
  · rw [hv]
    exact buildResponse_low gesture (u.withEvaluator v.store.evaluator) hqueue
  · rw [buildResponse_navigations]
    exact recompute_navigations (u.withEvaluator s)

theorem executeActionAndBuild_ok {gesture b : Bool} {s : Evaluator}
    (h : executeAction (u.ctx platform) action u.clearUndo.store.evaluator = .ok b s) :
    u.executeActionAndBuild platform action gesture =
      (.ok (((u.withEvaluator s).recomputeAfterMutation platform).buildResponse platform gesture).1,
        (((u.withEvaluator s).recomputeAfterMutation platform).buildResponse platform gesture).2) := by
  have hctx : u.clearUndo.ctx platform = u.ctx platform := rfl
  unfold executeActionAndBuild
  dsimp only
  rw [hctx, h]
  rfl

/-- A click or a timer runs the same action in another state. -/
theorem pendingAction_withEvaluator {event : UiEvent} (s' : Evaluator) (hsubmit : ¬event.isSubmit)
    (h : u.pendingAction event = some (action, u.clearUndo)) :
    (u.withEvaluator s').pendingAction event = some (action, (u.withEvaluator s').clearUndo) := by
  cases event with
  | click | rootTimer =>
    obtain ⟨_, hlookup, hpair⟩ := Option.map_eq_some_iff.mp h
    cases hpair
    exact Option.map_eq_some_iff.mpr ⟨_, hlookup, rfl⟩
  | submitForm id fields => exact absurd trivial hsubmit
  | _ => cases h

theorem fails_iff {event : UiEvent} {v : TabSession} (h : u.pendingAction event = some (action, v)) :
    Fails platform u event ↔ ∃ e w, executeAction (u.ctx platform) action v.store.evaluator = .error e w := by
  constructor
  · rintro ⟨action', v', e, w, hpair, hrun⟩
    rw [h] at hpair
    cases hpair
    exact ⟨e, w, hrun⟩
  · rintro ⟨e, w, hrun⟩
    exact ⟨action, v, e, w, h, hrun⟩

/-- The bindings that are computed after an action leave no local behind. -/
theorem comps_of_pending {event : UiEvent} (hsubmit : ¬event.isSubmit)
    (h : u.pendingAction event = some (action, u.clearUndo)) (htidy : LeavesNoLocals platform u event) (b : Bool)
    (v : Evaluator) (hrun : executeAction (u.ctx platform) action u.clearUndo.store.evaluator = .ok b v) :
    ∀ site ∈ compSites platform (u.withEvaluator v), ¬Leaks (u.ctx platform) site := by
  have hsites : eventSites platform u event = compSites platform (u.withEvaluator v) := by
    cases event with
    | submitForm id fields => exact absurd trivial hsubmit
    | reload | updateVariable => cases h
    | _ =>
      simp only [eventSites, h, hrun]
      rfl
  rw [← hsites]
  exact htidy.comps fun payload hreload => by rw [hreload] at h; cases h

end Parts

/-! ## Events -/

section Events

variable {platform : Platform} {d : Document} {t : Taint} (hchecked : d.Checked t) {u : TabSession}
  (hserves : Serves d t u)

include hchecked hserves

/-- After the same low variables were logged, recomputations agree on the low variables. -/
theorem recompute_sees {s s' : Evaluator} (h : SameLogged (d.High t) s s')
    (hsites : ∀ site ∈ compSites platform (u.withEvaluator s), ¬Leaks (u.ctx platform) site)
    (hsites' : ∀ site ∈ compSites platform (u.withEvaluator s'), ¬Leaks (u.ctx platform) site) :
    SameOutside (d.High t) ((u.withEvaluator s).recomputeAfterMutation platform).store.evaluator
      ((u.withEvaluator s').recomputeAfterMutation platform).store.evaluator := by
  have hlocals := recompute_locals platform (u.withEvaluator s) fun site hsite _ _ _ => hsites site hsite
  have hlocals' := recompute_locals platform (u.withEvaluator s') fun site hsite _ _ _ => hsites' site hsite
  have hmutated : ∀ sym, ¬d.High t sym →
      (sym ∈ (s.undoLog.map (·.1)).toFinset ↔ sym ∈ (s'.undoLog.map (·.1)).toFinset) := by
    intro sym hsym
    rw [mem_toFinset, mem_toFinset, h.logged sym hsym]
  have hvars : ∀ v : Evaluator, (u.withEvaluator v).computedVars = markComps t d.comps := fun _ => hserves.comps
  have hindex : ∀ v : Evaluator, (u.withEvaluator v).computedReverseIndex =
      buildCompReverseIndex (markComps t d.comps) := fun _ => hserves.index
  unfold recomputeAfterMutation at hlocals hlocals' ⊢
  by_cases hnone : (markComps t d.comps).isEmpty = true
  · rw [hvars, hvars, if_pos hnone, if_pos hnone]
    exact h.toSameOutside
  · rw [hvars, hindex, if_neg hnone] at hlocals hlocals'
    rw [hvars, hvars, hindex, hindex, if_neg hnone, if_neg hnone]
    exact recompute_low hchecked (hserves.runsIn platform) h.toSameOutside hmutated hlocals hlocals'

theorem recompute_sees_aside {s s' : Evaluator} (h : SameLogged (d.High t) s s') (hlog : s'.undoLog = [])
    (hset : ¬Waits (d.High t) (u.withEvaluator s))
    (hsites : ∀ site ∈ compSites platform (u.withEvaluator s), ¬Leaks (u.ctx platform) site) :
    SameOutside (d.High t) ((u.withEvaluator s).recomputeAfterMutation platform).store.evaluator s' := by
  have hlocals := recompute_locals platform (u.withEvaluator s) fun site hsite _ _ _ => hsites site hsite
  have hmutated : ∀ sym ∈ (s.undoLog.map (·.1)).toFinset, d.High t sym := by grind [mem_toFinset, h.logged]
  have hvars : (u.withEvaluator s).computedVars = markComps t d.comps := hserves.comps
  have hindex : (u.withEvaluator s).computedReverseIndex =
      buildCompReverseIndex (markComps t d.comps) := hserves.index
  have hvalues : ∀ cb ∈ markComps t d.comps, cb.dependsOn = [] → ¬d.High t cb.name →
      (s.getGlobal cb.name).isNull = false := by
    intro cb hcb hnil hlow
    rw [Bool.eq_false_iff]
    exact fun hnull => hset ⟨cb, hvars ▸ hcb, hnil, hlow, hnull⟩
  unfold recomputeAfterMutation at hlocals ⊢
  rw [hvars] at hlocals ⊢
  by_cases hnone : (markComps t d.comps).isEmpty = true
  · rw [if_pos hnone]
    exact h.toSameOutside
  · rw [hindex, if_neg hnone] at hlocals
    rw [hindex, if_neg hnone]
    exact recompute_aside hchecked (hserves.runsIn platform) h.toSameOutside hmutated hvalues hlocals

/-- An action that returns on one side and fails on the other. -/
theorem executeActionAndBuild_sees_aside {s' v v' : Evaluator} {b : Bool} {e : MizuError}
    (gesture : Bool) (h : SameOutside (d.High t) u.store.evaluator s')
    (hok : executeAction (u.ctx platform) action u.clearUndo.store.evaluator = .ok b v)
    (herror : executeAction (u.ctx platform) action { s' with undoLog := [] } = .error e v')
    (hlow : SameLogged (d.High t) v v') (hqueue : QueueHigh (d.High t) u v)
    (hlocals' : v'.locals = s'.locals)
    (hset : ¬Waits (d.High t) u)
    (hsites : ∀ site ∈ compSites platform (u.withEvaluator v), ¬Leaks (u.ctx platform) site) :
    SameOutside (d.High t) (u.executeActionAndBuild platform action gesture).2.store.evaluator
      ((u.withEvaluator s').executeActionAndBuild platform action gesture).2.store.evaluator := by
  have hkept := (executeAction_error _ herror).toKept
  have hrolled : SameOutside (d.High t) s'
      { s' with locals := v'.locals, instructionCount := v'.instructionCount, undoLog := [] } :=
    ⟨fun _ _ => rfl, hlocals'.symm, rfl, rfl, rfl⟩
  have hfailed : SameOutside (d.High t) s' v' := by
    have hsame : SameOutside (d.High t) { s' with undoLog := [] } v' := sameOutside_of_kept hkept hlocals'
    exact { hsame with }
  have hset' : ¬Waits (d.High t) (u.withEvaluator v) := by
    rintro ⟨cb, hcb, hnil, hname, hnull⟩
    refine hset ⟨cb, hcb, hnil, hname, ?_⟩
    have hvalue := (h.trans (hfailed.trans hlow.toSameOutside.symm)).globals cb.name hname
    rw [hvalue]
    exact hnull
  have hrecomputed := recompute_sees_aside hchecked hserves hlow hkept.undoLog hset' hsites
  rw [executeActionAndBuild_ok hok, executeActionAndBuild_error (t := u.withEvaluator s') herror]
  have hanswer : SameOutside (d.High t) ((u.withEvaluator v).recomputeAfterMutation platform).store.evaluator
      (((u.withEvaluator v).recomputeAfterMutation platform).buildResponse platform gesture).2.store.evaluator :=
    (answer_low platform gesture hqueue).1
  exact hanswer.symm.trans (hrecomputed.trans (hfailed.symm.trans hrolled))

variable {s' : Evaluator}

theorem actionEvent_sees (h : SameOutside (d.High t) u.store.evaluator s')
    (hqueue : u.store.evaluator.accumulatedActions = []) (hqueue' : s'.accumulatedActions = [])
    {event : UiEvent} (gesture : Bool) (hsubmit : ¬event.isSubmit)
    (hpending : u.pendingAction event = some (action, u.clearUndo))
    (hconfined : Confined platform d t u (u.withEvaluator s') event event) :
    SameOutside (d.High t) (u.executeActionAndBuild platform action gesture).2.store.evaluator
        ((u.withEvaluator s').executeActionAndBuild platform action gesture).2.store.evaluator ∧
      ((∀ url, action = .navigate url → url.Clean (d.interner.get "get_system_time") t) →
        navigatesTo (some (u.executeActionAndBuild platform action gesture).1) =
          navigatesTo (some ((u.withEvaluator s').executeActionAndBuild platform action gesture).1)) := by
  have hpending' := pendingAction_withEvaluator s' hsubmit hpending
  have hmem := hserves.mem_actions hpending
  have hmessages := hconfined.messages _ _ hpending
  have haction := hconfined.tidy.action _ _ hpending
  have haction' := hconfined.tidy'.action _ _ hpending'
  have hcomps := comps_of_pending hsubmit hpending hconfined.tidy
  have hcomps' := comps_of_pending hsubmit hpending' hconfined.tidy'
  have houtcome : Waits (d.High t) u →
      ((∃ e v, executeAction (u.ctx platform) action u.clearUndo.store.evaluator = .error e v) ↔
        ∃ e v, executeAction (u.ctx platform) action { s' with undoLog := [] } = .error e v) := fun hwaits =>
    (fails_iff hpending).symm.trans ((hconfined.outcome hwaits hsubmit).trans (fails_iff hpending'))
  have hctx : d.RunsIn (u.ctx platform) := hserves.runsIn platform
  have hstart : SameLogged (d.High t) u.clearUndo.store.evaluator { s' with undoLog := [] } :=
    ⟨⟨h.globals, h.locals, h.max, h.depth, h.computed⟩, fun _ _ => Iff.rfl⟩
  have hlocals := (executeAction_locals (u.ctx platform) action u.clearUndo.store.evaluator).mpr haction
  have hlocals' := (executeAction_locals (u.ctx platform) action { s' with undoLog := [] }).mpr haction'
  have hlow := executeAction_low hchecked hctx hmem hstart hlocals hlocals'
  have hhigh : QueueHigh (d.High t) u (finalState (executeAction (u.ctx platform) action u.clearUndo.store.evaluator)) :=
    executeAction_queueHigh hchecked hserves hmem hmessages (.of_nil hqueue)
  have hhigh' : QueueHigh (d.High t) u (finalState (executeAction (u.ctx platform) action { s' with undoLog := [] })) :=
    executeAction_queueHigh hchecked hserves hmem hmessages (.of_nil hqueue')
  -- An action other than a navigation navigates nowhere, and a navigation ends alike on both sides.
  have hnavigates : (∀ url, action ≠ .navigate url) → ∀ {s : Evaluator}, s.accumulatedActions = [] →
      navigations (finalState (executeAction (u.ctx platform) action s)).accumulatedActions = [] := by
    intro hne s hnil
    rw [executeAction_no_navigation hne, hnil]
    rfl
  have halike : ∀ url, action = .navigate url → url.Clean (d.interner.get "get_system_time") t →
      EndAlike (fun v v' => navigations v.accumulatedActions = navigations v'.accumulatedActions)
        (executeAction (u.ctx platform) action u.clearUndo.store.evaluator)
        (executeAction (u.ctx platform) action { s' with undoLog := [] }) := by
    rintro url rfl hclean
    have hknown := hchecked.parsed.trees _ hmem url (by simp [Action.trees])
    have hboth := executeAction_navigates (evalTree_low hchecked hctx hclean hknown) hstart.toSameOutside
    revert hboth
    cases executeAction (u.ctx platform) (.navigate url) u.clearUndo.store.evaluator with
    | ok b v =>
      cases executeAction (u.ctx platform) (.navigate url) { s' with undoLog := [] } with
      | ok b' v' =>
        rintro ⟨text, hv, hv'⟩
        have hqueues : u.clearUndo.store.evaluator.accumulatedActions = s'.accumulatedActions :=
          hqueue.trans hqueue'.symm
        exact hv.trans ((congrArg (navigations · ++ [text]) hqueues).trans hv'.symm)
      | error e' v' => exact id
    | error e v =>
      cases executeAction (u.ctx platform) (.navigate url) { s' with undoLog := [] } with
      | ok | error => exact id
  cases hrun : executeAction (u.ctx platform) action u.clearUndo.store.evaluator with
  | ok b v =>
    cases hrun' : executeAction (u.ctx platform) action { s' with undoLog := [] } with
    | ok b' v' =>
      rw [hrun, hrun'] at hlow halike
      rw [hrun] at hhigh
      rw [hrun'] at hhigh'
      have hanswer := answer_low platform gesture hhigh
      have hanswer' := answer_low platform gesture hhigh'
      have hrecomputed := recompute_sees hchecked hserves hlow (hcomps b v hrun) (hcomps' b' v' hrun')
      rw [executeActionAndBuild_ok hrun, executeActionAndBuild_ok (u := u.withEvaluator s') hrun']
      refine ⟨hanswer.1.symm.trans (hrecomputed.trans hanswer'.1), fun hclean => ?_⟩
      refine hanswer.2.trans (Eq.trans ?_ hanswer'.2.symm)
      by_cases hnavigate : ∃ url, action = .navigate url
      · obtain ⟨url, rfl⟩ := hnavigate
        exact halike url rfl (hclean url rfl)
      · have hne := not_exists.mp hnavigate
        have hnone := hnavigates hne (s := u.clearUndo.store.evaluator) hqueue
        have hnone' := hnavigates hne (s := { s' with undoLog := [] }) hqueue'
        rw [hrun] at hnone
        rw [hrun'] at hnone'
        exact hnone.trans hnone'.symm
    | error e' v' =>
      rw [hrun, hrun'] at hlow halike
      rw [hrun] at hhigh
      rw [hrun'] at hlocals'
      have hset : ¬Waits (d.High t) u := by grind
      refine ⟨executeActionAndBuild_sees_aside hchecked hserves gesture h hrun hrun' hlow hhigh hlocals' hset
        (hcomps b v hrun), fun hclean => ?_⟩
      have hne : ∀ url, action ≠ .navigate url := fun url hurl => halike url hurl (hclean url hurl)
      have hnone := hnavigates hne (s := u.clearUndo.store.evaluator) hqueue
      rw [hrun] at hnone
      rw [executeActionAndBuild_ok hrun, executeActionAndBuild_error (t := u.withEvaluator s') hrun']
      exact (answer_low platform gesture hhigh).2.trans hnone
  | error e v =>
    cases hrun' : executeAction (u.ctx platform) action { s' with undoLog := [] } with
    | ok b' v' =>
      rw [hrun, hrun'] at hlow halike
      rw [hrun'] at hhigh'
      rw [hrun] at hlocals
      have hset : ¬Waits (d.High t) (u.withEvaluator s') := by
        rintro ⟨cb, hcb, hnil, hname, hnull⟩
        have hwaits : Waits (d.High t) u := ⟨cb, hcb, hnil, hname, (h.globals cb.name hname).symm ▸ hnull⟩
        obtain ⟨e', w, hfails⟩ := (houtcome hwaits).mp ⟨e, v, hrun⟩
        rw [hrun'] at hfails
        cases hfails
      have hother := executeActionAndBuild_sees_aside hchecked (hserves.withEvaluator s') gesture
        h.symm hrun' hrun hlow.symm hhigh' hlocals hset (hcomps' b' v' hrun')
      refine ⟨hother.symm, fun hclean => ?_⟩
      have hne : ∀ url, action ≠ .navigate url := fun url hurl => halike url hurl (hclean url hurl)
      have hnone' := hnavigates hne (s := { s' with undoLog := [] }) hqueue'
      rw [hrun'] at hnone'
      rw [executeActionAndBuild_ok (u := u.withEvaluator s') hrun', executeActionAndBuild_error hrun]
      exact ((answer_low platform gesture hhigh').2.trans hnone').symm
    | error e' v' =>
      rw [hrun] at hlocals
      rw [hrun'] at hlocals'
      rw [executeActionAndBuild_error hrun, executeActionAndBuild_error (t := u.withEvaluator s') hrun']
      refine ⟨⟨h.globals, ?_, h.max, h.depth, h.computed⟩, fun _ => rfl⟩
      exact hlocals.trans (h.locals.trans hlocals'.symm)

/-- A variable set on both sides, to the same value or a high one. -/
theorem updateVariable_sees (h : SameOutside (d.High t) u.store.evaluator s')
    (hqueue : u.store.evaluator.accumulatedActions = []) (hqueue' : s'.accumulatedActions = [])
    {name : String} {v v' : Value} (hsame : v = v' ∨ HighName (d.High t) u.store.interner name)
    (hconfined : Confined platform d t u (u.withEvaluator s') (.updateVariable name v) (.updateVariable name v')) :
    SameOutside (d.High t) (u.applyEvent platform (.updateVariable name v)).2.store.evaluator
      ((u.withEvaluator s').applyEvent platform (.updateVariable name v')).2.store.evaluator := by
  let a := u.clearUndo.store.evaluator.setRuntime u.store.interner name v
  let a' := Evaluator.setRuntime { s' with undoLog := [] } u.store.interner name v'
  have hstart : SameLogged (d.High t) u.clearUndo.store.evaluator { s' with undoLog := [] } :=
    ⟨⟨h.globals, h.locals, h.max, h.depth, h.computed⟩, fun _ _ => Iff.rfl⟩
  have hset : SameLogged (d.High t) a a' := by
    rcases hsame with rfl | hname
    · exact hstart.setRuntime_same _ _ _
    · exact ((SameLogged.setRuntime_high hname _ _).symm.trans hstart).trans (.setRuntime_high hname _ _)
  have ha : u.clearUndo.setRuntime name v = u.withEvaluator a := setRuntime_eq _ _ _
  have ha' : (u.withEvaluator s').clearUndo.setRuntime name v' = u.withEvaluator a' := setRuntime_eq _ _ _
  have hsites := hconfined.tidy.comps nofun
  have hsites' := hconfined.tidy'.comps nofun
  simp only [eventSites, ha, ha'] at hsites hsites'
  have hnil : a.accumulatedActions = [] := by
    rw [← hqueue]
    exact (setRuntime_onlyWrites u.clearUndo name v).queue ▸ (by rw [ha]; rfl)
  have hnil' : a'.accumulatedActions = [] := by
    rw [← hqueue']
    exact (setRuntime_onlyWrites (u.withEvaluator s').clearUndo name v').queue ▸ (by rw [ha']; rfl)
  have hrecomputed := recompute_sees hchecked hserves hset hsites hsites'
  have hanswer := (answer_low platform false (D := d.High t) (u := u) (.of_nil hnil)).1
  have hanswer' := (answer_low platform false (D := d.High t) (u := u) (.of_nil hnil')).1
  simp only [applyEvent, ha, ha']
  exact hanswer.symm.trans (hrecomputed.trans hanswer')

variable {fields fields' : List (String × Value)}

omit hchecked hserves in
theorem foldl_setRuntime_sees {interner : Interner} (hnames : fields.map (·.1) = fields'.map (·.1))
    (hvalues : List.Forall₂ (fun f f' => f.2 = f'.2 ∨ HighName D interner f.1) fields fields')
    {v v' : TabSession} (hinterner : v.store.interner = interner) (hinterner' : v'.store.interner = interner)
    (h : SameLogged D v.store.evaluator v'.store.evaluator) :
    SameLogged D (fields.foldl (fun t (name, v) => t.setRuntime name v) v).store.evaluator
      (fields'.foldl (fun t (name, v) => t.setRuntime name v) v').store.evaluator := by
  induction hvalues generalizing v v' with
  | nil => exact h
  | @cons field field' fields fields' hvalue _ ih =>
    obtain ⟨name, x⟩ := field
    obtain ⟨name', x'⟩ := field'
    simp only [map_cons, List.cons.injEq] at hnames
    obtain ⟨rfl, hnames⟩ := hnames
    have hwrite : ∀ (w : TabSession) (y : Value), w.store.interner = interner →
        (w.setRuntime name y).store.evaluator = w.store.evaluator.setRuntime interner name y := by
      intro w y hw
      rw [← hw]
      exact VariableStore.setRuntime_evaluator _ _ _
    refine ih hnames ((VariableStore.setRuntime_interner _ _ _).trans hinterner)
      ((VariableStore.setRuntime_interner _ _ _).trans hinterner') ?_
    dsimp only
    rw [hwrite v x hinterner, hwrite v' x' hinterner']
    rcases hvalue with hx | hname
    · dsimp only at hx
      rw [hx]
      exact h.setRuntime_same _ _ _
    · exact ((SameLogged.setRuntime_high hname _ _).symm.trans h).trans (.setRuntime_high hname _ _)

theorem submitForm_sees (h : SameOutside (d.High t) u.store.evaluator s')
    (hqueue : u.store.evaluator.accumulatedActions = []) (hqueue' : s'.accumulatedActions = [])
    {id : Nat} (hnames : fields.map (·.1) = fields'.map (·.1))
    (hconfined : Confined platform d t u (u.withEvaluator s') (.submitForm id fields) (.submitForm id fields')) :
    SameOutside (d.High t) (u.applyEvent platform (.submitForm id fields)).2.store.evaluator
      ((u.withEvaluator s').applyEvent platform (.submitForm id fields')).2.store.evaluator := by
  have hstart : SameLogged (d.High t) u.clearUndo.store.evaluator { s' with undoLog := [] } :=
    ⟨⟨h.globals, h.locals, h.max, h.depth, h.computed⟩, fun _ _ => Iff.rfl⟩
  have hform : HighName (d.High t) u.store.interner "$form" :=
    highName_form hchecked (hserves.runsIn platform)
  have hrecord : SameLogged (d.High t)
      (u.clearUndo.setRuntime "$form" (Value.recordFromUnsorted fields)).store.evaluator
      ((u.withEvaluator s').clearUndo.setRuntime "$form" (Value.recordFromUnsorted fields')).store.evaluator := by
    rw [setRuntime_eq, setRuntime_eq]
    exact ((SameLogged.setRuntime_high hform _ _).symm.trans hstart).trans (.setRuntime_high hform _ _)
  have hfields : SameLogged (d.High t) (u.setFields fields).store.evaluator
      ((u.withEvaluator s').setFields fields').store.evaluator :=
    foldl_setRuntime_sees hnames (hconfined.fields id fields fields' rfl rfl)
      (VariableStore.setRuntime_interner _ _ _) (VariableStore.setRuntime_interner _ _ _) hrecord
  obtain ⟨a, ha⟩ : ∃ a, u.setFields fields = u.withEvaluator a :=
    ⟨_, (setFields_logged u.store.evaluator fields u).rest⟩
  obtain ⟨a', ha'⟩ : ∃ a', (u.withEvaluator s').setFields fields' = u.withEvaluator a' :=
    ⟨_, (setFields_logged s' fields' (u.withEvaluator s')).rest⟩
  have hnil : a.accumulatedActions = [] := by
    have hwrites := (setFields_onlyWrites (t := u) fields).queue
    rw [ha] at hwrites
    exact hwrites.trans hqueue
  have hnil' : a'.accumulatedActions = [] := by
    have hwrites := (setFields_onlyWrites (t := u.withEvaluator s') fields').queue
    rw [ha'] at hwrites
    exact hwrites.trans hqueue'
  rw [ha, ha'] at hfields
  have hlow : SameLogged (d.High t) a a' := hfields
  -- What the submit button's action leaves on either side.
  obtain ⟨b, b', hb, hb', hboth, hhigh, hhigh'⟩ : ∃ b b',
      (u.withEvaluator a).runSubmit platform (u.submitActions.lookup id) = u.withEvaluator b ∧
      (u.withEvaluator a').runSubmit platform (u.submitActions.lookup id) = u.withEvaluator b' ∧
      SameLogged (d.High t) b b' ∧ QueueHigh (d.High t) u b ∧ QueueHigh (d.High t) u b' := by
    cases haction : u.submitActions.lookup id with
    | none => exact ⟨a, a', rfl, rfl, hlow, .of_nil hnil, .of_nil hnil'⟩
    | some action =>
      have hpending : u.pendingAction (.submitForm id fields) = some (action, u.withEvaluator a) := by
        simp only [pendingAction, haction, Option.map_some, ha]
      have hpending' : (u.withEvaluator s').pendingAction (.submitForm id fields') =
          some (action, u.withEvaluator a') := by
        have haction' : (u.withEvaluator s').submitActions.lookup id = some action := haction
        simp only [pendingAction, haction', Option.map_some, ha']
      have hmem := hserves.mem_actions hpending
      have hmessages := hconfined.messages _ _ hpending
      have hlocals := (executeAction_locals (u.ctx platform) action a).mpr
        (hconfined.tidy.action _ _ hpending)
      have hlocals' := (executeAction_locals (u.ctx platform) action a').mpr
        (hconfined.tidy'.action _ _ hpending')
      refine ⟨finalState (executeAction (u.ctx platform) action a),
        finalState (executeAction (u.ctx platform) action a'), rfl, rfl, ?_, ?_, ?_⟩
      · exact executeAction_low hchecked (hserves.runsIn platform) hmem hlow hlocals hlocals'
      · exact executeAction_queueHigh hchecked hserves hmem hmessages (.of_nil hnil)
      · exact executeAction_queueHigh hchecked hserves hmem hmessages (.of_nil hnil')
  have hlookup' : (u.withEvaluator s').submitActions.lookup id = u.submitActions.lookup id := rfl
  have hsites := hconfined.tidy.comps (by simp)
  have hsites' := hconfined.tidy'.comps (by simp)
  simp only [eventSites, hlookup', ha, ha', hb, hb'] at hsites hsites'
  have hrecomputed := recompute_sees hchecked hserves hboth hsites hsites'
  have hanswer := (answer_low platform true hhigh).1
  have hanswer' := (answer_low platform true hhigh').1
  simp only [applyEvent, hlookup', ha, ha', hb, hb']
  exact hanswer.symm.trans (hrecomputed.trans hanswer')

end Events

/-! ## Runs -/

section Runs

variable {platform : Platform} {d : Document} {t : Taint} {u u' : TabSession} {event event' : UiEvent}

theorem SameDocument.trans {u v w : TabSession} (h : u.SameDocument v) (h' : v.SameDocument w) :
    u.SameDocument w := by
  obtain ⟨s, rfl⟩ := h
  obtain ⟨s', rfl⟩ := h'
  exact ⟨s', rfl⟩

theorem applyEvent_sameDocument (platform : Platform) (u : TabSession) (hreload : ∀ payload, event ≠ .reload payload) :
    u.SameDocument (u.applyEvent platform event).2 := by
  have hrecompute : ∀ (gesture : Bool) (v : TabSession), u.SameDocument v →
      u.SameDocument ((v.recomputeAfterMutation platform).buildResponse platform gesture).2 := fun gesture v hv =>
    (hv.trans (.of_rest (recompute_logged platform v.store.evaluator v).rest)).trans
      (buildResponse_sameDocument gesture _)
  have haction : ∀ action gesture, u.SameDocument (u.executeActionAndBuild platform action gesture).2 := by
    intro action gesture
    cases hrun : executeAction (u.ctx platform) action u.clearUndo.store.evaluator with
    | error e s =>
      rw [executeActionAndBuild_error hrun]
      exact ⟨_, rfl⟩
    | ok b s =>
      rw [executeActionAndBuild_ok hrun]
      exact hrecompute gesture _ ⟨s, rfl⟩
  cases event with
  | closeTab => exact ⟨_, rfl⟩
  | reload payload => exact absurd rfl (hreload payload)
  | updateVariable name v =>
    exact hrecompute false _ (.of_rest (setRuntime_logged u.clearUndo.store.evaluator u.clearUndo name v).rest)
  | submitForm id fields =>
    have hfields : u.SameDocument (u.setFields fields) :=
      .of_rest (setFields_logged u.store.evaluator fields u).rest
    exact hrecompute true _ (hfields.trans (.of_rest (runSubmit_logged platform u.store.evaluator _ _).rest))
  | click id =>
    simp only [applyEvent]
    cases u.clickActions.lookup id with
    | none => exact ⟨_, rfl⟩
    | some action => exact haction action true
  | rootTimer index =>
    simp only [applyEvent]
    cases u.rootTimerActions[index]? with
    | none => exact ⟨_, rfl⟩
    | some action => exact haction action false

theorem loaded_interner (payload : ReloadPayload) (u : TabSession) :
    (u.loaded payload).store.interner = payload.interner := by
  have key : ∀ (vars : List (String × Value)) (store : VariableStore),
      (vars.foldl (fun store (k, v) => store.setRuntime k v) store).interner = store.interner := by
    intro vars
    induction vars with
    | nil => exact fun _ => rfl
    | cons var vars ih => exact fun store => (ih _).trans (VariableStore.setRuntime_interner _ _ _)
  exact key payload.initialVariables (.withInterner payload.interner)

theorem serves_reload {payload : ReloadPayload} (h : ReloadOf d (markComps t d.comps) payload) (u : TabSession) :
    Serves d t (u.applyEvent platform (.reload payload)).2 := by
  have hloaded : Serves d t (u.loaded payload) :=
    { logicFns := h.logicFns
      names := loaded_interner payload u ▸ h.names
      interner := loaded_interner payload u ▸ h.interner
      comps := h.comps
      index := congrArg buildCompReverseIndex h.comps
      timers := h.timers
      clicks := h.clicks
      submits := h.submits }
  obtain ⟨s, hs⟩ : (u.loaded payload).SameDocument (u.applyEvent platform (.reload payload)).2 :=
    SameDocument.trans ⟨_, rfl⟩ (buildResponse_sameDocument false
      (((u.loaded payload).initFunctions platform).initComps platform))
  rw [hs]
  exact hloaded.withEvaluator s

/-- Two sessions of the document between events, alike on the low variables. -/
structure Twins (d : Document) (t : Taint) (u u' : TabSession) : Prop where
  serves : Serves d t u
  document : u.SameDocument u'
  evaluator : SameOutside (d.High t) u.store.evaluator u'.store.evaluator
  queue : u.store.evaluator.accumulatedActions = []
  queue' : u'.store.evaluator.accumulatedActions = []

theorem Twins.refl (hserves : Serves d t u) (hqueue : u.store.evaluator.accumulatedActions = []) : Twins d t u u :=
  ⟨hserves, ⟨_, rfl⟩, .refl _ _, hqueue, hqueue⟩

theorem Twins.reload {payload : ReloadPayload} (h : Twins d t u u')
    (hpayload : ReloadOf d (markComps t d.comps) payload) :
    Twins d t (u.applyEvent platform (.reload payload)).2 (u'.applyEvent platform (.reload payload)).2 := by
  obtain ⟨s', rfl⟩ := h.document
  have heq : (u.withEvaluator s').applyEvent platform (.reload payload) = u.applyEvent platform (.reload payload) := rfl
  rw [heq]
  exact .refl (serves_reload hpayload u) (buildResponse_queue platform false _)

theorem Twins.after (h : Twins d t u u') (hreload : ∀ payload, event ≠ .reload payload)
    (hreload' : ∀ payload, event' ≠ .reload payload)
    (hsame : SameOutside (d.High t) (u.applyEvent platform event).2.store.evaluator
      (u'.applyEvent platform event').2.store.evaluator) :
    Twins d t (u.applyEvent platform event).2 (u'.applyEvent platform event').2 := by
  obtain ⟨s, hs⟩ := applyEvent_sameDocument platform u hreload
  obtain ⟨s', hs'⟩ := h.document.trans (applyEvent_sameDocument platform u' hreload')
  refine ⟨?_, ?_, hsame, applyEvent_queue event h.queue, applyEvent_queue event' h.queue'⟩
  · rw [hs]
    exact h.serves.withEvaluator s
  · rw [hs, hs']
    exact ⟨s', rfl⟩

theorem Twins.act (hchecked : d.Checked t) (h : Twins d t u u') (gesture : Bool) (hsubmit : ¬event.isSubmit)
    (hpending : u.pendingAction event = some (action, u.clearUndo)) (hconfined : Confined platform d t u u' event event)
    (hevent : ∀ s, (u.withEvaluator s).applyEvent platform event =
      (some ((u.withEvaluator s).executeActionAndBuild platform action gesture).1,
        ((u.withEvaluator s).executeActionAndBuild platform action gesture).2)) :
    Twins d t (u.applyEvent platform event).2 (u'.applyEvent platform event).2 ∧
      ((∀ url, action = .navigate url → url.Clean (d.interner.get "get_system_time") t) →
        navigatesTo (u.applyEvent platform event).1 = navigatesTo (u'.applyEvent platform event).1) := by
  obtain ⟨s', rfl⟩ := h.document
  have hend := actionEvent_sees hchecked h.serves h.evaluator h.queue h.queue' gesture hsubmit hpending hconfined
  have hreload : ∀ payload, event ≠ .reload payload := by
    rintro payload rfl
    cases hpending
  have hown : u.applyEvent platform event = _ := hevent u.store.evaluator
  refine ⟨h.after hreload hreload ?_, ?_⟩
  · rw [hown, hevent s']
    exact hend.1
  · rw [hown, hevent s']
    exact hend.2

/-- A pair of events: the sessions stay alike, and a root timer navigates to the same URLs. -/
theorem Twins.step (hchecked : d.Checked t)
    (hclean : ∀ url, .navigate url ∈ d.timerActions → url.Clean (d.interner.get "get_system_time") t)
    (h : Twins d t u u') (hsame : SameButUntrusted d (markComps t d.comps) event event')
    (hconfined : Confined platform d t u u' event event') :
    Twins d t (u.applyEvent platform event).2 (u'.applyEvent platform event').2 ∧
      ∀ index, event = .rootTimer index →
        navigatesTo (u.applyEvent platform event).1 = navigatesTo (u'.applyEvent platform event').1 := by
  obtain ⟨s', rfl⟩ := h.document
  have hserves := h.serves
  have hevaluator : SameOutside (d.High t) u.store.evaluator s' := h.evaluator
  have hqueue := h.queue
  have hqueue' : s'.accumulatedActions = [] := h.queue'
  cases hsame with
  | reload hpayload => exact ⟨h.reload hpayload, nofun⟩
  | update hmem =>
    have htarget := highName_target hchecked (hserves.runsIn platform) hmem
    have hend := updateVariable_sees hchecked hserves hevaluator hqueue hqueue' (.inr htarget) hconfined
    exact ⟨h.after nofun nofun hend, nofun⟩
  | submit hnames =>
    exact ⟨h.after nofun nofun (submitForm_sees hchecked hserves hevaluator hqueue hqueue' hnames hconfined), nofun⟩
  | same hreload =>
    cases event with
    | closeTab => exact ⟨h, nofun⟩
    | reload payload => exact absurd rfl (hreload payload)
    | updateVariable name v =>
      have hend := updateVariable_sees hchecked hserves hevaluator hqueue hqueue' (.inl rfl) hconfined
      exact ⟨h.after nofun nofun hend, nofun⟩
    | submitForm id fields =>
      exact ⟨h.after nofun nofun (submitForm_sees hchecked hserves hevaluator hqueue hqueue' rfl hconfined), nofun⟩
    | click nodeId =>
      refine ⟨?_, nofun⟩
      cases hlookup : u.clickActions.lookup nodeId with
      | none =>
        have hlookup' : (u.withEvaluator s').clickActions.lookup nodeId = none := hlookup
        simp only [applyEvent, hlookup, hlookup']
        exact h
      | some action =>
        have hpending : u.pendingAction (.click nodeId) = some (action, u.clearUndo) := by
          simp only [pendingAction, hlookup, Option.map_some]
        refine (h.act hchecked true id hpending hconfined fun s => ?_).1
        have hlookup' : (u.withEvaluator s).clickActions.lookup nodeId = some action := hlookup
        simp only [applyEvent, hlookup']
    | rootTimer index =>
      cases hlookup : u.rootTimerActions[index]? with
      | none =>
        have hlookup' : (u.withEvaluator s').rootTimerActions[index]? = none := hlookup
        simp only [applyEvent, hlookup, hlookup']
        exact ⟨h, fun _ _ => trivial⟩
      | some action =>
        have hpending : u.pendingAction (.rootTimer index) = some (action, u.clearUndo) := by
          simp only [pendingAction, hlookup, Option.map_some]
        have hmem : action ∈ d.timerActions := hserves.timers ▸ mem_of_getElem? hlookup
        obtain ⟨htwins, hnavigates⟩ := h.act hchecked false id hpending hconfined fun s => by
          have hlookup' : (u.withEvaluator s).rootTimerActions[index]? = some action := hlookup
          simp only [applyEvent, hlookup']
        exact ⟨htwins, fun _ _ => hnavigates fun url hurl => hclean url (hurl ▸ hmem)⟩

/-- From sessions that are alike, two runs whose pairs of events are confined. -/
theorem Twins.run (hchecked : d.Checked t)
    (hclean : ∀ url, .navigate url ∈ d.timerActions → url.Clean (d.interner.get "get_system_time") t)
    {events : List (UiEvent × UiEvent)} (h : Twins d t u u')
    (hsame : ∀ pair ∈ events, SameButUntrusted d (markComps t d.comps) pair.1 pair.2)
    (hconfined : EachPair platform (Confined platform d t) u u' events) :
    timerNavigations platform u (events.map (·.1)) = timerNavigations platform u' (events.map (·.2)) := by
  induction events generalizing u u' with
  | nil => rfl
  | cons pair events ih =>
    obtain ⟨event, event'⟩ := pair
    have hpair := hsame _ mem_cons_self
    obtain ⟨htwins, hnavigates⟩ := h.step hchecked hclean hpair hconfined.1
    have hrest := ih htwins (fun pair hmem => hsame pair (mem_cons_of_mem _ hmem)) hconfined.2
    simp only [map_cons, timerNavigations]
    cases hpair with
    | reload | update | submit => exact hrest
    | same _ => grind

end Runs

/-- In runs of an accepted document that stay confined, the root timers navigate to the same URLs. -/
theorem timerNavigations_confined (platform : Platform) (order : HashOrder) {d : Document}
    {comps : List ComputedBinding} {metrics : Nat × Nat × Nat} {t : Taint} (hparsed : d.Parsed)
    (hclock : d.ClockUndeclared) (hcheck : checkInformationFlow order d = .ok (comps, metrics))
    (htaint : taintOf order d = .ok t) {payload : ReloadPayload} (hpayload : ReloadOf d comps payload)
    (u : TabSession) (events : List (UiEvent × UiEvent))
    (hsame : ∀ pair ∈ events, SameButUntrusted d comps pair.1 pair.2)
    (hconfined : EachPair platform (Confined platform d t) (u.applyEvent platform (.reload payload)).2
      (u.applyEvent platform (.reload payload)).2 events) :
    timerNavigations platform u (.reload payload :: events.map (·.1)) =
      timerNavigations platform u (.reload payload :: events.map (·.2)) := by
  obtain ⟨t', ht', hsecured⟩ := checkInformationFlow_secured hcheck
  obtain rfl : t' = t := Except.ok.inj (ht'.symm.trans htaint)
  have hcomps := hsecured.comps
  subst hcomps
  have hchecked : d.Checked t' := ⟨hparsed, hclock, hsecured.closed⟩
  have htwins : Twins d t' (u.applyEvent platform (.reload payload)).2 (u.applyEvent platform (.reload payload)).2 :=
    .refl (serves_reload hpayload u) (buildResponse_queue platform false _)
  exact htwins.run hchecked hsecured.navigations hsame hconfined

/-! ## A timer that follows a form field -/

/-- A document with one root timer, which navigates to the expression. -/
def timerDocument (url : ExprTree) : Document where
  dom := []
  timers := [⟨.navigate url⟩]
  functions := ∅
  functionOrder := []
  comps := []
  interner := .ofNames ["dest"]

def timerPayload (url : ExprTree) : ReloadPayload where
  logicFns := ∅
  clickActions := ∅
  submitActions := ∅
  rootTimerActions := [.navigate url]
  interner := .ofNames ["dest"]
  initialVariables := [("dest", .string "mizu://a.mizu/")]
  urlRegistry := ∅
  documentDomain := "a.mizu"
  computedBindings := []

theorem timerPayload_reloadOf (url : ExprTree) : ReloadOf (timerDocument url) [] (timerPayload url) where
  logicFns := rfl
  names := Interner.ofNames_wellFormed _
  interner := Interner.Extends.refl _
  comps := rfl
  timers := rfl
  clicks _ _ h := nomatch h
  submits _ _ h := nomatch h

theorem timerDocument_parsed {url : ExprTree} (hknown : (timerDocument url).KnowsAll url) :
    (timerDocument url).Parsed where
  interner := Interner.ofNames_wellFormed _
  functions _ hmem := absurd hmem (Finmap.notMem_empty)
  comps := ⟨0, [], rfl⟩
  names _ hmem := nomatch hmem
  bodies _ _ hlookup := nomatch hlookup
  exprs _ hmem := nomatch hmem
  trees action hmem tree htree := by
    obtain rfl := mem_singleton.mp hmem
    obtain rfl := mem_singleton.mp htree
    exact hknown

theorem timerPayload_loaded (url : ExprTree) :
    (new.applyEvent .plain (.reload (timerPayload url))).2 = new.loaded (timerPayload url) := by
  have horder : TableOrder.ascending.list (timerPayload url).logicFns = [] := by
    simp [TableOrder.ascending, timerPayload]
  simp only [applyEvent, applyReload, initFunctions, Platform.plain]
  rw [show (new.loaded (timerPayload url)).logicFns = (timerPayload url).logicFns from rfl, horder]
  rfl

/-- The variable `dest`. -/
def destUrl : ExprTree where
  arena := { nodes := [.var ⟨0⟩], argsPool := [], nodes_valid := firstVar_valid, pool_valid := emptyPool_valid }
  root := 0
  root_valid := Nat.zero_lt_one

/-- `"mizu://a.mizu/next"`. -/
def fixedUrl : ExprTree where
  arena :=
    { nodes := [.literal (.string "mizu://a.mizu/next")], argsPool := [], nodes_valid := nextUrl_valid,
      pool_valid := emptyPool_valid }
  root := 0
  root_valid := Nat.zero_lt_one

theorem destUrl_known : (timerDocument destUrl).KnowsAll destUrl := by
  intro sym hbelow
  cases hbelow with
  | refl => rfl
  | step hchild _ => cases hchild

theorem fixedUrl_known : (timerDocument fixedUrl).KnowsAll fixedUrl := by
  intro sym hbelow
  cases hbelow with
  | step hchild _ => cases hchild

theorem fixedUrl_tidy (ctx : EvalCtx) (s : Evaluator) : ¬Leaks ctx (fixedUrl.site s) := by
  have hvalue : fixedUrl.rootExpr = .literal (.string "mizu://a.mizu/next") := rfl
  refine (evaluate_restores_locals_iff ctx 0 fixedUrl.arena fixedUrl.rootExpr s).mp ?_
  rw [hvalue, evaluate_eq]
  rcases enter_cases s with ⟨e, hs⟩ | ⟨-, hs⟩
  · rw [bind_error hs]
    exact ⟨rfl, rfl, fun _ _ => rfl⟩
  · rw [bind_ok hs]
    exact ⟨rfl, rfl, fun _ _ => rfl⟩

/-- A document is accepted in which a field of a form decides where a timer navigates to. -/
theorem form_steers_timer :
    ¬∀ (platform : Platform) (order : HashOrder) (d : Document) (comps : List ComputedBinding)
      (metrics : Nat × Nat × Nat) (payload : ReloadPayload) (u : TabSession) (events : List (UiEvent × UiEvent)),
      d.Parsed → checkInformationFlow order d = .ok (comps, metrics) → ReloadOf d comps payload →
      (∀ pair ∈ events, SameButUntrusted d comps pair.1 pair.2) →
        timerNavigations platform u (.reload payload :: events.map (·.1)) =
          timerNavigations platform u (.reload payload :: events.map (·.2)) := by
  intro h
  let events : List (UiEvent × UiEvent) :=
    [(.submitForm 0 [("dest", .string "mizu://a.mizu/x")], .submitForm 0 [("dest", .string "mizu://a.mizu/y")]),
      (.rootTimer 0, .rootTimer 0)]
  have hsame : ∀ pair ∈ events, SameButUntrusted (timerDocument destUrl) [] pair.1 pair.2 := by
    intro pair hpair
    rcases mem_cons.mp hpair with rfl | hpair
    · exact .submit rfl
    · obtain rfl := mem_singleton.mp hpair
      exact .same nofun
  have hruns := h .plain .insertion (timerDocument destUrl) [] (0, 1, 0) (timerPayload destUrl) new events
    (timerDocument_parsed destUrl_known) rfl (timerPayload_reloadOf destUrl) hsame
  have hstart : ∀ rest, timerNavigations .plain new (.reload (timerPayload destUrl) :: rest) =
      timerNavigations .plain (new.loaded (timerPayload destUrl)) rest := by
    intro rest
    rw [← timerPayload_loaded]
    rfl
  rw [hstart, hstart] at hruns
  revert hruns
  decide

/-- A field that no expression of the document can name is kept from the timer. -/
theorem timerNavigations_confined_fixed :
    timerNavigations .plain new [.reload (timerPayload fixedUrl), .submitForm 0 [("note", .string "x")], .rootTimer 0] =
      timerNavigations .plain new [.reload (timerPayload fixedUrl), .submitForm 0 [("note", .string "y")],
        .rootTimer 0] := by
  have hparsed := timerDocument_parsed fixedUrl_known
  let events : List (UiEvent × UiEvent) :=
    [(.submitForm 0 [("note", .string "x")], .submitForm 0 [("note", .string "y")]), (.rootTimer 0, .rootTimer 0)]
  have hsame : ∀ pair ∈ events, SameButUntrusted (timerDocument fixedUrl) [] pair.1 pair.2 := by
    intro pair hpair
    rcases mem_cons.mp hpair with rfl | hpair
    · exact .submit rfl
    · obtain rfl := mem_singleton.mp hpair
      exact .same (by simp)
  have hclock : (timerDocument fixedUrl).ClockUndeclared := by
    intro f hget
    cases hget
  have hcheck : checkInformationFlow .insertion (timerDocument fixedUrl) = .ok ([], 0, 1, 0) := rfl
  refine timerNavigations_confined .plain .insertion hparsed hclock hcheck rfl
    (timerPayload_reloadOf fixedUrl) new events hsame ?_
  rw [timerPayload_loaded]
  have hnone : ∀ {u : TabSession} {D : Symbol → Prop}, u.computedVars = [] → ¬Waits D u := by
    rintro u D hu ⟨cb, hcb, -⟩
    rw [hu] at hcb
    cases hcb
  refine ⟨?_, ?_, trivial⟩
  · constructor
    case fields =>
      rintro id fields fields' hevent hevent'
      cases hevent
      cases hevent'
      refine .cons (.inr ?_) .nil
      intro sym hget
      cases hget
    case tidy | tidy' =>
      constructor
      · intro _ _ hpending
        cases hpending
      · intro _ _ hsite
        cases hsite
    case outcome => exact fun hwaits => absurd hwaits (hnone rfl)
    case messages =>
      intro _ _ hpending
      cases hpending
  · have htidy : ∀ (u : TabSession), u.rootTimerActions = [.navigate fixedUrl] → u.computedVars = [] →
        LeavesNoLocals .plain u (.rootTimer 0) := by
      intro u htimers hcomps
      have hpending : u.pendingAction (.rootTimer 0) = some (.navigate fixedUrl, u.clearUndo) := by
        simp only [pendingAction, htimers]
        rfl
      constructor
      · intro action v hpair site hsite
        rw [hpending] at hpair
        cases hpair
        cases hsite
        exact fixedUrl_tidy _ _
      · intro _ site hsite
        have hsites : ∀ s, compSites .plain (u.clearUndo.withEvaluator s) = [] := by
          intro s
          have hvars : (u.clearUndo.withEvaluator s).computedVars = [] := hcomps
          unfold compSites
          rw [hvars]
          rfl
        simp only [eventSites, hpending] at hsite
        split at hsite
        · rw [hsites] at hsite
          cases hsite
        · cases hsite
    constructor
    case fields =>
      intro _ _ _ hevent
      cases hevent
    case tidy => exact htidy _ rfl rfl
    case tidy' => exact htidy _ rfl rfl
    case outcome => exact fun hwaits => absurd hwaits (hnone rfl)
    case messages =>
      rintro action v hpending
      cases hpending
      trivial

end TabSession

end Mizu
