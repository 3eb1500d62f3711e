import Mizu.Logic.Current
import Mizu.LogicWorker.Failure

/-!
# Computed bindings over a run

* `comps_stay_current`: in a run that looks after its computed bindings each has the value of its expression
  after every event.
* `form_overwrites_comp`: a field of a form replaces the value of the computed binding it is named like.
-/

namespace Mizu

open Exec List

/-- The bindings are those the parser made of a document. The flow check has marked some as tainted. -/
def ReloadPayload.Accepted (payload : ReloadPayload) : Prop :=
  ∃ max decls, parseComputedWithFunctions payload.logicFns max decls =
    .ok (payload.computedBindings.map ({ · with tainted := false }))

/-- A document that is accepted can be kept up to date, if its names are distinct and nothing reads itself. -/
theorem ReloadPayload.Accepted.maintainable {payload : ReloadPayload} (h : payload.Accepted)
    (hnames : (payload.computedBindings.map (·.name)).Nodup)
    (hself : ∀ cb ∈ payload.computedBindings, ¬cb.ReadsItself payload.logicFns) :
    Maintainable payload.logicFns payload.computedBindings := by
  obtain ⟨max, decls, hparse⟩ := h
  have hunmarked : ∀ cb ∈ payload.computedBindings, ∃ decl ∈ decls,
      ParsedFrom payload.logicFns decl { cb with tainted := false } :=
    fun cb hcb => parseComputed_mem hparse (mem_map_of_mem hcb)
  have hnames' : ((payload.computedBindings.map ({ · with tainted := false })).map (·.name)).Nodup := by grind
  constructor
  case names => exact hnames
  case later => exact pairwise_map.mp (parsed_later hparse hnames')
  case self => exact fun cb hcb => parsed_not_self hparse { cb with tainted := false } (mem_map_of_mem hcb)
  case within =>
    intro cb hcb
    obtain ⟨decl, -, hfrom⟩ := hunmarked cb hcb
    exact hfrom.within_dependsOn (hself cb hcb)

/-- The variables an event itself writes, before any action. -/
def UiEvent.writes : UiEvent → List String
  | .submitForm _ fields => "$form" :: fields.map (·.1)
  | .updateVariable name _ => [name]
  | _ => []

namespace TabSession

section Upkeep

variable (platform : Platform)

def compNames (t : TabSession) : List Symbol := t.computedVars.map (·.name)

/-- Each computed binding has the value of its expression. -/
def Consistent (t : TabSession) : Prop :=
  ∀ cb ∈ t.computedVars, cb.Current (t.ctx platform) t.store.evaluator

/-- The session an event recomputes the bindings in, if it comes to that. -/
def beforeRecompute (t : TabSession) : UiEvent → Option TabSession
  | .submitForm submitterNodeId fields =>
    some ((t.setFields fields).runSubmit platform (t.submitActions.lookup submitterNodeId))
  | .updateVariable name v => some (t.clearUndo.setRuntime name v)
  | event =>
    match t.pendingAction event with
    | some (action, u) =>
      match executeAction (t.ctx platform) action u.store.evaluator with
      | .ok _ s => some (u.withEvaluator s)
      | .error _ _ => none
    | none => none

/-- The bindings `recompute_after_mutation` looks at, each with the pools it is given. -/
def compRuns (t : TabSession) : List (ComputedBinding × Pools) :=
  recomputeRuns (t.ctx platform) t.computedVars (t.store.evaluator.undoLog.map (·.1)).toFinset
    t.computedReverseIndex t.store.evaluator

/-- The first evaluation of a document's bindings brings each up to date. -/
structure StartsCurrent (t : TabSession) : Prop where
  names : t.compNames.Nodup
  self : ∀ cb ∈ t.computedVars, ¬cb.ReadsItself t.logicFns
  tidy : ∀ site ∈ functionSites (t.ctx platform) (platform.functionOrder.list t.logicFns) t.store.evaluator,
    ¬Leaks (t.ctx platform) site
  runs : let u := t.initFunctions platform
    ∀ cb p, (cb, p) ∈ recomputeRuns (u.ctx platform) u.computedVars u.store.evaluator.globalStore.keys
        u.computedReverseIndex u.store.evaluator →
      Settles (u.ctx platform) u.store.evaluator.maxInstructions cb p
  /-- A binding that is not evaluated has no value yet. -/
  skipped : let u := t.initFunctions platform
    ∀ cb ∈ u.computedVars,
      (∀ dep ∈ cb.dependsOn, dep ∉ (recomputeComputedBindings (u.ctx platform) u.computedVars
        u.store.evaluator.globalStore.keys u.computedReverseIndex u.store.evaluator).2) →
      (cb.dependsOn = [] → (u.store.evaluator.getGlobal cb.name).isNull = false) →
      ∃ e s, cb.value (u.ctx platform) u.store.evaluator = .error e s

/-- An event that looks after the computed bindings. -/
structure Upkeep (t : TabSession) (event : UiEvent) : Prop where
  writes : ∀ name ∈ event.writes, ∀ sym, t.store.interner.get name = some sym → sym ∉ t.compNames
  tidy : ∀ action u, t.pendingAction event = some (action, u) →
    ∀ site, ActionEval (t.ctx platform) action u.store.evaluator site → ¬Leaks (t.ctx platform) site
  runs : ∀ u, t.beforeRecompute platform event = some u → ∀ cb p, (cb, p) ∈ u.compRuns platform →
    Settles (t.ctx platform) u.store.evaluator.maxInstructions cb p
  errors : ∀ u, t.beforeRecompute platform event = some u → ∀ error ∈ u.aliasErrors,
    ∀ sym, t.store.interner.get error.1 = some sym →
      sym ∉ t.compNames ∧ ∀ cb ∈ t.computedVars, sym ∉ cb.dependsOn
  reload : ∀ payload, event = .reload payload → StartsCurrent platform (t.loaded payload)

end Upkeep

/-! ## The parts of an event -/

section Parts

variable {platform : Platform} {t u : TabSession} {event : UiEvent}

theorem applyEvent_of_before (h : t.beforeRecompute platform event = some u) :
    (t.applyEvent platform event).2 = ((u.recomputeAfterMutation platform).buildResponse platform false).2 := by
  have haction : ∀ {action : Action} {gesture : Bool},
      (match executeAction (t.ctx platform) action t.clearUndo.store.evaluator with
        | .ok _ s => some (t.clearUndo.withEvaluator s)
        | .error _ _ => none) = some u →
      (t.executeActionAndBuild platform action gesture).2 =
        ((u.recomputeAfterMutation platform).buildResponse platform false).2 := by
    intro action gesture hrun
    unfold executeActionAndBuild
    cases hexec : executeAction (t.ctx platform) action t.clearUndo.store.evaluator with
    | error e s => simp [hexec] at hrun
    | ok b s =>
      rw [hexec] at hrun
      obtain rfl : t.clearUndo.withEvaluator s = u := Option.some.inj hrun
      have hctx : t.clearUndo.ctx platform = t.ctx platform := rfl
      dsimp only
      rw [hctx, hexec]
      rfl
  cases event with
  | closeTab => cases h
  | reload payload => cases h
  | submitForm | updateVariable =>
    obtain rfl := Option.some.inj h
    rfl
  | click nodeId => grind [beforeRecompute, pendingAction, applyEvent]
  | rootTimer index => grind [beforeRecompute, pendingAction, applyEvent]

/-- An event that does not come to a recomputation may leave locals behind, but no more. -/
theorem applyEvent_of_none (h : t.beforeRecompute platform event = none)
    (hreload : ∀ payload, event ≠ .reload payload) :
    (t.applyEvent platform event).2 = t ∨
      ∃ action e s', t.pendingAction event = some (action, t.clearUndo) ∧
        executeAction (t.ctx platform) action t.clearUndo.store.evaluator = .error e s' ∧
        (t.applyEvent platform event).2 = t.withEvaluator { t.store.evaluator with
          locals := s'.locals, instructionCount := s'.instructionCount, undoLog := [] } := by
  have haction : ∀ {action : Action} {gesture : Bool},
      (match executeAction (t.ctx platform) action t.clearUndo.store.evaluator with
        | .ok _ s => some (t.clearUndo.withEvaluator s)
        | .error _ _ => none) = none →
      ∃ e s', executeAction (t.ctx platform) action t.clearUndo.store.evaluator = .error e s' ∧
        (t.executeActionAndBuild platform action gesture).2 = t.withEvaluator { t.store.evaluator with
          locals := s'.locals, instructionCount := s'.instructionCount, undoLog := [] } := by
    intro action gesture hrun
    cases hexec : executeAction (t.ctx platform) action t.clearUndo.store.evaluator with
    | ok b s => simp [hexec] at hrun
    | error e s =>
      exact ⟨e, s, rfl, by rw [executeActionAndBuild_error hexec]⟩
  cases event with
  | closeTab => exact .inl rfl
  | reload payload => exact absurd rfl (hreload payload)
  | submitForm | updateVariable => cases h
  | click nodeId =>
    simp only [beforeRecompute, pendingAction] at h
    simp only [applyEvent, pendingAction]
    cases hlookup : t.clickActions.lookup nodeId with
    | none => exact .inl rfl
    | some action =>
      rw [hlookup] at h
      obtain ⟨e, s', hexec, hend⟩ := @haction action true h
      exact .inr ⟨action, e, s', rfl, hexec, hend⟩
  | rootTimer index =>
    simp only [beforeRecompute, pendingAction] at h
    simp only [applyEvent, pendingAction]
    cases hlookup : t.rootTimerActions[index]? with
    | none => exact .inl rfl
    | some action =>
      rw [hlookup] at h
      obtain ⟨e, s', hexec, hend⟩ := @haction action false h
      exact .inr ⟨action, e, s', rfl, hexec, hend⟩

end Parts

/-! ## What is written before a recomputation -/

section Prepared

variable {platform : Platform} {t u : TabSession} {event : UiEvent}

/-- A session in which the event has written variables, but no computed binding. -/
structure Prepared (t u : TabSession) : Prop where
  rest : u = t.withEvaluator u.store.evaluator
  tracks : Tracks t.store.evaluator u.store.evaluator
  spared : ∀ entry ∈ u.store.evaluator.undoLog, entry.1 ∉ t.compNames
  locals : u.store.evaluator.locals = .empty
  max : u.store.evaluator.maxInstructions = t.store.evaluator.maxInstructions
  depth : u.store.evaluator.evalDepth = t.store.evaluator.evalDepth
  computed : u.store.evaluator.computedVarSyms = t.store.evaluator.computedVarSyms

/-- What `set_runtime` logs is the variable it writes. -/
theorem mem_log_setRuntime {s : Evaluator} {interner : Interner} {name : String} {v : Value}
    {entry : Symbol × Value} (h : entry ∈ (s.setRuntime interner name v).undoLog) :
    entry ∈ s.undoLog ∨ interner.get name = some entry.1 := by
  unfold Evaluator.setRuntime at h
  split at h
  · rename_i sym hsym
    rcases mem_append.mp h with hold | hnew
    · exact .inl hold
    · obtain rfl := mem_singleton.mp hnew
      exact .inr hsym
  · exact .inl h

/-- Limits and computed names stay as they are for a whole document. -/
structure SameLimits (s₀ s : Evaluator) : Prop where
  max : s.maxInstructions = s₀.maxInstructions
  depth : s.evalDepth = s₀.evalDepth
  computed : s.computedVarSyms = s₀.computedVarSyms

theorem sameLimits_invariant (s₀ : Evaluator) : StoreInvariant (SameLimits s₀) where
  kept hkept h := ⟨hkept.maxInstructions.trans h.max, hkept.evalDepth.trans h.depth,
    hkept.computedVarSyms.trans h.computed⟩
  setGlobal _ _ h := ⟨h.max, h.depth, h.computed⟩

theorem Prepared.start (hlocals : t.store.evaluator.locals = .empty) : Prepared t t.clearUndo where
  rest := rfl
  tracks := t.clearUndo_tracks
  spared := nofun
  locals := hlocals
  max := rfl
  depth := rfl
  computed := rfl

theorem Prepared.setRuntime (h : Prepared t u) {name : String} (v : Value)
    (hname : ∀ sym, t.store.interner.get name = some sym → sym ∉ t.compNames) :
    Prepared t (u.setRuntime name v) := by
  have hlogged := setRuntime_logged t.store.evaluator u name v
  have hlimits := (sameLimits_invariant t.store.evaluator).setRuntime ⟨h.max, h.depth, h.computed⟩
    u.store.interner name v
  have hinterner : u.store.interner = t.store.interner := by rw [h.rest]; rfl
  have hevaluator : (u.setRuntime name v).store.evaluator =
      u.store.evaluator.setRuntime u.store.interner name v :=
    u.store.setRuntime_evaluator name v
  rw [← hevaluator] at hlimits
  constructor
  case rest =>
    rw [hlogged.rest]
    exact congrArg (fun x => x.withEvaluator (u.setRuntime name v).store.evaluator) h.rest
  case tracks => exact hlogged.tracks h.tracks
  case spared =>
    rw [hevaluator, hinterner]
    intro entry hmem
    rcases mem_log_setRuntime hmem with hold | hnew
    · exact h.spared entry hold
    · exact hname entry.1 hnew
  case locals => exact (setRuntime_onlyWrites u name v).locals.trans h.locals
  case max => exact hlimits.max
  case depth => exact hlimits.depth
  case computed => exact hlimits.computed

theorem Prepared.setFields (hlocals : t.store.evaluator.locals = .empty) {fields : List (String × Value)}
    (hnames : ∀ name ∈ "$form" :: fields.map (·.1), ∀ sym,
      t.store.interner.get name = some sym → sym ∉ t.compNames) : Prepared t (t.setFields fields) := by
  have hform := (Prepared.start hlocals).setRuntime (Value.recordFromUnsorted fields)
    (hnames "$form" mem_cons_self)
  have hfields : ∀ name ∈ fields.map (·.1), ∀ sym,
      t.store.interner.get name = some sym → sym ∉ t.compNames :=
    fun name hmem => hnames name (mem_cons_of_mem _ hmem)
  unfold TabSession.setFields
  generalize t.clearUndo.setRuntime "$form" (Value.recordFromUnsorted fields) = u at hform
  clear hnames
  induction fields generalizing u with
  | nil => exact hform
  | cons field fields ih =>
    obtain ⟨name, v⟩ := field
    refine ih (fun name' hmem => hfields name' (mem_cons_of_mem _ hmem)) _ ?_
    exact hform.setRuntime v (hfields name mem_cons_self)

theorem Prepared.runAction (h : Prepared t u) {action : Action}
    (hsyms : ∀ sym, sym ∈ t.compNames → sym ∈ t.store.evaluator.computedVarSyms)
    (htidy : ∀ site, ActionEval (t.ctx platform) action u.store.evaluator site →
      ¬Leaks (t.ctx platform) site) :
    Prepared t (u.withEvaluator
      (finalState (executeAction (t.ctx platform) action u.store.evaluator))) := by
  have hlimits := (sameLimits_invariant t.store.evaluator).executeAction (t.ctx platform) action
    ⟨h.max, h.depth, h.computed⟩ (fun s a _ _ hs => ⟨hs.max, hs.depth, hs.computed⟩)
  have hlocals := (executeAction_locals (t.ctx platform) action u.store.evaluator).mpr htidy
  have hinterner : (t.ctx platform).interner = t.store.interner := rfl
  constructor
  case rest =>
    exact congrArg (fun x => x.withEvaluator (finalState (executeAction (t.ctx platform) action
      u.store.evaluator))) h.rest
  case tracks => exact executeAction_tracks (t.ctx platform) h.tracks
  case spared =>
    dsimp only [withEvaluator]
    cases hrun : executeAction (t.ctx platform) action u.store.evaluator with
    | error e s' =>
      rw [finalState_error, (executeAction_error _ hrun).undoLog]
      exact h.spared
    | ok b s' =>
      obtain ⟨s, hreturned, hfinishes⟩ := executeAction_ok _ hrun
      have hbefore : ∀ entry ∈ s.undoLog, entry.1 ∉ t.compNames := hreturned.undoLog ▸ h.spared
      rw [finalState_ok]
      cases hfinishes with
      | assign v hcomputed =>
        intro entry hmem
        rcases mem_log_setRuntime hmem with hold | hnew
        · exact hbefore entry hold
        · intro hcomp
          exact hcomputed entry.1 hnew (h.computed ▸ hsyms entry.1 hcomp)
      | eval | navigate | networkCall => exact hbefore
  case locals => exact hlocals.trans h.locals
  case max => exact hlimits.max
  case depth => exact hlimits.depth
  case computed => exact hlimits.computed

end Prepared

/-! ## The bindings after an event -/

section Maintained

variable {platform : Platform} {t u : TabSession} {event : UiEvent}

/-- A session whose computed bindings are and can be kept up to date. -/
structure Maintained (platform : Platform) (t : TabSession) : Prop where
  consistent : t.Consistent platform
  bindings : Maintainable t.logicFns t.computedVars
  index : t.computedReverseIndex = buildCompReverseIndex t.computedVars
  syms : t.store.evaluator.computedVarSyms = t.compNames.toFinset
  locals : t.store.evaluator.locals = .empty

theorem Prepared.before (hlocals : t.store.evaluator.locals = .empty)
    (hsyms : t.store.evaluator.computedVarSyms = t.compNames.toFinset) (h : Upkeep platform t event)
    (hbefore : t.beforeRecompute platform event = some u) : Prepared t u := by
  have hcomputed : ∀ sym, sym ∈ t.compNames → sym ∈ t.store.evaluator.computedVarSyms := by grind [mem_toFinset]
  have haction : ∀ {action : Action}, (∀ site, ActionEval (t.ctx platform) action
        t.clearUndo.store.evaluator site → ¬Leaks (t.ctx platform) site) →
      (match executeAction (t.ctx platform) action t.clearUndo.store.evaluator with
        | .ok _ s => some (t.clearUndo.withEvaluator s)
        | .error _ _ => none) = some u → Prepared t u := by
    intro action htidy hrun
    have hend := (Prepared.start hlocals).runAction hcomputed htidy
    cases hexec : executeAction (t.ctx platform) action t.clearUndo.store.evaluator with
    | error e s => simp [hexec] at hrun
    | ok b s =>
      rw [hexec] at hrun hend
      obtain rfl := Option.some.inj hrun
      exact hend
  cases event with
  | closeTab => cases hbefore
  | reload payload => cases hbefore
  | submitForm submitterNodeId fields =>
    obtain rfl := Option.some.inj hbefore
    have hfields := Prepared.setFields hlocals h.writes
    unfold runSubmit
    cases hlookup : t.submitActions.lookup submitterNodeId with
    | none => exact hfields
    | some action =>
      have htidy := h.tidy action (t.setFields fields) (by simp only [pendingAction, hlookup, Option.map_some])
      dsimp only
      rw [setFields_ctx]
      exact hfields.runAction hcomputed htidy
  | updateVariable name v =>
    obtain rfl := Option.some.inj hbefore
    exact (Prepared.start hlocals).setRuntime v (h.writes name mem_cons_self)
  | click nodeId =>
    simp only [beforeRecompute, pendingAction] at hbefore
    cases hlookup : t.clickActions.lookup nodeId with
    | none => simp [hlookup] at hbefore
    | some action =>
      rw [hlookup] at hbefore
      exact haction (h.tidy action t.clearUndo (by simp only [pendingAction, hlookup, Option.map_some])) hbefore
  | rootTimer index =>
    simp only [beforeRecompute, pendingAction] at hbefore
    cases hlookup : t.rootTimerActions[index]? with
    | none => simp [hlookup] at hbefore
    | some action =>
      rw [hlookup] at hbefore
      exact haction (h.tidy action t.clearUndo (by simp only [pendingAction, hlookup, Option.map_some])) hbefore

/-- A recomputation that has the budget for it brings every binding up to date. -/
theorem maintained_of_recompute (hbindings : Maintainable u.logicFns u.computedVars)
    (hindex : u.computedReverseIndex = buildCompReverseIndex u.computedVars)
    (hsyms : u.store.evaluator.computedVarSyms = u.compNames.toFinset)
    (hlocals : u.store.evaluator.locals = .empty) (mutated : Finset Symbol)
    (hruns : ∀ cb p, (cb, p) ∈ recomputeRuns (u.ctx platform) u.computedVars mutated u.computedReverseIndex
        u.store.evaluator → Settles (u.ctx platform) u.store.evaluator.maxInstructions cb p)
    (hstart : ∀ cb ∈ u.computedVars,
      (∀ dep ∈ cb.dependsOn, dep ∉ (recomputeComputedBindings (u.ctx platform) u.computedVars mutated
        u.computedReverseIndex u.store.evaluator).2) →
      (cb.dependsOn = [] → (u.store.evaluator.getGlobal cb.name).isNull = false) →
      cb.Current (u.ctx platform) u.store.evaluator) :
    Maintained platform (u.withEvaluator (recomputeComputedBindings (u.ctx platform) u.computedVars mutated
      u.computedReverseIndex u.store.evaluator).1) := by
  have hlimits := (sameLimits_invariant u.store.evaluator).recompute (u.ctx platform) u.computedVars mutated
    u.computedReverseIndex ⟨rfl, rfl, rfl⟩
  refine ⟨?_, hbindings, hindex, hlimits.computed.trans hsyms, recompute_locals_empty hlocals hruns⟩
  rw [hindex] at hruns hstart ⊢
  exact recompute_current hbindings hlocals hruns hstart

/-- What `recompute_after_mutation` leaves is up to date, if what nothing was logged for was. -/
theorem maintained_recompute (hbindings : Maintainable u.logicFns u.computedVars)
    (hindex : u.computedReverseIndex = buildCompReverseIndex u.computedVars)
    (hsyms : u.store.evaluator.computedVarSyms = u.compNames.toFinset)
    (hlocals : u.store.evaluator.locals = .empty)
    (hruns : ∀ cb p, (cb, p) ∈ u.compRuns platform →
      Settles (u.ctx platform) u.store.evaluator.maxInstructions cb p)
    (hstart : ∀ cb ∈ u.computedVars,
      (∀ dep ∈ cb.dependsOn, ∀ entry ∈ u.store.evaluator.undoLog, entry.1 ≠ dep) →
      cb.Current (u.ctx platform) u.store.evaluator) :
    Maintained platform (u.recomputeAfterMutation platform) := by
  unfold recomputeAfterMutation mapEvaluator
  split
  · rename_i hnone
    refine ⟨fun cb hcb => ?_, hbindings, hindex, hsyms, hlocals⟩
    rw [isEmpty_iff.mp hnone] at hcb
    cases hcb
  · unfold compRuns at hruns
    dsimp only
    generalize hlog : (u.store.evaluator.undoLog.map (·.1)).toFinset = mutated at hruns
    refine maintained_of_recompute hbindings hindex hsyms hlocals mutated hruns fun cb hcb hreads _ => ?_
    refine hstart cb hcb fun dep hdep entry hentry heq => hreads dep hdep ?_
    have hmutated : dep ∈ mutated := by grind [mem_toFinset]
    exact mutated_subset_recompute (u.ctx platform) u.computedVars mutated u.computedReverseIndex
      u.store.evaluator hmutated

/-- A binding for none of whose dependencies anything was logged is as current as before the event. -/
theorem Prepared.current (h : Prepared t u) {cb : ComputedBinding} (hcb : cb ∈ t.computedVars)
    (hbindings : Maintainable t.logicFns t.computedVars)
    (hcurrent : cb.Current (t.ctx platform) t.store.evaluator)
    (hlocals : t.store.evaluator.locals = .empty)
    (hreads : ∀ dep ∈ cb.dependsOn, ∀ entry ∈ u.store.evaluator.undoLog, entry.1 ≠ dep) :
    cb.Current (t.ctx platform) u.store.evaluator := by
  have hunlogged : ∀ sym, (∀ entry ∈ u.store.evaluator.undoLog, entry.1 ≠ sym) →
      u.store.evaluator.getGlobal sym = t.store.evaluator.getGlobal sym :=
    fun sym hno => h.tracks.unlogged fun v hmem => hno (sym, v) hmem rfl
  have hsame : SameOutside (· ∉ cb.dependsOn) t.store.evaluator u.store.evaluator :=
    { globals := fun sym hsym => (hunlogged sym (hreads sym (not_not.mp hsym))).symm
      locals := hlocals.trans h.locals.symm
      max := h.max.symm
      depth := h.depth.symm
      computed := h.computed.symm }
  refine Current.of_same (hbindings.within cb hcb) hsame (hunlogged cb.name ?_) hcurrent
  rintro entry hentry heq
  exact h.spared entry hentry (heq ▸ mem_map_of_mem hcb)

end Maintained

/-! ## The messages -/

section Messages

variable {platform : Platform} {t u : TabSession} {event : UiEvent}

/-- A session that shows other values for the variables in `D`, if any. -/
structure DiffersIn (D : Symbol → Prop) (t u : TabSession) : Prop where
  rest : u = t.withEvaluator u.store.evaluator
  same : SameOutside D t.store.evaluator u.store.evaluator

variable {D : Symbol → Prop}

theorem surfaceAll_differsIn {errors : List (String × Value)}
    {acc : TabSession × List (Symbol × Value)} (h : DiffersIn D t acc.1)
    (herrors : ∀ error ∈ errors, ∀ sym, t.store.interner.get error.1 = some sym → D sym) :
    DiffersIn D t (errors.foldl surface acc).1 := by
  induction errors generalizing acc with
  | nil => exact h
  | cons error errors ih =>
    refine ih ?_ fun error' hmem => herrors error' (mem_cons_of_mem _ hmem)
    have hinterner : acc.1.store.interner = t.store.interner := by rw [h.rest]; rfl
    unfold surface
    rw [hinterner]
    cases hget : t.store.interner.get error.1 with
    | none => exact h
    | some sym =>
      have hset : acc.1.setRuntime error.1 error.2 =
          acc.1.withEvaluator (acc.1.store.evaluator.setGlobal sym error.2) := by
        rw [setRuntime_eq, hinterner]
        unfold mapEvaluator Evaluator.setRuntime
        rw [hget]
      constructor
      · rw [hset]
        exact congrArg (fun x => x.withEvaluator (acc.1.store.evaluator.setGlobal sym error.2)) h.rest
      · rw [hset]
        exact h.same.setGlobal (herrors error mem_cons_self sym hget) error.2

theorem buildResponse_differsIn (gesture : Bool)
    (herrors : ∀ error ∈ t.aliasErrors, ∀ sym, t.store.interner.get error.1 = some sym → D sym) :
    DiffersIn D t (t.buildResponse platform gesture).2 := by
  have hdrained : DiffersIn D t
      (t.mapEvaluator fun s => { s with undoLog := [], accumulatedActions := [] }) :=
    ⟨rfl, fun _ _ => rfl, rfl, rfl, rfl, rfl⟩
  exact @surfaceAll_differsIn t D t.aliasErrors (_, mutatedVariables platform t.store.evaluator) hdrained herrors

/-- A recomputation queues no action that a message comes from. -/
theorem recompute_aliasErrors (platform : Platform) (u : TabSession) :
    (u.recomputeAfterMutation platform).aliasErrors = u.aliasErrors := by
  have hkeeps : StoreInvariant fun s => (u.withEvaluator s).aliasErrors = u.aliasErrors := by
    constructor
    · intro s s' hkept hs
      obtain ⟨as, has, hfrom⟩ := hkept.actions
      have hs' : (s.accumulatedActions.map (resolveOneAction u)).flatMap (·.2) = u.aliasErrors := hs
      show (s'.accumulatedActions.map (resolveOneAction u)).flatMap (·.2) = u.aliasErrors
      rw [has, map_append, flatMap_append, hs', noErrors_of_fromExpr hfrom, append_nil]
    · exact fun _ _ hs => hs
  unfold recomputeAfterMutation
  split
  · rfl
  · exact hkeeps.recompute _ _ _ _ rfl

/-- A session stays maintained if no binding and no dependency of one is written. -/
theorem Maintained.differsIn (h : Maintained platform t) (hdiffers : DiffersIn D t u)
    (hnames : ∀ cb ∈ t.computedVars, ¬D cb.name) (hdeps : ∀ cb ∈ t.computedVars, ∀ dep ∈ cb.dependsOn, ¬D dep) :
    Maintained platform u := by
  obtain ⟨hrest, hsame⟩ := hdiffers
  generalize u.store.evaluator = s at hrest hsame
  subst hrest
  refine ⟨fun cb hcb => ?_, h.bindings, h.index, hsame.computed.symm.trans h.syms,
    hsame.locals.symm.trans h.locals⟩
  have hown := (hsame.globals cb.name (hnames cb hcb)).symm
  refine Current.of_same (h.bindings.within cb hcb) (hsame.mono fun sym hD hdep => ?_) hown
    (h.consistent cb hcb)
  exact hdeps cb hcb sym hdep hD

end Messages

/-! ## Events -/

section Events

variable {platform : Platform} {t u : TabSession} {event : UiEvent}

theorem recompute_withEvaluator (platform : Platform) (u : TabSession) :
    u.recomputeAfterMutation platform =
      u.withEvaluator (u.recomputeAfterMutation platform).store.evaluator :=
  (recompute_logged platform u.store.evaluator u).rest

theorem Maintained.recomputed (h : Maintained platform t) (hup : Upkeep platform t event)
    (hbefore : t.beforeRecompute platform event = some u) :
    Maintained platform (t.applyEvent platform event).2 := by
  have hprepared := Prepared.before h.locals h.syms hup hbefore
  have hruns := hup.runs u hbefore
  have herrors := hup.errors u hbefore
  rw [applyEvent_of_before hbefore]
  obtain ⟨s, rfl⟩ : ∃ s, u = t.withEvaluator s := ⟨_, hprepared.rest⟩
  have hrecomputed : Maintained platform ((t.withEvaluator s).recomputeAfterMutation platform) :=
    maintained_recompute h.bindings h.index (hprepared.computed.trans h.syms) hprepared.locals hruns
      fun cb hcb hreads => hprepared.current hcb h.bindings (h.consistent cb hcb) h.locals hreads
  have hmessages := recompute_aliasErrors platform (t.withEvaluator s)
  rw [recompute_withEvaluator] at hrecomputed hmessages ⊢
  refine hrecomputed.differsIn (D := fun sym => sym ∉ t.compNames ∧ ∀ cb ∈ t.computedVars, sym ∉ cb.dependsOn)
    (buildResponse_differsIn false ?_) ?_ ?_
  · rw [hmessages]
    exact herrors
  · exact fun cb hcb hD => hD.1 (mem_map_of_mem hcb)
  · exact fun cb hcb dep hdep hD => hD.2 cb hcb hdep

theorem Maintained.unchanged (h : Maintained platform t) (hup : Upkeep platform t event)
    (hbefore : t.beforeRecompute platform event = none) (hreload : ∀ payload, event ≠ .reload payload) :
    Maintained platform (t.applyEvent platform event).2 := by
  rcases applyEvent_of_none hbefore hreload with heq | ⟨action, e, s', hpending, hfails, heq⟩
  · rw [heq]
    exact h
  · have hlocals := (executeAction_locals (t.ctx platform) action t.clearUndo.store.evaluator).mpr
      (hup.tidy action t.clearUndo hpending)
    rw [hfails, finalState_error] at hlocals
    rw [heq]
    exact h.differsIn (D := fun _ => False) ⟨rfl, fun _ _ => rfl, hlocals.symm, rfl, rfl, rfl⟩ (fun _ _ => id)
      fun _ _ _ _ => id

/-! ## A reload -/

theorem initFunctions_locals {ctx : EvalCtx} {order : List Symbol} {s : Evaluator}
    (h : ∀ site ∈ functionSites ctx order s, ¬Leaks ctx site) :
    (order.foldl (initFunction ctx) s).locals = s.locals := by
  induction order generalizing s with
  | nil => rfl
  | cons f order ih =>
    have hrest := ih fun site hsite => h site (mem_append_right _ hsite)
    refine hrest.trans ?_
    unfold initFunction
    cases hfunc : ctx.functions.lookup f with
    | none => rfl
    | some func =>
      dsimp only
      by_cases hparams : func.params.isEmpty = true
      · have htidy := h (initSite s func) (mem_append_left _ (by simp [hfunc, hparams]))
        have hrestored := (evaluate_restores_locals_iff ctx 0 func.body.arena func.body.rootExpr
          { s with instructionCount := 0 }).mpr htidy
        rw [if_pos hparams]
        unfold evalTree
        cases hrun : evaluate ctx 0 func.body.arena func.body.rootExpr { s with instructionCount := 0 } with
        | ok | error =>
          rw [hrun] at hrestored
          exact hrestored.1
      · rw [if_neg hparams]

theorem loaded_evaluator (payload : ReloadPayload) (t : TabSession) :
    (t.loaded payload).store.evaluator.locals = .empty := by
  have key : ∀ (vars : List (String × Value)) (store : VariableStore), store.evaluator.locals = .empty →
      (vars.foldl (fun store var => store.setRuntime var.1 var.2) store).evaluator.locals = .empty := by
    intro vars
    induction vars with
    | nil => exact fun _ h => h
    | cons var vars ih =>
      intro store h
      refine ih _ ?_
      rw [VariableStore.setRuntime_evaluator]
      unfold Evaluator.setRuntime
      split
      · exact h
      · exact h
  exact key payload.initialVariables (.withInterner payload.interner) rfl

theorem maintained_reload {payload : ReloadPayload} (haccepted : payload.Accepted)
    (h : StartsCurrent platform (t.loaded payload)) :
    Maintained platform (t.applyReload platform payload).2 := by
  have hbindings := haccepted.maintainable h.names h.self
  have hlocals : ((t.loaded payload).initFunctions platform).store.evaluator.locals = .empty :=
    (initFunctions_locals h.tidy).trans (loaded_evaluator payload t)
  have hlimits := (sameLimits_invariant (t.loaded payload).store.evaluator).initFunctions platform
    ⟨rfl, rfl, rfl⟩
  have hruns := h.runs
  have hskipped := h.skipped
  have hcomps : Maintained platform (((t.loaded payload).initFunctions platform).initComps platform) := by
    dsimp only at hruns hskipped
    have hsyms := hlimits.computed
    generalize hinit : (t.loaded payload).initFunctions platform = u at hlocals hruns hskipped hsyms
    have hcomputed : u.computedVars = payload.computedBindings := by rw [← hinit]; rfl
    have hfunctions : u.logicFns = payload.logicFns := by rw [← hinit]; rfl
    have hindex : u.computedReverseIndex = buildCompReverseIndex u.computedVars := by rw [← hinit]; rfl
    unfold initComps mapEvaluator
    dsimp only
    refine maintained_of_recompute (hcomputed ▸ hfunctions ▸ hbindings) hindex ?_ hlocals
      u.store.evaluator.globalStore.keys hruns fun cb hcb hreads hnull => ?_
    · rw [hsyms]
      unfold compNames
      rw [hcomputed]
      rfl
    · grind [Current.of_error]
  have hactions : ExprActions (((t.loaded payload).initFunctions platform).initComps platform).store.evaluator :=
    ExprActions.invariant.initComps platform
      (ExprActions.invariant.initFunctions platform (loaded_exprActions payload t))
  refine hcomps.differsIn (D := fun _ => False) (buildResponse_differsIn false ?_) (fun _ _ => id)
    fun _ _ _ _ => id
  rw [aliasErrors_eq_nil hactions]
  exact fun _ hno => nomatch hno

theorem Maintained.applyEvent (h : Maintained platform t) (hup : Upkeep platform t event)
    (haccepted : ∀ payload, event = .reload payload → payload.Accepted) :
    Maintained platform (t.applyEvent platform event).2 := by
  by_cases hreload : ∃ payload, event = .reload payload
  · obtain ⟨payload, rfl⟩ := hreload
    exact maintained_reload (haccepted payload rfl) (hup.reload payload rfl)
  · cases hbefore : t.beforeRecompute platform event with
    | some u => exact h.recomputed hup hbefore
    | none => exact h.unchanged hup hbefore fun payload heq => hreload ⟨payload, heq⟩

end Events

/-- In a run of a tab whose events look after the computed bindings, each has the value of its expression
after every event. -/
theorem comps_stay_current (platform : Platform) (defer : Bool) (events : List UiEvent)
    (haccepted : ∀ payload, .reload payload ∈ events → payload.Accepted)
    (h : EachEvent platform (Upkeep platform) { new with deferAliasResolution := defer } events) :
    EachEvent platform (fun t event => (t.applyEvent platform event).2.Consistent platform)
      { new with deferAliasResolution := defer } events := by
  -- The session before an event is maintained; so is the one after it.
  have key : ∀ (events : List UiEvent) (t : TabSession), Maintained platform t →
      (∀ payload, .reload payload ∈ events → payload.Accepted) → EachEvent platform (Upkeep platform) t events →
      EachEvent platform (fun t event => (t.applyEvent platform event).2.Consistent platform) t events := by
    intro events
    induction events with
    | nil => exact fun _ _ _ _ => trivial
    | cons event events ih =>
      rintro t ht haccepted ⟨hup, hrest⟩
      have hnext := ht.applyEvent hup fun payload heq => haccepted payload (heq ▸ mem_cons_self)
      exact ⟨hnext.consistent, ih _ hnext (fun payload hmem => haccepted payload (mem_cons_of_mem _ hmem))
        hrest⟩
  refine key events _ ⟨nofun, ⟨.nil, .nil, nofun, nofun⟩, rfl, rfl, rfl⟩ haccepted h

/-! ## A document with `comp y = x` -/

def readerBinding : ComputedBinding where
  name := ⟨1⟩
  expr := readsFirst.expr
  dependsOn := [⟨0⟩]
  tainted := false

/-- `var x = 1`, `comp y = x`. -/
def readerDocument : ReloadPayload where
  logicFns := ∅
  clickActions := ∅
  submitActions := ∅
  rootTimerActions := []
  interner := .ofNames ["x", "y"]
  initialVariables := [("x", .int 1)]
  urlRegistry := ∅
  documentDomain := ""
  computedBindings := [readerBinding]

theorem readerDocument_accepted : readerDocument.Accepted := ⟨500, [readsFirst], rfl⟩

theorem readerDocument_initFunctions :
    (new.loaded readerDocument).initFunctions .plain = new.loaded readerDocument := by
  have horder : TableOrder.ascending.list readerDocument.logicFns = [] := by
    simp [TableOrder.ascending, readerDocument]
  unfold initFunctions Platform.plain
  dsimp only
  rw [show (new.loaded readerDocument).logicFns = readerDocument.logicFns from rfl, horder]
  rfl

/-- The tab it is loaded in. -/
def readerTab : TabSession :=
  (((new.loaded readerDocument).initComps .plain).buildResponse .plain false).2

theorem readerTab_eq : (new.applyEvent .plain (.reload readerDocument)).2 = readerTab := by
  simp only [applyEvent, applyReload, readerDocument_initFunctions]
  rfl

theorem readerDocument_starts : StartsCurrent .plain (new.loaded readerDocument) where
  names := by decide
  self cb hcb hreads := by
    obtain rfl := mem_singleton.mp hcb
    rcases hreads with hfree | ⟨e, c, f, hbelow, hcall, -⟩
    · cases hfree with
      | child _ hchild _ => cases hchild
    · cases hbelow with
      | step hchild _ => cases hchild
      | refl =>
        rcases hcall with ⟨_, _, heq⟩ | ⟨-, hno⟩
        · cases heq
        · exact Finmap.notMem_empty hno
  tidy site hsite := by
    have horder : TableOrder.ascending.list readerDocument.logicFns = [] := by
      simp [TableOrder.ascending, readerDocument]
    have hnone : Platform.plain.functionOrder.list (new.loaded readerDocument).logicFns = [] := horder
    rw [hnone] at hsite
    cases hsite
  runs := by
    rw [readerDocument_initFunctions]
    intro u cb p hmem
    have hruns : recomputeRuns (u.ctx .plain) u.computedVars u.store.evaluator.globalStore.keys
        u.computedReverseIndex u.store.evaluator = [(readerBinding, ⟨u.store.evaluator, 0, 0⟩)] := rfl
    rw [hruns] at hmem
    obtain ⟨rfl, rfl⟩ := Prod.mk.inj (mem_singleton.mp hmem)
    exact Settles.of_ok rfl rfl
  skipped := by
    rw [readerDocument_initFunctions]
    intro u cb hcb hreads _
    obtain rfl := mem_singleton.mp hcb
    have hx : (⟨0⟩ : Symbol) ∈ u.store.evaluator.globalStore.keys := by decide
    exact absurd (mutated_subset_recompute _ _ _ _ _ hx) (hreads ⟨0⟩ mem_cons_self)

theorem readerTab_upkeep : Upkeep .plain readerTab (.updateVariable "x" (.int 2)) where
  writes := by decide
  tidy _ _ hpending := absurd hpending.symm (Option.some_ne_none _)
  runs u hu cb p hmem := by
    obtain rfl := Option.some.inj hu
    have hruns : (readerTab.clearUndo.setRuntime "x" (.int 2)).compRuns .plain =
        [(readerBinding, ⟨(readerTab.clearUndo.setRuntime "x" (.int 2)).store.evaluator, 0, 0⟩)] := rfl
    rw [hruns] at hmem
    obtain ⟨rfl, rfl⟩ := Prod.mk.inj (mem_singleton.mp hmem)
    exact Settles.of_ok rfl rfl
  errors u hu error hmem := by
    obtain rfl := Option.some.inj hu
    cases hmem
  reload := nofun

/-- `y` follows `x`. -/
theorem comps_stay_current_reader :
    EachEvent .plain (fun t event => (t.applyEvent .plain event).2.Consistent .plain)
      { new with deferAliasResolution := false }
      [.reload readerDocument, .updateVariable "x" (.int 2)] := by
  have hupkeep : EachEvent .plain (Upkeep .plain) { new with deferAliasResolution := false }
      [.reload readerDocument, .updateVariable "x" (.int 2)] := by
    have htab : ({ new with deferAliasResolution := false } : TabSession) = new := rfl
    simp only [EachEvent, and_true, htab, readerTab_eq]
    refine ⟨⟨nofun, fun _ _ hpending => absurd hpending.symm (Option.some_ne_none _),
      fun _ hu => absurd hu.symm (Option.some_ne_none _),
      fun _ hu => absurd hu.symm (Option.some_ne_none _), fun payload heq => ?_⟩, readerTab_upkeep⟩
    obtain rfl := UiEvent.reload.inj heq
    exact readerDocument_starts
  refine comps_stay_current .plain false _ (fun payload hmem => ?_) hupkeep
  rcases mem_cons.mp hmem with heq | hmem
  · obtain rfl := UiEvent.reload.inj heq
    exact readerDocument_accepted
  · cases mem_singleton.mp hmem

/-- A form with a field `y` replaces the value of `comp y = x`, and nothing fails. -/
theorem form_overwrites_comp :
    ¬∀ (platform : Platform) (events : List UiEvent),
      (∀ payload, .reload payload ∈ events → payload.Accepted) →
      EachEvent platform (fun t event =>
        (∃ r, (t.applyEvent platform event).1 = some (.ok r)) →
        (∀ site ∈ eventSites platform t event, ∃ v s, site.run (eventCtx platform t event) = .ok v s) →
        (t.applyEvent platform event).2.Consistent platform) new events := by
  intro h
  obtain ⟨-, hsubmit, -⟩ := h .plain [.reload readerDocument, .submitForm 0 [("y", .int 3)]]
    (fun payload hmem => by
      rcases mem_cons.mp hmem with heq | hmem
      · obtain rfl := UiEvent.reload.inj heq
        exact readerDocument_accepted
      · cases mem_singleton.mp hmem)
  rw [readerTab_eq] at hsubmit
  have hsites : eventSites .plain readerTab (.submitForm 0 [("y", .int 3)]) = [] := rfl
  have hconsistent := hsubmit ⟨_, rfl⟩ (by rw [hsites]; exact nofun)
  have hcurrent := hconsistent readerBinding mem_cons_self
  have hstored : Value.int 3 = Value.int 1 := hcurrent
  cases hstored

end TabSession

end Mizu
