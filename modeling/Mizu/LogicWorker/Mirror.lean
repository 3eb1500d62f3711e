import Mizu.LogicWorker.Frame
import Mizu.Render.Capability
import Mizu.Types.Shape

/-!
# The window's copy of the variables

The window applies the changes that responses report to its own store.

* `buildResponse_mirrors`: a response reports every change an event made.
* `mirror_never_drifts`: after a reload the window's variables equal the session's, whatever events
  follow and whether they fail.
-/

namespace Mizu

open Exec List

variable {F : Frontend}

/-- The window shows the session's variables. -/
def Mirrors (tab : TabState F) (t : TabSession) : Prop :=
  ∀ sym, (tab.store.evaluator.getGlobal sym).NumEq (t.store.evaluator.getGlobal sym)

/-! ## What a response reports -/

section Report

variable (platform : Platform)

theorem mutatedVariables_value {s : Evaluator} {sym : Symbol} {v : Value}
    (h : (sym, v) ∈ mutatedVariables platform s) : v = s.getGlobal sym := by
  obtain ⟨sym', -, hentry⟩ := mem_filterMap.mp h
  split at hentry
  · split at hentry
    · cases hentry
      rfl
    · cases hentry
  · cases hentry

/-- A variable that is not reported has kept its value, up to the representation of numbers. -/
theorem numEq_of_not_mutated {s₀ s : Evaluator} (htracks : Tracks s₀ s) {sym : Symbol}
    (h : ∀ v, (sym, v) ∉ mutatedVariables platform s) :
    (s₀.getGlobal sym).NumEq (s.getGlobal sym) := by
  by_cases hlogged : ∃ v, (sym, v) ∈ s.undoLog
  · obtain ⟨v, hv⟩ := hlogged
    have horder : sym ∈ platform.valueOrder.list (s.undoLog.map (·.1)).reverse.dedup := by
      rw [(platform.valueOrder.perm _).mem_iff, mem_dedup, mem_reverse]
      exact mem_map.mpr ⟨_, hv, rfl⟩
    cases hfind : s.undoLog.find? (·.1 = sym) with
    | none =>
      have hno := List.find?_eq_none.mp hfind (sym, v) hv
      simp at hno
    | some entry =>
      have hold : s₀.getGlobal sym = entry.2 := by
        rw [htracks sym, hfind]
        rfl
      have hlookup : (originalValues s.undoLog).lookup sym = some entry.2 := by
        rw [originalValues_lookup, hfind]
        rfl
      cases hchanged : valueChanged platform.arcEq entry.2 (s.getGlobal sym) with
      | true =>
        refine absurd (mem_filterMap.mpr ⟨sym, horder, ?_⟩) (h (s.getGlobal sym))
        simp only [hlookup, hchanged, if_true]
      | false =>
        unfold valueChanged at hchanged
        split at hchanged
        · rename_i isEq n heq
          have hisEq : isEq = true := by simpa using hchanged
          rw [hold]
          exact Value.shape_of_budgetEq (hisEq ▸ heq)
        · cases hchanged
  · push Not at hlogged
    rw [htracks.unlogged hlogged]
    rfl

end Report

/-! ## Applying a report -/

variable {tab : TabState F} {t : TabSession}

section Apply

theorem applyMutations_append (tab : TabState F) (xs ys : List (Symbol × Value)) :
    tab.applyMutations (xs ++ ys) = (tab.applyMutations xs).applyMutations ys := by
  simp [TabState.applyMutations]

theorem applyMutations_getGlobal (tab : TabState F) (mutated : List (Symbol × Value))
    {f : Symbol → Value} (h : ∀ p ∈ mutated, p.2 = f p.1) (sym : Symbol) :
    (tab.applyMutations mutated).store.evaluator.getGlobal sym =
      if sym ∈ mutated.map (·.1) then f sym else tab.store.evaluator.getGlobal sym := by
  unfold TabState.applyMutations
  dsimp only
  generalize tab.store = store
  induction mutated generalizing store with
  | nil => rfl
  | cons p mutated ih =>
    rw [foldl_cons, ih (fun q hq => h q (by simp [hq]))]
    have hp : p.2 = f p.1 := h p (by simp)
    by_cases hmem : sym ∈ mutated.map (·.1)
    · simp [hmem]
    · by_cases hs : sym = p.1
      · subst hs
        rw [if_neg hmem, if_pos (by simp), ← hp]
        exact store.evaluator.getGlobal_setGlobal_self p.1 p.2
      · rw [if_neg hmem, if_neg (by simp [hs, hmem])]
        exact store.evaluator.getGlobal_setGlobal_of_ne hs p.2

theorem surface_mirrors {acc : TabSession × List (Symbol × Value)}
    (h : Mirrors (tab.applyMutations acc.2) acc.1) (errors : List (String × Value)) :
    Mirrors (tab.applyMutations (errors.foldl TabSession.surface acc).2)
      (errors.foldl TabSession.surface acc).1 := by
  induction errors generalizing acc with
  | nil => exact h
  | cons error errors ih =>
    refine ih ?_
    unfold TabSession.surface
    cases hget : acc.1.store.interner.get error.1 with
    | none => exact h
    | some sym =>
      intro sym'
      dsimp only
      rw [applyMutations_append]
      have hworker : (acc.1.setRuntime error.1 error.2).store.evaluator =
          acc.1.store.evaluator.setGlobal sym error.2 := by
        simp [TabSession.setRuntime, VariableStore.setRuntime, hget, VariableStore.setSymbol]
      rw [hworker]
      have htab := applyMutations_getGlobal (tab.applyMutations acc.2) [(sym, error.2)]
        (f := fun _ => error.2) (by simp) sym'
      rw [htab]
      by_cases hs : sym' = sym
      · subst hs
        simp [Value.NumEq]
      · rw [if_neg (by simpa using hs), acc.1.store.evaluator.getGlobal_setGlobal_of_ne hs]
        exact h sym'

/-- A response reports every change since `s₀`: a window that showed `s₀` then shows the session. -/
theorem buildResponse_mirrors (platform : Platform) (gesture : Bool) {s₀ : Evaluator}
    (htracks : Tracks s₀ t.store.evaluator)
    (htab : ∀ sym, (tab.store.evaluator.getGlobal sym).NumEq (s₀.getGlobal sym)) :
    Mirrors (tab.applyMutations (t.buildResponse platform gesture).1.stateUpdate.mutatedVariables)
      (t.buildResponse platform gesture).2 := by
  unfold TabSession.buildResponse
  dsimp only
  refine surface_mirrors ?_ _
  intro sym
  have hvalue : ∀ p ∈ mutatedVariables platform t.store.evaluator,
      p.2 = t.store.evaluator.getGlobal p.1 := fun p hp => mutatedVariables_value platform hp
  rw [applyMutations_getGlobal tab _ hvalue]
  show Value.NumEq _ (t.store.evaluator.getGlobal sym)
  by_cases hmem : sym ∈ (mutatedVariables platform t.store.evaluator).map (·.1)
  · rw [if_pos hmem]
    rfl
  · rw [if_neg hmem]
    refine (htab sym).trans (numEq_of_not_mutated platform htracks fun v hv => hmem ?_)
    exact mem_map.mpr ⟨_, hv, rfl⟩

end Apply

/-! ## Events -/

section Events

variable (platform : Platform)

/-- The window applies what a response reports; a failed event reports nothing. -/
def applyResult (tab : TabState F) : Option (Except MizuError WorkerResponse) → TabState F
  | some (.ok response) => tab.applyMutations response.stateUpdate.mutatedVariables
  | _ => tab

def UiEvent.isReload : UiEvent → Bool
  | .reload _ => true
  | _ => false

theorem executeActionAndBuild_mirrors (h : Mirrors tab t) (action : Action) (gesture : Bool) :
    Mirrors (applyResult tab (some (t.executeActionAndBuild platform action gesture).1))
      (t.executeActionAndBuild platform action gesture).2 := by
  unfold TabSession.executeActionAndBuild
  dsimp only
  have htracks : Tracks t.store.evaluator
      (finalState (executeAction (t.clearUndo.ctx platform) action t.clearUndo.store.evaluator)) :=
    executeAction_tracks _ t.clearUndo_tracks
  cases hrun : executeAction (t.clearUndo.ctx platform) action t.clearUndo.store.evaluator with
  | ok b s =>
    rw [hrun] at htracks
    have hlogged := TabSession.recompute_logged platform t.store.evaluator (t.clearUndo.withEvaluator s)
    exact buildResponse_mirrors platform gesture (hlogged.tracks htracks) h
  | error e s =>
    intro sym
    have hglobals := TabSession.rollback_globals rfl hrun
      t.clearUndo.store.evaluator.accumulatedActions.length
    have hsame : (TabSession.rollback t.clearUndo.store.evaluator.accumulatedActions.length s).getGlobal
        sym = t.store.evaluator.getGlobal sym := by
      unfold Evaluator.getGlobal
      rw [hglobals]
      rfl
    show Value.NumEq _ ((TabSession.rollback _ s).getGlobal sym)
    rw [hsame]
    exact h sym

theorem applyEvent_mirrors (h : Mirrors tab t) {event : UiEvent} (hevent : event.isReload = false) :
    Mirrors (applyResult tab (t.applyEvent platform event).1) (t.applyEvent platform event).2 := by
  cases event with
  | closeTab => exact h
  | reload payload => cases hevent
  | click nodeId =>
    simp only [TabSession.applyEvent]
    split
    · exact h
    · exact executeActionAndBuild_mirrors platform h _ true
  | rootTimer index =>
    simp only [TabSession.applyEvent]
    split
    · exact h
    · exact executeActionAndBuild_mirrors platform h _ false
  | submitForm nodeId fields =>
    have hfields := TabSession.setFields_logged t.store.evaluator fields t
    have hsubmit := TabSession.runSubmit_logged platform t.store.evaluator
      (t.submitActions.lookup nodeId) (t.setFields fields)
    have hrecompute := TabSession.recompute_logged platform t.store.evaluator
      ((t.setFields fields).runSubmit platform (t.submitActions.lookup nodeId))
    exact buildResponse_mirrors platform true
      (((hfields.trans hsubmit).trans hrecompute).tracks t.clearUndo_tracks) h
  | updateVariable name v =>
    have hset := TabSession.setRuntime_logged t.store.evaluator t.clearUndo name v
    have hrecompute := TabSession.recompute_logged platform t.store.evaluator
      (t.clearUndo.setRuntime name v)
    exact buildResponse_mirrors platform false ((hset.trans hrecompute).tracks t.clearUndo_tracks) h

end Events

/-! ## The reload -/

section Reload

theorem foldl_setRuntime_getGlobal (vars : List (String × Value)) (store : VariableStore)
    {f : Symbol → Value}
    (h : ∀ p ∈ vars, ∀ sym, store.interner.get p.1 = some sym → p.2 = f sym) (sym : Symbol) :
    (vars.foldl (fun store (k, v) => store.setRuntime k v) store).evaluator.getGlobal sym =
      if ∃ p ∈ vars, store.interner.get p.1 = some sym then f sym
      else store.evaluator.getGlobal sym := by
  induction vars generalizing store with
  | nil => simp
  | cons p vars ih =>
    have hinterner := store.setRuntime_interner p.1 p.2
    rw [foldl_cons, ih _ (by rw [hinterner]; exact fun q hq => h q (by simp [hq])), hinterner]
    by_cases hrest : ∃ q ∈ vars, store.interner.get q.1 = some sym
    · have hall : ∃ q ∈ p :: vars, store.interner.get q.1 = some sym := by grind
      rw [if_pos hrest, if_pos hall]
    · rw [if_neg hrest]
      rw [VariableStore.setRuntime_evaluator, Evaluator.setRuntime]
      cases hget : store.interner.get p.1 with
      | none => grind
      | some sym' =>
        by_cases hs : sym = sym'
        · subst hs
          rw [if_pos ⟨p, by simp, hget⟩, ← h p (by simp) sym hget]
          exact store.evaluator.getGlobal_setGlobal_self sym p.2
        · have hnone : ¬∃ q ∈ p :: vars, store.interner.get q.1 = some sym := by grind
          rw [if_neg hnone]
          exact store.evaluator.getGlobal_setGlobal_of_ne hs p.2

/-- Every variable that has a value has a name. -/
def NamedGlobals (store : VariableStore) : Prop :=
  ∀ sym, store.interner.resolve sym = none → store.evaluator.getGlobal sym = .null

/-- The payload of a reload carries the window's variables. -/
theorem loaded_getGlobal {host : Host} (hinterner : tab.store.interner.WellFormed)
    (hnamed : NamedGlobals tab.store) (t : TabSession) (sym : Symbol) :
    (t.loaded (tab.reloadPayload host)).store.evaluator.getGlobal sym =
      tab.store.evaluator.getGlobal sym := by
  have hvars : ∀ p ∈ tab.initialVariables, ∃ i : Nat, tab.store.interner.get p.1 = some ⟨i⟩ ∧
      p.2 = tab.store.evaluator.getGlobal ⟨i⟩ ∧ p.2 ≠ .null := by
    intro p hp
    obtain ⟨⟨name, i⟩, hmem, hentry⟩ := mem_filterMap.mp hp
    dsimp only at hentry
    split at hentry
    · cases hentry
    · rename_i hnull
      cases hentry
      refine ⟨i, hinterner.get_of_resolve (mem_zipIdx_iff_getElem?.mp hmem), rfl, ?_⟩
      intro heq
      refine hnull ?_
      rw [show tab.store.evaluator.getGlobal ⟨i⟩ = .null from heq]
      rfl
  have hstore := foldl_setRuntime_getGlobal tab.initialVariables
    (VariableStore.withInterner tab.store.interner) (f := tab.store.evaluator.getGlobal) ?_ sym
  · refine (show _ = _ from hstore).trans ?_
    split
    · rfl
    · rename_i hno
      show (Evaluator.new _).getGlobal sym = _
      have hnull : tab.store.evaluator.getGlobal sym = .null := by
        by_contra hne
        cases hname : tab.store.interner.resolve sym with
        | none => exact hne (hnamed sym hname)
        | some name =>
          refine hno ⟨(name, tab.store.evaluator.getGlobal sym), ?_, hinterner.get_of_resolve hname⟩
          refine mem_filterMap.mpr
            ⟨(name, sym.id), mem_zipIdx_iff_getElem?.mpr hname, ?_⟩
          have hnot : (tab.store.evaluator.getGlobal sym).isNull = false := by simp [Value.isNull]
          simp [hnot]
      rw [hnull]
      rfl
  · intro p hp sym' hget
    obtain ⟨i, hi, hvalue, -⟩ := hvars p hp
    obtain rfl := Option.some.inj (hi.symm.trans hget)
    exact hvalue

end Reload

/-! ## Runs -/

/-- Runs events on a session, while the window applies the responses. -/
def mirror (platform : Platform) : List UiEvent → TabState F × TabSession → TabState F × TabSession
  | [], x => x
  | event :: events, (tab, t) =>
    let (result, t) := t.applyEvent platform event
    mirror platform events (applyResult tab result, t)

/-- The window's tab and the session after the window has reloaded the document. -/
def reloaded (platform : Platform) (host : Host) (tab : TabState F) (t : TabSession) :
    TabState F × TabSession :=
  let (response, t) := t.applyReload platform (tab.reloadPayload host)
  (tab.applyMutations response.stateUpdate.mutatedVariables, t)

theorem reloaded_mirrors (platform : Platform) (host : Host)
    (hinterner : tab.store.interner.WellFormed) (hnamed : NamedGlobals tab.store) (t : TabSession) :
    Mirrors (reloaded platform host tab t).1 (reloaded platform host tab t).2 := by
  let t' := t.loaded (tab.reloadPayload host)
  have hfunctions := TabSession.initFunctions_logged platform t'.store.evaluator t'
  have hcomps := TabSession.initComps_logged platform t'.store.evaluator (t'.initFunctions platform)
  refine buildResponse_mirrors platform false
    ((hfunctions.trans hcomps).tracks (.of_nil rfl)) fun sym => ?_
  rw [loaded_getGlobal hinterner hnamed t sym]
  rfl

/-- After a reload the window shows the session's variables, after any events. -/
theorem mirror_never_drifts (platform : Platform) (host : Host) {tab : TabState F}
    (hinterner : tab.store.interner.WellFormed) (hnamed : NamedGlobals tab.store) (t : TabSession)
    {events : List UiEvent} (hevents : ∀ event ∈ events, event.isReload = false) :
    Mirrors (mirror platform events (reloaded platform host tab t)).1
      (mirror platform events (reloaded platform host tab t)).2 := by
  have hstart := reloaded_mirrors platform host hinterner hnamed t
  generalize reloaded platform host tab t = x at hstart ⊢
  obtain ⟨tab', t'⟩ := x
  induction events generalizing tab' t' with
  | nil => exact hstart
  | cons event events ih =>
    exact ih (fun e he => hevents e (by simp [he])) _ _
      (applyEvent_mirrors platform hstart (hevents event (by simp)))

/-- A document with one variable, to which a network response and a click follow. -/
theorem mirror_never_drifts_update :
    let tab : TabState plainFrontend :=
      { plainTab plainFrontend () "mizu://a.mizu/" with store := ⟨.new 20000, .ofNames ["x"]⟩ }
    let events : List UiEvent := [.updateVariable "x" (.int 1), .click 0]
    Mirrors (mirror .plain events (reloaded .plain plainHost tab .new)).1
      (mirror .plain events (reloaded .plain plainHost tab .new)).2 := by
  intro tab events
  refine mirror_never_drifts .plain plainHost ?_ ?_ .new ?_
  · exact Interner.ofNames_wellFormed ["x"]
  · exact fun _ _ => rfl
  · intro event hevent
    rcases mem_cons.mp hevent with rfl | hevent
    · rfl
    · obtain rfl := mem_singleton.mp hevent
      rfl

end Mizu
