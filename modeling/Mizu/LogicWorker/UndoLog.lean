import Mizu.Lib.Transition
import Mizu.LogicWorker.Consistency
import Mizu.LogicWorker.Mirror

/-!
# The undo log between two events

Every write to a store is logged, in the session and in the window's copy. The session clears the log at the
start of an event and when it builds a response; the window clears it at startup only.

* `applyEvent_clear_iff`: what an event leaves in the session's log.
* `undo_log_scoped`: in a run whose window shows no change and whose documents name neither `root_scroll_y`
  nor `window_url` both logs are empty between events.
* `window_log_grows`: each answer the window applies adds to its log.
-/

namespace Mizu

open Exec Transition Option

/-! ## The session -/

namespace TabSession

variable {platform : Platform} {t : TabSession}

theorem surfaceAll_log (errors : List (String × Value)) (acc : TabSession × List (Symbol × Value)) :
    (errors.foldl surface acc).1.store.evaluator.undoLog = [] ↔
      acc.1.store.evaluator.undoLog = [] ∧ ∀ error ∈ errors, acc.1.store.interner.get error.1 = none := by
  induction errors generalizing acc with
  | nil => simp
  | cons error errors ih =>
    rw [List.foldl_cons, ih, List.forall_mem_cons]
    unfold surface
    cases hget : acc.1.store.interner.get error.1 with
    | none => simp
    | some sym =>
      have hlogged : (acc.1.setRuntime error.1 error.2).store.evaluator.undoLog =
          acc.1.store.evaluator.undoLog ++ [(sym, acc.1.store.evaluator.getGlobal sym)] := by
        unfold setRuntime VariableStore.setRuntime
        rw [hget]
        rfl
      simp [hlogged]

/-- A response leaves in the log what its messages write. -/
theorem buildResponse_log (gesture : Bool) :
    (t.buildResponse platform gesture).2.store.evaluator.undoLog = [] ↔
      ∀ error ∈ t.aliasErrors, t.store.interner.get error.1 = none := by
  have hall := surfaceAll_log t.aliasErrors
    (t.mapEvaluator fun s => { s with undoLog := [], accumulatedActions := [] },
      mutatedVariables platform t.store.evaluator)
  exact hall.trans (and_iff_right rfl)

/-- No message of the calls that the event's action queues goes to a variable of the document. -/
def NoMessage (platform : Platform) (t : TabSession) (event : UiEvent) : Prop :=
  ∀ u, t.beforeRecompute platform event = some u →
    ∀ error ∈ u.aliasErrors, u.store.interner.get error.1 = none

theorem applyReload_log (payload : ReloadPayload) :
    (t.applyReload platform payload).2.store.evaluator.undoLog = [] := by
  refine buildResponse_log false |>.mpr ?_
  have hnone := aliasErrors_eq_nil (ExprActions.invariant.initComps platform
    (ExprActions.invariant.initFunctions platform (loaded_exprActions payload t)))
  rw [hnone]
  exact nofun

theorem applyEvent_clear_iff (h : t.store.evaluator.undoLog = []) (event : UiEvent) :
    (t.applyEvent platform event).2.store.evaluator.undoLog = [] ↔ t.NoMessage platform event := by
  cases hbefore : t.beforeRecompute platform event with
  | some u =>
    have hrest := (recompute_logged platform u.store.evaluator u).rest
    rw [applyEvent_of_before hbefore, buildResponse_log, recompute_aliasErrors, hrest]
    refine ⟨fun hnone u' hu' => ?_, fun hnone => hnone u hbefore⟩
    obtain rfl := some.inj (hbefore.symm.trans hu')
    exact hnone
  | none =>
    refine iff_of_true ?_ fun u hu => nomatch hbefore.symm.trans hu
    by_cases hreload : ∃ payload, event = .reload payload
    · obtain ⟨payload, rfl⟩ := hreload
      exact applyReload_log payload
    · rcases applyEvent_of_none hbefore (not_exists.mp hreload) with hsame | ⟨_, _, _, -, -, hfailed⟩
      · rw [hsame]
        exact h
      · rw [hfailed]
        rfl

theorem executeActionAndBuild_failed {action : Action} {gesture : Bool} {e : MizuError}
    (h : (t.executeActionAndBuild platform action gesture).1 = .error e) :
    (t.executeActionAndBuild platform action gesture).2.store.evaluator.globalStore =
      t.store.evaluator.globalStore := by
  cases hexec : executeAction (t.ctx platform) action t.clearUndo.store.evaluator with
  | error e' s' =>
    rw [executeActionAndBuild_error hexec]
    rfl
  | ok b s =>
    have hctx : t.clearUndo.ctx platform = t.ctx platform := rfl
    unfold executeActionAndBuild at h
    dsimp only at h
    rw [hctx, hexec] at h
    cases h

/-- A failing event is rolled back to the variables from before it, whatever was in the log. -/
theorem applyEvent_failed {event : UiEvent} {e : MizuError}
    (h : (t.applyEvent platform event).1 = some (.error e)) :
    (t.applyEvent platform event).2.store.evaluator.globalStore = t.store.evaluator.globalStore := by
  cases event with
  | closeTab => rfl
  | reload | submitForm | updateVariable => cases h
  | click nodeId => grind [applyEvent, executeActionAndBuild_failed]
  | rootTimer index => grind [applyEvent, executeActionAndBuild_failed]

/-- What an event answers does not depend on the log. -/
theorem applyEvent_anyLog (event : UiEvent) (log : List (Symbol × Value)) :
    ((t.mapEvaluator ({ · with undoLog := log })).applyEvent platform event).1 =
      (t.applyEvent platform event).1 :=
  (applyEvent_alike platform event
    (alike_iff.mpr ⟨t.store.evaluator.instructionCount, log, rfl⟩)).1.symm

end TabSession

/-! ## The two stores of a tab -/

/-- A tab of the window, its session in the worker and the answers on the way to the window. -/
structure UndoState (F : Frontend) where
  tab : TabState F
  ctx : WindowCtx
  session : TabSession
  answers : List (Option (Except MizuError WorkerResponse))

inductive UndoMove where
  /-- The session takes an event. -/
  | event (event : UiEvent)
  /-- The window takes the next answer. -/
  | drain
  | scroll (y : Int)
  /-- A frame is shown; the scroll offset is exposed as a decimal. -/
  | redraw (offset : Value)
  /-- A document arrives. -/
  | navigate (url source : String)

namespace UndoState

variable {F : Frontend} (platform : Platform) (host : Host)

def step (s : UndoState F) : UndoMove → Option (UndoState F)
  | .event event =>
    let (answer, session) := s.session.applyEvent platform event
    some { s with session, answers := s.answers ++ [answer] }
  | .drain =>
    match s.answers with
    | [] => none
    | answer :: answers => some { s with tab := applyResult s.tab answer, answers }
  | .scroll y => some { s with tab := { s.tab with rootScrollOffsetY := y } }
  | .redraw offset => some { s with tab := { s.tab with store := s.tab.store.setRuntime "root_scroll_y" offset } }
  | .navigate url source =>
    let (tab, ctx) := s.tab.handleNavigateSuccess host s.ctx url source
    some { s with tab, ctx }

/-- Neither log holds an entry of an earlier event. -/
structure Clear (s : UndoState F) : Prop where
  window : s.tab.store.evaluator.undoLog = []
  session : s.session.store.evaluator.undoLog = []

/-- The names of the document that the tab shows after a navigation. -/
def shownInterner (s : UndoState F) (url source : String) : Interner :=
  match F.loadDocument url source with
  | (_, none) => s.tab.store.interner
  | (_, some loaded) =>
    match F.buildTaffyTree loaded.document.dom loaded.style url with
    | .error _ => s.tab.store.interner
    | .ok _ => loaded.document.interner

/-- The step writes nothing that stays in a log. -/
def Scoped (s : UndoState F) : UndoMove → Prop
  | .event event => s.session.NoMessage platform event
  | .drain => ∀ response answers, s.answers = some (.ok response) :: answers →
      response.stateUpdate.mutatedVariables = []
  | .scroll _ => True
  | .redraw _ => s.tab.store.interner.get "root_scroll_y" = none
  | .navigate url source => (s.shownInterner url source).get "window_url" = none

end UndoState

theorem VariableStore.setRuntime_log (store : VariableStore) (name : String) (v : Value) :
    (store.setRuntime name v).evaluator.undoLog = [] ↔
      store.evaluator.undoLog = [] ∧ store.interner.get name = none := by
  unfold VariableStore.setRuntime
  cases store.interner.get name with
  | none => simp
  | some sym => simp [VariableStore.setSymbol, Evaluator.setGlobal]

namespace UndoState

variable {F : Frontend} {platform : Platform} {host : Host} {s s' : UndoState F}

theorem applyMutations_log (tab : TabState F) (mutated : List (Symbol × Value)) :
    (tab.applyMutations mutated).store.evaluator.undoLog.length =
      tab.store.evaluator.undoLog.length + mutated.length := by
  induction mutated generalizing tab with
  | nil => rfl
  | cons p mutated ih =>
    have hnext := ih (tab.applyMutations [p])
    rw [← applyMutations_append] at hnext
    rw [List.length_cons, ← List.singleton_append, hnext]
    simp [TabState.applyMutations, VariableStore.setSymbol, Evaluator.setGlobal]
    omega

theorem handleNavigateSuccess_log (h : s.tab.store.evaluator.undoLog = []) (url source : String) :
    (s.tab.handleNavigateSuccess host s.ctx url source).1.store.evaluator.undoLog = [] ↔
      (s.shownInterner url source).get "window_url" = none := by
  unfold shownInterner
  rcases hload : F.loadDocument url source with ⟨log, _ | loaded⟩
  · rw [TabState.handleNavigateSuccess_rejected host s.tab s.ctx hload]
    exact (VariableStore.setRuntime_log _ _ _).trans (and_iff_right h)
  · dsimp only
    cases hlayout : F.buildTaffyTree loaded.document.dom loaded.style url with
    | error e =>
      rw [TabState.handleNavigateSuccess_layoutFailed host s.tab s.ctx hload hlayout]
      exact (VariableStore.setRuntime_log _ _ _).trans (and_iff_right h)
    | ok layout =>
      rw [TabState.handleNavigateSuccess_installed host s.tab s.ctx hload hlayout]
      obtain ⟨-, -, -, hstore, -⟩ :=
        TabState.restoreScroll_kept (s.tab.committed host s.ctx url loaded layout)
      dsimp only
      rw [hstore]
      exact (VariableStore.setRuntime_log _ _ _).trans (and_iff_right rfl)

/-- From empty logs a step leads to empty logs exactly if it is scoped. -/
theorem step_clear_iff (h : s.Clear) {move : UndoMove} (hstep : s.step platform host move = some s') :
    s'.Clear ↔ s.Scoped platform move := by
  cases move with
  | event event =>
    obtain rfl := some.inj hstep
    exact ⟨fun hclear => (TabSession.applyEvent_clear_iff h.session event).mp hclear.session,
      fun hscoped => ⟨h.window, (TabSession.applyEvent_clear_iff h.session event).mpr hscoped⟩⟩
  | drain =>
    simp only [step] at hstep
    split at hstep
    · cases hstep
    · rename_i answer answers hanswers
      obtain rfl := some.inj hstep
      refine Iff.trans (b := (applyResult s.tab answer).store.evaluator.undoLog = []) ?_ ?_
      · exact ⟨Clear.window, fun hwindow => ⟨hwindow, h.session⟩⟩
      · cases answer with
        | none => exact iff_of_true h.window (by simp [Scoped, hanswers])
        | some result =>
          cases result with
          | error e => exact iff_of_true h.window (by simp [Scoped, hanswers])
          | ok response =>
            have hlength := applyMutations_log s.tab response.stateUpdate.mutatedVariables
            rw [h.window, List.length_nil, Nat.zero_add] at hlength
            simp only [Scoped, hanswers, applyResult]
            rw [← List.length_eq_zero_iff, hlength, List.length_eq_zero_iff]
            constructor
            · rintro hnone _ _ ⟨⟩
              exact hnone
            · exact fun hnone => hnone response answers rfl
  | scroll y =>
    obtain rfl := some.inj hstep
    exact iff_of_true ⟨h.window, h.session⟩ trivial
  | redraw offset =>
    obtain rfl := some.inj hstep
    have hlog := VariableStore.setRuntime_log s.tab.store "root_scroll_y" offset
    exact ⟨fun hclear => (hlog.mp hclear.window).2,
      fun hscoped => ⟨hlog.mpr ⟨h.window, hscoped⟩, h.session⟩⟩
  | navigate url source =>
    obtain rfl := some.inj hstep
    exact ⟨fun hclear => (handleNavigateSuccess_log h.window url source).mp hclear.window,
      fun hscoped => ⟨(handleNavigateSuccess_log h.window url source).mpr hscoped, h.session⟩⟩

/-- In a run of scoped steps from empty logs the logs are empty between any two events. A failing event then
leaves the variables it found, and what an event answers is not about an earlier one. -/
theorem undo_log_scoped {start : UndoState F} (hstart : start.Clear)
    (h : Reaches (step platform host) (Scoped platform) start s) :
    s.Clear ∧
      ∀ event,
        (∀ e, (s.session.applyEvent platform event).1 = some (.error e) →
          (s.session.applyEvent platform event).2.store.evaluator.globalStore =
            s.session.store.evaluator.globalStore) ∧
        ∀ log, ((s.session.mapEvaluator ({ · with undoLog := log })).applyEvent platform event).1 =
          (s.session.applyEvent platform event).1 := by
  refine ⟨h.invariant hstart fun s move s' hclear hscoped hstep => ?_, fun event => ⟨fun e => ?_, ?_⟩⟩
  · exact (step_clear_iff hclear hstep).mpr hscoped
  · exact TabSession.applyEvent_failed
  · exact TabSession.applyEvent_anyLog event

/-! A document with a variable that the network fills. -/

/-- The tab has just been loaded. -/
def oneVariable : UndoState plainFrontend :=
  let store : VariableStore := ⟨.new 20000, .ofNames ["x"]⟩
  { tab := { plainTab plainFrontend () "mizu://a.mizu/" with store }
    ctx := ⟨∅, [], [], true, 0, []⟩
    session := { TabSession.new with store }
    answers := [] }

/-- The network fills the variable, and the page is scrolled and shown before the window knows. -/
theorem undo_log_scoped_update :
    ∃ s, Reaches (step .plain plainHost) (Scoped .plain) oneVariable s ∧
      s.session.store.evaluator.getGlobal ⟨0⟩ = .int 1 ∧ s.Clear := by
  have hevent : oneVariable.Scoped .plain (.event (.updateVariable "x" (.int 1))) := by
    intro u hu error herror
    have hnone : u.aliasErrors = [] := by
      cases hu
      rfl
    rw [hnone] at herror
    cases herror
  have hreached : Reaches (step .plain plainHost) (Scoped .plain) oneVariable _ :=
    .next (l := .redraw (.decimal 40)) (.next (l := .scroll 40) (.next .refl hevent rfl) trivial rfl) rfl rfl
  exact ⟨_, hreached, rfl, (undo_log_scoped ⟨rfl, rfl⟩ hreached).1⟩

/-- The window applies two answers of the network, and what the first wrote is still logged. -/
theorem window_log_grows :
    ∃ s, Reaches (step .plain plainHost) (fun _ _ => True) oneVariable s ∧ s.answers = [] ∧
      s.tab.store.evaluator.undoLog = [(⟨0⟩, .null), (⟨0⟩, .int 1)] ∧ ¬s.Clear := by
  cases hrun : run (step .plain plainHost) oneVariable
      [.event (.updateVariable "x" (.int 1)), .drain, .event (.updateVariable "x" (.int 2)), .drain] with
  | none => cases hrun
  | some s =>
    have hlog : s.tab.store.evaluator.undoLog = [(⟨0⟩, .null), (⟨0⟩, .int 1)] := by
      cases hrun
      rfl
    have hanswers : s.answers = [] := by
      cases hrun
      rfl
    refine ⟨s, reaches_of_run _ hrun fun _ _ _ => trivial, hanswers, hlog, fun hclear => ?_⟩
    rw [hclear.window] at hlog
    cases hlog

end UndoState

end Mizu
