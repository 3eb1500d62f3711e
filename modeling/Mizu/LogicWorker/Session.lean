import Mizu.Flow.Check
import Mizu.Logic.Action
import Mizu.Logic.Comp

/-!
# A tab's logic session

`TabSession` is the state of one document and `applyEvent` the function that advances it: an event in,
a response out. What the platform decides (which values share an allocation, in which order hash tables
are iterated) is the parameter `Platform`.
-/

namespace Mizu

open Exec

/-- The order in which a table of functions is iterated. -/
structure TableOrder where
  list : FunctionTable → List Symbol
  nodup : ∀ functions, (list functions).Nodup
  mem_iff : ∀ functions sym, sym ∈ list functions ↔ sym ∈ functions

/-- By symbol number. -/
def TableOrder.ascending : TableOrder where
  list functions := ((functions.keys.image Symbol.id).sort (· ≤ ·)).map Symbol.mk
  nodup functions := (Finset.sort_nodup _ _).map fun _ _ h => congrArg Symbol.id h
  mem_iff functions sym := by
    simp only [List.mem_map, Finset.mem_sort, Finset.mem_image, Finmap.mem_keys]
    constructor
    · rintro ⟨_, ⟨sym', hmem, rfl⟩, rfl⟩
      exact hmem
    · exact fun h => ⟨sym.id, ⟨sym, h, rfl⟩, rfl⟩

structure Platform where
  arcEq : ArcEq
  valueOrder : HashOrder
  functionOrder : TableOrder

/-- A platform on which no two values share an allocation. -/
def Platform.plain : Platform where
  arcEq := { same := fun _ _ => false, eq_of_same := @ArcEq.never_same }
  valueOrder := .insertion
  functionOrder := .ascending

structure TabSession where
  store : VariableStore
  logicFns : FunctionTable
  clickActions : FxHashMap Nat Action
  submitActions : FxHashMap Nat Action
  rootTimerActions : List Action
  urlRegistry : UrlRegistry
  documentDomain : String
  /-- In topological order. -/
  computedVars : List ComputedBinding
  computedReverseIndex : CompReverseIndex
  /-- Aliases are left for the broker to resolve. -/
  deferAliasResolution : Bool

/-- `MAX_INSTRUCTIONS` of an evaluator that is not configured. -/
def defaultMaxInstructions : Nat := 20000

/-- `EQ_BUDGET_PER_VARIABLE`. -/
def eqBudgetPerVariable : Nat := 10000

def VariableStore.withInterner (interner : Interner) : VariableStore where
  evaluator := .new defaultMaxInstructions
  interner

/-- Whether a variable is reported: a comparison that exceeds its budget counts as a change. -/
def valueChanged (arc : ArcEq) (old cur : Value) : Bool :=
  match old.budgetEq arc cur eqBudgetPerVariable 0 with
  | .ok isEq _ => !isEq
  | .error _ _ => true

/-- The first value logged of each symbol: the one it had when the event began. -/
def originalValues (undoLog : List (Symbol × Value)) : FxHashMap Symbol Value :=
  undoLog.foldl (fun originals (sym, v) =>
    if sym ∈ originals then originals else originals.insert sym v) ∅

/-- The variables to report, with their values. -/
def mutatedVariables (platform : Platform) (s : Evaluator) : List (Symbol × Value) :=
  let originals := originalValues s.undoLog
  (platform.valueOrder.list (s.undoLog.map (·.1)).reverse.dedup).filterMap fun sym =>
    match originals.lookup sym with
    | some old =>
      if valueChanged platform.arcEq old (s.getGlobal sym) then some (sym, s.getGlobal sym) else none
    | none => none

/-- `resolve_one_action`: the action to emit, and a message for a variable named by a string. -/
def resolveOneAction (t : TabSession) :
    RuntimeAction → RuntimeAction × List (String × Value)
  | action =>
    if t.deferAliasResolution then (action, [])
    else
      match action with
      | .networkCall method endpointSymbol payload pathParam target format headers =>
        match t.urlRegistry.lookup ⟨endpointSymbol⟩ with
        | none =>
          let aliasName := (t.store.interner.resolve ⟨endpointSymbol⟩).getD "<unknown>"
          -- The variable is named by the number of its symbol.
          (.none, [(toString target.id,
            .string ("error: endpoint alias `" ++ aliasName ++ "` is not declared in the urls block"))])
        | some ep =>
          match resolveEndpointUrl t.documentDomain ep pathParam with
          | .ok url => (.resolvedCall method.asStr url payload target format headers, [])
          | .error e =>
            (.none, [((t.store.interner.resolve target).getD "<unknown>",
              .string ("error: " ++ e.display))])
      | .downloadAlias endpointSymbol =>
        match t.urlRegistry.lookup ⟨endpointSymbol⟩ with
        | some ep => (.downloadMedia ep.rawTarget, [])
        | none => (.none, [])
      | other => (other, [])

namespace TabSession

/-- A tab before its first `Reload`. -/
def new : TabSession where
  store := .withInterner .new
  logicFns := ∅
  clickActions := ∅
  submitActions := ∅
  rootTimerActions := []
  urlRegistry := ∅
  documentDomain := ""
  computedVars := []
  computedReverseIndex := ∅
  deferAliasResolution := false

def ctx (platform : Platform) (t : TabSession) : EvalCtx where
  functions := t.logicFns
  interner := t.store.interner
  arcEq := platform.arcEq

/-- Replaces the evaluator of the store. -/
def withEvaluator (t : TabSession) (s : Evaluator) : TabSession :=
  { t with store := { t.store with evaluator := s } }

def mapEvaluator (t : TabSession) (f : Evaluator → Evaluator) : TabSession :=
  t.withEvaluator (f t.store.evaluator)

def setRuntime (t : TabSession) (name : String) (v : Value) : TabSession :=
  { t with store := t.store.setRuntime name v }

/-- `undo_log.clear()`. -/
def clearUndo (t : TabSession) : TabSession := t.mapEvaluator ({ · with undoLog := [] })

/-- Writes a message into its variable, if that is declared, and reports it. -/
def surface (acc : TabSession × List (Symbol × Value)) (error : String × Value) :
    TabSession × List (Symbol × Value) :=
  match acc.1.store.interner.get error.1 with
  | some sym => (acc.1.setRuntime error.1 error.2, acc.2 ++ [(sym, error.2)])
  | none => acc

/-- `build_response`. -/
def buildResponse (platform : Platform) (gesture : Bool) (t : TabSession) : WorkerResponse × TabSession :=
  let mutated := mutatedVariables platform t.store.evaluator
  let resolved := t.store.evaluator.accumulatedActions.map (resolveOneAction t)
  let t := t.mapEvaluator fun s => { s with undoLog := [], accumulatedActions := [] }
  let (t, mutated) := (resolved.flatMap (·.2)).foldl surface (t, mutated)
  ({ stateUpdate := ⟨mutated⟩, runtimeActions := resolved.map (·.1), gesture }, t)

/-- `recompute_after_mutation`. -/
def recomputeAfterMutation (platform : Platform) (t : TabSession) : TabSession :=
  if t.computedVars.isEmpty then t
  else
    t.mapEvaluator fun s =>
      (recomputeComputedBindings (t.ctx platform) t.computedVars (s.undoLog.map (·.1)).toFinset
        t.computedReverseIndex s).1

/-- Puts the logged values back, the latest first. -/
def rollback (initialActionsLen : Nat) (s : Evaluator) : Evaluator :=
  { s with
    globalStore := s.undoLog.reverse.foldl (fun store (sym, v) => store.insert sym v) s.globalStore
    accumulatedActions := s.accumulatedActions.take initialActionsLen
    undoLog := [] }

/-- `execute_action_and_build`. -/
def executeActionAndBuild (platform : Platform) (action : Action) (gesture : Bool) (t : TabSession) :
    Except MizuError WorkerResponse × TabSession :=
  let t := t.clearUndo
  match executeAction (t.ctx platform) action t.store.evaluator with
  | .ok _ s =>
    let (response, t) := ((t.withEvaluator s).recomputeAfterMutation platform).buildResponse platform gesture
    (.ok response, t)
  | .error e s =>
    (.error e, t.withEvaluator (rollback t.store.evaluator.accumulatedActions.length s))

/-- Evaluates a function without parameters on a budget of its own and binds its name. -/
def initFunction (ctx : EvalCtx) (s : Evaluator) (sym : Symbol) : Evaluator :=
  match ctx.functions.lookup sym with
  | some func =>
    if func.params.isEmpty then
      match evalTree ctx func.body { s with instructionCount := 0 } with
      | .ok v s => s.setGlobal sym v
      | .error _ s => s
    else s
  | none => s

/-- The session of a document before its functions are evaluated. -/
def loaded (payload : ReloadPayload) (t : TabSession) : TabSession :=
  let store := payload.initialVariables.foldl (fun store (k, v) => store.setRuntime k v)
    (VariableStore.withInterner payload.interner)
  { t with
    store := { store with evaluator :=
      { store.evaluator with
        undoLog := []
        computedVarSyms := (payload.computedBindings.map (·.name)).toFinset } }
    logicFns := payload.logicFns
    clickActions := payload.clickActions
    submitActions := payload.submitActions
    rootTimerActions := payload.rootTimerActions
    urlRegistry := payload.urlRegistry
    documentDomain := payload.documentDomain
    computedVars := payload.computedBindings
    computedReverseIndex := buildCompReverseIndex payload.computedBindings }

def initFunctions (platform : Platform) (t : TabSession) : TabSession :=
  t.mapEvaluator fun s =>
    (platform.functionOrder.list t.logicFns).foldl (initFunction (t.ctx platform)) s

/-- The first evaluation of the computed bindings: every global counts as mutated. -/
def initComps (platform : Platform) (t : TabSession) : TabSession :=
  t.mapEvaluator fun s =>
    (recomputeComputedBindings (t.ctx platform) t.computedVars s.globalStore.keys
      t.computedReverseIndex s).1

/-- `apply_reload`. -/
def applyReload (platform : Platform) (payload : ReloadPayload) (t : TabSession) :
    WorkerResponse × TabSession :=
  (((t.loaded payload).initFunctions platform).initComps platform).buildResponse platform false

/-- Writes the values of a form. -/
def setFields (fields : List (String × Value)) (t : TabSession) : TabSession :=
  fields.foldl (fun t (name, v) => t.setRuntime name v)
    (t.clearUndo.setRuntime "$form" (Value.recordFromUnsorted fields))

/-- Runs the action of a submit button; if it fails that is logged only. -/
def runSubmit (platform : Platform) (action : Option Action) (t : TabSession) : TabSession :=
  match action with
  | some action => t.withEvaluator (finalState (executeAction (t.ctx platform) action t.store.evaluator))
  | none => t

/-- `apply_event`: no response if the event addresses nothing in the document. -/
def applyEvent (platform : Platform) (t : TabSession) :
    UiEvent → Option (Except MizuError WorkerResponse) × TabSession
  | .closeTab => (none, t)
  | .reload payload =>
    let (response, t) := t.applyReload platform payload
    (some (.ok response), t)
  | .click nodeId =>
    match t.clickActions.lookup nodeId with
    | none => (none, t)
    | some action =>
      let (result, t) := t.executeActionAndBuild platform action true
      (some result, t)
  | .rootTimer index =>
    match t.rootTimerActions[index]? with
    | none => (none, t)
    | some action =>
      let (result, t) := t.executeActionAndBuild platform action false
      (some result, t)
  | .submitForm submitterNodeId fields =>
    let t := (t.setFields fields).runSubmit platform (t.submitActions.lookup submitterNodeId)
    let (response, t) := (t.recomputeAfterMutation platform).buildResponse platform true
    (some (.ok response), t)
  | .updateVariable name v =>
    let t := t.clearUndo.setRuntime name v
    let (response, t) := (t.recomputeAfterMutation platform).buildResponse platform false
    (some (.ok response), t)

end TabSession

end Mizu
