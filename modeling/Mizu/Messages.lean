import Mizu.Urls

/-!
# Messages

The events the window sends to a tab's logic worker and the actions that come back.
-/

namespace Mizu

/-- Identifies a tab; never reused. -/
structure TabId where
  id : Nat
  deriving DecidableEq, Repr

/-- Declarative actions, queued by the evaluator and executed by the main thread. -/
inductive RuntimeAction where
  | none
  /-- A network call whose alias is not resolved yet. -/
  | networkCall (method : NetworkMethod) (endpointSymbol : Nat) (payload : Option Value)
      (pathParam : Option String) (targetVariable : Symbol) (format : PayloadFormat)
      (headers : List (String × Value))
  /-- A network call with a concrete URL. -/
  | resolvedCall (method : String) (url : String) (payload : Option Value)
      (targetVariable : Symbol) (format : PayloadFormat) (headers : List (String × Value))
  | storeLocal (key : String) (value : Value)
  | copyToClipboard (nodeId : String)
  | getSystemTime (targetVariable : Symbol)
  | navigate (url : String)
  | downloadMedia (url : String)
  /-- A download whose alias is not resolved yet. -/
  | downloadAlias (endpointSymbol : Nat)
  deriving Repr

/-- What a worker needs of a document. -/
structure ReloadPayload where
  logicFns : FunctionTable
  /-- Actions by the id of their node. -/
  clickActions : FxHashMap Nat Action
  submitActions : FxHashMap Nat Action
  rootTimerActions : List Action
  interner : Interner
  initialVariables : List (String × Value)
  urlRegistry : UrlRegistry
  documentDomain : String
  /-- In topological order. -/
  computedBindings : List ComputedBinding

inductive UiEvent where
  | click (nodeId : Nat)
  | rootTimer (index : Nat)
  | submitForm (submitterNodeId : Nat) (fields : List (String × Value))
  | updateVariable (name : String) (value : Value)
  | reload (payload : ReloadPayload)
  | closeTab

/-- The variables a cycle changed, with their new values. -/
structure StateUpdate where
  mutatedVariables : List (Symbol × Value)

structure WorkerResponse where
  stateUpdate : StateUpdate
  runtimeActions : List RuntimeAction
  /-- Whether the event that produced the actions was a user gesture. -/
  gesture : Bool

end Mizu
