import Mizu.Ipc.RehydrateReload
import Mizu.LogicWorker.Session

/-!
# The worker process

The wire form of an event, as the router sends it, and a round of the worker's message loop: it rebuilds the
event, hands it to its session and answers with exactly one frame.
-/

namespace Mizu

/-- The fields of a form are two parallel lists. -/
inductive WireUiEvent where
  | click (nodeId : Nat)
  | rootTimer (index : Nat)
  | submitForm (submitterNodeId : Nat) (fieldKeys : List String) (fieldValues : List WireValue)
  | updateVariable (name : String) (value : WireValue)
  | reload (payload : WireReloadPayload)
  | closeTab

/-- `From<&UiEvent>`, for an order in which the tables of a document are iterated. -/
def UiEvent.toWire (order : (p : ReloadPayload) → p.Iteration) : UiEvent → WireUiEvent
  | click nodeId => .click nodeId
  | rootTimer index => .rootTimer index
  | submitForm submitterNodeId fields =>
    .submitForm submitterNodeId (fields.map (·.1)) (fields.map fun field => field.2.toWire)
  | updateVariable name value => .updateVariable name value.toWire
  | reload payload => .reload (payload.toWire (order payload))
  | closeTab => .closeTab

namespace Rehydrate

def formFields (keys : List String) (vals : List WireValue) : Except MizuError (List (String × Value)) :=
  if keys.length ≠ vals.length then
    err ("submit form has " ++ toString keys.length ++ " field names but " ++ toString vals.length ++ " values")
  else do return keys.zip (← values vals 0)

/-- `rehydrate_ui_event`. -/
def uiEvent : WireUiEvent → Except MizuError UiEvent
  | .click nodeId => .ok (.click nodeId)
  | .rootTimer index => .ok (.rootTimer index)
  | .closeTab => .ok .closeTab
  | .updateVariable name v => do return .updateVariable name (← value v 0)
  | .submitForm submitterNodeId keys vals => do return .submitForm submitterNodeId (← formFields keys vals)
  | .reload payload => do return .reload (← reloadPayload payload)

end Rehydrate

/-- `From<&MizuError>`. -/
def WireWorkerError.ofError : MizuError → WireWorkerError
  | .timeout => .timeout
  | .securityViolation message => .securityViolation message
  | .executionError message => .executionError message
  | other => .internal other.display

/-- A round of `run`: an event that cannot be rebuilt is reported and leaves the session as it was. -/
def TabSession.serve (platform : Platform) (t : TabSession) (event : WireUiEvent) :
    WireWorkerEnvelope × TabSession :=
  match Rehydrate.uiEvent event with
  | .error e => (.err (.internal e.display), t)
  | .ok event =>
    match t.applyEvent platform event with
    | (none, t) => (.noOp, t)
    | (some (.ok response), t) => (.ok response.toWire, t)
    | (some (.error e), t) => (.err (.ofError e), t)

end Mizu
