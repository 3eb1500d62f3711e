import Mizu.Messages

/-!
# What a worker sends

The wire form of a worker's answers and `rehydrate_worker_response`, which rebuilds a response from
it. The bytes come from an untrusted process: every wire value is possible. Rehydration checks
structure only (depths, parallel lengths); what an action may do is the broker's question.
-/

namespace Mizu

mutual

inductive WireValue where
  | null
  | bool (b : Bool)
  | int (i : Int64)
  | decimal (i : Int64)
  | str (s : String)
  | list (items : List WireValue)
  | record (fields : List WireRecordField)
  | fileHandleToken (token : Nat) (filename : String)

inductive WireRecordField where
  | mk (key : String) (hash : UInt32) (value : WireValue)

end

/-- Header names and values are parallel lists. -/
inductive WireRuntimeAction where
  | none
  | networkCall (method : NetworkMethod) (endpointSymbol : Nat) (payload : Option WireValue)
      (pathParam : Option String) (targetVariableSym : Nat) (format : PayloadFormat)
      (headerKeys : List String) (headerValues : List WireValue)
  | resolvedCall (method url : String) (payload : Option WireValue) (targetVariableSym : Nat)
      (format : PayloadFormat) (headerKeys : List String) (headerValues : List WireValue)
  | storeLocal (key : String) (value : WireValue)
  | copyToClipboard (nodeId : String)
  | getSystemTime (targetVariableSym : Nat)
  | navigate (url : String)
  | downloadMedia (url : String)
  | downloadAlias (endpointSymbol : Nat)

structure WireWorkerResponse where
  mutatedSyms : List Nat
  mutatedValues : List WireValue
  runtimeActions : List WireRuntimeAction
  /-- The worker's own claim. -/
  gesture : Bool

inductive WireWorkerError where
  | timeout
  | securityViolation (message : String)
  | executionError (message : String)
  | internal (message : String)

inductive WireWorkerEnvelope where
  /-- The handshake; rejected everywhere else. -/
  | hello (token : String)
  | ok (response : WireWorkerResponse)
  | err (e : WireWorkerError)
  /-- The event addressed nothing in the document. -/
  | noOp

namespace Rehydrate

def maxValueDepth : Nat := 128

def err {α : Type} (message : String) : Except MizuError α := .error (.parseError message)

mutual

/-- `rehydrate_value`. Records are rebuilt, so their order on the wire does not matter; a file token
is not a file. -/
def value : WireValue → Nat → Except MizuError Value
  | v, depth =>
    if depth > maxValueDepth then
      err ("value nested deeper than " ++ toString maxValueDepth ++ " levels")
    else
      match v with
      | .null => .ok .null
      | .bool b => .ok (.bool b)
      | .int i => .ok (.int i)
      | .decimal i => .ok (.decimal i)
      | .str s => .ok (.string s)
      | .list items => do return .list (← values items (depth + 1))
      | .record fields => do return Value.recordFromUnsorted (← pairs fields (depth + 1))
      | .fileHandleToken _ _ => .ok .null

def values : List WireValue → Nat → Except MizuError (List Value)
  | [], _ => .ok []
  | v :: vs, depth => do
    let v ← value v depth
    return v :: (← values vs depth)

def pairs : List WireRecordField → Nat → Except MizuError (List (String × Value))
  | [], _ => .ok []
  | .mk key _ v :: fs, depth => do
    let v ← value v depth
    return (key, v) :: (← pairs fs depth)

end

/-- An optional payload. -/
def payload : Option WireValue → Except MizuError (Option Value)
  | none => .ok none
  | some v => do return some (← value v 0)

def headers (names : List String) (vals : List WireValue) :
    Except MizuError (List (String × Value)) :=
  if names.length ≠ vals.length then
    err ("action has " ++ toString names.length ++ " header names but " ++ toString vals.length ++
      " header values")
  else do return names.zip (← values vals 0)

/-- `rehydrate_runtime_action`. -/
def runtimeAction : WireRuntimeAction → Except MizuError RuntimeAction
  | .none => .ok .none
  | .navigate url => .ok (.navigate url)
  | .downloadMedia url => .ok (.downloadMedia url)
  | .downloadAlias sym => .ok (.downloadAlias sym)
  | .copyToClipboard nodeId => .ok (.copyToClipboard nodeId)
  | .getSystemTime sym => .ok (.getSystemTime ⟨sym⟩)
  | .storeLocal key v => do return .storeLocal key (← value v 0)
  | .networkCall method sym p pathParam target format keys vals => do
    let p ← payload p
    return .networkCall method sym p pathParam ⟨target⟩ format (← headers keys vals)
  | .resolvedCall method url p target format keys vals => do
    let p ← payload p
    return .resolvedCall method url p ⟨target⟩ format (← headers keys vals)

/-- `rehydrate_worker_response`. -/
def workerResponse (r : WireWorkerResponse) : Except MizuError WorkerResponse :=
  if r.mutatedSyms.length ≠ r.mutatedValues.length then
    err ("worker response has " ++ toString r.mutatedSyms.length ++ " mutated symbols but " ++
      toString r.mutatedValues.length ++ " values")
  else do
    let vals ← values r.mutatedValues 0
    let actions ← r.runtimeActions.mapM runtimeAction
    return { stateUpdate := ⟨(r.mutatedSyms.map Symbol.mk).zip vals⟩, runtimeActions := actions
             gesture := r.gesture }

end Rehydrate

end Mizu
