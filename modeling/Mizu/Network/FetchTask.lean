import Mizu.Network.Exchange
import Mizu.Network.Payload
import Mizu.Render.Navigate

/-!
# Answers to data calls

A data call is a task of the network worker: its payload is serialised, then it is fetched, and what comes
of it is sent to the window, which writes it into the variable of the call.

* `fetchTask_run`: every run sends one result, the answer to its command.
* `fetch_answered_iff`: the result names the variable exactly where the payload can be serialised.
* `text_payload_unanswered`: it need not.
-/

namespace Mizu

open Exec Resumption Program Option

/-! ## The task -/

/-- A data call without what only labels its result. -/
structure DataCall where
  method : String
  url : String
  payload : Option Value
  format : PayloadFormat
  headers : List (String × Value)

namespace DataCall

/-- The body and its content type, if there is a payload. -/
def requestBody (penv : PayloadEnv) (call : DataCall) : Except MizuError (Option (List UInt8) × Option String) :=
  match call.payload with
  | some v => do
    let serialized ← serializePayload penv v call.format
    return (some serialized.bytes, some serialized.contentType)
  | none => .ok (none, none)

def request (call : DataCall) (body : Option (List UInt8) × Option String) : FetchRequest :=
  ⟨call.method, body.1, body.2, call.headers.map fun (name, value) => (name, value.display)⟩

/-- The payload, if any, is one that its format takes. -/
def PayloadFits (penv : PayloadEnv) (call : DataCall) : Prop := ∀ v ∈ call.payload, Serialisable penv v call.format

def toCmd (call : DataCall) (tab : TabId) (targetVar : String) (isRemoteOrigin : Bool) : NetworkCmd :=
  .fetch tab call.method call.url targetVar isRemoteOrigin call.payload call.format call.headers

end DataCall

/-- The task of `NetworkCmd::Fetch`, with the results it sends. -/
def fetchTask (env : NetEnv) (penv : PayloadEnv) (tab : TabId) (targetVar : String) (call : DataCall) :
    NetTask (List NetworkResult) :=
  match call.requestBody penv with
  | .error e => pure [.error (some tab) e]
  | .ok body =>
    tryCatch (do
      let data ← handleFetch env (call.request body) call.url
      pure [.success tab targetVar (.string data)])
      fun e => pure [.fetchFailed tab targetVar e]

/-! ## What a document sees -/

/-- What the result puts into the variable of a call. -/
def NetworkResult.valueFor (tab : TabId) (targetVar : String) : NetworkResult → Option Value
  | .success t name data => if t = tab ∧ name = targetVar then some data else none
  | .fetchFailed t name e => if t = tab ∧ name = targetVar then some (.string ("error: " ++ e.display)) else none
  | _ => none

/-- The window passes the value of a result on to the document, under the name of the variable. -/
theorem valueFor_shown {F : Frontend} (host : Host) (t : TabState F) {ctx : WindowCtx} {tab : TabId}
    {targetVar : String} {r : NetworkResult} {v : Value} (hid : t.id = tab) (hopen : ctx.logicOpen = true)
    (h : r.valueFor tab targetVar = some v) :
    (tab, UiEvent.updateVariable targetVar v) ∈ (t.processNetworkResult host ctx r).2.logicTx := by
  unfold NetworkResult.valueFor at h
  split at h
  · grind [TabState.processNetworkResult, TabState.sendStatus, WindowCtx.sendLogic]
  · grind [TabState.processNetworkResult, WindowCtx.sendLogic]
  · cases h

/-- One result is sent, and through it the document sees the body or an error in the variable of the call. -/
structure AnsweredInVariable (tab : TabId) (targetVar : String) (outcome : Except MizuError (List NetworkResult)) : Prop where
  named : ∃ r, outcome = .ok [r] ∧
    ((∃ data, r = .success tab targetVar (.string data)) ∨ ∃ e, r = .fetchFailed tab targetVar e)
  shown : ∀ (F : Frontend) (host : Host) (t : TabState F) (ctx : WindowCtx) (r : NetworkResult),
    outcome = .ok [r] → t.id = tab → ctx.logicOpen = true →
    ∃ v, (tab, UiEvent.updateVariable targetVar v) ∈ (t.processNetworkResult host ctx r).2.logicTx

theorem AnsweredInVariable.of_valueFor {tab : TabId} {targetVar : String} {r : NetworkResult}
    (h : (∃ data, r = .success tab targetVar (.string data)) ∨ ∃ e, r = .fetchFailed tab targetVar e) :
    AnsweredInVariable tab targetVar (.ok [r]) where
  named := ⟨r, rfl, h⟩
  shown F host t ctx r' heq hid hopen := by
    obtain rfl : r = r' := by simpa using heq
    have hvalue : ∃ v, r.valueFor tab targetVar = some v := by
      rcases h with ⟨data, rfl⟩ | ⟨e, rfl⟩
      · exact ⟨_, if_pos ⟨rfl, rfl⟩⟩
      · exact ⟨_, if_pos ⟨rfl, rfl⟩⟩
    obtain ⟨v, hv⟩ := hvalue
    exact ⟨v, valueFor_shown host t hid hopen hv⟩

/-! ## Every run -/

section Runs

variable {env : NetEnv} {penv : PayloadEnv} {tab : TabId} {targetVar : String} {call : DataCall}
  {trace : List NetEvent} {outcome : Except MizuError (List NetworkResult)}

theorem requestBody_ok_iff : (∃ body, call.requestBody penv = .ok body) ↔ call.PayloadFits penv := by
  unfold DataCall.requestBody DataCall.PayloadFits
  cases call.payload with
  | none => simp
  | some v =>
    simp only [mem_some_iff, forall_eq', ← serializePayload_ok_iff]
    constructor
    · grind [except_bind_ok_iff]
    · rintro ⟨serialized, hserialized⟩
      exact ⟨_, by rw [hserialized]; rfl⟩

/-- How a task ends: with the payload, or as the fetch does. -/
theorem fetchTask_run (h : Run (fetchTask env penv tab targetVar call) trace outcome) :
    (∃ e, call.requestBody penv = .error e ∧ trace = [] ∧ outcome = .ok [.error (some tab) e]) ∨
    ∃ body, call.requestBody penv = .ok body ∧
      ((∃ data, Run (handleFetch env (call.request body) call.url) trace (.ok data) ∧
          outcome = .ok [.success tab targetVar (.string data)]) ∨
        ∃ e, Run (handleFetch env (call.request body) call.url) trace (.error e) ∧
          outcome = .ok [.fetchFailed tab targetVar e]) := by
  unfold fetchTask at h
  split at h
  · rename_i e hbody
    obtain ⟨rfl, rfl⟩ := run_pure_iff.mp h
    exact .inl ⟨e, hbody, rfl, rfl⟩
  · rename_i body hbody
    refine .inr ⟨body, hbody, ?_⟩
    rcases run_tryCatch_iff.mp h with ⟨results, rfl, hdone⟩ | ⟨e, first, rest, rfl, hfailed, hrest⟩
    · grind [run_bind_iff, run_pure_iff]
    · grind [run_pure_iff, run_bind_iff]

/-- A call is answered in its variable exactly where its payload can be serialised. -/
theorem fetch_answered_iff (h : Run (fetchTask env penv tab targetVar call) trace outcome) :
    AnsweredInVariable tab targetVar outcome ↔ call.PayloadFits penv := by
  rw [← requestBody_ok_iff]
  rcases fetchTask_run h with ⟨e, hbody, -, rfl⟩ | ⟨body, hbody, hend⟩
  · constructor
    · rintro ⟨⟨r, heq, hr⟩, -⟩
      obtain rfl : NetworkResult.error (some tab) e = r := by simpa using heq
      rcases hr with ⟨_, hr⟩ | ⟨_, hr⟩ <;> cases hr
    · rintro ⟨body, h⟩
      rw [hbody] at h
      cases h
  · refine ⟨fun _ => ⟨body, hbody⟩, fun _ => ?_⟩
    rcases hend with ⟨data, -, rfl⟩ | ⟨e, -, rfl⟩
    · exact .of_valueFor (.inl ⟨data, rfl⟩)
    · exact .of_valueFor (.inr ⟨e, rfl⟩)

end Runs

/-! ## A payload without a format -/

/-- Serialisation where no disk and no random source is asked. -/
def plainPayloadEnv : PayloadEnv where
  toVec json := bytesOf (writeScalar json)
  urlencode _ := []
  debugValue
    | .int i => "Int(" ++ toString i ++ ")"
    | v => v.display
  files _ := .error (.executionError "file upload: no such file")
  random := .ok []

def textCall (v : Value) : DataCall := ⟨"POST", "mizu://a.mizu/pay", some v, .text, []⟩

def textRequest : H3Request :=
  ⟨"POST", "https://a.mizu/pay", "a.mizu", none, some "text/plain; charset=utf-8", []⟩

def textEvents : List NetEvent :=
  [⟨.load "a.mizu", .ok none⟩, ⟨.resolveDomain "a.mizu" false, .ok ⟨.v4 ⟨93, 184, 216, 34⟩, 443⟩⟩,
    ⟨.getOrConnect ⟨.v4 ⟨93, 184, 216, 34⟩, 443⟩ "a.mizu", .ok ()⟩, ⟨.sendRequest textRequest, .ready ()⟩,
    ⟨.sendData textRequest [104, 105], .ready ()⟩, ⟨.finish textRequest, ⟨.ready (), true⟩⟩,
    ⟨.recvResponse textRequest, .ready ⟨200, "200 OK", none, none⟩⟩,
    ⟨.recvData textRequest, ⟨[[111, 107]], .ready ()⟩⟩]

theorem fetch_answered_text :
    Run (fetchTask plainNetEnv plainPayloadEnv ⟨1⟩ "reply" (textCall (.string "hi"))) textEvents
      (.ok [.success ⟨1⟩ "reply" (.string "ok")]) ∧
    (textCall (.string "hi")).PayloadFits plainPayloadEnv ∧
    AnsweredInVariable ⟨1⟩ "reply" (.ok [.success ⟨1⟩ "reply" (.string "ok")]) := by
  have hrun : Run (fetchTask plainNetEnv plainPayloadEnv ⟨1⟩ "reply" (textCall (.string "hi"))) textEvents
      (.ok [.success ⟨1⟩ "reply" (.string "ok")]) := run_of_replay (by rfl)
  have hfits : (textCall (.string "hi")).PayloadFits plainPayloadEnv := by
    rintro v hv
    obtain rfl := mem_some_iff.mp hv
    exact ⟨"hi", rfl⟩
  exact ⟨hrun, hfits, (fetch_answered_iff hrun).mpr hfits⟩

/-- The error of a number sent as text does not say whose it is. -/
theorem text_payload_unanswered :
    ¬∀ (env : NetEnv) (penv : PayloadEnv) (tab : TabId) (targetVar : String) (call : DataCall)
      (trace : List NetEvent) (outcome : Except MizuError (List NetworkResult)),
      Run (fetchTask env penv tab targetVar call) trace outcome → AnsweredInVariable tab targetVar outcome := by
  intro h
  obtain ⟨⟨r, heq, hr⟩, -⟩ := h plainNetEnv plainPayloadEnv ⟨1⟩ "reply" (textCall (.int 1)) []
    (.ok [.error (some ⟨1⟩) (.executionError "`as text` payload must be a string, got Int(1)")])
    (run_of_replay (by rfl))
  obtain rfl := List.singleton_inj.mp (Except.ok.inj heq)
  rcases hr with ⟨_, hr⟩ | ⟨_, hr⟩ <;> cases hr

end Mizu
