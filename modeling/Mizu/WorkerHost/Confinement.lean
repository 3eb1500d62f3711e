import Mizu.WorkerHost.Reader

/-!
# Confinement of a compromised worker

Whatever a worker sends, an action that reaches the window names an endpoint of the broker's own
table and passed the path gate, no pre-resolved URL gets through, a navigation answers a gesture, and
a frame that answers no event authorizes nothing (`readerStep_confined`). The header names and the
verb of a call are not looked at: `broker_confines_iff` says for which frames the rules that the
parser enforces hold all the same, `broker_passes_authorization` that some do not.
-/

namespace Mizu

open Exec

section Rules

variable (fromStr : String → Except String Unit) (registry : UrlRegistry) (documentDomain : String)

/-- The URL of a call: an alias of the table, with a path parameter that passes the gate. -/
def ResolvedFrom (url : String) : Prop :=
  ∃ sym ep pathParam, registry.lookup sym = some ep ∧
    (∀ pp, pathParam = some pp → pathParamOk pp = true) ∧
    resolveEndpointUrl documentDomain ep pathParam = .ok url

/-- The rules of the parser on what a call carries. -/
structure ParserAccepts (method : NetworkMethod) (hasPayload : Bool) (headerNames : List String) :
    Prop where
  headers : ∀ name ∈ headerNames, validateHeaderName fromStr name method.asStr = .ok ()
  body : hasPayload = true → method.hasBody = true

/-- What a document may ask for, of an action the window receives. -/
def ActionAllowed (event : UiEvent) : RuntimeAction → Prop
  | .resolvedCall method url payload _ _ headers =>
    ResolvedFrom registry documentDomain url ∧
      ∃ m : NetworkMethod, method = m.asStr ∧
        ParserAccepts fromStr m payload.isSome (headers.map (·.1))
  | .downloadMedia url => ∃ sym ep, registry.lookup sym = some ep ∧ url = ep.rawTarget
  | .navigate _ => (∃ n, event = .click n) ∨ ∃ n fields, event = .submitForm n fields
  -- Aliases are resolved, or the action is refused.
  | .networkCall _ _ _ _ _ _ _ => False
  | .downloadAlias _ => False
  | _ => True

/-- An action that carries a URL of the worker's own making. -/
def WireRuntimeAction.preResolved : WireRuntimeAction → Bool
  | .resolvedCall _ _ _ _ _ _ _ | .downloadMedia _ => true
  | _ => false

/-- What holds of every action of a response that reaches the window. -/
def Confined (event : UiEvent) (wire : WireWorkerResponse) (response : WorkerResponse) : Prop :=
  ∀ a ∈ response.runtimeActions, ActionAllowed fromStr registry documentDomain event a ∧
    ∃ w ∈ wire.runtimeActions, w.preResolved = false ∧ ∃ b, Rehydrate.runtimeAction w = .ok b ∧
      authorizeAction b documentDomain registry (.of event) = .ok a

/-- The worker's call is one that the parser would accept, if the broker resolves it. -/
def CallAccepted : WireRuntimeAction → Prop
  | .networkCall method sym payload pathParam _ _ headerKeys _ =>
    (∃ ep, registry.lookup ⟨sym⟩ = some ep) → (∀ pp, pathParam = some pp → pathParamOk pp = true) →
      ParserAccepts fromStr method payload.isSome headerKeys
  | _ => True

end Rules

section Confined

variable {fromStr : String → Except String Unit} {registry : UrlRegistry} {documentDomain : String}
variable {event : UiEvent}

theorem gesture_of (h : (EventAgency.of event).isUserGesture = true) :
    (∃ n, event = .click n) ∨ ∃ n fields, event = .submitForm n fields := by
  cases event with
  | click n => exact .inl ⟨n, rfl⟩
  | submitForm n fields => exact .inr ⟨n, fields, rfl⟩
  | _ => cases h

theorem lookupEndpoint_ok {sym : Nat} {ep : UrlEndpoint} (h : lookupEndpoint registry sym = .ok ep) :
    registry.lookup ⟨sym⟩ = some ep := by
  grind [lookupEndpoint]

/-- Rehydration keeps the number of values. -/
theorem values_length {ws : List WireValue} {n : Nat} {vs : List Value}
    (h : Rehydrate.values ws n = .ok vs) : vs.length = ws.length := by
  induction ws generalizing vs with
  | nil =>
    rw [Rehydrate.values] at h
    cases h
    rfl
  | cons w ws ih =>
    rw [Rehydrate.values] at h
    obtain ⟨v, -, h⟩ := except_of_bind_ok h
    obtain ⟨rest, hrest, h⟩ := except_of_bind_ok h
    cases h
    rw [List.length_cons, List.length_cons, ih hrest]

theorem headers_names {keys : List String} {vals : List WireValue} {hs : List (String × Value)}
    (h : Rehydrate.headers keys vals = .ok hs) : hs.map (·.1) = keys := by
  unfold Rehydrate.headers at h
  split at h
  · cases h
  · rename_i hlen
    obtain ⟨vs, hvs, h⟩ := except_of_bind_ok h
    cases h
    have := values_length hvs
    exact List.map_fst_zip (by omega)

theorem payload_isSome {p : Option WireValue} {v : Option Value} (h : Rehydrate.payload p = .ok v) :
    v.isSome = p.isSome := by
  cases p with
  | none =>
    cases h
    rfl
  | some w =>
    obtain ⟨u, -, h⟩ := except_of_bind_ok h
    cases h
    rfl

theorem NetworkMethod.asStr_inj {m m' : NetworkMethod} (h : m.asStr = m'.asStr) : m = m' := by
  cases m <;> cases m' <;> first | rfl | simp [asStr] at h

theorem runtimeAction_networkCall {method : NetworkMethod} {sym : Nat} {p : Option WireValue}
    {pathParam : Option String} {target : Nat} {format : PayloadFormat} {keys : List String}
    {vals : List WireValue} {b : RuntimeAction}
    (h : Rehydrate.runtimeAction (.networkCall method sym p pathParam target format keys vals) =
      .ok b) :
    ∃ v hs, b = .networkCall method sym v pathParam ⟨target⟩ format hs ∧
      v.isSome = p.isSome ∧ hs.map (·.1) = keys := by
  obtain ⟨v, hv, h⟩ := except_of_bind_ok h
  obtain ⟨hs, hhs, h⟩ := except_of_bind_ok h
  cases h
  exact ⟨v, hs, rfl, payload_isSome hv, headers_names hhs⟩

/-- The broker resolves a call exactly if its alias is declared and its path parameter passes. -/
theorem authorize_networkCall {method : NetworkMethod} {sym : Nat} {v : Option Value}
    {pathParam : Option String} {target : Symbol} {format : PayloadFormat}
    {hs : List (String × Value)} {agency : EventAgency} {a : RuntimeAction} :
    authorizeAction (.networkCall method sym v pathParam target format hs) documentDomain registry
        agency = .ok a ↔
      ∃ ep url, registry.lookup ⟨sym⟩ = some ep ∧
        resolveEndpointUrl documentDomain ep pathParam = .ok url ∧
        a = .resolvedCall method.asStr url v target format hs := by
  constructor
  · intro h
    obtain ⟨ep, hep, h⟩ := except_of_bind_ok h
    obtain ⟨url, hurl, h⟩ := except_of_bind_ok h
    cases h
    exact ⟨ep, url, lookupEndpoint_ok hep, hurl, rfl⟩
  · rintro ⟨ep, url, hep, hurl, rfl⟩
    have hlookup : lookupEndpoint registry sym = .ok ep := by
      unfold lookupEndpoint
      rw [hep]
    show (do
      let endpoint ← lookupEndpoint registry sym
      let url ← resolveEndpointUrl documentDomain endpoint pathParam
      return RuntimeAction.resolvedCall method.asStr url v target format hs) = _
    rw [hlookup]
    show (do
      let url ← resolveEndpointUrl documentDomain ep pathParam
      return RuntimeAction.resolvedCall method.asStr url v target format hs) = _
    rw [hurl]
    rfl

/-- An action of an accepted frame that the broker approves is allowed, and was not resolved by the
worker. -/
theorem approved_allowed {w : WireRuntimeAction} {b a : RuntimeAction}
    (haccepted : CallAccepted fromStr registry w) (hw : Rehydrate.runtimeAction w = .ok b)
    (ha : authorizeAction b documentDomain registry (.of event) = .ok a) :
    ActionAllowed fromStr registry documentDomain event a ∧ w.preResolved = false := by
  cases w with
  | networkCall method sym p pathParam target format keys vals =>
    obtain ⟨v, hs, rfl, hv, hkeys⟩ := runtimeAction_networkCall hw
    obtain ⟨ep, url, hep, hurl, rfl⟩ := authorize_networkCall.mp ha
    have hpp := resolveEndpointUrl_ok_iff.mp ⟨url, hurl⟩
    have haccepts : ParserAccepts fromStr method p.isSome keys := haccepted ⟨ep, hep⟩ hpp
    refine ⟨⟨⟨_, ep, pathParam, hep, hpp, hurl⟩, method, rfl, ?_⟩, rfl⟩
    rw [hv, hkeys]
    exact haccepts
  | resolvedCall method url p target format keys vals =>
    obtain ⟨v, -, hw⟩ := except_of_bind_ok hw
    obtain ⟨hs, -, hw⟩ := except_of_bind_ok hw
    cases hw
    cases ha
  | storeLocal key v =>
    obtain ⟨v, -, hw⟩ := except_of_bind_ok hw
    cases hw
    cases ha
    exact ⟨trivial, rfl⟩
  | navigate url =>
    cases hw
    simp only [authorizeAction] at ha
    split at ha
    · rename_i hgesture
      cases ha
      exact ⟨gesture_of hgesture, rfl⟩
    · cases ha
  | downloadAlias sym =>
    cases hw
    obtain ⟨ep, hep, ha⟩ := except_of_bind_ok ha
    cases ha
    exact ⟨⟨_, ep, lookupEndpoint_ok hep, rfl⟩, rfl⟩
  | downloadMedia url =>
    cases hw
    cases ha
  | none | copyToClipboard | getSystemTime =>
    cases hw
    cases ha
    exact ⟨trivial, rfl⟩

variable {wire : WireWorkerResponse}

/-- The actions of a rehydrated response are those of the frame, each rehydrated. -/
theorem workerResponse_actions {sent : WorkerResponse} (h : Rehydrate.workerResponse wire = .ok sent) :
    wire.runtimeActions.mapM Rehydrate.runtimeAction = .ok sent.runtimeActions := by
  unfold Rehydrate.workerResponse at h
  split at h
  · cases h
  · obtain ⟨vals, -, h⟩ := except_of_bind_ok h
    obtain ⟨actions, hactions, h⟩ := except_of_bind_ok h
    cases h
    exact hactions

theorem confined_of_accepted
    {sent response : WorkerResponse} (hsent : Rehydrate.workerResponse wire = .ok sent)
    (hactions : response.runtimeActions =
      authorizeAll sent.runtimeActions (.of event) registry documentDomain)
    (haccepted : ∀ w ∈ wire.runtimeActions, CallAccepted fromStr registry w) :
    Confined fromStr registry documentDomain event wire response := by
  intro a ha
  rw [hactions, mem_authorizeAll] at ha
  obtain ⟨b, hb, hauth⟩ := ha
  obtain ⟨w, hw, hwb⟩ := (except_mapM_mem (workerResponse_actions hsent)).1 b hb
  obtain ⟨hallowed, hpre⟩ := approved_allowed (haccepted w hw) hwb hauth
  exact ⟨hallowed, w, hw, hpre, b, hwb, hauth⟩

theorem accepted_of_confined
    {sent response : WorkerResponse} (hsent : Rehydrate.workerResponse wire = .ok sent)
    (hactions : response.runtimeActions =
      authorizeAll sent.runtimeActions (.of event) registry documentDomain)
    (hconfined : Confined fromStr registry documentDomain event wire response)
    {w : WireRuntimeAction} (hw : w ∈ wire.runtimeActions) : CallAccepted fromStr registry w := by
  cases w with
  | networkCall method sym p pathParam target format keys vals =>
    rintro ⟨ep, hep⟩ hpp
    obtain ⟨b, hb, hwb⟩ := (except_mapM_mem (workerResponse_actions hsent)).2 _ hw
    obtain ⟨v, hs, rfl, hv, hkeys⟩ := runtimeAction_networkCall hwb
    obtain ⟨url, hurl⟩ : ∃ url, resolveEndpointUrl documentDomain ep pathParam = .ok url :=
      resolveEndpointUrl_ok_iff.mpr hpp
    have hin : RuntimeAction.resolvedCall method.asStr url v ⟨target⟩ format hs ∈
        response.runtimeActions := by
      rw [hactions, mem_authorizeAll]
      exact ⟨_, hb, authorize_networkCall.mpr ⟨ep, url, hep, hurl, rfl⟩⟩
    obtain ⟨⟨-, m, hm, haccepts⟩, -⟩ := hconfined _ hin
    obtain rfl := NetworkMethod.asStr_inj hm
    rwa [hv, hkeys] at haccepts
  | _ => trivial

/-- For which frames everything that reaches the window obeys the parser's rules: those whose calls,
as far as the broker resolves them, have header names and a body that the parser would accept. -/
theorem broker_confines_iff (fromStr : String → Except String Unit)
    (debug : WireWorkerError → String) (registry : UrlRegistry) (documentDomain : String)
    (events : List UiEvent) (envelope : WireWorkerEnvelope) :
    (∀ response,
        (readerStep debug ⟨events.map .of, registry, documentDomain⟩ envelope).2 =
          some (.ok response) →
        ∃ event rest wire, events = event :: rest ∧ envelope = .ok wire ∧
          Confined fromStr registry documentDomain event wire response) ↔
      ∀ wire, envelope = .ok wire → events ≠ [] →
        (∃ sent, Rehydrate.workerResponse wire = .ok sent) →
        ∀ w ∈ wire.runtimeActions, CallAccepted fromStr registry w := by
  constructor
  · rintro h wire rfl hevents ⟨sent, hsent⟩ w hw
    obtain ⟨event, rest, rfl⟩ := List.exists_cons_of_ne_nil hevents
    have hread : (readerStep debug ⟨(event :: rest).map .of, registry, documentDomain⟩
        (.ok wire)).2 = some (.ok { sent with
          runtimeActions := authorizeAll sent.runtimeActions (.of event) registry documentDomain
          gesture := (EventAgency.of event).isUserGesture }) := by
      simp only [readerStep, List.map_cons, judge, hsent]
    obtain ⟨event', rest', wire', hevent, hwire, hconfined⟩ := h _ hread
    cases hevent
    cases hwire
    exact accepted_of_confined hsent rfl hconfined hw
  · intro h response hread
    obtain ⟨agency, pending, wire, sent, hpending, rfl, hsent, -, hactions⟩ :=
      readerStep_ok debug hread
    cases events with
    | nil => cases hpending
    | cons event rest =>
      simp only [List.map_cons, List.cons.injEq] at hpending
      obtain ⟨rfl, -⟩ := hpending
      have haccepted := h wire rfl (List.cons_ne_nil _ _) ⟨sent, hsent⟩
      exact ⟨event, rest, wire, rfl, rfl, confined_of_accepted hsent hactions haccepted⟩

/-- A worker asks for a declared alias with an `Authorization` header of its own, and the window gets
the call. -/
theorem broker_passes_authorization :
    ¬∀ (fromStr : String → Except String Unit) (debug : WireWorkerError → String)
      (registry : UrlRegistry) (documentDomain : String) (events : List UiEvent)
      (envelope : WireWorkerEnvelope) (response : WorkerResponse),
        (readerStep debug ⟨events.map .of, registry, documentDomain⟩ envelope).2 =
          some (.ok response) →
        ∃ event rest wire, events = event :: rest ∧ envelope = .ok wire ∧
          Confined fromStr registry documentDomain event wire response := by
  intro h
  let wire : WireWorkerResponse :=
    { mutatedSyms := [], mutatedValues := [], gesture := false
      runtimeActions :=
        [.networkCall .get 0 none none 1 .json ["Authorization"] [.str "Bearer stolen"]] }
  obtain ⟨event, rest, wire', hevent, -, hconfined⟩ :=
    h (fun _ => .ok ()) (fun _ => "") (Finmap.singleton ⟨0⟩ ⟨.api, "/me"⟩) "a.mizu" [.rootTimer 0]
      (.ok wire) _ rfl
  obtain ⟨⟨-, m, -, haccepts⟩, -⟩ := hconfined
    (.resolvedCall "GET" "mizu://a.mizu/me" none ⟨1⟩ .json
      [("Authorization", .string "Bearer stolen")]) (List.Mem.head _)
  have hreserved := not_reserved_of_valid (haccepts.headers "Authorization" (by simp))
  exact absurd hreserved (by decide)

end Confined

end Mizu
