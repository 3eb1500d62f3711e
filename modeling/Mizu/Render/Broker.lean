import Mizu.Messages

/-!
# The capability broker

Every action of an untrusted worker passes `authorizeAction`, which resolves aliases in the broker's
own table and lets a navigation through only if the event was a user gesture.
-/

namespace Mizu

/-- Whether the event that produced an action was a user's. -/
inductive EventAgency where
  | userGesture
  | documentDriven
  deriving DecidableEq, Repr

/-- `EventAgency::of`. -/
def EventAgency.of : UiEvent → EventAgency
  | .click _ | .submitForm _ _ => userGesture
  | .rootTimer _ | .updateVariable _ _ | .reload _ | .closeTab => documentDriven

def EventAgency.isUserGesture (agency : EventAgency) : Bool := agency = userGesture

def EventAgency.debug : EventAgency → String
  | userGesture => "UserGesture"
  | documentDriven => "DocumentDriven"

/-- `lookup_endpoint`. -/
def lookupEndpoint (registry : UrlRegistry) (endpointSymbol : Nat) : Except MizuError UrlEndpoint :=
  match registry.lookup ⟨endpointSymbol⟩ with
  | some ep => .ok ep
  | none =>
    .error (.securityViolation ("sandboxed worker referenced endpoint alias " ++
      toString endpointSymbol ++ ", which is not declared in this document's urls block"))

/-- `authorize_action` for actions of a sandboxed worker, the only origin the bridge uses. -/
def authorizeAction (action : RuntimeAction) (documentDomain : String) (registry : UrlRegistry)
    (agency : EventAgency) : Except MizuError RuntimeAction :=
  match action with
  | .resolvedCall _ url _ _ _ _ =>
    .error (.securityViolation ("sandboxed worker sent a pre-resolved network call to `" ++ url ++
      "`; only NetworkCall (broker-resolved against the compile-time UrlRegistry) is accepted " ++
      "from an untrusted worker"))
  | .downloadMedia url =>
    .error (.securityViolation ("sandboxed worker sent a pre-resolved media download for `" ++ url ++
      "`; only DownloadAlias (broker-resolved against the compile-time UrlRegistry) is accepted " ++
      "from an untrusted worker"))
  | .networkCall method sym payload pathParam targetVariable format headers => do
    let endpoint ← lookupEndpoint registry sym
    let url ← resolveEndpointUrl documentDomain endpoint pathParam
    return .resolvedCall method.asStr url payload targetVariable format headers
  | .downloadAlias sym => do
    let endpoint ← lookupEndpoint registry sym
    return .downloadMedia endpoint.rawTarget
  | .navigate url =>
    if agency.isUserGesture then .ok (.navigate url)
    else
      .error (.securityViolation ("sandboxed worker requested Navigate to `" ++ url ++
        "` without gate G1: the event the broker sent was " ++ agency.debug ++
        ", not a Click or SubmitForm user gesture"))
  | other => .ok other

/-- `authorize_all`: refused actions are dropped. -/
def authorizeAll (actions : List RuntimeAction) (agency : EventAgency) (registry : UrlRegistry)
    (documentDomain : String) : List RuntimeAction :=
  actions.filterMap fun a =>
    match authorizeAction a documentDomain registry agency with
    | .ok a => some a
    | .error _ => none

theorem mem_authorizeAll {actions : List RuntimeAction} {agency : EventAgency}
    {registry : UrlRegistry} {documentDomain : String} {a : RuntimeAction} :
    a ∈ authorizeAll actions agency registry documentDomain ↔
      ∃ b ∈ actions, authorizeAction b documentDomain registry agency = .ok a := by
  simp only [authorizeAll, List.mem_filterMap]
  constructor
  · rintro ⟨b, hb, h⟩
    refine ⟨b, hb, ?_⟩
    split at h
    · cases h
      assumption
    · cases h
  · rintro ⟨b, hb, h⟩
    exact ⟨b, hb, by rw [h]⟩

end Mizu
