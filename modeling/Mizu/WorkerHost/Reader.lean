import Mizu.Ipc.Rehydrate
import Mizu.Render.Broker

/-!
# The two ends of a worker's bridge

The router thread and a worker's reader thread share one `TabPolicy` under a mutex. `forward` is
what the router does to it before it sends an event, `readerStep` what the reader does with a frame:
it takes the oldest outstanding event's agency and copies the registry and the domain in one
critical section, then authorizes the frame with them (`judge`).
-/

namespace Mizu

structure TabPolicy where
  /-- The agency of each event sent and not yet answered, oldest first. -/
  pending : List EventAgency
  urlRegistry : UrlRegistry
  documentDomain : String

namespace TabPolicy

def new : TabPolicy := ⟨[], ∅, ""⟩

/-- The router's critical section. -/
def forward (policy : TabPolicy) (event : UiEvent) : TabPolicy :=
  let policy := { policy with pending := policy.pending ++ [.of event] }
  match event with
  | .reload payload =>
    { policy with urlRegistry := payload.urlRegistry, documentDomain := payload.documentDomain }
  | _ => policy

end TabPolicy

section Reader

-- The derived `Debug` text of a worker's error, which the reader passes on.
variable (debug : WireWorkerError → String)

/-- What the reader thread makes of a frame with an agency, a registry and a domain; `none` for a
frame that has nothing to report. -/
def judge (agency : EventAgency) (registry : UrlRegistry) (documentDomain : String) :
    WireWorkerEnvelope → Option (Except MizuError WorkerResponse)
  | .noOp => none
  | .err e => some (.error (.executionError (debug e)))
  | .hello _ =>
    some (.error (.ipcError "worker replayed the Hello handshake frame mid-session"))
  | .ok wire =>
    match Rehydrate.workerResponse wire with
    | .error e => some (.error (.ipcError ("malformed worker response: " ++ e.display)))
    | .ok response =>
      some (.ok { response with
        runtimeActions := authorizeAll response.runtimeActions agency registry documentDomain
        gesture := agency.isUserGesture })

def unsolicited : MizuError := .ipcError "worker sent a reply with no event outstanding"

/-- One round of `reader_loop`: what it leaves in the policy and what it sends to the window. -/
def readerStep (policy : TabPolicy) (envelope : WireWorkerEnvelope) :
    TabPolicy × Option (Except MizuError WorkerResponse) :=
  match policy.pending with
  | [] => (policy, some (.error unsolicited))
  | agency :: pending =>
    ({ policy with pending },
      judge debug agency policy.urlRegistry policy.documentDomain envelope)

/-- A response that reaches the window was judged with the agency of the oldest event outstanding
and the registry and domain of the moment. -/
theorem readerStep_ok {policy : TabPolicy} {envelope : WireWorkerEnvelope}
    {response : WorkerResponse} (h : (readerStep debug policy envelope).2 = some (.ok response)) :
    ∃ agency pending wire sent, policy.pending = agency :: pending ∧ envelope = .ok wire ∧
      Rehydrate.workerResponse wire = .ok sent ∧ response.gesture = agency.isUserGesture ∧
      response.runtimeActions =
        authorizeAll sent.runtimeActions agency policy.urlRegistry policy.documentDomain := by
  unfold readerStep at h
  split at h
  · cases h
  · rename_i agency pending hpending
    simp only [judge] at h
    split at h
    · cases h
    · cases h
    · cases h
    · rename_i wire
      split at h
      · cases h
      · rename_i sent hsent
        cases h
        exact ⟨agency, pending, wire, sent, hpending, rfl, hsent, rfl, rfl⟩

end Reader

end Mizu
