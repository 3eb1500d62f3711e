import Mizu.Render.Broker
import Mizu.Render.Fetches
import Mizu.Render.InspectorLog
import Mizu.Render.Loading

/-!
# The network log of a tab

`opens` is the entry that a move of the window logs, `NetworkResult.complete` what a result does to the log.
Beside the log stands a ledger, which the code does not have: one line for each data call and navigation, in the
order in which they were dispatched, with their answers.

* `loadStep_opens`: a command of a data call or navigation is logged with it.
* `describable_of_authorized`: the broker lets no action through that is sent without being logged.
* `logStep_sound`: a step whose answers find their entries keeps the log true to the ledger.
* `network_log_truthful`: the log shows the ledger, if every answer finds the entry of its operation.
* `network_log_untruthful`: the answer to a data call does not.
-/

namespace Mizu

open Transition List

/-! ## What is logged -/

/-- The entry that `navigate_to_url` logs. -/
def navigationEntry (host : Host) (currentUrl url : String) (initiator : NavigationInitiator) : Option NetEntry :=
  if url = "about:blank" then none
  else
    match navigationTarget host currentUrl url with
    | none =>
      some (.blocked "NAV" url
        (if containsScheme url then "file:// target escapes sandbox" else "relative path escapes file:// sandbox"))
    | some resolvedUrl =>
      match checkNavigation currentUrl resolvedUrl initiator with
      | .block reason => some (.blocked "NAV" resolvedUrl reason)
      | .allow target =>
        if startsWith "file://" target then none
        else if startsWith "mizu://" target then some (.start "NAV" target (some target))
        else none

/-- A navigation that goes to the network is logged with its URL as the key. -/
theorem navigationEntry_dispatches {host : Host} {currentUrl url target : String} {initiator : NavigationInitiator}
    (h : navigationOutcome host currentUrl url initiator = .dispatches target) :
    navigationEntry host currentUrl url initiator = some (.start "NAV" target (some target)) := by
  unfold navigationOutcome at h
  unfold navigationEntry
  split at h
  · cases h
  rw [if_neg ‹_›]
  cases htarget : navigationTarget host currentUrl url with
  | none => simp [htarget] at h
  | some resolvedUrl => grind

inductive CapabilityOutcome where
  | dispatched
  | blocked (reason : String)
  deriving DecidableEq, Repr

/-- What `execute_tab_capability_action` says about an action: its verb, its target and the key. -/
def RuntimeAction.described : RuntimeAction → Option (String × String × Option String)
  | .resolvedCall method url _ targetVariable _ _ => some (method, url, some (toString targetVariable.id))
  | .storeLocal key _ => some ("STORE", key, Option.none)
  | .downloadMedia url => some ("MEDIA", url, Option.none)
  | _ => Option.none

namespace TabState

variable {F : Frontend} (host : Host) (tab : TabState F) (ctx : WindowCtx)

/-- What `execute_capability_action` returns. -/
def capabilityOutcome : RuntimeAction → CapabilityOutcome
  | .resolvedCall _ url _ targetVariable _ _ =>
    if tab.reachesOut host url then
      .blocked ("file:// origin blocked from outbound call to remote host " ++ url)
    else if (tab.store.interner.resolve targetVariable).isNone then
      .blocked "internal error: unresolvable target variable"
    else .dispatched
  | .storeLocal _ value =>
    match (tab.capabilityPolicy.checkStorageWrite host ctx.storageUsage (estimateValueBytes value)).1 with
    | .error e => .blocked e.display
    | .ok () => .dispatched
  | .copyToClipboard _ => .blocked "clipboard action bypassed the gesture gate"
  | .navigate _ => .blocked "navigation action bypassed the navigation choke point"
  | .downloadMedia url =>
    if tab.reachesOut host url then .blocked ("file:// origin blocked from downloading remote media " ++ url)
    else .dispatched
  | .downloadAlias _ => .blocked "unresolved download alias"
  | .none | .getSystemTime _ | .networkCall .. => .dispatched

/-- The entry that `execute_tab_capability_action` logs. -/
def capabilityEntry (action : RuntimeAction) : Option NetEntry :=
  action.described.map fun (verb, target, correlation) =>
    match tab.capabilityOutcome host ctx action with
    | .blocked reason => .blocked verb target reason
    | .dispatched => if verb = "STORE" then .done verb target .ok else .start verb target correlation

end TabState

/-- The size of a text. -/
def Value.stringBytes : Value → Option Nat
  | .string s => some s.utf8ByteSize
  | _ => none

namespace NetworkResult

/-- What `process_network_result` does to the log, before it follows a redirect. -/
def complete (r : NetworkResult) (log : InspectorLog) : InspectorLog :=
  match r with
  | .success _ targetVar data => log.completeNet targetVar .ok data.stringBytes
  | .fetchFailed _ targetVar e => log.completeNet targetVar (.failed e.display) none
  | .error _ e => log.completeLatestPending (.failed e.display)
  | .navigateSuccess _ url source => log.completeNet url .ok (some source.utf8ByteSize)
  | .navigationRedirect _ _ _ => log.completeLatestPending .redirect

/-- How the operation ended that a result answers, and the size of the answer. -/
def outcome : NetworkResult → NetOutcome × Option Nat
  | .success _ _ data => (.ok, data.stringBytes)
  | .navigateSuccess _ _ source => (.ok, some source.utf8ByteSize)
  | .navigationRedirect _ _ _ => (.redirect, none)
  | .fetchFailed _ _ e | .error _ e => (.failed e.display, none)

/-- The variable under which a result of a data call looks for its entry. -/
def targetVar? : NetworkResult → Option String
  | .success _ targetVar _ | .fetchFailed _ targetVar _ => some targetVar
  | _ => none

/-- The entries that a result looks for. -/
def looksFor : NetworkResult → NetEntry → Bool
  | .success _ targetVar _, e | .fetchFailed _ targetVar _, e => e.isPending && e.correlation = some targetVar
  | .navigateSuccess _ url _, e => e.isPending && e.correlation = some url
  | .navigationRedirect _ _ _, e | .error _ _, e => e.isPending

end NetworkResult

/-- A completion changes the outcome and the size. -/
def Completes (answer : NetOutcome × Option Nat) (f : NetEntry → NetEntry) : Prop :=
  ∀ e, (f e).correlation = e.correlation ∧ (e.bytes = none → (f e).shown = (e.verb, e.target, answer))

/-- A result completes the last of the entries that it looks for. -/
theorem NetworkResult.complete_network {r : NetworkResult} {log : InspectorLog} {k : Nat}
    (h : IsLast r.looksFor log.network k) :
    ∃ f, Completes r.outcome f ∧ (r.complete log).network = log.network.modify k f := by
  cases r with
  | success id targetVar data =>
    refine ⟨_, fun e => ⟨?_, fun _ => ?_⟩, InspectorLog.completeNet_modify h⟩
    · rfl
    · rfl
  | fetchFailed id targetVar e =>
    refine ⟨_, fun e => ⟨?_, fun _ => ?_⟩, InspectorLog.completeNet_modify h⟩
    · rfl
    · rfl
  | navigateSuccess id url source =>
    refine ⟨_, fun e => ⟨?_, fun _ => ?_⟩, InspectorLog.completeNet_modify h⟩
    · rfl
    · rfl
  | navigationRedirect id newUrl initiator =>
    refine ⟨_, fun e => ⟨?_, fun hbytes => ?_⟩, InspectorLog.completeLatestPending_modify h⟩
    · rfl
    · simp [NetEntry.shown, outcome, hbytes]
  | error id e =>
    refine ⟨_, fun e => ⟨?_, fun hbytes => ?_⟩, InspectorLog.completeLatestPending_modify h⟩
    · rfl
    · simp [NetEntry.shown, outcome, hbytes]

/-! ## The ledger -/

/-- A data call or a navigation, and its answer. -/
structure Operation where
  verb : String
  target : String
  answer : Option (NetOutcome × Option Nat)
  deriving DecidableEq

/-- The operation of a command. -/
def NetworkCmd.operation? : NetworkCmd → Option Operation
  | .navigate _ url _ => some ⟨"NAV", url, none⟩
  | .fetch _ method url _ _ _ _ _ => some ⟨method, url, none⟩
  | .networkRequest _ method endpointSymbol _ _ _ _ _ => some ⟨method.asStr, toString endpointSymbol, none⟩
  | .fetchImage _ _ _ _ | .storageStore _ _ _ => none

inductive Line where
  | operation (op : Operation)
  /-- Anything else that was logged. -/
  | note (entry : NetEntry)
  deriving DecidableEq

namespace Line

/-- What the log should show of a line. -/
def shown : Line → String × String × NetOutcome × Option Nat
  | .operation op => (op.verb, truncateDetail op.target, op.answer.getD (.pending, none))
  | .note entry => entry.shown

def answered (answer : NetOutcome × Option Nat) : Line → Line
  | .operation op => .operation { op with answer := some answer }
  | line => line

end Line

/-- The lines of commands and of the entry that is logged with them. -/
def linesOf (cmds : List NetworkCmd) (entry : Option NetEntry) : List Line :=
  match cmds.filterMap NetworkCmd.operation? with
  | [] => entry.toList.map .note
  | ops => ops.map .operation

/-- The line of a command that is sent now, if it has one. -/
def tagOf (ledger : List Line) (cmd : NetworkCmd) : Option Nat := cmd.operation?.map fun _ => ledger.length

/-! ## The moves -/

inductive LogMove where
  | tab (m : TabMove)
  | ask (host : Host) (url : String)
  | paint (host : Host) (path : String)
  /-- An image is there, or is not. -/
  | image (i : Nat) (error : Option MizuError)

def LogMove.load : LogMove → LoadMove
  | tab m => .tab m
  | ask host url => .ask host url
  | paint host path => .paint host path
  | image i error => .image i error.isNone

/-- The entry that a move logs, other than completing one. -/
def TabSystem.opens {F : Frontend} (s : TabSystem F) : LogMove → Option NetEntry
  | .tab (.result host) =>
    match s.results with
    | (_, .navigationRedirect _ newUrl initiator) :: _ =>
      if s.tab.redirectCount + 1 ≤ host.maxRedirects then
        navigationEntry host s.tab.chromeState.committedUrl newUrl initiator.intoRedirectOf
      else none
    | _ => none
  | .tab (.act host) =>
    match s.acting with
    | (_, gesture, .navigate url) :: _ =>
      navigationEntry host s.tab.chromeState.committedUrl url (initiatorOf gesture)
    | (_, _, .copyToClipboard _) :: _ => none
    | (_, _, action) :: _ => s.tab.capabilityEntry host s.ctx.cleared action
    | [] => none
  | .tab m =>
    (s.asks m).bind fun (host, url, initiator) =>
      navigationEntry host s.tab.chromeState.committedUrl url initiator
  | .ask host url => navigationEntry host s.tab.chromeState.committedUrl url .userGesture
  | .paint _ _ => none
  | .image i error =>
    match s.inFlight[i]? with
    | some (_, .fetchImage _ url _ _) =>
      some (.done "IMG" url (match error with | none => .ok | some e => .failed e.display))
    | _ => none

structure LogSystem (F : Frontend) where
  sys : TabSystem F
  log : InspectorLog
  ledger : List Line
  /-- For every command in flight the line of its operation, if it is one. -/
  sent : List (Option Nat)
  /-- For every result that is not processed the line of the operation that it answers. -/
  due : List Nat

namespace LogSystem

variable {F : Frontend} (s : LogSystem F)

def start (host : Host) (tab : TabState F) (ctx : WindowCtx) : LogSystem F where
  sys := .start host tab ctx
  log := ⟨[]⟩
  ledger := []
  sent := []
  due := []

/-- The next result completes an entry and answers its operation. -/
def take : LogSystem F :=
  match s.sys.results, s.due with
  | (_, r) :: results, k :: due =>
    { s with
      sys := s.sys.received results
      log := r.complete s.log
      ledger := s.ledger.modify k (Line.answered r.outcome)
      due }
  | _, _ => s

/-- The commands that were sent between two states. -/
def commands (s t : TabSystem F) : List NetworkCmd := (t.inFlight.drop s.inFlight.length).map (·.2)

/-- The window has sent commands and logged an entry. -/
def opening (sys : TabSystem F) (entry : Option NetEntry) : LogSystem F where
  sys
  log := entry.elim s.log s.log.pushNet
  ledger := s.ledger ++ linesOf (commands s.sys sys) entry
  sent := s.sent ++ (commands s.sys sys).map (tagOf s.ledger)
  due := s.due

/-- A command is no longer in flight. -/
def erase (i : Nat) : LogSystem F :=
  { s with sys := { s.sys with inFlight := s.sys.inFlight.eraseIdx i }, sent := s.sent.eraseIdx i }

def logStep (m : LogMove) : Option (LogSystem F) :=
  (s.sys.loadStep m.load).map fun sys =>
    match m with
    | .tab (.complete i _) =>
      { s with sys, sent := s.sent.eraseIdx i, due := s.due ++ (s.sent[i]?.join).toList }
    | .tab (.result _) => s.take.opening sys (s.sys.opens m)
    | .image i _ => (s.erase i).opening sys (s.sys.opens m)
    | _ => s.opening sys (s.sys.opens m)

end LogSystem

/-! ## What is logged with the commands -/

/-- A command of an operation is logged with it, a navigation under its URL. -/
inductive Opens : List NetworkCmd → Option NetEntry → Prop where
  | operation {cmd op correlation} (hop : cmd.operation? = some op)
    (hkey : ∀ id url i, cmd = .navigate id url i → correlation = some url) :
    Opens [cmd] (some (.start op.verb op.target correlation))
  | note {cmds entry} (h : ∀ cmd ∈ cmds, cmd.operation? = none) : Opens cmds entry

theorem operation?_answer {cmd : NetworkCmd} {op : Operation} (h : cmd.operation? = some op) : op.answer = none := by
  cases cmd <;> cases h <;> rfl

theorem Opens.shown {cmds : List NetworkCmd} {entry : Option NetEntry} (h : Opens cmds entry) :
    (linesOf cmds entry).map Line.shown = entry.toList.map NetEntry.shown := by
  cases h with
  | operation hop => simp [linesOf, hop, Line.shown, NetEntry.shown, NetEntry.start, operation?_answer hop]
  | note hnone =>
    rw [linesOf, filterMap_eq_nil_iff.mpr hnone, map_map]
    rfl

theorem Opens.key {cmds : List NetworkCmd} {entry : Option NetEntry} {id : TabId} {url : String}
    {initiator : NavigationInitiator} (h : Opens cmds entry) (hmem : .navigate id url initiator ∈ cmds) :
    ∃ e, entry = some e ∧ e.correlation = some url := by
  cases h with
  | operation hop hkey => exact ⟨_, rfl, hkey id url initiator (mem_singleton.mp hmem).symm⟩
  | note hnone => cases hnone _ hmem

section Opens

variable {F : Frontend} {host : Host} {tab : TabState F} {ctx : WindowCtx} {out : TabState F × WindowCtx}
  {outcome : NavigationOutcome} {entry : Option NetEntry}

theorem opens_of_does (h : Does host tab ctx out outcome)
    (hentry : ∀ target, outcome = .dispatches target → entry = some (.start "NAV" target (some target))) :
    Opens out.2.networkTx entry := by
  cases outcome with
  | stays =>
    rw [h.2.2]
    exact .note nofun
  | dispatches target =>
    obtain ⟨-, -, initiator, hsent⟩ := h
    rw [hsent, hentry target rfl]
    exact @Opens.operation _ ⟨"NAV", target, none⟩ _ rfl fun id url i heq => by cases heq; rfl
  | commits url source =>
    obtain ⟨tab', -, rfl⟩ := h
    rw [(handleNavigateSuccess_cases host tab' ctx url source).1]
    exact .note nofun

/-- The commands that the log describes: an alias is resolved, and no method is taken for a write to the storage. -/
def NetworkCmd.Describable : NetworkCmd → Prop
  | .networkRequest _ _ _ _ _ _ _ _ => False
  | .fetch _ method _ _ _ _ _ _ => method ≠ "STORE"
  | _ => True

instance : DecidablePred NetworkCmd.Describable
  | .networkRequest _ _ _ _ _ _ _ _ => inferInstanceAs (Decidable False)
  | .fetch _ method _ _ _ _ _ _ => inferInstanceAs (Decidable (method ≠ "STORE"))
  | .navigate _ _ _ | .fetchImage _ _ _ _ | .storageStore _ _ _ => inferInstanceAs (Decidable True)

theorem capability_opens (host : Host) (tab : TabState F) (ctx : WindowCtx) (action : RuntimeAction)
    (h : ∀ cmd ∈ (tab.executeCapabilityAction host ctx.cleared action).2.networkTx, cmd.Describable) :
    Opens (tab.executeCapabilityAction host ctx.cleared action).2.networkTx
      (tab.capabilityEntry host ctx.cleared action) := by
  cases action with
  | resolvedCall method url payload sym format headers =>
    simp only [TabState.executeCapabilityAction, TabState.capabilityEntry, RuntimeAction.described, Option.map_some,
      TabState.capabilityOutcome] at h ⊢
    split
    · exact .note (forall_mem_nil _)
    rw [if_neg ‹_›] at h
    cases hname : tab.store.interner.resolve sym with
    | none => exact .note (forall_mem_nil _)
    | some targetVar =>
      simp only [hname] at h
      have hmethod : method ≠ "STORE" := h _ (mem_singleton_self _)
      simp only [Option.isNone_some, Bool.false_eq_true, if_false, if_neg hmethod]
      exact @Opens.operation _ ⟨method, url, none⟩ _ rfl (by simp)
  | networkCall method sym payload pathParam target format headers =>
    exact absurd (h _ (mem_singleton_self _)) id
  | storeLocal | downloadMedia =>
    apply Opens.note
    simp only [TabState.executeCapabilityAction]
    split
    · exact forall_mem_nil _
    · intro cmd hcmd
      obtain rfl := mem_singleton.mp hcmd
      rfl
  | getSystemTime sym =>
    apply Opens.note
    simp only [TabState.executeCapabilityAction]
    split
    · exact forall_mem_nil _
    · unfold WindowCtx.sendLogic
      split <;> exact forall_mem_nil _
  | _ => exact .note (forall_mem_nil _)

/-- An action all of whose commands the log describes. -/
def RuntimeAction.Describable : RuntimeAction → Prop
  | .networkCall _ _ _ _ _ _ _ => False
  | .resolvedCall method _ _ _ _ _ => method ≠ "STORE"
  | _ => True

theorem describable_of_action {action : RuntimeAction} (h : action.Describable) :
    ∀ cmd ∈ (tab.executeCapabilityAction host ctx.cleared action).2.networkTx, cmd.Describable := by
  cases action with
  | networkCall => exact absurd h id
  | resolvedCall method url payload sym format headers =>
    simp only [TabState.executeCapabilityAction]
    split
    · exact forall_mem_nil _
    split
    · exact forall_mem_nil _
    · intro cmd hcmd
      obtain rfl := mem_singleton.mp hcmd
      exact h
  | storeLocal | downloadMedia =>
    simp only [TabState.executeCapabilityAction]
    split
    · exact forall_mem_nil _
    · intro cmd hcmd
      obtain rfl := mem_singleton.mp hcmd
      trivial
  | getSystemTime sym =>
    simp only [TabState.executeCapabilityAction]
    split
    · exact forall_mem_nil _
    · unfold WindowCtx.sendLogic
      split <;> exact forall_mem_nil _
  | _ => exact forall_mem_nil _

/-- The broker lets only such actions through. -/
theorem describable_of_authorized {action action' : RuntimeAction} {documentDomain : String} {registry : UrlRegistry}
    {agency : EventAgency} (h : authorizeAction action documentDomain registry agency = .ok action') :
    action'.Describable := by
  cases action with
  | networkCall method sym payload pathParam target format headers =>
    unfold authorizeAction at h
    cases hendpoint : lookupEndpoint registry sym with
    | error e => simp [hendpoint, bind, Except.bind] at h
    | ok endpoint =>
      cases hurl : resolveEndpointUrl documentDomain endpoint pathParam with
      | error e => simp [hendpoint, hurl, bind, Except.bind] at h
      | ok url =>
        simp only [hendpoint, hurl, bind, Except.bind, pure, Except.pure, Except.ok.injEq] at h
        subst h
        cases method <;> simp [RuntimeAction.Describable, NetworkMethod.asStr]
  | downloadAlias sym =>
    unfold authorizeAction at h
    cases hendpoint : lookupEndpoint registry sym with
    | error e => simp [hendpoint, bind, Except.bind] at h
    | ok endpoint =>
      simp only [hendpoint, bind, Except.bind, pure, Except.pure, Except.ok.injEq] at h
      subst h
      trivial
  | navigate url =>
    simp only [authorizeAction] at h
    split at h <;> cases h
    trivial
  | _ => cases h <;> trivial

end Opens

namespace TabSystem

variable {F : Frontend} {s t : TabSystem F} {m : TabMove}

/-- The commands of the action that a move executes. -/
def acts (s : TabSystem F) : LogMove → List NetworkCmd
  | .tab (.act host) =>
    match s.acting with
    | (_, _, action) :: _ => (s.tab.executeCapabilityAction host s.ctx.cleared action).2.networkTx
    | [] => []
  | _ => []

/-- What a move of the window adds to the commands in flight, and what it logs with them. -/
structure Sends (s t : TabSystem F) (entry : Option NetEntry) (new : List (Ticket × NetworkCmd)) : Prop where
  inFlight : t.inFlight = s.inFlight ++ new
  results : t.results = s.results
  opens : Opens (new.map (·.2)) entry

theorem sends_nothing {entry : Option NetEntry} (hinFlight : t.inFlight = s.inFlight) (hresults : t.results = s.results) :
    Sends s t entry [] :=
  ⟨by rw [hinFlight, append_nil], hresults, .note nofun⟩

theorem sends_absorb {entry : Option NetEntry} (chain : Chain) {out : TabState F × WindowCtx}
    (h : Opens out.2.networkTx entry) :
    ∃ new, Sends s (s.absorb chain out) entry new :=
  ⟨_, rfl, rfl, by simpa [map_map, Function.comp_def] using h⟩

theorem sends_settle {entry : Option NetEntry} {out : TabState F × WindowCtx} (chain : Chain) (answers : Bool)
    (outcome : NavigationOutcome) (h : Opens out.2.networkTx entry) :
    ∃ new, Sends s (s.settle chain answers out outcome) entry new := by
  obtain ⟨new, hnew⟩ := sends_absorb (s := s) chain h
  cases outcome <;> exact ⟨new, hnew.inFlight, hnew.results, hnew.opens⟩

theorem sends_took {view acting} {entry : Option NetEntry} (h : ∃ new, Sends (s.took view acting) t entry new) :
    ∃ new, Sends s t entry new := by
  obtain ⟨new, h⟩ := h
  exact ⟨new, h.inFlight, h.results, h.opens⟩

theorem tabStep_opens (hresult : ∀ host, m ≠ .result host) (hcomplete : ∀ i c, m ≠ .complete i c)
    (hgood : ∀ cmd ∈ s.acts (.tab m), cmd.Describable)
    (hstep : s.step m = some t) : ∃ new, Sends s t (s.opens (.tab m)) new := by
  cases moves_of_step hstep with
  | nothing | drainError | drainOk | answer => exact ⟨[], sends_nothing rfl rfl⟩
  | event =>
    refine sends_absorb _ (.note ?_)
    unfold WindowCtx.sendLogic
    split <;> exact forall_mem_nil _
  | navigation hhost hacting hdoes hout =>
    refine sends_settle _ _ _ (opens_of_does hout fun target htarget => ?_)
    rw [starts_eq] at htarget
    cases m with
    | result host => exact absurd rfl (hresult host)
    | act host => simp [asks, hacting] at htarget
    | _ =>
      dsimp only [opens]
      split at htarget
      · rename_i hasks
        rw [hasks]
        exact navigationEntry_dispatches htarget
      · cases htarget
  | actNavigate hacting hout =>
    refine sends_took (sends_settle _ _ _ (opens_of_does hout fun target htarget => ?_))
    simp only [starts, hacting] at htarget
    simp only [opens, hacting]
    exact navigationEntry_dispatches htarget
  | act hacting haction =>
    rename_i host view gesture action acting
    simp only [acts, hacting] at hgood
    refine sends_took (sends_absorb _ ?_)
    have hcapability := capability_opens host s.tab s.ctx action hgood
    simp only [opens, hacting]
    cases action with
    | navigate url => exact absurd rfl (haction url)
    | copyToClipboard nodeId => exact .note (forall_mem_nil _)
    | _ => exact hcapability
  | result => exact absurd rfl (hresult _)
  | complete => exact absurd rfl (hcomplete _ _)

theorem resultStep_opens {host : Host} (hstep : s.step (.result host) = some t) : ∃ ticket r results,
    s.results = (ticket, r) :: results ∧
      ∃ new, Sends (s.received results) t (s.opens (.tab (.result host))) new := by
  simp only [step, result] at hstep
  split at hstep
  swap
  · cases hstep
  split at hstep
  · cases hstep
  rename_i ticket r results hresults
  cases hstep
  refine ⟨ticket, r, results, hresults, ?_⟩
  have hout : Does host s.tab s.ctx _ _ := processNetworkResult_does s r
  have hopens : Opens _ (s.opens (.tab (.result host))) := opens_of_does hout fun target htarget => by
    unfold resultOutcome at htarget
    split at htarget
    · cases htarget
    · split at htarget
      · rename_i hbudget
        simp only [opens, hresults, if_pos hbudget]
        exact navigationEntry_dispatches htarget
      · cases htarget
    · cases htarget
  obtain ⟨new, hnew⟩ := sends_settle (s := s.received results) ticket.chain ticket.isNavigation
    (s.resultOutcome host r) hopens
  exact ⟨new, hnew.inFlight, hnew.results, hnew.opens⟩

end TabSystem

/-! ## Lines and commands -/

section Lists

variable {α β : Type} {R : α → β → Prop} {xs : List α} {ys : List β} {i : Nat}

theorem forall₂_eraseIdx (h : List.Forall₂ R xs ys) : List.Forall₂ R (xs.eraseIdx i) (ys.eraseIdx i) := by
  induction h generalizing i with
  | nil => exact .nil
  | cons hxy hrest ih =>
    cases i with
    | zero => exact hrest
    | succ i => exact .cons hxy ih

theorem forall₂_getElem? {x : α} (h : List.Forall₂ R xs ys) (hx : xs[i]? = some x) : ∃ y, ys[i]? = some y ∧ R x y := by
  induction h generalizing i with
  | nil => cases hx
  | cons hxy hrest ih => grind

theorem filterMap_eraseIdx_perm {tags : List (Option Nat)} {tag : Option Nat} (h : tags[i]? = some tag) :
    (tags.filterMap id).Perm (tag.toList ++ (tags.eraseIdx i).filterMap id) := by
  induction tags generalizing i with
  | nil => cases h
  | cons first tags ih =>
    cases i with
    | zero =>
      obtain rfl := Option.some.inj h
      cases first <;> simp
    | succ i => grind

end Lists

/-- The tag of a command says which line describes it. -/
def Describes (ledger : List Line) (cmd : NetworkCmd) (tag : Option Nat) : Prop :=
  match cmd.operation? with
  | some op => ∃ k, tag = some k ∧ ledger[k]? = some (.operation op)
  | none => tag = none

def Unanswered (ledger : List Line) (k : Nat) : Prop :=
  ∃ op, ledger[k]? = some (.operation op) ∧ op.answer = none

theorem Describes.of_append {ledger lines : List Line} {cmd : NetworkCmd} {tag : Option Nat}
    (h : Describes ledger cmd tag) : Describes (ledger ++ lines) cmd tag := by
  grind [Describes]

theorem Unanswered.lt {ledger : List Line} {k : Nat} (h : Unanswered ledger k) : k < ledger.length := by
  obtain ⟨op, hk, -⟩ := h
  exact (List.getElem?_eq_some_iff.mp hk).1

theorem unanswered_append {ledger lines : List Line} {k : Nat} (hk : k < ledger.length) :
    Unanswered (ledger ++ lines) k ↔ Unanswered ledger k := by
  rw [Unanswered, Unanswered, List.getElem?_append_left hk]

/-- The lines that are opened for commands. -/
structure OpensLines (ledger : List Line) (cmds : List NetworkCmd) (lines : List Line) (ks : List Nat) : Prop where
  fresh : ks = [] ∨ ks = [ledger.length]
  tags : (cmds.map (tagOf ledger)).filterMap id = ks
  describes : ∀ cmd ∈ cmds, Describes (ledger ++ lines) cmd (tagOf ledger cmd)
  unanswered : ∀ k, Unanswered (ledger ++ lines) k → k < ledger.length ∨ k ∈ ks

theorem Opens.lines {cmds : List NetworkCmd} {entry : Option NetEntry} (h : Opens cmds entry) (ledger : List Line) :
    ∃ ks, OpensLines ledger cmds (linesOf cmds entry) ks := by
  cases h with
  | @operation cmd op correlation hop hkey =>
    have hlines : linesOf [cmd] (some (.start op.verb op.target correlation)) = [.operation op] := by
      simp [linesOf, hop]
    refine ⟨[ledger.length], .inr rfl, by simp [tagOf, hop], fun cmd' hcmd => ?_, fun k hk => ?_⟩
    · obtain rfl := mem_singleton.mp hcmd
      simp [Describes, hop, tagOf, hlines]
    · have hlt := hk.lt
      rw [hlines, length_append, length_singleton] at hlt
      simp only [mem_singleton]
      omega
  | note hnone =>
    have hlines : linesOf cmds entry = entry.toList.map .note := by
      rw [linesOf, filterMap_eq_nil_iff.mpr hnone]
    refine ⟨[], .inl rfl, ?_, fun cmd hcmd => ?_, fun k hk => .inl ?_⟩
    · grind [filterMap_eq_nil_iff, tagOf]
    · simp [Describes, tagOf, hnone cmd hcmd]
    · -- A note is no operation.
      by_contra hge
      obtain ⟨op, hop, -⟩ := hk
      rw [List.getElem?_append_right (by omega), hlines, List.getElem?_map] at hop
      obtain ⟨e, -, he⟩ := Option.map_eq_some_iff.mp hop
      cases he

namespace LogSystem

variable {F : Frontend}

/-- The lines of the commands in flight and of the results that are not processed. -/
def outstanding (s : LogSystem F) : List Nat := s.sent.filterMap id ++ s.due

/-- Every command and every result has the line of its operation, no two have the same, and the operations of
the other lines are answered. -/
structure Tagged (s : LogSystem F) : Prop where
  sent : List.Forall₂ (fun p => Describes s.ledger p.2) s.sys.inFlight s.sent
  due : List.Forall₂ (fun _ k => Unanswered s.ledger k) s.sys.results s.due
  nodup : s.outstanding.Nodup
  complete : ∀ k, Unanswered s.ledger k → k ∈ s.outstanding

variable {s t : LogSystem F} {sys : TabSystem F} {entry : Option NetEntry} {new : List (Ticket × NetworkCmd)}
  {ticket : Ticket} {r : NetworkResult} {results : List (Ticket × NetworkResult)} {k : Nat} {due : List Nat}
  {i : Nat} {cmd : NetworkCmd} {host : Host} {p : Ticket × NetworkCmd}

theorem Tagged.unanswered (h : Tagged s) (hk : k ∈ s.outstanding) : Unanswered s.ledger k := by
  rcases mem_append.mp hk with hsent | hdue
  · obtain ⟨tag, htag, rfl⟩ := mem_filterMap.mp hsent
    obtain ⟨i, hi⟩ := List.getElem?_of_mem htag
    obtain ⟨p, -, hp⟩ := forall₂_getElem? h.sent.flip hi
    split at hp
    · rename_i op hop
      obtain ⟨k', hkk, hk'⟩ := hp
      obtain rfl := Option.some.inj hkk
      exact ⟨op, hk', operation?_answer hop⟩
    · cases hp
  · obtain ⟨i, hi⟩ := List.getElem?_of_mem hdue
    obtain ⟨p, -, hp⟩ := forall₂_getElem? h.due.flip hi
    exact hp

/-! ## The operations of a move -/

/-- Lines are opened for the commands of a move. -/
theorem Tagged.opening (h : Tagged s) (hnew : s.sys.Sends sys entry new) : Tagged (s.opening sys entry):= by
  have hcommands : commands s.sys sys = new.map (·.2) := by
    rw [commands, hnew.inFlight, drop_left]
  obtain ⟨ks, hks⟩ := hnew.opens.lines s.ledger
  have hout : (s.opening sys entry).outstanding.Perm (ks ++ s.outstanding) := by
    grind [outstanding, LogSystem.opening, hks.tags]
  refine ⟨?_, ?_, hout.nodup_iff.mpr ?_, fun k hk => hout.mem_iff.mpr ?_⟩
  · simp only [LogSystem.opening, hcommands, hnew.inFlight]
    refine rel_append (h.sent.imp fun _ _ => Describes.of_append) ?_
    rw [map_map, forall₂_map_right_iff, forall₂_same]
    exact fun p hp => hks.describes p.2 (mem_map_of_mem hp)
  · simp only [LogSystem.opening, hnew.results]
    exact h.due.imp fun _ k hk => (unanswered_append (Unanswered.lt hk)).mpr hk
  · rcases hks.fresh with rfl | rfl
    · exact h.nodup
    · exact nodup_cons.mpr ⟨fun hmem => absurd (h.unanswered hmem).lt (Nat.lt_irrefl _), h.nodup⟩
  · simp only [LogSystem.opening, hcommands] at hk
    rcases hks.unanswered k hk with hlt | hmem
    · exact mem_append_right _ (h.complete k ((unanswered_append hlt).mp hk))
    · exact mem_append_left _ hmem

/-- A task of the network worker has ended: the line goes from the command to the result. -/
theorem Tagged.completed {r : Ticket × NetworkResult} {op : Operation}
    (h : Tagged s) (hcmd : s.sys.inFlight[i]? = some p) (hop : p.2.operation? = some op) :
    Tagged { s with
      sys := { s.sys with inFlight := s.sys.inFlight.eraseIdx i, results := s.sys.results ++ [r] }
      sent := s.sent.eraseIdx i
      due := s.due ++ (s.sent[i]?.join).toList } := by
  obtain ⟨tag, htag, hdescribes⟩ := forall₂_getElem? h.sent hcmd
  simp only [Describes, hop] at hdescribes
  obtain ⟨k, rfl, hk⟩ := hdescribes
  have hjoin : (s.sent[i]?.join).toList = [k] := by rw [htag]; rfl
  have hout : ((s.sent.eraseIdx i).filterMap id ++ (s.due ++ [k])).Perm s.outstanding := by
    refine List.Perm.trans ?_ ((filterMap_eraseIdx_perm htag).symm.append_right s.due)
    rw [← append_assoc]
    exact perm_append_comm
  rw [hjoin]
  refine ⟨forall₂_eraseIdx h.sent, ?_, hout.nodup_iff.mpr h.nodup, fun j hj => hout.mem_iff.mpr (h.complete j hj)⟩
  exact rel_append h.due (.cons ⟨op, hk, operation?_answer hop⟩ .nil)

/-- A command without a line is no longer in flight. -/
theorem Tagged.erase (h : Tagged s) (hcmd : s.sys.inFlight[i]? = some p)
    (hop : p.2.operation? = none) : Tagged (s.erase i) := by
  obtain ⟨tag, htag, hdescribes⟩ := forall₂_getElem? h.sent hcmd
  simp only [Describes, hop] at hdescribes
  subst hdescribes
  have hout : (s.erase i).outstanding.Perm s.outstanding :=
    (filterMap_eraseIdx_perm htag).symm.append_right s.due
  exact ⟨forall₂_eraseIdx h.sent, h.due, hout.nodup_iff.mpr h.nodup, fun k hk => hout.mem_iff.mpr (h.complete k hk)⟩

theorem unanswered_modify {ledger : List Line} {k j : Nat} {answer : NetOutcome × Option Nat} :
    Unanswered (ledger.modify k (Line.answered answer)) j ↔ Unanswered ledger j ∧ j ≠ k := by
  unfold Unanswered
  rw [List.getElem?_modify]
  by_cases hjk : k = j
  · subst hjk
    simp only [if_true, ne_eq, not_true_eq_false, and_false, iff_false]
    rintro ⟨op, hop, hanswer⟩
    obtain ⟨line, -, hline⟩ := Option.map_eq_some_iff.mp hop
    cases line with
    | operation op' =>
      cases hline
      cases hanswer
    | note e => cases hline
  · simp [hjk, Ne.symm hjk]

theorem take_eq (hresults : s.sys.results = (ticket, r) :: results) (hdue : s.due = k :: due) :
    s.take = { s with
      sys := s.sys.received results
      log := r.complete s.log
      ledger := s.ledger.modify k (Line.answered r.outcome)
      due } := by
  simp only [take, hresults, hdue]

theorem Tagged.take (h : Tagged s) (hresults : s.sys.results = (ticket, r) :: results) (hdue : s.due = k :: due) :
    Tagged s.take := by
  have hnodup := h.nodup
  rw [outstanding, hdue, nodup_middle] at hnodup
  obtain ⟨hnot, hnodup⟩ := nodup_cons.mp hnodup
  have hdues := h.due
  rw [hresults, hdue, forall₂_cons] at hdues
  rw [take_eq hresults hdue]
  refine ⟨?_, ?_, hnodup, fun j hj => ?_⟩
  · refine forall₂_iff_zip.mpr ⟨h.sent.length_eq, fun {p tag} hzip => ?_⟩
    have hdescribes := forall₂_zip h.sent hzip
    unfold Describes at hdescribes ⊢
    split at hdescribes
    · obtain ⟨j, rfl, hj⟩ := hdescribes
      have hne : k ≠ j := fun heq =>
        hnot (mem_append_left _ (mem_filterMap.mpr ⟨some j, (of_mem_zip hzip).2, by rw [heq]; rfl⟩))
      exact ⟨j, rfl, by simp [hne, hj]⟩
    · exact hdescribes
  · refine forall₂_iff_zip.mpr ⟨hdues.2.length_eq, fun {p j} hzip => ?_⟩
    refine unanswered_modify.mpr ⟨forall₂_zip hdues.2 hzip, ?_⟩
    rintro rfl
    exact hnot (mem_append_right _ (of_mem_zip hzip).2)
  · obtain ⟨hj, hne⟩ := unanswered_modify.mp hj
    have hmem := h.complete j hj
    rw [outstanding, hdue] at hmem
    simpa [hne, outstanding] using hmem

/-! ## The entries -/

/-- The key of an entry. -/
def KeyAt (log : InspectorLog) (k : Nat) (key : String) : Prop :=
  (log.network[k]?).bind (·.correlation) = some key

/-- The log shows the ledger, and the entries of navigations have their URLs as keys. -/
structure Shows (s : LogSystem F) : Prop where
  shown : s.log.network.map NetEntry.shown = s.ledger.map Line.shown
  sentKeys : List.Forall₂ (fun p tag => ∀ id url i k, p.2 = .navigate id url i → tag = some k → KeyAt s.log k url)
    s.sys.inFlight s.sent
  dueKeys : List.Forall₂ (fun p k => ∀ id url source, p.2 = .navigateSuccess id url source → KeyAt s.log k url)
    s.sys.results s.due

theorem Shows.length (h : Shows s) : s.log.network.length = s.ledger.length := by
  simpa using congrArg List.length h.shown

theorem Shows.pending {op : Operation} (h : Shows s) (hop : s.ledger[k]? = some (.operation op))
    (hanswer : op.answer = none) :
    ∃ e, s.log.network[k]? = some e ∧ e.shown = (op.verb, truncateDetail op.target, .pending, none) := by
  have hshown := congrArg (·[k]?) h.shown
  simp only [List.getElem?_map, hop, Option.map_some] at hshown
  obtain ⟨e, he, heq⟩ := Option.map_eq_some_iff.mp hshown
  exact ⟨e, he, by rw [heq, Line.shown, hanswer, Option.getD_none]⟩

theorem KeyAt.of_append {log log' : InspectorLog} {key : String} {entries : List NetEntry}
    (h : KeyAt log k key) (happend : log'.network = log.network ++ entries) : KeyAt log' k key := by
  grind [List.getElem?_append_left, KeyAt]

theorem Shows.opening
    (h : Shows s) (hnew : s.sys.Sends sys entry new) (hcap : (s.opening sys entry).ledger.length ≤ logCapacity) :
    Shows (s.opening sys entry) := by
  have hcommands : commands s.sys sys = new.map (·.2) := by
    rw [commands, hnew.inFlight, drop_left]
  have hlines := hnew.opens.shown
  have hledger : (s.opening sys entry).ledger = s.ledger ++ linesOf (new.map (·.2)) entry := by
    rw [LogSystem.opening, hcommands]
  have hnetwork : (s.opening sys entry).log.network = s.log.network ++ entry.toList := by
    cases entry with
    | none => exact (append_nil _).symm
    | some e =>
      have hone : (linesOf (new.map (·.2)) (some e)).length = 1 := by simpa using congrArg List.length hlines
      rw [hledger, length_append, hone] at hcap
      exact InspectorLog.pushNet_network (by rw [h.length]; omega) e
  refine ⟨?_, ?_, ?_⟩
  · rw [hnetwork, hledger, map_append, map_append, h.shown, hlines]
  · simp only [LogSystem.opening, hcommands, hnew.inFlight]
    refine rel_append (h.sentKeys.imp fun p tag hkey id url i k hp htag => (hkey id url i k hp htag).of_append hnetwork) ?_
    rw [map_map, forall₂_map_right_iff, forall₂_same]
    rintro p hp id url i k hnavigate htag
    have hmem : .navigate id url i ∈ new.map (·.2) := mem_map.mpr ⟨p, hp, hnavigate⟩
    obtain ⟨e, rfl, he⟩ := hnew.opens.key hmem
    simp only [Function.comp_apply, tagOf, hnavigate, NetworkCmd.operation?, Option.map_some, Option.some.injEq] at htag
    have hat : (s.opening sys (some e)).log.network[k]? = some e := by
      rw [hnetwork, ← htag, ← h.length, List.getElem?_append_right (Nat.le_refl _), Nat.sub_self]
      rfl
    exact Option.bind_eq_some_iff.mpr ⟨e, hat, he⟩
  · simp only [LogSystem.opening, hnew.results]
    exact h.dueKeys.imp fun p k hkey id url source hp => (hkey id url source hp).of_append hnetwork

theorem Shows.take (h : Shows s) (hresults : s.sys.results = (ticket, r) :: results) (hdue : s.due = k :: due)
    (hk : Unanswered s.ledger k) (hlast : IsLast r.looksFor s.log.network k) : Shows s.take := by
  obtain ⟨f, hf, hnetwork⟩ := r.complete_network hlast
  obtain ⟨op, hop, hanswer⟩ := hk
  obtain ⟨e, he, hshown⟩ := h.pending hop hanswer
  have hkey {j : Nat} {key : String} (hj : KeyAt s.log j key) : KeyAt (r.complete s.log) j key := by
    obtain ⟨e', he', hcorrelation⟩ := Option.bind_eq_some_iff.mp hj
    rw [KeyAt, hnetwork, List.getElem?_modify, he']
    by_cases hjk : k = j
    · simp [hjk, (hf e').1, hcorrelation]
    · simp [hjk, hcorrelation]
  have hdues := h.dueKeys
  rw [hresults, hdue, forall₂_cons] at hdues
  rw [take_eq hresults hdue]
  refine ⟨?_, ?_, ?_⟩
  · apply ext_getElem?
    intro j
    have hj := congrArg (·[j]?) h.shown
    simp only [List.getElem?_map] at hj
    simp only [hnetwork, List.getElem?_map, List.getElem?_modify]
    by_cases hjk : k = j
    · subst hjk
      simp only [NetEntry.shown, Prod.mk.injEq] at hshown
      simp [he, hop, (hf e).2 hshown.2.2.2, Line.answered, Line.shown, hshown.1, hshown.2.1]
    · simpa [hjk] using hj
  · exact h.sentKeys.imp fun p tag hp id url i j hnavigate htag => hkey (hp id url i j hnavigate htag)
  · exact hdues.2.imp fun p j hp id url source hsuccess => hkey (hp id url source hsuccess)

/-! ## Steps that keep the log true -/

instance (log : InspectorLog) (k : Nat) (key : String) : Decidable (KeyAt log k key) := inferInstanceAs (Decidable (_ = _))

/-- The entry that a result completes is that of its operation: it has the key that the result looks for, and no
later pending entry has. -/
def FindsOwn (log : InspectorLog) (r : NetworkResult) (k : Nat) : Prop :=
  (∀ name ∈ r.targetVar?, KeyAt log k name) ∧ ∀ e ∈ log.network.drop (k + 1), r.looksFor e = false

instance (log : InspectorLog) (r : NetworkResult) (k : Nat) : Decidable (FindsOwn log r k) :=
  inferInstanceAs (Decidable (_ ∧ _))

/-- The result that a move processes, and the line of the operation that it answers. -/
def answers (s : LogSystem F) (m : LogMove) : Option (NetworkResult × Nat) :=
  match m, s.sys.results, s.due with
  | .tab (.result _), (_, r) :: _, k :: _ => some (r, k)
  | _, _, _ => none

/-- The log describes the commands that are sent, and a result that is processed finds the entry of its operation. -/
def Attributed (s : LogSystem F) (m : LogMove) : Prop :=
  (∀ cmd ∈ s.sys.acts m, cmd.Describable) ∧ ∀ p ∈ s.answers m, FindsOwn s.log p.1 p.2

instance (s : LogSystem F) (m : LogMove) : Decidable (s.Attributed m) := inferInstanceAs (Decidable (_ ∧ _))

theorem Shows.isLast {p : Ticket × NetworkResult}
    (h : Shows s) (hresults : s.sys.results = p :: results) (hdue : s.due = k :: due) (hk : Unanswered s.ledger k)
    (hown : FindsOwn s.log p.2 k) : IsLast p.2.looksFor s.log.network k := by
  obtain ⟨op, hop, hanswer⟩ := hk
  obtain ⟨e, he, hshown⟩ := h.pending hop hanswer
  have hpending : e.isPending = true := by
    simp only [NetEntry.shown, Prod.mk.injEq] at hshown
    simp [NetEntry.isPending, hshown.2.2.1]
  have hkey {key : String} (hkey : KeyAt s.log k key) : e.correlation = some key := by
    simpa [KeyAt, he] using hkey
  have hdues := h.dueKeys
  rw [hresults, hdue, forall₂_cons] at hdues
  obtain ⟨hname, hlater⟩ := hown
  refine ⟨⟨e, he, ?_⟩, fun j e' hj he' => hlater e' ?_⟩
  · obtain ⟨ticket, r⟩ := p
    cases r with
    | success id targetVar data => simp [NetworkResult.looksFor, hpending, hkey (hname targetVar rfl)]
    | fetchFailed id targetVar error => simp [NetworkResult.looksFor, hpending, hkey (hname targetVar rfl)]
    | navigateSuccess id url source => simp [NetworkResult.looksFor, hpending, hkey (hdues.1 id url source rfl)]
    | navigationRedirect | error => exact hpending
  · obtain ⟨d, rfl⟩ := Nat.exists_eq_add_of_lt hj
    refine mem_of_getElem? (i := d) ?_
    rw [List.getElem?_drop, ← he']
    congr 1
    omega

/-- What is kept: the lines are in order, and the log shows them while nothing has rolled out of it. -/
def Sound (s : LogSystem F) : Prop := Tagged s ∧ (s.ledger.length ≤ logCapacity → Shows s)

theorem Sound.opening (h : Sound s) (hnew : s.sys.Sends sys entry new) : Sound (s.opening sys entry):= by
  refine ⟨h.1.opening hnew, fun hcap => (h.2 ?_).opening hnew hcap⟩
  rw [LogSystem.opening, length_append] at hcap
  omega

theorem Sound.erase (h : Sound s) (hcmd : s.sys.inFlight[i]? = some p)
    (hop : p.2.operation? = none) : Sound (s.erase i) :=
  ⟨h.1.erase hcmd hop, fun hcap => ⟨(h.2 hcap).shown, forall₂_eraseIdx (h.2 hcap).sentKeys, (h.2 hcap).dueKeys⟩⟩

theorem answer_operation {c : Completion} (h : cmd.answer c = some r) :
    ∃ op, cmd.operation? = some op := by
  cases cmd with
  | fetch => exact ⟨_, rfl⟩
  | navigate => exact ⟨_, rfl⟩
  | _ => cases c <;> cases h

theorem answer_navigateSuccess {c : Completion} {id : TabId} {url source : String}
    (h : cmd.answer c = some (.navigateSuccess id url source)) : ∃ initiator, cmd = .navigate id url initiator := by
  cases cmd with
  | navigate =>
    cases c <;> cases h
    exact ⟨_, rfl⟩
  | _ => cases c <;> cases h

theorem Sound.completed {c : Completion}
    (h : Sound s) (hcmd : s.sys.inFlight[i]? = some (ticket, cmd)) (hr : cmd.answer c = some r) :
    Sound { s with
      sys := { s.sys with inFlight := s.sys.inFlight.eraseIdx i, results := s.sys.results ++ [(ticket, r)] }
      sent := s.sent.eraseIdx i
      due := s.due ++ (s.sent[i]?.join).toList } := by
  obtain ⟨op, hop⟩ := answer_operation hr
  refine ⟨h.1.completed hcmd hop, fun hcap => ⟨(h.2 hcap).shown, forall₂_eraseIdx (h.2 hcap).sentKeys, ?_⟩⟩
  obtain ⟨tag, htag, hdescribes⟩ := forall₂_getElem? h.1.sent hcmd
  simp only [Describes, hop] at hdescribes
  obtain ⟨k, rfl, -⟩ := hdescribes
  obtain ⟨tag', htag', hkey⟩ := forall₂_getElem? (h.2 hcap).sentKeys hcmd
  obtain rfl : some k = tag' := Option.some.inj (htag.symm.trans htag')
  have hjoin : (s.sent[i]?.join).toList = [k] := by rw [htag]; rfl
  simp only [hjoin]
  refine rel_append (h.2 hcap).dueKeys (.cons (fun id url source hsuccess => ?_) .nil)
  rw [show r = _ from hsuccess] at hr
  obtain ⟨initiator, rfl⟩ := answer_navigateSuccess hr
  exact hkey id url initiator k rfl rfl

theorem Sound.take (h : Sound s) (hresults : s.sys.results = (ticket, r) :: results) (hdue : s.due = k :: due)
    (hown : FindsOwn s.log r k) : Sound s.take := by
  have hdues := h.1.due
  rw [hresults, hdue, forall₂_cons] at hdues
  refine ⟨h.1.take hresults hdue, fun hcap => ?_⟩
  rw [take_eq hresults hdue, length_modify] at hcap
  exact (h.2 hcap).take hresults hdue hdues.1 ((h.2 hcap).isLast hresults hdue hdues.1 hown)

theorem Sound.ask {url : String} (h : Sound s) (hstep : s.sys.mark.step (.openUrl host url) = some sys) :
    Sound (s.opening sys (s.sys.opens (.ask host url))) := by
  obtain ⟨new, hnew⟩ := TabSystem.tabStep_opens (s := s.sys.mark) (m := .openUrl host url) (fun _ hm => nomatch hm)
    (fun _ _ hm => nomatch hm) (fun _ hmem => absurd hmem not_mem_nil) hstep
  exact h.opening ⟨hnew.inFlight, hnew.results, hnew.opens⟩

theorem Sound.image {ready : Bool} (entry : Option NetEntry) (h : Sound s)
    (hstep : s.sys.loadStep (.image i ready) = some sys) : Sound ((s.erase i).opening sys entry) := by
  rw [TabSystem.loadStep] at hstep
  split at hstep
  swap
  · cases hstep
  rename_i ticket cmd hacting hcmd
  split at hstep
  swap
  · cases hstep
  rename_i himage
  obtain rfl := Option.some.inj hstep
  have hop : cmd.operation? = none := by
    cases cmd with
    | fetchImage => rfl
    | _ => cases himage
  exact (h.erase hcmd hop).opening (TabSystem.sends_nothing rfl rfl)

theorem Sound.result (h : Sound s) (hgood : s.Attributed (.tab (.result host)))
    (hstep : s.sys.step (.result host) = some sys) :
    Sound (s.take.opening sys (s.sys.opens (.tab (.result host)))) := by
  obtain ⟨ticket, r, results, hresults, new, hnew⟩ := TabSystem.resultStep_opens hstep
  have hdues := h.1.due
  rw [hresults] at hdues
  obtain ⟨k, due, -, -, hdue⟩ := forall₂_cons_left_iff.mp hdues
  have hown : FindsOwn s.log r k := hgood.2 (r, k) (by simp [answers, hresults, hdue])
  have htake := h.take hresults hdue hown
  rw [take_eq hresults hdue] at htake ⊢
  exact htake.opening hnew

theorem Sound.tab {m : TabMove} (h : Sound s) (hgood : s.Attributed (.tab m))
    (hresult : ∀ host, m ≠ .result host) (hcomplete : ∀ i c, m ≠ .complete i c) (hstep : s.sys.step m = some sys) :
    Sound (s.opening sys (s.sys.opens (.tab m))) := by
  obtain ⟨new, hnew⟩ := TabSystem.tabStep_opens hresult hcomplete hgood.1 hstep
  exact h.opening hnew

/-- A step whose answers find their entries keeps the log true to the ledger. -/
theorem logStep_sound {m : LogMove} (h : Sound s) (hgood : s.Attributed m) (hstep : s.logStep m = some t) :
    Sound t := by
  obtain ⟨sys, hsys, rfl⟩ := Option.map_eq_some_iff.mp hstep
  cases m with
  | ask host url => exact h.ask hsys
  | paint host path =>
    obtain rfl := Option.some.inj hsys
    have hnone : ∀ cmd ∈ (s.sys.tab.paintImage host path).toList, cmd.operation? = none := by
      intro cmd hcmd
      obtain ⟨url, -, rfl⟩ := Option.map_eq_some_iff.mp (Option.mem_toList.mp hcmd)
      rfl
    obtain ⟨new, hnew⟩ : ∃ new, s.sys.Sends (s.sys.absorb ⟨0, none⟩
        (s.sys.tab, { s.sys.ctx.cleared with networkTx := (s.sys.tab.paintImage host path).toList })) none new :=
      TabSystem.sends_absorb _ (.note hnone)
    exact h.opening hnew
  | image i error => exact h.image _ hsys
  | tab m =>
    cases m with
    | result host => exact h.result hgood hsys
    | complete i c =>
      simp only [LogMove.load, TabSystem.loadStep, TabSystem.step] at hsys
      split at hsys
      · cases hsys
      · rename_i hcmd
        obtain ⟨r, hr, rfl⟩ := Option.map_eq_some_iff.mp hsys
        exact h.completed hcmd hr
    | _ => exact h.tab hgood (by simp) (by simp) hsys

theorem start_sound {tab : TabState F} {ctx : WindowCtx} : Sound (start host tab ctx) :=
  ⟨⟨.nil, .nil, .nil, fun _ hk => absurd hk.lt (Nat.not_lt_zero _)⟩, fun _ => ⟨rfl, .nil, .nil⟩⟩

/-! ## Runs -/

/-- Every data call and navigation that was dispatched has one entry, which shows its own outcome. -/
structure Truthful (s : LogSystem F) : Prop extends Tagged s where
  shown : s.log.network.map NetEntry.shown = s.ledger.map Line.shown
  pending : ∀ k op, s.ledger[k]? = some (.operation op) → (op.answer = none ↔ k ∈ s.outstanding)

end LogSystem

/-- The log tells the truth in every state, if every answer finds the entry of its operation. -/
theorem network_log_truthful {F : Frontend} {host : Host} {tab : TabState F} {ctx : WindowCtx} {s : LogSystem F}
    (h : Reaches LogSystem.logStep LogSystem.Attributed (.start host tab ctx) s)
    (hcap : s.ledger.length ≤ logCapacity) : s.Truthful := by
  obtain ⟨htagged, hshows⟩ := h.invariant (I := LogSystem.Sound) LogSystem.start_sound fun _ _ _ hs hgood hstep =>
    LogSystem.logStep_sound hs hgood hstep
  refine ⟨htagged, (hshows hcap).shown, fun k op hop => ⟨fun hanswer => htagged.complete k ⟨op, hop, hanswer⟩, ?_⟩⟩
  intro hmem
  obtain ⟨op', hop', hanswer⟩ := htagged.unanswered hmem
  rw [hop] at hop'
  cases hop'
  exact hanswer

/-- A page is asked for and redirected, and its document comes. -/
theorem network_log_truthful_redirected :
    ∃ s : LogSystem plainFrontend, s.ledger.length = 2 ∧ s.due = [] ∧ s.Truthful := by
  obtain ⟨s, hreaches, hledger⟩ := exists_reaches_of_run LogSystem.logStep LogSystem.Attributed
    (.start plainHost (idleTab "mizu://a.mizu/") plainCtx)
    [.ask plainHost "mizu://b.mizu/", .tab (.complete 0 (.redirect "mizu://c.mizu/")), .tab (.result plainHost),
      .tab (.complete 0 (.source blankSource)), .tab (.result plainHost)]
    (p := fun s => s.ledger.length == 2 && s.due == []) (by decide +kernel)
  simp only [Bool.and_eq_true, beq_iff_eq] at hledger
  exact ⟨s, hledger.1, hledger.2, network_log_truthful hreaches (by rw [hledger.1]; decide)⟩

/-! ## A data call -/

/-- A document fetches its variable `x`, which is answered: the entry, logged under the number of the symbol, stays
pending, and the answer gets an entry of its own. -/
theorem network_log_untruthful :
    ¬∀ (F : Frontend) (host : Host) (tab : TabState F) (ctx : WindowCtx) (s : LogSystem F),
      Reaches LogSystem.logStep (fun _ _ => True) (.start host tab ctx) s → s.ledger.length ≤ logCapacity →
        s.Truthful := by
  intro h
  obtain ⟨s, hreaches, hlog⟩ := exists_reaches_of_run LogSystem.logStep (fun _ _ => True)
    (.start plainHost namingTab plainCtx)
    [.tab (.answer 0 (some (.ok emptyResponse))), .tab .drain, .tab (.user (.click 0)),
      .tab (.answer 0 (some (.ok fetchingResponse))), .tab .drain, .tab (.act plainHost),
      .tab (.complete 0 (.received (.string "secret"))), .tab (.result plainHost)]
    (p := fun s => s.ledger.length == 1 && s.log.network.map (·.outcome) == [.pending, .ok]) (by decide +kernel)
  simp only [Bool.and_eq_true, beq_iff_eq] at hlog
  obtain ⟨hledger, hnetwork⟩ := hlog
  have hshown := (h namingFrontend plainHost namingTab plainCtx s hreaches (by rw [hledger]; decide)).shown
  have hlengths := congrArg List.length hshown
  have hlength := congrArg List.length hnetwork
  simp only [length_map] at hlengths hlength
  rw [hlengths, hledger] at hlength
  cases hlength

end Mizu
