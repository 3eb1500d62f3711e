import Mizu.Lib.Transition
import Mizu.Render.Capability

/-!
# A tab and its two workers, interleaved

The window thread, the logic worker and the tasks of the network worker move in any order;
`TabSystem.step` is one move. Events, responses, commands and results carry a tag that the code does
not have: the document or the chain of redirects they belong to. What happened to them is logged
beside the state, so that the properties of runs can be read off it.
-/

namespace Mizu

open List

open TabState (View)

/-- A chain of redirects: its number among the navigations that were allowed, and the URL of the
document if its logic started it. -/
structure Chain where
  number : Nat
  startedByLogic : Option String
  deriving DecidableEq, Repr

/-- What a command belongs to: the document that issued it, by number, or a chain. -/
inductive Ticket where
  | data (document : Nat)
  | navigation (chain : Chain)
  deriving DecidableEq, Repr

/-- The chain of a ticket. -/
def Ticket.chain : Ticket → Chain
  | .navigation chain => chain
  | .data _ => ⟨0, none⟩

def Ticket.isNavigation : Ticket → Bool
  | .navigation _ => true
  | .data _ => false

/-- A variable written because of a network result: what the result belonged to, and the number and
the content of the document in the worker at the time. -/
structure NetworkWrite where
  ticket : Ticket
  document : Nat
  receiver : Option ReloadPayload
  name : String

/-- A navigation result that the window processed, or a navigation that committed at once. -/
structure Answered where
  chain : Chain
  /-- The URL of the document that was replaced, if one was. -/
  replaced : Option String
  deriving DecidableEq, Repr

structure TabSystem (F : Frontend) where
  tab : TabState F
  ctx : WindowCtx
  /-- The documents sent to the logic worker, the latest last. -/
  documents : List ReloadPayload
  /-- The number of navigations allowed. -/
  chains : Nat
  /-- Events not answered yet. -/
  logicIn : List (View × UiEvent)
  /-- Responses not drained yet. -/
  logicOut : List (View × Except MizuError WorkerResponse)
  /-- The rest of the response that is being applied, with its gesture. -/
  acting : List (View × Bool × RuntimeAction)
  inFlight : List (Ticket × NetworkCmd)
  results : List (Ticket × NetworkResult)
  /-- For everything applied of a response: the document of its event and the document in the tab. -/
  uses : List (View × View)
  writes : List NetworkWrite
  answered : List Answered

def reloads (logicTx : List (TabId × UiEvent)) : List ReloadPayload :=
  logicTx.filterMap fun m =>
    match m.2 with
    | .reload payload => some payload
    | _ => none

def updates (logicTx : List (TabId × UiEvent)) : List String :=
  logicTx.filterMap fun m =>
    match m.2 with
    | .updateVariable name _ => some name
    | _ => none

/-- The context of a move: nothing sent yet. -/
def WindowCtx.cleared (ctx : WindowCtx) : WindowCtx := { ctx with networkTx := [], logicTx := [] }

inductive TabMove where
  /-- The user clicks or submits. -/
  | user (event : UiEvent)
  | tick (index : Nat)
  /-- The user opens a URL. -/
  | openUrl (host : Host) (url : String)
  | back (host : Host)
  | forward (host : Host)
  /-- The window takes a response and applies its variables. -/
  | drain
  /-- The window executes the next action of the response. -/
  | act (host : Host)
  /-- The window takes a network result. -/
  | result (host : Host)
  /-- The logic worker answers an event, or has nothing to say to it. -/
  | answer (i : Nat) (out : Option (Except MizuError WorkerResponse))
  /-- A task of the network worker ends. -/
  | complete (i : Nat) (c : Completion)

/-- The state of the machine that a move of the window sees. -/
def TabMove.host? : TabMove → Option Host
  | .openUrl host _ | .back host | .forward host | .act host | .result host => some host
  | _ => none

namespace TabSystem

variable {F : Frontend}

/-- A tab whose first document has just been handed to the worker. -/
def start (host : Host) (tab : TabState F) (ctx : WindowCtx) : TabSystem F where
  tab
  ctx
  documents := [tab.reloadPayload host]
  chains := 0
  logicIn := [(tab.view, .reload (tab.reloadPayload host))]
  logicOut := []
  acting := []
  inFlight := []
  results := []
  uses := []
  writes := []
  answered := []

/-- The chain that a navigation starts now. -/
def newChain (s : TabSystem F) (initiator : NavigationInitiator) : Chain where
  number := s.chains + 1
  startedByLogic :=
    if hasUserAgency initiator then none else some s.tab.chromeState.committedUrl

def ticketFor (s : TabSystem F) (chain : Chain) : NetworkCmd → Ticket
  | .navigate _ _ _ => .navigation chain
  | _ => .data s.documents.length

/-- Takes over what an operation of the window left in the tab and sent. -/
def absorb (s : TabSystem F) (chain : Chain) (out : TabState F × WindowCtx) : TabSystem F :=
  { s with
    tab := out.1
    ctx := out.2
    documents := s.documents ++ reloads out.2.logicTx
    logicIn := s.logicIn ++ out.2.logicTx.map fun m => (out.1.view, m.2)
    inFlight := s.inFlight ++ out.2.networkTx.map fun cmd => (s.ticketFor chain cmd, cmd) }

/-- An event of the document in the tab goes to the logic worker. -/
def send (s : TabSystem F) (tab : TabState F) (event : UiEvent) : TabSystem F :=
  s.absorb ⟨0, none⟩ (tab, s.ctx.cleared.sendLogic tab.id event)

/-- Takes over what a navigation did; `answers` tells whether it is the result of an earlier one. -/
def settle (s : TabSystem F) (chain : Chain) (answers : Bool) (out : TabState F × WindowCtx)
    (outcome : NavigationOutcome) : TabSystem F :=
  let answered := if answers then s.answered ++ [⟨chain, none⟩] else s.answered
  match outcome with
  | .stays => { s.absorb chain out with answered }
  | .dispatches _ => { s.absorb chain out with chains := max s.chains chain.number, answered }
  | .commits _ _ =>
    { s.absorb chain out with
      chains := max s.chains chain.number
      answered := s.answered ++ [⟨chain, some s.tab.chromeState.committedUrl⟩] }

section Settle

variable {s : TabSystem F} {answers : Bool} (chain : Chain) (out : TabState F × WindowCtx)
  (outcome : NavigationOutcome)

theorem settle_tab : (s.settle chain answers out outcome).tab = out.1 := by
  cases outcome <;> rfl

theorem settle_ctx : (s.settle chain answers out outcome).ctx = out.2 := by
  cases outcome <;> rfl

theorem settle_logicIn : (s.settle chain answers out outcome).logicIn =
    s.logicIn ++ out.2.logicTx.map fun m => (out.1.view, m.2) := by
  cases outcome <;> rfl

theorem settle_logicOut : (s.settle chain answers out outcome).logicOut = s.logicOut := by
  cases outcome <;> rfl

end Settle

/-- The outcome of a navigation from the document in the tab. -/
def outcome (s : TabSystem F) (host : Host) (url : String) (initiator : NavigationInitiator) :
    NavigationOutcome :=
  navigationOutcome host s.tab.chromeState.committedUrl url initiator

/-- A navigation that starts a chain. -/
def navigate (s : TabSystem F) (host : Host) (url : String) (initiator : NavigationInitiator) :
    TabSystem F :=
  s.settle (s.newChain initiator) false (s.tab.navigateToUrl host s.ctx.cleared url initiator)
    (s.outcome host url initiator)

/-- A step through the history, to the entry that `pick` finds. -/
def historyStep (s : TabSystem F) (host : Host) (pick : Option (HistoryEntry × HistoryStack))
    (out : TabState F × WindowCtx) : TabSystem F :=
  match pick with
  | none => s
  | some (target, _) =>
    s.settle (s.newChain .historyStep) false out (s.outcome host target.url .historyStep)

/-- The entry the tab leaves behind. -/
def leaving (s : TabSystem F) : HistoryEntry :=
  ⟨s.tab.chromeState.committedUrl, s.tab.rootScrollOffsetY⟩

def drain (s : TabSystem F) : Option (TabSystem F) :=
  match s.logicOut with
  | [] => none
  | (_, .error _) :: logicOut => some { s with tab := s.tab.releaseTimerTick, logicOut }
  | (view, .ok response) :: logicOut =>
    some
      { s with
        tab := s.tab.releaseTimerTick.applyMutations response.stateUpdate.mutatedVariables
        logicOut
        acting := response.runtimeActions.map fun action => (view, response.gesture, action)
        uses := s.uses ++ [(view, s.tab.view)] }

/-- The initiator of a navigation by document logic. -/
def initiatorOf (gesture : Bool) : NavigationInitiator :=
  if gesture then .userGesture else .documentLogic

def act (s : TabSystem F) (host : Host) : Option (TabSystem F) :=
  match s.acting with
  | [] => none
  | (view, gesture, action) :: acting =>
    let s := { s with acting, uses := s.uses ++ [(view, s.tab.view)] }
    let out := s.tab.executeAction host s.ctx.cleared gesture action
    match action with
    | .navigate url =>
      some (s.settle (s.newChain (initiatorOf gesture)) false out
        (s.outcome host url (initiatorOf gesture)))
    | _ => some (s.absorb ⟨0, none⟩ out)

/-- What a network result does to the document. -/
def resultOutcome (s : TabSystem F) (host : Host) : NetworkResult → NavigationOutcome
  | .navigateSuccess _ url source => .commits url source
  | .navigationRedirect _ newUrl initiator =>
    if s.tab.redirectCount + 1 ≤ host.maxRedirects then
      s.outcome host newUrl initiator.intoRedirectOf
    else .stays
  | _ => .stays

def result (s : TabSystem F) (host : Host) : Option (TabSystem F) :=
  match s.results with
  | [] => none
  | (ticket, r) :: results =>
    let s := { s with results }
    let out := s.tab.processNetworkResult host s.ctx.cleared r
    let t := s.settle ticket.chain ticket.isNavigation out
      (s.resultOutcome host r)
    some
      { t with
        writes := s.writes ++ (updates out.2.logicTx).map fun name =>
          ⟨ticket, s.documents.length, s.documents.getLast?, name⟩ }

/-- One move; `none` if the party cannot make it. -/
def step (s : TabSystem F) : TabMove → Option (TabSystem F)
  | .user event =>
    match s.acting, event with
    | [], .click _ | [], .submitForm _ _ =>
      some (s.send s.tab event)
    | _, _ => none
  | .tick index =>
    match s.acting, s.tab.mayDispatchTimerTick with
    | [], (true, tab) => some (s.send tab (.rootTimer index))
    | _, _ => none
  | .openUrl host url => if s.acting.isEmpty then some (s.navigate host url .userGesture) else none
  | .back host =>
    if s.acting.isEmpty then
      some (s.historyStep host (s.tab.history.goBack s.leaving) (s.tab.navigateBack host s.ctx.cleared))
    else none
  | .forward host =>
    if s.acting.isEmpty then
      some (s.historyStep host (s.tab.history.goForward s.leaving)
        (s.tab.navigateForward host s.ctx.cleared))
    else none
  | .drain => if s.acting.isEmpty then s.drain else none
  | .act host => s.act host
  | .result host => if s.acting.isEmpty then s.result host else none
  | .answer i out =>
    (s.logicIn[i]?).map fun e =>
      { s with
        logicIn := s.logicIn.eraseIdx i
        logicOut := s.logicOut ++ (out.map fun r => (e.1, r)).toList }
  | .complete i c =>
    match s.inFlight[i]? with
    | none => none
    | some (ticket, cmd) =>
      (cmd.answer c).map fun r =>
        { s with inFlight := s.inFlight.eraseIdx i, results := s.results ++ [(ticket, r)] }

/-! ## What a move does to the document -/

/-- The navigation that a move starts, if it starts one. -/
def starts (s : TabSystem F) : TabMove → NavigationOutcome
  | .openUrl host url => s.outcome host url .userGesture
  | .back host =>
    match s.tab.history.goBack s.leaving with
    | some (target, _) => s.outcome host target.url .historyStep
    | none => .stays
  | .forward host =>
    match s.tab.history.goForward s.leaving with
    | some (target, _) => s.outcome host target.url .historyStep
    | none => .stays
  | .act host =>
    match s.acting with
    | (_, gesture, .navigate url) :: _ => s.outcome host url (initiatorOf gesture)
    | _ => .stays
  | _ => .stays

/-- What a move does to the document, as a navigation or as the answer to one. -/
def does (s : TabSystem F) : TabMove → NavigationOutcome
  | .result host =>
    match s.results with
    | (_, r) :: _ => s.resultOutcome host r
    | [] => .stays
  | m => s.starts m

end TabSystem

/-- A tab at `a.mizu` whose document is empty. -/
def plainStart : TabSystem plainFrontend :=
  .start plainHost (plainTab plainFrontend () "mizu://a.mizu/") plainCtx

def emptyResponse : WorkerResponse := ⟨⟨[]⟩, [], false⟩

/-! ## One operation of the window -/

section Operations

variable {F : Frontend} (host : Host)

/-- What an operation does to the tab's document and sends to the two workers, by its outcome. -/
def Does (tab : TabState F) (ctx : WindowCtx) (out : TabState F × WindowCtx) :
    NavigationOutcome → Prop
  | .stays =>
    out.1.view = tab.view ∧ reloads out.2.logicTx = [] ∧ out.2.networkTx = []
  | .dispatches target =>
    out.1.view = tab.view ∧ out.2.logicTx = [] ∧
      ∃ initiator, out.2.networkTx = [.navigate tab.id target initiator]
  | .commits url source =>
    ∃ tab' : TabState F, tab'.view = tab.view ∧
      out = tab'.handleNavigateSuccess host ctx.cleared url source

variable {host} {tab tab' : TabState F} {ctx : WindowCtx} {initiator : NavigationInitiator}
  {out : TabState F × WindowCtx} {outcome : NavigationOutcome}

theorem TabState.Navigates.does (h : TabState.Navigates host tab ctx.cleared initiator out outcome) :
    Does host tab ctx out outcome := by
  cases outcome with
  | stays =>
    obtain ⟨hsame, hctx⟩ := h
    rw [Does, hctx]
    exact ⟨hsame.view_eq, rfl, rfl⟩
  | dispatches target =>
    obtain ⟨hsame, hctx⟩ := h
    rw [Does, hctx]
    exact ⟨hsame.view_eq, rfl, initiator, rfl⟩
  | commits url source =>
    obtain ⟨tab', hsame, hout⟩ := h
    exact ⟨tab', hsame.view_eq, hout⟩

theorem navigateToUrl_does (tab : TabState F) (ctx : WindowCtx) (url : String)
    (initiator : NavigationInitiator) :
    Does host tab ctx (tab.navigateToUrl host ctx.cleared url initiator)
      (navigationOutcome host tab.chromeState.committedUrl url initiator) :=
  (tab.navigateToUrl_navigates host ctx.cleared url initiator).does

/-- An operation on a tab that shows the same document. -/
theorem Does.of_view (hview : tab'.view = tab.view) (hid : tab'.id = tab.id)
    (h : Does host tab' ctx out outcome) : Does host tab ctx out outcome := by
  cases outcome with
  | stays => exact ⟨h.1.trans hview, h.2⟩
  | dispatches target => exact ⟨h.1.trans hview, h.2.1, by rw [← hid]; exact h.2.2⟩
  | commits url source =>
    obtain ⟨tab'', hv, hout⟩ := h
    exact ⟨tab'', hv.trans hview, hout⟩

theorem navigateBack_does {target : HistoryEntry} {history : HistoryStack}
    (h : tab.history.goBack ⟨tab.chromeState.committedUrl, tab.rootScrollOffsetY⟩ =
      some (target, history)) :
    Does host tab ctx (tab.navigateBack host ctx.cleared)
      (navigationOutcome host tab.chromeState.committedUrl target.url .historyStep) := by
  simp only [TabState.navigateBack, h]
  let tab' : TabState F := { tab with history, pendingScrollRestore := some target.scrollY }
  exact (navigateToUrl_does tab' ctx target.url .historyStep).of_view rfl rfl

theorem navigateForward_does {target : HistoryEntry} {history : HistoryStack}
    (h : tab.history.goForward ⟨tab.chromeState.committedUrl, tab.rootScrollOffsetY⟩ =
      some (target, history)) :
    Does host tab ctx (tab.navigateForward host ctx.cleared)
      (navigationOutcome host tab.chromeState.committedUrl target.url .historyStep) := by
  simp only [TabState.navigateForward, h]
  let tab' : TabState F := { tab with history, pendingScrollRestore := some target.scrollY }
  exact (navigateToUrl_does tab' ctx target.url .historyStep).of_view rfl rfl

/-- The commands that an action other than a navigation sends: none to navigate, and a fetch only for
a resolved call, whose target the tab's own interner names. -/
def SendsOnly (host : Host) (tab : TabState F) (action : RuntimeAction) (cmd : NetworkCmd) : Prop :=
  match cmd with
  | .navigate _ _ _ => False
  | .fetch _ _ _ targetVar _ _ _ _ =>
    ∃ method url payload sym format headers,
      action = .resolvedCall method url payload sym format headers ∧
        tab.reachesOut host url = false ∧ tab.store.interner.resolve sym = some targetVar
  | _ => True

theorem executeCapabilityAction_sends (host : Host) (tab : TabState F) (ctx : WindowCtx)
    (action : RuntimeAction) :
    reloads (tab.executeCapabilityAction host ctx.cleared action).2.logicTx = [] ∧
      ∀ cmd ∈ (tab.executeCapabilityAction host ctx.cleared action).2.networkTx,
        SendsOnly host tab action cmd := by
  cases action with
  | resolvedCall method url payload sym format headers =>
    simp only [TabState.executeCapabilityAction]
    split
    · exact ⟨rfl, forall_mem_nil _⟩
    rename_i hreach
    split
    · exact ⟨rfl, forall_mem_nil _⟩
    · rename_i hresolve
      refine ⟨rfl, fun cmd hcmd => ?_⟩
      obtain rfl := mem_singleton.mp hcmd
      exact ⟨_, _, _, _, _, _, rfl, by simpa using hreach, hresolve⟩
  | storeLocal | downloadMedia =>
    simp only [TabState.executeCapabilityAction]
    split
    · exact ⟨rfl, forall_mem_nil _⟩
    · refine ⟨rfl, fun cmd hcmd => ?_⟩
      obtain rfl := mem_singleton.mp hcmd
      trivial
  | getSystemTime sym =>
    simp only [TabState.executeCapabilityAction]
    split
    · exact ⟨rfl, forall_mem_nil _⟩
    · simp only [WindowCtx.sendLogic]
      split
      · exact ⟨rfl, forall_mem_nil _⟩
      · exact ⟨rfl, forall_mem_nil _⟩
  | networkCall =>
    refine ⟨rfl, fun cmd hcmd => ?_⟩
    obtain rfl := mem_singleton.mp hcmd
    trivial
  | _ => exact ⟨rfl, forall_mem_nil _⟩

/-- An action other than a navigation leaves the document in place. -/
theorem executeAction_sends (host : Host) (tab : TabState F) (ctx : WindowCtx) (gesture : Bool)
    (action : RuntimeAction) (haction : ∀ url, action ≠ .navigate url) :
    (tab.executeAction host ctx.cleared gesture action).1.view = tab.view ∧
      reloads (tab.executeAction host ctx.cleared gesture action).2.logicTx = [] ∧
      ∀ cmd ∈ (tab.executeAction host ctx.cleared gesture action).2.networkTx,
        SendsOnly host tab action cmd := by
  have hcapability := And.intro (tab.executeCapabilityAction_view host ctx.cleared action)
    (executeCapabilityAction_sends host tab ctx action)
  cases action with
  | navigate url => exact absurd rfl (haction url)
  | copyToClipboard nodeId => exact ⟨rfl, rfl, fun _ hcmd => nomatch hcmd⟩
  | _ => exact hcapability

/-- A navigation by an action; the tab is marked as loading first. -/
theorem executeAction_navigate_does (gesture : Bool) (url : String) :
    Does host tab ctx (tab.executeAction host ctx.cleared gesture (.navigate url))
      (navigationOutcome host tab.chromeState.committedUrl url (TabSystem.initiatorOf gesture)) :=
  Does.of_view rfl rfl (navigateToUrl_does (tab.setLoading true) ctx url _)

theorem sendStatus_sends (tab : TabState F) (ctx : WindowCtx) (message : String) :
    reloads (tab.sendStatus ctx message).logicTx = reloads ctx.logicTx ∧
      (tab.sendStatus ctx message).networkTx = ctx.networkTx := by
  unfold TabState.sendStatus WindowCtx.sendLogic
  split <;> simp [reloads]

theorem sendVariable_sends (tab : TabId) (ctx : WindowCtx) (name : String) (v : Value) :
    reloads (ctx.sendLogic tab (.updateVariable name v)).logicTx = reloads ctx.logicTx ∧
      (ctx.sendLogic tab (.updateVariable name v)).networkTx = ctx.networkTx := by
  unfold WindowCtx.sendLogic
  split <;> simp [reloads]

theorem processNetworkResult_does (s : TabSystem F) (r : NetworkResult) :
    Does host s.tab s.ctx (s.tab.processNetworkResult host s.ctx.cleared r)
      (s.resultOutcome host r) := by
  have hstays : ∀ (tab : TabState F) (ctx : WindowCtx), tab.view = s.tab.view →
      reloads ctx.logicTx = [] → ctx.networkTx = [] → Does host s.tab s.ctx (tab, ctx) .stays :=
    fun tab ctx hview hr hn => ⟨hview, hr, hn⟩
  cases r with
  | success id targetVar data =>
    obtain ⟨hr, hn⟩ := sendVariable_sends s.tab.id s.ctx.cleared targetVar data
    obtain ⟨hr', hn'⟩ := sendStatus_sends s.tab
      (s.ctx.cleared.sendLogic s.tab.id (.updateVariable targetVar data)) "Completato."
    exact hstays _ _ rfl (hr'.trans hr) (hn'.trans hn)
  | fetchFailed id targetVar e =>
    obtain ⟨hr, hn⟩ := sendVariable_sends s.tab.id s.ctx.cleared targetVar
      (.string ("error: " ++ e.display))
    exact hstays _ _ rfl hr hn
  | error id e =>
    obtain ⟨hr, hn⟩ := sendStatus_sends s.tab s.ctx.cleared ("Errore: " ++ e.display)
    exact hstays _ _ rfl hr hn
  | navigateSuccess id url source => exact ⟨s.tab, rfl, rfl⟩
  | navigationRedirect id newUrl initiator =>
    simp only [TabSystem.resultOutcome, TabState.processNetworkResult, TabState.registerRedirect]
    by_cases hbudget : s.tab.redirectCount + 1 ≤ host.maxRedirects
    · simp only [hbudget, decide_true, if_true]
      let tab' : TabState F := { s.tab with redirectCount := s.tab.redirectCount + 1 }
      exact (navigateToUrl_does tab' s.ctx newUrl initiator.intoRedirectOf).of_view rfl rfl
    · simp only [hbudget, decide_false, if_false]
      obtain ⟨hr, hn⟩ := sendStatus_sends s.tab s.ctx.cleared "Errore: troppi redirect"
      exact hstays _ _ rfl hr hn

/-- The text is loaded as this document, which can be laid out. -/
def Frontend.Installs (F : Frontend) (url source : String) (loaded : Loaded F) : Prop :=
  (∃ log, F.loadDocument url source = (log, some loaded)) ∧
    ∃ layout, F.buildTaffyTree loaded.document.dom loaded.style url = .ok layout

/-- A commit moves the origin only, or installs a document and hands it to the worker. -/
theorem handleNavigateSuccess_cases (host : Host) (tab : TabState F) (ctx : WindowCtx)
    (url source : String) :
    (tab.handleNavigateSuccess host ctx.cleared url source).2.networkTx = [] ∧
      (((∀ loaded, ¬F.Installs url source loaded) ∧
          (tab.handleNavigateSuccess host ctx.cleared url source).1.view =
            (tab.commitOrigin host url).view ∧
          (tab.handleNavigateSuccess host ctx.cleared url source).2.logicTx = []) ∨
        ∃ loaded, F.Installs url source loaded ∧
          ((tab.handleNavigateSuccess host ctx.cleared url source).2.logicTx = [] ∨
            ctx.logicOpen = true ∧ ∃ payload, payload.interner = loaded.document.interner ∧
              (tab.handleNavigateSuccess host ctx.cleared url source).2.logicTx =
                [(tab.id, .reload payload)])) := by
  rcases hload : F.loadDocument url source with ⟨log, _ | loaded⟩
  · rw [tab.handleNavigateSuccess_rejected host ctx.cleared hload]
    refine ⟨rfl, .inl ⟨?_, rfl, rfl⟩⟩
    rintro loaded ⟨⟨log', h⟩, -⟩
    simp [hload] at h
  cases hlayout : F.buildTaffyTree loaded.document.dom loaded.style url with
  | error e =>
    rw [tab.handleNavigateSuccess_layoutFailed host ctx.cleared hload hlayout]
    refine ⟨rfl, .inl ⟨?_, rfl, rfl⟩⟩
    rintro loaded' ⟨⟨log', h⟩, layout, h'⟩
    obtain ⟨rfl, rfl⟩ : log = log' ∧ loaded = loaded' := by simpa [hload] using h
    simp [hlayout] at h'
  | ok layout =>
    rw [tab.handleNavigateSuccess_installed host ctx.cleared hload hlayout]
    have hinstalls : F.Installs url source loaded := ⟨⟨log, hload⟩, layout, hlayout⟩
    cases hopen : ctx.logicOpen with
    | false => grind [TabState.triggerLogicReload, WindowCtx.sendLogic, WindowCtx.logErrors, WindowCtx.cleared]
    | true =>
      simp only [TabState.triggerLogicReload, WindowCtx.sendLogic, WindowCtx.logErrors,
        WindowCtx.cleared, hopen]
      exact ⟨rfl, .inr ⟨loaded, hinstalls, .inr ⟨trivial, _,
        VariableStore.setRuntime_interner _ _ _, rfl⟩⟩⟩

end Operations

/-! ## The moves by what they do -/

namespace TabSystem

variable {F : Frontend} {s t : TabSystem F} {m : TabMove}

/-- The response's next action has been taken. -/
def took (s : TabSystem F) (view : View) (acting : List (View × Bool × RuntimeAction)) :
    TabSystem F :=
  { s with acting, uses := s.uses ++ [(view, s.tab.view)] }

/-- The next network result has been taken. -/
def received (s : TabSystem F) (results : List (Ticket × NetworkResult)) : TabSystem F :=
  { s with results }

/-- The variables written by a network result, which sent `logicTx`. -/
def writesOf (s : TabSystem F) (ticket : Ticket) (logicTx : List (TabId × UiEvent)) :
    List NetworkWrite :=
  (updates logicTx).map fun name => ⟨ticket, s.documents.length, s.documents.getLast?, name⟩

inductive Moves (s : TabSystem F) : TabMove → TabSystem F → Prop where
  | nothing {m : TabMove} (hdoes : s.does m = .stays) : Moves s m s
  | event {m : TabMove} {tab : TabState F} {e : UiEvent} (hview : tab.view = s.tab.view) (he : ∀ payload, e ≠ .reload payload)
      (hdoes : s.does m = .stays) : Moves s m (s.send tab e)
  | navigation {m : TabMove} {host : Host} {initiator : NavigationInitiator}
      {out : TabState F × WindowCtx} (hhost : m.host? = some host) (hacting : s.acting = [])
      (hdoes : s.does m = s.starts m) (hout : Does host s.tab s.ctx out (s.starts m)) :
      Moves s m (s.settle (s.newChain initiator) false out (s.starts m))
  | drainError {view e logicOut} (h : s.logicOut = (view, .error e) :: logicOut) :
      Moves s .drain { s with tab := s.tab.releaseTimerTick, logicOut }
  | drainOk {view response logicOut} (h : s.logicOut = (view, .ok response) :: logicOut) :
      Moves s .drain
        { s with
          tab := s.tab.releaseTimerTick.applyMutations response.stateUpdate.mutatedVariables
          logicOut
          acting := response.runtimeActions.map fun action => (view, response.gesture, action)
          uses := s.uses ++ [(view, s.tab.view)] }
  | actNavigate {host view gesture url acting out}
      (h : s.acting = (view, gesture, .navigate url) :: acting)
      (hout : Does host s.tab s.ctx out (s.starts (.act host))) :
      Moves s (.act host)
        ((s.took view acting).settle ((s.took view acting).newChain (initiatorOf gesture)) false out
          (s.starts (.act host)))
  | act {host view gesture action acting} (h : s.acting = (view, gesture, action) :: acting)
      (haction : ∀ url, action ≠ .navigate url) :
      Moves s (.act host)
        ((s.took view acting).absorb ⟨0, none⟩
          (s.tab.executeAction host s.ctx.cleared gesture action))
  | result {host ticket r results} (h : s.results = (ticket, r) :: results)
      (hacting : s.acting = []) :
      Moves s (.result host)
        { (s.received results).settle ticket.chain ticket.isNavigation
            (s.tab.processNetworkResult host s.ctx.cleared r) (s.resultOutcome host r) with
          writes := s.writes ++ s.writesOf ticket
            (s.tab.processNetworkResult host s.ctx.cleared r).2.logicTx }
  | answer {i e out} (h : s.logicIn[i]? = some e) :
      Moves s (.answer i out)
        { s with
          logicIn := s.logicIn.eraseIdx i
          logicOut := s.logicOut ++ (out.map fun r => (e.1, r)).toList }
  | complete {i c ticket cmd r} (h : s.inFlight[i]? = some (ticket, cmd))
      (hr : cmd.answer c = some r) :
      Moves s (.complete i c)
        { s with inFlight := s.inFlight.eraseIdx i, results := s.results ++ [(ticket, r)] }

theorem mayDispatchTimerTick_view (tab : TabState F) : tab.mayDispatchTimerTick.2.view = tab.view := by
  unfold TabState.mayDispatchTimerTick
  split <;> rfl

theorem moves_of_historyStep {host : Host} {pick : Option (HistoryEntry × HistoryStack)}
    {out : TabState F × WindowCtx} (hhost : m.host? = some host) (hacting : s.acting = [])
    (hdoes : s.does m = s.starts m)
    (hstarts : s.starts m =
      match pick with
      | some (target, _) => s.outcome host target.url .historyStep
      | none => .stays)
    (hout : ∀ target history, pick = some (target, history) →
      Does host s.tab s.ctx out (s.outcome host target.url .historyStep)) :
    Moves s m (s.historyStep host pick out) := by
  cases pick with
  | none => exact .nothing (hdoes.trans hstarts)
  | some pick =>
    simp only [historyStep, ← hstarts]
    exact .navigation hhost hacting hdoes (by rw [hstarts]; exact hout _ _ rfl)

theorem moves_of_step (h : s.step m = some t) : Moves s m t := by
  cases m with
  | user event =>
    simp only [step] at h
    split at h
    · cases h
      exact .event rfl (fun _ => nofun) rfl
    · cases h
      exact .event rfl (fun _ => nofun) rfl
    · cases h
  | tick index =>
    simp only [step] at h
    split at h
    · rename_i htick
      cases h
      have hview := mayDispatchTimerTick_view s.tab
      rw [htick] at hview
      exact .event hview (fun _ => nofun) rfl
    · cases h
  | openUrl host url =>
    simp only [step] at h
    split at h
    · rename_i hacting
      cases h
      exact .navigation rfl (isEmpty_iff.mp hacting) rfl
        (navigateToUrl_does s.tab s.ctx url .userGesture)
    · cases h
  | back host =>
    simp only [step] at h
    split at h
    · rename_i hacting
      cases h
      exact moves_of_historyStep rfl (isEmpty_iff.mp hacting) rfl rfl fun _ _ =>
        navigateBack_does
    · cases h
  | forward host =>
    simp only [step] at h
    split at h
    · rename_i hacting
      cases h
      exact moves_of_historyStep rfl (isEmpty_iff.mp hacting) rfl rfl fun _ _ =>
        navigateForward_does
    · cases h
  | drain =>
    simp only [step] at h
    split at h
    · unfold drain at h
      split at h
      · cases h
      · cases h
        exact .drainError ‹_›
      · cases h
        exact .drainOk ‹_›
    · cases h
  | act host =>
    simp only [step, act] at h
    split at h
    · cases h
    · rename_i view gesture action acting hacting
      split at h
      · rename_i url
        cases h
        have hstarts : s.starts (.act host) = s.outcome host url (initiatorOf gesture) := by
          simp [starts, hacting]
        have hdoes : Does host s.tab s.ctx _ _ := executeAction_navigate_does gesture url
        have hmoves := Moves.actNavigate hacting (by rw [hstarts]; exact hdoes)
        rw [hstarts] at hmoves
        exact hmoves
      · rename_i hnavigate
        cases h
        exact .act hacting hnavigate
  | result host =>
    simp only [step] at h
    split at h
    · rename_i hacting
      unfold result at h
      split at h
      · cases h
      · cases h
        exact .result ‹_› (isEmpty_iff.mp hacting)
    · cases h
  | answer i out =>
    simp only [step, Option.map_eq_some_iff] at h
    obtain ⟨e, he, rfl⟩ := h
    exact .answer he
  | complete i c =>
    simp only [step] at h
    split at h
    · cases h
    · rename_i hcmd
      obtain ⟨r, hr, rfl⟩ := Option.map_eq_some_iff.mp h
      exact .complete hcmd hr

end TabSystem

end Mizu
