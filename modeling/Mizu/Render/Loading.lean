import Mizu.Render.Requests

/-!
# The loading flag

The flag of a tab is written by those who ask for a navigation, by `navigate_to_url` and by what becomes of
the results. `loadStep` adds to the machine of a tab the callers that mark it before they ask, and images.

* `navigateToUrl_loading`: the flag after a navigation, by what becomes of it.
* `loadStep_exact_iff`: the steps that keep the flag exact.
* `loading_exact`: it tells in every state whether a navigation is outstanding, if all steps are such.
* `loading_forever`: not every step is.
-/

namespace Mizu

open Transition List

/-! ## One navigation -/

/-- What becomes of a navigation, as far as the flag goes. -/
inductive Landing where
  /-- It goes to the network. -/
  | dispatched
  /-- It is refused or has its document at once. -/
  | settled
  /-- It is allowed, and its file cannot be read. -/
  | unread
  deriving DecidableEq

/-- Decided by the policy and the disk. -/
def landing (host : Host) (currentUrl url : String) (initiator : NavigationInitiator) : Landing :=
  if url = "about:blank" then .settled
  else
    match navigationTarget host currentUrl url with
    | none => .settled
    | some resolvedUrl =>
      match checkNavigation currentUrl resolvedUrl initiator with
      | .block _ => .settled
      | .allow target =>
        if startsWith "file://" target then
          if ((stripPrefix "file:///" target).bind host.readToString).isSome then .settled else .unread
        else if startsWith "mizu://" target then .dispatched
        else .unread

/-- The flag after it. -/
def Landing.flag (before : Bool) : Landing → Bool
  | dispatched => true
  | settled => false
  | unread => before

variable {host : Host} {initiator : NavigationInitiator}

theorem landing_dispatched_iff {currentUrl url : String} :
    landing host currentUrl url initiator = .dispatched ↔
      ∃ target, navigationOutcome host currentUrl url initiator = .dispatches target := by
  unfold landing navigationOutcome
  by_cases hblank : url = "about:blank"
  · simp [hblank]
  rw [if_neg hblank, if_neg hblank]
  cases navigationTarget host currentUrl url with
  | none => simp
  | some resolvedUrl =>
    dsimp only
    cases checkNavigation currentUrl resolvedUrl initiator with
    | block reason => simp
    | allow target =>
      dsimp only
      split
      · cases (stripPrefix "file:///" target).bind host.readToString <;> simp
      · split <;> simp

namespace TabState

variable {F : Frontend} (host : Host) (tab : TabState F) (ctx : WindowCtx)

theorem handleNavigateSuccess_loading (url source : String) :
    (tab.handleNavigateSuccess host ctx url source).1.chromeState.loading = false := by
  exact handleNavigateSuccess_rule host tab ctx (P := fun out => out.1.chromeState.loading = false)
    (fun _ => rfl) (fun _ _ => rfl) fun _ _ _ => congrArg (·.loading) (restoreScroll_kept _).1

theorem depart_loading (initiator : NavigationInitiator) :
    ((tab.clearScroll initiator).depart initiator).chromeState.loading = tab.chromeState.loading := by
  obtain ⟨scroll, hclear⟩ := tab.clearScroll_eq initiator
  rw [depart_eq, hclear]

theorem navigateToUrl_loading (url : String) (initiator : NavigationInitiator) :
    (tab.navigateToUrl host ctx url initiator).1.chromeState.loading =
      (landing host tab.chromeState.committedUrl url initiator).flag tab.chromeState.loading := by
  have hclear : (tab.clearScroll initiator).chromeState = tab.chromeState := by
    obtain ⟨scroll, h⟩ := tab.clearScroll_eq initiator
    rw [h]
  have hdepart := tab.depart_loading initiator
  have hstart : (if initiator = .historyStep then tab else { tab with pendingScrollRestore := none }) =
      tab.clearScroll initiator := rfl
  have hgone (tab : TabState F) : (if initiator.isRedirect then tab else tab.resetRedirectCount).recordLeaving
      initiator = tab.depart initiator := rfl
  unfold navigateToUrl landing
  rw [hstart]
  dsimp only
  by_cases hblank : url = "about:blank"
  · rw [if_pos hblank, if_pos hblank]
    exact handleNavigateSuccess_loading host _ ctx url blankSource
  rw [if_neg hblank, if_neg hblank, hclear]
  cases navigationTarget host tab.chromeState.committedUrl url with
  | none => rfl
  | some resolvedUrl =>
    dsimp only
    cases checkNavigation tab.chromeState.committedUrl resolvedUrl initiator with
    | block reason => rfl
    | allow target =>
      dsimp only
      rw [hgone]
      split
      · cases (stripPrefix "file:///" target).bind host.readToString with
        | none => exact hdepart
        | some content => exact handleNavigateSuccess_loading host _ ctx target content
      split
      · rfl
      · exact hdepart

/-- `rebuild_tab_taffy_after_image`. -/
def rebuildTabTaffyAfterImage : TabState F :=
  match F.buildTaffyTree tab.dom tab.style tab.chromeState.committedUrl with
  | .ok layout => { tab with layout }
  | .error _ => tab

theorem rebuildTabTaffyAfterImage_chromeState : tab.rebuildTabTaffyAfterImage.chromeState = tab.chromeState := by
  unfold rebuildTabTaffyAfterImage
  split <;> rfl

end TabState

/-! ## The moves -/

inductive LoadMove where
  | tab (m : TabMove)
  /-- The user asks for a URL in the bar, for a suggestion or for a reload; the tab is marked first. -/
  | ask (host : Host) (url : String)
  /-- The document in the tab is painted with an image. -/
  | paint (host : Host) (path : String)
  /-- An image is there, or is not. -/
  | image (i : Nat) (ready : Bool)

def NetworkCmd.isFetchImage : NetworkCmd → Bool
  | .fetchImage _ _ _ _ => true
  | _ => false

def NetworkCmd.isNavigate : NetworkCmd → Bool
  | .navigate _ _ _ => true
  | _ => false

/-- The results of a command to navigate. -/
def NetworkResult.answersNavigate : NetworkResult → Bool
  | .navigateSuccess _ _ _ | .navigationRedirect _ _ _ | .error _ _ => true
  | _ => false

variable {m : TabMove}

namespace TabSystem

variable {F : Frontend} {s t : TabSystem F}

def mark (s : TabSystem F) : TabSystem F := { s with tab := s.tab.setLoading true }

def loadStep (s : TabSystem F) : LoadMove → Option (TabSystem F)
  | .tab m => s.step m
  | .ask host url => s.mark.step (.openUrl host url)
  | .paint host path => some (s.absorb ⟨0, none⟩ (s.tab, { s.ctx.cleared with
      networkTx := (s.tab.paintImage host path).toList }))
  | .image i ready =>
    match s.acting, s.inFlight[i]? with
    | [], some (_, cmd) =>
      if cmd.isFetchImage then
        some { s with
          inFlight := s.inFlight.eraseIdx i
          tab := if ready then s.tab.rebuildTabTaffyAfterImage else s.tab }
      else none
    | _, _ => none

/-- A command to navigate is on its way, or the window has not processed its result. -/
def NavigationPending (s : TabSystem F) : Prop :=
  (∃ p ∈ s.inFlight, p.2.isNavigate = true) ∨ ∃ p ∈ s.results, p.1.isNavigation = true

def LoadingExact (s : TabSystem F) : Prop := s.tab.chromeState.loading = true ↔ s.NavigationPending

/-! ## Tickets -/

/-- Tickets of navigations are on commands to navigate and their results. -/
structure Tickets (s : TabSystem F) : Prop where
  commands : ∀ p ∈ s.inFlight, p.1.isNavigation = p.2.isNavigate
  results : ∀ p ∈ s.results, p.1.isNavigation = true → p.2.answersNavigate = true
  data : ∀ p ∈ s.results, p.1.isNavigation = false → p.2.navigates = false

theorem absorb_tickets (chain : Chain) (out : TabState F × WindowCtx) (h : Tickets s) :
    Tickets (s.absorb chain out) where
  commands p hp := by
    rcases mem_append.mp hp with hold | hnew
    · exact h.commands p hold
    · obtain ⟨cmd, -, rfl⟩ := mem_map.mp hnew
      cases cmd <;> rfl
  results := h.results
  data := h.data

theorem settle_tickets (chain : Chain) (answers : Bool) (out : TabState F × WindowCtx)
    (outcome : NavigationOutcome) (h : Tickets s) : Tickets (s.settle chain answers out outcome) := by
  have habsorb := absorb_tickets chain out h
  cases outcome <;> exact ⟨habsorb.commands, habsorb.results, habsorb.data⟩

theorem erase_tickets (i : Nat) (h : Tickets s) :
    ∀ p ∈ s.inFlight.eraseIdx i, p.1.isNavigation = p.2.isNavigate :=
  fun p hp => h.commands p (mem_of_mem_eraseIdx hp)

theorem step_tickets (h : Tickets s) (hstep : s.step m = some t) : Tickets t := by
  cases moves_of_step hstep with
  | nothing => exact h
  | event => exact absorb_tickets _ _ h
  | navigation => exact settle_tickets _ _ _ _ h
  | drainError | drainOk | answer => exact ⟨h.commands, h.results, h.data⟩
  | actNavigate => exact settle_tickets _ _ _ _ ⟨h.commands, h.results, h.data⟩
  | act => exact absorb_tickets _ _ ⟨h.commands, h.results, h.data⟩
  | result hresults hacting =>
    rename_i host ticket r results
    have hrest : Tickets (s.received results) :=
      ⟨h.commands, fun p hp => h.results p (hresults ▸ mem_cons_of_mem _ hp),
        fun p hp => h.data p (hresults ▸ mem_cons_of_mem _ hp)⟩
    have hsettle := settle_tickets ticket.chain ticket.isNavigation
      (s.tab.processNetworkResult host s.ctx.cleared r) (s.resultOutcome host r) hrest
    exact ⟨hsettle.commands, hsettle.results, hsettle.data⟩
  | complete hcmd hr =>
    rename_i i c ticket cmd r
    have hnavigate := h.commands (ticket, cmd) (mem_of_getElem? hcmd)
    refine ⟨erase_tickets i h, fun p hp hticket => ?_, fun p hp hticket => ?_⟩
    · rcases mem_append.mp hp with hold | hnew
      · exact h.results p hold hticket
      obtain rfl := mem_singleton.mp hnew
      rw [hticket] at hnavigate
      cases cmd with
      | navigate id url initiator =>
        cases c <;> simp only [NetworkCmd.answer, Option.some.injEq, reduceCtorEq] at hr <;> subst hr <;> rfl
      | _ => cases hnavigate
    · rcases mem_append.mp hp with hold | hnew
      · exact h.data p hold hticket
      obtain rfl := mem_singleton.mp hnew
      refine answer_navigates hr fun id url initiator heq => ?_
      rw [hticket, heq] at hnavigate
      cases hnavigate

theorem loadStep_tickets {m : LoadMove} (h : Tickets s) (hstep : s.loadStep m = some t) : Tickets t := by
  cases m with
  | tab m => exact step_tickets h hstep
  | ask host url => exact step_tickets (s := s.mark) (m := .openUrl host url) ⟨h.commands, h.results, h.data⟩ hstep
  | paint host path =>
    obtain rfl := Option.some.inj hstep
    exact absorb_tickets _ _ h
  | image i ready =>
    rw [loadStep] at hstep
    split at hstep
    · split at hstep
      · obtain rfl := Option.some.inj hstep
        exact ⟨erase_tickets i h, h.results, h.data⟩
      · cases hstep
    · cases hstep

/-- The chains outstanding are those of the commands and results. -/
theorem navigationPending_iff (h : Tickets s) : s.NavigationPending ↔ s.pendingChains ≠ [] := by
  have hchain (ticket : Ticket) : (∃ c, ticket.chain? = some c) ↔ ticket.isNavigation = true := by
    cases ticket <;> simp [Ticket.chain?, Ticket.isNavigation]
  have hne : s.pendingChains ≠ [] ↔ ∃ c, c ∈ s.pendingChains :=
    ⟨exists_mem_of_ne_nil _, by rintro ⟨_, hc⟩; exact ne_nil_of_mem hc⟩
  rw [hne]
  simp only [pendingChains, mem_filterMap, mem_append, mem_map]
  constructor
  · rintro (⟨p, hp, hnavigate⟩ | ⟨p, hp, hnavigation⟩)
    · obtain ⟨c, hc⟩ := (hchain p.1).mpr ((h.commands p hp).trans hnavigate)
      exact ⟨c, p.1, .inl ⟨p, hp, rfl⟩, hc⟩
    · grind
  · rintro ⟨c, _, ⟨p, hp, rfl⟩ | ⟨p, hp, rfl⟩, hc⟩
    · exact .inl ⟨p, hp, (h.commands p hp).symm.trans ((hchain p.1).mp ⟨c, hc⟩)⟩
    · exact .inr ⟨p, hp, (hchain p.1).mp ⟨c, hc⟩⟩

/-! ## What a move does to the flag -/

/-- A move that goes to the network leaves a chain outstanding. -/
theorem step_dispatches {target : String} (hstep : s.step m = some t)
    (hdoes : s.does m = .dispatches target) : t.pendingChains ≠ [] := by
  have hsettle {s : TabSystem F} {host : Host} {tab : TabState F} {ctx : WindowCtx} {chain : Chain} {b : Bool}
      {out : TabState F × WindowCtx} (hout : Does host tab ctx out (.dispatches target)) :
      (s.settle chain b out (.dispatches target)).pendingChains ≠ [] := by
    obtain ⟨-, -, initiator, hsent⟩ := hout
    refine ne_nil_of_mem (a := chain) ?_
    simp [settle, pendingChains, absorb, hsent, ticketFor, Ticket.chain?]
  cases moves_of_step hstep with
  | nothing hstays => rw [hstays] at hdoes; cases hdoes
  | event _ _ hstays => rw [hstays] at hdoes; cases hdoes
  | navigation hhost hacting heq hout => grind
  | actNavigate hacting hout =>
    rename_i host view gesture url acting out
    have hstarts : s.starts (.act host) = .dispatches target := hdoes
    rw [hstarts] at hout ⊢
    exact hsettle hout
  | act hacting haction => grind [does, starts]
  | result hresults hacting =>
    rename_i host ticket r results
    have hout : Does host s.tab s.ctx _ _ := processNetworkResult_does s r
    simp only [does, hresults] at hdoes
    rw [hdoes] at hout ⊢
    exact hsettle (s := s.received results) (b := ticket.isNavigation) hout
  | _ => cases hdoes

/-- The flag and the chains outstanding after a navigation, of those that were before it. -/
structure After (t : TabSystem F) (before : Bool) (others : List Chain) (l : Landing) : Prop where
  loading : t.tab.chromeState.loading = l.flag before
  sent : l = .dispatched → t.pendingChains ≠ []
  quiet : l ≠ .dispatched → t.pendingChains.Perm others

theorem step_asks_after {url : String}
    (hstep : s.step m = some t) (hasks : s.asks m = some (host, url, initiator)) :
    t.After (s.prepared m).chromeState.loading s.pendingChains
      (landing host s.tab.chromeState.committedUrl url initiator) := by
  have hstarts : s.starts m = s.outcome host url initiator := by rw [starts_eq, hasks]
  refine ⟨?_, fun hsent => ?_, fun hnot => ?_⟩
  · rw [step_asks hstep hasks, TabState.navigateToUrl_loading, (s.prepared_committedUrl m).1]
  · obtain ⟨target, htarget⟩ := landing_dispatched_iff.mp hsent
    have hdispatches : s.starts m = .dispatches target := hstarts.trans htarget
    exact step_dispatches hstep ((does_eq_starts (by simp [hdispatches])).trans hdispatches)
  · refine (step_quiet hstep (fun host hm => ?_) fun target htarget => ?_).2
    · subst hm
      cases hasks
    · exact hnot (landing_dispatched_iff.mpr ⟨target, hstarts.symm.trans htarget⟩)

end TabSystem

/-! ## Steps that keep the flag exact -/

/-- A response's action marks the tab before it asks for a navigation; the history does not. -/
def TabMove.marks : TabMove → Bool
  | .act _ => true
  | _ => false

namespace TabSystem

variable {F : Frontend} {s t : TabSystem F}

/-- The navigation that a move asks for or answers: what becomes of it, whether the flag is up by then, and the
other chains outstanding. -/
def lands (s : TabSystem F) : LoadMove → Option (Landing × Bool × List Chain)
  | .tab (.result host) =>
    match s.results with
    | (_, .navigateSuccess _ _ _) :: results => some (.settled, true, (s.received results).pendingChains)
    | (_, .error _ _) :: results => some (.settled, true, (s.received results).pendingChains)
    | (_, .navigationRedirect _ newUrl initiator) :: results =>
      some (if s.tab.redirectCount + 1 ≤ host.maxRedirects then
          landing host s.tab.chromeState.committedUrl newUrl initiator.intoRedirectOf
        else .settled, true, (s.received results).pendingChains)
    | _ => none
  | .tab m =>
    (s.asks m).map fun (host, url, initiator) =>
      (landing host s.tab.chromeState.committedUrl url initiator, m.marks, s.pendingChains)
  | .ask host url =>
    some (landing host s.tab.chromeState.committedUrl url .userGesture, true, s.pendingChains)
  | _ => none

end TabSystem

/-- What comes down at once lowers the flag for all, and an unread file leaves it up. -/
def Landing.Fits (marked : Bool) (others : List Chain) : Landing → Prop
  | dispatched => True
  | settled => others = []
  | unread => marked = true → others ≠ []

instance (marked : Bool) (others : List Chain) : (l : Landing) → Decidable (l.Fits marked others)
  | .dispatched => .isTrue trivial
  | .settled => inferInstanceAs (Decidable (others = []))
  | .unread => inferInstanceAs (Decidable (marked = true → others ≠ []))

namespace TabSystem

variable {F : Frontend} {s t : TabSystem F}

/-- No navigation is refused, and none ends, while another is outstanding; no payload fails then, and a tab
that is marked gets its file. -/
def Undisturbed (s : TabSystem F) (m : LoadMove) : Prop := ∀ l ∈ s.lands m, l.1.Fits l.2.1 l.2.2

instance (s : TabSystem F) (m : LoadMove) : Decidable (s.Undisturbed m) :=
  inferInstanceAs (Decidable (∀ l ∈ s.lands m, l.1.Fits l.2.1 l.2.2))

theorem After.exact_iff {marked : Bool} {others : List Chain} {l : Landing} (htickets : Tickets t)
    (h : t.After (marked || s.tab.chromeState.loading) others l)
    (hexact : s.tab.chromeState.loading = true ↔ s.pendingChains ≠ [])
    (hothers : marked = false → others = s.pendingChains) : t.LoadingExact ↔ l.Fits marked others := by
  rw [LoadingExact, navigationPending_iff htickets, h.loading]
  cases l with
  | dispatched => simp [Landing.flag, Landing.Fits, h.sent rfl]
  | settled =>
    have hnil : t.pendingChains = [] ↔ others = [] := by
      rw [← length_eq_zero_iff, (h.quiet (by decide)).length_eq, length_eq_zero_iff]
    simp [Landing.flag, Landing.Fits, hnil]
  | unread =>
    have hnil : t.pendingChains = [] ↔ others = [] := by
      rw [← length_eq_zero_iff, (h.quiet (by decide)).length_eq, length_eq_zero_iff]
    cases marked with
    | false => simp [Landing.flag, Landing.Fits, hnil, hexact, hothers rfl]
    | true => simp [Landing.flag, Landing.Fits, hnil]

theorem lands_asks (hresult : ∀ host, m ≠ .result host) :
    s.lands (.tab m) = (s.asks m).map fun (host, url, initiator) =>
      (landing host s.tab.chromeState.committedUrl url initiator, m.marks, s.pendingChains) := by
  cases m with
  | result host => exact absurd rfl (hresult host)
  | _ => rfl

theorem prepared_loading {asked : Host × String × NavigationInitiator} (hasks : s.asks m = some asked) :
    (s.prepared m).chromeState.loading = (m.marks || s.tab.chromeState.loading) := by
  cases m with
  | act host => rfl
  | back | forward =>
    obtain ⟨p, hp, -⟩ := Option.map_eq_some_iff.mp hasks
    simp only [prepared, hp, TabMove.marks, Bool.false_or]
  | _ => simp [prepared, TabMove.marks]

variable {results : List (Ticket × NetworkResult)}

/-- Nothing but the rest of the results is outstanding when a result is taken that is no navigation's. -/
theorem received_pending_data {ticket : Ticket} {r : NetworkResult}
    (hresults : s.results = (ticket, r) :: results) (hticket : ticket.isNavigation = false) :
    (s.received results).pendingChains = s.pendingChains := by
  cases ticket with
  | data document =>
    simp only [pendingChains, received, hresults, map_cons, filterMap_append, filterMap_cons,
      Ticket.chain?]
  | navigation chain => cases hticket

theorem ne_nil_of_navigation {ticket : Ticket} {r : NetworkResult}
    (hresults : s.results = (ticket, r) :: results) (hticket : ticket.isNavigation = true) :
    s.pendingChains ≠ [] := by
  cases ticket with
  | data document => cases hticket
  | navigation chain =>
    refine ne_nil_of_mem (a := chain) ?_
    simp [pendingChains, hresults, Ticket.chain?]

/-- A result of a navigation, or a failed payload, lowers the flag unless it goes on. -/
theorem result_after {marked : Bool} {others : List Chain} {l : Landing} (htickets : Tickets s)
    (hexact : s.tab.chromeState.loading = true ↔ s.pendingChains ≠ []) (hstep : s.step (.result host) = some t)
    (hlands : s.lands (.tab (.result host)) = some (l, marked, others)) :
    t.After (marked || s.tab.chromeState.loading) others l ∧ marked = true := by
  obtain ⟨ticket, r, results, hresults, htab, hquiet, -⟩ := step_result hstep
  have hdoes : s.does (.result host) = s.resultOutcome host r := by simp only [does, hresults]
  have hsent {target : String} (h : s.resultOutcome host r = .dispatches target) : t.pendingChains ≠ [] :=
    step_dispatches hstep (hdoes.trans h)
  have hstays (h : ∀ target, s.resultOutcome host r ≠ .dispatches target) :
      t.pendingChains.Perm (s.received results).pendingChains := .of_eq (hquiet h).2
  simp only [lands, hresults] at hlands
  cases r with
  | success | fetchFailed => cases hlands
  | error id e =>
    obtain ⟨rfl, rfl, rfl⟩ : .settled = l ∧ true = marked ∧ (s.received results).pendingChains = others := by
      simpa using hlands
    exact ⟨⟨by rw [htab]; rfl, fun h => (nomatch h), fun _ => hstays fun _ h => (nomatch h)⟩, rfl⟩
  | navigateSuccess id url source =>
    obtain ⟨rfl, rfl, rfl⟩ : .settled = l ∧ true = marked ∧ (s.received results).pendingChains = others := by
      simpa using hlands
    refine ⟨⟨?_, fun h => (nomatch h), fun _ => hstays fun _ h => (nomatch h)⟩, rfl⟩
    rw [htab]
    exact s.tab.handleNavigateSuccess_loading host _ url source
  | navigationRedirect id newUrl initiator =>
    obtain ⟨hl, hmarked⟩ := Prod.mk.inj (Option.some.inj hlands)
    obtain ⟨rfl, rfl⟩ := Prod.mk.inj hmarked
    have hticket : ticket.isNavigation = true := by
      by_contra hdata
      cases htickets.data (ticket, _) (hresults ▸ mem_cons_self) (by simpa using hdata)
    have hloading : s.tab.chromeState.loading = true := hexact.mpr (ne_nil_of_navigation hresults hticket)
    refine ⟨?_, rfl⟩
    simp only [TabState.processNetworkResult, TabState.registerRedirect] at htab
    by_cases hbudget : s.tab.redirectCount + 1 ≤ host.maxRedirects
    · have houtcome : s.resultOutcome host (.navigationRedirect id newUrl initiator) =
          s.outcome host newUrl initiator.intoRedirectOf := if_pos hbudget
      rw [if_pos hbudget] at hl
      simp only [hbudget, decide_true] at htab
      refine ⟨?_, fun h => ?_, fun h => hstays fun target htarget => ?_⟩
      · rw [htab, TabState.navigateToUrl_loading, hl, hloading]
        rfl
      · obtain ⟨target, htarget⟩ := landing_dispatched_iff.mp (hl.trans h)
        exact hsent (houtcome.trans htarget)
      · exact h (hl.symm.trans (landing_dispatched_iff.mpr ⟨target, houtcome.symm.trans htarget⟩))
    · rw [if_neg hbudget] at hl
      subst hl
      simp only [hbudget, decide_false] at htab
      refine ⟨by rw [htab]; rfl, fun h => (nomatch h), fun _ => hstays fun target htarget => ?_⟩
      simp [resultOutcome, hbudget] at htarget

/-- A move that asks for no navigation and answers none leaves the flag alone. -/
theorem loadStep_quiet {m : LoadMove} (htickets : Tickets s) (hstep : s.loadStep m = some t)
    (hlands : s.lands m = none) :
    t.tab.chromeState.loading = s.tab.chromeState.loading ∧ t.pendingChains.Perm s.pendingChains := by
  cases m with
  | tab m =>
    by_cases hresult : ∃ host, m = .result host
    · obtain ⟨host, rfl⟩ := hresult
      obtain ⟨ticket, r, results, hresults, htab, hquiet, -⟩ := step_result hstep
      simp only [lands, hresults] at hlands
      have hticket (h : r.answersNavigate = false) : ticket.isNavigation = false := by
        by_contra hnavigation
        have := htickets.results (ticket, r) (hresults ▸ mem_cons_self) (by simpa using hnavigation)
        rw [h] at this
        cases this
      cases r with
      | success | fetchFailed =>
        refine ⟨by rw [htab]; rfl, .of_eq ?_⟩
        rw [(hquiet fun _ h => (nomatch h)).2, received_pending_data hresults (hticket rfl)]
      | _ => cases hlands
    rw [lands_asks fun host hm => hresult ⟨host, hm⟩] at hlands
    have hasks := Option.map_eq_none_iff.mp hlands
    obtain ⟨ticks, store, policy, htab⟩ := step_asks_none hstep hasks fun host hm => hresult ⟨host, hm⟩
    refine ⟨by rw [htab], (step_quiet hstep (fun host hm => hresult ⟨host, hm⟩) fun target => ?_).2⟩
    simp [starts_eq, hasks]
  | ask host url => cases hlands
  | paint host path =>
    obtain rfl := Option.some.inj hstep
    refine ⟨rfl, .of_eq (pendingChains_absorb_data _ fun id url i hmem => ?_)⟩
    obtain ⟨u, -, hcmd⟩ := Option.map_eq_some_iff.mp (Option.mem_toList.mp hmem)
    cases hcmd
  | image i ready =>
    rw [loadStep] at hstep
    split at hstep
    swap
    · cases hstep
    rename_i ticket cmd hacting hcmd
    split at hstep
    swap
    · cases hstep
    rename_i himage
    obtain rfl := Option.some.inj hstep
    refine ⟨?_, ?_⟩
    · grind [TabState.rebuildTabTaffyAfterImage_chromeState]
    · -- An image's ticket is no navigation's, so no chain goes with it.
      have hdata : ticket.chain? = none := by
        have hticket := htickets.commands (ticket, cmd) (mem_of_getElem? hcmd)
        cases cmd with
        | fetchImage => cases ticket with
          | data document => rfl
          | navigation chain => cases hticket
        | _ => cases himage
      have hperm := pendingChains_complete (r := .error none (.network "")) hcmd
      simpa [pendingChains, hdata] using hperm

theorem loadStep_exact_iff {m : LoadMove} (htickets : Tickets s) (hexact : s.LoadingExact)
    (hstep : s.loadStep m = some t) : t.LoadingExact ↔ s.Undisturbed m := by
  have htickets' := loadStep_tickets htickets hstep
  rw [LoadingExact, navigationPending_iff htickets] at hexact
  cases hlands : s.lands m with
  | none =>
    obtain ⟨hloading, hperm⟩ := loadStep_quiet htickets hstep hlands
    have hnil : t.pendingChains = [] ↔ s.pendingChains = [] := by grind [length_eq_zero_iff, hperm.length_eq]
    simp [LoadingExact, navigationPending_iff htickets', hloading, hexact, hnil, Undisturbed, hlands]
  | some lands =>
    obtain ⟨l, marked, others⟩ := lands
    have hafter : t.After (marked || s.tab.chromeState.loading) others l ∧
        (marked = false → others = s.pendingChains) := by
      cases m with
      | tab m =>
        by_cases hresult : ∃ host, m = .result host
        · obtain ⟨host, rfl⟩ := hresult
          obtain ⟨h, hmarked⟩ := result_after htickets hexact hstep hlands
          exact ⟨h, fun hnot => absurd hmarked (by simp [hnot])⟩
        rw [lands_asks fun host hm => hresult ⟨host, hm⟩] at hlands
        obtain ⟨⟨host, url, initiator⟩, hasks, hl⟩ := Option.map_eq_some_iff.mp hlands
        obtain ⟨rfl, rfl, rfl⟩ : _ = l ∧ m.marks = marked ∧ s.pendingChains = others := by simpa using hl
        rw [← prepared_loading hasks]
        exact ⟨step_asks_after hstep hasks, fun _ => rfl⟩
      | ask host url =>
        obtain ⟨rfl, rfl, rfl⟩ : _ = l ∧ true = marked ∧ s.pendingChains = others := by
          simpa [TabSystem.lands] using hlands
        exact ⟨step_asks_after (s := s.mark) (m := .openUrl host url) hstep rfl, fun h => (nomatch h)⟩
      | paint | image => cases hlands
    rw [hafter.1.exact_iff htickets' hexact hafter.2]
    simp [Undisturbed, hlands]

/-- The flag is exact and the tickets are in order. -/
theorem loadStep_keeps {m : LoadMove} (h : Tickets s ∧ s.LoadingExact) (hgood : s.Undisturbed m)
    (hstep : s.loadStep m = some t) : Tickets t ∧ t.LoadingExact :=
  ⟨loadStep_tickets h.1 hstep, (loadStep_exact_iff h.1 h.2 hstep).mpr hgood⟩

theorem start_exact {tab : TabState F} {ctx : WindowCtx} (hidle : tab.chromeState.loading = false) :
    Tickets (start host tab ctx) ∧ (start host tab ctx).LoadingExact := by
  refine ⟨⟨fun _ hp => (nomatch hp), fun _ hp => (nomatch hp), fun _ hp => (nomatch hp)⟩, ?_⟩
  simp [LoadingExact, NavigationPending, start, hidle]

end TabSystem

/-! ## Runs -/

/-- The flag tells in every state whether a navigation is outstanding, if no step disturbs it. -/
theorem loading_exact {F : Frontend} {host : Host} {tab : TabState F} {ctx : WindowCtx} {s : TabSystem F}
    (hidle : tab.chromeState.loading = false)
    (h : Reaches TabSystem.loadStep TabSystem.Undisturbed (.start host tab ctx) s) : s.LoadingExact :=
  (h.invariant (I := fun s => s.Tickets ∧ s.LoadingExact) (TabSystem.start_exact hidle)
    fun _ _ _ hs hgood hstep => TabSystem.loadStep_keeps hs hgood hstep).2

/-- A tab as it is constructed. -/
def idleTab (url : String) : TabState plainFrontend := (plainTab plainFrontend () url).setLoading false

/-- A page is asked for while an image is on its way, and is redirected. -/
theorem loading_exact_waiting :
    ∃ s : TabSystem plainFrontend, s.tab.chromeState.loading = true ∧ s.LoadingExact := by
  obtain ⟨s, hreaches, hloading⟩ := exists_reaches_of_run TabSystem.loadStep TabSystem.Undisturbed
    (.start plainHost (idleTab "mizu://a.mizu/") plainCtx)
    [.paint plainHost "/i", .ask plainHost "mizu://b.mizu/", .image 0 true,
      .tab (.complete 0 (.redirect "mizu://c.mizu/")), .tab (.result plainHost)]
    (p := fun s => s.tab.chromeState.loading) (by decide)
  exact ⟨s, hloading, loading_exact rfl hreaches⟩

/-! ## A file that cannot be read -/

/-- A directory with a picture, which is no text. -/
def pictureHost : Host := { plainHost with inSandbox := fun _ _ => true }

/-- The user asks for a picture on disk: the tab loads for ever. -/
theorem loading_forever :
    ¬∀ (F : Frontend) (host : Host) (tab : TabState F) (ctx : WindowCtx) (s : TabSystem F),
      tab.chromeState.loading = false → Reaches TabSystem.loadStep (fun _ _ => True) (.start host tab ctx) s →
        s.LoadingExact := by
  intro h
  obtain ⟨s, hreaches, hstuck⟩ := exists_reaches_of_run TabSystem.loadStep (fun _ _ => True)
    (.start pictureHost (idleTab "file:///docs/index.mizu") plainCtx) [.ask pictureHost "file:///docs/photo.png"]
    (p := fun s => s.tab.chromeState.loading && s.inFlight.isEmpty && s.results.isEmpty) (by decide)
  have hexact := h plainFrontend pictureHost (idleTab "file:///docs/index.mizu") plainCtx s rfl hreaches
  simp only [Bool.and_eq_true, List.isEmpty_iff] at hstuck
  have hpending := hexact.mp hstuck.1.1
  simp [TabSystem.NavigationPending, hstuck.1.2, hstuck.2] at hpending

end Mizu
