import Mizu.Render.Navigations

/-!
# What a move asks for

`asks` is the navigation that a move of the window asks for, `requested` the chains that it has sent
requests for. Whatever else a move does to the tab is said by `step_asks`, `step_asks_none` and
`step_result`, one for each way in which the window can move:

* `step_quiet`, `step_sends`: the chains outstanding after a move.
-/

namespace Mizu

open List Option

namespace TabSystem

variable {F : Frontend} {s t : TabSystem F} {m : TabMove}

/-- The navigation that a move asks for, other than as the result of an earlier one. -/
def asks (s : TabSystem F) : TabMove → Option (Host × String × NavigationInitiator)
  | .openUrl host url => some (host, url, .userGesture)
  | .back host => (s.tab.history.goBack s.leaving).map fun p => (host, p.1.url, .historyStep)
  | .forward host => (s.tab.history.goForward s.leaving).map fun p => (host, p.1.url, .historyStep)
  | .act host =>
    match s.acting with
    | (_, gesture, .navigate url) :: _ => some (host, url, initiatorOf gesture)
    | _ => none
  | _ => none

/-- A move asks for a navigation that the policy lets through. -/
def admits (s : TabSystem F) (m : TabMove) : Bool :=
  match s.asks m with
  | some (host, url, initiator) =>
    navigationAdmitted host s.tab.chromeState.committedUrl url initiator
  | none => false

/-- What a move starts is the outcome of what it asks for. -/
theorem starts_eq (s : TabSystem F) (m : TabMove) :
    s.starts m =
      match s.asks m with
      | some (host, url, initiator) => s.outcome host url initiator
      | none => .stays := by
  cases m with
  | back host => grind [starts, asks]
  | forward host => grind [starts, asks]
  | act host =>
    simp only [starts, asks]
    grind
  | _ => rfl

variable {initiator : NavigationInitiator}

/-- No move asks for a redirect. -/
theorem asks_isRedirect {host : Host} {url : String}
    (h : s.asks m = some (host, url, initiator)) : initiator.isRedirect = false := by
  unfold asks at h
  split at h
  · cases h
    rfl
  · obtain ⟨_, -, h⟩ := map_eq_some_iff.mp h
    cases h
    rfl
  · obtain ⟨_, -, h⟩ := map_eq_some_iff.mp h
    cases h
    rfl
  · split at h
    · cases h
      unfold initiatorOf
      split <;> rfl
    · cases h
  · cases h

theorem starts_of_not_admits (h : s.admits m = false) : s.starts m = .stays := by
  rw [starts_eq]
  unfold admits at h
  split at h
  · exact navigationOutcome_stays h
  · rfl

/-- The tab from which a move navigates. -/
def prepared (s : TabSystem F) : TabMove → TabState F
  | .back _ =>
    match s.tab.history.goBack s.leaving with
    | some (target, history) => { s.tab with history, pendingScrollRestore := some target.scrollY }
    | none => s.tab
  | .forward _ =>
    match s.tab.history.goForward s.leaving with
    | some (target, history) => { s.tab with history, pendingScrollRestore := some target.scrollY }
    | none => s.tab
  | .act _ => s.tab.setLoading true
  | _ => s.tab

theorem prepared_committedUrl (s : TabSystem F) (m : TabMove) :
    (s.prepared m).chromeState.committedUrl = s.tab.chromeState.committedUrl ∧
      (s.prepared m).redirectCount = s.tab.redirectCount := by
  unfold prepared
  split
  · split <;> exact ⟨rfl, rfl⟩
  · split <;> exact ⟨rfl, rfl⟩
  · exact ⟨rfl, rfl⟩
  · exact ⟨rfl, rfl⟩

/-- A move that asks for a navigation does nothing else. -/
theorem step_asks {host : Host} {url : String}
    (hstep : s.step m = some t) (hasks : s.asks m = some (host, url, initiator)) :
    t.tab = ((s.prepared m).navigateToUrl host s.ctx.cleared url initiator).1 := by
  cases m with
  | openUrl host' url' =>
    simp only [asks, some.injEq, Prod.mk.injEq] at hasks
    obtain ⟨rfl, rfl, rfl⟩ := hasks
    simp only [step] at hstep
    split at hstep
    · cases hstep
      exact settle_tab _ _ _
    · cases hstep
  | back host' =>
    obtain ⟨⟨target, history⟩, hpick, hasks⟩ := map_eq_some_iff.mp hasks
    obtain ⟨rfl, rfl, rfl⟩ : host' = host ∧ target.url = url ∧ .historyStep = initiator := by
      simpa using hasks
    simp only [step] at hstep
    split at hstep
    · cases hstep
      simp only [historyStep, prepared, hpick, settle_tab, TabState.navigateBack]
      rw [leaving] at hpick
      simp only [hpick]
    · cases hstep
  | forward host' =>
    obtain ⟨⟨target, history⟩, hpick, hasks⟩ := map_eq_some_iff.mp hasks
    obtain ⟨rfl, rfl, rfl⟩ : host' = host ∧ target.url = url ∧ .historyStep = initiator := by
      simpa using hasks
    simp only [step] at hstep
    split at hstep
    · cases hstep
      simp only [historyStep, prepared, hpick, settle_tab, TabState.navigateForward]
      rw [leaving] at hpick
      simp only [hpick]
    · cases hstep
  | act host' =>
    simp only [asks] at hasks
    split at hasks
    · rename_i view gesture url' acting hacting
      simp only [some.injEq, Prod.mk.injEq] at hasks
      obtain ⟨rfl, rfl, rfl⟩ := hasks
      simp only [step, act, hacting] at hstep
      cases hstep
      exact settle_tab _ _ _
    · cases hasks
  | _ => cases hasks

theorem mayDispatchTimerTick_eq (tab : TabState F) :
    ∃ ticks, tab.mayDispatchTimerTick.2 = { tab with inflightTimerTicks := ticks } := by
  unfold TabState.mayDispatchTimerTick
  split
  · exact ⟨tab.inflightTimerTicks, rfl⟩
  · exact ⟨_, rfl⟩

theorem executeCapabilityAction_eq (host : Host) (tab : TabState F) (ctx : WindowCtx)
    (action : RuntimeAction) :
    ∃ policy, (tab.executeCapabilityAction host ctx action).1 = { tab with capabilityPolicy := policy } := by
  unfold TabState.executeCapabilityAction
  cases action with
  | storeLocal key value =>
    dsimp only
    split
    · exact ⟨_, rfl⟩
    · exact ⟨_, rfl⟩
  | resolvedCall method url payload sym format headers =>
    dsimp only
    split
    · exact ⟨tab.capabilityPolicy, rfl⟩
    · split <;> exact ⟨tab.capabilityPolicy, rfl⟩
  | getSystemTime | downloadMedia =>
    dsimp only
    split <;> exact ⟨tab.capabilityPolicy, rfl⟩
  | _ => exact ⟨tab.capabilityPolicy, rfl⟩

/-- A move that asks for nothing, and takes no result, changes only the variables, the count of ticks and
the quota. -/
theorem step_asks_none (hstep : s.step m = some t) (hasks : s.asks m = none)
    (hresult : ∀ host, m ≠ .result host) : ∃ ticks store policy, t.tab =
      { s.tab with inflightTimerTicks := ticks, store := store, capabilityPolicy := policy } := by
  have hsame {t : TabSystem F} (h : t.tab = s.tab) : ∃ ticks store policy, t.tab =
      { s.tab with inflightTimerTicks := ticks, store := store, capabilityPolicy := policy } :=
    ⟨s.tab.inflightTimerTicks, s.tab.store, s.tab.capabilityPolicy, h⟩
  cases m with
  | user event =>
    simp only [step] at hstep
    split at hstep <;> cases hstep <;> exact hsame rfl
  | tick index =>
    simp only [step] at hstep
    split at hstep
    · rename_i htick
      cases hstep
      obtain ⟨ticks, h⟩ := mayDispatchTimerTick_eq s.tab
      rw [htick] at h
      exact ⟨ticks, s.tab.store, s.tab.capabilityPolicy, h⟩
    · cases hstep
  | openUrl host url => cases hasks
  | back host =>
    have hpick : s.tab.history.goBack s.leaving = none := by simpa [asks] using hasks
    simp only [step, historyStep, hpick] at hstep
    split at hstep <;> cases hstep
    exact hsame rfl
  | forward host =>
    have hpick : s.tab.history.goForward s.leaving = none := by simpa [asks] using hasks
    simp only [step, historyStep, hpick] at hstep
    split at hstep <;> cases hstep
    exact hsame rfl
  | drain =>
    simp only [step, drain] at hstep
    split at hstep
    · split at hstep
      · cases hstep
      · cases hstep
        exact ⟨_, s.tab.store, s.tab.capabilityPolicy, rfl⟩
      · cases hstep
        exact ⟨_, _, s.tab.capabilityPolicy, rfl⟩
    · cases hstep
  | act host =>
    simp only [step, act] at hstep
    split at hstep
    · cases hstep
    · rename_i view gesture action acting hacting
      split at hstep
      · simp [asks, hacting] at hasks
      · rename_i hnavigate
        cases hstep
        cases action with
        | navigate url => exact absurd rfl (hnavigate url)
        | copyToClipboard nodeId => exact hsame rfl
        | _ =>
          obtain ⟨policy, h⟩ := executeCapabilityAction_eq host s.tab s.ctx.cleared _
          exact ⟨s.tab.inflightTimerTicks, s.tab.store, policy, h⟩
  | result host => exact absurd rfl (hresult host)
  | answer i out => grind [step]
  | complete i c => grind [step, map_eq_some_iff]

/-! ## The requests of a move -/

/-- The chains that a move has sent requests for. -/
def requested (s t : TabSystem F) : List Chain :=
  (t.inFlight.drop s.inFlight.length).filterMap (·.1.chain?)

theorem requested_append {t : TabSystem F} {sent : List (Ticket × NetworkCmd)}
    (h : t.inFlight = s.inFlight ++ sent) : s.requested t = sent.filterMap (·.1.chain?) := by
  rw [requested, h, drop_left]

theorem requested_absorb (chain : Chain) (out : TabState F × WindowCtx)
    (h : t.inFlight = (s.absorb chain out).inFlight) :
    s.requested t =
      out.2.networkTx.filterMap fun cmd => (s.ticketFor chain cmd).chain? := by
  rw [requested_append h, filterMap_map]
  rfl

theorem requested_data (chain : Chain) (out : TabState F × WindowCtx)
    (h : t.inFlight = (s.absorb chain out).inFlight)
    (hdata : ∀ id url i, .navigate id url i ∉ out.2.networkTx) : s.requested t = [] := by
  rw [requested_absorb chain out h, filterMap_eq_nil_iff]
  intro cmd hcmd
  cases cmd with
  | navigate id url i => exact absurd hcmd (hdata id url i)
  | _ => rfl

variable {host : Host} {chain : Chain} {tab : TabState F} {ctx : WindowCtx}
  {out : TabState F × WindowCtx} {outcome : NavigationOutcome} {b : Bool}

theorem absorb_quiet (chain : Chain) (hdata : ∀ id url i, .navigate id url i ∉ out.2.networkTx) :
    s.requested (s.absorb chain out) = [] ∧ (s.absorb chain out).pendingChains = s.pendingChains :=
  ⟨requested_data chain out rfl hdata, pendingChains_absorb_data chain hdata⟩

theorem settle_quiet (chain : Chain) (hout : Does host tab ctx out outcome)
    (hnot : ∀ target, outcome ≠ .dispatches target) :
    s.requested (s.settle chain b out outcome) = [] ∧
      (s.settle chain b out outcome).pendingChains = s.pendingChains := by
  cases outcome with
  | stays => exact absorb_quiet chain (by simp [hout.2.2])
  | dispatches target => exact absurd rfl (hnot target)
  | commits url source =>
    obtain ⟨tab', -, rfl⟩ := hout
    exact absorb_quiet chain (by simp [(handleNavigateSuccess_cases host tab' ctx url source).1])

theorem settle_sends {target : String} (chain : Chain) (hout : Does host tab ctx out (.dispatches target))
    (hpending : s.pendingChains = []) :
    s.requested (s.settle chain b out (.dispatches target)) = [chain] ∧
      (s.settle chain b out (.dispatches target)).pendingChains = [chain] := by
  obtain ⟨-, -, initiator, hsent⟩ := hout
  refine ⟨?_, pendingChains_absorb_navigate chain hpending hsent⟩
  exact (requested_absorb chain out rfl).trans (by rw [hsent]; rfl)

/-- Only a result answers an earlier navigation. -/
theorem does_eq_starts (h : s.starts m ≠ .stays) : s.does m = s.starts m := by
  cases m with
  | result => exact absurd rfl h
  | _ => rfl

/-- A move that starts no request and takes no result leaves the same chains outstanding. -/
theorem step_quiet (hstep : s.step m = some t) (hresult : ∀ host, m ≠ .result host)
    (hnot : ∀ target, s.starts m ≠ .dispatches target) :
    s.requested t = [] ∧ t.pendingChains.Perm s.pendingChains := by
  have hperm {t : TabSystem F} (h : s.requested t = [] ∧ t.pendingChains = s.pendingChains) :
      s.requested t = [] ∧ t.pendingChains.Perm s.pendingChains := ⟨h.1, .of_eq h.2⟩
  have hsame {t : TabSystem F} (h : t.inFlight = s.inFlight) : s.requested t = [] :=
    requested_append (by rw [h, append_nil] : t.inFlight = s.inFlight ++ [])
  cases moves_of_step hstep with
  | nothing | drainError | drainOk | answer => exact hperm ⟨hsame rfl, rfl⟩
  | event hview he =>
    refine hperm (absorb_quiet _ fun id url i hmem => ?_)
    simp only [WindowCtx.sendLogic] at hmem
    split at hmem <;> cases hmem
  | navigation hhost hacting hdoes hout => exact hperm (settle_quiet _ hout hnot)
  | actNavigate hacting hout =>
    rename_i host view gesture url acting out
    exact hperm (settle_quiet (s := s.took view acting) _ hout hnot)
  | act hacting haction =>
    rename_i host view gesture action acting
    obtain ⟨-, -, hsends⟩ := executeAction_sends host s.tab s.ctx gesture action haction
    exact hperm (absorb_quiet (s := s.took view acting) _ fun id url i hmem => hsends _ hmem)
  | result => exact absurd rfl (hresult _)
  | complete hcmd hr =>
    grind [requested, drop_eq_nil_of_le, pendingChains_complete, length_eraseIdx_le]

/-- A move that starts a request starts a new chain, the only one outstanding if there was none. -/
theorem step_sends {target : String} (hstep : s.step m = some t) (hstarts : s.starts m = .dispatches target)
    (hpending : s.pendingChains = []) :
    ∃ chain, chain.number = s.chains + 1 ∧ s.requested t = [chain] ∧ t.pendingChains = [chain] := by
  cases moves_of_step hstep with
  | nothing hdoes | event _ _ hdoes => grind [does_eq_starts]
  | navigation hhost hacting hdoes hout =>
    rw [hstarts] at hout ⊢
    exact ⟨_, rfl, settle_sends _ hout hpending⟩
  | actNavigate hacting hout =>
    rename_i host view gesture url acting out
    rw [hstarts] at hout ⊢
    exact ⟨_, rfl, settle_sends (s := s.took view acting) _ hout hpending⟩
  | act hacting haction => grind [starts]
  | _ => cases hstarts

/-- The result of the only chain outstanding leaves none. -/
theorem received_pending (h : s.pendingChains.length ≤ 1) {r : NetworkResult}
    {results : List (Ticket × NetworkResult)} (hresults : s.results = (.navigation chain, r) :: results) :
    (s.received results).pendingChains = [] ∧ s.pendingChains = [chain] := by
  have hperm : s.pendingChains.Perm (chain :: (s.received results).pendingChains) := by
    grind [pendingChains, received, Ticket.chain?]
  have hnone : (s.received results).pendingChains = [] := by
    rw [hperm.length_eq, length_cons] at h
    exact length_eq_zero_iff.mp (by omega)
  exact ⟨hnone, perm_singleton.mp (hnone ▸ hperm)⟩

theorem step_chains (hstep : s.step m = some t) : s.chains ≤ t.chains := by
  have hsettle (s : TabSystem F) (chain : Chain) (answers : Bool) (out : TabState F × WindowCtx)
      (outcome : NavigationOutcome) : s.chains ≤ (s.settle chain answers out outcome).chains := by
    cases outcome with
    | stays => exact le_rfl
    | _ => exact Nat.le_max_left _ _
  cases moves_of_step hstep with
  | navigation => exact hsettle _ _ _ _ _
  | actNavigate hacting hout =>
    rename_i host view gesture url acting out
    exact hsettle (s.took view acting) _ _ _ _
  | result hresults hacting =>
    rename_i host ticket r results
    show s.chains ≤ ((s.received results).settle _ _ _ _).chains
    exact hsettle (s.received results) _ _ _ _
  | _ => exact le_rfl

/-- The window takes a result; a request is sent exactly if the result is a redirect that goes on. -/
theorem step_result (hstep : s.step (.result host) = some t) : ∃ ticket r results,
    s.results = (ticket, r) :: results ∧
      t.tab = (s.tab.processNetworkResult host s.ctx.cleared r).1 ∧
      ((∀ target, s.resultOutcome host r ≠ .dispatches target) →
        s.requested t = [] ∧ t.pendingChains = (s.received results).pendingChains) ∧
      (∀ target, s.resultOutcome host r = .dispatches target → (s.received results).pendingChains = [] →
        s.requested t = [ticket.chain] ∧ t.pendingChains = [ticket.chain]) := by
  simp only [step, result] at hstep
  split at hstep
  swap
  · cases hstep
  split at hstep
  · cases hstep
  rename_i ticket r results hresults
  cases hstep
  have hout : Does host s.tab s.ctx _ _ := processNetworkResult_does s r
  refine ⟨ticket, r, results, hresults, settle_tab _ _ _, fun hnot => ?_, fun target htarget hpending => ?_⟩
  · exact settle_quiet (s := s.received results) (b := ticket.isNavigation) ticket.chain hout hnot
  · have hsends := settle_sends (s := s.received results) (b := ticket.isNavigation) ticket.chain
      (htarget ▸ hout) hpending
    rw [← htarget] at hsends
    exact hsends

end TabSystem

end Mizu
