import Mizu.Render.TabSystem

/-!
# Several navigations of one tab

Each navigation that is allowed starts a chain, which its redirects continue. The chains' results
come back in any order and the window processes every one of them.

* `last_navigation_wins`: in a run in which no navigation is allowed while another one is outstanding,
  results are processed in the order of their chains, and what document logic started replaces only a
  document of its own origin.
* `older_navigation_wins`: it is not so in every run.
-/

namespace Mizu

open List

/-- No result is processed after one of a later navigation, and a document is replaced on behalf of
document logic only at the origin of that logic. -/
structure LastNavigationWins (answered : List Answered) : Prop where
  ordered : answered.Pairwise fun a b => a.chain.number ≤ b.chain.number
  origin : ∀ a ∈ answered, ∀ u r, a.chain.startedByLogic = some u → a.replaced = some r →
    r = u ∨ isSameOrigin u r = true

/-- A result of the latest chain may be logged. -/
theorem LastNavigationWins.append {answered : List Answered} {a : Answered}
    (h : LastNavigationWins answered) (hle : ∀ b ∈ answered, b.chain.number ≤ a.chain.number)
    (horigin : ∀ u r, a.chain.startedByLogic = some u → a.replaced = some r → r = u) :
    LastNavigationWins (answered ++ [a]) where
  ordered := by
    rw [pairwise_append]
    refine ⟨h.ordered, pairwise_singleton _ _, fun b hb c hc => ?_⟩
    obtain rfl := mem_singleton.mp hc
    exact hle b hb
  origin b hb u r hu hr := by
    rcases mem_append.mp hb with hold | hnew
    · exact h.origin b hold u r hu hr
    · obtain rfl := mem_singleton.mp hnew
      exact .inl (horigin u r hu hr)

def Ticket.chain? : Ticket → Option Chain
  | .navigation chain => some chain
  | .data _ => none

/-- The result of a command to navigate. -/
def NetworkResult.navigates : NetworkResult → Bool
  | .navigateSuccess _ _ _ | .navigationRedirect _ _ _ => true
  | _ => false

namespace TabSystem

variable {F : Frontend} {host : Host} {s t : TabSystem F} {m : TabMove} {chain : Chain}
  {out : TabState F × WindowCtx} {outcome : NavigationOutcome}

/-- The chains whose next result is outstanding. -/
def pendingChains (s : TabSystem F) : List Chain :=
  (s.inFlight.map (·.1) ++ s.results.map (·.1)).filterMap Ticket.chain?

/-- A navigation waits until the one before has been answered. -/
def WaitsForAnswer (s : TabSystem F) (m : TabMove) : Prop :=
  s.starts m ≠ .stays → s.pendingChains = []

instance (s : TabSystem F) (m : TabMove) : Decidable (s.WaitsForAnswer m) :=
  inferInstanceAs (Decidable (s.starts m ≠ .stays → s.pendingChains = []))

/-- At most one chain is outstanding, the latest one, and the document that it started from is still
in the tab. -/
structure OneChain (s : TabSystem F) : Prop where
  one : s.pendingChains.length ≤ 1
  latest : ∀ c ∈ s.pendingChains, c.number = s.chains
  origin : ∀ c ∈ s.pendingChains, ∀ u, c.startedByLogic = some u → s.tab.chromeState.committedUrl = u
  commands : ∀ p ∈ s.inFlight, p.1.isNavigation = false → ∀ id url i, p.2 ≠ .navigate id url i
  results : ∀ p ∈ s.results, p.1.isNavigation = false → p.2.navigates = false
  answered : ∀ a ∈ s.answered, a.chain.number ≤ s.chains
  wins : LastNavigationWins s.answered

/-! ## Commands and results -/

theorem pendingChains_absorb_data (chain : Chain)
    (h : ∀ id url i, .navigate id url i ∉ out.2.networkTx) :
    (s.absorb chain out).pendingChains = s.pendingChains := by
  have hnone : (out.2.networkTx.map fun cmd => s.ticketFor chain cmd).filterMap Ticket.chain? = [] := by
    rw [filterMap_eq_nil_iff]
    intro ticket hticket
    obtain ⟨cmd, hcmd, rfl⟩ := mem_map.mp hticket
    cases cmd with
    | navigate id url i => exact absurd hcmd (h id url i)
    | _ => rfl
  simp only [pendingChains, absorb, map_append, map_map, filterMap_append]
  show List.filterMap _ _ ++ List.filterMap _ (out.2.networkTx.map fun cmd => s.ticketFor chain cmd) ++ _ = _
  rw [hnone, append_nil]

theorem pendingChains_absorb_navigate (chain : Chain) {id : TabId} {url : String} {i : NavigationInitiator}
    (hpending : s.pendingChains = []) (h : out.2.networkTx = [.navigate id url i]) :
    (s.absorb chain out).pendingChains = [chain] := by
  simp only [pendingChains, filterMap_append, append_eq_nil_iff] at hpending
  simp only [pendingChains, absorb, h, map_append, map_cons, map_nil,
    filterMap_append, hpending.1, hpending.2]
  rfl

/-- Only a navigation's ticket is on a command to navigate. -/
theorem absorb_commands (h : ∀ p ∈ s.inFlight, p.1.isNavigation = false →
      ∀ id url i, p.2 ≠ .navigate id url i) :
    ∀ p ∈ (s.absorb chain out).inFlight, p.1.isNavigation = false →
      ∀ id url i, p.2 ≠ .navigate id url i := by
  intro p hp hdata id url i hcmd
  rcases mem_append.mp hp with hold | hnew
  · exact h p hold hdata id url i hcmd
  · obtain ⟨cmd, -, rfl⟩ := mem_map.mp hnew
    cases hcmd
    cases hdata

theorem absorb_oneChain (chain : Chain) (h : OneChain s) (hview : out.1.view = s.tab.view)
    (hdata : ∀ id url i, .navigate id url i ∉ out.2.networkTx) : OneChain (s.absorb chain out) := by
  have hpending := pendingChains_absorb_data (s := s) chain hdata
  have hurl : out.1.chromeState.committedUrl = s.tab.chromeState.committedUrl :=
    congrArg TabState.View.committedUrl hview
  refine ⟨?_, ?_, ?_, absorb_commands h.commands, h.results, h.answered, h.wins⟩
  · rw [hpending]
    exact h.one
  · rw [hpending]
    exact h.latest
  · rw [hpending]
    intro c hc u hu
    exact hurl.trans (h.origin c hc u hu)

/-! ## Steps -/

/-- A navigation with nothing outstanding, or the result of the one chain that was. -/
theorem settle_oneChain {tab : TabState F} {ctx : WindowCtx} {answers : Bool} (h : OneChain s)
    (hout : Does host tab ctx out outcome) (htab : tab.view = s.tab.view)
    (hpending : outcome ≠ .stays → s.pendingChains = [])
    (hnumber : outcome ≠ .stays → s.chains ≤ chain.number)
    (hanswers : answers = true → chain.number = s.chains)
    (horigin : ∀ u, chain.startedByLogic = some u → s.tab.chromeState.committedUrl = u) :
    OneChain (s.settle chain answers out outcome) := by
  have hlog : LastNavigationWins (if answers then s.answered ++ [⟨chain, none⟩] else s.answered) := by
    split
    · rename_i hans
      refine h.wins.append (fun b hb => ?_) fun _ _ _ => nofun
      rw [hanswers hans]
      exact h.answered b hb
    · exact h.wins
  have hlogged : ∀ a ∈ (if answers then s.answered ++ [⟨chain, none⟩] else s.answered),
      a.chain.number ≤ s.chains := by
    intro a ha
    split at ha
    · rename_i hans
      rcases mem_append.mp ha with hold | hnew
      · exact h.answered a hold
      · obtain rfl := mem_singleton.mp hnew
        exact (hanswers hans).le
    · exact h.answered a ha
  cases outcome with
  | stays =>
    have hdata := absorb_oneChain chain h (hout.1.trans htab) (by simp [hout.2.2])
    exact ⟨hdata.1, hdata.2, hdata.3, hdata.4, hdata.5, hlogged, hlog⟩
  | dispatches target =>
    obtain ⟨hview, -, initiator, hsent⟩ := hout
    have hurl : out.1.chromeState.committedUrl = s.tab.chromeState.committedUrl :=
      congrArg TabState.View.committedUrl (hview.trans htab)
    have hone := pendingChains_absorb_navigate chain (hpending nofun) hsent
    have hmax : max s.chains chain.number = chain.number := by grind
    have hchains : (s.settle chain answers out (.dispatches target)).pendingChains = [chain] := hone
    refine ⟨by simp [hchains], ?_, ?_, absorb_commands h.commands, h.results, ?_, hlog⟩
    · rw [hchains]
      intro c hc
      obtain rfl := mem_singleton.mp hc
      exact hmax.symm
    · rw [hchains]
      intro c hc u hu
      obtain rfl := mem_singleton.mp hc
      exact hurl.trans (horigin u hu)
    · intro a ha
      have hle := hlogged a ha
      show a.chain.number ≤ max s.chains chain.number
      omega
  | commits url source =>
    obtain ⟨tab', -, rfl⟩ := hout
    have hsent := (handleNavigateSuccess_cases host tab' ctx url source).1
    have hnone : (s.settle chain answers (tab'.handleNavigateSuccess host ctx.cleared url source)
        (.commits url source)).pendingChains = [] := by
      refine (pendingChains_absorb_data chain ?_).trans (hpending nofun)
      simp [hsent]
    refine ⟨by simp [hnone], by simp [hnone], by simp [hnone], absorb_commands h.commands, h.results,
      ?_, ?_⟩
    · intro a ha
      show a.chain.number ≤ max s.chains chain.number
      rcases mem_append.mp ha with hold | hnew
      · have hle := h.answered a hold
        omega
      · obtain rfl := mem_singleton.mp hnew
        exact Nat.le_max_right _ _
    · refine h.wins.append (fun b hb => ?_) fun u r hu hr => ?_
      · exact (h.answered b hb).trans (hnumber nofun)
      · exact (Option.some.inj hr).symm.trans (horigin u hu)

variable {r : NetworkResult}

/-- A result that is no navigation's leaves the document alone. -/
theorem resultOutcome_stays (h : r.navigates = false) : s.resultOutcome host r = .stays := by
  cases r with
  | navigateSuccess | navigationRedirect => cases h
  | _ => rfl

/-- A result navigates only if its command did. -/
theorem answer_navigates {cmd : NetworkCmd} {c : Completion}
    (h : cmd.answer c = some r) (hcmd : ∀ id url i, cmd ≠ .navigate id url i) : r.navigates = false := by
  cases cmd with
  | navigate id url i => exact absurd rfl (hcmd id url i)
  | fetch =>
    cases c <;> simp only [NetworkCmd.answer, Option.some.injEq, reduceCtorEq] at h <;> subst h <;> rfl
  | _ => simp [NetworkCmd.answer] at h

/-- A command that completes leaves its chain outstanding. -/
theorem pendingChains_complete {i : Nat} {ticket : Ticket} {cmd : NetworkCmd}
    (h : s.inFlight[i]? = some (ticket, cmd)) : (pendingChains
      { s with inFlight := s.inFlight.eraseIdx i, results := s.results ++ [(ticket, r)] }).Perm
        s.pendingChains := by
  obtain ⟨hi, hget⟩ := List.getElem?_eq_some_iff.mp h
  have herase : (ticket :: (s.inFlight.eraseIdx i).map (·.1)).Perm (s.inFlight.map (·.1)) := by
    grind [getElem_cons_eraseIdx_perm]
  refine List.Perm.filterMap _ ?_
  simp only [map_append, map_cons, map_nil]
  have hlast : ((s.inFlight.eraseIdx i).map (·.1) ++ (s.results.map (·.1) ++ [ticket])).Perm
      (ticket :: ((s.inFlight.eraseIdx i).map (·.1) ++ s.results.map (·.1))) := by
    rw [← append_assoc]
    exact perm_append_singleton ticket _
  exact hlast.trans (herase.append_right _)

theorem newChain_origin (initiator : NavigationInitiator) (u : String)
    (h : (s.newChain initiator).startedByLogic = some u) : s.tab.chromeState.committedUrl = u := by
  grind [newChain]

theorem step_oneChain (h : OneChain s) (hgood : s.WaitsForAnswer m) (hstep : s.step m = some t) :
    OneChain t := by
  cases moves_of_step hstep with
  | nothing => exact h
  | event hview he =>
    refine absorb_oneChain _ h hview fun id url i hmem => ?_
    simp only [WindowCtx.sendLogic] at hmem
    split at hmem <;> cases hmem
  | navigation hhost hacting hdoes hout =>
    exact settle_oneChain h hout rfl hgood (fun _ => Nat.le_succ _) (by simp) (newChain_origin _)
  | drainError | answer => exact ⟨h.1, h.2, h.3, h.4, h.5, h.6, h.7⟩
  | drainOk =>
    rename_i view response logicOut hlogicOut
    have hview := TabState.applyMutations_view s.tab.releaseTimerTick
      response.stateUpdate.mutatedVariables
    have hurl := congrArg TabState.View.committedUrl hview
    exact ⟨h.1, h.2, fun c hc u hu => hurl.trans (h.3 c hc u hu), h.4, h.5, h.6, h.7⟩
  | actNavigate hacting hout =>
    rename_i host view gesture url acting out
    have htook : OneChain (s.took view acting) := ⟨h.1, h.2, h.3, h.4, h.5, h.6, h.7⟩
    exact settle_oneChain htook hout rfl hgood (fun _ => Nat.le_succ _) (by simp) (newChain_origin _)
  | act hacting haction =>
    rename_i host view gesture action acting
    have htook : OneChain (s.took view acting) := ⟨h.1, h.2, h.3, h.4, h.5, h.6, h.7⟩
    obtain ⟨hview, -, hsends⟩ := executeAction_sends host s.tab s.ctx gesture action haction
    exact absorb_oneChain _ htook hview fun id url i hmem => hsends _ hmem
  | result hresults hacting =>
    rename_i host ticket r results
    have hout : Does host s.tab s.ctx _ _ := processNetworkResult_does s r
    have hperm : s.pendingChains = (s.inFlight.map (·.1)).filterMap Ticket.chain? ++
        (ticket.chain?.toList ++ (results.map (·.1)).filterMap Ticket.chain?) := by
      simp only [pendingChains, hresults, filterMap_append, map_cons, filterMap_cons]
      cases ticket <;> rfl
    have hreceived : (s.received results).pendingChains =
        (s.inFlight.map (·.1)).filterMap Ticket.chain? ++
          (results.map (·.1)).filterMap Ticket.chain? := by
      simp only [pendingChains, received, filterMap_append]
    have hsub : ∀ c ∈ (s.received results).pendingChains, c ∈ s.pendingChains := by grind
    have hlen := h.one
    rw [hperm] at hlen
    simp only [length_append] at hlen
    have hrec : OneChain (s.received results) := by
      refine ⟨?_, fun c hc => h.latest c (hsub c hc), fun c hc => h.origin c (hsub c hc), h.commands,
        fun p hp => h.results p (by rw [hresults]; exact mem_cons_of_mem _ hp), h.answered, h.wins⟩
      rw [hreceived, length_append]
      omega
    have hsettle : OneChain ((s.received results).settle ticket.chain ticket.isNavigation
        (s.tab.processNetworkResult host s.ctx.cleared r) (s.resultOutcome host r)) := by
      cases ticket with
      | data n =>
        have hstays : s.resultOutcome host r = .stays :=
          resultOutcome_stays (h.results (.data n, r) (by simp [hresults]) rfl)
        exact settle_oneChain hrec hout rfl (absurd hstays ·) (absurd hstays ·) (by intro h; cases h) (by intro _ h; cases h)
      | navigation c =>
        have hc : c ∈ s.pendingChains := by grind [Ticket.chain?]
        have hnone : (s.received results).pendingChains = [] := by
          grind [length_eq_zero_iff, Ticket.chain?]
        exact settle_oneChain hrec hout rfl (fun _ => hnone) (fun _ => (h.latest c hc).ge)
          (fun _ => h.latest c hc) (h.origin c hc)
    exact ⟨hsettle.1, hsettle.2, hsettle.3, hsettle.4, hsettle.5, hsettle.6, hsettle.7⟩
  | complete hcmd hr =>
    rename_i i c ticket cmd r
    have hperm := pendingChains_complete (r := r) hcmd
    have hmem := mem_of_getElem? hcmd
    refine ⟨hperm.length_eq.trans_le h.one, fun c hc => h.latest c (hperm.mem_iff.mp hc),
      fun c hc => h.origin c (hperm.mem_iff.mp hc),
      fun p hp => h.commands p (mem_of_mem_eraseIdx hp), ?_, h.answered, h.wins⟩
    intro p hp hdata
    rcases mem_append.mp hp with hold | hnew
    · exact h.results p hold hdata
    · obtain rfl := mem_singleton.mp hnew
      exact answer_navigates hr (h.commands (ticket, cmd) hmem hdata)

theorem start_oneChain (host : Host) (tab : TabState F) (ctx : WindowCtx) :
    OneChain (start host tab ctx) where
  one := Nat.zero_le _
  latest _ hc := nomatch hc
  origin _ hc := nomatch hc
  commands _ hp := nomatch hp
  results _ hp := nomatch hp
  answered _ ha := nomatch ha
  wins := ⟨List.Pairwise.nil, fun _ ha => nomatch ha⟩

end TabSystem

/-- Results are processed in the order of their navigations, and document logic replaces only a
document of its own origin, if navigations wait for each other. -/
theorem last_navigation_wins {F : Frontend} (host : Host) (tab : TabState F) (ctx : WindowCtx)
    {s : TabSystem F}
    (h : Transition.Reaches TabSystem.step TabSystem.WaitsForAnswer (.start host tab ctx) s) :
    LastNavigationWins s.answered :=
  (h.invariant (I := TabSystem.OneChain) (TabSystem.start_oneChain host tab ctx)
    fun _ _ _ hs hgood hstep => TabSystem.step_oneChain hs hgood hstep).wins

theorem last_navigation_wins_commit :
    ∃ s : TabSystem plainFrontend, (s.answered.map (·.chain.number)) = [1] ∧
      LastNavigationWins s.answered := by
  obtain ⟨s, hreaches, hanswered⟩ := Transition.exists_reaches_of_run TabSystem.step
    TabSystem.WaitsForAnswer plainStart
    [.openUrl plainHost "mizu://b.mizu/", .complete 0 (.source blankSource), .result plainHost]
    (p := fun s => s.answered.map (·.chain.number) == [1]) (by decide +kernel)
  exact ⟨s, by simpa using hanswered, last_navigation_wins plainHost
    (plainTab plainFrontend () "mizu://a.mizu/") plainCtx hreaches⟩

/-! ## A result that comes late -/

def navigatingResponse : WorkerResponse := ⟨⟨[]⟩, [.navigate "mizu://a.mizu/next"], false⟩

/-- A timer of `a.mizu` navigates within `a.mizu`, the user opens `b.mizu`, and the timer's
navigation is answered last: it replaces the document of `b.mizu`. -/
theorem older_navigation_wins :
    ¬∀ (F : Frontend) (host : Host) (tab : TabState F) (ctx : WindowCtx) (s : TabSystem F),
      Transition.Reaches TabSystem.step (fun _ _ => True) (.start host tab ctx) s →
        LastNavigationWins s.answered := by
  intro h
  obtain ⟨s, hreaches, hanswered⟩ := Transition.exists_reaches_of_run TabSystem.step
    (fun _ _ => True) plainStart
    [.answer 0 (some (.ok emptyResponse)), .drain, .tick 0,
      .answer 0 (some (.ok navigatingResponse)), .drain, .act plainHost,
      .openUrl plainHost "mizu://b.mizu/", .complete 1 (.source blankSource), .result plainHost,
      .complete 0 (.source blankSource), .result plainHost]
    (p := fun s => s.answered ==
      [⟨⟨2, none⟩, some "mizu://a.mizu/"⟩,
        ⟨⟨1, some "mizu://a.mizu/"⟩, some "mizu://b.mizu/"⟩]) (by decide +kernel)
  obtain ⟨hordered, -⟩ := h plainFrontend plainHost (plainTab plainFrontend () "mizu://a.mizu/")
    plainCtx s hreaches
  rw [eq_of_beq hanswered] at hordered
  exact absurd hordered (by decide)

end Mizu
