import Mizu.Render.Requests

/-!
# The budget of redirects

A tab has one counter of redirects. A navigation that is admitted and a commit reset it, and every
redirect that comes back spends from it, whatever chain it belongs to.

* `budget_per_chain`: in a run in which no navigation is admitted while the result of another one is
  outstanding, every chain keeps to the budget, and only what has exceeded it is aborted.
* `budget_shared`: it is not so in every run.
-/

namespace Mizu

open List

/-- A navigation that does not commit resets the counter if it is admitted, unless it is a redirect. -/
theorem TabState.navigateToUrl_redirectCount {F : Frontend} (host : Host) (tab : TabState F)
    (ctx : WindowCtx) (url : String) (initiator : NavigationInitiator)
    (hstays : ∀ u source,
      navigationOutcome host tab.chromeState.committedUrl url initiator ≠ .commits u source) :
    (tab.navigateToUrl host ctx url initiator).1.redirectCount =
      bif navigationAdmitted host tab.chromeState.committedUrl url initiator && !initiator.isRedirect then 0
      else tab.redirectCount := by
  obtain ⟨scroll, hclear⟩ := tab.clearScroll_eq initiator
  have hdepart : ((tab.clearScroll initiator).depart initiator).redirectCount =
      bif !initiator.isRedirect then 0 else tab.redirectCount := by
    rw [depart_eq, hclear]
    cases initiator.isRedirect <;> rfl
  obtain ⟨out, outcome, hout, houtcome, hdeparts⟩ := tab.exists_departs host ctx url initiator
  rw [hout]
  rw [houtcome] at hstays
  cases hdeparts with
  | blank | opened => exact absurd rfl (hstays _ _)
  | refused hadmitted =>
    rw [hadmitted]
    rfl
  | unread _ hadmitted =>
    rw [hadmitted, Bool.true_and]
    exact hdepart
  | dispatched _ _ hadmitted =>
    rw [hadmitted, Bool.true_and]
    exact hdepart

namespace TabSystem

variable {F : Frontend} {s t : TabSystem F} {m : TabMove}

/-- The chain whose redirect a move processes. -/
def redirected (s : TabSystem F) : TabMove → List Chain
  | .result _ =>
    match s.results with
    | (.navigation chain, .navigationRedirect _ _ _) :: _ => [chain]
    | _ => []
  | _ => []

/-- The chain that a move stops, since the counter says that it has no redirect left. -/
def stopped (s : TabSystem F) : TabMove → List Chain
  | .result host => if (s.tab.registerRedirect host).1 then [] else s.redirected (.result host)
  | _ => []

/-- Without a commit, an admitted navigation resets the counter and nothing else but a result changes
it. -/
theorem step_redirectCount (hstep : s.step m = some t) (hresult : ∀ host, m ≠ .result host)
    (hcommit : ∀ url source, s.starts m ≠ .commits url source) :
    t.tab.redirectCount = bif s.admits m then 0 else s.tab.redirectCount := by
  cases hasks : s.asks m with
  | none =>
    obtain ⟨ticks, store, policy, htab⟩ := step_asks_none hstep hasks hresult
    rw [htab]
    simp only [admits, hasks, cond_false]
  | some asked =>
    obtain ⟨host, url, initiator⟩ := asked
    obtain ⟨hurl, hcount⟩ := s.prepared_committedUrl m
    rw [starts_eq, hasks] at hcommit
    simp only [outcome, ← hurl] at hcommit
    rw [step_asks hstep hasks, (s.prepared m).navigateToUrl_redirectCount host s.ctx.cleared url initiator hcommit,
      hcount]
    simp only [admits, hasks, hurl, asks_isRedirect hasks, Bool.not_false, Bool.and_true]

end TabSystem

/-! ## Runs -/

/-- The machine, with the chains of all requests, of all redirects and of those that were stopped. -/
structure ChainLog (F : Frontend) where
  sys : TabSystem F
  requests : List Chain
  redirects : List Chain
  stopped : List Chain

namespace ChainLog

variable {F : Frontend} {max : Nat} {l l' : ChainLog F} {m : TabMove}

def start (host : Host) (tab : TabState F) (ctx : WindowCtx) : ChainLog F :=
  ⟨.start host tab ctx, [], [], []⟩

def step (l : ChainLog F) (m : TabMove) : Option (ChainLog F) :=
  (l.sys.step m).map fun t =>
    { sys := t
      requests := l.requests ++ l.sys.requested t
      redirects := l.redirects ++ l.sys.redirected m
      stopped := l.stopped ++ l.sys.stopped m }

/-- No chain makes more requests than the budget allows, and only what has exceeded it is stopped. -/
structure WithinBudget (max : Nat) (l : ChainLog F) : Prop where
  requests : ∀ c, l.requests.count c ≤ max + 1
  stopped : ∀ c ∈ l.stopped, max < l.redirects.count c

/-- `MAX_REDIRECTS` is a constant. -/
def BudgetIs (max : Nat) (m : TabMove) : Prop := ∀ host ∈ m.host?, host.maxRedirects = max

instance (max : Nat) (m : TabMove) : Decidable (BudgetIs max m) :=
  inferInstanceAs (Decidable (∀ host ∈ m.host?, host.maxRedirects = max))

/-- A navigation is admitted only while no result of another one is outstanding. -/
def OneAtATime (max : Nat) (l : ChainLog F) (m : TabMove) : Prop :=
  BudgetIs max m ∧ (l.sys.admits m = true → l.sys.pendingChains = [])

instance (max : Nat) (l : ChainLog F) (m : TabMove) : Decidable (OneAtATime max l m) :=
  inferInstanceAs (Decidable (_ ∧ (_ → _)))

/-- The counter is that of the chain outstanding. -/
structure Counted (max : Nat) (l : ChainLog F) : Prop where
  oneChain : l.sys.OneChain
  within : WithinBudget max l
  pending : ∀ c ∈ l.sys.pendingChains, l.sys.tab.redirectCount ≤ max ∧
    l.redirects.count c = l.sys.tab.redirectCount ∧ l.requests.count c = l.sys.tab.redirectCount + 1
  known : ∀ c ∈ l.requests ++ l.redirects, c.number ≤ l.sys.chains

variable {t : TabSystem F}

/-- The move sends no request and processes no redirect. -/
theorem Counted.quiet (h : Counted max l) (hone : t.OneChain)
    (hpending : ∀ c ∈ t.pendingChains, c ∈ l.sys.pendingChains)
    (hcount : t.pendingChains ≠ [] → t.tab.redirectCount = l.sys.tab.redirectCount)
    (hchains : l.sys.chains ≤ t.chains) : Counted max ⟨t, l.requests, l.redirects, l.stopped⟩ where
  oneChain := hone
  within := ⟨h.within.requests, h.within.stopped⟩
  pending c hc := by
    rw [hcount (ne_nil_of_mem hc)]
    exact h.pending c (hpending c hc)
  known c hc := (h.known c hc).trans hchains

theorem Counted.fresh {chain : Chain} (h : Counted max l) (hone : t.OneChain)
    (hnumber : chain.number = l.sys.chains + 1) (hpending : t.pendingChains = [chain])
    (hcount : t.tab.redirectCount = 0) :
    Counted max ⟨t, l.requests ++ [chain], l.redirects, l.stopped⟩ := by
  have hnew {cs : List Chain} (hcs : ∀ c ∈ cs, c.number ≤ l.sys.chains) : cs.count chain = 0 := by grind
  have hrequests := hnew fun c hc => h.known c (mem_append_left _ hc)
  have hredirects := hnew fun c hc => h.known c (mem_append_right _ hc)
  have hchains : chain.number = t.chains := hone.latest chain (by simp [hpending])
  refine ⟨hone, ⟨fun c => ?_, h.within.stopped⟩, ?_, ?_⟩
  · rw [count_append, count_singleton]
    split
    · rename_i heq
      obtain rfl := eq_of_beq heq
      omega
    · exact h.within.requests c
  · grind
  · intro c hc
    simp only [append_assoc, mem_append, mem_singleton] at hc
    rcases hc with hc | rfl | hc
    · have hle := h.known c (mem_append_left _ hc)
      show c.number ≤ t.chains
      omega
    · exact hchains.le
    · have hle := h.known c (mem_append_right _ hc)
      show c.number ≤ t.chains
      omega

theorem Counted.redirect {chain : Chain} {requested stopped : List Chain}
    (h : Counted max l) (hone : t.OneChain) (hpending : l.sys.pendingChains = [chain])
    (hchains : l.sys.chains ≤ t.chains) (hnext : t.pendingChains = requested)
    (hrequested : requested = [] ∨ requested = [chain] ∧ l.sys.tab.redirectCount + 1 ≤ max ∧
      t.tab.redirectCount = l.sys.tab.redirectCount + 1)
    (hstopped : ∀ c ∈ stopped, c = chain ∧ max < l.sys.tab.redirectCount + 1) :
    Counted max ⟨t, l.requests ++ requested, l.redirects ++ [chain], l.stopped ++ stopped⟩ := by
  obtain ⟨hle, hredirects, hrequests⟩ := h.pending chain (by simp [hpending])
  have hnumber : chain.number ≤ t.chains := by
    have hlatest := h.oneChain.latest chain (by simp [hpending])
    omega
  refine ⟨hone, ⟨fun c => ?_, fun c hc => ?_⟩, ?_, ?_⟩
  · have hold := h.within.requests c
    rcases hrequested with rfl | ⟨rfl, hroom, -⟩
    · simpa using hold
    · grind
  · rw [count_append]
    rcases mem_append.mp hc with hc | hc
    · have hold := h.within.stopped c hc
      omega
    · grind
  · grind
  · intro c hc
    have hold (hc : c ∈ l.requests ++ l.redirects) : c.number ≤ t.chains := (h.known c hc).trans hchains
    simp only [append_assoc, mem_append, mem_singleton] at hc
    rcases hc with hc | hc | hc | rfl
    · exact hold (mem_append_left _ hc)
    · grind
    · exact hold (mem_append_right _ hc)
    · exact hnumber

theorem step_counted_asks (h : Counted max l) (hgood : OneAtATime max l m) (hstep : l.step m = some l')
    (hresult : ∀ host, m ≠ .result host) : Counted max l' := by
  obtain ⟨t, hsys, rfl⟩ := Option.map_eq_some_iff.mp hstep
  have hwaits : l.sys.WaitsForAnswer m := fun hstarts => by
    cases hadmits : l.sys.admits m with
    | false => exact absurd (TabSystem.starts_of_not_admits hadmits) hstarts
    | true => exact hgood.2 hadmits
  have hone := TabSystem.step_oneChain h.oneChain hwaits hsys
  have hredirected : l.sys.redirected m = [] ∧ l.sys.stopped m = [] := by
    cases m with
    | result host => exact absurd rfl (hresult host)
    | _ => exact ⟨rfl, rfl⟩
  rw [hredirected.1, hredirected.2, append_nil, append_nil]
  by_cases hdispatches : ∃ target, l.sys.starts m = .dispatches target
  · obtain ⟨target, hstarts⟩ := hdispatches
    obtain ⟨chain, hnumber, hrequested, hpending⟩ :=
      TabSystem.step_sends hsys hstarts (hwaits (by simp [hstarts]))
    have hadmits : l.sys.admits m = true := by grind [TabSystem.starts_of_not_admits]
    have hcount := TabSystem.step_redirectCount hsys hresult (by simp [hstarts])
    rw [hadmits, cond_true] at hcount
    rw [hrequested]
    exact h.fresh hone hnumber hpending hcount
  · obtain ⟨hrequested, hperm⟩ := TabSystem.step_quiet hsys hresult fun target ht => hdispatches ⟨target, ht⟩
    rw [hrequested, append_nil]
    refine h.quiet hone (fun c hc => hperm.mem_iff.mp hc) (fun hne => ?_) (TabSystem.step_chains hsys)
    have hadmits : l.sys.admits m = false := by
      by_contra hnot
      exact hne (perm_nil.mp (hgood.2 (Bool.not_eq_false _ ▸ hnot) ▸ hperm))
    have hcount := TabSystem.step_redirectCount hsys hresult (by
      simp [TabSystem.starts_of_not_admits hadmits])
    rwa [hadmits, cond_false] at hcount

theorem step_counted_result {host : Host} (h : Counted max l) (hbudget : BudgetIs max (.result host))
    (hstep : l.step (.result host) = some l') : Counted max l' := by
  obtain ⟨t, hsys, rfl⟩ := Option.map_eq_some_iff.mp hstep
  have hone : t.OneChain := TabSystem.step_oneChain h.oneChain (fun hne => absurd rfl hne) hsys
  have hchains := TabSystem.step_chains hsys
  have hmax : host.maxRedirects = max := hbudget host rfl
  obtain ⟨ticket, r, results, hresults, htab, hsent⟩ := TabSystem.step_result hsys
  cases ticket with
  | data n =>
    have hdata := h.oneChain.results (.data n, r) (by simp [hresults]) rfl
    have hstays : l.sys.resultOutcome host r = .stays := TabSystem.resultOutcome_stays hdata
    have hnone : l.sys.redirected (.result host) = [] ∧ l.sys.stopped (.result host) = [] := by
      simp [TabSystem.stopped, TabSystem.redirected, hresults]
    obtain ⟨hrequested, hpending⟩ := hsent.1 (by simp [hstays])
    have hreceived : (l.sys.received results).pendingChains = l.sys.pendingChains := by
      simp only [TabSystem.pendingChains, TabSystem.received, hresults, filterMap_append, map_cons,
        filterMap_cons, Ticket.chain?]
    rw [hnone.1, hnone.2, hrequested, append_nil, append_nil, append_nil]
    refine h.quiet hone (fun c hc => hreceived ▸ hpending ▸ hc) (fun _ => ?_) hchains
    rw [htab]
    cases r with
    | navigateSuccess | navigationRedirect => cases hdata
    | _ => rfl
  | navigation chain =>
    obtain ⟨hreceived, hpending⟩ := TabSystem.received_pending h.oneChain.one hresults
    have hother (hnone : l.sys.redirected (.result host) = [] ∧ l.sys.stopped (.result host) = [])
        (hnot : ∀ target, l.sys.resultOutcome host r ≠ .dispatches target) :
        Counted max ⟨t, l.requests ++ l.sys.requested t, l.redirects ++ l.sys.redirected (.result host),
          l.stopped ++ l.sys.stopped (.result host)⟩ := by
      obtain ⟨hrequested, hnext⟩ := hsent.1 hnot
      rw [hreceived] at hnext
      rw [hnone.1, hnone.2, hrequested, append_nil, append_nil, append_nil]
      exact h.quiet hone (by simp [hnext]) (absurd hnext) hchains
    cases r with
    | navigationRedirect id newUrl initiator =>
      have hredirected : l.sys.redirected (.result host) = [chain] := by
        simp only [TabSystem.redirected, hresults]
      rw [hredirected]
      by_cases hroom : l.sys.tab.redirectCount + 1 ≤ host.maxRedirects
      · have hgo : (l.sys.tab.registerRedirect host).1 = true := decide_eq_true hroom
        have hstopped : l.sys.stopped (.result host) = [] := by simp only [TabSystem.stopped, hgo, if_true]
        rw [hstopped]
        by_cases hdispatches : ∃ target,
            l.sys.resultOutcome host (.navigationRedirect id newUrl initiator) = .dispatches target
        · obtain ⟨target, htarget⟩ := hdispatches
          obtain ⟨hrequested, hnext⟩ := hsent.2 target htarget hreceived
          rw [hrequested]
          refine h.redirect hone hpending hchains hnext (.inr ⟨rfl, by omega, ?_⟩) (by simp)
          simp only [TabSystem.resultOutcome, hroom, if_true, TabSystem.outcome] at htarget
          have hcount := (l.sys.tab.registerRedirect host).2.navigateToUrl_redirectCount host l.sys.ctx.cleared
            newUrl initiator.intoRedirectOf (by
              simp only [TabState.registerRedirect, htarget]
              simp)
          rw [isRedirect_intoRedirectOf, Bool.not_true, Bool.and_false, cond_false] at hcount
          rw [htab]
          simp only [TabState.processNetworkResult, TabState.registerRedirect, hroom, decide_true]
          exact hcount
        · obtain ⟨hrequested, hnext⟩ := hsent.1 fun target ht => hdispatches ⟨target, ht⟩
          rw [hrequested]
          exact h.redirect hone hpending hchains (hnext.trans hreceived) (.inl rfl) (by simp)
      · have hgo : (l.sys.tab.registerRedirect host).1 = false := decide_eq_false hroom
        have hstopped : l.sys.stopped (.result host) = [chain] := by
          simp only [TabSystem.stopped, hgo, Bool.false_eq_true, if_false, hredirected]
        obtain ⟨hrequested, hnext⟩ := hsent.1 (by simp [TabSystem.resultOutcome, hroom])
        rw [hstopped, hrequested]
        refine h.redirect hone hpending hchains (hnext.trans hreceived) (.inl rfl) fun c hc => ?_
        exact ⟨mem_singleton.mp hc, by omega⟩
    | navigateSuccess | success | fetchFailed | error =>
      grind [TabSystem.stopped, TabSystem.redirected, TabSystem.resultOutcome]

theorem step_counted (h : Counted max l) (hgood : OneAtATime max l m) (hstep : l.step m = some l') :
    Counted max l' := by
  by_cases hresult : ∃ host, m = .result host
  · obtain ⟨host, rfl⟩ := hresult
    exact step_counted_result h hgood.1 hstep
  · exact step_counted_asks h hgood hstep fun host hm => hresult ⟨host, hm⟩

theorem start_counted (max : Nat) (host : Host) (tab : TabState F) (ctx : WindowCtx) :
    Counted max (start host tab ctx) where
  oneChain := TabSystem.start_oneChain host tab ctx
  within := ⟨fun _ => Nat.zero_le _, fun _ hc => nomatch hc⟩
  pending _ hc := nomatch hc
  known _ hc := nomatch hc

end ChainLog

/-- Every chain keeps to the budget of redirects, if navigations wait for each other. -/
theorem budget_per_chain {F : Frontend} (max : Nat) (host : Host) (tab : TabState F) (ctx : WindowCtx)
    {l : ChainLog F}
    (h : Transition.Reaches ChainLog.step (ChainLog.OneAtATime max) (.start host tab ctx) l) :
    ChainLog.WithinBudget max l :=
  (h.invariant (I := ChainLog.Counted max) (ChainLog.start_counted max host tab ctx)
    fun _ _ _ hl hgood hstep => ChainLog.step_counted hl hgood hstep).within

/-- The window follows a redirect of the oldest request to the page that was asked for. -/
def redirectOldest : List TabMove :=
  [.complete 0 (.redirect "mizu://b.mizu/"), .result plainHost]

theorem budget_per_chain_redirected :
    ∃ l : ChainLog plainFrontend, l.redirects = [⟨1, none⟩] ∧ ChainLog.WithinBudget 10 l := by
  obtain ⟨l, hreaches, hredirects⟩ := Transition.exists_reaches_of_run ChainLog.step (ChainLog.OneAtATime 10)
    (.start plainHost (plainTab plainFrontend () "mizu://a.mizu/") plainCtx)
    (.openUrl plainHost "mizu://b.mizu/" :: redirectOldest)
    (p := fun l => l.redirects == [⟨1, none⟩]) (by decide)
  exact ⟨l, eq_of_beq hredirects, budget_per_chain 10 plainHost
    (plainTab plainFrontend () "mizu://a.mizu/") plainCtx hreaches⟩

/-- A second page is opened when a chain has spent its budget: the chain goes on. -/
theorem budget_shared :
    ¬∀ (F : Frontend) (max : Nat) (host : Host) (tab : TabState F) (ctx : WindowCtx) (l : ChainLog F),
      Transition.Reaches ChainLog.step (fun _ m => ChainLog.BudgetIs max m) (.start host tab ctx) l →
        ChainLog.WithinBudget max l := by
  intro h
  obtain ⟨l, hreaches, hrequests⟩ := Transition.exists_reaches_of_run ChainLog.step
    (fun _ m => ChainLog.BudgetIs 10 m)
    (.start plainHost (plainTab plainFrontend () "mizu://a.mizu/") plainCtx)
    (.openUrl plainHost "mizu://b.mizu/" :: (List.replicate 10 redirectOldest).flatten ++
      .openUrl plainHost "mizu://c.mizu/" :: redirectOldest)
    (p := fun l => l.requests.count ⟨1, none⟩ == 12) (by decide)
  have hwithin := (h plainFrontend 10 plainHost (plainTab plainFrontend () "mizu://a.mizu/") plainCtx l
    hreaches).requests ⟨1, none⟩
  rw [eq_of_beq hrequests] at hwithin
  exact absurd hwithin (by decide)

end Mizu
