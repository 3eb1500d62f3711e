import Mizu.Network.Response
import Mizu.Render.TabSystem

/-!
# Chains of redirects

A navigation and the results that answer its requests, one after the other. Between two visits of a
chain anything may happen in the window: every visit brings its own host, tab and context.
`redirect_chain_provenance` says where a chain can lead.
-/

namespace Mizu

open Option

/-- How the window comes back to a chain: by the navigation that starts it, or with a result. -/
inductive ChainStep where
  | navigate (url : String) (initiator : NavigationInitiator)
  | result (r : NetworkResult)

/-- One visit of the window to a chain. -/
structure Visit (F : Frontend) where
  host : Host
  tab : TabState F
  ctx : WindowCtx
  step : ChainStep

namespace Visit

variable {F : Frontend} (v : Visit F)

def committed : String := v.tab.chromeState.committedUrl

def out : TabState F × WindowCtx :=
  match v.step with
  | .navigate url initiator => v.tab.navigateToUrl v.host v.ctx.cleared url initiator
  | .result r => v.tab.processNetworkResult v.host v.ctx.cleared r

def isResult : Bool :=
  match v.step with
  | .navigate _ _ => false
  | .result _ => true

/-- The hop that the visit asks `navigate_to_url` for. -/
def hop : Option (String × NavigationInitiator) :=
  match v.step with
  | .navigate url initiator => some (url, initiator)
  | .result (.navigationRedirect _ newUrl initiator) =>
    if (v.tab.registerRedirect v.host).1 then some (newUrl, initiator.intoRedirectOf) else none
  | .result _ => none

/-- The policy allows the hop, as `target`. -/
def Allows (target : String) : Prop :=
  ∃ url initiator resolvedUrl, v.hop = some (url, initiator) ∧
    navigationTarget v.host v.committed url = some resolvedUrl ∧
    checkNavigation v.committed resolvedUrl initiator = .allow target

end Visit

/-- The visits of a chain, the latest first: a navigation by `root`, and then each time the result
that the worker's task for the request just sent ends with. -/
inductive RedirectChain {F : Frontend} (root : NavigationInitiator) : List (Visit F) → Prop
  | start (host : Host) (tab : TabState F) (ctx : WindowCtx) (url : String) :
    RedirectChain root [⟨host, tab, ctx, .navigate url root⟩]
  | answered {v : Visit F} {visits : List (Visit F)} {id : TabId} {url : String}
    {initiator : NavigationInitiator}
    {processMizuAuthSet : String → String → Except MizuError Unit}
    {response : Except MizuError HttpResponse} {r : NetworkResult} (host : Host) (tab : TabState F)
    (ctx : WindowCtx) (chain : RedirectChain root (v :: visits))
    (sent : .navigate id url initiator ∈ v.out.2.networkTx)
    (answer : NetworkCmd.answer (.navigate id url initiator)
      (navigateCompletion host processMizuAuthSet url response) = some r) :
    RedirectChain root (⟨host, tab, ctx, .result r⟩ :: v :: visits)

/-! ## The policy -/

/-- A redirect is judged like the navigation that it answers. -/
theorem checkNavigation_intoRedirectOf (currentUrl target : String) (initiator : NavigationInitiator) :
    checkNavigation currentUrl target initiator.intoRedirectOf =
      checkNavigation currentUrl target initiator := by
  simp only [checkNavigation, checkScheme, hasUserAgency_intoRedirectOf]

/-- `target` is on the host of the committed document; a document without a host is a file, and its
own host are the files. -/
def OnOwnHost (committed target : String) : Prop :=
  match mizuDomain committed with
  | some host => ∃ host', mizuDomain target = some host' ∧ eqIgnoreAsciiCase host host'
  | none => startsWith "file://" committed ∧ startsWith "file://" target

theorem startsWith_ne {p q : String} {s : String} (hp : startsWith p s) (hq : startsWith q s)
    (hhead : p.toList.head? ≠ q.toList.head?) (hpe : p.toList ≠ []) (hqe : q.toList ≠ []) : False := by
  simp only [startsWith, List.isPrefixOf_iff_prefix] at hp hq
  obtain ⟨r, hr⟩ := hp
  obtain ⟨r', hr'⟩ := hq
  refine hhead ?_
  rw [← List.head?_append_of_ne_nil _ hpe, hr, ← hr', List.head?_append_of_ne_nil _ hqe]

theorem mizu_of_mizuDomain {url host : String} (h : mizuDomain url = some host) :
    startsWith "mizu://" url := by
  unfold mizuDomain stripPrefix at h
  split at h
  · cases h
  · rename_i hstrip
    split at hstrip
    · assumption
    · cases hstrip

theorem isSameOrigin_onOwnHost {currentUrl target : String}
    (h : isSameOrigin currentUrl target = true) : OnOwnHost currentUrl target := by
  unfold isSameOrigin at h
  split at h
  · rename_i a b ha hb
    simp only [Bool.and_eq_true] at h
    simp only [OnOwnHost, ha]
    exact ⟨b, hb, h.2⟩
  · cases h

variable {url : String}

theorem mizuDomain_of_file (h : startsWith "file://" url) : mizuDomain url = none := by
  cases hd : mizuDomain url with
  | none => rfl
  | some host =>
    exact (startsWith_ne h (mizu_of_mizuDomain hd) (by decide) (by decide) (by decide)).elim

variable {host : Host}

/-- The window resolves every relative path of a file before it is judged. -/
theorem navigationTarget_scheme {currentUrl url resolvedUrl : String}
    (h : navigationTarget host currentUrl url = some resolvedUrl)
    (hfile : startsWith "file://" currentUrl) : containsScheme resolvedUrl := by
  have hmizu : ¬(startsWith "mizu://" currentUrl && startsWith "file://" url) = true := by
    simp only [Bool.and_eq_true, not_and]
    exact fun hm => (startsWith_ne hfile hm (by decide) (by decide) (by decide)).elim
  unfold navigationTarget at h
  split at h
  · rename_i hrel
    rw [resolveNavigateUrl, if_neg hmizu, if_pos hrel] at h
    obtain ⟨path, -, rfl⟩ := map_eq_some_iff.mp h
    exact containsScheme_of_startsWith (startsWith_self _ _) (by decide)
  rename_i hrel
  have hurl : containsScheme url := by
    simpa [hfile] using hrel
  split at h
  · rename_i hboth
    rw [Bool.and_comm] at hboth
    rw [resolveNavigateUrl, if_neg hmizu, if_neg hrel, if_pos hboth] at h
    split at h
    · obtain rfl := some.inj h
      exact hurl
    · cases h
  · obtain rfl := some.inj h
    exact hurl

variable {initiator : NavigationInitiator}

/-- A hop that the policy allows: a file from a file, or a network URL, on the committed document's own
host unless a user asked for it. -/
theorem hop_allowed {currentUrl url resolvedUrl target : String}
    (hresolve : navigationTarget host currentUrl url = some resolvedUrl)
    (h : checkNavigation currentUrl resolvedUrl initiator = .allow target) :
    (startsWith "file://" target ∧ startsWith "file://" currentUrl ∧
        ¬startsWith "mizu://" currentUrl ∧ (containsScheme url → startsWith "file://" url)) ∨
      (startsWith "mizu://" target ∧
        (isSameOrigin currentUrl target = true ∨ hasUserAgency initiator = true)) := by
  have hcheck : checkScheme currentUrl
      (if containsScheme resolvedUrl then resolvedUrl else "mizu://" ++ resolvedUrl) initiator =
        .allow target := by
    unfold checkNavigation at h
    split at h
    · cases h
    split at h
    · cases h
    split at h
    · rename_i hscheme
      rwa [if_pos hscheme]
    rename_i hscheme
    rw [if_neg hscheme]
    split at h
    · rename_i hfile
      exact (hscheme (navigationTarget_scheme hresolve hfile)).elim
    · exact h
  obtain ⟨-, ⟨hfile, hcurrent, hmizu⟩ | ⟨hmizu, -, horigin⟩⟩ := checkScheme_allow hcheck
  · refine .inl ⟨hfile, hcurrent, hmizu, fun hscheme => ?_⟩
    by_cases hurl : startsWith "file://" url
    · exact hurl
    · -- A URL with another scheme is judged as it is.
      simp only [navigationTarget, hscheme, Bool.not_true, Bool.false_and, Bool.false_eq_true,
        if_false, Bool.eq_false_iff.mpr hurl, some.injEq] at hresolve
      obtain rfl := hresolve
      rw [if_pos hscheme] at hcheck
      obtain ⟨rfl, -⟩ := checkScheme_allow hcheck
      exact hfile
  · exact .inr ⟨hmizu, horigin⟩

/-! ## One visit -/

theorem navigationOutcome_dispatches {currentUrl url target : String}
    (h : navigationOutcome host currentUrl url initiator = .dispatches target) :
    startsWith "mizu://" target ∧ ∃ resolvedUrl,
      navigationTarget host currentUrl url = some resolvedUrl ∧
        checkNavigation currentUrl resolvedUrl initiator = .allow target := by
  grind [navigationOutcome]

/-- What commits at once is the blank page or an allowed file. -/
theorem navigationOutcome_commits {currentUrl url target source : String}
    (h : navigationOutcome host currentUrl url initiator = .commits target source) :
    (url = "about:blank" ∧ target = "about:blank") ∨
      (startsWith "file://" target ∧ ∃ resolvedUrl,
        navigationTarget host currentUrl url = some resolvedUrl ∧
          checkNavigation currentUrl resolvedUrl initiator = .allow target) := by
  grind [navigationOutcome]

namespace Visit

variable {F : Frontend} {v : Visit F}

/-- A visit without a hop sends no request; it commits what was fetched, or nothing. -/
theorem out_of_hop_none (h : v.hop = none) :
    v.out.2.networkTx = [] ∧
      (v.out.1.chromeState.committedUrl = v.committed ∨
        ∃ id url source, v.step = .result (.navigateSuccess id url source) ∧
          v.out.1.chromeState.committedUrl = url) := by
  obtain ⟨host, tab, ctx, step⟩ := v
  cases step with
  | navigate url initiator => cases h
  | result r =>
    cases r with
    | success id targetVar data =>
      exact ⟨(sendStatus_sends _ _ _).2.trans (sendVariable_sends _ _ _ _).2, .inl rfl⟩
    | fetchFailed id targetVar e => exact ⟨(sendVariable_sends _ _ _ _).2, .inl rfl⟩
    | error id e => exact ⟨(sendStatus_sends _ _ _).2, .inl rfl⟩
    | navigateSuccess id url source =>
      exact ⟨(handleNavigateSuccess_cases host tab ctx url source).1, .inr ⟨id, url, source, rfl,
        (tab.handleNavigateSuccess_origin host ctx.cleared url source).1⟩⟩
    | navigationRedirect id newUrl initiator =>
      simp only [hop, ite_eq_right_iff, reduceCtorEq, imp_false, Bool.not_eq_true] at h
      have hout : tab.processNetworkResult host ctx.cleared (.navigationRedirect id newUrl initiator) =
          ((tab.registerRedirect host).2.setLoading false,
            (tab.registerRedirect host).2.sendStatus ctx.cleared "Errore: troppi redirect") := by
        simp only [TabState.processNetworkResult]
        split
        · rename_i htrue
          rw [htrue] at h
          cases h
        · rename_i hfalse
          rw [hfalse]
      simp only [out, hout]
      exact ⟨(sendStatus_sends _ _ _).2, .inl rfl⟩

/-- A visit with a hop does what the hop's outcome says. -/
theorem out_of_hop (h : v.hop = some (url, initiator)) :
    TabState.Navigates v.host v.tab v.ctx.cleared initiator v.out
      (navigationOutcome v.host v.committed url initiator) := by
  obtain ⟨host, tab, ctx, step⟩ := v
  cases step with
  | navigate url' initiator' =>
    cases h
    exact tab.navigateToUrl_navigates host ctx.cleared url initiator
  | result r =>
    cases r with
    | navigationRedirect id newUrl initiator' =>
      simp only [hop, ite_none_right_eq_some, some.injEq, Prod.mk.injEq] at h
      obtain ⟨hbudget, rfl, rfl⟩ := h
      have hout : tab.processNetworkResult host ctx.cleared (.navigationRedirect id newUrl initiator') =
          (tab.registerRedirect host).2.navigateToUrl host ctx.cleared newUrl
            initiator'.intoRedirectOf := by
        simp only [TabState.processNetworkResult]
        split
        · rename_i htrue
          rw [htrue]
        · rename_i hfalse
          rw [hfalse] at hbudget
          cases hbudget
      simp only [out, hout]
      exact (TabState.navigateToUrl_navigates host _ ctx.cleared newUrl _).of_same host
        (TabState.registerRedirect_same host tab)
    | _ => cases h

theorem sends {url target : String} (h : v.hop = some (url, initiator))
    (houtcome : navigationOutcome v.host v.committed url initiator = .dispatches target) :
    .navigate v.tab.id target initiator ∈ v.out.2.networkTx := by
  have hnav := out_of_hop h
  rw [houtcome] at hnav
  rw [hnav.2]
  exact List.mem_singleton.mpr rfl

/-- A request that a visit sends is the target its hop was allowed as. -/
theorem sent {id : TabId} (h : .navigate id url initiator ∈ v.out.2.networkTx) :
    v.Allows url ∧ startsWith "mizu://" url ∧ ∃ url₀, v.hop = some (url₀, initiator) := by
  cases hhop : v.hop with
  | none =>
    rw [(out_of_hop_none hhop).1] at h
    cases h
  | some hop =>
    obtain ⟨url₀, initiator₀⟩ := hop
    have hnav := out_of_hop hhop
    cases houtcome : navigationOutcome v.host v.committed url₀ initiator₀ with
    | stays =>
      rw [houtcome] at hnav
      rw [hnav.2] at h
      cases h
    | dispatches target =>
      rw [houtcome] at hnav
      rw [hnav.2] at h
      obtain ⟨hid, rfl, rfl⟩ : id = v.tab.id ∧ url = target ∧ initiator = initiator₀ := by
        simpa [WindowCtx.sendNetwork, WindowCtx.cleared] using h
      obtain ⟨hmizu, resolvedUrl, hresolve, hallow⟩ := navigationOutcome_dispatches houtcome
      exact ⟨⟨url₀, initiator, resolvedUrl, hhop, hresolve, hallow⟩, hmizu, url₀, rfl⟩
    | commits target source =>
      rw [houtcome] at hnav
      obtain ⟨tab', -, hout⟩ := hnav
      rw [hout, (handleNavigateSuccess_cases v.host tab' v.ctx target source).1] at h
      cases h

/-- What commits at a hop is the blank page or the target that the hop was allowed as. -/
theorem committed_of_hop (h : v.hop = some (url, initiator)) :
    v.out.1.chromeState.committedUrl = v.committed ∨
      (url = "about:blank" ∧ v.out.1.chromeState.committedUrl = "about:blank") ∨
      (v.Allows v.out.1.chromeState.committedUrl ∧
        startsWith "file://" v.out.1.chromeState.committedUrl) := by
  have hnav := out_of_hop h
  cases houtcome : navigationOutcome v.host v.committed url initiator with
  | stays | dispatches =>
    rw [houtcome] at hnav
    exact .inl hnav.1.committedUrl
  | commits target source =>
    rw [houtcome] at hnav
    obtain ⟨tab', -, hout⟩ := hnav
    rw [hout, (tab'.handleNavigateSuccess_origin v.host v.ctx.cleared target source).1]
    obtain ⟨hblank, rfl⟩ | ⟨hfile, resolvedUrl, hresolve, hallow⟩ := navigationOutcome_commits houtcome
    · exact .inr (.inl ⟨hblank, rfl⟩)
    · exact .inr (.inr ⟨⟨url, initiator, resolvedUrl, h, hresolve, hallow⟩, hfile⟩)

end Visit

/-! ## The chain -/

section Chain

variable {F : Frontend} {root : NavigationInitiator} {visits : List (Visit F)} {v : Visit F}

/-- What a chain carries from visit to visit. -/
structure Visit.Continues (root : NavigationInitiator) (v : Visit F) : Prop where
  agency : ∀ url initiator, v.hop = some (url, initiator) →
    hasUserAgency initiator = hasUserAgency root
  /-- A redirect names a URL of the network. -/
  scheme : v.isResult → ∀ url initiator, v.hop = some (url, initiator) →
    startsWith "mizu://" url ∨ startsWith "http://" url ∨ startsWith "https://" url
  fetched : ∀ id url source, v.step = .result (.navigateSuccess id url source) →
    startsWith "mizu://" url

theorem navigateCompletion_redirect
    {processMizuAuthSet : String → String → Except MizuError Unit} {url newUrl : String}
    {response : Except MizuError HttpResponse}
    (h : navigateCompletion host processMizuAuthSet url response = .redirect newUrl) :
    startsWith "mizu://" newUrl ∨ startsWith "http://" newUrl ∨ startsWith "https://" newUrl := by
  unfold navigateCompletion at h
  split at h
  · cases h
  split at h
  · cases h
  · rename_i hparse
    cases h
    rw [parseHttpResponse_redirect hparse]
    exact redirectUrl_scheme _ _
  · cases h

theorem RedirectChain.continues (h : RedirectChain root visits) : ∀ v ∈ visits, v.Continues root := by
  induction h with
  | start host tab ctx url =>
    intro v hv
    obtain rfl := List.mem_singleton.mp hv
    refine ⟨fun url initiator hhop => ?_, nofun, nofun⟩
    obtain ⟨-, rfl⟩ : _ ∧ root = initiator := by simpa [Visit.hop] using hhop
    rfl
  | @answered last visits id url initiator auth response r host tab ctx chain sent answer ih =>
    intro v hv
    rcases List.mem_cons.mp hv with rfl | hv
    · have hlast := ih last (List.mem_cons_self ..)
      obtain ⟨-, hmizu, url₀, hhop₀⟩ := Visit.sent sent
      -- The worker echoes the URL and the initiator of the request.
      cases hc : navigateCompletion host auth url response with
      | source text =>
        rw [hc] at answer
        obtain rfl := some.inj answer
        refine ⟨nofun, fun _ => nofun, fun id' url' source' hstep => ?_⟩
        cases hstep
        exact hmizu
      | redirect newUrl =>
        rw [hc] at answer
        obtain rfl := some.inj answer
        have hscheme := navigateCompletion_redirect hc
        refine ⟨fun url' initiator' hhop => ?_, fun _ url' initiator' hhop => ?_, nofun⟩
        · simp only [Visit.hop, ite_none_right_eq_some, some.injEq,
            Prod.mk.injEq] at hhop
          obtain ⟨-, -, rfl⟩ := hhop
          rw [hasUserAgency_intoRedirectOf]
          exact hlast.agency url₀ initiator hhop₀
        · simp only [Visit.hop, ite_none_right_eq_some, some.injEq,
            Prod.mk.injEq] at hhop
          obtain ⟨-, rfl, -⟩ := hhop
          exact hscheme
      | failed e =>
        rw [hc] at answer
        obtain rfl := some.inj answer
        exact ⟨nofun, fun _ => nofun, nofun⟩
      | received | unsent =>
        rw [hc] at answer
        cases answer
    · exact ih v hv

/-- An allowed hop of a chain without user agency is on the committed document's own host. -/
theorem Visit.Continues.onOwnHost (h : v.Continues root) (hagency : hasUserAgency root = false)
    {target : String} (hallow : v.Allows target) : OnOwnHost v.committed target := by
  obtain ⟨url, initiator, resolvedUrl, hhop, hresolve, hcheck⟩ := hallow
  obtain ⟨hfile, hcurrent, -, -⟩ | ⟨-, hsame | hagent⟩ := hop_allowed hresolve hcheck
  · rw [OnOwnHost, mizuDomain_of_file hcurrent]
    exact ⟨hcurrent, hfile⟩
  · exact isSameOrigin_onOwnHost hsame
  · rw [h.agency url initiator hhop, hagency] at hagent
    cases hagent

/-- An allowed hop from a network document, or after one answered, is a network URL. -/
theorem Visit.Continues.staysOnNetwork (h : v.Continues root)
    (hmizu : startsWith "mizu://" v.committed ∨ v.isResult) {target : String}
    (hallow : v.Allows target) : startsWith "mizu://" target := by
  obtain ⟨url, initiator, resolvedUrl, hhop, hresolve, hcheck⟩ := hallow
  obtain ⟨-, -, hnot, hscheme⟩ | ⟨hnet, -⟩ := hop_allowed hresolve hcheck
  · rcases hmizu with hmizu | hresult
    · exact absurd hmizu hnot
    exfalso
    obtain hurl | hurl | hurl := h.scheme hresult url initiator hhop
    all_goals
      have hfile := hscheme (containsScheme_of_startsWith hurl (by decide))
      exact startsWith_ne hfile hurl (by decide) (by decide) (by decide)
  · exact hnet

/-- Such a visit commits nothing, a network document or, as a navigation to it, the blank page. -/
theorem Visit.Continues.commits (h : v.Continues root)
    (hmizu : startsWith "mizu://" v.committed ∨ v.isResult) :
    v.out.1.chromeState.committedUrl = v.committed ∨
      startsWith "mizu://" v.out.1.chromeState.committedUrl ∨
      (v.isResult = false ∧ v.out.1.chromeState.committedUrl = "about:blank") := by
  cases hhop : v.hop with
  | none =>
    obtain ⟨-, hsame | ⟨id, url, source, hstep, hurl⟩⟩ := Visit.out_of_hop_none hhop
    · exact .inl hsame
    · exact .inr (.inl (by rw [hurl]; exact h.fetched id url source hstep))
  | some hop =>
    obtain ⟨url, initiator⟩ := hop
    obtain hsame | ⟨hblank, hurl⟩ | ⟨hallow, -⟩ := Visit.committed_of_hop hhop
    · exact .inl hsame
    · refine .inr (.inr ⟨?_, hurl⟩)
      by_contra hresult
      rw [Bool.not_eq_false] at hresult
      obtain hs | hs | hs := h.scheme hresult url initiator hhop
      all_goals
        subst hblank
        exact absurd hs (by decide)
    · exact .inr (.inl (h.staysOnNetwork hmizu hallow))

end Chain

/-- A chain keeps its provenance: without user agency every allowed hop is on the committed document's
own host; from a network document, or once one has answered, it reaches no file; and a redirect is
judged like the navigation that it answers. -/
theorem redirect_chain_provenance {F : Frontend} {root : NavigationInitiator}
    {visits : List (Visit F)} (h : RedirectChain root visits) :
    (hasUserAgency root = false →
      ∀ v ∈ visits, ∀ target, v.Allows target → OnOwnHost v.committed target) ∧
    (∀ v ∈ visits, startsWith "mizu://" v.committed ∨ v.isResult →
      (∀ target, v.Allows target → startsWith "mizu://" target) ∧
      (v.out.1.chromeState.committedUrl = v.committed ∨
        startsWith "mizu://" v.out.1.chromeState.committedUrl ∨
        (v.isResult = false ∧ v.out.1.chromeState.committedUrl = "about:blank"))) ∧
    ∀ currentUrl target initiator,
      checkNavigation currentUrl target (NavigationInitiator.intoRedirectOf initiator) =
        checkNavigation currentUrl target initiator :=
  ⟨fun hagency v hv _ hallow => (h.continues v hv).onOwnHost hagency hallow,
    fun v hv hmizu => ⟨fun _ hallow => (h.continues v hv).staysOnNetwork hmizu hallow,
      (h.continues v hv).commits hmizu⟩,
    checkNavigation_intoRedirectOf⟩

/-- The document at `a.mizu` follows a link of its own. -/
def ownLink : Visit plainFrontend :=
  ⟨plainHost, plainTab plainFrontend () "mizu://a.mizu/", plainCtx,
    .navigate "mizu://a.mizu/x" .documentLogic⟩

/-- A server that answers with a relative path. -/
def relativeRedirect : HttpResponse where
  status := 302
  statusText := "302 Found"
  location := some [0x2f, 0x79]
  mizuAuthSet := none
  body := []

theorem redirect_chain_provenance_two_hops :
    RedirectChain .documentLogic
        [⟨plainHost, ownLink.out.1, plainCtx,
          .result (.navigationRedirect ⟨0⟩ "mizu://a.mizu/y" .documentLogic)⟩, ownLink] ∧
      ∀ v ∈ [(⟨plainHost, ownLink.out.1, plainCtx,
          .result (.navigationRedirect ⟨0⟩ "mizu://a.mizu/y" .documentLogic)⟩ : Visit plainFrontend),
          ownLink],
        ∀ target, v.Allows target → OnOwnHost v.committed target := by
  have houtcome : navigationOutcome plainHost ownLink.committed "mizu://a.mizu/x" .documentLogic =
      .dispatches "mizu://a.mizu/x" := by decide +kernel
  have hsent : .navigate ⟨0⟩ "mizu://a.mizu/x" .documentLogic ∈ ownLink.out.2.networkTx :=
    Visit.sends rfl houtcome
  have hparse : parseHttpResponse (fun _ _ => .ok ()) relativeRedirect
      ((plainHost.uriDomain "mizu://a.mizu/x").getD "") = .ok (some "mizu://a.mizu/y") := by
    decide +kernel
  have hcomplete : navigateCompletion plainHost (fun _ _ => .ok ()) "mizu://a.mizu/x"
      (.ok relativeRedirect) = .redirect "mizu://a.mizu/y" := by
    simp only [navigateCompletion, hparse]
  have hchain : RedirectChain .documentLogic
      [⟨plainHost, ownLink.out.1, plainCtx,
        .result (.navigationRedirect ⟨0⟩ "mizu://a.mizu/y" .documentLogic)⟩, ownLink] :=
    .answered plainHost ownLink.out.1 plainCtx
      (.start plainHost (plainTab plainFrontend () "mizu://a.mizu/") plainCtx "mizu://a.mizu/x")
      hsent (by rw [hcomplete]; rfl)
  exact ⟨hchain, (redirect_chain_provenance hchain).1 rfl⟩

end Mizu
