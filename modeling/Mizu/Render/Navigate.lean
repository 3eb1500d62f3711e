import Mizu.Render.Commit
import Mizu.Security.Sandbox

/-!
# Navigations and network results

`navigateToUrl` is the one way in which a navigation starts, `processNetworkResult` what becomes of
a result. `navigationOutcome` says which of the three things a navigation does: nothing to the
document, a command to the network worker, or a commit at once. `resolveMediaUrl` is the URL that a path in a document
stands for while the document is painted; `paintImage` is the fetch that painting it issues.
-/

namespace Mizu

/-- `resolve_navigate_url`. -/
def resolveNavigateUrl (host : Host) (currentUrl target : String) : Option String :=
  if startsWith "mizu://" currentUrl && startsWith "file://" target then none
  else if !containsScheme target && startsWith "file://" currentUrl then
    (host.relativePath currentUrl target).map ("file:///" ++ ·)
  else if startsWith "file://" currentUrl && startsWith "file://" target then
    if host.inSandbox currentUrl target then some target else none
  else if !containsScheme target then some ("mizu://" ++ target)
  else some target

/-- The target that the policy judges. -/
def navigationTarget (host : Host) (currentUrl url : String) : Option String :=
  if !containsScheme url && startsWith "file://" currentUrl then
    resolveNavigateUrl host currentUrl url
  else if startsWith "file://" url && startsWith "file://" currentUrl then
    resolveNavigateUrl host currentUrl url
  else some url

def NavigationInitiator.isRedirect : NavigationInitiator → Bool
  | .redirectOf _ => true
  | _ => false

/-- The text of `about:blank`. -/
def blankSource : String := "layout\n  doc\n"

namespace TabState

variable {F : Frontend} (host : Host)

/-- A history step or the continuation of a chain leaves no entry of its own. -/
def recordLeaving (tab : TabState F) (initiator : NavigationInitiator) : TabState F :=
  if initiator = .historyStep ∨ initiator.isRedirect then tab
  else
    { tab with history :=
        tab.history.recordNavigation ⟨tab.chromeState.committedUrl, tab.rootScrollOffsetY⟩ }

/-- `navigate_to_url`. -/
def navigateToUrl (tab : TabState F) (ctx : WindowCtx) (url : String)
    (initiator : NavigationInitiator) : TabState F × WindowCtx :=
  let tab := if initiator = .historyStep then tab else { tab with pendingScrollRestore := none }
  if url = "about:blank" then tab.handleNavigateSuccess host ctx url blankSource
  else
    let currentUrl := tab.chromeState.committedUrl
    match navigationTarget host currentUrl url with
    | none => (tab.setLoading false, ctx)
    | some resolvedUrl =>
      match checkNavigation currentUrl resolvedUrl initiator with
      | .block _ => ({ tab.setLoading false with pendingScrollRestore := none }, ctx)
      | .allow target =>
        let tab := if initiator.isRedirect then tab else tab.resetRedirectCount
        let tab := tab.recordLeaving initiator
        if startsWith "file://" target then
          match (stripPrefix "file:///" target).bind host.readToString with
          | some content => tab.handleNavigateSuccess host ctx target content
          | none => (tab, ctx)
        else if startsWith "mizu://" target then
          (tab.setLoading true, ctx.sendNetwork (.navigate tab.id target initiator))
        else (tab, ctx)

/-- `navigate_back`. -/
def navigateBack (tab : TabState F) (ctx : WindowCtx) : TabState F × WindowCtx :=
  match tab.history.goBack ⟨tab.chromeState.committedUrl, tab.rootScrollOffsetY⟩ with
  | none => (tab, ctx)
  | some (target, history) =>
    { tab with history, pendingScrollRestore := some target.scrollY }.navigateToUrl host ctx
      target.url .historyStep

/-- `navigate_forward`. -/
def navigateForward (tab : TabState F) (ctx : WindowCtx) : TabState F × WindowCtx :=
  match tab.history.goForward ⟨tab.chromeState.committedUrl, tab.rootScrollOffsetY⟩ with
  | none => (tab, ctx)
  | some (target, history) =>
    { tab with history, pendingScrollRestore := some target.scrollY }.navigateToUrl host ctx
      target.url .historyStep

/-- The variable that shows how the last operation went. -/
def statusVariable : String := "stato_navigazione"

def sendStatus (tab : TabState F) (ctx : WindowCtx) (message : String) : WindowCtx :=
  ctx.sendLogic tab.id (.updateVariable statusVariable (.string message))

/-- `process_network_result`. -/
def processNetworkResult (tab : TabState F) (ctx : WindowCtx) :
    NetworkResult → TabState F × WindowCtx
  | .success _ targetVar data =>
    (tab, tab.sendStatus (ctx.sendLogic tab.id (.updateVariable targetVar data)) "Completato.")
  | .fetchFailed _ targetVar e =>
    (tab, ctx.sendLogic tab.id (.updateVariable targetVar (.string ("error: " ++ e.display))))
  | .error _ e => (tab.setLoading false, tab.sendStatus ctx ("Errore: " ++ e.display))
  | .navigateSuccess _ url source => tab.handleNavigateSuccess host ctx url source
  | .navigationRedirect _ newUrl initiator =>
    match tab.registerRedirect host with
    | (true, tab) => tab.navigateToUrl host ctx newUrl initiator.intoRedirectOf
    | (false, tab) => (tab.setLoading false, tab.sendStatus ctx "Errore: troppi redirect")

end TabState

/-! ## What a navigation does -/

/-- What a navigation does to the tab's document. -/
inductive NavigationOutcome where
  | stays
  | dispatches (target : String)
  | commits (url source : String)
  deriving DecidableEq, Repr

/-- Decided by the committed URL, the target and the initiator. -/
def navigationOutcome (host : Host) (currentUrl url : String) (initiator : NavigationInitiator) :
    NavigationOutcome :=
  if url = "about:blank" then .commits url blankSource
  else
    match navigationTarget host currentUrl url with
    | none => .stays
    | some resolvedUrl =>
      match checkNavigation currentUrl resolvedUrl initiator with
      | .block _ => .stays
      | .allow target =>
        if startsWith "file://" target then
          match (stripPrefix "file:///" target).bind host.readToString with
          | some content => .commits target content
          | none => .stays
        else if startsWith "mizu://" target then .dispatches target
        else .stays

/-- The policy lets a navigation through, whatever becomes of it then. -/
def navigationAdmitted (host : Host) (currentUrl url : String) (initiator : NavigationInitiator) : Bool :=
  url = "about:blank" ||
    match navigationTarget host currentUrl url with
    | none => false
    | some resolvedUrl =>
      match checkNavigation currentUrl resolvedUrl initiator with
      | .block _ => false
      | .allow _ => true

theorem isRedirect_intoRedirectOf (initiator : NavigationInitiator) :
    initiator.intoRedirectOf.isRedirect = true := by
  cases initiator <;> rfl

variable {initiator : NavigationInitiator}

theorem navigationOutcome_stays {host : Host} {currentUrl url : String}
    (h : navigationAdmitted host currentUrl url initiator = false) :
    navigationOutcome host currentUrl url initiator = .stays := by
  simp only [navigationAdmitted, Bool.or_eq_false_iff, decide_eq_false_iff_not] at h
  obtain ⟨hblank, hpolicy⟩ := h
  rw [navigationOutcome, if_neg hblank]
  grind

namespace TabState

variable {F : Frontend} (host : Host)

/-! ## The ways of a navigation -/

/-- A scroll offset to restore belongs to a history step. -/
def clearScroll (tab : TabState F) (initiator : NavigationInitiator) : TabState F :=
  if initiator = .historyStep then tab else { tab with pendingScrollRestore := none }

/-- What an admitted navigation does at once: to the counter of redirects and to the history. -/
def depart (tab : TabState F) (initiator : NavigationInitiator) : TabState F :=
  (if initiator.isRedirect then tab else tab.resetRedirectCount).recordLeaving initiator

/-- The ways in which `navigate_to_url` ends, with the tab and the context it leaves. -/
inductive Departs (tab : TabState F) (ctx : WindowCtx) (url : String) (initiator : NavigationInitiator) :
    TabState F × WindowCtx → NavigationOutcome → Prop
  | blank (hblank : url = "about:blank") :
    Departs tab ctx url initiator ((tab.clearScroll initiator).handleNavigateSuccess host ctx url blankSource)
      (.commits url blankSource)
  | refused {scroll : Option Int}
    (hadmitted : navigationAdmitted host tab.chromeState.committedUrl url initiator = false) :
    Departs tab ctx url initiator ({ tab.setLoading false with pendingScrollRestore := scroll }, ctx) .stays
  | unread (hblank : url ≠ "about:blank")
    (hadmitted : navigationAdmitted host tab.chromeState.committedUrl url initiator = true) :
    Departs tab ctx url initiator ((tab.clearScroll initiator).depart initiator, ctx) .stays
  | opened {target content : String} (hblank : url ≠ "about:blank") (hfile : startsWith "file://" target)
    (hadmitted : navigationAdmitted host tab.chromeState.committedUrl url initiator = true) :
    Departs tab ctx url initiator
      (((tab.clearScroll initiator).depart initiator).handleNavigateSuccess host ctx target content)
      (.commits target content)
  | dispatched {target : String} (hblank : url ≠ "about:blank") (hmizu : startsWith "mizu://" target)
    (hadmitted : navigationAdmitted host tab.chromeState.committedUrl url initiator = true) :
    Departs tab ctx url initiator
      (((tab.clearScroll initiator).depart initiator).setLoading true,
        ctx.sendNetwork (.navigate tab.id target initiator))
      (.dispatches target)

variable (tab : TabState F)

theorem clearScroll_eq (initiator : NavigationInitiator) :
    ∃ scroll, tab.clearScroll initiator = { tab with pendingScrollRestore := scroll } := by
  unfold clearScroll
  split
  · exact ⟨tab.pendingScrollRestore, rfl⟩
  · exact ⟨none, rfl⟩

theorem depart_eq (initiator : NavigationInitiator) : tab.depart initiator =
      { tab with
        redirectCount := bif initiator.isRedirect then tab.redirectCount else 0
        history := bif initiator = .historyStep || initiator.isRedirect then tab.history
          else tab.history.recordNavigation ⟨tab.chromeState.committedUrl, tab.rootScrollOffsetY⟩ } := by
  cases initiator <;> rfl

/-- A navigation takes one of the ways, as its outcome says. -/
theorem navigateToUrl_departs (ctx : WindowCtx) (url : String) (initiator : NavigationInitiator) :
    Departs host tab ctx url initiator (tab.navigateToUrl host ctx url initiator)
      (navigationOutcome host tab.chromeState.committedUrl url initiator) := by
  obtain ⟨scroll, hclear⟩ := tab.clearScroll_eq initiator
  have hstart : (if initiator = .historyStep then tab else { tab with pendingScrollRestore := none }) =
      tab.clearScroll initiator := rfl
  unfold navigateToUrl navigationOutcome
  rw [hstart]
  dsimp only
  by_cases hblank : url = "about:blank"
  · rw [if_pos hblank, if_pos hblank]
    exact .blank hblank
  have hurl : (tab.clearScroll initiator).chromeState = tab.chromeState := by rw [hclear]
  have hid : ((tab.clearScroll initiator).depart initiator).id = tab.id := by rw [depart_eq, hclear]
  rw [if_neg hblank, if_neg hblank, hurl]
  cases htarget : navigationTarget host tab.chromeState.committedUrl url with
  | none =>
    rw [hclear]
    exact .refused (by simp [navigationAdmitted, hblank, htarget])
  | some resolvedUrl =>
    dsimp only
    cases hverdict : checkNavigation tab.chromeState.committedUrl resolvedUrl initiator with
    | block reason =>
      rw [hclear]
      exact .refused (by simp [navigationAdmitted, hblank, htarget, hverdict])
    | allow target =>
      have hadmitted : navigationAdmitted host tab.chromeState.committedUrl url initiator = true := by
        simp [navigationAdmitted, htarget, hverdict]
      dsimp only
      split
      · split
        · exact .opened hblank ‹_› hadmitted
        · exact .unread hblank hadmitted
      split
      · have hsent : Departs host tab ctx url initiator _ _ := .dispatched hblank ‹_› hadmitted
        rw [← hid] at hsent
        exact hsent
      · exact .unread hblank hadmitted

/-- The same for a result and an outcome that can be taken apart. -/
theorem exists_departs (ctx : WindowCtx) (url : String) (initiator : NavigationInitiator) :
    ∃ out outcome, tab.navigateToUrl host ctx url initiator = out ∧
      navigationOutcome host tab.chromeState.committedUrl url initiator = outcome ∧
      Departs host tab ctx url initiator out outcome :=
  ⟨_, _, rfl, rfl, tab.navigateToUrl_departs host ctx url initiator⟩

/-! ## What a navigation leaves alone -/

/-- Nothing that belongs to the document differs, nor the tab's identity. -/
structure Same (tab tab' : TabState F) : Prop extends SameDocument tab tab' where
  id : tab'.id = tab.id
  a11yEpoch : tab'.a11yEpoch = tab.a11yEpoch

theorem Same.trans {a b c : TabState F} (h : Same a b) (h' : Same b c) : Same a c :=
  ⟨⟨h'.committedUrl.trans h.committedUrl, h'.capabilityPolicy.trans h.capabilityPolicy,
    h'.urlRegistry.trans h.urlRegistry, h'.store.trans h.store, h'.document.trans h.document⟩,
    h'.id.trans h.id, h'.a11yEpoch.trans h.a11yEpoch⟩

theorem setLoading_same (loading : Bool) : Same tab (tab.setLoading loading) :=
  ⟨⟨rfl, rfl, rfl, rfl, rfl⟩, rfl, rfl⟩

theorem registerRedirect_same : Same tab (tab.registerRedirect host).2 :=
  ⟨⟨rfl, rfl, rfl, rfl, rfl⟩, rfl, rfl⟩

theorem clearScroll_same (initiator : NavigationInitiator) : Same tab (tab.clearScroll initiator) := by
  obtain ⟨scroll, h⟩ := tab.clearScroll_eq initiator
  rw [h]
  exact ⟨⟨rfl, rfl, rfl, rfl, rfl⟩, rfl, rfl⟩

theorem depart_same (initiator : NavigationInitiator) : Same tab (tab.depart initiator) := by
  rw [depart_eq]
  exact ⟨⟨rfl, rfl, rfl, rfl, rfl⟩, rfl, rfl⟩

/-- What a navigation leaves in the tab and sends, by its outcome. -/
def Navigates (tab : TabState F) (ctx : WindowCtx) (initiator : NavigationInitiator)
    (out : TabState F × WindowCtx) : NavigationOutcome → Prop
  | .stays => Same tab out.1 ∧ out.2 = ctx
  | .dispatches target =>
    Same tab out.1 ∧ out.2 = ctx.sendNetwork (.navigate tab.id target initiator)
  | .commits url source =>
    ∃ tab', Same tab tab' ∧ out = tab'.handleNavigateSuccess host ctx url source

theorem Navigates.of_same {tab tab' : TabState F} {ctx : WindowCtx}
    {out : TabState F × WindowCtx} {outcome : NavigationOutcome}
    (hsame : Same tab tab') (h : Navigates host tab' ctx initiator out outcome) :
    Navigates host tab ctx initiator out outcome := by
  cases outcome with
  | stays => exact ⟨hsame.trans h.1, h.2⟩
  | dispatches target => exact ⟨hsame.trans h.1, by rw [h.2, hsame.id]⟩
  | commits url source =>
    obtain ⟨tab'', hs, hout⟩ := h
    exact ⟨tab'', hsame.trans hs, hout⟩

/-- A navigation does what its outcome says. -/
theorem navigateToUrl_navigates (ctx : WindowCtx) (url : String) (initiator : NavigationInitiator) :
    Navigates host tab ctx initiator (tab.navigateToUrl host ctx url initiator)
      (navigationOutcome host tab.chromeState.committedUrl url initiator) := by
  have hclear := tab.clearScroll_same initiator
  have hdepart := hclear.trans (depart_same _ initiator)
  obtain ⟨out, outcome, hout, houtcome, hdeparts⟩ := tab.exists_departs host ctx url initiator
  rw [hout, houtcome]
  cases hdeparts with
  | blank => exact ⟨_, hclear, rfl⟩
  | refused => exact ⟨⟨⟨rfl, rfl, rfl, rfl, rfl⟩, rfl, rfl⟩, rfl⟩
  | unread => exact ⟨hdepart, rfl⟩
  | opened => exact ⟨_, hdepart, rfl⟩
  | dispatched => exact ⟨hdepart.trans (setLoading_same _ true), rfl⟩

end TabState

/-! ## Images of a document -/

/-- `resolve_media_url`. -/
def resolveMediaUrl (host : Host) (path chromeUrl : String) : Option String :=
  let originIsFile := startsWith "file://" chromeUrl
  if startsWith "mizu://" path then
    if originIsFile then
      if ((host.uriDomain path).map host.isLocalHost).getD false then some path else none
    else some path
  else if startsWith "file://" path then if originIsFile then some path else none
  else
    match host.uriDomain chromeUrl with
    | some domain => some ("mizu://" ++ domain ++ if startsWith "/" path then path else "/" ++ path)
    | none =>
      (stripPrefix "file:///" chromeUrl).bind fun filePath =>
        (host.parentDir filePath).map fun parent => "file:///" ++ forwardSlashes (UnixPath.join parent path)

/-- The fetch of an image that `paint_node` does not find in the cache. -/
def TabState.paintImage {F : Frontend} (host : Host) (tab : TabState F) (path : String) : Option NetworkCmd :=
  let chromeUrl := tab.chromeState.committedUrl
  (resolveMediaUrl host path chromeUrl).map fun url =>
    .fetchImage tab.id url (startsWith "mizu://" chromeUrl) (chromeUrlToFileSandboxBase chromeUrl)

end Mizu
