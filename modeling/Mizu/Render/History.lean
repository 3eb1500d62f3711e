import Mizu.Render.Requests

/-!
# The session history

The two stacks move when a navigation is let through, the page when its document commits.

* `step_history`: when the stacks move, and how, in every run.
* `history_matches`: the stacks and the page are the pages committed, in a run in which every navigation
  commits before the next one begins.
* `stacks_move_early`: the stacks do not wait for a commit.
-/

namespace Mizu

open List Option

/-- The page in a tab, with its scroll offset, and the stacks. -/
structure Place where
  entry : HistoryEntry
  history : HistoryStack
  deriving DecidableEq, Repr

def TabState.place {F : Frontend} (tab : TabState F) : Place :=
  ⟨⟨tab.chromeState.committedUrl, tab.rootScrollOffsetY⟩, tab.history⟩

/-- How a navigation moves through the history. -/
inductive StepKind where
  | fresh
  | back
  | forward
  deriving DecidableEq, Repr

/-- The stacks after a navigation has begun. -/
def StepKind.apply (p : Place) : StepKind → HistoryStack
  | .fresh => p.history.recordNavigation p.entry
  | .back => ((p.history.goBack p.entry).map (·.2)).getD p.history
  | .forward => ((p.history.goForward p.entry).map (·.2)).getD p.history

/-- The entry that a step goes to. -/
def StepKind.target (p : Place) : StepKind → Option HistoryEntry
  | .fresh => none
  | .back => p.history.back.getLast?
  | .forward => p.history.forward.getLast?

/-! ## The stacks -/

namespace HistoryStack

def size (h : HistoryStack) : Nat := h.back.length + h.forward.length

end HistoryStack

theorem pushCapped_of_lt {stack : List HistoryEntry} (entry : HistoryEntry)
    (h : stack.length < maxHistoryEntries) : pushCapped stack entry = stack ++ [entry] := by
  rw [pushCapped, if_neg]
  simp only [length_append, length_singleton]
  omega

theorem pushCapped_length (stack : List HistoryEntry) (entry : HistoryEntry)
    (h : stack.length ≤ maxHistoryEntries) : (pushCapped stack entry).length ≤ maxHistoryEntries := by
  grind [pushCapped]

theorem length_pos_of_getLast? {stack : List HistoryEntry} {entry : HistoryEntry}
    (h : stack.getLast? = some entry) : 0 < stack.length :=
  length_pos_of_mem (mem_of_getLast? h)

namespace StepKind

variable {p : Place} {k : StepKind} {target : HistoryEntry}

theorem apply_back (h : p.history.back.getLast? = some target) (hsize : p.history.size ≤ maxHistoryEntries) :
    StepKind.back.apply p = ⟨p.history.back.dropLast, p.history.forward ++ [p.entry]⟩ := by
  have hpos := length_pos_of_getLast? h
  have hlt : p.history.forward.length < maxHistoryEntries := by
    unfold HistoryStack.size at hsize
    omega
  simp only [apply, HistoryStack.goBack, h, map_some, getD_some, pushCapped_of_lt _ hlt]

theorem apply_forward (h : p.history.forward.getLast? = some target)
    (hsize : p.history.size ≤ maxHistoryEntries) :
    StepKind.forward.apply p = ⟨p.history.back ++ [p.entry], p.history.forward.dropLast⟩ := by
  have hpos := length_pos_of_getLast? h
  have hlt : p.history.back.length < maxHistoryEntries := by
    unfold HistoryStack.size at hsize
    omega
  simp only [apply, HistoryStack.goForward, h, map_some, getD_some, pushCapped_of_lt _ hlt]

/-- The two stacks together never hold more than one of them may. -/
theorem apply_size (k : StepKind) (hsize : p.history.size ≤ maxHistoryEntries) :
    (k.apply p).size ≤ maxHistoryEntries := by
  cases k with
  | fresh =>
    have hle : p.history.back.length ≤ maxHistoryEntries := (Nat.le_add_right _ _).trans hsize
    exact pushCapped_length p.history.back p.entry hle
  | back =>
    grind [apply, HistoryStack.goBack, apply_back, HistoryStack.size]
  | forward =>
    grind [apply, HistoryStack.goForward, apply_forward, HistoryStack.size]

end StepKind

/-- A Forward step from where a Back step has led goes back to where that began. -/
theorem forward_after_back {p q : Place} {target target' : HistoryEntry}
    (hsize : p.history.size ≤ maxHistoryEntries) (hback : StepKind.back.target p = some target)
    (hq : q = ⟨target, StepKind.back.apply p⟩) (hforward : StepKind.forward.target q = some target') :
    (⟨target', StepKind.forward.apply q⟩ : Place) = p := by
  have hstack : q.history = ⟨p.history.back.dropLast, p.history.forward ++ [p.entry]⟩ := by
    rw [hq]
    exact StepKind.apply_back hback hsize
  have hsize' : q.history.size ≤ maxHistoryEntries := by grind [StepKind.apply_size]
  have hentry : q.entry = target := by rw [hq]
  rw [StepKind.apply_forward hforward hsize']
  rw [StepKind.target, hstack, List.getLast?_concat] at hforward
  obtain rfl := some.inj hforward
  simp only [hstack, hentry, dropLast_concat]
  rw [dropLast_append_getLast?]
  exact hback

/-! ## When the stacks move -/

namespace TabState

variable {F : Frontend} (host : Host) (tab : TabState F) (ctx : WindowCtx) (url : String)

theorem handleNavigateSuccess_history (source : String) :
    (tab.handleNavigateSuccess host ctx url source).1.history = tab.history := by
  have hrestore (tab : TabState F) : tab.restoreScroll.history = tab.history := by
    unfold restoreScroll
    split <;> rfl
  exact handleNavigateSuccess_rule host tab ctx (P := fun out => out.1.history = tab.history)
    (fun _ => rfl) (fun _ _ => rfl) fun _ _ _ => hrestore _

/-- A navigation is recorded when it is admitted, unless it is a history step, a redirect or
`about:blank`. -/
theorem navigateToUrl_history (initiator : NavigationInitiator) :
    (tab.navigateToUrl host ctx url initiator).1.history =
      bif navigationAdmitted host tab.chromeState.committedUrl url initiator && url ≠ "about:blank" &&
          !(initiator = .historyStep || initiator.isRedirect) then
        tab.history.recordNavigation tab.place.entry
      else tab.history := by
  obtain ⟨scroll, hclear⟩ := tab.clearScroll_eq initiator
  have hdepart : ((tab.clearScroll initiator).depart initiator).history =
      bif !(initiator = .historyStep || initiator.isRedirect) then tab.history.recordNavigation tab.place.entry
      else tab.history := by
    rw [depart_eq, hclear, Bool.cond_not]
    rfl
  obtain ⟨out, outcome, hout, -, hdeparts⟩ := tab.exists_departs host ctx url initiator
  rw [hout]
  cases hdeparts with
  | blank hblank =>
    rw [handleNavigateSuccess_history, hclear]
    simp [hblank]
  | refused hadmitted => simp [hadmitted, setLoading]
  | unread hblank hadmitted => simpa [hadmitted, hblank] using hdepart
  | opened hblank hfile hadmitted => grind [handleNavigateSuccess_history]
  | dispatched hblank hmizu hadmitted => simpa [hadmitted, hblank, setLoading] using hdepart

/-- A navigation that the policy refuses leaves the page and the stacks as they are. -/
theorem navigateToUrl_refused {initiator : NavigationInitiator}
    (hrefused : navigationAdmitted host tab.chromeState.committedUrl url initiator = false) :
    (tab.navigateToUrl host ctx url initiator).1.place = tab.place := by
  obtain ⟨out, outcome, hout, -, hdeparts⟩ := tab.exists_departs host ctx url initiator
  rw [hout]
  cases hdeparts with
  | refused => rfl
  | blank hblank => simp [navigationAdmitted, hblank] at hrefused
  | unread _ hadmitted | opened _ _ hadmitted | dispatched _ _ hadmitted => grind

theorem processNetworkResult_history (r : NetworkResult) :
    (tab.processNetworkResult host ctx r).1.history = tab.history := by
  cases r with
  | navigateSuccess id url source => exact handleNavigateSuccess_history host tab ctx url source
  | navigationRedirect id newUrl initiator =>
    unfold processNetworkResult
    by_cases hgo : tab.redirectCount + 1 ≤ host.maxRedirects
    · grind [registerRedirect, decide_true, navigateToUrl_history, isRedirect_intoRedirectOf]
    · simp only [registerRedirect, hgo, decide_false]
      rfl
  | _ => rfl

end TabState

namespace TabSystem

variable {F : Frontend} {s t : TabSystem F} {m : TabMove}

/-- How a move begins to move through the history. -/
def begins (s : TabSystem F) : TabMove → Option StepKind
  | .back _ => s.tab.history.back.getLast?.map fun _ => .back
  | .forward _ => s.tab.history.forward.getLast?.map fun _ => .forward
  | m =>
    match s.asks m with
    | some (_, url, _) => if s.admits m && url ≠ "about:blank" then some .fresh else none
    | none => none

/-- In every run, the stacks move when a navigation is let through or a step is taken, and never when a
result comes back or a document commits. -/
theorem step_history (hstep : s.step m = some t) :
    t.tab.history =
      match s.begins m with
      | some kind => kind.apply s.tab.place
      | none => s.tab.history := by
  cases hasks : s.asks m with
  | none =>
    have hbegins : s.begins m = none := by
      cases m with
      | back host => simpa [asks, HistoryStack.goBack, begins] using hasks
      | forward host => simpa [asks, HistoryStack.goForward, begins] using hasks
      | _ => simp only [begins, hasks]
    rw [hbegins]
    by_cases hresult : ∃ host, m = .result host
    · obtain ⟨host, rfl⟩ := hresult
      obtain ⟨ticket, r, results, -, htab, -⟩ := step_result hstep
      rw [htab]
      exact s.tab.processNetworkResult_history host s.ctx.cleared r
    · grind [step_asks_none]
  | some asked =>
    obtain ⟨host, url, initiator⟩ := asked
    rw [step_asks hstep hasks, TabState.navigateToUrl_history]
    cases m with
    | openUrl host' url' =>
      cases hasks
      have hfresh : ((decide (NavigationInitiator.userGesture = .historyStep) ||
          NavigationInitiator.userGesture.isRedirect)) = false := rfl
      simp only [begins, asks, admits, prepared, hfresh]
      grind [StepKind.apply, TabState.place]
    | back host' =>
      obtain ⟨⟨target, history⟩, hpick, hasked⟩ := map_eq_some_iff.mp hasks
      cases hasked
      have hlast : s.tab.history.back.getLast? = some target := by
        obtain ⟨target', hlast, heq⟩ := map_eq_some_iff.mp hpick
        cases heq
        exact hlast
      have happly : s.tab.place.history.goBack s.tab.place.entry = some (target, history) := hpick
      simp [begins, prepared, StepKind.apply, hlast, hpick, happly]
    | forward host' =>
      obtain ⟨⟨target, history⟩, hpick, hasked⟩ := map_eq_some_iff.mp hasks
      cases hasked
      have hlast : s.tab.history.forward.getLast? = some target := by
        obtain ⟨target', hlast, heq⟩ := map_eq_some_iff.mp hpick
        cases heq
        exact hlast
      have happly : s.tab.place.history.goForward s.tab.place.entry = some (target, history) := hpick
      simp [begins, prepared, StepKind.apply, hlast, hpick, happly]
    | act host' =>
      have hasked := hasks
      simp only [asks] at hasked
      split at hasked
      · rename_i view gesture url' acting hacting
        cases hasked
        have hfresh : (decide (initiatorOf gesture = .historyStep) || (initiatorOf gesture).isRedirect) =
            false := by cases gesture <;> rfl
        simp only [begins, hasks, admits, prepared, hfresh]
        grind [StepKind.apply, TabState.place, TabState.setLoading]
      · cases hasked
    | _ => cases hasks

end TabSystem

/-! ## Runs -/

/-- The pages of a session in visiting order: those before the one shown, and those ahead, the next one
first. -/
structure Timeline where
  before : List String
  here : String
  ahead : List String
  deriving DecidableEq, Repr

namespace Timeline

/-- The latest pages, as many as the history may hold. -/
def latest (pages : List String) : List String := pages.drop (pages.length - maxHistoryEntries)

/-- `url` commits: a new page, which discards what was ahead, or the one that a step leads to. -/
def arrive (t : Timeline) (url : String) : StepKind → Timeline
  | .fresh => ⟨latest (t.before ++ [t.here]), url, []⟩
  | .back => ⟨t.before.dropLast, url, t.here :: t.ahead⟩
  | .forward => ⟨t.before ++ [t.here], url, t.ahead.drop 1⟩

end Timeline

/-- The back stack, the page and the forward stack together. -/
def Place.timeline (p : Place) : Timeline where
  before := p.history.back.map (·.url)
  here := p.entry.url
  ahead := (p.history.forward.map (·.url)).reverse

/-- A navigation that is under way: from where, and whether no redirect and no other navigation has
come between. -/
structure Begun where
  kind : StepKind
  source : Place
  direct : Bool
  deriving DecidableEq, Repr

/-- A navigation that has committed. -/
structure Arrival where
  begun : Begun
  reached : Place
  deriving DecidableEq, Repr

/-- The step led straight to the page of its entry. -/
def Arrival.Direct (a : Arrival) : Prop :=
  a.begun.direct = true ∧
    ∀ target ∈ a.begun.kind.target a.begun.source, a.reached.entry.url = target.url

inductive JourneyMove where
  | move (m : TabMove)
  /-- The user scrolls. -/
  | scroll (y : Int)

/-- The machine, and the pages that have committed. -/
structure Journey (F : Frontend) where
  sys : TabSystem F
  timeline : Timeline
  begun : Option Begun
  arrivals : List Arrival

/-- A source text that becomes a document. -/
def Frontend.installs (F : Frontend) (url source : String) : Bool :=
  match (F.loadDocument url source).2 with
  | some loaded => (F.buildTaffyTree loaded.document.dom loaded.style url).toOption.isSome
  | none => false

/-- A commit whose source text becomes a document. -/
def NavigationOutcome.installs (F : Frontend) : NavigationOutcome → Bool
  | .commits url source => F.installs url source
  | _ => true

namespace Journey

variable {F : Frontend} {w w' : Journey F} {m : TabMove}

/-- A tab as it is constructed. -/
def start (host : Host) (tab : TabState F) (ctx : WindowCtx) : Journey F where
  sys := .start host { tab with history := ⟨[], []⟩ } ctx
  timeline := ⟨[], tab.chromeState.committedUrl, []⟩
  begun := none
  arrivals := []

/-- A redirect, or another navigation that is asked for, comes between. -/
def disturbs (s : TabSystem F) (m : TabMove) : Bool :=
  (s.asks m).isSome ||
    match m, s.results with
    | .result _, (_, .navigationRedirect _ _ _) :: _ => true
    | _, _ => false

/-- The navigation under way after a move. -/
def under (w : Journey F) (m : TabMove) : Option Begun :=
  match w.sys.begins m with
  | some kind => some ⟨kind, w.sys.tab.place, true⟩
  | none => w.begun.map fun b => { b with direct := b.direct && !disturbs w.sys m }

/-- Takes over a move. -/
def moved (w : Journey F) (m : TabMove) (t : TabSystem F) : Journey F :=
  match w.sys.does m, w.under m with
  | .commits url _, some b =>
    { sys := t
      timeline := w.timeline.arrive url b.kind
      begun := none
      arrivals := w.arrivals ++ [⟨b, t.tab.place⟩] }
  | _, begun => { w with sys := t, begun }

def step (w : Journey F) : JourneyMove → Option (Journey F)
  | .scroll y => some { w with sys := { w.sys with tab := { w.sys.tab with rootScrollOffsetY := y } } }
  | .move m => (w.sys.step m).map (w.moved m)

/-- The result of a navigation leads nowhere. -/
def stalls (s : TabSystem F) (m : TabMove) : Bool :=
  match m, s.results with
  | .result host, (.navigation _, r) :: _ => s.resultOutcome host r = .stays
  | _, _ => false

/-- Every navigation that is let through begins while no other one is outstanding, and commits. -/
structure Settles (w : Journey F) (m : TabMove) : Prop where
  alone : w.sys.admits m = true → w.sys.pendingChains = []
  recorded : w.sys.admits m = true → (w.sys.begins m).isSome = true
  goesOn : (w.sys.begins m).isSome = true → w.sys.starts m ≠ .stays
  answered : stalls w.sys m = false
  installs : (w.sys.does m).installs F = true

instance (w : Journey F) (m : TabMove) : Decidable (w.Settles m) :=
  decidable_of_iff
    ((w.sys.admits m = true → w.sys.pendingChains = []) ∧
      (w.sys.admits m = true → (w.sys.begins m).isSome = true) ∧
      ((w.sys.begins m).isSome = true → w.sys.starts m ≠ .stays) ∧
      stalls w.sys m = false ∧ (w.sys.does m).installs F = true)
    ⟨fun ⟨h₁, h₂, h₃, h₄, h₅⟩ => ⟨h₁, h₂, h₃, h₄, h₅⟩, fun ⟨h₁, h₂, h₃, h₄, h₅⟩ => ⟨h₁, h₂, h₃, h₄, h₅⟩⟩

/-- The condition on a move of the machine; the user may scroll at any time. -/
def SettlesMove (w : Journey F) : JourneyMove → Prop
  | .move m => w.Settles m
  | .scroll _ => True

instance (w : Journey F) (m : JourneyMove) : Decidable (w.SettlesMove m) :=
  match m with
  | .move m => inferInstanceAs (Decidable (w.Settles m))
  | .scroll _ => inferInstanceAs (Decidable True)

/-- The stacks and the page are the pages that have committed, and a Forward step undoes a Back step. -/
structure Matches (w : Journey F) : Prop where
  timeline : w.sys.pendingChains = [] → w.sys.tab.place.timeline = w.timeline
  returns : ∀ a ∈ w.arrivals, ∀ b ∈ w.arrivals, a.begun.kind = .back → b.begun.kind = .forward →
    a.Direct → b.Direct → a.reached = b.begun.source → b.reached = a.begun.source

end Journey

/-! ## A step under way -/

variable {url source : String}

section Arriving

variable {F : Frontend} {b : Begun} {timeline : Timeline} {tab tab' : TabState F} {p : Place}

/-- The stacks have moved, the page has not. -/
structure Begun.UnderWay (b : Begun) (timeline : Timeline) (tab : TabState F) : Prop where
  size : b.source.history.size ≤ maxHistoryEntries
  timeline : b.source.timeline = timeline
  history : tab.history = b.kind.apply b.source
  target : b.kind ≠ .fresh → (b.kind.target b.source).isSome = true
  scroll : b.direct = true → ∀ target ∈ b.kind.target b.source,
    tab.pendingScrollRestore = some target.scrollY

/-- A step has led where it should. -/
structure Arrival.Sound (a : Arrival) : Prop where
  size : a.begun.source.history.size ≤ maxHistoryEntries
  history : a.reached.history = a.begun.kind.apply a.begun.source
  target : a.begun.kind ≠ .fresh → (a.begun.kind.target a.begun.source).isSome = true
  scroll : a.begun.direct = true → ∀ target ∈ a.begun.kind.target a.begun.source,
    a.reached.entry.scrollY = target.scrollY

theorem Begun.UnderWay.of_eq (h : b.UnderWay timeline tab) (hhistory : tab'.history = tab.history)
    (hscroll : b.direct = true → tab'.pendingScrollRestore = tab.pendingScrollRestore) :
    b.UnderWay timeline tab' :=
  ⟨h.size, h.timeline, hhistory.trans h.history, h.target,
    fun hdirect target htarget => (hscroll hdirect).trans (h.scroll hdirect target htarget)⟩

theorem Begun.UnderWay.disturbed (h : b.UnderWay timeline tab) (direct : Bool) :
    Begun.UnderWay { b with direct := b.direct && direct } timeline tab :=
  ⟨h.size, h.timeline, h.history, h.target,
    fun hdirect => h.scroll ((Bool.and_eq_true_iff.mp hdirect).1)⟩

theorem latest_pushCapped (stack : List HistoryEntry) (entry : HistoryEntry)
    (h : stack.length ≤ maxHistoryEntries) :
    (pushCapped stack entry).map (·.url) = Timeline.latest (stack.map (·.url) ++ [entry.url]) := by
  simp only [Timeline.latest, length_append, length_map, length_singleton, pushCapped]
  by_cases hfull : stack.length + 1 > maxHistoryEntries
  · have hone : stack.length + 1 - maxHistoryEntries = 1 := by omega
    rw [if_pos hfull, hone, map_drop, map_append]
    rfl
  · have hzero : stack.length + 1 - maxHistoryEntries = 0 := by omega
    rw [if_neg hfull, hzero, drop_zero, map_append]
    rfl

/-- The stacks after a step, with the page that it leads to, are the pages after it. -/
theorem timeline_apply (kind : StepKind) (entry : HistoryEntry)
    (hsize : p.history.size ≤ maxHistoryEntries) (htarget : kind ≠ .fresh → (kind.target p).isSome = true) :
    (⟨entry, kind.apply p⟩ : Place).timeline = p.timeline.arrive entry.url kind := by
  cases kind with
  | fresh =>
    have hle : p.history.back.length ≤ maxHistoryEntries := (Nat.le_add_right _ _).trans hsize
    simp only [Place.timeline, Timeline.arrive, StepKind.apply, HistoryStack.recordNavigation,
      latest_pushCapped _ _ hle, map_nil, reverse_nil]
  | back =>
    obtain ⟨target, hlast⟩ := isSome_iff_exists.mp (htarget nofun)
    simp [Place.timeline, Timeline.arrive, StepKind.apply_back hlast hsize, map_dropLast]
  | forward =>
    obtain ⟨target, hlast⟩ := isSome_iff_exists.mp (htarget nofun)
    simp [Place.timeline, Timeline.arrive, StepKind.apply_forward hlast hsize, map_dropLast,
      ← tail_reverse]

theorem handleNavigateSuccess_scroll (host : Host) (ctx : WindowCtx) {y : Int}
    (hinstalls : F.installs url source = true) (hpending : tab.pendingScrollRestore = some y) :
    (tab.handleNavigateSuccess host ctx url source).1.rootScrollOffsetY = y := by
  unfold Frontend.installs at hinstalls
  rcases hload : F.loadDocument url source with ⟨log, _ | loaded⟩
  · simp [hload] at hinstalls
  cases hlayout : F.buildTaffyTree loaded.document.dom loaded.style url with
  | error e => simp [hload, hlayout, Except.toOption] at hinstalls
  | ok layout =>
    have hscroll : (tab.committed host ctx url loaded layout).pendingScrollRestore = some y := hpending
    rw [tab.handleNavigateSuccess_installed host ctx hload hlayout]
    simp only [TabState.restoreScroll, hscroll]

/-- A step that has led straight on shows its entry, over the stacks that it left. -/
theorem Arrival.Sound.reached {a : Arrival} (h : a.Sound) (hdirect : a.Direct) {target : HistoryEntry}
    (htarget : a.begun.kind.target a.begun.source = some target) :
    a.reached = ⟨target, a.begun.kind.apply a.begun.source⟩ := by
  have hentry : a.reached.entry = target := by
    have hurl := hdirect.2 target htarget
    have hscroll := h.scroll hdirect.1 target htarget
    generalize a.reached.entry = entry at hurl hscroll
    cases entry
    cases target
    simp_all
  rw [← hentry, ← h.history]

theorem Begun.UnderWay.arrive (h : b.UnderWay timeline tab) (host : Host) (ctx : WindowCtx)
    (hinstalls : F.installs url source = true) :
    (tab.handleNavigateSuccess host ctx url source).1.place.timeline = timeline.arrive url b.kind ∧
      Arrival.Sound ⟨b, (tab.handleNavigateSuccess host ctx url source).1.place⟩ := by
  have hhistory := (tab.handleNavigateSuccess_history host ctx url source).trans h.history
  have hurl := (tab.handleNavigateSuccess_origin host ctx url source).1
  refine ⟨?_, h.size, hhistory, h.target, fun hdirect target htarget => ?_⟩
  · have happly := timeline_apply b.kind
      (tab.handleNavigateSuccess host ctx url source).1.place.entry h.size h.target
    have hentry : (tab.handleNavigateSuccess host ctx url source).1.place.entry.url = url := hurl
    rw [h.timeline, ← hhistory, hentry] at happly
    exact happly
  · exact handleNavigateSuccess_scroll host ctx hinstalls (h.scroll hdirect target htarget)

end Arriving

/-! ## What a navigation leads to -/

/-- From `tab`, which the policy has let through, a navigation leads on to `out`. -/
def TabState.Leads {F : Frontend} (tab out : TabState F) : NavigationOutcome → Prop
  | .stays => True
  | .dispatches _ => out = tab
  | .commits url source => ∃ host ctx, out = (tab.handleNavigateSuccess host ctx url source).1

/-- A navigation that goes on has recorded what it leaves, or has been recorded by the step that it is. -/
theorem TabState.navigateToUrl_leads {F : Frontend} (host : Host) (tab : TabState F) (ctx : WindowCtx)
    (url : String) (initiator : NavigationInitiator)
    (hblank : initiator = .historyStep ∨ initiator.isRedirect = true ∨ url ≠ "about:blank") :
    ∃ tab' : TabState F,
      (tab'.history = bif initiator = .historyStep || initiator.isRedirect then tab.history
        else tab.history.recordNavigation tab.place.entry) ∧
      (initiator = .historyStep → tab'.pendingScrollRestore = tab.pendingScrollRestore) ∧
      tab'.Leads (tab.navigateToUrl host ctx url initiator).1
        (navigationOutcome host tab.chromeState.committedUrl url initiator) := by
  obtain ⟨scroll, hclear⟩ := tab.clearScroll_eq initiator
  have hscroll : initiator = .historyStep →
      ((tab.clearScroll initiator).depart initiator).pendingScrollRestore = tab.pendingScrollRestore := by
    rintro rfl
    rfl
  have hdepart : ((tab.clearScroll initiator).depart initiator).history =
      bif initiator = .historyStep || initiator.isRedirect then tab.history
      else tab.history.recordNavigation tab.place.entry := by
    rw [depart_eq, hclear]
    rfl
  obtain ⟨out, outcome, hout, houtcome, hdeparts⟩ := tab.exists_departs host ctx url initiator
  rw [hout, houtcome]
  cases hdeparts with
  | blank hurl =>
    refine ⟨tab.clearScroll initiator, ?_, ?_, host, ctx, rfl⟩
    · grind
    · rintro rfl
      rfl
  | refused | unread => exact ⟨_, hdepart, hscroll, trivial⟩
  | opened => exact ⟨_, hdepart, hscroll, host, ctx, rfl⟩
  | dispatched => exact ⟨((tab.clearScroll initiator).depart initiator).setLoading true, hdepart, hscroll, rfl⟩

namespace TabSystem

variable {F : Frontend} {s t : TabSystem F} {m : TabMove} {kind : StepKind}

theorem begins_asks (hbegins : s.begins m = some kind) : ∃ host url initiator,
    s.asks m = some (host, url, initiator) := by
  cases m with
  | back host =>
    obtain ⟨target, hlast, -⟩ := map_eq_some_iff.mp hbegins
    exact ⟨host, target.url, .historyStep, by simp [asks, HistoryStack.goBack, hlast]⟩
  | forward host =>
    obtain ⟨target, hlast, -⟩ := map_eq_some_iff.mp hbegins
    exact ⟨host, target.url, .historyStep, by simp [asks, HistoryStack.goForward, hlast]⟩
  | openUrl host url => exact ⟨host, url, .userGesture, rfl⟩
  | act host => grind [begins]
  | _ => simp [begins, asks] at hbegins

theorem begins_target (hbegins : s.begins m = some kind) (hkind : kind ≠ .fresh) :
    (kind.target s.tab.place).isSome = true := by
  have hfresh {admitted : Bool} (h : (if admitted then some StepKind.fresh else none) = some kind) : False := by
    grind
  cases m with
  | back host | forward host =>
    obtain ⟨target, hlast, rfl⟩ := map_eq_some_iff.mp hbegins
    exact isSome_of_mem hlast
  | _ => grind [begins]

/-- The tab in which a navigation of the run goes on. -/
theorem begins_leads (hstep : s.step m = some t) (hbegins : s.begins m = some kind) : ∃ tab : TabState F,
    tab.history = kind.apply s.tab.place ∧
      (∀ target ∈ kind.target s.tab.place, tab.pendingScrollRestore = some target.scrollY) ∧
      tab.Leads t.tab (s.starts m) := by
  obtain ⟨host, url, initiator, hasks⟩ := begins_asks hbegins
  have hleads (hblank : initiator = .historyStep ∨ initiator.isRedirect = true ∨ url ≠ "about:blank") :=
    (s.prepared m).navigateToUrl_leads host s.ctx.cleared url initiator hblank
  rw [(s.prepared_committedUrl m).1, ← step_asks hstep hasks] at hleads
  have hstarts := s.starts_eq m
  simp only [hasks, outcome] at hstarts
  rw [← hstarts] at hleads
  have hfresh (hprepared : (s.prepared m).place = s.tab.place) (hkind : kind = .fresh)
      (hinitiator : (decide (initiator = .historyStep) || initiator.isRedirect) = false)
      (hblank : url ≠ "about:blank") : ∃ tab : TabState F,
      tab.history = kind.apply s.tab.place ∧
        (∀ target ∈ kind.target s.tab.place, tab.pendingScrollRestore = some target.scrollY) ∧
        tab.Leads t.tab (s.starts m) := by
    obtain ⟨tab', hhistory, -, hout⟩ := hleads (.inr (.inr hblank))
    have hstack : (s.prepared m).history = s.tab.history := congrArg (·.history) hprepared
    rw [hinitiator, cond_false, hprepared, hstack] at hhistory
    subst hkind
    exact ⟨tab', hhistory, by simp [StepKind.target], hout⟩
  cases m with
  | back host' =>
    obtain ⟨target, hlast, rfl⟩ := map_eq_some_iff.mp hbegins
    obtain ⟨rfl, rfl, rfl⟩ : host' = host ∧ target.url = url ∧ .historyStep = initiator := by
      simpa [asks, HistoryStack.goBack, hlast] using hasks
    obtain ⟨tab', hhistory, hscroll, hout⟩ := hleads (.inl rfl)
    refine ⟨tab', ?_, fun target' htarget => ?_, hout⟩
    · grind [prepared, HistoryStack.goBack, StepKind.apply, TabState.place, leaving]
    · rw [hscroll rfl]
      obtain rfl : target = target' := some.inj (hlast.symm.trans htarget)
      simp [prepared, HistoryStack.goBack, hlast]
  | forward host' =>
    obtain ⟨target, hlast, rfl⟩ := map_eq_some_iff.mp hbegins
    obtain ⟨rfl, rfl, rfl⟩ : host' = host ∧ target.url = url ∧ .historyStep = initiator := by
      simpa [asks, HistoryStack.goForward, hlast] using hasks
    obtain ⟨tab', hhistory, hscroll, hout⟩ := hleads (.inl rfl)
    refine ⟨tab', ?_, fun target' htarget => ?_, hout⟩
    · grind [prepared, HistoryStack.goForward, StepKind.apply, TabState.place, leaving]
    · rw [hscroll rfl]
      obtain rfl : target = target' := some.inj (hlast.symm.trans htarget)
      simp [prepared, HistoryStack.goForward, hlast]
  | openUrl host' url' =>
    cases hasks
    simp only [begins, asks, ite_none_right_eq_some, Bool.and_eq_true, decide_eq_true_eq] at hbegins
    obtain ⟨⟨-, hblank⟩, hkind⟩ := hbegins
    exact hfresh rfl (some.inj hkind).symm rfl hblank
  | act host' =>
    simp only [begins, hasks] at hbegins
    simp only [ite_none_right_eq_some, Bool.and_eq_true, decide_eq_true_eq] at hbegins
    obtain ⟨⟨-, hblank⟩, hkind⟩ := hbegins
    refine hfresh rfl (some.inj hkind).symm ?_ hblank
    rw [asks_isRedirect hasks, Bool.or_false]
    simp only [asks] at hasks
    split at hasks
    · rename_i view gesture url' acting hacting
      cases hasks
      cases gesture <;> rfl
    · cases hasks
  | _ => cases hasks

/-- The document of a result replaces the one in the tab, from which a redirect may have come. -/
theorem result_leads {host : Host} {r : NetworkResult} {tab : TabState F}
    (htab : tab = (s.tab.processNetworkResult host s.ctx.cleared r).1) : ∃ tab' : TabState F,
    tab'.history = s.tab.history ∧
      ((∀ id url initiator, r ≠ .navigationRedirect id url initiator) →
        tab'.pendingScrollRestore = s.tab.pendingScrollRestore) ∧
      tab'.Leads tab (s.resultOutcome host r) := by
  subst htab
  cases r with
  | navigateSuccess id url source => exact ⟨s.tab, rfl, fun _ => rfl, host, s.ctx.cleared, rfl⟩
  | navigationRedirect id newUrl initiator =>
    by_cases hgo : s.tab.redirectCount + 1 ≤ host.maxRedirects
    · obtain ⟨tab', hhistory, -, hout⟩ := (s.tab.registerRedirect host).2.navigateToUrl_leads host s.ctx.cleared
        newUrl initiator.intoRedirectOf (.inr (.inl (isRedirect_intoRedirectOf initiator)))
      rw [isRedirect_intoRedirectOf, Bool.or_true, cond_true] at hhistory
      refine ⟨tab', hhistory, fun hnot => absurd rfl (hnot _ _ _), ?_⟩
      simp only [resultOutcome, hgo, if_true, TabState.processNetworkResult, TabState.registerRedirect,
        decide_true]
      exact hout
    · refine ⟨s.tab, rfl, fun _ => rfl, ?_⟩
      simp only [resultOutcome, hgo, if_false]
      trivial
  | _ => exact ⟨s.tab, rfl, fun _ => rfl, trivial⟩

end TabSystem

/-! ## The invariant -/

namespace Journey

variable {F : Frontend} {w w' : Journey F} {m : TabMove} {t : TabSystem F}

/-- With nothing outstanding, the stacks and the page are the pages committed; else a step is under way. -/
structure Inv (w : Journey F) : Prop where
  oneChain : w.sys.OneChain
  size : w.sys.tab.history.size ≤ maxHistoryEntries
  idle : w.sys.pendingChains = [] → w.begun = none ∧ w.sys.tab.place.timeline = w.timeline
  busy : w.sys.pendingChains ≠ [] → ∃ b, w.begun = some b ∧ b.UnderWay w.timeline w.sys.tab
  sound : ∀ a ∈ w.arrivals, a.Sound

/-- A Forward step that leads straight on from where a Back step has led undoes it. -/
theorem Inv.matches (h : w.Inv) : w.Matches where
  timeline hidle := (h.idle hidle).2
  returns a ha b hb hback hforward hadirect hbdirect hreached := by
    have hsa := h.sound a ha
    have hsb := h.sound b hb
    obtain ⟨target, htarget⟩ := isSome_iff_exists.mp (hsa.target (by simp [hback]))
    obtain ⟨target', htarget'⟩ := isSome_iff_exists.mp (hsb.target (by simp [hforward]))
    have hleft := hsa.reached hadirect htarget
    rw [hreached, hback] at hleft
    rw [hsb.reached hbdirect htarget', hforward]
    exact forward_after_back hsa.size (hback ▸ htarget) hleft (hforward ▸ htarget')

/-- A move that neither starts a navigation nor ends one. -/
theorem Inv.quiet {begun : Option Begun} (h : w.Inv) (hone : t.OneChain)
    (hpending : t.pendingChains.Perm w.sys.pendingChains)
    (hplace : t.tab.place = w.sys.tab.place)
    (hbegun : begun = w.begun.map fun b => { b with direct := b.direct && !disturbs w.sys m })
    (hscroll : disturbs w.sys m = false → t.tab.pendingScrollRestore = w.sys.tab.pendingScrollRestore) :
    Inv { w with sys := t, begun } where
  oneChain := hone
  size := by
    have hstack : t.tab.history = w.sys.tab.history := congrArg (·.history) hplace
    rw [hstack]
    exact h.size
  idle hnone := by
    obtain ⟨hwas, htimeline⟩ := h.idle (perm_nil.mp (hnone ▸ hpending).symm)
    exact ⟨by rw [hbegun, hwas, map_none], by rw [hplace]; exact htimeline⟩
  busy hsome := by
    obtain ⟨b, hwas, hunder⟩ := h.busy fun hnone => hsome (perm_nil.mp (hnone ▸ hpending))
    refine ⟨_, by rw [hbegun, hwas, map_some], ?_⟩
    refine (hunder.disturbed _).of_eq (congrArg (·.history) hplace) fun hdirect => hscroll ?_
    simpa using (Bool.and_eq_true_iff.mp hdirect).2
  sound := h.sound

theorem Inv.sent {b : Begun} (h : w.Inv) (hone : t.OneChain) (hpending : t.pendingChains ≠ [])
    (hunder : b.UnderWay w.timeline t.tab) : Inv { w with sys := t, begun := some b } where
  oneChain := hone
  size := by
    rw [show t.tab.history = b.kind.apply b.source from hunder.history]
    exact StepKind.apply_size b.kind hunder.size
  idle hnone := absurd hnone hpending
  busy _ := ⟨b, rfl, hunder⟩
  sound := h.sound

theorem Inv.committed {b : Begun} {tab : TabState F} {host : Host} {ctx : WindowCtx}
    (h : w.Inv) (hone : t.OneChain) (hpending : t.pendingChains = []) (hunder : b.UnderWay w.timeline tab)
    (htab : t.tab = (tab.handleNavigateSuccess host ctx url source).1) (hinstalls : F.installs url source = true) :
    Inv ⟨t, w.timeline.arrive url b.kind, none, w.arrivals ++ [⟨b, t.tab.place⟩]⟩ := by
  obtain ⟨htimeline, hsound⟩ := hunder.arrive host ctx hinstalls
  rw [← htab] at htimeline hsound
  refine ⟨hone, ?_, fun _ => ⟨rfl, htimeline⟩, fun hsome => absurd hpending hsome, fun a ha => ?_⟩
  · rw [show t.tab.history = b.kind.apply b.source from hsound.history]
    exact StepKind.apply_size b.kind hunder.size
  · rcases mem_append.mp ha with ha | ha
    · exact h.sound a ha
    · rw [mem_singleton.mp ha]
      exact hsound

theorem step_inv_begins {kind : StepKind} (h : w.Inv) (hgood : w.Settles m) (hone : t.OneChain)
    (hstep : w.sys.step m = some t) (hbegins : w.sys.begins m = some kind) : (w.moved m t).Inv := by
  have hgoes := hgood.goesOn (by rw [hbegins]; rfl)
  have hadmits : w.sys.admits m = true := by
    by_contra hnot
    exact hgoes (TabSystem.starts_of_not_admits (Bool.not_eq_true _ ▸ hnot))
  have hpending := hgood.alone hadmits
  obtain ⟨tab, hhistory, hscroll, hleads⟩ := TabSystem.begins_leads hstep hbegins
  have hunder : Begun.UnderWay ⟨kind, w.sys.tab.place, true⟩ w.timeline tab := by
    exact ⟨h.size, (h.idle hpending).2, hhistory, TabSystem.begins_target hbegins, fun _ => hscroll⟩
  have hdoes := TabSystem.does_eq_starts hgoes
  have hinstalls := hgood.installs
  have hunderEq : w.under m = some ⟨kind, w.sys.tab.place, true⟩ := by rw [under, hbegins]
  rw [hdoes] at hinstalls
  rw [moved, hdoes, hunderEq]
  cases hstarts : w.sys.starts m with
  | stays => exact absurd hstarts hgoes
  | dispatches target =>
    rw [hstarts] at hleads
    obtain ⟨chain, -, -, hnext⟩ := TabSystem.step_sends hstep hstarts hpending
    exact h.sent hone (by simp [hnext]) (hleads ▸ hunder)
  | commits url source =>
    rw [hstarts] at hleads hinstalls
    obtain ⟨host, ctx, htab⟩ := hleads
    have hresult : ∀ host, m ≠ .result host := by
      rintro host rfl
      cases hbegins
    obtain ⟨-, hperm⟩ := TabSystem.step_quiet hstep hresult (by simp [hstarts])
    exact h.committed hone (perm_nil.mp (hpending ▸ hperm)) hunder htab hinstalls

/-- A move that begins no navigation and takes no result. -/
theorem step_inv_quiet (h : w.Inv) (hone : t.OneChain) (hstep : w.sys.step m = some t)
    (hgood : w.Settles m) (hbegins : w.sys.begins m = none) (hresult : ∀ host, m ≠ .result host) :
    (w.moved m t).Inv := by
  have hadmits : w.sys.admits m = false := by
    by_contra hnot
    have hsome := hgood.recorded (Bool.not_eq_false _ ▸ hnot)
    rw [hbegins] at hsome
    cases hsome
  have hstays := TabSystem.starts_of_not_admits hadmits
  have hdoes : w.sys.does m = .stays := by
    cases m with
    | result host => exact absurd rfl (hresult host)
    | _ => exact hstays
  have hunder : w.under m = w.begun.map fun b => { b with direct := b.direct && !disturbs w.sys m } := by
    rw [under, hbegins]
  obtain ⟨-, hperm⟩ := TabSystem.step_quiet hstep hresult (by simp [hstays])
  rw [moved, hdoes]
  cases hasks : w.sys.asks m with
  | none =>
    obtain ⟨ticks, store, policy, htab⟩ := TabSystem.step_asks_none hstep hasks hresult
    exact h.quiet hone hperm (by rw [htab]; rfl) hunder fun _ => by rw [htab]
  | some asked =>
    obtain ⟨host, url, initiator⟩ := asked
    have hdisturbs : disturbs w.sys m = true := by simp [disturbs, hasks]
    refine h.quiet hone hperm ?_ hunder fun hnot => absurd (hdisturbs.symm.trans hnot) (by decide)
    have hplace : (w.sys.prepared m).place = w.sys.tab.place := by
      cases m with
      | back host' => simp_all [TabSystem.begins, TabSystem.asks, HistoryStack.goBack]
      | forward host' => simp_all [TabSystem.begins, TabSystem.asks, HistoryStack.goForward]
      | _ => rfl
    rw [TabSystem.step_asks hstep hasks, TabState.navigateToUrl_refused, hplace]
    simp only [TabSystem.admits, hasks] at hadmits
    rw [(w.sys.prepared_committedUrl m).1]
    exact hadmits

theorem step_inv_result {host : Host} (h : w.Inv) (hone : t.OneChain) (hgood : w.Settles (.result host))
    (hstep : w.sys.step (.result host) = some t) : (w.moved (.result host) t).Inv := by
  have hunder : w.under (.result host) =
      w.begun.map fun b => { b with direct := b.direct && !disturbs w.sys (.result host) } := rfl
  obtain ⟨ticket, r, results, hresults, htab, hsent⟩ := TabSystem.step_result hstep
  have hdoes : w.sys.does (.result host) = w.sys.resultOutcome host r := by
    simp only [TabSystem.does, hresults]
  have hinstalls := hgood.installs
  rw [moved, hdoes]
  rw [hdoes] at hinstalls
  cases ticket with
  | data n =>
    have hdata := h.oneChain.results (.data n, r) (by simp [hresults]) rfl
    have hstays : w.sys.resultOutcome host r = .stays := TabSystem.resultOutcome_stays hdata
    obtain ⟨-, hpending⟩ := hsent.1 (by simp [hstays])
    have hreceived : (w.sys.received results).pendingChains = w.sys.pendingChains := by
      simp only [TabSystem.pendingChains, TabSystem.received, hresults, filterMap_append, map_cons,
        filterMap_cons, Ticket.chain?]
    rw [hstays]
    refine h.quiet hone (.of_eq (hpending.trans hreceived)) ?_ hunder fun _ => ?_
    · rw [htab]
      cases r with
      | navigateSuccess | navigationRedirect => cases hdata
      | _ => rfl
    · rw [htab]
      cases r with
      | navigateSuccess | navigationRedirect => cases hdata
      | _ => rfl
  | navigation chain =>
    obtain ⟨hreceived, hpending⟩ := TabSystem.received_pending h.oneChain.one hresults
    obtain ⟨b, hbegun, hway⟩ := h.busy (by simp [hpending])
    obtain ⟨tab, hhistory, hscroll, hleads⟩ := TabSystem.result_leads htab
    have hway' : Begun.UnderWay { b with direct := b.direct && !disturbs w.sys (.result host) }
        w.timeline tab := by
      refine (hway.disturbed _).of_eq hhistory fun hdirect => hscroll fun id url initiator hr => ?_
      have hnot := (Bool.and_eq_true_iff.mp hdirect).2
      simp [disturbs, hresults, hr] at hnot
    rw [hunder, hbegun, map_some]
    cases hout : w.sys.resultOutcome host r with
    | stays =>
      have hstalls := hgood.answered
      simp [stalls, hresults, hout] at hstalls
    | dispatches target =>
      rw [hout] at hleads
      obtain ⟨-, hnext⟩ := hsent.2 target hout hreceived
      exact h.sent hone (by simp [hnext]) (hleads ▸ hway')
    | commits url source =>
      rw [hout] at hleads hinstalls
      obtain ⟨host', ctx, htab'⟩ := hleads
      obtain ⟨-, hnext⟩ := hsent.1 (by simp [hout])
      exact h.committed hone (hnext.trans hreceived) hway' htab' hinstalls

theorem step_inv {m : JourneyMove} (h : w.Inv) (hgood : w.SettlesMove m) (hstep : w.step m = some w') :
    w'.Inv := by
  cases m with
  | scroll y =>
    cases hstep
    refine ⟨{ h.oneChain with }, h.size, h.idle, fun hsome => ?_, h.sound⟩
    obtain ⟨b, hbegun, hunder⟩ := h.busy hsome
    exact ⟨b, hbegun, hunder.of_eq rfl fun _ => rfl⟩
  | move m =>
    obtain ⟨t, hsys, rfl⟩ := map_eq_some_iff.mp hstep
    have hwaits : w.sys.WaitsForAnswer m := fun hstarts => by
      cases hadmits : w.sys.admits m with
      | false => exact absurd (TabSystem.starts_of_not_admits hadmits) hstarts
      | true => exact hgood.alone hadmits
    have hone := TabSystem.step_oneChain h.oneChain hwaits hsys
    by_cases hresult : ∃ host, m = .result host
    · obtain ⟨host, rfl⟩ := hresult
      exact step_inv_result h hone hgood hsys
    · cases hbegins : w.sys.begins m with
      | some kind => exact step_inv_begins h hgood hone hsys hbegins
      | none => exact step_inv_quiet h hone hsys hgood hbegins fun host hm => hresult ⟨host, hm⟩

/-- The step through the history that a move begins. -/
def begins (w : Journey F) : JourneyMove → Option StepKind
  | .move m => w.sys.begins m
  | .scroll _ => none

theorem step_history {m : JourneyMove} (hstep : w.step m = some w') :
    w'.sys.tab.history =
      match w.begins m with
      | some kind => kind.apply w.sys.tab.place
      | none => w.sys.tab.history := by
  cases m with
  | scroll y =>
    cases hstep
    rfl
  | move m =>
    obtain ⟨t, hsys, rfl⟩ := map_eq_some_iff.mp hstep
    have hmoved : (w.moved m t).sys = t := by
      unfold moved
      split <;> rfl
    rw [hmoved]
    exact TabSystem.step_history hsys

theorem start_inv (host : Host) (tab : TabState F) (ctx : WindowCtx) : (start host tab ctx).Inv where
  oneChain := TabSystem.start_oneChain host _ ctx
  size := Nat.zero_le _
  idle _ := ⟨rfl, rfl⟩
  busy hsome := absurd rfl hsome
  sound _ ha := nomatch ha

end Journey

/-- The oldest request brings a page. -/
def answerOldest : List JourneyMove :=
  [.move (.complete 0 (.source blankSource)), .move (.result plainHost)]

end Mizu
