import Mizu.Render.TabSystem

/-!
# Responses and the document that caused them

A response carries symbols of the document whose event it answers, and the window reads them against
whatever document the tab shows by then.

* `responses_stay_attached`: in a run in which no document commits while something of the present one
  is outstanding, every response is applied to the document that caused it.
* `response_outlives_document`: it is not so in every run.
-/

namespace Mizu

open List

open TabState (View)

namespace TabSystem

variable {F : Frontend} {host : Host} {s t : TabSystem F} {m : TabMove}

/-- Something of the present document is to be answered or applied, after the next action. -/
def Outstanding (s : TabSystem F) : Prop :=
  s.logicIn ≠ [] ∨ (∃ view response, (view, .ok response) ∈ s.logicOut) ∨ s.acting.tail ≠ []

/-- The text is not installed, and the tab is at its URL already. -/
def Retains (host : Host) (tab : TabState F) (url source : String) : Prop :=
  (∀ loaded, ¬F.Installs url source loaded) ∧ tab.chromeState.committedUrl = url ∧
    tab.capabilityPolicy.originKey = (capabilityPolicyFor host url).originKey ∧
    tab.capabilityPolicy.quotaBytes = (capabilityPolicyFor host url).quotaBytes

/-- A commit waits until nothing of the present document is outstanding. -/
def WaitsForResponses (s : TabSystem F) (m : TabMove) : Prop :=
  ∀ host url source, m.host? = some host → s.does m = .commits url source →
    ¬s.Outstanding ∨ Retains host s.tab url source

/-- Whatever is outstanding belongs to the document in the tab, and so did all that was applied. -/
structure Attached (s : TabSystem F) : Prop where
  logicIn : ∀ e ∈ s.logicIn, e.1 = s.tab.view
  logicOut : ∀ view response, (view, .ok response) ∈ s.logicOut → view = s.tab.view
  acting : ∀ a ∈ s.acting, a.1 = s.tab.view
  uses : ∀ p ∈ s.uses, p.1 = p.2

/-! ## Steps -/

variable {out : TabState F × WindowCtx}

/-- What an operation sends is tagged with the document it leaves behind. -/
theorem absorb_attached (chain : Chain) (h : Attached s)
    (hview : out.1.view = s.tab.view) : Attached (s.absorb chain out) where
  logicIn := by
    intro e he
    rcases mem_append.mp he with hold | hnew
    · exact (h.logicIn e hold).trans hview.symm
    · obtain ⟨m, -, rfl⟩ := mem_map.mp hnew
      rfl
  logicOut view response hr := (h.logicOut view response hr).trans hview.symm
  acting a ha := (h.acting a ha).trans hview.symm
  uses := h.uses

/-- With nothing outstanding, any document may be committed. -/
theorem absorb_replaced (chain : Chain)
    (hin : s.logicIn = []) (hout : ¬∃ view response, (view, .ok response) ∈ s.logicOut)
    (hacting : s.acting = []) (huses : ∀ p ∈ s.uses, p.1 = p.2) : Attached (s.absorb chain out) where
  logicIn := by
    intro e he
    rw [absorb, hin, nil_append] at he
    obtain ⟨m, -, rfl⟩ := mem_map.mp he
    rfl
  logicOut view response hr := absurd ⟨view, response, hr⟩ hout
  acting := by
    intro a ha
    rw [absorb, hacting] at ha
    cases ha
  uses := huses

/-- Only the log of answers and the count of chains depend on the outcome. -/
theorem settle_attached_iff {chain : Chain} {answers : Bool} {outcome : NavigationOutcome} :
    Attached (s.settle chain answers out outcome) ↔ Attached (s.absorb chain out) := by
  cases outcome <;> exact ⟨fun h => ⟨h.1, h.2, h.3, h.4⟩, fun h => ⟨h.1, h.2, h.3, h.4⟩⟩

/-- A commit that retains the document is none. -/
theorem commits_view_of_retains {tab : TabState F} {ctx : WindowCtx}
    {url source : String} (h : Does host tab ctx out (.commits url source))
    (hretains : Retains host tab url source) : out.1.view = tab.view := by
  obtain ⟨tab', hview, rfl⟩ := h
  obtain ⟨hnot, hurl, hkey, hquota⟩ := hretains
  rcases (handleNavigateSuccess_cases host tab' ctx url source).2 with
    ⟨-, hcommit, -⟩ | ⟨loaded, hinstalls, -⟩
  · rw [hcommit, ← hview]
    simp only [TabState.view, View.mk.injEq] at hurl hkey hquota hview ⊢
    simp only [TabState.commitOrigin, VariableStore.setRuntime_interner, hview, ← hkey, ← hquota,
      hurl, and_self]
  · exact absurd hinstalls (hnot loaded)

theorem settle_attached {chain : Chain} {answers : Bool}
    {outcome : NavigationOutcome} {tab : TabState F} {ctx : WindowCtx}
    (h : Attached s) (htab : tab.view = s.tab.view) (hout : Does host tab ctx out outcome)
    (hwaits : ∀ url source, outcome = .commits url source →
      (s.logicIn = [] ∧ (¬∃ view response, (view, .ok response) ∈ s.logicOut) ∧ s.acting = []) ∨
        Retains host tab url source) : Attached (s.settle chain answers out outcome) := by
  rw [settle_attached_iff]
  cases outcome with
  | stays | dispatches => exact absorb_attached chain h (hout.1.trans htab)
  | commits url source =>
    rcases hwaits url source rfl with ⟨hin, hlogicOut, hacting⟩ | hretains
    · exact absorb_replaced chain hin hlogicOut hacting h.uses
    · exact absorb_attached chain h ((commits_view_of_retains hout hretains).trans htab)

/-- Taking the next action of a response uses the document that caused it. -/
theorem took_attached {view : View} {gesture : Bool} {action : RuntimeAction}
    {acting : List (View × Bool × RuntimeAction)} (h : Attached s)
    (hacting : s.acting = (view, gesture, action) :: acting) : Attached (s.took view acting) where
  logicIn := h.logicIn
  logicOut := h.logicOut
  acting a ha := h.acting a (by simp [hacting, show a ∈ acting from ha])
  uses p hp := by
    rcases mem_append.mp hp with hold | hnew
    · exact h.uses p hold
    · obtain rfl := mem_singleton.mp hnew
      exact h.acting (view, gesture, action) (by simp [hacting])

theorem step_attached (h : Attached s) (hgood : s.WaitsForResponses m) (hstep : s.step m = some t) :
    Attached t := by
  cases moves_of_step hstep with
  | nothing => exact h
  | event hview he hdoes =>
    refine absorb_attached _ h hview
  | navigation hhost hacting hdoes hout =>
    refine settle_attached h rfl hout fun url source hcommits => ?_
    refine (hgood _ url source hhost (hdoes.trans hcommits)).imp_left fun hnot => ?_
    simp only [Outstanding, not_or, not_not] at hnot
    exact ⟨hnot.1, hnot.2.1, hacting⟩
  | drainError hlogicOut =>
    exact ⟨h.logicIn, fun view response hr => h.logicOut view response (by simp [hlogicOut, hr]),
      h.acting, h.uses⟩
  | drainOk hlogicOut =>
    rename_i view response logicOut
    have hview : view = s.tab.view := h.logicOut view response (by simp [hlogicOut])
    refine ⟨?_, ?_, ?_, ?_⟩
    · simpa using h.logicIn
    · intro v r hr
      simpa using h.logicOut v r (by simp [hlogicOut, hr])
    · intro a ha
      obtain ⟨action, -, rfl⟩ := mem_map.mp ha
      simpa using hview
    · intro p hp
      rcases mem_append.mp hp with hold | hnew
      · exact h.uses p hold
      · obtain rfl := mem_singleton.mp hnew
        exact hview
  | actNavigate hacting hout =>
    refine settle_attached (took_attached h hacting) rfl hout fun url source hcommits => ?_
    refine (hgood _ url source rfl hcommits).imp_left fun hnot => ?_
    simp only [Outstanding, not_or, not_not, hacting, tail_cons] at hnot
    exact hnot
  | act hacting haction =>
    exact absorb_attached _ (took_attached h hacting)
      (executeAction_sends _ s.tab s.ctx _ _ haction).1
  | result hresults hacting =>
    rename_i host ticket r results
    have hreceived : Attached (s.received results) := ⟨h.1, h.2, h.3, h.4⟩
    have hout : Does host s.tab s.ctx _ _ := processNetworkResult_does s r
    have hsettle : Attached ((s.received results).settle ticket.chain ticket.isNavigation _ _) :=
      settle_attached hreceived rfl hout fun url source hcommits => by
        refine (hgood host url source rfl ?_).imp_left fun hnot => ?_
        · simpa [does, hresults] using hcommits
        · simp only [Outstanding, not_or, not_not] at hnot
          exact ⟨hnot.1, hnot.2.1, hacting⟩
    exact ⟨hsettle.1, hsettle.2, hsettle.3, hsettle.4⟩
  | answer he =>
    rename_i i e out
    refine ⟨fun e' he' => h.logicIn e' (mem_of_mem_eraseIdx he'), ?_, h.acting, h.uses⟩
    intro view response hr
    rcases mem_append.mp hr with hold | hnew
    · exact h.logicOut view response hold
    · have hmem := h.logicIn e (mem_of_getElem? he)
      cases out with
      | none => cases hnew
      | some r => grind
  | complete hcmd hr => exact ⟨h.1, h.2, h.3, h.4⟩

theorem start_attached (host : Host) (tab : TabState F) (ctx : WindowCtx) :
    Attached (start host tab ctx) where
  logicIn e he := by
    obtain rfl := mem_singleton.mp he
    rfl
  logicOut _ _ hr := nomatch hr
  acting _ ha := nomatch ha
  uses _ hp := nomatch hp

end TabSystem

/-- Every response is applied to the document that caused it, and its actions are executed under
that document's names, URL and policy, if commits wait for what is outstanding. -/
theorem responses_stay_attached {F : Frontend} (host : Host) (tab : TabState F) (ctx : WindowCtx)
    {s : TabSystem F}
    (h : Transition.Reaches TabSystem.step TabSystem.WaitsForResponses (.start host tab ctx) s) :
    ∀ p ∈ s.uses, p.1 = p.2 :=
  (h.invariant (I := TabSystem.Attached) (TabSystem.start_attached host tab ctx)
    fun _ _ _ hs hgood hstep => TabSystem.step_attached hs hgood hstep).uses

/-! ## A response in flight while a document commits -/

def storingResponse : WorkerResponse := ⟨⟨[]⟩, [.storeLocal "k" (.string "v")], true⟩

theorem responses_stay_attached_drain :
    ∃ s, Transition.run TabSystem.step plainStart [.answer 0 (some (.ok emptyResponse)), .drain] = some s ∧
      s.uses.length = 1 ∧ ∀ p ∈ s.uses, p.1 = p.2 := by
  refine ⟨_, rfl, rfl, responses_stay_attached plainHost
    (plainTab plainFrontend () "mizu://a.mizu/") plainCtx (Transition.reaches_of_run
      [.answer 0 (some (.ok emptyResponse)), .drain] rfl fun s m hm host url source hhost => ?_)⟩
  -- Neither move commits.
  have hno : m.host? = none := by
    rcases mem_cons.mp hm with rfl | hm
    · rfl
    · obtain rfl := mem_singleton.mp hm
      rfl
  simp [hno] at hhost

/-- The user clicks, and opens `b.mizu` before the window has taken the answer: the value is stored
for `b.mizu`. -/
theorem response_outlives_document :
    ¬∀ (F : Frontend) (host : Host) (tab : TabState F) (ctx : WindowCtx) (s : TabSystem F),
      Transition.Reaches TabSystem.step (fun _ _ => True) (.start host tab ctx) s →
        ∀ p ∈ s.uses, p.1 = p.2 := by
  intro h
  obtain ⟨s, hreaches, hmoved⟩ := Transition.exists_reaches_of_run TabSystem.step (fun _ _ => True)
    plainStart
    [.answer 0 (some (.ok emptyResponse)), .drain, .user (.click 0),
      .answer 0 (some (.ok storingResponse)), .openUrl plainHost "mizu://b.mizu/",
      .complete 0 (.source blankSource), .result plainHost, .drain, .act plainHost]
    (p := fun s => s.uses.any fun p => p.1.committedUrl != p.2.committedUrl) (by decide +kernel)
  obtain ⟨p, hp, hne⟩ := any_eq_true.mp hmoved
  have heq := h plainFrontend plainHost (plainTab plainFrontend () "mizu://a.mizu/") plainCtx s
    hreaches p hp
  simp [heq] at hne

end Mizu
