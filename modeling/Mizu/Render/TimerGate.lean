import Mizu.Render.TabSystem

/-!
# The gate of the timer ticks

A tick counts as in flight until some response for the tab is drained, whatever event it answers.

* `tick_accounts`: what the counter then bounds, in every run.
* `outstanding_exceeds`: more ticks than the cap can be unanswered.
-/

namespace Mizu

open List Option

/-- Events that the gate admits. -/
def UiEvent.isTick : UiEvent → Bool
  | .rootTimer _ => true
  | _ => false

def TabMove.isTick : TabMove → Bool
  | .tick _ => true
  | _ => false

variable (host : Host)

namespace TabState

variable {F : Frontend}

/-- What an operation does to the counter, seen by the generation counter that every document that is
installed moves. -/
structure Gated (tab : TabState F) (ctx : WindowCtx) (out : TabState F × WindowCtx) : Prop where
  noTick : ∀ m ∈ out.2.logicTx, m ∉ ctx.logicTx → m.2.isTick = false
  generation : ctx.nextA11yEpoch ≤ out.2.nextA11yEpoch
  kept : out.2.nextA11yEpoch = ctx.nextA11yEpoch → out.1.inflightTimerTicks = tab.inflightTimerTicks
  installed : ctx.nextA11yEpoch < out.2.nextA11yEpoch → out.1.inflightTimerTicks = 0

variable {tab tab' : TabState F} {ctx ctx' : WindowCtx} {out : TabState F × WindowCtx}

/-- An operation that installs nothing and sends no tick. -/
theorem Gated.of_eq (hcount : out.1.inflightTimerTicks = tab.inflightTimerTicks)
    (hgeneration : out.2.nextA11yEpoch = ctx.nextA11yEpoch)
    (hnoTick : ∀ m ∈ out.2.logicTx, m ∉ ctx.logicTx → m.2.isTick = false) : Gated tab ctx out where
  noTick := hnoTick
  generation := hgeneration.ge
  kept _ := hcount
  installed h := absurd h (by omega)

theorem Gated.of_tab (h : Gated tab' ctx out)
    (hcount : tab'.inflightTimerTicks = tab.inflightTimerTicks) : Gated tab ctx out :=
  ⟨h.noTick, h.generation, fun hkept => (h.kept hkept).trans hcount, h.installed⟩

theorem sendLogic_new {id : TabId} {event : UiEvent} {m : TabId × UiEvent}
    (hm : m ∈ (ctx.sendLogic id event).logicTx) (hnew : m ∉ ctx.logicTx) : m = (id, event) := by
  grind [WindowCtx.sendLogic]

theorem sendLogic_generation (ctx : WindowCtx) (id : TabId) (event : UiEvent) :
    (ctx.sendLogic id event).nextA11yEpoch = ctx.nextA11yEpoch := by
  unfold WindowCtx.sendLogic
  split <;> rfl

theorem sendLogic_gated (tab : TabState F) (ctx : WindowCtx) {event : UiEvent} (id : TabId)
    (hevent : event.isTick = false) : Gated tab ctx (tab, ctx.sendLogic id event) :=
  .of_eq rfl (sendLogic_generation ctx id event) fun m hm hnew => by
    rw [sendLogic_new hm hnew]
    exact hevent

theorem restoreScroll_inflight (tab : TabState F) :
    tab.restoreScroll.inflightTimerTicks = tab.inflightTimerTicks := by
  unfold restoreScroll
  split <;> rfl

theorem handleNavigateSuccess_gated (tab : TabState F) (ctx : WindowCtx) (url source : String) :
    Gated tab ctx (tab.handleNavigateSuccess host ctx url source) := by
  refine handleNavigateSuccess_rule host tab ctx (P := Gated tab ctx)
    (fun _ => .of_eq rfl rfl fun m hm hnew => absurd hm hnew)
    (fun _ _ => .of_eq rfl rfl fun m hm hnew => absurd hm hnew) ?_
  intro log loaded layout
  have hgeneration : ((tab.committed host ctx url loaded layout).triggerLogicReload host
      { ctx.logErrors log with nextA11yEpoch := ctx.nextA11yEpoch + 1 }).nextA11yEpoch =
        ctx.nextA11yEpoch + 1 := sendLogic_generation _ _ _
  refine ⟨fun m hm hnew => ?_, ?_, fun hkept => ?_, fun _ => ?_⟩
  · rw [sendLogic_new hm hnew]
    rfl
  · exact (Nat.le_succ _).trans hgeneration.ge
  · exact absurd (hgeneration.symm.trans hkept) (Nat.succ_ne_self _)
  · rw [restoreScroll_inflight]
    rfl

theorem navigateToUrl_gated (tab : TabState F) (ctx : WindowCtx) (url : String)
    (initiator : NavigationInitiator) : Gated tab ctx (tab.navigateToUrl host ctx url initiator) := by
  have hclear : (tab.clearScroll initiator).inflightTimerTicks = tab.inflightTimerTicks := by
    obtain ⟨scroll, h⟩ := tab.clearScroll_eq initiator
    rw [h]
  have hdepart : ((tab.clearScroll initiator).depart initiator).inflightTimerTicks =
      tab.inflightTimerTicks := by
    rw [depart_eq]
    exact hclear
  have hquiet (m : TabId × UiEvent) (hm : m ∈ ctx.logicTx) (hnew : m ∉ ctx.logicTx) :
      m.2.isTick = false := absurd hm hnew
  obtain ⟨out, outcome, hout, -, hdeparts⟩ := tab.exists_departs host ctx url initiator
  rw [hout]
  cases hdeparts with
  | blank => exact (handleNavigateSuccess_gated host _ ctx url blankSource).of_tab hclear
  | refused => exact .of_eq rfl rfl hquiet
  | unread | dispatched => exact .of_eq hdepart rfl hquiet
  | opened => exact (handleNavigateSuccess_gated host _ ctx _ _).of_tab hdepart

theorem navigateBack_gated (tab : TabState F) (ctx : WindowCtx) :
    Gated tab ctx (tab.navigateBack host ctx) := by
  unfold navigateBack
  split
  · exact .of_eq rfl rfl fun m hm hnew => absurd hm hnew
  · exact (navigateToUrl_gated host _ ctx _ _).of_tab rfl

theorem navigateForward_gated (tab : TabState F) (ctx : WindowCtx) :
    Gated tab ctx (tab.navigateForward host ctx) := by
  unfold navigateForward
  split
  · exact .of_eq rfl rfl fun m hm hnew => absurd hm hnew
  · exact (navigateToUrl_gated host _ ctx _ _).of_tab rfl

theorem executeAction_gated (tab : TabState F) (ctx : WindowCtx) (gesture : Bool)
    (action : RuntimeAction) : Gated tab ctx (tab.executeAction host ctx gesture action) := by
  have hquiet (m : TabId × UiEvent) (hm : m ∈ ctx.logicTx) (hnew : m ∉ ctx.logicTx) :
      m.2.isTick = false := absurd hm hnew
  cases action with
  | navigate url => exact (navigateToUrl_gated host (tab.setLoading true) ctx url _).of_tab rfl
  | copyToClipboard nodeId => exact .of_eq rfl rfl hquiet
  | resolvedCall method url payload sym format headers =>
    simp only [executeAction, executeCapabilityAction]
    split
    · exact .of_eq rfl rfl hquiet
    · split
      · exact .of_eq rfl rfl hquiet
      · exact .of_eq rfl rfl hquiet
  | storeLocal | downloadMedia =>
    simp only [executeAction, executeCapabilityAction]
    split
    · exact .of_eq rfl rfl hquiet
    · exact .of_eq rfl rfl hquiet
  | getSystemTime sym =>
    simp only [executeAction, executeCapabilityAction]
    split
    · exact .of_eq rfl rfl hquiet
    · exact sendLogic_gated tab ctx tab.id rfl
  | _ => exact .of_eq rfl rfl hquiet

theorem processNetworkResult_gated (tab : TabState F) (ctx : WindowCtx) (r : NetworkResult) :
    Gated tab ctx (tab.processNetworkResult host ctx r) := by
  cases r with
  | success id targetVar data =>
    refine .of_eq rfl ((sendLogic_generation _ _ _).trans (sendLogic_generation _ _ _)) fun m hm hnew => ?_
    by_cases hfirst : m ∈ (ctx.sendLogic tab.id (.updateVariable targetVar data)).logicTx
    · rw [sendLogic_new hfirst hnew]
      rfl
    · rw [sendLogic_new hm hfirst]
      rfl
  | fetchFailed id targetVar e => exact sendLogic_gated tab ctx tab.id rfl
  | error id e => exact (sendLogic_gated (tab.setLoading false) ctx tab.id rfl).of_tab rfl
  | navigateSuccess id url source => exact handleNavigateSuccess_gated host tab ctx url source
  | navigationRedirect id newUrl initiator =>
    unfold processNetworkResult
    by_cases hgo : tab.redirectCount + 1 ≤ host.maxRedirects
    · simp only [registerRedirect, hgo, decide_true]
      exact (navigateToUrl_gated host _ ctx newUrl initiator.intoRedirectOf).of_tab rfl
    · simp only [registerRedirect, hgo, decide_false]
      exact (sendLogic_gated _ ctx tab.id rfl).of_tab rfl

end TabState

namespace TabSystem

variable {F : Frontend} {s t : TabSystem F} {m : TabMove}

/-- What a move of the window, other than taking a response, does to the gate: it may send events that
are no ticks, and install a document. -/
structure PassesGate (s t : TabSystem F) (sent : List (TabState.View × UiEvent)) : Prop where
  logicIn : t.logicIn = s.logicIn ++ sent
  logicOut : t.logicOut = s.logicOut
  noTick : ∀ e ∈ sent, e.2.isTick = false
  generation : s.ctx.nextA11yEpoch ≤ t.ctx.nextA11yEpoch
  kept : t.ctx.nextA11yEpoch = s.ctx.nextA11yEpoch →
    t.tab.inflightTimerTicks = s.tab.inflightTimerTicks
  installed : s.ctx.nextA11yEpoch < t.ctx.nextA11yEpoch → t.tab.inflightTimerTicks = 0

theorem PassesGate.of_gated {out : TabState F × WindowCtx} (h : TabState.Gated s.tab s.ctx.cleared out)
    (htab : t.tab = out.1) (hctx : t.ctx = out.2)
    (hlogicIn : t.logicIn = s.logicIn ++ out.2.logicTx.map fun m => (out.1.view, m.2))
    (hlogicOut : t.logicOut = s.logicOut) :
    PassesGate s t (out.2.logicTx.map fun m => (out.1.view, m.2)) where
  logicIn := hlogicIn
  logicOut := hlogicOut
  noTick e he := by
    obtain ⟨m, hm, rfl⟩ := mem_map.mp he
    exact h.noTick m hm not_mem_nil
  generation := hctx ▸ h.generation
  kept hkept := htab ▸ h.kept (hctx ▸ hkept)
  installed hinstalled := htab ▸ h.installed (hctx ▸ hinstalled)

theorem PassesGate.quiet (hlogicIn : t.logicIn = s.logicIn) (hlogicOut : t.logicOut = s.logicOut)
    (htab : t.tab = s.tab) (hctx : t.ctx = s.ctx) : PassesGate s t [] where
  logicIn := by rw [hlogicIn, append_nil]
  logicOut := hlogicOut
  noTick _ he := nomatch he
  generation := by rw [hctx]
  kept _ := by rw [htab]
  installed h := absurd h (by rw [hctx]; exact lt_irrefl _)

/-- The tick that the gate admits, which is lost if the worker is gone. -/
theorem step_tick {index : Nat} (hstep : s.step (.tick index) = some t) :
    s.tab.inflightTimerTicks < TabState.maxInflightTimerTicks ∧
      t.tab.inflightTimerTicks = s.tab.inflightTimerTicks + 1 ∧
      t.ctx.nextA11yEpoch = s.ctx.nextA11yEpoch ∧ t.logicOut = s.logicOut ∧
      (t.logicIn = s.logicIn ∨ ∃ view, t.logicIn = s.logicIn ++ [(view, .rootTimer index)]) := by
  simp only [step, TabState.mayDispatchTimerTick] at hstep
  split at hstep
  · rename_i hgate
    split at hgate
    · cases hgate
    · rename_i hlt
      cases hgate
      cases hstep
      refine ⟨by omega, rfl, TabState.sendLogic_generation _ _ _, rfl, ?_⟩
      simp only [send, absorb, WindowCtx.sendLogic]
      split
      · exact .inr ⟨_, rfl⟩
      · exact .inl (append_nil _)
  · cases hstep

theorem PassesGate.settled {chain : Chain} {answers : Bool} {out : TabState F × WindowCtx}
    {outcome : NavigationOutcome} (h : TabState.Gated s.tab s.ctx.cleared out) :
    PassesGate s (s.settle chain answers out outcome) (out.2.logicTx.map fun m => (out.1.view, m.2)) :=
  .of_gated h (settle_tab _ _ _) (settle_ctx _ _ _) (settle_logicIn _ _ _) (settle_logicOut _ _ _)

theorem step_passesGate (hstep : s.step m = some t) (htick : ∀ index, m ≠ .tick index)
    (hdrain : m ≠ .drain) (hanswer : ∀ i out, m ≠ .answer i out) : ∃ sent, PassesGate s t sent := by
  cases m with
  | user event =>
    simp only [step] at hstep
    split at hstep
    · cases hstep
      exact ⟨_, .of_gated (TabState.sendLogic_gated s.tab s.ctx.cleared s.tab.id rfl) rfl rfl rfl rfl⟩
    · cases hstep
      exact ⟨_, .of_gated (TabState.sendLogic_gated s.tab s.ctx.cleared s.tab.id rfl) rfl rfl rfl rfl⟩
    · cases hstep
  | tick index => exact absurd rfl (htick index)
  | openUrl host url =>
    simp only [step] at hstep
    split at hstep
    · cases hstep
      exact ⟨_, .settled (TabState.navigateToUrl_gated host s.tab s.ctx.cleared url .userGesture)⟩
    · cases hstep
  | back host =>
    simp only [step, historyStep] at hstep
    split at hstep
    · split at hstep
      · cases hstep
        exact ⟨[], .quiet rfl rfl rfl rfl⟩
      · cases hstep
        exact ⟨_, .settled (TabState.navigateBack_gated host s.tab s.ctx.cleared)⟩
    · cases hstep
  | forward host =>
    simp only [step, historyStep] at hstep
    split at hstep
    · split at hstep
      · cases hstep
        exact ⟨[], .quiet rfl rfl rfl rfl⟩
      · cases hstep
        exact ⟨_, .settled (TabState.navigateForward_gated host s.tab s.ctx.cleared)⟩
    · cases hstep
  | drain => exact absurd rfl hdrain
  | act host =>
    simp only [step, act] at hstep
    split at hstep
    · cases hstep
    · rename_i view gesture action acting hacting
      have hgated := TabState.executeAction_gated host s.tab s.ctx.cleared gesture action
      split at hstep
      · cases hstep
        exact ⟨_, .of_gated hgated (settle_tab _ _ _) (settle_ctx _ _ _) (settle_logicIn _ _ _)
          (settle_logicOut _ _ _)⟩
      · cases hstep
        exact ⟨_, .of_gated hgated rfl rfl rfl rfl⟩
  | result host =>
    simp only [step, result] at hstep
    split at hstep
    · split at hstep
      · cases hstep
      · rename_i ticket r results hresults
        cases hstep
        have hgated := TabState.processNetworkResult_gated host s.tab s.ctx.cleared r
        exact ⟨_, .of_gated hgated (settle_tab _ _ _) (settle_ctx _ _ _) (settle_logicIn _ _ _)
          (settle_logicOut _ _ _)⟩
    · cases hstep
  | answer i out => exact absurd rfl (hanswer i out)
  | complete i c =>
    simp only [step] at hstep
    split at hstep
    · cases hstep
    · obtain ⟨r, -, rfl⟩ := map_eq_some_iff.mp hstep
      exact ⟨[], .quiet rfl rfl rfl rfl⟩

/-- Every response that is drained frees one place. -/
theorem step_drain (hstep : s.step .drain = some t) :
    t.tab.inflightTimerTicks = s.tab.inflightTimerTicks - 1 ∧ t.logicIn = s.logicIn ∧
      ∃ out, s.logicOut = out :: t.logicOut := by
  simp only [step] at hstep
  split at hstep
  · unfold drain at hstep
    split at hstep
    · cases hstep
    · cases hstep
      exact ⟨rfl, rfl, _, ‹_›⟩
    · cases hstep
      exact ⟨rfl, rfl, _, ‹_›⟩
  · cases hstep

end TabSystem

/-! ## Runs -/

inductive GateMove where
  | move (m : TabMove)
  /-- A report about the worker, which answers no event. -/
  | report (e : MizuError)

/-- The machine, and which of the events and responses in its queues belong to ticks of the document in
the tab. What the counter cannot know is counted since that document was installed. -/
structure TickGate (F : Frontend) where
  sys : TabSystem F
  inTicks : List Bool
  outTicks : List Bool
  /-- Responses drained that answer no tick of the document. -/
  others : Nat
  /-- Events that nothing will answer. -/
  lost : Nat

namespace TickGate

variable {F : Frontend} {g g' : TickGate F} {m : TabMove}

/-- A tab as it is constructed, with nothing in flight. -/
def start (host : Host) (tab : TabState F) (ctx : WindowCtx) : TickGate F where
  sys := .start host { tab with inflightTimerTicks := 0 } ctx
  inTicks := [false]
  outTicks := []
  others := 0
  lost := 0

/-- Takes over a move of the window that sent events. -/
def sends (g : TickGate F) (m : TabMove) (t : TabSystem F) : TickGate F :=
  let sent := t.logicIn.drop g.sys.logicIn.length
  let unsent := if m.isTick && sent.isEmpty then 1 else 0
  if g.sys.ctx.nextA11yEpoch < t.ctx.nextA11yEpoch then
    { sys := t
      inTicks := g.inTicks.map (fun _ => false) ++ sent.map (·.2.isTick)
      outTicks := g.outTicks.map fun _ => false
      others := 0
      lost := 0 }
  else
    { g with
      sys := t
      inTicks := g.inTicks ++ sent.map (·.2.isTick)
      lost := g.lost + unsent }

def step (g : TickGate F) : GateMove → Option (TickGate F)
  | .report e =>
    some
      { g with
        sys := { g.sys with logicOut := g.sys.logicOut ++ [(g.sys.tab.view, .error e)] }
        outTicks := g.outTicks ++ [false] }
  | .move (.answer i out) =>
    (g.sys.step (.answer i out)).map fun t =>
      { g with
        sys := t
        inTicks := g.inTicks.eraseIdx i
        outTicks := g.outTicks ++ (out.map fun _ => g.inTicks[i]?.getD false).toList
        lost := g.lost + if out.isNone then 1 else 0 }
  | .move .drain =>
    (g.sys.step .drain).map fun t =>
      { g with
        sys := t
        outTicks := g.outTicks.drop 1
        others := g.others + if g.outTicks.head? = some true then 0 else 1 }
  | .move m => (g.sys.step m).map (g.sends m)

/-- What the counter bounds. -/
structure Accounts (g : TickGate F) : Prop where
  capped : g.sys.tab.inflightTimerTicks ≤ TabState.maxInflightTimerTicks
  outstanding : g.inTicks.count true ≤ TabState.maxInflightTimerTicks + g.others
  owed : g.sys.tab.inflightTimerTicks ≤ g.sys.logicIn.length + g.sys.logicOut.length + g.lost
  reopens : ∀ t, g.step (.move .drain) = some t → t.sys.tab.mayDispatchTimerTick.1 = true

/-- Each tick of the document that is still on its way is in flight, unless another response freed its
place; and what is in flight is on its way, or lost. -/
structure Inv (g : TickGate F) : Prop where
  inLength : g.inTicks.length = g.sys.logicIn.length
  outLength : g.outTicks.length = g.sys.logicOut.length
  capped : g.sys.tab.inflightTimerTicks ≤ TabState.maxInflightTimerTicks
  ticks : g.inTicks.count true + g.outTicks.count true ≤ g.sys.tab.inflightTimerTicks + g.others
  owed : g.sys.tab.inflightTimerTicks ≤ g.sys.logicIn.length + g.sys.logicOut.length + g.lost

theorem Inv.accounts (h : Inv g) : Accounts g where
  capped := h.capped
  outstanding := by
    have hticks := h.ticks
    have hcapped := h.capped
    omega
  owed := h.owed
  reopens t hstep := by
    obtain ⟨u, hu, rfl⟩ := map_eq_some_iff.mp hstep
    have hcount := (TabSystem.step_drain hu).1
    have hcapped := h.capped
    have hlt : u.tab.inflightTimerTicks < TabState.maxInflightTimerTicks := by
      rw [hcount]
      unfold TabState.maxInflightTimerTicks at hcapped ⊢
      omega
    rw [TabState.mayDispatchTimerTick, if_neg (Nat.not_le.mpr hlt)]

/-- What is taken out of a queue is counted once. -/
theorem count_eraseIdx {ticks : List Bool} {i : Nat} {tick : Bool} (h : ticks[i]? = some tick) :
    ticks.count true = (ticks.eraseIdx i).count true + if tick then 1 else 0 := by
  grind [getElem_cons_eraseIdx_perm]

theorem inv_report {e : MizuError} (h : Inv g) (hstep : g.step (.report e) = some g') : Inv g' := by
  cases hstep
  obtain ⟨hin, hout, hcapped, hticks, howed⟩ := h
  refine ⟨hin, by simp [hout], hcapped, by simpa using hticks, ?_⟩
  simp only [length_append, length_singleton]
  omega

theorem inv_answer {i : Nat} {out : Option (Except MizuError WorkerResponse)} (h : Inv g)
    (hstep : g.step (.move (.answer i out)) = some g') : Inv g' := by
  obtain ⟨t, ht, rfl⟩ := map_eq_some_iff.mp hstep
  simp only [TabSystem.step, map_eq_some_iff] at ht
  obtain ⟨e, he, rfl⟩ := ht
  have hlt : i < g.inTicks.length := h.inLength ▸ (List.getElem?_eq_some_iff.mp he).1
  obtain ⟨tick, htick⟩ : ∃ tick, g.inTicks[i]? = some tick := ⟨_, List.getElem?_eq_getElem hlt⟩
  have hcount := count_eraseIdx htick
  obtain ⟨hin, hout, hcapped, hticks, howed⟩ := h
  have hlength : (g.sys.logicIn.eraseIdx i).length = g.sys.logicIn.length - 1 :=
    length_eraseIdx_of_lt (hin ▸ hlt)
  have hlength' : (g.inTicks.eraseIdx i).length = g.inTicks.length - 1 := length_eraseIdx_of_lt hlt
  cases out with
  | none =>
    refine ⟨by simp [hlength, hlength', hin], by simp [hout], hcapped, ?_, ?_⟩
    · simp only [map_none, toList_none, append_nil]
      omega
    · grind
  | some response =>
    refine ⟨by simp [hlength, hlength', hin], by simp [hout], hcapped, ?_, ?_⟩
    · grind
    · grind

theorem inv_drain (h : Inv g) (hstep : g.step (.move .drain) = some g') : Inv g' := by
  obtain ⟨t, ht, rfl⟩ := map_eq_some_iff.mp hstep
  obtain ⟨hcount, hlogicIn, out, hlogicOut⟩ := TabSystem.step_drain ht
  obtain ⟨hin, hout, hcapped, hticks, howed⟩ := h
  rw [hlogicOut, length_cons] at hout howed
  cases htags : g.outTicks with
  | nil => simp [htags] at hout
  | cons tick outTicks =>
    rw [htags, count_cons] at hticks
    rw [htags, length_cons] at hout
    refine ⟨by rw [hlogicIn]; exact hin, by simpa [htags] using hout, by rw [hcount]; omega, ?_, ?_⟩
    · grind
    · simp only [hcount, hlogicIn]
      omega

theorem inv_tick {index : Nat} (h : Inv g) (hstep : g.step (.move (.tick index)) = some g') : Inv g' := by
  obtain ⟨t, ht, rfl⟩ := map_eq_some_iff.mp hstep
  obtain ⟨hlt, hcount, hgeneration, hlogicOut, hlogicIn⟩ := TabSystem.step_tick ht
  obtain ⟨hin, hout, hcapped, hticks, howed⟩ := h
  have hkept : ¬g.sys.ctx.nextA11yEpoch < t.ctx.nextA11yEpoch := by omega
  have hcap : t.tab.inflightTimerTicks ≤ TabState.maxInflightTimerTicks := by omega
  simp only [sends, hkept, if_false]
  rcases hlogicIn with hlogicIn | ⟨view, hlogicIn⟩
  · refine ⟨?_, by rw [hlogicOut]; exact hout, hcap, ?_, ?_⟩
    · simpa [hlogicIn] using hin
    · simp only [hlogicIn, drop_length, map_nil, append_nil]
      omega
    · simp only [hlogicIn, hlogicOut, hcount, drop_length, TabMove.isTick, isEmpty_nil,
        Bool.and_true, if_true]
      omega
  · refine ⟨?_, by rw [hlogicOut]; exact hout, hcap, ?_, ?_⟩
    · simpa [hlogicIn] using hin
    · grind
    · grind

theorem inv_sends {t : TabSystem F} {sent : List (TabState.View × UiEvent)} (h : Inv g)
    (hmove : m.isTick = false) (ht : g.sys.PassesGate t sent) : Inv (g.sends m t) := by
  obtain ⟨hlogicIn, hlogicOut, hnoTick, hgeneration, hkept, hinstalled⟩ := ht
  obtain ⟨hin, hout, hcapped, hticks, howed⟩ := h
  have hnone : (sent.map (·.2.isTick)).count true = 0 := by grind [count_eq_zero]
  have hfalse (ticks : List Bool) : (ticks.map fun _ => false).count true = 0 := by
    simp [count_eq_zero]
  unfold sends
  simp only [hlogicIn, drop_left, hmove, Bool.false_and, Bool.false_eq_true, if_false, Nat.add_zero]
  split
  · rename_i hnew
    refine ⟨by simp [hlogicIn, hin], by simp [hlogicOut, hout], ?_, ?_, ?_⟩
    · rw [hinstalled hnew]
      exact Nat.zero_le _
    · rw [count_append, hfalse, hfalse, hnone]
      exact Nat.zero_le _
    · rw [hinstalled hnew]
      exact Nat.zero_le _
  · rename_i hold
    have hsame := hkept (by omega)
    refine ⟨by simp [hlogicIn, hin], by rw [hlogicOut]; exact hout, hsame.trans_le hcapped, ?_, ?_⟩
    · simp only [count_append, hnone]
      omega
    · simp only [hlogicIn, hlogicOut, hsame, length_append]
      omega

theorem inv_step {move : GateMove} (h : Inv g) (hstep : g.step move = some g') : Inv g' := by
  cases move with
  | report e => exact inv_report h hstep
  | move m =>
    cases m with
    | answer i out => exact inv_answer h hstep
    | drain => exact inv_drain h hstep
    | tick index => exact inv_tick h hstep
    | _ =>
      obtain ⟨t, ht, rfl⟩ := map_eq_some_iff.mp hstep
      obtain ⟨sent, hsent⟩ := TabSystem.step_passesGate ht nofun nofun nofun
      exact inv_sends h rfl hsent

theorem inv_start (tab : TabState F) (ctx : WindowCtx) : Inv (start host tab ctx) where
  inLength := rfl
  outLength := rfl
  capped := Nat.zero_le _
  ticks := le_rfl
  owed := Nat.zero_le _

end TickGate

/-- In every run: the counter keeps to the cap; of the document's ticks that are not answered, only as
many exceed the cap as other responses have freed places; the counter is no larger than what is still to be
answered or lost; and every response that is drained opens the gate. -/
theorem tick_accounts {F : Frontend} (host : Host) (tab : TabState F) (ctx : WindowCtx) {g : TickGate F}
    (h : Transition.Reaches TickGate.step (fun _ _ => True) (.start host tab ctx) g) :
    TickGate.Accounts g :=
  (h.invariant (I := TickGate.Inv) (TickGate.inv_start host tab ctx)
    fun _ _ _ hg _ hstep => TickGate.inv_step hg hstep).accounts

/-- A tab whose document has a timer, which sets a variable. -/
def tickingTab : TabState plainFrontend :=
  let one : ExprTree := ⟨⟨[.literal (.int 1)], [], one_valid, emptyPool_valid⟩, 0, Nat.zero_lt_one⟩
  { plainTab plainFrontend () "mizu://a.mizu/" with rootTimers := [⟨.assign "ticked" one⟩] }

/-- As many ticks as the gate admits. -/
def fillGate : List GateMove :=
  List.replicate TabState.maxInflightTimerTicks (.move (.tick 0))

theorem tick_accounts_filled :
    ∃ g : TickGate plainFrontend, g.sys.tab.inflightTimerTicks = 128 ∧ TickGate.Accounts g := by
  obtain ⟨g, hreaches, hfull⟩ := Transition.exists_reaches_of_run TickGate.step (fun _ _ => True)
    (.start plainHost tickingTab plainCtx) fillGate
    (p := fun g => g.sys.tab.inflightTimerTicks == 128) (by decide)
  exact ⟨g, eq_of_beq hfull, tick_accounts plainHost tickingTab plainCtx hreaches⟩

/-- The answer to the reload frees a place that a tick took. -/
theorem outstanding_exceeds :
    ¬∀ (F : Frontend) (host : Host) (tab : TabState F) (ctx : WindowCtx) (g : TickGate F),
      Transition.Reaches TickGate.step (fun _ _ => True) (.start host tab ctx) g →
        g.sys.logicIn.countP (·.2.isTick) ≤ TabState.maxInflightTimerTicks ∧
          g.sys.tab.inflightTimerTicks ≤ g.sys.logicIn.length + g.sys.logicOut.length := by
  intro h
  obtain ⟨g, hreaches, hticks⟩ := Transition.exists_reaches_of_run TickGate.step (fun _ _ => True)
    (.start plainHost tickingTab plainCtx)
    (fillGate ++ [.move (.answer 0 (some (.ok emptyResponse))), .move .drain, .move (.tick 0)])
    (p := fun g => g.sys.logicIn.countP (·.2.isTick) == 129) (by decide +kernel)
  have hle := (h plainFrontend plainHost tickingTab plainCtx g hreaches).1
  rw [eq_of_beq hticks] at hle
  exact absurd hle (by decide)

end Mizu
