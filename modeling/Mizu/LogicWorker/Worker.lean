import Mizu.LogicWorker.Session

/-!
# The in-process worker

One thread serves every tab: `LogicWorker.round` is one round of its loop.
-/

namespace Mizu

/-- `MAX_WORKER_TABS`. -/
def maxWorkerTabs : Nat := 32

structure LogicWorker where
  tabs : FxHashMap TabId TabSession

namespace LogicWorker

def new : LogicWorker := ⟨∅⟩

/-- What a round sends back, if anything. -/
abbrev Answer := Option (TabId × Except MizuError WorkerResponse)

/-- Hands an event to the session of its tab. -/
def deliver (platform : Platform) (w : LogicWorker) (tab : TabId) (session : TabSession) (event : UiEvent) :
    LogicWorker × Answer :=
  let (response, session) := session.applyEvent platform event
  (⟨w.tabs.insert tab session⟩, response.map (tab, ·))

/-- One round of `run_loop`: a reload creates the state of its tab, up to the limit, and a close destroys
it; any other event of an unknown tab is dropped. -/
def round (platform : Platform) (w : LogicWorker) (tab : TabId) (event : UiEvent) : LogicWorker × Answer :=
  match event with
  | .closeTab => (⟨w.tabs.erase tab⟩, none)
  | .reload payload =>
    match w.tabs.lookup tab with
    | some session => w.deliver platform tab session (.reload payload)
    | none =>
      if maxWorkerTabs ≤ w.tabs.keys.card then (w, none)
      else w.deliver platform tab .new (.reload payload)
  | event =>
    match w.tabs.lookup tab with
    | some session => w.deliver platform tab session event
    | none => (w, none)

/-! ## Whose state is held -/

section Tabs

variable (platform : Platform) (w : LogicWorker) (tab tab' : TabId)

theorem mem_deliver (session : TabSession) (event : UiEvent) :
    tab' ∈ (w.deliver platform tab session event).1.tabs ↔ tab' = tab ∨ tab' ∈ w.tabs :=
  Finmap.mem_insert

theorem mem_round_reload (payload : ReloadPayload) :
    tab' ∈ (w.round platform tab (.reload payload)).1.tabs ↔
      tab' ∈ w.tabs ∨ tab' = tab ∧ w.tabs.keys.card < maxWorkerTabs := by
  unfold round
  dsimp only
  cases hlookup : w.tabs.lookup tab with
  | some session =>
    have hmem : tab ∈ w.tabs := Finmap.mem_iff.mpr ⟨session, hlookup⟩
    rw [mem_deliver]
    constructor
    · rintro (rfl | h)
      · exact .inl hmem
      · exact .inl h
    · rintro (h | ⟨rfl, -⟩)
      · exact .inr h
      · exact .inl rfl
  | none =>
    dsimp only
    split
    · rename_i hfull
      refine (or_iff_left ?_).symm
      omega
    · rename_i hroom
      rw [mem_deliver, or_comm]
      refine or_congr_right (iff_self_and.mpr fun _ => ?_)
      omega

theorem mem_round_other {event : UiEvent} (hclose : event ≠ .closeTab)
    (hreload : ∀ payload, event ≠ .reload payload) :
    tab' ∈ (w.round platform tab event).1.tabs ↔ tab' ∈ w.tabs := by
  have hround : w.round platform tab event =
      match w.tabs.lookup tab with
      | some session => w.deliver platform tab session event
      | none => (w, none) := by
    cases event with
    | closeTab => exact absurd rfl hclose
    | reload payload => exact absurd rfl (hreload payload)
    | _ => rfl
  rw [hround]
  cases hlookup : w.tabs.lookup tab with
  | none => exact Iff.rfl
  | some session =>
    rw [mem_deliver]
    refine or_iff_right_of_imp ?_
    rintro rfl
    exact Finmap.mem_iff.mpr ⟨session, hlookup⟩

theorem mem_round {event : UiEvent} (hclose : event ≠ .closeTab) :
    tab' ∈ (w.round platform tab event).1.tabs ↔
      tab' ∈ w.tabs ∨
        tab' = tab ∧ (∃ payload, event = .reload payload) ∧ w.tabs.keys.card < maxWorkerTabs := by
  by_cases hreload : ∃ payload, event = .reload payload
  · obtain ⟨payload, rfl⟩ := hreload
    rw [w.mem_round_reload platform tab tab' payload]
    simp
  · rw [w.mem_round_other platform tab tab' hclose fun payload he => hreload ⟨payload, he⟩]
    simp [hreload]

end Tabs

end LogicWorker

end Mizu
