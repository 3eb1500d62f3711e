import Mizu.LogicWorker.Worker
import Mizu.WorkerHost.Bridge

/-!
# Which tabs have a worker

The router of the worker processes and the in-process loop side by side, on the same events.

* `lifecycles_agree`: in every run in which a tab without a worker gets nothing but a reload below the limit
  or a close, the router has workers for exactly the tabs whose state the loop holds.
* `Lifecycles.Agree.step_iff`: any other event breaks that.
* `click_starts_worker`: a click starts a worker for a tab that was never loaded.
-/

namespace Mizu

open Transition

structure Lifecycles where
  bridge : Bridge
  worker : LogicWorker

namespace Lifecycles

def start : Lifecycles := ⟨.start, .new⟩

/-- What the in-process loop gets of a move of the bridge: the event that the router takes. A tab whose
process cannot be started or reached counts as closed. -/
def heard (b : Bridge) : BridgeMove → List (TabId × UiEvent)
  | .receive tab event => [(tab, event)]
  | .startFails tab event _ => [(tab, event), (tab, .closeTab)]
  | .sendFails _ =>
    match b.sending with
    | some (worker, _) => ((b.channels[worker]?).map fun c => (c.tab, .closeTab)).toList
    | none => []
  | _ => []

variable (platform : Platform) (debug : WireWorkerError → String)

/-- One move of the bridge, which the loop hears of. -/
def step (s : Lifecycles) (move : BridgeMove) : Option Lifecycles :=
  (s.bridge.step debug move).map fun b =>
    ⟨b, (heard s.bridge move).foldl (fun w (tab, event) => (w.round platform tab event).1) s.worker⟩

/-- A tab without a worker gets a reload below the limit, or a close. -/
def Admits (s : Lifecycles) : BridgeMove → Prop
  | .receive tab event => tab ∈ s.bridge.workers ∨ event = .closeTab ∨
      (∃ payload, event = .reload payload) ∧ s.bridge.workers.keys.card < maxWorkerTabs
  | _ => True

/-- Every process was started for a reload. -/
def Loaded (b : Bridge) : Prop :=
  ∀ c ∈ b.channels, ∃ payload, c.recorded.head? = some (.reload payload)

/-- The two lifecycles agree. -/
structure Agree (s : Lifecycles) : Prop where
  tabs : s.bridge.workers.keys = s.worker.tabs.keys
  capped : s.bridge.workers.keys.card ≤ maxWorkerTabs
  loaded : Loaded s.bridge

end Lifecycles

/-! ## What a move does to the workers -/

namespace Bridge

variable {debug : WireWorkerError → String} {b b' : Bridge} {tab : TabId} {event : UiEvent}

theorem mem_updateChannel {worker : Nat} {c d : Channel} (h : d ∈ (b.updateChannel worker c).channels) :
    d ∈ b.channels ∨ d = c :=
  List.mem_or_eq_of_mem_set h

theorem receive_closeTab (h : b.receive tab .closeTab = some b') :
    b' = { b with workers := b.workers.erase tab } := by
  unfold receive at h
  split at h
  · cases h
  · cases h
    rfl
  · rename_i hclose
    exact absurd rfl hclose

theorem receive_eq (hidle : b.sending = none) (hclose : event ≠ .closeTab) :
    b.receive tab event =
      match (b.workerOf tab).1.channels[(b.workerOf tab).2]? with
      | none => none
      | some c => some { (b.workerOf tab).1.updateChannel (b.workerOf tab).2 (c.accept event) with
          sending := some ((b.workerOf tab).2, event) } := by
  unfold receive
  rw [hidle]
  cases event with
  | closeTab => exact absurd rfl hclose
  | _ => rfl

/-- An event that is not a close goes to the worker of its tab, which is new if the tab had none. -/
theorem receive_event (hclose : event ≠ .closeTab) (h : b.receive tab event = some b') :
    b'.workers.keys = insert tab b.workers.keys ∧
      ∀ d ∈ b'.channels, d ∈ b.channels ∨
        ∃ c, d = c.accept event ∧ (c ∈ b.channels ∨ c = .new tab ∧ tab ∉ b.workers) := by
  cases hsending : b.sending with
  | some send =>
    simp only [receive, hsending] at h
    cases h
  | none =>
    rw [receive_eq hsending hclose] at h
    split at h
    · cases h
    rename_i c hc
    cases h
    unfold workerOf at hc ⊢
    cases hlookup : b.workers.lookup tab with
    | some worker =>
      rw [hlookup] at hc
      have hmem : tab ∈ b.workers.keys := Finmap.mem_keys.mpr (Finmap.mem_iff.mpr ⟨worker, hlookup⟩)
      refine ⟨(Finset.insert_eq_of_mem hmem).symm, fun d hd => ?_⟩
      rcases mem_updateChannel hd with hd | rfl
      · exact .inl hd
      · exact .inr ⟨c, rfl, .inl (List.mem_of_getElem? hc)⟩
    | none =>
      rw [hlookup] at hc
      obtain rfl : c = .new tab := by simpa using hc.symm
      refine ⟨Finset.ext fun tab' => ?_, fun d hd => ?_⟩
      · simp only [Finmap.mem_keys, Finset.mem_insert]
        exact Finmap.mem_insert
      · -- The new worker is the last one.
        have hset : (b.channels ++ [Channel.new tab]).set b.channels.length ((Channel.new tab).accept event) =
            b.channels ++ [(Channel.new tab).accept event] := by simp
        have hd : d ∈ b.channels ++ [(Channel.new tab).accept event] := hset ▸ hd
        rcases List.mem_append.mp hd with hd | hd
        · exact .inl hd
        · grind [Finmap.lookup_eq_none]

/-- A worker that cannot be started is reported, and its tab has none. -/
theorem startFails_cases {e : MizuError} (h : b.step debug (.startFails tab event e) = some b') :
    tab ∉ b.workers ∧ event ≠ .closeTab ∧ b' = { b with ui := b.ui ++ [(tab, .error e)] } := by
  simp only [step] at h
  cases hsending : b.sending with
  | some send =>
    rw [hsending] at h
    cases h
  | none =>
    rw [hsending] at h
    cases hlookup : b.workers.lookup tab with
    | some worker =>
      rw [hlookup] at h
      cases event <;> cases h
    | none => grind [Finmap.lookup_eq_none]

end Bridge

/-! ## Agreement -/

namespace Lifecycles

variable {platform : Platform} {debug : WireWorkerError → String} {s s' : Lifecycles}

theorem Loaded.update {b : Bridge} {worker : Nat} {c c' : Channel} (h : Loaded b)
    (hc : b.channels[worker]? = some c) (hrec : c'.recorded = c.recorded) :
    Loaded (b.updateChannel worker c') := by
  intro d hd
  rcases Bridge.mem_updateChannel hd with hd | rfl
  · exact h d hd
  · rw [hrec]
    exact h c (List.mem_of_getElem? hc)

theorem keys_erase {α β : Type} [DecidableEq α] (m : FxHashMap α β) (a : α) :
    (m.erase a).keys = m.keys.erase a := by
  simp

theorem Agree.closed (platform : Platform) (h : s.Agree) (tab : TabId) :
    (s.bridge.workers.erase tab).keys = (s.worker.round platform tab .closeTab).1.tabs.keys ∧
      (s.bridge.workers.erase tab).keys.card ≤ maxWorkerTabs := by
  have hround : (s.worker.round platform tab .closeTab).1.tabs = s.worker.tabs.erase tab := rfl
  rw [hround, keys_erase, keys_erase, h.tabs]
  refine ⟨rfl, (Finset.card_le_card (Finset.erase_subset _ _)).trans ?_⟩
  rw [← h.tabs]
  exact h.capped

theorem Agree.receive_iff {tab : TabId} {event : UiEvent} {b : Bridge} (h : s.Agree)
    (hstep : s.bridge.receive tab event = some b) :
    Agree ⟨b, (s.worker.round platform tab event).1⟩ ↔ s.Admits (.receive tab event) := by
  by_cases hclose : event = .closeTab
  · subst hclose
    obtain rfl := Bridge.receive_closeTab hstep
    obtain ⟨htabs, hcapped⟩ := h.closed platform tab
    exact iff_of_true ⟨htabs, hcapped, h.loaded⟩ (.inr (.inl rfl))
  obtain ⟨hkeys, hchannels⟩ := Bridge.receive_event hclose hstep
  have hloaded : (tab ∈ s.bridge.workers ∨ ∃ payload, event = .reload payload) → Loaded b := by
    intro hold d hd
    rcases hchannels d hd with hd | ⟨c, rfl, hc | ⟨rfl, hnew⟩⟩
    · exact h.loaded d hd
    · obtain ⟨payload, hhead⟩ := h.loaded c hc
      exact ⟨payload, by simp [Channel.accept, List.head?_append, hhead]⟩
    · obtain ⟨payload, rfl⟩ := hold.resolve_left hnew
      exact ⟨payload, rfl⟩
  have hmem : ∀ tab', tab' ∈ s.bridge.workers ↔ tab' ∈ s.worker.tabs := fun tab' => by
    rw [← Finmap.mem_keys, h.tabs, Finmap.mem_keys]
  have hround : ∀ tab', tab' ∈ (s.worker.round platform tab event).1.tabs ↔
      tab' ∈ s.worker.tabs ∨ tab' = tab ∧ (∃ payload, event = .reload payload) ∧
        s.bridge.workers.keys.card < maxWorkerTabs := by
    intro tab'
    rw [h.tabs]
    exact s.worker.mem_round platform tab tab' hclose
  by_cases hknown : tab ∈ s.bridge.workers
  · -- The tab has a worker: neither side changes.
    have hinsert : insert tab s.bridge.workers.keys = s.bridge.workers.keys :=
      Finset.insert_eq_of_mem (Finmap.mem_keys.mpr hknown)
    rw [hinsert] at hkeys
    refine iff_of_true ⟨Finset.ext fun tab' => ?_, hkeys ▸ h.capped, hloaded (.inl hknown)⟩ (.inl hknown)
    rw [hkeys, Finmap.mem_keys, Finmap.mem_keys, hround, hmem]
    refine (or_iff_left_of_imp ?_).symm
    rintro ⟨rfl, -⟩
    exact (hmem _).mp hknown
  · have hnew : tab ∉ s.bridge.workers.keys := fun hk => hknown (Finmap.mem_keys.mp hk)
    constructor
    · intro hagree
      have hheld : tab ∈ (s.worker.round platform tab event).1.tabs := by
        grind [Finmap.mem_keys, hagree.tabs, Finset.mem_insert_self]
      have hcreated := ((hround tab).mp hheld).resolve_left fun hw => hknown ((hmem tab).mpr hw)
      exact .inr (.inr hcreated.2)
    · intro hadmits
      have hcreates := (hadmits.resolve_left hknown).resolve_left hclose
      refine ⟨Finset.ext fun tab' => ?_, ?_, hloaded (.inr hcreates.1)⟩
      · rw [hkeys, Finset.mem_insert, Finmap.mem_keys, Finmap.mem_keys, hround, hmem, or_comm]
        exact or_congr_right (iff_self_and.mpr fun _ => hcreates)
      · grind

/-- One move keeps the agreement exactly if it meets the condition. -/
theorem Agree.step_iff {move : BridgeMove} (h : s.Agree)
    (hstep : s.step platform debug move = some s') : s'.Agree ↔ s.Admits move := by
  obtain ⟨b, hb, rfl⟩ := Option.map_eq_some_iff.mp hstep
  cases move with
  | receive tab event => exact h.receive_iff hb
  | startFails tab event e =>
    refine iff_of_true ?_ trivial
    obtain ⟨hnone, hclose, rfl⟩ := Bridge.startFails_cases hb
    have hnew : tab ∉ s.worker.tabs.keys := by grind [h.tabs, Finmap.mem_keys]
    refine ⟨?_, h.capped, h.loaded⟩
    have hround : (s.worker.round platform tab event).1.tabs.keys.erase tab = s.worker.tabs.keys := by
      grind [Finmap.mem_keys, s.worker.mem_round]
    exact h.tabs.trans (hround.symm.trans (keys_erase _ tab).symm)
  | send =>
    refine iff_of_true ?_ trivial
    simp only [Bridge.step] at hb
    split at hb
    · cases hb
    · obtain ⟨c, hc, rfl⟩ := Option.map_eq_some_iff.mp hb
      exact ⟨h.tabs, h.capped, h.loaded.update hc rfl⟩
  | sendFails message =>
    refine iff_of_true ?_ trivial
    simp only [Bridge.step] at hb
    split at hb
    · cases hb
    · rename_i worker event hsending
      obtain ⟨c, hc, rfl⟩ := Option.map_eq_some_iff.mp hb
      obtain ⟨htabs, hcapped⟩ := h.closed platform c.tab
      have hheard : heard s.bridge (.sendFails message) = [(c.tab, .closeTab)] := by
        simp only [heard, hsending, hc, Option.map_some, Option.toList_some]
      rw [hheard]
      exact ⟨htabs, hcapped, h.loaded⟩
  | answer worker envelope =>
    refine iff_of_true ?_ trivial
    simp only [Bridge.step] at hb
    split at hb
    · cases hb
    · rename_i c hc
      split at hb
      · cases hb
        exact ⟨h.tabs, h.capped, h.loaded.update hc rfl⟩
      · cases hb
  | read worker =>
    refine iff_of_true ?_ trivial
    simp only [Bridge.step, Bridge.read] at hb
    split at hb
    · cases hb
    · rename_i c hc
      split at hb
      · cases hb
        exact ⟨h.tabs, h.capped, h.loaded.update hc rfl⟩
      · cases hb

theorem start_agree : start.Agree :=
  ⟨rfl, by decide, fun c hc => by simp [start, Bridge.start] at hc⟩

end Lifecycles

/-- In every run in which a tab that has no worker gets nothing but a reload below the limit, or a close, the
router has workers for exactly the tabs whose state the in-process loop holds, never more than the limit,
and every process was started for a reload. -/
theorem lifecycles_agree (platform : Platform) (debug : WireWorkerError → String) (s : Lifecycles)
    (h : Reaches (Lifecycles.step platform debug) Lifecycles.Admits .start s) : s.Agree :=
  h.invariant Lifecycles.start_agree fun _ _ _ hagree hadmits hstep =>
    (hagree.step_iff hstep).mpr hadmits

/-- A tab is loaded and clicked, another is closed that was never open. -/
theorem lifecycles_agree_loaded :
    ∃ s : Lifecycles, s.bridge.workers.keys = {⟨0⟩} ∧ s.bridge.sending = none ∧ s.Agree := by
  have loaded : Reaches (Lifecycles.step .plain fun _ => "") Lifecycles.Admits .start _ :=
    .next (l := .send) (.next (l := .receive ⟨0⟩ (overtakingReload "/a" "a.mizu")) .refl
      (.inr (.inr ⟨⟨_, rfl⟩, by decide⟩)) rfl) trivial rfl
  have clicked : Reaches (Lifecycles.step .plain fun _ => "") Lifecycles.Admits .start _ :=
    .next (l := .send) (.next (l := .receive ⟨0⟩ (.click 0)) loaded (.inl (by decide)) rfl) trivial rfl
  have closed : Reaches (Lifecycles.step .plain fun _ => "") Lifecycles.Admits .start _ :=
    .next (l := .receive ⟨1⟩ .closeTab) clicked (.inr (.inl rfl)) rfl
  exact ⟨_, by decide, rfl, lifecycles_agree .plain (fun _ => "") _ closed⟩

/-! ## A worker for a tab that was never loaded -/

/-- A click starts a worker. -/
theorem click_starts_worker :
    ¬∀ (platform : Platform) (debug : WireWorkerError → String) (s : Lifecycles),
      Reaches (Lifecycles.step platform debug) (fun _ _ => True) .start s → s.Agree := by
  intro h
  have hrun : Reaches (Lifecycles.step .plain fun _ => "") (fun _ _ => True) .start _ :=
    reaches_of_run [.receive ⟨0⟩ (.click 0), .send] rfl fun _ _ _ => trivial
  have htabs := (h .plain (fun _ => "") _ hrun).tabs
  exact absurd htabs (by decide)

end Mizu
