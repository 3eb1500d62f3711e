import Mizu.Lib.Transition
import Mizu.Messages

/-!
# The tabs of a window

The list of open tabs, the index of the one on screen and the counter that ids are taken from, under openings,
closings, switches and the messages of the two workers. What a tab holds besides its id is left open: a message or the
event loop may do anything to the document of the tab it is for.

* `tabs_kept`: as long as the counter has not wrapped around, the list stays well-formed, no id is used twice, and every
  move leaves the right tab on screen.
* `wrapped_counter_repeats_id`: after 2⁶⁴ openings the first tab has a double.
-/

namespace Mizu

open Transition List

/-- What the code does to the document of a tab besides processing messages. -/
structure DocumentKind (D : Type) where
  layoutStale : D → Bool
  /-- `resize_tab_viewport`. -/
  resize : D → D
  /-- A new layout tree because an image has come. -/
  relayoutWaiter : D → D

structure OpenTab (D : Type) where
  id : TabId
  document : D

/-- The tabs that wait for an image, by its URL. -/
abbrev FetchingImages := List (String × List TabId)

structure TabSet (D : Type) where
  tabs : List (OpenTab D)
  activeTab : Nat
  /-- A `u64`. -/
  nextTabId : Nat
  fetchingImages : FetchingImages
  logicTx : List (TabId × UiEvent)

/-- What a worker sends; `process` is what the window does to the document of the tab it is for. -/
inductive TabMessage (D : Type) where
  /-- A network result, for the tab on screen if it names none, with the URL of its image. -/
  | network (tab : Option TabId) (image : Option String) (process : D → FetchingImages → D × FetchingImages)
  | logic (tab : TabId) (process : D → FetchingImages → D × FetchingImages)

inductive TabSetMove (D : Type) where
  /-- `TabState::new` may fail. -/
  | openTab (built : Option D)
  | closeTab (id : TabId)
  | switchToTab (id : TabId)
  | message (message : TabMessage D)
  /-- The event loop works on the tab on screen. -/
  | work (f : D → FetchingImages → D × FetchingImages)

namespace TabSet

variable {D : Type}

/-- A window with its first tab. -/
def start (document : D) : TabSet D where
  tabs := [⟨⟨0⟩, document⟩]
  activeTab := 0
  nextTabId := 1
  fetchingImages := []
  logicTx := []

def ids (w : TabSet D) : List TabId := w.tabs.map (·.id)

/-- The id of the tab on screen; `none` if the index is out of range, where the code panics. -/
def activeId (w : TabSet D) : Option TabId := (w.tabs[w.activeTab]?).map (·.id)

def position (w : TabSet D) (id : TabId) : Option Nat := w.tabs.findIdx? (·.id = id)

def maxTabs : Nat := 32

/-- `open_tab`. -/
def openTab (w : TabSet D) (built : Option D) : TabSet D :=
  if maxTabs ≤ w.tabs.length then w
  else
    let opened := { w with nextTabId := (w.nextTabId + 1) % 2 ^ 64 }
    match built with
    | some document => { opened with tabs := w.tabs ++ [⟨⟨w.nextTabId⟩, document⟩] }
    | none => opened

/-- `close_tab`, which does nothing to the last tab. -/
def closeTab (w : TabSet D) (id : TabId) : TabSet D :=
  match w.position id with
  | none => w
  | some pos =>
    if w.tabs.length = 1 then w
    else
      let tabs := w.tabs.eraseIdx pos
      let activeTab := if pos < w.activeTab ∨ tabs.length ≤ w.activeTab then w.activeTab - 1 else w.activeTab
      { w with
        tabs
        activeTab := min activeTab (tabs.length - 1)
        fetchingImages := (w.fetchingImages.map fun (url, waiters) => (url, waiters.filter (· ≠ id))).filter
          (·.2 ≠ [])
        logicTx := w.logicTx ++ [(id, .closeTab)] }

/-- The document at a position. -/
def modify (w : TabSet D) (pos : Nat) (f : D → D) : TabSet D :=
  { w with tabs := w.tabs.modify pos fun tab => { tab with document := f tab.document } }

/-- `switch_to_tab`. -/
def switchToTab (kind : DocumentKind D) (w : TabSet D) (id : TabId) : TabSet D :=
  match w.position id with
  | none => w
  | some pos =>
    if pos = w.activeTab then w
    else
      { w with activeTab := pos }.modify pos fun document =>
        if kind.layoutStale document then kind.resize document else document

/-- What is done to the document at a position and to the waiting tabs. -/
def process (w : TabSet D) (pos : Nat) (f : D → FetchingImages → D × FetchingImages) : TabSet D :=
  match w.tabs[pos]? with
  | none => w
  | some tab =>
    { w.modify pos fun document => (f document w.fetchingImages).1 with
      fetchingImages := (f tab.document w.fetchingImages).2 }

/-- The waiting tabs other than the one that asked are laid out anew. -/
def relayoutWaiters (kind : DocumentKind D) (requester : TabId) (w : TabSet D) (waiters : List TabId) : TabSet D :=
  waiters.foldl (fun w waiter =>
    if waiter = requester then w
    else
      match w.position waiter with
      | some pos => w.modify pos kind.relayoutWaiter
      | none => w) w

/-- `notify_image_waiters`. -/
def notifyImageWaiters (kind : DocumentKind D) (w : TabSet D) (url : String) (requester : TabId) : TabSet D :=
  match w.fetchingImages.lookup url with
  | none => w
  | some waiters =>
    relayoutWaiters kind requester { w with fetchingImages := w.fetchingImages.filter (·.1 ≠ url) } waiters

/-- One turn of `drain_network_results` or `drain_logic_worker_results`; `none` if there is no tab on screen. -/
def receive (kind : DocumentKind D) (w : TabSet D) (message : TabMessage D) : Option (TabSet D) :=
  w.activeId.map fun active =>
    match message with
    | .network tab image f =>
      match w.position (tab.getD active) with
      | none => w
      | some pos =>
        match image with
        | none => w.process pos f
        | some url => (w.process pos f).notifyImageWaiters kind url (tab.getD active)
    | .logic tab f =>
      match w.position tab with
      | none => w
      | some pos => w.process pos f

/-- One move; `none` if it panics. -/
def step (kind : DocumentKind D) (w : TabSet D) : TabSetMove D → Option (TabSet D)
  | .openTab built => some (w.openTab built)
  | .closeTab id => some (w.closeTab id)
  | .switchToTab id => some (w.switchToTab kind id)
  | .message message => w.receive kind message
  | .work f => w.activeId.map fun _ => w.process w.activeTab f

/-! ## Documents aside -/

/-- The two windows differ in documents and messages only. -/
structure SameTabs (w w' : TabSet D) : Prop where
  ids : w'.ids = w.ids
  activeTab : w'.activeTab = w.activeTab
  nextTabId : w'.nextTabId = w.nextTabId

section SameTabs

variable {kind : DocumentKind D} {w w' w'' : TabSet D}

theorem SameTabs.refl (w : TabSet D) : SameTabs w w := ⟨rfl, rfl, rfl⟩

theorem SameTabs.trans (h : SameTabs w w') (h' : SameTabs w' w'') : SameTabs w w'' :=
  ⟨h'.ids.trans h.ids, h'.activeTab.trans h.activeTab, h'.nextTabId.trans h.nextTabId⟩

theorem activeId_eq (w : TabSet D) : w.activeId = w.ids[w.activeTab]? := by
  rw [ids, List.getElem?_map]
  rfl

theorem SameTabs.activeId_eq (h : SameTabs w w') : w'.activeId = w.activeId := by
  rw [TabSet.activeId_eq, TabSet.activeId_eq, h.ids, h.activeTab]

theorem modify_sameTabs (w : TabSet D) (pos : Nat) (f : D → D) : SameTabs w (w.modify pos f) := by
  refine ⟨?_, rfl, rfl⟩
  simp only [ids, modify]
  apply ext_getElem?
  intro i
  rw [List.getElem?_map, List.getElem?_map, List.getElem?_modify]
  cases w.tabs[i]? with
  | none => rfl
  | some tab =>
    simp only [Option.map_some]
    split <;> rfl

theorem process_sameTabs (w : TabSet D) (pos : Nat) (f : D → FetchingImages → D × FetchingImages) :
    SameTabs w (w.process pos f) := by
  unfold process
  split
  · exact .refl w
  · have h := modify_sameTabs w pos fun document => (f document w.fetchingImages).1
    exact ⟨h.ids, h.activeTab, h.nextTabId⟩

theorem relayoutWaiters_sameTabs (requester : TabId) (w : TabSet D) (waiters : List TabId) :
    SameTabs w (relayoutWaiters kind requester w waiters) := by
  unfold relayoutWaiters
  induction waiters generalizing w with
  | nil => exact .refl w
  | cons waiter waiters ih => grind [SameTabs, modify_sameTabs]

theorem notifyImageWaiters_sameTabs (w : TabSet D) (url : String) (requester : TabId) :
    SameTabs w (w.notifyImageWaiters kind url requester) := by
  unfold notifyImageWaiters
  split
  · exact .refl w
  · have hremoved : SameTabs w { w with fetchingImages := w.fetchingImages.filter (·.1 ≠ url) } := ⟨rfl, rfl, rfl⟩
    exact hremoved.trans (relayoutWaiters_sameTabs requester _ _)

theorem receive_sameTabs {message : TabMessage D} (h : w.receive kind message = some w') : SameTabs w w' := by
  obtain ⟨active, -, rfl⟩ := Option.map_eq_some_iff.mp h
  cases message with
  | network tab image f =>
    dsimp only
    split
    · exact .refl w
    · split
      · exact process_sameTabs w _ f
      · exact (process_sameTabs w _ f).trans (notifyImageWaiters_sameTabs _ _ _)
  | logic tab f =>
    dsimp only
    split
    · exact .refl w
    · exact process_sameTabs w _ f

end SameTabs

/-! ## Positions -/

section Positions

variable {w : TabSet D} {id : TabId} {pos : Nat}

theorem position_eq_none_iff : w.position id = none ↔ id ∉ w.ids := by
  rw [position, List.findIdx?_eq_none_iff, ids, mem_map]
  simp only [decide_eq_false_iff_not, not_exists, not_and]

theorem getElem?_of_position (h : w.position id = some pos) : w.ids[pos]? = some id := by
  rw [position, List.findIdx?_eq_some_iff_getElem] at h
  obtain ⟨hlt, hid, -⟩ := h
  rw [ids, List.getElem?_map, List.getElem?_eq_getElem hlt, Option.map_some, of_decide_eq_true hid]

theorem length_ids (w : TabSet D) : w.ids.length = w.tabs.length := length_map _

theorem lt_of_position (h : w.position id = some pos) : pos < w.tabs.length := by
  rw [← length_ids]
  exact (List.getElem?_eq_some_iff.mp (getElem?_of_position h)).1

/-- An id stands at one position. -/
theorem eq_of_getElem? (hdistinct : w.ids.Nodup) {i j : Nat} (hi : w.ids[i]? = some id) (hj : w.ids[j]? = some id) :
    i = j := by
  grind [List.getElem?_inj]

end Positions

/-! ## The invariant -/

structure WellFormed (w : TabSet D) : Prop where
  few : w.tabs.length ≤ maxTabs
  /-- There is a tab on screen, so the list is not empty. -/
  active : w.activeTab < w.tabs.length
  distinct : w.ids.Nodup
  fresh : ∀ id ∈ w.ids, id.id < w.nextTabId

section Invariant

variable {kind : DocumentKind D} {w w' : TabSet D} {id : TabId}

theorem wellFormed_start (document : D) : (start document).WellFormed where
  few := Nat.le_of_ble_eq_true rfl
  active := Nat.zero_lt_one
  distinct := nodup_singleton _
  fresh := by
    intro id hid
    obtain rfl := mem_singleton.mp hid
    exact Nat.zero_lt_one

theorem WellFormed.congr (h : w.WellFormed) (hsame : SameTabs w w') : w'.WellFormed := by
  have hlength : w'.tabs.length = w.tabs.length := by rw [← length_ids, ← length_ids, hsame.ids]
  refine ⟨by rw [hlength]; exact h.few, ?_, hsame.ids ▸ h.distinct, ?_⟩
  · rw [hlength, hsame.activeTab]
    exact h.active
  · rw [hsame.ids, hsame.nextTabId]
    exact h.fresh

theorem WellFormed.exists_activeId (h : w.WellFormed) : ∃ id, w.activeId = some id :=
  ⟨_, congrArg (Option.map _) (List.getElem?_eq_getElem h.active)⟩

theorem openTab_ids (w : TabSet D) (built : Option D) :
    ((w.openTab built).ids = w.ids ∧ (w.openTab built).tabs.length = w.tabs.length ∨
      (w.openTab built).ids = w.ids ++ [⟨w.nextTabId⟩] ∧ w.tabs.length < maxTabs) ∧
    (w.openTab built).activeTab = w.activeTab := by
  grind [ids, openTab]

/-- What a closing does to the ids and to the tab on screen. -/
theorem closeTab_cases (h : w.WellFormed) (id : TabId) :
    (id ∉ w.ids ∨ w.tabs.length = 1) ∧ w.closeTab id = w ∨
      ∃ pos, w.position id = some pos ∧ w.tabs.length ≠ 1 ∧ (w.closeTab id).tabs = w.tabs.eraseIdx pos ∧
        (w.closeTab id).nextTabId = w.nextTabId ∧
        (w.closeTab id).activeTab =
          if pos < w.activeTab ∨ w.activeTab = pos ∧ w.tabs.length = pos + 1 then w.activeTab - 1 else w.activeTab := by
  unfold closeTab
  cases hpos : w.position id with
  | none => exact .inl ⟨.inl (position_eq_none_iff.mp hpos), rfl⟩
  | some pos =>
    by_cases hone : w.tabs.length = 1
    · exact .inl ⟨.inr hone, by simp only [if_pos hone]⟩
    · refine .inr ⟨pos, rfl, hone, by simp only [if_neg hone], by simp only [if_neg hone], ?_⟩
      have hlt := lt_of_position hpos
      have hactive := h.active
      have hlength : (w.tabs.eraseIdx pos).length = w.tabs.length - 1 := length_eraseIdx_of_lt hlt
      simp only [if_neg hone, hlength]
      split <;> split <;> omega

theorem eraseIdx_ids {pos : Nat} (htabs : w'.tabs = w.tabs.eraseIdx pos) : w'.ids = w.ids.eraseIdx pos := by
  rw [ids, ids, htabs, eraseIdx_map]

theorem WellFormed.closeTab (h : w.WellFormed) (id : TabId) : (w.closeTab id).WellFormed := by
  rcases closeTab_cases h id with ⟨-, heq⟩ | ⟨pos, hpos, hone, htabs, hnext, hactive⟩
  · rw [heq]
    exact h
  · have hlt := lt_of_position hpos
    have hlength : (w.closeTab id).tabs.length = w.tabs.length - 1 := by grind
    have hfew := h.few
    have hinside := h.active
    refine ⟨by omega, ?_, ?_, ?_⟩
    · rw [hlength, hactive]
      split <;> omega
    · rw [eraseIdx_ids htabs]
      exact h.distinct.eraseIdx pos
    · rw [eraseIdx_ids htabs, hnext]
      exact fun other hother => h.fresh other (mem_of_mem_eraseIdx hother)

/-- Closing another tab leaves the tab on screen. -/
theorem closeTab_other (h : w.WellFormed) (hid : w.activeId ≠ some id) : (w.closeTab id).activeId = w.activeId := by
  rcases closeTab_cases h id with ⟨-, heq⟩ | ⟨pos, hpos, hone, htabs, hnext, hactive⟩
  · rw [heq]
  · have hne : w.activeTab ≠ pos := by grind [activeId_eq, getElem?_of_position]
    rw [activeId_eq, activeId_eq, eraseIdx_ids htabs, List.getElem?_eraseIdx]
    by_cases hbefore : pos < w.activeTab
    · grind
    · rw [if_neg (by omega)] at hactive
      rw [hactive, if_pos (by omega)]

/-- Closing the tab on screen moves to its right neighbour, and from the last tab to the left one. -/
theorem closeTab_active (h : w.WellFormed) (hid : w.activeId = some id) (hone : w.tabs.length ≠ 1) :
    (w.closeTab id).activeId = (w.ids[w.activeTab + 1]?).or w.ids[w.activeTab - 1]? := by
  rcases closeTab_cases h id with ⟨hkept, -⟩ | ⟨pos, hpos, -, htabs, hnext, hactive⟩
  · grind [activeId_eq]
  · rw [activeId_eq] at hid
    obtain rfl := eq_of_getElem? h.distinct hid (getElem?_of_position hpos)
    have hlt := lt_of_position hpos
    rw [activeId_eq, eraseIdx_ids htabs, List.getElem?_eraseIdx]
    by_cases hlast : w.tabs.length = w.activeTab + 1
    · have hright : w.ids[w.activeTab + 1]? = none := List.getElem?_eq_none (by rw [length_ids]; omega)
      rw [if_pos (.inr ⟨rfl, hlast⟩)] at hactive
      rw [hactive, if_pos (by omega), hright, Option.none_or]
    · have hinside : w.activeTab + 1 < w.ids.length := by
        rw [length_ids]
        omega
      rw [if_neg (by omega)] at hactive
      rw [hactive, if_neg (Nat.lt_irrefl _), List.getElem?_eq_getElem hinside, Option.some_or]

theorem switchToTab_cases (w : TabSet D) (id : TabId) :
    id ∉ w.ids ∧ w.switchToTab kind id = w ∨
      ∃ pos, w.position id = some pos ∧ SameTabs { w with activeTab := pos } (w.switchToTab kind id) := by
  unfold switchToTab
  cases hpos : w.position id with
  | none => exact .inl ⟨position_eq_none_iff.mp hpos, rfl⟩
  | some pos =>
    refine .inr ⟨pos, rfl, ?_⟩
    dsimp only
    split
    · next heq =>
      subst heq
      exact .refl w
    · exact modify_sameTabs { w with activeTab := pos } pos _

theorem WellFormed.switchToTab (h : w.WellFormed) (id : TabId) : (w.switchToTab kind id).WellFormed := by
  rcases @switchToTab_cases D kind w id with ⟨-, heq⟩ | ⟨pos, hpos, hsame⟩
  · rw [heq]
    exact h
  · have hmoved : WellFormed { w with activeTab := pos } := ⟨h.few, lt_of_position hpos, h.distinct, h.fresh⟩
    exact hmoved.congr hsame

theorem switchToTab_activeId (w : TabSet D) (id : TabId) :
    (w.switchToTab kind id).activeId = if id ∈ w.ids then some id else w.activeId := by
  rcases @switchToTab_cases D kind w id with ⟨hmem, heq⟩ | ⟨pos, hpos, hsame⟩
  · rw [heq, if_neg hmem]
  · have hid := getElem?_of_position hpos
    rw [hsame.activeId_eq, if_pos (mem_of_getElem? hid), activeId_eq]
    exact hid

end Invariant

/-! ## Runs -/

section Runs

variable {kind : DocumentKind D} {w w' : TabSet D} {id : TabId}

/-- An opening does not wrap the counter around. -/
def Unwrapped (w : TabSet D) : TabSetMove D → Prop
  | .openTab _ => w.nextTabId + 1 < 2 ^ 64
  | _ => True

theorem openTab_nextTabId (hunwrapped : w.nextTabId + 1 < 2 ^ 64) (built : Option D) :
    (w.openTab built).nextTabId = w.nextTabId ∧ (w.openTab built).ids = w.ids ∨
      (w.openTab built).nextTabId = w.nextTabId + 1 := by
  grind [openTab]

theorem WellFormed.openTab (h : w.WellFormed) (hunwrapped : w.nextTabId + 1 < 2 ^ 64) (built : Option D) :
    (w.openTab built).WellFormed := by
  obtain ⟨hids, hactive⟩ := openTab_ids w built
  have hnext : w.nextTabId ≤ (w.openTab built).nextTabId := by grind [openTab_nextTabId]
  have hinside := h.active
  rcases hids with ⟨hids, hlength⟩ | ⟨hids, hfew⟩
  · refine ⟨hlength ▸ h.few, by omega, hids ▸ h.distinct, ?_⟩
    rw [hids]
    exact fun other hother => (h.fresh other hother).trans_le hnext
  · have hlength : (w.openTab built).tabs.length = w.tabs.length + 1 := by grind [length_ids, length_append]
    have hnew : (⟨w.nextTabId⟩ : TabId) ∉ w.ids := fun hmem => Nat.lt_irrefl _ (h.fresh _ hmem)
    refine ⟨by omega, by omega, ?_, ?_⟩
    · rw [hids]
      exact nodup_append.mpr ⟨h.distinct, nodup_singleton _, by
        rintro other hother _ hlast rfl
        exact hnew (mem_singleton.mp hlast ▸ hother)⟩
    · have hcounter : (w.openTab built).nextTabId = w.nextTabId + 1 := by grind [openTab_nextTabId]
      rw [hids, hcounter]
      intro other hother
      rcases mem_append.mp hother with hother | hother
      · exact Nat.lt_succ_of_lt (h.fresh other hother)
      · obtain rfl := mem_singleton.mp hother
        exact Nat.lt_succ_self _

variable {move : TabSetMove D}

theorem WellFormed.step (h : w.WellFormed) (hunwrapped : Unwrapped w move)
    (hstep : w.step kind move = some w') : w'.WellFormed := by
  cases move with
  | openTab built =>
    obtain rfl := Option.some.inj hstep
    exact h.openTab hunwrapped built
  | closeTab id =>
    obtain rfl := Option.some.inj hstep
    exact h.closeTab id
  | switchToTab id =>
    obtain rfl := Option.some.inj hstep
    exact h.switchToTab id
  | message message => exact h.congr (receive_sameTabs hstep)
  | work f =>
    obtain ⟨active, -, rfl⟩ := Option.map_eq_some_iff.mp hstep
    exact h.congr (process_sameTabs w _ f)

/-- A tab on screen is all that a move needs. -/
theorem WellFormed.exists_step (h : w.WellFormed) (move : TabSetMove D) : ∃ w', w.step kind move = some w' := by
  obtain ⟨active, hactive⟩ := h.exists_activeId
  cases move with
  | openTab | closeTab | switchToTab => exact ⟨_, rfl⟩
  | message message => exact ⟨_, by rw [TabSet.step, receive, hactive, Option.map_some]⟩
  | work f => exact ⟨_, by rw [TabSet.step, hactive, Option.map_some]⟩

/-- Ids below the counter that are not open. -/
structure Retired (id : TabId) (w : TabSet D) : Prop where
  below : id.id < w.nextTabId
  closed : id ∉ w.ids

theorem Retired.step (hretired : Retired id w) (h : w.WellFormed) (hunwrapped : Unwrapped w move)
    (hstep : w.step kind move = some w') : Retired id w' := by
  have hsame {w'} (hsame : SameTabs w w') : Retired id w' := by
    refine ⟨?_, ?_⟩
    · rw [hsame.nextTabId]
      exact hretired.below
    · rw [hsame.ids]
      exact hretired.closed
  have hbelow := hretired.below
  cases move with
  | openTab built =>
    obtain rfl := Option.some.inj hstep
    refine ⟨by rcases openTab_nextTabId hunwrapped built with ⟨hnext, -⟩ | hnext <;> omega, ?_⟩
    rcases (openTab_ids w built).1 with ⟨hids, -⟩ | ⟨hids, -⟩
    · rw [hids]
      exact hretired.closed
    · rw [hids, mem_append, mem_singleton]
      rintro (hmem | rfl)
      · exact hretired.closed hmem
      · exact Nat.lt_irrefl _ hbelow
  | closeTab other =>
    obtain rfl := Option.some.inj hstep
    rcases closeTab_cases h other with ⟨-, heq⟩ | ⟨pos, hpos, hone, htabs, hnext, -⟩
    · rw [heq]
      exact hretired
    · refine ⟨by omega, fun hmem => hretired.closed ?_⟩
      rw [eraseIdx_ids htabs] at hmem
      exact mem_of_mem_eraseIdx hmem
  | switchToTab other =>
    obtain rfl := Option.some.inj hstep
    rcases @switchToTab_cases D kind w other with ⟨-, heq⟩ | ⟨pos, hpos, hsame'⟩
    · rw [heq]
      exact hretired
    · exact ⟨hsame'.nextTabId ▸ hbelow, hsame'.ids ▸ hretired.closed⟩
  | message message => exact hsame (receive_sameTabs hstep)
  | work f =>
    obtain ⟨active, -, rfl⟩ := Option.map_eq_some_iff.mp hstep
    exact hsame (process_sameTabs w _ f)

/-- The tab that a message is for, if it names one. -/
def target : TabMessage D → Option TabId
  | .network tab _ _ => tab
  | .logic tab _ => some tab

/-- What a move may do to the tab on screen, and a message to any tab. -/
def Moved (w w' : TabSet D) : TabSetMove D → Prop
  | .closeTab id =>
    if w.activeId = some id then
      (w.tabs.length = 1 ∧ w' = w) ∨
        (w.tabs.length ≠ 1 ∧ w'.activeId = (w.ids[w.activeTab + 1]?).or w.ids[w.activeTab - 1]?)
    else w'.activeId = w.activeId
  | .switchToTab id => w'.activeId = if id ∈ w.ids then some id else w.activeId
  | .message message => w'.activeId = w.activeId ∧ ∀ id, target message = some id → id ∉ w.ids → w' = w
  | _ => w'.activeId = w.activeId

theorem receive_closed {message : TabMessage D} (hid : target message = some id) (hclosed : id ∉ w.ids)
    (h : w.receive kind message = some w') : w' = w := by
  have hpos := position_eq_none_iff.mpr hclosed
  obtain ⟨active, -, rfl⟩ := Option.map_eq_some_iff.mp h
  cases message with
  | network tab image f =>
    obtain rfl : tab = some id := hid
    simp only [Option.getD_some, hpos]
  | logic tab f =>
    obtain rfl := Option.some.inj hid
    simp only [hpos]

theorem WellFormed.moved (h : w.WellFormed) (hstep : w.step kind move = some w') : Moved w w' move := by
  cases move with
  | openTab built =>
    obtain rfl := Option.some.inj hstep
    obtain ⟨hids, hactive⟩ := openTab_ids w built
    show (w.openTab built).activeId = w.activeId
    rw [activeId_eq, activeId_eq, hactive]
    rcases hids with ⟨hids, -⟩ | ⟨hids, -⟩
    · rw [hids]
    · rw [hids, List.getElem?_append_left (by rw [length_ids]; exact h.active)]
  | closeTab id =>
    obtain rfl := Option.some.inj hstep
    simp only [Moved]
    by_cases hid : w.activeId = some id
    · rw [if_pos hid]
      by_cases hone : w.tabs.length = 1
      · refine .inl ⟨hone, ?_⟩
        rcases closeTab_cases h id with ⟨-, heq⟩ | ⟨pos, hpos, hone', -⟩
        · exact heq
        · exact absurd hone hone'
      · exact .inr ⟨hone, closeTab_active h hid hone⟩
    · rw [if_neg hid]
      exact closeTab_other h hid
  | switchToTab id =>
    obtain rfl := Option.some.inj hstep
    exact switchToTab_activeId w id
  | message message => exact ⟨(receive_sameTabs hstep).activeId_eq, fun id hid hclosed => receive_closed hid hclosed hstep⟩
  | work f =>
    obtain ⟨active, -, rfl⟩ := Option.map_eq_some_iff.mp hstep
    exact (process_sameTabs w _ f).activeId_eq

theorem wellFormed_of_reaches {s : TabSet D} (hs : s.WellFormed) (h : Reaches (step kind) Unwrapped s w) :
    w.WellFormed :=
  h.invariant hs fun _ _ _ hwell hunwrapped hstep => hwell.step hunwrapped hstep

/-- An id that is no longer open is not used again. -/
theorem retired_of_reaches {s : TabSet D} (hs : s.WellFormed) (h : Reaches (step kind) Unwrapped s w)
    (hretired : Retired id s) : Retired id w := by
  refine (h.invariant (I := fun u => u.WellFormed ∧ Retired id u) ⟨hs, hretired⟩ ?_).2
  intro u move u' hinv hunwrapped hstep
  exact ⟨hinv.1.step hunwrapped hstep, hinv.2.step hinv.1 hunwrapped hstep⟩

theorem nextTabId_le_of_reaches {s : TabSet D} (h : Reaches (step kind) Unwrapped s w) :
    s.nextTabId ≤ w.nextTabId := by
  refine h.invariant (I := fun u => s.nextTabId ≤ u.nextTabId) (le_refl _) ?_
  intro u move u' hle hunwrapped hstep
  refine hle.trans ?_
  cases move with
  | openTab built =>
    obtain rfl := Option.some.inj hstep
    rcases openTab_nextTabId hunwrapped built with ⟨hnext, -⟩ | hnext <;> omega
  | closeTab id =>
    obtain rfl := Option.some.inj hstep
    unfold closeTab
    split
    · exact le_refl _
    · split <;> exact le_refl _
  | switchToTab id =>
    obtain rfl := Option.some.inj hstep
    rcases @switchToTab_cases D kind u id with ⟨-, heq⟩ | ⟨pos, -, hsame⟩
    · rw [heq]
    · exact hsame.nextTabId.ge
  | message message => exact (receive_sameTabs hstep).nextTabId.ge
  | work f =>
    obtain ⟨active, -, rfl⟩ := Option.map_eq_some_iff.mp hstep
    exact (process_sameTabs u _ f).nextTabId.ge

/-- In every run from a window with its first tab, as long as the counter does not wrap around: the list of tabs stays
between one and the greatest number, with a tab on screen and without a double; no move panics, and each leaves the
right tab on screen; and an id that was closed is never open again. -/
theorem tabs_kept (kind : DocumentKind D) (document : D) (h : Reaches (step kind) Unwrapped (start document) w) :
    (w.tabs ≠ [] ∧ w.tabs.length ≤ maxTabs ∧ w.activeTab < w.tabs.length ∧ w.ids.Nodup) ∧
      (∀ move, ∃ w', w.step kind move = some w') ∧
      (∀ move w', w.step kind move = some w' → Moved w w' move) ∧
      ∀ u v, Reaches (step kind) Unwrapped w u → Reaches (step kind) Unwrapped u v →
        ∀ id ∈ w.ids, id ∉ u.ids → id ∉ v.ids := by
  have hwell := wellFormed_of_reaches (wellFormed_start document) h
  refine ⟨⟨?_, hwell.few, hwell.active, hwell.distinct⟩, fun move => hwell.exists_step move,
    fun move w' hstep => hwell.moved hstep, ?_⟩
  · rintro hnil
    have hactive := hwell.active
    rw [hnil] at hactive
    exact Nat.not_lt_zero _ hactive
  · intro u v hu hv id hopen hclosed
    have hbelow := (hwell.fresh id hopen).trans_le (nextTabId_le_of_reaches hu)
    exact (retired_of_reaches (wellFormed_of_reaches hwell hu) hv ⟨hbelow, hclosed⟩).closed

/-- Two tabs, of which the first stays on screen when the second is closed. -/
theorem tabs_kept_two :
    ((start ()).openTab (some ())).ids.Nodup ∧
      (((start ()).openTab (some ())).closeTab ⟨1⟩).activeId = ((start ()).openTab (some ())).activeId := by
  let kind : DocumentKind Unit := ⟨fun _ => false, id, id⟩
  have hreach : Reaches (step kind) Unwrapped (start ()) ((start ()).openTab (some ())) :=
    .next .refl (l := .openTab (some ())) (show 1 + 1 < 2 ^ 64 by decide) rfl
  obtain ⟨⟨-, -, -, hdistinct⟩, -, hmoved, -⟩ := tabs_kept kind () hreach
  refine ⟨hdistinct, ?_⟩
  have := hmoved (.closeTab ⟨1⟩) _ rfl
  rwa [Moved, if_neg (by decide)] at this

/-- A tab opened and closed again leaves only the counter moved. -/
theorem exists_openings (kind : DocumentKind D) (document : D) (n : Nat) (hn : n < 2 ^ 64) :
    ∃ w, Reaches (step kind) (fun _ _ => True) (start document) w ∧ w.tabs = [⟨⟨0⟩, document⟩] ∧ w.activeTab = 0 ∧
      w.nextTabId = (n + 1) % 2 ^ 64 := by
  induction n with
  | zero => exact ⟨start document, .refl, rfl, rfl, rfl⟩
  | succ n ih =>
    obtain ⟨w, hw, htabs, hactive, hnext⟩ := ih (by omega)
    have hopened : (w.openTab (some document)).tabs = [⟨⟨0⟩, document⟩, ⟨⟨w.nextTabId⟩, document⟩] ∧
        (w.openTab (some document)).activeTab = 0 ∧
        (w.openTab (some document)).nextTabId = (w.nextTabId + 1) % 2 ^ 64 := by
      unfold openTab
      rw [if_neg (by simp [htabs, maxTabs]), htabs]
      exact ⟨rfl, hactive, rfl⟩
    obtain ⟨htabs', hactive', hnext'⟩ := hopened
    have hne : (⟨0⟩ : TabId) ≠ ⟨w.nextTabId⟩ := by grind
    have hpos : (w.openTab (some document)).position ⟨w.nextTabId⟩ = some 1 := by
      rw [position, htabs', List.findIdx?_cons, List.findIdx?_cons, if_neg (by simpa using hne)]
      simp
    refine ⟨(w.openTab (some document)).closeTab ⟨w.nextTabId⟩,
      .next (.next hw (l := .openTab (some document)) trivial rfl) (l := .closeTab ⟨w.nextTabId⟩) trivial rfl, ?_, ?_, ?_⟩
    all_goals
      unfold closeTab
      simp only [hpos]
      rw [if_neg (by simp [htabs'])]
    · simp only [htabs']
      rfl
    · simp [htabs', hactive']
    · simp only [hnext', hnext]
      omega

/-- After 2⁶⁴ openings the counter is at the id of the first tab again. -/
theorem wrapped_counter_repeats_id :
    ¬∀ (kind : DocumentKind Unit) (w : TabSet Unit),
      Reaches (step kind) (fun _ _ => True) (start ()) w → w.ids.Nodup := by
  intro hall
  let kind : DocumentKind Unit := ⟨fun _ => false, id, id⟩
  obtain ⟨w, hw, htabs, -, hnext⟩ := exists_openings kind () (2 ^ 64 - 1) (by decide)
  have hopened : (w.openTab (some ())).ids = [⟨0⟩, ⟨0⟩] := by
    unfold openTab
    rw [if_neg (by rw [htabs]; decide)]
    simp only [ids, htabs, hnext]
    rfl
  have hnodup := hall kind (w.openTab (some ())) (.next hw (l := .openTab (some ())) trivial rfl)
  rw [hopened] at hnodup
  exact absurd hnodup (by decide)

end Runs

end TabSet

end Mizu
