import Mizu.Lib.DeadlineQueue
import Mizu.Lib.Transition
import Mizu.Render.Capability

/-!
# The schedule of the timers

Every tab has a queue of its timers by deadline. An idle tick drains the results, rebuilds the queue of
the active tab if something in it changed, and fires what is due in every tab, in a background tab at a
longer period. Instants are in nanoseconds.

* `timers_keep_schedule`: the loops end and fire a timer at most once; in a run without the disturbances
  of `Undisturbed`, every timer that has an interval is queued, and its deadline stays.
* `fast_timer_postpones`: a change of any variable moves every deadline.
-/

namespace Mizu

open List Option

/-- `VariableStore::get`, without its error. -/
def VariableStore.get (s : VariableStore) (name : String) : Option Value :=
  (s.interner.get name).bind fun sym =>
    (s.evaluator.getLocal sym 0).orElse fun _ =>
      let v := s.evaluator.getGlobal sym
      if v.isNull then none else some v

/-- A name reads what was written, or what it did before. -/
theorem VariableStore.get_setRuntime (s : VariableStore) (name : String) (v : Value) (name' : String) :
    (s.setRuntime name v).get name' = s.get name' ∨
      (s.setRuntime name v).get name' = if v.isNull then none else some v := by
  unfold setRuntime
  split
  · rename_i sym hsym
    simp only [VariableStore.get, setSymbol_interner]
    cases hsym' : s.interner.get name' with
    | none => exact .inl rfl
    | some sym' =>
      have hlocal : (s.setSymbol sym v).evaluator.getLocal sym' 0 = s.evaluator.getLocal sym' 0 := rfl
      simp only [bind_some, hlocal]
      cases s.evaluator.getLocal sym' 0 with
      | some v' => exact .inl rfl
      | none =>
        by_cases heq : sym' = sym
        · subst heq
          right
          simp only [setSymbol, Evaluator.getGlobal_setGlobal_self]
          rfl
        · left
          simp only [setSymbol, Evaluator.getGlobal_setGlobal_of_ne _ heq]
  · exact .inl rfl

/-- `Duration::from_millis`. -/
def fromMillis (ms : Nat) : Nat := ms * 1000000

/-- `background_timer_period`. -/
def backgroundTimerPeriod (intervalMs : Nat) : Nat := max intervalMs 1000

/-- `resolve_root_timer_interval`. -/
def VariableStore.resolveRootTimerInterval (s : VariableStore) (interval : TimerInterval) : Option Nat :=
  let ms :=
    match interval with
    | .millis ms => some ms
    | .var varName =>
      match s.get varName with
      | some (.int i) => some i.toInt.toNat
      | some (.decimal i) => some (i.toInt.tdiv decimalScale).toNat
      | _ => none
  ms.map (max · 16)

/-- A tab with its queue. -/
structure TimedTab (F : Frontend) where
  tab : TabState F
  /-- The intervals of its `root_timers`. -/
  intervals : List TimerInterval
  rootTimerQueue : DeadlineQueue Nat
  typingLayoutDirty : Bool
  /-- The timers fired in the last move. -/
  fired : List Nat

variable (tab : TabState F)

namespace TimedTab

variable {F : Frontend} (t : TimedTab F)

/-- The interval of a timer, as the variables are now. -/
def interval (idx : Nat) : Option Nat := t.intervals[idx]?.bind t.tab.store.resolveRootTimerInterval

/-- `setup_timers`. -/
def setupTimers (now : Nat) : TimedTab F :=
  { t with rootTimerQueue := t.intervals.zipIdx.foldl (fun q (interval, idx) =>
      match t.tab.store.resolveRootTimerInterval interval with
      | some intervalMs => q.push (now + fromMillis intervalMs) idx
      | none => q) [] }

/-- What a due timer does: it is re-armed, whether the worker has capacity for the tick or not. -/
def fireIndex (now : Nat) (period : Nat → Nat) (t : TimedTab F) (idx : Nat) : TimedTab F :=
  match t.intervals[idx]? with
  | none => t
  | some interval =>
    let t' := { t with tab := t.tab.mayDispatchTimerTick.2, fired := t.fired ++ [idx] }
    match t.tab.store.resolveRootTimerInterval interval with
    | some intervalMs =>
      { t' with rootTimerQueue := t.rootTimerQueue.push (now + fromMillis (period intervalMs)) idx }
    | none => t'

/-- The firing loop; `none` when it is still going after so many rounds. -/
def fireLoop (now : Nat) (period : Nat → Nat) : Nat → TimedTab F → Option (TimedTab F)
  | 0, _ => none
  | fuel + 1, t =>
    match t.rootTimerQueue with
    | [] => some t
    | (deadline, indices) :: rest =>
      if now ≥ deadline then
        fireLoop now period fuel (indices.foldl (fireIndex now period) { t with rootTimerQueue := rest })
      else some t

/-- Fires what is due, in as many rounds as there are deadlines at the start. -/
def fire (now : Nat) (period : Nat → Nat) : Option (TimedTab F) :=
  fireLoop now period (t.rootTimerQueue.length + 1) t

/-- The timers in the queue. -/
def queued : List Nat := t.rootTimerQueue.entries.map (·.2)

/-! ## One tab -/

/-- What a timer is re-armed with. -/
def rearmed (now : Nat) (period : Nat → Nat) (idx : Nat) : List (Nat × Nat) :=
  ((t.interval idx).map fun ms => (now + fromMillis (period ms), idx)).toList

/-- The declared ones among some timers. -/
def declared (indices : List Nat) : List Nat := indices.filter (· < t.intervals.length)

variable {t} {t' : TimedTab F} {now : Nat} {period : Nat → Nat}

/-- Nothing that an interval depends on differs. -/
structure SameIntervals (t t' : TimedTab F) : Prop where
  intervals : t'.intervals = t.intervals
  store : t'.tab.store = t.tab.store

theorem SameIntervals.trans {t'' : TimedTab F} (h : SameIntervals t t') (h' : SameIntervals t' t'') :
    SameIntervals t t'' :=
  ⟨h'.intervals.trans h.intervals, h'.store.trans h.store⟩

theorem SameIntervals.interval (h : SameIntervals t t') (idx : Nat) : t'.interval idx = t.interval idx := by
  rw [TimedTab.interval, h.intervals, h.store, TimedTab.interval]

theorem mayDispatchTimerTick_store : tab.mayDispatchTimerTick.2.store = tab.store := by
  unfold TabState.mayDispatchTimerTick
  split <;> rfl

theorem resolve_pos {s : VariableStore} {interval : TimerInterval} {ms : Nat}
    (h : s.resolveRootTimerInterval interval = some ms) : 16 ≤ ms := by
  obtain ⟨n, -, rfl⟩ := map_eq_some_iff.mp h
  exact le_max_right n 16

/-- What one timer that is due does to the tab. -/
structure Fires (now : Nat) (indices : List Nat) (rearm : List (Nat × Nat)) (t t' : TimedTab F) : Prop where
  same : SameIntervals t t'
  typing : t'.typingLayoutDirty = t.typingLayoutDirty
  fired : t'.fired = t.fired ++ indices
  due : t'.rootTimerQueue.due now = t.rootTimerQueue.due now
  later : (t'.rootTimerQueue.later now).entries.Perm (rearm ++ (t.rootTimerQueue.later now).entries)

theorem fireIndex_fires (now : Nat) (hperiod : ∀ ms, 16 ≤ ms → 0 < period ms) (t : TimedTab F) (idx : Nat) :
    Fires now (t.declared [idx]) (t.rearmed now period idx) t (t.fireIndex now period idx) := by
  unfold fireIndex
  cases hidx : t.intervals[idx]? with
  | none =>
    have hlen : ¬idx < t.intervals.length := by simpa using hidx
    simp only [rearmed, interval, hidx]
    exact ⟨⟨rfl, rfl⟩, rfl, by simp [declared, hlen], rfl, .refl _⟩
  | some interval =>
    have hlen : idx < t.intervals.length := (List.getElem?_eq_some_iff.mp hidx).1
    have hfired : t.fired ++ [idx] = t.fired ++ t.declared [idx] := by simp [declared, hlen]
    have hstore := mayDispatchTimerTick_store t.tab
    dsimp only
    cases hms : t.tab.store.resolveRootTimerInterval interval with
    | none =>
      simp only [rearmed, TimedTab.interval, hidx, bind_some, hms]
      exact ⟨⟨rfl, hstore⟩, rfl, hfired, rfl, .refl _⟩
    | some ms =>
      have hlater : now < now + fromMillis (period ms) := by grind [fromMillis, resolve_pos]
      simp only [rearmed, TimedTab.interval, hidx, bind_some, hms]
      exact ⟨⟨rfl, hstore⟩, rfl, hfired, DeadlineQueue.due_push hlater,
        DeadlineQueue.entries_later_push hlater⟩

theorem SameIntervals.declared (h : SameIntervals t t') (indices : List Nat) :
    t'.declared indices = t.declared indices := by
  rw [TimedTab.declared, h.intervals, TimedTab.declared]

theorem SameIntervals.rearmed (h : SameIntervals t t') (now : Nat) (period : Nat → Nat) (idx : Nat) :
    t'.rearmed now period idx = t.rearmed now period idx := by
  rw [TimedTab.rearmed, h.interval, TimedTab.rearmed]

theorem foldl_fires (now : Nat) (hperiod : ∀ ms, 16 ≤ ms → 0 < period ms) (indices : List Nat) (t : TimedTab F) :
    Fires now (t.declared indices) (indices.flatMap (t.rearmed now period)) t
      (indices.foldl (fireIndex now period) t) := by
  induction indices generalizing t with
  | nil => exact ⟨⟨rfl, rfl⟩, rfl, (append_nil _).symm, rfl, .refl _⟩
  | cons idx indices ih =>
    have hone := fireIndex_fires now hperiod t idx
    have hrest := ih (t.fireIndex now period idx)
    rw [hone.same.declared, funext (hone.same.rearmed now period)] at hrest
    refine ⟨hone.same.trans hrest.same, hrest.typing.trans hone.typing, ?_, hrest.due.trans hone.due, ?_⟩
    · rw [foldl_cons, hrest.fired, hone.fired, append_assoc, TimedTab.declared, TimedTab.declared,
        TimedTab.declared, ← filter_append, singleton_append]
    · rw [flatMap_cons, append_assoc]
      refine hrest.later.trans ((hone.later.append_left _).trans ?_)
      rw [← append_assoc, ← append_assoc]
      exact perm_append_comm.append_right _

/-- The timers that are due. -/
def dueIndices (t : TimedTab F) (now : Nat) : List Nat := (t.rootTimerQueue.due now).entries.map (·.2)

/-- What firing does to a tab. -/
structure Fired (now : Nat) (period : Nat → Nat) (t t' : TimedTab F) : Prop where
  same : SameIntervals t t'
  typing : t'.typingLayoutDirty = t.typingLayoutDirty
  fired : t'.fired = t.fired ++ t.declared (t.dueIndices now)
  entries : t'.rootTimerQueue.entries.Perm
    ((t.dueIndices now).flatMap (t.rearmed now period) ++ (t.rootTimerQueue.later now).entries)

/-- The loop ends, since nothing is re-armed before `now`: it takes what is due at the start. -/
theorem fireLoop_fired (hperiod : ∀ ms, 16 ≤ ms → 0 < period ms) (fuel : Nat) (t : TimedTab F)
    (hfuel : (t.rootTimerQueue.due now).length < fuel) :
    ∃ t', fireLoop now period fuel t = some t' ∧ Fired now period t t' := by
  induction fuel generalizing t with
  | zero => omega
  | succ fuel ih =>
    unfold fireLoop
    cases hqueue : t.rootTimerQueue with
    | nil => exact ⟨t, rfl, ⟨rfl, rfl⟩, rfl, by simp [dueIndices, declared, hqueue, DeadlineQueue.due],
        by simp [dueIndices, hqueue, DeadlineQueue.due, DeadlineQueue.later]⟩
    | cons key rest =>
      obtain ⟨deadline, indices⟩ := key
      by_cases hdue : now ≥ deadline
      · have hsplit : t.rootTimerQueue.due now = (deadline, indices) :: DeadlineQueue.due now rest ∧
            t.rootTimerQueue.later now = DeadlineQueue.later now rest := by
          simp [DeadlineQueue.due, DeadlineQueue.later, hqueue, hdue]
        have hround := foldl_fires now hperiod indices { t with rootTimerQueue := rest }
        rw [hsplit.1, length_cons] at hfuel
        obtain ⟨t', hloop, hfired⟩ := ih (indices.foldl (fireIndex now period) { t with rootTimerQueue := rest })
          (by rw [hround.due]; exact Nat.lt_of_succ_lt_succ hfuel)
        have hindices : t.dueIndices now = indices ++ (DeadlineQueue.due now rest).entries.map (·.2) := by
          simp [dueIndices, hsplit.1, Function.comp_def]
        have hnext : dueIndices (indices.foldl (fireIndex now period) { t with rootTimerQueue := rest }) now =
            (DeadlineQueue.due now rest).entries.map (·.2) := by
          rw [dueIndices, hround.due]
        have hsame := hround.same.trans hfired.same
        refine ⟨t', (if_pos hdue).trans hloop, ⟨hsame.intervals, hsame.store⟩,
          hfired.typing.trans hround.typing, ?_, ?_⟩
        · rw [hfired.fired, hround.fired, hround.same.declared, hnext, hindices, append_assoc]
          simp only [TimedTab.declared, filter_append]
        · refine hfired.entries.trans ?_
          rw [hnext, hindices, hsplit.2, funext (hround.same.rearmed now period),
            flatMap_append]
          refine (hround.later.append_left _).trans ?_
          rw [← append_assoc]
          exact perm_append_comm.append_right _
      · have hsplit : t.rootTimerQueue.due now = [] ∧ t.rootTimerQueue.later now = t.rootTimerQueue := by
          simp [DeadlineQueue.due, DeadlineQueue.later, hqueue, hdue]
        refine ⟨t, if_neg hdue, ⟨rfl, rfl⟩, rfl, ?_, ?_⟩
        · simp [dueIndices, declared, hsplit.1]
        · simp [dueIndices, hsplit.1, hsplit.2]

theorem fire_fired (hperiod : ∀ ms, 16 ≤ ms → 0 < period ms) (t : TimedTab F) (now : Nat) :
    ∃ t', t.fire now period = some t' ∧ Fired now period t t' := by
  refine fireLoop_fired hperiod _ t (Nat.lt_succ_of_le ?_)
  exact (takeWhile_sublist _).length_le

/-! ## The queue of a tab -/

/-- The queue holds declared timers, each of them once. -/
structure WellQueued (t : TimedTab F) : Prop where
  nodup : t.queued.Nodup
  declared : ∀ idx ∈ t.queued, idx < t.intervals.length

/-- Every timer that has an interval is queued. -/
def Complete (t : TimedTab F) : Prop := ∀ idx ms, t.interval idx = some ms → idx ∈ t.queued

theorem mem_queued {idx : Nat} : idx ∈ t.queued ↔ ∃ d, (d, idx) ∈ t.rootTimerQueue.entries := by
  simp [queued]

theorem interval_lt {idx ms : Nat} (h : t.interval idx = some ms) : idx < t.intervals.length := by
  obtain ⟨interval, hidx, -⟩ := bind_eq_some_iff.mp h
  exact (List.getElem?_eq_some_iff.mp hidx).1

theorem setupTimers_entries (t : TimedTab F) (now : Nat) :
    (t.setupTimers now).rootTimerQueue.entries.Perm
      (t.intervals.zipIdx.filterMap fun p =>
        (t.tab.store.resolveRootTimerInterval p.1).map fun ms => (now + fromMillis ms, p.2)) := by
  have key (l : List (TimerInterval × Nat)) (q : DeadlineQueue Nat) :
      (DeadlineQueue.entries (l.foldl (fun q (interval, idx) =>
        match t.tab.store.resolveRootTimerInterval interval with
        | some intervalMs => q.push (now + fromMillis intervalMs) idx
        | none => q) q)).Perm
      ((l.filterMap fun p =>
        (t.tab.store.resolveRootTimerInterval p.1).map fun ms => (now + fromMillis ms, p.2)) ++ q.entries) := by
    induction l generalizing q with
    | nil => exact .refl _
    | cons p l ih =>
      obtain ⟨interval, idx⟩ := p
      rw [foldl_cons, filterMap_cons]
      refine (ih _).trans ?_
      cases hms : t.tab.store.resolveRootTimerInterval interval with
      | none =>
        simp only [hms, map_none]
        exact .refl _
      | some ms =>
        simp only [hms, map_some]
        exact ((DeadlineQueue.entries_push _ _ _).append_left _).trans perm_middle
  have hsetup := key t.intervals.zipIdx []
  rw [DeadlineQueue.entries_nil, append_nil] at hsetup
  exact hsetup

theorem mem_setupTimers {d idx : Nat} : (d, idx) ∈ (t.setupTimers now).rootTimerQueue.entries ↔
    ∃ ms, t.interval idx = some ms ∧ d = now + fromMillis ms := by
  rw [(t.setupTimers_entries now).mem_iff, mem_filterMap]
  constructor
  · rintro ⟨⟨interval, i⟩, hmem, heq⟩
    obtain ⟨ms, hms, hpair⟩ := map_eq_some_iff.mp heq
    obtain ⟨rfl, rfl⟩ := Prod.mk.inj hpair
    have hidx := mem_zipIdx_iff_getElem?.mp hmem
    exact ⟨ms, by rw [TimedTab.interval, hidx]; exact hms, rfl⟩
  · rintro ⟨ms, hms, rfl⟩
    obtain ⟨interval, hidx, hresolve⟩ := bind_eq_some_iff.mp hms
    exact ⟨(interval, idx), mem_zipIdx_iff_getElem?.mpr hidx, by simp [hresolve]⟩

theorem setupTimers_wellQueued (t : TimedTab F) (now : Nat) : (t.setupTimers now).WellQueued where
  nodup := by
    refine ((t.setupTimers_entries now).map (·.2)).nodup_iff.mpr ?_
    have hsub : ((t.intervals.zipIdx.filterMap fun p =>
        (t.tab.store.resolveRootTimerInterval p.1).map fun ms => (now + fromMillis ms, p.2)).map (·.2)).Sublist
        (t.intervals.zipIdx.map (·.2)) := by
      induction t.intervals.zipIdx with
      | nil => exact .refl _
      | cons p l ih =>
        rw [filterMap_cons]
        cases t.tab.store.resolveRootTimerInterval p.1 with
        | none => exact ih.cons _
        | some ms => exact ih.cons_cons _
    refine hsub.nodup ?_
    rw [zipIdx_map_snd]
    exact nodup_range'
  declared idx hidx := by
    obtain ⟨d, hmem⟩ := mem_queued.mp hidx
    obtain ⟨ms, hms, -⟩ := mem_setupTimers.mp hmem
    exact interval_lt hms

theorem setupTimers_complete (t : TimedTab F) (now : Nat) : (t.setupTimers now).Complete :=
  fun _ _ hms => mem_queued.mpr ⟨_, mem_setupTimers.mpr ⟨_, hms, rfl⟩⟩

/-- The timers that are re-armed are among those that were due. -/
theorem rearmed_sublist (t : TimedTab F) (indices : List Nat) :
    ((indices.flatMap (t.rearmed now period)).map (·.2)).Sublist indices := by
  induction indices with
  | nil => exact .refl _
  | cons idx indices ih =>
    rw [flatMap_cons, map_append]
    unfold rearmed
    cases t.interval idx with
    | none => exact ih.cons _
    | some ms => exact ih.cons_cons _

theorem queued_split (t : TimedTab F) (now : Nat) :
    t.queued = t.dueIndices now ++ (t.rootTimerQueue.later now).entries.map (·.2) := by
  rw [dueIndices, ← map_append, DeadlineQueue.entries_split, queued]

/-- Firing queues no timer that was not queued, and none twice. -/
theorem Fired.queued_perm (h : Fired now period t t') : ∃ l, t'.queued.Perm l ∧ l.Sublist t.queued := by
  refine ⟨((t.dueIndices now).flatMap (t.rearmed now period)).map (·.2) ++
    (t.rootTimerQueue.later now).entries.map (·.2), ?_, ?_⟩
  · rw [← map_append]
    exact h.entries.map _
  · rw [queued_split t now]
    exact (rearmed_sublist t (t.dueIndices now)).append_right _

theorem Fired.queued_nodup (h : Fired now period t t') (hnodup : t.queued.Nodup) : t'.queued.Nodup := by
  obtain ⟨l, hperm, hsub⟩ := h.queued_perm
  exact hperm.nodup_iff.mpr (hsub.nodup hnodup)

theorem Fired.wellQueued (h : Fired now period t t') (hwell : t.WellQueued) : t'.WellQueued := by
  obtain ⟨l, hperm, hsub⟩ := h.queued_perm
  refine ⟨h.queued_nodup hwell.nodup, fun idx hidx => ?_⟩
  rw [h.same.intervals]
  exact hwell.declared idx (hsub.subset (hperm.mem_iff.mp hidx))

theorem Fired.complete (h : Fired now period t t') (hcomplete : t.Complete) : t'.Complete := by
  intro idx ms hms
  rw [h.same.interval] at hms
  have hold := hcomplete idx ms hms
  rw [queued_split t now] at hold
  rw [queued, (h.entries.map (·.2)).mem_iff, map_append, mem_append]
  refine (mem_append.mp hold).imp_left fun hdue => ?_
  refine mem_map.mpr ⟨(now + fromMillis (period ms), idx), mem_flatMap.mpr ⟨idx, hdue, ?_⟩, rfl⟩
  simp [rearmed, hms]

theorem Fired.nodup (h : Fired now period t t') (hnodup : t.queued.Nodup) (hnone : t.fired = []) :
    t'.fired.Nodup := by
  rw [queued_split t now] at hnodup
  rw [h.fired, hnone, nil_append]
  exact hnodup.of_append_left.filter _

/-- A timer that has not fired keeps its deadline. -/
theorem Fired.kept (h : Fired now period t t') (hwell : t.WellQueued) {d idx : Nat}
    (hmem : (d, idx) ∈ t'.rootTimerQueue.entries) (hnot : idx ∉ t'.fired) :
    (d, idx) ∈ t.rootTimerQueue.entries := by
  rw [← DeadlineQueue.entries_split now t.rootTimerQueue]
  rcases mem_append.mp (h.entries.mem_iff.mp hmem) with hrearmed | hlater
  · obtain ⟨idx', hdue, hpair⟩ := mem_flatMap.mp hrearmed
    have hidx : idx = idx' := by grind [map_eq_some_iff, rearmed]
    subst hidx
    refine absurd ?_ hnot
    have hqueued : idx ∈ t.queued := by
      rw [queued_split t now]
      exact mem_append_left _ hdue
    rw [h.fired]
    exact mem_append_right _ (mem_filter.mpr ⟨hdue, decide_eq_true (hwell.declared idx hqueued)⟩)
  · exact mem_append_right _ hlater

end TimedTab

/-! ## The window -/

/-- What a navigation that commits does to the timers. -/
inductive Load (F : Frontend) where
  /-- The document is installed. -/
  | done (tab : TabState F) (intervals : List TimerInterval) (now : Nat)
  /-- The document is rejected; only `window_url` is written. -/
  | rejected (url : String)
  /-- The document cannot be laid out; its timers have replaced the old ones, the queue has not. -/
  | fails (tab : TabState F) (intervals : List TimerInterval)

namespace TimedTab

variable {F : Frontend} (t : TimedTab F)

/-- The changed variables of a response. -/
def write (mutated : List (Symbol × Value)) : TimedTab F := { t with tab := t.tab.applyMutations mutated }

def load : Load F → TimedTab F
  | .done tab intervals now => { t with tab, intervals }.setupTimers now
  | .rejected url => { t with tab := { t.tab with store := t.tab.store.setRuntime "window_url" (.string url) } }
  | .fails tab intervals => { t with tab, intervals }

end TimedTab

/-- The tabs of a window and the active one. -/
structure TimerWindow (F : Frontend) where
  tabs : List (TimedTab F)
  activeTab : Nat

/-- What an idle tick drains, for the tab at a position. -/
inductive Drained (F : Frontend) where
  | response (i : Nat) (mutated : List (Symbol × Value))
  | load (i : Nat) (l : Load F)

inductive TimerMove (F : Frontend) where
  /-- The event loop is about to wait; the queue is rebuilt at one instant, the timers fire at another. -/
  | tick (drained : List (Drained F)) (rebuildAt now : Nat)
  /-- A navigation by the user commits at once. -/
  | load (i : Nat) (l : Load F)
  /-- The user types into the active tab. -/
  | typing
  | switchTab (i : Nat)
  | openTab (tab : TabState F)

namespace TimerWindow

variable {F : Frontend} (w : TimerWindow F)

/-- A window at startup. -/
def start (tab : TabState F) (intervals : List TimerInterval) (now : Nat) : TimerWindow F where
  tabs := [({ tab, intervals, rootTimerQueue := [], typingLayoutDirty := false, fired := [] } : TimedTab F).setupTimers
    now]
  activeTab := 0

def modify (i : Nat) (f : TimedTab F → TimedTab F) : TimerWindow F := { w with tabs := w.tabs.modify i f }

def drainOne (w : TimerWindow F) : Drained F → TimerWindow F
  | .response i mutated => w.modify i (·.write mutated)
  | .load i l => w.modify i (·.load l)

/-- The state of the active tab changes. -/
def changes : Drained F → Bool
  | .response i mutated => i = w.activeTab && !mutated.isEmpty
  | .load _ _ => false

/-- After draining, the queue of the active tab is rebuilt. -/
def rebuilds (drained : List (Drained F)) : Bool :=
  drained.any w.changes ||
    (drained.foldl drainOne w).tabs[w.activeTab]?.any (·.typingLayoutDirty)

/-- `recompute_dirty_layout`, as far as the timers go. -/
def recomputeDirtyLayout (rebuildAt : Nat) : TimerWindow F :=
  w.modify w.activeTab fun t => { t.setupTimers rebuildAt with typingLayoutDirty := false }

/-- Draining, and the rebuild after it. -/
def drain (drained : List (Drained F)) (rebuildAt : Nat) : TimerWindow F :=
  if w.rebuilds drained then (drained.foldl drainOne w).recomputeDirtyLayout rebuildAt
  else drained.foldl drainOne w

/-- The period of the tab at a position. -/
def periodOf (i : Nat) : Nat → Nat := if i = w.activeTab then id else backgroundTimerPeriod

/-- Fires what is due in every tab. -/
def fireAll (now : Nat) : Option (TimerWindow F) :=
  (w.tabs.zipIdx.mapM fun p : TimedTab F × Nat => p.1.fire now (w.periodOf p.2)).map ({ w with tabs := · })

/-- No timer has fired yet. -/
def unfired : TimerWindow F := { w with tabs := w.tabs.map ({ · with fired := [] }) }

/-- `dispatch_about_to_wait` for a tick, and what the user does between two of them. -/
def step (w : TimerWindow F) : TimerMove F → Option (TimerWindow F)
  | .tick drained rebuildAt now => (w.unfired.drain drained rebuildAt).fireAll now
  | .load i l => some (w.unfired.modify i (·.load l))
  | .typing => some (w.unfired.modify w.activeTab ({ · with typingLayoutDirty := true }))
  | .switchTab i => some { w.unfired with activeTab := if i < w.tabs.length then i else w.activeTab }
  | .openTab tab => some { w.unfired with tabs := w.unfired.tabs ++ [⟨tab, [], [], false, []⟩] }

end TimerWindow

/-- The document of the tab at a position is replaced. -/
def Load.replaces {F : Frontend} : Load F → Bool
  | .rejected _ => false
  | _ => true

def Drained.replaces {F : Frontend} (i : Nat) : Drained F → Bool
  | .load j l => j = i && l.replaces
  | .response _ _ => false

def TimerMove.replaces {F : Frontend} (i : Nat) : TimerMove F → Bool
  | .tick drained _ _ => drained.any (·.replaces i)
  | .load j l => j = i && l.replaces
  | _ => false

namespace TimerWindow

variable {F : Frontend} (w w' : TimerWindow F)

/-- The documents that are loaded can be laid out. -/
def LoadSettles : Load F → Prop
  | .fails _ _ => False
  | _ => True

/-- No response to a background tab gives an interval to a timer that is not queued. -/
def DrainedSettles (w : TimerWindow F) : Drained F → Prop
  | .response i mutated => i = w.activeTab ∨ ∀ t ∈ w.tabs[i]?, ∀ idx < t.intervals.length,
    (t.write mutated).interval idx ≠ none → idx ∈ t.queued
  | .load _ l => LoadSettles l

def DrainSettles (w : TimerWindow F) : List (Drained F) → Prop
  | [] => True
  | d :: ds => w.DrainedSettles d ∧ DrainSettles (w.drainOne d) ds

/-- No timer of the active tab that keeps its interval is pending for less than this interval. -/
def Unhurried (drained : List (Drained F)) (rebuildAt : Nat) : Prop :=
  ∀ t ∈ w.tabs[w.activeTab]?, ∀ t' ∈ (drained.foldl drainOne w).tabs[w.activeTab]?,
    ∀ e ∈ t.rootTimerQueue.entries, ∀ ms ∈ t'.interval e.2,
      t.interval e.2 = some ms → rebuildAt + fromMillis ms ≤ e.1

/-- A move that disturbs no timer. -/
def Undisturbed (w : TimerWindow F) : TimerMove F → Prop
  | .tick drained rebuildAt _ => w.unfired.DrainSettles drained ∧
    (w.unfired.rebuilds drained = true → drained.any (·.replaces w.activeTab) = false →
      w.unfired.Unhurried drained rebuildAt)
  | .load _ l => LoadSettles l
  | _ => True

/-- Every timer that has an interval is queued once, and no other index is queued. -/
structure Scheduled (w : TimerWindow F) : Prop where
  once : ∀ t ∈ w.tabs, ∀ idx, t.interval idx ≠ none → t.queued.count idx = 1
  declared : ∀ t ∈ w.tabs, ∀ idx ∈ t.queued, idx < t.intervals.length

/-- A deadline moves later only when its timer fires, its interval changes or the document is replaced. -/
def Punctual (m : TimerMove F) : Prop :=
  ∀ i t t', w.tabs[i]? = some t → w'.tabs[i]? = some t' → m.replaces i = false →
    ∀ idx d d', (d, idx) ∈ t.rootTimerQueue.entries → (d', idx) ∈ t'.rootTimerQueue.entries → d < d' →
      idx ∈ t'.fired ∨ t'.interval idx ≠ t.interval idx

/-! ## Draining -/

variable {w w' : TimerWindow F} {i : Nat} {t t₁ t' : TimedTab F}

theorem modify_getElem? {j : Nat} (f : TimedTab F → TimedTab F) (ht : w.tabs[j]? = some t) :
    (w.modify i f).tabs[j]? = some (if i = j then f t else t) := by
  unfold modify
  rw [List.getElem?_modify, ht]
  split <;> rfl

/-- What draining does to a tab: `quiet` if no variable of it changes that the queue must follow, `loaded`
if its document is replaced. -/
structure DrainedTo (quiet loaded : Prop) (t t₁ : TimedTab F) : Prop where
  wellQueued : t.WellQueued → t₁.WellQueued
  complete : quiet → t.Complete → t₁.Complete
  queue : ¬loaded → t₁.rootTimerQueue = t.rootTimerQueue ∧ t₁.intervals = t.intervals
  fired : t₁.fired = t.fired

theorem DrainedTo.refl (quiet loaded : Prop) (t : TimedTab F) : DrainedTo quiet loaded t t :=
  ⟨id, fun _ => id, fun _ => ⟨rfl, rfl⟩, rfl⟩

variable {quiet quiet' loaded loaded' : Prop}

theorem DrainedTo.trans (h : DrainedTo quiet loaded t t₁)
    (h' : DrainedTo quiet' loaded' t₁ t') : DrainedTo (quiet ∧ quiet') (loaded ∨ loaded') t t' where
  wellQueued hwell := h'.wellQueued (h.wellQueued hwell)
  complete hquiet hcomplete := h'.complete hquiet.2 (h.complete hquiet.1 hcomplete)
  queue hnot := by
    obtain ⟨hqueue, hintervals⟩ := h.queue fun hl => hnot (.inl hl)
    obtain ⟨hqueue', hintervals'⟩ := h'.queue fun hl => hnot (.inr hl)
    exact ⟨hqueue'.trans hqueue, hintervals'.trans hintervals⟩
  fired := h'.fired.trans h.fired

theorem DrainedTo.mono (h : DrainedTo quiet loaded t t₁)
    (hquiet : quiet' → quiet) (hloaded : loaded → loaded') : DrainedTo quiet' loaded' t t₁ :=
  ⟨h.wellQueued, fun hq => h.complete (hquiet hq), fun hnot => h.queue fun hl => hnot (hloaded hl), h.fired⟩

/-- A string gives no interval. -/
theorem interval_setRuntime {idx ms : Nat} (url : String)
    (h : (t.load (.rejected url)).interval idx = some ms) : t.interval idx = some ms := by
  obtain ⟨interval, hidx, hms⟩ := bind_eq_some_iff.mp h
  have hold : t.intervals[idx]? = some interval := hidx
  rw [TimedTab.interval, hold, bind_some]
  cases interval with
  | millis => exact hms
  | var varName =>
    have hget := t.tab.store.get_setRuntime "window_url" (.string url) varName
    dsimp only [TimedTab.load] at hms
    rcases hget with hsame | hstring
    · simpa only [VariableStore.resolveRootTimerInterval, hsame] using hms
    · simp [VariableStore.resolveRootTimerInterval, hstring, Value.isNull] at hms

theorem load_drainedTo (l : Load F) (hl : LoadSettles l) (t : TimedTab F) :
    DrainedTo True (l.replaces = true) t (t.load l) := by
  cases l with
  | done tab intervals now =>
    exact ⟨fun _ => TimedTab.setupTimers_wellQueued _ now, fun _ _ => TimedTab.setupTimers_complete _ now,
      fun hnot => absurd rfl hnot, rfl⟩
  | rejected url =>
    exact ⟨fun h => ⟨h.nodup, h.declared⟩, fun _ h idx ms hms => h idx ms (interval_setRuntime url hms),
      fun _ => ⟨rfl, rfl⟩, rfl⟩
  | fails tab intervals => cases hl

theorem drainOne_drainedTo (d : Drained F) (hd : w.DrainedSettles d) (ht : w.tabs[i]? = some t) :
    ∃ t₁, (w.drainOne d).tabs[i]? = some t₁ ∧
      DrainedTo (i = w.activeTab → w.changes d = false) (d.replaces i = true) t t₁ := by
  cases d with
  | response j mutated =>
    refine ⟨_, modify_getElem? _ ht, ?_⟩
    by_cases hji : j = i
    · subst hji
      rw [if_pos rfl]
      refine ⟨fun h => ⟨h.nodup, h.declared⟩, fun hquiet hcomplete idx ms hms => ?_, fun _ => ⟨rfl, rfl⟩, rfl⟩
      by_cases hactive : j = w.activeTab
      · have hnil : mutated = [] := by simpa [changes, hactive] using hquiet hactive
        subst hnil
        exact hcomplete idx ms hms
      · rcases hd with hd | hd
        · exact absurd hd hactive
        · have hlt : idx < (t.write mutated).intervals.length := TimedTab.interval_lt hms
          exact hd t ht idx hlt (by simp [hms])
    · rw [if_neg hji]
      exact .refl _ _ t
  | load j l =>
    refine ⟨_, modify_getElem? _ ht, ?_⟩
    by_cases hji : j = i
    · subst hji
      rw [if_pos rfl]
      exact (load_drainedTo l hd t).mono (fun _ => trivial) (fun hl => by simp [Drained.replaces, hl])
    · rw [if_neg hji]
      exact .refl _ _ t

theorem drainOne_activeTab (w : TimerWindow F) (d : Drained F) : (w.drainOne d).activeTab = w.activeTab := by
  cases d <;> rfl

variable (drained : List (Drained F))

theorem foldl_activeTab (w : TimerWindow F) : (drained.foldl drainOne w).activeTab = w.activeTab := by
  induction drained generalizing w with
  | nil => rfl
  | cons d ds ih => exact (ih _).trans (drainOne_activeTab w d)

theorem foldl_drainedTo (hd : w.DrainSettles drained)
    (ht : w.tabs[i]? = some t) : ∃ t₁, (drained.foldl drainOne w).tabs[i]? = some t₁ ∧
      DrainedTo (i = w.activeTab → drained.any w.changes = false)
        (drained.any (·.replaces i) = true) t t₁ := by
  induction drained generalizing w t with
  | nil => exact ⟨t, ht, .refl _ _ t⟩
  | cons d ds ih =>
    obtain ⟨t₁, ht₁, hone⟩ := drainOne_drainedTo d hd.1 ht
    obtain ⟨t₂, ht₂, hrest⟩ := ih hd.2 ht₁
    refine ⟨t₂, ht₂, (hone.trans hrest).mono (fun hquiet => ?_) (fun hl => ?_)⟩
    · have hchanges : (w.drainOne d).changes = w.changes := by
        funext d'
        cases d' <;> simp [changes, drainOne_activeTab]
      rw [drainOne_activeTab, hchanges]
      simp only [any_cons, Bool.or_eq_false_iff] at hquiet
      exact ⟨fun h => (hquiet h).1, fun h => (hquiet h).2⟩
    · simpa using hl

/-! ## A tick -/

/-- What a tick does to a tab before the timers fire. -/
structure Rebuilt (t t' : TimedTab F) : Prop where
  wellQueued : t'.WellQueued
  complete : t'.Complete
  fired : t'.fired = t.fired

theorem drain_rebuilt {drained : List (Drained F)} (rebuildAt : Nat) (hd : w.DrainSettles drained)
    (ht : w.tabs[i]? = some t) (hwell : t.WellQueued) (hcomplete : t.Complete) :
    ∃ t', (w.drain drained rebuildAt).tabs[i]? = some t' ∧ Rebuilt t t' ∧
      ((w.rebuilds drained = true → drained.any (·.replaces w.activeTab) = false →
          w.Unhurried drained rebuildAt) →
        drained.any (·.replaces i) = false →
        ∀ idx d d', (d, idx) ∈ t.rootTimerQueue.entries → (d', idx) ∈ t'.rootTimerQueue.entries → d < d' →
          t'.interval idx ≠ t.interval idx) := by
  obtain ⟨t₁, ht₁, hdrained⟩ := foldl_drainedTo drained hd ht
  have hactive := foldl_activeTab drained w
  -- A queue that is not rebuilt keeps its entries.
  have hkept : (i = w.activeTab → drained.any w.changes = false) → Rebuilt t t₁ ∧
      (drained.any (·.replaces i) = false → ∀ idx d d', (d, idx) ∈ t.rootTimerQueue.entries →
        (d', idx) ∈ t₁.rootTimerQueue.entries → ¬d < d') := by
    refine fun hquiet => ⟨⟨hdrained.wellQueued hwell, hdrained.complete hquiet hcomplete, hdrained.fired⟩, ?_⟩
    intro hnot idx d d' hold hnew
    rw [(hdrained.queue (by simp [hnot])).1] at hnew
    have hpair := inj_on_of_nodup_map hwell.nodup hold hnew rfl
    rw [(Prod.mk.inj hpair).1]
    exact lt_irrefl d'
  unfold drain
  cases hrebuilds : w.rebuilds drained with
  | false =>
    have hchanges : drained.any w.changes = false := (Bool.or_eq_false_iff.mp hrebuilds).1
    obtain ⟨hrebuilt, hlater⟩ := hkept fun _ => hchanges
    exact ⟨t₁, ht₁, hrebuilt, fun _ hnot idx d d' hold hnew hlt => absurd hlt (hlater hnot idx d d' hold hnew)⟩
  | true =>
    simp only [if_true, recomputeDirtyLayout, hactive]
    refine ⟨_, modify_getElem? _ ht₁, ?_⟩
    by_cases hi : w.activeTab = i
    · subst hi
      rw [if_pos rfl]
      have hsetup := t₁.setupTimers_wellQueued rebuildAt
      refine ⟨⟨⟨hsetup.nodup, hsetup.declared⟩, t₁.setupTimers_complete rebuildAt, hdrained.fired⟩, ?_⟩
      intro hunhurried hnot idx d d' hold hnew hlt hsame
      obtain ⟨ms, hms, rfl⟩ := TimedTab.mem_setupTimers.mp hnew
      have hinterval : t.interval idx = some ms := hsame.symm.trans hms
      have hle := hunhurried trivial hnot t ht t₁ ht₁ (d, idx) hold ms hms hinterval
      omega
    · grind

theorem modify_length (f : TimedTab F → TimedTab F) : (w.modify i f).tabs.length = w.tabs.length :=
  length_modify ..

theorem foldl_length (w : TimerWindow F) : (drained.foldl drainOne w).tabs.length = w.tabs.length := by
  induction drained generalizing w with
  | nil => rfl
  | cons d ds ih =>
    refine (ih _).trans ?_
    cases d <;> exact modify_length _

theorem drain_length (w : TimerWindow F) (drained : List (Drained F)) (rebuildAt : Nat) :
    (w.drain drained rebuildAt).tabs.length = w.tabs.length := by
  unfold drain
  split
  · exact (modify_length _).trans (foldl_length drained w)
  · exact foldl_length drained w

theorem periodOf_pos (w : TimerWindow F) (i : Nat) {ms : Nat} (h : 16 ≤ ms) : 0 < w.periodOf i ms := by
  unfold periodOf backgroundTimerPeriod
  split
  · exact lt_of_lt_of_le (by decide) h
  · exact lt_of_lt_of_le (by decide) (le_max_left ms 1000 |>.trans' h)

/-- Every list of computations that all have a result has one. -/
theorem mapM_some {α β : Type} {f : α → Option β} {P : α → β → Prop} (l : List α)
    (h : ∀ a ∈ l, ∃ b, f a = some b ∧ P a b) :
    ∃ l' : List β, l.mapM f = some l' ∧ l'.length = l.length ∧
      ∀ (i : Nat) (a : α) (b : β), l[i]? = some a → l'[i]? = some b → P a b := by
  induction l with
  | nil => exact ⟨[], rfl, rfl, fun i a b ha => by simp at ha⟩
  | cons a l ih =>
    obtain ⟨b, hb, hP⟩ := h a mem_cons_self
    obtain ⟨l', hl', hlen, hat⟩ := ih fun a ha => h a (mem_cons_of_mem _ ha)
    refine ⟨b :: l', by simp [hb, hl'], by simp [hlen], fun i a' b' ha' hb' => ?_⟩
    cases i with
    | zero => grind
    | succ i => exact hat i a' b' ha' hb'

theorem fireAll_fired (w : TimerWindow F) (now : Nat) : ∃ w', w.fireAll now = some w' ∧
    w'.activeTab = w.activeTab ∧ w'.tabs.length = w.tabs.length ∧
    ∀ i t t', w.tabs[i]? = some t → w'.tabs[i]? = some t' → TimedTab.Fired now (w.periodOf i) t t' := by
  obtain ⟨tabs, htabs, hlen, hat⟩ := mapM_some (f := fun p : TimedTab F × Nat => p.1.fire now (w.periodOf p.2))
    (P := fun p t' => TimedTab.Fired now (w.periodOf p.2) p.1 t') w.tabs.zipIdx
    fun p _ => TimedTab.fire_fired (fun _ => w.periodOf_pos p.2) p.1 now
  refine ⟨{ w with tabs }, by rw [fireAll, htabs]; rfl, rfl, by simpa using hlen, fun i t t' ht ht' => ?_⟩
  exact hat i (t, i) t' (by simp [ht]) ht'

/-! ## Runs -/

/-- Every queue is as it should be. -/
def Inv (w : TimerWindow F) : Prop := ∀ t ∈ w.tabs, t.WellQueued ∧ t.Complete

theorem Inv.scheduled (h : w.Inv) : w.Scheduled where
  once t ht idx hidx := by
    obtain ⟨hwell, hcomplete⟩ := h t ht
    obtain ⟨ms, hms⟩ := ne_none_iff_exists'.mp hidx
    exact count_eq_one_of_mem hwell.nodup (hcomplete idx ms hms)
  declared t ht := (h t ht).1.declared

theorem unfired_getElem? (w : TimerWindow F) (i : Nat) :
    w.unfired.tabs[i]? = w.tabs[i]?.map ({ · with fired := [] }) :=
  List.getElem?_map ..

/-- What a move does to the tab at a position. -/
structure Moved (m : TimerMove F) (i : Nat) (t t' : TimedTab F) : Prop where
  wellQueued : t'.WellQueued
  complete : t'.Complete
  nodup : t'.fired.Nodup
  punctual : m.replaces i = false → ∀ idx d d', (d, idx) ∈ t.rootTimerQueue.entries →
    (d', idx) ∈ t'.rootTimerQueue.entries → d < d' → idx ∈ t'.fired ∨ t'.interval idx ≠ t.interval idx

variable {m : TimerMove F}

/-- A move that leaves the queue and the intervals of a tab alone. -/
theorem Moved.same (hwell : t.WellQueued) (hcomplete : t.Complete)
    (hqueue : t'.rootTimerQueue = t.rootTimerQueue) (hsame : t.SameIntervals t') (hfired : t'.fired = []) :
    Moved m i t t' where
  wellQueued := by
    have hqueued : t'.queued = t.queued := by rw [TimedTab.queued, hqueue, TimedTab.queued]
    exact ⟨hqueued ▸ hwell.nodup, fun idx hidx => hsame.intervals ▸ hwell.declared idx (hqueued ▸ hidx)⟩
  complete idx ms hms := by
    rw [hsame.interval] at hms
    rw [TimedTab.queued, hqueue]
    exact hcomplete idx ms hms
  nodup := by
    rw [hfired]
    exact nodup_nil
  punctual _ idx d d' hold hnew hlt := by
    rw [hqueue] at hnew
    have hpair := inj_on_of_nodup_map hwell.nodup hold hnew rfl
    exact absurd hlt (by rw [(Prod.mk.inj hpair).1]; exact lt_irrefl d')

theorem step_moved (h : w.Inv) (hgood : w.Undisturbed m) (hstep : w.step m = some w')
    (ht' : w'.tabs[i]? = some t') : (w.tabs[i]? = none ∧ t'.rootTimerQueue = [] ∧ t'.intervals = [] ∧ t'.fired = []) ∨
      ∃ t, w.tabs[i]? = some t ∧ Moved m i t t' := by
  have hunfired : w.unfired.tabs.length = w.tabs.length := length_map _
  -- The tab before the move, if there was one.
  have hbefore (hlt : i < w.tabs.length) : ∃ t, w.tabs[i]? = some t ∧
      w.unfired.tabs[i]? = some { t with fired := [] } ∧ t.WellQueued ∧ t.Complete := by
    have ht : w.tabs[i]? = some w.tabs[i] := List.getElem?_eq_getElem hlt
    exact ⟨_, ht, by rw [unfired_getElem?, ht]; rfl, h _ (getElem_mem hlt)⟩
  cases m with
  | tick drained rebuildAt now =>
    obtain ⟨w₂, hfire, -, hlen, hat⟩ := (w.unfired.drain drained rebuildAt).fireAll_fired now
    obtain rfl : w₂ = w' := some.inj (hfire.symm.trans hstep)
    have hlt : i < w.tabs.length := by grind [drain_length]
    obtain ⟨t, ht, hstart, hwell, hcomplete⟩ := hbefore hlt
    obtain ⟨t₂, ht₂, hrebuilt, hlater⟩ := drain_rebuilt rebuildAt hgood.1 hstart
      ⟨hwell.nodup, hwell.declared⟩ hcomplete
    have hfired := hat i t₂ t' ht₂ ht'
    refine .inr ⟨t, ht, hfired.wellQueued hrebuilt.wellQueued, hfired.complete hrebuilt.complete,
      hfired.nodup hrebuilt.wellQueued.nodup hrebuilt.fired, fun hnot idx d d' hold hnew hlt' => ?_⟩
    by_cases hmem : idx ∈ t'.fired
    · exact .inl hmem
    · right
      rw [hfired.same.interval]
      exact hlater hgood.2 hnot idx d d' hold (hfired.kept hrebuilt.wellQueued hnew hmem) hlt'
  | load j l =>
    obtain rfl := some.inj hstep
    have hlt : i < w.tabs.length := by grind [modify_length]
    obtain ⟨t, ht, hstart, hwell, hcomplete⟩ := hbefore hlt
    obtain rfl := some.inj ((modify_getElem? _ hstart).symm.trans ht')
    refine .inr ⟨t, ht, ?_⟩
    by_cases hji : j = i
    · subst hji
      rw [if_pos rfl]
      have hloaded := load_drainedTo l hgood { t with fired := [] }
      refine ⟨hloaded.wellQueued ⟨hwell.nodup, hwell.declared⟩, hloaded.complete trivial hcomplete, ?_, ?_⟩
      · rw [hloaded.fired]
        exact nodup_nil
      · intro hnot idx d d' hold hnew hlt'
        have hkeeps : ¬l.replaces = true := by simpa [TimerMove.replaces] using hnot
        rw [(hloaded.queue hkeeps).1] at hnew
        have hpair := inj_on_of_nodup_map hwell.nodup hold hnew rfl
        exact absurd hlt' (by rw [(Prod.mk.inj hpair).1]; exact lt_irrefl d')
    · rw [if_neg hji]
      exact .same hwell hcomplete rfl ⟨rfl, rfl⟩ rfl
  | typing =>
    obtain rfl := some.inj hstep
    have hlt : i < w.tabs.length := by grind [modify_length]
    obtain ⟨t, ht, hstart, hwell, hcomplete⟩ := hbefore hlt
    obtain rfl := some.inj ((modify_getElem? _ hstart).symm.trans ht')
    refine .inr ⟨t, ht, .same hwell hcomplete ?_ ?_ ?_⟩
    · split <;> rfl
    · split <;> exact ⟨rfl, rfl⟩
    · split <;> rfl
  | switchTab j =>
    obtain rfl := some.inj hstep
    have hlt : i < w.tabs.length := by grind
    obtain ⟨t, ht, hstart, hwell, hcomplete⟩ := hbefore hlt
    obtain rfl := some.inj (hstart.symm.trans ht')
    exact .inr ⟨t, ht, .same hwell hcomplete rfl ⟨rfl, rfl⟩ rfl⟩
  | openTab tab =>
    obtain rfl := some.inj hstep
    by_cases hlt : i < w.tabs.length
    · obtain ⟨t, ht, hstart, hwell, hcomplete⟩ := hbefore hlt
      rw [List.getElem?_append_left (hunfired ▸ hlt), hstart] at ht'
      obtain rfl := some.inj ht'
      exact .inr ⟨t, ht, .same hwell hcomplete rfl ⟨rfl, rfl⟩ rfl⟩
    · grind

theorem step_inv (h : w.Inv) (hgood : w.Undisturbed m) (hstep : w.step m = some w') : w'.Inv := by
  intro t' hmem
  obtain ⟨i, ht'⟩ := mem_iff_getElem?.mp hmem
  rcases step_moved h hgood hstep ht' with ⟨-, hqueue, hintervals, -⟩ | ⟨t, -, hmoved⟩
  · have hnone : t'.queued = [] := by rw [TimedTab.queued, hqueue]; rfl
    refine ⟨⟨hnone ▸ nodup_nil, by simp [hnone]⟩, fun idx ms hms => ?_⟩
    simp [TimedTab.interval, hintervals] at hms
  · exact ⟨hmoved.wellQueued, hmoved.complete⟩

theorem step_punctual (h : w.Inv) (hgood : w.Undisturbed m) (hstep : w.step m = some w') :
    w.Punctual w' m := by
  intro i t t' ht ht' hnot
  rcases step_moved h hgood hstep ht' with ⟨hnone, -⟩ | ⟨t₀, ht₀, hmoved⟩
  · rw [hnone] at ht
    cases ht
  · obtain rfl := some.inj (ht₀.symm.trans ht)
    exact hmoved.punctual hnot

theorem modify_forall {P : TimedTab F → Prop} {f : TimedTab F → TimedTab F} (h : ∀ t ∈ w.tabs, P t)
    (hf : ∀ t, P t → P (f t)) : ∀ t ∈ (w.modify i f).tabs, P t := by
  intro t' hmem
  obtain ⟨j, ht'⟩ := mem_iff_getElem?.mp hmem
  have hlt : j < w.tabs.length := by grind [modify_length]
  have ht : w.tabs[j]? = some w.tabs[j] := List.getElem?_eq_getElem hlt
  obtain rfl := some.inj ((modify_getElem? f ht).symm.trans ht')
  split
  · exact hf _ (h _ (getElem_mem hlt))
  · exact h _ (getElem_mem hlt)

/-- No queue holds a timer twice, and none has fired in this move. -/
def Ready (w : TimerWindow F) : Prop := ∀ t ∈ w.tabs, t.queued.Nodup ∧ t.fired = []

theorem Ready.load (h : w.Ready) (i : Nat) (l : Load F) : (w.modify i (·.load l)).Ready :=
  modify_forall h fun t ht => by
    cases l with
    | done tab intervals now => exact ⟨(TimedTab.setupTimers_wellQueued _ now).nodup, ht.2⟩
    | rejected url | fails tab intervals => exact ht

theorem Ready.drain (h : w.Ready) (drained : List (Drained F)) (rebuildAt : Nat) :
    (w.drain drained rebuildAt).Ready := by
  have hfold : (drained.foldl drainOne w).Ready := by
    induction drained generalizing w with
    | nil => exact h
    | cons d ds ih =>
      refine ih ?_
      cases d with
      | response j mutated => exact modify_forall h fun t ht => ht
      | load j l => exact h.load j l
  unfold TimerWindow.drain
  split
  · exact modify_forall hfold fun t ht => ⟨(t.setupTimers_wellQueued rebuildAt).nodup, ht.2⟩
  · exact hfold

/-- No queue holds a timer twice, and none has just fired twice. -/
def Once (w : TimerWindow F) : Prop := ∀ t ∈ w.tabs, t.queued.Nodup ∧ t.fired.Nodup

theorem Ready.once (h : w.Ready) : w.Once := fun t ht => ⟨(h t ht).1, (h t ht).2 ▸ List.nodup_nil⟩

/-- In every run the firing loops end, and no timer fires twice. -/
theorem step_once (h : w.Once) (m : TimerMove F) : ∃ w', w.step m = some w' ∧ w'.Once := by
  have hready : w.unfired.Ready := by
    intro t ht
    obtain ⟨t, hmem, rfl⟩ := mem_map.mp ht
    exact ⟨(h t hmem).1, rfl⟩
  cases m with
  | tick drained rebuildAt now =>
    obtain ⟨w', hfire, -, hlen, hat⟩ := (w.unfired.drain drained rebuildAt).fireAll_fired now
    refine ⟨w', hfire, fun t' hmem => ?_⟩
    obtain ⟨i, ht'⟩ := mem_iff_getElem?.mp hmem
    have hlt := (List.getElem?_eq_some_iff.mp ht').1
    rw [hlen] at hlt
    obtain ⟨hnodup, hnone⟩ := hready.drain drained rebuildAt _ (getElem_mem hlt)
    have hfired := hat i _ t' (List.getElem?_eq_getElem hlt) ht'
    exact ⟨hfired.queued_nodup hnodup, hfired.nodup hnodup hnone⟩
  | load j l => exact ⟨_, rfl, (hready.load j l).once⟩
  | typing => exact ⟨_, rfl, Ready.once (modify_forall hready fun t ht => ht)⟩
  | switchTab j => exact ⟨_, rfl, hready.once⟩
  | openTab tab =>
    refine ⟨_, rfl, Ready.once fun t ht => ?_⟩
    rcases mem_append.mp ht with ht | ht
    · exact hready t ht
    · rw [mem_singleton.mp ht]
      exact ⟨nodup_nil, rfl⟩

theorem start_inv (intervals : List TimerInterval) (now : Nat) : (start tab intervals now).Inv := by
  intro t ht
  obtain rfl := mem_singleton.mp ht
  exact ⟨TimedTab.setupTimers_wellQueued _ now, TimedTab.setupTimers_complete _ now⟩

theorem start_once (intervals : List TimerInterval) (now : Nat) : (start tab intervals now).Once := by
  intro t ht
  obtain rfl := mem_singleton.mp ht
  exact ⟨(TimedTab.setupTimers_wellQueued _ now).nodup, nodup_nil⟩

/-! ## The conditions, decided -/

instance (l : Load F) : Decidable (LoadSettles l) :=
  match l with
  | .done _ _ _ | .rejected _ => isTrue trivial
  | .fails _ _ => isFalse id

instance (w : TimerWindow F) (d : Drained F) : Decidable (w.DrainedSettles d) :=
  match d with
  | .response i mutated => inferInstanceAs (Decidable (i = w.activeTab ∨ ∀ t ∈ w.tabs[i]?,
      ∀ idx < t.intervals.length, (t.write mutated).interval idx ≠ none → idx ∈ t.queued))
  | .load _ l => inferInstanceAs (Decidable (LoadSettles l))

instance decidableDrainSettles : (w : TimerWindow F) → (ds : List (Drained F)) → Decidable (w.DrainSettles ds)
  | _, [] => isTrue trivial
  | w, d :: ds =>
    have := decidableDrainSettles (w.drainOne d) ds
    inferInstanceAs (Decidable (_ ∧ _))

instance (w : TimerWindow F) (drained : List (Drained F)) (rebuildAt : Nat) :
    Decidable (w.Unhurried drained rebuildAt) :=
  inferInstanceAs (Decidable (∀ t ∈ w.tabs[w.activeTab]?, ∀ t' ∈ (drained.foldl drainOne w).tabs[w.activeTab]?,
    ∀ e ∈ t.rootTimerQueue.entries, ∀ ms ∈ t'.interval e.2,
      t.interval e.2 = some ms → rebuildAt + fromMillis ms ≤ e.1))

instance (w : TimerWindow F) (m : TimerMove F) : Decidable (w.Undisturbed m) :=
  match m with
  | .tick _ _ _ => inferInstanceAs (Decidable (_ ∧ (_ → _ → _)))
  | .load _ l => inferInstanceAs (Decidable (LoadSettles l))
  | .typing | .switchTab _ | .openTab _ => isTrue trivial

end TimerWindow

/-- The firing loops end and no timer fires twice in a tick; where nothing disturbs the timers, they are all
queued, and their deadlines stay. -/
theorem timers_keep_schedule {F : Frontend} (tab : TabState F) (intervals : List TimerInterval) (now : Nat) :
    (∀ w : TimerWindow F, Transition.Reaches TimerWindow.step (fun _ _ => True) (.start tab intervals now) w →
      ∀ m, ∃ w', w.step m = some w' ∧ ∀ t ∈ w'.tabs, t.fired.Nodup) ∧
    ∀ w : TimerWindow F, Transition.Reaches TimerWindow.step TimerWindow.Undisturbed (.start tab intervals now) w →
      w.Scheduled ∧ ∀ m w', w.Undisturbed m → w.step m = some w' → w.Punctual w' m := by
  constructor
  · intro w hreaches m
    have honce : w.Once := hreaches.invariant (TimerWindow.start_once tab intervals now)
      fun s l s' hs _ hstep => by
        obtain ⟨s'', hstep', hs''⟩ := TimerWindow.step_once hs l
        exact some.inj (hstep'.symm.trans hstep) ▸ hs''
    obtain ⟨w', hstep, hw'⟩ := TimerWindow.step_once honce m
    exact ⟨w', hstep, fun t ht => (hw' t ht).2⟩
  · intro w hreaches
    have hinv : w.Inv := hreaches.invariant (TimerWindow.start_inv tab intervals now)
      fun _ _ _ hs hgood hstep => TimerWindow.step_inv hs hgood hstep
    exact ⟨hinv.scheduled, fun m w' hgood hstep => TimerWindow.step_punctual hinv hgood hstep⟩

/-- A window at startup, with a timer of 100 ms and one of a second. -/
def twoTimers : TimerWindow plainFrontend :=
  .start (plainTab plainFrontend () "mizu://a.mizu/") [.millis 100, .millis 1000] 0

theorem timers_keep_schedule_fired : ∃ w : TimerWindow plainFrontend,
    w.tabs.map (·.fired) = [[0, 1], []] ∧ w.Scheduled := by
  obtain ⟨w, hreaches, hfired⟩ := Transition.exists_reaches_of_run TimerWindow.step TimerWindow.Undisturbed
    twoTimers
    [.tick [] 0 (fromMillis 100), .openTab (plainTab plainFrontend () "about:blank"), .switchTab 1,
      .switchTab 0, .tick [.response 1 [(⟨0⟩, .int 1)]] 0 (fromMillis 1000)]
    (p := fun w => w.tabs.map (·.fired) == [[0, 1], []]) (by decide)
  exact ⟨w, eq_of_beq hfired, ((timers_keep_schedule (plainTab plainFrontend () "mizu://a.mizu/")
    [.millis 100, .millis 1000] 0).2 w hreaches).1⟩

/-- Whenever the fast timer has changed a variable, the slow one starts anew. -/
theorem fast_timer_postpones :
    ¬∀ (F : Frontend) (tab : TabState F) (intervals : List TimerInterval) (now : Nat) (w : TimerWindow F),
      Transition.Reaches TimerWindow.step (fun _ _ => True) (.start tab intervals now) w →
        w.Scheduled ∧ ∀ m w', w.step m = some w' → w.Punctual w' m := by
  intro h
  let m : TimerMove plainFrontend := .tick [.response 0 [(⟨0⟩, .int 1)]] (fromMillis 120) (fromMillis 120)
  let pending (t : TimedTab plainFrontend) (ms : Nat) : Bool :=
    (fromMillis ms, 1) ∈ t.rootTimerQueue.entries && 1 ∉ t.fired && t.interval 1 = some 1000
  obtain ⟨w, hreaches, hrun⟩ := Transition.exists_reaches_of_run TimerWindow.step (fun _ _ => True)
    twoTimers [.tick [] 0 (fromMillis 100)]
    (p := fun w => w.tabs[0]?.any (pending · 1000) && (w.step m).any (·.tabs[0]?.any (pending · 1120)))
    (by decide)
  obtain ⟨hold, hnew⟩ := Bool.and_eq_true_iff.mp hrun
  obtain ⟨t, ht, hpending⟩ := (any_eq_true _ _).mp hold
  obtain ⟨w', hstep, hnew⟩ := (any_eq_true _ _).mp hnew
  obtain ⟨t', ht', hpending'⟩ := (any_eq_true _ _).mp hnew
  simp only [pending, Bool.and_eq_true, decide_eq_true_eq] at hpending hpending'
  have hpunctual := (h plainFrontend (plainTab plainFrontend () "mizu://a.mizu/") [.millis 100, .millis 1000] 0 w
    hreaches).2 m w' hstep
  rcases hpunctual 0 t t' ht ht' rfl 1 _ _ hpending.1.1 hpending'.1.1 (by decide) with hfired | hinterval
  · exact hpending'.1.2 hfired
  · exact hinterval (hpending'.2.trans hpending.2.symm)

end Mizu
