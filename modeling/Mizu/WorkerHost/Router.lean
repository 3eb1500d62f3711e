import Mizu.Ipc.Frame
import Mizu.WorkerHost.Lifecycle

/-!
# The router thread and the sockets it writes to

One thread launches the workers, waits for their handshake and writes every event, all with blocking
calls. A worker's process may do anything: not connect, send no greeting, stop reading, exit. Its socket
holds `capacity` bytes, and a write to a full one waits.

* `never_stalled`: in every run that meets a condition on launches and long writes, the router never waits
  for a process while an event for a healthy worker of another tab is queued.
* `launch_stalls`: a process that does not connect holds up the events of every other tab.
-/

namespace Mizu

open Transition Option

/-- A worker's process, as far as the router can wait for it. -/
structure WorkerProcess where
  connected : Bool
  /-- The first frame it has sent, if any: whether it is a `Hello` with the right token. -/
  greeting : Option Bool
  exited : Bool
  /-- Bytes in its socket that it has not read. -/
  unread : Nat
  deriving DecidableEq, Repr

def WorkerProcess.launched : WorkerProcess := ⟨false, none, false, 0⟩

/-- Where the router thread is. -/
inductive RouterPhase where
  /-- At `rx.recv`. -/
  | idle
  /-- At `accept`, in `spawn_worker`. -/
  | accepting (tab : TabId) (event : UiEvent) (p : WorkerProcess)
  /-- At the first `recv`, in `spawn_worker`. -/
  | greeting (tab : TabId) (event : UiEvent) (p : WorkerProcess)
  /-- In `write_frame`, with so many bytes to go. -/
  | writing (tab : TabId) (event : UiEvent) (remaining : Nat)

/-- The tab whose process the router is busy with. -/
def RouterPhase.busyWith : RouterPhase → Option TabId
  | idle => none
  | accepting tab _ _ | greeting tab _ _ | writing tab _ _ => some tab

structure Router where
  /-- What the window has sent. -/
  queue : List (TabId × UiEvent)
  live : FxHashMap TabId WorkerProcess
  phase : RouterPhase
  /-- The events written out, in order. -/
  delivered : List (TabId × UiEvent)

def Router.start : Router := ⟨[], ∅, .idle, []⟩

inductive RouterMove where
  /-- The window sends an event. -/
  | post (tab : TabId) (event : UiEvent)
  /-- The router takes an event; it launches a process if the tab has no worker. -/
  | take
  /-- The router takes an event, and the system cannot launch a process for it. -/
  | launchFails
  /-- `accept` returns. -/
  | accept
  /-- The first `recv` returns. -/
  | greet
  /-- A write puts some bytes into the socket. -/
  | push (bytes : Nat)
  /-- A write to a process that has exited fails. -/
  | pushFails
  /-- The launched process connects, sends its first frame, or exits. -/
  | connect
  | hello (ok : Bool)
  | abort
  /-- A worker reads, or exits. Its replies are the reader thread's business. -/
  | drain (tab : TabId) (bytes : Nat)
  | exit (tab : TabId)
  | reply (tab : TabId)

/-- The moves of the router thread. -/
def RouterMove.ofRouter : RouterMove → Prop
  | take | launchFails | accept | greet | push _ | pushFails => True
  | _ => False

variable {tab : TabId} {event : UiEvent}

namespace Router

variable (capacity : Nat) (frameBytes : UiEvent → Nat)

/-- `IpcSender::send` starts: a frame that is too long fails at once, and the worker is dropped. -/
def beginSend (s : Router) (tab : TabId) (event : UiEvent) : Router :=
  if maxFrameBytes < frameBytes event then { s with live := s.live.erase tab, phase := .idle }
  else { s with phase := .writing tab event (4 + frameBytes event) }

/-- What the router does with an event it has taken. -/
def route (s : Router) (tab : TabId) : UiEvent → Router
  | .closeTab => { s with live := s.live.erase tab }
  | event =>
    if tab ∈ s.live then s.beginSend frameBytes tab event
    else { s with phase := .accepting tab event .launched }

/-- A worker's process changes. -/
def updateLive (s : Router) (tab : TabId) (f : WorkerProcess → Option WorkerProcess) : Option Router :=
  match s.live.lookup tab with
  | none => none
  | some p => (f p).map fun p => { s with live := s.live.insert tab p }

/-- The process that is being launched changes. -/
def updateLaunched (s : Router) (f : WorkerProcess → Option WorkerProcess) : Option Router :=
  match s.phase with
  | .accepting tab event p => (f p).map fun p => { s with phase := .accepting tab event p }
  | .greeting tab event p => (f p).map fun p => { s with phase := .greeting tab event p }
  | _ => none

def accept (s : Router) : Option Router :=
  match s.phase with
  | .accepting tab event p => if p.connected then some { s with phase := .greeting tab event p } else none
  | _ => none

/-- The first frame decides; without one, only the end of the stream does. -/
def greet (s : Router) : Option Router :=
  match s.phase with
  | .greeting tab event p =>
    match p.greeting, p.exited with
    | some true, _ => some (beginSend frameBytes { s with live := s.live.insert tab p } tab event)
    | some false, _ | none, true => some { s with phase := .idle }
    | none, false => none
  | _ => none

def push (s : Router) (bytes : Nat) : Option Router :=
  match s.phase with
  | .writing tab event remaining =>
    match s.live.lookup tab with
    | none => none
    | some p =>
      if 0 < bytes ∧ bytes ≤ remaining ∧ p.unread + bytes ≤ capacity ∧ ¬p.exited then
        let s := { s with live := s.live.insert tab { p with unread := p.unread + bytes } }
        if bytes = remaining then
          some { s with phase := .idle, delivered := s.delivered ++ [(tab, event)] }
        else some { s with phase := .writing tab event (remaining - bytes) }
      else none
  | _ => none

def pushFails (s : Router) : Option Router :=
  match s.phase with
  | .writing tab _ _ =>
    match s.live.lookup tab with
    | none => none
    | some p => if p.exited then some { s with live := s.live.erase tab, phase := .idle } else none
  | _ => none

/-- One move; `none` if the party cannot make it. -/
def step (s : Router) : RouterMove → Option Router
  | .post tab event => some { s with queue := s.queue ++ [(tab, event)] }
  | .take =>
    match s.phase, s.queue with
    | .idle, (tab, event) :: queue => some (route frameBytes { s with queue } tab event)
    | _, _ => none
  | .launchFails =>
    match s.phase, s.queue with
    | .idle, (tab, event) :: queue =>
      if tab ∈ s.live then none
      else
        match event with
        | .closeTab => none
        | _ => some { s with queue }
    | _, _ => none
  | .accept => s.accept
  | .greet => s.greet frameBytes
  | .push bytes => s.push capacity bytes
  | .pushFails => s.pushFails
  | .connect => s.updateLaunched fun p => if p.exited then none else some { p with connected := true }
  | .hello ok => s.updateLaunched fun p =>
      if p.connected ∧ p.greeting = none ∧ ¬p.exited then some { p with greeting := some ok } else none
  | .abort => s.updateLaunched fun p => some { p with exited := true }
  | .drain tab bytes => s.updateLive tab fun p =>
      if bytes ≤ p.unread ∧ ¬p.exited then some { p with unread := p.unread - bytes } else none
  | .exit tab => s.updateLive tab fun p => some { p with exited := true }
  | .reply tab => s.updateLive tab fun p => if p.exited then none else some p

/-! ## Waiting -/

/-- The router thread is in a call that only the process of the tab can end. -/
def WaitsOn (s : Router) (tab : TabId) : Prop :=
  match s.phase with
  | .idle => False
  | .accepting tab' _ p => tab' = tab ∧ p.connected = false
  | .greeting tab' _ p => tab' = tab ∧ p.greeting = none ∧ p.exited = false
  | .writing tab' _ _ =>
    tab' = tab ∧ ∃ p, s.live.lookup tab = some p ∧ p.exited = false ∧ capacity ≤ p.unread

/-- The tab has a worker that runs. -/
def Healthy (s : Router) (tab : TabId) : Prop := ∃ p, s.live.lookup tab = some p ∧ p.exited = false

/-- The worker of the tab runs and has room for the event. -/
def Ready (s : Router) (tab : TabId) (event : UiEvent) : Prop :=
  ∃ p, s.live.lookup tab = some p ∧ p.exited = false ∧ frameBytes event ≤ maxFrameBytes ∧
    p.unread + (4 + frameBytes event) ≤ capacity

/-- No worker is held up by another tab's process. -/
structure NotStalled (s : Router) : Prop where
  /-- While an event for a healthy worker is queued, the router waits for no other tab's process. -/
  free : ∀ tab event, (tab, event) ∈ s.queue → s.Healthy tab →
    ∀ other, s.WaitsOn capacity other → other = tab
  /-- Unless it waits for that worker itself, it can move. -/
  moves : ∀ tab event, (tab, event) ∈ s.queue → s.Healthy tab → ¬s.WaitsOn capacity tab →
    ∃ move t, move.ofRouter ∧ s.step capacity frameBytes move = some t
  /-- If the event is the next one and there is room for it, two moves of the router deliver it. -/
  delivers : ∀ tab event queue, s.phase = .idle → s.queue = (tab, event) :: queue →
    event ≠ .closeTab → s.Ready capacity frameBytes tab event →
    ∃ bytes t, run (step capacity frameBytes) s [.take, .push bytes] = some t ∧
      t.delivered = s.delivered ++ [(tab, event)]

/-- A write of the event to the process does not wait, whatever the process does. -/
def NoWait (p : WorkerProcess) (event : UiEvent) : Prop :=
  maxFrameBytes < frameBytes event ∨ p.exited = true ∨ p.unread + (4 + frameBytes event) ≤ capacity

/-- The handshake does not wait, whatever the process does, and neither does the write after it. -/
def Greeted (p : WorkerProcess) (event : UiEvent) : Prop :=
  match p.greeting with
  | some true => NoWait capacity frameBytes p event
  | some false => True
  | none => p.exited = true

/-- The router comes back to its queue, whatever the processes do. -/
def CanFinish (s : Router) : Prop :=
  match s.phase with
  | .idle => True
  | .accepting _ event p => p.connected = true ∧ Greeted capacity frameBytes p event
  | .greeting _ event p => Greeted capacity frameBytes p event
  | .writing tab _ remaining =>
    ∃ p, s.live.lookup tab = some p ∧ (p.exited = true ∨ p.unread + remaining ≤ capacity)

/-- The router starts to launch a process, or to write more than there is room for, only while no event for a
healthy worker of another tab is queued, and none is sent before it has finished. -/
def Admits (s : Router) : RouterMove → Prop
  | .post tab _ => s.CanFinish capacity frameBytes ∨ (s.Healthy tab → s.phase.busyWith = some tab)
  | .take => ∀ tab event queue, s.queue = (tab, event) :: queue →
      event = .closeTab ∨ (∃ p, s.live.lookup tab = some p ∧ NoWait capacity frameBytes p event) ∨
        ∀ tab' event', (tab', event') ∈ queue → s.Healthy tab' → tab' = tab
  | _ => True

/-- What holds of the router throughout. -/
structure Inv (s : Router) : Prop where
  writing : ∀ tab event remaining, s.phase = .writing tab event remaining → 0 < remaining ∧ tab ∈ s.live
  free : s.CanFinish capacity frameBytes ∨
    ∀ tab event, (tab, event) ∈ s.queue → s.Healthy tab → s.phase.busyWith = some tab

variable {capacity frameBytes} {s t : Router}

theorem start_inv : start.Inv capacity frameBytes := by
  refine ⟨fun tab event remaining h => ?_, .inl trivial⟩
  cases h

/-- Who waits is not done. -/
theorem WaitsOn.busy (h : s.WaitsOn capacity tab) (hinv : s.Inv capacity frameBytes) :
    s.phase.busyWith = some tab ∧ ¬s.CanFinish capacity frameBytes := by
  unfold WaitsOn at h
  unfold CanFinish
  cases hphase : s.phase with
  | idle =>
    rw [hphase] at h
    exact h.elim
  | accepting tab' event p =>
    rw [hphase] at h
    obtain ⟨rfl, hconnected⟩ := h
    refine ⟨rfl, ?_⟩
    simp [hconnected]
  | greeting tab' event p =>
    rw [hphase] at h
    obtain ⟨rfl, hgreeting, hexited⟩ := h
    refine ⟨rfl, ?_⟩
    simp [Greeted, hgreeting, hexited]
  | writing tab' event remaining =>
    rw [hphase] at h
    obtain ⟨rfl, p, hp, hexited, hfull⟩ := h
    have hpos := (hinv.writing _ _ _ hphase).1
    refine ⟨rfl, ?_⟩
    rintro ⟨p', hp', hdone⟩
    obtain rfl : p' = p := some.inj (hp'.symm.trans hp)
    rcases hdone with hdone | hdone
    · rw [hexited] at hdone
      cases hdone
    · omega

/-- A router that waits for nobody can move, if it is busy or has something to take. -/
theorem Inv.moves (h : s.Inv capacity frameBytes) (hwaits : ∀ tab, ¬s.WaitsOn capacity tab)
    (hqueue : s.queue ≠ []) : ∃ move t, move.ofRouter ∧ s.step capacity frameBytes move = some t := by
  unfold WaitsOn at hwaits
  cases hphase : s.phase with
  | idle =>
    cases hq : s.queue with
    | nil => exact absurd hq hqueue
    | cons head queue =>
      refine ⟨.take, route frameBytes { s with queue } head.1 head.2, trivial, ?_⟩
      simp only [Router.step, hphase, hq]
  | accepting tab event p =>
    rw [hphase] at hwaits
    have hconnected : p.connected = true := by grind
    refine ⟨.accept, { s with phase := .greeting tab event p }, trivial, ?_⟩
    simp only [Router.step, accept, hphase, hconnected, if_true]
  | greeting tab event p =>
    rw [hphase] at hwaits
    cases hgreeting : p.greeting with
    | some ok =>
      cases ok with
      | true =>
        refine ⟨.greet, beginSend frameBytes { s with live := s.live.insert tab p } tab event, trivial, ?_⟩
        simp only [Router.step, greet, hphase, hgreeting]
      | false =>
        refine ⟨.greet, { s with phase := .idle }, trivial, ?_⟩
        simp only [Router.step, greet, hphase, hgreeting]
    | none =>
      have hexited : p.exited = true := by grind
      refine ⟨.greet, { s with phase := .idle }, trivial, ?_⟩
      simp only [Router.step, greet, hphase, hgreeting, hexited]
  | writing tab event remaining =>
    rw [hphase] at hwaits
    obtain ⟨hpos, hlive⟩ := h.writing _ _ _ hphase
    obtain ⟨p, hp⟩ := Finmap.mem_iff.mp hlive
    cases hexited : p.exited with
    | true =>
      refine ⟨.pushFails, { s with live := s.live.erase tab, phase := .idle }, trivial, ?_⟩
      simp only [Router.step, pushFails, hphase, hp, hexited, if_true]
    | false =>
      have hroom : p.unread < capacity := by grind
      have hgo : 0 < 1 ∧ 1 ≤ remaining ∧ p.unread + 1 ≤ capacity ∧ ¬p.exited = true :=
        ⟨by omega, hpos, hroom, by simp [hexited]⟩
      refine ⟨.push 1, ?_⟩
      simp only [Router.step, push, hphase, hp, if_pos hgo]
      split
      · exact ⟨_, trivial, rfl⟩
      · exact ⟨_, trivial, rfl⟩

/-- An event for which there is room is written out in two moves. -/
theorem delivers_ready {queue : List (TabId × UiEvent)}
    (hphase : s.phase = .idle) (hqueue : s.queue = (tab, event) :: queue) (hclose : event ≠ .closeTab)
    (hready : s.Ready capacity frameBytes tab event) :
    ∃ bytes t, run (Router.step capacity frameBytes) s [.take, .push bytes] = some t ∧
      t.delivered = s.delivered ++ [(tab, event)] := by
  obtain ⟨p, hp, hexited, hframe, hroom⟩ := hready
  have hlive : tab ∈ s.live := Finmap.mem_iff.mpr ⟨p, hp⟩
  have hroute : route frameBytes ⟨queue, s.live, .idle, s.delivered⟩ tab event =
      ⟨queue, s.live, .writing tab event (4 + frameBytes event), s.delivered⟩ := by
    have hsend : beginSend frameBytes ⟨queue, s.live, .idle, s.delivered⟩ tab event =
        ⟨queue, s.live, .writing tab event (4 + frameBytes event), s.delivered⟩ := by
      unfold beginSend
      rw [if_neg (by omega)]
    unfold route
    cases event with
    | closeTab => exact absurd rfl hclose
    | _ =>
      rw [← hsend]
      exact if_pos hlive
  have hgo : 0 < 4 + frameBytes event ∧ 4 + frameBytes event ≤ 4 + frameBytes event ∧
      p.unread + (4 + frameBytes event) ≤ capacity ∧ ¬p.exited = true :=
    ⟨by omega, by omega, hroom, by simp [hexited]⟩
  refine ⟨4 + frameBytes event,
    { queue, live := s.live.insert tab { p with unread := p.unread + (4 + frameBytes event) }, phase := .idle
      delivered := s.delivered ++ [(tab, event)] }, ?_, rfl⟩
  simp only [run, Router.step, hphase, hqueue, hroute, push, hp, if_pos hgo, if_true]

theorem Inv.notStalled (h : s.Inv capacity frameBytes) : s.NotStalled capacity frameBytes where
  free tab event hqueued hhealthy other hwaits := by
    obtain ⟨hbusy, hstuck⟩ := hwaits.busy h
    have hsame := h.free.resolve_left hstuck tab event hqueued hhealthy
    exact some.inj (hbusy.symm.trans hsame)
  moves tab event hqueued hhealthy hfree := by
    refine h.moves (fun other hwaits => ?_) (List.ne_nil_of_mem hqueued)
    obtain ⟨hbusy, hstuck⟩ := hwaits.busy h
    have hsame := h.free.resolve_left hstuck tab event hqueued hhealthy
    obtain rfl : other = tab := some.inj (hbusy.symm.trans hsame)
    exact hfree hwaits
  delivers _ _ _ hphase hqueue hclose hready := delivers_ready hphase hqueue hclose hready

/-! ## One move -/

variable {p : WorkerProcess}

/-- Whether another tab is healthy does not depend on what a process does. -/
theorem healthy_of_insert {u : Router} {tab tab' : TabId}
    (hlive : u.live = s.live.insert tab p) (htab : tab' ≠ tab) (h : u.Healthy tab') : s.Healthy tab' := by
  obtain ⟨q, hq, hrunning⟩ := h
  rw [hlive, Finmap.lookup_insert_of_ne _ htab] at hq
  exact ⟨q, hq, hrunning⟩

theorem inv_of_idle (h : s.phase = .idle) : s.Inv capacity frameBytes := by
  refine ⟨fun tab event remaining hwriting => ?_, .inl ?_⟩
  · rw [h] at hwriting
    cases hwriting
  · unfold CanFinish
    rw [h]
    trivial

variable {f : WorkerProcess → Option WorkerProcess}

/-- The process that is being launched goes on, and keeps what it has sent. -/
theorem Inv.updateLaunched (h : s.Inv capacity frameBytes)
    (hf : ∀ p p' event, f p = some p' → (p.connected = true → p'.connected = true) ∧
      (Greeted capacity frameBytes p event → Greeted capacity frameBytes p' event))
    (hstep : s.updateLaunched f = some t) : t.Inv capacity frameBytes := by
  have hfree := h.free
  unfold CanFinish at hfree
  unfold Router.updateLaunched at hstep
  cases hphase : s.phase with
  | idle | writing =>
    rw [hphase] at hstep
    cases hstep
  | accepting tab event p =>
    rw [hphase] at hstep hfree
    obtain ⟨p', hp', rfl⟩ := map_eq_some_iff.mp hstep
    obtain ⟨hconnected, hgreeted⟩ := hf p p' event hp'
    exact ⟨nofun, hfree.imp_left fun hdone => ⟨hconnected hdone.1, hgreeted hdone.2⟩⟩
  | greeting tab event p =>
    rw [hphase] at hstep hfree
    obtain ⟨p', hp', rfl⟩ := map_eq_some_iff.mp hstep
    exact ⟨nofun, hfree.imp_left (hf p p' event hp').2⟩

theorem Inv.updateLive (h : s.Inv capacity frameBytes)
    (hf : ∀ p p', f p = some p' → (p.exited = true → p'.exited = true) ∧ p'.unread ≤ p.unread)
    (hstep : s.updateLive tab f = some t) : t.Inv capacity frameBytes := by
  unfold Router.updateLive at hstep
  cases hp : s.live.lookup tab with
  | none =>
    rw [hp] at hstep
    cases hstep
  | some p =>
    rw [hp] at hstep
    obtain ⟨p', hp', rfl⟩ := map_eq_some_iff.mp hstep
    obtain ⟨hexited, hunread⟩ := hf p p' hp'
    refine ⟨fun tab' event remaining hphase => ?_, h.free.imp (fun hdone => ?_) fun hall => ?_⟩
    · obtain ⟨hpos, hlive⟩ := h.writing tab' event remaining hphase
      exact ⟨hpos, Finmap.mem_insert.mpr (.inr hlive)⟩
    · unfold CanFinish at hdone ⊢
      dsimp only
      cases hphase : s.phase with
      | writing tab' event remaining =>
        rw [hphase] at hdone
        obtain ⟨q, hq, hroom⟩ := hdone
        by_cases htab : tab' = tab
        · grind [Finmap.lookup_insert]
        · exact ⟨q, by rw [Finmap.lookup_insert_of_ne _ htab, hq], hroom⟩
      | _ =>
        rw [hphase] at hdone
        exact hdone
    · intro tab' event hqueued hhealthy
      refine hall tab' event hqueued ?_
      by_cases htab : tab' = tab
      · subst htab
        obtain ⟨q, hq, hrunning⟩ := hhealthy
        obtain rfl : p' = q := some.inj ((Finmap.lookup_insert _).symm.trans hq)
        refine ⟨p, hp, eq_false_of_ne_true fun hdead => ?_⟩
        rw [hexited hdead] at hrunning
        cases hrunning
      · exact healthy_of_insert rfl htab hhealthy

theorem beginSend_inv (hlive : tab ∈ s.live)
    (hfree : (∃ p, s.live.lookup tab = some p ∧ NoWait capacity frameBytes p event) ∨
      ∀ tab' event', (tab', event') ∈ s.queue → s.Healthy tab' → tab' = tab) :
    (beginSend frameBytes s tab event).Inv capacity frameBytes := by
  unfold beginSend
  split
  · exact ⟨nofun, .inl trivial⟩
  · rename_i hframe
    refine ⟨?_, hfree.imp ?_ ?_⟩
    · rintro tab' event' remaining ⟨⟩
      exact ⟨by omega, hlive⟩
    · rintro ⟨p, hp, hlong | hroom⟩
      · exact absurd hlong hframe
      · exact ⟨p, hp, hroom⟩
    · intro hall tab' event' hqueued hhealthy
      exact congrArg some (hall tab' event' hqueued hhealthy).symm

theorem take_inv (hadmits : s.Admits capacity frameBytes .take)
    (hstep : s.step capacity frameBytes .take = some t) : t.Inv capacity frameBytes := by
  simp only [Router.step] at hstep
  split at hstep
  · rename_i tab event queue hphase hqueue
    cases hstep
    have hwait := hadmits tab event queue hqueue
    unfold route
    split
    · exact inv_of_idle hphase
    · rename_i hclose
      have hwait := hwait.resolve_left hclose
      split
      · rename_i hlive
        exact beginSend_inv hlive hwait
      · rename_i hlive
        refine ⟨nofun, .inr fun tab' event' hqueued hhealthy => ?_⟩
        have hall := hwait.resolve_left fun ⟨p, hp, _⟩ => hlive (Finmap.mem_iff.mpr ⟨p, hp⟩)
        exact congrArg some (hall tab' event' hqueued hhealthy).symm
  · cases hstep

theorem launchFails_inv (hstep : s.step capacity frameBytes .launchFails = some t) :
    t.Inv capacity frameBytes := by
  simp only [Router.step] at hstep
  split at hstep
  · rename_i tab event queue hphase hqueue
    split at hstep
    · cases hstep
    · grind [inv_of_idle]
  · cases hstep

theorem Inv.accept (h : s.Inv capacity frameBytes) (hstep : s.accept = some t) :
    t.Inv capacity frameBytes := by
  have hfree := h.free
  unfold CanFinish at hfree
  unfold Router.accept at hstep
  split at hstep
  · rename_i tab event p hphase
    rw [hphase] at hfree
    split at hstep
    · cases hstep
      exact ⟨nofun, hfree.imp_left And.right⟩
    · cases hstep
  · cases hstep

theorem Inv.greet (h : s.Inv capacity frameBytes) (hstep : s.greet frameBytes = some t) :
    t.Inv capacity frameBytes := by
  have hfree := h.free
  unfold CanFinish at hfree
  unfold Router.greet at hstep
  split at hstep
  · rename_i tab event p hphase
    rw [hphase] at hfree
    split at hstep
    · rename_i hgreeting
      cases hstep
      refine beginSend_inv (Finmap.mem_insert.mpr (.inl rfl)) (hfree.imp (fun hdone => ?_) fun hall => ?_)
      · grind [Greeted, Finmap.lookup_insert]
      · intro tab' event' hqueued hhealthy
        by_contra htab
        have hsame := hall tab' event' hqueued (healthy_of_insert rfl htab hhealthy)
        exact htab (some.inj hsame).symm
    · cases hstep
      exact inv_of_idle rfl
    · cases hstep
      exact inv_of_idle rfl
    · cases hstep
  · cases hstep

theorem Inv.push {bytes : Nat} (h : s.Inv capacity frameBytes) (hstep : s.push capacity bytes = some t) :
    t.Inv capacity frameBytes := by
  have hfree := h.free
  unfold CanFinish at hfree
  unfold Router.push at hstep
  split at hstep
  · rename_i tab event remaining hphase
    rw [hphase] at hfree
    split at hstep
    · cases hstep
    rename_i p hp
    split at hstep
    · rename_i hgo
      obtain ⟨hpos, hle, hroom, hrunning⟩ := hgo
      dsimp only at hstep
      split at hstep
      · cases hstep
        exact inv_of_idle rfl
      · cases hstep
        refine ⟨?_, hfree.imp ?_ ?_⟩
        · grind [Finmap.mem_insert]
        · rintro ⟨q, hq, hdone⟩
          obtain rfl : q = p := some.inj (hq.symm.trans hp)
          refine ⟨_, Finmap.lookup_insert _, hdone.imp_right fun hdone => ?_⟩
          dsimp only
          omega
        · intro hall tab' event' hqueued hhealthy
          refine hall tab' event' hqueued ?_
          by_cases htab : tab' = tab
          · subst htab
            exact ⟨p, hp, eq_false_of_ne_true hrunning⟩
          · exact healthy_of_insert rfl htab hhealthy
    · cases hstep
  · cases hstep

theorem pushFails_inv (hstep : s.pushFails = some t) : t.Inv capacity frameBytes := by
  grind [pushFails, inv_of_idle]

/-- Every move that meets the condition keeps the invariant. -/
theorem Inv.step {move : RouterMove} (h : s.Inv capacity frameBytes)
    (hadmits : s.Admits capacity frameBytes move) (hstep : s.step capacity frameBytes move = some t) :
    t.Inv capacity frameBytes := by
  cases move with
  | post tab event =>
    cases hstep
    refine ⟨h.writing, ?_⟩
    by_cases hdone : s.CanFinish capacity frameBytes
    · exact .inl hdone
    · refine .inr fun tab' event' hqueued hhealthy => ?_
      rcases List.mem_append.mp hqueued with hqueued | hnew
      · exact h.free.resolve_left hdone tab' event' hqueued hhealthy
      · obtain ⟨rfl, rfl⟩ := Prod.mk.inj (List.mem_singleton.mp hnew)
        exact hadmits.resolve_left hdone hhealthy
  | take => exact take_inv hadmits hstep
  | launchFails => exact launchFails_inv hstep
  | accept => exact h.accept hstep
  | greet => exact h.greet hstep
  | push bytes => exact h.push hstep
  | pushFails => exact pushFails_inv hstep
  | connect =>
    refine h.updateLaunched (fun p p' event hp => ?_) hstep
    split at hp
    · cases hp
    · cases hp
      exact ⟨fun _ => rfl, id⟩
  | hello ok =>
    refine h.updateLaunched (fun p p' event hp => ?_) hstep
    split at hp
    · rename_i hopen
      cases hp
      refine ⟨id, fun hgreeted => ?_⟩
      simp only [Greeted, hopen.2.1] at hgreeted
      exact absurd hgreeted hopen.2.2
    · cases hp
  | abort =>
    refine h.updateLaunched (fun p p' event hp => ?_) hstep
    cases hp
    refine ⟨id, fun hgreeted => ?_⟩
    unfold Greeted at hgreeted ⊢
    dsimp only
    split
    · exact .inr (.inl rfl)
    · trivial
    · rfl
  | drain tab bytes =>
    refine h.updateLive (fun p p' hp => ?_) hstep
    split at hp
    · cases hp
      exact ⟨id, Nat.sub_le _ _⟩
    · cases hp
  | exit tab =>
    refine h.updateLive (fun p p' hp => ?_) hstep
    cases hp
    exact ⟨fun _ => rfl, Nat.le_refl _⟩
  | reply tab =>
    refine h.updateLive (fun p p' hp => ?_) hstep
    split at hp
    · cases hp
    · cases hp
      exact ⟨id, Nat.le_refl _⟩

/-! ## The condition is needed -/

/-- On its own the router can come to wait for the tab's process, with the queue and the other workers as
they are. -/
def Stalls (capacity : Nat) (frameBytes : UiEvent → Nat) (s : Router) (tab : TabId) : Prop :=
  ∃ t, Reaches (Router.step capacity frameBytes) (fun _ move => move.ofRouter) s t ∧
    t.WaitsOn capacity tab ∧ t.queue = s.queue ∧ ∀ tab', tab' ≠ tab → s.Healthy tab' → t.Healthy tab'

theorem healthy_insert {u : Router} {tab tab' : TabId}
    (hlive : u.live = s.live.insert tab p) (htab : tab' ≠ tab) (h : s.Healthy tab') : u.Healthy tab' := by
  obtain ⟨q, hq, hrunning⟩ := h
  exact ⟨q, by rw [hlive, Finmap.lookup_insert_of_ne _ htab, hq], hrunning⟩

/-- A write for which there is no room fills the socket. -/
theorem stalls_writing {remaining : Nat}
    (hphase : s.phase = .writing tab event remaining) (hp : s.live.lookup tab = some p)
    (hexited : p.exited = false) (hlong : capacity < p.unread + remaining) :
    Stalls capacity frameBytes s tab := by
  by_cases hfull : capacity ≤ p.unread
  · refine ⟨s, .refl, ?_, rfl, fun _ _ => id⟩
    unfold WaitsOn
    rw [hphase]
    exact ⟨rfl, p, hp, hexited, hfull⟩
  · have hgo : 0 < capacity - p.unread ∧ capacity - p.unread ≤ remaining ∧
        p.unread + (capacity - p.unread) ≤ capacity ∧ ¬p.exited = true :=
      ⟨by omega, by omega, by omega, by simp [hexited]⟩
    have hmore : ¬capacity - p.unread = remaining := by omega
    let p' := { p with unread := p.unread + (capacity - p.unread) }
    let t := { s with live := s.live.insert tab p'
                      phase := .writing tab event (remaining - (capacity - p.unread)) }
    have hpush : s.step capacity frameBytes (.push (capacity - p.unread)) = some t := by
      simp only [Router.step, Router.push, hphase, hp, if_pos hgo, if_neg hmore]
      rfl
    refine ⟨t, .next (l := .push (capacity - p.unread)) .refl trivial hpush, ?_, rfl,
      fun tab' htab => healthy_insert rfl htab⟩
    refine ⟨rfl, p', Finmap.lookup_insert _, hexited, ?_⟩
    show capacity ≤ p.unread + (capacity - p.unread)
    omega

theorem stalls_greeting
    (hphase : s.phase = .greeting tab event p) (hstuck : ¬Greeted capacity frameBytes p event) :
    Stalls capacity frameBytes s tab := by
  unfold Greeted at hstuck
  cases hgreeting : p.greeting with
  | none =>
    rw [hgreeting] at hstuck
    refine ⟨s, .refl, ?_, rfl, fun _ _ => id⟩
    unfold WaitsOn
    rw [hphase]
    exact ⟨rfl, hgreeting, eq_false_of_ne_true hstuck⟩
  | some ok =>
    rw [hgreeting] at hstuck
    cases ok with
    | false => exact absurd trivial hstuck
    | true =>
      -- The greeting is there; the write after it is too long.
      simp only [NoWait, not_or] at hstuck
      obtain ⟨hframe, hrunning, hlong⟩ := hstuck
      let t := { s with live := s.live.insert tab p, phase := .writing tab event (4 + frameBytes event) }
      have hgreet : s.step capacity frameBytes .greet = some t := by
        simp only [Router.step, Router.greet, hphase, hgreeting, beginSend, if_neg hframe]
        rfl
      have hwrites : Stalls capacity frameBytes t tab := stalls_writing rfl (Finmap.lookup_insert _)
        (eq_false_of_ne_true hrunning) (Nat.lt_of_not_le hlong)
      obtain ⟨u, hu, hwaits, hqueue, hothers⟩ := hwrites
      refine ⟨u, ?_, hwaits, hqueue, fun tab' htab h => hothers tab' htab (healthy_insert rfl htab h)⟩
      exact Reaches.trans (.next (l := .greet) .refl trivial hgreet) hu

/-- A router that cannot come back to its queue whatever the processes do can come to wait. -/
theorem Inv.stalls (h : s.Inv capacity frameBytes) (hstuck : ¬s.CanFinish capacity frameBytes) :
    ∃ tab, s.phase.busyWith = some tab ∧ Stalls capacity frameBytes s tab := by
  unfold CanFinish at hstuck
  cases hphase : s.phase with
  | idle =>
    rw [hphase] at hstuck
    exact absurd trivial hstuck
  | greeting tab event p =>
    rw [hphase] at hstuck
    exact ⟨tab, rfl, stalls_greeting hphase hstuck⟩
  | writing tab event remaining =>
    rw [hphase] at hstuck
    obtain ⟨p, hp⟩ := Finmap.mem_iff.mp (h.writing _ _ _ hphase).2
    have hdone : ¬(p.exited = true ∨ p.unread + remaining ≤ capacity) := fun hdone => hstuck ⟨p, hp, hdone⟩
    rw [not_or] at hdone
    exact ⟨tab, rfl, stalls_writing hphase hp (eq_false_of_ne_true hdone.1) (Nat.lt_of_not_le hdone.2)⟩
  | accepting tab event p =>
    rw [hphase] at hstuck
    refine ⟨tab, rfl, ?_⟩
    cases hconnected : p.connected with
    | false =>
      refine ⟨s, .refl, ?_, rfl, fun _ _ => id⟩
      unfold WaitsOn
      rw [hphase]
      exact ⟨rfl, hconnected⟩
    | true =>
      have haccept : s.step capacity frameBytes .accept = some { s with phase := .greeting tab event p } := by
        simp only [Router.step, Router.accept, hphase, hconnected, if_true]
      have hgreets : Stalls capacity frameBytes { s with phase := .greeting tab event p } tab :=
        stalls_greeting rfl fun hgreeted => hstuck ⟨hconnected, hgreeted⟩
      obtain ⟨u, hu, hrest⟩ := hgreets
      exact ⟨u, Reaches.trans (.next (l := .accept) .refl trivial haccept) hu, hrest⟩

end Router

/-- In every run in which the router launches a process, or starts a write for which the worker's socket has
no room, only while no event for a healthy worker of another tab is queued, and none is sent before it is
done, no worker is ever held up by another tab's process. -/
theorem never_stalled (capacity : Nat) (frameBytes : UiEvent → Nat) (s : Router)
    (h : Reaches (Router.step capacity frameBytes) (Router.Admits capacity frameBytes) .start s) :
    s.NotStalled capacity frameBytes :=
  (h.invariant Router.start_inv fun _ _ _ hinv hadmits hstep => hinv.step hadmits hstep).notStalled

/-- The only event of the queue may be taken. -/
theorem Router.admits_take {capacity : Nat} {frameBytes : UiEvent → Nat} {s : Router}
    (h : s.queue = [(tab, event)]) : s.Admits capacity frameBytes .take := by
  intro tab' event' queue hqueue
  obtain ⟨-, rfl⟩ := List.cons.inj (h.symm.trans hqueue)
  exact .inr (.inr fun _ _ hmem => by cases hmem)

/-- A tab is loaded and then clicked. -/
theorem never_stalled_loaded :
    ∃ s : Router, s.delivered.length = 2 ∧ s.NotStalled 100 fun _ => 1 := by
  have launched : Reaches (Router.step 100 fun _ => 1) (Router.Admits 100 fun _ => 1) .start _ :=
    .next (l := .take) (.next (l := .post ⟨0⟩ (overtakingReload "/a" "a.mizu")) .refl (.inl trivial) rfl)
      (Router.admits_take rfl) rfl
  have greeted : Reaches (Router.step 100 fun _ => 1) (Router.Admits 100 fun _ => 1) .start _ :=
    .next (l := .greet) (.next (l := .accept) (.next (l := .hello true) (.next (l := .connect) launched
      trivial rfl) trivial rfl) trivial rfl) trivial rfl
  have loaded : Reaches (Router.step 100 fun _ => 1) (Router.Admits 100 fun _ => 1) .start _ :=
    .next (l := .push 5) greeted trivial rfl
  have clicked : Reaches (Router.step 100 fun _ => 1) (Router.Admits 100 fun _ => 1) .start _ :=
    .next (l := .push 5) (.next (l := .take) (.next (l := .post ⟨0⟩ (.click 0)) loaded (.inl trivial) rfl)
      (Router.admits_take rfl) rfl) trivial rfl
  exact ⟨_, rfl, never_stalled 100 (fun _ => 1) _ clicked⟩

/-! ## A process that does not connect -/

/-- Tab 0 is loaded, tab 1 is being loaded, and tab 0 is clicked. -/
def launchMoves : List RouterMove :=
  [.post ⟨0⟩ (overtakingReload "/a" "a.mizu"), .take, .connect, .hello true, .accept, .greet, .push 5,
    .post ⟨1⟩ (overtakingReload "/b" "b.mizu"), .take, .post ⟨0⟩ (.click 0)]

/-- The click waits until the process of tab 1 connects. -/
theorem launch_stalls :
    ¬∀ (capacity : Nat) (frameBytes : UiEvent → Nat) (s : Router),
      Reaches (Router.step capacity frameBytes) (fun _ _ => True) .start s →
        s.NotStalled capacity frameBytes := by
  intro h
  have hrun : Reaches (Router.step 100 fun _ => 1) (fun _ _ => True) .start _ :=
    reaches_of_run launchMoves rfl fun _ _ _ => trivial
  have hstalled := h 100 (fun _ => 1) _ hrun
  have hsame := hstalled.free ⟨0⟩ (.click 0) List.mem_cons_self ⟨_, rfl, rfl⟩ ⟨1⟩ ⟨rfl, rfl⟩
  exact absurd hsame (by decide)

end Mizu
