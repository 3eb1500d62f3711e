import Mizu.Ipc.Frame
import Mizu.Lib.Transition
import Mizu.WorkerHost.Reader

/-!
# Who accounts for a worker that fails

The router's bookkeeping about the processes it launches, and the reader threads on the byte streams of
their workers. A worker may fail at any step of its launch, write any bytes, and end its stream after any of
them.

* `Supervisor.workers_accounted_for`: in every run in which each launched process greets, no worker ends its stream and
  no event is sent to a tab whose reader has ended, no process and no failure is lost.
* `Supervisor.worker_lost`: without that condition they are.
-/

namespace Mizu

open Transition List Option

/-- A launched process, and what was done about it. -/
structure Child where
  killed : Bool
  reaped : Bool
  /-- The file of its socket is removed. -/
  pathRemoved : Bool
  deriving DecidableEq, Repr

def Child.launched : Child := ⟨false, false, false⟩

/-- `ChildGuard::drop`. -/
def Child.dropGuard (_ : Child) : Child := ⟨true, true, true⟩

/-- Why a reader thread has ended. -/
inductive EndReason where
  /-- The tab was closed. -/
  | closeTab
  | other
  deriving DecidableEq, Repr

/-- A reader thread and the stream it reads. -/
structure ReaderThread where
  tab : TabId
  policy : TabPolicy
  /-- What the worker has written and the reader has not taken. -/
  bytes : List UInt8
  fin : Option StreamEnd
  /-- The router has dropped the worker because its tab was closed. -/
  closed : Bool
  ended : Option EndReason
  /-- Events sent to the worker after its reader ended. -/
  orphaned : List UiEvent
  /-- The failure of the worker that was reported to the window. -/
  report : Option MizuError

structure LiveWorker where
  /-- Its process and its reader thread, as indices. -/
  child : Nat
  reader : Nat
  deriving DecidableEq, Repr

/-- What the router does next. -/
inductive RouterTask where
  /-- It waits for an event. -/
  | idle
  | record (tab : TabId) (event : UiEvent)
  | send (tab : TabId) (event : UiEvent)

structure Supervisor where
  workers : FxHashMap TabId LiveWorker
  /-- Every process launched so far. -/
  children : List Child
  /-- Every reader thread started so far. -/
  readers : List ReaderThread
  task : RouterTask
  /-- What has been sent to the window. -/
  ui : List (TabId × Except MizuError WorkerResponse)

def Supervisor.start : Supervisor := ⟨∅, [], [], .idle, []⟩

/-- How the system and the process fare while a worker is started. -/
structure SpawnRun where
  /-- Everything up to the launch of the process, which is part of it. -/
  launch : Except IpcError Unit
  accept : Except IpcError Unit
  split : Except IpcError Unit
  /-- The token given to the process. -/
  token : String
  /-- What the process writes first, and how its stream goes on if that is not a whole frame. -/
  greeting : List UInt8
  fin : StreamEnd
  /-- The start of the reader thread. -/
  thread : Except String Unit

section Supervisor

variable (decode : List UInt8 → Except String WireWorkerEnvelope) (debug : WireWorkerError → String)
  (debugEnvelope : WireWorkerEnvelope → String)

/-- The first frame must be the `Hello` with the token; what follows it is left in the stream. -/
def handshake (run : SpawnRun) : Except IpcError (List UInt8) := do
  run.accept
  run.split
  match ← recv decode run.greeting run.fin with
  | (.hello got, rest) =>
    if got = run.token then return rest
    else throw (.protocol
      "worker handshake token mismatch; a foreign process won the rendezvous race and was rejected")
  | (other, _) => throw (.protocol ("expected Hello as the first worker frame, got " ++ debugEnvelope other))

/-- `spawn_worker`: the process it launches, and its result. The process is given a guard only at the end. -/
def spawnWorker (run : SpawnRun) : Option Child × Except IpcError (List UInt8) :=
  match run.launch with
  | .error e => (none, .error e)
  | .ok () => (some .launched, handshake decode debugEnvelope run)

/-- `start_worker`, with the error as the router reports it. -/
def startWorker (run : SpawnRun) : Option Child × Except MizuError (List UInt8) :=
  match spawnWorker decode debugEnvelope run with
  | (child, .error e) => (child, .error (.ipcError ("failed to start worker: " ++ e.display)))
  | (child, .ok rest) =>
    match run.thread with
    -- The guard goes with the rest of the worker.
    | .error e => (child.map Child.dropGuard, .error (.ipcError ("cannot start reader thread: " ++ e)))
    | .ok () => (child, .ok rest)

inductive SupervisorMove where
  /-- The router takes an event and starts a worker if the tab has none. -/
  | receive (tab : TabId) (event : UiEvent) (run : SpawnRun)
  /-- The router's critical section. -/
  | record
  | send
  | sendFails (e : IpcError)
  /-- A worker writes to its socket. -/
  | write (reader : Nat) (bytes : List UInt8)
  /-- A worker's stream ends. -/
  | hangUp (reader : Nat) (fin : StreamEnd)
  /-- One round of a reader thread. -/
  | read (reader : Nat)

namespace Supervisor

/-- Drops the worker of a tab: its process is killed and reaped, and its stream ends. -/
def dropWorker (s : Supervisor) (tab : TabId) (mark : ReaderThread → ReaderThread) : Supervisor :=
  match s.workers.lookup tab with
  | none => s
  | some w =>
    { s with workers := s.workers.erase tab
             children := s.children.modify w.child Child.dropGuard
             readers := s.readers.modify w.reader fun r => mark { r with fin := some (r.fin.getD .eof) } }

/-- A new worker, or the report that there is none. -/
def launch (s : Supervisor) (tab : TabId) (run : SpawnRun) : Supervisor × Bool :=
  let (child, result) := startWorker decode debugEnvelope run
  let children := s.children ++ child.toList
  match result with
  | .error e => ({ s with children, ui := s.ui ++ [(tab, .error e)] }, false)
  | .ok rest =>
    ({ s with
        workers := s.workers.insert tab ⟨s.children.length, s.readers.length⟩
        children
        readers := s.readers ++ [⟨tab, .new, rest, none, false, none, [], none⟩] }, true)

def receive (s : Supervisor) (tab : TabId) (event : UiEvent) (run : SpawnRun) : Option Supervisor :=
  match s.task, event with
  | .idle, .closeTab => some (s.dropWorker tab fun r => { r with closed := true })
  | .idle, event =>
    if tab ∈ s.workers then some { s with task := .record tab event }
    else
      match s.launch decode debugEnvelope tab run with
      | (s, true) => some { s with task := .record tab event }
      | (s, false) => some s
  | _, _ => none

/-- What a reader thread does that ends. -/
def endReader (s : Supervisor) (reader : Nat) (r : ReaderThread) (report : Option MizuError) : Supervisor :=
  { s with readers := s.readers.set reader { r with ended := some (if r.closed then .closeTab else .other)
                                                    report := report <|> r.report }
           ui := s.ui ++ (report.map fun e => (r.tab, Except.error e)).toList }

def channelFailed (e : IpcError) : MizuError := .ipcError ("worker channel failed: " ++ e.display)

def sendFailed (e : IpcError) : MizuError := .ipcError ("send to worker failed: " ++ e.display)

/-- One round of `reader_loop`; `none` while it blocks. -/
def read (s : Supervisor) (reader : Nat) : Option Supervisor :=
  match s.readers[reader]? with
  | none => none
  | some r =>
    match r.ended, tryRecv decode r.bytes r.fin with
    | none, some (.error (.workerDied _)) => some (s.endReader reader r none)
    | none, some (.error e) => some (s.endReader reader r (some (channelFailed e)))
    | none, some (.ok (envelope, rest)) =>
      match r.policy.pending with
      | [] => some (s.endReader reader { r with bytes := rest } (some unsolicited))
      | _ :: _ =>
        let (policy, out) := readerStep debug r.policy envelope
        some { s with readers := s.readers.set reader { r with bytes := rest, policy }
                      ui := s.ui ++ (out.map fun m => (r.tab, m)).toList }
    | _, _ => none

/-- One move; `none` if the party cannot make it. -/
def step (s : Supervisor) : SupervisorMove → Option Supervisor
  | .receive tab event run => s.receive decode debugEnvelope tab event run
  | .record =>
    match s.task with
    | .record tab event => (s.workers.lookup tab).map fun w =>
      { s with task := .send tab event
               readers := s.readers.modify w.reader fun r => { r with policy := r.policy.forward event } }
    | _ => none
  | .send =>
    match s.task with
    | .send tab event => (s.workers.lookup tab).map fun w =>
      { s with task := .idle
               readers := s.readers.modify w.reader fun r =>
                if r.ended.isSome then { r with orphaned := r.orphaned ++ [event] } else r }
    | _ => none
  | .sendFails e =>
    match s.task with
    | .send tab _ => some
      { s.dropWorker tab fun r => { r with report := some (sendFailed e) } with
        task := .idle
        ui := s.ui ++ [(tab, .error (sendFailed e))] }
    | _ => none
  | .write reader bytes =>
    match s.readers[reader]? with
    | none => none
    | some r =>
      if r.fin.isSome then none
      else some { s with readers := s.readers.set reader { r with bytes := r.bytes ++ bytes } }
  | .hangUp reader fin =>
    match s.readers[reader]? with
    | none => none
    | some r =>
      if r.fin.isSome then none else some { s with readers := s.readers.set reader { r with fin := some fin } }
  | .read reader => s.read decode debug reader

/-- Each launched process is owned by one tab or killed, reaped and its socket removed; each reader that has
ended while its tab was open has been reported, and nothing was sent to its worker since. -/
structure Accounted (s : Supervisor) : Prop where
  children : ∀ i c, s.children[i]? = some c →
    (∃! tab, ∃ w, s.workers.lookup tab = some w ∧ w.child = i) ∨
      c.killed = true ∧ c.reaped = true ∧ c.pathRemoved = true
  readers : ∀ r ∈ s.readers, r.ended = some .other →
    (∃ e, r.report = some e ∧ (r.tab, .error e) ∈ s.ui) ∧ r.orphaned = []

/-- A process that is launched connects and greets with its token; a reader finds the end of its stream only
once the router has dropped the worker; an event is sent only while the reader of its tab runs. -/
def Admits (s : Supervisor) : SupervisorMove → Prop
  | .receive tab event run => event = .closeTab ∨ tab ∈ s.workers ∨ (∃ e, run.launch = .error e) ∨
      run.accept = .ok () ∧ run.split = .ok () ∧
        ∃ rest, recv decode run.greeting run.fin = .ok (.hello run.token, rest)
  | .send => ∀ tab event w r, s.task = .send tab event → s.workers.lookup tab = some w →
      s.readers[w.reader]? = some r → r.ended = none
  | .read i => ∀ r, s.readers[i]? = some r → needsMore r.bytes = true → r.fin = some .eof →
      ∀ tab w, s.workers.lookup tab = some w → w.reader ≠ i
  | _ => True

end Supervisor

/-! ## What every move keeps -/

variable {i : Nat}

theorem modify_eq_set {α : Type} {l : List α} {a : α} (h : l[i]? = some a) (f : α → α) :
    l.modify i f = l.set i (f a) := by
  apply ext_getElem?
  intro j
  rw [List.getElem?_modify, List.getElem?_set]
  obtain ⟨hlt, rfl⟩ := List.getElem?_eq_some_iff.mp h
  by_cases hij : i = j
  · subst hij
    simp [hlt]
  · simp [hij]

/-- What is known of a reader thread. -/
structure ReaderThread.Inv (r : ReaderThread) (ui : List (TabId × Except MizuError WorkerResponse)) : Prop where
  reported : ∀ e, r.report = some e → (r.tab, .error e) ∈ ui
  ended : r.ended = some .other → r.report.isSome = true
  orphaned : r.orphaned = []

variable {r : ReaderThread}

theorem ReaderThread.Inv.mono {ui ui' : List (TabId × Except MizuError WorkerResponse)}
    (h : r.Inv ui) (hui : ui ⊆ ui') : r.Inv ui' :=
  ⟨fun e he => hui (h.reported e he), h.ended, h.orphaned⟩

namespace Supervisor

/-- No process and no failure has been lost. -/
structure Inv (s : Supervisor) : Prop where
  owner : ∀ tab w, s.workers.lookup tab = some w →
    w.child < s.children.length ∧ ∃ r, s.readers[w.reader]? = some r ∧ r.tab = tab
  once : ∀ tab tab' w w', s.workers.lookup tab = some w → s.workers.lookup tab' = some w' →
    w.child = w'.child → tab = tab'
  child : ∀ i c, s.children[i]? = some c →
    (∃ tab w, s.workers.lookup tab = some w ∧ w.child = i) ∨ c = c.dropGuard
  held : ∀ i r, s.readers[i]? = some r → (∃ tab w, s.workers.lookup tab = some w ∧ w.reader = i) ∨
    r.closed = true ∨ r.report.isSome = true
  reader : ∀ r ∈ s.readers, r.Inv s.ui

theorem Inv.accounted {s : Supervisor} (h : s.Inv) : s.Accounted where
  children i c hc := by
    rcases h.child i c hc with ⟨tab, w, hw, hi⟩ | hdropped
    · refine .inl ⟨tab, ⟨w, hw, hi⟩, ?_⟩
      rintro tab' ⟨w', hw', hi'⟩
      exact h.once tab' tab w' w hw' hw (hi'.trans hi.symm)
    · rw [hdropped]
      exact .inr ⟨rfl, rfl, rfl⟩
  readers r hr hended := by
    have hinv := h.reader r hr
    obtain ⟨e, he⟩ := isSome_iff_exists.mp (hinv.ended hended)
    exact ⟨⟨e, he, hinv.reported e he⟩, hinv.orphaned⟩

theorem start_inv : start.Inv := by
  constructor <;> intros <;> simp_all [start]

section Moves

variable {s t : Supervisor} {ui : List (TabId × Except MizuError WorkerResponse)}

theorem Inv.setReader (h : s.Inv) (hr : s.readers[i]? = some r)
    (r' : ReaderThread) (htab : r'.tab = r.tab) (hclosed : r.closed = true → r'.closed = true)
    (hreport : r.report.isSome = true → r'.report.isSome = true) (hui : s.ui ⊆ ui) (hinv : r'.Inv ui)
    (task : RouterTask) : ({ s with readers := s.readers.set i r', task, ui } : Supervisor).Inv := by
  obtain ⟨hlt, -⟩ := List.getElem?_eq_some_iff.mp hr
  refine ⟨fun tab w hw => ?_, h.once, h.child, fun j d hd => ?_, fun d hd => ?_⟩
  · obtain ⟨hchild, d, hd, htab'⟩ := h.owner tab w hw
    refine ⟨hchild, ?_⟩
    by_cases hij : i = w.reader
    · grind
    · exact ⟨d, by rw [← hd]; exact List.getElem?_set_ne hij, htab'⟩
  · by_cases hij : i = j
    · subst hij
      obtain rfl : r' = d := by simpa [hlt] using hd
      exact (h.held i r hr).imp_right (Or.imp hclosed hreport)
    · exact h.held j d (by rw [← hd]; exact (List.getElem?_set_ne hij).symm)
  · rcases mem_or_eq_of_mem_set hd with hd | rfl
    · exact (h.reader d hd).mono hui
    · exact hinv

/-- A move on the stream of a reader or on its policy. -/
theorem Inv.setStream (h : s.Inv) (hr : s.readers[i]? = some r)
    (policy : TabPolicy) (bytes : List UInt8) (fin : Option StreamEnd) (hui : s.ui ⊆ ui)
    (task : RouterTask) :
    ({ s with readers := s.readers.set i { r with policy, bytes, fin }, task, ui } : Supervisor).Inv := by
  have hinv := (h.reader r (mem_of_getElem? hr)).mono hui
  exact h.setReader hr { r with policy, bytes, fin } rfl id id hui
    ⟨hinv.reported, hinv.ended, hinv.orphaned⟩ task

theorem dropWorker_self (s : Supervisor) (tab : TabId) (mark : ReaderThread → ReaderThread) :
    { s.dropWorker tab mark with task := s.task, ui := s.ui } = s.dropWorker tab mark := by
  unfold Supervisor.dropWorker
  cases s.workers.lookup tab with
  | none => rfl
  | some w => rfl

/-- The router drops the worker of a tab, which is closed or reported. -/
theorem Inv.dropWorker (h : s.Inv) (tab : TabId) (mark : ReaderThread → ReaderThread) (hui : s.ui ⊆ ui)
    (hmark : ∀ (r : ReaderThread) fin, r.tab = tab → r.Inv ui → (mark { r with fin }).Inv ui ∧
      ((mark { r with fin }).closed = true ∨ (mark { r with fin }).report.isSome = true))
    (task : RouterTask) : ({ s.dropWorker tab mark with task, ui } : Supervisor).Inv := by
  unfold Supervisor.dropWorker
  cases hlookup : s.workers.lookup tab with
  | none => exact ⟨h.owner, h.once, h.child, h.held, fun r hr => (h.reader r hr).mono hui⟩
  | some w =>
    obtain ⟨hchild, r, hr, htab⟩ := h.owner tab w hlookup
    obtain ⟨hlt, -⟩ := List.getElem?_eq_some_iff.mp hr
    obtain ⟨c, hc⟩ : ∃ c, s.children[w.child]? = some c := ⟨_, List.getElem?_eq_getElem hchild⟩
    obtain ⟨hinv, hgone⟩ := hmark r (some (r.fin.getD .eof)) htab
      ((h.reader r (mem_of_getElem? hr)).mono hui)
    dsimp only
    rw [modify_eq_set hc, modify_eq_set hr]
    have hother : ∀ {tab' w'}, (s.workers.erase tab).lookup tab' = some w' →
        tab' ≠ tab ∧ s.workers.lookup tab' = some w' := by
      intro tab' w' hw'
      by_cases heq : tab' = tab
      · subst heq
        rw [Finmap.lookup_erase] at hw'
        cases hw'
      · rw [Finmap.lookup_erase_ne heq] at hw'
        exact ⟨heq, hw'⟩
    have hkept : ∀ {tab' w'}, s.workers.lookup tab' = some w' → tab' ≠ tab →
        (s.workers.erase tab).lookup tab' = some w' := by
      intro tab' w' hw' hne
      rw [Finmap.lookup_erase_ne hne]
      exact hw'
    have hreaders : ∀ {tab' w'}, s.workers.lookup tab' = some w' → tab' ≠ tab → w.reader ≠ w'.reader := by
      intro tab' w' hw' hne heq
      obtain ⟨-, r', hr', htab'⟩ := h.owner tab' w' hw'
      rw [← heq, hr] at hr'
      obtain rfl := some.inj hr'
      exact hne (htab'.symm.trans htab)
    refine ⟨fun tab' w' hw' => ?_, fun tab₁ tab₂ w₁ w₂ hw₁ hw₂ heq => ?_, fun i d hd => ?_,
      fun i d hd => ?_, fun d hd => ?_⟩
    · obtain ⟨hne, hw'⟩ := hother hw'
      obtain ⟨hchild', r', hr', htab'⟩ := h.owner tab' w' hw'
      refine ⟨by simpa using hchild', r', ?_, htab'⟩
      rw [← hr']
      exact List.getElem?_set_ne (hreaders hw' hne)
    · exact h.once tab₁ tab₂ w₁ w₂ (hother hw₁).2 (hother hw₂).2 heq
    · by_cases hiw : w.child = i
      · subst hiw
        obtain rfl : c.dropGuard = d := by simpa [hchild] using hd
        exact .inr rfl
      · have hd' : s.children[i]? = some d := by grind
        rcases h.child i d hd' with ⟨tab', w', hw', hi⟩ | hdropped
        · grind
        · exact .inr hdropped
    · by_cases hiw : w.reader = i
      · grind
      · have hd' : s.readers[i]? = some d := by grind
        rcases h.held i d hd' with ⟨tab', w', hw', hi⟩ | hgone'
        · grind
        · exact .inr hgone'
    · rcases mem_or_eq_of_mem_set hd with hd | rfl
      · exact (h.reader d hd).mono hui
      · exact hinv

theorem Inv.addFailed (h : s.Inv) {child : Option Child} (hchild : ∀ c, child = some c → c = c.dropGuard)
    (hui : s.ui ⊆ ui) : ({ s with children := s.children ++ child.toList, ui } : Supervisor).Inv := by
  refine ⟨fun tab w hw => ?_, h.once, fun i c hc => ?_, h.held, fun r hr => (h.reader r hr).mono hui⟩
  · obtain ⟨hlt, r, hr, htab⟩ := h.owner tab w hw
    refine ⟨?_, r, hr, htab⟩
    rw [length_append]
    omega
  · rw [List.getElem?_append] at hc
    split at hc
    · exact h.child i c hc
    · have hmem := mem_of_getElem? hc
      exact .inr (hchild c (mem_toList.mp hmem))

/-- A new process, its reader, and the worker that owns both. -/
theorem Inv.addWorker (h : s.Inv) {tab : TabId} (hnew : tab ∉ s.workers) (child : Child)
    (htab : r.tab = tab) (hr : r.Inv s.ui) :
    ({ s with workers := s.workers.insert tab ⟨s.children.length, s.readers.length⟩
              children := s.children ++ [child]
              readers := s.readers ++ [r] } : Supervisor).Inv := by
  have hinsert : ∀ {tab' w'},
      (s.workers.insert tab ⟨s.children.length, s.readers.length⟩).lookup tab' = some w' →
      tab' = tab ∧ w' = ⟨s.children.length, s.readers.length⟩ ∨ s.workers.lookup tab' = some w' := by
    intro tab' w' hw'
    by_cases heq : tab' = tab
    · grind [Finmap.lookup_insert]
    · rw [Finmap.lookup_insert_of_ne _ heq] at hw'
      exact .inr hw'
  have hkept : ∀ {tab' w'}, s.workers.lookup tab' = some w' →
      (s.workers.insert tab ⟨s.children.length, s.readers.length⟩).lookup tab' = some w' := by
    intro tab' w' hw'
    rw [Finmap.lookup_insert_of_ne, hw']
    rintro rfl
    exact hnew (Finmap.lookup_isSome.mp (by rw [hw']; rfl))
  refine ⟨fun tab' w' hw' => ?_, fun tab₁ tab₂ w₁ w₂ hw₁ hw₂ heq => ?_, fun i c hc => ?_, fun i d hd => ?_,
    fun d hd => ?_⟩
  · rw [length_append]
    rcases hinsert hw' with ⟨rfl, rfl⟩ | hw'
    · exact ⟨by simp, r, by simp, htab⟩
    · obtain ⟨hlt, r', hr', htab'⟩ := h.owner tab' w' hw'
      obtain ⟨hlt', -⟩ := List.getElem?_eq_some_iff.mp hr'
      exact ⟨by omega, r', by rw [List.getElem?_append_left hlt', hr'], htab'⟩
  · rcases hinsert hw₁ with ⟨htab₁, rfl⟩ | hold₁ <;> rcases hinsert hw₂ with ⟨htab₂, rfl⟩ | hold₂
    · exact htab₁.trans htab₂.symm
    · have hlt := (h.owner _ _ hold₂).1
      dsimp only at heq
      omega
    · have hlt := (h.owner _ _ hold₁).1
      dsimp only at heq
      omega
    · exact h.once tab₁ tab₂ w₁ w₂ hold₁ hold₂ heq
  · rw [List.getElem?_append] at hc
    split at hc
    · exact (h.child i c hc).imp_left fun ⟨tab', w', hw', hi⟩ => ⟨tab', w', hkept hw', hi⟩
    · grind [Finmap.lookup_insert]
  · rw [List.getElem?_append] at hd
    split at hd
    · exact (h.held i d hd).imp_left fun ⟨tab', w', hw', hi⟩ => ⟨tab', w', hkept hw', hi⟩
    · grind [Finmap.lookup_insert]
  · rcases mem_append.mp hd with hd | hd
    · exact h.reader d hd
    · rw [mem_singleton.mp hd]
      exact hr

theorem Inv.setTask (h : s.Inv) (task : RouterTask) : ({ s with task } : Supervisor).Inv :=
  ⟨h.owner, h.once, h.child, h.held, h.reader⟩

/-- A reader thread ends, with a report or with its worker dropped. -/
theorem Inv.endReader (h : s.Inv) (hr : s.readers[i]? = some r)
    {bytes : List UInt8} {report : Option MizuError}
    (hreport : r.closed = true ∨ (report <|> r.report).isSome = true) :
    (s.endReader i { r with bytes } report).Inv := by
  have hinv := h.reader r (mem_of_getElem? hr)
  have hui := subset_append_left s.ui (report.map fun e => (r.tab, Except.error e)).toList
  refine h.setReader hr
    { r with bytes, ended := some (if r.closed then .closeTab else .other), report := report <|> r.report }
    rfl id (fun hsome => ?_) hui ⟨fun e he => ?_, fun hended => ?_, hinv.orphaned⟩ _
  · cases report with
    | none => exact hsome
    | some e => rfl
  · cases report with
    | none => exact mem_append_left _ (hinv.reported e he)
    | some e' =>
      cases he
      exact mem_append_right _ (mem_singleton.mpr rfl)
  · grind

/-- A process that is launched either fails in the care of its guard or becomes a worker. -/
theorem startWorker_guarded {run : SpawnRun}
    (hgreets : (∃ e, run.launch = .error e) ∨ run.accept = .ok () ∧ run.split = .ok () ∧
      ∃ rest, recv decode run.greeting run.fin = .ok (.hello run.token, rest)) :
    (∃ child e, startWorker decode debugEnvelope run = (child, .error e) ∧
        ∀ c, child = some c → c = c.dropGuard) ∨
      ∃ rest, startWorker decode debugEnvelope run = (some .launched, .ok rest) := by
  unfold startWorker spawnWorker
  cases hlaunch : run.launch with
  | error e => exact .inl ⟨none, _, rfl, fun c hc => by cases hc⟩
  | ok _ =>
    rcases hgreets with ⟨e, he⟩ | ⟨haccept, hsplit, rest, hgreeting⟩
    · rw [hlaunch] at he
      cases he
    · have hshake : handshake decode debugEnvelope run = .ok rest := by
        unfold handshake
        rw [haccept, hsplit, hgreeting]
        exact if_pos rfl
      simp only [hshake]
      cases run.thread with
      | error e => exact .inl ⟨_, _, rfl, fun c hc => by cases hc; rfl⟩
      | ok _ => exact .inr ⟨rest, rfl⟩

theorem Inv.receive (h : s.Inv) {tab : TabId} {event : UiEvent} {run : SpawnRun}
    (hadmits : s.Admits decode (.receive tab event run))
    (ht : s.receive decode debugEnvelope tab event run = some t) : t.Inv := by
  unfold Supervisor.receive at ht
  split at ht
  · cases ht
    rw [← dropWorker_self]
    refine h.dropWorker tab (fun r => { r with closed := true }) (List.Subset.refl _) (fun r fin _ hr => ?_) _
    exact ⟨⟨hr.reported, hr.ended, hr.orphaned⟩, .inl rfl⟩
  · rename_i hclose
    split at ht
    · cases ht
      exact h.setTask _
    · rename_i hnew
      have hgreets := (hadmits.resolve_left hclose).resolve_left hnew
      unfold Supervisor.launch at ht
      rcases startWorker_guarded decode debugEnvelope hgreets with ⟨child, e, hrun, hguard⟩ | ⟨rest, hrun⟩
      · rw [hrun] at ht
        cases ht
        exact h.addFailed hguard (subset_append_left _ _)
      · rw [hrun] at ht
        cases ht
        refine (h.addWorker hnew .launched (by rfl) ⟨?_, ?_, rfl⟩).setTask _
        · intro e he
          cases he
        · intro hended
          cases hended
  · cases ht

theorem Inv.read (h : s.Inv) (hadmits : s.Admits decode (.read i))
    (ht : s.read decode debug i = some t) : t.Inv := by
  unfold Supervisor.read at ht
  split at ht
  · cases ht
  · rename_i r hr
    split at ht
    · rename_i code hended hrecv
      cases ht
      -- The stream is at its end, so the router has dropped the worker.
      have hgone : r.closed = true ∨ r.report.isSome = true := by
        rcases h.held i r hr with ⟨tab, w, hw, hi⟩ | hgone
        · obtain ⟨hmore, heof⟩ := tryRecv_workerDied decode hrecv
          exact absurd hi (hadmits r hr hmore heof tab w hw)
        · exact hgone
      exact h.endReader hr hgone
    · cases ht
      exact h.endReader hr (.inr rfl)
    · rename_i envelope rest hended hrecv
      split at ht
      · cases ht
        exact h.endReader hr (.inr rfl)
      · cases ht
        exact h.setStream hr _ _ _ (subset_append_left _ _) _
    · cases ht

theorem Inv.step (h : s.Inv) {move : SupervisorMove} (hadmits : s.Admits decode move)
    (ht : s.step decode debug debugEnvelope move = some t) : t.Inv := by
  cases move with
  | receive tab event run => exact h.receive decode debugEnvelope hadmits ht
  | record =>
    simp only [Supervisor.step] at ht
    split at ht
    · obtain ⟨w, hw, rfl⟩ := map_eq_some_iff.mp ht
      obtain ⟨-, r, hr, -⟩ := h.owner _ w hw
      rw [modify_eq_set hr]
      exact h.setStream hr _ _ _ (List.Subset.refl _) _
    · cases ht
  | send =>
    simp only [Supervisor.step] at ht
    split at ht
    · rename_i tab event htask
      obtain ⟨w, hw, rfl⟩ := map_eq_some_iff.mp ht
      obtain ⟨-, r, hr, -⟩ := h.owner tab w hw
      have hruns : ¬r.ended.isSome = true := by simp [hadmits tab event w r htask hw hr]
      rw [modify_eq_set hr, if_neg hruns]
      exact h.setStream hr _ _ _ (List.Subset.refl _) _
    · cases ht
  | sendFails e =>
    simp only [Supervisor.step] at ht
    split at ht
    · cases ht
      refine h.dropWorker _ (fun r => { r with report := some (sendFailed e) })
        (subset_append_left _ _) (fun r fin htab hr => ?_) _
      refine ⟨⟨?_, ?_, hr.orphaned⟩, .inr rfl⟩
      · grind
      · exact fun _ => rfl
    · cases ht
  | write | hangUp =>
    simp only [Supervisor.step] at ht
    split at ht
    · cases ht
    · rename_i r hr
      split at ht
      · cases ht
      · cases ht
        exact h.setStream hr _ _ _ (List.Subset.refl _) _
  | read i => exact h.read decode debug hadmits ht

end Moves

theorem reaches_inv {s : Supervisor}
    (h : Reaches (Supervisor.step decode debug debugEnvelope) (Supervisor.Admits decode) start s) : s.Inv :=
  h.invariant start_inv fun _ _ _ hinv hadmits ht => hinv.step decode debug debugEnvelope hadmits ht

end Supervisor

end Supervisor

namespace Supervisor

/-- No process and no failure of a worker is lost in a run in which each process that is launched greets, a
reader finds the end of its stream only once the router has dropped the worker, and events are sent only to
tabs whose reader runs. The end of a stream is reported as a closed stream only at the end of a frame, exactly
if the stream is not closed inside one. -/
theorem workers_accounted_for (decode : List UInt8 → Except String WireWorkerEnvelope)
    (debug : WireWorkerError → String) (debugEnvelope : WireWorkerEnvelope → String) :
    (∀ s, Reaches (step decode debug debugEnvelope) (Admits decode) start s → s.Accounted) ∧
    ∀ bytes fin, (∀ code, readFrame bytes fin = .error (.workerDied code) → bytes = []) ↔
      ¬BrokenOff bytes fin :=
  ⟨fun _ h => (reaches_inv decode debug debugEnvelope h).accounted, clean_end_iff⟩

section Run

/-- A decoder for the frame that greets with the token `t`. -/
def helloDecode (body : List UInt8) : Except String WireWorkerEnvelope :=
  if body = [116] then .ok (.hello "t") else .error "invalid archive"

/-- The process connects and greets. -/
def greetingRun : SpawnRun := ⟨.ok (), .ok (), .ok (), "t", [1, 0, 0, 0, 116], .eof, .ok ()⟩

def plainStep : Supervisor → SupervisorMove → Option Supervisor :=
  step helloDecode (fun _ => "") fun _ => ""

/-- A tab is opened, clicked and closed, and its reader finds the end of the stream. -/
theorem workers_accounted_for_closed : ∃ s, Reaches plainStep (Admits helloDecode) start s ∧
    s.Accounted ∧ s.workers = ∅ ∧ s.children = [⟨true, true, true⟩] ∧
      s.readers.map (fun r => r.ended) = [some .closeTab] ∧ readFrame [] .eof = .error (.workerDied none) := by
  have hgreets : Admits helloDecode start (.receive ⟨0⟩ (.click 0) greetingRun) :=
    .inr (.inr (.inr ⟨rfl, rfl, [], rfl⟩))
  have hlaunched : Reaches plainStep (Admits helloDecode) start _ := .next .refl hgreets rfl
  have hrecorded : Reaches plainStep (Admits helloDecode) start _ :=
    .next (l := .record) hlaunched trivial rfl
  have hsent : Reaches plainStep (Admits helloDecode) start _ :=
    .next (l := .send) hrecorded (by rintro tab event w r ⟨⟩ ⟨⟩ ⟨⟩; rfl) rfl
  have hclosed : Reaches plainStep (Admits helloDecode) start _ :=
    .next (l := .receive ⟨0⟩ .closeTab greetingRun) hsent (.inl rfl) rfl
  have hread : Reaches plainStep (Admits helloDecode) start _ :=
    .next (l := .read 0) hclosed (by rintro r - - - tab w ⟨⟩) rfl
  obtain ⟨haccounted, -⟩ := workers_accounted_for helloDecode (fun _ => "") fun _ => ""
  exact ⟨_, hread, haccounted _ hread, rfl, rfl, rfl, rfl⟩

/-- A process that does not connect is neither owned nor killed. The end of a worker that closes its stream
by itself is not reported, and events are still sent to it. A stream that is closed inside a frame is reported
like one closed at its end. -/
theorem worker_lost :
    (∃ s i c, Reaches plainStep (fun _ _ => True) start s ∧ s.children[i]? = some c ∧
      (∀ tab w, s.workers.lookup tab = some w → w.child ≠ i) ∧ c.killed = false ∧ c.pathRemoved = false) ∧
    (∃ s r, Reaches plainStep (fun _ _ => True) start s ∧ r ∈ s.readers ∧ r.ended = some .other ∧
      s.ui = [] ∧ r.orphaned ≠ []) ∧
    ∃ bytes, bytes ≠ [] ∧ readFrame bytes .eof = .error (.workerDied none) := by
  refine ⟨?_, ?_, [0], by simp, rfl⟩
  · have hreaches : Reaches plainStep (fun _ _ => True) start _ :=
      reaches_of_run [.receive ⟨0⟩ (.click 0) { greetingRun with accept := .error (.transport "timed out") }]
        rfl fun _ _ _ => trivial
    refine ⟨_, 0, _, hreaches, rfl, ?_, rfl, rfl⟩
    rintro tab w ⟨⟩
  · have hreaches : Reaches plainStep (fun _ _ => True) start _ :=
      reaches_of_run [.receive ⟨0⟩ (.click 0) greetingRun, .record, .send, .hangUp 0 .eof, .read 0,
        .receive ⟨0⟩ (.click 0) greetingRun, .record, .send] rfl fun _ _ _ => trivial
    refine ⟨_, _, hreaches, mem_singleton.mpr rfl, rfl, rfl, ?_⟩
    exact cons_ne_nil _ _

end Run

end Supervisor

end Mizu
