import Mizu.Lib.Transition
import Mizu.WorkerHost.Reader

/-!
# Router, workers and readers, interleaved

The router thread forwards events to the tabs' workers, each worker answers its events in order, and
each worker's reader thread judges the answers. A `Channel` is one worker with its socket, kept as the
logs of what went in and out; `Bridge.step` is one move of one party.

* `reply_agency`: in every run the answer to an event is judged with that event's agency.
* `replies_correlated`: it is also judged against the document of that event, in every run that
  forwards a reload with a new registry or domain only when no event of the worker is unanswered.
* `reply_judged_by_next_document`: without that condition it is not.
-/

namespace Mizu

open Transition List Option

/-- One worker: the events its router thread has recorded and sent, the frames it has sent back and
what the reader has made of them, each in order. -/
structure Channel where
  tab : TabId
  policy : TabPolicy
  /-- Events that went through the router's critical section. -/
  recorded : List UiEvent
  /-- Events written to the worker's socket. -/
  sent : List UiEvent
  /-- Frames the worker has written. -/
  replies : List WireWorkerEnvelope
  /-- What the reader made of each frame it has taken. -/
  judged : List (Option (Except MizuError WorkerResponse))
  readerAlive : Bool

def Channel.new (tab : TabId) : Channel := ⟨tab, .new, [], [], [], [], true⟩

/-- The router's critical section. -/
def Channel.accept (c : Channel) (event : UiEvent) : Channel :=
  { c with policy := c.policy.forward event, recorded := c.recorded ++ [event] }

structure Bridge where
  /-- The worker each tab has now, as an index into `channels`. -/
  workers : FxHashMap TabId Nat
  /-- Every worker started so far. -/
  channels : List Channel
  /-- The send the router is about to make, if it is between the critical section and the send. -/
  sending : Option (Nat × UiEvent)
  /-- What has been sent to the window. -/
  ui : List (TabId × Except MizuError WorkerResponse)

def Bridge.start : Bridge := ⟨∅, [], none, []⟩

inductive BridgeMove where
  /-- The router takes an event, starting a worker if the tab has none, up to its send. -/
  | receive (tab : TabId) (event : UiEvent)
  /-- The router takes an event and cannot start a worker for it. -/
  | startFails (tab : TabId) (event : UiEvent) (e : MizuError)
  | send
  | sendFails (message : String)
  /-- A worker answers the oldest event it has not answered. -/
  | answer (worker : Nat) (envelope : WireWorkerEnvelope)
  /-- A worker's reader takes a frame. -/
  | read (worker : Nat)

namespace Bridge

def updateChannel (b : Bridge) (worker : Nat) (c : Channel) : Bridge :=
  { b with channels := b.channels.set worker c }

/-- The worker of a tab, started if there is none. -/
def workerOf (b : Bridge) (tab : TabId) : Bridge × Nat :=
  match b.workers.lookup tab with
  | some worker => (b, worker)
  | none =>
    ({ b with workers := b.workers.insert tab b.channels.length
              channels := b.channels ++ [.new tab] }, b.channels.length)

def receive (b : Bridge) (tab : TabId) (event : UiEvent) : Option Bridge :=
  match b.sending, event with
  | some _, _ => none
  | none, .closeTab => some { b with workers := b.workers.erase tab }
  | none, event =>
    let (b, worker) := b.workerOf tab
    match b.channels[worker]? with
    | none => none
    | some c => some { b.updateChannel worker (c.accept event) with sending := some (worker, event) }

def read (debug : WireWorkerError → String) (b : Bridge) (worker : Nat) : Option Bridge :=
  match b.channels[worker]? with
  | none => none
  | some c =>
    match c.readerAlive, c.replies[c.judged.length]? with
    | true, some envelope =>
      let (policy, out) := readerStep debug c.policy envelope
      some { b.updateChannel worker { c with policy, judged := c.judged ++ [out]
                                             readerAlive := !c.policy.pending.isEmpty } with
        ui := b.ui ++ (out.map fun m => (c.tab, m)).toList }
    | _, _ => none

/-- One move; `none` if the party cannot make it. -/
def step (debug : WireWorkerError → String) (b : Bridge) : BridgeMove → Option Bridge
  | .receive tab event => b.receive tab event
  | .startFails tab event e =>
    match b.sending, event, b.workers.lookup tab with
    | some _, _, _ | _, .closeTab, _ | _, _, some _ => none
    | none, _, none => some { b with ui := b.ui ++ [(tab, .error e)] }
  | .send =>
    match b.sending with
    | none => none
    | some (worker, event) =>
      (b.channels[worker]?).map fun c =>
        { b.updateChannel worker { c with sent := c.sent ++ [event] } with sending := none }
  | .sendFails message =>
    match b.sending with
    | none => none
    | some (worker, _) =>
      (b.channels[worker]?).map fun c =>
        { b with workers := b.workers.erase c.tab
                 ui := b.ui ++ [(c.tab, .error (.ipcError ("send to worker failed: " ++ message)))]
                 sending := none }
  | .answer worker envelope =>
    match b.channels[worker]? with
    | none => none
    | some c =>
      if c.replies.length < c.sent.length then
        some (b.updateChannel worker { c with replies := c.replies ++ [envelope] })
      else none
  | .read worker => b.read debug worker

end Bridge

/-! ## One worker -/

/-- The registry and the domain of the last reload among the events. -/
def documentOf (events : List UiEvent) : UrlRegistry × String :=
  events.foldl (fun doc event =>
    match event with
    | .reload payload => (payload.urlRegistry, payload.documentDomain)
    | _ => doc) (∅, "")

section Correlation

variable (debug : WireWorkerError → String) (good : Channel → UiEvent → Prop)

/-- What one move does to the worker it is about; `good` is what is asked of an event it accepts. -/
inductive Channel.Step (c : Channel) : Channel → Prop where
  | accept (event : UiEvent) (hgood : good c event) : Step c (c.accept event)
  | send (event : UiEvent) (h : c.recorded = c.sent ++ [event]) :
      Step c { c with sent := c.sent ++ [event] }
  | answer (envelope : WireWorkerEnvelope) (h : c.replies.length < c.sent.length) :
      Step c { c with replies := c.replies ++ [envelope] }
  | read (envelope : WireWorkerEnvelope) (alive : Bool)
      (h : c.replies[c.judged.length]? = some envelope) :
      Step c { c with policy := (readerStep debug c.policy envelope).1
                      judged := c.judged ++ [(readerStep debug c.policy envelope).2]
                      readerAlive := alive }

/-- The queue holds the agencies of the events not yet judged; the policy is that of the last
reload. -/
structure Channel.Inv (c : Channel) : Prop where
  sent_prefix : c.sent <+: c.recorded
  replies_le : c.replies.length ≤ c.sent.length
  judged_le : c.judged.length ≤ c.replies.length
  pending : c.policy.pending = (c.recorded.drop c.judged.length).map .of
  document : (c.policy.urlRegistry, c.policy.documentDomain) = documentOf c.recorded

/-- Each answer was judged with the agency of its event and the document that `doc` gives. -/
def Channel.JudgedWith (doc : Channel → Nat → UrlRegistry × String → Prop) (c : Channel) : Prop :=
  ∀ i event envelope out, c.sent[i]? = some event → c.replies[i]? = some envelope →
    c.judged[i]? = some out →
    ∃ d, doc c i d ∧ out = judge debug (.of event) d.1 d.2 envelope

/-- The document of the last reload sent at or before the event. -/
def documentAt (c : Channel) (i : Nat) (d : UrlRegistry × String) : Prop :=
  d = documentOf (c.sent.take (i + 1))

/-- No reload that changes the document was recorded after an event not yet judged. -/
def Channel.Steady (c : Channel) : Prop :=
  ∀ i, c.judged.length ≤ i → i < c.recorded.length →
    documentOf (c.recorded.take (i + 1)) = documentOf c.recorded

/-- A reload with a new registry or domain finds every event of the worker answered. -/
def Channel.Settled (c : Channel) : UiEvent → Prop
  | .reload payload => c.policy.pending = [] ∨
      c.policy.urlRegistry = payload.urlRegistry ∧ c.policy.documentDomain = payload.documentDomain
  | _ => True

namespace Channel

variable {debug} {good} {c c' : Channel}

theorem documentOf_append (events : List UiEvent) (event : UiEvent) :
    documentOf (events ++ [event]) =
      match event with
      | .reload payload => (payload.urlRegistry, payload.documentDomain)
      | _ => documentOf events := by
  unfold documentOf
  rw [foldl_append]
  rfl

theorem forward_pending (policy : TabPolicy) (event : UiEvent) :
    (policy.forward event).pending = policy.pending ++ [.of event] := by
  cases event <;> rfl

theorem forward_document (policy : TabPolicy) (event : UiEvent) :
    ((policy.forward event).urlRegistry, (policy.forward event).documentDomain) =
      match event with
      | .reload payload => (payload.urlRegistry, payload.documentDomain)
      | _ => (policy.urlRegistry, policy.documentDomain) := by
  cases event <;> rfl

/-- The reader takes the agency of the event that the frame answers. -/
theorem Inv.read_event (debug : WireWorkerError → String) (h : c.Inv) {envelope : WireWorkerEnvelope}
    (hread : c.replies[c.judged.length]? = some envelope) :
    ∃ event, c.sent[c.judged.length]? = some event ∧
      c.recorded[c.judged.length]? = some event ∧
      readerStep debug c.policy envelope =
        ({ c.policy with pending := (c.recorded.drop (c.judged.length + 1)).map .of },
          judge debug (.of event) (documentOf c.recorded).1 (documentOf c.recorded).2 envelope) := by
  obtain ⟨hlt, -⟩ := List.getElem?_eq_some_iff.mp hread
  have hsent : c.judged.length < c.sent.length := Nat.lt_of_lt_of_le hlt h.replies_le
  have hrec : c.judged.length < c.recorded.length :=
    Nat.lt_of_lt_of_le hsent h.sent_prefix.length_le
  refine ⟨c.recorded[c.judged.length], ?_, List.getElem?_eq_getElem hrec, ?_⟩
  · rw [List.getElem?_eq_getElem hsent, h.sent_prefix.getElem hsent]
  · have hpending := h.pending
    rw [drop_eq_getElem_cons hrec, map_cons] at hpending
    simp only [readerStep, hpending, ← h.document]

theorem Inv.step (h : c.Inv) (hstep : Step debug good c c') : c'.Inv := by
  cases hstep with
  | accept event hgood =>
    refine ⟨h.sent_prefix.trans (prefix_append _ _), h.replies_le, h.judged_le, ?_, ?_⟩
    · have hle : c.judged.length ≤ c.recorded.length :=
        h.judged_le.trans (h.replies_le.trans h.sent_prefix.length_le)
      simp only [accept, forward_pending, h.pending, drop_append_of_le_length hle,
        map_append, map_cons, map_nil]
    · simp only [accept, forward_document, documentOf_append, h.document]
  | send event hrec =>
    refine ⟨?_, ?_, h.judged_le, h.pending, h.document⟩
    · rw [hrec]
    · have := h.replies_le
      simp only [length_append, length_singleton]
      omega
  | answer envelope hlt =>
    refine ⟨h.sent_prefix, ?_, ?_, h.pending, h.document⟩
    · simp only [length_append, length_singleton]
      omega
    · have := h.judged_le
      simp only [length_append, length_singleton]
      omega
  | read envelope alive hread =>
    obtain ⟨event, -, -, hstep⟩ := h.read_event debug hread
    obtain ⟨hlt, -⟩ := List.getElem?_eq_some_iff.mp hread
    refine ⟨h.sent_prefix, h.replies_le, ?_, ?_, ?_⟩
    · simp only [length_append, length_singleton]
      omega
    · simp only [hstep, length_append, length_singleton]
    · simp only [hstep, h.document]

/-- What has been judged stays as it was judged; a new answer is judged with the current document. -/
theorem JudgedWith.step {doc : Channel → Nat → UrlRegistry × String → Prop} (h : c.Inv)
    (hjudged : c.JudgedWith debug doc) (hstep : Step debug good c c')
    (hold : ∀ i d, i < c.sent.length → doc c i d → doc c' i d)
    (hnew : c.judged.length < c.sent.length → c'.sent = c.sent →
      c'.judged.length = c.judged.length + 1 → doc c' c.judged.length (documentOf c.recorded)) :
    c'.JudgedWith debug doc := by
  intro i event envelope out hsent hreply hout
  have earlier : c'.judged[i]? = c.judged[i]? → c'.sent[i]? = c.sent[i]? →
      c'.replies[i]? = c.replies[i]? →
      ∃ d, doc c' i d ∧ out = judge debug (.of event) d.1 d.2 envelope := by
    intro hj hs hr
    obtain ⟨hlt, -⟩ := List.getElem?_eq_some_iff.mp (hs ▸ hsent)
    obtain ⟨d, hd, hd'⟩ := hjudged i event envelope out (hs ▸ hsent) (hr ▸ hreply) (hj ▸ hout)
    exact ⟨d, hold i d hlt hd, hd'⟩
  have hjr := h.judged_le
  have hrs := h.replies_le
  cases hstep with
  | accept event hgood => exact earlier rfl rfl rfl
  | send | answer => grind
  | read envelope' alive hread =>
    by_cases hi : i < c.judged.length
    · exact earlier (List.getElem?_append_left hi) rfl rfl
    -- The frame that has just been read.
    obtain ⟨hlt, -⟩ := List.getElem?_eq_some_iff.mp hout
    simp only [length_append, length_singleton] at hlt
    obtain rfl : i = c.judged.length := by omega
    obtain ⟨event', hevent', -, hread'⟩ := h.read_event debug hread
    obtain rfl : event' = event := some.inj (hevent'.symm.trans hsent)
    obtain rfl : envelope' = envelope := some.inj (hread.symm.trans hreply)
    simp only [List.getElem?_concat_length, hread', some.injEq] at hout
    obtain ⟨hlt', -⟩ := List.getElem?_eq_some_iff.mp hsent
    refine ⟨documentOf c.recorded, hnew hlt' rfl ?_, hout.symm⟩
    simp only [length_append, length_singleton]

theorem Steady.step (h : c.Inv) (hsteady : c.Steady) (hstep : Step debug Channel.Settled c c') :
    c'.Steady := by
  cases hstep with
  | send | answer => exact hsteady
  | read envelope alive hread =>
    intro i hi hlt
    simp only [length_append, length_singleton] at hi
    exact hsteady i (by omega) hlt
  | accept event hgood =>
    intro i hi hlt
    simp only [accept, length_append, length_singleton] at hi hlt ⊢
    by_cases hlast : i = c.recorded.length
    · rw [take_of_length_le (by simp [hlast])]
    -- An event that is still unanswered keeps its document only if the new one is the same.
    have hlt' : i < c.recorded.length := by omega
    have hsame : documentOf (c.recorded ++ [event]) = documentOf c.recorded := by
      rw [documentOf_append]
      cases event with
      | reload payload =>
        rcases hgood with hempty | ⟨hreg, hdom⟩
        · rw [h.pending, map_eq_nil_iff, drop_eq_nil_iff] at hempty
          omega
        · rw [← h.document, hreg, hdom]
      | _ => rfl
    rw [take_append_of_le_length (by omega), hsame]
    exact hsteady i hi hlt'

end Channel

/-! ## All workers -/

/-- What holds of the bridge if `P` holds of every worker. -/
structure Bridge.Inv (P : Channel → Prop) (b : Bridge) : Prop where
  channels : ∀ (worker : Nat) (c : Channel), b.channels[worker]? = some c → P c
  /-- The event about to be sent is the last one recorded. -/
  sending : ∀ worker event, b.sending = some (worker, event) →
    ∃ c, b.channels[worker]? = some c ∧ c.recorded = c.sent ++ [event]
  /-- The tab's worker is the tab's, and has been sent everything recorded, unless the router is about
  to send. -/
  workers : ∀ tab worker, b.workers.lookup tab = some worker →
    ∃ c, b.channels[worker]? = some c ∧ c.tab = tab ∧
      ((∀ event, b.sending ≠ some (worker, event)) → c.sent = c.recorded)

/-- The condition on a move. -/
def Bridge.Admits (b : Bridge) : BridgeMove → Prop
  | .receive tab event => ∀ (worker : Nat) (c : Channel), b.workers.lookup tab = some worker →
      b.channels[worker]? = some c → good c event
  | _ => True

variable {worker : Nat} {c : Channel}

namespace Bridge

variable {debug good} {P : Channel → Prop} {b b' : Bridge}

theorem set_getElem? {channels : List Channel} {worker w : Nat} {c c' d : Channel}
    (hc : channels[worker]? = some c) (h : (channels.set worker c')[w]? = some d) :
    (w = worker ∧ d = c') ∨ w ≠ worker ∧ channels[w]? = some d := by
  grind

theorem set_getElem?_self {channels : List Channel} (c' : Channel)
    (hc : channels[worker]? = some c) : (channels.set worker c')[worker]? = some c' :=
  List.getElem?_set_self (List.getElem?_eq_some_iff.mp hc).1

theorem Inv.update {c c' : Channel} (h : b.Inv P) (hc : b.channels[worker]? = some c)
    (hP : P c') (htab : c'.tab = c.tab) (hrec : c'.recorded = c.recorded) (hsent : c'.sent = c.sent)
    (ui : List (TabId × Except MizuError WorkerResponse)) :
    ({ b.updateChannel worker c' with ui } : Bridge).Inv P := by
  have lift : ∀ (w : Nat) (d : Channel), b.channels[w]? = some d → ∃ d', (b.channels.set worker c')[w]? = some d' ∧
      d'.tab = d.tab ∧ d'.recorded = d.recorded ∧ d'.sent = d.sent := by
    intro w d hd
    by_cases hw : w = worker
    · grind
    · exact ⟨d, by rw [List.getElem?_set_ne (Ne.symm hw), hd], rfl, rfl, rfl⟩
  refine ⟨fun w d hd => ?_, fun w event hs => ?_, fun tab w hw => ?_⟩
  · rcases set_getElem? hc hd with ⟨-, rfl⟩ | ⟨-, hd⟩
    · exact hP
    · exact h.channels w d hd
  · obtain ⟨d, hd, hrec⟩ := h.sending w event hs
    obtain ⟨d', hd', -, hr, hs⟩ := lift w d hd
    exact ⟨d', hd', by rw [hr, hs, hrec]⟩
  · obtain ⟨d, hd, htab, hsent⟩ := h.workers tab w hw
    obtain ⟨d', hd', ht, hr, hs⟩ := lift w d hd
    exact ⟨d', hd', ht.trans htab, fun hne => by rw [hr, hs, hsent hne]⟩

theorem Inv.workerOf (h : b.Inv P) (hnew : ∀ tab, P (.new tab)) (tab : TabId)
    (hidle : b.sending = none) :
    (b.workerOf tab).1.Inv P ∧ (b.workerOf tab).1.sending = none ∧
      ∃ c, (b.workerOf tab).1.channels[(b.workerOf tab).2]? = some c ∧ c.tab = tab ∧
        c.sent = c.recorded ∧ (b.workerOf tab).1.workers.lookup tab = some (b.workerOf tab).2 ∧
        (c = .new tab ∨ b.workers.lookup tab = some (b.workerOf tab).2 ∧
          b.channels[(b.workerOf tab).2]? = some c) := by
  unfold Bridge.workerOf
  cases hw : b.workers.lookup tab with
  | some worker =>
    obtain ⟨c, hc, htab, hsent⟩ := h.workers tab worker hw
    refine ⟨h, hidle, c, hc, htab, hsent fun event hs => ?_, hw, .inr ⟨rfl, hc⟩⟩
    rw [hidle] at hs
    cases hs
  | none =>
    have old : ∀ (w : Nat) (d : Channel), b.channels[w]? = some d → (b.channels ++ [.new tab])[w]? = some d := by
      grind
    refine ⟨⟨fun w d hd => ?_, fun w event hs => ?_, fun tab' w hw' => ?_⟩, hidle, .new tab, ?_, rfl,
      rfl, ?_, .inl rfl⟩
    · rcases mem_append.mp (mem_of_getElem? hd) with hd | hd
      · obtain ⟨i, hi⟩ := List.getElem?_of_mem hd
        exact h.channels i d hi
      · exact mem_singleton.mp hd ▸ hnew tab
    · have hs : b.sending = some (w, event) := hs
      rw [hidle] at hs
      cases hs
    · by_cases htab : tab' = tab
      · subst htab
        rw [Finmap.lookup_insert, some.injEq] at hw'
        subst hw'
        exact ⟨.new tab', List.getElem?_concat_length, rfl, fun _ => rfl⟩
      · rw [Finmap.lookup_insert_of_ne _ htab] at hw'
        obtain ⟨d, hd, htab, hsent⟩ := h.workers tab' w hw'
        exact ⟨d, old w d hd, htab, hsent⟩
    · exact List.getElem?_concat_length
    · exact Finmap.lookup_insert _

variable {event : UiEvent}

theorem Inv.receive {tab : TabId} (h : b.Inv P) (hnew : ∀ tab, P (.new tab))
    (hP : ∀ c c', P c → Channel.Step debug good c c' → P c')
    (hgood : b.Admits good (.receive tab event)) (hfresh : good (.new tab) event)
    (hstep : b.receive tab event = some b') : b'.Inv P := by
  unfold Bridge.receive at hstep
  split at hstep
  · cases hstep
  · cases hstep
    refine ⟨h.channels, h.sending, fun tab' w hw => ?_⟩
    by_cases htab : tab' = tab
    · subst htab
      rw [Finmap.lookup_erase] at hw
      cases hw
    · rw [Finmap.lookup_erase_ne htab] at hw
      exact h.workers tab' w hw
  · rename_i event _ _ hidle hevent
    obtain ⟨hinv, hidle', c, hc, htab, hsent, hlookup, hcase⟩ := h.workerOf hnew tab hidle
    dsimp only at hstep
    rw [hc] at hstep
    cases hstep
    have hadmits : good c event := by
      rcases hcase with rfl | ⟨hw, hc⟩
      · exact hfresh
      · exact hgood _ c hw hc
    have hlift : ∀ (w : Nat) (d : Channel), (b.workerOf tab).1.channels[w]? = some d → w ≠ (b.workerOf tab).2 →
        ((b.workerOf tab).1.channels.set (b.workerOf tab).2 (c.accept event))[w]? = some d := by
      intro w d hd hne
      rw [List.getElem?_set_ne (Ne.symm hne), hd]
    refine ⟨fun w d hd => ?_, fun w e hs => ?_, fun tab' w hw => ?_⟩
    · rcases set_getElem? hc hd with ⟨-, rfl⟩ | ⟨-, hd⟩
      · exact hP c _ (hinv.channels _ c hc) (.accept event hadmits)
      · exact hinv.channels w d hd
    · simp only [some.injEq, Prod.mk.injEq] at hs
      obtain ⟨rfl, rfl⟩ := hs
      refine ⟨_, set_getElem?_self _ hc, ?_⟩
      show c.recorded ++ [event] = c.sent ++ [event]
      rw [hsent]
    · obtain ⟨d, hd, htab', hsent'⟩ := hinv.workers tab' w hw
      by_cases hwk : w = (b.workerOf tab).2
      · subst hwk
        obtain rfl : c = d := some.inj (hc.symm.trans hd)
        exact ⟨_, set_getElem?_self _ hc, htab', fun hne => absurd rfl (hne event)⟩
      · refine ⟨d, hlift w d hd hwk, htab', fun _ => hsent' fun e hs => ?_⟩
        rw [hidle'] at hs
        cases hs

theorem Inv.send (h : b.Inv P) (hP : ∀ c c', P c → Channel.Step debug good c c' → P c')
    (hs : b.sending = some (worker, event)) (hc : b.channels[worker]? = some c) :
    ({ b.updateChannel worker { c with sent := c.sent ++ [event] } with sending := none } :
      Bridge).Inv P := by
  obtain ⟨c', hc', hrec⟩ := h.sending worker event hs
  obtain rfl : c = c' := some.inj (hc.symm.trans hc')
  refine ⟨fun w d hd => ?_, fun w e hs => ?_, fun tab w hw => ?_⟩
  · rcases set_getElem? hc hd with ⟨-, rfl⟩ | ⟨-, hd⟩
    · exact hP c _ (h.channels worker c hc) (.send event hrec)
    · exact h.channels w d hd
  · cases hs
  · obtain ⟨d, hd, htab, hsent⟩ := h.workers tab w hw
    by_cases hwk : w = worker
    · subst hwk
      obtain rfl : c = d := some.inj (hc.symm.trans hd)
      exact ⟨_, set_getElem?_self _ hc, htab, fun _ => hrec.symm⟩
    · refine ⟨d, by rw [← hd]; exact List.getElem?_set_ne (Ne.symm hwk), htab, fun _ => ?_⟩
      refine hsent fun e he => hwk ?_
      rw [hs, some.injEq, Prod.mk.injEq] at he
      exact he.1.symm

/-- After a failed send no tab has the worker any more. -/
theorem Inv.sendFails (h : b.Inv P)
    (hs : b.sending = some (worker, event)) (hc : b.channels[worker]? = some c)
    (ui : List (TabId × Except MizuError WorkerResponse)) :
    ({ b with workers := b.workers.erase c.tab, ui, sending := none } : Bridge).Inv P := by
  refine ⟨h.channels, fun w e he => (by cases he), fun tab w hw => ?_⟩
  by_cases htab : tab = c.tab
  · subst htab
    rw [Finmap.lookup_erase] at hw
    cases hw
  · rw [Finmap.lookup_erase_ne htab] at hw
    obtain ⟨d, hd, htab', hsent⟩ := h.workers tab w hw
    refine ⟨d, hd, htab', fun _ => hsent fun e he => htab ?_⟩
    rw [hs, some.injEq, Prod.mk.injEq] at he
    obtain ⟨rfl, -⟩ := he
    obtain rfl : c = d := some.inj (hc.symm.trans hd)
    exact htab'.symm

theorem Inv.step {m : BridgeMove} (h : b.Inv P) (hnew : ∀ tab, P (.new tab))
    (hfresh : ∀ tab event, good (.new tab) event)
    (hP : ∀ c c', P c → Channel.Step debug good c c' → P c') (hgood : b.Admits good m)
    (hstep : b.step debug m = some b') : b'.Inv P := by
  cases m with
  | receive tab event => exact h.receive hnew hP hgood (hfresh tab event) hstep
  | startFails tab event e =>
    simp only [Bridge.step] at hstep
    split at hstep <;> cases hstep
    exact ⟨h.channels, h.sending, h.workers⟩
  | send =>
    simp only [Bridge.step] at hstep
    split at hstep
    · cases hstep
    · rename_i worker event hs
      simp only [map_eq_some_iff] at hstep
      obtain ⟨c, hc, rfl⟩ := hstep
      exact h.send hP hs hc
  | sendFails message =>
    simp only [Bridge.step] at hstep
    split at hstep
    · cases hstep
    · rename_i worker event hs
      simp only [map_eq_some_iff] at hstep
      obtain ⟨c, hc, rfl⟩ := hstep
      exact h.sendFails hs hc _
  | answer worker envelope =>
    simp only [Bridge.step] at hstep
    split at hstep
    · cases hstep
    · rename_i c hc
      split at hstep
      · rename_i hlt
        cases hstep
        exact h.update hc (hP c _ (h.channels worker c hc) (.answer envelope hlt)) rfl rfl rfl b.ui
      · cases hstep
  | read worker =>
    simp only [Bridge.step, Bridge.read] at hstep
    split at hstep
    · cases hstep
    · rename_i c hc
      split at hstep
      · rename_i envelope _ hread
        cases hstep
        exact h.update hc (hP c _ (h.channels worker c hc) (.read envelope _ hread)) rfl rfl rfl _
      · cases hstep

theorem start_inv : start.Inv P :=
  ⟨fun _ _ h => by simp [start] at h, fun _ _ h => by simp [start] at h,
    fun _ _ h => by simp [start] at h⟩

end Bridge

/-! ## Every run -/

theorem Channel.new_inv (tab : TabId) : (Channel.new tab).Inv :=
  ⟨prefix_refl _, Nat.le_refl _, Nat.le_refl _, rfl, rfl⟩

theorem Channel.new_judged (tab : TabId) (doc : Channel → Nat → UrlRegistry × String → Prop) :
    (Channel.new tab).JudgedWith debug doc := fun i _ _ _ h => by simp [Channel.new] at h

/-- What holds of a new worker and is kept by the moves about a worker holds of every worker, in every
run whose moves meet the condition. -/
theorem reaches_channels {P : Channel → Prop} {b : Bridge} (hnew : ∀ tab, P (.new tab))
    (hfresh : ∀ tab event, good (.new tab) event) (hP : ∀ c c', P c → Channel.Step debug good c c' → P c')
    (h : Reaches (Bridge.step debug) (Bridge.Admits good) .start b)
    (hc : b.channels[worker]? = some c) : P c :=
  (h.invariant (I := Bridge.Inv P) Bridge.start_inv fun _ _ _ hb hgood hstep =>
    hb.step hnew hfresh hP hgood hstep).channels worker c hc

/-- In every run an answer is judged with the agency of the event it answers. -/
theorem reply_agency {b : Bridge} (h : Reaches (Bridge.step debug) (fun _ _ => True) .start b)
    (hc : b.channels[worker]? = some c) : c.JudgedWith debug fun _ _ _ => True := by
  have hrun : Reaches (Bridge.step debug) (Bridge.Admits fun _ _ => True) .start b := by
    refine h.mono fun b m _ => ?_
    cases m with
    | receive tab event => exact fun _ _ _ _ => trivial
    | _ => trivial
  refine (reaches_channels (P := fun c => c.Inv ∧ c.JudgedWith debug fun _ _ _ => True) debug _
    (fun tab => ⟨Channel.new_inv tab, Channel.new_judged debug tab _⟩) (fun _ _ => trivial)
    (fun c c' hP hs => ⟨hP.1.step hs, ?_⟩) hrun hc).2
  exact hP.2.step hP.1 hs (fun _ _ _ _ => trivial) fun _ _ _ => trivial

theorem Channel.Step.sent_prefix {c c' : Channel} (h : Channel.Step debug good c c') :
    c.sent <+: c'.sent := by
  cases h with
  | send event hrec => exact prefix_append _ _
  | _ => exact prefix_refl _

theorem take_recorded {es es' : List UiEvent} (h : es <+: es') {i : Nat} (hi : i < es.length) :
    es'.take (i + 1) = es.take (i + 1) := by
  obtain ⟨rest, rfl⟩ := h
  exact take_append_of_le_length (by omega)

/-- Under the condition the current document is that of the oldest event not yet judged. -/
theorem Channel.JudgedWith.step_document {c c' : Channel} (h : c.Inv) (hsteady : c.Steady)
    (hjudged : c.JudgedWith debug documentAt) (hstep : Channel.Step debug Channel.Settled c c') :
    c'.JudgedWith debug documentAt := by
  refine hjudged.step h hstep (fun i d hi hd => ?_) fun hlt hsent _ => ?_
  · unfold documentAt at hd ⊢
    rw [take_recorded (hstep.sent_prefix debug _) hi, hd]
  · unfold documentAt
    have hrec : c.judged.length < c.recorded.length :=
      Nat.lt_of_lt_of_le hlt h.sent_prefix.length_le
    rw [hsent, ← take_recorded h.sent_prefix hlt]
    exact (hsteady _ (Nat.le_refl _) hrec).symm

/-- In every run that forwards a reload with a new registry or domain only when the worker has
answered every event before, the answer to an event is judged with that event's agency and with the
registry and domain of the last reload sent at or before it. -/
theorem replies_correlated (debug : WireWorkerError → String) (b : Bridge)
    (h : Reaches (Bridge.step debug) (Bridge.Admits Channel.Settled) .start b) (worker : Nat)
    (c : Channel) (hc : b.channels[worker]? = some c) (i : Nat) (event : UiEvent)
    (envelope : WireWorkerEnvelope) (out : Option (Except MizuError WorkerResponse))
    (hsent : c.sent[i]? = some event) (hreply : c.replies[i]? = some envelope)
    (hout : c.judged[i]? = some out) :
    out = judge debug (.of event) (documentOf (c.sent.take (i + 1))).1
      (documentOf (c.sent.take (i + 1))).2 envelope := by
  have hjudged : c.Inv ∧ c.Steady ∧ c.JudgedWith debug documentAt := by
    refine reaches_channels (P := fun c => c.Inv ∧ c.Steady ∧ c.JudgedWith debug documentAt) debug
      Channel.Settled (fun tab => ?_) (fun tab event => ?_) (fun c c' hP hs => ?_) h hc
    · exact ⟨Channel.new_inv tab, fun i _ hi => absurd hi (Nat.not_lt_zero i),
        Channel.new_judged debug tab _⟩
    · cases event with
      | reload payload => exact .inl rfl
      | _ => trivial
    · obtain ⟨hinv, hsteady, hjudged⟩ := hP
      exact ⟨hinv.step hs, hsteady.step hinv hs, hjudged.step_document debug hinv hsteady hs⟩
  obtain ⟨d, rfl, hd⟩ := hjudged.2.2 i event envelope out hsent hreply hout
  exact hd

end Correlation

/-! ## A reload that overtakes an answer -/

/-- A document whose only alias is `x`, at the given path and domain. -/
def overtakingReload (path domain : String) : UiEvent :=
  .reload
    { logicFns := ∅, clickActions := ∅, submitActions := ∅, rootTimerActions := []
      interner := .new, initialVariables := [], urlRegistry := Finmap.singleton ⟨0⟩ ⟨.api, path⟩
      documentDomain := domain, computedBindings := [] }

/-- The answer to a tick of the first document, which calls `x`. -/
def overtakenAnswer : WireWorkerEnvelope :=
  .ok
    { mutatedSyms := [], mutatedValues := [], gesture := false
      runtimeActions := [.networkCall .get 0 none none 0 .json [] []] }

/-- The tick is sent, a second document is loaded, and only then the tick's answer is read. -/
def overtakingMoves : List BridgeMove :=
  [.receive ⟨0⟩ (overtakingReload "/a" "a.mizu"), .send, .receive ⟨0⟩ (.rootTimer 0), .send,
    .receive ⟨0⟩ (overtakingReload "/b" "b.mizu"), .send, .answer 0 .noOp,
    .answer 0 overtakenAnswer, .read 0, .read 0]

/-- The URLs of the calls that an answer makes. -/
def callUrls : Option (Except MizuError WorkerResponse) → List String
  | some (.ok response) => response.runtimeActions.filterMap fun a =>
    match a with
    | .resolvedCall _ url _ _ _ _ => some url
    | _ => none
  | _ => []

/-- The first document's call is resolved in the second document's table. -/
theorem reply_judged_by_next_document :
    ¬∀ (debug : WireWorkerError → String) (b : Bridge),
      Reaches (Bridge.step debug) (fun _ _ => True) .start b →
      ∀ (worker : Nat) (c : Channel), b.channels[worker]? = some c →
      ∀ (i : Nat) (event : UiEvent) (envelope : WireWorkerEnvelope)
        (out : Option (Except MizuError WorkerResponse)),
        c.sent[i]? = some event → c.replies[i]? = some envelope → c.judged[i]? = some out →
        out = judge debug (.of event) (documentOf (c.sent.take (i + 1))).1
          (documentOf (c.sent.take (i + 1))).2 envelope := by
  intro h
  have hrun : Reaches (Bridge.step fun _ => "") (fun _ _ => True) .start _ :=
    reaches_of_run overtakingMoves rfl fun _ _ _ => trivial
  have hjudged := h (fun _ => "") _ hrun 0 _ rfl 1 _ overtakenAnswer _ rfl rfl rfl
  have hurls := congrArg callUrls hjudged
  exact absurd hurls (by decide)

/-- The overtaken answer is judged as a document's own, under either document. -/
theorem reply_agency_overtaken : ∃ c : Channel,
    c.judged[1]?.isSome ∧ c.JudgedWith (fun _ => "") fun _ _ _ => True := by
  have hrun : Reaches (Bridge.step fun _ => "") (fun _ _ => True) .start _ :=
    reaches_of_run overtakingMoves rfl fun _ _ _ => trivial
  have hjudged := reply_agency (fun _ => "") hrun (rfl : (Bridge.channels _)[0]? = some _)
  exact ⟨_, rfl, hjudged⟩

/-- The same tick, answered before anything else is loaded, is judged with its own document. -/
theorem replies_correlated_tick : ∃ (c : Channel) (out : Option (Except MizuError WorkerResponse)),
    c.judged[1]? = some out ∧ callUrls out = ["mizu://a.mizu/a"] ∧
    out = judge (fun _ => "") .documentDriven (documentOf (c.sent.take 2)).1
      (documentOf (c.sent.take 2)).2 overtakenAnswer := by
  have loaded : Reaches (Bridge.step fun _ => "") (Bridge.Admits Channel.Settled) .start _ :=
    .next (l := .receive ⟨0⟩ (overtakingReload "/a" "a.mizu")) .refl
      (fun worker c hw => by simp [Bridge.start] at hw) rfl
  have idle : Reaches (Bridge.step fun _ => "") (Bridge.Admits Channel.Settled) .start _ :=
    .next (l := .read 0) (.next (l := .answer 0 .noOp) (.next (l := .send) loaded trivial rfl)
      trivial rfl) trivial rfl
  have ticked : Reaches (Bridge.step fun _ => "") (Bridge.Admits Channel.Settled) .start _ :=
    .next (l := .receive ⟨0⟩ (.rootTimer 0)) idle (fun _ _ _ _ => trivial) rfl
  have done : Reaches (Bridge.step fun _ => "") (Bridge.Admits Channel.Settled) .start _ :=
    .next (l := .read 0) (.next (l := .answer 0 overtakenAnswer) (.next (l := .send) ticked trivial
      rfl) trivial rfl) trivial rfl
  exact ⟨_, _, rfl, rfl, replies_correlated (fun _ => "") _ done 0 _ rfl 1 (.rootTimer 0)
    overtakenAnswer _ rfl rfl rfl⟩

end Mizu
