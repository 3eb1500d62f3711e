import Mizu.Lib.Transition
import Mizu.Network.Dns

/-!
# The pool of HTTP/3 connections

One connection for each domain, behind a lock that a request keeps while it connects. The calls of the requests wait
for the lock in the order they come in; time passes as it likes, and a handshake ends in any way.

* `pool_kept`: in every run whose steps are `Careful` the pool stays small, hands out only recent connections to the
  right party, and lets no request wait for a handshake with another domain; a step that is not breaks this.
* `pool_not_kept`: a connection idle for two minutes is handed out, and a request waits for the handshake of another.
-/

namespace Mizu

open Transition List

/-! ## Making room -/

/-- A value and its last use. -/
structure Pooled (V : Type) where
  domain : String
  value : V
  lastUsed : Nat
  deriving DecidableEq, Repr

section MakeRoom

variable {V : Type}

/-- The domain of the first of the least recently used. -/
def lruDomain (map : List (Pooled V)) : Option String := (map.argmin (·.lastUsed)).map (·.domain)

def removeDomain (map : List (Pooled V)) (domain : String) : List (Pooled V) :=
  map.eraseP (·.domain = domain)

/-- The loop of `make_room`. -/
def evictLru (maxPoolSize : Nat) : Nat → List (Pooled V) → List (Pooled V)
  | 0, map => map
  | rounds + 1, map =>
    if map.length < maxPoolSize then map
    else
      match lruDomain map with
      | none => map
      | some domain => evictLru maxPoolSize rounds (removeDomain map domain)

/-- `make_room`; as many rounds as entries are enough to empty the map. -/
def makeRoom (map : List (Pooled V)) (now maxIdle maxPoolSize : Nat) : List (Pooled V) :=
  let fresh := map.filter fun entry => now - entry.lastUsed < maxIdle
  evictLru maxPoolSize fresh.length fresh

/-- What is left of a map if only the least recently used have gone, and no more of them than needed. -/
structure Evicted (maxPoolSize : Nat) (map kept : List (Pooled V)) : Prop where
  sublist : kept.Sublist map
  oldest : ∀ entry ∈ map, entry ∉ kept → ∀ other ∈ kept, entry.lastUsed ≤ other.lastUsed
  needed : ∀ entry ∈ map, entry ∉ kept → maxPoolSize ≤ kept.length + 1

variable {maxPoolSize now maxIdle : Nat} {map kept : List (Pooled V)}

theorem Evicted.refl (maxPoolSize : Nat) (map : List (Pooled V)) : Evicted maxPoolSize map map where
  sublist := .refl map
  oldest _ hmem hgone := absurd hmem hgone
  needed _ hmem hgone := absurd hmem hgone

theorem removeDomain_sublist (map : List (Pooled V)) (domain : String) : (removeDomain map domain).Sublist map :=
  eraseP_sublist

variable {entry : Pooled V}

theorem mem_removeDomain {domain : String} (hmem : entry ∈ map) (hne : entry.domain ≠ domain) :
    entry ∈ removeDomain map domain :=
  (mem_eraseP_of_neg (by simpa using hne)).mpr hmem

theorem not_mem_removeDomain {domain : String} (hdistinct : (map.map (·.domain)).Nodup) :
    domain ∉ (removeDomain map domain).map (·.domain) := by
  induction map with
  | nil => exact not_mem_nil
  | cons entry rest ih => grind [removeDomain]

theorem length_removeDomain (hmem : entry ∈ map) :
    (removeDomain map entry.domain).length + 1 = map.length := by
  have hlength := length_eraseP_of_mem (p := (·.domain = entry.domain)) hmem (by simp)
  have hpos := length_pos_of_mem hmem
  unfold removeDomain
  omega

theorem Evicted.cons (hdistinct : (map.map (·.domain)).Nodup) (hfull : maxPoolSize ≤ map.length)
    (hentry : entry ∈ map) (hleast : ∀ other ∈ map, entry.lastUsed ≤ other.lastUsed)
    (h : Evicted maxPoolSize (removeDomain map entry.domain) kept) : Evicted maxPoolSize map kept := by
  have hsublist := h.sublist.trans (removeDomain_sublist map entry.domain)
  have hgone {other : Pooled V} (hother : other ∈ map) :
      other ∈ removeDomain map entry.domain ∨ other = entry := by
    by_cases hdomain : other.domain = entry.domain
    · exact .inr (inj_on_of_nodup_map hdistinct hother hentry hdomain)
    · exact .inl (mem_removeDomain hother hdomain)
  refine ⟨hsublist, ?_, ?_⟩
  · intro other hother hnot
    rcases hgone hother with hrest | rfl
    · exact h.oldest other hrest hnot
    · exact fun last hlast => hleast last (hsublist.subset hlast)
  · intro other hother hnot
    by_cases hall : removeDomain map entry.domain ⊆ kept
    · have hnodup : (removeDomain map entry.domain).Nodup :=
        (hdistinct.of_map _).sublist (removeDomain_sublist map entry.domain)
      have hle := (hnodup.subperm hall).length_le
      have hlength := length_removeDomain hentry
      omega
    · obtain ⟨last, hlast, hnot⟩ := Set.not_subset.mp hall
      exact h.needed last hlast hnot

theorem evictLru_spec (maxPoolSize rounds : Nat) (map : List (Pooled V)) (hdistinct : (map.map (·.domain)).Nodup)
    (hrounds : map.length ≤ rounds) :
    Evicted maxPoolSize map (evictLru maxPoolSize rounds map) ∧
      ((evictLru maxPoolSize rounds map).length < maxPoolSize ∨ evictLru maxPoolSize rounds map = []) := by
  induction rounds generalizing map with
  | zero => exact ⟨.refl _ _, .inr (length_eq_zero_iff.mp (Nat.le_zero.mp hrounds))⟩
  | succ rounds ih =>
    unfold evictLru
    split
    · exact ⟨.refl _ _, .inl ‹_›⟩
    · next hfull =>
      unfold lruDomain
      cases hleast : map.argmin (·.lastUsed) with
      | none => exact ⟨.refl _ _, .inr (argmin_eq_none.mp hleast)⟩
      | some entry =>
        have hentry := argmin_mem hleast
        have hlength := length_removeDomain hentry
        obtain ⟨hevicted, hroom⟩ := ih (removeDomain map entry.domain)
          (hdistinct.sublist ((removeDomain_sublist _ _).map _)) (by omega)
        refine ⟨hevicted.cons hdistinct (by omega) hentry ?_, hroom⟩
        exact fun other hother => le_of_mem_argmin hother hleast

/-- Room made: the idle entries have gone, and of the others the least recently used, as far as needed. -/
structure MadeRoom (now maxIdle maxPoolSize : Nat) (map kept : List (Pooled V)) : Prop where
  evicted : Evicted maxPoolSize (map.filter fun entry => now - entry.lastUsed < maxIdle) kept
  room : kept.length < maxPoolSize ∨ kept = []

theorem madeRoom (now maxIdle maxPoolSize : Nat) (hdistinct : (map.map (·.domain)).Nodup) :
    MadeRoom now maxIdle maxPoolSize map (makeRoom map now maxIdle maxPoolSize) := by
  obtain ⟨hevicted, hroom⟩ := evictLru_spec maxPoolSize _
    (map.filter fun entry => now - entry.lastUsed < maxIdle)
    (hdistinct.sublist (filter_sublist.map _)) (le_refl _)
  exact ⟨hevicted, hroom⟩

theorem MadeRoom.sublist (h : MadeRoom now maxIdle maxPoolSize map kept) : kept.Sublist map :=
  h.evicted.sublist.trans filter_sublist

end MakeRoom

/-! ## Handshakes -/

/-- `MIZU_ALPN`: `mizu/3`. -/
def mizuAlpn : List UInt8 := [0x6d, 0x69, 0x7a, 0x75, 0x2f, 0x33]

/-- What a handshake leaves behind: the protocol agreed upon, or data of an unexpected type. -/
inductive HandshakeData where
  | rustls (protocol : Option (List UInt8))
  | other
  deriving DecidableEq, Repr

def HandshakeData.protocol : HandshakeData → Option (List UInt8)
  | .rustls protocol => protocol
  | .other => none

inductive HandshakeOutcome where
  | connectError (error : String)
  | connectionFailed (error : String)
  | connected (data : Option HandshakeData) (setup : Except String Unit)
  | timedOut

/-- A handle, with what its handshake established. -/
structure H3Client where
  domain : String
  addr : SocketAddr
  alpn : Option (List UInt8)
  deriving DecidableEq, Repr

/-- The settings of the pool, what resolvers answer over time, and how a protocol is printed. -/
structure PoolSystem where
  connectTimeoutSecs : Nat
  quicMaxIdleTimeoutSecs : Nat
  maxPoolSize : Nat
  mizuPort : UInt16
  dns : Nat → Resolver
  debugProtocol : Option (List UInt8) → String

namespace PoolSystem

variable (sys : PoolSystem)

/-- Time is counted in nanoseconds. -/
def maxIdle : Nat := sys.quicMaxIdleTimeoutSecs * 10 ^ 9

/-- An address that the resolver gave for a domain. -/
def Authorized (domain : String) (addr : SocketAddr) : Prop :=
  ∃ time allowPrivateLiteral, (sys.dns time).resolveDomain domain sys.mizuPort allowPrivateLiteral = .ok addr

/-- A domain with its `AuthorizedAddr`. -/
structure Target where
  domain : String
  addr : SocketAddr
  authorized : sys.Authorized domain addr

def verifyNegotiatedAlpn (data : Option HandshakeData) (domain : String) : Except MizuError Unit :=
  let negotiated := data.bind (·.protocol)
  if negotiated = some mizuAlpn then .ok ()
  else
    .error (.securityViolation ("ALPN mismatch connecting to " ++ domain ++
      ": expected \"mizu/3\", server negotiated " ++ sys.debugProtocol negotiated))

/-- The part of `get_or_connect` that the timeout bounds. -/
def connect (target : sys.Target) : HandshakeOutcome → Except MizuError H3Client
  | .connectError e => .error (.network ("Connect error: " ++ e))
  | .connectionFailed e => .error (.network ("Connection failed: " ++ e))
  | .connected data setup =>
    match sys.verifyNegotiatedAlpn data target.domain with
    | .error e => .error e
    | .ok () =>
      match setup with
      | .error e => .error (.network ("H3 connection setup error: " ++ e))
      | .ok () => .ok ⟨target.domain, target.addr, data.bind (·.protocol)⟩
  | .timedOut =>
    .error (.network ("QUIC/H3 handshake to " ++ target.domain ++ " timed out after " ++
      toString sys.connectTimeoutSecs ++ "s"))

/-- A handle for a domain: connected to an authorized address with the right protocol. -/
structure Established (domain : String) (client : H3Client) : Prop where
  sameDomain : client.domain = domain
  authorized : sys.Authorized domain client.addr
  alpn : client.alpn = some mizuAlpn

variable {sys} {target : sys.Target}

theorem established_of_connect {outcome : HandshakeOutcome} {client : H3Client}
    (h : sys.connect target outcome = .ok client) : sys.Established target.domain client := by
  cases outcome with
  | connectError | connectionFailed | timedOut => nomatch h
  | connected data setup =>
    simp only [connect, verifyNegotiatedAlpn] at h
    by_cases halpn : data.bind (·.protocol) = some mizuAlpn
    · rw [if_pos halpn] at h
      cases setup with
      | error e => nomatch h
      | ok _ =>
        obtain rfl := Except.ok.inj h
        exact ⟨rfl, target.authorized, halpn⟩
    · rw [if_neg halpn] at h
      nomatch h

/-! ## The pool -/

section Pool

variable (sys)

/-- What waits for the lock. -/
inductive PoolCall where
  | getOrConnect (target : sys.Target)
  | evict (domain : String)

def PoolCall.domain {sys : PoolSystem} : sys.PoolCall → String
  | .getOrConnect target => target.domain
  | .evict domain => domain

/-- An answer; for an entry of the pool, how long it had not been used. -/
structure PoolReply where
  target : sys.Target
  outcome : Except MizuError H3Client
  idle : Option Nat

structure Pool where
  now : Nat
  connections : List (Pooled H3Client)
  /-- The handshake during which the lock is held. -/
  pending : Option sys.Target
  /-- The lock is handed on in this order. -/
  waiting : List sys.PoolCall
  replies : List sys.PoolReply

inductive PoolMove where
  | call (call : sys.PoolCall)
  /-- The first that waits gets the lock and finds the entries in some order. -/
  | lock (order : List (Pooled H3Client))
  | handshake (outcome : HandshakeOutcome)
  | elapse (duration : Nat)

def start : sys.Pool := ⟨0, [], none, [], []⟩

end Pool

/-- `get_or_connect` up to the handshake. -/
def getOrConnect (s : sys.Pool) (target : sys.Target) : sys.Pool :=
  match s.connections.find? (·.domain = target.domain) with
  | some entry =>
    { s with
      connections := s.connections.map fun e => if e.domain = target.domain then { e with lastUsed := s.now } else e
      replies := ⟨target, .ok entry.value, some (s.now - entry.lastUsed)⟩ :: s.replies }
  | none =>
    { s with
      connections := makeRoom s.connections s.now sys.maxIdle sys.maxPoolSize
      pending := some target }

def perform (s : sys.Pool) : sys.PoolCall → sys.Pool
  | .getOrConnect target => getOrConnect s target
  | .evict domain => { s with connections := removeDomain s.connections domain }

/-- `get_or_connect` after the handshake. -/
def finish (s : sys.Pool) (target : sys.Target) (outcome : Except MizuError H3Client) : sys.Pool :=
  let connections :=
    match outcome with
    | .ok client => ⟨target.domain, client, s.now⟩ :: removeDomain s.connections target.domain
    | .error _ => s.connections
  { s with connections, pending := none, replies := ⟨target, outcome, none⟩ :: s.replies }

def step (s : sys.Pool) : sys.PoolMove → Option sys.Pool
  | .call call => some { s with waiting := s.waiting ++ [call] }
  | .lock order =>
    match s.pending, s.waiting with
    | none, call :: waiting =>
      if order.Perm s.connections then some (perform { s with connections := order, waiting } call) else none
    | _, _ => none
  | .handshake outcome => s.pending.map fun target => finish s target (sys.connect target outcome)
  | .elapse duration => some { s with now := s.now + duration }

/-! ## Runs -/

section Runs

variable {s s' : sys.Pool}

/-- What is asked of every state. -/
structure Kept (s : sys.Pool) : Prop where
  bounded : s.connections.length ≤ sys.maxPoolSize
  handles : ∀ reply ∈ s.replies, ∀ client, reply.outcome = .ok client → sys.Established reply.target.domain client
  recent : ∀ reply ∈ s.replies, ∀ idle, reply.idle = some idle → idle < sys.maxIdle
  unblocked : ∀ target, s.pending = some target → ∀ call ∈ s.waiting, call.domain = target.domain

/-- What is asked of every move: a miss makes room, and a failed handshake inserts nothing. -/
def Moved (s s' : sys.Pool) : sys.PoolMove → Prop
  | .lock order =>
    order.Perm s.connections ∧
      (s'.pending.isSome → MadeRoom s.now sys.maxIdle sys.maxPoolSize order s'.connections)
  | .handshake outcome =>
    ∀ target e, s.pending = some target → sys.connect target outcome = .error e → s'.connections = s.connections
  | _ => s'.connections = s.connections

/-- No idle entry is hit, nobody is left waiting for the handshake of another domain, and the pool may hold a
connection. -/
def Careful (s : sys.Pool) : sys.PoolMove → Prop
  | .call call => ∀ target, s.pending = some target → call.domain = target.domain
  | .lock _ =>
    ∀ target waiting, s.waiting = .getOrConnect target :: waiting →
      (∀ entry ∈ s.connections, entry.domain = target.domain → s.now - entry.lastUsed < sys.maxIdle) ∧
        ((∀ entry ∈ s.connections, entry.domain ≠ target.domain) → ∀ call ∈ waiting, call.domain = target.domain)
  | .handshake outcome =>
    0 < sys.maxPoolSize ∨ ∀ target client, s.pending = some target → sys.connect target outcome ≠ .ok client
  | .elapse _ => True

/-- What every move keeps. -/
structure Sound (s : sys.Pool) : Prop where
  distinct : (s.connections.map (·.domain)).Nodup
  established : ∀ entry ∈ s.connections, sys.Established entry.domain entry.value
  handles : ∀ reply ∈ s.replies, ∀ client, reply.outcome = .ok client → sys.Established reply.target.domain client
  room : s.pending.isSome → s.connections.length < sys.maxPoolSize ∨ s.connections = []

theorem sound_start (sys : PoolSystem) : Sound sys.start where
  distinct := nodup_nil
  established := forall_mem_nil _
  handles := forall_mem_nil _
  room h := absurd h Bool.false_ne_true

theorem kept_start (sys : PoolSystem) : Kept sys.start where
  bounded := Nat.zero_le _
  handles := forall_mem_nil _
  recent := forall_mem_nil _
  unblocked _ _ := forall_mem_nil _

/-- The entries a map holds do not depend on the order it is walked in. -/
theorem Sound.reorder (h : Sound s) {order : List (Pooled H3Client)} (horder : order.Perm s.connections)
    (waiting : List sys.PoolCall) : Sound { s with connections := order, waiting } where
  distinct := (horder.map _).nodup_iff.mpr h.distinct
  established entry hentry := h.established entry (horder.mem_iff.mp hentry)
  handles := h.handles
  room hpending := (h.room hpending).imp (horder.length_eq ▸ ·) fun hnil => (hnil ▸ horder).eq_nil

section GetOrConnect

variable {target : sys.Target}

theorem getOrConnect_hit {entry : Pooled H3Client}
    (hfind : s.connections.find? (·.domain = target.domain) = some entry) :
    ∃ connections, getOrConnect s target =
        { s with connections, replies := ⟨target, .ok entry.value, some (s.now - entry.lastUsed)⟩ :: s.replies } ∧
      connections.length = s.connections.length ∧
      connections.map (·.domain) = s.connections.map (·.domain) ∧
      ∀ e ∈ connections, ∃ old ∈ s.connections, e.domain = old.domain ∧ e.value = old.value := by
  refine ⟨_, by unfold getOrConnect; rw [hfind], length_map _, ?_, ?_⟩
  · rw [map_map]
    refine map_congr_left fun e _ => ?_
    simp only [Function.comp_apply]
    split <;> rfl
  · grind

theorem getOrConnect_miss (hfind : s.connections.find? (·.domain = target.domain) = none) :
    getOrConnect s target =
      { s with
        connections := makeRoom s.connections s.now sys.maxIdle sys.maxPoolSize
        pending := some target } := by
  unfold getOrConnect
  rw [hfind]

theorem Sound.getOrConnect (h : Sound s) (hfree : s.pending = none) (target : sys.Target) :
    Sound (getOrConnect s target) := by
  cases hfind : s.connections.find? (·.domain = target.domain) with
  | some entry =>
    obtain ⟨connections, heq, -, hdomains, hold⟩ := getOrConnect_hit hfind
    have hentry := h.established entry (mem_of_find?_eq_some hfind)
    have hdomain : entry.domain = target.domain := by simpa using List.find?_some hfind
    rw [heq]
    refine ⟨hdomains ▸ h.distinct, ?_, ?_, fun hpending => ?_⟩
    · intro e he
      obtain ⟨old, hmem, hdomain, hvalue⟩ := hold e he
      rw [hdomain, hvalue]
      exact h.established old hmem
    · intro reply hreply client hok
      rcases mem_cons.mp hreply with rfl | hreply
      · obtain rfl := Except.ok.inj hok
        exact hdomain ▸ hentry
      · exact h.handles reply hreply client hok
    · simp [hfree] at hpending
  | none =>
    rw [getOrConnect_miss hfind]
    have hroom := madeRoom s.now sys.maxIdle sys.maxPoolSize h.distinct
    exact ⟨h.distinct.sublist (hroom.sublist.map _),
      fun entry hentry => h.established entry (hroom.sublist.subset hentry), h.handles, fun _ => hroom.room⟩

end GetOrConnect

theorem Sound.finish (h : Sound s) {outcome : Except MizuError H3Client}
    (houtcome : ∀ client, outcome = .ok client → sys.Established target.domain client) :
    Sound (finish s target outcome) := by
  have hhandles : ∀ reply ∈ (⟨target, outcome, none⟩ :: s.replies : List sys.PoolReply), ∀ client,
      reply.outcome = .ok client → sys.Established reply.target.domain client := by
    intro reply hreply client hok
    rcases mem_cons.mp hreply with rfl | hreply
    · exact houtcome client hok
    · exact h.handles reply hreply client hok
  cases outcome with
  | error e => exact ⟨h.distinct, h.established, hhandles, nofun⟩
  | ok client =>
    have hrest := removeDomain_sublist s.connections target.domain
    refine ⟨nodup_cons.mpr ⟨?_, h.distinct.sublist (hrest.map _)⟩, ?_, hhandles, nofun⟩
    · exact not_mem_removeDomain h.distinct
    · intro entry hentry
      rcases mem_cons.mp hentry with rfl | hentry
      · exact houtcome client rfl
      · exact h.established entry (hrest.subset hentry)

theorem lock_cases {order : List (Pooled H3Client)} (h : step s (.lock order) = some s') :
    ∃ call waiting, s.pending = none ∧ s.waiting = call :: waiting ∧ order.Perm s.connections ∧
      s' = perform { s with connections := order, waiting } call := by
  grind [step]

variable {move : sys.PoolMove}

theorem Sound.step (h : Sound s) (hstep : step s move = some s') : Sound s' := by
  cases move with
  | call | elapse =>
    obtain rfl := Option.some.inj hstep
    exact ⟨h.distinct, h.established, h.handles, h.room⟩
  | lock order =>
    obtain ⟨call, waiting, hfree, -, horder, rfl⟩ := lock_cases hstep
    have hreordered := h.reorder horder waiting
    cases call with
    | getOrConnect target => exact hreordered.getOrConnect hfree target
    | evict domain =>
      have hrest := removeDomain_sublist order domain
      refine ⟨hreordered.distinct.sublist (hrest.map _),
        fun entry hentry => hreordered.established entry (hrest.subset hentry), h.handles, fun hpending => ?_⟩
      simp [perform, hfree] at hpending
  | handshake outcome =>
    obtain ⟨target, -, rfl⟩ := Option.map_eq_some_iff.mp hstep
    exact h.finish fun client hok => established_of_connect hok

theorem kept_call_iff (h : Kept s) (call : sys.PoolCall) :
    Kept { s with waiting := s.waiting ++ [call] } ↔ Careful s (.call call) := by
  refine ⟨fun hkept target hpending => hkept.unblocked target hpending call (by simp), fun hcareful => ?_⟩
  refine ⟨h.bounded, h.handles, h.recent, fun target hpending other hother => ?_⟩
  rcases mem_append.mp hother with hother | hother
  · exact h.unblocked target hpending other hother
  · obtain rfl := mem_singleton.mp hother
    exact hcareful target hpending

theorem kept_getOrConnect_iff (h : Kept s) (hsound : Sound s) (hfree : s.pending = none) (target : sys.Target) :
    Kept (getOrConnect s target) ↔
      (∀ entry ∈ s.connections, entry.domain = target.domain → s.now - entry.lastUsed < sys.maxIdle) ∧
        ((∀ entry ∈ s.connections, entry.domain ≠ target.domain) →
          ∀ call ∈ s.waiting, call.domain = target.domain) := by
  have hsound' := hsound.getOrConnect hfree target
  cases hfind : s.connections.find? (·.domain = target.domain) with
  | some entry =>
    have hentry := mem_of_find?_eq_some hfind
    have hdomain : entry.domain = target.domain := by simpa using List.find?_some hfind
    obtain ⟨connections, heq, hlength, -, -⟩ := getOrConnect_hit hfind
    rw [heq] at hsound' ⊢
    constructor
    · intro hkept
      refine ⟨fun other hother hsame => ?_, fun hnone => absurd hdomain (hnone entry hentry)⟩
      obtain rfl := inj_on_of_nodup_map hsound.distinct hother hentry (hsame.trans hdomain.symm)
      exact hkept.recent _ (mem_cons_self ..) _ rfl
    · rintro ⟨hfresh, -⟩
      refine ⟨hlength ▸ h.bounded, hsound'.handles, fun reply hreply idle hidle => ?_, fun target hpending => ?_⟩
      · rcases mem_cons.mp hreply with rfl | hreply
        · grind
        · exact h.recent reply hreply idle hidle
      · simp [hfree] at hpending
  | none =>
    have hnone : ∀ entry ∈ s.connections, entry.domain ≠ target.domain := by grind
    rw [getOrConnect_miss hfind] at hsound' ⊢
    constructor
    · exact fun hkept => ⟨fun entry hentry hsame => absurd hsame (hnone entry hentry),
        fun _ => hkept.unblocked target rfl⟩
    · rintro ⟨-, hsame⟩
      have hroom := madeRoom s.now sys.maxIdle sys.maxPoolSize hsound.distinct
      refine ⟨hroom.sublist.length_le.trans h.bounded, h.handles, h.recent, fun other hpending => ?_⟩
      obtain rfl := Option.some.inj hpending
      exact hsame hnone

theorem kept_finish_iff (h : Kept s) (hsound : Sound s) (hpending : s.pending = some target)
    (outcome : HandshakeOutcome) :
    Kept (finish s target (sys.connect target outcome)) ↔ Careful s (.handshake outcome) := by
  have hsound' : Sound (finish s target (sys.connect target outcome)) :=
    hsound.finish fun client hok => established_of_connect hok
  have hrecent : ∀ reply ∈ (finish s target (sys.connect target outcome)).replies, ∀ idle,
      reply.idle = some idle → idle < sys.maxIdle := by
    intro reply hreply idle hidle
    rcases mem_cons.mp hreply with rfl | hreply
    · nomatch hidle
    · exact h.recent reply hreply idle hidle
  have hkept : Kept (finish s target (sys.connect target outcome)) ↔
      (finish s target (sys.connect target outcome)).connections.length ≤ sys.maxPoolSize :=
    ⟨Kept.bounded, fun hbounded => ⟨hbounded, hsound'.handles, hrecent, nofun⟩⟩
  rw [hkept]
  cases hconnect : sys.connect target outcome with
  | error e =>
    refine iff_of_true h.bounded (.inr fun other client hother => ?_)
    obtain rfl := Option.some.inj (hpending.symm.trans hother)
    simp [hconnect]
  | ok client =>
    have hroom := hsound.room (by simp [hpending])
    have hrest := (removeDomain_sublist s.connections target.domain).length_le
    have hlength : (finish s target (.ok client)).connections.length =
        (removeDomain s.connections target.domain).length + 1 := rfl
    rw [hlength]
    constructor
    · exact fun hlength => .inl (by omega)
    · rintro (hpos | hfails)
      · grind
      · exact absurd hconnect (hfails target client hpending)

/-- In a kept state exactly the careful moves lead to a kept state. -/
theorem kept_step_iff (h : Kept s) (hsound : Sound s) (hstep : step s move = some s') :
    Kept s' ↔ Careful s move := by
  cases move with
  | call call =>
    obtain rfl := Option.some.inj hstep
    exact kept_call_iff h call
  | lock order =>
    obtain ⟨call, waiting, hfree, hwaiting, horder, rfl⟩ := lock_cases hstep
    have hreordered := hsound.reorder horder waiting
    have hkept : Kept { s with connections := order, waiting } :=
      ⟨horder.length_eq ▸ h.bounded, h.handles, h.recent, by simp [hfree]⟩
    cases call with
    | getOrConnect target =>
      refine (kept_getOrConnect_iff hkept hreordered hfree target).trans ?_
      simp only [horder.mem_iff]
      constructor
      · intro hcareful other rest heq
        obtain ⟨hcall, rfl⟩ := List.cons.inj (hwaiting.symm.trans heq)
        obtain rfl := PoolCall.getOrConnect.inj hcall
        exact hcareful
      · exact fun hcareful => hcareful target waiting hwaiting
    | evict domain =>
      refine iff_of_true ⟨?_, h.handles, h.recent, by simp [perform, hfree]⟩ fun target rest heq => ?_
      · exact (removeDomain_sublist order domain).length_le.trans hkept.bounded
      · nomatch hwaiting.symm.trans heq
  | handshake outcome =>
    obtain ⟨target, hpending, rfl⟩ := Option.map_eq_some_iff.mp hstep
    exact kept_finish_iff h hsound hpending outcome
  | elapse duration =>
    obtain rfl := Option.some.inj hstep
    exact iff_of_true ⟨h.bounded, h.handles, h.recent, h.unblocked⟩ trivial

theorem moved_step (hsound : Sound s) (hstep : step s move = some s') : Moved s s' move := by
  cases move with
  | call | elapse =>
    obtain rfl := Option.some.inj hstep
    rfl
  | lock order =>
    obtain ⟨call, waiting, hfree, -, horder, rfl⟩ := lock_cases hstep
    refine ⟨horder, fun hpending => ?_⟩
    cases call with
    | getOrConnect target =>
      simp only [perform] at hpending ⊢
      cases hfind : order.find? (·.domain = target.domain) with
      | some entry =>
        obtain ⟨connections, heq, -⟩ :=
          getOrConnect_hit (s := { s with connections := order, waiting }) hfind
        rw [heq] at hpending
        simp [hfree] at hpending
      | none =>
        rw [getOrConnect_miss (s := { s with connections := order, waiting }) hfind]
        exact madeRoom _ _ _ (hsound.reorder horder waiting).distinct
    | evict domain => simp [perform, hfree] at hpending
  | handshake outcome =>
    obtain ⟨target, hpending, rfl⟩ := Option.map_eq_some_iff.mp hstep
    intro other e hother hfails
    obtain rfl := Option.some.inj (hpending.symm.trans hother)
    simp only [finish, hfails]

theorem sound_of_reaches (h : Reaches step Careful sys.start s) : Sound s :=
  h.invariant (sound_start sys) fun _ _ _ hsound _ hstep => hsound.step hstep

/-- In every run of careful moves the pool is small, its handles were used recently and lead to the right party, and
nobody waits for the handshake of another domain; a move makes room only as it should, and one that is not careful
leads to a state where this fails. -/
theorem pool_kept (h : Reaches step Careful sys.start s) :
    Kept s ∧ ∀ move s', step s move = some s' → Moved s s' move ∧ (Kept s' ↔ Careful s move) := by
  have hsound := sound_of_reaches h
  have hkept : Kept s := by
    refine (h.invariant (I := fun t => Kept t ∧ Sound t) ⟨kept_start sys, sound_start sys⟩ ?_).1
    intro t move u hinv hcareful hstep
    exact ⟨(kept_step_iff hinv.1 hinv.2 hstep).mpr hcareful, hinv.2.step hstep⟩
  exact ⟨hkept, fun move s' hstep => ⟨moved_step hsound hstep, kept_step_iff hkept hsound hstep⟩⟩

/-- One answer for every name. -/
def demoPool : PoolSystem where
  connectTimeoutSecs := 10
  quicMaxIdleTimeoutSecs := 60
  maxPoolSize := 32
  mizuPort := 7399
  dns _ := .answering [.v4 ⟨93, 184, 216, 34⟩]
  debugProtocol _ := "None"

def demoTarget (domain : String) (h : demoPool.Authorized domain ⟨.v4 ⟨93, 184, 216, 34⟩, 7399⟩) : demoPool.Target :=
  ⟨domain, ⟨.v4 ⟨93, 184, 216, 34⟩, 7399⟩, h⟩

def demoOne : demoPool.Target := demoTarget "one.example" ⟨0, false, by decide⟩

def demoTwo : demoPool.Target := demoTarget "two.example" ⟨0, false, by decide⟩

/-- A connection to one domain. -/
def demoConnected : List demoPool.PoolMove :=
  [.call (.getOrConnect demoOne), .lock [], .handshake (.connected (some (.rustls (some mizuAlpn))) (.ok ()))]

/-- The entry that the connection leaves. -/
def demoEntry : Pooled H3Client :=
  ⟨"one.example", ⟨"one.example", ⟨.v4 ⟨93, 184, 216, 34⟩, 7399⟩, some mizuAlpn⟩, 0⟩

theorem pool_kept_connected :
    ∃ s, run step demoPool.start demoConnected = some s ∧ s.connections = [demoEntry] ∧ Kept s := by
  refine ⟨_, rfl, rfl, (pool_kept ?_).1⟩
  have hcalled : Reaches step Careful demoPool.start _ :=
    .next .refl (l := .call (.getOrConnect demoOne)) (by rintro target ⟨⟩) rfl
  have hlocked : Reaches step Careful demoPool.start _ := .next hcalled (l := .lock []) ?_ rfl
  · exact .next hlocked (l := .handshake (.connected (some (.rustls (some mizuAlpn))) (.ok ())))
      (.inl (show 0 < 32 by decide)) rfl
  · intro target waiting hwaiting
    obtain ⟨-, rfl⟩ := List.cons.inj hwaiting
    exact ⟨by rintro entry ⟨⟩, by rintro - call ⟨⟩⟩

/-- A connection that nobody used for two minutes is handed out, and a request waits for another's handshake. -/
theorem pool_not_kept :
    (∃ s, run step demoPool.start (demoConnected ++
        [.elapse (120 * 10 ^ 9), .call (.getOrConnect demoOne), .lock [demoEntry]]) = some s ∧
      ¬Kept s ∧ ∃ reply ∈ s.replies, reply.outcome = .ok demoEntry.value ∧ reply.idle = some (120 * 10 ^ 9)) ∧
    ∃ s, run step demoPool.start [.call (.getOrConnect demoOne), .lock [], .call (.getOrConnect demoTwo)] = some s ∧
      ¬Kept s ∧ s.pending = some demoOne ∧ .getOrConnect demoTwo ∈ s.waiting := by
  refine ⟨⟨_, rfl, fun hkept => ?_, _, mem_cons_self .., rfl, rfl⟩,
    ⟨_, rfl, fun hkept => ?_, rfl, mem_cons_self ..⟩⟩
  · exact absurd (hkept.recent _ (mem_cons_self ..) _ rfl) (by decide)
  · exact absurd (hkept.unblocked _ rfl _ (mem_cons_self ..)) (by decide)

end Runs

end PoolSystem

end Mizu
