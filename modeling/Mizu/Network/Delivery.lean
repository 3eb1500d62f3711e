import Mizu.Network.Exchange

/-!
# How often a request is delivered

A request that breaks is sent once more. `post_delivered_once` says when that delivers a request twice within
a hop: exactly when an exchange breaks although its request was complete, and the vault lets the request go
out again.
-/

namespace Mizu

open Resumption Program List

namespace NetEvent

/-- The end of a request is handed over. -/
def finishes : NetEvent → Bool
  | ⟨.finish _, _⟩ => true
  | _ => false

/-- A complete request reaches the server. -/
def delivers : NetEvent → Bool
  | ⟨.finish _, finished⟩ => finished.delivered
  | _ => false

/-- An attempt starts. -/
def connects : NetEvent → Bool
  | ⟨.getOrConnect _ _, _⟩ => true
  | _ => false

def evicts : NetEvent → Bool
  | ⟨.evict _, _⟩ => true
  | _ => false

/-- The exchange breaks or runs out of time when the client has handed over all of the request. -/
def Interrupted : NetEvent → Prop
  | ⟨.finish _, finished⟩ => finished.seen ≠ .ready ()
  | ⟨.recvResponse _, seen⟩ => ∀ head, seen ≠ .ready head
  | ⟨.recvData _, stream⟩ => (∃ body, readBody [] stream.chunks = .ok body) ∧ stream.ending ≠ .ready ()
  | _ => False

/-- An event of the vault or the resolver. -/
def quiet (e : NetEvent) : Bool := !e.finishes && !e.connects && !e.evicts

theorem finishes_of_delivers {e : NetEvent} (h : e.delivers = true) : e.finishes = true := by
  obtain ⟨op, answer⟩ := e
  cases op <;> first | rfl | cases h

end NetEvent

open NetEvent

/-- The server gets the complete request at most once, and it is sent again only where no attempt before has
handed over all of it: only then does the client know that it was not delivered. -/
structure DeliveredOnce (hop : List NetEvent) : Prop where
  once : hop.countP delivers ≤ 1
  retry : hop.Pairwise fun a b => ¬(a.finishes = true ∧ b.connects = true)

/-- An attempt is interrupted when its request is complete, and the vault has nothing against another. -/
def AnswerLost (env : NetEnv) (method : String) (hop : List NetEvent) : Prop :=
  ∃ (before : List NetEvent) (interrupted : NetEvent) (domain : String) (reload : List NetEvent)
    (entry : Option VaultEntry) (after : List NetEvent), interrupted.Interrupted ∧
    Run (loadValidEntry env (env.identity domain) method) reload (.ok entry) ∧
    hop = before ++ interrupted :: (⟨.evict domain, ()⟩ :: (reload ++ after))

/-! ## One exchange -/

/-- What an attempt does and how it ends. -/
structure AttemptFacts (trace : List NetEvent) (result : Except MizuError HttpResponse) : Prop where
  connects : ∃ first rest, trace = first :: rest ∧ first.connects = true ∧ ∀ e ∈ rest, e.connects = false
  evicts : ∀ e ∈ trace, e.evicts = false
  once : trace.countP delivers ≤ 1
  interrupted : ∀ e, trace.getLast? = some e → e.Interrupted →
    (∃ f ∈ trace, f.finishes = true) ∧ ∃ message, result = .error (.network message)
  broken : ∀ message, result = .error (.network message) → (∃ f ∈ trace, f.finishes = true) →
    ∃ e, trace.getLast? = some e ∧ e.Interrupted

variable {result : Except MizuError HttpResponse} {request : FetchRequest}

section Attempt

variable {env : NetEnv} {trace : List NetEvent}

theorem Await.result_network {α : Type} {context timedOut : String} {seen : Await α} {e : MizuError}
    (h : seen.result context timedOut = .error e) :
    (∃ message, e = .network message) ∧ ∀ a, seen ≠ .ready a := by
  cases seen with
  | ready a => cases h
  | failed | elapsed =>
    obtain rfl := Except.error.inj h
    exact ⟨⟨_, rfl⟩, fun a ha => by cases ha⟩

theorem readBody_error {body : List UInt8} {chunks : List (List UInt8)} {e : MizuError}
    (h : readBody body chunks = .error e) : ∃ message, e = .securityViolation message := by
  induction chunks generalizing body with
  | nil => cases h
  | cons chunk chunks ih => grind [readBody, checkResponseBodyBudget]

/-- From the end of the request on, an exchange breaks where its last wait does. -/
theorem finishExchange_run {timedOut : String} {request : H3Request}
    (h : Run (finishExchange timedOut request) trace result) :
    ∃ finished after, trace = ⟨.finish request, finished⟩ :: after ∧ (∀ e ∈ after, e.quiet = true) ∧
      ((∃ message, result = .error (.network message)) ↔
        ∃ e : NetEvent, trace.getLast? = some e ∧ e.Interrupted) := by
  unfold finishExchange at h
  rcases run_bind_iff.mp h with ⟨e, rfl, hfinish⟩ | ⟨_, first, rest, rfl, hfinish, h₁⟩
  · obtain ⟨finished, rfl, heq⟩ := run_query_iff.mp hfinish
    obtain ⟨⟨message, rfl⟩, hseen⟩ := Await.result_network heq.symm
    exact ⟨finished, [], rfl, by simp, by simpa [NetEvent.Interrupted] using hseen ()⟩
  clear h
  obtain ⟨finished, rfl, heq⟩ := run_query_iff.mp hfinish
  rcases run_bind_iff.mp h₁ with ⟨e, rfl, hhead⟩ | ⟨head, first, rest, rfl, hhead, h₂⟩
  · obtain ⟨seen, rfl, heq⟩ := run_query_iff.mp hhead
    obtain ⟨⟨message, rfl⟩, hseen⟩ := Await.result_network heq.symm
    exact ⟨finished, _, rfl, by simp [quiet, finishes, NetEvent.connects, NetEvent.evicts],
      by simpa [NetEvent.Interrupted] using hseen⟩
  clear h₁
  obtain ⟨seen, rfl, heq⟩ := run_query_iff.mp hhead
  rcases run_bind_iff.mp h₂ with ⟨e, rfl, hbody⟩ | ⟨body, first, rest, rfl, hbody, h₃⟩
  · obtain ⟨stream, rfl, heq⟩ := run_query_iff.mp hbody
    refine ⟨finished, _, rfl, by simp [quiet, finishes, NetEvent.connects, NetEvent.evicts], ?_⟩
    cases hread : readBody [] stream.chunks with
    | error e' =>
      obtain ⟨message, rfl⟩ := readBody_error hread
      rw [hread] at heq
      obtain rfl := Except.error.inj heq
      simp [NetEvent.Interrupted, hread]
    | ok body =>
      rw [hread] at heq
      cases hending : stream.ending.result "H3 recv_data failed: " timedOut with
      | ok a =>
        simp only [hending] at heq
        cases heq
      | error e' =>
        obtain ⟨⟨message, rfl⟩, hseen⟩ := Await.result_network hending
        simp only [hending] at heq
        obtain rfl := Except.error.inj heq
        simpa [NetEvent.Interrupted, hread] using hseen ()
  clear h₂
  obtain ⟨stream, rfl, heq⟩ := run_query_iff.mp hbody
  obtain ⟨rfl, rfl⟩ := run_pure_iff.mp h₃
  refine ⟨finished, _, rfl, by simp [quiet, finishes, NetEvent.connects, NetEvent.evicts], ?_⟩
  have hready : stream.ending = .ready () := by
    cases hread : readBody [] stream.chunks with
    | error e' =>
      rw [hread] at heq
      cases heq
    | ok body =>
      rw [hread] at heq
      cases hending : stream.ending.result "H3 recv_data failed: " timedOut with
      | ok a => exact Await.result_ok hending
      | error e' =>
        simp only [hending] at heq
        cases heq
  simp [NetEvent.Interrupted, hready]

/-- An exchange breaks before the end of the request, or ends as its last part does. -/
theorem exchange_run {timedOut : String} {request : H3Request} {body : Option (List UInt8)}
    (h : Run (exchange timedOut request body) trace result) :
    (∀ e ∈ trace, e.quiet = true ∧ ¬e.Interrupted) ∨
      ∃ before rest, trace = before ++ rest ∧ (∀ e ∈ before, e.quiet = true) ∧
        Run (finishExchange timedOut request) rest result := by
  unfold exchange at h
  rcases run_bind_iff.mp h with ⟨e, rfl, hsend⟩ | ⟨_, first, rest, rfl, hsend, h₁⟩
  · grind [quiet, finishes, NetEvent.connects, NetEvent.evicts, NetEvent.Interrupted, run_query_iff]
  clear h
  obtain ⟨seen, rfl, -⟩ := run_query_iff.mp hsend
  cases body with
  | none => grind [quiet, finishes, NetEvent.connects, NetEvent.evicts]
  | some payload =>
    rcases run_bind_iff.mp h₁ with ⟨e, rfl, hdata⟩ | ⟨_, first, rest, rfl, hdata, h₂⟩
    · obtain ⟨seen, rfl, -⟩ := run_query_iff.mp hdata
      exact .inl (by simp [quiet, finishes, NetEvent.connects, NetEvent.evicts, NetEvent.Interrupted])
    · obtain ⟨seen, rfl, -⟩ := run_query_iff.mp hdata
      exact .inr ⟨[_, _], rest, rfl, by simp [quiet, finishes, NetEvent.connects, NetEvent.evicts], h₂⟩

theorem quiet_iff {e : NetEvent} :
    e.quiet = true ↔ e.finishes = false ∧ e.connects = false ∧ e.evicts = false := by
  simp [quiet, and_assoc]

theorem countP_of_not_finishes {events : List NetEvent} (h : ∀ e ∈ events, e.finishes = false) :
    events.countP delivers = 0 := by
  grind [finishes_of_delivers]

theorem countP_quiet {events : List NetEvent} (h : ∀ e ∈ events, e.quiet = true) :
    events.countP delivers = 0 :=
  countP_of_not_finishes fun e he => (quiet_iff.mp (h e he)).1

variable {addr : SocketAddr} {domain : String} {answer : Except MizuError Unit} {tail : List NetEvent}
  {result : Except MizuError HttpResponse}

/-- An attempt that breaks before the end of the request. -/
theorem attemptFacts_early (htail : ∀ e ∈ tail, e.quiet = true ∧ ¬e.Interrupted) :
    AttemptFacts (⟨.getOrConnect addr domain, answer⟩ :: tail) result := by
  have hquiet : ∀ e ∈ tail, e.quiet = true := fun e he => (htail e he).1
  have hnone : ∀ f ∈ (⟨.getOrConnect addr domain, answer⟩ :: tail : List NetEvent), f.finishes = false := by
    intro f hf
    rcases mem_cons.mp hf with rfl | hf
    · rfl
    · exact (quiet_iff.mp (hquiet f hf)).1
  refine ⟨⟨_, tail, rfl, rfl, fun e he => (quiet_iff.mp (hquiet e he)).2.1⟩, fun e he => ?_, ?_, ?_, ?_⟩
  · rcases mem_cons.mp he with rfl | he
    · rfl
    · exact (quiet_iff.mp (hquiet e he)).2.2
  · rw [countP_cons, countP_quiet hquiet]
    simp [delivers]
  · intro e he hinterrupted
    rcases mem_cons.mp (mem_of_getLast? he) with rfl | he
    · exact hinterrupted.elim
    · exact absurd hinterrupted (htail e he).2
  · grind

theorem attemptFacts_late {before after : List NetEvent} {request : H3Request} {finished : Finished}
    (hbefore : ∀ e ∈ before, e.quiet = true) (hafter : ∀ e ∈ after, e.quiet = true)
    (hlast : (∃ message, result = .error (.network message)) ↔
      ∃ e : NetEvent, (⟨.finish request, finished⟩ :: after : List NetEvent).getLast? = some e ∧ e.Interrupted) :
    AttemptFacts (⟨.getOrConnect addr domain, answer⟩ :: (before ++ ⟨.finish request, finished⟩ :: after))
      result := by
  have hget : (⟨.getOrConnect addr domain, answer⟩ :: (before ++ ⟨.finish request, finished⟩ :: after) :
      List NetEvent).getLast? = (⟨.finish request, finished⟩ :: after : List NetEvent).getLast? := by
    rw [← cons_append, List.getLast?_append]
    cases hsome : (⟨.finish request, finished⟩ :: after : List NetEvent).getLast? with
    | none => simp at hsome
    | some e => rfl
  have hmem : (⟨.finish request, finished⟩ : NetEvent) ∈
      (⟨.getOrConnect addr domain, answer⟩ :: (before ++ ⟨.finish request, finished⟩ :: after) :
        List NetEvent) := by simp
  have hrest : ∀ e ∈ before ++ ⟨.finish request, finished⟩ :: after, e.connects = false ∧ e.evicts = false := by
    intro e he
    rcases mem_append.mp he with he | he
    · exact (quiet_iff.mp (hbefore e he)).2
    · rcases mem_cons.mp he with rfl | he
      · exact ⟨rfl, rfl⟩
      · exact (quiet_iff.mp (hafter e he)).2
  refine ⟨⟨_, _, rfl, rfl, fun e he => (hrest e he).1⟩, fun e he => ?_, ?_, ?_, ?_⟩
  · rcases mem_cons.mp he with rfl | he
    · rfl
    · exact (hrest e he).2
  · rw [countP_cons, countP_append, countP_cons, countP_quiet hbefore, countP_quiet hafter]
    cases h : finished.delivered <;> simp [delivers, h]
  · intro e he hinterrupted
    exact ⟨⟨_, hmem, rfl⟩, hlast.mpr ⟨e, hget ▸ he, hinterrupted⟩⟩
  · intro message hresult _
    rw [hget]
    exact hlast.mp ⟨message, hresult⟩

theorem doH3Request_run {uri : MizuUri} {optEntry : Option VaultEntry}
    (h : Run (doH3Request env addr uri request optEntry) trace result) : AttemptFacts trace result := by
  unfold doH3Request at h
  rcases run_bind_iff.mp h with ⟨e, rfl, hconnect⟩ | ⟨_, first, rest, rfl, hconnect, h₁⟩
  · grind [run_query_iff, attemptFacts_early]
  clear h
  obtain ⟨answer, rfl, -⟩ := run_query_iff.mp hconnect
  rcases run_bind_iff.mp h₁ with ⟨e, rfl, hbuild⟩ | ⟨h3Request, first, rest, rfl, hbuild, h₂⟩
  · grind [run_known_iff, attemptFacts_early]
  clear h₁
  obtain ⟨rfl, -⟩ := run_known_iff.mp hbuild
  rcases exchange_run h₂ with hquiet | ⟨before, rest, rfl, hbefore, hfinish⟩
  · exact attemptFacts_early hquiet
  · obtain ⟨finished, after, rfl, hafter, hlast⟩ := finishExchange_run hfinish
    exact attemptFacts_late hbefore hafter hlast

end Attempt

/-! ## One hop -/

/-- An operation of the vault or the resolver. -/
def NetOp.Quiet (op : NetOp) : Prop := ∀ r, quiet ⟨op, r⟩ = true

section Hop

variable {env : NetEnv} {trace : List NetEvent}

theorem quiet_of_only {α : Type} {x : NetTask α} {result : Except MizuError α} (h : Run x trace result)
    (honly : x.Only NetOp.Quiet) : ∀ e ∈ trace, e.quiet = true :=
  fun e he => h.only honly e he e.2

theorem loadValidEntry_quiet (user method : String) : (loadValidEntry env user method).Only NetOp.Quiet := by
  refine only_bind (only_query fun _ => rfl) fun entry => ?_
  cases entry with
  | none => trivial
  | some entry =>
    refine only_bind (only_bind (only_query fun _ => rfl) fun _ => trivial) fun expired => ?_
    cases expired with
    | true => exact only_bind (only_query fun _ => rfl) fun _ => trivial
    | false => exact only_bind (only_known _) fun _ => trivial

theorem processMizuAuthSet_quiet (value domain : String) :
    (processMizuAuthSet env value domain).Only NetOp.Quiet := by
  unfold processMizuAuthSet
  split
  · trivial
  split
  · trivial
  refine only_bind (only_query fun _ => rfl) fun now => only_bind (only_known _) fun entry => ?_
  exact only_query fun _ => rfl

theorem importHttpResponse_quiet (response : HttpResponse) (domain : String) :
    (importHttpResponse env response domain).Only NetOp.Quiet := by
  unfold importHttpResponse
  split
  · exact only_bind (processMizuAuthSet_quiet _ _) fun _ => only_known _
  · exact only_known _

theorem quiet_nil : ∀ e ∈ ([] : List NetEvent), e.quiet = true := by simp

/-- How a request goes: it needs no second attempt, or the first one is followed by an eviction. -/
inductive Sent (env : NetEnv) (method : String) : List NetEvent → Prop where
  | nothing {events : List NetEvent} (h : ∀ e ∈ events, e.quiet = true) : Sent env method events
  | single {before attempt after : List NetEvent} {result : Except MizuError HttpResponse}
      (hbefore : ∀ e ∈ before, e.quiet = true) (h : AttemptFacts attempt result)
      (hafter : ∀ e ∈ after, e.quiet = true) : Sent env method (before ++ attempt ++ after)
  | refused {before attempt reload after : List NetEvent} {domain message : String} {e : MizuError}
      (hbefore : ∀ e ∈ before, e.quiet = true) (h : AttemptFacts attempt (.error (.network message)))
      (hreload : Run (loadValidEntry env (env.identity domain) method) reload (.error e))
      (hafter : ∀ e ∈ after, e.quiet = true) :
      Sent env method (before ++ attempt ++ ⟨.evict domain, ()⟩ :: (reload ++ after))
  | again {before attempt reload second after : List NetEvent} {domain message : String}
      {entry : Option VaultEntry} {result : Except MizuError HttpResponse}
      (hbefore : ∀ e ∈ before, e.quiet = true) (h : AttemptFacts attempt (.error (.network message)))
      (hreload : Run (loadValidEntry env (env.identity domain) method) reload (.ok entry))
      (hsecond : AttemptFacts second result) (hafter : ∀ e ∈ after, e.quiet = true) :
      Sent env method (before ++ attempt ++ ⟨.evict domain, ()⟩ :: (reload ++ (second ++ after)))

variable {method : String}

theorem Sent.append {events tail : List NetEvent} (h : Sent env method events)
    (htail : ∀ e ∈ tail, e.quiet = true) : Sent env method (events ++ tail) := by
  have hquiet : ∀ {after : List NetEvent}, (∀ e ∈ after, e.quiet = true) → ∀ e ∈ after ++ tail, e.quiet = true :=
    fun hafter e he => (mem_append.mp he).elim (hafter e) (htail e)
  cases h with
  | nothing h => exact .nothing (hquiet h)
  | single hbefore h hafter =>
    rw [append_assoc]
    exact .single hbefore h (hquiet hafter)
  | refused hbefore h hreload hafter =>
    simp only [append_assoc, cons_append]
    rw [← append_assoc]
    exact .refused hbefore h hreload (hquiet hafter)
  | again hbefore h hreload hsecond hafter =>
    simp only [append_assoc, cons_append]
    rw [← append_assoc]
    exact .again hbefore h hreload hsecond (hquiet hafter)

theorem handleFetchRaw_sent {url : String} {isNavigation : Bool}
    (h : Run (handleFetchRaw env request url isNavigation) trace result) :
    Sent env request.method trace := by
  unfold handleFetchRaw at h
  split at h
  · obtain ⟨rfl, -⟩ := run_throw_iff.mp h
    exact .nothing (by simp)
  rcases run_bind_iff.mp h with ⟨e, -, hparse⟩ | ⟨uri, first, rest, rfl, hparse, h₁⟩
  · obtain ⟨rfl, -⟩ := run_known_iff.mp hparse
    exact .nothing (by simp)
  clear h
  obtain ⟨rfl, -⟩ := run_known_iff.mp hparse
  rcases run_bind_iff.mp h₁ with ⟨e, -, hload⟩ | ⟨entry, load, rest, rfl, hload, h₂⟩
  · exact .nothing (quiet_of_only hload (loadValidEntry_quiet _ _))
  clear h₁
  have hquiet := quiet_of_only hload (loadValidEntry_quiet _ _)
  rcases run_bind_iff.mp h₂ with ⟨e, -, hresolve⟩ | ⟨addr, resolve, rest, rfl, hresolve, h₃⟩
  · grind [quiet, finishes, NetEvent.connects, NetEvent.evicts, run_query_iff, Sent.nothing]
  clear h₂
  obtain ⟨answer, rfl, -⟩ := run_query_iff.mp hresolve
  have hbefore : ∀ e : NetEvent, e ∈ load ++ [⟨.resolveDomain uri.domain isNavigation, answer⟩] →
      e.quiet = true := by
    intro e he
    rcases mem_append.mp he with he | he
    · exact hquiet e he
    · rw [mem_singleton.mp he]
      rfl
  rw [← append_assoc]
  rcases run_tryCatch_iff.mp h₃ with ⟨response, -, hattempt⟩ | ⟨e, attempt, rest, rfl, hattempt, h₄⟩
  · have hsent : Sent env request.method _ := .single hbefore (doH3Request_run hattempt) quiet_nil
    simpa using hsent
  clear h₃
  by_cases hnetwork : ∃ message, e = .network message
  · obtain ⟨message, rfl⟩ := hnetwork
    rcases run_bind_iff.mp h₄ with ⟨e, -, hevict⟩ | ⟨_, first, rest, rfl, hevict, h₅⟩
    · obtain ⟨_, -, heq⟩ := run_query_iff.mp hevict
      cases heq
    obtain ⟨_, rfl, -⟩ := run_query_iff.mp hevict
    rcases run_bind_iff.mp h₅ with ⟨e, -, hreload⟩ | ⟨entry, reload, rest, rfl, hreload, h₆⟩
    · simpa using Sent.refused hbefore (doH3Request_run hattempt) hreload quiet_nil
    · simpa using Sent.again hbefore (doH3Request_run hattempt) hreload (doH3Request_run h₆) quiet_nil
  · have hthrow : Run (throw e : NetTask HttpResponse) rest result := by grind
    obtain ⟨rfl, -⟩ := run_throw_iff.mp hthrow
    have hsent : Sent env request.method _ := .single hbefore (doH3Request_run hattempt) quiet_nil
    simpa using hsent

theorem subresourceHop_sent {current : String}
    {result : Except MizuError (String ⊕ HttpResponse)} (h : Run (subresourceHop env request current) trace result) :
    Sent env request.method trace := by
  rcases run_bind_iff.mp h with ⟨e, -, hfetch⟩ | ⟨response, fetch, rest, rfl, hfetch, h₁⟩
  · exact handleFetchRaw_sent hfetch
  clear h
  refine (handleFetchRaw_sent hfetch).append (quiet_of_only h₁ ?_)
  refine only_bind (importHttpResponse_quiet _ _) fun next => ?_
  cases next with
  | none => trivial
  | some nextUrl =>
    dsimp only
    split
    · trivial
    · trivial

/-! ### Retries -/

theorem eviction_unique {before before' after after' : List NetEvent} {e e' : NetEvent}
    (h : before ++ e :: after = before' ++ e' :: after') (he' : e'.evicts = true)
    (hbefore : ∀ f ∈ before, f.evicts = false) (hafter : ∀ f ∈ after, f.evicts = false) :
    before = before' ∧ e = e' ∧ after = after' := by
  rcases append_eq_append_iff.mp h with ⟨mid, rfl, hmid⟩ | ⟨mid, rfl, hmid⟩
  · cases mid with
    | nil => simpa using hmid
    | cons f mid => grind
  · cases mid with
    | nil => simpa [eq_comm] using hmid
    | cons f mid => grind

theorem retry_of_split {first last : List NetEvent} (hfirst : ∀ e ∈ first, e.finishes = false)
    (hlast : ∀ e ∈ last, e.connects = false) :
    (first ++ last).Pairwise fun a b => ¬(a.finishes = true ∧ b.connects = true) := by
  grind [pairwise_of_forall_mem_list]

theorem finishes_of_connects {e : NetEvent} (h : e.connects = true) : e.finishes = false := by
  obtain ⟨op, answer⟩ := e
  cases op <;> first | rfl | cases h

theorem deliveredOnce_single {before attempt tail : List NetEvent}
    (hbefore : ∀ e ∈ before, e.quiet = true) (h : AttemptFacts attempt result)
    (htail : ∀ e ∈ tail, e.finishes = false ∧ e.connects = false) : DeliveredOnce (before ++ attempt ++ tail) := by
  obtain ⟨first, rest, rfl, hfirst, hrest⟩ := h.connects
  constructor
  · rw [countP_append, countP_append, countP_quiet hbefore,
      countP_of_not_finishes fun e he => (htail e he).1]
    simpa using h.once
  · rw [show before ++ first :: rest ++ tail = (before ++ [first]) ++ (rest ++ tail) by simp]
    refine retry_of_split (fun e he => ?_) (fun e he => ?_)
    · grind [quiet_iff, finishes_of_connects]
    · exact (mem_append.mp he).elim (hrest e) fun he => (htail e he).2

/-- A second attempt is right where the first one did not get to the end of the request. -/
theorem deliveredOnce_again_iff {before attempt between second after : List NetEvent}
    (hbefore : ∀ e ∈ before, e.quiet = true)
    (hbetween : ∀ e ∈ between, e.finishes = false ∧ e.connects = false)
    (hsecond : AttemptFacts second result) (hafter : ∀ e ∈ after, e.quiet = true) :
    DeliveredOnce (before ++ attempt ++ (between ++ (second ++ after))) ↔
      ∀ e ∈ attempt, e.finishes = false := by
  obtain ⟨first, rest, rfl, hfirst, hrest⟩ := hsecond.connects
  constructor
  · intro hdelivered e he
    by_contra hfinishes
    refine (pairwise_append.mp hdelivered.retry).2.2 e (by simp [he]) first (by simp) ⟨?_, hfirst⟩
    simpa using hfinishes
  · intro hfinishes
    have hearly : ∀ e ∈ before ++ attempt ++ between, e.finishes = false := by grind [quiet_iff]
    constructor
    · rw [← append_assoc, countP_append, countP_of_not_finishes hearly, countP_append,
        countP_quiet hafter]
      simpa using hsecond.once
    · rw [show before ++ attempt ++ (between ++ (first :: rest ++ after)) =
        (before ++ attempt ++ between ++ [first]) ++ (rest ++ after) by simp]
      refine retry_of_split (fun e he => ?_) (fun e he => ?_)
      · grind [finishes_of_connects]
      · exact (mem_append.mp he).elim (hrest e) fun he => (quiet_iff.mp (hafter e he)).2.1

theorem not_answerLost_of_evicts (h : ∀ e ∈ trace, e.evicts = false) : ¬AnswerLost env method trace := by
  rintro ⟨before, interrupted, domain, reload, entry, after, -, -, rfl⟩
  have hevict := h ⟨.evict domain, ()⟩ (by simp)
  cases hevict

/-- The one eviction of a hop comes right after the first attempt. -/
theorem answerLost_iff {method domain : String} {before attempt rest : List NetEvent}
    (hbefore : ∀ e ∈ before, e.quiet = true)
    (h : AttemptFacts attempt result) (hrest : ∀ e ∈ rest, e.evicts = false) :
    AnswerLost env method (before ++ attempt ++ ⟨.evict domain, ()⟩ :: rest) ↔
      (∃ e, attempt.getLast? = some e ∧ e.Interrupted) ∧ ∃ reload entry after, rest = reload ++ after ∧
        Run (loadValidEntry env (env.identity domain) method) reload (.ok entry) := by
  have hnone : ∀ e ∈ before ++ attempt, e.evicts = false := fun e he =>
    (mem_append.mp he).elim (fun he => (quiet_iff.mp (hbefore e he)).2.2) (h.evicts e)
  obtain ⟨first, tail, rfl, -, -⟩ := h.connects
  constructor
  · rintro ⟨before', interrupted, domain', reload, entry, after, hinterrupted, hreload, heq⟩
    rw [show before' ++ interrupted :: (⟨.evict domain', ()⟩ :: (reload ++ after)) =
      (before' ++ [interrupted]) ++ ⟨.evict domain', ()⟩ :: (reload ++ after) by simp] at heq
    obtain ⟨hlead, hevict, rfl⟩ := eviction_unique heq rfl hnone hrest
    cases hevict
    have hlast := congrArg List.getLast? hlead
    rw [List.getLast?_append, List.getLast?_append] at hlast
    refine ⟨⟨interrupted, ?_, hinterrupted⟩, reload, entry, after, rfl, hreload⟩
    simpa using hlast
  · rintro ⟨⟨interrupted, hlast, hinterrupted⟩, reload, entry, after, rfl, hreload⟩
    obtain ⟨init, hinit⟩ := List.getLast?_eq_some_iff.mp hlast
    exact ⟨before ++ init, interrupted, domain, reload, entry, after, hinterrupted, hreload, by simp [hinit]⟩

/-- A hop delivers its request once exactly where no exchange breaks after the end of the request. -/
theorem Sent.deliveredOnce_iff (h : Sent env method trace) :
    DeliveredOnce trace ↔ ¬AnswerLost env method trace := by
  cases h with
  | nothing h =>
    refine ⟨fun _ => not_answerLost_of_evicts fun e he => (quiet_iff.mp (h e he)).2.2, fun _ => ⟨?_, ?_⟩⟩
    · rw [countP_quiet h]
      exact Nat.zero_le _
    · rw [← append_nil trace]
      exact retry_of_split (fun e he => (quiet_iff.mp (h e he)).1) (by simp)
  | single hbefore h hafter =>
    have hquiet := fun e he => quiet_iff.mp (hafter e he)
    refine ⟨fun _ => not_answerLost_of_evicts fun e he => ?_, fun _ =>
      deliveredOnce_single hbefore h fun e he => ⟨(hquiet e he).1, (hquiet e he).2.1⟩⟩
    rcases mem_append.mp he with he | he
    · exact (mem_append.mp he).elim (fun he => (quiet_iff.mp (hbefore e he)).2.2) (h.evicts e)
    · exact (hquiet e he).2.2
  | refused hbefore h hreload hafter =>
    have hquiet : ∀ e ∈ _ ++ _, quiet e = true := fun e he =>
      (mem_append.mp he).elim (quiet_of_only hreload (loadValidEntry_quiet _ _) e) (hafter e)
    refine ⟨fun _ => ?_, fun _ => deliveredOnce_single hbefore h fun e he => ?_⟩
    · rw [answerLost_iff hbefore h fun e he => (quiet_iff.mp (hquiet e he)).2.2]
      rintro ⟨-, reload', entry, after', heq, hreload'⟩
      obtain ⟨-, hresult, -⟩ := hreload.unique hreload' heq
      cases hresult
    · rcases mem_cons.mp he with rfl | he
      · exact ⟨rfl, rfl⟩
      · exact ⟨(quiet_iff.mp (hquiet e he)).1, (quiet_iff.mp (hquiet e he)).2.1⟩
  | again hbefore h hreload hsecond hafter =>
    have hquiet := quiet_of_only hreload (loadValidEntry_quiet _ _)
    rw [answerLost_iff hbefore h]
    · rw [← cons_append, deliveredOnce_again_iff hbefore (fun e he => ?_) hsecond hafter]
      · constructor
        · rintro hfinishes ⟨⟨e, hlast, hinterrupted⟩, -⟩
          obtain ⟨⟨f, hf, hfinish⟩, -⟩ := h.interrupted e hlast hinterrupted
          rw [hfinishes f hf] at hfinish
          cases hfinish
        · intro hlost f hf
          by_contra hfinish
          exact hlost ⟨h.broken _ rfl ⟨f, hf, by simpa using hfinish⟩, _, _, _, rfl, hreload⟩
      · rcases mem_cons.mp he with rfl | he
        · exact ⟨rfl, rfl⟩
        · exact ⟨(quiet_iff.mp (hquiet e he)).1, (quiet_iff.mp (hquiet e he)).2.1⟩
    · intro e he
      rcases mem_append.mp he with he | he
      · exact (quiet_iff.mp (hquiet e he)).2.2
      · exact (mem_append.mp he).elim (hsecond.evicts e) fun he => (quiet_iff.mp (hafter e he)).2.2

end Hop

/-! ## Requests of documents -/

/-- A request of a document is delivered once in each hop whose exchange is not interrupted when the request is
complete and then sent again. -/
theorem post_delivered_once {env : NetEnv} {request : FetchRequest} {url : String} {trace : List NetEvent}
    {result : Except MizuError String} (h : Run (handleFetch env request url) trace result) :
    ∃ hops response, Rounds (subresourceHop env request) (redirectLimit env url) (env.maxRedirects + 1) url hops
      response ∧ hops.flatten = trace ∧
      ∀ hop ∈ hops, DeliveredOnce hop ↔ ¬AnswerLost env request.method hop := by
  have hfetch : ∃ response, Run (handleFetchSubresourceRaw env request url) trace response := by
    rcases run_bind_iff.mp h with ⟨e, -, hfetch⟩ | ⟨response, first, rest, rfl, hfetch, hrest⟩
    · exact ⟨_, hfetch⟩
    · obtain ⟨rfl, -⟩ := run_pure_iff.mp hrest
      exact ⟨_, by simpa using hfetch⟩
  obtain ⟨response, hfetch⟩ := hfetch
  obtain ⟨hops, hrounds, rfl⟩ := run_repeatUntil_iff.mp hfetch
  refine ⟨hops, response, hrounds, rfl, fun hop hmem => ?_⟩
  obtain ⟨current, _, hhop⟩ := hrounds.run_of_mem hmem
  exact (subresourceHop_sent hhop).deliveredOnce_iff

/-- A form. -/
def demoPost : FetchRequest := ⟨"POST", some [1, 2], none, []⟩

def demoPostRequest : H3Request := ⟨"POST", "https://a.mizu/pay", "a.mizu", none, none, []⟩

def demoAttempt (answer : List NetEvent) : List NetEvent :=
  ⟨.getOrConnect ⟨.v4 ⟨93, 184, 216, 34⟩, 443⟩ "a.mizu", .ok ()⟩ :: ⟨.sendRequest demoPostRequest, .ready ()⟩ ::
    ⟨.sendData demoPostRequest [1, 2], .ready ()⟩ :: ⟨.finish demoPostRequest, ⟨.ready (), true⟩⟩ :: answer

def demoAnswer : List NetEvent :=
  [⟨.recvResponse demoPostRequest, .ready ⟨200, "200 OK", none, none⟩⟩,
    ⟨.recvData demoPostRequest, ⟨[[111, 107]], .ready ()⟩⟩]

def demoStart : List NetEvent :=
  [⟨.load "a.mizu", .ok none⟩, ⟨.resolveDomain "a.mizu" false, .ok ⟨.v4 ⟨93, 184, 216, 34⟩, 443⟩⟩]

/-- The first answer breaks off. -/
def demoLost : List NetEvent :=
  demoStart ++ demoAttempt [⟨.recvResponse demoPostRequest, .failed "reset"⟩] ++
    ⟨.evict "a.mizu", ()⟩ :: ⟨.load "a.mizu", .ok none⟩ :: demoAttempt demoAnswer

def demoResponse : HttpResponse := ⟨200, "200 OK", none, none, [111, 107]⟩

theorem post_delivered_once_whole :
    Run (handleFetch plainNetEnv demoPost "mizu://a.mizu/pay") (demoStart ++ demoAttempt demoAnswer) (.ok "ok") ∧
    ∃ hops response, Rounds (subresourceHop plainNetEnv demoPost) (redirectLimit plainNetEnv "mizu://a.mizu/pay")
      (plainNetEnv.maxRedirects + 1) "mizu://a.mizu/pay" hops response ∧
      hops.flatten = demoStart ++ demoAttempt demoAnswer ∧
      ∀ hop ∈ hops, DeliveredOnce hop ↔ ¬AnswerLost plainNetEnv "POST" hop := by
  have hrun : Run (handleFetch plainNetEnv demoPost "mizu://a.mizu/pay") (demoStart ++ demoAttempt demoAnswer)
      (.ok "ok") := run_of_replay (by rfl)
  exact ⟨hrun, post_delivered_once hrun⟩

/-- The server has the whole form when the connection breaks, and gets it again. -/
theorem post_delivered_twice : ¬∀ (env : NetEnv) (request : FetchRequest) (url : String) (trace : List NetEvent)
    (result : Except MizuError String) (hops : List (List NetEvent)) (response : Except MizuError HttpResponse),
    request.method = "POST" → Run (handleFetch env request url) trace result →
    Rounds (subresourceHop env request) (redirectLimit env url) (env.maxRedirects + 1) url hops response →
    hops.flatten = trace → ∀ hop ∈ hops, DeliveredOnce hop := by
  intro hall
  have hfetch : Run (handleFetch plainNetEnv demoPost "mizu://a.mizu/pay") demoLost (.ok "ok") :=
    run_of_replay (by rfl)
  have hhop : Run (subresourceHop plainNetEnv demoPost "mizu://a.mizu/pay") demoLost (.ok (.inr demoResponse)) :=
    run_of_replay (by rfl)
  have honce := (hall plainNetEnv demoPost "mizu://a.mizu/pay" demoLost _ [demoLost] _ rfl hfetch (.last hhop)
    (append_nil demoLost) demoLost (by simp)).once
  exact absurd honce (by decide)

end Mizu
