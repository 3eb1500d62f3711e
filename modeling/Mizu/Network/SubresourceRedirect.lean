import Mizu.Network.Exchange
import Mizu.Security.UrlRoundTrip

/-!
# Redirects of a subresource

A data call or an image is fetched hop by hop within the worker. The server chooses the next URL freely; it
is put together by `redirectUrl` and read by the URL library.

* `subresourceHop_run`: how one hop goes.
* `redirectUrl_home_iff`: a destination without a scheme stays on the host exactly where it has no control
  character.
* `subresource_stays_home`: in every run all hops go to the host of the first URL, and a redirect that leaves
  it is the end.
-/

namespace Mizu

open Resumption Program List

/-! ## Where a request goes -/

/-- The operation is one for this host; the vault is asked under its identity. -/
def NetOp.StaysAt (env : NetEnv) (domain : String) : NetOp → Prop
  | load user | save user _ | delete user => user = env.identity domain
  | clock => True
  | resolveDomain d allowPrivateLiteral => d = domain ∧ allowPrivateLiteral = false
  | getOrConnect _ d | evict d => d = domain
  | sendRequest request | sendData request _ | finish request | recvResponse request | recvData request =>
    request.host = domain ∧ ∃ path, request.uri = "https://" ++ domain ++ path

section Operations

variable {env : NetEnv} {domain : String}

theorem loadValidEntry_staysAt (method : String) :
    (loadValidEntry env (env.identity domain) method).Only (NetOp.StaysAt env domain) := by
  refine only_bind (only_query rfl) fun entry => ?_
  cases entry with
  | none => trivial
  | some entry =>
    refine only_bind (only_bind (only_query trivial) fun _ => trivial) fun expired => ?_
    cases expired with
    | true => exact only_bind (only_query rfl) fun _ => trivial
    | false => exact only_bind (only_known _) fun _ => trivial

theorem importHttpResponse_staysAt (response : HttpResponse) :
    (importHttpResponse env response domain).Only (NetOp.StaysAt env domain) := by
  have hstore : ∀ value, (processMizuAuthSet env value domain).Only (NetOp.StaysAt env domain) := by
    intro value
    unfold processMizuAuthSet
    split
    · trivial
    split
    · trivial
    · exact only_bind (only_query trivial) fun _ => only_bind (only_known _) fun _ => only_query rfl
  unfold importHttpResponse
  split
  · exact only_bind (hstore _) fun _ => only_known _
  · exact only_known _

theorem exchange_staysAt {timedOut : String} {h3Request : H3Request} {body : Option (List UInt8)}
    (h : h3Request.host = domain ∧ ∃ path, h3Request.uri = "https://" ++ domain ++ path) :
    (exchange timedOut h3Request body).Only (NetOp.StaysAt env domain) := by
  have hfinish : (finishExchange timedOut h3Request).Only (NetOp.StaysAt env domain) := by
    refine only_bind (only_query h) fun _ => only_bind (only_query h) fun head => ?_
    exact only_bind (only_query h) fun _ => trivial
  refine only_bind (only_query h) fun _ => ?_
  cases body with
  | none => exact hfinish
  | some payload => exact only_bind (only_query h) fun _ => hfinish

theorem doH3Request_staysAt (addr : SocketAddr) (uri : MizuUri) (request : FetchRequest)
    (optEntry : Option VaultEntry) :
    (doH3Request env addr uri request optEntry).Only (NetOp.StaysAt env uri.domain) := by
  refine only_bind (only_query rfl) fun _ => ?_
  unfold buildH3Request
  dsimp only
  split
  · trivial
  · exact exchange_staysAt ⟨rfl, uri.path, rfl⟩

/-- A request performs operations for the host of its URL only. -/
theorem handleFetchRaw_staysAt {request : FetchRequest} {url : String} {uri : MizuUri}
    (h : MizuUri.parse env.urlParse url = .ok uri) :
    (handleFetchRaw env request url false).Only (NetOp.StaysAt env uri.domain) := by
  unfold handleFetchRaw
  split
  · trivial
  rw [h]
  change Only _ (loadValidEntry env (env.identity uri.domain) request.method >>= _)
  have hresolve : NetOp.StaysAt env uri.domain (.resolveDomain uri.domain false) := ⟨rfl, rfl⟩
  refine only_bind (loadValidEntry_staysAt _) fun optEntry => only_bind (only_query hresolve) fun addr => ?_
  refine only_tryCatch (doH3Request_staysAt addr uri request optEntry) fun e => ?_
  cases e with
  | network message =>
    refine only_bind (only_query rfl) fun _ => ?_
    exact only_bind (loadValidEntry_staysAt _) fun optEntry2 => doH3Request_staysAt addr uri request optEntry2
  | _ => trivial

theorem handleFetchRaw_of_error {request : FetchRequest} {url : String} {e : MizuError}
    (h : MizuUri.parse env.urlParse url = .error e) {trace : List NetEvent} {result : Except MizuError HttpResponse}
    (hrun : Run (handleFetchRaw env request url false) trace result) : trace = [] ∧ ∃ e, result = .error e := by
  unfold handleFetchRaw at hrun
  split at hrun
  · obtain ⟨rfl, rfl⟩ := run_throw_iff.mp hrun
    exact ⟨rfl, _, rfl⟩
  · rw [h] at hrun
    obtain ⟨rfl, rfl⟩ := run_throw_iff.mp hrun
    exact ⟨rfl, _, rfl⟩

end Operations

/-! ## Destinations -/

/-- The destination names a scheme of its own. -/
def HasScheme (redirectPath : String) : Prop :=
  startsWith "mizu://" redirectPath = true ∨ startsWith "http://" redirectPath = true ∨
    startsWith "https://" redirectPath = true

/-- A byte that no URI may contain. -/
def HasControl (s : String) : Prop := ∃ c ∈ s.toList, c.toNat < 0x20 ∨ c.toNat = 0x7f

theorem redirectUrl_of_relative (domain : String) {redirectPath : String} (h : ¬HasScheme redirectPath) :
    ∃ path, redirectUrl domain redirectPath = "mizu://" ++ domain ++ path ∧ startsWith "/" path = true ∧
      (HasControl path ↔ HasControl redirectPath) := by
  unfold redirectUrl
  rw [if_neg (by simpa only [HasScheme, Bool.or_eq_true, or_assoc] using h)]
  dsimp only
  split
  · rename_i hslash
    exact ⟨redirectPath, rfl, hslash, .rfl⟩
  · refine ⟨"/" ++ redirectPath, rfl, startsWith_self _ _, ?_⟩
    simp [HasControl, String.toList_append]

/-- A destination without a scheme stays on the host exactly where it has no control character. -/
theorem redirectUrl_home_iff {env : NetEnv} (hurl : FollowsStandard env.urlParse) {url redirectPath : String}
    {uri : MizuUri} (huri : MizuUri.parse env.urlParse url = .ok uri) (h : ¬HasScheme redirectPath) :
    uriDomain env (redirectUrl uri.domain redirectPath) = some uri.domain ↔ ¬HasControl redirectPath := by
  obtain ⟨path, hpath, hslash, hcontrol⟩ := redirectUrl_of_relative uri.domain h
  rw [hpath, ← hcontrol]
  constructor
  · intro hhome hbad
    unfold uriDomain at hhome
    split at hhome
    · rename_i own hown
      obtain ⟨c, hc, hbad⟩ := hbad
      have hgood := (parse_ok_iff.mp hown).1 c (by simp [String.toList_append, hc])
      omega
    · cases hhome
  · intro hgood
    have hall : ∀ c ∈ path.toList, ¬c.toNat < 0x20 ∧ c.toNat ≠ 0x7f := by
      intro c hc
      rw [← not_or]
      exact fun hbad => hgood ⟨c, hc, hbad⟩
    obtain ⟨own, hown, hdomain⟩ := parse_own_ok hurl huri hslash hall
    rw [uriDomain, hown]
    exact congrArg some hdomain

/-! ## One hop -/

/-- One turn of the loop: the URL it asks for, the request and how it ends, and what is done with the response. -/
structure Hop where
  url : String
  fetch : List NetEvent
  response : Except MizuError HttpResponse
  interpret : List NetEvent

def Hop.events (hop : Hop) : List NetEvent := hop.fetch ++ hop.interpret

/-- The error of a redirect that leaves the host. -/
def crossOrigin (origin nextUrl : String) : MizuError :=
  .securityViolation ("cross-origin redirect blocked: subresource request to `" ++ origin ++
    "` was redirected to `" ++ nextUrl ++ "`; a subresource may only follow same-origin redirects " ++
    "and is never promoted to a navigation")

/-- What a response makes of a hop on the host `origin`. -/
inductive HopEnds (env : NetEnv) (origin : String) : Hop → Except MizuError (String ⊕ HttpResponse) → Prop where
  | failed {hop : Hop} {e : MizuError} (hresponse : hop.response = .error e) (hnil : hop.interpret = []) :
      HopEnds env origin hop (.error e)
  | answered {hop : Hop} {response : HttpResponse} {result : Except MizuError (String ⊕ HttpResponse)}
      (hresponse : hop.response = .ok response) (hsuccess : response.isSuccess = true)
      (hresult : result = .ok (.inr response) ∨ ∃ e, result = .error e) : HopEnds env origin hop result
  | refused {hop : Hop} {response : HttpResponse} {message : String} (hresponse : hop.response = .ok response)
      (hstatus : response.isRedirection = false) (hnil : hop.interpret = []) :
      HopEnds env origin hop (.error (.network message))
  | nowhere {hop : Hop} {response : HttpResponse} (hresponse : hop.response = .ok response)
      (hstatus : response.isRedirection = true) (hempty : response.redirectPath = "") (hnil : hop.interpret = []) :
      HopEnds env origin hop (.error (.network "Empty redirect destination"))
  | away {hop : Hop} {response : HttpResponse} (hresponse : hop.response = .ok response)
      (hstatus : response.isRedirection = true) (hpath : response.redirectPath ≠ "") (hnil : hop.interpret = [])
      (haway : uriDomain env (redirectUrl origin response.redirectPath) ≠ some origin) :
      HopEnds env origin hop (.error (crossOrigin origin (redirectUrl origin response.redirectPath)))
  | followed {hop : Hop} {response : HttpResponse} (hresponse : hop.response = .ok response)
      (hstatus : response.isRedirection = true) (hpath : response.redirectPath ≠ "") (hnil : hop.interpret = [])
      (hhome : uriDomain env (redirectUrl origin response.redirectPath) = some origin) :
      HopEnds env origin hop (.ok (.inl (redirectUrl origin response.redirectPath)))

section Hops

variable {env : NetEnv} {request : FetchRequest} {trace : List NetEvent} {response : HttpResponse}

theorem not_isRedirection_of_isSuccess (h : response.isSuccess = true) :
    response.isRedirection = false := by
  unfold HttpResponse.isSuccess at h
  unfold HttpResponse.isRedirection
  simp only [Bool.and_eq_true, decide_eq_true_eq] at h
  simp only [Bool.and_eq_false_iff, decide_eq_false_iff_not]
  omega

variable {origin : String}

/-- What a response that is no success says needs no token to be stored. -/
theorem importHttpResponse_of_not_success
    {result : Except MizuError (Option String)} (h : Run (importHttpResponse env response origin) trace result)
    (hstatus : response.isSuccess = false) :
    trace = [] ∧ result = parseHttpResponse (fun _ _ => .ok ()) response origin := by
  unfold importHttpResponse at h
  rw [hstatus] at h
  exact run_known_iff.mp h

theorem importHttpResponse_of_success {next : Option String}
    (h : Run (importHttpResponse env response origin) trace (.ok next)) (hstatus : response.isSuccess = true) :
    next = none := by
  have hparse : parseHttpResponse (fun _ _ => .ok ()) response origin = .ok next := by
    grind [importHttpResponse, run_bind_iff, run_known_iff]
  unfold parseHttpResponse at hparse
  rw [if_pos hstatus] at hparse
  split at hparse
  · exact (Except.ok.inj hparse).symm
  · split at hparse
    · cases hparse
    · exact (Except.ok.inj hparse).symm

theorem parseHttpResponse_cases (origin : String) (hstatus : response.isSuccess = false) :
    (response.isRedirection = false ∧
      ∃ message, parseHttpResponse (fun _ _ => .ok ()) response origin = .error (.network message)) ∨
    (response.isRedirection = true ∧ response.redirectPath = "" ∧
      parseHttpResponse (fun _ _ => .ok ()) response origin = .error (.network "Empty redirect destination")) ∨
    (response.isRedirection = true ∧ response.redirectPath ≠ "" ∧
      parseHttpResponse (fun _ _ => .ok ()) response origin =
        .ok (some (redirectUrl origin response.redirectPath))) := by
  unfold parseHttpResponse
  rw [if_neg (by rw [hstatus]; decide)]
  by_cases hredirect : response.isRedirection = true
  · right
    rw [if_pos hredirect]
    dsimp only
    by_cases hempty : response.redirectPath = ""
    · left
      rw [hempty]
      exact ⟨hredirect, rfl, rfl⟩
    · right
      rw [if_neg (by rwa [String.isEmpty_iff])]
      exact ⟨hredirect, hempty, rfl⟩
  · left
    rw [if_neg hredirect]
    exact ⟨by simpa using hredirect, _, rfl⟩

variable {result : Except MizuError (String ⊕ HttpResponse)}

/-- How one hop goes: a request, and what its response makes of the hop. -/
theorem subresourceHop_run {current : String} (h : Run (subresourceHop env request current) trace result) :
    ∃ hop : Hop, hop.url = current ∧ hop.events = trace ∧
      Run (handleFetchRaw env request current false) hop.fetch hop.response ∧
      (∀ response, hop.response = .ok response → ∃ imported,
        Run (importHttpResponse env response ((uriDomain env current).getD "")) hop.interpret imported) ∧
      HopEnds env ((uriDomain env current).getD "") hop result := by
  rcases run_bind_iff.mp h with ⟨e, rfl, hfetch⟩ | ⟨response, fetch, rest, rfl, hfetch, h⟩
  · exact ⟨⟨current, trace, .error e, []⟩, rfl, append_nil _, hfetch, fun _ h => (nomatch h), .failed rfl rfl⟩
  dsimp only at h
  generalize (uriDomain env current).getD "" = origin at h ⊢
  suffices hrest : (∃ imported, Run (importHttpResponse env response origin) rest imported) ∧
      HopEnds env origin ⟨current, fetch, .ok response, rest⟩ result from
    ⟨⟨current, fetch, .ok response, rest⟩, rfl, rfl, hfetch, fun _ h => Except.ok.inj h ▸ hrest.1, hrest.2⟩
  rcases run_bind_iff.mp h with ⟨e, rfl, himport⟩ | ⟨next, first, last, rfl, himport, h⟩
  · refine ⟨⟨_, himport⟩, ?_⟩
    cases hstatus : response.isSuccess with
    | true => exact .answered rfl hstatus (.inr ⟨e, rfl⟩)
    | false =>
      obtain ⟨hnil, hparse⟩ := importHttpResponse_of_not_success himport hstatus
      rcases parseHttpResponse_cases origin hstatus with
        ⟨hno, message, heq⟩ | ⟨hyes, hempty, heq⟩ | ⟨-, -, heq⟩
      · rw [heq] at hparse
        obtain rfl := Except.error.inj hparse
        exact .refused rfl hno hnil
      · rw [heq] at hparse
        obtain rfl := Except.error.inj hparse
        exact .nowhere rfl hyes hempty hnil
      · rw [heq] at hparse
        cases hparse
  · cases hstatus : response.isSuccess with
    | true =>
      obtain rfl := importHttpResponse_of_success himport hstatus
      obtain ⟨rfl, rfl⟩ := run_pure_iff.mp h
      rw [append_nil]
      exact ⟨⟨_, himport⟩, .answered rfl hstatus (.inl rfl)⟩
    | false =>
      obtain ⟨rfl, hparse⟩ := importHttpResponse_of_not_success himport hstatus
      rcases parseHttpResponse_cases origin hstatus with
        ⟨-, message, heq⟩ | ⟨-, -, heq⟩ | ⟨hyes, hpath, heq⟩
      · rw [heq] at hparse
        cases hparse
      · rw [heq] at hparse
        cases hparse
      rw [heq] at hparse
      obtain rfl := Except.ok.inj hparse
      dsimp only at h
      split at h
      · rename_i haway
        obtain ⟨rfl, rfl⟩ := run_throw_iff.mp h
        exact ⟨⟨_, himport⟩, .away rfl hyes hpath rfl haway⟩
      · rename_i hhome
        obtain ⟨rfl, rfl⟩ := run_pure_iff.mp h
        exact ⟨⟨_, himport⟩, .followed rfl hyes hpath rfl (not_not.mp hhome)⟩

variable {turn : Except MizuError (String ⊕ HttpResponse)}

theorem HopEnds.of_away {hop : Hop}
    (h : HopEnds env origin hop turn) (hresponse : hop.response = .ok response)
    (hstatus : response.isRedirection = true) (hpath : response.redirectPath ≠ "")
    (haway : uriDomain env (redirectUrl origin response.redirectPath) ≠ some origin) :
    hop.interpret = [] ∧ turn = .error (crossOrigin origin (redirectUrl origin response.redirectPath)) := by
  have hsame : ∀ {other}, hop.response = .ok other → response = other :=
    fun hother => Except.ok.inj (hresponse.symm.trans hother)
  cases h with
  | failed hother => cases hresponse.symm.trans hother
  | answered hother hsuccess => grind [not_isRedirection_of_isSuccess]
  | refused hother hno => grind
  | nowhere hother _ hempty => grind
  | away hother _ _ hnil =>
    obtain rfl := hsame hother
    exact ⟨hnil, rfl⟩
  | followed hother _ _ _ hhome => grind

theorem HopEnds.of_nowhere {hop : Hop}
    (h : HopEnds env origin hop turn) (hresponse : hop.response = .ok response)
    (hstatus : response.isRedirection = true) (hempty : response.redirectPath = "") :
    hop.interpret = [] ∧ turn = .error (.network "Empty redirect destination") := by
  have hsame : ∀ {other}, hop.response = .ok other → response = other :=
    fun hother => Except.ok.inj (hresponse.symm.trans hother)
  cases h with
  | failed hother => cases hresponse.symm.trans hother
  | answered hother hsuccess => grind [not_isRedirection_of_isSuccess]
  | refused hother hno => grind
  | nowhere hother _ _ hnil => exact ⟨hnil, rfl⟩
  | away hother _ hpath =>
    obtain rfl := hsame hother
    exact absurd hempty hpath
  | followed hother _ hpath => grind

/-! ## Whole runs -/

/-- What one hop keeps, in a run for `url`. -/
structure HopStays (env : NetEnv) (request : FetchRequest) (url : String) (hop : Hop) : Prop where
  fetched : Run (handleFetchRaw env request hop.url false) hop.fetch hop.response
  home : uriDomain env hop.url = uriDomain env url
  /-- Everything the hop does is for the host of the first URL. -/
  stays : ∀ e ∈ hop.events, ∃ domain, uriDomain env url = some domain ∧ e.1.StaysAt env domain
  /-- A destination without a scheme is on the host exactly where it has no control character. -/
  relative : ∀ response, hop.response = .ok response → ¬HasScheme response.redirectPath →
    (uriDomain env (redirectUrl ((uriDomain env url).getD "") response.redirectPath) = uriDomain env url ↔
      ¬HasControl response.redirectPath)

/-- The hops of a run for `url` from `start` on, with `n` hops left. -/
structure StaysHome (env : NetEnv) (request : FetchRequest) (url start : String) (n : Nat) (hops : List Hop)
    (result : Except MizuError HttpResponse) : Prop where
  budget : hops.length ≤ n
  starts : ∀ hop, hops.head? = some hop → hop.url = start
  each : ∀ hop ∈ hops, HopStays env request url hop
  /-- The next hop goes where the last one was sent. -/
  chain : ∀ before hop next after, hops = before ++ hop :: next :: after → ∃ response,
    hop.response = .ok response ∧ response.isRedirection = true ∧
      next.url = redirectUrl ((uriDomain env url).getD "") response.redirectPath
  /-- A redirect that leaves the host is the end. -/
  away : ∀ before hop after response, hops = before ++ hop :: after → hop.response = .ok response →
    response.isRedirection = true → response.redirectPath ≠ "" →
    uriDomain env (redirectUrl ((uriDomain env url).getD "") response.redirectPath) ≠ uriDomain env url →
    after = [] ∧ hop.interpret = [] ∧
      result = .error (crossOrigin ((uriDomain env url).getD "")
        (redirectUrl ((uriDomain env url).getD "") response.redirectPath))
  /-- So is one to nowhere. -/
  nowhere : ∀ before hop after response, hops = before ++ hop :: after → hop.response = .ok response →
    response.isRedirection = true → response.redirectPath = "" →
    after = [] ∧ hop.interpret = [] ∧ result = .error (.network "Empty redirect destination")
  /-- What is handed out is the answer to the last hop, and no redirect. -/
  answer : ∀ response, result = .ok response → response.isSuccess = true ∧
    ∃ hop, hops.getLast? = some hop ∧ hop.response = .ok response

variable {url start : String} {hop : Hop} {n : Nat}

theorem parse_of_fetched (h : Run (handleFetchRaw env request start false) trace (.ok response)) :
    ∃ uri, MizuUri.parse env.urlParse start = .ok uri ∧ uriDomain env start = some uri.domain := by
  cases hparse : MizuUri.parse env.urlParse start with
  | ok uri => exact ⟨uri, rfl, by rw [uriDomain, hparse]⟩
  | error e => grind [handleFetchRaw_of_error]

/-- A hop from a URL on the host stays there. -/
theorem hopStays_of_run (hurl : FollowsStandard env.urlParse) (hstart : uriDomain env start = uriDomain env url)
    (hname : hop.url = start) (hfetch : Run (handleFetchRaw env request start false) hop.fetch hop.response)
    (himport : ∀ response, hop.response = .ok response → ∃ imported,
      Run (importHttpResponse env response ((uriDomain env start).getD "")) hop.interpret imported)
    (hends : HopEnds env ((uriDomain env start).getD "") hop result) : HopStays env request url hop := by
  refine ⟨hname ▸ hfetch, hname ▸ hstart, fun e he => ?_, fun response hresponse hscheme => ?_⟩
  · rw [← hstart]
    cases hparse : MizuUri.parse env.urlParse start with
    | error e =>
      obtain ⟨hnil, _, herror⟩ := handleFetchRaw_of_error hparse hfetch
      have hinterpret : hop.interpret = [] := by
        cases hends with
        | failed _ hnil => exact hnil
        | answered hresponse => rw [hresponse] at herror; cases herror
        | refused _ _ hnil => exact hnil
        | nowhere _ _ _ hnil => exact hnil
        | away _ _ _ hnil => exact hnil
        | followed _ _ _ hnil => exact hnil
      rw [Hop.events, hnil, hinterpret] at he
      cases he
    | ok uri =>
      have hdomain : uriDomain env start = some uri.domain := by rw [uriDomain, hparse]
      refine ⟨uri.domain, hdomain, ?_⟩
      rcases mem_append.mp he with he | he
      · exact hfetch.only (handleFetchRaw_staysAt hparse) e he
      · cases hresponse : hop.response with
        | ok response =>
          obtain ⟨imported, hrun⟩ := himport response hresponse
          rw [hdomain] at hrun
          exact hrun.only (importHttpResponse_staysAt response) e he
        | error e' =>
          cases hends with
          | failed _ hnil => rw [hnil] at he; cases he
          | answered hok => rw [hok] at hresponse; cases hresponse
          | refused hok => rw [hok] at hresponse; cases hresponse
          | nowhere hok => rw [hok] at hresponse; cases hresponse
          | away hok => rw [hok] at hresponse; cases hresponse
          | followed hok => rw [hok] at hresponse; cases hresponse
  · grind [parse_of_fetched, redirectUrl_home_iff]

variable {hops : List Hop} {result : Except MizuError HttpResponse}

theorem staysHome_limit (start limited : String) : StaysHome env request url start 0 [] (redirectLimit env limited) where
  budget := Nat.le_refl _
  starts _ h := by cases h
  each _ h := by cases h
  chain _ _ _ _ h := by simp at h
  away _ _ _ _ h := by simp at h
  nowhere _ _ _ _ h := by simp at h
  answer _ h := by cases h

theorem split_cons {first : Hop} {before after : List Hop} (h : first :: hops = before ++ hop :: after) :
    (before = [] ∧ hop = first ∧ after = hops) ∨ ∃ before', hops = before' ++ hop :: after := by
  cases before with
  | nil => grind
  | cons _ before => exact .inr ⟨before, (List.cons.inj h).2⟩

/-- A hop before others, or the last one: its fate is what its response makes of it, and the others have theirs. -/
theorem staysHome_cons (hstays : HopStays env request url hop)
    (hname : hop.url = start) (hends : HopEnds env ((uriDomain env url).getD "") hop turn)
    (hbudget : hops.length ≤ n) (heach : ∀ hop ∈ hops, HopStays env request url hop)
    (hfate : (∃ next, turn = .ok (.inl next) ∧ StaysHome env request url next n hops result) ∨
      hops = [] ∧ ((∃ response, turn = .ok (.inr response) ∧ result = .ok response) ∨
        ∃ e, turn = .error e ∧ result = .error e)) :
    StaysHome env request url start (n + 1) (hop :: hops) result where
  budget := Nat.succ_le_succ hbudget
  starts _ h := Option.some.inj h ▸ hname
  each := forall_mem_cons.mpr ⟨hstays, heach⟩
  chain before hop' next' after h := by
    rcases split_cons h with ⟨rfl, rfl, rfl⟩ | ⟨before', rfl⟩
    · rcases hfate with ⟨next, rfl, hrest⟩ | ⟨hnil, -⟩
      · cases hends with
        | followed hresponse hstatus => exact ⟨_, hresponse, hstatus, hrest.starts _ rfl⟩
        | answered _ _ hcase => rcases hcase with hcase | ⟨_, hcase⟩ <;> cases hcase
      · cases hnil
    · rcases hfate with ⟨next, -, hrest⟩ | ⟨hnil, -⟩
      · exact hrest.chain before' hop' next' after rfl
      · simp at hnil
  away before hop' after response h hresponse hstatus hpath haway := by
    rcases split_cons h with ⟨rfl, rfl, rfl⟩ | ⟨before', rfl⟩
    · have hfetched := hstays.fetched
      rw [hresponse] at hfetched
      obtain ⟨uri, -, hdomain⟩ := parse_of_fetched hfetched
      rw [hstays.home] at hdomain
      rw [hdomain] at haway hends ⊢
      obtain ⟨hnil, rfl⟩ := hends.of_away hresponse hstatus hpath haway
      rcases hfate with ⟨next, hcase, -⟩ | ⟨hlast, ⟨_, hcase, -⟩ | ⟨e, hcase, hresult⟩⟩
      · cases hcase
      · cases hcase
      · obtain rfl := Except.error.inj hcase
        exact ⟨hlast, hnil, hresult⟩
    · rcases hfate with ⟨next, -, hrest⟩ | ⟨hnil, -⟩
      · exact hrest.away before' hop' after response rfl hresponse hstatus hpath haway
      · simp at hnil
  nowhere before hop' after response h hresponse hstatus hempty := by
    rcases split_cons h with ⟨rfl, rfl, rfl⟩ | ⟨before', rfl⟩
    · obtain ⟨hnil, rfl⟩ := hends.of_nowhere hresponse hstatus hempty
      rcases hfate with ⟨next, hcase, -⟩ | ⟨hlast, ⟨_, hcase, -⟩ | ⟨e, hcase, hresult⟩⟩
      · cases hcase
      · cases hcase
      · obtain rfl := Except.error.inj hcase
        exact ⟨hlast, hnil, hresult⟩
    · rcases hfate with ⟨next, -, hrest⟩ | ⟨hnil, -⟩
      · exact hrest.nowhere before' hop' after response rfl hresponse hstatus hempty
      · simp at hnil
  answer response hresult := by
    rcases hfate with ⟨next, -, hrest⟩ | ⟨rfl, ⟨response', rfl, hsame⟩ | ⟨e, -, hsame⟩⟩
    · obtain ⟨hsuccess, last, hlast, hresponse⟩ := hrest.answer response hresult
      exact ⟨hsuccess, last, by simp [List.getLast?_cons, hlast], hresponse⟩
    · rw [hsame] at hresult
      obtain rfl := Except.ok.inj hresult
      cases hends with
      | answered hresponse hsuccess hcase => grind
    · rw [hsame] at hresult
      cases hresult

/-- The rounds of the loop are hops that stay on the host. -/
theorem rounds_stayHome (hurl : FollowsStandard env.urlParse) {limited : String} {rounds : List (List NetEvent)}
    (h : Rounds (subresourceHop env request) (redirectLimit env limited) n start rounds result)
    (hstart : uriDomain env start = uriDomain env url) :
    ∃ hops : List Hop, hops.map Hop.events = rounds ∧ StaysHome env request url start n hops result := by
  induction h with
  | limit start => exact ⟨[], rfl, staysHome_limit start limited⟩
  | last h =>
    obtain ⟨hop, hname, hevents, hfetch, himport, hends⟩ := subresourceHop_run h
    refine ⟨[hop], by rw [map_singleton, hevents], ?_⟩
    exact staysHome_cons (hopStays_of_run hurl hstart hname hfetch himport hends) hname (hstart ▸ hends)
      (Nat.zero_le _) (by simp) (.inr ⟨rfl, .inl ⟨_, rfl, rfl⟩⟩)
  | failed h =>
    obtain ⟨hop, hname, hevents, hfetch, himport, hends⟩ := subresourceHop_run h
    refine ⟨[hop], by rw [map_singleton, hevents], ?_⟩
    exact staysHome_cons (hopStays_of_run hurl hstart hname hfetch himport hends) hname (hstart ▸ hends)
      (Nat.zero_le _) (by simp) (.inr ⟨rfl, .inr ⟨_, rfl, rfl⟩⟩)
  | @next n start next trace rounds result h _ ih =>
    obtain ⟨hop, hname, hevents, hfetch, himport, hends⟩ := subresourceHop_run h
    have hstays := hopStays_of_run hurl hstart hname hfetch himport hends
    rw [hstart] at hends
    -- The next URL was read before it was followed, and is on the host.
    obtain ⟨response, hresponse, hhome⟩ : ∃ response, hop.response = .ok response ∧
        uriDomain env next = some ((uriDomain env url).getD "") := by
      cases hends with
      | followed hresponse _ _ _ hhome => exact ⟨_, hresponse, hhome⟩
      | answered _ _ hcase => rcases hcase with hcase | ⟨_, hcase⟩ <;> cases hcase
    rw [hresponse] at hfetch
    obtain ⟨uri, -, hdomain⟩ := parse_of_fetched hfetch
    rw [hstart] at hdomain
    obtain ⟨hops, hrounds, hrest⟩ := ih (by rw [hhome, hdomain]; rfl)
    refine ⟨hop :: hops, by rw [map_cons, hevents, hrounds], ?_⟩
    exact staysHome_cons hstays hname hends hrest.budget hrest.each (.inl ⟨_, rfl, hrest⟩)

end Hops

/-- All hops of a subresource go to the host of its URL, at most one more than there may be redirects; a
redirect that leads elsewhere ends the run before anything is asked of anybody else. -/
theorem subresource_stays_home {env : NetEnv} (hurl : FollowsStandard env.urlParse) {request : FetchRequest}
    {url : String} {trace : List NetEvent} {result : Except MizuError HttpResponse}
    (h : Run (handleFetchSubresourceRaw env request url) trace result) :
    ∃ hops : List Hop, hops.flatMap Hop.events = trace ∧
      StaysHome env request url url (env.maxRedirects + 1) hops result := by
  obtain ⟨rounds, hrounds, rfl⟩ := run_repeatUntil_iff.mp h
  obtain ⟨hops, rfl, hstays⟩ := rounds_stayHome hurl hrounds rfl
  exact ⟨hops, flatMap_def .. , hstays⟩

/-- An image of a page. -/
def imageRequest : FetchRequest := ⟨"GET", none, none, []⟩

def imageH3Request (path : String) : H3Request := ⟨"GET", "https://a.mizu" ++ path, "a.mizu", none, none, []⟩

/-- A hop that is redirected. -/
def imageHop (path : String) (location : List UInt8) : List NetEvent :=
  [⟨.load "a.mizu", .ok none⟩, ⟨.resolveDomain "a.mizu" false, .ok ⟨.v4 ⟨93, 184, 216, 34⟩, 443⟩⟩,
    ⟨.getOrConnect ⟨.v4 ⟨93, 184, 216, 34⟩, 443⟩ "a.mizu", .ok ()⟩,
    ⟨.sendRequest (imageH3Request path), .ready ()⟩, ⟨.finish (imageH3Request path), ⟨.ready (), true⟩⟩,
    ⟨.recvResponse (imageH3Request path), .ready ⟨302, "302 Found", some location, none⟩⟩,
    ⟨.recvData (imageH3Request path), ⟨[], .ready ()⟩⟩]

/-- A redirect to `j` is followed, and the next one, to another host, is not. -/
theorem subresource_stays_home_image :
    FollowsStandard plainNetEnv.urlParse ∧
      Run (handleFetchSubresourceRaw plainNetEnv imageRequest "mizu://a.mizu/i")
        (imageHop "/i" (bytesOf "j") ++ imageHop "/j" (bytesOf "mizu://b.mizu/"))
        (.error (crossOrigin "a.mizu" "mizu://b.mizu/")) ∧
      ∃ hops : List Hop,
        hops.flatMap Hop.events = imageHop "/i" (bytesOf "j") ++ imageHop "/j" (bytesOf "mizu://b.mizu/") ∧
        StaysHome plainNetEnv imageRequest "mizu://a.mizu/i" "mizu://a.mizu/i" (plainNetEnv.maxRedirects + 1) hops
          (.error (crossOrigin "a.mizu" "mizu://b.mizu/")) := by
  have hrun : Run (handleFetchSubresourceRaw plainNetEnv imageRequest "mizu://a.mizu/i")
      (imageHop "/i" (bytesOf "j") ++ imageHop "/j" (bytesOf "mizu://b.mizu/"))
      (.error (crossOrigin "a.mizu" "mizu://b.mizu/")) := run_of_replay (by rfl)
  exact ⟨plainUrlParse_follows, hrun, subresource_stays_home plainUrlParse_follows hrun⟩

/-- A path on the same host that contains a tab is refused as if it led elsewhere, and a destination that is no
ASCII text ends as one that is missing. -/
theorem redirect_refused_otherwise :
    Run (handleFetchSubresourceRaw plainNetEnv imageRequest "mizu://a.mizu/i") (imageHop "/i" (bytesOf "/a\tb"))
      (.error (crossOrigin "a.mizu" "mizu://a.mizu/a\tb")) ∧
    Run (handleFetchSubresourceRaw plainNetEnv imageRequest "mizu://a.mizu/i")
      (imageHop "/i" (bytesOf "mizu://é.mizu/")) (.error (.network "Empty redirect destination")) :=
  ⟨run_of_replay (by rfl), run_of_replay (by rfl)⟩

end Mizu
