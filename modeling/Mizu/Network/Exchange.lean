import Mizu.Lib.Resumption
import Mizu.Network.Dns
import Mizu.Network.Vault

/-!
# Requests of the network worker

Every request is a task of its own that waits: for the keyring, the clock, the resolver, the connection and
the stages of an exchange. `handleFetchRaw` is one request, which is retried once when its exchange breaks;
`subresourceHop` is one redirect of a subresource.
-/

namespace Mizu

open Resumption Program

/-- How a wait within an exchange ends. -/
inductive Await (α : Type) where
  | ready (a : α)
  | failed (error : String)
  /-- The time for the exchange is over. -/
  | elapsed
  deriving DecidableEq

/-- A response without its body. -/
structure ResponseHead where
  status : Nat
  statusText : String
  location : Option (List UInt8)
  mizuAuthSet : Option (List UInt8)
  deriving DecidableEq

/-- The end of a request is handed over: what the client sees, and whether the server gets the complete
request, then or later. A wait that fails says nothing about that. -/
structure Finished where
  seen : Await Unit
  delivered : Bool
  deriving DecidableEq

/-- The chunks of a body, and how the stream ends. -/
structure BodyStream where
  chunks : List (List UInt8)
  ending : Await Unit
  deriving DecidableEq

/-- What a request waits for. -/
inductive NetOp where
  | load (user : String)
  | save (user : String) (entry : VaultEntry)
  | delete (user : String)
  | clock
  | resolveDomain (domain : String) (allowPrivateLiteral : Bool)
  | getOrConnect (addr : SocketAddr) (domain : String)
  | evict (domain : String)
  | sendRequest (request : H3Request)
  | sendData (request : H3Request) (payload : List UInt8)
  | finish (request : H3Request)
  | recvResponse (request : H3Request)
  | recvData (request : H3Request)
  deriving DecidableEq

/-- The clock has no answer before the epoch. -/
abbrev NetOp.Ans : NetOp → Type
  | load _ => Except MizuError (Option VaultEntry)
  | save _ _ => Except MizuError Unit
  | delete _ => Except MizuError Unit
  | clock => Option Nat
  | resolveDomain _ _ => Except MizuError SocketAddr
  | getOrConnect _ _ => Except MizuError Unit
  | evict _ => Unit
  | sendRequest _ => Await Unit
  | sendData _ _ => Await Unit
  | finish _ => Finished
  | recvResponse _ => Await ResponseHead
  | recvData _ => BodyStream

abbrev NetEvent := Σ op : NetOp, op.Ans

abbrev NetTask := Program NetOp NetOp.Ans MizuError

/-! ## The vault -/

def VaultEntry.load (user : String) : NetTask (Option VaultEntry) := query (.load user) id

def VaultEntry.save (user : String) (entry : VaultEntry) : NetTask Unit := query (.save user entry) id

def VaultEntry.delete (user : String) : NetTask Unit := query (.delete user) id

/-- The seconds since the epoch, or a default for a clock that cannot be read. -/
def elapsedSecs (default : Nat) : NetTask Nat := query .clock fun now => .ok (now.getD default)

/-- `VaultEntry::is_expired`: a clock that cannot be read expires every token. -/
def VaultEntry.isExpired (entry : VaultEntry) : NetTask Bool := do
  let now ← elapsedSecs u64Max
  pure (decide (entry.exp ≤ now))

def loadValidEntry (env : NetEnv) (user method : String) : NetTask (Option VaultEntry) := do
  match ← VaultEntry.load user with
  | none => pure none
  | some entry =>
    if ← entry.isExpired then
      VaultEntry.delete user
      throw (.securityViolation ("bearer token for '" ++ user ++ "' expired; evicted — re-authenticate"))
    else
      known (env.checkScope entry method)
      pure (some entry)

/-- `process_mizu_auth_set`: a clock that cannot be read stands at the epoch. -/
def processMizuAuthSet (env : NetEnv) (value domain : String) : NetTask Unit :=
  match parseMizuAuthSetHeader value with
  | none => throw (.network "Mizu-Auth-Set header has invalid format")
  | some auth =>
    match auth.exp with
    | none => throw (.securityViolation "Mizu-Auth-Set rejected: missing EXP field (expiry is mandatory)")
    | some rawExp => do
      let now ← elapsedSecs 0
      let entry ← known (ceilingEntry env.maxTokenTtlSecs now auth rawExp)
      VaultEntry.save (env.identity domain) entry

/-- `parse_http_response`, where the token of a success is stored first. -/
def importHttpResponse (env : NetEnv) (response : HttpResponse) (domain : String) :
    NetTask (Option String) := do
  match response.isSuccess, response.mizuAuthSet.bind headerToStr with
  | true, some text => processMizuAuthSet env text domain
  | _, _ => pure ()
  known (parseHttpResponse (fun _ _ => .ok ()) response domain)

/-! ## One exchange -/

def maxResponseBodyBytes : Nat := 32 * 1024 * 1024

def checkResponseBodyBudget (currentLen incomingLen : Nat) : Except MizuError Unit :=
  if maxResponseBodyBytes < saturatingAdd currentLen incomingLen then
    .error (.securityViolation ("response body exceeds the " ++ toString maxResponseBodyBytes ++
      "-byte limit; transfer aborted"))
  else .ok ()

/-- The accumulation of a body. -/
def readBody (body : List UInt8) : List (List UInt8) → Except MizuError (List UInt8)
  | [] => .ok body
  | chunk :: chunks =>
    match checkResponseBodyBudget body.length chunk.length with
    | .error e => .error e
    | .ok () => readBody (body ++ chunk) chunks

def buildH3Request (env : NetEnv) (uri : MizuUri) (method : String) (optEntry : Option VaultEntry)
    (contentType : Option String) (customHeaders : List (String × String)) : Except MizuError H3Request :=
  let request : H3Request := {
    method
    uri := "https://" ++ uri.domain ++ uri.path
    host := uri.domain
    authorization := optEntry.map fun entry => "Bearer " ++ entry.token
    contentType
    headers := customHeaders
  }
  match env.rejectRequest request with
  | some e => .error (.network ("Request build error: " ++ e))
  | none => .ok request

/-- Every failure of a wait within an exchange is a network error. -/
def Await.result {α : Type} (context timedOut : String) : Await α → Except MizuError α
  | ready a => .ok a
  | failed e => .error (.network (context ++ e))
  | elapsed => .error (.network timedOut)

theorem Await.result_ok {α : Type} {context timedOut : String} {seen : Await α} {a : α}
    (h : seen.result context timedOut = .ok a) : seen = .ready a := by
  cases seen with
  | ready b => exact congrArg Await.ready (Except.ok.inj h)
  | failed error => cases h
  | elapsed => cases h

/-- What a document asks of the worker, without the URL. -/
structure FetchRequest where
  method : String
  body : Option (List UInt8)
  contentType : Option String
  customHeaders : List (String × String)

/-- The end of a request is signalled, and its response is read. -/
def finishExchange (timedOut : String) (request : H3Request) : NetTask HttpResponse := do
  query (.finish request) fun finished => finished.seen.result "H3 stream finish failed: " timedOut
  let head ← query (.recvResponse request) fun seen => seen.result "H3 recv_response failed: " timedOut
  let body ← query (.recvData request) fun stream => do
    let body ← readBody [] stream.chunks
    stream.ending.result "H3 recv_data failed: " timedOut
    pure body
  pure ⟨head.status, head.statusText, head.location, head.mizuAuthSet, body⟩

/-- The exchange on a connection, which has a time limit as a whole. -/
def exchange (timedOut : String) (request : H3Request) (body : Option (List UInt8)) : NetTask HttpResponse := do
  query (.sendRequest request) fun seen => seen.result "H3 send_request failed: " timedOut
  if let some payload := body then
    query (.sendData request payload) fun seen => seen.result "H3 send_data failed: " timedOut
    finishExchange timedOut request
  else finishExchange timedOut request

/-- `do_h3_request`. -/
def doH3Request (env : NetEnv) (addr : SocketAddr) (uri : MizuUri) (request : FetchRequest)
    (optEntry : Option VaultEntry) : NetTask HttpResponse := do
  query (.getOrConnect addr uri.domain) id
  let h3Request ← known (buildH3Request env uri request.method optEntry request.contentType request.customHeaders)
  exchange ("H3 request to " ++ uri.domain ++ " timed out after " ++ env.requestTimeout) h3Request request.body

/-- `handle_fetch_raw`: the exchange, and once more on a fresh connection after a network error. -/
def handleFetchRaw (env : NetEnv) (request : FetchRequest) (url : String) (isNavigation : Bool) :
    NetTask HttpResponse :=
  if startsWith "file://" url then
    throw (.securityViolation ("file:// URIs must not reach the QUIC fetch path; " ++
      "use handle_fetch_file for sandboxed local asset reads"))
  else do
    let uri ← known (MizuUri.parse env.urlParse url)
    let vaultDomain := env.identity uri.domain
    let optEntry ← loadValidEntry env vaultDomain request.method
    let addr ← query (.resolveDomain uri.domain isNavigation) id
    tryCatch (doH3Request env addr uri request optEntry) fun
      | .network _ => do
        query (.evict uri.domain) .ok
        let optEntry2 ← loadValidEntry env vaultDomain request.method
        doH3Request env addr uri request optEntry2
      | e => throw e

/-- The domain of a URL, if it is one of the network. -/
def uriDomain (env : NetEnv) (url : String) : Option String :=
  match MizuUri.parse env.urlParse url with
  | .ok uri => some uri.domain
  | .error _ => none

/-- `handle_navigate`: one hop, whose redirect goes back to the window. -/
def handleNavigate (env : NetEnv) (url : String) : NetTask (Option String × String) := do
  let response ← handleFetchRaw env ⟨"GET", none, none, []⟩ url true
  let redirect ← importHttpResponse env response ((uriDomain env url).getD "")
  pure (redirect, fromUtf8Lossy response.body)

/-- One hop of a subresource: the next URL, or the response. -/
def subresourceHop (env : NetEnv) (request : FetchRequest) (current : String) :
    NetTask (String ⊕ HttpResponse) := do
  let response ← handleFetchRaw env request current false
  let origin := (uriDomain env current).getD ""
  match ← importHttpResponse env response origin with
  | none => pure (.inr response)
  | some nextUrl =>
    if uriDomain env nextUrl ≠ some origin then
      throw (.securityViolation ("cross-origin redirect blocked: subresource request to `" ++ origin ++
        "` was redirected to `" ++ nextUrl ++ "`; a subresource may only follow same-origin redirects " ++
        "and is never promoted to a navigation"))
    else pure (.inl nextUrl)

/-- The result of too many hops. -/
def redirectLimit (env : NetEnv) (url : String) : Except MizuError HttpResponse :=
  .error (.network ("subresource request to " ++ url ++ " exceeded the " ++ toString env.maxRedirects ++
    "-redirect limit"))

def handleFetchSubresourceRaw (env : NetEnv) (request : FetchRequest) (url : String) : NetTask HttpResponse :=
  repeatUntil (subresourceHop env request) (redirectLimit env url) (env.maxRedirects + 1) url

/-- `handle_fetch`, whose body becomes a text. -/
def handleFetch (env : NetEnv) (request : FetchRequest) (url : String) : NetTask String := do
  let response ← handleFetchSubresourceRaw env request url
  pure (fromUtf8Lossy response.body)

def handleFetchBytes (env : NetEnv) (url : String) : NetTask (List UInt8) := do
  let response ← handleFetchSubresourceRaw env ⟨"GET", none, none, []⟩ url
  pure response.body

end Mizu
