import Mizu.Network.Exchange

/-!
# Bearer tokens over a history of requests

The requests of the worker share the keyring and the clock, and go on in any order. `TokenSystem` logs what
they do; `token_confined` says where the token of a request comes from. The tasks are checked one by one, each
on its own part of the log (`handleFetchRaw_obeys`, `importHttpResponse_obeys`).
-/

namespace Mizu

open Resumption Program List Option

/-- An operation of a task with its answer, and when it ended. -/
structure Logged where
  task : Nat
  time : Int
  event : NetEvent

/-- The clock, from the epoch, and all that was done. -/
structure NetWorld where
  now : Int
  log : List Logged

/-- What an operation does to the keyring, which is a map. -/
def NetEvent.store (keyring : String → Option VaultEntry) : NetEvent → String → Option VaultEntry
  | ⟨.save user entry, .ok ()⟩ => Function.update keyring user (some entry)
  | ⟨.delete user, .ok ()⟩ => Function.update keyring user none
  | _ => keyring

/-- The keyring after a history. -/
def keyringOf (log : List Logged) : String → Option VaultEntry :=
  log.foldl (fun keyring e => e.event.store keyring) fun _ => none

/-- The clock does not count before the epoch. -/
def clockReading (now : Int) : Option Nat := if now < 0 then none else some now.toNat

/-- The keyring and the clock answer with what they are, if they do. -/
def Answers (w : NetWorld) : NetEvent → Prop
  | ⟨.load user, .ok entry⟩ => entry = keyringOf w.log user
  | ⟨.clock, reading⟩ => reading = clockReading w.now
  | _ => True

/-- What one task did. -/
def own (i : Nat) (log : List Logged) : List (Int × NetEvent) :=
  (log.filter (·.task = i)).map fun e => (e.time, e.event)

/-- Between the check of an entry and its use, a request resolves the name and connects. -/
def NetEvent.waits : NetEvent → Bool
  | ⟨.resolveDomain _ _, _⟩ => true
  | ⟨.getOrConnect _ _, _⟩ => true
  | _ => false

/-- The task loaded the entry, and found that it had not expired. -/
def Checked (events : List (Int × NetEvent)) (user : String) (entry : VaultEntry) : Prop :=
  ∃ (before : List (Int × NetEvent)) (loadTime checkTime : Int) (reading : Option Nat)
    (waits : List (Int × NetEvent)),
    events = before ++ (loadTime, ⟨.load user, .ok (some entry)⟩) :: (checkTime, ⟨.clock, reading⟩) :: waits ∧
      0 ≤ checkTime ∧ checkTime < entry.exp ∧ ∀ e ∈ waits, e.2.waits = true

/-- A success, received from a host of the identity `user`, declares a token. -/
def Granted (env : NetEnv) (events : List (Int × NetEvent)) (user : String) (auth : MizuAuthSetHeader) : Prop :=
  ∃ time request head value text, (time, ⟨.recvResponse request, .ready head⟩) ∈ events ∧
    user = env.identity request.host ∧ 200 ≤ head.status ∧ head.status < 300 ∧ head.mizuAuthSet = some value ∧
    headerToStr value = some text ∧ parseMizuAuthSetHeader text = some auth

/-- When a task may store an entry. -/
def SaveAllowed (env : NetEnv) (events : List (Int × NetEvent)) (now : Int) (user : String)
    (entry : VaultEntry) : Prop :=
  ∃ auth, Granted env events user auth ∧ entry.token = auth.token ∧
    (∀ m ∈ entry.allowedMethods, m ∈ auth.scope ∧ ∃ p ∈ permittedHttpMethods, eqIgnoreAsciiCase p m = true) ∧
    (entry.exp : Int) ≤ max 0 now + env.maxTokenTtlSecs

/-- When a task may send a request with a token. -/
def SendAllowed (env : NetEnv) (events : List (Int × NetEvent)) (request : H3Request) : Prop :=
  ∀ value, request.authorization = some value → ∃ (entry : VaultEntry) (method : NetworkMethod),
    value = "Bearer " ++ entry.token ∧ Checked events (env.identity request.host) entry ∧
    request.method = method.asStr ∧ env.checkScope entry request.method = .ok ()

def NetOp.Allowed (env : NetEnv) (w : NetWorld) (i : Nat) : NetOp → Prop
  | save user entry => SaveAllowed env (own i w.log) w.now user entry
  | sendRequest request => SendAllowed env (own i w.log) request
  | _ => True

/-- What the requests share, and what they promise. -/
def vaultContract (env : NetEnv) : Contract Nat NetOp NetOp.Ans NetWorld where
  world w i op r w' := Answers w ⟨op, r⟩ ∧ w' = ⟨w.now, w.log ++ [⟨i, w.now, ⟨op, r⟩⟩]⟩
  later i w w' := w.now ≤ w'.now ∧ own i w'.log = own i w.log
  later_refl _ _ := ⟨le_rfl, rfl⟩
  later_trans h₁ h₂ := ⟨h₁.1.trans h₂.1, h₂.2.trans h₁.2⟩
  allowed w i op := op.Allowed env w i

/-- Time passes. -/
def passes (w w' : NetWorld) : Prop := w.now ≤ w'.now ∧ w'.log = w.log

/-- The tasks of the worker: navigations, data calls and assets. -/
inductive Startable (env : NetEnv) : NetTask Unit → Prop where
  | navigate (url : String) : Startable env (do let _ ← handleNavigate env url; pure ())
  | fetch (method : NetworkMethod) (body : Option (List UInt8)) (contentType : Option String)
      (headers : List (String × String)) (url : String) :
      Startable env (do let _ ← handleFetch env ⟨method.asStr, body, contentType, headers⟩ url; pure ())
  | asset (url : String) : Startable env (do let _ ← handleFetchBytes env url; pure ())

abbrev TokenSystem := System Nat NetOp NetOp.Ans MizuError Unit NetWorld

abbrev TokenStep (env : NetEnv) : TokenSystem → TokenSystem → Prop :=
  Step (vaultContract env) passes (Startable env)

/-! ## The tasks -/

variable {entry : VaultEntry} {response : HttpResponse} {event : NetEvent} {domain : String}
variable {events : List (Int × NetEvent)}

section Tasks

variable {env : NetEnv} {i : Nat} {w : NetWorld}

theorem own_append (xs ys : List Logged) : own i (xs ++ ys) = own i xs ++ own i ys := by
  simp [own]

theorem own_singleton (time : Int) (event : NetEvent) : own i [⟨i, time, event⟩] = [(time, event)] := by
  simp [own]

/-- One operation: time passes before and after it, and the task has done it. -/
theorem obeys_wait {α : Type} {op : NetOp} {g : op.Ans → Except MizuError α}
    {post : Except MizuError α → NetWorld → Prop}
    (hallowed : ∀ v, w.now ≤ v.now → own i v.log = own i w.log → op.Allowed env v i)
    (hpost : ∀ time log r v, w.now ≤ time → time ≤ v.now → Answers ⟨time, log⟩ ⟨op, r⟩ →
      own i v.log = own i w.log ++ [(time, ⟨op, r⟩)] → post (g r) v) :
    (query op g : NetTask α).Obeys (vaultContract env) i post w := by
  refine obeys_query fun t ht => ⟨hallowed t ht.1 ht.2, ?_⟩
  rintro r u ⟨hanswers, rfl⟩ v ⟨hnow, hown⟩
  refine hpost t.now t.log r v ht.1 hnow hanswers ?_
  rw [hown, own_append, own_singleton, ht.2]

/-- The entry of an attempt, if there is one, was checked. -/
def Ready (env : NetEnv) (method user : String) (events : List (Int × NetEvent)) (opt : Option VaultEntry) : Prop :=
  ∀ entry, opt = some entry → env.checkScope entry method = .ok () ∧ Checked events user entry

theorem Ready.append {method user : String} {opt : Option VaultEntry} {time : Int}
    (h : Ready env method user events opt) (hwaits : event.waits = true) :
    Ready env method user (events ++ [(time, event)]) opt := by
  intro entry hentry
  obtain ⟨hscope, before, loadTime, checkTime, reading, waits, rfl, hepoch, hexp, hall⟩ := h entry hentry
  refine ⟨hscope, before, loadTime, checkTime, reading, waits ++ [(time, event)], by simp, hepoch, hexp, ?_⟩
  intro e he
  rcases mem_append.mp he with he | he
  · exact hall e he
  · rw [mem_singleton.mp he]
    exact hwaits

/-- `u64::MAX` seconds are after every expiry. -/
theorem checked_of_reading {reading : Option Nat} {time : Int}
    (hreading : reading = clockReading time) (h : ¬entry.exp ≤ reading.getD u64Max) :
    0 ≤ time ∧ time < entry.exp := by
  grind [clockReading, entry.exp_le]

theorem loadValidEntry_obeys (user method : String) :
    (loadValidEntry env user method).Obeys (vaultContract env) i
      (fun result t => ∀ opt, result = .ok opt → Ready env method user (own i t.log) opt) w := by
  refine obeys_bind (obeys_wait (fun _ _ _ => trivial) fun loadTime _ loaded t _ _ _ hload => ?_)
  cases loaded with
  | error e => simp [id]
  | ok found =>
    cases found with
    | none =>
      refine obeys_pure fun v _ opt hopt entry hentry => ?_
      obtain rfl := Except.ok.inj hopt
      cases hentry
    | some entry =>
      refine obeys_bind (obeys_bind (obeys_wait (fun _ _ _ => trivial)
        fun checkTime _ reading u _ _ hanswers hcheck => obeys_pure fun v hv => ?_))
      by_cases hexpired : entry.exp ≤ reading.getD u64Max
      · simp only [hexpired, decide_true, if_true]
        exact obeys_bind (obeys_wait (fun _ _ _ => trivial) fun _ _ deleted x _ _ _ _ => by
          cases deleted with
          | error e => simp [id]
          | ok _ => exact obeys_throw fun _ _ _ h => by cases h)
      · simp only [hexpired, decide_false, Bool.false_eq_true, if_false]
        refine obeys_bind (obeys_known fun x hx => ?_)
        cases hscope : env.checkScope entry method with
        | error e => simp
        | ok _ =>
          refine obeys_pure fun y hy opt hopt entry' hentry => ?_
          obtain rfl := Except.ok.inj hopt
          obtain rfl := some.inj hentry
          refine ⟨hscope, own i w.log, loadTime, checkTime, reading, [], ?_,
            (checked_of_reading hanswers hexpired).1, (checked_of_reading hanswers hexpired).2, by simp⟩
          rw [hy.2, hx.2, hv.2, hcheck, hload]
          simp

theorem buildH3Request_ok {uri : MizuUri} {method : String} {optEntry : Option VaultEntry}
    {contentType : Option String} {headers : List (String × String)} {request : H3Request}
    (h : buildH3Request env uri method optEntry contentType headers = .ok request) :
    request.host = uri.domain ∧ request.method = method ∧
      request.authorization = optEntry.map fun entry => "Bearer " ++ entry.token := by
  grind [buildH3Request]

/-- The response was received from the host. -/
def Served (domain : String) (response : HttpResponse) (events : List (Int × NetEvent)) : Prop :=
  ∃ time request head, (time, ⟨.recvResponse request, .ready head⟩) ∈ events ∧ request.host = domain ∧
    response.status = head.status ∧ response.mizuAuthSet = head.mizuAuthSet

/-- What is known when a request ends with a response. -/
def IfServed (i : Nat) (domain : String) (result : Except MizuError HttpResponse) (w : NetWorld) : Prop :=
  ∀ response, result = .ok response → Served domain response (own i w.log)

theorem ifServed_error {e : MizuError} : IfServed i domain (.error e) w :=
  fun _ h => by cases h

theorem finishExchange_obeys (timedOut : String) (request : H3Request) :
    (finishExchange timedOut request).Obeys (vaultContract env) i (IfServed i request.host) w := by
  refine obeys_bind (obeys_wait (fun _ _ _ => trivial) fun _ _ finished t _ _ _ _ => ?_)
  cases hfinished : finished.seen.result "H3 stream finish failed: " timedOut with
  | error e => exact ifServed_error
  | ok _ =>
    refine obeys_bind (obeys_wait (fun _ _ _ => trivial) fun time _ seen u _ _ _ hseen => ?_)
    cases hhead : seen.result "H3 recv_response failed: " timedOut with
    | error e => exact ifServed_error
    | ok head =>
      obtain rfl := Await.result_ok hhead
      refine obeys_bind (obeys_wait (fun _ _ _ => trivial) fun _ _ stream v _ _ _ hstream => ?_)
      split
      · refine obeys_pure fun x hx response hresponse => ?_
        obtain rfl := Except.ok.inj hresponse
        refine ⟨time, request, head, ?_, rfl, rfl, rfl⟩
        rw [hx.2, hstream, hseen]
        simp
      · exact ifServed_error

theorem exchange_obeys (timedOut : String) (request : H3Request) (body : Option (List UInt8))
    (hsend : SendAllowed env (own i w.log) request) :
    (exchange timedOut request body).Obeys (vaultContract env) i (IfServed i request.host) w := by
  refine obeys_bind (obeys_wait (fun v _ hv => ?_) fun _ _ seen t _ _ _ _ => ?_)
  · rw [NetOp.Allowed, hv]
    exact hsend
  split
  · cases body with
    | none => exact finishExchange_obeys timedOut request
    | some payload =>
      refine obeys_bind (obeys_wait (fun _ _ _ => trivial) fun _ _ sent u _ _ _ _ => ?_)
      split
      · exact finishExchange_obeys timedOut request
      · exact ifServed_error
  · exact ifServed_error

variable {request : FetchRequest} {method : NetworkMethod}

/-- An attempt carries the entry that was checked for it. -/
theorem doH3Request_obeys {addr : SocketAddr} {uri : MizuUri}
    {optEntry : Option VaultEntry} (hmethod : request.method = method.asStr)
    (hready : Ready env request.method (env.identity uri.domain) (own i w.log) optEntry) :
    (doH3Request env addr uri request optEntry).Obeys (vaultContract env) i (IfServed i uri.domain) w := by
  refine obeys_bind (obeys_wait (fun _ _ _ => trivial) fun time _ connected t _ _ _ hconnect => ?_)
  cases connected with
  | error e => exact ifServed_error
  | ok _ =>
    refine obeys_bind (obeys_known fun u hu => ?_)
    cases hbuild : buildH3Request env uri request.method optEntry request.contentType request.customHeaders with
    | error e => exact ifServed_error
    | ok h3Request =>
      obtain ⟨hhost, hsame, hauthorization⟩ := buildH3Request_ok hbuild
      rw [← hhost]
      refine exchange_obeys _ _ _ fun value hvalue => ?_
      rw [hauthorization] at hvalue
      obtain ⟨entry, hentry, rfl⟩ := map_eq_some_iff.mp hvalue
      have hstill : Ready env request.method (env.identity uri.domain)
          (own i w.log ++ [(time, ⟨.getOrConnect addr uri.domain, .ok ()⟩)]) optEntry := hready.append rfl
      obtain ⟨hscope, hchecked⟩ := hstill entry hentry
      refine ⟨entry, method, rfl, ?_, hsame.trans hmethod, hsame ▸ hscope⟩
      rw [hu.2, hconnect, hhost]
      exact hchecked

theorem handleFetchRaw_obeys
    (hmethod : request.method = method.asStr) (url : String) (isNavigation : Bool) :
    (handleFetchRaw env request url isNavigation).Obeys (vaultContract env) i
      (IfServed i ((uriDomain env url).getD "")) w := by
  unfold handleFetchRaw
  split
  · exact obeys_throw fun _ _ => ifServed_error
  refine obeys_bind (obeys_known fun t _ => ?_)
  cases hparse : MizuUri.parse env.urlParse url with
  | error e => exact ifServed_error
  | ok uri =>
    have hdomain : (uriDomain env url).getD "" = uri.domain := by simp [uriDomain, hparse]
    rw [hdomain]
    refine obeys_bind ((loadValidEntry_obeys _ _).weaken fun loaded u hready => ?_)
    cases loaded with
    | error e => exact ifServed_error
    | ok optEntry =>
      refine obeys_bind (obeys_wait (fun _ _ _ => trivial) fun _ _ resolved v _ _ _ hresolve => ?_)
      cases resolved with
      | error e => exact ifServed_error
      | ok addr =>
        refine obeys_tryCatch ((doH3Request_obeys hmethod ?_).weaken fun result x hserved => ?_)
        · rw [hresolve]
          exact (hready optEntry rfl).append rfl
        cases result with
        | ok response => exact hserved
        | error e =>
          cases e with
          | network message =>
            refine obeys_bind (obeys_wait (fun _ _ _ => trivial) fun _ _ _ y _ _ _ _ => ?_)
            refine obeys_bind ((loadValidEntry_obeys _ _).weaken fun reloaded z hready => ?_)
            cases reloaded with
            | error e => exact ifServed_error
            | ok optEntry2 => exact doH3Request_obeys hmethod (hready optEntry2 rfl)
          | _ => exact obeys_throw fun _ _ => ifServed_error

theorem processMizuAuthSet_obeys {value : List UInt8} {text domain : String}
    (hserved : Served domain response (own i w.log)) (hsuccess : response.isSuccess = true)
    (hvalue : response.mizuAuthSet = some value) (htext : headerToStr value = some text) :
    (processMizuAuthSet env text domain).Obeys (vaultContract env) i (fun _ _ => True) w := by
  unfold processMizuAuthSet
  split
  · exact obeys_throw fun _ _ => trivial
  rename_i auth hauth
  split
  · exact obeys_throw fun _ _ => trivial
  rename_i rawExp _
  refine obeys_bind (obeys_wait (fun _ _ _ => trivial) fun time _ reading t _ htime hanswers hclock => ?_)
  refine obeys_bind (obeys_known fun u hu => ?_)
  cases hentry : ceilingEntry env.maxTokenTtlSecs (reading.getD 0) auth rawExp with
  | error e => trivial
  | ok entry =>
    refine obeys_wait (fun v hnow hv => ?_) fun _ _ _ _ _ _ _ _ => trivial
    obtain ⟨htoken, -, hexp, hmethods⟩ := ceilingEntry_ok hentry
    obtain ⟨served, request, head, hmem, hhost, hstatus, hheader⟩ := hserved
    obtain ⟨hlow, hhigh⟩ := by simpa [HttpResponse.isSuccess, hstatus] using hsuccess
    rw [NetOp.Allowed, hv, hu.2, hclock]
    refine ⟨auth, ⟨served, request, head, value, text, mem_append_left _ hmem, by rw [hhost], hlow, hhigh,
      hheader ▸ hvalue, htext, hauth⟩, htoken, hmethods, ?_⟩
    have hreading : (reading.getD 0 : Int) = max 0 time := by
      rw [show reading = clockReading time from hanswers, clockReading]
      split <;> simp <;> omega
    have hlater : time ≤ v.now := htime.trans (hu.1.trans hnow)
    omega

theorem importHttpResponse_obeys (hserved : Served domain response (own i w.log)) :
    (importHttpResponse env response domain).Obeys (vaultContract env) i (fun _ _ => True) w := by
  unfold importHttpResponse
  split
  · rename_i text hsuccess hbind
    obtain ⟨value, hvalue, htext⟩ := bind_eq_some_iff.mp hbind
    refine obeys_bind ((processMizuAuthSet_obeys hserved hsuccess hvalue htext).weaken fun result t _ => ?_)
    cases result with
    | error e => trivial
    | ok _ => exact obeys_known fun _ _ => trivial
  · exact obeys_known fun _ _ => trivial

theorem subresourceHop_obeys (hmethod : request.method = method.asStr) (current : String) :
    (subresourceHop env request current).Obeys (vaultContract env) i (fun _ _ => True) w := by
  refine obeys_bind ((handleFetchRaw_obeys hmethod current false).weaken fun fetched t hserved => ?_)
  cases fetched with
  | error e => trivial
  | ok response =>
    refine obeys_bind ((importHttpResponse_obeys (hserved response rfl)).weaken fun imported u _ => ?_)
    match imported with
    | .error e => trivial
    | .ok none => exact obeys_pure fun _ _ => trivial
    | .ok (some nextUrl) =>
      dsimp only
      split
      · exact obeys_throw fun _ _ => trivial
      · exact obeys_pure fun _ _ => trivial

theorem handleFetchSubresourceRaw_obeys (hmethod : request.method = method.asStr) (url : String) :
    (handleFetchSubresourceRaw env request url).Obeys (vaultContract env) i (fun _ _ => True) w := by
  refine obeys_repeatUntil (I := fun _ _ => True) (fun current v _ => ?_) (fun _ _ _ _ _ => trivial)
    (fun _ _ _ _ _ => trivial) _ trivial
  refine (subresourceHop_obeys hmethod current).weaken fun result t _ => ?_
  match result with
  | .ok (.inl _) => trivial
  | .ok (.inr _) => trivial
  | .error _ => trivial

theorem obeys_ignore {α β : Type} {x : NetTask α} {f : α → NetTask β}
    (hx : x.Obeys (vaultContract env) i (fun _ _ => True) w)
    (hf : ∀ a t, (f a).Obeys (vaultContract env) i (fun _ _ => True) t) :
    (x >>= f).Obeys (vaultContract env) i (fun _ _ => True) w := by
  grind [obeys_bind]

theorem get_method : (⟨"GET", none, none, []⟩ : FetchRequest).method = NetworkMethod.get.asStr := rfl

theorem startable_obeys {x : NetTask Unit} (h : Startable env x) :
    x.Obeys (vaultContract env) i (fun _ _ => True) w := by
  cases h with
  | navigate url =>
    refine obeys_ignore (obeys_bind ((handleFetchRaw_obeys get_method url true).weaken
      fun fetched t hserved => ?_)) fun _ _ => obeys_pure fun _ _ => trivial
    cases fetched with
    | error e => trivial
    | ok response =>
      exact obeys_ignore (importHttpResponse_obeys (hserved response rfl)) fun _ _ => obeys_pure fun _ _ => trivial
  | fetch method body contentType headers url =>
    refine obeys_ignore (obeys_ignore (handleFetchSubresourceRaw_obeys rfl url) fun _ _ => ?_) fun _ _ => ?_
    · exact obeys_pure fun _ _ => trivial
    · exact obeys_pure fun _ _ => trivial
  | asset url =>
    refine obeys_ignore (obeys_ignore (handleFetchSubresourceRaw_obeys get_method url) fun _ _ => ?_)
      fun _ _ => ?_
    · exact obeys_pure fun _ _ => trivial
    · exact obeys_pure fun _ _ => trivial

end Tasks

/-! ## The history -/

/-- Every operation was answered and allowed as things stood before it. -/
def Sound (env : NetEnv) (log : List Logged) : Prop :=
  ∀ before e after, log = before ++ e :: after →
    Answers ⟨e.time, before⟩ e.event ∧ e.event.1.Allowed env ⟨e.time, before⟩ e.task

section History

variable {env : NetEnv} {log : List Logged}

theorem Sound.concat {e : Logged} (h : Sound env log) (hanswers : Answers ⟨e.time, log⟩ e.event)
    (hallowed : e.event.1.Allowed env ⟨e.time, log⟩ e.task) : Sound env (log ++ [e]) := by
  intro before f after heq
  rcases eq_nil_or_concat after with rfl | ⟨init, last, rfl⟩
  · obtain ⟨rfl, hlast⟩ := append_inj' heq rfl
    obtain rfl := (List.cons.inj hlast).1
    exact ⟨hanswers, hallowed⟩
  · have heq' : log ++ [e] = (before ++ f :: init) ++ [last] := by simpa using heq
    exact h before f init (append_inj' heq' rfl).1

theorem Sound.of_append {rest : List Logged} (h : Sound env (log ++ rest)) : Sound env log :=
  fun before e after heq => h before e (after ++ rest) (by simp [heq])

/-- What a history keeps: a step appends one operation that its task may perform. -/
theorem sound_of_reachable {start s : TokenSystem} (hstart : start.world.log = [])
    (hfree : ∀ i, start.tasks i = none) (hsteps : Relation.ReflTransGen (TokenStep env) start s) :
    Sound env s.world.log := by
  refine (invariant (I := fun w => Sound env w.log) ?_ ?_ (fun x i w h => startable_obeys h) hsteps ?_ ?_).1
  · rintro w i op r w' hsound hallowed ⟨hanswers, rfl⟩
    refine ⟨hsound.concat hanswers hallowed, fun j hj => ⟨le_rfl, ?_⟩⟩
    simp [own, Ne.symm hj]
  · rintro w w' hsound ⟨hnow, hlog⟩
    exact ⟨hlog ▸ hsound, fun j => ⟨hnow, by rw [hlog]⟩⟩
  · rw [hstart]
    intro before e after heq
    simp at heq
  · intro i x hx
    rw [hfree i] at hx
    cases hx

theorem keyringOf_concat (e : Logged) : keyringOf (log ++ [e]) = e.event.store (keyringOf log) := by
  simp [keyringOf]

theorem store_some {keyring : String → Option VaultEntry} {user : String}
    (h : event.store keyring user = some entry) :
    event = ⟨.save user entry, .ok ()⟩ ∨ keyring user = some entry := by
  unfold NetEvent.store at h
  split at h
  · grind
  · grind
  · exact .inr h

/-- What is in the keyring was stored. -/
theorem saved_of_keyringOf {user : String} (h : keyringOf log user = some entry) :
    ∃ before j time after, log = before ++ ⟨j, time, ⟨.save user entry, .ok ()⟩⟩ :: after := by
  induction log using List.reverseRecOn with
  | nil => cases h
  | append_singleton log e ih =>
    rw [keyringOf_concat] at h
    rcases store_some h with hevent | h
    · exact ⟨log, e.task, e.time, [], by rw [← hevent]⟩
    · grind

theorem split_of_mem_own {i : Nat} {time : Int} (h : (time, event) ∈ own i log) :
    ∃ before after, log = before ++ ⟨i, time, event⟩ :: after := by
  obtain ⟨⟨j, t, e⟩, hmem, heq⟩ := mem_map.mp h
  obtain ⟨rfl, rfl⟩ := Prod.mk.inj heq
  obtain ⟨hlog, htask⟩ := mem_filter.mp hmem
  obtain rfl : j = i := by simpa using htask
  exact append_of_mem hlog

/-- The entry was stored at `savedAt`, for the token that a response of a host of the identity `user` declared. -/
def Imported (env : NetEnv) (log : List Logged) (user : String) (entry : VaultEntry) (auth : MizuAuthSetHeader)
    (savedAt : Int) : Prop :=
  ∃ before j after, log = before ++ ⟨j, savedAt, ⟨.save user entry, .ok ()⟩⟩ :: after ∧
    Granted env (own j before) user auth ∧ entry.token = auth.token

/-- An entry that was loaded was imported, with what the import made sure of. -/
theorem Sound.imported (h : Sound env log) {i : Nat} {user : String}
    (hchecked : Checked (own i log) user entry) : ∃ auth savedAt, Imported env log user entry auth savedAt ∧
      (∀ m ∈ entry.allowedMethods, m ∈ auth.scope ∧ ∃ p ∈ permittedHttpMethods, eqIgnoreAsciiCase p m = true) ∧
      (entry.exp : Int) ≤ max 0 savedAt + env.maxTokenTtlSecs := by
  obtain ⟨_, loadTime, _, _, _, hown, -⟩ := hchecked
  have hmem : (loadTime, (⟨.load user, .ok (some entry)⟩ : NetEvent)) ∈ own i log := by simp [hown]
  obtain ⟨loaded, rest, rfl⟩ := split_of_mem_own hmem
  have hkeyring : some entry = keyringOf loaded user := (h loaded _ rest rfl).1
  obtain ⟨before, j, savedAt, after, rfl⟩ := saved_of_keyringOf hkeyring.symm
  rw [append_assoc, cons_append] at h
  obtain ⟨-, auth, hgranted, htoken, hmethods, hexp⟩ := h before _ _ rfl
  exact ⟨auth, savedAt, ⟨before, j, _, by rw [append_assoc, cons_append], hgranted, htoken⟩,
    hmethods, hexp⟩

end History

theorem processMizuAuthSet_error {env : NetEnv} {value domain : String} {trace : List NetEvent} {e : MizuError}
    (h : Run (processMizuAuthSet env value domain) trace (.error e)) :
    ∀ event ∈ trace, ∀ keyring, event.store keyring = keyring := by
  unfold processMizuAuthSet at h
  split at h
  · obtain ⟨rfl, -⟩ := run_throw_iff.mp h
    simp
  split at h
  · obtain ⟨rfl, -⟩ := run_throw_iff.mp h
    simp
  rcases run_bind_iff.mp h with ⟨_, -, hclock⟩ | ⟨now, first, rest, rfl, hclock, h₁⟩
  · obtain ⟨reading, rfl, -⟩ := run_query_iff.mp hclock
    simp [NetEvent.store]
  clear h
  obtain ⟨reading, rfl, -⟩ := run_query_iff.mp hclock
  rcases run_bind_iff.mp h₁ with ⟨_, -, hentry⟩ | ⟨entry, first, rest, rfl, hentry, h₂⟩
  · obtain ⟨rfl, -⟩ := run_known_iff.mp hentry
    simp [NetEvent.store]
  clear h₁
  obtain ⟨rfl, -⟩ := run_known_iff.mp hentry
  obtain ⟨saved, rfl, heq⟩ := run_query_iff.mp h₂
  obtain rfl : saved = .error e := heq.symm
  simp [NetEvent.store]

/-- A response that is refused leaves the keyring as it is. -/
theorem importHttpResponse_error {env : NetEnv}
    {trace : List NetEvent} {e : MizuError} (h : Run (importHttpResponse env response domain) trace (.error e)) :
    ∀ event ∈ trace, ∀ keyring, event.store keyring = keyring := by
  unfold importHttpResponse at h
  split at h
  · rename_i text hsuccess hbind
    rcases run_bind_iff.mp h with ⟨e, -, hprocess⟩ | ⟨_, first, rest, rfl, hprocess, hrest⟩
    · exact processMizuAuthSet_error hprocess
    · -- a token that was stored ends the response well
      obtain ⟨value, hvalue, htext⟩ := bind_eq_some_iff.mp hbind
      obtain ⟨-, hresult⟩ := run_known_iff.mp hrest
      simp [parseHttpResponse, hsuccess, hvalue, htext, Except.map] at hresult
  · obtain ⟨rfl, -⟩ := run_known_iff.mp h
    simp

/-- The token of a request was granted by a host of the same identity for the request's method, and had not
expired when the request looked it up; a header that is refused changes nothing. -/
theorem token_confined {env : NetEnv} (hupper : AsciiUppercase env.toUppercase) {start s : TokenSystem}
    (hstart : start.world.log = []) (hfree : ∀ i, start.tasks i = none)
    (hsteps : Relation.ReflTransGen (TokenStep env) start s) :
    (∀ before i time request sent after value,
      s.world.log = before ++ ⟨i, time, ⟨.sendRequest request, sent⟩⟩ :: after →
      request.authorization = some value →
      ∃ entry auth savedAt, value = "Bearer " ++ entry.token ∧
        Imported env before (env.identity request.host) entry auth savedAt ∧
        request.method ∈ permittedHttpMethods ∧ (∃ m ∈ auth.scope, eqIgnoreAsciiCase m request.method = true) ∧
        Checked (own i before) (env.identity request.host) entry ∧
        (entry.exp : Int) ≤ max 0 savedAt + env.maxTokenTtlSecs) ∧
    ∀ response domain trace e, Run (importHttpResponse env response domain) trace (.error e) →
      ∀ event ∈ trace, ∀ keyring, NetEvent.store keyring event = keyring := by
  refine ⟨fun before i time request sent after value hlog hvalue => ?_, fun _ _ _ _ => importHttpResponse_error⟩
  have hsound := sound_of_reachable hstart hfree hsteps
  obtain ⟨entry, method, hbearer, hchecked, hmethod, hscope⟩ := (hsound before _ after hlog).2 value hvalue
  rw [hlog] at hsound
  obtain ⟨auth, savedAt, himported, hmethods, hexp⟩ := hsound.of_append.imported hchecked
  rw [hmethod] at hscope ⊢
  obtain ⟨hpermitted, m, hm, hcase⟩ := permitted_of_checkScope hupper (fun m hm => (hmethods m hm).2) hscope
  exact ⟨entry, auth, savedAt, hbearer, himported, hpermitted, ⟨m, (hmethods m hm).1, hcase⟩, hchecked, hexp⟩

/-! ### A history

A token is granted before the epoch and used a day later, by a request whose connection takes long. -/

/-- The answers to a task, with their times, fit the world. -/
def Plausible (i : Nat) : NetWorld → List (Int × NetEvent) → Prop
  | _, [] => True
  | w, (time, event) :: rest =>
    w.now ≤ time ∧ Answers ⟨time, w.log⟩ event ∧ Plausible i ⟨time, w.log ++ [⟨i, time, event⟩]⟩ rest

/-- A task can get these answers, whatever the others do. -/
theorem world_reaches_of_run {env : NetEnv} {i : Nat} {w : NetWorld} {x : NetTask Unit}
    {result : Except MizuError Unit} {tasks : Nat → Option (NetTask Unit)} (htask : tasks i = some x)
    (hrun : Run x (events.map (·.2)) result) (h : Plausible i w events) :
    ∃ now tasks', Relation.ReflTransGen (TokenStep env) ⟨w, tasks⟩
      ⟨⟨now, w.log ++ events.map fun e => ⟨i, e.1, e.2⟩⟩, tasks'⟩ ∧ now = (events.map (·.1)).getLastD w.now ∧
      ∀ j, j ≠ i → tasks' j = tasks j := by
  induction events generalizing w x tasks with
  | nil => exact ⟨w.now, tasks, by simpa using .refl, rfl, fun _ _ => rfl⟩
  | cons e events ih =>
    obtain ⟨time, op, r⟩ := e
    obtain ⟨hnow, hanswers, hrest⟩ := h
    cases hrun with
    | ask hrun =>
      rename_i k
      have hpass : TokenStep env ⟨w, tasks⟩ ⟨⟨time, w.log⟩, tasks⟩ := .ambient ⟨hnow, rfl⟩
      have hperform : TokenStep env ⟨⟨time, w.log⟩, tasks⟩
          ⟨⟨time, w.log ++ [⟨i, time, ⟨op, r⟩⟩]⟩, Function.update tasks i (some (k r))⟩ :=
        .perform htask ⟨hanswers, rfl⟩
      obtain ⟨now, tasks', hsteps, hlast, hothers⟩ := ih (Function.update_self i _ tasks) hrun hrest
      refine ⟨now, tasks', .head hpass (.head hperform (by simpa using hsteps)), ?_, fun j hj => ?_⟩
      · rw [hlast, map_cons, getLastD_cons]
      · rw [hothers j hj, Function.update_of_ne hj]

def demoGrantRequest : H3Request := ⟨"GET", "https://a.mizu/login", "a.mizu", none, none, []⟩

def demoTokenRequest : H3Request := ⟨"GET", "https://a.mizu/data", "a.mizu", some "Bearer tok", none, []⟩

def demoGrantHead : ResponseHead :=
  ⟨200, "200 OK", none, some ("tok SCOPE=get EXP=999999999".toList.map fun c => UInt8.ofNat c.toNat)⟩

def demoEntry : VaultEntry := ⟨"tok", ["get"], 86400, by decide⟩

def demoAddr : SocketAddr := ⟨.v4 ⟨93, 184, 216, 34⟩, 443⟩

def demoGrant : List (Int × NetEvent) := [
  (-100, ⟨.load "a.mizu", .ok none⟩),
  (-100, ⟨.resolveDomain "a.mizu" false, .ok demoAddr⟩),
  (-100, ⟨.getOrConnect demoAddr "a.mizu", .ok ()⟩),
  (-100, ⟨.sendRequest demoGrantRequest, .ready ()⟩),
  (-100, ⟨.finish demoGrantRequest, ⟨.ready (), true⟩⟩),
  (-100, ⟨.recvResponse demoGrantRequest, .ready demoGrantHead⟩),
  (-100, ⟨.recvData demoGrantRequest, ⟨[], .ready ()⟩⟩),
  (-100, ⟨.clock, none⟩),
  (-100, ⟨.save "a.mizu" demoEntry, .ok ()⟩)]

def demoWait : List (Int × NetEvent) := [
  (10, ⟨.load "a.mizu", .ok (some demoEntry)⟩),
  (10, ⟨.clock, some 10⟩),
  (10, ⟨.resolveDomain "a.mizu" false, .ok demoAddr⟩),
  (90000, ⟨.getOrConnect demoAddr "a.mizu", .ok ()⟩)]

def demoUse : List (Int × NetEvent) := [
  (90000, ⟨.sendRequest demoTokenRequest, .ready ()⟩),
  (90000, ⟨.finish demoTokenRequest, ⟨.ready (), true⟩⟩),
  (90000, ⟨.recvResponse demoTokenRequest, .ready ⟨200, "200 OK", none, none⟩⟩),
  (90000, ⟨.recvData demoTokenRequest, ⟨[], .ready ()⟩⟩)]

def demoTokenStart : TokenSystem := ⟨⟨-100, []⟩, fun _ => none⟩

def demoLog (i : Nat) (events : List (Int × NetEvent)) : List Logged := events.map fun e => ⟨i, e.1, e.2⟩

def demoTask (url : String) : NetTask Unit := do
  let _ ← handleFetch plainNetEnv ⟨NetworkMethod.get.asStr, none, none, []⟩ url
  pure ()

theorem demoGrant_run : Run (demoTask "mizu://a.mizu/login") (demoGrant.map (·.2)) (.ok ()) :=
  run_of_replay (by rfl)

theorem demoUse_run : Run (demoTask "mizu://a.mizu/data") ((demoWait ++ demoUse).map (·.2)) (.ok ()) :=
  run_of_replay (by rfl)

theorem demoGrant_plausible : Plausible 0 ⟨-100, []⟩ demoGrant := by
  simp [Plausible, Answers, demoGrant, keyringOf, clockReading]

theorem demoUse_plausible : Plausible 1 ⟨-100, demoLog 0 demoGrant⟩ (demoWait ++ demoUse) := by
  simp [Plausible, Answers, demoGrant, demoWait, demoUse, keyringOf, clockReading, demoLog, NetEvent.store]

theorem demo_reaches : ∃ s : TokenSystem, Relation.ReflTransGen (TokenStep plainNetEnv) demoTokenStart s ∧
    s.world.log = (demoLog 0 demoGrant ++ demoLog 1 demoWait) ++ demoLog 1 demoUse := by
  have hgrant : TokenStep plainNetEnv demoTokenStart
      ⟨⟨-100, []⟩, Function.update (fun _ => none) 0 (some (demoTask "mizu://a.mizu/login"))⟩ :=
    .start rfl (.fetch .get none none [] _)
  have hfirst : Function.update (fun _ : Nat => (none : Option (NetTask Unit))) 0
      (some (demoTask "mizu://a.mizu/login")) 0 = some (demoTask "mizu://a.mizu/login") := Function.update_self ..
  obtain ⟨_, tasks, hgranted, rfl, hothers⟩ := world_reaches_of_run hfirst demoGrant_run demoGrant_plausible
  have hfree : tasks 1 = none := hothers 1 (by decide)
  have huse : TokenStep plainNetEnv ⟨⟨-100, demoLog 0 demoGrant⟩, tasks⟩
      ⟨⟨-100, demoLog 0 demoGrant⟩, Function.update tasks 1 (some (demoTask "mizu://a.mizu/data"))⟩ :=
    .start hfree (.fetch .get none none [] _)
  have hsecond : Function.update tasks 1 (some (demoTask "mizu://a.mizu/data")) 1 =
      some (demoTask "mizu://a.mizu/data") := Function.update_self ..
  obtain ⟨_, _, hused, rfl, -⟩ := world_reaches_of_run hsecond demoUse_run demoUse_plausible
  refine ⟨_, .head hgrant (hgranted.trans (.head huse hused)), ?_⟩
  simp [demoLog]

theorem token_confined_late : ∃ entry auth savedAt, "Bearer tok" = "Bearer " ++ entry.token ∧
    Imported plainNetEnv (demoLog 0 demoGrant ++ demoLog 1 demoWait) "a.mizu" entry auth savedAt ∧
    "GET" ∈ permittedHttpMethods ∧ (∃ m ∈ auth.scope, eqIgnoreAsciiCase m "GET" = true) ∧
    Checked (own 1 (demoLog 0 demoGrant ++ demoLog 1 demoWait)) "a.mizu" entry ∧
    (entry.exp : Int) ≤ max 0 savedAt + 86400 := by
  obtain ⟨s, hsteps, hlog⟩ := demo_reaches
  exact (token_confined (fun _ _ => rfl) rfl (fun _ => rfl) hsteps).1 _ 1 90000 demoTokenRequest _ _ "Bearer tok"
    hlog rfl

/-- The entries that a history stores, and the heads that it receives. -/
def savedEntries (log : List Logged) : List (Int × VaultEntry) :=
  log.filterMap fun
    | ⟨_, time, ⟨.save _ entry, _⟩⟩ => some (time, entry)
    | _ => none

def receivedHeads (log : List Logged) : List ResponseHead :=
  log.filterMap fun
    | ⟨_, _, ⟨.recvResponse _, .ready head⟩⟩ => some head
    | _ => none

/-- The token leaves when it has expired; it is kept for longer than a day after its import, and it covers a
method that its scope spells otherwise. -/
theorem token_unconfined : ∃ s : TokenSystem, Relation.ReflTransGen (TokenStep plainNetEnv) demoTokenStart s ∧
    ∃ before after, s.world.log =
        before ++ ⟨1, 90000, ⟨.sendRequest demoTokenRequest, .ready ()⟩⟩ :: after ∧
      demoTokenRequest.authorization = some "Bearer tok" ∧
      ∀ entry auth savedAt,
        Imported plainNetEnv before (plainNetEnv.identity demoTokenRequest.host) entry auth savedAt →
        ¬(90000 : Int) < entry.exp ∧ ¬(entry.exp : Int) ≤ savedAt + plainNetEnv.maxTokenTtlSecs ∧
          demoTokenRequest.method ∉ auth.scope := by
  obtain ⟨s, hsteps, hlog⟩ := demo_reaches
  refine ⟨s, hsteps, _, _, hlog, rfl, fun entry auth savedAt himported => ?_⟩
  obtain ⟨before, j, after, heq, ⟨time, request, head, value, text, hmem, -, -, -, hvalue, htext, hauth⟩, -⟩ :=
    himported
  have hsaved : (savedAt, entry) ∈ savedEntries (demoLog 0 demoGrant ++ demoLog 1 demoWait) := by
    rw [heq]
    simp [savedEntries]
  have hhead : head ∈ receivedHeads (demoLog 0 demoGrant ++ demoLog 1 demoWait) := by
    obtain ⟨xs, ys, rfl⟩ := split_of_mem_own hmem
    rw [heq]
    simp [receivedHeads]
  obtain ⟨rfl, rfl⟩ : savedAt = -100 ∧ entry = demoEntry := by
    simpa [savedEntries, demoLog, demoGrant, demoWait] using hsaved
  obtain rfl : head = demoGrantHead := by
    simpa [receivedHeads, demoLog, demoGrant, demoWait] using hhead
  obtain rfl := some.inj hvalue
  have htext' : some text = some "tok SCOPE=get EXP=999999999" := htext.symm.trans (by decide)
  obtain rfl := some.inj htext'
  have hauth' : some auth = some ⟨"tok", ["get"], some 999999999⟩ := hauth.symm.trans (by decide)
  obtain rfl := some.inj hauth'
  exact ⟨by decide, by decide, by decide⟩

end Mizu
