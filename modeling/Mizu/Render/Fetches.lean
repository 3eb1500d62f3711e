import Mizu.Render.TabSystem

/-!
# Fetch results and the document that asked

A result carries the tab and the name of a variable; the window forwards it to the document that the
tab's worker runs by then.

* `fetches_stay`: in a run in which no document commits that declares a variable an outstanding fetch
  is for, every result reaches the document that asked, and variables are written from the network
  only where the document calls for it.
* `fetch_reaches_next_document`: it is not so in every run.
-/

namespace Mizu

open List

def Action.callTarget? : Action → Option String
  | .networkCall _ _ _ _ targetVar _ _ => some targetVar
  | _ => none

namespace ReloadPayload

/-- An action of the document. -/
def HasAction (p : ReloadPayload) (a : Action) : Prop :=
  (∃ id, p.clickActions.lookup id = some a) ∨ (∃ id, p.submitActions.lookup id = some a) ∨
    a ∈ p.rootTimerActions

/-- Some network call of the document is for the variable. -/
def CallsFor (p : ReloadPayload) (name : String) : Prop :=
  ∃ a, p.HasAction a ∧ a.callTarget? = some name

end ReloadPayload

/-- A result of a fetch by one document changes no variable of another one, and a document's variable
is written from the network only if it is the target of a call. -/
structure FetchesStay (writes : List NetworkWrite) : Prop where
  foreign : ∀ w ∈ writes, ∀ n, w.ticket = .data n → n ≠ w.document →
    ∀ p, w.receiver = some p → p.interner.get w.name = none
  targets : ∀ w ∈ writes, ∀ p, w.receiver = some p →
    p.interner.get w.name = none ∨ p.CallsFor w.name

def NetworkCmd.target? : NetworkCmd → Option String
  | .fetch _ _ _ targetVar _ _ _ _ => some targetVar
  | _ => none

def NetworkResult.target? : NetworkResult → Option String
  | .success _ targetVar _ | .fetchFailed _ targetVar _ => some targetVar
  | _ => none

namespace TabSystem

variable {F : Frontend} {host : Host} {s t : TabSystem F} {m : TabMove} {chain : Chain}
  {out : TabState F × WindowCtx} {outcome : NavigationOutcome}

/-- The variables that outstanding fetches are for. -/
def awaited (s : TabSystem F) : List String :=
  s.inFlight.filterMap (·.2.target?) ++ s.results.filterMap (·.2.target?)

/-- The result makes the window write the status variable. -/
def showsStatus (s : TabSystem F) (host : Host) : NetworkResult → Bool
  | .success _ _ _ | .error _ _ => true
  | .navigationRedirect _ _ _ => !(s.tab.redirectCount + 1 ≤ host.maxRedirects)
  | _ => false

/-- The next step writes only variables that are called for, and commits no document that declares
one an outstanding fetch is for. -/
structure KeepsFetches (s : TabSystem F) (m : TabMove) : Prop where
  commit : ∀ url source loaded, s.does m = .commits url source → F.Installs url source loaded →
    s.ctx.logicOpen = true → ∀ name ∈ s.awaited, loaded.document.interner.get name = none
  call : ∀ host view gesture method url payload sym format headers acting name p,
    m = .act host →
    s.acting = (view, gesture, .resolvedCall method url payload sym format headers) :: acting →
    s.tab.reachesOut host url = false → s.tab.store.interner.resolve sym = some name →
    s.documents.getLast? = some p → p.interner.get name = none ∨ p.CallsFor name
  status : ∀ host ticket r results p, m = .result host → s.results = (ticket, r) :: results →
    s.showsStatus host r = true → s.ctx.logicOpen = true → s.documents.getLast? = some p →
    p.interner.get TabState.statusVariable = none ∨
      p.CallsFor TabState.statusVariable ∧ ∀ n, ticket = .data n → n = s.documents.length

/-- If the present document declares the variable, it is the one that asked. -/
def Awaits (documents : List ReloadPayload) (ticket : Ticket) (name : String) : Prop :=
  ∀ p, documents.getLast? = some p →
    p.interner.get name = none ∨ p.CallsFor name ∧ ticket = .data documents.length

structure FetchesKept (s : TabSystem F) : Prop where
  commands : ∀ q ∈ s.inFlight, ∀ name, q.2.target? = some name → Awaits s.documents q.1 name
  results : ∀ q ∈ s.results, ∀ name, q.2.target? = some name → Awaits s.documents q.1 name
  writes : FetchesStay s.writes

/-! ## What is sent and written -/

variable {name : String}

theorem mem_awaited_of_command {q : Ticket × NetworkCmd} (h : q ∈ s.inFlight)
    (hname : q.2.target? = some name) : name ∈ s.awaited :=
  mem_append_left _ (mem_filterMap.mpr ⟨q, h, hname⟩)

theorem mem_awaited_of_result {q : Ticket × NetworkResult} (h : q ∈ s.results)
    (hname : q.2.target? = some name) : name ∈ s.awaited :=
  mem_append_right _ (mem_filterMap.mpr ⟨q, h, hname⟩)

theorem answer_target {cmd : NetworkCmd} {c : Completion} {r : NetworkResult}
    (h : cmd.answer c = some r) (hr : r.target? = some name) : cmd.target? = some name := by
  cases cmd with
  | fetch =>
    cases c <;> simp only [NetworkCmd.answer, Option.some.injEq, reduceCtorEq] at h <;> subst h <;>
      first | exact hr | cases hr
  | navigate =>
    cases c <;> simp only [NetworkCmd.answer, Option.some.injEq, reduceCtorEq] at h <;> subst h <;>
      cases hr
  | _ => simp [NetworkCmd.answer] at h

theorem updates_sendLogic (ctx : WindowCtx) (tab : TabId) (name : String) (v : Value) :
    updates (ctx.sendLogic tab (.updateVariable name v)).logicTx =
      if ctx.logicOpen then updates ctx.logicTx ++ [name] else updates ctx.logicTx := by
  unfold WindowCtx.sendLogic
  split <;> simp [updates]

variable {tab : TabState F} {ctx : WindowCtx}

theorem Does.updates_eq_nil
    (h : Does host tab ctx out outcome) (hstays : outcome ≠ .stays) : updates out.2.logicTx = [] := by
  cases outcome with
  | stays => exact absurd rfl hstays
  | dispatches target => simp [h.2.1, updates]
  | commits url source =>
    obtain ⟨tab', -, rfl⟩ := h
    rcases (handleNavigateSuccess_cases host tab' ctx url source).2 with
      ⟨-, -, hsent⟩ | ⟨_, -, hsent | ⟨-, payload, -, hsent⟩⟩ <;> rw [hsent] <;> rfl

/-- A navigation that does nothing to the document sends nothing. -/
theorem navigateToUrl_updates (tab : TabState F) (ctx : WindowCtx) (url : String)
    (initiator : NavigationInitiator) :
    updates (tab.navigateToUrl host ctx.cleared url initiator).2.logicTx = [] := by
  have hnavigates := tab.navigateToUrl_navigates host ctx.cleared url initiator
  by_cases hstays : navigationOutcome host tab.chromeState.committedUrl url initiator = .stays
  · rw [hstays] at hnavigates
    rw [hnavigates.2]
    rfl
  · exact Does.updates_eq_nil hnavigates.does hstays

/-- A result writes the variable it names, and the status variable. -/
theorem processNetworkResult_updates (s : TabSystem F) (host : Host) (r : NetworkResult) :
    ∀ name ∈ updates (s.tab.processNetworkResult host s.ctx.cleared r).2.logicTx,
      r.target? = some name ∨
        name = TabState.statusVariable ∧ s.showsStatus host r = true ∧ s.ctx.logicOpen = true := by
  have hstatus : ∀ (ctx : WindowCtx) (message : String), ctx.logicOpen = s.ctx.logicOpen →
      ∀ name ∈ updates (s.tab.sendStatus ctx message).logicTx, name ∈ updates ctx.logicTx ∨
        name = TabState.statusVariable ∧ s.ctx.logicOpen = true := by
    intro ctx message hopen name hname
    rw [TabState.sendStatus, updates_sendLogic] at hname
    split at hname
    · grind
    · exact .inl hname
  have htarget : ∀ (name' : String) (v : Value), ∀ name ∈ updates
      (s.ctx.cleared.sendLogic s.tab.id (.updateVariable name' v)).logicTx, name = name' := by
    intro name' v name hname
    rw [updates_sendLogic] at hname
    split at hname
    · exact mem_singleton.mp hname
    · cases hname
  intro name hname
  cases r with
  | success id targetVar data =>
    rcases hstatus _ _ (by unfold WindowCtx.sendLogic; split <;> rfl) name hname with hsent | hshown
    · exact .inl (congrArg some (htarget _ _ name hsent).symm)
    · exact .inr ⟨hshown.1, rfl, hshown.2⟩
  | fetchFailed id targetVar e => exact .inl (congrArg some (htarget _ _ name hname).symm)
  | error id e =>
    rcases hstatus s.ctx.cleared _ rfl name hname with hsent | hshown
    · cases hsent
    · exact .inr ⟨hshown.1, rfl, hshown.2⟩
  | navigateSuccess id url source =>
    have hout : Does host s.tab s.ctx _ _ := processNetworkResult_does s (.navigateSuccess id url source)
    rw [Does.updates_eq_nil hout nofun] at hname
    cases hname
  | navigationRedirect id newUrl initiator =>
    simp only [TabState.processNetworkResult, TabState.registerRedirect] at hname
    by_cases hbudget : s.tab.redirectCount + 1 ≤ host.maxRedirects
    · grind [navigateToUrl_updates]
    · simp only [hbudget, decide_false] at hname
      rcases hstatus s.ctx.cleared _ rfl name hname with hsent | hshown
      · cases hsent
      · exact .inr ⟨hshown.1, by simp [showsStatus, hbudget], hshown.2⟩

/-! ## Steps -/

/-- Whatever document the tab had, none that declares an awaited variable was committed. -/
theorem awaits_of_commit {documents : List ReloadPayload} {payload : ReloadPayload} {ticket : Ticket}
    (hname : payload.interner.get name = none) : Awaits (documents ++ [payload]) ticket name := by
  intro p hp
  rw [List.getLast?_concat] at hp
  exact .inl (Option.some.inj hp ▸ hname)

/-- What an operation does to the documents: nothing, or a document is installed. -/
theorem Does.documents (h : Does host tab ctx out outcome) : reloads out.2.logicTx = [] ∨
      ∃ url source loaded payload, outcome = .commits url source ∧ F.Installs url source loaded ∧
        ctx.logicOpen = true ∧ payload.interner = loaded.document.interner ∧
        reloads out.2.logicTx = [payload] := by
  cases outcome with
  | stays => exact .inl h.2.1
  | dispatches target => exact .inl (by simp [h.2.1, reloads])
  | commits url source =>
    obtain ⟨tab', -, rfl⟩ := h
    rcases (handleNavigateSuccess_cases host tab' ctx url source).2 with
      ⟨-, -, hsent⟩ | ⟨loaded, hinstalls, hsent | ⟨hopen, payload, hinterner, hsent⟩⟩
    · exact .inl (by simp [hsent, reloads])
    · exact .inl (by simp [hsent, reloads])
    · exact .inr ⟨url, source, loaded, payload, rfl, hinstalls, hopen, hinterner, by simp [hsent, reloads]⟩

theorem Does.no_fetch (h : Does host tab ctx out outcome) :
    ∀ cmd ∈ out.2.networkTx, cmd.target? = none := by
  cases outcome with
  | stays => simp [h.2.2]
  | dispatches target =>
    obtain ⟨-, -, initiator, hsent⟩ := h
    simp [hsent, NetworkCmd.target?]
  | commits url source =>
    obtain ⟨tab', -, rfl⟩ := h
    simp [(handleNavigateSuccess_cases host tab' ctx url source).1]

/-- Only the log of answers and the count of chains depend on the outcome. -/
theorem settle_fetchesKept {answers : Bool} (h : FetchesKept (s.absorb chain out)) :
    FetchesKept (s.settle chain answers out outcome) := by
  cases outcome <;> exact ⟨h.1, h.2, h.3⟩

theorem absorb_fetchesKept (h : FetchesKept s) (hdocuments : reloads out.2.logicTx = [])
    (hsent : ∀ cmd ∈ out.2.networkTx, ∀ name, cmd.target? = some name →
      Awaits s.documents (s.ticketFor chain cmd) name) : FetchesKept (s.absorb chain out) := by
  have hkeep : (s.absorb chain out).documents = s.documents := by simp [absorb, hdocuments]
  refine ⟨?_, ?_, h.writes⟩
  · intro q hq name hname
    rw [hkeep]
    rcases mem_append.mp hq with hold | hnew
    · exact h.commands q hold name hname
    · grind
  · intro q hq name hname
    rw [hkeep]
    exact h.results q hq name hname

theorem absorb_does_fetchesKept (h : FetchesKept s) (hout : Does host tab ctx out outcome)
    (hcommit : ∀ url source loaded, outcome = .commits url source → F.Installs url source loaded →
      ctx.logicOpen = true → ∀ name ∈ s.awaited, loaded.document.interner.get name = none) :
    FetchesKept (s.absorb chain out) := by
  have hsent : ∀ cmd ∈ out.2.networkTx, ∀ name, cmd.target? = some name → False := by grind [Does.no_fetch]
  rcases Does.documents hout with hnone | ⟨url, source, loaded, payload, hcommits, hinstalls, hopen,
    hinterner, hreload⟩
  · exact absorb_fetchesKept h hnone fun cmd hcmd name hname => (hsent cmd hcmd name hname).elim
  · have hdocuments : (s.absorb chain out).documents = s.documents ++ [payload] := by
      simp [absorb, hreload]
    have hfresh : ∀ name ∈ s.awaited, payload.interner.get name = none :=
      hinterner ▸ hcommit url source loaded hcommits hinstalls hopen
    refine ⟨?_, ?_, h.writes⟩
    · intro q hq name hname
      rw [hdocuments]
      rcases mem_append.mp hq with hold | hnew
      · exact awaits_of_commit (hfresh name (mem_awaited_of_command hold hname))
      · grind
    · intro q hq name hname
      rw [hdocuments]
      exact awaits_of_commit (hfresh name (mem_awaited_of_result hq hname))

/-- Writes to variables that are awaited, or to the status variable. -/
theorem writesOf_stay {ticket : Ticket} {logicTx : List (TabId × UiEvent)}
    (h : FetchesStay s.writes)
    (hnames : ∀ name ∈ updates logicTx, ∀ p, s.documents.getLast? = some p →
      p.interner.get name = none ∨
        p.CallsFor name ∧ ∀ n, ticket = .data n → n = s.documents.length) :
    FetchesStay (s.writes ++ s.writesOf ticket logicTx) where
  foreign w hw n hn hne p hp := by
    rcases mem_append.mp hw with hold | hnew
    · exact h.foreign w hold n hn hne p hp
    · obtain ⟨name, hname, rfl⟩ := mem_map.mp hnew
      rcases hnames name hname p hp with hnone | ⟨-, hticket⟩
      · exact hnone
      · exact absurd (hticket n hn) hne
  targets w hw p hp := by
    rcases mem_append.mp hw with hold | hnew
    · exact h.targets w hold p hp
    · obtain ⟨name, hname, rfl⟩ := mem_map.mp hnew
      exact (hnames name hname p hp).imp_right And.left

theorem step_fetchesKept (h : FetchesKept s) (hgood : s.KeepsFetches m) (hstep : s.step m = some t) :
    FetchesKept t := by
  cases moves_of_step hstep with
  | nothing => exact h
  | event hview he =>
    refine absorb_fetchesKept h ?_ ?_
    · rename_i tab e _
      simp only [WindowCtx.sendLogic]
      split
      · cases e with
        | reload payload => exact absurd rfl (he payload)
        | _ => rfl
      · rfl
    · intro cmd hcmd
      simp only [WindowCtx.sendLogic] at hcmd
      split at hcmd <;> cases hcmd
  | navigation hhost hacting hdoes hout =>
    refine settle_fetchesKept (absorb_does_fetchesKept h hout fun url source loaded hcommits => ?_)
    exact hgood.commit url source loaded (hdoes.trans hcommits)
  | drainError | drainOk | answer => exact ⟨h.1, h.2, h.3⟩
  | actNavigate hacting hout =>
    rename_i host view gesture url acting out
    have htook : FetchesKept (s.took view acting) := ⟨h.1, h.2, h.3⟩
    refine settle_fetchesKept (absorb_does_fetchesKept htook hout fun url source loaded hcommits => ?_)
    exact hgood.commit url source loaded hcommits
  | act hacting haction =>
    rename_i host view gesture action acting
    have htook : FetchesKept (s.took view acting) := ⟨h.1, h.2, h.3⟩
    obtain ⟨-, hreload, hsends⟩ := executeAction_sends host s.tab s.ctx gesture action haction
    refine absorb_fetchesKept htook hreload fun cmd hcmd name hname => ?_
    have hsend := hsends cmd hcmd
    cases cmd with
    | fetch =>
      obtain ⟨method, url, payload, sym, format, headers, rfl, hreach, hresolve⟩ := hsend
      obtain rfl := Option.some.inj hname
      intro p hp
      exact (hgood.call host view gesture method url payload sym format headers acting _ p rfl hacting
        hreach hresolve hp).imp_right fun hcalls => ⟨hcalls, rfl⟩
    | _ => cases hname
  | result hresults hacting =>
    rename_i host ticket r results
    have hrec : FetchesKept (s.received results) :=
      ⟨h.1, fun q hq => h.2 q (by rw [hresults]; exact mem_cons_of_mem _ hq), h.3⟩
    have hout : Does host s.tab s.ctx _ _ := processNetworkResult_does s r
    have habsorb : FetchesKept ((s.received results).absorb ticket.chain
        (s.tab.processNetworkResult host s.ctx.cleared r)) := by
      refine absorb_does_fetchesKept hrec hout fun url source loaded hcommits hinstalls hopen name
        hname => ?_
      refine hgood.commit url source loaded ?_ hinstalls hopen name ?_
      · simpa [does, hresults] using hcommits
      · rcases mem_append.mp hname with hcommand | hresult
        · exact mem_append_left _ hcommand
        · refine mem_append_right _ ?_
          rw [hresults, filterMap_cons]
          split
          · exact hresult
          · exact mem_cons_of_mem _ hresult
    have hsettle : FetchesKept ((s.received results).settle ticket.chain ticket.isNavigation
        (s.tab.processNetworkResult host s.ctx.cleared r) (s.resultOutcome host r)) :=
      settle_fetchesKept habsorb
    refine ⟨hsettle.1, hsettle.2, writesOf_stay h.writes fun name hname p hp => ?_⟩
    rcases processNetworkResult_updates s host r name hname with htarget | ⟨rfl, hshows, hopen⟩
    · have hawaits := h.results (ticket, r) (by simp [hresults]) name htarget p hp
      refine hawaits.imp_right fun hcalls => ⟨hcalls.1, fun n hn => ?_⟩
      have hticket : Ticket.data s.documents.length = .data n := hcalls.2.symm.trans hn
      cases hticket
      rfl
    · exact hgood.status host ticket r results p rfl hresults hshows hopen hp
  | complete hcmd hr =>
    rename_i i c ticket cmd r
    have hmem := mem_of_getElem? hcmd
    refine ⟨fun q hq => h.commands q (mem_of_mem_eraseIdx hq), ?_, h.writes⟩
    intro q hq name hname
    rcases mem_append.mp hq with hold | hnew
    · exact h.results q hold name hname
    · obtain rfl := mem_singleton.mp hnew
      exact h.commands (ticket, cmd) hmem name (answer_target hr hname)

/-- The move is no action of a response and commits nothing. -/
def Idle (s : TabSystem F) (m : TabMove) : Prop :=
  match m, s.does m with
  | .act _, _ | _, .commits _ _ => False
  | _, _ => True

instance (s : TabSystem F) (m : TabMove) : Decidable (s.Idle m) := by
  unfold Idle
  split <;> infer_instance

/-- The present document does not have the status variable. -/
def StatusUndeclared (s : TabSystem F) : Prop :=
  ∀ p ∈ s.documents.getLast?, p.interner.get TabState.statusVariable = none

instance (s : TabSystem F) : Decidable s.StatusUndeclared :=
  inferInstanceAs (Decidable (∀ p ∈ s.documents.getLast?, p.interner.get _ = none))

theorem keepsFetches_of_idle (hidle : s.Idle m) (hstatus : s.StatusUndeclared) : s.KeepsFetches m where
  commit url source loaded hcommits := by
    unfold Idle at hidle
    rw [hcommits] at hidle
    cases m <;> exact hidle.elim
  call host view gesture method url payload sym format headers acting name p hm := by
    subst hm
    exact hidle.elim
  status _ _ _ _ p _ _ _ _ hp := .inl (hstatus p hp)

theorem start_fetchesKept (host : Host) (tab : TabState F) (ctx : WindowCtx) :
    FetchesKept (start host tab ctx) where
  commands _ hq := nomatch hq
  results _ hq := nomatch hq
  writes := ⟨fun _ hw => (nomatch hw), fun _ hw => (nomatch hw)⟩

end TabSystem

/-- Results of fetches reach only the document that asked for them, if no other document that
declares their variables commits in the meantime. -/
theorem fetches_stay {F : Frontend} (host : Host) (tab : TabState F) (ctx : WindowCtx)
    {s : TabSystem F}
    (h : Transition.Reaches TabSystem.step TabSystem.KeepsFetches (.start host tab ctx) s) :
    FetchesStay s.writes :=
  (h.invariant (I := TabSystem.FetchesKept) (TabSystem.start_fetchesKept host tab ctx)
    fun _ _ _ hs hgood hstep => TabSystem.step_fetchesKept hs hgood hstep).writes

/-- A navigation that fails is shown in a variable that the document does not have. -/
theorem fetches_stay_failure :
    ∃ s : TabSystem plainFrontend, s.writes.map (·.name) = [TabState.statusVariable] ∧
      FetchesStay s.writes := by
  obtain ⟨s, hreaches, hwrites⟩ := Transition.exists_reaches_of_run TabSystem.step
    (fun s m => s.Idle m ∧ s.StatusUndeclared) plainStart
    [.openUrl plainHost "mizu://b.mizu/", .complete 0 (.failed (.network "")),
      .result plainHost]
    (p := fun s => s.writes.map (·.name) == [TabState.statusVariable]) (by decide +kernel)
  exact ⟨s, eq_of_beq hwrites, fetches_stay plainHost (plainTab plainFrontend () "mizu://a.mizu/")
    plainCtx (hreaches.mono fun s m hidle => TabSystem.keepsFetches_of_idle hidle.1 hidle.2)⟩

/-! ## A result that comes late -/

/-- A frontend for which every logic block declares the variable `x`. -/
def namingFrontend : Frontend :=
  { plainFrontend with parseLogic := fun _ i => (.ok ⟨∅, []⟩, (i.getOrIntern "x").2) }

def namingTab : TabState namingFrontend :=
  { plainTab namingFrontend () "mizu://a.mizu/" with store := ⟨.new 20000, .ofNames ["x"]⟩ }

def namingSource : String := "logic\n  x : 1\nlayout\n  doc\n"

def fetchingResponse : WorkerResponse :=
  ⟨⟨[]⟩, [.resolvedCall "GET" "mizu://a.mizu/data" none ⟨0⟩ .json []], true⟩

/-- The document of `a.mizu` fetches `x`, `b.mizu` is opened, and its variable `x` receives what
`a.mizu` asked for. -/
theorem fetch_reaches_next_document :
    ¬∀ (F : Frontend) (host : Host) (tab : TabState F) (ctx : WindowCtx) (s : TabSystem F),
      Transition.Reaches TabSystem.step (fun _ _ => True) (.start host tab ctx) s →
        FetchesStay s.writes := by
  intro h
  obtain ⟨s, hreaches, hwrites⟩ := Transition.exists_reaches_of_run TabSystem.step
    (fun _ _ => True) (.start plainHost namingTab plainCtx)
    [.answer 0 (some (.ok emptyResponse)), .drain, .user (.click 0),
      .answer 0 (some (.ok fetchingResponse)), .drain, .act plainHost,
      .openUrl plainHost "mizu://b.mizu/", .complete 1 (.source namingSource), .result plainHost,
      .complete 0 (.received (.string "secret")), .result plainHost]
    (p := fun s => s.writes.any fun w => w.ticket == .data 1 && w.document == 2 &&
      w.receiver.any fun p => (p.interner.get w.name).isSome) (by decide +kernel)
  obtain ⟨w, hw, hforeign⟩ := any_eq_true.mp hwrites
  simp only [Bool.and_eq_true, beq_iff_eq, Option.any_eq_true] at hforeign
  obtain ⟨⟨hticket, hdocument⟩, p, hp, hdeclared⟩ := hforeign
  have hnone := (h namingFrontend plainHost namingTab plainCtx s hreaches).foreign w hw 1 hticket
    (by omega) p hp
  simp [hnone] at hdeclared

end Mizu
