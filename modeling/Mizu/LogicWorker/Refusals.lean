import Mizu.LogicWorker.Mirror
import Mizu.LogicWorker.Paths
import Mizu.WorkerHost.Reader

/-!
# Refused calls

A call is refused because of its alias or because of its path parameter, by a session that resolves its
aliases or by the broker.

* `buildResponse_executes`, `authorizeAll_executes`: what else is in the queue is executed, in order.
* `buildResponse_shows`: the session writes the error of a path parameter into the variable of the call.
* `refusals_contained`: both for every queue and every answer of a worker.
* `refusals_not_shown`: an unknown alias is not shown, and the broker shows nothing.
-/

namespace Mizu

open Exec List

/-! ## Refusals -/

inductive Refusal where
  /-- The alias is not in the urls block. -/
  | undeclared
  | parameter (e : MizuError)

section Refused

variable (documentDomain : String) (registry : UrlRegistry)

/-- The target variable of a call that is refused, and why. -/
def RuntimeAction.refused : RuntimeAction → Option (Symbol × Refusal)
  | .networkCall _ sym _ pathParam target _ _ =>
    match registry.lookup ⟨sym⟩ with
    | .none => some (target, .undeclared)
    | some ep =>
      match resolveEndpointUrl documentDomain ep pathParam with
      | .ok _ => .none
      | .error e => some (target, .parameter e)
  | _ => .none

/-- What is executed of an action. -/
def RuntimeAction.granted : RuntimeAction → Option RuntimeAction
  | .none => .none
  | .networkCall method sym payload pathParam target format headers =>
    match registry.lookup ⟨sym⟩ with
    | .none => .none
    | some ep =>
      match resolveEndpointUrl documentDomain ep pathParam with
      | .ok url => some (.resolvedCall method.asStr url payload target format headers)
      | .error _ => .none
  | .downloadAlias sym => (registry.lookup ⟨sym⟩).map fun ep => .downloadMedia ep.rawTarget
  | a => some a

end Refused

/-- Refused calls are not sent, and every other action is executed, in order. -/
structure RefusalsContained (documentDomain : String) (registry : UrlRegistry) (queue emitted : List RuntimeAction) :
    Prop where
  executes : executed emitted = queue.filterMap (·.granted documentDomain registry)
  unsent : ∀ a ∈ queue, ∀ refusal, a.refused documentDomain registry = some refusal →
    a.granted documentDomain registry = none
  others : ∀ a ∈ queue, a.refused documentDomain registry = none → a ≠ .none →
    (∀ sym, a = .downloadAlias sym → ⟨sym⟩ ∈ registry) → ∃ b, a.granted documentDomain registry = some b

/-- What the broker takes from a worker at all. -/
def RuntimeAction.presentable (agency : EventAgency) : RuntimeAction → Bool
  | resolvedCall _ _ _ _ _ _ | downloadMedia _ => false
  | navigate _ => agency.isUserGesture
  | _ => true

section Granted

variable {documentDomain : String} {registry : UrlRegistry} {a b : RuntimeAction}

theorem granted_of_refused {refusal : Symbol × Refusal} (h : a.refused documentDomain registry = some refusal) :
    a.granted documentDomain registry = none := by
  cases a with
  | networkCall method sym payload pathParam target format headers =>
    grind [RuntimeAction.refused, RuntimeAction.granted]
  | _ => cases h

/-- Everything else is executed, but for a download without a URL. -/
theorem granted_of_not_refused (h : a.refused documentDomain registry = none) (hnone : a ≠ .none)
    (hdownload : ∀ sym, a = .downloadAlias sym → ⟨sym⟩ ∈ registry) :
    ∃ b, a.granted documentDomain registry = some b := by
  cases a with
  | none => exact absurd rfl hnone
  | networkCall method sym payload pathParam target format headers =>
    simp only [RuntimeAction.refused] at h
    simp only [RuntimeAction.granted]
    cases hlookup : registry.lookup ⟨sym⟩ with
    | none =>
      rw [hlookup] at h
      cases h
    | some ep =>
      rw [hlookup] at h
      dsimp only at h ⊢
      cases hurl : resolveEndpointUrl documentDomain ep pathParam with
      | error e =>
        rw [hurl] at h
        cases h
      | ok url => exact ⟨_, rfl⟩
  | downloadAlias sym =>
    obtain ⟨ep, hep⟩ := Option.isSome_iff_exists.mp (Finmap.lookup_isSome.mpr (hdownload sym rfl))
    exact ⟨_, by rw [RuntimeAction.granted, hep]; rfl⟩
  | _ => exact ⟨_, rfl⟩

theorem granted_isNone (h : a.granted documentDomain registry = some b) : b.isNone = false := by
  cases a with
  | none => cases h
  | networkCall method sym payload pathParam target format headers =>
    simp only [RuntimeAction.granted] at h
    split at h
    · cases h
    split at h
    · cases h
      rfl
    · cases h
  | downloadAlias sym =>
    obtain ⟨ep, -, rfl⟩ := Option.map_eq_some_iff.mp h
    rfl
  | _ =>
    cases h
    rfl

end Granted

/-! ## What is executed -/

section Executes

variable {t : TabSession} {documentDomain : String} {registry : UrlRegistry} {agency : EventAgency}

theorem executed_cons (a : RuntimeAction) (actions : List RuntimeAction) :
    executed (a :: actions) = if a.isNone then executed actions else a :: executed actions := by
  cases h : a.isNone <;> simp [executed, h]

theorem resolveOneAction_granted (hresolve : t.deferAliasResolution = false) (a : RuntimeAction) :
    (resolveOneAction t a).1 = (a.granted t.documentDomain t.urlRegistry).getD .none := by
  simp only [resolveOneAction, hresolve, Bool.false_eq_true, if_false]
  cases a with
  | networkCall | downloadAlias => grind [RuntimeAction.granted]
  | _ => rfl

theorem buildResponse_executes (platform : Platform) (gesture : Bool) (hresolve : t.deferAliasResolution = false) :
    executed (t.buildResponse platform gesture).1.runtimeActions =
      t.store.evaluator.accumulatedActions.filterMap (·.granted t.documentDomain t.urlRegistry) := by
  have hactions : (t.buildResponse platform gesture).1.runtimeActions =
      t.store.evaluator.accumulatedActions.map fun a => (a.granted t.documentDomain t.urlRegistry).getD .none := by
    unfold TabSession.buildResponse
    dsimp only
    rw [map_map]
    exact map_congr_left fun a _ => resolveOneAction_granted hresolve a
  rw [hactions]
  generalize t.store.evaluator.accumulatedActions = queue
  induction queue with
  | nil => rfl
  | cons a queue ih =>
    rw [map_cons, executed_cons, filterMap_cons, ih]
    cases hgranted : a.granted t.documentDomain t.urlRegistry with
    | none => rfl
    | some b => rw [Option.getD_some, granted_isNone hgranted]; rfl

/-- The broker's verdict on an action it takes at all. -/
theorem authorizeAction_granted (a : RuntimeAction) :
    executed (authorizeAction a documentDomain registry agency).toOption.toList =
      if a.presentable agency then (a.granted documentDomain registry).toList else [] := by
  cases a with
  | networkCall method sym payload pathParam target format headers =>
    simp only [authorizeAction, lookupEndpoint, RuntimeAction.granted, RuntimeAction.presentable]
    cases registry.lookup ⟨sym⟩ with
    | none => rfl
    | some ep =>
      show executed (Except.bind (resolveEndpointUrl documentDomain ep pathParam) _).toOption.toList = _
      dsimp only
      cases resolveEndpointUrl documentDomain ep pathParam <;> rfl
  | downloadAlias sym =>
    simp only [authorizeAction, lookupEndpoint, RuntimeAction.granted, RuntimeAction.presentable]
    cases registry.lookup ⟨sym⟩ <;> rfl
  | navigate url =>
    rw [authorizeAction, show (RuntimeAction.navigate url).presentable agency = agency.isUserGesture from rfl]
    by_cases hgesture : agency.isUserGesture = true
    · rw [if_pos hgesture, if_pos hgesture]
      rfl
    · rw [if_neg hgesture, if_neg hgesture]
      rfl
  | _ => rfl

theorem authorizeAll_executes (actions : List RuntimeAction) :
    executed (authorizeAll actions agency registry documentDomain) =
      (actions.filter (·.presentable agency)).filterMap (·.granted documentDomain registry) := by
  induction actions with
  | nil => rfl
  | cons a actions ih =>
    have hone := @authorizeAction_granted documentDomain registry agency a
    have happend (xs ys : List RuntimeAction) : executed (xs ++ ys) = executed xs ++ executed ys :=
      filter_append ..
    have hcons : authorizeAll (a :: actions) agency registry documentDomain =
        (authorizeAction a documentDomain registry agency).toOption.toList ++
          authorizeAll actions agency registry documentDomain := by
      unfold authorizeAll
      rw [filterMap_cons]
      cases authorizeAction a documentDomain registry agency <;> rfl
    rw [hcons, happend, hone, ih, filter_cons]
    split
    · rw [filterMap_cons]
      cases a.granted documentDomain registry <;> rfl
    · rfl

end Executes

/-! ## What is shown -/

/-- Whoever applies the update has an error in the variable. -/
def ShowsError (update : List (Symbol × Value)) (target : Symbol) : Prop :=
  ∀ (F : Frontend) (tab : TabState F), ∃ message,
    (tab.applyMutations update).store.evaluator.getGlobal target = .string ("error: " ++ message)

theorem applyMutations_all {F : Frontend} {p : Value → Prop} (tab : TabState F) {update : List (Symbol × Value)}
    {sym : Symbol} (hmem : sym ∈ update.map (·.1)) (h : ∀ entry ∈ update, p entry.2) :
    p ((tab.applyMutations update).store.evaluator.getGlobal sym) := by
  induction update using List.reverseRecOn with
  | nil => cases hmem
  | append_singleton update entry ih =>
    rw [applyMutations_append]
    show p (((tab.applyMutations update).store.evaluator.setGlobal entry.1 entry.2).getGlobal sym)
    by_cases hsym : sym = entry.1
    · rw [hsym, Evaluator.getGlobal_setGlobal_self]
      exact h entry (by simp)
    · rw [Evaluator.getGlobal_setGlobal_of_ne _ hsym]
      refine ih ?_ fun e he => h e (by simp [he])
      simpa [hsym] using hmem

section Shows

variable {t : TabSession}

/-- The messages for variables that are declared. -/
def surfaced (interner : Interner) (errors : List (String × Value)) : List (Symbol × Value) :=
  errors.filterMap fun error => (interner.get error.1).map fun sym => (sym, error.2)

theorem foldl_surface (errors : List (String × Value)) (mutated : List (Symbol × Value)) :
    (errors.foldl TabSession.surface (t, mutated)).2 = mutated ++ surfaced t.store.interner errors := by
  induction errors generalizing t mutated with
  | nil => simp [surfaced]
  | cons error errors ih =>
    rw [foldl_cons, TabSession.surface]
    cases hget : t.store.interner.get error.1 with
    | none =>
      rw [ih]
      simp [surfaced, hget]
    | some sym =>
      have hinterner : (t.setRuntime error.1 error.2).store.interner = t.store.interner :=
        VariableStore.setRuntime_interner _ _ _
      rw [ih, hinterner]
      simp [surfaced, hget]

variable {a : RuntimeAction}

theorem resolveOneAction_error {error : String × Value} (h : error ∈ (resolveOneAction t a).2) :
    ∃ message, error.2 = .string ("error: " ++ message) := by
  have halias (name : String) : "error: endpoint alias `" ++ name ++ "` is not declared in the urls block" =
      "error: " ++ ("endpoint alias `" ++ name ++ "` is not declared in the urls block") := by
    rw [← String.append_assoc, ← String.append_assoc]
    rfl
  simp only [resolveOneAction] at h
  split at h
  · cases h
  split at h
  · grind
  · split at h <;> cases h
  · cases h

/-- The message of a path parameter is for the variable of the call. -/
theorem resolveOneAction_parameter {target : Symbol} {e : MizuError} {name : String}
    (hresolve : t.deferAliasResolution = false)
    (hrefused : a.refused t.documentDomain t.urlRegistry = some (target, .parameter e))
    (hname : t.store.interner.resolve target = some name) :
    (name, .string ("error: " ++ e.display)) ∈ (resolveOneAction t a).2 := by
  cases a with
  | networkCall method sym payload pathParam target' format headers =>
    simp only [RuntimeAction.refused] at hrefused
    simp only [resolveOneAction, hresolve, Bool.false_eq_true, if_false]
    cases hlookup : t.urlRegistry.lookup ⟨sym⟩ with
    | none =>
      rw [hlookup] at hrefused
      cases hrefused
    | some ep => grind
  | _ => cases hrefused

/-- The session writes the error of a path parameter into the variable of the call. -/
theorem buildResponse_shows (platform : Platform) (gesture : Bool) (hnames : t.store.interner.WellFormed)
    (hresolve : t.deferAliasResolution = false) {target : Symbol} {e : MizuError}
    {name : String} (ha : a ∈ t.store.evaluator.accumulatedActions)
    (hrefused : a.refused t.documentDomain t.urlRegistry = some (target, .parameter e))
    (hname : t.store.interner.resolve target = some name) :
    let update := (t.buildResponse platform gesture).1.stateUpdate.mutatedVariables
    (target, .string ("error: " ++ e.display)) ∈ update ∧ ShowsError update target := by
  have hupdate : (t.buildResponse platform gesture).1.stateUpdate.mutatedVariables =
      mutatedVariables platform t.store.evaluator ++ surfaced t.store.interner
        ((t.store.evaluator.accumulatedActions.map (resolveOneAction t)).flatMap (·.2)) := by
    unfold TabSession.buildResponse
    exact foldl_surface _ _
  have hentry : (target, .string ("error: " ++ e.display)) ∈ surfaced t.store.interner
      ((t.store.evaluator.accumulatedActions.map (resolveOneAction t)).flatMap (·.2)) := by
    refine mem_filterMap.mpr ⟨(name, .string ("error: " ++ e.display)), ?_, ?_⟩
    · grind [mem_map_of_mem, resolveOneAction_parameter]
    · rw [hnames.get_of_resolve hname]
      rfl
  intro update
  rw [show update = _ from hupdate]
  refine ⟨mem_append_right _ hentry, fun F tab => ?_⟩
  rw [applyMutations_append]
  -- Whatever else is written to the variable, the messages come last.
  refine applyMutations_all (p := fun v => ∃ message, v = .string ("error: " ++ message)) _
    (mem_map_of_mem (f := (·.1)) hentry) fun entry hmem => ?_
  obtain ⟨error, herror, hsome⟩ := mem_filterMap.mp hmem
  obtain ⟨sym, -, rfl⟩ := Option.map_eq_some_iff.mp hsome
  obtain ⟨resolved, hresolved, herror⟩ := mem_flatMap.mp herror
  obtain ⟨a', -, rfl⟩ := mem_map.mp hresolved
  exact resolveOneAction_error herror

end Shows

/-! ## Both ways -/

theorem RefusalsContained.of_executes {documentDomain : String} {registry : UrlRegistry}
    {queue emitted : List RuntimeAction}
    (h : executed emitted = queue.filterMap (·.granted documentDomain registry)) :
    RefusalsContained documentDomain registry queue emitted where
  executes := h
  unsent _ _ _ hrefused := granted_of_refused hrefused
  others _ _ hrefused hnone hdownload := granted_of_not_refused hrefused hnone hdownload

/-- A session that resolves its aliases contains its refusals and shows the errors of path parameters; the
broker contains its own and leaves the update as the worker sent it. -/
theorem refusals_contained :
    (∀ (platform : Platform) (gesture : Bool) (t : TabSession), t.store.interner.WellFormed →
      t.deferAliasResolution = false →
      let queue := t.store.evaluator.accumulatedActions
      let response := (t.buildResponse platform gesture).1
      RefusalsContained t.documentDomain t.urlRegistry queue response.runtimeActions ∧
        ∀ a ∈ queue, ∀ target e name, a.refused t.documentDomain t.urlRegistry = some (target, .parameter e) →
          t.store.interner.resolve target = some name →
          (target, .string ("error: " ++ e.display)) ∈ response.stateUpdate.mutatedVariables ∧
            ShowsError response.stateUpdate.mutatedVariables target) ∧
    (∀ (debug : WireWorkerError → String) (policy : TabPolicy) (envelope : WireWorkerEnvelope)
      (response : WorkerResponse), (readerStep debug policy envelope).2 = some (.ok response) →
      ∃ agency wire sent, policy.pending.head? = some agency ∧ envelope = .ok wire ∧
        Rehydrate.workerResponse wire = .ok sent ∧ response.stateUpdate = sent.stateUpdate ∧
        RefusalsContained policy.documentDomain policy.urlRegistry
          (sent.runtimeActions.filter (·.presentable agency)) response.runtimeActions) := by
  constructor
  · intro platform gesture t hnames hresolve
    exact ⟨.of_executes (buildResponse_executes platform gesture hresolve),
      fun a ha target e name hrefused hname =>
        buildResponse_shows platform gesture hnames hresolve ha hrefused hname⟩
  · intro debug policy envelope response h
    obtain ⟨agency, pending, wire, sent, hpending, rfl, hsent, -, hactions⟩ := readerStep_ok debug h
    have hupdate : response.stateUpdate = sent.stateUpdate := by
      simp only [readerStep, hpending, judge, hsent, Option.some.injEq, Except.ok.injEq] at h
      rw [← h]
    refine ⟨agency, wire, sent, by rw [hpending]; rfl, rfl, hsent, hupdate, .of_executes ?_⟩
    rw [hactions]
    exact authorizeAll_executes _

/-- A call to a declared alias with more than a segment, for the variable `x`. -/
def slashCall : RuntimeAction := .networkCall .get 0 none (some "a/b") ⟨1⟩ .json []

def slashSession : TabSession :=
  { TabSession.new with
    store := ⟨(Evaluator.new defaultMaxInstructions).act slashCall, .ofNames ["users", "x"]⟩
    urlRegistry := (∅ : UrlRegistry).insert ⟨0⟩ ⟨.api, "/users"⟩
    documentDomain := "a.mizu" }

theorem refusals_contained_slash :
    (slashCall.refused "a.mizu" slashSession.urlRegistry).map (·.1) = some ⟨1⟩ ∧
    executed (slashSession.buildResponse .plain true).1.runtimeActions = [] ∧
    ShowsError (slashSession.buildResponse .plain true).1.stateUpdate.mutatedVariables ⟨1⟩ := by
  have hlookup : slashSession.urlRegistry.lookup ⟨0⟩ = some ⟨.api, "/users"⟩ := Finmap.lookup_insert _
  have hrefused : slashCall.refused slashSession.documentDomain slashSession.urlRegistry =
      some (⟨1⟩, .parameter (.executionError "path_param must be a single path segment")) := by
    simp only [slashCall, RuntimeAction.refused, hlookup]
    rfl
  have hqueue : slashCall ∈ slashSession.store.evaluator.accumulatedActions := mem_singleton_self _
  obtain ⟨hcontained, hshows⟩ := refusals_contained.1 .plain true slashSession (Interner.ofNames_wellFormed _) rfl
  refine ⟨congrArg (Option.map (·.1)) hrefused, ?_, (hshows slashCall hqueue ⟨1⟩ _ "x" hrefused rfl).2⟩
  rw [hcontained.executes]
  show List.filterMap _ [slashCall] = []
  rw [filterMap_cons, hcontained.unsent slashCall hqueue _ hrefused]
  rfl

/-! ## Errors that nobody sees -/

/-- A call to an alias that is not declared, for the variable `x`. -/
def undeclaredCall : RuntimeAction := .networkCall .get 0 none none ⟨1⟩ .json []

/-- A session whose queue holds it. -/
def undeclaredSession : TabSession :=
  { TabSession.new with
    store := ⟨(Evaluator.new defaultMaxInstructions).act undeclaredCall, .ofNames ["users", "x"]⟩
    documentDomain := "a.mizu" }

theorem not_showsError_nil (target : Symbol) : ¬ShowsError [] target := by
  intro h
  obtain ⟨message, hmessage⟩ := h plainFrontend (plainTab plainFrontend () "mizu://a.mizu/")
  cases hmessage

/-- The session looks for a variable named `1`, and the broker tells nobody. -/
theorem refusals_not_shown :
    (¬∀ (platform : Platform) (gesture : Bool) (t : TabSession), t.store.interner.WellFormed →
      t.deferAliasResolution = false →
      ∀ a ∈ t.store.evaluator.accumulatedActions, ∀ target why name,
        a.refused t.documentDomain t.urlRegistry = some (target, why) →
        t.store.interner.resolve target = some name →
        ShowsError (t.buildResponse platform gesture).1.stateUpdate.mutatedVariables target) ∧
    ¬∀ (debug : WireWorkerError → String) (policy : TabPolicy) (wire : WireWorkerResponse)
      (sent response : WorkerResponse), Rehydrate.workerResponse wire = .ok sent →
      (readerStep debug policy (.ok wire)).2 = some (.ok response) →
      ∀ a ∈ sent.runtimeActions, ∀ target why,
        a.refused policy.documentDomain policy.urlRegistry = some (target, why) →
        ShowsError response.stateUpdate.mutatedVariables target := by
  constructor
  · intro h
    refine not_showsError_nil ⟨1⟩ (h .plain true undeclaredSession (Interner.ofNames_wellFormed _) rfl
      undeclaredCall
      (by simp [undeclaredSession, Evaluator.act, Evaluator.new]) ⟨1⟩ .undeclared "x" rfl rfl)
  · intro h
    let sent : WorkerResponse := ⟨⟨[]⟩, [undeclaredCall], true⟩
    have harrives : Rehydrate.workerResponse sent.toWire = .ok sent :=
      Rehydrate.workerResponse_toWire (by simp [sent, WorkerResponse.values, undeclaredCall, RuntimeAction.values])
    let response : WorkerResponse :=
      { sent with runtimeActions := authorizeAll sent.runtimeActions .userGesture ∅ "a.mizu", gesture := true }
    refine not_showsError_nil ⟨1⟩ (h (fun _ => "") ⟨[.userGesture], ∅, "a.mizu"⟩ sent.toWire sent response
      harrives ?_ undeclaredCall (mem_singleton_self _) ⟨1⟩ .undeclared rfl)
    simp only [readerStep, judge, harrives]
    rfl

end Mizu
