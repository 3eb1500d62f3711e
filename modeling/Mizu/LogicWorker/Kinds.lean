import Mizu.LogicWorker.Paths

/-!
# The kinds of endpoints

An endpoint is declared as an `api` or as a `media`. Neither the session nor the broker looks at the
kind when it resolves an alias; only the parser of clicks and forms does, and only at the two places
where an action names an alias itself.

* `evaluate_keepsQueue`: what an expression queues, from the calls that stand in its arenas.
* `kinds_respected`: in which runs each resolved call is one of an `api` endpoint and each download
  one of a `media` endpoint.
* `timer_calls_media`: a root timer that calls a `media` endpoint.
-/

namespace Mizu

open Exec List

/-! ## What the calls in an arena can queue -/

section Queue

variable {ctx : EvalCtx}

theorem ExprArena.child_mem {a : ExprArena} {e child : Expr} (he : e ∈ a.nodes) (h : child ∈ a.children e) :
    child ∈ a.nodes :=
  ExprArena.Below.mem_nodes (.step h (.refl _)) he

/-- A site evaluates nodes of its own arena, or the root of a function of the table. -/
theorem Performs.inside {site site' : Site} (h : Performs ctx site site')
    (hmem : site.expr ∈ site.arena.nodes) :
    site'.expr ∈ site'.arena.nodes ∧
      (site'.arena = site.arena ∨
        ∃ f func, ctx.functions.lookup f = some func ∧ site'.arena = func.body.arena) := by
  rcases h with h | ⟨func, vs, t, u, ⟨name, st, len, s₁, -, -, -, hfunc, -, -⟩, -, rfl⟩
  · cases h with
    | branch => grind [ExprArena.children, ExprArena.child_mem]
    | callArg _ _ harg =>
      obtain ⟨harena, hargs⟩ := harg.expr_mem
      rw [harena]
      exact ⟨ExprArena.args_mem hargs, .inl rfl⟩
    | storeKey _ _ hargs => grind [ExprArena.children, ExprArena.child_mem]
    | storeValue _ _ hargs => grind [ExprArena.children, ExprArena.child_mem]
    | _ => exact ⟨ExprArena.child_mem hmem (by simp [ExprArena.children]), .inl rfl⟩
  · exact ⟨ExprArena.get_mem func.body.root_valid, .inr ⟨name, func, hfunc, rfl⟩⟩

/-- Every queued action satisfies `D`. -/
def AllQueued (D : RuntimeAction → Prop) (s : Evaluator) : Prop := ∀ a ∈ s.accumulatedActions, D a

theorem AllQueued.of_nil {D : RuntimeAction → Prop} {s : Evaluator} (h : s.accumulatedActions = []) :
    AllQueued D s := by
  intro a ha
  rw [h] at ha
  cases ha

theorem AllQueued.act {D : RuntimeAction → Prop} {s : Evaluator} {a : RuntimeAction} (h : AllQueued D s)
    (ha : D a) : AllQueued D (s.act a) := by
  intro b hb
  rcases mem_append.mp hb with hb | hb
  · exact h b hb
  · rw [mem_singleton.mp hb]
    exact ha

/-- From `s`, the run adds only actions that satisfy `D`. -/
def KeepsQueue {α : Type} (D : RuntimeAction → Prop) (x : EvalM α) (s : Evaluator) : Prop :=
  AllQueued D s → AllQueued D (finalState (x s))

variable {D : RuntimeAction → Prop}

theorem KeepsQueue.bind {α β : Type} {x : EvalM α} {f : α → EvalM β} {s : Evaluator} (hx : KeepsQueue D x s)
    (hf : ∀ a s', x s = .ok a s' → KeepsQueue D (f a) s') : KeepsQueue D (x >>= f) s := by
  intro hs
  have hmid := hx hs
  rw [bind_apply]
  cases hrun : x s with
  | ok a s' =>
    rw [hrun] at hmid
    exact hf a s' hrun hmid
  | error e s' =>
    rw [hrun] at hmid
    exact hmid

theorem KeepsQueue.onExit {α : Type} {x : EvalM α} {g : Evaluator → Evaluator} {s : Evaluator}
    (hg : ∀ s, (g s).accumulatedActions = s.accumulatedActions) (hx : KeepsQueue D x s) :
    KeepsQueue D (onExit x g) s := by
  intro hs a ha
  rw [onExit_actions x g hg] at ha
  exact hx hs a ha

theorem keepsQueue_logic {site : Site}
    (hsub : ∀ sub, Performs ctx site sub →
      KeepsQueue D (evaluate ctx sub.framePointer sub.arena sub.expr) sub.state)
    (hact : ∀ {action t}, Acts ctx site action t → D action) :
    SiteLogic ctx site fun x s => KeepsQueue D x s where
  pure _ _ := id
  throw _ _ := id
  get _ := id
  native x s := by
    unfold KeepsQueue Mizu.native
    cases x s.maxInstructions s.instructionCount <;> exact id
  bind := .bind
  sub h := hsub _ (.inl h)
  act h hs := hs.act (hact h)
  letBody h := .onExit (fun _ => rfl) (hsub _ (.inl h))
  callBody {func vs t} h := by
    intro hs
    simp only [enterBody, bind_apply, get_apply]
    have hparams := bindParams_actions func.params vs t
    cases hbind : bindParams func.params vs t with
    | ok _ u =>
      rw [hbind, finalState_ok] at hparams
      have hu : AllQueued D u := fun a ha => hs a (hparams ▸ ha)
      exact KeepsQueue.onExit (fun _ => rfl) (hsub _ (.inr ⟨func, vs, t, u, h, hbind, rfl⟩)) hu
    | error e u =>
      rw [hbind, finalState_error] at hparams
      exact fun a ha => hs a (hparams ▸ ha)

/-- Arenas in which no call queues anything but `D`. -/
def ExprArena.OnlyQueues (ctx : EvalCtx) (D : RuntimeAction → Prop) (arena : ExprArena) : Prop :=
  ∀ site action t, site.arena = arena → site.expr ∈ arena.nodes → Acts ctx site action t → D action

/-- An expression of such an arena queues nothing but `D`, if the functions' bodies are such arenas too. -/
theorem evaluate_keepsQueue
    (hbodies : ∀ f func, ctx.functions.lookup f = some func → func.body.arena.OnlyQueues ctx D) (site : Site)
    (harena : site.arena.OnlyQueues ctx D) (hmem : site.expr ∈ site.arena.nodes) :
    KeepsQueue D (evaluate ctx site.framePointer site.arena site.expr) site.state := by
  induction site using Site.induction with
  | step site ih =>
    obtain ⟨fp, a, e, s⟩ := site
    rcases enter_cases s with ⟨err, hs⟩ | ⟨-, hs⟩
    · intro hqueue
      simp only [evaluate_of_enter_error hs, finalState_error]
      exact hqueue
    · have hsub : ∀ sub, Performs ctx ⟨fp, a, e, s⟩ sub →
          KeepsQueue D (evaluate ctx sub.framePointer sub.arena sub.expr) sub.state := by
        intro sub h
        have hd := h.elim SubEval.depth BodyEval.depth
        obtain ⟨hsubmem, hin⟩ := h.inside hmem
        refine ih sub hd.1 hd.2 ?_ hsubmem
        rcases hin with hin | ⟨f, func, hfunc, hin⟩
        · rw [hin]
          exact harena
        · rw [hin]
          exact hbodies f func hfunc
      have hlevel := (keepsQueue_logic hsub fun h => harena _ _ _ rfl hmem h).level hs
      have hexit := KeepsQueue.onExit (g := leave) (fun _ => rfl) hlevel
      intro hqueue
      simp only [evaluate_of_enter_ok hs]
      exact hexit hqueue

/-! Actions -/

/-- What the action queues itself satisfies `D`. -/
def Action.OwnQueues (D : RuntimeAction → Prop) : Action → Prop
  | networkCall method aliasSym _ _ _ format _ =>
    ∀ v p target hs, D (.networkCall method aliasSym.id v p target format hs)
  | navigate _ => ∀ text, D (.navigate text)
  | assign _ _ | eval _ => True

theorem evalTree_keepsQueue
    (hbodies : ∀ f func, ctx.functions.lookup f = some func → func.body.arena.OnlyQueues ctx D) {t : ExprTree}
    (ht : t.arena.OnlyQueues ctx D) (s : Evaluator) : KeepsQueue D (evalTree ctx t) s :=
  evaluate_keepsQueue hbodies ⟨0, t.arena, t.rootExpr, s⟩ ht (ExprArena.get_mem t.root_valid)

section Action

variable (hbodies : ∀ f func, ctx.functions.lookup f = some func → func.body.arena.OnlyQueues ctx D)

include hbodies

theorem evalPayload_keepsQueue {payload : Option ExprTree}
    (h : ∀ t ∈ payload.toList, t.arena.OnlyQueues ctx D) (s : Evaluator) :
    KeepsQueue D (evalPayload ctx payload) s := by
  cases payload with
  | none => exact id
  | some t => exact .bind (evalTree_keepsQueue hbodies (h t (by simp)) s) fun _ _ _ => id

theorem evalPathParam_keepsQueue {pathParam : Option ExprTree}
    (h : ∀ t ∈ pathParam.toList, t.arena.OnlyQueues ctx D) (s : Evaluator) :
    KeepsQueue D (evalPathParam ctx pathParam) s := by
  cases pathParam with
  | none => exact id
  | some t =>
    refine .bind (evalTree_keepsQueue hbodies (h t (by simp)) s) fun v s' _ => .bind ?_ fun p _ _ => ?_
    · cases v <;> exact id
    · split <;> exact id

theorem evalHeaders_keepsQueue {headers : List (String × ExprTree)}
    (h : ∀ t ∈ headers.map (·.2), t.arena.OnlyQueues ctx D) (s : Evaluator) :
    KeepsQueue D (evalHeaders ctx headers) s := by
  induction headers generalizing s with
  | nil => exact id
  | cons header headers ih =>
    refine .bind (evalTree_keepsQueue hbodies (h _ (by simp)) s) fun v s' _ => ?_
    exact .bind (ih (fun t ht => h t (mem_cons_of_mem _ ht)) s') fun _ _ _ => id

/-- An action queues what its expressions queue, and its own call. -/
theorem executeAction_keepsQueue {action : Action} (htrees : ∀ t ∈ action.trees, t.arena.OnlyQueues ctx D)
    (hact : action.OwnQueues D) (s : Evaluator) : KeepsQueue D (executeAction ctx action) s := by
  refine KeepsQueue.bind (fun h => h) fun _ s₁ _ => ?_
  cases action with
  | assign target expr =>
    refine KeepsQueue.bind id fun u s₂ _ => ?_
    split
    · exact id
    · refine .bind (evalTree_keepsQueue hbodies (htrees _ (by simp [Action.trees])) s₂) fun v s₃ _ => ?_
      refine KeepsQueue.bind (fun hs => ?_) fun _ _ _ => id
      show AllQueued D (s₃.setRuntime ctx.interner target v)
      unfold Evaluator.setRuntime
      split <;> exact hs
  | eval expr =>
    exact .bind (evalTree_keepsQueue hbodies (htrees _ (by simp [Action.trees])) s₁) fun _ _ _ => id
  | navigate url =>
    refine .bind (evalTree_keepsQueue hbodies (htrees _ (by simp [Action.trees])) s₁) fun v s₂ _ => ?_
    split
    · exact .bind (fun hs => hs.act (hact _)) fun _ _ _ => id
    · exact id
  | networkCall method aliasSym payload pathParam targetVar format headers =>
    simp only [Action.trees, forall_mem_append] at htrees
    refine .bind (evalPayload_keepsQueue hbodies htrees.1.1 s₁) fun v s₂ _ => ?_
    refine .bind (evalPathParam_keepsQueue hbodies htrees.1.2 s₂) fun p s₃ _ => ?_
    refine KeepsQueue.bind (fun hs => ?_) fun target s₄ _ => ?_
    · unfold targetSymbol
      cases ctx.interner.get targetVar <;> exact hs
    · refine .bind (evalHeaders_keepsQueue hbodies htrees.2 s₄) fun hs s₅ _ => ?_
      exact .bind (fun hq => hq.act (hact v p target hs)) fun _ _ _ => id

end Action

end Queue

/-! ## Kinds -/

section Kinds

variable (registry : UrlRegistry)

/-- The alias is declared with this kind, if it is declared. -/
def KindIs (sym : Symbol) (kind : EndpointKind) : Prop := ∀ ep, registry.lookup sym = some ep → ep.kind = kind

/-- What an action asks for by an alias is of the alias's kind. -/
def RuntimeAction.RespectsKind : RuntimeAction → Prop
  | networkCall _ sym _ _ _ _ _ => KindIs registry ⟨sym⟩ .api
  | downloadAlias sym => KindIs registry ⟨sym⟩ .media
  | _ => True

/-- A resolved call goes to an `api` endpoint of the registry, a download is one of a `media` endpoint. -/
def RuntimeAction.OfItsKind (documentDomain : String) : RuntimeAction → Prop
  | resolvedCall _ url _ _ _ _ => ∃ sym ep pathParam, registry.lookup sym = some ep ∧ ep.kind = .api ∧
      resolveEndpointUrl documentDomain ep pathParam = .ok url
  | downloadMedia url => ∃ sym ep, registry.lookup sym = some ep ∧ ep.kind = .media ∧ url = ep.rawTarget
  | _ => True

def Action.CallsApi : Action → Prop
  | networkCall _ aliasSym _ _ _ _ _ => KindIs registry aliasSym .api
  | _ => True

/-- Every `download` call of the arena names a `media` endpoint, if it names one. -/
def ExprArena.DownloadsMedia (ctx : EvalCtx) (a : ExprArena) : Prop :=
  ∀ f st len sym, .functionCall f st len ∈ a.nodes → ctx.nameOf f = "download" → a.args st len = [.var sym] →
    KindIs registry sym .media

/-- What may stand in the queue. -/
def RuntimeAction.Kindly (a : RuntimeAction) : Prop := a.Raw ∧ a.RespectsKind registry

variable {registry}

theorem Builtin.dispatch_download {name : String} {argc : Nat}
    (h : Builtin.dispatch name argc = some .download) : name = "download" := by
  unfold Builtin.dispatch at h
  split at h
  all_goals first | rfl | (split at h <;> cases h) | cases h

theorem ExprArena.DownloadsMedia.onlyQueues {ctx : EvalCtx} {a : ExprArena} (h : a.DownloadsMedia registry ctx) :
    a.OnlyQueues ctx (·.Kindly registry) := by
  rintro site action t rfl hmem hact
  cases hact with
  | download _ hname hargs =>
    exact ⟨trivial, h _ _ _ _ hmem (Builtin.dispatch_download hname) hargs⟩
  | _ => exact ⟨trivial, trivial⟩

theorem Action.CallsApi.ownQueues {action : Action} (h : action.CallsApi registry) :
    action.OwnQueues (·.Kindly registry) := by
  cases action with
  | networkCall => exact fun _ _ _ _ => ⟨trivial, h⟩
  | navigate => exact fun _ => ⟨trivial, trivial⟩
  | assign => exact trivial
  | eval => exact trivial

/-- What the broker approves is of its kind, if what it was asked respects the kinds. -/
theorem authorizeAction_ofItsKind {a granted : RuntimeAction} {documentDomain : String} {agency : EventAgency}
    (ha : a.RespectsKind registry) (h : authorizeAction a documentDomain registry agency = .ok granted) :
    granted.OfItsKind registry documentDomain := by
  have hlookup : ∀ {sym ep}, lookupEndpoint registry sym = .ok ep → registry.lookup ⟨sym⟩ = some ep := by
    grind [lookupEndpoint]
  cases a with
  | networkCall =>
    obtain ⟨ep, hep, h⟩ := except_of_bind_ok h
    obtain ⟨url, hurl, h⟩ := except_of_bind_ok h
    cases h
    exact ⟨_, ep, _, hlookup hep, ha ep (hlookup hep), hurl⟩
  | downloadAlias =>
    obtain ⟨ep, hep, h⟩ := except_of_bind_ok h
    cases h
    exact ⟨_, ep, hlookup hep, ha ep (hlookup hep), rfl⟩
  | navigate url =>
    simp only [authorizeAction] at h
    split at h
    · cases h
      trivial
    · cases h
  | resolvedCall => cases h
  | downloadMedia => cases h
  | _ =>
    cases h
    trivial

namespace TabSession

variable {t : TabSession}

theorem resolveOneAction_ofItsKind {a : RuntimeAction} (h : a.Kindly t.urlRegistry) :
    (resolveOneAction t a).1.OfItsKind t.urlRegistry t.documentDomain ∧
      (resolveOneAction t a).1.RespectsKind t.urlRegistry := by
  obtain ⟨hraw, hkind⟩ := h
  unfold resolveOneAction
  split
  · refine ⟨?_, hkind⟩
    cases a <;> trivial
  · cases a with
    | networkCall method sym payload pathParam target format headers =>
      dsimp only
      split
      · exact ⟨trivial, trivial⟩
      · rename_i ep hep
        split
        · rename_i url hurl
          exact ⟨⟨_, ep, _, hep, hkind ep hep, hurl⟩, trivial⟩
        · exact ⟨trivial, trivial⟩
    | downloadAlias sym =>
      dsimp only
      split
      · rename_i ep hep
        exact ⟨⟨_, ep, hep, hkind ep hep, rfl⟩, trivial⟩
      · exact ⟨trivial, trivial⟩
    | resolvedCall => exact hraw.elim
    | downloadMedia => exact hraw.elim
    | _ => exact ⟨trivial, trivial⟩

end TabSession

end Kinds

/-! ## Events -/

namespace TabSession

variable (platform : Platform)

/-- The session whose document an event runs in. -/
def runsIn (t : TabSession) : UiEvent → TabSession
  | .reload payload => t.loaded payload
  | _ => t

/-- The event's action calls no `media` endpoint, and no expression the event may evaluate names an `api`
endpoint to `download`. -/
structure KindsDeclared (t : TabSession) (event : UiEvent) : Prop where
  call : ∀ action u, t.pendingAction event = some (action, u) → action.CallsApi t.urlRegistry
  action : ∀ action u, t.pendingAction event = some (action, u) →
    ∀ tree ∈ action.trees, tree.arena.DownloadsMedia t.urlRegistry (t.ctx platform)
  functions : ∀ f func, (t.runsIn event).logicFns.lookup f = some func →
    func.body.arena.DownloadsMedia (t.runsIn event).urlRegistry ((t.runsIn event).ctx platform)
  comps : ∀ cb ∈ (t.runsIn event).computedVars,
    cb.expr.arena.DownloadsMedia (t.runsIn event).urlRegistry ((t.runsIn event).ctx platform)

/-- What the session answers, and what the broker makes of the answer, calls `api` endpoints and downloads
from `media` endpoints only. -/
structure KindsRespected (t : TabSession) (event : UiEvent) : Prop where
  emitted : ∀ r, (t.applyEvent platform event).1 = some (.ok r) → ∀ a ∈ r.runtimeActions,
    a.OfItsKind (t.applyEvent platform event).2.urlRegistry (t.applyEvent platform event).2.documentDomain
  approved : ∀ r, (t.applyEvent platform event).1 = some (.ok r) →
    ∀ a ∈ authorizeAll r.runtimeActions (.of event) (t.applyEvent platform event).2.urlRegistry
      (t.applyEvent platform event).2.documentDomain,
    a.OfItsKind (t.applyEvent platform event).2.urlRegistry (t.applyEvent platform event).2.documentDomain

/-- Only the store of the session is another one. -/
def SameDocument (t t' : TabSession) : Prop := ∃ s, t' = t.withEvaluator s

theorem SameDocument.of_rest {t t' : TabSession} (h : t' = t.withEvaluator t'.store.evaluator) :
    t.SameDocument t' := ⟨_, h⟩

theorem surface_sameDocument (acc : TabSession × List (Symbol × Value)) (errors : List (String × Value)) :
    acc.1.SameDocument (errors.foldl surface acc).1 := by
  induction errors generalizing acc with
  | nil => exact ⟨_, rfl⟩
  | cons error errors ih =>
    obtain ⟨s, hs⟩ := ih (surface acc error)
    have hsurface : acc.1.SameDocument (surface acc error).1 := by
      unfold surface
      split
      · exact .of_rest (setRuntime_logged acc.1.store.evaluator acc.1 error.1 error.2).rest
      · exact ⟨_, rfl⟩
    obtain ⟨s', hs'⟩ := hsurface
    rw [foldl_cons, hs, hs']
    exact ⟨_, rfl⟩

variable {event : UiEvent}

section Respected

variable {platform} {t : TabSession}

theorem buildResponse_kinds (gesture : Bool) (h : AllQueued (·.Kindly t.urlRegistry) t.store.evaluator) :
    t.SameDocument (t.buildResponse platform gesture).2 ∧
      ∀ a ∈ (t.buildResponse platform gesture).1.runtimeActions,
        a.OfItsKind t.urlRegistry t.documentDomain ∧ a.RespectsKind t.urlRegistry := by
  constructor
  · obtain ⟨s, hs⟩ := surface_sameDocument
      (t.mapEvaluator fun s => { s with undoLog := [], accumulatedActions := [] },
        mutatedVariables platform t.store.evaluator)
      ((t.store.evaluator.accumulatedActions.map (resolveOneAction t)).flatMap (·.2))
    exact ⟨s, hs⟩
  · intro a ha
    have hmap : (t.buildResponse platform gesture).1.runtimeActions =
        (t.store.evaluator.accumulatedActions.map (resolveOneAction t)).map (·.1) := rfl
    rw [hmap, map_map] at ha
    obtain ⟨b, hb, rfl⟩ := mem_map.mp ha
    exact resolveOneAction_ofItsKind (h b hb)

/-- A queue of the right kinds stays one while the computed bindings are recomputed. -/
theorem recompute_kinds {ctx : EvalCtx} {registry : UrlRegistry} {bindings : List ComputedBinding}
    (hbodies : ∀ f func, ctx.functions.lookup f = some func → func.body.arena.DownloadsMedia registry ctx)
    (hcomps : ∀ cb ∈ bindings, cb.expr.arena.DownloadsMedia registry ctx) (mutated : Finset Symbol)
    (index : CompReverseIndex) {s : Evaluator} (h : AllQueued (·.Kindly registry) s) :
    AllQueued (·.Kindly registry) (recomputeComputedBindings ctx bindings mutated index s).1 := by
  have hsite : ∀ cb ∈ bindings, ∀ site, (∃ p, site = cb.site p) →
      KeepsQueue (·.Kindly registry) (evaluate ctx site.framePointer site.arena site.expr) site.state := by
    rintro cb hcb _ ⟨p, rfl⟩
    exact evaluate_keepsQueue (fun f func hf => (hbodies f func hf).onlyQueues) (cb.site p)
      (hcomps cb hcb).onlyQueues (ExprArena.get_mem cb.expr.root_valid)
  refine recompute_of_sites (G := fun cb site => ∃ p, site = cb.site p) (fun _ _ hs => hs) ?_ ?_ ?_ h
  · intro cb hcb site v u hs hgood hrun
    have hu := hsite cb hcb site hgood hs
    rw [show evaluate ctx site.framePointer site.arena site.expr site.state = .ok v u from hrun] at hu
    exact hu
  · intro cb hcb site e u hs hgood hrun
    have hu := hsite cb hcb site hgood hs
    rw [show evaluate ctx site.framePointer site.arena site.expr site.state = .error e u from hrun] at hu
    exact hu
  · intro cb site hmem
    obtain ⟨⟨cb', p⟩, -, heq⟩ := mem_filterMap.mp hmem
    dsimp only at heq
    split at heq
    · cases heq
    · cases heq
      exact ⟨p, rfl⟩

/-- An event that is answered from a queue of the right kinds respects them. -/
theorem respected_of_answer (gesture : Bool) (u : TabSession)
    (hqueue : AllQueued (·.Kindly u.urlRegistry) u.store.evaluator) (hevent : t.applyEvent platform event =
      (some (.ok (u.buildResponse platform gesture).1), (u.buildResponse platform gesture).2)) :
    KindsRespected platform t event := by
  obtain ⟨⟨s, hdoc⟩, hactions⟩ := buildResponse_kinds gesture hqueue
  have hregistry : (u.buildResponse platform gesture).2.urlRegistry = u.urlRegistry := by rw [hdoc]; rfl
  have hdomain : (u.buildResponse platform gesture).2.documentDomain = u.documentDomain := by rw [hdoc]; rfl
  constructor
  · grind
  · grind [mem_authorizeAll, authorizeAction_ofItsKind]

/-- An event that answers nothing respects the kinds. -/
theorem respected_of_silent (h : ∀ r, (t.applyEvent platform event).1 ≠ some (.ok r)) :
    KindsRespected platform t event :=
  ⟨fun r hr => absurd hr (h r), fun r hr => absurd hr (h r)⟩

section Declared

variable (hbodies : ∀ f func, t.logicFns.lookup f = some func →
    func.body.arena.DownloadsMedia t.urlRegistry (t.ctx platform))
  (hcomps : ∀ cb ∈ t.computedVars, cb.expr.arena.DownloadsMedia t.urlRegistry (t.ctx platform))

include hbodies hcomps

theorem recomputeAfterMutation_kinds {s : Evaluator} (h : AllQueued (·.Kindly t.urlRegistry) s) :
    AllQueued (·.Kindly t.urlRegistry)
      ((t.withEvaluator s).recomputeAfterMutation platform).store.evaluator := by
  unfold recomputeAfterMutation
  split
  · exact h
  · exact recompute_kinds hbodies hcomps _ _ h

/-- What is answered after the computed bindings are recomputed respects the kinds. -/
theorem respected_of_recompute (gesture : Bool) {s : Evaluator}
    (hqueue : AllQueued (·.Kindly t.urlRegistry) s) (hevent : t.applyEvent platform event =
      (some (.ok (((t.withEvaluator s).recomputeAfterMutation platform).buildResponse platform gesture).1),
        (((t.withEvaluator s).recomputeAfterMutation platform).buildResponse platform gesture).2)) :
    KindsRespected platform t event := by
  refine respected_of_answer gesture _ ?_ hevent
  have hregistry : ((t.withEvaluator s).recomputeAfterMutation platform).urlRegistry = t.urlRegistry := by
    rw [(recompute_logged platform s (t.withEvaluator s)).rest]
    rfl
  rw [hregistry]
  exact recomputeAfterMutation_kinds hbodies hcomps hqueue

end Declared

theorem initFunction_kinds {ctx : EvalCtx} {registry : UrlRegistry}
    (hbodies : ∀ f func, ctx.functions.lookup f = some func → func.body.arena.DownloadsMedia registry ctx)
    {s : Evaluator} (h : AllQueued (·.Kindly registry) s) (sym : Symbol) :
    AllQueued (·.Kindly registry) (initFunction ctx s sym) := by
  unfold initFunction
  split
  · rename_i func hfunc
    split
    · have hrun := evalTree_keepsQueue (fun f func hf => (hbodies f func hf).onlyQueues)
        (hbodies sym func hfunc).onlyQueues { s with instructionCount := 0 } h
      split
      · rename_i v u hev
        rw [hev] at hrun
        exact hrun
      · rename_i e u hev
        rw [hev] at hrun
        exact hrun
    · exact h
  · exact h

theorem initFunctions_kinds (hbodies : ∀ f func, t.logicFns.lookup f = some func →
      func.body.arena.DownloadsMedia t.urlRegistry (t.ctx platform))
    (h : AllQueued (·.Kindly t.urlRegistry) t.store.evaluator) :
    AllQueued (·.Kindly t.urlRegistry) (t.initFunctions platform).store.evaluator := by
  have key : ∀ (order : List Symbol) (s : Evaluator), AllQueued (·.Kindly t.urlRegistry) s →
      AllQueued (·.Kindly t.urlRegistry) (order.foldl (initFunction (t.ctx platform)) s) := by
    intro order
    induction order with
    | nil => exact fun _ hs => hs
    | cons sym order ih => exact fun s hs => ih _ (initFunction_kinds hbodies hs sym)
  exact key _ _ h

section Events

variable (hqueue : t.store.evaluator.accumulatedActions = [])
  (hbodies : ∀ f func, t.logicFns.lookup f = some func →
    func.body.arena.DownloadsMedia t.urlRegistry (t.ctx platform))
  (hcomps : ∀ cb ∈ t.computedVars, cb.expr.arena.DownloadsMedia t.urlRegistry (t.ctx platform))

include hbodies

theorem executeAction_kinds {action : Action} (hcall : action.CallsApi t.urlRegistry)
    (htrees : ∀ tree ∈ action.trees, tree.arena.DownloadsMedia t.urlRegistry (t.ctx platform)) {s : Evaluator}
    (h : AllQueued (·.Kindly t.urlRegistry) s) :
    AllQueued (·.Kindly t.urlRegistry) (finalState (executeAction (t.ctx platform) action s)) :=
  executeAction_keepsQueue (fun f func hf => (hbodies f func hf).onlyQueues)
    (fun tree ht => (htrees tree ht).onlyQueues) hcall.ownQueues s h

include hqueue hcomps

theorem action_kinds {action : Action} (gesture : Bool) (hcall : action.CallsApi t.urlRegistry)
    (htrees : ∀ tree ∈ action.trees, tree.arena.DownloadsMedia t.urlRegistry (t.ctx platform))
    (hevent : t.applyEvent platform event =
      (some (t.executeActionAndBuild platform action gesture).1,
        (t.executeActionAndBuild platform action gesture).2)) : KindsRespected platform t event := by
  have hrun := @executeAction_kinds platform t hbodies action hcall htrees _
    (AllQueued.of_nil (s := t.clearUndo.store.evaluator) hqueue)
  have hctx : t.clearUndo.ctx platform = t.ctx platform := rfl
  unfold executeActionAndBuild at hevent
  dsimp only at hevent
  rw [hctx] at hevent
  cases hexec : executeAction (t.ctx platform) action t.clearUndo.store.evaluator with
  | error e s => grind [respected_of_silent]
  | ok b s =>
    rw [hexec] at hevent hrun
    exact respected_of_recompute hbodies hcomps gesture hrun hevent

theorem submit_kinds {submitterNodeId : Nat} {fields : List (String × Value)}
    (haction : ∀ action, t.submitActions.lookup submitterNodeId = some action →
      action.CallsApi t.urlRegistry ∧
        ∀ tree ∈ action.trees, tree.arena.DownloadsMedia t.urlRegistry (t.ctx platform)) :
    KindsRespected platform t (.submitForm submitterNodeId fields) := by
  obtain ⟨-, hrest⟩ := setFields_logged t.store.evaluator fields t
  have hfields : AllQueued (·.Kindly t.urlRegistry) (t.setFields fields).store.evaluator :=
    .of_nil ((setFields_onlyWrites fields).queue.trans hqueue)
  have hsubmit : ∃ s, AllQueued (·.Kindly t.urlRegistry) s ∧
      (t.setFields fields).runSubmit platform (t.submitActions.lookup submitterNodeId) = t.withEvaluator s := by
    cases hlookup : t.submitActions.lookup submitterNodeId with
    | none => exact ⟨_, hfields, hrest⟩
    | some action =>
      obtain ⟨hcall, htrees⟩ := haction action hlookup
      refine ⟨_, executeAction_kinds hbodies hcall htrees hfields, ?_⟩
      simp only [runSubmit, setFields_ctx]
      rw [hrest]
      rfl
  obtain ⟨s, hs, hrun⟩ := hsubmit
  refine respected_of_recompute hbodies hcomps true hs ?_
  simp only [applyEvent, hrun]

theorem update_kinds {name : String} {v : Value} : KindsRespected platform t (.updateVariable name v) := by
  have hset : AllQueued (·.Kindly t.urlRegistry) (t.clearUndo.setRuntime name v).store.evaluator :=
    .of_nil ((setRuntime_onlyWrites t.clearUndo name v).queue.trans hqueue)
  refine respected_of_recompute hbodies hcomps false hset ?_
  have hrest : t.clearUndo.setRuntime name v =
      t.withEvaluator (t.clearUndo.setRuntime name v).store.evaluator :=
    (setRuntime_logged t.store.evaluator t.clearUndo name v).rest
  rw [← hrest]
  rfl

end Events

theorem reload_kinds (payload : ReloadPayload)
    (hbodies : ∀ f func, (t.loaded payload).logicFns.lookup f = some func →
      func.body.arena.DownloadsMedia (t.loaded payload).urlRegistry ((t.loaded payload).ctx platform))
    (hcomps : ∀ cb ∈ (t.loaded payload).computedVars,
      cb.expr.arena.DownloadsMedia (t.loaded payload).urlRegistry ((t.loaded payload).ctx platform)) :
    KindsRespected platform t (.reload payload) := by
  have hloaded : AllQueued (·.Kindly (t.loaded payload).urlRegistry) (t.loaded payload).store.evaluator :=
    .of_nil (loaded_queue payload t)
  exact respected_of_answer false (((t.loaded payload).initFunctions platform).initComps platform)
    (recompute_kinds hbodies hcomps _ _ (initFunctions_kinds hbodies hloaded)) rfl

theorem kinds_step (hqueue : t.store.evaluator.accumulatedActions = []) (event : UiEvent)
    (h : KindsDeclared platform t event) : KindsRespected platform t event := by
  cases event with
  | closeTab => exact respected_of_silent nofun
  | reload payload => exact reload_kinds payload h.functions h.comps
  | updateVariable name v => exact update_kinds hqueue h.functions h.comps
  | submitForm submitterNodeId fields =>
    refine submit_kinds hqueue h.functions h.comps fun action hlookup => ?_
    have hpending : t.pendingAction (.submitForm submitterNodeId fields) = some (action, t.setFields fields) := by
      simp [pendingAction, hlookup]
    exact ⟨h.call action _ hpending, h.action action _ hpending⟩
  | click nodeId =>
    cases hlookup : t.clickActions.lookup nodeId with
    | none => grind [applyEvent, respected_of_silent]
    | some action =>
      have hpending : t.pendingAction (.click nodeId) = some (action, t.clearUndo) := by
        simp [pendingAction, hlookup]
      refine action_kinds hqueue h.functions h.comps true (h.call action _ hpending)
        (h.action action _ hpending) ?_
      simp only [applyEvent, hlookup]
  | rootTimer index =>
    cases hlookup : t.rootTimerActions[index]? with
    | none => grind [applyEvent, respected_of_silent]
    | some action =>
      have hpending : t.pendingAction (.rootTimer index) = some (action, t.clearUndo) := by
        simp [pendingAction, hlookup]
      refine action_kinds hqueue h.functions h.comps false (h.call action _ hpending)
        (h.action action _ hpending) ?_
      simp only [applyEvent, hlookup]

end Respected

/-- In every run of a session, whether it resolves its aliases itself or leaves them to the broker, what is
called is an `api` endpoint and what is downloaded comes from a `media` endpoint, if in each event the
document asks for nothing else. -/
theorem kinds_respected (defer : Bool) (events : List UiEvent)
    (h : EachEvent platform (KindsDeclared platform) (new.deferring defer) events) :
    EachEvent platform (KindsRespected platform) (new.deferring defer) events := by
  have key : ∀ (events : List UiEvent) (t : TabSession), t.store.evaluator.accumulatedActions = [] →
      EachEvent platform (KindsDeclared platform) t events →
      EachEvent platform (KindsRespected platform) t events := by
    intro events
    induction events with
    | nil => exact fun _ _ _ => trivial
    | cons event events ih =>
      intro t hqueue hrun
      exact ⟨kinds_step hqueue event hrun.1, ih _ (applyEvent_queue event hqueue) hrun.2⟩
  exact key events _ rfl h

/-! ## A timer that calls an endpoint -/

/-- A document with one endpoint and the timer `GET(photo) -> x`. -/
def photoTimer (kind : EndpointKind) : ReloadPayload where
  logicFns := ∅
  clickActions := ∅
  submitActions := ∅
  rootTimerActions := [.networkCall .get ⟨0⟩ none none "x" .json []]
  interner := .ofNames ["photo", "x"]
  initialVariables := []
  urlRegistry := Finmap.singleton ⟨0⟩ { kind, rawTarget := "https://cdn.mizu/photo.png" }
  documentDomain := "a.mizu"
  computedBindings := []

theorem photoTimer_loaded (kind : EndpointKind) (defer : Bool) :
    ((new.deferring defer).applyEvent .plain (.reload (photoTimer kind))).2 =
      (new.deferring defer).loaded (photoTimer kind) := by
  have horder : TableOrder.ascending.list (photoTimer kind).logicFns = [] := by
    simp [TableOrder.ascending, photoTimer]
  simp only [applyEvent, applyReload, initFunctions, Platform.plain]
  rw [show ((new.deferring defer).loaded (photoTimer kind)).logicFns = (photoTimer kind).logicFns from rfl, horder]
  rfl

theorem photoTimer_kind {kind : EndpointKind} {sym : Symbol} {ep : UrlEndpoint}
    (h : (photoTimer kind).urlRegistry.lookup sym = some ep) : ep.kind = kind := by
  grind [photoTimer, Finmap.lookup_singleton_eq, Finmap.lookup_eq_none, Finmap.mem_singleton]

theorem photoTimer_declared {t : TabSession}
    (h : t.runsIn event = (new.deferring true).loaded (photoTimer .api))
    (hcall : ∀ action u, t.pendingAction event = some (action, u) → t = t.runsIn event ∧
      action = .networkCall .get ⟨0⟩ none none "x" .json []) : KindsDeclared .plain t event where
  call := by
    intro action u hpending
    obtain ⟨ht, rfl⟩ := hcall action u hpending
    rw [ht, h]
    exact fun ep hep => photoTimer_kind hep
  action := by
    intro action u hpending tree htree
    obtain ⟨-, rfl⟩ := hcall action u hpending
    cases htree
  functions := by
    intro f func hf
    rw [h] at hf
    exact absurd hf (by simp [loaded, photoTimer])
  comps := by
    intro cb hcb
    rw [h] at hcb
    cases hcb

theorem kinds_respected_photoTimer :
    EachEvent .plain (KindsRespected .plain) (new.deferring true) [.reload (photoTimer .api), .rootTimer 0] := by
  refine kinds_respected .plain true _ ⟨photoTimer_declared rfl ?_, photoTimer_declared ?_ ?_, trivial⟩
  · rintro _ _ ⟨⟩
  · exact photoTimer_loaded .api true
  · rw [photoTimer_loaded]
    rintro action u ⟨⟩
    exact ⟨rfl, rfl⟩

/-- A root timer may call an endpoint that is declared as media. -/
theorem timer_calls_media :
    ¬∀ (platform : Platform) (defer : Bool) (events : List UiEvent),
      EachEvent platform (KindsRespected platform) (new.deferring defer) events := by
  intro h
  obtain ⟨-, htimer, -⟩ := h .plain false [.reload (photoTimer .media), .rootTimer 0]
  rw [photoTimer_loaded] at htimer
  obtain ⟨sym, ep, pathParam, hep, hkind, -⟩ := htimer.emitted _ rfl _ mem_cons_self
  rw [photoTimer_kind hep] at hkind
  cases hkind

end TabSession

end Mizu
