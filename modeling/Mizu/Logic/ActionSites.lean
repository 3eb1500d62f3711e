import Mizu.Logic.Action
import Mizu.Types.Eval.Discipline
import Mizu.Types.Eval.Queue

/-!
# The evaluations of an action

* `executeAction_locals`: an action gives the locals back exactly if none of its evaluations leaks.
* `executeAction_queue`: an action that fails leaves the queue as it was exactly if none of its evaluations
  queues an action.
-/

namespace Mizu

open Exec

/-- The evaluation of an expression of the document. -/
def ExprTree.site (t : ExprTree) (s : Evaluator) : Site := ⟨0, t.arena, t.rootExpr, s⟩

section Sites

variable (ctx : EvalCtx)

inductive HeaderEval : List (String × ExprTree) → Evaluator → Site → Prop where
  | head {name t headers s} : HeaderEval ((name, t) :: headers) s (t.site s)
  | tail {name t headers s v s' site} (hrun : evalTree ctx t s = .ok v s')
      (h : HeaderEval headers s' site) : HeaderEval ((name, t) :: headers) s site

/-- The evaluations an action performs. -/
inductive ActionEval : Action → Evaluator → Site → Prop where
  | assign {target expr s} (htarget : ¬(ctx.interner.get target).any (· ∈ s.computedVarSyms)) :
      ActionEval (.assign target expr) s (expr.site { s with instructionCount := 0 })
  | eval {expr s} : ActionEval (.eval expr) s (expr.site { s with instructionCount := 0 })
  | navigate {url s} : ActionEval (.navigate url) s (url.site { s with instructionCount := 0 })
  | payload {method aliasSym t pathParam targetVar format headers s} :
      ActionEval (.networkCall method aliasSym (some t) pathParam targetVar format headers) s
        (t.site { s with instructionCount := 0 })
  | pathParam {method aliasSym payload t targetVar format headers s v s₁}
      (hpayload : evalPayload ctx payload { s with instructionCount := 0 } = .ok v s₁) :
      ActionEval (.networkCall method aliasSym payload (some t) targetVar format headers) s (t.site s₁)
  | header {method aliasSym payload pathParam targetVar format headers s v s₁ w s₂ sym site}
      (hpayload : evalPayload ctx payload { s with instructionCount := 0 } = .ok v s₁)
      (hpath : evalPathParam ctx pathParam s₁ = .ok w s₂)
      (htarget : ctx.interner.get targetVar = some sym) (h : HeaderEval ctx headers s₂ site) :
      ActionEval (.networkCall method aliasSym payload pathParam targetVar format headers) s site

end Sites

/-! ## What a part does, the whole does -/

section Performs

/-- The program only adds to the queue. -/
def Grows {α : Type} (x : EvalM α) : Prop :=
  ∀ s, s.accumulatedActions <+: (finalState (x s)).accumulatedActions

theorem Framed.grows {α : Type} {x : EvalM α} (h : Framed x) : Grows x := by
  intro s
  cases hx : x s with
  | ok a t => exact (h.of_ok hx).queue_grows
  | error e t => exact (h.of_error hx).queue_grows

theorem Grows.bind {α β : Type} {x : EvalM α} {f : α → EvalM β} (hx : Grows x) (hf : ∀ a, Grows (f a)) :
    Grows (x >>= f) := by
  intro s
  have hs := hx s
  rw [bind_apply]
  cases hrun : x s with
  | ok a t =>
    rw [hrun] at hs
    exact hs.trans (hf a t)
  | error e t =>
    rw [hrun] at hs
    exact hs

theorem grows_modify {g : Evaluator → Evaluator}
    (h : ∀ s, s.accumulatedActions <+: (g s).accumulatedActions) : Grows (modify g) := fun s => h s

theorem grows_pure {α : Type} (a : α) : Grows (pure a) := fun _ => List.prefix_refl _

/-- Running `x` from `s` runs `y` from `t`: if `y` throws, so does `x`, and what `y` queues stays. -/
structure Leads {α β : Type} (x : EvalM α) (s : Evaluator) (y : EvalM β) (t : Evaluator) : Prop where
  throws : ∀ e u, y t = .error e u → x s = .error e u
  before : Returned s t
  after : (finalState (y t)).accumulatedActions <+: (finalState (x s)).accumulatedActions

variable {α β γ : Type} {x : EvalM α} {f : α → EvalM β} {y : EvalM γ} {s t : Evaluator}

theorem Leads.refl (x : EvalM α) (s : Evaluator) : Leads x s x s :=
  ⟨fun _ _ h => h, frame_composes.refl s, List.prefix_refl _⟩

theorem Leads.left (h : Leads x s y t) (hf : ∀ a, Grows (f a)) : Leads (x >>= f) s y t where
  throws e u hy := bind_error (h.throws e u hy)
  before := h.before
  after := by
    refine h.after.trans ?_
    rw [bind_apply]
    cases x s with
    | ok a u => exact hf a u
    | error e u => exact List.prefix_refl _

theorem Leads.right {a : α} {s' : Evaluator} (hx : x s = .ok a s') (hreturned : Returned s s')
    (h : Leads (f a) s' y t) : Leads (x >>= f) s y t where
  throws e u hy := (bind_ok hx).trans (h.throws e u hy)
  before := frame_composes.trans hreturned h.before
  after := by
    rw [bind_ok hx]
    exact h.after

end Performs

section Action

variable {ctx : EvalCtx}

theorem evalHeaders_leads {headers : List (String × ExprTree)} {s : Evaluator} {site : Site}
    (h : HeaderEval ctx headers s site) :
    Leads (evalHeaders ctx headers) s
      (evaluate ctx site.framePointer site.arena site.expr) site.state := by
  induction h with
  | @head name t headers s =>
    exact (Leads.refl (evalTree ctx t) s).left fun v =>
      (evalHeaders_framed ctx headers).grows.bind fun _ => grows_pure _
  | @tail name t headers s v s' site hrun _ ih =>
    exact .right hrun ((evalTree_framed ctx t).of_ok hrun) (ih.left fun _ => grows_pure _)

theorem executeAction_leads {action : Action} {s : Evaluator} {site : Site}
    (h : ActionEval ctx action s site) :
    Leads (executeAction ctx action) s
      (evaluate ctx site.framePointer site.arena site.expr) site.state := by
  have hreset : ∀ {β : Type} {f : PUnit → EvalM β} {γ : Type} {y : EvalM γ} {t : Evaluator},
      Leads (f ⟨⟩) { s with instructionCount := 0 } y t →
      Leads (modify (fun s : Evaluator => { s with instructionCount := 0 }) >>= f) s y t :=
    fun h => .right rfl ⟨Kept.of_locals s s.locals 0, rfl⟩ h
  have hact : ∀ a : RuntimeAction, Grows (modify (·.act a) : EvalM PUnit) :=
    fun a => grows_modify fun s => List.prefix_append _ _
  unfold executeAction
  refine hreset ?_
  cases h with
  | @assign target expr _ htarget =>
    refine .right (get_apply _) (frame_composes.refl _) ?_
    rw [if_neg htarget]
    refine (Leads.refl (evalTree ctx expr) _).left fun v => ?_
    refine Grows.bind (grows_modify fun s => ?_) fun _ => grows_pure _
    unfold Evaluator.setRuntime
    split
    · exact List.prefix_refl _
    · exact List.prefix_refl _
  | @eval expr _ => exact (Leads.refl (evalTree ctx expr) _).left fun _ => grows_pure _
  | @navigate url _ =>
    refine (Leads.refl (evalTree ctx url) _).left fun v => ?_
    split
    · exact (hact _).bind fun _ => grows_pure _
    · exact fun _ => List.prefix_refl _
  | @payload method aliasSym t pathParam targetVar format headers _ =>
    refine Leads.left ?_ fun v => ?_
    · exact (Leads.refl (evalTree ctx t) _).left fun _ => grows_pure _
    · refine (evalPathParam_framed ctx pathParam).grows.bind fun _ => ?_
      refine (targetSymbol_framed ctx targetVar).grows.bind fun _ => ?_
      exact (evalHeaders_framed ctx headers).grows.bind fun _ => (hact _).bind fun _ => grows_pure _
  | @pathParam method aliasSym payload t targetVar format headers _ v s₁ hpayload =>
    refine .right hpayload ((evalPayload_framed ctx payload).of_ok hpayload) (Leads.left ?_ fun _ => ?_)
    · exact (Leads.refl (evalTree ctx t) _).left fun v => (pathSegment_framed v).grows
    · refine (targetSymbol_framed ctx targetVar).grows.bind fun _ => ?_
      exact (evalHeaders_framed ctx headers).grows.bind fun _ => (hact _).bind fun _ => grows_pure _
  | @header method aliasSym payload pathParam targetVar format headers _ v s₁ w s₂ sym _ hpayload hpath
      htarget h =>
    refine .right hpayload ((evalPayload_framed ctx payload).of_ok hpayload) ?_
    refine .right hpath ((evalPathParam_framed ctx pathParam).of_ok hpath) ?_
    have hsym : targetSymbol ctx targetVar s₂ = .ok sym s₂ := by
      unfold targetSymbol
      rw [htarget]
      rfl
    refine .right hsym (frame_composes.refl _) ?_
    exact (evalHeaders_leads h).left fun _ => (hact _).bind fun _ => grows_pure _

end Action

/-! ## From the evaluations to the action -/

/-- Judgements about the evaluations of an action, `J`, and about what is left of the action at a point,
`K`. -/
structure ActionRules (ctx : EvalCtx) (action : Action) (s₀ : Evaluator)
    (J : {α : Type} → EvalM α → Evaluator → Prop) (K : EvalM Bool → Evaluator → Prop) : Prop where
  pure : ∀ {α : Type} (a : α) s, J (Pure.pure a) s
  throw : ∀ {α : Type} e s, J (MonadExcept.throw e : EvalM α) s
  bind : ∀ {α β : Type} {x : EvalM α} {f : α → EvalM β} {s}, J x s →
    (∀ a s', x s = .ok a s' → J (f a) s') → J (x >>= f) s
  site : ∀ {t : ExprTree} {s}, ActionEval ctx action s₀ (t.site s) → J (evalTree ctx t) s
  start : ∀ {x : PUnit → EvalM Bool}, K (x ⟨⟩) { s₀ with instructionCount := 0 } →
    K (modify (fun s : Evaluator => { s with instructionCount := 0 }) >>= x) s₀
  next : ∀ {α : Type} {x : EvalM α} {f : α → EvalM Bool} {s}, J x s →
    (∀ a s', x s = .ok a s' → K (f a) s') → K (x >>= f) s
  refused : ∀ e s, K (MonadExcept.throw e) s
  read : ∀ {f : Evaluator → EvalM Bool} {s}, K (f s) s → K (MonadState.get >>= f) s
  finish : ∀ {g : Evaluator → Evaluator} (b s), (∀ s, (g s).locals = s.locals) →
    K (modify g >>= fun _ => Pure.pure b) s
  done : ∀ b s, K (Pure.pure b) s

namespace ActionRules

variable {ctx : EvalCtx} {s₀ : Evaluator} {J : {α : Type} → EvalM α → Evaluator → Prop}
  {K : EvalM Bool → Evaluator → Prop}

theorem headers {action : Action} (h : ActionRules ctx action s₀ J K)
    {headers : List (String × ExprTree)} {s : Evaluator}
    (hsite : ∀ site, HeaderEval ctx headers s site → ActionEval ctx action s₀ site) :
    J (evalHeaders ctx headers) s := by
  induction headers generalizing s with
  | nil => exact h.pure _ _
  | cons header headers ih =>
    refine h.bind (h.site (hsite _ .head)) fun v s' hv => h.bind ?_ fun _ _ _ => h.pure _ _
    exact ih fun site hmem => hsite site (.tail hv hmem)

theorem networkCall {method : NetworkMethod} {aliasSym : Symbol} {payload pathParam : Option ExprTree}
    {targetVar : String} {format : PayloadFormat} {headers : List (String × ExprTree)}
    (h : ActionRules ctx (.networkCall method aliasSym payload pathParam targetVar format headers) s₀ J K) :
    K (executeAction ctx (.networkCall method aliasSym payload pathParam targetVar format headers)) s₀ := by
  refine h.start (h.next ?_ fun v s₁ hv => h.next ?_ fun w s₂ hw => h.next ?_ fun sym s₃ hsym => ?_)
  · cases payload with
    | none => exact h.pure _ _
    | some t => exact h.bind (h.site .payload) fun _ _ _ => h.pure _ _
  · cases pathParam with
    | none => exact h.pure _ _
    | some t =>
      refine h.bind (h.site (.pathParam hv)) fun v _ _ => h.bind ?_ fun s _ _ => ?_
      · cases v with
        | string | decimal => exact h.pure _ _
        | _ => exact h.throw _ _
      · split
        · exact h.throw _ _
        · exact h.pure _ _
  · unfold targetSymbol
    split
    · exact h.pure _ _
    · exact h.throw _ _
  · unfold targetSymbol at hsym
    cases htarget : ctx.interner.get targetVar with
    | some target =>
      rw [htarget] at hsym
      cases hsym
      exact h.next (h.headers fun site hsite => .header hv hw htarget hsite) fun _ _ _ =>
        h.finish _ _ fun _ => rfl
    | none =>
      rw [htarget] at hsym
      cases hsym

theorem action {action : Action} (h : ActionRules ctx action s₀ J K) :
    K (executeAction ctx action) s₀ := by
  cases action with
  | assign target expr =>
    refine h.start (h.read ?_)
    split
    · exact h.refused _ _
    · rename_i htarget
      refine h.next (h.site (.assign htarget)) fun v _ _ => h.finish _ _ fun s => ?_
      unfold Evaluator.setRuntime
      split <;> rfl
  | eval expr => exact h.start (h.next (h.site .eval) fun _ _ _ => h.done _ _)
  | navigate url =>
    refine h.start (h.next (h.site .navigate) fun v _ _ => ?_)
    split
    · exact h.finish _ _ fun _ => rfl
    · exact h.refused _ _
  | networkCall => exact h.networkCall

end ActionRules

section Iff

variable {ctx : EvalCtx}

/-- An action that gives the locals back, or one of whose evaluations leaks. -/
theorem executeAction_tidy (ctx : EvalCtx) (action : Action) (s : Evaluator) :
    Tidy (∃ site, ActionEval ctx action s site ∧ Leaks ctx site) (executeAction ctx action) s := by
  let D := ∃ site, ActionEval ctx action s site ∧ Leaks ctx site
  have hrules : ActionRules ctx action s (fun x t => Tidy D x t) (Tidy D) := by
    constructor
    case pure => exact fun _ _ => rfl
    case throw => exact fun _ _ => .inl rfl
    case bind => exact .bind
    case site =>
      intro t u hsite
      exact (evaluate_tidy (t.site u)).mono (fun _ _ h => h) fun _ _ h =>
        h.imp_right fun hleak => ⟨_, hsite, hleak⟩
    case start => exact fun hx => hx
    case next => exact .bind
    case refused => exact fun _ _ => .inl rfl
    case read => exact fun hf => hf
    case finish => exact fun _ _ hg => hg _
    case done => exact fun _ _ => rfl
  exact hrules.action

/-- The locals are given back exactly if none of the action's evaluations leaks. -/
theorem executeAction_locals (ctx : EvalCtx) (action : Action) (s : Evaluator) :
    (finalState (executeAction ctx action s)).locals = s.locals ↔
      ∀ site, ActionEval ctx action s site → ¬Leaks ctx site := by
  constructor
  · intro hsame site hsite hleak
    obtain ⟨e, u, hrun, hlt⟩ := throws_of_leaks hleak
    have hleads := executeAction_leads hsite
    rw [hleads.throws e u hrun, finalState_error] at hsame
    rw [hsame, hleads.before.locals] at hlt
    exact absurd hlt (Nat.lt_irrefl _)
  · intro hnone
    have htidy := executeAction_tidy ctx action s
    unfold Tidy wp at htidy
    cases hrun : executeAction ctx action s with
    | ok b t => rwa [hrun] at htidy
    | error e t =>
      rw [hrun] at htidy
      exact htidy.resolve_right fun ⟨site, hsite, hleak⟩ => hnone site hsite hleak

/-- What is left of an action, if it fails, queues nothing, or `D` holds. -/
def FailsQuietly (D : Prop) (x : EvalM Bool) (s : Evaluator) : Prop :=
  wp x (fun _ _ => True) (fun _ s' => s'.accumulatedActions = s.accumulatedActions ∨ D) s

/-- An action that fails has queued nothing, or one of its evaluations queues an action. -/
theorem executeAction_quiet (ctx : EvalCtx) (action : Action) (s : Evaluator) :
    FailsQuietly (∃ site, ActionEval ctx action s site ∧ Queues ctx site) (executeAction ctx action) s := by
  let D := ∃ site, ActionEval ctx action s site ∧ Queues ctx site
  have hrules : ActionRules ctx action s (fun x t => Quiet D x t) (FailsQuietly D) := by
    constructor
    case pure => exact fun _ _ => .inl rfl
    case throw => exact fun _ _ => .inl rfl
    case bind => exact .bind
    case site =>
      intro t u hsite
      exact (evaluate_quiet (t.site u)).imp_right fun hqueues => ⟨_, hsite, hqueues⟩
    case start => exact fun hx => hx
    case next =>
      intro α x f u hx hf
      unfold FailsQuietly
      rw [wp_bind]
      unfold wp
      unfold Quiet at hx
      cases hrun : x u with
      | ok a u' =>
        rw [hrun, finalState_ok] at hx
        refine (hf a u' hrun).mono (fun _ _ h => h) fun _ _ h => ?_
        exact hx.elim (fun hx => h.imp_left fun h => h.trans hx) .inr
      | error e u' =>
        rw [hrun] at hx
        exact hx
    case refused => exact fun _ _ => .inl rfl
    case read => exact fun hf => hf
    case finish => exact fun _ _ _ => trivial
    case done => exact fun _ _ => trivial
  exact hrules.action

/-- The queue of a failing action is as before exactly if none of its evaluations queues an action. -/
theorem executeAction_queue {action : Action} {s s' : Evaluator} {e : MizuError}
    (h : executeAction ctx action s = .error e s') :
    s'.accumulatedActions = s.accumulatedActions ↔
      ∀ site, ActionEval ctx action s site → ¬Queues ctx site := by
  constructor
  · intro hsame site hsite hqueues
    have hleads := executeAction_leads hsite
    have hlt := length_lt_of_queues hqueues
    have hbefore := hleads.before.queue_grows.length_le
    have hafter := hleads.after.length_le
    rw [h, finalState_error, hsame] at hafter
    unfold queueAfter at hlt
    omega
  · intro hnone
    have hquiet := wp_of_error (Q := fun _ _ => True) (executeAction_quiet ctx action s) h
    exact hquiet.resolve_right fun ⟨site, hsite, hqueues⟩ => hnone site hsite hqueues

end Iff

end Mizu
