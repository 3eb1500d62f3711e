import Mizu.Types.Eval.Sites

/-!
# Which evaluations queue an action

`queues_iff`: an evaluation leaves the action queue as it was exactly if no evaluation it performs,
in its own frame or in the body of a function, queues an action itself.
-/

namespace Mizu

open Exec List

section Queues

variable (ctx : EvalCtx)

/-- The next evaluations of a site, its own frame's and its call's body. -/
def Performs (site site' : Site) : Prop := SubEval ctx site site' ∨ BodyEval ctx site site'

/-- The evaluation reaches a call that queues an action. -/
def Queues (site : Site) : Prop :=
  ∃ last action t, Relation.ReflTransGen (Performs ctx) site last ∧ Acts ctx last action t

variable {ctx} {site site' : Site}

theorem Queues.head (h : Performs ctx site site') (h' : Queues ctx site') : Queues ctx site := by
  obtain ⟨last, action, t, hpath, hact⟩ := h'
  exact ⟨last, action, t, hpath.head h, hact⟩

/-! ## Nothing queued unless a call queues it -/

/-- From `s`, the run leaves the queue as it was, or `D` holds. -/
def Quiet {α : Type} (D : Prop) (x : EvalM α) (s : Evaluator) : Prop :=
  (finalState (x s)).accumulatedActions = s.accumulatedActions ∨ D

theorem Quiet.bind {α β : Type} {D : Prop} {x : EvalM α} {f : α → EvalM β} {s : Evaluator}
    (hx : Quiet D x s) (hf : ∀ a s', x s = .ok a s' → Quiet D (f a) s') : Quiet D (x >>= f) s := by
  refine hx.elim (fun hx => ?_) .inr
  unfold Quiet
  rw [bind_apply]
  cases hxs : x s with
  | ok a s' =>
    rw [hxs, finalState_ok] at hx
    exact (hf a s' hxs).imp_left fun h => h.trans hx
  | error e s' =>
    rw [hxs] at hx
    exact .inl hx

theorem onExit_actions {α : Type} (x : EvalM α) (g : Evaluator → Evaluator)
    (hg : ∀ s, (g s).accumulatedActions = s.accumulatedActions) (s : Evaluator) :
    (finalState (onExit x g s)).accumulatedActions = (finalState (x s)).accumulatedActions := by
  unfold onExit
  cases x s with
  | ok a t => exact hg t
  | error e t => exact hg t

theorem bindParams_actions (params : List (Symbol × ValueType)) (vs : List Value) (s : Evaluator) :
    (finalState (bindParams params vs s)).accumulatedActions = s.accumulatedActions := by
  induction params generalizing vs s with
  | nil => rfl
  | cons p params ih =>
    cases vs with
    | nil => rfl
    | cons v vs =>
      simp only [bindParams]
      cases checkType v p.2 with
      | ok _ => exact ih vs (s.pushLocal p.1 v)
      | error e => rfl

theorem quietLogic {D : Prop} {site : Site}
    (hsub : ∀ sub, Performs ctx site sub →
      Quiet D (evaluate ctx sub.framePointer sub.arena sub.expr) sub.state)
    (hact : ∀ {action t}, Acts ctx site action t → D) :
    SiteLogic ctx site fun x s => Quiet D x s where
  pure _ _ := .inl rfl
  throw _ _ := .inl rfl
  get _ := .inl rfl
  native x s := by
    unfold Quiet Mizu.native
    cases x s.maxInstructions s.instructionCount <;> exact .inl rfl
  bind := .bind
  sub h := hsub _ (.inl h)
  act h := .inr (hact h)
  letBody {fp a x v e t} h := by
    refine (hsub _ (.inl h)).imp_left fun hq => ?_
    exact (onExit_actions (evaluate ctx fp a e) (·.popLocal) (fun _ => rfl) (t.pushLocal x v)).trans hq
  callBody {func vs t} h := by
    unfold Quiet
    simp only [enterBody, bind_apply, get_apply]
    have hparams := bindParams_actions func.params vs t
    cases hbind : bindParams func.params vs t with
    | ok _ u =>
      rw [hbind, finalState_ok] at hparams
      simp only
      rw [onExit_actions _ (·.truncateLocals t.locals.stack.length) (fun _ => rfl), ← hparams]
      exact hsub _ (.inr ⟨func, vs, t, u, h, hbind, rfl⟩)
    | error e u =>
      rw [hbind, finalState_error] at hparams
      exact .inl hparams

theorem evaluate_quiet (site : Site) :
    Quiet (Queues ctx site) (evaluate ctx site.framePointer site.arena site.expr) site.state := by
  induction site using Site.induction with
  | step site ih =>
    obtain ⟨fp, a, e, s⟩ := site
    rcases enter_cases s with ⟨err, hs⟩ | ⟨-, hs⟩
    · refine .inl ?_
      simp only [evaluate_of_enter_error hs, finalState_error]
    · have hsub : ∀ sub, Performs ctx ⟨fp, a, e, s⟩ sub → Quiet (Queues ctx ⟨fp, a, e, s⟩)
          (evaluate ctx sub.framePointer sub.arena sub.expr) sub.state := by
        intro sub h
        have hd := h.elim SubEval.depth BodyEval.depth
        exact (ih sub hd.1 hd.2).imp_right (Queues.head h)
      have hlevel := (quietLogic hsub fun h => ⟨_, _, _, .refl, h⟩).level hs
      refine hlevel.imp_left fun h => ?_
      simp only [evaluate_of_enter_ok hs]
      exact (onExit_actions _ leave (fun _ => rfl) _).trans h

/-! ## What a call queues stays queued -/

/-- The queue a run leaves. -/
def queueAfter {α : Type} (x : EvalM α) (s : Evaluator) : List RuntimeAction :=
  (finalState (x s)).accumulatedActions

theorem queueAfter_bind {α β : Type} {x : EvalM α} {f : α → EvalM β} (hf : ∀ a, Framed (f a))
    (s : Evaluator) : queueAfter x s <+: queueAfter (x >>= f) s := by
  unfold queueAfter
  rw [bind_apply]
  cases x s with
  | error e t => exact prefix_refl _
  | ok a t =>
    have hft := hf a t
    unfold wp at hft
    simp only [finalState_ok]
    cases hr : f a t with
    | ok | error =>
      rw [hr] at hft
      obtain ⟨as, has, -⟩ := hft.actions
      exact has ▸ prefix_append _ _

theorem Kept.queue_grows {s t : Evaluator} (h : Kept s t) :
    s.accumulatedActions <+: t.accumulatedActions := by
  obtain ⟨as, has, -⟩ := h.actions
  exact has ▸ prefix_append _ _

theorem queueAfter_evaluate {fp : Nat} {a : ExprArena} {e : Expr} {s s₁ : Evaluator}
    (henter : enter s = .ok () s₁) :
    queueAfter (evaluate ctx fp a e) s = queueAfter (evaluateImpl ctx (evaluate ctx) fp a e) s₁ := by
  unfold queueAfter
  rw [evaluate_of_enter_ok henter, onExit_actions _ leave fun _ => rfl]

theorem queueAfter_of_ok {α β : Type} {x : EvalM α} {f : α → EvalM β} {s t : Evaluator} {v : α}
    (h : x s = .ok v t) : queueAfter (x >>= f) s = queueAfter (f v) t := by
  unfold queueAfter
  rw [bind_ok h]

theorem queueAfter_evalArgs {fp : Nat} {a : ExprArena} {es : List Expr} {s : Evaluator} {sub : Site}
    (h : ArgSub ctx fp a es s sub) :
    queueAfter (evaluate ctx sub.framePointer sub.arena sub.expr) sub.state <+:
      queueAfter (evalArgs (evaluate ctx fp a) es) s := by
  induction h with
  | @head e es s =>
    exact queueAfter_bind (fun v => .bind frame_composes
      (evalArgs_framed (evaluate_frame ctx fp a) es) fun _ => .pure frame_composes _) s
  | @tail e es s s' v sub hrun _ ih =>
    simp only [evalArgs]
    rw [queueAfter_of_ok hrun]
    exact ih.trans (queueAfter_bind (fun _ => .pure frame_composes _) s')

section Extends

variable {fp : Nat} {a : ExprArena} {f : Symbol} {st len : Nat} {s s₁ : Evaluator}

/-- A call leaves at least what its arguments queue. -/
theorem queueAfter_callArg {sub : Site} (henter : enter s = .ok () s₁)
    (hstrict : StrictCall ctx f (a.args st len)) (harg : ArgSub ctx fp a (a.args st len) s₁ sub) :
    queueAfter (evaluate ctx sub.framePointer sub.arena sub.expr) sub.state <+:
      queueAfter (evaluate ctx fp a (.functionCall f st len)) s := by
  rw [queueAfter_evaluate henter]
  simp only [evaluateImpl]
  refine (queueAfter_evalArgs harg).trans ?_
  unfold StrictCall at hstrict
  split at hstrict
  · rename_i hname
    rw [evaluateCall_pure hname]
    exact queueAfter_bind (fun _ => native_framed _) s₁
  · rename_i hname
    rw [evaluateCall_copyToClipboard hname]
    obtain ⟨e, he⟩ := length_eq_one_iff.mp hstrict
    rw [he]
    -- The list of one argument is evaluated like the argument.
    have hone : queueAfter (evalArgs (evaluate ctx fp a) [e]) s₁ = queueAfter (evaluate ctx fp a e) s₁ := by
      unfold queueAfter
      simp only [evalArgs, bind_apply, pure_apply]
      cases evaluate ctx fp a e s₁ <;> rfl
    rw [hone]
    refine queueAfter_bind (fun v => ?_) s₁
    split
    · exact .bind frame_composes (act_framed trivial) fun _ => .pure frame_composes _
    · exact .throw frame_composes _
  · rename_i hname
    obtain ⟨func, hfunc, harity⟩ := hstrict
    rw [evaluateCall_none hname]
    rw [callFunction_some hfunc harity]
    exact queueAfter_bind (frame_framed (evaluate_frame ctx) func) s₁
  · exact hstrict.elim

theorem queueAfter_subEval (h : SubEval ctx site site') :
    queueAfter (evaluate ctx site'.framePointer site'.arena site'.expr) site'.state <+:
      queueAfter (evaluate ctx site.framePointer site.arena site.expr) site.state := by
  have hpure : ∀ {α : Type} (v : α), Framed (Pure.pure v : EvalM α) := fun v => .pure frame_composes v
  cases h with
  | binaryLeft henter =>
    rw [queueAfter_evaluate henter]
    exact queueAfter_bind
      (fun _ => .bind frame_composes (evaluate_frame ctx _ _ _) fun _ => native_framed _) _
  | binaryRight henter hleft =>
    rw [queueAfter_evaluate henter]
    simp only [evaluateImpl]
    rw [queueAfter_of_ok hleft]
    exact queueAfter_bind (fun _ => native_framed _) _
  | letValue henter =>
    rw [queueAfter_evaluate henter]
    exact queueAfter_bind (fun v => withLocal_framed (evaluate_frame ctx _ _ _) _ v) _
  | @letBody fp a x v b s s₁ w s₂ henter hvalue =>
    rw [queueAfter_evaluate henter]
    simp only [evaluateImpl]
    rw [queueAfter_of_ok hvalue]
    simp only [queueAfter, bind_apply, modify_apply]
    rw [onExit_actions _ (·.popLocal) fun _ => rfl]
  | notInner henter =>
    rw [queueAfter_evaluate henter]
    exact queueAfter_bind (fun _ => native_framed _) _
  | condition henter =>
    rw [queueAfter_evaluate henter]
    refine queueAfter_bind (fun v => ?_) _
    split
    · exact evaluate_frame ctx _ _ _
    · exact evaluate_frame ctx _ _ _
    · exact .throw frame_composes _
  | @branch fp a c t e s s₁ b s₂ henter hcond =>
    rw [queueAfter_evaluate henter]
    simp only [evaluateImpl]
    rw [queueAfter_of_ok hcond]
    cases b <;> exact prefix_refl _
  | fieldBase henter =>
    rw [queueAfter_evaluate henter]
    exact queueAfter_bind (fun _ => native_framed _) _
  | callArg henter hstrict harg => exact queueAfter_callArg henter hstrict harg
  | storeKey henter hname hargs =>
    rw [queueAfter_evaluate henter]
    simp only [evaluateImpl]
    rw [evaluateCall_storeLocal hname, hargs]
    refine queueAfter_bind (fun v => ?_) _
    split
    · refine .bind frame_composes (evaluate_frame ctx _ _ _) fun _ => ?_
      exact .bind frame_composes (act_framed trivial) fun _ => hpure _
    · exact .throw frame_composes _
  | storeValue henter hname hargs hkey =>
    rw [queueAfter_evaluate henter]
    simp only [evaluateImpl]
    rw [evaluateCall_storeLocal hname, hargs, storeLocal, queueAfter_of_ok hkey]
    refine queueAfter_bind (fun v => ?_) _
    exact .bind frame_composes (act_framed trivial) fun _ => hpure _

theorem queueAfter_bodyEval (h : BodyEval ctx site site') :
    queueAfter (evaluate ctx site'.framePointer site'.arena site'.expr) site'.state <+:
      queueAfter (evaluate ctx site.framePointer site.arena site.expr) site.state := by
  obtain ⟨func, vs, t, u, ⟨name, st, len, s₁, hexpr, henter, hname, hfunc, harity, hargs⟩, hbind, rfl⟩ := h
  rw [hexpr, queueAfter_evaluate henter]
  simp only [evaluateImpl]
  rw [evaluateCall_none hname, callFunction_some hfunc harity, queueAfter_of_ok hargs]
  simp only [queueAfter, bind_apply, get_apply, hbind]
  rw [onExit_actions _ (·.truncateLocals t.locals.stack.length) fun _ => rfl]

theorem queueAfter_acts {site : Site} {action : RuntimeAction} {t : Evaluator}
    (h : Acts ctx site action t) :
    (t.act action).accumulatedActions <+:
      queueAfter (evaluate ctx site.framePointer site.arena site.expr) site.state := by
  cases h with
  | copyToClipboard henter hname hargs hrun =>
    rw [queueAfter_evaluate henter]
    simp only [evaluateImpl]
    rw [evaluateCall_copyToClipboard hname, hargs, copyToClipboard, queueAfter_of_ok hrun]
    exact prefix_refl _
  | getSystemTime henter hname hargs htarget =>
    rw [queueAfter_evaluate henter]
    simp only [evaluateImpl]
    rw [evaluateCall_getSystemTime hname, hargs]
    simp only [queueAfter, getSystemTime, bind_apply, get_apply, if_neg htarget]
    exact prefix_refl _
  | storeLocal henter hname hargs hkey hvalue =>
    rw [queueAfter_evaluate henter]
    simp only [evaluateImpl]
    rw [evaluateCall_storeLocal hname, hargs, storeLocal, queueAfter_of_ok hkey]
    simp only
    rw [queueAfter_of_ok hvalue]
    exact prefix_refl _
  | download henter hname hargs =>
    rw [queueAfter_evaluate henter]
    simp only [evaluateImpl]
    rw [evaluateCall_download hname, hargs]
    exact prefix_refl _

end Extends

theorem kept_enter {s s₁ : Evaluator} (h : enter s = .ok () s₁) :
    s₁.accumulatedActions = s.accumulatedActions := by
  obtain ⟨-, rfl⟩ := enter_ok h
  rfl

/-- What is queued when a site performs another is at least what was queued when it began. -/
theorem Performs.queue_grows (h : Performs ctx site site') :
    site.state.accumulatedActions <+: site'.state.accumulatedActions := by
  rcases h with h | ⟨func, vs, t, u, ⟨name, st, len, s₁, -, henter, -, -, -, hargs⟩, hbind, rfl⟩
  · cases h with
    | binaryLeft henter => exact kept_enter henter ▸ prefix_refl _
    | binaryRight henter hleft =>
      exact kept_enter henter ▸ (evaluate_returned hleft).queue_grows
    | letValue henter => exact kept_enter henter ▸ prefix_refl _
    | letBody henter hvalue => exact kept_enter henter ▸ (evaluate_returned hvalue).queue_grows
    | notInner henter => exact kept_enter henter ▸ prefix_refl _
    | condition henter => exact kept_enter henter ▸ prefix_refl _
    | branch henter hcond => exact kept_enter henter ▸ (evaluate_returned hcond).queue_grows
    | fieldBase henter => exact kept_enter henter ▸ prefix_refl _
    | callArg henter _ harg => exact kept_enter henter ▸ harg.returned.queue_grows
    | storeKey henter => exact kept_enter henter ▸ prefix_refl _
    | storeValue henter _ _ hkey => exact kept_enter henter ▸ (evaluate_returned hkey).queue_grows
  · have hu := bindParams_actions func.params vs t
    rw [hbind, finalState_ok] at hu
    simp only [hu]
    exact kept_enter henter ▸ (evalArgs_returned hargs).queue_grows

theorem Acts.queue_grows {site : Site} {action : RuntimeAction} {t : Evaluator}
    (h : Acts ctx site action t) : site.state.accumulatedActions <+: t.accumulatedActions := by
  cases h with
  | copyToClipboard henter _ _ hrun => exact kept_enter henter ▸ (evaluate_returned hrun).queue_grows
  | getSystemTime henter => exact kept_enter henter ▸ prefix_refl _
  | storeLocal henter _ _ hkey hvalue =>
    exact kept_enter henter ▸
      (evaluate_returned hkey).queue_grows.trans (evaluate_returned hvalue).queue_grows
  | download henter => exact kept_enter henter ▸ prefix_refl _

theorem length_lt_of_queues {site : Site} (h : Queues ctx site) :
    site.state.accumulatedActions.length <
      (queueAfter (evaluate ctx site.framePointer site.arena site.expr) site.state).length := by
  obtain ⟨last, action, t, hpath, hact⟩ := h
  induction hpath using Relation.ReflTransGen.head_induction_on with
  | refl =>
    have h₁ := hact.queue_grows.length_le
    have h₂ := (queueAfter_acts hact).length_le
    simp only [Evaluator.act, length_append, length_singleton] at h₂
    omega
  | head hstep _ ih =>
    have h₁ := hstep.queue_grows.length_le
    have h₂ := (hstep.elim queueAfter_subEval queueAfter_bodyEval).length_le
    omega

/-- An evaluation leaves the queue as it was exactly if it reaches no call that queues. -/
theorem queues_iff (site : Site) :
    (finalState (evaluate ctx site.framePointer site.arena site.expr site.state)).accumulatedActions
      = site.state.accumulatedActions ↔ ¬Queues ctx site := by
  constructor
  · grind [queueAfter, length_lt_of_queues, lt_irrefl]
  · exact fun hq => (evaluate_quiet site).resolve_right hq

end Queues

end Mizu
