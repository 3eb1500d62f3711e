import Mizu.Types.Eval.Agree

/-!
# The evaluations an evaluation performs

A `Site` is one call of `evaluate`: its arguments and the state it starts from. `SubEval` relates a
site to the sites its evaluation performs next in the same frame, `BodyEval` to the body of the
function it calls, which runs in a frame of its own; `Acts` says which action a site queues itself.
Each site is one level deeper than the one that performs it (`SubEval.depth`, `BodyEval.depth`),
which gives the induction over a whole run (`Site.induction`).

`SiteRules` is a judgement about programs with one rule for each way a level composes what it
performs; `SiteRules.level` derives it for the whole level. `SiteLogic` is a judgement that also holds
of reading the state.
-/

namespace Mizu

open Exec

structure Site where
  framePointer : Nat
  arena : ExprArena
  expr : Expr
  state : Evaluator

section Sites

variable (ctx : EvalCtx)

/-- The result of the call. -/
def Site.run (site : Site) : EStateM.Result MizuError Evaluator Value :=
  evaluate ctx site.framePointer site.arena site.expr site.state

/-- The evaluation of one argument of a list that is evaluated left to right from a state. -/
inductive ArgSub (fp : Nat) (arena : ExprArena) : List Expr → Evaluator → Site → Prop where
  | head {e es s} : ArgSub fp arena (e :: es) s ⟨fp, arena, e, s⟩
  | tail {e es s s' v site} (hrun : evaluate ctx fp arena e s = .ok v s')
      (hsub : ArgSub fp arena es s' site) : ArgSub fp arena (e :: es) s site

/-- A call evaluates all its arguments, left to right, before it does anything else. -/
def StrictCall (name : Symbol) (args : List Expr) : Prop :=
  match Builtin.dispatch (ctx.nameOf name) args.length with
  | some (.pure _) => True
  | some .copyToClipboard => args.length = 1
  | none => ∃ func, ctx.functions.lookup name = some func ∧ args.length = func.params.length
  | _ => False

/-- The evaluations a site performs in its own frame. -/
inductive SubEval : Site → Site → Prop where
  | binaryLeft {fp a l op r s s₁} (henter : enter s = .ok () s₁) :
      SubEval ⟨fp, a, .binaryOp l op r, s⟩ ⟨fp, a, a.get l, s₁⟩
  | binaryRight {fp a l op r s s₁ v s₂} (henter : enter s = .ok () s₁)
      (hleft : evaluate ctx fp a (a.get l) s₁ = .ok v s₂) :
      SubEval ⟨fp, a, .binaryOp l op r, s⟩ ⟨fp, a, a.get r, s₂⟩
  | letValue {fp a x v b s s₁} (henter : enter s = .ok () s₁) :
      SubEval ⟨fp, a, .letIn x v b, s⟩ ⟨fp, a, a.get v, s₁⟩
  | letBody {fp a x v b s s₁ w s₂} (henter : enter s = .ok () s₁)
      (hvalue : evaluate ctx fp a (a.get v) s₁ = .ok w s₂) :
      SubEval ⟨fp, a, .letIn x v b, s⟩ ⟨fp, a, a.get b, s₂.pushLocal x w⟩
  | notInner {fp a e s s₁} (henter : enter s = .ok () s₁) :
      SubEval ⟨fp, a, .not e, s⟩ ⟨fp, a, a.get e, s₁⟩
  | condition {fp a c t e s s₁} (henter : enter s = .ok () s₁) :
      SubEval ⟨fp, a, .ifElse c t e, s⟩ ⟨fp, a, a.get c, s₁⟩
  | branch {fp a c t e s s₁ b s₂} (henter : enter s = .ok () s₁)
      (hcond : evaluate ctx fp a (a.get c) s₁ = .ok (.bool b) s₂) :
      SubEval ⟨fp, a, .ifElse c t e, s⟩ ⟨fp, a, a.get (if b then t else e), s₂⟩
  | fieldBase {fp a b f h s s₁} (henter : enter s = .ok () s₁) :
      SubEval ⟨fp, a, .fieldAccess b f h, s⟩ ⟨fp, a, a.get b, s₁⟩
  | callArg {fp a f st len s s₁ site} (henter : enter s = .ok () s₁)
      (hstrict : StrictCall ctx f (a.args st len)) (harg : ArgSub ctx fp a (a.args st len) s₁ site) :
      SubEval ⟨fp, a, .functionCall f st len, s⟩ site
  | storeKey {fp a f st len s s₁ k e} (henter : enter s = .ok () s₁)
      (hname : Builtin.dispatch (ctx.nameOf f) (a.args st len).length = some .storeLocal)
      (hargs : a.args st len = [k, e]) :
      SubEval ⟨fp, a, .functionCall f st len, s⟩ ⟨fp, a, k, s₁⟩
  | storeValue {fp a f st len s s₁ k e key s₂} (henter : enter s = .ok () s₁)
      (hname : Builtin.dispatch (ctx.nameOf f) (a.args st len).length = some .storeLocal)
      (hargs : a.args st len = [k, e]) (hkey : evaluate ctx fp a k s₁ = .ok (.string key) s₂) :
      SubEval ⟨fp, a, .functionCall f st len, s⟩ ⟨fp, a, e, s₂⟩

/-- The site calls `func` and has evaluated its arguments to `vs`, reaching the state `t`. -/
def BindsArgs (site : Site) (func : MizuFunction) (vs : List Value) (t : Evaluator) : Prop :=
  ∃ name st len s₁, site.expr = .functionCall name st len ∧ enter site.state = .ok () s₁ ∧
    Builtin.dispatch (ctx.nameOf name) (site.arena.args st len).length = none ∧
    ctx.functions.lookup name = some func ∧
    (site.arena.args st len).length = func.params.length ∧
    evalArgs (evaluate ctx site.framePointer site.arena) (site.arena.args st len) s₁ = .ok vs t

/-- The site, having reached the state `t`, queues the action. -/
inductive Acts : Site → RuntimeAction → Evaluator → Prop where
  | copyToClipboard {fp a f st len s s₁ e nodeId t} (henter : enter s = .ok () s₁)
      (hname : Builtin.dispatch (ctx.nameOf f) (a.args st len).length = some .copyToClipboard)
      (hargs : a.args st len = [e]) (hrun : evaluate ctx fp a e s₁ = .ok (.string nodeId) t) :
      Acts ⟨fp, a, .functionCall f st len, s⟩ (.copyToClipboard nodeId) t
  | getSystemTime {fp a f st len s s₁ sym} (henter : enter s = .ok () s₁)
      (hname : Builtin.dispatch (ctx.nameOf f) (a.args st len).length = some .getSystemTime)
      (hargs : a.args st len = [.var sym]) (htarget : sym ∉ s₁.computedVarSyms) :
      Acts ⟨fp, a, .functionCall f st len, s⟩ (.getSystemTime sym) s₁
  | storeLocal {fp a f st len s s₁ k e key s₂ v t} (henter : enter s = .ok () s₁)
      (hname : Builtin.dispatch (ctx.nameOf f) (a.args st len).length = some .storeLocal)
      (hargs : a.args st len = [k, e]) (hkey : evaluate ctx fp a k s₁ = .ok (.string key) s₂)
      (hvalue : evaluate ctx fp a e s₂ = .ok v t) :
      Acts ⟨fp, a, .functionCall f st len, s⟩ (.storeLocal key v) t
  | download {fp a f st len s s₁ sym} (henter : enter s = .ok () s₁)
      (hname : Builtin.dispatch (ctx.nameOf f) (a.args st len).length = some .download)
      (hargs : a.args st len = [.var sym]) :
      Acts ⟨fp, a, .functionCall f st len, s⟩ (.downloadAlias sym.id) s₁

/-- The body of the function a site calls, with its parameters bound. -/
def BodyEval (site site' : Site) : Prop :=
  ∃ func vs t u, BindsArgs ctx site func vs t ∧ bindParams func.params vs t = .ok () u ∧
    site' = ⟨t.locals.stack.length, func.body.arena, func.body.rootExpr, u⟩

end Sites

variable {a : ExprArena} {fp : Nat} {e : Expr} {es : List Expr}

section Depth

variable {ctx : EvalCtx}

theorem enter_ok {s s₁ : Evaluator} (h : enter s = .ok () s₁) : s.evalDepth < maxEvalDepth ∧
    s₁ = { s with instructionCount := s.instructionCount + 1, evalDepth := s.evalDepth + 1 } := by
  rcases enter_cases s with ⟨e, he⟩ | ⟨hlt, he⟩
  · simp [he] at h
  · grind

variable {s s' : Evaluator}

theorem evaluate_returned {v : Value} (h : evaluate ctx fp a e s = .ok v s') : Returned s s' :=
  (evaluate_frame ctx fp a e).of_ok h

theorem evaluate_threw {err : MizuError} (h : evaluate ctx fp a e s = .error err s') : Threw s s' :=
  (evaluate_frame ctx fp a e).of_error h

theorem evalArgs_returned
    {vs : List Value} (h : evalArgs (evaluate ctx fp a) es s = .ok vs s') : Returned s s' :=
  (evalArgs_framed (evaluate_frame ctx fp a) es).of_ok h

theorem ArgSub.returned {s : Evaluator} {site : Site}
    (h : ArgSub ctx fp a es s site) : Returned s site.state := by
  induction h with
  | head => exact frame_composes.refl _
  | tail hrun _ ih => exact frame_composes.trans (evaluate_returned hrun) ih

theorem ArgSub.expr_mem {s : Evaluator} {sub : Site}
    (h : ArgSub ctx fp a es s sub) : sub.arena = a ∧ sub.expr ∈ es := by
  induction h with
  | head => simp
  | tail _ _ ih => exact ⟨ih.1, List.mem_cons_of_mem _ ih.2⟩

theorem SubEval.depth {site site' : Site} (h : SubEval ctx site site') :
    site'.state.evalDepth = site.state.evalDepth + 1 ∧ site.state.evalDepth < maxEvalDepth := by
  have key : ∀ {s s₁ t : Evaluator}, enter s = .ok () s₁ → t.evalDepth = s₁.evalDepth →
      t.evalDepth = s.evalDepth + 1 ∧ s.evalDepth < maxEvalDepth := by
    intro s s₁ t henter ht
    obtain ⟨hlt, rfl⟩ := enter_ok henter
    exact ⟨ht, hlt⟩
  cases h with
  | binaryLeft henter => exact key henter rfl
  | binaryRight henter hleft => exact key henter (evaluate_returned hleft).evalDepth
  | letValue henter => exact key henter rfl
  | letBody henter hvalue =>
    have hd := (evaluate_returned hvalue).evalDepth
    exact key henter (by simpa [Evaluator.pushLocal] using hd)
  | notInner henter => exact key henter rfl
  | condition henter => exact key henter rfl
  | branch henter hcond => exact key henter (evaluate_returned hcond).evalDepth
  | fieldBase henter => exact key henter rfl
  | callArg henter _ harg => exact key henter harg.returned.evalDepth
  | storeKey henter => exact key henter rfl
  | storeValue henter _ _ hkey => exact key henter (evaluate_returned hkey).evalDepth

theorem BodyEval.depth {site site' : Site} (h : BodyEval ctx site site') :
    site'.state.evalDepth = site.state.evalDepth + 1 ∧ site.state.evalDepth < maxEvalDepth := by
  obtain ⟨func, vs, t, u, ⟨name, st, len, s₁, -, henter, -, -, -, hargs⟩, hbind, rfl⟩ := h
  obtain ⟨hlt, rfl⟩ := enter_ok henter
  have ht := (evalArgs_returned hargs).evalDepth
  have hu : u.evalDepth = t.evalDepth := by
    have hb := bindParams_below func.params vs t
    unfold wp at hb
    rw [hbind] at hb
    exact hb.evalDepth
  exact ⟨hu.trans ht, hlt⟩

/-- Induction over a run: a site may assume the statement for every site one level deeper. -/
theorem Site.induction {P : Site → Prop}
    (step : ∀ site, (∀ site', site'.state.evalDepth = site.state.evalDepth + 1 →
      site.state.evalDepth < maxEvalDepth → P site') → P site) (site : Site) : P site := by
  induction hn : maxEvalDepth - site.state.evalDepth using Nat.strong_induction_on
    generalizing site with
  | _ n ih => exact step site fun site' hd hlt => ih _ (by omega) site' rfl

section Call

variable {ev : Recur} {fp : Nat} {a : ExprArena} {f : Symbol} {args : List Expr}

theorem evaluateCall_none (h : Builtin.dispatch (ctx.nameOf f) args.length = none) :
    evaluateCall ctx ev fp a f args = callFunction ctx ev fp a f args := by
  rw [evaluateCall, h]

theorem evaluateCall_storeLocal (h : Builtin.dispatch (ctx.nameOf f) args.length = some .storeLocal) :
    evaluateCall ctx ev fp a f args = storeLocal (ev fp a) args := by
  rw [evaluateCall, h]

theorem evaluateCall_copyToClipboard
    (h : Builtin.dispatch (ctx.nameOf f) args.length = some .copyToClipboard) :
    evaluateCall ctx ev fp a f args = copyToClipboard (ev fp a) args := by
  rw [evaluateCall, h]

theorem evaluateCall_getSystemTime
    (h : Builtin.dispatch (ctx.nameOf f) args.length = some .getSystemTime) :
    evaluateCall ctx ev fp a f args = getSystemTime args := by
  rw [evaluateCall, h]

theorem evaluateCall_download (h : Builtin.dispatch (ctx.nameOf f) args.length = some .download) :
    evaluateCall ctx ev fp a f args = download args := by
  rw [evaluateCall, h]

theorem evaluateCall_pure {p : PureBuiltin}
    (h : Builtin.dispatch (ctx.nameOf f) args.length = some (.pure p)) :
    evaluateCall ctx ev fp a f args = (do
      let vs ← evalArgs (ev fp a) args
      native fun max => p.apply ctx.arcEq max vs) := by
  rw [evaluateCall, h]

/-- A call of a declared function with the right number of arguments. -/
theorem callFunction_some {func : MizuFunction} (hfunc : ctx.functions.lookup f = some func)
    (harity : args.length = func.params.length) :
    callFunction ctx ev fp a f args = (do
      let vs ← evalArgs (ev fp a) args
      let newFp := (← get).locals.stack.length
      bindParams func.params vs
      onExit (ev newFp func.body.arena func.body.rootExpr) (·.truncateLocals newFp)) := by
  simp only [callFunction, hfunc, harity, ne_eq, not_true_eq_false, if_false]

end Call

/-- A call of `evaluate` that is refused at its head ends there. -/
theorem evaluate_of_enter_error {err : MizuError} (h : enter s = .error err s') :
    evaluate ctx fp a e s = .error err s' := by
  rw [evaluate_eq, bind_error h]

/-- A call of `evaluate` that passes its head runs one level and leaves it. -/
theorem evaluate_of_enter_ok {s s₁ : Evaluator} (h : enter s = .ok () s₁) :
    evaluate ctx fp a e s = onExit (evaluateImpl ctx (evaluate ctx) fp a e) leave s₁ := by
  rw [evaluate_eq, bind_ok h]

/-- With room for one more instruction and one more level, the head of a call passes. -/
theorem enter_of_room {s : Evaluator} (hcount : s.instructionCount < s.maxInstructions)
    (hdepth : s.evalDepth < maxEvalDepth) : enter s =
      .ok () { s with instructionCount := s.instructionCount + 1, evalDepth := s.evalDepth + 1 } := by
  have hc : ¬s.instructionCount + 1 > s.maxInstructions := by omega
  have hd : ¬s.evalDepth + 1 > maxEvalDepth := by omega
  unfold enter
  rw [if_neg hc, if_neg hd]

theorem evaluate_literal (fp : Nat) (a : ExprArena) (v : Value) {s : Evaluator}
    (hcount : s.instructionCount < s.maxInstructions) (hdepth : s.evalDepth < maxEvalDepth) :
    evaluate ctx fp a (.literal v) s =
      .ok v { s with instructionCount := s.instructionCount + 1 } := by
  rw [evaluate_of_enter_ok (enter_of_room hcount hdepth)]
  rfl

end Depth

/-! ## One level, from what it performs -/

/-- The call of a function once its arguments are evaluated. -/
def enterBody (ctx : EvalCtx) (func : MizuFunction) (vs : List Value) : EvalM Value := do
  let newFp := (← get).locals.stack.length
  bindParams func.params vs
  onExit (evaluate ctx newFp func.body.arena func.body.rootExpr) (·.truncateLocals newFp)

/-- The body of a `let` once its value is known. -/
def enterLet (ctx : EvalCtx) (fp : Nat) (a : ExprArena) (x : Symbol) (v : Value) (body : Expr) :
    EvalM Value := do
  modify (·.pushLocal x v)
  onExit (evaluate ctx fp a body) (·.popLocal)

/-- A judgement about programs run from a state that holds of what the site performs and of how it
is composed. -/
structure SiteRules (ctx : EvalCtx) (site : Site) (J : {α : Type} → EvalM α → Evaluator → Prop) :
    Prop where
  pure : ∀ {α : Type} (a : α) s, J (Pure.pure a) s
  throw : ∀ {α : Type} e s, J (MonadExcept.throw e : EvalM α) s
  native : ∀ {α : Type} (x : Nat → EStateM MizuError Nat α) s, J (Mizu.native x) s
  bind : ∀ {α β : Type} {x : EvalM α} {f : α → EvalM β} {s}, J x s →
    (∀ a s', x s = .ok a s' → J (f a) s') → J (x >>= f) s
  sub : ∀ {fp a e t}, SubEval ctx site ⟨fp, a, e, t⟩ → J (evaluate ctx fp a e) t
  act : ∀ {action t}, Acts ctx site action t → J (modify (·.act action) : EvalM PUnit) t
  letBody : ∀ {fp a x v e t}, SubEval ctx site ⟨fp, a, e, t.pushLocal x v⟩ →
    J (enterLet ctx fp a x v e) t
  callBody : ∀ {func vs t}, BindsArgs ctx site func vs t → J (enterBody ctx func vs) t
  var : ∀ {sym s₁}, site.expr = .var sym → enter site.state = .ok () s₁ →
    J (readVariable ctx site.framePointer sym) s₁
  systemTime : ∀ {args s₁}, (∀ sym, args = [.var sym] → sym ∉ s₁.computedVarSyms →
    Acts ctx site (.getSystemTime sym) s₁) → J (getSystemTime args) s₁

namespace SiteRules

variable {ctx : EvalCtx} {fp : Nat} {a : ExprArena} {s s₁ : Evaluator}
variable {J : {α : Type} → EvalM α → Evaluator → Prop}

theorem evalArgs {site : Site} (hJ : SiteRules ctx site J) {t : Evaluator}
    (hargs : ∀ sub, ArgSub ctx fp a es t sub → SubEval ctx site sub) :
    J (Mizu.evalArgs (evaluate ctx fp a) es) t := by
  induction es generalizing t with
  | nil => exact hJ.pure _ _
  | cons e es ih =>
    refine hJ.bind (hJ.sub (hargs _ .head)) fun v t' hv => hJ.bind ?_ fun _ _ _ => hJ.pure _ _
    exact ih fun sub h => hargs sub (.tail hv h)

theorem call {f : Symbol} {st len : Nat}
    (hJ : SiteRules ctx ⟨fp, a, .functionCall f st len, s⟩ J) (henter : enter s = .ok () s₁) :
    J (evaluateCall ctx (evaluate ctx) fp a f (a.args st len)) s₁ := by
  unfold evaluateCall
  split
  · rename_i hname
    unfold copyToClipboard
    split
    · rename_i e hargs
      refine hJ.bind (hJ.sub (.callArg henter ?_ (hargs ▸ .head))) fun v t hv => ?_
      · unfold StrictCall
        rw [hname]
        exact hargs ▸ rfl
      · split
        · exact hJ.bind (hJ.act (.copyToClipboard henter hname hargs hv)) fun _ _ _ => hJ.pure _ _
        · exact hJ.throw _ _
    · exact hJ.throw _ _
  · rename_i hname
    exact hJ.systemTime fun sym hargs htarget => .getSystemTime henter hname hargs htarget
  · rename_i hname
    unfold storeLocal
    split
    · rename_i k e hargs
      refine hJ.bind (hJ.sub (.storeKey henter hname hargs)) fun v t hk => ?_
      split
      · refine hJ.bind (hJ.sub (.storeValue henter hname hargs hk)) fun w u hv => ?_
        exact hJ.bind (hJ.act (.storeLocal henter hname hargs hk hv)) fun _ _ _ => hJ.pure _ _
      · exact hJ.throw _ _
    · exact hJ.throw _ _
  · rename_i hname
    unfold download
    split
    · rename_i sym hargs
      exact hJ.bind (hJ.act (.download henter hname hargs)) fun _ _ _ => hJ.pure _ _
    · exact hJ.throw _ _
  · rename_i p hname
    refine hJ.bind (hJ.evalArgs fun sub h => .callArg henter ?_ h) fun vs _ _ => hJ.native _ _
    unfold StrictCall
    rw [hname]
    trivial
  · rename_i hname
    unfold callFunction
    split
    · exact hJ.throw _ _
    rename_i func hfunc
    split
    · exact hJ.throw _ _
    rename_i harity
    have harity := not_not.mp harity
    refine hJ.bind (hJ.evalArgs fun sub h => .callArg henter ?_ h) fun vs t ht => ?_
    · unfold StrictCall
      rw [hname]
      exact ⟨func, hfunc, harity⟩
    · exact hJ.callBody ⟨f, st, len, s₁, rfl, henter, hname, hfunc, harity, ht⟩

theorem level (hJ : SiteRules ctx ⟨fp, a, e, s⟩ J) (henter : enter s = .ok () s₁) :
    J (evaluateImpl ctx (evaluate ctx) fp a e) s₁ := by
  cases e with
  | literal v => exact hJ.pure _ _
  | var sym => exact hJ.var rfl henter
  | binaryOp l op r =>
    refine hJ.bind (hJ.sub (.binaryLeft henter)) fun lv t hl => ?_
    exact hJ.bind (hJ.sub (.binaryRight henter hl)) fun rv _ _ => hJ.native _ _
  | functionCall f st len => exact hJ.call henter
  | letIn x v b =>
    exact hJ.bind (hJ.sub (.letValue henter)) fun w t hv => hJ.letBody (.letBody henter hv)
  | not e => exact hJ.bind (hJ.sub (.notInner henter)) fun v _ _ => hJ.native _ _
  | ifElse c t e =>
    refine hJ.bind (hJ.sub (.condition henter)) fun v u hc => ?_
    split
    · exact hJ.sub (.branch henter hc)
    · exact hJ.sub (.branch henter hc)
    · exact hJ.throw _ _
  | fieldAccess b f h => exact hJ.bind (hJ.sub (.fieldBase henter)) fun v _ _ => hJ.native _ _

end SiteRules

/-- A judgement that does not depend on what is read from the state. -/
structure SiteLogic (ctx : EvalCtx) (site : Site) (J : {α : Type} → EvalM α → Evaluator → Prop) :
    Prop where
  pure : ∀ {α : Type} (a : α) s, J (Pure.pure a) s
  throw : ∀ {α : Type} e s, J (MonadExcept.throw e : EvalM α) s
  get : ∀ s, J (MonadState.get : EvalM Evaluator) s
  native : ∀ {α : Type} (x : Nat → EStateM MizuError Nat α) s, J (Mizu.native x) s
  bind : ∀ {α β : Type} {x : EvalM α} {f : α → EvalM β} {s}, J x s →
    (∀ a s', x s = .ok a s' → J (f a) s') → J (x >>= f) s
  sub : ∀ {fp a e t}, SubEval ctx site ⟨fp, a, e, t⟩ → J (evaluate ctx fp a e) t
  act : ∀ {action t}, Acts ctx site action t → J (modify (·.act action) : EvalM PUnit) t
  letBody : ∀ {fp a x v e t}, SubEval ctx site ⟨fp, a, e, t.pushLocal x v⟩ →
    J (enterLet ctx fp a x v e) t
  callBody : ∀ {func vs t}, BindsArgs ctx site func vs t → J (enterBody ctx func vs) t

namespace SiteLogic

variable {ctx : EvalCtx} {site : Site} {J : {α : Type} → EvalM α → Evaluator → Prop}

theorem rules (hJ : SiteLogic ctx site J) : SiteRules ctx site J where
  pure := hJ.pure
  throw := hJ.throw
  native := hJ.native
  bind := hJ.bind
  sub := hJ.sub
  act := hJ.act
  letBody := hJ.letBody
  callBody := hJ.callBody
  var _ _ := by
    refine hJ.bind (hJ.get _) fun t _ _ => ?_
    split
    · exact hJ.pure _ _
    · split
      · exact hJ.throw _ _
      · exact hJ.pure _ _
  systemTime {args s₁} hact := by
    unfold getSystemTime
    split
    · rename_i sym
      refine hJ.bind (hJ.get _) fun t t' ht => ?_
      obtain ⟨rfl, rfl⟩ : s₁ = t ∧ s₁ = t' := by simpa [get_apply] using ht
      split
      · exact hJ.throw _ _
      · rename_i htarget
        exact hJ.bind (hJ.act (hact sym rfl htarget)) fun _ _ _ => hJ.pure _ _
    · exact hJ.throw _ _

theorem level {s s₁ : Evaluator} (hJ : SiteLogic ctx ⟨fp, a, e, s⟩ J) (henter : enter s = .ok () s₁) :
    J (evaluateImpl ctx (evaluate ctx) fp a e) s₁ :=
  hJ.rules.level henter

end SiteLogic

end Mizu
