import Mizu.Types.Eval.Queue

/-!
# Evaluating without the document's functions

`withoutFunctions` is an evaluation context with an empty function table. Builtins are found by name
before the table is looked at, so the two evaluations of an expression part only where one reaches a
call of a declared function:

* `evaluate_withoutFunctions_eq`: an evaluation that reaches no such call gives the same result, in
  the same state, without the functions;
* `evaluate_withoutFunctions_throws`: one that reaches such a call throws without them.
-/

namespace Mizu

open Exec

/-- The same context with no function declared. -/
def EvalCtx.withoutFunctions (ctx : EvalCtx) : EvalCtx := { ctx with functions := ∅ }

theorem EvalCtx.lookup_withoutFunctions (ctx : EvalCtx) (f : Symbol) :
    ctx.withoutFunctions.functions.lookup f = none := Finmap.lookup_empty f

theorem readVariable_withoutFunctions (ctx : EvalCtx) (fp : Nat) (sym : Symbol) :
    readVariable ctx.withoutFunctions fp sym = readVariable ctx fp sym := rfl

theorem undefinedFunction_withoutFunctions (ctx : EvalCtx) (name : Symbol) :
    undefinedFunction ctx.withoutFunctions name = undefinedFunction ctx name := rfl

theorem callFunction_undeclared {ctx : EvalCtx} {f : Symbol} (h : ctx.functions.lookup f = none)
    (ev : Recur) (fp : Nat) (a : ExprArena) (args : List Expr) :
    callFunction ctx ev fp a f args = throw (undefinedFunction ctx f) := by
  simp only [callFunction, h]

section Parting

variable (ctx : EvalCtx)

/-- The site is a call of a declared function, under a name that is not a builtin's. -/
def CallSite (site : Site) : Prop :=
  ∃ f st len s₁ func, site.expr = .functionCall f st len ∧ enter site.state = .ok () s₁ ∧
    Builtin.dispatch (ctx.nameOf f) (site.arena.args st len).length = none ∧
    ctx.functions.lookup f = some func

/-- The evaluation reaches, in its own frame, a call of a declared function. -/
def ReachesCall (site : Site) : Prop :=
  ∃ site', Relation.ReflTransGen (SubEval ctx) site site' ∧ CallSite ctx site'

/-- The run throws. -/
def Throws {α : Type} (x : EvalM α) (s : Evaluator) : Prop := ∃ e s', x s = .error e s'

/-- Without the functions the site's evaluation is the same up to the first call of one, and throws
there. -/
structure PartsAtCall (site : Site) : Prop where
  same : ¬ReachesCall ctx site →
    evaluate ctx.withoutFunctions site.framePointer site.arena site.expr site.state =
      evaluate ctx site.framePointer site.arena site.expr site.state
  throws : ReachesCall ctx site →
    Throws (evaluate ctx.withoutFunctions site.framePointer site.arena site.expr) site.state

variable {ctx}

theorem ReachesCall.head {site site' : Site} (h : SubEval ctx site site')
    (h' : ReachesCall ctx site') : ReachesCall ctx site := by
  obtain ⟨last, hpath, hlast⟩ := h'
  exact ⟨last, hpath.head h, hlast⟩

section Bind

variable {α β : Type} {x x₀ : EvalM α} {f f₀ : α → EvalM β} {s s' : Evaluator} {a : α}

theorem bind_congr_at (hx : x₀ s = x s) (hf : ∀ a s', x s = .ok a s' → f₀ a s' = f a s') :
    (x₀ >>= f₀) s = (x >>= f) s := by
  grind [bind_apply]

theorem onExit_congr_at {g : Evaluator → Evaluator} (hx : x₀ s = x s) :
    onExit x₀ g s = onExit x g s := by
  unfold onExit
  rw [hx]

variable {ev ev₀ : Expr → EvalM Value}

theorem copyToClipboard_congr_at {args : List Expr}
    (h : ∀ e, args = [e] → ev₀ e s = ev e s) : copyToClipboard ev₀ args s = copyToClipboard ev args s :=
  match args, h with
  | [], _ | _ :: _ :: _, _ => rfl
  | [_], h => bind_congr_at (h _ rfl) fun _ _ _ => rfl

theorem storeLocal_congr_at {args : List Expr} (hkey : ∀ k e, args = [k, e] → ev₀ k s = ev k s)
    (hvalue : ∀ k e, args = [k, e] → ∀ key t, ev k s = .ok (.string key) t → ev₀ e t = ev e t) :
    storeLocal ev₀ args s = storeLocal ev args s :=
  match args, hkey, hvalue with
  | [], _, _ | [_], _, _ | _ :: _ :: _ :: _, _, _ => rfl
  | [k, e], hkey, hvalue => by
    refine bind_congr_at (hkey k e rfl) fun v t hk => ?_
    cases v with
    | string key => exact bind_congr_at (hvalue k e rfl key t hk) fun _ _ _ => rfl
    | _ => rfl

theorem Throws.bind (hx : Throws x s) : Throws (x >>= f) s := by
  obtain ⟨e, s', hx⟩ := hx
  exact ⟨e, s', bind_error hx⟩

/-- What follows a part throws, or the part itself does. -/
theorem Throws.bind_of (hx : x s = .ok a s' ∨ Throws x s) (hf : Throws (f a) s') :
    Throws (x >>= f) s := by
  rcases hx with hx | hx
  · obtain ⟨e, t, hf⟩ := hf
    exact ⟨e, t, by rw [bind_ok hx, hf]⟩
  · exact hx.bind

theorem Throws.onExit {g : Evaluator → Evaluator} (hx : Throws x s) : Throws (onExit x g) s := by
  obtain ⟨e, s', hx⟩ := hx
  exact ⟨e, g s', by simp only [Exec.onExit, hx]⟩

end Bind

/-- An evaluation that returns with the functions returns the same without them, or throws. -/
theorem PartsAtCall.ok_or_throws {fp : Nat} {a : ExprArena} {e : Expr} {s s' : Evaluator} {v : Value}
    (h : PartsAtCall ctx ⟨fp, a, e, s⟩) (hrun : evaluate ctx fp a e s = .ok v s') :
    evaluate ctx.withoutFunctions fp a e s = .ok v s' ∨
      Throws (evaluate ctx.withoutFunctions fp a e) s := by
  by_cases hcalls : ReachesCall ctx ⟨fp, a, e, s⟩
  · exact .inr (h.throws hcalls)
  · exact .inl ((h.same hcalls).trans hrun)

/-! ## The same up to a call -/

section Same

variable {fp : Nat} {a : ExprArena} {s s₁ : Evaluator} {site : Site}

/-- The evaluations that the site performs are the same without the functions. -/
def SameBelow (ctx : EvalCtx) (site : Site) : Prop :=
  ∀ {fp a e t}, SubEval ctx site ⟨fp, a, e, t⟩ →
    evaluate ctx.withoutFunctions fp a e t = evaluate ctx fp a e t

theorem SameBelow.evalArgs (h : SameBelow ctx site) {es : List Expr} {t : Evaluator}
    (hargs : ∀ sub, ArgSub ctx fp a es t sub → SubEval ctx site sub) :
    Mizu.evalArgs (evaluate ctx.withoutFunctions fp a) es t = Mizu.evalArgs (evaluate ctx fp a) es t := by
  induction es generalizing t with
  | nil => simp only [Mizu.evalArgs]
  | cons e es ih =>
    simp only [Mizu.evalArgs]
    refine bind_congr_at (h (hargs _ .head)) fun v t' hv => bind_congr_at ?_ fun _ _ _ => rfl
    exact ih fun sub hsub => hargs sub (.tail hv hsub)

theorem SameBelow.call {f : Symbol} {st len : Nat}
    (h : SameBelow ctx ⟨fp, a, .functionCall f st len, s⟩)
    (hno : ¬CallSite ctx ⟨fp, a, .functionCall f st len, s⟩) (henter : enter s = .ok () s₁) :
    evaluateCall ctx.withoutFunctions (evaluate ctx.withoutFunctions) fp a f (a.args st len) s₁ =
      evaluateCall ctx (evaluate ctx) fp a f (a.args st len) s₁ := by
  cases hname : Builtin.dispatch (ctx.nameOf f) (a.args st len).length with
  | none =>
    have hname₀ : Builtin.dispatch (ctx.withoutFunctions.nameOf f) (a.args st len).length = none := hname
    rw [evaluateCall_none hname, evaluateCall_none hname₀]
    cases hfunc : ctx.functions.lookup f with
    | some func => exact absurd ⟨f, st, len, s₁, func, rfl, henter, hname, hfunc⟩ hno
    | none => rw [callFunction_undeclared hfunc, callFunction_undeclared (ctx.lookup_withoutFunctions f),
        undefinedFunction_withoutFunctions]
  | some b =>
    have hname₀ : Builtin.dispatch (ctx.withoutFunctions.nameOf f) (a.args st len).length = some b :=
      hname
    cases b with
    | copyToClipboard =>
      rw [evaluateCall_copyToClipboard hname, evaluateCall_copyToClipboard hname₀]
      refine copyToClipboard_congr_at fun e hargs => h (.callArg henter ?_ (hargs ▸ .head))
      unfold StrictCall
      rw [hname]
      exact hargs ▸ rfl
    | getSystemTime => rw [evaluateCall_getSystemTime hname, evaluateCall_getSystemTime hname₀]
    | storeLocal =>
      rw [evaluateCall_storeLocal hname, evaluateCall_storeLocal hname₀]
      exact storeLocal_congr_at (fun k e hargs => h (.storeKey henter hname hargs))
        fun k e hargs key t hk => h (.storeValue henter hname hargs hk)
    | download => rw [evaluateCall_download hname, evaluateCall_download hname₀]
    | pure p =>
      rw [evaluateCall_pure hname, evaluateCall_pure hname₀]
      refine bind_congr_at (h.evalArgs fun sub hsub => .callArg henter ?_ hsub) fun _ _ _ => rfl
      unfold StrictCall
      rw [hname]
      trivial

/-- A level that is no call of a declared function is the same. -/
theorem SameBelow.level {e : Expr} (h : SameBelow ctx ⟨fp, a, e, s⟩)
    (hno : ¬CallSite ctx ⟨fp, a, e, s⟩) (henter : enter s = .ok () s₁) :
    evaluateImpl ctx.withoutFunctions (evaluate ctx.withoutFunctions) fp a e s₁ =
      evaluateImpl ctx (evaluate ctx) fp a e s₁ := by
  cases e with
  | literal v => simp only [evaluateImpl]
  | var sym => exact congrFun (readVariable_withoutFunctions ctx fp sym) s₁
  | binaryOp l op r =>
    simp only [evaluateImpl]
    refine bind_congr_at (h (.binaryLeft henter)) fun lv t hl => ?_
    exact bind_congr_at (h (.binaryRight henter hl)) fun _ _ _ => rfl
  | functionCall f st len => exact h.call hno henter
  | letIn x v b =>
    simp only [evaluateImpl]
    refine bind_congr_at (h (.letValue henter)) fun w t hv => bind_congr_at rfl fun _ t' ht => ?_
    obtain rfl : t.pushLocal x w = t' := by simpa [modify_apply] using ht
    exact onExit_congr_at (h (.letBody henter hv))
  | not e =>
    simp only [evaluateImpl]
    exact bind_congr_at (h (.notInner henter)) fun _ _ _ => rfl
  | ifElse c t e =>
    simp only [evaluateImpl]
    refine bind_congr_at (h (.condition henter)) fun v u hc => ?_
    split
    · exact h (.branch henter hc)
    · exact h (.branch henter hc)
    · rfl
  | fieldAccess b f h' =>
    simp only [evaluateImpl]
    exact bind_congr_at (h (.fieldBase henter)) fun _ _ _ => rfl

end Same

/-! ## A call throws -/

section Throw

variable {fp : Nat} {a : ExprArena} {e : Expr} {s s₁ : Evaluator}

/-- A level that throws makes the whole evaluation throw. -/
theorem Throws.of_level (henter : enter s = .ok () s₁)
    (h : Throws (evaluateImpl ctx.withoutFunctions (evaluate ctx.withoutFunctions) fp a e) s₁) :
    Throws (evaluate ctx.withoutFunctions fp a e) s := by
  obtain ⟨err, s', h⟩ := Throws.onExit (g := leave) h
  exact ⟨err, s', by rw [evaluate_of_enter_ok henter, h]⟩

theorem CallSite.throws {site : Site} (h : CallSite ctx site) :
    Throws (evaluate ctx.withoutFunctions site.framePointer site.arena site.expr) site.state := by
  obtain ⟨f, st, len, s₁, func, hexpr, henter, hname, -⟩ := h
  have hname₀ : Builtin.dispatch (ctx.withoutFunctions.nameOf f) (site.arena.args st len).length = none :=
    hname
  rw [hexpr]
  refine .of_level henter ⟨undefinedFunction ctx f, s₁, ?_⟩
  simp only [evaluateImpl]
  rw [evaluateCall_none hname₀, callFunction_undeclared (ctx.lookup_withoutFunctions f)]
  rfl

/-- An argument that throws makes the evaluation of the arguments throw. -/
theorem Throws.evalArgs {es : List Expr} {sub : Site} {t : Evaluator} (harg : ArgSub ctx fp a es t sub)
    (hdeep : ∀ e u, u.evalDepth = t.evalDepth → PartsAtCall ctx ⟨fp, a, e, u⟩)
    (h : Throws (evaluate ctx.withoutFunctions sub.framePointer sub.arena sub.expr) sub.state) :
    Throws (Mizu.evalArgs (evaluate ctx.withoutFunctions fp a) es) t := by
  induction harg with
  | head => exact h.bind
  | @tail e es t t' v sub hrun harg ih =>
    simp only [Mizu.evalArgs]
    refine .bind_of ((hdeep e t rfl).ok_or_throws hrun) (.bind (ih ?_ h))
    exact fun e u hu => hdeep e u (hu.trans (evaluate_returned hrun).evalDepth)

/-- A site throws if an evaluation that it performs does. -/
theorem Throws.of_subEval {site sub : Site} (hstep : SubEval ctx site sub)
    (hdeep : ∀ site', site'.state.evalDepth = site.state.evalDepth + 1 → PartsAtCall ctx site')
    (h : Throws (evaluate ctx.withoutFunctions sub.framePointer sub.arena sub.expr) sub.state) :
    Throws (evaluate ctx.withoutFunctions site.framePointer site.arena site.expr) site.state := by
  -- What ran before in the same level ran at the depth of the level.
  have hbefore : ∀ {fp a e s s₁ t}, site.state = s → enter s = .ok () s₁ → t.evalDepth = s₁.evalDepth →
      PartsAtCall ctx ⟨fp, a, e, t⟩ := by
    intro fp a e s s₁ t hs henter ht
    obtain ⟨-, rfl⟩ := enter_ok henter
    exact hdeep _ (by rw [hs]; exact ht)
  cases hstep with
  | binaryLeft henter => exact .of_level henter h.bind
  | binaryRight henter hleft =>
    exact .of_level henter (.bind_of ((hbefore rfl henter rfl).ok_or_throws hleft) h.bind)
  | letValue henter => exact .of_level henter h.bind
  | letBody henter hvalue =>
    refine .of_level henter (.bind_of ((hbefore rfl henter rfl).ok_or_throws hvalue) ?_)
    exact .bind_of (.inl rfl) h.onExit
  | notInner henter => exact .of_level henter h.bind
  | condition henter => exact .of_level henter h.bind
  | @branch fp a c t e s s₁ b s₂ henter hcond =>
    refine .of_level henter (.bind_of ((hbefore rfl henter rfl).ok_or_throws hcond) ?_)
    cases b <;> exact h
  | fieldBase henter => exact .of_level henter h.bind
  | @callArg fp a f st len s s₁ sub henter hstrict harg =>
    have hargs := h.evalArgs harg fun e u hu => hbefore rfl henter hu
    cases hname : Builtin.dispatch (ctx.nameOf f) (a.args st len).length with
    | none =>
      simp only [StrictCall, hname] at hstrict
      obtain ⟨func, hfunc, -⟩ := hstrict
      exact CallSite.throws ⟨f, st, len, s₁, func, rfl, henter, hname, hfunc⟩
    | some b =>
      have hname₀ : Builtin.dispatch (ctx.withoutFunctions.nameOf f) (a.args st len).length = some b :=
        hname
      refine .of_level henter ?_
      simp only [evaluateImpl]
      simp only [StrictCall, hname] at hstrict
      cases b with
      | pure p =>
        rw [evaluateCall_pure hname₀]
        exact hargs.bind
      | copyToClipboard =>
        obtain ⟨e, he⟩ := List.length_eq_one_iff.mp hstrict
        rw [evaluateCall_copyToClipboard hname₀, he]
        rw [he] at hargs
        obtain ⟨err, u, hargs⟩ := hargs
        rcases of_bind_error hargs with hargs | ⟨v, t, -, hargs⟩
        · exact Throws.bind ⟨err, u, hargs⟩
        · simp [Mizu.evalArgs, bind_apply, pure_apply] at hargs
      | getSystemTime | storeLocal | download => exact hstrict.elim
  | @storeKey fp a f st len s s₁ k e henter hname hargs =>
    have hname₀ : Builtin.dispatch (ctx.withoutFunctions.nameOf f) (a.args st len).length =
      some .storeLocal := hname
    refine .of_level henter ?_
    simp only [evaluateImpl]
    rw [evaluateCall_storeLocal hname₀, hargs]
    exact h.bind
  | @storeValue fp a f st len s s₁ k e key s₂ henter hname hargs hkey =>
    have hname₀ : Builtin.dispatch (ctx.withoutFunctions.nameOf f) (a.args st len).length =
      some .storeLocal := hname
    refine .of_level henter ?_
    simp only [evaluateImpl]
    rw [evaluateCall_storeLocal hname₀, hargs, storeLocal]
    exact .bind_of ((hbefore rfl henter rfl).ok_or_throws hkey) h.bind

end Throw

/-- Without the document's functions an evaluation goes on alike up to the first call of one. -/
theorem partsAtCall (site : Site) : PartsAtCall ctx site := by
  induction site using Site.induction with
  | step site ih =>
    obtain ⟨fp, a, e, s⟩ := site
    rcases hs : enter s with ⟨⟨⟩, s₁⟩ | ⟨err, s₁⟩
    · obtain ⟨hlt, -⟩ := enter_ok hs
      have hdeep : ∀ site', site'.state.evalDepth = s.evalDepth + 1 → PartsAtCall ctx site' :=
        fun site' hd => ih site' hd hlt
      constructor
      · intro hno
        have hbelow : SameBelow ctx ⟨fp, a, e, s⟩ := fun hsub =>
          (hdeep _ hsub.depth.1).same fun hcalls => hno (hcalls.head hsub)
        simp only
        rw [evaluate_of_enter_ok hs, evaluate_of_enter_ok hs]
        exact onExit_congr_at (hbelow.level (fun hcall => hno ⟨_, .refl, hcall⟩) hs)
      · rintro ⟨last, hpath, hlast⟩
        rcases Relation.ReflTransGen.cases_head hpath with rfl | ⟨sub, hsub, hrest⟩
        · exact hlast.throws
        · exact .of_subEval hsub hdeep ((hdeep sub hsub.depth.1).throws ⟨last, hrest, hlast⟩)
    · constructor
      · intro _
        simp only
        rw [evaluate_of_enter_error hs, evaluate_of_enter_error hs]
      · intro _
        exact ⟨err, s₁, evaluate_of_enter_error hs⟩

theorem evaluate_withoutFunctions_eq {site : Site} (h : ¬ReachesCall ctx site) :
    evaluate ctx.withoutFunctions site.framePointer site.arena site.expr site.state =
      evaluate ctx site.framePointer site.arena site.expr site.state :=
  (partsAtCall site).same h

theorem evaluate_withoutFunctions_throws {site : Site} (h : ReachesCall ctx site) :
    Throws (evaluate ctx.withoutFunctions site.framePointer site.arena site.expr) site.state :=
  (partsAtCall site).throws h

end Parting

end Mizu
