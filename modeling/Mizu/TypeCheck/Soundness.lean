import Mizu.TypeCheck.Values
import Mizu.Types.Eval.Sites

/-!
# Type soundness

If `infer` gives an expression the type `T` and its evaluation, from a store and a frame whose
values fit the types in scope, returns `v`, then `v` fits `T` (`infer_sound`): `v` inhabits `T`
unless `T` is the number type and the evaluation joined two strings with `+` on the way.
-/

namespace Mizu

open Exec

/-- The value a name reads as: a local of the frame, else a global that is not null. -/
def Evaluator.visible (s : Evaluator) (fp : Nat) (sym : Symbol) : Option Value :=
  match s.getLocal sym fp with
  | some v => some v
  | none => if (s.getGlobal sym).isNull then none else some (s.getGlobal sym)

/-- Every name with a type reads as a value that fits it. -/
structure Typed (joined : Prop) (env : Env) (fp : Nat) (s : Evaluator) : Prop where
  frame : fp ≤ s.locals.stack.length
  fits : ∀ sym T v, env.lookup sym = some (some T) → s.visible fp sym = some v → Fits joined T v

section Sound

variable {ctx : EvalCtx} {fp : Nat} {a : ExprArena}

/-- The site is a `+` whose operands evaluate to strings. -/
def JoinsHere (ctx : EvalCtx) (site : Site) : Prop :=
  ∃ l r s₁ t u x y, site.expr = .binaryOp l .add r ∧ enter site.state = .ok () s₁ ∧
    evaluate ctx site.framePointer site.arena (site.arena.get l) s₁ = .ok (.string x) t ∧
    evaluate ctx site.framePointer site.arena (site.arena.get r) t = .ok (.string y) u

/-- The evaluation joins two strings in the site's own frame. -/
def Joins (ctx : EvalCtx) (site : Site) : Prop :=
  ∃ site', Relation.ReflTransGen (SubEval ctx) site site' ∧ JoinsHere ctx site'

theorem Joins.head {site site' : Site} (h : SubEval ctx site site') (h' : Joins ctx site') :
    Joins ctx site := by
  obtain ⟨joint, hpath, hjoint⟩ := h'
  exact ⟨joint, .head h hpath, hjoint⟩

variable {s s' : Evaluator} {v : Value}

theorem readVariable_visible {sym : Symbol}
    (h : readVariable ctx fp sym s = .ok v s') : s.visible fp sym = some v := by
  unfold readVariable at h
  rw [bind_ok (get_apply s)] at h
  unfold Evaluator.visible
  cases hlocal : s.getLocal sym fp with
  | some w =>
    rw [hlocal] at h
    cases h
    rfl
  | none =>
    rw [hlocal] at h
    by_cases hnull : (s.getGlobal sym).isNull
    · rw [if_pos hnull] at h
      cases h
    · rw [if_neg hnull] at h
      cases h
      rw [if_neg hnull]

namespace Typed

variable {joined : Prop} {env : Env} {s t : Evaluator}

theorem mono {joined' : Prop} (h : Typed joined env fp s) (himp : joined → joined') :
    Typed joined' env fp s :=
  ⟨h.frame, fun sym T v hT hv => (h.fits sym T v hT hv).mono himp⟩

theorem congr (h : Typed joined env fp s) (hg : t.globalStore = s.globalStore)
    (hl : t.locals = s.locals) : Typed joined env fp t := by
  have hvis : ∀ sym, t.visible fp sym = s.visible fp sym := by
    grind [Evaluator.visible, Evaluator.getLocal, Evaluator.getGlobal]
  exact ⟨hl ▸ h.frame, fun sym T v hT hv => h.fits sym T v hT (hvis sym ▸ hv)⟩

theorem enter (h : Typed joined env fp s) (henter : enter s = .ok () t) :
    Typed joined env fp t := by
  obtain ⟨-, rfl⟩ := enter_ok henter
  exact h.congr rfl rfl

theorem returned (h : Typed joined env fp s) (hret : Returned s t) : Typed joined env fp t :=
  h.congr hret.globalStore hret.locals

theorem pushLocal (h : Typed joined env fp s) (x : Symbol) {ty : Option ValueType}
    (hv : ∀ T, ty = some T → Fits joined T v) : Typed joined (env.insert x ty) fp (s.pushLocal x v) := by
  refine ⟨?_, fun sym T w hT hw => ?_⟩
  · have := h.frame
    simp only [Evaluator.pushLocal, Locals.push_stack, List.length_append, List.length_singleton]
    omega
  by_cases hsym : sym = x
  · subst hsym
    rw [Finmap.lookup_insert, Option.some.injEq] at hT
    have hget : (s.pushLocal sym v).getLocal sym fp = some v :=
      Locals.get_push_self s.locals sym v h.frame
    simp only [Evaluator.visible, hget, Option.some.injEq] at hw
    exact hw ▸ hv T hT
  · rw [Finmap.lookup_insert_of_ne _ hsym] at hT
    have hget : (s.pushLocal x v).getLocal sym fp = s.getLocal sym fp :=
      Locals.get_push_of_ne s.locals v fp hsym
    have hvis : (s.pushLocal x v).visible fp sym = s.visible fp sym := by
      unfold Evaluator.visible
      rw [hget]
      rfl
    exact h.fits sym T w hT (hvis ▸ hw)

end Typed

theorem of_native_ok {α : Type} {x : Nat → EStateM MizuError Nat α} {v : α}
    (h : native x s = .ok v s') : ∃ n, x s.maxInstructions s.instructionCount = .ok v n := by
  unfold native at h
  cases hx : x s.maxInstructions s.instructionCount with
  | ok b n => grind
  | error e n => simp [hx] at h

theorem Yields.of_native_ok {P : Value → Prop} {x : Nat → EStateM MizuError Nat Value}
    (hx : ∀ max, Yields P (x max)) (h : native x s = .ok v s') : P v := by
  obtain ⟨n, hn⟩ := Mizu.of_native_ok h
  exact wp_of_ok (hx _ _) hn

/-- A call of `evaluate` that returns is one level that returns. -/
theorem of_evaluate_ok {e : Expr} (h : evaluate ctx fp a e s = .ok v s') :
    ∃ s₁ t, enter s = .ok () s₁ ∧ evaluateImpl ctx (evaluate ctx) fp a e s₁ = .ok v t := by
  rw [evaluate_eq] at h
  obtain ⟨⟨⟩, s₁, henter, h⟩ := of_bind_ok h
  obtain ⟨t, ht, -⟩ := of_onExit_ok h
  exact ⟨s₁, t, henter, ht⟩

/-- A name that is a builtin for the checker is one for the evaluator. -/
theorem dispatch_of_ofCall {interner : Interner} {f : Symbol} {argc : Nat} {p : PureBuiltin}
    (h : PureBuiltin.ofCall ((interner.resolve f).getD "") argc = some p) :
    Builtin.dispatch ((interner.resolve f).getD "<unknown>") argc = some (.pure p) := by
  unfold PureBuiltin.ofCall at h
  cases hf : interner.resolve f with
  | none => simp [hf, Builtin.dispatch] at h
  | some name => grind

/-- What a site's evaluation gives at the next level of the induction. -/
def SoundBelow (ctx : EvalCtx) (site : Site) : Prop :=
  ∀ site', SubEval ctx site site' → ∀ {joined : Prop} {fuel : Nat} {env : Env} {T : ValueType}
    {v : Value} {s' : Evaluator}, Typed joined env site'.framePointer site'.state →
    infer ctx.interner ctx.functions fuel env site'.arena site'.expr = .ok (some T) →
    site'.run ctx = .ok v s' → Fits (joined ∨ Joins ctx site) T v

section Cases

variable {joined : Prop} {fuel : Nat} {env : Env} {T : ValueType} {s s₁ t : Evaluator} {v : Value}

theorem binaryOp_sound {l r : ExprId} {op : BinOp} (henter : enter s = .ok () s₁)
    (hrun : evaluateImpl ctx (evaluate ctx) fp a (.binaryOp l op r) s₁ = .ok v t) :
    Fits (joined ∨ Joins ctx ⟨fp, a, .binaryOp l op r, s⟩) (inferBinop op) v := by
  obtain ⟨lv, t₁, hl, hrun⟩ := of_bind_ok hrun
  obtain ⟨rv, t₂, hr, hrun⟩ := of_bind_ok hrun
  have hres := Yields.of_native_ok (fun max => applyBinop_yields op max lv rv) hrun
  rcases hres with hv | ⟨rfl, ⟨x, rfl⟩, ⟨y, rfl⟩, hv⟩
  · exact .inl hv
  · have hhere : JoinsHere ctx ⟨fp, a, .binaryOp l .add r, s⟩ :=
      ⟨l, r, s₁, t₁, t₂, x, y, rfl, henter, hl, hr⟩
    exact .inr ⟨.inr ⟨_, .refl, hhere⟩, rfl, hv⟩

theorem letIn_sound {x : Symbol} {val body : ExprId}
    (ih : SoundBelow ctx ⟨fp, a, .letIn x val body, s⟩) (henter : enter s = .ok () s₁)
    (hty : Typed joined env fp s₁)
    (hinf : infer ctx.interner ctx.functions (fuel + 1) env a (.letIn x val body) = .ok (some T))
    (hrun : evaluateImpl ctx (evaluate ctx) fp a (.letIn x val body) s₁ = .ok v t) :
    Fits (joined ∨ Joins ctx ⟨fp, a, .letIn x val body, s⟩) T v := by
  obtain ⟨ty, hval, hbody⟩ := except_of_bind_ok hinf
  obtain ⟨w, t₁, hw, hrun⟩ := of_bind_ok hrun
  obtain ⟨⟨⟩, t₂, hpush, hrun⟩ := of_bind_ok hrun
  obtain rfl : t₁.pushLocal x w = t₂ := by simpa [modify_apply] using hpush
  obtain ⟨t₃, hrun, -⟩ := of_onExit_ok hrun
  have hfit : ∀ T', ty = some T' → Fits (joined ∨ Joins ctx ⟨fp, a, .letIn x val body, s⟩) T' w :=
    fun T' hT' => ih _ (.letValue henter) hty (hT' ▸ hval) hw
  have hty₁ : Typed (joined ∨ Joins ctx ⟨fp, a, .letIn x val body, s⟩) env fp t₁ :=
    (hty.returned (evaluate_returned hw)).mono Or.inl
  exact (ih _ (.letBody henter hw) (hty₁.pushLocal x hfit) hbody hrun).mono (by tauto)

theorem ifElse_sound {c th el : ExprId} (ih : SoundBelow ctx ⟨fp, a, .ifElse c th el, s⟩)
    (henter : enter s = .ok () s₁) (hty : Typed joined env fp s₁)
    (hinf : infer ctx.interner ctx.functions (fuel + 1) env a (.ifElse c th el) = .ok (some T))
    (hrun : evaluateImpl ctx (evaluate ctx) fp a (.ifElse c th el) s₁ = .ok v t) :
    Fits (joined ∨ Joins ctx ⟨fp, a, .ifElse c th el, s⟩) T v := by
  obtain ⟨cty, hcond, hinf⟩ := except_of_bind_ok hinf
  obtain ⟨thTy, hthen, hinf⟩ := except_of_bind_ok hinf
  obtain ⟨elTy, helse, hinf⟩ := except_of_bind_ok hinf
  -- A type is given only if both branches have it.
  obtain ⟨rfl, rfl⟩ : thTy = some T ∧ elTy = some T := by
    cases hsame : sameType thTy elTy with
    | true =>
      rw [hsame] at hinf
      cases hinf
      exact ⟨rfl, (eq_of_sameType hsame).symm⟩
    | false =>
      rw [hsame] at hinf
      cases hinf
  obtain ⟨cv, t₁, hc, hrun⟩ := of_bind_ok hrun
  have hty₁ := hty.returned (evaluate_returned hc)
  split at hrun
  · exact ih _ (.branch (b := true) henter hc) hty₁ hthen hrun
  · exact ih _ (.branch (b := false) henter hc) hty₁ helse hrun
  · cases hrun

theorem fieldAccess_sound {b : ExprId} {field : Symbol} {hash : UInt32}
    (ih : SoundBelow ctx ⟨fp, a, .fieldAccess b field hash, s⟩) (henter : enter s = .ok () s₁)
    (hty : Typed joined env fp s₁)
    (hinf : infer ctx.interner ctx.functions (fuel + 1) env a (.fieldAccess b field hash) =
      .ok (some T))
    (hrun : evaluateImpl ctx (evaluate ctx) fp a (.fieldAccess b field hash) s₁ = .ok v t) :
    Inhabits T v := by
  obtain ⟨baseTy, hbase, hinf⟩ := except_of_bind_ok hinf
  obtain ⟨types, e, rfl, he, rfl⟩ := inferField_ok hinf
  obtain ⟨base, t₁, hb, hrun⟩ := of_bind_ok hrun
  have hfit := ih _ (.fieldBase henter) hty hbase hb
  exact Yields.of_native_ok
    (fun _ => accessField_yields ctx field hash (hfit.inhabits (by simp)) he) hrun

theorem call_sound {f : Symbol} {st len : Nat} (ih : SoundBelow ctx ⟨fp, a, .functionCall f st len, s⟩)
    (henter : enter s = .ok () s₁) (hty : Typed joined env fp s₁)
    (hinf : infer ctx.interner ctx.functions (fuel + 1) env a (.functionCall f st len) =
      .ok (some T))
    (hrun : evaluateImpl ctx (evaluate ctx) fp a (.functionCall f st len) s₁ = .ok v t) :
    Inhabits T v := by
  simp only [infer] at hinf
  split at hinf
  · rename_i p hp
    have hname := dispatch_of_ofCall hp
    obtain ⟨tys, htys, hinf⟩ := except_of_bind_ok hinf
    have hrun : evaluateCall ctx (evaluate ctx) fp a f (a.args st len) s₁ = .ok v t := hrun
    rw [evaluateCall_pure hname] at hrun
    obtain ⟨vs, t₁, hvs, hrun⟩ := of_bind_ok hrun
    refine Yields.of_native_ok (fun max => ?_) hrun
    refine PureBuiltin.apply_yields (D := joined ∨ Joins ctx ⟨fp, a, .functionCall f st len, s⟩)
      ctx.arcEq max p vs hinf fun w T' hw hT' => ?_
    have hsub : ∀ site', ArgSub ctx fp a (a.args st len) s₁ site' →
        SubEval ctx ⟨fp, a, .functionCall f st len, s⟩ site' := by
      refine fun site' h => .callArg henter ?_ h
      unfold StrictCall EvalCtx.nameOf
      rw [hname]
      trivial
    cases hargs : a.args st len with
    | nil =>
      rw [hargs] at hvs
      cases hvs
      cases hw
    | cons e es =>
      rw [hargs] at hvs htys hsub
      obtain ⟨w', t₂, hw', hvs⟩ := of_bind_ok hvs
      obtain ⟨ws, t₃, -, hvs⟩ := of_bind_ok hvs
      obtain ⟨ty, hinfer, htys⟩ := except_of_bind_ok htys
      obtain ⟨rest, -, htys⟩ := except_of_bind_ok htys
      cases hvs
      cases htys
      simp only [List.head?_cons, Option.some.injEq] at hw
      simp only [List.headD_cons] at hT'
      subst hw hT'
      exact ih _ (hsub _ .head) hty hinfer hw'
  · split at hinf
    · split at hinf
      · cases hinf
      · obtain ⟨_, -, hinf⟩ := except_of_bind_ok hinf
        cases hinf
    · obtain ⟨_, -, hinf⟩ := except_of_bind_ok hinf
      cases hinf

end Cases

/-- Type soundness of the evaluator for the types `infer` gives. -/
theorem evaluate_fits (ctx : EvalCtx) (site : Site) :
    ∀ {joined : Prop} {fuel : Nat} {env : Env} {T : ValueType} {v : Value} {s' : Evaluator},
      Typed joined env site.framePointer site.state →
      infer ctx.interner ctx.functions fuel env site.arena site.expr = .ok (some T) →
      site.run ctx = .ok v s' → Fits (joined ∨ Joins ctx site) T v := by
  induction site using Site.induction with
  | _ site ih =>
  intro joined fuel env T v s' hty hinf hrun
  have below : SoundBelow ctx site := by
    intro site' hsub joined fuel env T v s' hty hinf hrun
    obtain ⟨hdepth, hlt⟩ := hsub.depth
    exact (ih site' hdepth hlt hty hinf hrun).mono fun h => h.imp_right (Joins.head hsub)
  obtain ⟨fp, a, e, s⟩ := site
  obtain ⟨s₁, t, henter, hrun⟩ := of_evaluate_ok hrun
  have hty := Typed.enter hty henter
  cases fuel with
  | zero => cases hinf
  | succ fuel =>
    cases e with
    | literal w =>
      cases hrun
      cases v <;> cases hinf
      · exact .inl ⟨rfl, trivial⟩
      · exact .inl (inhabits_bool _)
      · exact .inl (inhabits_int _)
      · exact .inl (inhabits_decimal _)
      · exact .inl (inhabits_string _)
    | var sym =>
      have hvis := readVariable_visible hrun
      have hlookup : env.lookup sym = some (some T) := by
        cases h : env.lookup sym with
        | none =>
          simp only [infer, h] at hinf
          cases hinf
        | some ty =>
          simp only [infer, h] at hinf
          cases hinf
          rfl
      exact (hty.fits sym T v hlookup hvis).mono Or.inl
    | binaryOp l op r =>
      obtain ⟨_, -, hinf⟩ := except_of_bind_ok hinf
      obtain ⟨_, -, hinf⟩ := except_of_bind_ok hinf
      cases hinf
      exact binaryOp_sound henter hrun
    | functionCall f st len => exact .inl (call_sound below henter hty hinf hrun)
    | letIn x val body => exact letIn_sound below henter hty hinf hrun
    | not e =>
      obtain ⟨_, -, hinf⟩ := except_of_bind_ok hinf
      cases hinf
      obtain ⟨w, t₁, -, hrun⟩ := of_bind_ok hrun
      refine .inl (Yields.of_native_ok (fun _ n => ?_) hrun)
      unfold notValue
      split
      · exact inhabits_bool _
      · trivial
    | ifElse c th el => exact ifElse_sound below henter hty hinf hrun
    | fieldAccess b field hash => exact .inl (fieldAccess_sound below henter hty hinf hrun)

end Sound

end Mizu
