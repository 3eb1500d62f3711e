import Mizu.Types.Eval.Sites

/-!
# Which evaluations leave a binding behind

A call checks and pushes its parameters one by one, and returns at the first argument that has the
wrong type without taking the earlier parameters off again. `evaluate_restores_locals_iff` says
that this is the only way for an evaluation to change the locals: they are as before, and so is
the depth, exactly if the evaluation reaches no such call in its own frame. A call's own frame is
cut back when its body ends, so what happens in bodies does not count.
-/

namespace Mizu

open Exec

/-- The position of the first argument whose type check fails. -/
def firstMismatch : List (Symbol × ValueType) → List Value → Option Nat
  | p :: params, v :: vs => if p.2.accepts v then (firstMismatch params vs).map (· + 1) else some 0
  | _, _ => none

variable {params : List (Symbol × ValueType)} {vs : List Value}

theorem bindParams_of_none (h : firstMismatch params vs = none) (s : Evaluator) :
    ∃ s', bindParams params vs s = .ok () s' := by
  induction params generalizing vs s with
  | nil => exact ⟨s, rfl⟩
  | cons p params ih =>
    cases vs with
    | nil => exact ⟨s, rfl⟩
    | cons v vs =>
      simp only [firstMismatch] at h
      split at h
      · rename_i hacc
        simp only [bindParams, checkType, hacc, if_true]
        exact ih (by simpa using h) (s.pushLocal p.1 v)
      · simp at h

/-- A mismatch at position `k` leaves `k` bindings behind. -/
theorem bindParams_of_some {k : Nat} (h : firstMismatch params vs = some k) (s : Evaluator) :
    ∃ e s', bindParams params vs s = .error e s' ∧
      s'.locals.stack.length = s.locals.stack.length + k ∧ (k = 0 → s' = s) := by
  induction params generalizing vs k s with
  | nil => simp [firstMismatch] at h
  | cons p params ih =>
    cases vs with
    | nil => simp [firstMismatch] at h
    | cons v vs =>
      simp only [firstMismatch] at h
      split at h
      · rename_i hacc
        obtain ⟨j, hj, rfl⟩ := Option.map_eq_some_iff.mp h
        obtain ⟨e, s', hrun, hlen, -⟩ := ih hj (s.pushLocal p.1 v)
        refine ⟨e, s', ?_, ?_, by omega⟩
        · simp only [bindParams, checkType, hacc, if_true]
          exact hrun
        · grind [Evaluator.pushLocal, Locals.push_stack, List.length_append, List.length_singleton]
      · rename_i hacc
        obtain rfl : 0 = k := by simpa using h
        refine ⟨.typeError p.2.display v.typeName, s, ?_, rfl, fun _ => rfl⟩
        simp only [bindParams, checkType, hacc, if_false, Bool.false_eq_true]
        rfl

variable {site : Site}

section Leaks

variable (ctx : EvalCtx)

/-- The site calls a function with an argument of the wrong type that is not the first. -/
def LateMismatch (site : Site) : Prop :=
  ∃ func vs t k, BindsArgs ctx site func vs t ∧ firstMismatch func.params vs = some k ∧ 0 < k

/-- The evaluation reaches, in its own frame, a call with a late mismatch. -/
def Leaks (site : Site) : Prop :=
  ∃ site', Relation.ReflTransGen (SubEval ctx) site site' ∧ LateMismatch ctx site'

/-- From `s`, the run gives the locals back, or `D` holds. -/
def Tidy {α : Type} (D : Prop) (x : EvalM α) (s : Evaluator) : Prop :=
  wp x (fun _ s' => s'.locals = s.locals) (fun _ s' => s'.locals = s.locals ∨ D) s

variable {ctx} {D : Prop} {s : Evaluator} {α β : Type}

theorem Tidy.bind {x : EvalM α} {f : α → EvalM β} (hx : Tidy D x s)
    (hf : ∀ a s', x s = .ok a s' → Tidy D (f a) s') : Tidy D (x >>= f) s := by
  grind [bind_apply, Tidy, wp]

/-! ## No leak, no change -/

theorem Leaks.head {site site' : Site} (h : SubEval ctx site site') (h' : Leaks ctx site') :
    Leaks ctx site := by
  obtain ⟨last, hpath, hlast⟩ := h'
  exact ⟨last, hpath.head h, hlast⟩

/-- A call whose arguments are evaluated: its frame is cut back, unless the binding of the
parameters fails late. -/
theorem callBody_tidy {func : MizuFunction} {t : Evaluator}
    (hbind : BindsArgs ctx site func vs t) : Tidy (Leaks ctx site) (enterBody ctx func vs) t := by
  unfold Tidy wp enterBody
  simp only [bind_apply, get_apply]
  cases hmis : firstMismatch func.params vs with
  | some k =>
    obtain ⟨e, t', hrun, -, hzero⟩ := bindParams_of_some hmis t
    rw [hrun]
    rcases Nat.eq_zero_or_pos k with hk | hk
    · exact .inl (hzero hk ▸ rfl)
    · exact .inr ⟨site, .refl, func, vs, t, k, hbind, hmis, hk⟩
  | none =>
    obtain ⟨u, hrun⟩ := bindParams_of_none hmis t
    have hbelow : t.locals.Below u.locals := by
      have hb := bindParams_below func.params vs t
      unfold wp at hb
      rw [hrun] at hb
      exact hb.locals
    rw [hrun]
    simp only [onExit]
    cases hbody : evaluate ctx t.locals.stack.length func.body.arena func.body.rootExpr u with
    | ok v w =>
      have hw := (evaluate_returned hbody).locals
      exact (hw ▸ hbelow).truncate_eq
    | error e w => exact .inl (hbelow.trans (evaluate_threw hbody).locals).truncate_eq

/-- A `let` pops one binding, which is its own if its body is tidy. -/
theorem letBody_tidy {fp : Nat} {a : ExprArena} {x : Symbol} {v : Value} {e : Expr} {t : Evaluator}
    (hbody : Tidy D (evaluate ctx fp a e) (t.pushLocal x v)) :
    Tidy D (enterLet ctx fp a x v e) t := by
  unfold Tidy wp at hbody ⊢
  simp only [enterLet, bind_apply, modify_apply, onExit]
  cases hrun : evaluate ctx fp a e (t.pushLocal x v) with
  | ok w u => grind [Evaluator.popLocal, Evaluator.pushLocal, Locals.pop_push]
  | error err u => grind [Evaluator.popLocal, Evaluator.pushLocal, Locals.pop_push]

theorem tidyLogic (hsub : ∀ sub, SubEval ctx site sub →
      Tidy (Leaks ctx site) (evaluate ctx sub.framePointer sub.arena sub.expr) sub.state) :
    SiteLogic ctx site fun x s => Tidy (Leaks ctx site) x s where
  pure _ _ := rfl
  throw _ _ := .inl rfl
  get _ := rfl
  native x s := by
    unfold Tidy wp Mizu.native
    cases x s.maxInstructions s.instructionCount with
    | ok a n => exact rfl
    | error e n => exact .inl rfl
  bind := .bind
  sub h := hsub _ h
  act _ := rfl
  letBody h := letBody_tidy (hsub _ h)
  callBody := callBody_tidy

end Leaks

section Iff

variable {ctx : EvalCtx}

/-- An evaluation that gives the locals back or leaks. -/
theorem evaluate_tidy (site : Site) :
    Tidy (Leaks ctx site) (evaluate ctx site.framePointer site.arena site.expr) site.state := by
  induction site using Site.induction with
  | step site ih =>
    obtain ⟨fp, a, e, s⟩ := site
    unfold Tidy wp
    rcases hs : enter s with ⟨⟨⟩, s₁⟩ | ⟨err, s₁⟩
    · have htidy := (tidyLogic fun sub h => (ih sub h.depth.1 h.depth.2).mono (fun _ _ hl => hl)
        fun _ _ hl => hl.imp_right (Leaks.head h)).level hs
      obtain ⟨-, rfl⟩ := enter_ok hs
      unfold Tidy wp at htidy
      rw [evaluate_of_enter_ok hs]
      simp only [onExit]
      revert htidy
      cases evaluateImpl ctx (evaluate ctx) fp a e _ <;> exact id
    · rw [evaluate_of_enter_error hs]
      rcases enter_cases s with ⟨e', he⟩ | ⟨-, he⟩
      · grind
      · simp [he] at hs

/-! ## A leak always shows -/

/-- The run throws and leaves more locals than it found. -/
def ThrowsAbove (x : EvalM Value) (s : Evaluator) : Prop :=
  ∃ e s', x s = .error e s' ∧ s.locals.stack.length < s'.locals.stack.length

theorem evalArgs_throws {fp : Nat} {a : ExprArena} {es : List Expr} {s : Evaluator} {sub : Site}
    (harg : ArgSub ctx fp a es s sub)
    (h : ThrowsAbove (evaluate ctx sub.framePointer sub.arena sub.expr) sub.state) :
    ∃ e s', evalArgs (evaluate ctx fp a) es s = .error e s' ∧
      s.locals.stack.length < s'.locals.stack.length := by
  induction harg with
  | head =>
    obtain ⟨e, s', hrun, hlt⟩ := h
    exact ⟨e, s', bind_error hrun, hlt⟩
  | tail hrun _ ih =>
    obtain ⟨e, s', hrun', hlt⟩ := ih h
    refine ⟨e, s', ?_, (evaluate_returned hrun).locals ▸ hlt⟩
    simp only [evalArgs]
    rw [bind_ok hrun, bind_error hrun']

/-- A level that throws makes the whole call throw, with the same locals. -/
theorem ThrowsAbove.of_level {fp : Nat} {a : ExprArena} {e : Expr} {s s₁ : Evaluator}
    (err : MizuError) (s' : Evaluator) (henter : enter s = .ok () s₁)
    (himpl : evaluateImpl ctx (evaluate ctx) fp a e s₁ = .error err s')
    (hlt : s₁.locals.stack.length < s'.locals.stack.length) :
    ThrowsAbove (evaluate ctx fp a e) s := by
  obtain ⟨-, rfl⟩ := enter_ok henter
  refine ⟨err, leave s', ?_, hlt⟩
  rw [evaluate_of_enter_ok henter]
  simp only [onExit, himpl]

theorem throws_of_lateMismatch (h : LateMismatch ctx site) :
    ThrowsAbove (evaluate ctx site.framePointer site.arena site.expr) site.state := by
  obtain ⟨func, vs, t, k, ⟨name, st, len, s₁, hexpr, henter, hname, hfunc, harity, hargs⟩, hmis, hk⟩ := h
  obtain ⟨e, t', hrun, hlen, -⟩ := bindParams_of_some hmis t
  rw [hexpr]
  refine .of_level e t' henter ?_ ?_
  · simp only [evaluateImpl]
    rw [evaluateCall_none hname, callFunction_some hfunc harity, bind_ok hargs]
    simp only [bind_apply, get_apply, hrun]
  · rw [← (evalArgs_returned hargs).locals]
    omega

theorem throws_of_subEval {site site' : Site} (hstep : SubEval ctx site site')
    (h : ThrowsAbove (evaluate ctx site'.framePointer site'.arena site'.expr) site'.state) :
    ThrowsAbove (evaluate ctx site.framePointer site.arena site.expr) site.state := by
  cases hstep with
  | binaryLeft henter =>
    obtain ⟨e, s', hrun, hlt⟩ := h
    exact .of_level e s' henter (bind_error hrun) hlt
  | binaryRight henter hleft =>
    obtain ⟨e, s', hrun, hlt⟩ := h
    refine .of_level e s' henter ?_ ((evaluate_returned hleft).locals ▸ hlt)
    simp only [evaluateImpl]
    rw [bind_ok hleft, bind_error hrun]
  | letValue henter =>
    obtain ⟨e, s', hrun, hlt⟩ := h
    exact .of_level e s' henter (bind_error hrun) hlt
  | letBody henter hvalue =>
    obtain ⟨e, s', hrun, hlt⟩ := h
    refine .of_level e s'.popLocal henter ?_ ?_
    · simp only [evaluateImpl]
      rw [bind_ok hvalue]
      simp only [bind_apply, modify_apply, onExit, hrun]
    · rw [← (evaluate_returned hvalue).locals]
      simp only [Evaluator.pushLocal, Locals.push_stack, List.length_append,
        List.length_singleton] at hlt
      simp only [Evaluator.popLocal, Locals.pop_stack, List.length_dropLast]
      omega
  | notInner henter =>
    obtain ⟨e, s', hrun, hlt⟩ := h
    exact .of_level e s' henter (bind_error hrun) hlt
  | condition henter =>
    obtain ⟨e, s', hrun, hlt⟩ := h
    exact .of_level e s' henter (bind_error hrun) hlt
  | @branch fp a c t e s s₁ b s₂ henter hcond =>
    obtain ⟨err, s', hrun, hlt⟩ := h
    refine .of_level err s' henter ?_ ((evaluate_returned hcond).locals ▸ hlt)
    simp only [evaluateImpl]
    rw [bind_ok hcond]
    cases b <;> exact hrun
  | fieldBase henter =>
    obtain ⟨e, s', hrun, hlt⟩ := h
    exact .of_level e s' henter (bind_error hrun) hlt
  | @callArg fp a f st len s s₁ sub henter hstrict harg =>
    obtain ⟨e, s', hrun, hlt⟩ := evalArgs_throws harg h
    refine .of_level e s' henter ?_ hlt
    unfold StrictCall at hstrict
    simp only [evaluateImpl]
    split at hstrict
    · rename_i hname
      rw [evaluateCall_pure hname, bind_error hrun]
    · rename_i hname
      rw [evaluateCall_copyToClipboard hname]
      obtain ⟨e₁, he₁⟩ := List.length_eq_one_iff.mp hstrict
      rw [he₁] at hrun ⊢
      rcases of_bind_error hrun with hrun | ⟨v, t, -, hrun⟩
      · exact bind_error hrun
      · simp [evalArgs, bind_apply, pure_apply] at hrun
    · rename_i hname
      obtain ⟨func, hfunc, harity⟩ := hstrict
      rw [evaluateCall_none hname, callFunction_some hfunc harity, bind_error hrun]
    · exact hstrict.elim
  | storeKey henter hname hargs =>
    obtain ⟨e, s', hrun, hlt⟩ := h
    refine .of_level e s' henter ?_ hlt
    simp only [evaluateImpl]
    rw [evaluateCall_storeLocal hname, hargs]
    exact bind_error hrun
  | storeValue henter hname hargs hkey =>
    obtain ⟨e, s', hrun, hlt⟩ := h
    refine .of_level e s' henter ?_ ((evaluate_returned hkey).locals ▸ hlt)
    simp only [evaluateImpl]
    rw [evaluateCall_storeLocal hname, hargs, storeLocal, bind_ok hkey]
    exact bind_error hrun

theorem throws_of_leaks (h : Leaks ctx site) :
    ThrowsAbove (evaluate ctx site.framePointer site.arena site.expr) site.state := by
  obtain ⟨last, hpath, hlast⟩ := h
  induction hpath using Relation.ReflTransGen.head_induction_on with
  | refl => exact throws_of_lateMismatch hlast
  | head hstep _ ih => exact throws_of_subEval hstep ih

/-- Frame discipline: an evaluation gives the locals and the depth back, and so leaves nothing
that a later evaluation could read, exactly if it reaches no late mismatch in its own frame. -/
theorem evaluate_restores_locals_iff (ctx : EvalCtx) (fp : Nat) (arena : ExprArena) (e : Expr)
    (s : Evaluator) :
    ((finalState (evaluate ctx fp arena e s)).locals = s.locals ∧
      (finalState (evaluate ctx fp arena e s)).evalDepth = s.evalDepth ∧
      ∀ sym fp', (finalState (evaluate ctx fp arena e s)).getLocal sym fp' = s.getLocal sym fp') ↔
      ¬Leaks ctx ⟨fp, arena, e, s⟩ := by
  constructor
  · rintro ⟨hlocals, -, -⟩ hleak
    obtain ⟨err, s', hrun, hlt⟩ := throws_of_leaks hleak
    simp only at hrun hlt
    rw [hrun, finalState_error] at hlocals
    rw [hlocals] at hlt
    exact lt_irrefl _ hlt
  · intro hclean
    have htidy : Tidy (Leaks ctx ⟨fp, arena, e, s⟩) (evaluate ctx fp arena e) s :=
      evaluate_tidy ⟨fp, arena, e, s⟩
    have hlocals : (finalState (evaluate ctx fp arena e s)).locals = s.locals := by
      unfold Tidy wp at htidy
      cases hrun : evaluate ctx fp arena e s with
      | ok v s' => rwa [hrun] at htidy
      | error err s' =>
        rw [hrun] at htidy
        exact htidy.resolve_right hclean
    refine ⟨hlocals, ?_, fun sym fp' => by simp only [Evaluator.getLocal, hlocals]⟩
    cases hrun : evaluate ctx fp arena e s with
    | ok v s' => exact (evaluate_returned hrun).evalDepth
    | error err s' => exact (evaluate_threw hrun).evalDepth

/-! ## The binding that stays -/

/-- `fn f(a: num, b: num)`, and the call `f(1, "x")`. -/
def mismatchCtx : EvalCtx where
  functions := Finmap.singleton ⟨0⟩
    { params := [(⟨1⟩, .num), (⟨2⟩, .num)]
      body := { arena := { nodes := [.var ⟨1⟩], argsPool := [], nodes_valid := secondVar_valid,
                           pool_valid := emptyPool_valid }
                root := 0
                root_valid := Nat.zero_lt_one } }
  interner := .ofNames ["f", "a", "b"]
  arcEq := { same := fun _ _ => false, eq_of_same := @ArcEq.never_same }

def mismatchArena : ExprArena where
  nodes := [.literal (.int 1), .literal (.string "x"), .functionCall ⟨0⟩ 0 2]
  argsPool := [0, 1]
  nodes_valid := by decide
  pool_valid := by decide

/-- After `f(1, "x")` the binding of `a` is still there, and any later evaluation at frame
pointer 0 reads it. -/
theorem mismatch_leaves_binding :
    ¬∀ (ctx : EvalCtx) (fp : Nat) (arena : ExprArena) (e : Expr) (s : Evaluator),
      (finalState (evaluate ctx fp arena e s)).locals = s.locals ∧
        (finalState (evaluate ctx fp arena e s)).evalDepth = s.evalDepth ∧
        ∀ sym fp', (finalState (evaluate ctx fp arena e s)).getLocal sym fp' = s.getLocal sym fp' := by
  intro h
  have hstack := congrArg (·.stack.length)
    (h mismatchCtx 0 mismatchArena (mismatchArena.get 2) (.new 20000)).1
  exact absurd hstack (by decide)

end Iff

end Mizu
