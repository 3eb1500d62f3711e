import Mizu.Logic.Dag
import Mizu.LogicWorker.Frame
import Mizu.Types.Eval.Discipline
import Mizu.Types.Eval.Lookups

/-!
# The order in which a document's functions are evaluated

A reload evaluates every function without parameters and binds its name, in the order in which the
table is iterated.

* `init_order_irrelevant`: the order makes no difference if no such body reads the name of such a function.
* `init_order_matters`: it does where one reads another.
-/

namespace Mizu

open Exec List

/-! ## One function -/

def ZeroParam (functions : FunctionTable) (sym : Symbol) : Prop :=
  ∃ func, functions.lookup sym = some func ∧ func.params = []

/-- The evaluation of a body when its function is initialised. -/
def initSite (s : Evaluator) (func : MizuFunction) : Site :=
  ⟨0, func.body.arena, func.body.rootExpr, { s with instructionCount := 0 }⟩

/-- The value a function is bound to, if it is. -/
def initValue (ctx : EvalCtx) (s : Evaluator) (sym : Symbol) : Option Value :=
  match ctx.functions.lookup sym with
  | some func =>
    if func.params.isEmpty then
      match evalTree ctx func.body { s with instructionCount := 0 } with
      | .ok v _ => some v
      | .error _ _ => none
    else none
  | none => none

/-- In the loaded store no body of a function without parameters reads the name of such a function, or
leaves a local behind. -/
structure InitsApart (ctx : EvalCtx) (s : Evaluator) : Prop where
  reads : ∀ f func, ctx.functions.lookup f = some func → func.params = [] →
    ∀ g, LooksUp ctx (initSite s func) g → ¬ZeroParam ctx.functions g
  tidy : ∀ f func, ctx.functions.lookup f = some func → func.params = [] →
    ¬Leaks ctx (initSite s func)

theorem SameOutside.kept {D : Symbol → Prop} {s₀ s s' : Evaluator} (h : SameOutside D s₀ s)
    (hkept : Kept s s') (hlocals : s'.locals = s₀.locals) : SameOutside D s₀ s' where
  globals sym hsym := by
    rw [h.globals sym hsym]
    simp only [Evaluator.getGlobal, hkept.globalStore]
  locals := hlocals.symm
  max := h.max.trans hkept.maxInstructions.symm
  depth := h.depth.trans hkept.evalDepth.symm
  computed := h.computed.trans hkept.computedVarSyms.symm

section Init

variable {ctx : EvalCtx} {s₀ : Evaluator} (h : InitsApart ctx s₀)

include h

/-- From a state in which some functions are initialised a body gives what it gives in the loaded one,
and leaves the locals as they were. -/
theorem initBody_steady {f : Symbol} {func : MizuFunction} (hf : ctx.functions.lookup f = some func)
    (hparams : func.params = []) {s : Evaluator} (hs : SameOutside (ZeroParam ctx.functions) s₀ s) :
    match evalTree ctx func.body { s₀ with instructionCount := 0 },
      evalTree ctx func.body { s with instructionCount := 0 } with
    | .ok v _, .ok w s' => v = w ∧ s'.locals = s₀.locals
    | .error e _, .error e' s' => e = e' ∧ s'.locals = s₀.locals
    | _, _ => False := by
  have hsteady := evaluate_lookups (sameCounted_runRel (ZeroParam ctx.functions)) (initSite s₀ func)
    (fun sym hsym => sameCounted_sameGlobal (h.reads f func hf hparams sym hsym))
    _ _ ⟨rfl, hs.counted 0⟩
  have htidy := ((evaluate_restores_locals_iff ctx 0 func.body.arena func.body.rootExpr
    { s₀ with instructionCount := 0 }).mpr (h.tidy f func hf hparams)).1
  unfold evalTree
  revert hsteady htidy
  simp only [initSite]
  cases evaluate ctx 0 func.body.arena func.body.rootExpr { s₀ with instructionCount := 0 } <;>
    cases evaluate ctx 0 func.body.arena func.body.rootExpr { s with instructionCount := 0 }
  · rintro ⟨rfl, hrel⟩ hl
    exact ⟨rfl, hrel.locals.symm.trans hl⟩
  · exact fun hfalse _ => hfalse
  · exact fun hfalse _ => hfalse
  · rintro ⟨rfl, hrel⟩ hl
    exact ⟨rfl, hrel.locals.symm.trans hl⟩

/-- What initialising a function does: it binds the function's value in the loaded store, if there is
one. -/
theorem initFunction_spec (f : Symbol) {s : Evaluator} (hs : SameOutside (ZeroParam ctx.functions) s₀ s) :
    SameOutside (ZeroParam ctx.functions) s₀ (TabSession.initFunction ctx s f) ∧
      (TabSession.initFunction ctx s f).globalStore =
        match initValue ctx s₀ f with
        | some v => s.globalStore.insert f v
        | none => s.globalStore := by
  unfold TabSession.initFunction
  cases hfunc : ctx.functions.lookup f with
  | none =>
    simp only [initValue, hfunc]
    exact ⟨hs, trivial⟩
  | some func =>
    by_cases hparams : func.params = []
    · have hbody := initBody_steady h hfunc hparams hs
      have hcount : Kept s { s with instructionCount := 0 } := Kept.of_locals s s.locals 0
      simp only [initValue, hfunc, hparams, isEmpty_nil, if_true]
      cases hs₁ : evalTree ctx func.body { s with instructionCount := 0 } with
      | ok w s' =>
        have hkept := hcount.trans ((evalTree_framed ctx func.body).of_ok hs₁).toKept
        cases hs₂ : evalTree ctx func.body { s₀ with instructionCount := 0 } with
        | ok v s₁ =>
          rw [hs₁, hs₂] at hbody
          obtain ⟨rfl, hlocals⟩ := hbody
          have hsame := hs.kept hkept hlocals
          have hne : ∀ sym, ¬ZeroParam ctx.functions sym → sym ≠ f := by
            rintro sym hsym rfl
            exact hsym ⟨func, hfunc, hparams⟩
          refine ⟨{ hsame with globals := fun sym hsym => ?_ }, ?_⟩
          · rw [s'.getGlobal_setGlobal_of_ne (hne sym hsym)]
            exact hsame.globals sym hsym
          · simp only [Evaluator.setGlobal, hkept.globalStore]
        | error e s₁ => simp [hs₁, hs₂] at hbody
      | error e s' =>
        have hkept := hcount.trans ((evalTree_framed ctx func.body).of_error hs₁).toKept
        cases hs₂ : evalTree ctx func.body { s₀ with instructionCount := 0 } with
        | ok v s₁ => simp [hs₁, hs₂] at hbody
        | error e' s₁ =>
          rw [hs₁, hs₂] at hbody
          exact ⟨hs.kept hkept hbody.2, hkept.globalStore⟩
    · have hnonempty : func.params.isEmpty = false := by simpa using hparams
      simp only [initValue, hfunc, hnonempty, Bool.false_eq_true, if_false]
      exact ⟨hs, trivial⟩

/-- After some functions are initialised, their values in the loaded store are bound. -/
theorem initFunctions_spec {order : List Symbol} (hnodup : order.Nodup) :
    SameOutside (ZeroParam ctx.functions) s₀ (order.foldl (TabSession.initFunction ctx) s₀) ∧
      ∀ sym, (order.foldl (TabSession.initFunction ctx) s₀).globalStore.lookup sym =
        if sym ∈ order then (initValue ctx s₀ sym).or (s₀.globalStore.lookup sym)
        else s₀.globalStore.lookup sym := by
  induction order using List.reverseRecOn with
  | nil => exact ⟨⟨fun _ _ => rfl, rfl, rfl, rfl, rfl⟩, fun sym => by simp⟩
  | append_singleton order f ih =>
    obtain ⟨hinit, -, hnew⟩ := nodup_append.mp hnodup
    have hf : f ∉ order := fun hmem => hnew f hmem f (by simp) rfl
    obtain ⟨hsame, hstore⟩ := ih hinit
    obtain ⟨hsame', hstore'⟩ := initFunction_spec h f hsame
    rw [foldl_append, foldl_cons, foldl_nil]
    refine ⟨hsame', fun sym => ?_⟩
    rw [hstore']
    by_cases hs : sym = f
    · subst hs
      cases hv : initValue ctx s₀ sym with
      | some v => simp
      | none => simp [hstore, hf]
    · grind [Finmap.lookup_insert_of_ne]

end Init

/-! ## The whole reload -/

section Reload

/-- The same store: what queued actions and the log are is left open. -/
structure SameStore (s t : Evaluator) : Prop where
  globalStore : s.globalStore = t.globalStore
  locals : s.locals = t.locals
  max : s.maxInstructions = t.maxInstructions
  depth : s.evalDepth = t.evalDepth
  computed : s.computedVarSyms = t.computedVarSyms

theorem sameStore_runRel : RunRel fun s t => SameStore s t ∧ s.instructionCount = t.instructionCount where
  locals h := h.1.locals
  count h := h.2
  max h := h.1.max
  computed h := h.1.computed
  depth h := h.1.depth
  setLocals h _ := ⟨{ h.1 with locals := rfl }, h.2⟩
  setCount h _ := ⟨{ h.1 with }, rfl⟩
  setDepth h _ := ⟨{ h.1 with depth := rfl }, h.2⟩
  act h _ := ⟨{ h.1 with }, h.2⟩

theorem SameStore.getGlobal {s t : Evaluator} (h : SameStore s t) (sym : Symbol) :
    s.getGlobal sym = t.getGlobal sym := by
  simp only [Evaluator.getGlobal, h.globalStore]

theorem sameStore_recompute (ctx : EvalCtx) (bindings : List ComputedBinding) :
    RecomputeRel ctx bindings SameStore where
  max h := h.max
  unset cb _ {s t} h := by rw [h.getGlobal]
  setCount h _ _ := { h with }
  setGlobal cb _ {s t} h v := { h with globalStore := congrArg (·.insert cb.name v) h.globalStore }
  eval cb _ :=
    evaluate_sameGlobals sameStore_runRel (fun sym _ _ h => h.1.getGlobal sym) 0 cb.expr.arena
      cb.expr.rootExpr

namespace TabSession

variable {platform platform' : Platform} {t : TabSession} {payload : ReloadPayload}

/-- The order of the functions does not matter to the initialised store. -/
theorem initFunctions_sameStore (harc : platform.arcEq = platform'.arcEq)
    (h : InitsApart (t.ctx platform) t.store.evaluator) :
    SameStore (t.initFunctions platform).store.evaluator (t.initFunctions platform').store.evaluator := by
  have hctx : t.ctx platform' = t.ctx platform := by unfold ctx; rw [harc]
  have hspec := fun p : Platform => initFunctions_spec h (p.functionOrder.nodup t.logicFns)
  obtain ⟨hsame, hstore⟩ := hspec platform
  obtain ⟨hsame', hstore'⟩ := hspec platform'
  unfold initFunctions mapEvaluator withEvaluator
  dsimp only
  rw [hctx]
  refine ⟨Finmap.ext_lookup fun sym => ?_, hsame.locals.symm.trans hsame'.locals,
    hsame.max.symm.trans hsame'.max, hsame.depth.symm.trans hsame'.depth,
    hsame.computed.symm.trans hsame'.computed⟩
  rw [hstore, hstore']
  simp only [platform.functionOrder.mem_iff, platform'.functionOrder.mem_iff]

theorem initComps_sameStore (harc : platform.arcEq = platform'.arcEq)
    (h : InitsApart (t.ctx platform) t.store.evaluator) :
    SameStore ((t.initFunctions platform).initComps platform).store.evaluator
      ((t.initFunctions platform').initComps platform').store.evaluator := by
  have hctx : t.ctx platform' = t.ctx platform := by unfold ctx; rw [harc]
  have hsame := initFunctions_sameStore harc h
  have hrecompute := recompute_related (sameStore_recompute (t.ctx platform) t.computedVars)
    (t.initFunctions platform).store.evaluator.globalStore.keys t.computedReverseIndex hsame
  have hkeys := congrArg Finmap.keys hsame.globalStore
  rw [hkeys] at hrecompute
  unfold initComps mapEvaluator withEvaluator
  dsimp only
  rw [hkeys]
  have hctx' : (t.initFunctions platform').ctx platform' = t.ctx platform := hctx
  rw [hctx']
  exact hrecompute.1

/-! An event that evaluates expressions only reports no alias that is not declared. -/

/-- Only expressions queued actions. -/
def ExprActions (s : Evaluator) : Prop := ∀ a ∈ s.accumulatedActions, a.fromExpr

theorem ExprActions.invariant : StoreInvariant ExprActions where
  kept {s s'} hkept h := by
    obtain ⟨as, has, hfrom⟩ := hkept.actions
    intro a ha
    rw [has] at ha
    rcases mem_append.mp ha with ha | ha
    · exact h a ha
    · exact hfrom a ha
  setGlobal _ _ h := h

theorem loaded_queue (payload : ReloadPayload) (t : TabSession) :
    (t.loaded payload).store.evaluator.accumulatedActions = [] := by
  have key : ∀ (vars : List (String × Value)) (store : VariableStore),
      store.evaluator.accumulatedActions = [] →
      (vars.foldl (fun store var => store.setRuntime var.1 var.2) store).evaluator.accumulatedActions = [] := by
    intro vars
    induction vars with
    | nil => exact fun _ h => h
    | cons var vars ih =>
      intro store h
      obtain ⟨k, v⟩ := var
      refine ih _ ?_
      dsimp only
      rw [VariableStore.setRuntime_evaluator]
      unfold Evaluator.setRuntime
      split
      · exact h
      · exact h
  exact key payload.initialVariables (.withInterner payload.interner) rfl

theorem loaded_exprActions (payload : ReloadPayload) (t : TabSession) :
    ExprActions (t.loaded payload).store.evaluator := by
  intro a ha
  rw [loaded_queue] at ha
  cases ha

theorem resolveOneAction_noError {a : RuntimeAction} (h : a.fromExpr) : (resolveOneAction t a).2 = [] := by
  unfold resolveOneAction
  split
  · rfl
  · cases a with
    | networkCall => exact h.elim
    | downloadAlias sym =>
      dsimp only
      split <;> rfl
    | _ => rfl

/-- The messages `build_response` writes into variables. -/
def aliasErrors (t : TabSession) : List (String × Value) :=
  (t.store.evaluator.accumulatedActions.map (resolveOneAction t)).flatMap (·.2)

theorem noErrors_of_fromExpr {as : List RuntimeAction} (h : ∀ a ∈ as, a.fromExpr) :
    (as.map (resolveOneAction t)).flatMap (·.2) = [] := by
  grind [flatMap_eq_nil_iff, resolveOneAction_noError]

theorem aliasErrors_eq_nil (h : ExprActions t.store.evaluator) : t.aliasErrors = [] :=
  noErrors_of_fromExpr h

theorem buildResponse_globalStore (gesture : Bool) (h : ExprActions t.store.evaluator) :
    (t.buildResponse platform gesture).2.store.evaluator.globalStore = t.store.evaluator.globalStore := by
  have hnone : (t.store.evaluator.accumulatedActions.map (resolveOneAction t)).flatMap (·.2) = [] :=
    noErrors_of_fromExpr h
  unfold buildResponse
  dsimp only
  rw [hnone]
  rfl

end TabSession

theorem applyReload_globalStore (platform : Platform) (payload : ReloadPayload) (t : TabSession) :
    (t.applyReload platform payload).2.store.evaluator.globalStore =
      (((t.loaded payload).initFunctions platform).initComps platform).store.evaluator.globalStore :=
  TabSession.buildResponse_globalStore false
    (TabSession.ExprActions.invariant.initComps platform
      (TabSession.ExprActions.invariant.initFunctions platform (TabSession.loaded_exprActions payload t)))

/-- A name that no computed binding has keeps the value its function was initialised with. -/
theorem applyReload_getGlobal (platform : Platform) (payload : ReloadPayload) (t : TabSession)
    {f : Symbol} (hcomp : ∀ cb ∈ payload.computedBindings, cb.name ≠ f) :
    (t.applyReload platform payload).2.store.evaluator.getGlobal f =
      ((t.loaded payload).initFunctions platform).store.evaluator.getGlobal f := by
  unfold Evaluator.getGlobal
  rw [applyReload_globalStore]
  refine recompute_invariant (I := fun s => (s.globalStore.lookup f).getD .null =
    ((((t.loaded payload).initFunctions platform).store.evaluator.globalStore.lookup f).getD .null))
    _ (fun s s' hthrew hs => ?_) (fun cb hcb s v hs => ?_) _ _ rfl
  · rw [hthrew.globalStore]
    exact hs
  · have hne : f ≠ cb.name := Ne.symm (hcomp cb hcb)
    simp only [Evaluator.setGlobal, Finmap.lookup_insert_of_ne _ hne]
    exact hs

/-- What initialising the functions is to reach: each has the value of its body, evaluated where all are
initialised; one whose body fails there keeps the value that was loaded. -/
def FunctionsInitialised (ctx : EvalCtx) (s₀ s : Evaluator) : Prop :=
  ∀ f func, ctx.functions.lookup f = some func → func.params = [] →
    match evalTree ctx func.body { s with instructionCount := 0 } with
    | .ok v _ => s.getGlobal f = v
    | .error _ _ => s.getGlobal f = s₀.getGlobal f

theorem initFunctions_initialised {ctx : EvalCtx} {s₀ : Evaluator} (h : InitsApart ctx s₀)
    {order : List Symbol} (hnodup : order.Nodup) (hmem : ∀ sym, sym ∈ order ↔ sym ∈ ctx.functions) :
    FunctionsInitialised ctx s₀ (order.foldl (TabSession.initFunction ctx) s₀) := by
  obtain ⟨hsame, hstore⟩ := initFunctions_spec h hnodup
  generalize order.foldl (TabSession.initFunction ctx) s₀ = s at hsame hstore
  intro f func hfunc hparams
  have hbody := initBody_steady h hfunc hparams hsame
  have hlookup := hstore f
  rw [if_pos ((hmem f).mpr (Finmap.mem_iff.mpr ⟨func, hfunc⟩))] at hlookup
  unfold initValue at hlookup
  simp only [hfunc, hparams, isEmpty_nil, if_true] at hlookup
  cases hs₀ : evalTree ctx func.body { s₀ with instructionCount := 0 } with
  | ok | error => grind [Evaluator.getGlobal]

end Reload

/-- If in the loaded store no function without parameters reads another, then after a reload the store is
the same for every order of the function table, and every such function has its value. -/
theorem init_order_irrelevant {platform platform' : Platform} (harc : platform.arcEq = platform'.arcEq)
    (t : TabSession) (payload : ReloadPayload)
    (h : InitsApart ((t.loaded payload).ctx platform) (t.loaded payload).store.evaluator) :
    (t.applyReload platform payload).2.store.evaluator.globalStore =
        (t.applyReload platform' payload).2.store.evaluator.globalStore ∧
      FunctionsInitialised ((t.loaded payload).ctx platform) (t.loaded payload).store.evaluator
        ((t.loaded payload).initFunctions platform).store.evaluator ∧
      ∀ f, (∀ cb ∈ payload.computedBindings, cb.name ≠ f) →
        (t.applyReload platform payload).2.store.evaluator.getGlobal f =
          ((t.loaded payload).initFunctions platform).store.evaluator.getGlobal f := by
  refine ⟨?_, ?_, fun f hcomp => applyReload_getGlobal platform payload t hcomp⟩
  · rw [applyReload_globalStore, applyReload_globalStore]
    exact (TabSession.initComps_sameStore harc h).globalStore
  · exact initFunctions_initialised h (platform.functionOrder.nodup _)
      (platform.functionOrder.mem_iff _)

/-! ## Two orders -/

/-- By descending symbol number. -/
def TableOrder.descending : TableOrder where
  list functions := (TableOrder.ascending.list functions).reverse
  nodup functions := List.nodup_reverse.mpr (TableOrder.ascending.nodup functions)
  mem_iff functions sym := List.mem_reverse.trans (TableOrder.ascending.mem_iff functions sym)

def Platform.reversed : Platform := { Platform.plain with functionOrder := .descending }

/-- `fn f() = 1`. -/
def constantOne : MizuFunction where
  params := []
  body := ⟨⟨[.literal (.int 1)], [], one_valid, emptyPool_valid⟩, 0, Nat.zero_lt_one⟩

/-- `fn f() = a + 1`, where `a` is the first symbol. -/
def oneMore : MizuFunction where
  params := []
  body := ⟨⟨[.var ⟨0⟩, .literal (.int 1), .binaryOp 0 .add 1], [], by simp [Expr.refsValid], by simp⟩,
    2, by simp⟩

/-- A document with two functions `a` and `b`. -/
def twoFunctions (a b : MizuFunction) : ReloadPayload where
  logicFns := (Finmap.singleton ⟨0⟩ a).insert ⟨1⟩ b
  clickActions := ∅
  submitActions := ∅
  rootTimerActions := []
  interner := .ofNames ["a", "b"]
  initialVariables := []
  urlRegistry := ∅
  documentDomain := ""
  computedBindings := []

theorem twoFunctions_order (a b : MizuFunction) :
    TableOrder.ascending.list (twoFunctions a b).logicFns = [⟨0⟩, ⟨1⟩] := by
  have hkeys : (twoFunctions a b).logicFns.keys.image Symbol.id = {0, 1} := by
    ext n
    simp only [twoFunctions, Finset.mem_image, Finmap.mem_keys, Finmap.mem_insert,
      Finmap.mem_singleton, Finset.mem_insert, Finset.mem_singleton]
    constructor
    · rintro ⟨sym, rfl | rfl, rfl⟩
      · exact .inr rfl
      · exact .inl rfl
    · rintro (rfl | rfl)
      · exact ⟨⟨0⟩, .inr rfl, rfl⟩
      · exact ⟨⟨1⟩, .inl rfl, rfl⟩
  have hsort : (({0, 1} : Finset Nat).sort (· ≤ ·)) = [0, 1] := by
    rw [Finset.sort_insert _ (by simp) (by simp), Finset.sort_singleton]
  simp only [TableOrder.ascending, hkeys, hsort, map_cons, map_nil]

/-- With `fn a() = 1` and `fn b() = a + 1`, which is no cycle, `b` is 2 if `a` comes first, and has no value
if it comes last. -/
theorem init_order_matters :
    ¬∀ (t : TabSession) (payload : ReloadPayload) (platform platform' : Platform),
      platform.arcEq = platform'.arcEq →
      checkDag payload.logicFns (platform.functionOrder.list payload.logicFns) = .ok () →
        (t.applyReload platform payload).2.store.evaluator.globalStore =
          (t.applyReload platform' payload).2.store.evaluator.globalStore := by
  intro h
  let payload := twoFunctions constantOne oneMore
  have horder : Platform.plain.functionOrder.list payload.logicFns = [⟨0⟩, ⟨1⟩] := twoFunctions_order _ _
  have horder' : Platform.reversed.functionOrder.list payload.logicFns = [⟨1⟩, ⟨0⟩] :=
    congrArg List.reverse horder
  have hdag : checkDag payload.logicFns (Platform.plain.functionOrder.list payload.logicFns) = .ok () := by
    rw [horder]
    decide
  have hstore := h .new payload .plain .reversed rfl hdag
  have hnoComp : ∀ cb ∈ payload.computedBindings, cb.name ≠ (⟨1⟩ : Symbol) := nofun
  have hb := applyReload_getGlobal .plain payload .new hnoComp
  have hb' := applyReload_getGlobal .reversed payload .new hnoComp
  unfold Evaluator.getGlobal at hb hb'
  rw [hstore, hb'] at hb
  simp only [TabSession.initFunctions, TabSession.mapEvaluator, TabSession.withEvaluator] at hb
  rw [show (TabSession.new.loaded payload).logicFns = payload.logicFns from rfl, horder, horder'] at hb
  have hshown := congrArg Value.display hb
  revert hshown
  decide

theorem constantOne_apart (s : Evaluator) :
    InitsApart ((TabSession.new.loaded (twoFunctions constantOne constantOne)).ctx .plain) s := by
  have hone : ∀ f func, (twoFunctions constantOne constantOne).logicFns.lookup f = some func →
      func = constantOne := by
    intro f func hf
    by_cases h₁ : f = ⟨1⟩
    · subst h₁
      simpa [twoFunctions] using hf.symm
    · by_cases h₀ : f = ⟨0⟩
      · subst h₀
        simpa [twoFunctions] using hf.symm
      · grind [twoFunctions, Finmap.lookup_insert_of_ne, Finmap.lookup_eq_none, Finmap.mem_singleton]
  constructor
  · rintro f func hf - g ⟨last, hpath, hreads, -⟩
    obtain rfl := hone f func hf
    rcases Relation.ReflTransGen.cases_head hpath with rfl | ⟨next, hstep | hstep, -⟩
    · cases hreads
    · cases hstep
    · obtain ⟨_, _, _, _, ⟨_, _, _, _, hexpr, -⟩, -⟩ := hstep
      cases hexpr
  · rintro f func hf - ⟨last, hpath, _, _, _, _, ⟨_, _, _, _, hexpr, -⟩, -⟩
    obtain rfl := hone f func hf
    rcases Relation.ReflTransGen.cases_head hpath with rfl | ⟨next, hstep, -⟩
    · cases hexpr
    · cases hstep

/-- Two functions that read nothing can be initialised in any order. -/
theorem init_order_irrelevant_constants :
    let payload := twoFunctions constantOne constantOne
    let t := TabSession.new
    (t.applyReload .plain payload).2.store.evaluator.globalStore =
        (t.applyReload .reversed payload).2.store.evaluator.globalStore ∧
      FunctionsInitialised ((t.loaded payload).ctx .plain) (t.loaded payload).store.evaluator
        ((t.loaded payload).initFunctions .plain).store.evaluator ∧
      ∀ f, (∀ cb ∈ payload.computedBindings, cb.name ≠ f) →
        (t.applyReload .plain payload).2.store.evaluator.getGlobal f =
          ((t.loaded payload).initFunctions .plain).store.evaluator.getGlobal f := by
  intro payload t
  have harc : Platform.plain.arcEq = Platform.reversed.arcEq := rfl
  exact init_order_irrelevant harc t payload (constantOne_apart _)

end Mizu
