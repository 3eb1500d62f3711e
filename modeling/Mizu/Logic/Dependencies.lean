import Mizu.Logic.CompOrder

/-!
# What a computed binding can read

* `reads_within`: an evaluation reads no global but the free names of the expression and of the
  functions it reaches.
* `dependencies_sound`: the evaluation of a computed binding depends on no global but the binding's
  own and those it is recorded to depend on.
-/

namespace Mizu

open Exec

/-- The unbound names of an expression, and of every function that it reaches, are all in `D`. -/
structure Within (functions : FunctionTable) (D : Symbol → Prop) (B : Finset Symbol) (a : ExprArena)
    (e : Expr) : Prop where
  free : ∀ sym, a.FreeIn B e sym → D sym
  calls : ∀ e' c f sym, a.Below e e' → IsCall functions e' c →
    Relation.ReflTransGen (Calls functions) c f → ReadsIn functions f sym → D sym

section Within

variable {functions : FunctionTable} {D : Symbol → Prop} {B : Finset Symbol} {a : ExprArena} {e : Expr}

theorem Within.child (h : Within functions D B a e) (hlet : ∀ x v b, e ≠ .letIn x v b) {child : Expr}
    (hchild : child ∈ a.children e) : Within functions D B a child where
  free sym hfree := h.free sym (.child hlet hchild hfree)
  calls e' c f sym hbelow := h.calls e' c f sym (.step hchild hbelow)

/-- An evaluation stays within the names of its expression. -/
theorem within_scope (ctx : EvalCtx) (D : Symbol → Prop) : EvalScope ctx (Within ctx.functions D) where
  binaryOp {B a l op r} h := by
    have hlet : ∀ x v b, Expr.binaryOp l op r ≠ .letIn x v b := by simp
    exact ⟨h.child hlet (by simp [ExprArena.children]), h.child hlet (by simp [ExprArena.children])⟩
  letIn {B a x v b} h := by
    have hvalue : a.get v ∈ a.children (.letIn x v b) := by simp [ExprArena.children]
    have hbody : a.get b ∈ a.children (.letIn x v b) := by simp [ExprArena.children]
    constructor
    · exact ⟨fun sym hfree => h.free sym (.letValue hfree),
        fun e' c f sym hbelow => h.calls e' c f sym (.step hvalue hbelow)⟩
    · exact ⟨fun sym hfree => h.free sym (.letBody hfree),
        fun e' c f sym hbelow => h.calls e' c f sym (.step hbody hbelow)⟩
  not h := h.child (by simp) (by simp [ExprArena.children])
  ifElse {B a c t e} h := by
    have hlet : ∀ x v b, Expr.ifElse c t e ≠ .letIn x v b := by simp
    exact ⟨h.child hlet (by simp [ExprArena.children]), h.child hlet (by simp [ExprArena.children]),
      h.child hlet (by simp [ExprArena.children])⟩
  fieldAccess h := h.child (by simp) (by simp [ExprArena.children])
  args h _ e he := h.child (by simp) he
  body {B a f st len func} h _ hfunc := by
    have hcall : IsCall ctx.functions (.functionCall f st len) f := .inl ⟨st, len, rfl⟩
    constructor
    · intro sym hfree
      exact h.calls _ f f sym (.refl _) hcall .refl ⟨func, hfunc, hfree⟩
    · intro e' c g sym hbelow hcall' hchain hreads
      have hfirst : Calls ctx.functions f c := ⟨func, hfunc, e', hbelow, hcall'⟩
      exact h.calls _ f g sym (.refl _) hcall (.head hfirst hchain) hreads

end Within

/-- States that differ in globals outside `D` only. -/
structure AgreeOn (D : Symbol → Prop) (s t : Evaluator) : Prop where
  globals : ∀ sym, D sym → s.getGlobal sym = t.getGlobal sym
  locals : s.locals = t.locals
  count : s.instructionCount = t.instructionCount
  max : s.maxInstructions = t.maxInstructions
  depth : s.evalDepth = t.evalDepth
  actions : s.accumulatedActions = t.accumulatedActions
  undo : s.undoLog = t.undoLog
  computed : s.computedVarSyms = t.computedVarSyms

theorem agreeOn_runRel (D : Symbol → Prop) : RunRel (AgreeOn D) where
  locals h := h.locals
  count h := h.count
  max h := h.max
  computed h := h.computed
  depth h := h.depth
  setLocals h _ := { h with globals := h.globals, locals := rfl }
  setCount h _ := { h with globals := h.globals, count := rfl }
  setDepth h _ := { h with globals := h.globals, depth := rfl }
  act h a := { h with globals := h.globals, actions := congrArg (· ++ [a]) h.actions }

/-- A relation that does not see the names of an expression apart does not see its evaluations apart. -/
theorem evaluate_within (ctx : EvalCtx) {L : Evaluator → Evaluator → Prop} (hL : RunRel L)
    {D : Symbol → Prop} (hD : ∀ sym, D sym → SameGlobal L sym) {a : ExprArena} {e : Expr}
    (h : Within ctx.functions D ∅ a e) :
    Agree L L L (evaluate ctx 0 a e) (evaluate ctx 0 a e) := by
  have hvar : ∀ {B : Finset Symbol} {a : ExprArena} {sym : Symbol},
      Within ctx.functions D B a (.var sym) → sym ∈ B ∨ SameGlobal L sym := by
    intro B a sym hw
    by_cases hB : sym ∈ B
    · exact .inl hB
    · exact .inr (hD sym (hw.free sym (.var hB)))
  refine agree_of_agreeAt fun l => ?_
  have hbinds : Binds L l 0 ∅ := ⟨.inl (Nat.zero_le _), fun _ hno => nomatch hno⟩
  exact evaluate_agree hL (within_scope ctx D) hvar hbinds h

/-- An evaluation reads no global outside the names of its expression: from states that differ
elsewhere only, it returns or throws the same and queues the same actions. -/
theorem reads_within (ctx : EvalCtx) {D : Symbol → Prop} {a : ExprArena} {e : Expr}
    (h : Within ctx.functions D ∅ a e) :
    Agree (AgreeOn D) (AgreeOn D) (AgreeOn D) (evaluate ctx 0 a e) (evaluate ctx 0 a e) :=
  evaluate_within ctx (agreeOn_runRel D) (fun sym hsym _ _ hst => hst.globals sym hsym) h

/-- A binding's own name and what it is recorded to depend on. -/
def ComputedBinding.Knows (cb : ComputedBinding) (sym : Symbol) : Prop :=
  sym = cb.name ∨ sym ∈ cb.dependsOn

theorem ParsedFrom.within {functions : FunctionTable} {decl : CompDecl} {cb : ComputedBinding}
    (h : ParsedFrom functions decl cb) :
    Within functions cb.Knows ∅ cb.expr.arena cb.expr.rootExpr := by
  have hknows : ∀ sym, decl.expr.arena.Below decl.expr.rootExpr (.var sym) ∨
      ReadsThrough functions decl.expr sym → cb.Knows sym := by
    intro sym hreads
    by_cases hself : sym = cb.name
    · exact .inl hself
    · exact .inr ((h.dependsOn sym).mpr ⟨h.name ▸ hself, hreads⟩)
  rw [h.expr]
  exact ⟨fun sym hfree => hknows sym (.inl hfree.occurs),
    fun e c f sym hbelow hcall hchain hreads =>
      hknows sym (.inr ⟨e, c, f, hbelow, hcall, hchain, hreads⟩)⟩

/-- A binding whose value depends on its own. -/
def ComputedBinding.ReadsItself (functions : FunctionTable) (cb : ComputedBinding) : Prop :=
  cb.expr.arena.FreeIn ∅ cb.expr.rootExpr cb.name ∨ ReadsThrough functions cb.expr cb.name

theorem ParsedFrom.within_dependsOn {functions : FunctionTable} {decl : CompDecl} {cb : ComputedBinding}
    (h : ParsedFrom functions decl cb) (hself : ¬cb.ReadsItself functions) :
    Within functions (· ∈ cb.dependsOn) ∅ cb.expr.arena cb.expr.rootExpr where
  free sym hfree := by
    refine (h.within.free sym hfree).resolve_left ?_
    rintro rfl
    exact hself (.inl hfree)
  calls e c f sym hbelow hcall hchain hreads := by
    refine (h.within.calls e c f sym hbelow hcall hchain hreads).resolve_left ?_
    rintro rfl
    exact hself (.inr ⟨e, c, f, hbelow, hcall, hchain, hreads⟩)

/-- Two evaluations of a computed binding from states that agree on its name and its dependencies
give the same value or the same error, and queue the same actions. -/
theorem dependencies_sound {ctx : EvalCtx} {max : Nat} {decls : List CompDecl}
    {bindings : List ComputedBinding}
    (hparse : parseComputedWithFunctions ctx.functions max decls = .ok bindings)
    {cb : ComputedBinding} (hcb : cb ∈ bindings) :
    Agree (AgreeOn cb.Knows) (AgreeOn cb.Knows) (AgreeOn cb.Knows)
      (evaluate ctx 0 cb.expr.arena cb.expr.rootExpr)
      (evaluate ctx 0 cb.expr.arena cb.expr.rootExpr) := by
  obtain ⟨decl, -, hfrom⟩ := parseComputed_mem hparse hcb
  exact reads_within ctx hfrom.within

/-- `comp y = x` depends on `x` and `y` only. -/
theorem dependencies_sound_reader :
    let ctx : EvalCtx :=
      { functions := ∅, interner := .ofNames ["x", "y"],
        arcEq := { same := fun _ _ => false, eq_of_same := fun h => nomatch h } }
    let cb : ComputedBinding :=
      { name := ⟨1⟩, expr := readsFirst.expr, dependsOn := [⟨0⟩], tainted := false }
    Agree (AgreeOn cb.Knows) (AgreeOn cb.Knows) (AgreeOn cb.Knows)
      (evaluate ctx 0 cb.expr.arena cb.expr.rootExpr)
      (evaluate ctx 0 cb.expr.arena cb.expr.rootExpr) := by
  intro ctx cb
  have hparse : parseComputedWithFunctions ctx.functions 500 [readsFirst] = .ok [cb] := rfl
  exact dependencies_sound hparse List.mem_cons_self

end Mizu
