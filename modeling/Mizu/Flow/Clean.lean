import Mizu.Flow.Closure
import Mizu.Logic.Dependencies

/-!
# What the check leaves untainted

* `evaluate_low`: the evaluation of an expression in which no taint is found depends on no high variable.
* `dependsOn_low`: a computed binding that is not high is not recorded to depend on a high variable.
* `checkInformationFlow_secured`: in a document that passes, no taint is found in the URL of a timer's navigation.
-/

namespace Mizu

open Exec

/-- The symbol was interned before the check. -/
def Document.Knows (d : Document) (sym : Symbol) : Prop := (d.interner.resolve sym).isSome = true

/-- The variables of an expression were. -/
def Document.KnowsAll (d : Document) (tree : ExprTree) : Prop :=
  ∀ sym, tree.arena.Below tree.rootExpr (.var sym) → d.Knows sym

/-- All names are interned, the order in which the functions are iterated has all of them, and the computed
bindings are those the parser makes. -/
structure Document.Parsed (d : Document) : Prop where
  interner : d.interner.WellFormed
  functions : ∀ f, f ∈ d.functions → f ∈ d.functionOrder
  comps : ∃ max decls, parseComputedWithFunctions d.functions max decls = .ok d.comps
  names : ∀ cb ∈ d.comps, d.Knows cb.name
  bodies : ∀ f func, d.functions.lookup f = some func → d.KnowsAll func.body
  exprs : ∀ cb ∈ d.comps, d.KnowsAll cb.expr
  trees : ∀ action ∈ d.actions, ∀ tree ∈ action.trees, d.KnowsAll tree

/-- What untrusted data may reach: tainted variables, and names that the check has not seen. -/
def Document.High (d : Document) (t : Taint) (sym : Symbol) : Prop := sym ∈ t.vars ∨ ¬d.Knows sym

theorem Document.not_high {d : Document} {t : Taint} {sym : Symbol} :
    ¬d.High t sym ↔ sym ∉ t.vars ∧ d.Knows sym := by
  rw [Document.High, not_or, not_not]

section Clean

variable {d : Document} {t : Taint} (hparsed : d.Parsed) (hclosed : TaintClosed d t)

/-- No taint is found in an expression with some fuel, and its variables are known. -/
structure LowExpr (d : Document) (t : Taint) (arena : ExprArena) (e : Expr) : Prop where
  clean : ∃ fuel, isExprTainted t (d.interner.get "get_system_time") arena fuel e = .ok false
  known : ∀ sym, arena.Below e (.var sym) → d.Knows sym

variable {arena : ExprArena}

theorem LowExpr.children {e : Expr} (h : LowExpr d t arena e)
    (hvar : ∀ sym, e ≠ .var sym) (hcall : ∀ f start len, e ≠ .functionCall f start len) :
    ∀ child ∈ arena.children e, LowExpr d t arena child := by
  intro child hchild
  refine ⟨?_, fun sym hbelow => h.known sym (.step hchild hbelow)⟩
  obtain ⟨fuel, hclean⟩ := h.clean
  cases fuel with
  | zero => cases hclean
  | succ fuel =>
    refine ⟨fuel, ?_⟩
    cases e with
    | var sym => exact absurd rfl (hvar sym)
    | functionCall f start len => exact absurd rfl (hcall f start len)
    | _ => exact of_anyM_false hclean child hchild

theorem LowExpr.call {f : Symbol} {start len : Nat} (h : LowExpr d t arena (.functionCall f start len))
    (hgst : some f ≠ d.interner.get "get_system_time") :
    f ∉ t.functions ∧ ∀ e ∈ arena.args start len, LowExpr d t arena e := by
  obtain ⟨fuel, hclean⟩ := h.clean
  cases fuel with
  | zero => cases hclean
  | succ fuel =>
    simp only [isExprTainted, if_neg hgst] at hclean
    split at hclean
    · cases hclean
    · rename_i hf
      refine ⟨hf, fun e he => ⟨⟨fuel, of_anyM_false hclean e he⟩, fun sym hbelow => ?_⟩⟩
      exact h.known sym (.step he hbelow)

theorem LowExpr.var {sym : Symbol} (h : LowExpr d t arena (.var sym)) : ¬d.High t sym := by
  refine Document.not_high.mpr ⟨?_, h.known sym (.refl _)⟩
  obtain ⟨fuel, hclean⟩ := h.clean
  cases fuel with
  | zero => cases hclean
  | succ fuel =>
    have hdecide : decide (sym ∈ t.vars) = false := Except.ok.inj hclean
    exact of_decide_eq_false hdecide

include hparsed hclosed in
/-- What an evaluation of a low expression evaluates next is low. -/
theorem low_scope {ctx : EvalCtx} (hfunctions : ctx.functions = d.functions)
    (hinterner : ctx.interner.Extends d.interner) : EvalScope ctx fun _ a e => LowExpr d t a e := by
  have hname : ∀ f, ctx.nameOf f ≠ "get_system_time" → some f ≠ d.interner.get "get_system_time" := by
    intro f hne hf
    have hresolve := hinterner (hparsed.interner.resolve_of_get hf.symm)
    exact hne (by rw [EvalCtx.nameOf, hresolve]; rfl)
  constructor
  · intro B a l op r h
    have hchildren := h.children (by simp) (by simp)
    exact ⟨hchildren _ (by simp [ExprArena.children]), hchildren _ (by simp [ExprArena.children])⟩
  · intro B a x v b h
    have hchildren := h.children (by simp) (by simp)
    exact ⟨hchildren _ (by simp [ExprArena.children]), hchildren _ (by simp [ExprArena.children])⟩
  · intro B a e h
    exact h.children (by simp) (by simp) _ (by simp [ExprArena.children])
  · intro B a c th e h
    have hchildren := h.children (by simp) (by simp)
    exact ⟨hchildren _ (by simp [ExprArena.children]), hchildren _ (by simp [ExprArena.children]),
      hchildren _ (by simp [ExprArena.children])⟩
  · intro B a b f hash h
    exact h.children (by simp) (by simp) _ (by simp [ExprArena.children])
  · intro B a f start len h hne
    exact (h.call (hname f hne)).2
  · intro B a f start len func h hne hfunc
    rw [hfunctions] at hfunc
    have hmem : f ∈ d.functions := Finmap.lookup_isSome.mp (by rw [hfunc]; rfl)
    have hbody := hclosed.function f (hparsed.functions f hmem) func hfunc (h.call (hname f hne)).1
    exact ⟨⟨_, hbody.clean⟩, hparsed.bodies f func hfunc⟩

/-- The evaluation of an expression in which no taint is found depends on no high variable. -/
theorem evaluate_low (hparsed : d.Parsed) (hclosed : TaintClosed d t) {ctx : EvalCtx}
    (hfunctions : ctx.functions = d.functions) (hinterner : ctx.interner.Extends d.interner) {tree : ExprTree}
    (h : tree.Clean (d.interner.get "get_system_time") t) (hknown : d.KnowsAll tree) :
    Agree (SameCounted (d.High t)) (SameCounted (d.High t)) (SameCounted (d.High t))
      (evaluate ctx 0 tree.arena tree.rootExpr) (evaluate ctx 0 tree.arena tree.rootExpr) := by
  refine agree_of_agreeAt fun l => ?_
  have hbinds : Binds (SameCounted (d.High t)) l 0 ∅ := ⟨.inl (Nat.zero_le _), fun _ hno => nomatch hno⟩
  exact evaluate_agree (sameCounted_runRel _) (low_scope hparsed hclosed hfunctions hinterner)
    (fun hvar => .inr (sameCounted_sameGlobal hvar.var)) hbinds ⟨⟨_, h⟩, hknown⟩

/-! ## Recorded dependencies -/

/-- A chain of calls starts and ends in declared functions. -/
theorem declared_of_chain {functions : FunctionTable} {c f sym : Symbol}
    (hchain : Relation.ReflTransGen (Calls functions) c f) (hreads : ReadsIn functions f sym) : c ∈ functions := by
  cases hchain using Relation.ReflTransGen.head_induction_on with
  | refl =>
    obtain ⟨func, hfunc, -⟩ := hreads
    exact Finmap.lookup_isSome.mp (by rw [hfunc]; rfl)
  | head hcall _ =>
    obtain ⟨func, hfunc, -⟩ := hcall
    exact Finmap.lookup_isSome.mp (by rw [hfunc]; rfl)

/-- No declared function has the name of the builtin whose calls the check skips. -/
def Document.ClockUndeclared (d : Document) : Prop :=
  ∀ f, d.interner.get "get_system_time" = some f → f ∉ d.functions

variable (hclock : d.ClockUndeclared)

include hclock

/-- What an untouched expression calls, if it is declared, is not marked. -/
theorem ExprTree.Untouched.callee {tree : ExprTree}
    (h : tree.Untouched (d.interner.get "get_system_time") t) {e : Expr} {g : Symbol}
    (hbelow : tree.arena.Below tree.rootExpr e) (hcall : IsCall d.functions e g) (hg : g ∈ d.functions) :
    ¬t.Marked g := by
  refine h.mentions g ⟨e, hbelow, ?_⟩
  rcases hcall with hcall | ⟨hvar, -⟩
  · exact .inr ⟨hcall, fun heq => hclock g heq.symm hg⟩
  · exact .inl hvar

include hparsed hclosed

/-- Along a chain of calls that starts unmarked, no high variable is read. -/
theorem reads_unmarked {c f sym : Symbol} (hchain : Relation.ReflTransGen (Calls d.functions) c f)
    (hreads : ReadsIn d.functions f sym) (hc : ¬t.Marked c) : ¬d.High t sym := by
  have hbody : ∀ g func, d.functions.lookup g = some func → ¬t.Marked g →
      func.body.Untouched (d.interner.get "get_system_time") t := by
    intro g func hfunc hg
    have hmem : g ∈ d.functions := Finmap.lookup_isSome.mp (by rw [hfunc]; rfl)
    exact hclosed.function g (hparsed.functions g hmem) func hfunc fun h => hg (.inr h)
  induction hchain using Relation.ReflTransGen.head_induction_on with
  | refl =>
    obtain ⟨func, hfunc, hfree⟩ := hreads
    refine Document.not_high.mpr ⟨fun hsym => ?_, hparsed.bodies f func hfunc sym hfree.occurs⟩
    exact (hbody f func hfunc hc).mentions sym ⟨_, hfree.occurs, .inl rfl⟩ (.inl hsym)
  | @head c g hcall hrest ih =>
    obtain ⟨func, hfunc, e, hbelow, hcalls⟩ := hcall
    exact ih ((hbody c func hfunc hc).callee hclock hbelow hcalls (declared_of_chain hrest hreads))

/-- A computed binding that is not high is not recorded to depend on a high variable. -/
theorem dependsOn_low {cb : ComputedBinding} (hcb : cb ∈ d.comps) (hname : cb.name ∉ t.vars) :
    ∀ sym ∈ cb.dependsOn, ¬d.High t sym := by
  intro sym hsym
  obtain ⟨max, decls, hparse⟩ := hparsed.comps
  obtain ⟨decl, -, hfrom⟩ := parseComputed_mem hparse hcb
  have huntouched := hclosed.comp cb hcb hname
  have hknown := hparsed.exprs cb hcb
  rw [hfrom.expr] at huntouched hknown
  obtain ⟨-, hbelow | ⟨e, c, f, hbelow, hcall, hchain, hreads⟩⟩ := (hfrom.dependsOn sym).mp hsym
  · refine Document.not_high.mpr ⟨fun hmem => ?_, hknown sym hbelow⟩
    exact huntouched.mentions sym ⟨_, hbelow, .inl rfl⟩ (.inl hmem)
  · have hc := huntouched.callee hclock hbelow hcall (declared_of_chain hchain hreads)
    exact reads_unmarked hparsed hclosed hclock hchain hreads hc

end Clean

/-! ## The sinks -/

theorem checkSink_ok {interner : Interner} {t : Taint} {gstSym : Option Symbol} {url : ExprTree}
    (h : checkSink interner t gstSym .nonInteractive url = .ok ()) : url.Clean gstSym t := by
  obtain ⟨b, hb, h⟩ := except_of_bind_ok h
  cases b with
  | false => exact hb
  | true =>
    obtain ⟨path, -, h⟩ := except_of_bind_ok h
    cases h

theorem checkSinks_ok {interner : Interner} {t : Taint} {gstSym : Option Symbol}
    {actions : List (ActionContext × Action)} {n : Nat} (h : checkSinks interner t gstSym actions = .ok n)
    {url : ExprTree} (hmem : (.nonInteractive, .navigate url) ∈ actions) : url.Clean gstSym t := by
  induction actions generalizing n with
  | nil => cases hmem
  | cons action actions ih =>
    obtain ⟨context, action⟩ := action
    cases action with
    | navigate url' =>
      obtain ⟨⟨⟩, hsink, h⟩ := except_of_bind_ok h
      obtain ⟨m, hrest, -⟩ := except_of_bind_ok h
      rcases List.mem_cons.mp hmem with heq | hmem
      · cases heq
        exact checkSink_ok hsink
      · exact ih hrest hmem
    | eval | assign | networkCall => exact ih h ((List.mem_cons.mp hmem).resolve_left nofun)

/-- What a document that passes the check is known to keep. -/
structure Secured (d : Document) (t : Taint) (comps : List ComputedBinding) : Prop where
  closed : TaintClosed d t
  comps : comps = markComps t d.comps
  navigations : ∀ url, .navigate url ∈ d.timerActions → url.Clean (d.interner.get "get_system_time") t

theorem checkInformationFlow_secured {order : HashOrder} {d : Document} {comps : List ComputedBinding}
    {metrics : Nat × Nat × Nat} (h : checkInformationFlow order d = .ok (comps, metrics)) :
    ∃ t, taintOf order d = .ok t ∧ Secured d t comps := by
  obtain ⟨t, ht, h⟩ := except_of_bind_ok h
  have hrest : ∃ sinks, checkSinks d.interner t (d.interner.get "get_system_time") d.contextActions = .ok sinks ∧
      comps = markComps t d.comps := by
    revert h
    generalize d.interner.get "get_system_time" = gstSym
    intro h
    cases gstSym with
    | none =>
      obtain ⟨sinks, hsinks, h⟩ := except_of_bind_ok h
      cases h
      exact ⟨sinks, hsinks, rfl⟩
    | some gstSym =>
      obtain ⟨⟨⟩, -, h⟩ := except_of_bind_ok h
      obtain ⟨sinks, hsinks, h⟩ := except_of_bind_ok h
      cases h
      exact ⟨sinks, hsinks, rfl⟩
  obtain ⟨sinks, hsinks, hcomps⟩ := hrest
  refine ⟨t, ht, taintOf_closed ht, hcomps, fun url hmem => checkSinks_ok hsinks ?_⟩
  exact List.mem_append_right _ (List.mem_map_of_mem hmem)

end Mizu
