import Mizu.Types.Eval.Queue

/-!
# The purity gate

`findSideEffectCall` is the walk that decides whether an expression may stand in a class
condition. It does not look into the functions an expression calls, and it takes any name the
document declares for a function, also one the evaluator dispatches to a builtin.
`gate_sound_iff` says that these two are its only gaps: the evaluation of an accepted expression
leaves the action queue alone exactly if it reaches no effect through one of them.
`gate_sound_of_pure_bodies` gives the static condition that closes both.
-/

namespace Mizu

open Exec

/-- The builtins permitted in a pure context. -/
def knownPureBuiltins : List String :=
  ["filter", "count", "sort", "length", "to_string", "contains", "has_field"]

/-- The first finding of a walk over several expressions (`or_else`). -/
def firstFinding (walk : Expr → Option (Option String)) : List Expr → Option (Option String)
  | [] => some none
  | e :: es =>
    match walk e with
    | some none => firstFinding walk es
    | found => found

/-- `find_side_effect_call`. The source recurses on the native stack; `fuel` bounds it, and `none`
is a walk that did not return. -/
def findSideEffectCall (interner : Interner) (functions : FunctionTable) :
    Nat → ExprArena → Expr → Option (Option String)
  | 0, _, _ => none
  | fuel + 1, arena, e =>
    let walk := findSideEffectCall interner functions fuel arena
    match e with
    | .literal _ | .var _ => some none
    | .binaryOp l _ r => firstFinding walk [arena.get l, arena.get r]
    | .functionCall name start len =>
      match functions.lookup name, interner.resolve name with
      | none, some n =>
        if n ∈ knownPureBuiltins then firstFinding walk (arena.args start len) else some (some n)
      | _, _ => firstFinding walk (arena.args start len)
    | .letIn _ v b => firstFinding walk [arena.get v, arena.get b]
    | .not e => walk (arena.get e)
    | .ifElse c t e => firstFinding walk [arena.get c, arena.get t, arena.get e]
    | .fieldAccess b _ _ => walk (arena.get b)

section Gate

variable (ctx : EvalCtx)

/-- The gate accepts the expression. -/
def Accepted (arena : ExprArena) (e : Expr) : Prop :=
  ∃ fuel, findSideEffectCall ctx.interner ctx.functions fuel arena e = some none

/-- The name the site calls is one the document declares as a function. -/
def CallsDeclared (site : Site) : Prop :=
  ∃ f st len, site.expr = .functionCall f st len ∧ (ctx.functions.lookup f).isSome

/-- An effect the gate does not see: queued in a body, or under the name of a declared function. -/
def HiddenEffect (site : Site) : Prop :=
  ∃ mid, Relation.ReflTransGen (SubEval ctx) site mid ∧
    ((∃ action t, Acts ctx mid action t ∧ CallsDeclared ctx mid) ∨
      ∃ body, BodyEval ctx mid body ∧ Queues ctx body)

variable {ctx}

theorem firstFinding_none {walk : Expr → Option (Option String)} {es : List Expr}
    (h : firstFinding walk es = some none) : ∀ e ∈ es, walk e = some none := by
  induction es with
  | nil => simp
  | cons e es ih => grind [firstFinding]

/-- Where the walk accepts a call it has accepted the arguments, and the name is a known pure
builtin, a declared function or no name at all. -/
theorem Accepted.call {a : ExprArena} {f : Symbol} {st len : Nat}
    (h : Accepted ctx a (.functionCall f st len)) :
    (∀ e ∈ a.args st len, Accepted ctx a e) ∧
      ((ctx.functions.lookup f).isSome ∨ ctx.nameOf f ∈ knownPureBuiltins ∨
        ctx.nameOf f = "<unknown>") := by
  obtain ⟨fuel, h⟩ := h
  cases fuel with
  | zero => simp [findSideEffectCall] at h
  | succ fuel =>
    have hargs : ∀ {w : Option (Option String)}, w = some none →
        w = firstFinding (findSideEffectCall ctx.interner ctx.functions fuel a) (a.args st len) →
        ∀ e ∈ a.args st len, Accepted ctx a e := fun hw hf e he =>
      ⟨fuel, firstFinding_none (hf ▸ hw) e he⟩
    simp only [findSideEffectCall] at h
    cases hl : ctx.functions.lookup f with
    | some func =>
      simp only [hl] at h
      exact ⟨hargs h rfl, .inl rfl⟩
    | none =>
      cases hr : ctx.interner.resolve f with
      | none | some => grind [EvalCtx.nameOf]

/-- What an accepted expression evaluates in its own frame is accepted. -/
theorem Accepted.subEval {site site' : Site} (hstep : SubEval ctx site site')
    (h : Accepted ctx site.arena site.expr) : Accepted ctx site'.arena site'.expr := by
  have hfuel : ∀ {a : ExprArena} {e : Expr}, Accepted ctx a e →
      ∃ fuel, findSideEffectCall ctx.interner ctx.functions (fuel + 1) a e = some none := by
    rintro a e ⟨fuel, h⟩
    cases fuel with
    | zero => simp [findSideEffectCall] at h
    | succ fuel => exact ⟨fuel, h⟩
  have hlist : ∀ {a : ExprArena} {fuel : Nat} {es : List Expr} {e : Expr},
      firstFinding (findSideEffectCall ctx.interner ctx.functions fuel a) es = some none →
      e ∈ es → Accepted ctx a e := fun h he => ⟨_, firstFinding_none h _ he⟩
  cases hstep with
  | binaryLeft | binaryRight | letValue | letBody | condition => obtain ⟨fuel, h⟩ := hfuel h; exact hlist h (by simp)
  | notInner => obtain ⟨fuel, h⟩ := hfuel h; exact ⟨fuel, h⟩
  | branch => obtain ⟨fuel, h⟩ := hfuel h; exact hlist h (by split <;> simp)
  | fieldBase => obtain ⟨fuel, h⟩ := hfuel h; exact ⟨fuel, h⟩
  | callArg _ _ harg =>
    obtain ⟨harena, hmem⟩ := harg.expr_mem
    exact harena ▸ h.call.1 _ hmem
  | storeKey _ _ hargs => exact h.call.1 _ (by simp [hargs])
  | storeValue _ _ hargs => exact h.call.1 _ (by simp [hargs])

variable {site : Site}

theorem Acts.builtin {action : RuntimeAction} {t : Evaluator} (h : Acts ctx site action t) :
    ∃ f st len b, site.expr = .functionCall f st len ∧
      Builtin.dispatch (ctx.nameOf f) (site.arena.args st len).length = some b := by
  cases h with
  | copyToClipboard _ hname => exact ⟨_, _, _, _, rfl, hname⟩
  | getSystemTime _ hname => exact ⟨_, _, _, _, rfl, hname⟩
  | storeLocal _ hname => exact ⟨_, _, _, _, rfl, hname⟩
  | download _ hname => exact ⟨_, _, _, _, rfl, hname⟩

/-- A builtin with an effect is dispatched under a name that is not on the list. -/
theorem dispatch_effect {name : String} {argc : Nat} {b : Builtin}
    (h : Builtin.dispatch name argc = some b) (hb : ∀ p, b ≠ .pure p) :
    name ∉ knownPureBuiltins ∧ name ≠ "<unknown>" := by
  constructor
  · intro hmem
    simp only [knownPureBuiltins, List.mem_cons, List.not_mem_nil, or_false] at hmem
    rcases hmem with rfl | rfl | rfl | rfl | rfl | rfl | rfl <;>
      · grind [Builtin.dispatch]
  · rintro rfl
    simp [Builtin.dispatch] at h

/-- An accepted call that queues an action has the name of a declared function. -/
theorem Accepted.acts {action : RuntimeAction} {t : Evaluator}
    (hact : Acts ctx site action t) (h : Accepted ctx site.arena site.expr) : CallsDeclared ctx site := by
  have key : ∀ {fp : Nat} {a : ExprArena} {f : Symbol} {st len : Nat} {s : Evaluator} {b : Builtin},
      Accepted ctx a (.functionCall f st len) →
      Builtin.dispatch (ctx.nameOf f) (a.args st len).length = some b → (∀ p, b ≠ .pure p) →
      CallsDeclared ctx ⟨fp, a, .functionCall f st len, s⟩ := by
    intro fp a f st len s b hacc hname hb
    obtain ⟨hpure, hunknown⟩ := dispatch_effect hname hb
    exact ⟨f, st, len, rfl, hacc.call.2.resolve_right (not_or.mpr ⟨hpure, hunknown⟩)⟩
  cases hact with
  | copyToClipboard _ hname => exact key h hname (by simp)
  | getSystemTime _ hname => exact key h hname (by simp)
  | storeLocal _ hname => exact key h hname (by simp)
  | download _ hname => exact key h hname (by simp)

theorem HiddenEffect.head {site site' : Site} (hstep : SubEval ctx site site')
    (h : HiddenEffect ctx site') : HiddenEffect ctx site := by
  obtain ⟨mid, hpath, hmid⟩ := h
  exact ⟨mid, hpath.head hstep, hmid⟩

theorem HiddenEffect.queues (h : HiddenEffect ctx site) : Queues ctx site := by
  obtain ⟨mid, hpath, hmid⟩ := h
  have hpath' : Relation.ReflTransGen (Performs ctx) site mid :=
    Relation.ReflTransGen.mono (p := Performs ctx) (fun _ _ h => Or.inl h) site mid hpath
  rcases hmid with ⟨action, t, hact, -⟩ | ⟨body, hbody, last, action, t, hlast, hact⟩
  · exact ⟨mid, action, t, hpath', hact⟩
  · exact ⟨last, action, t, hpath'.trans (hlast.head (.inr hbody)), hact⟩

/-- Every effect of an accepted expression is hidden. -/
theorem Queues.hiddenEffect (hq : Queues ctx site)
    (h : Accepted ctx site.arena site.expr) : HiddenEffect ctx site := by
  obtain ⟨last, action, t, hpath, hact⟩ := hq
  induction hpath using Relation.ReflTransGen.head_induction_on with
  | refl => exact ⟨last, .refl, .inl ⟨action, t, hact, h.acts hact⟩⟩
  | @head site mid hstep hrest ih =>
    rcases hstep with hsub | hbody
    · exact (ih (h.subEval hsub)).head hsub
    · exact ⟨site, .refl, .inr ⟨mid, hbody, last, action, t, hrest, hact⟩⟩

/-- The gate is sound exactly up to hidden effects: evaluating an accepted expression leaves the
queue as it was if and only if it reaches no effect in the body of a function or under a declared
name. -/
theorem gate_sound_iff (ctx : EvalCtx) (fuel fp : Nat) (arena : ExprArena) (e : Expr)
    (s : Evaluator)
    (haccept : findSideEffectCall ctx.interner ctx.functions fuel arena e = some none) :
    (finalState (evaluate ctx fp arena e s)).accumulatedActions = s.accumulatedActions ↔
      ¬HiddenEffect ctx ⟨fp, arena, e, s⟩ := by
  rw [queues_iff ⟨fp, arena, e, s⟩]
  exact not_congr ⟨fun hq => hq.hiddenEffect ⟨fuel, haccept⟩, HiddenEffect.queues⟩

/-- Where the gate accepts every function body and no function has the name of a builtin, what it
accepts is pure. -/
theorem gate_sound_of_pure_bodies (ctx : EvalCtx)
    (hbodies : ∀ f func, ctx.functions.lookup f = some func →
      Accepted ctx func.body.arena func.body.rootExpr)
    (hnames : ∀ f argc, (ctx.functions.lookup f).isSome → Builtin.dispatch (ctx.nameOf f) argc = none)
    {arena : ExprArena} {e : Expr} (h : Accepted ctx arena e) (fp : Nat) (s : Evaluator) :
    (finalState (evaluate ctx fp arena e s)).accumulatedActions = s.accumulatedActions := by
  refine (queues_iff ⟨fp, arena, e, s⟩).mpr ?_
  rintro ⟨last, action, t, hpath, hact⟩
  have hlast : Accepted ctx last.arena last.expr := by
    clear hact
    induction hpath with
    | refl => exact h
    | tail _ hstep ih =>
      rcases hstep with hsub | ⟨func, vs, t, u, ⟨name, st, len, s₁, -, -, -, hfunc, -⟩, -, rfl⟩
      · exact ih.subEval hsub
      · exact hbodies name func hfunc
  obtain ⟨f, st, len, hexpr, hdeclared⟩ := hlast.acts hact
  obtain ⟨g, st', len', b, hexpr', hname⟩ := hact.builtin
  cases hexpr.symm.trans hexpr'
  rw [hnames f _ hdeclared] at hname
  cases hname

end Gate

/-! ## An accepted expression with an effect -/

/-- `fn save() : store_local("k", 1)`. -/
def savingCtx : EvalCtx where
  functions := Finmap.singleton ⟨0⟩
    { params := []
      body := { arena := { nodes := [.literal (.string "k"), .literal (.int 1), .functionCall ⟨1⟩ 0 2]
                           argsPool := [0, 1]
                           nodes_valid := by decide
                           pool_valid := by decide }
                root := 2
                root_valid := by decide } }
  interner := .ofNames ["save", "store_local"]
  arcEq := { same := fun _ _ => false, eq_of_same := @ArcEq.never_same }

/-- The condition `save()`. -/
def savingArena : ExprArena where
  nodes := [.functionCall ⟨0⟩ 0 0]
  argsPool := []
  nodes_valid := nullaryCall_valid
  pool_valid := emptyPool_valid

/-- The gate accepts `save()`, whose evaluation queues a write. -/
theorem gate_accepts_effect :
    ¬∀ (ctx : EvalCtx) (fuel fp : Nat) (arena : ExprArena) (e : Expr) (s : Evaluator),
      findSideEffectCall ctx.interner ctx.functions fuel arena e = some none →
      (finalState (evaluate ctx fp arena e s)).accumulatedActions = s.accumulatedActions := by
  intro h
  have hqueue := congrArg List.length
    (h savingCtx 1 0 savingArena (savingArena.get 0) (.new 20000) (by decide))
  exact absurd hqueue (by decide)

/-- The gate at work on `length("ab")`, which reaches no hidden effect. -/
theorem gate_sound_length :
    let arena : ExprArena :=
      { nodes := [.literal (.string "ab"), .functionCall ⟨0⟩ 0 1], argsPool := [0],
        nodes_valid := by decide, pool_valid := by decide }
    let ctx : EvalCtx :=
      { functions := ∅, interner := .ofNames ["length"],
        arcEq := { same := fun _ _ => false, eq_of_same := fun h => nomatch h } }
    findSideEffectCall ctx.interner ctx.functions 2 arena (arena.get 1) = some none ∧
      ¬HiddenEffect ctx ⟨0, arena, arena.get 1, .new 20000⟩ := by
  refine ⟨by decide, ?_⟩
  exact (gate_sound_iff _ 2 0 _ _ (.new 20000) (by decide)).mp rfl

end Mizu
