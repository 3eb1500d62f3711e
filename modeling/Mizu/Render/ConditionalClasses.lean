import Mizu.Layout.Parse
import Mizu.Logic.Parse.Arena
import Mizu.Style.Parse
import Mizu.Types.Eval.NoFunctions

/-!
# Conditional classes

`evaluateConditionalClasses` decides, for every frame that is painted, which of the conditional classes of a node apply,
and merges their rules. The condition is read by the evaluator that the document runs on, with the bindings of the row
as locals, but with an empty table of functions.

* `evaluateConditionalClasses_rules`: the rules are those of the classes that apply, in the order of their declaration.
* `conditionalClasses_iff`: the classes mean what the document says exactly if no condition reaches a builtin with an
  effect and a condition that reaches a call of a function does not apply its class.
-/

namespace Mizu

open Exec Style

/-- A class with the expression that decides about it. -/
inductive ConditionalClass where
  | toggle (className : String) (condition : ExprTree)
  | ternary (expr : ExprTree)

variable (cc : ConditionalClass)

namespace ConditionalClass

def tree : ConditionalClass → ExprTree
  | toggle _ condition => condition
  | ternary expr => expr

/-- The class that applies, from how the evaluation of the expression ended. -/
def resolved : ConditionalClass → EStateM.Result MizuError Evaluator Value → Option String
  | toggle className _, .ok (.bool true) _ => some className
  | ternary _, .ok (.string s) _ => some s
  | _, _ => none

@[simp] theorem resolved_error (e : MizuError) (s : Evaluator) : cc.resolved (.error e s) = none := by
  cases cc <;> rfl

/-- The class as the layout parser reads it, with its tree in an arena. -/
def Reads (i : Interner) : Layout.ClassTree → ConditionalClass → Prop
  | .toggle className t, .toggle className' condition =>
    className = className' ∧ Holds i condition.arena t condition.rootExpr
  | .ternary t, .ternary expr => Holds i expr.arena t expr.rootExpr
  | _, _ => False

end ConditionalClass

/-- The bindings of the row whose names the document knows. -/
def bindingPairs (interner : Interner) (itemBindings : List (String × Value)) : List (Symbol × Value) :=
  itemBindings.filterMap fun (name, val) => (interner.get name).map fun sym => (sym, val)

section Loop

variable (ctx : EvalCtx) (pairs : List (Symbol × Value))

/-- The state that a condition is evaluated in: no instruction counted, the bindings above the locals. -/
def classStart (s : Evaluator) : Evaluator :=
  pairs.foldl (fun s pair => s.pushLocal pair.1 pair.2) { s with instructionCount := 0 }

/-- The evaluation of a condition. -/
def evaluateClass (cc : ConditionalClass) (s : Evaluator) : EStateM.Result MizuError Evaluator Value :=
  evaluate ctx 0 cc.tree.arena cc.tree.rootExpr (classStart pairs s)

/-- The state after a condition: the locals are cut back. -/
def classEnd (cc : ConditionalClass) (s : Evaluator) : Evaluator :=
  (finalState (evaluateClass ctx pairs cc s)).truncateLocals s.locals.stack.length

variable {V : Type} (rules : FxHashMap String (StyleRules V))

/-- One class of the loop. -/
def classStep (acc : StyleRules V × Evaluator) (cc : ConditionalClass) : StyleRules V × Evaluator :=
  let (extra, s) := acc
  let resolvedClassName := cc.resolved (evaluateClass ctx.withoutFunctions pairs cc s)
  let s' := classEnd ctx.withoutFunctions pairs cc s
  match resolvedClassName with
  | some className => (mergeKey rules extra className, s')
  | none => (extra, s')

/-- `evaluate_conditional_classes`. -/
def evaluateConditionalClasses (conditionalClasses : List ConditionalClass)
    (itemBindings : List (String × Value)) (s : Evaluator) : StyleRules V × Evaluator :=
  if conditionalClasses.isEmpty then (.empty, s)
  else conditionalClasses.foldl (classStep ctx (bindingPairs ctx.interner itemBindings) rules) (.empty, s)

/-! ## The classes that apply -/

/-- What each class of the loop resolves to, from the state that the ones before it leave. -/
def resolvedClasses : List ConditionalClass → Evaluator → List (Option String)
  | [], _ => []
  | cc :: ccs, s =>
    cc.resolved (evaluateClass ctx.withoutFunctions pairs cc s) ::
      resolvedClasses ccs (classEnd ctx.withoutFunctions pairs cc s)

/-- The state after a list of classes. -/
def classesEnd (ccs : List ConditionalClass) (s : Evaluator) : Evaluator :=
  ccs.foldl (fun s cc => classEnd ctx.withoutFunctions pairs cc s) s

/-- The rules of several classes, one over the other. -/
def mergeClasses (extra : StyleRules V) (classNames : List (Option String)) : StyleRules V :=
  (classNames.filterMap id).foldl (mergeKey rules) extra

theorem foldl_classStep (ccs : List ConditionalClass) (extra : StyleRules V) (s : Evaluator) :
    ccs.foldl (classStep ctx pairs rules) (extra, s) =
      (mergeClasses rules extra (resolvedClasses ctx pairs ccs s), classesEnd ctx pairs ccs s) := by
  induction ccs generalizing extra s with
  | nil => rfl
  | cons cc ccs ih =>
    rw [List.foldl_cons]
    simp only [classStep, resolvedClasses]
    cases cc.resolved (evaluateClass ctx.withoutFunctions pairs cc s) with
    | none | some =>
      dsimp only
      rw [ih]
      rfl

/-- The loop merges the rules of the classes that apply, in the order of their declaration. -/
theorem evaluateConditionalClasses_rules (ccs : List ConditionalClass) (itemBindings : List (String × Value))
    (s : Evaluator) :
    evaluateConditionalClasses ctx rules ccs itemBindings s =
      (mergeClasses rules .empty (resolvedClasses ctx (bindingPairs ctx.interner itemBindings) ccs s),
        classesEnd ctx (bindingPairs ctx.interner itemBindings) ccs s) := by
  unfold evaluateConditionalClasses
  split
  · rename_i hnil
    rw [List.isEmpty_iff.mp hnil]
    rfl
  · exact foldl_classStep ctx _ rules ccs .empty s

end Loop

/-! ## The state of the evaluator -/

section State

theorem foldl_pushLocal (pairs : List (Symbol × Value)) (s : Evaluator) :
    Kept s (pairs.foldl (fun s pair => s.pushLocal pair.1 pair.2) s) ∧
      s.locals.Below (pairs.foldl (fun s pair => s.pushLocal pair.1 pair.2) s).locals ∧
      (pairs.foldl (fun s pair => s.pushLocal pair.1 pair.2) s).accumulatedActions = s.accumulatedActions := by
  induction pairs generalizing s with
  | nil => exact ⟨Kept.refl s, Locals.Below.refl _, rfl⟩
  | cons pair pairs ih =>
    obtain ⟨hkept, hbelow, hqueue⟩ := ih (s.pushLocal pair.1 pair.2)
    exact ⟨(Kept.of_locals s _ s.instructionCount).trans hkept,
      (Locals.below_push s.locals pair.1 pair.2).trans hbelow, hqueue⟩

variable {ctx : EvalCtx} {pairs : List (Symbol × Value)}

theorem classStart_kept (s : Evaluator) :
    Kept s (classStart pairs s) ∧ s.locals.Below (classStart pairs s).locals ∧
      (classStart pairs s).accumulatedActions = s.accumulatedActions := by
  obtain ⟨hkept, hrest⟩ := foldl_pushLocal pairs { s with instructionCount := 0 }
  exact ⟨(Kept.of_locals s s.locals 0).trans hkept, hrest⟩

/-- A condition leaves the evaluator as it was, but for the instructions counted and the queue. -/
theorem classEnd_returned (s : Evaluator) : Returned s (classEnd ctx pairs cc s) := by
  have hthrew : Threw (classStart pairs s) (finalState (evaluateClass ctx pairs cc s)) := by
    unfold evaluateClass
    cases hrun : evaluate ctx 0 cc.tree.arena cc.tree.rootExpr (classStart pairs s) with
    | ok v s' => exact (evaluate_returned hrun).threw
    | error e s' => exact evaluate_threw hrun
  obtain ⟨hkept, hbelow, -⟩ := @classStart_kept pairs s
  exact ⟨hkept.trans (hthrew.toKept.trans (Kept.of_locals _ _ _)),
    (hbelow.trans hthrew.locals).truncate_eq⟩

theorem classesEnd_returned (ctx : EvalCtx) (pairs : List (Symbol × Value)) (ccs : List ConditionalClass)
    (s : Evaluator) : Returned s (classesEnd ctx pairs ccs s) := by
  induction ccs generalizing s with
  | nil => exact frame_composes.refl s
  | cons cc ccs ih => exact frame_composes.trans (classEnd_returned cc s) (ih _)

theorem Returned.eq_of_queue {s s' : Evaluator} (h : Returned s s')
    (hqueue : s'.accumulatedActions = s.accumulatedActions) :
    s' = { s with instructionCount := s'.instructionCount } := by
  obtain ⟨⟨hglobals, hundo, hmax, hcomputed, hdepth, -⟩, hlocals⟩ := h
  cases s
  cases s'
  simp only at *
  subst_vars
  rfl

theorem classEnd_queue_iff (s : Evaluator) :
    (classEnd ctx pairs cc s).accumulatedActions = s.accumulatedActions ↔
      ¬Queues ctx ⟨0, cc.tree.arena, cc.tree.rootExpr, classStart pairs s⟩ := by
  obtain ⟨-, -, hstart⟩ := @classStart_kept pairs s
  rw [← queues_iff ⟨0, cc.tree.arena, cc.tree.rootExpr, classStart pairs s⟩]
  simp only [hstart]
  rfl

end State

/-! ## What the document says -/

section Meaning

variable (ctx : EvalCtx) (pairs : List (Symbol × Value)) {V : Type} (rules : FxHashMap String (StyleRules V))

/-- The class that applies by the functions of the document. -/
def documentClass (s : Evaluator) (cc : ConditionalClass) : Option String :=
  cc.resolved (evaluateClass ctx pairs cc s)

/-- The classes apply as the document says, and the evaluator is left alone. -/
structure ClassesMeant (ccs : List ConditionalClass) (itemBindings : List (String × Value)) (s : Evaluator) :
    Prop where
  applies : resolvedClasses ctx (bindingPairs ctx.interner itemBindings) ccs s =
    ccs.map (documentClass ctx (bindingPairs ctx.interner itemBindings) s)
  merged : (evaluateConditionalClasses ctx rules ccs itemBindings s).1 =
    mergeClasses rules .empty (ccs.map (documentClass ctx (bindingPairs ctx.interner itemBindings) s))
  locals : (evaluateConditionalClasses ctx rules ccs itemBindings s).2.locals = s.locals
  globals : (evaluateConditionalClasses ctx rules ccs itemBindings s).2.globalStore = s.globalStore
  queue : (evaluateConditionalClasses ctx rules ccs itemBindings s).2.accumulatedActions = s.accumulatedActions

/-- The condition reaches no builtin with an effect, and where it reaches a call of a function its class does not
apply. -/
structure ClassReadable (s : Evaluator) (cc : ConditionalClass) : Prop where
  quiet : ¬Queues ctx.withoutFunctions ⟨0, cc.tree.arena, cc.tree.rootExpr, classStart pairs s⟩
  calls : ReachesCall ctx ⟨0, cc.tree.arena, cc.tree.rootExpr, classStart pairs s⟩ →
    documentClass ctx pairs s cc = none

variable {ctx pairs rules} {s : Evaluator} {cc : ConditionalClass}

/-- A condition that reaches a call of a function never applies its class; any other applies it as the document
says. -/
theorem resolved_eq_iff :
    cc.resolved (evaluateClass ctx.withoutFunctions pairs cc s) = documentClass ctx pairs s cc ↔
      (ReachesCall ctx ⟨0, cc.tree.arena, cc.tree.rootExpr, classStart pairs s⟩ →
        documentClass ctx pairs s cc = none) := by
  by_cases hcalls : ReachesCall ctx ⟨0, cc.tree.arena, cc.tree.rootExpr, classStart pairs s⟩
  · obtain ⟨e, s', hthrow⟩ := evaluate_withoutFunctions_throws hcalls
    have hnone : cc.resolved (evaluateClass ctx.withoutFunctions pairs cc s) = none := by
      unfold evaluateClass
      rw [hthrow, ConditionalClass.resolved_error]
    rw [hnone]
    exact ⟨fun h _ => h.symm, fun h => (h hcalls).symm⟩
  · have hsame : evaluateClass ctx.withoutFunctions pairs cc s = evaluateClass ctx pairs cc s :=
      evaluate_withoutFunctions_eq hcalls
    rw [hsame]
    exact ⟨fun _ h => absurd h hcalls, fun _ => rfl⟩

theorem classReadable_iff :
    ClassReadable ctx pairs s cc ↔
      (classEnd ctx.withoutFunctions pairs cc s).accumulatedActions = s.accumulatedActions ∧
        cc.resolved (evaluateClass ctx.withoutFunctions pairs cc s) = documentClass ctx pairs s cc := by
  rw [classEnd_queue_iff, resolved_eq_iff]
  exact ⟨fun h => ⟨h.quiet, h.calls⟩, fun h => ⟨h.1, h.2⟩⟩

/-- The count does not matter to a condition. -/
theorem resolvedClasses_of_count (ccs : List ConditionalClass) (n : Nat) :
    resolvedClasses ctx pairs ccs { s with instructionCount := n } = resolvedClasses ctx pairs ccs s := by
  cases ccs <;> rfl

theorem classesEnd_of_count (ccs : List ConditionalClass) (n : Nat) :
    (classesEnd ctx pairs ccs { s with instructionCount := n }).accumulatedActions =
      (classesEnd ctx pairs ccs s).accumulatedActions := by
  cases ccs <;> rfl

/-- The loop, one class at a time: it queues nothing and resolves the classes as the document says exactly if each
class does from the state before the loop. -/
theorem resolvedClasses_iff (ccs : List ConditionalClass) (s : Evaluator) :
    (classesEnd ctx pairs ccs s).accumulatedActions = s.accumulatedActions ∧
        resolvedClasses ctx pairs ccs s = ccs.map (documentClass ctx pairs s) ↔
      ∀ cc ∈ ccs, ClassReadable ctx pairs s cc := by
  induction ccs with
  | nil => simp [classesEnd, resolvedClasses]
  | cons cc ccs ih =>
    rw [List.forall_mem_cons, ← ih, classReadable_iff]
    have hend : classesEnd ctx pairs (cc :: ccs) s =
        classesEnd ctx pairs ccs (classEnd ctx.withoutFunctions pairs cc s) := rfl
    have hstep : Returned s (classEnd ctx.withoutFunctions pairs cc s) := classEnd_returned cc s
    simp only [hend, resolvedClasses, List.map_cons, List.cons.injEq]
    constructor
    · rintro ⟨hqueue, hcc, hccs⟩
      -- The queue only grows, so no class queued anything.
      have hfirst : (classEnd ctx.withoutFunctions pairs cc s).accumulatedActions = s.accumulatedActions := by
        have hrest := (classesEnd_returned ctx pairs ccs (classEnd ctx.withoutFunctions pairs cc s)).queue_grows
        rw [hqueue] at hrest
        exact (hstep.queue_grows.eq_of_length_le hrest.length_le).symm
      rw [hstep.eq_of_queue hfirst] at hqueue hccs
      rw [classesEnd_of_count] at hqueue
      rw [resolvedClasses_of_count] at hccs
      exact ⟨⟨hfirst, hcc⟩, hqueue, hccs⟩
    · grind [hstep.eq_of_queue, classesEnd_of_count, resolvedClasses_of_count]

/-- The classes of a node mean what the document says exactly if each of them is readable without the functions of
the document. -/
theorem conditionalClasses_iff (ctx : EvalCtx) (rules : FxHashMap String (StyleRules V))
    (ccs : List ConditionalClass) (itemBindings : List (String × Value)) (s : Evaluator) :
    ClassesMeant ctx rules ccs itemBindings s ↔
      ∀ cc ∈ ccs, ClassReadable ctx (bindingPairs ctx.interner itemBindings) s cc := by
  rw [← resolvedClasses_iff]
  have hrun := evaluateConditionalClasses_rules ctx rules ccs itemBindings s
  constructor
  · intro h
    have hqueue := h.queue
    rw [hrun] at hqueue
    exact ⟨hqueue, h.applies⟩
  · rintro ⟨hqueue, happlies⟩
    have hreturned := classesEnd_returned ctx (bindingPairs ctx.interner itemBindings) ccs s
    refine ⟨happlies, ?_, ?_, ?_, ?_⟩
    · rw [hrun, happlies]
    · rw [hrun]
      exact hreturned.locals
    · rw [hrun]
      exact hreturned.globalStore
    · rw [hrun]
      exact hqueue

end Meaning

/-! ## A class that never applies -/

/-- The layout parser and the evaluator know the same functions. -/
def SameFunctions (ctx : EvalCtx) (declared : String → Bool) : Prop :=
  ∀ sym name, ctx.interner.resolve sym = some name → declared name = (ctx.functions.lookup sym).isSome

/-- `fn yes() : true`. -/
def yesCtx : EvalCtx where
  functions := Finmap.singleton ⟨0⟩
    { params := []
      body := { arena := { nodes := [.literal (.bool true)], argsPool := [], nodes_valid := by decide,
                           pool_valid := by decide }
                root := 0
                root_valid := by decide } }
  interner := .ofNames ["yes"]
  arcEq := { same := fun _ _ => false, eq_of_same := @ArcEq.never_same }

/-- The document's layout parser. -/
def yesLayout : Layout.LayoutEnv where
  isAlphanumeric := Char.isAlphanum
  table := latinTable
  parse := ⟨256, fun _ => none, id⟩
  headerName _ := .ok ()
  urls := none
  isRemoteOrigin := false
  declared name := name = "yes"

/-- `class a if yes()`. -/
def yesClass : ConditionalClass :=
  .toggle "a"
    { arena := { nodes := [.functionCall ⟨0⟩ 0 0], argsPool := [], nodes_valid := nullaryCall_valid,
                 pool_valid := emptyPool_valid }
      root := 0
      root_valid := by decide }

theorem yesClass_read :
    Layout.readClass yesLayout 1 ['a', ' ', 'i', 'f', ' ', 'y', 'e', 's', '(', ')'] =
      .ok (.toggle "a" (.functionCall "yes" [])) := by
  rfl

/-- An accepted class whose condition is a call that gives true does not apply. -/
theorem conditionalClasses_not_meant :
    ¬∀ (env : Layout.LayoutEnv) (lineNum : Nat) (rest : List Char) (ct : Layout.ClassTree) (ctx : EvalCtx)
      (rules : FxHashMap String (StyleRules Unit)) (cc : ConditionalClass) (itemBindings : List (String × Value))
      (s : Evaluator), SameFunctions ctx env.declared → Layout.readClass env lineNum rest = .ok ct →
      cc.Reads ctx.interner ct → ClassesMeant ctx rules [cc] itemBindings s := by
  intro h
  have hsame : SameFunctions yesCtx yesLayout.declared := by
    rintro ⟨id⟩ name hname
    cases id with
    | zero =>
      obtain rfl : "yes" = name := Option.some.inj hname
      rfl
    | succ id =>
      have hnone : yesCtx.interner.resolve ⟨id + 1⟩ = none := rfl
      rw [hnone] at hname
      cases hname
  have hreads : yesClass.Reads yesCtx.interner (.toggle "a" (.functionCall "yes" [])) :=
    ⟨rfl, ⟨0⟩, 0, 0, rfl, rfl, rfl⟩
  have happlies := (h yesLayout 1 _ _ yesCtx ∅ yesClass [] (.new 20000) hsame yesClass_read hreads).applies
  exact absurd happlies (by decide)

end Mizu
