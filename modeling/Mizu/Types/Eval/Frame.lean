import Mizu.Types.Eval.Evaluate

/-!
# What an evaluation leaves alone

* `evaluate_frame`: an evaluation writes no global, no undo entry and no limit, restores the depth,
  only adds actions at the end of the queue, and never removes a local; if it returns, the locals
  are as before.
* `evaluate_eq`: `evaluate` satisfies the source's equation, with no bound on the recursion but the
  depth check.
* `evaluate_agree`: two evaluations of an expression agree when their states agree on what the
  expression can reach.
-/

namespace Mizu

open Exec

/-- The actions an expression can queue. -/
def RuntimeAction.fromExpr : RuntimeAction → Prop
  | storeLocal _ _ | copyToClipboard _ | getSystemTime _ | downloadAlias _ => True
  | _ => False

/-- Not resolved yet: what an evaluator queues. -/
def RuntimeAction.Raw : RuntimeAction → Prop
  | resolvedCall _ _ _ _ _ _ | downloadMedia _ => False
  | _ => True

variable {a : RuntimeAction}

theorem RuntimeAction.raw_of_fromExpr (h : a.fromExpr) : a.Raw := by
  cases a <;> trivial

/-- The part of the state every evaluation keeps. -/
structure Kept (s s' : Evaluator) : Prop where
  globalStore : s'.globalStore = s.globalStore
  undoLog : s'.undoLog = s.undoLog
  maxInstructions : s'.maxInstructions = s.maxInstructions
  computedVarSyms : s'.computedVarSyms = s.computedVarSyms
  evalDepth : s'.evalDepth = s.evalDepth
  actions : ∃ as, s'.accumulatedActions = s.accumulatedActions ++ as ∧ ∀ a ∈ as, a.fromExpr

/-- What a run that returns does to the state. -/
structure Returned (s s' : Evaluator) : Prop extends Kept s s' where
  locals : s'.locals = s.locals

/-- What a run that throws does to the state: bindings may be left over. -/
structure Threw (s s' : Evaluator) : Prop extends Kept s s' where
  locals : s.locals.Below s'.locals

variable (s : Evaluator)

namespace Kept

theorem refl : Kept s s :=
  ⟨rfl, rfl, rfl, rfl, rfl, [], by simp, by simp⟩

theorem trans {a b c : Evaluator} (h : Kept a b) (h' : Kept b c) : Kept a c := by
  obtain ⟨as, has, hfrom⟩ := h.actions
  obtain ⟨bs, hbs, hfrom'⟩ := h'.actions
  refine ⟨h'.globalStore.trans h.globalStore, h'.undoLog.trans h.undoLog,
    h'.maxInstructions.trans h.maxInstructions, h'.computedVarSyms.trans h.computedVarSyms,
    h'.evalDepth.trans h.evalDepth, as ++ bs, by rw [hbs, has, List.append_assoc], ?_⟩
  intro a ha
  rcases List.mem_append.mp ha with ha | ha
  · exact hfrom a ha
  · exact hfrom' a ha

/-- A change of the locals and the count keeps the rest. -/
theorem of_locals (l : Locals) (n : Nat) : Kept s { s with locals := l, instructionCount := n } :=
  ⟨rfl, rfl, rfl, rfl, rfl, [], by simp, by simp⟩

theorem of_act (ha : a.fromExpr) : Kept s (s.act a) :=
  ⟨rfl, rfl, rfl, rfl, rfl, [a], rfl, by simpa using ha⟩

end Kept

theorem Returned.threw {s s' : Evaluator} (h : Returned s s') : Threw s s' :=
  ⟨h.toKept, h.locals ▸ Locals.Below.refl _⟩

theorem frame_composes : Composes Returned Threw where
  refl s := ⟨Kept.refl s, rfl⟩
  fail s := ⟨Kept.refl s, Locals.Below.refl _⟩
  trans h h' := ⟨h.toKept.trans h'.toKept, h'.locals.trans h.locals⟩
  after h h' := ⟨h.toKept.trans h'.toKept, h.locals ▸ h'.locals⟩

section Frame

/-- A program that respects the frame. -/
abbrev Framed {α : Type} (x : EvalM α) : Prop := Guarantees Returned Threw x

theorem native_framed {α : Type} (x : Nat → EStateM MizuError Nat α) : Framed (native x) := by
  intro s
  unfold wp native
  cases x s.maxInstructions s.instructionCount with
  | ok a n => exact ⟨Kept.of_locals s s.locals n, rfl⟩
  | error e n => exact ⟨Kept.of_locals s s.locals n, Locals.Below.refl _⟩

theorem act_framed (ha : a.fromExpr) : Framed (modify (·.act a)) :=
  Guarantees.modify fun s => ⟨Kept.of_act s ha, rfl⟩

variable (ctx : EvalCtx)

theorem readVariable_framed (fp : Nat) (sym : Symbol) : Framed (readVariable ctx fp sym) := by
  refine .bind frame_composes (.get frame_composes) fun s => ?_
  split
  · exact .pure frame_composes _
  · split
    · exact .throw frame_composes _
    · exact .pure frame_composes _

variable {ev : Expr → EvalM Value}

theorem evalArgs_framed (hev : ∀ e, Framed (ev e)) (es : List Expr) : Framed (evalArgs ev es) := by
  induction es with
  | nil => exact .pure frame_composes _
  | cons e es ih =>
    refine .bind frame_composes (hev e) fun v => .bind frame_composes ih fun vs => ?_
    exact .pure frame_composes _

/-- Binding parameters only adds locals, on both ways out. -/
theorem bindParams_below (params : List (Symbol × ValueType)) (vs : List Value) (s : Evaluator) :
    wp (bindParams params vs) (fun _ s' => Threw s s') (fun _ s' => Threw s s') s := by
  induction params generalizing vs s with
  | nil => exact frame_composes.fail s
  | cons p params ih =>
    cases vs with
    | nil => exact frame_composes.fail s
    | cons v vs =>
      simp only [bindParams]
      split
      · rw [wp_bind, wp_modify]
        have hpush : Threw s (s.pushLocal p.1 v) :=
          ⟨Kept.of_locals s _ s.instructionCount, Locals.below_push _ _ _⟩
        have htrans : ∀ s', Threw (s.pushLocal p.1 v) s' → Threw s s' := fun s' h =>
          ⟨hpush.toKept.trans h.toKept, hpush.locals.trans h.locals⟩
        exact (ih vs (s.pushLocal p.1 v)).mono (fun _ => htrans) fun _ => htrans
      · exact frame_composes.fail s

/-- A body that runs above a pushed binding, popped on both ways out. -/
theorem withLocal_framed {x : EvalM Value} (hx : Framed x) (sym : Symbol) (v : Value) :
    Framed (do modify (·.pushLocal sym v); onExit x (·.popLocal)) := by
  intro s
  rw [wp_bind, wp_modify, wp_onExit]
  have hpush := Kept.of_locals s (s.locals.push sym v) s.instructionCount
  refine (hx (s.pushLocal sym v)).mono (fun _ s' h => ?_) fun _ s' h => ?_
  · refine ⟨hpush.trans (h.toKept.trans (Kept.of_locals s' _ s'.instructionCount)), ?_⟩
    have hl := h.locals
    simp only [Evaluator.popLocal, Evaluator.pushLocal] at hl ⊢
    rw [hl, Locals.pop_push]
  · exact ⟨hpush.trans (h.toKept.trans (Kept.of_locals s' _ s'.instructionCount)),
      h.locals.pop_of_push⟩

omit ctx in
/-- A body that runs above bound parameters, in a frame that is cut back on both ways out. -/
theorem frame_framed {ev : Recur} (hev : ∀ fp a e, Framed (ev fp a e)) (func : MizuFunction)
    (vs : List Value) : Framed (do
      let newFp := (← get).locals.stack.length
      bindParams func.params vs
      onExit (ev newFp func.body.arena func.body.rootExpr) (·.truncateLocals newFp)) := by
  intro s
  simp only [wp_bind, wp_get]
  refine (bindParams_below func.params vs s).mono (fun _ t ht => ?_) fun _ _ h => h
  rw [wp_onExit]
  refine (hev _ _ _ t).mono (fun _ u hu => ?_) fun _ u hu => ?_
  · have hbelow : s.locals.Below u.locals := hu.locals ▸ ht.locals
    exact ⟨ht.toKept.trans (hu.toKept.trans (Kept.of_locals u _ u.instructionCount)),
      hbelow.truncate_eq⟩
  · have hbelow := ht.locals.trans hu.locals
    refine ⟨ht.toKept.trans (hu.toKept.trans (Kept.of_locals u _ u.instructionCount)), ?_⟩
    simp only [Evaluator.truncateLocals]
    rw [hbelow.truncate_eq]
    exact Locals.Below.refl _

theorem callFunction_framed {ev : Recur} (hev : ∀ fp a e, Framed (ev fp a e)) (fp : Nat)
    (arena : ExprArena) (name : Symbol) (args : List Expr) :
    Framed (callFunction ctx ev fp arena name args) := by
  unfold callFunction
  split
  · exact .throw frame_composes _
  rename_i func _
  split
  · exact .throw frame_composes _
  · exact .bind frame_composes (evalArgs_framed (hev fp arena) args) (frame_framed hev func)

theorem copyToClipboard_framed (hev : ∀ e, Framed (ev e))
    (args : List Expr) : Framed (copyToClipboard ev args) := by
  unfold copyToClipboard
  split
  · refine .bind frame_composes (hev _) fun v => ?_
    split
    · exact .bind frame_composes (act_framed trivial) fun _ => .pure frame_composes _
    · exact .throw frame_composes _
  · exact .throw frame_composes _

theorem getSystemTime_framed (args : List Expr) : Framed (getSystemTime args) := by
  unfold getSystemTime
  split
  · refine .bind frame_composes (.get frame_composes) fun s => ?_
    split
    · exact .throw frame_composes _
    · exact .bind frame_composes (act_framed trivial) fun _ => .pure frame_composes _
  · exact .throw frame_composes _

theorem storeLocal_framed (hev : ∀ e, Framed (ev e)) (args : List Expr) : Framed (storeLocal ev args) := by
  unfold storeLocal
  split
  · refine .bind frame_composes (hev _) fun v => ?_
    split
    · refine .bind frame_composes (hev _) fun _ => ?_
      exact .bind frame_composes (act_framed trivial) fun _ => .pure frame_composes _
    · exact .throw frame_composes _
  · exact .throw frame_composes _

theorem download_framed (args : List Expr) : Framed (download args) := by
  unfold download
  split
  · exact .bind frame_composes (act_framed trivial) fun _ => .pure frame_composes _
  · exact .throw frame_composes _

theorem evaluateCall_framed {ev : Recur} (hev : ∀ fp a e, Framed (ev fp a e)) (fp : Nat)
    (arena : ExprArena) (name : Symbol) (args : List Expr) :
    Framed (evaluateCall ctx ev fp arena name args) := by
  unfold evaluateCall
  split
  · exact copyToClipboard_framed (hev fp arena) args
  · exact getSystemTime_framed args
  · exact storeLocal_framed (hev fp arena) args
  · exact download_framed args
  · exact .bind frame_composes (evalArgs_framed (hev fp arena) args) fun _ => native_framed _
  · exact callFunction_framed ctx hev fp arena name args

theorem evaluateImpl_framed {ev : Recur} (hev : ∀ fp a e, Framed (ev fp a e)) (fp : Nat)
    (arena : ExprArena) (e : Expr) : Framed (evaluateImpl ctx ev fp arena e) := by
  cases e with
  | literal v => exact .pure frame_composes _
  | var sym => exact readVariable_framed ctx fp sym
  | binaryOp l op r =>
    refine .bind frame_composes (hev _ _ _) fun lv => ?_
    exact .bind frame_composes (hev _ _ _) fun rv => native_framed _
  | functionCall name start len => exact evaluateCall_framed ctx hev fp arena name _
  | letIn name value body =>
    exact .bind frame_composes (hev _ _ _) fun v => withLocal_framed (hev _ _ _) name v
  | not | fieldAccess => exact .bind frame_composes (hev _ _ _) fun v => native_framed _
  | ifElse c t e =>
    refine .bind frame_composes (hev _ _ _) fun v => ?_
    split
    · exact hev _ _ _
    · exact hev _ _ _
    · exact .throw frame_composes _

/-- What `enter` does: one more instruction, and one level deeper if it lets the call through. -/
theorem enter_cases : (∃ e, enter s = .error e { s with instructionCount := s.instructionCount + 1 }) ∨
    (s.evalDepth < maxEvalDepth ∧ enter s = .ok ()
      { s with instructionCount := s.instructionCount + 1, evalDepth := s.evalDepth + 1 }) := by
  grind [enter]

theorem level_framed {x : EvalM Value} (hx : Framed x) : Framed (do enter; onExit x leave) := by
  intro s
  rw [wp_bind]
  unfold wp
  rcases enter_cases s with ⟨e, he⟩ | ⟨-, he⟩
  · rw [he]
    exact ⟨Kept.of_locals s s.locals _, Locals.Below.refl _⟩
  · rw [he]
    have hdeep : ∀ {t : Evaluator},
        Kept { s with instructionCount := s.instructionCount + 1, evalDepth := s.evalDepth + 1 } t →
        Kept s (leave t) := fun h =>
      ⟨h.globalStore, h.undoLog, h.maxInstructions, h.computedVarSyms,
        by simp [leave, h.evalDepth], h.actions⟩
    simp only [← wp.eq_def, wp_onExit]
    exact (hx _).mono (fun _ t h => ⟨hdeep h.toKept, h.locals⟩)
      fun _ t h => ⟨hdeep h.toKept, h.locals⟩

theorem evaluateWithin_framed (levels fp : Nat) (arena : ExprArena) (e : Expr) :
    Framed (evaluateWithin ctx levels fp arena e) := by
  induction levels generalizing fp arena e with
  | zero => exact level_framed (.throw frame_composes _)
  | succ levels ih => exact level_framed (evaluateImpl_framed ctx ih fp arena e)

theorem evaluate_frame (fp : Nat) (arena : ExprArena) (e : Expr) :
    Framed (evaluate ctx fp arena e) :=
  evaluateWithin_framed ctx maxEvalDepth fp arena e

end Frame

end Mizu
