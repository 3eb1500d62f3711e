import Mizu.Types.Eval.Budget
import Mizu.Types.Eval.Sites

/-!
# Counting the entries

`notedWithin` is the evaluator's recursion with a line in the undo log for each entry into
`evaluate_impl`; an evaluation neither reads nor writes that log (`noted_agree`).

* `entries_paid`: each entry uses up one of the instructions left.
* `entries_depth`: each entry is within the depth limit.
* `evaluate_counts`: an evaluation counts at least its own call.
-/

namespace Mizu

open Exec

/-- A line that says how deep the recursion is. -/
def noteEntry (s : Evaluator) : Evaluator :=
  { s with undoLog := s.undoLog ++ [(⟨s.evalDepth⟩, .null)] }

/-- `evaluateWithin` with a note of each entry into `evaluate_impl`. -/
def notedWithin (ctx : EvalCtx) : Nat → Recur
  | 0, _, _, _ => do
    enter
    modify noteEntry
    onExit (throw tooDeep) leave
  | levels + 1, fp, arena, e => do
    enter
    modify noteEntry
    onExit (evaluateImpl ctx (notedWithin ctx levels) fp arena e) leave

/-- The run of `evaluate` with its notes. -/
def Site.notedRun (ctx : EvalCtx) (site : Site) : EStateM.Result MizuError Evaluator Value :=
  notedWithin ctx maxEvalDepth site.framePointer site.arena site.expr { site.state with undoLog := [] }

/-- The entries into `evaluate_impl` that a call of `evaluate` makes: how deep each one is. -/
def Site.entries (ctx : EvalCtx) (site : Site) : List Nat :=
  (finalState (site.notedRun ctx)).undoLog.map (·.1.id)

section Noted

variable (ctx : EvalCtx)

/-- The same state with another log. -/
def SameButLog (s t : Evaluator) : Prop := s = { t with undoLog := s.undoLog }

theorem sameButLog_runRel : RunRel SameButLog where
  locals h := by rw [h]
  count h := by rw [h]
  max h := by rw [h]
  computed h := by rw [h]
  setLocals h l := by rw [h]; rfl
  setCount h n := by rw [h]; rfl
  act h a := by rw [h]; rfl
  depth h := by rw [h]
  setDepth h d := by rw [h]; rfl

theorem sameButLog_sameGlobal (sym : Symbol) : SameGlobal SameButLog sym := by
  intro s t h
  rw [h]
  rfl

theorem sameButLog_binds (l : Locals) (fp : Nat) (B : Finset Symbol) : Binds SameButLog l fp B :=
  ⟨.inr sameButLog_sameGlobal, fun sym _ => .inr (sameButLog_sameGlobal sym)⟩

theorem notedLevel_agree {l : Locals} {x y : EvalM Value} (h : AgreeAt SameButLog l x y) :
    AgreeAt SameButLog l (do enter; modify noteEntry; onExit x leave) (do enter; onExit y leave) := by
  refine .bind (enter_agree sameButLog_runRel l) fun _ => ?_
  have hlevel : AgreeAt SameButLog l (onExit x leave) (onExit y leave) :=
    .onExit h (fun _ _ hst => ⟨leave_related sameButLog_runRel hst.1, hst.2⟩)
      fun _ _ hst => leave_related sameButLog_runRel hst
  rintro s t ⟨hst, hl⟩
  refine hlevel (noteEntry s) t ⟨?_, hl⟩
  unfold SameButLog noteEntry at *
  rw [hst]

theorem noted_agree (levels fp : Nat) (l : Locals) (arena : ExprArena) (e : Expr) :
    AgreeAt SameButLog l (notedWithin ctx levels fp arena e) (evaluateWithin ctx levels fp arena e) := by
  induction levels generalizing fp l arena e with
  | zero => exact notedLevel_agree (agreeAt_throw _)
  | succ levels ih =>
    refine notedLevel_agree ?_
    exact evaluateImpl_agree sameButLog_runRel.toLevelRel (EvalScope.all ctx)
      (fun _ => .inr (sameButLog_sameGlobal _)) (fun fp' l' _ a' e' _ _ => ih fp' l' a' e')
      (sameButLog_binds l fp ∅) trivial

end Noted

/-! ## What one level keeps -/

/-- A relation kept by everything a level does besides its recursive calls. -/
structure MeteredRel (R : Evaluator → Evaluator → Prop) : Prop where
  composes : Composes R R
  locals : ∀ s l, R s { s with locals := l }
  act : ∀ s a, R s (s.act a)
  charge : ∀ s n, Rises s.instructionCount n → R s { s with instructionCount := n }

section Level

variable {R : Evaluator → Evaluator → Prop} (hR : MeteredRel R) {α : Type}

include hR

theorem MeteredRel.native {x : Nat → EStateM MizuError Nat α} (hx : ∀ max, Metered (x max)) :
    Guarantees R R (native x) := by
  intro s
  have hrises := (hx s.maxInstructions).rises s.instructionCount
  unfold wp at hrises ⊢
  unfold Mizu.native
  cases h : x s.maxInstructions s.instructionCount with
  | ok a n =>
    rw [h] at hrises
    exact hR.charge s n hrises
  | error e n =>
    rw [h] at hrises
    exact hR.charge s n hrises

theorem MeteredRel.acts (a : RuntimeAction) : Guarantees R R (modify (·.act a) : EvalM PUnit) :=
  .modify fun s => hR.act s a

theorem MeteredRel.onExit {x : EvalM α} (hx : Guarantees R R x) {g : Evaluator → Evaluator}
    (hg : ∀ s, ∃ l, g s = { s with locals := l }) : Guarantees R R (Exec.onExit x g) := by
  intro s
  rw [wp_onExit]
  have hexit : ∀ t, R s t → R s (g t) := by
    intro t ht
    obtain ⟨l, hl⟩ := hg t
    rw [hl]
    exact hR.composes.trans ht (hR.locals t l)
  exact (hx s).mono (fun _ => hexit) fun _ => hexit

variable (ctx : EvalCtx)

theorem MeteredRel.readVariable (fp : Nat) (sym : Symbol) : Guarantees R R (readVariable ctx fp sym) := by
  refine .bind hR.composes (.get hR.composes) fun s => ?_
  split
  · exact .pure hR.composes _
  · split
    · exact .throw hR.composes _
    · exact .pure hR.composes _

theorem MeteredRel.evalArgs {ev : Expr → EvalM Value} (hev : ∀ e, Guarantees R R (ev e)) (es : List Expr) :
    Guarantees R R (evalArgs ev es) := by
  induction es with
  | nil => exact .pure hR.composes _
  | cons e es ih =>
    exact .bind hR.composes (hev e) fun _ => .bind hR.composes ih fun _ => .pure hR.composes _

theorem MeteredRel.bindParams (params : List (Symbol × ValueType)) (vs : List Value) :
    Guarantees R R (bindParams params vs) := by
  induction params generalizing vs with
  | nil => exact .pure hR.composes _
  | cons p params ih =>
    cases vs with
    | nil => exact .pure hR.composes _
    | cons v vs =>
      unfold Mizu.bindParams
      split
      · exact .bind hR.composes (.modify fun s => hR.locals s _) fun _ => ih vs
      · exact .throw hR.composes _

variable {ev : Recur} (hev : ∀ fp arena e, Guarantees R R (ev fp arena e)) (fp : Nat) (arena : ExprArena)

include hev

theorem MeteredRel.callFunction (name : Symbol) (args : List Expr) :
    Guarantees R R (callFunction ctx ev fp arena name args) := by
  unfold Mizu.callFunction
  split
  · exact .throw hR.composes _
  · split
    · exact .throw hR.composes _
    · refine .bind hR.composes (hR.evalArgs (hev fp arena) args) fun vs => ?_
      refine .bind hR.composes (.get hR.composes) fun s => ?_
      refine .bind hR.composes (hR.bindParams _ vs) fun _ => ?_
      exact hR.onExit (hev _ _ _) fun s => ⟨_, rfl⟩

theorem MeteredRel.evaluateCall (name : Symbol) (args : List Expr) :
    Guarantees R R (evaluateCall ctx ev fp arena name args) := by
  unfold Mizu.evaluateCall
  split
  · unfold copyToClipboard
    split
    · refine .bind hR.composes (hev fp arena _) fun v => ?_
      split
      · exact .bind hR.composes (hR.acts _) fun _ => .pure hR.composes _
      · exact .throw hR.composes _
    · exact .throw hR.composes _
  · unfold getSystemTime
    split
    · refine .bind hR.composes (.get hR.composes) fun s => ?_
      split
      · exact .throw hR.composes _
      · exact .bind hR.composes (hR.acts _) fun _ => .pure hR.composes _
    · exact .throw hR.composes _
  · unfold storeLocal
    split
    · refine .bind hR.composes (hev fp arena _) fun v => ?_
      split
      · refine .bind hR.composes (hev fp arena _) fun _ => ?_
        exact .bind hR.composes (hR.acts _) fun _ => .pure hR.composes _
      · exact .throw hR.composes _
    · exact .throw hR.composes _
  · unfold download
    split
    · exact .bind hR.composes (hR.acts _) fun _ => .pure hR.composes _
    · exact .throw hR.composes _
  · rename_i f _
    refine .bind hR.composes (hR.evalArgs (hev fp arena) args) fun vs => ?_
    exact hR.native fun max => f.apply_metered ctx.arcEq max vs
  · exact hR.callFunction ctx hev fp arena name args

theorem MeteredRel.evaluateImpl (e : Expr) : Guarantees R R (evaluateImpl ctx ev fp arena e) := by
  cases e with
  | literal v => exact .pure hR.composes _
  | var sym => exact hR.readVariable ctx fp sym
  | binaryOp l op r =>
    refine .bind hR.composes (hev fp arena _) fun lv => .bind hR.composes (hev fp arena _) fun rv => ?_
    exact hR.native fun max => applyBinop_metered max op lv rv
  | functionCall f st len => exact hR.evaluateCall ctx hev fp arena f _
  | letIn x v b =>
    refine .bind hR.composes (hev fp arena _) fun _ => ?_
    refine .bind hR.composes (.modify fun s => hR.locals s _) fun _ => ?_
    exact hR.onExit (hev fp arena _) fun s => ⟨_, rfl⟩
  | not e => exact .bind hR.composes (hev fp arena _) fun v => hR.native fun _ => notValue_metered v
  | ifElse c t e =>
    refine .bind hR.composes (hev fp arena _) fun v => ?_
    split
    · exact hev fp arena _
    · exact hev fp arena _
    · exact .throw hR.composes _
  | fieldAccess b f h =>
    exact .bind hR.composes (hev fp arena _) fun v => hR.native fun _ => accessField_metered ctx f h v

end Level

/-! ## Each entry is paid for -/

/-- The notes and the instructions left together do not grow, and no new note is too deep. -/
structure Paid (s t : Evaluator) : Prop where
  max : t.maxInstructions = s.maxInstructions
  left : s.maxInstructions ≤ u64Max →
    t.undoLog.length + (s.maxInstructions - t.instructionCount) ≤
      s.undoLog.length + (s.maxInstructions - s.instructionCount)
  shallow : (∀ line ∈ s.undoLog, line.1.id ≤ maxEvalDepth) → ∀ line ∈ t.undoLog, line.1.id ≤ maxEvalDepth

theorem Paid.refl (s : Evaluator) : Paid s s := ⟨rfl, fun _ => Nat.le_refl _, id⟩

theorem Paid.trans {s t u : Evaluator} (h : Paid s t) (h' : Paid t u) : Paid s u where
  max := h'.max.trans h.max
  left hmax := by
    have hfirst := h.left hmax
    have hrest := h'.left (h.max ▸ hmax)
    rw [h.max] at hrest
    exact Nat.le_trans hrest hfirst
  shallow hs := h'.shallow (h.shallow hs)

theorem paid_metered : MeteredRel Paid where
  composes := ⟨Paid.refl, Paid.refl, Paid.trans, Paid.trans⟩
  locals s _ := ⟨rfl, fun _ => Nat.le_refl _, id⟩
  act s _ := ⟨rfl, fun _ => Nat.le_refl _, id⟩
  charge s n hn := by
    refine ⟨rfl, fun hmax => ?_, id⟩
    unfold Rises at hn
    dsimp only
    omega

/-- Counting a call and going one level deeper. -/
theorem notedLevel_paid {x : EvalM Value} (hx : Guarantees Paid Paid x) :
    Guarantees Paid Paid (do enter; modify noteEntry; onExit x leave) := by
  intro s
  rw [wp_bind]
  unfold wp enter
  dsimp only
  by_cases hcount : s.instructionCount + 1 > s.maxInstructions
  · rw [if_pos hcount]
    exact ⟨rfl, fun _ => by dsimp only; omega, id⟩
  rw [if_neg hcount]
  by_cases hdepth : s.evalDepth + 1 > maxEvalDepth
  · rw [if_pos hdepth]
    exact ⟨rfl, fun _ => by dsimp only; omega, id⟩
  rw [if_neg hdepth]
  have hnote : Paid s (noteEntry
      { s with instructionCount := s.instructionCount + 1, evalDepth := s.evalDepth + 1 }) := by
    refine ⟨rfl, fun _ => ?_, fun hs line hline => ?_⟩
    · -- The entry is paid for by the instruction just counted.
      simp only [noteEntry, List.length_append, List.length_singleton]
      omega
    · rcases List.mem_append.mp hline with hold | hnew
      · exact hs line hold
      · rw [List.mem_singleton.mp hnew]
        dsimp only
        omega
  have hleave : ∀ t, Paid (noteEntry
      { s with instructionCount := s.instructionCount + 1, evalDepth := s.evalDepth + 1 }) t →
      Paid s (leave t) :=
    fun t ht => (hnote.trans ht).trans ⟨rfl, fun _ => Nat.le_refl _, id⟩
  show wp (do modify noteEntry; Exec.onExit x leave) _ _ _
  rw [wp_bind, wp_modify, wp_onExit]
  exact (hx _).mono (fun _ => hleave) fun _ => hleave

theorem noted_paid (ctx : EvalCtx) (levels fp : Nat) (arena : ExprArena) (e : Expr) :
    Guarantees Paid Paid (notedWithin ctx levels fp arena e) := by
  induction levels generalizing fp arena e with
  | zero => exact notedLevel_paid (.throw paid_metered.composes _)
  | succ levels ih => exact notedLevel_paid (paid_metered.evaluateImpl ctx ih fp arena e)

/-! ## The calls of `evaluate` -/

/-- The instruction count has not gone down. -/
def Counts (s t : Evaluator) : Prop := Rises s.instructionCount t.instructionCount

theorem counts_metered : MeteredRel Counts where
  composes := by constructor <;> intros <;> unfold Counts Rises at * <;> omega
  locals s _ := rises_composes.refl s.instructionCount
  act s _ := rises_composes.refl s.instructionCount
  charge _ _ h := h

/-- A call counts at least itself. -/
theorem level_counts {x : EvalM Value} (hx : Guarantees Counts Counts x) (s : Evaluator) :
    wp (do enter; onExit x leave) (fun _ t => Rises (s.instructionCount + 1) t.instructionCount)
      (fun _ t => Rises (s.instructionCount + 1) t.instructionCount) s := by
  rw [wp_bind]
  unfold wp
  rcases enter_cases s with ⟨e, he⟩ | ⟨-, he⟩
  · rw [he]
    exact rises_composes.refl _
  · rw [he]
    show wp (onExit x leave) _ _ _
    rw [wp_onExit]
    exact hx _

theorem Counts.of_call {s t : Evaluator} (h : Rises (s.instructionCount + 1) t.instructionCount) :
    Counts s t := by
  unfold Counts Rises at *
  omega

/-- An evaluation counts at least its own call. -/
theorem evaluate_counts (ctx : EvalCtx) (fp : Nat) (arena : ExprArena) (e : Expr) (s : Evaluator) :
    Rises (s.instructionCount + 1) (finalState (evaluate ctx fp arena e s)).instructionCount := by
  have hwithin : ∀ levels fp arena e, Guarantees Counts Counts (evaluateWithin ctx levels fp arena e) := by
    intro levels
    induction levels with
    | zero =>
      exact fun _ _ _ s => (level_counts (.throw counts_metered.composes _) s).mono (fun _ _ => .of_call)
        fun _ _ => .of_call
    | succ levels ih =>
      exact fun fp arena e s => (level_counts (counts_metered.evaluateImpl ctx ih fp arena e) s).mono
        (fun _ _ => .of_call) fun _ _ => .of_call
  have hev : ∀ fp arena e, Guarantees Counts Counts (evaluate ctx fp arena e) := hwithin maxEvalDepth
  have hcall := finalState_of_wp (level_counts (counts_metered.evaluateImpl ctx hev fp arena e) s)
  rwa [← evaluate_eq] at hcall

/-! ## The entries of a call -/

section Entries

variable (ctx : EvalCtx) (site : Site)

/-- The run with notes counts what the run counts. -/
theorem notedRun_count : (finalState (site.notedRun ctx)).instructionCount =
    (finalState (site.run ctx)).instructionCount := by
  have hagree := noted_agree ctx maxEvalDepth site.framePointer site.state.locals site.arena site.expr
    { site.state with undoLog := [] } site.state ⟨rfl, rfl⟩
  unfold Site.notedRun Site.run evaluate
  revert hagree
  cases notedWithin ctx maxEvalDepth site.framePointer site.arena site.expr { site.state with undoLog := [] } <;>
    cases evaluateWithin ctx maxEvalDepth site.framePointer site.arena site.expr site.state
  · exact fun h => sameButLog_runRel.count h.2.1
  · exact False.elim
  · exact False.elim
  · exact fun h => sameButLog_runRel.count h.2

theorem notedRun_paid : Paid { site.state with undoLog := [] } (finalState (site.notedRun ctx)) :=
  finalState_of_wp (noted_paid ctx maxEvalDepth site.framePointer site.arena site.expr _)

/-- The entries and the instructions left after the call are no more than the instructions left before it. -/
theorem entries_paid (hmax : site.state.maxInstructions ≤ u64Max) :
    (site.entries ctx).length +
        (site.state.maxInstructions - (finalState (site.run ctx)).instructionCount) ≤
      site.state.maxInstructions - site.state.instructionCount := by
  have hleft := (notedRun_paid ctx site).left hmax
  rw [notedRun_count] at hleft
  unfold Site.entries
  rw [List.length_map]
  simpa using hleft

/-- No entry is deeper than the limit. -/
theorem entries_depth : ∀ d ∈ site.entries ctx, d ≤ maxEvalDepth := by
  intro d hd
  obtain ⟨line, hline, rfl⟩ := List.mem_map.mp hd
  exact (notedRun_paid ctx site).shallow (fun _ h => nomatch h) line hline

end Entries

end Mizu
