import Mizu.Types.Eval.Frame

/-!
# What is left of the budget

`evaluate_budget`: an evaluation that has used fewer instructions so far ends in the same way, unless the
other one runs out of them.
-/

namespace Mizu

open Exec

/-! ## Native computations -/

/-- Started on a lower count, the computation ends in the same way, unless it times out. -/
def Spares {α : Type} (x : EStateM MizuError Nat α) : Prop :=
  ∀ n m, n ≤ m → EndsLike (· = .timeout) (· ≤ ·) x n x m

variable (max : Nat)

namespace Spares

variable {α β : Type} {x : EStateM MizuError Nat α}

theorem pure (a : α) : Spares (Pure.pure a) := fun _ _ h => .pure h a

theorem throw (e : MizuError) : Spares (MonadExcept.throw e : EStateM MizuError Nat α) :=
  fun _ _ h => .throw h e

theorem bind {f : α → EStateM MizuError Nat β} (hx : Spares x) (hf : ∀ a, Spares (f a)) :
    Spares (x >>= f) :=
  fun n m h => (hx n m h).bind fun a _ _ h' => hf a _ _ h'

theorem add (cost : Nat) : Spares (modify (saturatingAdd · cost)) := by
  refine fun n m h => .modify ?_
  unfold saturatingAdd
  omega

theorem check : Spares (do if (← get) > max then MonadExcept.throw .timeout) := by
  refine fun n m h => .read ?_
  by_cases hm : m > max
  · rw [if_pos hm]
    exact .gaveUp rfl
  · rw [if_neg hm, if_neg (by omega)]
    exact .pure h _

end Spares

/-- The count has not gone down; a sum saturates at the largest `u64`. -/
def Rises (n m : Nat) : Prop := min n u64Max ≤ m

theorem rises_composes : Composes Rises Rises := by
  constructor <;> intros <;> unfold Rises at * <;> omega

/-- What runs natively: it does not lower the count, and started on a lower count it ends in the same way,
unless it times out. -/
structure Metered {α : Type} (x : EStateM MizuError Nat α) : Prop where
  rises : Guarantees Rises Rises x
  spares : Spares x


namespace Metered

variable {α β : Type} {x : EStateM MizuError Nat α}

theorem pure (a : α) : Metered (Pure.pure a) := ⟨.pure rises_composes a, .pure a⟩

theorem throw (e : MizuError) : Metered (MonadExcept.throw e : EStateM MizuError Nat α) :=
  ⟨.throw rises_composes e, .throw e⟩

theorem bind {f : α → EStateM MizuError Nat β} (hx : Metered x) (hf : ∀ a, Metered (f a)) :
    Metered (x >>= f) :=
  ⟨.bind rises_composes hx.rises fun a => (hf a).rises, .bind hx.spares fun a => (hf a).spares⟩

theorem ite {p : Prop} [Decidable p] {y : EStateM MizuError Nat α} (hx : Metered x) (hy : Metered y) :
    Metered (if p then x else y) := by
  split
  · exact hx
  · exact hy

theorem add (cost : Nat) : Metered (modify (saturatingAdd · cost)) := by
  refine ⟨.modify fun n => ?_, .add cost⟩
  unfold Rises saturatingAdd
  omega

theorem check : Metered (do if (← get) > max then MonadExcept.throw .timeout) := by
  refine ⟨.bind rises_composes (.get rises_composes) fun n => ?_, .check max⟩
  split
  · exact .throw rises_composes _
  · exact .pure rises_composes _

end Metered

theorem chargeBudget_metered (cost max : Nat) : Metered (Value.chargeBudget cost max) :=
  (Metered.add cost).bind fun _ => Metered.check max

section Binop

theorem checked_metered (wrap : Int64 → Value) (n : Int) : Metered (checked wrap n) := by
  unfold checked
  split
  · exact .pure _
  · exact .throw _

variable (op : BinOp)

theorem intBinop_metered (l r : Int64) : Metered (intBinop op l r) := by
  cases op with
  | add | sub | mul => exact checked_metered _ _
  | div => exact .ite (.throw _) (checked_metered _ _)
  | and => exact .throw _
  | or => exact .throw _
  | _ => exact .pure _

theorem decimalBinop_metered (l r : Int64) : Metered (decimalBinop op l r) := by
  cases op with
  | add | sub | mul => exact checked_metered _ _
  | div => exact .ite (.throw _) (checked_metered _ _)
  | and => exact .throw _
  | or => exact .throw _
  | _ => exact .pure _

theorem promote_metered (i : Int64) : Metered (promote i) := by
  unfold promote
  split
  · exact .pure _
  · exact .throw _

theorem stringBinop_metered (op : BinOp) (l r : String) : Metered (stringBinop max op l r) := by
  cases op with
  | add => exact (chargeBudget_metered _ max).bind fun _ => .pure _
  | sub | mul | div | and | or => exact .throw _
  | _ => exact .pure _

theorem boolBinop_metered (l r : Bool) : Metered (boolBinop op l r) := by
  unfold boolBinop
  split
  · exact .pure _
  · exact .pure _
  · exact .pure _
  · exact .pure _
  · exact .throw _

theorem nullBinop_metered (l : Value) (same : Bool) : Metered (nullBinop op l same) := by
  unfold nullBinop
  split
  · exact .pure _
  · exact .pure _
  · exact .throw _

theorem applyBinop_metered (op : BinOp) (lv rv : Value) : Metered (applyBinop max op lv rv) := by
  unfold applyBinop
  split
  · exact intBinop_metered op _ _
  · exact decimalBinop_metered op _ _
  · exact .ite (.pure _) ((promote_metered _).bind fun _ => decimalBinop_metered op _ _)
  · exact .ite (.pure _) ((promote_metered _).bind fun _ => decimalBinop_metered op _ _)
  · exact stringBinop_metered max op _ _
  · exact boolBinop_metered op _ _
  · exact nullBinop_metered op _ _
  · exact nullBinop_metered op _ _
  · exact nullBinop_metered op _ _
  · exact .throw _

end Binop

variable (arc : ArcEq)

section Equality

theorem budgetEqPair_metered (max : Nat) (a b : Value) : Metered (Value.budgetEqPair arc max a b) := by
  unfold Value.budgetEqPair
  split
  · exact .pure _
  · exact .pure _
  · exact .pure _
  · exact .pure _
  · exact .pure _
  · exact .pure _
  · exact .ite (.pure _) ((chargeBudget_metered _ max).bind fun _ => .pure _)
  · exact .pure _
  · exact .ite (.pure _) (.ite (.pure _) ((chargeBudget_metered _ max).bind fun _ => .pure _))
  · refine .ite (.pure _) (.ite (.pure _) ((chargeBudget_metered _ max).bind fun _ => ?_))
    exact .ite (.pure _) (.pure _)
  · exact .pure _

theorem budgetEqLoop_metered (max fuel : Nat) (stack : List (Value × Value)) :
    Metered (Value.budgetEqLoop arc max fuel stack) := by
  induction fuel generalizing stack with
  | zero => cases stack <;> exact .pure _
  | succ fuel ih =>
    cases stack with
    | nil => exact .pure _
    | cons pair stack =>
      refine (chargeBudget_metered 1 max).bind fun _ => (budgetEqPair_metered arc max _ _).bind fun pairs => ?_
      cases pairs with
      | none => exact .pure _
      | some pairs => exact ih _

theorem budgetEq_metered (a b : Value) (max : Nat) : Metered (a.budgetEq arc b max) :=
  budgetEqLoop_metered arc max _ _

end Equality

variable (v : Value)

namespace PureBuiltin

theorem expectList_metered : Metered (expectList v) := by
  cases v with
  | list items => exact .pure _
  | _ => exact .throw _

theorem expectString_metered : Metered (expectString v) := by
  cases v with
  | string s => exact .pure _
  | _ => exact .throw _

theorem checkCount_metered : Metered (checkCount max) := Metered.check max

theorem filterOp_metered (op : String) : Metered (filterOp op) := by
  unfold filterOp
  split
  · exact .pure _
  · exact .pure _
  · exact .pure _
  · exact .pure _
  · exact .pure _
  · exact .pure _
  · exact .pure _
  · exact .throw _

/-- A comparison that fails otherwise drops the item. -/
theorem filterKeeps_metered (binop : Option BinOp) (fieldV target : Value) :
    Metered (filterKeeps max binop fieldV target) := by
  cases binop with
  | none =>
    unfold filterKeeps
    dsimp only
    split
    · exact .pure _
    · exact .pure _
  | some op =>
    refine ⟨fun n => ?_, fun n m h => ?_⟩
    · have hop := (applyBinop_metered max op fieldV target).rises n
      unfold wp at hop ⊢
      unfold filterKeeps
      dsimp only
      cases hn : applyBinop max op fieldV target n with
      | ok v n' =>
        rw [hn] at hop
        cases v <;> exact hop
      | error e n' =>
        rw [hn] at hop
        cases e <;> exact hop
    · have hop := (applyBinop_metered max op fieldV target).spares n m h
      unfold EndsLike at hop ⊢
      unfold filterKeeps
      dsimp only
      cases hm : applyBinop max op fieldV target m with
      | ok v m' => grind
      | error e m' => grind

theorem filterItems_metered (field : String) (binop : Option BinOp) (target : Value)
    (items : List Value) : Metered (filterItems max field binop target items) := by
  induction items with
  | nil => exact .pure _
  | cons item items ih =>
    unfold filterItems
    split
    · refine (filterKeeps_metered max binop _ target).bind fun keep => ?_
      exact .ite (ih.bind fun _ => .pure _) ih
    · exact ih

theorem applyFilter_metered (listVal fieldVal opVal target : Value) :
    Metered (applyFilter max listVal fieldVal opVal target) := by
  refine (expectList_metered listVal).bind fun items => (expectString_metered fieldVal).bind fun field =>
    (expectString_metered opVal).bind fun op => (Metered.add _).bind fun _ => ?_
  -- What follows the charge for a substring test.
  refine .ite ((Metered.add _).bind fun _ => ?_) ?_
  all_goals
    refine (checkCount_metered max).bind fun _ => (filterOp_metered op).bind fun binop =>
      ⟨fun n => ?_, fun n m h => ?_⟩
    · have hitems := (filterItems_metered max field binop target items).rises n
      unfold wp at hitems
      dsimp only [wp]
      cases hn : filterItems max field binop target items n with
      | ok filtered n' =>
        rw [hn] at hitems
        exact hitems
      | error e n' => exact rises_composes.refl n
    · have hitems := (filterItems_metered max field binop target items).spares n m h
      unfold EndsLike at hitems ⊢
      cases hm : filterItems max field binop target items m with
      | ok | error => grind

theorem countItems_metered (max : Nat) (field : String) (target : Value) (items : List Value) :
    Metered (countItems arc max field target items) := by
  induction items with
  | nil => exact .pure _
  | cons item items ih =>
    unfold countItems
    split
    · exact (budgetEq_metered arc _ target max).bind fun _ => ih.bind fun _ => .pure _
    · exact ih

theorem applyCount_metered (max : Nat) (listVal fieldVal target : Value) :
    Metered (applyCount arc max listVal fieldVal target) :=
  (expectList_metered listVal).bind fun items => (Metered.add _).bind fun _ =>
    (checkCount_metered max).bind fun _ => (expectString_metered fieldVal).bind fun field =>
      (countItems_metered arc max field target items).bind fun _ => .pure _

theorem sortKey_metered (field : String) (item : Value) : Metered (sortKey field item) := by
  unfold sortKey
  split
  · exact .pure _
  · exact .throw _
  · exact .throw _
  · exact .throw _
  · exact .pure _

theorem sortPairs_metered (field : String) (items : List Value) : Metered (sortPairs field items) := by
  induction items with
  | nil => exact .pure _
  | cons item items ih => exact (sortKey_metered field item).bind fun _ => ih.bind fun _ => .pure _

theorem applySort_metered (listVal fieldVal directionVal : Value) :
    Metered (applySort max listVal fieldVal directionVal) := by
  refine (expectList_metered listVal).bind fun items => (Metered.add _).bind fun _ =>
    (checkCount_metered max).bind fun _ => (expectString_metered fieldVal).bind fun field =>
      (expectString_metered directionVal).bind fun direction => .ite (.throw _) ?_
  exact (sortPairs_metered field items).bind fun _ => .pure _

theorem applyLength_metered (v : Value) : Metered (applyLength max v) := by
  cases v with
  | list items => exact .pure _
  | string s =>
    have hrest : Metered (do
        addCount s.toList.length
        return .int (Int64.ofNat s.toList.length) : Meter Value) := (Metered.add _).bind fun _ => .pure _
    refine ⟨.bind rises_composes (.get rises_composes) fun n => ?_, fun n m h => .read ?_⟩
    · split
      · exact .throw rises_composes _
      · exact hrest.rises
    · have hle : saturatingAdd n s.utf8ByteSize ≤ saturatingAdd m s.utf8ByteSize := by
        unfold saturatingAdd
        omega
      dsimp only
      by_cases hm : saturatingAdd m s.utf8ByteSize > max
      · rw [if_pos hm]
        exact EndsLike.gaveUp rfl
      · rw [if_neg hm, if_neg (by omega)]
        exact hrest.spares n m h
  | _ => exact .throw _

theorem applyToString_metered : Metered (applyToString v) := by
  cases v with
  | int | decimal | bool => exact .pure _
  | _ => exact .throw _

theorem applyContains_metered (haystackVal needleVal : Value) :
    Metered (applyContains max haystackVal needleVal) :=
  (expectString_metered haystackVal).bind fun _ => (expectString_metered needleVal).bind fun _ =>
    (Metered.add _).bind fun _ => (checkCount_metered max).bind fun _ => .pure _

theorem applyHasField_metered (recordVal nameVal : Value) : Metered (applyHasField recordVal nameVal) := by
  cases recordVal with
  | record fields => exact (expectString_metered nameVal).bind fun _ => .pure _
  | _ => exact .throw _

theorem apply_metered (max : Nat) (f : PureBuiltin) (vs : List Value) : Metered (f.apply arc max vs) := by
  unfold apply
  split
  · exact applyFilter_metered max _ _ _ _
  · exact applyCount_metered arc max _ _ _
  · exact applySort_metered max _ _ _
  · exact applyLength_metered max _
  · exact applyToString_metered _
  · exact applyContains_metered max _ _
  · exact applyHasField_metered _ _
  · exact .throw _

end PureBuiltin

/-! ## Evaluations -/

/-- The same state with a lower count. -/
def Cheaper (s t : Evaluator) : Prop :=
  ∃ n, n ≤ t.instructionCount ∧ s = { t with instructionCount := n }

/-- Started with a lower count, the program ends in the same way, unless it times out. -/
def Frugal {α : Type} (x : EvalM α) : Prop :=
  ∀ s t, Cheaper s t → EndsLike (· = .timeout) Cheaper x s x t

namespace Frugal

variable {α β : Type} {x : EvalM α}

theorem pure (a : α) : Frugal (Pure.pure a) := fun _ _ h => .pure h a

theorem throw (e : MizuError) : Frugal (MonadExcept.throw e : EvalM α) := fun _ _ h => .throw h e

theorem bind {f : α → EvalM β} (hx : Frugal x) (hf : ∀ a, Frugal (f a)) : Frugal (x >>= f) :=
  fun s t h => (hx s t h).bind fun a _ _ h' => hf a _ _ h'

/-- A change of the state that neither depends on the count nor sets it. -/
theorem change {g : Evaluator → Evaluator}
    (hg : ∀ s n, g { s with instructionCount := n } = { g s with instructionCount := n })
    (hcount : ∀ s, (g s).instructionCount = s.instructionCount) : Frugal (modify g : EvalM PUnit) := by
  rintro _ t ⟨n, hn, rfl⟩
  exact .modify ⟨n, by rw [hcount]; exact hn, hg t n⟩

theorem onExit {g : Evaluator → Evaluator} (hx : Frugal x)
    (hg : ∀ s n, g { s with instructionCount := n } = { g s with instructionCount := n })
    (hcount : ∀ s, (g s).instructionCount = s.instructionCount) : Frugal (Exec.onExit x g) := by
  refine fun s t h => (hx s t h).onExit ?_
  rintro _ t' ⟨n, hn, rfl⟩
  exact ⟨n, by rw [hcount]; exact hn, hg t' n⟩

theorem native {x : Nat → EStateM MizuError Nat α} (hx : ∀ max, Spares (x max)) :
    Frugal (Mizu.native x) := by
  rintro _ t ⟨n, hn, rfl⟩
  have h := hx t.maxInstructions n t.instructionCount hn
  unfold EndsLike at h ⊢
  unfold Mizu.native
  cases ht : x t.maxInstructions t.instructionCount with
  | ok a m =>
    rw [ht] at h
    obtain ⟨n', hn', hle⟩ := h
    exact ⟨_, by simp only [hn'], n', hle, rfl⟩
  | error e m =>
    rw [ht] at h
    exact h.imp_right fun ⟨n', hn', hle⟩ => ⟨_, by simp only [hn'], n', hle, rfl⟩

theorem read {f : Evaluator → EvalM α} (hf : ∀ s n, f { s with instructionCount := n } = f s)
    (hx : ∀ s, Frugal (f s)) : Frugal (get >>= f) := by
  rintro _ t ⟨n, hn, rfl⟩
  refine .read ?_
  rw [hf t n]
  exact hx t _ t ⟨n, hn, rfl⟩

theorem ite {p : Prop} [Decidable p] {y : EvalM α} (hx : Frugal x) (hy : Frugal y) :
    Frugal (if p then x else y) := by
  split
  · exact hx
  · exact hy

end Frugal

section Evaluate

variable (ctx : EvalCtx)

theorem act_frugal (a : RuntimeAction) : Frugal (modify (·.act a) : EvalM PUnit) :=
  Frugal.change (fun _ _ => rfl) fun _ => rfl

theorem pushLocal_frugal (sym : Symbol) (v : Value) : Frugal (modify (·.pushLocal sym v) : EvalM PUnit) :=
  Frugal.change (fun _ _ => rfl) fun _ => rfl

theorem readVariable_frugal (fp : Nat) (sym : Symbol) : Frugal (readVariable ctx fp sym) := by
  refine Frugal.read (fun _ _ => rfl) fun s => ?_
  split
  · exact .pure _
  · exact .ite (.throw _) (.pure _)

theorem notValue_metered : Metered (notValue v) := by
  cases v with
  | bool b => exact .pure _
  | _ => exact .throw _

theorem accessField_metered (field : Symbol) (fieldHash : UInt32) (base : Value) :
    Metered (accessField ctx field fieldHash base) := by
  unfold accessField
  split
  · dsimp only
    split
    · exact .pure _
    · exact .throw _
  · exact .throw _

theorem evalArgs_frugal {ev : Expr → EvalM Value} (hev : ∀ e, Frugal (ev e)) (es : List Expr) :
    Frugal (evalArgs ev es) := by
  induction es with
  | nil => exact .pure _
  | cons e es ih => exact (hev e).bind fun _ => ih.bind fun _ => .pure _

theorem bindParams_frugal (params : List (Symbol × ValueType)) (vs : List Value) :
    Frugal (bindParams params vs) := by
  induction params generalizing vs with
  | nil => exact .pure _
  | cons p params ih =>
    cases vs with
    | nil => exact .pure _
    | cons v vs =>
      unfold bindParams
      split
      · exact (pushLocal_frugal _ _).bind fun _ => ih vs
      · exact .throw _

variable {ev : Recur} (hev : ∀ fp arena e, Frugal (ev fp arena e)) (fp : Nat) (arena : ExprArena)

include hev

theorem callFunction_frugal (name : Symbol) (args : List Expr) :
    Frugal (callFunction ctx ev fp arena name args) := by
  unfold callFunction
  split
  · exact .throw _
  · refine .ite (.throw _) ((evalArgs_frugal (hev fp arena) args).bind fun vs => ?_)
    refine Frugal.read (fun _ _ => rfl) fun s => (bindParams_frugal _ vs).bind fun _ => ?_
    exact (hev _ _ _).onExit (fun _ _ => rfl) fun _ => rfl

theorem evaluateCall_frugal (name : Symbol) (args : List Expr) :
    Frugal (evaluateCall ctx ev fp arena name args) := by
  unfold evaluateCall
  split
  · unfold copyToClipboard
    split
    · refine (hev fp arena _).bind fun v => ?_
      split
      · exact (act_frugal _).bind fun _ => .pure _
      · exact .throw _
    · exact .throw _
  · unfold getSystemTime
    split
    · refine Frugal.read (fun _ _ => rfl) fun s => .ite (.throw _) ?_
      exact (act_frugal _).bind fun _ => .pure _
    · exact .throw _
  · unfold storeLocal
    split
    · refine (hev fp arena _).bind fun v => ?_
      split
      · exact (hev fp arena _).bind fun _ => (act_frugal _).bind fun _ => .pure _
      · exact .throw _
    · exact .throw _
  · unfold download
    split
    · exact (act_frugal _).bind fun _ => .pure _
    · exact .throw _
  · rename_i f _
    exact (evalArgs_frugal (hev fp arena) args).bind fun vs =>
      Frugal.native fun max => (f.apply_metered ctx.arcEq max vs).spares
  · exact callFunction_frugal ctx hev fp arena name args

theorem evaluateImpl_frugal (e : Expr) : Frugal (evaluateImpl ctx ev fp arena e) := by
  cases e with
  | literal v => exact .pure _
  | var sym => exact readVariable_frugal ctx fp sym
  | binaryOp l op r =>
    exact (hev fp arena _).bind fun _ => (hev fp arena _).bind fun _ =>
      .native fun max => (applyBinop_metered max op _ _).spares
  | functionCall f st len => exact evaluateCall_frugal ctx hev fp arena f _
  | letIn x v b =>
    refine (hev fp arena _).bind fun _ => (pushLocal_frugal _ _).bind fun _ => ?_
    exact (hev fp arena _).onExit (fun _ _ => rfl) fun _ => rfl
  | not e => exact (hev fp arena _).bind fun v => .native fun _ => (notValue_metered v).spares
  | ifElse c t e =>
    refine (hev fp arena _).bind fun v => ?_
    split
    · exact hev fp arena _
    · exact hev fp arena _
    · exact .throw _
  | fieldAccess b f h => exact (hev fp arena _).bind fun v => .native fun _ => (accessField_metered ctx f h v).spares

omit hev in
theorem enter_frugal : Frugal enter := by
  rintro _ t ⟨n, hn, rfl⟩
  unfold EndsLike enter
  dsimp only
  by_cases hover : t.instructionCount + 1 > t.maxInstructions
  · rw [if_pos hover]
    exact .inl rfl
  · have hunder : ¬n + 1 > t.maxInstructions := by omega
    rw [if_neg hover, if_neg hunder]
    have hle : n + 1 ≤ t.instructionCount + 1 := by omega
    by_cases hdeep : t.evalDepth + 1 > maxEvalDepth
    · rw [if_pos hdeep, if_pos hdeep]
      exact .inr ⟨_, rfl, n + 1, hle, rfl⟩
    · rw [if_neg hdeep, if_neg hdeep]
      exact ⟨_, rfl, n + 1, hle, rfl⟩

omit hev in
/-- An evaluation that has used fewer instructions so far ends in the same way, unless the other one runs
out of them. -/
theorem evaluate_budget (e : Expr) : Frugal (evaluate ctx fp arena e) := by
  have hwithin : ∀ levels fp arena e, Frugal (evaluateWithin ctx levels fp arena e) := by
    intro levels
    induction levels with
    | zero => exact fun _ _ _ => enter_frugal.bind fun _ => (Frugal.throw _).onExit (fun _ _ => rfl) fun _ => rfl
    | succ levels ih =>
      intro fp arena e
      exact enter_frugal.bind fun _ =>
        (evaluateImpl_frugal ctx ih fp arena e).onExit (fun _ _ => rfl) fun _ => rfl
  exact hwithin maxEvalDepth fp arena e

end Evaluate

end Mizu
