import Mizu.Types.Eval.Frame

/-!
# Two evaluations side by side

`evaluateImpl_agree` says which parts of two states an evaluation can tell apart: only the locals,
the count, the limit, the computed names, and the globals that the expressions in a scope read. A
scope is a set of expressions closed under evaluation (`EvalScope`), each with the names that are
bound where it is evaluated: a bound name is never read from the globals.

Its two uses here: the recursion needs no bound besides the depth check (`evaluate_eq`), and two
states that agree on what a scope reads give the same results (`evaluate_agree`).
-/

namespace Mizu

open Exec

/-- A set of expressions closed under evaluation, each with the names bound around it: what a member
evaluates next is a member. The argument of `get_system_time` is not evaluated. -/
structure EvalScope (ctx : EvalCtx) (G : Finset Symbol → ExprArena → Expr → Prop) : Prop where
  binaryOp : ∀ {B a l op r}, G B a (.binaryOp l op r) → G B a (a.get l) ∧ G B a (a.get r)
  letIn : ∀ {B a x v b}, G B a (.letIn x v b) → G B a (a.get v) ∧ G (insert x B) a (a.get b)
  not : ∀ {B a e}, G B a (.not e) → G B a (a.get e)
  ifElse : ∀ {B a c t e}, G B a (.ifElse c t e) →
    G B a (a.get c) ∧ G B a (a.get t) ∧ G B a (a.get e)
  fieldAccess : ∀ {B a b f h}, G B a (.fieldAccess b f h) → G B a (a.get b)
  args : ∀ {B a f st len}, G B a (.functionCall f st len) → ctx.nameOf f ≠ "get_system_time" →
    ∀ e ∈ a.args st len, G B a e
  body : ∀ {B a f st len func}, G B a (.functionCall f st len) → ctx.nameOf f ≠ "get_system_time" →
    ctx.functions.lookup f = some func →
    G (func.params.map (·.1)).toFinset func.body.arena func.body.rootExpr

/-- The scope of all expressions. -/
theorem EvalScope.all (ctx : EvalCtx) : EvalScope ctx fun _ _ _ => True := by
  constructor <;> intros <;> simp

/-- A relation of states that what one level of evaluation does to both sides keeps. -/
structure LevelRel (L : Evaluator → Evaluator → Prop) : Prop where
  locals : ∀ {s t}, L s t → s.locals = t.locals
  count : ∀ {s t}, L s t → s.instructionCount = t.instructionCount
  max : ∀ {s t}, L s t → s.maxInstructions = t.maxInstructions
  computed : ∀ {s t}, L s t → s.computedVarSyms = t.computedVarSyms
  setLocals : ∀ {s t}, L s t → ∀ l, L { s with locals := l } { t with locals := l }
  setCount : ∀ {s t}, L s t → ∀ n, L { s with instructionCount := n } { t with instructionCount := n }
  act : ∀ {s t}, L s t → ∀ a, L (s.act a) (t.act a)

/-- Related states with these locals. -/
def AtLocals (L : Evaluator → Evaluator → Prop) (l : Locals) (s t : Evaluator) : Prop :=
  L s t ∧ s.locals = l

/-- Both programs give the locals back when they return. -/
abbrev AgreeAt (L : Evaluator → Evaluator → Prop) (l : Locals) {α : Type} (x y : EvalM α) : Prop :=
  Agree (AtLocals L l) (AtLocals L l) L x y

variable {L : Evaluator → Evaluator → Prop} {α : Type}

/-- Programs that agree at all locals agree. -/
theorem agree_of_agreeAt {x y : EvalM α} (h : ∀ l, AgreeAt L l x y) : Agree L L L x y := by
  intro s t hst
  have hagree := h s.locals s t ⟨hst, rfl⟩
  revert hagree
  cases x s <;> cases y t
  · exact fun ⟨heq, hrel⟩ => ⟨heq, hrel.1⟩
  · exact id
  · exact id
  · exact id

/-- The relation does not see the globals apart. -/
def SameGlobal (L : Evaluator → Evaluator → Prop) (sym : Symbol) : Prop :=
  ∀ s t, L s t → s.getGlobal sym = t.getGlobal sym

/-- The names are bound in the frame, or read alike. -/
structure Binds (L : Evaluator → Evaluator → Prop) (l : Locals) (fp : Nat) (B : Finset Symbol) :
    Prop where
  frame : fp ≤ l.stack.length ∨ ∀ sym, SameGlobal L sym
  bound : ∀ sym ∈ B, (l.get sym fp).isSome = true ∨ SameGlobal L sym

/-- `get_system_time` is dispatched under its name at every arity. -/
theorem dispatch_getSystemTime (argc : Nat) :
    Builtin.dispatch "get_system_time" argc = some .getSystemTime := rfl

variable {l : Locals} {fp : Nat}

namespace Locals

/-- The locals after all parameters were bound. -/
def pushAll (l : Locals) : List (Symbol × ValueType) → List Value → Locals
  | (sym, _) :: params, v :: vs => (l.push sym v).pushAll params vs
  | _, _ => l

theorem below_pushAll (l : Locals) (params : List (Symbol × ValueType)) (vs : List Value) :
    l.Below (l.pushAll params vs) := by
  induction params generalizing l vs with
  | nil => exact Below.refl l
  | cons p params ih =>
    cases vs with
    | nil => exact Below.refl l
    | cons v vs => exact (below_push l p.1 v).trans (ih (l.push p.1 v) vs)

theorem isSome_get_push (hfp : fp ≤ l.stack.length) (sym sym' : Symbol)
    (v : Value) (h : sym' = sym ∨ (l.get sym' fp).isSome = true) :
    ((l.push sym v).get sym' fp).isSome = true := by
  by_cases hs : sym' = sym
  · rw [hs, get_push_self l sym v hfp]
    rfl
  · rw [get_push_of_ne l v fp hs]
    exact h.resolve_left hs

/-- Every parameter is bound when there are as many arguments. -/
theorem isSome_get_pushAll (hfp : fp ≤ l.stack.length)
    {params : List (Symbol × ValueType)} {vs : List Value} (hlen : vs.length = params.length)
    {sym : Symbol} (h : sym ∈ params.map (·.1) ∨ (l.get sym fp).isSome = true) :
    ((l.pushAll params vs).get sym fp).isSome = true := by
  induction params generalizing l vs with
  | nil => exact h.resolve_left (by simp)
  | cons p params ih =>
    cases vs with
    | nil => simp at hlen
    | cons v vs =>
      refine ih (by simp; omega) (by simpa using hlen) ?_
      rcases h with h | h
      · rcases List.mem_cons.mp h with rfl | h
        · exact .inr (isSome_get_push hfp p.1 p.1 v (.inl rfl))
        · exact .inl h
      · exact .inr (isSome_get_push hfp p.1 sym v (.inr h))

end Locals

theorem Binds.push {B : Finset Symbol}
    (h : Binds L l fp B) (sym : Symbol) (v : Value) : Binds L (l.push sym v) fp (insert sym B) where
  frame := h.frame.imp_left fun hfp => by
    rw [Locals.push_stack, List.length_append]
    omega
  bound sym' hsym := by
    rcases h.frame with hfp | hall
    · rcases Finset.mem_insert.mp hsym with rfl | hmem
      · exact .inl (Locals.isSome_get_push hfp sym' sym' v (.inl rfl))
      · exact (h.bound sym' hmem).imp_left fun hbound =>
          Locals.isSome_get_push hfp sym sym' v (.inr hbound)
    · exact .inr (hall sym')

variable {arena : ExprArena} {s t : Evaluator}

section Agree

variable {ctx : EvalCtx} {L : Evaluator → Evaluator → Prop} (hL : LevelRel L) {l : Locals}

include hL

theorem LevelRel.push (h : L s t) (sym : Symbol) (v : Value) :
    L (s.pushLocal sym v) (t.pushLocal sym v) := by
  have := hL.setLocals h (s.locals.push sym v)
  simpa [Evaluator.pushLocal, hL.locals h] using this

theorem LevelRel.pop (h : L s t) : L s.popLocal t.popLocal := by
  have := hL.setLocals h s.locals.pop
  simpa [Evaluator.popLocal, hL.locals h] using this

theorem LevelRel.truncate (h : L s t) (n : Nat) : L (s.truncateLocals n) (t.truncateLocals n) := by
  have := hL.setLocals h (s.locals.truncate n)
  simpa [Evaluator.truncateLocals, hL.locals h] using this

omit hL in
theorem agreeAt_pure (a : α) : AgreeAt L l (pure a : EvalM α) (pure a) :=
  .pure (fun _ _ h => h) a

omit hL in
theorem agreeAt_throw (e : MizuError) : AgreeAt L l (throw e : EvalM α) (throw e) :=
  .throw (fun _ _ h => h.1) e

theorem native_agree (x : Nat → EStateM MizuError Nat α) : AgreeAt L l (native x) (native x) := by
  rintro s t ⟨h, hl⟩
  have hx : x t.maxInstructions t.instructionCount = x s.maxInstructions s.instructionCount := by
    rw [hL.max h, hL.count h]
  simp only [native, hx]
  cases x s.maxInstructions s.instructionCount with
  | ok a n => exact ⟨rfl, hL.setCount h n, hl⟩
  | error e n => exact ⟨rfl, hL.setCount h n⟩

theorem act_agree (a : RuntimeAction) :
    AgreeAt L l (modify (·.act a) : EvalM PUnit) (modify (·.act a)) :=
  .modify fun _ _ h => ⟨hL.act h.1 a, h.2⟩

theorem readVariable_agree {sym : Symbol} (hg : (l.get sym fp).isSome = true ∨ SameGlobal L sym) :
    AgreeAt L l (readVariable ctx fp sym) (readVariable ctx fp sym) := by
  rintro s t ⟨h, rfl⟩
  simp only [readVariable, bind_apply, get_apply, Evaluator.getLocal, ← hL.locals h]
  cases hlocal : s.locals.get sym fp with
  | some v => exact ⟨rfl, h, rfl⟩
  | none =>
    have hglobal : SameGlobal L sym := hg.resolve_left (by simp [hlocal])
    simp only [hglobal s t h]
    cases hn : (t.getGlobal sym).isNull
    · exact ⟨rfl, h, rfl⟩
    · exact ⟨rfl, h⟩

theorem bindParams_agree (params : List (Symbol × ValueType)) (vs : List Value) :
    Agree (AtLocals L l) (AtLocals L (l.pushAll params vs)) L (bindParams params vs)
      (bindParams params vs) := by
  induction params generalizing l vs with
  | nil => exact .pure (fun _ _ h => h) _
  | cons p params ih =>
    cases vs with
    | nil => exact .pure (fun _ _ h => h) _
    | cons v vs =>
      simp only [bindParams]
      split
      · refine .bind (.modify fun s t h => ?_) fun _ => ih (l := l.push p.1 v) vs
        exact ⟨hL.push h.1 _ _, by simp only [Evaluator.pushLocal, h.2]⟩
      · exact .throw (fun _ _ h => h.1) _

omit hL in
theorem evalArgs_agree {ev ev' : Expr → EvalM Value} {es : List Expr}
    (hev : ∀ e ∈ es, AgreeAt L l (ev e) (ev' e)) : AgreeAt L l (evalArgs ev es) (evalArgs ev' es) := by
  induction es with
  | nil => exact agreeAt_pure _
  | cons e es ih =>
    refine .bind (hev e (by simp)) fun v => .bind ?_ fun vs => agreeAt_pure _
    exact ih fun e' he' => hev e' (by simp [he'])

omit hL in
theorem evalArgs_length {ev : Expr → EvalM Value} {es : List Expr} {s s' : Evaluator}
    {vs : List Value} (h : evalArgs ev es s = .ok vs s') : vs.length = es.length := by
  induction es generalizing vs s with
  | nil =>
    cases h
    rfl
  | cons e es ih =>
    obtain ⟨v, t, -, h⟩ := of_bind_ok h
    obtain ⟨vs', t', hvs, h⟩ := of_bind_ok h
    cases h
    simp [ih hvs]

variable {G : Finset Symbol → ExprArena → Expr → Prop} (hG : EvalScope ctx G)
  (hvar : ∀ {B a sym}, G B a (.var sym) → sym ∈ B ∨ SameGlobal L sym)
  {ev ev' : Recur}
  (hev : ∀ fp l B a e, G B a e → Binds L l fp B → AgreeAt L l (ev fp a e) (ev' fp a e))
  {B : Finset Symbol} {fp : Nat} (hbinds : Binds L l fp B)

include hG hev hbinds

theorem callFunction_agree {name : Symbol} {st len : Nat}
    (hcall : G B arena (.functionCall name st len)) (hname : ctx.nameOf name ≠ "get_system_time")
    (hargs : ∀ e ∈ arena.args st len, G B arena e) :
    AgreeAt L l (callFunction ctx ev fp arena name (arena.args st len))
      (callFunction ctx ev' fp arena name (arena.args st len)) := by
  unfold callFunction
  split
  · exact agreeAt_throw _
  rename_i func hfunc
  split
  · exact agreeAt_throw _
  rename_i harity
  have hevargs := evalArgs_agree (L := L) (l := l) fun e he =>
    hev fp l B arena e (hargs e he) hbinds
  -- The values are as many as the parameters, so all of these get bound.
  intro s t h
  have hvals := hevargs s t h
  rw [bind_apply, bind_apply]
  cases hs : evalArgs (ev fp arena) (arena.args st len) s with
  | error e s' => grind
  | ok vs s' =>
    cases ht : evalArgs (ev' fp arena) (arena.args st len) t with
    | error _ _ => simp [hs, ht] at hvals
    | ok vs' t' =>
      simp only [hs, ht] at hvals
      obtain ⟨rfl, h'⟩ := hvals
      have hlen : vs.length = func.params.length := by
        rw [evalArgs_length hs]
        omega
      simp only [bind_apply, get_apply]
      rw [← hL.locals h'.1, h'.2]
      have hinner : Binds L (l.pushAll func.params vs) l.stack.length
          (func.params.map (·.1)).toFinset := by
        refine ⟨.inl (Locals.below_pushAll l func.params vs).length_le, fun sym hsym => .inl ?_⟩
        exact Locals.isSome_get_pushAll (Nat.le_refl _) hlen (.inl (by simpa using hsym))
      refine Agree.bind (bindParams_agree hL func.params vs) (fun _ => ?_) s' t' h'
      refine .onExit (hev _ _ _ _ _ (hG.body hcall hname hfunc) hinner) (fun s t h => ?_)
        fun _ _ h => hL.truncate h _
      refine ⟨hL.truncate h.1 _, ?_⟩
      simp only [Evaluator.truncateLocals, h.2]
      exact (Locals.below_pushAll l func.params vs).truncate_eq

variable {args : List Expr}

omit hL hG hbinds in
theorem args_agree (hbinds : Binds L l fp B) (hargs : ∀ e ∈ args, G B arena e) :
    ∀ e ∈ args, AgreeAt L l (ev fp arena e) (ev' fp arena e) :=
  fun e he => hev fp l B arena e (hargs e he) hbinds

omit hG hev hbinds in
theorem copyToClipboard_agree {ev ev' : Expr → EvalM Value}
    (hargs : ∀ e ∈ args, AgreeAt L l (ev e) (ev' e)) :
    AgreeAt L l (copyToClipboard ev args) (copyToClipboard ev' args) := by
  unfold copyToClipboard
  split
  · refine .bind (hargs _ (by simp)) fun v => ?_
    split
    · exact .bind (act_agree hL _) fun _ => agreeAt_pure _
    · exact agreeAt_throw _
  · exact agreeAt_throw _

omit hG hev hbinds in
theorem storeLocal_agree {ev ev' : Expr → EvalM Value} (hargs : ∀ e ∈ args, AgreeAt L l (ev e) (ev' e)) :
    AgreeAt L l (storeLocal ev args) (storeLocal ev' args) := by
  unfold storeLocal
  split
  · refine .bind (hargs _ (by simp)) fun v => ?_
    split
    · refine .bind (hargs _ (by simp)) fun _ => ?_
      exact .bind (act_agree hL _) fun _ => agreeAt_pure _
    · exact agreeAt_throw _
  · exact agreeAt_throw _

omit hG hev hbinds in
theorem getSystemTime_agree (args : List Expr) :
    AgreeAt L l (getSystemTime args) (getSystemTime args) := by
  unfold getSystemTime
  split
  · rename_i sym
    rintro s t ⟨h, hl⟩
    simp only [bind_apply, get_apply, hL.computed h]
    by_cases hs : sym ∈ t.computedVarSyms
    · rw [if_pos hs]
      exact ⟨rfl, h⟩
    · rw [if_neg hs]
      exact ⟨rfl, hL.act h _, hl⟩
  · exact agreeAt_throw _

omit hG hev hbinds in
theorem download_agree (args : List Expr) : AgreeAt L l (download args) (download args) := by
  unfold download
  split
  · exact .bind (act_agree hL _) fun _ => agreeAt_pure _
  · exact agreeAt_throw _

theorem evaluateCall_agree {name : Symbol} {st len : Nat} (hcall : G B arena (.functionCall name st len)) :
    AgreeAt L l (evaluateCall ctx ev fp arena name (arena.args st len))
      (evaluateCall ctx ev' fp arena name (arena.args st len)) := by
  unfold evaluateCall
  by_cases hgst : ctx.nameOf name = "get_system_time"
  · rw [hgst, dispatch_getSystemTime]
    exact getSystemTime_agree hL _
  have hargs := hG.args hcall hgst
  have hagree := args_agree hev hbinds hargs
  split
  · exact copyToClipboard_agree hL hagree
  · exact getSystemTime_agree hL _
  · exact storeLocal_agree hL hagree
  · exact download_agree hL _
  · exact .bind (evalArgs_agree hagree) fun _ => native_agree hL _
  · exact callFunction_agree hL hG hev hbinds hcall hgst hargs

include hvar

theorem evaluateImpl_agree {e : Expr} (he : G B arena e) :
    AgreeAt L l (evaluateImpl ctx ev fp arena e) (evaluateImpl ctx ev' fp arena e) := by
  cases e with
  | literal v => exact agreeAt_pure _
  | var sym => exact readVariable_agree hL ((hvar he).elim (hbinds.bound sym) .inr)
  | binaryOp left op right =>
    refine .bind (hev _ _ _ _ _ (hG.binaryOp he).1 hbinds) fun _ => ?_
    exact .bind (hev _ _ _ _ _ (hG.binaryOp he).2 hbinds) fun _ => native_agree hL _
  | functionCall name start len => exact evaluateCall_agree hL hG hev hbinds he
  | letIn name value body =>
    refine .bind (hev _ _ _ _ _ (hG.letIn he).1 hbinds) fun v => ?_
    refine .bind (Q := AtLocals L (l.push name v)) (.modify fun s t h => ?_) fun _ => ?_
    · exact ⟨hL.push h.1 _ _, by simp only [Evaluator.pushLocal, h.2]⟩
    · refine .onExit (hev _ _ _ _ _ (hG.letIn he).2 (hbinds.push name v)) (fun s t h => ?_)
        fun _ _ h => hL.pop h
      exact ⟨hL.pop h.1, by simp only [Evaluator.popLocal, h.2, Locals.pop_push]⟩
  | not inner => exact .bind (hev _ _ _ _ _ (hG.not he) hbinds) fun _ => native_agree hL _
  | ifElse c t e =>
    obtain ⟨hc, ht, he'⟩ := hG.ifElse he
    refine .bind (hev _ _ _ _ _ hc hbinds) fun v => ?_
    split
    · exact hev _ _ _ _ _ ht hbinds
    · exact hev _ _ _ _ _ he' hbinds
    · exact agreeAt_throw _
  | fieldAccess b f h => exact .bind (hev _ _ _ _ _ (hG.fieldAccess he) hbinds) fun _ => native_agree hL _

end Agree

/-! ## The recursion is bounded by the depth alone -/

section Equation

variable (ctx : EvalCtx)

/-- Equal states at a given depth. -/
def SameAt (d : Nat) (s t : Evaluator) : Prop := s = t ∧ s.evalDepth = d

theorem sameAt_levelRel (d : Nat) : LevelRel (SameAt d) where
  locals h := h.1 ▸ rfl
  count h := h.1 ▸ rfl
  max h := h.1 ▸ rfl
  computed h := h.1 ▸ rfl
  setLocals h _ := ⟨h.1 ▸ rfl, h.2⟩
  setCount h _ := ⟨h.1 ▸ rfl, h.2⟩
  act h _ := ⟨h.1 ▸ rfl, h.2⟩

theorem sameAt_sameGlobal (d : Nat) (sym : Symbol) : SameGlobal (SameAt d) sym := by
  rintro s t ⟨rfl, -⟩
  rfl

theorem sameAt_binds (d : Nat) (l : Locals) (fp : Nat) (B : Finset Symbol) :
    Binds (SameAt d) l fp B :=
  ⟨.inr (sameAt_sameGlobal d), fun sym _ => .inr (sameAt_sameGlobal d sym)⟩

theorem level_agree {d : Nat} {x y : EvalM Value} (h : d < maxEvalDepth → AgreeAt (SameAt (d + 1)) l x y) :
    AgreeAt (SameAt d) l (do enter; onExit x leave) (do enter; onExit y leave) := by
  rintro s t ⟨⟨rfl, hd⟩, hl⟩
  rcases enter_cases s with ⟨e, he⟩ | ⟨hlt, he⟩
  · rw [bind_error he, bind_error he]
    exact ⟨rfl, rfl, hd⟩
  · rw [bind_ok he, bind_ok he]
    have hxy := h (hd ▸ hlt)
      { s with instructionCount := s.instructionCount + 1, evalDepth := s.evalDepth + 1 }
      { s with instructionCount := s.instructionCount + 1, evalDepth := s.evalDepth + 1 }
      ⟨⟨rfl, congrArg (· + 1) hd⟩, hl⟩
    unfold onExit
    revert hxy
    cases x _ <;> cases y _
    · rintro ⟨h1, ⟨h2, h3⟩, h4⟩
      exact ⟨h1, ⟨h2 ▸ rfl, by simp [leave, h3]⟩, h4⟩
    · exact id
    · exact id
    · rintro ⟨h1, h2, h3⟩
      exact ⟨h1, h2 ▸ rfl, by simp [leave, h3]⟩

/-- Any number of levels that reaches the depth limit gives the same evaluation. -/
theorem evaluateWithin_agree {n m d : Nat} (hn : maxEvalDepth ≤ n + d) (hm : maxEvalDepth ≤ m + d)
    (l : Locals) (fp : Nat) (arena : ExprArena) (e : Expr) :
    AgreeAt (SameAt d) l (evaluateWithin ctx n fp arena e) (evaluateWithin ctx m fp arena e) := by
  induction n generalizing m d l fp arena e with
  | zero =>
    cases m with
    | zero => exact level_agree fun _ => agreeAt_throw _
    | succ m => exact level_agree fun hlt => absurd hlt (by omega)
  | succ n ih =>
    cases m with
    | zero => exact level_agree fun hlt => absurd hlt (by omega)
    | succ m =>
      refine level_agree fun _ => ?_
      refine evaluateImpl_agree (sameAt_levelRel _) (EvalScope.all ctx)
        (fun _ => .inr (sameAt_sameGlobal _ _)) ?_ (sameAt_binds _ l fp ∅) trivial
      exact fun fp' l' B a' e' _ _ => ih (by omega) (by omega) l' fp' a' e'

/-- The source's equation for `evaluate`. -/
theorem evaluate_eq (fp : Nat) (arena : ExprArena) (e : Expr) :
    evaluate ctx fp arena e =
      (do enter; onExit (evaluateImpl ctx (evaluate ctx) fp arena e) leave) := by
  funext s
  have h : AgreeAt (SameAt s.evalDepth) s.locals (evaluate ctx fp arena e)
      (do enter; onExit (evaluateImpl ctx (evaluate ctx) fp arena e) leave) := by
    refine level_agree fun _ => ?_
    refine evaluateImpl_agree (sameAt_levelRel _) (EvalScope.all ctx)
      (fun _ => .inr (sameAt_sameGlobal _ _)) ?_ (sameAt_binds _ s.locals fp ∅) trivial
    have hmax : maxEvalDepth = 255 + 1 := rfl
    exact fun fp' l' B a' e' _ _ =>
      evaluateWithin_agree ctx (n := 255) (m := maxEvalDepth) (by omega) (by omega) l' fp' a' e'
  have hs := h s s ⟨⟨rfl, rfl⟩, rfl⟩
  revert hs
  cases evaluate ctx fp arena e s <;>
    cases (do enter; onExit (evaluateImpl ctx (evaluate ctx) fp arena e) leave : EvalM Value) s
  · rintro ⟨h1, ⟨h2, -⟩, -⟩
    rw [h1, h2]
  · exact False.elim
  · exact False.elim
  · rintro ⟨h1, h2, -⟩
    rw [h1, h2]

end Equation

/-! ## States that agree on what a scope reads -/

/-- A `LevelRel` that also survives the head of a call. -/
structure RunRel (L : Evaluator → Evaluator → Prop) : Prop extends LevelRel L where
  depth : ∀ {s t}, L s t → s.evalDepth = t.evalDepth
  setDepth : ∀ {s t}, L s t → ∀ d, L { s with evalDepth := d } { t with evalDepth := d }

section Run

variable {ctx : EvalCtx} {L : Evaluator → Evaluator → Prop} (hL : RunRel L)
  {G : Finset Symbol → ExprArena → Expr → Prop} (hG : EvalScope ctx G)
  (hvar : ∀ {B a sym}, G B a (.var sym) → sym ∈ B ∨ SameGlobal L sym)

include hL

theorem enter_agree (l : Locals) : AgreeAt L l enter enter := by
  rintro s t ⟨h, hl⟩
  have hn : L { s with instructionCount := s.instructionCount + 1 }
      { t with instructionCount := t.instructionCount + 1 } := by
    rw [← hL.count h]
    exact hL.setCount h _
  have hd' : L { s with instructionCount := s.instructionCount + 1, evalDepth := s.evalDepth + 1 }
      { t with instructionCount := t.instructionCount + 1, evalDepth := t.evalDepth + 1 } := by
    rw [← hL.depth h]
    exact hL.setDepth hn _
  by_cases hc : s.instructionCount + 1 > s.maxInstructions
  · have hct : t.instructionCount + 1 > t.maxInstructions := by rwa [← hL.count h, ← hL.max h]
    simp only [enter, if_pos hc, if_pos hct]
    exact ⟨trivial, hn⟩
  have hct : ¬t.instructionCount + 1 > t.maxInstructions := by rwa [← hL.count h, ← hL.max h]
  by_cases hd : s.evalDepth + 1 > maxEvalDepth
  · have hdt : t.evalDepth + 1 > maxEvalDepth := by rwa [← hL.depth h]
    simp only [enter, if_neg hc, if_neg hct, if_pos hd, if_pos hdt]
    exact ⟨trivial, hn⟩
  · have hdt : ¬t.evalDepth + 1 > maxEvalDepth := by rwa [← hL.depth h]
    simp only [enter, if_neg hc, if_neg hct, if_neg hd, if_neg hdt]
    exact ⟨trivial, hd', hl⟩

theorem leave_related (h : L s t) : L (leave s) (leave t) := by
  have := hL.setDepth h (s.evalDepth - 1)
  simpa [leave, hL.depth h] using this

include hG hvar

/-- Evaluations of an expression of the scope agree from related states in which the names bound
around it are bound. -/
theorem evaluate_agree {B : Finset Symbol} (hbinds : Binds L l fp B) {e : Expr} (he : G B arena e) :
    AgreeAt L l (evaluate ctx fp arena e) (evaluate ctx fp arena e) := by
  have hlevel : ∀ {l : Locals} {x : EvalM Value}, AgreeAt L l x x →
      AgreeAt L l (do enter; onExit x leave) (do enter; onExit x leave) := by
    intro l x hx
    refine .bind (enter_agree hL l) fun _ => .onExit hx (fun s t h => ?_)
      fun s t h => leave_related hL h
    exact ⟨leave_related hL h.1, h.2⟩
  have hwithin : ∀ n fp l B arena e, G B arena e → Binds L l fp B →
      AgreeAt L l (evaluateWithin ctx n fp arena e) (evaluateWithin ctx n fp arena e) := by
    intro n
    induction n with
    | zero =>
      intro fp l B arena e _ _
      exact hlevel (agreeAt_throw _)
    | succ n ih =>
      intro fp l B arena e he hbinds
      exact hlevel (evaluateImpl_agree hL.toLevelRel hG hvar ih hbinds he)
  exact hwithin maxEvalDepth fp l B arena e he hbinds

omit hG hvar in
/-- States that no global tells apart give the same results. -/
theorem evaluate_sameGlobals (hglobals : ∀ sym, SameGlobal L sym) (fp : Nat) (arena : ExprArena)
    (e : Expr) : Agree L L L (evaluate ctx fp arena e) (evaluate ctx fp arena e) := by
  refine agree_of_agreeAt fun l => ?_
  have hbinds : Binds L l fp ∅ := ⟨.inr hglobals, fun sym _ => .inr (hglobals sym)⟩
  exact evaluate_agree hL (EvalScope.all ctx) (fun _ => .inr (hglobals _)) hbinds trivial

end Run

/-! ## States that differ in some globals -/

/-- The same run, but for the globals in `D`. -/
structure SameOutside (D : Symbol → Prop) (s t : Evaluator) : Prop where
  globals : ∀ sym, ¬D sym → s.getGlobal sym = t.getGlobal sym
  locals : s.locals = t.locals
  max : s.maxInstructions = t.maxInstructions
  depth : s.evalDepth = t.evalDepth
  computed : s.computedVarSyms = t.computedVarSyms

/-- In addition the same count. -/
structure SameCounted (D : Symbol → Prop) (s t : Evaluator) : Prop extends SameOutside D s t where
  count : s.instructionCount = t.instructionCount

theorem sameCounted_runRel (D : Symbol → Prop) : RunRel (SameCounted D) where
  locals h := h.locals
  count h := h.count
  max h := h.max
  computed h := h.computed
  depth h := h.depth
  setLocals h _ := { h with globals := h.globals, locals := rfl }
  setCount h _ := { h with globals := h.globals, count := rfl }
  setDepth h _ := { h with globals := h.globals, depth := rfl }
  act h _ := { h with globals := h.globals }

theorem sameCounted_sameGlobal {D : Symbol → Prop} {sym : Symbol} (h : ¬D sym) :
    SameGlobal (SameCounted D) sym := fun _ _ hst => hst.globals sym h

theorem SameOutside.counted {D : Symbol → Prop} (h : SameOutside D s t) (n : Nat) :
    SameCounted D { s with instructionCount := n } { t with instructionCount := n } :=
  { h with globals := h.globals, count := rfl }

end Mizu
