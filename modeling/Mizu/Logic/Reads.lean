import Mizu.Logic.Ast

/-!
# What an expression reads

The collectors that computed bindings are ordered and updated by: the variables of an expression
(`collectVars`), its free variables (`collectFreeVars`), the functions it calls (`collectCalls`) and
the free variables of every function that a chain of calls reaches
(`collectReachableFunctionReads`). Each is shown to find exactly what it looks for. The sets are lists
without duplicates; no order of theirs matters.
-/

namespace Mizu

open List

variable {e : Expr}

namespace ExprArena

/-- The indices of the nodes an expression is made of. -/
def childIds (a : ExprArena) : Expr → List ExprId
  | .literal _ | .var _ => []
  | .binaryOp left _ right => [left, right]
  | .functionCall _ start len => (a.argsPool.drop start).take len
  | .letIn _ value body => [value, body]
  | .not inner => [inner]
  | .ifElse condition thenExpr elseExpr => [condition, thenExpr, elseExpr]
  | .fieldAccess base _ _ => [base]

theorem children_eq (a : ExprArena) (e : Expr) : a.children e = (a.childIds e).map a.get := by
  cases e <;> rfl

/-- A parser builds a node after the nodes it is made of. -/
def Ordered (a : ExprArena) : Prop := ∀ id < a.nodes.length, ∀ child ∈ a.childIds (a.get id), child < id

/-- An expression and everything below it. -/
inductive Below (a : ExprArena) : Expr → Expr → Prop where
  | refl (e : Expr) : Below a e e
  | step {e child e' : Expr} (hchild : child ∈ a.children e) (h : Below a child e') : Below a e e'

theorem Below.trans {a : ExprArena} {e e' e'' : Expr} (h : a.Below e e') (h' : a.Below e' e'') :
    a.Below e e'' := by
  induction h with
  | refl => exact h'
  | step hchild _ ih => exact .step hchild (ih h')

/-- A name occurs in an expression and is not bound around it. -/
inductive FreeIn (a : ExprArena) : Finset Symbol → Expr → Symbol → Prop where
  | var {B sym} (h : sym ∉ B) : FreeIn a B (.var sym) sym
  | letValue {B x v b sym} (h : FreeIn a B (a.get v) sym) : FreeIn a B (.letIn x v b) sym
  | letBody {B x v b sym} (h : FreeIn a (insert x B) (a.get b) sym) : FreeIn a B (.letIn x v b) sym
  | child {B e child sym} (hlet : ∀ x v b, e ≠ .letIn x v b) (hchild : child ∈ a.children e)
      (h : FreeIn a B child sym) : FreeIn a B e sym

theorem FreeIn.occurs {a : ExprArena} {B : Finset Symbol} {sym : Symbol}
    (h : a.FreeIn B e sym) : a.Below e (.var sym) := by
  induction h with
  | var => exact .refl _
  | letValue _ ih => exact .step (by simp [children]) ih
  | letBody _ ih => exact .step (by simp [children]) ih
  | child _ hchild _ ih => exact .step hchild ih

end ExprArena

/-! ## The collectors -/

section Collectors

/-- Folds `visit` over an expression and everything below it, parents first. -/
def walkExpr {α : Type} (visit : Expr → α → α) (arena : ExprArena) : Nat → Expr → α → Walk α
  | 0, _, _ => throw .overflow
  | fuel + 1, e, out =>
    (arena.children e).foldlM (fun out e => walkExpr visit arena fuel e out) (visit e out)

/-- `collect_vars`. -/
def collectVars (arena : ExprArena) : Nat → Expr → List Symbol → Walk (List Symbol) :=
  walkExpr (fun e out =>
    match e with
    | .var sym => out.insert sym
    | _ => out) arena

/-- `collect_calls`: a variable with the name of a function is a call too. -/
def collectCalls (functions : FunctionTable) (arena : ExprArena) :
    Nat → Expr → List Symbol → Walk (List Symbol) :=
  walkExpr (fun e out =>
    match e with
    | .var sym => if sym ∈ functions then out.insert sym else out
    | .functionCall name _ _ => out.insert name
    | _ => out) arena

/-- `collect_free_vars`. The source restores `bound` after the body of a `let`. -/
def collectFreeVars (arena : ExprArena) :
    Nat → Expr → Finset Symbol → List Symbol → Walk (List Symbol)
  | 0, _, _, _ => throw .overflow
  | fuel + 1, e, bound, out =>
    match e with
    | .var sym => return if sym ∈ bound then out else out.insert sym
    | .letIn name value body => do
      let out ← collectFreeVars arena fuel (arena.get value) bound out
      collectFreeVars arena fuel (arena.get body) (insert name bound) out
    | e => (arena.children e).foldlM (fun out e => collectFreeVars arena fuel e bound out) out

def MizuFunction.paramNames (func : MizuFunction) : Finset Symbol :=
  (func.params.map (·.1)).toFinset

/-- The worklist of `collect_reachable_function_reads`, the next function first. -/
def visitFunctions (functions : FunctionTable) :
    Nat → List Symbol → Finset Symbol → List Symbol → Walk (List Symbol)
  | _, [], _, out => return out
  | 0, _ :: _, _, _ => throw .overflow
  | fuel + 1, sym :: worklist, visited, out =>
    if sym ∈ visited then visitFunctions functions fuel worklist visited out
    else
      match functions.lookup sym with
      | none => visitFunctions functions fuel worklist (insert sym visited) out
      | some func => do
        let arena := func.body.arena
        let out ← collectFreeVars arena (walkFuel arena) func.body.rootExpr func.paramNames out
        let nested ← collectCalls functions arena (walkFuel arena) func.body.rootExpr []
        visitFunctions functions fuel (nested ++ worklist) (insert sym visited) out

/-- Every function is entered at most once, and adds at most the nodes of its body. -/
def visitFuel (functions : FunctionTable) (calls : List Symbol) : Nat :=
  calls.length + functions.keys.sum fun sym =>
    match functions.lookup sym with
    | some func => func.body.arena.nodes.length
    | none => 0

/-- `collect_reachable_function_reads`. -/
def collectReachableFunctionReads (functions : FunctionTable) (t : ExprTree) (out : List Symbol) :
    Walk (List Symbol) := do
  let calls ← collectCalls functions t.arena (walkFuel t.arena) t.rootExpr []
  visitFunctions functions (visitFuel functions calls) calls ∅ out

end Collectors

/-! ## What they find -/

variable {out out' : List Symbol} {fuel : Nat} {functions : FunctionTable}
variable {visit : Expr → List Symbol → List Symbol}

section Find

variable {a : ExprArena}

theorem foldlM_ok_cons {α β : Type} {f : α → β → Walk α} {x : β} {xs : List β} {out out' : α}
    (h : (x :: xs).foldlM f out = .ok out') :
    ∃ mid, f out x = .ok mid ∧ xs.foldlM f mid = .ok out' := by
  rw [foldlM_cons] at h
  cases hx : f out x with
  | error e =>
    rw [hx] at h
    cases h
  | ok mid =>
    rw [hx] at h
    exact ⟨mid, rfl, h⟩

/-- A walk over a list finds what it had and what it finds in each member. -/
theorem mem_foldlM {α : Type} {f : List Symbol → α → Walk (List Symbol)} {P : α → Symbol → Prop}
    {xs : List α} (hf : ∀ x ∈ xs, ∀ out out', f out x = .ok out' →
      ∀ sym, sym ∈ out' ↔ sym ∈ out ∨ P x sym) (h : xs.foldlM f out = .ok out') (sym : Symbol) :
    sym ∈ out' ↔ sym ∈ out ∨ ∃ x ∈ xs, P x sym := by
  induction xs generalizing out with
  | nil =>
    cases h
    simp
  | cons x xs ih =>
    obtain ⟨mid, hx, h⟩ := foldlM_ok_cons h
    rw [ih (fun y hy => hf y (by simp [hy])) h, hf x (by simp) out mid hx]
    simp [or_assoc]

/-- What a walk that collects names finds: what the visited expressions contribute. -/
theorem mem_walkExpr {P : Expr → Symbol → Prop}
    (hvisit : ∀ e out sym, sym ∈ visit e out ↔ sym ∈ out ∨ P e sym)
    (h : walkExpr visit a fuel e out = .ok out') (sym : Symbol) :
    sym ∈ out' ↔ sym ∈ out ∨ ∃ e', a.Below e e' ∧ P e' sym := by
  induction fuel generalizing e out out' sym with
  | zero => cases h
  | succ fuel ih =>
    rw [mem_foldlM (P := fun e sym => ∃ e', a.Below e e' ∧ P e' sym)
      (fun x _ out out' hx sym => ih hx sym) h sym, hvisit, or_assoc]
    refine or_congr_right ⟨?_, ?_⟩
    · rintro (hhere | ⟨child, hchild, e', hbelow, hP⟩)
      · exact ⟨e, .refl e, hhere⟩
      · exact ⟨e', .step hchild hbelow, hP⟩
    · rintro ⟨e', hbelow, hP⟩
      cases hbelow with
      | refl => exact .inl hP
      | step hchild hbelow => exact .inr ⟨_, hchild, e', hbelow, hP⟩

theorem mem_collectVars (h : collectVars a fuel e out = .ok out') (sym : Symbol) :
    sym ∈ out' ↔ sym ∈ out ∨ a.Below e (.var sym) := by
  rw [mem_walkExpr (P := fun e sym => e = .var sym) ?_ h sym]
  · simp
  · grind

/-- A call by name, or a variable with the name of a function. -/
def IsCall (functions : FunctionTable) (e : Expr) (f : Symbol) : Prop :=
  (∃ start len, e = .functionCall f start len) ∨ e = .var f ∧ f ∈ functions

theorem mem_collectCalls (h : collectCalls functions a fuel e out = .ok out') (f : Symbol) :
    f ∈ out' ↔ f ∈ out ∨ ∃ e', a.Below e e' ∧ IsCall functions e' f := by
  refine mem_walkExpr (P := IsCall functions) ?_ h f
  intro e out sym
  cases e with
  | var sym' =>
    by_cases hf : sym' ∈ functions
    · simp only [hf, if_true, mem_insert_iff, IsCall, reduceCtorEq, exists_const, false_or,
        Expr.var.injEq]
      constructor
      · grind
      · grind
    · simp only [hf, if_false, IsCall, reduceCtorEq, exists_const, false_or, Expr.var.injEq]
      constructor
      · exact .inl
      · grind
  | functionCall name start len => simp [IsCall, or_comm, eq_comm]
  | _ => simp [IsCall]

theorem mem_collectFreeVars {B : Finset Symbol}
    (h : collectFreeVars a fuel e B out = .ok out') (sym : Symbol) :
    sym ∈ out' ↔ sym ∈ out ∨ a.FreeIn B e sym := by
  induction fuel generalizing e B out out' sym with
  | zero => cases h
  | succ fuel ih =>
    have hchildren : ∀ {out out' : List Symbol}, (∀ x v b, e ≠ .letIn x v b) →
        (∀ x, e ≠ .var x) →
        (a.children e).foldlM (fun out e => collectFreeVars a fuel e B out) out = .ok out' →
        (sym ∈ out' ↔ sym ∈ out ∨ a.FreeIn B e sym) := by
      intro out out' hlet hvar h
      rw [mem_foldlM (P := fun e sym => a.FreeIn B e sym) (fun x _ out out' hx sym => ih hx sym) h sym]
      refine or_congr_right ⟨fun ⟨child, hchild, hfree⟩ => .child hlet hchild hfree, fun hfree => ?_⟩
      cases hfree with
      | var => exact absurd rfl (hvar _)
      | letValue | letBody => exact absurd rfl (hlet _ _ _)
      | child _ hchild hfree => exact ⟨_, hchild, hfree⟩
    cases e with
    | var x =>
      cases h
      by_cases hx : x ∈ B
      · simp only [hx, if_true]
        refine ⟨.inl, fun hor => hor.resolve_right fun hfree => ?_⟩
        cases hfree with
        | var hno => exact hno hx
        | child _ hchild _ => cases hchild
      · simp only [hx, if_false, mem_insert_iff]
        constructor
        · rintro (rfl | hout)
          · exact .inr (.var hx)
          · exact .inl hout
        · rintro (hout | hfree)
          · exact .inr hout
          · cases hfree with
            | var => exact .inl rfl
            | child _ hchild _ => cases hchild
    | letIn x v b =>
      obtain ⟨mid, hv, hb⟩ := Exec.except_of_bind_ok h
      rw [ih hb, ih hv, or_assoc]
      refine or_congr_right ⟨?_, fun hfree => ?_⟩
      · rintro (hv | hb)
        · exact .letValue hv
        · exact .letBody hb
      · cases hfree with
        | letValue hv => exact .inl hv
        | letBody hb => exact .inr hb
        | child hlet _ _ => exact absurd rfl (hlet x v b)
    | _ => exact hchildren (fun _ _ _ => nofun) (fun _ => nofun) h

end Find

/-! ## Chains of calls -/

section Chains

variable (functions : FunctionTable)

/-- The body of `f` calls `g`. -/
def Calls (f g : Symbol) : Prop :=
  ∃ func, functions.lookup f = some func ∧
    ∃ e, func.body.arena.Below func.body.rootExpr e ∧ IsCall functions e g

/-- The body of `f` reads a global. -/
def ReadsIn (f sym : Symbol) : Prop :=
  ∃ func, functions.lookup f = some func ∧
    func.body.arena.FreeIn func.paramNames func.body.rootExpr sym

/-- Some chain of calls from the expression ends in a function that reads the name. -/
def ReadsThrough (t : ExprTree) (sym : Symbol) : Prop :=
  ∃ e c f, t.arena.Below t.rootExpr e ∧ IsCall functions e c ∧
    Relation.ReflTransGen (Calls functions) c f ∧ ReadsIn functions f sym

variable {functions} {worklist : List Symbol} {visited : Finset Symbol}

/-- A chain that leaves the visited functions does so through the worklist. -/
theorem chain_leaves (hclosed : ∀ v ∈ visited, ∀ g, Calls functions v g → g ∈ visited ∨ g ∈ worklist)
    {v f : Symbol} (hv : v ∈ visited) (h : Relation.ReflTransGen (Calls functions) v f) :
    f ∈ visited ∨ ∃ c ∈ worklist, Relation.ReflTransGen (Calls functions) c f := by
  induction h using Relation.ReflTransGen.head_induction_on with
  | refl => exact .inl hv
  | head hcall hrest ih => grind

theorem mem_visitFunctions (h : visitFunctions functions fuel worklist visited out = .ok out')
    (hclosed : ∀ v ∈ visited, ∀ g, Calls functions v g → g ∈ visited ∨ g ∈ worklist)
    (hreads : ∀ v ∈ visited, ∀ sym, ReadsIn functions v sym → sym ∈ out) (sym : Symbol) :
    sym ∈ out' ↔ sym ∈ out ∨
      ∃ c ∈ worklist, ∃ f, Relation.ReflTransGen (Calls functions) c f ∧ ReadsIn functions f sym := by
  induction fuel generalizing worklist visited out with
  | zero =>
    cases worklist with
    | nil =>
      cases h
      simp
    | cons => cases h
  | succ fuel ih =>
    cases worklist with
    | nil =>
      cases h
      simp
    | cons c worklist =>
      -- Functions visited before read only what was found, or go on through the worklist.
      have hold : ∀ {visited : Finset Symbol} {ws out : List Symbol},
          (∀ v ∈ visited, ∀ g, Calls functions v g → g ∈ visited ∨ g ∈ ws) →
          (∀ v ∈ visited, ∀ sym, ReadsIn functions v sym → sym ∈ out) → c ∈ visited →
          ∀ f, Relation.ReflTransGen (Calls functions) c f → ReadsIn functions f sym →
            sym ∈ out ∨ ∃ d ∈ ws, ∃ f, Relation.ReflTransGen (Calls functions) d f ∧
              ReadsIn functions f sym := by
        intro visited ws out hclosed hreads hc f hchain hf
        rcases chain_leaves hclosed hc hchain with hmem | ⟨d, hd, hchain⟩
        · exact .inl (hreads f hmem sym hf)
        · exact .inr ⟨d, hd, f, hchain, hf⟩
      unfold visitFunctions at h
      split at h
      · rename_i hc
        have hclosed' : ∀ v ∈ visited, ∀ g, Calls functions v g → g ∈ visited ∨ g ∈ worklist := by grind
        rw [ih h hclosed' hreads]
        constructor
        · exact Or.imp_right fun ⟨d, hd, hrest⟩ => ⟨d, mem_cons_of_mem _ hd, hrest⟩
        · rintro (hout | ⟨d, hd, f, hchain, hf⟩)
          · exact .inl hout
          rcases mem_cons.mp hd with rfl | hd
          · exact hold hclosed' hreads hc f hchain hf
          · exact .inr ⟨d, hd, f, hchain, hf⟩
      rename_i hc
      split at h
      · rename_i hlookup
        have hno : ∀ g, ¬Calls functions c g := fun g ⟨func, hfunc, _⟩ => by simp [hlookup] at hfunc
        have hnone : ∀ sym, ¬ReadsIn functions c sym := fun sym ⟨func, hfunc, _⟩ => by
          simp [hlookup] at hfunc
        have hclosed' : ∀ v ∈ insert c visited, ∀ g, Calls functions v g →
            g ∈ insert c visited ∨ g ∈ worklist := by
          intro v hv g hcall
          rcases Finset.mem_insert.mp hv with rfl | hv
          · exact absurd hcall (hno g)
          · grind
        have hreads' : ∀ v ∈ insert c visited, ∀ sym, ReadsIn functions v sym → sym ∈ out := by grind
        rw [ih h hclosed' hreads']
        constructor
        · exact Or.imp_right fun ⟨d, hd, hrest⟩ => ⟨d, mem_cons_of_mem _ hd, hrest⟩
        · grind
      · rename_i func hlookup
        obtain ⟨out₁, hfree, h⟩ := Exec.except_of_bind_ok h
        obtain ⟨nested, hnested, h⟩ := Exec.except_of_bind_ok h
        have hread : ∀ sym, sym ∈ out₁ ↔ sym ∈ out ∨ ReadsIn functions c sym := by
          intro sym
          rw [mem_collectFreeVars hfree]
          refine or_congr_right ⟨fun hfree => ⟨func, hlookup, hfree⟩, fun ⟨func', hfunc, hfree⟩ => ?_⟩
          obtain rfl := Option.some.inj (hlookup.symm.trans hfunc)
          exact hfree
        have hcalls : ∀ g, g ∈ nested ↔ Calls functions c g := by
          intro g
          rw [mem_collectCalls hnested]
          simp only [not_mem_nil, false_or]
          refine ⟨fun hcall => ⟨func, hlookup, hcall⟩, fun ⟨func', hfunc, hcall⟩ => ?_⟩
          obtain rfl := Option.some.inj (hlookup.symm.trans hfunc)
          exact hcall
        have hclosed' : ∀ v ∈ insert c visited, ∀ g, Calls functions v g →
            g ∈ insert c visited ∨ g ∈ nested ++ worklist := by
          intro v hv g hcall
          rcases Finset.mem_insert.mp hv with rfl | hv
          · exact .inr (mem_append_left _ ((hcalls g).mpr hcall))
          · grind
        have hreads' : ∀ v ∈ insert c visited, ∀ sym, ReadsIn functions v sym → sym ∈ out₁ := by grind
        rw [ih h hclosed' hreads', hread]
        constructor
        · rintro ((hout | hsym) | ⟨d, hd, f, hchain, hf⟩)
          · exact .inl hout
          · exact .inr ⟨c, mem_cons_self, c, .refl, hsym⟩
          · rcases mem_append.mp hd with hd | hd
            · exact .inr ⟨c, mem_cons_self, f, .head ((hcalls d).mp hd) hchain, hf⟩
            · exact .inr ⟨d, mem_cons_of_mem _ hd, f, hchain, hf⟩
        · grind [Relation.ReflTransGen.cases_head, mem_append_left, mem_append_right]

theorem mem_collectReachableFunctionReads {t : ExprTree}
    (h : collectReachableFunctionReads functions t out = .ok out') (sym : Symbol) :
    sym ∈ out' ↔ sym ∈ out ∨ ReadsThrough functions t sym := by
  obtain ⟨calls, hcalls, h⟩ := Exec.except_of_bind_ok h
  rw [mem_visitFunctions h (fun v hv => nomatch hv) (fun v hv => nomatch hv)]
  refine or_congr_right ⟨?_, ?_⟩
  · rintro ⟨c, hc, f, hchain, hf⟩
    obtain ⟨e, hbelow, hcall⟩ := ((mem_collectCalls hcalls c).mp hc).resolve_left (by simp)
    exact ⟨e, c, f, hbelow, hcall, hchain, hf⟩
  · rintro ⟨e, c, f, hbelow, hcall, hchain, hf⟩
    exact ⟨c, (mem_collectCalls hcalls c).mpr (.inr ⟨e, hbelow, hcall⟩), f, hchain, hf⟩

end Chains

/-! ## The collectors return -/

/-- Every function's body was built by the parser. -/
def FunctionTable.Ordered (functions : FunctionTable) : Prop :=
  ∀ f func, functions.lookup f = some func → func.body.arena.Ordered

section Total

variable {a : ExprArena}

theorem foldlM_total {α β : Type} {f : α → β → Walk α} {xs : List β}
    (hf : ∀ x ∈ xs, ∀ out, ∃ out', f out x = .ok out') (out : α) :
    ∃ out', xs.foldlM f out = .ok out' := by
  induction xs generalizing out with
  | nil => exact ⟨out, rfl⟩
  | cons x xs ih =>
    obtain ⟨mid, hx⟩ := hf x (by simp) out
    obtain ⟨out', h⟩ := ih (fun y hy => hf y (by simp [hy])) mid
    refine ⟨out', ?_⟩
    rw [foldlM_cons, hx]
    exact h

/-- The children of a node that the parser built are nodes built before it. -/
theorem ExprArena.Ordered.child (h : a.Ordered) {id : Nat} (hid : id < a.nodes.length)
    (he : e ∈ a.children (a.get id)) : ∃ child < id, child < a.nodes.length ∧ e = a.get child := by
  rw [children_eq, mem_map] at he
  obtain ⟨child, hchild, rfl⟩ := he
  have hlt := h id hid child hchild
  exact ⟨child, hlt, hlt.trans hid, rfl⟩

theorem walkExpr_total (h : a.Ordered) {α : Type} (visit : Expr → α → α) {fuel id : Nat}
    (hid : id < a.nodes.length) (hfuel : id < fuel) (out : α) :
    ∃ out', walkExpr visit a fuel (a.get id) out = .ok out' := by
  induction fuel generalizing id out with
  | zero => omega
  | succ fuel ih =>
    refine foldlM_total (fun e he out => ?_) _
    obtain ⟨child, hlt, hchild, rfl⟩ := h.child hid he
    exact ih hchild (by omega) out

theorem collectCalls_total (functions : FunctionTable) (h : a.Ordered) {fuel id : Nat}
    (hid : id < a.nodes.length) (hfuel : id < fuel) :
    ∃ calls, collectCalls functions a fuel (a.get id) [] = .ok calls :=
  walkExpr_total h _ hid hfuel []

theorem collectFreeVars_total (h : a.Ordered) {fuel id : Nat}
    (hid : id < a.nodes.length) (hfuel : id < fuel) (B : Finset Symbol) (out : List Symbol) :
    ∃ out', collectFreeVars a fuel (a.get id) B out = .ok out' := by
  induction fuel generalizing id B out with
  | zero => omega
  | succ fuel ih =>
    have hchild : ∀ e ∈ a.children (a.get id), ∀ B out,
        ∃ out', collectFreeVars a fuel e B out = .ok out' := by
      intro e he B out
      obtain ⟨child, hlt, hchild, rfl⟩ := h.child hid he
      exact ih hchild (by omega) B out
    revert hchild
    cases a.get id with
    | var x => exact fun _ => ⟨_, rfl⟩
    | letIn x v b =>
      intro hchild
      obtain ⟨mid, hv⟩ := hchild (a.get v) (by simp [ExprArena.children]) B out
      obtain ⟨out', hb⟩ := hchild (a.get b) (by simp [ExprArena.children]) (insert x B) mid
      refine ⟨out', ?_⟩
      unfold collectFreeVars
      simp only [hv]
      exact hb
    | _ => exact fun hchild => foldlM_total (fun e he => hchild e he B) out

theorem ExprArena.childIds_lt (he : e ∈ a.nodes) : ∀ child ∈ a.childIds e, child < a.nodes.length := by
  intro child hchild
  have hv := a.nodes_valid e he
  cases e with
  | functionCall f start len =>
    exact a.pool_valid child (mem_of_mem_drop (mem_of_mem_take hchild))
  | _ =>
    simp only [Expr.refsValid, Bool.and_eq_true, decide_eq_true_eq] at hv
    all_goals simp only [childIds, mem_cons, not_mem_nil, or_false] at hchild
    all_goals grind

theorem ExprArena.Below.mem_nodes {e e' : Expr} (h : a.Below e e') (he : e ∈ a.nodes) :
    e' ∈ a.nodes := by
  induction h with
  | refl => exact he
  | step hchild _ ih => grind [children_eq, get_mem, childIds_lt]

theorem walkExpr_nodup (hvisit : ∀ e out, out.Nodup → (visit e out).Nodup)
    (h : walkExpr visit a fuel e out = .ok out') (hout : out.Nodup) : out'.Nodup := by
  induction fuel generalizing e out out' with
  | zero => cases h
  | succ fuel ih =>
    have hfold : ∀ (es : List Expr) (out out' : List Symbol), out.Nodup →
        es.foldlM (fun out e => walkExpr visit a fuel e out) out = .ok out' → out'.Nodup := by
      intro es
      induction es with
      | nil =>
        intro out out' hout h
        cases h
        exact hout
      | cons e es ihes =>
        intro out out' hout h
        obtain ⟨mid, hmid, h⟩ := foldlM_ok_cons h
        exact ihes mid out' (ih hmid hout) h
    exact hfold _ _ _ (hvisit e out hout) h

/-- An expression calls at most as many functions as its arena has nodes. -/
theorem collectCalls_length (functions : FunctionTable) {t : ExprTree}
    {calls : List Symbol} (h : collectCalls functions t.arena fuel t.rootExpr [] = .ok calls) :
    calls.length ≤ t.arena.nodes.length := by
  have hnodup : calls.Nodup := by
    refine walkExpr_nodup (fun e out hout => ?_) h nodup_nil
    cases e with
    | var sym => grind
    | functionCall name start len => exact hout.insert
    | _ => exact hout
  let name : Expr → Symbol := fun e =>
    match e with
    | .var sym => sym
    | .functionCall sym _ _ => sym
    | _ => ⟨0⟩
  have hsub : calls ⊆ t.arena.nodes.map name := by
    intro f hf
    obtain ⟨e, hbelow, hcall⟩ := ((mem_collectCalls h f).mp hf).resolve_left (by simp)
    refine mem_map.mpr ⟨e, hbelow.mem_nodes (ExprArena.get_mem t.root_valid), ?_⟩
    rcases hcall with ⟨start, len, rfl⟩ | ⟨rfl, -⟩
    · rfl
    · rfl
  simpa using (hnodup.subperm hsub).length_le

/-- How many calls a function can add to the worklist. -/
def bodySize (functions : FunctionTable) (sym : Symbol) : Nat :=
  match functions.lookup sym with
  | some func => func.body.arena.nodes.length
  | none => 0

theorem visitFunctions_total (hfunctions : functions.Ordered)
    {worklist : List Symbol} {visited : Finset Symbol}
    (hfuel : worklist.length + (functions.keys \ visited).sum (bodySize functions) ≤ fuel)
    (out : List Symbol) : ∃ out', visitFunctions functions fuel worklist visited out = .ok out' := by
  induction fuel generalizing worklist visited out with
  | zero =>
    obtain rfl : worklist = [] := eq_nil_of_length_eq_zero (by omega)
    exact ⟨out, rfl⟩
  | succ fuel ih =>
    cases worklist with
    | nil => exact ⟨out, rfl⟩
    | cons sym worklist =>
      rw [length_cons] at hfuel
      unfold visitFunctions
      split
      · exact ih (by omega) out
      rename_i hvisited
      split
      · refine ih ?_ out
        have hle : (functions.keys \ insert sym visited).sum (bodySize functions) ≤
            (functions.keys \ visited).sum (bodySize functions) :=
          Finset.sum_le_sum_of_subset (Finset.sdiff_subset_sdiff (Finset.Subset.refl _)
            (Finset.subset_insert _ _))
        omega
      · rename_i func hlookup
        have hord := hfunctions sym func hlookup
        have hroot := func.body.root_valid
        obtain ⟨out₁, hfree⟩ := collectFreeVars_total hord hroot
          (Nat.lt_succ_of_lt hroot) func.paramNames out
        obtain ⟨nested, hnested⟩ := collectCalls_total functions hord hroot (Nat.lt_succ_of_lt hroot)
        have hlen := collectCalls_length functions hnested
        have hkey : sym ∈ functions.keys \ visited := by
          grind [Finmap.mem_keys, Finmap.mem_of_lookup_eq_some]
        have hsum : bodySize functions sym +
            ((functions.keys \ visited).erase sym).sum (bodySize functions) =
              (functions.keys \ visited).sum (bodySize functions) := Finset.add_sum_erase _ _ hkey
        have herase : (functions.keys \ visited).erase sym = functions.keys \ insert sym visited := by grind
        have hsize : bodySize functions sym = func.body.arena.nodes.length := by
          simp [bodySize, hlookup]
        rw [herase, hsize] at hsum
        have hrest : (nested ++ worklist).length +
            (functions.keys \ insert sym visited).sum (bodySize functions) ≤ fuel := by
          rw [length_append]
          omega
        obtain ⟨out', h⟩ := ih hrest out₁
        refine ⟨out', ?_⟩
        simp only [ExprTree.rootExpr, walkFuel, hfree, hnested]
        exact h

theorem collectReachableFunctionReads_total
    (hfunctions : functions.Ordered) {t : ExprTree} (ht : t.arena.Ordered) (out : List Symbol) :
    ∃ out', collectReachableFunctionReads functions t out = .ok out' := by
  obtain ⟨calls, hcalls⟩ := collectCalls_total functions ht t.root_valid
    (Nat.lt_succ_of_lt t.root_valid)
  have hfuel : calls.length + (functions.keys \ ∅).sum (bodySize functions) ≤
      visitFuel functions calls := by
    rw [Finset.sdiff_empty]
    exact Nat.le_refl _
  obtain ⟨out', h⟩ := visitFunctions_total hfunctions hfuel out
  refine ⟨out', ?_⟩
  simp only [collectReachableFunctionReads, ExprTree.rootExpr, walkFuel, hcalls]
  exact h

end Total

end Mizu
