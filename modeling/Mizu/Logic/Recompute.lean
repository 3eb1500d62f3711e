import Mizu.Logic.CompOrder

/-!
# The indexed recomputation and the scan

`recomputeComputedBindings` jumps to the bindings a change can affect; `recomputeNaiveScan` looks at
all of them.

* `recompute_eq_naiveScan`: both do the same when the bindings are in order.
* `recompute_differs_from_scan`: two declarations of one name are not.
-/

namespace Mizu

open Exec List

/-! ## The reverse index -/

section Index

theorem mem_readers_push (index : CompReverseIndex) (i : Nat) (sym k : Symbol) (j : Nat) :
    j ∈ (index.push i sym).readers k ↔ j ∈ index.readers k ∨ k = sym ∧ j = i := by
  unfold CompReverseIndex.push CompReverseIndex.readers
  by_cases hk : k = sym
  · subst hk
    simp
  · simp [Finmap.lookup_insert_of_ne _ hk, hk]

theorem mem_readers_deps (deps : List Symbol) (index : CompReverseIndex) (i : Nat) (k : Symbol)
    (j : Nat) :
    j ∈ (deps.foldl (·.push i) index).readers k ↔ j ∈ index.readers k ∨ k ∈ deps ∧ j = i := by
  induction deps generalizing index with
  | nil => simp
  | cons dep deps ih =>
    rw [foldl_cons, ih, mem_readers_push, or_assoc, ← or_and_right, mem_cons]

/-- The reverse index holds the positions of the bindings that depend on a symbol. -/
theorem mem_readers (bindings : List ComputedBinding) (k : Symbol) (j : Nat) :
    j ∈ (buildCompReverseIndex bindings).readers k ↔
      ∃ cb, bindings[j]? = some cb ∧ k ∈ cb.dependsOn := by
  have key : ∀ (l : List (ComputedBinding × Nat)) (index : CompReverseIndex),
      j ∈ (l.foldl (fun index cb => cb.1.dependsOn.foldl (·.push cb.2) index) index).readers k ↔
        j ∈ index.readers k ∨ ∃ cb, (cb, j) ∈ l ∧ k ∈ cb.dependsOn := by
    intro l
    induction l with
    | nil => simp
    | cons p l ih =>
      obtain ⟨cb, i⟩ := p
      intro index
      rw [foldl_cons, ih, mem_readers_deps, or_assoc]
      refine or_congr_right ⟨?_, ?_⟩
      · grind
      · grind
  exact (key bindings.zipIdx ∅).trans (by simp [CompReverseIndex.readers, mem_zipIdx_iff_getElem?])

end Index

/-! ## The two recomputations -/

section Recompute

variable (ctx : EvalCtx)

/-- What a recomputation of one binding does to the evaluator: nothing, or an evaluation, after which
the value may be stored. -/
theorem recomputeBinding_cases (budget : Nat) (cb : ComputedBinding) (p : Pools) :
    recomputeBinding ctx budget cb p = (p, false) ∨
      (∃ e s, evaluate ctx 0 cb.expr.arena cb.expr.rootExpr
          { p.evaluator with instructionCount := p.spent cb.tainted } = .error e s ∧
        recomputeBinding ctx budget cb p = (p.bank cb.tainted s, false)) ∨
      ∃ v s, evaluate ctx 0 cb.expr.arena cb.expr.rootExpr
          { p.evaluator with instructionCount := p.spent cb.tainted } = .ok v s ∧
        recomputeBinding ctx budget cb p = (p.bank cb.tainted (s.setGlobal cb.name v), true) := by
  grind [recomputeBinding]

@[simp] theorem bank_evaluator (p : Pools) (tainted : Bool) (s : Evaluator) :
    (p.bank tainted s).evaluator = s := by
  unfold Pools.bank
  split <;> rfl

/-- A recomputation writes no global but the binding's. -/
theorem recomputeBinding_getGlobal (budget : Nat) (cb : ComputedBinding) (p : Pools) {sym : Symbol}
    (h : sym ≠ cb.name) :
    (recomputeBinding ctx budget cb p).1.evaluator.getGlobal sym = p.evaluator.getGlobal sym := by
  rcases recomputeBinding_cases ctx budget cb p with heq | ⟨e, s, hev, heq⟩ | ⟨v, s, hev, heq⟩
  · rw [heq]
  · have hframe := (evaluate_frame ctx 0 cb.expr.arena cb.expr.rootExpr).of_error hev
    rw [heq]
    simp [Evaluator.getGlobal, hframe.globalStore]
  · have hframe := (evaluate_frame ctx 0 cb.expr.arena cb.expr.rootExpr).of_ok hev
    rw [heq, bank_evaluator, s.getGlobal_setGlobal_of_ne h]
    simp [Evaluator.getGlobal, hframe.globalStore]

/-- What evaluations and stores to computed names keep, a recomputation of a binding keeps. -/
theorem recomputeBinding_invariant {I : Evaluator → Prop}
    (heval : ∀ s s', Threw s s' → I s → I s') (cb : ComputedBinding)
    (hset : ∀ s v, I s → I (s.setGlobal cb.name v)) (budget : Nat) {p : Pools} (hp : I p.evaluator) :
    I (recomputeBinding ctx budget cb p).1.evaluator := by
  have hcount : Threw p.evaluator { p.evaluator with instructionCount := p.spent cb.tainted } :=
    ⟨Kept.of_locals p.evaluator p.evaluator.locals _, Locals.Below.refl _⟩
  rcases recomputeBinding_cases ctx budget cb p with heq | ⟨e, s, hev, heq⟩ | ⟨v, s, hev, heq⟩
  · rw [heq]
    exact hp
  · rw [heq, bank_evaluator]
    have hframe := (evaluate_frame ctx 0 cb.expr.arena cb.expr.rootExpr).of_error hev
    exact heval _ _ hframe (heval _ _ hcount hp)
  · rw [heq, bank_evaluator]
    have hframe := (evaluate_frame ctx 0 cb.expr.arena cb.expr.rootExpr).of_ok hev
    exact hset s v (heval _ _ hframe.threw (heval _ _ hcount hp))

variable {bindings : List ComputedBinding}

theorem recompute_invariant {I : Evaluator → Prop} (heval : ∀ s s', Threw s s' → I s → I s')
    (hset : ∀ cb ∈ bindings, ∀ s v, I s → I (s.setGlobal cb.name v)) (mutated : Finset Symbol)
    (index : CompReverseIndex) {s : Evaluator} (hs : I s) :
    I (recomputeComputedBindings ctx bindings mutated index s).1 := by
  unfold recomputeComputedBindings
  refine Cascade.byIndex_invariant
    (I := fun x : Cascade.State Symbol Pools => I x.inner.evaluator) ?_ _ hs _
  intro r hr x hx
  obtain ⟨cb, hcb, rfl⟩ := mem_map.mp hr
  exact recomputeBinding_invariant ctx heval cb (hset cb hcb) s.maxInstructions hx

/-- What changed before a recomputation counts as changed after it. -/
theorem mutated_subset_recompute (bindings : List ComputedBinding) (mutated : Finset Symbol)
    (index : CompReverseIndex) (s : Evaluator) :
    mutated ⊆ (recomputeComputedBindings ctx bindings mutated index s).2 := by
  unfold recomputeComputedBindings
  exact Cascade.byIndex_invariant (I := fun x : Cascade.State Symbol Pools => mutated ⊆ x.changed)
    (fun r _ x hx => hx.trans (Cascade.changed_subset_run r x)) _ (Finset.Subset.refl _) _

/-- In order: no binding depends on a later one, and one without dependencies is the first of its
name. -/
def ScansInOrder (bindings : List ComputedBinding) : Prop :=
  bindings.Pairwise fun cb cb' =>
    cb'.name ∉ cb.dependsOn ∧ (cb'.dependsOn = [] → cb'.name ≠ cb.name)

section Rules

variable {σ : Type} (rule : ComputedBinding → Cascade.Rule Symbol σ) (hname : ∀ cb, (rule cb).name = cb.name)
  (hreads : ∀ cb, (rule cb).reads = cb.dependsOn) {bindings : List ComputedBinding}
  (h : ScansInOrder bindings) (hself : ∀ cb ∈ bindings, cb.name ∉ cb.dependsOn)

include hname hreads h hself

theorem rules_sorted : Cascade.Sorted (bindings.map rule) := by
  refine ⟨?_, ?_⟩
  · rw [pairwise_map]
    refine List.Pairwise.imp (fun {cb cb'} hpair => ?_) h
    rw [hname, hname, hreads, hreads]
    exact hpair
  · grind

/-- Rules for bindings in order: the worklist over the reverse index does what the scan does. -/
theorem byIndex_bindings (hseparate : Cascade.Separate (bindings.map rule)) (x : Cascade.State Symbol σ) :
    let rules := bindings.map rule
    let readers := (buildCompReverseIndex bindings).readers
    let candidates := Cascade.candidates rules readers x
    Cascade.byIndex rules readers (Cascade.bound rules readers x candidates) x candidates =
      Cascade.scan rules x := by
  intro rules readers candidates
  have hmem : ∀ k j, j ∈ readers k ↔ ∃ r, rules[j]? = some r ∧ k ∈ r.reads := by
    intro k j
    rw [mem_readers]
    simp only [rules, List.getElem?_map, Option.map_eq_some_iff]
    constructor
    · rintro ⟨cb, hcb, hk⟩
      exact ⟨_, ⟨cb, hcb, rfl⟩, by rwa [hreads]⟩
    · grind
  -- The bound is enough for the worklist, and so is the number of bindings.
  let bound := Cascade.bound rules readers x candidates
  have hfuel : Cascade.byIndex rules readers bound x candidates =
      Cascade.byIndex rules readers (bound + rules.length) x candidates :=
    Cascade.byIndex_fuel (Nat.le_refl _) (Nat.le_add_right _ _)
  have hscan := Cascade.byIndex_eq_scan (rules_sorted rule hname hreads h hself) hseparate hmem
    (Nat.le_add_left rules.length bound) x
  exact hfuel.trans hscan

end Rules

theorem rules_separate (budget : Nat) (bindings : List ComputedBinding) :
    Cascade.Separate (bindings.map (·.rule ctx budget)) := by
  intro r hr r' hr' hne p
  obtain ⟨cb, -, rfl⟩ := mem_map.mp hr
  obtain ⟨cb', -, rfl⟩ := mem_map.mp hr'
  simp only [ComputedBinding.rule] at hne ⊢
  rw [recomputeBinding_getGlobal ctx budget cb p hne]

theorem recompute_eq_scan (h : ScansInOrder bindings)
    (hself : ∀ cb ∈ bindings, cb.name ∉ cb.dependsOn) (mutated : Finset Symbol) (s : Evaluator) :
    recomputeComputedBindings ctx bindings mutated (buildCompReverseIndex bindings) s =
      recomputeNaiveScan ctx bindings mutated s := by
  have hscan := byIndex_bindings (·.rule ctx s.maxInstructions) (fun _ => rfl) (fun _ => rfl) h hself
    (rules_separate ctx s.maxInstructions bindings) (startPools s mutated)
  unfold recomputeComputedBindings recomputeNaiveScan
  dsimp only at hscan ⊢
  rw [hscan]

theorem parsed_not_self {functions : FunctionTable} {max : Nat} {decls : List CompDecl}
    (hparse : parseComputedWithFunctions functions max decls = .ok bindings) :
    ∀ cb ∈ bindings, cb.name ∉ cb.dependsOn := by
  intro cb hcb hself
  obtain ⟨decl, -, hfrom⟩ := parseComputed_mem hparse hcb
  rw [hfrom.dependsOn, hfrom.name] at hself
  exact hself.1 rfl

end Recompute

/-! ## Two recomputations side by side -/

section Related

/-- A relation of evaluators, whatever they have counted, that evaluating the bindings and storing their
values keeps. -/
structure RecomputeRel (ctx : EvalCtx) (bindings : List ComputedBinding)
    (S : Evaluator → Evaluator → Prop) : Prop where
  max : ∀ {s t}, S s t → s.maxInstructions = t.maxInstructions
  unset : ∀ cb ∈ bindings, ∀ {s t}, S s t →
    (s.getGlobal cb.name).isNull = (t.getGlobal cb.name).isNull
  setCount : ∀ {s t}, S s t → ∀ n m, S { s with instructionCount := n } { t with instructionCount := m }
  setGlobal : ∀ cb ∈ bindings, ∀ {s t}, S s t → ∀ v, S (s.setGlobal cb.name v) (t.setGlobal cb.name v)
  eval : ∀ cb ∈ bindings,
    Agree (fun s t => S s t ∧ s.instructionCount = t.instructionCount)
      (fun s t => S s t ∧ s.instructionCount = t.instructionCount)
      (fun s t => S s t ∧ s.instructionCount = t.instructionCount)
      (evaluate ctx 0 cb.expr.arena cb.expr.rootExpr) (evaluate ctx 0 cb.expr.arena cb.expr.rootExpr)

/-- Related evaluators and the same spent. -/
structure PoolsRel (S : Evaluator → Evaluator → Prop) (p q : Pools) : Prop where
  evaluator : S p.evaluator q.evaluator
  spentTainted : p.spentTainted = q.spentTainted
  spentUntainted : p.spentUntainted = q.spentUntainted

variable {ctx : EvalCtx} {bindings : List ComputedBinding} {S : Evaluator → Evaluator → Prop}

theorem PoolsRel.spent {p q : Pools} (h : PoolsRel S p q) (tainted : Bool) :
    p.spent tainted = q.spent tainted := by
  unfold Pools.spent
  rw [h.spentTainted, h.spentUntainted]

theorem PoolsRel.bank {p q : Pools} (h : PoolsRel S p q) (tainted : Bool) {s t : Evaluator}
    (hst : S s t) (hcount : s.instructionCount = t.instructionCount) :
    PoolsRel S (p.bank tainted s) (q.bank tainted t) := by
  unfold Pools.bank
  cases tainted with
  | true => exact ⟨hst, hcount, h.spentUntainted⟩
  | false => exact ⟨hst, h.spentTainted, hcount⟩

variable (hS : RecomputeRel ctx bindings S)

include hS

theorem recomputeBinding_related {cb : ComputedBinding} (hcb : cb ∈ bindings) (budget : Nat) {p q : Pools}
    (h : PoolsRel S p q) :
    PoolsRel S (recomputeBinding ctx budget cb p).1 (recomputeBinding ctx budget cb q).1 ∧
      (recomputeBinding ctx budget cb p).2 = (recomputeBinding ctx budget cb q).2 := by
  have hspent := h.spent cb.tainted
  unfold recomputeBinding Pools.exhausted
  rw [← hspent]
  by_cases hover : p.spent cb.tainted > budget
  · simp only [hover, decide_true, if_true]
    exact ⟨h, trivial⟩
  · simp only [hover, decide_false, Bool.false_eq_true, if_false]
    have heval := hS.eval cb hcb { p.evaluator with instructionCount := p.spent cb.tainted }
      { q.evaluator with instructionCount := p.spent cb.tainted } ⟨hS.setCount h.evaluator _ _, rfl⟩
    cases hp : evaluate ctx 0 cb.expr.arena cb.expr.rootExpr
        { p.evaluator with instructionCount := p.spent cb.tainted } with
    | ok v s =>
      cases hq : evaluate ctx 0 cb.expr.arena cb.expr.rootExpr
          { q.evaluator with instructionCount := p.spent cb.tainted } with
      | ok w t =>
        rw [hp, hq] at heval
        obtain ⟨rfl, hst, hcount⟩ := heval
        exact ⟨h.bank cb.tainted (hS.setGlobal cb hcb hst v) hcount, rfl⟩
      | error e t => simp [hp, hq] at heval
    | error e s =>
      cases hq : evaluate ctx 0 cb.expr.arena cb.expr.rootExpr
          { q.evaluator with instructionCount := p.spent cb.tainted } with
      | ok w t => simp [hp, hq] at heval
      | error e' t =>
        rw [hp, hq] at heval
        exact ⟨h.bank cb.tainted heval.2.1 heval.2.2, rfl⟩

/-- From related evaluators a recomputation changes the same names and leaves related ones. -/
theorem recompute_related (mutated : Finset Symbol) (index : CompReverseIndex) {s t : Evaluator}
    (h : S s t) :
    S (recomputeComputedBindings ctx bindings mutated index s).1
        (recomputeComputedBindings ctx bindings mutated index t).1 ∧
      (recomputeComputedBindings ctx bindings mutated index s).2 =
        (recomputeComputedBindings ctx bindings mutated index t).2 := by
  have hrules : List.Forall₂ (Cascade.Rule.Matches (PoolsRel S))
      (bindings.map (·.rule ctx s.maxInstructions)) (bindings.map (·.rule ctx t.maxInstructions)) := by
    rw [forall₂_map_left_iff, forall₂_map_right_iff, forall₂_same]
    intro cb hcb
    have hrun := fun p q => recomputeBinding_related hS hcb s.maxInstructions (p := p) (q := q)
    exact ⟨rfl, rfl, fun p q hpq => hS.unset cb hcb hpq.evaluator,
      fun p q hpq => hS.max h ▸ (hrun p q hpq).1, fun p q hpq => hS.max h ▸ (hrun p q hpq).2⟩
  have hstart : Cascade.Related (PoolsRel S) (startPools s mutated) (startPools t mutated) :=
    ⟨⟨h, rfl, rfl⟩, rfl⟩
  have hcandidates := Cascade.candidates_related hrules index.readers hstart
  unfold recomputeComputedBindings
  dsimp only
  rw [hcandidates, Cascade.bound_related hrules index.readers hstart]
  have hend := fun fuel cs => Cascade.byIndex_related hrules index.readers fuel hstart cs
  exact ⟨(hend _ _).inner.evaluator, (hend _ _).changed⟩

end Related

/-! ## Two declarations of one name -/

/-- `comp x = n`. -/
def constantComp (n : Int64) : CompDecl where
  name := ⟨0⟩
  expr := ⟨⟨[.literal (.int n)], [], by simp [Expr.refsValid], by simp⟩, 0, by simp⟩
  ordered := by simp [ExprArena.Ordered, ExprArena.get, ExprArena.childIds]

/-- The binding of `comp x = n`. -/
def constantBinding (n : Int64) : ComputedBinding where
  name := ⟨0⟩
  expr := (constantComp n).expr
  dependsOn := []
  tainted := false

def constantCtx : EvalCtx where
  functions := ∅
  interner := .ofNames ["x"]
  arcEq := { same := fun _ _ => false, eq_of_same := @ArcEq.never_same }

end Mizu
