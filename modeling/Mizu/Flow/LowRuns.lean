import Mizu.Flow.Clean
import Mizu.Lib.CascadeLow
import Mizu.Logic.Action
import Mizu.Logic.Current

/-!
# Evaluators that differ in high variables

* `recompute_low`: recomputations from evaluators that agree on the low variables end so.
* `recompute_aside`: a recomputation after a change of high variables shows in high variables only.
* `executeAction_low`: an action of the document, run on both sides.
* `executeAction_navigates`: a navigation to a URL in which no taint is found, run on both sides.
-/

namespace Mizu

open Exec List

/-! ## The relation -/

section Relation

variable {D : Symbol → Prop} {s s' s'' : Evaluator}

theorem SameOutside.refl (D : Symbol → Prop) (s : Evaluator) : SameOutside D s s :=
  ⟨fun _ _ => rfl, rfl, rfl, rfl, rfl⟩

theorem SameOutside.symm (h : SameOutside D s s') : SameOutside D s' s :=
  ⟨fun sym hsym => (h.globals sym hsym).symm, h.locals.symm, h.max.symm, h.depth.symm, h.computed.symm⟩

theorem SameOutside.trans (h : SameOutside D s s') (h' : SameOutside D s' s'') : SameOutside D s s'' :=
  ⟨fun sym hsym => (h.globals sym hsym).trans (h'.globals sym hsym), h.locals.trans h'.locals,
    h.max.trans h'.max, h.depth.trans h'.depth, h.computed.trans h'.computed⟩

theorem SameOutside.setGlobal_same (h : SameOutside D s s') (sym : Symbol) (v : Value) :
    SameOutside D (s.setGlobal sym v) (s'.setGlobal sym v) where
  globals sym' hsym' := by
    by_cases hs : sym' = sym
    · rw [hs, s.getGlobal_setGlobal_self, s'.getGlobal_setGlobal_self]
    · rw [s.getGlobal_setGlobal_of_ne hs, s'.getGlobal_setGlobal_of_ne hs, h.globals sym' hsym']
  locals := h.locals
  max := h.max
  depth := h.depth
  computed := h.computed

/-- In addition the same low variables are logged. -/
structure SameLogged (D : Symbol → Prop) (s s' : Evaluator) : Prop extends SameOutside D s s' where
  logged : ∀ sym, ¬D sym → (sym ∈ s.undoLog.map (·.1) ↔ sym ∈ s'.undoLog.map (·.1))

theorem SameLogged.refl (D : Symbol → Prop) (s : Evaluator) : SameLogged D s s :=
  ⟨.refl D s, fun _ _ => Iff.rfl⟩

theorem SameLogged.symm (h : SameLogged D s s') : SameLogged D s' s :=
  ⟨h.toSameOutside.symm, fun sym hsym => (h.logged sym hsym).symm⟩

theorem SameLogged.trans (h : SameLogged D s s') (h' : SameLogged D s' s'') : SameLogged D s s'' :=
  ⟨h.toSameOutside.trans h'.toSameOutside, fun sym hsym => (h.logged sym hsym).trans (h'.logged sym hsym)⟩

theorem SameLogged.of_kept (hkept : Kept s s') (hlocals : s'.locals = s.locals) : SameLogged D s s' :=
  ⟨sameOutside_of_kept hkept hlocals, fun sym _ => by rw [hkept.undoLog]⟩

theorem mem_logged_setGlobal (s : Evaluator) (sym sym' : Symbol) (v : Value) :
    sym' ∈ (s.setGlobal sym v).undoLog.map (·.1) ↔ sym' ∈ s.undoLog.map (·.1) ∨ sym' = sym := by
  simp [Evaluator.setGlobal]

theorem SameLogged.setGlobal_high (s : Evaluator) {sym : Symbol} (hsym : D sym) (v : Value) :
    SameLogged D s (s.setGlobal sym v) := by
  refine ⟨(SameOutside.refl D s).setGlobal hsym v, fun sym' hsym' => ?_⟩
  rw [mem_logged_setGlobal, or_iff_left]
  rintro rfl
  exact hsym' hsym

theorem SameLogged.setGlobal_same (h : SameLogged D s s') (sym : Symbol) (v : Value) :
    SameLogged D (s.setGlobal sym v) (s'.setGlobal sym v) := by
  refine ⟨h.toSameOutside.setGlobal_same sym v, fun sym' hsym' => ?_⟩
  rw [mem_logged_setGlobal, mem_logged_setGlobal, h.logged sym' hsym']

/-- Nothing low has this name. -/
def HighName (D : Symbol → Prop) (interner : Interner) (name : String) : Prop :=
  ∀ sym, interner.get name = some sym → D sym

theorem SameLogged.setRuntime_high {interner : Interner} {name : String} (hname : HighName D interner name)
    (s : Evaluator) (v : Value) : SameLogged D s (s.setRuntime interner name v) := by
  unfold Evaluator.setRuntime
  split
  · rename_i sym hsym
    exact .setGlobal_high s (hname sym hsym) v
  · exact .refl D s

theorem SameLogged.setRuntime_same (h : SameLogged D s s') (interner : Interner) (name : String) (v : Value) :
    SameLogged D (s.setRuntime interner name v) (s'.setRuntime interner name v) := by
  unfold Evaluator.setRuntime
  split
  · exact h.setGlobal_same _ v
  · exact h

end Relation

/-! ## A document and its runs -/

/-- A context in which the document is run: names may have been interned since the check. -/
structure Document.RunsIn (d : Document) (ctx : EvalCtx) : Prop where
  functions : ctx.functions = d.functions
  names : ctx.interner.WellFormed
  interner : ctx.interner.Extends d.interner

/-- What is known of a document that passes the check with this taint. -/
structure Document.Checked (d : Document) (t : Taint) : Prop where
  parsed : d.Parsed
  clock : d.ClockUndeclared
  closed : TaintClosed d t

section Document

variable {d : Document} {t : Taint} {ctx : EvalCtx} (hchecked : d.Checked t) (hctx : d.RunsIn ctx)

include hchecked hctx

/-- A name whose symbol the check has seen is one of the document's. -/
theorem get_of_low {name : String} {sym : Symbol} (hget : ctx.interner.get name = some sym)
    (hsym : ¬d.High t sym) : d.interner.get name = some sym ∧ sym ∉ t.vars := by
  obtain ⟨hvars, hknows⟩ := Document.not_high.mp hsym
  refine ⟨?_, hvars⟩
  rcases hchecked.parsed.interner.get_of_extends hctx.names hctx.interner hget with hold | hnew
  · exact hold
  · rw [Document.Knows, hnew] at hknows
    cases hknows

theorem highName_target {method : NetworkMethod} {aliasSym : Symbol} {payload pathParam : Option ExprTree}
    {targetVar : String} {format : PayloadFormat} {headers : List (String × ExprTree)}
    (hmem : .networkCall method aliasSym payload pathParam targetVar format headers ∈ d.actions) :
    HighName (d.High t) ctx.interner targetVar := by
  intro sym hget
  by_contra hlow
  obtain ⟨hold, hvars⟩ := get_of_low hchecked hctx hget hlow
  exact hvars (hchecked.closed.target _ _ _ _ _ _ _ hmem sym hold)

theorem highName_form : HighName (d.High t) ctx.interner "$form" := by
  intro sym hget
  by_contra hlow
  obtain ⟨hold, hvars⟩ := get_of_low hchecked hctx hget hlow
  exact hvars (hchecked.closed.form sym hold)

theorem evalTree_low {tree : ExprTree} (h : tree.Clean (d.interner.get "get_system_time") t)
    (hknown : d.KnowsAll tree) :
    Agree (SameCounted (d.High t)) (SameCounted (d.High t)) (SameCounted (d.High t))
      (evalTree ctx tree) (evalTree ctx tree) :=
  evaluate_low hchecked.parsed hchecked.closed hctx.functions hctx.interner h hknown

end Document

/-! ## Recomputation -/

theorem Locals.Below.antisymm {a b : Locals} (h : a.Below b) (h' : b.Below a) : b = a :=
  h.eq_of_length h'.length_le

/-- Pools with these locals that agree but on high variables and on what tainted bindings have spent. -/
structure PoolsLow (D : Symbol → Prop) (l : Locals) (p q : Pools) : Prop where
  evaluator : SameOutside D p.evaluator q.evaluator
  locals : p.evaluator.locals = l
  spent : p.spentUntainted = q.spentUntainted

variable {D : Symbol → Prop}

theorem PoolsLow.symm {l : Locals} {p q : Pools} (h : PoolsLow D l p q) : PoolsLow D l q p :=
  ⟨h.evaluator.symm, h.evaluator.locals.symm.trans h.locals, h.spent.symm⟩

section Binding

variable (ctx : EvalCtx) (budget : Nat) {D : Symbol → Prop} {l : Locals} {cb : ComputedBinding} {p q : Pools}

theorem recomputeBinding_below (cb : ComputedBinding) (p : Pools) :
    p.evaluator.locals.Below (recomputeBinding ctx budget cb p).1.evaluator.locals :=
  recomputeBinding_invariant ctx (I := fun s => p.evaluator.locals.Below s.locals)
    (fun _ _ hthrew hs => hs.trans hthrew.locals) cb (fun _ _ hs => hs) budget (Locals.Below.refl _)

/-- A tainted binding with a high name, recomputed on one side. -/
theorem recomputeBinding_aside (hname : D cb.name) (htainted : cb.tainted = true) (h : PoolsLow D l p q)
    (hbelow : (recomputeBinding ctx budget cb p).1.evaluator.locals.Below l) :
    PoolsLow D l (recomputeBinding ctx budget cb p).1 q := by
  have hlocals : (recomputeBinding ctx budget cb p).1.evaluator.locals = p.evaluator.locals :=
    (recomputeBinding_below ctx budget cb p).antisymm (h.locals.symm ▸ hbelow)
  have hcount : Kept p.evaluator { p.evaluator with instructionCount := p.spent cb.tainted } :=
    Kept.of_locals p.evaluator p.evaluator.locals _
  have hframe := evaluate_frame ctx 0 cb.expr.arena cb.expr.rootExpr
  rcases recomputeBinding_cases ctx budget cb p with heq | ⟨e, s, hrun, heq⟩ | ⟨v, s, hrun, heq⟩
  · rw [heq]
    exact h
  · rw [heq, bank_evaluator] at hlocals
    have hsame : SameOutside D p.evaluator s :=
      sameOutside_of_kept (hcount.trans (hframe.of_error hrun).toKept) hlocals
    rw [heq]
    refine ⟨?_, ?_, ?_⟩
    · rw [bank_evaluator]
      exact hsame.symm.trans h.evaluator
    · rw [bank_evaluator, hlocals, h.locals]
    · rw [htainted]
      exact h.spent
  · rw [heq, bank_evaluator] at hlocals
    have hsame : SameOutside D p.evaluator s :=
      sameOutside_of_kept (hcount.trans (hframe.of_ok hrun).toKept) hlocals
    rw [heq]
    refine ⟨?_, ?_, ?_⟩
    · rw [bank_evaluator]
      exact (hsame.setGlobal hname v).symm.trans h.evaluator
    · rw [bank_evaluator]
      exact hlocals.trans h.locals
    · rw [htainted]
      exact h.spent

/-- A binding whose value depends on low variables only, recomputed on both sides. -/
theorem recomputeBinding_alike
    (heval : Agree (SameCounted D) (SameCounted D) (SameCounted D)
      (evaluate ctx 0 cb.expr.arena cb.expr.rootExpr) (evaluate ctx 0 cb.expr.arena cb.expr.rootExpr))
    (htainted : cb.tainted = false) (h : PoolsLow D l p q)
    (hbelow : (recomputeBinding ctx budget cb p).1.evaluator.locals.Below l) :
    PoolsLow D l (recomputeBinding ctx budget cb p).1 (recomputeBinding ctx budget cb q).1 ∧
      (recomputeBinding ctx budget cb p).2 = (recomputeBinding ctx budget cb q).2 := by
  have hlocals : (recomputeBinding ctx budget cb p).1.evaluator.locals = p.evaluator.locals :=
    (recomputeBinding_below ctx budget cb p).antisymm (h.locals.symm ▸ hbelow)
  have hspent : q.spent cb.tainted = p.spent cb.tainted := by
    rw [htainted]
    exact h.spent.symm
  unfold recomputeBinding Pools.exhausted at hlocals ⊢
  rw [hspent]
  by_cases hover : p.spent cb.tainted > budget
  · simp only [hover, decide_true, if_true]
    exact ⟨h, trivial⟩
  · simp only [hover, decide_false, Bool.false_eq_true, if_false] at hlocals ⊢
    have hagree := heval { p.evaluator with instructionCount := p.spent cb.tainted }
      { q.evaluator with instructionCount := p.spent cb.tainted } (h.evaluator.counted _)
    cases hp : evaluate ctx 0 cb.expr.arena cb.expr.rootExpr
        { p.evaluator with instructionCount := p.spent cb.tainted } with
    | ok v s =>
      cases hq : evaluate ctx 0 cb.expr.arena cb.expr.rootExpr
          { q.evaluator with instructionCount := p.spent cb.tainted } with
      | ok w s' =>
        rw [hp, hq] at hagree
        obtain ⟨rfl, hsame⟩ := hagree
        simp only [hp, bank_evaluator] at hlocals
        refine ⟨⟨?_, ?_, ?_⟩, rfl⟩
        · simp only [bank_evaluator]
          exact hsame.toSameOutside.setGlobal_same cb.name v
        · simp only [bank_evaluator]
          exact hlocals.trans h.locals
        · rw [htainted]
          exact hsame.count
      | error e s' => simp [hp, hq] at hagree
    | error e s =>
      cases hq : evaluate ctx 0 cb.expr.arena cb.expr.rootExpr
          { q.evaluator with instructionCount := p.spent cb.tainted } with
      | ok w s' => simp [hp, hq] at hagree
      | error e' s' =>
        rw [hp, hq] at hagree
        simp only [hp, bank_evaluator] at hlocals
        refine ⟨⟨?_, ?_, ?_⟩, rfl⟩
        · simp only [bank_evaluator]
          exact hagree.2.toSameOutside
        · simp only [bank_evaluator]
          exact hlocals.trans h.locals
        · rw [htainted]
          exact hagree.2.count

end Binding

section Recompute

variable {d : Document} {t : Taint} {ctx : EvalCtx} (hchecked : d.Checked t) (hctx : d.RunsIn ctx)
variable {cb : ComputedBinding}

theorem mem_markComps {comps : List ComputedBinding} (h : cb ∈ markComps t comps) :
    ∃ cb₀ ∈ comps, cb = { cb₀ with tainted := decide (cb₀.name ∈ t.vars) } := by
  obtain ⟨cb₀, hmem, heq⟩ := mem_map.mp h
  exact ⟨cb₀, hmem, heq.symm⟩

include hchecked

/-- A binding of the document has a high name exactly if it is marked as tainted. -/
theorem high_iff_tainted (h : cb ∈ markComps t d.comps) : d.High t cb.name ↔ cb.tainted = true := by
  obtain ⟨cb₀, hmem, rfl⟩ := mem_markComps h
  have hknows := hchecked.parsed.names cb₀ hmem
  simp [Document.High, hknows]

theorem dependsOn_marked (h : cb ∈ markComps t d.comps) (hlow : ¬d.High t cb.name) :
    ∀ sym ∈ cb.dependsOn, ¬d.High t sym := by
  obtain ⟨cb₀, hmem, rfl⟩ := mem_markComps h
  have hname : cb₀.name ∉ t.vars := (Document.not_high.mp hlow).1
  have hdeps := dependsOn_low hchecked.parsed hchecked.closed hchecked.clock hmem hname
  exact hdeps

include hctx

theorem evaluate_marked (h : cb ∈ markComps t d.comps) (hlow : ¬d.High t cb.name) :
    Agree (SameCounted (d.High t)) (SameCounted (d.High t)) (SameCounted (d.High t))
      (evaluate ctx 0 cb.expr.arena cb.expr.rootExpr) (evaluate ctx 0 cb.expr.arena cb.expr.rootExpr) := by
  obtain ⟨cb₀, hmem, rfl⟩ := mem_markComps h
  have huntouched := hchecked.closed.comp cb₀ hmem (Document.not_high.mp hlow).1
  exact evalTree_low hchecked hctx huntouched.clean (hchecked.parsed.exprs cb₀ hmem)

theorem rules_separates (budget : Nat) (l : Locals) :
    Cascade.Separates ((markComps t d.comps).map (·.rule ctx budget))
      (buildCompReverseIndex (markComps t d.comps)).readers (d.High t)
      (fun p => p.evaluator.locals.Below l) (PoolsLow (d.High t) l) where
  symm _ _ h := h.symm
  back r hr p hgood := by
    obtain ⟨cb, -, rfl⟩ := mem_map.mp hr
    exact (recomputeBinding_below ctx budget cb p).trans hgood
  aside r hr hname p q h hgood := by
    obtain ⟨cb, hcb, rfl⟩ := mem_map.mp hr
    exact recomputeBinding_aside ctx budget hname ((high_iff_tainted hchecked hcb).mp hname) h hgood
  alike r hr hname p q h hgood _ := by
    obtain ⟨cb, hcb, rfl⟩ := mem_map.mp hr
    have htainted : cb.tainted = false :=
      Bool.eq_false_iff.mpr fun htrue => hname ((high_iff_tainted hchecked hcb).mpr htrue)
    exact recomputeBinding_alike ctx budget (evaluate_marked hchecked hctx hcb hname) htainted h hgood
  unset r hr hname p q h := by
    obtain ⟨cb, hcb, rfl⟩ := mem_map.mp hr
    show (p.evaluator.getGlobal cb.name).isNull = (q.evaluator.getGlobal cb.name).isNull
    rw [h.evaluator.globals cb.name hname]
  reads r hr hname := by
    obtain ⟨cb, hcb, rfl⟩ := mem_map.mp hr
    exact dependsOn_marked hchecked hcb hname
  readers k j := by
    rw [mem_readers]
    simp only [List.getElem?_map, Option.map_eq_some_iff]
    constructor
    · rintro ⟨cb, hcb, hk⟩
      exact ⟨_, ⟨cb, hcb, rfl⟩, hk⟩
    · rintro ⟨r, ⟨cb, hcb, rfl⟩, hk⟩
      exact ⟨cb, hcb, hk⟩

/-- Recomputations from evaluators that agree on the low variables, after the same low variables changed. -/
theorem recompute_low {s s' : Evaluator} (h : SameOutside (d.High t) s s') {mutated mutated' : Finset Symbol}
    (hmutated : ∀ sym, ¬d.High t sym → (sym ∈ mutated ↔ sym ∈ mutated'))
    (hlocals : (recomputeComputedBindings ctx (markComps t d.comps) mutated
      (buildCompReverseIndex (markComps t d.comps)) s).1.locals = s.locals)
    (hlocals' : (recomputeComputedBindings ctx (markComps t d.comps) mutated'
      (buildCompReverseIndex (markComps t d.comps)) s').1.locals = s'.locals) :
    SameOutside (d.High t)
      (recomputeComputedBindings ctx (markComps t d.comps) mutated
        (buildCompReverseIndex (markComps t d.comps)) s).1
      (recomputeComputedBindings ctx (markComps t d.comps) mutated'
        (buildCompReverseIndex (markComps t d.comps)) s').1 := by
  have hseparates := rules_separates hchecked hctx s.maxInstructions s.locals
  have hstart : Cascade.LowAlike (d.High t) (PoolsLow (d.High t) s.locals) (startPools s mutated)
      (startPools s' mutated') := ⟨⟨h, rfl, rfl⟩, hmutated⟩
  unfold recomputeComputedBindings at hlocals hlocals' ⊢
  dsimp only at hlocals hlocals' ⊢
  rw [← h.max] at hlocals' ⊢
  have hend := Cascade.byIndex_low hseparates hstart (hstart.candidates hseparates) (Nat.le_refl _)
    (Nat.le_refl _) (hlocals ▸ Locals.Below.refl _) ((hlocals'.trans h.locals.symm) ▸ Locals.Below.refl _)
  exact hend.inner.evaluator

/-- A recomputation after high variables changed, if no low binding waits for its first value. -/
theorem recompute_aside {s s' : Evaluator} (h : SameOutside (d.High t) s s') {mutated : Finset Symbol}
    (hmutated : ∀ sym ∈ mutated, d.High t sym)
    (hset : ∀ cb ∈ markComps t d.comps, cb.dependsOn = [] → ¬d.High t cb.name →
      (s.getGlobal cb.name).isNull = false)
    (hlocals : (recomputeComputedBindings ctx (markComps t d.comps) mutated
      (buildCompReverseIndex (markComps t d.comps)) s).1.locals = s.locals) :
    SameOutside (d.High t)
      (recomputeComputedBindings ctx (markComps t d.comps) mutated
        (buildCompReverseIndex (markComps t d.comps)) s).1 s' := by
  have hseparates := rules_separates hchecked hctx s.maxInstructions s.locals
  let rules := (markComps t d.comps).map (·.rule ctx s.maxInstructions)
  let readers := (buildCompReverseIndex (markComps t d.comps)).readers
  have hstart : Cascade.LowAlike (d.High t) (PoolsLow (d.High t) s.locals) (startPools s mutated)
      (startPools s' ∅) := by
    refine ⟨⟨h, rfl, rfl⟩, fun sym hsym => ?_⟩
    exact iff_of_false (fun hmem => hsym (hmutated sym hmem)) (Finset.notMem_empty sym)
  -- On the other side nothing changed, so only a binding without a value is a candidate.
  have hcandidates : Cascade.LowCandidates rules (d.High t)
      (Cascade.candidates rules readers (startPools s mutated)) ∅ := by
    intro i hi
    rw [hstart.candidates hseparates i hi]
    refine iff_of_false (fun hmem => ?_) (Finset.notMem_empty i)
    obtain ⟨r, hr, hlow⟩ := hi
    rcases Finset.mem_union.mp hmem with hmem | hmem
    · obtain ⟨sym, hsym, -⟩ := Finset.mem_biUnion.mp hmem
      exact absurd hsym (Finset.notMem_empty sym)
    · have hpending := (Finset.mem_filter.mp hmem).2
      obtain ⟨cb, hcb, rfl⟩ := mem_map.mp (mem_of_getElem? hr)
      rw [show _ = some (cb.rule ctx s.maxInstructions) from hr, Option.any_some, Cascade.Rule.pending,
        Bool.and_eq_true] at hpending
      have hnull : (s'.getGlobal cb.name).isNull = true := hpending.2
      rw [← h.globals cb.name hlow, hset cb hcb (isEmpty_iff.mp hpending.1) hlow] at hnull
      cases hnull
  unfold recomputeComputedBindings at hlocals ⊢
  dsimp only at hlocals ⊢
  have hidle : Cascade.byIndex rules readers (Cascade.bound rules readers (startPools s' ∅) ∅) (startPools s' ∅) ∅ =
      startPools s' ∅ := by
    generalize Cascade.bound rules readers (startPools s' ∅) ∅ = n
    cases n with
    | zero => rfl
    | succ n => rw [Cascade.byIndex_succ, dif_neg Finset.not_nonempty_empty]
  have hgood' : (Cascade.byIndex rules readers (Cascade.bound rules readers (startPools s' ∅) ∅)
      (startPools s' ∅) ∅).inner.evaluator.locals.Below s.locals := by
    rw [hidle]
    exact h.locals ▸ Locals.Below.refl _
  have hend := Cascade.byIndex_low hseparates hstart hcandidates (Nat.le_refl _) (Nat.le_refl _)
    (hlocals ▸ Locals.Below.refl _) hgood'
  rw [hidle] at hend
  exact hend.inner.evaluator

end Recompute

/-! ## Actions -/

section Action

variable {d : Document} {t : Taint} {ctx : EvalCtx} (hchecked : d.Checked t) (hctx : d.RunsIn ctx)
  {s s' : Evaluator}

variable {action : Action}

/-- An action that assigns to no low variable, run on one side. -/
theorem executeAction_aside
    (htarget : ∀ target expr, action = .assign target expr → HighName D ctx.interner target)
    (hlocals : (finalState (executeAction ctx action s)).locals = s.locals) :
    SameLogged D s (finalState (executeAction ctx action s)) := by
  cases hrun : executeAction ctx action s with
  | error e u =>
    rw [hrun] at hlocals
    exact .of_kept (executeAction_error ctx hrun).toKept hlocals
  | ok b u =>
    obtain ⟨v, hreturned, hfinishes⟩ := executeAction_ok ctx hrun
    have hsame : SameLogged D s v := .of_kept hreturned.toKept hreturned.locals
    cases hfinishes with
    | assign w _ => exact hsame.trans (.setRuntime_high (htarget _ _ rfl) v w)
    | eval => exact hsame
    | navigate | networkCall => exact ⟨{ hsame with }, hsame.logged⟩

/-- An assignment of the value of a low expression, run on both sides. -/
theorem executeAction_assign {target : String} {expr : ExprTree}
    (heval : Agree (SameCounted D) (SameCounted D) (SameCounted D) (evalTree ctx expr) (evalTree ctx expr))
    (h : SameLogged D s s') : SameLogged D (finalState (executeAction ctx (.assign target expr) s))
      (finalState (executeAction ctx (.assign target expr) s')) := by
  have hframe := evalTree_framed ctx expr
  have hagree := heval _ _ (h.toSameOutside.counted 0)
  have hlogged : ∀ {u u' : Evaluator}, SameCounted D u u' → Kept { s with instructionCount := 0 } u →
      Kept { s' with instructionCount := 0 } u' → SameLogged D u u' := by
    intro u u' hsame hkept hkept'
    refine ⟨hsame.toSameOutside, fun sym hsym => ?_⟩
    rw [hkept.undoLog, hkept'.undoLog]
    exact h.logged sym hsym
  simp only [executeAction, bind_apply, modify_apply, get_apply]
  by_cases hcomputed : (ctx.interner.get target).any (· ∈ s.computedVarSyms) = true
  · have hcomputed' : (ctx.interner.get target).any (· ∈ s'.computedVarSyms) = true := by rwa [← h.computed]
    rw [if_pos hcomputed, if_pos hcomputed']
    exact ⟨{ h with }, h.logged⟩
  · have hcomputed' : ¬(ctx.interner.get target).any (· ∈ s'.computedVarSyms) = true := by rwa [← h.computed]
    rw [if_neg hcomputed, if_neg hcomputed']
    simp only [bind_apply]
    cases hs : evalTree ctx expr { s with instructionCount := 0 } with
    | ok v u =>
      cases hs' : evalTree ctx expr { s' with instructionCount := 0 } with
      | ok w u' =>
        rw [hs, hs'] at hagree
        obtain ⟨rfl, hsame⟩ := hagree
        have hresult := hlogged hsame (hframe.of_ok hs).toKept (hframe.of_ok hs').toKept
        exact hresult.setRuntime_same ctx.interner target v
      | error e u' => simp [hs, hs'] at hagree
    | error e u =>
      cases hs' : evalTree ctx expr { s' with instructionCount := 0 } with
      | ok w u' => simp [hs, hs'] at hagree
      | error e' u' =>
        rw [hs, hs'] at hagree
        exact hlogged hagree.2 (hframe.of_error hs).toKept (hframe.of_error hs').toKept

include hchecked hctx in
/-- An action of the document, run on both sides without leaving locals behind. -/
theorem executeAction_low (hmem : action ∈ d.actions) (h : SameLogged (d.High t) s s')
    (hlocals : (finalState (executeAction ctx action s)).locals = s.locals)
    (hlocals' : (finalState (executeAction ctx action s')).locals = s'.locals) :
    SameLogged (d.High t) (finalState (executeAction ctx action s)) (finalState (executeAction ctx action s')) := by
  by_cases hhigh : ∀ target expr, action = .assign target expr → HighName (d.High t) ctx.interner target
  · exact ((executeAction_aside hhigh hlocals).symm.trans h).trans (executeAction_aside hhigh hlocals')
  · simp only [not_forall] at hhigh
    obtain ⟨target, expr, rfl, hlow⟩ := hhigh
    simp only [HighName, not_forall] at hlow
    obtain ⟨sym, hget, hlow⟩ := hlow
    obtain ⟨hold, hvars⟩ := get_of_low hchecked hctx hget hlow
    have huntouched := hchecked.closed.assign target expr hmem sym hold hvars
    have hknown := hchecked.parsed.trees _ hmem expr (by simp [Action.trees])
    exact executeAction_assign (evalTree_low hchecked hctx huntouched.clean hknown) h

/-! ### Navigations -/

/-- The URLs of the navigations among some actions. -/
def navigations (actions : List RuntimeAction) : List String :=
  actions.filterMap fun
    | .navigate url => some url
    | _ => none

theorem navigations_append (as bs : List RuntimeAction) :
    navigations (as ++ bs) = navigations as ++ navigations bs := filterMap_append

theorem navigations_fromExpr {as : List RuntimeAction} (h : ∀ a ∈ as, a.fromExpr) : navigations as = [] := by
  unfold navigations
  rw [filterMap_eq_nil_iff]
  intro a ha
  have hfrom := h a ha
  cases a with
  | navigate url => cases hfrom
  | _ => rfl

theorem Kept.navigations (h : Kept s s') :
    Mizu.navigations s'.accumulatedActions = Mizu.navigations s.accumulatedActions := by
  obtain ⟨as, has, hfrom⟩ := h.actions
  rw [has, navigations_append, navigations_fromExpr hfrom, append_nil]

theorem executeAction_no_navigation (hne : ∀ url, action ≠ .navigate url) :
    navigations (finalState (executeAction ctx action s)).accumulatedActions = navigations s.accumulatedActions := by
  cases hrun : executeAction ctx action s with
  | error e u => exact (executeAction_error ctx hrun).toKept.navigations
  | ok b u =>
    obtain ⟨v, hreturned, hfinishes⟩ := executeAction_ok ctx hrun
    have hsame := hreturned.toKept.navigations
    cases hfinishes with
    | assign w _ =>
      rw [finalState_ok, ← hsame]
      unfold Evaluator.setRuntime
      split <;> rfl
    | eval => exact hsame
    | navigate text => exact absurd rfl (hne _)
    | networkCall w segment target vs _ =>
      rw [finalState_ok, ← hsame]
      show navigations (v.accumulatedActions ++ _) = _
      rw [navigations_append]
      exact append_nil _

/-- Both runs fail, or both succeed and leave evaluators that `p` relates. -/
def EndAlike {ε σ α : Type} (p : σ → σ → Prop) : EStateM.Result ε σ α → EStateM.Result ε σ α → Prop
  | .ok _ u, .ok _ u' => p u u'
  | .error _ _, .error _ _ => True
  | _, _ => False

/-- A navigation to a low URL fails on both sides, or goes to the same one. -/
theorem executeAction_navigates {url : ExprTree}
    (heval : Agree (SameCounted D) (SameCounted D) (SameCounted D) (evalTree ctx url) (evalTree ctx url))
    (h : SameOutside D s s') :
    EndAlike (fun u u' => ∃ text,
        navigations u.accumulatedActions = navigations s.accumulatedActions ++ [text] ∧
          navigations u'.accumulatedActions = navigations s'.accumulatedActions ++ [text])
      (executeAction ctx (.navigate url) s) (executeAction ctx (.navigate url) s') := by
  have hframe := evalTree_framed ctx url
  have hagree := heval _ _ (h.counted 0)
  simp only [executeAction, bind_apply, modify_apply]
  cases hs : evalTree ctx url { s with instructionCount := 0 } with
  | ok v u =>
    cases hs' : evalTree ctx url { s' with instructionCount := 0 } with
    | ok w u' =>
      rw [hs, hs'] at hagree
      obtain ⟨rfl, -⟩ := hagree
      have hkept : navigations u.accumulatedActions = navigations s.accumulatedActions :=
        (hframe.of_ok hs).toKept.navigations
      have hkept' : navigations u'.accumulatedActions = navigations s'.accumulatedActions :=
        (hframe.of_ok hs').toKept.navigations
      cases v with
      | string text =>
        refine ⟨text, ?_, ?_⟩
        · show navigations (u.accumulatedActions ++ [.navigate text]) = _
          rw [navigations_append, hkept]
          rfl
        · show navigations (u'.accumulatedActions ++ [.navigate text]) = _
          rw [navigations_append, hkept']
          rfl
      | _ => trivial
    | error e u' => simp [hs, hs'] at hagree
  | error e u =>
    cases hs' : evalTree ctx url { s' with instructionCount := 0 } with
    | ok w u' => simp [hs, hs'] at hagree
    | error e' u' => trivial

end Action

end Mizu
