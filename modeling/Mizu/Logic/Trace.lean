import Mizu.Logic.Recompute
import Mizu.Types.Eval.Sites

/-!
# The evaluations of a recomputation

* `traced_run`: the recomputation with a log of its runs is the recomputation.
* `recompute_of_sites`: what a recomputation does, from what its evaluations do.
-/

namespace Mizu

open Exec List

/-- The evaluation of a binding on its pool. -/
def ComputedBinding.site (cb : ComputedBinding) (p : Pools) : Site :=
  ⟨0, cb.expr.arena, cb.expr.rootExpr, { p.evaluator with instructionCount := p.spent cb.tainted }⟩

section Trace

variable (ctx : EvalCtx) (bindings : List ComputedBinding) (mutated : Finset Symbol)
  (index : CompReverseIndex) (s : Evaluator)

/-- The rule of a binding, with a log of the pools it was run on. -/
def ComputedBinding.tracedRule (budget : Nat) (cb : ComputedBinding) :
    Cascade.Rule Symbol (Pools × List (ComputedBinding × Pools)) :=
  (cb.rule ctx budget).logged cb

/-- The recomputation with its log. -/
def tracedRun : Cascade.State Symbol (Pools × List (ComputedBinding × Pools)) :=
  let rules := bindings.map (·.tracedRule ctx s.maxInstructions)
  let start := { inner := ((startPools s mutated).inner, []), changed := mutated }
  let candidates := Cascade.candidates rules index.readers start
  Cascade.byIndex rules index.readers (Cascade.bound rules index.readers start candidates) start candidates

/-- The evaluations a recomputation performs: a binding whose pool is exhausted is not evaluated. -/
def recomputeSites : List (ComputedBinding × Site) :=
  (tracedRun ctx bindings mutated index s).inner.2.filterMap fun (cb, p) =>
    if p.exhausted cb.tainted s.maxInstructions then none else some (cb, cb.site p)

theorem traced_run :
    ((tracedRun ctx bindings mutated index s).inner.1.evaluator,
        (tracedRun ctx bindings mutated index s).changed) =
      recomputeComputedBindings ctx bindings mutated index s := by
  have hrules : List.Forall₂ (Cascade.Rule.Matches fun x p => x.1 = p)
      (bindings.map (·.tracedRule ctx s.maxInstructions))
      (bindings.map (·.rule ctx s.maxInstructions)) := by
    rw [forall₂_map_left_iff, forall₂_map_right_iff, forall₂_same]
    exact fun cb _ => Cascade.logged_matches cb (cb.rule ctx s.maxInstructions)
  have hstart : Cascade.Related (fun x p => x.1 = p)
      { inner := ((startPools s mutated).inner, ([] : List (ComputedBinding × Pools))),
        changed := mutated } (startPools s mutated) := ⟨rfl, rfl⟩
  have hcandidates := Cascade.candidates_related hrules index.readers hstart
  have hend := fun fuel cs => Cascade.byIndex_related hrules index.readers fuel hstart cs
  unfold tracedRun recomputeComputedBindings
  dsimp only
  rw [hcandidates, Cascade.bound_related hrules index.readers hstart, (hend _ _).inner, (hend _ _).changed]

/-- The bindings a recomputation looks at, each with the pools it is given. -/
def recomputeRuns : List (ComputedBinding × Pools) := (tracedRun ctx bindings mutated index s).inner.2

variable {ctx bindings mutated index s}

/-- What holds at the start, and is kept by each evaluation that is `Good` and by storing its value, holds
after a recomputation whose evaluations are all good. -/
theorem recompute_of_sites {I : Evaluator → Prop} {G : ComputedBinding → Site → Prop}
    (hcount : ∀ s n, I s → I { s with instructionCount := n })
    (hok : ∀ cb ∈ bindings, ∀ site v t, I site.state → G cb site → site.run ctx = .ok v t →
      I (t.setGlobal cb.name v))
    (herror : ∀ cb ∈ bindings, ∀ site e t, I site.state → G cb site → site.run ctx = .error e t → I t)
    (hgood : ∀ cb site, (cb, site) ∈ recomputeSites ctx bindings mutated index s → G cb site)
    (hs : I s) : I (recomputeComputedBindings ctx bindings mutated index s).1 := by
  -- If everything logged so far is good, the invariant holds so far.
  let J : Cascade.State Symbol (Pools × List (ComputedBinding × Pools)) → Prop := fun x =>
    (∀ cb p, (cb, p) ∈ x.inner.2 → p.exhausted cb.tainted s.maxInstructions = false →
      G cb (cb.site p)) → I x.inner.1.evaluator
  have hJ : J (tracedRun ctx bindings mutated index s) := by
    unfold tracedRun
    refine Cascade.byIndex_invariant (I := J) ?_ _ ?_ _
    · intro r hr x hx hlog
      obtain ⟨cb, hcb, rfl⟩ := mem_map.mp hr
      have hbefore : I x.inner.1.evaluator :=
        hx fun cb' p' hmem => hlog cb' p' (mem_append_left _ hmem)
      have hhere := hlog cb x.inner.1 (mem_append_right _ (mem_singleton_self _))
      have hsite : I (cb.site x.inner.1).state := hcount _ _ hbefore
      show I (recomputeBinding ctx s.maxInstructions cb x.inner.1).1.evaluator
      by_cases hover : x.inner.1.exhausted cb.tainted s.maxInstructions = true
      · unfold recomputeBinding
        rw [if_pos hover]
        exact hbefore
      · have hgood := hhere (Bool.not_eq_true _ ▸ hover)
        rcases recomputeBinding_cases ctx s.maxInstructions cb x.inner.1 with
          heq | ⟨e, t, hev, heq⟩ | ⟨v, t, hev, heq⟩
        · rw [heq]
          exact hbefore
        · rw [heq, bank_evaluator]
          exact herror cb hcb _ e t hsite hgood hev
        · rw [heq, bank_evaluator]
          exact hok cb hcb _ v t hsite hgood hev
    · exact fun _ => hs
  have hrun := congrArg Prod.fst (traced_run ctx bindings mutated index s)
  dsimp only at hrun
  rw [← hrun]
  refine hJ fun cb p hmem hover => hgood cb _ ?_
  unfold recomputeSites
  refine mem_filterMap.mpr ⟨(cb, p), hmem, ?_⟩
  simp [hover]

end Trace

end Mizu
