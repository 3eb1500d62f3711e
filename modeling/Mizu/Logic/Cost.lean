import Mizu.Logic.Trace
import Mizu.Types.Eval.Entries

/-!
# What a recomputation costs

A recomputation evaluates its bindings on two pools of instructions, one for the tainted bindings and
one for the others; its loop and the runtime type checks are not paid for.

* `evaluation_within_budget`: the entries into `evaluate_impl` are bounded by the budget alone.
* `cost_beyond_budget`: the rounds of the loop and the steps of a type check are not.
-/

namespace Mizu

open Exec List

section Defs

variable (ctx : EvalCtx) (bindings : List ComputedBinding) (mutated : Finset Symbol)
  (index : CompReverseIndex) (s : Evaluator)

/-- The entries into `evaluate_impl` of a whole recomputation. -/
def recomputeEntries : Nat :=
  ((recomputeSites ctx bindings mutated index s).map fun e => (e.2.entries ctx).length).sum

/-- The candidates it starts with. -/
def recomputeCandidates : Finset Nat :=
  Cascade.candidates (bindings.map (·.rule ctx s.maxInstructions)) index.readers (startPools s mutated)

/-- How often its loop can go round. -/
def recomputeBound : Nat :=
  Cascade.bound (bindings.map (·.rule ctx s.maxInstructions)) index.readers (startPools s mutated)
    (recomputeCandidates ctx bindings mutated index s)

/-- How often its loop goes round if it may do so `fuel` times. -/
def recomputeRounds (fuel : Nat) : Nat :=
  Cascade.rounds (bindings.map (·.rule ctx s.maxInstructions)) index.readers fuel (startPools s mutated)
    (recomputeCandidates ctx bindings mutated index s)

end Defs

/-! ## The pools -/

section Pools

variable {ctx : EvalCtx} {bindings : List ComputedBinding} {mutated : Finset Symbol}
  {index : CompReverseIndex} {s : Evaluator}

/-- The evaluations of a log, as `recomputeSites` reads them. -/
def sitesOf (budget : Nat) (log : List (ComputedBinding × Pools)) : List (ComputedBinding × Site) :=
  log.filterMap fun (cb, p) => if p.exhausted cb.tainted budget then none else some (cb, cb.site p)

/-- The total of a measure over the evaluations of one taint class. -/
def poolTotal (f : Site → Nat) (tainted : Bool) (sites : List (ComputedBinding × Site)) : Nat :=
  ((sites.filter (·.1.tainted == tainted)).map (f ·.2)).sum

variable (f : Site → Nat)

theorem poolTotal_append (tainted : Bool) (sites sites' : List (ComputedBinding × Site)) :
    poolTotal f tainted (sites ++ sites') = poolTotal f tainted sites + poolTotal f tainted sites' := by
  simp [poolTotal]

theorem poolTotal_add (sites : List (ComputedBinding × Site)) :
    poolTotal f true sites + poolTotal f false sites = (sites.map (f ·.2)).sum := by
  unfold poolTotal
  induction sites with
  | nil => rfl
  | cons head sites ih => grind

theorem spent_bank (p : Pools) (tainted tainted' : Bool) (t : Evaluator) :
    (p.bank tainted t).spent tainted' =
      if tainted' = tainted then t.instructionCount else p.spent tainted' := by
  cases tainted <;> cases tainted' <;> rfl

/-- A binding whose pool is not exhausted is evaluated on it. -/
theorem recomputeBinding_spent (ctx : EvalCtx) {cb : ComputedBinding} {p : Pools} {budget : Nat}
    (h : ¬p.exhausted cb.tainted budget = true) (tainted : Bool) :
    (recomputeBinding ctx budget cb p).1.spent tainted =
        (if tainted = cb.tainted then (finalState ((cb.site p).run ctx)).instructionCount
          else p.spent tainted) ∧
      (recomputeBinding ctx budget cb p).1.evaluator.maxInstructions = p.evaluator.maxInstructions := by
  have hframe := evaluate_frame ctx 0 cb.expr.arena cb.expr.rootExpr
  unfold recomputeBinding
  rw [if_neg h, show (cb.site p).run ctx = evaluate ctx 0 cb.expr.arena cb.expr.rootExpr
    { p.evaluator with instructionCount := p.spent cb.tainted } from rfl]
  cases hrun : evaluate ctx 0 cb.expr.arena cb.expr.rootExpr
      { p.evaluator with instructionCount := p.spent cb.tainted } with
  | ok v t =>
    dsimp only
    rw [spent_bank, bank_evaluator]
    exact ⟨rfl, (hframe.of_ok hrun).maxInstructions⟩
  | error e t =>
    dsimp only
    rw [spent_bank, bank_evaluator]
    exact ⟨rfl, (hframe.of_error hrun).maxInstructions⟩

/-- A measure that each evaluation pays for on its pool is bounded by what a pool holds. -/
theorem poolTotal_le (W : Nat) (hpays : ∀ site, site.state.maxInstructions = s.maxInstructions →
      site.state.instructionCount ≤ s.maxInstructions →
      f site + (W - (finalState (site.run ctx)).instructionCount) ≤ W - site.state.instructionCount)
    (tainted : Bool) : poolTotal f tainted (recomputeSites ctx bindings mutated index s) ≤ W := by
  let J : Cascade.State Symbol (Pools × List (ComputedBinding × Pools)) → Prop := fun x =>
    x.inner.1.evaluator.maxInstructions = s.maxInstructions ∧
      poolTotal f tainted (sitesOf s.maxInstructions x.inner.2) + (W - x.inner.1.spent tainted) ≤ W
  have hJ : J (tracedRun ctx bindings mutated index s) := by
    unfold tracedRun
    refine Cascade.byIndex_invariant (I := J) ?_ _ ?_ _
    · rintro r hr x ⟨hmax, htotal⟩
      obtain ⟨cb, -, rfl⟩ := mem_map.mp hr
      show (recomputeBinding ctx s.maxInstructions cb x.inner.1).1.evaluator.maxInstructions = _ ∧
        poolTotal f tainted (sitesOf s.maxInstructions (x.inner.2 ++ [(cb, x.inner.1)])) +
          (W - (recomputeBinding ctx s.maxInstructions cb x.inner.1).1.spent tainted) ≤ W
      have happend : sitesOf s.maxInstructions (x.inner.2 ++ [(cb, x.inner.1)]) =
          sitesOf s.maxInstructions x.inner.2 ++ sitesOf s.maxInstructions [(cb, x.inner.1)] :=
        filterMap_append
      rw [happend, poolTotal_append]
      by_cases hover : x.inner.1.exhausted cb.tainted s.maxInstructions = true
      · have hnone : sitesOf s.maxInstructions [(cb, x.inner.1)] = [] := by simp [sitesOf, hover]
        rw [hnone, recomputeBinding, if_pos hover]
        exact ⟨hmax, htotal⟩
      · have hone : sitesOf s.maxInstructions [(cb, x.inner.1)] = [(cb, cb.site x.inner.1)] := by
          simp [sitesOf, hover]
        obtain ⟨hspent, hkept⟩ := recomputeBinding_spent ctx hover tainted
        have hleft : x.inner.1.spent cb.tainted ≤ s.maxInstructions := by
          simpa [Pools.exhausted] using hover
        have hpay := hpays (cb.site x.inner.1) hmax hleft
        rw [hone, hspent]
        refine ⟨hkept.trans hmax, ?_⟩
        by_cases hclass : cb.tainted = tainted
        · subst hclass
          have hsum : poolTotal f cb.tainted [(cb, cb.site x.inner.1)] = f (cb.site x.inner.1) := by
            simp [poolTotal]
          have hcount : (cb.site x.inner.1).state.instructionCount = x.inner.1.spent cb.tainted := rfl
          rw [if_pos rfl, hsum]
          omega
        · have hsum : poolTotal f tainted [(cb, cb.site x.inner.1)] = 0 := by
            simp [poolTotal, hclass]
          rw [if_neg (Ne.symm hclass), hsum]
          exact htotal
    · exact ⟨rfl, (Nat.zero_add _).trans_le (Nat.sub_le _ _)⟩
  exact Nat.le_trans (Nat.le_add_right _ _) hJ.2

/-- Each pool pays for as many evaluations as it holds instructions, and for the one that finds it empty. -/
theorem recomputeSites_length (hmax : s.maxInstructions < u64Max) :
    (recomputeSites ctx bindings mutated index s).length ≤ 2 * (s.maxInstructions + 1) := by
  have hpool : ∀ tainted, poolTotal (fun _ => 1) tainted (recomputeSites ctx bindings mutated index s) ≤
      s.maxInstructions + 1 :=
    poolTotal_le (fun _ => 1) (s.maxInstructions + 1) fun site _ hcount => by
      have hcall := evaluate_counts ctx site.framePointer site.arena site.expr site.state
      unfold Rises at hcall
      unfold Site.run
      omega
  have htotal := poolTotal_add (fun _ => 1) (recomputeSites ctx bindings mutated index s)
  have htainted := hpool true
  have huntainted := hpool false
  rw [map_const', sum_replicate_nat, Nat.mul_one] at htotal
  omega

theorem recomputeEntries_le (hmax : s.maxInstructions < u64Max) :
    recomputeEntries ctx bindings mutated index s ≤ 2 * s.maxInstructions := by
  have hpool : ∀ tainted, poolTotal (fun site => (site.entries ctx).length) tainted
      (recomputeSites ctx bindings mutated index s) ≤ s.maxInstructions :=
    poolTotal_le _ s.maxInstructions fun site hsite _ => by
      have hpaid := entries_paid ctx site (by omega)
      rwa [hsite] at hpaid
  have htotal := poolTotal_add (fun site => (site.entries ctx).length)
    (recomputeSites ctx bindings mutated index s)
  have htainted := hpool true
  have huntainted := hpool false
  unfold recomputeEntries
  omega

end Pools

/-! ## The bounds -/

/-- `fn f(xs: list<num>) = xs`, and `comp c = f(data)`. -/
def totalsCtx : EvalCtx where
  functions := Finmap.singleton ⟨0⟩
    { params := [(⟨1⟩, .list .num)]
      body := { arena := { nodes := [.var ⟨1⟩], argsPool := [], nodes_valid := secondVar_valid,
                           pool_valid := emptyPool_valid }
                root := 0
                root_valid := Nat.zero_lt_one } }
  interner := .ofNames ["f", "xs", "c", "data"]
  arcEq := { same := fun _ _ => false, eq_of_same := @ArcEq.never_same }

def totalsComp : ComputedBinding where
  name := ⟨2⟩
  expr := { arena := { nodes := [.var ⟨3⟩, .functionCall ⟨0⟩ 0 1], argsPool := [0], nodes_valid := by decide,
                       pool_valid := by decide }
            root := 1
            root_valid := by decide }
  dependsOn := [⟨3⟩]
  tainted := true

/-- The store after a response of `n` numbers. -/
def totalsStore (n : Nat) : Evaluator :=
  (Evaluator.new 20000).setGlobal ⟨3⟩ (.list (List.replicate n (.int 0)))

/-- An evaluation enters `evaluate_impl` no more often than it has instructions left, and never deeper than the
limit. A recomputation makes as many evaluations and entries as its two pools pay for, whatever its bindings
and values are; its loop goes round no more often than there are candidates. -/
theorem evaluation_within_budget (ctx : EvalCtx) :
    (∀ site : Site, site.state.maxInstructions < u64Max →
      (site.entries ctx).length ≤ site.state.maxInstructions - site.state.instructionCount ∧
        ∀ d ∈ site.entries ctx, d ≤ maxEvalDepth) ∧
      ∀ (bindings : List ComputedBinding) (mutated : Finset Symbol) (index : CompReverseIndex) (s : Evaluator),
        s.maxInstructions < u64Max →
        (recomputeSites ctx bindings mutated index s).length ≤ 2 * (s.maxInstructions + 1) ∧
          recomputeEntries ctx bindings mutated index s ≤ 2 * s.maxInstructions ∧
          ∀ fuel, recomputeRounds ctx bindings mutated index s fuel ≤
            recomputeBound ctx bindings mutated index s := by
  constructor
  · intro site hmax
    have hpaid := entries_paid ctx site hmax.le
    exact ⟨by omega, entries_depth ctx site⟩
  · intro bindings mutated index s hmax
    exact ⟨recomputeSites_length hmax, recomputeEntries_le hmax, fun fuel => Cascade.rounds_le_bound fuel _ _⟩

theorem totalsStore_max (n : Nat) : (totalsStore n).maxInstructions < u64Max := by
  simp [totalsStore, Evaluator.new, Evaluator.setGlobal, u64Max]

theorem evaluation_within_budget_totals :
    recomputeEntries totalsCtx [totalsComp] {⟨3⟩} (buildCompReverseIndex [totalsComp]) (totalsStore 7) ≤
      2 * (totalsStore 7).maxInstructions := by
  obtain ⟨-, hentries, -⟩ := (evaluation_within_budget totalsCtx).2 [totalsComp] {⟨3⟩}
    (buildCompReverseIndex [totalsComp]) (totalsStore 7) (totalsStore_max 7)
  exact hentries

/-! ## What nothing pays for -/

namespace ValueType

/-- The elements up to the first that fails a test, and that one. -/
def upToFailure (p : Value → Bool) : List Value → List Value
  | [] => []
  | v :: vs => v :: if p v then upToFailure p vs else []

mutual

/-- How often `check_type` is called to check a value against a type. -/
def checks : ValueType → Value → Nat
  | list inner, .list items => 1 + ((upToFailure inner.accepts items).map fun v => inner.checks v).sum
  | record expected, .record fields =>
    1 + if fields.length = expected.length then fieldChecks expected fields else 0
  | nullable inner, v => 1 + if v.isNull then 0 else inner.checks v
  | _, _ => 1

def fieldChecks : List (String × ValueType) → List (RecordField Value) → Nat
  | (name, ty) :: es, f :: fs =>
    if f.key = name then ty.checks f.value + if ty.accepts f.value then fieldChecks es fs else 0 else 0
  | _, _ => 0

end

end ValueType

/-- How often `check_type` is called to bind the parameters of a function. -/
def paramChecks : List (Symbol × ValueType) → List Value → Nat
  | (_, ty) :: params, v :: vs => ty.checks v + if ty.accepts v then paramChecks params vs else 0
  | _, _ => 0

section Beyond

/-- A binding that a change of its only dependency makes due is evaluated. -/
theorem recomputeSites_single (ctx : EvalCtx) {cb : ComputedBinding} {dep : Symbol} (hdeps : cb.dependsOn = [dep])
    (s : Evaluator) : (cb, cb.site (startPools s {dep}).inner) ∈
      recomputeSites ctx [cb] {dep} (buildCompReverseIndex [cb]) s := by
  let rules := [cb].map (·.tracedRule ctx s.maxInstructions)
  let readers := (buildCompReverseIndex [cb]).readers
  let start : Cascade.State Symbol (Pools × List (ComputedBinding × Pools)) :=
    { inner := ((startPools s {dep}).inner, []), changed := {dep} }
  have hreads : ∀ j, j ∈ readers dep ↔ j = 0 := by grind [mem_readers]
  have hzero : 0 ∈ Cascade.candidates rules readers start := by
    simp [Cascade.candidates, start, hreads]
  have hne : (Cascade.candidates rules readers start).Nonempty := ⟨0, hzero⟩
  have hmin : (Cascade.candidates rules readers start).min' hne = 0 := Nat.le_zero.mp (Finset.min'_le _ _ hzero)
  obtain ⟨fuel, hfuel⟩ : ∃ fuel, Cascade.bound rules readers start
      (Cascade.candidates rules readers start) = fuel + 1 := by
    refine Nat.exists_eq_add_one.mpr ?_
    unfold Cascade.bound
    have hpos := hne.card_pos
    omega
  have hlog : (cb, (startPools s {dep}).inner) ∈ (tracedRun ctx [cb] {dep} (buildCompReverseIndex [cb]) s).inner.2 := by
    show _ ∈ (Cascade.byIndex rules readers (Cascade.bound rules readers start
      (Cascade.candidates rules readers start)) start (Cascade.candidates rules readers start)).inner.2
    rw [hfuel, Cascade.byIndex_succ, dif_pos hne]
    -- What is logged stays logged.
    refine Cascade.byIndex_invariant (I := fun x : Cascade.State Symbol (Pools × List (ComputedBinding × Pools)) =>
      (cb, (startPools s {dep}).inner) ∈ x.inner.2) ?_ _ ?_ _
    · intro r hr x hx
      obtain ⟨cb', -, rfl⟩ := mem_map.mp hr
      exact mem_append_left _ hx
    · unfold Cascade.round
      dsimp only
      rw [hmin]
      have hstale : (!(cb.tracedRule ctx s.maxInstructions).reads.isEmpty &&
          !(cb.tracedRule ctx s.maxInstructions).stale start.changed) = false := by
        have hreads : (cb.tracedRule ctx s.maxInstructions).reads = [dep] := hdeps
        simp [Cascade.Rule.stale, hreads, start]
      show _ ∈ (if (!(cb.tracedRule ctx s.maxInstructions).reads.isEmpty &&
          !(cb.tracedRule ctx s.maxInstructions).stale start.changed) = true then
          (start, _) else _ : _ × Finset Nat).1.inner.2
      rw [if_neg (by rw [hstale]; exact Bool.false_ne_true)]
      exact mem_append_right _ (mem_singleton_self _)
  unfold recomputeSites
  refine mem_filterMap.mpr ⟨_, hlog, ?_⟩
  have hfresh : (startPools s {dep}).inner.exhausted cb.tainted s.maxInstructions = false := by
    simp [Pools.exhausted, Pools.spent, startPools]
  simp [hfresh]

/-- `comp c = 0`, under any name. -/
def zeroComp (i : Nat) : ComputedBinding where
  name := ⟨i⟩
  expr := { arena := { nodes := [.literal (.int 0)], argsPool := [], nodes_valid := by decide,
                       pool_valid := by decide }
            root := 0
            root_valid := by decide }
  dependsOn := []
  tainted := false

theorem listChecks (n : Nat) : (ValueType.list .num).checks (.list (List.replicate n (.int 0))) = 1 + n := by
  have hupTo : ValueType.upToFailure ValueType.num.accepts (List.replicate n (.int 0)) = List.replicate n (.int 0) := by
    induction n with
    | zero => rfl
    | succ n ih =>
      rw [replicate_succ, ValueType.upToFailure, ih]
      rfl
  rw [ValueType.checks, hupTo, map_replicate, sum_replicate_nat]
  simp [ValueType.checks]

theorem totals_bindsArgs (n : Nat) : ∃ func t, BindsArgs totalsCtx
    (totalsComp.site (startPools (totalsStore n) {⟨3⟩}).inner) func [.list (List.replicate n (.int 0))] t ∧
      paramChecks func.params [.list (List.replicate n (.int 0))] = 1 + n := by
  refine ⟨_, _, ⟨⟨0⟩, 0, 1, _, rfl, rfl, rfl, rfl, rfl, rfl⟩, ?_⟩
  simp [paramChecks, listChecks]

/-- No function of the budget bounds the rounds of the loop: each binding without dependencies gets one,
also when there is no budget at all. None bounds the runtime type checks of a binding that is
evaluated either. -/
theorem cost_beyond_budget :
    (¬∃ bound : Nat → Nat, ∀ ctx bindings mutated index s fuel,
      recomputeRounds ctx bindings mutated index s fuel ≤ bound s.maxInstructions) ∧
    ¬∃ bound : Nat → Nat, ∀ ctx bindings mutated s, ∀ e ∈ recomputeSites ctx bindings mutated
      (buildCompReverseIndex bindings) s, ∀ func vs t, BindsArgs ctx e.2 func vs t →
        paramChecks func.params vs ≤ bound s.maxInstructions := by
  constructor
  · rintro ⟨bound, hbound⟩
    let n := bound 0 + 1
    have hle := hbound totalsCtx ((List.range n).map zeroComp) ∅ ∅ (.new 0) n
    have hcandidates : recomputeCandidates totalsCtx ((List.range n).map zeroComp) ∅ ∅ (.new 0) = Finset.range n := by
      unfold recomputeCandidates Cascade.candidates
      rw [length_map, length_map, length_range]
      refine (Finset.empty_union _).trans (Finset.filter_true_of_mem fun i hi => ?_)
      have hget : (((List.range n).map zeroComp).map (·.rule totalsCtx 0))[i]? =
          some ((zeroComp i).rule totalsCtx 0) := by
        simp [List.getElem?_range (Finset.mem_range.mp hi)]
      rw [show (Evaluator.new 0).maxInstructions = 0 from rfl, hget]
      rfl
    have hrounds : min (Finset.range n).card n ≤
        Cascade.rounds (((List.range n).map zeroComp).map (·.rule totalsCtx 0)) (CompReverseIndex.readers ∅) n
          (startPools (.new 0) ∅) (Finset.range n) := Cascade.card_le_rounds _ _ _
    rw [Finset.card_range, Nat.min_self] at hrounds
    unfold recomputeRounds at hle
    rw [hcandidates] at hle
    have hmax : (Evaluator.new 0).maxInstructions = 0 := rfl
    rw [hmax] at hle
    omega
  · rintro ⟨bound, hbound⟩
    obtain ⟨func, t, hbinds, hchecks⟩ := totals_bindsArgs (bound 20000)
    have hle := hbound totalsCtx [totalsComp] {⟨3⟩} (totalsStore (bound 20000)) _
      (recomputeSites_single totalsCtx rfl _) func _ t hbinds
    rw [hchecks] at hle
    have hmax : (totalsStore (bound 20000)).maxInstructions = 20000 := rfl
    rw [hmax] at hle
    omega

end Beyond

end Mizu
