import Mizu.Logic.Dependencies
import Mizu.Logic.Trace
import Mizu.Types.Eval.Budget
import Mizu.Types.Eval.Discipline

/-!
# Bindings that are up to date

A binding is `Current` in a store if its expression gives the value that is stored.

* `Current.of_same`: that depends on the binding's name and its dependencies only.
* `recompute_current`: after a recomputation that has the budget for it every binding is current, if those
  that nothing changed for were.
-/

namespace Mizu

open Exec List

section Current

variable (ctx : EvalCtx)

/-- The evaluation of the binding in the store, on a budget of its own and without locals. -/
def ComputedBinding.value (cb : ComputedBinding) (s : Evaluator) : EStateM.Result MizuError Evaluator Value :=
  evaluate ctx 0 cb.expr.arena cb.expr.rootExpr { s with instructionCount := 0, locals := .empty }

/-- Evaluated in the store the expression gives the value that is stored, or none at all. -/
def ComputedBinding.Current (cb : ComputedBinding) (s : Evaluator) : Prop :=
  match cb.value ctx s with
  | .ok v _ => s.getGlobal cb.name = v
  | .error _ _ => True

/-- Bindings that can be kept current: no name is declared twice, none depends on itself or on a later one,
and each reads only what it depends on. -/
structure Maintainable (functions : FunctionTable) (bindings : List ComputedBinding) : Prop where
  names : (bindings.map (·.name)).Nodup
  later : bindings.Pairwise fun cb cb' => cb'.name ∉ cb.dependsOn
  self : ∀ cb ∈ bindings, cb.name ∉ cb.dependsOn
  within : ∀ cb ∈ bindings, Within functions (· ∈ cb.dependsOn) ∅ cb.expr.arena cb.expr.rootExpr

/-- The pools are enough for the binding, which leaves no local behind. -/
structure Settles (budget : Nat) (cb : ComputedBinding) (p : Pools) : Prop where
  funded : p.exhausted cb.tainted budget = false
  inTime : ∀ s, (cb.site p).run ctx ≠ .error .timeout s
  tidy : ¬Leaks ctx (cb.site p)

end Current

/-! ## What the value depends on -/

section Value

variable {ctx : EvalCtx} {cb : ComputedBinding} {s t : Evaluator}

/-- In stores that agree on the dependencies the binding has the same value, or fails in both. -/
theorem ComputedBinding.value_same
    (hwithin : Within ctx.functions (· ∈ cb.dependsOn) ∅ cb.expr.arena cb.expr.rootExpr)
    (h : SameOutside (· ∉ cb.dependsOn) s t) :
    match cb.value ctx s, cb.value ctx t with
    | .ok v _, .ok w _ => v = w
    | .error e _, .error e' _ => e = e'
    | _, _ => False := by
  have hfresh : SameCounted (· ∉ cb.dependsOn) { s with instructionCount := 0, locals := .empty }
      { t with instructionCount := 0, locals := .empty } :=
    { h with globals := h.globals, locals := rfl, count := rfl }
  have hagree := evaluate_within ctx (sameCounted_runRel (· ∉ cb.dependsOn))
    (fun sym hsym => sameCounted_sameGlobal (not_not.mpr hsym)) hwithin _ _ hfresh
  unfold value
  revert hagree
  cases evaluate ctx 0 cb.expr.arena cb.expr.rootExpr { s with instructionCount := 0, locals := .empty } <;>
    cases evaluate ctx 0 cb.expr.arena cb.expr.rootExpr { t with instructionCount := 0, locals := .empty }
  · exact And.left
  · exact id
  · exact id
  · exact And.left

theorem Current.of_same (hwithin : Within ctx.functions (· ∈ cb.dependsOn) ∅ cb.expr.arena cb.expr.rootExpr)
    (h : SameOutside (· ∉ cb.dependsOn) s t) (hown : t.getGlobal cb.name = s.getGlobal cb.name)
    (hcurrent : cb.Current ctx s) : cb.Current ctx t := by
  have hvalue := cb.value_same hwithin h
  unfold ComputedBinding.Current at hcurrent ⊢
  cases hs : cb.value ctx s with
  | ok v u => grind
  | error e u => grind

theorem Current.of_error {e : MizuError} (h : cb.value ctx s = .error e t) : cb.Current ctx s := by
  unfold ComputedBinding.Current
  rw [h]
  trivial

theorem cheaper_fresh (hlocals : s.locals = .empty) (n : Nat) :
    Cheaper { s with instructionCount := 0, locals := .empty } { s with instructionCount := n } := by
  refine ⟨0, Nat.zero_le _, ?_⟩
  rw [← hlocals]

/-- What an evaluation that has already used instructions gives, it gives on a full budget. -/
theorem ComputedBinding.value_of_ok (hlocals : s.locals = .empty) {n : Nat} {v : Value}
    (h : evaluate ctx 0 cb.expr.arena cb.expr.rootExpr { s with instructionCount := n } = .ok v t) :
    ∃ u, cb.value ctx s = .ok v u := by
  have hspares := evaluate_budget ctx 0 cb.expr.arena cb.expr.rootExpr _ _ (cheaper_fresh hlocals n)
  obtain ⟨u, hu, -⟩ := hspares.of_ok h
  exact ⟨u, hu⟩

theorem ComputedBinding.value_of_error (hlocals : s.locals = .empty) {n : Nat} {e : MizuError}
    (h : evaluate ctx 0 cb.expr.arena cb.expr.rootExpr { s with instructionCount := n } = .error e t)
    (he : e ≠ .timeout) : ∃ u, cb.value ctx s = .error e u := by
  have hspares := evaluate_budget ctx 0 cb.expr.arena cb.expr.rootExpr _ _ (cheaper_fresh hlocals n)
  obtain ⟨u, hu, -⟩ := hspares.of_error h he
  exact ⟨u, hu⟩

end Value

/-! ## One recomputation -/

section Step

variable {ctx : EvalCtx} {budget : Nat} {p : Pools}

/-- What an evaluation keeps, but for the globals that are then written. -/
theorem sameOutside_of_kept {D : Symbol → Prop} {s s' : Evaluator} (hkept : Kept s s')
    (hlocals : s'.locals = s.locals) : SameOutside D s s' where
  globals sym _ := by simp only [Evaluator.getGlobal, hkept.globalStore]
  locals := hlocals.symm
  max := hkept.maxInstructions.symm
  depth := hkept.evalDepth.symm
  computed := hkept.computedVarSyms.symm

theorem SameOutside.setGlobal {D : Symbol → Prop} {s t : Evaluator} (h : SameOutside D s t) {sym : Symbol}
    (hsym : D sym) (v : Value) : SameOutside D s (t.setGlobal sym v) where
  globals sym' hsym' := by
    have hne : sym' ≠ sym := by
      rintro rfl
      exact hsym' hsym
    rw [t.getGlobal_setGlobal_of_ne hne, h.globals sym' hsym']
  locals := h.locals
  max := h.max
  depth := h.depth
  computed := h.computed

variable {cb : ComputedBinding}

theorem Settles.of_ok (hfunded : p.exhausted cb.tainted budget = false) {v : Value}
    {s : Evaluator} (hrun : (cb.site p).run ctx = .ok v s) : Settles ctx budget cb p where
  funded := hfunded
  inTime t htimeout := by
    rw [hrun] at htimeout
    cases htimeout
  tidy hleak := by
    obtain ⟨e, u, hthrew, -⟩ := throws_of_leaks hleak
    unfold Site.run at hrun
    rw [hthrew] at hrun
    cases hrun

/-- How a binding that settles is recomputed: it fails and nothing changes, or its value is stored. -/
theorem Settles.cases (h : Settles ctx budget cb p) (hlocals : p.evaluator.locals = .empty) :
    (∃ e u t, cb.value ctx p.evaluator = .error e u ∧ SameOutside (fun _ => False) p.evaluator t ∧
        recomputeBinding ctx budget cb p = (p.bank cb.tainted t, false)) ∨
      ∃ v u t, cb.value ctx p.evaluator = .ok v u ∧ SameOutside (fun _ => False) p.evaluator t ∧
        recomputeBinding ctx budget cb p = (p.bank cb.tainted (t.setGlobal cb.name v), true) := by
  have hcount : Kept p.evaluator { p.evaluator with instructionCount := p.spent cb.tainted } :=
    Kept.of_locals p.evaluator p.evaluator.locals _
  have htidy := (evaluate_restores_locals_iff ctx 0 cb.expr.arena cb.expr.rootExpr
    { p.evaluator with instructionCount := p.spent cb.tainted }).mpr h.tidy
  have hframe := evaluate_frame ctx 0 cb.expr.arena cb.expr.rootExpr
  unfold recomputeBinding
  rw [h.funded]
  simp only [Bool.false_eq_true, if_false]
  cases hrun : evaluate ctx 0 cb.expr.arena cb.expr.rootExpr
      { p.evaluator with instructionCount := p.spent cb.tainted } with
  | ok v t =>
    obtain ⟨u, hu⟩ := ComputedBinding.value_of_ok hlocals hrun
    have hreturned := hframe.of_ok hrun
    have hsame : SameOutside (fun _ => False) p.evaluator t :=
      sameOutside_of_kept (hcount.trans hreturned.toKept) hreturned.locals
    exact .inr ⟨v, u, t, hu, hsame, rfl⟩
  | error e t =>
    have he : e ≠ .timeout := by
      rintro rfl
      exact h.inTime t hrun
    obtain ⟨u, hu⟩ := ComputedBinding.value_of_error hlocals hrun he
    rw [hrun] at htidy
    have hsame : SameOutside (fun _ => False) p.evaluator t :=
      sameOutside_of_kept (hcount.trans (hframe.of_error hrun).toKept) htidy.1
    exact .inl ⟨e, u, t, hu, hsame, rfl⟩

theorem SameOutside.mono {D D' : Symbol → Prop} {s t : Evaluator} (h : SameOutside D s t)
    (himp : ∀ sym, D sym → D' sym) : SameOutside D' s t :=
  { h with globals := fun sym hsym => h.globals sym fun hD => hsym (himp sym hD) }

theorem recomputeBinding_current (hself : cb.name ∉ cb.dependsOn)
    (hwithin : Within ctx.functions (· ∈ cb.dependsOn) ∅ cb.expr.arena cb.expr.rootExpr)
    (h : Settles ctx budget cb p) (hlocals : p.evaluator.locals = .empty) :
    cb.Current ctx (recomputeBinding ctx budget cb p).1.evaluator := by
  rcases h.cases hlocals with ⟨e, u, t, hvalue, hsame, heq⟩ | ⟨v, u, t, hvalue, hsame, heq⟩
  · rw [heq, bank_evaluator]
    have hbefore : cb.Current ctx p.evaluator := Current.of_error hvalue
    exact Current.of_same hwithin (hsame.mono fun _ hno => hno.elim) (hsame.globals _ id).symm hbefore
  · rw [heq, bank_evaluator]
    have hafter : SameOutside (· ∉ cb.dependsOn) p.evaluator (t.setGlobal cb.name v) :=
      (hsame.mono fun _ hno => hno.elim).setGlobal hself v
    have hsteady := cb.value_same hwithin hafter
    unfold ComputedBinding.Current
    cases hnew : cb.value ctx (t.setGlobal cb.name v) with
    | ok w u' => grind [Evaluator.getGlobal_setGlobal_self]
    | error e u' => trivial

/-- Another binding stays current, unless it reads what was written. -/
theorem recomputeBinding_keeps {cb cb' : ComputedBinding} (hne : cb'.name ≠ cb.name)
    (hwithin : Within ctx.functions (· ∈ cb.dependsOn) ∅ cb.expr.arena cb.expr.rootExpr)
    (h : Settles ctx budget cb' p) (hlocals : p.evaluator.locals = .empty)
    (hreads : cb'.name ∈ cb.dependsOn → (recomputeBinding ctx budget cb' p).2 = false)
    (hcurrent : cb.Current ctx p.evaluator) :
    cb.Current ctx (recomputeBinding ctx budget cb' p).1.evaluator := by
  rcases h.cases hlocals with ⟨e, u, t, -, hsame, heq⟩ | ⟨v, u, t, -, hsame, heq⟩
  · rw [heq, bank_evaluator]
    exact Current.of_same hwithin (hsame.mono fun _ hno => hno.elim) (hsame.globals _ id).symm hcurrent
  · rw [heq] at hreads
    have hnot : cb'.name ∉ cb.dependsOn := fun hmem => nomatch hreads hmem
    rw [heq, bank_evaluator]
    refine Current.of_same hwithin ((hsame.mono fun _ hno => hno.elim).setGlobal hnot v) ?_ hcurrent
    rw [t.getGlobal_setGlobal_of_ne (Ne.symm hne)]
    exact (hsame.globals _ id).symm

theorem Settles.locals (h : Settles ctx budget cb p) (hlocals : p.evaluator.locals = .empty) :
    (recomputeBinding ctx budget cb p).1.evaluator.locals = .empty := by
  rcases h.cases hlocals with ⟨e, u, t, -, hsame, heq⟩ | ⟨v, u, t, -, hsame, heq⟩
  · rw [heq, bank_evaluator, ← hsame.locals, hlocals]
  · rw [heq, bank_evaluator]
    exact hsame.locals.symm.trans hlocals

end Step

/-! ## The whole recomputation -/

section Recompute

variable {ctx : EvalCtx} {bindings : List ComputedBinding} {mutated : Finset Symbol} {s : Evaluator}

theorem Maintainable.scansInOrder (h : Maintainable ctx.functions bindings) : ScansInOrder bindings := by
  have hnames := pairwise_map.mp h.names
  exact (h.later.and hnames).imp fun ⟨hlater, hne⟩ => ⟨hlater, fun _ => Ne.symm hne⟩

/-- After a recomputation that has the budget for all it evaluates every binding is current, if those were
that nothing changed for. -/
theorem recompute_current (h : Maintainable ctx.functions bindings) (hlocals : s.locals = .empty)
    (hruns : ∀ cb p, (cb, p) ∈ recomputeRuns ctx bindings mutated (buildCompReverseIndex bindings) s →
      Settles ctx s.maxInstructions cb p)
    (hstart : ∀ cb ∈ bindings,
      (∀ dep ∈ cb.dependsOn,
        dep ∉ (recomputeComputedBindings ctx bindings mutated (buildCompReverseIndex bindings) s).2) →
      (cb.dependsOn = [] → (s.getGlobal cb.name).isNull = false) → cb.Current ctx s) :
    ∀ cb ∈ bindings, cb.Current ctx
      (recomputeComputedBindings ctx bindings mutated (buildCompReverseIndex bindings) s).1 := by
  let rule := fun cb : ComputedBinding => cb.tracedRule ctx s.maxInstructions
  let start : Cascade.State Symbol (Pools × List (ComputedBinding × Pools)) :=
    { inner := ((startPools s mutated).inner, []), changed := mutated }
  have hseparate : Cascade.Separate (bindings.map rule) := by
    intro r hr r' hr' hne x
    obtain ⟨cb, hcb, rfl⟩ := mem_map.mp hr
    obtain ⟨cb', hcb', rfl⟩ := mem_map.mp hr'
    exact rules_separate ctx s.maxInstructions bindings _ (mem_map_of_mem hcb) _
      (mem_map_of_mem hcb') hne x.1
  have hscan : tracedRun ctx bindings mutated (buildCompReverseIndex bindings) s =
      Cascade.scan (bindings.map rule) start :=
    byIndex_bindings rule (fun _ => rfl) (fun _ => rfl) h.scansInOrder h.self hseparate start
  have hrun := traced_run ctx bindings mutated (buildCompReverseIndex bindings) s
  rw [← hrun, hscan] at hstart ⊢
  unfold recomputeRuns at hruns
  rw [hscan] at hruns
  -- While all that is logged settles, what has been run is current.
  let Logged : Pools × List (ComputedBinding × Pools) → Prop := fun x =>
    ∀ cb p, (cb, p) ∈ x.2 → Settles ctx s.maxInstructions cb p
  have hlogged : ∀ (cb : ComputedBinding) x, Logged ((rule cb).fire x).1 →
      Logged x ∧ Settles ctx s.maxInstructions cb x.1 := fun cb x hlog =>
    ⟨fun cb' p hmem => hlog cb' p (mem_append_left _ hmem),
      hlog cb x.1 (mem_append_right _ (mem_singleton_self _))⟩
  have hsettled := @Cascade.scan_settles _ _ start _ _ rule bindings
    (fun cb x => Logged x → cb.Current ctx x.1.evaluator)
    (fun x => Logged x → x.1.evaluator.locals = .empty)
    (rules_sorted rule (fun _ => rfl) (fun _ => rfl) h.scansInOrder h.self) h.names hseparate
    (fun cb hcb x hempty => ⟨fun hlog =>
        (hlogged cb x hlog).2.locals (hempty (hlogged cb x hlog).1),
      fun hlog => recomputeBinding_current (h.self cb hcb) (h.within cb hcb) (hlogged cb x hlog).2
        (hempty (hlogged cb x hlog).1)⟩)
    (fun cb hcb cb' _ hne x hempty hreads hcurrent hlog =>
      recomputeBinding_keeps hne (h.within cb hcb) (hlogged cb' x hlog).2 (hempty (hlogged cb' x hlog).1)
        hreads (hcurrent (hlogged cb' x hlog).1))
    (fun _ => hlocals)
    (fun cb hcb hreads hpending _ => hstart cb hcb hreads fun hnil => ?_)
  · exact fun cb hcb => hsettled cb hcb hruns
  · have hunset : (rule cb).pending start.inner = (s.getGlobal cb.name).isNull := by
      show (cb.dependsOn.isEmpty && _) = _
      rw [hnil]
      rfl
    rw [← hunset]
    exact hpending

theorem recompute_locals_empty {index : CompReverseIndex} (hlocals : s.locals = .empty)
    (hruns : ∀ cb p, (cb, p) ∈ recomputeRuns ctx bindings mutated index s →
      Settles ctx s.maxInstructions cb p) :
    (recomputeComputedBindings ctx bindings mutated index s).1.locals = .empty := by
  refine recompute_of_sites (I := fun s => s.locals = .empty) (G := fun _ site => ¬Leaks ctx site)
    (fun _ _ hs => hs) ?_ ?_ ?_ hlocals
  · rintro cb - site v t hs - hrun
    exact (evaluate_returned hrun).locals.trans hs
  · rintro cb - ⟨fp, a, e, t⟩ err u hs htidy hrun
    have hrestored := (evaluate_restores_locals_iff ctx fp a e t).mpr htidy
    unfold Site.run at hrun
    rw [hrun] at hrestored
    exact hrestored.1.trans hs
  · intro cb site hsite
    obtain ⟨⟨cb', p⟩, hmem, hsome⟩ := mem_filterMap.mp hsite
    dsimp only at hsome
    split at hsome
    · cases hsome
    · cases hsome
      exact (hruns cb p hmem).tidy

end Recompute

end Mizu
