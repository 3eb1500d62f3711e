import Mizu.Lib.Cascade
import Mizu.Lib.Kahn
import Mizu.Logic.Reads
import Mizu.Types.Eval.Agree
import Mizu.Types.Store

/-!
# Computed bindings

`parseComputedWithFunctions` derives what each `comp` depends on and orders the bindings;
`recomputeComputedBindings` updates them after some symbols changed, `recomputeNaiveScan` is the
source's reference implementation of it.
-/

namespace Mizu

/-! ## Parsing -/

/-- A `comp` line after its expression was parsed. -/
structure CompDecl where
  name : Symbol
  expr : ExprTree
  ordered : expr.arena.Ordered

/-- What a declaration depends on: what it mentions and what the functions it reaches read, without
itself. -/
def dependsOn (functions : FunctionTable) (decl : CompDecl) : Walk (List Symbol) := do
  let deps ← collectVars decl.expr.arena (walkFuel decl.expr.arena) decl.expr.rootExpr []
  let deps ← collectReachableFunctionReads functions decl.expr deps
  return deps.filter (· ≠ decl.name)

def parseBinding (functions : FunctionTable) (decl : CompDecl) : Walk ComputedBinding := do
  let dependsOn ← dependsOn functions decl
  return { name := decl.name, expr := decl.expr, dependsOn, tainted := false }

/-- The position of each computed name; the last one where a name is declared twice. -/
def compIndex (bindings : List ComputedBinding) : FxHashMap Symbol Nat :=
  bindings.zipIdx.foldl (fun index (cb, i) => index.insert cb.name i) ∅

/-- An edge from each computed binding to those that depend on it. -/
def dependents (bindings : List ComputedBinding) : Kahn.Edges :=
  bindings.zipIdx.flatMap fun (cb, i) =>
    cb.dependsOn.filterMap fun dep => ((compIndex bindings).lookup dep).map (·, i)

/-- `topo_sort_computed`. -/
def topoSortComputed (bindings : List ComputedBinding) : Walk (List ComputedBinding) :=
  let order := Kahn.order bindings.length (dependents bindings)
  if order.length ≠ bindings.length then
    throw (.error (.parseError "computed variable cycle detected"))
  else return order.filterMap (bindings[·]?)

def tooManyComps (declared max : Nat) : MizuError :=
  .parseError ("document declares " ++ toString declared ++
    " `comp` bindings, exceeding the maximum of " ++ toString max ++
    " (MAX_COMP_BINDINGS); split the logic across fewer computed variables or reduce reliance on " ++
    "derived state")

/-- `parse_computed_with_functions`, from the parsed lines on. -/
def parseComputedWithFunctions (functions : FunctionTable) (maxCompBindings : Nat)
    (decls : List CompDecl) : Walk (List ComputedBinding) := do
  let bindings ← decls.mapM (parseBinding functions)
  if bindings.length > maxCompBindings then
    throw (.error (tooManyComps bindings.length maxCompBindings))
  else topoSortComputed bindings

/-! ## Recomputing -/

/-- The positions of the bindings that depend on each symbol. -/
abbrev CompReverseIndex := FxHashMap Symbol (List Nat)

def CompReverseIndex.readers (index : CompReverseIndex) (sym : Symbol) : List Nat :=
  (index.lookup sym).getD []

/-- `index.entry(dep_sym).or_default().push(i)`. -/
def CompReverseIndex.push (index : CompReverseIndex) (i : Nat) (sym : Symbol) : CompReverseIndex :=
  index.insert sym (index.readers sym ++ [i])

def buildCompReverseIndex (bindings : List ComputedBinding) : CompReverseIndex :=
  bindings.zipIdx.foldl (fun index (cb, i) => cb.dependsOn.foldl (·.push i) index) ∅

/-- What a recomputation works on: the evaluator and what each pool has spent. -/
structure Pools where
  evaluator : Evaluator
  spentTainted : Nat
  spentUntainted : Nat

namespace Pools

def spent (p : Pools) (tainted : Bool) : Nat := if tainted then p.spentTainted else p.spentUntainted

/-- `pool_exhausted`. -/
def exhausted (p : Pools) (tainted : Bool) (budget : Nat) : Bool := p.spent tainted > budget

/-- Banks what an evaluation used in the pool it drew on. -/
def bank (p : Pools) (tainted : Bool) (s : Evaluator) : Pools :=
  if tainted then { p with evaluator := s, spentTainted := s.instructionCount }
  else { p with evaluator := s, spentUntainted := s.instructionCount }

end Pools

/-- Evaluates a binding on its pool and stores its value, if there is one. -/
def recomputeBinding (ctx : EvalCtx) (budget : Nat) (cb : ComputedBinding) (p : Pools) : Pools × Bool :=
  if p.exhausted cb.tainted budget then (p, false)
  else
    match evaluate ctx 0 cb.expr.arena cb.expr.rootExpr
      { p.evaluator with instructionCount := p.spent cb.tainted } with
    | .ok val s => (p.bank cb.tainted (s.setGlobal cb.name val), true)
    | .error _ s => (p.bank cb.tainted s, false)

def ComputedBinding.rule (ctx : EvalCtx) (budget : Nat) (cb : ComputedBinding) :
    Cascade.Rule Symbol Pools where
  name := cb.name
  reads := cb.dependsOn
  unset p := (p.evaluator.getGlobal cb.name).isNull
  fire := recomputeBinding ctx budget cb

def startPools (s : Evaluator) (mutated : Finset Symbol) : Cascade.State Symbol Pools where
  inner := { evaluator := s, spentTainted := 0, spentUntainted := 0 }
  changed := mutated

/-- `recompute_computed_bindings`: the evaluator after it and the symbols that changed. -/
def recomputeComputedBindings (ctx : EvalCtx) (bindings : List ComputedBinding)
    (mutated : Finset Symbol) (reverseIndex : CompReverseIndex) (s : Evaluator) :
    Evaluator × Finset Symbol :=
  let rules := bindings.map (·.rule ctx s.maxInstructions)
  let start := startPools s mutated
  let candidates := Cascade.candidates rules reverseIndex.readers start
  let x := Cascade.byIndex rules reverseIndex.readers
    (Cascade.bound rules reverseIndex.readers start candidates) start candidates
  (x.inner.evaluator, x.changed)

/-- `recompute_computed_bindings_naive_scan`. -/
def recomputeNaiveScan (ctx : EvalCtx) (bindings : List ComputedBinding) (mutated : Finset Symbol)
    (s : Evaluator) : Evaluator × Finset Symbol :=
  let x := Cascade.scan (bindings.map (·.rule ctx s.maxInstructions)) (startPools s mutated)
  (x.inner.evaluator, x.changed)

end Mizu
