import Mizu.Logic.Document

/-!
# The information-flow check

`checkInformationFlow` marks the variables and functions that data from the network or from a form
can reach, by a worklist over the dependencies of functions, computed bindings and assignments,
and rejects a document in which such data reaches the URL of a navigation that no user gesture
triggers. It also records on each computed binding whether it is tainted.
-/

namespace Mizu

/-- Whether an action is triggered by a user's gesture. -/
inductive ActionContext where
  | userGesture
  | nonInteractive
  deriving DecidableEq, Repr

/-- Why a variable is tainted. -/
inductive TaintOrigin where
  | networkResponse (actionDesc : String)
  | formField
  | propagated (fromVar : String)
  deriving DecidableEq, Repr

/-- How a hash set is iterated: an order that the insertions (the latest first) determine. -/
structure HashOrder where
  list : List Symbol → List Symbol
  perm : ∀ l, (list l).Perm l

/-- Iteration in insertion order. -/
def HashOrder.insertion : HashOrder := ⟨List.reverse, List.reverse_perm⟩

def NetworkMethod.debug : NetworkMethod → String
  | get => "Get"
  | post => "Post"
  | put => "Put"
  | delete => "Delete"
  | query => "Query"

/-- Every action with its context, in the order the checker collects them. -/
def Document.contextActions (d : Document) : List (ActionContext × Action) :=
  d.eventActions.map (.userGesture, ·) ++ d.timerActions.map (.nonInteractive, ·)

/-! ## Sources -/

/-- The tainted variables found so far, the latest first, and why they are tainted. -/
abbrev Sources := List Symbol × FxHashMap Symbol TaintOrigin

/-- The target variable of a network call is a source. -/
def addNetworkSource (interner : Interner) (acc : Sources) : Action → Sources
  | .networkCall method aliasSym _ _ targetVar _ _ =>
    match interner.get targetVar with
    | some sym =>
      let aliasName := (interner.resolve aliasSym).getD "<unknown>"
      (acc.1.insert sym,
        acc.2.insert sym (.networkResponse (method.debug ++ "(" ++ aliasName ++ ")")))
    | none => acc
  | _ => acc

/-- The form record and the target variables of all network calls. -/
def taintSources (d : Document) : Sources :=
  let form : Sources :=
    match d.interner.get "$form" with
    | some sym => ([sym], Finmap.singleton sym .formField)
    | none => ([], ∅)
  d.actions.foldl (addNetworkSource d.interner) form

/-! ## The dependency graph -/

/-- What depends on a symbol: a function, a computed binding, or the target of an assignment. -/
inductive Dependent where
  | function (name : Symbol)
  | comp (name : Symbol)
  | assign (target : Symbol)
  deriving DecidableEq, Repr

/-- Each edge leads from a symbol to something that reads it. -/
abbrev TaintGraph := List (Symbol × Dependent)

/-- `extract_deps`: the variables an expression reads and the functions it calls. The name of
`get_system_time` is left out, its argument is not. -/
def extractDeps (gstSym : Option Symbol) (arena : ExprArena) :
    Nat → Expr → List Symbol → Walk (List Symbol)
  | 0, _, _ => throw .overflow
  | fuel + 1, e, deps =>
    let deps :=
      match e with
      | .var sym => deps.insert sym
      | .functionCall name _ _ => if some name = gstSym then deps else deps.insert name
      | _ => deps
    (arena.children e).foldlM (fun deps e => extractDeps gstSym arena fuel e deps) deps

/-- The edges to `dep` from everything the expression depends on. -/
def edgesTo (order : HashOrder) (gstSym : Option Symbol) (t : ExprTree) (dep : Dependent) :
    Walk TaintGraph := do
  let deps ← extractDeps gstSym t.arena (walkFuel t.arena) t.rootExpr []
  return (order.list deps).map (·, dep)

section Graph

variable (order : HashOrder) (d : Document)

def functionEdges (name : Symbol) : Walk TaintGraph :=
  match d.functions.lookup name with
  | some func => edgesTo order (d.interner.get "get_system_time") func.body (.function name)
  | none => return []

def compEdges (comp : ComputedBinding) : Walk TaintGraph :=
  edgesTo order (d.interner.get "get_system_time") comp.expr (.comp comp.name)

def assignEdges : Action → Walk TaintGraph
  | .assign target expr =>
    match d.interner.get target with
    | some sym => edgesTo order (d.interner.get "get_system_time") expr (.assign sym)
    | none => return []
  | _ => return []

def taintGraph : Walk TaintGraph := do
  let functions ← d.functionOrder.mapM (functionEdges order d)
  let comps ← d.comps.mapM (compEdges order d)
  let assigns ← d.actions.mapM (assignEdges order d)
  return functions.flatten ++ comps.flatten ++ assigns.flatten

end Graph

/-! ## Propagation -/

structure Taint where
  /-- Symbols found tainted whose dependents have not been visited, the next one first. -/
  worklist : List Symbol
  vars : Finset Symbol
  functions : Finset Symbol
  origins : FxHashMap Symbol TaintOrigin

namespace Taint

def markVar (interner : Interner) (origin : Symbol) (t : Taint) (sym : Symbol) : Taint :=
  if sym ∈ t.vars then t
  else
    { t with
      worklist := sym :: t.worklist
      vars := insert sym t.vars
      origins := t.origins.insert sym (.propagated ((interner.resolve origin).getD "<unknown>")) }

/-- Visits a dependent of a tainted symbol. -/
def visit (interner : Interner) (origin : Symbol) (t : Taint) : Dependent → Taint
  | .function sym =>
    if sym ∈ t.functions then t
    else { t with worklist := sym :: t.worklist, functions := insert sym t.functions }
  | .comp sym | .assign sym => t.markVar interner origin sym

end Taint

/-- The dependents of a symbol, in the order they were entered. -/
def dependentsOf (graph : TaintGraph) (sym : Symbol) : List Dependent :=
  (graph.filter (·.1 = sym)).map (·.2)

/-- The worklist loop. It ends with an empty worklist when the fuel is at least the length of the
worklist plus the number of edges. -/
def propagate (interner : Interner) (graph : TaintGraph) : Nat → Taint → Taint
  | 0, t => t
  | fuel + 1, t =>
    match t.worklist with
    | [] => t
    | sym :: worklist =>
      propagate interner graph fuel
        ((dependentsOf graph sym).foldl (·.visit interner sym) { t with worklist })

/-- The result of the fixpoint. -/
def taintOf (order : HashOrder) (d : Document) : Walk Taint := do
  let graph ← taintGraph order d
  let (sources, origins) := taintSources d
  return propagate d.interner graph (sources.length + graph.length)
    { worklist := (order.list sources).reverse, vars := sources.toFinset, functions := ∅, origins }

/-! ## Targets of get_system_time -/

def collectGetSystemTimeTargets (gstSym : Symbol) (arena : ExprArena) :
    Nat → Expr → List Symbol → Walk (List Symbol)
  | 0, _, _ => throw .overflow
  | fuel + 1, e, out =>
    let out :=
      match e with
      | .functionCall name start len =>
        match arena.args start len with
        | [.var target] => if name = gstSym then out ++ [target] else out
        | _ => out
      | _ => out
    (arena.children e).foldlM (fun out e => collectGetSystemTimeTargets gstSym arena fuel e out) out

/-- No `get_system_time` of the document may target a computed binding. -/
def checkGetSystemTime (d : Document) (gstSym : Symbol) : Walk Unit := do
  let bodies := d.functionOrder.filterMap fun name => (d.functions.lookup name).map (·.body)
  let trees := bodies ++ d.comps.map (·.expr) ++ d.actions.flatMap (·.trees)
  let targets ← trees.foldlM (fun out t =>
    collectGetSystemTimeTargets gstSym t.arena (walkFuel t.arena) t.rootExpr out) []
  match targets.find? fun target => d.comps.any (·.name = target) with
  | some target =>
    let name := (d.interner.resolve target).getD "<unknown>"
    throw (.error (.parseError ("get_system_time cannot target `" ++ name ++
      "`: it is a computed (`comp`) variable, which cannot be assigned to.")))
  | none => return ()

/-! ## Sinks -/

section Sinks

variable (t : Taint) (gstSym : Option Symbol) (arena : ExprArena)

/-- `is_expr_tainted`. A call of `get_system_time` is clean, its argument is not read. -/
def isExprTainted : Nat → Expr → Walk Bool
  | 0, _ => throw .overflow
  | fuel + 1, e =>
    match e with
    | .var sym => return decide (sym ∈ t.vars)
    | .functionCall name start len =>
      if some name = gstSym then return false
      else if name ∈ t.functions then return true
      else (arena.args start len).anyM (isExprTainted fuel)
    | e => (arena.children e).anyM (isExprTainted fuel)

/-- `find_tainted_var_in_expr`. -/
def findTaintedVarInExpr : Nat → Expr → Walk (Option Symbol)
  | 0, _ => throw .overflow
  | fuel + 1, e =>
    match e with
    | .var sym => return if sym ∈ t.vars then some sym else none
    | .functionCall name start len =>
      if some name = gstSym then return none
      else if name ∈ t.functions then return some name
      else (arena.args start len).findSomeM? (findTaintedVarInExpr fuel)
    | e => (arena.children e).findSomeM? (findTaintedVarInExpr fuel)

end Sinks

def TaintOrigin.describe (varName : String) : TaintOrigin → String
  | networkResponse actionDesc => "value '" ++ varName ++ "' (from " ++ actionDesc ++ ")"
  | formField => "value '" ++ varName ++ "' (from $form)"
  | propagated fromVar => "value '" ++ varName ++ "' (derived from '" ++ fromVar ++ "')"

/-- `build_taint_path`. -/
def buildTaintPath (interner : Interner) (t : Taint) (gstSym : Option Symbol) (url : ExprTree) :
    Walk String := do
  match ← findTaintedVarInExpr t gstSym url.arena (walkFuel url.arena) url.rootExpr with
  | none => return "tainted expression"
  | some sym =>
    let varName := (interner.resolve sym).getD "<unknown>"
    match t.origins.lookup sym with
    | some origin => return origin.describe varName
    | none => return "tainted value '" ++ varName ++ "'"

/-- A navigation to a tainted URL needs a user gesture. -/
def checkSink (interner : Interner) (t : Taint) (gstSym : Option Symbol) (context : ActionContext)
    (url : ExprTree) : Walk Unit := do
  if (← isExprTainted t gstSym url.arena (walkFuel url.arena) url.rootExpr) &&
      context != .userGesture then
    let path ← buildTaintPath interner t gstSym url
    throw (.error (.parseError ("Information Flow Violation: " ++ path ++
      " reaches 'navigate' without a user gesture gate.")))

/-- Checks every sink and counts them. -/
def checkSinks (interner : Interner) (t : Taint) (gstSym : Option Symbol) :
    List (ActionContext × Action) → Walk Nat
  | [] => return 0
  | (context, .navigate url) :: actions => do
    checkSink interner t gstSym context url
    return 1 + (← checkSinks interner t gstSym actions)
  | _ :: actions => checkSinks interner t gstSym actions

/-- The computed bindings with their taint recorded. -/
def markComps (t : Taint) (comps : List ComputedBinding) : List ComputedBinding :=
  comps.map fun comp => { comp with tainted := decide (comp.name ∈ t.vars) }

/-- `check_information_flow`: the computed bindings with their taint, and the numbers of sources,
sinks and violations. -/
def checkInformationFlow (order : HashOrder) (d : Document) :
    Walk (List ComputedBinding × Nat × Nat × Nat) := do
  let gstSym := d.interner.get "get_system_time"
  let t ← taintOf order d
  match gstSym with
  | some gstSym => checkGetSystemTime d gstSym
  | none => pure ()
  let sinks ← checkSinks d.interner t gstSym d.contextActions
  return (markComps t d.comps, (taintSources d).1.length, sinks, 0)

end Mizu
