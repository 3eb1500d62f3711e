import Mizu.Types.Eval.State

/-!
# The evaluator

`evaluateImpl` is one level of the source's recursive evaluator, over the recursive call as a
parameter. `evaluate` ties the knot: the native recursion is bounded by `eval_depth`, so 256 levels
of it are all there is (`evaluate_eq`), and the two checks at the head of every call are `enter`.
-/

namespace Mizu

open Exec

/-- What an evaluation reads and never writes. -/
structure EvalCtx where
  functions : FunctionTable
  interner : Interner
  arcEq : ArcEq

def EvalCtx.nameOf (ctx : EvalCtx) (sym : Symbol) : String :=
  (ctx.interner.resolve sym).getD "<unknown>"

/-- Runs a native computation, which sees the instruction limit and the instruction count. -/
def native {α : Type} (x : Nat → EStateM MizuError Nat α) : EvalM α := fun s =>
  match x s.maxInstructions s.instructionCount with
  | .ok a n => .ok a { s with instructionCount := n }
  | .error e n => .error e { s with instructionCount := n }

section Impl

variable (ctx : EvalCtx)

/-- The recursive call: a frame pointer, an arena and a node of it. -/
abbrev Recur := Nat → ExprArena → Expr → EvalM Value

/-- A local of the current frame, else a global that is not null. -/
def readVariable (fp : Nat) (sym : Symbol) : EvalM Value := do
  let s ← get
  match s.getLocal sym fp with
  | some v => return v
  | none =>
    if (s.getGlobal sym).isNull then throw (.variableNotFound (ctx.nameOf sym))
    else return s.getGlobal sym

def notValue : Value → EStateM MizuError Nat Value
  | .bool b => pure (.bool !b)
  | other => throw (.typeError "bool" other.typeName)

def accessField (field : Symbol) (fieldHash : UInt32) (base : Value) : EStateM MizuError Nat Value :=
  match base with
  | .record _ =>
    let fieldStr := (ctx.interner.resolve field).getD ""
    match base.getField fieldHash fieldStr with
    | some v => pure v
    | none => throw (.variableNotFound fieldStr)
  | other => throw (.typeError "record" other.typeName)

/-- Arguments, left to right. -/
def evalArgs (ev : Expr → EvalM Value) : List Expr → EvalM (List Value)
  | [] => pure []
  | e :: es => do
    let v ← ev e
    let vs ← evalArgs ev es
    return v :: vs

/-- Checks and binds the parameters of a call one by one: a parameter whose check fails leaves the
ones before it bound. -/
def bindParams : List (Symbol × ValueType) → List Value → EvalM Unit
  | (paramSym, expectedType) :: params, v :: vs => do
    match checkType v expectedType with
    | .ok () =>
      modify (·.pushLocal paramSym v)
      bindParams params vs
    | .error e => throw e
  | _, _ => pure ()

def undefinedFunction (name : Symbol) : MizuError :=
  .parseError ("call to undefined function `" ++ ctx.nameOf name ++ "`")

def wrongArity (name : Symbol) (expected got : Nat) : MizuError :=
  .parseError ("function `" ++ ctx.nameOf name ++ "` expects " ++ toString expected ++
    " argument(s), got " ++ toString got)

/-- A call of a user function: its body runs in a frame of its own. -/
def callFunction (ev : Recur) (fp : Nat) (arena : ExprArena) (name : Symbol) (args : List Expr) :
    EvalM Value :=
  match ctx.functions.lookup name with
  | none => throw (undefinedFunction ctx name)
  | some func =>
    if args.length ≠ func.params.length then throw (wrongArity ctx name func.params.length args.length)
    else do
      let vs ← evalArgs (ev fp arena) args
      let newFp := (← get).locals.stack.length
      bindParams func.params vs
      onExit (ev newFp func.body.arena func.body.rootExpr) (·.truncateLocals newFp)

def copyToClipboard (ev : Expr → EvalM Value) : List Expr → EvalM Value
  | [e] => do
    match ← ev e with
    | .string nodeId =>
      modify (·.act (.copyToClipboard nodeId))
      return .bool true
    | _ => throw (.executionError "copy_to_clipboard argument must be a node id string")
  | _ => throw (.executionError "copy_to_clipboard expects 1 argument")

/-- The argument names the target and is not evaluated. -/
def getSystemTime : List Expr → EvalM Value
  | [.var sym] => do
    let s ← get
    if sym ∈ s.computedVarSyms then
      throw (.executionError "get_system_time cannot target a computed variable")
    else do
      modify (·.act (.getSystemTime sym))
      return .bool true
  | _ => throw (.executionError
      "get_system_time expects a single bare variable identifier, e.g. get_system_time(my_var)")

def storeLocal (ev : Expr → EvalM Value) : List Expr → EvalM Value
  | [k, e] => do
    match ← ev k with
    | .string key =>
      let value ← ev e
      modify (·.act (.storeLocal key value))
      return .bool true
    | _ => throw (.executionError "store_local key must be a string")
  | _ => throw (.executionError "store_local expects 2 arguments: (key, value)")

/-- The argument names the alias and is not evaluated. -/
def download : List Expr → EvalM Value
  | [.var sym] => do
    modify (·.act (.downloadAlias sym.id))
    return .null
  | _ => throw (.executionError "download: alias must be a bare identifier, e.g. download(backup)")

def evaluateCall (ev : Recur) (fp : Nat) (arena : ExprArena) (name : Symbol) (args : List Expr) :
    EvalM Value :=
  match Builtin.dispatch (ctx.nameOf name) args.length with
  | some .copyToClipboard => copyToClipboard (ev fp arena) args
  | some .getSystemTime => getSystemTime args
  | some .storeLocal => storeLocal (ev fp arena) args
  | some .download => download args
  | some (.pure f) => do
    let vs ← evalArgs (ev fp arena) args
    native fun max => f.apply ctx.arcEq max vs
  | none => callFunction ctx ev fp arena name args

/-- `evaluate_impl`. -/
def evaluateImpl (ev : Recur) (fp : Nat) (arena : ExprArena) : Expr → EvalM Value
  | .literal v => pure v
  | .var sym => readVariable ctx fp sym
  | .binaryOp left op right => do
    let lv ← ev fp arena (arena.get left)
    let rv ← ev fp arena (arena.get right)
    native fun max => applyBinop max op lv rv
  | .functionCall name start len => evaluateCall ctx ev fp arena name (arena.args start len)
  | .letIn name value body => do
    let bound ← ev fp arena (arena.get value)
    modify (·.pushLocal name bound)
    onExit (ev fp arena (arena.get body)) (·.popLocal)
  | .not inner => do
    let v ← ev fp arena (arena.get inner)
    native fun _ => notValue v
  | .ifElse condition thenExpr elseExpr => do
    match ← ev fp arena (arena.get condition) with
    | .bool true => ev fp arena (arena.get thenExpr)
    | .bool false => ev fp arena (arena.get elseExpr)
    | other => throw (.typeError "bool" other.typeName)
  | .fieldAccess base field fieldHash => do
    let v ← ev fp arena (arena.get base)
    native fun _ => accessField ctx field fieldHash v

end Impl

def tooDeep : MizuError := .executionError "evaluation nesting too deep (max 256 levels)"

/-- The head of `evaluate`: charge one instruction, then go one level deeper. -/
def enter : EvalM Unit := fun s =>
  let s := { s with instructionCount := s.instructionCount + 1 }
  if s.instructionCount > s.maxInstructions then .error .timeout s
  else if s.evalDepth + 1 > maxEvalDepth then .error tooDeep s
  else .ok () { s with evalDepth := s.evalDepth + 1 }

def leave (s : Evaluator) : Evaluator := { s with evalDepth := s.evalDepth - 1 }

/-- `evaluate` with at most `levels` levels of recursion. -/
def evaluateWithin (ctx : EvalCtx) : Nat → Recur
  | 0, _, _, _ => do
    enter
    onExit (throw tooDeep) leave
  | levels + 1, fp, arena, e => do
    enter
    onExit (evaluateImpl ctx (evaluateWithin ctx levels) fp arena e) leave

/-- `Evaluator::evaluate`. -/
def evaluate (ctx : EvalCtx) : Recur := evaluateWithin ctx maxEvalDepth

end Mizu
