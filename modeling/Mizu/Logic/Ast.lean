import Mizu.Types.Interner
import Mizu.Types.Value

/-!
# The logic block's syntax

Expressions live in an arena: a node refers to its children by index, and the arguments of a call
are a window of a pool that the whole arena shares. An arena built from untrusted bytes may
describe a cycle but never a reference out of range: an `ExprArena` carries the result of the check
that `validate_references` makes.
-/

namespace Mizu

inductive ValueType where
  | num
  | str
  | bool
  | list (inner : ValueType)
  /-- Fields sorted by name. -/
  | record (fields : List (String × ValueType))
  | nullable (inner : ValueType)
  deriving Repr

inductive NetworkMethod where
  | get
  | post
  | put
  | delete
  | query
  deriving DecidableEq, Repr

def NetworkMethod.asStr : NetworkMethod → String
  | get => "GET"
  | post => "POST"
  | put => "PUT"
  | delete => "DELETE"
  | query => "QUERY"

inductive PayloadFormat where
  | json
  | form
  | text
  | yaml
  | multipart
  deriving DecidableEq, Repr

def PayloadFormat.asKeyword : PayloadFormat → String
  | json => "json"
  | form => "form"
  | text => "text"
  | yaml => "yaml"
  | multipart => "multipart"

inductive BinOp where
  | add
  | sub
  | mul
  | div
  | eq
  | ne
  | lt
  | gt
  | le
  | ge
  | and
  | or
  deriving DecidableEq, Repr

/-- The index of a node in its arena. -/
abbrev ExprId := Nat

inductive Expr where
  | literal (v : Value)
  | var (sym : Symbol)
  | binaryOp (left : ExprId) (op : BinOp) (right : ExprId)
  | functionCall (name : Symbol) (argsStart argsLen : Nat)
  | letIn (name : Symbol) (value body : ExprId)
  | not (inner : ExprId)
  | ifElse (condition thenExpr elseExpr : ExprId)
  | fieldAccess (base : ExprId) (field : Symbol) (fieldHash : UInt32)
  deriving Repr

/-- What `validate_references` checks of one node: children below `nodes`, argument windows inside
the pool. -/
def Expr.refsValid (nodes pool : Nat) : Expr → Bool
  | literal _ => true
  | var _ => true
  | binaryOp l _ r => l < nodes && r < nodes
  | functionCall _ start len => start + len ≤ pool
  | letIn _ v b => v < nodes && b < nodes
  | not e => e < nodes
  | ifElse c t e => c < nodes && t < nodes && e < nodes
  | fieldAccess b _ _ => b < nodes

/-- References below a smaller bound are below the larger one. -/
theorem Expr.refsValid_mono {n n' pool pool' : Nat} (hn : n ≤ n') (hpool : pool ≤ pool') {e : Expr}
    (h : e.refsValid n pool = true) : e.refsValid n' pool' = true := by
  cases e with
  | literal v => rfl
  | var sym => rfl
  | functionCall name start len => exact decide_eq_true ((of_decide_eq_true h).trans hpool)
  | _ =>
    simp only [refsValid, Bool.and_eq_true, decide_eq_true_eq] at h ⊢
    first
      | exact h.trans_le hn
      | exact ⟨h.1.trans_le hn, h.2.trans_le hn⟩
      | exact ⟨⟨h.1.1.trans_le hn, h.1.2.trans_le hn⟩, h.2.trans_le hn⟩

structure ExprArena where
  nodes : List Expr
  argsPool : List ExprId
  nodes_valid : ∀ e ∈ nodes, e.refsValid nodes.length argsPool.length
  pool_valid : ∀ id ∈ argsPool, id < nodes.length

namespace ExprArena

/-- The node `id` refers to. Indices stored in an arena are in range, so the default is never
reached through one. -/
def get (a : ExprArena) (id : ExprId) : Expr := a.nodes.getD id (.literal .null)

/-- The argument expressions of a call. -/
def args (a : ExprArena) (start len : Nat) : List Expr :=
  ((a.argsPool.drop start).take len).map a.get

/-- The expressions an expression is made of, in source order. -/
def children (a : ExprArena) : Expr → List Expr
  | .literal _ | .var _ => []
  | .binaryOp left _ right => [a.get left, a.get right]
  | .functionCall _ start len => a.args start len
  | .letIn _ value body => [a.get value, a.get body]
  | .not inner => [a.get inner]
  | .ifElse condition thenExpr elseExpr => [a.get condition, a.get thenExpr, a.get elseExpr]
  | .fieldAccess base _ _ => [a.get base]

theorem get_mem {a : ExprArena} {id : ExprId} (h : id < a.nodes.length) : a.get id ∈ a.nodes := by
  simp [get, List.getD_eq_getElem?_getD, List.getElem?_eq_getElem h]

theorem args_mem {a : ExprArena} {start len : Nat} {e : Expr} (h : e ∈ a.args start len) :
    e ∈ a.nodes := by
  grind [args, get_mem, a.pool_valid]

end ExprArena

/-- A root node together with the arena it belongs to. -/
structure ExprTree where
  arena : ExprArena
  root : ExprId
  root_valid : root < arena.nodes.length

def ExprTree.rootExpr (t : ExprTree) : Expr := t.arena.get t.root

/-! The arenas of a variable, of a constant and of a call, which documents in examples share. -/

theorem emptyPool_valid : ∀ id ∈ ([] : List ExprId), id < 1 := by decide

theorem firstVar_valid : ∀ e ∈ [Expr.var ⟨0⟩], e.refsValid 1 0 := by decide

theorem secondVar_valid : ∀ e ∈ [Expr.var ⟨1⟩], e.refsValid 1 0 := by decide

theorem one_valid : ∀ e ∈ [Expr.literal (.int 1)], e.refsValid 1 0 := by decide

theorem nextUrl_valid : ∀ e ∈ [Expr.literal (.string "mizu://a.mizu/next")], e.refsValid 1 0 := by simp [Expr.refsValid]

theorem nullaryCall_valid : ∀ e ∈ [Expr.functionCall ⟨0⟩ 0 0], e.refsValid 1 0 := by decide

inductive Action where
  | eval (expr : ExprTree)
  | assign (target : String) (expr : ExprTree)
  | navigate (url : ExprTree)
  | networkCall (method : NetworkMethod) (aliasSym : Symbol) (payload pathParam : Option ExprTree)
      (targetVar : String) (format : PayloadFormat) (headers : List (String × ExprTree))

/-- `action_exprs`: the expressions of an action, in evaluation order. -/
def Action.trees : Action → List ExprTree
  | .eval expr | .assign _ expr | .navigate expr => [expr]
  | .networkCall _ _ payload pathParam _ _ headers =>
    payload.toList ++ pathParam.toList ++ headers.map (·.2)

structure MizuFunction where
  params : List (Symbol × ValueType)
  body : ExprTree

abbrev FunctionTable := FxHashMap Symbol MizuFunction

/-- A `comp` binding. `tainted` is filled in by the information-flow check. -/
structure ComputedBinding where
  name : Symbol
  expr : ExprTree
  dependsOn : List Symbol
  tainted : Bool

/-! ## Walks over an arena -/

/-- How a walk over an arena ends early: with an error of the source, or by overflowing the native
stack, as on a cyclic arena. -/
inductive WalkError where
  | error (e : MizuError)
  | overflow
  deriving DecidableEq, Repr

abbrev Walk := Except WalkError

/-- The fuel a walk over an arena needs at most, if the arena has no cycle. -/
def walkFuel (arena : ExprArena) : Nat := arena.nodes.length + 1

end Mizu
