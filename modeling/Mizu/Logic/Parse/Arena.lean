import Mizu.Logic.Parse.Expr

/-!
# Trees in an arena

The parser puts an expression into an arena, whose order depends on how the expression is written. `Holds` is what
every such arena has in common: the expression of the arena reads as the tree.
-/

namespace Mizu

section Holds

variable (i : Interner) (a : ExprArena)

mutual

/-- An expression of an arena reads as a tree. -/
def Holds : Tree → Expr → Prop
  | .literal v, e => e = .literal v
  | .var name, e => ∃ sym, e = .var sym ∧ i.resolve sym = some name
  | .binaryOp left op right, e => ∃ l r, e = .binaryOp l op r ∧ Holds left (a.get l) ∧ Holds right (a.get r)
  | .functionCall name args, e => ∃ sym start len, e = .functionCall sym start len ∧ i.resolve sym = some name ∧
      HoldsAll args (a.args start len)
  | .letIn name value body, e => ∃ sym v b, e = .letIn sym v b ∧ i.resolve sym = some name ∧
      Holds value (a.get v) ∧ Holds body (a.get b)
  | .not inner, e => ∃ id, e = .not id ∧ Holds inner (a.get id)
  | .ifElse condition thenExpr elseExpr, e => ∃ c t f, e = .ifElse c t f ∧ Holds condition (a.get c) ∧
      Holds thenExpr (a.get t) ∧ Holds elseExpr (a.get f)
  | .fieldAccess base field, e => ∃ b sym, e = .fieldAccess b sym (hashField field) ∧ i.resolve sym = some field ∧
      Holds base (a.get b)

def HoldsAll : List Tree → List Expr → Prop
  | [], es => es = []
  | t :: ts, es => ∃ e es', es = e :: es' ∧ Holds t e ∧ HoldsAll ts es'

end

end Holds

def ExprArena.new : ExprArena where
  nodes := []
  argsPool := []
  nodes_valid := by simp
  pool_valid := by simp

end Mizu
