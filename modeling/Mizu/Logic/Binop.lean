import Mizu.Logic.Ast

/-!
# Operators and runtime types

`applyBinop` applies a binary operator to two values; its state is the running instruction count,
which only string concatenation charges. `checkType` is the check a call makes on its arguments.
-/

namespace Mizu

section Binop

/-- What a type mismatch reports: the left operand. -/
def mismatch {α : Type} (l : Value) : EStateM MizuError Nat α :=
  throw (.typeError "compatible operand types" l.typeName)

/-- A result that must fit in an `i64`. -/
def checked (wrap : Int64 → Value) (n : Int) : EStateM MizuError Nat Value :=
  match i64TryFrom n with
  | some i => pure (wrap i)
  | none => throw .integerOverflow

/-- The six comparisons; the last arm is never reached, as in the source. -/
def compareOp (op : BinOp) (l r : Int) : Bool :=
  match op with
  | .eq => l = r
  | .ne => l ≠ r
  | .lt => l < r
  | .gt => l > r
  | .le => l ≤ r
  | .ge => l ≥ r
  | _ => false

def BinOp.isComparison : BinOp → Bool
  | eq | ne | lt | gt | le | ge => true
  | _ => false

/-- Integers stay exact, except that division yields a decimal. -/
def intBinop (op : BinOp) (l r : Int64) : EStateM MizuError Nat Value :=
  match op with
  | .add => checked .int (l.toInt + r.toInt)
  | .sub => checked .int (l.toInt - r.toInt)
  | .mul => checked .int (l.toInt * r.toInt)
  | .div =>
    if r.toInt = 0 then throw .divisionByZero
    else checked .decimal ((l.toInt * decimalScale).tdiv r.toInt)
  | .and | .or => mismatch (.int l)
  | op => pure (.bool (compareOp op l.toInt r.toInt))

def decimalBinop (op : BinOp) (l r : Int64) : EStateM MizuError Nat Value :=
  match op with
  | .add => checked .decimal (l.toInt + r.toInt)
  | .sub => checked .decimal (l.toInt - r.toInt)
  | .mul => checked .decimal ((l.toInt * r.toInt).tdiv decimalScale)
  | .div =>
    if r.toInt = 0 then throw .divisionByZero
    else checked .decimal ((l.toInt * decimalScale).tdiv r.toInt)
  | .and | .or => mismatch (.decimal l)
  | op => pure (.bool (compareOp op l.toInt r.toInt))

/-- Promotes an integer operand of mixed arithmetic. -/
def promote (i : Int64) : EStateM MizuError Nat Int64 :=
  match i64TryFrom (i.toInt * decimalScale) with
  | some d => pure d
  | none => throw .integerOverflow

def stringBinop (max : Nat) (op : BinOp) (l r : String) : EStateM MizuError Nat Value :=
  match op with
  | .add => do
    -- The combined length is charged before the buffer is allocated.
    Value.chargeBudget (saturatingAdd l.utf8ByteSize r.utf8ByteSize) max
    return .string (l ++ r)
  | .eq => pure (.bool (l = r))
  | .ne => pure (.bool (l ≠ r))
  | .lt => pure (.bool (l < r))
  | .gt => pure (.bool (r < l))
  | .le => pure (.bool (¬r < l))
  | .ge => pure (.bool (¬l < r))
  | _ => mismatch (.string l)

def boolBinop (op : BinOp) (l r : Bool) : EStateM MizuError Nat Value :=
  match op with
  | .eq => pure (.bool (l = r))
  | .ne => pure (.bool (l ≠ r))
  | .and => pure (.bool (l && r))
  | .or => pure (.bool (l || r))
  | _ => mismatch (.bool l)

/-- At least one operand is null: only equality is defined, and `same` is its answer. -/
def nullBinop (op : BinOp) (l : Value) (same : Bool) : EStateM MizuError Nat Value :=
  match op with
  | .eq => pure (.bool same)
  | .ne => pure (.bool !same)
  | _ => mismatch l

/-- `apply_binop`. The source's arms are grouped by the kinds of the operands. -/
def applyBinop (max : Nat) (op : BinOp) (lv rv : Value) : EStateM MizuError Nat Value :=
  match lv, rv with
  | .int l, .int r => intBinop op l r
  | .decimal l, .decimal r => decimalBinop op l r
  | .int l, .decimal r =>
    -- Compared exactly; only arithmetic promotes, and may overflow doing so.
    if op.isComparison then pure (.bool (compareOp op (l.toInt * decimalScale) r.toInt))
    else do decimalBinop op (← promote l) r
  | .decimal l, .int r =>
    if op.isComparison then pure (.bool (compareOp op l.toInt (r.toInt * decimalScale)))
    else do decimalBinop op l (← promote r)
  | .string l, .string r => stringBinop max op l r
  | .bool l, .bool r => boolBinop op l r
  | .null, .null => nullBinop op .null true
  | .null, _ => nullBinop op .null false
  | l, .null => nullBinop op l false
  | l, _ => mismatch l

end Binop

/-! ## Runtime types -/

namespace ValueType

mutual

def display : ValueType → String
  | num => "num"
  | str => "string"
  | bool => "bool"
  | list inner => "list<" ++ inner.display ++ ">"
  | record fields => "record\x7b" ++ ", ".intercalate (displayFields fields) ++ "\x7d"
  | nullable inner => inner.display ++ "?"

def displayFields : List (String × ValueType) → List String
  | [] => []
  | (name, ty) :: fs => (name ++ ": " ++ ty.display) :: displayFields fs

end

mutual

/-- Whether a value passes `check_type` for a type. -/
def accepts : ValueType → Value → Bool
  | num, .int _ => true
  | num, .decimal _ => true
  | str, .string _ => true
  | bool, .bool _ => true
  | list inner, .list items => items.all fun v => inner.accepts v
  | record expected, .record fields => acceptsFields expected fields
  | nullable inner, v => v.isNull || inner.accepts v
  | _, _ => false

/-- Position by position: same length, same keys, accepted values. -/
def acceptsFields : List (String × ValueType) → List (RecordField Value) → Bool
  | [], [] => true
  | (name, ty) :: es, f :: fs => f.key = name && ty.accepts f.value && acceptsFields es fs
  | _, _ => false

end

end ValueType

/-- `check_type`. The names of the function and the parameter it also takes are not used in its
verdict or its error. -/
def checkType (v : Value) (expected : ValueType) : Except MizuError Unit :=
  if expected.accepts v then .ok () else .error (.typeError expected.display v.typeName)

end Mizu
