import Mizu.Types.Value

/-!
# Ordering values

`compareValues` is the order `sort` uses; `resolveDotPath` navigates nested records.
-/

namespace Mizu

namespace Value

/-- The position of a kind of value among values of other kinds. -/
def variantWeight : Value → Nat
  | null => 1
  | bool _ => 2
  | int _ => 3
  | decimal _ => 3
  | string _ => 4
  | list _ => 5
  | record _ => 6
  | fileHandle _ _ => 7

mutual

/-- `compare_values` on two present values. Numbers compare across the two representations. -/
def compareValues : Value → Value → Ordering
  | null, null => .eq
  | bool x, bool y => compare x y
  | int x, int y => compare x.toInt y.toInt
  | decimal x, decimal y => compare x.toInt y.toInt
  | int x, decimal y => compare (x.toInt * decimalScale) y.toInt
  | decimal x, int y => compare x.toInt (y.toInt * decimalScale)
  | string x, string y => compare x y
  | list xs, list ys => compareLists xs ys
  | record xs, record ys => compareFields xs ys
  | x, y => compare x.variantWeight y.variantWeight

/-- Element by element, then by length. -/
def compareLists : List Value → List Value → Ordering
  | [], [] => .eq
  | [], _ :: _ => .lt
  | _ :: _, [] => .gt
  | x :: xs, y :: ys =>
    match compareValues x y with
    | .eq => compareLists xs ys
    | ord => ord

/-- Field by field, the key before the value, then by length. -/
def compareFields : List (RecordField Value) → List (RecordField Value) → Ordering
  | [], [] => .eq
  | [], _ :: _ => .lt
  | _ :: _, [] => .gt
  | x :: xs, y :: ys =>
    match compare x.key y.key with
    | .eq =>
      match compareValues x.value y.value with
      | .eq => compareFields xs ys
      | ord => ord
    | ord => ord

end

/-- `compare_values`: an absent value comes first. -/
def compareOptions : Option Value → Option Value → Ordering
  | none, none => .eq
  | none, some _ => .lt
  | some _, none => .gt
  | some x, some y => compareValues x y

example : compareValues (int 2) (decimal 150000000) = .gt := by decide

end Value

end Mizu
