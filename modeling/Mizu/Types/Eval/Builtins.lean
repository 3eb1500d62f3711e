import Mizu.Logic.Binop
import Mizu.Types.Eval.Compare

/-!
# The pure builtins

`filter`, `count`, `sort`, `length`, `to_string`, `contains` and `has_field` evaluate all their
arguments first and then run natively on the values. The native part sees nothing of the evaluator
but its instruction count and limit: it is a program whose state is the count.
-/

namespace Mizu

/-- The builtins without effects. -/
inductive PureBuiltin where
  | filter
  | count
  | sort
  | length
  | toString
  | contains
  | hasField
  deriving DecidableEq, Repr

/-- Every name the evaluator dispatches before it looks at the function table. -/
inductive Builtin where
  | copyToClipboard
  | getSystemTime
  | storeLocal
  | download
  | pure (f : PureBuiltin)
  deriving DecidableEq, Repr

/-- The evaluator's dispatch on the name of a call and its number of arguments. Some names are
builtins only at one arity; at another they name a user function. -/
def Builtin.dispatch (name : String) (argc : Nat) : Option Builtin :=
  match name with
  | "copy_to_clipboard" => some .copyToClipboard
  | "get_system_time" => some .getSystemTime
  | "store_local" => some .storeLocal
  | "filter" => if argc = 4 then some (.pure .filter) else none
  | "count" => if argc = 3 then some (.pure .count) else none
  | "download" => if argc = 1 then some .download else none
  | "sort" => if argc = 3 then some (.pure .sort) else none
  | "length" => if argc = 1 then some (.pure .length) else none
  | "to_string" => if argc = 1 then some (.pure .toString) else none
  | "contains" => if argc = 2 then some (.pure .contains) else none
  | "has_field" => if argc = 2 then some (.pure .hasField) else none
  | _ => none

namespace PureBuiltin

abbrev Meter := EStateM MizuError Nat

/-- `str::contains` with a string pattern. -/
def containsStr (haystack needle : String) : Bool := decide (needle.toList <:+: haystack.toList)

def expectList : Value → Meter (List Value)
  | .list items => pure items
  | other => throw (.typeError "list" other.typeName)

def expectString : Value → Meter String
  | .string s => pure s
  | other => throw (.typeError "string" other.typeName)

/-- Adds to the count without looking at the limit. -/
def addCount (cost : Nat) : Meter Unit := modify (saturatingAdd · cost)

def checkCount (max : Nat) : Meter Unit := do
  if (← get) > max then throw .timeout

/-! ## `filter` -/

/-- The operator of a `filter` call; `none` is the substring test. -/
def filterOp (op : String) : Meter (Option BinOp) :=
  match op with
  | "eq" => pure (some .eq)
  | "ne" => pure (some .ne)
  | "lt" => pure (some .lt)
  | "le" => pure (some .le)
  | "gt" => pure (some .gt)
  | "ge" => pure (some .ge)
  | "contains" => pure none
  | other => throw (.executionError ("filter: unknown operator `" ++ other ++
      "` — expected one of eq, ne, lt, le, gt, ge, contains"))

/-- Whether `filter` keeps an item with this field value. An operator that does not apply to the
value drops the item; any other error ends the call. -/
def filterKeeps (max : Nat) (binop : Option BinOp) (fieldV target : Value) : Meter Bool :=
  match binop with
  | some op => fun ic =>
    match applyBinop max op fieldV target ic with
    | .ok (.bool b) ic' => .ok b ic'
    | .ok _ ic' => .ok false ic'
    | .error (.typeError _ _) ic' => .ok false ic'
    | .error e ic' => .error e ic'
  | none =>
    match fieldV, target with
    | .string h, .string n => pure (containsStr h n)
    | _, _ => pure false

def filterItems (max : Nat) (field : String) (binop : Option BinOp) (target : Value) :
    List Value → Meter (List Value)
  | [] => pure []
  | item :: items => do
    match item.getField (hashField field) field with
    | some fieldV =>
      if ← filterKeeps max binop fieldV target then
        return item :: (← filterItems max field binop target items)
      else filterItems max field binop target items
    | none => filterItems max field binop target items

/-- The bytes the substring test will scan. -/
def scanCost (field : String) (items : List Value) : Nat :=
  (items.map fun item =>
    match item.getField (hashField field) field with
    | some (.string s) => s.utf8ByteSize
    | _ => 0).sum

def applyFilter (max : Nat) (listVal fieldVal opVal target : Value) : Meter Value := do
  let items ← expectList listVal
  let field ← expectString fieldVal
  let op ← expectString opVal
  addCount items.length
  if op = "contains" then addCount (scanCost field items)
  checkCount max
  let binop ← filterOp op
  -- The loop counts on a copy, which is written back only if no comparison fails.
  fun ic =>
    match filterItems max field binop target items ic with
    | .ok filtered ic' => .ok (.list filtered) ic'
    | .error e _ => .error e ic

/-! ## `count` -/

def countItems (arc : ArcEq) (max : Nat) (field : String) (target : Value) :
    List Value → Meter Nat
  | [] => pure 0
  | item :: items => do
    match item.getField (hashField field) field with
    | some v =>
      let here := if ← v.budgetEq arc target max then 1 else 0
      return here + (← countItems arc max field target items)
    | none => countItems arc max field target items

def applyCount (arc : ArcEq) (max : Nat) (listVal fieldVal target : Value) : Meter Value := do
  let items ← expectList listVal
  addCount items.length
  checkCount max
  let field ← expectString fieldVal
  return .int (Int64.ofNat (← countItems arc max field target items))

/-! ## `sort` -/

/-- The sort key of an item; only scalars can be sorted on. -/
def sortKey (field : String) (item : Value) : Meter (Option Value) :=
  match item.getField (hashField field) field with
  | none => pure none
  | some (.list _) | some (.record _) | some (.fileHandle _ _) =>
    throw (.executionError "sort: cannot sort on complex nested fields (List/Record)")
  | some key => pure (some key)

def sortPairs (field : String) : List Value → Meter (List (Option Value × Value))
  | [] => pure []
  | item :: items => do
    let key ← sortKey field item
    return (key, item) :: (← sortPairs field items)

/-- Whether `a` may stand before `b`. -/
def sortBefore (direction : String) (a b : Option Value × Value) : Bool :=
  let ord := Value.compareOptions a.1 b.1
  (if direction = "desc" then ord.swap else ord) != .gt

def applySort (max : Nat) (listVal fieldVal directionVal : Value) : Meter Value := do
  let items ← expectList listVal
  -- `BITS - leading_zeros` is the number of binary digits.
  let log2N := if items.length = 0 then 0 else items.length.log2 + 1
  addCount (min (items.length * log2N) u64Max)
  checkCount max
  let field ← expectString fieldVal
  let direction ← expectString directionVal
  if direction ≠ "asc" ∧ direction ≠ "desc" then
    throw (.executionError ("sort: direction must be `asc` or `desc`, got `" ++ direction ++ "`"))
  let paired ← sortPairs field items
  return .list ((paired.insertionSort (sortBefore direction · ·)).map (·.2))

/-! ## The others -/

def applyLength (max : Nat) : Value → Meter Value
  | .list items => pure (.int (Int64.ofNat items.length))
  | .string s => do
    -- The byte length bounds the character count and is checked before the scan.
    if saturatingAdd (← get) s.utf8ByteSize > max then throw .timeout
    addCount s.toList.length
    return .int (Int64.ofNat s.toList.length)
  | other => throw (.typeError "list or string" other.typeName)

def applyToString : Value → Meter Value
  | .int i => pure (.string (Value.int i).display)
  | .decimal i => pure (.string (Value.decimal i).display)
  | .bool b => pure (.string (Value.bool b).display)
  | other => throw (.typeError "num or bool" other.typeName)

def applyContains (max : Nat) (haystackVal needleVal : Value) : Meter Value := do
  let haystack ← expectString haystackVal
  let needle ← expectString needleVal
  addCount haystack.utf8ByteSize
  checkCount max
  return .bool (containsStr haystack needle)

def applyHasField (recordVal nameVal : Value) : Meter Value := do
  match recordVal with
  | .record _ =>
    let name ← expectString nameVal
    return .bool (recordVal.getField (hashField name) name).isSome
  | other => throw (.typeError "record" other.typeName)

/-- The native part of a builtin on its evaluated arguments. The dispatch fixes their number, so
the last arm is never reached. -/
def apply (arc : ArcEq) (max : Nat) : PureBuiltin → List Value → Meter Value
  | filter, [list, field, op, target] => applyFilter max list field op target
  | count, [list, field, target] => applyCount arc max list field target
  | sort, [list, field, direction] => applySort max list field direction
  | length, [v] => applyLength max v
  | toString, [v] => applyToString v
  | contains, [haystack, needle] => applyContains max haystack needle
  | hasField, [record, name] => applyHasField record name
  | _, _ => throw .timeout

end PureBuiltin

end Mizu
