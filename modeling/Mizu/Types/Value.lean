import Mizu.Lib.Exec

/-!
# Errors and values

`MizuError` is the error type of the parser, the checkers and the evaluator. `Value` is the value
an expression evaluates to, with the record representation (`recordFromUnsorted`, `getField`), the
budgeted equality (`budgetEq`) and the rendering (`display`) the evaluator uses.

Shared ownership is not modelled: a value is its contents. The one place where the code asks
whether two handles are the *same* allocation is `Arc::ptr_eq`; its answer is the parameter
`ArcEq`, except for file handles, which compare by allocation only and so carry theirs.
-/

namespace Mizu

/-- The failures the modelled functions report, with the texts of the source. -/
inductive MizuError where
  | parseError (message : String)
  | integerOverflow
  | typeError (expected found : String)
  | staticTypeError (message : String)
  | variableNotFound (name : String)
  | divisionByZero
  | network (message : String)
  | executionError (message : String)
  | timeout
  | securityViolation (message : String)
  | ipcError (message : String)
  deriving DecidableEq, Repr

/-- The text of an error. -/
def MizuError.display : MizuError → String
  | parseError message => "parse error: " ++ message
  | integerOverflow => "integer overflow"
  | typeError expected found => "type error: expected `" ++ expected ++ "`, found `" ++ found ++ "`"
  | staticTypeError message => "static type error: " ++ message
  | variableNotFound name => "variable not found: `" ++ name ++ "`"
  | divisionByZero => "division by zero"
  | network message => "network error: " ++ message
  | executionError message => "execution error: " ++ message
  | timeout => "timeout: execution budget exceeded"
  | securityViolation message => "security violation: " ++ message
  | ipcError message => "IPC error: " ++ message

/-! ## Machine arithmetic -/

/-- The scale of a fixed-point decimal: eight digits. -/
def decimalScale : Int := 100000000

def u64Max : Nat := 2 ^ 64 - 1

/-- `u64::saturating_add`. -/
def saturatingAdd (a b : Nat) : Nat := min (a + b) u64Max

/-- `i64::try_from` of a wider integer; `checked_add` and its siblings are this of the exact
result. -/
def i64TryFrom (n : Int) : Option Int64 :=
  if -2 ^ 63 ≤ n ∧ n < 2 ^ 63 then some (Int64.ofInt n) else none

/-- `str::as_bytes`. -/
def bytesOf (s : String) : List UInt8 := s.toByteArray.data.toList

/-- FNV-1a, one byte. -/
def fnvStep (hash : UInt32) (byte : UInt8) : UInt32 := (hash ^^^ byte.toUInt32) * 0x01000193

/-- FNV-1a over the UTF-8 bytes of a field name. -/
def hashField (s : String) : UInt32 := s.toByteArray.data.toList.foldl fnvStep 0x811c9dc5

/-! ## Values -/

/-- A file the user picked: a path and a display name, never the bytes. -/
structure FileHandleData where
  path : String
  filename : String
  deriving DecidableEq, Repr

/-- One field of a record, with the precomputed hash of its key. -/
structure RecordField (α : Type) where
  key : String
  hash : UInt32
  value : α
  deriving Repr

inductive Value where
  | null
  | bool (b : Bool)
  | int (i : Int64)
  /-- A fixed-point number, scaled by `decimalScale`. -/
  | decimal (i : Int64)
  | string (s : String)
  | list (items : List Value)
  | record (fields : List (RecordField Value))
  /-- `arc` is the allocation the handle points to. -/
  | fileHandle (arc : Nat) (data : FileHandleData)
  deriving Repr

/-- The answer of `Arc::ptr_eq` on the payloads of two values. Which equal values share an
allocation is not modelled; that sharing implies equality is all the code relies on. -/
structure ArcEq where
  same : Value → Value → Bool
  eq_of_same : ∀ {a b}, same a b = true → a = b

/-- If no two payloads share an allocation. -/
theorem ArcEq.never_same {a b : Value} (h : false = true) : a = b := nomatch h

namespace Value

def isNull : Value → Bool
  | null => true
  | _ => false

/-- The Mizu name of a value's type. -/
def typeName : Value → String
  | int _ => "num"
  | decimal _ => "num"
  | string _ => "string"
  | bool _ => "bool"
  | list _ => "list"
  | record _ => "record"
  | null => "null"
  | fileHandle _ _ => "file"

/-- Keeps the first of each run of fields with equal keys (`dedup_by`). -/
def dedupFields : List (RecordField Value) → List (RecordField Value)
  | [] => []
  | f :: fs =>
    match dedupFields fs with
    | [] => [f]
    | g :: gs => if f.key = g.key then f :: gs else f :: g :: gs

/-- The only place records are ordered: by key, first occurrence of a key kept. -/
def recordFromUnsorted (pairs : List (String × Value)) : Value :=
  let fields := pairs.map fun (key, value) => { key, hash := hashField key, value : RecordField Value }
  record (dedupFields (fields.insertionSort fun a b => a.key ≤ b.key))

/-- The value of a field; the hash filters, the key decides. -/
def getField (v : Value) (fieldHash : UInt32) (fieldName : String) : Option Value :=
  match v with
  | record fields => (fields.find? fun f => f.hash = fieldHash ∧ f.key = fieldName).map (·.value)
  | _ => none

mutual

/-- The record invariant, at every depth: keys strictly increasing, each with its hash. -/
def WellFormed : Value → Prop
  | list items => WellFormedList items
  | record fields =>
    fields.Pairwise (fun f g => f.key < g.key) ∧ (∀ f ∈ fields, f.hash = hashField f.key) ∧
      WellFormedFields fields
  | _ => True

def WellFormedList : List Value → Prop
  | [] => True
  | v :: vs => v.WellFormed ∧ WellFormedList vs

def WellFormedFields : List (RecordField Value) → Prop
  | [] => True
  | f :: fs => f.value.WellFormed ∧ WellFormedFields fs

end

theorem wellFormedList_iff {vs : List Value} : WellFormedList vs ↔ ∀ v ∈ vs, v.WellFormed := by
  induction vs with
  | nil => simp [WellFormedList]
  | cons v vs ih => simp [WellFormedList, ih]

theorem wellFormedFields_iff {fs : List (RecordField Value)} :
    WellFormedFields fs ↔ ∀ f ∈ fs, f.value.WellFormed := by
  induction fs with
  | nil => simp [WellFormedFields]
  | cons f fs ih => simp [WellFormedFields, ih]

/-! ## Budgeted equality -/

mutual

/-- The number of nodes of a value, which bounds the rounds of `budgetEq`. -/
def nodeCount : Value → Nat
  | list items => 1 + nodeCountList items
  | record fields => 1 + nodeCountFields fields
  | _ => 1

def nodeCountList : List Value → Nat
  | [] => 0
  | v :: vs => v.nodeCount + nodeCountList vs

def nodeCountFields : List (RecordField Value) → Nat
  | [] => 0
  | f :: fs => f.value.nodeCount + nodeCountFields fs

end

/-- Adds `cost` to the running budget and fails if it passes `max`. -/
def chargeBudget (cost max : Nat) : EStateM MizuError Nat Unit := do
  modify (saturatingAdd · cost)
  if (← get) > max then throw .timeout

/-- What one popped pair adds to the work stack, or `none` if it decides "not equal". -/
def budgetEqPair (arc : ArcEq) (max : Nat) :
    Value → Value → EStateM MizuError Nat (Option (List (Value × Value)))
  | null, null => pure (some [])
  | bool x, bool y => pure (if x = y then some [] else none)
  | int x, int y => pure (if x = y then some [] else none)
  | decimal x, decimal y => pure (if x = y then some [] else none)
  | int x, decimal y => pure (if x.toInt * decimalScale = y.toInt then some [] else none)
  | decimal y, int x => pure (if x.toInt * decimalScale = y.toInt then some [] else none)
  | string x, string y => do
    if arc.same (string x) (string y) then return some []
    -- Charged before the comparison runs: it costs the shorter length.
    chargeBudget (min x.utf8ByteSize y.utf8ByteSize) max
    return if x = y then some [] else none
  | fileHandle x _, fileHandle y _ => pure (if x = y then some [] else none)
  | list xs, list ys => do
    if arc.same (list xs) (list ys) then return some []
    if xs.length ≠ ys.length then return none
    chargeBudget xs.length max
    return some (xs.zip ys)
  | record xs, record ys => do
    if arc.same (record xs) (record ys) then return some []
    if xs.length ≠ ys.length then return none
    chargeBudget xs.length max
    let pairs := xs.zip ys
    if pairs.any fun (fx, fy) => fx.hash ≠ fy.hash ∨ fx.key ≠ fy.key then return none
    return some (pairs.map fun (fx, fy) => (fx.value, fy.value))
  | _, _ => pure none

/-- The comparison loop. Pairs are pushed in order and popped from the end, so the work stack is
kept with its top first. -/
def budgetEqLoop (arc : ArcEq) (max : Nat) :
    Nat → List (Value × Value) → EStateM MizuError Nat Bool
  | _, [] => pure true
  | 0, _ :: _ => pure true
  | fuel + 1, (a, b) :: stack => do
    chargeBudget 1 max
    match ← budgetEqPair arc max a b with
    | none => return false
    | some pairs => budgetEqLoop arc max fuel (pairs.reverse ++ stack)

/-- Structural equality, charged against the caller's running budget. Each round pops one node of
`a`, so `a.nodeCount` rounds are enough. -/
def budgetEq (arc : ArcEq) (a b : Value) (max : Nat) : EStateM MizuError Nat Bool :=
  budgetEqLoop arc max a.nodeCount [(a, b)]

/-! ## Rendering -/

/-- Drops trailing zeros of a non-zero fraction; `digits` counts what is left. -/
def trimFraction : Nat → Nat → Nat × Nat
  | frac, 0 => (frac, 0)
  | frac, digits + 1 => if frac % 10 = 0 then trimFraction (frac / 10) digits else (frac, digits + 1)

def padZeros (width : Nat) (s : String) : String :=
  "".pushn '0' (width - s.length) ++ s

/-- A scaled integer in decimal notation. Rust's `/` and `%` truncate towards zero. -/
def formatDecimal (scaled : Int64) (alwaysFractional : Bool) : String :=
  let n := scaled.toInt
  let integerPart := n.tdiv decimalScale
  let fractionalPart := (n.tmod decimalScale).natAbs
  let sign := if n < 0 ∧ integerPart = 0 then "-" else ""
  if fractionalPart = 0 then
    if alwaysFractional then sign ++ toString integerPart ++ ".0" else sign ++ toString integerPart
  else
    let (frac, digits) := trimFraction fractionalPart 8
    sign ++ toString integerPart ++ "." ++ padZeros digits (toString frac)

/-- A control character in the sense of `char::is_control` (category Cc). -/
def isControl (c : Char) : Bool := c.toNat < 0x20 || (0x7f ≤ c.toNat && c.toNat < 0xa0)

mutual

/-- The user-facing text of a value. -/
def display : Value → String
  | null => "null"
  | bool b => if b then "true" else "false"
  | int i => toString i.toInt
  | decimal i => formatDecimal i false
  | string s => s
  | list items => "[" ++ ", ".intercalate (displayList items) ++ "]"
  | record fields => "\x7b" ++ ", ".intercalate (displayFields fields) ++ "\x7d"
  | fileHandle _ data => "<file: " ++ String.ofList (data.filename.toList.filter (!isControl ·)) ++ ">"

def displayList : List Value → List String
  | [] => []
  | v :: vs => v.display :: displayList vs

def displayFields : List (RecordField Value) → List String
  | [] => []
  | f :: fs => (f.key ++ ": " ++ f.value.display) :: displayFields fs

end

example : formatDecimal (-50000000) false = "-0.5" := by decide
example : formatDecimal 150000000 true = "1.5" := by decide

end Value

end Mizu
