import Mizu.Security.Navigation
import Mizu.Types.Decimal
import Mizu.Types.Eval.State
import Mizu.Types.Nesting

/-!
# JSON

`toJson` turns a value into a JSON value, `fromJsonStr` and `fromJsonSlice` read a value out of a text.
Printing and tokenising are serde_json's: `SerdeJson` stands for it. What it hands over of a text, value
by value, is a `JsonText`, and `deserialize` is what the visitors of the source make of that.
-/

namespace Mizu

mutual

/-- What is read of a text where a value is expected. A text that breaks off is read up to there. -/
inductive JsonText where
  /-- No value starts here, or the token is not finished. -/
  | malformed (message : String)
  /-- The colon of a member is missing, so that its value is not asked for. -/
  | missing (message : String)
  | null
  | bool (b : Bool)
  | number (n : JsonNumber)
  | string (s : String)
  /-- `stop` is what is met instead of the closing bracket. -/
  | array (items : List JsonText) (stop : Option String)
  | object (members : List JsonMember) (stop : Option String)

inductive JsonMember where
  | mk (key : String) (value : JsonText)

end

mutual

/-- `serde_json::Value`; the members of an object are in the order of their keys. -/
inductive JsonValue where
  | null
  | bool (b : Bool)
  | number (n : JsonNumber)
  | string (s : String)
  | array (items : List JsonValue)
  | object (entries : List JsonEntry)

inductive JsonEntry where
  | mk (key : String) (value : JsonValue)

end

def JsonEntry.key : JsonEntry → String
  | mk key _ => key

/-- serde_json with `arbitrary_precision`, and the floats of the standard library. Positions in texts are
left out of the messages. -/
structure SerdeJson where
  f64 : ScaledF64
  /-- The first value of a text and what follows it. -/
  read : List UInt8 → JsonText × List UInt8
  /-- `to_vec`. -/
  write : JsonValue → List UInt8
  /-- What `end_map` says if the object goes on. -/
  endMap : List JsonMember → Option String → String
  /-- What is said of a value that is no string. -/
  invalidType : JsonText → String

/-! ## Encoding -/

/-- Keeps the last of each run of entries with equal keys. -/
def dedupEntries : List JsonEntry → List JsonEntry
  | [] => []
  | e :: es =>
    match dedupEntries es with
    | [] => [e]
    | g :: gs => if e.key = g.key then g :: gs else e :: g :: gs

/-- `serde_json::Map::from_iter`. -/
def mapFromIter (entries : List JsonEntry) : List JsonEntry :=
  dedupEntries (entries.insertionSort fun a b => a.key ≤ b.key)

/-- `serde_json::Number::from` of an `i64`. -/
def JsonNumber.ofInt64 (i : Int64) : JsonNumber := ⟨(toString i.toInt).toList, isJsonNumber_int _⟩

namespace Value

/-- The digits of a decimal are assembled as a text, with a fraction always. -/
def decimalToJson (i : Int64) : Except MizuError JsonValue :=
  match JsonNumber.fromStr (formatDecimal i true).toList with
  | some n => .ok (.number n)
  | none => .error (.executionError
      ("failed to serialize decimal `" ++ formatDecimal i true ++ "` exactly"))

mutual

/-- `to_json`. -/
def toJson : Value → Except MizuError JsonValue
  | null => .ok .null
  | bool b => .ok (.bool b)
  | int i => .ok (.number (.ofInt64 i))
  | decimal i => decimalToJson i
  | string s => .ok (.string s)
  | list items => do return .array (← toJsonList items)
  | record fields => do return .object (mapFromIter (← toJsonFields fields))
  | fileHandle _ _ => .error (.executionError
      "a file selection cannot be JSON-encoded; use `as multipart` to upload it")

def toJsonList : List Value → Except MizuError (List JsonValue)
  | [] => .ok []
  | v :: vs => do
    let j ← v.toJson
    return j :: (← toJsonList vs)

def toJsonFields : List (RecordField Value) → Except MizuError (List JsonEntry)
  | [] => .ok []
  | f :: fs => do
    let j ← f.value.toJson
    return .mk f.key j :: (← toJsonFields fs)

end

end Value

/-! ## Decoding -/

/-- Ties the depth of a text to that of an evaluation. -/
def maxJsonDepth : Nat := maxEvalDepth

def maxJsonNodes : Nat := 250000

def limitErrorPrefix : String := "mizu-limit: "

/-- The key under which serde_json hands over the text of a number. -/
def numberKey : String := "$serde_json::private::Number"

/-- How `visit_map` passes on an error of `parse_json_number_exact`. -/
def retagNumberError : MizuError → String
  | .securityViolation message => limitErrorPrefix ++ message
  | other => other.display

namespace SerdeJson

variable (serde : SerdeJson)

def number (text : List Char) : Except String Value :=
  match parseJsonNumberExact serde.f64 text with
  | .ok v => .ok v
  | .error e => .error (retagNumberError e)

/-- The value of a member with the key of numbers: its text is read as a number, and the object must end
there. -/
def numberMember (members : List JsonMember) (stop : Option String) : JsonText → Except String Value
  | .string s =>
    match serde.number s.toList with
    | .error message => .error message
    | .ok v =>
      if members.isEmpty ∧ stop = none then .ok v else .error (serde.endMap members stop)
  | .malformed message => .error message
  | .missing message => .error message
  | other => .error (serde.invalidType other)

/-- What `ValueSeed::deserialize` checks before it reads anything: `nodes` counts the values so far, `max`
is the most that are accepted, if there is such a limit. -/
def enterValue (max : Option Nat) (nodes depth : Nat) : Except String Nat :=
  if ∃ m ∈ max, nodes + 1 > m then
    .error (limitErrorPrefix ++ "JSON payload exceeds the maximum of " ++
      toString (max.getD 0) ++ " nodes")
  else if depth > maxJsonDepth then
    .error (limitErrorPrefix ++ "JSON payload exceeds the maximum nesting depth of " ++
      toString maxJsonDepth)
  else .ok (nodes + 1)

mutual

/-- `ValueSeed::deserialize`. -/
def deserialize (max : Option Nat) (nodes depth : Nat) : JsonText → Except String (Value × Nat)
  | .missing message => .error message
  | .malformed message => do
    let _ ← enterValue max nodes depth
    .error message
  | .null => do return (.null, ← enterValue max nodes depth)
  | .bool b => do return (.bool b, ← enterValue max nodes depth)
  | .number n => do
    let nodes ← enterValue max nodes depth
    return (← serde.number n.text, nodes)
  | .string s => do return (.string s, ← enterValue max nodes depth)
  | .array items stop => do
    let nodes ← enterValue max nodes depth
    let (vs, nodes) ← visitSeq max nodes depth stop items
    return (.list vs, nodes)
  | .object members stop => do
    let nodes ← enterValue max nodes depth
    visitMap max nodes depth stop [] members

def visitSeq (max : Option Nat) (nodes depth : Nat) (stop : Option String) :
    List JsonText → Except String (List Value × Nat)
  | [] =>
    match stop with
    | none => .ok ([], nodes)
    | some message => .error message
  | t :: ts => do
    let (v, nodes) ← deserialize max nodes (depth + 1) t
    let (vs, nodes) ← visitSeq max nodes depth stop ts
    return (v :: vs, nodes)

/-- `pairs` are the members read so far. -/
def visitMap (max : Option Nat) (nodes depth : Nat) (stop : Option String)
    (pairs : List (String × Value)) : List JsonMember → Except String (Value × Nat)
  | [] =>
    match stop with
    | none => .ok (Value.recordFromUnsorted pairs, nodes)
    | some message => .error message
  | .mk key t :: members =>
    if key = numberKey then do return (← serde.numberMember members stop t, nodes)
    else do
      let (v, nodes) ← deserialize max nodes (depth + 1) t
      visitMap max nodes depth stop (pairs ++ [(key, v)]) members

end

end SerdeJson

/-- `classify_json_error`. -/
def classifyJsonError (message : String) : MizuError :=
  match stripPrefix limitErrorPrefix message with
  | some limit => .securityViolation limit
  | none => .parseError ("malformed JSON payload: " ++ message)

namespace SerdeJson

variable (serde : SerdeJson)

/-- What follows the first value is not looked at. -/
def fromJson (max : Option Nat) (payload : List UInt8) : Except MizuError Value :=
  match serde.deserialize max 0 0 (serde.read payload).1 with
  | .ok (v, _) => .ok v
  | .error message => .error (classifyJsonError message)

/-- `from_json_str`. -/
def fromJsonStr (payload : String) : Except MizuError Value :=
  serde.fromJson (some maxJsonNodes) payload.toByteArray.data.toList

/-- `from_json_slice`. -/
def fromJsonSlice (payload : List UInt8) (isTrusted : Bool) : Except MizuError Value :=
  serde.fromJson (if isTrusted then none else some maxJsonNodes) payload

end SerdeJson

end Mizu
