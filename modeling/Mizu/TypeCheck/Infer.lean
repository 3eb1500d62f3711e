import Mizu.Logic.Document
import Mizu.Types.Eval.Builtins

/-!
# The static type checker

`infer` gives an expression a type, no type (`none`: dynamic, not checked), or an error;
`checkTypes` runs it over a document. The seven pure builtins share one shape: all arguments are
inferred left to right, then the type of the first decides (`PureBuiltin.inferResult`).
-/

namespace Mizu

namespace ValueType

mutual

def beq : ValueType → ValueType → Bool
  | num, num => true
  | str, str => true
  | bool, bool => true
  | list a, list b => a.beq b
  | record as, record bs => beqFields as bs
  | nullable a, nullable b => a.beq b
  | _, _ => false

def beqFields : List (String × ValueType) → List (String × ValueType) → Bool
  | [], [] => true
  | (n, a) :: as, (m, b) :: bs => n = m && a.beq b && beqFields as bs
  | _, _ => false

end

mutual

theorem eq_of_beq : ∀ a b : ValueType, a.beq b = true → a = b
  | num, b, h => by cases b <;> simp_all [beq]
  | str, b, h => by cases b <;> simp_all [beq]
  | bool, b, h => by cases b <;> simp_all [beq]
  | list a, b, h => by
    cases b <;> simp only [beq, Bool.false_eq_true] at h
    rw [eq_of_beq a _ h]
  | record as, b, h => by
    cases b <;> simp only [beq, Bool.false_eq_true] at h
    rw [eq_of_beqFields as _ h]
  | nullable a, b, h => by
    cases b <;> simp only [beq, Bool.false_eq_true] at h
    rw [eq_of_beq a _ h]

theorem eq_of_beqFields : ∀ as bs : List (String × ValueType), beqFields as bs = true → as = bs
  | [], bs, h => by cases bs <;> simp_all [beqFields]
  | (n, a) :: as, [], h => by simp [beqFields] at h
  | (n, a) :: as, (m, b) :: bs, h => by
    simp only [beqFields, Bool.and_eq_true, decide_eq_true_eq] at h
    rw [h.1.1, eq_of_beq a b h.1.2, eq_of_beqFields as bs h.2]

end

end ValueType

/-- Equality of inferred types. -/
def sameType : Option ValueType → Option ValueType → Bool
  | some a, some b => a.beq b
  | none, none => true
  | _, _ => false

theorem eq_of_sameType {a b : Option ValueType} (h : sameType a b = true) : a = b := by
  cases a <;> cases b <;> simp only [sameType, Bool.false_eq_true] at h
  · rfl
  · rw [ValueType.eq_of_beq _ _ h]

def staticTypeError {α : Type} (message : String) : Walk α :=
  throw (.error (.staticTypeError message))

/-- The types of the names in scope; `some none` is a name whose type is dynamic. -/
abbrev Env := FxHashMap Symbol (Option ValueType)

/-- The pure builtin a call names, if any. -/
def PureBuiltin.ofCall (name : String) (argc : Nat) : Option PureBuiltin :=
  match Builtin.dispatch name argc with
  | some (.pure p) => some p
  | _ => none

/-- The type of a builtin call from the type of its first argument. -/
def PureBuiltin.inferResult : PureBuiltin → Option ValueType → Walk (Option ValueType)
  | filter, some (.list inner) => pure (some (.list inner))
  | filter, some other => staticTypeError ("filter expects a list, got `" ++ other.display ++ "`")
  | filter, none => pure none
  | count, some (.list _) => pure (some .num)
  | count, none => pure (some .num)
  | count, some other => staticTypeError ("count expects a list, got `" ++ other.display ++ "`")
  | sort, some (.list inner) => pure (some (.list inner))
  | sort, some other => staticTypeError ("sort expects a list, got `" ++ other.display ++ "`")
  | sort, none => pure none
  | length, some (.list _) => pure (some .num)
  | length, some .str => pure (some .num)
  | length, none => pure (some .num)
  | length, some other =>
    staticTypeError ("length expects a list or string, got `" ++ other.display ++ "`")
  | toString, some .num => pure (some .str)
  | toString, some .bool => pure (some .str)
  | toString, none => pure (some .str)
  | toString, some other =>
    staticTypeError ("to_string expects num or bool, got `" ++ other.display ++ "`")
  | contains, some .str => pure (some .bool)
  | contains, none => pure (some .bool)
  | contains, some other =>
    staticTypeError ("contains expects a string, got `" ++ other.display ++ "`")
  | hasField, some (.record _) => pure (some .bool)
  | hasField, none => pure (some .bool)
  | hasField, some other =>
    staticTypeError ("has_field expects a record, got `" ++ other.display ++ "`")

/-- The type of a field of a value of the given type. -/
def inferField (fieldName : String) : Option ValueType → Walk (Option ValueType)
  | some (.record fields) =>
    match fields.find? fun f => f.1 = fieldName with
    | some f => pure (some f.2)
    | none => staticTypeError ("field `" ++ fieldName ++ "` not found in record type")
  | some other =>
    staticTypeError ("cannot access field `" ++ fieldName ++ "` on type `" ++ other.display ++ "`")
  | none => pure none

/-- The type of a literal. -/
def inferLiteral : Value → Option ValueType
  | .int _ => some .num
  | .decimal _ => some .num
  | .string _ => some .str
  | .bool _ => some .bool
  | .null => some (.nullable .num)
  | .list _ | .record _ | .fileHandle _ _ => none

/-- The type of an operator's result; the operands are not looked at. -/
def inferBinop : BinOp → ValueType
  | .add | .sub | .mul | .div => .num
  | _ => .bool

/-- Arguments, left to right. -/
def inferArgs (walk : Expr → Walk (Option ValueType)) : List Expr → Walk (List (Option ValueType))
  | [] => pure []
  | e :: es => do
    let ty ← walk e
    return ty :: (← inferArgs walk es)

def arityError (funcName : String) (expected got : Nat) : WalkError :=
  .error (.staticTypeError ("function `" ++ funcName ++ "` expects " ++ toString expected ++
    " arguments, got " ++ toString got))

/-- `infer`. The source recurses on the native stack, which `fuel` bounds. -/
def infer (interner : Interner) (functions : FunctionTable) :
    Nat → Env → ExprArena → Expr → Walk (Option ValueType)
  | 0, _, _, _ => throw .overflow
  | fuel + 1, env, arena, e =>
    let walk := infer interner functions fuel env arena
    match e with
    | .literal v => pure (inferLiteral v)
    | .var sym => pure ((env.lookup sym).getD none)
    | .binaryOp l op r => do
      let _ ← walk (arena.get l)
      let _ ← walk (arena.get r)
      return some (inferBinop op)
    | .letIn name value body => do
      let valTy ← walk (arena.get value)
      infer interner functions fuel (env.insert name valTy) arena (arena.get body)
    | .not inner => do
      let _ ← walk (arena.get inner)
      return some .bool
    | .ifElse condition thenExpr elseExpr => do
      let _ ← walk (arena.get condition)
      let thenTy ← walk (arena.get thenExpr)
      let elseTy ← walk (arena.get elseExpr)
      return if sameType thenTy elseTy then thenTy else none
    | .fieldAccess base field _ => do
      let baseTy ← walk (arena.get base)
      inferField ((interner.resolve field).getD "") baseTy
    | .functionCall name start len =>
      let args := arena.args start len
      let funcName := (interner.resolve name).getD ""
      match PureBuiltin.ofCall funcName args.length with
      | some p => do
        let tys ← inferArgs walk args
        p.inferResult (tys.headD none)
      | none =>
        match functions.lookup name with
        | some func =>
          if args.length ≠ func.params.length then
            throw (arityError funcName func.params.length args.length)
          else do
            let _ ← inferArgs walk args
            return none
        | none => do
          let _ ← inferArgs walk args
          return none

/-! ## The whole document -/

section Check

variable (interner : Interner) (functions : FunctionTable)

def inferTree (env : Env) (t : ExprTree) : Walk (Option ValueType) :=
  infer interner functions (walkFuel t.arena) env t.arena t.rootExpr

/-- `check_payload_format_shape`. -/
def checkPayloadFormatShape (format : PayloadFormat) (ty : Option ValueType) : Walk Unit :=
  match format, ty with
  | _, none => pure ()
  | .text, some .str => pure ()
  | .text, some ty =>
    staticTypeError ("network call `as text` payload must be type `string`, found `" ++
      ty.display ++ "`")
  | .form, some (.record fields) =>
    match fields.find? fun f => match f.2 with | .list _ | .record _ => true | _ => false with
    | some (name, fieldTy) =>
      staticTypeError ("network call `as form` payload field `" ++ name ++
        "` must be a scalar (bool/num/string), found `" ++ fieldTy.display ++ "`")
    | none => pure ()
  | .form, some ty =>
    staticTypeError ("network call `as form` payload must be a record, found `" ++ ty.display ++ "`")
  | .multipart, some (.record _) => pure ()
  | .multipart, some ty =>
    staticTypeError ("network call `as multipart` payload must be a record, found `" ++
      ty.display ++ "`")
  | .json, _ => pure ()
  | .yaml, _ => pure ()

def checkOptional (env : Env) : Option ExprTree → Walk Unit
  | none => pure ()
  | some t => do
    let _ ← inferTree interner functions env t

def checkHeaders (env : Env) : List (String × ExprTree) → Walk Unit
  | [] => pure ()
  | h :: hs => do
    let _ ← inferTree interner functions env h.2
    checkHeaders env hs

/-- `check_action`. -/
def checkAction (env : Env) : Action → Walk Unit
  | .eval expr | .assign _ expr | .navigate expr => do
    let _ ← inferTree interner functions env expr
  | .networkCall _ _ payload pathParam _ format headers => do
    match payload with
    | none => pure ()
    | some p => do
      let ty ← inferTree interner functions env p
      checkPayloadFormatShape format ty
    checkOptional interner functions env pathParam
    checkHeaders interner functions env headers

/-- The types of the computed bindings, each inferred with those before it in scope. -/
def globalEnv (env : Env) : List ComputedBinding → Walk Env
  | [] => pure env
  | comp :: comps => do
    let ty ← inferTree interner functions env comp.expr
    globalEnv (env.insert comp.name ty) comps

/-- The scope of a function body. -/
def functionEnv (env : Env) (params : List (Symbol × ValueType)) : Env :=
  params.foldl (fun env p => env.insert p.1 (some p.2)) env

def checkFunctions (env : Env) : List Symbol → Walk Unit
  | [] => pure ()
  | name :: names => do
    match functions.lookup name with
    | none => pure ()
    | some func => do
      let _ ← inferTree interner functions (functionEnv env func.params) func.body
    checkFunctions env names

def checkActions (env : Env) : List Action → Walk Unit
  | [] => pure ()
  | action :: actions => do
    checkAction interner functions env action
    checkActions env actions

end Check

/-- `check_types`. -/
def checkTypes (d : Document) : Walk Unit := do
  let env ← globalEnv d.interner d.functions ∅ d.comps
  checkFunctions d.interner d.functions env d.functionOrder
  checkActions d.interner d.functions env d.eventActions
  checkActions d.interner d.functions env d.timerActions

end Mizu
