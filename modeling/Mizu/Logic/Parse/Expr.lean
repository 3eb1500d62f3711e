import Mizu.Logic.Lexer
import Mizu.Types.Number

/-!
# The expression parser

`parseExpr` climbs precedences: it reads a prefix, then takes operators as long as they bind at least as
strongly as its caller asks. Every recursive call is one level deeper, and a document may nest
`maxParseDepth` levels. The parser puts the nodes of an expression into an arena; here it builds the tree.

* `parseExprStandalone_ok_iff`: what is accepted on its own.
-/

namespace Mizu

/-- The tree of an expression, with the names as they are written. -/
inductive Tree where
  | literal (v : Value)
  | var (name : String)
  | binaryOp (left : Tree) (op : BinOp) (right : Tree)
  | functionCall (name : String) (args : List Tree)
  | letIn (name : String) (value body : Tree)
  | not (inner : Tree)
  | ifElse (condition thenExpr elseExpr : Tree)
  | fieldAccess (base : Tree) (field : String)
  deriving Repr

/-- What the parser takes from its surroundings. -/
structure ParseEnv where
  /-- `MAX_PARSE_DEPTH`. -/
  maxParseDepth : Nat
  /-- `f64::from_str`, scaled to eight digits and rounded. -/
  scaledF64 : List Char → Option Int64
  /-- `{:?}` of a text. -/
  debugStr : String → String

/-- A parser: what it read and the tokens that are left. -/
abbrev Parses (α : Type) := Except MizuError (α × List Token)

/-- Left and right binding power. -/
def infixBindingPower : BinOp → Nat × Nat
  | .or => (1, 2)
  | .and => (3, 4)
  | .eq | .ne => (5, 6)
  | .lt | .gt | .le | .ge => (7, 8)
  | .add | .sub => (10, 11)
  | .mul | .div => (20, 21)

def infixOp : Token → Option BinOp
  | .plus => some .add
  | .minus => some .sub
  | .star => some .mul
  | .slash => some .div
  | .eqEq => some .eq
  | .bangEq => some .ne
  | .lt => some .lt
  | .gt => some .gt
  | .ltEq => some .le
  | .gtEq => some .ge
  | .andAnd => some .and
  | .orOr => some .or
  | _ => none

def filterOps : List String := ["eq", "ne", "lt", "le", "gt", "ge", "contains"]

def skipComma : List Token → List Token
  | .comma :: ts => ts
  | ts => ts

section Parse

variable (env : ParseEnv)

def parseNum (text : String) : Except MizuError Tree :=
  let cs := text.toList
  if cs.contains '.' || cs.contains 'e' || cs.contains 'E' then
    match env.scaledF64 cs with
    | some scaled => .ok (.literal (.decimal scaled))
    | none => .error (.parseError "Invalid float literal")
  else
    match parseI64 cs with
    | some n => .ok (.literal (.int n))
    | none => .error (.parseError "Invalid int literal")

/-- A number changes its sign, anything else is taken from zero. -/
def negate : Tree → Tree
  | .literal (.int n) => .literal (.int (-n))
  | .literal (.decimal n) => .literal (.decimal (-n))
  | operand => .binaryOp (.literal (.int 0)) .sub operand

-- The parser one level deeper, by the minimum binding power.
variable (sub : Nat → List Token → Parses Tree)

def parseSortCallArgs (ts : List Token) : Parses (List Tree) :=
  match sub 0 ts with
  | .error e => .error e
  | .ok (list, ts) =>
    match sub 0 (skipComma ts) with
    | .error e => .error e
    | .ok (field, ts) =>
      match skipComma ts with
      | .ident "asc" :: ts => .ok ([list, field, .literal (.string "asc")], ts)
      | .ident "desc" :: ts => .ok ([list, field, .literal (.string "desc")], ts)
      | ts => .error (.parseError ("sort's third argument must be the bare keyword `asc` or `desc` " ++
          "(not a variable or expression), got: " ++ debugNext env.debugStr ts))

/-- The operator keyword, if one is there, and the value. -/
def parseFilterValue (ts : List Token) : Parses (String × Tree) :=
  let (op, ts) :=
    match ts with
    | .ident w :: .comma :: rest => if w ∈ filterOps then (w, rest) else ("eq", ts)
    | _ => ("eq", ts)
  match sub 0 ts with
  | .error e => .error e
  | .ok (value, ts) => .ok ((op, value), ts)

def parseFilterCallArgs (ts : List Token) : Parses (List Tree) :=
  match sub 0 ts with
  | .error e => .error e
  | .ok (list, ts) =>
    match sub 0 (skipComma ts) with
    | .error e => .error e
    | .ok (field, ts) =>
      match parseFilterValue sub (skipComma ts) with
      | .error e => .error e
      | .ok ((op, value), ts) => .ok ([list, field, .literal (.string op), value], ts)

/-- Whether a list of arguments ends here. -/
def argsEnd : List Token → Bool
  | [] | .rParen :: _ => true
  | _ => false

/-- The arguments up to the closing parenthesis. Each takes a token, so there are at most `fuel` of them. -/
def parseArgs : Nat → List Token → Parses (List Tree)
  | 0, ts => .ok ([], ts)
  | fuel + 1, ts =>
    if argsEnd ts then .ok ([], ts)
    else
      match sub 0 ts with
      | .error e => .error e
      | .ok (arg, ts) =>
        match parseArgs fuel (skipComma ts) with
        | .error e => .error e
        | .ok (args, ts) => .ok (arg :: args, ts)

def parseCallArgs (name : String) (ts : List Token) : Parses (List Tree) :=
  if name = "sort" then parseSortCallArgs env sub ts
  else if name = "filter" then parseFilterCallArgs sub ts
  else parseArgs sub ts.length ts

def isSingleVariable : List Tree → Bool
  | [.var _] => true
  | _ => false

/-- A call, after its opening parenthesis. -/
def parseCall (name : String) (ts : List Token) : Parses Tree :=
  match parseCallArgs env sub name ts with
  | .error e => .error e
  | .ok (args, .rParen :: ts) =>
    if name = "get_system_time" ∧ ¬isSingleVariable args then
      .error (.parseError ("get_system_time expects a single bare variable identifier, " ++
        "e.g. get_system_time(my_var) — not a computed expression"))
    else .ok (.functionCall name args, ts)
  | .ok _ => .error (.parseError ("expected `)` after arguments of call to `" ++ name ++ "`"))

/-- `if <cond> then <then> else <else>`, after the `if`. -/
def parseIf (ts : List Token) : Parses Tree :=
  match sub 0 ts with
  | .error e => .error e
  | .ok (condition, .ident "then" :: ts) =>
    match sub 0 ts with
    | .error e => .error e
    | .ok (thenExpr, .ident "else" :: ts) =>
      match sub 0 ts with
      | .error e => .error e
      | .ok (elseExpr, ts) => .ok (.ifElse condition thenExpr elseExpr, ts)
    | .ok (_, ts) => .error (.parseError ("expected `else` branch in `if` expression, got: " ++
        debugNext env.debugStr ts))
  | .ok (_, ts) => .error (.parseError ("expected `then` after `if` condition, got: " ++
      debugNext env.debugStr ts))

/-- What an expression starts with, and whether operators may follow it. -/
def parsePrefix : List Token → Parses (Tree × Bool)
  | .num text :: ts =>
    match parseNum env text with
    | .error e => .error e
    | .ok t => .ok ((t, true), ts)
  | .bool b :: ts => .ok ((.literal (.bool b), true), ts)
  | .str s :: ts => .ok ((.literal (.string s), true), ts)
  | .ident name :: ts =>
    if name = "if" then
      match parseIf env sub ts with
      | .error e => .error e
      | .ok (t, ts) => .ok ((t, false), ts)
    else
      match ts with
      | .lParen :: ts =>
        match parseCall env sub name ts with
        | .error e => .error e
        | .ok (t, ts) => .ok ((t, true), ts)
      | ts => .ok ((.var name, true), ts)
  | .minus :: ts =>
    match sub 30 ts with
    | .error e => .error e
    | .ok (operand, ts) => .ok ((negate operand, true), ts)
  | .bang :: ts =>
    match sub 30 ts with
    | .error e => .error e
    | .ok (operand, ts) => .ok ((.not operand, true), ts)
  | .lParen :: ts =>
    match sub 0 ts with
    | .error e => .error e
    | .ok (inner, .rParen :: ts) => .ok ((inner, true), ts)
    | .ok _ => .error (.parseError "expected `)` to close parenthesised expression")
  | ts => .error (.parseError ("unexpected token in expression: " ++ debugNext env.debugStr ts))

/-- `base.field`, after the dot. -/
def parseField (base : Tree) : List Token → Parses Tree
  | .ident name :: ts => .ok (.fieldAccess base name, ts)
  | ts => .error (.parseError ("expected field name after `.`, got: " ++ debugNext env.debugStr ts))

/-- `<cond> ? <then> : <else>`, after the question mark. -/
def parseTernary (condition : Tree) (ts : List Token) : Parses Tree :=
  match sub 0 ts with
  | .error e => .error e
  | .ok (thenExpr, .colon :: ts) =>
    match sub 0 ts with
    | .error e => .error e
    | .ok (elseExpr, ts) => .ok (.ifElse condition thenExpr elseExpr, ts)
  | .ok (_, ts) => .error (.parseError ("expected `:` after `?` in ternary expression, got: " ++
      debugNext env.debugStr ts))

def parseOperand (lhs : Tree) (op : BinOp) (ts : List Token) : Parses Tree :=
  match sub (infixBindingPower op).2 ts with
  | .error e => .error e
  | .ok (rhs, ts) => .ok (.binaryOp lhs op rhs, ts)

/-- The operator that the next token is, if it binds strongly enough. -/
def infixStep (minBp : Nat) (lhs : Tree) (ts : List Token) : Option (Parses Tree) :=
  match ts with
  | [] => none
  | .dot :: rest => if 50 < minBp then none else some (parseField env lhs rest)
  | .question :: rest => if 0 < minBp then none else some (parseTernary env sub lhs rest)
  | tok :: rest =>
    match infixOp tok with
    | none => none
    | some op =>
      if (infixBindingPower op).1 < minBp then none else some (parseOperand sub lhs op rest)

/-- The operators after `lhs`. Each takes a token, so there are at most `fuel` of them. -/
def parseInfix (minBp : Nat) : Nat → Tree → List Token → Parses Tree
  | 0, lhs, ts => .ok (lhs, ts)
  | fuel + 1, lhs, ts =>
    match infixStep env sub minBp lhs ts with
    | none => .ok (lhs, ts)
    | some (.error e) => .error e
    | some (.ok (lhs, ts)) => parseInfix minBp fuel lhs ts

end Parse

section Entry

variable (env : ParseEnv)

/-- `parse_expr`, with the number of levels that are left. -/
def parseExpr : Nat → Nat → List Token → Parses Tree
  | 0, _, _ => .error (.parseError ("expression nesting too deep (max " ++ toString env.maxParseDepth ++ " levels)"))
  | left + 1, minBp, ts =>
    match parsePrefix env (parseExpr left) ts with
    | .error e => .error e
    | .ok ((lhs, false), ts) => .ok (lhs, ts)
    | .ok ((lhs, true), ts) => parseInfix env (parseExpr left) minBp ts.length lhs ts

/-- `parse_expr_tree`: at depth zero, with any binding power. -/
def parseExprTree (ts : List Token) : Parses Tree := parseExpr env (env.maxParseDepth + 1) 0 ts

def parseExprStandalone (source : String) : Except MizuError Tree :=
  match lex source with
  | .error e => .error e
  | .ok ts =>
    match parseExprTree env ts with
    | .error e => .error e
    | .ok (t, rest) =>
      match assertCursorEmpty rest "" with
      | .error e => .error e
      | .ok () => .ok t

end Entry

end Mizu
