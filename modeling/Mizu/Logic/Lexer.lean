import Mizu.Splitter

/-!
# The tokeniser of the logic block

`lex` cuts a source text into tokens, with `indent` and `dedent` where a line is indented more or less than
the ones before it. A cursor over tokens is the list of those that are left.

* `lexFrom_append`: how a line that starts with the text of a token is cut.
-/

namespace Mizu

inductive Token where
  | ident (word : String)
  /-- The text of a number. -/
  | num (text : String)
  /-- What stands between the quotes, escapes included. -/
  | str (content : String)
  | bool (b : Bool)
  | lParen
  | rParen
  | lBrace
  | rBrace
  | comma
  | colon
  | eq
  | eqEq
  | bangEq
  | lt
  | gt
  | ltEq
  | gtEq
  | andAnd
  | orOr
  | bang
  | plus
  | minus
  | star
  | slash
  | question
  | dot
  | newline
  | indent
  | dedent
  deriving DecidableEq, Repr

/-- After these a `-` is a subtraction. -/
def Token.isValue : Token → Bool
  | .num _ | .ident _ | .bool _ | .str _ | .rParen => true
  | _ => false

/-- The tokens that carry no meaning within one expression. -/
def Token.isStructural : Token → Bool
  | .newline | .indent | .dedent => true
  | _ => false

/-! ## One line -/

section Line

def isAsciiDigit (c : Char) : Bool := '0'.toNat ≤ c.toNat && c.toNat ≤ '9'.toNat

def isAsciiAlphabetic (c : Char) : Bool :=
  ('a'.toNat ≤ c.toNat && c.toNat ≤ 'z'.toNat) || ('A'.toNat ≤ c.toNat && c.toNat ≤ 'Z'.toNat)

def isNumChar (c : Char) : Bool := isAsciiDigit c || c = '.'

def isIdentStart (c : Char) : Bool := isAsciiAlphabetic c || c = '_' || c = '$'

def isIdentChar (c : Char) : Bool := isAsciiAlphabetic c || isAsciiDigit c || c = '_'

/-- The content of a string literal and what follows its closing quote. -/
def scanString : List Char → Option (List Char × List Char)
  | [] => none
  | [c] => if c = '"' then some ([], []) else none
  | c :: d :: cs =>
    if c = '"' then some ([], d :: cs)
    else if c = '\\' then (scanString cs).map fun (s, rest) => (c :: d :: s, rest)
    else (scanString (d :: cs)).map fun (s, rest) => (c :: s, rest)

def wordToken (word : List Char) : Token :=
  if word = "true".toList then .bool true
  else if word = "false".toList then .bool false
  else .ident (String.ofList word)

/-- An operator and the number of its characters. -/
def operatorToken (c : Char) (next : Option Char) : Option (Token × Nat) :=
  if c = '=' ∧ next = some '=' then some (.eqEq, 2)
  else if c = '!' ∧ next = some '=' then some (.bangEq, 2)
  else if c = '<' ∧ next = some '=' then some (.ltEq, 2)
  else if c = '>' ∧ next = some '=' then some (.gtEq, 2)
  else if c = '&' ∧ next = some '&' then some (.andAnd, 2)
  else if c = '|' ∧ next = some '|' then some (.orOr, 2)
  else if c = '=' then some (.eq, 1)
  else if c = '!' then some (.bang, 1)
  else if c = '<' then some (.lt, 1)
  else if c = '>' then some (.gt, 1)
  else if c = '(' then some (.lParen, 1)
  else if c = ')' then some (.rParen, 1)
  else if c = '\x7b' then some (.lBrace, 1)
  else if c = '\x7d' then some (.rBrace, 1)
  else if c = ',' then some (.comma, 1)
  else if c = ':' then some (.colon, 1)
  else if c = '+' then some (.plus, 1)
  else if c = '-' then some (.minus, 1)
  else if c = '*' then some (.star, 1)
  else if c = '/' then some (.slash, 1)
  else if c = '?' then some (.question, 1)
  else if c = '.' then some (.dot, 1)
  else none

/-- The character that the first byte of a character reads as. -/
def firstByteChar (c : Char) : Char := Char.ofNat ((String.utf8EncodeChar c).headD 0).toNat

/-- What stands at the start of a line that is not blank: white space, or a token. -/
def lexStep (lineNum : Nat) (last : Option Token) (c : Char) (cs : List Char) :
    Except MizuError (Option Token × List Char) :=
  if c = ' ' ∨ c = '\t' then .ok (none, cs)
  else if c = '"' then
    match scanString cs with
    | some (s, rest) => .ok (some (.str (String.ofList s)), rest)
    | none => .error (.parseError ("line " ++ toString lineNum ++ ": unterminated string literal"))
  else if isAsciiDigit c ∨ c = '-' ∧ cs.head?.any isAsciiDigit then
    if c = '-' ∧ last.any Token.isValue then .ok (some .minus, cs)
    else .ok (some (.num (String.ofList (c :: cs.takeWhile isNumChar))), cs.dropWhile isNumChar)
  else if isIdentStart c then
    .ok (some (wordToken (c :: cs.takeWhile isIdentChar)), cs.dropWhile isIdentChar)
  else
    match operatorToken c cs.head? with
    | some (tok, advance) => .ok (some tok, cs.drop (advance - 1))
    | none =>
      .error (.parseError ("line " ++ toString lineNum ++ ": unexpected character `" ++
        String.singleton (firstByteChar c) ++ "`"))

/-- The tokens of a line, after `last`. A step uses up a character, so there are at most `fuel` of them. -/
def lexFrom (lineNum : Nat) : Nat → Option Token → List Char → Except MizuError (List Token)
  | 0, _, _ => .ok []
  | _ + 1, _, [] => .ok []
  | fuel + 1, last, c :: cs =>
    match lexStep lineNum last c cs with
    | .error e => .error e
    | .ok (none, rest) => lexFrom lineNum fuel last rest
    | .ok (some tok, rest) =>
      match lexFrom lineNum fuel (some tok) rest with
      | .error e => .error e
      | .ok toks => .ok (tok :: toks)

/-- `lex_line`: appends the tokens of a line's content. -/
def lexLine (content : List Char) (out : List Token) (lineNum : Nat) : Except MizuError (List Token) :=
  match lexFrom lineNum content.length out.getLast? content with
  | .error e => .error e
  | .ok toks => .ok (out ++ toks)

end Line

/-! ## Lines -/

def leadingSpaces (line : List Char) : Nat := (line.takeWhile (· = ' ')).length

def trimStart (cs : List Char) : List Char := cs.dropWhile isWhitespace

/-- `str::trim`. -/
def trimChars (cs : List Char) : List Char := trimEnd (trimStart cs)

/-- The indents that are left, innermost first, and the dedents. -/
def popIndents (indent : Nat) : List Nat → List Nat × List Token
  | [] => ([], [])
  | top :: stack =>
    if indent < top then
      let (stack, dedents) := popIndents indent stack
      (stack, .dedent :: dedents)
    else (top :: stack, [])

/-- The stack of indents, innermost first, and the tokens so far. -/
def lexLines : Nat → List Nat → List Token → List (List Char) → Except MizuError (List Nat × List Token)
  | _, stack, out, [] => .ok (stack, out)
  | lineIdx, stack, out, rawLine :: rest =>
    let line := trimEnd rawLine
    if line.isEmpty then lexLines (lineIdx + 1) stack out rest
    else
      let indent := leadingSpaces line
      let lineNum := lineIdx + 1
      match stack with
      | [] => .error (.parseError ("line " ++ toString lineNum ++ ": indent stack underflow"))
      | current :: outer =>
        let entered : Except MizuError (List Nat × List Token) :=
          if current < indent then .ok (indent :: current :: outer, out ++ [.indent])
          else if indent < current then
            let (stack, dedents) := popIndents indent (current :: outer)
            if stack.headD 0 ≠ indent then
              .error (.parseError ("line " ++ toString lineNum ++ ": inconsistent indentation (" ++
                toString indent ++ " spaces does not match any enclosing level)"))
            else .ok (stack, out ++ dedents)
          else .ok (current :: outer, out)
        match entered with
        | .error e => .error e
        | .ok (stack, out) =>
          match lexLine (trimStart line) out lineNum with
          | .error e => .error e
          | .ok out => lexLines lineNum stack (out ++ [.newline]) rest

def lex (source : String) : Except MizuError (List Token) :=
  match lexLines 0 [0] [] (lines source.toList) with
  | .error e => .error e
  | .ok (stack, out) => .ok (out ++ List.replicate (stack.length - 1) .dedent)

example : lex "a - -1 ? \"x\\\"y\" : $b" =
    .ok [.ident "a", .minus, .num "-1", .question, .str "x\\\"y", .colon, .ident "$b", .newline] := by
  decide

/-! ## What is left over -/

def tokenDisplay : Token → String
  | .ident s => "`" ++ s ++ "`"
  | .str s => "`\"" ++ s ++ "\"`"
  | .num n => "`" ++ n ++ "`"
  | .bool b => "`" ++ toString b ++ "`"
  | .lParen => "`(`"
  | .rParen => "`)`"
  | .lBrace => "`\x7b`"
  | .rBrace => "`\x7d`"
  | .comma => "`,`"
  | .colon => "`:`"
  | .eq => "`=`"
  | .eqEq => "`==`"
  | .bangEq => "`!=`"
  | .lt => "`<`"
  | .gt => "`>`"
  | .ltEq => "`<=`"
  | .gtEq => "`>=`"
  | .andAnd => "`&&`"
  | .orOr => "`||`"
  | .bang => "`!`"
  | .plus => "`+`"
  | .minus => "`-`"
  | .star => "`*`"
  | .slash => "`/`"
  | .question => "`?`"
  | .dot => "`.`"
  | .newline => "<newline>"
  | .indent => "<indent>"
  | .dedent => "<dedent>"

def assertCursorEmpty (cursor : List Token) (context : String) : Except MizuError Unit :=
  match cursor.dropWhile Token.isStructural with
  | [] => .ok ()
  | tok :: _ =>
    .error (.parseError ("unexpected token " ++ tokenDisplay tok ++ " after expression" ++
      (if context = "" then "" else " in " ++ context) ++
      "\n  hint: `->` consumes the entire line — layout attributes (e.g. `class`, `id`) " ++
      "must appear on the element line, not after the action"))

/-- `{:?}` of a token; `debugStr` is that of a text. -/
def Token.debug (debugStr : String → String) : Token → String
  | .ident s => "Ident(" ++ debugStr s ++ ")"
  | .num s => "Num(" ++ debugStr s ++ ")"
  | .str s => "Str(" ++ debugStr s ++ ")"
  | .bool b => "Bool(" ++ toString b ++ ")"
  | .lParen => "LParen"
  | .rParen => "RParen"
  | .lBrace => "LBrace"
  | .rBrace => "RBrace"
  | .comma => "Comma"
  | .colon => "Colon"
  | .eq => "Eq"
  | .eqEq => "EqEq"
  | .bangEq => "BangEq"
  | .lt => "Lt"
  | .gt => "Gt"
  | .ltEq => "LtEq"
  | .gtEq => "GtEq"
  | .andAnd => "AndAnd"
  | .orOr => "OrOr"
  | .bang => "Bang"
  | .plus => "Plus"
  | .minus => "Minus"
  | .star => "Star"
  | .slash => "Slash"
  | .question => "Question"
  | .dot => "Dot"
  | .newline => "Newline"
  | .indent => "Indent"
  | .dedent => "Dedent"

/-- `{:?}` of the token at a cursor. -/
def debugNext (debugStr : String → String) : List Token → String
  | [] => "None"
  | tok :: _ => "Some(" ++ tok.debug debugStr ++ ")"

end Mizu
