import Mizu.Logic.Parse.Action
import Mizu.Network.Vault

/-!
# The lines of a layout block

A line of the layout block names a primitive and goes on with an inline text, attributes and at most one event.
`parsePrimitiveAndAttrs` reads a whole line. An action takes the rest of the line it stands on.
-/

namespace Mizu.Layout

inductive Primitive where
  | doc
  | box
  | text
  | button
  | input
  | image
  | markdown
  | each
  | form
  | heading
  deriving DecidableEq, Repr

def Primitive.asStr : Primitive → String
  | doc => "doc"
  | box => "box"
  | text => "text"
  | button => "button"
  | input => "input"
  | image => "image"
  | markdown => "markdown"
  | each => "each"
  | form => "form"
  | heading => "heading"

/-- `EventBlock`, with the tree of its action. -/
inductive EventTree where
  | click (action : ActionTree)
  | submit (action : ActionTree)
  deriving Repr

/-- `ConditionalClass`, with the tree of its expression. -/
inductive ClassTree where
  | toggle (className : String) (condition : Tree)
  | ternary (expr : Tree)
  deriving Repr

/-- A node of the layout tree. -/
structure MizuNode where
  primitive : Primitive
  attributes : FxHashMap String String := ∅
  events : FxHashMap String EventTree := ∅
  /-- The item variable and the list of an `each` node. -/
  iteratorContext : Option (String × String) := none
  conditionalClasses : List ClassTree := []

/-- The tag that a style selector matches a node against. -/
def MizuNode.styleTagName (node : MizuNode) : String :=
  if node.primitive = .heading then "h" ++ (node.attributes.lookup "level").getD "1" else node.primitive.asStr

/-- What the layout parser takes from its surroundings. -/
structure LayoutEnv where
  /-- `char::is_alphanumeric`. -/
  isAlphanumeric : Char → Bool
  /-- The tables of `str::to_lowercase`. -/
  table : CaseTable
  parse : ParseEnv
  /-- `http::HeaderName::from_str`. -/
  headerName : String → Except String Unit
  /-- The endpoints of the `urls` block, if the document has one. -/
  urls : Option (String → Option UrlEndpoint)
  isRemoteOrigin : Bool
  /-- The names of the functions of the document. -/
  declared : String → Bool

/-- `parse_action`. -/
def LayoutEnv.parseAction (env : LayoutEnv) (action : List Char) : Except MizuError ActionTree :=
  parseActionWithUrls { env.parse with headerName := env.headerName, registry := none } action

/-- `parse_action_with_urls`, with the aliases of the block. -/
def LayoutEnv.parseActionWithUrls (env : LayoutEnv) (action : List Char) : Except MizuError ActionTree :=
  Mizu.parseActionWithUrls { env.parse with
    headerName := env.headerName
    registry := env.urls.map fun urls name => (urls name).map (·.kind) } action

section Helpers

variable {α : Type}

def fail (message : String) : Except MizuError α := .error (.parseError message)

def failAt (lineNum : Nat) (message : String) : Except MizuError α :=
  fail ("line " ++ toString lineNum ++ ": " ++ message)

/-- `map_err` with the number of the line. -/
def atLine (lineNum : Nat) (x : Except MizuError α) : Except MizuError α :=
  x.mapError fun e => .parseError ("line " ++ toString lineNum ++ ": " ++ e.display)

def splitFirstWord (s : List Char) : List Char × List Char :=
  let s := trimChars s
  match s.dropWhile (!isWhitespace ·) with
  | [] => (s, [])
  | rest => (trimChars (s.takeWhile (!isWhitespace ·)), trimChars rest)

/-- The content of a quoted text and what follows its closing quote. -/
def scanQuoted : List Char → Option (List Char × List Char)
  | [] => none
  | [c] => if c = '"' then some ([], []) else none
  | c :: d :: cs =>
    if c = '"' then some ([], d :: cs)
    else if c = '\\' then (scanQuoted cs).map fun (content, rest) => (d :: content, rest)
    else (scanQuoted (d :: cs)).map fun (content, rest) => (c :: content, rest)

theorem scanQuoted_length {cs content rest : List Char} (h : scanQuoted cs = some (content, rest)) :
    rest.length < cs.length := by
  fun_induction scanQuoted cs generalizing content rest with
  | case1 => cases h
  | case2 =>
    cases h
    simp
  | case3 => cases h
  | case4 =>
    cases h
    simp
  | case5 | case6 => grind [Option.map_eq_some_iff]

/-- A rest of a text. -/
abbrev Rest (s : List Char) := { r : List Char // r.length ≤ s.length }

theorem length_le_of_scanQuoted {cs content rest : List Char} (h : scanQuoted cs = some (content, rest)) :
    rest.length ≤ ('"' :: cs).length := by
  have := scanQuoted_length h
  rw [List.length_cons]
  omega

def parseQuotedString (s : List Char) : Except MizuError (String × Rest s) :=
  match s with
  | '"' :: cs =>
    match h : scanQuoted cs with
    | some (content, rest) =>
      return (String.ofList content, ⟨rest, length_le_of_scanQuoted h⟩)
    | none => fail "Unterminated double-quoted string"
  | _ => fail "Expected opening double quote"

def layoutAttrKeywords : List String := ["class", "id", "src", "href", "alt", "dir"]

def findTrailingLayoutKeyword (actionStr : List Char) : Option String :=
  (splitWhitespace (String.ofList actionStr)).find? (layoutAttrKeywords.contains ·)

def isAsciiLower (c : Char) : Bool := 'a'.toNat ≤ c.toNat && c.toNat ≤ 'z'.toNat

def isAsciiUpper (c : Char) : Bool := 'A'.toNat ≤ c.toNat && c.toNat ≤ 'Z'.toNat

def isValidLangTag (value : List Char) : Bool :=
  let (primary, region) :=
    match splitOnce '-' value with
    | some (p, r) => (p, some r)
    | none => (value, none)
  -- The length in bytes is the length in characters wherever the second test passes.
  (2 ≤ primary.length && primary.length ≤ 3 && primary.all isAsciiLower) &&
    region.all fun r => r.length = 2 && r.all isAsciiUpper

end Helpers

section Line

variable (env : LayoutEnv)

/-- What the attributes of a line have given so far. -/
abbrev AttrsAndEvents := FxHashMap String String × FxHashMap String EventTree

def isKeyChar (c : Char) : Bool := !isWhitespace c && c ≠ '='

/-- The event block of a keyword. -/
def eventOf (key : String) (action : ActionTree) : EventTree :=
  if key = "click" then .click action else .submit action

/-- The event that a key starts, if it does; its action takes the rest of the line. -/
def inlineEvent (key : String) (rest : List Char) : Except MizuError (Option EventTree) :=
  if key = "bind" then
    fail ("bind is no longer supported: use `class name if condition` in the style block to control " ++
      "visibility")
  else if key = "download" then
    fail "download -> alias is no longer supported; use click -> download(alias)"
  else if key = "click" ∨ key = "submit" then
    if !"->".toList.isPrefixOf (trimStart rest) then return none
    else
      let actionStr := trimChars ((trimStart rest).drop 2)
      match findTrailingLayoutKeyword actionStr with
      | some kw =>
        fail ("layout attribute `" ++ kw ++ "` found inside `" ++ key ++ " ->` action\n  hint: `" ++ key ++
          " ->` consumes the entire line — move `" ++ kw ++ "` to the element line:\n    bad:  button " ++ key ++
          " -> action " ++ kw ++ " \"value\"\n    good: button " ++ kw ++ " \"value\"\n    good:     " ++ key ++
          " -> action")
      | none => do
        let action ← env.parseAction actionStr
        return some (eventOf key action)
  else if key = "every" then
    fail "node timers are not allowed; declare a root timer in the logic block instead"
  else return none

/-- What `class`, `dir` and `lang` do not take. -/
def checkValue (key value : String) : Except MizuError Unit :=
  if key = "class" ∧ startsWith "." value then
    fail ("class value `" ++ value ++ "` must not start with `.`; write `class " ++
      String.ofList value.toList.tail ++ "` instead")
  else if key = "dir" ∧ value ∉ ["ltr", "rtl", "auto"] then
    fail ("invalid value `" ++ value ++ "` for `dir`; must be `ltr`, `rtl`, or `auto`")
  else if key = "lang" ∧ !isValidLangTag value.toList then
    fail ("invalid value `" ++ value ++ "` for `lang`; expected a lowercase 2-3-letter language subtag, " ++
      "optionally followed by `-` and an uppercase 2-letter region subtag (e.g. `it`, `en`, `en-US`, `zh-CN`)")
  else return ()

/-- The text after an equals sign, if there is one. -/
def skipEquals (rest : List Char) : List Char :=
  match trimStart rest with
  | '=' :: rest => trimStart rest
  | rest => rest

theorem trimStart_length (s : List Char) : (trimStart s).length ≤ s.length := (List.dropWhile_sublist _).length_le

theorem skipEquals_length (rest : List Char) : (skipEquals rest).length ≤ rest.length := by
  have htrim := trimStart_length rest
  unfold skipEquals
  split
  · rename_i tail htail
    rw [htail, List.length_cons] at htrim
    have := trimStart_length tail
    omega
  · exact htrim

/-- The value of an attribute, quoted or up to the next blank, and the text behind it. -/
def attributeText (rest : List Char) : Except MizuError (String × Rest rest) :=
  if rest.head? = some '"' then parseQuotedString rest
  else
    return (String.ofList (rest.takeWhile (!isWhitespace ·)),
      ⟨rest.dropWhile (!isWhitespace ·), (List.dropWhile_sublist _).length_le⟩)

/-- An attribute of a line and the text behind it. -/
def parseAttribute (key : String) (rest : List Char) : Except MizuError (String × Rest rest) := do
  if !key.toList.all fun c => env.isAlphanumeric c || c = '_' || c = '-' then
    fail ("Invalid attribute key `" ++ key ++ "`")
  else if skipEquals rest = [] then
    fail ("Attribute `" ++ key ++ "` is missing a value")
  else
    let (value, ⟨after, hafter⟩) ← attributeText (skipEquals rest)
    if value = "" then
      fail ("Attribute `" ++ key ++ "` is missing a value")
    else
      checkValue key value
      return (value, ⟨after, hafter.trans (skipEquals_length rest)⟩)

/-- The key at the start of a text and the text behind it. -/
def attributeKey (s : List Char) : Except MizuError (String × { r : List Char // r.length < s.length }) :=
  if hkey : (trimStart s).takeWhile isKeyChar = [] then fail "Expected attribute key"
  else
    return (String.ofList ((trimStart s).takeWhile isKeyChar), ⟨(trimStart s).dropWhile isKeyChar, by
      have htrim := trimStart_length s
      have happend := congrArg List.length (List.takeWhile_append_dropWhile (p := isKeyChar) (l := trimStart s))
      rw [List.length_append] at happend
      have := List.length_pos_iff.mpr hkey
      omega⟩)

def parseAttributesAndEvents (s : List Char) (acc : AttrsAndEvents) : Except MizuError AttrsAndEvents :=
  if trimStart s = [] then return acc
  else do
    let (key, rest) ← attributeKey s
    match ← inlineEvent env key rest.1 with
    | some event => return (acc.1, acc.2.insert key event)
    | none =>
      let (value, after) ← parseAttribute env key rest.1
      parseAttributesAndEvents after.1 (acc.1.insert key value, acc.2)
termination_by s.length
decreasing_by
  have := rest.2
  have := after.2
  omega

/-! ## A line -/

/-- The primitive of a lower-case name. -/
def Primitive.ofName (name : String) : Option Primitive :=
  match name with
  | "doc" => some .doc
  | "box" => some .box
  | "t" | "text" => some .text
  | "button" => some .button
  | "input" => some .input
  | "image" => some .image
  | "markdown" => some .markdown
  | "form" => some .form
  | "h1" | "h2" | "h3" | "h4" | "h5" | "h6" => some .heading
  | _ => none

/-- An `each` line has no attributes. -/
def parseEach (rest : String) (lineNum : Nat) : Except MizuError MizuNode :=
  match splitWhitespace rest with
  | [itemVar, "in", listName] => return { primitive := .each, iteratorContext := some (itemVar, listName) }
  | _ =>
    failAt lineNum ("invalid `each` syntax: expected `each <item> in <list>`, got `each " ++ rest ++ "`")

/-- What a line is read as: the node, whether it starts a markdown block, and an inline text that becomes a child. -/
structure ParsedLine where
  node : MizuNode
  isMarkdown : Bool
  inlineText : Option String

/-- The text that may follow the name of a primitive, whether it opens a markdown block, and the attributes behind
it. -/
def parseInlineText (primitive : Primitive) (rest : List Char) (lineNum : Nat) :
    Except MizuError (Bool × Option String × List Char) :=
  if primitive = .markdown ∧ "\"\"\"".toList.isPrefixOf rest then return (true, none, [])
  else if rest.head? = some '"' then do
    let (text, after) ← atLine lineNum (parseQuotedString rest)
    return (false, some text, after.1)
  else return (false, none, rest)

/-- A line once its attributes are read. -/
def finishLine (primitive : Primitive) (primLower : String) (lineNum : Nat) (isMarkdown : Bool)
    (inlineText : Option String) (attributes : FxHashMap String String) (events : FxHashMap String EventTree) :
    Except MizuError ParsedLine :=
  let attributes :=
    if primitive = .heading then attributes.insert "level" (String.ofList primLower.toList.tail) else attributes
  if "title" ∈ attributes ∧ primitive ≠ .doc then
    failAt lineNum ("`title` is only valid on `doc`, found on `" ++ primitive.asStr ++ "`")
  else if primitive = .text then
    let attributes :=
      match inlineText with
      | some text => attributes.insert "content" text
      | none => attributes
    return ⟨{ primitive, attributes, events }, isMarkdown, none⟩
  else if primitive = .doc ∧ inlineText.isSome then
    failAt lineNum ("`doc` no longer accepts positional inline text for the window title; use an explicit " ++
      "`title \"...\"` attribute instead")
  else return ⟨{ primitive, attributes, events }, isMarkdown, inlineText⟩

def parsePrimitiveAndAttrs (content : List Char) (lineNum : Nat) : Except MizuError ParsedLine :=
  let (primName, rest) := splitFirstWord content
  let primLower := env.table.toLowercase (String.ofList primName)
  if primLower = "each" then do
    let node ← parseEach (String.ofList rest) lineNum
    return ⟨node, false, none⟩
  else if primLower = "window" then
    failAt lineNum "`window` is no longer supported as the root primitive; use `doc` instead"
  else
    match Primitive.ofName primLower with
    | none => failAt lineNum ("Illegal primitive name `" ++ String.ofList primName ++ "`")
    | some primitive => do
      let (isMarkdown, inlineText, attrsStr) ← parseInlineText primitive rest lineNum
      let (attributes, events) ← atLine lineNum (parseAttributesAndEvents env attrsStr (∅, ∅))
      finishLine primitive primLower lineNum isMarkdown inlineText attributes events

end Line

end Mizu.Layout
