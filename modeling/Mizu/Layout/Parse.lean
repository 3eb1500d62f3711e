import Mizu.Layout.Dom
import Mizu.Lib.Indentation
import Mizu.Logic.Purity

/-!
# The layout tree

`parseLayoutWithUrls` reads a layout block line by line. A line is a node, an event or a class of a node, and a markdown
node takes the lines up to its closing quotes. The nodes are kept in an arena, and the nodes whose blocks are open on a
stack of indents.

* `parseLayoutWithUrls_ok`: an accepted block, as the entries that it reads and what it does with each.
-/

namespace Mizu

/-! ## Checks of an expression -/

mutual

/-- `find_side_effect_call`. -/
def Tree.findSideEffectCall (declared : String → Bool) : Tree → Option String
  | .literal _ => none
  | .var _ => none
  | .binaryOp left _ right => (left.findSideEffectCall declared).or (right.findSideEffectCall declared)
  | .functionCall name args =>
    if !declared name && !knownPureBuiltins.contains name then some name else firstSideEffectCall declared args
  | .letIn _ value body => (value.findSideEffectCall declared).or (body.findSideEffectCall declared)
  | .not inner => inner.findSideEffectCall declared
  | .ifElse condition thenExpr elseExpr =>
    ((condition.findSideEffectCall declared).or (thenExpr.findSideEffectCall declared)).or
      (elseExpr.findSideEffectCall declared)
  | .fieldAccess base _ => base.findSideEffectCall declared

def firstSideEffectCall (declared : String → Bool) : List Tree → Option String
  | [] => none
  | t :: ts => (t.findSideEffectCall declared).or (firstSideEffectCall declared ts)

end

/-- `find_non_literal_string_branch`. -/
def Tree.findNonLiteralStringBranch : Tree → Option String
  | .literal (.string _) => none
  | .ifElse _ thenExpr elseExpr => thenExpr.findNonLiteralStringBranch.or elseExpr.findNonLiteralStringBranch
  | .literal _ => some "a non-string literal"
  | .var _ => some "a variable"
  | .fieldAccess .. => some "a field access"
  | .functionCall .. => some "a function call"
  | .binaryOp .. => some "a binary operation"
  | .not _ => some "a `!` expression"
  | .letIn .. => some "a `let` binding"

def Tree.isIfElse : Tree → Bool
  | .ifElse .. => true
  | _ => false

namespace Layout

open Exec Indentation

/-! ## Lines -/

/-- A line with its number. -/
abbrev NumberedLine := Nat × List Char

/-- The lines that are not blank. -/
def numberedLines (layoutContent : List Char) : List NumberedLine :=
  ((lines layoutContent).zipIdx 1).filterMap fun (line, lineNum) =>
    if trimChars line = [] then none else some (lineNum, line)

/-- What a line is. -/
inductive Item where
  /-- A node, with the text that becomes a child of it. -/
  | node (node : MizuNode) (inlineText : Option String)
  | event (keyword : String) (event : EventTree)
  | conditionalClass (conditionalClass : ClassTree)

section Read

variable (env : LayoutEnv)

/-- An event line: the action behind the first arrow. -/
def readEvent (lineNum : Nat) (keyword : String) (rest : List Char) : Except MizuError EventTree :=
  match splitOnText "->".toList rest with
  | none => failAt lineNum ("Event `" ++ keyword ++ "` is missing the `->` arrow syntax")
  | some (_, value) =>
    if trimChars value = [] then
      failAt lineNum ("Event `" ++ keyword ++ "` is missing its action or variable payload")
    else (env.parseActionWithUrls (trimChars value)).map (eventOf keyword)

/-- A condition may call nothing that has an effect. -/
def checkPure (lineNum : Nat) (expr : Tree) : Except MizuError Unit :=
  match expr.findSideEffectCall env.declared with
  | some badFn =>
    failAt lineNum ("conditional class condition must be pure — `" ++ badFn ++ "` is a side-effecting call")
  | none => return ()

/-- A class with its condition. -/
def readToggle (lineNum : Nat) (className exprStr : List Char) : Except MizuError ClassTree :=
  if exprStr = [] then
    failAt lineNum ("conditional class `class " ++ String.ofList className ++ " if` is missing the condition")
  else do
    let condition ← (parseExprStandalone env.parse (String.ofList exprStr)).mapError fun e =>
      .parseError ("line " ++ toString lineNum ++ ": conditional class expression error: " ++ e.display)
    checkPure env lineNum condition
    return .toggle (String.ofList className) condition

/-- A choice between classes. -/
def readTernary (lineNum : Nat) (rest : List Char) : Except MizuError ClassTree := do
  let shown := "`class " ++ String.ofList rest ++ "`"
  let expr ← (parseExprStandalone env.parse (String.ofList rest)).mapError fun e =>
    .parseError ("line " ++ toString lineNum ++ ": " ++ shown ++
      " is neither a valid `if` toggle nor a valid `?:` ternary conditional class: " ++ e.display)
  if !expr.isIfElse then
    failAt lineNum (shown ++ " is missing the `if` keyword (for a toggle) or a `?:` ternary")
  else
    checkPure env lineNum expr
    match expr.findNonLiteralStringBranch with
    | some badBranch =>
      failAt lineNum ("ternary conditional class " ++ shown ++ " has " ++ badBranch ++
        " as a branch; every branch must be a string literal")
    | none => return .ternary expr

/-- A class line, from what stands behind `class`. -/
def readClass (lineNum : Nat) (rest : List Char) : Except MizuError ClassTree :=
  let (firstTok, rest2) := splitFirstWord rest
  if firstTok = [] then failAt lineNum "`class` child line is missing the class name or condition"
  else
    let (secondTok, exprStr) := splitFirstWord rest2
    if secondTok = "if".toList then readToggle env lineNum firstTok exprStr else readTernary env lineNum rest

/-- The source of an image: a path as it is, or an alias of a media endpoint as its target. -/
def readImageSrc (lineNum : Nat) (src : String) : Except MizuError String :=
  if startsWith "mizu://" src ∨ startsWith "http://" src ∨ startsWith "https://" src then
    failAt lineNum "absolute URLs are not allowed in src; declare a media alias in the urls block"
  else
    match env.urls with
    | none => return src
    | some registry =>
      if env.isRemoteOrigin ∧ startsWith "file://" src then
        failAt lineNum ("SecurityViolation: remote documents cannot embed local file:// assets (src: " ++ src ++ ")")
      else if src.toList.contains '/' ∨ src.toList.contains '.' ∨ (startsWith "file://" src ∧ !env.isRemoteOrigin) then
        return src
      else
        match registry src with
        | none => failAt lineNum ("image `src` alias `" ++ src ++ "` is not declared in the `urls` block")
        | some endpoint =>
          if endpoint.kind = .media then return endpoint.rawTarget
          else
            failAt lineNum ("image `src` alias `" ++ src ++ "` points to an `api` endpoint, not a `media` endpoint")

def readImage (lineNum : Nat) (node : MizuNode) : Except MizuError MizuNode :=
  if node.primitive ≠ .image then return node
  else
    match node.attributes.lookup "src" with
    | none => return node
    | some src => do
      let target ← readImageSrc env lineNum src
      return { node with attributes := node.attributes.insert "src" target }

/-- The lines of a markdown block up to its closing quotes, and the lines behind it. -/
def markdownLines (content : List Char) : List NumberedLine → Option (List Char × List NumberedLine)
  | [] => none
  | (_, line) :: rest =>
    match splitOnText "\"\"\"".toList line with
    | some (before, _) => some (content ++ before, rest)
    | none => markdownLines (content ++ line ++ ['\n']) rest

variable {ls rest : List NumberedLine}

theorem markdownLines_length {content found : List Char}
    (h : markdownLines content ls = some (found, rest)) : rest.length < ls.length := by
  induction ls generalizing content with
  | nil => cases h
  | cons line ls ih => grind [markdownLines]

/-- The text of a markdown block, which may end on its first line, and the lines behind it. -/
def readMarkdown (trimmed : List Char) (rest : List NumberedLine) : Option (List Char × List NumberedLine) :=
  let inlineRest := (splitFirstWord trimmed).2.drop 3
  match splitOnText "\"\"\"".toList inlineRest with
  | some (before, _) => some (before, rest)
  | none => markdownLines (inlineRest ++ ['\n']) rest

theorem readMarkdown_length {trimmed found : List Char}
    (h : readMarkdown trimmed ls = some (found, rest)) : rest.length ≤ ls.length := by
  unfold readMarkdown at h
  dsimp only at h
  split at h
  · obtain ⟨-, rfl⟩ := Prod.mk.inj (Option.some.inj h)
    exact Nat.le_refl _
  · exact (markdownLines_length h).le

/-- A node line, with the lines behind it. -/
def readNode (lineNum : Nat) (trimmed : List Char) (rest : List NumberedLine) :
    Except MizuError (Item × List NumberedLine) := do
  let parsed ← parsePrimitiveAndAttrs env trimmed lineNum
  let node ← readImage env lineNum parsed.node
  if parsed.isMarkdown then
    match readMarkdown trimmed rest with
    | none => failAt lineNum "Unterminated markdown triple-quoted block"
    | some (content, rest) =>
      let attributes := node.attributes.insert "content" (String.ofList content)
      return (.node { node with attributes } parsed.inlineText, rest)
  else return (.node node parsed.inlineText, rest)

/-- A line after the first one, with the lines behind it. -/
def readItem (lineNum : Nat) (line : List Char) (rest : List NumberedLine) :
    Except MizuError (Item × List NumberedLine) :=
  let (firstWord, words) := splitFirstWord (trimChars line)
  let firstWord := String.ofList firstWord
  if firstWord = "bind" then
    fail ("bind is no longer supported: use `class name if condition` in the style block to control " ++
      "visibility")
  else if firstWord = "download" then
    fail "download -> alias is no longer supported; use click -> download(alias)"
  else if firstWord = "every" then
    failAt lineNum "node timers are not allowed; declare a root timer in the logic block instead"
  else if firstWord = "click" ∨ firstWord = "submit" then
    (readEvent env lineNum firstWord words).map fun event => (.event firstWord event, rest)
  else if firstWord = "class" then
    (readClass env lineNum words).map fun conditionalClass => (.conditionalClass conditionalClass, rest)
  else readNode env lineNum (trimChars line) rest

theorem readNode_length {lineNum : Nat} {trimmed : List Char} {item : Item}
    (h : readNode env lineNum trimmed ls = .ok (item, rest)) : rest.length ≤ ls.length := by
  unfold readNode at h
  obtain ⟨parsed, -, h⟩ := except_bind_ok_iff.mp h
  obtain ⟨node, -, h⟩ := except_bind_ok_iff.mp h
  split at h
  · split at h
    · cases h
    · rename_i content rest' hmarkdown
      cases h
      exact readMarkdown_length hmarkdown
  · cases h
    exact Nat.le_refl _

theorem readItem_length {lineNum : Nat} {line : List Char} {item : Item}
    (h : readItem env lineNum line ls = .ok (item, rest)) : rest.length ≤ ls.length := by
  have hmap : ∀ {α : Type} {x : Except MizuError α} {f : α → Item},
      x.map (fun a => (f a, ls)) = .ok (item, rest) → rest.length ≤ ls.length := by
    intro α x f heq
    cases x with
    | error e => cases heq
    | ok a =>
      cases heq
      exact Nat.le_refl _
  unfold readItem at h
  dsimp only at h
  split at h
  · cases h
  · split at h
    · cases h
    · split at h
      · cases h
      · split at h
        · exact hmap h
        · split at h
          · exact hmap h
          · exact readNode_length env h

end Read

/-! ## The tree -/

def maxLayoutDepth : Nat := 256

/-- A line that was read. -/
structure Entry where
  lineNum : Nat
  line : List Char
  item : Item

def Entry.indent (e : Entry) : Nat := leadingSpaces e.line

def Entry.isNode (e : Entry) : Bool :=
  match e.item with
  | .node .. => true
  | _ => false

/-- The tree so far, and the nodes whose blocks are open, innermost first. -/
structure Build where
  dom : Dom
  stack : List (Nat × NodeId)

/-- The child that an inline text becomes. -/
def textNode (text : String) : MizuNode where
  primitive := .text
  attributes := (∅ : FxHashMap String String).insert "content" text

def Dom.appendText (t : Dom) (parent : NodeId) (inlineText : Option String) : Dom :=
  match inlineText with
  | none => t
  | some text => if h : parent < t.nodes.length then t.append parent h (textNode text) else t

/-- Some of the open nodes is an `each`. -/
def insideEach (dom : Dom) (stack : List (Nat × NodeId)) : Bool :=
  stack.any fun (_, id) => (dom.nodes[id]?).any fun n => n.value.primitive = .each

/-- Hangs a node below the innermost open one, and opens its block. -/
def placeNode (e : Entry) (node : MizuNode) (inlineText : Option String) (b : Build) : Except MizuError Build :=
  let stack := closeTo e.indent b.stack
  if node.primitive = .each ∧ insideEach b.dom stack then
    failAt e.lineNum "nested `each` blocks are strictly forbidden"
  else
    match stack.head? with
    | none =>
      let primName := (splitWhitespace (String.ofList (trimChars e.line))).head?.getD ""
      failAt e.lineNum ("Node `" ++ primName ++ "` has no parent (multiple root elements are not allowed)")
    | some (_, parent) =>
      if h : parent < b.dom.nodes.length then
        let id := b.dom.nodes.length
        if stack.length + 1 > maxLayoutDepth then
          failAt e.lineNum ("layout nesting too deep (max " ++ toString maxLayoutDepth ++ " levels)")
        else return ⟨(b.dom.append parent h node).appendText id inlineText, (e.indent, id) :: stack⟩
      else failAt e.lineNum "Internal error: parent node not found in tree"

/-- Changes the innermost open node. -/
def placeOn (e : Entry) (missing internal : String) (f : MizuNode → MizuNode) (b : Build) : Except MizuError Build :=
  let stack := closeTo e.indent b.stack
  match stack.head? with
  | none => failAt e.lineNum (missing ++ " has no parent node")
  | some (_, parent) =>
    if parent < b.dom.nodes.length then return ⟨b.dom.modify parent f, stack⟩
    else failAt e.lineNum internal

/-- What an event or a class line changes of the node that it belongs to. -/
def Item.attach (item : Item) (node : MizuNode) : MizuNode :=
  match item with
  | .node .. => node
  | .event keyword block => { node with events := node.events.insert keyword block }
  | .conditionalClass c => { node with conditionalClasses := node.conditionalClasses ++ [c] }

/-- One line. -/
def place (e : Entry) (b : Build) : Except MizuError Build :=
  match e.item with
  | .node node inlineText => placeNode e node inlineText b
  | .event keyword _ =>
    placeOn e ("Event `" ++ keyword ++ "`") "Internal error: parent node not found in tree" e.item.attach b
  | .conditionalClass _ =>
    let rest := String.ofList (splitFirstWord (trimChars e.line)).2
    placeOn e ("`class " ++ rest ++ "`") "Internal error: parent node not found" e.item.attach b

section Loop

variable (env : LayoutEnv)

def layoutLoop (b : Build) : List NumberedLine → Except MizuError Build
  | [] => return b
  | (lineNum, line) :: rest =>
    match _hread : readItem env lineNum line rest with
    | .error e => .error e
    | .ok (item, rest') =>
      match place ⟨lineNum, line, item⟩ b with
      | .error e => .error e
      | .ok b => layoutLoop b rest'
termination_by ls => ls.length
decreasing_by
  have := readItem_length env _hread
  simp only [List.length_cons]
  omega

def parseLayoutWithUrls (layoutContent : List Char) : Except MizuError Dom :=
  match numberedLines layoutContent with
  | [] => fail "Layout block cannot be empty"
  | (lineNum, first) :: rest => do
    let root ← parsePrimitiveAndAttrs env (trimChars first) lineNum
    if root.node.primitive ≠ .doc then
      let found := (splitWhitespace (String.ofList (trimChars first))).head?.getD ""
      failAt lineNum ("root element must be `doc`, found `" ++ found ++ "`")
    else
      let dom := (Dom.new root.node).appendText 0 root.inlineText
      return (← layoutLoop env ⟨dom, [(leadingSpaces first, 0)]⟩ rest).dom

/-- The entries that the loop reads. -/
inductive Reads : List NumberedLine → List Entry → Prop where
  | nil : Reads [] []
  | cons {lineNum line rest rest' item es} (hread : readItem env lineNum line rest = .ok (item, rest'))
      (hrest : Reads rest' es) : Reads ((lineNum, line) :: rest) (⟨lineNum, line, item⟩ :: es)

/-- Places entries one after the other. -/
def placeAll (es : List Entry) (b : Build) : Except MizuError Build := es.foldlM (fun b e => place e b) b

variable {env}

theorem layoutLoop_ok {b b' : Build} {ls : List NumberedLine} (h : layoutLoop env b ls = .ok b') :
    ∃ es, Reads env ls es ∧ placeAll es b = .ok b' := by
  fun_induction layoutLoop env b ls with
  | case1 b =>
    obtain rfl := Except.ok.inj h
    exact ⟨[], .nil, rfl⟩
  | case2 => cases h
  | case3 => cases h
  | case4 b lineNum line rest item rest' hread b₁ hplace ih =>
    obtain ⟨es, hreads, hall⟩ := ih h
    refine ⟨⟨lineNum, line, item⟩ :: es, .cons hread hreads, ?_⟩
    rw [placeAll, List.foldlM_cons, hplace]
    exact hall

/-- The entries of a layout block: those of its lines, the first of which is the root. -/
structure ReadsLayout (env : LayoutEnv) (layoutContent : List Char) (es : List Entry) : Prop where
  reads : ∃ lineNum first rest root tail, numberedLines layoutContent = (lineNum, first) :: rest ∧
    parsePrimitiveAndAttrs env (trimChars first) lineNum = .ok root ∧ root.node.primitive = .doc ∧
    Reads env rest tail ∧ es = ⟨lineNum, first, .node root.node root.inlineText⟩ :: tail

theorem parseLayoutWithUrls_ok {layoutContent : List Char} {dom : Dom}
    (h : parseLayoutWithUrls env layoutContent = .ok dom) :
    ∃ e es b node text, ReadsLayout env layoutContent (e :: es) ∧ e.item = .node node text ∧ node.primitive = .doc ∧
      placeAll es ⟨(Dom.new node).appendText 0 text, [(e.indent, 0)]⟩ = .ok b ∧ b.dom = dom := by
  unfold parseLayoutWithUrls at h
  split at h
  · cases h
  · rename_i lineNum first rest hlines
    obtain ⟨root, hroot, h⟩ := except_bind_ok_iff.mp h
    split at h
    · cases h
    · rename_i hdoc
      obtain ⟨b, hloop, h⟩ := except_bind_ok_iff.mp h
      obtain ⟨es, hreads, hall⟩ := layoutLoop_ok hloop
      exact ⟨⟨lineNum, first, .node root.node root.inlineText⟩, es, b, root.node, root.inlineText,
        ⟨lineNum, first, rest, root, es, hlines, hroot, Classical.not_not.mp hdoc, hreads, rfl⟩, rfl,
        Classical.not_not.mp hdoc, hall, Except.ok.inj h⟩

end Loop

end Layout

end Mizu
