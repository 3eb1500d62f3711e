import Mizu.Logic.Parse.Expr
import Mizu.Types.Eval.Interpolate

/-!
# The action parser

`parseActionWithUrls` reads the action of an event. What the action is, is decided on its text (`actionForm`): a
network call is cut into its arguments before any of them is tokenised.

* `parseArg`, `parseSlots`: the arguments of a call, each on its own.
* `parseActionWithUrls_registry_iff`: what a registry of aliases refuses.
-/

namespace Mizu

/-! ## Scanning the text -/

/-- A character that makes an operator with an `=` after it. -/
def isComparisonStart (c : Char) : Bool := c = '!' || c = '<' || c = '>' || c = '='

/-- What stands before and after the first `=` that belongs to no comparison; `prev` is the character before. -/
def findAssignmentEqAfter (prev : Option Char) : List Char → Option (List Char × List Char)
  | [] => none
  | c :: cs =>
    if c = '=' ∧ ¬ prev.any isComparisonStart ∧ cs.head? ≠ some '=' then some ([], cs)
    else (findAssignmentEqAfter (some c) cs).map fun (before, after) => (c :: before, after)

/-- `find_assignment_eq`, as the two sides of the position. -/
def findAssignmentEq (s : List Char) : Option (List Char × List Char) := findAssignmentEqAfter none s

/-- The loop of `find_matching_paren` behind the opening parenthesis: what stands before and after the closing one.
`depth` others are open; a backslash in a string hides the character after it. -/
def findMatchingParen (depth : Nat) (inString : Bool) : List Char → Option (List Char × List Char)
  | [] => none
  | [c] => if inString = false ∧ c = ')' ∧ depth = 0 then some ([], []) else none
  | c :: d :: cs =>
    if inString then
      if c = '\\' then (findMatchingParen depth true cs).map fun (inside, after) => (c :: d :: inside, after)
      else (findMatchingParen depth (c ≠ '"') (d :: cs)).map fun (inside, after) => (c :: inside, after)
    else if c = ')' ∧ depth = 0 then some ([], d :: cs)
    else
      let depth := if c = '(' then depth + 1 else if c = ')' then depth - 1 else depth
      (findMatchingParen depth (c = '"') (d :: cs)).map fun (inside, after) => (c :: inside, after)

/-! ## Network calls -/

/-- What the action parser takes from its surroundings. -/
structure ActionEnv extends ParseEnv where
  /-- `http::HeaderName::from_str`. -/
  headerName : String → Except String Unit
  /-- The kinds of the declared aliases, if the calls are checked against a registry. -/
  registry : Option (String → Option EndpointKind)

/-- The tree of an action. -/
inductive ActionTree where
  | eval (expr : Tree)
  | assign (target : String) (expr : Tree)
  | navigate (url : Tree)
  | networkCall (method : NetworkMethod) (aliasName : String) (payload pathParam : Option Tree) (targetVar : String)
      (format : PayloadFormat) (headers : List (String × Tree))
  deriving Repr

/-- `PayloadFormat::from_keyword`. -/
def PayloadFormat.fromKeyword (s : String) : Option PayloadFormat :=
  if s = "json" then some json
  else if s = "form" then some form
  else if s = "text" then some text
  else if s = "yaml" then some yaml
  else if s = "multipart" then some multipart
  else none

section Call

variable (env : ActionEnv) (method : NetworkMethod)

def callError (text : String) : MizuError := .parseError ("network call `" ++ method.asStr ++ text)

/-- The clause that selects the payload's format, if there is one. -/
def parseFormat : List Token → Parses PayloadFormat
  | .ident "as" :: ts =>
    match ts with
    | .ident kw :: ts =>
      match PayloadFormat.fromKeyword kw with
      | some format => .ok (format, ts)
      | none => .error (callError method ("`: unknown payload format `" ++ kw ++
          "`; expected one of: json, form, text, yaml, multipart"))
    | ts => .error (callError method ("`: expected a payload format keyword after `as`, got " ++
        debugNext env.debugStr ts))
  | ts => .ok (.json, ts)

/-- The header clauses. Each takes a token, so there are at most `fuel` of them. -/
def parseHeaders : Nat → List Token → Parses (List (String × Tree))
  | fuel + 1, .ident "header" :: ts =>
    match ts with
    | .str name :: ts =>
      match validateHeaderName env.headerName name method.asStr with
      | .error e => .error e
      | .ok () =>
        match parseExprTree env.toParseEnv ts with
        | .error e => .error e
        | .ok (value, ts) =>
          match parseHeaders fuel ts with
          | .error e => .error e
          | .ok (headers, ts) => .ok ((name, value) :: headers, ts)
    | ts => .error (callError method ("`: expected a string header name after `header`, got " ++
        debugNext env.debugStr ts))
  | _, ts => .ok ([], ts)

/-- What a call's answer is stored in, its payload's format and its headers. -/
structure CallTarget where
  targetVar : String
  format : PayloadFormat
  headers : List (String × Tree)

/-- What stands behind the arrow of a call. -/
def parseCallTarget (arrowRhs : List Char) : Except MizuError CallTarget :=
  match lex (String.ofList arrowRhs) with
  | .error e => .error e
  | .ok (.ident targetVar :: ts) =>
    match parseFormat env method ts with
    | .error e => .error e
    | .ok (format, ts) =>
      match parseHeaders env method ts.length ts with
      | .error e => .error e
      | .ok (headers, ts) =>
        match assertCursorEmpty ts ("network call `" ++ method.asStr ++ "`") with
        | .error e => .error e
        | .ok () => .ok ⟨targetVar, format, headers⟩
  | .ok ts => .error (callError method ("`: expected a target variable name after `->`, got " ++
      debugNext env.debugStr ts))

/-- The guard of the registry. -/
def checkAlias (aliasName : String) : Except MizuError Unit :=
  match env.registry with
  | none => .ok ()
  | some kindOf =>
    match kindOf aliasName with
    | none => .error (callError method ("(" ++ aliasName ++ ")`: alias `" ++ aliasName ++
        "` is not defined in the `urls` block"))
    | some .media => .error (callError method ("(" ++ aliasName ++ ")`: alias `" ++ aliasName ++
        "` is a `media` endpoint, not an `api` endpoint"))
    | some .api => .ok ()

/-- An argument, if it is not empty. What its expression leaves over is not looked at. -/
def parseArg (part : List Char) : Except MizuError (Option Tree) :=
  if part.isEmpty then .ok none
  else
    match lex (String.ofList part) with
    | .error e => .error e
    | .ok ts =>
      match parseExprTree env.toParseEnv ts with
      | .error e => .error e
      | .ok (t, _) => .ok (some t)

/-- The second and third argument, as payload and path parameter. -/
def parseSlots (second third : List Char) : Except MizuError (Option Tree × Option Tree) :=
  if method.hasBody then
    match parseArg env second with
    | .error e => .error e
    | .ok payload =>
      match parseArg env third with
      | .error e => .error e
      | .ok pathParam => .ok (payload, pathParam)
  else if third.isEmpty then
    match parseArg env second with
    | .error e => .error e
    | .ok pathParam => .ok (none, pathParam)
  else
    .error (callError method ("` does not accept a body argument: use `" ++ method.asStr ++
      "(alias[, path_param]) -> var`"))

/-- `parse_network_call`, from the opening parenthesis on. -/
def parseNetworkCall (rest : List Char) : Except MizuError ActionTree :=
  match splitOnce '(' rest with
  | none => .error (callError method ("` missing `(`: expected `" ++ method.asStr ++ "(alias) -> var`"))
  | some (_, rest) =>
    match findMatchingParen 0 false rest with
    | none => .error (callError method ("` missing `)`: expected `" ++ method.asStr ++ "(alias) -> var`"))
    | some (inside, after) =>
      let afterClose := trimChars after
      if "->".toList.isPrefixOf afterClose then
        match parseCallTarget env method (trimChars (afterClose.drop 2)) with
        | .error e => .error e
        | .ok target =>
          let parts := (splitn ',' 2 (trimChars inside)).map trimChars
          let aliasName := String.ofList (parts.headD [])
          if aliasName = "" then .error (callError method "` missing alias argument")
          else
            match checkAlias env method aliasName with
            | .error e => .error e
            | .ok () =>
              match parseSlots env method (parts.getD 1 []) (parts.getD 2 []) with
              | .error e => .error e
              | .ok (payload, pathParam) =>
                .ok (.networkCall method aliasName payload pathParam target.targetVar target.format target.headers)
      else .error (callError method "` missing `-> target_var` after `)`")

end Call

/-! ## Actions -/

/-- What an action is, by its text. -/
inductive ActionForm where
  | networkCall (method : NetworkMethod) (rest : List Char)
  | refused (e : MizuError)
  | download (args : List Char)
  | navigate (url : List Char)
  | assign (lhs rhs : List Char)
  | eval

def networkMethods : List NetworkMethod := [.get, .post, .put, .delete, .query]

/-- `str::to_ascii_uppercase`. -/
def upperChars (cs : List Char) : List Char := cs.map Char.toUpper

def lowerChars (cs : List Char) : List Char := cs.map Char.toLower

/-- How a verb in the wrong case is refused. -/
def wrongCase (typed verb : String) : MizuError :=
  .parseError ("lowercase `" ++ typed ++ "` is not a valid action; use the uppercase registry form: " ++ verb ++
    "(alias) -> var")

/-- A verb before a parenthesis, in whatever case. -/
def foldedCall (action : List Char) : Option MizuError :=
  networkMethods.findSome? fun method =>
    if (method.asStr ++ "(").toList.isPrefixOf (upperChars action) then
      some (wrongCase (String.ofList (action.take method.asStr.length)) method.asStr)
    else none

/-- A verb before a space, in whatever case; `query` is not among them. -/
def spacedVerb (action : List Char) : Option MizuError :=
  [NetworkMethod.get, .post, .put, .delete].findSome? fun method =>
    let verb := toAsciiLowercase method.asStr
    if (verb ++ " ").toList.isPrefixOf (lowerChars action) then some (wrongCase verb method.asStr) else none

/-- How `parse_action_with_urls` takes a trimmed action. -/
def actionForm (action : List Char) : ActionForm :=
  match networkMethods.find? fun method => (method.asStr ++ "(").toList.isPrefixOf action with
  | some method => .networkCall method (action.drop method.asStr.length)
  | none =>
    match foldedCall action with
    | some e => .refused e
    | none =>
      match spacedVerb action with
      | some e => .refused e
      | none =>
        if "download(".toList.isPrefixOf action then .download (action.drop 9)
        else if "navigate ".toList.isPrefixOf action then .navigate (action.drop 9)
        else
          match findAssignmentEq action with
          | some (lhs, rhs) => .assign lhs rhs
          | none => .eval

section Action

variable (env : ActionEnv)

/-- An expression that takes up its whole text. -/
def parseWhole (context : String) (source : List Char) : Except MizuError Tree :=
  match lex (String.ofList source) with
  | .error e => .error e
  | .ok ts =>
    match parseExprTree env.toParseEnv ts with
    | .error e => .error e
    | .ok (t, rest) =>
      match assertCursorEmpty rest context with
      | .error e => .error e
      | .ok () => .ok t

/-- `download(alias)`, behind its opening parenthesis; the last parenthesis closes it. -/
def parseDownload (args : List Char) : Except MizuError ActionTree :=
  match splitOnce ')' args.reverse with
  | none => .error (.parseError "download: missing `)`: expected `download(alias)`")
  | some (_, revAlias) =>
    let aliasName := String.ofList (trimChars revAlias.reverse)
    if aliasName = "" then .error (.parseError "download: alias cannot be empty: expected `download(alias)`")
    else
      match env.registry with
      | none => .ok (.eval (.functionCall "download" [.var aliasName]))
      | some kindOf =>
        match kindOf aliasName with
        | none => .error (.parseError ("download alias `" ++ aliasName ++ "` is not declared in the `urls` block"))
        | some .api => .error (.parseError ("download alias `" ++ aliasName ++
            "` must be a `media` endpoint, not `api`"))
        | some .media => .ok (.eval (.functionCall "download" [.var aliasName]))

def parseAssignment (action lhs rhs : List Char) : Except MizuError ActionTree :=
  let target := trimChars lhs
  if target.isEmpty ∨ (trimChars rhs).isEmpty then
    .error (.parseError ("invalid assignment action: `" ++ String.ofList action ++ "`"))
  else
    match parseWhole env ("`" ++ String.ofList target ++ " = ...`") (trimChars rhs) with
    | .error e => .error e
    | .ok t => .ok (.assign (String.ofList target) t)

/-- `parse_action_with_urls`. -/
def parseActionWithUrls (action : List Char) : Except MizuError ActionTree :=
  let trimmed := trimChars action
  match actionForm trimmed with
  | .networkCall method rest => parseNetworkCall env method rest
  | .refused e => .error e
  | .download args => parseDownload env args
  | .navigate url =>
    match parseWhole env "`navigate ...`" (trimChars url) with
    | .error e => .error e
    | .ok t => .ok (.navigate t)
  | .assign lhs rhs => parseAssignment env action lhs rhs
  | .eval =>
    if trimmed.isEmpty then .error (.parseError "action cannot be empty")
    else
      match parseWhole env ("`" ++ String.ofList trimmed ++ "`") trimmed with
      | .error e => .error e
      | .ok t => .ok (.eval t)

end Action

/-! ## With a registry -/

section Registry

/-- The alias that a call or a download names, with the kind of endpoint that it needs. -/
def checkedAlias (action : List Char) (t : ActionTree) : Option (String × EndpointKind) :=
  match actionForm (trimChars action), t with
  | .networkCall .., .networkCall _ aliasName .. => some (aliasName, .api)
  | .download _, .eval (.functionCall _ [.var aliasName]) => some (aliasName, .media)
  | _, _ => none

variable {env : ActionEnv} {kindOf : String → Option EndpointKind} {method : NetworkMethod} {rest : List Char}
  {t : ActionTree}

theorem checkAlias_ok_iff {aliasName : String} :
    checkAlias { env with registry := some kindOf } method aliasName = .ok () ↔ kindOf aliasName = some .api := by
  grind [checkAlias]

theorem parseHeaders_registry (r : Option (String → Option EndpointKind)) (fuel : Nat) (ts : List Token) :
    parseHeaders { env with registry := r } method fuel ts =
      parseHeaders { env with registry := none } method fuel ts := by
  induction fuel generalizing ts with
  | zero => rfl
  | succ fuel ih =>
    rw [parseHeaders.eq_def, parseHeaders.eq_def]
    split
    · grind
    · rfl

theorem parseCallTarget_registry (r : Option (String → Option EndpointKind)) (arrowRhs : List Char) :
    parseCallTarget { env with registry := r } method arrowRhs =
      parseCallTarget { env with registry := none } method arrowRhs := by
  unfold parseCallTarget
  simp only [parseHeaders_registry r]
  rfl

theorem parseNetworkCall_registry_iff :
    parseNetworkCall { env with registry := some kindOf } method rest = .ok t ↔
      parseNetworkCall { env with registry := none } method rest = .ok t ∧
        ∀ m aliasName p q v f hs, t = .networkCall m aliasName p q v f hs → kindOf aliasName = some .api := by
  unfold parseNetworkCall
  split
  · simp
  · split
    · simp
    · dsimp only
      split
      · rw [parseCallTarget_registry (some kindOf)]
        split
        · simp
        · split
          · simp
          · have hslots : ∀ second third, parseSlots { env with registry := some kindOf } method second third =
                parseSlots { env with registry := none } method second third := fun _ _ => rfl
            have hnone : ∀ aliasName, checkAlias { env with registry := none } method aliasName = .ok () :=
              fun _ => rfl
            rw [hslots, hnone]
            generalize String.ofList _ = aliasName
            cases hcheck : checkAlias { env with registry := some kindOf } method aliasName with
            | error e => grind [checkAlias_ok_iff.mpr]
            | ok u =>
              dsimp only
              refine ⟨fun h => ⟨h, ?_⟩, And.left⟩
              rintro m name p q v f hs rfl
              split at h
              · cases h
              · cases Except.ok.inj h
                exact checkAlias_ok_iff.mp hcheck
      · simp

theorem parseDownload_registry_iff {args : List Char} :
    parseDownload { env with registry := some kindOf } args = .ok t ↔
      parseDownload { env with registry := none } args = .ok t ∧
        ∀ name aliasName, t = .eval (.functionCall name [.var aliasName]) → kindOf aliasName = some .media := by
  grind [parseDownload]

/-- An action is accepted under a registry if it is accepted without one and its alias is declared as it is used. -/
theorem parseActionWithUrls_registry_iff (env : ActionEnv) (kindOf : String → Option EndpointKind)
    (action : List Char) (t : ActionTree) :
    parseActionWithUrls { env with registry := some kindOf } action = .ok t ↔
      parseActionWithUrls { env with registry := none } action = .ok t ∧
        ∀ aliasName kind, checkedAlias action t = some (aliasName, kind) → kindOf aliasName = some kind := by
  have hwhole : ∀ context source, parseWhole { env with registry := some kindOf } context source =
      parseWhole { env with registry := none } context source := fun _ _ => rfl
  unfold parseActionWithUrls checkedAlias
  dsimp only
  cases actionForm (trimChars action) with
  | networkCall method rest =>
    dsimp only
    rw [parseNetworkCall_registry_iff]
    refine and_congr_right fun _ => ⟨fun h aliasName kind hchecked => ?_, fun h => ?_⟩
    · split at hchecked
      · obtain ⟨rfl, rfl⟩ := Prod.mk.inj (Option.some.inj hchecked)
        exact h _ _ _ _ _ _ _ rfl
      · rename_i heq _
        cases heq
      · cases hchecked
    · rintro m aliasName p q v f hs rfl
      exact h _ _ rfl
  | download args => grind [parseDownload_registry_iff]
  | refused e => simp
  | navigate | eval =>
    dsimp only
    rw [hwhole]
    simp
  | assign lhs rhs => grind [parseAssignment]

end Registry

end Mizu
