import Mizu.Layout.Attributes

/-!
# The style block

`parseStyleWithVariants` reads a style block line by line: a line with the least indent is a selector, and the lines
below it are its properties. The rules of a selector without conditions go to a map, under a key that is made from the
selector; those of the others are variants. `baseRules` is the lookup of a node's rules in that map.

The values of properties are read by parsers that are parameters, one for each property.
-/

namespace Mizu.Style

/-! ## Rules -/

/-- A property that has no value unless it is set. -/
inductive Property where
  | width
  | height
  | padding
  | margin
  | gap
  | marginInlineStart
  | marginInlineEnd
  | paddingInlineStart
  | paddingInlineEnd
  | flexDirection
  | justify
  | align
  | background
  | backgroundImage
  | backgroundSize
  | color
  | fontSize
  | borderRadius
  | borderWidth
  | borderColor
  | fontFamily
  | fontWeight
  | fontStyle
  | textAlign
  | lineHeight
  | underline
  | display
  deriving DecidableEq, Repr

def Property.ofKey (key : String) : Option Property :=
  match key with
  | "width" => some .width
  | "height" => some .height
  | "padding" => some .padding
  | "margin" => some .margin
  | "gap" => some .gap
  | "margin-inline-start" => some .marginInlineStart
  | "margin-inline-end" => some .marginInlineEnd
  | "padding-inline-start" => some .paddingInlineStart
  | "padding-inline-end" => some .paddingInlineEnd
  | "flex-direction" => some .flexDirection
  | "justify" => some .justify
  | "align" => some .align
  | "background" => some .background
  | "background-image" => some .backgroundImage
  | "background-size" => some .backgroundSize
  | "color" => some .color
  | "font-size" => some .fontSize
  | "border-radius" => some .borderRadius
  | "border-width" => some .borderWidth
  | "border-color" => some .borderColor
  | "font-family" => some .fontFamily
  | "font-weight" => some .fontWeight
  | "font-style" => some .fontStyle
  | "text-align" => some .textAlign
  | "line-height" => some .lineHeight
  | "text-decoration" => some .underline
  | "display" => some .display
  | _ => none

/-- `MizuOverflow`. -/
inductive Overflow where
  | visible
  | hidden
  | scroll
  deriving DecidableEq, Repr

/-- What the style parser takes from its surroundings. -/
structure StyleEnv where
  /-- The tables of `str::to_lowercase`. -/
  table : CaseTable
  Value : Type
  /-- The value of a property, with the number of the line for its errors. -/
  parseValue : Property → String → Nat → Except MizuError Value
  Pixels : Type
  /-- `str::parse::<f32>`. -/
  parsePixels : String → Option Pixels

structure StyleRules (V : Type) where
  declared : Property → Option V
  overflow : Overflow
  zIndex : Int

/-- `StyleRules::default`. -/
def StyleRules.empty {V : Type} : StyleRules V := ⟨fun _ => none, .visible, 0⟩

/-- `merge_from`: what `other` sets wins; a default is not set. -/
def StyleRules.mergeFrom {V : Type} (self other : StyleRules V) : StyleRules V where
  declared p := (other.declared p).or (self.declared p)
  overflow := if other.overflow ≠ .visible then other.overflow else self.overflow
  zIndex := if other.zIndex ≠ 0 then other.zIndex else self.zIndex

/-- What a property line sets. -/
inductive Declaration (V : Type) where
  | set (property : Property) (value : V)
  | overflow (value : Overflow)
  | zIndex (value : Int)

/-- A property line under the others. -/
def StyleRules.apply {V : Type} (rules : StyleRules V) : Declaration V → StyleRules V
  | .set property value => { rules with declared p := if p = property then some value else rules.declared p }
  | .overflow value => { rules with overflow := value }
  | .zIndex value => { rules with zIndex := value }

inductive VariantCondition (P : Type) where
  | minWidth (px : P)
  | maxWidth (px : P)
  | dark
  | light

structure StyleVariant (env : StyleEnv) where
  selector : String
  conditions : List (VariantCondition env.Pixels)
  rules : StyleRules env.Value

/-! ## Lines -/

section Lines

variable (env : StyleEnv)

def lineError {α : Type} (lineNum : Nat) (text : String) : Except MizuError α :=
  .error (.parseError ("line " ++ toString lineNum ++ ": " ++ text))

/-- `str::parse::<i32>`. -/
def parseI32 (s : String) : Option Int :=
  ((parseI64 s.toList).map Int64.toInt).filter fun n => decide (-2 ^ 31 ≤ n ∧ n < 2 ^ 31)

def parseOverflow (value : String) (lineNum : Nat) : Except MizuError Overflow :=
  match value with
  | "visible" => .ok .visible
  | "hidden" => .ok .hidden
  | "scroll" => .ok .scroll
  | _ => lineError lineNum ("invalid value `" ++ value ++ "` for `overflow`; valid values: visible, hidden, scroll")

def parseZIndex (value : String) (lineNum : Nat) : Except MizuError Int :=
  match parseI32 value with
  | some n => .ok n
  | none => lineError lineNum ("invalid integer `" ++ value ++ "` for `z-index`; expected a whole number, e.g. " ++
      "`0`, `-1`, `10`")

/-- The declaration that `apply_property` makes. -/
def parseDeclaration (key value : String) (lineNum : Nat) : Except MizuError (Declaration env.Value) :=
  match Property.ofKey key with
  | some property => (env.parseValue property value lineNum).map (.set property)
  | none =>
    if key = "overflow" then (parseOverflow value lineNum).map .overflow
    else if key = "z-index" then (parseZIndex value lineNum).map .zIndex
    else if key = "direction" then
      lineError lineNum ("`direction` was renamed to `flex-direction` (it collided with CSS's unrelated " ++
        "`direction: ltr|rtl`); use `flex-direction row` or `flex-direction column`")
    else
      lineError lineNum ("unknown style property `" ++ key ++ "`; valid properties: width, height, padding, margin, " ++
        "gap, margin-inline-start, margin-inline-end, padding-inline-start, padding-inline-end, flex-direction, " ++
        "justify, align, background, background-image, background-size, color, font-size, border-radius, " ++
        "border-width, border-color, overflow, z-index, display, font-family, font-weight, font-style, text-align, " ++
        "line-height, text-decoration")

/-- A line below a selector: the key up to the first space, and its value. -/
def parsePropertyLine (trimmed : List Char) (lineNum : Nat) : Except MizuError (Declaration env.Value) :=
  let key := trimmed.takeWhile (· ≠ ' ')
  let value := trimChars (trimmed.dropWhile (· ≠ ' '))
  if key = [] then lineError lineNum "empty property line"
  else if value = [] then lineError lineNum ("property `" ++ String.ofList key ++ "` has no value")
  else parseDeclaration env (String.ofList key) (String.ofList value) lineNum

def parseVariantConditions (lineNum : Nat) : List String → Except MizuError (List (VariantCondition env.Pixels))
  | [] => .ok []
  | "@dark" :: tokens => (parseVariantConditions lineNum tokens).map (.dark :: ·)
  | "@light" :: tokens => (parseVariantConditions lineNum tokens).map (.light :: ·)
  | kw :: tokens =>
    if kw = "@min-width" ∨ kw = "@max-width" then
      match tokens with
      | [] => lineError lineNum ("`" ++ kw ++ "` requires a pixel value, e.g. `" ++ kw ++ " 600`")
      | value :: tokens =>
        match env.parsePixels value with
        | none => lineError lineNum ("invalid value `" ++ value ++ "` for `" ++ kw ++ "`; expected a number, e.g. `600`")
        | some px =>
          (parseVariantConditions lineNum tokens).map
            ((if kw = "@min-width" then .minWidth px else .maxWidth px) :: ·)
    else
      lineError lineNum ("unknown variant condition `" ++ kw ++ "`; valid: @min-width N, @max-width N, @dark, @light")

def tagNames : List String :=
  ["doc", "box", "text", "button", "input", "image", "markdown", "form", "h1", "h2", "h3", "h4", "h5", "h6"]

/-- The key of a selector: a class without its dot, an id with its hash, a tag as it is spelled. -/
def selectorKey (token : String) (lineNum : Nat) : Except MizuError String :=
  match token.toList with
  | '.' :: name =>
    if name = [] then lineError lineNum "class name cannot be empty" else .ok (String.ofList name)
  | '#' :: name =>
    if name = [] then lineError lineNum "id name cannot be empty" else .ok token
  | _ =>
    if env.table.toLowercase token ∈ tagNames then .ok token
    else lineError lineNum ("selector `" ++ token ++ "` must start with `.`")

end Lines

/-! ## The block -/

structure StyleState (env : StyleEnv) where
  result : FxHashMap String (StyleRules env.Value) := ∅
  variants : List (StyleVariant env) := []
  baseline : Option Nat := none
  currentClass : Option String := none
  currentConditions : List (VariantCondition env.Pixels) := []
  currentRules : StyleRules env.Value := .empty
  propErrors : List MizuError := []

section Block

variable (env : StyleEnv)

/-- The end of a selector's properties. -/
def StyleState.flush (s : StyleState env) : StyleState env :=
  match s.currentClass with
  | none => s
  | some name =>
    if s.currentConditions.isEmpty then
      { s with
        result := s.result.insert name s.currentRules
        currentClass := none
        currentRules := .empty }
    else
      { s with
        variants := s.variants ++ [⟨name, s.currentConditions, s.currentRules⟩]
        currentClass := none
        currentConditions := []
        currentRules := .empty }

/-- A line with a selector. -/
def selectorLine (trimmed : List Char) (lineNum : Nat) (s : StyleState env) : Except MizuError (StyleState env) :=
  let tokens := splitWhitespace (String.ofList trimmed)
  match selectorKey env (tokens.head?.getD "") lineNum with
  | .error e => .error e
  | .ok name =>
    match parseVariantConditions env lineNum tokens.tail with
    | .error e => .error e
    | .ok conditions => .ok { s.flush with currentClass := some name, currentConditions := conditions }

/-- A line with a property. An error in it does not end the block. -/
def propertyLine (trimmed : List Char) (lineNum : Nat) (s : StyleState env) : Except MizuError (StyleState env) :=
  if s.currentClass.isNone then
    lineError lineNum ("property `" ++ String.ofList trimmed ++
      "` appears outside of any block (no selector has been seen yet)")
  else
    match parsePropertyLine env trimmed lineNum with
    | .error e => .ok { s with propErrors := s.propErrors ++ [e] }
    | .ok declaration => .ok { s with currentRules := s.currentRules.apply declaration }

/-- The lines that are refused wherever they stand. -/
def checkLine (trimmed : List Char) (lineNum : Nat) : Except MizuError Unit :=
  if "background-image".toList.isPrefixOf trimmed ∧ containsScheme (String.ofList trimmed) then
    lineError lineNum "absolute URLs are not allowed in background-image; use a local relative path"
  else if trimmed.contains ':' ∨ trimmed.contains ';' then
    lineError lineNum ("Mizu style syntax does not use `:` or `;`; write properties as `key value` without " ++
      "separators (found: `" ++ String.ofList trimmed ++ "`)")
  else .ok ()

def styleLine (lineNum : Nat) (line : List Char) (s : StyleState env) : Except MizuError (StyleState env) :=
  let trimmed := trimChars line
  if trimmed = [] then .ok s
  else
    match checkLine trimmed lineNum with
    | .error e => .error e
    | .ok () =>
      let indent := leadingSpaces line
      let base := s.baseline.getD indent
      let s := { s with baseline := some base }
      if indent < base then
        lineError lineNum ("unexpected dedent — indentation (" ++ toString indent ++
          " spaces) is less than the baseline (" ++ toString base ++ " spaces)")
      else if indent = base then selectorLine env trimmed lineNum s
      else propertyLine env trimmed lineNum s

def styleLines (lineNum : Nat) (s : StyleState env) : List (List Char) → Except MizuError (StyleState env)
  | [] => .ok s
  | line :: rest =>
    match styleLine env lineNum line s with
    | .error e => .error e
    | .ok s => styleLines (lineNum + 1) s rest

/-- `parse_style_with_variants`; the errors of the properties are reported together. -/
def parseStyleWithVariants (styleContent : List Char) :
    Except (List MizuError) (FxHashMap String (StyleRules env.Value) × List (StyleVariant env)) :=
  match styleLines env 1 {} (lines styleContent) with
  | .error e => .error [e]
  | .ok s => if s.propErrors = [] then .ok (s.flush.result, s.flush.variants) else .error s.propErrors

end Block

/-! ## The rules of a node -/

section Node

variable {V : Type} (rules : FxHashMap String (StyleRules V))

/-- The rules under a key, over others. -/
def mergeKey (merged : StyleRules V) (key : String) : StyleRules V :=
  match rules.lookup key with
  | some found => merged.mergeFrom found
  | none => merged

/-- The base rules of a node in `build_taffy_tree`: those of its tag, its class and its id. -/
def baseRules (node : Layout.MizuNode) : StyleRules V :=
  let merged := mergeKey rules .empty node.styleTagName
  let merged :=
    match node.attributes.lookup "class" with
    | some name => mergeKey rules merged name
    | none => merged
  match node.attributes.lookup "id" with
  | some name => mergeKey rules merged ("#" ++ name)
  | none => merged

end Node

end Mizu.Style
