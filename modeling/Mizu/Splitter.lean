import Mizu.Security.Navigation

/-!
# Splitting a source text

A source text from the network is cut into its four blocks line by line. A line of one block is a blank line of the
others. Imports are refused.
-/

namespace Mizu

open List

/-- `char::is_whitespace`. -/
def isWhitespace (c : Char) : Bool :=
  let n := c.toNat
  (0x9 ≤ n && n ≤ 0xd) || n = 0x20 || n = 0x85 || n = 0xa0 || n = 0x1680 ||
    (0x2000 ≤ n && n ≤ 0x200a) || n = 0x2028 || n = 0x2029 || n = 0x202f || n = 0x205f || n = 0x3000

/-- A block that is not parsed at all. -/
def isBlank (block : String) : Bool := block.toList.all isWhitespace

/-- `str::trim_end`. -/
def trimEnd (cs : List Char) : List Char := (cs.reverse.dropWhile isWhitespace).reverse

theorem trimEnd_split (cs : List Char) : ∃ ws, cs = trimEnd cs ++ ws ∧ ∀ c ∈ ws, isWhitespace c = true := by
  refine ⟨(cs.reverse.takeWhile isWhitespace).reverse, ?_, fun c hc => ?_⟩
  · rw [trimEnd, ← reverse_append, takeWhile_append_dropWhile, reverse_reverse]
  · exact mem_takeWhile_imp (mem_reverse.mp hc)

theorem trimEnd_ends (cs : List Char) : ∀ c, (trimEnd cs).getLast? = some c → isWhitespace c = false := by
  intro c hc
  rw [trimEnd, List.getLast?_reverse] at hc
  have hnot := List.head?_dropWhile_not isWhitespace cs.reverse
  rw [hc] at hnot
  simpa using hnot

theorem trimEnd_of_ends {cs : List Char} (h : ∀ c, cs.getLast? = some c → isWhitespace c = false) :
    trimEnd cs = cs := by
  have hdrop : cs.reverse.dropWhile isWhitespace = cs.reverse := by
    cases hcs : cs.reverse with
    | nil => rfl
    | cons c rest =>
      have hc : isWhitespace c = false := h c (by rw [← List.head?_reverse, hcs]; rfl)
      rw [dropWhile_cons, if_neg (by rw [hc]; decide)]
  rw [trimEnd, hdrop, reverse_reverse]

/-- White space at the end of a text is trimmed. -/
theorem trimEnd_append_blank (cs : List Char) {ws : List Char} (h : ∀ c ∈ ws, isWhitespace c = true) :
    trimEnd (cs ++ ws) = trimEnd cs := by
  have hws : ws.reverse.dropWhile isWhitespace = [] :=
    dropWhile_eq_nil_iff.mpr fun c hc => h c (mem_reverse.mp hc)
  rw [trimEnd, reverse_append, dropWhile_append, hws]
  rfl

theorem trimEnd_eq_nil {cs : List Char} : trimEnd cs = [] ↔ ∀ c ∈ cs, isWhitespace c = true := by
  rw [trimEnd, reverse_eq_nil_iff, dropWhile_eq_nil_iff]
  simp only [mem_reverse]

def isAsciiWhitespace (c : Char) : Bool :=
  c = ' ' || c = '\t' || c = '\n' || c.toNat = 0xc || c = '\r'

/-- What stands before the comment; `prev` is the character before the rest of the line. A `;;`
starts a comment outside a string, at the start of the line or after whitespace. -/
def stripCommentFrom (inString : Bool) (prev : Option Char) : List Char → List Char
  | [] => []
  | c :: cs =>
    if c = '"' then c :: stripCommentFrom (!inString) (some c) cs
    else if c = '\\' ∧ inString then
      match cs with
      | [] => [c]
      | d :: ds => c :: d :: stripCommentFrom inString (some d) ds
    else if c = ';' ∧ !inString ∧ cs.head? = some ';' ∧ prev.all isAsciiWhitespace then []
    else c :: stripCommentFrom inString (some c) cs

/-- `strip_comment`. -/
def stripComment (line : List Char) : List Char := stripCommentFrom false none line

/-- `str::lines`. -/
def lines : List Char → List (List Char)
  | [] => []
  | c :: cs =>
    if c = '\n' then [] :: lines cs
    else
      match lines cs with
      | [] => [[c]]
      | l :: ls => if cs.head? = some '\n' ∧ c = '\r' then l :: ls else (c :: l) :: ls

def isImportDirective (trimmed : List Char) : Bool :=
  "import ".toList.isPrefixOf trimmed || "include ".toList.isPrefixOf trimmed

inductive ActiveBlock where
  | logic
  | style
  | layout
  | urls
  deriving DecidableEq, Repr

def ActiveBlock.ofKeyword (keyword : String) : Option ActiveBlock :=
  match keyword with
  | "logic" => some .logic
  | "style" => some .style
  | "layout" => some .layout
  | "urls" => some .urls
  | _ => none

/-- The four blocks of a source text. -/
structure ParsedSource where
  logicBlock : String
  styleBlock : String
  layoutBlock : String
  urlsBlock : String
  deriving DecidableEq, Repr

namespace ParsedSource

def empty : ParsedSource := ⟨"", "", "", ""⟩

/-- Adds a line to the active block and a blank one to the others. -/
def push (p : ParsedSource) (active : ActiveBlock) (line : String) : ParsedSource :=
  let lineFor := fun block => (if block = active then line else "") ++ "\n"
  { logicBlock := p.logicBlock ++ lineFor .logic
    styleBlock := p.styleBlock ++ lineFor .style
    layoutBlock := p.layoutBlock ++ lineFor .layout
    urlsBlock := p.urlsBlock ++ lineFor .urls }

end ParsedSource

/-- One line of the text; `number` counts from one. -/
def splitLine (number : Nat) (rawLine : List Char) (active : Option ActiveBlock)
    (parsed : ParsedSource) : Except MizuError (Option ActiveBlock × ParsedSource) :=
  let line := stripComment rawLine
  let trimmedStart := line.dropWhile (· = ' ')
  let trimmed := trimEnd trimmedStart
  if trimmed.isEmpty then .ok (active, parsed)
  else if trimmedStart.length = line.length then
    match ActiveBlock.ofKeyword (String.ofList trimmed) with
    | some block => .ok (some block, parsed)
    | none =>
      if isImportDirective trimmed then
        .error (.parseError "includes are not permitted in network-delivered documents")
      else
        .error (.parseError ("line " ++ toString number ++ ": unexpected root-level token `" ++
          String.ofList trimmed ++
          "`; expected `logic`, `style`, `layout`, `urls`, or `import \"…\"`"))
  else
    let contentLine := String.ofList (trimEnd line)
    match active with
    | some block => .ok (active, parsed.push block contentLine)
    | none =>
      .error (.parseError ("line " ++ toString number ++ ": indented content `" ++ contentLine ++
        "` appears before any section keyword (`logic`, `style`, `layout`, or `urls`)"))

def splitLines (number : Nat) (active : Option ActiveBlock) (parsed : ParsedSource) :
    List (List Char) → Except MizuError ParsedSource
  | [] => .ok parsed
  | line :: rest =>
    match splitLine number line active parsed with
    | .error e => .error e
    | .ok (active, parsed) => splitLines (number + 1) active parsed rest

/-- `split_source_with_origin` for a text from the network. -/
def splitSource (source : String) : Except MizuError ParsedSource :=
  splitLines 1 none .empty (lines source.toList)

example : splitSource "logic\r\n  f() : 1 ;; one\nlayout\n  doc\n" =
    .ok ⟨"  f() : 1\n\n", "\n\n", "\n  doc\n", "\n\n"⟩ := by decide +kernel

end Mizu
