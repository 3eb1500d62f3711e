import Mathlib

/-!
# YAML documents

The block documents of YAML 1.2 whose scalars stand on one line: block sequences and block mappings with indentation
and compact nesting, double-quoted scalars with every escape, plain scalars of a single word and empty flow
collections. An implicit key has a greatest length, which the standard sets to 1024 characters.

`parse` reads a document into its nodes, with the greatest length of an implicit key as a parameter. Whatever else YAML
knows, such as comments, anchors and the other styles, is not read.

* `scanDouble_quote`: a double-quoted scalar, from how its characters are written.
* `block_seq`, `moreItems_cons`, `block_map`, `moreEntries_cons`, `mapEntry_nested`, `mapEntry_inline`: how a collection
  is read, one item at a time.
-/

namespace Yaml

open List Option

/-- A node of a document: the scalars by their style. -/
inductive Node where
  | quoted (content : List Char)
  | plain (text : List Char)
  | seq (items : List Node)
  | map (entries : List (List Char × Node))

/-! ## Scalars -/

variable {c : Char}

section Scalars

/-- `nb-json`: what a quoted scalar may hold as it is. -/
def isNbJson (c : Char) : Bool := c = '\t' || 0x20 ≤ c.toNat

/-- `c-ns-esc-char`, the escapes of one letter. -/
def escapeOf : Char → Option Char
  | '0' => some '\x00'
  | 'a' => some '\x07'
  | 'b' => some '\x08'
  | 't' | '\t' => some '\t'
  | 'n' => some '\n'
  | 'v' => some '\x0b'
  | 'f' => some '\x0c'
  | 'r' => some '\r'
  | 'e' => some '\x1b'
  | ' ' => some ' '
  | '"' => some '"'
  | '/' => some '/'
  | '\\' => some '\\'
  | 'N' => some '\u0085'
  | '_' => some '\u00a0'
  | 'L' => some '\u2028'
  | 'P' => some '\u2029'
  | _ => none

/-- `ns-hex-digit`. -/
def hexDigit (c : Char) : Option Nat :=
  if '0' ≤ c ∧ c ≤ '9' then some (c.toNat - 0x30)
  else if 'a' ≤ c ∧ c ≤ 'f' then some (c.toNat - 0x57)
  else if 'A' ≤ c ∧ c ≤ 'F' then some (c.toNat - 0x37)
  else none

def hexValue (value : Nat) : List Char → Option Nat
  | [] => some value
  | c :: cs => (hexDigit c).bind fun digit => hexValue (16 * value + digit) cs

/-- A character given by `n` digits. -/
def codePoint (n : Nat) (cs : List Char) : Option (Char × List Char) :=
  if cs.length < n then none
  else (hexValue 0 (cs.take n)).bind fun value =>
    if value.isValidChar then some (Char.ofNat value, cs.drop n) else none

theorem codePoint_two {a b : Char} {value : Nat} (h : hexValue 0 [a, b] = some value) (hvalid : value.isValidChar)
    (rest : List Char) : codePoint 2 (a :: b :: rest) = some (Char.ofNat value, rest) := by
  have hlength : ¬(a :: b :: rest).length < 2 := by simp
  rw [codePoint, if_neg hlength]
  simp only [take_succ_cons, take_zero, drop_succ_cons, drop_zero, h, bind_some, if_pos hvalid]

/-- `nb-double-char`: a character of a double-quoted scalar. -/
def scanChar : List Char → Option (Char × List Char)
  | [] => none
  | '\\' :: 'x' :: cs => codePoint 2 cs
  | '\\' :: 'u' :: cs => codePoint 4 cs
  | '\\' :: 'U' :: cs => codePoint 8 cs
  | '\\' :: e :: cs => (escapeOf e).map fun c => (c, cs)
  | ['\\'] => none
  | c :: cs => if isNbJson c then some (c, cs) else none

theorem codePoint_length {n : Nat} {cs rest : List Char} (h : codePoint n cs = some (c, rest)) :
    rest.length ≤ cs.length := by
  grind [codePoint, bind_eq_some_iff]

theorem scanChar_length {cs rest : List Char} (h : scanChar cs = some (c, rest)) :
    rest.length < cs.length := by
  fun_cases scanChar cs with
  | case1 => cases h
  | case2 | case3 | case4 =>
    rw [scanChar] at h
    have := codePoint_length h
    simp only [length_cons]
    omega
  | case5 e cs => grind [scanChar, map_eq_some_iff]
  | case6 => cases h
  | case7 c' cs =>
    rename_i hc
    rw [scanChar] at h <;> try assumption
    rw [if_pos hc] at h
    cases h
    simp
  | case8 c' cs =>
    rename_i hc
    rw [scanChar] at h <;> try assumption
    rw [if_neg hc] at h
    cases h

/-- `nb-double-one-line`, behind the opening quote, up to the closing one. -/
def scanDouble (cs : List Char) : Option (List Char × List Char) :=
  if cs.head? = some '"' then some ([], cs.tail)
  else
    match _h : scanChar cs with
    | none => none
    | some (c, rest) => (scanDouble rest).map fun (content, rest) => (c :: content, rest)
termination_by cs.length
decreasing_by exact scanChar_length _h

/-- What plain scalars are made of here: words of letters and digits, and the signs and points of numbers. -/
def isPlainChar (c : Char) : Bool := c.isAlphanum || c = '-' || c = '+' || c = '.'

def isWhite (c : Char) : Bool := c = ' ' || c = '\t'

/-- A node on one line that is no block collection. -/
def flowNode : List Char → Option (Node × List Char)
  | '"' :: cs => (scanDouble cs).map fun (content, rest) => (.quoted content, rest)
  | '[' :: cs =>
    match cs.dropWhile isWhite with
    | ']' :: rest => some (.seq [], rest)
    | _ => none
  | '\x7b' :: cs =>
    match cs.dropWhile isWhite with
    | '\x7d' :: rest => some (.map [], rest)
    | _ => none
  | cs =>
    let text := cs.takeWhile isPlainChar
    if text = [] then none else some (.plain text, cs.dropWhile isPlainChar)

end Scalars

/-! ## Collections -/

section Blocks

/-- The number of spaces at the start. -/
def leadingSpaces (cs : List Char) : Nat := (cs.takeWhile (· = ' ')).length

/-- `s-indent(n)`. -/
def stripIndent : Nat → List Char → Option (List Char)
  | 0, cs => some cs
  | n + 1, ' ' :: cs => stripIndent n cs
  | _, _ => none

/-- The next line, behind the indentation of a column. -/
def nextLine (col : Nat) : List Char → Option (List Char)
  | '\n' :: cs => stripIndent col cs
  | _ => none

variable (limit : Nat)

/-- `ns-s-block-map-implicit-key` and its colon: the key and what follows. The length of the key is that of its text. -/
def implicitKey : List Char → Option (List Char × List Char)
  | '"' :: cs =>
    (scanDouble cs).bind fun (key, rest) =>
      match rest.dropWhile isWhite with
      | ':' :: after => if cs.length - (after.length + 1) + 1 ≤ limit then some (key, after) else none
      | _ => none
  | _ => none

/-- Whether a colon follows a quoted scalar, which makes it a key. -/
def isKey (rest : List Char) : Bool := (rest.dropWhile isWhite).head? = some ':'

/-- `ns-l-block-map-entry` with an implicit key: a value on the same line, or a block on the next that is indented more
than the mapping. -/
def mapEntry (block : Nat → List Char → Option (Node × List Char)) (col : Nat) (cs : List Char) :
    Option ((List Char × Node) × List Char) :=
  (implicitKey limit cs).bind fun (key, after) =>
    match after with
    | '\n' :: line =>
      if col < leadingSpaces line then
        (block (leadingSpaces line) (line.drop (leadingSpaces line))).map fun (value, rest) => ((key, value), rest)
      else none
    | ' ' :: cs => (flowNode (cs.dropWhile (· = ' '))).map fun (value, rest) => ((key, value), rest)
    | _ => none

mutual

/-- A block node whose text begins at a column. -/
def block : Nat → Nat → List Char → Option (Node × List Char)
  | 0, _, _ => none
  | fuel + 1, col, cs =>
    match cs with
    | '-' :: ' ' :: cs =>
      (block fuel (col + 2 + leadingSpaces cs) (cs.drop (leadingSpaces cs))).bind fun (item, rest) =>
        (moreItems fuel col rest).map fun (items, rest) => (.seq (item :: items), rest)
    | '"' :: cs =>
      (scanDouble cs).bind fun (content, rest) =>
        if isKey rest then
          (mapEntry limit (block fuel) col ('"' :: cs)).bind fun (entry, rest) =>
            (moreEntries fuel col rest).map fun (entries, rest) => (.map (entry :: entries), rest)
        else some (.quoted content, rest)
    | cs => flowNode cs

/-- The rest of a sequence at a column. -/
def moreItems : Nat → Nat → List Char → Option (List Node × List Char)
  | 0, _, _ => none
  | fuel + 1, col, rest =>
    match nextLine col rest with
    | some ('-' :: ' ' :: cs) =>
      (block fuel (col + 2 + leadingSpaces cs) (cs.drop (leadingSpaces cs))).bind fun (item, rest) =>
        (moreItems fuel col rest).map fun (items, rest) => (item :: items, rest)
    | _ => some ([], rest)

/-- The rest of a mapping at a column. -/
def moreEntries : Nat → Nat → List Char → Option (List (List Char × Node) × List Char)
  | 0, _, _ => none
  | fuel + 1, col, rest =>
    match nextLine col rest with
    | some ('"' :: cs) =>
      (mapEntry limit (block fuel) col ('"' :: cs)).bind fun (entry, rest) =>
        (moreEntries fuel col rest).map fun (entries, rest) => (entry :: entries, rest)
    | _ => some ([], rest)

end

/-- A document: one block node. -/
def parse (cs : List Char) : Option Node :=
  match block limit (cs.length + 1) 0 cs with
  | some (node, []) => some node
  | _ => none

end Blocks

/-! ## How a written scalar is read -/

section Written

/-- A text that is read as one character. -/
structure WrittenAs (text : List Char) (c : Char) : Prop where
  scan : ∀ rest, scanChar (text ++ rest) = some (c, rest)
  noQuote : ∀ rest, (text ++ rest).head? ≠ some '"'

/-- A double-quoted scalar is read as what was written, up to its closing quote. -/
theorem scanDouble_quote {write : Char → List Char} (h : ∀ c, WrittenAs (write c) c) (content rest : List Char) :
    scanDouble (content.flatMap write ++ '"' :: rest) = some (content, rest) := by
  induction content with
  | nil =>
    rw [scanDouble]
    rfl
  | cons c content ih =>
    rw [flatMap_cons, append_assoc, scanDouble, if_neg ((h c).noQuote _)]
    split
    · rename_i hnone
      rw [(h c).scan] at hnone
      cases hnone
    · rename_i c' rest' hsome
      rw [(h c).scan] at hsome
      cases hsome
      rw [ih]
      rfl

/-- A word is read as a plain scalar. -/
theorem flowNode_plain {text rest : List Char} (hne : text ≠ []) (htext : ∀ c ∈ text, isPlainChar c = true)
    (hrest : ∀ c ∈ rest.head?, isPlainChar c = false) : flowNode (text ++ rest) = some (.plain text, rest) := by
  have htake : (text ++ rest).takeWhile isPlainChar = text := by
    rw [takeWhile_append_of_pos htext]
    cases rest with
    | nil => exact append_nil text
    | cons c rest => simp [hrest c rfl]
  have hdrop : (text ++ rest).dropWhile isPlainChar = rest := by
    rw [dropWhile_append_of_pos htext]
    cases rest with
    | nil => rfl
    | cons c rest => simp [hrest c rfl]
  obtain ⟨c, text', rfl⟩ := exists_cons_of_ne_nil hne
  have hc : isPlainChar c = true := htext c mem_cons_self
  rw [cons_append] at htake hdrop ⊢
  rw [flowNode]
  · simp only [htake, hdrop, if_neg hne]
  all_goals
    intro cs hcs
    rw [(List.cons.inj hcs).1] at hc
    cases hc

end Written

/-! ## How a written collection is read -/

section Rules

/-- The text ends, or goes on in a line that is indented less than the column. -/
def Closes (col : Nat) (rest : List Char) : Prop :=
  rest = [] ∨ ∃ indent c tail, indent < col ∧ c ≠ ' ' ∧ rest = '\n' :: (List.replicate indent ' ' ++ c :: tail)

variable {rest : List Char}

theorem Closes.mono {col col' : Nat} (h : Closes col rest) (hle : col ≤ col') : Closes col' rest := by
  rcases h with rfl | ⟨indent, c, tail, hlt, hc, rfl⟩
  · exact .inl rfl
  · exact .inr ⟨indent, c, tail, hlt.trans_le hle, hc, rfl⟩

theorem closes_line {indent col : Nat} (h : indent < col) (hc : c ≠ ' ') (tail : List Char) :
    Closes col ('\n' :: (List.replicate indent ' ' ++ c :: tail)) :=
  .inr ⟨indent, c, tail, h, hc, rfl⟩

theorem stripIndent_replicate (n : Nat) (cs : List Char) :
    stripIndent n (List.replicate n ' ' ++ cs) = some cs := by
  induction n with
  | zero => rfl
  | succ n ih => exact ih

theorem stripIndent_of_lt {indent n : Nat} (h : indent < n) (hc : c ≠ ' ') (tail : List Char) :
    stripIndent n (List.replicate indent ' ' ++ c :: tail) = none := by
  induction indent generalizing n with
  | zero =>
    obtain ⟨n, rfl⟩ := Nat.exists_eq_succ_of_ne_zero (Nat.pos_iff_ne_zero.mp h)
    simp only [replicate_zero, nil_append]
    unfold stripIndent
    split
    · rename_i heq
      cases heq
    · rename_i heq
      exact absurd (List.cons.inj heq).1 hc
    · rfl
  | succ indent ih =>
    obtain ⟨n, rfl⟩ := Nat.exists_eq_succ_of_ne_zero (Nat.ne_of_gt (Nat.zero_lt_of_lt h))
    exact ih (by omega)

theorem nextLine_of_closes {col : Nat} (h : Closes col rest) : nextLine col rest = none := by
  rcases h with rfl | ⟨indent, c, tail, hlt, hc, rfl⟩
  · rfl
  · exact stripIndent_of_lt hlt hc tail

theorem leadingSpaces_replicate (n : Nat) (hc : c ≠ ' ') (tail : List Char) :
    leadingSpaces (List.replicate n ' ' ++ c :: tail) = n := by
  unfold leadingSpaces
  rw [takeWhile_append_of_pos (by simp), length_append, length_replicate]
  simp [hc]

theorem isKey_of_closes {col : Nat} (h : Closes col rest) : isKey rest = false := by
  rcases h with rfl | ⟨indent, c, tail, -, -, rfl⟩ <;> rfl

variable {limit fuel col : Nat} {c : Char} {cs rest : List Char}

attribute [local simp] block moreItems moreEntries mapEntry

theorem block_seq (hc : c ≠ ' ') :
    block limit (fuel + 1) col ('-' :: ' ' :: c :: cs) =
      (block limit fuel (col + 2) (c :: cs)).bind fun (item, rest) =>
        (moreItems limit fuel col rest).map fun (items, rest) => (.seq (item :: items), rest) := by
  have hspaces : leadingSpaces (c :: cs) = 0 := leadingSpaces_replicate 0 hc cs
  rw [block, hspaces, Nat.add_zero, drop_zero]

theorem moreItems_cons (hc : c ≠ ' ') :
    moreItems limit (fuel + 1) col ('\n' :: (List.replicate col ' ' ++ '-' :: ' ' :: c :: cs)) =
      (block limit fuel (col + 2) (c :: cs)).bind fun (item, rest) =>
        (moreItems limit fuel col rest).map fun (items, rest) => (item :: items, rest) := by
  have hspaces : leadingSpaces (c :: cs) = 0 := leadingSpaces_replicate 0 hc cs
  rw [moreItems, nextLine, stripIndent_replicate]
  simp only [hspaces, Nat.add_zero, drop_zero]

theorem moreItems_of_closes (h : Closes col rest) : moreItems limit (fuel + 1) col rest = some ([], rest) := by
  rw [moreItems, nextLine_of_closes h]

theorem moreEntries_of_closes (h : Closes col rest) : moreEntries limit (fuel + 1) col rest = some ([], rest) := by
  rw [moreEntries, nextLine_of_closes h]

theorem block_quoted {content : List Char} (hscan : scanDouble cs = some (content, rest)) (hkey : isKey rest = false) :
    block limit (fuel + 1) col ('"' :: cs) = some (.quoted content, rest) := by
  rw [block, hscan, bind_some]
  simp only [hkey, Bool.false_eq_true, if_false]

theorem block_map {content : List Char} (hscan : scanDouble cs = some (content, rest)) (hkey : isKey rest = true) :
    block limit (fuel + 1) col ('"' :: cs) =
      (mapEntry limit (block limit fuel) col ('"' :: cs)).bind fun (entry, rest) =>
        (moreEntries limit fuel col rest).map fun (entries, rest) => (.map (entry :: entries), rest) := by
  rw [block, hscan, bind_some]
  simp only [hkey, if_true]

theorem moreEntries_cons :
    moreEntries limit (fuel + 1) col ('\n' :: (List.replicate col ' ' ++ '"' :: cs)) =
      (mapEntry limit (block limit fuel) col ('"' :: cs)).bind fun (entry, rest) =>
        (moreEntries limit fuel col rest).map fun (entries, rest) => (entry :: entries, rest) := by
  rw [moreEntries, nextLine, stripIndent_replicate]
  rfl

/-- A node that is neither a sequence nor quoted stands on its line. -/
theorem block_flow (hdash : ∀ tail, cs ≠ '-' :: ' ' :: tail) (hquote : ∀ tail, cs ≠ '"' :: tail) :
    block limit (fuel + 1) col cs = flowNode cs := by
  simp

/-- A key that is too long is none. -/
theorem implicitKey_quoted {text key : List Char}
    (hscan : scanDouble (text ++ '"' :: ':' :: rest) = some (key, ':' :: rest)) :
    implicitKey limit ('"' :: (text ++ '"' :: ':' :: rest)) =
      if text.length + 2 ≤ limit then some (key, rest) else none := by
  have hlength : (text ++ '"' :: ':' :: rest).length - (rest.length + 1) + 1 = text.length + 2 := by grind
  have hwhite : (':' :: rest).dropWhile isWhite = ':' :: rest := rfl
  rw [implicitKey, hscan, bind_some]
  simp only [hwhite, hlength]

variable {block : Nat → List Char → Option (Node × List Char)} {key : List Char}

theorem mapEntry_nested {indent : Nat} {tail : List Char}
    (hkey : implicitKey limit cs = some (key, '\n' :: (List.replicate indent ' ' ++ c :: tail))) (hc : c ≠ ' ')
    (hindent : col < indent) :
    mapEntry limit block col cs = (block indent (c :: tail)).map fun (value, rest) => ((key, value), rest) := by
  rw [mapEntry, hkey, bind_some]
  simp only [leadingSpaces_replicate indent hc tail, if_pos hindent, drop_left' (length_replicate)]

theorem mapEntry_inline {tail : List Char} (hkey : implicitKey limit cs = some (key, ' ' :: c :: tail)) (hc : c ≠ ' ') :
    mapEntry limit block col cs = (flowNode (c :: tail)).map fun (value, rest) => ((key, value), rest) := by
  rw [mapEntry, hkey, bind_some]
  simp [hc]

theorem mapEntry_of_no_key (hkey : implicitKey limit cs = none) : mapEntry limit block col cs = none := by
  rw [mapEntry, hkey, bind_none]

end Rules

end Yaml
