import Mizu.Lib.Yaml
import Mizu.Network.Payload

/-!
# Payloads in YAML, read back

What a YAML processor with the JSON schema makes of the text that `toYamlString` writes.

* `parse_toYamlString`: the document is read as the value, if no key is longer than an implicit key may be.
* `toYamlString_injective`: no two values have the same text.
* `yaml_decodable_iff`: with the limit of the standard, the values that are read back are those
  whose keys take at most 1024 characters with their quotes.

The keys of a record differ from one another before they come here, so the reader does not look for
keys that occur twice.
-/

namespace Mizu

open Yaml List Option

/-! ## The JSON schema -/

section Schema

/-- A plain scalar in the JSON schema. Of the numbers that the schema knows besides those of JSON, such as `1.`, none is
written. -/
def resolvePlain (text : List Char) : Option JsonValue :=
  match JsonNumber.fromStr text with
  | some n => some (.number n)
  | none =>
    if text = ['n', 'u', 'l', 'l'] then some .null
    else if text = ['t', 'r', 'u', 'e'] then some (.bool true)
    else if text = ['f', 'a', 'l', 's', 'e'] then some (.bool false)
    else none

mutual

/-- The value of a node in the JSON schema. -/
def resolveNode : Node → Option JsonValue
  | .quoted content => some (.string (String.ofList content))
  | .plain text => resolvePlain text
  | .seq items => (resolveItems items).map .array
  | .map entries => (resolveEntries entries).map .object

def resolveItems : List Node → Option (List JsonValue)
  | [] => some []
  | item :: items => (resolveNode item).bind fun v => (resolveItems items).map (v :: ·)

def resolveEntries : List (List Char × Node) → Option (List JsonEntry)
  | [] => some []
  | (key, value) :: entries =>
    (resolveNode value).bind fun v => (resolveEntries entries).map (.mk (String.ofList key) v :: ·)

end

/-- A text as a YAML document with the JSON schema. -/
def parseYaml (limit : Nat) (text : String) : Option JsonValue := (Yaml.parse limit text.toList).bind resolveNode

/-- The greatest length of an implicit key. -/
def maxImplicitKey : Nat := 1024

end Schema

/-! ## The nodes of a value -/

/-- How many characters a character of a key takes: an escape of one letter has two, one of two digits four. -/
def keyCharLength (c : Char) : Nat :=
  if c ∈ ['\\', '"', '\n', '\t', '\r'] then 2
  else if c.toNat < 0x20 then 4
  else 1

/-- How many characters a key takes, with its quotes. -/
def keyLength (key : String) : Nat := (key.toList.map keyCharLength).sum + 2

namespace JsonValue

mutual

/-- The node that a value is written as. -/
def toNode : JsonValue → Node
  | null => .plain ['n', 'u', 'l', 'l']
  | bool b => .plain (if b then ['t', 'r', 'u', 'e'] else ['f', 'a', 'l', 's', 'e'])
  | number n => .plain n.text
  | string s => .quoted s.toList
  | array items => .seq (toNodes items)
  | object entries => .map (toEntries entries)

def toNodes : List JsonValue → List Node
  | [] => []
  | item :: items => item.toNode :: toNodes items

def toEntries : List JsonEntry → List (List Char × Node)
  | [] => []
  | .mk key value :: entries => (key.toList, value.toNode) :: toEntries entries

end

mutual

/-- No key takes more characters than an implicit key may. -/
def ShortKeys (limit : Nat) : JsonValue → Bool
  | array items => ShortKeysItems limit items
  | object entries => ShortKeysEntries limit entries
  | _ => true

def ShortKeysItems (limit : Nat) : List JsonValue → Bool
  | [] => true
  | item :: items => item.ShortKeys limit && ShortKeysItems limit items

def ShortKeysEntries (limit : Nat) : List JsonEntry → Bool
  | [] => true
  | .mk key value :: entries =>
    (keyLength key ≤ limit && value.ShortKeys limit) && ShortKeysEntries limit entries

end

end JsonValue

section Resolve

theorem fromStr_text (n : JsonNumber) : JsonNumber.fromStr n.text = some n := dif_pos n.valid

mutual

theorem resolveNode_toNode (v : JsonValue) : resolveNode v.toNode = some v := by
  cases v with
  | null => rfl
  | bool b => cases b <;> rfl
  | number n =>
    rw [JsonValue.toNode, resolveNode, resolvePlain, fromStr_text]
  | string s => rw [JsonValue.toNode, resolveNode, String.ofList_toList]
  | array items => rw [JsonValue.toNode, resolveNode, resolveItems_toNodes items, map_some]
  | object entries => rw [JsonValue.toNode, resolveNode, resolveEntries_toEntries entries, map_some]

theorem resolveItems_toNodes (items : List JsonValue) : resolveItems (JsonValue.toNodes items) = some items := by
  cases items with
  | nil => rfl
  | cons item items =>
    rw [JsonValue.toNodes, resolveItems, resolveNode_toNode item, bind_some, resolveItems_toNodes items,
      map_some]

theorem resolveEntries_toEntries (entries : List JsonEntry) :
    resolveEntries (JsonValue.toEntries entries) = some entries := by
  cases entries with
  | nil => rfl
  | cons entry entries =>
    obtain ⟨key, value⟩ := entry
    rw [JsonValue.toEntries, resolveEntries, resolveNode_toNode value, bind_some,
      resolveEntries_toEntries entries, map_some, String.ofList_toList]

end

end Resolve

/-! ## The text of a scalar -/

section Scalars

theorem toList_join_map (f : Char → String) (cs : List Char) :
    (String.join (cs.map f)).toList = cs.flatMap fun c => (f c).toList := by
  induction cs with
  | nil => rfl
  | cons c cs ih => rw [map_cons, String.join_cons, String.toList_append, ih, flatMap_cons]

theorem pushIndent_toList (level : Nat) : (pushIndent level).toList = List.replicate (2 * level) ' ' := by
  unfold pushIndent
  induction level with
  | zero => rfl
  | succ level ih =>
    rw [replicate_succ, String.join_cons, String.toList_append, ih, Nat.mul_succ, Nat.add_comm,
      replicate_add]
    rfl

/-- The characters of a text, as they are written. -/
def yamlContent (s : String) : List Char := s.toList.flatMap fun c => (yamlEscape c).toList

theorem writeQuotedString_toList (s : String) : (writeQuotedString s).toList = '"' :: (yamlContent s ++ ['"']) := by
  rw [writeQuotedString, String.toList_append, String.toList_append, toList_join_map]
  rfl

theorem yamlEscape_length (c : Char) : (yamlEscape c).toList.length = keyCharLength c := by
  unfold yamlEscape keyCharLength
  by_cases hshort : c ∈ ['\\', '"', '\n', '\t', '\r']
  · rw [if_pos hshort]
    simp only [mem_cons, not_mem_nil, or_false] at hshort
    rcases hshort with rfl | rfl | rfl | rfl | rfl <;> rfl
  · rw [if_neg hshort]
    simp only [mem_cons, not_mem_nil, or_false, not_or] at hshort
    obtain ⟨h1, h2, h3, h4, h5⟩ := hshort
    rw [if_neg h1, if_neg h2, if_neg h3, if_neg h4, if_neg h5]
    split
    · rw [String.toList_append, hexByte, length_append, String.toList_ofList, String.toList_ofList]
      rfl
    · rw [String.toList_singleton]
      rfl

theorem yamlContent_length (s : String) : (yamlContent s).length + 2 = keyLength s := by
  simp only [yamlContent, keyLength, length_flatMap, yamlEscape_length]

/-- The digits of a byte. -/
def hexDigits : List Char := ['0', '1', '2', '3', '4', '5', '6', '7', '8', '9', 'a', 'b', 'c', 'd', 'e', 'f']

/-- The two digits of a control character are read back. -/
theorem codePoint_hexByte (n : Nat) (h : n < 0x20) (rest : List Char) :
    codePoint 2 ((hexByte n).toList ++ rest) = some (Char.ofNat n, rest) := by
  have hdigits : "0123456789abcdef".toList = hexDigits := rfl
  have hvalue : ∀ n < 0x20, hexValue 0 [(hexDigits.getD (n / 16) '0'), (hexDigits.getD (n % 16) '0')] = some n := by
    decide
  have hvalid : n.isValidChar := .inl (by omega)
  rw [hexByte, String.toList_ofList, hdigits]
  exact codePoint_two (hvalue n h) hvalid rest

theorem yamlEscape_writtenAs (c : Char) : WrittenAs (yamlEscape c).toList c := by
  unfold yamlEscape
  split
  · rename_i hc
    exact ⟨fun _ => hc ▸ rfl, by simp⟩
  split
  · rename_i hc
    exact ⟨fun _ => hc ▸ rfl, by simp⟩
  split
  · rename_i hc
    exact ⟨fun _ => hc ▸ rfl, by simp⟩
  split
  · rename_i hc
    exact ⟨fun _ => hc ▸ rfl, by simp⟩
  split
  · rename_i hc
    exact ⟨fun _ => hc ▸ rfl, by simp⟩
  split
  · rename_i hc
    have htext : ∀ rest, ("\\x" ++ hexByte c.toNat).toList ++ rest = '\\' :: 'x' :: ((hexByte c.toNat).toList ++ rest) := by
      simp
    refine ⟨fun rest => ?_, fun rest => ?_⟩
    · rw [htext, scanChar, codePoint_hexByte c.toNat hc, Char.ofNat_toNat]
    · simp
  · rename_i hbackslash hquote _ _ _ hcontrol
    have hjson : isNbJson c = true := by
      simp only [isNbJson, Bool.or_eq_true, decide_eq_true_eq]
      omega
    have htext : ∀ rest, (String.singleton c).toList ++ rest = c :: rest := by simp
    refine ⟨fun rest => ?_, fun rest hhead => hquote ?_⟩
    · rw [htext, scanChar, if_pos hjson] <;> simp [hbackslash]
    · rw [htext] at hhead
      exact some.inj hhead

theorem scanDouble_content (s : String) (rest : List Char) :
    scanDouble (yamlContent s ++ '"' :: rest) = some (s.toList, rest) :=
  scanDouble_quote yamlEscape_writtenAs s.toList rest

theorem isPlainChar_of_isDigit {c : Char} (h : c.isDigit = true) : isPlainChar c = true := by
  have halnum : c.isAlphanum = true := by rw [Char.isAlphanum, h, Bool.or_true]
  simp only [isPlainChar, halnum, Bool.true_or]

variable {cs : List Char}

theorem plain_of_digits (h : ∀ c ∈ cs, c.isDigit = true) : ∀ c ∈ cs, isPlainChar c = true :=
  fun c hc => isPlainChar_of_isDigit (h c hc)

theorem plain_of_isJsonExponent (h : isJsonExponent cs = true) : ∀ c ∈ cs, isPlainChar c = true := by
  cases cs with
  | nil => nofun
  | cons c cs =>
    simp only [isJsonExponent, Bool.and_eq_true, Bool.or_eq_true, decide_eq_true_eq] at h
    obtain ⟨⟨hc, -⟩, hdigits⟩ := h
    refine forall_mem_cons.mpr ⟨by rcases hc with rfl | rfl <;> rfl, ?_⟩
    split at hdigits
    · exact forall_mem_cons.mpr ⟨rfl, plain_of_digits (all_eq_true.mp hdigits)⟩
    · exact forall_mem_cons.mpr ⟨rfl, plain_of_digits (all_eq_true.mp hdigits)⟩
    · exact plain_of_digits (all_eq_true.mp hdigits)

theorem plain_of_isJsonFraction (h : isJsonFraction cs = true) : ∀ c ∈ cs, isPlainChar c = true := by
  unfold isJsonFraction at h
  split at h
  · rename_i cs
    rw [Bool.and_eq_true] at h
    refine forall_mem_cons.mpr ⟨rfl, fun c hc => ?_⟩
    rw [← takeWhile_append_dropWhile (p := Char.isDigit) (l := cs)] at hc
    rcases mem_append.mp hc with hc | hc
    · exact isPlainChar_of_isDigit (all_eq_true.mp all_takeWhile c hc)
    · exact plain_of_isJsonExponent h.2 c hc
  · exact plain_of_isJsonExponent h

theorem JsonNumber.plain (n : JsonNumber) : n.text ≠ [] ∧ ∀ c ∈ n.text, isPlainChar c = true := by
  have hvalid := n.valid
  simp only [isJsonNumber, Bool.and_eq_true] at hvalid
  obtain ⟨⟨hint, -⟩, hfraction⟩ := hvalid
  have hunsigned : ∀ {cs : List Char}, isJsonFraction (cs.dropWhile Char.isDigit) = true →
      ∀ c ∈ cs, isPlainChar c = true := by
    intro cs h c hc
    rw [← takeWhile_append_dropWhile (p := Char.isDigit) (l := cs)] at hc
    rcases mem_append.mp hc with hc | hc
    · exact isPlainChar_of_isDigit (all_eq_true.mp all_takeWhile c hc)
    · exact plain_of_isJsonFraction h c hc
  cases htext : n.text with
  | nil =>
    rw [htext] at hint
    simp at hint
  | cons c cs =>
    refine ⟨by simp, ?_⟩
    rw [htext] at hfraction
    by_cases hminus : c = '-'
    · subst hminus
      exact forall_mem_cons.mpr ⟨rfl, hunsigned hfraction⟩
    · grind

end Scalars

/-! ## The text of a value -/

variable {v : JsonValue}

section Texts

theorem writeBlock_array_toList (indent : Nat) (item : JsonValue) (items : List JsonValue) :
    (writeBlock indent (.array (item :: items))).toList =
      '-' :: ' ' :: ((writeBlock (indent + 1) item).toList ++ (writeItems indent items).toList) := by
  simp [writeBlock, String.toList_append]

theorem writeItems_cons_toList (indent : Nat) (item : JsonValue) (items : List JsonValue) :
    (writeItems indent (item :: items)).toList = '\n' :: (List.replicate (2 * indent) ' ' ++
      '-' :: ' ' :: ((writeBlock (indent + 1) item).toList ++ (writeItems indent items).toList)) := by
  simp only [writeItems, String.toList_append, pushIndent_toList, append_assoc]
  rfl

theorem writeBlock_object_toList (indent : Nat) (entry : JsonEntry) (entries : List JsonEntry) :
    (writeBlock indent (.object (entry :: entries))).toList =
      (writeEntry indent entry).toList ++ (writeEntries indent entries).toList := by
  rw [writeBlock, String.toList_append]

theorem writeEntries_cons_toList (indent : Nat) (entry : JsonEntry) (entries : List JsonEntry) :
    (writeEntries indent (entry :: entries)).toList = '\n' :: (List.replicate (2 * indent) ' ' ++
      ((writeEntry indent entry).toList ++ (writeEntries indent entries).toList)) := by
  simp only [writeEntries, String.toList_append, pushIndent_toList, append_assoc]
  rfl

/-- What stands between a key and its value. -/
def entrySeparator (indent : Nat) (value : JsonValue) : List Char :=
  if value.isBlock then '\n' :: List.replicate (2 * (indent + 1)) ' ' else [' ']

theorem writeEntry_toList (indent : Nat) (key : String) (value : JsonValue) :
    (writeEntry indent (.mk key value)).toList = '"' :: (yamlContent key ++ '"' :: ':' ::
      (entrySeparator indent value ++ (writeBlock (indent + 1) value).toList)) := by
  have hseparator : (if value.isBlock then "\n" ++ pushIndent (indent + 1) else " ").toList =
      entrySeparator indent value := by
    unfold entrySeparator
    split
    · rw [String.toList_append, pushIndent_toList]
      rfl
    · rfl
  simp only [writeEntry, String.toList_append, writeQuotedString_toList, hseparator, append_assoc,
    cons_append]
  rfl

/-- Whatever is no block is written as a scalar. -/
theorem writeBlock_of_not_isBlock (h : v.isBlock = false) (indent : Nat) :
    writeBlock indent v = writeScalar v := by
  cases v with
  | array items =>
    cases items with
    | nil => rw [writeBlock]; all_goals nofun
    | cons item items => cases h
  | object entries =>
    cases entries with
    | nil => rw [writeBlock]; all_goals nofun
    | cons entry entries => cases h
  | null | bool | number | string => rw [writeBlock]; all_goals nofun

/-- The text of a value does not begin with a space. -/
theorem writeBlock_head (indent : Nat) (v : JsonValue) :
    ∃ c cs, (writeBlock indent v).toList = c :: cs ∧ c ≠ ' ' := by
  cases hblock : v.isBlock with
  | true =>
    cases v with
    | array items =>
      obtain ⟨item, items, rfl⟩ : ∃ item items', items = item :: items' := by
        cases items with
        | nil => cases hblock
        | cons item items => exact ⟨item, items, rfl⟩
      exact ⟨'-', _, writeBlock_array_toList indent item items, by decide⟩
    | object entries =>
      obtain ⟨⟨key, value⟩, entries, rfl⟩ : ∃ entry entries', entries = entry :: entries' := by
        cases entries with
        | nil => cases hblock
        | cons entry entries => exact ⟨entry, entries, rfl⟩
      rw [writeBlock_object_toList, writeEntry_toList]
      exact ⟨'"', _, rfl, by decide⟩
    | _ => cases hblock
  | false =>
    rw [writeBlock_of_not_isBlock hblock]
    cases v with
    | null => exact ⟨'n', ['u', 'l', 'l'], rfl, by decide⟩
    | bool b =>
      cases b with
      | true => exact ⟨'t', ['r', 'u', 'e'], rfl, by decide⟩
      | false => exact ⟨'f', ['a', 'l', 's', 'e'], rfl, by decide⟩
    | number n =>
      obtain ⟨hne, hplain⟩ := n.plain
      obtain ⟨c, cs, hcs⟩ := exists_cons_of_ne_nil hne
      refine ⟨c, cs, by rw [writeScalar, String.toList_ofList, hcs], ?_⟩
      rintro rfl
      have hspace := hplain ' ' (hcs ▸ mem_cons_self)
      cases hspace
    | string s => exact ⟨'"', _, writeQuotedString_toList s, by decide⟩
    | array items => exact ⟨'[', [']'], by rw [writeScalar]; rfl, by decide⟩
    | object entries => exact ⟨'\x7b', ['\x7d'], by rw [writeScalar]; rfl, by decide⟩

theorem writeItems_closes {indent col : Nat} (h : 2 * indent < col) (items : List JsonValue) {rest : List Char}
    (hrest : Closes col rest) : Closes col ((writeItems indent items).toList ++ rest) := by
  cases items with
  | nil => exact hrest
  | cons item items => grind [writeItems_cons_toList, closes_line]

theorem writeEntries_closes {indent col : Nat} (h : 2 * indent < col) (entries : List JsonEntry) {rest : List Char}
    (hrest : Closes col rest) : Closes col ((writeEntries indent entries).toList ++ rest) := by
  cases entries with
  | nil => exact hrest
  | cons entry entries =>
    obtain ⟨key, value⟩ := entry
    rw [writeEntries_cons_toList, writeEntry_toList, cons_append, append_assoc, cons_append]
    exact closes_line h (by decide) _

end Texts

/-! ## The text, read back -/

section Read

variable {limit : Nat}

theorem shortKeys_of_not_isBlock (h : v.isBlock = false) : v.ShortKeys limit = true := by
  cases v with
  | array items =>
    cases items with
    | nil => rfl
    | cons item items => cases h
  | object entries =>
    cases entries with
    | nil => rfl
    | cons entry entries => cases h
  | _ => rfl

/-- A scalar ends where its line does. -/
theorem flowNode_writeScalar (h : v.isBlock = false) {col : Nat} {rest : List Char}
    (hrest : Closes col rest) : flowNode ((writeScalar v).toList ++ rest) = some (v.toNode, rest) := by
  have hend : ∀ c ∈ rest.head?, isPlainChar c = false := by
    rcases hrest with rfl | ⟨indent, c, tail, -, -, rfl⟩
    · nofun
    · rintro c ⟨⟩
      rfl
  cases v with
  | null =>
    have htext : ∀ c ∈ ['n', 'u', 'l', 'l'], Yaml.isPlainChar c = true :=
      all_eq_true.mp (by decide)
    exact flowNode_plain (cons_ne_nil _ _) htext hend
  | bool b =>
    cases b with
    | true =>
      have htext : ∀ c ∈ ['t', 'r', 'u', 'e'], Yaml.isPlainChar c = true :=
      all_eq_true.mp (by decide)
      exact flowNode_plain (cons_ne_nil _ _) htext hend
    | false =>
      have htext : ∀ c ∈ ['f', 'a', 'l', 's', 'e'], Yaml.isPlainChar c = true :=
      all_eq_true.mp (by decide)
      exact flowNode_plain (cons_ne_nil _ _) htext hend
  | number n =>
    rw [writeScalar, String.toList_ofList]
    exact flowNode_plain n.plain.1 n.plain.2 hend
  | string s =>
    rw [writeScalar, writeQuotedString_toList, cons_append, append_assoc, flowNode, singleton_append,
      scanDouble_content]
    rfl
  | array items =>
    cases items with
    | nil => rfl
    | cons item items => cases h
  | object entries =>
    cases entries with
    | nil => rfl
    | cons entry entries => cases h

theorem space_of_closes {col : Nat} {rest tail : List Char} (h : Closes col rest) : rest ≠ ' ' :: tail := by
  rcases h with rfl | ⟨indent, c, tail, -, -, rfl⟩ <;> nofun

theorem block_writeScalar (h : v.isBlock = false) {col fuel : Nat} {rest : List Char}
    (hrest : Closes col rest) :
    block limit (fuel + 1) col ((writeScalar v).toList ++ rest) = some (v.toNode, rest) := by
  have hflow := flowNode_writeScalar h hrest
  cases v with
  | string s =>
    rw [writeScalar, writeQuotedString_toList, cons_append, append_assoc, singleton_append]
    exact block_quoted (scanDouble_content s rest) (isKey_of_closes hrest)
  | null => rw [block_flow, hflow] <;> simp [writeScalar]
  | bool b => cases b <;> rw [block_flow, hflow] <;> simp [writeScalar]
  | number n =>
    rw [writeScalar, String.toList_ofList] at hflow ⊢
    obtain ⟨hne, hplain⟩ := n.plain
    rw [block_flow, hflow]
    · intro tail htail
      -- A minus sign is followed by a digit or by the end of the number, which is no space.
      cases htext : n.text with
      | nil => exact hne htext
      | cons c text =>
        rw [htext, cons_append] at htail
        obtain ⟨-, htail⟩ := List.cons.inj htail
        cases text with
        | nil => exact space_of_closes hrest htail
        | cons d text =>
          have hd := hplain d (htext ▸ mem_cons_of_mem c mem_cons_self)
          rw [(List.cons.inj htail).1] at hd
          cases hd
    · intro tail htail
      cases htext : n.text with
      | nil => exact hne htext
      | cons c text =>
        rw [htext, cons_append] at htail
        have hc := hplain c (htext ▸ mem_cons_self)
        rw [(List.cons.inj htail).1] at hc
        cases hc
  | array | object => rw [block_flow, hflow] <;> rw [writeScalar] <;> simp

theorem implicitKey_writeEntry (key : String) (rest : List Char) :
    implicitKey limit ('"' :: (yamlContent key ++ '"' :: ':' :: rest)) =
      if keyLength key ≤ limit then some (key.toList, rest) else none := by
  rw [implicitKey_quoted (scanDouble_content key (':' :: rest)), yamlContent_length]

/-- A value is read back from its text, up to whatever follows, if its keys are short enough. -/
def ReadBack (limit fuel indent : Nat) (v : JsonValue) (rest : List Char) : Prop :=
  block limit fuel (2 * indent) ((writeBlock indent v).toList ++ rest) =
    if v.ShortKeys limit then some (v.toNode, rest) else none

theorem mapEntry_writeEntry {fuel indent : Nat} {key : String} {value : JsonValue} {rest : List Char}
    (hrest : Closes (2 * (indent + 1)) rest) (hvalue : ReadBack limit fuel (indent + 1) value rest) :
    mapEntry limit (block limit fuel) (2 * indent) ((writeEntry indent (.mk key value)).toList ++ rest) =
      if keyLength key ≤ limit ∧ value.ShortKeys limit = true then
        some ((key.toList, value.toNode), rest) else none := by
  have htext : (writeEntry indent (.mk key value)).toList ++ rest = '"' :: (yamlContent key ++ '"' :: ':' ::
      (entrySeparator indent value ++ ((writeBlock (indent + 1) value).toList ++ rest))) := by
    rw [writeEntry_toList]
    simp only [cons_append, append_assoc]
  have hkey := @implicitKey_writeEntry limit key
    (entrySeparator indent value ++ ((writeBlock (indent + 1) value).toList ++ rest))
  rw [← htext] at hkey
  by_cases hshort : keyLength key ≤ limit
  · rw [if_pos hshort] at hkey
    obtain ⟨c, cs, hhead, hc⟩ := writeBlock_head (indent + 1) value
    simp only [hshort, true_and]
    unfold ReadBack at hvalue
    cases hblock : value.isBlock with
    | true =>
      rw [entrySeparator, if_pos hblock, hhead, cons_append, cons_append] at hkey
      rw [hhead, cons_append] at hvalue
      rw [mapEntry_nested hkey hc (by omega), hvalue]
      split <;> rfl
    | false =>
      have hscalar := flowNode_writeScalar hblock hrest
      rw [← writeBlock_of_not_isBlock hblock (indent + 1), hhead, cons_append] at hscalar
      rw [entrySeparator, if_neg (by simp [hblock]), hhead, cons_append, cons_append, nil_append] at hkey
      rw [mapEntry_inline hkey hc, hscalar, if_pos (shortKeys_of_not_isBlock hblock)]
      rfl
  · rw [if_neg hshort] at hkey
    rw [mapEntry_of_no_key hkey, if_neg fun h => hshort h.1]

theorem block_scalar (h : v.isBlock = false) {indent fuel : Nat} {rest : List Char}
    (hrest : Closes (2 * indent) rest) :
    block limit (fuel + 1) (2 * indent) ((writeBlock indent v).toList ++ rest) =
      if v.ShortKeys limit then some (v.toNode, rest) else none := by
  rw [writeBlock_of_not_isBlock h, block_writeScalar h hrest, if_pos (shortKeys_of_not_isBlock h)]

section Collections

variable {fuel indent : Nat} {rest : List Char}

theorem block_item (item : JsonValue) :
    block limit (fuel + 1) (2 * indent) ('-' :: ' ' :: ((writeBlock (indent + 1) item).toList ++ rest)) =
      (block limit fuel (2 * (indent + 1)) ((writeBlock (indent + 1) item).toList ++ rest)).bind fun (item, rest) =>
        (moreItems limit fuel (2 * indent) rest).map fun (items, rest) => (.seq (item :: items), rest) := by
  obtain ⟨c, cs, hhead, hc⟩ := writeBlock_head (indent + 1) item
  rw [hhead, cons_append]
  exact block_seq hc

theorem moreItems_item (item : JsonValue) :
    moreItems limit (fuel + 1) (2 * indent) ('\n' :: (List.replicate (2 * indent) ' ' ++
        '-' :: ' ' :: ((writeBlock (indent + 1) item).toList ++ rest))) =
      (block limit fuel (2 * (indent + 1)) ((writeBlock (indent + 1) item).toList ++ rest)).bind fun (item, rest) =>
        (moreItems limit fuel (2 * indent) rest).map fun (items, rest) => (item :: items, rest) := by
  obtain ⟨c, cs, hhead, hc⟩ := writeBlock_head (indent + 1) item
  rw [hhead, cons_append]
  exact moreItems_cons hc

theorem block_entry (key : String) (value : JsonValue) :
    block limit (fuel + 1) (2 * indent) ((writeEntry indent (.mk key value)).toList ++ rest) =
      (mapEntry limit (block limit fuel) (2 * indent)
        ((writeEntry indent (.mk key value)).toList ++ rest)).bind fun (entry, rest) =>
          (moreEntries limit fuel (2 * indent) rest).map fun (entries, rest) => (.map (entry :: entries), rest) := by
  rw [writeEntry_toList]
  simp only [cons_append, append_assoc]
  exact block_map (scanDouble_content key _) rfl

theorem moreEntries_entry (key : String) (value : JsonValue) :
    moreEntries limit (fuel + 1) (2 * indent) ('\n' :: (List.replicate (2 * indent) ' ' ++
        ((writeEntry indent (.mk key value)).toList ++ rest))) =
      (mapEntry limit (block limit fuel) (2 * indent)
        ((writeEntry indent (.mk key value)).toList ++ rest)).bind fun (entry, rest) =>
          (moreEntries limit fuel (2 * indent) rest).map fun (entries, rest) => (entry :: entries, rest) := by
  rw [writeEntry_toList]
  exact moreEntries_cons

/-- The value of an entry leaves fuel for its key. -/
theorem writeEntry_length (key : String) (value : JsonValue) :
    (writeBlock (indent + 1) value).toList.length < (writeEntry indent (.mk key value)).toList.length := by
  rw [writeEntry_toList]
  simp only [length_cons, length_append]
  omega

theorem keyLength_le (key : String) (value : JsonValue) :
    keyLength key ≤ (writeEntry indent (.mk key value)).toList.length := by
  rw [writeEntry_toList, ← yamlContent_length]
  simp only [length_cons, length_append]
  omega

/-- A sequence is read back if its first item and the others are. -/
theorem items_readBack {α : Type} (wrap : List Node → α) {item : JsonValue} {items : List JsonValue}
    (hitem : ReadBack limit fuel (indent + 1) item ((writeItems indent items).toList ++ rest))
    (hitems : moreItems limit fuel (2 * indent) ((writeItems indent items).toList ++ rest) =
      if JsonValue.ShortKeysItems limit items then some (JsonValue.toNodes items, rest) else none) :
    ((block limit fuel (2 * (indent + 1)) ((writeBlock (indent + 1) item).toList ++
        ((writeItems indent items).toList ++ rest))).bind fun (item, rest) =>
        (moreItems limit fuel (2 * indent) rest).map fun (items, rest) => (wrap (item :: items), rest)) =
      if JsonValue.ShortKeysItems limit (item :: items) then
        some (wrap (JsonValue.toNodes (item :: items)), rest) else none := by
  rw [hitem, JsonValue.ShortKeysItems]
  by_cases hshort : item.ShortKeys limit = true
  · rw [if_pos hshort, bind_some]
    simp only [hitems, hshort, Bool.true_and]
    split <;> rfl
  · rw [if_neg hshort, if_neg (by simp [hshort])]
    rfl

theorem entries_readBack {α : Type} (wrap : List (List Char × Node) → α) {key : String} {value : JsonValue}
    {entries : List JsonEntry} (hclosed : Closes (2 * (indent + 1)) ((writeEntries indent entries).toList ++ rest))
    (hvalue : ReadBack limit fuel (indent + 1) value ((writeEntries indent entries).toList ++ rest))
    (hentries : moreEntries limit fuel (2 * indent) ((writeEntries indent entries).toList ++ rest) =
      if JsonValue.ShortKeysEntries limit entries then some (JsonValue.toEntries entries, rest) else none) :
    ((mapEntry limit (block limit fuel) (2 * indent) ((writeEntry indent (.mk key value)).toList ++
        ((writeEntries indent entries).toList ++ rest))).bind fun (entry, rest) =>
        (moreEntries limit fuel (2 * indent) rest).map fun (entries, rest) => (wrap (entry :: entries), rest)) =
      if JsonValue.ShortKeysEntries limit (.mk key value :: entries) then
        some (wrap (JsonValue.toEntries (.mk key value :: entries)), rest) else none := by
  rw [mapEntry_writeEntry hclosed hvalue, JsonValue.ShortKeysEntries]
  by_cases hshort : keyLength key ≤ limit ∧ value.ShortKeys limit = true
  · rw [if_pos hshort, bind_some]
    simp only [hentries, hshort, decide_true, Bool.true_and]
    split <;> rfl
  · grind

end Collections

mutual

theorem block_writeBlock (indent : Nat) (v : JsonValue) (rest : List Char) (fuel : Nat)
    (hrest : Closes (2 * indent) rest) (hfuel : ((writeBlock indent v).toList ++ rest).length < fuel) :
    ReadBack limit fuel indent v rest := by
  unfold ReadBack
  obtain ⟨fuel, rfl⟩ := Nat.exists_eq_succ_of_ne_zero (Nat.ne_of_gt (Nat.zero_lt_of_lt hfuel))
  cases v with
  | array items =>
    cases items with
    | nil => exact block_scalar rfl hrest
    | cons item items =>
      have hclosed := @writeItems_closes indent (2 * (indent + 1)) (by omega) items rest (hrest.mono (by omega))
      rw [writeBlock_array_toList, cons_append, cons_append, append_assoc] at hfuel ⊢
      simp only [length_cons, length_append] at hfuel
      rw [block_item]
      exact items_readBack Node.seq
        (block_writeBlock (indent + 1) item _ fuel hclosed (by simp only [length_append]; omega))
        (moreItems_writeItems indent items rest fuel hrest (by simp only [length_append]; omega))
  | object entries =>
    cases entries with
    | nil => exact block_scalar rfl hrest
    | cons entry entries =>
      obtain ⟨key, value⟩ := entry
      have hclosed := @writeEntries_closes indent (2 * (indent + 1)) (by omega) entries rest (hrest.mono (by omega))
      have hlength := @writeEntry_length indent key value
      rw [writeBlock_object_toList, append_assoc] at hfuel ⊢
      simp only [length_append] at hfuel
      rw [block_entry]
      exact entries_readBack Node.map hclosed
        (block_writeBlock (indent + 1) value _ fuel hclosed (by simp only [length_append]; omega))
        (moreEntries_writeEntries indent entries rest fuel hrest (by simp only [length_append]; omega))
  | null | bool | number | string => exact block_scalar rfl hrest

theorem moreItems_writeItems (indent : Nat) (items : List JsonValue) (rest : List Char) (fuel : Nat)
    (hrest : Closes (2 * indent) rest) (hfuel : ((writeItems indent items).toList ++ rest).length < fuel) :
    moreItems limit fuel (2 * indent) ((writeItems indent items).toList ++ rest) =
      if JsonValue.ShortKeysItems limit items then some (JsonValue.toNodes items, rest) else none := by
  obtain ⟨fuel, rfl⟩ := Nat.exists_eq_succ_of_ne_zero (Nat.ne_of_gt (Nat.zero_lt_of_lt hfuel))
  cases items with
  | nil => exact moreItems_of_closes hrest
  | cons item items =>
    have hclosed := @writeItems_closes indent (2 * (indent + 1)) (by omega) items rest (hrest.mono (by omega))
    rw [writeItems_cons_toList] at hfuel ⊢
    simp only [cons_append, append_assoc] at hfuel ⊢
    simp only [length_cons, length_append] at hfuel
    rw [moreItems_item]
    exact items_readBack id
      (block_writeBlock (indent + 1) item _ fuel hclosed (by simp only [length_append]; omega))
      (moreItems_writeItems indent items rest fuel hrest (by simp only [length_append]; omega))

theorem moreEntries_writeEntries (indent : Nat) (entries : List JsonEntry) (rest : List Char) (fuel : Nat)
    (hrest : Closes (2 * indent) rest) (hfuel : ((writeEntries indent entries).toList ++ rest).length < fuel) :
    moreEntries limit fuel (2 * indent) ((writeEntries indent entries).toList ++ rest) =
      if JsonValue.ShortKeysEntries limit entries then some (JsonValue.toEntries entries, rest) else none := by
  obtain ⟨fuel, rfl⟩ := Nat.exists_eq_succ_of_ne_zero (Nat.ne_of_gt (Nat.zero_lt_of_lt hfuel))
  cases entries with
  | nil => exact moreEntries_of_closes hrest
  | cons entry entries =>
    obtain ⟨key, value⟩ := entry
    have hclosed := @writeEntries_closes indent (2 * (indent + 1)) (by omega) entries rest (hrest.mono (by omega))
    have hlength := @writeEntry_length indent key value
    rw [writeEntries_cons_toList] at hfuel ⊢
    simp only [cons_append, append_assoc] at hfuel ⊢
    simp only [length_cons, length_append] at hfuel
    rw [moreEntries_entry]
    exact entries_readBack id hclosed
      (block_writeBlock (indent + 1) value _ fuel hclosed (by simp only [length_append]; omega))
      (moreEntries_writeEntries indent entries rest fuel hrest (by simp only [length_append]; omega))

end

/-- The document of a value is read as the value, unless one of its keys is too long: then it is not read. -/
theorem parse_toYamlString (limit : Nat) (v : JsonValue) :
    parseYaml limit (toYamlString v) = if v.ShortKeys limit then some v else none := by
  have hread := @block_writeBlock limit 0 v [] ((toYamlString v).toList.length + 1) (.inl rfl)
    (by rw [append_nil]; exact Nat.lt_succ_self _)
  unfold ReadBack at hread
  rw [append_nil] at hread
  unfold parseYaml Yaml.parse
  rw [show (toYamlString v).toList = (writeBlock 0 v).toList from rfl] at hread ⊢
  rw [hread]
  split
  · rename_i node heq
    split at heq
    · rename_i hshort
      cases heq
      rw [bind_some, resolveNode_toNode, if_pos hshort]
    · cases heq
  · grind

end Read

/-! ## Values with the same text -/

section Injective

variable {limit : Nat}

mutual

/-- A key is no longer than the text it stands in. -/
theorem shortKeys_of_length (indent : Nat) (v : JsonValue) (h : (writeBlock indent v).toList.length ≤ limit) :
    v.ShortKeys limit = true := by
  cases v with
  | array items =>
    cases items with
    | nil => rfl
    | cons item items =>
      rw [writeBlock_array_toList] at h
      simp only [length_cons, length_append] at h
      have hitem := shortKeys_of_length (indent + 1) item (by omega)
      have hitems := shortKeysItems_of_length indent items (by omega)
      rw [JsonValue.ShortKeys, JsonValue.ShortKeysItems, hitem, hitems]
      rfl
  | object entries =>
    cases entries with
    | nil => rfl
    | cons entry entries =>
      obtain ⟨key, value⟩ := entry
      rw [writeBlock_object_toList, length_append] at h
      have hkey := @keyLength_le indent key value
      have hlength := @writeEntry_length indent key value
      have hvalue := shortKeys_of_length (indent + 1) value (by omega)
      have hentries := shortKeysEntries_of_length indent entries (by omega)
      rw [JsonValue.ShortKeys, JsonValue.ShortKeysEntries, hvalue, hentries, decide_eq_true (by omega)]
      rfl
  | null | bool | number | string => rfl

theorem shortKeysItems_of_length (indent : Nat) (items : List JsonValue)
    (h : (writeItems indent items).toList.length ≤ limit) : JsonValue.ShortKeysItems limit items = true := by
  cases items with
  | nil => rfl
  | cons item items =>
    rw [writeItems_cons_toList] at h
    simp only [length_cons, length_append] at h
    have hitem := shortKeys_of_length (indent + 1) item (by omega)
    have hitems := shortKeysItems_of_length indent items (by omega)
    rw [JsonValue.ShortKeysItems, hitem, hitems]
    rfl

theorem shortKeysEntries_of_length (indent : Nat) (entries : List JsonEntry)
    (h : (writeEntries indent entries).toList.length ≤ limit) : JsonValue.ShortKeysEntries limit entries = true := by
  cases entries with
  | nil => rfl
  | cons entry entries =>
    obtain ⟨key, value⟩ := entry
    rw [writeEntries_cons_toList] at h
    simp only [length_cons, length_append] at h
    have hkey := @keyLength_le indent key value
    have hlength := @writeEntry_length indent key value
    have hvalue := shortKeys_of_length (indent + 1) value (by omega)
    have hentries := shortKeysEntries_of_length indent entries (by omega)
    rw [JsonValue.ShortKeysEntries, hvalue, hentries, decide_eq_true (by omega)]
    rfl

end

/-- No two values have the same text: with a greatest length beyond the text's, it is read as both. -/
theorem toYamlString_injective {v w : JsonValue} (h : toYamlString v = toYamlString w) : v = w := by
  have hshort : v.ShortKeys (toYamlString v).toList.length = true := shortKeys_of_length 0 v (le_refl _)
  have hshort' : w.ShortKeys (toYamlString v).toList.length = true := by
    rw [h]
    exact shortKeys_of_length 0 w (le_refl _)
  have hv := parse_toYamlString (toYamlString v).toList.length v
  have hw := parse_toYamlString (toYamlString v).toList.length w
  rw [if_pos hshort] at hv
  rw [if_pos hshort', ← h, hv] at hw
  exact some.inj hw

end Injective

/-! ## The limit of the standard -/

section Limit

/-- A value is read back from its document, and is the only one that has it, if and only if none of its keys takes more
than 1024 characters. -/
theorem yaml_decodable_iff (v : JsonValue) :
    (parseYaml maxImplicitKey (toYamlString v) = some v ∧ ∀ w, toYamlString w = toYamlString v → w = v) ↔
      v.ShortKeys maxImplicitKey = true := by
  rw [parse_toYamlString]
  constructor
  · rintro ⟨hread, -⟩
    by_contra hlong
    rw [if_neg hlong] at hread
    cases hread
  · exact fun hshort => ⟨if_pos hshort, fun w hw => toYamlString_injective hw⟩

/-- A record whose only key has 1023 letters. -/
def longKey : JsonValue := .object [.mk (String.ofList (List.replicate 1023 'a')) .null]

theorem longKey_not_shortKeys : ¬longKey.ShortKeys maxImplicitKey = true := by
  have hescaped : keyCharLength 'a' = 1 := by decide
  have hkey : keyLength (String.ofList (List.replicate 1023 'a')) = 1025 := by
    rw [keyLength, String.toList_ofList, map_replicate, hescaped, sum_replicate_nat]
  rw [longKey, JsonValue.ShortKeys, JsonValue.ShortKeysEntries, hkey]
  decide

/-- The document of a record with a longer key is not read. -/
theorem yaml_not_decodable :
    parseYaml maxImplicitKey (toYamlString longKey) = none ∧
      ¬∀ v : JsonValue, parseYaml maxImplicitKey (toYamlString v) = some v ∧
        ∀ w, toYamlString w = toYamlString v → w = v := by
  have hnone : parseYaml maxImplicitKey (toYamlString longKey) = none := by
    rw [parse_toYamlString, if_neg longKey_not_shortKeys]
  refine ⟨hnone, fun hall => ?_⟩
  have hsome := (hall longKey).1
  rw [hnone] at hsome
  cases hsome

end Limit

end Mizu
