import Mizu.Types.Store

/-!
# Text interpolation

`interpolateIntoWithOverlay` writes a template to a buffer that refuses what would take it past its cap.
`scan` is the split of a template that the loop makes, `grammar` the one that is documented: a brace that
another one follows before the closing one is a character.

* `interpolate_writes`: a call writes all of its text or fails.
* `interpolate_grammar_iff`: the text is that of the grammar exactly if no brace opens inside a placeholder, and an
  escaped text is written as it was.
* `unmatched_brace_swallows`: a brace takes the placeholder behind it along.
-/

namespace Mizu

open List

/-- `resolve_dot_path`. -/
def resolveDotPath (root : Value) : List String → Option Value
  | [] => some root
  | segment :: segments =>
    (root.getField (hashField segment) segment).bind fun v => resolveDotPath v segments

/-- `get_value_by_name`: a local of the global frame, or a global that is not null. -/
def Evaluator.getValueByName (s : Evaluator) (name : String) (interner : Interner) : Option Value :=
  (interner.get name).bind fun sym =>
    match s.getLocal sym 0 with
    | some v => some v
    | none => (s.globalStore.lookup sym).filter (!·.isNull)

/-- `str::split_once` with a character. -/
def splitOnce (c : Char) : List Char → Option (List Char × List Char)
  | [] => none
  | d :: cs => if d = c then some ([], cs) else (splitOnce c cs).map fun (before, after) => (d :: before, after)

/-- `str::split_once` with a text that is not empty. -/
def splitOnText (pat : List Char) : List Char → Option (List Char × List Char)
  | [] => none
  | c :: cs =>
    if pat.isPrefixOf (c :: cs) then some ([], (c :: cs).drop pat.length)
    else (splitOnText pat cs).map fun (before, after) => (c :: before, after)

/-- `str::splitn` with a character: at most `n + 1` parts. -/
def splitn (c : Char) : Nat → List Char → List (List Char)
  | 0, s => [s]
  | n + 1, s =>
    match splitOnce c s with
    | none => [s]
    | some (before, after) => before :: splitn c n after

variable {c : Char}

theorem splitOnce_append {s before after : List Char} (h : splitOnce c s = some (before, after)) :
    s = before ++ c :: after ∧ c ∉ before := by
  induction s generalizing before with
  | nil => cases h
  | cons d cs ih =>
    rw [splitOnce] at h
    split at h
    · rename_i hd
      cases h
      simp [hd]
    · rename_i hd
      obtain ⟨⟨before', after'⟩, hcs, heq⟩ := Option.map_eq_some_iff.mp h
      cases heq
      obtain ⟨hs, hnot⟩ := ih hcs
      exact ⟨by rw [hs]; rfl, by simp [Ne.symm hd, hnot]⟩

theorem splitOnce_none {s : List Char} : splitOnce c s = none ↔ c ∉ s := by
  induction s with
  | nil => simp [splitOnce]
  | cons d cs ih =>
    rw [splitOnce]
    by_cases hd : d = c
    · simp [hd]
    · rw [if_neg hd, Option.map_eq_none_iff, ih]
      simp [Ne.symm hd]

/-! ## A buffer with a cap -/

def maxInterpolatedBytes : Nat := 64 * 1024

def interpolationOverflow : MizuError :=
  .securityViolation ("interpolated text exceeds the " ++ toString maxInterpolatedBytes ++ "-byte render budget")

/-- A program that writes to a `CappedBuffer`. -/
abbrev BufferM := EStateM MizuError String Unit

/-- `push_str`, `push` and `write_str`: the refusal comes before the bytes are copied. -/
def pushStr (s : String) : BufferM := do
  if maxInterpolatedBytes - (← get).utf8ByteSize < s.utf8ByteSize then throw interpolationOverflow
  else modify (· ++ s)

/-- `write!`, which writes piece by piece. -/
def writePieces : List String → BufferM
  | [] => pure ()
  | piece :: pieces => do
    pushStr piece
    writePieces pieces

namespace Value

mutual

/-- What `Display` writes, piece by piece. -/
def displayPieces : Value → List String
  | null => ["null"]
  | bool b => [if b then "true" else "false"]
  | int i => [toString i.toInt]
  | decimal i => [formatDecimal i false]
  | string s => [s]
  | list items => "[" :: displayPiecesList items ++ ["]"]
  | record fields => "\x7b" :: displayPiecesFields fields ++ ["\x7d"]
  | fileHandle _ data => ["<file: ", String.ofList (data.filename.toList.filter (!isControl ·)), ">"]

def displayPiecesList : List Value → List String
  | [] => []
  | [v] => v.displayPieces
  | v :: w :: vs => v.displayPieces ++ ", " :: displayPiecesList (w :: vs)

def displayPiecesFields : List (RecordField Value) → List String
  | [] => []
  | [f] => f.key :: ": " :: f.value.displayPieces
  | f :: g :: fs => f.key :: ": " :: f.value.displayPieces ++ ", " :: displayPiecesFields (g :: fs)

end

end Value

section Interpolate

variable (s : Evaluator) (interner : Interner) (overlay : Option (FxHashMap String Value))

def maxRecordDepth : Nat := 64

/-- The name before the first dot. -/
def pathRoot (name : List Char) : String := String.ofList ((splitn '.' (maxRecordDepth - 1) name).headD [])

/-- The fields behind the first dot; the last one takes every further dot. -/
def pathParts (name : List Char) : List String := (splitn '.' (maxRecordDepth - 1) name).tail.map String.ofList

/-- What the loop writes for a placeholder. -/
def writePlaceholder (name : List Char) : BufferM :=
  let varName := String.ofList name
  let unresolved := ["\x7b", varName, "\x7d"]
  if '.' ∈ name then
    let root := pathRoot name
    let parts := pathParts name
    match (overlay.bind (·.lookup root)).bind (resolveDotPath · parts) with
    | some leaf => writePieces leaf.displayPieces
    | none =>
      match s.getValueByName root interner with
      | none => writePieces unresolved
      | some rootVal =>
        match resolveDotPath rootVal parts with
        | some leaf => writePieces leaf.displayPieces
        | none => writePieces unresolved
  else
    match overlay.bind (·.lookup varName) with
    | some val => writePieces val.displayPieces
    | none =>
      match s.getValueByName varName interner with
      | some val => writePieces val.displayPieces
      | none => writePieces unresolved

/-- Neither starts a placeholder nor an escape. -/
def isPlainChar (c : Char) : Bool := c ≠ '\x7b' && c ≠ '\\'

def isEscapable (c : Char) : Bool := c = '\\' || c = '\x7b' || c = '\x7d'

/-- `interpolate_into_with_overlay`. -/
def interpolateIntoWithOverlay (rest : List Char) : BufferM :=
  match _hrest : rest.dropWhile isPlainChar with
  | [] => pushStr (String.ofList rest)
  | c :: tail => do
    pushStr (String.ofList (rest.takeWhile isPlainChar))
    if c = '\\' then
      match tail.head?.filter isEscapable with
      | some next => do
        pushStr (String.singleton next)
        interpolateIntoWithOverlay tail.tail
      | none => do
        pushStr "\\"
        interpolateIntoWithOverlay tail
    else
      match _hsplit : splitOnce '\x7d' tail with
      | some (varName, after) => do
        writePlaceholder s interner overlay varName
        interpolateIntoWithOverlay after
      | none => do
        pushStr "\x7b"
        interpolateIntoWithOverlay tail
termination_by rest.length
decreasing_by
  all_goals
    have hlength := (List.dropWhile_sublist isPlainChar (l := rest)).length_le
    rw [_hrest, List.length_cons] at hlength
  · rw [List.length_tail]
    omega
  · omega
  · have := congrArg List.length (splitOnce_append _hsplit).1
    rw [List.length_append, List.length_cons] at this
    omega
  · omega

end Interpolate

namespace VariableStore

/-- A new buffer is filled. -/
def interpolateWith (store : VariableStore) (text : String) (overlay : Option (FxHashMap String Value)) :
    Except MizuError String :=
  match interpolateIntoWithOverlay store.evaluator store.interner overlay text.toList "" with
  | .ok _ buffer => .ok buffer
  | .error e _ => .error e

def interpolate (store : VariableStore) (text : String) : Except MizuError String :=
  store.interpolateWith text none

def interpolateWithOverlay (store : VariableStore) (text : String) (overlay : FxHashMap String Value) :
    Except MizuError String :=
  store.interpolateWith text (if overlay.keys = ∅ then none else some overlay)

end VariableStore

/-! ## What is written -/

/-- The concatenation of some texts. -/
def joinText : List String → String
  | [] => ""
  | t :: ts => t ++ joinText ts

@[simp] theorem joinText_nil : joinText [] = "" := rfl

@[simp] theorem joinText_cons (t : String) (ts : List String) : joinText (t :: ts) = t ++ joinText ts := rfl

@[simp] theorem joinText_append (ts us : List String) : joinText (ts ++ us) = joinText ts ++ joinText us := by
  induction ts with
  | nil => simp
  | cons t ts ih => simp [ih, String.append_assoc]

/-- The program writes all of the text, or fails where that would take the buffer past its cap. -/
def WritesAll (x : BufferM) (text : String) : Prop :=
  ∀ buffer, if text ≠ "" ∧ maxInterpolatedBytes < (buffer ++ text).utf8ByteSize
    then ∃ buffer', x buffer = .error interpolationOverflow buffer'
    else x buffer = .ok ⟨⟩ (buffer ++ text)

section WritesAll

variable {x y : BufferM} {s t : String}

theorem writes_pure : WritesAll (pure ⟨⟩) "" := by
  intro buffer
  rw [if_neg (by simp), String.append_empty]
  rfl

theorem utf8ByteSize_pos (h : s ≠ "") : 0 < s.utf8ByteSize := by
  rw [Nat.pos_iff_ne_zero]
  simpa using h

theorem pushStr_apply (s buffer : String) : pushStr s buffer =
    if maxInterpolatedBytes - buffer.utf8ByteSize < s.utf8ByteSize then .error interpolationOverflow buffer
    else .ok ⟨⟩ (buffer ++ s) := by
  show (ite _ _ _ : BufferM) buffer = _
  split <;> rfl

theorem writes_pushStr (s : String) : WritesAll (pushStr s) s := by
  intro buffer
  rw [pushStr_apply, String.utf8ByteSize_append]
  by_cases hs : s = ""
  · subst hs
    rw [if_neg (by simp), if_neg (by simp)]
  · have := utf8ByteSize_pos hs
    by_cases hcap : maxInterpolatedBytes < buffer.utf8ByteSize + s.utf8ByteSize
    · rw [if_pos ⟨hs, hcap⟩, if_pos (by omega)]
      exact ⟨buffer, rfl⟩
    · rw [if_neg fun h => hcap h.2, if_neg (by omega)]

theorem WritesAll.seq (hx : WritesAll x s) (hy : WritesAll y t) : WritesAll (do x; y) (s ++ t) := by
  intro buffer
  have hx := hx buffer
  have hy := hy (buffer ++ s)
  rw [← String.append_assoc]
  simp only [String.utf8ByteSize_append] at hx hy ⊢
  by_cases hfirst : s ≠ "" ∧ maxInterpolatedBytes < buffer.utf8ByteSize + s.utf8ByteSize
  · rw [if_pos hfirst] at hx
    obtain ⟨buffer', hx⟩ := hx
    rw [if_pos ⟨fun h => hfirst.1 (String.append_eq_empty_iff.mp h).1, by omega⟩]
    exact ⟨buffer', Exec.bind_error hx⟩
  · rw [if_neg hfirst] at hx
    rw [Exec.bind_ok hx]
    by_cases hsecond : t ≠ "" ∧ maxInterpolatedBytes < buffer.utf8ByteSize + s.utf8ByteSize + t.utf8ByteSize
    · rw [if_pos hsecond] at hy
      rw [if_pos ⟨fun h => hsecond.1 (String.append_eq_empty_iff.mp h).2, hsecond.2⟩]
      exact hy
    · rw [if_neg hsecond] at hy
      rw [if_neg]
      · exact hy
      · rintro ⟨hne, hcap⟩
        by_cases ht : t = ""
        · subst ht
          rw [String.append_empty] at hne
          simp only [String.utf8ByteSize_empty, Nat.add_zero] at hcap
          exact hfirst ⟨hne, hcap⟩
        · exact hsecond ⟨ht, hcap⟩

theorem writes_pieces (pieces : List String) : WritesAll (writePieces pieces) (joinText pieces) := by
  induction pieces with
  | nil => exact writes_pure
  | cons piece pieces ih => exact (writes_pushStr piece).seq ih

end WritesAll

namespace Value

mutual

theorem displayPieces_join : ∀ v : Value, joinText v.displayPieces = v.display
  | null | bool _ | int _ | decimal _ | string _ => by simp [displayPieces, display]
  | list items => by
    rw [displayPieces, joinText_append, joinText_cons, displayPiecesList_join items, display]
    simp
  | record fields => by
    rw [displayPieces, joinText_append, joinText_cons, displayPiecesFields_join fields, display]
    simp
  | fileHandle _ data => by simp [displayPieces, display, String.append_assoc]

theorem displayPiecesList_join :
    ∀ vs : List Value, joinText (displayPiecesList vs) = ", ".intercalate (displayList vs)
  | [] => by simp [displayPiecesList, displayList]
  | [v] => by simp [displayPiecesList, displayList, displayPieces_join v]
  | v :: w :: vs => by
    rw [displayPiecesList, joinText_append, joinText_cons, displayPieces_join v, displayPiecesList_join (w :: vs)]
    simp [displayList, String.intercalate_cons_cons, String.append_assoc]

theorem displayPiecesFields_join :
    ∀ fs : List (RecordField Value), joinText (displayPiecesFields fs) = ", ".intercalate (displayFields fs)
  | [] => by simp [displayPiecesFields, displayFields]
  | [f] => by simp [displayPiecesFields, displayFields, displayPieces_join f.value, String.append_assoc]
  | f :: g :: fs => by
    rw [displayPiecesFields, joinText_append, joinText_cons, joinText_cons, joinText_cons,
      displayPieces_join f.value, displayPiecesFields_join (g :: fs)]
    simp [displayFields, String.intercalate_cons_cons, String.append_assoc]

end

end Value

/-! ## The grammar -/

/-- A character of the text, or a placeholder. -/
inductive Segment where
  | char (c : Char)
  | placeholder (name : List Char)

/-- The segments of a template: an escape is one character, a brace opens a placeholder if one closes behind it
and what stands between is a name. -/
def segmentsOf (isName : List Char → Bool) : List Char → List Segment
  | [] => []
  | c :: cs =>
    if c = '\\' then
      match cs.head?.filter isEscapable with
      | some next => .char next :: segmentsOf isName cs.tail
      | none => .char '\\' :: segmentsOf isName cs
    else if c = '\x7b' then
      match _hsplit : splitOnce '\x7d' cs with
      | some (name, after) =>
        if isName name then .placeholder name :: segmentsOf isName after else .char c :: segmentsOf isName cs
      | none => .char c :: segmentsOf isName cs
    else .char c :: segmentsOf isName cs
termination_by cs => cs.length
decreasing_by
  all_goals simp only [List.length_cons, List.length_tail]
  all_goals try omega
  have := congrArg List.length (splitOnce_append _hsplit).1
  rw [List.length_append, List.length_cons] at this
  omega

/-- What the loop takes for placeholders. -/
def scan : List Char → List Segment := segmentsOf fun _ => true

/-- No brace opens in a documented placeholder. -/
def hasNoBrace (name : List Char) : Bool := '\x7b' ∉ name

/-- The documented placeholders. -/
def grammar : List Char → List Segment := segmentsOf hasNoBrace

/-- No brace opens between a brace that is not escaped and the next closing one. -/
def WellNested (template : List Char) : Prop := ∀ name, .placeholder name ∈ scan template → '\x7b' ∉ name

section Segments

variable {isName : List Char → Bool} {cs : List Char}

theorem segmentsOf_nil (isName : List Char → Bool) : segmentsOf isName [] = [] := by rw [segmentsOf]

theorem segmentsOf_escape {next : Char} (h : cs.head?.filter isEscapable = some next) :
    segmentsOf isName ('\\' :: cs) = .char next :: segmentsOf isName cs.tail := by
  rw [segmentsOf, if_pos rfl, h]

theorem segmentsOf_backslash (h : cs.head?.filter isEscapable = none) :
    segmentsOf isName ('\\' :: cs) = .char '\\' :: segmentsOf isName cs := by
  rw [segmentsOf, if_pos rfl, h]

theorem segmentsOf_placeholder {name after : List Char} (h : splitOnce '\x7d' cs = some (name, after))
    (hname : isName name = true) :
    segmentsOf isName ('\x7b' :: cs) = .placeholder name :: segmentsOf isName after := by
  rw [segmentsOf, if_neg (by decide), if_pos rfl]
  split
  · rename_i name' after' h'
    rw [h] at h'
    cases h'
    rw [if_pos hname]
  · rename_i h'
    rw [h] at h'
    cases h'

theorem segmentsOf_brace
    (h : ∀ name after, splitOnce '\x7d' cs = some (name, after) → isName name = false) :
    segmentsOf isName ('\x7b' :: cs) = .char '\x7b' :: segmentsOf isName cs := by
  rw [segmentsOf, if_neg (by decide), if_pos rfl]
  split
  · rename_i name after hsplit
    rw [if_neg (by rw [h name after hsplit]; decide)]
  · rfl

theorem segmentsOf_char (hescape : c ≠ '\\') (hbrace : c ≠ '\x7b') :
    segmentsOf isName (c :: cs) = .char c :: segmentsOf isName cs := by
  rw [segmentsOf, if_neg hescape, if_neg hbrace]

end Segments

section Text

variable (s : Evaluator) (interner : Interner) (overlay : Option (FxHashMap String Value))

/-- The value of a name or a dotted path: first in the overlay, then in the store. -/
def findValue (name : List Char) : Option Value :=
  ((overlay.bind (·.lookup (pathRoot name))).bind (resolveDotPath · (pathParts name))).or
    ((s.getValueByName (pathRoot name) interner).bind (resolveDotPath · (pathParts name)))

def Segment.text : Segment → String
  | .char c => String.singleton c
  | .placeholder name =>
    match findValue s interner overlay name with
    | some v => v.display
    | none => "\x7b" ++ String.ofList name ++ "\x7d"

def segmentsText (segments : List Segment) : String := joinText (segments.map (Segment.text s interner overlay))

/-- The text that a call composes. -/
def interpolated (template : List Char) : String := segmentsText s interner overlay (scan template)

end Text

/-! ## The loop follows its split -/

section Loop

variable {s : Evaluator} {interner : Interner} {overlay : Option (FxHashMap String Value)} {name : List Char}

theorem splitn_of_not_mem (h : c ∉ name) (n : Nat) : splitn c n name = [name] := by
  cases n with
  | zero => rfl
  | succ n => rw [splitn, splitOnce_none.mpr h]

theorem pathRoot_plain (h : '.' ∉ name) : pathRoot name = String.ofList name := by
  rw [pathRoot, splitn_of_not_mem h]
  rfl

theorem pathParts_plain (h : '.' ∉ name) : pathParts name = [] := by
  rw [pathParts, splitn_of_not_mem h]
  rfl

theorem writes_display (v : Value) : WritesAll (writePieces v.displayPieces) v.display := by
  rw [← v.displayPieces_join]
  exact writes_pieces _

theorem writes_unresolved (name : List Char) :
    WritesAll (writePieces ["\x7b", String.ofList name, "\x7d"]) ("\x7b" ++ String.ofList name ++ "\x7d") := by
  have h := writes_pieces ["\x7b", String.ofList name, "\x7d"]
  rwa [joinText_cons, joinText_cons, joinText_cons, joinText_nil, String.append_empty, ← String.append_assoc] at h

theorem writes_placeholder (name : List Char) :
    WritesAll (writePlaceholder s interner overlay name) ((Segment.placeholder name).text s interner overlay) := by
  unfold writePlaceholder Segment.text findValue
  by_cases hdot : '.' ∈ name
  · rw [if_pos hdot]
    dsimp only
    cases (overlay.bind (·.lookup (pathRoot name))).bind (resolveDotPath · (pathParts name)) with
    | some leaf => exact writes_display leaf
    | none =>
      cases s.getValueByName (pathRoot name) interner with
      | none => exact writes_unresolved name
      | some rootVal => grind [writes_unresolved, writes_display]
  · rw [if_neg hdot]
    dsimp only
    rw [pathRoot_plain hdot, pathParts_plain hdot]
    cases overlay.bind (·.lookup (String.ofList name)) with
    | some v => exact writes_display v
    | none =>
      cases s.getValueByName (String.ofList name) interner with
      | some v => exact writes_display v
      | none => exact writes_unresolved name

theorem segmentsText_cons (seg : Segment) (segs : List Segment) : segmentsText s interner overlay (seg :: segs) =
    seg.text s interner overlay ++ segmentsText s interner overlay segs := rfl

theorem segmentsText_append (segs segs' : List Segment) : segmentsText s interner overlay (segs ++ segs') =
    segmentsText s interner overlay segs ++ segmentsText s interner overlay segs' := by
  rw [segmentsText, map_append, joinText_append]
  rfl

theorem segmentsText_chars (cs : List Char) :
    segmentsText s interner overlay (cs.map .char) = String.ofList cs := by
  induction cs with
  | nil => rfl
  | cons c cs ih =>
    grind [map_cons, segmentsText_cons, Segment.text, String.toList_inj, String.toList_append, String.toList_singleton, String.toList_ofList, singleton_append]

/-- A run of plain characters is taken as it is. -/
theorem segmentsOf_plain (isName : List Char → Bool) (cs : List Char) :
    segmentsOf isName cs =
      (cs.takeWhile isPlainChar).map .char ++ segmentsOf isName (cs.dropWhile isPlainChar) := by
  induction cs with
  | nil => rfl
  | cons c cs ih =>
    by_cases hc : isPlainChar c = true
    · have hne : c ≠ '\x7b' ∧ c ≠ '\\' := by simpa [isPlainChar] using hc
      rw [takeWhile_cons_of_pos hc, dropWhile_cons_of_pos hc, map_cons, cons_append, ← ih,
        segmentsOf, if_neg hne.2, if_neg hne.1]
    · rw [takeWhile_cons_of_neg hc, dropWhile_cons_of_neg hc, map_nil, nil_append]

/-- The segments that start at a character that is not plain are written after it. -/
theorem segmentsText_rest {rest : List Char} (isName : List Char → Bool) :
    segmentsText s interner overlay (segmentsOf isName rest) = String.ofList (rest.takeWhile isPlainChar) ++
      segmentsText s interner overlay (segmentsOf isName (rest.dropWhile isPlainChar)) := by
  rw [segmentsOf_plain, segmentsText_append, segmentsText_chars]

/-- A call writes the text of its split. -/
theorem interpolate_writes (template : List Char) :
    WritesAll (interpolateIntoWithOverlay s interner overlay template)
      (interpolated s interner overlay template) := by
  unfold interpolated scan
  induction template using interpolateIntoWithOverlay.induct with
  | case1 rest h =>
    have hplain : rest.takeWhile isPlainChar = rest := by grind [append_nil, takeWhile_append_dropWhile]
    rw [interpolateIntoWithOverlay, segmentsText_rest, h, hplain]
    simp only [segmentsOf, segmentsText, map_nil, joinText_nil, String.append_empty]
    exact writes_pushStr _
  | case2 rest c tail h ihEscaped ihTail ihAfter =>
    rw [interpolateIntoWithOverlay, segmentsText_rest, h]
    dsimp only
    refine (writes_pushStr _).seq ?_
    rw [segmentsOf]
    by_cases hescape : c = '\\'
    · rw [if_pos hescape, if_pos hescape]
      cases tail.head?.filter isEscapable with
      | some next => exact (writes_pushStr _).seq ihEscaped
      | none => exact (writes_pushStr _).seq ihTail
    · -- What is not plain is one of the two.
      have hbrace : c = '\x7b' := by grind [isPlainChar, List.head?_dropWhile_not]
      rw [if_neg hescape, if_neg hescape, if_pos hbrace]
      split
      · rename_i varName after hsplit
        exact (writes_placeholder varName).seq (ihAfter varName after hsplit)
      · rw [hbrace]
        exact (writes_pushStr _).seq ihTail

end Loop

/-! ## Where the loop follows the grammar -/

/-- The loop and the grammar agree, or part at the first brace that opens inside a placeholder. -/
def Compared (cs : List Char) : Prop :=
  (WellNested cs ∧ scan cs = grammar cs) ∨
    ∃ pre name post post', '\x7b' ∈ name ∧ scan cs = pre ++ .placeholder name :: post ∧
      grammar cs = pre ++ .char '\x7b' :: post'

theorem Compared.cons {cs rest : List Char} {seg : Segment} (h : Compared rest)
    (hseg : ∀ name, seg = .placeholder name → '\x7b' ∉ name) (hscan : scan cs = seg :: scan rest)
    (hgrammar : grammar cs = seg :: grammar rest) : Compared cs := by
  rcases h with ⟨hnested, heq⟩ | ⟨pre, name, post, post', hname, hs, hg⟩
  · refine .inl ⟨fun name hmem => ?_, by rw [hscan, hgrammar, heq]⟩
    rw [hscan, mem_cons] at hmem
    rcases hmem with hmem | hmem
    · exact hseg name hmem.symm
    · exact hnested name hmem
  · exact .inr ⟨seg :: pre, name, post, post', hname, by rw [hscan, hs]; rfl, by rw [hgrammar, hg]; rfl⟩

theorem Compared.char {cs rest : List Char} (h : Compared rest) (hscan : scan cs = .char c :: scan rest)
    (hgrammar : grammar cs = .char c :: grammar rest) : Compared cs := by
  refine h.cons (fun name hseg => ?_) hscan hgrammar
  cases hseg

theorem compared (cs : List Char) : Compared cs := by
  induction cs using segmentsOf.induct hasNoBrace with
  | case1 =>
    refine .inl ⟨fun name hmem => ?_, ?_⟩
    · rw [scan, segmentsOf_nil] at hmem
      cases hmem
    · rw [scan, grammar, segmentsOf_nil, segmentsOf_nil]
  | case2 cs next hnext ih => exact ih.char (segmentsOf_escape hnext) (segmentsOf_escape hnext)
  | case3 cs hnext ih => exact ih.char (segmentsOf_backslash hnext) (segmentsOf_backslash hnext)
  | case4 cs varName after hsplit hname _ ih =>
    refine ih.cons (fun name hseg => ?_) (segmentsOf_placeholder hsplit rfl) (segmentsOf_placeholder hsplit hname)
    cases hseg
    exact of_decide_eq_true hname
  | case5 cs varName after hsplit hname _ ih =>
    have hbrace : '\x7b' ∈ varName := by simpa [hasNoBrace] using hname
    have hgrammar : grammar ('\x7b' :: cs) = .char '\x7b' :: grammar cs := by
      refine segmentsOf_brace fun name after' hsplit' => ?_
      rw [hsplit] at hsplit'
      cases hsplit'
      exact Bool.eq_false_iff.mpr hname
    exact .inr ⟨[], varName, scan after, grammar cs, hbrace, segmentsOf_placeholder hsplit rfl, hgrammar⟩
  | case6 cs hsplit _ ih =>
    have hnone : ∀ name after, splitOnce '\x7d' cs ≠ some (name, after) := by simp [hsplit]
    exact ih.char (segmentsOf_brace fun name after h => absurd h (hnone name after))
      (segmentsOf_brace fun name after h => absurd h (hnone name after))
  | case7 c cs hescape hbrace ih =>
    exact ih.char (segmentsOf_char hescape hbrace) (segmentsOf_char hescape hbrace)

/-- Every path leads to any value from some record. -/
theorem exists_resolveDotPath (leaf : Value) (parts : List String) : ∃ v, resolveDotPath v parts = some leaf := by
  induction parts with
  | nil => exact ⟨leaf, rfl⟩
  | cons part parts ih =>
    obtain ⟨v, hv⟩ := ih
    refine ⟨.record [⟨part, hashField part, v⟩], ?_⟩
    rw [resolveDotPath, Value.getField, List.find?_cons_of_pos (by simp)]
    exact hv

/-- An escape in front of every brace and backslash. -/
def escapeText (text : List Char) : List Char := text.flatMap fun c => if isEscapable c then ['\\', c] else [c]

theorem scan_escapeText (text : List Char) : scan (escapeText text) = text.map .char := by
  induction text with
  | nil => exact segmentsOf_nil _
  | cons c cs ih =>
    rw [escapeText, flatMap_cons, map_cons, ← ih]
    by_cases hc : isEscapable c = true
    · rw [if_pos hc]
      exact segmentsOf_escape (by simp [hc])
    · have hne : c ≠ '\\' ∧ c ≠ '\x7b' := by
        constructor <;> rintro rfl <;> exact hc rfl
      rw [if_neg hc]
      exact segmentsOf_char hne.1 hne.2

section Theorem

variable (s : Evaluator) (interner : Interner) (overlay : Option (FxHashMap String Value))

/-- The text of the documented grammar. -/
def grammarText (template : List Char) : String := segmentsText s interner overlay (grammar template)

/-- What a call does: it writes all of the text that it composes or is refused, an escaped text is written as it
was, and the text that it composes is that of the grammar, for every store and overlay, exactly if the template is
well nested. -/
theorem interpolate_grammar_iff (template : List Char) :
    (∀ s interner overlay, WritesAll (interpolateIntoWithOverlay s interner overlay template)
      (interpolated s interner overlay template)) ∧
    (∀ s interner overlay, WritesAll (interpolateIntoWithOverlay s interner overlay (escapeText template))
      (String.ofList template)) ∧
    ((∀ s interner overlay, interpolated s interner overlay template = grammarText s interner overlay template) ↔
      WellNested template) := by
  refine ⟨fun s interner overlay => interpolate_writes template, fun s interner overlay => ?_, fun h => ?_, ?_⟩
  · have hwrites := @interpolate_writes s interner overlay (escapeText template)
    rwa [interpolated, scan_escapeText, segmentsText_chars] at hwrites
  · rcases compared template with ⟨hnested, -⟩ | ⟨pre, name, post, post', -, hscan, hgrammar⟩
    · exact hnested
    -- An overlay under which the placeholder reads as something that starts with another character.
    obtain ⟨v, hv⟩ := exists_resolveDotPath (.string "!") (pathParts name)
    have htext := h (.new 0) .new (some (Finmap.singleton (pathRoot name) v))
    have hfound : (Segment.placeholder name).text (.new 0) .new (some (Finmap.singleton (pathRoot name) v)) =
        "!" := by
      simp [Segment.text, findValue, hv, Value.display]
    rw [interpolated, grammarText, hscan, hgrammar, segmentsText_append, segmentsText_append, segmentsText_cons,
      segmentsText_cons, hfound, String.append_right_inj] at htext
    have hhead := congrArg (fun t => t.toList.head?) htext
    simp [Segment.text, String.toList_append] at hhead
  · intro hnested s interner overlay
    rcases compared template with ⟨-, heq⟩ | ⟨pre, name, post, post', hname, hscan, -⟩
    · rw [interpolated, grammarText, heq]
    · exact absurd hname (hnested name (by simp [hscan]))

/-- A brace in front of a placeholder takes its place. -/
theorem unmatched_brace_swallows :
    let overlay := some (Finmap.singleton "n" (Value.string "A"))
    interpolateIntoWithOverlay (.new 0) .new overlay "\x7b \x7bn\x7d".toList "" = .ok ⟨⟩ "\x7b \x7bn\x7d" ∧
      grammarText (.new 0) .new overlay "\x7b \x7bn\x7d".toList = "\x7b A" ∧
      ¬∀ template s interner overlay, WritesAll (interpolateIntoWithOverlay s interner overlay template)
        (grammarText s interner overlay template) := by
  intro overlay
  have hcomposed : interpolated (.new 0) .new overlay "\x7b \x7bn\x7d".toList = "\x7b \x7bn\x7d" := by
    with_unfolding_all decide
  have htext : grammarText (.new 0) .new overlay "\x7b \x7bn\x7d".toList = "\x7b A" := by
    with_unfolding_all decide
  have hcall := @interpolate_writes (.new 0) .new overlay "\x7b \x7bn\x7d".toList ""
  rw [hcomposed, if_neg (by decide)] at hcall
  refine ⟨hcall, htext, fun h => ?_⟩
  have hwrites := h "\x7b \x7bn\x7d".toList (.new 0) .new overlay ""
  rw [htext, if_neg (by decide), hcall] at hwrites
  exact absurd (congrArg Exec.finalState hwrites) (by decide)

end Theorem

end Mizu
