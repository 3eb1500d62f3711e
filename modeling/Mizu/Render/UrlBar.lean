import Mizu.Lib.Lowercase
import Mizu.Lib.Utf8Text
import Mizu.Render.Commit
import Mizu.Network.Response

/-!
# The URL bar

The text of the bar, with the cursor and the selection as byte offsets into it, and what a key does to
them. An edit at an offset that is not between two characters panics; it has no result here.

* `UrlBar.handleKey_edits`: where the characters of the text come from.
-/

namespace Mizu

open Option

/-- `VisitRecord`, as far as the bar reads it. -/
structure VisitRecord where
  url : String
  title : String
  deriving DecidableEq, Repr

/-- The part of `ChromeState` that only editing reads. -/
structure BarEditing where
  cursor : Nat
  selection : Option (Nat × Nat)
  suggestions : List VisitRecord
  selectedSuggestion : Option Nat
  inlineCompletion : Option String
  deriving DecidableEq, Repr

/-- `ChromeState`. -/
structure UrlBar extends ChromeState, BarEditing

inductive Key where
  | enter
  | escape
  | arrowUp
  | arrowDown
  | arrowLeft
  | arrowRight
  | backspace
  | delete
  | home
  | endKey
  | character (ch : String)
  | other
  deriving DecidableEq, Repr

structure ModifiersState where
  controlKey : Bool
  shiftKey : Bool
  deriving DecidableEq, Repr

/-- `ChromeKeyAction`, of which a key asks neither for a reload nor for a step back. -/
inductive ChromeKeyAction where
  | navigate (url : String)
  | copy
  | cut
  | paste
  | handled
  | ignored
  deriving DecidableEq, Repr

namespace UrlBar

variable (bar : UrlBar)

/-- `set_displayed_url`. -/
def setDisplayedUrl (url : String) : UrlBar :=
  { bar with url, cursor := strLen url, selection := none, inlineCompletion := none }

def selectionRange : Option (Nat × Nat) :=
  bar.selection.map fun (a, b) => if a ≤ b then (a, b) else (b, a)

def selectedText : Option String :=
  match bar.selectionRange with
  | some (lo, hi) => if lo = hi then none else slice bar.url lo hi
  | none => none

/-- The last boundary not behind `o`, or the start. -/
def boundaryBefore (url : String) : Nat → Nat
  | 0 => 0
  | o + 1 => if isCharBoundary url (o + 1) then o + 1 else boundaryBefore url o

def prevCharBoundary (source : Nat) : Nat :=
  match source with
  | 0 => 0
  | o + 1 => boundaryBefore bar.url o

/-- The first boundary from `o` on, at most `fuel` further. -/
def boundaryAfter (url : String) : Nat → Nat → Nat
  | 0, o => o
  | fuel + 1, o => if isCharBoundary url o then o else boundaryAfter url fuel (o + 1)

def nextCharBoundary (source : Nat) : Nat :=
  let len := strLen bar.url
  if source ≥ len then len else boundaryAfter bar.url (len - (source + 1)) (source + 1)

/-! ## Text mutation -/

/-- Deletes the selection if it selects something. -/
def deleteSelection : Option (Option UrlBar) :=
  match bar.selectionRange with
  | some (lo, hi) =>
    if lo < hi then
      (replaceRange bar.url lo hi "").map fun url => some { bar with url, cursor := lo, selection := none }
    else some none
  | none => some none

def insertText (text : String) : Option UrlBar := do
  let text := stripBidiOverrides text
  let bar := (← bar.deleteSelection).getD bar
  let cursor := min bar.cursor (strLen bar.url)
  let url ← insertStr bar.url cursor text
  return { bar with url, cursor := cursor + strLen text, selection := none }

def deleteBackward : Option UrlBar := do
  match ← bar.deleteSelection with
  | some bar => return bar
  | none =>
    if bar.cursor = 0 then return { bar with selection := none }
    let prev := bar.prevCharBoundary bar.cursor
    let url ← removeChar bar.url prev
    return { bar with url, cursor := prev, selection := none }

def deleteForward : Option UrlBar := do
  match ← bar.deleteSelection with
  | some bar => return bar
  | none =>
    if bar.cursor ≥ strLen bar.url then return { bar with selection := none }
    let next := bar.nextCharBoundary bar.cursor
    let url ← replaceRange bar.url bar.cursor next ""
    return { bar with url, selection := none }

/-! ## Cursor and selection -/

/-- The end of the selection that stays where it is. -/
def anchor : Nat := (bar.selection.map (·.1)).getD bar.cursor

def moveLeft (extend : Bool) : UrlBar :=
  if extend then
    let newPos := bar.prevCharBoundary bar.cursor
    { bar with cursor := newPos, selection := some (bar.anchor, newPos) }
  else
    match bar.selectionRange with
    | some (lo, _) => { bar with cursor := lo, selection := none }
    | none => { bar with cursor := bar.prevCharBoundary bar.cursor, selection := none }

def moveRight (extend : Bool) : UrlBar :=
  if extend then
    let newPos := bar.nextCharBoundary bar.cursor
    { bar with cursor := newPos, selection := some (bar.anchor, newPos) }
  else
    match bar.selectionRange with
    | some (_, hi) => { bar with cursor := hi, selection := none }
    | none => { bar with cursor := bar.nextCharBoundary bar.cursor, selection := none }

/-- Moves the cursor to a given offset. -/
def moveTo (offset : Nat) (extend : Bool) : UrlBar :=
  { bar with cursor := offset, selection := if extend then some (bar.anchor, offset) else none }

def moveToStart (extend : Bool) : UrlBar := bar.moveTo 0 extend

def moveToEnd (extend : Bool) : UrlBar := bar.moveTo (strLen bar.url) extend

def selectAll : UrlBar :=
  let len := strLen bar.url
  { bar with selection := some (0, len), cursor := len }

def isSeparator (c : Char) : Bool := c ∈ [' ', '/', '.', ':', '?', '&', '=', '-']

/-- The index after the last separator before index `i`. -/
def wordStart (chars : List (Nat × Char)) : Nat → Nat
  | 0 => 0
  | i + 1 =>
    match chars[i]? with
    | some (_, c) => if isSeparator c then i + 1 else wordStart chars i
    | none => wordStart chars i

def selectWordAtCursor : UrlBar :=
  if bar.url = "" then bar
  else
    let chars := charIndices bar.url
    let offset (i : Nat) : Nat := (chars[i]?.map (·.1)).getD (strLen bar.url)
    let cursorCharIdx := chars.findIdx fun (idx, _) => idx ≥ bar.cursor
    let start := offset (wordStart chars cursorCharIdx)
    let stop := offset
      (cursorCharIdx + ((chars.drop cursorCharIdx).takeWhile fun (_, c) => !isSeparator c).length)
    let (start, stop) :=
      match chars[cursorCharIdx]? with
      | some (idx, c) => if start = stop then (idx, idx + c.utf8Size) else (start, stop)
      | none => (start, stop)
    { bar with selection := some (start, stop), cursor := stop }

/-- `cut_text`: what is cut, and the bar without it. -/
def cutText : Option (Option String × UrlBar) :=
  match bar.selectedText with
  | some text => bar.deleteBackward.map fun bar => (some text, bar)
  | none => some (none, bar)

/-- A click in the bar, where the text engine finds the offset. -/
def setCursorFromClick (offset : Nat) : UrlBar := { bar with cursor := offset, selection := none }

def extendSelectionToX (offset : Nat) : UrlBar := bar.moveTo offset true

/-! ## Keys -/

/-- The suggestion that Enter takes. -/
def chosen : Option VisitRecord := bar.selectedSuggestion.bind (bar.suggestions[·]?)

/-- The text that Enter takes from the suggestions. -/
def accepted : Option String :=
  match bar.selectedSuggestion with
  | some _ => bar.chosen.map (·.url)
  | none => bar.inlineCompletion

/-- The target of Enter. -/
def enteredUrl : String :=
  let targetUrl :=
    match bar.selectedSuggestion with
    | some _ =>
      match bar.chosen with
      | some record => record.url
      | none => trim bar.url
    | none =>
      match bar.inlineCompletion with
      | some inline => bar.url ++ inline
      | none => trim bar.url
  if targetUrl ≠ "" && !containsScheme targetUrl && !startsWith "about:" targetUrl then
    "mizu://" ++ targetUrl
  else targetUrl

def enter : UrlBar :=
  { bar with
    url := bar.enteredUrl
    cursor := strLen bar.enteredUrl
    selection := none
    focused := false
    suggestions := []
    selectedSuggestion := none
    inlineCompletion := none }

def escape : UrlBar :=
  { bar with
    selection := none
    focused := false
    suggestions := []
    selectedSuggestion := none
    inlineCompletion := none }

def suggestionUp : UrlBar :=
  { bar with
    selectedSuggestion :=
      match bar.selectedSuggestion with
      | some idx => if idx > 0 then some (idx - 1) else none
      | none => some (bar.suggestions.length - 1) }

def suggestionDown : UrlBar :=
  { bar with
    selectedSuggestion :=
      match bar.selectedSuggestion with
      | some idx => if idx + 1 < bar.suggestions.length then some (idx + 1) else none
      | none => some 0 }

/-- `handle_key`. -/
def handleKey (key : Key) (text : Option String) (mods : ModifiersState) : Option (UrlBar × ChromeKeyAction) :=
  match key with
  | .enter => some (bar.enter, .navigate bar.enteredUrl)
  | .escape => some (bar.escape, .handled)
  | .arrowUp => some (if bar.suggestions = [] then (bar, .ignored) else (bar.suggestionUp, .handled))
  | .arrowDown => some (if bar.suggestions = [] then (bar, .ignored) else (bar.suggestionDown, .handled))
  | .backspace => bar.deleteBackward.map (·, .handled)
  | .delete => bar.deleteForward.map (·, .handled)
  | .arrowLeft => some (bar.moveLeft mods.shiftKey, .handled)
  | .arrowRight => some (bar.moveRight mods.shiftKey, .handled)
  | .home => some (bar.moveToStart mods.shiftKey, .handled)
  | .endKey => some (bar.moveToEnd mods.shiftKey, .handled)
  | .character ch =>
    if mods.controlKey then
      some <|
        if ch = "a" ∨ ch = "A" then (bar.selectAll, .handled)
        else if ch = "c" ∨ ch = "C" then (bar, .copy)
        else if ch = "x" ∨ ch = "X" then (bar, .cut)
        else if ch = "v" ∨ ch = "V" then (bar, .paste)
        else (bar, .ignored)
    else printable text
  | .other => printable text
where
  /-- A printable character. -/
  printable (text : Option String) : Option (UrlBar × ChromeKeyAction) :=
    let chars := String.ofList ((text.getD "").toList.filter (!Value.isControl ·))
    if chars = "" then some (bar, .ignored) else (bar.insertText chars).map (·, .handled)

end UrlBar

/-! ## Suggestions -/

section Suggestions

variable (table : CaseTable)

/-- A URL without its scheme. -/
def withoutScheme (urlLower : String) : String :=
  ((stripPrefix "mizu://" urlLower).orElse fun _ =>
    (stripPrefix "file://" urlLower).orElse fun _ =>
      (stripPrefix "https://" urlLower).orElse fun _ => stripPrefix "http://" urlLower).getD urlLower

/-- `HistoryLog::autocomplete`: records whose URL or title has the text, those that begin with it
first. -/
def autocomplete (records : List VisitRecord) (query : String) (limit : Nat) : List VisitRecord :=
  if query = "" then []
  else
    let queryLower := table.toLowercase query
    let isPrefix (record : VisitRecord) : Bool :=
      let urlLower := table.toLowercase record.url
      startsWith queryLower urlLower || startsWith queryLower (withoutScheme urlLower)
    let found := records.filter fun record =>
      isPrefix record || decide (queryLower.toList <:+: (table.toLowercase record.url).toList) ||
        decide (queryLower.toList <:+: (table.toLowercase record.title).toList)
    -- The first record of a URL is the one that stays.
    let distinct := found.foldl (fun seen record =>
      if seen.any (·.url = record.url) then seen else seen ++ [record]) []
    (distinct.filter isPrefix ++ distinct.filter (!isPrefix ·)).take limit

/-- The rest of the first suggestion after the text; `none` if the slice panics. -/
def inlineCompletionOf (first : VisitRecord) (urlAfter : String) : Option (Option String) :=
  let urlLower := table.toLowercase first.url
  let queryLower := table.toLowercase urlAfter
  let bare := withoutScheme urlLower
  if startsWith queryLower urlLower then (sliceFrom first.url (strLen urlAfter)).map some
  else if startsWith queryLower bare then
    -- The two sums wrap around together.
    if strLen bare ≤ strLen first.url + strLen urlAfter then
      (sliceFrom first.url (strLen first.url + strLen urlAfter - strLen bare)).map some
    else none
  else some none

/-- The suggestions for a text that has changed. -/
def UrlBar.suggest (records : List VisitRecord) (bar : UrlBar) : Option UrlBar :=
  let suggestions := autocomplete table records bar.url 6
  let bar := { bar with suggestions, selectedSuggestion := none }
  match suggestions with
  | first :: _ => (inlineCompletionOf table first bar.url).map fun inlineCompletion => { bar with inlineCompletion }
  | [] => some { bar with inlineCompletion := none }

end Suggestions

/-! ## Where the text comes from -/

/-- No character reorders the text. -/
def Unspoofed (s : String) : Prop := ∀ c ∈ s.toList, isBidiOverrideOrIsolate c = false

instance (s : String) : Decidable (Unspoofed s) :=
  List.decidableBAll (isBidiOverrideOrIsolate · = false) s.toList

theorem unspoofed_stripBidiOverrides (s : String) : Unspoofed (stripBidiOverrides s) := by
  intro c hc
  rw [stripBidiOverrides, String.toList_ofList] at hc
  simpa using (List.mem_filter.mp hc).2

theorem mem_trim {s : String} {c : Char} (h : c ∈ (trim s).toList) : c ∈ s.toList := by
  rw [trim, String.toList_ofList, trimEnd, List.mem_reverse] at h
  have hmem := (List.dropWhile_sublist _).subset h
  rw [List.mem_reverse] at hmem
  exact (List.dropWhile_sublist _).subset hmem

/-- A scheme that is put before a target brings in no such character. -/
theorem mem_withScheme {target : String} {p : Bool} {c : Char}
    (h : c ∈ (if p then "mizu://" ++ target else target).toList) :
    isBidiOverrideOrIsolate c = false ∨ c ∈ target.toList := by
  have hscheme : Unspoofed "mizu://" := by simp [Unspoofed, isBidiOverrideOrIsolate]
  split at h
  · rw [String.toList_append, List.mem_append] at h
    exact h.imp_left (hscheme c)
  · exact .inr h

namespace UrlBar

variable {bar bar' : UrlBar}

/-- An edit keeps the origin of record, and the characters it brings in are among `allowed`. -/
structure Edits (allowed : Char → Prop) (bar bar' : UrlBar) : Prop where
  committedUrl : bar'.committedUrl = bar.committedUrl
  mem : ∀ c ∈ bar'.url.toList, c ∈ bar.url.toList ∨ allowed c

variable {allowed : Char → Prop}

theorem Edits.of_eq (hcommitted : bar'.committedUrl = bar.committedUrl) (hurl : bar'.url = bar.url) :
    Edits allowed bar bar' :=
  ⟨hcommitted, fun c hc => .inl (hurl ▸ hc)⟩

theorem Edits.trans {bar'' : UrlBar} (h : Edits allowed bar bar') (h' : Edits allowed bar' bar'') :
    Edits allowed bar bar'' :=
  ⟨h'.committedUrl.trans h.committedUrl, fun c hc => (h'.mem c hc).elim (h.mem c) .inr⟩

theorem Edits.mono {allowed' : Char → Prop} (h : Edits allowed bar bar') (himp : ∀ c, allowed c → allowed' c) :
    Edits allowed' bar bar' :=
  ⟨h.committedUrl, fun c hc => (h.mem c hc).imp_right (himp c)⟩

/-- What an edit makes of a text without such characters. -/
theorem Edits.unspoofed (h : Edits (isBidiOverrideOrIsolate · = false) bar bar') (hurl : Unspoofed bar.url) :
    Unspoofed bar'.url :=
  fun c hc => (h.mem c hc).elim (hurl c) id

theorem deleteSelection_edits {deleted : Option UrlBar} (h : bar.deleteSelection = some deleted) :
    Edits allowed bar (deleted.getD bar) := by
  unfold deleteSelection at h
  split at h
  · split at h
    · obtain ⟨url, hurl, rfl⟩ := map_eq_some_iff.mp h
      refine ⟨rfl, fun c hc => .inl ?_⟩
      exact (mem_replaceRange hurl hc).elim id fun hnone => by simp at hnone
    · cases h
      exact .of_eq rfl rfl
  · cases h
    exact .of_eq rfl rfl

theorem insertText_edits {text : String} (h : bar.insertText text = some bar') :
    Edits (isBidiOverrideOrIsolate · = false) bar bar' := by
  simp only [insertText, bind_eq_bind, bind_eq_some_iff, pure_def,
    some.injEq] at h
  obtain ⟨deleted, hdeleted, url, hurl, rfl⟩ := h
  refine (deleteSelection_edits hdeleted).trans ⟨rfl, fun c hc => ?_⟩
  exact (mem_insertStr hurl hc).imp_right (unspoofed_stripBidiOverrides text c)

theorem deleteBackward_edits (h : bar.deleteBackward = some bar') : Edits allowed bar bar' := by
  simp only [deleteBackward, bind_eq_bind, bind_eq_some_iff] at h
  obtain ⟨deleted, hdeleted, h⟩ := h
  cases deleted with
  | some deleted =>
    cases h
    exact deleteSelection_edits hdeleted
  | none =>
    dsimp only at h
    split at h
    · cases h
      exact .of_eq rfl rfl
    · obtain ⟨url, hurl, h⟩ := bind_eq_some_iff.mp h
      cases h
      exact ⟨rfl, fun c hc => .inl (mem_removeChar hurl hc)⟩

theorem deleteForward_edits (h : bar.deleteForward = some bar') : Edits allowed bar bar' := by
  simp only [deleteForward, bind_eq_bind, bind_eq_some_iff] at h
  obtain ⟨deleted, hdeleted, h⟩ := h
  cases deleted with
  | some deleted =>
    cases h
    exact deleteSelection_edits hdeleted
  | none =>
    dsimp only at h
    split at h
    · cases h
      exact .of_eq rfl rfl
    · obtain ⟨url, hurl, h⟩ := bind_eq_some_iff.mp h
      cases h
      exact ⟨rfl, fun c hc => .inl ((mem_replaceRange hurl hc).elim id fun hnone => by simp at hnone)⟩

theorem cutText_edits {text : Option String} (h : bar.cutText = some (text, bar')) : Edits allowed bar bar' := by
  unfold cutText at h
  split at h
  · grind [map_eq_some_iff, deleteBackward_edits]
  · cases h
    exact .of_eq rfl rfl

/-- What Enter writes is the text, what it takes from the suggestions, and a scheme. -/
theorem enter_edits (bar : UrlBar) :
    Edits (fun c => isBidiOverrideOrIsolate c = false ∨ ∃ text ∈ bar.accepted, c ∈ text.toList) bar bar.enter := by
  refine ⟨rfl, fun c hc => ?_⟩
  rcases mem_withScheme hc with hplain | hmem
  · exact .inr (.inl hplain)
  cases hselected : bar.selectedSuggestion with
  | some idx =>
    cases hchosen : bar.chosen with
    | some record => grind [accepted]
    | none => grind [mem_trim]
  | none =>
    cases hinline : bar.inlineCompletion with
    | some inline => grind [String.toList_append, accepted]
    | none => grind [mem_trim]

theorem suggest_edits {table : CaseTable} {records : List VisitRecord} (h : bar.suggest table records = some bar') :
    Edits allowed bar bar' := by
  unfold suggest at h
  dsimp only at h
  split at h
  · obtain ⟨inline, -, rfl⟩ := map_eq_some_iff.mp h
    exact .of_eq rfl rfl
  · cases h
    exact .of_eq rfl rfl

/-- A key brings in what is typed, stripped, and what Enter takes from the suggestions. -/
theorem handleKey_edits {key : Key} {text : Option String} {mods : ModifiersState} {action : ChromeKeyAction}
    (h : bar.handleKey key text mods = some (bar', action)) :
    Edits (fun c => isBidiOverrideOrIsolate c = false ∨
      key = .enter ∧ ∃ text ∈ bar.accepted, c ∈ text.toList) bar bar' := by
  have hprintable (h : handleKey.printable bar text = some (bar', action)) :
      Edits (isBidiOverrideOrIsolate · = false) bar bar' := by
    unfold handleKey.printable at h
    dsimp only at h
    split at h
    · cases h
      exact .of_eq rfl rfl
    · grind [map_eq_some_iff, insertText_edits]
  cases key with
  | enter =>
    cases h
    exact (enter_edits bar).mono fun c hc => hc.imp_right fun hmem => ⟨rfl, hmem⟩
  | escape =>
    cases h
    exact .of_eq rfl rfl
  | arrowUp | arrowDown =>
    have hpair := some.inj h
    split at hpair <;> cases hpair <;> exact .of_eq rfl rfl
  | arrowLeft | arrowRight =>
    cases h
    simp only [moveLeft, moveRight]
    split
    · exact .of_eq rfl rfl
    · split <;> exact .of_eq rfl rfl
  | home | endKey =>
    cases h
    exact .of_eq rfl rfl
  | backspace =>
    obtain ⟨deleted, hdeleted, heq⟩ := map_eq_some_iff.mp h
    cases heq
    exact deleteBackward_edits hdeleted
  | delete =>
    obtain ⟨deleted, hdeleted, heq⟩ := map_eq_some_iff.mp h
    cases heq
    exact deleteForward_edits hdeleted
  | character ch =>
    simp only [handleKey] at h
    split at h
    · have hpair := some.inj h
      grind [Edits.of_eq, selectAll]
    · exact (hprintable h).mono fun c => .inl
  | other => exact (hprintable h).mono fun c => .inl

theorem selectWordAtCursor_edits (bar : UrlBar) : Edits allowed bar bar.selectWordAtCursor := by
  unfold selectWordAtCursor
  split <;> exact .of_eq rfl rfl

end UrlBar

end Mizu
