import Mizu.Render.UrlBar

/-!
# Editing the URL bar

The cursor and the ends of the selection are offsets into a text that every edit changes. `UrlBar.Anchored` says that
they lie between its characters; then an edit does not panic, and leaves them so.

* `UrlBar.insertText_replaces`: an insertion replaces what is selected.
* `UrlBar.apply_anchored`: one edit.
* `UrlBar.run_anchored`: any sequence of edits, from any text.
-/

namespace Mizu

open Option

/-- The text engine, which finds the offset that is nearest to a place in the bar. -/
structure TextEngine (X : Type) where
  urlCursorFromX : String → X → Nat
  boundary : ∀ url x, isCharBoundary url (urlCursorFromX url x) = true

namespace UrlBar

/-- What the window, a key or the mouse does to the bar. -/
inductive Edit (X : Type) where
  | insertText (text : String)
  | deleteBackward
  | deleteForward
  | moveLeft (extend : Bool)
  | moveRight (extend : Bool)
  | moveToStart (extend : Bool)
  | moveToEnd (extend : Bool)
  | selectAll
  | selectWordAtCursor
  | cutText
  | pasteText (text : String)
  | key (key : Key) (text : Option String) (mods : ModifiersState)
  | setCursorFromClick (x : X)
  | extendSelectionToX (x : X)
  | setDisplayedUrl (url : String)

section Apply

variable {X : Type} (engine : TextEngine X)

/-- The bar after an edit; `none` if it panics. -/
def apply (bar : UrlBar) : Edit X → Option UrlBar
  | .insertText text => bar.insertText text
  | .deleteBackward => bar.deleteBackward
  | .deleteForward => bar.deleteForward
  | .moveLeft extend => some (bar.moveLeft extend)
  | .moveRight extend => some (bar.moveRight extend)
  | .moveToStart extend => some (bar.moveToStart extend)
  | .moveToEnd extend => some (bar.moveToEnd extend)
  | .selectAll => some bar.selectAll
  | .selectWordAtCursor => some bar.selectWordAtCursor
  | .cutText => bar.cutText.map (·.2)
  | .pasteText text => bar.insertText text
  | .key key text mods => (bar.handleKey key text mods).map (·.1)
  | .setCursorFromClick x => some (bar.setCursorFromClick (engine.urlCursorFromX bar.url x))
  | .extendSelectionToX x => some (bar.extendSelectionToX (engine.urlCursorFromX bar.url x))
  | .setDisplayedUrl url => some (bar.setDisplayedUrl url)

def run (bar : UrlBar) : List (Edit X) → Option UrlBar
  | [] => some bar
  | edit :: edits => (bar.apply engine edit).bind (run · edits)

end Apply

/-- The bar of a new tab. -/
def start (url : String) : UrlBar where
  committedUrl := url
  url := url
  loading := false
  focused := false
  cursor := strLen url
  selection := none
  suggestions := []
  selectedSuggestion := none
  inlineCompletion := none

/-- The cursor and the ends of the selection lie between the characters of the text, and the selection ends at the
cursor. -/
structure Anchored (bar : UrlBar) : Prop where
  cursor : isCharBoundary bar.url bar.cursor = true
  selection : ∀ a b, bar.selection = some (a, b) → isCharBoundary bar.url a = true ∧ b = bar.cursor

/-- The selected range; at the cursor if there is none. -/
def selected (bar : UrlBar) : Nat × Nat := bar.selectionRange.getD (bar.cursor, bar.cursor)

/-! ## Boundaries -/

section Boundaries

variable {url : String} {bar : UrlBar}

theorem boundaryBefore_spec (url : String) (o : Nat) :
    isCharBoundary url (boundaryBefore url o) = true ∧ boundaryBefore url o ≤ o := by
  induction o with
  | zero => exact ⟨isCharBoundary_zero url, Nat.le_refl 0⟩
  | succ o ih => grind [boundaryBefore]

theorem boundaryAfter_spec {fuel o : Nat} (h : o + fuel = strLen url) :
    isCharBoundary url (boundaryAfter url fuel o) = true ∧ o ≤ boundaryAfter url fuel o := by
  induction fuel generalizing o with
  | zero =>
    rw [boundaryAfter, show o = strLen url from h]
    exact ⟨isCharBoundary_strLen url, Nat.le_refl _⟩
  | succ fuel ih => grind [boundaryAfter]

theorem prevCharBoundary_spec (bar : UrlBar) (source : Nat) :
    isCharBoundary bar.url (bar.prevCharBoundary source) = true ∧ bar.prevCharBoundary source ≤ source - 1 := by
  cases source with
  | zero => exact ⟨isCharBoundary_zero _, Nat.le_refl 0⟩
  | succ o => exact boundaryBefore_spec bar.url o

theorem nextCharBoundary_spec (bar : UrlBar) {source : Nat} (h : source ≤ strLen bar.url) :
    isCharBoundary bar.url (bar.nextCharBoundary source) = true ∧ source ≤ bar.nextCharBoundary source := by
  unfold nextCharBoundary
  dsimp only
  split
  · exact ⟨isCharBoundary_strLen _, h⟩
  · next hlt =>
    obtain ⟨hboundary, hle⟩ :=
      boundaryAfter_spec (show source + 1 + (strLen bar.url - (source + 1)) = strLen bar.url by omega)
    exact ⟨hboundary, by omega⟩

/-- Every character starts and ends at a boundary. -/
theorem charIndices_boundary {i idx : Nat} {c : Char} (h : (charIndices url)[i]? = some (idx, c)) :
    isCharBoundary url idx = true ∧ isCharBoundary url (idx + c.utf8Size) = true := by
  rw [charIndices, List.getElem?_mapIdx] at h
  obtain ⟨d, hd, heq⟩ := map_eq_some_iff.mp h
  cases heq
  refine ⟨isCharBoundary_of_append (List.take_append_drop i _).symm, ?_⟩
  have hnext : byteLength (url.toList.take (i + 1)) = byteLength (url.toList.take i) + c.utf8Size := by
    rw [List.take_add_one, hd, byteLength_append]
    simp [byteLength]
  rw [← hnext]
  exact isCharBoundary_of_append (List.take_append_drop (i + 1) _).symm

end Boundaries

namespace Anchored

variable {bar : UrlBar} (h : bar.Anchored)
include h

theorem cursor_le : bar.cursor ≤ strLen bar.url := le_strLen_of_isCharBoundary h.cursor

/-- The anchor lies between two characters. -/
theorem anchor : isCharBoundary bar.url bar.anchor = true := by
  unfold UrlBar.anchor
  cases hselection : bar.selection with
  | none => exact h.cursor
  | some r => exact (h.selection r.1 r.2 hselection).1

theorem selectionRange {lo hi : Nat} (hrange : bar.selectionRange = some (lo, hi)) :
    isCharBoundary bar.url lo = true ∧ isCharBoundary bar.url hi = true ∧ lo ≤ hi ∧ (lo = hi → lo = bar.cursor) := by
  obtain ⟨⟨a, b⟩, hselection, heq⟩ := map_eq_some_iff.mp hrange
  obtain ⟨ha, rfl⟩ := h.selection a b hselection
  dsimp only at heq
  split at heq
  · next hle =>
    cases heq
    exact ⟨ha, h.cursor, hle, id⟩
  · next hle =>
    cases heq
    exact ⟨h.cursor, ha, by omega, fun _ => rfl⟩

theorem selected : isCharBoundary bar.url bar.selected.1 = true ∧ isCharBoundary bar.url bar.selected.2 = true ∧
    bar.selected.1 ≤ bar.selected.2 := by
  unfold UrlBar.selected
  cases hrange : bar.selectionRange with
  | none => exact ⟨h.cursor, h.cursor, Nat.le_refl _⟩
  | some r =>
    obtain ⟨hlo, hhi, hle, -⟩ := h.selectionRange hrange
    exact ⟨hlo, hhi, hle⟩

end Anchored

theorem anchored_of_cursor {bar : UrlBar} (hcursor : isCharBoundary bar.url bar.cursor = true)
    (hselection : bar.selection = none) : bar.Anchored :=
  ⟨hcursor, fun a b h => by rw [hselection] at h; cases h⟩

theorem anchored_start (url : String) : (start url).Anchored := anchored_of_cursor (isCharBoundary_strLen url) rfl

theorem selectAll_anchored (bar : UrlBar) : bar.selectAll.Anchored := by
  refine ⟨isCharBoundary_strLen _, fun a b hselection => ?_⟩
  cases hselection
  exact ⟨isCharBoundary_zero _, rfl⟩

/-! ## Edits -/

section Edits

variable {bar : UrlBar} (h : bar.Anchored)
include h

/-- Without the selection the cursor stands where it began. -/
theorem deleteSelection_spec : ∃ deleted, bar.deleteSelection = some deleted ∧
    replaceRange bar.url bar.selected.1 bar.selected.2 "" = some (deleted.getD bar).url ∧
    (deleted.getD bar).cursor = bar.selected.1 ∧
    (∀ bar', deleted = some bar' → bar'.selection = none) := by
  unfold deleteSelection selected
  cases hrange : bar.selectionRange with
  | none => exact ⟨none, rfl, replaceRange_empty h.cursor, rfl, nofun⟩
  | some r =>
    obtain ⟨lo, hi⟩ := r
    obtain ⟨hlo, hhi, hle, hempty⟩ := h.selectionRange hrange
    dsimp only [getD_some]
    by_cases hlt : lo < hi
    · obtain ⟨url, hurl, -⟩ := exists_replaceRange hlo hhi hle ""
      rw [if_pos hlt, hurl]
      refine ⟨_, rfl, rfl, rfl, fun bar' heq => ?_⟩
      cases heq
      rfl
    · obtain rfl : lo = hi := by omega
      rw [if_neg hlt]
      exact ⟨none, rfl, replaceRange_empty hlo, (hempty rfl).symm, nofun⟩

/-- An insertion replaces what is selected. -/
theorem insertText_replaces (text : String) : ∃ bar', bar.insertText text = some bar' ∧
    replaceRange bar.url bar.selected.1 bar.selected.2 (stripBidiOverrides text) = some bar'.url ∧ bar'.Anchored := by
  obtain ⟨hlo, hhi, hle⟩ := h.selected
  obtain ⟨deleted, hdeleted, hcut, hcursor, -⟩ := deleteSelection_spec h
  obtain ⟨_, hcut', hboundary, -⟩ := exists_replaceRange hlo hhi hle ""
  cases hcut.symm.trans hcut'
  obtain ⟨url, hinsert, -, hafter⟩ := exists_replaceRange hboundary hboundary (Nat.le_refl _) (stripBidiOverrides text)
  have hmin : min (deleted.getD bar).cursor (strLen (deleted.getD bar).url) = bar.selected.1 := by
    grind [Nat.min_eq_left, le_strLen_of_isCharBoundary]
  refine ⟨{ deleted.getD bar with
      url, cursor := bar.selected.1 + strLen (stripBidiOverrides text), selection := none },
    ?_, replaceRange_delete_insert hcut hinsert, anchored_of_cursor hafter rfl⟩
  simp only [insertText, hdeleted, bind_eq_bind, bind_some, hmin, insertStr, hinsert, pure_def]

theorem deleteSelection_anchored {bar' : UrlBar} (hdeleted : bar.deleteSelection = some (some bar')) : bar'.Anchored := by
  obtain ⟨hlo, hhi, hle⟩ := h.selected
  obtain ⟨deleted, hdeleted', hcut, hcursor, hnone⟩ := deleteSelection_spec h
  cases hdeleted.symm.trans hdeleted'
  obtain ⟨_, hcut', hboundary, -⟩ := exists_replaceRange hlo hhi hle ""
  cases hcut.symm.trans hcut'
  refine anchored_of_cursor ?_ (hnone bar' rfl)
  rw [show bar'.cursor = bar.selected.1 from hcursor]
  exact hboundary

theorem deleteBackward_anchored : ∃ bar', bar.deleteBackward = some bar' ∧ bar'.Anchored := by
  obtain ⟨deleted, hdeleted, -⟩ := deleteSelection_spec h
  unfold deleteBackward
  rw [hdeleted]
  cases deleted with
  | some bar' => exact ⟨bar', rfl, deleteSelection_anchored h hdeleted⟩
  | none =>
    by_cases hzero : bar.cursor = 0
    · exact ⟨{ bar with selection := none }, if_pos hzero, anchored_of_cursor h.cursor rfl⟩
    · have hle := h.cursor_le
      obtain ⟨hboundary, hprev⟩ := bar.prevCharBoundary_spec bar.cursor
      obtain ⟨url, hremove, hafter⟩ := exists_removeChar hboundary (by omega)
      refine ⟨{ bar with url, cursor := bar.prevCharBoundary bar.cursor, selection := none }, (if_neg hzero).trans ?_,
        anchored_of_cursor hafter rfl⟩
      simp [hremove]

theorem deleteForward_anchored : ∃ bar', bar.deleteForward = some bar' ∧ bar'.Anchored := by
  obtain ⟨deleted, hdeleted, -⟩ := deleteSelection_spec h
  unfold deleteForward
  rw [hdeleted]
  cases deleted with
  | some bar' => exact ⟨bar', rfl, deleteSelection_anchored h hdeleted⟩
  | none =>
    by_cases hend : bar.cursor ≥ strLen bar.url
    · exact ⟨{ bar with selection := none }, if_pos hend, anchored_of_cursor h.cursor rfl⟩
    · obtain ⟨hboundary, hnext⟩ := bar.nextCharBoundary_spec h.cursor_le
      obtain ⟨url, hreplace, hafter, -⟩ := exists_replaceRange h.cursor hboundary hnext ""
      refine ⟨{ bar with url, selection := none }, (if_neg hend).trans ?_, anchored_of_cursor hafter rfl⟩
      simp [hreplace]

theorem moveTo_anchored {offset : Nat} (hoffset : isCharBoundary bar.url offset = true) (extend : Bool) :
    (bar.moveTo offset extend).Anchored := by
  refine ⟨hoffset, fun a b hselection => ?_⟩
  cases extend with
  | false => cases hselection
  | true =>
    cases hselection
    exact ⟨h.anchor, rfl⟩

theorem moveLeft_anchored (extend : Bool) : (bar.moveLeft extend).Anchored := by
  have hprev := (bar.prevCharBoundary_spec bar.cursor).1
  cases extend with
  | true => exact moveTo_anchored h hprev true
  | false =>
    unfold moveLeft
    cases hrange : bar.selectionRange with
    | none => exact anchored_of_cursor hprev rfl
    | some r => exact anchored_of_cursor (h.selectionRange hrange).1 rfl

theorem moveRight_anchored (extend : Bool) : (bar.moveRight extend).Anchored := by
  have hnext := (bar.nextCharBoundary_spec h.cursor_le).1
  cases extend with
  | true => exact moveTo_anchored h hnext true
  | false =>
    unfold moveRight
    cases hrange : bar.selectionRange with
    | none => exact anchored_of_cursor hnext rfl
    | some r => exact anchored_of_cursor (h.selectionRange hrange).2.1 rfl

theorem cutText_anchored : ∃ r, bar.cutText = some r ∧ r.2.Anchored := by
  unfold cutText
  split
  · next text _ =>
    obtain ⟨bar', hdeleted, hanchored⟩ := deleteBackward_anchored h
    exact ⟨(some text, bar'), by rw [hdeleted]; rfl, hanchored⟩
  · exact ⟨(none, bar), rfl, h⟩

theorem selectWordAtCursor_anchored : bar.selectWordAtCursor.Anchored := by
  unfold selectWordAtCursor
  split
  · exact h
  · dsimp only
    have hoffset : ∀ i : Nat,
        isCharBoundary bar.url (((charIndices bar.url)[i]?.map Prod.fst).getD (strLen bar.url)) = true := by
      intro i
      cases hget : (charIndices bar.url)[i]? with
      | none => exact isCharBoundary_strLen _
      | some r => exact (charIndices_boundary hget).1
    split
    · next idx c hget =>
      obtain ⟨hstart, hstop⟩ := charIndices_boundary hget
      split
      · exact ⟨hstop, fun a b heq => by cases heq; exact ⟨hstart, rfl⟩⟩
      · exact ⟨hoffset _, fun a b heq => by cases heq; exact ⟨hoffset _, rfl⟩⟩
    · exact ⟨hoffset _, fun a b heq => by cases heq; exact ⟨hoffset _, rfl⟩⟩

theorem handleKey_anchored (key : Key) (text : Option String) (mods : ModifiersState) :
    ∃ r, bar.handleKey key text mods = some r ∧ r.1.Anchored := by
  have hprintable : ∃ r, handleKey.printable bar text = some r ∧ r.1.Anchored := by
    unfold handleKey.printable
    dsimp only
    split
    · exact ⟨(bar, .ignored), rfl, h⟩
    · next hchars =>
      obtain ⟨bar', htyped, -, hanchored⟩ := insertText_replaces h (String.ofList
        ((text.getD "").toList.filter (!Value.isControl ·)))
      exact ⟨(bar', .handled), by rw [htyped]; rfl, hanchored⟩
  cases key with
  | enter => exact ⟨_, rfl, anchored_of_cursor (isCharBoundary_strLen _) rfl⟩
  | escape => exact ⟨_, rfl, anchored_of_cursor h.cursor rfl⟩
  | arrowUp | arrowDown =>
    refine ⟨_, rfl, ?_⟩
    split
    · exact h
    · exact ⟨h.cursor, h.selection⟩
  | arrowLeft => exact ⟨_, rfl, moveLeft_anchored h _⟩
  | arrowRight => exact ⟨_, rfl, moveRight_anchored h _⟩
  | backspace =>
    obtain ⟨bar', hdeleted, hanchored⟩ := deleteBackward_anchored h
    exact ⟨(bar', .handled), by rw [handleKey, hdeleted]; rfl, hanchored⟩
  | delete =>
    obtain ⟨bar', hdeleted, hanchored⟩ := deleteForward_anchored h
    exact ⟨(bar', .handled), by rw [handleKey, hdeleted]; rfl, hanchored⟩
  | home => exact ⟨_, rfl, moveTo_anchored h (isCharBoundary_zero _) _⟩
  | endKey => exact ⟨_, rfl, moveTo_anchored h (isCharBoundary_strLen _) _⟩
  | character ch =>
    by_cases hcontrol : mods.controlKey = true
    · refine ⟨_, if_pos hcontrol, ?_⟩
      split
      · exact selectAll_anchored bar
      · grind
    · obtain ⟨r, hr, hanchored⟩ := hprintable
      exact ⟨r, (if_neg hcontrol).trans hr, hanchored⟩
  | other => exact hprintable

theorem apply_anchored {X : Type} (engine : TextEngine X) (edit : Edit X) :
    ∃ bar', bar.apply engine edit = some bar' ∧ bar'.Anchored := by
  cases edit with
  | insertText text | pasteText text =>
    obtain ⟨bar', hbar', -, hanchored⟩ := insertText_replaces h text
    exact ⟨bar', hbar', hanchored⟩
  | deleteBackward => exact deleteBackward_anchored h
  | deleteForward => exact deleteForward_anchored h
  | moveLeft extend => exact ⟨_, rfl, moveLeft_anchored h extend⟩
  | moveRight extend => exact ⟨_, rfl, moveRight_anchored h extend⟩
  | moveToStart extend => exact ⟨_, rfl, moveTo_anchored h (isCharBoundary_zero _) extend⟩
  | moveToEnd extend => exact ⟨_, rfl, moveTo_anchored h (isCharBoundary_strLen _) extend⟩
  | selectAll => exact ⟨_, rfl, selectAll_anchored bar⟩
  | selectWordAtCursor => exact ⟨_, rfl, selectWordAtCursor_anchored h⟩
  | cutText =>
    obtain ⟨r, hr, hanchored⟩ := cutText_anchored h
    exact ⟨r.2, by rw [apply, hr]; rfl, hanchored⟩
  | key key text mods =>
    obtain ⟨r, hr, hanchored⟩ := handleKey_anchored h key text mods
    exact ⟨r.1, by rw [apply, hr]; rfl, hanchored⟩
  | setCursorFromClick x => exact ⟨_, rfl, anchored_of_cursor (engine.boundary _ x) rfl⟩
  | extendSelectionToX x => exact ⟨_, rfl, moveTo_anchored h (engine.boundary _ x) true⟩
  | setDisplayedUrl url => exact ⟨_, rfl, anchored_of_cursor (isCharBoundary_strLen url) rfl⟩

theorem run_anchored {X : Type} (engine : TextEngine X) (edits : List (Edit X)) :
    ∃ bar', bar.run engine edits = some bar' ∧ bar'.Anchored := by
  induction edits generalizing bar with
  | nil => exact ⟨bar, rfl, h⟩
  | cons edit edits ih =>
    obtain ⟨bar', hstep, hanchored⟩ := apply_anchored h engine edit
    obtain ⟨bar'', hrun, hlast⟩ := ih hanchored
    exact ⟨bar'', by rw [run, hstep, bind_some, hrun], hlast⟩

end Edits

end UrlBar

end Mizu
