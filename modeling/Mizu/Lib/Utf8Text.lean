import Mathlib

/-!
# Texts addressed by bytes

An offset into a text counts the bytes of its characters. `splitBytes` cuts a text at an offset, which must
lie between two characters, and every edit is such a cut; an edit at another offset has no result.

* `splitBytes_append`: what is cut is the text.
* `mem_replaceRange`, `mem_insertStr`: an edit brings in no characters but those given.
-/

namespace Mizu

open List

/-- The bytes of the characters of a text. -/
def byteLength (cs : List Char) : Nat := (cs.map Char.utf8Size).sum

/-- Cuts a text at an offset, unless this lies inside a character or past the end. -/
def splitBytes : List Char → Nat → Option (List Char × List Char)
  | cs, 0 => some ([], cs)
  | [], _ + 1 => none
  | c :: cs, n + 1 =>
    if c.utf8Size ≤ n + 1 then
      (splitBytes cs (n + 1 - c.utf8Size)).map fun (before, after) => (c :: before, after)
    else none

theorem byteLength_append (xs ys : List Char) : byteLength (xs ++ ys) = byteLength xs + byteLength ys := by
  simp [byteLength]

theorem byteLength_cons (c : Char) (cs : List Char) : byteLength (c :: cs) = c.utf8Size + byteLength cs := by
  simp [byteLength]

theorem eq_nil_of_byteLength {cs : List Char} (h : byteLength cs = 0) : cs = [] := by
  cases cs with
  | nil => rfl
  | cons c cs =>
    have hpos := c.utf8Size_pos
    rw [byteLength_cons] at h
    omega

/-- A text is cut where the bytes of its first part end. -/
theorem splitBytes_of_append (before after : List Char) :
    splitBytes (before ++ after) (byteLength before) = some (before, after) := by
  induction before with
  | nil => cases after <;> rfl
  | cons c before ih =>
    have hpos := c.utf8Size_pos
    obtain ⟨n, hn⟩ := Nat.exists_eq_succ_of_ne_zero (show byteLength (c :: before) ≠ 0 by
      rw [byteLength_cons]
      omega)
    have hrest : n + 1 - c.utf8Size = byteLength before := by
      rw [byteLength_cons] at hn
      omega
    have hle : c.utf8Size ≤ n + 1 := by
      rw [byteLength_cons] at hn
      omega
    rw [hn, cons_append, splitBytes, if_pos hle, hrest, ih]
    rfl

variable {cs before after : List Char}

theorem append_of_splitBytes {n : Nat} (h : splitBytes cs n = some (before, after)) :
    cs = before ++ after ∧ byteLength before = n := by
  induction cs generalizing n before with
  | nil =>
    cases n with
    | zero =>
      cases h
      exact ⟨rfl, rfl⟩
    | succ n => cases h
  | cons c cs ih =>
    cases n with
    | zero =>
      cases h
      exact ⟨rfl, rfl⟩
    | succ n => grind [splitBytes, byteLength_cons, Option.map_eq_some_iff]

theorem splitBytes_append {n : Nat}
    (h : splitBytes cs n = some (before, after)) : before ++ after = cs := by
  rw [(append_of_splitBytes h).1]

theorem mem_of_splitBytes {n : Nat} {c : Char}
    (h : splitBytes cs n = some (before, after)) (hc : c ∈ before ∨ c ∈ after) : c ∈ cs := by
  rw [← splitBytes_append h]
  exact mem_append.mpr hc

/-- `str::len`. -/
def strLen (s : String) : Nat := byteLength s.toList

/-- `str::is_char_boundary`. -/
def isCharBoundary (s : String) (i : Nat) : Bool := (splitBytes s.toList i).isSome

variable {s : String}

theorem exists_of_isCharBoundary {i : Nat} (h : isCharBoundary s i = true) :
    ∃ before after, s.toList = before ++ after ∧ byteLength before = i := by
  rw [isCharBoundary, Option.isSome_iff_exists] at h
  obtain ⟨⟨before, after⟩, h⟩ := h
  exact ⟨before, after, append_of_splitBytes h⟩

theorem isCharBoundary_of_append {before after : List Char} (h : s.toList = before ++ after) :
    isCharBoundary s (byteLength before) = true := by
  rw [isCharBoundary, h, splitBytes_of_append]
  rfl

theorem isCharBoundary_zero (s : String) : isCharBoundary s 0 = true :=
  isCharBoundary_of_append (nil_append s.toList).symm

theorem isCharBoundary_strLen (s : String) : isCharBoundary s (strLen s) = true :=
  isCharBoundary_of_append (append_nil s.toList).symm

theorem le_strLen_of_isCharBoundary {i : Nat} (h : isCharBoundary s i = true) : i ≤ strLen s := by
  obtain ⟨before, after, hs, rfl⟩ := exists_of_isCharBoundary h
  rw [strLen, hs, byteLength_append]
  exact Nat.le_add_right _ _

/-- `String::replace_range` of the bytes from `lo` to `hi`. -/
def replaceRange (s : String) (lo hi : Nat) (text : String) : Option String :=
  match splitBytes s.toList lo with
  | none => none
  | some (before, rest) =>
    if lo ≤ hi then
      (splitBytes rest (hi - lo)).map fun (_, after) => String.ofList (before ++ text.toList ++ after)
    else none

theorem exists_of_replaceRange {s s' text : String} {lo hi : Nat} (h : replaceRange s lo hi text = some s') :
    ∃ before middle after, s.toList = before ++ (middle ++ after) ∧ byteLength before = lo ∧
      lo + byteLength middle = hi ∧ s' = String.ofList (before ++ text.toList ++ after) := by
  unfold replaceRange at h
  split at h
  · cases h
  next before rest hlo =>
    split at h
    · next hle =>
      obtain ⟨⟨middle, after⟩, hhi, rfl⟩ := Option.map_eq_some_iff.mp h
      obtain ⟨hs, rfl⟩ := append_of_splitBytes hlo
      obtain ⟨rfl, hmiddle⟩ := append_of_splitBytes hhi
      exact ⟨before, middle, after, hs, rfl, by omega, rfl⟩
    · cases h

theorem replaceRange_of_append {before middle after : List Char}
    (h : s.toList = before ++ (middle ++ after)) (text : String) :
    replaceRange s (byteLength before) (byteLength before + byteLength middle) text =
      some (String.ofList (before ++ text.toList ++ after)) := by
  unfold replaceRange
  rw [h, splitBytes_of_append]
  dsimp only
  rw [if_pos (Nat.le_add_right _ _), Nat.add_sub_cancel_left, splitBytes_of_append]
  rfl

/-- Two prefixes of a text, of which the first has no more bytes. -/
theorem append_of_byteLength_le {xs xs' ys ys' : List Char} (h : xs ++ xs' = ys ++ ys')
    (hle : byteLength xs ≤ byteLength ys) : ∃ zs, ys = xs ++ zs ∧ xs' = zs ++ ys' := by
  rcases append_eq_append_iff.mp h with ⟨zs, hys, hxs'⟩ | ⟨zs, hxs, hys'⟩
  · exact ⟨zs, hys, hxs'⟩
  · grind [byteLength_append, eq_nil_of_byteLength]

/-- An edit between two boundaries is made, and leaves a boundary on both sides of the new text. -/
theorem exists_replaceRange {lo hi : Nat} (hlo : isCharBoundary s lo = true)
    (hhi : isCharBoundary s hi = true) (hle : lo ≤ hi) (text : String) :
    ∃ s', replaceRange s lo hi text = some s' ∧ isCharBoundary s' lo = true ∧
      isCharBoundary s' (lo + strLen text) = true := by
  obtain ⟨before, rest, hs, rfl⟩ := exists_of_isCharBoundary hlo
  obtain ⟨before', after, hs', rfl⟩ := exists_of_isCharBoundary hhi
  obtain ⟨middle, rfl, rfl⟩ := append_of_byteLength_le (hs.symm.trans hs') hle
  rw [byteLength_append, replaceRange_of_append hs]
  refine ⟨_, rfl, ?_, ?_⟩
  · apply isCharBoundary_of_append
    rw [String.toList_ofList, append_assoc]
  · rw [strLen, ← byteLength_append]
    apply isCharBoundary_of_append
    rw [String.toList_ofList]

theorem replaceRange_empty {i : Nat} (h : isCharBoundary s i = true) : replaceRange s i i "" = some s := by
  obtain ⟨before, after, hs, rfl⟩ := exists_of_isCharBoundary h
  have hempty := @replaceRange_of_append s before [] after hs ""
  rw [String.toList_empty, append_nil, ← hs, String.ofList_toList] at hempty
  exact hempty

/-- To put a text in the place of another one is to take that out first. -/
theorem replaceRange_delete_insert {s s' s'' text : String} {lo hi : Nat} (h : replaceRange s lo hi "" = some s')
    (h' : replaceRange s' lo lo text = some s'') : replaceRange s lo hi text = some s'' := by
  obtain ⟨before, middle, after, hs, rfl, rfl, rfl⟩ := exists_of_replaceRange h
  obtain ⟨before', middle', after', hs', hlen, hmiddle, rfl⟩ := exists_of_replaceRange h'
  obtain rfl := eq_nil_of_byteLength (show byteLength middle' = 0 by omega)
  rw [String.toList_ofList, String.toList_empty, append_nil, nil_append] at hs'
  obtain ⟨zs, rfl, rfl⟩ := append_of_byteLength_le hs' (Nat.le_of_eq hlen.symm)
  rw [byteLength_append] at hlen
  obtain rfl := eq_nil_of_byteLength (show byteLength zs = 0 by omega)
  rw [replaceRange_of_append hs, append_nil, nil_append]

/-- `String::insert_str`. -/
def insertStr (s : String) (i : Nat) (text : String) : Option String := replaceRange s i i text

/-- `str::get` of the bytes from `lo` to `hi`. -/
def slice (s : String) (lo hi : Nat) : Option String :=
  match splitBytes s.toList lo with
  | none => none
  | some (_, rest) =>
    if lo ≤ hi then (splitBytes rest (hi - lo)).map fun (middle, _) => String.ofList middle else none

/-- The text from the byte `lo` on. -/
def sliceFrom (s : String) (lo : Nat) : Option String :=
  (splitBytes s.toList lo).map fun (_, after) => String.ofList after

/-- `String::remove`. -/
def removeChar (s : String) (i : Nat) : Option String :=
  match splitBytes s.toList i with
  | some (before, _ :: after) => some (String.ofList (before ++ after))
  | _ => none

/-- A character that starts at a boundary is removed. -/
theorem exists_removeChar {i : Nat} (h : isCharBoundary s i = true) (hlt : i < strLen s) :
    ∃ s', removeChar s i = some s' ∧ isCharBoundary s' i = true := by
  obtain ⟨before, after, hs, rfl⟩ := exists_of_isCharBoundary h
  cases after with
  | nil =>
    rw [strLen, hs, append_nil] at hlt
    omega
  | cons c after =>
    grind [removeChar, splitBytes_of_append, String.toList_ofList, isCharBoundary_of_append]

/-- `str::char_indices`. -/
def charIndices (s : String) : List (Nat × Char) :=
  s.toList.mapIdx fun i c => (byteLength (s.toList.take i), c)

section Edits

variable {s s' text : String} {lo hi i : Nat} {c : Char}

theorem mem_replaceRange (h : replaceRange s lo hi text = some s') (hc : c ∈ s'.toList) :
    c ∈ s.toList ∨ c ∈ text.toList := by
  unfold replaceRange at h
  split at h
  · cases h
  rename_i before rest hlo
  split at h
  · grind [String.toList_ofList, Option.map_eq_some_iff, mem_of_splitBytes]
  · cases h

theorem mem_insertStr (h : insertStr s i text = some s') (hc : c ∈ s'.toList) :
    c ∈ s.toList ∨ c ∈ text.toList :=
  mem_replaceRange h hc

theorem mem_removeChar (h : removeChar s i = some s') (hc : c ∈ s'.toList) : c ∈ s.toList := by
  unfold removeChar at h
  split at h
  · rename_i before d after hsplit
    cases h
    simp only [String.toList_ofList, mem_append] at hc
    exact mem_of_splitBytes hsplit (hc.imp_right (mem_cons_of_mem _))
  · cases h

end Edits

example : splitBytes "aé€".toList 3 = some (['a', 'é'], ['€']) ∧ splitBytes "aé€".toList 2 = none := by decide

end Mizu
