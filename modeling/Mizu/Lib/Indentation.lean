import Mathlib

/-!
# Blocks by indentation

Some entries of a list open a block, which holds what comes after them and is indented more. `blockOf` is the
innermost block of an entry: the nearest entry before it that opens a block and is indented less than the entry itself
and everything between the two. A reader keeps the open blocks on a stack.

* `blockOf_eq_some_iff`: the nearest entry of that kind.
* `head?_closeTo_openBlocks`: what a reader finds on its stack.
-/

namespace Indentation

open List

section Close

variable {ι κ : Type} {n : Nat} {stack : List (Nat × ι)}

/-- Closes the blocks that are indented as much or more, the innermost of which come first. -/
def closeTo (n : Nat) (stack : List (Nat × ι)) : List (Nat × ι) := stack.dropWhile fun block => decide (n ≤ block.1)

theorem closeTo_map (f : ι → κ) (stack : List (Nat × ι)) :
    closeTo n (stack.map (Prod.map id f)) = (closeTo n stack).map (Prod.map id f) := by
  induction stack with
  | nil => rfl
  | cons block stack ih =>
    by_cases hle : n ≤ block.1
    · simpa [closeTo, hle] using ih
    · simp [closeTo, hle]

theorem closeTo_suffix (n : Nat) (stack : List (Nat × ι)) : closeTo n stack <:+ stack := dropWhile_suffix _

/-- Of blocks that are indented less and less, those remain that are indented less. -/
theorem closeTo_eq_filter (h : stack.Pairwise fun a b => b.1 < a.1) :
    closeTo n stack = stack.filter fun block => decide (block.1 < n) := by
  induction stack with
  | nil => rfl
  | cons block stack ih =>
    obtain ⟨hhead, htail⟩ := pairwise_cons.mp h
    by_cases hle : n ≤ block.1
    · have hnot : ¬block.1 < n := by omega
      simpa [closeTo, hle, hnot] using ih htail
    · have hlt : block.1 < n := by omega
      have hrest : (stack.filter fun block => decide (block.1 < n)) = stack :=
        filter_eq_self.mpr fun b hb => decide_eq_true ((hhead b hb).trans hlt)
      simp [closeTo, hle, hlt, hrest]

end Close

section Blocks

variable {α : Type} (indent : α → Nat) (opens : α → Bool)

/-- The entry at `j` opens a block, and everything after it is indented more. -/
def isOpen (es : List α) (j : Nat) : Bool :=
  match es[j]? with
  | some b => opens b && (es.drop (j + 1)).all fun e => decide (indent b < indent e)
  | none => false

/-- The nearest entry before the one at `k` that is open up to it. -/
def blockOf (es : List α) (k : Nat) : Option Nat :=
  (List.range k).reverse.find? (isOpen indent opens (es.take (k + 1)))

/-- The open blocks, innermost first: their indents and their places. -/
def openBlocks (es : List α) : List (Nat × Nat) :=
  (List.range es.length).reverse.filterMap fun j =>
    if isOpen indent opens es j then (es[j]?).map fun b => (indent b, j) else none

variable {indent opens} {es fs : List α} {e : α} {j k : Nat}

theorem isOpen_eq_true_iff : isOpen indent opens es j = true ↔
    ∃ b, es[j]? = some b ∧ opens b = true ∧ ∀ i e, j < i → es[i]? = some e → indent b < indent e := by
  unfold isOpen
  cases hb : es[j]? with
  | none => simp
  | some b =>
    simp only [Bool.and_eq_true, all_eq_true, decide_eq_true_eq, Option.some.injEq, exists_eq_left']
    refine and_congr_right fun _ => ⟨fun h i e hlt he => h e ?_, fun h e he => ?_⟩
    · refine mem_iff_getElem?.mpr ⟨i - (j + 1), ?_⟩
      rw [List.getElem?_drop, ← he]
      congr 1
      omega
    · obtain ⟨i, hi⟩ := mem_iff_getElem?.mp he
      rw [List.getElem?_drop] at hi
      exact h _ e (by omega) hi

/-- The innermost block of an entry is the nearest entry before it that opens a block and is indented less than the
entry and everything between the two. -/
theorem blockOf_eq_some_iff : blockOf indent opens es k = some j ↔
    (j < k ∧ isOpen indent opens (es.take (k + 1)) j = true) ∧
      ∀ i, j < i → i < k → isOpen indent opens (es.take (k + 1)) i = false := by
  unfold blockOf
  rw [List.find?_eq_some_iff_getElem]
  constructor
  · rintro ⟨hopen, i, hi, hget, hbefore⟩
    simp only [length_reverse, length_range] at hi
    simp only [getElem_reverse, length_range, getElem_range] at hget
    refine ⟨⟨by omega, hopen⟩, fun i' hlt hlt' => ?_⟩
    have := hbefore (k - 1 - i') (by omega)
    simp only [getElem_reverse, length_range, getElem_range] at this
    rw [show k - 1 - (k - 1 - i') = i' by omega] at this
    simpa using this
  · rintro ⟨⟨hlt, hopen⟩, hnearest⟩
    refine ⟨hopen, k - 1 - j, by simp; omega, ?_, fun i hi => ?_⟩
    · simp only [getElem_reverse, length_range, getElem_range]
      omega
    · grind

/-- Later entries do not matter. -/
theorem blockOf_append (h : k < es.length) : blockOf indent opens (es ++ fs) k = blockOf indent opens es k := by
  unfold blockOf
  rw [take_append_of_le_length (by omega)]

theorem isOpen_concat_self : isOpen indent opens (es ++ [e]) es.length = opens e := by
  simp [isOpen]

theorem isOpen_concat_of_lt {b : α} (h : es[j]? = some b) :
    isOpen indent opens (es ++ [e]) j = (isOpen indent opens es j && decide (indent b < indent e)) := by
  grind [List.getElem?_append_left, Bool.and_assoc, isOpen]

theorem openBlocks_lt {block : Nat × Nat} (h : block ∈ openBlocks indent opens es) : block.2 < es.length := by
  obtain ⟨j, hj, hblock⟩ := mem_filterMap.mp h
  obtain ⟨-, hblock⟩ := Option.ite_none_right_eq_some.mp hblock
  obtain ⟨b, -, rfl⟩ := Option.map_eq_some_iff.mp hblock
  simpa using hj

theorem blockOf_lt (h : blockOf indent opens es k = some j) : j < k := (blockOf_eq_some_iff.mp h).1.1

theorem openBlocks_pairwise (es : List α) : (openBlocks indent opens es).Pairwise fun a b => b.1 < a.1 := by
  unfold openBlocks
  rw [pairwise_filterMap]
  refine (pairwise_reverse.mpr (pairwise_lt_range (n := es.length))).imp ?_
  intro i j hlt a ha b hb
  obtain ⟨hopen, ha⟩ := Option.ite_none_right_eq_some.mp ha
  obtain ⟨hopen', hb⟩ := Option.ite_none_right_eq_some.mp hb
  obtain ⟨x, hx, rfl⟩ := Option.map_eq_some_iff.mp ha
  obtain ⟨y, hy, rfl⟩ := Option.map_eq_some_iff.mp hb
  obtain ⟨y', hy', -, hless⟩ := isOpen_eq_true_iff.mp hopen'
  obtain rfl : y = y' := Option.some.inj (hy.symm.trans hy')
  exact hless i x hlt hx

theorem closeTo_openBlocks (es : List α) (e : α) :
    closeTo (indent e) (openBlocks indent opens es) =
      (List.range es.length).reverse.filterMap fun j =>
        if isOpen indent opens (es ++ [e]) j then (es[j]?).map fun b => (indent b, j) else none := by
  rw [closeTo_eq_filter (openBlocks_pairwise es), openBlocks, filter_filterMap]
  refine filterMap_congr fun j hj => ?_
  have hlt : j < es.length := by simpa using hj
  have hb : es[j]? = some es[j] := List.getElem?_eq_getElem hlt
  rw [isOpen_concat_of_lt hb, hb]
  cases isOpen indent opens es j with
  | false => rfl
  | true => grind

theorem openBlocks_concat (es : List α) (e : α) :
    openBlocks indent opens (es ++ [e]) =
      (if opens e then [(indent e, es.length)] else []) ++ closeTo (indent e) (openBlocks indent opens es) := by
  rw [closeTo_openBlocks, openBlocks, length_append, length_singleton, range_succ, reverse_append,
    reverse_singleton, singleton_append, filterMap_cons, isOpen_concat_self, List.getElem?_concat_length]
  have hrest : (List.range es.length).reverse.filterMap (fun j =>
        if isOpen indent opens (es ++ [e]) j then ((es ++ [e])[j]?).map fun b => (indent b, j) else none) =
      (List.range es.length).reverse.filterMap fun j =>
        if isOpen indent opens (es ++ [e]) j then (es[j]?).map fun b => (indent b, j) else none := by
    refine filterMap_congr fun j hj => ?_
    rw [List.getElem?_append_left (by simpa using hj)]
  rw [hrest]
  cases opens e <;> rfl

theorem head?_closeTo_openBlocks (es : List α) (e : α) :
    (closeTo (indent e) (openBlocks indent opens es)).head?.map (·.2) = blockOf indent opens (es ++ [e]) es.length := by
  rw [closeTo_openBlocks, blockOf, take_of_length_le (by simp), List.head?_filterMap]
  have hmem : ∀ j ∈ (List.range es.length).reverse, j < es.length := by simp
  generalize (List.range es.length).reverse = js at hmem
  induction js with
  | nil => rfl
  | cons j js ih => grind

end Blocks

end Indentation
