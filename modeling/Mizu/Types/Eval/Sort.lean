import Mizu.Lib.StableSort
import Mizu.Types.Eval.Builtins
import Mizu.Types.Eval.Order

/-!
# What `sort` returns

`Arranged` says what a stable sort of a list by a field is. `applySort_run`: the builtin returns one, and there is no
other, so that it does not matter by which algorithm the list is sorted.

Main result: `compareValues_sorts`.
-/

namespace Mizu

namespace PureBuiltin

open Exec Value

/-- The value of the field the list is sorted on. -/
def keyOf (field : String) (item : Value) : Option Value := item.getField (hashField field) field

/-- What `sort` accepts as a key. -/
def isScalar : Option Value → Bool
  | some (.list _) | some (.record _) | some (.fileHandle _ _) => false
  | _ => true

/-- What `sort` adds to the count for a list of this length. -/
def sortCost (length : Nat) : Nat := min (length * (length.log2 + 1)) u64Max

/-- The order of keys in a direction. -/
def keyLe (direction : String) (a b : Option Value) : Bool :=
  if direction = "desc" then (compareOptions b a).isLE else (compareOptions a b).isLE

/-- `sorted` has the same items, in the order of their keys, those with equal keys in the order they had. -/
structure Arranged (field direction : String) (items sorted : List Value) : Prop where
  perm : sorted.Perm items
  ordered : sorted.Pairwise fun a b => keyLe direction (keyOf field a) (keyOf field b) = true
  stable : ∀ key, sorted.filter (fun item => compareOptions (keyOf field item) key = .eq) =
    items.filter fun item => compareOptions (keyOf field item) key = .eq

/-! ## The order of items -/

section Order

variable {direction : String} (a b : Option Value)

theorem isLE_swap : (compareOptions a b).swap != .gt ↔ (compareOptions b a).isLE := by
  rw [compareOptions_swap a b]
  cases compareOptions a b <;> simp

theorem sortBefore_iff (p q : Option Value × Value) :
    sortBefore direction p q = true ↔ keyLe direction p.1 q.1 = true := by
  unfold sortBefore keyLe
  split
  · exact isLE_swap p.1 q.1
  · cases compareOptions p.1 q.1 <;> simp

theorem keyLe_total : keyLe direction a b = true ∨ keyLe direction b a = true := by
  unfold keyLe
  rw [compareOptions_swap a b]
  split <;> cases compareOptions a b <;> simp

theorem keyLe_trans (a b c : Option Value) (hab : keyLe direction a b = true) (hbc : keyLe direction b c = true) :
    keyLe direction a c = true := by
  unfold keyLe at *
  by_cases h : direction = "desc"
  · rw [if_pos h] at *
    exact compareOptions_trans hbc hab
  · rw [if_neg h] at *
    exact compareOptions_trans hab hbc

/-- Keys are tied in a direction when they compare equal. -/
theorem tied_keyLe : (keyLe direction b a && keyLe direction a b) = decide (compareOptions a b = .eq) := by
  unfold keyLe
  rw [compareOptions_swap a b]
  split <;> cases compareOptions a b <;> simp

end Order

/-! ## The sorted list -/

section Sorted

variable (field direction : String)

/-- The order of items by their keys. -/
def itemLe (a b : Value) : Bool := keyLe direction (keyOf field a) (keyOf field b)

theorem itemLe_total (a b : Value) : itemLe field direction a b = true ∨ itemLe field direction b a = true :=
  keyLe_total _ _

theorem itemLe_trans (a b c : Value) (hab : itemLe field direction a b = true)
    (hbc : itemLe field direction b c = true) : itemLe field direction a c = true :=
  keyLe_trans _ _ _ hab hbc

/-- Sorting the pairs is sorting the items. -/
theorem sortPairs_items (items : List Value) :
    (((items.map fun item => (keyOf field item, item)).insertionSort (sortBefore direction · ·)).map (·.2)) =
      items.insertionSort (itemLe field direction · ·) := by
  rw [← List.map_insertionSort (itemLe field direction · ·) (sortBefore direction · ·), List.map_map]
  · exact List.map_id _
  · exact fun a _ b _ => (sortBefore_iff (keyOf field a, a) (keyOf field b, b)).symm

/-- Items with the key of one item keep their order if items with any key do. -/
theorem filter_tied (a : Value) (l : List Value) :
    l.filter (StableSort.tied (itemLe field direction) a) =
      l.filter fun item => compareOptions (keyOf field item) (keyOf field a) = .eq := by
  refine List.filter_congr fun item _ => ?_
  exact tied_keyLe (keyOf field item) (keyOf field a)

theorem arranged_insertionSort (items : List Value) :
    Arranged field direction items (items.insertionSort (itemLe field direction · ·)) where
  perm := List.perm_insertionSort _ items
  ordered := StableSort.pairwise_insertionSort (itemLe_total field direction) (itemLe_trans field direction) items
  stable key := by
    refine StableSort.filter_insertionSort (fun a b ha hb => ?_) items
    rw [← @tied_keyLe direction, Bool.and_eq_true] at ha hb
    exact keyLe_trans _ _ _ ha.2 hb.1

variable {field direction} in
/-- There is one way to arrange a list. -/
theorem Arranged.eq_insertionSort {items sorted : List Value} (h : Arranged field direction items sorted) :
    sorted = items.insertionSort (itemLe field direction · ·) :=
  StableSort.eq_insertionSort (itemLe_total field direction) (itemLe_trans field direction) h.ordered fun a => by
    rw [filter_tied, filter_tied, h.stable]

end Sorted

/-! ## The builtin -/

section Run

variable {field direction : String} {items : List Value}

theorem sortKey_run (field : String) (item : Value) (n : Nat) :
    sortKey field item n = if isScalar (keyOf field item) then .ok (keyOf field item) n
      else .error (.executionError "sort: cannot sort on complex nested fields (List/Record)") n := by
  unfold sortKey keyOf
  cases item.getField (hashField field) field with
  | none => rfl
  | some key => cases key <;> rfl

theorem sortPairs_run (field : String) (items : List Value) (n : Nat) :
    sortPairs field items n =
      if items.all fun item => isScalar (keyOf field item) then .ok (items.map fun item => (keyOf field item, item)) n
      else .error (.executionError "sort: cannot sort on complex nested fields (List/Record)") n := by
  induction items with
  | nil => rfl
  | cons item items ih =>
    unfold sortPairs
    cases hkey : isScalar (keyOf field item) with
    | false =>
      have hrun := sortKey_run field item n
      rw [hkey, if_neg Bool.false_ne_true] at hrun
      rw [bind_error hrun, List.all_cons, hkey, Bool.false_and, if_neg Bool.false_ne_true]
    | true =>
      have hrun := sortKey_run field item n
      rw [hkey, if_pos rfl] at hrun
      rw [bind_ok hrun, bind_apply, ih, List.all_cons, hkey, Bool.true_and]
      cases items.all fun item => isScalar (keyOf field item) <;> rfl

/-- The limit is not reached, the direction is one of the two, and every key is a scalar. -/
def Sortable (max n : Nat) (field direction : String) (items : List Value) : Prop :=
  saturatingAdd n (sortCost items.length) ≤ max ∧ (direction = "asc" ∨ direction = "desc") ∧
    (items.all fun item => isScalar (keyOf field item)) = true

theorem checkCount_run (max n : Nat) : checkCount max n = if n ≤ max then .ok ⟨⟩ n else .error .timeout n := by
  by_cases h : n ≤ max
  · simp only [checkCount, bind_apply, get_apply, if_pos h, if_neg (Nat.not_lt.mpr h), pure_apply]
  · simp only [checkCount, bind_apply, get_apply, if_neg h, if_pos (Nat.lt_of_not_le h), throw_apply]

/-- A call returns if and only if the list can be sorted, and then returns it sorted. -/
theorem applySort_run (max n : Nat) (field direction : String) (items : List Value) :
    (Sortable max n field direction items →
      applySort max (.list items) (.string field) (.string direction) n =
        .ok (.list (items.insertionSort (itemLe field direction · ·))) (saturatingAdd n (sortCost items.length))) ∧
    (¬ Sortable max n field direction items →
      ∃ e n', applySort max (.list items) (.string field) (.string direction) n = .error e n') := by
  have hcost : min (items.length * if items.length = 0 then 0 else items.length.log2 + 1) u64Max =
      sortCost items.length := by
    unfold sortCost
    split
    · simp [*]
    · rfl
  have hcheck := checkCount_run max (saturatingAdd n (sortCost items.length))
  have hpairs := sortPairs_run field items (saturatingAdd n (sortCost items.length))
  rw [← sortPairs_items]
  unfold Sortable applySort
  simp only [expectList, expectString, bind_apply, pure_apply, addCount, modify_apply, hcost, hcheck]
  by_cases hcount : saturatingAdd n (sortCost items.length) ≤ max
  · by_cases hdir : direction = "asc" ∨ direction = "desc"
    · have hnot : ¬(direction ≠ "asc" ∧ direction ≠ "desc") := by tauto
      rw [if_pos hcount]
      simp only [if_neg hnot, bind_apply, pure_apply, hpairs]
      by_cases hall : (items.all fun item => isScalar (keyOf field item)) = true
      · refine ⟨fun _ => by rw [if_pos hall], fun h => absurd ⟨hcount, hdir, hall⟩ h⟩
      · grind
    · have hnot : direction ≠ "asc" ∧ direction ≠ "desc" := by tauto
      refine ⟨fun h => absurd h.2.1 hdir, fun _ => ?_⟩
      rw [if_pos hcount, if_pos hnot]
      exact ⟨_, _, rfl⟩
  · grind

end Run

end PureBuiltin

open PureBuiltin Value in
/-- `compare_values` is a total preorder whose ties are the values that are the same but for the representation of
numbers and for files, and `sort` returns the stable arrangement by it of every list it accepts. -/
theorem compareValues_sorts :
    (∀ a, compareOptions a a = .eq) ∧
    (∀ a b, compareOptions b a = (compareOptions a b).swap) ∧
    (∀ a b c, (compareOptions a b).isLE → (compareOptions b c).isLE → (compareOptions a c).isLE) ∧
    (∀ a b, compareValues a b = .eq ↔ Same anyFile a b) ∧
    (∀ a b, a.FileFree → (compareValues a b = .eq ↔ Same sameFile a b)) ∧
    ∀ max n field direction items,
      (Sortable max n field direction items →
        ∃ sorted n', applySort max (.list items) (.string field) (.string direction) n = .ok (.list sorted) n' ∧
          Arranged field direction items sorted ∧
          ∀ other, Arranged field direction items other → other = sorted) ∧
      (¬ Sortable max n field direction items →
        ∃ e n', applySort max (.list items) (.string field) (.string direction) n = .error e n') := by
  refine ⟨compareOptions_self, compareOptions_swap, fun _ _ _ => compareOptions_trans, compareValues_eq_iff, ?_, ?_⟩
  · intro a b hfree
    rw [compareValues_eq_iff, same_iff_of_fileFree hfree]
  · intro max n field direction items
    obtain ⟨hsorts, hfails⟩ := applySort_run max n field direction items
    refine ⟨fun h => ⟨_, _, hsorts h, arranged_insertionSort field direction items, ?_⟩, hfails⟩
    exact fun other hother => hother.eq_insertionSort

/-- Two files compare equal, though they are not the same file. -/
theorem compareValues_files : ¬ ∀ a b : Value, a.compareValues b = .eq → Value.Same Value.sameFile a b := by
  intro h
  have hsame := h (.fileHandle 0 ⟨"/home/user/a.txt", "a.txt"⟩) (.fileHandle 1 ⟨"/home/user/b.txt", "b.txt"⟩) rfl
  exact absurd (congrArg FileHandleData.filename hsame) (by decide)

end Mizu
