import Mathlib

/-!
# Stable sorting

`r` is the order of a comparison that is total but may hold both ways between different elements, and `List.insertionSort`
the sort by it.

* `filter_insertionSort`: elements that are equal to each other keep their order.
* `eq_insertionSort`: there is only one stable sort.
-/

namespace StableSort

open List

variable {α : Type} (r : α → α → Bool)

/-- Neither comes before the other. -/
def tied (a b : α) : Bool := r a b && r b a

variable {r}

theorem filter_orderedInsert {p : α → Bool} (hp : ∀ a b, p a = true → p b = true → r a b = true) (a : α)
    (l : List α) : (l.orderedInsert (r · ·) a).filter p = (a :: l).filter p := by
  induction l with
  | nil => rfl
  | cons b l ih =>
    rw [orderedInsert_cons]
    split
    · rfl
    · rename_i hab
      rw [filter_cons, ih]
      cases ha : p a with
      | false => simp only [filter_cons, ha, Bool.false_eq_true, if_false]
      | true =>
        have hb : p b = false := by
          rw [Bool.eq_false_iff]
          exact fun hb => hab (hp a b ha hb)
        simp only [filter_cons, ha, hb, Bool.false_eq_true, if_false, if_true]

/-- The elements of a set without strict comparisons keep their order. -/
theorem filter_insertionSort {p : α → Bool} (hp : ∀ a b, p a = true → p b = true → r a b = true) (l : List α) :
    (l.insertionSort (r · ·)).filter p = l.filter p := by
  induction l with
  | nil => rfl
  | cons a l ih => rw [insertionSort_cons, filter_orderedInsert hp, filter_cons, ih, filter_cons]

section Preorder

theorem tied_self (htotal : ∀ a b, r a b = true ∨ r b a = true) (a : α) : tied r a a = true := by
  grind [tied]

/-- Elements tied with one element are not compared strictly. -/
theorem stable_insertionSort (htrans : ∀ a b c, r a b = true → r b c = true → r a c = true) (a : α) (l : List α) :
    (l.insertionSort (r · ·)).filter (tied r a) = l.filter (tied r a) := by
  refine filter_insertionSort (fun b c hb hc => ?_) l
  simp only [tied, Bool.and_eq_true] at hb hc
  exact htrans b a c hb.2 hc.1

theorem pairwise_insertionSort (htotal : ∀ a b, r a b = true ∨ r b a = true)
    (htrans : ∀ a b c, r a b = true → r b c = true → r a c = true) (l : List α) :
    (l.insertionSort (r · ·)).Pairwise (r · ·) := by
  have hr : Std.Total fun a b => r a b = true := ⟨htotal⟩
  have ht : IsTrans α fun a b => r a b = true := ⟨htrans⟩
  exact List.pairwise_insertionSort _ l

/-- Sorted lists are equal if the elements tied with each one are. -/
theorem eq_of_pairwise (htotal : ∀ a b, r a b = true ∨ r b a = true) {xs ys : List α}
    (hxs : xs.Pairwise (r · ·)) (hys : ys.Pairwise (r · ·))
    (h : ∀ a, xs.filter (tied r a) = ys.filter (tied r a)) : xs = ys := by
  induction xs generalizing ys with
  | nil =>
    cases ys with
    | nil => rfl
    | cons y ys =>
      have hy := h y
      rw [filter_cons_of_pos (tied_self htotal y)] at hy
      cases hy
  | cons x xs ih =>
    cases ys with
    | nil => grind
    | cons y ys =>
      obtain ⟨hx, hxtail⟩ := pairwise_cons.mp hxs
      obtain ⟨hy, hytail⟩ := pairwise_cons.mp hys
      have hself : ∀ a, r a a = true := fun a => (htotal a a).elim id id
      -- Each head occurs in the other list.
      have hxy : r x y = true := by
        have hmem : y ∈ (x :: xs).filter (tied r y) := by grind [tied_self]
        rcases mem_cons.mp (mem_filter.mp hmem).1 with rfl | hmem
        · exact hself y
        · exact hx y hmem
      have hyx : r y x = true := by grind [mem_cons_self]
      have htied : tied r x y = true := by simp [tied, hxy, hyx]
      have hhead := h x
      rw [filter_cons_of_pos (tied_self htotal x), filter_cons_of_pos htied] at hhead
      obtain ⟨rfl, -⟩ := List.cons.inj hhead
      have htail : ∀ a, xs.filter (tied r a) = ys.filter (tied r a) := by grind
      exact congrArg (List.cons x) (ih hxtail hytail htail)

/-- What is sorted and stable is the result of insertion sort. -/
theorem eq_insertionSort (htotal : ∀ a b, r a b = true ∨ r b a = true)
    (htrans : ∀ a b c, r a b = true → r b c = true → r a c = true) {l sorted : List α}
    (hsorted : sorted.Pairwise (r · ·)) (hstable : ∀ a, sorted.filter (tied r a) = l.filter (tied r a)) :
    sorted = l.insertionSort (r · ·) :=
  eq_of_pairwise htotal hsorted (pairwise_insertionSort htotal htrans l) fun a => by
    rw [hstable a, stable_insertionSort htrans]

end Preorder

end StableSort
