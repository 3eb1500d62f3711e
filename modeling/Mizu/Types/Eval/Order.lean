import Mizu.Types.Eval.Compare
import Mizu.Types.Equality

/-!
# The order of values is a total preorder

A value is coded as a word (`code`) such that comparing two values is comparing their words letter by letter
(`compareValues_eq_compare`). What holds of the order of words then holds of values: `compareOptions_self`,
`compareOptions_swap`, `compareOptions_trans`.

`compareValues_eq_iff`: values that compare equal are the same up to the representation of numbers and to their files.
-/

namespace Mizu

open Std List

/-- One letter of a value's code: a number, or a text with number 0. -/
structure Letter where
  number : Int
  text : String

namespace Letter

instance : Ord Letter where
  compare := compareLex (compareOn (·.number)) (compareOn (·.text))

instance : TransOrd Letter := inferInstanceAs <| TransCmp (compareLex _ _)

def ofNumber (n : Int) : Letter := ⟨n, ""⟩

def ofText (s : String) : Letter := ⟨0, s⟩

theorem compare_ofNumber (m n : Int) : compare (ofNumber m) (ofNumber n) = compare m n := by
  show (compare m n).then (compare "" "") = compare m n
  rw [ReflOrd.compare_self, Ordering.then_eq]

theorem compare_ofText (s t : String) : compare (ofText s) (ofText t) = compare s t := by
  show (compare (0 : Int) 0).then (compare s t) = compare s t
  rw [ReflOrd.compare_self, Ordering.eq_then]

end Letter

namespace Value

open Letter

mutual

/-- The value as a word: its kind, then what it holds. Comparing values is comparing words. -/
def code : Value → List Letter
  | null => [ofNumber 1]
  | bool b => [ofNumber 2, ofNumber b.toInt]
  | int i => [ofNumber 3, ofNumber (i.toInt * decimalScale)]
  | decimal i => [ofNumber 3, ofNumber i.toInt]
  | string s => [ofNumber 4, ofText s]
  | list items => ofNumber 5 :: codeList items
  | record fields => ofNumber 6 :: codeFields fields
  | fileHandle _ _ => [ofNumber 7]

/-- A 1 announces an element, and a 0 ends the list. -/
def codeList : List Value → List Letter
  | [] => [ofNumber 0]
  | v :: vs => ofNumber 1 :: (v.code ++ codeList vs)

def codeFields : List (RecordField Value) → List Letter
  | [] => [ofNumber 0]
  | f :: fs => ofNumber 1 :: ofText f.key :: (f.value.code ++ codeFields fs)

end

theorem compare_cons {x y : Letter} {xs ys : List Letter} :
    compare (x :: xs) (y :: ys) = (compare x y).then (compare xs ys) := List.compareLex_cons_cons

theorem compare_scaled (x y : Int) : compare (x * decimalScale) (y * decimalScale) = compare x y := by
  have hlt : x * decimalScale < y * decimalScale ↔ x < y := by unfold decimalScale; omega
  have heq : x * decimalScale = y * decimalScale ↔ x = y := by unfold decimalScale; omega
  simp only [compare, compareOfLessAndEq, hlt, heq]

/-- The code begins with the kind. -/
theorem code_eq (v : Value) : ∃ body, v.code = ofNumber v.variantWeight :: body := by
  cases v <;> exact ⟨_, rfl⟩

/-- Values of different kinds compare by kind. -/
theorem compareValues_of_ne {a b : Value} (h : a.variantWeight ≠ b.variantWeight) :
    compareValues a b = compare a.variantWeight b.variantWeight := by
  cases a <;> cases b <;> first | rfl | exact absurd rfl h

theorem compare_code_of_ne {a b : Value} (h : a.variantWeight ≠ b.variantWeight) (r s : List Letter) :
    compare (a.code ++ r) (b.code ++ s) = (compareValues a b).then (compare r s) := by
  obtain ⟨abody, ha⟩ := a.code_eq
  obtain ⟨bbody, hb⟩ := b.code_eq
  have hcast : compare (a.variantWeight : Int) b.variantWeight = compare a.variantWeight b.variantWeight := by
    simp only [compare, compareOfLessAndEq, Int.ofNat_lt, Int.ofNat_inj]
  have hne : compare a.variantWeight b.variantWeight ≠ .eq := fun he => h (LawfulEqOrd.eq_of_compare he)
  rw [compareValues_of_ne h, ha, hb, cons_append, cons_append, compare_cons, compare_ofNumber, hcast]
  cases hord : compare a.variantWeight b.variantWeight with
  | eq => exact absurd hord hne
  | lt => rfl
  | gt => rfl

mutual

theorem compare_code (a b : Value) (r s : List Letter) :
    compare (a.code ++ r) (b.code ++ s) = (compareValues a b).then (compare r s) := by
  by_cases h : a.variantWeight = b.variantWeight
  · match a, b with
    | null, null | fileHandle .., fileHandle .. => rfl
    | bool x, bool y => cases x <;> cases y <;> rfl
    | int x, int y =>
      simp only [code, cons_append, nil_append, compare_cons, compare_ofNumber, compare_scaled,
        ReflOrd.compare_self, Ordering.eq_then, compareValues]
    | decimal x, decimal y | int x, decimal y | decimal x, int y =>
      simp only [code, cons_append, nil_append, compare_cons, compare_ofNumber, ReflOrd.compare_self,
        Ordering.eq_then, compareValues]
    | string x, string y =>
      simp only [code, cons_append, nil_append, compare_cons, compare_ofText,
        ReflOrd.compare_self, Ordering.eq_then, compareValues]
    | list xs, list ys => exact compare_codeList xs ys r s
    | record xs, record ys => exact compare_codeFields xs ys r s
  · exact compare_code_of_ne h r s

theorem compare_codeList (xs ys : List Value) (r s : List Letter) :
    compare (codeList xs ++ r) (codeList ys ++ s) = (compareLists xs ys).then (compare r s) := by
  match xs, ys with
  | [], [] | [], _ :: _ | _ :: _, [] => rfl
  | x :: xs, y :: ys =>
    have htail := compare_codeList xs ys r s
    rw [codeList, codeList, cons_append, cons_append, append_assoc, append_assoc, compare_cons,
      ReflOrd.compare_self, Ordering.eq_then, compare_code x y, htail, compareLists]
    cases compareValues x y <;> rfl

theorem compare_codeFields (xs ys : List (RecordField Value)) (r s : List Letter) :
    compare (codeFields xs ++ r) (codeFields ys ++ s) = (compareFields xs ys).then (compare r s) := by
  match xs, ys with
  | [], [] | [], _ :: _ | _ :: _, [] => rfl
  | x :: xs, y :: ys =>
    have htail := compare_codeFields xs ys r s
    have hvalue := compare_code x.value y.value (codeFields xs ++ r) (codeFields ys ++ s)
    simp only [codeFields, cons_append, append_assoc, compare_cons, ReflOrd.compare_self,
      Ordering.eq_then, compare_ofText, hvalue, htail, compareFields]
    cases compare x.key y.key <;> cases compareValues x.value y.value <;> rfl

end

theorem compareValues_eq_compare (a b : Value) : compareValues a b = compare a.code b.code := by
  have h := compare_code a b [] []
  rw [append_nil, append_nil, ReflOrd.compare_self, Ordering.then_eq] at h
  exact h.symm

/-! ## A total preorder -/

theorem compareValues_self (a : Value) : compareValues a a = .eq := by
  rw [compareValues_eq_compare, ReflOrd.compare_self]

theorem compareValues_swap (a b : Value) : compareValues b a = (compareValues a b).swap := by
  rw [compareValues_eq_compare, compareValues_eq_compare, OrientedOrd.eq_swap]

theorem compareValues_trans {a b c : Value} (hab : (compareValues a b).isLE) (hbc : (compareValues b c).isLE) :
    (compareValues a c).isLE := by
  grind [compareValues_eq_compare, TransOrd.isLE_trans]

theorem compareOptions_self (a : Option Value) : compareOptions a a = .eq := by
  cases a with
  | none => rfl
  | some a => exact compareValues_self a

theorem compareOptions_swap (a b : Option Value) : compareOptions b a = (compareOptions a b).swap := by
  cases a <;> cases b
  · rfl
  · rfl
  · rfl
  · exact compareValues_swap _ _

theorem compareOptions_trans {a b c : Option Value} (hab : (compareOptions a b).isLE)
    (hbc : (compareOptions b c).isLE) : (compareOptions a c).isLE := by
  cases a with
  | none => cases c <;> rfl
  | some a =>
    cases b with
    | none => cases hab
    | some b =>
      cases c with
      | none => cases hbc
      | some c => exact compareValues_trans hab hbc

/-! ## Values that compare equal -/

mutual

theorem compareValues_eq_iff (a b : Value) : compareValues a b = .eq ↔ Same anyFile a b := by
  by_cases h : a.variantWeight = b.variantWeight
  · match a, b with
    | null, null | fileHandle .., fileHandle .. => exact ⟨fun _ => trivial, fun _ => rfl⟩
    | bool x, bool y => cases x <;> cases y <;> simp [compareValues, Same]
    | int x, int y => rw [compareValues, Same, ← compare_scaled, Std.compare_eq_iff_eq]
    | decimal x, decimal y | int x, decimal y | decimal x, int y => rw [compareValues, Same, Std.compare_eq_iff_eq]
    | string x, string y => rw [compareValues, Same, Std.compare_eq_iff_eq]
    | list xs, list ys => rw [compareValues, Same, compareLists_eq_iff xs ys]
    | record xs, record ys => rw [compareValues, Same, compareFields_eq_iff xs ys]
  · rw [compareValues_of_ne h]
    refine ⟨fun he => absurd (LawfulEqOrd.eq_of_compare he) h, fun hsame => ?_⟩
    cases a <;> cases b <;> first | exact absurd rfl h | exact hsame.elim

theorem compareLists_eq_iff (xs ys : List Value) : compareLists xs ys = .eq ↔ SameList anyFile xs ys := by
  match xs, ys with
  | [], [] => exact ⟨fun _ => trivial, fun _ => rfl⟩
  | [], _ :: _ | _ :: _, [] => exact ⟨nofun, False.elim⟩
  | x :: xs, y :: ys =>
    rw [compareLists, SameList, ← compareValues_eq_iff x y, ← compareLists_eq_iff xs ys]
    cases compareValues x y <;> simp

theorem compareFields_eq_iff (xs ys : List (RecordField Value)) :
    compareFields xs ys = .eq ↔ SameFields anyFile xs ys := by
  match xs, ys with
  | [], [] => exact ⟨fun _ => trivial, fun _ => rfl⟩
  | [], _ :: _ | _ :: _, [] => exact ⟨nofun, False.elim⟩
  | x :: xs, y :: ys =>
    rw [compareFields, SameFields, ← compareValues_eq_iff x.value y.value, ← compareFields_eq_iff xs ys]
    cases hkey : compare x.key y.key with
    | eq =>
      have hsame : x.key = y.key := LawfulEqOrd.eq_of_compare hkey
      cases compareValues x.value y.value <;> simp [hsame]
    | lt | gt =>
      have hne : x.key ≠ y.key := fun he => by simp [he] at hkey
      simp [hne]

end

end Value

end Mizu
