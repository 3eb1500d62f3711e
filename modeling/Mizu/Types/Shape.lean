import Mizu.Types.Value

/-!
# Equal up to the representation of numbers

A value's `shape` does not say whether a number is an integer or a decimal. `shape_of_budgetEq`: a
budgeted comparison that answers "equal" is right about the shapes.
-/

namespace Mizu

open List

/-- A value with its numbers scaled. -/
inductive Shape where
  | null
  | bool (b : Bool)
  | num (scaled : Int)
  | string (s : String)
  | list (items : List Shape)
  | record (fields : List (String × UInt32 × Shape))
  | fileHandle (arc : Nat)

namespace Value

mutual

def shape : Value → Shape
  | null => .null
  | bool b => .bool b
  | int i => .num (i.toInt * decimalScale)
  | decimal i => .num i.toInt
  | string s => .string s
  | list items => .list (shapeList items)
  | record fields => .record (shapeFields fields)
  | fileHandle arc _ => .fileHandle arc

def shapeList : List Value → List Shape
  | [] => []
  | v :: vs => v.shape :: shapeList vs

def shapeFields : List (RecordField Value) → List (String × UInt32 × Shape)
  | [] => []
  | f :: fs => (f.key, f.hash, f.value.shape) :: shapeFields fs

end

/-- Equal but for the representation of numbers. -/
def NumEq (a b : Value) : Prop := a.shape = b.shape

theorem shapeList_of_zip {xs ys : List Value} (hlen : xs.length = ys.length)
    (h : ∀ p ∈ xs.zip ys, p.1.NumEq p.2) : shapeList xs = shapeList ys := by
  induction xs generalizing ys with
  | nil =>
    cases ys with
    | nil => rfl
    | cons => simp at hlen
  | cons x xs ih =>
    cases ys with
    | nil => simp at hlen
    | cons y ys =>
      have hhead : x.shape = y.shape := h (x, y) (by simp)
      have htail := ih (by simpa using hlen) fun p hp => h p (by simp [hp])
      simp only [shapeList, hhead, htail]

theorem shapeFields_of_zip {xs ys : List (RecordField Value)} (hlen : xs.length = ys.length)
    (hkeys : ∀ p ∈ xs.zip ys, p.1.hash = p.2.hash ∧ p.1.key = p.2.key)
    (h : ∀ p ∈ xs.zip ys, p.1.value.NumEq p.2.value) : shapeFields xs = shapeFields ys := by
  induction xs generalizing ys with
  | nil =>
    cases ys with
    | nil => rfl
    | cons => simp at hlen
  | cons x xs ih =>
    cases ys with
    | nil => simp at hlen
    | cons y ys =>
      have hhead : x.value.shape = y.value.shape := h (x, y) (by simp)
      obtain ⟨hhash, hkey⟩ := hkeys (x, y) (by simp)
      have htail := ih (by simpa using hlen) (fun p hp => hkeys p (by simp [hp]))
        fun p hp => h p (by simp [hp])
      simp only [shapeFields, hhead, htail]
      rw [show x.hash = y.hash from hhash, show x.key = y.key from hkey]

theorem nodeCount_pos (v : Value) : 0 < v.nodeCount := by
  cases v <;> simp only [nodeCount] <;> omega

/-- The nodes of the left sides of a work stack. -/
def stackCount (stack : List (Value × Value)) : Nat := (stack.map (·.1.nodeCount)).sum

theorem stackCount_append (s t : List (Value × Value)) :
    stackCount (s ++ t) = stackCount s + stackCount t := by simp [stackCount]

theorem stackCount_reverse (s : List (Value × Value)) : stackCount s.reverse = stackCount s := by
  simp [stackCount, sum_reverse]

theorem stackCount_zip_le (xs ys : List Value) : stackCount (xs.zip ys) ≤ nodeCountList xs := by
  induction xs generalizing ys with
  | nil => simp [stackCount]
  | cons x xs ih =>
    cases ys with
    | nil => simp [stackCount]
    | cons y ys => grind [stackCount, nodeCountList]

theorem stackCount_fields_le (xs ys : List (RecordField Value)) :
    stackCount ((xs.zip ys).map fun (fx, fy) => (fx.value, fy.value)) ≤ nodeCountFields xs := by
  induction xs generalizing ys with
  | nil => simp [stackCount]
  | cons x xs ih =>
    cases ys with
    | nil => simp [stackCount]
    | cons y ys => grind [stackCount, nodeCountFields]

/-- What one round of the comparison asks for. -/
structure Reduces (a b : Value) (pairs : List (Value × Value)) : Prop where
  equal : (∀ p ∈ pairs, p.1.NumEq p.2) → a.NumEq b
  smaller : stackCount pairs < a.nodeCount

open Exec in
theorem reduces_of_pair {arc : ArcEq} {max n n' : Nat} {a b : Value} {pairs : List (Value × Value)}
    (h : budgetEqPair arc max a b n = .ok (some pairs) n') : Reduces a b pairs := by
  have hself : ∀ {a b : Value}, a = b → Reduces a b [] := by
    rintro a b rfl
    exact ⟨fun _ => rfl, a.nodeCount_pos⟩
  have hif : ∀ {p : Prop} [Decidable p] {pairs' : List (Value × Value)} {n n' : Nat},
      (pure (if p then some [] else none) : EStateM MizuError Nat _) n = .ok (some pairs') n' →
        p ∧ pairs' = [] := by
    intro p _ pairs' n n' h
    by_cases hp : p
    · rw [if_pos hp] at h
      cases h
      exact ⟨hp, rfl⟩
    · rw [if_neg hp] at h
      cases h
  unfold budgetEqPair at h
  split at h
  · cases h
    exact hself rfl
  · obtain ⟨rfl, rfl⟩ := hif h
    exact hself rfl
  · obtain ⟨rfl, rfl⟩ := hif h
    exact hself rfl
  · obtain ⟨rfl, rfl⟩ := hif h
    exact hself rfl
  · obtain ⟨heq, rfl⟩ := hif h
    exact ⟨fun _ => congrArg Shape.num heq, nodeCount_pos _⟩
  · obtain ⟨heq, rfl⟩ := hif h
    exact ⟨fun _ => congrArg Shape.num heq.symm, nodeCount_pos _⟩
  · split at h
    · rename_i hsame
      cases h
      exact hself (arc.eq_of_same hsame)
    · obtain ⟨_, m, _, h⟩ := of_bind_ok h
      obtain ⟨rfl, rfl⟩ := hif h
      exact hself rfl
  · obtain ⟨heq, rfl⟩ := hif h
    exact ⟨fun _ => congrArg Shape.fileHandle heq, nodeCount_pos _⟩
  · split at h
    · rename_i hsame
      cases h
      exact hself (arc.eq_of_same hsame)
    split at h
    · cases h
    rename_i xs ys _ hlen
    obtain ⟨_, m, _, h⟩ := of_bind_ok h
    cases h
    refine ⟨fun hpairs => congrArg Shape.list (shapeList_of_zip (not_not.mp hlen) hpairs), ?_⟩
    have := stackCount_zip_le xs ys
    simp only [nodeCount]
    omega
  · split at h
    · rename_i hsame
      cases h
      exact hself (arc.eq_of_same hsame)
    split at h
    · cases h
    rename_i xs ys _ hlen
    obtain ⟨_, m, _, h⟩ := of_bind_ok h
    dsimp only at h
    split at h
    · cases h
    rename_i hkeys
    cases h
    have hsame : ∀ p ∈ xs.zip ys, p.1.hash = p.2.hash ∧ p.1.key = p.2.key := by grind
    refine ⟨fun hpairs => ?_, ?_⟩
    · refine congrArg Shape.record (shapeFields_of_zip (not_not.mp hlen) hsame fun p hp => ?_)
      exact hpairs (p.1.value, p.2.value) (mem_map.mpr ⟨p, hp, rfl⟩)
    · grind [nodeCount, Nat.lt_of_le_of_lt, stackCount_fields_le]
  · cases h

open Exec in
theorem numEq_of_loop {arc : ArcEq} {max : Nat} (fuel : Nat) {stack : List (Value × Value)} {n n' : Nat}
    (hfuel : stackCount stack ≤ fuel) (h : budgetEqLoop arc max fuel stack n = .ok true n') :
    ∀ p ∈ stack, p.1.NumEq p.2 := by
  induction fuel generalizing stack n with
  | zero =>
    cases stack with
    | nil => simp
    | cons p stack => grind [stackCount, p.1.nodeCount_pos]
  | succ fuel ih =>
    cases stack with
    | nil => simp
    | cons p stack =>
      obtain ⟨a, b⟩ := p
      unfold budgetEqLoop at h
      obtain ⟨_, m, _, h⟩ := of_bind_ok h
      obtain ⟨pairs, m', hpairs, h⟩ := of_bind_ok h
      cases pairs with
      | none => cases h
      | some pairs =>
        have hred := reduces_of_pair hpairs
        have hsmaller := hred.smaller
        have hrest : stackCount (pairs.reverse ++ stack) ≤ fuel := by
          grind [stackCount_append, stackCount_reverse, stackCount]
        have hall := ih hrest h
        intro q hq
        rcases mem_cons.mp hq with rfl | hq
        · exact hred.equal fun p hp => hall p (by simp [hp])
        · exact hall q (by simp [hq])

/-- The comparison is right when it answers "equal". -/
theorem shape_of_budgetEq {arc : ArcEq} {max n n' : Nat} {a b : Value}
    (h : budgetEq arc a b max n = .ok true n') : a.NumEq b :=
  numEq_of_loop a.nodeCount (by simp [stackCount]) h (a, b) (by simp)

end Value

end Mizu
