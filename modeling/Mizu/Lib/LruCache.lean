import Mathlib

/-!
# A cache that forgets what was used longest ago

The entries of an `LruCache` are listed from the one used last to the one used longest ago. Reading a key and
writing one make it the one used last; writing a new key to a full cache drops the last entry.

* `peek_promote`: reading changes no slot.
* `peek_put_self`, `peek_put_ne`: a write sets its own slot, and may only empty another.
-/

structure LruCache (κ ν : Type) where
  capacity : Nat
  /-- The one used last first. -/
  entries : List (κ × ν)
  capacity_pos : 0 < capacity
  length_le : entries.length ≤ capacity

namespace LruCache

open List

variable {κ ν : Type} [DecidableEq κ]

def new (capacity : Nat) (h : 0 < capacity) : LruCache κ ν := ⟨capacity, [], h, Nat.zero_le _⟩

/-- The value of a key. -/
def peek (cache : LruCache κ ν) (k : κ) : Option ν := cache.entries.lookup k

/-- The entries without a key. -/
def others (cache : LruCache κ ν) (k : κ) : List (κ × ν) := cache.entries.filter (·.1 ≠ k)

theorem lookup_filter_ne {k k' : κ} (h : k' ≠ k) (entries : List (κ × ν)) :
    (entries.filter (·.1 ≠ k)).lookup k' = entries.lookup k' := by
  induction entries with
  | nil => rfl
  | cons entry entries ih => grind

theorem lookup_take {k : κ} {v : ν} (n : Nat) {entries : List (κ × ν)}
    (h : (entries.take n).lookup k = some v) : entries.lookup k = some v := by
  induction entries generalizing n with
  | nil =>
    rw [take_nil] at h
    exact h
  | cons entry entries ih =>
    obtain ⟨key, u⟩ := entry
    cases n with
    | zero => cases h
    | succ n => grind

theorem length_others_lt {cache : LruCache κ ν} {k : κ} (h : (cache.peek k).isSome) :
    (cache.others k).length < cache.entries.length := by
  rw [others, length_filter_lt_length_iff_exists]
  obtain ⟨v, hv⟩ := Option.isSome_iff_exists.mp h
  refine ⟨(k, v), ?_, by simp⟩
  rw [peek] at hv
  obtain ⟨l₁, l₂, heq, -⟩ := lookup_eq_some_iff.mp hv
  rw [heq]
  exact mem_append_right _ mem_cons_self

/-- A key that is used. -/
def promote (cache : LruCache κ ν) (k : κ) : LruCache κ ν :=
  match h : cache.peek k with
  | some v =>
    { cache with
      entries := (k, v) :: cache.others k
      length_le := Nat.le_trans (length_others_lt (by rw [h]; rfl)) cache.length_le }
  | none => cache

def get (cache : LruCache κ ν) (k : κ) : Option ν × LruCache κ ν := (cache.peek k, cache.promote k)

def put (cache : LruCache κ ν) (k : κ) (v : ν) : LruCache κ ν :=
  if h : (cache.peek k).isSome then
    { cache with
      entries := (k, v) :: cache.others k
      length_le := Nat.le_trans (length_others_lt h) cache.length_le }
  else
    { cache with
      entries := (k, v) :: cache.entries.take (cache.capacity - 1)
      length_le := by
        have hpos := cache.capacity_pos
        have htake := List.length_take_le (cache.capacity - 1) cache.entries
        simp only [List.length_cons]
        omega }

section Slots

variable (cache : LruCache κ ν) (k : κ)

theorem lookup_cons_others {k' : κ} (v : ν) :
    ((k, v) :: cache.others k).lookup k' = if k' = k then some v else cache.peek k' := by
  rw [lookup_cons]
  by_cases h : k' = k
  · simp [h]
  · rw [beq_false_of_ne h, if_neg h]
    exact lookup_filter_ne h cache.entries

@[simp] theorem peek_promote (k' : κ) : (cache.promote k).peek k' = cache.peek k' := by
  unfold promote
  split
  · rename_i v hv
    show ((k, v) :: cache.others k).lookup k' = _
    rw [lookup_cons_others]
    split
    · rename_i heq
      rw [heq, hv]
    · rfl
  · rfl

@[simp] theorem peek_put_self (v : ν) : (cache.put k v).peek k = some v := by
  unfold put
  split <;> simp [peek]

/-- A write to another key changes a slot only by emptying it. -/
theorem peek_put_ne {k' : κ} {v w : ν} (hne : k' ≠ k) (h : (cache.put k v).peek k' = some w) :
    cache.peek k' = some w := by
  unfold put at h
  split at h
  · have h' : ((k, v) :: cache.others k).lookup k' = some w := h
    rwa [lookup_cons_others, if_neg hne] at h'
  · have h' : ((k, v) :: cache.entries.take (cache.capacity - 1)).lookup k' = some w := h
    rw [lookup_cons, beq_false_of_ne hne] at h'
    exact lookup_take _ h'

end Slots

end LruCache
