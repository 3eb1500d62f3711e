import Mizu.Types.Value

/-!
# The nesting of values

How deep a value is nested, whether it carries a file, and what `recordFromUnsorted` makes of fields:
a record in order (`recordFromUnsorted_spec`), the same one if they are in order already
(`recordFromUnsorted_fields`).
-/

namespace Mizu

open List

namespace Value

mutual

/-- How many lists and records lie around the innermost value. -/
def depth : Value → Nat
  | list items => depthList items
  | record fields => depthFields fields
  | _ => 0

def depthList : List Value → Nat
  | [] => 0
  | v :: vs => max (v.depth + 1) (depthList vs)

def depthFields : List (RecordField Value) → Nat
  | [] => 0
  | f :: fs => max (f.value.depth + 1) (depthFields fs)

end

mutual

/-- No file at any depth. -/
def FileFree : Value → Prop
  | fileHandle _ _ => False
  | list items => FileFreeList items
  | record fields => FileFreeFields fields
  | _ => True

def FileFreeList : List Value → Prop
  | [] => True
  | v :: vs => v.FileFree ∧ FileFreeList vs

def FileFreeFields : List (RecordField Value) → Prop
  | [] => True
  | f :: fs => f.value.FileFree ∧ FileFreeFields fs

end

/-! ## Records -/

variable {fs : List (RecordField Value)}

/-- Fields with different keys are all kept. -/
theorem dedupFields_of_lt (h : fs.Pairwise fun f g => f.key < g.key) : dedupFields fs = fs := by
  induction fs with
  | nil => rfl
  | cons f fs ih =>
    obtain ⟨hhead, htail⟩ := pairwise_cons.mp h
    rw [dedupFields, ih htail]
    cases fs with
    | nil => rfl
    | cons g gs => grind

/-- A record in order is what its fields make. -/
theorem recordFromUnsorted_fields
    (hsorted : fs.Pairwise fun f g => f.key < g.key) (hhash : ∀ f ∈ fs, f.hash = hashField f.key) :
    recordFromUnsorted (fs.map fun f => (f.key, f.value)) = record fs := by
  have hfields : (fs.map fun f => (f.key, f.value)).map
      (fun kv => { key := kv.1, hash := hashField kv.1, value := kv.2 : RecordField Value }) = fs := by
    rw [map_map]
    conv_rhs => rw [← map_id fs]
    exact map_congr_left fun f hf => by simp [← hhash f hf]
  have hle : fs.Pairwise fun f g => f.key ≤ g.key := hsorted.imp fun h => h.le
  show record (dedupFields (((fs.map fun f => (f.key, f.value)).map _).insertionSort _)) = _
  rw [hfields, hle.insertionSort_eq, dedupFields_of_lt hsorted]

theorem dedupFields_sublist : ∀ fs : List (RecordField Value), (dedupFields fs).Sublist fs
  | [] => .slnil
  | f :: fs => by
    have ih := dedupFields_sublist fs
    rw [dedupFields]
    split
    · exact (nil_sublist fs).cons_cons f
    · grind

theorem dedupFields_sorted : ∀ {fs : List (RecordField Value)},
    fs.Pairwise (fun f g => f.key ≤ g.key) → (dedupFields fs).Pairwise fun f g => f.key < g.key
  | [], _ => .nil
  | f :: fs, h => by
    obtain ⟨hhead, htail⟩ := pairwise_cons.mp h
    have ih := dedupFields_sorted htail
    have hsub := dedupFields_sublist fs
    rw [dedupFields]
    split
    · exact pairwise_singleton _ f
    · rename_i g gs heq
      rw [heq] at ih hsub
      have hg : f.key ≤ g.key := hhead g (hsub.mem (mem_cons_self ..))
      obtain ⟨hgs, hrest⟩ := pairwise_cons.mp ih
      split
      · rename_i hkey
        exact pairwise_cons.mpr ⟨fun x hx => hkey ▸ hgs x hx, hrest⟩
      · grind

/-- A record that was made: in order, with its hashes, out of the pairs. -/
theorem recordFromUnsorted_spec (pairs : List (String × Value)) :
    ∃ fs, recordFromUnsorted pairs = record fs ∧ fs.Pairwise (fun f g => f.key < g.key) ∧
      (∀ f ∈ fs, f.hash = hashField f.key) ∧ ∀ f ∈ fs, (f.key, f.value) ∈ pairs := by
  refine ⟨_, rfl, ?_, ?_, ?_⟩
  · exact dedupFields_sorted (pairwise_insertionSort _ _)
  all_goals
    intro f hf
    have hmem := (perm_insertionSort _ _).mem_iff.mp ((dedupFields_sublist _).mem hf)
    obtain ⟨⟨key, v⟩, hp, rfl⟩ := mem_map.mp hmem
  · rfl
  · exact hp

variable {vs : List Value}

theorem depthList_le {n : Nat} : depthList vs ≤ n ↔ ∀ v ∈ vs, v.depth + 1 ≤ n := by
  induction vs with
  | nil => simp [depthList]
  | cons v vs ih => simp [depthList, ih]

theorem depthFields_le {n : Nat} : depthFields fs ≤ n ↔ ∀ f ∈ fs, f.value.depth + 1 ≤ n := by
  induction fs with
  | nil => simp [depthFields]
  | cons f fs ih => simp [depthFields, ih]

theorem fileFreeList_iff : FileFreeList vs ↔ ∀ v ∈ vs, v.FileFree := by
  induction vs with
  | nil => simp [FileFreeList]
  | cons v vs ih => simp [FileFreeList, ih]

theorem fileFreeFields_iff : FileFreeFields fs ↔ ∀ f ∈ fs, f.value.FileFree := by
  induction fs with
  | nil => simp [FileFreeFields]
  | cons f fs ih => simp [FileFreeFields, ih]

/-- In order, without files, and of less than `n` levels. -/
structure Bounded (n : Nat) (v : Value) : Prop where
  wellFormed : v.WellFormed
  fileFree : v.FileFree
  depth_lt : v.depth < n

theorem bounded_list {n : Nat} (hn : 0 < n) (h : ∀ v ∈ vs, v.Bounded (n - 1)) : (list vs).Bounded n := by
  refine ⟨wellFormedList_iff.mpr fun v hv => (h v hv).wellFormed,
    fileFreeList_iff.mpr fun v hv => (h v hv).fileFree, Nat.lt_of_le_sub_one hn ?_⟩
  refine depthList_le.mpr fun v hv => ?_
  have hlt := (h v hv).depth_lt
  omega

theorem bounded_record {pairs : List (String × Value)} {n : Nat} (hn : 0 < n)
    (h : ∀ p ∈ pairs, p.2.Bounded (n - 1)) : (recordFromUnsorted pairs).Bounded n := by
  obtain ⟨fs, hrec, hsorted, hhash, hmem⟩ := recordFromUnsorted_spec pairs
  rw [hrec]
  refine ⟨⟨hsorted, hhash, wellFormedFields_iff.mpr fun f hf => (h _ (hmem f hf)).wellFormed⟩,
    fileFreeFields_iff.mpr fun f hf => (h _ (hmem f hf)).fileFree, Nat.lt_of_le_sub_one hn ?_⟩
  refine depthFields_le.mpr fun f hf => ?_
  have hlt : f.value.depth < n - 1 := (h _ (hmem f hf)).depth_lt
  omega

end Value

end Mizu
