import Mathlib

/-!
# Layout trees

The tree that a page is laid out in: an arena of nodes with a style, the node of the document whose text a leaf
shows, and a list of children. Ids are not used again.

* `Grown`: all that building nodes does to a tree; the new ids are the interval between the two `next`.
-/

namespace Mizu

/-- A node, with a style of type `σ`. -/
structure TaffyNode (σ : Type) where
  style : σ
  context : Option Nat
  children : List Nat

structure TaffyTree (σ : Type) where
  node : Nat → Option (TaffyNode σ)
  next : Nat

namespace TaffyTree

variable {σ : Type} (t : TaffyTree σ)

/-! ## Operations -/

def alloc (n : TaffyNode σ) : Nat × TaffyTree σ :=
  (t.next, ⟨Function.update t.node t.next (some n), t.next + 1⟩)

def newLeaf (style : σ) : Nat × TaffyTree σ := t.alloc ⟨style, none, []⟩

def newLeafWithContext (style : σ) (context : Nat) : Nat × TaffyTree σ := t.alloc ⟨style, some context, []⟩

def newWithChildren (style : σ) (children : List Nat) : Nat × TaffyTree σ :=
  t.alloc ⟨style, none, children⟩

def style (id : Nat) : Option σ := (t.node id).map (·.style)

def children (id : Nat) : List Nat := (t.node id).elim [] (·.children)

/-- The node is in the tree. -/
def Live (id : Nat) : Prop := (t.node id).isSome

instance (id : Nat) : Decidable (t.Live id) := inferInstanceAs (Decidable ((t.node id).isSome = true))

/-- The children leave the parents that they had. -/
def setChildren (parent : Nat) (children : List Nat) : TaffyTree σ where
  node id := (t.node id).map fun n =>
    { n with children := if id = parent then children else n.children.filter (· ∉ children) }
  next := t.next

def setStyle (id : Nat) (style : σ) : TaffyTree σ where
  node other := (t.node other).map fun n => if other = id then { n with style } else n
  next := t.next

/-- Drops a node; its parent loses it, and its children lose their parent. -/
def remove (id : Nat) : TaffyTree σ where
  node other :=
    if other = id then none
    else (t.node other).map fun n => { n with children := n.children.filter (· ≠ id) }
  next := t.next

def removeAll (ids : List Nat) : TaffyTree σ := ids.foldl remove t

/-! ## What is in a tree -/

/-- Every id is older than the next one. -/
def Fresh : Prop := ∀ id n, t.node id = some n → id < t.next ∧ ∀ c ∈ n.children, c < t.next

variable {t} {t' t'' : TaffyTree σ}

theorem Fresh.live_lt (h : t.Fresh) {id : Nat} (hlive : t.Live id) : id < t.next := by
  obtain ⟨n, hn⟩ := Option.isSome_iff_exists.mp hlive
  exact (h id n hn).1

theorem Fresh.children_lt (h : t.Fresh) {id c : Nat} (hc : c ∈ t.children id) : c < t.next := by
  unfold children at hc
  cases hn : t.node id with
  | none =>
    rw [hn] at hc
    cases hc
  | some n =>
    rw [hn] at hc
    exact (h id n hn).2 c hc

/-- New nodes were built, and nothing else was changed. -/
structure Grown (t t' : TaffyTree σ) : Prop where
  next_le : t.next ≤ t'.next
  old : ∀ id < t.next, t'.node id = t.node id
  live : ∀ id, t'.Live id ↔ t.Live id ∨ t.next ≤ id ∧ id < t'.next
  fresh : t'.Fresh

theorem Grown.refl (h : t.Fresh) : t.Grown t where
  next_le := Nat.le_refl _
  old _ _ := rfl
  live id := ⟨.inl, fun h => h.elim (fun h => h) fun h => absurd h.1 (by omega)⟩
  fresh := h

theorem Grown.trans (h : t.Grown t') (h' : t'.Grown t'') : t.Grown t'' where
  next_le := Nat.le_trans h.next_le h'.next_le
  old id hid := (h'.old id (Nat.lt_of_lt_of_le hid h.next_le)).trans (h.old id hid)
  live id := by
    have hle := h.next_le
    have hle' := h'.next_le
    rw [h'.live, h.live, or_assoc]
    refine or_congr_right ?_
    omega
  fresh := h'.fresh

theorem Grown.children (h : t.Grown t') {id : Nat} (hid : id < t.next) : t'.children id = t.children id := by
  rw [TaffyTree.children, TaffyTree.children, h.old id hid]

theorem alloc_grown (h : t.Fresh) {n : TaffyNode σ} (hn : ∀ c ∈ n.children, c < t.next) :
    t.Grown (t.alloc n).2 where
  next_le := Nat.le_succ _
  old id hid := Function.update_of_ne (Nat.ne_of_lt hid) _ _
  live id := by
    show (Function.update t.node t.next (some n) id).isSome = true ↔ _
    by_cases hid : id = t.next
    · subst hid
      rw [Function.update_self]
      exact ⟨fun _ => .inr ⟨Nat.le_refl _, Nat.lt_succ_self _⟩, fun _ => rfl⟩
    · rw [Function.update_of_ne hid]
      refine ⟨.inl, fun hor => hor.elim (fun hlive => hlive) fun ⟨hle, hlt⟩ => ?_⟩
      have hlt : id < t.next + 1 := hlt
      omega
  fresh id m hm := by
    have hm : Function.update t.node t.next (some n) id = some m := hm
    show id < t.next + 1 ∧ ∀ c ∈ m.children, c < t.next + 1
    by_cases hid : id = t.next
    · subst hid
      rw [Function.update_self] at hm
      obtain rfl := Option.some.inj hm
      exact ⟨Nat.lt_succ_self _, fun c hc => Nat.lt_succ_of_lt (hn c hc)⟩
    · rw [Function.update_of_ne hid] at hm
      obtain ⟨hlt, hchildren⟩ := h id m hm
      exact ⟨Nat.lt_succ_of_lt hlt, fun c hc => Nat.lt_succ_of_lt (hchildren c hc)⟩

/-! ## Changing a tree -/

section Change

variable (t) (id other : Nat) (cs : List Nat)

theorem live_map {f : TaffyNode σ → TaffyNode σ} : ((t.node id).map f).isSome = true ↔ t.Live id := by
  rw [Option.isSome_map]
  exact Iff.rfl

@[simp] theorem setChildren_live : (t.setChildren other cs).Live id ↔ t.Live id := t.live_map id

@[simp] theorem setStyle_live (style : σ) : (t.setStyle other style).Live id ↔ t.Live id := t.live_map id

@[simp] theorem remove_live : (t.remove other).Live id ↔ t.Live id ∧ id ≠ other := by
  unfold remove Live
  dsimp only
  split
  · rename_i heq
    exact ⟨nofun, fun h => absurd heq h.2⟩
  · rename_i hne
    rw [live_map]
    exact ⟨fun h => ⟨h, hne⟩, fun h => h.1⟩

theorem removeAll_live (ids : List Nat) : (t.removeAll ids).Live id ↔ t.Live id ∧ id ∉ ids := by
  induction ids generalizing t with
  | nil => simp [removeAll]
  | cons x ids ih =>
    have hstep : t.removeAll (x :: ids) = (t.remove x).removeAll ids := rfl
    rw [hstep, ih, remove_live, List.mem_cons]
    tauto

theorem setChildren_children_self (h : t.Live id) : (t.setChildren id cs).children id = cs := by
  obtain ⟨n, hn⟩ := Option.isSome_iff_exists.mp h
  simp [children, setChildren, hn]

/-- The children of another node stay, if none of them is taken. -/
theorem setChildren_children_ne (hne : id ≠ other) (hcs : ∀ c ∈ t.children id, c ∉ cs) :
    (t.setChildren other cs).children id = t.children id := by
  unfold children setChildren at *
  dsimp only
  cases hn : t.node id with
  | none => rfl
  | some n =>
    rw [hn] at hcs
    simp only [Option.map_some, Option.elim_some, if_neg hne]
    exact List.filter_eq_self.mpr fun c hc => by simpa using hcs c hc

@[simp] theorem setStyle_children (style : σ) : (t.setStyle other style).children id = t.children id := by
  unfold children setStyle
  dsimp only
  cases t.node id with
  | none => rfl
  | some n =>
    simp only [Option.map_some, Option.elim_some]
    split <;> rfl

variable {t id other cs}

theorem Fresh.setChildren (h : t.Fresh) (hcs : ∀ c ∈ cs, c < t.next) : (t.setChildren id cs).Fresh := by
  intro x m hm
  obtain ⟨n, hn, rfl⟩ := Option.map_eq_some_iff.mp hm
  refine ⟨(h x n hn).1, fun c hc => ?_⟩
  dsimp only at hc
  split at hc
  · exact hcs c hc
  · exact (h x n hn).2 c (List.mem_of_mem_filter hc)

theorem Fresh.setStyle (h : t.Fresh) (style : σ) : (t.setStyle id style).Fresh := by
  intro x m hm
  obtain ⟨n, hn, rfl⟩ := Option.map_eq_some_iff.mp hm
  split
  · exact h x n hn
  · exact h x n hn

theorem Fresh.remove (h : t.Fresh) : (t.remove id).Fresh := by
  intro x m hm
  unfold TaffyTree.remove at hm
  dsimp only at hm
  split at hm
  · cases hm
  · obtain ⟨n, hn, rfl⟩ := Option.map_eq_some_iff.mp hm
    exact ⟨(h x n hn).1, fun c hc => (h x n hn).2 c (List.mem_of_mem_filter hc)⟩

theorem Fresh.removeAll (h : t.Fresh) (ids : List Nat) : (t.removeAll ids).Fresh := by
  induction ids generalizing t with
  | nil => exact h
  | cons x ids ih => exact ih h.remove

end Change

end TaffyTree

end Mizu
