import Mizu.Layout.Attributes

/-!
# The arena of the layout tree

A node keeps its parent and its children. A node is appended below one that is there, so parents come first.

* `Dom.InOrder`: the children of a node are the nodes that name it as their parent, in the order of the arena.
* `Linked`: a stack of nodes each of which is the parent of the one above it, with their depths and ancestors.
-/

namespace Mizu.Layout

open List Option

/-- An index into the arena. -/
abbrev NodeId := Nat

structure DomNode where
  parent : Option NodeId
  children : List NodeId
  value : MizuNode

/-- `ego_tree::Tree`: the nodes in the order in which they were appended. -/
structure Dom where
  nodes : List DomNode
  parent_lt : ∀ (id : NodeId) (n : DomNode) (parent : NodeId), nodes[id]? = some n → n.parent = some parent →
    parent < id

namespace Dom

def new (root : MizuNode) : Dom where
  nodes := [⟨none, [], root⟩]
  parent_lt id n parent h hparent := by
    cases id with
    | zero =>
      obtain rfl := Option.some.inj h
      cases hparent
    | succ id => cases h

/-- Appends a node as the last child of another. -/
def append (t : Dom) (parent : NodeId) (h : parent < t.nodes.length) (node : MizuNode) : Dom where
  nodes := t.nodes.modify parent (fun n => { n with children := n.children ++ [t.nodes.length] }) ++
    [⟨some parent, [], node⟩]
  parent_lt id n p hget hp := by
    rw [List.getElem?_append, List.length_modify] at hget
    split at hget
    · rw [List.getElem?_modify] at hget
      obtain ⟨m, hm, heq⟩ := Option.map_eq_some_iff.mp hget
      refine t.parent_lt id m p hm ?_
      rw [← hp, ← heq]
      split <;> rfl
    · rename_i hge
      have hn := List.mem_singleton.mp (List.mem_of_getElem? hget)
      rw [hn] at hp
      exact (Option.some.inj hp) ▸ (h.trans_le (Nat.le_of_not_lt hge))

/-- Changes the value of a node. -/
def modify (t : Dom) (id : NodeId) (f : MizuNode → MizuNode) : Dom where
  nodes := t.nodes.modify id fun n => { n with value := f n.value }
  parent_lt i n p hget hp := by
    rw [List.getElem?_modify] at hget
    obtain ⟨m, hm, heq⟩ := Option.map_eq_some_iff.mp hget
    refine t.parent_lt i m p hm ?_
    rw [← hp, ← heq]
    split <;> rfl

end Dom

namespace Dom

section Parents

variable {t : Dom} {id p : Nat} {node : MizuNode} {f : MizuNode → MizuNode}

def size (t : Dom) : Nat := t.nodes.length

def parentOf (t : Dom) (id : NodeId) : Option NodeId := (t.nodes[id]?).bind (·.parent)

def primitiveOf (t : Dom) (id : NodeId) : Option Primitive := (t.nodes[id]?).map (·.value.primitive)

theorem parentOf_lt (h : t.parentOf id = some p) : p < id := by
  obtain ⟨n, hn, hp⟩ := bind_eq_some_iff.mp h
  exact t.parent_lt id n p hn hp

theorem parentOf_eq_none_of_le (h : t.size ≤ id) : t.parentOf id = none := by
  rw [parentOf, List.getElem?_eq_none h]
  rfl

@[simp] theorem size_append (h : p < t.nodes.length) : (t.append p h node).size = t.size + 1 := by
  simp [size, append]

@[simp] theorem size_modify : (t.modify id f).size = t.size := by
  simp [size, modify]

theorem parentOf_append (h : p < t.nodes.length) (i : Nat) :
    (t.append p h node).parentOf i = if i = t.size then some p else t.parentOf i := by
  unfold parentOf append size
  dsimp only
  rw [List.getElem?_append, length_modify]
  by_cases hlt : i < t.nodes.length
  · grind
  · grind

theorem parentOf_append_of_lt (h : p < t.nodes.length) {i : Nat} (hi : i < t.size) :
    (t.append p h node).parentOf i = t.parentOf i := by
  rw [parentOf_append, if_neg (by omega)]

@[simp] theorem parentOf_modify (i : Nat) : (t.modify id f).parentOf i = t.parentOf i := by
  grind [parentOf, modify]

theorem primitiveOf_append (h : p < t.nodes.length) (i : Nat) :
    (t.append p h node).primitiveOf i = if i = t.size then some node.primitive else t.primitiveOf i := by
  unfold primitiveOf append size
  dsimp only
  rw [List.getElem?_append, length_modify]
  by_cases hlt : i < t.nodes.length
  · grind
  · grind

theorem primitiveOf_modify (hf : ∀ n, (f n).primitive = n.primitive) (i : Nat) :
    (t.modify id f).primitiveOf i = t.primitiveOf i := by
  grind [primitiveOf, modify]

end Parents

/-! ## Children -/

/-- The children of a node are the nodes that name it as their parent, in the order of the arena. -/
def InOrder (t : Dom) : Prop :=
  ∀ id n, t.nodes[id]? = some n → n.children = (List.range t.size).filter fun c => decide (t.parentOf c = some id)

theorem inOrder_new (root : MizuNode) : (new root).InOrder := by
  intro id n hn
  cases id with
  | zero =>
    obtain rfl := some.inj hn
    rfl
  | succ id => cases hn

theorem InOrder.append {t : Dom} {p : Nat} {node : MizuNode} (h : t.InOrder) (hp : p < t.nodes.length) :
    (t.append p hp node).InOrder := by
  intro id n hn
  have hold : (List.range t.size).filter (fun c => decide ((t.append p hp node).parentOf c = some id)) =
      (List.range t.size).filter fun c => decide (t.parentOf c = some id) := by
    refine filter_congr fun c hc => ?_
    rw [parentOf_append_of_lt hp (mem_range.mp hc)]
  have hnew : (t.append p hp node).parentOf t.size = some p := by rw [parentOf_append, if_pos rfl]
  rw [size_append, range_succ, filter_append, hold]
  simp only [filter_cons, filter_nil, hnew]
  unfold Dom.append at hn
  dsimp only at hn
  rw [List.getElem?_append, length_modify] at hn
  split at hn
  · rw [List.getElem?_modify] at hn
    obtain ⟨m, hm, heq⟩ := map_eq_some_iff.mp hn
    rw [← heq]
    by_cases hid : p = id
    · simp [hid, h id m hm, size]
    · simp [hid, h id m hm]
  · rename_i hge
    obtain rfl := mem_singleton.mp (mem_of_getElem? hn)
    have hne : p ≠ id := by omega
    simp only [some.injEq, hne, decide_false, Bool.false_eq_true, if_false, append_nil]
    symm
    refine filter_eq_nil_iff.mpr fun c hc hparent => ?_
    have hlt := parentOf_lt (of_decide_eq_true hparent)
    have hc' := mem_range.mp hc
    unfold size at hc'
    omega

theorem InOrder.modify {t : Dom} {i : Nat} {f : MizuNode → MizuNode} (h : t.InOrder) : (t.modify i f).InOrder := by
  intro id n hn
  simp only [size_modify, parentOf_modify]
  unfold Dom.modify at hn
  dsimp only at hn
  rw [List.getElem?_modify] at hn
  obtain ⟨m, hm, heq⟩ := map_eq_some_iff.mp hn
  rw [← h id m hm, ← heq]
  split <;> rfl

/-! ## Depth and ancestors -/

/-- The number of nodes from the root to a node. -/
def depth (t : Dom) (id : NodeId) : Nat :=
  match h : t.parentOf id with
  | none => 1
  | some p => t.depth p + 1
termination_by id
decreasing_by exact parentOf_lt h

/-- A node is above another one. -/
def Ancestor (t : Dom) : NodeId → NodeId → Prop := Relation.TransGen fun a id => t.parentOf id = some a

section Depth

variable {t t' : Dom} {a id p : Nat}

theorem depth_of_none (h : t.parentOf id = none) : t.depth id = 1 := by
  grind [depth]

theorem depth_of_some (h : t.parentOf id = some p) : t.depth id = t.depth p + 1 := by
  grind [depth]

/-- The depth of a node depends on the parents of the nodes before it. -/
theorem depth_congr (h : ∀ i ≤ id, t.parentOf i = t'.parentOf i) : t.depth id = t'.depth id := by
  induction id using Nat.strong_induction_on with
  | _ id ih =>
    have hid := h id le_rfl
    cases hp : t.parentOf id with
    | none => rw [depth_of_none hp, depth_of_none (hid.symm.trans hp)]
    | some p => grind [depth_of_some, parentOf_lt]

theorem Ancestor.lt (h : t.Ancestor a id) : a < id := by
  induction h with
  | single hp => exact parentOf_lt hp
  | tail _ hp ih => exact ih.trans (parentOf_lt hp)

theorem Ancestor.cases_parent (h : t.Ancestor a id) :
    ∃ p, t.parentOf id = some p ∧ (a = p ∨ t.Ancestor a p) := by
  cases h with
  | single hp => exact ⟨a, hp, .inl rfl⟩
  | tail hrest hp => exact ⟨_, hp, .inr hrest⟩

theorem Ancestor.congr (h : ∀ i ≤ id, t.parentOf i = t'.parentOf i) (hancestor : t.Ancestor a id) :
    t'.Ancestor a id := by
  induction hancestor with
  | single hp => exact .single ((h _ le_rfl).symm.trans hp)
  | tail hrest hp ih =>
    have hlt := parentOf_lt hp
    exact .tail (ih fun i hi => h i (hi.trans hlt.le)) ((h _ le_rfl).symm.trans hp)

end Depth

end Dom

/-! ## A path of open nodes -/

/-- Each of the nodes is the parent of the one above it on the stack, and the last one has none. -/
def Linked (t : Dom) : List (Nat × NodeId) → Prop
  | [] => True
  | (_, id) :: below => id < t.size ∧ t.parentOf id = below.head?.map (·.2) ∧ Linked t below

section Linked

variable {t t' : Dom} {stack below : List (Nat × NodeId)} {d a id : Nat}

theorem Linked.of_suffix (h : Linked t stack) (hsuffix : below <:+ stack) : Linked t below := by
  obtain ⟨above, rfl⟩ := hsuffix
  induction above with
  | nil => exact h
  | cons block above ih => exact ih h.2.2

/-- The links stay when the nodes of the stack keep their parents. -/
theorem Linked.congr (h : Linked t stack) (hsize : t.size ≤ t'.size)
    (hparent : ∀ i < t.size, t'.parentOf i = t.parentOf i) : Linked t' stack := by
  induction stack with
  | nil => trivial
  | cons block stack ih => exact ⟨h.1.trans_le hsize, (hparent _ h.1).trans h.2.1, ih h.2.2⟩

/-- The depth of an open node is its place on the stack. -/
theorem Linked.depth (h : Linked t ((d, id) :: below)) : t.depth id = below.length + 1 := by
  induction below generalizing d id with
  | nil => exact Dom.depth_of_none h.2.1
  | cons block below ih =>
    rw [Dom.depth_of_some h.2.1, ih h.2.2, length_cons]

/-- The ancestors of an open node are below it on the stack. -/
theorem Linked.ancestor (h : Linked t ((d, id) :: below)) (hancestor : t.Ancestor a id) : a ∈ below.map (·.2) := by
  induction below generalizing d id with
  | nil =>
    obtain ⟨p, hp, -⟩ := hancestor.cases_parent
    rw [h.2.1] at hp
    cases hp
  | cons block below ih =>
    obtain ⟨p, hp, hrest⟩ := hancestor.cases_parent
    obtain rfl : block.2 = p := some.inj (h.2.1.symm.trans hp)
    rcases hrest with rfl | hrest
    · exact mem_cons_self
    · exact mem_cons_of_mem _ (ih h.2.2 hrest)

end Linked

end Mizu.Layout
