import Mizu.Render.Expansion
import Mizu.Style.Parse

/-!
# The order in which a page is painted

`paintNode` paints a node, then its children by their z-index, inside the clip of the node and moved by its scroll
offset; `paintEach` paints the children of an `each` node once for every row. What is kept of the painting is the list
of the boxes in the order in which they are painted, each with the clips that it is painted in.

* `topmost`: the node whose box is painted last at a point.
-/

namespace Mizu

open Style

/-- A node of the document with its subtree. -/
inductive PageNode where
  | mk (id : Nat) (value : Layout.MizuNode) (children : List PageNode)

namespace PageNode

def id : PageNode → Nat
  | mk id _ _ => id

def value : PageNode → Layout.MizuNode
  | mk _ value _ => value

def children : PageNode → List PageNode
  | mk _ _ children => children

end PageNode

/-- A computed layout: the place in the parent, and the size. -/
structure TaffyLayout (K : Type) where
  x : K
  y : K
  width : K
  height : K

/-- A rectangle of the page. -/
structure PageBox (K : Type) where
  x : K
  y : K
  width : K
  height : K

/-- Where the nodes of a page are. -/
structure PageGeometry (K : Type) where
  nodeToTaffyId : Nat → Option Nat
  /-- `TaffyTree::layout`. -/
  layout : Nat → Option (TaffyLayout K)
  scrollOffsets : Nat → Option K

section Boxes

variable {K : Type} [Field K] [LinearOrder K]

def PageBox.Contains (b : PageBox K) (p : K × K) : Prop :=
  (b.x ≤ p.1 ∧ p.1 ≤ b.x + b.width) ∧ b.y ≤ p.2 ∧ p.2 ≤ b.y + b.height

instance (b : PageBox K) (p : K × K) : Decidable (b.Contains p) := inferInstanceAs (Decidable (_ ∧ _))

/-- The box of a node in its parent; without a layout it is a point. -/
def placeBox (layout : Option (TaffyLayout K)) (offset : K × K) : PageBox K :=
  match layout with
  | some l => ⟨offset.1 + l.x, offset.2 + l.y, l.width, l.height⟩
  | none => ⟨offset.1, offset.2, 0, 0⟩

/-- The layout that the document's own node has in the tree. -/
def PageGeometry.layoutOf (g : PageGeometry K) (id : Nat) : Option (TaffyLayout K) :=
  (g.nodeToTaffyId id).bind g.layout

def PageGeometry.scrollY (g : PageGeometry K) (id : Nat) : K := (g.scrollOffsets id).getD 0

/-- `f32::EPSILON`. -/
def scrollEpsilon : K := 1 / 8388608

end Boxes

/-! ## The painter -/

/-- What the painter reads. -/
structure PaintContext (K V : Type) extends PageGeometry K where
  store : VariableStore
  styleRules : FxHashMap String (StyleRules V)
  /-- `resolve_matching_variants` for a node. -/
  variants : Layout.MizuNode → StyleRules V
  /-- `evaluate_conditional_classes` for a node, with the bindings of the row. -/
  conditional : Nat → FxHashMap String Value → StyleRules V
  eachGroups : Nat → Option (List EachGroup)
  eachWindowStart : Nat → Option Nat

/-- What the painter changes on its way. -/
structure PaintState where
  itemBindings : FxHashMap String Value
  taffyIdOverrides : Nat → Option Nat

/-- Where a node is painted: the offset of its parent, the vertical part of the transform, and the clips around it. -/
structure PaintPlace (K : Type) where
  offset : K × K
  shift : K
  clips : List (PageBox K)

/-- A box that is painted, where it appears. -/
structure PaintedBox (K : Type) where
  node : Nat
  box : PageBox K
  clips : List (PageBox K)

/-- A part of the painting. -/
abbrev Painter (K : Type) := PaintPlace K → PaintState → List (PaintedBox K) × PaintState

section Paint

variable {K V : Type}

/-- One after the other, at the same place. -/
def runPainters : List (Painter K) → Painter K
  | [], _, st => ([], st)
  | paint :: paints, place, st =>
    let (boxes, st) := paint place st
    let (rest, st) := runPainters paints place st
    (boxes ++ rest, st)

variable [Field K] [LinearOrder K] (ctx : PaintContext K V)

/-- The rules of a node when it is painted. -/
def PaintContext.merged (id : Nat) (value : Layout.MizuNode) (itemBindings : FxHashMap String Value) : StyleRules V :=
  ((baseRules ctx.styleRules value).mergeFrom (ctx.variants value)).mergeFrom (ctx.conditional id itemBindings)

/-- Whether a node clips its children: a button and a box do by default. -/
def clipsChildren (primitive : Layout.Primitive) (overflow : Overflow) : Bool :=
  overflow ≠ .visible || primitive = .button || primitive = .box

/-- The z-index that a child is sorted by: that of the rules of its class attribute. -/
def PaintContext.zIndexOf (value : Layout.MizuNode) : Int :=
  match value.attributes.lookup "class" with
  | some cls => ((ctx.styleRules.lookup ((stripPrefix "." cls).getD cls)).map (·.zIndex)).getD 0
  | none => 0

/-- The position in the layout tree: that of the row's node if there is one. -/
def PaintContext.resolvedLayout (st : PaintState) (id : Nat) : Option (TaffyLayout K) :=
  ((st.taffyIdOverrides id).or (ctx.nodeToTaffyId id)).bind ctx.layout

/-- The value of the list of an `each` node. -/
def PaintContext.listOf (st : PaintState) (listName : String) : Option (List Value) :=
  match (st.itemBindings.lookup listName).or (ctx.store.get listName) with
  | some (.list items) => some items
  | _ => none

/-- The rows of an `each` node that have a place in the layout tree. -/
def paintRows (itemVar : String) (items : List Value) (paintChildren : Painter K) (place : PaintPlace K) :
    Nat → List EachGroup → PaintState → List (PaintedBox K) × PaintState
  | _, [], st => ([], st)
  | idx, (rowTaffyId, overrides) :: groups, st =>
    match items[idx]? with
    | none => ([], st)
    | some itemVal =>
      let row := placeBox (ctx.layout rowTaffyId) place.offset
      let (boxes, st) := paintChildren { place with offset := (row.x, row.y) }
        ⟨st.itemBindings.insert itemVar itemVal, fun domId => List.lookup domId overrides.reverse⟩
      let (rest, st) := paintRows itemVar items paintChildren place (idx + 1) groups st
      (boxes ++ rest, st)

/-- The rows of an `each` node that has not been expanded yet, each of the same height. -/
def paintFallback (itemVar : String) (itemHeight : K) (paintChildren : Painter K) (place : PaintPlace K) :
    Nat → List Value → PaintState → List (PaintedBox K) × PaintState
  | _, [], st => ([], st)
  | idx, itemVal :: items, st =>
    let (boxes, st) := paintChildren { place with offset := (place.offset.1, place.offset.2 + idx * itemHeight) }
      { st with itemBindings := st.itemBindings.insert itemVar itemVal }
    let (rest, st) := paintFallback itemVar itemHeight paintChildren place (idx + 1) items st
    (boxes ++ rest, st)

/-- `paint_each`. -/
def paintEach (id : Nat) (value : Layout.MizuNode) (paintChildren : Painter K) : Painter K := fun place st =>
  let box := placeBox (ctx.layoutOf id) place.offset
  let place := { place with offset := (box.x, box.y) }
  match value.iteratorContext with
  | none => ([], st)
  | some (itemVar, listName) =>
    match ctx.listOf st listName with
    | none => ([], st)
    | some items =>
      let (boxes, st) :=
        match ctx.eachGroups id with
        | some groups =>
          let (boxes, st) :=
            paintRows ctx itemVar items paintChildren place ((ctx.eachWindowStart id).getD 0) groups st
          (boxes, { st with taffyIdOverrides := fun _ => none })
        | none =>
          let itemHeight := if 0 < items.length ∧ 0 < box.height then box.height / items.length else 0
          paintFallback itemVar itemHeight paintChildren place 0 items st
      (boxes, { st with itemBindings := st.itemBindings.erase itemVar })

/-- The clips of the children: a node without an area does not clip. -/
def childClips (clips : List (PageBox K)) (clipping : Bool) (visible : PageBox K) : List (PageBox K) :=
  if clipping ∧ 0 < visible.width ∧ 0 < visible.height then clips ++ [visible] else clips

/-- The transform of the children: a scroll offset that is nearly none is none. -/
def childShift (shift scrollY : K) : K := if scrollEpsilon < |scrollY| then shift - scrollY else shift

mutual

/-- `paint_node`. -/
def paintNode : PageNode → Painter K
  | .mk id value children => fun place st =>
    if value.primitive = .each then
      paintEach ctx id value (runPainters ((painters children).map (·.2))) place st
    else
      let box := placeBox (ctx.resolvedLayout st id) place.offset
      let visible := { box with y := box.y + place.shift }
      let clipping := clipsChildren value.primitive (ctx.merged id value st.itemBindings).overflow
      let own := if 0 < box.width ∧ 0 < box.height then [⟨id, visible, place.clips⟩] else []
      let inOrder := (painters children).insertionSort fun a b => a.1 ≤ b.1
      let (boxes, st) := runPainters (inOrder.map (·.2))
        ⟨(box.x, box.y), childShift place.shift (ctx.scrollY id), childClips place.clips clipping visible⟩ st
      (own ++ boxes, st)

/-- The painters of the children, each with its z-index. -/
def painters : List PageNode → List (Int × Painter K)
  | [] => []
  | child :: children => (ctx.zIndexOf child.value, paintNode child) :: painters children

end

/-- The boxes of a page in the order of painting. -/
def paintPage (root : PageNode) : List (PaintedBox K) :=
  (paintNode ctx root ⟨(0, 0), 0, []⟩ ⟨∅, fun _ => none⟩).1

end Paint

/-! ## What is seen at a point -/

section Seen

variable {K : Type} [Field K] [LinearOrder K]

/-- The box covers the point, and no clip hides it there. -/
def PaintedBox.Shows (p : K × K) (painted : PaintedBox K) : Prop :=
  painted.box.Contains p ∧ ∀ clip ∈ painted.clips, clip.Contains p

instance (p : K × K) (painted : PaintedBox K) : Decidable (painted.Shows p) := inferInstanceAs (Decidable (_ ∧ _))

/-- The nodes that show at a point, the lowest first. -/
def shownAt (p : K × K) (boxes : List (PaintedBox K)) : List Nat :=
  (boxes.filter (·.Shows p)).map (·.node)

/-- The node whose box is painted last at a point. -/
def topmost (p : K × K) (boxes : List (PaintedBox K)) : Option Nat := (shownAt p boxes).getLast?

end Seen

end Mizu
