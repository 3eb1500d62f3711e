import Mizu.Ipc.WireReload
import Mizu.Render.TaffyTree
import Mizu.Render.TimerSchedule

/-!
# Rows of a list

An `each` node of a document shows its children once for every element of a list. `expandEachNodes` gives the
layout tree its rows: it puts the children of the nodes back that were there before the last expansion, drops the
nodes that it built, and builds a row for every element in view, with a spacer for those above and below.

The arithmetic of the view is in floating-point numbers; what it comes to is a parameter (`EachGeometry`).
-/

namespace Mizu

/-- A node of the document with its subtree. -/
inductive DomNode where
  | mk (id : Nat) (isEach : Bool) (iteratorContext : Option (String × String)) (children : List DomNode)

namespace DomNode

def id : DomNode → Nat
  | mk id _ _ _ => id

def isEach : DomNode → Bool
  | mk _ isEach _ _ => isEach

/-- The name of an element, and the list. -/
def iteratorContext : DomNode → Option (String × String)
  | mk _ _ iteratorContext _ => iteratorContext

def children : DomNode → List DomNode
  | mk _ _ _ children => children

def listName (node : DomNode) : Option String := node.iteratorContext.map (·.2)

mutual

/-- `count_dom_subtree_size`. -/
def size : DomNode → Nat
  | mk _ _ _ children => 1 + sizes children

def sizes : List DomNode → Nat
  | [] => 0
  | node :: nodes => node.size + sizes nodes

end

end DomNode

/-- The nodes of a document, in the order in which they were made. -/
structure Dom where
  nodes : List DomNode
  nodup : (nodes.map (·.id)).Nodup

def Dom.get (dom : Dom) (id : Nat) : Option DomNode := dom.nodes.find? (·.id = id)

/-- A row: its container, and the node built for each node of the template. -/
abbrev EachGroup := Nat × List (Nat × Nat)

structure EachExpansion where
  /-- The rows of an `each` node. -/
  groups : FxHashMap Nat (List EachGroup)
  /-- Its children before. -/
  originalChildren : FxHashMap Nat (List Nat)
  /-- Every node that was built. -/
  allSyntheticIds : List Nat
  /-- The rows that the budget hides. -/
  truncated : FxHashMap Nat Nat
  /-- The element of the first row. -/
  windowStart : FxHashMap Nat Nat

/-- `EachExpansion::default`. -/
def EachExpansion.none : EachExpansion := ⟨∅, ∅, [], ∅, ∅⟩

/-- How the tables of an expansion are iterated. -/
structure EachExpansion.Iteration (expansion : EachExpansion) where
  groups : Entries expansion.groups
  originalChildren : Entries expansion.originalChildren

/-- What the scroll position, the height of the view and the measured rows come to. -/
structure EachGeometry (σ : Type) where
  /-- The first row in view of a list without end. -/
  topRow : Nat → Nat
  /-- The first row below the view. -/
  bottomRow : Nat → Nat
  /-- The style of a spacer for a number of rows. -/
  spacerStyle : Nat → Nat → σ
  rowStyle : σ
  /-- The style of a template node that is not in the layout tree. -/
  defaultStyle : σ
  /-- The style of a node that lays its rows out in a column. -/
  column : σ → σ

/-! ## Building rows -/

section Rows

variable {σ : Type} (nodeToTaffyId : Nat → Option Nat) (geometry : EachGeometry σ)

structure Cloning (σ : Type) where
  taffy : TaffyTree σ
  overrides : List (Nat × Nat)
  allSyntheticIds : List Nat

mutual

def cloneTaffySubtree : DomNode → Cloning σ → Nat × Cloning σ
  | .mk id _ _ children, c =>
    let style := ((nodeToTaffyId id).bind c.taffy.style).getD geometry.defaultStyle
    let (childIds, c) := cloneChildren children c
    let (synthId, taffy) :=
      if childIds.isEmpty then c.taffy.newLeafWithContext style id else c.taffy.newWithChildren style childIds
    (synthId, ⟨taffy, c.overrides ++ [(id, synthId)], c.allSyntheticIds ++ [synthId]⟩)

def cloneChildren : List DomNode → Cloning σ → List Nat × Cloning σ
  | [], c => ([], c)
  | node :: nodes, c =>
    let (synthId, c) := cloneTaffySubtree node c
    let (synthIds, c) := cloneChildren nodes c
    (synthId :: synthIds, c)

end

/-- The rows built so far. -/
structure Rows (σ : Type) where
  taffy : TaffyTree σ
  groups : List EachGroup
  allSyntheticIds : List Nat

/-- One row more. -/
def addRow (template : List DomNode) (rows : Rows σ) : Rows σ :=
  let (rowChildren, c) := cloneChildren nodeToTaffyId geometry template ⟨rows.taffy, [], rows.allSyntheticIds⟩
  let (rowId, taffy) := c.taffy.newWithChildren geometry.rowStyle rowChildren
  ⟨taffy, rows.groups ++ [(rowId, c.overrides)], c.allSyntheticIds ++ [rowId]⟩

def addRows (template : List DomNode) : Nat → Rows σ → Rows σ
  | 0, rows => rows
  | n + 1, rows => addRows template n (addRow nodeToTaffyId geometry template rows)

/-- A spacer for a number of rows, if there are any. -/
def addSpacer (eachId count : Nat) (taffy : TaffyTree σ) : List Nat × TaffyTree σ :=
  if 0 < count then
    let (spacerId, taffy) := taffy.newLeaf (geometry.spacerStyle eachId count)
    ([spacerId], taffy)
  else ([], taffy)

/-- Makes a node lay its children out in a column. -/
def setColumn (eachTaffyId : Nat) (taffy : TaffyTree σ) : TaffyTree σ :=
  match taffy.style eachTaffyId with
  | some style => taffy.setStyle eachTaffyId (geometry.column style)
  | none => taffy

/-- Gives an `each` node its rows as children, with spacers for those above and below. -/
def placeRows (node : DomNode) (eachTaffyId above visibleRows below : Nat) (rows : Rows σ) : Rows σ :=
  let rows := addRows nodeToTaffyId geometry node.children visibleRows rows
  let (top, taffy) := addSpacer geometry node.id above rows.taffy
  let (bottom, taffy) := addSpacer geometry node.id below taffy
  let taffy := taffy.setChildren eachTaffyId (top ++ rows.groups.map (·.1) ++ bottom)
  ⟨setColumn geometry eachTaffyId taffy, rows.groups, rows.allSyntheticIds ++ top ++ bottom⟩

end Rows

/-! ## Expanding a list -/

section Expand

variable {σ : Type} (dom : Dom) (nodeToTaffyId : Nat → Option Nat) (maxSyntheticLayoutNodes : Nat)

/-- The length of a list variable. -/
def listLength (store : VariableStore) (name : String) : Option Nat :=
  match store.get name with
  | some (.list items) => some items.length
  | _ => none

/-- What an `each` node is expanded with, if it is: the length of its list, and its node in the layout tree. -/
def expandedWith (store : VariableStore) (node : DomNode) (listName : String) : Option (Nat × Nat) :=
  match listLength store listName, nodeToTaffyId node.id with
  | some n, some eachTaffyId => if n = 0 ∨ node.children.isEmpty then none else some (n, eachTaffyId)
  | _, _ => none

structure ExpandState (σ : Type) where
  taffy : TaffyTree σ
  expansion : EachExpansion
  remainingBudget : Nat

/-- A round of the loop over the `each` nodes. -/
def expandBlock (store : VariableStore) (geometry : EachGeometry σ) (s : ExpandState σ)
    (block : DomNode × String) : ExpandState σ :=
  let node := block.1
  match expandedWith nodeToTaffyId store node block.2 with
  | none => s
  | some (n, eachTaffyId) =>
    let budgetPerRow := DomNode.sizes node.children + 1
    let first := min (geometry.topRow node.id) n
    let wantedLast := max first (min (geometry.bottomRow node.id) n)
    let wantedRows := wantedLast - first
    let visibleRows := min wantedRows (s.remainingBudget / budgetPerRow)
    let last := first + visibleRows
    let truncated :=
      if visibleRows < wantedRows then s.expansion.truncated.insert node.id (wantedRows - visibleRows)
      else s.expansion.truncated
    let rows := placeRows nodeToTaffyId geometry node eachTaffyId first visibleRows (n - last)
      ⟨s.taffy, [], s.expansion.allSyntheticIds⟩
    { taffy := rows.taffy
      expansion :=
        { groups := s.expansion.groups.insert node.id rows.groups
          originalChildren := s.expansion.originalChildren.insert node.id
            (node.children.filterMap fun child => nodeToTaffyId child.id)
          allSyntheticIds := rows.allSyntheticIds
          truncated
          windowStart := s.expansion.windowStart.insert node.id first }
      remainingBudget := s.remainingBudget - visibleRows * budgetPerRow }

/-- Whether the `each` node is one that is built anew. -/
def rebuilds (dirtyListNames : Option (Finset String)) (eachId : Nat) : Bool :=
  match dirtyListNames with
  | none => true
  | some set => ((dom.get eachId).bind DomNode.listName).any (· ∈ set)

/-- The `each` nodes that are built anew, with their lists. -/
def eachNodes (dirtyListNames : Option (Finset String)) : List (DomNode × String) :=
  dom.nodes.filterMap fun node =>
    if node.isEach then
      node.listName.bind fun name => if dirtyListNames.all (name ∈ ·) then some (node, name) else none
    else none

/-- Puts the children back that the nodes had. -/
def restoreChildren (dirtyListNames : Option (Finset String)) (prev : EachExpansion) (order : prev.Iteration)
    (taffy : TaffyTree σ) : TaffyTree σ :=
  order.originalChildren.list.foldl
    (fun taffy (eachId, children) =>
      if rebuilds dom dirtyListNames eachId then
        match nodeToTaffyId eachId with
        | some eachTaffyId => taffy.setChildren eachTaffyId children
        | none => taffy
      else taffy)
    taffy

/-- The nodes that are dropped: all, or the containers of the rows that are built anew. -/
def freedIds (dirtyListNames : Option (Finset String)) (prev : EachExpansion) (order : prev.Iteration) : List Nat :=
  match dirtyListNames with
  | none => prev.allSyntheticIds
  | some _ =>
    let rows := (order.groups.list.filter fun entry => rebuilds dom dirtyListNames entry.1).flatMap fun entry =>
      entry.2.map (·.1)
    prev.allSyntheticIds.filter (· ∈ rows)

/-- An optional entry. -/
def insertSome {α : Type} (m : FxHashMap Nat α) (key : Nat) (v : Option α) : FxHashMap Nat α :=
  v.elim m (m.insert key)

/-- What is kept of the last expansion: of the nodes only the containers of the rows. -/
def carried (dirtyListNames : Option (Finset String)) (prev : EachExpansion) (order : prev.Iteration) :
    EachExpansion :=
  match dirtyListNames with
  | none => .none
  | some _ =>
    (order.groups.list.filter fun entry => !rebuilds dom dirtyListNames entry.1).foldl
      (fun kept (eachId, groups) =>
        { groups := kept.groups.insert eachId groups
          originalChildren := insertSome kept.originalChildren eachId (prev.originalChildren.lookup eachId)
          allSyntheticIds := kept.allSyntheticIds ++ groups.map (·.1)
          truncated := insertSome kept.truncated eachId (prev.truncated.lookup eachId)
          windowStart := insertSome kept.windowStart eachId (prev.windowStart.lookup eachId) })
      .none

/-- `expand_each_nodes`. -/
def expandEachNodes (store : VariableStore) (taffy : TaffyTree σ) (prev : EachExpansion) (order : prev.Iteration)
    (dirtyListNames : Option (Finset String)) (geometry : EachGeometry σ) : TaffyTree σ × EachExpansion :=
  let taffy := restoreChildren dom nodeToTaffyId dirtyListNames prev order taffy
  let taffy := taffy.removeAll (freedIds dom dirtyListNames prev order)
  let expansion := carried dom dirtyListNames prev order
  let s := (eachNodes dom dirtyListNames).foldl (expandBlock nodeToTaffyId store geometry)
    ⟨taffy, expansion, maxSyntheticLayoutNodes - expansion.allSyntheticIds.length⟩
  (s.taffy, s.expansion)

end Expand

end Mizu
