import Mizu.Render.Expansion

/-!
# The nodes that rows are built of

Every row that `expandEachNodes` builds is made of new nodes of the layout tree, which count against a budget and
are to be dropped when the rows are built anew.

* `synthetic_nodes_accounted`: while every call builds all lists anew, or finds none built, the nodes that were
  built are those of the expansion, within the budget, and every row is a child of its node, in order.
* `partial_rebuild_leaks`: a call that builds a changed list anew drops the containers of its rows only.
-/

namespace Mizu

open Transition TaffyTree List

/-! ## Building a row -/

section Rows

variable {σ : Type}

/-- What cloning adds: as many nodes as were counted, each with its place in the list and in the overrides. -/
structure Cloned (c c' : Cloning σ) (count : Nat) : Prop where
  grown : c.taffy.Grown c'.taffy
  next : c'.taffy.next = c.taffy.next + count
  ids : c'.allSyntheticIds = c.allSyntheticIds ++ List.range' c.taffy.next count
  overrides : c'.overrides.map (·.2) = c.overrides.map (·.2) ++ List.range' c.taffy.next count

theorem Cloned.refl {c : Cloning σ} (h : c.taffy.Fresh) : Cloned c c 0 :=
  ⟨.refl h, rfl, (append_nil _).symm, (append_nil _).symm⟩

theorem range'_append (a m n : Nat) : List.range' a m ++ List.range' (a + m) n = List.range' a (m + n) := by
  simp

theorem Cloned.trans {c c' c'' : Cloning σ} {m n : Nat} (h : Cloned c c' m) (h' : Cloned c' c'' n) :
    Cloned c c'' (m + n) where
  grown := h.grown.trans h'.grown
  next := by rw [h'.next, h.next, Nat.add_assoc]
  ids := by rw [h'.ids, h.ids, h.next, append_assoc, range'_append]
  overrides := by rw [h'.overrides, h.overrides, h.next, append_assoc, range'_append]

theorem Cloned.node {c : Cloning σ} {id : Nat} {n : TaffyNode σ} (h : c.taffy.Fresh)
    (hn : ∀ child ∈ n.children, child < c.taffy.next) :
    Cloned c ⟨(c.taffy.alloc n).2, c.overrides ++ [(id, c.taffy.next)], c.allSyntheticIds ++ [c.taffy.next]⟩ 1 where
  grown := alloc_grown h hn
  next := rfl
  ids := rfl
  overrides := map_append

variable (nodeToTaffyId : Nat → Option Nat) (geometry : EachGeometry σ)

mutual

theorem cloneTaffySubtree_spec : ∀ (node : DomNode) (c : Cloning σ), c.taffy.Fresh →
    Cloned c (cloneTaffySubtree nodeToTaffyId geometry node c).2 node.size ∧
      (cloneTaffySubtree nodeToTaffyId geometry node c).1 <
        (cloneTaffySubtree nodeToTaffyId geometry node c).2.taffy.next
  | .mk id isEach iteratorContext children, c, h => by
    obtain ⟨hcloned, hchildren⟩ := cloneChildren_spec children c h
    rw [cloneTaffySubtree]
    dsimp only
    rw [DomNode.size, Nat.add_comm]
    split
    · exact ⟨hcloned.trans (.node hcloned.grown.fresh nofun), Nat.lt_succ_self _⟩
    · exact ⟨hcloned.trans (.node hcloned.grown.fresh hchildren), Nat.lt_succ_self _⟩

theorem cloneChildren_spec : ∀ (nodes : List DomNode) (c : Cloning σ), c.taffy.Fresh →
    Cloned c (cloneChildren nodeToTaffyId geometry nodes c).2 (DomNode.sizes nodes) ∧
      ∀ id ∈ (cloneChildren nodeToTaffyId geometry nodes c).1,
        id < (cloneChildren nodeToTaffyId geometry nodes c).2.taffy.next
  | [], c, h => ⟨.refl h, nofun⟩
  | node :: nodes, c, h => by
    obtain ⟨hhead, hid⟩ := cloneTaffySubtree_spec node c h
    obtain ⟨htail, hids⟩ := cloneChildren_spec nodes _ hhead.grown.fresh
    rw [cloneChildren]
    refine ⟨hhead.trans htail, ?_⟩
    intro id hmem
    rcases mem_cons.mp hmem with rfl | hmem
    · exact Nat.lt_of_lt_of_le hid htail.grown.next_le
    · exact hids id hmem

end

/-- The containers of rows. -/
def rowIds (groups : List EachGroup) : List Nat := groups.map (·.1)

/-- A node is part of a row. -/
def InRow (group : EachGroup) (id : Nat) : Prop := id = group.1 ∨ id ∈ group.2.map (·.2)

/-- What rows add: their nodes are the new ids, of which the containers are in order. -/
structure RowsBuilt (rows rows' : Rows σ) (count : Nat) : Prop where
  grown : rows.taffy.Grown rows'.taffy
  next : rows'.taffy.next = rows.taffy.next + count
  ids : rows'.allSyntheticIds = rows.allSyntheticIds ++ List.range' rows.taffy.next count
  groups : ∃ added, rows'.groups = rows.groups ++ added ∧
    (∀ id ∈ List.range' rows.taffy.next count, ∃ group ∈ added, InRow group id) ∧
    ∀ id ∈ rowIds added, id ∈ List.range' rows.taffy.next count

theorem RowsBuilt.refl {rows : Rows σ} (h : rows.taffy.Fresh) : RowsBuilt rows rows 0 :=
  ⟨.refl h, rfl, (append_nil _).symm, [], (append_nil _).symm, nofun, nofun⟩

theorem RowsBuilt.trans {rows rows' rows'' : Rows σ} {m n : Nat} (h : RowsBuilt rows rows' m)
    (h' : RowsBuilt rows' rows'' n) : RowsBuilt rows rows'' (m + n) where
  grown := h.grown.trans h'.grown
  next := by rw [h'.next, h.next, Nat.add_assoc]
  ids := by rw [h'.ids, h.ids, h.next, append_assoc, range'_append]
  groups := by
    obtain ⟨added, hadded, hcover, hrows⟩ := h.groups
    obtain ⟨added', hadded', hcover', hrows'⟩ := h'.groups
    rw [h.next] at hcover' hrows'
    refine ⟨added ++ added', by rw [hadded', hadded, append_assoc], ?_, ?_⟩
    · intro id hid
      rw [← range'_append, mem_append] at hid
      rcases hid with hid | hid
      · grind
      · grind
    · grind [rowIds]

theorem addRow_spec (template : List DomNode) {rows : Rows σ} (h : rows.taffy.Fresh) :
    RowsBuilt rows (addRow nodeToTaffyId geometry template rows) (DomNode.sizes template + 1) := by
  obtain ⟨hcloned, hchildren⟩ :=
    cloneChildren_spec nodeToTaffyId geometry template
      ⟨rows.taffy, [], rows.allSyntheticIds⟩ h
  unfold addRow
  generalize cloneChildren nodeToTaffyId geometry template ⟨rows.taffy, [], rows.allSyntheticIds⟩ = result at *
  obtain ⟨rowChildren, c⟩ := result
  have hrow : c.taffy.next ∈ List.range' rows.taffy.next (DomNode.sizes template + 1) := by
    have hnext : c.taffy.next = rows.taffy.next + DomNode.sizes template := hcloned.next
    rw [mem_range'_1]
    omega
  refine ⟨hcloned.grown.trans (alloc_grown hcloned.grown.fresh hchildren), ?_, ?_, ?_⟩
  · show c.taffy.next + 1 = _
    rw [hcloned.next, Nat.add_assoc]
  · show c.allSyntheticIds ++ [c.taffy.next] = _
    rw [hcloned.ids, hcloned.next, append_assoc, ← range'_append]
    rfl
  · refine ⟨[(c.taffy.next, c.overrides)], rfl, ?_, ?_⟩
    · intro id hid
      refine ⟨_, mem_cons_self, ?_⟩
      rw [← range'_append, mem_append] at hid
      rcases hid with hid | hid
      · refine .inr ?_
        rw [hcloned.overrides]
        exact hid
      · refine .inl ?_
        rw [hcloned.next]
        exact mem_singleton.mp hid
    · intro id hid
      obtain rfl := mem_singleton.mp hid
      exact hrow

theorem addRows_spec (template : List DomNode) (n : Nat) {rows : Rows σ} (h : rows.taffy.Fresh) :
    RowsBuilt rows (addRows nodeToTaffyId geometry template n rows) (n * (DomNode.sizes template + 1)) := by
  induction n generalizing rows with
  | zero =>
    rw [Nat.zero_mul]
    exact .refl h
  | succ n ih =>
    have hrow := addRow_spec nodeToTaffyId geometry template h
    rw [Nat.succ_mul, Nat.add_comm (n * _)]
    exact hrow.trans (ih hrow.grown.fresh)

theorem addSpacer_spec (eachId count : Nat) {taffy : TaffyTree σ} (h : taffy.Fresh) :
    ∃ n, n ≤ 1 ∧ (addSpacer geometry eachId count taffy).1 = List.range' taffy.next n ∧
      (addSpacer geometry eachId count taffy).2.next = taffy.next + n ∧
      taffy.Grown (addSpacer geometry eachId count taffy).2 := by
  unfold addSpacer
  split
  · exact ⟨1, Nat.le_refl _, rfl, rfl, alloc_grown h nofun⟩
  · exact ⟨0, Nat.zero_le _, rfl, rfl, .refl h⟩

theorem setColumn_spec (eachTaffyId : Nat) {taffy : TaffyTree σ} (h : taffy.Fresh) :
    (setColumn geometry eachTaffyId taffy).Fresh ∧
      ∀ id, ((setColumn geometry eachTaffyId taffy).Live id ↔ taffy.Live id) ∧
        (setColumn geometry eachTaffyId taffy).children id = taffy.children id := by
  unfold setColumn
  split
  · exact ⟨h.setStyle _, fun id => ⟨setStyle_live taffy id eachTaffyId _, setStyle_children taffy id eachTaffyId _⟩⟩
  · exact ⟨h, fun _ => ⟨Iff.rfl, rfl⟩⟩

/-- What placing rows does: `count` new nodes, of which the rows and spacers are the children of the node. -/
structure RowsPlaced (eachTaffyId : Nat) (rows rows' : Rows σ) (count : Nat) : Prop where
  fresh : rows'.taffy.Fresh
  live : ∀ id, rows'.taffy.Live id ↔ rows.taffy.Live id ∨ id ∈ List.range' rows.taffy.next count
  ids : rows'.allSyntheticIds = rows.allSyntheticIds ++ List.range' rows.taffy.next count
  sublist : (rowIds rows'.groups).Sublist (rows'.taffy.children eachTaffyId)
  listed : ∀ id ∈ rowIds rows'.groups, id ∈ List.range' rows.taffy.next count
  cover : ∀ id ∈ List.range' rows.taffy.next count,
    (∃ group ∈ rows'.groups, InRow group id) ∨ id ∈ rows'.taffy.children eachTaffyId
  others : ∀ id < rows.taffy.next, id ≠ eachTaffyId → rows'.taffy.children id = rows.taffy.children id

theorem placeRows_spec (node : DomNode) (eachTaffyId above visibleRows below : Nat) {taffy : TaffyTree σ}
    (ids : List Nat) (h : taffy.Fresh) (hlive : taffy.Live eachTaffyId) :
    ∃ count, count ≤ visibleRows * (DomNode.sizes node.children + 1) + 2 ∧
      RowsPlaced eachTaffyId ⟨taffy, [], ids⟩
        (placeRows nodeToTaffyId geometry node eachTaffyId above visibleRows below ⟨taffy, [], ids⟩) count := by
  have hrows := @addRows_spec σ nodeToTaffyId geometry node.children visibleRows ⟨taffy, [], ids⟩ h
  unfold placeRows
  generalize addRows nodeToTaffyId geometry node.children visibleRows ⟨taffy, [], ids⟩ = rows at *
  generalize visibleRows * (DomNode.sizes node.children + 1) = built at *
  dsimp only at *
  obtain ⟨hgrown, hnext, hids, added, hadded, hcover, hlisted⟩ := hrows
  simp only [nil_append] at hadded
  subst hadded
  obtain ⟨m, hm, htop, hnext', hgrown'⟩ :=
    addSpacer_spec geometry node.id above hgrown.fresh
  generalize addSpacer geometry node.id above rows.taffy = spacer at *
  obtain ⟨top, taffy'⟩ := spacer
  dsimp only at *
  obtain ⟨n, hn, hbottom, hnext'', hgrown''⟩ :=
    addSpacer_spec geometry node.id below hgrown'.fresh
  generalize addSpacer geometry node.id below taffy' = spacer at *
  obtain ⟨bottom, taffy''⟩ := spacer
  dsimp only at *
  have hall := (hgrown.trans hgrown').trans hgrown''
  have hbetween : ∀ id, id ∈ List.range' taffy.next (built + m + n) ↔ taffy.next ≤ id ∧ id < taffy''.next := by
    grind
  have hmem : ∀ id, id ∈ List.range' taffy.next (built + m + n) ↔
      id ∈ List.range' taffy.next built ∨ id ∈ top ∨ id ∈ bottom := by
    intro id
    rw [htop, hbottom, ← range'_append, ← range'_append, mem_append, mem_append, or_assoc, hnext', hnext,
      Nat.add_assoc]
  -- The children that the node gets are all new.
  have hnew : ∀ c ∈ top ++ rows.groups.map (·.1) ++ bottom, c ∈ List.range' taffy.next (built + m + n) := by
    intro c hc
    rw [mem_append, mem_append] at hc
    rw [hmem]
    rcases hc with (hc | hc) | hc
    · exact .inr (.inl hc)
    · exact .inl (hlisted c hc)
    · exact .inr (.inr hc)
  have hlive'' : taffy''.Live eachTaffyId := (hall.live eachTaffyId).mpr (.inl hlive)
  have hfresh := @Fresh.setChildren _ _ eachTaffyId _ hall.fresh
    fun c hc => ((hbetween c).mp (hnew c hc)).2
  obtain ⟨hcolumn, hsame⟩ := setColumn_spec geometry eachTaffyId hfresh
  have hchildren := setChildren_children_self taffy'' eachTaffyId (top ++ rows.groups.map (·.1) ++ bottom) hlive''
  refine ⟨built + m + n, by omega, hcolumn, fun id => ?_, ?_, ?_, fun id hid => ?_, fun id hid => ?_,
    fun id hid hne => ?_⟩
  · rw [(hsame id).1, setChildren_live, hall.live, hbetween]
  · show rows.allSyntheticIds ++ top ++ bottom = _
    rw [hids, htop, hbottom, hnext', hnext, ← range'_append taffy.next (built + m), ← range'_append taffy.next built,
      Nat.add_assoc taffy.next]
    simp only [append_assoc]
  · show (rowIds rows.groups).Sublist (TaffyTree.children _ _)
    rw [(hsame eachTaffyId).2, hchildren, append_assoc]
    exact (sublist_append_left _ _).trans (sublist_append_right _ _)
  · exact (hmem id).mpr (.inl (hlisted id hid))
  · rcases (hmem id).mp hid with hrow | hspacer
    · exact .inl (hcover id hrow)
    · grind
  · show TaffyTree.children _ id = _
    rw [(hsame id).2, setChildren_children_ne taffy'' id eachTaffyId _ hne, hall.children hid]
    intro c hc hcnew
    rw [hall.children hid] at hc
    exact absurd (h.children_lt hc) (Nat.not_lt.mpr ((hbetween c).mp (hnew c hcnew)).1)

end Rows

/-! ## Calls -/

/-- What `build_taffy_tree` builds of a document. -/
structure BuiltTree (σ : Type) where
  taffy : TaffyTree σ
  nodeToTaffyId : Nat → Option Nat
  fresh : taffy.Fresh
  live : ∀ id taffyId, nodeToTaffyId id = some taffyId → taffy.Live taffyId
  injective : ∀ id other taffyId, nodeToTaffyId id = some taffyId → nodeToTaffyId other = some taffyId → id = other

section Calls

variable {σ : Type} (dom : Dom) (built : BuiltTree σ) (maxSyntheticLayoutNodes : Nat)

structure ExpansionState (σ : Type) where
  taffy : TaffyTree σ
  expansion : EachExpansion

/-- A call, with an order for every table that it iterates. -/
structure ExpandCall (σ : Type) where
  store : VariableStore
  dirtyListNames : Option (Finset String)
  geometry : EachGeometry σ
  order : ∀ prev : EachExpansion, prev.Iteration

/-- Expands the tree, given the last expansion. -/
def expandCall (s : ExpansionState σ) (call : ExpandCall σ) : Option (ExpansionState σ) :=
  let result := expandEachNodes dom built.nodeToTaffyId maxSyntheticLayoutNodes call.store s.taffy s.expansion
    (call.order s.expansion) call.dirtyListNames call.geometry
  some ⟨result.1, result.2⟩

def BuiltTree.start : ExpansionState σ := ⟨built.taffy, .none⟩

/-- A node belongs to what the expansion says of an `each` node. -/
def Current (taffy : TaffyTree σ) (expansion : EachExpansion) (eachId id : Nat) : Prop :=
  ∃ groups, expansion.groups.lookup eachId = some groups ∧
    ((∃ group ∈ groups, InRow group id) ∨
      ∃ eachTaffyId, built.nodeToTaffyId eachId = some eachTaffyId ∧ id ∈ taffy.children eachTaffyId)

/-- The rows are children of their node, in order. -/
def RowsInOrder (taffy : TaffyTree σ) (expansion : EachExpansion) : Prop :=
  ∀ eachId groups, expansion.groups.lookup eachId = some groups →
    ∃ eachTaffyId, built.nodeToTaffyId eachId = some eachTaffyId ∧
      (rowIds groups).Sublist (taffy.children eachTaffyId)

/-- The nodes that were built are accounted for: they are those of the list, -/
structure Accounted (s : ExpansionState σ) : Prop where
  listed : ∀ id, s.taffy.Live id ∧ ¬ built.taffy.Live id ↔ id ∈ s.expansion.allSyntheticIds
  nodup : s.expansion.allSyntheticIds.Nodup
  /-- within the budget and two spacers for each node, -/
  bounded : s.expansion.allSyntheticIds.length ≤ maxSyntheticLayoutNodes + 2 * (eachNodes dom none).length
  /-- and part of the expansion. -/
  current : ∀ id, s.taffy.Live id → ¬ built.taffy.Live id → ∃ eachId, Current built s.taffy s.expansion eachId id
  rows : RowsInOrder built s.taffy s.expansion

/-! ## What the loop keeps -/

/-- The accounts while `each` nodes are expanded, of which some are `done`. -/
structure Expanding (done : List (DomNode × String)) (s : ExpandState σ) : Prop where
  fresh : s.taffy.Fresh
  live : ∀ id, s.taffy.Live id ↔ built.taffy.Live id ∨ id ∈ s.expansion.allSyntheticIds
  apart : ∀ id ∈ s.expansion.allSyntheticIds, ¬ built.taffy.Live id
  nodup : s.expansion.allSyntheticIds.Nodup
  budget : s.expansion.allSyntheticIds.length + s.remainingBudget ≤ maxSyntheticLayoutNodes + 2 * done.length
  original : ∀ eachId children, s.expansion.originalChildren.lookup eachId = some children →
    ∀ id ∈ children, built.taffy.Live id
  listed : ∀ eachId groups, s.expansion.groups.lookup eachId = some groups →
    ∀ id ∈ rowIds groups, id ∈ s.expansion.allSyntheticIds
  rows : RowsInOrder built s.taffy s.expansion
  current : ∀ id ∈ s.expansion.allSyntheticIds, ∃ eachId ∈ done.map (·.1.id),
    Current built s.taffy s.expansion eachId id

variable {dom built maxSyntheticLayoutNodes} {done : List (DomNode × String)} {s : ExpandState σ}

/-- The nodes of the document stay in the tree. -/
theorem Expanding.live_mapped (h : Expanding built maxSyntheticLayoutNodes done s) {id taffyId : Nat}
    (hid : built.nodeToTaffyId id = some taffyId) : s.taffy.Live taffyId :=
  (h.live taffyId).mpr (.inl (built.live id taffyId hid))

theorem Expanding.skip (h : Expanding built maxSyntheticLayoutNodes done s) (block : DomNode × String) :
    Expanding built maxSyntheticLayoutNodes (done ++ [block]) s where
  fresh := h.fresh
  live := h.live
  apart := h.apart
  nodup := h.nodup
  budget := by
    have hbudget := h.budget
    rw [length_append, length_singleton]
    omega
  original := h.original
  listed := h.listed
  rows := h.rows
  current id hid := by
    obtain ⟨eachId, hdone, hcurrent⟩ := h.current id hid
    refine ⟨eachId, ?_, hcurrent⟩
    rw [map_append]
    exact mem_append_left _ hdone

theorem expandedWith_mapped {nodeToTaffyId : Nat → Option Nat} {store : VariableStore} {node : DomNode}
    {listName : String} {n eachTaffyId : Nat}
    (h : expandedWith nodeToTaffyId store node listName = some (n, eachTaffyId)) :
    nodeToTaffyId node.id = some eachTaffyId := by
  grind [expandedWith]

theorem expandBlock_expanding (h : Expanding built maxSyntheticLayoutNodes done s) (store : VariableStore)
    (geometry : EachGeometry σ) (block : DomNode × String) (hblock : block.1.id ∉ done.map (·.1.id)) :
    Expanding built maxSyntheticLayoutNodes (done ++ [block])
      (expandBlock built.nodeToTaffyId store geometry s block) := by
  unfold expandBlock
  dsimp only
  cases hwith : expandedWith built.nodeToTaffyId store block.1 block.2 with
  | none => exact h.skip block
  | some found =>
    obtain ⟨n, eachTaffyId⟩ := found
    dsimp only
    have hmapped : built.nodeToTaffyId block.1.id = some eachTaffyId := expandedWith_mapped hwith
    generalize min (geometry.topRow block.1.id) n = first
    generalize max first (min (geometry.bottomRow block.1.id) n) - first = wantedRows
    generalize hvisible : min wantedRows (s.remainingBudget / (DomNode.sizes block.1.children + 1)) = visibleRows
    obtain ⟨count, hcount, hplaced⟩ := placeRows_spec built.nodeToTaffyId geometry block.1 eachTaffyId first
      visibleRows (n - (first + visibleRows)) s.expansion.allSyntheticIds h.fresh (h.live_mapped hmapped)
    generalize placeRows built.nodeToTaffyId geometry block.1 eachTaffyId first visibleRows
      (n - (first + visibleRows)) ⟨s.taffy, [], s.expansion.allSyntheticIds⟩ = rows at *
    have hnew : ∀ id ∈ List.range' s.taffy.next count, ¬ s.taffy.Live id := by
      intro id hid hlive
      exact absurd (h.fresh.live_lt hlive) (Nat.not_lt.mpr (mem_range'_1.mp hid).1)
    have hmem : ∀ id, id ∈ rows.allSyntheticIds ↔
        id ∈ s.expansion.allSyntheticIds ∨ id ∈ List.range' s.taffy.next count := by
      intro id
      rw [hplaced.ids, mem_append]
    -- The children of the nodes that were expanded before stay.
    have hothers : ∀ other otherTaffyId, other ≠ block.1.id → built.nodeToTaffyId other = some otherTaffyId →
        rows.taffy.children otherTaffyId = s.taffy.children otherTaffyId := by
      intro other otherTaffyId hne hother
      refine hplaced.others otherTaffyId (h.fresh.live_lt (h.live_mapped hother)) ?_
      rintro rfl
      exact hne (built.injective other block.1.id otherTaffyId hother hmapped)
    refine ⟨hplaced.fresh, fun id => ?_, fun id hid => ?_, ?_, ?_, fun eachId children hchildren => ?_,
      fun eachId groups hgroups => ?_, fun eachId groups hgroups => ?_, fun id hid => ?_⟩
    · rw [hplaced.live, h.live, hmem, or_assoc]
    · intro hlive
      rcases (hmem id).mp hid with hid | hid
      · exact h.apart id hid hlive
      · exact hnew id hid ((h.live id).mpr (.inl hlive))
    · show rows.allSyntheticIds.Nodup
      rw [hplaced.ids, nodup_append]
      refine ⟨h.nodup, nodup_range', ?_⟩
      rintro id hid _ hid' rfl
      exact hnew id hid' ((h.live id).mpr (.inr hid))
    · show rows.allSyntheticIds.length + (s.remainingBudget - visibleRows * (DomNode.sizes block.1.children + 1)) ≤ _
      have hfits : visibleRows * (DomNode.sizes block.1.children + 1) ≤ s.remainingBudget := by
        refine Nat.le_trans (Nat.mul_le_mul_right _ ?_)
          (Nat.div_mul_le_self s.remainingBudget (DomNode.sizes block.1.children + 1))
        omega
      have hbudget := h.budget
      have hlength : rows.allSyntheticIds.length = s.expansion.allSyntheticIds.length + count := by
        rw [hplaced.ids, length_append, length_range']
      rw [length_append, length_singleton, hlength]
      omega
    · dsimp only at hchildren
      by_cases heach : eachId = block.1.id
      · subst heach
        rw [Finmap.lookup_insert] at hchildren
        obtain rfl := Option.some.inj hchildren
        intro id hid
        obtain ⟨child, _, hchild⟩ := mem_filterMap.mp hid
        exact built.live child.id id hchild
      · rw [Finmap.lookup_insert_of_ne _ heach] at hchildren
        exact h.original eachId children hchildren
    · dsimp only at hgroups
      intro id hid
      refine (hmem id).mpr ?_
      by_cases heach : eachId = block.1.id
      · subst heach
        rw [Finmap.lookup_insert] at hgroups
        obtain rfl := Option.some.inj hgroups
        exact .inr (hplaced.listed id hid)
      · rw [Finmap.lookup_insert_of_ne _ heach] at hgroups
        exact .inl (h.listed eachId groups hgroups id hid)
    · dsimp only at hgroups
      by_cases heach : eachId = block.1.id
      · subst heach
        rw [Finmap.lookup_insert] at hgroups
        obtain rfl := Option.some.inj hgroups
        exact ⟨eachTaffyId, hmapped, hplaced.sublist⟩
      · rw [Finmap.lookup_insert_of_ne _ heach] at hgroups
        obtain ⟨otherTaffyId, hother, hsublist⟩ := h.rows eachId groups hgroups
        refine ⟨otherTaffyId, hother, ?_⟩
        show (rowIds groups).Sublist (rows.taffy.children otherTaffyId)
        rw [hothers eachId otherTaffyId heach hother]
        exact hsublist
    · rw [map_append]
      rcases (hmem id).mp hid with hid | hid
      · obtain ⟨eachId, hdone, groups, hgroups, hcurrent⟩ := h.current id hid
        have heach : eachId ≠ block.1.id := by grind
        refine ⟨eachId, mem_append_left _ hdone, groups,
          (Finmap.lookup_insert_of_ne _ heach).trans hgroups, hcurrent.imp_right ?_⟩
        rintro ⟨otherTaffyId, hother, hchild⟩
        refine ⟨otherTaffyId, hother, ?_⟩
        show id ∈ rows.taffy.children otherTaffyId
        rw [hothers eachId otherTaffyId heach hother]
        exact hchild
      · refine ⟨block.1.id, mem_append_right _ mem_cons_self, rows.groups,
          Finmap.lookup_insert _, (hplaced.cover id hid).imp_right ?_⟩
        intro hchild
        exact ⟨eachTaffyId, hmapped, hchild⟩

theorem expandBlocks_expanding (store : VariableStore) (geometry : EachGeometry σ)
    (blocks : List (DomNode × String)) (h : Expanding built maxSyntheticLayoutNodes done s)
    (hnodup : ((done ++ blocks).map (·.1.id)).Nodup) :
    Expanding built maxSyntheticLayoutNodes (done ++ blocks)
      (blocks.foldl (expandBlock built.nodeToTaffyId store geometry) s) := by
  induction blocks generalizing done s with
  | nil =>
    rw [append_nil]
    exact h
  | cons block blocks ih =>
    have hsplit : done ++ block :: blocks = done ++ [block] ++ blocks := append_cons done block blocks
    rw [hsplit] at hnodup ⊢
    have hblock : block.1.id ∉ done.map (·.1.id) := by grind
    exact ih (expandBlock_expanding h store geometry block hblock) hnodup

/-! ## Tearing down the last expansion -/

variable (dirtyListNames : Option (Finset String))

theorem restoreChildren_spec {prev : EachExpansion}
    (order : prev.Iteration) {taffy : TaffyTree σ} (h : taffy.Fresh)
    (hchildren : ∀ eachId children, prev.originalChildren.lookup eachId = some children →
      ∀ id ∈ children, taffy.Live id) :
    (restoreChildren dom built.nodeToTaffyId dirtyListNames prev order taffy).Fresh ∧
      ∀ id, (restoreChildren dom built.nodeToTaffyId dirtyListNames prev order taffy).Live id ↔ taffy.Live id := by
  unfold restoreChildren
  refine List.foldlRecOn
    (motive := fun restored : TaffyTree σ => restored.Fresh ∧ ∀ id, restored.Live id ↔ taffy.Live id) _ _
    ⟨h, fun _ => Iff.rfl⟩ ?_
  rintro restored ⟨hfresh, hlive⟩ ⟨eachId, children⟩ hentry
  dsimp only
  split
  · split
    · rename_i eachTaffyId _
      refine ⟨hfresh.setChildren fun id hid => ?_, fun id => ?_⟩
      · have hprev := hchildren eachId children ((order.originalChildren.mem_iff _ _).mp hentry) id hid
        exact hfresh.live_lt ((hlive id).mpr hprev)
      · rw [setChildren_live]
        exact hlive id
    · exact ⟨hfresh, hlive⟩
  · exact ⟨hfresh, hlive⟩

theorem lookup_insertSome {α : Type} {m : FxHashMap Nat α} {key id : Nat} {v : Option α} {a : α}
    (h : (insertSome m key v).lookup id = some a) : m.lookup id = some a ∨ id = key ∧ v = some a := by
  unfold insertSome at h
  cases v with
  | none => exact .inl h
  | some b => grind [Finmap.lookup_insert, Finmap.lookup_insert_of_ne]

/-- Of an expansion without nodes no nodes are kept, and of its tables nothing else. -/
theorem carried_spec {prev : EachExpansion} (order : prev.Iteration)
    (hrows : dirtyListNames = none ∨ ∀ eachId groups, prev.groups.lookup eachId = some groups → rowIds groups = []) :
    (carried dom dirtyListNames prev order).allSyntheticIds = [] ∧
      (∀ eachId groups, (carried dom dirtyListNames prev order).groups.lookup eachId = some groups →
        prev.groups.lookup eachId = some groups ∧ rowIds groups = []) ∧
      ∀ eachId children, (carried dom dirtyListNames prev order).originalChildren.lookup eachId = some children →
        prev.originalChildren.lookup eachId = some children := by
  unfold carried
  cases dirtyListNames with
  | none => exact ⟨rfl, nofun, nofun⟩
  | some names =>
    have hrows := hrows.resolve_left nofun
    refine List.foldlRecOn (motive := fun kept : EachExpansion => kept.allSyntheticIds = [] ∧
      (∀ eachId groups, kept.groups.lookup eachId = some groups →
        prev.groups.lookup eachId = some groups ∧ rowIds groups = []) ∧
      ∀ eachId children, kept.originalChildren.lookup eachId = some children →
        prev.originalChildren.lookup eachId = some children) _ _ ⟨rfl, nofun, nofun⟩ ?_
    rintro kept ⟨hids, hgroups, horiginal⟩ ⟨key, rows⟩ hentry
    have hkey : prev.groups.lookup key = some rows := (order.groups.mem_iff _ _).mp (mem_of_mem_filter hentry)
    refine ⟨?_, fun eachId groups hlookup => ?_, fun eachId children hlookup => ?_⟩
    · show kept.allSyntheticIds ++ rowIds rows = []
      rw [hids, hrows key rows hkey, append_nil]
    · grind [Finmap.lookup_insert, Finmap.lookup_insert_of_ne]
    · grind [lookup_insertSome]

/-! ## Runs -/

/-- The call builds every list anew, or finds no node built. -/
def StartsAfresh (s : ExpansionState σ) (call : ExpandCall σ) : Prop :=
  call.dirtyListNames = none ∨ s.expansion.allSyntheticIds = []

variable (dom built maxSyntheticLayoutNodes) in
/-- The accounts between calls. -/
def KeepsAccounts (s : ExpansionState σ) : Prop :=
  ∃ done remainingBudget, done.length ≤ (eachNodes dom none).length ∧
    Expanding built maxSyntheticLayoutNodes done ⟨s.taffy, s.expansion, remainingBudget⟩

theorem start_kept : KeepsAccounts dom built maxSyntheticLayoutNodes built.start := by
  refine ⟨[], maxSyntheticLayoutNodes, Nat.zero_le _, built.fresh, fun id => ?_, nofun, nodup_nil, ?_, nofun,
    nofun, nofun, nofun⟩
  · exact ⟨.inl, fun h => h.elim (fun h => h) nofun⟩
  · show 0 + maxSyntheticLayoutNodes ≤ maxSyntheticLayoutNodes + 2 * 0
    omega

/-- The nodes that are built anew are those of the document with a changed list. -/
theorem eachNodes_filter :
    eachNodes dom dirtyListNames = (eachNodes dom none).filter fun block => dirtyListNames.all (block.2 ∈ ·) := by
  unfold eachNodes
  rw [filter_filterMap]
  congr 1
  funext node
  cases node.isEach with
  | false => rfl
  | true =>
    cases node.listName with
    | none => rfl
    | some name =>
      simp only [if_true, Option.bind_some, Option.all_none]
      rw [Option.filter_some]

theorem eachNodes_nodup : ((eachNodes dom dirtyListNames).map (·.1.id)).Nodup := by
  have hsublist : ((eachNodes dom none).map (·.1.id)).Sublist (dom.nodes.map (·.id)) := by
    unfold eachNodes
    induction dom.nodes with
    | nil => exact .slnil
    | cons node nodes ih =>
      rw [filterMap_cons]
      cases node.isEach with
      | false => exact ih.cons _
      | true =>
        cases node.listName with
        | none => exact ih.cons _
        | some name => exact ih.cons_cons _
  rw [eachNodes_filter]
  exact dom.nodup.sublist ((filter_sublist.map _).trans hsublist)

theorem expandCall_kept {s t : ExpansionState σ} {call : ExpandCall σ}
    (h : KeepsAccounts dom built maxSyntheticLayoutNodes s) (hafresh : StartsAfresh s call)
    (hstep : expandCall dom built maxSyntheticLayoutNodes s call = some t) :
    KeepsAccounts dom built maxSyntheticLayoutNodes t := by
  obtain ⟨done, remainingBudget, _, hkept⟩ := h
  obtain rfl := Option.some.inj hstep
  obtain ⟨hfresh, hlive⟩ := @restoreChildren_spec _ dom built call.dirtyListNames _ (call.order s.expansion) _
    hkept.fresh fun eachId children hlookup id hid =>
      (hkept.live id).mpr (.inl (hkept.original eachId children hlookup id hid))
  have hrows : call.dirtyListNames = none ∨
      ∀ eachId groups, s.expansion.groups.lookup eachId = some groups → rowIds groups = [] := by
    refine hafresh.imp_right fun hids eachId groups hgroups => ?_
    refine eq_nil_iff_forall_not_mem.mpr fun id hid => ?_
    have hmem := hkept.listed eachId groups hgroups id hid
    rw [hids] at hmem
    cases hmem
  obtain ⟨hids, hgroups, horiginal⟩ := @carried_spec dom call.dirtyListNames _ (call.order s.expansion) hrows
  have hfreed : freedIds dom call.dirtyListNames s.expansion (call.order s.expansion) =
      s.expansion.allSyntheticIds := by
    rcases hafresh with hnone | hempty
    · rw [hnone]
      rfl
    · unfold freedIds
      split
      · rfl
      · rw [hempty]
        rfl
  refine ⟨eachNodes dom call.dirtyListNames, _, ?_,
    @expandBlocks_expanding _ _ _ [] _ call.store call.geometry _ ?_ (eachNodes_nodup call.dirtyListNames)⟩
  · rw [eachNodes_filter]
    exact length_filter_le _ _
  generalize carried dom call.dirtyListNames s.expansion (call.order s.expansion) = expansion at *
  generalize restoreChildren dom built.nodeToTaffyId call.dirtyListNames s.expansion (call.order s.expansion) s.taffy =
    taffy at *
  rw [hfreed]
  refine ⟨hfresh.removeAll _, fun id => ?_, fun id hid => ?_, ?_, ?_, fun eachId children hlookup => ?_,
    fun eachId groups hlookup id hid => ?_, fun eachId groups hlookup => ?_, fun id hid => ?_⟩
  · rw [removeAll_live, hlive, hkept.live, hids]
    have hapart := hkept.apart id
    constructor
    · grind
    · grind
  · rw [hids] at hid
    cases hid
  · rw [hids]
    exact nodup_nil
  · grind
  · exact hkept.original eachId children (horiginal eachId children hlookup)
  · rw [(hgroups eachId groups hlookup).2] at hid
    cases hid
  · obtain ⟨hprev, hempty⟩ := hgroups eachId groups hlookup
    obtain ⟨eachTaffyId, hmapped, _⟩ := hkept.rows eachId groups hprev
    refine ⟨eachTaffyId, hmapped, ?_⟩
    rw [hempty]
    exact nil_sublist _
  · rw [hids] at hid
    cases hid

theorem KeepsAccounts.accounted {s : ExpansionState σ} (h : KeepsAccounts dom built maxSyntheticLayoutNodes s) :
    Accounted dom built maxSyntheticLayoutNodes s := by
  obtain ⟨done, remainingBudget, hdone, hkept⟩ := h
  have hlisted : ∀ id, s.taffy.Live id ∧ ¬ built.taffy.Live id ↔ id ∈ s.expansion.allSyntheticIds := by
    intro id
    rw [hkept.live id]
    exact ⟨fun h => h.1.resolve_left h.2, fun hid => ⟨.inr hid, hkept.apart id hid⟩⟩
  refine ⟨hlisted, hkept.nodup, ?_, fun id hlive hnew => ?_, hkept.rows⟩
  · have hbudget := hkept.budget
    dsimp only at hbudget
    omega
  · obtain ⟨eachId, _, hcurrent⟩ := hkept.current id ((hlisted id).mp ⟨hlive, hnew⟩)
    exact ⟨eachId, hcurrent⟩

/-- In every run of calls that start afresh, the nodes that were built are accounted for. -/
theorem synthetic_nodes_accounted {s : ExpansionState σ}
    (h : Reaches (expandCall dom built maxSyntheticLayoutNodes) StartsAfresh built.start s) :
    Accounted dom built maxSyntheticLayoutNodes s :=
  (h.invariant start_kept fun _ _ _ hs hgood hstep => expandCall_kept hs hgood hstep).accounted

end Calls

/-! ## A list that changes twice -/

section Leak

/-- A list shown by a leaf. -/
def itemsDom : Dom := ⟨[.mk 0 true (some ("x", "items")) [.mk 1 false none []], .mk 1 false none []], by decide⟩

/-- The list has one element. -/
def itemsStore : VariableStore :=
  (VariableStore.mk (.new 20000) (Interner.new.getOrIntern "items").2).setRuntime "items" (.list [.null])

/-- The leaf, and the node that shows it. -/
def itemsTree : BuiltTree Unit where
  taffy := ⟨fun id => if id = 0 then some ⟨(), some 1, []⟩ else if id = 1 then some ⟨(), none, [0]⟩ else none, 2⟩
  nodeToTaffyId id := if id = 0 then some 1 else if id = 1 then some 0 else none
  fresh := by
    intro id n h
    dsimp only at h ⊢
    split at h
    · cases h
      exact ⟨by omega, nofun⟩
    · split at h
      · cases h
        exact ⟨by omega, by simp⟩
      · cases h
  live := by
    intro id taffyId h
    split at h
    · cases h
      rfl
    · split at h
      · cases h
        rfl
      · cases h
  injective := by
    intro id other taffyId h h'
    grind

def itemsGeometry : EachGeometry Unit := ⟨fun _ => 0, fun _ => 10, fun _ _ => (), (), (), fun _ => ()⟩

/-- The expansion by the first call: the leaf, in a row. -/
def itemsExpansion : EachExpansion where
  groups := Finmap.singleton 0 [(3, [(1, 2)])]
  originalChildren := Finmap.singleton 0 [0]
  allSyntheticIds := [2, 3]
  truncated := ∅
  windowStart := Finmap.singleton 0 0

def noOrder : EachExpansion.none.Iteration := ⟨emptyEntries, emptyEntries⟩

def itemsOrder : itemsExpansion.Iteration := ⟨singletonEntries _ _, singletonEntries _ _⟩

theorem exists_itemsOrder :
    ∃ order : ∀ prev : EachExpansion, prev.Iteration, order .none = noOrder ∧ order itemsExpansion = itemsOrder := by
  obtain ⟨order⟩ : Nonempty (∀ prev : EachExpansion, prev.Iteration) :=
    ⟨fun prev => ⟨(entries_exists prev.groups).some, (entries_exists prev.originalChildren).some⟩⟩
  refine ⟨order, ?_, ?_⟩
  · obtain ⟨groups, originalChildren⟩ := order .none
    rw [entries_unique emptyEntries groups (Nat.zero_le _),
      entries_unique emptyEntries originalChildren (Nat.zero_le _)]
    rfl
  · obtain ⟨groups, originalChildren⟩ := order itemsExpansion
    rw [entries_unique (singletonEntries _ _) groups (Nat.le_refl _),
      entries_unique (singletonEntries _ _) originalChildren (Nat.le_refl _)]
    rfl

def itemsCall (order : ∀ prev : EachExpansion, prev.Iteration) (dirtyListNames : Option (Finset String)) :
    ExpandCall Unit :=
  ⟨itemsStore, dirtyListNames, itemsGeometry, order⟩

def itemsFirst : ExpansionState Unit where
  taffy := (expandEachNodes itemsDom itemsTree.nodeToTaffyId 20000 itemsStore itemsTree.taffy .none noOrder none
    itemsGeometry).1
  expansion := itemsExpansion

def itemsSecond (dirtyListNames : Option (Finset String)) : ExpansionState Unit :=
  let result := expandEachNodes itemsDom itemsTree.nodeToTaffyId 20000 itemsStore itemsFirst.taffy itemsExpansion
    itemsOrder dirtyListNames itemsGeometry
  ⟨result.1, result.2⟩

variable {order : ∀ prev : EachExpansion, prev.Iteration}

theorem itemsCall_first (h : order .none = noOrder) :
    expandCall itemsDom itemsTree 20000 itemsTree.start (itemsCall order none) = some itemsFirst := by
  unfold expandCall
  dsimp only [BuiltTree.start, itemsCall]
  rw [h]
  rfl

theorem itemsCall_second (h : order itemsExpansion = itemsOrder) (dirtyListNames : Option (Finset String)) :
    expandCall itemsDom itemsTree 20000 itemsFirst (itemsCall order dirtyListNames) =
      some (itemsSecond dirtyListNames) := by
  unfold expandCall
  dsimp only [itemsFirst, itemsCall]
  rw [h]
  rfl

/-- Two calls that build the list anew. -/
theorem synthetic_nodes_accounted_twice :
    (itemsSecond none).expansion.allSyntheticIds = [4, 5] ∧
      Accounted itemsDom itemsTree 20000 (itemsSecond none) := by
  obtain ⟨order, hnone, hitems⟩ := exists_itemsOrder
  exact ⟨by decide, synthetic_nodes_accounted
    (.next (.next .refl (.inl rfl) (itemsCall_first hnone)) (.inl rfl) (itemsCall_second hitems none))⟩

/-- A changed list: the leaf of the old row stays in the tree. -/
theorem partial_rebuild_leaks :
    ¬ ∀ (σ : Type) (dom : Dom) (built : BuiltTree σ) (maxSyntheticLayoutNodes : Nat) (s : ExpansionState σ),
        Reaches (expandCall dom built maxSyntheticLayoutNodes) (fun _ _ => True) built.start s →
          Accounted dom built maxSyntheticLayoutNodes s := by
  intro h
  obtain ⟨order, hnone, hitems⟩ := exists_itemsOrder
  have haccounted := h Unit itemsDom itemsTree 20000 _ (.next (.next .refl trivial (itemsCall_first hnone)) trivial
    (itemsCall_second hitems (some {"items"})))
  have hlisted : 2 ∈ (itemsSecond (some {"items"})).expansion.allSyntheticIds :=
    (haccounted.listed 2).mp ⟨by decide, by decide⟩
  exact absurd hlisted (by decide)

end Leak

end Mizu
