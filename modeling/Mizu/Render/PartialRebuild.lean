import Mizu.Render.SyntheticNodes

/-!
# A layout for some lists

When the lists of a page change, `resizeTabViewport` builds the layout tree anew and is told which lists to expand
in it. The last expansion is of the tree that was replaced, and is dropped.

* `partial_rebuild_same_iff`: what it leaves is what it leaves for all lists, up to the ids of nodes, if and only
  if every list that shows rows is among those it is told of, or the window has no area.
* `unchanged_list_loses_rows`: the rows of a list that did not change are gone.
-/

namespace Mizu.TabRows

open List

section Resize

variable {σ : Type} (dom : Dom) (built : BuiltTree σ) (maxSyntheticLayoutNodes : Nat)

/-- What `resize_tab_viewport` does to the layout tree and the expansion; `built` is the new tree, and `sized`
whether the window has an area. -/
def resizeTabViewport (store : VariableStore) (geometry : EachGeometry σ) (sized : Bool) (s : ExpansionState σ)
    (dirtyListNames : Option (Finset String)) : ExpansionState σ :=
  if sized then
    let result := expandEachNodes dom built.nodeToTaffyId maxSyntheticLayoutNodes store built.taffy .none noOrder
      dirtyListNames geometry
    ⟨result.1, result.2⟩
  else s

def renameGroup (ρ : Nat ≃ Nat) (group : EachGroup) : EachGroup :=
  (ρ group.1, group.2.map fun entry => (entry.1, ρ entry.2))

/-- Two states of a tab are the same, when the nodes that were built are renamed. -/
structure SameUpToIds (ρ : Nat ≃ Nat) (s t : ExpansionState σ) : Prop where
  fixed : ∀ id, built.taffy.Live id → ρ id = id
  groups : ∀ eachId, t.expansion.groups.lookup eachId =
    (s.expansion.groups.lookup eachId).map (List.map (renameGroup ρ))
  windowStart : ∀ eachId, t.expansion.windowStart.lookup eachId = s.expansion.windowStart.lookup eachId
  truncated : ∀ eachId, t.expansion.truncated.lookup eachId = s.expansion.truncated.lookup eachId
  children : ∀ node ∈ dom.nodes, node.isEach → ∀ eachTaffyId, built.nodeToTaffyId node.id = some eachTaffyId →
    t.taffy.children eachTaffyId = (s.taffy.children eachTaffyId).map ρ

/-- A node shows rows: it has a template and a node in the layout tree, and its list has an element. -/
def ShowsRows (store : VariableStore) (block : DomNode × String) : Prop :=
  (∃ n, 0 < n ∧ listLength store block.2 = some n) ∧
    (∃ eachTaffyId, built.nodeToTaffyId block.1.id = some eachTaffyId) ∧ block.1.children ≠ []

variable {dom built maxSyntheticLayoutNodes}

theorem SameUpToIds.refl (s : ExpansionState σ) : SameUpToIds dom built (.refl Nat) s s where
  fixed _ _ := rfl
  groups eachId := by
    have hrename : List.map (renameGroup (.refl Nat)) = id := by
      funext groups
      refine map_id'' (fun group => ?_) groups
      exact Prod.ext rfl (map_id _)
    rw [hrename, Option.map_id]
    rfl
  windowStart _ := rfl
  truncated _ := rfl
  children _ _ _ eachTaffyId _ := (map_id _).symm

/-! ## Which nodes are expanded -/

variable (store : VariableStore)

theorem expandedWith_isSome_iff (block : DomNode × String) :
    (expandedWith built.nodeToTaffyId store block.1 block.2).isSome ↔ ShowsRows built store block := by
  grind [Nat.pos_iff_ne_zero, expandedWith, ShowsRows]

theorem expandBlock_skip {store : VariableStore} {block : DomNode × String} (h : ¬ ShowsRows built store block)
    (geometry : EachGeometry σ) (s : ExpandState σ) :
    expandBlock built.nodeToTaffyId store geometry s block = s := by
  rw [← expandedWith_isSome_iff, Option.isSome_iff_ne_none, not_not] at h
  unfold expandBlock
  dsimp only
  rw [h]

/-- A window starts at each node that was expanded. -/
theorem expandBlock_windowStart (geometry : EachGeometry σ) (s : ExpandState σ)
    (block : DomNode × String) (id : Nat) :
    ((expandBlock built.nodeToTaffyId store geometry s block).expansion.windowStart.lookup id).isSome ↔
      (s.expansion.windowStart.lookup id).isSome ∨ block.1.id = id ∧ ShowsRows built store block := by
  by_cases hshows : ShowsRows built store block
  · obtain ⟨found, hfound⟩ := Option.isSome_iff_exists.mp ((expandedWith_isSome_iff store block).mpr hshows)
    unfold expandBlock
    dsimp only
    rw [hfound]
    dsimp only
    by_cases hid : id = block.1.id
    · grind [Finmap.lookup_insert]
    · grind [Finmap.lookup_insert_of_ne]
  · grind [expandBlock_skip]

theorem expandBlocks_windowStart (geometry : EachGeometry σ)
    (blocks : List (DomNode × String)) (s : ExpandState σ) (id : Nat) :
    ((blocks.foldl (expandBlock built.nodeToTaffyId store geometry) s).expansion.windowStart.lookup id).isSome ↔
      (s.expansion.windowStart.lookup id).isSome ∨
        ∃ block ∈ blocks, block.1.id = id ∧ ShowsRows built store block := by
  induction blocks generalizing s with
  | nil => simp
  | cons block blocks ih =>
    rw [foldl_cons, ih, expandBlock_windowStart, exists_mem_cons_iff, or_assoc]

/-- Without a last expansion, the loop is all there is. -/
theorem expandEachNodes_afresh (geometry : EachGeometry σ) (dirtyListNames : Option (Finset String)) :
    expandEachNodes dom built.nodeToTaffyId maxSyntheticLayoutNodes store built.taffy .none noOrder dirtyListNames
        geometry =
      let s := (eachNodes dom dirtyListNames).foldl (expandBlock built.nodeToTaffyId store geometry)
        ⟨built.taffy, .none, maxSyntheticLayoutNodes⟩
      (s.taffy, s.expansion) := by
  cases dirtyListNames with
  | none => rfl
  | some names => rfl

/-- Nodes that are not expanded may be left out. -/
theorem expandBlocks_filter {store : VariableStore} {geometry : EachGeometry σ} {dirty : Finset String}
    (h : ∀ block ∈ eachNodes dom none, ShowsRows built store block → block.2 ∈ dirty) (s : ExpandState σ) :
    (eachNodes dom (some dirty)).foldl (expandBlock built.nodeToTaffyId store geometry) s =
      (eachNodes dom none).foldl (expandBlock built.nodeToTaffyId store geometry) s := by
  rw [eachNodes_filter, foldl_filter]
  refine foldl_ext _ _ s fun t block hblock => ?_
  split
  · rfl
  · rename_i hdirty
    refine (expandBlock_skip (fun hshows => hdirty ?_) geometry t).symm
    exact decide_eq_true (h block hblock hshows)

/-! ## The result -/

variable (dom built maxSyntheticLayoutNodes) in
/-- What a resize for some lists leaves is what one for all lists does, up to the ids of nodes, if and only if it
leaves out no list that shows rows, or does nothing. -/
theorem partial_rebuild_same_iff (store : VariableStore) (geometry : EachGeometry σ) (sized : Bool)
    (s : ExpansionState σ) (dirty : Finset String) :
    (∃ ρ, SameUpToIds dom built ρ
        (resizeTabViewport dom built maxSyntheticLayoutNodes store geometry sized s (some dirty))
        (resizeTabViewport dom built maxSyntheticLayoutNodes store geometry sized s none)) ↔
      sized = false ∨ ∀ block ∈ eachNodes dom none, ShowsRows built store block → block.2 ∈ dirty := by
  unfold resizeTabViewport
  cases sized with
  | false => exact ⟨fun _ => .inl rfl, fun _ => ⟨_, .refl s⟩⟩
  | true =>
    rw [expandEachNodes_afresh, expandEachNodes_afresh]
    dsimp only
    constructor
    · rintro ⟨ρ, hsame⟩
      refine .inr fun block hblock hshows => ?_
      have hfull := (@expandBlocks_windowStart σ built store geometry (eachNodes dom none)
        ⟨built.taffy, .none, maxSyntheticLayoutNodes⟩ block.1.id).mpr (.inr ⟨block, hblock, rfl, hshows⟩)
      have hpartial := (congrArg (fun v => Option.isSome v = true) (hsame.windowStart block.1.id)).mp hfull
      obtain hnone | ⟨other, hother, hid, _⟩ := (expandBlocks_windowStart store geometry _ _ block.1.id).mp hpartial
      · cases hnone
      · rw [eachNodes_filter] at hother
        obtain ⟨hmem, hdirty⟩ := mem_filter.mp hother
        obtain rfl := inj_on_of_nodup_map (eachNodes_nodup none) hmem hblock hid
        exact of_decide_eq_true hdirty
    · rintro (hsized | hdirty)
      · cases hsized
      · rw [if_pos rfl, if_pos rfl, expandBlocks_filter hdirty]
        exact ⟨_, .refl _⟩

end Resize

/-! ## Two lists, of which one changes -/

/-- Two lists, each shown by a leaf. -/
def listsDom : Dom where
  nodes := [.mk 0 true (some ("x", "a")) [.mk 1 false none []], .mk 1 false none [],
    .mk 2 true (some ("x", "b")) [.mk 3 false none []], .mk 3 false none []]
  nodup := by decide

/-- The lengths of the lists. -/
def listsStore (a b : Nat) : VariableStore :=
  let interner := ((Interner.new.getOrIntern "a").2.getOrIntern "b").2
  ((VariableStore.mk (.new 20000) interner).setRuntime "a" (.list (.replicate a .null))).setRuntime "b"
    (.list (.replicate b .null))

/-- The leaves and the nodes that show them, under the ids of the document. -/
def listsTree : BuiltTree Unit where
  taffy :=
    ⟨fun id => if id = 0 then some ⟨(), none, [1]⟩ else if id = 2 then some ⟨(), none, [3]⟩
      else if id < 4 then some ⟨(), some id, []⟩ else none, 4⟩
  nodeToTaffyId id := if id < 4 then some id else none
  fresh := by
    intro id n h
    dsimp only at h
    grind
  live := by
    intro id taffyId h
    unfold TaffyTree.Live
    grind
  injective := by grind

/-- A list that did not change is not expanded, when the other one did. -/
theorem unchanged_list_loses_rows :
    ¬ ∀ (σ : Type) (dom : Dom) (built : BuiltTree σ) (maxSyntheticLayoutNodes : Nat) (before store : VariableStore)
        (geometry : EachGeometry σ) (s : ExpansionState σ) (dirty : Finset String),
        (∀ block ∈ eachNodes dom none, before.get block.2 ≠ store.get block.2 → block.2 ∈ dirty) →
          ∃ ρ, SameUpToIds dom built ρ
            (resizeTabViewport dom built maxSyntheticLayoutNodes store geometry true s (some dirty))
            (resizeTabViewport dom built maxSyntheticLayoutNodes store geometry true s none) := by
  intro h
  have hchanged : ∀ block ∈ eachNodes listsDom none,
      (listsStore 1 1).get block.2 ≠ (listsStore 2 1).get block.2 → block.2 ∈ ({"a"} : Finset String) := by
    intro block hblock hne
    have hblocks : (eachNodes listsDom none).map (·.2) = ["a", "b"] := rfl
    have hname : block.2 ∈ (eachNodes listsDom none).map (·.2) := mem_map_of_mem hblock
    rw [hblocks] at hname
    obtain hname | hname := mem_pair.mp hname
    · exact Finset.mem_singleton.mpr hname
    · rw [hname] at hne
      exact absurd rfl hne
  let resize := resizeTabViewport listsDom listsTree 20000
  let last := resize (listsStore 1 1) itemsGeometry true listsTree.start none
  obtain ⟨ρ, hsame⟩ :=
    h Unit listsDom listsTree 20000 (listsStore 1 1) (listsStore 2 1) itemsGeometry last {"a"} hchanged
  have hfull : (resize (listsStore 2 1) itemsGeometry true last none).expansion.windowStart.lookup 2 = some 0 := by
    decide
  have hpartial :
      (resize (listsStore 2 1) itemsGeometry true last (some {"a"})).expansion.windowStart.lookup 2 = none := by
    decide
  have hwindow := hsame.windowStart 2
  rw [hfull, hpartial] at hwindow
  cases hwindow

end Mizu.TabRows
