import Mizu.Layout.Tree
import Mizu.Lib.Transition

/-!
# The accessibility tree

Every node of a document is told to assistive technology under an id that packs the generation of the document's
numbering and the number of the node. One adapter sees the documents of all tabs, so generations are counted for the
whole process, and an id that comes back is looked up in the numbering of the tab on screen.

* `actions_stay_in_document`: as long as generations and numbers fit, ids are distinct and lead back to their nodes, a
  late request is dropped or reaches its node, and every tree lists each node once, with the focus on one of them.
* `large_document_not_resolved`: the last node of a document of 2³² nodes has an id that leads nowhere.
-/

namespace Mizu

open Layout Transition List

/-! ## Ids -/

/-- `accesskit::NodeId`. -/
abbrev AccessNodeId := UInt64

def accessId (epoch u32Id : UInt32) : AccessNodeId := epoch.toUInt64 <<< 32 ||| (u32Id.toUInt64 + 1)

def resolveEgoId (epoch : UInt32) (u32ToNodeId : FxHashMap UInt32 NodeId) (id : AccessNodeId) : Option NodeId :=
  if (id >>> 32).toUInt32 ≠ epoch then none
  else
    let low := id &&& 0xffffffff
    if low = 0 then none else u32ToNodeId.lookup (low - 1).toUInt32

section Ids

variable {epoch epoch' u u' : UInt32}

/-- A number that leaves room for the one added to it. -/
def FitsId (u : UInt32) : Prop := u.toNat + 1 < 2 ^ 32

theorem accessId_toNat (h : FitsId u) : (accessId epoch u).toNat = epoch.toNat * 2 ^ 32 + (u.toNat + 1) := by
  have hepoch := epoch.toNat_lt
  have hlow : (u.toUInt64 + 1).toNat = u.toNat + 1 := by grind [UInt64.toNat_add, UInt32.toNat_toUInt64, FitsId]
  have hhigh : (epoch.toUInt64 <<< 32).toNat = epoch.toNat <<< 32 := by
    grind [UInt64.toNat_shiftLeft, UInt32.toNat_toUInt64, Nat.shiftLeft_eq]
  rw [accessId, UInt64.toNat_or, hlow, hhigh, ← Nat.shiftLeft_add_eq_or_of_lt h, Nat.shiftLeft_eq]

theorem accessId_ne_zero (h : FitsId u) : accessId epoch u ≠ 0 := by
  intro hzero
  have := congrArg UInt64.toNat hzero
  rw [accessId_toNat h] at this
  simp at this

theorem accessId_inj (h : FitsId u) (h' : FitsId u') (heq : accessId epoch u = accessId epoch' u') :
    epoch = epoch' ∧ u = u' := by
  grind [accessId_toNat, FitsId, UInt32.toNat_inj]

theorem resolveEgoId_accessId (h : FitsId u) (u32ToNodeId : FxHashMap UInt32 NodeId) :
    resolveEgoId epoch' u32ToNodeId (accessId epoch u) = if epoch = epoch' then u32ToNodeId.lookup u else none := by
  have hid : (accessId epoch u).toNat = epoch.toNat * 2 ^ 32 + (u.toNat + 1) := accessId_toNat h
  have hepoch := epoch.toNat_lt
  unfold FitsId at h
  have hhigh : (accessId epoch u >>> 32).toUInt32 = epoch := by
    refine UInt32.toNat_inj.mp ?_
    rw [UInt64.toNat_toUInt32, UInt64.toNat_shiftRight, hid, Nat.shiftRight_eq_div_pow]
    show (epoch.toNat * 2 ^ 32 + (u.toNat + 1)) / 2 ^ 32 % 2 ^ 32 = epoch.toNat
    omega
  have hlow : (accessId epoch u &&& 0xffffffff).toNat = u.toNat + 1 := by
    rw [UInt64.toNat_and, hid]
    show _ &&& (2 ^ 32 - 1) = _
    rw [Nat.and_two_pow_sub_one_eq_mod]
    omega
  have hne : accessId epoch u &&& 0xffffffff ≠ 0 := by
    intro hzero
    rw [hzero] at hlow
    simp at hlow
  have hnumber : ((accessId epoch u &&& 0xffffffff) - 1).toUInt32 = u := by
    refine UInt32.toNat_inj.mp ?_
    have hone : 1 ≤ accessId epoch u &&& 0xffffffff := by grind
    rw [UInt64.toNat_toUInt32, UInt64.toNat_sub_of_le _ _ hone, hlow]
    show (u.toNat + 1 - 1) % 2 ^ 32 = u.toNat
    omega
  unfold resolveEgoId
  rw [hhigh]
  by_cases hsame : epoch = epoch'
  · grind
  · rw [if_pos hsame, if_neg hsame]

end Ids

/-! ## Numberings -/

/-- The numbers of the nodes of a document, both ways. -/
structure NodeMappings where
  nodeIdToU32 : FxHashMap NodeId UInt32
  u32ToNodeId : FxHashMap UInt32 NodeId
  nextU32Id : UInt32

def NodeMappings.insert (m : NodeMappings) (id : NodeId) : NodeMappings :=
  ⟨m.nodeIdToU32.insert id m.nextU32Id, m.u32ToNodeId.insert m.nextU32Id id, m.nextU32Id + 1⟩

/-- `rebuild_node_mappings`, without the generation. -/
def rebuildNodeMappings (dom : Layout.Dom) : NodeMappings :=
  (List.range dom.size).foldl .insert ⟨∅, ∅, 0⟩

section Mappings

theorem rebuild_range (n : Nat) :
    let m := (List.range n).foldl NodeMappings.insert ⟨∅, ∅, 0⟩
    m.nextU32Id = .ofNat n ∧ (∀ id : Nat, m.nodeIdToU32.lookup id = if id < n then some (.ofNat id) else none) ∧
      (n ≤ 2 ^ 32 → ∀ u, m.u32ToNodeId.lookup u = if u.toNat < n then some u.toNat else none) := by
  induction n with
  | zero => exact ⟨rfl, fun id => by simp, fun _ u => by simp⟩
  | succ n ih =>
    simp only [range_succ, foldl_append, foldl_cons, foldl_nil] at ih ⊢
    obtain ⟨hnext, hnumber, hnode⟩ := ih
    refine ⟨?_, fun id => ?_, fun hn u => ?_⟩
    · simp only [NodeMappings.insert, hnext]
      exact (UInt32.ofNat_add n 1).symm
    · simp only [NodeMappings.insert, hnext]
      by_cases hid : id = n
      · subst hid
        rw [Finmap.lookup_insert, if_pos (Nat.lt_succ_self _)]
      · grind [Finmap.lookup_insert_of_ne]
    · simp only [NodeMappings.insert, hnext]
      by_cases hu : u = .ofNat n
      · subst hu
        have hsize : (UInt32.ofNat n).toNat = n := Nat.mod_eq_of_lt (by show n < 2 ^ 32; omega)
        rw [Finmap.lookup_insert, hsize, if_pos (Nat.lt_succ_self _)]
      · have hne : u.toNat ≠ n := by grind [UInt32.ofNat_toNat]
        rw [Finmap.lookup_insert_of_ne _ hu, hnode (by omega)]
        exact if_congr (by omega) rfl rfl

variable {dom : Layout.Dom} {id : NodeId}

theorem lookup_nodeIdToU32 (dom : Layout.Dom) (id : NodeId) :
    (rebuildNodeMappings dom).nodeIdToU32.lookup id = if id < dom.size then some (.ofNat id) else none :=
  (rebuild_range dom.size).2.1 id

theorem lookup_u32ToNodeId (hsize : dom.size ≤ 2 ^ 32) (u : UInt32) :
    (rebuildNodeMappings dom).u32ToNodeId.lookup u = if u.toNat < dom.size then some u.toNat else none :=
  (rebuild_range dom.size).2.2 hsize u

theorem toNat_ofNat_node (hsize : dom.size < 2 ^ 32) (hid : id < dom.size) : (UInt32.ofNat id).toNat = id :=
  Nat.mod_eq_of_lt (hid.trans hsize)

theorem fitsId_ofNat (hsize : dom.size < 2 ^ 32) (hid : id < dom.size) : FitsId (.ofNat id) := by
  grind [toNat_ofNat_node, FitsId]

end Mappings

/-! ## The tree -/

inductive Role where
  | window
  | genericContainer
  | staticText
  | button
  | textInput
  | image
  | form
  | heading
  deriving DecidableEq, Repr

def roleFor : Primitive → Role
  | .doc => .window
  | .box | .each => .genericContainer
  | .text | .markdown => .staticText
  | .button => .button
  | .input => .textInput
  | .image => .image
  | .form => .form
  | .heading => .heading

/-- The actions that a node offers. -/
inductive AccessAction where
  | focus
  | default
  deriving DecidableEq, Repr

structure AccessNode where
  role : Role
  name : Option String
  hierarchicalLevel : Option Nat
  actions : List AccessAction
  children : List AccessNodeId
  deriving DecidableEq, Repr

def isFocusable (node : Layout.MizuNode) : Bool :=
  node.primitive = .input || node.primitive = .button || "click" ∈ node.events || "submit" ∈ node.events

/-- An empty name is left out. -/
def nonEmpty (name : String) : Option String := if name = "" then none else some name

def accessName (store : VariableStore) (node : Layout.MizuNode) : Option String :=
  match node.primitive with
  | .image => (node.attributes.lookup "alt").bind nonEmpty
  | .text | .markdown | .button =>
    (node.attributes.lookup "content").bind fun content => nonEmpty ((store.interpolate content).toOption.getD "")
  | .input => (node.attributes.lookup "placeholder").bind nonEmpty
  | _ => none

def accessActions (node : Layout.MizuNode) : List AccessAction :=
  if isFocusable node then
    if node.primitive = .button ∨ "click" ∈ node.events ∨ "submit" ∈ node.events then [.focus, .default]
    else [.focus]
  else []

def accessNode (store : VariableStore) (node : Layout.MizuNode) (children : List AccessNodeId) : AccessNode where
  role := roleFor node.primitive
  name := accessName store node
  hierarchicalLevel := if node.primitive = .heading then (node.attributes.lookup "level").bind parseU64 else none
  actions := accessActions node
  children

structure TreeUpdate where
  nodes : List (AccessNodeId × AccessNode)
  root : AccessNodeId
  focus : AccessNodeId
  deriving DecidableEq, Repr

section Build

variable (epoch : UInt32) (dom : Layout.Dom) (nodeIdToU32 : FxHashMap NodeId UInt32) (store : VariableStore)

/-- `build_node`; the first argument bounds how deep it calls itself. -/
def buildNode : Nat → NodeId → List (AccessNodeId × AccessNode)
  | 0, _ => []
  | depth + 1, egoId =>
    match dom.nodes[egoId]? with
    | none => []
    | some node =>
      match nodeIdToU32.lookup egoId with
      | none => []
      | some u32Id =>
        let childIds := node.children.filterMap fun child => (nodeIdToU32.lookup child).map (accessId epoch)
        node.children.flatMap (buildNode depth) ++ [(accessId epoch u32Id, accessNode store node.value childIds)]

/-- `build_a11y_tree`. -/
def buildA11yTree (focusedNode : Option NodeId) : TreeUpdate :=
  let rootId := ((nodeIdToU32.lookup 0).map (accessId epoch)).getD 1
  let focus := ((focusedNode.bind (nodeIdToU32.lookup ·)).map (accessId epoch)).getD rootId
  ⟨buildNode epoch dom nodeIdToU32 store dom.size 0, rootId, focus⟩

end Build

/-! ## The order of the tree -/

section Order

variable {t : Layout.Dom} {id x y : Nat} {fuel : Nat}

/-- The nodes of a subtree, children first. -/
def postOrder (t : Layout.Dom) : Nat → NodeId → List NodeId
  | 0, _ => []
  | fuel + 1, id =>
    match t.nodes[id]? with
    | none => []
    | some node => node.children.flatMap (postOrder t fuel) ++ [id]

/-- The children of a node. -/
def childrenOf (t : Layout.Dom) (id : NodeId) : List NodeId := (t.nodes[id]?).elim [] (·.children)

theorem lt_size_of_parentOf (h : t.parentOf y = some x) : y < t.size := by
  grind [Dom.parentOf_eq_none_of_le]

theorem mem_childrenOf_iff (h : t.InOrder) : y ∈ childrenOf t id ↔ t.parentOf y = some id := by
  unfold childrenOf
  cases hnode : t.nodes[id]? with
  | none =>
    refine iff_of_false not_mem_nil fun hparent => ?_
    have hlt : id < t.size := (Dom.parentOf_lt hparent).trans (lt_size_of_parentOf hparent)
    exact absurd hlt (Nat.not_lt.mpr (List.getElem?_eq_none_iff.mp hnode))
  | some node =>
    simp only [Option.elim, h id node hnode, mem_filter, mem_range, decide_eq_true_eq]
    exact ⟨And.right, fun hparent => ⟨lt_size_of_parentOf hparent, hparent⟩⟩

theorem childrenOf_nodup (h : t.InOrder) : (childrenOf t id).Nodup := by
  unfold childrenOf
  cases hnode : t.nodes[id]? with
  | none => exact nodup_nil
  | some node =>
    rw [Option.elim, h id node hnode]
    exact nodup_range.filter _

theorem postOrder_succ (hid : id < t.size) :
    postOrder t (fuel + 1) id = (childrenOf t id).flatMap (postOrder t fuel) ++ [id] := by
  have hnode : t.nodes[id]? = some t.nodes[id] := List.getElem?_eq_getElem hid
  rw [postOrder, childrenOf, hnode]
  rfl

/-- A node or one below it. -/
def InSubtree (t : Layout.Dom) (id x : Nat) : Prop := x = id ∨ t.Ancestor id x

theorem inSubtree_iff : InSubtree t id x ↔ x = id ∨ ∃ c, t.parentOf c = some id ∧ InSubtree t c x := by
  unfold InSubtree Dom.Ancestor
  rw [Relation.TransGen.head'_iff]
  simp only [Relation.reflTransGen_iff_eq_or_transGen]

theorem InSubtree.size (h : InSubtree t id x) (hid : id < t.size) : x < t.size := by
  rcases h with rfl | hancestor
  · exact hid
  · obtain ⟨p, hp, -⟩ := hancestor.cases_parent
    exact lt_size_of_parentOf hp

/-- Two nodes with the same parent have no node below both. -/
theorem InSubtree.eq_of_siblings {c c' : Nat} (hc : t.parentOf c = some id) (hc' : t.parentOf c' = some id)
    (h : InSubtree t c x) (h' : InSubtree t c' x) : c = c' := by
  have hnot {c c' : Nat} (hc : t.parentOf c = some id) (hc' : t.parentOf c' = some id) : ¬t.Ancestor c c' := by
    intro hancestor
    obtain ⟨p, hp, hrest⟩ := hancestor.cases_parent
    obtain rfl : p = id := Option.some.inj (hp.symm.trans hc')
    have hlt := Dom.parentOf_lt hc
    rcases hrest with rfl | hrest
    · exact Nat.lt_irrefl _ hlt
    · exact Nat.lt_asymm hlt hrest.lt
  induction x using Nat.strong_induction_on with
  | _ x ih =>
    rcases h with rfl | h
    · rcases h' with rfl | h'
      · rfl
      · exact absurd h' (hnot hc' hc)
    · rcases h' with rfl | h'
      · exact absurd h (hnot hc hc')
      · obtain ⟨p, hp, hrest⟩ := h.cases_parent
        obtain ⟨p', hp', hrest'⟩ := h'.cases_parent
        obtain rfl : p = p' := Option.some.inj (hp.symm.trans hp')
        exact ih p (Dom.parentOf_lt hp) (hrest.imp_left Eq.symm) (hrest'.imp_left Eq.symm)

theorem mem_postOrder_iff (h : t.InOrder) (hid : id < t.size) (hfuel : t.size ≤ fuel + id) :
    x ∈ postOrder t fuel id ↔ InSubtree t id x := by
  induction fuel generalizing id with
  | zero => exact absurd hid (by omega)
  | succ fuel ih =>
    rw [postOrder_succ hid, mem_append, mem_singleton, mem_flatMap, inSubtree_iff, or_comm]
    refine or_congr_right (exists_congr fun c => ?_)
    rw [mem_childrenOf_iff h]
    refine and_congr_right fun hparent => ?_
    have hlt : id < (c : Nat) := Dom.parentOf_lt hparent
    exact ih (lt_size_of_parentOf hparent) (show t.size ≤ fuel + (c : Nat) by omega)

theorem postOrder_nodup (h : t.InOrder) (hid : id < t.size) (hfuel : t.size ≤ fuel + id) :
    (postOrder t fuel id).Nodup := by
  induction fuel generalizing id with
  | zero => exact nodup_nil
  | succ fuel ih =>
    have hchild {c : Nat} (hc : c ∈ childrenOf t id) : t.parentOf c = some id ∧ c < t.size ∧ t.size ≤ fuel + c := by
      have hparent := (mem_childrenOf_iff h).mp hc
      have hlt : id < c := Dom.parentOf_lt hparent
      exact ⟨hparent, lt_size_of_parentOf hparent, by omega⟩
    rw [postOrder_succ hid, nodup_append]
    have hparts : ∀ c ∈ childrenOf t id, (postOrder t fuel c).Nodup :=
      fun c hc => ih (hchild hc).2.1 (hchild hc).2.2
    refine ⟨nodup_flatMap.mpr ⟨hparts, ?_⟩, nodup_singleton _, ?_⟩
    · refine (childrenOf_nodup h).pairwise_of_forall_ne fun c hc c' hc' hne x hx hx' => hne ?_
      obtain ⟨hparent, hsize, hfuel⟩ := hchild hc
      obtain ⟨hparent', hsize', hfuel'⟩ := hchild hc'
      exact InSubtree.eq_of_siblings hparent hparent' ((mem_postOrder_iff h hsize hfuel).mp hx)
        ((mem_postOrder_iff h hsize' hfuel').mp hx')
    · rintro y hy _ hlast rfl
      obtain rfl := mem_singleton.mp hlast
      obtain ⟨c, hc, hy⟩ := mem_flatMap.mp hy
      obtain ⟨hparent, hsize, hfuel⟩ := hchild hc
      have hlt : y < c := Dom.parentOf_lt hparent
      rcases (mem_postOrder_iff h hsize hfuel).mp hy with rfl | hancestor
      · exact Nat.lt_irrefl _ hlt
      · exact Nat.lt_asymm hlt hancestor.lt

/-- A child of a listed node comes before it. -/
theorem postOrder_child (h : t.InOrder) (hid : id < t.size) (hfuel : t.size ≤ fuel + id)
    (hx : x ∈ postOrder t fuel id) (hy : t.parentOf y = some x) : [y, x].Sublist (postOrder t fuel id) := by
  induction fuel generalizing id with
  | zero => exact absurd hx not_mem_nil
  | succ fuel ih =>
    have hchild {c : Nat} (hparent : t.parentOf c = some id) : t.size ≤ fuel + c := by
      have hlt : id < c := Dom.parentOf_lt hparent
      omega
    have hpart {c : Nat} (hparent : t.parentOf c = some id) :
        (postOrder t fuel c).Sublist ((childrenOf t id).flatMap (postOrder t fuel)) :=
      sublist_flatten_of_mem (mem_map_of_mem ((mem_childrenOf_iff h).mpr hparent))
    rw [postOrder_succ hid] at hx ⊢
    rcases mem_append.mp hx with hx | hx
    · obtain ⟨c, hc, hx⟩ := mem_flatMap.mp hx
      have hparent := (mem_childrenOf_iff h).mp hc
      have hsublist := ih (lt_size_of_parentOf hparent) (hchild hparent) hx
      exact (hsublist.trans (hpart hparent)).trans (sublist_append_left _ _)
    · obtain rfl := mem_singleton.mp hx
      have hself : y ∈ postOrder t fuel y :=
        (mem_postOrder_iff h (lt_size_of_parentOf hy) (hchild hy)).mpr (.inl rfl)
      have hbefore := singleton_sublist.mpr ((hpart hy).subset hself)
      exact hbefore.append (List.Sublist.refl [x])

theorem inSubtree_root (h : t.WellFormed) (hx : x < t.size) : InSubtree t 0 x := by
  induction x using Nat.strong_induction_on with
  | _ x ih =>
    cases hparent : t.parentOf x with
    | none => exact .inl ((h.root x hx).mp hparent)
    | some p =>
      have hlt := Dom.parentOf_lt hparent
      rcases ih p hlt (hlt.trans hx) with rfl | hancestor
      · exact .inr (.single hparent)
      · exact .inr (hancestor.tail hparent)

/-- The whole tree lists every node once. -/
theorem postOrder_perm (h : t.WellFormed) : (postOrder t t.size 0).Perm (List.range t.size) := by
  refine (perm_ext_iff_of_nodup (postOrder_nodup h.inOrder h.size_pos le_rfl) nodup_range).mpr fun x => ?_
  rw [mem_postOrder_iff h.inOrder h.size_pos le_rfl, mem_range]
  exact ⟨fun hsubtree => hsubtree.size h.size_pos, inSubtree_root h⟩

end Order

section ListsOnce

variable {epoch : UInt32} {dom : Layout.Dom} {store : VariableStore} {fuel : Nat} {id : NodeId}

/-- What the tree says of a node. -/
def listedNode (epoch : UInt32) (dom : Layout.Dom) (store : VariableStore) (id : NodeId) :
    AccessNodeId × AccessNode :=
  (accessId epoch (.ofNat id),
    accessNode store ((dom.nodes[id]?).elim { primitive := .doc } (·.value))
      ((childrenOf dom id).map fun child => accessId epoch (.ofNat child)))

theorem buildNode_eq (h : dom.InOrder) (hid : id < dom.size) :
    buildNode epoch dom (rebuildNodeMappings dom).nodeIdToU32 store fuel id =
      (postOrder dom fuel id).map (listedNode epoch dom store) := by
  induction fuel generalizing id with
  | zero => rfl
  | succ fuel ih =>
    have hnode : dom.nodes[id]? = some dom.nodes[id] := List.getElem?_eq_getElem hid
    have hnumber {c : NodeId} (hc : c ∈ childrenOf dom id) :
        (rebuildNodeMappings dom).nodeIdToU32.lookup c = some (.ofNat c) := by
      rw [lookup_nodeIdToU32, if_pos (lt_size_of_parentOf ((mem_childrenOf_iff h).mp hc))]
    have hchildren : childrenOf dom id = dom.nodes[id].children := by rw [childrenOf, hnode, Option.elim]
    rw [buildNode, hnode]
    simp only [lookup_nodeIdToU32 dom id, if_pos hid]
    rw [postOrder_succ hid, map_append, map_flatMap, ← hchildren]
    congr 1
    · exact flatMap_congr fun c hc => ih (lt_size_of_parentOf ((mem_childrenOf_iff h).mp hc))
    · rw [map_singleton, listedNode, hnode, Option.elim, ← filterMap_eq_map']
      congr 3
      exact filterMap_congr fun c hc => by rw [hnumber hc, Option.map_some]

/-- Every node of the document is listed once, children come first, and the focus is on a listed node. -/
structure ListsOnce (epoch : UInt32) (dom : Layout.Dom) (mappings : NodeMappings) (update : TreeUpdate) : Prop where
  once : (update.nodes.map (·.1)).Perm
    ((List.range dom.size).filterMap fun id => (mappings.nodeIdToU32.lookup id).map (accessId epoch))
  distinct : (update.nodes.map (·.1)).Nodup
  children : ∀ node ∈ update.nodes, ∀ child ∈ node.2.children, [child, node.1].Sublist (update.nodes.map (·.1))
  root : update.root ∈ update.nodes.map (·.1)
  focus : update.focus ∈ update.nodes.map (·.1)

theorem listsOnce (h : dom.WellFormed) (hsize : dom.size < 2 ^ 32) (epoch : UInt32) (store : VariableStore)
    (focusedNode : Option NodeId) :
    ListsOnce epoch dom (rebuildNodeMappings dom)
      (buildA11yTree epoch dom (rebuildNodeMappings dom).nodeIdToU32 store focusedNode) := by
  have hnodes : (buildNode epoch dom (rebuildNodeMappings dom).nodeIdToU32 store dom.size 0) =
      (postOrder dom dom.size 0).map (listedNode epoch dom store) := buildNode_eq h.inOrder h.size_pos
  have hids : (buildNode epoch dom (rebuildNodeMappings dom).nodeIdToU32 store dom.size 0).map (·.1) =
      (postOrder dom dom.size 0).map fun id => accessId epoch (.ofNat id) := by
    rw [hnodes, map_map]
    rfl
  have hlisted {id : NodeId} (hid : id < dom.size) :
      accessId epoch (.ofNat id) ∈ (postOrder dom dom.size 0).map fun id => accessId epoch (.ofNat id) :=
    mem_map_of_mem ((postOrder_perm h).mem_iff.mpr (mem_range.mpr hid))
  have hnumber {id : NodeId} (hid : id < dom.size) :
      (rebuildNodeMappings dom).nodeIdToU32.lookup id = some (.ofNat id) := by
    rw [lookup_nodeIdToU32, if_pos hid]
  have hroot : (((rebuildNodeMappings dom).nodeIdToU32.lookup 0).map (accessId epoch)).getD 1 =
      accessId epoch (.ofNat 0) := by
    rw [hnumber h.size_pos, Option.map_some, Option.getD_some]
  constructor
  · simp only [buildA11yTree]
    rw [hids]
    refine ((postOrder_perm h).map _).trans (.of_eq ?_)
    rw [← filterMap_eq_map']
    refine filterMap_congr fun id hid => ?_
    rw [hnumber (mem_range.mp hid), Option.map_some]
  · simp only [buildA11yTree]
    rw [hids]
    refine (postOrder_nodup h.inOrder h.size_pos le_rfl).map_on fun x hx y hy heq => ?_
    have hx := mem_range.mp ((postOrder_perm h).mem_iff.mp hx)
    have hy := mem_range.mp ((postOrder_perm h).mem_iff.mp hy)
    have hsame := (accessId_inj (fitsId_ofNat hsize hx) (fitsId_ofNat hsize hy) heq).2
    rw [← toNat_ofNat_node hsize hx, hsame, toNat_ofNat_node hsize hy]
  · simp only [buildA11yTree]
    rw [hids, hnodes]
    intro node hnode child hchild
    obtain ⟨x, hx, rfl⟩ := mem_map.mp hnode
    obtain ⟨y, hy, rfl⟩ := mem_map.mp hchild
    have hbefore := postOrder_child h.inOrder h.size_pos le_rfl hx ((mem_childrenOf_iff h.inOrder).mp hy)
    exact hbefore.map fun id => accessId epoch (.ofNat id)
  · simp only [buildA11yTree]
    rw [hids, hroot]
    exact hlisted h.size_pos
  · simp only [buildA11yTree]
    rw [hids, hroot]
    cases focusedNode with
    | none => exact hlisted h.size_pos
    | some id =>
      rw [Option.bind_some, lookup_nodeIdToU32]
      by_cases hid : id < dom.size
      · rw [if_pos hid]
        exact hlisted hid
      · rw [if_neg hid]
        exact hlisted h.size_pos

end ListsOnce

/-! ## Documents and tabs -/

/-- A document that the parser has accepted. -/
structure AccessDocument where
  dom : Layout.Dom
  wellFormed : dom.WellFormed

/-- A numbering of a document. -/
structure Generation where
  epoch : UInt32
  document : AccessDocument

/-- The id that a node has in a generation. -/
def Generation.accessId (g : Generation) (id : NodeId) : Option AccessNodeId :=
  ((rebuildNodeMappings g.document.dom).nodeIdToU32.lookup id).map (Mizu.accessId g.epoch)

/-- What of a tab concerns ids. -/
structure AccessTab where
  document : AccessDocument
  a11yEpoch : UInt32
  mappings : NodeMappings
  focusedNode : Option NodeId
  /-- The place of its numbering among all that were made. -/
  generation : Nat

structure AccessState where
  /-- `A11Y_EPOCH`. -/
  nextEpoch : UInt32
  tabs : List AccessTab
  activeTab : Nat
  /-- All numberings so far. -/
  generations : List Generation

inductive AccessMove where
  /-- `TabState::new`. -/
  | openTab (document : AccessDocument)
  /-- The event loop numbers the nodes of the tab on screen once more when it starts. -/
  | startUp
  | reload (pos : Nat) (document : AccessDocument)
  | closeTab (pos : Nat)
  | switchToTab (pos : Nat)
  /-- A key or a click moves the focus. -/
  | focus (node : Option NodeId)
  /-- Assistive technology asks to focus a node. -/
  | request (id : AccessNodeId)

/-- `next_a11y_epoch`: the generation, and the counter after it. -/
def nextA11yEpoch (counter : UInt32) : UInt32 × UInt32 :=
  if counter = 0 then (counter + 1, counter + 1 + 1) else (counter, counter + 1)

namespace AccessState

def start : AccessState := ⟨1, [], 0, []⟩

/-- A document with a new numbering, for the tab that `place` puts it in. -/
def rebuild (s : AccessState) (document : AccessDocument) (focusedNode : Option NodeId)
    (place : AccessTab → List AccessTab) : AccessState :=
  let (a11yEpoch, nextEpoch) := nextA11yEpoch s.nextEpoch
  let tab := ⟨document, a11yEpoch, rebuildNodeMappings document.dom, focusedNode, s.generations.length⟩
  { s with nextEpoch, tabs := place tab, generations := s.generations ++ [⟨a11yEpoch, document⟩] }

def setFocus (s : AccessState) (node : Option NodeId) : AccessState :=
  { s with tabs := s.tabs.modify s.activeTab fun tab => { tab with focusedNode := node } }

def step (s : AccessState) : AccessMove → Option AccessState
  | .openTab document => some (s.rebuild document none fun tab => s.tabs ++ [tab])
  | .startUp =>
    (s.tabs[s.activeTab]?).map fun old => s.rebuild old.document old.focusedNode (s.tabs.set s.activeTab)
  | .reload pos document => some (s.rebuild document none (s.tabs.set pos))
  | .closeTab pos => some { s with tabs := s.tabs.eraseIdx pos }
  | .switchToTab pos => some { s with activeTab := pos }
  | .focus node => some (s.setFocus node)
  | .request id =>
    (s.tabs[s.activeTab]?).map fun tab =>
      match resolveEgoId tab.a11yEpoch tab.mappings.u32ToNodeId id with
      | some node => s.setFocus (some node)
      | none => s

/-! ## Runs -/

/-- How generations and tabs hang together. -/
structure Consistent (s : AccessState) : Prop where
  nextEpoch : s.nextEpoch.toNat = s.generations.length + 1
  epochs : ∀ i g, s.generations[i]? = some g → g.epoch.toNat = i + 1
  tabs : ∀ tab ∈ s.tabs, s.generations[tab.generation]? = some ⟨tab.a11yEpoch, tab.document⟩ ∧
    tab.mappings = rebuildNodeMappings tab.document.dom

/-- Numberings made before the counter comes round. -/
def FewRebuilds (s : AccessState) : Prop := s.generations.length < 2 ^ 32 - 1

variable {s s' : AccessState}

theorem consistent_start : Consistent start where
  nextEpoch := rfl
  epochs := nofun
  tabs := nofun

theorem Consistent.rebuild (h : Consistent s) (hfew : s.generations.length + 1 < 2 ^ 32 - 1)
    (document : AccessDocument) (focusedNode : Option NodeId) {place : AccessTab → List AccessTab}
    (hplace : ∀ new, ∀ tab ∈ place new, tab = new ∨ tab ∈ s.tabs) :
    Consistent (s.rebuild document focusedNode place) := by
  have hcounter : s.nextEpoch ≠ 0 := by
    intro hzero
    have := h.nextEpoch
    rw [hzero] at this
    simp at this
  have hnext : nextA11yEpoch s.nextEpoch = (s.nextEpoch, s.nextEpoch + 1) := if_neg hcounter
  have hkept {i : Nat} {g g' : Generation} (hi : s.generations[i]? = some g) :
      (s.generations ++ [g'])[i]? = some g := by
    rw [List.getElem?_append_left (List.getElem?_eq_some_iff.mp hi).1, hi]
  unfold AccessState.rebuild
  simp only [hnext]
  refine ⟨?_, fun i g hi => ?_, fun tab htab => ?_⟩
  · grind [UInt32.toNat_add, h.nextEpoch]
  · rw [List.getElem?_append] at hi
    split at hi
    · exact h.epochs i g hi
    · rw [List.getElem?_singleton] at hi
      split at hi
      · obtain rfl := Option.some.inj hi
        exact h.nextEpoch.trans (by omega)
      · nomatch hi
  · rcases hplace _ tab htab with rfl | htab
    · exact ⟨by simp, rfl⟩
    · exact ⟨hkept (h.tabs tab htab).1, (h.tabs tab htab).2⟩

theorem Consistent.setFocus (h : Consistent s) (node : Option NodeId) : Consistent (s.setFocus node) := by
  refine ⟨h.nextEpoch, h.epochs, fun tab htab => ?_⟩
  obtain ⟨i, hi⟩ := mem_iff_getElem?.mp htab
  rw [AccessState.setFocus, List.getElem?_modify] at hi
  obtain ⟨old, hold, rfl⟩ := Option.map_eq_some_iff.mp hi
  have hkept := h.tabs old (mem_of_getElem? hold)
  split <;> exact hkept

theorem generations_le {move : AccessMove} (hstep : s.step move = some s') :
    s.generations.length ≤ s'.generations.length := by
  have hrebuild (document : AccessDocument) (focusedNode : Option NodeId) (place : AccessTab → List AccessTab) :
      s.generations.length ≤ (s.rebuild document focusedNode place).generations.length := by
    unfold rebuild
    simp only [length_append]
    omega
  cases move with
  | openTab | reload =>
    obtain rfl := Option.some.inj hstep
    exact hrebuild ..
  | startUp =>
    obtain ⟨old, -, rfl⟩ := Option.map_eq_some_iff.mp hstep
    exact hrebuild ..
  | request id =>
    obtain ⟨tab, -, rfl⟩ := Option.map_eq_some_iff.mp hstep
    split <;> exact le_rfl
  | closeTab pos | switchToTab pos | focus node =>
    obtain rfl := Option.some.inj hstep
    exact le_rfl

theorem Consistent.step (h : Consistent s) {move : AccessMove} (hstep : s.step move = some s')
    (hfew : FewRebuilds s') : Consistent s' := by
  have hroom {document : AccessDocument} {focusedNode : Option NodeId} {place : AccessTab → List AccessTab}
      (hfew : FewRebuilds (s.rebuild document focusedNode place)) : s.generations.length + 1 < 2 ^ 32 - 1 := by
    simpa [FewRebuilds, AccessState.rebuild] using hfew
  cases move with
  | openTab document =>
    obtain rfl := Option.some.inj hstep
    refine h.rebuild (hroom hfew) document none fun new tab htab => ?_
    exact (mem_append.mp htab).symm.imp_left mem_singleton.mp
  | startUp =>
    obtain ⟨old, -, rfl⟩ := Option.map_eq_some_iff.mp hstep
    exact h.rebuild (hroom hfew) _ _ fun new tab htab => (mem_or_eq_of_mem_set htab).symm
  | reload pos document =>
    obtain rfl := Option.some.inj hstep
    exact h.rebuild (hroom hfew) document none fun new tab htab => (mem_or_eq_of_mem_set htab).symm
  | closeTab pos =>
    obtain rfl := Option.some.inj hstep
    exact ⟨h.nextEpoch, h.epochs, fun tab htab => h.tabs tab (mem_of_mem_eraseIdx htab)⟩
  | switchToTab pos =>
    obtain rfl := Option.some.inj hstep
    exact ⟨h.nextEpoch, h.epochs, h.tabs⟩
  | focus node =>
    obtain rfl := Option.some.inj hstep
    exact h.setFocus node
  | request id =>
    obtain ⟨tab, -, rfl⟩ := Option.map_eq_some_iff.mp hstep
    split
    · exact h.setFocus _
    · exact h

theorem consistent_of_reaches (h : Reaches step (fun _ _ => True) start s) (hfew : FewRebuilds s) :
    Consistent s := by
  refine h.invariant (I := fun u => FewRebuilds u → Consistent u) (fun _ => consistent_start) ?_ hfew
  intro u move u' hinv _ hstep hfew
  exact (hinv ((generations_le hstep).trans_lt hfew)).step hstep hfew

/-! ## Requests -/

/-- Documents whose nodes have numbers that leave room for the one added to them. -/
def SmallDocuments (s : AccessState) : Prop := ∀ g ∈ s.generations, g.document.dom.size < 2 ^ 32

/-- What the ids of all numberings and the trees of all tabs are like. -/
structure ActionsStay (s : AccessState) : Prop where
  nonzero : ∀ g ∈ s.generations, ∀ node id, g.accessId node = some id → id ≠ 0
  injective : ∀ (i j : Nat) (g g' : Generation) node node' id, s.generations[i]? = some g →
    s.generations[j]? = some g' → g.accessId node = some id → g'.accessId node' = some id → i = j ∧ node = node'
  /-- The ids of the tab's own numbering lead back to its nodes. -/
  inverted : ∀ tab ∈ s.tabs, ∀ node < tab.document.dom.size, ∃ id,
    (Generation.mk tab.a11yEpoch tab.document).accessId node = some id ∧
      resolveEgoId tab.a11yEpoch tab.mappings.u32ToNodeId id = some node
  /-- An id of any numbering leads nowhere, or to the node it was made for in the document it was made for. -/
  late : ∀ tab ∈ s.tabs, ∀ (i : Nat) (g : Generation) node id, s.generations[i]? = some g →
    g.accessId node = some id → ∀ target, resolveEgoId tab.a11yEpoch tab.mappings.u32ToNodeId id = some target →
      i = tab.generation ∧ g = ⟨tab.a11yEpoch, tab.document⟩ ∧ target = node
  listed : ∀ tab ∈ s.tabs, ∀ store, ListsOnce tab.a11yEpoch tab.document.dom tab.mappings
    (buildA11yTree tab.a11yEpoch tab.document.dom tab.mappings.nodeIdToU32 store tab.focusedNode)

/-- The id of a node is packed from the generation and a number that fits. -/
theorem accessId_eq_some {g : Generation} {node : NodeId} {id : AccessNodeId}
    (hsmall : g.document.dom.size < 2 ^ 32) (h : g.accessId node = some id) :
    node < g.document.dom.size ∧ FitsId (.ofNat node) ∧ id = Mizu.accessId g.epoch (.ofNat node) := by
  rw [Generation.accessId, lookup_nodeIdToU32] at h
  by_cases hnode : node < g.document.dom.size
  · rw [if_pos hnode, Option.map_some] at h
    exact ⟨hnode, fitsId_ofNat hsmall hnode, (Option.some.inj h).symm⟩
  · rw [if_neg hnode] at h
    nomatch h

/-- As long as generations and numbers fit, an action never lands on a node it was not meant for. -/
theorem actions_stay_in_document (h : Reaches step (fun _ _ => True) start s) (hfew : FewRebuilds s)
    (hsmall : SmallDocuments s) : ActionsStay s := by
  have hinv := consistent_of_reaches h hfew
  have hinjective : ∀ (i j : Nat) (g g' : Generation) node node' id, s.generations[i]? = some g →
      s.generations[j]? = some g' → g.accessId node = some id → g'.accessId node' = some id →
      i = j ∧ node = node' := by
    intro i j g g' node node' id hi hj hid hid'
    have hg := hsmall g (mem_of_getElem? hi)
    have hg' := hsmall g' (mem_of_getElem? hj)
    obtain ⟨hnode, hfits, heq⟩ := accessId_eq_some hg hid
    obtain ⟨hnode', hfits', heq'⟩ := accessId_eq_some hg' hid'
    obtain ⟨hepoch, hnumber⟩ := accessId_inj hfits hfits' (heq.symm.trans heq')
    have hi := hinv.epochs i g hi
    have hj := hinv.epochs j g' hj
    rw [hepoch] at hi
    refine ⟨by omega, ?_⟩
    rw [← toNat_ofNat_node hg hnode, hnumber, toNat_ofNat_node hg' hnode']
  have hsize {tab : AccessTab} (htab : tab ∈ s.tabs) : tab.document.dom.size < 2 ^ 32 :=
    hsmall _ (mem_of_getElem? (hinv.tabs tab htab).1)
  have hresolve {tab : AccessTab} (htab : tab ∈ s.tabs) {g : Generation} {i : Nat} {node : NodeId}
      {id : AccessNodeId} (hi : s.generations[i]? = some g) (hid : g.accessId node = some id) :
      resolveEgoId tab.a11yEpoch tab.mappings.u32ToNodeId id =
        if g.epoch = tab.a11yEpoch then if node < tab.document.dom.size then some node else none else none := by
    have hg := hsmall g (mem_of_getElem? hi)
    obtain ⟨hnode, hfits, rfl⟩ := accessId_eq_some hg hid
    rw [resolveEgoId_accessId hfits, (hinv.tabs tab htab).2, lookup_u32ToNodeId (hsize htab).le,
      toNat_ofNat_node hg hnode]
  refine ⟨?_, hinjective, ?_, ?_, ?_⟩
  · intro g hg node id hid
    obtain ⟨-, hfits, rfl⟩ := accessId_eq_some (hsmall g hg) hid
    exact accessId_ne_zero hfits
  · intro tab htab node hnode
    have hid : (Generation.mk tab.a11yEpoch tab.document).accessId node =
        some (accessId tab.a11yEpoch (.ofNat node)) := by
      rw [Generation.accessId, lookup_nodeIdToU32, if_pos hnode, Option.map_some]
    refine ⟨_, hid, ?_⟩
    rw [hresolve htab (hinv.tabs tab htab).1 hid, if_pos rfl, if_pos hnode]
  · intro tab htab i g node id hi hid target htarget
    obtain ⟨htab', -⟩ := hinv.tabs tab htab
    rw [hresolve htab hi hid] at htarget
    split at htarget
    · next hepoch =>
      have hplace : i = tab.generation := by
        have hi := hinv.epochs i g hi
        have htab : tab.a11yEpoch.toNat = tab.generation + 1 := hinv.epochs _ _ htab'
        rw [hepoch] at hi
        omega
      split at htarget
      · subst hplace
        exact ⟨rfl, Option.some.inj (hi.symm.trans htab'), (Option.some.inj htarget).symm⟩
      · nomatch htarget
    · nomatch htarget
  · intro tab htab store
    rw [(hinv.tabs tab htab).2]
    exact listsOnce tab.document.wellFormed (hsize htab) _ store _

/-- A document of nothing but its root. -/
def rootDocument : AccessDocument := ⟨.new { primitive := .doc }, wellFormed_new rfl⟩

/-- Two tabs, the first of which is loaded again. -/
def rootMoves : List AccessMove := [.openTab rootDocument, .openTab rootDocument, .reload 0 rootDocument]

theorem actions_stay_after_reload : ∃ s, run step start rootMoves = some s ∧ ActionsStay s := by
  refine ⟨_, rfl, actions_stay_in_document (reaches_of_run rootMoves rfl fun _ _ _ => trivial) ?_ ?_⟩
  · show 3 < 2 ^ 32 - 1
    decide
  · intro g hg
    have hg : g ∈ [⟨1, rootDocument⟩, ⟨2, rootDocument⟩, ⟨3, rootDocument⟩] := hg
    have hsize : g.document.dom.size = 1 := by
      simp only [mem_cons, not_mem_nil, or_false] at hg
      rcases hg with rfl | rfl | rfl <;> rfl
    rw [hsize]
    decide

/-- A document of any size: texts below the root. -/
theorem exists_document (n : Nat) : ∃ document : AccessDocument, document.dom.size = n + 1 := by
  induction n with
  | zero => exact ⟨rootDocument, rfl⟩
  | succ n ih =>
    obtain ⟨⟨dom, hdom⟩, hsize⟩ := ih
    have hdepth : dom.depth 0 = 1 := Dom.depth_of_none ((hdom.root 0 hdom.size_pos).mpr rfl)
    have hpos : 0 < dom.nodes.length := hdom.size_pos
    refine ⟨⟨dom.append 0 hpos { primitive := .text }, hdom.append hpos ?_ (by nofun)⟩, ?_⟩
    · rw [hdepth]
      decide
    · exact (Dom.size_append hpos).trans (congrArg (· + 1) hsize)

/-- The number of the last of 2³² nodes leaves no room for the one that is added to it. -/
theorem large_document_not_resolved :
    ¬∀ s, Reaches step (fun _ _ => True) start s → FewRebuilds s → ActionsStay s := by
  intro hall
  obtain ⟨document, hsize⟩ := exists_document (2 ^ 32 - 1)
  have hstay := hall _ (.next .refl (l := .openTab document) trivial rfl) (show 1 < 2 ^ 32 - 1 by decide)
  obtain ⟨id, hid, hresolved⟩ := hstay.inverted _ (mem_append_right _ (mem_singleton_self _))
    (2 ^ 32 - 1) (show 2 ^ 32 - 1 < document.dom.size by rw [hsize]; decide)
  have hlast : (rebuildNodeMappings document.dom).nodeIdToU32.lookup (2 ^ 32 - 1) = some (.ofNat (2 ^ 32 - 1)) := by
    rw [lookup_nodeIdToU32, if_pos (by rw [hsize]; decide)]
  obtain rfl : accessId 1 (.ofNat (2 ^ 32 - 1)) = id := by
    rw [Generation.accessId, hlast] at hid
    exact Option.some.inj hid
  have hnone (m : FxHashMap UInt32 NodeId) : resolveEgoId 1 m (accessId 1 (.ofNat (2 ^ 32 - 1))) = none := by
    unfold resolveEgoId
    rw [if_neg (by decide)]
    exact if_pos (by decide)
  exact absurd (hresolved.symm.trans (hnone _)) nofun

end AccessState

end Mizu
