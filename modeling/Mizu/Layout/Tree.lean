import Mizu.Layout.Parse

/-!
# The layout tree by indentation

`sources` lists what an accepted block makes nodes of: its node lines, each with its inline text behind it. A line
belongs to `parentLine`, the nearest node line above it that is indented less than the line and everything between the
two; an event and a class line close blocks like a node line does.

* `parentLine_eq_some_iff`: it is enough to look at the event and class lines between.
* `parseLayoutWithUrls_tree`: the tree of an accepted block.
* `nearestShallower_not_parent`: a block that a class line closes.
-/

namespace Mizu.Layout

open Exec Indentation List Option

/-! ## What the tree should be -/

/-- What a node is made of: the node line at an index, or its inline text. -/
inductive Source where
  | line (k : Nat) (node : MizuNode)
  | text (k : Nat) (text : String)

def Entry.sources (e : Entry) (k : Nat) : List Source :=
  match e.item with
  | .node node inlineText => .line k node :: (inlineText.map (Source.text k)).toList
  | _ => []

/-- What the nodes are made of, in the order of the lines. -/
def sources (es : List Entry) : List Source := es.zipIdx.flatMap fun (e, k) => e.sources k

/-- The node of the line at an index. -/
def nodeId (es : List Entry) (k : Nat) : NodeId := (sources (es.take k)).length

/-- The node line that the line at an index belongs to. -/
def parentLine (es : List Entry) (k : Nat) : Option Nat := blockOf Entry.indent Entry.isNode es k

/-- The lines that belong to the node line at an index. -/
def attached (es : List Entry) (k : Nat) : List Entry :=
  (es.zipIdx.filter fun (_, i) => decide (parentLine es i = some k)).map (·.1)

/-- The parent and the value of a node: the events and classes of the lines that belong to it are added in their
order. -/
def Source.describe (es : List Entry) : Source → Option NodeId × MizuNode
  | .line k node => ((parentLine es k).map (nodeId es), (attached es k).foldl (fun n e => e.item.attach n) node)
  | .text k content => (some (nodeId es k), textNode content)

structure Dom.WellFormed (dom : Dom) : Prop where
  /-- Children are in the order of their lines. -/
  inOrder : dom.InOrder
  /-- The root is the only node without a parent. -/
  root : ∀ id < dom.size, dom.parentOf id = none ↔ id = 0
  doc : dom.primitiveOf 0 = some .doc
  each : ∀ a id : Nat, dom.Ancestor a id → ¬(dom.primitiveOf a = some .each ∧ dom.primitiveOf id = some .each)
  depth : ∀ id < dom.size, dom.depth id ≤ maxLayoutDepth + 1

/-- The tree of some lines. -/
structure IndentationTree (es : List Entry) (dom : Dom) : Prop extends dom.WellFormed where
  /-- One node for each node line and each inline text. -/
  nodes : dom.nodes.map (fun n => (n.parent, n.value)) = (sources es).map (Source.describe es)

/-! ## Lines and their nodes -/

variable {inlineText : Option String}

section Sources

variable {es : List Entry} {e : Entry} {k id : Nat} {node : MizuNode} {text : String}

theorem sources_concat (es : List Entry) (e : Entry) : sources (es ++ [e]) = sources es ++ e.sources es.length := by
  simp [sources, zipIdx_append]

theorem nodeId_concat (h : k ≤ es.length) : nodeId (es ++ [e]) k = nodeId es k := by
  rw [nodeId, nodeId, take_append_of_le_length h]

theorem nodeId_length (es : List Entry) : nodeId es es.length = (sources es).length := by
  rw [nodeId, take_length]

theorem nodeId_concat_length (es : List Entry) (e : Entry) : nodeId (es ++ [e]) es.length = (sources es).length := by
  rw [nodeId_concat le_rfl, nodeId_length]

theorem parentLine_concat (h : k < es.length) : parentLine (es ++ [e]) k = parentLine es k := blockOf_append h

theorem source_line (h : (sources es)[id]? = some (.line k node)) : k < es.length ∧ id = nodeId es k := by
  induction es using List.reverseRecOn with
  | nil => cases h
  | append_singleton es e ih =>
    rw [sources_concat, List.getElem?_append] at h
    rw [length_append, length_singleton]
    split at h
    · grind [nodeId_concat]
    · rename_i hge
      unfold Entry.sources at h
      split at h
      · rename_i node' inlineText hitem
        cases hi : id - (sources es).length with
        | zero => grind [nodeId_concat_length]
        | succ i =>
          rw [hi, List.getElem?_cons_succ] at h
          have hmem := mem_of_getElem? h
          simp at hmem
      · cases h

theorem source_text (h : (sources es)[id]? = some (.text k text)) : k < es.length := by
  induction es using List.reverseRecOn with
  | nil => cases h
  | append_singleton es e ih =>
    rw [sources_concat, List.getElem?_append] at h
    rw [length_append, length_singleton]
    split at h
    · have := ih h
      omega
    · unfold Entry.sources at h
      split at h
      · have hmem := mem_of_getElem? h
        simp only [mem_cons, reduceCtorEq, false_or, mem_toList,
          map_eq_some_iff, Source.text.injEq] at hmem
        obtain ⟨-, -, rfl, -⟩ := hmem
        omega
      · cases h

theorem sources_nodeId (h : es[k]? = some e) (hitem : e.item = .node node inlineText) :
    (sources es)[nodeId es k]? = some (.line k node) := by
  induction es using List.reverseRecOn with
  | nil => cases h
  | append_singleton es e' ih =>
    rw [List.getElem?_append] at h
    split at h
    · grind [nodeId_concat, sources_concat]
    · rename_i hge
      obtain ⟨hk, -⟩ := List.getElem?_eq_some_iff.mp h
      rw [length_singleton] at hk
      obtain rfl : k = es.length := by omega
      rw [Nat.sub_self, List.getElem?_cons_zero] at h
      obtain rfl := some.inj h
      rw [nodeId_concat_length, sources_concat, List.getElem?_append_right le_rfl, Nat.sub_self, Entry.sources, hitem]
      rfl

theorem attached_concat (es : List Entry) (e : Entry) (k : Nat) :
    attached (es ++ [e]) k = attached es k ++ if parentLine (es ++ [e]) es.length = some k then [e] else [] := by
  have hold : es.zipIdx.filter (fun p => decide (parentLine (es ++ [e]) p.2 = some k)) =
      es.zipIdx.filter fun p => decide (parentLine es p.2 = some k) := by
    refine filter_congr fun p hp => ?_
    have hlt := (mem_zipIdx' hp).1
    rw [parentLine_concat hlt]
  rw [attached, attached, zipIdx_append, filter_append, map_append, hold, zipIdx_singleton,
    Nat.zero_add]
  by_cases hk : parentLine (es ++ [e]) es.length = some k <;> simp [hk]

theorem describe_concat_line (es : List Entry) (e : Entry) (hk : k < es.length) :
    (Source.line k node).describe (es ++ [e]) =
      (((Source.line k node).describe es).1,
        if parentLine (es ++ [e]) es.length = some k then e.item.attach ((Source.line k node).describe es).2
        else ((Source.line k node).describe es).2) := by
  unfold Source.describe
  dsimp only
  rw [parentLine_concat hk, attached_concat, foldl_append]
  congr 1
  · refine map_congr fun j hj => ?_
    exact nodeId_concat ((blockOf_lt hj).le.trans hk.le)
  · split <;> rfl

theorem describe_concat_text (es : List Entry) (e : Entry) (hk : k < es.length) :
    (Source.text k text).describe (es ++ [e]) = (Source.text k text).describe es := by
  rw [Source.describe, Source.describe, nodeId_concat hk.le]

end Sources

/-! ## Building -/

section WellFormed

variable {t : Dom} {p : Nat} {node : MizuNode}

theorem Dom.WellFormed.size_pos (h : t.WellFormed) : 0 < t.size := by
  obtain ⟨n, hn, -⟩ := map_eq_some_iff.mp h.doc
  exact (List.getElem?_eq_some_iff.mp hn).1

/-- A node may be appended where it is not too deep and not an `each` in another one. -/
theorem Dom.WellFormed.append (h : t.WellFormed) (hp : p < t.nodes.length) (hdepth : t.depth p ≤ maxLayoutDepth)
    (heach : node.primitive = .each → ∀ a, a = p ∨ t.Ancestor a p → t.primitiveOf a ≠ some .each) :
    (t.append p hp node).WellFormed := by
  have hnew : (t.append p hp node).parentOf t.size = some p := by rw [parentOf_append, if_pos rfl]
  have hold : ∀ i < t.size, (t.append p hp node).parentOf i = t.parentOf i := fun i => parentOf_append_of_lt hp
  have hprimitive : ∀ i < t.size, (t.append p hp node).primitiveOf i = t.primitiveOf i := by
    intro i hi
    rw [primitiveOf_append, if_neg (by omega)]
  have hsize := h.size_pos
  constructor
  · exact h.inOrder.append hp
  · intro id hid
    rw [size_append] at hid
    rcases Nat.lt_succ_iff_lt_or_eq.mp hid with hlt | rfl
    · rw [hold id hlt]
      exact h.root id hlt
    · rw [hnew]
      constructor
      · nofun
      · intro hzero
        omega
  · rw [hprimitive 0 hsize]
    exact h.doc
  · intro (a : Nat) (id : Nat) hancestor
    obtain ⟨q, hq, hrest⟩ := hancestor.cases_parent
    have hlt := hancestor.lt
    by_cases hid : id < t.size
    · rw [hprimitive a (hlt.trans hid), hprimitive id hid]
      exact h.each a id (hancestor.congr fun i hi => hold i (by omega))
    · obtain rfl : id = t.size := by
        by_contra hne
        rw [parentOf_append, if_neg hne, parentOf_eq_none_of_le (by omega)] at hq
        cases hq
      obtain rfl : p = q := some.inj (hnew.symm.trans hq)
      rw [hprimitive a hlt, primitiveOf_append, if_pos rfl]
      rintro ⟨ha, hnode⟩
      refine heach (some.inj hnode) a (hrest.imp_right fun hrest => ?_) ha
      exact hrest.congr fun i hi => hold i (lt_of_le_of_lt hi hp)
  · intro id hid
    rw [size_append] at hid
    rcases Nat.lt_succ_iff_lt_or_eq.mp hid with hlt | rfl
    · have hcongr : (t.append p hp node).depth id = t.depth id := depth_congr fun i hi => hold i (by omega)
      rw [hcongr]
      exact h.depth id hlt
    · have hcongr : (t.append p hp node).depth p = t.depth p :=
        depth_congr fun i hi => hold i (lt_of_le_of_lt hi hp)
      rw [depth_of_some hnew, hcongr]
      omega

theorem Dom.WellFormed.modify {f : MizuNode → MizuNode} (h : t.WellFormed) (hf : ∀ n, (f n).primitive = n.primitive) :
    (t.modify p f).WellFormed := by
  have hprimitive : ∀ i, (t.modify p f).primitiveOf i = t.primitiveOf i := primitiveOf_modify hf
  constructor
  · exact h.inOrder.modify
  · simpa using h.root
  · exact (hprimitive 0).trans h.doc
  · intro a id hancestor
    rw [hprimitive, hprimitive]
    exact h.each a id (hancestor.congr fun i _ => parentOf_modify i)
  · intro id hid
    have hdepth : (t.modify p f).depth id = t.depth id := depth_congr fun i _ => parentOf_modify i
    rw [hdepth]
    exact h.depth id (by simpa using hid)

end WellFormed

/-- The tree and the open nodes after some lines. -/
structure Built (es : List Entry) (b : Build) : Prop where
  stack : b.stack = (openBlocks Entry.indent Entry.isNode es).map (Prod.map id (nodeId es))
  linked : Linked b.dom b.stack
  tree : IndentationTree es b.dom

section Place

variable {es : List Entry} {e : Entry} {b b' : Build}

theorem Built.size (h : Built es b) : b.dom.size = (sources es).length := by
  have := congrArg List.length h.tree.nodes
  simpa [Dom.size] using this

/-- The open node that a line finds is the node of the line that it belongs to. -/
theorem Built.head? (h : Built es b) (e : Entry) :
    (closeTo e.indent b.stack).head?.map (·.2) = (parentLine (es ++ [e]) es.length).map (nodeId es) := by
  rw [h.stack, closeTo_map, List.head?_map, parentLine, ← head?_closeTo_openBlocks, Option.map_map, Option.map_map]
  rfl

theorem Built.closeTo_stack (h : Built es b) (e : Entry) :
    closeTo e.indent b.stack =
      (closeTo e.indent (openBlocks Entry.indent Entry.isNode es)).map (Prod.map id (nodeId (es ++ [e]))) := by
  rw [h.stack, closeTo_map]
  refine map_congr_left fun block hmem => ?_
  have hlt := openBlocks_lt ((closeTo_suffix _ _).subset hmem)
  rw [Prod.map_apply', Prod.map_apply', nodeId_concat hlt.le]

theorem Item.attach_primitive (item : Item) (node : MizuNode) : (item.attach node).primitive = node.primitive := by
  cases item <;> rfl

/-- The line of an event or a class changes the description of one node. -/
theorem Built.nodes_modify (h : Built es b) {k parent : Nat} (hk : parentLine (es ++ [e]) es.length = some k)
    (hparent : nodeId es k = parent) (hopen : ∃ node, (sources es)[parent]? = some (.line k node)) :
    (b.dom.modify parent e.item.attach).nodes.map (fun n => (n.parent, n.value)) =
      (sources es).map (Source.describe (es ++ [e])) := by
  obtain ⟨node, hnode⟩ := hopen
  apply ext_getElem?
  intro i
  have hi := congrArg (·[i]?) h.tree.nodes
  simp only [List.getElem?_map] at hi ⊢
  simp only [Dom.modify, List.getElem?_modify, Functor.map, Option.map_map]
  cases hs : (sources es)[i]? with
  | none =>
    rw [hs] at hi
    rw [map_eq_none_iff.mp hi]
    rfl
  | some source =>
    rw [hs] at hi
    obtain ⟨n, hn, hdescribe⟩ := map_eq_some_iff.mp hi
    rw [hn]
    refine congrArg some ?_
    show ((if parent = i then { n with value := e.item.attach n.value } else n).parent,
      (if parent = i then { n with value := e.item.attach n.value } else n).value) = source.describe (es ++ [e])
    cases source with
    | line k' node' =>
      obtain ⟨hlt, hid⟩ := source_line hs
      rw [describe_concat_line es e hlt, hk, ← hdescribe]
      by_cases heq : parent = i
      · rw [heq, hs] at hnode
        cases some.inj hnode
        simp [heq]
      · grind
    | text k' content =>
      have hne : parent ≠ i := by grind
      rw [describe_concat_text es e (source_text hs), ← hdescribe, if_neg hne]

theorem parentLine_source {k : Nat} (hk : parentLine (es ++ [e]) es.length = some k) :
    ∃ node, (sources es)[nodeId es k]? = some (.line k node) := by
  obtain ⟨⟨hlt, hopen⟩, -⟩ := blockOf_eq_some_iff.mp hk
  obtain ⟨a, ha, hnode, -⟩ := isOpen_eq_true_iff.mp hopen
  rw [take_of_length_le (by simp), List.getElem?_append_left hlt] at ha
  unfold Entry.isNode at hnode
  split at hnode
  · rename_i node inlineText hitem
    exact ⟨node, sources_nodeId ha hitem⟩
  · cases hnode

/-- An event or a class line changes the node that it belongs to. -/
theorem Built.placeOn (h : Built es b) {missing internal : String} (hitem : e.isNode = false)
    (hplace : placeOn e missing internal e.item.attach b = .ok b') : Built (es ++ [e]) b' := by
  have hhead := h.head? e
  unfold Layout.placeOn at hplace
  dsimp only at hplace
  split at hplace
  · cases hplace
  · rename_i d parent hfound
    split at hplace
    · obtain rfl := Except.ok.inj hplace
      rw [hfound] at hhead
      obtain ⟨k, hk, hparent⟩ := map_eq_some_iff.mp hhead.symm
      have hparent : nodeId es k = parent := hparent
      have hsources : sources (es ++ [e]) = sources es := by grind [sources_concat, Entry.isNode, Entry.sources]
      refine ⟨?_, ?_, h.tree.toWellFormed.modify e.item.attach_primitive, ?_⟩
      · rw [openBlocks_concat, hitem]
        exact h.closeTo_stack e
      · exact (h.linked.of_suffix (closeTo_suffix _ _)).congr (by simp) fun i _ => Dom.parentOf_modify i
      · rw [hsources]
        exact h.nodes_modify hk hparent (hparent ▸ parentLine_source hk)
    · cases hplace

variable {node : MizuNode}

theorem map_nodes_append {t : Dom} {p : Nat} (hp : p < t.nodes.length) :
    (t.append p hp node).nodes.map (fun n => (n.parent, n.value)) =
      t.nodes.map (fun n => (n.parent, n.value)) ++ [(some p, node)] := by
  unfold Dom.append
  rw [map_append]
  congr 1
  apply ext_getElem?
  intro i
  simp only [List.getElem?_map, List.getElem?_modify]
  cases t.nodes[i]? with
  | none => rfl
  | some n => grind

theorem attached_length (es : List Entry) : attached es es.length = [] := by
  unfold attached
  rw [map_eq_nil_iff, filter_eq_nil_iff]
  intro p hp hparent
  have hlt := (mem_zipIdx' hp).1
  have := blockOf_lt (of_decide_eq_true hparent)
  omega

/-- A node line gets its node, and its inline text another one. -/
theorem Built.map_describe (h : Built es b) (hitem : e.item = .node node inlineText) :
    (sources (es ++ [e])).map (Source.describe (es ++ [e])) =
      b.dom.nodes.map (fun n => (n.parent, n.value)) ++
        ((parentLine (es ++ [e]) es.length).map (nodeId es), node) ::
          (inlineText.map fun text => (some b.dom.size, textNode text)).toList := by
  rw [sources_concat, map_append, h.tree.nodes]
  congr 1
  · refine map_congr_left fun source hmem => ?_
    obtain ⟨i, hi⟩ := mem_iff_getElem?.mp hmem
    cases source with
    | line k node' => grind [describe_concat_line, Item.attach, source_line]
    | text k content => exact describe_concat_text es e (source_text hi)
  · have hattached : attached (es ++ [e]) es.length = [] := by
      have hself : parentLine (es ++ [e]) es.length ≠ some es.length := fun hself =>
        Nat.lt_irrefl _ (blockOf_lt hself)
      rw [attached_concat, attached_length, if_neg hself]
      rfl
    have hparent : (parentLine (es ++ [e]) es.length).map (nodeId (es ++ [e])) =
        (parentLine (es ++ [e]) es.length).map (nodeId es) :=
      map_congr fun j hj => nodeId_concat (blockOf_lt hj).le
    unfold Entry.sources
    rw [hitem]
    cases inlineText with
    | none => simp [Source.describe, hattached, hparent]
    | some content => simp [Source.describe, hattached, hparent, nodeId_concat_length, h.size]

theorem insideEach_of_mem {dom : Dom} {stack : List (Nat × NodeId)} {a : NodeId} (ha : a ∈ stack.map (·.2))
    (heach : dom.primitiveOf a = some .each) : insideEach dom stack = true := by
  obtain ⟨block, hblock, rfl⟩ := mem_map.mp ha
  obtain ⟨n, hn, hprimitive⟩ := map_eq_some_iff.mp heach
  refine any_eq_true.mpr ⟨block, hblock, ?_⟩
  simp [hn, hprimitive]

/-- A node line is hung below the node that it belongs to, and its inline text below it. -/
theorem Built.placeNode (h : Built es b)
    (hitem : e.item = .node node inlineText) (hplace : placeNode e node inlineText b = .ok b') :
    Built (es ++ [e]) b' := by
  have hhead := h.head? e
  have hstack := h.closeTo_stack e
  have hlinked := h.linked.of_suffix (closeTo_suffix e.indent b.stack)
  have hdescribe := h.map_describe hitem
  unfold Layout.placeNode at hplace
  dsimp only at hplace
  generalize closeTo e.indent b.stack = stack at hhead hstack hlinked hplace
  split at hplace
  · cases hplace
  · rename_i hnested
    split at hplace
    · cases hplace
    · rename_i d parent hfound
      rw [hfound] at hhead
      split at hplace
      · rename_i hlt
        split at hplace
        · cases hplace
        · rename_i hdeep
          obtain rfl := Except.ok.inj hplace
          obtain ⟨below, rfl⟩ : ∃ below, stack = (d, parent) :: below := List.head?_eq_some_iff.mp hfound
          have hdepth : b.dom.depth parent = below.length + 1 := hlinked.depth
          rw [length_cons] at hdeep
          have htree : (b.dom.append parent hlt node).WellFormed := by
            refine h.tree.toWellFormed.append hlt (by omega) fun hnode a ha heach => hnested ⟨hnode, ?_⟩
            refine insideEach_of_mem (a := a) ?_ heach
            rcases ha with rfl | ha
            · exact mem_cons_self
            · exact mem_cons_of_mem _ (hlinked.ancestor ha)
          have hlinked' : Linked (b.dom.append parent hlt node) ((e.indent, b.dom.size) :: (d, parent) :: below) := by
            refine ⟨by simp, ?_, hlinked.congr (by simp) fun i hi => Dom.parentOf_append_of_lt hlt hi⟩
            rw [Dom.parentOf_append, if_pos rfl]
            rfl
          have hstack' : (e.indent, b.dom.size) :: (d, parent) :: below =
              (openBlocks Entry.indent Entry.isNode (es ++ [e])).map (Prod.map id (nodeId (es ++ [e]))) := by
            have hopens : e.isNode = true := by rw [Entry.isNode, hitem]
            rw [openBlocks_concat, if_pos hopens, singleton_append, map_cons, ← hstack, Prod.map_apply,
              nodeId_concat_length, h.size]
            rfl
          rw [← hhead] at hdescribe
          cases inlineText with
          | none => exact ⟨hstack', hlinked', htree, (map_nodes_append hlt).trans hdescribe.symm⟩
          | some text =>
            have hlt' : b.dom.nodes.length < (b.dom.append parent hlt node).nodes.length := by
              show b.dom.size < (b.dom.append parent hlt node).size
              simp
            have hnew : (b.dom.append parent hlt node).depth b.dom.size = below.length + 1 + 1 := hlinked'.depth
            have htext : (b.dom.append parent hlt node).appendText b.dom.nodes.length (some text) =
                (b.dom.append parent hlt node).append b.dom.nodes.length hlt' (textNode text) := by
              rw [Dom.appendText, dif_pos hlt']
            rw [htext]
            refine ⟨hstack', hlinked'.congr (by simp) fun i hi => Dom.parentOf_append_of_lt hlt' hi,
              htree.append hlt' ?_ nofun, ?_⟩
            · exact hnew.le.trans (by omega)
            · grind [map_nodes_append, Dom.size]
      · cases hplace

theorem Built.place (h : Built es b) (hplace : place e b = .ok b') : Built (es ++ [e]) b' := by
  unfold Layout.place at hplace
  split at hplace
  · rename_i node inlineText hitem
    exact h.placeNode hitem hplace
  · rename_i hitem
    exact h.placeOn (by rw [Entry.isNode, hitem]) hplace
  · rename_i hitem
    exact h.placeOn (by rw [Entry.isNode, hitem]) hplace

theorem Built.placeAll {tail : List Entry} (h : Built es b) (hplace : placeAll tail b = .ok b') :
    Built (es ++ tail) b' := by
  induction tail generalizing es b with
  | nil =>
    obtain rfl := Except.ok.inj hplace
    rwa [append_nil]
  | cons e tail ih =>
    rw [Layout.placeAll, foldlM_cons] at hplace
    obtain ⟨b₁, hfirst, hrest⟩ := except_bind_ok_iff.mp hplace
    have hbuilt := ih (h.place hfirst) hrest
    rwa [append_assoc] at hbuilt

end Place

section Root

variable {e : Entry} {node : MizuNode} {text : Option String}

theorem wellFormed_new (hdoc : node.primitive = .doc) : (Dom.new node).WellFormed := by
  have hparent : ∀ id, (Dom.new node).parentOf id = none := by
    intro id
    cases id <;> rfl
  constructor
  · exact Dom.inOrder_new node
  · intro id hid
    have hzero : id = 0 := Nat.lt_one_iff.mp hid
    simp [hparent, hzero]
  · exact congrArg some hdoc
  · intro a id hancestor
    obtain ⟨p, hp, -⟩ := hancestor.cases_parent
    rw [hparent] at hp
    cases hp
  · intro id _
    rw [Dom.depth_of_none (hparent id)]
    omega

theorem built_root (hitem : e.item = .node node text) (hdoc : node.primitive = .doc) :
    Built [e] ⟨(Dom.new node).appendText 0 text, [(e.indent, 0)]⟩ := by
  have hopens : e.isNode = true := by rw [Entry.isNode, hitem]
  have hstack : [(e.indent, 0)] = (openBlocks Entry.indent Entry.isNode [e]).map (Prod.map id (nodeId [e])) := by
    have hconcat : openBlocks Entry.indent Entry.isNode ([] ++ [e]) = _ := openBlocks_concat [] e
    rw [nil_append, if_pos hopens] at hconcat
    rw [hconcat]
    rfl
  have hattached : attached [e] 0 = [] := rfl
  have hwell := wellFormed_new hdoc
  cases text with
  | none =>
    refine ⟨hstack, ⟨Nat.one_pos, rfl, trivial⟩, hwell, ?_⟩
    simp [sources, Entry.sources, hitem, Source.describe, hattached, Dom.appendText, Dom.new, parentLine, blockOf]
  | some text =>
    have hlt : 0 < (Dom.new node).nodes.length := Nat.one_pos
    have hdepth : (Dom.new node).depth 0 ≤ maxLayoutDepth := by
      rw [Dom.depth_of_none rfl]
      decide
    have htext : (Dom.new node).appendText 0 (some text) = (Dom.new node).append 0 hlt (textNode text) := rfl
    rw [htext]
    refine ⟨hstack, ⟨by simp, ?_, trivial⟩, hwell.append hlt hdepth (by simp [textNode]), ?_⟩
    · rfl
    · rw [map_nodes_append]
      simp [sources, Entry.sources, hitem, Source.describe, hattached, Dom.new, parentLine, blockOf, nodeId]

end Root

/-! ## Nearest lines -/

/-- The line at `j` is a node line above the one at `k` and indented less, and no event or class line between them is
indented as little as it. -/
def Above (es : List Entry) (j k : Nat) : Prop :=
  ∃ a b, es[j]? = some a ∧ es[k]? = some b ∧ j < k ∧ a.isNode = true ∧ a.indent < b.indent ∧
    ∀ i e, j < i → i < k → es[i]? = some e → e.isNode = false → a.indent < e.indent

section Nearest

variable {es : List Entry} {j k : Nat}

theorem isOpen_take_iff (hk : k < es.length) : isOpen Entry.indent Entry.isNode (es.take (k + 1)) j = true ∧ j < k ↔
    ∃ a, es[j]? = some a ∧ j < k ∧ a.isNode = true ∧
      ∀ i e, j < i → i ≤ k → es[i]? = some e → a.indent < e.indent := by
  grind [isOpen_eq_true_iff, List.getElem?_take_of_lt, length_take]

/-- A line belongs to the nearest node line above it that is indented less and whose block no event or class line
between them closes. -/
theorem parentLine_eq_some_iff (hk : k < es.length) :
    parentLine es k = some j ↔ Above es j k ∧ ∀ i, j < i → ¬Above es i k := by
  have habove : ∀ {i}, isOpen Entry.indent Entry.isNode (es.take (k + 1)) i = true ∧ i < k → Above es i k := by
    intro i hi
    obtain ⟨a, ha, hlt, hnode, hless⟩ := (isOpen_take_iff hk).mp hi
    exact ⟨a, es[k], ha, List.getElem?_eq_getElem hk, hlt, hnode, hless k _ hlt le_rfl (List.getElem?_eq_getElem hk),
      fun i' e' hii hik he _ => hless i' e' hii hik.le he⟩
  have hopen : ∀ {i}, Above es i k → (∀ i', i < i' → ¬Above es i' k) →
      isOpen Entry.indent Entry.isNode (es.take (k + 1)) i = true ∧ i < k := by
    rintro i ⟨a, b, ha, hb, hlt, hnode, hless, hbetween⟩ hnearest
    refine (isOpen_take_iff hk).mpr ⟨a, ha, hlt, hnode, fun m e him hmk he => ?_⟩
    rcases hmk.lt_or_eq with hmk | rfl
    · cases hnode' : e.isNode with
      | false => exact hbetween m e him hmk he hnode'
      | true =>
        -- a node line that is indented as little would itself be nearer
        by_contra hle
        refine hnearest m him ⟨e, b, he, hb, hmk, hnode', by omega, fun i' e' hmi hik he' hnot => ?_⟩
        have := hbetween i' e' (him.trans hmi) hik he' hnot
        omega
    · obtain rfl := some.inj (hb.symm.trans he)
      exact hless
  unfold parentLine
  rw [blockOf_eq_some_iff]
  constructor
  · rintro ⟨⟨hlt, hj⟩, hnearest⟩
    refine ⟨habove ⟨hj, hlt⟩, fun i hji hi => ?_⟩
    -- of the lines behind `j`, take the last one that is above
    obtain ⟨m, hm, hlast⟩ : ∃ m, (j < m ∧ Above es m k) ∧ ∀ m', m < m' → ¬Above es m' k := by
      classical
      have hbound : ∀ m, j < m ∧ Above es m k → m ≤ k := by
        rintro m ⟨-, a, b, -, -, hmk, -⟩
        exact hmk.le
      refine ⟨Nat.findGreatest (fun m => j < m ∧ Above es m k) k, ?_, fun m' hm' habove' => ?_⟩
      · exact Nat.findGreatest_spec (P := fun m => j < m ∧ Above es m k) (hbound i ⟨hji, hi⟩) ⟨hji, hi⟩
      · have hge := Nat.le_findGreatest (P := fun m => j < m ∧ Above es m k) (hbound i ⟨hji, hi⟩) ⟨hji, hi⟩
        have hjm' : j < m' := by omega
        have := Nat.le_findGreatest (P := fun m => j < m ∧ Above es m k) (hbound m' ⟨hjm', habove'⟩) ⟨hjm', habove'⟩
        omega
    obtain ⟨hopen', hmk⟩ := hopen hm.2 hlast
    rw [hnearest m hm.1 hmk] at hopen'
    cases hopen'
  · grind

end Nearest

/-- The tree of an accepted block is that of its indentation. -/
theorem parseLayoutWithUrls_tree (env : LayoutEnv) (layoutContent : List Char) (dom : Dom)
    (h : parseLayoutWithUrls env layoutContent = .ok dom) :
    ∃ es, ReadsLayout env layoutContent es ∧ IndentationTree es dom ∧
      ∀ k < es.length, ∀ j, parentLine es k = some j ↔ Above es j k ∧ ∀ i, j < i → ¬Above es i k := by
  obtain ⟨e, es, b, node, text, hreads, hitem, hdoc, hplace, rfl⟩ := parseLayoutWithUrls_ok h
  have hbuilt := (built_root hitem hdoc).placeAll hplace
  exact ⟨e :: es, hreads, hbuilt.tree, fun k hk j => parentLine_eq_some_iff hk⟩

/-! ## A class line between two boxes -/

/-- Without functions and endpoints. -/
def bareLayout : LayoutEnv where
  isAlphanumeric := Char.isAlphanum
  table := latinTable
  parse := ⟨256, fun _ => none, id⟩
  headerName _ := .ok ()
  urls := none
  isRemoteOrigin := false
  declared _ := false

/-- A box, a class line that is indented less than it, and a box that is indented more. -/
def dedentedClass : List Char :=
  ['d', 'o', 'c', '\n', ' ', ' ', 'b', 'o', 'x', '\n', ' ', 'c', 'l', 'a', 's', 's', ' ', 'a', ' ', 'i', 'f', ' ', 'b',
   '\n', ' ', ' ', ' ', 'b', 'o', 'x']

theorem dedentedClass_lines : numberedLines dedentedClass =
    [(1, ['d', 'o', 'c']), (2, [' ', ' ', 'b', 'o', 'x']),
      (3, [' ', 'c', 'l', 'a', 's', 's', ' ', 'a', ' ', 'i', 'f', ' ', 'b']), (4, [' ', ' ', ' ', 'b', 'o', 'x'])] := by
  rfl

theorem parseAttributesAndEvents_nil (env : LayoutEnv) (acc : AttrsAndEvents) :
    parseAttributesAndEvents env [] acc = .ok acc := by
  rw [parseAttributesAndEvents]
  rfl

theorem parsePrimitiveAndAttrs_word {env : LayoutEnv} {word : List Char} {name : String} {primitive : Primitive}
    (lineNum : Nat) (hword : splitFirstWord word = (word, []))
    (hlower : env.table.toLowercase (String.ofList word) = name)
    (hname : (name, primitive) = ("doc", .doc) ∨ (name, primitive) = ("box", .box)) :
    parsePrimitiveAndAttrs env word lineNum = .ok ⟨{ primitive }, false, none⟩ := by
  have hattributes := parseAttributesAndEvents_nil env (∅, ∅)
  unfold parsePrimitiveAndAttrs
  rw [hword]
  dsimp only
  rw [hlower]
  rcases hname with hname | hname
  all_goals
    obtain ⟨rfl, rfl⟩ := Prod.mk.inj hname
    show (atLine lineNum (parseAttributesAndEvents env [] (∅, ∅)) >>= _) = _
    rw [hattributes]
    rfl

theorem readItem_box (lineNum : Nat) (line : List Char) (rest : List NumberedLine)
    (hline : trimChars line = ['b', 'o', 'x']) :
    readItem bareLayout lineNum line rest = .ok (.node { primitive := .box } none, rest) := by
  have hbox : parsePrimitiveAndAttrs bareLayout ['b', 'o', 'x'] lineNum = .ok ⟨{ primitive := .box }, false, none⟩ :=
    parsePrimitiveAndAttrs_word lineNum rfl rfl (.inr rfl)
  unfold readItem
  rw [hline]
  show readNode bareLayout lineNum ['b', 'o', 'x'] rest = _
  unfold readNode
  rw [hbox]
  rfl

theorem readItem_class (rest : List NumberedLine) :
    readItem bareLayout 3 [' ', 'c', 'l', 'a', 's', 's', ' ', 'a', ' ', 'i', 'f', ' ', 'b'] rest =
      .ok (.conditionalClass (.toggle "a" (.var "b")), rest) := by
  rfl

theorem layoutLoop_cons {env : LayoutEnv} {b b' : Build} {lineNum : Nat} {line : List Char}
    {rest rest' : List NumberedLine} {item : Item} (hread : readItem env lineNum line rest = .ok (item, rest'))
    (hplace : place ⟨lineNum, line, item⟩ b = .ok b') :
    layoutLoop env b ((lineNum, line) :: rest) = layoutLoop env b' rest' := by
  grind [layoutLoop]

/-- The lines of the block. -/
def dedentedEntries : List Entry :=
  [⟨1, ['d', 'o', 'c'], .node { primitive := .doc } none⟩,
    ⟨2, [' ', ' ', 'b', 'o', 'x'], .node { primitive := .box } none⟩,
    ⟨3, [' ', 'c', 'l', 'a', 's', 's', ' ', 'a', ' ', 'i', 'f', ' ', 'b'], .conditionalClass (.toggle "a" (.var "b"))⟩,
    ⟨4, [' ', ' ', ' ', 'b', 'o', 'x'], .node { primitive := .box } none⟩]

theorem dedentedClass_reads : ReadsLayout bareLayout dedentedClass dedentedEntries :=
  ⟨1, _, _, _, _, dedentedClass_lines, parsePrimitiveAndAttrs_word 1 rfl rfl (.inl rfl), rfl,
    .cons (readItem_box 2 _ _ rfl) (.cons (readItem_class _) (.cons (readItem_box 4 _ _ rfl) .nil)), rfl⟩

theorem dedentedClass_dom :
    ∃ dom, parseLayoutWithUrls bareLayout dedentedClass = .ok dom ∧ dom.parentOf 2 = some 0 := by
  have hdoc : parsePrimitiveAndAttrs bareLayout ['d', 'o', 'c'] 1 = .ok ⟨{ primitive := .doc }, false, none⟩ :=
    parsePrimitiveAndAttrs_word 1 rfl rfl (.inl rfl)
  unfold parseLayoutWithUrls
  rw [dedentedClass_lines]
  dsimp only
  have htrim : trimChars ['d', 'o', 'c'] = ['d', 'o', 'c'] := rfl
  rw [htrim, hdoc]
  have hloop : layoutLoop bareLayout ⟨Dom.new { primitive := .doc }, [(0, 0)]⟩
      [(2, [' ', ' ', 'b', 'o', 'x']), (3, [' ', 'c', 'l', 'a', 's', 's', ' ', 'a', ' ', 'i', 'f', ' ', 'b']),
        (4, [' ', ' ', ' ', 'b', 'o', 'x'])] = .ok _ :=
    (layoutLoop_cons (readItem_box 2 _ _ rfl) rfl).trans
      ((layoutLoop_cons (readItem_class _) rfl).trans
        ((layoutLoop_cons (readItem_box 4 _ _ rfl) rfl).trans (by rw [layoutLoop]; rfl)))
  refine ⟨_, congrArg (Except.map Build.dom) hloop, ?_⟩
  rfl

/-- The tree of the block. -/
theorem dedentedClass_tree : ∃ dom es, parseLayoutWithUrls bareLayout dedentedClass = .ok dom ∧
    ReadsLayout bareLayout dedentedClass es ∧ IndentationTree es dom := by
  obtain ⟨dom, hdom, -⟩ := dedentedClass_dom
  obtain ⟨es, hreads, htree, -⟩ := parseLayoutWithUrls_tree bareLayout dedentedClass dom hdom
  exact ⟨dom, es, hdom, hreads, htree⟩

/-- The nearest node line above that is indented less. -/
def nearestShallower (es : List Entry) (k : Nat) : Option Nat :=
  (List.range k).reverse.find? fun j =>
    (es[j]?).any fun a => a.isNode && (es[k]?).any fun b => decide (a.indent < b.indent)

/-- It is not always the parent: a class line has closed its block. -/
theorem nearestShallower_not_parent :
    ¬∀ (env : LayoutEnv) (layoutContent : List Char) (dom : Dom) (es : List Entry),
      parseLayoutWithUrls env layoutContent = .ok dom → ReadsLayout env layoutContent es →
      ∀ k e, es[k]? = some e → e.isNode = true →
        dom.parentOf (nodeId es k) = (nearestShallower es k).map (nodeId es) := by
  intro h
  obtain ⟨dom, hdom, hparent⟩ := dedentedClass_dom
  have hbox := h bareLayout dedentedClass dom dedentedEntries hdom dedentedClass_reads 3 _ rfl rfl
  have hid : nodeId dedentedEntries 3 = 2 := rfl
  have hnearest : (nearestShallower dedentedEntries 3).map (nodeId dedentedEntries) = some 1 := rfl
  rw [hid, hparent, hnearest] at hbox
  cases hbox

end Mizu.Layout
