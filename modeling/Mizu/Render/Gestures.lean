import Mizu.Render.Accessibility

/-!
# The gestures of a user

Keys, the mouse and assistive technology act on the document of a tab: they move the focus, edit the text of its inputs,
and send the two events that the worker takes for gestures.

* `gestures_handled`: whatever is sent names a node that handles it, and a form sends bounded texts of its own inputs.
* `gesture_paths_agree`: a key, a click and assistive technology send the same of the same node.
* `tab_run`: where any sequence of Tab and Shift-Tab leaves the focus.
* `tab_order_accessible`: the order has exactly the nodes that assistive technology can focus.
-/

namespace Mizu

open Layout Transition List

/-! ## Walks -/

section Walks

variable (t : Layout.Dom)

/-- `descendants`: the nodes of a subtree, a node before its children; the number bounds the depth. -/
def descendants : Nat → NodeId → List NodeId
  | 0, _ => []
  | fuel + 1, id =>
    match t.nodes[id]? with
    | none => []
    | some node => id :: node.children.flatMap (descendants fuel)

/-- The nodes of a subtree that pass. -/
def nodesBelow (id : NodeId) (p : Layout.MizuNode → Bool) : List (NodeId × Layout.MizuNode) :=
  (descendants t t.size id).filterMap fun id =>
    (t.nodes[id]?).bind fun node => if p node.value then some (id, node.value) else none

/-- `find_form_ancestor`; a parent has a smaller number, so `id + 1` steps are enough. -/
def findFormAncestor (id : NodeId) : Option NodeId := go (id + 1) id
where
  go : Nat → NodeId → Option NodeId
    | 0, _ => none
    | fuel + 1, id =>
      match t.nodes[id]? with
      | none => none
      | some node => if node.value.primitive = .form then some id else node.parent.bind (go fuel)

def findClickAndSubmit (start : NodeId) : Option NodeId × Option NodeId := go (start + 1) start
where
  go : Nat → NodeId → Option NodeId × Option NodeId
    | 0, _ => (none, none)
    | fuel + 1, id =>
      match t.nodes[id]? with
      | none => (none, none)
      | some node =>
        let action := if "click" ∈ node.value.events then some id else none
        let submit := if "submit" ∈ node.value.events then some id else none
        if action.isSome ∨ submit.isSome then (action, submit)
        else
          match node.parent with
          | none => (none, none)
          | some parent => go fuel parent

def isFileInput (node : Layout.MizuNode) : Bool := node.attributes.lookup "type" = some "file"

/-- What a click finds on its way up from the node that was hit. -/
structure ClickTargets where
  newFocus : Option NodeId := none
  fileInput : Option NodeId := none
  action : Option NodeId := none
  submit : Option NodeId := none

/-- The loop of `dispatch_dom_click`. -/
def clickTargets : Nat → Option NodeId → ClickTargets → ClickTargets
  | fuel + 1, some id, found =>
    match t.nodes[id]? with
    | none => found
    | some node =>
      let found :=
        if node.value.primitive ≠ .input then found
        else if isFileInput node.value then { found with fileInput := some id }
        else { found with newFocus := some id }
      let found := if "click" ∈ node.value.events then { found with action := some id } else found
      let found := if "submit" ∈ node.value.events then { found with submit := some id } else found
      if found.action.isSome ∨ found.submit.isSome then found else clickTargets fuel node.parent found
  | _, _, found => found

end Walks

/-! ## Typing -/

/-- `char::is_control`. -/
def isControl (c : Char) : Bool := c.toNat < 0x20 || (0x7f ≤ c.toNat && c.toNat ≤ 0x9f)

/-- `push_input_text`, without whether the text grew. -/
def pushInputText (inputMaxBytes : Nat) (buf text : String) : String :=
  go (text.toList.filter (!isControl ·)) buf
where
  go : List Char → String → String
    | [], buf => buf
    | c :: cs, buf => if buf.utf8ByteSize + c.utf8Size > inputMaxBytes then buf else go cs (buf.push c)

/-! ## The document of a tab -/

/-- What a tab keeps of the input into its document. -/
structure PageInput where
  document : AccessDocument
  a11yEpoch : UInt32
  focusedNode : Option NodeId := none
  localInputs : FxHashMap UInt32 String := ∅
  /-- The files that were picked, each with its allocation. -/
  localFileSelections : FxHashMap UInt32 (Nat × FileHandleData) := ∅

/-- The events that count as gestures. -/
inductive GestureEvent where
  | click (nodeId : UInt32)
  | submitForm (submitterNodeId : UInt32) (fields : FxHashMap String Value)

/-- A key that comes as far as the document, a click or a request, and the arrival of a document. -/
inductive PageMove where
  | tab (backward : Bool)
  | escape
  | backspace
  | enter
  /-- The space bar, and the text that it types. -/
  | space (text : Option String)
  /-- Another key, and the text that it types or pastes. -/
  | key (text : Option String)
  /-- A click with the node that the hit test finds, and the file that is picked if it asks for one. -/
  | click (hit : Option NodeId) (picked : Option (Nat × FileHandleData))
  | request (action : AccessAction) (target : AccessNodeId)
  | reload (document : AccessDocument) (a11yEpoch : UInt32)

namespace PageInput

variable (inputMaxBytes : Nat) (s : PageInput)

def nodeIdToU32 : FxHashMap NodeId UInt32 := (rebuildNodeMappings s.document.dom).nodeIdToU32

/-- The value of an input in the form that it belongs to. -/
def fieldValue (input : NodeId × Layout.MizuNode) : Value :=
  if isFileInput input.2 then
    (((s.nodeIdToU32.lookup input.1).bind s.localFileSelections.lookup).map fun file =>
      Value.fileHandle file.1 file.2).getD .null
  else .string (((s.nodeIdToU32.lookup input.1).bind s.localInputs.lookup).getD "")

/-- The inputs of a form, with their names. -/
def namedInputs (form : NodeId) : List (String × (NodeId × Layout.MizuNode)) :=
  (nodesBelow s.document.dom form (·.primitive = .input)).filterMap fun input =>
    (input.2.attributes.lookup "name").map (·, input)

def collectFormFields (member : NodeId) : Option (FxHashMap String Value) :=
  (findFormAncestor s.document.dom member).map fun form =>
    (s.namedInputs form).foldl (fun fields input => fields.insert input.1 (s.fieldValue input.2)) ∅

/-- The first node of the form that has a handler. -/
def findFormSubmitter (member : NodeId) : Option NodeId :=
  (findFormAncestor s.document.dom member).bind fun form =>
    ((nodesBelow s.document.dom form ("submit" ∈ ·.events)).head?).map (·.1)

def dispatchClickGesture (node : NodeId) : List GestureEvent :=
  ((s.nodeIdToU32.lookup node).map GestureEvent.click).toList

def dispatchFormSubmit (submitter : NodeId) : List GestureEvent :=
  match s.nodeIdToU32.lookup submitter with
  | none => []
  | some id => ((s.collectFormFields submitter).map (.submitForm id)).toList

/-- What is sent for the nodes that were found. -/
def dispatch (found : Option NodeId × Option NodeId) : List GestureEvent :=
  found.1.toList.flatMap s.dispatchClickGesture ++ found.2.toList.flatMap s.dispatchFormSubmit

def applyFileSelection (id : UInt32) : Option (Nat × FileHandleData) → PageInput
  | none => { s with localFileSelections := s.localFileSelections.erase id }
  | some file => { s with localFileSelections := s.localFileSelections.insert id file }

/-- Where a key moves from a node of the order, or from none. -/
def nextIndex (length : Nat) : Option Nat → (backward : Bool) → Nat
  | none, false => 0
  | none, true => length - 1
  | some i, false => (i + 1) % length
  | some i, true => (i + length - 1) % length

def focusableNodesInOrder : List NodeId := (nodesBelow s.document.dom 0 isFocusable).map (·.1)

def nextFocusTarget (backward : Bool) : Option NodeId :=
  let order := s.focusableNodesInOrder
  let current := s.focusedNode.bind fun id => if id ∈ order then some (order.idxOf id) else none
  order[nextIndex order.length current backward]?

def typeText (id : UInt32) : Option String → PageInput
  | none => s
  | some text =>
    { s with localInputs := s.localInputs.insert id (pushInputText inputMaxBytes ((s.localInputs.lookup id).getD "") text) }

/-- `handle_focused_node_key`, for the focused node and its number. -/
def focusedNodeKey (focus : NodeId) (id : UInt32) (isInput : Bool) : PageMove → PageInput × List GestureEvent
  | .escape => ({ s with focusedNode := none }, [])
  | .backspace =>
    match isInput, s.localInputs.lookup id with
    | true, some buf => ({ s with localInputs := s.localInputs.insert id (String.ofList buf.toList.dropLast) }, [])
    | _, _ => (s, [])
  | .enter =>
    (s, if isInput then (s.findFormSubmitter focus).toList.flatMap s.dispatchFormSubmit
      else s.dispatch (findClickAndSubmit s.document.dom focus))
  | .space text =>
    if isInput then (s.typeText inputMaxBytes id text, []) else (s, s.dispatch (findClickAndSubmit s.document.dom focus))
  | .key text => (if isInput then s.typeText inputMaxBytes id text else s, [])
  | _ => (s, [])

def isInput (node : NodeId) : Bool := (s.document.dom.nodes[node]?).any (·.value.primitive = .input)

/-- A key for the focused node; without one nothing happens. -/
def keyDown (key : PageMove) : PageInput × List GestureEvent :=
  match s.focusedNode with
  | none => (s, [])
  | some focus =>
    match s.nodeIdToU32.lookup focus with
    | none => (s, [])
    | some id => s.focusedNodeKey inputMaxBytes focus id (s.isInput focus) key

/-- `dispatch_dom_click`. -/
def clickAt (hit : Option NodeId) (picked : Option (Nat × FileHandleData)) : PageInput × List GestureEvent :=
  let found := clickTargets s.document.dom (hit.getD 0 + 1) hit {}
  let focused := { s with focusedNode := found.newFocus }
  let after := (found.fileInput.bind s.nodeIdToU32.lookup).elim focused (focused.applyFileSelection · picked)
  (after, after.dispatch (found.action, found.submit))

def step : PageMove → PageInput × List GestureEvent
  | .tab backward => ({ s with focusedNode := (s.nextFocusTarget backward).or s.focusedNode }, [])
  | .click hit picked => s.clickAt hit picked
  | .request action target =>
    match resolveEgoId s.a11yEpoch (rebuildNodeMappings s.document.dom).u32ToNodeId target, action with
    | none, _ => (s, [])
    | some node, .focus => ({ s with focusedNode := some node }, [])
    | some node, .default => (s, s.dispatch (findClickAndSubmit s.document.dom node))
  | .reload document a11yEpoch => ({ document, a11yEpoch }, [])
  | key => s.keyDown inputMaxBytes key

/-- The state after some moves. -/
def after (moves : List PageMove) : PageInput := moves.foldl (fun s m => (s.step inputMaxBytes m).1) s

end PageInput

/-! ## Bounded texts -/

/-- A text that an input may have. -/
def Typeable (inputMaxBytes : Nat) (text : String) : Prop :=
  text.utf8ByteSize ≤ inputMaxBytes ∧ ∀ c ∈ text.toList, isControl c = false

theorem pushInputText_typeable {inputMaxBytes : Nat} {buf : String} (h : Typeable inputMaxBytes buf) (text : String) :
    Typeable inputMaxBytes (pushInputText inputMaxBytes buf text) := by
  have key (cs : List Char) (hcs : ∀ c ∈ cs, isControl c = false) (buf : String) (h : Typeable inputMaxBytes buf) :
      Typeable inputMaxBytes (pushInputText.go inputMaxBytes cs buf) := by
    induction cs generalizing buf with
    | nil => exact h
    | cons c cs ih =>
      obtain ⟨hc, hcs⟩ := forall_mem_cons.mp hcs
      unfold pushInputText.go
      split
      · exact h
      · rename_i hroom
        refine ih hcs _ ⟨?_, ?_⟩
        · rw [String.utf8ByteSize_push]
          omega
        · rw [String.toList_push]
          simpa [or_imp, forall_and, hc] using h.2
  exact key _ (by simp) buf h

theorem Typeable.dropLast {inputMaxBytes : Nat} {buf : String} (h : Typeable inputMaxBytes buf) :
    Typeable inputMaxBytes (String.ofList buf.toList.dropLast) := by
  refine ⟨le_trans ?_ h.1, fun c hc => h.2 c (dropLast_subset _ (by simpa using hc))⟩
  rcases eq_nil_or_concat buf.toList with hnil | ⟨cs, c, hcs⟩
  · rw [hnil]
    exact Nat.zero_le _
  · conv_rhs => rw [← String.ofList_toList (s := buf), hcs]
    rw [hcs, concat_eq_append, dropLast_concat, String.ofList_append, String.utf8ByteSize_append]
    exact Nat.le_add_right _ _

namespace PageInput

variable {inputMaxBytes : Nat} {s : PageInput}

/-- No input has too long a text, or a control character. -/
def Bounded (inputMaxBytes : Nat) (s : PageInput) : Prop :=
  ∀ id text, s.localInputs.lookup id = some text → Typeable inputMaxBytes text

theorem Bounded.insert (h : s.Bounded inputMaxBytes) {id : UInt32} {text : String} (htext : Typeable inputMaxBytes text) :
    Bounded inputMaxBytes { s with localInputs := s.localInputs.insert id text } := by
  intro id' text' hlookup
  by_cases hid : id' = id <;> grind [Bounded, Finmap.lookup_insert, Finmap.lookup_insert_of_ne]

theorem Bounded.typeable_getD (h : s.Bounded inputMaxBytes) (id : Option UInt32) :
    Typeable inputMaxBytes ((id.bind s.localInputs.lookup).getD "") := by
  cases hbuf : id.bind s.localInputs.lookup with
  | none => exact ⟨Nat.zero_le _, by simp⟩
  | some buf =>
    obtain ⟨id, -, hbuf⟩ := Option.bind_eq_some_iff.mp hbuf
    exact h id buf hbuf

theorem Bounded.typeText (h : s.Bounded inputMaxBytes) (id : UInt32) (text : Option String) :
    (s.typeText inputMaxBytes id text).Bounded inputMaxBytes := by
  cases text with
  | none => exact h
  | some text => exact h.insert (pushInputText_typeable (h.typeable_getD (some id)) text)

theorem Bounded.focusedNodeKey (h : s.Bounded inputMaxBytes) (focus : NodeId) (id : UInt32) (isInput : Bool)
    (key : PageMove) : (s.focusedNodeKey inputMaxBytes focus id isInput key).1.Bounded inputMaxBytes := by
  cases key with
  | backspace =>
    simp only [PageInput.focusedNodeKey]
    split
    · rename_i buf hbuf
      exact h.insert (h id buf hbuf).dropLast
    · exact h
  | space text | key text =>
    cases isInput
    · exact h
    · exact h.typeText id text
  | _ => exact h

theorem keyDown_cases (inputMaxBytes : Nat) (s : PageInput) (key : PageMove) :
    s.keyDown inputMaxBytes key = (s, []) ∨ ∃ focus id isInput,
      s.keyDown inputMaxBytes key = s.focusedNodeKey inputMaxBytes focus id isInput key := by
  unfold keyDown
  cases s.focusedNode with
  | none => exact .inl rfl
  | some focus =>
    dsimp only
    cases s.nodeIdToU32.lookup focus with
    | none => exact .inl rfl
    | some id => exact .inr ⟨focus, id, _, rfl⟩

/-- A click moves the focus and may pick a file. -/
theorem clickAt_kept (s : PageInput) (hit : Option NodeId) (picked : Option (Nat × FileHandleData)) :
    (s.clickAt hit picked).1.localInputs = s.localInputs ∧ (s.clickAt hit picked).1.document = s.document ∧
      (s.clickAt hit picked).1.a11yEpoch = s.a11yEpoch := by
  have key (t : PageInput) (o : Option UInt32) : let u := o.elim t (t.applyFileSelection · picked)
      u.localInputs = t.localInputs ∧ u.document = t.document ∧ u.a11yEpoch = t.a11yEpoch := by
    cases o <;> cases picked <;> exact ⟨rfl, rfl, rfl⟩
  exact key _ _

theorem Bounded.step (h : s.Bounded inputMaxBytes) (m : PageMove) : (s.step inputMaxBytes m).1.Bounded inputMaxBytes := by
  have hkey (key : PageMove) : (s.keyDown inputMaxBytes key).1.Bounded inputMaxBytes := by
    rcases keyDown_cases inputMaxBytes s key with heq | ⟨focus, id, isInput, heq⟩ <;> rw [heq]
    · exact h
    · exact h.focusedNodeKey focus id isInput key
  cases m with
  | escape | backspace | enter | space | key => exact hkey _
  | tab => exact h
  | click hit picked =>
    intro id text hlookup
    exact h id text ((clickAt_kept s hit picked).1 ▸ hlookup)
  | request action target =>
    simp only [PageInput.step]
    split <;> exact h
  | reload =>
    intro id text hlookup
    simp [PageInput.step] at hlookup

theorem Bounded.after (h : s.Bounded inputMaxBytes) (moves : List PageMove) :
    (s.after inputMaxBytes moves).Bounded inputMaxBytes := by
  induction moves generalizing s with
  | nil => exact h
  | cons m moves ih => exact ih (h.step m)

/-! ## What is sent -/

/-- A node of a document with a handler. -/
def Handles (t : Layout.Dom) (event : String) (id : NodeId) : Prop :=
  ∃ node, t.nodes[id]? = some node ∧ event ∈ node.value.events

/-- The nodes that were found have handlers. -/
def Handled (t : Layout.Dom) (found : Option NodeId × Option NodeId) : Prop :=
  (∀ id, found.1 = some id → Handles t "click" id) ∧ ∀ id, found.2 = some id → Handles t "submit" id

theorem handled_none (t : Layout.Dom) : Handled t (none, none) := by
  simp [Handled]

theorem findClickAndSubmit_handled (t : Layout.Dom) (start : NodeId) : Handled t (findClickAndSubmit t start) := by
  have key (fuel : Nat) (id : NodeId) : Handled t (findClickAndSubmit.go t fuel id) := by
    induction fuel generalizing id with
    | zero => exact handled_none t
    | succ fuel ih =>
      unfold findClickAndSubmit.go
      cases hnode : t.nodes[id]? with
      | none => exact handled_none t
      | some node =>
        cases hparent : node.parent with
        | none => grind [Handled, Handles]
        | some parent => grind [Handled, Handles]
  exact key _ _

/-- A click finds the handlers that a key finds. -/
theorem clickTargets_handlers (t : Layout.Dom) (fuel : Nat) (id : NodeId) (found : ClickTargets)
    (haction : found.action = none) (hsubmit : found.submit = none) :
    ((clickTargets t fuel (some id) found).action, (clickTargets t fuel (some id) found).submit) =
      findClickAndSubmit.go t fuel id := by
  induction fuel generalizing id found with
  | zero => simp [clickTargets, findClickAndSubmit.go, haction, hsubmit]
  | succ fuel ih =>
    unfold clickTargets findClickAndSubmit.go
    cases hnode : t.nodes[id]? with
    | none => simp [haction, hsubmit]
    | some node =>
      dsimp only
      -- The focus and the file do not matter to the handlers.
      generalize hfocus : (if node.value.primitive ≠ .input then found
        else if isFileInput node.value then { found with fileInput := some id }
        else { found with newFocus := some id }) = focused
      have hboth : focused.action = none ∧ focused.submit = none := by
        rw [← hfocus]
        split
        · exact ⟨haction, hsubmit⟩
        split <;> exact ⟨haction, hsubmit⟩
      cases hparent : node.parent with
      | none => grind [clickTargets]
      | some parent => grind

theorem clickAt_dispatches (s : PageInput) (hit : Option NodeId) (picked : Option (Nat × FileHandleData)) :
    (s.clickAt hit picked).2 =
      (s.clickAt hit picked).1.dispatch ((hit.map (findClickAndSubmit s.document.dom)).getD (none, none)) := by
  cases hit with
  | none => rfl
  | some id =>
    have hfound := clickTargets_handlers s.document.dom (id + 1) id {} rfl rfl
    rw [Option.map_some, Option.getD_some, findClickAndSubmit, ← hfound]
    rfl

theorem mem_nodesBelow {t : Layout.Dom} {id : NodeId} {p : Layout.MizuNode → Bool} {x : NodeId × Layout.MizuNode}
    (h : x ∈ nodesBelow t id p) : ∃ node, t.nodes[x.1]? = some node ∧ node.value = x.2 ∧ p x.2 := by
  obtain ⟨id, -, h⟩ := mem_filterMap.mp h
  obtain ⟨node, hnode, h⟩ := Option.bind_eq_some_iff.mp h
  split at h
  · obtain rfl := Option.some.inj h
    exact ⟨node, hnode, rfl, ‹_›⟩
  · cases h

theorem findFormSubmitter_handles {member id : NodeId} (h : s.findFormSubmitter member = some id) :
    Handles s.document.dom "submit" id := by
  obtain ⟨form, -, h⟩ := Option.bind_eq_some_iff.mp h
  obtain ⟨x, hx, rfl⟩ := Option.map_eq_some_iff.mp h
  obtain ⟨node, hnode, hvalue, hsubmit⟩ := mem_nodesBelow (mem_of_head? hx)
  exact ⟨node, hnode, by simpa [hvalue] using hsubmit⟩

/-- Whatever a move sends, it sends for nodes with handlers. -/
theorem step_dispatches (inputMaxBytes : Nat) (s : PageInput) (m : PageMove) :
    ∃ found, Handled (s.step inputMaxBytes m).1.document.dom found ∧
      (s.step inputMaxBytes m).2 = (s.step inputMaxBytes m).1.dispatch found := by
  have hnothing (t : PageInput) : ∃ found, Handled t.document.dom found ∧ [] = t.dispatch found :=
    ⟨(none, none), handled_none _, rfl⟩
  have hfound (id : NodeId) : ∃ found, Handled s.document.dom found ∧
      s.dispatch (findClickAndSubmit s.document.dom id) = s.dispatch found :=
    ⟨_, findClickAndSubmit_handled _ id, rfl⟩
  have hkey (key : PageMove) : ∃ found, Handled (s.keyDown inputMaxBytes key).1.document.dom found ∧
      (s.keyDown inputMaxBytes key).2 = (s.keyDown inputMaxBytes key).1.dispatch found := by
    rcases keyDown_cases inputMaxBytes s key with heq | ⟨focus, id, isInput, heq⟩ <;> rw [heq]
    · exact hnothing s
    cases key with
    | enter =>
      cases isInput
      · exact hfound focus
      · exact ⟨(none, s.findFormSubmitter focus), ⟨by simp, fun id => findFormSubmitter_handles⟩, rfl⟩
    | space =>
      cases isInput
      · exact hfound focus
      · exact hnothing _
    | backspace =>
      simp only [focusedNodeKey]
      split <;> exact hnothing _
    | _ => exact hnothing _
  cases m with
  | escape | backspace | enter | space | key => exact hkey _
  | tab | reload => exact hnothing _
  | click hit picked =>
    refine ⟨_, ?_, clickAt_dispatches s hit picked⟩
    rw [show (s.step inputMaxBytes (.click hit picked)).1.document = s.document from (clickAt_kept s hit picked).2.1]
    cases hit with
    | none => exact handled_none _
    | some id => exact findClickAndSubmit_handled _ id
  | request action target =>
    simp only [PageInput.step]
    split
    · exact hnothing _
    · exact hnothing _
    · exact hfound _

/-- A click names a node with a handler; a form has a submitter with a handler, and sends what its inputs hold. -/
def Backed (inputMaxBytes : Nat) (s : PageInput) : GestureEvent → Prop
  | .click id => ∃ node, s.nodeIdToU32.lookup node = some id ∧ Handles s.document.dom "click" node
  | .submitForm id fields => ∃ node form, s.nodeIdToU32.lookup node = some id ∧ Handles s.document.dom "submit" node ∧
      findFormAncestor s.document.dom node = some form ∧ ∀ name value, fields.lookup name = some value →
        ∃ input, (name, input) ∈ s.namedInputs form ∧ value = s.fieldValue input ∧
          ∀ text, value = .string text → Typeable inputMaxBytes text

theorem Bounded.fieldValue (h : s.Bounded inputMaxBytes) {input : NodeId × Layout.MizuNode} {text : String}
    (hvalue : s.fieldValue input = .string text) : Typeable inputMaxBytes text := by
  unfold PageInput.fieldValue at hvalue
  split at hvalue
  · cases hfile : (s.nodeIdToU32.lookup input.1).bind s.localFileSelections.lookup <;> simp [hfile] at hvalue
  · cases hvalue
    exact h.typeable_getD _

theorem Bounded.backed_of_dispatch (h : s.Bounded inputMaxBytes) {found : Option NodeId × Option NodeId}
    (hfound : Handled s.document.dom found) : ∀ event ∈ s.dispatch found, s.Backed inputMaxBytes event := by
  intro event hevent
  rcases mem_append.mp hevent with hevent | hevent
  · obtain ⟨node, hnode, hevent⟩ := mem_flatMap.mp hevent
    obtain ⟨id, hid, rfl⟩ := Option.map_eq_some_iff.mp (Option.mem_toList.mp hevent)
    exact ⟨node, hid, hfound.1 node (Option.mem_toList.mp hnode)⟩
  obtain ⟨node, hnode, hevent⟩ := mem_flatMap.mp hevent
  unfold dispatchFormSubmit at hevent
  split at hevent
  · exact absurd hevent not_mem_nil
  · rename_i id hid
    obtain ⟨fields, hfields, rfl⟩ := Option.map_eq_some_iff.mp (Option.mem_toList.mp hevent)
    obtain ⟨form, hform, rfl⟩ := Option.map_eq_some_iff.mp hfields
    refine ⟨node, form, hid, hfound.2 node (Option.mem_toList.mp hnode), hform, ?_⟩
    -- Every entry of the record was written by one of the rounds.
    induction s.namedInputs form using reverseRecOn with
    | nil => simp
    | append_singleton inputs input ih =>
      intro name value hlookup
      rw [foldl_append, foldl_cons, foldl_nil] at hlookup
      by_cases hname : name = input.1
      · subst hname
        rw [Finmap.lookup_insert] at hlookup
        obtain rfl := Option.some.inj hlookup
        exact ⟨input.2, by simp, rfl, fun text => h.fieldValue⟩
      · rw [Finmap.lookup_insert_of_ne _ hname] at hlookup
        obtain ⟨other, hother, hrest⟩ := ih name value hlookup
        exact ⟨other, mem_append_left _ hother, hrest⟩

/-- Whatever the moves before it, a move sends only clicks on nodes with handlers and forms with what was typed. -/
theorem gestures_handled (inputMaxBytes : Nat) (document : AccessDocument) (a11yEpoch : UInt32) (moves : List PageMove)
    (m : PageMove) :
    let sent := ((PageInput.mk document a11yEpoch none ∅ ∅).after inputMaxBytes moves).step inputMaxBytes m
    sent.2.Forall (sent.1.Backed inputMaxBytes) := by
  have hstart : Bounded inputMaxBytes ⟨document, a11yEpoch, none, ∅, ∅⟩ := by
    intro id text hlookup
    simp at hlookup
  obtain ⟨found, hhandled, hsent⟩ :=
    step_dispatches inputMaxBytes (after inputMaxBytes ⟨document, a11yEpoch, none, ∅, ∅⟩ moves) m
  refine forall_iff_forall_mem.mpr fun event hevent => ?_
  exact ((hstart.after moves).step m).backed_of_dispatch hhandled event (hsent ▸ hevent)

section Paths

variable {node : NodeId}

theorem step_default (hsize : s.document.dom.size < 2 ^ 32) (hnode : node < s.document.dom.size) :
    s.step inputMaxBytes (.request .default (accessId s.a11yEpoch (.ofNat node))) =
      (s, s.dispatch (findClickAndSubmit s.document.dom node)) := by
  have hresolve : resolveEgoId s.a11yEpoch (rebuildNodeMappings s.document.dom).u32ToNodeId
      (accessId s.a11yEpoch (.ofNat node)) = some node := by
    rw [resolveEgoId_accessId (fitsId_ofNat hsize hnode), if_pos rfl, lookup_u32ToNodeId hsize.le,
      toNat_ofNat_node hsize hnode, if_pos hnode]
  simp only [step, hresolve]

theorem keyDown_activates (hfocus : s.focusedNode = some node) (hnode : node < s.document.dom.size)
    (hinput : s.isInput node = false) :
    s.keyDown inputMaxBytes .enter = (s, s.dispatch (findClickAndSubmit s.document.dom node)) ∧
      ∀ text, s.keyDown inputMaxBytes (.space text) = (s, s.dispatch (findClickAndSubmit s.document.dom node)) := by
  have hnumber : s.nodeIdToU32.lookup node = some (.ofNat node) := by
    rw [nodeIdToU32, lookup_nodeIdToU32, if_pos hnode]
  simp [keyDown, hfocus, hnumber, hinput, focusedNodeKey]

end Paths

/-! ## The order of Tab -/

section Order

theorem descendants_perm (t : Layout.Dom) (fuel : Nat) (id : NodeId) : (descendants t fuel id).Perm (postOrder t fuel id) := by
  induction fuel generalizing id with
  | zero => exact .refl _
  | succ fuel ih =>
    rw [descendants, postOrder]
    cases t.nodes[id]? with
    | none => exact .refl _
    | some node =>
      exact ((Perm.flatMap_left _ fun child _ => ih child).cons id).trans (perm_append_singleton ..).symm

/-- A node that the focus can come to. -/
def focusableAt (t : Layout.Dom) (id : NodeId) : Bool := (t.nodes[id]?).any (isFocusable ·.value)

theorem focusableNodesInOrder_eq (s : PageInput) :
    s.focusableNodesInOrder = (descendants s.document.dom s.document.dom.size 0).filter (focusableAt s.document.dom) := by
  rw [focusableNodesInOrder, nodesBelow, map_filterMap, ← filterMap_eq_filter]
  refine filterMap_congr fun id _ => ?_
  cases hnode : s.document.dom.nodes[id]? with
  | none => simp [Option.guard, focusableAt, hnode]
  | some node => by_cases hfocusable : isFocusable node.value <;> simp [Option.guard, focusableAt, hnode, hfocusable]

theorem focusableNodesInOrder_nodup (s : PageInput) : s.focusableNodesInOrder.Nodup := by
  have hnodup := postOrder_nodup s.document.wellFormed.inOrder s.document.wellFormed.size_pos le_rfl
  rw [focusableNodesInOrder_eq]
  exact ((descendants_perm ..).nodup_iff.mpr hnodup).filter _

theorem focus_mem_accessActions (node : Layout.MizuNode) : .focus ∈ accessActions node ↔ isFocusable node := by
  unfold accessActions
  split
  · split <;> simp_all
  · simp_all

/-- The nodes that Tab comes to are those that assistive technology is offered to focus. -/
theorem tab_order_accessible (s : PageInput) (store : VariableStore) :
    (((buildA11yTree s.a11yEpoch s.document.dom s.nodeIdToU32 store s.focusedNode).nodes.filter
      (.focus ∈ ·.2.actions)).map (·.1)).Perm (s.focusableNodesInOrder.map fun id => accessId s.a11yEpoch (.ofNat id)) := by
  have hoffered (id : NodeId) : decide (.focus ∈ (listedNode s.a11yEpoch s.document.dom store id).2.actions) =
      focusableAt s.document.dom id := by
    simp only [listedNode, accessNode, focus_mem_accessActions, focusableAt]
    cases s.document.dom.nodes[id]? with
    | none => rfl
    | some node => exact Bool.decide_eq_true
  rw [buildA11yTree, nodeIdToU32, buildNode_eq s.document.wellFormed.inOrder s.document.wellFormed.size_pos, filter_map,
    map_map, focusableNodesInOrder_eq]
  simp only [Function.comp_def, hoffered]
  exact ((descendants_perm ..).symm.filter _).map _

variable {i : Nat}

theorem nextIndex_eq {length : Nat} (hi : i < length) (backward : Bool) :
    (nextIndex length (some i) backward : Int) = (i + if backward then -1 else 1) % length := by
  cases backward
  · simp [nextIndex]
  · rw [nextIndex, Nat.add_sub_assoc (by omega)]
    push_cast [Nat.cast_sub (show 1 ≤ length by omega)]
    rw [show (i : Int) + (length - 1) = i + -1 + length by ring, Int.add_emod_right]
    rfl

theorem nextIndex_lt {length : Nat} (hi : i < length) (backward : Bool) : nextIndex length (some i) backward < length := by
  cases backward <;> exact Nat.mod_lt _ (by omega)

theorem step_tab (s : PageInput) (hi : i < s.focusableNodesInOrder.length) (backward : Bool) :
    (step inputMaxBytes { s with focusedNode := s.focusableNodesInOrder[i] } (.tab backward)).1 =
      { s with focusedNode := s.focusableNodesInOrder.get ⟨_, nextIndex_lt hi backward⟩ } := by
  have hplace := s.focusableNodesInOrder_nodup.idxOf_getElem i hi
  have horder : focusableNodesInOrder { s with focusedNode := s.focusableNodesInOrder[i] } = s.focusableNodesInOrder := rfl
  simp [step, nextFocusTarget, horder, hplace, nextIndex_lt hi backward]

/-- How many places Tab is ahead of Shift-Tab in a sequence of keys; `true` is Shift-Tab. -/
def displacement (keys : List Bool) : Int := (keys.map fun backward => if backward then -1 else 1).sum

/-- From a node of the order, any sequence of Tab and Shift-Tab leads as many places on as there were more of the one than
of the other. -/
theorem tab_run (inputMaxBytes : Nat) (s : PageInput) (i : Fin s.focusableNodesInOrder.length) (keys : List Bool) :
    (after inputMaxBytes { s with focusedNode := s.focusableNodesInOrder[i] } (keys.map .tab)).focusedNode =
      s.focusableNodesInOrder[((i + displacement keys) % s.focusableNodesInOrder.length).toNat]? := by
  induction keys generalizing i with
  | nil =>
    have hplace : (i : Int) % s.focusableNodesInOrder.length = i := Int.emod_eq_of_lt (by omega) (by omega)
    simp [after, displacement, hplace]
  | cons backward keys ih =>
    refine .trans ?_ ((ih ⟨_, nextIndex_lt i.2 backward⟩).trans ?_)
    · rw [map_cons, after, foldl_cons]
      exact congrArg (fun s => (after inputMaxBytes s _).focusedNode) (step_tab s i.2 backward)
    · rw [nextIndex_eq i.2, Int.emod_add_emod, displacement, displacement, map_cons, sum_cons, add_assoc]

end Order

end PageInput

end Mizu
