import Mizu.Types.Eval.Interpolate

/-!
# The text dependency index

The window keeps, for each global, the nodes whose text is laid out again when the global changes. The index reads
the placeholders of a node's content with `extractPlaceholders`, the layout with `scan`.

* `dependency_index_complete_iff`: every change of a text is indexed exactly if the name before the first dot of
  every placeholder is a placeholder of its own.
* `dotted_path_unindexed`: a dotted path is not.
-/

namespace Mizu

open List

/-- `extract_placeholders`. -/
def extractPlaceholders : List Char → List (List Char)
  | [] => []
  | c :: cs =>
    if c = '\x7b' then
      match _hsplit : splitOnce '\x7d' cs with
      | some (varName, after) => varName :: extractPlaceholders after
      | none => extractPlaceholders cs
    else extractPlaceholders cs
termination_by cs => cs.length
decreasing_by
  · have := congrArg List.length (splitOnce_append _hsplit).1
    rw [List.length_append, List.length_cons] at this
    rw [List.length_cons]
    omega
  · simp
  · simp

/-- An index: the nodes that are listed for a symbol. -/
abbrev NodeIndex := FxHashMap Symbol (List Nat)

namespace NodeIndex

/-- `entry(sym).or_default().push(id)`. -/
def push (index : NodeIndex) (sym : Symbol) (id : Nat) : NodeIndex :=
  index.insert sym ((index.lookup sym).getD [] ++ [id])

def Listed (index : NodeIndex) (sym : Symbol) (id : Nat) : Prop := ∃ ids, index.lookup sym = some ids ∧ id ∈ ids

theorem listed_push {index : NodeIndex} {sym sym' : Symbol} {id id' : Nat} :
    Listed (index.push sym id) sym' id' ↔ Listed index sym' id' ∨ (sym' = sym ∧ id' = id) := by
  unfold Listed push
  by_cases hsym : sym' = sym
  · subst hsym
    rw [Finmap.lookup_insert]
    cases index.lookup sym' <;> simp
  · rw [Finmap.lookup_insert_of_ne _ hsym]
    simp [hsym]

end NodeIndex

/-- The symbols that a content is indexed under. -/
def indexedSymbols (interner : Interner) (content : String) : List Symbol :=
  (extractPlaceholders content.toList).filterMap fun varName => interner.get (String.ofList varName)

/-- Those of a node with these attributes. -/
def nodeSymbols (interner : Interner) (attributes : FxHashMap String String) : List Symbol :=
  match attributes.lookup "content" with
  | some text => indexedSymbols interner text
  | none => []

/-- The index of the nodes of a document, each with its attributes; the id of a node is its position. -/
def rebuildDependencyIndex (interner : Interner) (nodes : List (FxHashMap String String)) : NodeIndex :=
  nodes.zipIdx.foldl (fun index (attributes, id) =>
    (nodeSymbols interner attributes).foldl (fun index sym => index.push sym id) index) ∅

section Index

variable {interner : Interner} {sym : Symbol} {id : Nat}

theorem listed_foldl_push (syms : List Symbol) (index : NodeIndex) (id' : Nat) :
    (syms.foldl (fun index sym => index.push sym id') index).Listed sym id ↔
      index.Listed sym id ∨ (sym ∈ syms ∧ id = id') := by
  induction syms generalizing index with
  | nil => simp
  | cons sym' syms ih =>
    rw [foldl_cons, ih, NodeIndex.listed_push, mem_cons]
    constructor
    · rintro ((h | ⟨hsym, hid⟩) | ⟨hmem, hid⟩)
      · exact .inl h
      · exact .inr ⟨.inl hsym, hid⟩
      · exact .inr ⟨.inr hmem, hid⟩
    · rintro (h | ⟨hsym | hmem, hid⟩)
      · exact .inl (.inl h)
      · exact .inl (.inr ⟨hsym, hid⟩)
      · exact .inr ⟨hmem, hid⟩

theorem mem_nodeSymbols {attributes : FxHashMap String String} : sym ∈ nodeSymbols interner attributes ↔
    ∃ content, attributes.lookup "content" = some content ∧ sym ∈ indexedSymbols interner content := by
  grind [nodeSymbols]

theorem listed_foldl_nodes (entries : List (FxHashMap String String × Nat)) (index : NodeIndex) :
    (entries.foldl (fun index (attributes, id) =>
      (nodeSymbols interner attributes).foldl (fun index sym => index.push sym id) index) index).Listed sym id ↔
      index.Listed sym id ∨ ∃ attributes, (attributes, id) ∈ entries ∧ sym ∈ nodeSymbols interner attributes := by
  induction entries generalizing index with
  | nil => simp
  | cons entry entries ih =>
    obtain ⟨attributes, id'⟩ := entry
    rw [foldl_cons, ih, listed_foldl_push]
    simp only [mem_cons, Prod.mk.injEq]
    constructor
    · grind
    · grind

theorem listed_rebuild {nodes : List (FxHashMap String String)} :
    (rebuildDependencyIndex interner nodes).Listed sym id ↔
      ∃ attributes, nodes[id]? = some attributes ∧ sym ∈ nodeSymbols interner attributes := by
  have hempty : ¬NodeIndex.Listed ∅ sym id := fun ⟨ids, h, _⟩ => nomatch h
  rw [rebuildDependencyIndex, listed_foldl_nodes]
  simp only [hempty, false_or, mem_zipIdx_iff_getElem?]

end Index

/-! ## What a text reads -/

section Reads

variable {s s' : Evaluator} {interner : Interner}

/-- The text of a placeholder is that of the value of its root. -/
theorem placeholder_text_congr {name : List Char}
    (h : s.getValueByName (pathRoot name) interner = s'.getValueByName (pathRoot name) interner) :
    (Segment.placeholder name).text s interner none = (Segment.placeholder name).text s' interner none := by
  rw [Segment.text, Segment.text, findValue, findValue, h]

theorem interpolated_congr {template : List Char}
    (h : ∀ name, .placeholder name ∈ scan template →
      (Segment.placeholder name).text s interner none = (Segment.placeholder name).text s' interner none) :
    interpolated s interner none template = interpolated s' interner none template := by
  unfold interpolated segmentsText
  congr 1
  refine map_congr_left fun seg hseg => ?_
  cases seg with
  | char c => rfl
  | placeholder name => exact h name hseg

theorem interpolate_eq (store : VariableStore) (content : String) : store.interpolate content =
    let text := interpolated store.evaluator store.interner none content.toList
    if maxInterpolatedBytes < text.utf8ByteSize then .error interpolationOverflow else .ok text := by
  have hwrites := @interpolate_writes store.evaluator store.interner none content.toList ""
  rw [String.empty_append] at hwrites
  dsimp only
  unfold VariableStore.interpolate VariableStore.interpolateWith
  split at hwrites
  · grind
  · rename_i hcap
    rw [hwrites, if_neg]
    intro hlt
    refine hcap ⟨fun hempty => ?_, hlt⟩
    rw [hempty] at hlt
    exact absurd hlt (by decide)

theorem utf8ByteSize_le_joinText {t : String} {ts : List String} (h : t ∈ ts) :
    t.utf8ByteSize ≤ (joinText ts).utf8ByteSize := by
  induction ts with
  | nil => cases h
  | cons u ts ih => grind [joinText_cons, String.utf8ByteSize_append]

theorem exists_long (n : Nat) : ∃ t : String, n < t.utf8ByteSize := by
  induction n with
  | zero => exact ⟨"x", by decide⟩
  | succ n ih =>
    obtain ⟨t, ht⟩ := ih
    refine ⟨t ++ "x", ?_⟩
    rw [String.utf8ByteSize_append]
    have : "x".utf8ByteSize = 1 := rfl
    omega

/-- What a name reads: a local or a global that is not null. -/
def Evaluator.seen (s : Evaluator) (sym : Symbol) : Option Value :=
  match s.getLocal sym 0 with
  | some v => some v
  | none => (s.globalStore.lookup sym).filter (!·.isNull)

theorem mem_symbols_of_getLocal {sym : Symbol} {v : Value} (h : s.getLocal sym 0 = some v) :
    sym ∈ s.locals.symbols := by
  by_contra hsym
  have hpositions : ∀ (syms : List Symbol) (i : Nat), sym ∉ syms → positions sym syms i = [] := by
    intro syms
    induction syms with
    | nil => exact fun _ _ => rfl
    | cons sym' syms ih =>
      intro i hmem
      have hne : sym' ≠ sym := fun heq => hmem (heq ▸ mem_cons_self)
      rw [positions, if_neg hne]
      exact ih (i + 1) fun hmem' => hmem (mem_cons_of_mem _ hmem')
  rw [Evaluator.getLocal, Locals.get, s.locals.index_eq, hpositions _ _ hsym] at h
  cases h

theorem exists_globals (f : Symbol → Option Value) (syms : List Symbol) :
    ∃ g : FxHashMap Symbol Value, ∀ sym, g.lookup sym = if sym ∈ syms then f sym else none := by
  induction syms with
  | nil => exact ⟨∅, fun sym => by simp⟩
  | cons sym syms ih =>
    obtain ⟨g, hg⟩ := ih
    cases hf : f sym with
    | none =>
      refine ⟨g.erase sym, fun sym' => ?_⟩
      by_cases hsym : sym' = sym
      · rw [hsym, Finmap.lookup_erase, if_pos mem_cons_self, hf]
      · rw [Finmap.lookup_erase_ne hsym, hg]
        simp [hsym]
    | some v =>
      refine ⟨g.insert sym v, fun sym' => ?_⟩
      by_cases hsym : sym' = sym
      · rw [hsym, Finmap.lookup_insert, if_pos mem_cons_self, hf]
      · rw [Finmap.lookup_insert_of_ne _ hsym, hg]
        simp [hsym]

/-- A null local reads like the text. -/
def unnull (v : Value) : Value := if v.isNull then .string "null" else v

theorem isNull_unnull (v : Value) : (unnull v).isNull = false := by
  cases v <;> rfl

/-- Globals alone show the same texts. -/
theorem exists_global_only (s : Evaluator) (interner : Interner) : ∃ t : Evaluator, t.locals = .empty ∧
    ∀ template, interpolated t interner none template = interpolated s interner none template := by
  obtain ⟨g, hg⟩ := exists_globals (fun sym => (s.seen sym).map unnull)
    (s.locals.symbols ++ s.globalStore.keys.toList)
  refine ⟨{ s with locals := .empty, globalStore := g }, rfl, fun template => interpolated_congr fun name _ => ?_⟩
  have hsupport : ∀ sym, g.lookup sym = (s.seen sym).map unnull := by
    intro sym
    rw [hg]
    split
    · rfl
    · rename_i hsym
      rw [mem_append, not_or] at hsym
      have hlocal : s.getLocal sym 0 = none := by
        rw [← Option.not_isSome_iff_eq_none, Option.isSome_iff_exists]
        exact fun ⟨v, hv⟩ => hsym.1 (mem_symbols_of_getLocal hv)
      have hglobal : s.globalStore.lookup sym = none := by
        grind [Finmap.lookup_eq_none, Finset.mem_toList, Finmap.mem_keys]
      rw [Evaluator.seen, hlocal, hglobal]
      rfl
  have hvalue : ∀ root, Evaluator.getValueByName { s with locals := .empty, globalStore := g } root interner =
      (s.getValueByName root interner).map unnull := by
    intro root
    unfold Evaluator.getValueByName
    cases interner.get root with
    | none => rfl
    | some sym =>
      show (g.lookup sym).filter (!·.isNull) = (s.seen sym).map unnull
      rw [hsupport]
      cases s.seen sym with
      | none => rfl
      | some v => simp [isNull_unnull]
  rw [Segment.text, Segment.text, findValue, findValue, hvalue]
  cases s.getValueByName (pathRoot name) interner with
  | none => rfl
  | some v =>
    by_cases hv : v.isNull
    · cases v <;> cases hv
      cases pathParts name <;> rfl
    · rw [Option.map_some, unnull, if_neg hv]

end Reads

/-! ## Completeness -/

section Complete

variable (interner : Interner)

/-- Two stores that differ in one global at most. -/
structure DifferOnlyAt (sym : Symbol) (store store' : VariableStore) : Prop where
  globals : ∀ sym', sym' ≠ sym →
    store'.evaluator.globalStore.lookup sym' = store.evaluator.globalStore.lookup sym'
  rest : store' = { store with evaluator := { store.evaluator with globalStore := store'.evaluator.globalStore } }

/-- A change of a global that changes the text of a node finds the node in the index. -/
def IndexComplete (nodes : List (FxHashMap String String)) : Prop :=
  ∀ id attributes content, nodes[id]? = some attributes → attributes.lookup "content" = some content →
    ∀ sym store store', store.interner = interner → DifferOnlyAt sym store store' →
      store.interpolate content ≠ store'.interpolate content →
        (rebuildDependencyIndex interner nodes).Listed sym id

/-- Some store shows the content: the cap does not refuse it whatever the globals are. -/
def ShownBySome (content : String) : Prop :=
  ∃ store : VariableStore, store.interner = interner ∧ ∃ text, store.interpolate content = .ok text

/-- The name before the first dot of every placeholder is a placeholder that the index finds. -/
def RootsIndexed (content : String) : Prop :=
  ∀ name, .placeholder name ∈ scan content.toList → ∀ sym, interner.get (pathRoot name) = some sym →
    sym ∈ indexedSymbols interner content

variable {interner} {content : String}

/-- A global that no placeholder starts with is not read. -/
theorem interpolate_congr {sym : Symbol} {store store' : VariableStore}
    (hinterner : store.interner = interner) (h : DifferOnlyAt sym store store')
    (hunread : ∀ name, .placeholder name ∈ scan content.toList → interner.get (pathRoot name) ≠ some sym) :
    store.interpolate content = store'.interpolate content := by
  obtain ⟨hglobals, hrest⟩ := h
  have hlocals : store'.evaluator.locals = store.evaluator.locals := by rw [hrest]
  have hinterner' : store'.interner = interner := by rw [hrest, hinterner]
  have htext : interpolated store.evaluator interner none content.toList =
      interpolated store'.evaluator interner none content.toList := by
    refine interpolated_congr fun name hname => placeholder_text_congr ?_
    unfold Evaluator.getValueByName Evaluator.getLocal
    rw [hlocals]
    cases hget : interner.get (pathRoot name) with
    | none => rfl
    | some sym' =>
      have hne : sym' ≠ sym := fun heq => hunread name hname (heq ▸ hget)
      rw [Option.bind_some, Option.bind_some, hglobals sym' hne]
  rw [interpolate_eq, interpolate_eq, hinterner, hinterner', htext]

/-- One of two different texts is shown. -/
theorem fits_of_ne {store store' : VariableStore} (hinterner : store.interner = interner)
    (hinterner' : store'.interner = interner) (h : store.interpolate content ≠ store'.interpolate content) :
    ShownBySome interner content := by
  by_contra hfits
  have herror : ∀ s : VariableStore, s.interner = interner →
      s.interpolate content = .error interpolationOverflow := by
    intro s hs
    have heq := interpolate_eq s content
    dsimp only at heq
    split at heq
    · exact heq
    · exact absurd ⟨s, hs, _, heq⟩ hfits
  exact h ((herror store hinterner).trans (herror store' hinterner').symm)

/-- The store with another value of a global. -/
def Evaluator.withGlobal (s : Evaluator) (sym : Symbol) (v : Value) : Evaluator :=
  { s with globalStore := s.globalStore.insert sym v }

/-- A placeholder changes the text of some store with its root. -/
theorem exists_change {name : List Char} {sym : Symbol} (hfits : ShownBySome interner content)
    (hname : .placeholder name ∈ scan content.toList) (hsym : interner.get (pathRoot name) = some sym) :
    ∃ store store', store.interner = interner ∧ DifferOnlyAt sym store store' ∧
      store.interpolate content ≠ store'.interpolate content := by
  obtain ⟨store, hinterner, text, htext⟩ := hfits
  obtain ⟨t, hlocals, hsame⟩ := exists_global_only store.evaluator interner
  obtain ⟨long, hlong⟩ := exists_long maxInterpolatedBytes
  obtain ⟨v, hv⟩ := exists_resolveDotPath (.string long) (pathParts name)
  have hshown : (⟨t, interner⟩ : VariableStore).interpolate content = .ok text := by grind [interpolate_eq]
  refine ⟨⟨t, interner⟩, ⟨t.withGlobal sym v, interner⟩, rfl, ⟨fun sym' hne => ?_, rfl⟩, ?_⟩
  · exact Finmap.lookup_insert_of_ne _ hne
  -- With the long text the buffer is full.
  have hnull : v.isNull = false := by
    cases v with
    | null => cases hparts : pathParts name <;> rw [hparts] at hv <;> cases hv
    | _ => rfl
  have hroot : (t.withGlobal sym v).getValueByName (pathRoot name) interner = some v := by
    simp [Evaluator.withGlobal, Evaluator.getValueByName, hsym, Evaluator.getLocal, hlocals, Locals.get, Locals.empty, hnull]
  have hsegment : (Segment.placeholder name).text (t.withGlobal sym v) interner none = long := by
    simp [Segment.text, findValue, hroot, hv, Value.display]
  have hlength : long.utf8ByteSize ≤
      (interpolated (t.withGlobal sym v) interner none content.toList).utf8ByteSize :=
    utf8ByteSize_le_joinText (hsegment ▸ mem_map_of_mem hname)
  rw [hshown, interpolate_eq]
  dsimp only
  rw [if_pos (by omega)]
  simp

/-- The index finds every change exactly if it finds the root of every placeholder that a text reads. -/
theorem dependency_index_complete_iff (interner : Interner) (nodes : List (FxHashMap String String)) :
    IndexComplete interner nodes ↔ ∀ attributes ∈ nodes, ∀ content, attributes.lookup "content" = some content →
      ShownBySome interner content → RootsIndexed interner content := by
  constructor
  · intro h attributes hmem content hcontent hfits name hname sym hsym
    obtain ⟨id, hid⟩ := List.getElem?_of_mem hmem
    obtain ⟨store, store', hinterner, hdiffer, hne⟩ := exists_change hfits hname hsym
    have hlisted := h id attributes content hid hcontent sym store store' hinterner hdiffer hne
    obtain ⟨attributes', hid', hsymbols⟩ := listed_rebuild.mp hlisted
    rw [hid] at hid'
    cases hid'
    obtain ⟨content', hcontent', hsymbols⟩ := mem_nodeSymbols.mp hsymbols
    rw [hcontent] at hcontent'
    cases hcontent'
    exact hsymbols
  · intro h id attributes content hid hcontent sym store store' hinterner hdiffer hne
    have hinterner' : store'.interner = interner := by rw [hdiffer.rest, hinterner]
    have hroots := h attributes (mem_of_getElem? hid) content hcontent (fits_of_ne hinterner hinterner' hne)
    by_contra hlisted
    refine hne (interpolate_congr hinterner hdiffer fun name hname hsym => hlisted ?_)
    exact listed_rebuild.mpr ⟨attributes, hid, mem_nodeSymbols.mpr ⟨content, hcontent, hroots name hname sym hsym⟩⟩

/-- A store whose only global is the record `user`. -/
def userStore (name : String) : VariableStore where
  evaluator :=
    { Evaluator.new 0 with
      globalStore := Finmap.singleton ⟨0⟩ (.record [⟨"name", hashField "name", .string name⟩]) }
  interner := .ofNames ["user"]

/-- A dotted path is not indexed under its root. -/
theorem dotted_path_unindexed :
    (userStore "A").interpolate "\x7buser.name\x7d" = .ok "A" ∧
      (userStore "B").interpolate "\x7buser.name\x7d" = .ok "B" ∧
      ¬∀ interner nodes, IndexComplete interner nodes := by
  have htext : ∀ name ∈ ["A", "B"], (userStore name).interpolate "\x7buser.name\x7d" = .ok name := by
    intro name hname
    have hshown : interpolated (userStore name).evaluator (userStore name).interner none
        "\x7buser.name\x7d".toList = name := by
      simp only [mem_cons, not_mem_nil, or_false] at hname
      rcases hname with rfl | rfl <;> with_unfolding_all decide
    rw [interpolate_eq]
    dsimp only
    rw [hshown, if_neg]
    simp only [mem_cons, not_mem_nil, or_false] at hname
    rcases hname with rfl | rfl <;> decide
  refine ⟨htext "A" (by simp), htext "B" (by simp), fun h => ?_⟩
  have hdiffer : DifferOnlyAt ⟨0⟩ (userStore "A") (userStore "B") := by
    refine ⟨fun sym' hne => ?_, rfl⟩
    have hnone : ∀ name, (userStore name).evaluator.globalStore.lookup sym' = none := fun name =>
      Finmap.lookup_eq_none.mpr (by simpa [userStore] using hne)
    rw [hnone, hnone]
  have hlisted := h (.ofNames ["user"]) [Finmap.singleton "content" "\x7buser.name\x7d"] 0 _
    "\x7buser.name\x7d" rfl (by simp) ⟨0⟩ (userStore "A") (userStore "B") rfl hdiffer (by
      rw [htext "A" (by simp), htext "B" (by simp)]
      decide)
  obtain ⟨attributes, hattributes, hsymbols⟩ := listed_rebuild.mp hlisted
  cases hattributes
  exact absurd hsymbols (by with_unfolding_all decide)

end Complete

end Mizu
