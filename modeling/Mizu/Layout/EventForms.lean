import Mizu.Layout.Append
import Mizu.Layout.Tree

/-!
# Events on a line and below it

An event may stand at the end of a node line or on a line of its own below it. The first form is read with the attributes
of the line, by `parseAction`, the second one by the loop over the lines, with the aliases of the document.

* `eventForms_agree_iff`: when the two forms give the same node or are both refused.
* `eventForms_disagree`: an alias that is not declared.
-/

namespace Mizu

namespace Layout

open Exec List Option

/-! ## Event lines -/

variable {events : FxHashMap String EventTree}

section Event

variable {env : LayoutEnv}

/-- The keyword of an event. -/
def IsEventKeyword (kw : String) : Prop := kw = "click" ∨ kw = "submit"

variable {kw : String}

theorem IsEventKeyword.chars (h : IsEventKeyword kw) :
    kw.toList ≠ [] ∧ (∀ c ∈ kw.toList, isKeyChar c = true) ∧ ∀ c ∈ kw.toList, isWhitespace c = false := by
  have hplain : kw.toList ≠ [] ∧ kw.toList.all isKeyChar = true ∧ kw.toList.any isWhitespace = false := by
    rcases h with rfl | rfl <;> decide
  exact ⟨hplain.1, all_eq_true.mp hplain.2.1, by simpa using hplain.2.2⟩

theorem IsEventKeyword.not_other (h : IsEventKeyword kw) :
    kw ≠ "bind" ∧ kw ≠ "download" ∧ kw ≠ "every" := by
  rcases h with rfl | rfl <;> decide

/-- An event with an arrow, as text. -/
def eventText (kw : String) (r : List Char) : List Char := kw.toList ++ ' ' :: '-' :: '>' :: r

theorem trimStart_eventText (h : IsEventKeyword kw) (r : List Char) :
    trimStart (eventText kw r) = eventText kw r := by
  refine trimStart_of_starts fun c hc => ?_
  rw [eventText, List.head?_append_of_ne_nil _ h.chars.1] at hc
  exact h.chars.2.2 c (mem_of_mem_head? hc)

theorem inlineEvent_arrow_iff (hkw : IsEventKeyword kw) {o : Option EventTree} (r : List Char) :
    inlineEvent env kw (' ' :: '-' :: '>' :: r) = .ok o ↔
      ∃ t, findTrailingLayoutKeyword (trimChars r) = none ∧ env.parseAction (trimChars r) = .ok t ∧
        o = some (eventOf kw t) := by
  have hkw' : kw = "click" ∨ kw = "submit" := hkw
  obtain ⟨hbind, hdownload, -⟩ := hkw.not_other
  have harrow : (!"->".toList.isPrefixOf (trimStart (' ' :: '-' :: '>' :: r))) = false := rfl
  have hdrop : (trimStart (' ' :: '-' :: '>' :: r)).drop 2 = r := rfl
  rw [inlineEvent, if_neg hbind, if_neg hdownload, if_pos hkw', harrow, if_neg (by decide)]
  dsimp only
  rw [hdrop]
  cases findTrailingLayoutKeyword (trimChars r) with
  | some word => exact ⟨nofun, fun ⟨t, hnone, _⟩ => nomatch hnone⟩
  | none =>
    dsimp only
    rw [except_bind_ok_iff]
    constructor
    · rintro ⟨t, hok, h⟩
      exact ⟨t, rfl, hok, (Except.ok.inj h).symm⟩
    · rintro ⟨t, -, hok, rfl⟩
      exact ⟨t, hok, rfl⟩

theorem parseAttributesAndEvents_event_iff (hkw : IsEventKeyword kw) {attrs attrs' : FxHashMap String String}
    (r : List Char) : parseAttributesAndEvents env (eventText kw r) (attrs, ∅) = .ok (attrs', events) ↔
      ∃ t, findTrailingLayoutKeyword (trimChars r) = none ∧ env.parseAction (trimChars r) = .ok t ∧ attrs' = attrs ∧
        events = (∅ : FxHashMap String EventTree).insert kw (eventOf kw t) := by
  obtain ⟨hne, hkeys, -⟩ := hkw.chars
  have hblank : isKeyChar ' ' = false := by decide
  have htake : (eventText kw r).takeWhile isKeyChar = kw.toList := by
    rw [eventText, takeWhile_append_stop hblank, takeWhile_eq_self_iff]
    exact hkeys
  have hdrop : (eventText kw r).dropWhile isKeyChar = ' ' :: '-' :: '>' :: r := by
    rw [eventText, dropWhile_append_stop hblank, dropWhile_eq_nil_iff.mpr hkeys, nil_append]
  have hnonempty : eventText kw r ≠ [] := by
    rw [eventText]
    simp
  rw [parseAttributesAndEvents_step (trimStart_eventText hkw r) hnonempty htake hdrop, if_neg hne,
    String.ofList_toList, except_bind_ok_iff]
  constructor
  · rintro ⟨o, hevent, h⟩
    obtain ⟨t, hnone, hok, rfl⟩ := (inlineEvent_arrow_iff hkw r).mp hevent
    obtain ⟨rfl, rfl⟩ := Prod.mk.inj (Except.ok.inj h)
    exact ⟨t, hnone, hok, rfl, rfl⟩
  · rintro ⟨t, hnone, hok, rfl, rfl⟩
    exact ⟨_, (inlineEvent_arrow_iff hkw r).mpr ⟨t, hnone, hok, rfl⟩, rfl⟩

end Event

/-! ## Node lines -/

variable {p : ParsedLine} {t : ActionTree}

section Line

variable {env : LayoutEnv} {line rest r y : List Char} {lineNum : Nat} {kw : String}

theorem eventText_trimEnd (h : IsEventKeyword kw) (r : List Char) : Trimmed (eventText kw (trimEnd r)) where
  ne_nil := by simp [eventText]
  starts := by
    rw [eventText, List.head?_append_of_ne_nil _ h.chars.1]
    exact fun c hc => h.chars.2.2 c (mem_of_mem_head? hc)
  ends := by
    intro c hc
    have happend : eventText kw (trimEnd r) = (kw.toList ++ [' ', '-', '>']) ++ trimEnd r := by simp [eventText]
    rw [happend] at hc
    by_cases hr : trimEnd r = []
    · rw [hr, append_nil, List.getLast?_append_of_ne_nil _ (cons_ne_nil _ _)] at hc
      obtain rfl := some.inj hc
      decide
    · rw [List.getLast?_append_of_ne_nil _ hr] at hc
      exact trimEnd_ends r c hc

/-- Blanks at the end of an event line do not matter. -/
theorem eventText_split (kw : String) (r : List Char) :
    ∃ ws, eventText kw r = eventText kw (trimEnd r) ++ ws ∧ ∀ c ∈ ws, isWhitespace c = true := by
  obtain ⟨ws, hr, hws⟩ := trimEnd_split r
  refine ⟨ws, ?_, hws⟩
  have hevent : eventText kw r = eventText kw (trimEnd r ++ ws) := congrArg (eventText kw) hr
  rw [hevent]
  simp [eventText]

theorem trimChars_eventText (h : IsEventKeyword kw) (hline : Trimmed line) (r : List Char) :
    trimChars (line ++ ' ' :: eventText kw r) = line ++ ' ' :: eventText kw (trimEnd r) := by
  obtain ⟨ws, hsplit, hws⟩ := eventText_split kw r
  have htrimmed := hline.append (eventText_trimEnd h r)
  rw [hsplit, ← cons_append, ← append_assoc]
  exact trimChars_append_blank htrimmed.starts htrimmed.ends htrimmed.ne_nil hws

theorem splitWhitespace_eventText (h : IsEventKeyword kw) (r : List Char) :
    splitWhitespace (String.ofList (eventText kw r)) ≠ [] := by
  have hblank : isWhitespace ' ' = true := by decide
  obtain ⟨hne, -, hword⟩ := h.chars
  have hfilter : (!kw.toList.isEmpty) = true := by simpa using hne
  simp only [splitWhitespace, String.toList_ofList, eventText]
  rw [splitOnP_append_cons_of_forall_mem hword ' ' hblank, filter_cons, if_pos hfilter]
  simp

theorem parseEach_append (h : IsEventKeyword kw) {node : MizuNode}
    (heach : parseEach (String.ofList rest) lineNum = .ok node) (r : List Char) :
    ∀ node', parseEach (String.ofList (rest ++ ' ' :: eventText kw r)) lineNum ≠ .ok node' := by
  intro node' hnode
  unfold parseEach at heach hnode
  rw [splitWhitespace_append] at hnode
  have hmore := splitWhitespace_eventText h r
  split at heach
  · rename_i hwords
    rw [hwords] at hnode
    cases hevent : splitWhitespace (String.ofList (eventText kw r)) with
    | nil => exact hmore hevent
    | cons word words =>
      rw [hevent] at hnode
      cases hnode
  · cases heach

theorem quotes_append (hrest : rest ≠ []) (y : List Char) :
    "\"\"\"".toList.isPrefixOf (rest ++ ' ' :: y) = "\"\"\"".toList.isPrefixOf rest := by
  match rest with
  | [] => exact absurd rfl hrest
  | [c] =>
    show ('"' == c && ('"' == ' ' && _)) = ('"' == c && false)
    rfl
  | [c, d] =>
    show ('"' == c && ('"' == d && ('"' == ' ' && _))) = ('"' == c && ('"' == d && false))
    rfl
  | c :: d :: e :: rest => rfl

theorem atLine_ok_iff {α : Type} {x : Except MizuError α} {a : α} : atLine lineNum x = .ok a ↔ x = .ok a := by
  cases x with
  | error e => exact ⟨nofun, nofun⟩
  | ok b => exact Iff.rfl

variable {primitive : Primitive} {inlineText : Option String}

/-- An inline text is read before what stands behind it. -/
theorem parseInlineText_append (h : IsEventKeyword kw)
    {attrsStr : List Char} (htext : parseInlineText primitive rest lineNum = .ok (false, inlineText, attrsStr))
    (r : List Char) :
    ∃ attrsStr', parseInlineText primitive (behind rest (eventText kw r)) lineNum = .ok (false, inlineText, attrsStr') ∧
      trimStart attrsStr' = trimStart (attrsStr ++ ' ' :: eventText kw r) := by
  unfold parseInlineText at htext ⊢
  split at htext
  · cases htext
  · rename_i hmarkdown
    by_cases hrest : rest = []
    · subst hrest
      cases htext
      have hquotes : ¬(primitive = .markdown ∧ "\"\"\"".toList.isPrefixOf (eventText kw r) = true) := by
        rintro ⟨-, hprefix⟩
        rcases h with rfl | rfl <;> cases hprefix
      have hquote : (eventText kw r).head? ≠ some '"' := by
        rcases h with rfl | rfl <;> nofun
      rw [behind, if_pos rfl, if_neg hquotes, if_neg hquote]
      exact ⟨_, rfl, rfl⟩
    · rw [behind, if_neg hrest, quotes_append hrest, if_neg hmarkdown, List.head?_append_of_ne_nil _ hrest]
      split at htext
      · rename_i hquote
        obtain ⟨⟨text, after⟩, hquoted, htext⟩ := except_bind_ok_iff.mp htext
        cases htext
        obtain ⟨after', hquoted', hafter⟩ := parseQuotedString_append (atLine_ok_iff.mp hquoted) (eventText kw r)
        rw [if_pos hquote, hquoted']
        exact ⟨_, rfl, congrArg trimStart hafter⟩
      · rename_i hquote
        cases htext
        rw [if_neg hquote]
        exact ⟨_, rfl, rfl⟩

/-- A markdown block takes what stands behind its quotes. -/
theorem parseInlineText_markdown {attrsStr : List Char}
    (htext : parseInlineText primitive rest lineNum = .ok (true, inlineText, attrsStr)) (y : List Char) :
    parseInlineText primitive (behind rest y) lineNum = .ok (true, inlineText, attrsStr) := by
  unfold parseInlineText at htext ⊢
  split at htext
  · rename_i hmarkdown
    have hrest : rest ≠ [] := by
      rintro rfl
      cases hmarkdown.2
    rw [behind, if_neg hrest, quotes_append hrest, if_pos hmarkdown]
    exact htext
  · split at htext
    · obtain ⟨⟨text, after⟩, -, htext⟩ := except_bind_ok_iff.mp htext
      cases htext
    · cases htext

def ParsedLine.withEvents (p : ParsedLine) (events : FxHashMap String EventTree) : ParsedLine :=
  { p with node := { p.node with events } }

variable {attributes : FxHashMap String String}

theorem finishLine_fields {primLower : String} {isMarkdown : Bool}
    (h : finishLine primitive primLower lineNum isMarkdown inlineText attributes events = .ok p) :
    p.isMarkdown = isMarkdown ∧ p.node.primitive = primitive ∧ p.node.events = events := by
  unfold finishLine at h
  dsimp only at h
  generalize (if primitive = .heading then attributes.insert "level" (String.ofList primLower.toList.tail)
    else attributes) = attributes at h
  split at h
  · cases h
  · split at h
    · cases h
      exact ⟨rfl, rfl, rfl⟩
    · split at h
      · cases h
      · cases h
        exact ⟨rfl, rfl, rfl⟩

theorem finishLine_ok_iff {primLower : String} {isMarkdown : Bool} {p q : ParsedLine}
    {events events' : FxHashMap String EventTree}
    (h : finishLine primitive primLower lineNum isMarkdown inlineText attributes events = .ok p) :
    finishLine primitive primLower lineNum isMarkdown inlineText attributes events' = .ok q ↔
      q = p.withEvents events' := by
  unfold finishLine at h ⊢
  dsimp only at h ⊢
  generalize (if primitive = .heading then attributes.insert "level" (String.ofList primLower.toList.tail)
    else attributes) = attributes at h ⊢
  split at h
  · cases h
  · rename_i htitle
    rw [if_neg htitle]
    split at h
    · rename_i hprimitive
      rw [if_pos hprimitive]
      cases h
      exact ⟨fun hq => (Except.ok.inj hq).symm, fun hq => congrArg Except.ok hq.symm⟩
    · rename_i hprimitive
      rw [if_neg hprimitive]
      split at h
      · cases h
      · rename_i hdoc
        rw [if_neg hdoc]
        cases h
        exact ⟨fun hq => (Except.ok.inj hq).symm, fun hq => congrArg Except.ok hq.symm⟩

theorem parsePrimitiveAndAttrs_of_name {content word rest : List Char}
    (hword : splitFirstWord content = (word, rest))
    (hname : Primitive.ofName (env.table.toLowercase (String.ofList word)) = some primitive) :
    parsePrimitiveAndAttrs env content lineNum = (do
      let (isMarkdown, inlineText, attrsStr) ← parseInlineText primitive rest lineNum
      let (attributes, events) ← atLine lineNum (parseAttributesAndEvents env attrsStr (∅, ∅))
      finishLine primitive (env.table.toLowercase (String.ofList word)) lineNum isMarkdown inlineText attributes events) := by
  have heach : env.table.toLowercase (String.ofList word) ≠ "each" := by
    intro heq
    rw [heq] at hname
    cases hname
  have hwindow : env.table.toLowercase (String.ofList word) ≠ "window" := by
    intro heq
    rw [heq] at hname
    cases hname
  unfold parsePrimitiveAndAttrs
  rw [hword]
  dsimp only
  rw [if_neg heach, if_neg hwindow, hname]

/-! ## The two forms -/

/-- A line of a node without an event of its own. -/
structure NodeLine (env : LayoutEnv) (lineNum : Nat) (line : List Char) (p : ParsedLine) : Prop where
  trimmed : Trimmed line
  parsed : parsePrimitiveAndAttrs env line lineNum = .ok p
  noEvent : p.node.events = ∅

/-- The node of a line with the event on it. -/
def inlineForm (env : LayoutEnv) (lineNum : Nat) (line : List Char) (kw : String) (r : List Char) : Option ParsedLine :=
  (parsePrimitiveAndAttrs env (trimChars (line ++ ' ' :: eventText kw r)) lineNum).toOption

/-- The node of a line with the event on a line below it. -/
def childForm (env : LayoutEnv) (lineNum eventLine : Nat) (line : List Char) (kw : String) (r : List Char) :
    Option ParsedLine :=
  match parsePrimitiveAndAttrs env line lineNum, readItem env eventLine (eventText kw r) [] with
  | .ok p, .ok (item, _) => some { p with node := item.attach p.node }
  | _, _ => none

variable {eventLine : Nat}

theorem readItem_event_iff (h : IsEventKeyword kw) (r : List Char) {o : Item × List NumberedLine} :
    readItem env eventLine (eventText kw r) [] = .ok o ↔
      ∃ t, env.parseActionWithUrls (trimChars r) = .ok t ∧ o = (.event kw (eventOf kw t), []) := by
  have htrimmed := eventText_trimEnd h r
  have htrim : trimChars (eventText kw r) = eventText kw (trimEnd r) := by
    obtain ⟨ws, hsplit, hws⟩ := eventText_split kw r
    rw [hsplit]
    exact trimChars_append_blank htrimmed.starts htrimmed.ends htrimmed.ne_nil hws
  obtain ⟨hne, -, hword⟩ := h.chars
  have hkw : Trimmed kw.toList :=
    ⟨hne, fun c hc => hword c (mem_of_mem_head? hc), fun c hc => hword c (mem_of_getLast? hc)⟩
  have harrow : Trimmed ('-' :: '>' :: trimEnd r) := by
    refine ⟨cons_ne_nil _ _, ?_, fun c hc => htrimmed.ends c ?_⟩
    · rintro c hc
      obtain rfl := some.inj hc
      rfl
    · grind [eventText]
  have hsingle : splitFirstWord kw.toList = (kw.toList, []) := by
    have hdrop : (kw.toList.dropWhile fun c => !isWhitespace c) = [] :=
      dropWhile_eq_nil_iff.mpr fun c hc => by rw [hword c hc]; rfl
    unfold splitFirstWord
    dsimp only
    rw [hkw.trimChars, hdrop]
  have hwords : splitFirstWord (eventText kw (trimEnd r)) = (kw.toList, '-' :: '>' :: trimEnd r) := by
    rw [eventText, splitFirstWord_append hkw harrow, hsingle]
    rfl
  obtain ⟨hbind, hdownload, hevery⟩ := h.not_other
  have hkeyword : kw = "click" ∨ kw = "submit" := h
  have hsplit : splitOnText "->".toList ('-' :: '>' :: trimEnd r) = some ([], trimEnd r) := rfl
  unfold readItem
  rw [htrim, hwords]
  dsimp only
  rw [String.ofList_toList, if_neg hbind, if_neg hdownload, if_neg hevery, if_pos hkeyword, readEvent, hsplit]
  dsimp only
  rw [trimChars_trimEnd]
  by_cases hnil : trimChars r = []
  · rw [if_pos hnil, hnil]
    refine ⟨nofun, ?_⟩
    rintro ⟨t, hok, -⟩
    unfold LayoutEnv.parseActionWithUrls at hok
    cases hok
  · rw [if_neg hnil]
    cases env.parseActionWithUrls (trimChars r) with
    | error e => exact ⟨nofun, fun ⟨t, hok, _⟩ => nomatch hok⟩
    | ok t =>
      constructor
      · intro hok
        exact ⟨t, rfl, (Except.ok.inj hok).symm⟩
      · rintro ⟨t', hok, rfl⟩
        obtain rfl := Except.ok.inj hok
        rfl

theorem readItem_event_error (eventLine : Nat) (h : IsEventKeyword kw) {r : List Char}
    (hnone : ∀ t, env.parseActionWithUrls (trimChars r) ≠ .ok t) :
    ∃ e, readItem env eventLine (eventText kw r) [] = .error e := by
  cases hread : readItem env eventLine (eventText kw r) [] with
  | error e => exact ⟨e, rfl⟩
  | ok o => grind [readItem_event_iff]

theorem NodeLine.childForm_of_ok (hline : NodeLine env lineNum line p)
    (h : IsEventKeyword kw) (hok : env.parseActionWithUrls (trimChars r) = .ok t) :
    childForm env lineNum eventLine line kw r =
      some (p.withEvents ((∅ : FxHashMap String EventTree).insert kw (eventOf kw t))) := by
  rw [childForm, hline.parsed, (readItem_event_iff h r).mpr ⟨t, hok, rfl⟩]
  simp only [Item.attach, hline.noEvent, ParsedLine.withEvents]

theorem NodeLine.childForm_of_error (hline : NodeLine env lineNum line p)
    (h : IsEventKeyword kw) (hnone : ∀ t, env.parseActionWithUrls (trimChars r) ≠ .ok t) :
    childForm env lineNum eventLine line kw r = none := by
  obtain ⟨e, hread⟩ := readItem_event_error eventLine h hnone
  rw [childForm, hline.parsed, hread]

theorem parseEach_primitive {s : String} {node : MizuNode} (h : parseEach s lineNum = .ok node) :
    node.primitive = .each ∧ s ≠ "" := by
  unfold parseEach at h
  split at h
  · rename_i hwords
    cases h
    refine ⟨rfl, ?_⟩
    rintro rfl
    cases hwords
  · cases h

theorem ofName_ne_each {name : String} (h : Primitive.ofName name = some primitive) :
    primitive ≠ .each := by
  rintro rfl
  unfold Primitive.ofName at h
  split at h <;> cases h

/-- A line is an `each` line, or it has a primitive and attributes. -/
theorem parsePrimitiveAndAttrs_cases {content word rest : List Char}
    (hword : splitFirstWord content = (word, rest)) (h : parsePrimitiveAndAttrs env content lineNum = .ok p) :
    (env.table.toLowercase (String.ofList word) = "each" ∧
      ∃ node, parseEach (String.ofList rest) lineNum = .ok node ∧ p = ⟨node, false, none⟩) ∨
    ∃ primitive, Primitive.ofName (env.table.toLowercase (String.ofList word)) = some primitive := by
  unfold parsePrimitiveAndAttrs at h
  rw [hword] at h
  dsimp only at h
  split at h
  · rename_i heach
    obtain ⟨node, hnode, h⟩ := except_bind_ok_iff.mp h
    exact .inl ⟨heach, node, hnode, (Except.ok.inj h).symm⟩
  · split at h
    · cases h
    · split at h
      · cases h
      · rename_i primitive hname
        exact .inr ⟨primitive, hname⟩

theorem NodeLine.inline_ok_iff {p q : ParsedLine} (hline : NodeLine env lineNum line p) (h : IsEventKeyword kw)
    (hmarkdown : p.isMarkdown = false) (heach : p.node.primitive ≠ .each) (r : List Char) :
    parsePrimitiveAndAttrs env (trimChars (line ++ ' ' :: eventText kw r)) lineNum = .ok q ↔
      ∃ t, findTrailingLayoutKeyword (trimChars r) = none ∧ env.parseAction (trimChars r) = .ok t ∧
        q = p.withEvents ((∅ : FxHashMap String EventTree).insert kw (eventOf kw t)) := by
  rw [trimChars_eventText h hline.trimmed]
  have hsplit := splitFirstWord_append hline.trimmed (eventText_trimEnd h r)
  cases hword : splitFirstWord line with
  | mk word rest =>
    rw [hword] at hsplit
    rcases parsePrimitiveAndAttrs_cases hword hline.parsed with ⟨-, node, hnode, hp⟩ | ⟨primitive, hname⟩
    · rw [hp] at heach
      exact absurd (parseEach_primitive hnode).1 heach
    · have hparsed := hline.parsed
      rw [parsePrimitiveAndAttrs_of_name hword hname] at hparsed
      obtain ⟨⟨isMarkdown, inlineText, attrsStr⟩, htext, hparsed⟩ := except_bind_ok_iff.mp hparsed
      obtain ⟨⟨attributes, events⟩, hattributes, hfinish⟩ := except_bind_ok_iff.mp hparsed
      obtain ⟨hp, -, hevents⟩ := finishLine_fields hfinish
      obtain rfl : isMarkdown = false := hp.symm.trans hmarkdown
      obtain rfl : events = ∅ := hevents.symm.trans hline.noEvent
      obtain ⟨attrsStr', htext', htrim⟩ := parseInlineText_append h htext (trimEnd r)
      have happend : parseAttributesAndEvents env attrsStr' (∅, ∅) =
          parseAttributesAndEvents env (eventText kw (trimEnd r)) (attributes, ∅) := by
        rw [parseAttributesAndEvents_congr htrim]
        exact parseAttributesAndEvents_append (atLine_ok_iff.mp hattributes) _
      rw [parsePrimitiveAndAttrs_of_name hsplit hname, htext']
      show (atLine lineNum (parseAttributesAndEvents env attrsStr' (∅, ∅)) >>= _) = _ ↔ _
      rw [happend, except_bind_ok_iff]
      constructor
      · grind [trimChars_trimEnd, parseAttributesAndEvents_event_iff, atLine_ok_iff, finishLine_ok_iff]
      · rintro ⟨t, hnone, hok, rfl⟩
        refine ⟨(attributes, (∅ : FxHashMap String EventTree).insert kw (eventOf kw t)), ?_, ?_⟩
        · grind [trimChars_trimEnd, atLine_ok_iff, parseAttributesAndEvents_event_iff]
        · exact (finishLine_ok_iff hfinish).mpr rfl

theorem NodeLine.inline_each (hline : NodeLine env lineNum line p) (h : IsEventKeyword kw)
    (heach : p.node.primitive = .each) (r : List Char) (q : ParsedLine) :
    parsePrimitiveAndAttrs env (trimChars (line ++ ' ' :: eventText kw r)) lineNum ≠ .ok q := by
  intro hq
  rw [trimChars_eventText h hline.trimmed] at hq
  have hsplit := splitFirstWord_append hline.trimmed (eventText_trimEnd h r)
  cases hword : splitFirstWord line with
  | mk word rest =>
    rw [hword] at hsplit
    rcases parsePrimitiveAndAttrs_cases hword hline.parsed with ⟨hlower, node, hnode, -⟩ | ⟨primitive, hname⟩
    · have hrest : rest ≠ [] := by
        rintro rfl
        exact (parseEach_primitive hnode).2 rfl
      rcases parsePrimitiveAndAttrs_cases hsplit hq with ⟨-, node', hnode', -⟩ | ⟨primitive, hname⟩
      · dsimp only at hnode'
        rw [behind, if_neg hrest] at hnode'
        exact parseEach_append h hnode _ node' hnode'
      · rw [hlower] at hname
        cases hname
    · have hparsed := hline.parsed
      rw [parsePrimitiveAndAttrs_of_name hword hname] at hparsed
      obtain ⟨⟨isMarkdown, inlineText, attrsStr⟩, -, hparsed⟩ := except_bind_ok_iff.mp hparsed
      obtain ⟨⟨attributes, events⟩, -, hfinish⟩ := except_bind_ok_iff.mp hparsed
      exact ofName_ne_each hname ((finishLine_fields hfinish).2.1.symm.trans heach)

/-- A line that opens a markdown block takes no event. -/
theorem NodeLine.inline_markdown (hline : NodeLine env lineNum line p) (h : IsEventKeyword kw)
    (hmarkdown : p.isMarkdown = true) (r : List Char) :
    parsePrimitiveAndAttrs env (trimChars (line ++ ' ' :: eventText kw r)) lineNum = .ok p := by
  rw [trimChars_eventText h hline.trimmed]
  have hsplit := splitFirstWord_append hline.trimmed (eventText_trimEnd h r)
  cases hword : splitFirstWord line with
  | mk word rest =>
    rw [hword] at hsplit
    rcases parsePrimitiveAndAttrs_cases hword hline.parsed with ⟨-, node, -, hp⟩ | ⟨primitive, hname⟩
    · rw [hp] at hmarkdown
      cases hmarkdown
    · have hparsed := hline.parsed
      rw [parsePrimitiveAndAttrs_of_name hword hname] at hparsed
      obtain ⟨⟨isMarkdown, inlineText, attrsStr⟩, htext, hparsed⟩ := except_bind_ok_iff.mp hparsed
      obtain ⟨⟨attributes, events⟩, hattributes, hfinish⟩ := except_bind_ok_iff.mp hparsed
      obtain rfl : isMarkdown = true := (finishLine_fields hfinish).1.symm.trans hmarkdown
      rw [parsePrimitiveAndAttrs_of_name hsplit hname]
      dsimp only
      rw [parseInlineText_markdown htext]
      exact hparsed

end Line

/-! ## When they agree -/

section Forms

variable {env : LayoutEnv} {lineNum : Nat} {line r : List Char} {kw : String}

/-- The alias of an action is declared as it is used, if the document has a block of aliases. -/
def DeclaredAs (env : LayoutEnv) (action : List Char) (t : ActionTree) : Prop :=
  ∀ urls, env.urls = some urls → ∀ aliasName kind, checkedAlias action t = some (aliasName, kind) →
    (urls aliasName).map (·.kind) = some kind

theorem parseActionWithUrls_ok_iff {action : List Char} :
    env.parseActionWithUrls action = .ok t ↔ env.parseAction action = .ok t ∧ DeclaredAs env action t := by
  unfold LayoutEnv.parseActionWithUrls LayoutEnv.parseAction DeclaredAs
  cases env.urls with
  | none => exact ⟨fun h => ⟨h, nofun⟩, And.left⟩
  | some urls =>
    have hiff := parseActionWithUrls_registry_iff { env.parse with headerName := env.headerName, registry := none }
      (fun name => (urls name).map (·.kind)) action t
    refine hiff.trans (and_congr_right fun _ => ⟨?_, fun h => h urls rfl⟩)
    rintro h urls' heq
    obtain rfl := some.inj heq
    exact h

theorem NodeLine.inlineForm_of_ok (hline : NodeLine env lineNum line p)
    (h : IsEventKeyword kw) (hmarkdown : p.isMarkdown = false) (heach : p.node.primitive ≠ .each)
    (hnone : findTrailingLayoutKeyword (trimChars r) = none) (hok : env.parseAction (trimChars r) = .ok t) :
    inlineForm env lineNum line kw r =
      some (p.withEvents ((∅ : FxHashMap String EventTree).insert kw (eventOf kw t))) := by
  rw [inlineForm, (hline.inline_ok_iff h hmarkdown heach r).mpr ⟨t, hnone, hok, rfl⟩]
  rfl

theorem NodeLine.inlineForm_of_error (hline : NodeLine env lineNum line p) (h : IsEventKeyword kw)
    (hmarkdown : p.isMarkdown = false)
    (hrefused : p.node.primitive ≠ .each → findTrailingLayoutKeyword (trimChars r) = none →
      ∀ t, env.parseAction (trimChars r) ≠ .ok t) : inlineForm env lineNum line kw r = none := by
  rw [inlineForm]
  cases hparse : parsePrimitiveAndAttrs env (trimChars (line ++ ' ' :: eventText kw r)) lineNum with
  | error e => rfl
  | ok q =>
    by_cases heach : p.node.primitive = .each
    · exact absurd hparse (hline.inline_each h heach r q)
    · obtain ⟨t, hnone, hok, -⟩ := (hline.inline_ok_iff h hmarkdown heach r).mp hparse
      exact absurd hok (hrefused heach hnone t)

theorem withEvents_ne (h : p.node.events = ∅) (event : EventTree) :
    some p ≠ some (p.withEvents ((∅ : FxHashMap String EventTree).insert kw event)) := by
  intro heq
  have hevents := congrArg (·.node.events) (some.inj heq)
  exact insert_ne_empty ∅ kw event (hevents.symm.trans h)

/-- The two forms of an event give the same node, or are both refused, exactly if the line opens no markdown block, and
the alias of the action is declared if and only if the line is no `each` line and the action has no attribute keyword
among its words. -/
theorem eventForms_agree_iff (env : LayoutEnv) (lineNum eventLine : Nat) (line : List Char) (kw : String) (r : List Char)
    (p : ParsedLine) (hline : NodeLine env lineNum line p) (hkw : IsEventKeyword kw) :
    inlineForm env lineNum line kw r = childForm env lineNum eventLine line kw r ↔
      p.isMarkdown = false ∧ ∀ t, env.parseAction (trimChars r) = .ok t →
        (DeclaredAs env (trimChars r) t ↔
          p.node.primitive ≠ .each ∧ findTrailingLayoutKeyword (trimChars r) = none) := by
  cases hmarkdown : p.isMarkdown with
  | true =>
    refine ⟨fun h => ?_, fun h => nomatch h.1⟩
    rw [inlineForm, hline.inline_markdown hkw hmarkdown r] at h
    by_cases hok : ∃ t, env.parseActionWithUrls (trimChars r) = .ok t
    · obtain ⟨t, hok⟩ := hok
      rw [hline.childForm_of_ok hkw hok] at h
      exact absurd h (withEvents_ne hline.noEvent _)
    · rw [hline.childForm_of_error hkw fun t ht => hok ⟨t, ht⟩] at h
      cases h
  | false =>
    rw [and_iff_right rfl]
    by_cases hok : ∃ t, env.parseAction (trimChars r) = .ok t
    · obtain ⟨t, hok⟩ := hok
      have hunique : ∀ t', env.parseAction (trimChars r) = .ok t' → t' = t := fun t' hok' =>
        Except.ok.inj (hok'.symm.trans hok)
      have hnot : ¬DeclaredAs env (trimChars r) t → ∀ t', env.parseActionWithUrls (trimChars r) ≠ .ok t' := by
        intro hdeclared t' hok'
        obtain ⟨hok', hdeclared'⟩ := parseActionWithUrls_ok_iff.mp hok'
        exact hdeclared (hunique t' hok' ▸ hdeclared')
      have hall : (∀ t', env.parseAction (trimChars r) = .ok t' → (DeclaredAs env (trimChars r) t' ↔
          p.node.primitive ≠ .each ∧ findTrailingLayoutKeyword (trimChars r) = none)) ↔
          (DeclaredAs env (trimChars r) t ↔
            p.node.primitive ≠ .each ∧ findTrailingLayoutKeyword (trimChars r) = none) :=
        ⟨fun h => h t hok, fun h t' hok' => hunique t' hok' ▸ h⟩
      rw [hall]
      by_cases hdeclared : DeclaredAs env (trimChars r) t
      · rw [hline.childForm_of_ok hkw (parseActionWithUrls_ok_iff.mpr ⟨hok, hdeclared⟩)]
        by_cases hallowed : p.node.primitive ≠ .each ∧ findTrailingLayoutKeyword (trimChars r) = none
        · rw [hline.inlineForm_of_ok hkw hmarkdown hallowed.1 hallowed.2 hok]
          exact ⟨fun _ => ⟨fun _ => hallowed, fun _ => hdeclared⟩, fun _ => rfl⟩
        · rw [hline.inlineForm_of_error hkw hmarkdown fun heach hnone => absurd ⟨heach, hnone⟩ hallowed]
          exact ⟨nofun, fun h => absurd (h.mp hdeclared) hallowed⟩
      · rw [hline.childForm_of_error hkw (hnot hdeclared)]
        by_cases hallowed : p.node.primitive ≠ .each ∧ findTrailingLayoutKeyword (trimChars r) = none
        · rw [hline.inlineForm_of_ok hkw hmarkdown hallowed.1 hallowed.2 hok]
          exact ⟨nofun, fun h => absurd (h.mpr hallowed) hdeclared⟩
        · rw [hline.inlineForm_of_error hkw hmarkdown fun heach hnone => absurd ⟨heach, hnone⟩ hallowed]
          exact ⟨fun _ => ⟨fun h => absurd h hdeclared, fun h => absurd h hallowed⟩, fun _ => rfl⟩
    · have hnone : ∀ t, env.parseAction (trimChars r) ≠ .ok t := fun t ht => hok ⟨t, ht⟩
      rw [hline.inlineForm_of_error hkw hmarkdown fun _ _ => hnone,
        hline.childForm_of_error hkw fun t ht => hnone t (parseActionWithUrls_ok_iff.mp ht).1]
      exact ⟨fun _ t ht => absurd ht (hnone t), fun _ => rfl⟩

end Forms

theorem box_nodeLine (env : LayoutEnv) (henv : env.table = latinTable) (lineNum : Nat) :
    NodeLine env lineNum ['b', 'o', 'x'] ⟨{ primitive := .box }, false, none⟩ where
  trimmed := by
    refine ⟨cons_ne_nil _ _, ?_, ?_⟩
    · intro c hc
      obtain rfl := some.inj hc
      rfl
    · intro c hc
      obtain rfl := some.inj hc
      rfl
  parsed := parsePrimitiveAndAttrs_word lineNum rfl (by rw [henv]; rfl) (.inr rfl)
  noEvent := rfl

/-- `click -> x` on a box and below it. -/
theorem eventForms_agree_x :
    inlineForm bareLayout 2 ['b', 'o', 'x'] "click" [' ', 'x'] =
      childForm bareLayout 2 3 ['b', 'o', 'x'] "click" [' ', 'x'] := by
  refine (eventForms_agree_iff bareLayout 2 3 ['b', 'o', 'x'] "click" [' ', 'x'] _
    (box_nodeLine bareLayout rfl 2) (.inl rfl)).mpr ⟨rfl, fun t _ => ?_⟩
  have hdeclared : DeclaredAs bareLayout (trimChars [' ', 'x']) t := nofun
  exact ⟨fun _ => ⟨nofun, rfl⟩, fun _ => hdeclared⟩

/-- A document that declares no alias. -/
def noAliases : LayoutEnv := { bareLayout with urls := some fun _ => none }

/-- An action with an alias. -/
def downloadText : List Char := [' ', 'd', 'o', 'w', 'n', 'l', 'o', 'a', 'd', '(', 'a', ')']

/-- `download(a)` is accepted on a box and refused below it. -/
theorem eventForms_disagree :
    ¬∀ (env : LayoutEnv) (lineNum eventLine : Nat) (line : List Char) (kw : String) (r : List Char) (p : ParsedLine),
      NodeLine env lineNum line p → IsEventKeyword kw →
        inlineForm env lineNum line kw r = childForm env lineNum eventLine line kw r := by
  intro h
  have hbox := box_nodeLine noAliases rfl 2
  have heq := h noAliases 2 3 _ "click" downloadText _ hbox (.inl rfl)
  have hok : noAliases.parseAction (trimChars downloadText) = .ok (.eval (.functionCall "download" [.var "a"])) := rfl
  have hundeclared : ∀ t, noAliases.parseActionWithUrls (trimChars downloadText) ≠ .ok t := nofun
  rw [hbox.inlineForm_of_ok (.inl rfl) rfl nofun rfl hok, hbox.childForm_of_error (.inl rfl) hundeclared] at heq
  cases heq

end Layout

end Mizu
