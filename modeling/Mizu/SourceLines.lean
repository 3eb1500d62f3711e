import Mizu.Splitter

/-!
# The lines of a split source

What is left of a line without its comment and the blanks behind it is its `content`. An indented line goes to the
section it is in; all other lines go nowhere, and nothing is put in their place.

* `splitSource_blocks`: the blocks have exactly the indented lines, in order, each in its section.
* `splitSource_keepsLines_iff`: so they have them under the line numbers of the source only if there are none, and the
  text of a markdown block is kept only if none of its lines is blank or has a comment.
* `splitSource_misnumbers`: a section and its first line.
-/

namespace Mizu

open List Option

/-! ## The content of a line -/

/-- A line without its comment and the blanks behind it. -/
def content (rawLine : List Char) : List Char := trimEnd (stripComment rawLine)

/-- An indented line that is not a comment. -/
def isContentLine (rawLine : List Char) : Bool := (content rawLine).head? = some ' '

/-- The section that a line begins. -/
def header (rawLine : List Char) : Option ActiveBlock :=
  if isContentLine rawLine then none else ActiveBlock.ofKeyword (String.ofList (content rawLine))

section Content

variable {cs ds ws : List Char} {inString : Bool} {prev : Option Char}

theorem stripCommentFrom_isPrefix (inString : Bool) (prev : Option Char) (cs : List Char) :
    stripCommentFrom inString prev cs <+: cs := by
  fun_induction stripCommentFrom inString prev cs with
  | case1 => exact prefix_rfl
  | case2 inString prev cs ih => exact cons_prefix_cons.mpr ⟨rfl, ih⟩
  | case3 => exact prefix_rfl
  | case4 inString prev c hquote hescape d ds ih => grind
  | case5 => exact nil_prefix
  | case6 inString prev c cs hquote hescape hcomment ih => exact cons_prefix_cons.mpr ⟨rfl, ih⟩

/-- What stands before a comment has none. -/
theorem stripCommentFrom_of_prefix (h : ds <+: stripCommentFrom inString prev cs) :
    stripCommentFrom inString prev ds = ds := by
  fun_induction stripCommentFrom inString prev cs generalizing ds with
  | case1 | case5 =>
    rw [prefix_nil.mp h]
    rfl
  | case2 inString prev cs ih => grind [stripCommentFrom.eq_def]
  | case3 inString prev c hquote hescape => grind [stripCommentFrom.eq_def]
  | case4 inString prev c hquote hescape d cs ih => grind [stripCommentFrom.eq_def]
  | case6 inString prev c cs hquote hescape hcomment ih =>
    rcases prefix_cons_iff.mp h with rfl | ⟨es, rfl, hes⟩
    · rfl
    -- a `;;` of the prefix is one of the text
    have hhead : es.head? = some ';' → cs.head? = some ';' := by
      intro hes'
      obtain ⟨rest, hrest⟩ := hes.trans (stripCommentFrom_isPrefix inString (some c) cs)
      rw [← hrest, List.head?_append, hes']
      rfl
    have hcomment' : ¬(c = ';' ∧ (!inString) = true ∧ es.head? = some ';' ∧ prev.all isAsciiWhitespace = true) :=
      fun hc => hcomment ⟨hc.1, hc.2.1, hhead hc.2.2.1, hc.2.2.2⟩
    rw [stripCommentFrom.eq_def]
    simp only [if_neg hquote, if_neg hescape, if_neg hcomment', ih hes]

/-- White space behind a text is no part of a comment, and begins none. -/
theorem stripCommentFrom_append_blank (hws : ∀ c ∈ ws, isWhitespace c = true) (inString : Bool)
    (prev : Option Char) (cs : List Char) :
    ∃ vs, (∀ c ∈ vs, isWhitespace c = true) ∧
      stripCommentFrom inString prev (cs ++ ws) = stripCommentFrom inString prev cs ++ vs := by
  fun_induction stripCommentFrom inString prev cs with
  | case1 inString prev =>
    have hpre := stripCommentFrom_isPrefix inString prev ws
    exact ⟨_, fun c hc => hws c (hpre.subset hc), rfl⟩
  | case2 inString prev cs ih =>
    obtain ⟨vs, hvs, heq⟩ := ih
    refine ⟨vs, hvs, ?_⟩
    rw [cons_append, stripCommentFrom.eq_def]
    simp [heq]
  | case3 inString prev c hquote hescape =>
    cases ws with
    | nil => exact ⟨[], nofun, by simp [stripCommentFrom, hescape]⟩
    | cons d ws =>
      have hpre := stripCommentFrom_isPrefix true (some d) ws
      refine ⟨d :: stripCommentFrom true (some d) ws, fun e he => hws e ?_, ?_⟩
      · exact (cons_prefix_cons.mpr ⟨rfl, hpre⟩).subset he
      · rw [singleton_append, stripCommentFrom.eq_def]
        simp [hescape]
  | case4 inString prev c hquote hescape d cs ih =>
    obtain ⟨vs, hvs, heq⟩ := ih
    refine ⟨vs, hvs, ?_⟩
    rw [hescape.2] at heq
    rw [cons_append, cons_append, stripCommentFrom.eq_def]
    simp [hescape, heq]
  | case5 inString prev c cs hquote hescape hcomment =>
    simp [List.head?_append, hcomment.2.2.1, cons_append, stripCommentFrom.eq_def, hcomment.1, hcomment.2.1, hcomment.2.2.2]
  | case6 inString prev c cs hquote hescape hcomment ih =>
    obtain ⟨vs, hvs, heq⟩ := ih
    refine ⟨vs, hvs, ?_⟩
    have hhead : (cs ++ ws).head? = some ';' → cs.head? = some ';' := by
      cases cs with
      | nil =>
        intro hhead
        have hblank := hws ';' (mem_of_mem_head? hhead)
        cases hblank
      | cons d cs => exact id
    have hcomment' :
        ¬(c = ';' ∧ (!inString) = true ∧ (cs ++ ws).head? = some ';' ∧ prev.all isAsciiWhitespace = true) :=
      fun hc => hcomment ⟨hc.1, hc.2.1, hhead hc.2.2.1, hc.2.2.2⟩
    rw [cons_append, stripCommentFrom.eq_def]
    simp only [if_neg hquote, if_neg hescape, if_neg hcomment', heq]
    rfl

variable {l : List Char}

theorem trimEnd_isPrefix (cs : List Char) : trimEnd cs <+: cs := by
  obtain ⟨ws, heq, -⟩ := trimEnd_split cs
  exact ⟨ws, heq.symm⟩

theorem content_isPrefix (l : List Char) : content l <+: l :=
  (trimEnd_isPrefix _).trans (stripCommentFrom_isPrefix _ _ _)

theorem content_ends (l : List Char) : ∀ c, (content l).getLast? = some c → isWhitespace c = false :=
  trimEnd_ends _

/-- A content is the content of itself. -/
@[simp] theorem content_content (l : List Char) : content (content l) = content l := by
  have hstrip : stripComment (content l) = content l := stripCommentFrom_of_prefix (trimEnd_isPrefix _)
  rw [content, hstrip]
  exact trimEnd_of_ends (content_ends l)

@[simp] theorem content_trimEnd (l : List Char) : content (trimEnd l) = content l := by
  obtain ⟨ws, heq, hws⟩ := trimEnd_split l
  obtain ⟨vs, hvs, hstrip⟩ := stripCommentFrom_append_blank hws false none (trimEnd l)
  rw [← heq] at hstrip
  rw [content, content, stripComment, stripComment, hstrip, trimEnd_append_blank _ hvs]

theorem trimEnd_dropWhile_eq_nil : trimEnd (cs.dropWhile (· = ' ')) = [] ↔ trimEnd cs = [] := by
  rw [trimEnd_eq_nil, trimEnd_eq_nil]
  constructor
  · intro h c hc
    rw [← takeWhile_append_dropWhile (p := (· = ' ')) (l := cs), mem_append] at hc
    rcases hc with hc | hc
    · have hspace := mem_takeWhile_imp hc
      rw [decide_eq_true_eq] at hspace
      rw [hspace]
      rfl
    · exact h c hc
  · exact fun h c hc => h c ((dropWhile_sublist _).subset hc)

theorem length_dropWhile_eq : (cs.dropWhile (· = ' ')).length = cs.length ↔ cs.head? ≠ some ' ' := by
  cases cs with
  | nil => simp
  | cons c cs =>
    by_cases hc : c = ' '
    · have hle := (dropWhile_sublist (p := (· = ' ')) (l := cs)).length_le
      simp only [hc, dropWhile_cons, decide_true, if_true, length_cons, List.head?_cons, ne_eq,
        not_true_eq_false, iff_false]
      omega
    · simp [hc]

theorem dropWhile_of_head (h : cs.head? ≠ some ' ') : cs.dropWhile (· = ' ') = cs := by
  cases cs with
  | nil => rfl
  | cons c cs => simp_all

theorem head_of_prefix (h : ds <+: cs) (hne : ds ≠ []) : cs.head? = ds.head? := by
  obtain ⟨rest, rfl⟩ := h
  rw [List.head?_append_of_ne_nil _ hne]

/-- What a line does depends on its content. -/
theorem splitLine_eq (number : Nat) (l : List Char) (active : Option ActiveBlock) (parsed : ParsedSource) :
    splitLine number l active parsed =
      if content l = [] then .ok (active, parsed)
      else if isContentLine l then
        match active with
        | some block => .ok (active, parsed.push block (String.ofList (content l)))
        | none =>
          .error (.parseError ("line " ++ toString number ++ ": indented content `" ++ String.ofList (content l) ++
            "` appears before any section keyword (`logic`, `style`, `layout`, or `urls`)"))
      else
        match ActiveBlock.ofKeyword (String.ofList (content l)) with
        | some block => .ok (some block, parsed)
        | none =>
          if isImportDirective (content l) then
            .error (.parseError "includes are not permitted in network-delivered documents")
          else
            .error (.parseError ("line " ++ toString number ++ ": unexpected root-level token `" ++
              String.ofList (content l) ++
              "`; expected `logic`, `style`, `layout`, `urls`, or `import \"…\"`")) := by
  unfold splitLine
  by_cases hnil : content l = []
  · have htrim : trimEnd ((stripComment l).dropWhile (· = ' ')) = [] := trimEnd_dropWhile_eq_nil.mpr hnil
    simp only [htrim, hnil]
    rfl
  have htrim : trimEnd ((stripComment l).dropWhile (· = ' ')) ≠ [] := mt trimEnd_dropWhile_eq_nil.mp hnil
  have hhead : (stripComment l).head? = (content l).head? := head_of_prefix (trimEnd_isPrefix _) hnil
  by_cases hspace : (content l).head? = some ' '
  · have hlength := mt length_dropWhile_eq.mp (not_not.mpr (hhead.trans hspace))
    simp only [isEmpty_eq_false_iff.mpr htrim, if_neg hlength, if_neg hnil, isContentLine, hspace]
    rfl
  · have hlength := length_dropWhile_eq.mpr (hhead.trans_ne hspace)
    have hdrop := dropWhile_of_head (hhead.trans_ne hspace)
    have hempty : (trimEnd (stripComment l)).isEmpty = false := isEmpty_eq_false_iff.mpr hnil
    simp only [hdrop, hempty, Bool.false_eq_true, if_false, if_true, if_neg hnil, isContentLine,
      decide_eq_false hspace]
    rfl

end Content

/-! ## Blocks -/

namespace ParsedSource

def block (p : ParsedSource) : ActiveBlock → String
  | .logic => p.logicBlock
  | .style => p.styleBlock
  | .layout => p.layoutBlock
  | .urls => p.urlsBlock

theorem block_push (p : ParsedSource) (active : ActiveBlock) (line : String) (b : ActiveBlock) :
    (p.push active line).block b = p.block b ++ ((if b = active then line else "") ++ "\n") := by
  cases b <;> rfl

/-- The lines that the parser of a block reads. -/
def blockLines (p : ParsedSource) (b : ActiveBlock) : List (List Char) := lines (p.block b).toList

end ParsedSource

/-- The section that the lines after some lines are in. -/
def sectionAfter (active : Option ActiveBlock) (ls : List (List Char)) : Option ActiveBlock :=
  ls.foldl (fun active l => (header l).or active) active

/-- The indented lines with their sections. -/
def contentLines (active : Option ActiveBlock) : List (List Char) → List (Option ActiveBlock × List Char)
  | [] => []
  | l :: ls =>
    if isContentLine l then (active, content l) :: contentLines active ls
    else contentLines ((header l).or active) ls

/-- What a block has for an indented line. -/
def lineIn (b : ActiveBlock) (line : Option ActiveBlock × List Char) : List Char :=
  if line.1 = some b then line.2 else []

/-! ## Lines of a text -/

section Lines

variable {cs l : List Char} {ls : List (List Char)}

theorem lines_append_newline (hbreak : '\n' ∉ l) (hreturn : l.getLast? ≠ some '\r') (rest : List Char) :
    lines (l ++ '\n' :: rest) = l :: lines rest := by
  induction l with
  | nil => rw [nil_append, lines, if_pos rfl]
  | cons c cs ih =>
    obtain ⟨hc, hcs⟩ := not_or.mp (mt mem_cons.mpr hbreak)
    rw [cons_append, lines, if_neg (Ne.symm hc)]
    cases cs with
    | nil => grind
    | cons d cs => grind

/-- A text of terminated lines has these lines. -/
theorem lines_terminated (h : ∀ l ∈ ls, '\n' ∉ l ∧ l.getLast? ≠ some '\r') :
    lines (ls.flatMap (· ++ ['\n'])) = ls := by
  induction ls with
  | nil => rfl
  | cons l ls ih =>
    obtain ⟨hbreak, hreturn⟩ := h l mem_cons_self
    rw [flatMap_cons, append_assoc, singleton_append, lines_append_newline hbreak hreturn,
      ih fun l' hl' => h l' (mem_cons_of_mem l hl')]

theorem noBreak_of_mem_lines (h : l ∈ lines cs) : '\n' ∉ l := by
  fun_induction lines cs generalizing l with
  | case1 => cases h
  | case2 | case3 | case5 => grind
  | case4 c cs hc l' ls' heq hcr ih => exact ih (heq ▸ h)

end Lines

/-! ## The run over the lines -/

section Run

variable {l : List Char} {ls : List (List Char)} {active : Option ActiveBlock} {p p' : ParsedSource} {number : Nat}

theorem header_of_content (h : isContentLine l) : header l = none := by
  rw [header, if_pos h]

theorem header_of_blank (h : content l = []) : header l = none := by
  rw [header, isContentLine, h]
  rfl

theorem content_ne_nil (h : isContentLine l) : content l ≠ [] := by
  grind [isContentLine]

/-- What an accepted line does. -/
inductive LineAccepted (l : List Char) (active : Option ActiveBlock) (p : ParsedSource) :
    Option ActiveBlock → ParsedSource → Prop where
  | blank (h : content l = []) : LineAccepted l active p active p
  | content (h : isContentLine l) (b : ActiveBlock) (hactive : active = some b) :
      LineAccepted l active p active (p.push b (String.ofList (content l)))
  | header (h : content l ≠ []) (hroot : ¬isContentLine l) (b : ActiveBlock) (hheader : header l = some b) :
      LineAccepted l active p (some b) p

theorem splitLine_accepted {active' : Option ActiveBlock} (h : splitLine number l active p = .ok (active', p')) :
    LineAccepted l active p active' p' := by
  rw [splitLine_eq] at h
  by_cases hnil : content l = []
  · rw [if_pos hnil] at h
    obtain ⟨rfl, rfl⟩ := Prod.mk.inj (Except.ok.inj h)
    exact .blank hnil
  rw [if_neg hnil] at h
  by_cases hcontent : isContentLine l
  · rw [if_pos hcontent] at h
    cases hactive : active with
    | none =>
      rw [hactive] at h
      cases h
    | some b =>
      rw [hactive] at h
      obtain ⟨rfl, rfl⟩ := Prod.mk.inj (Except.ok.inj h)
      exact .content hcontent b rfl
  · rw [if_neg hcontent] at h
    cases hkeyword : ActiveBlock.ofKeyword (String.ofList (Mizu.content l)) with
    | none => grind
    | some b =>
      rw [hkeyword] at h
      obtain ⟨rfl, rfl⟩ := Prod.mk.inj (Except.ok.inj h)
      exact .header hnil hcontent b (by rw [Mizu.header, if_neg hcontent, hkeyword])

/-- Every block gets one line for each indented line. -/
theorem splitLines_blocks (h : splitLines number active p ls = .ok p') (b : ActiveBlock) :
    (p'.block b).toList = (p.block b).toList ++ ((contentLines active ls).map (lineIn b)).flatMap (· ++ ['\n']) := by
  induction ls generalizing number active p with
  | nil =>
    obtain rfl := Except.ok.inj h
    simp [contentLines]
  | cons l ls ih =>
    rw [splitLines] at h
    cases hline : splitLine number l active p with
    | error e =>
      rw [hline] at h
      cases h
    | ok r =>
      obtain ⟨active', q⟩ := r
      rw [hline] at h
      have hrest := ih h
      rw [contentLines]
      cases splitLine_accepted hline with
      | blank hnil =>
        have hcontent : ¬isContentLine l := fun hc => content_ne_nil hc hnil
        rw [if_neg hcontent, header_of_blank hnil, none_or, hrest]
      | content hcontent s hactive =>
        rw [if_pos hcontent, hrest, ParsedSource.block_push, hactive]
        simp only [String.toList_append, append_assoc, map_cons, flatMap_cons, lineIn,
          some.injEq, eq_comm (a := s)]
        split <;> simp
      | header hne hroot s hheader => rw [if_neg hroot, hheader, some_or, hrest]

/-- An accepted line is in a section. -/
theorem splitLines_sections (h : splitLines number active p ls = .ok p') {k : Nat} (hk : ls[k]? = some l)
    (hcontent : isContentLine l) : ∃ b, sectionAfter active (ls.take k) = some b := by
  induction ls generalizing number active p k with
  | nil => cases hk
  | cons l' ls ih =>
    rw [splitLines] at h
    cases hline : splitLine number l' active p with
    | error e =>
      rw [hline] at h
      cases h
    | ok r =>
      obtain ⟨active', q⟩ := r
      rw [hline] at h
      cases k with
      | zero =>
        obtain rfl := some.inj hk
        cases splitLine_accepted hline with
        | blank hnil => exact absurd hnil (content_ne_nil hcontent)
        | content _ b hactive => exact ⟨b, hactive⟩
        | header hne hroot => exact absurd hcontent hroot
      | succ k =>
        obtain ⟨b, hb⟩ := ih h hk
        refine ⟨b, ?_⟩
        rw [take_succ_cons, sectionAfter, foldl_cons]
        cases splitLine_accepted hline with
        | blank hnil => rwa [header_of_blank hnil, none_or]
        | content hc => rwa [header_of_content hc, none_or]
        | header hne hroot s hheader => rwa [hheader, some_or]

theorem contentLines_length (active : Option ActiveBlock) (ls : List (List Char)) :
    (contentLines active ls).length = ls.countP isContentLine := by
  induction ls generalizing active with
  | nil => rfl
  | cons l ls ih =>
    rw [contentLines, countP_cons]
    split
    · rw [length_cons, ih]
    · rw [ih, Nat.add_zero]

theorem contentLines_append (active : Option ActiveBlock) (ls ms : List (List Char)) :
    contentLines active (ls ++ ms) = contentLines active ls ++ contentLines (sectionAfter active ls) ms := by
  induction ls generalizing active with
  | nil => rfl
  | cons l ls ih =>
    rw [cons_append, contentLines, contentLines, sectionAfter, foldl_cons]
    by_cases hc : isContentLine l
    · rw [if_pos hc, if_pos hc, header_of_content hc, none_or, ih]
      rfl
    · rw [if_neg hc, if_neg hc, ih]
      rfl

/-- An indented line is found behind the indented lines above it. -/
theorem contentLines_getElem (active : Option ActiveBlock) {k : Nat} (hk : ls[k]? = some l)
    (hcontent : isContentLine l) :
    (contentLines active ls)[(ls.take k).countP isContentLine]? =
      some (sectionAfter active (ls.take k), content l) := by
  obtain ⟨hlt, rfl⟩ := List.getElem?_eq_some_iff.mp hk
  have hsplit := contentLines_append active (ls.take k) (ls.drop k)
  rw [take_append_drop, drop_eq_getElem_cons hlt, contentLines, if_pos hcontent] at hsplit
  rw [hsplit, ← contentLines_length active (ls.take k), List.getElem?_append_right (Nat.le_refl _), Nat.sub_self]
  rfl

theorem contentLines_mem {line : Option ActiveBlock × List Char} (h : line ∈ contentLines active ls) :
    ∃ l ∈ ls, isContentLine l ∧ line.2 = content l := by
  induction ls generalizing active with
  | nil => cases h
  | cons l ls ih => grind [contentLines]

/-- The parser of a block reads what the source has for it. -/
theorem splitSource_blocks {source : String} (h : splitSource source = .ok p) (b : ActiveBlock) :
    p.blockLines b = (contentLines none (lines source.toList)).map (lineIn b) := by
  have hblock := splitLines_blocks h b
  have hempty : (ParsedSource.empty.block b).toList = [] := by cases b <;> rfl
  rw [hempty, nil_append] at hblock
  rw [ParsedSource.blockLines, hblock]
  refine lines_terminated fun l hl => ?_
  obtain ⟨line, hline, rfl⟩ := mem_map.mp hl
  obtain ⟨m, hm, -, heq⟩ := contentLines_mem hline
  rw [lineIn]
  split
  · rw [heq]
    refine ⟨fun hbreak => noBreak_of_mem_lines hm ((content_isPrefix m).subset hbreak), fun hreturn => ?_⟩
    cases content_ends m '\r' hreturn
  · exact ⟨not_mem_nil, nofun⟩

end Run

/-! ## Documents on disk -/

/-- Who delivered a source. -/
inductive Origin where
  | localFile
  | network
  deriving DecidableEq, Repr

/-- A line that is handed to `process_import`. -/
def isRootImport (rawLine : List Char) : Bool :=
  let line := stripComment rawLine
  let trimmedStart := line.dropWhile (· = ' ')
  decide (trimmedStart.length = line.length) && isImportDirective (trimEnd trimmedStart)

/-- What `process_import` does to the blocks, from the number of the line and the directive. -/
abbrev ProcessImport := Nat → List Char → ParsedSource → Except MizuError ParsedSource

section Origin

variable (processImport : ProcessImport) (origin : Origin)

def splitLineWithOrigin (number : Nat) (rawLine : List Char) (active : Option ActiveBlock) (parsed : ParsedSource) :
    Except MizuError (Option ActiveBlock × ParsedSource) :=
  match origin with
  | .network => splitLine number rawLine active parsed
  | .localFile =>
    if isRootImport rawLine then
      (processImport number (content rawLine) parsed).map fun parsed => (active, parsed)
    else splitLine number rawLine active parsed

def splitLinesWithOrigin (number : Nat) (active : Option ActiveBlock) (parsed : ParsedSource) :
    List (List Char) → Except MizuError ParsedSource
  | [] => .ok parsed
  | line :: rest =>
    match splitLineWithOrigin processImport origin number line active parsed with
    | .error e => .error e
    | .ok (active, parsed) => splitLinesWithOrigin (number + 1) active parsed rest

def splitSourceWithOrigin (source : String) : Except MizuError ParsedSource :=
  splitLinesWithOrigin processImport origin 1 none .empty (lines source.toList)

/-- A source without imports. -/
def ImportFree (source : String) : Prop := ∀ l ∈ lines source.toList, ¬isRootImport l

theorem splitLinesWithOrigin_eq {ls : List (List Char)} (h : ∀ l ∈ ls, ¬isRootImport l) (number : Nat)
    (active : Option ActiveBlock) (parsed : ParsedSource) :
    splitLinesWithOrigin processImport origin number active parsed ls = splitLines number active parsed ls := by
  induction ls generalizing number active parsed with
  | nil => rfl
  | cons l ls ih =>
    have hline : splitLineWithOrigin processImport origin number l active parsed = splitLine number l active parsed := by
      cases origin with
      | network => rfl
      | localFile => exact if_neg (h l mem_cons_self)
    rw [splitLinesWithOrigin, splitLines, hline]
    cases splitLine number l active parsed with
    | error e => rfl
    | ok r => exact ih (fun m hm => h m (mem_cons_of_mem l hm)) _ _ _

/-- Without imports it does not matter who delivered the source. -/
theorem splitSourceWithOrigin_eq {source : String} (h : ImportFree source) :
    splitSourceWithOrigin processImport origin source = splitSource source :=
  splitLinesWithOrigin_eq processImport origin h _ _ _

end Origin

/-! ## Fidelity -/

def tripleQuote : List Char := ['"', '"', '"']

/-- A line of the layout with a markdown node whose text goes on. -/
def OpensMarkdown (line : List Char) : Prop :=
  ∃ indent blanks rest, line = indent ++ "markdown".toList ++ blanks ++ tripleQuote ++ rest ∧
    (∀ c ∈ indent, c = ' ') ∧ (∀ c ∈ blanks, isWhitespace c) ∧ ¬tripleQuote <:+: rest

/-- The lines of a source between the triple quotes of a markdown block, and what is above them. -/
structure MarkdownText (ls before body : List (List Char)) : Prop where
  lines_eq : ∃ above opening closing below, ls = above ++ opening :: (body ++ closing :: below) ∧
    before = above ++ [opening] ∧ isContentLine opening ∧ OpensMarkdown (content opening) ∧
    isContentLine closing ∧ tripleQuote <:+: content closing
  not_closed : ∀ l ∈ body, ¬tripleQuote <:+: l
  layout : sectionAfter none before = some .layout

/-- The blocks as the source has them. -/
structure KeepsLines (ls : List (List Char)) (p : ParsedSource) : Prop where
  /-- An indented line is in its section, and only there, under its number. -/
  placed : ∀ (k : Nat) (l : List Char), ls[k]? = some l → isContentLine l →
    ∃ b, sectionAfter none (ls.take k) = some b ∧
      ∀ b', (p.blockLines b')[k]? = some (if b' = b then content l else [])
  /-- A line of a block is blank or the line of the source. -/
  aligned : ∀ (k : Nat) (b : ActiveBlock) (t : List Char), (p.blockLines b)[k]? = some t →
    t = [] ∨ ∃ l, ls[k]? = some l ∧ content l = t
  /-- The text of a markdown block reaches the parser of the layout. -/
  markdown : ∀ before body, MarkdownText ls before body →
    ((p.blockLines .layout).drop before.length).take body.length = body.map trimEnd

/-- The blocks as they are: an indented line is where the indented lines above it leave it. -/
structure Renumbered (ls : List (List Char)) (p : ParsedSource) : Prop where
  length_eq : ∀ b, (p.blockLines b).length = ls.countP isContentLine
  placed : ∀ (k : Nat) (l : List Char), ls[k]? = some l → isContentLine l →
    ∃ b, sectionAfter none (ls.take k) = some b ∧
      ∀ b', (p.blockLines b')[(ls.take k).countP isContentLine]? = some (if b' = b then content l else [])
  /-- It moves up. -/
  shifts : ∀ (k : Nat) (l : List Char), ls[k]? = some l → isContentLine l →
    (ls.take k).countP isContentLine < k

section Fidelity

variable {ls body below : List (List Char)} {l closing : List Char} {p : ParsedSource} {source : String}

/-- The first line is not in a section. -/
theorem not_content_first (hsections : ∀ (k : Nat) (l : List Char), ls[k]? = some l → isContentLine l →
    ∃ b, sectionAfter none (ls.take k) = some b) (h : ls[0]? = some l) : ¬isContentLine l := by
  intro hcontent
  obtain ⟨b, hb⟩ := hsections 0 l h hcontent
  cases hb

theorem renumbered (h : splitSource source = .ok p) : Renumbered (lines source.toList) p := by
  have hsections : ∀ (k : Nat) (l : List Char), (lines source.toList)[k]? = some l → isContentLine l →
      ∃ b, sectionAfter none ((lines source.toList).take k) = some b :=
    fun k l hk hcontent => splitLines_sections h hk hcontent
  refine ⟨fun b => ?_, fun k l hk hcontent => ?_, fun k l hk hcontent => ?_⟩
  · rw [splitSource_blocks h, length_map, contentLines_length]
  · obtain ⟨b, hb⟩ := hsections k l hk hcontent
    refine ⟨b, hb, fun b' => ?_⟩
    rw [splitSource_blocks h, List.getElem?_map, contentLines_getElem none hk hcontent, hb]
    simp only [map_some, lineIn, some.injEq, eq_comm (a := b)]
  · -- the first line is not among the indented ones
    cases hls : lines source.toList with
    | nil =>
      rw [hls] at hk
      cases hk
    | cons first rest =>
      have hfirst : ¬isContentLine first := not_content_first hsections (by rw [hls]; rfl)
      rw [hls] at hk
      cases k with
      | zero =>
        obtain rfl := some.inj hk
        exact absurd hcontent hfirst
      | succ k => grind [length_take]

theorem content_trimEnd_nil (h : trimEnd l = []) : content l = [] := by
  rw [← content_trimEnd, h]
  rfl

/-- A line of a block is blank or an indented line without a comment. -/
theorem lineIn_cases {active : Option ActiveBlock} {b : ActiveBlock} {t : List Char}
    (h : t ∈ (contentLines active ls).map (lineIn b)) : t = [] ∨ isContentLine t ∧ content t = t := by
  obtain ⟨line, hline, rfl⟩ := mem_map.mp h
  obtain ⟨m, -, hm, heq⟩ := contentLines_mem hline
  rw [lineIn]
  split
  · grind [isContentLine, content_content]
  · exact .inl rfl

/-- Below blank lines the section goes on. -/
theorem contentLines_head (hbody : ∀ l ∈ body, content l = [] ∨ isContentLine l) (hclosing : isContentLine closing)
    (b : ActiveBlock) :
    ∃ t rest, contentLines (some b) (body ++ closing :: below) = (some b, t) :: rest ∧ t ≠ [] := by
  induction body with
  | nil => exact ⟨content closing, _, by rw [nil_append, contentLines, if_pos hclosing], content_ne_nil hclosing⟩
  | cons l body ih =>
    rw [cons_append, contentLines]
    by_cases hl : isContentLine l
    · exact ⟨content l, _, by rw [if_pos hl], content_ne_nil hl⟩
    · have hnil := (hbody l mem_cons_self).resolve_right hl
      rw [if_neg hl, header_of_blank hnil, none_or]
      exact ih fun m hm => hbody m (mem_cons_of_mem l hm)

/-- Lines are kept as they are if each of them is indented and has no comment. -/
theorem text_kept_iff (hclosing : isContentLine closing) (b : ActiveBlock) :
    ((contentLines (some b) (body ++ closing :: below)).map (lineIn b)).take body.length = body.map trimEnd ↔
      ∀ l ∈ body, isContentLine l ∧ content l = trimEnd l := by
  constructor
  · intro h
    have hcases : ∀ l ∈ body, trimEnd l = [] ∨ isContentLine l ∧ content l = trimEnd l := by
      intro l hl
      have hmem : trimEnd l ∈ (contentLines (some b) (body ++ closing :: below)).map (lineIn b) :=
        mem_of_mem_take (h ▸ mem_map_of_mem hl)
      rcases lineIn_cases hmem with hnil | ⟨hcontent, heq⟩
      · exact .inl hnil
      · grind [content_trimEnd, isContentLine]
    induction body with
    | nil => exact nofun
    | cons l body ih =>
      rcases hcases l mem_cons_self with hnil | ⟨hl, heq⟩
      · -- the next indented line stands where the blank one was
        obtain ⟨t, rest, hhead, hne⟩ : ∃ t rest,
            contentLines (some b) (l :: body ++ closing :: below) = (some b, t) :: rest ∧ t ≠ [] :=
          contentLines_head (fun m hm => (hcases m hm).imp content_trimEnd_nil And.left) hclosing b
        rw [hhead, map_cons, length_cons, take_succ_cons, map_cons, hnil] at h
        have ht := (List.cons.inj h).1
        rw [lineIn, if_pos rfl] at ht
        exact absurd ht hne
      · rw [cons_append, contentLines, if_pos hl, map_cons, length_cons, take_succ_cons,
          map_cons] at h
        have hrest := ih (List.cons.inj h).2 fun m hm => hcases m (mem_cons_of_mem l hm)
        exact forall_mem_cons.mpr ⟨⟨hl, heq⟩, hrest⟩
  · intro h
    induction body with
    | nil => rfl
    | cons l body ih =>
      obtain ⟨⟨hl, heq⟩, hbody⟩ := forall_mem_cons.mp h
      rw [cons_append, contentLines, if_pos hl, map_cons, length_cons, take_succ_cons,
        map_cons, ih hbody, lineIn, if_pos rfl, heq]

/-- The text of a markdown block, where its lines are. -/
theorem markdown_kept_iff (h : splitSource source = .ok p) {before : List (List Char)}
    (htext : MarkdownText (lines source.toList) before body) :
    ((p.blockLines .layout).drop (before.countP isContentLine)).take body.length = body.map trimEnd ↔
      ∀ l ∈ body, isContentLine l ∧ content l = trimEnd l := by
  obtain ⟨above, opening, closing, below, hlines, rfl, -, -, hclosing, -⟩ := htext.lines_eq
  have hls : lines source.toList = (above ++ [opening]) ++ (body ++ closing :: below) := by grind
  rw [splitSource_blocks h, hls, contentLines_append, map_append, drop_append_of_le_length
    (by rw [length_map, contentLines_length]), htext.layout]
  rw [drop_eq_nil_of_le (by rw [length_map, contentLines_length]), nil_append]
  exact text_kept_iff hclosing .layout

theorem exists_first (h : ∃ l ∈ ls, isContentLine l) :
    ∃ (k : Nat) (l : List Char), ls[k]? = some l ∧ isContentLine l ∧ (ls.take k).countP isContentLine = 0 := by
  induction ls with
  | nil =>
    obtain ⟨l, hl, -⟩ := h
    cases hl
  | cons l ls ih =>
    by_cases hl : isContentLine l
    · exact ⟨0, l, rfl, hl, rfl⟩
    · obtain ⟨m, hm, hcontent⟩ := h
      rcases mem_cons.mp hm with rfl | hm
      · exact absurd hcontent hl
      obtain ⟨k, m', hk, hm', hcount⟩ := ih ⟨m, hm, hcontent⟩
      exact ⟨k + 1, m', hk, hm', by rw [take_succ_cons, countP_cons_of_neg hl, hcount]⟩

/-- The first indented line is the first line of its block, and not the first line of the source. -/
theorem not_keepsLines (h : splitSource source = .ok p) (hline : ∃ l ∈ lines source.toList, isContentLine l) :
    ¬KeepsLines (lines source.toList) p := by
  intro hkeeps
  obtain ⟨k, l, hk, hcontent, hcount⟩ := exists_first hline
  obtain ⟨b, -, hplaced⟩ := (renumbered h).placed k l hk hcontent
  have hfirst := hplaced b
  rw [hcount, if_pos rfl] at hfirst
  rcases hkeeps.aligned 0 b _ hfirst with hnil | ⟨first, hget, heq⟩
  · exact content_ne_nil hcontent hnil
  · refine not_content_first (fun k l hk hc => splitLines_sections h hk hc) hget ?_
    rwa [isContentLine, heq]

theorem keepsLines_of_empty (h : splitSource source = .ok p) (hnone : ∀ l ∈ lines source.toList, ¬isContentLine l) :
    KeepsLines (lines source.toList) p := by
  have hlength : ∀ b, p.blockLines b = [] := fun b =>
    eq_nil_of_length_eq_zero (by rw [(renumbered h).length_eq, countP_eq_zero.mpr hnone])
  refine ⟨fun k l hk hcontent => ?_, fun k b t ht => ?_, fun before body htext => ?_⟩
  · exact absurd hcontent (hnone l (mem_of_getElem? hk))
  · rw [hlength] at ht
    cases ht
  · obtain ⟨above, opening, closing, below, hlines, -, hopening, -⟩ := htext.lines_eq
    exact absurd hopening (hnone opening (hlines ▸ mem_append_right _ mem_cons_self))

end Fidelity

/-- The blocks of a source without imports have its indented lines, each in its section, one behind the other. So they
are kept so exactly if the source has no indented line, and the text of a markdown block is kept exactly if each of
its lines is indented and has no comment. -/
theorem splitSource_keepsLines_iff (processImport : ProcessImport) (origin : Origin) (source : String) (p : ParsedSource)
    (hfree : ImportFree source) (h : splitSourceWithOrigin processImport origin source = .ok p) :
    Renumbered (lines source.toList) p ∧
    (KeepsLines (lines source.toList) p ↔ ∀ l ∈ lines source.toList, ¬isContentLine l) ∧
    ∀ before body, MarkdownText (lines source.toList) before body →
      (((p.blockLines .layout).drop (before.countP isContentLine)).take body.length = body.map trimEnd ↔
        ∀ l ∈ body, isContentLine l ∧ content l = trimEnd l) := by
  rw [splitSourceWithOrigin_eq processImport origin hfree] at h
  refine ⟨renumbered h, ⟨fun hkeeps => ?_, keepsLines_of_empty h⟩, fun before body => markdown_kept_iff h⟩
  by_contra hnot
  push Not at hnot
  exact not_keepsLines h hnot hkeeps

/-- No directive is read. -/
def noImports : ProcessImport := fun _ _ _ => .error (.parseError "")

theorem docSource_lines :
    lines "layout\n doc\n".toList = [['l', 'a', 'y', 'o', 'u', 't'], [' ', 'd', 'o', 'c']] := by
  simp [lines]

theorem docSource_importFree : ImportFree "layout\n doc\n" := by
  rw [ImportFree, docSource_lines]
  decide

theorem docSource_split :
    splitSourceWithOrigin noImports .localFile "layout\n doc\n" = .ok ⟨"\n", "\n", " doc\n", "\n"⟩ := by
  rw [splitSourceWithOrigin_eq _ _ docSource_importFree, splitSource, docSource_lines]
  decide

theorem docSource_renumbered :
    Renumbered (lines "layout\n doc\n".toList) ⟨"\n", "\n", " doc\n", "\n"⟩ :=
  (splitSource_keepsLines_iff noImports .localFile _ _ docSource_importFree docSource_split).1

/-- The line under `layout` is the first line of the layout block. -/
theorem splitSource_misnumbers :
    ¬∀ (processImport : ProcessImport) (origin : Origin) (source : String) (p : ParsedSource), ImportFree source →
      splitSourceWithOrigin processImport origin source = .ok p → KeepsLines (lines source.toList) p := by
  intro h
  have hkeeps := h noImports .localFile _ _ docSource_importFree docSource_split
  have hblock : (ParsedSource.blockLines ⟨"\n", "\n", " doc\n", "\n"⟩ .layout)[0]? = some [' ', 'd', 'o', 'c'] := by
    simp [ParsedSource.blockLines, ParsedSource.block, lines]
  rcases hkeeps.aligned 0 .layout _ hblock with hnil | ⟨l, hl, heq⟩
  · cases hnil
  · rw [docSource_lines] at hl
    obtain rfl := some.inj hl
    revert heq
    decide

end Mizu
