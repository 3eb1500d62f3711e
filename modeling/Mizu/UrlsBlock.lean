import Mizu.Layout.Append
import Mizu.Security.PathParam
import Mizu.Security.UrlRoundTrip

/-!
# The `urls` block

Each line of the block declares an alias. The documentation shows three fields between blanks. The parser cuts
a line at its first two blanks, and the target is parsed as a URL only when the alias is used.

* `parseUrls_ok_iff`: the blocks that are accepted, and what they declare.
* `urls_mean_declarations_iff`: when the accepted blocks are the documented ones and every alias can be used.
-/

namespace Mizu

open List

/-! ## The parser -/

def isField (c : Char) : Bool := !isWhitespace c

/-- `str::splitn` with `char::is_whitespace`: at most `n + 1` parts. -/
def splitnBlank : Nat → List Char → List (List Char)
  | 0, cs => [cs]
  | n + 1, cs =>
    match cs.dropWhile isField with
    | [] => [cs]
    | _ :: rest => cs.takeWhile isField :: splitnBlank n rest

/-- A part that is there and not blank. -/
def filledPart (part : Option (List Char)) : Option String :=
  ((part.map trimChars).filter (!·.isEmpty)).map String.ofList

/-- A line that is not blank: its alias and endpoint. -/
def parseUrlLine (lineNo : Nat) (trimmed : List Char) : Except MizuError (String × UrlEndpoint) :=
  let line := "urls line " ++ toString lineNo ++ ": "
  let parts := splitnBlank 2 trimmed
  let keyword := String.ofList (parts.headD [])
  match filledPart parts[1]? with
  | none => .error (.parseError (line ++ "missing alias after `" ++ keyword ++ "`"))
  | some aliasStr =>
    match filledPart parts[2]? with
    | none => .error (.parseError (line ++ "missing target after alias `" ++ aliasStr ++ "`"))
    | some target =>
      match keyword with
      | "api" =>
        if startsWith "/" target then .ok (aliasStr, ⟨.api, target⟩)
        else
          .error (.parseError (line ++ "api endpoint `" ++ aliasStr ++ "` target `" ++ target ++
            "` must start with `/` (got a non-relative path)"))
      | "media" =>
        if startsWith "mizu://" target then .ok (aliasStr, ⟨.media, target⟩)
        else
          .error (.parseError (line ++ "media endpoint `" ++ aliasStr ++ "` target `" ++ target ++
            "` must start with `mizu://` (got a non-absolute URL)"))
      | other =>
        .error (.parseError (line ++ "unknown endpoint keyword `" ++ other ++ "`; expected `api` or `media`"))

def parseUrlLines : (lineNo : Nat) → UrlRegistry → Interner → List (List Char) →
    Except MizuError UrlRegistry × Interner
  | _, registry, i, [] => (.ok registry, i)
  | lineNo, registry, i, rawLine :: rest =>
    if (trimChars rawLine).isEmpty then parseUrlLines (lineNo + 1) registry i rest
    else
      match parseUrlLine lineNo (trimChars rawLine) with
      | .error e => (.error e, i)
      | .ok (aliasStr, endpoint) =>
        let (sym, i) := i.getOrIntern aliasStr
        if sym ∈ registry then
          (.error (.parseError ("urls line " ++ toString lineNo ++ ": duplicate alias `" ++ aliasStr ++
            "` — each alias must be unique within the `urls` block")), i)
        else parseUrlLines (lineNo + 1) (registry.insert sym endpoint) i rest

/-- `parse_urls`. -/
def parseUrls (content : String) (i : Interner) : Except MizuError UrlRegistry × Interner :=
  parseUrlLines 1 ∅ i (lines content.toList)

/-! ## The parts of a line -/

/-- The text after the keyword, with the blanks before it. -/
def afterKeyword (line : List Char) : List Char := line.dropWhile isField

def keywordOf (line : List Char) : List Char := line.takeWhile isField

def aliasOf (line : List Char) : List Char := (trimStart (afterKeyword line)).takeWhile isField

/-- All that follows the alias. -/
def targetOf (line : List Char) : List Char := trimStart ((trimStart (afterKeyword line)).dropWhile isField)

/-- A single blank stands after the keyword. -/
def NarrowGap (line : List Char) : Prop := ∀ c, (afterKeyword line)[1]? = some c → isWhitespace c = false

/-- There is an alias, and the target starts as the keyword demands. -/
def SoundLine (line : List Char) : Prop :=
  targetOf line ≠ [] ∧
    (keywordOf line = "api".toList ∧ "/".toList <+: targetOf line ∨
      keywordOf line = "media".toList ∧ "mizu://".toList <+: targetOf line)

def endpointOf (line : List Char) : UrlEndpoint :=
  ⟨if keywordOf line = "api".toList then .api else .media, String.ofList (targetOf line)⟩

/-- The lines that declare something. -/
def declaredLines (rawLines : List (List Char)) : List (List Char) :=
  (rawLines.map trimChars).filter (!·.isEmpty)

section Line

variable {line : List Char}

theorem trimmed_of_declared {rawLines : List (List Char)} (h : line ∈ declaredLines rawLines) :
    Layout.Trimmed line := by
  obtain ⟨hmem, hne⟩ := mem_filter.mp h
  obtain ⟨raw, -, rfl⟩ := mem_map.mp hmem
  have hstarts : ∀ c, (trimStart raw).head? = some c → isWhitespace c = false := by
    grind [trimStart, List.head?_dropWhile_not]
  refine ⟨by simpa using hne, fun c hc => hstarts c ?_, trimEnd_ends _⟩
  obtain ⟨ws, hsplit, -⟩ := trimEnd_split (trimStart raw)
  rw [hsplit, List.head?_append]
  rw [trimChars] at hc
  rw [hc]
  rfl

/-- An end of a trimmed line is trimmed. -/
theorem Layout.Trimmed.suffix_ends (h : Layout.Trimmed line) {s : List Char} (hs : s <:+ line) :
    ∀ c, s.getLast? = some c → isWhitespace c = false := by
  obtain ⟨p, rfl⟩ := hs
  intro c hc
  refine h.ends c ?_
  rw [List.getLast?_append, hc]
  rfl

theorem afterKeyword_suffix (line : List Char) : afterKeyword line <:+ line := dropWhile_suffix _

theorem targetOf_suffix (line : List Char) : targetOf line <:+ line :=
  (dropWhile_suffix _).trans ((dropWhile_suffix _).trans
    ((dropWhile_suffix _).trans (afterKeyword_suffix line)))

theorem head_dropWhile_field {cs rest : List Char} {c : Char} (h : cs.dropWhile isField = c :: rest) :
    isWhitespace c = true := by
  simpa [isField] using dropWhile_head h

theorem filledPart_some (part : List Char) :
    filledPart (some part) = if trimChars part = [] then none else some (String.ofList (trimChars part)) := by
  grind [filledPart]

theorem trimChars_of_noBlank {cs : List Char} (h : ∀ c ∈ cs, isWhitespace c = false) : trimChars cs = cs :=
  trimChars_eq_self (fun c hc => h c (mem_of_mem_head? hc)) fun c hc => h c (mem_of_mem_getLast? hc)

theorem trimStart_of_narrow {b c : Char} {rest : List Char} (hafter : afterKeyword line = b :: c :: rest)
    (hb : isWhitespace b = true) (hc : isWhitespace c = false) :
    trimStart (afterKeyword line) = c :: rest := by
  rw [hafter, trimStart, dropWhile_cons_of_pos hb, dropWhile_cons_of_neg (by rw [hc]; decide)]

theorem splitnBlank_of_nil {n : Nat} {cs : List Char} (h : cs.dropWhile isField = []) :
    splitnBlank (n + 1) cs = [cs] := by
  rw [splitnBlank, h]

theorem splitnBlank_of_cons {n : Nat} {b : Char} {cs rest : List Char} (h : cs.dropWhile isField = b :: rest) :
    splitnBlank (n + 1) cs = cs.takeWhile isField :: splitnBlank n rest := by
  rw [splitnBlank, h]

theorem headD_splitnBlank (n : Nat) (line : List Char) : (splitnBlank (n + 1) line).headD [] = keywordOf line := by
  cases hdrop : line.dropWhile isField with
  | nil =>
    rw [splitnBlank_of_nil hdrop]
    have hsplit := takeWhile_append_dropWhile (p := isField) (l := line)
    rw [hdrop, append_nil] at hsplit
    exact hsplit.symm
  | cons b rest =>
    rw [splitnBlank_of_cons hdrop]
    rfl

/-- The parser finds an alias and a target exactly if one blank follows the keyword and there is a target. -/
theorem splitnBlank_parts (h : Layout.Trimmed line) :
    (NarrowGap line ∧ targetOf line ≠ [] ∧
        filledPart (splitnBlank 2 line)[1]? = some (String.ofList (aliasOf line)) ∧
        filledPart (splitnBlank 2 line)[2]? = some (String.ofList (targetOf line))) ∨
      (¬(NarrowGap line ∧ targetOf line ≠ []) ∧
        (filledPart (splitnBlank 2 line)[1]? = none ∨ filledPart (splitnBlank 2 line)[2]? = none)) := by
  cases hafter : afterKeyword line with
  | nil =>
    rw [splitnBlank_of_nil hafter]
    exact .inr ⟨fun hand => hand.2 (by rw [targetOf, hafter]; rfl), .inl rfl⟩
  | cons b rest =>
    have hb := head_dropWhile_field hafter
    rw [splitnBlank_of_cons hafter]
    simp only [List.getElem?_cons_succ]
    cases rest with
    | nil => grind [h.suffix_ends, afterKeyword_suffix]
    | cons c rest =>
      cases hc : isWhitespace c with
      | true =>
        have hdrop : (c :: rest).dropWhile isField = c :: rest :=
          dropWhile_cons_of_neg (by rw [isField, hc]; decide)
        rw [splitnBlank_of_cons hdrop, takeWhile_cons_of_neg (by rw [isField, hc]; decide)]
        refine .inr ⟨fun hand => ?_, .inl rfl⟩
        rw [hand.1 c (by rw [hafter]; rfl)] at hc
        cases hc
      | false =>
        have hnarrow : NarrowGap line := fun d hd => by
          rw [hafter] at hd
          obtain rfl : c = d := Option.some.inj hd
          exact hc
        have htrim := trimStart_of_narrow hafter hb hc
        have halias : aliasOf line = (c :: rest).takeWhile isField := by rw [aliasOf, htrim]
        have htarget : targetOf line = trimStart ((c :: rest).dropWhile isField) := by rw [targetOf, htrim]
        cases hdrop : (c :: rest).dropWhile isField with
        | nil =>
          rw [splitnBlank_of_nil hdrop]
          exact .inr ⟨fun hand => hand.2 (by rw [htarget, hdrop]; rfl), .inr rfl⟩
        | cons d more =>
          have hmore : targetOf line = trimStart more := by
            grind [trimStart, dropWhile_cons_of_pos, head_dropWhile_field]
          have hchars : trimChars more = targetOf line := by
            rw [trimChars, ← hmore, trimEnd_of_ends (h.suffix_ends (targetOf_suffix line))]
          have hword : trimChars (aliasOf line) = aliasOf line :=
            trimChars_of_noBlank fun x hx => by simpa [isField] using mem_takeWhile_imp hx
          have hne : aliasOf line ≠ [] := by simp [halias, isField, hc]
          rw [splitnBlank_of_cons hdrop, ← halias]
          simp only [List.getElem?_cons_zero, List.getElem?_cons_succ, splitnBlank, filledPart_some, hword, hchars,
            if_neg hne]
          by_cases hnil : targetOf line = []
          · exact .inr ⟨fun hand => hand.2 hnil, .inr (if_pos hnil)⟩
          · exact .inl ⟨hnarrow, hnil, trivial, if_neg hnil⟩

theorem startsWith_ofList (p : String) (cs : List Char) : startsWith p (String.ofList cs) = true ↔ p.toList <+: cs := by
  rw [startsWith, String.toList_ofList, isPrefixOf_iff_prefix]

theorem ofList_eq_iff {cs : List Char} {s : String} : String.ofList cs = s ↔ cs = s.toList :=
  ⟨fun heq => by rw [← heq, String.toList_ofList], fun heq => by rw [heq, String.ofList_toList]⟩

theorem guarded_ok_iff {p : String} {kind : EndpointKind} (hkind : (endpointOf line).kind = kind) (e : MizuError)
    {declared : String × UrlEndpoint} :
    (if startsWith p (String.ofList (targetOf line)) then
        .ok (String.ofList (aliasOf line), ⟨kind, String.ofList (targetOf line)⟩)
      else .error e : Except MizuError (String × UrlEndpoint)) = .ok declared ↔
      p.toList <+: targetOf line ∧ declared = (String.ofList (aliasOf line), endpointOf line) := by
  have hstarts := startsWith_ofList p (targetOf line)
  subst hkind
  by_cases hp : p.toList <+: targetOf line
  · rw [if_pos (hstarts.mpr hp), Except.ok.injEq, eq_comm]
    exact (and_iff_right hp).symm
  · rw [if_neg (mt hstarts.mp hp)]
    exact iff_of_false nofun fun hand => hp hand.1

theorem parseUrlLine_ok_iff (h : Layout.Trimmed line) {lineNo : Nat} {declared : String × UrlEndpoint} :
    parseUrlLine lineNo line = .ok declared ↔
      NarrowGap line ∧ SoundLine line ∧ declared = (String.ofList (aliasOf line), endpointOf line) := by
  unfold parseUrlLine
  dsimp only
  rw [headD_splitnBlank]
  rcases splitnBlank_parts h with ⟨hnarrow, hne, halias, htarget⟩ | ⟨hnot, hmissing⟩
  · rw [halias, htarget, and_iff_right hnarrow, SoundLine, and_iff_right hne]
    dsimp only
    split
    · rename_i heq
      have hk := ofList_eq_iff.mp heq
      rw [guarded_ok_iff (by rw [endpointOf, if_pos hk])]
      simp [hk]
    · rename_i heq
      have hk := ofList_eq_iff.mp heq
      rw [guarded_ok_iff (by rw [endpointOf, hk]; rfl)]
      simp [hk]
    · rename_i hapi hmedia
      refine iff_of_false (by simp) fun hand => ?_
      rcases hand.1 with ⟨hk, -⟩ | ⟨hk, -⟩
      · exact hapi (by rw [hk]; rfl)
      · exact hmedia (by rw [hk]; rfl)
  · refine iff_of_false ?_ fun hsound => hnot ⟨hsound.1, hsound.2.1.1⟩
    rcases hmissing with hmissing | hmissing <;> rw [hmissing]
    · simp
    · split <;> simp

end Line

/-! ## The block -/

section Block

theorem declaredLines_cons (raw : List Char) (rawLines : List (List Char)) :
    declaredLines (raw :: rawLines) =
      if trimChars raw = [] then declaredLines rawLines else trimChars raw :: declaredLines rawLines := by
  grind [declaredLines]

theorem getOrIntern_self (i : Interner) (s : String) : (i.getOrIntern s).2.get s = some (i.getOrIntern s).1 := by
  unfold Interner.getOrIntern
  cases hs : i.map.lookup s with
  | some sym => exact hs
  | none => exact Finmap.lookup_insert _

theorem getOrIntern_other (i : Interner) {s t : String} (h : t ≠ s) : (i.getOrIntern s).2.get t = i.get t := by
  unfold Interner.getOrIntern
  cases i.map.lookup s with
  | some sym => rfl
  | none => exact Finmap.lookup_insert_of_ne _ h

/-- The registry holds what the lines declare. -/
structure Registers (declared : List (List Char)) (registry : UrlRegistry) (i : Interner) : Prop where
  wellFormed : i.WellFormed
  known : ∀ line ∈ declared, ∃ sym, i.get (String.ofList (aliasOf line)) = some sym
  entries : ∀ sym ep, registry.lookup sym = some ep ↔
    ∃ line ∈ declared, i.get (String.ofList (aliasOf line)) = some sym ∧ ep = endpointOf line

variable {declared : List (List Char)} {registry : UrlRegistry} {i : Interner}

theorem Registers.mem_iff (h : Registers declared registry i) (name : List Char) :
    (i.getOrIntern (String.ofList name)).1 ∈ registry ↔ name ∈ declared.map aliasOf := by
  have hown := getOrIntern_self i (String.ofList name)
  rw [← Finmap.lookup_isSome, Option.isSome_iff_exists, mem_map]
  constructor
  · rintro ⟨ep, hep⟩
    obtain ⟨line, hline, hget, -⟩ := (h.entries _ _).mp hep
    refine ⟨line, hline, ?_⟩
    by_contra hne
    have hne' : String.ofList (aliasOf line) ≠ String.ofList name := fun heq => hne (String.ofList_injective heq)
    rw [← getOrIntern_other i hne'] at hget
    exact hne' ((Interner.getOrIntern_wellFormed h.wellFormed _).get_inj hget hown)
  · rintro ⟨line, hline, rfl⟩
    obtain ⟨sym, hsym⟩ := h.known line hline
    refine ⟨endpointOf line, (h.entries _ _).mpr ⟨line, hline, ?_, rfl⟩⟩
    unfold Interner.getOrIntern
    rw [show i.map.lookup _ = some sym from hsym]
    exact hsym

theorem Registers.insert (h : Registers declared registry i) {line : List Char}
    (hnew : aliasOf line ∉ declared.map aliasOf) :
    Registers (line :: declared)
      (registry.insert (i.getOrIntern (String.ofList (aliasOf line))).1 (endpointOf line))
      (i.getOrIntern (String.ofList (aliasOf line))).2 := by
  have hown := getOrIntern_self i (String.ofList (aliasOf line))
  have hwf := Interner.getOrIntern_wellFormed h.wellFormed (String.ofList (aliasOf line))
  have hold : ∀ other ∈ declared, (i.getOrIntern (String.ofList (aliasOf line))).2.get
      (String.ofList (aliasOf other)) = i.get (String.ofList (aliasOf other)) := by
    intro other hother
    refine getOrIntern_other i fun heq => hnew ?_
    rw [← String.ofList_injective heq]
    exact mem_map_of_mem hother
  refine ⟨hwf, forall_mem_cons.mpr ⟨⟨_, hown⟩, fun other hother => ?_⟩, fun sym ep => ?_⟩
  · rw [hold other hother]
    exact h.known other hother
  · rw [exists_mem_cons_iff]
    have hrest : (∃ other ∈ declared, (i.getOrIntern (String.ofList (aliasOf line))).2.get
        (String.ofList (aliasOf other)) = some sym ∧ ep = endpointOf other) ↔ registry.lookup sym = some ep := by
      rw [h.entries]
      exact exists_congr fun other => and_congr_right fun hother => by rw [hold other hother]
    rw [hrest, hown, Option.some.injEq]
    by_cases hsym : (i.getOrIntern (String.ofList (aliasOf line))).1 = sym
    · subst hsym
      have hfresh := mt (h.mem_iff (aliasOf line)).mp hnew
      rw [Finmap.lookup_insert, Option.some.injEq, Finmap.lookup_eq_none.mpr hfresh]
      simp [eq_comm]
    · rw [Finmap.lookup_insert_of_ne _ (Ne.symm hsym)]
      simp [hsym]

/-- The parser accepts lines exactly if it accepts each, and their aliases are distinct and new. -/
theorem parseUrlLines_ok_iff (h : Registers declared registry i) (lineNo : Nat) (rawLines : List (List Char)) :
    ((∃ registry' i', parseUrlLines lineNo registry i rawLines = (.ok registry', i')) ↔
      (∀ line ∈ declaredLines rawLines, NarrowGap line ∧ SoundLine line) ∧
        ((declaredLines rawLines).map aliasOf).Nodup ∧
        ∀ line ∈ declaredLines rawLines, aliasOf line ∉ declared.map aliasOf) ∧
    ∀ registry' i', parseUrlLines lineNo registry i rawLines = (.ok registry', i') →
      Registers ((declaredLines rawLines).reverse ++ declared) registry' i' := by
  induction rawLines generalizing declared registry i lineNo with
  | nil =>
    refine ⟨iff_of_true ⟨registry, i, rfl⟩ ⟨nofun, nodup_nil, nofun⟩, fun registry' i' hrun => ?_⟩
    cases hrun
    exact h
  | cons raw rest ih =>
    rw [parseUrlLines, declaredLines_cons]
    by_cases hblank : trimChars raw = []
    · rw [if_pos (by rw [hblank]; rfl), if_pos hblank]
      exact ih h (lineNo + 1)
    · rw [if_neg (by simpa using hblank), if_neg hblank]
      have hmem : trimChars raw ∈ declaredLines [raw] := by
        rw [declaredLines_cons, if_neg hblank]
        exact mem_cons_self
      have htrimmed := trimmed_of_declared hmem
      clear hmem
      generalize trimChars raw = line at htrimmed
      cases hline : parseUrlLine lineNo line with
      | error e =>
        refine ⟨iff_of_false (by rintro ⟨_, _, ⟨⟩⟩) fun hall => ?_, by rintro _ _ ⟨⟩⟩
        have hok := hall.1 line mem_cons_self
        have hread : parseUrlLine lineNo line = .ok _ := (parseUrlLine_ok_iff htrimmed).mpr ⟨hok.1, hok.2, rfl⟩
        rw [hline] at hread
        cases hread
      | ok d =>
        obtain ⟨hnarrow, hsound, rfl⟩ := (parseUrlLine_ok_iff htrimmed).mp hline
        dsimp only
        by_cases hmem : (i.getOrIntern (String.ofList (aliasOf line))).1 ∈ registry
        · rw [if_pos hmem]
          refine ⟨iff_of_false (by rintro ⟨_, _, ⟨⟩⟩) fun hall => ?_, by rintro _ _ ⟨⟩⟩
          exact hall.2.2 line mem_cons_self ((h.mem_iff _).mp hmem)
        · have hnew := mt (h.mem_iff _).mpr hmem
          obtain ⟨hiff, hresult⟩ := ih (h.insert hnew) (lineNo + 1)
          rw [if_neg hmem, hiff, reverse_cons, append_assoc, singleton_append]
          refine ⟨?_, hresult⟩
          rw [forall_mem_cons, forall_mem_cons, map_cons, map_cons, nodup_cons]
          simp only [mem_cons, not_or]
          constructor
          · grind
          · grind

/-- The lines of a block that declare something. -/
def urlLines (content : String) : List (List Char) := declaredLines (lines content.toList)

/-- What the parser accepts, and what the registry then holds. -/
theorem parseUrls_ok_iff (hi : i.WellFormed) (content : String) :
    ((∃ registry' i', parseUrls content i = (.ok registry', i')) ↔
      (∀ line ∈ urlLines content, NarrowGap line ∧ SoundLine line) ∧ ((urlLines content).map aliasOf).Nodup) ∧
    ∀ registry' i', parseUrls content i = (.ok registry', i') →
      ∀ ep, (∃ sym, registry'.lookup sym = some ep) ↔ ∃ line ∈ urlLines content, ep = endpointOf line := by
  have hstart : Registers [] ∅ i := ⟨hi, nofun, fun sym ep => by simp⟩
  obtain ⟨hiff, hresult⟩ := parseUrlLines_ok_iff hstart 1 (lines content.toList)
  refine ⟨hiff.trans (and_congr_right fun _ => and_iff_left nofun), fun registry' i' hrun ep => ?_⟩
  have hregisters := hresult registry' i' hrun
  rw [append_nil] at hregisters
  constructor
  · rintro ⟨sym, hsym⟩
    obtain ⟨line, hline, -, rfl⟩ := (hregisters.entries sym ep).mp hsym
    exact ⟨line, mem_reverse.mp hline, rfl⟩
  · rintro ⟨line, hline, rfl⟩
    obtain ⟨sym, hsym⟩ := hregisters.known line (mem_reverse.mpr hline)
    exact ⟨sym, (hregisters.entries _ _).mpr ⟨line, mem_reverse.mpr hline, hsym, rfl⟩⟩

end Block

/-! ## The documented blocks -/

section Documented

variable {line keyword : List Char}

/-- Three fields between blanks, the target of the form that the keyword asks for. -/
def DocumentedLine (line : List Char) : Prop :=
  ∃ keyword gap name gap' target : List Char, line = keyword ++ (gap ++ (name ++ (gap' ++ target))) ∧
    (∀ c ∈ keyword ++ name ++ target, isField c = true) ∧ (∀ c ∈ gap ++ gap', isWhitespace c = true) ∧
    gap ≠ [] ∧ name ≠ [] ∧ gap' ≠ [] ∧
    (keyword = "api".toList ∧ "/".toList <+: target ∨ keyword = "media".toList ∧ "mizu://".toList <+: target)

/-- Every line is as documented, and no alias is declared twice. -/
def DocumentedBlock (content : String) : Prop :=
  (∀ line ∈ urlLines content, DocumentedLine line) ∧ ((urlLines content).map aliasOf).Nodup

theorem isField_iff {c : Char} : isField c = true ↔ isWhitespace c = false := by simp [isField]

theorem not_isField {c : Char} (h : isWhitespace c = true) : ¬isField c = true := by simp [isField, h]

/-- What begins with a field is not trimmed. -/
theorem trimStart_field {cs : List Char} {c : Char} (hc : isField c = true) : trimStart (c :: cs) = c :: cs :=
  dropWhile_cons_of_neg (by rw [isField_iff.mp hc]; decide)

/-- The fields of a line are its keyword, its alias and its target. -/
theorem fields_of_line {gap name gap' target : List Char} {b n b' c : Char}
    (hfields : ∀ x ∈ keyword ++ (n :: name) ++ (c :: target), isField x = true)
    (hgaps : ∀ x ∈ (b :: gap) ++ (b' :: gap'), isWhitespace x = true)
    (hline : line = keyword ++ (b :: gap ++ (n :: name ++ (b' :: gap' ++ (c :: target))))) :
    keywordOf line = keyword ∧ targetOf line = c :: target := by
  rw [forall_mem_append, forall_mem_append] at hfields
  obtain ⟨⟨hkeyword, hname⟩, htarget⟩ := hfields
  obtain ⟨hgap, hgap'⟩ := forall_mem_append.mp hgaps
  have hb := not_isField (hgap b mem_cons_self)
  have hb' := not_isField (hgap' b' mem_cons_self)
  have hafter : afterKeyword line = b :: gap ++ (n :: name ++ (b' :: gap' ++ (c :: target))) := by
    rw [afterKeyword, hline, dropWhile_append_of_pos hkeyword, cons_append, dropWhile_cons_of_neg hb]
  have htrim : trimStart (afterKeyword line) = n :: name ++ (b' :: gap' ++ (c :: target)) := by
    grind [trimStart, dropWhile_append_of_pos, trimStart_field, mem_cons_self]
  constructor
  · rw [keywordOf, hline, takeWhile_append_of_pos hkeyword, cons_append, takeWhile_cons_of_neg hb,
      append_nil]
  · rw [targetOf, htrim, dropWhile_append_of_pos hname, cons_append, dropWhile_cons_of_neg hb',
      ← cons_append, trimStart, dropWhile_append_of_pos hgap']
    exact trimStart_field (htarget c mem_cons_self)

/-- Where a run of one kind ends, one of the other kind begins. -/
theorem dropWhile_eq_nil {p q : Char → Bool} (hpq : ∀ c, p c = false → q c = true) {cs : List Char}
    (h : (cs.dropWhile p).takeWhile q = []) : cs.dropWhile p = [] := by
  cases hcs : cs.dropWhile p with
  | nil => rfl
  | cons c rest => grind [takeWhile_cons_of_pos, dropWhile_head]

/-- The documented lines are the sound ones whose target is one field. -/
theorem documentedLine_iff : DocumentedLine line ↔ SoundLine line ∧ ∀ c ∈ targetOf line, isWhitespace c = false := by
  constructor
  · rintro ⟨keyword, gap, name, gap', target, hline, hfields, hgaps, hgap, hname, hgap', hform⟩
    obtain ⟨b, gap, rfl⟩ := exists_cons_of_ne_nil hgap
    obtain ⟨n, name, rfl⟩ := exists_cons_of_ne_nil hname
    obtain ⟨b', gap', rfl⟩ := exists_cons_of_ne_nil hgap'
    obtain ⟨c, target, rfl⟩ := exists_cons_of_ne_nil (l := target) (by
      rintro rfl
      rcases hform with ⟨-, h⟩ | ⟨-, h⟩ <;> cases prefix_nil.mp h)
    obtain ⟨hkeyword, htarget⟩ := fields_of_line hfields hgaps hline
    rw [SoundLine, hkeyword, htarget]
    exact ⟨⟨cons_ne_nil _ _, hform⟩, fun x hx => isField_iff.mp (hfields x (mem_append_right _ hx))⟩
  · rintro ⟨⟨hne, hform⟩, hblanks⟩
    have hfield : ∀ c, isWhitespace c = false → isField c = true := fun _ => isField_iff.mpr
    have hblank : ∀ c, isField c = false → isWhitespace c = true := fun c hc => by simpa [isField] using hc
    refine ⟨keywordOf line, (afterKeyword line).takeWhile isWhitespace, aliasOf line,
      ((trimStart (afterKeyword line)).dropWhile isField).takeWhile isWhitespace, targetOf line, ?_, ?_, ?_,
      ?_, ?_, ?_, hform⟩
    · simp only [keywordOf, afterKeyword, aliasOf, targetOf, trimStart, takeWhile_append_dropWhile]
    · refine forall_mem_append.mpr ⟨forall_mem_append.mpr ⟨?_, ?_⟩, fun c hc => hfield c (hblanks c hc)⟩
      · exact fun c hc => mem_takeWhile_imp hc
      · exact fun c hc => mem_takeWhile_imp hc
    · exact forall_mem_append.mpr ⟨fun c hc => mem_takeWhile_imp hc, fun c hc => mem_takeWhile_imp hc⟩
    · intro hnil
      exact hne (by rw [targetOf, show afterKeyword line = [] from dropWhile_eq_nil hblank hnil]; rfl)
    · intro hnil
      exact hne (by rw [targetOf, show trimStart (afterKeyword line) = [] from dropWhile_eq_nil hfield hnil]; rfl)
    · intro hnil
      exact hne (by rw [targetOf, dropWhile_eq_nil hblank hnil]; rfl)

/-- Each line has an alias and a target that starts as the keyword demands, and the aliases are distinct. -/
def SoundBlock (content : String) : Prop :=
  (∀ line ∈ urlLines content, SoundLine line) ∧ ((urlLines content).map aliasOf).Nodup

theorem documented_iff (content : String) :
    DocumentedBlock content ↔
      SoundBlock content ∧ ∀ line ∈ urlLines content, ∀ c ∈ targetOf line, isWhitespace c = false := by
  unfold DocumentedBlock SoundBlock
  simp only [documentedLine_iff, forall₂_and]
  tauto

end Documented

/-! ## Using an alias -/

section Use

variable {urlParse : String → Except String ParsedUrl} {line : List Char}

def NoControl (cs : List Char) : Prop := ∀ c ∈ cs, ¬c.toNat < 0x20 ∧ c.toNat ≠ 0x7f

/-- What follows the scheme of a `mizu` URL up to the path, in the terms of the URL standard. -/
def authorityOf (target : List Char) : Option UrlAuthority :=
  urlAuthority ((target.drop "mizu://".length).takeWhile (!isHostEnd ·))

/-- A host, and neither credentials nor a port. -/
def PlainAuthority (target : List Char) : Prop :=
  ∃ host, authorityOf target = some ⟨false, false, host, none⟩ ∧ host ≠ ""

/-- No control character stands in the target, and an absolute one names a host only. -/
def UsableLine (line : List Char) : Prop :=
  NoControl (targetOf line) ∧ (keywordOf line = "media".toList → PlainAuthority (targetOf line))

/-- The URL library takes a target without control characters apart as the standard does. -/
theorem urlScheme_target {target rest : List Char} (htarget : target = "mizu://".toList ++ rest)
    (hends : ∀ c, target.getLast? = some c → isWhitespace c = false) (hcontrol : NoControl target) :
    urlScheme target = some ("mizu", '/' :: '/' :: rest) := by
  have hstart : target.dropWhile (·.toNat ≤ 0x20) = target := by rw [htarget]; rfl
  have hend : target.reverse.dropWhile (·.toNat ≤ 0x20) = target.reverse := by
    cases hrev : target.reverse with
    | nil => rfl
    | cons c cs =>
      have hlast : target.getLast? = some c := by rw [← List.head?_reverse, hrev]; rfl
      have hlow := (hcontrol c (mem_of_mem_getLast? hlast)).1
      have hspace : c.toNat ≠ 0x20 := fun heq => by
        have hblank := hends c hlast
        rw [isWhitespace, heq] at hblank
        cases hblank
      refine dropWhile_cons_of_neg ?_
      rw [decide_eq_true_eq]
      omega
  have hcleaned : urlCleaned target = target := by
    rw [urlCleaned, hstart, hend, reverse_reverse, filter_eq_self]
    intro c hc
    have hlow := (hcontrol c hc).1
    have hne : ∀ d : Char, d.toNat < 0x20 → c ≠ d := fun d hd heq => hlow (heq ▸ hd)
    simp [hne '\t' (by decide), hne '\n' (by decide), hne '\r' (by decide)]
  rw [urlScheme, hcleaned, htarget]
  rfl

theorem parse_target_iff (hurl : FollowsStandard urlParse) {target rest : List Char}
    (htarget : target = "mizu://".toList ++ rest) (hends : ∀ c, target.getLast? = some c → isWhitespace c = false) :
    (∃ uri, MizuUri.parse urlParse (String.ofList target) = .ok uri) ↔ NoControl target ∧ PlainAuthority target := by
  have hrest : target.drop "mizu://".length = rest := by rw [htarget]; rfl
  have hiff : ∀ domain, NoControl target →
      ((∃ uri, MizuUri.parse urlParse (String.ofList target) = .ok uri ∧ uri.domain = domain) ↔
        authorityOf target = some ⟨false, false, domain, none⟩ ∧ domain ≠ "") := by
    intro domain hcontrol
    rw [authorityOf, hrest]
    refine parse_authority_iff hurl (by rwa [String.toList_ofList]) ?_
    rw [String.toList_ofList]
    exact urlScheme_target htarget hends hcontrol
  constructor
  · rintro ⟨uri, hparse⟩
    have hcontrol := (parse_ok_iff.mp hparse).1
    rw [String.toList_ofList] at hcontrol
    exact ⟨hcontrol, uri.domain, (hiff _ hcontrol).mp ⟨uri, hparse, rfl⟩⟩
  · rintro ⟨hcontrol, domain, hplain⟩
    obtain ⟨uri, hparse, -⟩ := (hiff domain hcontrol).mpr hplain
    exact ⟨uri, hparse⟩

/-- The host of a document: one that `MizuUri.parse` finds. -/
def IsDocumentHost (urlParse : String → Except String ParsedUrl) (host : String) : Prop :=
  ∃ url uri, MizuUri.parse urlParse url = .ok uri ∧ uri.domain = host

/-- A call of the alias without a parameter gets a URL that can be fetched, an api's from the document's host. -/
def Resolves (urlParse : String → Except String ParsedUrl) (host : String) (ep : UrlEndpoint) : Prop :=
  ∃ url uri, resolveEndpointUrl host ep none = .ok url ∧ MizuUri.parse urlParse url = .ok uri ∧
    (ep.kind = .api → uri.domain = host)

theorem exists_documentHost (hurl : FollowsStandard urlParse) : ∃ host, IsDocumentHost urlParse host := by
  have hdomain : mizuDomain "mizu://a" = some "a" := by decide
  obtain ⟨uri, -, hparse, -⟩ := parse_of_wellformed hurl (by simp) hdomain (by decide)
  exact ⟨_, _, uri, hparse, rfl⟩

theorem noControl_append {xs ys : List Char} : NoControl (xs ++ ys) ↔ NoControl xs ∧ NoControl ys :=
  forall_mem_append

theorem noControl_trimStart (cs : List Char) : NoControl (cs.dropWhile (· = '/')) ↔ NoControl cs := by
  refine ⟨fun h => ?_, fun h c hc => h c ((dropWhile_sublist _).subset hc)⟩
  rw [← takeWhile_append_dropWhile (p := fun c : Char => decide (c = '/')) (l := cs), noControl_append]
  refine ⟨fun c hc => ?_, h⟩
  obtain rfl : c = '/' := by simpa using mem_takeWhile_imp hc
  decide

theorem resolves_api (host : String) (target : List Char) :
    Resolves urlParse host ⟨.api, String.ofList target⟩ ↔
      ∃ uri, MizuUri.parse urlParse ("mizu://" ++ host ++ "/" ++ String.ofList (target.dropWhile (· = '/'))) = .ok uri ∧
        uri.domain = host := by
  constructor
  · rintro ⟨url, uri, hresolve, hparse, hdomain⟩
    cases hresolve
    rw [UrlEndpoint.baseUrl, trimStartMatches, String.toList_ofList] at hparse
    exact ⟨uri, hparse, hdomain rfl⟩
  · rintro ⟨uri, hparse, hdomain⟩
    refine ⟨_, uri, rfl, ?_, fun _ => hdomain⟩
    rw [UrlEndpoint.baseUrl, trimStartMatches, String.toList_ofList]
    exact hparse

theorem resolves_media (host target : String) :
    Resolves urlParse host ⟨.media, target⟩ ↔ ∃ uri, MizuUri.parse urlParse target = .ok uri := by
  constructor
  · rintro ⟨url, uri, hresolve, hparse, -⟩
    cases hresolve
    exact ⟨uri, hparse⟩
  · rintro ⟨uri, hparse⟩
    exact ⟨target, uri, rfl, hparse, nofun⟩

/-- When the endpoint of a line can be used from every document. -/
theorem resolves_iff (hurl : FollowsStandard urlParse) (htrimmed : Layout.Trimmed line) (hsound : SoundLine line) :
    (∀ host, IsDocumentHost urlParse host → Resolves urlParse host (endpointOf line)) ↔ UsableLine line := by
  obtain ⟨hnonempty, hform⟩ := hsound
  obtain ⟨someHost, hsome⟩ := exists_documentHost hurl
  unfold UsableLine endpointOf
  rcases hform with ⟨hkeyword, -⟩ | ⟨hkeyword, rest, hrest⟩
  · rw [if_pos hkeyword, and_iff_left (by rw [hkeyword]; exact fun h => absurd h (by decide))]
    simp only [resolves_api]
    constructor
    · intro hall
      obtain ⟨uri, hparse, -⟩ := hall someHost hsome
      have hcontrol := (parse_ok_iff.mp hparse).1
      rw [String.toList_append, String.toList_ofList] at hcontrol
      exact (noControl_trimStart _).mp (noControl_append.mp hcontrol).2
    · rintro hcontrol _ ⟨url, uri, hparse, rfl⟩
      have hpath : NoControl ("/" ++ String.ofList ((targetOf line).dropWhile (· = '/'))).toList := by
        rw [String.toList_append]
        refine noControl_append.mpr ⟨by simp [NoControl], ?_⟩
        rw [String.toList_ofList]
        exact (noControl_trimStart _).mpr hcontrol
      obtain ⟨own, hown, hdomain⟩ := parse_own_ok hurl hparse (by simp [startsWith]) hpath
      rw [← String.append_assoc] at hown
      exact ⟨own, hown, hdomain⟩
  · rw [if_neg (by rw [hkeyword]; decide), forall_prop_of_true hkeyword]
    simp only [resolves_media]
    have hparse := parse_target_iff hurl hrest.symm (htrimmed.suffix_ends (targetOf_suffix line))
    exact ⟨fun hall => hparse.mp (hall someHost hsome), fun husable _ _ => hparse.mpr husable⟩

/-! ## The claim of the documentation -/

/-- The blocks that are accepted are the documented ones, and what is accepted can be used. -/
def MeansDeclarations (urlParse : String → Except String ParsedUrl) (content : String) (i : Interner) : Prop :=
  ((∃ registry i', parseUrls content i = (.ok registry, i')) ↔ DocumentedBlock content) ∧
    ∀ registry i', parseUrls content i = (.ok registry, i') →
      ∀ host, IsDocumentHost urlParse host → ∀ sym ep, registry.lookup sym = some ep → Resolves urlParse host ep

/-- If the block is sound: a keyword with several blanks behind it and a target with a blank in it stand in it
together or not at all, and without them every target can be used. -/
def UrlsKept (content : String) : Prop :=
  SoundBlock content →
    ((∀ line ∈ urlLines content, NarrowGap line) ↔
        ∀ line ∈ urlLines content, ∀ c ∈ targetOf line, isWhitespace c = false) ∧
      ((∀ line ∈ urlLines content, NarrowGap line) → ∀ line ∈ urlLines content, UsableLine line)

/-- The `urls` block means what it declares exactly under that condition. -/
theorem urls_mean_declarations_iff (hurl : FollowsStandard urlParse) {i : Interner} (hi : i.WellFormed)
    (content : String) : MeansDeclarations urlParse content i ↔ UrlsKept content := by
  obtain ⟨haccepts, hentries⟩ := parseUrls_ok_iff hi content
  have haccepts : (∃ registry i', parseUrls content i = (.ok registry, i')) ↔
      SoundBlock content ∧ ∀ line ∈ urlLines content, NarrowGap line := by
    rw [haccepts, SoundBlock, forall₂_and]
    tauto
  have hused : ∀ registry i', parseUrls content i = (.ok registry, i') →
      ((∀ host, IsDocumentHost urlParse host → ∀ sym ep, registry.lookup sym = some ep → Resolves urlParse host ep) ↔
        ∀ line ∈ urlLines content, UsableLine line) := by
    intro registry i' hrun
    have hsound := (haccepts.mp ⟨registry, i', hrun⟩).1.1
    constructor
    · intro hall line hline
      obtain ⟨sym, hsym⟩ := (hentries registry i' hrun _).mpr ⟨line, hline, rfl⟩
      exact (resolves_iff hurl (trimmed_of_declared hline) (hsound line hline)).mp fun host hhost => hall host hhost sym _ hsym
    · intro husable host hhost sym ep hsym
      obtain ⟨line, hline, rfl⟩ := (hentries registry i' hrun ep).mp ⟨sym, hsym⟩
      exact (resolves_iff hurl (trimmed_of_declared hline) (hsound line hline)).mpr (husable line hline) host hhost
  unfold MeansDeclarations UrlsKept
  rw [haccepts, documented_iff]
  constructor
  · rintro ⟨hsame, hall⟩ hsound
    refine ⟨?_, fun hnarrow => ?_⟩
    · rwa [and_iff_right hsound, and_iff_right hsound] at hsame
    · obtain ⟨registry, i', hrun⟩ := haccepts.mpr ⟨hsound, hnarrow⟩
      exact (hused registry i' hrun).mp (hall registry i' hrun)
  · intro hkept
    refine ⟨and_congr_right fun hsound => (hkept hsound).1, fun registry i' hrun => ?_⟩
    obtain ⟨hsound, hnarrow⟩ := haccepts.mp ⟨registry, i', hrun⟩
    exact (hused registry i' hrun).mpr ((hkept hsound).2 hnarrow)

/-- A media URL of one host. -/
theorem urls_mean_declarations_media : MeansDeclarations plainUrlParse "media l mizu://b/c" .new := by
  refine (urls_mean_declarations_iff plainUrlParse_follows Interner.new_wellFormed _).mpr fun _ => ?_
  have hlines : urlLines "media l mizu://b/c" = ["media l mizu://b/c".toList] := by decide
  simp only [hlines, forall_mem_singleton]
  have hnarrow : NarrowGap "media l mizu://b/c".toList := by
    intro c hc
    have hgap : (afterKeyword "media l mizu://b/c".toList)[1]? = some 'l' := by decide
    obtain rfl := Option.some.inj (hgap.symm.trans hc)
    decide
  have htarget : targetOf "media l mizu://b/c".toList = "mizu://b/c".toList := by decide
  unfold UsableLine NoControl
  rw [htarget]
  have hblank := all_eq_true.mp (show "mizu://b/c".toList.all (!isWhitespace ·) = true by decide)
  have hcontrol := all_eq_true.mp (show "mizu://b/c".toList.all
    (fun c => ¬c.toNat < 0x20 ∧ c.toNat ≠ 0x7f) = true by decide)
  refine ⟨iff_of_true hnarrow fun c hc => ?_, fun _ => ⟨fun c hc => ?_, fun _ => ⟨"b", rfl, by decide⟩⟩⟩
  · simpa using hblank c hc
  · exact of_decide_eq_true (hcontrol c hc)

/-- A keyword with three blanks behind it, as the documentation shows it, is refused; a media URL with a port is
accepted and refused when it is used. -/
theorem urls_not_as_declared :
    ¬MeansDeclarations plainUrlParse "api   p  /v" .new ∧ ¬MeansDeclarations plainUrlParse "media l mizu://b:81" .new := by
  constructor
  · rintro ⟨haccepts, -⟩
    have hlines : urlLines "api   p  /v" = ["api   p  /v".toList] := by decide
    have hdocumented : DocumentedBlock "api   p  /v" := by
      unfold DocumentedBlock
      simp only [hlines, forall_mem_singleton, map_cons, map_nil]
      refine ⟨⟨"api".toList, "   ".toList, "p".toList, "  ".toList, "/v".toList, ?_⟩, nodup_singleton _⟩
      exact ⟨rfl, all_eq_true.mp rfl, all_eq_true.mp rfl, by decide⟩
    obtain ⟨registry, i', hrun⟩ := haccepts.mpr hdocumented
    cases hrun
  · rintro ⟨-, huse⟩
    obtain ⟨host, hhost⟩ := exists_documentHost plainUrlParse_follows
    have hresolves := huse _ _ rfl host hhost ⟨0⟩ ⟨.media, "mizu://b:81"⟩ (Finmap.lookup_insert _)
    obtain ⟨uri, hparse⟩ := (resolves_media host "mizu://b:81").mp hresolves
    cases hparse

end Use

end Mizu
