import Mizu.Render.UrlBar
import Mizu.Security.Sandbox

/-!
# Inline completion

The completion behind the text of the bar is cut out of the first suggestion. The place of the cut is counted in bytes
of the text as typed, but the text was compared with the URL in small letters.

* `head_autocomplete`: the first suggestion is the latest visit whose URL begins with the text, if there is one.
* `completionSafe_iff`: the completion is cut out and is right if and only if the URL has what was typed in as many
  bytes as were typed.
-/

namespace Mizu

open List Option

/-! ## Letter case -/

section LetterCase

/-- The two small sigmas are one letter. -/
def smallSigma (c : Char) : Char := if c = 'ς' then 'σ' else c

namespace CaseTable

variable (table : CaseTable)

/-- A character up to letter case. -/
def fold (c : Char) : List Char := (if c = 'Σ' then ['σ'] else table.mapping c).map smallSigma

/-- A text up to letter case. -/
def foldText (cs : List Char) : List Char := cs.flatMap table.fold

theorem foldText_append (xs ys : List Char) : table.foldText (xs ++ ys) = table.foldText xs ++ table.foldText ys :=
  flatMap_append

end CaseTable

end LetterCase

/-! ## The first suggestion -/

variable {first : VisitRecord}

section Suggestions

variable {table : CaseTable} {records : List VisitRecord} {typed : String}

/-- The URL begins with the text, with or without its scheme. -/
def beginsWith (table : CaseTable) (typed : String) (record : VisitRecord) : Bool :=
  startsWith (table.toLowercase typed) (table.toLowercase record.url) ||
    startsWith (table.toLowercase typed) (withoutScheme (table.toLowercase record.url))

/-- One more record, unless its URL is there. -/
def addUrl (seen : List VisitRecord) (record : VisitRecord) : List VisitRecord :=
  if seen.any (·.url = record.url) then seen else seen ++ [record]

/-- Of the records with one URL the first stays, so nothing that depends on the URL is found later than before. -/
theorem find?_foldl_addUrl {p : VisitRecord → Bool} (hp : ∀ a b : VisitRecord, a.url = b.url → p a = p b)
    (seen found : List VisitRecord) :
    (found.foldl addUrl seen).find? p = (seen.find? p).or (found.find? p) := by
  induction found generalizing seen with
  | nil => simp
  | cons record found ih =>
    rw [foldl_cons, ih, addUrl]
    split
    · grind [List.find?_isSome, or_of_isSome]
    · rw [List.find?_append, Option.or_assoc]
      congr 1
      rw [List.find?_cons, List.find?_cons]
      cases p record <;> rfl

theorem mem_foldl_addUrl {seen found : List VisitRecord} {record : VisitRecord}
    (h : record ∈ found.foldl addUrl seen) : record ∈ seen ∨ record ∈ found := by
  induction found generalizing seen with
  | nil => exact .inl h
  | cons other found ih =>
    rcases ih h with hseen | hfound
    · unfold addUrl at hseen
      split at hseen
      · exact .inl hseen
      · rcases mem_append.mp hseen with hseen | hother
        · exact .inl hseen
        · exact .inr (mem_singleton.mp hother ▸ mem_cons_self)
    · exact .inr (mem_cons_of_mem other hfound)

theorem beginsWith_congr (a b : VisitRecord) (h : a.url = b.url) : beginsWith table typed a = beginsWith table typed b := by
  unfold beginsWith
  rw [h]

/-- Suggestions are visits, those first whose URL begins with the text. -/
theorem autocomplete_eq (hne : typed ≠ "") (limit : Nat) :
    ∃ found : List VisitRecord, found.find? (beginsWith table typed) = records.find? (beginsWith table typed) ∧
      (∀ record ∈ found, record ∈ records) ∧
      autocomplete table records typed limit =
        (found.filter (beginsWith table typed) ++ found.filter (!beginsWith table typed ·)).take limit := by
  refine ⟨(records.filter fun record => beginsWith table typed record ||
    decide ((table.toLowercase typed).toList <:+: (table.toLowercase record.url).toList) ||
      decide ((table.toLowercase typed).toList <:+: (table.toLowercase record.title).toList)).foldl addUrl [], ?_, ?_, ?_⟩
  · rw [find?_foldl_addUrl beginsWith_congr, List.find?_nil, none_or, List.find?_filter]
    congr 1
    funext record
    cases beginsWith table typed record <;> simp
  · intro record hrecord
    rcases mem_foldl_addUrl hrecord with hnil | hfound
    · cases hnil
    · exact (mem_filter.mp hfound).1
  · rw [autocomplete, if_neg hne]
    rfl

/-- The first suggestion is the latest visit whose URL begins with the text. -/
theorem head_autocomplete (hne : typed ≠ "")
    (hfirst : records.find? (beginsWith table typed) = some first) (limit : Nat) :
    (autocomplete table records typed (limit + 1)).head? = some first := by
  obtain ⟨found, hfind, -, heq⟩ := @autocomplete_eq table records typed hne (limit + 1)
  rw [hfirst, ← List.head?_filter] at hfind
  rw [heq, List.head?_take, if_neg (Nat.succ_ne_zero limit), List.head?_append, hfind]
  rfl

/-- Without such a visit no suggestion begins with the text. -/
theorem not_beginsWith_of_mem_autocomplete {record : VisitRecord} {limit : Nat}
    (hnone : records.find? (beginsWith table typed) = none) (hmem : record ∈ autocomplete table records typed limit) :
    beginsWith table typed record = false := by
  by_cases hne : typed = ""
  · rw [autocomplete, if_pos hne] at hmem
    cases hmem
  · obtain ⟨found, -, hsub, heq⟩ := @autocomplete_eq table records typed hne limit
    rw [heq] at hmem
    have hfound : record ∈ found := by grind
    exact Bool.eq_false_iff.mpr (List.find?_eq_none.mp hnone record (hsub record hfound))

end Suggestions

/-! ## The cut -/

section Cut

variable (table : CaseTable)

/-- The same letters. -/
def SameLetters (a b : String) : Prop := table.foldText a.toList = table.foldText b.toList

/-- The scheme that `withoutScheme` takes away. -/
def schemeOf (urlLower : String) : String :=
  (["mizu://", "file://", "https://", "http://"].find? fun scheme => startsWith scheme urlLower).getD ""

/-- The text is the URL, with or without its scheme. -/
def IsUrl (url text : String) : Prop :=
  SameLetters table text url ∨ SameLetters table (schemeOf (table.toLowercase url) ++ text) url

/-- The first bytes of the URL are whole characters, and what was typed, with or without the scheme in front. -/
def HasTyped (url typed : String) (bytes : Nat) : Prop :=
  ∃ before after, url.toList = before ++ after ∧ byteLength before = bytes ∧
    (table.foldText before = table.foldText typed.toList ∨
      table.foldText before = table.foldText (schemeOf (table.toLowercase url) ++ typed).toList)

/-- The URL has what was typed where the completion is cut off. -/
def CompletionFits (url typed : String) : Prop :=
  let urlLower := table.toLowercase url
  let typedLower := table.toLowercase typed
  let bare := withoutScheme urlLower
  if startsWith typedLower urlLower then HasTyped table url typed (strLen typed)
  else if startsWith typedLower bare then
    strLen bare ≤ strLen url ∧ HasTyped table url typed (strLen url - strLen bare + strLen typed)
  else True

variable {table} {url typed : String}

theorem sliceFrom_eq_some_iff {s rest : String} {lo : Nat} :
    sliceFrom s lo = some rest ↔ ∃ before, s.toList = before ++ rest.toList ∧ byteLength before = lo := by
  unfold sliceFrom
  rw [map_eq_some_iff]
  constructor
  · rintro ⟨⟨before, after⟩, hsplit, rfl⟩
    obtain ⟨hs, hlen⟩ := append_of_splitBytes hsplit
    exact ⟨before, by rw [hs, String.toList_ofList], hlen⟩
  · rintro ⟨before, hs, rfl⟩
    exact ⟨(before, rest.toList), by rw [hs, splitBytes_of_append], String.ofList_toList⟩

/-- The cut gives the URL if and only if the URL has what was typed before it. -/
theorem hasTyped_iff {bytes : Nat} :
    HasTyped table url typed bytes ↔ ∃ rest, sliceFrom url bytes = some rest ∧ IsUrl table url (typed ++ rest) := by
  have hsame : ∀ {before after : List Char} (text : String), url.toList = before ++ after →
      (SameLetters table (text ++ String.ofList after) url ↔
        table.foldText before = table.foldText text.toList) := by
    intro before after text hurl
    rw [SameLetters, hurl, String.toList_append, String.toList_ofList, table.foldText_append, table.foldText_append,
      append_cancel_right_eq]
    exact eq_comm
  constructor
  · rintro ⟨before, after, hurl, hbytes, htyped⟩
    refine ⟨String.ofList after, sliceFrom_eq_some_iff.mpr ⟨before, by rw [hurl, String.toList_ofList], hbytes⟩, ?_⟩
    rw [IsUrl, ← String.append_assoc, hsame typed hurl, hsame _ hurl]
    exact htyped
  · rintro ⟨rest, hslice, hrest⟩
    obtain ⟨before, hurl, hbytes⟩ := sliceFrom_eq_some_iff.mp hslice
    refine ⟨before, rest.toList, hurl, hbytes, ?_⟩
    rw [IsUrl, ← String.append_assoc, ← String.ofList_toList (s := rest), hsame typed hurl, hsame _ hurl] at hrest
    exact hrest

/-- The subtraction of the two lengths, if it is made, does not underflow. -/
def LengthsOrdered (table : CaseTable) (first : VisitRecord) (typed : String) : Prop :=
  startsWith (table.toLowercase typed) (table.toLowercase first.url) = false →
    startsWith (table.toLowercase typed) (withoutScheme (table.toLowercase first.url)) = true →
    strLen (withoutScheme (table.toLowercase first.url)) ≤ strLen first.url

theorem completionFits_iff : CompletionFits table first.url typed ↔ LengthsOrdered table first typed ∧
      ∃ completion, inlineCompletionOf table first typed = some completion ∧
        ∀ c ∈ completion, IsUrl table first.url (typed ++ c) := by
  have hcut : ∀ bytes, HasTyped table first.url typed bytes ↔
      ∃ completion, (sliceFrom first.url bytes).map some = some completion ∧
        ∀ c ∈ completion, IsUrl table first.url (typed ++ c) := by
    intro bytes
    rw [hasTyped_iff]
    constructor
    · simp
    · simp
  unfold CompletionFits LengthsOrdered inlineCompletionOf
  dsimp only
  cases hurl : startsWith (table.toLowercase typed) (table.toLowercase first.url) with
  | true => grind
  | false =>
    cases hbare : startsWith (table.toLowercase typed) (withoutScheme (table.toLowercase first.url)) with
    | true => grind
    | false => simp

/-- Nothing typed is had by every URL. -/
theorem completionFits_empty (url : String) : CompletionFits table url "" := by
  have hstarts : startsWith (table.toLowercase "") (table.toLowercase url) = true := rfl
  unfold CompletionFits
  dsimp only
  rw [if_pos hstarts]
  exact ⟨[], url.toList, rfl, rfl, .inl rfl⟩

end Cut

/-! ## After a key press -/

section Keys

/-- The suggestions and the completion are found, and the completion, if there is one, continues the text to the first
suggestion. -/
structure CompletionSafe (table : CaseTable) (records : List VisitRecord) (bar : UrlBar) : Prop where
  total : ∃ bar', bar.suggest table records = some bar'
  ordered : ∀ first ∈ (autocomplete table records bar.url 6).head?, LengthsOrdered table first bar.url
  correct : ∀ bar', bar.suggest table records = some bar' → ∀ c ∈ bar'.inlineCompletion,
    ∃ first ∈ bar'.suggestions.head?, IsUrl table first.url (bar.url ++ c)

variable {table : CaseTable} {records : List VisitRecord} {bar : UrlBar}

theorem completionSafe_of_none (h : autocomplete table records bar.url 6 = []) : CompletionSafe table records bar := by
  have hsuggest : bar.suggest table records =
      some { bar with suggestions := [], selectedSuggestion := none, inlineCompletion := none } := by
    rw [UrlBar.suggest, h]
  refine ⟨⟨_, hsuggest⟩, by simp [h], ?_⟩
  intro bar' hbar' c hc
  rw [hsuggest] at hbar'
  cases hbar'
  cases hc

theorem completionSafe_cons_iff {others : List VisitRecord}
    (h : autocomplete table records bar.url 6 = first :: others) :
    CompletionSafe table records bar ↔ CompletionFits table first.url bar.url := by
  have hsuggest : bar.suggest table records = (inlineCompletionOf table first bar.url).map fun inlineCompletion =>
      { bar with suggestions := first :: others, selectedSuggestion := none, inlineCompletion } := by
    rw [UrlBar.suggest, h]
  rw [completionFits_iff]
  constructor
  · rintro ⟨⟨bar', hbar'⟩, hordered, hcorrect⟩
    have hcorrect := hcorrect bar' hbar'
    rw [hsuggest] at hbar'
    obtain ⟨completion, hcompletion, rfl⟩ := map_eq_some_iff.mp hbar'
    refine ⟨hordered first (by rw [h]; rfl), completion, hcompletion, fun c hc => ?_⟩
    obtain ⟨_, hfirst, hurl⟩ := hcorrect c hc
    cases hfirst
    exact hurl
  · rintro ⟨hordered, completion, hcompletion, hcorrect⟩
    rw [hcompletion, map_some] at hsuggest
    refine ⟨⟨_, hsuggest⟩, ?_, ?_⟩
    · rw [h]
      rintro _ ⟨⟩
      exact hordered
    · grind

/-- The completion is safe if and only if the latest visit whose URL begins with the text has, in as many bytes, what
was typed. -/
theorem completionSafe_iff (table : CaseTable) (records : List VisitRecord) (bar : UrlBar) :
    CompletionSafe table records bar ↔
      ∀ record, records.find? (beginsWith table bar.url) = some record → CompletionFits table record.url bar.url := by
  by_cases hne : bar.url = ""
  · have hnone : autocomplete table records bar.url 6 = [] := by
      rw [autocomplete, if_pos hne]
    refine iff_of_true (completionSafe_of_none hnone) fun record _ => ?_
    rw [hne]
    exact completionFits_empty record.url
  cases hfind : records.find? (beginsWith table bar.url) with
  | some first =>
    have hhead := head_autocomplete hne hfind 5
    obtain ⟨others, hsuggestions⟩ := List.head?_eq_some_iff.mp hhead
    rw [completionSafe_cons_iff hsuggestions]
    exact ⟨fun h record hrecord => some.inj hrecord ▸ h, fun h => h first rfl⟩
  | none =>
    refine iff_of_true ?_ nofun
    cases hsuggestions : autocomplete table records bar.url 6 with
    | nil => exact completionSafe_of_none hsuggestions
    | cons first others =>
      -- What is found elsewhere than at the beginning is not completed.
      have hfirst := not_beginsWith_of_mem_autocomplete hfind (hsuggestions ▸ mem_cons_self)
      obtain ⟨hurl, hbare⟩ := Bool.or_eq_false_iff.mp hfirst
      rw [completionSafe_cons_iff hsuggestions, CompletionFits]
      simp only [hurl, hbare, Bool.false_eq_true, if_false]

/-- Lower-casing with the Kelvin sign, whose small letter has fewer bytes. -/
def kelvinTable : CaseTable where
  mapping c := if c = '\u212a' then ['k'] else [c.toLower]
  cased c := c.isAlpha || c = '\u212a'
  caseIgnorable c := [0x27, 0x2e, 0x3a, 0x5e, 0x60].contains c.toNat
  mapping_ascii c hc := by
    rw [if_neg]
    rintro rfl
    exact absurd hc (by decide)
  cased_ascii c hc := by
    have hne : c ≠ '\u212a' := by
      rintro rfl
      exact absurd hc (by decide)
    simp [hne]
  caseIgnorable_ascii := punctuation_ascii

/-- The bar after a Kelvin sign was typed. -/
def kelvinBar : UrlBar where
  url := "\u212a"
  committedUrl := "mizu://a"
  loading := false
  focused := true
  cursor := 3
  selection := none
  suggestions := []
  selectedSuggestion := none
  inlineCompletion := none

/-- The completion of a Kelvin sign to a URL with a `k` is cut off behind the end of the URL. -/
theorem completion_not_safe :
    kelvinBar.suggest kelvinTable [⟨"mizu://k", ""⟩] = none ∧
      ¬∀ (table : CaseTable) (records : List VisitRecord) (bar : UrlBar), CompletionSafe table records bar := by
  have hnone : kelvinBar.suggest kelvinTable [⟨"mizu://k", ""⟩] = none := by
    rfl
  refine ⟨hnone, fun hall => ?_⟩
  obtain ⟨bar', hbar'⟩ := (hall kelvinTable [⟨"mizu://k", ""⟩] kelvinBar).total
  rw [hnone] at hbar'
  cases hbar'

end Keys

end Mizu
