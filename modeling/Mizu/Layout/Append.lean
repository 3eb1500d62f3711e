import Mizu.Layout.Parse
import Mizu.Logic.Parse.Cut

/-!
# A line with more text behind it

Attributes are read one after the other, each up to the blank behind its value. So what stands behind the attributes of
a line is read as if it stood alone.

* `parseAttributesAndEvents_append`: attributes without an event, before a blank and more text.
* `splitFirstWord_append`: the first word of a line with more text behind it.
-/

namespace Mizu

namespace Layout

open Exec List

/-! ## A line with more text behind it -/

section Append

variable {env : LayoutEnv} {s rest y : List Char} {key : String}

theorem trimStart_append (h : trimStart s ≠ []) (x : List Char) : trimStart (s ++ x) = trimStart s ++ x := by
  unfold trimStart at h ⊢
  rw [dropWhile_append, if_neg]
  simpa using h

theorem trimStart_append_of_nil (h : trimStart s = []) (x : List Char) : trimStart (s ++ x) = trimStart x := by
  unfold trimStart at h ⊢
  rw [dropWhile_append, h]
  rfl

theorem scanQuoted_append {cs content : List Char} (h : scanQuoted cs = some (content, rest)) (c : Char)
    (y : List Char) : scanQuoted (cs ++ c :: y) = some (content, rest ++ c :: y) := by
  fun_induction scanQuoted cs generalizing content rest with
  | case1 => cases h
  | case2 =>
    cases h
    rfl
  | case3 => cases h
  | case4 =>
    cases h
    rfl
  | case5 d cs hne ih =>
    obtain ⟨⟨content', rest'⟩, hscan, heq⟩ := Option.map_eq_some_iff.mp h
    cases heq
    rw [cons_append, cons_append, scanQuoted, if_neg hne, if_pos rfl, ih hscan]
    rfl
  | case6 c' d cs hquote hslash ih =>
    obtain ⟨⟨content', rest'⟩, hscan, heq⟩ := Option.map_eq_some_iff.mp h
    obtain ⟨rfl, rfl⟩ := Prod.mk.inj heq
    have hrec : scanQuoted (d :: (cs ++ c :: y)) = some (content', rest' ++ c :: y) := ih hscan
    show (if c' = '"' then _ else if c' = '\\' then _ else (scanQuoted (d :: (cs ++ c :: y))).map _) = _
    rw [if_neg hquote, if_neg hslash, hrec]
    rfl

variable {after : Rest s}

theorem parseQuotedString_ok {text : String} (h : parseQuotedString s = .ok (text, after)) :
    ∃ cs content, s = '"' :: cs ∧ scanQuoted cs = some (content, after.1) ∧ text = String.ofList content := by
  unfold parseQuotedString at h
  split at h
  · rename_i cs
    split at h
    · rename_i content rest hscan
      cases h
      exact ⟨cs, content, rfl, hscan, rfl⟩
    · cases h
  · cases h

theorem parseQuotedString_of_scan {cs content : List Char} (h : scanQuoted cs = some (content, rest)) :
    ∃ after : Rest ('"' :: cs), parseQuotedString ('"' :: cs) = .ok (String.ofList content, after) ∧ after.1 = rest := by
  simp only [parseQuotedString]
  split
  · rename_i content' rest' hscan
    obtain ⟨rfl, rfl⟩ := Prod.mk.inj (Option.some.inj (h.symm.trans hscan))
    exact ⟨_, rfl, rfl⟩
  · rename_i hscan
    rw [h] at hscan
    cases hscan

theorem parseQuotedString_append {text : String} (h : parseQuotedString s = .ok (text, after))
    (y : List Char) : ∃ after' : Rest (s ++ ' ' :: y), parseQuotedString (s ++ ' ' :: y) = .ok (text, after') ∧
      after'.1 = after.1 ++ ' ' :: y := by
  obtain ⟨cs, content, rfl, hscan, rfl⟩ := parseQuotedString_ok h
  exact parseQuotedString_of_scan (scanQuoted_append hscan ' ' y)

variable {value : String}

theorem attributeText_append (h : attributeText s = .ok (value, after))
    (hs : s ≠ []) (y : List Char) : ∃ after' : Rest (s ++ ' ' :: y), attributeText (s ++ ' ' :: y) = .ok (value, after') ∧
      after'.1 = after.1 ++ ' ' :: y := by
  have hhead : (s ++ ' ' :: y).head? = s.head? := List.head?_append_of_ne_nil _ hs
  unfold attributeText at h ⊢
  rw [hhead]
  split at h
  · rename_i hquote
    rw [if_pos hquote]
    exact parseQuotedString_append h y
  · rename_i hquote
    rw [if_neg hquote]
    cases h
    refine ⟨⟨(s ++ ' ' :: y).dropWhile (!isWhitespace ·), (dropWhile_sublist _).length_le⟩, ?_,
      dropWhile_append_stop (by decide) s y⟩
    rw [takeWhile_append_stop (by decide)]
    rfl

theorem skipEquals_append (h : skipEquals rest ≠ []) (x : List Char) : skipEquals (rest ++ x) = skipEquals rest ++ x := by
  have hrest : trimStart rest ≠ [] := by grind [skipEquals]
  unfold skipEquals at h ⊢
  rw [trimStart_append hrest]
  cases htrim : trimStart rest with
  | nil => exact absurd htrim hrest
  | cons c tail =>
    rw [htrim] at h
    by_cases hc : c = '='
    · subst hc
      exact trimStart_append h x
    · grind

theorem parseAttribute_ok {after : Rest rest} (h : parseAttribute env key rest = .ok (value, after)) :
    (key.toList.all fun c => env.isAlphanumeric c || c = '_' || c = '-') = true ∧ skipEquals rest ≠ [] ∧
      (∃ after₁ : Rest (skipEquals rest), attributeText (skipEquals rest) = .ok (value, after₁) ∧ after₁.1 = after.1) ∧
      value ≠ "" ∧ checkValue key value = .ok () := by
  unfold parseAttribute at h
  split at h
  · cases h
  · rename_i hkey
    split at h
    · cases h
    · rename_i hskip
      obtain ⟨⟨value', after₁⟩, htext, h⟩ := except_bind_ok_iff.mp h
      dsimp only at h
      split at h
      · cases h
      · rename_i hvalue
        obtain ⟨u, hcheck, h⟩ := except_bind_ok_iff.mp h
        cases h
        exact ⟨by simpa only [Bool.not_eq_true, Bool.not_eq_false'] using hkey, hskip, ⟨after₁, htext, rfl⟩, hvalue, hcheck⟩

theorem parseAttribute_of_text {a : List Char}
    (hkey : (key.toList.all fun c => env.isAlphanumeric c || c = '_' || c = '-') = true) (hskip : skipEquals rest = s)
    (hs : s ≠ []) (htext : ∃ after : Rest s, attributeText s = .ok (value, after) ∧ after.1 = a) (hvalue : value ≠ "")
    (hcheck : checkValue key value = .ok ()) :
    ∃ after : Rest rest, parseAttribute env key rest = .ok (value, after) ∧ after.1 = a := by
  subst hskip
  obtain ⟨after, htext, rfl⟩ := htext
  unfold parseAttribute
  rw [hkey, if_neg (by decide), if_neg hs, htext]
  show ∃ after₁ : Rest rest, (if value = "" then _ else checkValue key value >>= _) = _ ∧ _
  rw [if_neg hvalue, hcheck]
  exact ⟨_, rfl, rfl⟩

theorem parseAttribute_append {after : Rest rest} (h : parseAttribute env key rest = .ok (value, after))
    (y : List Char) : ∃ after' : Rest (rest ++ ' ' :: y),
      parseAttribute env key (rest ++ ' ' :: y) = .ok (value, after') ∧ after'.1 = after.1 ++ ' ' :: y := by
  obtain ⟨hkey, hskip, ⟨after₁, htext, hafter⟩, hvalue, hcheck⟩ := parseAttribute_ok h
  rw [← hafter]
  exact parseAttribute_of_text hkey (skipEquals_append hskip _) (append_ne_nil_of_left_ne_nil hskip _)
    (attributeText_append htext hskip y) hvalue hcheck

theorem arrow_append (hs : s ≠ []) : "->".toList.isPrefixOf (s ++ ' ' :: y) = "->".toList.isPrefixOf s := by
  match s with
  | [] => exact absurd rfl hs
  | [c] =>
    show ('-' == c && ('>' == ' ' && _)) = ('-' == c && false)
    rfl
  | c :: d :: s => rfl

variable {acc : AttrsAndEvents}

theorem parseAttributesAndEvents_blank (h : trimStart s = []) :
    parseAttributesAndEvents env s acc = .ok acc := by
  rw [parseAttributesAndEvents, if_pos h]
  rfl

theorem parseAttributesAndEvents_step {t key rest : List Char} (htrim : trimStart s = t)
    (ht : t ≠ []) (hkey : t.takeWhile isKeyChar = key) (hrest : t.dropWhile isKeyChar = rest) :
    parseAttributesAndEvents env s acc =
      if key = [] then fail "Expected attribute key"
      else (do
        match ← inlineEvent env (String.ofList key) rest with
        | some event => return (acc.1, acc.2.insert (String.ofList key) event)
        | none =>
          let (value, after) ← parseAttribute env (String.ofList key) rest
          parseAttributesAndEvents env after.1 (acc.1.insert (String.ofList key) value, acc.2)) := by
  subst htrim hkey hrest
  rw [parseAttributesAndEvents, if_neg ht, attributeKey]
  split
  · rfl
  · rfl

/-- A key that starts no event does not start one with more text behind its value. -/
theorem inlineEvent_append (h : inlineEvent env key rest = .ok none) (hrest : trimStart rest ≠ []) :
    inlineEvent env key (rest ++ ' ' :: y) = .ok none := by
  unfold inlineEvent at h ⊢
  rw [trimStart_append hrest, arrow_append hrest]
  split at h
  · cases h
  · rename_i hbind
    rw [if_neg hbind]
    split at h
    · cases h
    · rename_i hdownload
      rw [if_neg hdownload]
      split at h
      · rename_i hevent
        rw [if_pos hevent]
        split at h
        · rename_i harrow
          rw [if_pos harrow]
          exact h
        · dsimp only at h
          split at h
          · cases h
          · obtain ⟨action, -, h⟩ := except_bind_ok_iff.mp h
            cases h
      · rename_i hevent
        rw [if_neg hevent]
        exact h

theorem parseAttributesAndEvents_congr {s' : List Char} (h : trimStart s = trimStart s') :
    parseAttributesAndEvents env s acc = parseAttributesAndEvents env s' acc := by
  by_cases hs : trimStart s = []
  · rw [parseAttributesAndEvents_blank hs, parseAttributesAndEvents_blank (h ▸ hs)]
  · rw [parseAttributesAndEvents_step rfl hs rfl rfl, parseAttributesAndEvents_step h.symm hs rfl rfl]

theorem insert_ne_empty (events : FxHashMap String EventTree) (key : String) (event : EventTree) :
    events.insert key event ≠ ∅ := by
  grind [Finmap.lookup_insert, Finmap.lookup_empty]

/-- Attributes without an event are read before what stands behind them. -/
theorem parseAttributesAndEvents_append {a attrs : FxHashMap String String}
    (h : parseAttributesAndEvents env s (a, ∅) = .ok (attrs, ∅)) (y : List Char) :
    parseAttributesAndEvents env (s ++ ' ' :: y) (a, ∅) = parseAttributesAndEvents env y (attrs, ∅) := by
  induction hn : s.length using Nat.strong_induction_on generalizing s a with
  | _ n ih =>
    by_cases hs : trimStart s = []
    · rw [parseAttributesAndEvents_blank hs] at h
      obtain ⟨rfl, -⟩ := Prod.mk.inj (Except.ok.inj h)
      exact parseAttributesAndEvents_congr (trimStart_append_of_nil hs _)
    · have hlength := trimStart_length s
      have hsplit := congrArg List.length (takeWhile_append_dropWhile (p := isKeyChar) (l := trimStart s))
      rw [length_append] at hsplit
      rw [parseAttributesAndEvents_step rfl hs rfl rfl] at h
      rw [parseAttributesAndEvents_step (trimStart_append hs (' ' :: y)) (by simp) (takeWhile_append_stop rfl _ _)
        (dropWhile_append_stop rfl _ _)]
      split at h
      · cases h
      · rename_i hkey
        rw [if_neg hkey]
        have hpos := length_pos_iff.mpr hkey
        generalize (trimStart s).takeWhile isKeyChar = key at h hkey hpos hsplit ⊢
        generalize (trimStart s).dropWhile isKeyChar = rest at h hsplit ⊢
        obtain ⟨o, hevent, h⟩ := except_bind_ok_iff.mp h
        cases o with
        | some event =>
          have hevents := (Prod.mk.inj (Except.ok.inj h)).2
          exact absurd hevents (insert_ne_empty _ _ _)
        | none =>
          obtain ⟨⟨value, after⟩, hattribute, h⟩ := except_bind_ok_iff.mp h
          obtain ⟨-, hskip, -⟩ := parseAttribute_ok hattribute
          have hrest : trimStart rest ≠ [] := by grind [skipEquals]
          obtain ⟨after', hattribute', hafter⟩ := parseAttribute_append hattribute y
          rw [inlineEvent_append hevent hrest]
          show (parseAttribute env (String.ofList key) (rest ++ ' ' :: y) >>= _) = _
          rw [hattribute']
          show parseAttributesAndEvents env after'.1 _ = _
          rw [hafter]
          have hafter' := after.2
          exact ih after.1.length (by omega) h rfl

end Append

/-! ## Words -/

section Words

variable {line rest y : List Char}

/-- A text without white space at its ends. -/
structure Trimmed (cs : List Char) : Prop where
  ne_nil : cs ≠ []
  starts : ∀ c, cs.head? = some c → isWhitespace c = false
  ends : ∀ c, cs.getLast? = some c → isWhitespace c = false

theorem Trimmed.trimChars (h : Trimmed y) : trimChars y = y := trimChars_eq_self h.starts h.ends

theorem Trimmed.append (hline : Trimmed line) (hy : Trimmed y) : Trimmed (line ++ ' ' :: y) where
  ne_nil := append_ne_nil_of_left_ne_nil hline.ne_nil _
  starts := by
    rw [List.head?_append_of_ne_nil _ hline.ne_nil]
    exact hline.starts
  ends := by
    rw [List.getLast?_append_of_ne_nil _ (cons_ne_nil _ _), List.getLast?_cons_of_ne_nil hy.ne_nil]
    exact hy.ends

theorem trimChars_trimEnd (r : List Char) : trimChars (trimEnd r) = trimChars r := by
  obtain ⟨ws, hr, hws⟩ := trimEnd_split r
  have hblank : trimStart ws = [] := dropWhile_eq_nil_iff.mpr hws
  have hsplit : trimChars r = trimChars (trimEnd r ++ ws) := congrArg trimChars hr
  rw [hsplit, trimChars, trimChars]
  by_cases hnil : trimStart (trimEnd r) = []
  · rw [trimStart_append_of_nil hnil, hnil, hblank]
  · rw [trimStart_append hnil, trimEnd_append_blank _ hws]

/-- The text behind the first word, with more text behind it. -/
def behind (rest y : List Char) : List Char := if rest = [] then y else rest ++ ' ' :: y

theorem splitFirstWord_append (hline : Trimmed line) (hy : Trimmed y) :
    splitFirstWord (line ++ ' ' :: y) = ((splitFirstWord line).1, behind (splitFirstWord line).2 y) := by
  have hblank : (!isWhitespace ' ') = false := by decide
  unfold splitFirstWord
  dsimp only
  rw [(hline.append hy).trimChars, hline.trimChars, dropWhile_append_stop (p := fun c => !isWhitespace c) hblank,
    takeWhile_append_stop (p := fun c => !isWhitespace c) hblank]
  cases hdrop : line.dropWhile fun c => !isWhitespace c with
  | nil =>
    have hall := dropWhile_eq_nil_iff.mp hdrop
    have htake : (line.takeWhile fun c => !isWhitespace c) = line := takeWhile_eq_self_iff.mpr hall
    have hrest : trimChars (' ' :: y) = y := hy.trimChars
    rw [nil_append, htake]
    dsimp only
    rw [hline.trimChars, hrest]
    rfl
  | cons c d =>
    have hsuffix : c :: d <:+ line := hdrop ▸ dropWhile_suffix _
    have hends : ∀ x, (c :: d).getLast? = some x → isWhitespace x = false := by
      obtain ⟨before, hbefore⟩ := hsuffix
      intro x hx
      refine hline.ends x ?_
      rw [← hbefore, List.getLast?_append_of_ne_nil _ (cons_ne_nil c d)]
      exact hx
    have hne : trimStart (c :: d) ≠ [] := by
      intro hnil
      obtain ⟨x, hx⟩ : ∃ x, (c :: d).getLast? = some x := ⟨_, List.getLast?_eq_some_getLast (cons_ne_nil c d)⟩
      have hall := dropWhile_eq_nil_iff.mp hnil x (mem_of_getLast? hx)
      rw [hends x hx] at hall
      cases hall
    have hlast : ∀ x, (trimStart (c :: d)).getLast? = some x → isWhitespace x = false := by
      obtain ⟨before, hbefore⟩ := dropWhile_suffix isWhitespace (l := c :: d)
      intro x hx
      refine hends x ?_
      rw [← hbefore]
      exact (List.getLast?_append_of_ne_nil _ hne).trans hx
    have hshort : trimChars (c :: d) = trimStart (c :: d) := trimEnd_of_ends hlast
    have hlong : trimChars (c :: d ++ ' ' :: y) = trimStart (c :: d) ++ ' ' :: y := by
      rw [trimChars, trimStart_append hne, trimEnd_of_ends]
      rw [List.getLast?_append_of_ne_nil _ (cons_ne_nil _ _), List.getLast?_cons_of_ne_nil hy.ne_nil]
      exact hy.ends
    rw [cons_append] at hlong ⊢
    dsimp only
    rw [hlong, hshort, behind, if_neg hne]

theorem splitWhitespace_append (rest y : List Char) :
    splitWhitespace (String.ofList (rest ++ ' ' :: y)) =
      splitWhitespace (String.ofList rest) ++ splitWhitespace (String.ofList y) := by
  have hblank : isWhitespace ' ' = true := by decide
  simp only [splitWhitespace, String.toList_ofList]
  rw [splitOnP_append_cons _ _ hblank, filter_append, map_append]

end Words

end Layout

end Mizu
