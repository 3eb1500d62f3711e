import Mizu.Logic.Parse.Assignment
import Mizu.Logic.Parse.Locality

/-!
# Cutting an action

A network call is cut at its first commas before its arguments are tokenised, and an action is taken for an assignment
by the first bare `=` in its text.

* `CallText.parse_text_ok_iff`: a call has the expressions that stand in it if its payload has no comma.
* `actionSplit_exact`: which calls are cut right, and which actions are taken right.
-/

namespace Mizu

open List

/-! ## Text before a comma -/

section Trim

variable {cs ws xs : List Char} {n : Nat} {last : Option Token} {toks toks' more : List Token}

theorem operatorToken_not_blank {c : Char} {next : Option Char} {r : Token × Nat} (h : operatorToken c next = some r) :
    isWhitespace c = false := by
  unfold operatorToken at h
  iterate 22
    refine of_ite h (fun hc heq => ?_) fun _ h => ?_
    · first
        | exact hc ▸ rfl
        | exact hc.1 ▸ rfl
  cases h

theorem isIdentStart_of_endsToken {c : Char} (h : endsToken c = true) : isIdentStart c = false := by
  have hident := (endsToken_stops h).2
  have hdollar : c ≠ '$' := endsToken_not h (by decide)
  simp only [isIdentChar, Bool.or_eq_false_iff] at hident
  simp [isIdentStart, hident, hdollar]

theorem lexStep_blank {c : Char} {rest : List Char} {o : Option Token} (hc : isWhitespace c = true)
    (h : lexStep n last c cs = .ok (o, rest)) : o = none ∧ rest = cs := by
  have hends : endsToken c = true := by rw [endsToken, hc, Bool.or_true]
  have hquote : c ≠ '"' := endsToken_not hends (by decide)
  have hminus : c ≠ '-' := endsToken_not hends (by decide)
  have hdigit := isAsciiDigit_of_endsToken hends
  have hstart := isIdentStart_of_endsToken hends
  have hnumber : ¬ (isAsciiDigit c = true ∨ c = '-' ∧ cs.head?.any isAsciiDigit = true) := by simp [hdigit, hminus]
  unfold lexStep at h
  by_cases hblank : c = ' ' ∨ c = '\t'
  · rw [if_pos hblank] at h
    cases h
    exact ⟨rfl, rfl⟩
  · rw [if_neg hblank, if_neg hquote, if_neg hnumber, if_neg (by simp [hstart])] at h
    split at h
    · next hop =>
      rw [operatorToken_not_blank hop] at hc
      cases hc
    · cases h

theorem LexesFrom.comma (hws : ∀ c ∈ ws, isWhitespace c = true) (h : LexesFrom n last (ws ++ ',' :: xs) toks) :
    ∃ more, toks = .comma :: more := by
  induction ws with
  | nil =>
    cases h with
    | skip hstep _ => cases hstep
    | token hstep _ =>
      cases hstep
      exact ⟨_, rfl⟩
  | cons c ws ih =>
    obtain ⟨hc, hws⟩ := forall_mem_cons.mp hws
    cases h with
    | skip hstep hmore =>
      obtain ⟨-, rfl⟩ := lexStep_blank hc hstep
      exact ih hws hmore
    | token hstep _ => cases (lexStep_blank hc hstep).1

/-- The tokens before a comma, which white space may precede. -/
theorem LexesFrom.split_comma (h : LexesFrom n last cs toks) (hws : ∀ c ∈ ws, isWhitespace c = true)
    (h' : LexesFrom n last (cs ++ (ws ++ ',' :: xs)) toks') : ∃ more, toks' = toks ++ .comma :: more := by
  obtain ⟨x, xs', hcons⟩ := exists_cons_of_ne_nil (show ws ++ ',' :: xs ≠ [] by simp)
  have hx : endsToken x = true := by
    cases ws with
    | nil =>
      cases hcons
      rfl
    | cons c ws =>
      cases hcons
      rw [endsToken, hws _ mem_cons_self, Bool.or_true]
  rw [hcons] at h'
  obtain ⟨last', more, rfl, hmore⟩ := h.split hx h'
  rw [← hcons] at hmore
  obtain ⟨more', rfl⟩ := hmore.comma hws
  exact ⟨more', rfl⟩

end Trim

/-! ## The texts of expressions -/

section Standalone

variable {env : ParseEnv} {cs : List Char} {t : Tree}

theorem structural_of_assertCursorEmpty {rest : List Token} {context : String}
    (h : assertCursorEmpty rest context = .ok ()) : ∀ tok ∈ rest, tok.isStructural = true := by
  grind [assertCursorEmpty, dropWhile_eq_nil_iff]

theorem tokDepth_structural {toks : List Token} (h : ∀ tok ∈ toks, tok.isStructural = true) (d : Nat) :
    tokDepth d toks = some d := by
  induction toks with
  | nil => rfl
  | cons tok toks ih =>
    obtain ⟨htok, htoks⟩ := forall_mem_cons.mp h
    have hdepth : tok.depth d = some d := by cases tok <;> first | rfl | cases htok
    rw [tokDepth, hdepth, Option.bind_some, ih htoks]

theorem standalone_tokens (hline : OneLine cs) (h : parseExprStandalone env (String.ofList cs) = .ok t) :
    ∃ toks rest, LexesFrom 1 none cs toks ∧ parseExprTree env (toks ++ [.newline]) = .ok (t, rest) ∧
      ∀ tok ∈ rest, tok.isStructural = true := by
  grind [parseExprStandalone, lex_line_ok_iff, structural_of_assertCursorEmpty]

/-- An expression opens and closes its own parentheses. -/
theorem standalone_passes (hline : OneLine cs) (h : parseExprStandalone env (String.ofList cs) = .ok t) (d : Nat) :
    Passes cs d d := by
  obtain ⟨toks, rest, htoks, hparse, hrest⟩ := standalone_tokens hline h
  obtain ⟨used, hused, hdepth⟩ := parseExpr_eats hparse
  refine htoks.passes ?_
  have hall : (tokDepth d toks).bind (tokDepth · [.newline]) = some d := by
    rw [← tokDepth_append, hused, tokDepth_append, hdepth, Option.bind_some, tokDepth_structural hrest]
  obtain ⟨d', hd', hnewline⟩ := Option.bind_eq_some_iff.mp hall
  cases hnewline
  exact hd'

end Standalone

section Arg

variable {env : ActionEnv} {cs : List Char} {t : Tree}

theorem parseArg_standalone (hline : OneLine cs)
    (h : parseExprStandalone env.toParseEnv (String.ofList cs) = .ok t) : parseArg env cs = .ok (some t) := by
  obtain ⟨toks, rest, htoks, hparse, -⟩ := standalone_tokens hline h
  rw [parseArg, isEmpty_eq_false_iff.mpr hline.nonempty, if_neg (by simp),
    (lex_line_ok_iff hline).mpr ⟨toks, htoks, rfl⟩]
  dsimp only
  rw [hparse]

theorem parseArg_cut {before after : List Char} (hline : OneLine cs)
    (h : parseExprStandalone env.toParseEnv (String.ofList cs) = .ok t) (hcs : cs = before ++ ',' :: after)
    (t' : Tree) : parseArg env (trimChars before) ≠ .ok (some t') := by
  obtain ⟨toks, rest, htoks, hparse, hrest⟩ := standalone_tokens hline h
  have hstarts : ∀ c, before.head? = some c → isWhitespace c = false := by
    intro c hc
    refine hline.starts c ?_
    rw [hcs, List.head?_append, hc, Option.some_or]
  rw [trimChars, trimStart_of_starts hstarts]
  obtain ⟨ws, hbefore, hws⟩ := trimEnd_split before
  have hends := trimEnd_ends before
  generalize trimEnd before = q at hbefore hends ⊢
  subst hbefore
  intro harg
  rw [parseArg] at harg
  split at harg
  · cases harg
  · next hne =>
    have hq : q ≠ [] := fun hnil => hne (isEmpty_iff.mpr hnil)
    have hqline : OneLine q := by
      refine ⟨hq, fun hmem => hline.noBreak ?_, fun c hc => hstarts c ?_, hends⟩
      · rw [hcs]
        simp [hmem]
      · rw [List.head?_append, hc, Option.some_or]
    split at harg
    · cases harg
    · next hlex =>
      obtain ⟨toks₁, htoks₁, rfl⟩ := (lex_line_ok_iff hqline).mp hlex
      split at harg
      · cases harg
      · next ts hparse₁ =>
        rw [hcs, append_assoc] at htoks
        obtain ⟨more, rfl⟩ := htoks₁.split_comma hws htoks
        rw [append_assoc] at hparse
        have hcut : CutAt (toks₁ ++ [.newline]) (toks₁ ++ .comma :: (more ++ [.newline])) :=
          .append toks₁ (.here [] _)
        obtain ⟨rest', hparse', hrest'⟩ := parseExpr_cut _ _ _ hparse₁ hcut
        cases hparse.symm.trans hparse'
        cases hrest _ hrest'.comma_mem

end Arg

/-! ## Network calls -/

/-- A network call with an alias, a payload and a path parameter, as it is written in an action. -/
structure CallText (env : ActionEnv) where
  method : NetworkMethod
  aliasName : List Char
  payload : List Char
  pathParam : List Char
  arrowRhs : List Char
  payloadTree : Tree
  pathTree : Tree
  target : CallTarget
  aliasIdent : IsIdent aliasName
  declared : checkAlias env method (String.ofList aliasName) = .ok ()
  payloadLine : OneLine payload
  payloadExpr : parseExprStandalone env.toParseEnv (String.ofList payload) = .ok payloadTree
  pathLine : OneLine pathParam
  pathExpr : parseExprStandalone env.toParseEnv (String.ofList pathParam) = .ok pathTree
  targetLine : OneLine arrowRhs
  targetParsed : parseCallTarget env method arrowRhs = .ok target

namespace CallText

variable {env : ActionEnv} (call : CallText env)

/-- `payload, path_param`. -/
def values : List Char := call.payload ++ ',' :: ' ' :: call.pathParam

/-- `alias, payload, path_param`. -/
def args : List Char := call.aliasName ++ ',' :: ' ' :: call.values

/-- `METHOD(alias, payload, path_param) -> target`. -/
def text : List Char :=
  call.method.asStr.toList ++ '(' :: (call.args ++ ')' :: ' ' :: '-' :: '>' :: ' ' :: call.arrowRhs)

/-- The call with the expressions that stand in it. -/
def action : ActionTree :=
  .networkCall call.method (String.ofList call.aliasName) (some call.payloadTree) (some call.pathTree)
    call.target.targetVar call.target.format call.target.headers

end CallText

section Ident

variable {cs : List Char} (h : IsIdent cs)
include h

theorem IsIdent.oneLine : OneLine cs := by
  have hblank : ∀ c ∈ cs, isWhitespace c = false := by
    intro c hc
    refine Bool.eq_false_iff.mpr fun hblank => ?_
    have hends : endsToken c = true := by rw [endsToken, hblank, Bool.or_true]
    refine h.forall_mem (p := fun d => endsToken d = true → False) (fun d hd he => ?_) (fun d hd he => ?_) c hc hends
    · rw [isIdentStart_of_endsToken he] at hd
      cases hd
    · rw [(endsToken_stops he).2] at hd
      cases hd
  refine ⟨?_, h.not_mem rfl rfl, fun c hc => hblank c (mem_of_head? hc), fun c hc => ?_⟩
  · obtain ⟨c, rest, rfl, -⟩ := h.exists_cons
    exact cons_ne_nil c rest
  · exact hblank c (mem_of_getLast? hc)

theorem IsIdent.passes (d : Nat) : Passes cs d d :=
  passes_all_silent (h.forall_mem (fun _ hc => isSilent_of rfl rfl rfl hc) fun _ hc => isSilent_of_isIdentChar hc) d

end Ident

theorem actionForm_method (method : NetworkMethod) (rest : List Char) :
    actionForm (method.asStr.toList ++ '(' :: rest) = .networkCall method ('(' :: rest) := by
  cases method <;> rfl

theorem splitOnce_of_not_mem {c : Char} {before : List Char} (h : c ∉ before) (after : List Char) :
    splitOnce c (before ++ c :: after) = some (before, after) := by
  induction before with
  | nil => simp [splitOnce]
  | cons d before ih =>
    obtain ⟨hd, hbefore⟩ := not_or.mp (mt mem_cons.mpr h)
    rw [cons_append, splitOnce, if_neg (Ne.symm hd), ih hbefore]
    rfl

namespace CallText

variable {env : ActionEnv} (call : CallText env)

theorem passes_args : Passes call.args 0 0 := by
  have hpayload := standalone_passes call.payloadLine call.payloadExpr 0
  have hpath := standalone_passes call.pathLine call.pathExpr 0
  have hgap : Passes [',', ' '] 0 0 := (passes_silent rfl 0).append (passes_silent rfl 0)
  exact call.aliasIdent.passes 0 |>.append <| hgap.append <| hpayload.append <| hgap.append hpath

theorem findMatchingParen_args (after : List Char) :
    findMatchingParen 0 false (call.args ++ ')' :: ' ' :: after) = some (call.args, ' ' :: after) := by
  rw [call.passes_args]
  simp [findMatchingParen]

theorem trimChars_text : trimChars call.text = call.text := by
  refine trimChars_eq_self (fun c hc => ?_) fun c hc => ?_
  · rw [text] at hc
    cases hmethod : call.method <;> rw [hmethod] at hc <;> cases hc <;> rfl
  · refine call.targetLine.ends c ?_
    have htext : call.text =
        call.method.asStr.toList ++ '(' :: (call.args ++ [')', ' ', '-', '>', ' ']) ++ call.arrowRhs := by simp [text]
    rw [htext, List.getLast?_append_of_ne_nil _ call.targetLine.nonempty] at hc
    exact hc

theorem trimChars_args : trimChars call.args = call.args := by
  refine trimChars_eq_self (fun c hc => ?_) fun c hc => ?_
  · grind [args, call.aliasIdent.exists_cons, call.aliasIdent.oneLine.starts]
  · refine call.pathLine.ends c ?_
    have hargs : call.args = call.aliasName ++ ',' :: ' ' :: (call.payload ++ [',', ' ']) ++ call.pathParam := by
      simp [args, values]
    rw [hargs, List.getLast?_append_of_ne_nil _ call.pathLine.nonempty] at hc
    exact hc

/-- A call is parsed by what stands before and after the first comma behind its alias. -/
theorem parseActionWithUrls_text {before after : List Char} (hvalues : ' ' :: call.values = before ++ ',' :: after)
    (hbefore : ',' ∉ before) :
    parseActionWithUrls env call.text =
      match parseSlots env call.method (trimChars before) (trimChars after) with
      | .error e => .error e
      | .ok (payload, pathParam) =>
        .ok (.networkCall call.method (String.ofList call.aliasName) payload pathParam call.target.targetVar
          call.target.format call.target.headers) := by
  have hcomma : ',' ∉ call.aliasName := call.aliasIdent.not_mem rfl rfl
  have hparts : splitn ',' 2 call.args = [call.aliasName, before, after] := by
    grind [args, splitn, splitOnce_of_not_mem]
  have halias : trimChars call.aliasName = call.aliasName := call.aliasIdent.oneLine.trimChars
  have hnamed : String.ofList call.aliasName ≠ "" := by
    intro hempty
    exact call.aliasIdent.oneLine.nonempty (String.ofList_injective hempty)
  have harrow : trimChars (' ' :: '-' :: '>' :: ' ' :: call.arrowRhs) = '-' :: '>' :: ' ' :: call.arrowRhs := by
    show trimChars ('-' :: '>' :: ' ' :: call.arrowRhs) = _
    refine trimChars_eq_self (fun c hc => ?_) fun c hc => ?_
    · cases hc
      rfl
    · refine call.targetLine.ends c ?_
      rw [show '-' :: '>' :: ' ' :: call.arrowRhs = ['-', '>', ' '] ++ call.arrowRhs from rfl,
        List.getLast?_append_of_ne_nil _ call.targetLine.nonempty] at hc
      exact hc
  have hprefix : "->".toList.isPrefixOf ('-' :: '>' :: ' ' :: call.arrowRhs) = true := rfl
  have htarget : trimChars (' ' :: call.arrowRhs) = call.arrowRhs := call.targetLine.trimChars
  have hopen : splitOnce '(' ('(' :: (call.args ++ ')' :: ' ' :: '-' :: '>' :: ' ' :: call.arrowRhs)) =
      some ([], call.args ++ ')' :: ' ' :: '-' :: '>' :: ' ' :: call.arrowRhs) := by simp [splitOnce]
  rw [parseActionWithUrls, call.trimChars_text, text, actionForm_method]
  dsimp only
  rw [parseNetworkCall, hopen]
  dsimp only
  rw [call.findMatchingParen_args]
  dsimp only
  rw [harrow, if_pos hprefix, drop_succ_cons, drop_succ_cons, drop_zero, htarget, call.targetParsed]
  dsimp only
  rw [call.trimChars_args, hparts, map_cons, headD_cons, halias, if_neg hnamed, call.declared]
  rfl

/-- The payload of a call is what stands before the first comma. -/
theorem parseSlots_payload {method : NetworkMethod} {second third : List Char} {payload : Tree}
    {pathParam : Option Tree} (h : parseSlots env method second third = .ok (some payload, pathParam)) :
    method.hasBody = true ∧ parseArg env second = .ok (some payload) := by
  grind [parseSlots]

/-- A call has the expressions that stand in it if its method has a body and its payload no comma. -/
theorem parse_text_ok_iff :
    parseActionWithUrls env call.text = .ok call.action ↔ call.method.hasBody = true ∧ ',' ∉ call.payload := by
  have hpayload := parseArg_standalone call.payloadLine call.payloadExpr
  have hpath := parseArg_standalone call.pathLine call.pathExpr
  have hparsed : ∀ {before after : List Char}, ' ' :: call.values = before ++ ',' :: after → ',' ∉ before →
      parseActionWithUrls env call.text = .ok call.action →
      call.method.hasBody = true ∧ parseArg env (trimChars before) = .ok (some call.payloadTree) := by
    intro before after hvalues hbefore h
    rw [call.parseActionWithUrls_text hvalues hbefore] at h
    split at h
    · cases h
    · next hslots =>
      cases h
      exact parseSlots_payload hslots
  cases hsplit : splitOnce ',' call.payload with
  | none =>
    have hnone := splitOnce_none.mp hsplit
    have hvalues : ' ' :: call.values = (' ' :: call.payload) ++ ',' :: ' ' :: call.pathParam := rfl
    have hbefore : ',' ∉ ' ' :: call.payload := by simp [hnone]
    refine ⟨fun h => ⟨(hparsed hvalues hbefore h).1, hnone⟩, fun ⟨hbody, _⟩ => ?_⟩
    have htrim : trimChars (' ' :: call.payload) = call.payload := call.payloadLine.trimChars
    have htrim' : trimChars (' ' :: call.pathParam) = call.pathParam := call.pathLine.trimChars
    rw [call.parseActionWithUrls_text hvalues hbefore, htrim, htrim', parseSlots, if_pos hbody, hpayload, hpath]
    rfl
  | some r =>
    obtain ⟨before, after⟩ := r
    obtain ⟨hcut, hnot⟩ := splitOnce_append hsplit
    have hvalues : ' ' :: call.values = (' ' :: before) ++ ',' :: (after ++ ',' :: ' ' :: call.pathParam) := by
      simp [values, hcut]
    have hbefore : ',' ∉ ' ' :: before := by simp [hnot]
    refine ⟨fun h => ?_, fun ⟨_, hnone⟩ => absurd (by rw [hcut]; simp) hnone⟩
    have harg := (hparsed hvalues hbefore h).2
    exact absurd harg (parseArg_cut call.payloadLine call.payloadExpr hcut _)

end CallText

/-! ## Actions -/

/-- A network call has the expressions that stand in it if its method has a body and its payload no comma. An action is
taken for an assignment by its start, unless a word with a space comes in the way or a bare `=` comes later. -/
theorem actionSplit_exact (env : ActionEnv) :
    (∀ call : CallText env, parseActionWithUrls env call.text = .ok call.action ↔
      call.method.hasBody = true ∧ ',' ∉ call.payload) ∧
    ∀ s : List Char, (IsAssignment (trimChars s) ↔ StartsAssignment (trimChars s)) ↔
      (StartsAssignment (trimChars s) → ¬ StartsSpacedWord (trimChars s)) ∧
        (¬ StartsAssignment (trimChars s) → StartsOther (trimChars s) ∨ ¬ HasBareEq (trimChars s)) :=
  ⟨fun call => call.parse_text_ok_iff, fun s => isAssignment_iff_startsAssignment (trimChars s)⟩

def splitEnv : ActionEnv where
  maxParseDepth := 256
  scaledF64 _ := none
  debugStr s := s
  headerName _ := .ok ()
  registry := none

/-- `POST(save, f(a, b), c) -> v`. -/
def nestedCall : CallText splitEnv where
  method := .post
  aliasName := "save".toList
  payload := "f(a, b)".toList
  pathParam := "c".toList
  arrowRhs := "v".toList
  payloadTree := .functionCall "f" [.var "a", .var "b"]
  pathTree := .var "c"
  target := ⟨"v", .json, []⟩
  aliasIdent := ⟨rfl, List.all_eq_true.mp rfl, ⟨_, rfl⟩⟩
  declared := rfl
  payloadLine := ⟨by decide, by decide, by rintro c ⟨⟩; rfl, by rintro c ⟨⟩; rfl⟩
  payloadExpr := rfl
  pathLine := ⟨by decide, by decide, by rintro c ⟨⟩; rfl, by rintro c ⟨⟩; rfl⟩
  pathExpr := rfl
  targetLine := ⟨by decide, by decide, by rintro c ⟨⟩; rfl, by rintro c ⟨⟩; rfl⟩
  targetParsed := rfl

/-- A payload with a comma is refused; a `=` in a string makes an assignment, and so does one behind a number. -/
theorem actionSplit_misses :
    (nestedCall.text = "POST(save, f(a, b), c) -> v".toList ∧
      ∃ e, parseActionWithUrls splitEnv nestedCall.text = .error (.parseError e)) ∧
    (IsAssignment "store_local(\"k\", \"a=b\")".toList ∧ ¬ StartsAssignment "store_local(\"k\", \"a=b\")".toList) ∧
    ¬ StartsAssignment "1 + 2 = 3".toList ∧
      ∃ e, parseActionWithUrls splitEnv "1 + 2 = 3".toList = .ok (.assign "1 + 2" e) := by
  have hstore : LexesFrom 1 none "store_local(\"k\", \"a=b\")".toList
      [.ident "store_local", .lParen, .str "k", .comma, .str "a=b", .rParen] :=
    (lexFrom_ok_iff (Nat.le_refl _)).mp rfl
  have hsum : LexesFrom 1 none "1 + 2 = 3".toList [.num "1", .plus, .num "2", .eq, .num "3"] :=
    (lexFrom_ok_iff (Nat.le_refl _)).mp rfl
  refine ⟨⟨rfl, _, rfl⟩, ⟨⟨_, _, rfl⟩, fun h => ?_⟩, fun h => ?_, _, rfl⟩
  · obtain ⟨_, _, heq⟩ := (startsAssignment_iff_tokens (by rintro c ⟨⟩; rfl) hstore).mp h
    cases heq
  · obtain ⟨_, _, heq⟩ := (startsAssignment_iff_tokens (by rintro c ⟨⟩; rfl) hsum).mp h
    cases heq

end Mizu
