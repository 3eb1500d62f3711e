import Mathlib

/-!
# Form data

A reader of `multipart/form-data` bodies (RFC 7578): delimiter lines of RFC 2046, header lines, and the
parameters of a `Content-Disposition`, whose values may be quoted strings with quoted pairs.

* `parse_assemble`: a body assembled of parts in which the delimiter does not occur is taken apart into them.
* `quoted_eq_iff`: what is put between quotes is read back if it has no backslash.
-/

namespace FormData

open List Option

abbrev Bytes := List UInt8

def cr : UInt8 := 13
def lf : UInt8 := 10
def quote : UInt8 := 34
def backslash : UInt8 := 92

def crlf : Bytes := [cr, lf]

def dashes : Bytes := [45, 45]

/-- The bytes of an ASCII text. -/
def ascii (s : String) : Bytes := s.toList.map fun c => UInt8.ofNat c.toNat

/-- What stands before and after the first occurrence of a delimiter. -/
def cut (d : Bytes) : Bytes → Option (Bytes × Bytes)
  | [] => if d = [] then some ([], []) else none
  | b :: bs =>
    if d.isPrefixOf (b :: bs) then some ([], (b :: bs).drop d.length)
    else (cut d bs).map fun (before, after) => (b :: before, after)

def isSpace (b : UInt8) : Bool := b = 32 || b = 9

/-- ASCII letters in lower case. -/
def lower (bs : Bytes) : Bytes := bs.map fun b => if 65 ≤ b ∧ b ≤ 90 then b + 32 else b

/-! ## Quoted strings and parameters -/

/-- The rest of a quoted string, and what follows its closing quote; a backslash takes the next byte as it
is. -/
def quotedFrom (escaped : Bool) : Bytes → Option (Bytes × Bytes)
  | [] => none
  | b :: bs =>
    if escaped then (quotedFrom false bs).map fun (value, rest) => (b :: value, rest)
    else if b = quote then some ([], bs)
    else if b = backslash then quotedFrom true bs
    else (quotedFrom false bs).map fun (value, rest) => (b :: value, rest)

/-- A quoted string after its opening quote. -/
def quoted (bs : Bytes) : Option (Bytes × Bytes) := quotedFrom false bs

/-- A byte of a token. -/
def isToken (b : UInt8) : Bool := !isSpace b && b ≠ 59

def paramValue : Bytes → Option (Bytes × Bytes)
  | [] => none
  | b :: bs =>
    if b = quote then quoted bs else some ((b :: bs).takeWhile isToken, (b :: bs).dropWhile isToken)

/-- Parameters, each after a semicolon; at most as many as the first argument says. -/
def params : Nat → Bytes → Option (List (Bytes × Bytes))
  | 0, _ => none
  | n + 1, bs =>
    match bs.dropWhile isSpace with
    | [] => some []
    | b :: bs =>
      if b = 59 then do
        let (name, rest) ← cut [61] (bs.dropWhile isSpace)
        let (value, rest) ← paramValue rest
        return (lower name, value) :: (← params n rest)
      else none

def param (name : Bytes) (ps : List (Bytes × Bytes)) : Option Bytes :=
  (ps.find? (·.1 = name)).map (·.2)

/-- The parameters of a line that is the disposition of form data. -/
def disposition (line : Bytes) : Option (List (Bytes × Bytes)) := do
  let (field, value) ← cut [58] line
  if lower field ≠ ascii "content-disposition" then none
  else
    let value := value.dropWhile isSpace
    if lower (value.takeWhile isToken) ≠ ascii "form-data" then none
    else params (value.length + 1) (value.dropWhile isToken)

/-! ## Parts and bodies -/

structure Part where
  name : Bytes
  fileName : Option Bytes
  content : Bytes
  deriving DecidableEq, Repr

/-- Header lines up to the empty line, and what follows it. -/
def headers : Nat → Bytes → Option (List Bytes × Bytes)
  | 0, _ => none
  | n + 1, bs => do
    let (line, rest) ← cut crlf bs
    if line = [] then return ([], rest)
    let (lines, content) ← headers n rest
    return (line :: lines, content)

/-- A part with a name. -/
def parsePart (raw : Bytes) : Option Part := do
  let (lines, content) ← headers (raw.length + 1) raw
  let ps ← lines.findSome? disposition
  return ⟨← param (ascii "name") ps, param (ascii "filename") ps, content⟩

def delimiter (boundary : Bytes) : Bytes := crlf ++ dashes ++ boundary

/-- The parts after a delimiter, up to the closing one. What follows that is not read. -/
def rawParts (boundary : Bytes) : Nat → Bytes → Option (List Bytes)
  | 0, _ => none
  | n + 1, bs =>
    if dashes.isPrefixOf bs then some []
    else
      let bs := bs.dropWhile isSpace
      if crlf.isPrefixOf bs then do
        let (raw, rest) ← cut (delimiter boundary) (bs.drop crlf.length)
        return raw :: (← rawParts boundary n rest)
      else none

/-- The parts of a body. What stands before the first delimiter is not read. -/
def parse (boundary body : Bytes) : Option (List Part) := do
  let (_, rest) ← cut (delimiter boundary) (crlf ++ body)
  let raws ← rawParts boundary (body.length + 1) rest
  raws.mapM parsePart

/-- A body of the given parts. -/
def assemble (boundary : Bytes) : List Bytes → Bytes
  | [] => dashes ++ boundary ++ dashes ++ crlf
  | raw :: raws => dashes ++ boundary ++ crlf ++ raw ++ crlf ++ assemble boundary raws

/-! ## Cutting -/

section Cut

variable {c : UInt8} {e x z : Bytes}

theorem prefix_of_notMem (hc : c ∉ e) (h : e <+: x ++ c :: z) : e <+: x := by
  obtain ⟨t, ht⟩ := h
  rcases append_eq_append_iff.mp ht with ⟨a, rfl, -⟩ | ⟨a, rfl, ha⟩
  · exact prefix_append _ _
  · cases a with
    | nil => exact ⟨[], by simp⟩
    | cons b a => grind

/-- The first occurrence of a delimiter whose first byte does not come again. -/
theorem cut_append (hc : c ∉ e) (hx : ¬(c :: e) <:+: x) (rest : Bytes) :
    cut (c :: e) (x ++ (c :: e ++ rest)) = some (x, rest) := by
  induction x with
  | nil =>
    have hlead : (c :: e).isPrefixOf (c :: (e ++ rest)) = true :=
      isPrefixOf_iff_prefix.mpr (prefix_append (c :: e) rest)
    show cut (c :: e) (c :: (e ++ rest)) = _
    rw [cut, if_pos hlead]
    have hdrop : (c :: e ++ rest).drop (c :: e).length = rest := drop_left
    exact congrArg (fun r => some ([], r)) hdrop
  | cons b x ih =>
    have hlead : ¬(c :: e).isPrefixOf (b :: (x ++ (c :: e ++ rest))) = true := by
      rw [ isPrefixOf_iff_prefix, cons_prefix_cons]
      rintro ⟨rfl, h⟩
      exact hx (List.IsPrefix.isInfix (cons_prefix_cons.mpr ⟨rfl, prefix_of_notMem hc h⟩))
    rw [cons_append, cut, if_neg hlead, ih fun h => hx (infix_cons h)]
    rfl

/-- An occurrence in what follows the first possible start is there or starts there. -/
theorem infix_of_append (hx : c ∉ x) (h : (c :: e) <:+: x ++ z) : (c :: e) <:+: z := by
  induction x with
  | nil => exact h
  | cons b x ih =>
    rw [mem_cons, not_or] at hx
    rcases infix_cons_iff.mp h with h | h
    · exact absurd (cons_prefix_cons.mp h).1 hx.1
    · exact ih hx.2 h

end Cut

/-! ## Assembled bodies -/

section Assemble

variable {boundary : Bytes}

theorem delimiter_eq : delimiter boundary = cr :: lf :: 45 :: 45 :: boundary := rfl

/-- What follows the first delimiter in an assembled body. -/
def afterDelimiter (boundary : Bytes) : List Bytes → Bytes
  | [] => dashes ++ crlf
  | raw :: raws => crlf ++ (raw ++ (delimiter boundary ++ afterDelimiter boundary raws))

theorem crlf_assemble (raws : List Bytes) :
    crlf ++ assemble boundary raws = delimiter boundary ++ afterDelimiter boundary raws := by
  induction raws with
  | nil => simp [assemble, afterDelimiter, delimiter]
  | cons raw raws ih =>
    rw [assemble, afterDelimiter, ← ih]
    simp only [delimiter, append_assoc]

theorem delimiter_tail (hcr : cr ∉ boundary) : cr ∉ lf :: 45 :: 45 :: boundary := by
  simp only [mem_cons, not_or]
  exact ⟨by decide, by decide, by decide, hcr⟩

theorem rawParts_afterDelimiter (hcr : cr ∉ boundary) {raws : List Bytes}
    (h : ∀ raw ∈ raws, ¬delimiter boundary <:+: raw) {n : Nat} (hn : raws.length < n) :
    rawParts boundary n (afterDelimiter boundary raws) = some raws := by
  induction raws generalizing n with
  | nil => grind [rawParts, afterDelimiter, Nat.exists_eq_add_one]
  | cons raw raws ih =>
    obtain ⟨n, rfl⟩ := Nat.exists_eq_add_one.mpr (Nat.zero_lt_of_lt hn)
    have hcut := cut_append (delimiter_tail hcr) (h raw (.head _)) (afterDelimiter boundary raws)
    have hrest := ih (fun r hr => h r (.tail _ hr)) (Nat.lt_of_succ_lt_succ hn)
    show (cut (delimiter boundary) (raw ++ (delimiter boundary ++ afterDelimiter boundary raws))).bind
      (fun (raw, rest) => (rawParts boundary n rest).bind fun raws => some (raw :: raws)) = _
    rw [delimiter_eq, hcut, bind_some]
    dsimp only
    rw [hrest, bind_some]

theorem length_lt_assemble (raws : List Bytes) : raws.length < (assemble boundary raws).length := by
  induction raws with
  | nil =>
    simp [assemble, dashes]
  | cons raw raws ih =>
    simp only [assemble, length_append, length_cons, crlf]
    omega

/-- An assembled body is taken apart at its delimiters. -/
theorem parse_assemble (hcr : cr ∉ boundary) {raws : List Bytes}
    (h : ∀ raw ∈ raws, ¬delimiter boundary <:+: raw) :
    parse boundary (assemble boundary raws) = raws.mapM parsePart := by
  have hcut := cut_append (delimiter_tail hcr) (x := []) (by simp) (afterDelimiter boundary raws)
  rw [← delimiter_eq, nil_append] at hcut
  have hlen : raws.length < (assemble boundary raws).length := length_lt_assemble raws
  rw [parse, crlf_assemble, hcut]
  dsimp only [bind_eq_bind, bind_some]
  rw [rawParts_afterDelimiter hcr h (Nat.lt_succ_of_lt hlen)]
  rfl

end Assemble

/-! ## Quoted values -/

section Quoted

variable {k rest : Bytes}

theorem quotedFrom_escaped (b : UInt8) (bs : Bytes) :
    quotedFrom true (b :: bs) = (quotedFrom false bs).map fun (value, rest) => (b :: value, rest) := by
  rw [quotedFrom, if_pos rfl]

theorem quotedFrom_quote (bs : Bytes) : quotedFrom false (quote :: bs) = some ([], bs) := by
  rw [quotedFrom, if_neg (by decide), if_pos rfl]

theorem quotedFrom_backslash (bs : Bytes) :
    quotedFrom false (backslash :: bs) = quotedFrom true bs := by
  rw [quotedFrom, if_neg (by decide), if_neg (by decide), if_pos rfl]

theorem quotedFrom_plain {b : UInt8} (hquote : b ≠ quote) (hplain : b ≠ backslash) (bs : Bytes) :
    quotedFrom false (b :: bs) = (quotedFrom false bs).map fun (value, rest) => (b :: value, rest) := by
  rw [quotedFrom, if_neg (by decide), if_neg hquote, if_neg hplain]

theorem quoted_plain (hquote : quote ∉ k) (hplain : backslash ∉ k) :
    quoted (k ++ quote :: rest) = some (k, rest) := by
  induction k with
  | nil => exact quotedFrom_quote rest
  | cons b k ih =>
    rw [mem_cons, not_or] at hquote hplain
    have htail : quotedFrom false (k ++ quote :: rest) = some (k, rest) := ih hquote.2 hplain.2
    rw [quoted, cons_append, quotedFrom_plain (Ne.symm hquote.1) (Ne.symm hplain.1), htail]
    rfl

/-- A value that is read has a quote in it, or is no longer than what was put between the quotes and
shorter if there is a backslash. -/
theorem quotedFrom_cases (k : Bytes) (hquote : quote ∉ k) (escaped : Bool) {v r : Bytes}
    (h : quotedFrom escaped (k ++ quote :: rest) = some (v, r)) :
    quote ∈ v ∨ v.length ≤ k.length ∧ (escaped = false → backslash ∈ k → v.length < k.length) := by
  induction k generalizing escaped v r with
  | nil =>
    cases escaped with
    | true => grind [quotedFrom_escaped, map_eq_some_iff]
    | false => grind [quotedFrom_quote]
  | cons b k ih =>
    rw [mem_cons, not_or] at hquote
    rw [cons_append] at h
    -- A byte that is taken as it is.
    have htaken : ∀ {v r}, ((quotedFrom false (k ++ quote :: rest)).map fun (value, rest) =>
        (b :: value, rest)) = some (v, r) →
        quote ∈ v ∨ v.length ≤ k.length + 1 ∧ (backslash ∈ k → v.length < k.length + 1) := by
      intro v r h
      obtain ⟨⟨v', r'⟩, h', hv⟩ := map_eq_some_iff.mp h
      obtain ⟨rfl, -⟩ := Prod.mk.inj hv
      rcases ih hquote.2 false h' with hin | ⟨hle, hlt⟩
      · exact .inl (.tail _ hin)
      · exact .inr ⟨Nat.succ_le_succ hle, fun hmem => Nat.succ_lt_succ (hlt rfl hmem)⟩
    cases escaped with
    | true => grind [quotedFrom_escaped]
    | false =>
      by_cases hb : b = backslash
      · subst hb
        rw [quotedFrom_backslash] at h
        rcases ih hquote.2 true h with hin | ⟨hle, -⟩
        · exact .inl hin
        · exact .inr ⟨Nat.le_succ_of_le hle, fun _ _ => Nat.lt_succ_of_le hle⟩
      · rw [quotedFrom_plain (Ne.symm hquote.1) hb] at h
        refine (htaken h).imp_right fun h => ⟨h.1, fun _ hmem => h.2 ?_⟩
        exact (mem_cons.mp hmem).resolve_left (Ne.symm hb)

/-- What is put between quotes is read back exactly if it has no backslash. -/
theorem quoted_eq_iff (hquote : quote ∉ k) :
    (∃ r, quoted (k ++ quote :: rest) = some (k, r)) ↔ backslash ∉ k := by
  refine ⟨fun ⟨r, h⟩ hmem => ?_, fun h => ⟨rest, quoted_plain hquote h⟩⟩
  rcases quotedFrom_cases k hquote false h with hin | ⟨-, hlt⟩
  · exact hquote hin
  · exact Nat.lt_irrefl _ (hlt rfl hmem)

end Quoted

/-! ## Dispositions -/

section Disposition

variable {k rest : Bytes}

/-- A disposition with a name and maybe a file name, quoted as they are. -/
def dispositionLine (name : Bytes) (fileName : Option Bytes) : Bytes :=
  ascii "Content-Disposition: form-data; name=\"" ++ (name ++ quote ::
    fileName.elim [] fun f => ascii "; filename=\"" ++ (f ++ [quote]))

theorem disposition_line (rest : Bytes) :
    disposition (ascii "Content-Disposition: form-data; name=\"" ++ rest) =
      params (rest.length + 18) (ascii "; name=\"" ++ rest) := by
  rfl

theorem params_name (n : Nat) (rest : Bytes) : params (n + 1) (ascii "; name=\"" ++ rest) =
    (quoted rest).bind fun (value, rest) => (params n rest).bind fun ps =>
      some ((ascii "name", value) :: ps) := by
  rfl

theorem params_fileName (n : Nat) (rest : Bytes) : params (n + 1) (ascii "; filename=\"" ++ rest) =
    (quoted rest).bind fun (value, rest) => (params n rest).bind fun ps =>
      some ((ascii "filename", value) :: ps) := by
  rfl

theorem disposition_contentType (rest : Bytes) : disposition (ascii "Content-Type: " ++ rest) = none := by
  rfl

variable {f : Option Bytes}

theorem cr_notMem_dispositionLine (hk : cr ∉ k) (hf : ∀ x ∈ f, cr ∉ x) : cr ∉ dispositionLine k f := by
  rw [dispositionLine, mem_append, mem_append, mem_cons]
  rintro (h | h | h | h)
  · exact absurd h (by decide)
  · exact hk h
  · exact absurd h (by decide)
  · cases f with
    | none => exact nomatch h
    | some x =>
      rw [elim_some, mem_append, mem_append, mem_singleton] at h
      rcases h with h | h | h
      · exact absurd h (by decide)
      · exact hf x rfl h
      · exact absurd h (by decide)

/-- The parameters that are read of a line are those that were written exactly if there is no backslash. -/
theorem disposition_iff (hk : quote ∉ k) (hf : ∀ x ∈ f, quote ∉ x) :
    (∃ ps, disposition (dispositionLine k f) = some ps ∧ param (ascii "name") ps = some k ∧
      param (ascii "filename") ps = f) ↔ backslash ∉ k ∧ ∀ x ∈ f, backslash ∉ x := by
  rw [dispositionLine, disposition_line, params_name]
  constructor
  · rintro ⟨ps, hps, hname, hfile⟩
    obtain ⟨⟨v, r⟩, hquoted, hps⟩ := bind_eq_some_iff.mp hps
    obtain ⟨ps', hps', heq⟩ := bind_eq_some_iff.mp hps
    obtain rfl := some.inj heq
    obtain rfl : v = k := some.inj hname
    have hplain := (quoted_eq_iff hk).mp ⟨r, hquoted⟩
    refine ⟨hplain, fun x hx => ?_⟩
    obtain rfl := mem_def.mp hx
    obtain rfl : _ = r := (Prod.mk.inj (some.inj ((quoted_plain hk hplain).symm.trans hquoted))).2
    rw [elim_some, show ∀ n, n + 17 = n + 16 + 1 from fun n => rfl, params_fileName] at hps'
    obtain ⟨⟨w, r⟩, hquoted', hps'⟩ := bind_eq_some_iff.mp hps'
    obtain ⟨ps'', -, heq⟩ := bind_eq_some_iff.mp hps'
    obtain rfl := some.inj heq
    obtain rfl : w = x := some.inj hfile
    exact (quoted_eq_iff (hf w rfl)).mp ⟨r, hquoted'⟩
  · rintro ⟨hplain, hplain'⟩
    rw [quoted_plain hk hplain, bind_some]
    cases f with
    | none => exact ⟨[(ascii "name", k)], rfl, rfl, rfl⟩
    | some x =>
      refine ⟨[(ascii "name", k), (ascii "filename", x)], ?_, rfl, rfl⟩
      dsimp only
      rw [elim_some, show ∀ n, n + 17 = n + 16 + 1 from fun n => rfl, params_fileName,
        quoted_plain (hf x rfl) (hplain' x rfl)]
      rfl

end Disposition

/-! ## Parts -/

section Parts

variable {boundary k content : Bytes} {f : Option Bytes}

/-- A part with a disposition and a content type. -/
def rawPart (k : Bytes) (f : Option Bytes) (contentType content : Bytes) : Bytes :=
  dispositionLine k f ++ (crlf ++ (ascii "Content-Type: " ++ contentType ++ (crlf ++ (crlf ++ content))))

theorem headers_cons {line : Bytes} (hcr : cr ∉ line) (hne : line ≠ []) (n : Nat) (rest : Bytes) :
    headers (n + 1) (line ++ (crlf ++ rest)) =
      (headers n rest).bind fun (lines, content) => some (line :: lines, content) := by
  have hinfix : ¬[cr, lf] <:+: line := by
    rintro ⟨x, y, hxy⟩
    exact hcr (by rw [← hxy]; simp)
  rw [headers, crlf, cut_append (by decide) hinfix]
  dsimp only [bind_eq_bind, bind_some]
  rw [if_neg hne]
  rfl

theorem headers_nil (n : Nat) (content : Bytes) : headers (n + 1) (crlf ++ content) = some ([], content) := by
  have hcut := cut_append (c := cr) (e := [lf]) (by decide) (x := []) (by decide) content
  rw [headers, show crlf ++ content = [] ++ ([cr, lf] ++ content) from rfl, crlf, hcut]
  rfl

variable {contentType : Bytes}

/-- A written part is read back exactly if there is no backslash in its names. -/
theorem parsePart_iff (hk : quote ∉ k) (hf : ∀ x ∈ f, quote ∉ x) (hline : cr ∉ dispositionLine k f)
    (htype : cr ∉ contentType) :
    parsePart (rawPart k f contentType content) = some ⟨k, f, content⟩ ↔
      backslash ∉ k ∧ ∀ x ∈ f, backslash ∉ x := by
  have hheaders : headers ((rawPart k f contentType content).length + 1) (rawPart k f contentType content) =
      some ([dispositionLine k f, ascii "Content-Type: " ++ contentType], content) := by
    obtain ⟨m, hm⟩ : ∃ m, (rawPart k f contentType content).length + 1 = m + 1 + 1 + 1 := by
      refine ⟨(rawPart k f contentType content).length - 2, ?_⟩
      simp only [rawPart, length_append, crlf, length_cons]
      omega
    have htypeLine : cr ∉ ascii "Content-Type: " ++ contentType := by
      rw [mem_append, not_or]
      exact ⟨by decide, htype⟩
    rw [hm, rawPart, headers_cons hline (cons_ne_nil _ _), headers_cons htypeLine (cons_ne_nil _ _),
      headers_nil]
    rfl
  rw [← disposition_iff hk hf, parsePart, hheaders]
  dsimp only [bind_eq_bind, bind_some]
  rw [List.findSome?_cons, List.findSome?_cons, disposition_contentType]
  cases disposition (dispositionLine k f) with
  | none => exact ⟨fun h => (nomatch h), fun ⟨_, h, _⟩ => (nomatch h)⟩
  | some ps => simp [bind_some, bind_eq_some_iff]

/-- No delimiter comes about in a written part. -/
theorem not_infix_rawPart (hline : cr ∉ dispositionLine k f) (htype : cr ∉ contentType)
    (habsent : ¬boundary <:+: content) : ¬delimiter boundary <:+: rawPart k f contentType content := by
  intro h
  rw [delimiter_eq] at h
  -- After the disposition: its line ends there, or the delimiter comes later.
  have h1 := infix_of_append hline h
  rcases infix_cons_iff.mp h1 with h2 | h2
  · have h3 := (cons_prefix_cons.mp (cons_prefix_cons.mp h2).2).2
    exact absurd (cons_prefix_cons.mp h3).1 (by decide)
  have htypeLine : cr ∉ lf :: (ascii "Content-Type: " ++ contentType) := by
    rw [mem_cons, mem_append, not_or, not_or]
    exact ⟨by decide, by decide, htype⟩
  have h3 : _ <:+: lf :: (ascii "Content-Type: " ++ contentType) ++ (crlf ++ (crlf ++ content)) := h2
  rcases infix_cons_iff.mp (infix_of_append htypeLine h3) with h4 | h4
  · have h5 := (cons_prefix_cons.mp (cons_prefix_cons.mp h4).2).2
    exact absurd (cons_prefix_cons.mp h5).1 (by decide)
  have h5 : _ <:+: [lf] ++ (crlf ++ content) := h4
  rcases infix_cons_iff.mp (infix_of_append (by decide) h5) with h6 | h6
  · -- The content starts with dashes and the boundary.
    have h7 : dashes ++ boundary <+: content := (cons_prefix_cons.mp (cons_prefix_cons.mp h6).2).2
    exact habsent ((suffix_append dashes boundary).isInfix.trans h7.isInfix)
  · have h7 : _ <:+: [lf] ++ content := h6
    have h8 := infix_of_append (by decide) h7
    exact habsent ((suffix_append (crlf ++ dashes) boundary).isInfix.trans h8)

end Parts

theorem mapM_map_eq_some_iff {α β γ : Type} {f : β → Option γ} {r : α → β} {g : α → γ} {xs : List α} :
    (xs.map r).mapM f = some (xs.map g) ↔ ∀ x ∈ xs, f (r x) = some (g x) := by
  induction xs with
  | nil => exact ⟨fun _ _ h => (nomatch h), fun _ => rfl⟩
  | cons x xs ih =>
    rw [map_cons, map_cons, mapM_cons, forall_mem_cons, ← ih]
    constructor
    · grind [bind_eq_some_iff, List.cons.inj, some.inj]
    · rintro ⟨hx, hxs⟩
      rw [hx, hxs]
      rfl

end FormData
