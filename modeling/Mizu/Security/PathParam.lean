import Mizu.Lib.UrlPath
import Mizu.Security.Navigation

/-!
# Path parameters

What `resolveEndpointUrl` builds is taken apart as a URL again. A parameter is contained if it reaches one
segment of the path, or the place of the placeholder, and nothing else; `contained_iff` says when it is.
-/

namespace Mizu

open UrlPath List

/-! ## Percent-encoding -/

variable {c : Char} {p : String}

section Percent

/-- The bytes that a text stands for: of its escapes, and of the other characters. -/
def percentDecode : List Char → List UInt8
  | [] => []
  | '%' :: h :: l :: rest =>
    match toDigit 16 h, toDigit 16 l with
    | some x, some y => UInt8.ofNat (16 * x + y) :: percentDecode rest
    | _, _ => 0x25 :: percentDecode (h :: l :: rest)
  | c :: cs => String.utf8EncodeChar c ++ percentDecode cs

/-- The encoded parameter. -/
def encodedParam (p : String) : List Char := (bytesOf p).flatMap percentEncodeByte

theorem toList_percentEncode (p : String) : (percentEncode p).toList = encodedParam p := by
  rw [percentEncode, String.toList_ofList]
  rfl

/-- What an encoded byte is made of. -/
def isEncodedChar (c : Char) : Bool := c.isAlphanum || "-_.~%".toList.contains c

theorem percentEncodeByte_chars (b : UInt8) : (percentEncodeByte b).all isEncodedChar = true := by
  have hall : ∀ n < 256, (percentEncodeByte (UInt8.ofNat n)).all isEncodedChar = true := by
    decide +kernel
  have h := hall b.toNat b.toNat_lt
  rwa [UInt8.ofNat_toNat] at h

theorem encodedParam_chars (h : c ∈ encodedParam p) : isEncodedChar c = true := by
  obtain ⟨b, -, hc⟩ := mem_flatMap.mp h
  exact all_eq_true.mp (percentEncodeByte_chars b) c hc

theorem percentDecode_cons (hc : c ≠ '%') (cs : List Char) :
    percentDecode (c :: cs) = String.utf8EncodeChar c ++ percentDecode cs := by
  rw [percentDecode]
  rintro _ _ _ rfl
  exact absurd rfl hc

theorem percentDecode_encodeByte (b : UInt8) (rest : List Char) :
    percentDecode (percentEncodeByte b ++ rest) = b :: percentDecode rest := by
  unfold percentEncodeByte
  dsimp only
  split
  · rename_i hplain
    -- An unreserved character is its own byte.
    have hall : ∀ n < 128, (Char.ofNat n).isAlphanum ∨ Char.ofNat n = '-' ∨ Char.ofNat n = '_' ∨
        Char.ofNat n = '.' ∨ Char.ofNat n = '~' → Char.ofNat n ≠ '%' ∧
          String.utf8EncodeChar (Char.ofNat n) = [UInt8.ofNat n] := by
      decide
    obtain ⟨hne, hbyte⟩ := hall b.toNat (UInt8.lt_iff_toNat_lt.mp hplain.1) hplain.2
    rw [singleton_append, percentDecode_cons hne, hbyte, UInt8.ofNat_toNat]
    rfl
  · have hhex : ∀ n < 16, toDigit 16 (hexDigit n) = some n := by decide
    have hlt := b.toNat_lt
    show percentDecode ('%' :: hexDigit (b.toNat / 16) :: hexDigit (b.toNat % 16) :: rest) = _
    rw [percentDecode, hhex _ (by omega), hhex _ (by omega)]
    dsimp only
    rw [Nat.div_add_mod, UInt8.ofNat_toNat]

/-- The segment of a parameter decodes to the parameter. -/
theorem percentDecode_encodedParam (p : String) : percentDecode (encodedParam p) = bytesOf p := by
  have hall : ∀ bs : List UInt8, percentDecode (bs.flatMap percentEncodeByte) = bs := by
    intro bs
    induction bs with
    | nil => rfl
    | cons b bs ih => rw [flatMap_cons, percentDecode_encodeByte, ih]
  exact hall (bytesOf p)

theorem encodedParam_injective {p q : String} (h : encodedParam p = encodedParam q) : p = q := by
  have hbytes : bytesOf p = bytesOf q := by grind [percentDecode_encodedParam]
  exact String.toByteArray_inj.mp (ByteArray.ext (Array.toList_inj.mp hbytes))

end Percent

/-! ## The parts of a URL -/

def isPathEnd (c : Char) : Bool := c = '?' || c = '#'

/-- The host of a `mizu:` URL, if it has one, and what follows. -/
def splitHost (url : List Char) : Option (List Char) × List Char :=
  match url.drop "mizu:".length with
  | '/' :: '/' :: cs => (some (cs.takeWhile (!isHostEnd ·)), cs.dropWhile (!isHostEnd ·))
  | cs => (none, cs)

def hostOf (url : List Char) : Option (List Char) := (splitHost url).1

/-- Path, query and fragment. -/
def tailOf (url : List Char) : List Char := (splitHost url).2

def pathOf (tail : List Char) : List Char := tail.takeWhile (!isPathEnd ·)

def queryOf (tail : List Char) : Option (List Char) :=
  match tail.dropWhile (!isPathEnd ·) with
  | '?' :: cs => some (cs.takeWhile (· ≠ '#'))
  | _ => none

def fragmentOf (tail : List Char) : Option (List Char) :=
  match tail.dropWhile (· ≠ '#') with
  | _ :: cs => some cs
  | [] => none

/-- A URL after the removal of dot segments. -/
structure NormalForm where
  host : Option (List Char)
  path : List Segment
  query : Option (List Char)
  fragment : Option (List Char)
  deriving DecidableEq

def normalForm (url : List Char) : NormalForm where
  host := hostOf url
  path := removeDots (segments (pathOf (tailOf url)))
  query := queryOf (tailOf url)
  fragment := fragmentOf (tailOf url)

section Parts

theorem tail_eq (t : List Char) : t = pathOf t ++ ((queryOf t).elim [] fun q => '?' :: q) ++
    (fragmentOf t).elim [] fun f => '#' :: f := by
  induction t with
  | nil => rfl
  | cons c t ih =>
    by_cases hquery : c = '?'
    · subst hquery
      have hpath : pathOf ('?' :: t) = [] := by simp [pathOf, isPathEnd]
      have hq : queryOf ('?' :: t) = some (t.takeWhile (· ≠ '#')) := by simp [queryOf, isPathEnd]
      have hf : fragmentOf ('?' :: t) = fragmentOf t := by simp [fragmentOf]
      rw [hpath, hq, hf]
      have hrest : ((fragmentOf t).elim [] fun f => '#' :: f) = t.dropWhile (· ≠ '#') := by
        rw [fragmentOf]
        cases hdrop : t.dropWhile (fun c => decide (c ≠ '#')) with
        | nil => rfl
        | cons d ds => grind [List.head?_dropWhile_not]
      rw [hrest]
      simp
    by_cases hfrag : c = '#'
    · subst hfrag
      simp [pathOf, queryOf, fragmentOf, isPathEnd]
    · have hend : isPathEnd c = false := by simp [isPathEnd, hquery, hfrag]
      have hpath : pathOf (c :: t) = c :: pathOf t := by simp [pathOf, hend]
      have hq : queryOf (c :: t) = queryOf t := by simp [queryOf, hend]
      have hf : fragmentOf (c :: t) = fragmentOf t := by simp [fragmentOf, hfrag]
      rw [hpath, hq, hf]
      exact congrArg (c :: ·) ih

variable {h t z : List Char}

/-- What follows the end of a prefix does not matter. -/
theorem takeWhile_of_dropWhile {p : Char → Bool} {r : List Char} (hr : r.dropWhile p ≠ [])
    (z : List Char) :
    (r ++ z).takeWhile p = r.takeWhile p ∧ (r ++ z).dropWhile p = r.dropWhile p ++ z := by
  induction r with
  | nil => exact absurd rfl hr
  | cons c r ih =>
    rw [dropWhile_cons] at hr
    by_cases hc : p c = true
    · rw [if_pos hc] at hr
      obtain ⟨htake, hdrop⟩ := ih hr
      simp only [cons_append, takeWhile_cons, dropWhile_cons, if_pos hc, htake, hdrop,
        and_self]
    · simp only [cons_append, takeWhile_cons, dropWhile_cons, if_neg hc, and_self]

theorem span_append {p : Char → Bool} (hc : p c = false) (r z : List Char) :
    (r ++ c :: z).takeWhile p = r.takeWhile p ∧ (r ++ c :: z).dropWhile p = r.dropWhile p ++ c :: z := by
  induction r with
  | nil =>
    rw [nil_append, takeWhile_cons_of_neg (by simp [hc]), dropWhile_cons_of_neg (by simp [hc])]
    exact ⟨rfl, rfl⟩
  | cons d r ih =>
    obtain ⟨htake, hdrop⟩ := ih
    rw [cons_append, takeWhile_cons, takeWhile_cons, dropWhile_cons,
      dropWhile_cons, htake, hdrop]
    by_cases hd : p d = true
    · simp only [if_pos hd, and_self]
    · simp only [if_neg hd, cons_append, and_self]

theorem dropWhile_head {p : Char → Bool} {r u : List Char} (h : r.dropWhile p = c :: u) : p c = false := by
  grind [List.head?_dropWhile_not]

theorem isHostEnd_of_isPathEnd (h : isPathEnd c = true) : isHostEnd c = true := by
  simp only [isPathEnd, isHostEnd, Bool.or_eq_true] at h ⊢
  rcases h with h | h
  · exact .inl (.inr h)
  · exact .inr h

theorem splitHost_mizu (r : List Char) : splitHost ("mizu://".toList ++ r) =
    (some (r.takeWhile (!isHostEnd ·)), r.dropWhile (!isHostEnd ·)) :=
  rfl

theorem encodedParam_ne (hc : isEncodedChar c = false) : c ∉ encodedParam p :=
  fun hmem => absurd (encodedParam_chars hmem) (by rw [hc]; decide)

theorem encodedParam_notHostEnd (p : String) : ∀ c ∈ encodedParam p, (!isHostEnd c) = true := by
  intro c hc
  have hslash : c ≠ '/' := fun h => encodedParam_ne (by decide) (h ▸ hc)
  have hquery : c ≠ '?' := fun h => encodedParam_ne (by decide) (h ▸ hc)
  have hfrag : c ≠ '#' := fun h => encodedParam_ne (by decide) (h ▸ hc)
  simp [isHostEnd, hslash, hquery, hfrag]

theorem encodedParam_notPathEnd (p : String) : ∀ c ∈ encodedParam p, (!isPathEnd c) = true := by
  intro c hc
  have h := encodedParam_notHostEnd p c hc
  simp only [isHostEnd, isPathEnd, Bool.not_eq_true', Bool.or_eq_false_iff] at h ⊢
  exact ⟨h.1.2, h.2⟩

theorem encodedParam_eq_nil : encodedParam p = [] ↔ p = "" :=
  ⟨fun h => encodedParam_injective (h.trans (by decide : [] = encodedParam "")),
    fun h => by rw [h]; decide⟩

theorem encodedParam_eq_dot : encodedParam p = dot ↔ p = "." :=
  ⟨fun h => encodedParam_injective (h.trans (by decide : dot = encodedParam ".")),
    fun h => by rw [h]; decide⟩

theorem encodedParam_eq_dotDot : encodedParam p = dotDot ↔ p = ".." :=
  ⟨fun h => encodedParam_injective (h.trans (by decide : dotDot = encodedParam "..")),
    fun h => by rw [h]; decide⟩

/-- Two dots pass for no parameter. -/
theorem encodedParam_ne_dotDot (hp : pathParamOk p = true) : encodedParam p ≠ dotDot := by
  intro h
  rw [encodedParam_eq_dotDot.mp h] at hp
  exact absurd hp (by decide)

end Parts

/-! ## Where a parameter goes -/

/-- A declared endpoint: a path from the root of the server, or an absolute URL. -/
def UrlEndpoint.Declared (ep : UrlEndpoint) : Prop :=
  match ep.kind with
  | .api => startsWith "/" ep.rawTarget = true
  | .media => startsWith "mizu://" ep.rawTarget = true

/-- What becomes of a base URL with an accepted parameter. -/
def builtUrl (base p : String) : List Char :=
  match splitPlaceholder base with
  | some (before, after) => before.toList ++ encodedParam p ++ after.toList
  | none => (trimEndMatches '/' base).toList ++ '/' :: encodedParam p

/-- The directories of the path of an endpoint; slashes at its end do not count. -/
def endpointDirectories (base : String) : List Segment :=
  directories [] (segments (trimEndMatches '/' (String.ofList (pathOf (tailOf base.toList)))).toList)

/-- The parameter is one more segment after the path of the endpoint, or it stands in the place of the
placeholder and the path keeps the number of its segments. -/
def Placed (base p : String) (url : List Char) : Prop :=
  match splitPlaceholder base with
  | none =>
    queryOf (tailOf url) = queryOf (tailOf base.toList) ∧
      ∃ segment, segment ≠ [] ∧ percentDecode segment = bytesOf p ∧
        (normalForm url).path = endpointDirectories base ++ [segment]
  | some (before, after) =>
    url = before.toList ++ (percentEncode p).toList ++ after.toList ∧
      (normalForm url).path.length = (segments (pathOf (tailOf url))).length

/-- A parameter is resolved to a URL with the scheme and the host of every other parameter, is placed as
it should be, and no other parameter gives the same URL after the removal of dot segments. -/
def Contained (domain : String) (ep : UrlEndpoint) (p : String) : Prop :=
  ∃ url, resolveEndpointUrl domain ep (some p) = .ok url ∧
    (∀ q url', resolveEndpointUrl domain ep (some q) = .ok url' →
      startsWith "mizu:" url' = true ∧ hostOf url'.toList = hostOf url.toList) ∧
    Placed (ep.baseUrl domain) p url.toList ∧
    ∀ q url', q ≠ p → resolveEndpointUrl domain ep (some q) = .ok url' →
      normalForm url'.toList ≠ normalForm url.toList

/-- The parameter would give the last segment of the path a form that another parameter gives it too: it
is empty or a dot, and stands alone there, or after or before a dot in the only segment. -/
def Merges (before after : List Char) (p : String) : Prop :=
  (p = "" ∨ p = ".") ∧ '/' ∉ pathOf after ∧
    ((segments before).getLast?.getD [] ++ pathOf after = [] ∨
      (segments before).getLast?.getD [] ++ pathOf after = dot ∧ (segments before).length = 1)

/-- When a parameter is contained. Without a placeholder: the endpoint has no query and no fragment, and the
parameter is neither empty nor a dot. With one: it stands after the host; removal keeps the segments of
the path, with the parameter in it if that is where it goes; and it does not merge with another. -/
def Confines (domain : String) (ep : UrlEndpoint) (p : String) : Prop :=
  match splitPlaceholder (ep.baseUrl domain) with
  | none => (ep.baseUrl domain).toList.any isPathEnd = false ∧ p ≠ "" ∧ p ≠ "."
  | some (before, after) =>
    let tail := tailOf before.toList
    tail ≠ [] ∧
      if tail.any isPathEnd then Kept (segments (pathOf tail))
      else
        Kept (segments (tail ++ encodedParam p ++ pathOf after.toList)) ∧ ¬Merges tail after.toList p

section Built

variable {domain : String} {ep : UrlEndpoint} {p q : String}

theorem resolve_eq_ok_iff {url : String} : resolveEndpointUrl domain ep (some q) = .ok url ↔
    pathParamOk q = true ∧ url.toList = builtUrl (ep.baseUrl domain) q := by
  simp only [resolveEndpointUrl, builtUrl]
  cases hq : pathParamOk q with
  | false => simp
  | true =>
    rw [if_neg (by decide)]
    cases splitPlaceholder (ep.baseUrl domain) with
    | none => grind [Except.ok.injEq, String.toList_inj, String.toList_append, toList_percentEncode, append_assoc]
    | some parts => grind [String.toList_inj, String.toList_append, toList_percentEncode]

theorem resolve_builtUrl (hq : pathParamOk q = true) :
    resolveEndpointUrl domain ep (some q) = .ok (String.ofList (builtUrl (ep.baseUrl domain) q)) :=
  resolve_eq_ok_iff.mpr ⟨hq, String.toList_ofList⟩

/-- Containment is about the built URLs. -/
theorem contained_iff_built (hp : pathParamOk p = true) : Contained domain ep p ↔
    (∀ q, pathParamOk q = true →
      "mizu:".toList.isPrefixOf (builtUrl (ep.baseUrl domain) q) = true ∧
      hostOf (builtUrl (ep.baseUrl domain) q) = hostOf (builtUrl (ep.baseUrl domain) p)) ∧
    Placed (ep.baseUrl domain) p (builtUrl (ep.baseUrl domain) p) ∧
    ∀ q, q ≠ p → pathParamOk q = true →
      normalForm (builtUrl (ep.baseUrl domain) q) ≠ normalForm (builtUrl (ep.baseUrl domain) p) := by
  constructor
  · rintro ⟨url, hurl, hhost, hplaced, hunique⟩
    rw [(resolve_eq_ok_iff.mp hurl).2] at hhost hplaced hunique
    refine ⟨fun q hq => ?_, hplaced, fun q hne hq => ?_⟩
    · have hlist : (String.ofList (builtUrl (ep.baseUrl domain) q)).toList = _ := String.toList_ofList
      have h := hhost q _ (resolve_builtUrl hq)
      rwa [startsWith, hlist] at h
    · have h := hunique q _ hne (resolve_builtUrl hq)
      rwa [String.toList_ofList] at h
  · rintro ⟨hhost, hplaced, hunique⟩
    refine ⟨_, resolve_builtUrl hp, ?_⟩
    rw [String.toList_ofList]
    refine ⟨fun q url' hq => ?_, hplaced, fun q url' hne hq => ?_⟩
    · grind [startsWith, resolve_eq_ok_iff]
    · grind [resolve_eq_ok_iff]

/-- Every endpoint has a URL of the network. -/
theorem baseUrl_mizu (h : ep.Declared) :
    ∃ r, (ep.baseUrl domain).toList = "mizu://".toList ++ r := by
  unfold UrlEndpoint.Declared at h
  unfold UrlEndpoint.baseUrl
  split
  · simp
  · rename_i hkind
    simp only [hkind, startsWith, isPrefixOf_iff_prefix] at h
    obtain ⟨r, hr⟩ := h
    exact ⟨r, hr.symm⟩

section Appended

variable {base : String} {r : List Char}

theorem toList_trimEndMatches (s : String) :
    (trimEndMatches '/' s).toList = trimSlashes s.toList :=
  String.toList_ofList

theorem eq_slash_of_isHostEnd (hc : isHostEnd c = true) (hpath : isPathEnd c = false) : c = '/' := by
  simp only [isHostEnd, isPathEnd, Bool.or_eq_true, Bool.or_eq_false_iff, decide_eq_true_eq,
    decide_eq_false_iff_not] at hc hpath
  rcases hc with (hc | hc) | hc
  · exact hc
  · exact absurd hc hpath.1
  · exact absurd hc hpath.2

theorem getLast?_of_append {x y : List Char} (hy : y ≠ []) : (x ++ y).getLast? = y.getLast? := by
  rw [List.getLast?_append, List.getLast?_eq_some_getLast hy, Option.some_or]

theorem any_replicate_slash (k : Nat) : (List.replicate k '/').any isPathEnd = false := by
  rw [any_replicate]
  split
  · rfl
  · decide

/-- A URL without a placeholder: its tail, with slashes at the end, and the tails of what is built. -/
theorem appended_parts (hbase : base.toList = "mizu://".toList ++ r) :
    ∃ host t k, t.getLast? ≠ some '/' ∧ (∀ c u, t = c :: u → isHostEnd c = true) ∧
      tailOf base.toList = t ++ List.replicate k '/' ∧
      base.toList.any isPathEnd = t.any isPathEnd ∧
      ∀ q, splitHost (trimSlashes base.toList ++ '/' :: encodedParam q) =
        (host, t ++ '/' :: encodedParam q) := by
  obtain ⟨k, hk⟩ := trimSlashes_eq_append r
  have hlast := trimSlashes_getLast? r
  generalize hr : trimSlashes r = r1 at hk hlast
  have hany : base.toList.any isPathEnd = r1.any isPathEnd := by
    rw [hbase, hk, any_append, any_append, any_replicate_slash, Bool.or_false]
    rfl
  by_cases hnil : r1 = []
  · -- Nothing but slashes after the scheme: they go, and there is no host.
    subst hnil
    have htail : tailOf base.toList = List.replicate k '/' := by
      rw [hbase, hk, tailOf, nil_append, splitHost_mizu]
      cases k with
      | zero => rfl
      | succ k => rfl
    refine ⟨none, [], k, by decide, fun c u h => (nomatch h), htail, hany, fun q => ?_⟩
    have htrim : trimSlashes base.toList = "mizu:".toList := by
      have happ := trimSlashes_append (x := "mizu:".toList) (by decide) (k + 2)
      rw [hbase, hk]
      exact happ
    rw [htrim]
    cases he : encodedParam q with
    | nil => rfl
    | cons c e =>
      have hc : c ≠ '/' := by
        rintro rfl
        exact encodedParam_ne (by decide) (he ▸ mem_cons_self)
      show splitHost ('m' :: 'i' :: 'z' :: 'u' :: ':' :: '/' :: c :: e) = _
      simp only [splitHost]
      split
      · rename_i heq
        exact absurd (List.cons.inj (List.cons.inj heq).2).1 hc
      · rfl
  · have htrim : trimSlashes base.toList = "mizu://".toList ++ r1 := by
      have hend : ("mizu://".toList ++ r1).getLast? ≠ some '/' := by
        rwa [getLast?_of_append hnil]
      rw [hbase, hk, ← append_assoc]
      exact trimSlashes_append hend k
    have hparts : r1.takeWhile (!isHostEnd ·) ++ r1.dropWhile (!isHostEnd ·) = r1 :=
      takeWhile_append_dropWhile
    refine ⟨some (r1.takeWhile (!isHostEnd ·)), r1.dropWhile (!isHostEnd ·), k, ?_, ?_, ?_, ?_, ?_⟩
    · grind
    · exact fun c u h => by simpa using dropWhile_head h
    · rw [hbase, hk, tailOf, splitHost_mizu]
      cases k with
      | zero => rw [replicate_zero, append_nil, append_nil]
      | succ k => exact (span_append (p := (!isHostEnd ·)) (c := '/') (by decide) r1 _).2
    · have htake : (r1.takeWhile (!isHostEnd ·)).any isPathEnd = false := by
        rw [any_eq_false]
        intro c hc hend
        have hnot := mem_takeWhile_imp hc
        have hpath : isHostEnd c = true := isHostEnd_of_isPathEnd hend
        rw [hpath] at hnot
        exact absurd hnot (by decide)
      rw [hany]
      conv_lhs => rw [← hparts, any_append, htake, Bool.false_or]
    · intro q
      obtain ⟨htake, hdrop⟩ :=
        span_append (p := (!isHostEnd ·)) (c := '/') (by decide) r1 (encodedParam q)
      rw [htrim, append_assoc, splitHost_mizu, htake, hdrop]

theorem segments_append_slash {t e : List Char} (ht : t = [] ∨ ∃ u, t = '/' :: u) (he : '/' ∉ e) :
    segments (t ++ '/' :: e) = segments t ++ [e] := by
  rcases ht with rfl | ⟨u, rfl⟩
  · exact segmentsFrom_of_notMem he
  · show segmentsFrom (u ++ '/' :: e) = segmentsFrom u ++ [e]
    rw [segmentsFrom_append_slash, segmentsFrom_of_notMem he]

theorem pathOf_eq_self {t : List Char} (h : t.any isPathEnd = false) : pathOf t = t := by
  grind [pathOf, takeWhile_eq_self_iff, any_eq_false]

theorem dropWhile_eq_nil_of_any {t : List Char} (h : t.any isPathEnd = false) :
    t.dropWhile (!isPathEnd ·) = [] := by
  grind [dropWhile_eq_nil_iff, any_eq_false]

theorem dropWhile_ne_nil_of_any {t : List Char} (h : t.any isPathEnd = true) :
    t.dropWhile (!isPathEnd ·) ≠ [] := by
  grind [dropWhile_eq_nil_iff]

theorem encodedParam_any (q : String) : (encodedParam q).any isPathEnd = false := by
  grind [any_eq_false, encodedParam_notPathEnd]

theorem slash_notMem_encodedParam (q : String) : '/' ∉ encodedParam q := encodedParam_ne (by decide)

/-- A parameter that ends the path: when it is one more segment. -/
theorem closing_append_iff {D : List Segment} (hp : pathParamOk p = true) :
    (∃ s, s ≠ [] ∧ percentDecode s = bytesOf p ∧ closing D (encodedParam p) = D ++ [s]) ↔
      p ≠ "" ∧ p ≠ "." := by
  have hdotDot := encodedParam_ne_dotDot hp
  constructor
  · rintro ⟨s, hs, -, hclosing⟩
    constructor
    · intro hempty
      rw [encodedParam_eq_nil.mpr hempty, closing, if_neg (by decide), if_neg (by decide)] at hclosing
      exact hs (singleton_inj.mp (append_cancel_left hclosing)).symm
    · intro hdot
      rw [encodedParam_eq_dot.mpr hdot, closing, if_pos rfl] at hclosing
      exact hs (singleton_inj.mp (append_cancel_left hclosing)).symm
  · rintro ⟨hempty, hdot⟩
    refine ⟨encodedParam p, fun h => hempty (encodedParam_eq_nil.mp h), percentDecode_encodedParam p, ?_⟩
    rw [closing, if_neg (fun h => hdot (encodedParam_eq_dot.mp h)), if_neg hdotDot]

/-- No two parameters that are one more segment are the same one. -/
theorem closing_inj {D : List Segment} (hp : pathParamOk p = true) (hq : pathParamOk q = true)
    (hempty : p ≠ "") (hdot : p ≠ ".")
    (h : closing D (encodedParam q) = closing D (encodedParam p)) : q = p := by
  rw [closing, closing, if_neg (fun h => hdot (encodedParam_eq_dot.mp h)),
    if_neg (encodedParam_ne_dotDot hp), if_neg (encodedParam_ne_dotDot hq)] at h
  split at h
  · exact absurd (encodedParam_eq_nil.mp (singleton_inj.mp (append_cancel_left h)).symm) hempty
  · exact encodedParam_injective (singleton_inj.mp (append_cancel_left h))

/-- What is appended is contained when the path is the end of the endpoint. -/
theorem appended_iff (hbase : base.toList = "mizu://".toList ++ r) (hnone : splitPlaceholder base = none)
    (hp : pathParamOk p = true) :
    ((∀ q, pathParamOk q = true →
      "mizu:".toList.isPrefixOf (builtUrl base q) = true ∧
        hostOf (builtUrl base q) = hostOf (builtUrl base p)) ∧
    Placed base p (builtUrl base p) ∧
    ∀ q, q ≠ p → pathParamOk q = true → normalForm (builtUrl base q) ≠ normalForm (builtUrl base p)) ↔
      base.toList.any isPathEnd = false ∧ p ≠ "" ∧ p ≠ "." := by
  obtain ⟨host, t, k, hlast, hhead, htail, hany, hsplit⟩ := appended_parts hbase
  have hbuilt : ∀ q, builtUrl base q = trimSlashes base.toList ++ '/' :: encodedParam q := fun q => by
    rw [builtUrl, hnone]
    exact congrArg (· ++ _) (toList_trimEndMatches base)
  have hhost : ∀ q, hostOf (builtUrl base q) = host := fun q => by rw [hbuilt, hostOf, hsplit]
  have htailq : ∀ q, tailOf (builtUrl base q) = t ++ '/' :: encodedParam q := fun q => by
    rw [hbuilt, tailOf, hsplit]
  have hscheme : ∀ q, "mizu:".toList.isPrefixOf (builtUrl base q) = true := by
    intro q
    have htrim := trimSlashes_append_left (x := "mizu:".toList) (by decide) ("//".toList ++ r)
    have hmizu : "mizu:".toList ++ ("//".toList ++ r) = base.toList := hbase.symm
    rw [hbuilt, isPrefixOf_iff_prefix, ← hmizu, htrim, append_assoc]
    exact prefix_append _ _
  have hplaced : Placed base p (builtUrl base p) ↔
      queryOf (t ++ '/' :: encodedParam p) = queryOf (t ++ List.replicate k '/') ∧
      ∃ segment, segment ≠ [] ∧ percentDecode segment = bytesOf p ∧
        removeDots (segments (pathOf (t ++ '/' :: encodedParam p))) =
          directories [] (segments (trimSlashes (pathOf (t ++ List.replicate k '/')))) ++ [segment] := by
    rw [Placed, hnone]
    dsimp only [normalForm, endpointDirectories]
    rw [htailq, htail, toList_trimEndMatches, String.toList_ofList]
  rw [hany, hplaced]
  cases hend : t.any isPathEnd with
  | true =>
    -- The parameter goes to the query or the fragment.
    refine ⟨fun h => ?_, fun h => nomatch h.1⟩
    obtain ⟨-, ⟨-, s, hs, -, hpath⟩, -⟩ := h
    have hdrop := dropWhile_ne_nil_of_any hend
    rw [pathOf, pathOf, (takeWhile_of_dropWhile hdrop _).1, (takeWhile_of_dropWhile hdrop _).1] at hpath
    refine absurd hpath (removeDots_ne_directories _ ?_ hs)
    cases t with
    | nil => exact .inl rfl
    | cons c u =>
      have hc := hhead c u rfl
      by_cases hpathEnd : isPathEnd c = true
      · exact .inl (takeWhile_cons_of_neg (by simp [hpathEnd]))
      · grind [takeWhile_cons_of_pos, eq_slash_of_isHostEnd]
  | false =>
    have hslash : t = [] ∨ ∃ u, t = '/' :: u := by
      cases t with
      | nil => exact .inl rfl
      | cons c u => grind [eq_slash_of_isHostEnd]
    have hpathq : ∀ q, pathOf (t ++ '/' :: encodedParam q) = t ++ '/' :: encodedParam q := fun q => by
      refine pathOf_eq_self ?_
      rw [any_append, any_cons, hend, encodedParam_any]
      rfl
    have hbasePath : pathOf (t ++ List.replicate k '/') = t ++ List.replicate k '/' := by
      grind [any_replicate_slash, pathOf_eq_self]
    have hpath : ∀ q, (normalForm (builtUrl base q)).path =
        closing (directories [] (segments t)) (encodedParam q) := fun q => by
      dsimp only [normalForm]
      rw [htailq, hpathq, segments_append_slash hslash (slash_notMem_encodedParam q), removeDots_concat]
    have hnoquery : queryOf (t ++ '/' :: encodedParam p) = queryOf (t ++ List.replicate k '/') := by
      rw [queryOf, queryOf, dropWhile_eq_nil_of_any, dropWhile_eq_nil_of_any]
      · rw [any_append, hend, any_replicate_slash]
        rfl
      · rw [any_append, any_cons, hend, encodedParam_any]
        rfl
    rw [hpathq, hbasePath, trimSlashes_append hlast, segments_append_slash hslash (slash_notMem_encodedParam p),
      removeDots_concat, closing_append_iff hp]
    constructor
    · exact fun h => ⟨rfl, h.2.1.2⟩
    · rintro ⟨-, hempty, hdot⟩
      refine ⟨fun q _ => ⟨hscheme q, (hhost q).trans (hhost p).symm⟩, ⟨hnoquery, hempty, hdot⟩,
        fun q hne hq heq => hne ?_⟩
      have hpaths := congrArg NormalForm.path heq
      rw [hpath, hpath] at hpaths
      exact closing_inj hp hq hempty hdot hpaths

end Appended

section Replaced

variable {base before after : String} {r : List Char}

/-- The path around a parameter in it: the segments before, what it shares its segment with, and the
segments after. -/
theorem segments_around (u b : List Char) : ∃ xs l m ys, segmentsFrom u = xs ++ [l] ∧
    segmentsFrom b = m :: ys ∧
    ∀ q, segments ('/' :: u ++ encodedParam q ++ b) = xs ++ (l ++ encodedParam q ++ m) :: ys := by
  obtain ⟨xs, l, hu⟩ := segmentsFrom_eq_concat u
  obtain ⟨m, ys, hb⟩ := exists_cons_of_ne_nil (segmentsFrom_ne_nil b)
  refine ⟨xs, l, m, ys, hu, hb, fun q => ?_⟩
  have hparam : segmentsFrom (encodedParam q) = [] ++ [encodedParam q] :=
    segmentsFrom_of_notMem (slash_notMem_encodedParam q)
  have hjoin := segmentsFrom_append hu (segmentsFrom_append hparam hb)
  rw [← append_assoc, ← append_assoc] at hjoin
  exact hjoin

/-- An accepted parameter of dots only is empty or one dot. -/
theorem encodedParam_dots {n : Nat} (hp : pathParamOk p = true) (hn : n ≤ 2)
    (h : encodedParam p = List.replicate n '.') : p = "" ∧ n = 0 ∨ p = "." ∧ n = 1 := by
  match n, hn with
  | 0, _ => exact .inl ⟨encodedParam_eq_nil.mp h, rfl⟩
  | 1, _ => exact .inr ⟨encodedParam_eq_dot.mp h, rfl⟩
  | 2, _ => exact absurd h (encodedParam_ne_dotDot hp)

/-- What two accepted parameters are that leave nothing of the last segment. -/
theorem merge_of_closed {l m : Segment} (hp : pathParamOk p = true) (hq : pathParamOk q = true)
    (hne : q ≠ p) (hpnil : closed (l ++ encodedParam p ++ m) = [])
    (hqnil : closed (l ++ encodedParam q ++ m) = []) :
    (p = "" ∨ p = ".") ∧
      (l ++ m = [] ∨ l ++ m = dot ∧
        (l ++ encodedParam p ++ m = dotDot ∨ l ++ encodedParam q ++ m = dotDot)) := by
  obtain ⟨n, hn, hdots⟩ := closed_eq_nil_iff.mp hpnil
  obtain ⟨n', hn', hdots'⟩ := closed_eq_nil_iff.mp hqnil
  obtain ⟨hlen, hleft, hm⟩ := append_eq_replicate_iff.mp hdots
  obtain ⟨hlen1, hl, he⟩ := append_eq_replicate_iff.mp hleft
  obtain ⟨hlen', hleft', -⟩ := append_eq_replicate_iff.mp hdots'
  obtain ⟨hlen1', -, he'⟩ := append_eq_replicate_iff.mp hleft'
  simp only [length_append] at hlen hlen' hlen1 hlen1'
  have hlm : l ++ m = List.replicate (l.length + m.length) '.' := by
    rw [replicate_add, ← hl, ← hm]
  have hcasesP := encodedParam_dots hp (by omega) he
  have hcasesQ := encodedParam_dots hq (by omega) he'
  -- One of the two is empty and the other is a dot.
  have hone : (encodedParam p).length = 1 ∨ (encodedParam q).length = 1 := by grind
  refine ⟨hcasesP.imp And.left And.left, ?_⟩
  by_cases hzero : l.length + m.length = 0
  · exact .inl (by rw [hlm, hzero, replicate_zero])
  have hone' : l.length + m.length = 1 := by omega
  refine .inr ⟨by rw [hlm, hone']; rfl, ?_⟩
  rcases hone with hone | hone
  · refine .inl ?_
    rw [hdots, show n = 2 by omega]
    rfl
  · refine .inr ?_
    rw [hdots', show n' = 2 by omega]
    rfl

/-- Two parameters of the same path, which keep its segments: when no other has the same path. -/
theorem unique_iff {u b : List Char} (hp : pathParamOk p = true)
    (hkept : Kept (segments ('/' :: u ++ encodedParam p ++ b))) :
    (∀ q, q ≠ p → pathParamOk q = true → removeDots (segments ('/' :: u ++ encodedParam q ++ b)) ≠
      removeDots (segments ('/' :: u ++ encodedParam p ++ b))) ↔
    ¬((p = "" ∨ p = ".") ∧ '/' ∉ b ∧ ((segments ('/' :: u)).getLast?.getD [] ++ b = [] ∨
      (segments ('/' :: u)).getLast?.getD [] ++ b = dot ∧ (segments ('/' :: u)).length = 1)) := by
  obtain ⟨xs, l, m, ys, hu, hb, hsegs⟩ := segments_around u b
  have hu' : segments ('/' :: u) = xs ++ [l] := hu
  rw [hu', List.getLast?_concat, Option.getD_some]
  simp only [hsegs] at hkept ⊢
  constructor
  · rintro hunique ⟨hdots, hslash, hlast⟩
    rw [segmentsFrom_of_notMem hslash] at hb
    obtain ⟨rfl, rfl⟩ := List.cons.inj hb
    have hplain := (kept_concat.mp hkept).1
    have hempty : encodedParam "" = [] := encodedParam_eq_nil.mpr rfl
    have hdot : encodedParam "." = dot := encodedParam_eq_dot.mpr rfl
    -- Of both an empty parameter and a dot nothing is left.
    have hnothing : ∀ x, (x = "" ∨ x = ".") →
        removeDots (xs ++ [l ++ encodedParam x ++ b]) = xs ++ [[]] := by
      intro x hx
      rcases hlast with hlast | ⟨hlast, hlen⟩
      · obtain ⟨rfl, rfl⟩ := append_eq_nil_iff.mp hlast
        have hx' : encodedParam x = [] ∨ encodedParam x = dot := by grind
        rw [nil_append, append_nil]
        rcases hx' with hx' | hx'
        · rw [hx', removeDots_of_kept (kept_concat.mpr ⟨hplain, fun h => absurd h (by decide)⟩)]
          rfl
        · rw [hx', removeDots_of_kept (kept_concat.mpr ⟨hplain, fun h => absurd h (by decide)⟩)]
          rfl
      · obtain rfl : xs = [] := eq_nil_of_length_eq_zero (by simpa using hlen)
        rcases append_eq_singleton_iff.mp hlast with ⟨rfl, rfl⟩ | ⟨rfl, rfl⟩
        · rcases hx with rfl | rfl
          · rw [hempty]
            decide
          · rw [hdot]
            decide
        · rcases hx with rfl | rfl
          · rw [hempty]
            decide
          · rw [hdot]
            decide
    rcases hdots with rfl | rfl
    · exact hunique "." (by decide) (by decide)
        ((hnothing _ (.inr rfl)).trans (hnothing _ (.inl rfl)).symm)
    · exact hunique "" (by decide) (by decide)
        ((hnothing _ (.inl rfl)).trans (hnothing _ (.inr rfl)).symm)
  · intro hmerge q hne hq heq
    have hkeptQ : Kept (xs ++ (l ++ encodedParam q ++ m) :: ys) := by
      grind [removeDots_length_iff]
    rcases eq_nil_or_concat ys with rfl | ⟨ys, z, rfl⟩
    · obtain ⟨hslash, rfl⟩ := segmentsFrom_eq_singleton hb
      rw [removeDots_of_kept hkept, removeDots_of_kept hkeptQ, append_cancel_left_eq,
        singleton_inj] at heq
      rcases closed_inj heq with hsame | ⟨hqnil, hpnil⟩
      · exact hne (encodedParam_injective (append_cancel_left (append_cancel_right hsame)))
      · obtain ⟨hdots, hlast⟩ := merge_of_closed hp hq hne hpnil hqnil
        refine hmerge ⟨hdots, hslash, hlast.imp_right fun ⟨hlm, hdotDot⟩ => ⟨hlm, ?_⟩⟩
        have hxs : xs = [] := by grind [kept_concat]
        rw [hxs]
        rfl
    · rw [concat_eq_append] at hkept hkeptQ heq
      rw [← cons_append, ← append_assoc] at hkept hkeptQ heq
      rw [← cons_append, ← append_assoc, removeDots_of_kept hkept, removeDots_of_kept hkeptQ] at heq
      have hmiddle := append_cancel_left (append_cancel_right heq)
      exact hne (encodedParam_injective
        (append_cancel_left (append_cancel_right (List.cons.inj hmiddle).1)))

theorem queryOf_append {x : List Char} (hx : x.any isPathEnd = false) (z : List Char) :
    pathOf (x ++ z) = x ++ pathOf z ∧ queryOf (x ++ z) = queryOf z := by
  have hall : ∀ c ∈ x, (!isPathEnd c) = true := by
    intro c hc
    rw [any_eq_false] at hx
    simpa using hx c hc
  rw [pathOf, pathOf, queryOf, queryOf, takeWhile_append_of_pos hall, dropWhile_append_of_pos hall]
  exact ⟨rfl, rfl⟩

theorem fragmentOf_append {x : List Char} (hx : x.any isPathEnd = false) (z : List Char) :
    fragmentOf (x ++ z) = fragmentOf z := by
  have hall : ∀ c ∈ x, decide (c ≠ '#') = true := by
    intro c hc
    refine decide_eq_true ?_
    rintro rfl
    rw [any_eq_false] at hx
    exact hx _ hc (by decide)
  rw [fragmentOf, fragmentOf, dropWhile_append_of_pos hall]

/-- There is another accepted parameter. -/
theorem exists_other (p : String) : ∃ q, q ≠ p ∧ pathParamOk q = true := by
  by_cases hp : p = "a"
  · exact ⟨"b", by rw [hp]; decide, by decide⟩
  · exact ⟨"a", Ne.symm hp, by decide⟩

/-- What is put in the place of a placeholder is contained when it stays in the path with its segment, or
after a path that keeps its segments. -/
theorem replaced_iff (hsome : splitPlaceholder base = some (before, after))
    (hbefore : before.toList = "mizu://".toList ++ r) (hp : pathParamOk p = true) :
    ((∀ q, pathParamOk q = true →
      "mizu:".toList.isPrefixOf (builtUrl base q) = true ∧
        hostOf (builtUrl base q) = hostOf (builtUrl base p)) ∧
    Placed base p (builtUrl base p) ∧
    ∀ q, q ≠ p → pathParamOk q = true → normalForm (builtUrl base q) ≠ normalForm (builtUrl base p)) ↔
      tailOf before.toList ≠ [] ∧
        if (tailOf before.toList).any isPathEnd then Kept (segments (pathOf (tailOf before.toList)))
        else
          Kept (segments (tailOf before.toList ++ encodedParam p ++ pathOf after.toList)) ∧
            ¬Merges (tailOf before.toList) after.toList p := by
  have hbuilt : ∀ q, builtUrl base q = "mizu://".toList ++ (r ++ (encodedParam q ++ after.toList)) := fun q => by
    rw [builtUrl, hsome]
    dsimp only
    rw [hbefore, append_assoc, append_assoc]
  have hplaced : Placed base p (builtUrl base p) ↔ Kept (segments (pathOf (tailOf (builtUrl base p)))) := by
    grind [Placed, removeDots_length_iff, normalForm, toList_percentEncode]
  have htailBefore : tailOf before.toList = r.dropWhile (!isHostEnd ·) := by
    rw [hbefore, tailOf, splitHost_mizu]
  rw [hplaced, htailBefore]
  by_cases hdrop : r.dropWhile (!isHostEnd ·) = []
  · -- The host goes on with the parameter.
    refine ⟨fun ⟨hhost, _⟩ => ?_, fun h => absurd hdrop h.1⟩
    have hall : ∀ q, ∀ c ∈ r ++ encodedParam q, (!isHostEnd c) = true := by
      grind [dropWhile_eq_nil_iff, encodedParam_notHostEnd]
    have hhostq : ∀ q, hostOf (builtUrl base q) =
        some (r ++ encodedParam q ++ after.toList.takeWhile (!isHostEnd ·)) := fun q => by
      rw [hbuilt, hostOf, splitHost_mizu, ← append_assoc, takeWhile_append_of_pos (hall q)]
    obtain ⟨q, hne, hq⟩ := exists_other p
    have hsame := (hhost q hq).2
    rw [hhostq, hhostq, Option.some.injEq] at hsame
    exact absurd (encodedParam_injective (append_cancel_left (append_cancel_right hsame))) hne
  have hhost : ∀ q, hostOf (builtUrl base q) = some (r.takeWhile (!isHostEnd ·)) := fun q => by
    rw [hbuilt, hostOf, splitHost_mizu, (takeWhile_of_dropWhile hdrop _).1]
  have htail : ∀ q, tailOf (builtUrl base q) =
      r.dropWhile (!isHostEnd ·) ++ (encodedParam q ++ after.toList) := fun q => by
    rw [hbuilt, tailOf, splitHost_mizu, (takeWhile_of_dropWhile hdrop _).2]
  have hscheme : ∀ q, "mizu:".toList.isPrefixOf (builtUrl base q) = true := fun q => by
    rw [hbuilt]
    rfl
  have hsameHost : ∀ q, pathParamOk q = true →
      "mizu:".toList.isPrefixOf (builtUrl base q) = true ∧
        hostOf (builtUrl base q) = hostOf (builtUrl base p) :=
    fun q _ => ⟨hscheme q, (hhost q).trans (hhost p).symm⟩
  obtain ⟨c, u, hcu⟩ := exists_cons_of_ne_nil hdrop
  have hc : isHostEnd c = true := by simpa using dropWhile_head hcu
  rw [and_iff_right hsameHost, and_iff_right hdrop, htail]
  generalize r.dropWhile (!isHostEnd ·) = t at hcu htail hdrop ⊢
  cases hend : t.any isPathEnd with
  | true =>
    -- The parameter goes to the query or the fragment: what the path is does not depend on it.
    have hpath : ∀ z, pathOf (t ++ z) = pathOf t := fun z =>
      (takeWhile_of_dropWhile (dropWhile_ne_nil_of_any hend) z).1
    rw [hpath, if_pos rfl]
    refine and_iff_left ?_
    intro q hne _ heq
    have hquery := congrArg NormalForm.query heq
    have hfragment := congrArg NormalForm.fragment heq
    dsimp only [normalForm] at hquery hfragment
    have htails : tailOf (builtUrl base q) = tailOf (builtUrl base p) := by grind [tail_eq]
    rw [htail, htail] at htails
    exact hne (encodedParam_injective (append_cancel_right (append_cancel_left htails)))
  | false =>
    rw [hcu, any_cons, Bool.or_eq_false_iff] at hend
    obtain rfl : c = '/' := eq_slash_of_isHostEnd hc hend.1
    subst hcu
    have hjoin : ∀ q, ('/' :: u ++ encodedParam q).any isPathEnd = false := fun q => by
      rw [any_append, any_cons, hend.1, hend.2, encodedParam_any]
      rfl
    have hpath : ∀ q, pathOf ('/' :: u ++ (encodedParam q ++ after.toList)) =
        '/' :: u ++ encodedParam q ++ pathOf after.toList := fun q => by
      rw [← append_assoc, (queryOf_append (hjoin q) _).1]
    have hnormal : ∀ q, normalForm (builtUrl base q) = ⟨some (r.takeWhile (!isHostEnd ·)),
        removeDots (segments ('/' :: u ++ encodedParam q ++ pathOf after.toList)),
        queryOf after.toList, fragmentOf after.toList⟩ := fun q => by
      dsimp only [normalForm]
      rw [hhost, htail, hpath, ← append_assoc, (queryOf_append (hjoin q) _).2,
        fragmentOf_append (hjoin q)]
    rw [hpath, if_neg (by decide)]
    refine and_congr_right fun hkept => ?_
    refine Iff.trans ?_ (unique_iff hp hkept)
    refine forall_congr' fun q => imp_congr_right fun _ => imp_congr_right fun _ => not_congr ?_
    rw [hnormal, hnormal]
    exact ⟨fun h => congrArg NormalForm.path h, fun h => by rw [h]⟩

end Replaced

theorem splitPlaceholder_before {base : String} {before after : String} {r : List Char}
    (hbase : base.toList = "mizu://".toList ++ r) (h : splitPlaceholder base = some (before, after)) :
    ∃ r', before.toList = "mizu://".toList ++ r' := by
  unfold splitPlaceholder at h
  split at h
  · cases h
  split at h
  · cases h
  · obtain ⟨rfl, -⟩ := Prod.mk.inj (Option.some.inj h)
    refine ⟨r.takeWhile (· ≠ '\x7b'), ?_⟩
    rw [String.toList_ofList, hbase]
    exact takeWhile_append_of_pos (by simp)

end Built

/-- Exactly the confined parameters are contained. -/
theorem contained_iff {domain : String} {ep : UrlEndpoint} {p : String} (hdecl : ep.Declared)
    (hp : pathParamOk p = true) : Contained domain ep p ↔ Confines domain ep p := by
  obtain ⟨r, hr⟩ := baseUrl_mizu hdecl
  rw [contained_iff_built hp, Confines]
  cases hsplit : splitPlaceholder (ep.baseUrl domain) with
  | none => exact appended_iff hr hsplit hp
  | some parts =>
    obtain ⟨before, after⟩ := parts
    obtain ⟨r', hbefore⟩ := splitPlaceholder_before hr hsplit
    exact replaced_iff hsplit hbefore hp

/-- A dot in the place of a placeholder is an accepted parameter that takes its segment away. -/
theorem contained_iff_dot :
    UrlEndpoint.Declared ⟨.api, "/a/\x7bx\x7d/b"⟩ ∧ pathParamOk "." = true ∧
      (Contained "a.mizu" ⟨.api, "/a/\x7bx\x7d/b"⟩ "." ↔
        Confines "a.mizu" ⟨.api, "/a/\x7bx\x7d/b"⟩ ".") :=
  have hdecl : UrlEndpoint.Declared ⟨.api, "/a/\x7bx\x7d/b"⟩ := by
    show startsWith "/" "/a/\x7bx\x7d/b" = true
    decide
  ⟨hdecl, by decide, contained_iff hdecl (by decide)⟩

/-- Containment fails for accepted parameters: a dot in the place of a placeholder, and any parameter after
a query. -/
theorem not_every_param_contained :
    (UrlEndpoint.Declared ⟨.api, "/a/\x7bx\x7d/b"⟩ ∧ pathParamOk "." = true ∧
      resolveEndpointUrl "a.mizu" ⟨.api, "/a/\x7bx\x7d/b"⟩ (some ".") = .ok "mizu://a.mizu/a/./b" ∧
      ¬Contained "a.mizu" ⟨.api, "/a/\x7bx\x7d/b"⟩ ".") ∧
    UrlEndpoint.Declared ⟨.api, "/s?q=1"⟩ ∧ pathParamOk "x" = true ∧
      resolveEndpointUrl "a.mizu" ⟨.api, "/s?q=1"⟩ (some "x") = .ok "mizu://a.mizu/s?q=1/x" ∧
      ¬Contained "a.mizu" ⟨.api, "/s?q=1"⟩ "x" := by
  have hdot : resolveEndpointUrl "a.mizu" ⟨.api, "/a/\x7bx\x7d/b"⟩ (some ".") = .ok "mizu://a.mizu/a/./b" := by
    decide
  have hx : resolveEndpointUrl "a.mizu" ⟨.api, "/s?q=1"⟩ (some "x") = .ok "mizu://a.mizu/s?q=1/x" := by
    decide
  refine ⟨⟨by unfold UrlEndpoint.Declared; decide, by decide, hdot, ?_⟩,
    by unfold UrlEndpoint.Declared; decide, by decide, hx, ?_⟩
  · rintro ⟨url, hurl, -, hplaced, -⟩
    obtain rfl := Except.ok.inj (hdot.symm.trans hurl)
    have hlen : (normalForm "mizu://a.mizu/a/./b".toList).path.length = 3 := hplaced.2
    exact absurd hlen (by decide)
  · rintro ⟨url, hurl, -, hplaced, -⟩
    obtain rfl := Except.ok.inj (hx.symm.trans hurl)
    have hquery : queryOf (tailOf "mizu://a.mizu/s?q=1/x".toList) =
        queryOf (tailOf "mizu://a.mizu/s?q=1".toList) :=
      hplaced.1
    exact absurd hquery (by decide)

end Mizu
