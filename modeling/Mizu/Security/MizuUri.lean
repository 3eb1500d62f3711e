import Mizu.Security.Domain
import Mizu.Security.UrlStandard

/-!
# The URI that is fetched

`MizuUri.parse` leaves the structure of a URI to the URL library and refuses credentials and ports. The
navigation policy reads hosts by hand. Over a library that follows the standard:

* `parse_of_wellformed`: a target with a host that the policy takes is fetched from that host, as
  the standard writes it.
* `wellformed_of_parse`: what is fetched is taken by the policy, if it is spelled as the policy reads it.
-/

namespace Mizu

open List

/-- What the URL library says of a URL. -/
structure ParsedUrl where
  scheme : String
  username : String
  password : Option String
  host : Option String
  port : Option Nat
  path : String
  query : Option String

structure MizuUri where
  domain : String
  path : String
  deriving DecidableEq, Repr

/-- `MizuUri::parse`; `urlParse` is the parser of the URL library, with its errors as texts. -/
def MizuUri.parse (urlParse : String → Except String ParsedUrl) (uri : String) : Except MizuError MizuUri :=
  if uri.toList.any fun c => c.toNat < 0x20 || c.toNat = 0x7f then
    .error (.network "mizu:// URI contains control characters")
  else
    match urlParse uri with
    | .error e => .error (.network ("invalid mizu:// URI: " ++ e))
    | .ok parsed =>
      if parsed.scheme ≠ "mizu" then .error (.network "URI must use the mizu:// scheme")
      else
        match parsed.host.filter (!·.isEmpty) with
        | none => .error (.network "Empty domain in mizu:// URI")
        | some domain =>
          if !parsed.username.isEmpty || parsed.password.isSome then
            .error (.network "mizu:// domain must not contain credentials")
          else if parsed.port.isSome then .error (.network "mizu:// domain must not contain a port")
          else
            .ok ⟨domain,
              if parsed.path.isEmpty then "/"
              else
                match parsed.query with
                | some q => parsed.path ++ "?" ++ q
                | none => parsed.path⟩

/-- The library parses URLs of schemes that are not special as the standard does. An empty host may also
be none. -/
structure FollowsStandard (urlParse : String → Except String ParsedUrl) : Prop where
  scheme : ∀ {input parsed}, urlParse input = .ok parsed →
    ∃ rest, urlScheme input.toList = some (parsed.scheme, rest)
  accepts : ∀ {input scheme rest}, urlScheme input.toList = some (scheme, rest) →
    isSpecialScheme scheme = false → (urlAfterScheme rest).isSome → ∃ parsed, urlParse input = .ok parsed
  authority : ∀ {input parsed rest}, urlParse input = .ok parsed →
    urlScheme input.toList = some (parsed.scheme, rest) → isSpecialScheme parsed.scheme = false →
    ∃ authority, urlAfterScheme rest = some authority ∧
      parsed.host.filter (!·.isEmpty) = (authority.map (·.host)).filter (!·.isEmpty) ∧
      (!parsed.username.isEmpty) = authority.any (·.hasUsername) ∧
      parsed.password.isSome = authority.any (·.hasPassword) ∧ parsed.port = authority.bind (·.port)

section Hosts

variable {host : String}

theorem urlHost_of_bracket {cs rest : List Char} (h : cs = '[' :: rest) : urlHost cs =
    if rest.getLast? = some ']' then
      (urlIpv6 rest.dropLast).map fun pieces => '[' :: urlIpv6Display pieces ++ [']']
    else none := by
  rw [h]
  rfl

variable {cs : List Char}

theorem urlHost_of_ne (h : cs.head? ≠ some '[') : urlHost cs =
    if cs.any isUrlForbiddenHostChar then none else some (cs.flatMap urlPercentEncode) := by
  unfold urlHost
  split
  · exact absurd rfl h
  · rfl

/-- A host is not serialised to nothing. -/
theorem urlHost_ne_nil (h : cs ≠ []) : urlHost cs ≠ some [] := by
  have hencode : ∀ c : Char, urlPercentEncode c ≠ [] := by
    grind [urlPercentEncode, String.utf8EncodeChar]
  by_cases hhead : cs.head? = some '['
  · obtain ⟨rest, hrest⟩ := List.head?_eq_some_iff.mp hhead
    rw [urlHost_of_bracket hrest]
    split <;> simp
  · rw [urlHost_of_ne hhead]
    split
    · simp
    · cases cs with
      | nil => exact absurd rfl h
      | cons c cs => simp [hencode c]

theorem urlAuthority_plain (hat : '@' ∉ cs) (hport : urlSplitPort false cs = (cs, none)) :
    urlAuthority cs = (urlHost cs).map fun serial => ⟨false, false, String.ofList serial, none⟩ := by
  rw [urlAuthority, urlSplitCredentials_of_not_mem hat]
  simp only [Option.isSome_none, Bool.false_and, Bool.false_eq_true, if_false, hport]
  cases urlHost cs <;> rfl

theorem wellformed_parts (h : isWellformedMizuHost host = true) :
    host.toList ≠ [] ∧ '@' ∉ host.toList ∧
      ∃ cs, unbracketedHost host = some cs ∧ cs.any isForbiddenHostChar = false := by
  unfold isWellformedMizuHost at h
  split at h
  · cases h
  rename_i hcond
  simp only [Bool.or_eq_true, not_or, Bool.not_eq_true] at hcond
  refine ⟨?_, by simpa using hcond.2, ?_⟩
  · intro hnil
    rw [String.toList_eq_nil_iff.mp hnil] at hcond
    exact absurd hcond.1 (by decide)
  · grind

/-- No character of a well-formed host is a control character. -/
theorem not_forbidden_of_bare (hat : '@' ∉ cs) (hcolon : ':' ∉ cs)
    (h : cs.any isForbiddenHostChar = false) : cs.any isUrlForbiddenHostChar = false := by
  rw [any_eq_false] at h ⊢
  intro c hc hurl
  have hfree := h c hc
  have hrange : ¬c.toNat < 0x20 ∧ c.toNat ≠ 0x7f := by
    simp only [isForbiddenHostChar, Bool.or_eq_true, decide_eq_true_eq] at hfree
    omega
  rcases (isUrlForbiddenHostChar_iff hrange.1 hrange.2).mp hurl with hforbidden | rfl | rfl
  · exact hfree hforbidden
  · exact hcolon hc
  · exact hat hc

/-- The authority that is a well-formed host says nothing else. -/
theorem urlAuthority_of_wellformed (h : isWellformedMizuHost host = true) :
    ∃ serial, urlHost host.toList = some serial ∧
      urlAuthority host.toList = some ⟨false, false, String.ofList serial, none⟩ := by
  obtain ⟨hne, hat, cs, hcs, hforbidden⟩ := wellformed_parts h
  have hsuffices : (urlHost host.toList).isSome → urlSplitPort false host.toList = (host.toList, none) →
      ∃ serial, urlHost host.toList = some serial ∧
        urlAuthority host.toList = some ⟨false, false, String.ofList serial, none⟩ := by
    intro hsome hport
    obtain ⟨serial, hserial⟩ := Option.isSome_iff_exists.mp hsome
    exact ⟨serial, hserial, by rw [urlAuthority_plain hat hport, hserial]; rfl⟩
  by_cases hhead : host.toList.head? = some '['
  · obtain ⟨rest, hrest⟩ : ∃ rest, host.toList = '[' :: rest := ⟨_, eq_cons_of_mem_head? hhead⟩
    rw [unbracketedHost_of_bracket hrest] at hcs
    split at hcs
    · rename_i hcond
      obtain ⟨hlast, -, hparses⟩ := hcond
      obtain rfl := Option.some.inj hcs
      have hsplit : rest = rest.dropLast ++ [']'] := (dropLast_append_getLast? _ hlast).symm
      rw [ipv6Parses_eq] at hparses
      refine hsuffices ?_ ?_
      · rw [urlHost_of_bracket hrest, if_pos hlast, Option.isSome_map]
        exact hparses
      · have hclose : ']' ∉ rest.dropLast := fun hmem =>
          absurd (any_eq_false.mp hforbidden ']' hmem) (by decide)
        rw [hrest, urlSplitPort, hsplit]
        simp [urlSplitPort_brackets hclose]
    · cases hcs
  · rw [unbracketedHost_of_ne hhead] at hcs
    split at hcs
    · cases hcs
    rename_i hcolon
    obtain rfl := Option.some.inj hcs
    have hcolon : ':' ∉ host.toList := by simpa using hcolon
    refine hsuffices ?_ (urlSplitPort_of_not_mem hcolon)
    rw [urlHost_of_ne hhead, not_forbidden_of_bare hat hcolon hforbidden]
    rfl

/-- Neither credentials nor a port are written with the host, not even empty ones. -/
def NoCredentialsOrPort (host : String) : Prop :=
  '@' ∉ host.toList ∧ (':' ∈ host.toList → host.toList.getLast? = some ']')

instance (host : String) : Decidable (NoCredentialsOrPort host) := inferInstanceAs (Decidable (_ ∧ _))

/-- A port that is taken consists of digits. -/
theorem urlSplitPort_suffix {insideBrackets : Bool} {cs host port : List Char}
    (h : urlSplitPort insideBrackets cs = (host, some port)) : cs = host ++ ':' :: port := by
  induction cs generalizing insideBrackets host with
  | nil => cases h
  | cons c cs ih =>
    rw [urlSplitPort] at h
    split at h
    · grind
    · grind

theorem urlSplitPort_none {insideBrackets : Bool} {cs host : List Char}
    (h : urlSplitPort insideBrackets cs = (host, none)) : host = cs := by
  induction cs generalizing insideBrackets host with
  | nil => exact (Prod.mk.inj h).1.symm
  | cons c cs ih => grind [urlSplitPort]

theorem toDigit_of_spanDigits {radix : Nat} (h : (spanDigits radix cs).2 = []) :
    ∀ c ∈ cs, (toDigit radix c).isSome := by
  grind [drop_eq_nil_iff, spanDigits_drop, toDigit_of_mem_take]

/-- No port was read, if none is written. -/
theorem urlSplitPort_of_plain (hplain : NoCredentialsOrPort host)
    (h : (urlPort ((urlSplitPort false host.toList).2.getD [])).isSome) :
    urlSplitPort false host.toList = (host.toList, none) := by
  cases hsplit : urlSplitPort false host.toList with
  | mk left port =>
    cases port with
    | none => rw [urlSplitPort_none hsplit]
    | some port =>
      -- The text would end in a digit or in the colon.
      exfalso
      have hcs := urlSplitPort_suffix hsplit
      have hlast := hplain.2 (by rw [hcs]; simp)
      rw [hsplit, Option.getD_some] at h
      rw [hcs, List.getLast?_append] at hlast
      cases port with
      | nil => simp at hlast
      | cons c port =>
        unfold urlPort at h
        simp only [isEmpty_cons, Bool.false_eq_true, if_false] at h
        split at h
        · rename_i hcond
          have hnil : (spanDigits 10 (c :: port)).2 = [] := by grind
          have hmem : ']' ∈ c :: port := by grind
          exact absurd (toDigit_of_spanDigits hnil ']' hmem) (by decide)
        · cases h

/-- An authority that the standard takes, spelled without credentials and port, is a well-formed host. -/
theorem wellformed_of_urlAuthority {authority : UrlAuthority} (hne : host.toList ≠ [])
    (hcontrol : ∀ c ∈ host.toList, ¬c.toNat < 0x20 ∧ c.toNat ≠ 0x7f) (hplain : NoCredentialsOrPort host)
    (h : urlAuthority host.toList = some authority) : isWellformedMizuHost host = true := by
  have hport : urlSplitPort false host.toList = (host.toList, none) := by
    refine urlSplitPort_of_plain hplain ?_
    rw [urlAuthority, urlSplitCredentials_of_not_mem hplain.1] at h
    simp only [Option.isSome_none, Bool.false_and, Bool.false_eq_true, if_false, Option.bind_eq_bind] at h
    split at h
    · cases h
    · grind [Option.bind_eq_some_iff]
  rw [urlAuthority_plain hplain.1 hport, Option.map_eq_some_iff] at h
  obtain ⟨serial, hserial, -⟩ := h
  have hempty : host.isEmpty = false := by
    rw [← Bool.not_eq_true, String.isEmpty_iff]
    rintro rfl
    exact hne rfl
  suffices hparts : ∃ cs, unbracketedHost host = some cs ∧ cs.any isForbiddenHostChar = false by
    obtain ⟨cs, hcs, hforbidden⟩ := hparts
    simp [isWellformedMizuHost, hempty, hplain.1, hcs, hforbidden]
  by_cases hhead : host.toList.head? = some '['
  · obtain ⟨rest, hrest⟩ : ∃ rest, host.toList = '[' :: rest := ⟨_, eq_cons_of_mem_head? hhead⟩
    rw [urlHost_of_bracket hrest] at hserial
    split at hserial
    · rename_i hlast
      obtain ⟨pieces, hpieces, -⟩ := Option.map_eq_some_iff.mp hserial
      have hsome : (urlIpv6 rest.dropLast).isSome := by rw [hpieces]; rfl
      have hinner : (!rest.dropLast.isEmpty) = true := by grind [urlIpv6, urlIpv6Pieces, urlIpv6End]
      refine ⟨rest.dropLast, ?_, any_eq_false.mpr fun c hc => ?_⟩
      · rw [unbracketedHost_of_bracket hrest, if_pos ⟨hlast, hinner, (ipv6Parses_eq _).trans hsome⟩]
      · rw [not_forbidden_of_address (urlIpv6_chars hsome c hc)]
        decide
    · cases hserial
  · rw [urlHost_of_ne hhead] at hserial
    split at hserial
    · cases hserial
    rename_i hforbidden
    rw [Bool.not_eq_true, any_eq_false] at hforbidden
    have hcolon : ':' ∉ host.toList := fun hmem => hforbidden ':' hmem (by decide)
    refine ⟨host.toList, ?_, any_eq_false.mpr fun c hc hbad => ?_⟩
    · rw [unbracketedHost_of_ne hhead, if_neg (by simpa using hcolon)]
    · grind [isUrlForbiddenHostChar_iff]

end Hosts

section Parse

variable {urlParse : String → Except String ParsedUrl} {url host : String}

theorem dropWhile_reverse_prefix (p : Char → Bool) {cs visible : List Char} (hlead : visible <+: cs)
    (h : ∀ c ∈ visible, p c = false) : visible <+: (cs.reverse.dropWhile p).reverse := by
  obtain ⟨rest, rfl⟩ := hlead
  rw [reverse_append, dropWhile_append]
  split
  · have hkeep : visible.reverse.dropWhile p = visible.reverse := by
      cases hcs : visible.reverse with
      | nil => rfl
      | cons c cs =>
        have hc := h c (mem_reverse.mp (by rw [hcs]; exact .head _))
        rw [dropWhile_cons, if_neg (by rw [hc]; decide)]
    rw [hkeep, reverse_reverse]
  · rw [reverse_append, reverse_reverse]
    exact prefix_append _ _

/-- What is cut off behind the first characters does not change them. -/
theorem takeWhile_of_prefix {p : Char → Bool} {first more cs : List Char} (h : cs.takeWhile p = first)
    (hlead : first ++ more <+: cs) : (first ++ more).takeWhile p = first := by
  induction first generalizing cs with
  | nil =>
    obtain ⟨tail, rfl⟩ := hlead
    cases more with
    | nil => rfl
    | cons c more =>
      rw [nil_append, cons_append, takeWhile_cons] at h
      rw [nil_append, takeWhile_cons]
      split at h
      · cases h
      · rename_i hc
        rw [if_neg hc]
  | cons c first ih =>
    obtain ⟨tail, rfl⟩ := hlead
    rw [cons_append, cons_append, takeWhile_cons] at h
    rw [cons_append, takeWhile_cons]
    split at h
    · rename_i hc
      rw [if_pos hc, ih (List.cons.inj h).2 (prefix_append _ _)]
    · cases h

theorem toList_of_mizuDomain (h : mizuDomain url = some host) :
    ∃ rest, url.toList = "mizu://".toList ++ rest ∧ rest.takeWhile (!isHostEnd ·) = host.toList ∧
      host.toList ≠ [] := by
  unfold mizuDomain stripPrefix at h
  split at h
  · cases h
  rename_i rest hstrip
  split at hstrip
  · rename_i hstart
    obtain rfl := Option.some.inj hstrip
    simp only [startsWith, isPrefixOf_iff_prefix] at hstart
    obtain ⟨tail, htail⟩ := hstart
    rw [← htail, drop_left, String.toList_ofList] at h
    dsimp only at h
    split at h
    · cases h
    · rename_i hne
      obtain rfl := Option.some.inj h
      exact ⟨tail, htail.symm, String.toList_ofList.symm, by simpa using hne⟩
  · cases hstrip

/-- Where the standard sees the scheme and the authority. -/
theorem urlScheme_of_mizuDomain (hcontrol : ∀ c ∈ url.toList, ¬c.toNat < 0x20)
    (h : mizuDomain url = some host) (hvisible : ∀ c ∈ host.toList, 0x20 < c.toNat) :
    ∃ rest, urlScheme url.toList = some ("mizu", '/' :: '/' :: rest) ∧
      rest.takeWhile (!isHostEnd ·) = host.toList := by
  obtain ⟨rest, hrest, htake, -⟩ := toList_of_mizuDomain h
  obtain ⟨tail, htail⟩ : ∃ tail, rest = host.toList ++ tail :=
    ⟨_, by rw [← htake]; exact takeWhile_append_dropWhile.symm⟩
  have hscheme : ∀ c ∈ "mizu://".toList, 0x20 < c.toNat := by simp
  have hlead : "mizu://".toList ++ host.toList <+: url.toList := by grind
  have hkept := dropWhile_reverse_prefix (fun c => c.toNat ≤ 0x20) hlead fun c hc => by
    rcases mem_append.mp hc with hc | hc
    · simpa using hscheme c hc
    · simpa using hvisible c hc
  -- Only blanks at the end are cleaned away.
  have hcleaned : urlCleaned url.toList = (url.toList.reverse.dropWhile (·.toNat ≤ 0x20)).reverse := by
    have hstart : url.toList.dropWhile (·.toNat ≤ 0x20) = url.toList := by rw [hrest]; rfl
    rw [urlCleaned, hstart, filter_eq_self]
    intro c hc
    have hmem : c ∈ url.toList := by
      rw [mem_reverse] at hc
      exact mem_reverse.mp ((dropWhile_sublist _).subset hc)
    have hlow := hcontrol c hmem
    have hne : ∀ d : Char, d.toNat < 0x20 → c ≠ d := fun d hd heq => hlow (heq ▸ hd)
    simp [hne '\t' (by decide), hne '\n' (by decide), hne '\r' (by decide)]
  obtain ⟨more, hmore⟩ := hkept
  refine ⟨host.toList ++ more, ?_, ?_⟩
  · rw [urlScheme, hcleaned, ← hmore, append_assoc]
    rfl
  · -- What is left is a prefix, so the host ends where it ended.
    have hsub : host.toList ++ more <+: rest := by
      have hall : "mizu://".toList ++ (host.toList ++ more) <+: "mizu://".toList ++ rest := by
        rw [← append_assoc, hmore, ← hrest]
        have := reverse_prefix.mpr (dropWhile_suffix (fun c : Char => c.toNat ≤ 0x20) (l := url.toList.reverse))
        rwa [reverse_reverse] at this
      exact (prefix_append_right_inj _).mp hall
    exact takeWhile_of_prefix htake hsub

theorem parse_ok_iff {uri : MizuUri} : MizuUri.parse urlParse url = .ok uri ↔
    (∀ c ∈ url.toList, ¬c.toNat < 0x20 ∧ c.toNat ≠ 0x7f) ∧
      ∃ parsed, urlParse url = .ok parsed ∧ parsed.scheme = "mizu" ∧
        parsed.host.filter (!·.isEmpty) = some uri.domain ∧ parsed.username.isEmpty = true ∧
        parsed.password = none ∧ parsed.port = none ∧
        uri.path = if parsed.path.isEmpty then "/"
          else match parsed.query with
            | some q => parsed.path ++ "?" ++ q
            | none => parsed.path := by
  unfold MizuUri.parse
  constructor
  · intro h
    split at h
    · cases h
    rename_i hcontrol
    split at h
    · cases h
    rename_i parsed hparsed
    split at h
    · cases h
    rename_i hscheme
    split at h
    · cases h
    rename_i domain hhost
    split at h
    · cases h
    rename_i hcredentials
    split at h
    · cases h
    rename_i hport
    obtain rfl := Except.ok.inj h
    simp only [Bool.or_eq_true, not_or, Bool.not_eq_true, Bool.not_eq_false', Option.isSome_eq_false_iff,
      Option.isNone_iff_eq_none] at hcredentials hport
    refine ⟨fun c hc => ?_, parsed, hparsed, not_not.mp hscheme, hhost, hcredentials.1, hcredentials.2, hport, rfl⟩
    have hc := mt (fun hbad => any_eq_true.mpr ⟨c, hc, hbad⟩) hcontrol
    simpa using hc
  · rintro ⟨hcontrol, parsed, hparsed, hscheme, hhost, husername, hpassword, hport, hpath⟩
    have hany : (url.toList.any fun c => c.toNat < 0x20 || c.toNat = 0x7f) = false := by grind
    rw [if_neg (by rw [hany]; decide), hparsed]
    simp only [hscheme, ne_eq, not_true, if_false, hhost, husername, hpassword, hport, Bool.not_true,
      Option.isSome_none, Bool.or_self, Bool.false_eq_true, ← hpath]

variable (hurl : FollowsStandard urlParse)

include hurl

/-- A text with the scheme `mizu` and an authority is read exactly if the authority is a host alone. -/
theorem parse_authority_iff {rest : List Char} {domain : String}
    (hcontrol : ∀ c ∈ url.toList, ¬c.toNat < 0x20 ∧ c.toNat ≠ 0x7f)
    (hrest : urlScheme url.toList = some ("mizu", '/' :: '/' :: rest)) :
    (∃ uri, MizuUri.parse urlParse url = .ok uri ∧ uri.domain = domain) ↔
      urlAuthority (rest.takeWhile (!isHostEnd ·)) = some ⟨false, false, domain, none⟩ ∧ domain ≠ "" := by
  have hisEmpty : ∀ s : String, (!s.isEmpty) = true ↔ s ≠ "" := fun s => by simp
  constructor
  · rintro ⟨uri, h, rfl⟩
    obtain ⟨-, parsed, hparsed, hscheme, hhost, husername, hpassword, hport, -⟩ := parse_ok_iff.mp h
    obtain ⟨authority, hauthority, hhost', husername', hpassword', hport'⟩ :=
      hurl.authority hparsed (by rw [hscheme]; exact hrest) (by rw [hscheme]; decide)
    rw [urlAfterScheme, Option.map_eq_map, Option.map_eq_some_iff] at hauthority
    obtain ⟨⟨hasUsername, hasPassword, host', port⟩, hauthority, rfl⟩ := hauthority
    rw [hhost] at hhost'
    simp only [Option.map_some, Option.any_some, Option.bind_some] at hhost' husername' hpassword' hport'
    obtain ⟨hdomain, hne⟩ := Option.filter_eq_some_iff.mp hhost'.symm
    rw [husername] at husername'
    rw [hpassword] at hpassword'
    rw [hport] at hport'
    rw [hauthority, ← husername', ← hpassword', ← hport', Option.some.inj hdomain]
    exact ⟨rfl, (hisEmpty _).mp hne⟩
  · rintro ⟨hauthority, hne⟩
    have hafter : urlAfterScheme ('/' :: '/' :: rest) = some (some ⟨false, false, domain, none⟩) := by
      rw [urlAfterScheme, hauthority]
      rfl
    obtain ⟨parsed, hparsed⟩ := hurl.accepts hrest (by decide) (by rw [hafter]; rfl)
    obtain ⟨rest', hrest'⟩ := hurl.scheme hparsed
    rw [hrest] at hrest'
    obtain ⟨hscheme, -⟩ := Prod.mk.inj (Option.some.inj hrest')
    obtain ⟨authority, hauthority', hhost, husername, hpassword, hport⟩ :=
      hurl.authority hparsed (by rw [← hscheme]; exact hrest) (by rw [← hscheme]; decide)
    rw [hafter] at hauthority'
    obtain rfl := Option.some.inj hauthority'
    simp only [Option.map_some, Option.any_some, Option.bind_some] at hhost husername hpassword hport
    have hfilter : parsed.host.filter (!·.isEmpty) = some domain := by grind
    exact ⟨⟨domain, _⟩, parse_ok_iff.mpr ⟨hcontrol, parsed, hparsed, hscheme.symm, hfilter,
      by simpa using husername, by simpa using hpassword, hport, rfl⟩, rfl⟩

/-- What is fetched has the authority that the policy sees. -/
theorem authority_of_parse {uri : MizuUri} (h : MizuUri.parse urlParse url = .ok uri)
    (hdomain : mizuDomain url = some host) (hvisible : ∀ c ∈ host.toList, 0x20 < c.toNat) :
    urlAuthority host.toList = some ⟨false, false, uri.domain, none⟩ := by
  have hcontrol := (parse_ok_iff.mp h).1
  obtain ⟨rest, hrest, htake⟩ := urlScheme_of_mizuDomain (fun c hc => (hcontrol c hc).1) hdomain hvisible
  rw [← htake]
  exact ((parse_authority_iff hurl hcontrol hrest).mp ⟨uri, h, rfl⟩).1

/-- A target with a host that the policy takes is fetched from that host. -/
theorem parse_of_wellformed (hcontrol : ∀ c ∈ url.toList, ¬c.toNat < 0x20 ∧ c.toNat ≠ 0x7f)
    (hdomain : mizuDomain url = some host) (hwell : isWellformedMizuHost host = true) :
    ∃ uri serial, MizuUri.parse urlParse url = .ok uri ∧ urlHost host.toList = some serial ∧
      uri.domain = String.ofList serial := by
  obtain ⟨rest, hrest, htake⟩ :=
    urlScheme_of_mizuDomain (fun c hc => (hcontrol c hc).1) hdomain (isWellformedMizuHost_lt hwell)
  obtain ⟨serial, hserial, hauthority⟩ := urlAuthority_of_wellformed hwell
  have hne : String.ofList serial ≠ "" := by
    intro hempty
    have hnil : serial = [] := by simpa using congrArg String.toList hempty
    exact urlHost_ne_nil (toList_of_mizuDomain hdomain).choose_spec.2.2 (hnil ▸ hserial)
  obtain ⟨uri, hparse, hhost⟩ := (parse_authority_iff hurl hcontrol hrest).mpr ⟨by rw [htake]; exact hauthority, hne⟩
  exact ⟨uri, serial, hparse, hserial, hhost⟩

end Parse

/-! ## The policy and the fetch -/

/-- The host that is connected to, for a host as it is written. -/
def fetchedHost (host : String) : Option String := (urlHost host.toList).map String.ofList

/-- A name in printable ASCII, not an address between brackets. -/
def IsAsciiName (host : String) : Prop :=
  host.toList.head? ≠ some '[' ∧ ∀ c ∈ host.toList, 0x20 < c.toNat ∧ c.toNat < 0x7f

instance (host : String) : Decidable (IsAsciiName host) := @instDecidableAnd _ _ _ (List.decidableBAll _ _)

/-- The host is all that the authority holds, and there is no blank in it. -/
def SpelledPlainly (host : String) : Prop := NoCredentialsOrPort host ∧ ∀ c ∈ host.toList, 0x20 < c.toNat

instance (host : String) : Decidable (SpelledPlainly host) := @instDecidableAnd _ _ _ (List.decidableBAll _ _)

/-- A name in ASCII is fetched as it is written. -/
theorem urlHost_of_ascii {host : String} {serial : List Char} (hname : IsAsciiName host)
    (h : urlHost host.toList = some serial) : serial = host.toList := by
  rw [urlHost_of_ne hname.1] at h
  split at h
  · cases h
  · obtain rfl := Option.some.inj h
    have hkeep : ∀ cs : List Char, (∀ c ∈ cs, 0x20 < c.toNat ∧ c.toNat < 0x7f) →
        cs.flatMap urlPercentEncode = cs := by
      intro cs hcs
      induction cs with
      | nil => rfl
      | cons c cs ih =>
        obtain ⟨hlow, hhigh⟩ := hcs c (.head _)
        rw [flatMap_cons, ih fun d hd => hcs d (.tail _ hd), urlPercentEncode,
          if_pos (show 0x20 ≤ c.toNat ∧ c.toNat ≤ 0x7e by omega)]
        rfl
    exact hkeep _ hname.2

/-- What the policy allows has no control characters. -/
theorem no_control_of_allow {currentUrl target url : String} {initiator : NavigationInitiator}
    (h : checkNavigation currentUrl target initiator = .allow url) :
    ∀ c ∈ url.toList, ¬c.toNat < 0x20 ∧ c.toNat ≠ 0x7f := by
  unfold checkNavigation at h
  split at h
  · cases h
  split at h
  · cases h
  rename_i hcontrol
  have htarget : ∀ c ∈ target.toList, ¬c.toNat < 0x20 ∧ c.toNat ≠ 0x7f := by grind
  split at h
  · rwa [(checkScheme_allow h).1]
  split at h
  · cases h
    exact htarget
  · rw [(checkScheme_allow h).1, String.toList_append]
    intro c hc
    rcases mem_append.mp hc with hc | hc
    · have hscheme : ∀ c ∈ "mizu://".toList, ¬c.toNat < 0x20 ∧ c.toNat ≠ 0x7f := by simp
      exact hscheme c hc
    · exact htarget c hc

/-- Whatever starts it, a navigation on the same origin is allowed. -/
theorem checkNavigation_of_sameOrigin {currentUrl target : String}
    (hcontrol : ∀ c ∈ target.toList, ¬c.toNat < 0x20 ∧ c.toNat ≠ 0x7f)
    (hsame : isSameOrigin currentUrl target = true) (initiator : NavigationInitiator) :
    checkNavigation currentUrl target initiator = .allow target := by
  obtain ⟨_, host, -, hdomain, -, hwell, -⟩ := isSameOrigin_iff.mp hsame
  have hmizu := startsWith_of_mizuDomain hdomain
  obtain ⟨rest, hrest, -⟩ := toList_of_mizuDomain hdomain
  have hempty : target.isEmpty = false := by
    rw [← Bool.not_eq_true, String.isEmpty_iff]
    rintro rfl
    simp at hrest
  have hany : (target.toList.any fun c => c.toNat < 0x20 || c.toNat = 0x7f) = false :=
    any_eq_false.mpr fun c hc => by simpa using hcontrol c hc
  have hother : ∀ p : String, p.toList.head?.any (· ≠ 'm') = true → startsWith p target = false := by
    intro p hp
    rw [startsWith, hrest, ← Bool.not_eq_true, isPrefixOf_iff_prefix]
    rintro ⟨tail, htail⟩
    cases hcs : p.toList with
    | nil => simp [hcs] at hp
    | cons c cs => grind
  rw [checkNavigation, hempty, hany, containsScheme_of_startsWith hmizu (by decide)]
  simp only [Bool.false_eq_true, if_false, if_true]
  rw [checkScheme, hother "http://" (by decide), hother "https://" (by decide), hother "file://" (by decide), hmizu]
  simp only [Bool.or_self, Bool.false_eq_true, if_false, if_true, hdomain, hwell, Bool.not_true, hsame]

section Agreement

variable {urlParse : String → Except String ParsedUrl} (hurl : FollowsStandard urlParse)

include hurl

/-- What is fetched is taken by the policy, if it is spelled as the policy reads it. -/
theorem wellformed_of_parse {url host : String} {uri : MizuUri} (h : MizuUri.parse urlParse url = .ok uri)
    (hdomain : mizuDomain url = some host) (hplain : SpelledPlainly host) :
    isWellformedMizuHost host = true ∧ (IsAsciiName host → uri.domain = host) := by
  obtain ⟨hcontrol, -⟩ := parse_ok_iff.mp h
  obtain ⟨rest, hrest, htake, hne⟩ := toList_of_mizuDomain hdomain
  have hauthority := authority_of_parse hurl h hdomain hplain.2
  have hwell : isWellformedMizuHost host = true := by
    refine wellformed_of_urlAuthority hne (fun c hc => hcontrol c ?_) hplain.1 hauthority
    rw [hrest, mem_append, ← htake] at *
    exact .inr ((takeWhile_sublist _).subset hc)
  refine ⟨hwell, fun hname => ?_⟩
  obtain ⟨serial, hserial, hauthority'⟩ := urlAuthority_of_wellformed hwell
  rw [hauthority, Option.some.injEq, UrlAuthority.mk.injEq] at hauthority'
  rw [hauthority'.2.2.1, urlHost_of_ascii hname hserial, String.ofList_toList]

/-- A target that the policy allows is fetched from the host it judged, as the standard writes that host;
and a target that is fetched from the domain of the document is allowed, if both are spelled plainly. -/
theorem policy_meets_fetcher :
    (∀ currentUrl target initiator url, checkNavigation currentUrl target initiator = .allow url →
      startsWith "mizu://" url → ∃ host uri, mizuDomain url = some host ∧ isWellformedMizuHost host = true ∧
        MizuUri.parse urlParse url = .ok uri ∧ fetchedHost host = some uri.domain ∧
        (IsAsciiName host → uri.domain = host)) ∧
    (∀ currentUrl target host host' current uri, mizuDomain currentUrl = some host →
      mizuDomain target = some host' → SpelledPlainly host → SpelledPlainly host' →
      MizuUri.parse urlParse currentUrl = .ok current → MizuUri.parse urlParse target = .ok uri →
      (IsAsciiName host ∧ IsAsciiName host' ∧ eqIgnoreAsciiCase current.domain uri.domain = true) ∨
        eqIgnoreAsciiCase host host' = true →
      ∀ initiator, checkNavigation currentUrl target initiator = .allow target ∧
        isSameOrigin currentUrl target = true) := by
  refine ⟨fun currentUrl target initiator url hallow hmizu => ?_, ?_⟩
  · obtain ⟨⟨host, hdomain, hwell⟩, -⟩ := checkNavigation_allow hallow hmizu
    obtain ⟨uri, serial, huri, hserial, hname⟩ :=
      parse_of_wellformed hurl (no_control_of_allow hallow) hdomain hwell
    refine ⟨host, uri, hdomain, hwell, huri, by rw [fetchedHost, hserial, hname]; rfl, fun hascii => ?_⟩
    rw [hname, urlHost_of_ascii hascii hserial, String.ofList_toList]
  · intro currentUrl target host host' current uri hdomain hdomain' hplain hplain' hcurrent huri hlike initiator
    obtain ⟨hwell, hname⟩ := wellformed_of_parse hurl hcurrent hdomain hplain
    obtain ⟨hwell', hname'⟩ := wellformed_of_parse hurl huri hdomain' hplain'
    have hcase : eqIgnoreAsciiCase host host' = true := by
      rcases hlike with ⟨hascii, hascii', heq⟩ | heq
      · rwa [hname hascii, hname' hascii'] at heq
      · exact heq
    have hsame : isSameOrigin currentUrl target = true := by
      rw [isSameOrigin, hdomain, hdomain']
      simp [hwell, hwell', hcase]
    have hmizu := startsWith_of_mizuDomain hdomain'
    exact ⟨checkNavigation_of_sameOrigin (parse_ok_iff.mp huri).1 hsame initiator, hsame⟩

end Agreement

/-! ### A library -/

/-- What follows the scheme and the authority: the path, and the query after it. -/
def plainPath (rest : List Char) : String × Option String :=
  let rest :=
    match rest with
    | '/' :: '/' :: rest => rest.dropWhile (!isHostEnd ·)
    | rest => rest
  let path := rest.takeWhile fun c => c ≠ '?' && c ≠ '#'
  (String.ofList path,
    match rest.drop path.length with
    | '?' :: query => some (String.ofList (query.takeWhile (· ≠ '#')))
    | _ => none)

/-- The parser of the library on URLs whose path needs no normalisation; it keeps of credentials only
whether there are any. -/
def plainUrlParse (input : String) : Except String ParsedUrl :=
  match urlScheme input.toList with
  | none => .error "relative URL without a base"
  | some (scheme, rest) =>
    if isSpecialScheme scheme then .error "invalid domain character"
    else
      match urlAfterScheme rest with
      | none => .error "invalid domain character"
      | some authority =>
        .ok {
          scheme
          username := if authority.any (·.hasUsername) then "user" else ""
          password := if authority.any (·.hasPassword) then some "password" else none
          host := authority.map (·.host)
          port := authority.bind (·.port)
          path := (plainPath rest).1
          query := (plainPath rest).2
        }

theorem plainUrlParse_ok {input : String} {parsed : ParsedUrl} (h : plainUrlParse input = .ok parsed) :
    ∃ scheme rest authority, urlScheme input.toList = some (scheme, rest) ∧
      urlAfterScheme rest = some authority ∧ parsed = {
        scheme
        username := if authority.any (·.hasUsername) then "user" else ""
        password := if authority.any (·.hasPassword) then some "password" else none
        host := authority.map (·.host)
        port := authority.bind (·.port)
        path := (plainPath rest).1
        query := (plainPath rest).2 } := by
  grind [plainUrlParse]

theorem plainUrlParse_follows : FollowsStandard plainUrlParse where
  scheme h := by
    obtain ⟨scheme, rest, authority, hscheme, -, rfl⟩ := plainUrlParse_ok h
    exact ⟨rest, hscheme⟩
  accepts hscheme hspecial hafter := by
    obtain ⟨authority, hauthority⟩ := Option.isSome_iff_exists.mp hafter
    unfold plainUrlParse
    rw [hscheme]
    simp only [hspecial, Bool.false_eq_true, if_false, hauthority]
    exact ⟨_, rfl⟩
  authority h hscheme' _ := by
    obtain ⟨scheme, rest, authority, hscheme, hauthority, rfl⟩ := plainUrlParse_ok h
    rw [hscheme] at hscheme'
    obtain ⟨-, rfl⟩ := Prod.mk.inj (Option.some.inj hscheme')
    refine ⟨authority, hauthority, rfl, ?_, ?_, rfl⟩
    · cases authority.any (·.hasUsername) <;> rfl
    · cases authority.any (·.hasPassword) <;> rfl

theorem policy_meets_fetcher_same_origin :
    (∃ host uri, mizuDomain "mizu://a.mizu/x" = some host ∧ isWellformedMizuHost host = true ∧
      MizuUri.parse plainUrlParse "mizu://a.mizu/x" = .ok uri ∧ fetchedHost host = some uri.domain ∧
      (IsAsciiName host → uri.domain = host)) ∧
    checkNavigation "mizu://a.mizu/" "mizu://A.mizu/y?q" .documentLogic = .allow "mizu://A.mizu/y?q" :=
  ⟨(policy_meets_fetcher plainUrlParse_follows).1 "mizu://b.mizu/" "a.mizu/x" .userGesture _ (by decide)
      (by decide),
    ((policy_meets_fetcher plainUrlParse_follows).2 "mizu://a.mizu/" "mizu://A.mizu/y?q" "a.mizu" "A.mizu"
      ⟨"a.mizu", "/"⟩ ⟨"A.mizu", "/y?q"⟩ (by decide) (by decide) (by decide) (by decide) (by decide) (by decide)
      (by decide) .documentLogic).1⟩

/-- A host outside of ASCII is judged as it is written and fetched as it is encoded; a scheme in capitals
is fetched and not allowed. -/
theorem policy_misses_fetcher : FollowsStandard plainUrlParse ∧
    ¬(∀ currentUrl target initiator url, checkNavigation currentUrl target initiator = .allow url →
      startsWith "mizu://" url → ∃ host uri, mizuDomain url = some host ∧
        MizuUri.parse plainUrlParse url = .ok uri ∧ eqIgnoreAsciiCase uri.domain host = true) ∧
    ¬(∀ currentUrl target current uri initiator, MizuUri.parse plainUrlParse currentUrl = .ok current →
      MizuUri.parse plainUrlParse target = .ok uri → uri.domain = current.domain →
      checkNavigation currentUrl target initiator = .allow target) := by
  refine ⟨plainUrlParse_follows, fun hall => ?_, fun hall => ?_⟩
  · obtain ⟨host, uri, hdomain, huri, hcase⟩ :=
      hall "mizu://b.mizu/" "mizu://é.mizu/" .userGesture "mizu://é.mizu/" (by decide) (by decide)
    have hhost : some host = some "é.mizu" := hdomain.symm.trans (by decide)
    have hfetched : (.ok uri : Except MizuError MizuUri) = .ok ⟨"%C3%A9.mizu", "/"⟩ := huri.symm.trans (by decide)
    obtain rfl := Option.some.inj hhost
    obtain rfl := Except.ok.inj hfetched
    exact absurd hcase (by decide)
  · have hallow := hall "mizu://a.mizu/" "MIZU://a.mizu/" ⟨"a.mizu", "/"⟩ ⟨"a.mizu", "/"⟩ .userGesture (by decide)
      (by decide) rfl
    exact absurd hallow (by decide)

end Mizu
