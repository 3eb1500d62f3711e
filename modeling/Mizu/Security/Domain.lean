import Mizu.Lib.Lowercase
import Mizu.Network.Response
import Mizu.Render.Commit

/-!
# Origins and storage domains

Two canonicalisations stand side by side: `isSameOrigin` compares the hosts of two URLs for the
navigation policy, `ValidatedDomain.fromRaw` names the encrypted store of an origin. They agree on
the hosts whose letters outside ASCII have no other lower case and that have no white space at their
ends (`Host.currentDomain_eq_iff`).
-/

namespace Mizu

open List

/-- `ValidatedDomain::from_raw`; `digest` is SHA-256 in hexadecimal. -/
def ValidatedDomain.fromRaw (table : CaseTable) (digest : String → String) (domain : String) :
    String :=
  digest (table.toLowercase (trim domain))

/-- The host with the storage identities of `ValidatedDomain::from_raw`. -/
def Host.hashed (host : Host) (table : CaseTable) (digest : String → String) : Host :=
  { host with storageIdentity := ValidatedDomain.fromRaw table digest }

/-- What `check_navigation` may commit. -/
def Committable (url : String) : Prop :=
  ∃ currentUrl target initiator, checkNavigation currentUrl target initiator = .allow url

/-! ## Letter case in hosts -/

section Lower

theorem isWhitespace_toLower (c : Char) : isWhitespace c.toLower = isWhitespace c :=
  toLower_invariant isWhitespace (by decide) c

theorem isForbiddenHostChar_toLower (c : Char) :
    isForbiddenHostChar c.toLower = isForbiddenHostChar c :=
  toLower_invariant isForbiddenHostChar (by decide) c

theorem toDigit_toLower {radix : Nat} (hradix : radix ≤ 16) (c : Char) :
    toDigit radix c.toLower = toDigit radix c := by
  have hle : ∀ r ≤ 16, ∀ i < 26, toDigit r (Char.ofNat (97 + i)) = toDigit r (Char.ofNat (65 + i)) := by
    decide
  exact toLower_invariant (toDigit radix) (hle radix hradix) c

variable (cs : List Char)

theorem spanDigits_map {radix : Nat} (hradix : radix ≤ 16) :
    spanDigits radix (cs.map Char.toLower) =
      ((spanDigits radix cs).1, (spanDigits radix cs).2.map Char.toLower) := by
  induction cs with
  | nil => rfl
  | cons c cs ih => grind [spanDigits, toDigit_toLower]

theorem readNumber_map {radix : Nat} (hradix : radix ≤ 16) (maxDigits bound : Nat) (zero : Bool) :
    readNumber radix maxDigits bound zero (cs.map Char.toLower) =
      (readNumber radix maxDigits bound zero cs).map fun p => (p.1, p.2.map Char.toLower) := by
  grind [spanDigits_map, readNumber]

theorem readSeparator_map {sep : Char} (hsep : ∀ c : Char, c.toLower = sep ↔ c = sep) (index : Nat) :
    readSeparator sep index (cs.map Char.toLower) =
      (readSeparator sep index cs).map (List.map Char.toLower) := by
  unfold readSeparator
  by_cases hi : index = 0
  · rw [if_pos hi, if_pos hi]
    rfl
  rw [if_neg hi, if_neg hi]
  cases cs with
  | nil => rfl
  | cons c cs => grind

theorem toLower_eq_colon (c : Char) : c.toLower = ':' ↔ c = ':' := toLower_eq_iff (by decide) c

theorem toLower_eq_dot (c : Char) : c.toLower = '.' ↔ c = '.' := toLower_eq_iff (by decide) c

theorem readIpv4_map (n : Nat) :
    readIpv4 n (cs.map Char.toLower) = (readIpv4 n cs).map (List.map Char.toLower) := by
  induction n generalizing cs with
  | zero => rfl
  | succ n ih =>
    rw [readIpv4, readIpv4, readSeparator_map cs toLower_eq_dot]
    cases readSeparator '.' (3 - n) cs with
    | none => rfl
    | some cs => grind [readNumber_map]

theorem readGroups_map (limit left : Nat) :
    readGroups limit left (cs.map Char.toLower) = ((readGroups limit left cs).1,
      (readGroups limit left cs).2.1, (readGroups limit left cs).2.2.map Char.toLower) := by
  induction left generalizing cs with
  | zero => rfl
  | succ left ih =>
    have hipv4 : ∀ i, (readSeparator ':' i (cs.map Char.toLower)).bind (readIpv4 4) =
        ((readSeparator ':' i cs).bind (readIpv4 4)).map (List.map Char.toLower) := by
      intro i
      rw [readSeparator_map cs toLower_eq_colon]
      cases readSeparator ':' i cs with
      | none => rfl
      | some cs => exact readIpv4_map cs 4
    have hgroup : ∀ i, (readSeparator ':' i (cs.map Char.toLower)).bind (readNumber 16 4 65536 true) =
        ((readSeparator ':' i cs).bind (readNumber 16 4 65536 true)).map
          fun p => (p.1, p.2.map Char.toLower) := by
      intro i
      rw [readSeparator_map cs toLower_eq_colon]
      cases readSeparator ':' i cs with
      | none => rfl
      | some cs => exact readNumber_map cs (by decide) 4 65536 true
    rw [readGroups, readGroups, hgroup, hipv4]
    generalize (readSeparator ':' (limit - (left + 1)) cs).bind (readIpv4 4) = ipv4
    generalize (readSeparator ':' (limit - (left + 1)) cs).bind (readNumber 16 4 65536 true) = group
    by_cases hi : limit - (left + 1) + 1 < limit
    · simp only [if_pos hi]
      cases ipv4 with
      | some rest => rfl
      | none =>
        cases group with
        | none => rfl
        | some p => exact ih p.2
    · simp only [if_neg hi]
      cases group with
      | none => rfl
      | some p => exact ih p.2

/-- An address is one in every letter case. -/
theorem ipv6Parses_map : ipv6Parses (String.ofList (cs.map Char.toLower)) =
    ipv6Parses (String.ofList cs) := by
  unfold ipv6Parses
  rw [String.toList_ofList, String.toList_ofList, readGroups_map]
  obtain ⟨size, isIpv4, rest⟩ := readGroups 8 8 cs
  dsimp only
  split
  · rw [isEmpty_map]
  split
  · rfl
  · match rest with
    | [] => rfl
    | [c] =>
      rw [map_singleton]
      simp
    | c :: d :: rest =>
      simp only [map_cons]
      by_cases hc : c = ':' ∧ d = ':'
      · obtain ⟨rfl, rfl⟩ := hc
        rw [show ':'.toLower = ':' by decide]
        simp only [readGroups_map, isEmpty_map]
      · grind [toLower_eq_colon]

theorem contains_map_toLower {d : Char} (hd : ∀ c : Char, c.toLower = d ↔ c = d) :
    (cs.map Char.toLower).contains d = cs.contains d := by
  grind

theorem unbracketedHost_of_bracket {host : String} {rest : List Char}
    (h : host.toList = '[' :: rest) : unbracketedHost host =
      if rest.getLast? = some ']' ∧ !rest.dropLast.isEmpty ∧
        ipv6Parses (String.ofList rest.dropLast) then some rest.dropLast else none := by
  rw [unbracketedHost, h]
  rfl

theorem unbracketedHost_of_ne {host : String} (h : host.toList.head? ≠ some '[') :
    unbracketedHost host = if host.toList.contains ':' then none else some host.toList := by
  grind [unbracketedHost]

theorem unbracketedHost_toAsciiLowercase (host : String) :
    unbracketedHost (toAsciiLowercase host) = (unbracketedHost host).map (List.map Char.toLower) := by
  have hopen : ∀ c : Char, c.toLower = '[' ↔ c = '[' := toLower_eq_iff (by decide)
  have hclose : ∀ c : Char, c.toLower = ']' ↔ c = ']' := toLower_eq_iff (by decide)
  have hlower : (toAsciiLowercase host).toList = host.toList.map Char.toLower := by
    rw [toAsciiLowercase, String.toList_ofList]
  by_cases hhead : host.toList.head? = some '['
  · obtain ⟨rest, hrest⟩ : ∃ rest, host.toList = '[' :: rest := by
      cases hcs : host.toList with
      | nil => simp [hcs] at hhead
      | cons c rest => grind
    have hlast : (rest.map Char.toLower).getLast? = some ']' ↔ rest.getLast? = some ']' := by grind
    rw [hrest, map_cons, (hopen '[').mpr rfl] at hlower
    rw [unbracketedHost_of_bracket hlower, unbracketedHost_of_bracket hrest, ← map_dropLast,
      ipv6Parses_map, isEmpty_map]
    simp only [hlast]
    split
    · rfl
    · rfl
  · grind [List.head?_map, unbracketedHost_of_ne, Option.map_eq_some_iff, toLower_eq_colon]

/-- A host is well-formed in every letter case. -/
theorem isWellformedMizuHost_toAsciiLowercase (host : String) :
    isWellformedMizuHost (toAsciiLowercase host) = isWellformedMizuHost host := by
  have hat : (toAsciiLowercase host).toList.contains '@' = host.toList.contains '@' := by
    rw [toAsciiLowercase, String.toList_ofList]
    exact contains_map_toLower host.toList (toLower_eq_iff (by decide))
  have hempty : (toAsciiLowercase host).isEmpty = host.isEmpty := by
    rw [Bool.eq_iff_iff, String.isEmpty_iff, String.isEmpty_iff, toAsciiLowercase,
      ← String.toList_inj, ← String.toList_inj]
    simp
  unfold isWellformedMizuHost
  rw [hat, hempty, unbracketedHost_toAsciiLowercase]
  split
  · rfl
  · cases unbracketedHost host with
    | none => rfl
    | some cs =>
      simp only [Option.map_some, any_map, Function.comp_def, isForbiddenHostChar_toLower]

end Lower

/-! ## Storage domains -/

section Domains

variable (table : CaseTable) (digest : String → String) (host : Host)

theorem trimEnd_map (cs : List Char) : trimEnd (cs.map Char.toLower) = (trimEnd cs).map Char.toLower := by
  have hspace : isWhitespace ∘ Char.toLower = isWhitespace := funext isWhitespace_toLower
  rw [trimEnd, trimEnd, ← map_reverse, dropWhile_map, hspace, map_reverse]

theorem trim_toAsciiLowercase (s : String) : trim (toAsciiLowercase s) = toAsciiLowercase (trim s) := by
  have hspace : isWhitespace ∘ Char.toLower = isWhitespace := funext isWhitespace_toLower
  simp only [trim, toAsciiLowercase, String.toList_ofList]
  rw [dropWhile_map, hspace, trimEnd_map]

/-- The domain that is hashed. -/
def normalised (domain : String) : String := table.toLowercase (trim domain)

/-- The letter case of ASCII does not reach the hash. -/
theorem normalised_toAsciiLowercase (s : String) :
    normalised table (toAsciiLowercase s) = normalised table s := by
  rw [normalised, trim_toAsciiLowercase, normalised, CaseTable.toLowercase, CaseTable.toLowercase,
    toAsciiLowercase, String.toList_ofList]
  exact congrArg String.ofList (table.lowercaseFrom_map [] (trim s).toList)

/-- A host that only loses its capitals of ASCII on the way to the hash. -/
def Settled (domain : String) : Prop :=
  trim domain = domain ∧ ∀ c ∈ domain.toList, table.Plain c

variable {domain : String}

theorem normalised_of_settled (h : Settled table domain) :
    normalised table domain = toAsciiLowercase domain := by
  rw [normalised, h.1, CaseTable.toLowercase, table.lowercaseFrom_of_plain h.2, toAsciiLowercase]

theorem rawDomain_of_mizuDomain {url domain : String} (h : mizuDomain url = some domain) :
    host.rawDomain url = domain := by
  grind [mizuDomain, Host.rawDomain]

theorem mizuDomain_eq_rawDomain {url : String} (h : startsWith "mizu://" url)
    (hne : host.rawDomain url ≠ "") : mizuDomain url = some (host.rawDomain url) := by
  have hstrip : stripPrefix "mizu://" url =
      some (String.ofList (url.toList.drop "mizu://".toList.length)) := by
    rw [stripPrefix, if_pos h]
  unfold Host.rawDomain at hne ⊢
  unfold mizuDomain
  simp only [hstrip] at hne ⊢
  rw [if_neg]
  intro hempty
  rw [isEmpty_iff.mp hempty] at hne
  exact hne rfl

/-- A committed URL of the network has a well-formed host. -/
theorem Committable.wellformed {url : String} (h : Committable url) (hmizu : startsWith "mizu://" url) :
    ∃ domain, mizuDomain url = some domain ∧ isWellformedMizuHost domain = true := by
  obtain ⟨currentUrl, target, initiator, hallow⟩ := h
  exact (checkNavigation_allow hallow hmizu).1

theorem trim_eq_self {s : String} (h : ∀ c ∈ s.toList, isWhitespace c = false) : trim s = s := by
  have hdrop : ∀ cs : List Char, (∀ c ∈ cs, isWhitespace c = false) → cs.dropWhile isWhitespace = cs := by
    intro cs hcs
    cases cs with
    | nil => rfl
    | cons c cs => rw [dropWhile_cons, if_neg (by rw [hcs c (.head _)]; decide)]
  rw [trim, hdrop _ h, trimEnd, hdrop _ (fun c hc => h c (mem_reverse.mp hc)), reverse_reverse,
    String.ofList_toList]

/-- No character of a well-formed host is a blank or a control character. -/
theorem isWellformedMizuHost_lt (h : isWellformedMizuHost domain = true) :
    ∀ c ∈ domain.toList, 0x20 < c.toNat := by
  have hgt : ∀ c, isForbiddenHostChar c = false → 0x20 < c.toNat := by
    grind [isForbiddenHostChar, Bool.or_eq_false_iff, decide_eq_false_iff_not]
  unfold isWellformedMizuHost at h
  split at h
  · cases h
  split at h
  · cases h
  rename_i cs hcs
  have hall : ∀ c ∈ cs, 0x20 < c.toNat := by grind
  by_cases hhead : domain.toList.head? = some '['
  · obtain ⟨rest, hrest⟩ := List.head?_eq_some_iff.mp hhead
    rw [unbracketedHost_of_bracket hrest] at hcs
    split at hcs
    · rename_i hlast
      obtain rfl := Option.some.inj hcs
      rw [hrest, ← dropLast_append_getLast? ']' hlast.1]
      intro c hc
      rcases mem_cons.mp hc with rfl | hc
      · decide
      rcases mem_append.mp hc with hc | hc
      · exact hall c hc
      · obtain rfl := mem_singleton.mp hc
        decide
    · cases hcs
  · rw [unbracketedHost_of_ne hhead] at hcs
    split at hcs
    · cases hcs
    · obtain rfl := Option.some.inj hcs
      exact hall

/-- Every well-formed host in ASCII is settled. -/
theorem settled_of_ascii (h : isWellformedMizuHost domain = true)
    (hascii : ∀ c ∈ domain.toList, c.toNat < 128) : Settled table domain := by
  refine ⟨trim_eq_self fun c hc => ?_, fun c hc => .inl (hascii c hc)⟩
  have hlo := isWellformedMizuHost_lt h c hc
  have hhi := hascii c hc
  simp only [isWhitespace, Bool.or_eq_false_iff, Bool.and_eq_false_iff, decide_eq_false_iff_not]
  omega

theorem trimEnd_append {cs : List Char} (h : ∃ c, cs.getLast? = some c ∧ isWhitespace c = false)
    (ds : List Char) : trimEnd (cs ++ ds) = cs ++ trimEnd ds := by
  obtain ⟨c, hc, hspace⟩ := h
  have hkeep : cs.reverse.dropWhile isWhitespace = cs.reverse := by
    rw [← List.head?_reverse] at hc
    obtain ⟨rest, hrest⟩ := List.head?_eq_some_iff.mp hc
    rw [hrest, dropWhile_cons, if_neg (by rw [hspace]; decide)]
  rw [trimEnd, trimEnd, reverse_append, dropWhile_append]
  split
  · rename_i hempty
    rw [hkeep, isEmpty_iff.mp hempty]
    simp
  · simp

/-- The name that is hashed for a file keeps its prefix. -/
theorem normalised_file (path : String) : startsWith "file_" (normalised table ("file_" ++ path)) := by
  have hlist : "file_".toList = ['f', 'i', 'l', 'e', '_'] := by decide
  have htrim : (trim ("file_" ++ path)).toList = "file_".toList ++ trimEnd path.toList := by
    rw [trim, String.toList_append, String.toList_ofList, ← trimEnd_append ⟨'_', by rw [hlist]; rfl,
      by decide⟩, hlist, cons_append, dropWhile_cons, if_neg (by decide)]
  have hplain : ∀ c ∈ "file_".toList, table.Plain c := by
    rw [hlist]
    intro c hc
    simp only [mem_cons, not_mem_nil, or_false] at hc
    rcases hc with rfl | rfl | rfl | rfl | rfl <;> exact .inl (by decide)
  have hlower : "file_".toList.map Char.toLower = "file_".toList := by decide
  rw [normalised, CaseTable.toLowercase, htrim, table.lowercaseFrom_append_of_plain hplain, hlower,
    startsWith, isPrefixOf_iff_prefix]
  simp only [String.toList_ofList, prefix_append]

/-- The storage identity is the hash of the normalised domain. -/
theorem currentDomain_hashed (url : String) :
    (host.hashed table digest).currentDomain url = digest (normalised table (host.rawDomain url)) :=
  rfl

theorem rawDomain_of_not_mizu {url : String} (h : ¬startsWith "mizu://" url) :
    host.rawDomain url = "unknown" ∨ ∃ path, host.rawDomain url = "file_" ++ path := by
  unfold Host.rawDomain
  rw [stripPrefix, if_neg h]
  dsimp only
  split
  · exact .inr ⟨_, rfl⟩
  · exact .inl rfl

theorem normalised_unknown : normalised table "unknown" = "unknown" := by
  have hascii : "unknown".toList.all (fun c => decide (c.toNat < 128)) = true := by decide
  rw [normalised_of_settled table ⟨by decide, fun c hc =>
    .inl (of_decide_eq_true (all_eq_true.mp hascii c hc))⟩]
  decide

variable {a b : String}

theorem isSameOrigin_iff : isSameOrigin a b = true ↔
    ∃ x y, mizuDomain a = some x ∧ mizuDomain b = some y ∧ isWellformedMizuHost x = true ∧
      isWellformedMizuHost y = true ∧ toAsciiLowercase x = toAsciiLowercase y := by
  unfold isSameOrigin
  cases mizuDomain a with
  | none => simp
  | some x =>
    cases mizuDomain b with
    | none => simp
    | some y => simp [eqIgnoreAsciiCase, and_assoc]

theorem startsWith_of_mizuDomain {url domain : String} (h : mizuDomain url = some domain) :
    startsWith "mizu://" url := by
  unfold mizuDomain stripPrefix at h
  by_contra hnot
  rw [if_neg hnot] at h
  cases h

/-- The same origin has the same store, in every spelling. -/
theorem currentDomain_of_sameOrigin (h : isSameOrigin a b = true) :
    (host.hashed table digest).currentDomain a = (host.hashed table digest).currentDomain b := by
  obtain ⟨x, y, ha, hb, -, -, hlower⟩ := isSameOrigin_iff.mp h
  rw [currentDomain_hashed, currentDomain_hashed, rawDomain_of_mizuDomain host ha,
    rawDomain_of_mizuDomain host hb, ← normalised_toAsciiLowercase, hlower,
    normalised_toAsciiLowercase]

/-- Settled hosts with one store are the same origin, once one of them is well-formed. -/
theorem sameOrigin_of_normalised (ha : Committable a) (hmizu : startsWith "mizu://" a)
    (hmizu' : startsWith "mizu://" b) (hsettled : Settled table (host.rawDomain a))
    (hsettled' : Settled table (host.rawDomain b))
    (h : normalised table (host.rawDomain a) = normalised table (host.rawDomain b)) :
    isSameOrigin a b = true := by
  obtain ⟨x, hx, hwell⟩ := ha.wellformed hmizu
  obtain rfl := rawDomain_of_mizuDomain host hx
  rw [normalised_of_settled table hsettled, normalised_of_settled table hsettled'] at h
  have hwell' : isWellformedMizuHost (host.rawDomain b) = true := by
    grind [isWellformedMizuHost_toAsciiLowercase]
  have hne : host.rawDomain b ≠ "" := by
    intro hempty
    rw [hempty] at hwell'
    exact absurd hwell' (by decide)
  exact isSameOrigin_iff.mpr ⟨_, _, hx, mizuDomain_eq_rawDomain host hmizu' hne, hwell, hwell', h⟩

/-- A settled host of the network is not the name of a file or of any other URL, unless it spells
one. -/
theorem normalised_ne_of_not_mizu (hmizu : ¬startsWith "mizu://" b)
    (hsettled : Settled table (host.rawDomain a))
    (hunknown : toAsciiLowercase (host.rawDomain a) ≠ "unknown")
    (hfile : ¬startsWith "file_" (toAsciiLowercase (host.rawDomain a))) :
    normalised table (host.rawDomain a) ≠ normalised table (host.rawDomain b) := by
  grind [normalised_of_settled, normalised_unknown, rawDomain_of_not_mizu, normalised_file]

/-- What a committed URL shares its store with. The same origin always; a URL of the network with
settled hosts on both sides just when it is the same origin, so never when it is malformed; a file
or any other URL never, unless the host spells their name. Only URLs of the network have an origin. -/
theorem Host.currentDomain_eq_iff {a b : String} (ha : Committable a)
    (hinj : Set.InjOn digest {normalised table (host.rawDomain a), normalised table (host.rawDomain b)}) :
    (isSameOrigin a b = true →
      (host.hashed table digest).currentDomain a = (host.hashed table digest).currentDomain b) ∧
    (startsWith "mizu://" a → startsWith "mizu://" b → Settled table (host.rawDomain a) →
      Settled table (host.rawDomain b) →
      ((host.hashed table digest).currentDomain a = (host.hashed table digest).currentDomain b ↔
        isSameOrigin a b = true)) ∧
    (startsWith "mizu://" a → startsWith "mizu://" b → Settled table (host.rawDomain a) →
      Settled table (host.rawDomain b) →
      (∀ domain, mizuDomain b = some domain → isWellformedMizuHost domain = false) →
      (host.hashed table digest).currentDomain a ≠ (host.hashed table digest).currentDomain b) ∧
    (startsWith "mizu://" a → ¬startsWith "mizu://" b → Settled table (host.rawDomain a) →
      toAsciiLowercase (host.rawDomain a) ≠ "unknown" →
      ¬startsWith "file_" (toAsciiLowercase (host.rawDomain a)) →
      (host.hashed table digest).currentDomain a ≠ (host.hashed table digest).currentDomain b) ∧
    (¬(startsWith "mizu://" a ∧ startsWith "mizu://" b) → isSameOrigin a b = false) := by
  have hnorm : (host.hashed table digest).currentDomain a = (host.hashed table digest).currentDomain b →
      normalised table (host.rawDomain a) = normalised table (host.rawDomain b) :=
    fun h => hinj (.inl rfl) (.inr rfl) h
  refine ⟨currentDomain_of_sameOrigin table digest host, ?_, ?_, ?_, ?_⟩
  · intro hmizu hmizu' hsettled hsettled'
    constructor
    · exact fun h => sameOrigin_of_normalised table host ha hmizu hmizu' hsettled hsettled' (hnorm h)
    · exact currentDomain_of_sameOrigin table digest host
  · intro hmizu hmizu' hsettled hsettled' hmalformed h
    have hsame := sameOrigin_of_normalised table host ha hmizu hmizu' hsettled hsettled' (hnorm h)
    obtain ⟨-, y, -, hy, -, hwell, -⟩ := isSameOrigin_iff.mp hsame
    rw [hmalformed y hy] at hwell
    cases hwell
  · intro _ hmizu' hsettled hunknown hfile h
    exact normalised_ne_of_not_mizu table host hmizu' hsettled hunknown hfile (hnorm h)
  · intro hnot
    rw [Bool.eq_false_iff]
    intro h
    obtain ⟨x, y, hx, hy, -⟩ := isSameOrigin_iff.mp h
    exact hnot ⟨startsWith_of_mizuDomain hx, startsWith_of_mizuDomain hy⟩

end Domains

/-- Lower-casing with one letter outside ASCII. -/
def latinTable : CaseTable where
  mapping c := if c = 'É' then ['é'] else [c.toLower]
  cased c := c.isAlpha || c = 'É' || c = 'é'
  caseIgnorable c := [0x27, 0x2e, 0x3a, 0x5e, 0x60].contains c.toNat
  mapping_ascii c hc := by
    rw [if_neg]
    rintro rfl
    exact absurd hc (by decide)
  cased_ascii c hc := by
    have hne : c ≠ 'É' ∧ c ≠ 'é' := by
      constructor
      · rintro rfl
        exact absurd hc (by decide)
      · rintro rfl
        exact absurd hc (by decide)
    simp [hne.1, hne.2]
  caseIgnorable_ascii := punctuation_ascii

/-- Two spellings of one host, and a file, with the digest that tells all inputs apart. -/
theorem Host.currentDomain_eq_iff_example_com :
    ((plainHost.hashed latinTable id).currentDomain "mizu://Example.com/a" =
        (plainHost.hashed latinTable id).currentDomain "mizu://example.COM?q" ↔
      isSameOrigin "mizu://Example.com/a" "mizu://example.COM?q" = true) ∧
    (plainHost.hashed latinTable id).currentDomain "mizu://Example.com/a" ≠
      (plainHost.hashed latinTable id).currentDomain "file:///example.com" := by
  have hcommit : Committable "mizu://Example.com/a" :=
    ⟨"mizu://localhost", "mizu://Example.com/a", .userGesture, by decide⟩
  have hascii : ∀ domain : String, (domain.toList.all fun c => decide (c.toNat < 128)) = true →
      ∀ c ∈ domain.toList, c.toNat < 128 :=
    fun domain h c hc => of_decide_eq_true (all_eq_true.mp h c hc)
  have hsettled : Settled latinTable (plainHost.rawDomain "mizu://Example.com/a") :=
    settled_of_ascii latinTable (by decide) (hascii _ (by decide))
  have hsettled' : Settled latinTable (plainHost.rawDomain "mizu://example.COM?q") :=
    settled_of_ascii latinTable (by decide) (hascii _ (by decide))
  constructor
  · exact (Host.currentDomain_eq_iff latinTable id plainHost hcommit
      Function.injective_id.injOn).2.1 (by decide +kernel) (by decide +kernel) hsettled hsettled'
  · exact (Host.currentDomain_eq_iff latinTable id plainHost hcommit
      Function.injective_id.injOn).2.2.2.1 (by decide +kernel) (by decide +kernel) hsettled
      (by decide +kernel) (by decide +kernel)

/-- The two canonicalisations disagree: on a file, which has a store but no origin; on a letter
outside ASCII and on white space outside ASCII at the end of a host; and where the host spells the
name of a file or of a URL without a scheme, or is malformed by a trailing blank. -/
theorem Host.currentDomain_disagrees :
    (Committable "file:///a" ∧ isSameOrigin "file:///a" "file:///a" = false) ∧
    (Committable "mizu://É.com" ∧ Committable "mizu://é.com" ∧
      (plainHost.hashed latinTable id).currentDomain "mizu://É.com" =
        (plainHost.hashed latinTable id).currentDomain "mizu://é.com" ∧
      isSameOrigin "mizu://É.com" "mizu://é.com" = false) ∧
    (Committable "mizu://a.com\u3000" ∧ Committable "mizu://a.com" ∧
      (plainHost.hashed latinTable id).currentDomain "mizu://a.com\u3000" =
        (plainHost.hashed latinTable id).currentDomain "mizu://a.com" ∧
      isSameOrigin "mizu://a.com\u3000" "mizu://a.com" = false) ∧
    (Committable "mizu://file_a" ∧
      (plainHost.hashed latinTable id).currentDomain "mizu://file_a" =
        (plainHost.hashed latinTable id).currentDomain "file:///a") ∧
    (Committable "mizu://unknown" ∧
      (plainHost.hashed latinTable id).currentDomain "mizu://unknown" =
        (plainHost.hashed latinTable id).currentDomain "about:blank") ∧
    (plainHost.hashed latinTable id).currentDomain "mizu://a.com" =
        (plainHost.hashed latinTable id).currentDomain "mizu://a.com " ∧
      isWellformedMizuHost "a.com " = false := by
  have hnet : ∀ url, checkNavigation "about:blank" url .userGesture = .allow url → Committable url :=
    fun url h => ⟨"about:blank", url, .userGesture, h⟩
  have hfile : Committable "file:///a" := ⟨"file:///b", "file:///a", .userGesture, by decide +kernel⟩
  refine ⟨⟨hfile, by decide +kernel⟩, ⟨hnet _ ?_, hnet _ ?_, ?_, ?_⟩, ⟨hnet _ ?_, hnet _ ?_, ?_, ?_⟩,
    ⟨hnet _ ?_, ?_⟩, ⟨hnet _ ?_, ?_⟩, ?_, ?_⟩
  all_goals decide +kernel




end Mizu
