import Mizu.Urls

/-!
# The navigation policy

`checkNavigation` decides every navigation from the URL of the document in the tab, the target and
who started it.
-/

namespace Mizu

/-- `str::starts_with`. -/
def startsWith (p s : String) : Bool := p.toList.isPrefixOf s.toList

/-- `str::strip_prefix`. -/
def stripPrefix (p s : String) : Option String :=
  if startsWith p s then some (String.ofList (s.toList.drop p.toList.length)) else none

/-- `str::contains`. -/
def containsScheme (s : String) : Bool := decide ("://".toList <:+: s.toList)

def eqIgnoreAsciiCase (a b : String) : Bool := toAsciiLowercase a = toAsciiLowercase b

/-! ## Addresses -/

section Ipv6

/-- `char::to_digit`. -/
def toDigit (radix : Nat) (c : Char) : Option Nat :=
  let n := c.toNat
  let v :=
    if '0'.toNat ≤ n ∧ n ≤ '9'.toNat then some (n - '0'.toNat)
    else if 'a'.toNat ≤ n ∧ n ≤ 'f'.toNat then some (n - 'a'.toNat + 10)
    else if 'A'.toNat ≤ n ∧ n ≤ 'F'.toNat then some (n - 'A'.toNat + 10)
    else none
  v.filter (· < radix)

/-- All digits at the start, and the rest. -/
def spanDigits (radix : Nat) : List Char → List Nat × List Char
  | [] => ([], [])
  | c :: cs =>
    match toDigit radix c with
    | some d => ((d :: (spanDigits radix cs).1), (spanDigits radix cs).2)
    | none => ([], c :: cs)

/-- The number of at most `maxDigits` digits at the start, below `bound`. -/
def readNumber (radix maxDigits bound : Nat) (allowZeroPrefix : Bool) (cs : List Char) :
    Option (Nat × List Char) :=
  let (ds, rest) := spanDigits radix cs
  let value := ds.foldl (fun n d => n * radix + d) 0
  if ds.isEmpty || ds.length > maxDigits || bound ≤ value then none
  else if !allowZeroPrefix && ds.head? = some 0 && ds.length > 1 then none
  else some (value, rest)

/-- A separator before every group but the first. -/
def readSeparator (sep : Char) (index : Nat) (cs : List Char) : Option (List Char) :=
  if index = 0 then some cs
  else
    match cs with
    | c :: cs => if c = sep then some cs else none
    | [] => none

/-- `read_ipv4_addr`, without the value. -/
def readIpv4 : Nat → List Char → Option (List Char)
  | 0, cs => some cs
  | n + 1, cs => do
    let cs ← readSeparator '.' (3 - n) cs
    let (_, cs) ← readNumber 10 3 256 false cs
    readIpv4 n cs

/-- `read_groups`: the number of groups read, whether the last two are an IPv4 address, and the
rest. `left` groups are left of `limit`. -/
def readGroups (limit : Nat) : Nat → List Char → Nat × Bool × List Char
  | 0, cs => (limit, false, cs)
  | left + 1, cs =>
    let i := limit - (left + 1)
    let ipv4 := if i + 1 < limit then (readSeparator ':' i cs).bind (readIpv4 4) else none
    match ipv4 with
    | some cs => (i + 2, true, cs)
    | none =>
      match (readSeparator ':' i cs).bind (readNumber 16 4 65536 true) with
      | some (_, rest) => readGroups limit left rest
      | none => (i, false, cs)

/-- Whether `Ipv6Addr::from_str` accepts the text. -/
def ipv6Parses (s : String) : Bool :=
  let (headSize, headIpv4, cs) := readGroups 8 8 s.toList
  if headSize = 8 then cs.isEmpty
  else if headIpv4 then false
  else
    match cs with
    | ':' :: ':' :: cs =>
      let limit := 8 - (headSize + 1)
      (readGroups limit limit cs).2.2.isEmpty
    | _ => false

end Ipv6

example : ["::1", "1:2:3:4:5:6:7:8", "::ffff:127.0.0.1", "1::", "12345::", "1:2", ":::",
    "::1.2.3.04"].map ipv6Parses = [true, true, true, true, false, false, false, false] := by
  decide

/-! ## Hosts and origins -/

/-- Where a host ends. -/
def isHostEnd (c : Char) : Bool := c = '/' || c = '?' || c = '#'

/-- `mizu_domain`: the host of a `mizu://` URL. -/
def mizuDomain (url : String) : Option String :=
  match stripPrefix "mizu://" url with
  | none => none
  | some rest =>
    let domain := rest.toList.takeWhile (!isHostEnd ·)
    if domain.isEmpty then none else some (String.ofList domain)

/-- The code points no host may contain. -/
def isForbiddenHostChar (c : Char) : Bool :=
  c.toNat ≤ 0x20 || "#/<>?[\\]^|".toList.contains c || c.toNat = 0x7f

/-- The host without the brackets of an IPv6 literal; `none` for one that is refused. -/
def unbracketedHost (host : String) : Option (List Char) :=
  match host.toList with
  | '[' :: rest =>
    if rest.getLast? = some ']' ∧ !rest.dropLast.isEmpty ∧ ipv6Parses (String.ofList rest.dropLast) then
      some rest.dropLast
    else none
  | cs => if cs.contains ':' then none else some cs

/-- `is_wellformed_mizu_host`. -/
def isWellformedMizuHost (host : String) : Bool :=
  if host.isEmpty || host.toList.contains '@' then false
  else
    match unbracketedHost host with
    | none => false
    | some cs => !cs.any isForbiddenHostChar

def isSameOrigin (currentUrl target : String) : Bool :=
  match mizuDomain currentUrl, mizuDomain target with
  | some a, some b => isWellformedMizuHost a && isWellformedMizuHost b && eqIgnoreAsciiCase a b
  | _, _ => false

/-! ## The policy -/

/-- Who or what started a navigation. -/
inductive NavigationInitiator where
  | userGesture
  | documentLogic
  /-- A redirect answered a navigation that `inner` started. -/
  | redirectOf (inner : NavigationInitiator)
  | historyStep
  deriving DecidableEq, Repr

/-- `redirect_of`: chains of redirects are collapsed. -/
def NavigationInitiator.intoRedirectOf : NavigationInitiator → NavigationInitiator
  | .redirectOf inner => .redirectOf inner
  | root => .redirectOf root

def hasUserAgency : NavigationInitiator → Bool
  | .userGesture => true
  | .documentLogic => false
  | .redirectOf inner => hasUserAgency inner
  | .historyStep => true

@[simp] theorem hasUserAgency_intoRedirectOf (initiator : NavigationInitiator) :
    hasUserAgency initiator.intoRedirectOf = hasUserAgency initiator := by
  cases initiator <;> rfl

inductive NavigationVerdict where
  | allow (target : String)
  | block (reason : String)
  deriving DecidableEq, Repr

/-- The verdict on a target with a scheme. -/
def checkScheme (currentUrl target : String) (initiator : NavigationInitiator) : NavigationVerdict :=
  if startsWith "http://" target || startsWith "https://" target then
    .block "http(s):// is not a navigable Mizu scheme"
  else if startsWith "file://" target then
    if startsWith "mizu://" currentUrl then
      .block "remote document may not navigate to file:// resource"
    else if startsWith "file://" currentUrl then .allow target
    else .block "navigation to file:// from unknown origin scheme blocked"
  else if startsWith "mizu://" target then
    match mizuDomain target with
    | none => .block "mizu:// URL has an empty domain"
    | some host =>
      if !isWellformedMizuHost host then
        .block "mizu:// URL must not carry credentials or an explicit port"
      else if isSameOrigin currentUrl target then .allow target
      else if hasUserAgency initiator then .allow target
      else .block "cross-origin navigation without user gesture blocked"
  else .block "unrecognised scheme; navigation blocked"

/-- `check_navigation`. -/
def checkNavigation (currentUrl target : String) (initiator : NavigationInitiator) :
    NavigationVerdict :=
  if target.isEmpty then .block "empty navigation target"
  else if target.toList.any fun c => c.toNat < 0x20 || c.toNat = 0x7f then
    .block "navigation target contains control characters"
  else if containsScheme target then checkScheme currentUrl target initiator
  else if startsWith "file://" currentUrl then .allow target
  else checkScheme currentUrl ("mizu://" ++ target) initiator

theorem containsScheme_of_startsWith {p s : String} (h : startsWith p s)
    (hp : containsScheme p) : containsScheme s := by
  simp only [startsWith, List.isPrefixOf_iff_prefix] at h
  simp only [containsScheme, decide_eq_true_eq] at *
  exact hp.trans h.isInfix

/-- A URL starts with one scheme. -/
theorem not_startsWith_file_of_mizu {url : String} (h : startsWith "mizu://" url) :
    ¬startsWith "file://" url := by
  intro hfile
  simp only [startsWith, List.isPrefixOf_iff_prefix] at hfile h
  obtain ⟨r, hr⟩ := hfile
  obtain ⟨r', hr'⟩ := h
  have hhead : ("file://".toList ++ r).head? = ("mizu://".toList ++ r').head? := by rw [hr, hr']
  simp at hhead

variable {initiator : NavigationInitiator}

/-- What the policy allows of a target with a scheme is the target itself, a file from a file, or a
network URL with a well-formed host, on the same origin unless a user asked for it. -/
theorem checkScheme_allow {currentUrl target url : String}
    (h : checkScheme currentUrl target initiator = .allow url) : url = target ∧
      ((startsWith "file://" url ∧ startsWith "file://" currentUrl ∧
          ¬startsWith "mizu://" currentUrl) ∨
        (startsWith "mizu://" url ∧
          (∃ domain, mizuDomain url = some domain ∧ isWellformedMizuHost domain = true) ∧
          (isSameOrigin currentUrl url = true ∨ hasUserAgency initiator = true))) := by
  unfold checkScheme at h
  split at h
  · cases h
  split at h
  · grind
  split at h
  · grind
  · cases h

/-- A network URL that is allowed was judged as a target with a scheme. -/
theorem checkNavigation_allow {currentUrl target url : String}
    (h : checkNavigation currentUrl target initiator = .allow url) (hmizu : startsWith "mizu://" url) :
    (∃ domain, mizuDomain url = some domain ∧ isWellformedMizuHost domain = true) ∧
      (isSameOrigin currentUrl url = true ∨ hasUserAgency initiator = true) := by
  have hcheck : ∃ target, checkScheme currentUrl target initiator = .allow url := by
    unfold checkNavigation at h
    split at h
    · cases h
    split at h
    · cases h
    split at h
    · exact ⟨_, h⟩
    rename_i hscheme
    split at h
    · -- A relative path is allowed as it is and has no scheme.
      cases h
      exact absurd (containsScheme_of_startsWith hmizu (by decide)) hscheme
    · exact ⟨_, h⟩
  obtain ⟨target, hcheck⟩ := hcheck
  obtain ⟨-, ⟨hfile, -⟩ | ⟨-, hhost, horigin⟩⟩ := checkScheme_allow hcheck
  · exact absurd hfile (not_startsWith_file_of_mizu hmizu)
  · exact ⟨hhost, horigin⟩

end Mizu
