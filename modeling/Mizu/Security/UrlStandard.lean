import Mizu.Security.UrlAddress

/-!
# URLs of schemes that are not special

What the URL standard says of a URL such as `mizu://host/path`: its scheme, the credentials, the host
and the port in its authority. Such a host is opaque: an address between brackets, or a text that is
percent-encoded as it is. Paths and queries are left to the library.

`urlAuthority` is the authority, `urlHost` the host in it.
-/

namespace Mizu

/-! ## Authorities -/

section Authority

/-- The run of zeros at the start. -/
def zeroRun (pieces : List Nat) : Nat := (pieces.takeWhile (· = 0)).length

/-- The first of the longest runs of zeros: its start and its length. -/
def longestZeroRun (pieces : List Nat) : Nat × Nat :=
  (List.range pieces.length).foldl
    (fun best i => if best.2 < zeroRun (pieces.drop i) then (i, zeroRun (pieces.drop i)) else best) (0, 0)

def urlHexPieces (pieces : List Nat) : List Char :=
  (String.intercalate ":" (pieces.map fun p => String.ofList (Nat.toDigits 16 p))).toList

/-- The IPv6 serializer. -/
def urlIpv6Display (pieces : List Nat) : List Char :=
  let (start, len) := longestZeroRun pieces
  if 1 < len then urlHexPieces (pieces.take start) ++ "::".toList ++ urlHexPieces (pieces.drop (start + len))
  else urlHexPieces pieces

/-- The forbidden host code points. -/
def isUrlForbiddenHostChar (c : Char) : Bool :=
  c.toNat = 0 || "\t\n\r #/:<>?@[\\]^|".toList.contains c

/-- Percent-encodes a code point outside of printable ASCII. -/
def urlPercentEncode (c : Char) : List Char :=
  if 0x20 ≤ c.toNat ∧ c.toNat ≤ 0x7e then [c]
  else (String.utf8EncodeChar c).flatMap fun b => ['%', hexDigit (b.toNat / 16), hexDigit (b.toNat % 16)]

/-- The host parser for schemes that are not special, and what its result is serialised to. -/
def urlHost (cs : List Char) : Option (List Char) :=
  match cs with
  | '[' :: rest =>
    if rest.getLast? = some ']' then
      (urlIpv6 rest.dropLast).map fun pieces => '[' :: urlIpv6Display pieces ++ [']']
    else none
  | cs => if cs.any isUrlForbiddenHostChar then none else some (cs.flatMap urlPercentEncode)

/-- The host and, after a colon outside of brackets, the port. -/
def urlSplitPort : (insideBrackets : Bool) → List Char → List Char × Option (List Char)
  | _, [] => ([], none)
  | insideBrackets, c :: cs =>
    if c = ':' && !insideBrackets then ([], some cs)
    else
      let (host, port) := urlSplitPort (if c = '[' then true else if c = ']' then false else insideBrackets) cs
      (c :: host, port)

/-- A port, which may be empty. -/
def urlPort (cs : List Char) : Option (Option Nat) :=
  if cs.isEmpty then some none
  else
    let (digits, rest) := spanDigits 10 cs
    let port := digits.foldl (fun v d => v * 10 + d) 0
    if rest.isEmpty && port ≤ 65535 then some (some port) else none

/-- The credentials before the last `@`, and the rest. -/
def urlSplitCredentials (cs : List Char) : Option (List Char) × List Char :=
  let host := (cs.reverse.takeWhile (· ≠ '@')).reverse
  if '@' ∈ cs then (some (cs.take (cs.length - (host.length + 1))), host) else (none, cs)

/-- What the authority of a URL says. -/
structure UrlAuthority where
  hasUsername : Bool
  hasPassword : Bool
  host : String
  port : Option Nat

/-- The authority state and the states after it. -/
def urlAuthority (cs : List Char) : Option UrlAuthority := do
  let (credentials, rest) := urlSplitCredentials cs
  if credentials.isSome && rest.isEmpty then none
  let (host, port) := urlSplitPort false rest
  if port.isSome && host.isEmpty then none
  let host ← urlHost host
  let port ← urlPort (port.getD [])
  let credentials := credentials.getD []
  let username := credentials.takeWhile (· ≠ ':')
  pure {
    hasUsername := !username.isEmpty
    hasPassword := 1 < credentials.length - username.length
    host := String.ofList host
    port
  }

/-- What is ignored around a URL and within it. -/
def urlCleaned (cs : List Char) : List Char :=
  ((cs.dropWhile (·.toNat ≤ 0x20)).reverse.dropWhile (·.toNat ≤ 0x20)).reverse.filter
    fun c => c ≠ '\t' && c ≠ '\n' && c ≠ '\r'

def isUrlSchemeChar (c : Char) : Bool := c.isAlphanum || c = '+' || c = '-' || c = '.'

/-- The scheme of a URL, in lower case, and what follows its colon. -/
def urlScheme (input : List Char) : Option (String × List Char) :=
  let cs := urlCleaned input
  let name := cs.takeWhile isUrlSchemeChar
  match name, cs.drop name.length with
  | c :: _, ':' :: rest => if c.isAlpha then some (String.ofList (name.map Char.toLower), rest) else none
  | _, _ => none

def isSpecialScheme (scheme : String) : Bool := ["ftp", "file", "http", "https", "ws", "wss"].contains scheme

/-- What follows the scheme, if that is not special: an authority or a path. -/
def urlAfterScheme : List Char → Option (Option UrlAuthority)
  | '/' :: '/' :: rest => some <$> urlAuthority (rest.takeWhile (!isHostEnd ·))
  | _ => some none

/-! ### Well-formed hosts -/

variable {cs : List Char}

theorem urlSplitPort_of_not_mem {insideBrackets : Bool} (h : ':' ∉ cs) :
    urlSplitPort insideBrackets cs = (cs, none) := by
  induction cs generalizing insideBrackets with
  | nil => rfl
  | cons c cs ih =>
    obtain ⟨hc, hcs⟩ := not_or.mp (mt List.mem_cons.mpr h)
    rw [urlSplitPort, ih hcs]
    simp [Ne.symm hc]

theorem urlSplitPort_brackets (h : ']' ∉ cs) : urlSplitPort true (cs ++ [']']) = (cs ++ [']'], none) := by
  induction cs with
  | nil => rfl
  | cons c cs ih =>
    obtain ⟨hc, hcs⟩ := not_or.mp (mt List.mem_cons.mpr h)
    rw [List.cons_append, urlSplitPort]
    simp [Ne.symm hc, ih hcs]

theorem urlSplitCredentials_of_not_mem (h : '@' ∉ cs) : urlSplitCredentials cs = (none, cs) := by
  rw [urlSplitCredentials]
  simp [h]

/-- Among the characters that are no control characters, the standard forbids the ones that the policy
does. -/
theorem isUrlForbiddenHostChar_iff {c : Char} (h : ¬c.toNat < 0x20) (hdel : c.toNat ≠ 0x7f) :
    isUrlForbiddenHostChar c = true ↔ isForbiddenHostChar c = true ∨ c = ':' ∨ c = '@' := by
  have hspace : c.toNat ≤ 0x20 ↔ c = ' ' := by
    rw [← Char.toNat_inj]
    exact ⟨fun hle => Nat.le_antisymm hle (Nat.le_of_not_lt h), fun heq => Nat.le_of_eq heq⟩
  have hcontrol : ∀ d : Char, d.toNat < 0x20 → c ≠ d := fun d hd heq => h (heq ▸ hd)
  have htab := hcontrol '\t' (by decide)
  have hnewline := hcontrol '\n' (by decide)
  have hreturn := hcontrol '\r' (by decide)
  have hzero : c.toNat ≠ 0 := by omega
  simp only [isUrlForbiddenHostChar, isForbiddenHostChar, hspace, hdel, hzero, decide_false, Bool.false_or,
    Bool.or_false, Bool.or_eq_true, decide_eq_true_eq, List.contains_iff_mem]
  simp [htab, hnewline, hreturn]
  grind

end Authority

end Mizu
