import Mizu.Security.Address
import Mizu.Security.Domain

/-!
# Resolving hosts

`resolveDomain` turns a host into an address: a literal into itself, a loopback name into `127.0.0.1`, and any
other name into what the pools answer, of which it takes the first routable IPv4 address, else the first
routable IPv6 one. `authorizeResolvedAddress` checks the address before it is handed out.

* `Resolver.guarded_iff_screened`: which hosts and answers leave the guard without holes.
* `Resolver.not_always_guarded`: a record that leads a public name to `127.0.0.1`.
-/

namespace Mizu

open List Option

/-! ## Addresses as texts -/

section FromStr

/-- `read_ipv4_addr`. -/
def readIpv4Addr : Nat → List Char → Option (List Nat × List Char)
  | 0, cs => some ([], cs)
  | n + 1, cs => do
    let cs ← readSeparator '.' (3 - n) cs
    let (octet, cs) ← readNumber 10 3 256 false cs
    let (octets, cs) ← readIpv4Addr n cs
    pure (octet :: octets, cs)

def ipv4OfOctets (octets : List Nat) : Ipv4Addr :=
  ⟨.ofNat (octets.getD 0 0), .ofNat (octets.getD 1 0), .ofNat (octets.getD 2 0), .ofNat (octets.getD 3 0)⟩

/-- `read_groups`: the groups read, whether the last two are an IPv4 address, and the rest. -/
def readSegments (limit : Nat) : Nat → List Char → List Nat × Bool × List Char
  | 0, cs => ([], false, cs)
  | left + 1, cs =>
    let i := limit - (left + 1)
    let ipv4 := if i + 1 < limit then (readSeparator ':' i cs).bind (readIpv4Addr 4) else none
    match ipv4 with
    | some (octets, cs) =>
      ([octets.getD 0 0 * 256 + octets.getD 1 0, octets.getD 2 0 * 256 + octets.getD 3 0], true, cs)
    | none =>
      match (readSeparator ':' i cs).bind (readNumber 16 4 65536 true) with
      | some (group, rest) =>
        let (groups, ipv4, rest) := readSegments limit left rest
        (group :: groups, ipv4, rest)
      | none => ([], false, cs)

def ipv6OfSegments (segments : List Nat) : Ipv6Addr :=
  ⟨.ofNat (segments.getD 0 0), .ofNat (segments.getD 1 0), .ofNat (segments.getD 2 0), .ofNat (segments.getD 3 0),
    .ofNat (segments.getD 4 0), .ofNat (segments.getD 5 0), .ofNat (segments.getD 6 0), .ofNat (segments.getD 7 0)⟩

/-- `read_ipv6_addr`. -/
def readIpv6Addr (cs : List Char) : Option (Ipv6Addr × List Char) :=
  let (head, headIpv4, cs) := readSegments 8 8 cs
  if head.length = 8 then some (ipv6OfSegments head, cs)
  else if headIpv4 then none
  else
    match cs with
    | ':' :: ':' :: cs =>
      let limit := 8 - (head.length + 1)
      let (tail, _, cs) := readSegments limit limit cs
      some (ipv6OfSegments (head ++ List.replicate (8 - head.length - tail.length) 0 ++ tail), cs)
    | _ => none

/-- `IpAddr::from_str`. -/
def ipAddrFromStr (s : String) : Option IpAddr :=
  match readIpv4Addr 4 s.toList with
  | some (octets, rest) => if rest.isEmpty then some (.v4 (ipv4OfOctets octets)) else none
  | none =>
    match readIpv6Addr s.toList with
    | some (addr, rest) => if rest.isEmpty then some (.v6 addr) else none
    | none => none

end FromStr

example : ipAddrFromStr "::ffff:127.0.0.1" = some (.v6 ⟨0, 0, 0, 0, 0, 0xffff, 0x7f00, 1⟩) := by
  decide

section Consumed

/-- The characters that the readers of addresses pass over. -/
def IsAddressChar (c : Char) : Prop := (toDigit 16 c).isSome ∨ c = '.' ∨ c = ':'

/-- What was read up to the rest. -/
def Consumed (cs rest : List Char) : Prop := ∃ read, cs = read ++ rest ∧ ∀ c ∈ read, IsAddressChar c

variable {cs rest rest' : List Char}

theorem Consumed.refl (cs : List Char) : Consumed cs cs := ⟨[], rfl, by simp⟩

theorem Consumed.trans (h : Consumed cs rest) (h' : Consumed rest rest') : Consumed cs rest' := by
  obtain ⟨read, rfl, hread⟩ := h
  obtain ⟨read', rfl, hread'⟩ := h'
  refine ⟨read ++ read', (append_assoc ..).symm, fun c hc => ?_⟩
  exact (mem_append.mp hc).elim (hread c) (hread' c)

theorem Consumed.cons {c : Char} (hc : IsAddressChar c) (h : Consumed cs rest) : Consumed (c :: cs) rest := by
  obtain ⟨read, rfl, hread⟩ := h
  refine ⟨c :: read, rfl, fun c' hc' => ?_⟩
  rcases mem_cons.mp hc' with rfl | hmem
  · exact hc
  · exact hread c' hmem

theorem isAddressChar_of_toDigit {radix : Nat} (hradix : radix ≤ 16) {c : Char} {d : Nat}
    (h : toDigit radix c = some d) : IsAddressChar c := by
  left
  simp only [toDigit, filter_eq_some_iff, decide_eq_true_eq] at h
  obtain ⟨hvalue, hlt⟩ := h
  simp only [toDigit, hvalue, Option.filter, decide_eq_true (show d < 16 by omega), if_true, isSome_some]

theorem consumed_spanDigits {radix : Nat} (hradix : radix ≤ 16) (cs : List Char) :
    Consumed cs (spanDigits radix cs).2 := by
  induction cs with
  | nil => exact .refl _
  | cons c cs ih =>
    unfold spanDigits
    cases hdigit : toDigit radix c with
    | none => exact .refl _
    | some d => exact .cons (isAddressChar_of_toDigit hradix hdigit) ih

theorem consumed_readNumber {radix maxDigits bound value : Nat} {allowZeroPrefix : Bool} (hradix : radix ≤ 16)
    (h : readNumber radix maxDigits bound allowZeroPrefix cs = some (value, rest)) : Consumed cs rest := by
  grind [readNumber, consumed_spanDigits, Prod.mk.inj, some.inj]

theorem consumed_readSeparator {sep : Char} (hsep : IsAddressChar sep) {index : Nat}
    (h : readSeparator sep index cs = some rest) : Consumed cs rest := by
  unfold readSeparator at h
  split at h
  · obtain rfl := some.inj h
    exact .refl _
  · cases cs with
    | nil => simp at h
    | cons c cs =>
      simp only at h
      split at h
      · next heq =>
        obtain rfl := some.inj h
        exact .cons (heq ▸ hsep) (.refl _)
      · simp at h

theorem consumed_readIpv4Addr {n : Nat} {octets : List Nat} (h : readIpv4Addr n cs = some (octets, rest)) :
    Consumed cs rest := by
  induction n generalizing cs octets with
  | zero =>
    obtain ⟨-, rfl⟩ := Prod.mk.inj (some.inj h)
    exact .refl _
  | succ n ih =>
    simp only [readIpv4Addr, Option.bind_eq_bind, Option.bind_eq_some_iff, Option.pure_def, Option.some.injEq,
      Prod.mk.injEq, Prod.exists] at h
    obtain ⟨cs₁, hsep, octet, cs₂, hnumber, octets', cs₃, hrest, -, rfl⟩ := h
    exact (consumed_readSeparator (.inr (.inl rfl)) hsep).trans
      ((consumed_readNumber (by omega) hnumber).trans (ih hrest))

theorem consumed_readSegments (limit left : Nat) (cs : List Char) :
    Consumed cs (readSegments limit left cs).2.2 := by
  induction left generalizing cs with
  | zero => exact .refl _
  | succ left ih =>
    unfold readSegments
    simp only
    split
    · next octets rest hipv4 =>
      split at hipv4
      · obtain ⟨cs₁, hsep, hread⟩ := bind_eq_some_iff.mp hipv4
        exact (consumed_readSeparator (.inr (.inr rfl)) hsep).trans (consumed_readIpv4Addr hread)
      · simp at hipv4
    · split
      · next group rest hgroup =>
        obtain ⟨cs₁, hsep, hnumber⟩ := bind_eq_some_iff.mp hgroup
        exact ((consumed_readSeparator (.inr (.inr rfl)) hsep).trans
          (consumed_readNumber (by omega) hnumber)).trans (ih rest)
      · exact .refl _

theorem consumed_readIpv6Addr {addr : Ipv6Addr} (h : readIpv6Addr cs = some (addr, rest)) : Consumed cs rest := by
  have hhead := consumed_readSegments 8 8 cs
  unfold readIpv6Addr at h
  simp only at h
  split at h
  · obtain ⟨-, rfl⟩ := Prod.mk.inj (some.inj h)
    exact hhead
  · split at h
    · simp at h
    · split at h
      · next cs' hcolons =>
        obtain ⟨-, rfl⟩ := Prod.mk.inj (some.inj h)
        rw [hcolons] at hhead
        have hcolon : IsAddressChar ':' := .inr (.inr rfl)
        exact hhead.trans (.cons hcolon (.cons hcolon (consumed_readSegments _ _ cs')))
      · simp at h

/-- A text that is an address has only such characters. -/
theorem isAddressChar_of_ipAddrFromStr {s : String} {addr : IpAddr} (h : ipAddrFromStr s = some addr) :
    ∀ c ∈ s.toList, IsAddressChar c := by
  have hconsumed : Consumed s.toList [] := by
    unfold ipAddrFromStr at h
    split at h
    · next octets rest hv4 =>
      split at h
      · next hempty => exact isEmpty_iff.mp hempty ▸ consumed_readIpv4Addr hv4
      · simp at h
    · split at h
      · next addr rest hv6 =>
        split at h
        · next hempty => exact isEmpty_iff.mp hempty ▸ consumed_readIpv6Addr hv6
        · simp at h
      · simp at h
  obtain ⟨read, hread, hchars⟩ := hconsumed
  rw [hread, append_nil]
  exact hchars

theorem not_isAddressChar_of_toLower {c : Char} (h : c.toLower = 't') : ¬IsAddressChar c := by
  rintro (hdigit | rfl | rfl)
  · rw [← toDigit_toLower (le_refl 16), h] at hdigit
    exact absurd hdigit (by decide)
  · exact absurd h (by decide)
  · exact absurd h (by decide)

end Consumed

section Display

def Ipv4Addr.display (v4 : Ipv4Addr) : String :=
  toString v4.a.toNat ++ "." ++ toString v4.b.toNat ++ "." ++ toString v4.c.toNat ++ "." ++ toString v4.d.toNat

/-- A run of zero segments: its start and its length. -/
structure ZeroRun where
  start : Nat
  len : Nat

/-- The first of the longest runs of zeros. -/
def longestZeros (segments : List UInt16) : ZeroRun :=
  (segments.zipIdx.foldl
    (fun (longest, current) (segment, i) =>
      if segment = 0 then
        let current : ZeroRun := if current.len = 0 then ⟨i, 1⟩ else ⟨current.start, current.len + 1⟩
        (if longest.len < current.len then current else longest, current)
      else (longest, ⟨0, 0⟩))
    ((⟨0, 0⟩ : ZeroRun), (⟨0, 0⟩ : ZeroRun))).1

def segmentsDisplay (segments : List UInt16) : String :=
  String.intercalate ":" (segments.map fun s => String.ofList (Nat.toDigits 16 s.toNat))

def Ipv6Addr.segments (v6 : Ipv6Addr) : List UInt16 :=
  [v6.s0, v6.s1, v6.s2, v6.s3, v6.s4, v6.s5, v6.s6, v6.s7]

def Ipv6Addr.display (v6 : Ipv6Addr) : String :=
  match v6.toIpv4Mapped with
  | some v4 => "::ffff:" ++ v4.display
  | none =>
    let zeros := longestZeros v6.segments
    if 1 < zeros.len then
      segmentsDisplay (v6.segments.take zeros.start) ++ "::" ++
        segmentsDisplay (v6.segments.drop (zeros.start + zeros.len))
    else segmentsDisplay v6.segments

def IpAddr.display : IpAddr → String
  | .v4 addr => addr.display
  | .v6 addr => addr.display

end Display

/-! ## Authorization -/

/-- What `url::Host::parse` returns. -/
inductive UrlHost where
  | ipv4 (addr : Ipv4Addr)
  | ipv6 (addr : Ipv6Addr)
  | domain (name : String)

/-- `localhost` and the names below it. -/
def isLoopbackName (host : String) : Bool :=
  eqIgnoreAsciiCase host "localhost" || endsWithIgnoreAsciiCase host ".localhost"

def isLocalHostWith (host : String) (parse : String → Option IpAddr) : Bool :=
  if isLoopbackName host then true
  else
    match parse host with
    | some addr => addr.isLoopback
    | none => false

def parseHostLiteral (urlHostParse : String → Option UrlHost) (host : String) : Option IpAddr :=
  match urlHostParse host with
  | some (.ipv4 addr) => some (.v4 addr)
  | some (.ipv6 addr) => some (.v6 addr)
  | some (.domain _) => none
  | none => ipAddrFromStr host

def violationLiteralMismatch (host : String) (ip : IpAddr) : String :=
  "address literal `" ++ host ++ "` resolved to a different address (" ++ ip.display ++ ")"

def violationLiteralNotRoutable (host : String) : String :=
  "address literal `" ++ host ++ "` is not publicly routable; a document-supplied target may not address " ++
    "a private, loopback, or link-local host"

def violationLoopbackName (host : String) (ip : IpAddr) : String :=
  "loopback name `" ++ host ++ "` resolved to non-loopback address " ++ ip.display

def violationRebinding (host : String) (ip : IpAddr) : String :=
  "DNS rebinding blocked: public name `" ++ host ++ "` resolved to non-routable address " ++ ip.display

def authorizeResolvedAddressWith (host : String) (ip : IpAddr) (allowPrivateLiteral : Bool)
    (parse : String → Option IpAddr) : Except MizuError Unit :=
  match parse host with
  | some literal =>
    if literal ≠ ip then .error (.securityViolation (violationLiteralMismatch host ip))
    else if allowPrivateLiteral || isPubliclyRoutable ip then .ok ()
    else .error (.securityViolation (violationLiteralNotRoutable host))
  | none =>
    if isLocalHostWith host parse then
      if ip.isLoopback then .ok () else .error (.securityViolation (violationLoopbackName host ip))
    else if isPubliclyRoutable ip then .ok ()
    else .error (.securityViolation (violationRebinding host ip))

theorem ipAddrFromStr_of_isLoopbackName {host : String} (h : isLoopbackName host = true) :
    ipAddrFromStr host = none := by
  have hletter : 't' ∈ host.toList.map Char.toLower := by
    simp only [isLoopbackName, eqIgnoreAsciiCase, endsWithIgnoreAsciiCase, toAsciiLowercase, Bool.or_eq_true,
      isSuffixOf_iff_suffix, String.toList_ofList] at h
    rcases h with h | h
    · rw [String.ofList_inj.mp (of_decide_eq_true h)]
      decide
    · exact h.subset (by decide)
  obtain ⟨c, hc, hlower⟩ := mem_map.mp hletter
  cases haddr : ipAddrFromStr host with
  | none => rfl
  | some addr => exact absurd (isAddressChar_of_ipAddrFromStr haddr c hc) (not_isAddressChar_of_toLower hlower)

/-! ## The resolver -/

/-- The kinds of an I/O error that the resolver tells apart. -/
inductive IoErrorKind where
  | timedOut
  | connectionRefused
  | networkUnreachable
  | hostUnreachable
  | connectionAborted
  | connectionReset
  | other
  deriving DecidableEq, Repr

inductive NetError where
  | timeout
  | io (kind : IoErrorKind)
  /-- An answer, as of a name that does not exist. -/
  | other
  deriving DecidableEq, Repr

/-- The lookup failed, or the browser refuses what it found. -/
inductive ResolveError where
  | dns (error : NetError)
  | mizu (error : MizuError)
  deriving DecidableEq, Repr

inductive DnsPool where
  | primary
  | openNic
  deriving DecidableEq, Repr

structure SocketAddr where
  ip : IpAddr
  port : UInt16
  deriving DecidableEq, Repr

/-- The URL library, and what the pools answer for a name. -/
structure Resolver where
  urlHostParse : String → Option UrlHost
  lookupIp : DnsPool → String → Except NetError (List IpAddr)

def opennicTlds : List String :=
  ["bbs", "chan", "cyb", "dyn", "epic", "free", "fur", "geek", "gopher", "indy", "libre", "neo", "null", "o",
    "oss", "oz", "parody", "pirate", "te", "uu"]

def selectPoolForDomain (domain : String) : DnsPool :=
  let bare := trimEndMatches '.' domain
  let tld := String.ofList (bare.toList.reverse.takeWhile (· ≠ '.')).reverse
  if opennicTlds.any (eqIgnoreAsciiCase · tld) then .openNic else .primary

def isTransientDnsError : ResolveError → Bool
  | .dns .timeout => true
  | .dns (.io kind) => kind ≠ .other
  | .dns .other => false
  | .mizu _ => false

def resolveWithPoolFallback (primaryLookup fallbackLookup : Except ResolveError SocketAddr) :
    Except ResolveError SocketAddr :=
  match primaryLookup with
  | .ok addr => .ok addr
  | .error e => if isTransientDnsError e then fallbackLookup else .error e

def IpAddr.isIpv4 : IpAddr → Bool
  | .v4 _ => true
  | .v6 _ => false

/-- The records that are left to look at, the first routable IPv6 address, and whether an address was skipped. -/
def selectRecord (bare : String) (port : UInt16) : List IpAddr → Option SocketAddr → Bool →
    Except ResolveError SocketAddr
  | [], ipv6Fallback, sawNonRoutable =>
    match ipv6Fallback with
    | some addr => .ok addr
    | none =>
      if sawNonRoutable then
        .error (.mizu (.securityViolation
          ("DNS rebinding blocked: every address returned for '" ++ bare ++ "' is non-routable")))
      else .error (.mizu (.network ("DoT: no address returned for '" ++ bare ++ "'")))
  | ip :: rest, ipv6Fallback, sawNonRoutable =>
    if !isPubliclyRoutable ip then selectRecord bare port rest ipv6Fallback true
    else
      let addr : SocketAddr := ⟨ip, port⟩
      if ip.isIpv4 then .ok addr else selectRecord bare port rest (ipv6Fallback.or (some addr)) sawNonRoutable

namespace Resolver

variable (resolver : Resolver)

def parseLiteral (host : String) : Option IpAddr := parseHostLiteral resolver.urlHostParse host

def authorizeResolvedAddress (host : String) (ip : IpAddr) (allowPrivateLiteral : Bool) : Except MizuError Unit :=
  authorizeResolvedAddressWith host ip allowPrivateLiteral resolver.parseLiteral

def resolveIp (pool : DnsPool) (fqdn : String) (port : UInt16) : Except ResolveError SocketAddr :=
  match resolver.lookupIp pool fqdn with
  | .error e => .error (.dns e)
  | .ok answers => selectRecord (trimEndMatches '.' fqdn) port answers none false

/-- The address that the check passes. -/
def authorized (bare : String) (addr : SocketAddr) (allowPrivateLiteral : Bool) :
    Except ResolveError SocketAddr :=
  match resolver.authorizeResolvedAddress bare addr.ip allowPrivateLiteral with
  | .error e => .error (.mizu e)
  | .ok () => .ok addr

def resolveDomain (domain : String) (port : UInt16) (allowPrivateLiteral : Bool) :
    Except ResolveError SocketAddr :=
  let bare := trimEndMatches '.' domain
  match resolver.parseLiteral bare with
  | some ip => resolver.authorized bare ⟨ip, port⟩ allowPrivateLiteral
  | none =>
    if isLoopbackName bare then resolver.authorized bare ⟨.v4 ⟨127, 0, 0, 1⟩, port⟩ allowPrivateLiteral
    else
      let fqdn := bare ++ "."
      let lookup :=
        match selectPoolForDomain bare with
        | .primary =>
          resolveWithPoolFallback (resolver.resolveIp .primary fqdn port) (resolver.resolveIp .openNic fqdn port)
        | .openNic => resolver.resolveIp .openNic fqdn port
      match lookup with
      | .error e => .error e
      | .ok addr => resolver.authorized bare addr allowPrivateLiteral

/-- The answers that decide for a name: those of its pool, or of the other where the first fails to answer. -/
def answersOf (bare : String) : Except NetError (List IpAddr) :=
  match selectPoolForDomain bare with
  | .primary =>
    match resolver.lookupIp .primary (bare ++ ".") with
    | .ok answers => .ok answers
    | .error e => if isTransientDnsError (.dns e) then resolver.lookupIp .openNic (bare ++ ".") else .error e
  | .openNic => resolver.lookupIp .openNic (bare ++ ".")

end Resolver

/-! ## The choice -/

/-- The first IPv4 address with a property, else the first IPv6 one. -/
def chooseAddress (p : IpAddr → Bool) (answers : List IpAddr) : Option IpAddr :=
  (answers.find? fun ip => ip.isIpv4 && p ip).or (answers.find? fun ip => !ip.isIpv4 && p ip)

/-- The first match of a wider property is that of a narrower one where every other match has one before it. -/
theorem find?_eq_find?_iff {α : Type} {p q : α → Bool} (hpq : ∀ x, p x = true → q x = true) (l : List α) :
    l.find? q = l.find? p ↔
      ∀ before x after, l = before ++ x :: after → q x = true → p x = false → ∃ y ∈ before, p y = true := by
  induction l with
  | nil => simp
  | cons a l ih =>
    cases hp : p a with
    | true =>
      rw [List.find?_cons_of_pos (hpq a hp), List.find?_cons_of_pos hp]
      refine ⟨fun _ before x after hl hq hx => ?_, fun _ => rfl⟩
      cases before with
      | nil => simp_all
      | cons b before => grind
    | false =>
      rw [List.find?_cons_of_neg (p := p) (by simp [hp])]
      cases hq : q a with
      | true =>
        rw [List.find?_cons_of_pos hq]
        constructor
        · intro h
          exact absurd (List.find?_some h.symm) (by simp [hp])
        · intro h
          obtain ⟨y, hy, -⟩ := h [] a l rfl hq hp
          exact absurd hy not_mem_nil
      | false =>
        rw [List.find?_cons_of_neg (p := q) (by simp [hq]), ih]
        constructor
        · intro h before x after hl hqx hpx
          cases before with
          | nil => simp_all
          | cons b before => grind
        · grind

/-- What is left to choose from, given what the records before have left. -/
theorem selectRecord_eq (bare : String) (port : UInt16) (answers : List IpAddr)
    (fallback : Option SocketAddr) (saw : Bool) : selectRecord bare port answers fallback saw =
      match answers.find? fun ip => ip.isIpv4 && isPubliclyRoutable ip with
      | some ip => .ok ⟨ip, port⟩
      | none =>
        match fallback.or ((answers.find? fun ip => !ip.isIpv4 && isPubliclyRoutable ip).map (⟨·, port⟩)) with
        | some addr => .ok addr
        | none =>
          if saw || answers.any (!isPubliclyRoutable ·) then
            .error (.mizu (.securityViolation
              ("DNS rebinding blocked: every address returned for '" ++ bare ++ "' is non-routable")))
          else .error (.mizu (.network ("DoT: no address returned for '" ++ bare ++ "'"))) := by
  induction answers generalizing fallback saw with
  | nil => cases fallback <;> simp [selectRecord]
  | cons ip answers ih =>
    unfold selectRecord
    cases hroutable : isPubliclyRoutable ip with
    | false => grind
    | true => grind

theorem selectRecord_choose (bare : String) (port : UInt16) (answers : List IpAddr) :
    selectRecord bare port answers none false =
      match chooseAddress isPubliclyRoutable answers with
      | some ip => .ok ⟨ip, port⟩
      | none =>
        if answers.any (!isPubliclyRoutable ·) then
          .error (.mizu (.securityViolation
            ("DNS rebinding blocked: every address returned for '" ++ bare ++ "' is non-routable")))
        else .error (.mizu (.network ("DoT: no address returned for '" ++ bare ++ "'"))) := by
  rw [selectRecord_eq, chooseAddress]
  cases answers.find? fun ip => ip.isIpv4 && isPubliclyRoutable ip with
  | some ip => rfl
  | none =>
    rw [none_or, none_or]
    cases answers.find? fun ip => !ip.isIpv4 && isPubliclyRoutable ip <;> rfl

variable {answers : List IpAddr} {p : IpAddr → Bool} {ip : IpAddr}

theorem chooseAddress_some (h : chooseAddress p answers = some ip) : ip ∈ answers ∧ p ip = true := by
  rcases or_eq_some_iff.mp h with hfind | ⟨-, hfind⟩
  · exact ⟨mem_of_find?_eq_some hfind, (Bool.and_eq_true _ _ ▸ List.find?_some hfind).2⟩
  · exact ⟨mem_of_find?_eq_some hfind, (Bool.and_eq_true _ _ ▸ List.find?_some hfind).2⟩

theorem chooseAddress_none : chooseAddress p answers = none ↔ ∀ ip ∈ answers, p ip = false := by
  simp only [chooseAddress, or_eq_none_iff, List.find?_eq_none, Bool.and_eq_true, Bool.not_eq_true']
  constructor
  · grind
  · grind

/-! ## What the code misses -/

/-- No record that is missed comes first. -/
def Preceded (answers : List IpAddr) : Prop :=
  ∀ before ip after, answers = before ++ ip :: after → ip.Missed →
    if ip.isIpv4 then ∃ earlier ∈ before, earlier.isIpv4 = true ∧ earlier.GlobalUnicast
    else (∃ other ∈ answers, other.isIpv4 = true ∧ other.GlobalUnicast) ∨
      ∃ earlier ∈ before, earlier.isIpv4 = false ∧ earlier.GlobalUnicast

theorem missed_iff_bool (ip : IpAddr) :
    ip.Missed ↔ isPubliclyRoutable ip = true ∧ decide ip.GlobalUnicast = false := by
  rw [missed_iff, decide_eq_false_iff_not]

section Family

variable (v4 : Bool) (answers : List IpAddr)

/-- The first routable address of a family is its first global one. -/
theorem find?_family_iff :
    (answers.find? fun ip => ip.isIpv4 == v4 && isPubliclyRoutable ip) =
        (answers.find? fun ip => ip.isIpv4 == v4 && decide ip.GlobalUnicast) ↔
      ∀ before ip after, answers = before ++ ip :: after → ip.isIpv4 = v4 → ip.Missed →
        ∃ earlier ∈ before, earlier.isIpv4 = v4 ∧ earlier.GlobalUnicast := by
  rw [find?_eq_find?_iff]
  · simp only [Bool.and_eq_true, beq_iff_eq, decide_eq_true_eq, missed_iff_bool]
    constructor
    · grind
    · grind
  · intro ip h
    simp only [Bool.and_eq_true, beq_iff_eq, decide_eq_true_eq] at h ⊢
    exact ⟨h.1, globalUnicast_routable h.2⟩

theorem find?_family_eq_none (h : (answers.find? fun ip => ip.isIpv4 == v4 && p ip) = none)
    (hmem : ip ∈ answers) (hv4 : ip.isIpv4 = v4) : ¬p ip = true := by
  grind

theorem isIpv4_of_find?
    (h : (answers.find? fun ip => ip.isIpv4 == v4 && p ip) = some ip) : ip.isIpv4 = v4 := by
  grind

end Family

theorem chooseAddress_eq (p : IpAddr → Bool) (answers : List IpAddr) : chooseAddress p answers =
    (answers.find? fun ip => ip.isIpv4 == true && p ip).or
      (answers.find? fun ip => ip.isIpv4 == false && p ip) := by
  have htrue (b : Bool) : (b == true) = b := by cases b <;> rfl
  have hfalse (b : Bool) : (b == false) = !b := by cases b <;> rfl
  simp only [chooseAddress, htrue, hfalse]

/-- Where the choices agree, so do those among the IPv4 addresses. -/
theorem find?_v4_eq_of_chooseAddress_eq
    (h : chooseAddress isPubliclyRoutable answers = chooseAddress (fun ip => decide ip.GlobalUnicast) answers) :
    (answers.find? fun ip => ip.isIpv4 == true && isPubliclyRoutable ip) =
      (answers.find? fun ip => ip.isIpv4 == true && decide ip.GlobalUnicast) := by
  rw [chooseAddress_eq, chooseAddress_eq] at h
  cases hroutable : answers.find? fun ip => ip.isIpv4 == true && isPubliclyRoutable ip with
  | none =>
    symm
    rw [List.find?_eq_none]
    intro ip hmem hip
    simp only [Bool.and_eq_true, beq_iff_eq, decide_eq_true_eq] at hip
    exact find?_family_eq_none true answers hroutable hmem hip.1 (globalUnicast_routable hip.2)
  | some ip =>
    rw [hroutable, some_or] at h
    cases hglobal : answers.find? fun ip => ip.isIpv4 == true && decide ip.GlobalUnicast with
    | some ip' => rw [hglobal, some_or] at h; exact h
    | none => grind

/-- The code chooses the first global address where no record that it misses comes first. -/
theorem chooseAddress_eq_iff (answers : List IpAddr) :
    chooseAddress isPubliclyRoutable answers = chooseAddress (fun ip => decide ip.GlobalUnicast) answers ↔
      Preceded answers := by
  have hfirst4 := find?_family_iff true answers
  have hfirst6 := find?_family_iff false answers
  constructor
  · intro h before ip after hsplit hmissed
    have heq4 := find?_v4_eq_of_chooseAddress_eq h
    rw [chooseAddress_eq, chooseAddress_eq, heq4] at h
    split
    · next hv4 => exact hfirst4.mp heq4 before ip after hsplit hv4 hmissed
    · next hv4 =>
      refine or_iff_not_imp_left.mpr fun hnone => ?_
      have hglobal : (answers.find? fun ip => ip.isIpv4 == true && decide ip.GlobalUnicast) = none := by grind
      rw [hglobal, none_or, none_or] at h
      exact hfirst6.mp h before ip after hsplit (Bool.not_eq_true _ ▸ hv4) hmissed
  · intro h
    have heq4 := hfirst4.mpr fun before ip after hsplit hv4 hmissed => by
      simpa [hv4] using h before ip after hsplit hmissed
    rw [chooseAddress_eq, chooseAddress_eq, heq4]
    cases hglobal : answers.find? fun ip => ip.isIpv4 == true && decide ip.GlobalUnicast with
    | some ip => rfl
    | none =>
      rw [none_or, none_or]
      refine hfirst6.mpr fun before ip after hsplit hv4 hmissed => ?_
      have hearlier := h before ip after hsplit hmissed
      simp only [hv4, Bool.false_eq_true, if_false] at hearlier
      refine hearlier.resolve_left ?_
      rintro ⟨other, hmem, hother, hunicast⟩
      exact find?_family_eq_none true answers hglobal hmem hother (decide_eq_true hunicast)

/-! ## The guard -/

/-- The error of a blocked answer. -/
def IsViolation (outcome : Except ResolveError SocketAddr) : Prop :=
  ∃ message, outcome = .error (.mizu (.securityViolation message))

namespace Resolver

variable (resolver : Resolver) (domain : String) (port : UInt16) (allowPrivateLiteral : Bool)

/-- A host that only the pools can resolve. -/
def IsName (bare : String) : Prop := resolver.parseLiteral bare = none ∧ isLoopbackName bare = false

/-- What the guard promises of an address that it hands out. -/
structure Guarded : Prop where
  loopback : isLoopbackName (trimEndMatches '.' domain) = true →
    ∀ addr, resolver.resolveDomain domain port allowPrivateLiteral = .ok addr → addr.ip.isLoopback = true
  literal : allowPrivateLiteral = true → ∀ ip, resolver.parseLiteral (trimEndMatches '.' domain) = some ip →
    ∀ addr, resolver.resolveDomain domain port allowPrivateLiteral = .ok addr → addr.ip = ip
  global : isLoopbackName (trimEndMatches '.' domain) = false →
    allowPrivateLiteral = false ∨ resolver.parseLiteral (trimEndMatches '.' domain) = none →
    ∀ addr, resolver.resolveDomain domain port allowPrivateLiteral = .ok addr → addr.ip.GlobalUnicast
  choice : resolver.IsName (trimEndMatches '.' domain) →
    ∀ answers, resolver.answersOf (trimEndMatches '.' domain) = .ok answers →
    (resolver.resolveDomain domain port allowPrivateLiteral).toOption.map SocketAddr.ip =
      chooseAddress (fun ip => decide ip.GlobalUnicast) answers
  violation : resolver.IsName (trimEndMatches '.' domain) →
    (IsViolation (resolver.resolveDomain domain port allowPrivateLiteral) ↔
      ∃ answers, resolver.answersOf (trimEndMatches '.' domain) = .ok answers ∧ answers ≠ [] ∧
        ∀ ip ∈ answers, ¬ip.GlobalUnicast)

/-- The hosts and answers that leave the guard without holes. -/
def Screened : Prop :=
  match resolver.parseLiteral (trimEndMatches '.' domain) with
  | some ip => allowPrivateLiteral = true ∨ ¬ip.Missed
  | none => isLoopbackName (trimEndMatches '.' domain) = true ∨
      ∀ answers, resolver.answersOf (trimEndMatches '.' domain) = .ok answers → Preceded answers

variable {resolver domain port allowPrivateLiteral}

theorem authorized_literal {bare : String} (h : resolver.parseLiteral bare = some ip) :
    resolver.authorized bare ⟨ip, port⟩ allowPrivateLiteral =
      if allowPrivateLiteral || isPubliclyRoutable ip then .ok ⟨ip, port⟩
      else .error (.mizu (.securityViolation (violationLiteralNotRoutable bare))) := by
  simp only [authorized, authorizeResolvedAddress, authorizeResolvedAddressWith, h, ne_eq, not_true_eq_false,
    if_false]
  by_cases hpass : (allowPrivateLiteral || isPubliclyRoutable ip) = true
  · rw [if_pos hpass, if_pos hpass]
  · rw [if_neg hpass, if_neg hpass]

theorem authorized_loopback {bare : String} (h : resolver.parseLiteral bare = none)
    (hloopback : isLoopbackName bare = true) : resolver.authorized bare ⟨.v4 ⟨127, 0, 0, 1⟩, port⟩
      allowPrivateLiteral = .ok ⟨.v4 ⟨127, 0, 0, 1⟩, port⟩ := by
  have hip : (IpAddr.v4 ⟨127, 0, 0, 1⟩).isLoopback = true := rfl
  simp only [authorized, authorizeResolvedAddress, authorizeResolvedAddressWith, h, isLocalHostWith, hloopback,
    hip, if_true]

theorem authorized_name {bare : String} (hname : resolver.IsName bare) {addr : SocketAddr}
    (hroutable : isPubliclyRoutable addr.ip = true) :
    resolver.authorized bare addr allowPrivateLiteral = .ok addr := by
  simp only [authorized, authorizeResolvedAddress, authorizeResolvedAddressWith, hname.1, isLocalHostWith, hname.2,
    hroutable, if_true, Bool.false_eq_true, if_false]

/-- The answers of the pool that decides go through the selection. -/
theorem lookup_eq (bare : String) :
    (match selectPoolForDomain bare with
      | .primary => resolveWithPoolFallback (resolver.resolveIp .primary (bare ++ ".") port)
          (resolver.resolveIp .openNic (bare ++ ".") port)
      | .openNic => resolver.resolveIp .openNic (bare ++ ".") port) =
      match resolver.answersOf bare with
      | .error e => .error (.dns e)
      | .ok answers => selectRecord (trimEndMatches '.' (bare ++ ".")) port answers none false := by
  unfold answersOf
  cases selectPoolForDomain bare with
  | openNic => rfl
  | primary =>
    simp only [resolveIp]
    cases hprimary : resolver.lookupIp .primary (bare ++ ".") with
    | error e => grind [resolveWithPoolFallback]
    | ok answers =>
      simp only [selectRecord_choose]
      cases chooseAddress isPubliclyRoutable answers with
      | some ip => rfl
      | none => cases answers.any (!isPubliclyRoutable ·) <;> rfl

theorem resolveDomain_name (hname : resolver.IsName (trimEndMatches '.' domain)) :
    resolver.resolveDomain domain port allowPrivateLiteral =
      match resolver.answersOf (trimEndMatches '.' domain) with
      | .error e => .error (.dns e)
      | .ok answers =>
        selectRecord (trimEndMatches '.' (trimEndMatches '.' domain ++ ".")) port answers none false := by
  simp only [resolveDomain, hname.1, hname.2, Bool.false_eq_true, if_false, lookup_eq]
  cases resolver.answersOf (trimEndMatches '.' domain) with
  | error e => rfl
  | ok answers =>
    simp only [selectRecord_choose]
    cases hchoose : chooseAddress isPubliclyRoutable answers with
    | some ip => exact authorized_name hname (chooseAddress_some hchoose).2
    | none => cases answers.any (!isPubliclyRoutable ·) <;> rfl

theorem guarded_of_literal (h : resolver.parseLiteral (trimEndMatches '.' domain) = some ip)
    (hname : isLoopbackName (trimEndMatches '.' domain) = false) :
    resolver.Guarded domain port allowPrivateLiteral ↔ allowPrivateLiteral = true ∨ ¬ip.Missed := by
  have hresolve : resolver.resolveDomain domain port allowPrivateLiteral =
      if allowPrivateLiteral || isPubliclyRoutable ip then .ok ⟨ip, port⟩
      else .error (.mizu (.securityViolation (violationLiteralNotRoutable (trimEndMatches '.' domain)))) := by
    simp only [resolveDomain, h, authorized_literal h]
  have hip {addr : SocketAddr} (haddr : resolver.resolveDomain domain port allowPrivateLiteral = .ok addr) :
      addr.ip = ip ∧ (allowPrivateLiteral || isPubliclyRoutable ip) = true := by
    rw [hresolve] at haddr
    split at haddr
    · next hpass => exact ⟨by rw [← Except.ok.inj haddr], hpass⟩
    · simp at haddr
  constructor
  · intro hguarded
    refine or_iff_not_imp_left.mpr fun hallow hmissed => ?_
    obtain ⟨hroutable, hglobal⟩ := (missed_iff ip).mp hmissed
    rw [hroutable, Bool.or_true, if_pos rfl] at hresolve
    exact hglobal (hguarded.global hname (.inl (Bool.not_eq_true _ ▸ hallow)) _ hresolve)
  · intro hscreened
    refine ⟨fun hloopback => ?_, fun _ ip' hip' addr haddr => ?_, fun _ hother addr haddr => ?_,
      fun hisName => ?_, fun hisName => ?_⟩
    · exact absurd (hname.symm.trans hloopback) Bool.false_ne_true
    · rw [(hip haddr).1]
      exact some.inj (h.symm.trans hip')
    · obtain ⟨hsame, hpass⟩ := hip haddr
      have hallow : allowPrivateLiteral = false := hother.resolve_right (by simp [h])
      rw [hallow, Bool.false_or] at hpass
      by_contra hglobal
      rw [hsame] at hglobal
      exact hscreened.resolve_left (by simp [hallow]) ((missed_iff ip).mpr ⟨hpass, hglobal⟩)
    · exact absurd (h.symm.trans hisName.1) (by simp)
    · exact absurd (h.symm.trans hisName.1) (by simp)

theorem guarded_of_loopback (h : resolver.parseLiteral (trimEndMatches '.' domain) = none)
    (hloopback : isLoopbackName (trimEndMatches '.' domain) = true) :
    resolver.Guarded domain port allowPrivateLiteral := by
  have hresolve : resolver.resolveDomain domain port allowPrivateLiteral = .ok ⟨.v4 ⟨127, 0, 0, 1⟩, port⟩ := by
    simp only [resolveDomain, h, hloopback, if_true, authorized_loopback h hloopback]
  refine ⟨fun _ addr haddr => ?_, fun _ ip hip => ?_, fun hname => ?_, fun hisName => ?_, fun hisName => ?_⟩
  · rw [← Except.ok.inj (hresolve.symm.trans haddr)]
    rfl
  · exact absurd (h.symm.trans hip) (by simp)
  · exact absurd (hname.symm.trans hloopback) Bool.false_ne_true
  · exact absurd (hisName.2.symm.trans hloopback) Bool.false_ne_true
  · exact absurd (hisName.2.symm.trans hloopback) Bool.false_ne_true

section Name

variable (hname : resolver.IsName (trimEndMatches '.' domain))
include hname

theorem resolveDomain_toOption (h : resolver.answersOf (trimEndMatches '.' domain) = .ok answers) :
    (resolver.resolveDomain domain port allowPrivateLiteral).toOption.map SocketAddr.ip =
      chooseAddress isPubliclyRoutable answers := by
  rw [resolveDomain_name hname, h]
  simp only [selectRecord_choose]
  cases chooseAddress isPubliclyRoutable answers with
  | some ip => rfl
  | none => cases answers.any (!isPubliclyRoutable ·) <;> rfl

theorem isViolation_iff (h : resolver.answersOf (trimEndMatches '.' domain) = .ok answers) :
    IsViolation (resolver.resolveDomain domain port allowPrivateLiteral) ↔
      answers ≠ [] ∧ chooseAddress isPubliclyRoutable answers = none := by
  rw [resolveDomain_name hname, h]
  simp only [selectRecord_choose]
  cases hchoose : chooseAddress isPubliclyRoutable answers with
  | some ip => simp [IsViolation]
  | none =>
    have hall := chooseAddress_none.mp hchoose
    cases answers with
    | nil => simp [IsViolation]
    | cons ip answers => simp [IsViolation, hall ip mem_cons_self]

theorem guarded_of_name : resolver.Guarded domain port allowPrivateLiteral ↔
    ∀ answers, resolver.answersOf (trimEndMatches '.' domain) = .ok answers → Preceded answers := by
  constructor
  · intro hguarded answers h
    rw [← chooseAddress_eq_iff, ← resolveDomain_toOption hname h]
    exact hguarded.choice hname answers h
  · intro hpreceded
    refine ⟨fun hloopback => ?_, fun _ ip hip => ?_, fun _ _ addr haddr => ?_, fun _ answers h => ?_,
      fun _ => ⟨fun hviolation => ?_, ?_⟩⟩
    · exact absurd (hname.2.symm.trans hloopback) Bool.false_ne_true
    · exact absurd (hname.1.symm.trans hip) (by simp)
    · cases h : resolver.answersOf (trimEndMatches '.' domain) with
      | error e => grind [resolveDomain_name]
      | ok answers =>
        have hchoice : (resolver.resolveDomain domain port allowPrivateLiteral).toOption.map SocketAddr.ip = _ :=
          resolveDomain_toOption hname h
        rw [haddr, (chooseAddress_eq_iff answers).mpr (hpreceded answers h)] at hchoice
        exact of_decide_eq_true (chooseAddress_some hchoice.symm).2
    · rw [resolveDomain_toOption hname h]
      exact (chooseAddress_eq_iff answers).mpr (hpreceded answers h)
    · cases h : resolver.answersOf (trimEndMatches '.' domain) with
      | error e =>
        obtain ⟨message, hmessage⟩ := hviolation
        rw [resolveDomain_name hname, h] at hmessage
        simp at hmessage
      | ok answers =>
        obtain ⟨hne, hnone⟩ := (isViolation_iff hname h).mp hviolation
        rw [(chooseAddress_eq_iff answers).mpr (hpreceded answers h)] at hnone
        exact ⟨answers, rfl, hne, fun ip hmem => of_decide_eq_false (chooseAddress_none.mp hnone ip hmem)⟩
    · rintro ⟨answers, h, hne, hnone⟩
      rw [isViolation_iff hname h, (chooseAddress_eq_iff answers).mpr (hpreceded answers h)]
      exact ⟨hne, chooseAddress_none.mpr fun ip hmem => decide_eq_false (hnone ip hmem)⟩

end Name

/-- The URL library takes no loopback name for an address. -/
def NamesLoopback : Prop :=
  ∀ host, isLoopbackName host = true → ∀ parsed, resolver.urlHostParse host = some parsed →
    ∃ name, parsed = .domain name

theorem parseLiteral_of_isLoopbackName (hnames : resolver.NamesLoopback) {host : String}
    (h : isLoopbackName host = true) : resolver.parseLiteral host = none := by
  unfold parseLiteral parseHostLiteral
  cases hparse : resolver.urlHostParse host with
  | none => exact ipAddrFromStr_of_isLoopbackName h
  | some parsed =>
    obtain ⟨name, rfl⟩ := hnames host h parsed hparse
    rfl

/-- The guard holds of a host and its answers exactly where no address that the code takes for global would be
handed out. -/
theorem guarded_iff_screened (hnames : resolver.NamesLoopback) :
    resolver.Guarded domain port allowPrivateLiteral ↔ resolver.Screened domain allowPrivateLiteral := by
  unfold Screened
  cases hloopback : isLoopbackName (trimEndMatches '.' domain) with
  | true =>
    have hparse := parseLiteral_of_isLoopbackName hnames hloopback
    simp only [hparse, true_or, iff_true]
    exact guarded_of_loopback hparse hloopback
  | false =>
    cases hparse : resolver.parseLiteral (trimEndMatches '.' domain) with
    | some ip => exact guarded_of_literal hparse hloopback
    | none =>
      simp only [Bool.false_eq_true, false_or]
      exact guarded_of_name ⟨hparse, hloopback⟩

/-- A URL library for plain addresses and names, and one list of answers. -/
def answering (answers : List IpAddr) : Resolver where
  urlHostParse host :=
    match ipAddrFromStr host with
    | some (.v4 addr) => some (.ipv4 addr)
    | some (.v6 _) => none
    | none => some (.domain host)
  lookupIp _ _ := .ok answers

theorem answering_namesLoopback (answers : List IpAddr) : (answering answers).NamesLoopback := by
  intro host h parsed hparsed
  simp only [answering, ipAddrFromStr_of_isLoopbackName h, some.injEq] at hparsed
  exact ⟨host, hparsed.symm⟩

/-- A private record and one that carries a loopback address, then a public one. -/
theorem guarded_iff_screened_example :
    (answering [.v4 ⟨10, 0, 0, 1⟩, .v6 ⟨0x64, 0xff9b, 0, 0, 0, 0, 0x7f00, 1⟩, .v4 ⟨93, 184, 216, 34⟩]).Guarded
      "example.com" 1965 false := by
  refine (guarded_iff_screened (answering_namesLoopback _)).mpr ?_
  refine .inr fun answers h => ?_
  obtain rfl := Except.ok.inj h
  exact (chooseAddress_eq_iff _).mp (by decide)

/-- A name whose only record carries `127.0.0.1` by NAT64 leads there. -/
theorem not_always_guarded : ¬∀ (resolver : Resolver) (domain : String) (port : UInt16) (allow : Bool),
    resolver.NamesLoopback → resolver.Guarded domain port allow := by
  intro h
  have hguarded := h (answering [.v6 ⟨0x64, 0xff9b, 0, 0, 0, 0, 0x7f00, 1⟩]) "evil.com" 1965 false
    (answering_namesLoopback _)
  have hglobal := hguarded.global (by decide) (.inl rfl)
    ⟨.v6 ⟨0x64, 0xff9b, 0, 0, 0, 0, 0x7f00, 1⟩, 1965⟩ (by decide)
  exact absurd hglobal (by decide)

end Resolver

end Mizu
