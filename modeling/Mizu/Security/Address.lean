import Mizu.Lib.AddressBlock

/-!
# Addresses

`isPubliclyRoutable` classifies the addresses that an answer of the resolver may hold. `globalUnicast` is what
it is meant to say, by the registries of special-purpose addresses:

* `globalUnicast_routable`: it refuses no global address.
* `missed_iff`: the addresses that it passes although they are not global.
-/

namespace Mizu

open AddressBlock

structure Ipv4Addr where
  a : UInt8
  b : UInt8
  c : UInt8
  d : UInt8
  deriving DecidableEq, Repr

/-- Eight segments. -/
structure Ipv6Addr where
  s0 : UInt16
  s1 : UInt16
  s2 : UInt16
  s3 : UInt16
  s4 : UInt16
  s5 : UInt16
  s6 : UInt16
  s7 : UInt16
  deriving DecidableEq, Repr

inductive IpAddr where
  | v4 (addr : Ipv4Addr)
  | v6 (addr : Ipv6Addr)
  deriving DecidableEq, Repr

def Ipv4Addr.toNat (v4 : Ipv4Addr) : Nat :=
  ((v4.a.toNat * 256 + v4.b.toNat) * 256 + v4.c.toNat) * 256 + v4.d.toNat

def Ipv6Addr.toNat (v6 : Ipv6Addr) : Nat :=
  ((((((v6.s0.toNat * 65536 + v6.s1.toNat) * 65536 + v6.s2.toNat) * 65536 + v6.s3.toNat) * 65536 +
    v6.s4.toNat) * 65536 + v6.s5.toNat) * 65536 + v6.s6.toNat) * 65536 + v6.s7.toNat

/-! ## The classification of the code -/

/-- What the standard library says of an address. -/
def Ipv4Addr.isUnspecified (v4 : Ipv4Addr) : Bool := v4 = ⟨0, 0, 0, 0⟩

def Ipv4Addr.isLoopback (v4 : Ipv4Addr) : Bool := v4.a = 127

def Ipv4Addr.isPrivate (v4 : Ipv4Addr) : Bool :=
  v4.a = 10 || (v4.a = 172 && 16 ≤ v4.b && v4.b ≤ 31) || (v4.a = 192 && v4.b = 168)

def Ipv4Addr.isLinkLocal (v4 : Ipv4Addr) : Bool := v4.a = 169 && v4.b = 254

def Ipv4Addr.isMulticast (v4 : Ipv4Addr) : Bool := 224 ≤ v4.a && v4.a ≤ 239

def Ipv4Addr.isBroadcast (v4 : Ipv4Addr) : Bool := v4 = ⟨255, 255, 255, 255⟩

def Ipv4Addr.isDocumentation (v4 : Ipv4Addr) : Bool :=
  (v4.a = 192 && v4.b = 0 && v4.c = 2) || (v4.a = 198 && v4.b = 51 && v4.c = 100) ||
    (v4.a = 203 && v4.b = 0 && v4.c = 113)

def Ipv6Addr.isUnspecified (v6 : Ipv6Addr) : Bool := v6 = ⟨0, 0, 0, 0, 0, 0, 0, 0⟩

def Ipv6Addr.isLoopback (v6 : Ipv6Addr) : Bool := v6 = ⟨0, 0, 0, 0, 0, 0, 0, 1⟩

def Ipv6Addr.isMulticast (v6 : Ipv6Addr) : Bool := v6.s0 &&& 0xff00 = 0xff00

def IpAddr.isLoopback : IpAddr → Bool
  | .v4 addr => addr.isLoopback
  | .v6 addr => addr.isLoopback

/-- The address whose halves are two segments. -/
def ipv4OfSegments (a b : UInt16) : Ipv4Addr :=
  ⟨(a >>> 8).toUInt8, (a &&& 0xff).toUInt8, (b >>> 8).toUInt8, (b &&& 0xff).toUInt8⟩

def Ipv6Addr.toIpv4Mapped (v6 : Ipv6Addr) : Option Ipv4Addr :=
  if v6.s0 = 0 ∧ v6.s1 = 0 ∧ v6.s2 = 0 ∧ v6.s3 = 0 ∧ v6.s4 = 0 ∧ v6.s5 = 0xffff then
    some (ipv4OfSegments v6.s6 v6.s7)
  else none

def isPubliclyRoutableV4 (v4 : Ipv4Addr) : Bool :=
  !(v4.isUnspecified || v4.isLoopback || v4.isPrivate || v4.isLinkLocal || v4.isMulticast ||
    v4.isBroadcast || v4.isDocumentation ||
    (v4.a = 100 && (64 ≤ v4.b && v4.b < 128)) ||
    (v4.a = 192 && v4.b = 0 && v4.c = 0) ||
    (v4.a = 198 && (v4.b = 18 || v4.b = 19)) ||
    v4.a ≥ 240)

/-- The embedded address: mapped, compatible, 6to4, Teredo. -/
def embeddedIpv4 (v6 : Ipv6Addr) : Option Ipv4Addr :=
  match v6.toIpv4Mapped with
  | some v4 => some v4
  | none =>
    if (v6.s0 = 0 ∧ v6.s1 = 0 ∧ v6.s2 = 0 ∧ v6.s3 = 0 ∧ v6.s4 = 0 ∧ v6.s5 = 0) ∧ v6.s6 ≠ 0 then
      some (ipv4OfSegments v6.s6 v6.s7)
    else if v6.s0 = 0x2002 then some (ipv4OfSegments v6.s1 v6.s2)
    else if v6.s0 = 0x2001 ∧ v6.s1 = 0 then some (ipv4OfSegments (~~~v6.s6) (~~~v6.s7))
    else none

def isPubliclyRoutableV6 (v6 : Ipv6Addr) : Bool :=
  match embeddedIpv4 v6 with
  | some v4 => isPubliclyRoutableV4 v4
  | none =>
    !(v6.isUnspecified || v6.isLoopback || v6.isMulticast ||
      (v6.s0 &&& 0xfe00 = 0xfc00) ||
      (v6.s0 &&& 0xffc0 = 0xfe80) ||
      (v6.s0 = 0x2001 && v6.s1 = 0x0db8) ||
      (v6.s0 = 0x0100 && (v6.s1 = 0 && v6.s2 = 0 && v6.s3 = 0)))

def isPubliclyRoutable : IpAddr → Bool
  | .v4 v4 => isPubliclyRoutableV4 v4
  | .v6 v6 => isPubliclyRoutableV6 v6

/-! ## The registries -/

def block4 (a b c d : UInt8) (length : Nat) : Block 32 := ⟨Ipv4Addr.toNat ⟨a, b, c, d⟩, length⟩

/-- A block by the leading segments of its base. -/
def block6 (segments : List Nat) (length : Nat) : Block 128 :=
  ⟨segments.foldl (fun n s => n * 65536 + s) 0 * 65536 ^ (8 - segments.length), length⟩

/-- The registry of special-purpose IPv4 addresses. -/
def ipv4SpecialPurpose : List (Block 32) :=
  [block4 0 0 0 0 8, block4 0 0 0 0 32, block4 10 0 0 0 8, block4 100 64 0 0 10, block4 127 0 0 0 8,
    block4 169 254 0 0 16, block4 172 16 0 0 12, block4 192 0 0 0 24, block4 192 0 0 0 29,
    block4 192 0 0 8 32, block4 192 0 0 9 32, block4 192 0 0 10 32, block4 192 0 0 170 32,
    block4 192 0 0 171 32, block4 192 0 2 0 24, block4 192 31 196 0 24, block4 192 52 193 0 24,
    block4 192 88 99 0 24, block4 192 168 0 0 16, block4 192 175 48 0 24, block4 198 18 0 0 15,
    block4 198 51 100 0 24, block4 203 0 113 0 24, block4 240 0 0 0 4, block4 255 255 255 255 32]

def ipv4Multicast : Block 32 := block4 224 0 0 0 4

/-- The registry of special-purpose IPv6 addresses. -/
def ipv6SpecialPurpose : List (Block 128) :=
  [block6 [0, 0, 0, 0, 0, 0, 0, 1] 128, block6 [0, 0, 0, 0, 0, 0, 0, 0] 128,
    block6 [0, 0, 0, 0, 0, 0xffff] 96, block6 [0x64, 0xff9b] 96, block6 [0x64, 0xff9b, 1] 48,
    block6 [0x100] 64, block6 [0x100, 0, 0, 1] 64, block6 [0x2001] 23, block6 [0x2001, 0] 32,
    block6 [0x2001, 1, 0, 0, 0, 0, 0, 1] 128, block6 [0x2001, 1, 0, 0, 0, 0, 0, 2] 128,
    block6 [0x2001, 1, 0, 0, 0, 0, 0, 3] 128, block6 [0x2001, 2] 48, block6 [0x2001, 3] 32,
    block6 [0x2001, 4, 0x112] 48, block6 [0x2001, 0x10] 28, block6 [0x2001, 0x20] 28,
    block6 [0x2001, 0x30] 28, block6 [0x2001, 0xdb8] 32, block6 [0x2002] 16,
    block6 [0x2620, 0x4f, 0x8000] 48, block6 [0x3fff] 20, block6 [0x5f00] 16, block6 [0xfc00] 7,
    block6 [0xfe80] 10]

def ipv6Multicast : Block 128 := block6 [0xff00] 8

/-- Deprecated site-local addresses. -/
def ipv6SiteLocal : Block 128 := block6 [0xfec0] 10

def ipv4Mapped : Block 128 := block6 [0, 0, 0, 0, 0, 0xffff] 96

def ipv4Compatible : Block 128 := block6 [0, 0, 0, 0, 0, 0] 96

def sixToFour : Block 128 := block6 [0x2002] 16

def teredo : Block 128 := block6 [0x2001, 0] 32

def nat64 : Block 128 := block6 [0x64, 0xff9b] 96

def Ipv4Addr.GlobalUnicast (v4 : Ipv4Addr) : Prop := Outside (ipv4Multicast :: ipv4SpecialPurpose) v4.toNat

/-- The address that an address carries by some transition mechanism. -/
def carriedIpv4 (v6 : Ipv6Addr) : Option Ipv4Addr :=
  if ipv4Mapped.Contains v6.toNat ∨ ipv4Compatible.Contains v6.toNat ∨ nat64.Contains v6.toNat then
    some (ipv4OfSegments v6.s6 v6.s7)
  else if sixToFour.Contains v6.toNat then some (ipv4OfSegments v6.s1 v6.s2)
  else if teredo.Contains v6.toNat then some (ipv4OfSegments (~~~v6.s6) (~~~v6.s7))
  else none

/-- A globally routable unicast address: in no special-purpose block, or carrying such an address. -/
def IpAddr.GlobalUnicast : IpAddr → Prop
  | .v4 addr => addr.GlobalUnicast
  | .v6 addr =>
    match carriedIpv4 addr with
    | some carried => carried.GlobalUnicast
    | none => Outside (ipv6Multicast :: ipv6SiteLocal :: ipv6SpecialPurpose) addr.toNat

instance (v4 : Ipv4Addr) : Decidable v4.GlobalUnicast := inferInstanceAs (Decidable (Outside _ _))

section Carried

variable {addr : Ipv6Addr}

/-- The two matches, for any address that is carried. -/
theorem match_v6 (carries : Ipv6Addr → Option Ipv4Addr) (addr : Ipv6Addr) :
    (match IpAddr.v6 addr with
      | .v4 addr => addr.GlobalUnicast
      | .v6 addr =>
        match carries addr with
        | some carried => carried.GlobalUnicast
        | none => Outside (ipv6Multicast :: ipv6SiteLocal :: ipv6SpecialPurpose) addr.toNat) ↔
      match carries addr with
      | some carried => carried.GlobalUnicast
      | none => Outside (ipv6Multicast :: ipv6SiteLocal :: ipv6SpecialPurpose) addr.toNat :=
  Iff.rfl

-- An equation of functions: on an address, the kernel would evaluate `carriedIpv4` of a variable.
theorem globalUnicast_eq : IpAddr.GlobalUnicast = fun ip =>
    match ip with
    | .v4 addr => addr.GlobalUnicast
    | .v6 addr =>
      match carriedIpv4 addr with
      | some carried => carried.GlobalUnicast
      | none => Outside (ipv6Multicast :: ipv6SiteLocal :: ipv6SpecialPurpose) addr.toNat :=
  rfl

theorem globalUnicast_v6 (addr : Ipv6Addr) : (IpAddr.v6 addr).GlobalUnicast ↔
    match carriedIpv4 addr with
    | some carried => carried.GlobalUnicast
    | none => Outside (ipv6Multicast :: ipv6SiteLocal :: ipv6SpecialPurpose) addr.toNat :=
  (iff_of_eq (congrFun globalUnicast_eq (.v6 addr))).trans (match_v6 carriedIpv4 addr)

theorem globalUnicast_carried {carried : Ipv4Addr} (h : carriedIpv4 addr = some carried) :
    (IpAddr.v6 addr).GlobalUnicast ↔ carried.GlobalUnicast := by
  rw [globalUnicast_v6, h]

theorem globalUnicast_native (h : carriedIpv4 addr = none) : (IpAddr.v6 addr).GlobalUnicast ↔
    Outside (ipv6Multicast :: ipv6SiteLocal :: ipv6SpecialPurpose) addr.toNat := by
  rw [globalUnicast_v6, h]

end Carried

instance (ip : IpAddr) : Decidable ip.GlobalUnicast :=
  match ip with
  | .v4 addr => inferInstanceAs (Decidable addr.GlobalUnicast)
  | .v6 addr =>
    match h : carriedIpv4 addr with
    | some _ => decidable_of_iff _ (globalUnicast_carried h).symm
    | none => decidable_of_iff _ (globalUnicast_native h).symm

/-- IPv4 addresses that the code takes for global. -/
def Ipv4Addr.Missed (v4 : Ipv4Addr) : Prop :=
  (block4 0 0 0 0 8).Contains v4.toNat ∧ v4 ≠ ⟨0, 0, 0, 0⟩ ∨
    (block4 192 31 196 0 24).Contains v4.toNat ∨ (block4 192 52 193 0 24).Contains v4.toNat ∨
    (block4 192 88 99 0 24).Contains v4.toNat ∨ (block4 192 175 48 0 24).Contains v4.toNat

/-- IPv6 blocks that the code does not know. -/
def missedBlocks : List (Block 128) :=
  [ipv6SiteLocal, block6 [0x64, 0xff9b, 1] 48, block6 [0x100, 0, 0, 1] 64, block6 [0x2001] 23,
    block6 [0x2620, 0x4f, 0x8000] 48, block6 [0x3fff] 20, block6 [0x5f00] 16]

/-- The addresses that the code takes for global: of the blocks it does not know, the compatible ones of
the first 65536 addresses, and those that carry an address it misses, or by NAT64 one that is not global. -/
def IpAddr.Missed : IpAddr → Prop
  | .v4 addr => addr.Missed
  | .v6 addr =>
    match embeddedIpv4 addr with
    | some carried => carried.Missed
    | none =>
      if nat64.Contains addr.toNat then ¬(ipv4OfSegments addr.s6 addr.s7).GlobalUnicast
      else if ipv4Compatible.Contains addr.toNat then
        addr ≠ ⟨0, 0, 0, 0, 0, 0, 0, 0⟩ ∧ addr ≠ ⟨0, 0, 0, 0, 0, 0, 0, 1⟩
      else ¬Outside missedBlocks addr.toNat

/-! ## IPv4 -/

/-- The blocks that `isPubliclyRoutableV4` refuses. -/
def refused4 : List (Block 32) :=
  [block4 0 0 0 0 32, block4 127 0 0 0 8, block4 10 0 0 0 8, block4 172 16 0 0 12, block4 192 168 0 0 16,
    block4 169 254 0 0 16, block4 224 0 0 0 4, block4 255 255 255 255 32, block4 192 0 2 0 24,
    block4 198 51 100 0 24, block4 203 0 113 0 24, block4 100 64 0 0 10, block4 192 0 0 0 24,
    block4 198 18 0 0 15, block4 240 0 0 0 4]

/-- The special-purpose blocks that it passes, but for one address of the first. -/
def missed4 : List (Block 32) :=
  [block4 0 0 0 0 8, block4 192 31 196 0 24, block4 192 52 193 0 24, block4 192 88 99 0 24,
    block4 192 175 48 0 24]

/-- The code passes what is global and what it misses, which are different. -/
def IpAddr.Classified (ip : IpAddr) : Prop :=
  (isPubliclyRoutable ip = true ↔ ip.GlobalUnicast ∨ ip.Missed) ∧ (ip.Missed → ¬ip.GlobalUnicast)

section V4

variable (v4 : Ipv4Addr) (a b c d : UInt8)

theorem contains4 (length : Nat) : (block4 a b c d length).Contains v4.toNat ↔
    (((v4.a.toNat * 256 + v4.b.toNat) * 256 + v4.c.toNat) * 256 + v4.d.toNat) / 2 ^ (32 - length) =
      (((a.toNat * 256 + b.toNat) * 256 + c.toNat) * 256 + d.toNat) / 2 ^ (32 - length) :=
  Iff.rfl

theorem octets_lt : v4.b.toNat < 256 ∧ v4.c.toNat < 256 ∧ v4.d.toNat < 256 :=
  ⟨v4.b.toNat_lt, v4.c.toNat_lt, v4.d.toNat_lt⟩

/-- Of the blocks of whole octets, the length says how many of them are fixed. -/
theorem contains4_octets : ((block4 a b c d 8).Contains v4.toNat ↔ v4.a = a) ∧
    ((block4 a b c d 16).Contains v4.toNat ↔ v4.a = a ∧ v4.b = b) ∧
    ((block4 a b c d 24).Contains v4.toNat ↔ v4.a = a ∧ v4.b = b ∧ v4.c = c) ∧
    ((block4 a b c d 32).Contains v4.toNat ↔ v4 = ⟨a, b, c, d⟩) := by
  have hv4 := octets_lt v4
  have hbase := octets_lt ⟨a, b, c, d⟩
  obtain ⟨a', b', c', d'⟩ := v4
  simp only [contains4, Ipv4Addr.mk.injEq, ← UInt8.toNat_inj] at *
  omega

theorem contains4_4 : (block4 a 0 0 0 4).Contains v4.toNat ↔ v4.a.toNat / 16 = a.toNat / 16 := by
  have hv4 := octets_lt v4
  simp only [contains4, UInt8.toNat_ofNat]
  omega

theorem contains4_second (k : Nat) (hk : k ≤ 8) : (block4 a b 0 0 (8 + k)).Contains v4.toNat ↔
    v4.a = a ∧ v4.b.toNat / 2 ^ (8 - k) = b.toNat / 2 ^ (8 - k) := by
  have hv4 := octets_lt v4
  have hb' := b.toNat_lt
  simp only [contains4, ← UInt8.toNat_inj, UInt8.toNat_ofNat]
  interval_cases k <;> omega

theorem private_range (b : UInt8) : (16 ≤ b ∧ b ≤ 31) ↔
    b.toNat / 2 ^ (8 - 4) = (16 : UInt8).toNat / 2 ^ (8 - 4) := by
  have hb := b.toNat_lt
  simp only [UInt8.le_iff_toNat_le, UInt8.toNat_ofNat]
  omega

theorem shared_range (b : UInt8) : (64 ≤ b ∧ b < 128) ↔
    b.toNat / 2 ^ (8 - 2) = (64 : UInt8).toNat / 2 ^ (8 - 2) := by
  have hb := b.toNat_lt
  simp only [UInt8.le_iff_toNat_le, UInt8.lt_iff_toNat_lt, UInt8.toNat_ofNat]
  omega

theorem benchmarking_range (b : UInt8) : (b = 18 ∨ b = 19) ↔
    b.toNat / 2 ^ (8 - 7) = (18 : UInt8).toNat / 2 ^ (8 - 7) := by
  have hb := b.toNat_lt
  simp only [← UInt8.toNat_inj, UInt8.toNat_ofNat]
  omega

theorem multicast_range (a : UInt8) : (224 ≤ a ∧ a ≤ 239) ↔ a.toNat / 16 = (224 : UInt8).toNat / 16 := by
  have ha := a.toNat_lt
  simp only [UInt8.le_iff_toNat_le, UInt8.toNat_ofNat]
  omega

theorem reserved_range (a : UInt8) : 240 ≤ a ↔ a.toNat / 16 = (240 : UInt8).toNat / 16 := by
  have ha := a.toNat_lt
  simp only [UInt8.le_iff_toNat_le, UInt8.toNat_ofNat]
  omega

/-- The code refuses these blocks and no others. -/
theorem isPubliclyRoutableV4_iff : isPubliclyRoutableV4 v4 = true ↔ Outside refused4 v4.toNat := by
  simp only [refused4, outside_cons, outside_nil, contains4_octets, contains4_4, contains4_second v4 172 16 4 (by omega), contains4_second v4 100 64 2 (by omega),
    contains4_second v4 198 18 7 (by omega), ← private_range, ← shared_range, ← benchmarking_range,
    ← multicast_range, ← reserved_range]
  simp only [isPubliclyRoutableV4, Ipv4Addr.isUnspecified, Ipv4Addr.isLoopback, Ipv4Addr.isPrivate,
    Ipv4Addr.isLinkLocal, Ipv4Addr.isMulticast, Ipv4Addr.isBroadcast, Ipv4Addr.isDocumentation,
    Bool.not_eq_true', ← Bool.not_eq_true, Bool.and_eq_true, Bool.or_eq_true, decide_eq_true_eq, not_or,
    ge_iff_le, and_assoc, and_true]

theorem missed4_iff : v4.Missed ↔ ¬Outside missed4 v4.toNat ∧ v4 ≠ ⟨0, 0, 0, 0⟩ := by
  simp only [Ipv4Addr.Missed, missed4, outside_cons, outside_nil, and_true, not_and_or, not_not,
    contains4_octets]
  grind

/-- Every block of the registries is among those refused and those missed. -/
theorem globalUnicast4_iff : v4.GlobalUnicast ↔ Outside (refused4 ++ missed4) v4.toNat :=
  ⟨outside_of_covers (by decide), outside_of_covers (by decide)⟩

theorem refused4_of_missed {v4 : Ipv4Addr} (h : ¬Outside missed4 v4.toNat) (hne : v4 ≠ ⟨0, 0, 0, 0⟩) :
    Outside refused4 v4.toNat := by
  refine outside_cons.mpr ⟨fun hzero => hne ((contains4_octets v4 0 0 0 0).2.2.2.mp hzero), ?_⟩
  exact outside_of_apart (by decide) h

theorem classified_v4 : (IpAddr.v4 v4).Classified := by
  show (isPubliclyRoutableV4 v4 = true ↔ v4.GlobalUnicast ∨ v4.Missed) ∧ (v4.Missed → ¬v4.GlobalUnicast)
  rw [missed4_iff, isPubliclyRoutableV4_iff, globalUnicast4_iff, outside_append]
  refine ⟨⟨fun hrefused => ?_, ?_⟩, fun hmissed hglobal => hmissed.1 hglobal.2⟩
  · by_cases hmissed : Outside missed4 v4.toNat
    · exact .inl ⟨hrefused, hmissed⟩
    · refine .inr ⟨hmissed, ?_⟩
      rintro rfl
      exact hrefused _ List.mem_cons_self ((contains4_octets _ 0 0 0 0).2.2.2.mpr rfl)
  · grind [refused4_of_missed]

end V4

/-! ## IPv6 -/

/-- The blocks that `isPubliclyRoutableV6` refuses where no address is embedded. -/
def refused6 : List (Block 128) :=
  [block6 [0, 0, 0, 0, 0, 0, 0, 0] 128, block6 [0, 0, 0, 0, 0, 0, 0, 1] 128, block6 [0xff00] 8,
    block6 [0xfc00] 7, block6 [0xfe80] 10, block6 [0x2001, 0xdb8] 32, block6 [0x100] 64]

/-- The blocks of the transition mechanisms. -/
def carriers : List (Block 128) := [ipv4Mapped, ipv4Compatible, nat64, sixToFour, teredo]

section V6

variable (v6 : Ipv6Addr)

theorem segments_lt : v6.s1.toNat < 65536 ∧ v6.s2.toNat < 65536 ∧ v6.s3.toNat < 65536 ∧ v6.s4.toNat < 65536 ∧
    v6.s5.toNat < 65536 ∧ v6.s6.toNat < 65536 ∧ v6.s7.toNat < 65536 :=
  ⟨v6.s1.toNat_lt, v6.s2.toNat_lt, v6.s3.toNat_lt, v6.s4.toNat_lt, v6.s5.toNat_lt, v6.s6.toNat_lt, v6.s7.toNat_lt⟩

theorem toNat6_div : v6.toNat / 2 ^ 112 = v6.s0.toNat ∧ v6.toNat / 2 ^ 96 = v6.s0.toNat * 65536 + v6.s1.toNat ∧
    v6.toNat / 2 ^ 64 = ((v6.s0.toNat * 65536 + v6.s1.toNat) * 65536 + v6.s2.toNat) * 65536 + v6.s3.toNat ∧
    v6.toNat / 2 ^ 32 = ((((v6.s0.toNat * 65536 + v6.s1.toNat) * 65536 + v6.s2.toNat) * 65536 + v6.s3.toNat) * 65536 +
      v6.s4.toNat) * 65536 + v6.s5.toNat := by
  have hv6 := segments_lt v6
  simp only [Ipv6Addr.toNat]
  omega

theorem contains6_first (s k : Nat) (hk : k ≤ 16) :
    (block6 [s] k).Contains v6.toNat ↔ v6.s0.toNat / 2 ^ (16 - k) = s / 2 ^ (16 - k) := by
  have hpow : 2 ^ (128 - k) = 2 ^ 112 * 2 ^ (16 - k) := by
    rw [← Nat.pow_add]
    congr 1
    omega
  have hbase : (block6 [s] k).base / 2 ^ 112 = s := by
    show (0 * 65536 + s) * 65536 ^ 7 / 2 ^ 112 = s
    omega
  show v6.toNat / 2 ^ (128 - k) = (block6 [s] k).base / 2 ^ (128 - k) ↔ _
  rw [hpow, ← Nat.div_div_eq_div_mul, ← Nat.div_div_eq_div_mul, (toNat6_div v6).1, hbase]

theorem contains6_second (s t : UInt16) :
    (block6 [s.toNat, t.toNat] 32).Contains v6.toNat ↔ v6.s0 = s ∧ v6.s1 = t := by
  have hv6 := segments_lt v6
  have ht := t.toNat_lt
  have hbase : (block6 [s.toNat, t.toNat] 32).base / 2 ^ 96 = s.toNat * 65536 + t.toNat := by
    show ((0 * 65536 + s.toNat) * 65536 + t.toNat) * 65536 ^ 6 / 2 ^ 96 = _
    omega
  show v6.toNat / 2 ^ 96 = (block6 [s.toNat, t.toNat] 32).base / 2 ^ 96 ↔ _
  rw [(toNat6_div v6).2.1, hbase, ← UInt16.toNat_inj, ← UInt16.toNat_inj]
  omega

theorem contains6_discard : (block6 [0x100] 64).Contains v6.toNat ↔
    v6.s0 = 0x100 ∧ v6.s1 = 0 ∧ v6.s2 = 0 ∧ v6.s3 = 0 := by
  have hv6 := segments_lt v6
  show v6.toNat / 2 ^ 64 = (0 * 65536 + 0x100) * 65536 ^ 7 / 2 ^ 64 ↔ _
  rw [(toNat6_div v6).2.2.1]
  simp only [← UInt16.toNat_inj, UInt16.toNat_ofNat]
  omega

/-- A block of which the first six segments are fixed. -/
theorem contains6_sixth (a b c d e f : UInt16) :
    (block6 [a.toNat, b.toNat, c.toNat, d.toNat, e.toNat, f.toNat] 96).Contains v6.toNat ↔
      v6.s0 = a ∧ v6.s1 = b ∧ v6.s2 = c ∧ v6.s3 = d ∧ v6.s4 = e ∧ v6.s5 = f := by
  have hv6 := segments_lt v6
  have hb := b.toNat_lt
  have hc := c.toNat_lt
  have hd := d.toNat_lt
  have he := e.toNat_lt
  have hf := f.toNat_lt
  show v6.toNat / 2 ^ 32 = ((((((0 * 65536 + a.toNat) * 65536 + b.toNat) * 65536 + c.toNat) * 65536 +
    d.toNat) * 65536 + e.toNat) * 65536 + f.toNat) * 65536 ^ 2 / 2 ^ 32 ↔ _
  rw [(toNat6_div v6).2.2.2]
  simp only [← UInt16.toNat_inj]
  omega

theorem contains6_eighth (t : UInt16) : (block6 [0, 0, 0, 0, 0, 0, 0, t.toNat] 128).Contains v6.toNat ↔
    v6 = ⟨0, 0, 0, 0, 0, 0, 0, t⟩ := by
  have hv6 := segments_lt v6
  have ht := t.toNat_lt
  show v6.toNat / 2 ^ 0 = (0 * 65536 + t.toNat) * 65536 ^ 0 / 2 ^ 0 ↔ _
  obtain ⟨s0, s1, s2, s3, s4, s5, s6, s7⟩ := v6
  simp only [Ipv6Addr.toNat, Ipv6Addr.mk.injEq, ← UInt16.toNat_inj, UInt16.toNat_ofNat] at *
  omega

theorem multicast_mask (x : UInt16) :
    x &&& 0xff00 = 0xff00 ↔ x.toNat / 2 ^ (16 - 8) = 0xff00 / 2 ^ (16 - 8) := by
  have hmask : x.toNat &&& 0xff00 = x.toNat / 256 * 256 := and_highMask (w := 8) 8 x.toNat_lt
  simp only [← UInt16.toNat_inj, UInt16.toNat_and, UInt16.reduceToNat, hmask]
  omega

theorem uniqueLocal_mask (x : UInt16) :
    x &&& 0xfe00 = 0xfc00 ↔ x.toNat / 2 ^ (16 - 7) = 0xfc00 / 2 ^ (16 - 7) := by
  have hmask : x.toNat &&& 0xfe00 = x.toNat / 512 * 512 := and_highMask (w := 7) 9 x.toNat_lt
  simp only [← UInt16.toNat_inj, UInt16.toNat_and, UInt16.reduceToNat, hmask]
  omega

theorem linkLocal_mask (x : UInt16) :
    x &&& 0xffc0 = 0xfe80 ↔ x.toNat / 2 ^ (16 - 10) = 0xfe80 / 2 ^ (16 - 10) := by
  have hmask : x.toNat &&& 0xffc0 = x.toNat / 64 * 64 := and_highMask (w := 10) 6 x.toNat_lt
  simp only [← UInt16.toNat_inj, UInt16.toNat_and, UInt16.reduceToNat, hmask]
  omega

theorem mapped_iff : ipv4Mapped.Contains v6.toNat ↔
    v6.s0 = 0 ∧ v6.s1 = 0 ∧ v6.s2 = 0 ∧ v6.s3 = 0 ∧ v6.s4 = 0 ∧ v6.s5 = 0xffff :=
  contains6_sixth v6 0 0 0 0 0 0xffff

theorem compatible_iff : ipv4Compatible.Contains v6.toNat ↔
    v6.s0 = 0 ∧ v6.s1 = 0 ∧ v6.s2 = 0 ∧ v6.s3 = 0 ∧ v6.s4 = 0 ∧ v6.s5 = 0 :=
  contains6_sixth v6 0 0 0 0 0 0

theorem nat64_iff : nat64.Contains v6.toNat ↔
    v6.s0 = 0x64 ∧ v6.s1 = 0xff9b ∧ v6.s2 = 0 ∧ v6.s3 = 0 ∧ v6.s4 = 0 ∧ v6.s5 = 0 :=
  contains6_sixth v6 0x64 0xff9b 0 0 0 0

theorem sixToFour_iff : sixToFour.Contains v6.toNat ↔ v6.s0 = 0x2002 := by
  rw [sixToFour, contains6_first v6 0x2002 16 (by omega), ← UInt16.toNat_inj]
  show v6.s0.toNat / 1 = 0x2002 / 1 ↔ v6.s0.toNat = 0x2002
  omega

theorem teredo_iff : teredo.Contains v6.toNat ↔ v6.s0 = 0x2001 ∧ v6.s1 = 0 :=
  contains6_second v6 0x2001 0

theorem isPubliclyRoutableV6_iff (hembedded : embeddedIpv4 v6 = none) :
    isPubliclyRoutableV6 v6 = true ↔ Outside refused6 v6.toNat := by
  have hunspecified : (block6 [0, 0, 0, 0, 0, 0, 0, 0] 128).Contains v6.toNat ↔ v6 = ⟨0, 0, 0, 0, 0, 0, 0, 0⟩ :=
    contains6_eighth v6 0
  have hloopback : (block6 [0, 0, 0, 0, 0, 0, 0, 1] 128).Contains v6.toNat ↔ v6 = ⟨0, 0, 0, 0, 0, 0, 0, 1⟩ :=
    contains6_eighth v6 1
  have hdocumentation : (block6 [0x2001, 0xdb8] 32).Contains v6.toNat ↔ v6.s0 = 0x2001 ∧ v6.s1 = 0xdb8 :=
    contains6_second v6 0x2001 0xdb8
  simp only [refused6, outside_cons, outside_nil, hunspecified, hloopback, hdocumentation, contains6_discard,
    contains6_first, Nat.reduceLeDiff, ← multicast_mask, ← uniqueLocal_mask, ← linkLocal_mask]
  simp only [isPubliclyRoutableV6, hembedded, Ipv6Addr.isUnspecified, Ipv6Addr.isLoopback, Ipv6Addr.isMulticast,
    Bool.not_eq_true', ← Bool.not_eq_true, Bool.and_eq_true, Bool.or_eq_true, decide_eq_true_eq, not_or,
    and_assoc, and_true]

/-- What the code embeds is carried. -/
theorem carried_of_embedded {v6 : Ipv6Addr} {v4 : Ipv4Addr} (h : embeddedIpv4 v6 = some v4) :
    carriedIpv4 v6 = some v4 := by
  unfold embeddedIpv4 Ipv6Addr.toIpv4Mapped at h
  unfold carriedIpv4
  simp only [mapped_iff, compatible_iff, nat64_iff, sixToFour_iff, teredo_iff]
  grind

/-- Where it embeds nothing, only NAT64 and the first addresses carry. -/
theorem not_carrier_of_not_embedded {v6 : Ipv6Addr} (h : embeddedIpv4 v6 = none) :
    ¬ipv4Mapped.Contains v6.toNat ∧ ¬sixToFour.Contains v6.toNat ∧ ¬teredo.Contains v6.toNat ∧
      (ipv4Compatible.Contains v6.toNat → v6.s6 = 0) := by
  unfold embeddedIpv4 Ipv6Addr.toIpv4Mapped at h
  simp only [mapped_iff, compatible_iff, sixToFour_iff, teredo_iff]
  grind

theorem embedded_classified {v6 : Ipv6Addr} {v4 : Ipv4Addr} (h : embeddedIpv4 v6 = some v4) :
    (IpAddr.v6 v6).Classified := by
  simp only [IpAddr.Classified, IpAddr.Missed, globalUnicast_carried (carried_of_embedded h), isPubliclyRoutable,
    isPubliclyRoutableV6, h]
  exact classified_v4 v4

theorem nat64_classified {v6 : Ipv6Addr} (h : embeddedIpv4 v6 = none) (hnat : nat64.Contains v6.toNat) :
    (IpAddr.v6 v6).Classified := by
  have hrefused : Outside refused6 v6.toNat :=
    outside_of_apart (show apart [nat64] refused6 = true by decide) (by simp [Outside, hnat])
  have hroutable := (isPubliclyRoutableV6_iff v6 h).mpr hrefused
  have hcarried : carriedIpv4 v6 = some (ipv4OfSegments v6.s6 v6.s7) := by simp [carriedIpv4, hnat]
  simp only [IpAddr.Classified, IpAddr.Missed, globalUnicast_carried hcarried, isPubliclyRoutable, h, hnat,
    hroutable, if_true, true_iff]
  exact ⟨Classical.em _, id⟩

/-- No address of `0.0.0.0/16` is global. -/
theorem not_globalUnicast_zero (t : UInt16) : ¬(ipv4OfSegments 0 t).GlobalUnicast := by
  intro h
  refine h (block4 0 0 0 0 8) (by simp [ipv4SpecialPurpose]) ?_
  exact (contains4_octets _ 0 0 0 0).1.mpr rfl

theorem compatible_classified {v6 : Ipv6Addr} (h : embeddedIpv4 v6 = none)
    (hcompatible : ipv4Compatible.Contains v6.toNat) : (IpAddr.v6 v6).Classified := by
  obtain ⟨-, -, -, hzero⟩ := not_carrier_of_not_embedded h
  have hnat : ¬nat64.Contains v6.toNat := by grind [nat64_iff, compatible_iff]
  have hapart : Outside (refused6.drop 2) v6.toNat :=
    outside_of_apart (show apart [ipv4Compatible] (refused6.drop 2) = true by decide)
      (by simp [Outside, hcompatible])
  have hrefused : Outside refused6 v6.toNat ↔
      v6 ≠ ⟨0, 0, 0, 0, 0, 0, 0, 0⟩ ∧ v6 ≠ ⟨0, 0, 0, 0, 0, 0, 0, 1⟩ := by
    rw [show refused6 = block6 [0, 0, 0, 0, 0, 0, 0, (0 : UInt16).toNat] 128 ::
      block6 [0, 0, 0, 0, 0, 0, 0, (1 : UInt16).toNat] 128 :: refused6.drop 2 from rfl, outside_cons, outside_cons,
      contains6_eighth, contains6_eighth]
    exact ⟨fun h => ⟨h.1, h.2.1⟩, fun h => ⟨h.1, h.2, hapart⟩⟩
  have hglobal := not_globalUnicast_zero v6.s7
  have hcarried : carriedIpv4 v6 = some (ipv4OfSegments 0 v6.s7) := by
    simp [carriedIpv4, hcompatible, hzero hcompatible]
  simp only [IpAddr.Classified, IpAddr.Missed, globalUnicast_carried hcarried, isPubliclyRoutable, h, hnat,
    hcompatible, isPubliclyRoutableV6_iff v6 h, hrefused, hglobal, if_true, if_false, not_false_eq_true, false_or,
    implies_true, and_true]

theorem native_classified {v6 : Ipv6Addr} (h : embeddedIpv4 v6 = none) (hnat : ¬nat64.Contains v6.toNat)
    (hcompatible : ¬ipv4Compatible.Contains v6.toNat) : (IpAddr.v6 v6).Classified := by
  obtain ⟨hmapped, hsixToFour, hteredo, -⟩ := not_carrier_of_not_embedded h
  have hcarriers : Outside carriers v6.toNat := by
    simp [Outside, carriers, hmapped, hcompatible, hnat, hsixToFour, hteredo]
  have hglobal : Outside (ipv6Multicast :: ipv6SiteLocal :: ipv6SpecialPurpose) v6.toNat ↔
      Outside (refused6 ++ missedBlocks) v6.toNat := by
    refine ⟨outside_of_covers (by decide), fun hrest => ?_⟩
    exact outside_of_covers (show covers ((refused6 ++ missedBlocks) ++ carriers) _ = true by decide)
      (outside_append.mpr ⟨hrest, hcarriers⟩)
  have hapart : ¬Outside missedBlocks v6.toNat → Outside refused6 v6.toNat := outside_of_apart (by decide)
  have hcarried : carriedIpv4 v6 = none := by
    simp [carriedIpv4, hmapped, hcompatible, hnat, hsixToFour, hteredo]
  simp only [IpAddr.Classified, IpAddr.Missed, globalUnicast_native hcarried, isPubliclyRoutable, h, hnat,
    hcompatible, isPubliclyRoutableV6_iff v6 h, hglobal, outside_append, if_false]
  by_cases hmissed : Outside missedBlocks v6.toNat
  · simp [hmissed]
  · simp [hmissed, hapart hmissed]

end V6

/-! ## The classification -/

theorem classified (ip : IpAddr) : ip.Classified := by
  cases ip with
  | v4 addr => exact classified_v4 addr
  | v6 addr =>
    cases h : embeddedIpv4 addr with
    | some carried => exact embedded_classified h
    | none =>
      by_cases hnat : nat64.Contains addr.toNat
      · exact nat64_classified h hnat
      · by_cases hcompatible : ipv4Compatible.Contains addr.toNat
        · exact compatible_classified h hcompatible
        · exact native_classified h hnat hcompatible

theorem globalUnicast_routable {ip : IpAddr} (h : ip.GlobalUnicast) : isPubliclyRoutable ip = true :=
  (classified ip).1.mpr (.inl h)

theorem missed_iff (ip : IpAddr) : ip.Missed ↔ isPubliclyRoutable ip = true ∧ ¬ip.GlobalUnicast := by
  obtain ⟨hroutable, hdisjoint⟩ := classified ip
  refine ⟨fun h => ⟨hroutable.mpr (.inr h), hdisjoint h⟩, fun ⟨h, hnot⟩ => ?_⟩
  exact (hroutable.mp h).resolve_left hnot

end Mizu
