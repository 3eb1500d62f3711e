import Mizu.Security.Navigation

/-!
# Storage quotas

The bytes charged to each origin are kept in one ledger for the whole process; the policy of a tab
holds the origin it charges, the quota and the rate limit. What the code asks of the operating
system and of the URL library is a `Host`.
-/

namespace Mizu

/-- The outside world, as one step of the window sees it. -/
structure Host where
  /-- `std::fs::canonicalize`. -/
  canonicalize : String → Option String
  /-- `std::fs::read_to_string`. -/
  readToString : String → Option String
  /-- The path that a `file://` document's relative link leads to, unless it leaves the sandbox. -/
  relativePath : (currentUrl target : String) → Option String
  /-- Whether an absolute `file://` target lies in the sandbox of a `file://` document. -/
  inSandbox : (currentUrl target : String) → Bool
  /-- `Path::parent`. -/
  parentDir : String → Option String
  /-- The host of a `mizu://` URL, as the URL library parses it. -/
  uriDomain : String → Option String
  /-- Whether a host is a literal address, and then whether that is a loopback address. -/
  hostLiteral : String → Option Bool
  /-- The name of an origin's encrypted store. -/
  storageIdentity : String → String
  /-- The monotonic clock, in milliseconds. -/
  now : Nat
  /-- The wall clock, in milliseconds. -/
  systemTime : Int64
  maxRedirects : Nat

/-- `ends_with_ignore_ascii_case`. -/
def endsWithIgnoreAsciiCase (haystack suffix : String) : Bool :=
  (toAsciiLowercase suffix).toList.isSuffixOf (toAsciiLowercase haystack).toList

namespace Host

variable (host : Host)

/-- `is_local_host`. -/
def isLocalHost (name : String) : Bool :=
  if eqIgnoreAsciiCase name "localhost" || endsWithIgnoreAsciiCase name ".localhost" then true
  else (host.hostLiteral name).getD false

/-- The host part of a `mizu://` URL, the path of a `file://` URL. -/
def rawDomain (url : String) : String :=
  match stripPrefix "mizu://" url with
  | some rest => String.ofList (rest.toList.takeWhile (!isHostEnd ·))
  | none =>
    match stripPrefix "file://" url with
    | some path =>
      let raw := trimStartMatches '/' path
      "file_" ++ (host.canonicalize raw).getD raw
    | none => "unknown"

/-- `get_current_domain`: the storage identity of a URL's origin. -/
def currentDomain (url : String) : String := host.storageIdentity (host.rawDomain url)

end Host

def storageQuotaBytesRemote : Nat := 512 * 1024

def storageQuotaBytesLocalFile : Nat := 1024 * 1024

def storageQuotaBytesLocalhost : Nat := 10 * 1024 * 1024

def storageRateLimitWritesPerSec : Nat := 10

def usizeMax : Nat := 2 ^ 64 - 1

/-- The bytes charged so far, by origin. -/
abbrev StorageUsageLedger := FxHashMap String Nat

structure CapabilityPolicy where
  originKey : String
  quotaBytes : Nat
  writeCountThisSecond : Nat
  windowStart : Nat
  deriving DecidableEq, Repr

namespace CapabilityPolicy

variable (host : Host)

/-- The quota of the origin of a URL. -/
def quotaFor (chromeUrl : String) : Nat :=
  if startsWith "file://" chromeUrl then storageQuotaBytesLocalFile
  else
    match host.uriDomain chromeUrl with
    | some domain =>
      if host.isLocalHost domain then storageQuotaBytesLocalhost else storageQuotaBytesRemote
    | none => storageQuotaBytesRemote

def new (chromeUrl originKey : String) : CapabilityPolicy where
  originKey
  quotaBytes := quotaFor host chromeUrl
  writeCountThisSecond := 0
  windowStart := host.now

/-- A second after the window began the count starts again. -/
def refreshed (policy : CapabilityPolicy) : CapabilityPolicy :=
  if host.now - policy.windowStart ≥ 1000 then
    { policy with windowStart := host.now, writeCountThisSecond := 0 }
  else policy

variable (policy : CapabilityPolicy)

@[simp] theorem refreshed_originKey : (policy.refreshed host).originKey = policy.originKey := by
  unfold refreshed
  split <;> rfl

@[simp] theorem refreshed_quotaBytes : (policy.refreshed host).quotaBytes = policy.quotaBytes := by
  unfold refreshed
  split <;> rfl

/-- `check_storage_write`, with the total of the policy's origin read and charged in one step. -/
def checkStorageWrite (policy : CapabilityPolicy) (ledger : StorageUsageLedger) (byteCount : Nat) :
    Except MizuError Unit × CapabilityPolicy × StorageUsageLedger :=
  let policy := policy.refreshed host
  let total := (ledger.lookup policy.originKey).getD 0
  let newTotal := min (total + byteCount) usizeMax
  if policy.writeCountThisSecond ≥ storageRateLimitWritesPerSec then
    (.error (.securityViolation ("storage rate limit exceeded: max " ++
      toString storageRateLimitWritesPerSec ++ " writes/s")), policy,
      ledger.insert policy.originKey total)
  else if newTotal > policy.quotaBytes then
    (.error (.securityViolation ("storage quota exceeded: " ++ toString newTotal ++ " / " ++
      toString policy.quotaBytes ++ " bytes")), policy, ledger.insert policy.originKey total)
  else
    (.ok (), { policy with writeCountThisSecond := policy.writeCountThisSecond + 1 },
      ledger.insert policy.originKey newTotal)

/-- A write charges the origin the policy was made for; neither it nor the quota changes. -/
theorem checkStorageWrite_origin (ledger : StorageUsageLedger) (byteCount : Nat) :
    (policy.checkStorageWrite host ledger byteCount).2.1.originKey = policy.originKey ∧
      (policy.checkStorageWrite host ledger byteCount).2.1.quotaBytes = policy.quotaBytes := by
  grind [checkStorageWrite, refreshed_originKey, refreshed_quotaBytes]

end CapabilityPolicy

/-- `capability_policy_for`. -/
def capabilityPolicyFor (host : Host) (chromeUrl : String) : CapabilityPolicy :=
  .new host chromeUrl (host.currentDomain chromeUrl)

end Mizu
