import Mizu.Security.MizuUri

/-!
# Tokens in the vault

A server grants a bearer token in a `Mizu-Auth-Set` header; `ceilingEntry` is the entry that is stored for
it, and `NetEnv.checkScope` what a request has to pass to carry it. `ceilingEntry_ok` says what an entry
takes from its header, `permitted_of_checkScope` which methods pass.
-/

namespace Mizu

/-- `split_whitespace`. -/
def splitWhitespace (s : String) : List String :=
  ((s.toList.splitOnP isWhitespace).filter (!·.isEmpty)).map String.ofList

/-- `str::parse::<u64>`. -/
def parseU64 (s : String) : Option Nat :=
  let cs :=
    match s.toList with
    | '+' :: cs => cs
    | cs => cs
  let (digits, rest) := spanDigits 10 cs
  let value := digits.foldl (fun n d => n * 10 + d) 0
  if digits.isEmpty || !rest.isEmpty || 2 ^ 64 ≤ value then none else some value

/-- The expiry is in seconds since the epoch. -/
structure VaultEntry where
  token : String
  allowedMethods : List String
  exp : Nat
  exp_le : exp ≤ u64Max
  deriving DecidableEq

def permittedHttpMethods : List String := ["GET", "POST", "PUT", "PATCH", "DELETE", "HEAD"]

structure MizuAuthSetHeader where
  token : String
  scope : List String
  exp : Option Nat
  deriving DecidableEq, Repr

/-- One field after the token; unknown ones are ignored. -/
def MizuAuthSetHeader.readPart (auth : MizuAuthSetHeader) (part : String) : MizuAuthSetHeader :=
  match stripPrefix "SCOPE=" part with
  | some s => { auth with scope := (s.toList.splitOn ',').map fun m => trim (String.ofList m) }
  | none =>
    match stripPrefix "EXP=" part with
    | some e => { auth with exp := parseU64 e }
    | none => auth

/-- `parse_mizu_auth_set_header`. -/
def parseMizuAuthSetHeader (value : String) : Option MizuAuthSetHeader :=
  match splitWhitespace value with
  | [] => none
  | token :: parts => if token.isEmpty then none else some (parts.foldl .readPart ⟨token, [], none⟩)

example : parseMizuAuthSetHeader "tok SCOPE=GET,post X=1 EXP=12" =
    some ⟨"tok", ["GET", "post"], some 12⟩ := by
  decide

/-- A request as it is handed over; `authorization` is the header that carries a token. -/
structure H3Request where
  method : String
  uri : String
  host : String
  authorization : Option String
  contentType : Option String
  headers : List (String × String)
  deriving DecidableEq, Repr

/-- What the network worker takes from its libraries, its configuration and Unicode. -/
structure NetEnv where
  urlParse : String → Except String ParsedUrl
  table : CaseTable
  /-- SHA-256 in hexadecimal. -/
  digest : String → String
  /-- `str::to_uppercase`. -/
  toUppercase : String → String
  /-- Why the HTTP library refuses a request, if it does. -/
  rejectRequest : H3Request → Option String
  maxTokenTtlSecs : Nat
  maxRedirects : Nat
  /-- The limit of one exchange, as it is displayed. -/
  requestTimeout : String

/-- The user name of a domain's entry. -/
def NetEnv.identity (env : NetEnv) (domain : String) : String :=
  ValidatedDomain.fromRaw env.table env.digest domain

/-- The entry for a header with an expiry, at the time `now`: the expiry is capped and the scope cut down to
permitted methods. -/
def ceilingEntry (maxTokenTtlSecs now : Nat) (auth : MizuAuthSetHeader) (rawExp : Nat) :
    Except MizuError VaultEntry :=
  let exp := min rawExp (saturatingAdd now maxTokenTtlSecs)
  have exp_le : exp ≤ u64Max := (Nat.min_le_right _ _).trans (Nat.min_le_right _ _)
  if exp ≤ now then
    .error (.securityViolation "Mizu-Auth-Set rejected: token is already expired at import time")
  else
    let ceilingMethods := auth.scope.filter fun m => permittedHttpMethods.any (eqIgnoreAsciiCase · m)
    if ceilingMethods.isEmpty then
      .error (.securityViolation "Mizu-Auth-Set rejected: no permitted methods remain after scope ceiling")
    else .ok ⟨auth.token, ceilingMethods, exp, exp_le⟩

/-- `VaultEntry::check_scope`. -/
def NetEnv.checkScope (env : NetEnv) (entry : VaultEntry) (method : String) : Except MizuError Unit :=
  let methodUpper := env.toUppercase method
  if entry.allowedMethods.any (env.toUppercase · = methodUpper) then .ok ()
  else .error (.securityViolation ("MethodScopeViolation: " ++ methodUpper ++
    " is not allowed by the vault token"))

theorem ceilingEntry_ok {maxTokenTtlSecs now rawExp : Nat} {auth : MizuAuthSetHeader} {entry : VaultEntry}
    (h : ceilingEntry maxTokenTtlSecs now auth rawExp = .ok entry) :
    entry.token = auth.token ∧ entry.exp ≤ rawExp ∧ entry.exp ≤ now + maxTokenTtlSecs ∧
      ∀ m ∈ entry.allowedMethods, m ∈ auth.scope ∧ ∃ p ∈ permittedHttpMethods, eqIgnoreAsciiCase p m = true := by
  unfold ceilingEntry at h
  dsimp only at h
  split at h
  · cases h
  split at h
  · cases h
  obtain rfl := Except.ok.inj h
  refine ⟨rfl, Nat.min_le_left _ _, ?_, fun m hm => ?_⟩
  · exact (Nat.min_le_right _ _).trans (Nat.min_le_left _ _)
  · grind

/-- On texts in ASCII, only letters change. -/
def AsciiUppercase (toUppercase : String → String) : Prop :=
  ∀ s : String, (∀ c ∈ s.toList, c.toNat < 128) → toUppercase s = String.ofList (s.toList.map Char.toUpper)

theorem ascii_of_eqIgnoreAsciiCase {p m : String} (hp : ∀ c ∈ p.toList, c.toNat < 128)
    (h : eqIgnoreAsciiCase p m = true) : ∀ c ∈ m.toList, c.toNat < 128 := by
  intro c hc
  simp only [eqIgnoreAsciiCase, toAsciiLowercase, decide_eq_true_eq, String.ofList_inj] at h
  by_contra hlarge
  have hsame : c.toLower = c := toLower_of_le (by omega)
  have hmem : c ∈ p.toList.map Char.toLower := by grind
  obtain ⟨d, hd, heq⟩ := List.mem_map.mp hmem
  have hsmall : ∀ n < 128, (Char.ofNat n).toLower.toNat < 128 := by decide
  have hd128 := hsmall d.toNat (hp d hd)
  rw [Char.ofNat_toNat, heq] at hd128
  omega

theorem toLower_toUpper {c : Char} (h : c.toNat < 128) : c.toUpper.toLower = c.toLower := by
  have hall : ∀ n < 128, (Char.ofNat n).toUpper.toLower = (Char.ofNat n).toLower := by decide
  have hc := hall c.toNat h
  rwa [Char.ofNat_toNat] at hc

/-- A request carries a token only with a method that is permitted and that the server declared. -/
theorem permitted_of_checkScope {env : NetEnv} (hupper : AsciiUppercase env.toUppercase) {entry : VaultEntry}
    {method : NetworkMethod} (hentry : ∀ m ∈ entry.allowedMethods,
      ∃ p ∈ permittedHttpMethods, eqIgnoreAsciiCase p m = true)
    (h : env.checkScope entry method.asStr = .ok ()) :
    method.asStr ∈ permittedHttpMethods ∧
      ∃ m ∈ entry.allowedMethods, eqIgnoreAsciiCase m method.asStr = true := by
  have hmethod : env.toUppercase method.asStr = method.asStr := by
    rw [hupper _ (by cases method <;> simp [NetworkMethod.asStr])]
    cases method <;> decide
  unfold NetEnv.checkScope at h
  dsimp only at h
  split at h
  · rename_i hany
    obtain ⟨m, hm, heq⟩ := List.any_eq_true.mp hany
    obtain ⟨p, hp, hcase⟩ := hentry m hm
    have hascii : ∀ c ∈ m.toList, c.toNat < 128 := ascii_of_eqIgnoreAsciiCase
      ((by simp [permittedHttpMethods] : ∀ p ∈ permittedHttpMethods, ∀ c ∈ p.toList, c.toNat < 128) p hp) hcase
    rw [decide_eq_true_eq, hmethod, hupper m hascii] at heq
    have hlower : toAsciiLowercase m = toAsciiLowercase method.asStr := by
      grind [toAsciiLowercase, String.toList_ofList, List.map_congr_left, toLower_toUpper]
    refine ⟨?_, m, hm, by simpa [eqIgnoreAsciiCase] using hlower⟩
    have hpermitted : ∀ p ∈ permittedHttpMethods, toAsciiLowercase p = toAsciiLowercase method.asStr →
        method.asStr ∈ permittedHttpMethods := by
      cases method <;> decide
    simp only [eqIgnoreAsciiCase, decide_eq_true_eq] at hcase
    exact hpermitted p hp (hcase.trans hlower)
  · cases h

/-- An environment whose URLs need no normalisation, with the digest that tells all inputs apart. -/
def plainNetEnv : NetEnv where
  urlParse := plainUrlParse
  table := latinTable
  digest := id
  toUppercase s := String.ofList (s.toList.map Char.toUpper)
  rejectRequest _ := none
  maxTokenTtlSecs := 86400
  maxRedirects := 10
  requestTimeout := "30s"

end Mizu
