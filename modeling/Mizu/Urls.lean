import Mizu.Logic.Helpers

/-!
# Endpoint aliases

The table of a document's `urls` block and the URL of a call to one of its aliases. The session and
the broker both compute it with `resolveEndpointUrl`, which checks the path parameter again.
-/

namespace Mizu

inductive EndpointKind where
  | api
  | media
  deriving DecidableEq, Repr

structure UrlEndpoint where
  kind : EndpointKind
  /-- A path that starts with `/` for an api endpoint, an absolute URL for a media endpoint. -/
  rawTarget : String
  deriving DecidableEq, Repr

abbrev UrlRegistry := FxHashMap Symbol UrlEndpoint

/-- `str::trim_start_matches` with a character. -/
def trimStartMatches (c : Char) (s : String) : String := String.ofList (s.toList.dropWhile (· = c))

/-- `str::trim_end_matches` with a character. -/
def trimEndMatches (c : Char) (s : String) : String :=
  String.ofList (s.toList.reverse.dropWhile (· = c)).reverse

def hexDigit (n : Nat) : Char := "0123456789ABCDEF".toList.getD n '0'

/-- Unreserved bytes stay, the others are percent-encoded. -/
def percentEncodeByte (b : UInt8) : List Char :=
  let c := Char.ofNat b.toNat
  if b < 0x80 ∧ (c.isAlphanum ∨ c = '-' ∨ c = '_' ∨ c = '.' ∨ c = '~') then [c]
  else ['%', hexDigit (b.toNat / 16), hexDigit (b.toNat % 16)]

def percentEncode (s : String) : String :=
  String.ofList (s.toByteArray.data.toList.flatMap percentEncodeByte)

/-- What stands before and after the first placeholder in braces, if there is one. -/
def splitPlaceholder (s : String) : Option (String × String) :=
  match s.toList.dropWhile (· ≠ '\x7b') with
  | [] => none
  | rest =>
    match rest.dropWhile (· ≠ '\x7d') with
    | [] => none
    | _ :: after => some (String.ofList (s.toList.takeWhile (· ≠ '\x7b')), String.ofList after)

def UrlEndpoint.baseUrl (ep : UrlEndpoint) (documentDomain : String) : String :=
  match ep.kind with
  | .api => "mizu://" ++ documentDomain ++ "/" ++ trimStartMatches '/' ep.rawTarget
  | .media => ep.rawTarget

/-- `resolve_endpoint_url`: the first placeholder is replaced by the encoded parameter; without one
the parameter is appended. -/
def resolveEndpointUrl (documentDomain : String) (ep : UrlEndpoint) (pathParam : Option String) :
    Except MizuError String :=
  let baseUrl := ep.baseUrl documentDomain
  match pathParam with
  | none => .ok baseUrl
  | some pp =>
    if !pathParamOk pp then .error (.executionError "path_param must be a single path segment")
    else
      match splitPlaceholder baseUrl with
      | some (before, after) => .ok (before ++ percentEncode pp ++ after)
      | none => .ok (trimEndMatches '/' baseUrl ++ "/" ++ percentEncode pp)

/-- A URL is resolved exactly if the path parameter, if any, passes its gate. -/
theorem resolveEndpointUrl_ok_iff {documentDomain : String} {ep : UrlEndpoint}
    {pathParam : Option String} :
    (∃ url, resolveEndpointUrl documentDomain ep pathParam = .ok url) ↔
      ∀ pp, pathParam = some pp → pathParamOk pp = true := by
  cases pathParam with
  | none => simp [resolveEndpointUrl]
  | some pp =>
    simp only [resolveEndpointUrl, Option.some.injEq, forall_eq']
    cases hpp : pathParamOk pp with
    | false => simp
    | true =>
      simp only [Bool.not_true, Bool.false_eq_true, if_false, iff_true]
      split
      · exact ⟨_, rfl⟩
      · exact ⟨_, rfl⟩

example : resolveEndpointUrl "a.mizu" ⟨.api, "/u/\x7bid\x7d/x"⟩ (some "7 8") =
    .ok "mizu://a.mizu/u/7%208/x" := by decide

end Mizu
