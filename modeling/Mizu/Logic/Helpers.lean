import Mizu.Types.Eval.Builtins

/-!
# Gates of the parser

`pathParamOk` is the gate on path parameters (G2), which the parser's runtime, the session and the
broker share; `validateHeaderName` and `NetworkMethod.hasBody` are checks that only the parser makes.
-/

namespace Mizu

/-- An ASCII control character. -/
def isCtl (c : Char) : Bool := c.toNat < 0x20 || c.toNat = 0x7F

/-- `path_param_ok`: a single path segment. -/
def pathParamOk (s : String) : Bool :=
  !(s.toList.any fun c => c = '/' || c = '\\' || isCtl c) && !PureBuiltin.containsStr s ".."

/-- `RESERVED_HEADER_NAMES_EXACT`. -/
def reservedHeaderNamesExact : List String :=
  ["host", "content-length", "content-type", "authorization", "connection", "transfer-encoding",
    "upgrade", "te", "trailer"]

def reservedHeaderPrefixes : List String := ["proxy-", "sec-", "mizu-"]

/-- `str::to_ascii_lowercase`. -/
def toAsciiLowercase (s : String) : String := String.ofList (s.toList.map Char.toLower)

/-- Whether a header name belongs to the runtime, in any case. -/
def reservedHeader (name : String) : Bool :=
  let lower := toAsciiLowercase name
  reservedHeaderNamesExact.contains lower ||
    reservedHeaderPrefixes.any fun p => p.toList.isPrefixOf lower.toList

/-- `validate_header_name`. `fromStr` is `http::HeaderName::from_str`, with the text of its error. -/
def validateHeaderName (fromStr : String → Except String Unit) (name methodName : String) :
    Except MizuError Unit :=
  match fromStr name with
  | .error e =>
    .error (.parseError ("network call `" ++ methodName ++ "`: invalid header name `" ++ name ++
      "`: " ++ e))
  | .ok () =>
    if reservedHeader name then
      .error (.parseError ("network call `" ++ methodName ++ "`: header `" ++ name ++
        "` is reserved and cannot be set by a document (see the Fetch spec's forbidden-header-name " ++
        "list; `Content-Type` is owned by the `as <format>` clause, `Authorization` by the vault " ++
        "mechanism, and the `Mizu-` prefix is reserved for the runtime's own signaling headers)"))
    else .ok ()

theorem not_reserved_of_valid {fromStr : String → Except String Unit} {name methodName : String}
    (h : validateHeaderName fromStr name methodName = .ok ()) : reservedHeader name = false := by
  unfold validateHeaderName at h
  split at h
  · cases h
  · split at h
    · cases h
    · rename_i hres
      exact eq_false_of_ne_true hres

/-- Which verbs carry a request body. -/
def NetworkMethod.hasBody : NetworkMethod → Bool
  | post | put | query => true
  | get | delete => false

example : reservedHeader "Authorization" = true := by decide

end Mizu
