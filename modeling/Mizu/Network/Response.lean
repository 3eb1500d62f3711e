import Mizu.Render.Tab

/-!
# The answer of a server

`parseHttpResponse` turns the response to a request into nothing, a redirect or an error, and
`navigateCompletion` says how the worker's task for a navigation ends with it.
`parseHttpResponse_redirect` is what a redirect can be: a URL with a scheme of the network.
-/

namespace Mizu

section Lossy

/-- How many bytes follow the first byte of a character of several bytes, and the bounds of the
second one. -/
def utf8Lead (b : Nat) : Option (Nat × Nat × Nat) :=
  if 0xc2 ≤ b ∧ b ≤ 0xdf then some (1, 0x80, 0xbf)
  else if b = 0xe0 then some (2, 0xa0, 0xbf)
  else if b = 0xed then some (2, 0x80, 0x9f)
  else if 0xe1 ≤ b ∧ b ≤ 0xef then some (2, 0x80, 0xbf)
  else if b = 0xf0 then some (3, 0x90, 0xbf)
  else if 0xf1 ≤ b ∧ b ≤ 0xf3 then some (3, 0x80, 0xbf)
  else if b = 0xf4 then some (3, 0x80, 0x8f)
  else none

/-- Reads the bytes that follow; `none` at the first that does not belong to the character. -/
def utf8Tails : Nat → Nat → Nat → Nat → List UInt8 → Option Nat × List UInt8
  | 0, _, _, value, bytes => (some value, bytes)
  | _ + 1, _, _, _, [] => (none, [])
  | n + 1, low, high, value, b :: bytes =>
    if low ≤ b.toNat ∧ b.toNat ≤ high then
      utf8Tails n 0x80 0xbf (value * 64 + b.toNat % 64) bytes
    else (none, b :: bytes)

/-- The first character, or the replacement character for bytes that start none. -/
def utf8Char (b : UInt8) (bytes : List UInt8) : Char × List UInt8 :=
  if b.toNat < 0x80 then (Char.ofNat b.toNat, bytes)
  else
    match utf8Lead b.toNat with
    | none => ('\uFFFD', bytes)
    | some (tails, low, high) =>
      match utf8Tails tails low high (b.toNat % 2 ^ (6 - tails)) bytes with
      | (some value, bytes) => (Char.ofNat value, bytes)
      | (none, bytes) => ('\uFFFD', bytes)

/-- Every step takes a byte, so as many steps as there are bytes are enough. -/
def utf8Chars : Nat → List UInt8 → List Char
  | 0, _ => []
  | _ + 1, [] => []
  | n + 1, b :: bytes => (utf8Char b bytes).1 :: utf8Chars n (utf8Char b bytes).2

/-- `String::from_utf8_lossy`. -/
def fromUtf8Lossy (bytes : List UInt8) : String := String.ofList (utf8Chars bytes.length bytes)

end Lossy

example : fromUtf8Lossy [0x61, 0xc3, 0xa9, 0xe2, 0x82, 0x62, 0xff] = "aé\uFFFDb\uFFFD" := by
  decide

/-- `str::trim`. -/
def trim (s : String) : String := String.ofList (trimEnd (s.toList.dropWhile isWhitespace))

/-- What a server answers, as far as it is read. -/
structure HttpResponse where
  status : Nat
  /-- The status as it is displayed. -/
  statusText : String
  location : Option (List UInt8)
  mizuAuthSet : Option (List UInt8)
  body : List UInt8

/-- `HeaderValue::to_str`: `none` unless every byte is visible ASCII or a tab. -/
def headerToStr (value : List UInt8) : Option String :=
  if value.all fun b => (32 ≤ b.toNat && b.toNat < 127) || b.toNat = 9 then
    some (String.ofList (value.map fun b => Char.ofNat b.toNat))
  else none

namespace HttpResponse

def isSuccess (r : HttpResponse) : Bool := 200 ≤ r.status && r.status < 300

def isRedirection (r : HttpResponse) : Bool := 300 ≤ r.status && r.status < 400

/-- The destination as the server spells it. -/
def redirectPath (r : HttpResponse) : String :=
  match r.location with
  | some value => trim ((headerToStr value).getD "")
  | none => trim (fromUtf8Lossy r.body)

end HttpResponse

/-- A destination without a scheme of the network is a path on the host that answered. -/
def redirectUrl (domain redirectPath : String) : String :=
  if startsWith "mizu://" redirectPath || startsWith "http://" redirectPath ||
      startsWith "https://" redirectPath then redirectPath
  else
    let path := if startsWith "/" redirectPath then redirectPath else "/" ++ redirectPath
    "mizu://" ++ domain ++ path

/-- `parse_http_response`; `processMizuAuthSet` stores the token that the header carries. -/
def parseHttpResponse (processMizuAuthSet : String → String → Except MizuError Unit)
    (response : HttpResponse) (domain : String) : Except MizuError (Option String) :=
  if response.isSuccess then
    match response.mizuAuthSet with
    | none => .ok none
    | some value =>
      match headerToStr value with
      | none => .error (.network "Mizu-Auth-Set header is not valid ASCII")
      | some text => (processMizuAuthSet text domain).map fun _ => none
  else if response.isRedirection then
    let redirectPath := response.redirectPath
    if redirectPath.isEmpty then .error (.network "Empty redirect destination")
    else .ok (some (redirectUrl domain redirectPath))
  else
    let body := trim (fromUtf8Lossy response.body)
    .error (.network (if body.isEmpty then "HTTP status error: " ++ response.statusText else body))

/-- What the task for a navigation to `url` ends with; `handle_navigate` reads the domain off the URL
again. -/
def navigateCompletion (host : Host)
    (processMizuAuthSet : String → String → Except MizuError Unit) (url : String) :
    Except MizuError HttpResponse → Completion
  | .error e => .failed e
  | .ok response =>
    match parseHttpResponse processMizuAuthSet response ((host.uriDomain url).getD "") with
    | .error e => .failed e
    | .ok (some newUrl) => .redirect newUrl
    | .ok none => .source (fromUtf8Lossy response.body)

theorem startsWith_append (p s t : String) (h : startsWith p s) : startsWith p (s ++ t) := by
  grind [startsWith, String.toList_append]

theorem startsWith_self (p s : String) : startsWith p (p ++ s) := by
  simp [startsWith]

theorem redirectUrl_scheme (domain redirectPath : String) :
    startsWith "mizu://" (redirectUrl domain redirectPath) ∨
      startsWith "http://" (redirectUrl domain redirectPath) ∨
      startsWith "https://" (redirectUrl domain redirectPath) := by
  unfold redirectUrl
  split
  · rename_i h
    simpa only [Bool.or_eq_true, or_assoc] using h
  · exact .inl (startsWith_append _ _ _ (startsWith_self _ _))

theorem parseHttpResponse_redirect
    {processMizuAuthSet : String → String → Except MizuError Unit} {response : HttpResponse}
    {domain newUrl : String}
    (h : parseHttpResponse processMizuAuthSet response domain = .ok (some newUrl)) :
    newUrl = redirectUrl domain response.redirectPath := by
  unfold parseHttpResponse at h
  split at h
  · split at h
    · cases h
    split at h
    · cases h
    · rename_i text _
      cases hauth : processMizuAuthSet text domain <;> simp [hauth, Except.map] at h
  split at h
  · grind
  · cases h

end Mizu
