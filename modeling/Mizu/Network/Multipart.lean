import Mizu.Lib.FormData
import Mizu.Lib.UrlPath
import Mizu.Types.Json

/-!
# Multipart payloads

The body of an `as multipart` call: one part for each field of the record, behind a boundary that is drawn
for the call. `encodeMultipart_faithful_iff`: a reader of form data gets the fields back exactly if there is
no backslash in a field's name or in the name of a file.
-/

namespace Mizu

open Exec List

/-! ## The budget -/

def maxRequestBodyBytes : Nat := 32 * 1024 * 1024

def checkRequestBodyBudget (currentLen incomingLen : Nat) : Except MizuError Unit :=
  if saturatingAdd currentLen incomingLen > maxRequestBodyBytes then
    .error (.securityViolation
      ("request body exceeds the " ++ toString maxRequestBodyBytes ++ "-byte limit; upload aborted"))
  else .ok ()

/-- The body so far, and the bytes it was charged. -/
structure RequestBody where
  body : List UInt8
  total : Nat

/-- `push_checked`: the bytes are charged before they are appended. -/
def RequestBody.pushChecked (s : RequestBody) (bytes : List UInt8) : Except MizuError RequestBody := do
  checkRequestBodyBudget s.total bytes.length
  return ⟨s.body ++ bytes, s.total + bytes.length⟩

/-! ## Names and types -/

/-- `generate_boundary`, of the random bytes. -/
def generateBoundary (raw : List UInt8) : String :=
  "mizu" ++ String.ofList (raw.flatMap fun b =>
    ["0123456789abcdef".toList.getD (b.toNat / 16) '0', "0123456789abcdef".toList.getD (b.toNat % 16) '0'])

/-- Control characters and quotes are refused; nothing else is changed. -/
def sanitizeDispositionToken (s what : String) : Except MizuError String :=
  if s.toList.any Value.isControl then
    .error (.executionError ("multipart " ++ what ++ " `" ++ s ++
      "` contains a control character and cannot be used in a Content-Disposition header"))
  else if s.toList.contains '"' then
    .error (.executionError ("multipart " ++ what ++ " `" ++ s ++
      "` contains an unescaped `\"` and cannot be used in a Content-Disposition header"))
  else .ok s

/-- `MIME_TABLE`. -/
def mimeTable : List (String × String) :=
  [("txt", "text/plain"), ("csv", "text/csv"), ("html", "text/html"), ("htm", "text/html"),
    ("css", "text/css"), ("json", "application/json"), ("xml", "application/xml"),
    ("pdf", "application/pdf"), ("zip", "application/zip"), ("gz", "application/gzip"),
    ("tar", "application/x-tar"), ("7z", "application/x-7z-compressed"), ("rar", "application/vnd.rar"),
    ("doc", "application/msword"),
    ("docx", "application/vnd.openxmlformats-officedocument.wordprocessingml.document"),
    ("xls", "application/vnd.ms-excel"),
    ("xlsx", "application/vnd.openxmlformats-officedocument.spreadsheetml.sheet"),
    ("ppt", "application/vnd.ms-powerpoint"),
    ("pptx", "application/vnd.openxmlformats-officedocument.presentationml.presentation"),
    ("png", "image/png"), ("jpg", "image/jpeg"), ("jpeg", "image/jpeg"), ("gif", "image/gif"),
    ("webp", "image/webp"), ("bmp", "image/bmp"), ("svg", "image/svg+xml"), ("ico", "image/x-icon"),
    ("mp3", "audio/mpeg"), ("wav", "audio/wav"), ("ogg", "audio/ogg"), ("mp4", "video/mp4"),
    ("webm", "video/webm"), ("mov", "video/quicktime"), ("avi", "video/x-msvideo")]

def mimeFallback : String := "application/octet-stream"

/-- `Path::extension`: what follows the last dot of the last component, unless that is the first
character or the component is `..`. -/
def pathExtension (path : String) : Option String :=
  match ((UrlPath.segmentsFrom path.toList).filter fun part => part ≠ [] && part ≠ UrlPath.dot).getLast? with
  | none => none
  | some name =>
    if name = UrlPath.dotDot then none
    else
      match name.reverse.dropWhile (· ≠ '.') with
      | [] | [_] => none
      | _ => some (String.ofList (name.reverse.takeWhile (· ≠ '.')).reverse)

/-- The type of a file by its extension, in any case, never by its contents. -/
def mimeForPath (path : String) : String :=
  match pathExtension path with
  | none => mimeFallback
  | some ext => ((mimeTable.find? (·.1 = toAsciiLowercase ext)).map (·.2)).getD mimeFallback

/-! ## Encoding -/

/-- The files a payload may name: what opening a path gives, and then each read, of which an empty one is
the end. -/
abbrev Files := String → Except MizuError (List (Except MizuError (List UInt8)))

/-- The loop of `read_file_bounded_into`. -/
def readChunks : List (Except MizuError (List UInt8)) → RequestBody → Except MizuError RequestBody
  | [], s => .ok s
  | .error e :: _, _ => .error e
  | .ok chunk :: rest, s =>
    if chunk = [] then .ok s
    else do
      let s ← s.pushChecked chunk
      readChunks rest s

def readFileBoundedInto (files : Files) (path : String) (s : RequestBody) : Except MizuError RequestBody := do
  let chunks ← files path
  readChunks chunks s

section Encode

-- `toVec` is serde_json's.
variable (toVec : JsonValue → List UInt8) (files : Files) (boundary : String)

def partHeader (name contentType : String) : String :=
  "Content-Disposition: form-data; name=\"" ++ name ++ "\"\r\nContent-Type: " ++ contentType ++ "\r\n\r\n"

def filePartHeader (name filename mime : String) : String :=
  "Content-Disposition: form-data; name=\"" ++ name ++ "\"; filename=\"" ++ filename ++
    "\"\r\nContent-Type: " ++ mime ++ "\r\n\r\n"

/-- One round of the loop over the fields. -/
def encodeField (field : RecordField Value) (s : RequestBody) : Except MizuError RequestBody := do
  let name ← sanitizeDispositionToken field.key "field name"
  let s ← s.pushChecked (bytesOf ("--" ++ boundary ++ "\r\n"))
  match field.value with
  | .list _ | .record _ =>
    let json ← field.value.toJson
    let s ← s.pushChecked (bytesOf (partHeader name "application/json"))
    let s ← s.pushChecked (toVec json)
    s.pushChecked (bytesOf "\r\n")
  | .fileHandle _ handle =>
    let filename ← sanitizeDispositionToken handle.filename "filename"
    let s ← s.pushChecked (bytesOf (filePartHeader name filename (mimeForPath handle.path)))
    let s ← readFileBoundedInto files handle.path s
    s.pushChecked (bytesOf "\r\n")
  | .bool _ | .int _ | .decimal _ | .string _ | .null =>
    let text := match field.value with
      | .null => ""
      | other => other.display
    let s ← s.pushChecked (bytesOf (partHeader name "text/plain; charset=utf-8"))
    let s ← s.pushChecked (bytesOf text)
    s.pushChecked (bytesOf "\r\n")

def encodeFields : List (RecordField Value) → RequestBody → Except MizuError RequestBody
  | [], s => .ok s
  | field :: fields, s => do
    let s ← encodeField toVec files boundary field s
    encodeFields fields s

/-- All parts and the closing delimiter, with what was charged. -/
def encodeParts (fields : List (RecordField Value)) : Except MizuError RequestBody := do
  let s ← encodeFields toVec files boundary fields ⟨[], 0⟩
  s.pushChecked (bytesOf ("--" ++ boundary ++ "--\r\n"))

def encodeMultipart (value : Value) : Except MizuError (List UInt8) :=
  match value with
  | .record fields => do
    let s ← encodeParts toVec files boundary fields
    return s.body
  | _ => .error (.executionError "`as multipart` payload must be a record")

end Encode

/-! ## What a reader should get -/

/-- The part of a field. -/
structure FormPart where
  name : String
  fileName : Option String
  contentType : String
  content : List UInt8

/-- The bytes of a file that is read without a failure. -/
def fileContents : List (Except MizuError (List UInt8)) → Option (List UInt8)
  | [] => some []
  | .error _ :: _ => none
  | .ok chunk :: rest => if chunk = [] then some [] else (fileContents rest).map (chunk ++ ·)

/-- The part of a field: a text, a JSON text or a file. -/
def partOf (toVec : JsonValue → List UInt8) (files : Files) (field : RecordField Value) : Option FormPart :=
  match field.value with
  | .null => some ⟨field.key, none, "text/plain; charset=utf-8", []⟩
  | .list _ | .record _ =>
    field.value.toJson.toOption.map fun json => ⟨field.key, none, "application/json", toVec json⟩
  | .fileHandle _ handle =>
    ((files handle.path).toOption.bind fileContents).map fun content =>
      ⟨field.key, some handle.filename, mimeForPath handle.path, content⟩
  | .bool _ | .int _ | .decimal _ | .string _ =>
    some ⟨field.key, none, "text/plain; charset=utf-8", bytesOf field.value.display⟩

/-- What a reader of form data makes of a part. -/
def FormPart.read (part : FormPart) : FormData.Part :=
  ⟨bytesOf part.name, part.fileName.map bytesOf, part.content⟩

/-- A body is faithful to a record if it is read as one part for each field, in order, with the field's name,
file name and bytes; its length is what was charged, within the limit; and accepted names stay distinct. -/
structure Faithful (toVec : JsonValue → List UInt8) (files : Files) (boundary : String)
    (fields : List (RecordField Value)) (body : List UInt8) : Prop where
  decoded : ∃ parts, fields.mapM (partOf toVec files) = some parts ∧
    FormData.parse (bytesOf boundary) body = some (parts.map FormPart.read)
  accounted : ∃ s, encodeParts toVec files boundary fields = .ok s ∧ s.body = body ∧
    s.total = body.length ∧ body.length ≤ maxRequestBodyBytes
  distinct : ∀ what s s' token, sanitizeDispositionToken s what = .ok token →
    sanitizeDispositionToken s' what = .ok token → s = s'

/-- Neither the name of a field nor that of its file has a backslash. -/
def NoBackslash (field : RecordField Value) : Prop :=
  '\\' ∉ field.key.toList ∧ ∀ arc handle, field.value = .fileHandle arc handle → '\\' ∉ handle.filename.toList

/-! ## Text and bytes -/

section Bytes

theorem bytesOf_append (s t : String) : bytesOf (s ++ t) = bytesOf s ++ bytesOf t := by
  rw [bytesOf, String.toByteArray_append, ByteArray.data_append, Array.toList_append]
  rfl

theorem bytesOf_ofList (cs : List Char) : bytesOf (String.ofList cs) = cs.flatMap String.utf8EncodeChar := by
  induction cs with
  | nil => rfl
  | cons c cs ih =>
    rw [flatMap_cons, ← ih, bytesOf, String.toByteArray_ofList, utf8Encode_cons,
      utf8Encode_singleton, ByteArray.data_append, Array.toList_append, bytesOf,
      String.toByteArray_ofList]
    simp

/-- An ASCII byte stands for its character only. -/
theorem mem_utf8EncodeChar_iff (c : Char) {n : Nat} (hn : n < 128) :
    UInt8.ofNat n ∈ String.utf8EncodeChar c ↔ c = Char.ofNat n := by
  have hc : c = Char.ofNat n ↔ c.val.toNat = n := by
    constructor
    · rintro rfl
      have hvalid : n.isValidChar := .inl (by omega)
      rw [Char.ofNat, dif_pos hvalid]
      rfl
    · rintro rfl
      exact (Char.ofNat_toNat c).symm
  have hbyte : ∀ m, m < 256 → (UInt8.ofNat n = UInt8.ofNat m ↔ n = m) := by
    grind [UInt8.toNat_ofNat']
  rw [hc, String.utf8EncodeChar]
  split
  · rw [mem_singleton, hbyte _ (by omega)]
    exact eq_comm
  split
  · grind
  split
  · grind
  · grind

/-- The bytes of a text below 128 are its ASCII characters. -/
theorem mem_bytesOf_iff (s : String) {n : Nat} (hn : n < 128) :
    UInt8.ofNat n ∈ bytesOf s ↔ Char.ofNat n ∈ s.toList := by
  obtain ⟨cs, rfl⟩ : ∃ cs, s = String.ofList cs := ⟨s.toList, String.ofList_toList.symm⟩
  rw [bytesOf_ofList, String.toList_ofList, mem_flatMap]
  constructor
  · rintro ⟨c, hc, hbyte⟩
    rwa [← (mem_utf8EncodeChar_iff c hn).mp hbyte]
  · exact fun hmem => ⟨_, hmem, (mem_utf8EncodeChar_iff _ hn).mpr rfl⟩

theorem sanitize_ok_iff {s what token : String} : sanitizeDispositionToken s what = .ok token ↔
    s.toList.any Value.isControl = false ∧ '"' ∉ s.toList ∧ token = s := by
  grind [sanitizeDispositionToken, Except.ok.injEq]

theorem not_mem_of_sanitized {s what token : String} (h : sanitizeDispositionToken s what = .ok token) :
    FormData.cr ∉ bytesOf s ∧ FormData.quote ∉ bytesOf s := by
  obtain ⟨hcontrol, hquote, -⟩ := sanitize_ok_iff.mp h
  constructor
  · intro hmem
    have hcr := (mem_bytesOf_iff s (n := 13) (by decide)).mp hmem
    rw [any_eq_false] at hcontrol
    exact hcontrol _ hcr (by decide)
  · intro hmem
    exact hquote ((mem_bytesOf_iff s (n := 34) (by decide)).mp hmem)

end Bytes

/-! ## The body -/

section Body

variable {toVec : JsonValue → List UInt8} {files : Files} {boundary : String} {s s' : RequestBody}

/-- Bytes were appended and charged, within the limit. -/
structure Pushed (s : RequestBody) (bytes : List UInt8) (s' : RequestBody) : Prop where
  body : s'.body = s.body ++ bytes
  total : s'.total = s.total + bytes.length
  within : s.total ≤ maxRequestBodyBytes → s'.total ≤ maxRequestBodyBytes

theorem Pushed.refl (s : RequestBody) : Pushed s [] s := ⟨(append_nil _).symm, rfl, id⟩

theorem Pushed.trans {t : RequestBody} {xs ys : List UInt8} (h : Pushed s xs t) (h' : Pushed t ys s') :
    Pushed s (xs ++ ys) s' where
  body := by rw [h'.body, h.body, append_assoc]
  total := by rw [h'.total, h.total, length_append, Nat.add_assoc]
  within hs := h'.within (h.within hs)

theorem pushChecked_ok {bytes : List UInt8} (h : s.pushChecked bytes = .ok s') : Pushed s bytes s' := by
  obtain ⟨_, hcheck, hs'⟩ := except_bind_ok_iff.mp h
  obtain rfl := Except.ok.inj hs'
  refine ⟨rfl, rfl, fun _ => ?_⟩
  rw [checkRequestBodyBudget] at hcheck
  split at hcheck
  · cases hcheck
  · rename_i hle
    rw [saturatingAdd, Nat.not_lt] at hle
    have hmax : maxRequestBodyBytes < u64Max := by decide
    show s.total + bytes.length ≤ maxRequestBodyBytes
    omega

theorem readChunks_ok {chunks : List (Except MizuError (List UInt8))} (h : readChunks chunks s = .ok s') :
    ∃ content, fileContents chunks = some content ∧ Pushed s content s' := by
  induction chunks generalizing s with
  | nil =>
    obtain rfl := Except.ok.inj h
    exact ⟨[], rfl, .refl s⟩
  | cons chunk chunks ih =>
    cases chunk with
    | error e => cases h
    | ok chunk =>
      rw [readChunks] at h
      rw [fileContents]
      split at h
      · rename_i hnil
        obtain rfl := Except.ok.inj h
        exact ⟨[], if_pos hnil, .refl s⟩
      · rename_i hne
        obtain ⟨t, hpush, hrest⟩ := except_bind_ok_iff.mp h
        obtain ⟨content, hcontent, hpushed⟩ := ih hrest
        refine ⟨chunk ++ content, ?_, (pushChecked_ok hpush).trans hpushed⟩
        rw [if_neg hne, hcontent]
        rfl

/-- The bytes of a part between its delimiter and the next. -/
def FormPart.raw (part : FormPart) : List UInt8 :=
  FormData.rawPart (bytesOf part.name) (part.fileName.map bytesOf) (bytesOf part.contentType) part.content

/-- Names without carriage return and quote. -/
structure FormPart.Sane (part : FormPart) : Prop where
  name : FormData.cr ∉ bytesOf part.name ∧ FormData.quote ∉ bytesOf part.name
  fileName : ∀ name ∈ part.fileName, FormData.cr ∉ bytesOf name ∧ FormData.quote ∉ bytesOf name
  contentType : FormData.cr ∉ bytesOf part.contentType

theorem bytesOf_dispositionHead : bytesOf "Content-Disposition: form-data; name=\"" =
    FormData.ascii "Content-Disposition: form-data; name=\"" := by
  decide

theorem bytesOf_contentTypeHead : bytesOf "\"\r\nContent-Type: " =
    FormData.quote :: (FormData.crlf ++ FormData.ascii "Content-Type: ") := by
  decide

theorem bytesOf_headerEnd : bytesOf "\r\n\r\n" = FormData.crlf ++ FormData.crlf := by
  decide

theorem bytesOf_fileNameHead : bytesOf "\"; filename=\"" =
    FormData.quote :: FormData.ascii "; filename=\"" := by
  decide

theorem bytesOf_partHeader (name contentType : String) (content : List UInt8) :
    bytesOf (partHeader name contentType) ++ content =
      FormData.rawPart (bytesOf name) none (bytesOf contentType) content := by
  unfold partHeader FormData.rawPart FormData.dispositionLine
  simp only [bytesOf_append, bytesOf_dispositionHead, bytesOf_contentTypeHead, bytesOf_headerEnd]
  generalize FormData.ascii "Content-Disposition: form-data; name=\"" = head
  generalize FormData.ascii "Content-Type: " = type
  simp only [Option.elim_none, append_assoc, cons_append, nil_append]

theorem bytesOf_filePartHeader (name filename mime : String) (content : List UInt8) :
    bytesOf (filePartHeader name filename mime) ++ content =
      FormData.rawPart (bytesOf name) (some (bytesOf filename)) (bytesOf mime) content := by
  unfold filePartHeader FormData.rawPart FormData.dispositionLine
  simp only [bytesOf_append, bytesOf_dispositionHead, bytesOf_contentTypeHead, bytesOf_headerEnd,
    bytesOf_fileNameHead]
  generalize FormData.ascii "Content-Disposition: form-data; name=\"" = head
  generalize FormData.ascii "Content-Type: " = type
  generalize FormData.ascii "; filename=\"" = file
  simp only [Option.elim_some, append_assoc, cons_append, nil_append]

/-- No type of the table, nor the fallback, has a carriage return. -/
theorem mimeForPath_cr (path : String) : FormData.cr ∉ bytesOf (mimeForPath path) := by
  have htable : mimeTable.all (fun entry => !(bytesOf entry.2).contains FormData.cr) = true := by
    decide
  have hfallback : FormData.cr ∉ bytesOf mimeFallback := by decide
  rw [mimeForPath]
  split
  · exact hfallback
  rename_i ext _
  cases hfind : mimeTable.find? (fun entry => decide (entry.1 = toAsciiLowercase ext)) with
  | none => exact hfallback
  | some entry => grind

theorem contentPushes_ok {header content : List UInt8} (h : (do
      let s ← s.pushChecked header
      let s ← s.pushChecked content
      s.pushChecked (bytesOf "\r\n")) = .ok s') :
    Pushed s (header ++ content ++ FormData.crlf) s' := by
  have hend : bytesOf "\r\n" = FormData.crlf := by decide
  obtain ⟨t, ht, h⟩ := except_bind_ok_iff.mp h
  obtain ⟨u, hu, h⟩ := except_bind_ok_iff.mp h
  have hpushed := ((pushChecked_ok ht).trans (pushChecked_ok hu)).trans (pushChecked_ok h)
  rwa [hend] at hpushed

theorem textPart_ok {name text : String} (h : (do
      let s ← s.pushChecked (bytesOf (partHeader name "text/plain; charset=utf-8"))
      let s ← s.pushChecked (bytesOf text)
      s.pushChecked (bytesOf "\r\n")) = .ok s') :
    Pushed s (FormPart.raw ⟨name, none, "text/plain; charset=utf-8", bytesOf text⟩ ++ FormData.crlf) s' := by
  have hpushed := contentPushes_ok h
  rwa [bytesOf_partHeader] at hpushed

/-- What one field appends: a delimiter, its part and the end of the line. -/
theorem encodeField_ok {field : RecordField Value} (h : encodeField toVec files boundary field s = .ok s') :
    ∃ part, partOf toVec files field = some part ∧ part.Sane ∧
      Pushed s (FormData.dashes ++ bytesOf boundary ++ FormData.crlf ++ part.raw ++ FormData.crlf) s' := by
  have hstart : bytesOf ("--" ++ boundary ++ "\r\n") = FormData.dashes ++ bytesOf boundary ++ FormData.crlf := by
    rw [bytesOf_append, bytesOf_append, show bytesOf "--" = FormData.dashes by decide,
      show bytesOf "\r\n" = FormData.crlf by decide]
  have htext : FormData.cr ∉ bytesOf "text/plain; charset=utf-8" := by decide
  have hjson : FormData.cr ∉ bytesOf "application/json" := by decide
  obtain ⟨name, hname, h⟩ := except_bind_ok_iff.mp h
  obtain ⟨t, ht, h⟩ := except_bind_ok_iff.mp h
  obtain rfl := (sanitize_ok_iff.mp hname).2.2
  have hsane := not_mem_of_sanitized hname
  have hdelimiter := pushChecked_ok ht
  rw [hstart] at hdelimiter
  simp only [append_assoc] at hdelimiter ⊢
  -- The name, and no other, for the parts without a file.
  have hnofile : ∀ {contentType : String} {content : List UInt8}, FormData.cr ∉ bytesOf contentType →
      FormPart.Sane ⟨field.key, none, contentType, content⟩ :=
    fun htype => ⟨hsane, fun _ h => (nomatch h), htype⟩
  have hpart : ∀ {part : FormPart}, Pushed t (part.raw ++ FormData.crlf) s' → Pushed s (FormData.dashes ++
      (bytesOf boundary ++ (FormData.crlf ++ (part.raw ++ FormData.crlf)))) s' := by
    intro part hpushed
    have hall := hdelimiter.trans hpushed
    simpa only [append_assoc] using hall
  rw [partOf]
  cases hv : field.value with
  | null =>
    rw [hv] at h
    have hpushed := textPart_ok h
    rw [show bytesOf "" = [] by decide] at hpushed
    exact ⟨_, rfl, hnofile htext, hpart hpushed⟩
  | bool b => grind [textPart_ok]
  | int | decimal | string => grind [textPart_ok]
  | list items =>
    rw [hv] at h
    obtain ⟨json, htoJson, h⟩ := except_bind_ok_iff.mp h
    have hpushed := contentPushes_ok h
    rw [bytesOf_partHeader] at hpushed
    rw [htoJson]
    exact ⟨_, rfl, hnofile hjson, hpart hpushed⟩
  | record fields =>
    rw [hv] at h
    obtain ⟨json, htoJson, h⟩ := except_bind_ok_iff.mp h
    have hpushed := contentPushes_ok h
    rw [bytesOf_partHeader] at hpushed
    rw [htoJson]
    exact ⟨_, rfl, hnofile hjson, hpart hpushed⟩
  | fileHandle arc handle =>
    rw [hv] at h
    obtain ⟨filename, hfilename, h⟩ := except_bind_ok_iff.mp h
    obtain rfl := (sanitize_ok_iff.mp hfilename).2.2
    obtain ⟨u, hu, h⟩ := except_bind_ok_iff.mp h
    obtain ⟨v, hread, h⟩ := except_bind_ok_iff.mp h
    obtain ⟨chunks, hchunks, hread⟩ := except_bind_ok_iff.mp hread
    obtain ⟨content, hcontent, hpushed⟩ := readChunks_ok hread
    have hall := ((pushChecked_ok hu).trans hpushed).trans (pushChecked_ok h)
    rw [bytesOf_filePartHeader, show bytesOf "\r\n" = FormData.crlf by decide] at hall
    refine ⟨⟨field.key, some handle.filename, mimeForPath handle.path, content⟩, ?_, ?_, hpart hall⟩
    · dsimp only
      rw [hchunks]
      show (fileContents chunks).map _ = _
      rw [hcontent]
      rfl
    · refine ⟨hsane, fun name hmem => ?_, mimeForPath_cr _⟩
      obtain rfl := Option.some.inj hmem
      exact not_mem_of_sanitized hfilename

variable {fields : List (RecordField Value)}

theorem encodeFields_ok (h : encodeFields toVec files boundary fields s = .ok s') :
    ∃ parts, fields.mapM (partOf toVec files) = some parts ∧ (∀ part ∈ parts, part.Sane) ∧
      Pushed s (parts.flatMap fun part =>
        FormData.dashes ++ bytesOf boundary ++ FormData.crlf ++ part.raw ++ FormData.crlf) s' := by
  induction fields generalizing s with
  | nil =>
    obtain rfl := Except.ok.inj h
    exact ⟨[], rfl, fun _ hmem => (nomatch hmem), .refl s⟩
  | cons field fields ih =>
    obtain ⟨t, hfield, h⟩ := except_bind_ok_iff.mp h
    obtain ⟨part, hpart, hsane, hpushed⟩ := encodeField_ok hfield
    obtain ⟨parts, hparts, hsane', hpushed'⟩ := ih h
    refine ⟨part :: parts, ?_, ?_, hpushed.trans hpushed'⟩
    · rw [mapM_cons, hpart, hparts]
      rfl
    · rw [forall_mem_cons]
      exact ⟨hsane, hsane'⟩

theorem assemble_eq (boundary : List UInt8) (parts : List FormPart) :
    (parts.flatMap fun part =>
      FormData.dashes ++ boundary ++ FormData.crlf ++ part.raw ++ FormData.crlf) ++
      (FormData.dashes ++ boundary ++ FormData.dashes ++ FormData.crlf) =
      FormData.assemble boundary (parts.map FormPart.raw) := by
  induction parts with
  | nil => rfl
  | cons part parts ih => rw [flatMap_cons, append_assoc, ih, map_cons, FormData.assemble]

/-- A successful encoding is an assembled body, charged in full. -/
theorem encodeParts_ok (h : encodeParts toVec files boundary fields = .ok s) :
    ∃ parts, fields.mapM (partOf toVec files) = some parts ∧ (∀ part ∈ parts, part.Sane) ∧
      s.body = FormData.assemble (bytesOf boundary) (parts.map FormPart.raw) ∧
      s.total = s.body.length ∧ s.total ≤ maxRequestBodyBytes := by
  obtain ⟨t, hfields, h⟩ := except_bind_ok_iff.mp h
  obtain ⟨parts, hparts, hsane, hpushed⟩ := encodeFields_ok hfields
  have hclose : bytesOf ("--" ++ boundary ++ "--\r\n") =
      FormData.dashes ++ bytesOf boundary ++ FormData.dashes ++ FormData.crlf := by
    rw [bytesOf_append, bytesOf_append, show bytesOf "--" = FormData.dashes by decide,
      show bytesOf "--\r\n" = FormData.dashes ++ FormData.crlf by decide]
    simp only [append_assoc]
  have hall := hpushed.trans (pushChecked_ok h)
  rw [hclose, assemble_eq] at hall
  refine ⟨parts, hparts, hsane, hall.body, ?_, hall.within (Nat.zero_le _)⟩
  rw [hall.total, hall.body]
  exact Nat.zero_add _

end Body

/-! ## Reading it back -/

section Read

variable {toVec : JsonValue → List UInt8} {files : Files} {boundary : String}

theorem forall_mapM {α β : Type} {f : α → Option β} {xs : List α} {ys : List β} (h : xs.mapM f = some ys)
    (P : β → Prop) : (∀ y ∈ ys, P y) ↔ ∀ x ∈ xs, ∀ y, f x = some y → P y := by
  induction xs generalizing ys with
  | nil => grind
  | cons x xs ih =>
    rw [mapM_cons] at h
    obtain ⟨y, hy, h⟩ := Option.bind_eq_some_iff.mp h
    obtain ⟨ys, hys, h⟩ := Option.bind_eq_some_iff.mp h
    obtain rfl := Option.some.inj h
    rw [forall_mem_cons, forall_mem_cons, ih hys, hy]
    simp only [Option.some.injEq, forall_eq']

theorem exists_of_mapM {α β : Type} {f : α → Option β} {xs : List α} {ys : List β} (h : xs.mapM f = some ys)
    {x : α} (hx : x ∈ xs) : ∃ y, f x = some y := by
  induction xs generalizing ys with
  | nil => cases hx
  | cons x' xs ih => grind [Option.bind_eq_some_iff]

theorem not_mem_backslash_iff (s : String) : FormData.backslash ∉ bytesOf s ↔ '\\' ∉ s.toList :=
  not_congr (mem_bytesOf_iff s (n := 92) (by decide))

variable {part : FormPart}

theorem FormPart.Sane.dispositionLine (h : part.Sane) :
    FormData.cr ∉ FormData.dispositionLine (bytesOf part.name) (part.fileName.map bytesOf) := by
  refine FormData.cr_notMem_dispositionLine h.name.1 fun x hx => ?_
  obtain ⟨name, hname, rfl⟩ := Option.mem_map.mp hx
  exact (h.fileName name hname).1

/-- A part is read back exactly if there is no backslash in its names. -/
theorem FormPart.Sane.parsePart_iff (h : part.Sane) : FormData.parsePart part.raw = some part.read ↔
      '\\' ∉ part.name.toList ∧ ∀ name ∈ part.fileName, '\\' ∉ name.toList := by
  have hfile : ∀ x ∈ part.fileName.map bytesOf, FormData.cr ∉ x ∧ FormData.quote ∉ x := by
    intro x hx
    obtain ⟨name, hname, rfl⟩ := Option.mem_map.mp hx
    exact h.fileName name hname
  rw [FormPart.raw, FormPart.read, FormData.parsePart_iff h.name.2 (fun x hx => (hfile x hx).2)
    h.dispositionLine h.contentType]
  rw [not_mem_backslash_iff]
  refine and_congr_right fun _ => ⟨fun hall name hname => ?_, fun hall x hx => ?_⟩
  · exact (not_mem_backslash_iff name).mp (hall _ (Option.mem_map_of_mem _ hname))
  · grind [Option.mem_map, not_mem_backslash_iff]

theorem noBackslash_iff {field : RecordField Value} (h : partOf toVec files field = some part) :
    ('\\' ∉ part.name.toList ∧ ∀ name ∈ part.fileName, '\\' ∉ name.toList) ↔ NoBackslash field := by
  have hnofile : ∀ {contentType : String} {content : List UInt8},
      (∀ arc handle, field.value ≠ .fileHandle arc handle) →
      part = ⟨field.key, none, contentType, content⟩ →
      (('\\' ∉ part.name.toList ∧ ∀ name ∈ part.fileName, '\\' ∉ name.toList) ↔ NoBackslash field) := by
    rintro contentType content hv rfl
    exact and_congr_right fun _ => ⟨fun _ arc handle heq => absurd heq (hv arc handle), fun _ _ h => (nomatch h)⟩
  unfold partOf at h
  cases hv : field.value with
  | null | bool | int =>
    rw [hv] at h
    exact hnofile (by simp [hv]) (Option.some.inj h).symm
  | decimal i => grind
  | string x => grind
  | list items => grind [Option.map_eq_some_iff]
  | record fields => grind [Option.map_eq_some_iff]
  | fileHandle arc handle =>
    rw [hv] at h
    obtain ⟨content, -, rfl⟩ := Option.map_eq_some_iff.mp h
    refine and_congr_right fun _ => ⟨fun hall arc' handle' heq => ?_, fun hall name hname => ?_⟩
    · grind
    · obtain rfl := Option.some.inj hname
      exact hall arc handle hv

/-- An encoded record is read back faithfully exactly if no name has a backslash. No boundary has a carriage
return; that it does not occur in what the parts carry is what it is drawn for. -/
theorem encodeMultipart_faithful_iff {fields : List (RecordField Value)} {body : List UInt8}
    (hcr : '\r' ∉ boundary.toList)
    (habsent : ∀ field ∈ fields, ∀ part, partOf toVec files field = some part →
      ¬bytesOf boundary <:+: part.content)
    (h : encodeMultipart toVec files boundary (.record fields) = .ok body) :
    Faithful toVec files boundary fields body ↔ ∀ field ∈ fields, NoBackslash field := by
  obtain ⟨s, hs, hbody⟩ := except_bind_ok_iff.mp h
  obtain rfl := Except.ok.inj hbody
  obtain ⟨parts, hparts, hsane, hassembled, htotal, hwithin⟩ := encodeParts_ok hs
  have hboundary : FormData.cr ∉ bytesOf boundary := fun hmem =>
    hcr ((mem_bytesOf_iff boundary (n := 13) (by decide)).mp hmem)
  have hdelimiter : ∀ raw ∈ parts.map FormPart.raw, ¬FormData.delimiter (bytesOf boundary) <:+: raw := by
    intro raw hraw
    obtain ⟨part, hpart, rfl⟩ := mem_map.mp hraw
    exact FormData.not_infix_rawPart (hsane part hpart).dispositionLine (hsane part hpart).contentType
      ((forall_mapM hparts fun part => ¬bytesOf boundary <:+: part.content).mpr habsent part hpart)
  have hparse : FormData.parse (bytesOf boundary) s.body = some (parts.map FormPart.read) ↔
      ∀ field ∈ fields, NoBackslash field := by
    rw [hassembled, FormData.parse_assemble hboundary hdelimiter, FormData.mapM_map_eq_some_iff]
    have hiff : (∀ part ∈ parts, FormData.parsePart part.raw = some part.read) ↔
        ∀ part ∈ parts, '\\' ∉ part.name.toList ∧ ∀ name ∈ part.fileName, '\\' ∉ name.toList :=
      forall₂_congr fun part hpart => (hsane part hpart).parsePart_iff
    rw [hiff, forall_mapM hparts]
    refine forall₂_congr fun field hfield => ⟨fun hall => ?_, fun hplain part hpart => ?_⟩
    · obtain ⟨part, hpart⟩ := exists_of_mapM hparts hfield
      exact (noBackslash_iff hpart).mp (hall part hpart)
    · exact (noBackslash_iff hpart).mpr hplain
  constructor
  · rintro ⟨⟨parts', hparts', hdecoded⟩, -, -⟩
    obtain rfl := Option.some.inj (hparts.symm.trans hparts')
    exact hparse.mp hdecoded
  · intro hplain
    refine ⟨⟨parts, hparts, hparse.mpr hplain⟩, ⟨s, hs, rfl, htotal, htotal ▸ hwithin⟩, ?_⟩
    intro what x y token hx hy
    exact ((sanitize_ok_iff.mp hx).2.2.symm.trans (sanitize_ok_iff.mp hy).2.2)

end Read

section Examples

/-- A file system with one file, which is read in two chunks. -/
def onlyCat : Files := fun path =>
  if path = "/tmp/cat.png" then .ok [.ok [137, 80], .ok [78], .ok []]
  else .error (.executionError "No such file or directory (os error 2)")

/-- A text, a list and a file. -/
def caption (name filename : String) : List (RecordField Value) :=
  [⟨name, hashField name, .string "hello"⟩, ⟨"tags", hashField "tags", .list []⟩,
    ⟨"avatar", hashField "avatar", .fileHandle 0 ⟨"/tmp/cat.png", filename⟩⟩]

theorem encodeMultipart_faithful_iff_caption : ∃ body,
    encodeMultipart (fun _ => bytesOf "[]") onlyCat "mizu00" (.record (caption "caption" "cat.png")) = .ok body ∧
      (Faithful (fun _ => bytesOf "[]") onlyCat "mizu00" (caption "caption" "cat.png") body ↔
        ∀ field ∈ caption "caption" "cat.png", NoBackslash field) := by
  have hparts : (caption "caption" "cat.png").all (fun field =>
      match partOf (fun _ => bytesOf "[]") onlyCat field with
      | some part => !decide (bytesOf "mizu00" <:+: part.content)
      | none => true) = true := by
    decide
  have habsent : ∀ field ∈ caption "caption" "cat.png", ∀ part,
      partOf (fun _ => bytesOf "[]") onlyCat field = some part → ¬bytesOf "mizu00" <:+: part.content := by
    intro field hfield part hpart
    have h := all_eq_true.mp hparts field hfield
    rw [hpart] at h
    simpa using h
  have hok : (encodeMultipart (fun _ => bytesOf "[]") onlyCat "mizu00"
      (.record (caption "caption" "cat.png"))).toOption.isSome = true := by
    decide +kernel
  cases h : encodeMultipart (fun _ => bytesOf "[]") onlyCat "mizu00" (.record (caption "caption" "cat.png")) with
  | error e =>
    rw [h] at hok
    cases hok
  | ok body => exact ⟨body, rfl, encodeMultipart_faithful_iff (by decide) habsent h⟩

/-- A backslash is an accepted character, but a name with one is read as another, and a file name that ends in
one leaves the body unreadable. -/
theorem encodeMultipart_unfaithful :
    (∃ body, encodeMultipart (fun _ => bytesOf "[]") onlyCat "mizu00" (.record (caption "a\\b" "cat.png")) =
        .ok body ∧
      (∃ rest, FormData.parse (bytesOf "mizu00") body = some (⟨bytesOf "ab", none, bytesOf "hello"⟩ :: rest)) ∧
      ¬Faithful (fun _ => bytesOf "[]") onlyCat "mizu00" (caption "a\\b" "cat.png") body) ∧
    ∃ body, encodeMultipart (fun _ => bytesOf "[]") onlyCat "mizu00" (.record (caption "ab" "cat\\")) =
        .ok body ∧
      FormData.parse (bytesOf "mizu00") body = none ∧
      ¬Faithful (fun _ => bytesOf "[]") onlyCat "mizu00" (caption "ab" "cat\\") body := by
  have hname : (encodeMultipart (fun _ => bytesOf "[]") onlyCat "mizu00"
      (.record (caption "a\\b" "cat.png"))).toOption.bind (FormData.parse (bytesOf "mizu00")) =
      some [⟨bytesOf "ab", none, bytesOf "hello"⟩, ⟨bytesOf "tags", none, bytesOf "[]"⟩,
        ⟨bytesOf "avatar", some (bytesOf "cat.png"), [137, 80, 78]⟩] := by
    decide +kernel
  have hfile : (encodeMultipart (fun _ => bytesOf "[]") onlyCat "mizu00"
      (.record (caption "ab" "cat\\"))).toOption.map (FormData.parse (bytesOf "mizu00")) = some none := by
    decide +kernel
  have hparts : ((caption "a\\b" "cat.png").mapM (partOf (fun _ => bytesOf "[]") onlyCat)).map
      (·.map FormPart.read) = some [⟨bytesOf "a\\b", none, bytesOf "hello"⟩, ⟨bytesOf "tags", none, bytesOf "[]"⟩,
        ⟨bytesOf "avatar", some (bytesOf "cat.png"), [137, 80, 78]⟩] := by
    decide
  constructor
  · cases h : encodeMultipart (fun _ => bytesOf "[]") onlyCat "mizu00" (.record (caption "a\\b" "cat.png")) with
    | error e =>
      rw [h] at hname
      cases hname
    | ok body =>
      rw [h] at hname
      refine ⟨body, rfl, ⟨_, hname⟩, fun hfaithful => ?_⟩
      obtain ⟨parts, hmap, hparse⟩ := hfaithful.decoded
      rw [hmap] at hparts
      have heq := Option.some.inj (hparts.symm.trans (hparse.symm.trans hname))
      exact absurd heq (by decide)
  · cases h : encodeMultipart (fun _ => bytesOf "[]") onlyCat "mizu00" (.record (caption "ab" "cat\\")) with
    | error e =>
      rw [h] at hfile
      cases hfile
    | ok body =>
      rw [h] at hfile
      have hnone : FormData.parse (bytesOf "mizu00") body = none := Option.some.inj hfile
      refine ⟨body, rfl, hnone, fun hfaithful => ?_⟩
      obtain ⟨parts, -, hparse⟩ := hfaithful.decoded
      cases hnone.symm.trans hparse

end Examples

end Mizu
