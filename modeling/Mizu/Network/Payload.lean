import Mizu.Network.Multipart
import Mizu.Types.JsonRoundTrip

/-!
# Payloads of requests

`serializePayload` writes a payload in the format of its call, before the network is asked for anything.

* `encodeMultipart_ok_iff`: the records that fit into a form.
* `serializePayload_ok_iff`: the values that a format takes.
-/

namespace Mizu

open Exec List Option

/-! ## YAML -/

section Yaml

/-- Two digits. -/
def hexByte (n : Nat) : String :=
  String.ofList ["0123456789abcdef".toList.getD (n / 16) '0', "0123456789abcdef".toList.getD (n % 16) '0']

def yamlEscape (c : Char) : String :=
  if c = '\\' then "\\\\"
  else if c = '"' then "\\\""
  else if c = '\n' then "\\n"
  else if c = '\t' then "\\t"
  else if c = '\r' then "\\r"
  else if c.toNat < 0x20 then "\\x" ++ hexByte c.toNat
  else String.singleton c

def writeQuotedString (s : String) : String := "\"" ++ String.join (s.toList.map yamlEscape) ++ "\""

def pushIndent (level : Nat) : String := String.join (List.replicate level "  ")

/-- `write_scalar`. -/
def writeScalar : JsonValue → String
  | .null => "null"
  | .bool b => if b then "true" else "false"
  | .number n => String.ofList n.text
  | .string s => writeQuotedString s
  | .array _ => "[]"
  | .object _ => "\x7b\x7d"

/-- A collection that is written over several lines. -/
def JsonValue.isBlock : JsonValue → Bool
  | .array (_ :: _) | .object (_ :: _) => true
  | _ => false

mutual

/-- `write_block`. -/
def writeBlock (indent : Nat) : JsonValue → String
  | .array (item :: items) => "- " ++ writeBlock (indent + 1) item ++ writeItems indent items
  | .object (entry :: entries) => writeEntry indent entry ++ writeEntries indent entries
  | value => writeScalar value

def writeItems (indent : Nat) : List JsonValue → String
  | [] => ""
  | item :: items => "\n" ++ pushIndent indent ++ "- " ++ writeBlock (indent + 1) item ++ writeItems indent items

def writeEntry (indent : Nat) : JsonEntry → String
  | .mk key value =>
    writeQuotedString key ++ ":" ++ (if value.isBlock then "\n" ++ pushIndent (indent + 1) else " ") ++
      writeBlock (indent + 1) value

def writeEntries (indent : Nat) : List JsonEntry → String
  | [] => ""
  | entry :: entries => "\n" ++ pushIndent indent ++ writeEntry indent entry ++ writeEntries indent entries

end

def toYamlString (value : JsonValue) : String := writeBlock 0 value

end Yaml

example : toYamlString (.object [.mk "a" (.array [.bool true, .null]), .mk "b" (.string "x\n")]) =
    "\"a\":\n  - true\n  - null\n\"b\": \"x\\n\"" := by
  with_unfolding_all rfl

/-! ## The formats -/

/-- What serialisation takes from its libraries, the random source and the disk. -/
structure PayloadEnv where
  /-- `serde_json::to_vec`, which has no error on its own values. -/
  toVec : JsonValue → List UInt8
  /-- `form_urlencoded`. -/
  urlencode : List (String × String) → List UInt8
  /-- `{:?}` of a value. -/
  debugValue : Value → String
  files : Files
  /-- The bytes a boundary is made of. -/
  random : Except MizuError (List UInt8)

structure SerializedRequestBody where
  bytes : List UInt8
  contentType : String

/-- `content_type_for`. -/
def PayloadFormat.contentType : PayloadFormat → String
  | json => "application/json"
  | form => "application/x-www-form-urlencoded"
  | text => "text/plain; charset=utf-8"
  | yaml => "application/yaml"
  | multipart => "multipart/form-data"

/-- The text of a field of a form. -/
def formField (field : RecordField Value) : Except MizuError (String × String) :=
  match field.value with
  | .bool _ | .int _ | .decimal _ | .string _ => .ok (field.key, field.value.display)
  | .null => .ok (field.key, "")
  | .list _ | .record _ =>
    .error (.executionError ("`as form` payload field `" ++ field.key ++
      "` must be a scalar (bool/int/string/null), not a nested list/record"))
  | .fileHandle _ _ =>
    .error (.executionError ("`as form` payload field `" ++ field.key ++
      "` cannot be a file selection; use `as multipart` to upload a file"))

def serializeForm (env : PayloadEnv) (value : Value) : Except MizuError (List UInt8) :=
  match value with
  | .record fields => do
    let pairs ← fields.mapM formField
    return env.urlencode pairs
  | _ => .error (.executionError "`as form` payload must be a record")

/-- The formats with a fixed content type. -/
def serializePlain (env : PayloadEnv) (value : Value) : PayloadFormat → Except MizuError (List UInt8)
  | .json => do
    let json ← value.toJson
    return env.toVec json
  | .yaml => do
    let json ← value.toJson
    return bytesOf (toYamlString json)
  | .text =>
    match value with
    | .string s => .ok (bytesOf s)
    | other => .error (.executionError ("`as text` payload must be a string, got " ++ env.debugValue other))
  | .form => serializeForm env value
  | .multipart => .ok []

def serializePayload (env : PayloadEnv) (value : Value) (format : PayloadFormat) :
    Except MizuError SerializedRequestBody :=
  if format = .multipart then do
    let raw ← env.random
    let boundary := generateBoundary raw
    let bytes ← encodeMultipart env.toVec env.files boundary value
    return ⟨bytes, "multipart/form-data; boundary=" ++ boundary⟩
  else do
    let bytes ← serializePlain env value format
    return ⟨bytes, format.contentType⟩

/-! ## What fits into a form -/

/-- Neither the name of a field nor that of its file has a control character or a quote. -/
def NamesClean (field : RecordField Value) : Prop :=
  (field.key.toList.any Value.isControl = false ∧ '"' ∉ field.key.toList) ∧
    ∀ arc handle, field.value = .fileHandle arc handle →
      handle.filename.toList.any Value.isControl = false ∧ '"' ∉ handle.filename.toList

/-- The body with bytes appended and charged. -/
def RequestBody.after (s : RequestBody) (bytes : List UInt8) : RequestBody := ⟨s.body ++ bytes, s.total + bytes.length⟩

section Multipart

variable {toVec : JsonValue → List UInt8} {files : Files} {boundary : String} {s s' : RequestBody}
  {fields : List (RecordField Value)} {field : RecordField Value} {part : FormPart} {parts : List FormPart}

@[simp]
theorem after_nil (s : RequestBody) : s.after [] = s := by simp [RequestBody.after]

@[simp]
theorem after_after (s : RequestBody) (xs ys : List UInt8) : (s.after xs).after ys = s.after (xs ++ ys) := by
  simp [RequestBody.after, Nat.add_assoc]

@[simp]
theorem after_total (s : RequestBody) (xs : List UInt8) : (s.after xs).total = s.total + xs.length := rfl

theorem pushChecked_of_le {bytes : List UInt8} (h : s.total + bytes.length ≤ maxRequestBodyBytes) :
    s.pushChecked bytes = .ok (s.after bytes) := by
  have hle : ¬saturatingAdd s.total bytes.length > maxRequestBodyBytes :=
    Nat.not_lt.mpr ((Nat.min_le_left _ _).trans h)
  rw [RequestBody.pushChecked, checkRequestBodyBudget, if_neg hle]
  rfl

theorem readChunks_of_le {chunks : List (Except MizuError (List UInt8))} {content : List UInt8}
    (h : fileContents chunks = some content) (hle : s.total + content.length ≤ maxRequestBodyBytes) :
    readChunks chunks s = .ok (s.after content) := by
  induction chunks generalizing s content with
  | nil =>
    obtain rfl := some.inj h
    rw [after_nil, readChunks]
  | cons chunk chunks ih =>
    cases chunk with
    | error e => cases h
    | ok chunk =>
      rw [fileContents] at h
      rw [readChunks]
      by_cases hnil : chunk = []
      · rw [if_pos hnil] at h ⊢
        obtain rfl := some.inj h
        rw [after_nil]
      · rw [if_neg hnil] at h ⊢
        obtain ⟨rest, hrest, rfl⟩ := map_eq_some_iff.mp h
        rw [length_append] at hle
        rw [pushChecked_of_le (by omega)]
        show readChunks chunks (s.after chunk) = _
        rw [ih hrest (by rw [after_total]; omega), after_after]

theorem except_ok_bind {ε α β : Type} (a : α) (f : α → Except ε β) : (Except.ok a >>= f) = f a := rfl

theorem except_toOption_iff {ε α : Type} {x : Except ε α} {a : α} : x.toOption = some a ↔ x = .ok a := by
  cases x <;> simp [Except.toOption]

theorem contentPushes_of_le {header content : List UInt8}
    (hle : s.total + (header ++ content ++ FormData.crlf).length ≤ maxRequestBodyBytes) : (do
      let s ← s.pushChecked header
      let s ← s.pushChecked content
      s.pushChecked (bytesOf "\r\n")) = .ok (s.after (header ++ content ++ FormData.crlf)) := by
  have hend : bytesOf "\r\n" = FormData.crlf := by decide
  rw [length_append, length_append] at hle
  rw [pushChecked_of_le (by omega)]
  show ((s.after header).pushChecked content >>= _) = _
  rw [pushChecked_of_le (by rw [after_total]; omega)]
  show ((s.after header).after content).pushChecked (bytesOf "\r\n") = _
  rw [hend, pushChecked_of_le (by rw [after_total, after_total]; omega), after_after, after_after, append_assoc]

/-- What a field with clean names appends, if it fits. -/
theorem encodeField_of_le (hclean : NamesClean field) (hpart : partOf toVec files field = some part)
    (hle : s.total +
      (FormData.dashes ++ bytesOf boundary ++ FormData.crlf ++ part.raw ++ FormData.crlf).length ≤ maxRequestBodyBytes) :
    encodeField toVec files boundary field s =
      .ok (s.after (FormData.dashes ++ bytesOf boundary ++ FormData.crlf ++ part.raw ++ FormData.crlf)) := by
  have hstart : bytesOf ("--" ++ boundary ++ "\r\n") = FormData.dashes ++ bytesOf boundary ++ FormData.crlf := by
    rw [bytesOf_append, bytesOf_append, show bytesOf "--" = FormData.dashes by decide,
      show bytesOf "\r\n" = FormData.crlf by decide]
  have hname := (@sanitize_ok_iff field.key "field name" _).mpr ⟨hclean.1.1, hclean.1.2, rfl⟩
  rw [append_assoc _ part.raw, length_append] at hle
  rw [append_assoc _ part.raw, ← after_after, encodeField, hname]
  show (s.pushChecked (bytesOf ("--" ++ boundary ++ "\r\n")) >>= _) = _
  rw [hstart, pushChecked_of_le (by omega)]
  generalize hdelimited : s.after (FormData.dashes ++ bytesOf boundary ++ FormData.crlf) = t
  have hrest : t.total + (part.raw ++ FormData.crlf).length ≤ maxRequestBodyBytes := by grind [after_total]
  -- A part without a file is a header, a content and the end of the line.
  have hplain : ∀ {contentType : String} {content : List UInt8}, part = ⟨field.key, none, contentType, content⟩ →
      (do
        let s ← t.pushChecked (bytesOf (partHeader field.key contentType))
        let s ← s.pushChecked content
        s.pushChecked (bytesOf "\r\n")) = .ok (t.after (part.raw ++ FormData.crlf)) := by
    rintro contentType content rfl
    rw [FormPart.raw, map_none, ← bytesOf_partHeader] at hrest ⊢
    exact contentPushes_of_le hrest
  clear hle hstart hdelimited
  rw [except_ok_bind]
  rw [partOf] at hpart
  cases hv : field.value with
  | null | bool | int | decimal | string =>
    rw [hv] at hpart
    exact hplain (some.inj hpart).symm
  | list items =>
    rw [hv] at hpart
    obtain ⟨json, hjson, hpart⟩ := map_eq_some_iff.mp hpart
    rw [except_toOption_iff] at hjson
    show ((Value.list items).toJson >>= _) = _
    rw [hjson, except_ok_bind]
    exact hplain hpart.symm
  | record fields =>
    rw [hv] at hpart
    obtain ⟨json, hjson, hpart⟩ := map_eq_some_iff.mp hpart
    rw [except_toOption_iff] at hjson
    show ((Value.record fields).toJson >>= _) = _
    rw [hjson, except_ok_bind]
    exact hplain hpart.symm
  | fileHandle arc handle =>
    rw [hv] at hpart
    obtain ⟨content, hcontent, rfl⟩ := map_eq_some_iff.mp hpart
    obtain ⟨chunks, hchunks, hcontent⟩ := bind_eq_some_iff.mp hcontent
    rw [except_toOption_iff] at hchunks
    have hfilename := (@sanitize_ok_iff handle.filename "filename" _).mpr
      ⟨(hclean.2 arc handle hv).1, (hclean.2 arc handle hv).2, rfl⟩
    rw [FormPart.raw, map_some, ← bytesOf_filePartHeader] at hrest ⊢
    simp only [length_append] at hrest
    show (sanitizeDispositionToken handle.filename "filename" >>= _) = _
    rw [hfilename, except_ok_bind, pushChecked_of_le (by omega), except_ok_bind]
    generalize hheader : t.after (bytesOf (filePartHeader field.key handle.filename (mimeForPath handle.path))) = u
    rw [readFileBoundedInto, hchunks, except_ok_bind, readChunks_of_le hcontent (by rw [← hheader, after_total]; omega),
      except_ok_bind, ← hheader, after_after, show bytesOf "\r\n" = FormData.crlf by decide, pushChecked_of_le,
      after_after, append_assoc]
    rw [after_total, length_append]
    omega

theorem encodeFields_of_le (hclean : ∀ field ∈ fields, NamesClean field)
    (hparts : fields.mapM (partOf toVec files) = some parts)
    (hle : s.total + (parts.flatMap fun part =>
      FormData.dashes ++ bytesOf boundary ++ FormData.crlf ++ part.raw ++ FormData.crlf).length ≤ maxRequestBodyBytes) :
    encodeFields toVec files boundary fields s = .ok (s.after (parts.flatMap fun part =>
      FormData.dashes ++ bytesOf boundary ++ FormData.crlf ++ part.raw ++ FormData.crlf)) := by
  induction fields generalizing s parts with
  | nil => grind [after_nil, encodeFields]
  | cons field fields ih =>
    rw [mapM_cons] at hparts
    obtain ⟨part, hpart, hparts⟩ := bind_eq_some_iff.mp hparts
    obtain ⟨rest, hrest, heq⟩ := bind_eq_some_iff.mp hparts
    obtain rfl := some.inj heq
    rw [forall_mem_cons] at hclean
    rw [flatMap_cons, length_append] at hle
    rw [flatMap_cons, ← after_after, encodeFields, encodeField_of_le hclean.1 hpart (by omega)]
    exact ih hclean.2 hrest (by rw [after_total]; omega)

/-- The bytes of a form. -/
def formBody (boundary : String) (parts : List FormPart) : List UInt8 :=
  FormData.assemble (bytesOf boundary) (parts.map FormPart.raw)

/-- The fields make a form that fits. -/
def FitsForm (toVec : JsonValue → List UInt8) (files : Files) (boundary : String)
    (fields : List (RecordField Value)) : Prop :=
  (∀ field ∈ fields, NamesClean field) ∧ ∃ parts, fields.mapM (partOf toVec files) = some parts ∧
    (formBody boundary parts).length ≤ maxRequestBodyBytes

theorem encodeParts_of_fits (h : FitsForm toVec files boundary fields) :
    ∃ s, encodeParts toVec files boundary fields = .ok s := by
  obtain ⟨hclean, parts, hparts, hle⟩ := h
  rw [formBody, ← assemble_eq, length_append] at hle
  have hstart : (⟨[], 0⟩ : RequestBody).total = 0 := rfl
  rw [encodeParts, encodeFields_of_le hclean hparts (by rw [hstart]; omega)]
  have hclose : bytesOf ("--" ++ boundary ++ "--\r\n") =
      FormData.dashes ++ bytesOf boundary ++ FormData.dashes ++ FormData.crlf := by
    rw [bytesOf_append, bytesOf_append, show bytesOf "--" = FormData.dashes by decide,
      show bytesOf "--\r\n" = FormData.dashes ++ FormData.crlf by decide]
    simp only [append_assoc]
  show ∃ s, RequestBody.pushChecked _ _ = .ok s
  exact ⟨_, by rw [hclose, pushChecked_of_le (by rw [after_total, hstart]; omega)]⟩

theorem namesClean_of_encodeField (h : encodeField toVec files boundary field s = .ok s') : NamesClean field := by
  obtain ⟨name, hname, h⟩ := except_bind_ok_iff.mp h
  obtain ⟨t, -, h⟩ := except_bind_ok_iff.mp h
  refine ⟨⟨(sanitize_ok_iff.mp hname).1, (sanitize_ok_iff.mp hname).2.1⟩, fun arc handle hv => ?_⟩
  rw [hv] at h
  obtain ⟨filename, hfilename, -⟩ := except_bind_ok_iff.mp h
  exact ⟨(sanitize_ok_iff.mp hfilename).1, (sanitize_ok_iff.mp hfilename).2.1⟩

theorem namesClean_of_encodeFields (h : encodeFields toVec files boundary fields s = .ok s') :
    ∀ field ∈ fields, NamesClean field := by
  induction fields generalizing s with
  | nil => simp
  | cons field fields ih =>
    obtain ⟨t, hfield, h⟩ := except_bind_ok_iff.mp h
    exact forall_mem_cons.mpr ⟨namesClean_of_encodeField hfield, ih h⟩

theorem encodeMultipart_ok_iff {v : Value} : (∃ body, encodeMultipart toVec files boundary v = .ok body) ↔
    ∃ fields, v = .record fields ∧ FitsForm toVec files boundary fields := by
  constructor
  · rintro ⟨body, h⟩
    unfold encodeMultipart at h
    split at h
    · rename_i fields
      obtain ⟨s, hs, -⟩ := except_bind_ok_iff.mp h
      obtain ⟨t, hfields, -⟩ := except_bind_ok_iff.mp hs
      obtain ⟨parts, hparts, -, hbody, htotal, hle⟩ := encodeParts_ok hs
      refine ⟨fields, rfl, namesClean_of_encodeFields hfields, parts, hparts, ?_⟩
      rw [formBody, ← hbody, ← htotal]
      exact hle
    · cases h
  · rintro ⟨fields, rfl, hfits⟩
    obtain ⟨s, hs⟩ := encodeParts_of_fits hfits
    exact ⟨s.body, by rw [encodeMultipart, hs]; rfl⟩

end Multipart

/-! ## What a format takes -/

/-- A field that a form of the web can hold. -/
def IsScalar : Value → Prop
  | .list _ | .record _ | .fileHandle _ _ => False
  | _ => True

/-- The values that a format takes. -/
def Serialisable (env : PayloadEnv) (v : Value) : PayloadFormat → Prop
  | .json | .yaml => v.FileFree
  | .text => ∃ s, v = .string s
  | .form => ∃ fields, v = .record fields ∧ ∀ field ∈ fields, IsScalar field.value
  | .multipart => ∃ raw fields, env.random = .ok raw ∧ v = .record fields ∧
      FitsForm env.toVec env.files (generateBoundary raw) fields

theorem formField_ok_iff {field : RecordField Value} :
    (∃ pair, formField field = .ok pair) ↔ IsScalar field.value := by
  unfold formField
  cases field.value <;> simp [IsScalar]

/-- The fields of a form can be written one by one. -/
theorem mapM_formField_ok_iff {fields : List (RecordField Value)} :
    (∃ pairs, fields.mapM formField = .ok pairs) ↔ ∀ field ∈ fields, IsScalar field.value := by
  induction fields with
  | nil => exact ⟨fun _ _ h => absurd h not_mem_nil, fun _ => ⟨[], rfl⟩⟩
  | cons field fields ih =>
    rw [forall_mem_cons, ← ih, ← formField_ok_iff, mapM_cons]
    constructor
    · grind [except_bind_ok_iff]
    · rintro ⟨⟨pair, hpair⟩, rest, hrest⟩
      exact ⟨pair :: rest, by rw [hpair, hrest]; rfl⟩

theorem serializeForm_ok_iff {env : PayloadEnv} {v : Value} : (∃ bytes, serializeForm env v = .ok bytes) ↔
    ∃ fields, v = .record fields ∧ ∀ field ∈ fields, IsScalar field.value := by
  constructor
  · rintro ⟨bytes, h⟩
    unfold serializeForm at h
    split at h
    · rename_i fields
      obtain ⟨pairs, hpairs, -⟩ := except_bind_ok_iff.mp h
      exact ⟨fields, rfl, mapM_formField_ok_iff.mp ⟨pairs, hpairs⟩⟩
    · cases h
  · rintro ⟨fields, rfl, hfields⟩
    obtain ⟨pairs, hpairs⟩ := mapM_formField_ok_iff.mpr hfields
    exact ⟨_, by rw [serializeForm, hpairs]; rfl⟩

theorem serializePayload_ok_iff {env : PayloadEnv} {v : Value} {format : PayloadFormat} :
    (∃ body, serializePayload env v format = .ok body) ↔ Serialisable env v format := by
  have hbind : ∀ {α β : Type} {x : Except MizuError α} {f : α → β},
      (∃ b, (x >>= fun a => pure (f a)) = .ok b) ↔ ∃ a, x = .ok a := by
    intro α β x f
    cases x <;> simp [bind, Except.bind, pure, Except.pure]
  unfold serializePayload
  cases format with
  | json | yaml =>
    rw [if_neg (by decide), hbind]
    exact hbind.trans toJson_ok_iff
  | form =>
    rw [if_neg (by decide), hbind]
    exact serializeForm_ok_iff
  | text =>
    rw [if_neg (by decide), hbind]
    cases v <;> simp [serializePlain, Serialisable]
  | multipart =>
    rw [if_pos rfl]
    cases hrandom : env.random with
    | error e => simp [Serialisable, hrandom, bind, Except.bind]
    | ok raw =>
      refine (hbind.trans encodeMultipart_ok_iff).trans ?_
      simp [Serialisable, hrandom]

end Mizu
