import Mizu.Ipc.Events
import Mizu.Network.Multipart
import Mizu.WorkerHost.Confinement

/-!
# Uploading a file

A file that the user selected in a form goes to the worker as a token, and the window is to put the file back
when it encodes the multipart body that the worker asks for. There is no table of tokens: a token is rebuilt as
`null`, on the way to the worker as on the way back.

* `value_fileFree`: nothing that comes over the wire is a file, so no answer makes the window read one.
* `upload_carried_iff`: a selected file is uploaded exactly if there is none to upload.
-/

namespace Mizu

open Exec List Option

/-! ## What is read -/

section Read

variable (toVec : JsonValue → List UInt8) (files files' : Files) (boundary : String)

/-- The files that the encoding of a record opens. -/
def openedPaths (fields : List (RecordField Value)) : List String :=
  fields.filterMap fun field =>
    match field.value with
    | .fileHandle _ handle => some handle.path
    | _ => none

end Read

/-! ## Nothing that comes over the wire is a file -/

namespace Rehydrate

mutual

theorem value_fileFree : ∀ (w : WireValue) (depth : Nat) {v : Value}, value w depth = .ok v → v.FileFree
  | .list items, depth, v, h => by
    unfold value at h
    split at h
    · cases h
    · obtain ⟨vs, hvs, h⟩ := except_of_bind_ok h
      obtain rfl := Except.ok.inj h
      exact Value.fileFreeList_iff.mpr (values_fileFree items (depth + 1) hvs)
  | .record fields, depth, v, h => by
    unfold value at h
    split at h
    · cases h
    · obtain ⟨ps, hps, h⟩ := except_of_bind_ok h
      obtain rfl := Except.ok.inj h
      obtain ⟨fs, hfs, -, -, hmem⟩ := Value.recordFromUnsorted_spec ps
      rw [hfs]
      exact Value.fileFreeFields_iff.mpr fun f hf => pairs_fileFree fields (depth + 1) hps _ (hmem f hf)
  | .null, depth, v, h | .bool _, depth, v, h | .int _, depth, v, h | .decimal _, depth, v, h
  | .str _, depth, v, h | .fileHandleToken _ _, depth, v, h => by
    unfold value at h
    split at h
    · cases h
    · obtain rfl := Except.ok.inj h
      trivial

theorem values_fileFree : ∀ (ws : List WireValue) (depth : Nat) {vs : List Value},
    values ws depth = .ok vs → ∀ v ∈ vs, v.FileFree
  | [], depth, vs, h => by
    obtain rfl := Except.ok.inj h
    exact forall_mem_nil _
  | w :: ws, depth, vs, h => by
    obtain ⟨v, hv, h⟩ := except_of_bind_ok h
    obtain ⟨rest, hrest, h⟩ := except_of_bind_ok h
    obtain rfl := Except.ok.inj h
    rw [forall_mem_cons]
    exact ⟨value_fileFree w depth hv, values_fileFree ws depth hrest⟩

theorem pairs_fileFree : ∀ (fs : List WireRecordField) (depth : Nat) {ps : List (String × Value)},
    pairs fs depth = .ok ps → ∀ p ∈ ps, p.2.FileFree
  | [], depth, ps, h => by
    obtain rfl := Except.ok.inj h
    exact forall_mem_nil _
  | .mk key _ w :: fs, depth, ps, h => by
    obtain ⟨v, hv, h⟩ := except_of_bind_ok h
    obtain ⟨rest, hrest, h⟩ := except_of_bind_ok h
    obtain rfl := Except.ok.inj h
    rw [forall_mem_cons]
    exact ⟨value_fileFree w depth hv, pairs_fileFree fs depth hrest⟩

end

theorem payload_fileFree {p : Option WireValue} {v : Option Value} (h : payload p = .ok v) :
    ∀ u, v = some u → u.FileFree := by
  rintro u rfl
  cases p with
  | none => cases h
  | some w =>
    obtain ⟨u', hu', h⟩ := except_of_bind_ok h
    cases h
    exact value_fileFree w 0 hu'

end Rehydrate

/-! ## Calls with a multipart body -/

/-- The record of a call with a multipart body. -/
def RuntimeAction.upload : RuntimeAction → Option (List (RecordField Value))
  | networkCall _ _ (some (.record fields)) _ _ .multipart _
  | resolvedCall _ _ (some (.record fields)) _ .multipart _ => some fields
  | _ => Option.none

/-- The payload of a call. -/
def RuntimeAction.body : RuntimeAction → Option Value
  | networkCall _ _ payload _ _ _ _ | resolvedCall _ _ payload _ _ _ => payload
  | _ => Option.none

variable {fields : List (RecordField Value)} {a : RuntimeAction}

theorem RuntimeAction.upload_body (h : a.upload = some fields) : a.body = some (.record fields) := by
  unfold upload at h
  split at h
  · obtain rfl := some.inj h
    rfl
  · obtain rfl := some.inj h
    rfl
  · cases h

theorem Rehydrate.runtimeAction_body {w : WireRuntimeAction} {b : RuntimeAction}
    (h : Rehydrate.runtimeAction w = .ok b) : ∀ v, b.body = some v → v.FileFree := by
  cases w with
  | networkCall | resolvedCall =>
    obtain ⟨v, hv, h⟩ := except_of_bind_ok h
    obtain ⟨hs, -, h⟩ := except_of_bind_ok h
    obtain rfl := Except.ok.inj h
    exact payload_fileFree hv
  | storeLocal key w =>
    obtain ⟨v, -, h⟩ := except_of_bind_ok h
    obtain rfl := Except.ok.inj h
    exact nofun
  | _ =>
    obtain rfl := Except.ok.inj h
    exact nofun

/-- The broker sends the payload that it was given, or none. -/
theorem authorizeAction_body {b a : RuntimeAction} {documentDomain : String} {registry : UrlRegistry}
    {agency : EventAgency} (h : authorizeAction b documentDomain registry agency = .ok a) :
    ∀ v, a.body = some v → b.body = some v := by
  cases b with
  | networkCall method sym payload pathParam target format headers =>
    obtain ⟨ep, url, -, -, rfl⟩ := authorize_networkCall.mp h
    exact fun _ hv => hv
  | downloadAlias sym =>
    obtain ⟨ep, -, h⟩ := except_of_bind_ok h
    obtain rfl := Except.ok.inj h
    simp [RuntimeAction.body]
  | navigate url => grind [authorizeAction]
  | resolvedCall | downloadMedia => cases h
  | _ =>
    obtain rfl := Except.ok.inj h
    simp [RuntimeAction.body]

/-- No call that reaches the window names a file, whatever the worker sent. -/
theorem judge_opens_nothing {debug : WireWorkerError → String} {agency : EventAgency} {registry : UrlRegistry}
    {documentDomain : String} {envelope : WireWorkerEnvelope} {response : WorkerResponse}
    (h : judge debug agency registry documentDomain envelope = some (.ok response))
    (ha : a ∈ response.runtimeActions)
    (hupload : a.upload = some fields) : ∀ field ∈ fields, field.value.FileFree := by
  cases envelope with
  | ok wire =>
    rw [judge] at h
    split at h
    · cases h
    · rename_i sent hsent
      obtain rfl := Except.ok.inj (some.inj h)
      obtain ⟨b, hb, hauth⟩ := mem_authorizeAll.mp ha
      obtain ⟨w, -, hwb⟩ := (except_mapM_mem (workerResponse_actions hsent)).1 b hb
      have hfree := Rehydrate.runtimeAction_body hwb _
        (authorizeAction_body hauth _ (RuntimeAction.upload_body hupload))
      exact Value.fileFreeFields_iff.mp hfree
  | _ => cases h

theorem openedPaths_fileFree (h : ∀ field ∈ fields, field.value.FileFree) : openedPaths fields = [] := by
  rw [openedPaths, filterMap_eq_nil_iff]
  intro field hfield
  have hfree := h field hfield
  cases hv : field.value with
  | fileHandle arc handle =>
    rw [hv] at hfree
    exact hfree.elim
  | _ => rfl

/-! ## From the form to the body -/

namespace Upload

section Form

variable (toVec : JsonValue → List UInt8) (files : Files) (boundary : String) (platform : Platform)
  (order : (p : ReloadPayload) → p.Iteration) (debug : WireWorkerError → String) (registry : UrlRegistry)
  (documentDomain : String) (t : TabSession) (submitterNodeId : Nat) (form : List (String × Value))

/-- What the submit action asks for, run on the values of the form themselves. -/
def requested : List RuntimeAction :=
  match (t.applyEvent platform (.submitForm submitterNodeId form)).1 with
  | some (.ok response) => response.runtimeActions
  | _ => []

/-- What the window executes once the event was sent to the worker and its answer was received. -/
def executed : List RuntimeAction :=
  let event := UiEvent.submitForm submitterNodeId form
  match judge debug (.of event) registry documentDomain (t.serve platform (event.toWire order)).1 with
  | some (.ok response) => response.runtimeActions
  | _ => []

/-- The field of a record holds a file that the user selected in the form. -/
def HoldsSelection (field : RecordField Value) : Prop :=
  ∃ arc handle, field.value = .fileHandle arc handle ∧ ∃ name, (name, .fileHandle arc handle) ∈ form

/-- One of the bodies that is sent for `actions` has the part. -/
def Uploaded (actions : List RuntimeAction) (part : FormPart) : Prop :=
  ∃ a ∈ actions, ∃ fields, a.upload = some fields ∧ ∃ body parts,
    encodeMultipart toVec files boundary (.record fields) = .ok body ∧
      fields.mapM (partOf toVec files) = some parts ∧ part ∈ parts

/-- What the user picked is uploaded, and nothing else is read. -/
structure UploadsSelection : Prop where
  /-- For each field that holds a selected file the body has the part of that file. -/
  carried : ∀ a ∈ requested platform t submitterNodeId form, ∀ fields, a.upload = some fields →
    ∀ field ∈ fields, HoldsSelection form field → ∀ part, partOf toVec files field = some part →
      Uploaded toVec files boundary
        (executed platform order debug registry documentDomain t submitterNodeId form) part
  /-- Whatever frame the worker sends, whatever the events, the table and the domain are. -/
  confined : ∀ (policy : TabPolicy) (envelope : WireWorkerEnvelope) (response : WorkerResponse),
    (readerStep debug policy envelope).2 = some (.ok response) → ∀ a ∈ response.runtimeActions,
      ∀ fields, a.upload = some fields → ∀ path ∈ openedPaths fields,
        ∃ name arc handle, (name, Value.fileHandle arc handle) ∈ form ∧ handle.path = path

variable {toVec files boundary debug} {part : FormPart}

/-- Parts of fields without files are not parts of files. -/
theorem fileName_of_fileFree {field : RecordField Value} (hfree : field.value.FileFree)
    (h : partOf toVec files field = some part) : part.fileName = none := by
  unfold partOf at h
  cases hv : field.value with
  | fileHandle arc handle =>
    rw [hv] at hfree
    exact hfree.elim
  | list | record =>
    rw [hv] at h
    obtain ⟨json, -, rfl⟩ := map_eq_some_iff.mp h
    rfl
  | _ =>
    rw [hv] at h
    obtain rfl := some.inj h
    rfl

theorem fileName_of_holds {field : RecordField Value} (hholds : HoldsSelection form field)
    (h : partOf toVec files field = some part) : part.fileName ≠ none := by
  obtain ⟨arc, handle, hv, -⟩ := hholds
  unfold partOf at h
  rw [hv] at h
  obtain ⟨content, -, rfl⟩ := map_eq_some_iff.mp h
  exact nofun

/-- No body that is sent for the answer has the part of a file. -/
theorem executed_uploads_no_file (h : Uploaded toVec files boundary
      (executed platform order debug registry documentDomain t submitterNodeId form) part) :
    part.fileName = none := by
  obtain ⟨a, ha, fields, hupload, body, parts, -, hparts, hpart⟩ := h
  unfold executed at ha
  dsimp only at ha
  split at ha
  · rename_i response hjudge
    have hfree := judge_opens_nothing hjudge ha hupload
    have hall := (forall_mapM hparts fun part => part.fileName = none).mpr fun field hfield part hpart =>
      fileName_of_fileFree (hfree field hfield) hpart
    exact hall part hpart
  · exact absurd ha not_mem_nil

/-- No frame of a worker makes the window open a file. -/
theorem readerStep_opens_nothing {policy : TabPolicy} {envelope : WireWorkerEnvelope} {response : WorkerResponse}
    (h : (readerStep debug policy envelope).2 = some (.ok response))
    (ha : a ∈ response.runtimeActions) (hupload : a.upload = some fields) : openedPaths fields = [] := by
  grind [readerStep, openedPaths_fileFree, judge_opens_nothing]

variable (toVec files boundary debug)

/-- The files that the user selected are uploaded exactly if the submit action uploads none that can be
read. -/
theorem upload_carried_iff :
    UploadsSelection toVec files boundary platform order debug registry documentDomain t submitterNodeId form ↔
      ∀ a ∈ requested platform t submitterNodeId form, ∀ fields, a.upload = some fields →
        ∀ field ∈ fields, HoldsSelection form field → partOf toVec files field = none := by
  constructor
  · intro h a ha fields hupload field hfield hholds
    by_contra hreadable
    obtain ⟨part, hpart⟩ := ne_none_iff_exists'.mp hreadable
    have huploaded := h.carried a ha fields hupload field hfield hholds part hpart
    have hnone := executed_uploads_no_file platform order registry documentDomain t submitterNodeId form huploaded
    exact fileName_of_holds form hholds hpart hnone
  · intro h
    refine ⟨fun a ha fields hupload field hfield hholds part hpart => ?_, ?_⟩
    · rw [h a ha fields hupload field hfield hholds] at hpart
      cases hpart
    · intro policy envelope response hread a ha fields hupload path hpath
      rw [readerStep_opens_nothing hread ha hupload] at hpath
      cases hpath

end Form

section Examples

open TabSession

def formTree : ExprTree where
  arena := { nodes := [.var ⟨0⟩], argsPool := [], nodes_valid := firstVar_valid, pool_valid := emptyPool_valid }
  root := 0
  root_valid := Nat.zero_lt_one

/-- A document with a form that is posted as it was filled in. -/
def formDocument : ReloadPayload where
  logicFns := ∅
  clickActions := ∅
  submitActions := Finmap.singleton 0 (.networkCall .post ⟨2⟩ (some formTree) none "reply" .multipart [])
  rootTimerActions := []
  interner := .ofNames ["$form", "reply", "upload"]
  initialVariables := []
  urlRegistry := Finmap.singleton ⟨2⟩ ⟨.api, "/upload"⟩
  documentDomain := "a.mizu"
  computedBindings := []

/-- The worker's session once the document is loaded: there are no functions to evaluate. -/
def formTab : TabSession := { new with deferAliasResolution := true }.loaded formDocument

/-- The user picked a file. -/
def catForm : List (String × Value) := [("avatar", .fileHandle 0 ⟨"/tmp/cat.png", "cat.png"⟩)]

/-- The record that the submit action posts. -/
def catRecord : List (RecordField Value) :=
  [⟨"avatar", hashField "avatar", .fileHandle 0 ⟨"/tmp/cat.png", "cat.png"⟩⟩]

/-- What the window posts instead has `null` in its field. -/
example (order : (p : ReloadPayload) → p.Iteration) :
    executed .plain order (fun _ => "") formDocument.urlRegistry "a.mizu" formTab 0 catForm =
      [.resolvedCall "POST" "mizu://a.mizu/upload" (some (.record [⟨"avatar", hashField "avatar", .null⟩])) ⟨1⟩
        .multipart []] := rfl

/-- A picked file that can be read is not uploaded. -/
theorem selection_lost :
    ¬∀ (toVec : JsonValue → List UInt8) (files : Files) (boundary : String) (platform : Platform)
      (order : (p : ReloadPayload) → p.Iteration) (debug : WireWorkerError → String) (registry : UrlRegistry)
      (documentDomain : String) (t : TabSession) (submitterNodeId : Nat) (form : List (String × Value)),
        UploadsSelection toVec files boundary platform order debug registry documentDomain t submitterNodeId
          form := by
  intro h
  obtain ⟨order⟩ : Nonempty ((p : ReloadPayload) → p.Iteration) := ⟨fun p => (iteration_exists p).some⟩
  have hcarried := (h (fun _ => bytesOf "[]") onlyCat "mizu00" .plain order (fun _ => "")
    formDocument.urlRegistry "a.mizu" formTab 0 catForm).carried
  have hrequested : requested .plain formTab 0 catForm =
      [.networkCall .post 2 (some (.record catRecord)) none ⟨1⟩ .multipart []] := rfl
  rw [hrequested] at hcarried
  have huploaded := hcarried _ mem_cons_self catRecord rfl _ mem_cons_self
    ⟨0, _, rfl, "avatar", mem_cons_self⟩ _ rfl
  have hnone := executed_uploads_no_file .plain order formDocument.urlRegistry "a.mizu" formTab 0 catForm huploaded
  cases hnone

end Examples

end Upload

end Mizu
