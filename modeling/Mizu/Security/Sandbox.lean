import Mizu.Lib.UnixPath
import Mizu.Security.Quota

/-!
# The sandbox of a local document

A document on disk may reach the directory that it is in and what is below. `fileSandboxContains` compares
canonical paths; the paths themselves come from three places, which strip a URL's scheme in their own ways:
relative links, absolute `file://` targets and images. `Host.onDisk` is a host whose files are those of a
disk.

`contains_place`: what the sandbox contains lies below its directory.
-/

namespace Mizu

open UnixPath

theorem stripPrefix_self (p s : String) : stripPrefix p (p ++ s) = some s := by
  simp [stripPrefix, startsWith]

theorem stripPrefix_some {p s r : String} (h : stripPrefix p s = some r) : s = p ++ r := by
  unfold stripPrefix at h
  split at h
  · rename_i hstarts
    rw [startsWith, List.isPrefixOf_iff_prefix] at hstarts
    obtain ⟨rest, hrest⟩ := hstarts
    obtain rfl := Option.some.inj h
    rw [← hrest, List.drop_left, ← String.toList_inj, String.toList_append, String.toList_ofList, hrest]
  · cases h

/-- `strip_verbatim_prefix`. -/
def stripVerbatimPrefix (p : String) : String := (stripPrefix "\\\\?\\" p).getD p

/-- `normalize_path_components`. -/
def normalizePathComponents (p : String) : String := ofComponents (normalize [] (components p))

section Sandbox

variable (canonicalize : String → Option String)

/-- The path that the sandbox compares: one that leads nowhere is taken as it is written. -/
def sandboxPath (p : String) : String :=
  stripVerbatimPrefix ((canonicalize p).getD (normalizePathComponents p))

/-- `file_sandbox_contains`. -/
def fileSandboxContains (sandboxBase target : String) : Bool :=
  let canonBase := sandboxPath canonicalize sandboxBase
  let canonTarget := sandboxPath canonicalize target
  !canonBase.isEmpty && !canonTarget.isEmpty && UnixPath.startsWith canonTarget canonBase

/-- The path of a `file://` document, and the directory of its sandbox. -/
def documentPath (currentUrl : String) : String := (stripPrefix "file:///" currentUrl).getD currentUrl

def documentDir (currentUrl : String) : String := (parent (documentPath currentUrl)).getD "."

/-- The path that a relative link names; one that leads nowhere is taken as it is written. -/
def linkPath (currentUrl target : String) : String :=
  let resolved := join (documentDir currentUrl) target
  (canonicalize resolved).getD resolved

/-- `str::replace`, of the separator on Windows. -/
def forwardSlashes (p : String) : String :=
  String.ofList (p.toList.map fun c => if c = '\\' then '/' else c)

theorem forwardSlashes_eq {p : String} (h : '\\' ∉ p.toList) : forwardSlashes p = p := by
  have hsame : p.toList.map (fun c => if c = '\\' then '/' else c) = p.toList.map id :=
    List.map_congr_left fun c hc => if_neg fun heq : c = '\\' => h (heq ▸ hc)
  rw [forwardSlashes, hsame, List.map_id, String.ofList_toList]

/-- The path of a relative link: it is checked, and then its backslashes become slashes. -/
def relativeLinkPath (currentUrl target : String) : Option String :=
  if fileSandboxContains canonicalize (documentDir currentUrl) (join (documentDir currentUrl) target) then
    some (forwardSlashes (linkPath canonicalize currentUrl target))
  else none

/-- The path of an absolute target, with two or three slashes after the scheme. -/
def fileUrlPath (url : String) : Option String := (stripPrefix "file:///" url).orElse fun _ => stripPrefix "file://" url

/-- Whether an absolute target is in the sandbox. -/
def absoluteTargetContained (currentUrl target : String) : Bool :=
  fileSandboxContains canonicalize (documentDir currentUrl) ((fileUrlPath target).getD target)

/-- `chrome_url_to_file_sandbox_base`. -/
def chromeUrlToFileSandboxBase (chromeUrl : String) : Option String :=
  (stripPrefix "file:///" chromeUrl).bind parent

/-- The error of a local read: one of its own, or one of the operating system. -/
inductive FetchFileError where
  | mizu (e : MizuError)
  | io
  deriving DecidableEq

/-- `handle_fetch_file`, up to the path that it reads. -/
def fetchFilePath (url : String) (sandboxBase : Option String) : Except FetchFileError String :=
  match fileUrlPath url with
  | none => .error (.mizu (.network ("Malformed file:// URL: " ++ url)))
  | some target =>
    match sandboxBase with
    | none =>
      .error (.mizu (.securityViolation "file:// access denied: no sandbox base configured for this origin"))
    | some base =>
      let escapes (what : String) : FetchFileError :=
        .mizu (.securityViolation ("file:// access denied: " ++ what ++ "' escapes sandbox base '" ++ base ++ "'"))
      if !fileSandboxContains canonicalize base target then .error (escapes ("'" ++ target))
      else
        match canonicalize target with
        | none => .error .io
        | some resolved =>
          if !fileSandboxContains canonicalize base resolved then .error (escapes ("resolved path '" ++ resolved))
          else .ok resolved

/-- A directory that is not found is written without the prefix of Windows. -/
def NamedPlainly (base : String) : Prop :=
  canonicalize base = none → startsWith "\\\\?\\" (normalizePathComponents base) = false

/-- `handle_fetch_file`; `readFile` reads the bytes of a file. -/
def handleFetchFile (readFile : String → Option (List UInt8)) (url : String) (sandboxBase : Option String) :
    Except FetchFileError (List UInt8) :=
  match fetchFilePath canonicalize url sandboxBase with
  | .error e => .error e
  | .ok resolved =>
    match readFile resolved with
    | none => .error .io
    | some bytes => .ok bytes

end Sandbox

/-- The host on a disk. -/
def Host.onDisk (host : Host) (disk : Disk) : Host :=
  { host with
    canonicalize := disk.canonicalize
    readToString := disk.readToString
    relativePath := relativeLinkPath disk.canonicalize
    inSandbox := absoluteTargetContained disk.canonicalize
    parentDir := parent }

@[simp] theorem Host.onDisk_relativePath (host : Host) (disk : Disk) :
    (host.onDisk disk).relativePath = relativeLinkPath disk.canonicalize := by
  rw [Host.onDisk]

@[simp] theorem Host.onDisk_inSandbox (host : Host) (disk : Disk) :
    (host.onDisk disk).inSandbox = absoluteTargetContained disk.canonicalize := by
  rw [Host.onDisk]

@[simp] theorem Host.onDisk_parentDir (host : Host) (disk : Disk) : (host.onDisk disk).parentDir = parent := by
  rw [Host.onDisk]

section OnDisk

variable {disk : Disk} {base target : String}

theorem stripVerbatimPrefix_ofNames (names : List String) :
    stripVerbatimPrefix (ofNames names) = ofNames names := by
  simp [stripVerbatimPrefix, stripPrefix, startsWith, ofNames]

theorem sandboxPath_of_canonicalize {q : String} (h : disk.canonicalize target = some q) :
    sandboxPath disk.canonicalize target = ofNames (place disk.cwd target) := by
  rw [sandboxPath, h, Option.getD_some, Disk.canonicalize_eq h, stripVerbatimPrefix_ofNames]

theorem sandboxPath_of_missing (hplain : NamedPlainly disk.canonicalize base) (h : disk.canonicalize base = none) :
    sandboxPath disk.canonicalize base = normalizePathComponents base := by
  have hstrip : stripPrefix "\\\\?\\" (normalizePathComponents base) = none := by
    rw [stripPrefix, hplain h, if_neg Bool.false_ne_true]
  rw [sandboxPath, h, Option.getD_none, stripVerbatimPrefix, hstrip, Option.getD_none]

/-- What the sandbox of a directory contains lies at or below it, whether the directory is there or not. -/
theorem contains_place {q : String} (hplain : NamedPlainly disk.canonicalize base)
    (htarget : disk.canonicalize target = some q)
    (h : fileSandboxContains disk.canonicalize base target = true) :
    place disk.cwd base <+: place disk.cwd target := by
  unfold fileSandboxContains at h
  simp only [Bool.and_eq_true, Bool.not_eq_true', sandboxPath_of_canonicalize htarget] at h
  obtain ⟨⟨hne, -⟩, hstarts⟩ := h
  have hnames := isName_place (p := target) disk.cwd_names
  cases hbase : disk.canonicalize base with
  | some c => grind [sandboxPath_of_canonicalize, startsWith_ofNames, isName_place, disk.cwd_names]
  | none =>
    rw [sandboxPath_of_missing hplain hbase] at hstarts hne
    by_cases habsolute : base.toList.head? = some '/'
    · obtain hnothing | hplace := normalize_absolute disk.cwd habsolute
      · rw [normalizePathComponents, hnothing] at hne
        cases hne
      · grind [normalizePathComponents, startsWith_ofNames, isName_place, disk.cwd_names]
    · rw [normalizePathComponents, startsWith_relative hnames _ (normalize_relative habsolute)] at hstarts
      · cases hstarts
      · rintro hnothing
        rw [normalizePathComponents, hnothing] at hne
        cases hne

end OnDisk

end Mizu
