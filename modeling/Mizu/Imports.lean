import Mizu.Lib.UnixPath
import Mizu.Logic.Lexer
import Mizu.Network.Multipart
import Mizu.SourceLines

/-!
# Imports

A document on disk may import files of logic and style. What the file system answers is a parameter, with all its links.

* `splitSource_confined`: only the contents of files below the directory of the document can matter to the result.
* `splitSource_imports`: a block has its lines of the source, and those of a file where its directive stands.
-/

namespace Mizu

open List

/-- The answers of the file system; an error is the text that is shown. -/
structure FileSystem where
  canonicalize : String → Except String String
  readToString : String → Except String String

inductive ImportTarget where
  | logic
  | style
  deriving DecidableEq, Repr

def ImportTarget.block : ImportTarget → ActiveBlock
  | logic => .logic
  | style => .style

/-- The path of an `import "…"` line. -/
def parseImportPath (trimmed : List Char) : Except MizuError String :=
  let directive := String.ofList trimmed
  match (stripPrefix "import " directive).or (stripPrefix "include " directive) with
  | none =>
    .error (.parseError ("malformed import directive `" ++ directive ++
      "`; expected `import \"…\"` or `include \"…\"`"))
  | some rest =>
    let afterKeyword := trimChars rest.toList
    if afterKeyword.length < 2 ∨ afterKeyword.head? ≠ some '"' ∨ afterKeyword.getLast? ≠ some '"' then
      .error (.parseError ("malformed import directive `" ++ directive ++
        "`; the path must be a double-quoted string, e.g. `import \"file.mss\"`"))
    else
      let path := afterKeyword.tail.dropLast
      if path.isEmpty then .error (.parseError "import path must not be empty") else .ok (String.ofList path)

def resolveImportTarget (importPath : String) : Except MizuError ImportTarget :=
  match pathExtension importPath with
  | none =>
    .error (.parseError ("import `" ++ importPath ++ "` has no file extension; only `.mlg` and `.mss` are allowed"))
  | some "mlg" => .ok .logic
  | some "mss" => .ok .style
  | some other =>
    .error (.parseError ("import extension `." ++ other ++
      "` is not permitted; only `.mlg` (logic) and `.mss` (style) are allowed"))

/-- A line of an imported file that is an import itself, or tries to be. -/
def isNestedImport (rawLine : List Char) : Bool :=
  let line := stripComment rawLine
  let trimmed := trimChars line
  line.head? ≠ some ' ' && line.head? ≠ some '\t' &&
    (trimmed = "import".toList || trimmed = "include".toList || isImportDirective trimmed)

def checkNoNestedImports (rawContent : String) : Except MizuError Unit :=
  if (lines rawContent.toList).any isNestedImport then
    .error (.parseError ("nested imports are strictly forbidden: imported `.mlg`/`.mss` files cannot themselves " ++
      "contain `import` directives"))
  else .ok ()

/-- The lines of an imported file that are kept. -/
def importedLines (rawContent : String) : List (List Char) :=
  ((lines rawContent.toList).map content).filter fun line => !(trimChars line).isEmpty

namespace ParsedSource

/-- `push_line` to the buffer of the target. -/
def pushTo (target : ImportTarget) (p : ParsedSource) (line : List Char) : ParsedSource :=
  match target with
  | .logic => { p with logicBlock := p.logicBlock ++ (String.ofList line ++ "\n") }
  | .style => { p with styleBlock := p.styleBlock ++ (String.ofList line ++ "\n") }

end ParsedSource

section Import

variable (files : FileSystem) (currentDir : String)

/-- `process_import`. -/
def processImport (number : Nat) (trimmedLine : List Char) (parsed : ParsedSource) : Except MizuError ParsedSource := do
  let fail {α : Type} (message : String) : Except MizuError α :=
    .error (.parseError ("line " ++ toString number ++ ": " ++ message))
  let importPath ← (parseImportPath trimmedLine).tryCatch fun e => fail e.display
  let target ← (resolveImportTarget importPath).tryCatch fun e => fail e.display
  let fullPath := UnixPath.join currentDir importPath
  match files.canonicalize currentDir with
  | .error e => fail ("cannot canonicalize import base directory: " ++ e)
  | .ok canonicalDir =>
    match files.canonicalize fullPath with
    | .error e => fail ("cannot read import `" ++ importPath ++ "`: " ++ e)
    | .ok canonicalFull =>
      if ¬UnixPath.startsWith canonicalFull canonicalDir then
        fail ("import `" ++ importPath ++ "` escapes the document directory; path traversal outside the document " ++
          "folder is not permitted")
      else
        match files.readToString canonicalFull with
        | .error e => fail ("cannot read import `" ++ importPath ++ "`: " ++ e)
        | .ok rawContent =>
          checkNoNestedImports rawContent
          return (importedLines rawContent).foldl (.pushTo target) parsed

/-- The files whose text the document may take in. -/
def Importable (p : String) : Prop :=
  ∃ path dir, (pathExtension path = some "mlg" ∨ pathExtension path = some "mss") ∧
    files.canonicalize currentDir = .ok dir ∧ files.canonicalize (UnixPath.join currentDir path) = .ok p ∧
    UnixPath.startsWith p dir = true

/-- What a directive contributes to a block. -/
def importedBy (l : List Char) (b : ActiveBlock) : List (List Char) :=
  match parseImportPath (content l) with
  | .error _ => []
  | .ok path =>
    match resolveImportTarget path, (files.canonicalize (UnixPath.join currentDir path)).bind files.readToString with
    | .ok target, .ok raw => if b = target.block then importedLines raw else []
    | _, _ => []

/-- The lines of a block: each indented line of the source in its section, blank in the others, and the lines of a file
where its directive stands. -/
def expandedLines (b : ActiveBlock) (active : Option ActiveBlock) : List (List Char) → List (List Char)
  | [] => []
  | l :: ls =>
    if isRootImport l then importedBy files currentDir l b ++ expandedLines b active ls
    else if isContentLine l then lineIn b (active, content l) :: expandedLines b active ls
    else expandedLines b ((header l).or active) ls

end Import

section Results

variable {files files' : FileSystem} {currentDir : String} {number : Nat} {l : List Char} {p p' : ParsedSource}

theorem pathExtension_of_target {path : String} {target : ImportTarget} (h : resolveImportTarget path = .ok target) :
    pathExtension path = some "mlg" ∨ pathExtension path = some "mss" := by
  unfold resolveImportTarget at h
  split at h
  · cases h
  · exact .inl ‹_›
  · exact .inr ‹_›
  · cases h

theorem processImport_ok (h : processImport files currentDir number l p = .ok p') :
    ∃ path target full raw, parseImportPath l = .ok path ∧ resolveImportTarget path = .ok target ∧
      files.canonicalize (UnixPath.join currentDir path) = .ok full ∧ files.readToString full = .ok raw ∧
      Importable files currentDir full ∧ p' = (importedLines raw).foldl (.pushTo target) p := by
  unfold processImport at h
  cases hpath : parseImportPath l with
  | error e => rw [hpath] at h; cases h
  | ok path =>
    cases htarget : resolveImportTarget path with
    | error e => rw [hpath] at h; simp [Except.tryCatch, htarget, bind, Except.bind] at h
    | ok target =>
      simp only [hpath, htarget, Except.tryCatch, bind, Except.bind] at h
      split at h
      · cases h
      rename_i dir hdir
      split at h
      · cases h
      rename_i full hfull
      split at h
      · cases h
      rename_i hbelow
      split at h
      · cases h
      rename_i raw hraw
      unfold checkNoNestedImports at h
      split at h
      · cases h
      · cases h
        exact ⟨path, target, full, raw, rfl, htarget, hfull, hraw,
          ⟨path, dir, pathExtension_of_target htarget, hdir, hfull, by simpa using hbelow⟩, rfl⟩

/-- Nothing but what the importable files contain matters. -/
theorem processImport_confined (hpaths : files.canonicalize = files'.canonicalize)
    (hfiles : ∀ f, Importable files currentDir f → files.readToString f = files'.readToString f) :
    processImport files currentDir = processImport files' currentDir := by
  funext number l p
  unfold processImport
  cases hpath : parseImportPath l with
  | error e => rfl
  | ok path =>
    cases htarget : resolveImportTarget path with
    | error e => simp [Except.tryCatch, htarget, bind, Except.bind]
    | ok target =>
      simp only [htarget, Except.tryCatch, bind, Except.bind, ← hpaths]
      split
      · rfl
      rename_i dir hdir
      split
      · rfl
      rename_i full hfull
      split
      · rfl
      rename_i hbelow
      rw [hfiles full ⟨path, dir, pathExtension_of_target htarget, hdir, hfull, by simpa using hbelow⟩]

theorem block_pushTo (target : ImportTarget) (ls : List (List Char)) (p : ParsedSource) (b : ActiveBlock) :
    ((ls.foldl (.pushTo target) p).block b).toList =
      (p.block b).toList ++ (if b = target.block then ls else []).flatMap (· ++ ['\n']) := by
  induction ls generalizing p with
  | nil => simp
  | cons l ls ih =>
    rw [foldl_cons, ih]
    cases target <;> cases b <;> simp [ParsedSource.pushTo, ParsedSource.block, ImportTarget.block]

theorem splitLinesWithOrigin_blocks {active : Option ActiveBlock} {ls : List (List Char)}
    (h : splitLinesWithOrigin (processImport files currentDir) .localFile number active p ls = .ok p') (b : ActiveBlock) :
    (p'.block b).toList =
      (p.block b).toList ++ (expandedLines files currentDir b active ls).flatMap (· ++ ['\n']) := by
  induction ls generalizing number active p with
  | nil =>
    obtain rfl := Except.ok.inj h
    simp [expandedLines]
  | cons l ls ih =>
    rw [splitLinesWithOrigin, splitLineWithOrigin] at h
    rw [expandedLines]
    by_cases himport : isRootImport l
    · rw [if_pos himport] at h ⊢
      cases hprocess : processImport files currentDir number (content l) p with
      | error e =>
        rw [hprocess] at h
        cases h
      | ok q =>
        rw [hprocess] at h
        obtain ⟨path, target, full, raw, hpath, htarget, hfull, hraw, -, rfl⟩ := processImport_ok hprocess
        have hby : importedBy files currentDir l b = if b = target.block then importedLines raw else [] := by
          simp only [importedBy, hpath, htarget, hfull, Except.bind, hraw]
        rw [ih h, block_pushTo, hby, flatMap_append, append_assoc]
    · rw [if_neg himport] at h ⊢
      cases hline : splitLine number l active p with
      | error e =>
        rw [hline] at h
        cases h
      | ok r =>
        obtain ⟨active', q⟩ := r
        rw [hline] at h
        have hrest := ih h
        cases splitLine_accepted hline with
        | blank hnil =>
          have hcontent : ¬isContentLine l := fun hc => content_ne_nil hc hnil
          rw [if_neg hcontent, header_of_blank hnil, Option.none_or, hrest]
        | content hcontent s hactive =>
          rw [if_pos hcontent, hrest, ParsedSource.block_push, hactive]
          simp only [String.toList_append, append_assoc, flatMap_cons, lineIn, Option.some.injEq, eq_comm (a := s)]
          split <;> simp
        | header hne hroot s hheader => rw [if_neg hroot, hheader, Option.some_or, hrest]

/-- A kept line is a content, or empty. -/
theorem expandedLines_plain {active : Option ActiveBlock} {ls : List (List Char)} {b : ActiveBlock} {line : List Char}
    (h : line ∈ expandedLines files currentDir b active ls) (hls : ∀ l ∈ ls, '\n' ∉ l) :
    '\n' ∉ line ∧ line.getLast? ≠ some '\r' := by
  have hplain {m : List Char} (hm : '\n' ∉ m) : '\n' ∉ content m ∧ (content m).getLast? ≠ some '\r' :=
    ⟨fun hbreak => hm ((content_isPrefix m).subset hbreak), fun hreturn => by cases content_ends m '\r' hreturn⟩
  induction ls generalizing active with
  | nil => cases h
  | cons l ls ih =>
    obtain ⟨hl, hrest⟩ := forall_mem_cons.mp hls
    rw [expandedLines] at h
    split at h
    · rcases mem_append.mp h with h | h
      · unfold importedBy at h
        split at h
        · cases h
        split at h
        · split at h
          · obtain ⟨m, hm, rfl⟩ := mem_map.mp (mem_filter.mp h).1
            exact hplain (noBreak_of_mem_lines hm)
          · cases h
        · cases h
      · exact ih h hrest
    split at h
    · rcases mem_cons.mp h with rfl | h
      · unfold lineIn
        split
        · exact hplain hl
        · simp
      · exact ih h hrest
    · exact ih h hrest

/-- The blocks of an accepted document on disk are what its lines and its imports make of them, in order. -/
theorem splitSource_imports {source : String}
    (h : splitSourceWithOrigin (processImport files currentDir) .localFile source = .ok p) (b : ActiveBlock) :
    p.blockLines b = expandedLines files currentDir b none (lines source.toList) := by
  have hblock := splitLinesWithOrigin_blocks h b
  have hempty : (ParsedSource.empty.block b).toList = [] := by cases b <;> rfl
  rw [hempty, nil_append] at hblock
  rw [ParsedSource.blockLines, hblock]
  exact lines_terminated fun l hl => expandedLines_plain hl fun _ => noBreak_of_mem_lines

/-- Two file systems that resolve paths alike and have the same importable files give the same document. -/
theorem splitSource_confined (hpaths : files.canonicalize = files'.canonicalize)
    (hfiles : ∀ f, Importable files currentDir f → files.readToString f = files'.readToString f) (source : String) :
    splitSourceWithOrigin (processImport files currentDir) .localFile source =
      splitSourceWithOrigin (processImport files' currentDir) .localFile source := by
  rw [processImport_confined hpaths hfiles]

end Results

/-! ## A directory with one file -/

def sampleFiles : FileSystem where
  canonicalize := .ok
  readToString p := if p = "/d/a.mlg" then .ok "f() : 1\n" else .error "not found"

/-- The same directory beside a file that is not in it. -/
def secretFiles : FileSystem where
  canonicalize := .ok
  readToString p := if UnixPath.startsWith p "/d" then sampleFiles.readToString p else .ok "secret"

def sampleSource : String := "import \"a.mlg\"\nlayout\n doc\n"

theorem sampleSource_split : splitSourceWithOrigin (processImport sampleFiles "/d") .localFile sampleSource =
    .ok ⟨"f() : 1\n\n", "\n", " doc\n", "\n"⟩ := by decide +kernel

theorem splitSource_imports_sample : (⟨"f() : 1\n\n", "\n", " doc\n", "\n"⟩ : ParsedSource).blockLines .logic =
    expandedLines sampleFiles "/d" .logic none (lines sampleSource.toList) :=
  splitSource_imports sampleSource_split .logic

theorem splitSource_confined_sample : splitSourceWithOrigin (processImport sampleFiles "/d") .localFile sampleSource =
    splitSourceWithOrigin (processImport secretFiles "/d") .localFile sampleSource := by
  refine @splitSource_confined sampleFiles secretFiles "/d" rfl ?_ sampleSource
  rintro f ⟨path, dir, -, hdir, -, hbelow⟩
  cases hdir
  exact (if_pos hbelow).symm

end Mizu
