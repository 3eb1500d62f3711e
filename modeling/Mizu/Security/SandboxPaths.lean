import Mizu.Lib.PathComponents
import Mizu.Security.Sandbox

/-!
# The sandbox on every platform

`fileSandboxContains` on the components of paths, with the prefixes of Windows. `LinkFree` are the paths of a
computer whose directories are no links; a path that is found becomes that of its place.

* `strip_uncut`: cutting `\\?\` from a drive leaves a path that leads to the same place.
* `file_sandbox_contains_iff`: what the sandbox contains lies below its directory unless the cut makes another
  path of one of the two.
-/

namespace Mizu.AnyPlatform

open PathComponents List

/-! ## The cut -/

/-- The component of a segment; none for the directory itself. -/
def ofSegment (s : String) : Path := if s = "" ∨ s = "." then [] else if s = ".." then [.parentDir] else [.normal s]

/-- A path whose first segment is `s`: there a dot is kept. -/
def startingWith (s : String) (cs : Path) : Path := if s = "." then .curDir :: cs else ofSegment s ++ cs

/-- The rest behind a segment: its root is the separator. -/
def unrooted : Path → Path
  | .rootDir :: cs => cs
  | cs => cs

/-- The letter of a text that starts with a drive, and what follows. -/
def driveOf (s : String) : Option (Char × String) :=
  match s.toList with
  | letter :: ':' :: rest => if letter.isAlpha then some (letter.toUpper, String.ofList rest) else none
  | _ => none

/-- `strip_verbatim_prefix`: what is left of the text is read anew. -/
def stripVerbatimPrefix : Path → Path
  | .pathPrefix (.verbatimDisk letter) :: cs => .pathPrefix (.disk letter) :: cs
  | .pathPrefix (.verbatimUnc server share) :: cs =>
    .normal "UNC" :: (ofSegment server ++ ofSegment share ++ unrooted cs)
  | .pathPrefix (.verbatim name) :: cs =>
    if name = "" then cs
    else
      match driveOf name with
      | some (letter, rest) => .pathPrefix (.disk letter) :: startingWith rest (unrooted cs)
      | none => startingWith name (unrooted cs)
  | .normal name :: cs =>
    -- a name of Unix
    match stripPrefix "\\\\?\\" name with
    | none => .normal name :: cs
    | some rest => if rest = "" then if cs = [] then [] else .rootDir :: cs else startingWith rest cs
  | cs => cs

/-- `normalize_path_components`. -/
def normalizePathComponents (p : Path) : Path := normalize [] p

/-- The first component of a path from which the cut makes another path. -/
def IsCut : Component → Prop
  | .pathPrefix (.verbatim _) | .pathPrefix (.verbatimUnc _ _) => True
  | .normal name => (stripPrefix "\\\\?\\" name).isSome = true
  | _ => False

instance : DecidablePred IsCut := fun c => by
  unfold IsCut
  split <;> infer_instance

/-- The drive alone, with and without the prefix. -/
def IsDriveAlone (letter : Char) (cs : Path) : Prop :=
  cs = [.pathPrefix (.disk letter)] ∨ cs = [.pathPrefix (.verbatimDisk letter)]

section Strip

variable {cs ds : Path} {c : Component} {vs : Volumes}

/-- Only a prefix is cut that leaves a drive, and the path leads to the same place. -/
theorem strip_uncut (hcut : ∀ c ∈ cs.head?, ¬IsCut c) :
    stripVerbatimPrefix cs = cs ∨
      ∃ letter rest, cs = .pathPrefix (.verbatimDisk letter) :: rest ∧
        stripVerbatimPrefix cs = .pathPrefix (.disk letter) :: rest := by
  cases cs with
  | nil => exact .inl rfl
  | cons c rest =>
    have hc : ¬IsCut c := hcut c rfl
    cases c with
    | pathPrefix p =>
      cases p with
      | verbatim | verbatimUnc => exact absurd trivial hc
      | verbatimDisk letter => exact .inr ⟨letter, rest, rfl, rfl⟩
      | _ => exact .inl rfl
    | normal name => grind [IsCut, stripVerbatimPrefix]
    | _ => exact .inl rfl

theorem normalForm_disk {letter : Char} (h : PathComponents.NormalForm (.pathPrefix (.verbatimDisk letter) :: cs)) :
    PathComponents.NormalForm (.pathPrefix (.disk letter) :: cs) := by
  rcases Volumes.rest_of_volume h rfl with rfl | ⟨names, rfl⟩
  · exact .volume rfl
  · exact .volumeRooted _ names

theorem strip_normalForm (h : PathComponents.NormalForm cs) (hcut : ∀ c ∈ cs.head?, ¬IsCut c) :
    PathComponents.NormalForm (stripVerbatimPrefix cs) := by
  rcases strip_uncut hcut with hsame | ⟨letter, rest, rfl, hstrip⟩
  · rw [hsame]
    exact h
  · rw [hstrip]
    exact normalForm_disk h

/-- The cut of the prefix before a drive leads to the same place, unless nothing but the drive is left. -/
theorem place_strip (h : PathComponents.NormalForm cs) (hcut : ∀ c ∈ cs.head?, ¬IsCut c)
    (hdrive : ∀ letter, stripVerbatimPrefix cs ≠ [.pathPrefix (.disk letter)]) :
    vs.place (stripVerbatimPrefix cs) = vs.place cs := by
  rcases strip_uncut hcut with hsame | ⟨letter, rest, rfl, hstrip⟩
  · rw [hsame]
  · rw [hstrip] at hdrive ⊢
    rcases Volumes.rest_of_volume h rfl with rfl | ⟨names, rfl⟩
    · exact absurd rfl (hdrive letter)
    · rfl

theorem unrooted_isPrefix (h : cs <+: ds) : unrooted cs <+: unrooted ds := by
  cases cs with
  | nil => exact nil_prefix
  | cons c cs =>
    obtain ⟨rest, rfl⟩ := h
    cases c with
    | rootDir => exact prefix_append _ _
    | _ => exact prefix_append _ _

theorem startingWith_isPrefix {s : String} (h : startingWith s cs <+: startingWith s ds) : cs <+: ds := by
  grind [startingWith, prefix_append_right_inj]

/-- The cut keeps what stands behind the first component. -/
theorem unrooted_of_strip (hcut : IsCut c) (h : stripVerbatimPrefix (c :: cs) <+: stripVerbatimPrefix (c :: ds)) :
    unrooted cs <+: unrooted ds := by
  cases c with
  | pathPrefix p =>
    cases p with
    | verbatim name => grind [stripVerbatimPrefix, unrooted_isPrefix, startingWith_isPrefix]
    | verbatimUnc server share => exact (prefix_append_right_inj _).mp (cons_prefix_cons.mp h).2
    | _ => cases hcut
  | normal name =>
    obtain ⟨rest, hrest⟩ := Option.isSome_iff_exists.mp (show (stripPrefix "\\\\?\\" name).isSome = true from hcut)
    simp only [stripVerbatimPrefix, hrest] at h
    apply unrooted_isPrefix
    split at h
    · -- the separator behind the first name becomes the root
      by_cases hcs : cs = []
      · rw [hcs]
        exact nil_prefix
      · by_cases hds : ds = []
        · simp [hcs, hds] at h
        · simp only [hcs, hds, if_false] at h
          exact (cons_prefix_cons.mp h).2
    · exact startingWith_isPrefix h
  | _ => cases hcut

/-- Where a path leads whose first component is cut: down from where this component leads. -/
theorem place_cut (h : PathComponents.NormalForm (c :: cs)) (hcut : IsCut c) :
    ∃ names : List String, unrooted cs = names.map .normal ∧
      vs.place (c :: cs) = { vs.place [c] with names := (vs.place [c]).names ++ names } := by
  have hdown (names : List String) : vs.place (c :: names.map .normal) =
      { vs.place [c] with names := (vs.place [c]).names ++ names } := by
    rw [Volumes.place, foldl_cons, Volumes.foldl_move_names]
    rfl
  cases c with
  | pathPrefix p =>
    have hdrive : p.isDrive = false := by
      cases p with
      | disk letter => cases hcut
      | _ => rfl
    rcases Volumes.rest_of_volume h hdrive with rfl | ⟨names, rfl⟩
    · exact ⟨[], rfl, hdown []⟩
    · refine ⟨names, rfl, ?_⟩
      rw [← hdown]
      simp [Volumes.place, Volumes.move, hdrive]
  | normal name =>
    rcases Volumes.rest_of_normalForm (a := [.normal name]) h (by simp) with ⟨names, rfl⟩ | ⟨p, -, hname, -⟩
    · refine ⟨names, ?_, hdown names⟩
      cases names <;> rfl
    · cases hname
  | _ => cases hcut

theorem above_of_cut (hc : PathComponents.NormalForm (c :: cs)) (hd : PathComponents.NormalForm (c :: ds))
    (hcut : IsCut c) (h : stripVerbatimPrefix (c :: cs) <+: stripVerbatimPrefix (c :: ds)) :
    (vs.place (c :: cs)).Above (vs.place (c :: ds)) := by
  have hrest := unrooted_of_strip hcut h
  obtain ⟨names, hnames, hplace⟩ := @place_cut _ _ vs hc hcut
  obtain ⟨names', hnames', hplace'⟩ := @place_cut _ _ vs hd hcut
  rw [hnames, hnames', prefix_map_iff_of_injective fun a b hab => Component.normal.inj hab] at hrest
  rw [hplace, hplace']
  exact ⟨rfl, (prefix_append_right_inj _).mpr hrest⟩

end Strip

/-! ## Containment -/

/-- Paths of a computer without links, as the program gets them. -/
structure LinkFree (τ : Type) where
  components : τ → Path
  /-- `std::fs::canonicalize`. -/
  canonicalize : τ → Option τ
  volumes : Volumes
  components_canonicalize :
    ∀ {p q}, canonicalize p = some q → components q = (volumes.place (components p)).path

namespace LinkFree

variable {τ : Type} (files : LinkFree τ)

/-- Where the components of a path lead, one by one. -/
def place (p : τ) : Place := files.volumes.place (files.components p)

/-- The path before the cut: one that is not found is taken as it is written. -/
def comparedPath (p : τ) : Path :=
  match files.canonicalize p with
  | some q => files.components q
  | none => normalizePathComponents (files.components p)

/-- `file_sandbox_contains`. -/
def fileSandboxContains (sandboxBase target : τ) : Bool :=
  let canonBase := stripVerbatimPrefix (files.comparedPath sandboxBase)
  let canonTarget := stripVerbatimPrefix (files.comparedPath target)
  !canonBase.isEmpty && !canonTarget.isEmpty && canonBase.isPrefixOf canonTarget

/-- The cut does the same with both paths, and the root of a drive is not taken for its current directory. -/
def ReadAlike (sandboxBase target : τ) : Prop :=
  ((∀ c ∈ (files.comparedPath sandboxBase).head?, ¬IsCut c) ∧ (∀ c ∈ (files.comparedPath target).head?, ¬IsCut c) ∨
    (files.comparedPath sandboxBase).head? = (files.comparedPath target).head?) ∧
  ∀ letter, files.comparedPath sandboxBase = [.pathPrefix (.disk letter)] →
    files.volumes.cwd (some (.verbatimDisk letter)) = []

/-- The cut makes another path of one of the two: now the base is the beginning of the target, whose place is
elsewhere. -/
structure Misled (sandboxBase target : τ) : Prop where
  unlike : ¬files.ReadAlike sandboxBase target
  left_over : stripVerbatimPrefix (files.comparedPath sandboxBase) ≠ []
  begins : stripVerbatimPrefix (files.comparedPath sandboxBase) <+: stripVerbatimPrefix (files.comparedPath target)
  elsewhere : ¬(files.place sandboxBase).Above (files.place target)

theorem comparedPath_normalForm (p : τ) : PathComponents.NormalForm (files.comparedPath p) := by
  unfold comparedPath
  split
  · rename_i hfound
    rw [files.components_canonicalize hfound]
    exact Place.path_normalForm _
  · exact normalize_normalForm .nil

/-- The compared path leads where the path leads. -/
theorem place_comparedPath {p : τ} (hne : files.comparedPath p ≠ []) :
    files.volumes.place (files.comparedPath p) = files.place p := by
  unfold comparedPath at hne ⊢
  split
  · rename_i hfound
    rw [files.components_canonicalize hfound, Volumes.place_path]
    rfl
  · rename_i hmissing
    rw [hmissing] at hne
    exact Volumes.place_normalize .nil hne

/-- The drive that is left of a path, with or without the prefix, is its root. -/
theorem names_of_drive {p : τ} {letter : Char} (huncut : ∀ c ∈ (files.comparedPath p).head?, ¬IsCut c)
    (hdrive : files.comparedPath p = [.pathPrefix (.disk letter)] →
      files.volumes.cwd (some (.verbatimDisk letter)) = [])
    (h : stripVerbatimPrefix (files.comparedPath p) = [.pathPrefix (.disk letter)]) :
    files.place p = ⟨some (.verbatimDisk letter), []⟩ := by
  have hne : files.comparedPath p ≠ [] := by
    intro hnil
    rw [hnil] at h
    cases h
  rw [← files.place_comparedPath hne]
  rcases strip_uncut huncut with hsame | ⟨letter', rest, hpath, hstrip⟩
  · grind [Volumes.place, Volumes.move, PathPrefix.volume]
  · rw [hstrip] at h
    cases h
    rw [hpath]
    rfl

theorem above_of_uncut {sandboxBase target : τ} (hbase : ∀ c ∈ (files.comparedPath sandboxBase).head?, ¬IsCut c)
    (htarget : ∀ c ∈ (files.comparedPath target).head?, ¬IsCut c)
    (hdrive : ∀ letter, files.comparedPath sandboxBase = [.pathPrefix (.disk letter)] →
      files.volumes.cwd (some (.verbatimDisk letter)) = [])
    (hne : stripVerbatimPrefix (files.comparedPath sandboxBase) ≠ [])
    (h : stripVerbatimPrefix (files.comparedPath sandboxBase) <+: stripVerbatimPrefix (files.comparedPath target)) :
    (files.place sandboxBase).Above (files.place target) := by
  have hne' : files.comparedPath sandboxBase ≠ [] := fun hnil => hne (by rw [hnil]; rfl)
  have hnet : files.comparedPath target ≠ [] := by
    intro hnil
    rw [hnil] at h
    exact hne (prefix_nil.mp h)
  by_cases halone : ∃ letter, stripVerbatimPrefix (files.comparedPath sandboxBase) = [.pathPrefix (.disk letter)]
  · obtain ⟨letter, halone⟩ := halone
    rw [files.names_of_drive hbase (hdrive letter) halone]
    rw [halone] at h
    obtain ⟨rest, hrest⟩ := h
    refine ⟨?_, nil_prefix⟩
    rw [← files.place_comparedPath hnet]
    have hform := files.comparedPath_normalForm target
    rcases strip_uncut htarget with hsame | ⟨letter', rest', hpath, hstrip⟩
    · rw [← hsame, ← hrest] at hform ⊢
      exact (Volumes.volume_of_prefix hform).symm
    · rw [hstrip] at hrest
      cases hrest
      rw [hpath] at hform ⊢
      exact (Volumes.volume_of_prefix hform).symm
  · have halone' : ∀ letter, stripVerbatimPrefix (files.comparedPath target) ≠ [.pathPrefix (.disk letter)] := by
      intro letter htarget
      rw [htarget, prefix_cons_iff] at h
      rcases h with hnil | ⟨rest, hrest, hnil⟩
      · exact hne hnil
      · exact halone ⟨letter, by rw [hrest, prefix_nil.mp hnil]⟩
    rw [← files.place_comparedPath hne', ← files.place_comparedPath hnet,
      ← place_strip (files.comparedPath_normalForm _) hbase fun letter hletter => halone ⟨letter, hletter⟩,
      ← place_strip (files.comparedPath_normalForm _) htarget halone']
    apply Volumes.above_of_isPrefix (strip_normalForm (files.comparedPath_normalForm _) htarget) hne h
    rintro p hp hdrive
    cases p with
    | disk letter => exact absurd ⟨letter, hp⟩ halone
    | _ => cases hdrive

variable {sandboxBase target : τ}

theorem fileSandboxContains_eq_true : files.fileSandboxContains sandboxBase target = true ↔
    stripVerbatimPrefix (files.comparedPath sandboxBase) ≠ [] ∧
      stripVerbatimPrefix (files.comparedPath sandboxBase) <+: stripVerbatimPrefix (files.comparedPath target) := by
  simp only [fileSandboxContains, Bool.and_eq_true, Bool.not_eq_true', isEmpty_eq_false_iff,
    isPrefixOf_iff_prefix]
  constructor
  · rintro ⟨⟨hbase, -⟩, h⟩
    exact ⟨hbase, h⟩
  · grind

/-- What the sandbox contains lies at or below its directory, if both paths are read alike. -/
theorem above_of_contains (halike : files.ReadAlike sandboxBase target)
    (h : files.fileSandboxContains sandboxBase target = true) :
    (files.place sandboxBase).Above (files.place target) := by
  obtain ⟨hne, hbegins⟩ := files.fileSandboxContains_eq_true.mp h
  obtain ⟨⟨hbase, htarget⟩ | hhead, hdrive⟩ := halike
  · exact files.above_of_uncut hbase htarget hdrive hne hbegins
  by_cases hcut : ∀ c ∈ (files.comparedPath sandboxBase).head?, ¬IsCut c
  · exact files.above_of_uncut hcut (hhead ▸ hcut) hdrive hne hbegins
  push Not at hcut
  obtain ⟨c, hc, hcut⟩ := hcut
  obtain ⟨cs, hcs⟩ := List.head?_eq_some_iff.mp hc
  obtain ⟨ds, hds⟩ := List.head?_eq_some_iff.mp (hhead ▸ hc)
  have hform := files.comparedPath_normalForm sandboxBase
  have hform' := files.comparedPath_normalForm target
  rw [← files.place_comparedPath (p := sandboxBase) (by simp [hcs]),
    ← files.place_comparedPath (p := target) (by simp [hds])]
  rw [hcs] at hform hbegins ⊢
  rw [hds] at hform' hbegins ⊢
  exact above_of_cut hform hform' hcut hbegins

end LinkFree

end Mizu.AnyPlatform
