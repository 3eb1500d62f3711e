import Mathlib

/-!
# Paths as sequences of components

What a path library for Unix and Windows takes paths apart into: prefixes (of Windows), the root, dots and
names. `push` and `pop` are the operations on a path that is put together, `normalize` folds the dots with
them. `Volumes.place` is where a path leads to, one component after the other, when no directory is a link.

* `normalize_idem`: a normal form is its own normal form.
* `place_normalize`: a normal form leads where the path leads, unless nothing is left of it.
* `above_of_isPrefix`: a path that begins with another one leads to the place of that one or below, unless that
  one is a drive without a root.
-/

namespace PathComponents

open List

inductive PathPrefix where
  | verbatim (name : String)
  | verbatimUnc (server share : String)
  | verbatimDisk (letter : Char)
  | deviceNs (device : String)
  | unc (server share : String)
  | disk (letter : Char)
  deriving DecidableEq, Repr

namespace PathPrefix

/-- A drive has a current directory of its own, from which a path without a root starts. -/
def isDrive : PathPrefix → Bool
  | disk _ => true
  | _ => false

/-- The root follows even if it is not written. -/
def impliesRoot : PathPrefix → Bool
  | deviceNs _ | unc _ _ => true
  | _ => false

/-- The volume that is meant, in its verbatim spelling. -/
def volume : PathPrefix → PathPrefix
  | disk letter => verbatimDisk letter
  | unc server share => verbatimUnc server share
  | deviceNs device => verbatim device
  | p => p

end PathPrefix

inductive Component where
  | pathPrefix (p : PathPrefix)
  | rootDir
  | curDir
  | parentDir
  | normal (name : String)
  deriving DecidableEq, Repr

abbrev Path := List Component

/-- The path of a prefix alone. -/
def ofPrefix (p : PathPrefix) : Path := if p.impliesRoot then [.pathPrefix p, .rootDir] else [.pathPrefix p]

/-- `PathBuf::push` of a component: a prefix replaces the path, a root all but its prefix. -/
def push (out : Path) : Component → Path
  | .pathPrefix p => ofPrefix p
  | .rootDir =>
    match out with
    | .pathPrefix p :: _ => [.pathPrefix p, .rootDir]
    | _ => [.rootDir]
  | c =>
    match out with
    | [.pathPrefix p] => if p.isDrive then [.pathPrefix p, c] else [.pathPrefix p, .rootDir, c]
    | _ => out ++ [c]

/-- `PathBuf::pop`. -/
def pop (out : Path) : Option Path :=
  match out.getLast? with
  | some (.normal _) | some .curDir | some .parentDir => some out.dropLast
  | _ => none

/-- The path without dots; nothing is left of one that climbs above its start. -/
def normalize (out : Path) : Path → Path
  | [] => out
  | .parentDir :: cs =>
    match pop out with
    | none => []
    | some out => normalize out cs
  | .curDir :: cs => normalize out cs
  | c :: cs => normalize (push out c) cs

theorem normalize_push {out cs : Path} {c : Component} (hcur : c ≠ .curDir) (hparent : c ≠ .parentDir) :
    normalize out (c :: cs) = normalize (push out c) cs := by
  cases c with
  | curDir => exact absurd rfl hcur
  | parentDir => exact absurd rfl hparent
  | _ => rfl

/-! ## Normal forms -/

inductive NormalForm : Path → Prop where
  | relative (names : List String) : NormalForm (names.map .normal)
  | rooted (names : List String) : NormalForm (.rootDir :: names.map .normal)
  | volume {p : PathPrefix} (h : p.impliesRoot = false) : NormalForm [.pathPrefix p]
  | driveRelative {p : PathPrefix} (h : p.isDrive = true) (names : List String) :
    NormalForm (.pathPrefix p :: names.map .normal)
  | volumeRooted (p : PathPrefix) (names : List String) :
    NormalForm (.pathPrefix p :: .rootDir :: names.map .normal)

variable {out out' cs : Path} {c : Component}

theorem NormalForm.nil : NormalForm [] := .relative []

theorem push_name (n : String) (h : ∀ p, out = [.pathPrefix p] → p.isDrive = true) :
    push out (.normal n) = out ++ [.normal n] := by
  simp only [push]
  split
  · rename_i p
    rw [if_pos (h p rfl)]
    rfl
  · rfl

theorem ofPrefix_normalForm (p : PathPrefix) : NormalForm (ofPrefix p) := by
  unfold ofPrefix
  split
  · exact .volumeRooted p []
  · exact .volume (by simpa using ‹¬p.impliesRoot = true›)

theorem push_normalForm (h : NormalForm out) (hcur : c ≠ .curDir) (hparent : c ≠ .parentDir) :
    NormalForm (push out c) := by
  cases c with
  | pathPrefix p => exact ofPrefix_normalForm p
  | rootDir =>
    simp only [push]
    split
    · exact .volumeRooted _ []
    · exact .rooted []
  | curDir => exact absurd rfl hcur
  | parentDir => exact absurd rfl hparent
  | normal n =>
    have hmap (names : List String) : names.map Component.normal ++ [.normal n] = (names ++ [n]).map .normal := by
      simp
    cases h with
    | relative names =>
      rw [push_name n (by cases names <;> simp), hmap]
      exact .relative _
    | rooted names =>
      rw [push_name n (by simp), cons_append, hmap]
      exact .rooted _
    | @volume p hroot =>
      simp only [push]
      split
      · exact .driveRelative ‹_› [n]
      · exact .volumeRooted p [n]
    | driveRelative hdrive names =>
      rw [push_name n (by simp_all), cons_append, hmap]
      exact .driveRelative hdrive _
    | volumeRooted p names =>
      rw [push_name n (by simp), cons_append, cons_append, hmap]
      exact .volumeRooted p _

/-- Only a name is popped from a normal form. -/
theorem pop_normalForm (h : NormalForm out) (hpop : pop out = some out') :
    NormalForm out' ∧ ∃ n, out = out' ++ [.normal n] := by
  have hnames (front : Path) (hfront : ∀ names : List String, NormalForm (front ++ names.map .normal))
      (names : List String)
      (hlast : ∀ c ∈ front.getLast?, (∃ p, c = .pathPrefix p) ∨ c = .rootDir)
      (hpop : pop (front ++ names.map .normal) = some out') :
      NormalForm out' ∧ ∃ n, front ++ names.map Component.normal = out' ++ [.normal n] := by
    rcases eq_nil_or_concat' names with rfl | ⟨names, n, rfl⟩
    · rw [map_nil, append_nil, pop] at hpop
      split at hpop <;> simp_all
    · rw [map_append, map_singleton, ← append_assoc, pop, List.getLast?_concat] at hpop
      obtain rfl : front ++ names.map Component.normal = out' := by simpa using hpop
      exact ⟨hfront names, n, by simp⟩
  cases h with
  | relative names => exact hnames [] .relative names (by simp) hpop
  | rooted names => exact hnames [.rootDir] .rooted names (by simp) hpop
  | @volume p hroot => cases hpop
  | @driveRelative p hdrive names =>
    exact hnames [.pathPrefix p] (.driveRelative hdrive) names (by simp) hpop
  | volumeRooted p names =>
    exact hnames [.pathPrefix p, .rootDir] (.volumeRooted p) names (by simp) hpop

theorem normalize_normalForm (h : NormalForm out) : NormalForm (normalize out cs) := by
  induction cs generalizing out with
  | nil => exact h
  | cons c cs ih =>
    by_cases hparent : c = .parentDir
    · subst hparent
      rw [normalize]
      split
      · exact .nil
      · exact ih (pop_normalForm h ‹_›).1
    by_cases hcur : c = .curDir
    · subst hcur
      exact ih h
    rw [normalize_push hcur hparent]
    exact ih (push_normalForm h hcur hparent)

theorem normalize_names (names : List String) (h : ∀ p, out = [.pathPrefix p] → p.isDrive = true) :
    normalize out (names.map .normal) = out ++ names.map .normal := by
  induction names generalizing out with
  | nil => simp [normalize]
  | cons n names ih =>
    rw [map_cons, normalize_push (c := .normal n) nofun nofun, push_name n h, ih]
    · simp
    · rintro p hp
      cases out <;> simp at hp

theorem normalize_of_normalForm (h : NormalForm cs) : normalize [] cs = cs := by
  cases h with
  | relative names => exact normalize_names names nofun
  | rooted names => exact normalize_names names nofun
  | @volume p hroot => simp [normalize, push, ofPrefix, hroot]
  | @driveRelative p hdrive names =>
    have hroot : p.impliesRoot = false := by cases p <;> simp_all [PathPrefix.isDrive, PathPrefix.impliesRoot]
    rw [normalize_push (c := .pathPrefix p) nofun nofun, push, ofPrefix, if_neg (by simp [hroot])]
    exact normalize_names names (by simp [hdrive])
  | volumeRooted p names => grind [normalize_push, push, ofPrefix, normalize_names]

theorem normalize_idem (cs : Path) : normalize [] (normalize [] cs) = normalize [] cs :=
  normalize_of_normalForm (normalize_normalForm .nil)

/-! ## Places -/

/-- A directory or file: its volume, if there are volumes, and the names from the root of it. -/
structure Place where
  volume : Option PathPrefix
  names : List String
  deriving DecidableEq, Repr

/-- At or above. -/
def Place.Above (a b : Place) : Prop := a.volume = b.volume ∧ a.names <+: b.names

instance (a b : Place) : Decidable (a.Above b) := inferInstanceAs (Decidable (_ ∧ _))

/-- The volume of the current directory, and the current directory on every volume. -/
structure Volumes where
  here : Option PathPrefix
  cwd : Option PathPrefix → List String
  here_volume : ∀ v ∈ here, v.volume = v

namespace Volumes

variable (vs : Volumes)

/-- One component further; a root is its own parent. -/
def move (from_ : Place) : Component → Place
  | .pathPrefix p => ⟨some p.volume, if p.isDrive then vs.cwd (some p.volume) else []⟩
  | .rootDir => { from_ with names := [] }
  | .curDir => from_
  | .parentDir => { from_ with names := from_.names.dropLast }
  | .normal name => { from_ with names := from_.names ++ [name] }

/-- Where a path leads to. -/
def place (cs : Path) : Place := cs.foldl vs.move ⟨vs.here, vs.cwd vs.here⟩

variable {vs}

theorem foldl_move_names (from_ : Place) (names : List String) :
    (names.map .normal).foldl vs.move from_ = { from_ with names := from_.names ++ names } := by
  induction names generalizing from_ with
  | nil => simp
  | cons n names ih =>
    rw [map_cons, foldl_cons, ih]
    simp [move]

theorem place_append (cs ds : Path) : vs.place (cs ++ ds) = ds.foldl vs.move (vs.place cs) := foldl_append

theorem place_push (h : NormalForm out) (c : Component) (hcur : c ≠ .curDir) (hparent : c ≠ .parentDir) :
    vs.place (push out c) = vs.move (vs.place out) c := by
  cases c with
  | pathPrefix p => cases p <;> rfl
  | rootDir =>
    cases h with
    | relative names =>
      rw [place, place, foldl_move_names]
      cases names <;> rfl
    | rooted | driveRelative =>
      rw [place, place, foldl_cons, foldl_move_names]
      rfl
    | volume hroot => rfl
    | volumeRooted p names =>
      rw [place, place, foldl_cons, foldl_cons, foldl_move_names]
      rfl
  | curDir => exact absurd rfl hcur
  | parentDir => exact absurd rfl hparent
  | normal n => grind [push, place, move, push_name]

/-- A normal form leads where the path leads, unless nothing is left of it. -/
theorem place_normalize (h : NormalForm out) (hne : normalize out cs ≠ []) :
    vs.place (normalize out cs) = cs.foldl vs.move (vs.place out) := by
  induction cs generalizing out with
  | nil => rfl
  | cons c cs ih =>
    by_cases hparent : c = .parentDir
    · subst hparent
      cases hpop : pop out with
      | none => simp [normalize, hpop] at hne
      | some out' =>
        obtain ⟨hout', n, rfl⟩ := pop_normalForm h hpop
        simp only [normalize, hpop] at hne ⊢
        rw [ih hout' hne, place_append, foldl_cons, foldl_cons, foldl_nil]
        simp [move]
    by_cases hcur : c = .curDir
    · subst hcur
      exact ih h hne
    rw [normalize_push hcur hparent] at hne ⊢
    rw [ih (push_normalForm h hcur hparent) hne, place_push h c hcur hparent, foldl_cons]

/-! ## Paths within paths -/

/-- What follows the beginning of a normal form are names, or the root of a volume. -/
theorem rest_of_normalForm {a t : Path} (h : NormalForm (a ++ t)) (hne : a ≠ []) :
    (∃ names : List String, t = names.map .normal) ∨
      ∃ p, ∃ names : List String, a = [.pathPrefix p] ∧ t = .rootDir :: names.map .normal := by
  have hnames {a t : Path} {names : List String} (heq : names.map Component.normal = a ++ t) :
      ∃ names : List String, t = names.map .normal := by
    obtain ⟨-, names', -, -, rfl⟩ := map_eq_append_iff.mp heq
    exact ⟨names', rfl⟩
  obtain ⟨c, a, rfl⟩ := exists_cons_of_ne_nil hne
  generalize hcs : c :: a ++ t = cs at h
  cases h with
  | relative names => exact .inl (hnames hcs.symm)
  | rooted | driveRelative => exact .inl (hnames (List.cons.inj hcs).2.symm)
  | volume hroot => exact .inl ⟨[], (append_eq_nil_iff.mp (List.cons.inj hcs).2).2⟩
  | volumeRooted p names =>
    obtain ⟨rfl, hrest⟩ := List.cons.inj hcs
    cases a with
    | nil => exact .inr ⟨p, names, rfl, hrest⟩
    | cons c a => exact .inl (hnames (List.cons.inj hrest).2.symm)

/-- Only on a drive a name may follow the prefix. -/
theorem rest_of_volume {p : PathPrefix} (h : NormalForm (.pathPrefix p :: cs)) (hdrive : p.isDrive = false) :
    cs = [] ∨ ∃ names : List String, cs = .rootDir :: names.map .normal := by
  generalize hds : Component.pathPrefix p :: cs = ds at h
  cases h with
  | relative names => cases names <;> cases hds
  | rooted names => cases hds
  | volume hroot => exact .inl (List.cons.inj hds).2
  | driveRelative hdrive' names => grind
  | volumeRooted p' names => exact .inr ⟨names, (List.cons.inj hds).2⟩

/-- The normal form of a path with a prefix stays on its volume. -/
theorem volume_of_prefix {p : PathPrefix} (h : NormalForm (.pathPrefix p :: cs)) :
    (vs.place (.pathPrefix p :: cs)).volume = some p.volume := by
  rcases rest_of_normalForm (a := [.pathPrefix p]) h (by simp) with ⟨names, rfl⟩ | ⟨-, names, -, rfl⟩
  · rw [place, foldl_cons, foldl_move_names]
    rfl
  · rw [place, foldl_cons, foldl_cons, foldl_move_names]
    rfl

/-- A path that begins with another one leads to the place of that one or below. -/
theorem above_of_isPrefix {a b : Path} (hb : NormalForm b) (hne : a ≠ []) (h : a <+: b)
    (hdrive : ∀ p, a = [.pathPrefix p] → p.isDrive = true → vs.cwd (some p.volume) = []) :
    (vs.place a).Above (vs.place b) := by
  obtain ⟨t, rfl⟩ := h
  rcases rest_of_normalForm hb hne with ⟨names, rfl⟩ | ⟨p, names, rfl, rfl⟩
  · rw [place_append, foldl_move_names]
    exact ⟨rfl, prefix_append _ _⟩
  · rw [place_append, foldl_cons, foldl_move_names]
    refine ⟨rfl, ?_⟩
    have hstart : (vs.place [.pathPrefix p]).names = [] := by grind [place, move]
    rw [hstart]
    exact nil_prefix

end Volumes

/-! ## Canonical paths -/

/-- The path of a place, from the root of its volume. -/
def Place.path (a : Place) : Path :=
  match a.volume with
  | none => .rootDir :: a.names.map .normal
  | some v => .pathPrefix v :: .rootDir :: a.names.map .normal

theorem Place.path_normalForm (a : Place) : NormalForm a.path := by
  unfold Place.path
  split
  · exact .rooted _
  · exact .volumeRooted _ _

namespace Volumes

variable {vs : Volumes}

theorem volume_volume (p : PathPrefix) : p.volume.volume = p.volume := by
  cases p <;> rfl

/-- A path stays on the volume of the current directory, or goes to that of a prefix. -/
theorem place_volume (cs : Path) :
    (vs.place cs).volume = vs.here ∨ ∃ p : PathPrefix, (vs.place cs).volume = some p.volume := by
  induction cs using List.reverseRecOn with
  | nil => exact .inl rfl
  | append_singleton cs c ih =>
    rw [place_append, foldl_cons, foldl_nil]
    cases c with
    | pathPrefix p => exact .inr ⟨p, rfl⟩
    | _ => exact ih

theorem place_path (cs : Path) : vs.place (vs.place cs).path = vs.place cs := by
  have hvolume := @place_volume vs cs
  generalize vs.place cs = a at hvolume
  obtain ⟨volume, names⟩ := a
  cases volume with
  | none => grind [Place.path, place, foldl_move_names, move]
  | some v =>
    have hv : v.volume = v := by grind [volume_volume, vs.here_volume]
    rw [Place.path, place, foldl_cons, foldl_cons, foldl_move_names]
    simp [move, hv]

end Volumes

end PathComponents
