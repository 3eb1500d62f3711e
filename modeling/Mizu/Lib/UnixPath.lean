import Mizu.Lib.UrlPath

/-!
# Paths on Unix

A path is a text whose segments are separated by slashes. `components`, `parent`, `join` and `normalize` are
the operations of a path library, which look at the text only; `place` is where a path leads to when no
directory is a link.

A `Disk` is a tree of directories and files; `Disk.resolve` walks it.

* `Disk.resolve_place`: a path that leads somewhere leads to its place.
* `Disk.parent_of_read`: the parent of the path of a file is the path of its directory.
-/

namespace UnixPath

open List

open UrlPath (Segment dot dotDot)

def segments (p : String) : List Segment := p.toList.splitOn '/'

/-- Segments that stand for the directory they are in. -/
def isFiller (s : Segment) : Bool := s = [] || s = dot

inductive Component where
  | rootDir
  | curDir
  | parentDir
  | normal (name : String)
  deriving DecidableEq, Repr

def Component.ofSegment (s : Segment) : Component :=
  if s = dotDot then .parentDir else .normal (String.ofList s)

/-- `Path::components`: a dot is kept at the start only. -/
def components (p : String) : List Component :=
  match segments p with
  | [] => []
  | head :: rest =>
    let first :=
      if head = [] then if rest = [] then [] else [.rootDir]
      else if head = dot then [.curDir]
      else [.ofSegment head]
    first ++ (rest.filter (!isFiller ·)).map .ofSegment

def joinSegments (segs : List Segment) : String := String.ofList (['/'].intercalate segs)

/-- `Path::parent`. -/
def parent (p : String) : Option String :=
  match segments p with
  | [] => none
  | head :: rest =>
    let body := rest.rdropWhile isFiller
    if body = [] then if head = [] then none else some ""
    else
      let dir := head :: body.dropLast.rdropWhile isFiller
      some (if dir = [[]] then "/" else joinSegments dir)

/-- `Path::join`. -/
def join (base p : String) : String :=
  if p.toList.head? = some '/' then p
  else if base = "" || base.toList.getLast? = some '/' then base ++ p
  else base ++ "/" ++ p

/-- `PathBuf::push` of a component. -/
def push (out : List Component) : Component → List Component
  | .rootDir => [.rootDir]
  | c => out ++ [c]

/-- `PathBuf::pop`. -/
def pop (out : List Component) : Option (List Component) :=
  if out = [] || out = [.rootDir] then none else some out.dropLast

/-- The components without dots; nothing is left of a path that climbs above its start. -/
def normalize (out : List Component) : List Component → List Component
  | [] => out
  | .parentDir :: cs =>
    match pop out with
    | none => []
    | some out => normalize out cs
  | .curDir :: cs => normalize out cs
  | c :: cs => normalize (push out c) cs

def Component.text : Component → Segment
  | rootDir => []
  | curDir => dot
  | parentDir => dotDot
  | normal name => name.toList

/-- The text of a path that was put together. -/
def ofComponents (cs : List Component) : String :=
  if cs = [.rootDir] then "/" else joinSegments (cs.map (·.text))

/-- `Path::starts_with`. -/
def startsWith (p base : String) : Bool := (components base).isPrefixOf (components p)

example : [parent "/a/./b//c/.", parent "/a", parent "a", parent "/", parent "./a", parent "a/.."] =
    [some "/a/./b", some "/", some "", none, some ".", some "a"] := by
  decide

/-! ## Places -/

/-- One segment further; the root is its own parent. -/
def move (dir : List String) (s : Segment) : List String :=
  if isFiller s then dir else if s = dotDot then dir.dropLast else dir ++ [String.ofList s]

/-- Where the segments of a path start from, and the segments. -/
def start (cwd : List String) (p : String) : List String × List Segment :=
  match segments p with
  | [] :: s :: rest => ([], s :: rest)
  | segs => (cwd, segs)

/-- Where a path leads to, from the root. -/
def place (cwd : List String) (p : String) : List String := (start cwd p).2.foldl move (start cwd p).1

/-- The name of a file or directory. -/
def IsName (n : String) : Prop := '/' ∉ n.toList ∧ isFiller n.toList = false ∧ n.toList ≠ dotDot

/-- The path of a place. -/
def ofNames (names : List String) : String := String.ofList ('/' :: ['/'].intercalate (names.map String.toList))

theorem segments_slash (cs : List Char) : segments (String.ofList ('/' :: cs)) = [] :: cs.splitOn '/' := by
  rw [segments, String.toList_ofList, splitOn_cons_eq_if_modifyHead]
  rfl

theorem ofSegment_name {n : String} (h : IsName n) : Component.ofSegment n.toList = .normal n := by
  rw [Component.ofSegment, if_neg h.2.2, String.ofList_toList]

variable {names : List String}

theorem components_ofNames (h : ∀ n ∈ names, IsName n) :
    components (ofNames names) = .rootDir :: names.map .normal := by
  rw [components, ofNames, segments_slash]
  have hrest : ((['/'].intercalate (names.map String.toList)).splitOn '/').filter (!isFiller ·) =
      names.map String.toList := by
    cases names with
    | nil => rfl
    | cons n names =>
      rw [splitOn_intercalate _ (by simpa using fun n hn => (h n hn).1) (by simp), filter_eq_self]
      simpa using fun n hn => (h n hn).2.1
  have hne := splitOn_ne_nil '/' (['/'].intercalate (names.map String.toList))
  simp only [hrest, hne, if_true, if_false, map_map, singleton_append, List.cons.injEq, true_and]
  exact map_congr_left fun n hn => ofSegment_name (h n hn)

theorem notMem_of_mem_splitOn {a : Char} {cs : List Char} {s : List Char} (h : s ∈ cs.splitOn a) : a ∉ s := by
  induction cs generalizing s with
  | nil =>
    rw [splitOn_nil, mem_singleton] at h
    simp [h]
  | cons c cs ih =>
    rw [splitOn_cons_eq_if_modifyHead] at h
    split at h
    · rcases mem_cons.mp h with rfl | h
      · simp
      · exact ih h
    · rename_i hc
      obtain ⟨head, rest, hsplit⟩ := exists_cons_of_ne_nil (splitOn_ne_nil a cs)
      rw [hsplit, modifyHead_cons] at h
      rcases mem_cons.mp h with rfl | h
      · grind
      · exact ih (by simp [hsplit, h])

theorem segments_joinSegments {segs : List Segment} (hne : segs ≠ []) (h : ∀ s ∈ segs, '/' ∉ s) :
    segments (joinSegments segs) = segs := by
  rw [segments, joinSegments, String.toList_ofList, splitOn_intercalate _ h hne]

theorem startsWith_ofNames {names base : List String} (hnames : ∀ n ∈ names, IsName n)
    (hbase : ∀ n ∈ base, IsName n) (h : startsWith (ofNames names) (ofNames base) = true) : base <+: names := by
  rw [startsWith, components_ofNames hnames, components_ofNames hbase, isPrefixOf_iff_prefix,
    cons_prefix_cons] at h
  exact (prefix_map_iff_of_injective fun a b hab => Component.normal.inj hab).mp h.2

section Places

variable {cwd dir : List String}

theorem move_name {n : String} (h : IsName n) : move dir n.toList = dir ++ [n] := by
  rw [move, h.2.1, if_neg (by decide), if_neg h.2.2, String.ofList_toList]

theorem foldl_move_names (h : ∀ n ∈ names, IsName n) :
    (names.map String.toList).foldl move dir = dir ++ names := by
  induction names generalizing dir with
  | nil => simp
  | cons n names ih => grind [move_name]

theorem place_ofNames (h : ∀ n ∈ names, IsName n) : place cwd (ofNames names) = names := by
  cases names with
  | nil => rfl
  | cons n names =>
    have hsegs : segments (ofNames (n :: names)) = [] :: n.toList :: names.map String.toList := by
      rw [ofNames, segments_slash, splitOn_intercalate _ (by simpa using fun m hm => (h m hm).1) (by simp)]
      rfl
    rw [place, start, hsegs]
    exact foldl_move_names h

/-- The names of a place are those of its start and of segments that lead down. -/
theorem forall_foldl_move {P : String → Prop} {segs : List Segment} (hdir : ∀ n ∈ dir, P n)
    (hsegs : ∀ s ∈ segs, isFiller s = false → s ≠ dotDot → P (String.ofList s)) :
    ∀ n ∈ segs.foldl move dir, P n := by
  induction segs generalizing dir with
  | nil => exact hdir
  | cons s segs ih =>
    refine ih ?_ fun t ht => hsegs t (mem_cons_of_mem _ ht)
    unfold move
    intro n hn
    split at hn
    · exact hdir n hn
    · rename_i hfiller
      split at hn
      · exact hdir n (dropLast_subset dir hn)
      · grind

theorem forall_place {P : String → Prop} {p : String} (hcwd : ∀ n ∈ cwd, P n)
    (hsegs : ∀ s ∈ segments p, isFiller s = false → s ≠ dotDot → P (String.ofList s)) :
    ∀ n ∈ place cwd p, P n := by
  unfold place start
  split
  · rename_i s rest heq
    exact forall_foldl_move (by simp) fun t ht => hsegs t (by simp [heq, ht])
  · exact forall_foldl_move hcwd hsegs

theorem isName_place {p : String} (hcwd : ∀ n ∈ cwd, IsName n) : ∀ n ∈ place cwd p, IsName n :=
  forall_place hcwd fun s hs hfiller hdots =>
    ⟨by simpa using notMem_of_mem_splitOn hs, by simpa using hfiller, by simpa using hdots⟩

theorem foldl_move_rdropWhile (segs : List Segment) :
    (segs.rdropWhile isFiller).foldl move dir = segs.foldl move dir := by
  induction segs using List.reverseRecOn with
  | nil => rfl
  | append_singleton segs s ih => grind [rdropWhile_concat, move]

end Places

/-! ## Parents -/

section Parents

variable {cwd : List String} {p : String} {head last : Segment} {init rest : List Segment}

theorem start_relative (h : segments p = head :: rest) (hhead : head ≠ []) : start cwd p = (cwd, head :: rest) := by
  grind [start]

theorem start_root {s : Segment} (h : segments p = [] :: s :: rest) : start cwd p = ([], s :: rest) := by
  rw [start, h]

theorem start_ne_nil (cwd : List String) (p : String) : (start cwd p).2 ≠ [] := by
  unfold start
  split
  · exact cons_ne_nil _ _
  · exact splitOn_ne_nil _ _

/-- The text of a directory: its segments, where the root stands alone. -/
def dirText (dir : List Segment) : String := if dir = [[]] then "/" else joinSegments dir

theorem parent_eq (h : segments p = head :: (init ++ [last])) (hlast : isFiller last = false) :
    parent p = some (dirText (head :: init.rdropWhile isFiller)) := by
  have hbody : (init ++ [last]).rdropWhile isFiller = init ++ [last] :=
    rdropWhile_concat_neg _ _ _ (by simp [hlast])
  rw [parent, h]
  simp only [hbody, append_eq_nil_iff, cons_ne_self, and_false, if_false, dropLast_concat]
  rfl

theorem segments_dirText {dir : List Segment} (h : dir ⊆ segments p) (hne : dir ≠ []) (hroot : dir ≠ [[]]) :
    segments (dirText dir) = dir := by
  rw [dirText, if_neg hroot, segments_joinSegments hne fun s hs => notMem_of_mem_splitOn (h hs)]

/-- A path that ends with a name leads to that name in its parent. -/
theorem place_parent (h : (start cwd p).2 = init ++ [last]) (hfiller : isFiller last = false)
    (hdots : last ≠ dotDot) : ∃ d, parent p = some d ∧ place cwd p = place cwd d ++ [String.ofList last] := by
  have hplace : place cwd p = init.foldl move (start cwd p).1 ++ [String.ofList last] := by
    rw [place, h, foldl_concat]
    simp only [move, hfiller, hdots, Bool.false_eq_true, if_false]
  obtain ⟨head, rest, hsegs⟩ := exists_cons_of_ne_nil (splitOn_ne_nil '/' p.toList)
  change segments p = head :: rest at hsegs
  have htrim : init.rdropWhile isFiller ⊆ init := ( rdropWhile_prefix isFiller init).subset
  by_cases hhead : head = []
  · -- a path from the root
    subst hhead
    cases rest with
    | nil =>
      rw [start, hsegs] at h
      obtain ⟨-, hlast⟩ := append_inj' (show [] ++ [[]] = init ++ [last] from h) rfl
      rw [← singleton_inj.mp hlast] at hfiller
      cases hfiller
    | cons s rest =>
      rw [start_root hsegs] at h hplace
      dsimp only at h hplace
      rw [h] at hsegs
      refine ⟨_, parent_eq hsegs hfiller, ?_⟩
      rw [hplace, ← foldl_move_rdropWhile init]
      cases hbody : init.rdropWhile isFiller with
      | nil => rfl
      | cons s' body =>
        have hdir : segments (dirText ([] :: s' :: body)) = [] :: s' :: body :=
          segments_dirText (p := p) (by rw [hsegs]; grind) (cons_ne_nil _ _) (by simp)
        rw [place, start_root hdir]
  · -- a path from the working directory
    rw [start_relative hsegs hhead] at h hplace
    dsimp only at h hplace
    rw [hplace]
    cases init with
    | nil =>
      obtain ⟨rfl, rfl⟩ := List.cons.inj h
      refine ⟨"", ?_, rfl⟩
      rw [parent, hsegs]
      simp [hhead]
    | cons head' init =>
      obtain ⟨rfl, rfl⟩ := List.cons.inj h
      refine ⟨_, parent_eq hsegs hfiller, ?_⟩
      have hdir : segments (dirText (head :: init.rdropWhile isFiller)) = head :: init.rdropWhile isFiller := by
        have hsub := ( rdropWhile_prefix isFiller init).subset
        refine segments_dirText (p := p) ?_ (cons_ne_nil _ _) (by simp [hhead])
        rw [hsegs]
        exact cons_subset_cons _ fun s hs => mem_append_left _ (hsub hs)
      rw [place, start_relative hdir hhead, foldl_cons, foldl_cons, foldl_move_rdropWhile]

end Parents

/-! ## Normal forms -/

section Normalize

variable {cwd names : List String} {p : String}

theorem foldl_move_filter {dir : List String} (segs : List Segment) :
    (segs.filter (!isFiller ·)).foldl move dir = segs.foldl move dir := by
  induction segs generalizing dir with
  | nil => rfl
  | cons s segs ih =>
    cases hs : isFiller s with
    | true =>
      rw [filter_cons_of_neg (by simp [hs]), ih, foldl_cons, move, hs, if_pos rfl]
    | false => rw [filter_cons_of_pos (by simp [hs]), foldl_cons, foldl_cons, ih]

/-- From the root the normal form is the place; it is nothing if the path climbs above the root. -/
theorem normalize_rootDir {dir : List String} {segs : List Segment} (h : ∀ s ∈ segs, isFiller s = false) :
    normalize (.rootDir :: dir.map .normal) (segs.map .ofSegment) = [] ∨
      normalize (.rootDir :: dir.map .normal) (segs.map .ofSegment) =
        .rootDir :: (segs.foldl move dir).map .normal := by
  induction segs generalizing dir with
  | nil => exact .inr rfl
  | cons s segs ih =>
    have hrest := fun t ht => h t (mem_cons_of_mem _ ht)
    rw [map_cons, foldl_cons, Component.ofSegment, move, h s (by simp), if_neg Bool.false_ne_true]
    by_cases hdots : s = dotDot
    · rw [if_pos hdots, if_pos hdots, normalize]
      by_cases hroot : dir = []
      · rw [hroot]
        exact .inl rfl
      · have hpop : pop (.rootDir :: dir.map .normal) = some (.rootDir :: dir.dropLast.map .normal) := by
          simp [pop, hroot, dropLast_cons_of_ne_nil, map_dropLast]
        rw [hpop]
        exact ih hrest
    · rw [if_neg hdots, if_neg hdots, normalize]
      · grind [push]
      · nofun
      · nofun

theorem ofComponents_rootDir (names : List String) : ofComponents (.rootDir :: names.map .normal) = ofNames names := by
  cases names with
  | nil => rfl
  | cons n names =>
    have htext : (names.map Component.normal).map Component.text = names.map String.toList := by
      simp [Component.text]
    rw [ofComponents, if_neg (by simp), joinSegments, ofNames, map_cons, map_cons, map_cons, htext]
    rfl

theorem normalize_absolute (cwd : List String) (h : p.toList.head? = some '/') :
    ofComponents (normalize [] (components p)) = "" ∨
      ofComponents (normalize [] (components p)) = ofNames (place cwd p) := by
  obtain ⟨cs, hcs⟩ := List.head?_eq_some_iff.mp h
  obtain rfl : p = String.ofList ('/' :: cs) := by rw [← hcs, String.ofList_toList]
  have hplace : place cwd (String.ofList ('/' :: cs)) = (cs.splitOn '/').foldl move [] := by
    obtain ⟨s, rest, hsplit⟩ := exists_cons_of_ne_nil (splitOn_ne_nil '/' cs)
    rw [place, start_root (by rw [segments_slash, hsplit]), hsplit]
  have hcomponents : components (String.ofList ('/' :: cs)) =
      .rootDir :: ((cs.splitOn '/').filter (!isFiller ·)).map .ofSegment := by
    rw [components, segments_slash]
    simp [splitOn_ne_nil]
  rw [hcomponents, hplace, ← foldl_move_filter, ← ofComponents_rootDir]
  have hfiltered : ∀ s ∈ (cs.splitOn '/').filter (!isFiller ·), isFiller s = false := fun s hs => by
    simpa using (mem_filter.mp hs).2
  obtain hnil | hnames := @normalize_rootDir [] _ hfiltered
  · exact .inl (congrArg ofComponents hnil)
  · exact .inr (congrArg ofComponents hnames)

/-- A path that does not start at the root has a first segment, unless it is empty. -/
theorem segments_relative (h : p.toList.head? ≠ some '/') (hne : p ≠ "") :
    ∃ head rest, segments p = head :: rest ∧ head ≠ [] := by
  cases hcs : p.toList with
  | nil => exact absurd (String.toList_eq_nil_iff.mp hcs) hne
  | cons c cs =>
    have hc : c ≠ '/' := by simpa [hcs] using h
    obtain ⟨s, rest, hsplit⟩ := exists_cons_of_ne_nil (splitOn_ne_nil '/' cs)
    refine ⟨c :: s, rest, ?_, cons_ne_nil _ _⟩
    rw [segments, hcs, splitOn_cons_eq_if_modifyHead, if_neg (by simpa using hc), hsplit]
    rfl

theorem mem_normalize {c : Component} {out cs : List Component} (h : c ∈ normalize out cs) : c ∈ out ∨ c ∈ cs := by
  induction cs generalizing out with
  | nil => exact .inl h
  | cons d cs ih =>
    cases d with
    | parentDir =>
      rw [normalize] at h
      split at h
      · cases h
      · rename_i popped hpop
        have hsub : popped ⊆ out := by grind [pop]
        exact (ih h).imp (@hsub c) (mem_cons_of_mem _)
    | curDir => exact (ih h).imp_right (mem_cons_of_mem _)
    | rootDir =>
      rcases ih h with hroot | hcs
      · exact .inr (mem_cons.mpr (.inl (mem_singleton.mp hroot)))
      · exact .inr (mem_cons_of_mem _ hcs)
    | normal n =>
      rcases ih h with hout | hcs
      · rcases mem_append.mp hout with hout | hn
        · exact .inl hout
        · exact .inr (mem_cons.mpr (.inl (mem_singleton.mp hn)))
      · exact .inr (mem_cons_of_mem _ hcs)

theorem text_ofSegment (s : Segment) : (Component.ofSegment s).text = s := by
  unfold Component.ofSegment
  split
  · rename_i hs
    exact hs.symm
  · exact String.toList_ofList

/-- The normal form of a path from the working directory is not a path from the root. -/
theorem normalize_relative (h : p.toList.head? ≠ some '/') :
    (ofComponents (normalize [] (components p))).toList.head? ≠ some '/' := by
  by_cases hne : p = ""
  · subst hne
    decide
  obtain ⟨head, rest, hsegs, hhead⟩ := segments_relative h hne
  have hsegment : ∀ s ∈ segments p, s ≠ [] → Component.ofSegment s ≠ .rootDir ∧
      (Component.ofSegment s).text ≠ [] ∧ '/' ∉ (Component.ofSegment s).text := by
    intro s hs hne
    rw [text_ofSegment]
    refine ⟨?_, hne, notMem_of_mem_splitOn hs⟩
    unfold Component.ofSegment
    split <;> simp
  rw [hsegs] at hsegment
  have hcomponents : ∀ c ∈ components p, c ≠ .rootDir ∧ c.text ≠ [] ∧ '/' ∉ c.text := by
    intro c hc
    rw [components, hsegs] at hc
    simp only [hhead, if_false] at hc
    rcases mem_append.mp hc with hc | hc
    · split at hc
      · rw [mem_singleton.mp hc]
        decide
      · rw [mem_singleton.mp hc]
        exact hsegment head (by simp) hhead
    · grind [isFiller]
  cases hnormal : normalize [] (components p) with
  | nil => decide
  | cons c cs =>
    have hc : c ∈ components p := (mem_normalize (hnormal ▸ mem_cons_self ..)).resolve_left (by simp)
    obtain ⟨hroot, htext, hchars⟩ := hcomponents c hc
    rw [ofComponents, if_neg (by simp [hroot]), joinSegments, String.toList_ofList]
    obtain ⟨a, as, ha⟩ := exists_cons_of_ne_nil htext
    have hfirst : a ≠ '/' := fun heq => hchars (by simp [ha, heq])
    cases cs <;> simp [ha, hfirst, intercalate_cons_cons]

/-- No path from the root lies below one from the working directory. -/
theorem startsWith_relative (hp : ∀ n ∈ names, IsName n) (hne : p ≠ "") (h : p.toList.head? ≠ some '/') :
    startsWith (ofNames names) p = false := by
  obtain ⟨head, rest, hsegs, hhead⟩ := segments_relative h hne
  rw [startsWith, components_ofNames hp, components, hsegs]
  by_cases hdot : head = dot
  · simp only [hdot, show dot ≠ [] by decide, if_false, if_true]
    rfl
  · simp only [hhead, hdot, if_false, Component.ofSegment]
    split <;> rfl

end Normalize

/-! ## Disks -/

inductive Node where
  | dir
  | file (bytes : List UInt8)
  deriving DecidableEq, Repr

/-- A tree of directories without links, and the directory that relative paths start from. -/
structure Disk where
  cwd : List String
  cwd_names : ∀ n ∈ cwd, IsName n
  node : List String → Option Node
  parent_dir : ∀ names n, node (names ++ [n]) ≠ none → node names = some .dir

namespace Disk

variable (disk : Disk)

/-- Every segment, a dot too, is looked up in a directory. -/
def walk (dir : List String) : List Segment → Option (List String)
  | [] => some dir
  | s :: segs => if disk.node dir = some .dir then walk (move dir s) segs else none

/-- What a path leads to; no path is empty or contains a null character. -/
def resolve (p : String) : Option (List String) :=
  if p = "" || (segments p).any (·.contains '\x00') then none
  else
    match disk.walk (start disk.cwd p).1 (start disk.cwd p).2 with
    | none => none
    | some names => if disk.node names = none then none else some names

/-- `std::fs::canonicalize`. -/
def canonicalize (p : String) : Option String := (disk.resolve p).map ofNames

/-- `std::fs::read`. -/
def read (p : String) : Option (List UInt8) :=
  match (disk.resolve p).bind disk.node with
  | some (.file bytes) => some bytes
  | _ => none

/-- `std::fs::read_to_string`. -/
def readToString (p : String) : Option String := (disk.read p).bind fun bytes => String.fromUTF8? ⟨bytes.toArray⟩

section Resolve

variable {disk} {dir names : List String} {p : String}

theorem walk_append (xs ys : List Segment) :
    disk.walk dir (xs ++ ys) = (disk.walk dir xs).bind fun mid => disk.walk mid ys := by
  induction xs generalizing dir with
  | nil => rfl
  | cons s xs ih => grind [walk]

theorem walk_eq {segs : List Segment} (h : disk.walk dir segs = some names) : names = segs.foldl move dir := by
  induction segs generalizing dir with
  | nil => exact (Option.some.inj h).symm
  | cons s segs ih => grind [walk]

theorem resolve_some (h : disk.resolve p = some names) :
    p ≠ "" ∧ (segments p).any (·.contains '\x00') = false ∧
      disk.walk (start disk.cwd p).1 (start disk.cwd p).2 = some names ∧ disk.node names ≠ none := by
  unfold resolve at h
  split at h
  · cases h
  · rename_i hp
    simp only [Bool.or_eq_true, not_or, Bool.not_eq_true, decide_eq_false_iff_not] at hp
    split at h
    · cases h
    · grind

theorem resolve_place (h : disk.resolve p = some names) : names = place disk.cwd p :=
  walk_eq (resolve_some h).2.2.1

theorem canonicalize_eq {q : String} (h : disk.canonicalize p = some q) : q = ofNames (place disk.cwd p) := by
  obtain ⟨names, hresolve, rfl⟩ := Option.map_eq_some_iff.mp h
  rw [resolve_place hresolve]

variable {bytes : List UInt8}

theorem read_some (h : disk.read p = some bytes) :
    disk.resolve p = some (place disk.cwd p) ∧ disk.node (place disk.cwd p) = some (.file bytes) := by
  unfold read at h
  split at h
  · rename_i hnode
    obtain rfl := Option.some.inj h
    obtain ⟨names, hresolve, hfile⟩ := Option.bind_eq_some_iff.mp hnode
    rw [← resolve_place hresolve]
    exact ⟨hresolve, hfile⟩
  · cases h

theorem canonicalize_of_read (h : disk.read p = some bytes) :
    disk.canonicalize p = some (ofNames (place disk.cwd p)) := by
  rw [canonicalize, (read_some h).1, Option.map_some]

/-- A directory does not lead to a file by a filler or by two dots: the way to a file ends with its name. -/
theorem move_file {s : Segment} (hdir : disk.node dir = some .dir)
    (h : disk.node (move dir s) = some (.file bytes)) : isFiller s = false ∧ s ≠ dotDot := by
  unfold move at h
  split at h
  · rw [hdir] at h
    cases h
  · rename_i hfiller
    split at h
    · cases hlast : dir.getLast? with
      | none => grind [List.getLast?_eq_none_iff]
      | some n => grind [disk.parent_dir, List.getLast?_eq_some_iff]
    · exact ⟨by simpa using hfiller, ‹_›⟩

/-- The parent of the path of a file is the path of its directory. -/
theorem parent_of_read (h : disk.read p = some bytes) :
    ∃ d n, parent p = some d ∧ place disk.cwd p = place disk.cwd d ++ [n] := by
  obtain ⟨hresolve, hfile⟩ := read_some h
  have hwalk := (resolve_some hresolve).2.2.1
  have hsegs : (start disk.cwd p).2 = (start disk.cwd p).2.dropLast ++ [(start disk.cwd p).2.getLast (start_ne_nil _ _)] :=
    (dropLast_append_getLast _).symm
  rw [hsegs, walk_append] at hwalk
  obtain ⟨mid, -, hlast⟩ := Option.bind_eq_some_iff.mp hwalk
  unfold walk at hlast
  split at hlast
  · rename_i hdir
    rw [← Option.some.inj hlast] at hfile
    obtain ⟨hfiller, hdots⟩ := move_file hdir hfile
    obtain ⟨d, hparent, hplace⟩ := place_parent hsegs hfiller hdots
    exact ⟨d, _, hparent, hplace⟩
  · cases hlast

end Resolve

end Disk

end UnixPath
