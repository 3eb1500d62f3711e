import Mathlib

/-!
# Paths of URLs

The segments of a path and the removal of dot segments (RFC 3986, section 5.2.4), segment by segment.

* `segmentsFrom_append`: what stands on both sides of a junction shares one segment.
* `removeDots_length_iff`: when removal keeps the number of segments.
-/

namespace UrlPath

open List

abbrev Segment := List Char

/-- The segments of what follows the first slash of a path. -/
def segmentsFrom : List Char → List Segment
  | [] => [[]]
  | c :: cs =>
    if c = '/' then [] :: segmentsFrom cs
    else
      match segmentsFrom cs with
      | s :: rest => (c :: s) :: rest
      | [] => [[c]]

/-- The segments of a path, which is empty or starts with a slash. -/
def segments : List Char → List Segment
  | [] => []
  | _ :: cs => segmentsFrom cs

def dot : Segment := ['.']

def dotDot : Segment := ['.', '.']

/-- A segment that removal drops or that drops the one before it. -/
def IsDots (s : Segment) : Prop := s = dot ∨ s = dotDot

instance (s : Segment) : Decidable (IsDots s) := inferInstanceAs (Decidable (_ ∨ _))

/-- The directories that a list of segments leads to. -/
def directories (out : List Segment) : List Segment → List Segment
  | [] => out
  | s :: rest =>
    if s = dot then directories out rest
    else if s = dotDot then directories out.dropLast rest
    else directories (out ++ [s]) rest

/-- The last segment; a dot segment there leaves a slash behind. -/
def closing (out : List Segment) (s : Segment) : List Segment :=
  if s = dot then out ++ [[]] else if s = dotDot then out.dropLast ++ [[]] else out ++ [s]

/-- `remove_dot_segments`. -/
def removeDots (segs : List Segment) : List Segment :=
  match segs.getLast? with
  | none => []
  | some s => closing (directories [] segs.dropLast) s

/-! ## Segments -/

theorem segmentsFrom_ne_nil (cs : List Char) : segmentsFrom cs ≠ [] := by
  cases cs with
  | nil => exact cons_ne_nil _ _
  | cons c cs => grind [segmentsFrom]

theorem segmentsFrom_slash (cs : List Char) : segmentsFrom ('/' :: cs) = [] :: segmentsFrom cs := by
  rw [segmentsFrom, if_pos rfl]

variable {s : Segment}

theorem segmentsFrom_cons {c : Char} (hc : c ≠ '/') {cs : List Char} {rest : List Segment}
    (h : segmentsFrom cs = s :: rest) : segmentsFrom (c :: cs) = (c :: s) :: rest := by
  rw [segmentsFrom, if_neg hc, h]

/-- At a junction the last segment before it and the first after it are one. -/
theorem segmentsFrom_append {x y : List Char} {xs ys : List Segment} {a b : Segment}
    (hx : segmentsFrom x = xs ++ [a]) (hy : segmentsFrom y = b :: ys) :
    segmentsFrom (x ++ y) = xs ++ (a ++ b) :: ys := by
  induction x generalizing xs a with
  | nil =>
    have hnil : [] = xs ∧ [] = a := by
      grind [segmentsFrom, length_cons, eq_nil_of_length_eq_zero]
    obtain ⟨rfl, rfl⟩ := hnil
    exact hy
  | cons c x ih =>
    by_cases hc : c = '/'
    · subst hc
      rw [segmentsFrom_slash] at hx
      cases xs with
      | nil => grind [segmentsFrom_ne_nil]
      | cons s xs => grind [segmentsFrom_slash]
    · obtain ⟨s, rest, hs⟩ := exists_cons_of_ne_nil (segmentsFrom_ne_nil x)
      rw [segmentsFrom_cons hc hs] at hx
      cases xs with
      | nil =>
        obtain ⟨rfl, rfl⟩ := List.cons.inj hx
        have happ := @ih [] s hs
        rw [cons_append, segmentsFrom_cons hc happ]
        rfl
      | cons s' xs => grind [segmentsFrom_cons]

variable {x : List Char}

theorem segmentsFrom_of_notMem (h : '/' ∉ x) : segmentsFrom x = [x] := by
  induction x with
  | nil => rfl
  | cons c x ih =>
    rw [mem_cons, not_or] at h
    exact segmentsFrom_cons (Ne.symm h.1) (ih h.2)

theorem segmentsFrom_append_slash (x y : List Char) :
    segmentsFrom (x ++ '/' :: y) = segmentsFrom x ++ segmentsFrom y := by
  obtain ⟨xs, a, hx⟩ : ∃ xs a, segmentsFrom x = xs ++ [a] :=
    ⟨_, _, (dropLast_append_getLast (segmentsFrom_ne_nil x)).symm⟩
  rw [segmentsFrom_append hx (segmentsFrom_slash y), hx, append_nil, append_assoc]
  rfl

theorem segmentsFrom_eq_concat (x : List Char) : ∃ xs a, segmentsFrom x = xs ++ [a] :=
  ⟨_, _, (dropLast_append_getLast (segmentsFrom_ne_nil x)).symm⟩

theorem segmentsFrom_eq_singleton (h : segmentsFrom x = [s]) : '/' ∉ x ∧ s = x := by
  have hslash : '/' ∉ x := by
    intro hmem
    obtain ⟨y, z, rfl⟩ := append_of_mem hmem
    have hlen := congrArg List.length h
    have hy := length_pos_of_ne_nil (segmentsFrom_ne_nil y)
    have hz := length_pos_of_ne_nil (segmentsFrom_ne_nil z)
    rw [segmentsFrom_append_slash, length_append, length_singleton] at hlen
    omega
  rw [segmentsFrom_of_notMem hslash] at h
  exact ⟨hslash, (singleton_inj.mp h).symm⟩

/-- A path without the slashes at its end. -/
def trimSlashes (x : List Char) : List Char := x.rdropWhile (· = '/')

theorem trimSlashes_eq_append (x : List Char) : ∃ k, x = trimSlashes x ++ List.replicate k '/' := by
  refine ⟨(x.rtakeWhile (· = '/')).length, ?_⟩
  have hall : ∀ c ∈ x.rtakeWhile (· = '/'), c = '/' := fun c hc => by
    simpa using mem_rtakeWhile_imp hc
  rw [← eq_replicate_of_mem hall]
  exact rdropWhile_append_rtakeWhile.symm

theorem trimSlashes_getLast? (x : List Char) : (trimSlashes x).getLast? ≠ some '/' := by
  intro h
  obtain ⟨ys, hys⟩ := List.getLast?_eq_some_iff.mp h
  have hagain : trimSlashes (ys ++ ['/']) = ys ++ ['/'] := by
    rw [← hys]
    exact rdropWhile_idempotent _ x
  rw [trimSlashes, rdropWhile_concat_pos _ _ _ (by simp)] at hagain
  have hle := ( rdropWhile_prefix (fun c => decide (c = '/')) (l := ys)).length_le
  rw [hagain, length_append, length_singleton] at hle
  omega

theorem trimSlashes_append (h : x.getLast? ≠ some '/') (k : Nat) :
    trimSlashes (x ++ List.replicate k '/') = x := by
  induction k with
  | zero =>
    rw [replicate_zero, append_nil, trimSlashes, rdropWhile_eq_self_iff]
    intro hne hlast
    refine h ((List.getLast?_eq_some_getLast hne).trans ?_)
    rw [of_decide_eq_true hlast]
  | succ k ih => grind [replicate_succ', trimSlashes, rdropWhile_concat_pos]

/-- Slashes are trimmed no further than a prefix that does not end in one. -/
theorem trimSlashes_append_left (h : x.getLast? ≠ some '/') (y : List Char) :
    trimSlashes (x ++ y) = x ++ trimSlashes y := by
  obtain ⟨k, hk⟩ := trimSlashes_eq_append y
  have hend : (x ++ trimSlashes y).getLast? ≠ some '/' := by
    by_cases hnil : trimSlashes y = []
    · rwa [hnil, append_nil]
    · rw [List.getLast?_append, List.getLast?_eq_some_getLast hnil, Option.some_or,
        ← List.getLast?_eq_some_getLast hnil]
      exact trimSlashes_getLast? y
  have happ := trimSlashes_append hend k
  rwa [append_assoc, ← hk] at happ

/-! ## Dot segments -/

theorem directories_length_le (segs out : List Segment) :
    (directories out segs).length ≤ out.length + segs.length := by
  induction segs generalizing out with
  | nil => exact Nat.le_refl _
  | cons s rest ih =>
    rw [directories, length_cons]
    split
    · have hle := ih out
      omega
    split
    · have hle := ih out.dropLast
      rw [length_dropLast] at hle
      omega
    · have hle := ih (out ++ [s])
      rw [length_append, length_singleton] at hle
      omega

theorem directories_length_lt {segs : List Segment} (h : ∃ s ∈ segs, IsDots s) (out : List Segment) :
    (directories out segs).length < out.length + segs.length := by
  induction segs generalizing out with
  | nil =>
    obtain ⟨s, hs, -⟩ := h
    cases hs
  | cons s rest ih =>
    rw [directories, length_cons]
    by_cases hdot : s = dot
    · have hle := directories_length_le rest out
      rw [if_pos hdot]
      omega
    rw [if_neg hdot]
    by_cases hdotDot : s = dotDot
    · have hle := directories_length_le rest out.dropLast
      rw [length_dropLast] at hle
      rw [if_pos hdotDot]
      omega
    rw [if_neg hdotDot]
    have hrest : ∃ s ∈ rest, IsDots s := by
      obtain ⟨t, ht, hdots⟩ := h
      rcases mem_cons.mp ht with rfl | ht
      · exact absurd hdots (not_or.mpr ⟨hdot, hdotDot⟩)
      · exact ⟨t, ht, hdots⟩
    have hlt := ih hrest (out ++ [s])
    rw [length_append, length_singleton] at hlt
    omega

theorem directories_of_plain {segs : List Segment} (h : ∀ s ∈ segs, ¬IsDots s) (out : List Segment) :
    directories out segs = out ++ segs := by
  induction segs generalizing out with
  | nil => exact (append_nil out).symm
  | cons s rest ih =>
    obtain ⟨hdot, hdotDot⟩ := not_or.mp (h s (.head _))
    rw [directories, if_neg hdot, if_neg hdotDot, ih (fun t ht => h t (.tail _ ht)), append_assoc]
    rfl

theorem directories_append (xs ys out : List Segment) :
    directories out (xs ++ ys) = directories (directories out xs) ys := by
  induction xs generalizing out with
  | nil => rfl
  | cons s xs ih => grind [directories]

@[simp] theorem removeDots_concat (xs : List Segment) (s : Segment) :
    removeDots (xs ++ [s]) = closing (directories [] xs) s := by
  rw [removeDots, List.getLast?_concat, dropLast_concat]

/-- Removal keeps the number of segments: there is no dot segment before the last, which is not two dots
unless it is the only one. -/
def Kept (segs : List Segment) : Prop :=
  (∀ s ∈ segs.dropLast, ¬IsDots s) ∧ (segs.getLast? = some dotDot → segs.length = 1)

/-- A last segment after removal. -/
def closed (s : Segment) : Segment := if IsDots s then [] else s

theorem kept_concat {xs : List Segment} :
    Kept (xs ++ [s]) ↔ (∀ t ∈ xs, ¬IsDots t) ∧ (s = dotDot → xs = []) := by
  rw [Kept, dropLast_concat, List.getLast?_concat, Option.some.injEq, length_append,
    length_singleton, Nat.add_eq_right, length_eq_zero_iff]

theorem removeDots_of_kept {xs : List Segment} (h : Kept (xs ++ [s])) :
    removeDots (xs ++ [s]) = xs ++ [closed s] := by
  obtain ⟨hxs, hlast⟩ := kept_concat.mp h
  rw [removeDots_concat, directories_of_plain hxs, nil_append, closing, closed]
  by_cases hdot : s = dot
  · rw [if_pos hdot, if_pos (.inl hdot)]
  rw [if_neg hdot]
  by_cases hdotDot : s = dotDot
  · rw [if_pos hdotDot, if_pos (.inr hdotDot), hlast hdotDot]
    rfl
  · have hplain : ¬IsDots s := not_or.mpr ⟨hdot, hdotDot⟩
    rw [if_neg hdotDot, if_neg hplain]

theorem isDots_iff : IsDots s ↔ ∃ n, (n = 1 ∨ n = 2) ∧ s = List.replicate n '.' := by
  constructor
  · rintro (rfl | rfl)
    · exact ⟨1, .inl rfl, rfl⟩
    · exact ⟨2, .inr rfl, rfl⟩
  · rintro ⟨n, rfl | rfl, rfl⟩
    · exact .inl rfl
    · exact .inr rfl

/-- Of a last segment of at most two dots nothing is left. -/
theorem closed_eq_nil_iff : closed s = [] ↔ ∃ n ≤ 2, s = List.replicate n '.' := by
  rw [closed]
  split
  · rename_i hdots
    obtain ⟨n, hn, rfl⟩ := isDots_iff.mp hdots
    exact ⟨fun _ => ⟨n, by omega, rfl⟩, fun _ => rfl⟩
  · rename_i hplain
    constructor
    · rintro rfl
      exact ⟨0, by omega, rfl⟩
    · rintro ⟨n, hn, rfl⟩
      by_cases hzero : n = 0
      · rw [hzero]
        rfl
      · exact absurd (isDots_iff.mpr ⟨n, by omega, rfl⟩) hplain

theorem closed_inj {s t : Segment} (h : closed s = closed t) : s = t ∨ closed s = [] ∧ closed t = [] := by
  by_cases hs : IsDots s
  · have hnil : closed s = [] := if_pos hs
    exact .inr ⟨hnil, h ▸ hnil⟩
  by_cases ht : IsDots t
  · have hnil : closed t = [] := if_pos ht
    exact .inr ⟨h.trans hnil, hnil⟩
  · rw [closed, if_neg hs, closed, if_neg ht] at h
    exact .inl h

theorem removeDots_length_iff (segs : List Segment) :
    (removeDots segs).length = segs.length ↔ Kept segs := by
  rcases eq_nil_or_concat segs with rfl | ⟨xs, s, rfl⟩
  · exact ⟨fun _ => ⟨fun _ h => absurd h not_mem_nil, fun h => nomatch h⟩, fun _ => rfl⟩
  rw [concat_eq_append]
  constructor
  · intro hlen
    rw [removeDots_concat, length_append, length_singleton] at hlen
    have hle := directories_length_le xs []
    have hplain : ∀ t ∈ xs, ¬IsDots t := by
      intro t ht hdots
      have hlt := directories_length_lt ⟨t, ht, hdots⟩ []
      rw [closing] at hlen
      split at hlen
      · simp at hlen hlt
        omega
      split at hlen
      · simp at hlen hlt
        omega
      · simp at hlen hlt
        omega
    refine kept_concat.mpr ⟨hplain, fun hs => ?_⟩
    rw [directories_of_plain hplain, hs, closing, if_neg (by decide), if_pos rfl] at hlen
    simp at hlen
    exact eq_nil_of_length_eq_zero (by omega)
  · intro h
    rw [removeDots_of_kept h, length_append, length_append]
    rfl

/-- What removal makes of a path is not what trimming its slashes leaves, followed by one more segment. -/
theorem removeDots_ne_directories (x : List Char) (hx : x = [] ∨ ∃ u, x = '/' :: u) (hs : s ≠ []) :
    removeDots (segments x) ≠ directories [] (segments (trimSlashes x)) ++ [s] := by
  rcases hx with rfl | ⟨u, rfl⟩
  · exact (concat_ne_nil s _).symm
  obtain ⟨xs, a, ha⟩ := segmentsFrom_eq_concat u
  intro h
  rw [show segments ('/' :: u) = xs ++ [a] from ha, removeDots_concat, closing] at h
  by_cases hdot : a = dot
  · rw [if_pos hdot] at h
    exact hs ((append_inj' h rfl).2 |> singleton_inj.mp).symm
  rw [if_neg hdot] at h
  by_cases hdotDot : a = dotDot
  · rw [if_pos hdotDot] at h
    exact hs ((append_inj' h rfl).2 |> singleton_inj.mp).symm
  rw [if_neg hdotDot] at h
  have hnil : a ≠ [] := by
    rintro rfl
    exact hs ((append_inj' h rfl).2 |> singleton_inj.mp).symm
  -- The last segment is not empty, so there is no slash to trim.
  have htrim : trimSlashes ('/' :: u) = '/' :: u := by
    have hlast : ('/' :: u).getLast? ≠ some '/' := by
      intro hlast
      obtain ⟨ys, hys⟩ := List.getLast?_eq_some_iff.mp hlast
      cases ys with
      | nil =>
        obtain rfl : u = [] := (List.cons.inj hys).2
        have hsingle : [] ++ [[]] = xs ++ [a] := ha
        exact hnil ((append_inj' hsingle rfl).2 |> singleton_inj.mp).symm
      | cons y ys =>
        obtain rfl : u = ys ++ ['/'] := (List.cons.inj hys).2
        rw [segmentsFrom_append_slash] at ha
        exact hnil ((append_inj' ha rfl).2 |> singleton_inj.mp).symm
    have h := trimSlashes_append hlast 0
    rwa [replicate_zero, append_nil] at h
  have hlen := congrArg List.length h
  rw [htrim, show segments ('/' :: u) = xs ++ [a] from ha, directories_append, directories, if_neg hdot,
    if_neg hdotDot, directories] at hlen
  simp at hlen

end UrlPath
