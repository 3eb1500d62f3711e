import Mizu.Lib.Cascade

/-!
# Two runs of a worklist that agree on some names

Some names are high, the others low. A rule with a low name reads low names only, does the same to related
states, and leaves them related; one with a high name changes nothing that the relation sees. Then two runs that
start alike on the low names end so (`byIndex_low`), whichever rules with a high name each of them runs.

What is assumed of a run of a rule may depend on a property of the state after it that is inherited backwards.
-/

namespace Cascade

open List

variable {κ σ : Type} [DecidableEq κ]

/-- Rules that keep high names apart from the low ones. -/
structure Separates (rules : List (Rule κ σ)) (readers : κ → List Nat) (high : κ → Prop) (good : σ → Prop)
    (R : σ → σ → Prop) : Prop where
  symm : ∀ s t, R s t → R t s
  back : ∀ r ∈ rules, ∀ s, good (r.fire s).1 → good s
  aside : ∀ r ∈ rules, high r.name → ∀ s t, R s t → good (r.fire s).1 → R (r.fire s).1 t
  alike : ∀ r ∈ rules, ¬high r.name → ∀ s t, R s t → good (r.fire s).1 → good (r.fire t).1 →
    R (r.fire s).1 (r.fire t).1 ∧ (r.fire s).2 = (r.fire t).2
  unset : ∀ r ∈ rules, ¬high r.name → ∀ s t, R s t → r.unset s = r.unset t
  reads : ∀ r ∈ rules, ¬high r.name → ∀ k ∈ r.reads, ¬high k
  readers : ∀ k j, j ∈ readers k ↔ ∃ r, rules[j]? = some r ∧ k ∈ r.reads

/-- States that agree on the low names. -/
structure LowAlike (high : κ → Prop) (R : σ → σ → Prop) (x y : State κ σ) : Prop where
  inner : R x.inner y.inner
  changed : ∀ k, ¬high k → (k ∈ x.changed ↔ k ∈ y.changed)

/-- The position of a rule with a low name. -/
def LowIndex (rules : List (Rule κ σ)) (high : κ → Prop) (i : Nat) : Prop :=
  ∃ r, rules[i]? = some r ∧ ¬high r.name

/-- The candidates agree on the rules with a low name. -/
def LowCandidates (rules : List (Rule κ σ)) (high : κ → Prop) (cs ds : Finset Nat) : Prop :=
  ∀ i, LowIndex rules high i → (i ∈ cs ↔ i ∈ ds)

section Low

variable {rules : List (Rule κ σ)} {readers : κ → List Nat} {high : κ → Prop} {good : σ → Prop}
  {R : σ → σ → Prop} (h : Separates rules readers high good R) {x y : State κ σ} {cs ds : Finset Nat}

omit [DecidableEq κ] in
theorem LowCandidates.symm (hcs : LowCandidates rules high cs ds) : LowCandidates rules high ds cs :=
  fun i hi => (hcs i hi).symm

include h

omit [DecidableEq κ] in
theorem LowAlike.symm (hxy : LowAlike high R x y) : LowAlike high R y x :=
  ⟨h.symm _ _ hxy.inner, fun k hk => (hxy.changed k hk).symm⟩

theorem LowAlike.stale (hxy : LowAlike high R x y) {r : Rule κ σ} (hr : r ∈ rules) (hlow : ¬high r.name) :
    r.stale x.changed = r.stale y.changed := by
  rw [Bool.eq_iff_iff]
  simp only [Rule.stale, any_eq_true, decide_eq_true_eq]
  constructor
  · rintro ⟨k, hk, hchanged⟩
    exact ⟨k, hk, (hxy.changed k (h.reads r hr hlow k hk)).mp hchanged⟩
  · rintro ⟨k, hk, hchanged⟩
    exact ⟨k, hk, (hxy.changed k (h.reads r hr hlow k hk)).mpr hchanged⟩

/-- A low rule is a candidate at the start in both runs or in neither. -/
theorem LowAlike.candidates (hxy : LowAlike high R x y) :
    LowCandidates rules high (candidates rules readers x) (candidates rules readers y) := by
  rintro i ⟨r, hr, hlow⟩
  have hmem := mem_of_getElem? hr
  have hpending : r.pending x.inner = r.pending y.inner := by
    simp only [Rule.pending, h.unset r hmem hlow _ _ hxy.inner]
  have hstale := hxy.stale h hmem hlow
  have hlt := (List.getElem?_eq_some_iff.mp hr).1
  have hcandidate : ∀ z : State κ σ, i ∈ Cascade.candidates rules readers z ↔
      r.stale z.changed = true ∨ r.pending z.inner = true := by
    intro z
    simp only [Cascade.candidates, Finset.mem_union, Finset.mem_biUnion, mem_toFinset, h.readers, hr,
      Option.some.injEq, exists_eq_left', Finset.mem_filter, Finset.mem_range, hlt, true_and, Option.any_some,
      Rule.stale, any_eq_true, decide_eq_true_eq]
    exact or_congr_left (exists_congr fun _ => and_comm)
  rw [hcandidate, hcandidate, hstale, hpending]

theorem good_of_byIndex {n : Nat} (hgood : good (byIndex rules readers n x cs).inner) : good x.inner := by
  induction n generalizing x cs with
  | zero => exact hgood
  | succ n ih =>
    rw [byIndex_succ] at hgood
    split at hgood
    · rename_i hne
      have hround := ih hgood
      unfold round at hround
      dsimp only at hround
      split at hround
      · exact hround
      · rename_i r hr
        split at hround
        · exact hround
        · exact h.back r (mem_of_getElem? hr) _ hround
    · exact hgood

theorem round_aside (hxy : LowAlike high R x y) (hcs : LowCandidates rules high cs ds) (hne : cs.Nonempty)
    (hhigh : ¬LowIndex rules high (cs.min' hne)) (hgood : good (round rules readers x cs hne).1.inner) :
    LowAlike high R (round rules readers x cs hne).1 y ∧
      LowCandidates rules high (round rules readers x cs hne).2 ds := by
  have herase : LowCandidates rules high (cs.erase (cs.min' hne)) ds := by
    intro i hi
    rw [Finset.mem_erase, hcs i hi]
    refine and_iff_right ?_
    rintro rfl
    exact hhigh hi
  unfold round at hgood ⊢
  dsimp only at hgood ⊢
  split
  · exact ⟨hxy, herase⟩
  · rename_i r hr
    have hmem := mem_of_getElem? hr
    have hname : high r.name := by
      by_contra hlow
      exact hhigh ⟨r, hr, hlow⟩
    rw [hr] at hgood
    dsimp only at hgood
    split
    · exact ⟨hxy, herase⟩
    · rename_i hrun
      rw [if_neg hrun] at hgood
      refine ⟨⟨h.aside r hmem hname _ _ hxy.inner hgood, fun k hk => ?_⟩, fun i hi => ?_⟩
      · grind [hxy.changed, Rule.run]
      · -- A rule with a low name does not read the one that was written.
        rw [Finset.mem_union, herase i hi]
        refine or_iff_left fun hwoken => ?_
        obtain ⟨r', hr', hlow⟩ := hi
        split at hwoken
        · obtain ⟨r'', hr'', hread⟩ := (h.readers _ _).mp (mem_toFinset.mp hwoken)
          rw [hr'] at hr''
          obtain rfl := Option.some.inj hr''
          exact h.reads r' (mem_of_getElem? hr') hlow _ hread hname
        · cases hwoken

theorem round_alike (hxy : LowAlike high R x y) (hcs : LowCandidates rules high cs ds) (hne : cs.Nonempty)
    (hne' : ds.Nonempty) (hmin : cs.min' hne = ds.min' hne') (hlow : LowIndex rules high (cs.min' hne))
    (hgood : good (round rules readers x cs hne).1.inner) (hgood' : good (round rules readers y ds hne').1.inner) :
    LowAlike high R (round rules readers x cs hne).1 (round rules readers y ds hne').1 ∧
      LowCandidates rules high (round rules readers x cs hne).2 (round rules readers y ds hne').2 := by
  obtain ⟨r, hr, hname⟩ := hlow
  have hmem := mem_of_getElem? hr
  have herase : LowCandidates rules high (cs.erase (cs.min' hne)) (ds.erase (cs.min' hne)) := by
    intro i hi
    rw [Finset.mem_erase, Finset.mem_erase, hcs i hi]
  unfold round at hgood hgood' ⊢
  dsimp only at hgood hgood' ⊢
  rw [← hmin] at hgood' ⊢
  rw [hr] at hgood hgood' ⊢
  dsimp only at hgood hgood' ⊢
  rw [← hxy.stale h hmem hname] at hgood' ⊢
  by_cases hskip : (!r.reads.isEmpty && !r.stale x.changed) = true
  · rw [if_pos hskip, if_pos hskip]
    exact ⟨hxy, herase⟩
  · rw [if_neg hskip] at hgood hgood'
    rw [if_neg hskip, if_neg hskip]
    obtain ⟨hinner, hwrote⟩ := h.alike r hmem hname _ _ hxy.inner hgood hgood'
    have hchanged : ∀ k, ¬high k → (k ∈ (r.run x).changed ↔ k ∈ (r.run y).changed) := by
      grind [hxy.changed, Rule.run]
    refine ⟨⟨hinner, hchanged⟩, fun i hi => ?_⟩
    rw [Finset.mem_union, Finset.mem_union, herase i hi]
    have hfresh : r.name ∈ (r.run x).changed \ x.changed ↔ r.name ∈ (r.run y).changed \ y.changed := by
      grind [hxy.changed]
    simp only [hfresh]

/-- Two runs that start alike on the low names end so. -/
theorem byIndex_low {n m : Nat} (hxy : LowAlike high R x y) (hcs : LowCandidates rules high cs ds)
    (hn : bound rules readers x cs ≤ n) (hm : bound rules readers y ds ≤ m)
    (hgood : good (byIndex rules readers n x cs).inner) (hgood' : good (byIndex rules readers m y ds).inner) :
    LowAlike high R (byIndex rules readers n x cs) (byIndex rules readers m y ds) := by
  -- Each round of either run is made by that run alone or by both.
  induction hsum : n + m using Nat.strong_induction_on generalizing n m x y cs ds with
  | _ k ih =>
    have hleft : ∀ hne : cs.Nonempty, ¬LowIndex rules high (cs.min' hne) →
        LowAlike high R (byIndex rules readers n x cs) (byIndex rules readers m y ds) := by
      intro hne hhigh
      obtain ⟨n, rfl⟩ : ∃ n', n = n' + 1 :=
        Nat.exists_eq_succ_of_ne_zero fun hzero => not_nonempty_of_bound (hzero ▸ hn) hne
      rw [byIndex_succ, dif_pos hne] at hgood ⊢
      obtain ⟨hxy', hcs'⟩ := round_aside h hxy hcs hne hhigh (good_of_byIndex h hgood)
      have hround := bound_round rules readers x hne
      exact ih (n + m) (by omega) hxy' hcs' (by omega) hm hgood hgood' rfl
    have hright : ∀ hne : ds.Nonempty, ¬LowIndex rules high (ds.min' hne) →
        LowAlike high R (byIndex rules readers n x cs) (byIndex rules readers m y ds) := by
      intro hne hhigh
      obtain ⟨m, rfl⟩ : ∃ m', m = m' + 1 :=
        Nat.exists_eq_succ_of_ne_zero fun hzero => not_nonempty_of_bound (hzero ▸ hm) hne
      rw [byIndex_succ, dif_pos hne] at hgood' ⊢
      obtain ⟨hxy', hcs'⟩ := round_aside h (hxy.symm h) hcs.symm hne hhigh (good_of_byIndex h hgood')
      have hround := bound_round rules readers y hne
      exact ih (n + m) (by omega) (hxy'.symm h) hcs'.symm hn (by omega) hgood hgood' rfl
    by_cases hne : cs.Nonempty
    · by_cases hlow : LowIndex rules high (cs.min' hne)
      · have hin : cs.min' hne ∈ ds := (hcs _ hlow).mp (cs.min'_mem hne)
        have hne' : ds.Nonempty := ⟨_, hin⟩
        by_cases hlow' : LowIndex rules high (ds.min' hne')
        · have hin' : ds.min' hne' ∈ cs := (hcs _ hlow').mpr (ds.min'_mem hne')
          have hmin : cs.min' hne = ds.min' hne' :=
            Nat.le_antisymm (cs.min'_le _ hin') (ds.min'_le _ hin)
          obtain ⟨n, rfl⟩ : ∃ n', n = n' + 1 :=
            Nat.exists_eq_succ_of_ne_zero fun hzero => not_nonempty_of_bound (hzero ▸ hn) hne
          obtain ⟨m, rfl⟩ : ∃ m', m = m' + 1 :=
            Nat.exists_eq_succ_of_ne_zero fun hzero => not_nonempty_of_bound (hzero ▸ hm) hne'
          rw [byIndex_succ, dif_pos hne] at hgood ⊢
          rw [byIndex_succ, dif_pos hne'] at hgood' ⊢
          obtain ⟨hxy', hcs'⟩ := round_alike h hxy hcs hne hne' hmin hlow (good_of_byIndex h hgood)
            (good_of_byIndex h hgood')
          have hround := bound_round rules readers x hne
          have hround' := bound_round rules readers y hne'
          exact ih (n + m) (by omega) hxy' hcs' (by omega) (by omega) hgood hgood' rfl
        · exact hright hne' hlow'
      · exact hleft hne hlow
    · by_cases hne' : ds.Nonempty
      · refine hright hne' fun hlow => hne ?_
        exact ⟨_, (hcs _ hlow).mpr (ds.min'_mem hne')⟩
      · have hdone : ∀ (z : State κ σ) (es : Finset Nat) k, ¬es.Nonempty → byIndex rules readers k z es = z := by
          intro z es k hes
          cases k with
          | zero => rfl
          | succ k => rw [byIndex_succ, dif_neg hes]
        rw [hdone x cs n hne, hdone y ds m hne']
        exact hxy

end Low

end Cascade
