import Mathlib

/-!
# Change propagation

Rules that each write one name from the names they read, run after some names changed. A scan looks
at every rule in order; a worklist jumps from a changed name to the rules that read it.

* `byIndex_eq_scan`: both run the same rules in the same order when no rule writes what an earlier
  one reads.
* `byIndex_fuel`: the worklist runs empty, after as many `rounds` as it had candidates.
* `scan_settles`: a scan brings every rule up to date.
* `byIndex_related`: two sets of rules that do the same to related states, side by side.
-/

namespace Cascade

open List

variable {κ σ : Type}

structure Rule (κ σ : Type) where
  name : κ
  reads : List κ
  /-- A rule that reads nothing is run while this holds. -/
  unset : σ → Bool
  /-- Runs the rule and says whether it wrote its name. -/
  fire : σ → σ × Bool

structure State (κ σ : Type) where
  inner : σ
  changed : Finset κ

section Defs

variable [DecidableEq κ]

/-- Something the rule reads changed. -/
def Rule.stale (r : Rule κ σ) (changed : Finset κ) : Bool := r.reads.any (· ∈ changed)

/-- The rule reads nothing and has not been run. -/
def Rule.pending (r : Rule κ σ) (s : σ) : Bool := r.reads.isEmpty && r.unset s

def Rule.run (r : Rule κ σ) (x : State κ σ) : State κ σ :=
  let (s, wrote) := r.fire x.inner
  { inner := s, changed := if wrote then insert r.name x.changed else x.changed }

/-- Every rule in order. -/
def scan (rules : List (Rule κ σ)) (x : State κ σ) : State κ σ :=
  rules.foldl (fun x r => if r.pending x.inner || r.stale x.changed then r.run x else x) x

variable (rules : List (Rule κ σ)) (readers : κ → List Nat)

/-- The rules to look at first. -/
def candidates (x : State κ σ) : Finset Nat :=
  (x.changed.biUnion fun k => (readers k).toFinset) ∪
    (Finset.range rules.length).filter fun i => rules[i]?.any (·.pending x.inner)

/-- The worklist: the least candidate first. A rule that wrote a name for the first time makes the
rules that read it candidates. -/
def byIndex : Nat → State κ σ → Finset Nat → State κ σ
  | 0, x, _ => x
  | fuel + 1, x, cs =>
    if h : cs.Nonempty then
      let i := cs.min' h
      match rules[i]? with
      | none => byIndex fuel x (cs.erase i)
      | some r =>
        if !r.reads.isEmpty && !r.stale x.changed then byIndex fuel x (cs.erase i)
        else
          let y := r.run x
          let woken := if r.name ∈ y.changed \ x.changed then (readers r.name).toFinset else ∅
          byIndex fuel y (cs.erase i ∪ woken)
    else x

/-- One round of the worklist: what it leaves and the candidates after it. -/
def round (x : State κ σ) (cs : Finset Nat) (h : cs.Nonempty) : State κ σ × Finset Nat :=
  let i := cs.min' h
  match rules[i]? with
  | none => (x, cs.erase i)
  | some r =>
    if !r.reads.isEmpty && !r.stale x.changed then (x, cs.erase i)
    else
      let y := r.run x
      let woken := if r.name ∈ y.changed \ x.changed then (readers r.name).toFinset else ∅
      (y, cs.erase i ∪ woken)

/-- How many rounds the worklist makes. -/
def rounds : Nat → State κ σ → Finset Nat → Nat
  | 0, _, _ => 0
  | fuel + 1, x, cs =>
    if h : cs.Nonempty then
      let y := round rules readers x cs h
      rounds fuel y.1 y.2 + 1
    else 0

/-- How many candidates there can be in all. -/
def bound (x : State κ σ) (cs : Finset Nat) : Nat :=
  cs.card + ((rules.map (·.name)).toFinset \ x.changed).sum fun k => (readers k).length

end Defs

variable {x : State κ σ} {cs : Finset Nat} {r : Rule κ σ}

section Worklist

variable [DecidableEq κ] {rules : List (Rule κ σ)} {readers : κ → List Nat}

theorem byIndex_invariant {I : State κ σ → Prop} (hrun : ∀ r ∈ rules, ∀ x, I x → I (r.run x))
    (fuel : Nat) (hx : I x) (cs : Finset Nat) : I (byIndex rules readers fuel x cs) := by
  induction fuel generalizing x cs with
  | zero => exact hx
  | succ fuel ih => grind [byIndex]

theorem changed_subset_run (r : Rule κ σ) (x : State κ σ) : x.changed ⊆ (r.run x).changed := by
  grind [Rule.run]

theorem changed_run_subset (r : Rule κ σ) (x : State κ σ) :
    (r.run x).changed ⊆ insert r.name x.changed := by
  grind [Rule.run]

/-- A round takes a candidate away, and adds some only when one more name has changed. -/
theorem bound_run (readers : κ → List Nat) (hr : r ∈ rules) (x : State κ σ) {i : Nat} (hi : i ∈ cs) :
    bound rules readers (r.run x) (cs.erase i ∪
      if r.name ∈ (r.run x).changed \ x.changed then (readers r.name).toFinset else ∅) + 1 ≤
        bound rules readers x cs := by
  have hcard := Finset.card_erase_add_one hi
  unfold bound
  split
  · rename_i hnew
    rw [Finset.mem_sdiff] at hnew
    have hleft : r.name ∈ (rules.map (·.name)).toFinset \ x.changed := by grind [mem_toFinset]
    have hsum := Finset.add_sum_erase _ (fun k => (readers k).length) hleft
    have herase : ((rules.map (·.name)).toFinset \ x.changed).erase r.name =
        (rules.map (·.name)).toFinset \ (r.run x).changed := by
      have hchanged : (r.run x).changed = insert r.name x.changed :=
        Finset.Subset.antisymm (changed_run_subset r x)
          (Finset.insert_subset hnew.1 (changed_subset_run r x))
      rw [hchanged]
      ext k
      simp only [Finset.mem_erase, Finset.mem_sdiff, Finset.mem_insert, not_or]
      tauto
    rw [herase] at hsum
    have hunion := Finset.card_union_le (cs.erase i) (readers r.name).toFinset
    have hlen := toFinset_card_le (readers r.name)
    omega
  · have hsum : (((rules.map (·.name)).toFinset \ (r.run x).changed).sum fun k => (readers k).length) ≤
        ((rules.map (·.name)).toFinset \ x.changed).sum fun k => (readers k).length :=
      Finset.sum_le_sum_of_subset (Finset.sdiff_subset_sdiff (Finset.Subset.refl _)
        (changed_subset_run r x))
    rw [Finset.union_empty]
    omega

theorem byIndex_succ (fuel : Nat) (x : State κ σ) (cs : Finset Nat) :
    byIndex rules readers (fuel + 1) x cs =
      if h : cs.Nonempty then
        byIndex rules readers fuel (round rules readers x cs h).1 (round rules readers x cs h).2
      else x := by
  conv_lhs => unfold byIndex
  by_cases h : cs.Nonempty
  · rw [dif_pos h, dif_pos h]
    unfold round
    dsimp only
    split
    · rfl
    · split
      · rfl
      · rfl
  · rw [dif_neg h, dif_neg h]

variable (rules readers) in
theorem bound_round (x : State κ σ) (h : cs.Nonempty) :
    bound rules readers (round rules readers x cs h).1 (round rules readers x cs h).2 + 1 ≤
      bound rules readers x cs := by
  have hmin := cs.min'_mem h
  have hcard := Finset.card_erase_add_one hmin
  have hskip : bound rules readers x (cs.erase (cs.min' h)) + 1 = bound rules readers x cs := by
    unfold bound
    omega
  unfold round
  dsimp only
  split
  · exact hskip.le
  · rename_i r hr
    split
    · exact hskip.le
    · exact bound_run readers (mem_of_getElem? hr) x hmin

theorem not_nonempty_of_bound (h : bound rules readers x cs ≤ 0) : ¬cs.Nonempty := by
  grind [bound]

/-- Fuel beyond the bound changes nothing: the worklist has run empty. -/
theorem byIndex_fuel {fuel fuel' : Nat}
    (h : bound rules readers x cs ≤ fuel) (h' : bound rules readers x cs ≤ fuel') :
    byIndex rules readers fuel x cs = byIndex rules readers fuel' x cs := by
  induction fuel generalizing fuel' x cs with
  | zero =>
    cases fuel' with
    | zero => rfl
    | succ fuel' => rw [byIndex_succ, dif_neg (not_nonempty_of_bound h), byIndex]
  | succ fuel ih =>
    cases fuel' with
    | zero => rw [byIndex_succ, dif_neg (not_nonempty_of_bound h'), byIndex]
    | succ fuel' =>
      rw [byIndex_succ, byIndex_succ]
      split
      · rename_i hne
        have hround := bound_round rules readers x hne
        exact ih (by omega) (by omega)
      · rfl

theorem rounds_le_bound (fuel : Nat) (x : State κ σ) (cs : Finset Nat) :
    rounds rules readers fuel x cs ≤ bound rules readers x cs := by
  induction fuel generalizing x cs with
  | zero => exact Nat.zero_le _
  | succ fuel ih =>
    unfold rounds
    split
    · rename_i hne
      have hround := bound_round rules readers x hne
      have hrest := ih (round rules readers x cs hne).1 (round rules readers x cs hne).2
      dsimp only
      omega
    · exact Nat.zero_le _

/-- With enough fuel, every candidate gets its round. -/
theorem card_le_rounds (fuel : Nat) (x : State κ σ) (cs : Finset Nat) :
    min cs.card fuel ≤ rounds rules readers fuel x cs := by
  induction fuel generalizing x cs with
  | zero => exact Nat.min_le_right _ _
  | succ fuel ih =>
    unfold rounds
    split
    · rename_i hne
      have hcard : cs.card ≤ (round rules readers x cs hne).2.card + 1 := by
        have herase := Finset.card_erase_add_one (cs.min'_mem hne)
        unfold round
        dsimp only
        split
        · exact herase.ge
        · split
          · exact herase.ge
          · rw [← herase]
            exact Nat.succ_le_succ (Finset.card_le_card Finset.subset_union_left)
      have hrest := ih (round rules readers x cs hne).1 (round rules readers x cs hne).2
      dsimp only
      omega
    · rename_i hne
      rw [Finset.not_nonempty_iff_eq_empty] at hne
      simp [hne]

end Worklist

/-! ## A worklist and a scan -/

section Scan

variable [DecidableEq κ] {rules : List (Rule κ σ)} {readers : κ → List Nat}

/-- No rule writes what it or an earlier one reads, and a rule that reads nothing is the first to
write its name. -/
structure Sorted (rules : List (Rule κ σ)) : Prop where
  later : rules.Pairwise fun r r' => r'.name ∉ r.reads ∧ (r'.reads = [] → r'.name ≠ r.name)
  self : ∀ r ∈ rules, r.name ∉ r.reads

/-- Running a rule does not change whether another name has been written. -/
def Separate (rules : List (Rule κ σ)) : Prop :=
  ∀ r ∈ rules, ∀ r' ∈ rules, r'.name ≠ r.name → ∀ s, r'.unset (r.fire s).1 = r'.unset s

/-- A candidate after `n` rules: one of the rest that is to be run. -/
def Due (rules : List (Rule κ σ)) (x : State κ σ) (n j : Nat) : Prop :=
  n ≤ j ∧ ∃ r, rules[j]? = some r ∧ (r.pending x.inner || r.stale x.changed) = true

variable {pre suf : List (Rule κ σ)}

omit [DecidableEq κ] in
theorem getElem?_mid : (pre ++ r :: suf)[pre.length]? = some r := by simp

theorem due_succ (hr : (r.pending x.inner || r.stale x.changed) = false) (j : Nat) :
    Due (pre ++ r :: suf) x pre.length j ↔ Due (pre ++ r :: suf) x (pre.length + 1) j := by
  constructor
  · rintro ⟨hle, r', hr', hdue⟩
    refine ⟨?_, r', hr', hdue⟩
    rcases Nat.eq_or_lt_of_le hle with rfl | hlt
    · grind
    · exact hlt
  · rintro ⟨hle, hrest⟩
    exact ⟨by omega, hrest⟩

/-- After a rule was run the rest of the candidates are those from before and the readers of its name,
if it was written for the first time. -/
theorem due_run (hsorted : Sorted (pre ++ r :: suf)) (hseparate : Separate (pre ++ r :: suf))
    (hreaders : ∀ k j, j ∈ readers k ↔ ∃ r', (pre ++ r :: suf)[j]? = some r' ∧ k ∈ r'.reads) (j : Nat) :
    Due (pre ++ r :: suf) (r.run x) (pre.length + 1) j ↔
      (Due (pre ++ r :: suf) x pre.length j ∧ j ≠ pre.length) ∨
        r.name ∈ (r.run x).changed \ x.changed ∧ j ∈ readers r.name := by
  have hr : r ∈ pre ++ r :: suf := by simp
  -- A rule at a later position reads other names than those of later rules, one at an earlier
  -- position or `r` itself never reads the name of `r`.
  have hafter : ∀ j, (∃ r', (pre ++ r :: suf)[j]? = some r' ∧ r.name ∈ r'.reads) → pre.length < j := by
    rintro j ⟨r', hr', hreads⟩
    by_contra hle
    rcases Nat.eq_or_lt_of_le (Nat.le_of_not_lt hle) with rfl | hlt
    · rw [getElem?_mid] at hr'
      obtain rfl := Option.some.inj hr'
      exact hsorted.self _ hr hreads
    · rw [List.getElem?_append_left hlt] at hr'
      have hpair := (pairwise_append.mp hsorted.later).2.2 r' (mem_of_getElem? hr') r (by simp)
      exact hpair.1 hreads
  have hpending : ∀ j r', (pre ++ r :: suf)[j]? = some r' → pre.length < j →
      r'.pending (r.run x).inner = r'.pending x.inner := by
    intro j r' hr' hlt
    unfold Rule.pending
    cases hnil : r'.reads with
    | cons k ks => rfl
    | nil =>
      have hmem : r' ∈ suf := by grind
      have hpair := (pairwise_cons.mp (pairwise_append.mp hsorted.later).2.1).1 r' hmem
      have hne := hpair.2 hnil
      have := hseparate r hr r' (by simp [hmem]) hne x.inner
      simp only [isEmpty_nil, Bool.true_and]
      exact this
  have hstale : ∀ r' : Rule κ σ, r'.stale (r.run x).changed = true ↔
      r'.stale x.changed = true ∨ r.name ∈ (r.run x).changed \ x.changed ∧ r.name ∈ r'.reads := by
    intro r'
    simp only [Rule.stale, any_eq_true, decide_eq_true_eq, Finset.mem_sdiff]
    constructor
    · rintro ⟨k, hk, hmem⟩
      by_cases hold : k ∈ x.changed
      · exact .inl ⟨k, hk, hold⟩
      · grind [changed_run_subset]
    · grind [changed_subset_run]
  rw [hreaders]
  constructor
  · rintro ⟨hlt, r', hr', hdue⟩
    rw [Bool.or_eq_true, hpending j r' hr' (by omega), hstale] at hdue
    rcases hdue with hdue | hdue | ⟨hnew, hreads⟩
    · exact .inl ⟨⟨by omega, r', hr', by simp [hdue]⟩, by omega⟩
    · exact .inl ⟨⟨by omega, r', hr', by simp [hdue]⟩, by omega⟩
    · exact .inr ⟨hnew, r', hr', hreads⟩
  · rintro (⟨⟨hle, r', hr', hdue⟩, hne⟩ | ⟨hnew, r', hr', hreads⟩)
    · refine ⟨by omega, r', hr', ?_⟩
      rw [Bool.or_eq_true] at hdue ⊢
      rw [hpending j r' hr' (by omega), hstale]
      exact hdue.imp_right .inl
    · have hlt := hafter j ⟨r', hr', hreads⟩
      refine ⟨hlt, r', hr', ?_⟩
      rw [Bool.or_eq_true, hstale]
      exact .inr (.inr ⟨hnew, hreads⟩)

theorem byIndex_run {fuel : Nat} (h : cs.Nonempty)
    (hr : rules[cs.min' h]? = some r) (hskip : (!r.reads.isEmpty && !r.stale x.changed) = false) :
    byIndex rules readers (fuel + 1) x cs =
      byIndex rules readers fuel (r.run x) (cs.erase (cs.min' h) ∪
        if r.name ∈ (r.run x).changed \ x.changed then (readers r.name).toFinset else ∅) := by
  conv_lhs => unfold byIndex
  rw [dif_pos h]
  dsimp only
  split
  · simp_all
  · grind

/-- From any position on, the worklist does what the scan does. -/
theorem byIndex_suffix (pre : List (Rule κ σ)) {suf : List (Rule κ σ)} (hsorted : Sorted (pre ++ suf))
    (hseparate : Separate (pre ++ suf))
    (hreaders : ∀ k j, j ∈ readers k ↔ ∃ r, (pre ++ suf)[j]? = some r ∧ k ∈ r.reads) {fuel : Nat}
    (hfuel : suf.length ≤ fuel) (hcs : ∀ j, j ∈ cs ↔ Due (pre ++ suf) x pre.length j) :
    byIndex (pre ++ suf) readers fuel x cs = scan suf x := by
  induction suf generalizing pre x cs fuel with
  | nil =>
    have hempty : ¬cs.Nonempty := by
      rintro ⟨j, hj⟩
      obtain ⟨hle, r, hr, -⟩ := (hcs j).mp hj
      simp [List.getElem?_eq_none hle] at hr
    cases fuel with
    | zero => rfl
    | succ fuel => simp [byIndex, hempty, scan]
  | cons r suf ih =>
    have happ : pre ++ r :: suf = (pre ++ [r]) ++ suf := by simp
    have hlen : (pre ++ [r]).length = pre.length + 1 := by simp
    cases hdue : (r.pending x.inner || r.stale x.changed) with
    | false =>
      have hscan : scan (r :: suf) x = scan suf x := by
        simp only [scan, foldl_cons, hdue, Bool.false_eq_true, if_false]
      rw [hscan, happ]
      rw [happ] at hsorted hseparate hreaders
      rw [length_cons] at hfuel
      refine ih (pre ++ [r]) hsorted hseparate hreaders (by omega) fun j => ?_
      rw [hcs, due_succ hdue, happ, hlen]
    | true =>
      have hscan : scan (r :: suf) x = scan suf (r.run x) := by
        simp only [scan, foldl_cons, hdue, if_true]
      have hmem : pre.length ∈ cs := (hcs _).mpr ⟨Nat.le_refl _, r, getElem?_mid, hdue⟩
      have hmin : ∀ hne : cs.Nonempty, cs.min' hne = pre.length := by
        intro hne
        have hle := ((hcs _).mp (cs.min'_mem hne)).1
        have hge := cs.min'_le _ hmem
        omega
      cases fuel with
      | zero => simp at hfuel
      | succ fuel =>
        have hnotskip : (!r.reads.isEmpty && !r.stale x.changed) = false := by grind [Rule.pending]
        have hne : cs.Nonempty := ⟨_, hmem⟩
        have hget : (pre ++ r :: suf)[cs.min' hne]? = some r := by rw [hmin hne, getElem?_mid]
        rw [byIndex_run hne hget hnotskip, hmin hne, hscan]
        have hnext := fun j => due_run (x := x) hsorted hseparate hreaders j
        rw [happ] at hsorted hseparate hreaders hnext
        rw [happ]
        rw [length_cons] at hfuel
        refine ih (pre ++ [r]) hsorted hseparate hreaders (by omega) fun j => ?_
        rw [hlen, hnext, ← happ, ← hcs, Finset.mem_union, Finset.mem_erase]
        refine or_congr (and_comm) ?_
        split
        · rename_i hnew
          simp only [hnew, true_and, mem_toFinset]
        · rename_i hnew
          simp only [hnew, false_and, Finset.notMem_empty]

/-- The worklist runs the rules the scan runs, in the same order. -/
theorem byIndex_eq_scan (hsorted : Sorted rules) (hseparate : Separate rules)
    (hreaders : ∀ k j, j ∈ readers k ↔ ∃ r, rules[j]? = some r ∧ k ∈ r.reads) {fuel : Nat}
    (hfuel : rules.length ≤ fuel) (x : State κ σ) :
    byIndex rules readers fuel x (candidates rules readers x) = scan rules x := by
  refine byIndex_suffix [] hsorted hseparate hreaders hfuel fun j => ?_
  simp only [candidates, Finset.mem_union, Finset.mem_biUnion, mem_toFinset, hreaders,
    Finset.mem_filter, Finset.mem_range, Due, nil_append, length_nil, Nat.zero_le, true_and,
    Rule.stale, Bool.or_eq_true, any_eq_true, decide_eq_true_eq]
  constructor
  · grind
  · grind

end Scan

/-! ## What a scan settles -/

section Settles

variable [DecidableEq κ] {ι : Type} {rule : ι → Rule κ σ}

theorem changed_subset_scan (rules : List (Rule κ σ)) (x : State κ σ) :
    x.changed ⊆ (scan rules x).changed := by
  induction rules generalizing x with
  | nil => exact Finset.Subset.refl _
  | cons r rules ih =>
    refine Finset.Subset.trans ?_ (ih _)
    dsimp only
    split
    · exact changed_subset_run r x
    · exact Finset.Subset.refl _

theorem scan_changed_subset (rules : List (Rule κ σ)) (x : State κ σ) :
    (scan rules x).changed ⊆ x.changed ∪ (rules.map (·.name)).toFinset := by
  induction rules generalizing x with
  | nil => exact Finset.subset_union_left
  | cons r rules ih =>
    intro k hk
    have hhead : k ∈ (r.run x).changed → k = r.name ∨ k ∈ x.changed :=
      fun hmem => Finset.mem_insert.mp (changed_run_subset r x hmem)
    have hrest := ih _ hk
    simp only [Finset.mem_union, mem_toFinset, map_cons, mem_cons] at hrest ⊢
    rcases hrest with hmem | hmem
    · grind
    · exact .inr (.inr hmem)

/-- After a scan every rule is settled, if running a rule settles it and unsettles no other but the readers
of what it wrote, and if those that the scan has no reason to run were settled before. -/
theorem scan_settles {items : List ι} {Settled : ι → σ → Prop} {I : σ → Prop}
    (hsorted : Sorted (items.map rule)) (hnames : (items.map fun i => (rule i).name).Nodup)
    (hseparate : Separate (items.map rule))
    (hrun : ∀ i ∈ items, ∀ s, I s → I ((rule i).fire s).1 ∧ Settled i ((rule i).fire s).1)
    (hkeep : ∀ i ∈ items, ∀ j ∈ items, (rule j).name ≠ (rule i).name → ∀ s, I s →
      ((rule j).name ∈ (rule i).reads → ((rule j).fire s).2 = false) →
      Settled i s → Settled i ((rule j).fire s).1) (hx : I x.inner)
    (hstart : ∀ i ∈ items, (∀ k ∈ (rule i).reads, k ∉ (scan (items.map rule) x).changed) →
      (rule i).pending x.inner = false → Settled i x.inner) :
    ∀ i ∈ items, Settled i (scan (items.map rule) x).inner := by
  -- From any position on: those before it are settled.
  have key : ∀ (suf pre : List ι) (x : State κ σ), items = pre ++ suf → I x.inner →
      (∀ i ∈ pre, Settled i x.inner) →
      (∀ i ∈ suf, (∀ k ∈ (rule i).reads, k ∉ (scan (suf.map rule) x).changed) →
        (rule i).pending x.inner = false → Settled i x.inner) →
      ∀ i ∈ items, Settled i (scan (suf.map rule) x).inner := by
    intro suf
    induction suf with
    | nil =>
      intro pre x hitems _ hpre _
      rw [hitems, append_nil]
      exact hpre
    | cons j suf ih =>
      intro pre x hitems hx hpre hsuf
      have hj : j ∈ items := by simp [hitems]
      have hlater := hsorted.later
      rw [hitems, map_append, map_cons, pairwise_append, pairwise_cons] at hlater
      obtain ⟨-, ⟨hafter, -⟩, hbefore⟩ := hlater
      rw [hitems, map_append, map_cons, nodup_append, nodup_cons] at hnames
      obtain ⟨-, ⟨hnotin, -⟩, hdisjoint⟩ := hnames
      have hnext : items = (pre ++ [j]) ++ suf := by simp [hitems]
      by_cases hdue : ((rule j).pending x.inner || (rule j).stale x.changed) = true
      · have hscan : scan ((j :: suf).map rule) x = scan (suf.map rule) ((rule j).run x) := by
          simp only [scan, map_cons, foldl_cons, hdue, if_true]
        rw [hscan] at hsuf ⊢
        obtain ⟨hinv, hsettled⟩ := hrun j hj x.inner hx
        refine ih (pre ++ [j]) _ hnext hinv (fun i hi => ?_) fun i hi hreads hpending => ?_
        · rcases mem_append.mp hi with hi | hi
          · have hreads := (hbefore (rule i) (mem_map_of_mem hi) (rule j) mem_cons_self).1
            have hne : (rule j).name ≠ (rule i).name :=
              Ne.symm (hdisjoint _ (mem_map_of_mem hi) _ mem_cons_self)
            exact hkeep i (by simp [hitems, hi]) j hj hne x.inner hx (fun hmem => absurd hmem hreads) (hpre i hi)
          · obtain rfl := mem_singleton.mp hi
            exact hsettled
        · have hne : (rule i).name ≠ (rule j).name := by grind
          have hmem : i ∈ items := by simp [hitems, hi]
          have hunset := hseparate (rule j) (mem_map_of_mem hj) (rule i) (mem_map_of_mem hmem) hne x.inner
          have hpending' : (rule i).pending x.inner = false := by
            unfold Rule.pending at hpending ⊢
            rw [← hunset]
            exact hpending
          refine hkeep i hmem j hj (Ne.symm hne) x.inner hx (fun hread => ?_)
            (hsuf i (mem_cons_of_mem _ hi) hreads hpending')
          -- A name that was written is among those that changed.
          by_contra hwrote
          have hwritten : (rule j).name ∈ ((rule j).run x).changed := by
            unfold Rule.run
            simp [eq_true_of_ne_false hwrote]
          exact hreads _ hread (changed_subset_scan _ _ hwritten)
      · have hscan : scan ((j :: suf).map rule) x = scan (suf.map rule) x := by
          simp only [scan, map_cons, foldl_cons, hdue, Bool.false_eq_true, if_false]
        rw [hscan] at hsuf ⊢
        refine ih (pre ++ [j]) x hnext hx (fun i hi => ?_) fun i hi => hsuf i (mem_cons_of_mem _ hi)
        rcases mem_append.mp hi with hi | hi
        · exact hpre i hi
        · obtain rfl := mem_singleton.mp hi
          rw [Bool.or_eq_true, not_or] at hdue
          refine hsuf i mem_cons_self (fun k hk hchanged => ?_) (eq_false_of_ne_true hdue.1)
          -- What changes later is not read here.
          rcases Finset.mem_union.mp (scan_changed_subset _ _ hchanged) with hold | hnew
          · refine hdue.2 ?_
            simp only [Rule.stale, any_eq_true, decide_eq_true_eq]
            exact ⟨k, hk, hold⟩
          · obtain ⟨r, hr, rfl⟩ := mem_map.mp (mem_toFinset.mp hnew)
            exact (hafter r hr).1 hk
  exact key items [] x rfl hx (fun _ h => nomatch h) hstart

end Settles

/-! ## Two sets of rules side by side -/

section Related

variable {τ : Type} [DecidableEq κ]

/-- Rules with the same names and reads that do the same to related states. -/
structure Rule.Matches (R : σ → τ → Prop) (r : Rule κ σ) (r' : Rule κ τ) : Prop where
  name : r.name = r'.name
  reads : r.reads = r'.reads
  unset : ∀ s t, R s t → r.unset s = r'.unset t
  state : ∀ s t, R s t → R (r.fire s).1 (r'.fire t).1
  wrote : ∀ s t, R s t → (r.fire s).2 = (r'.fire t).2

structure Related (R : σ → τ → Prop) (x : State κ σ) (y : State κ τ) : Prop where
  inner : R x.inner y.inner
  changed : x.changed = y.changed

variable {R : σ → τ → Prop} {r : Rule κ σ} {r' : Rule κ τ} {x : State κ σ} {y : State κ τ}

theorem Rule.Matches.run (h : r.Matches R r') (hxy : Related R x y) : Related R (r.run x) (r'.run y) := by
  refine ⟨h.state _ _ hxy.inner, ?_⟩
  unfold Rule.run
  dsimp only
  rw [h.wrote _ _ hxy.inner, h.name, hxy.changed]

theorem Rule.Matches.stale (h : r.Matches R r') (hxy : Related R x y) :
    r.stale x.changed = r'.stale y.changed := by
  simp only [Rule.stale, h.reads, hxy.changed]

variable {rules : List (Rule κ σ)} {rules' : List (Rule κ τ)} (h : List.Forall₂ (Rule.Matches R) rules rules')
  (readers : κ → List Nat)

include h

omit [DecidableEq κ] in
theorem matches_getElem? (i : Nat) :
    (rules[i]? = none ∧ rules'[i]? = none) ∨
      ∃ r r', rules[i]? = some r ∧ rules'[i]? = some r' ∧ r.Matches R r' := by
  induction h generalizing i with
  | nil => exact .inl ⟨rfl, rfl⟩
  | cons hhead _ ih => grind

omit [DecidableEq κ] in
theorem candidates_related (hxy : Related R x y) :
    candidates rules readers x = candidates rules' readers y := by
  unfold candidates
  rw [hxy.changed, h.length_eq]
  congr 2
  funext i
  rcases matches_getElem? h i with ⟨hi, hi'⟩ | ⟨r, r', hi, hi', hmatch⟩
  · rw [hi, hi']
    rfl
  · rw [hi, hi']
    simp only [Option.any_some, Rule.pending, hmatch.reads, hmatch.unset _ _ hxy.inner]

theorem bound_related (hxy : Related R x y) (cs : Finset Nat) :
    bound rules readers x cs = bound rules' readers y cs := by
  have hnames : rules.map (·.name) = rules'.map (·.name) := by
    clear hxy
    induction h with
    | nil => rfl
    | cons hhead _ ih => rw [map_cons, map_cons, hhead.name, ih]
  unfold bound
  rw [hnames, hxy.changed]

/-- The worklist keeps two states related that its rules keep related. -/
theorem byIndex_related (fuel : Nat) (hxy : Related R x y) (cs : Finset Nat) :
    Related R (byIndex rules readers fuel x cs) (byIndex rules' readers fuel y cs) := by
  induction fuel generalizing x y cs with
  | zero => exact hxy
  | succ fuel ih =>
    unfold byIndex
    by_cases hne : cs.Nonempty
    · rw [dif_pos hne, dif_pos hne]
      dsimp only
      rcases matches_getElem? h (cs.min' hne) with ⟨hi, hi'⟩ | ⟨r, r', hi, hi', hmatch⟩
      · rw [hi, hi']
        exact ih hxy _
      · rw [hi, hi']
        have hrun := hmatch.run hxy
        have hstale := hmatch.stale hxy
        simp only [hstale, hmatch.reads, hmatch.name, hrun.changed]
        simp only [hxy.changed]
        by_cases hskip : (!r'.reads.isEmpty && !r'.stale y.changed) = true
        · rw [if_pos hskip, if_pos hskip]
          exact ih hxy _
        · rw [if_neg hskip, if_neg hskip]
          exact ih hrun _
    · rw [dif_neg hne, dif_neg hne]
      exact hxy

end Related

/-! ## The runs of the rules -/

section Log

/-- A rule that also logs the state from which it is run. -/
def Rule.logged {ι : Type} (tag : ι) (r : Rule κ σ) : Rule κ (σ × List (ι × σ)) where
  name := r.name
  reads := r.reads
  unset s := r.unset s.1
  fire s := (((r.fire s.1).1, s.2 ++ [(tag, s.1)]), (r.fire s.1).2)

theorem logged_matches {ι : Type} (tag : ι) (r : Rule κ σ) :
    (r.logged tag).Matches (fun s t => s.1 = t) r where
  name := rfl
  reads := rfl
  unset _ _ h := congrArg r.unset h
  state _ _ h := congrArg (fun s => (r.fire s).1) h
  wrote _ _ h := congrArg (fun s => (r.fire s).2) h

end Log

end Cascade
