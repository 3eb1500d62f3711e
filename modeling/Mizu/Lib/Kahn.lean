import Mathlib

/-!
# Kahn's algorithm

A topological sort of the numbers below `n` by edges `(i, j)`, which say that `j` waits for `i`.

* `order_pairwise`: nothing comes after what waits for it.
* `order_length_iff`: the order is complete exactly if the graph has no cycle.
-/

namespace Kahn

open List

/-- `(i, j)` says that `j` waits for `i`. -/
abbrev Edges := List (Nat × Nat)

def Edge (edges : Edges) (i j : Nat) : Prop := (i, j) ∈ edges

/-- What waits for `i`, in the order the edges were entered. -/
def targets (edges : Edges) (i : Nat) : List Nat := (edges.filter (·.1 = i)).map (·.2)

structure State where
  /-- How many edges still hold a node back. -/
  inDegree : Nat → Nat
  queue : List Nat
  order : List Nat

/-- One edge to `j` less. -/
def State.release (s : State) (j : Nat) : State :=
  let d := s.inDegree j - 1
  { s with
    inDegree := Function.update s.inDegree j d
    queue := if d = 0 then s.queue ++ [j] else s.queue }

/-- The loop, for as many rounds as there are nodes at most. -/
def loop (edges : Edges) : Nat → State → State
  | 0, s => s
  | fuel + 1, s =>
    match s.queue with
    | [] => s
    | i :: queue =>
      loop edges fuel
        ((targets edges i).foldl State.release { s with queue, order := s.order ++ [i] })

def start (n : Nat) (edges : Edges) : State where
  inDegree j := edges.countP (·.2 = j)
  queue := (List.range n).filter fun j => edges.countP (·.2 = j) = 0
  order := []

/-- The order in which the nodes are released; a node on a cycle never is. -/
def order (n : Nat) (edges : Edges) : List Nat := (loop edges n (start n edges)).order

/-! ## The invariant -/

/-- Exactly the nodes with no edge left are queued or ordered, each once. -/
structure Ready (n : Nat) (s : State) : Prop where
  nodup : (s.order ++ s.queue).Nodup
  lt : ∀ i ∈ s.order ++ s.queue, i < n
  ready : ∀ j < n, j ∈ s.order ++ s.queue ↔ s.inDegree j = 0

structure Inv (n : Nat) (edges : Edges) (s : State) : Prop extends Ready n s where
  degree : ∀ j, s.inDegree j = edges.countP fun e => e.2 = j ∧ e.1 ∉ s.order
  closed : ∀ j ∈ s.order, ∀ i, Edge edges i j → i ∈ s.order
  sorted : s.order.Pairwise fun i j => ¬Edge edges j i
  irrefl : ∀ i ∈ s.order, ¬Edge edges i i

variable {s : State}

theorem release_ready {n : Nat} {j : Nat} (h : Ready n s) (hj : j < n)
    (hdeg : 0 < s.inDegree j) : Ready n (s.release j) := by
  have hnot : j ∉ s.order ++ s.queue := fun hmem => by
    have := (h.ready j hj).mp hmem
    omega
  by_cases hd : s.inDegree j - 1 = 0
  · have hqueue : (s.release j).order ++ (s.release j).queue = s.order ++ s.queue ++ [j] := by
      simp [State.release, hd]
    refine ⟨?_, ?_, ?_⟩
    · rw [hqueue]
      exact h.nodup.append (nodup_singleton j) (by simpa using hnot)
    · rw [hqueue]
      intro i hi
      rcases mem_append.mp hi with hi | hi
      · exact h.lt i hi
      · rwa [mem_singleton.mp hi]
    · rw [hqueue]
      intro i hi
      by_cases hij : i = j
      · subst hij
        simp [State.release, hd]
      · simp only [mem_append (t := [j]), mem_singleton, hij, or_false, h.ready i hi,
          State.release, Function.update_of_ne hij]
  · have hqueue : (s.release j).order ++ (s.release j).queue = s.order ++ s.queue := by
      simp [State.release, hd]
    refine ⟨hqueue ▸ h.nodup, hqueue ▸ h.lt, ?_⟩
    rw [hqueue]
    intro i hi
    by_cases hij : i = j
    · subst hij
      simp only [State.release, Function.update_self, hd, iff_false]
      exact hnot
    · simp only [h.ready i hi, State.release, Function.update_of_ne hij]

/-- Releasing a list of edges lowers each node's degree by its number of edges in the list. -/
theorem foldl_release {n : Nat} (ts : List Nat) (h : Ready n s) (hlt : ∀ j ∈ ts, j < n)
    (hdeg : ∀ j, ts.count j ≤ s.inDegree j) :
    Ready n (ts.foldl State.release s) ∧ (ts.foldl State.release s).order = s.order ∧
      ∀ j, (ts.foldl State.release s).inDegree j = s.inDegree j - ts.count j := by
  induction ts generalizing s with
  | nil => exact ⟨h, rfl, fun _ => rfl⟩
  | cons t ts ih =>
    have hpos : 0 < s.inDegree t := by grind
    have hdegree : ∀ j, (s.release t).inDegree j = s.inDegree j - if t = j then 1 else 0 := by
      intro j
      by_cases hj : j = t
      · subst hj
        simp [State.release]
      · simp [State.release, Function.update_of_ne hj, Ne.symm hj]
    obtain ⟨hready, horder, hdeg'⟩ := ih (release_ready h (hlt t (by simp)) hpos)
      (fun j hj => hlt j (by simp [hj])) fun j => by
        have := hdeg j
        rw [count_cons] at this
        simp only [beq_iff_eq] at this
        rw [hdegree]
        split
        · rw [if_pos ‹_›] at this
          omega
        · rw [if_neg ‹_›] at this
          omega
    refine ⟨hready, horder, fun j => ?_⟩
    rw [foldl_cons, hdeg', hdegree, count_cons]
    simp only [beq_iff_eq]
    omega

theorem count_targets (edges : Edges) (i j : Nat) :
    (targets edges i).count j = edges.countP fun e => e.1 = i ∧ e.2 = j := by
  induction edges with
  | nil => rfl
  | cons e edges ih => grind [targets]

variable {i : Nat}

/-- The edges that hold `j` back are those from `i` and those that still do when `i` is ordered. -/
theorem countP_order_append (edges : Edges) {order : List Nat} (hi : i ∉ order) (j : Nat) :
    (edges.countP fun e => e.2 = j ∧ e.1 ∉ order) =
      (edges.countP fun e => e.1 = i ∧ e.2 = j) +
        edges.countP fun e => e.2 = j ∧ e.1 ∉ order ++ [i] := by
  induction edges with
  | nil => rfl
  | cons e edges ih => grind

theorem step_inv {n : Nat} {edges : Edges} (hedges : ∀ i j, Edge edges i j → i < n ∧ j < n)
    (h : Inv n edges s) {queue : List Nat} (hqueue : s.queue = i :: queue) : Inv n edges
      ((targets edges i).foldl State.release { s with queue, order := s.order ++ [i] }) := by
  have hsame : (s.order ++ [i]) ++ queue = s.order ++ s.queue := by simp [hqueue]
  have hnot : i ∉ s.order := fun hi => by
    have := (nodup_append.mp h.nodup).2.2 i hi i (by simp [hqueue])
    exact this rfl
  have hpreds : ∀ k, Edge edges k i → k ∈ s.order := by
    intro k hk
    have hzero := (h.ready i (h.lt i (by simp [hqueue]))).mp (by simp [hqueue])
    rw [h.degree, countP_eq_zero] at hzero
    by_contra hno
    exact hzero (k, i) hk (by simpa using hno)
  have hpopped : Ready n { s with queue, order := s.order ++ [i] } := by
    refine ⟨?_, ?_, ?_⟩
    · show ((s.order ++ [i]) ++ queue).Nodup
      exact hsame ▸ h.nodup
    · intro j hj
      exact h.lt j (hsame ▸ hj)
    · intro j hj
      show j ∈ (s.order ++ [i]) ++ queue ↔ _
      rw [hsame]
      exact h.ready j hj
  have hlt : ∀ j ∈ targets edges i, j < n := by
    intro j hj
    obtain ⟨e, he, rfl⟩ := mem_map.mp hj
    exact (hedges e.1 e.2 (mem_of_mem_filter he)).2
  obtain ⟨hready, horder, hdeg⟩ := foldl_release (targets edges i) hpopped hlt fun j => by
    show _ ≤ s.inDegree j
    rw [count_targets, h.degree, countP_order_append edges hnot]
    omega
  refine ⟨hready, ?_, ?_, ?_, ?_⟩
  · intro j
    rw [hdeg, horder, count_targets]
    show s.inDegree j - _ = edges.countP fun e => e.2 = j ∧ e.1 ∉ s.order ++ [i]
    rw [h.degree, countP_order_append edges hnot]
    omega
  · rw [horder]
    intro j hj k hk
    rcases mem_append.mp hj with hj | hj
    · exact mem_append_left _ (h.closed j hj k hk)
    · obtain rfl := mem_singleton.mp hj
      exact mem_append_left _ (hpreds k hk)
  · rw [horder, pairwise_append]
    refine ⟨h.sorted, pairwise_singleton _ _, fun j hj k hk hedge => ?_⟩
    obtain rfl := mem_singleton.mp hk
    exact hnot (h.closed j hj k hedge)
  · rw [horder]
    intro j hj hedge
    rcases mem_append.mp hj with hj | hj
    · exact h.irrefl j hj hedge
    · obtain rfl := mem_singleton.mp hj
      exact hnot (hpreds j hedge)

theorem start_inv (n : Nat) (edges : Edges) : Inv n edges (start n edges) where
  nodup := by
    simp only [start, nil_append]
    exact nodup_range.filter _
  lt i hi := by
    simp only [start, nil_append, mem_filter, mem_range] at hi
    exact hi.1
  ready j hj := by simp [start, hj]
  degree j := by simp [start]
  closed j hj := nomatch hj
  sorted := List.Pairwise.nil
  irrefl i hi := nomatch hi

/-- With a round for every node that is not ordered yet, the queue runs empty. -/
theorem loop_spec {n : Nat} {edges : Edges} (hedges : ∀ i j, Edge edges i j → i < n ∧ j < n)
    (fuel : Nat) (h : Inv n edges s) (hfuel : n ≤ s.order.length + fuel) :
    Inv n edges (loop edges fuel s) ∧ (loop edges fuel s).queue = [] := by
  induction fuel generalizing s with
  | zero =>
    refine ⟨h, ?_⟩
    have hle : (s.order ++ s.queue).length ≤ n := by
      have hsub : s.order ++ s.queue ⊆ List.range n := fun i hi => mem_range.mpr (h.lt i hi)
      simpa using (h.nodup.subperm hsub).length_le
    rw [length_append] at hle
    exact eq_nil_of_length_eq_zero (by show s.queue.length = 0; omega)
  | succ fuel ih =>
    unfold loop
    split
    · exact ⟨h, ‹_›⟩
    · rename_i i queue hqueue
      have hstep := step_inv hedges h hqueue
      have hlen : ((targets edges i).foldl State.release
          { s with queue, order := s.order ++ [i] }).order.length = s.order.length + 1 := by
        have horder : ∀ (ts : List Nat) (s : State), (ts.foldl State.release s).order = s.order := by
          intro ts
          induction ts with
          | nil => exact fun _ => rfl
          | cons t ts ih => exact fun s => (ih _).trans rfl
        rw [horder]
        simp
      exact ih hstep (by omega)

/-! ## The order -/

section Order

variable {n : Nat} {edges : Edges} (hedges : ∀ i j, Edge edges i j → i < n ∧ j < n)

include hedges

theorem order_inv : ∃ s, Inv n edges s ∧ s.queue = [] ∧ order n edges = s.order := by
  obtain ⟨hinv, hqueue⟩ := loop_spec hedges n (start_inv n edges) (by simp [start])
  exact ⟨_, hinv, hqueue, rfl⟩

theorem order_nodup : (order n edges).Nodup := by
  obtain ⟨s, h, hqueue, horder⟩ := order_inv hedges
  rw [horder]
  exact h.nodup.sublist (sublist_append_left _ _)

theorem order_lt (hi : i ∈ order n edges) : i < n := by
  obtain ⟨s, h, hqueue, horder⟩ := order_inv hedges
  rw [horder] at hi
  exact h.lt i (mem_append_left _ hi)

/-- What is ordered later holds nothing back that was ordered before. -/
theorem order_pairwise : (order n edges).Pairwise fun i j => ¬Edge edges j i := by
  obtain ⟨s, h, hqueue, horder⟩ := order_inv hedges
  rw [horder]
  exact h.sorted

theorem not_edge_self (hi : i ∈ order n edges) : ¬Edge edges i i := by
  obtain ⟨s, h, hqueue, horder⟩ := order_inv hedges
  rw [horder] at hi
  exact h.irrefl i hi

/-- A node that is left out waits for another one that is. -/
theorem exists_edge_of_not_mem {j : Nat} (hj : j < n) (hno : j ∉ order n edges) :
    ∃ i, Edge edges i j ∧ i ∉ order n edges := by
  obtain ⟨s, h, hqueue, horder⟩ := order_inv hedges
  rw [horder] at hno ⊢
  have hdeg : s.inDegree j ≠ 0 := fun hzero => by
    have := (h.ready j hj).mpr hzero
    simp only [hqueue, append_nil] at this
    exact hno this
  rw [h.degree] at hdeg
  obtain ⟨e, he, hcond⟩ := countP_pos_iff.mp (Nat.pos_of_ne_zero hdeg)
  simp only [decide_eq_true_eq] at hcond
  exact ⟨e.1, hcond.1 ▸ he, hcond.2⟩

theorem idxOf_lt_of_edge (hall : ∀ i < n, i ∈ order n edges) {i j : Nat} (h : Edge edges i j) :
    (order n edges).idxOf i < (order n edges).idxOf j := by
  obtain ⟨hi, hj⟩ := hedges i j h
  have hli := idxOf_lt_length_of_mem (hall i hi)
  have hlj := idxOf_lt_length_of_mem (hall j hj)
  rcases Nat.lt_trichotomy ((order n edges).idxOf i) ((order n edges).idxOf j) with hlt | heq | hgt
  · exact hlt
  · have hij : i = j := by
      have hget := getElem_idxOf hli
      simp only [heq, getElem_idxOf hlj] at hget
      exact hget.symm
    exact absurd (hij ▸ h) (not_edge_self hedges (hall j hj))
  · have hno := pairwise_iff_getElem.mp (order_pairwise hedges) _ _ hlj hli hgt
    rw [getElem_idxOf, getElem_idxOf] at hno
    exact absurd h hno

theorem mem_order_of_length (hlen : (order n edges).length = n) (hi : i < n) : i ∈ order n edges := by
  have hsub : order n edges ⊆ List.range n := fun i hi => mem_range.mpr (order_lt hedges hi)
  have hperm := (order_nodup hedges).subperm hsub |>.perm_of_length_le (by simp [hlen])
  exact hperm.mem_iff.mpr (mem_range.mpr hi)

/-- The order is complete exactly if no node waits for itself. -/
theorem order_length_iff :
    (order n edges).length = n ↔ ∀ i, ¬Relation.TransGen (Edge edges) i i := by
  constructor
  · intro hlen i hcycle
    have hlt : ∀ j, Relation.TransGen (Edge edges) i j →
        (order n edges).idxOf i < (order n edges).idxOf j := by
      intro j hj
      induction hj with
      | single h => exact idxOf_lt_of_edge hedges (fun _ => mem_order_of_length hedges hlen) h
      | tail _ h ih =>
        exact ih.trans (idxOf_lt_of_edge hedges (fun _ => mem_order_of_length hedges hlen) h)
    exact absurd (hlt i hcycle) (Nat.lt_irrefl _)
  · intro hacyclic
    -- A node that is left out and that no other such node holds back cannot be.
    let before : Fin n → Fin n → Prop := fun a b => Relation.TransGen (Edge edges) a.val b.val
    have : IsTrans (Fin n) before := ⟨fun _ _ _ hab hbc => hab.trans hbc⟩
    have : Std.Irrefl before := ⟨fun a h => hacyclic a.val h⟩
    have hwf : WellFounded before := Finite.wellFounded_of_trans_of_irrefl before
    have hall : ∀ i < n, i ∈ order n edges := by
      by_contra hsome
      push Not at hsome
      obtain ⟨i, hi, hno⟩ := hsome
      let left : Set (Fin n) := {a | a.val ∉ order n edges}
      obtain ⟨a, ha, hmin⟩ := hwf.has_min left ⟨⟨i, hi⟩, hno⟩
      obtain ⟨k, hk, hkno⟩ := exists_edge_of_not_mem hedges a.isLt ha
      exact hmin ⟨k, (hedges k a hk).1⟩ hkno (.single hk)
    have hsub : List.range n ⊆ order n edges := fun i hi => hall i (mem_range.mp hi)
    have hle := (nodup_range.subperm hsub).length_le
    have hge := ((order_nodup hedges).subperm fun i hi =>
      mem_range.mpr (order_lt hedges hi)).length_le
    simp only [length_range] at hle hge
    omega

end Order

end Kahn
