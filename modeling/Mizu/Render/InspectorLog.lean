import Mathlib

/-!
# The network log of the inspector

A ring buffer of entries. An operation is logged as pending when it is dispatched; a completion looks for the
latest pending entry with its key, or for the latest pending entry.

* `completeNet_modify`, `completeLatestPending_modify`: the entry that is completed.
* `lastIdx_eq_some_iff`: which entry that is.
-/

namespace Mizu

/-! ## The last element with a property -/

section LastIdx

variable {α : Type} {p : α → Bool} {xs : List α} {k : Nat}

/-- `iter().rev().find()`, by its position. -/
def lastIdx (p : α → Bool) : List α → Option Nat
  | [] => none
  | x :: xs =>
    match lastIdx p xs with
    | some i => some (i + 1)
    | none => if p x then some 0 else none

/-- The last element with a property is at a position. -/
structure IsLast (p : α → Bool) (xs : List α) (k : Nat) : Prop where
  here : ∃ x, xs[k]? = some x ∧ p x = true
  later : ∀ j x, k < j → xs[j]? = some x → p x = false

theorem lastIdx_eq_none : lastIdx p xs = none ↔ ∀ x ∈ xs, p x = false := by
  induction xs with
  | nil => simp [lastIdx]
  | cons x xs ih =>
    rw [lastIdx]
    cases hrest : lastIdx p xs with
    | some i =>
      have hnot : ¬∀ x ∈ xs, p x = false := fun h => by simp [ih.mpr h] at hrest
      simpa using fun _ => by simpa using hnot
    | none =>
      have hall := ih.mp hrest
      cases hx : p x with
      | true => simp [hx]
      | false => simpa [hx] using hall

theorem IsLast.lt (h : IsLast p xs k) : k < xs.length := by
  obtain ⟨x, hx, -⟩ := h.here
  exact (List.getElem?_eq_some_iff.mp hx).1

theorem IsLast.unique {j : Nat} (h : IsLast p xs k) (h' : IsLast p xs j) : k = j := by
  obtain ⟨x, hx, hpx⟩ := h.here
  obtain ⟨y, hy, hpy⟩ := h'.here
  rcases Nat.lt_trichotomy k j with hlt | heq | hlt
  · rw [h.later j y hlt hy] at hpy
    cases hpy
  · exact heq
  · rw [h'.later k x hlt hx] at hpx
    cases hpx

theorem isLast_of_lastIdx (h : lastIdx p xs = some k) : IsLast p xs k := by
  induction xs generalizing k with
  | nil => cases h
  | cons x xs ih =>
    rw [lastIdx] at h
    cases hrest : lastIdx p xs with
    | some i =>
      rw [hrest] at h
      obtain rfl := Option.some.inj h
      obtain ⟨hhere, hlater⟩ := ih hrest
      refine ⟨hhere, fun j y hj hy => ?_⟩
      cases j with
      | zero => omega
      | succ j => exact hlater j y (by omega) hy
    | none =>
      rw [hrest] at h
      dsimp only at h
      split at h
      · obtain rfl := Option.some.inj h
        refine ⟨⟨x, rfl, ‹_›⟩, fun j y hj hy => ?_⟩
        cases j with
        | zero => omega
        | succ j => exact lastIdx_eq_none.mp hrest y (List.mem_of_getElem? hy)
      · cases h

theorem lastIdx_eq_some_iff : lastIdx p xs = some k ↔ IsLast p xs k := by
  refine ⟨isLast_of_lastIdx, fun h => ?_⟩
  cases hidx : lastIdx p xs with
  | some j => rw [h.unique (isLast_of_lastIdx hidx)]
  | none =>
    obtain ⟨x, hx, hpx⟩ := h.here
    rw [lastIdx_eq_none.mp hidx x (List.mem_of_getElem? hx)] at hpx
    cases hpx

end LastIdx

/-! ## Entries -/

def logCapacity : Nat := 256

def detailMaxChars : Nat := 2048

/-- `truncate_detail`. -/
def truncateDetail (s : String) : String :=
  if s.toList.length ≤ detailMaxChars then s else String.ofList (s.toList.take (detailMaxChars - 1)) ++ "…"

inductive NetOutcome where
  /-- Dispatched; no completion yet. -/
  | pending
  | ok
  | redirect
  | failed (error : String)
  /-- Blocked before it left the machine. -/
  | blocked (reason : String)
  deriving DecidableEq, Repr

/-- An entry, without its times. -/
structure NetEntry where
  verb : String
  target : String
  outcome : NetOutcome
  bytes : Option Nat
  /-- The key under which a completion looks for it. -/
  correlation : Option String
  deriving DecidableEq, Repr

namespace NetEntry

/-- The entry of `push_net_start`. -/
def start (verb target : String) (correlation : Option String) : NetEntry :=
  ⟨verb, truncateDetail target, .pending, none, correlation⟩

/-- The entry of `push_net_done`. -/
def done (verb target : String) (outcome : NetOutcome) : NetEntry := ⟨verb, truncateDetail target, outcome, none, none⟩

/-- The entry of `push_net_blocked`. -/
def blocked (verb target reason : String) : NetEntry := done verb target (.blocked reason)

def isPending (e : NetEntry) : Bool := e.outcome = .pending

/-- What is shown of an entry. -/
def shown (e : NetEntry) : String × String × NetOutcome × Option Nat := (e.verb, e.target, e.outcome, e.bytes)

end NetEntry

structure InspectorLog where
  /-- The oldest first. -/
  network : List NetEntry
  deriving DecidableEq

namespace InspectorLog

/-- `push_net`. -/
def pushNet (log : InspectorLog) (entry : NetEntry) : InspectorLog where
  network := (if log.network.length ≥ logCapacity then log.network.drop 1 else log.network) ++ [entry]

/-- `complete_net`; a completion without an entry gets one of its own. -/
def completeNet (log : InspectorLog) (correlation : String) (outcome : NetOutcome) (bytes : Option Nat) :
    InspectorLog :=
  match lastIdx (fun e => e.isPending && e.correlation = some correlation) log.network with
  | some i => ⟨log.network.modify i fun e => { e with outcome, bytes }⟩
  | none => log.pushNet ⟨"?", truncateDetail correlation, outcome, bytes, none⟩

/-- `complete_latest_pending`. -/
def completeLatestPending (log : InspectorLog) (outcome : NetOutcome) : InspectorLog :=
  match lastIdx NetEntry.isPending log.network with
  | some i => ⟨log.network.modify i fun e => { e with outcome }⟩
  | none => log

variable {log : InspectorLog}

theorem pushNet_network (h : log.network.length < logCapacity) (entry : NetEntry) :
    (log.pushNet entry).network = log.network ++ [entry] := by
  rw [pushNet, if_neg (by omega)]

variable {outcome : NetOutcome} {bytes : Option Nat} {k : Nat}

theorem completeNet_modify {correlation : String}
    (h : IsLast (fun e => e.isPending && e.correlation = some correlation) log.network k) :
    (log.completeNet correlation outcome bytes).network =
      log.network.modify k fun e => { e with outcome, bytes } := by
  rw [completeNet, lastIdx_eq_some_iff.mpr h]

theorem completeLatestPending_modify (h : IsLast NetEntry.isPending log.network k) :
    (log.completeLatestPending outcome).network = log.network.modify k fun e => { e with outcome } := by
  rw [completeLatestPending, lastIdx_eq_some_iff.mpr h]

end InspectorLog

end Mizu
