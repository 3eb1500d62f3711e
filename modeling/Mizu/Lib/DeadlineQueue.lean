import Mathlib

/-!
# Queues by deadline

A queue is a map from deadlines to items, as the list of its keys in order with what was pushed under
each. `due` is what a loop takes that stops at the first key after `now`, `later` the rest.

* `entries_push`: a push adds its item.
* `due_push`, `entries_later_push`: a push after `now` leaves what is due as it was.
-/

namespace Mizu

open List

abbrev DeadlineQueue (α : Type) : Type := List (Nat × List α)

namespace DeadlineQueue

variable {α : Type} {q : DeadlineQueue α} {now deadline : Nat} {a : α}

def push : DeadlineQueue α → Nat → α → DeadlineQueue α
  | [], deadline, a => [(deadline, [a])]
  | (d, items) :: q, deadline, a =>
    if deadline < d then (deadline, [a]) :: (d, items) :: q
    else if deadline = d then (d, items ++ [a]) :: q
    else (d, items) :: push q deadline a

/-- The items, each with its deadline. -/
def entries (q : DeadlineQueue α) : List (Nat × α) :=
  q.flatMap fun (deadline, items) => items.map (deadline, ·)

def due (now : Nat) (q : DeadlineQueue α) : DeadlineQueue α := q.takeWhile (·.1 ≤ now)

def later (now : Nat) (q : DeadlineQueue α) : DeadlineQueue α := q.dropWhile (·.1 ≤ now)

@[simp] theorem entries_nil : entries ([] : DeadlineQueue α) = [] := rfl

@[simp] theorem entries_cons (deadline : Nat) (items : List α) (q : DeadlineQueue α) :
    entries ((deadline, items) :: q) = items.map (deadline, ·) ++ entries q := rfl

theorem entries_append (q q' : DeadlineQueue α) : entries (q ++ q') = entries q ++ entries q' :=
  flatMap_append ..

theorem entries_split (now : Nat) (q : DeadlineQueue α) : entries (due now q) ++ entries (later now q) = entries q := by
  rw [← entries_append, due, later, takeWhile_append_dropWhile]

theorem entries_push (q : DeadlineQueue α) (deadline : Nat) (a : α) :
    (entries (push q deadline a)).Perm ((deadline, a) :: entries q) := by
  induction q with
  | nil => exact .refl _
  | cons key q ih =>
    obtain ⟨d, items⟩ := key
    unfold push
    split
    · exact .refl _
    split
    · rename_i heq
      subst heq
      rw [entries_cons, entries_cons, map_append, append_assoc]
      exact perm_middle
    · rw [entries_cons, entries_cons]
      exact (ih.append_left _).trans perm_middle

theorem due_push (h : now < deadline) : due now (push q deadline a) = due now q := by
  induction q with
  | nil => simp [push, due, h]
  | cons key q ih =>
    obtain ⟨d, items⟩ := key
    unfold push
    unfold due at ih ⊢
    grind [takeWhile_cons]

theorem entries_later_push (h : now < deadline) :
    (entries (later now (push q deadline a))).Perm ((deadline, a) :: entries (later now q)) := by
  have hpush := entries_push q deadline a
  rw [← entries_split now (push q deadline a), ← entries_split now q, due_push h] at hpush
  exact (perm_append_left_iff _).mp (hpush.trans perm_middle.symm)

end DeadlineQueue

end Mizu
