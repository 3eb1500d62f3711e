import Mathlib

/-!
# Tasks that wait for answers

A task is a program that performs operations one after the other; the answer to each decides how it goes
on. Who answers is left open:

* `Run`: the operations and answers of a task from its start to its end; `run_bind_iff` takes a
  sequence apart, `run_repeatUntil_iff` a loop.
* `Obeys`: what a task promises of every operation it performs, in a world that others change at every
  wait. The rules follow the ways to compose tasks.
* `Step`: tasks that share a world, one operation at a time in any order. `invariant` is what holds of
  the world when every task keeps its promise.
-/

namespace Resumption

/-- A task over operations `Op`, where `Ans op` are the answers to `op`. -/
inductive Program (Op : Type) (Ans : Op → Type) (ε α : Type) where
  | done (a : α)
  | fail (e : ε)
  | ask (op : Op) (k : Ans op → Program Op Ans ε α)

variable {Op : Type} {Ans : Op → Type} {ε α β : Type}

namespace Program

protected def bind : Program Op Ans ε α → (α → Program Op Ans ε β) → Program Op Ans ε β
  | done a, f => f a
  | fail e, _ => fail e
  | ask op k, f => ask op fun r => (k r).bind f

protected def tryCatch : Program Op Ans ε α → (ε → Program Op Ans ε α) → Program Op Ans ε α
  | done a, _ => done a
  | fail e, f => f e
  | ask op k, f => ask op fun r => (k r).tryCatch f

instance : Monad (Program Op Ans ε) where
  pure := done
  bind := Program.bind

instance : MonadExcept ε (Program Op Ans ε) where
  throw := fail
  tryCatch := Program.tryCatch

/-- A result that is known. -/
def known : Except ε α → Program Op Ans ε α
  | .ok a => done a
  | .error e => fail e

/-- One operation, whose answer is read as a result. -/
def query (op : Op) (g : Ans op → Except ε α) : Program Op Ans ε α := ask op fun r => known (g r)

/-- At most `n` rounds of `body`, each from the state that the one before left. -/
def repeatUntil {σ : Type} (body : σ → Program Op Ans ε (σ ⊕ α)) (limit : Except ε α) :
    Nat → σ → Program Op Ans ε α
  | 0, _ => known limit
  | n + 1, s => do
    match ← body s with
    | .inl s' => repeatUntil body limit n s'
    | .inr a => pure a

end Program

open Program

/-! ## Runs -/

/-- The operations of a task with their answers, and its result. -/
inductive Run : Program Op Ans ε α → List (Σ op, Ans op) → Except ε α → Prop where
  | done (a : α) : Run (.done a) [] (.ok a)
  | fail (e : ε) : Run (.fail e) [] (.error e)
  | ask {op : Op} {k : Ans op → Program Op Ans ε α} {r : Ans op} {trace : List (Σ op, Ans op)}
      {result : Except ε α} (h : Run (k r) trace result) : Run (.ask op k) (⟨op, r⟩ :: trace) result

variable {handler : ε → Program Op Ans ε α}

section Runs

variable {x : Program Op Ans ε α} {f : α → Program Op Ans ε β} {trace : List (Σ op, Ans op)}
variable {result : Except ε α}

theorem run_pure_iff {a : α} :
    Run (pure a : Program Op Ans ε α) trace result ↔ trace = [] ∧ result = .ok a := by
  constructor
  · intro h
    cases h
    exact ⟨rfl, rfl⟩
  · rintro ⟨rfl, rfl⟩
    exact .done a

theorem run_throw_iff {e : ε} :
    Run (throw e : Program Op Ans ε α) trace result ↔ trace = [] ∧ result = .error e := by
  constructor
  · intro h
    cases h
    exact ⟨rfl, rfl⟩
  · rintro ⟨rfl, rfl⟩
    exact .fail e

theorem run_known_iff {expected result : Except ε α} :
    Run (known expected : Program Op Ans ε α) trace result ↔ trace = [] ∧ result = expected := by
  cases expected with
  | ok a => exact run_pure_iff
  | error e => exact run_throw_iff

/-- A sequence ends with its first part or goes on from there. -/
theorem run_bind_iff {result : Except ε β} : Run (x >>= f) trace result ↔
    (∃ e, result = .error e ∧ Run x trace (.error e)) ∨
      ∃ a first rest, trace = first ++ rest ∧ Run x first (.ok a) ∧ Run (f a) rest result := by
  induction x generalizing trace with
  | done a =>
    constructor
    · exact fun h => .inr ⟨a, [], trace, rfl, .done a, h⟩
    · rintro (⟨e, -, h⟩ | ⟨_, first, rest, rfl, h, hrest⟩)
      · cases h
      · cases h
        exact hrest
  | fail e =>
    constructor
    · intro h
      cases h
      exact .inl ⟨e, rfl, .fail e⟩
    · rintro (⟨_, rfl, h⟩ | ⟨_, _, _, _, h, _⟩)
      · cases h
        exact .fail e
      · cases h
  | ask op k ih =>
    constructor
    · intro h
      cases h with
      | ask h =>
        rcases (ih _).mp h with ⟨e, rfl, hfirst⟩ | ⟨a, first, rest, rfl, hfirst, hrest⟩
        · exact .inl ⟨e, rfl, .ask hfirst⟩
        · exact .inr ⟨a, _ :: first, rest, rfl, .ask hfirst, hrest⟩
    · rintro (⟨e, rfl, h⟩ | ⟨a, first, rest, rfl, h, hrest⟩)
      · cases h with
        | ask h => exact .ask ((ih _).mpr (.inl ⟨e, rfl, h⟩))
      · cases h with
        | ask h => exact .ask ((ih _).mpr (.inr ⟨a, _, rest, rfl, h, hrest⟩))

/-- A handler runs after the task failed. -/
theorem run_tryCatch_iff : Run (tryCatch x handler) trace result ↔
      (∃ a, result = .ok a ∧ Run x trace (.ok a)) ∨
        ∃ e first rest, trace = first ++ rest ∧ Run x first (.error e) ∧ Run (handler e) rest result := by
  induction x generalizing trace with
  | done a =>
    constructor
    · intro h
      cases h
      exact .inl ⟨a, rfl, .done a⟩
    · rintro (⟨_, rfl, h⟩ | ⟨_, _, _, _, h, _⟩)
      · cases h
        exact .done a
      · cases h
  | fail e =>
    constructor
    · exact fun h => .inr ⟨e, [], trace, rfl, .fail e, h⟩
    · rintro (⟨_, -, h⟩ | ⟨_, first, rest, rfl, h, hrest⟩)
      · cases h
      · cases h
        exact hrest
  | ask op k ih =>
    constructor
    · intro h
      cases h with
      | ask h =>
        rcases (ih _).mp h with ⟨a, rfl, hfirst⟩ | ⟨e, first, rest, rfl, hfirst, hrest⟩
        · exact .inl ⟨a, rfl, .ask hfirst⟩
        · exact .inr ⟨e, _ :: first, rest, rfl, .ask hfirst, hrest⟩
    · rintro (⟨a, rfl, h⟩ | ⟨e, first, rest, rfl, h, hrest⟩)
      · cases h with
        | ask h => exact .ask ((ih _).mpr (.inl ⟨a, rfl, h⟩))
      · cases h with
        | ask h => exact .ask ((ih _).mpr (.inr ⟨e, _, rest, rfl, h, hrest⟩))

theorem run_query_iff {op : Op} {g : Ans op → Except ε α} :
    Run (query op g) trace result ↔ ∃ r, trace = [⟨op, r⟩] ∧ result = g r := by
  constructor
  · intro h
    cases h with
    | ask h => grind [run_known_iff]
  · rintro ⟨r, rfl, rfl⟩
    exact .ask (run_known_iff.mpr ⟨rfl, rfl⟩)

/-- The answers decide the run, so no run of a task is a part of another. -/
theorem Run.unique {result result' : Except ε α} {trace' rest rest' : List (Σ op, Ans op)}
    (h : Run x trace result) (h' : Run x trace' result') (heq : trace ++ rest = trace' ++ rest') :
    trace = trace' ∧ result = result' ∧ rest = rest' := by
  induction h generalizing trace' with
  | done | fail =>
    cases h'
    exact ⟨rfl, rfl, heq⟩
  | ask _ ih =>
    cases h' with
    | ask h' => grind

/-- Whatever the answers are, the task performs no other operations than those of `p`. -/
def Program.Only (p : Op → Prop) : Program Op Ans ε α → Prop
  | .done _ => True
  | .fail _ => True
  | .ask op k => p op ∧ ∀ r, (k r).Only p

variable {p : Op → Prop}

theorem Run.only (h : Run x trace result) (honly : x.Only p) : ∀ e ∈ trace, p e.1 := by
  induction h with
  | done a => simp
  | fail e => simp
  | ask _ ih =>
    intro e he
    rcases List.mem_cons.mp he with rfl | he
    · exact honly.1
    · exact ih (honly.2 _) e he

theorem only_known (expected : Except ε α) : (known expected : Program Op Ans ε α).Only p := by
  cases expected <;> trivial

theorem only_query {op : Op} {g : Ans op → Except ε α} (h : p op) : (query op g).Only p :=
  ⟨h, fun r => only_known (g r)⟩

theorem only_bind (hx : x.Only p) (hf : ∀ a, (f a).Only p) : (x >>= f).Only p := by
  induction x with
  | done a => exact hf a
  | fail e => trivial
  | ask op k ih => exact ⟨hx.1, fun r => ih r (hx.2 r)⟩

theorem only_tryCatch (hx : x.Only p)
    (hhandler : ∀ e, (handler e).Only p) : (tryCatch x handler).Only p := by
  induction x with
  | done a => trivial
  | fail e => exact hhandler e
  | ask op k ih => exact ⟨hx.1, fun r => ih r (hx.2 r)⟩

/-- The result of a task that gets these answers and no others. -/
def replay [DecidableEq Op] : Program Op Ans ε α → List (Σ op, Ans op) → Option (Except ε α)
  | .done a, [] => some (.ok a)
  | .fail e, [] => some (.error e)
  | .ask op k, ⟨op', r⟩ :: trace => if h : op' = op then replay (k (h ▸ r)) trace else none
  | _, _ => none

theorem run_of_replay [DecidableEq Op] (h : replay x trace = some result) : Run x trace result := by
  induction x generalizing trace with
  | done a =>
    cases trace with
    | nil => exact Option.some.inj h ▸ .done a
    | cons _ _ => cases h
  | fail e =>
    cases trace with
    | nil => exact Option.some.inj h ▸ .fail e
    | cons _ _ => cases h
  | ask op k ih =>
    match trace with
    | [] => cases h
    | ⟨op', r⟩ :: trace =>
      rw [replay] at h
      split at h
      · rename_i heq
        subst heq
        exact .ask (ih _ h)
      · cases h

/-- The rounds of a loop: the run of each, in order. -/
inductive Rounds {σ : Type} (body : σ → Program Op Ans ε (σ ⊕ α)) (limit : Except ε α) :
    Nat → σ → List (List (Σ op, Ans op)) → Except ε α → Prop where
  | limit (s : σ) : Rounds body limit 0 s [] limit
  | last {n : Nat} {s : σ} {trace : List (Σ op, Ans op)} {a : α} (h : Run (body s) trace (.ok (.inr a))) :
      Rounds body limit (n + 1) s [trace] (.ok a)
  | failed {n : Nat} {s : σ} {trace : List (Σ op, Ans op)} {e : ε} (h : Run (body s) trace (.error e)) :
      Rounds body limit (n + 1) s [trace] (.error e)
  | next {n : Nat} {s s' : σ} {trace : List (Σ op, Ans op)} {rounds : List (List (Σ op, Ans op))}
      {result : Except ε α} (h : Run (body s) trace (.ok (.inl s')))
      (hrest : Rounds body limit n s' rounds result) :
      Rounds body limit (n + 1) s (trace :: rounds) result

theorem Rounds.run_of_mem {σ : Type} {body : σ → Program Op Ans ε (σ ⊕ α)} {limit result : Except ε α} {n : Nat}
    {s : σ} {rounds : List (List (Σ op, Ans op))} (h : Rounds body limit n s rounds result)
    (hmem : trace ∈ rounds) : ∃ s r, Run (body s) trace r := by
  induction h with
  | limit => cases hmem
  | last h =>
    rw [List.mem_singleton.mp hmem]
    exact ⟨_, _, h⟩
  | failed h =>
    rw [List.mem_singleton.mp hmem]
    exact ⟨_, _, h⟩
  | next h _ ih => grind

/-- A run of a loop is made of its rounds. -/
theorem run_repeatUntil_iff {σ : Type} {body : σ → Program Op Ans ε (σ ⊕ α)} {limit result : Except ε α} {n : Nat}
    {s : σ} : Run (repeatUntil body limit n s) trace result ↔
      ∃ rounds, Rounds body limit n s rounds result ∧ rounds.flatten = trace := by
  induction n generalizing s trace with
  | zero =>
    rw [repeatUntil, run_known_iff]
    constructor
    · rintro ⟨rfl, rfl⟩
      exact ⟨[], .limit s, rfl⟩
    · rintro ⟨rounds, h, rfl⟩
      cases h
      exact ⟨rfl, rfl⟩
  | succ n ih =>
    rw [repeatUntil, run_bind_iff]
    constructor
    · rintro (⟨e, rfl, h⟩ | ⟨next | a, first, rest, rfl, h, hrest⟩)
      · exact ⟨[trace], .failed h, by simp⟩
      · obtain ⟨rounds, hrounds, rfl⟩ := ih.mp hrest
        exact ⟨first :: rounds, .next h hrounds, rfl⟩
      · obtain ⟨rfl, rfl⟩ := run_pure_iff.mp hrest
        exact ⟨[first], .last h, by simp⟩
    · rintro ⟨rounds, h, rfl⟩
      cases h with
      | last h => exact .inr ⟨_, _, [], by simp, h, run_pure_iff.mpr ⟨rfl, rfl⟩⟩
      | failed h => exact .inl ⟨_, rfl, by simpa using h⟩
      | next h hrest => exact .inr ⟨_, _, _, rfl, h, ih.mpr ⟨_, hrest, rfl⟩⟩

end Runs

/-! ## Promises -/

/-- What is known of a world that the tasks `ι` share: how an operation changes it, what of it a task can rely
on while it waits, and when a task may perform an operation. -/
structure Contract (ι Op : Type) (Ans : Op → Type) (σ : Type) where
  world : σ → ι → (op : Op) → Ans op → σ → Prop
  later : ι → σ → σ → Prop
  later_refl : ∀ i s, later i s s
  later_trans : ∀ {i s t u}, later i s t → later i t u → later i s u
  allowed : σ → ι → Op → Prop

variable {ι σ : Type} (C : Contract ι Op Ans σ) (i : ι)

/-- From the world `s` on, every operation that the task performs is allowed when it is performed, and the
result fits the world it ends in. Others may act before every operation and before the end. -/
def Program.Obeys : Program Op Ans ε α → (Except ε α → σ → Prop) → σ → Prop
  | .done a, post, s => ∀ t, C.later i s t → post (.ok a) t
  | .fail e, post, s => ∀ t, C.later i s t → post (.error e) t
  | .ask op k, post, s =>
    ∀ t, C.later i s t → C.allowed t i op ∧ ∀ r u, C.world t i op r u → (k r).Obeys post u

section Promises

variable {C i} {x : Program Op Ans ε α} {f : α → Program Op Ans ε β} {s t : σ}
  {post post' : Except ε α → σ → Prop}

/-- Promises survive what others do. -/
theorem Program.Obeys.later (h : x.Obeys C i post s) (hlater : C.later i s t) : x.Obeys C i post t := by
  cases x with
  | done | fail | ask => exact fun u hu => h u (C.later_trans hlater hu)

theorem Program.Obeys.weaken (h : x.Obeys C i post s) (himp : ∀ result t, post result t → post' result t) :
    x.Obeys C i post' s := by
  induction x generalizing s with
  | done | fail => exact fun u hu => himp _ _ (h u hu)
  | ask op k ih => exact fun u hu => ⟨(h u hu).1, fun r v hv => ih r ((h u hu).2 r v hv)⟩

theorem obeys_pure {a : α} (h : ∀ t, C.later i s t → post (.ok a) t) :
    (pure a : Program Op Ans ε α).Obeys C i post s := h

theorem obeys_throw {e : ε} (h : ∀ t, C.later i s t → post (.error e) t) :
    (throw e : Program Op Ans ε α).Obeys C i post s := h

theorem obeys_known {expected : Except ε α} (h : ∀ t, C.later i s t → post expected t) :
    (known expected : Program Op Ans ε α).Obeys C i post s := by
  cases expected with
  | ok a => exact h
  | error e => exact h

theorem obeys_bind {post : Except ε β → σ → Prop}
    (h : x.Obeys C i (fun result t =>
      match result with
      | .ok a => (f a).Obeys C i post t
      | .error e => post (.error e) t) s) : (x >>= f).Obeys C i post s := by
  induction x generalizing s with
  | done a => exact h s (C.later_refl i s)
  | fail e => exact h
  | ask op k ih => exact fun u hu => ⟨(h u hu).1, fun r v hv => ih r ((h u hu).2 r v hv)⟩

theorem obeys_tryCatch (h : x.Obeys C i (fun result t =>
      match result with
      | .ok a => post (.ok a) t
      | .error e => (handler e).Obeys C i post t) s) : (tryCatch x handler).Obeys C i post s := by
  induction x generalizing s with
  | done a => exact h
  | fail e => exact h s (C.later_refl i s)
  | ask op k ih => exact fun u hu => ⟨(h u hu).1, fun r v hv => ih r ((h u hu).2 r v hv)⟩

theorem obeys_query {op : Op} {g : Ans op → Except ε α}
    (h : ∀ t, C.later i s t →
      C.allowed t i op ∧ ∀ r u, C.world t i op r u → ∀ v, C.later i u v → post (g r) v) :
    (query op g).Obeys C i post s :=
  fun t ht => ⟨(h t ht).1, fun r u hu => obeys_known ((h t ht).2 r u hu)⟩

/-- A loop keeps what every round keeps. -/
theorem obeys_repeatUntil {τ : Type} {body : τ → Program Op Ans ε (τ ⊕ α)} {limit : Except ε α} {I : τ → σ → Prop}
    (hbody : ∀ a s, I a s → (body a).Obeys C i (fun result t =>
      match result with
      | .ok (.inl a') => I a' t
      | .ok (.inr b) => post (.ok b) t
      | .error e => post (.error e) t) s)
    (hstable : ∀ b s t, post (.ok b) s → C.later i s t → post (.ok b) t)
    (hlimit : ∀ a s, I a s → ∀ t, C.later i s t → post limit t) (n : Nat) {a : τ} (hI : I a s) :
    (repeatUntil body limit n a).Obeys C i post s := by
  induction n generalizing a s with
  | zero => exact obeys_known (hlimit a s hI)
  | succ n ih =>
    refine obeys_bind ((hbody a s hI).weaken fun result t h => ?_)
    match result, h with
    | .ok (.inl a'), h => exact ih h
    | .ok (.inr b), h => exact fun u hu => hstable b t u h hu
    | .error e, h => exact h

end Promises

/-! ## Tasks side by side -/

/-- A world and the tasks that have started. -/
structure System (ι Op : Type) (Ans : Op → Type) (ε α σ : Type) where
  world : σ
  tasks : ι → Option (Program Op Ans ε α)

variable [DecidableEq ι]

/-- One task performs its next operation, the world moves by itself, or a task starts. A task that is given up
takes no more steps. -/
inductive Step (ambient : σ → σ → Prop) (startable : Program Op Ans ε α → Prop) :
    System ι Op Ans ε α σ → System ι Op Ans ε α σ → Prop where
  | perform {s : System ι Op Ans ε α σ} {i : ι} {op : Op} {k : Ans op → Program Op Ans ε α} {r : Ans op} {w : σ}
      (htask : s.tasks i = some (.ask op k)) (hworld : C.world s.world i op r w) :
      Step ambient startable s ⟨w, Function.update s.tasks i (some (k r))⟩
  | ambient {s : System ι Op Ans ε α σ} {w : σ} (h : ambient s.world w) : Step ambient startable s ⟨w, s.tasks⟩
  | start {s : System ι Op Ans ε α σ} {i : ι} {x : Program Op Ans ε α} (hfree : s.tasks i = none)
      (h : startable x) : Step ambient startable s ⟨s.world, Function.update s.tasks i (some x)⟩

variable {C} {ambient : σ → σ → Prop} {startable : Program Op Ans ε α → Prop} {I : σ → Prop}

/-- Where every task that starts keeps its promises, the world keeps what allowed operations keep. -/
theorem invariant {s t : System ι Op Ans ε α σ}
    (hworld : ∀ w i op r w', I w → C.allowed w i op → C.world w i op r w' →
      I w' ∧ ∀ j, j ≠ i → C.later j w w')
    (hambient : ∀ w w', I w → ambient w w' → I w' ∧ ∀ j, C.later j w w')
    (hstart : ∀ x i w, startable x → x.Obeys C i (fun _ _ => True) w)
    (hsteps : Relation.ReflTransGen (Step C ambient startable) s t) (hI : I s.world)
    (htasks : ∀ i x, s.tasks i = some x → x.Obeys C i (fun _ _ => True) s.world) :
    I t.world ∧ ∀ i x, t.tasks i = some x → x.Obeys C i (fun _ _ => True) t.world := by
  induction hsteps with
  | refl => exact ⟨hI, htasks⟩
  | tail _ hstep ih =>
    obtain ⟨hI, htasks⟩ := ih
    cases hstep with
    | perform htask hw =>
      rename_i i op k r w
      have hself := htasks i _ htask _ (C.later_refl i _)
      obtain ⟨hI', hlater⟩ := hworld _ _ _ _ _ hI hself.1 hw
      refine ⟨hI', fun j x hx => ?_⟩
      dsimp only at hx ⊢
      by_cases hj : j = i
      · grind
      · rw [Function.update_of_ne hj] at hx
        exact (htasks j x hx).later (hlater j hj)
    | ambient h =>
      obtain ⟨hI', hlater⟩ := hambient _ _ hI h
      exact ⟨hI', fun j x hx => (htasks j x hx).later (hlater j)⟩
    | start hfree h => grind

end Resumption
