import Mathlib

/-!
# Reasoning about programs with state and errors

A program is an `EStateM ε σ α`: it returns a value or throws, and keeps the state it reached in
both cases. Four judgements about such programs, each with one rule for each way of composing
them:

* `Exec.wp`: the weakest precondition, with one postcondition for each way to end;
* `Exec.Guarantees`: what every run does to the state, as one relation for the runs that return
  and one for the runs that throw;
* `Exec.Agree`: two programs, run from related states, end the same way in related states, with one
  relation for each way to end;
* `Exec.EndsLike`: the same for one pair of states, where the second program may also give up.

`Exec.onExit` is the program that cleans up on both ways out.
-/

namespace Exec

open List

variable {ε σ α β : Type}

/-- The state a run ends in. -/
def finalState : EStateM.Result ε σ α → σ
  | .ok _ s => s
  | .error _ s => s

@[simp] theorem finalState_ok (a : α) (s : σ) :
    finalState (.ok a s : EStateM.Result ε σ α) = s := rfl

@[simp] theorem finalState_error (e : ε) (s : σ) :
    finalState (.error e s : EStateM.Result ε σ α) = s := rfl

/-- Runs `x`, then applies `f` to the state, whether `x` returned or threw. -/
def onExit (x : EStateM ε σ α) (f : σ → σ) : EStateM ε σ α := fun s =>
  match x s with
  | .ok a s' => .ok a (f s')
  | .error e s' => .error e (f s')

variable {g : σ → σ} {s' : σ} {e : ε}

section Run

variable (x : EStateM ε σ α) (f : α → EStateM ε σ β) (s : σ)

theorem pure_apply (a : α) : (pure a : EStateM ε σ α) s = .ok a s := rfl

theorem throw_apply (e : ε) : (throw e : EStateM ε σ α) s = .error e s := rfl

theorem get_apply : (get : EStateM ε σ σ) s = .ok s s := rfl

theorem set_apply (t : σ) : (set t : EStateM ε σ PUnit) s = .ok ⟨⟩ t := rfl

theorem modify_apply (g : σ → σ) : (modify g : EStateM ε σ PUnit) s = .ok ⟨⟩ (g s) := rfl

theorem bind_apply : (x >>= f) s =
    match x s with
    | .ok a s' => f a s'
    | .error e s' => .error e s' := rfl

variable {x f s}

theorem bind_ok {a : α} (h : x s = .ok a s') : (x >>= f) s = f a s' := by
  rw [bind_apply, h]

theorem bind_error (h : x s = .error e s') : (x >>= f) s = .error e s' := by
  rw [bind_apply, h]

/-- A sequence returns only if both parts do. -/
theorem of_bind_ok {b : β} (h : (x >>= f) s = .ok b s') : ∃ a t, x s = .ok a t ∧ f a t = .ok b s' := by
  grind [bind_apply]

theorem of_bind_error (h : (x >>= f) s = .error e s') :
    x s = .error e s' ∨ ∃ a t, x s = .ok a t ∧ f a t = .error e s' := by
  grind [bind_apply]

/-- A run that cleans up returns only if the program does. -/
theorem of_onExit_ok {a : α} (h : onExit x g s = .ok a s') : ∃ t, x s = .ok a t ∧ s' = g t := by
  unfold onExit at h
  cases hx : x s with
  | ok b t => grind
  | error e t => simp [hx] at h

end Run

/-! Programs without state -/

section Except

variable {x : Except ε α} {f : α → Except ε β}

theorem except_of_bind_ok {b : β} (h : x >>= f = .ok b) : ∃ a, x = .ok a ∧ f a = .ok b := by
  cases x with
  | ok a => exact ⟨a, rfl, h⟩
  | error e => cases h

theorem except_bind_ok_iff {b : β} : x >>= f = .ok b ↔ ∃ a, x = .ok a ∧ f a = .ok b :=
  ⟨except_of_bind_ok, fun ⟨_, hx, hf⟩ => by rw [hx]; exact hf⟩

theorem except_of_bind_error (h : x >>= f = .error e) : x = .error e ∨ ∃ a, x = .ok a ∧ f a = .error e := by
  cases x with
  | ok a => exact .inr ⟨a, rfl, h⟩
  | error e' =>
    cases h
    exact .inl rfl

variable {xs : List α} {ys : List β}

theorem except_mapM_mem {f : α → Except ε β} (h : xs.mapM f = .ok ys) :
    (∀ y ∈ ys, ∃ x ∈ xs, f x = .ok y) ∧ ∀ x ∈ xs, ∃ y ∈ ys, f x = .ok y := by
  induction xs generalizing ys with
  | nil =>
    cases h
    simp
  | cons x xs ih =>
    rw [mapM_cons] at h
    obtain ⟨y, hy, h⟩ := except_of_bind_ok h
    obtain ⟨ys', hys, h⟩ := except_of_bind_ok h
    cases h
    obtain ⟨hfrom, hto⟩ := ih hys
    constructor
    · grind
    · grind

/-- The results stand where their inputs stood. -/
theorem except_mapM_getElem? {f : α → Except ε β} (h : xs.mapM f = .ok ys) (i : Nat) (y : β) :
    ys[i]? = some y ↔ ∃ x, xs[i]? = some x ∧ f x = .ok y := by
  induction xs generalizing ys i with
  | nil =>
    cases h
    simp
  | cons x xs ih =>
    rw [mapM_cons] at h
    obtain ⟨y', hy, h⟩ := except_of_bind_ok h
    obtain ⟨ys', hys, h⟩ := except_of_bind_ok h
    cases h
    cases i with
    | zero => simp [hy]
    | succ i => simpa using ih hys i

theorem except_mapM_length {f : α → Except ε β} (h : xs.mapM f = .ok ys) : ys.length = xs.length := by
  induction xs generalizing ys with
  | nil =>
    cases h
    rfl
  | cons x xs ih =>
    rw [mapM_cons] at h
    obtain ⟨y', hy, h⟩ := except_of_bind_ok h
    obtain ⟨ys', hys, h⟩ := except_of_bind_ok h
    cases h
    simp [ih hys]

/-- A traversal returns exactly if each call does, with the results in the order of the inputs. -/
theorem except_mapM_ok_iff {f : α → Except ε β} :
    xs.mapM f = .ok ys ↔ List.Forall₂ (fun x y => f x = .ok y) xs ys := by
  induction xs generalizing ys with
  | nil => exact ⟨fun h => by cases h; exact .nil, fun h => by cases h; rfl⟩
  | cons x xs ih =>
    rw [mapM_cons]
    constructor
    · intro h
      obtain ⟨y, hy, h⟩ := except_of_bind_ok h
      obtain ⟨ys', hys, h⟩ := except_of_bind_ok h
      cases h
      exact .cons hy (ih.mp hys)
    · intro h
      cases h with
      | cons hy hys => rw [hy, ih.mpr hys]; rfl

theorem except_mapM_ok {f : α → Except ε β} (h : ∀ x ∈ xs, ∃ y, f x = .ok y) :
    ∃ ys, xs.mapM f = .ok ys := by
  induction xs with
  | nil => exact ⟨[], rfl⟩
  | cons x xs ih =>
    obtain ⟨y, hy⟩ := h x (by simp)
    obtain ⟨ys, hys⟩ := ih fun x' hx' => h x' (by simp [hx'])
    refine ⟨y :: ys, ?_⟩
    rw [mapM_cons, hy, hys]
    rfl

end Except

/-! ## Weakest preconditions -/

/-- From `s`, `x` returns in a state that satisfies `Q` or throws in one that satisfies `E`. -/
def wp (x : EStateM ε σ α) (Q : α → σ → Prop) (E : ε → σ → Prop) (s : σ) : Prop :=
  match x s with
  | .ok a s' => Q a s'
  | .error e s' => E e s'

section Wp

variable {Q : α → σ → Prop} {E : ε → σ → Prop} {s : σ}

@[simp] theorem wp_pure (a : α) : wp (pure a : EStateM ε σ α) Q E s ↔ Q a s := Iff.rfl

@[simp] theorem wp_throw (e : ε) : wp (throw e : EStateM ε σ α) Q E s ↔ E e s := Iff.rfl

@[simp] theorem wp_get {Q : σ → σ → Prop} : wp (get : EStateM ε σ σ) Q E s ↔ Q s s := Iff.rfl

@[simp] theorem wp_modify {Q : PUnit → σ → Prop} (g : σ → σ) :
    wp (modify g : EStateM ε σ PUnit) Q E s ↔ Q ⟨⟩ (g s) := Iff.rfl

@[simp] theorem wp_bind (x : EStateM ε σ α) (f : α → EStateM ε σ β) {Q : β → σ → Prop} :
    wp (x >>= f) Q E s ↔ wp x (fun a => wp (f a) Q E) E s := by
  unfold wp
  rw [bind_apply]
  cases x s <;> rfl

@[simp] theorem wp_onExit (x : EStateM ε σ α) (g : σ → σ) :
    wp (onExit x g) Q E s ↔ wp x (fun a s' => Q a (g s')) (fun e s' => E e (g s')) s := by
  unfold wp onExit
  cases x s <;> rfl

variable {x : EStateM ε σ α}

theorem wp.mono {Q' : α → σ → Prop} {E' : ε → σ → Prop} (h : wp x Q E s)
    (hq : ∀ a s', Q a s' → Q' a s') (he : ∀ e s', E e s' → E' e s') : wp x Q' E' s := by
  grind [wp]

/-- Postconditions that hold of every end hold of every program. -/
theorem wp_of_forall (hq : ∀ a s', Q a s') (he : ∀ e s', E e s') : wp x Q E s := by
  grind [wp]

theorem wp_of_ok {a : α} (h : wp x Q E s) (hx : x s = .ok a s') : Q a s' := by
  unfold wp at h
  rwa [hx] at h

theorem wp_of_error (h : wp x Q E s) (hx : x s = .error e s') : E e s' := by
  unfold wp at h
  rwa [hx] at h

/-- What holds of both ways to end holds of the state the run ends in. -/
theorem finalState_of_wp {P : σ → Prop} (h : wp x (fun _ t => P t) (fun _ t => P t) s) :
    P (finalState (x s)) := by
  unfold wp at h
  cases hx : x s with
  | ok a t => rwa [hx] at h
  | error e t => rwa [hx] at h

end Wp

/-! ## Guarantees over every run -/

/-- Every run of `x` that returns relates its first state to its last by `R`, every run that
throws relates them by `F`. -/
def Guarantees (R F : σ → σ → Prop) (x : EStateM ε σ α) : Prop :=
  ∀ s, wp x (fun _ s' => R s s') (fun _ s' => F s s') s

/-- What a pair of relations needs so that guarantees compose. -/
structure Composes (R F : σ → σ → Prop) : Prop where
  refl : ∀ s, R s s
  fail : ∀ s, F s s
  trans : ∀ {a b c}, R a b → R b c → R a c
  after : ∀ {a b c}, R a b → F b c → F a c

namespace Guarantees

variable {R F : σ → σ → Prop} {x : EStateM ε σ α} {f : α → EStateM ε σ β}

theorem of_ok (h : Guarantees R F x) {s s' : σ} {a : α} (hx : x s = .ok a s') : R s s' := by
  have hs := h s
  unfold wp at hs
  rwa [hx] at hs

theorem of_error (h : Guarantees R F x) {s s' : σ} (hx : x s = .error e s') : F s s' := by
  have hs := h s
  unfold wp at hs
  rwa [hx] at hs

theorem pure (hc : Composes R F) (a : α) : Guarantees R F (Pure.pure a : EStateM ε σ α) :=
  fun s => hc.refl s

theorem throw (hc : Composes R F) (e : ε) : Guarantees R F (throw e : EStateM ε σ α) :=
  fun s => hc.fail s

theorem get (hc : Composes R F) : Guarantees R F (MonadState.get : EStateM ε σ σ) :=
  fun s => hc.refl s

theorem modify (h : ∀ s, R s (g s)) : Guarantees R F (modify g : EStateM ε σ PUnit) :=
  fun s => h s

theorem bind (hc : Composes R F) (hx : Guarantees R F x) (hf : ∀ a, Guarantees R F (f a)) :
    Guarantees R F (x >>= f) := by
  intro s
  rw [wp_bind]
  refine (hx s).mono (fun a t h => ?_) fun _ _ h => h
  exact (hf a t).mono (fun _ _ h' => hc.trans h h') fun _ _ h' => hc.after h h'

end Guarantees

/-! ## Two runs side by side -/

/-- From states related by `P`, both programs return the same value, in states related by `Q`, or
throw the same error, in states related by `E`. -/
def Agree (P Q E : σ → σ → Prop) (x y : EStateM ε σ α) : Prop :=
  ∀ s t, P s t →
    match x s, y t with
    | .ok a s', .ok b t' => a = b ∧ Q s' t'
    | .error e s', .error e' t' => e = e' ∧ E s' t'
    | _, _ => False

namespace Agree

variable {P Q R E : σ → σ → Prop} {x y : EStateM ε σ α}

theorem pure (h : ∀ s t, P s t → Q s t) (a : α) :
    Agree P Q E (Pure.pure a : EStateM ε σ α) (Pure.pure a) :=
  fun s t hp => ⟨rfl, h s t hp⟩

theorem throw (h : ∀ s t, P s t → E s t) (e : ε) :
    Agree P Q E (throw e : EStateM ε σ α) (MonadExcept.throw e) :=
  fun s t hp => ⟨rfl, h s t hp⟩

theorem modify (h : ∀ s t, P s t → Q (g s) (g t)) : Agree P Q E (modify g : EStateM ε σ PUnit) (modify g) :=
  fun s t hp => ⟨rfl, h s t hp⟩

theorem bind {f g : α → EStateM ε σ β} (hx : Agree P Q E x y) (hf : ∀ a, Agree Q R E (f a) (g a)) :
    Agree P R E (x >>= f) (y >>= g) := by
  intro s t hp
  have h := hx s t hp
  rw [bind_apply, bind_apply]
  cases hxs : x s <;> cases hyt : y t <;> rw [hxs, hyt] at h
  · obtain ⟨rfl, hq⟩ := h
    exact hf _ _ _ hq
  · exact h.elim
  · exact h.elim
  · exact h

theorem onExit {Q' E' : σ → σ → Prop} (hx : Agree P Q E x y)
    (hq : ∀ s t, Q s t → Q' (g s) (g t)) (he : ∀ s t, E s t → E' (g s) (g t)) :
    Agree P Q' E' (Exec.onExit x g) (Exec.onExit y g) := by
  intro s t hp
  have hxy := hx s t hp
  unfold Exec.onExit
  cases hxs : x s <;> cases hyt : y t <;> rw [hxs, hyt] at hxy
  · exact ⟨hxy.1, hq _ _ hxy.2⟩
  · exact hxy.elim
  · exact hxy.elim
  · exact ⟨hxy.1, he _ _ hxy.2⟩

end Agree

/-! ## A run that may give up -/

/-- From `s` the program `x` ends as `y` does from `t`, in related states, unless `y` throws an error
in `D`. -/
def EndsLike (D : ε → Prop) (R : σ → σ → Prop) (x : EStateM ε σ α) (s : σ) (y : EStateM ε σ α) (t : σ) :
    Prop :=
  match y t with
  | .ok b t' => ∃ s', x s = .ok b s' ∧ R s' t'
  | .error e t' => D e ∨ ∃ s', x s = .error e s' ∧ R s' t'

namespace EndsLike

variable {D : ε → Prop} {R : σ → σ → Prop} {x y : EStateM ε σ α} {s t : σ}

theorem pure (h : R s t) (a : α) : EndsLike D R (Pure.pure a : EStateM ε σ α) s (Pure.pure a) t :=
  ⟨s, rfl, h⟩

theorem throw (h : R s t) (e : ε) :
    EndsLike D R (throw e : EStateM ε σ α) s (MonadExcept.throw e) t :=
  .inr ⟨s, rfl, h⟩

/-- Nothing is asked where the second program gives up. -/
theorem gaveUp (h : D e) : EndsLike D R x s (MonadExcept.throw e : EStateM ε σ α) t := .inl h

theorem modify (h : R (g s) (g t)) : EndsLike D R (modify g : EStateM ε σ PUnit) s (modify g) t :=
  ⟨g s, rfl, h⟩

theorem bind {f g : α → EStateM ε σ β} (hx : EndsLike D R x s y t)
    (hf : ∀ a s' t', R s' t' → EndsLike D R (f a) s' (g a) t') : EndsLike D R (x >>= f) s (y >>= g) t := by
  grind [bind_ok, bind_error, EndsLike]

theorem read {f g : σ → EStateM ε σ α} (h : EndsLike D R (f s) s (g t) t) :
    EndsLike D R (get >>= f) s (get >>= g) t := h

theorem onExit (hx : EndsLike D R x s y t) (hg : ∀ s t, R s t → R (g s) (g t)) :
    EndsLike D R (Exec.onExit x g) s (Exec.onExit y g) t := by
  grind [EndsLike, Exec.onExit]

theorem of_ok (h : EndsLike D R x s y t) {b : α} {t' : σ} (hy : y t = .ok b t') :
    ∃ s', x s = .ok b s' ∧ R s' t' := by
  unfold EndsLike at h
  rwa [hy] at h

theorem of_error (h : EndsLike D R x s y t) {t' : σ} (hy : y t = .error e t') (he : ¬D e) :
    ∃ s', x s = .error e s' ∧ R s' t' := by
  grind [EndsLike]

end EndsLike

end Exec
