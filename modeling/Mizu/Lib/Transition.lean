import Mathlib

/-!
# Runs of a transition system

A system is a partial function from a state and a label to the next state; the label says which party
moves and what it receives. `Reaches` are the states that runs get to whose every step meets a
condition on the state before it and the label; `Reaches.invariant` is the induction over such runs.
-/

namespace Transition

variable {σ ι : Type}

/-- `t` is reached from `s` by steps that meet `good`. -/
inductive Reaches (step : σ → ι → Option σ) (good : σ → ι → Prop) (s : σ) : σ → Prop where
  | refl : Reaches step good s s
  | next {t u l} (h : Reaches step good s t) (hgood : good t l) (hstep : step t l = some u) :
      Reaches step good s u

variable {step : σ → ι → Option σ} {good : σ → ι → Prop} {s t : σ}

/-- What holds at the start and is kept by every step that meets the condition holds throughout. -/
theorem Reaches.invariant {I : σ → Prop} (h : Reaches step good s t) (hstart : I s)
    (hstep : ∀ s l t, I s → good s l → step s l = some t → I t) : I t := by
  induction h with
  | refl => exact hstart
  | next _ hgood hs ih => exact hstep _ _ _ ih hgood hs

theorem Reaches.mono {good' : σ → ι → Prop} (h : Reaches step good s t)
    (himp : ∀ s l, good s l → good' s l) : Reaches step good' s t := by
  induction h with
  | refl => exact .refl
  | next _ hgood hs ih => exact .next ih (himp _ _ hgood) hs

theorem Reaches.trans {u : σ} (h : Reaches step good s t) (h' : Reaches step good t u) :
    Reaches step good s u := by
  induction h' with
  | refl => exact h
  | next _ hgood hs ih => exact .next ih hgood hs

/-- The state after a list of labels. -/
def run (step : σ → ι → Option σ) (s : σ) : List ι → Option σ
  | [] => some s
  | l :: ls =>
    match step s l with
    | some t => run step t ls
    | none => none

theorem reaches_of_run (ls : List ι) (h : run step s ls = some t)
    (hgood : ∀ s, ∀ l ∈ ls, good s l) : Reaches step good s t := by
  have key : ∀ ls u, (∀ s, ∀ l ∈ ls, good s l) → Reaches step good s u → run step u ls = some t →
      Reaches step good s t := by
    intro ls
    induction ls with
    | nil =>
      intro u _ hu hrun
      obtain rfl : u = t := Option.some.inj hrun
      exact hu
    | cons l ls ih =>
      intro u hgood hu hrun
      unfold run at hrun
      split at hrun
      · rename_i v hv
        exact ih v (fun s l' hl' => hgood s l' (by simp [hl'])) (.next hu (hgood _ _ (by simp)) hv) hrun
      · cases hrun
  exact key ls s hgood .refl h

/-- The steps that meet a condition. -/
def checked (step : σ → ι → Option σ) (good : σ → ι → Prop) [∀ s l, Decidable (good s l)] (s : σ)
    (l : ι) : Option σ :=
  if good s l then step s l else none

/-- A run of checked steps that ends in a state with a property shows that such a state can be
reached. -/
theorem exists_reaches_of_run (step : σ → ι → Option σ) (good : σ → ι → Prop)
    [∀ s l, Decidable (good s l)] (s : σ) (ls : List ι) {p : σ → Bool}
    (h : (run (checked step good) s ls).any p = true) :
    ∃ t, Reaches step good s t ∧ p t = true := by
  obtain ⟨t, ht, hp⟩ := (Option.any_eq_true _ _).mp h
  have hchecked : Reaches (checked step good) (fun _ _ => True) s t :=
    reaches_of_run ls ht fun _ _ _ => trivial
  refine ⟨t, ?_, hp⟩
  clear h ht hp
  induction hchecked with
  | refl => exact .refl
  | next _ _ hstep ih =>
    unfold checked at hstep
    split at hstep
    · exact .next ih ‹_› hstep
    · cases hstep

end Transition
