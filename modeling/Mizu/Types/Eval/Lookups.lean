import Mizu.Types.Eval.Queue

/-!
# Which globals an evaluation reads

`evaluate_lookups`: an evaluation gives the same result, and leaves related states, from every related
state in which the globals that it reads are the same. In contrast to `evaluate_agree` only what this run
reads counts, not everything the expression mentions.
-/

namespace Mizu

open Exec

/-- The evaluation of a variable that no local is bound for. -/
def ReadsGlobal (site : Site) (sym : Symbol) : Prop :=
  site.expr = .var sym ∧ ∃ s₁, enter site.state = .ok () s₁ ∧ s₁.getLocal sym site.framePointer = none

/-- The evaluation reads the global, itself or in an evaluation it performs. -/
def LooksUp (ctx : EvalCtx) (site : Site) (sym : Symbol) : Prop :=
  ∃ last, Relation.ReflTransGen (Performs ctx) site last ∧ ReadsGlobal last sym

theorem LooksUp.head {ctx : EvalCtx} {site site' : Site} {sym : Symbol} (h : Performs ctx site site')
    (h' : LooksUp ctx site' sym) : LooksUp ctx site sym := by
  obtain ⟨last, hpath, hreads⟩ := h'
  exact ⟨last, hpath.head h, hreads⟩

section Lookups

variable {ctx : EvalCtx} {L : Evaluator → Evaluator → Prop}

/-- From `s` and any related state, `x` ends the same way. -/
def SteadyAt (L : Evaluator → Evaluator → Prop) {α : Type} (x : EvalM α) (s : Evaluator) : Prop :=
  Agree (fun s' t => s' = s ∧ L s' t) L L x x

theorem SteadyAt.bind {α β : Type} {x : EvalM α} {f : α → EvalM β} {s : Evaluator} (hx : SteadyAt L x s)
    (hf : ∀ a s', x s = .ok a s' → SteadyAt L (f a) s') : SteadyAt L (x >>= f) s := by
  rintro s' t ⟨rfl, hst⟩
  have h := hx s' t ⟨rfl, hst⟩
  rw [bind_apply, bind_apply]
  cases hs : x s' with
  | ok a s'' =>
    cases ht : x t with
    | ok b t' =>
      rw [hs, ht] at h
      obtain ⟨rfl, hrel⟩ := h
      exact hf a s'' hs s'' t' ⟨rfl, hrel⟩
    | error e t' => simp [hs, ht] at h
  | error e s'' => grind

theorem SteadyAt.onExit {α : Type} {x : EvalM α} {s : Evaluator} {g : Evaluator → Evaluator}
    (hg : ∀ s t, L s t → L (g s) (g t)) (hx : SteadyAt L x s) : SteadyAt L (Exec.onExit x g) s :=
  Agree.onExit hx hg hg

variable (hL : RunRel L)

include hL

omit hL in
/-- Programs that do not read the globals are steady. -/
theorem steadyAt_of_agreeAt {α : Type} {x : EvalM α} {s : Evaluator} (h : AgreeAt L s.locals x x) :
    SteadyAt L x s := by
  rintro s' t ⟨rfl, hst⟩
  have h := h s' t ⟨hst, rfl⟩
  revert h
  cases x s' <;> cases x t
  · exact fun ⟨heq, hrel⟩ => ⟨heq, hrel.1⟩
  · exact id
  · exact id
  · exact id

theorem enterBody_steady {func : MizuFunction} {vs : List Value} {t : Evaluator}
    (hbody : ∀ u, bindParams func.params vs t = .ok () u →
      SteadyAt L (evaluate ctx t.locals.stack.length func.body.arena func.body.rootExpr) u) :
    SteadyAt L (enterBody ctx func vs) t := by
  rintro t' w ⟨rfl, htw⟩
  have hparams := bindParams_agree hL.toLevelRel (l := t'.locals) func.params vs t' w ⟨htw, rfl⟩
  simp only [enterBody, bind_apply, get_apply, ← hL.locals htw]
  cases ht : bindParams func.params vs t' with
  | ok a u =>
    cases hw : bindParams func.params vs w with
    | ok b u' =>
      rw [ht, hw] at hparams
      have hexit := (hbody u ht).onExit fun _ _ h => hL.truncate h t'.locals.stack.length
      exact hexit u u' ⟨rfl, hparams.2.1⟩
    | error e u' => simp [ht, hw] at hparams
  | error e u => grind

theorem enterLet_steady {fp : Nat} {a : ExprArena} {x : Symbol} {v : Value} {e : Expr} {t : Evaluator}
    (hbody : SteadyAt L (evaluate ctx fp a e) (t.pushLocal x v)) :
    SteadyAt L (enterLet ctx fp a x v e) t := by
  rintro t' w ⟨rfl, htw⟩
  have hexit := hbody.onExit fun _ _ h => hL.pop h
  exact hexit _ _ ⟨rfl, hL.push htw x v⟩

theorem steadyRules {site : Site} (hlookup : ∀ sym, ReadsGlobal site sym → SameGlobal L sym)
    (hsub : ∀ sub, Performs ctx site sub →
      SteadyAt L (evaluate ctx sub.framePointer sub.arena sub.expr) sub.state) :
    SiteRules ctx site fun x s => SteadyAt L x s where
  pure a _ := .pure (fun _ _ h => h.2) a
  throw e _ := .throw (fun _ _ h => h.2) e
  native x _ := steadyAt_of_agreeAt (native_agree hL.toLevelRel x)
  bind := .bind
  sub h := hsub _ (.inl h)
  act {action _} _ := steadyAt_of_agreeAt (act_agree hL.toLevelRel action)
  letBody h := enterLet_steady hL (hsub _ (.inl h))
  callBody {func vs t} h :=
    enterBody_steady hL fun u hu => hsub ⟨_, _, _, u⟩ (.inr ⟨func, vs, t, u, h, hu, rfl⟩)
  var {sym s₁} hexpr henter := by
    refine steadyAt_of_agreeAt (readVariable_agree hL.toLevelRel ?_)
    cases hlocal : s₁.getLocal sym site.framePointer with
    | some v => exact .inl (by rw [Evaluator.getLocal] at hlocal; rw [hlocal]; rfl)
    | none => exact .inr (hlookup sym ⟨hexpr, s₁, henter, hlocal⟩)
  systemTime {args _} _ := steadyAt_of_agreeAt (getSystemTime_agree hL.toLevelRel args)

/-- An evaluation ends the same way from a related state, if the states agree on the globals it reads
from the first. -/
theorem evaluate_lookups (site : Site) (h : ∀ sym, LooksUp ctx site sym → SameGlobal L sym) :
    SteadyAt L (evaluate ctx site.framePointer site.arena site.expr) site.state := by
  induction site using Site.induction with
  | step site ih =>
    obtain ⟨fp, a, e, s⟩ := site
    have hsub : ∀ sub, Performs ctx ⟨fp, a, e, s⟩ sub →
        SteadyAt L (evaluate ctx sub.framePointer sub.arena sub.expr) sub.state := by
      intro sub hstep
      have hd := hstep.elim SubEval.depth BodyEval.depth
      exact ih sub hd.1 hd.2 fun sym hsym => h sym (hsym.head hstep)
    rw [evaluate_eq]
    refine SteadyAt.bind (steadyAt_of_agreeAt (enter_agree hL s.locals)) fun _ s₁ henter => ?_
    have hlevel := (steadyRules hL (fun sym hreads => h sym ⟨_, .refl, hreads⟩) hsub).level henter
    exact hlevel.onExit fun _ _ hst => leave_related hL hst

end Lookups

end Mizu
