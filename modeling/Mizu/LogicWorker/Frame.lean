import Mizu.Logic.Recompute
import Mizu.LogicWorker.Session

/-!
# What an event writes

* `StoreInvariant`: a fact that evaluations and writes keep is kept by every part of an event.
* `Tracks`: the undo log knows the value that every written global had when the event began.
* `Tracks.invariant`, `executeAction_tracks`, `setFields_logged`: each part of an event keeps the log
  complete.
* `rollback_globals`: the roll-back restores the globals.
-/

namespace Mizu

open Exec

/-! ## Facts that an event keeps -/

/-- A fact about the evaluator that evaluations and writes keep. -/
structure StoreInvariant (I : Evaluator → Prop) : Prop where
  kept : ∀ {s s'}, Kept s s' → I s → I s'
  setGlobal : ∀ {s} sym v, I s → I (s.setGlobal sym v)

variable {s : Evaluator} (platform : Platform) (ctx : EvalCtx)

namespace StoreInvariant

variable {I : Evaluator → Prop} (hI : StoreInvariant I)

include hI

theorem setRuntime (h : I s) (interner : Interner) (name : String) (v : Value) :
    I (s.setRuntime interner name v) := by
  unfold Evaluator.setRuntime
  split
  · exact hI.setGlobal _ v h
  · exact h

theorem executeAction (action : Action) (h : I s) (hact : ∀ t a, ¬a.fromExpr → a.Raw → I t → I (t.act a)) :
    I (finalState (Mizu.executeAction ctx action s)) := by
  cases hrun : Mizu.executeAction ctx action s with
  | error e s' => exact hI.kept (executeAction_error ctx hrun).toKept h
  | ok b s' =>
    obtain ⟨t, hreturned, hfinishes⟩ := executeAction_ok ctx hrun
    have ht := hI.kept hreturned.toKept h
    cases hfinishes with
    | assign v _ => exact hI.setRuntime ht _ _ v
    | eval => exact ht
    | navigate | networkCall => exact hact t _ id trivial ht

theorem recompute (bindings : List ComputedBinding) (mutated : Finset Symbol)
    (index : CompReverseIndex) (h : I s) : I (recomputeComputedBindings ctx bindings mutated index s).1 :=
  recompute_invariant ctx (fun _ _ hthrew hs => hI.kept hthrew.toKept hs)
    (fun cb _ _ v hs => hI.setGlobal cb.name v hs) mutated index h

theorem initFunction (h : I s) (sym : Symbol) : I (TabSession.initFunction ctx s sym) := by
  have hcount : I { s with instructionCount := 0 } := hI.kept (Kept.of_locals s s.locals 0) h
  unfold TabSession.initFunction
  split
  · split
    · split
      · rename_i v s' hev
        exact hI.setGlobal sym v (hI.kept ((evalTree_framed ctx _).of_ok hev).toKept hcount)
      · rename_i e s' hev
        exact hI.kept ((evalTree_framed ctx _).of_error hev).toKept hcount
    · exact h
  · exact h

theorem initFunctions {t : TabSession} (h : I t.store.evaluator) :
    I (t.initFunctions platform).store.evaluator := by
  unfold TabSession.initFunctions TabSession.mapEvaluator TabSession.withEvaluator
  dsimp only
  generalize platform.functionOrder.list t.logicFns = order
  generalize t.store.evaluator = s at h
  induction order generalizing s with
  | nil => exact h
  | cons sym order ih => exact ih _ (hI.initFunction _ h sym)

theorem initComps {t : TabSession} (h : I t.store.evaluator) : I (t.initComps platform).store.evaluator :=
  hI.recompute _ _ _ _ h

end StoreInvariant

/-! ## The undo log -/

/-- The undo log of `s` is complete for what was written since `s₀`: the first value logged of a symbol,
or its present value if none is logged, is the one it had in `s₀`. -/
def Tracks (s₀ s : Evaluator) : Prop :=
  ∀ sym, s₀.getGlobal sym =
    ((s.undoLog.find? (·.1 = sym)).map (·.2)).getD (s.getGlobal sym)

variable (s₀ : Evaluator)

namespace Tracks

theorem of_nil (h : s.undoLog = []) : Tracks s s := fun sym => by simp [h]

theorem kept {s₀ s s' : Evaluator} (h : Tracks s₀ s) (hkept : Kept s s') : Tracks s₀ s' := by
  intro sym
  rw [h sym, hkept.undoLog]
  simp only [Evaluator.getGlobal, hkept.globalStore]

theorem setGlobal {s₀ s : Evaluator} (h : Tracks s₀ s) (sym : Symbol) (v : Value) :
    Tracks s₀ (s.setGlobal sym v) := by
  intro sym'
  have hlog : (s.setGlobal sym v).undoLog = s.undoLog ++ [(sym, s.getGlobal sym)] := rfl
  rw [h sym', hlog, List.find?_append]
  cases hfind : s.undoLog.find? (·.1 = sym') with
  | some entry => rfl
  | none => grind [s.getGlobal_setGlobal_of_ne]

theorem invariant : StoreInvariant (Tracks s₀) where
  kept hkept h := h.kept hkept
  setGlobal sym v h := h.setGlobal sym v

theorem setRuntime {s₀ s : Evaluator} (h : Tracks s₀ s) (interner : Interner) (name : String)
    (v : Value) : Tracks s₀ (s.setRuntime interner name v) :=
  (invariant s₀).setRuntime h interner name v

/-- A symbol that is not logged was not written. -/
theorem unlogged {s₀ s : Evaluator} (h : Tracks s₀ s) {sym : Symbol}
    (hno : ∀ v, (sym, v) ∉ s.undoLog) : s.getGlobal sym = s₀.getGlobal sym := by
  have hfind : s.undoLog.find? (·.1 = sym) = none := by grind
  rw [h sym, hfind]
  rfl

end Tracks

/-- The value a symbol had first, as the response is built from it. -/
theorem originalValues_lookup (log : List (Symbol × Value)) (sym : Symbol) :
    (originalValues log).lookup sym = (log.find? (·.1 = sym)).map (·.2) := by
  have key : ∀ (log : List (Symbol × Value)) (m : FxHashMap Symbol Value),
      (log.foldl (fun originals entry =>
        if entry.1 ∈ originals then originals else originals.insert entry.1 entry.2) m).lookup sym =
        (m.lookup sym).or ((log.find? (·.1 = sym)).map (·.2)) := by
    intro log
    induction log with
    | nil => simp
    | cons entry log ih =>
      obtain ⟨sym', v⟩ := entry
      intro m
      rw [List.foldl_cons, ih, List.find?_cons]
      by_cases hs : sym' = sym
      · subst hs
        by_cases hmem : sym' ∈ m
        · obtain ⟨w, hw⟩ := Finmap.mem_iff.mp hmem
          simp [hmem, hw]
        · simp [hmem, Finmap.lookup_eq_none.mpr hmem]
      · grind [Finmap.lookup_insert_of_ne]
  exact (key log ∅).trans (by simp)

theorem executeAction_tracks {action : Action} {s₀ s : Evaluator} (h : Tracks s₀ s) :
    Tracks s₀ (finalState (executeAction ctx action s)) :=
  (Tracks.invariant s₀).executeAction ctx action h fun _ _ _ _ ht => ht

namespace TabSession

/-- A part of an event that writes through the log only, and replaces the evaluator only. -/
structure Logged (s₀ : Evaluator) (t t' : TabSession) : Prop where
  tracks : Tracks s₀ t.store.evaluator → Tracks s₀ t'.store.evaluator
  rest : t' = t.withEvaluator t'.store.evaluator

theorem Logged.refl (t : TabSession) : Logged s₀ t t := ⟨id, rfl⟩

theorem Logged.trans {s₀ : Evaluator} {a b c : TabSession} (h : Logged s₀ a b) (h' : Logged s₀ b c) :
    Logged s₀ a c :=
  ⟨fun ha => h'.tracks (h.tracks ha), by rw [h'.rest, h.rest]; rfl⟩

theorem setRuntime_eq (t : TabSession) (name : String) (v : Value) :
    t.setRuntime name v = t.mapEvaluator (·.setRuntime t.store.interner name v) := by
  unfold setRuntime mapEvaluator withEvaluator VariableStore.setRuntime Evaluator.setRuntime
  cases t.store.interner.get name <;> rfl

theorem setRuntime_logged (t : TabSession) (name : String) (v : Value) :
    Logged s₀ t (t.setRuntime name v) := by
  rw [setRuntime_eq]
  exact ⟨fun h => h.setRuntime _ _ v, rfl⟩

theorem recompute_logged (s₀ : Evaluator) (t : TabSession) :
    Logged s₀ t (t.recomputeAfterMutation platform) := by
  unfold recomputeAfterMutation
  split
  · exact .refl s₀ t
  · exact ⟨fun h => (Tracks.invariant s₀).recompute _ _ _ _ h, rfl⟩

theorem foldl_setRuntime_logged (fields : List (String × Value)) (t : TabSession) :
    Logged s₀ t (fields.foldl (fun t (name, v) => t.setRuntime name v) t) := by
  induction fields generalizing t with
  | nil => exact .refl s₀ t
  | cons field fields ih => exact (setRuntime_logged s₀ t field.1 field.2).trans (ih _)

theorem setFields_logged (fields : List (String × Value)) (t : TabSession) :
    Logged s₀ t.clearUndo (t.setFields fields) :=
  (setRuntime_logged s₀ _ _ _).trans (foldl_setRuntime_logged s₀ fields _)

theorem runSubmit_logged (s₀ : Evaluator) (action : Option Action)
    (t : TabSession) : Logged s₀ t (t.runSubmit platform action) := by
  cases action with
  | none => exact .refl s₀ t
  | some action => exact ⟨fun h => executeAction_tracks _ h, rfl⟩

theorem initFunctions_logged (s₀ : Evaluator) (t : TabSession) : Logged s₀ t (t.initFunctions platform) :=
  ⟨fun h => (Tracks.invariant s₀).initFunctions platform h, rfl⟩

theorem initComps_logged (s₀ : Evaluator) (t : TabSession) : Logged s₀ t (t.initComps platform) :=
  ⟨fun h => (Tracks.invariant s₀).initComps platform h, rfl⟩

theorem clearUndo_tracks (t : TabSession) :
    Tracks t.store.evaluator t.clearUndo.store.evaluator := fun _ => rfl

/-- A failed action is rolled back to the globals from before it. -/
theorem rollback_globals {ctx : EvalCtx} {action : Action} {s s' : Evaluator} {e : MizuError}
    (hlog : s.undoLog = []) (h : executeAction ctx action s = .error e s') (n : Nat) :
    (rollback n s').globalStore = s.globalStore := by
  have hkept := executeAction_error ctx h
  simp [rollback, hkept.undoLog, hlog, hkept.globalStore]

end TabSession

end Mizu
