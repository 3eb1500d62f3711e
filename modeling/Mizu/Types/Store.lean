import Mizu.Types.Eval.State

/-!
# The variable store

An evaluator together with the names of its symbols. The interner is frozen: a name that the
document does not mention cannot be bound.
-/

namespace Mizu

namespace Evaluator

@[simp] theorem getGlobal_setGlobal_self (s : Evaluator) (sym : Symbol) (v : Value) :
    (s.setGlobal sym v).getGlobal sym = v := by
  simp [getGlobal, setGlobal]

theorem getGlobal_setGlobal_of_ne (s : Evaluator) {sym sym' : Symbol} (h : sym' ≠ sym) (v : Value) :
    (s.setGlobal sym v).getGlobal sym' = s.getGlobal sym' := by
  simp [getGlobal, setGlobal, Finmap.lookup_insert_of_ne _ h]

end Evaluator

structure VariableStore where
  evaluator : Evaluator
  interner : Interner

namespace VariableStore

/-- `set_symbol`. -/
def setSymbol (s : VariableStore) (sym : Symbol) (v : Value) : VariableStore :=
  { s with evaluator := s.evaluator.setGlobal sym v }

/-- `set_runtime`. -/
def setRuntime (s : VariableStore) (name : String) (v : Value) : VariableStore :=
  match s.interner.get name with
  | some sym => s.setSymbol sym v
  | none => s

@[simp] theorem setSymbol_interner (s : VariableStore) (sym : Symbol) (v : Value) :
    (s.setSymbol sym v).interner = s.interner := rfl

@[simp] theorem setRuntime_interner (s : VariableStore) (name : String) (v : Value) :
    (s.setRuntime name v).interner = s.interner := by
  unfold setRuntime
  split <;> rfl

/-- Only a name that is not interned is left alone: a write of the same value is logged too. -/
theorem setRuntime_eq_iff (s : VariableStore) (name : String) (v : Value) :
    s.setRuntime name v = s ↔ s.interner.get name = none := by
  unfold setRuntime
  constructor
  · intro h
    split at h
    · have hlen := congrArg (fun s => s.evaluator.undoLog.length) h
      simp [setSymbol, Evaluator.setGlobal] at hlen
    · assumption
  · intro h
    rw [h]

end VariableStore

end Mizu
