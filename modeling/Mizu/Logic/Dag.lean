import Mizu.Lib.Kahn
import Mizu.Logic.Reads

/-!
# The call graph

`checkDag` refuses a document whose functions call each other in a circle.

* `checkDag_ok_iff`: it accepts exactly the tables in which no chain of calls comes back.
-/

namespace Mizu

open Exec List

/-! ## The check -/

/-- What the body of a function calls. -/
def calleesOf (functions : FunctionTable) (sym : Symbol) : Walk (List Symbol) :=
  match functions.lookup sym with
  | some func => collectCalls functions func.body.arena (walkFuel func.body.arena) func.body.rootExpr []
  | none => return []

/-- An edge from each function to every function that it calls, by their positions in `names`. -/
def callEdges (functions : FunctionTable) (names : List Symbol) : Walk Kahn.Edges := do
  let calls ← names.mapM (calleesOf functions)
  return calls.zipIdx.flatMap fun (callees, i) =>
    (callees.filter (· ∈ functions)).map fun callee => (i, names.idxOf callee)

def cycleFound : MizuError :=
  .parseError ("Recursion and infinite loops are strictly forbidden: " ++
    "a cycle was detected in the function call graph")

/-- `check_dag`, with the names of the functions in the order in which the table is iterated. -/
def checkDag (functions : FunctionTable) (names : List Symbol) : Walk Unit := do
  let edges ← callEdges functions names
  if (Kahn.order names.length edges).length ≠ names.length then throw (.error cycleFound)
  else return ()

/-! ## What it accepts -/

section Accepts

/-- The body of `f` calls the function `g`. -/
def CallsFunction (functions : FunctionTable) (f g : Symbol) : Prop := Calls functions f g ∧ g ∈ functions

variable {functions : FunctionTable} {names : List Symbol}

theorem mem_calleesOf {f : Symbol} {callees : List Symbol} (h : calleesOf functions f = .ok callees)
    (g : Symbol) : g ∈ callees ↔ Calls functions f g := by
  unfold calleesOf at h
  unfold Calls
  split at h
  · rename_i func hfunc
    rw [mem_collectCalls h]
    simp [hfunc]
  · rename_i hnone
    cases h
    simp [hnone]

theorem calleesOf_total (h : functions.Ordered) (f : Symbol) :
    ∃ callees, calleesOf functions f = .ok callees := by
  unfold calleesOf
  split
  · rename_i func hfunc
    exact collectCalls_total functions (h f func hfunc) func.body.root_valid
      (Nat.lt_succ_of_lt func.body.root_valid)
  · exact ⟨[], rfl⟩

theorem callEdges_total (h : functions.Ordered) (names : List Symbol) :
    ∃ edges, callEdges functions names = .ok edges := by
  obtain ⟨calls, hcalls⟩ := except_mapM_ok fun f (_ : f ∈ names) => calleesOf_total h f
  unfold callEdges
  rw [hcalls]
  exact ⟨_, rfl⟩

variable {edges : Kahn.Edges} (hedges : callEdges functions names = .ok edges)
  (hmem : ∀ f, f ∈ names ↔ f ∈ functions)

include hedges hmem

theorem callEdges_iff (hnodup : names.Nodup) (i j : Nat) :
    Kahn.Edge edges i j ↔
      ∃ f g, names[i]? = some f ∧ names[j]? = some g ∧ CallsFunction functions f g := by
  obtain ⟨calls, hcalls, hedges⟩ := except_of_bind_ok hedges
  cases hedges
  have hget := except_mapM_getElem? hcalls
  simp only [Kahn.Edge, mem_flatMap, mem_map, mem_filter, decide_eq_true_eq,
    Prod.exists, mem_zipIdx_iff_getElem?, Prod.mk.injEq]
  constructor
  · rintro ⟨callees, _, hi, g, ⟨hg, hfunc⟩, rfl, rfl⟩
    obtain ⟨f, hf, hcallees⟩ := (hget _ callees).mp hi
    have hlt : names.idxOf g < names.length := idxOf_lt_length_iff.mpr ((hmem g).mpr hfunc)
    refine ⟨f, g, hf, ?_, (mem_calleesOf hcallees g).mp hg, hfunc⟩
    rw [List.getElem?_eq_getElem hlt, getElem_idxOf]
  · rintro ⟨f, g, hf, hg, hcall, hfunc⟩
    have hlt : i < calls.length := by grind [except_mapM_length]
    obtain ⟨f', hf', hcallees⟩ := (hget i _).mp (List.getElem?_eq_getElem hlt)
    obtain rfl := Option.some.inj (hf.symm.trans hf')
    obtain ⟨hj, rfl⟩ := List.getElem?_eq_some_iff.mp hg
    exact ⟨_, i, List.getElem?_eq_getElem hlt, _, ⟨(mem_calleesOf hcallees _).mpr hcall, hfunc⟩, rfl,
      hnodup.idxOf_getElem j hj⟩

theorem callEdges_chain (hnodup : names.Nodup) {i j : Nat} :
    Relation.TransGen (Kahn.Edge edges) i j ↔
      ∃ f g, names[i]? = some f ∧ names[j]? = some g ∧
        Relation.TransGen (CallsFunction functions) f g := by
  have hiff := callEdges_iff hedges hmem hnodup
  constructor
  · intro h
    induction h with
    | single h => grind
    | tail _ h ih => grind
  · rintro ⟨f, g, hf, hg, hchain⟩
    induction hchain generalizing j with
    | single hcall => exact .single ((hiff _ _).mpr ⟨_, _, hf, hg, hcall⟩)
    | @tail k g _ hcall ih =>
      -- What calls a function is a function, so it has a position.
      have hk : k ∈ functions := by
        obtain ⟨func, hfunc, -⟩ := hcall.1
        exact Finmap.mem_iff.mpr ⟨func, hfunc⟩
      obtain ⟨m, hm⟩ := mem_iff_getElem?.mp ((hmem k).mpr hk)
      exact (ih hm).tail ((hiff _ _).mpr ⟨_, _, hm, hg, hcall⟩)

end Accepts

/-- A table is accepted exactly if no function reaches itself by calls, a variable with the name of a
function being a call of it. -/
theorem checkDag_ok_iff {functions : FunctionTable} (hordered : functions.Ordered) {names : List Symbol}
    (hnodup : names.Nodup) (hmem : ∀ f, f ∈ names ↔ f ∈ functions) :
    checkDag functions names = .ok () ↔ ∀ f, ¬Relation.TransGen (CallsFunction functions) f f := by
  obtain ⟨edges, hedges⟩ := callEdges_total hordered names
  have hlt : ∀ i j, Kahn.Edge edges i j → i < names.length ∧ j < names.length := by
    intro i j h
    obtain ⟨f, g, hf, hg, -⟩ := (callEdges_iff hedges hmem hnodup i j).mp h
    exact ⟨(List.getElem?_eq_some_iff.mp hf).1, (List.getElem?_eq_some_iff.mp hg).1⟩
  have hok : checkDag functions names = .ok () ↔
      (Kahn.order names.length edges).length = names.length := by
    unfold checkDag
    rw [hedges]
    by_cases hlen : (Kahn.order names.length edges).length = names.length
    · simp [hlen, bind, Except.bind, pure, Except.pure]
    · simp [hlen, bind, Except.bind, throw, throwThe, MonadExceptOf.throw]
  rw [hok, Kahn.order_length_iff hlt]
  constructor
  · intro hacyclic f hcycle
    have hf : f ∈ functions := by
      obtain ⟨g, -, hcall⟩ := Relation.TransGen.tail'_iff.mp hcycle
      exact hcall.2
    obtain ⟨i, hi⟩ := mem_iff_getElem?.mp ((hmem f).mpr hf)
    exact hacyclic i ((callEdges_chain hedges hmem hnodup).mpr ⟨f, f, hi, hi, hcycle⟩)
  · grind [callEdges_chain]

end Mizu
