import Mizu.Messages

/-!
# The evaluator's state

`Locals` is the stack of local bindings with the index that finds the innermost one; the index is
always the list of positions of each symbol, so it is carried as a fact. `Evaluator` is the whole
state, with one lemma for each operation that says what the operation leaves alone.
-/

namespace Mizu

open List

/-- The positions of `sym` in `symbols`, in increasing order. -/
def positions (sym : Symbol) : List Symbol → Nat → List Nat
  | [], _ => []
  | s :: ss, i => if s = sym then i :: positions sym ss (i + 1) else positions sym ss (i + 1)

theorem positions_append (sym : Symbol) (ss ts : List Symbol) (i : Nat) :
    positions sym (ss ++ ts) i = positions sym ss i ++ positions sym ts (i + ss.length) := by
  induction ss generalizing i with
  | nil => simp [positions]
  | cons s ss ih =>
    have hlen : i + (s :: ss).length = i + 1 + ss.length := by simp only [length_cons]; omega
    by_cases hs : s = sym
    · simp only [cons_append, positions, hs, if_true, ih, ← hlen]
    · simp only [cons_append, positions, hs, if_false, ih, ← hlen]

/-- The stack of local bindings: values and names side by side, the innermost last. -/
structure Locals where
  stack : List Value
  symbols : List Symbol
  index : Symbol → List Nat
  length_eq : stack.length = symbols.length
  index_eq : ∀ sym, index sym = positions sym symbols 0

namespace Locals

def empty : Locals := ⟨[], [], fun _ => [], rfl, fun _ => rfl⟩

variable {a b : Locals}

/-- The index is determined by the names. -/
theorem ext (hv : a.stack = b.stack) (hs : a.symbols = b.symbols) : a = b := by
  have hi : a.index = b.index := by
    funext sym
    rw [a.index_eq, b.index_eq, hs]
  cases a
  cases b
  simp only at hv hs hi
  subst hv hs hi
  rfl

/-- `push_local`. -/
def push (l : Locals) (sym : Symbol) (v : Value) : Locals where
  stack := l.stack ++ [v]
  symbols := l.symbols ++ [sym]
  index := Function.update l.index sym (l.index sym ++ [l.stack.length])
  length_eq := by simp [l.length_eq]
  index_eq s := by
    rw [positions_append, ← l.index_eq, Nat.zero_add, l.length_eq]
    by_cases hs : s = sym
    · subst hs
      simp [positions]
    · simp [positions, hs, Ne.symm hs]

/-- `pop_local`: the entry of the last name leaves the index with it. -/
def pop (l : Locals) : Locals :=
  match hl : l.symbols.getLast? with
  | none => l
  | some sym =>
    { stack := l.stack.dropLast
      symbols := l.symbols.dropLast
      index := Function.update l.index sym (l.index sym).dropLast
      length_eq := by simp [l.length_eq]
      index_eq := fun s => by
        have happ : l.symbols = l.symbols.dropLast ++ [sym] := by
          obtain ⟨ss, hss⟩ := List.getLast?_eq_some_iff.mp hl
          simp [hss]
        have hpos := positions_append s l.symbols.dropLast [sym] 0
        rw [← happ, ← l.index_eq] at hpos
        by_cases hs : s = sym
        · subst hs
          simp [hpos, positions]
        · simpa [positions, hs, Ne.symm hs] using hpos }

/-- `truncate_locals`: the source unindexes from the top and then cuts both vectors, which is what
popping does. -/
def truncate (l : Locals) (newLen : Nat) : Locals := pop^[l.symbols.length - newLen] l

/-- `get_local`: the innermost binding, if it belongs to the current frame. -/
def get (l : Locals) (sym : Symbol) (framePointer : Nat) : Option Value :=
  match (l.index sym).getLast? with
  | some idx => if framePointer ≤ idx then l.stack[idx]? else none
  | none => none

variable (l : Locals)

@[simp] theorem push_stack (sym : Symbol) (v : Value) : (l.push sym v).stack = l.stack ++ [v] := rfl

@[simp] theorem push_symbols (sym : Symbol) (v : Value) : (l.push sym v).symbols = l.symbols ++ [sym] := rfl

@[simp] theorem pop_stack : l.pop.stack = l.stack.dropLast := by
  unfold pop
  split
  · rename_i h
    have hnil : l.stack = [] := by
      apply eq_nil_of_length_eq_zero
      simpa [List.getLast?_eq_none_iff.mp h] using l.length_eq
    simp [hnil]
  · rfl

@[simp] theorem pop_symbols : l.pop.symbols = l.symbols.dropLast := by
  unfold pop
  split
  · rename_i h
    simp [List.getLast?_eq_none_iff.mp h]
  · rfl

@[simp] theorem pop_push (sym : Symbol) (v : Value) : (l.push sym v).pop = l :=
  ext (by simp) (by simp)

theorem iterate_pop (n : Nat) : (pop^[n] l).stack = l.stack.take (l.stack.length - n) ∧
      (pop^[n] l).symbols = l.symbols.take (l.symbols.length - n) := by
  induction n with
  | zero => simp
  | succ n ih =>
    rw [Function.iterate_succ_apply', pop_stack, pop_symbols, ih.1, ih.2]
    simp only [dropLast_eq_take, length_take, take_take]
    constructor <;> congr 1 <;> omega

theorem truncate_stack (n : Nat) : (l.truncate n).stack = l.stack.take n := by
  rw [truncate, (iterate_pop l _).1, ← l.length_eq]
  rcases Nat.le_total n l.stack.length with h | h
  · congr 1; omega
  · rw [take_of_length_le h, take_of_length_le (by omega)]

theorem truncate_symbols (n : Nat) : (l.truncate n).symbols = l.symbols.take n := by
  rw [truncate, (iterate_pop l _).2]
  rcases Nat.le_total n l.symbols.length with h | h
  · congr 1; omega
  · rw [take_of_length_le h, take_of_length_le (by omega)]

/-- `b` holds the bindings of `a`, and maybe more above them. -/
def Below (a b : Locals) : Prop := a.stack <+: b.stack ∧ a.symbols <+: b.symbols

theorem Below.refl (a : Locals) : a.Below a := ⟨prefix_refl _, prefix_refl _⟩

theorem Below.trans {a b c : Locals} (h : a.Below b) (h' : b.Below c) : a.Below c :=
  ⟨h.1.trans h'.1, h.2.trans h'.2⟩

theorem below_push (sym : Symbol) (v : Value) : l.Below (l.push sym v) :=
  ⟨prefix_append _ _, prefix_append _ _⟩

theorem Below.length_le (h : a.Below b) : a.stack.length ≤ b.stack.length :=
  h.1.length_le

/-- Cutting back to where `a` ended gives `a` back. -/
theorem Below.truncate_eq (h : a.Below b) : b.truncate a.stack.length = a := by
  apply ext
  · rw [truncate_stack]
    exact (prefix_iff_eq_take.mp h.1).symm
  · rw [truncate_symbols, a.length_eq]
    exact (prefix_iff_eq_take.mp h.2).symm

theorem Below.eq_of_length (h : a.Below b) (hl : b.stack.length ≤ a.stack.length) : b = a := by
  apply ext
  · exact (h.1.eq_of_length_le hl).symm
  · exact (h.2.eq_of_length_le (by rw [← a.length_eq, ← b.length_eq]; exact hl)).symm

/-- Popping once from above a pushed binding leaves at least what was below it. -/
theorem Below.pop_of_push {sym : Symbol} {v : Value} (h : (a.push sym v).Below b) : a.Below b.pop := by
  obtain ⟨⟨vs, hv⟩, ⟨ss, hs⟩⟩ := h
  constructor
  · grind [pop_stack, push_stack]
  · grind [pop_symbols, push_symbols]

/-- A pushed binding is the one its name reads, in every frame that it belongs to. -/
theorem get_push_self (sym : Symbol) (v : Value) {fp : Nat} (h : fp ≤ l.stack.length) :
    (l.push sym v).get sym fp = some v := by
  have hidx : (l.push sym v).index sym = l.index sym ++ [l.stack.length] := by simp [push]
  have hlast : ((l.push sym v).index sym).getLast? = some l.stack.length := by simp [hidx]
  simp only [get, hlast, h, if_true, push_stack, List.getElem?_concat_length]

theorem mem_positions {sym : Symbol} {ss : List Symbol} {i j : Nat} (h : j ∈ positions sym ss i) :
    j < i + ss.length := by
  induction ss generalizing i with
  | nil => simp [positions] at h
  | cons s ss ih =>
    simp only [positions] at h
    split at h
    · rcases mem_cons.mp h with rfl | h
      · simp
      · have := ih h
        simp only [length_cons]
        omega
    · have := ih h
      simp only [length_cons]
      omega

/-- Every other name reads as before. -/
theorem get_push_of_ne {sym sym' : Symbol} (v : Value) (fp : Nat) (h : sym' ≠ sym) :
    (l.push sym v).get sym' fp = l.get sym' fp := by
  have hidx : (l.push sym v).index sym' = l.index sym' := by simp [push, h]
  unfold get
  rw [hidx]
  split
  · rename_i idx hlast
    have hmem : idx ∈ positions sym' l.symbols 0 := by grind [l.index_eq]
    have hlt : idx < l.stack.length := by
      have := mem_positions hmem
      rw [l.length_eq]
      omega
    rw [push_stack, List.getElem?_append_left hlt]
  · rfl

end Locals

/-! ## The state -/

def maxEvalDepth : Nat := 256

structure Evaluator where
  globalStore : FxHashMap Symbol Value
  locals : Locals
  instructionCount : Nat
  maxInstructions : Nat
  evalDepth : Nat
  accumulatedActions : List RuntimeAction
  /-- The values overwritten since the event began, oldest first. -/
  undoLog : List (Symbol × Value)
  computedVarSyms : Finset Symbol

abbrev EvalM := EStateM MizuError Evaluator

namespace Evaluator

def new (maxInstructions : Nat) : Evaluator where
  globalStore := ∅
  locals := .empty
  instructionCount := 0
  maxInstructions
  evalDepth := 0
  accumulatedActions := []
  undoLog := []
  computedVarSyms := ∅

def pushLocal (s : Evaluator) (sym : Symbol) (v : Value) : Evaluator :=
  { s with locals := s.locals.push sym v }

def popLocal (s : Evaluator) : Evaluator := { s with locals := s.locals.pop }

def truncateLocals (s : Evaluator) (newLen : Nat) : Evaluator :=
  { s with locals := s.locals.truncate newLen }

def getGlobal (s : Evaluator) (sym : Symbol) : Value := (s.globalStore.lookup sym).getD .null

def setGlobal (s : Evaluator) (sym : Symbol) (v : Value) : Evaluator :=
  { s with globalStore := s.globalStore.insert sym v
           undoLog := s.undoLog ++ [(sym, s.getGlobal sym)] }

def getLocal (s : Evaluator) (sym : Symbol) (framePointer : Nat) : Option Value :=
  s.locals.get sym framePointer

/-- Queues an action. -/
def act (s : Evaluator) (a : RuntimeAction) : Evaluator :=
  { s with accumulatedActions := s.accumulatedActions ++ [a] }

end Evaluator

end Mizu
