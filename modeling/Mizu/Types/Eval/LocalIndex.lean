import Mizu.Types.Eval.State

/-!
# The index of the local bindings

`LocalStack` is what the source keeps: two vectors side by side and a map from each name to its positions.
Nothing but the operations holds the three together. `Locals` is what they stand for.

* `LocalStack.Represents`: the vectors are those of the locals, and the map has the positions of every name
  that is bound and no other entry. Each operation keeps it.
* `local_index_exact`: after any moves of the evaluator the map is exact, and a name is read from its innermost
  binding in the current frame.
-/

namespace Mizu

open List

structure LocalStack where
  localStack : List Value
  localSymbols : List Symbol
  localIndex : FxHashMap Symbol (List Nat)

namespace LocalStack

def new : LocalStack := ⟨[], [], ∅⟩

/-- `push_local`. -/
def pushLocal (s : LocalStack) (sym : Symbol) (v : Value) : LocalStack where
  localStack := s.localStack ++ [v]
  localSymbols := s.localSymbols ++ [sym]
  localIndex := s.localIndex.insert sym ((s.localIndex.lookup sym).getD [] ++ [s.localStack.length])

/-- Takes the last position of a name out of the map; a list that is empty then goes with it. -/
def unindex (index : FxHashMap Symbol (List Nat)) (sym : Symbol) : FxHashMap Symbol (List Nat) :=
  match index.lookup sym with
  | none => index
  | some v => if v.dropLast = [] then index.erase sym else index.insert sym v.dropLast

/-- `pop_local`. -/
def popLocal (s : LocalStack) : LocalStack :=
  match s.localSymbols.getLast? with
  | none => s
  | some sym =>
    { localStack := s.localStack.dropLast
      localSymbols := s.localSymbols.dropLast
      localIndex := unindex s.localIndex sym }

/-- `truncate_locals`: the loop goes down the names that are cut, and both vectors are cut after it. -/
def truncateLocals (s : LocalStack) (newLen : Nat) : LocalStack where
  localStack := s.localStack.take newLen
  localSymbols := s.localSymbols.take newLen
  localIndex := (s.localSymbols.drop newLen).reverse.foldl unindex s.localIndex

/-- `get_local`; nothing at all is a position beyond the end of the vector. -/
def getLocal (s : LocalStack) (sym : Symbol) (framePointer : Nat) : Option (Option Value) :=
  match (s.localIndex.lookup sym).bind List.getLast? with
  | some idx => if framePointer ≤ idx then (s.localStack[idx]?).map some else some none
  | none => some none

/-! ## What the map stands for -/

/-- The entry of a name with these positions. -/
def entry (positions : List Nat) : Option (List Nat) := if positions = [] then none else some positions

@[simp] theorem getD_entry (positions : List Nat) : (entry positions).getD [] = positions := by
  grind [entry]

theorem entry_ne_nil (positions : List Nat) : entry positions ≠ some [] := by
  simp [entry]

theorem getLast?_entry (positions : List Nat) : (entry positions).bind List.getLast? = positions.getLast? := by
  grind [entry]

/-- The two vectors are those of the locals, and so is the map. -/
structure Represents (s : LocalStack) (l : Locals) : Prop where
  stack : s.localStack = l.stack
  symbols : s.localSymbols = l.symbols
  index : ∀ sym, s.localIndex.lookup sym = entry (l.index sym)

theorem new_represents : Represents new .empty := ⟨rfl, rfl, fun _ => rfl⟩

variable {s : LocalStack} {l : Locals}

theorem pushLocal_represents (h : Represents s l) (sym : Symbol) (v : Value) :
    Represents (s.pushLocal sym v) (l.push sym v) where
  stack := by rw [pushLocal, h.stack, Locals.push_stack]
  symbols := by rw [pushLocal, h.symbols, Locals.push_symbols]
  index sym' := by
    simp only [pushLocal, Locals.push]
    by_cases hsym : sym' = sym
    · subst hsym
      rw [Finmap.lookup_insert, Function.update_self, h.index, getD_entry, h.stack]
      simp [entry]
    · rw [Finmap.lookup_insert_of_ne _ hsym, Function.update_of_ne hsym, h.index]

/-- Without its last position, a name has those that are left when the innermost binding goes. -/
theorem unindex_represents {index : FxHashMap Symbol (List Nat)} {sym : Symbol}
    (h : ∀ sym, index.lookup sym = entry (l.index sym)) (hlast : l.symbols.getLast? = some sym) (sym' : Symbol) :
    (unindex index sym).lookup sym' = entry (l.pop.index sym') := by
  have hpop : l.pop.index = Function.update l.index sym (l.index sym).dropLast := by grind [Locals.pop]
  rw [hpop, unindex, h sym]
  by_cases hsym : sym' = sym
  · subst hsym
    rw [Function.update_self]
    by_cases hnil : l.index sym' = []
    · simp [entry, hnil, h sym']
    · by_cases hone : (l.index sym').dropLast = []
      · simp [entry, hnil, hone]
      · simp [entry, hnil, hone]
  · grind [Finmap.lookup_erase_ne, Finmap.lookup_insert_of_ne]

theorem popLocal_represents (h : Represents s l) : Represents s.popLocal l.pop := by
  unfold popLocal
  rw [h.symbols]
  split
  · rename_i hnone
    have hpop : l.pop = l := by
      apply Locals.ext
      · rw [Locals.pop_stack, eq_nil_of_length_eq_zero (l := l.stack), dropLast_nil]
        rw [l.length_eq, List.getLast?_eq_none_iff.mp hnone, length_nil]
      · rw [Locals.pop_symbols, List.getLast?_eq_none_iff.mp hnone, dropLast_nil]
    rw [hpop]
    exact h
  · rename_i sym hlast
    exact ⟨by rw [h.stack, Locals.pop_stack], by rw [Locals.pop_symbols], unindex_represents h.index hlast⟩

/-- The loop of a truncation takes the names of `n` bindings out of the map, the innermost first. -/
theorem unindexAll_represents (n : Nat) {index : FxHashMap Symbol (List Nat)}
    (h : ∀ sym, index.lookup sym = entry (l.index sym)) (hn : n ≤ l.symbols.length) (sym : Symbol) :
    ((l.symbols.drop (l.symbols.length - n)).reverse.foldl unindex index).lookup sym =
      entry ((Locals.pop^[n] l).index sym) := by
  induction n generalizing l index with
  | zero => simpa using h sym
  | succ n ih =>
    have hne : l.symbols ≠ [] := by
      rintro hnil
      simp [hnil] at hn
    obtain ⟨symbols, last, hlast⟩ := (eq_nil_or_concat' l.symbols).resolve_left hne
    have hpop : l.pop.symbols = symbols := by rw [Locals.pop_symbols, hlast, dropLast_concat]
    have hdrop : l.symbols.drop (l.symbols.length - (n + 1)) =
        l.pop.symbols.drop (l.pop.symbols.length - n) ++ [last] := by
      rw [hpop, hlast, length_append, length_singleton, Nat.add_sub_add_right,
        drop_append_of_le_length (Nat.sub_le _ _)]
    rw [hdrop, reverse_append, reverse_singleton, singleton_append, foldl_cons,
      Function.iterate_succ_apply]
    refine ih (unindex_represents h (by rw [hlast, List.getLast?_concat])) ?_
    rw [hpop]
    simp only [hlast, length_append, length_singleton] at hn
    omega

theorem truncateLocals_represents (h : Represents s l) (newLen : Nat) :
    Represents (s.truncateLocals newLen) (l.truncate newLen) where
  stack := by rw [truncateLocals, h.stack, Locals.truncate_stack]
  symbols := by rw [truncateLocals, h.symbols, Locals.truncate_symbols]
  index sym := by
    have hloop := unindexAll_represents (l.symbols.length - newLen) h.index (Nat.sub_le _ _) sym
    rw [truncateLocals, Locals.truncate, ← hloop, h.symbols]
    rcases Nat.le_total newLen l.symbols.length with hle | hle
    · rw [Nat.sub_sub_self hle]
    · rw [drop_of_length_le hle, Nat.sub_eq_zero_of_le hle, Nat.sub_zero, drop_length]

/-! ## What is read -/

/-- A read of the map and the vector is one of the locals, and never beyond the end. -/
theorem getLocal_represents (h : Represents s l) (sym : Symbol) (framePointer : Nat) :
    s.getLocal sym framePointer = some (l.get sym framePointer) := by
  rw [getLocal, Locals.get, h.index, getLast?_entry, h.stack]
  cases hlast : (l.index sym).getLast? with
  | none => rfl
  | some idx =>
    have hmem : idx ∈ positions sym l.symbols 0 := by grind [l.index_eq]
    have hlt : idx < l.stack.length := by
      have := Locals.mem_positions hmem
      rw [l.length_eq]
      omega
    dsimp only
    split
    · rw [List.getElem?_eq_getElem hlt, Option.map_some]
    · rfl

theorem mem_positions_iff {sym : Symbol} {ss : List Symbol} {i j : Nat} :
    j ∈ positions sym ss i ↔ i ≤ j ∧ ss[j - i]? = some sym := by
  induction ss generalizing i with
  | nil => simp [positions]
  | cons s ss ih =>
    have htail : j ∈ positions sym ss (i + 1) ↔ i + 1 ≤ j ∧ (s :: ss)[j - i]? = some sym := by grind
    have hsplit : j = i ∨ i + 1 ≤ j ↔ i ≤ j := by omega
    rw [positions]
    split
    · grind
    · grind

theorem positions_pairwise (sym : Symbol) (ss : List Symbol) (i : Nat) :
    (positions sym ss i).Pairwise (· < ·) := by
  induction ss generalizing i with
  | nil => exact .nil
  | cons s ss ih =>
    rw [positions]
    split
    · exact .cons (fun j hj => (mem_positions_iff.mp hj).1) (ih (i + 1))
    · exact ih (i + 1)

/-- The map is that of the names: the increasing list of the positions of each, and no empty list. -/
structure IndexExact (s : LocalStack) : Prop where
  increasing : ∀ sym, ((s.localIndex.lookup sym).getD []).Pairwise (· < ·)
  mem_iff : ∀ sym i, i ∈ (s.localIndex.lookup sym).getD [] ↔ s.localSymbols[i]? = some sym
  no_empty : ∀ sym, s.localIndex.lookup sym ≠ some []
  parallel : s.localStack.length = s.localSymbols.length

theorem Represents.indexExact (h : Represents s l) : IndexExact s where
  increasing sym := by
    rw [h.index, getD_entry, l.index_eq]
    exact positions_pairwise sym l.symbols 0
  mem_iff sym i := by
    rw [h.index, getD_entry, l.index_eq, mem_positions_iff, h.symbols]
    simp
  no_empty sym := by
    rw [h.index]
    exact entry_ne_nil _
  parallel := by rw [h.stack, h.symbols, l.length_eq]

/-- The innermost binding of the name, at position `i` of the frame. -/
structure Innermost (s : LocalStack) (sym : Symbol) (framePointer i : Nat) (v : Value) : Prop where
  bound : s.localSymbols[i]? = some sym
  value : s.localStack[i]? = some v
  inFrame : framePointer ≤ i
  last : ∀ j, i < j → s.localSymbols[j]? ≠ some sym

/-- A name is read from its innermost binding, and not at all if the frame has none. -/
theorem IndexExact.getLocal (h : IndexExact s) (sym : Symbol) (framePointer : Nat) :
    (∃ i v, Innermost s sym framePointer i v ∧ s.getLocal sym framePointer = some (some v)) ∨
      (∀ i, framePointer ≤ i → s.localSymbols[i]? ≠ some sym) ∧ s.getLocal sym framePointer = some none := by
  have hmem := h.mem_iff sym
  have hincreasing := h.increasing sym
  have hread : (s.localIndex.lookup sym).bind List.getLast? = ((s.localIndex.lookup sym).getD []).getLast? := by
    cases s.localIndex.lookup sym <;> rfl
  rw [LocalStack.getLocal, hread]
  generalize (s.localIndex.lookup sym).getD [] = indices at hmem hincreasing
  obtain rfl | ⟨front, idx, rfl⟩ := eq_nil_or_concat' indices
  · exact .inr ⟨fun i _ hi => not_mem_nil ((hmem i).mpr hi), rfl⟩
  have hidx : s.localSymbols[idx]? = some sym := (hmem idx).mp (by simp)
  have hlast (j : Nat) (hj : s.localSymbols[j]? = some sym) : j ≤ idx := by grind
  rw [List.getLast?_concat]
  dsimp only
  by_cases hframe : framePointer ≤ idx
  · obtain ⟨hlt, -⟩ := List.getElem?_eq_some_iff.mp hidx
    rw [← h.parallel] at hlt
    refine .inl ⟨idx, s.localStack[idx], ⟨hidx, List.getElem?_eq_getElem hlt, hframe, ?_⟩, ?_⟩
    · exact fun j hj hbound => absurd (hlast j hbound) (by omega)
    · rw [if_pos hframe, List.getElem?_eq_getElem hlt, Option.map_some]
  · grind

end LocalStack

/-! ## Runs -/

/-- What the evaluator does with its locals. -/
inductive LocalMove where
  | push (sym : Symbol) (v : Value)
  | pop
  | truncate (newLen : Nat)
  /-- The evaluation goes on in another frame: that of a call, or of the caller again. -/
  | frame (framePointer : Nat)

/-- The locals, and the frame pointer that is passed down. -/
structure LocalFrames where
  locals : LocalStack
  framePointer : Nat

namespace LocalFrames

def start : LocalFrames := ⟨.new, 0⟩

def step (s : LocalFrames) : LocalMove → LocalFrames
  | .push sym v => { s with locals := s.locals.pushLocal sym v }
  | .pop => { s with locals := s.locals.popLocal }
  | .truncate newLen => { s with locals := s.locals.truncateLocals newLen }
  | .frame framePointer => { s with framePointer }

/-- What a variable reads in the current frame. -/
def read (s : LocalFrames) (sym : Symbol) : Option (Option Value) := s.locals.getLocal sym s.framePointer

/-- Each move of the vectors and the map is one of the locals. -/
theorem step_represents {s : LocalFrames} {l : Locals} (h : s.locals.Represents l) (m : LocalMove) :
    ∃ l', (s.step m).locals.Represents l' := by
  cases m with
  | push sym v => exact ⟨_, LocalStack.pushLocal_represents h sym v⟩
  | pop => exact ⟨_, LocalStack.popLocal_represents h⟩
  | truncate newLen => exact ⟨_, LocalStack.truncateLocals_represents h newLen⟩
  | frame framePointer => exact ⟨l, h⟩

theorem run_represents (moves : List LocalMove) : ∃ l, (moves.foldl step start).locals.Represents l := by
  induction moves using List.reverseRecOn with
  | nil => exact ⟨.empty, LocalStack.new_represents⟩
  | append_singleton moves m ih => grind [foldl_concat, step_represents]

end LocalFrames

/-- After any moves the map is exact, and a name is read from its innermost binding in the current frame; a
binding of an outer frame is never read. -/
theorem local_index_exact (moves : List LocalMove) :
    let s := moves.foldl LocalFrames.step .start
    s.locals.IndexExact ∧ ∀ sym,
      (∃ i v, s.locals.Innermost sym s.framePointer i v ∧ s.read sym = some (some v)) ∨
        (∀ i, s.framePointer ≤ i → s.locals.localSymbols[i]? ≠ some sym) ∧ s.read sym = some none := by
  intro s
  obtain ⟨l, hl⟩ := LocalFrames.run_represents moves
  exact ⟨hl.indexExact, fun sym => hl.indexExact.getLocal sym s.framePointer⟩

/-- `let x = 1`, then a call with the parameters `y` and `x` whose body reads `z` and `x`. -/
example :
    let s := [.push ⟨0⟩ (.int 1), .frame 1, .push ⟨1⟩ (.int 2), .push ⟨0⟩ (.int 3)].foldl LocalFrames.step .start
    (s.read ⟨0⟩, (s.step (.truncate 1)).read ⟨0⟩, ((s.step (.truncate 1)).step (.frame 0)).read ⟨0⟩) =
      (some (some (.int 3)), some none, some (some (.int 1))) := by
  rfl

end Mizu
