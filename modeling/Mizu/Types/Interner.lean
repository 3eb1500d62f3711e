import Mathlib

/-!
# Symbols

A document's names are interned while it is parsed; afterwards the table is frozen and shared
between the window and the worker. `StringInterner` and `FrozenInterner` hold the same two fields,
so one structure models both.
-/

namespace Mizu

/-- A hash map: finite, with no order of its own. Code that iterates over one takes the order as a
parameter. -/
abbrev FxHashMap (κ : Type) (ν : Type) := Finmap fun _ : κ => ν

structure Symbol where
  id : Nat
  deriving DecidableEq, Repr

structure Interner where
  map : FxHashMap String Symbol
  vec : List String

namespace Interner

def new : Interner := ⟨∅, []⟩

/-- The symbol of `s`, a fresh one if `s` is new. -/
def getOrIntern (i : Interner) (s : String) : Symbol × Interner :=
  match i.map.lookup s with
  | some sym => (sym, i)
  | none =>
    let sym : Symbol := ⟨i.vec.length⟩
    (sym, { map := i.map.insert s sym, vec := i.vec ++ [s] })

def get (i : Interner) (s : String) : Option Symbol := i.map.lookup s

def resolve (i : Interner) (sym : Symbol) : Option String := i.vec[sym.id]?

/-- Interns every name of a list, in order. -/
def ofNames (names : List String) : Interner :=
  names.foldl (fun i s => (i.getOrIntern s).2) new

/-- `get` and `resolve` are inverse to each other. -/
structure WellFormed (i : Interner) : Prop where
  resolve_of_get : ∀ {s sym}, i.get s = some sym → i.resolve sym = some s
  get_of_resolve : ∀ {s sym}, i.resolve sym = some s → i.get s = some sym

/-- Every symbol of `i` has its name in `i'` too. -/
def Extends (i' i : Interner) : Prop := ∀ {sym s}, i.resolve sym = some s → i'.resolve sym = some s

theorem Extends.refl (i : Interner) : i.Extends i := fun h => h

theorem new_wellFormed : new.WellFormed where
  resolve_of_get h := by simp [get, new] at h
  get_of_resolve h := by simp [resolve, new] at h

theorem getOrIntern_wellFormed {i : Interner} (h : i.WellFormed) (s : String) :
    (i.getOrIntern s).2.WellFormed := by
  unfold getOrIntern
  cases hs : i.map.lookup s with
  | some sym => exact h
  | none =>
    constructor
    · intro t sym ht
      by_cases hts : t = s
      · subst hts
        simp only [get, Finmap.lookup_insert, Option.some.injEq] at ht
        simp [resolve, ← ht]
      · simp only [get, Finmap.lookup_insert_of_ne _ hts] at ht
        have hr : i.resolve sym = some t := h.resolve_of_get ht
        simp only [resolve] at hr ⊢
        have hlt := (List.getElem?_eq_some_iff.mp hr).1
        rwa [List.getElem?_append_left hlt]
    · intro t sym ht
      simp only [resolve, get] at ht ⊢
      by_cases hlt : sym.id < i.vec.length
      · rw [List.getElem?_append_left hlt] at ht
        have hg : i.map.lookup t = some sym := h.get_of_resolve ht
        have hts : t ≠ s := fun he => by simp [he ▸ hg] at hs
        rwa [Finmap.lookup_insert_of_ne _ hts]
      · rw [List.getElem?_append_right (by omega)] at ht
        have hid : sym.id - i.vec.length = 0 := by
          have := (List.getElem?_eq_some_iff.mp ht).1
          simp only [List.length_singleton] at this
          omega
        simp only [hid, List.getElem?_cons_zero, Option.some.injEq] at ht
        have he : sym = ⟨i.vec.length⟩ := by
          cases sym
          simp only [Symbol.mk.injEq] at *
          omega
        rw [← ht, he, Finmap.lookup_insert]

theorem ofNames_wellFormed (names : List String) : (ofNames names).WellFormed := by
  unfold ofNames
  generalize hi : new = i
  have h : i.WellFormed := hi ▸ new_wellFormed
  clear hi
  induction names generalizing i with
  | nil => exact h
  | cons s names ih => exact ih _ (getOrIntern_wellFormed h s)

/-- In a well formed table, distinct names have distinct symbols. -/
theorem WellFormed.get_inj {i : Interner} (h : i.WellFormed) {s t : String} {sym : Symbol}
    (hs : i.get s = some sym) (ht : i.get t = some sym) : s = t :=
  Option.some.inj ((h.resolve_of_get hs).symm.trans (h.resolve_of_get ht))

/-- A name of a larger table is one of the smaller, or its symbol is new. -/
theorem WellFormed.get_of_extends {i i' : Interner} (h : i.WellFormed) (h' : i'.WellFormed) (hext : i'.Extends i)
    {s : String} {sym : Symbol} (hget : i'.get s = some sym) : i.get s = some sym ∨ i.resolve sym = none := by
  cases hresolve : i.resolve sym with
  | none => exact .inr rfl
  | some t =>
    have hname := h'.resolve_of_get hget
    rw [hext hresolve] at hname
    cases hname
    exact .inl (h.get_of_resolve hresolve)

end Interner

end Mizu
