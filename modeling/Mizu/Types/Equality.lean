import Mizu.Types.Nesting
import Mizu.Types.Shape

/-!
# Structural equality

`Same files a b`: the values are equal, numbers by their value in either representation, records by their keys and
what is under them, and files as `files` says. `budgetEq_run`: a budgeted comparison that ends has decided `Same` with
files told apart by their allocation, and has not spent more than the smaller value's `size`.

Main result: `budgetEq_decides`.
-/

namespace Mizu

namespace Value

open Exec List

/-- A handle as equality sees it: its allocation and what it points to. -/
abbrev Handle := Nat × FileHandleData

section Same

variable (files : Handle → Handle → Prop)

mutual

/-- Structural equality up to the representation of numbers. -/
def Same : Value → Value → Prop
  | null, null => True
  | bool x, bool y => x = y
  | int x, int y => x.toInt * decimalScale = y.toInt * decimalScale
  | decimal x, decimal y => x.toInt = y.toInt
  | int x, decimal y => x.toInt * decimalScale = y.toInt
  | decimal x, int y => x.toInt = y.toInt * decimalScale
  | string x, string y => x = y
  | list xs, list ys => SameList xs ys
  | record xs, record ys => SameFields xs ys
  | fileHandle i x, fileHandle j y => files (i, x) (j, y)
  | _, _ => False

def SameList : List Value → List Value → Prop
  | [], [] => True
  | x :: xs, y :: ys => Same x y ∧ SameList xs ys
  | _, _ => False

/-- The same keys in the same order, with the same values. -/
def SameFields : List (RecordField Value) → List (RecordField Value) → Prop
  | [], [] => True
  | x :: xs, y :: ys => x.key = y.key ∧ Same x.value y.value ∧ SameFields xs ys
  | _, _ => False

end

/-- One handle, one file. -/
def sameHandle (x y : Handle) : Prop := x.1 = y.1

/-- Any two handles to files of one path and name. -/
def sameFile (x y : Handle) : Prop := x.2 = y.2

/-- Any two handles. -/
def anyFile (_ _ : Handle) : Prop := True

variable {files}

mutual

theorem Same.refl (hfiles : ∀ x, files x x) : ∀ a : Value, Same files a a
  | null | bool _ | int _ | decimal _ | string _ => by simp [Same]
  | fileHandle i x => hfiles (i, x)
  | list xs => SameList.refl hfiles xs
  | record xs => SameFields.refl hfiles xs

theorem SameList.refl (hfiles : ∀ x, files x x) : ∀ xs : List Value, SameList files xs xs
  | [] => trivial
  | x :: xs => ⟨Same.refl hfiles x, SameList.refl hfiles xs⟩

theorem SameFields.refl (hfiles : ∀ x, files x x) : ∀ xs : List (RecordField Value), SameFields files xs xs
  | [] => trivial
  | x :: xs => ⟨rfl, Same.refl hfiles x.value, SameFields.refl hfiles xs⟩

end

mutual

theorem Same.symm (hfiles : ∀ x y, files x y → files y x) {a b : Value} (h : Same files a b) : Same files b a := by
  match a, b with
  | null, null => trivial
  | bool _, bool _ | int _, int _ | decimal _, decimal _ | string _, string _ | int _, decimal _
  | decimal _, int _ => exact Eq.symm h
  | fileHandle .., fileHandle .. => exact hfiles _ _ h
  | list xs, list ys => exact SameList.symm hfiles h
  | record xs, record ys => exact SameFields.symm hfiles h

theorem SameList.symm (hfiles : ∀ x y, files x y → files y x) {xs ys : List Value}
    (h : SameList files xs ys) : SameList files ys xs := by
  match xs, ys with
  | [], [] => trivial
  | _ :: _, _ :: _ => exact ⟨Same.symm hfiles h.1, SameList.symm hfiles h.2⟩

theorem SameFields.symm (hfiles : ∀ x y, files x y → files y x) {xs ys : List (RecordField Value)}
    (h : SameFields files xs ys) : SameFields files ys xs := by
  match xs, ys with
  | [], [] => trivial
  | _ :: _, _ :: _ => exact ⟨h.1.symm, Same.symm hfiles h.2.1, SameFields.symm hfiles h.2.2⟩

end

mutual

theorem Same.trans (hfiles : ∀ x y z, files x y → files y z → files x z) {a b c : Value} (hab : Same files a b)
    (hbc : Same files b c) : Same files a c := by
  match a, b, c with
  | null, null, null => trivial
  | bool _, bool _, bool _ | string _, string _, string _ => exact Eq.trans hab hbc
  | int _, int _, int _ | int _, int _, decimal _ | int _, decimal _, int _ | int _, decimal _, decimal _
  | decimal _, int _, int _ | decimal _, int _, decimal _ | decimal _, decimal _, int _
  | decimal _, decimal _, decimal _ => exact Eq.trans hab hbc
  | fileHandle .., fileHandle .., fileHandle .. => exact hfiles _ _ _ hab hbc
  | list xs, list ys, list zs => exact SameList.trans hfiles hab hbc
  | record xs, record ys, record zs => exact SameFields.trans hfiles hab hbc
termination_by structural a

theorem SameList.trans (hfiles : ∀ x y z, files x y → files y z → files x z) {xs ys zs : List Value}
    (hab : SameList files xs ys) (hbc : SameList files ys zs) : SameList files xs zs := by
  match xs, ys, zs with
  | [], [], [] => trivial
  | _ :: _, _ :: _, _ :: _ => exact ⟨Same.trans hfiles hab.1 hbc.1, SameList.trans hfiles hab.2 hbc.2⟩
termination_by structural xs

theorem SameFields.trans (hfiles : ∀ x y z, files x y → files y z → files x z)
    {xs ys zs : List (RecordField Value)} (hab : SameFields files xs ys) (hbc : SameFields files ys zs) :
    SameFields files xs zs := by
  match xs, ys, zs with
  | [], [], [] => trivial
  | _ :: _, _ :: _, _ :: _ =>
    exact ⟨hab.1.trans hbc.1, Same.trans hfiles hab.2.1 hbc.2.1, SameFields.trans hfiles hab.2.2 hbc.2.2⟩
termination_by structural xs

end

section FileFree

variable {files' : Handle → Handle → Prop}

mutual

/-- Without files it does not matter how they are compared. -/
theorem Same.of_fileFree {a b : Value} (hfree : a.FileFree) (h : Same files a b) : Same files' a b := by
  match a, b with
  | null, null => trivial
  | bool _, bool _ | int _, int _ | decimal _, decimal _ | string _, string _ | int _, decimal _
  | decimal _, int _ => exact h
  | fileHandle .., fileHandle .. => exact hfree.elim
  | list xs, list ys => exact SameList.of_fileFree hfree h
  | record xs, record ys => exact SameFields.of_fileFree hfree h

theorem SameList.of_fileFree {xs ys : List Value} (hfree : FileFreeList xs) (h : SameList files xs ys) :
    SameList files' xs ys := by
  match xs, ys with
  | [], [] => trivial
  | _ :: _, _ :: _ => exact ⟨Same.of_fileFree hfree.1 h.1, SameList.of_fileFree hfree.2 h.2⟩

theorem SameFields.of_fileFree {xs ys : List (RecordField Value)} (hfree : FileFreeFields xs)
    (h : SameFields files xs ys) : SameFields files' xs ys := by
  match xs, ys with
  | [], [] => trivial
  | _ :: _, _ :: _ => exact ⟨h.1, Same.of_fileFree hfree.1 h.2.1, SameFields.of_fileFree hfree.2 h.2.2⟩

end

theorem same_iff_of_fileFree {a b : Value} (hfree : a.FileFree) : Same files a b ↔ Same files' a b :=
  ⟨Same.of_fileFree hfree, Same.of_fileFree hfree⟩

end FileFree

end Same

/-! ## One round -/

mutual

/-- The steps a comparison of the value can take: one for each node, one more for each element of a list or a record,
and one for each byte of text. -/
def size : Value → Nat
  | string s => 1 + s.utf8ByteSize
  | list items => 1 + items.length + sizeList items
  | record fields => 1 + fields.length + sizeFields fields
  | _ => 1

def sizeList : List Value → Nat
  | [] => 0
  | v :: vs => v.size + sizeList vs

def sizeFields : List (RecordField Value) → Nat
  | [] => 0
  | f :: fs => f.value.size + sizeFields fs

end

theorem size_pos (v : Value) : 0 < v.size := by
  cases v <;> simp only [size] <;> omega

theorem sizeFields_eq (fs : List (RecordField Value)) : sizeFields fs = sizeList (fs.map (·.value)) := by
  induction fs with
  | nil => rfl
  | cons f fs ih => rw [sizeFields, map_cons, sizeList, ih]

theorem sizeList_append (vs ws : List Value) : sizeList (vs ++ ws) = sizeList vs + sizeList ws := by
  induction vs with
  | nil => simp [sizeList]
  | cons v vs ih => simp only [cons_append, sizeList, ih, Nat.add_assoc]

theorem sizeList_reverse (vs : List Value) : sizeList vs.reverse = sizeList vs := by
  induction vs with
  | nil => rfl
  | cons v vs ih => simp only [reverse_cons, sizeList_append, sizeList, ih]; omega

/-- The sizes of the left sides of a work stack. -/
def leftSize (stack : List (Value × Value)) : Nat := sizeList (stack.map (·.1))

def rightSize (stack : List (Value × Value)) : Nat := sizeList (stack.map (·.2))

section Pairs

variable {files : Handle → Handle → Prop} {xs ys : List Value} {fs gs : List (RecordField Value)}

theorem sameList_iff (h : xs.length = ys.length) :
    SameList files xs ys ↔ ∀ p ∈ xs.zip ys, Same files p.1 p.2 := by
  induction xs generalizing ys with
  | nil =>
    cases ys with
    | nil => simp [SameList]
    | cons => cases h
  | cons x xs ih =>
    cases ys with
    | nil => cases h
    | cons y ys => simp [SameList, ih (Nat.succ.inj h)]

theorem length_of_sameList (h : SameList files xs ys) : xs.length = ys.length := by
  induction xs generalizing ys with
  | nil =>
    cases ys with
    | nil => rfl
    | cons => cases h
  | cons x xs ih =>
    cases ys with
    | nil => cases h
    | cons y ys => exact congrArg Nat.succ (ih h.2)

theorem length_of_sameFields (h : SameFields files fs gs) : fs.length = gs.length := by
  induction fs generalizing gs with
  | nil =>
    cases gs with
    | nil => rfl
    | cons => cases h
  | cons f fs ih =>
    cases gs with
    | nil => cases h
    | cons g gs => exact congrArg Nat.succ (ih h.2.2)

/-- Records are the same if their keys are and the lists of their values are. -/
theorem sameFields_iff : SameFields files fs gs ↔
    fs.map (·.key) = gs.map (·.key) ∧ SameList files (fs.map (·.value)) (gs.map (·.value)) := by
  induction fs generalizing gs with
  | nil => cases gs <;> simp [SameFields, SameList]
  | cons f fs ih =>
    cases gs with
    | nil => simp [SameFields]
    | cons g gs => grind [SameFields, List.cons.injEq, SameList]

theorem fieldPairs_eq : (fs.zip gs).map (fun (f, g) => (f.value, g.value)) =
    (fs.map (·.value)).zip (gs.map (·.value)) := by
  rw [zip_map]
  rfl

theorem wellFormed_zip (hxs : WellFormedList xs) (hys : WellFormedList ys) :
    ∀ p ∈ xs.zip ys, p.1.WellFormed ∧ p.2.WellFormed := by
  grind [of_mem_zip, wellFormedList_iff]

theorem wellFormedFields_map : WellFormedFields fs ↔ WellFormedList (fs.map (·.value)) := by
  rw [wellFormedFields_iff, wellFormedList_iff, forall_mem_map]

/-- In well-formed records the hashes follow the keys. -/
theorem keys_eq_of_zip (hfs : ∀ f ∈ fs, f.hash = hashField f.key) (hgs : ∀ g ∈ gs, g.hash = hashField g.key)
    (h : fs.length = gs.length) :
    ((fs.zip gs).any fun (f, g) => f.hash ≠ g.hash ∨ f.key ≠ g.key) = false ↔
      fs.map (·.key) = gs.map (·.key) := by
  induction fs generalizing gs with
  | nil =>
    cases gs with
    | nil => simp
    | cons => cases h
  | cons f fs ih =>
    cases gs with
    | nil => cases h
    | cons g gs =>
      rw [forall_mem_cons] at hfs hgs
      have htail := ih hfs.2 hgs.2 (Nat.succ.inj h)
      have hhead : (f.hash ≠ g.hash ∨ f.key ≠ g.key) ↔ f.key ≠ g.key := by
        rw [hfs.1, hgs.1]
        refine ⟨fun hne => hne.elim (fun hhash hkey => hhash (by rw [hkey])) id, .inr⟩
      simp only [zip_cons_cons, any_cons, Bool.or_eq_false_iff, htail, map_cons, List.cons.injEq,
        decide_eq_false_iff_not, hhead, not_not]

end Pairs

section Round

variable {arc : ArcEq} {max n : Nat} {a b : Value}

/-- What a round on `a` and `b`, begun at count `n`, has found when it ends at count `m`. -/
def Round (a b : Value) (n : Nat) : Option (List (Value × Value)) → Nat → Prop
  | none, m => ¬Same sameHandle a b ∧ m + 1 ≤ n + min a.size b.size
  | some pairs, m =>
    (Same sameHandle a b ↔ ∀ p ∈ pairs, Same sameHandle p.1 p.2) ∧
      (∀ p ∈ pairs, p.1.WellFormed ∧ p.2.WellFormed) ∧ stackCount pairs < a.nodeCount ∧
      m + 1 + leftSize pairs ≤ n + a.size ∧ m + 1 + rightSize pairs ≤ n + b.size

/-- A round that runs out of budget. -/
def OutOfBudget (max : Nat) (a b : Value) (n : Nat) (e : MizuError) (_ : Nat) : Prop :=
  e = .timeout ∧ max + 1 < n + min a.size b.size

theorem wp_chargeBudget {cost : Nat} {Q : Unit → Nat → Prop} {E : MizuError → Nat → Prop}
    (hq : ∀ m, m ≤ n + cost → Q ⟨⟩ m) (he : ∀ m, max < n + cost → E .timeout m) :
    wp (chargeBudget cost max) Q E n := by
  have hle : saturatingAdd n cost ≤ n + cost := Nat.min_le_left _ _
  simp only [chargeBudget, wp_bind, wp_modify, wp_get]
  split
  · exact he _ (by omega)
  · exact hq _ hle

theorem round_done (h : Same sameHandle a b) {m : Nat} (hm : m + 1 ≤ n + min a.size b.size) :
    Round a b n (some []) m := by
  have hleft : leftSize [] = 0 := rfl
  have hright : rightSize [] = 0 := rfl
  refine ⟨by simp [h], by simp, a.nodeCount_pos, ?_, ?_⟩ <;> omega

theorem round_decided {p : Prop} [Decidable p] (h : Same sameHandle a b ↔ p) {m : Nat}
    (hm : m + 1 ≤ n + min a.size b.size) : Round a b n (if p then some [] else none) m := by
  split
  · rename_i hp
    exact round_done (h.mpr hp) hm
  · rename_i hp
    exact ⟨fun hsame => hp (h.mp hsame), hm⟩

theorem min_size_pos (a b : Value) : 1 ≤ min a.size b.size := by
  have ha := a.size_pos
  have hb := b.size_pos
  omega

theorem budgetEqPair_round (ha : a.WellFormed) (hb : b.WellFormed) (n : Nat) :
    wp (budgetEqPair arc max a b) (Round a b n) (OutOfBudget max a b n) n := by
  have hone : n + 1 ≤ n + min a.size b.size := Nat.add_le_add_left (min_size_pos a b) n
  have hrefl : ∀ v, Same sameHandle v v := Same.refl fun _ => rfl
  unfold budgetEqPair
  split
  · exact (wp_pure _).mpr (round_done (by rw [Same]; trivial) hone)
  · exact (wp_pure _).mpr (round_decided (by rw [Same]) hone)
  · rename_i x y
    have hscaled : Same sameHandle (int x) (int y) ↔ x = y := by grind [Same, Int64.toInt_inj, decimalScale]
    exact (wp_pure _).mpr (round_decided hscaled hone)
  · exact (wp_pure _).mpr (round_decided (by rw [Same, Int64.toInt_inj]) hone)
  · exact (wp_pure _).mpr (round_decided (by rw [Same]) hone)
  · exact (wp_pure _).mpr (round_decided (by rw [Same, eq_comm]) hone)
  · rename_i x y
    have hsize : min (string x).size (string y).size = 1 + min x.utf8ByteSize y.utf8ByteSize := by
      simp only [size]
      omega
    split
    · rename_i hsame
      exact (wp_pure _).mpr (round_done (arc.eq_of_same hsame ▸ hrefl _) hone)
    · rw [wp_bind]
      refine wp_chargeBudget (fun m hm => ?_) fun m hm => ⟨rfl, by omega⟩
      exact (wp_pure _).mpr (round_decided (by rw [Same]) (by omega))
  · exact (wp_pure _).mpr (round_decided (by rw [Same, sameHandle]) hone)
  · rename_i xs ys
    have hxs : (list xs).size = 1 + xs.length + sizeList xs := rfl
    have hys : (list ys).size = 1 + ys.length + sizeList ys := rfl
    split
    · rename_i hsame
      exact (wp_pure _).mpr (round_done (arc.eq_of_same hsame ▸ hrefl _) hone)
    split
    · rename_i hlen
      exact (wp_pure _).mpr ⟨fun hsame => hlen (length_of_sameList hsame), hone⟩
    rename_i hlen
    have hlen := not_not.mp hlen
    rw [wp_bind]
    refine wp_chargeBudget (fun m hm => (wp_pure _).mpr ⟨sameList_iff hlen, ?_, ?_, ?_, ?_⟩) fun m hm => ⟨rfl, by omega⟩
    · exact wellFormed_zip ha hb
    · have hcount := stackCount_zip_le xs ys
      simp only [nodeCount]
      omega
    · rw [leftSize, map_fst_zip (Nat.le_of_eq hlen)]
      omega
    · rw [rightSize, map_snd_zip (Nat.le_of_eq hlen.symm)]
      omega
  · rename_i xs ys
    have hxs : (record xs).size = 1 + xs.length + sizeFields xs := rfl
    have hys : (record ys).size = 1 + ys.length + sizeFields ys := rfl
    split
    · rename_i hsame
      exact (wp_pure _).mpr (round_done (arc.eq_of_same hsame ▸ hrefl _) hone)
    split
    · rename_i hlen
      exact (wp_pure _).mpr ⟨fun hsame => hlen (length_of_sameFields hsame), hone⟩
    rename_i hlen
    have hlen := not_not.mp hlen
    rw [wp_bind]
    refine wp_chargeBudget (fun m hm => ?_) fun m hm => ⟨rfl, by omega⟩
    have hkeys := keys_eq_of_zip ha.2.1 hb.2.1 hlen
    have hvalues : (xs.map (·.value)).length = (ys.map (·.value)).length := by simp [hlen]
    dsimp only
    split
    · rename_i hany
      rw [hany] at hkeys
      refine (wp_pure _).mpr ⟨fun hsame => ?_, by omega⟩
      exact Bool.noConfusion (hkeys.mpr (sameFields_iff.mp hsame).1)
    · rename_i hany
      have hsame := hkeys.mp (Bool.not_eq_true _ ▸ hany)
      refine (wp_pure _).mpr ⟨?_, ?_, ?_, ?_, ?_⟩
      · grind [Same, sameFields_iff, fieldPairs_eq, sameList_iff]
      · rw [fieldPairs_eq]
        exact wellFormed_zip (wellFormedFields_map.mp ha.2.2) (wellFormedFields_map.mp hb.2.2)
      · grind [nodeCount, Nat.lt_of_le_of_lt, stackCount_fields_le]
      · grind [leftSize, fieldPairs_eq, map_fst_zip, sizeFields_eq]
      · grind [rightSize, fieldPairs_eq, map_snd_zip, sizeFields_eq]
  · refine (wp_pure _).mpr ⟨fun hsame => ?_, hone⟩
    cases a <;> cases b <;> first | exact hsame | grind

end Round

/-! ## The loop -/

/-- The loop decides whether every pair of the stack is the same, and its cost is paid by either side of the stack. -/
theorem budgetEqLoop_run {arc : ArcEq} {max : Nat} (fuel : Nat) {stack : List (Value × Value)} {n : Nat}
    (hfuel : stackCount stack ≤ fuel) (hstack : ∀ p ∈ stack, p.1.WellFormed ∧ p.2.WellFormed) :
    wp (budgetEqLoop arc max fuel stack)
      (fun verdict m => (verdict = true ↔ ∀ p ∈ stack, Same sameHandle p.1 p.2) ∧
        m ≤ n + leftSize stack ∧ m ≤ n + rightSize stack)
      (fun e _ => e = .timeout ∧ max < n + leftSize stack ∧ max < n + rightSize stack) n := by
  induction fuel generalizing stack n with
  | zero =>
    cases stack with
    | nil => exact (wp_pure _).mpr ⟨by simp, by omega, by omega⟩
    | cons p stack => grind [stackCount, p.1.nodeCount_pos]
  | succ fuel ih =>
    cases stack with
    | nil => exact (wp_pure _).mpr ⟨by simp, by omega, by omega⟩
    | cons p stack =>
      obtain ⟨a, b⟩ := p
      rw [forall_mem_cons] at hstack
      obtain ⟨hhead, hstack⟩ := hstack
      have ha : a.WellFormed := hhead.1
      have hb : b.WellFormed := hhead.2
      have hleft : leftSize ((a, b) :: stack) = a.size + leftSize stack := rfl
      have hright : rightSize ((a, b) :: stack) = b.size + rightSize stack := rfl
      have hsize := min_size_pos a b
      unfold budgetEqLoop
      rw [wp_bind]
      refine wp_chargeBudget (fun m hm => ?_) fun m hm => ⟨rfl, by omega, by omega⟩
      rw [wp_bind]
      refine (budgetEqPair_round ha hb m).mono (fun out k hround => ?_) ?_
      · cases out with
        | none =>
          obtain ⟨hdiffer, hk⟩ := hround
          refine (wp_pure _).mpr ⟨?_, by omega, by omega⟩
          simp [hdiffer]
        | some pairs =>
          obtain ⟨hsame, hpairs, hcount, hkleft, hkright⟩ := hround
          have hrest : stackCount (pairs.reverse ++ stack) ≤ fuel := by
            grind [stackCount_reverse, stackCount]
          have hrestLeft : leftSize (pairs.reverse ++ stack) = leftSize pairs + leftSize stack := by
            simp only [leftSize, map_append, map_reverse, sizeList_append, sizeList_reverse]
          have hrestRight : rightSize (pairs.reverse ++ stack) = rightSize pairs + rightSize stack := by
            simp only [rightSize, map_append, map_reverse, sizeList_append, sizeList_reverse]
          have hall : ∀ q ∈ pairs.reverse ++ stack, q.1.WellFormed ∧ q.2.WellFormed := by grind
          refine (ih hrest hall).mono (fun verdict j hj => ?_) fun e j hj => ⟨hj.1, by omega, by omega⟩
          refine ⟨?_, by omega, by omega⟩
          rw [hj.1, forall_mem_cons, hsame]
          simp only [mem_append, mem_reverse, or_imp, forall_and]
      · exact fun e k hout => ⟨hout.1, by have := hout.2; omega, by have := hout.2; omega⟩

/-- A budgeted comparison decides structural equality with files told apart by their allocation; it adds at most the
size of the smaller value to the count, and times out only if that is more than what is left. -/
theorem budgetEq_run (arc : ArcEq) {a b : Value} (ha : a.WellFormed) (hb : b.WellFormed) (max n : Nat) :
    wp (budgetEq arc a b max)
      (fun verdict m => (verdict = true ↔ Same sameHandle a b) ∧ m ≤ n + min a.size b.size)
      (fun e _ => e = .timeout ∧ max < n + min a.size b.size) n := by
  have hleft : leftSize [(a, b)] = a.size := rfl
  have hright : rightSize [(a, b)] = b.size := rfl
  refine (budgetEqLoop_run a.nodeCount (by simp [stackCount]) (by simp [ha, hb])).mono
    (fun verdict m h => ⟨?_, by omega⟩) fun e m h => ⟨h.1, by omega⟩
  rw [h.1]
  simp

theorem verdict_iff {arc : ArcEq} {a b : Value} (ha : a.WellFormed) (hb : b.WellFormed) {max n m : Nat}
    {verdict : Bool} (h : budgetEq arc a b max n = .ok verdict m) : verdict = true ↔ Same sameHandle a b :=
  (wp_of_ok (budgetEq_run arc ha hb max n) h).1

end Value

open Value Exec in
/-- What `budget_eq` decides, at what cost, and that its verdicts are those of an equivalence. -/
theorem budgetEq_decides (arc : ArcEq) :
    (∀ a b : Value, a.WellFormed → b.WellFormed → ∀ max n,
      match budgetEq arc a b max n with
      | .ok verdict m => (verdict = true ↔ Same sameHandle a b) ∧ m ≤ n + min a.size b.size
      | .error e _ => e = .timeout ∧ max < n + min a.size b.size) ∧
    (∀ a b : Value, a.WellFormed → b.WellFormed → ∀ max n max' n' verdict verdict' m m',
      budgetEq arc a b max n = .ok verdict m → budgetEq arc b a max' n' = .ok verdict' m' → verdict = verdict') ∧
    (∀ a b c : Value, a.WellFormed → b.WellFormed → c.WellFormed → ∀ max n max' n' max'' n'' verdict m m' m'',
      budgetEq arc a b max n = .ok true m → budgetEq arc b c max' n' = .ok true m' →
        budgetEq arc a c max'' n'' = .ok verdict m'' → verdict = true) := by
  refine ⟨fun a b ha hb max n => ?_, ?_, ?_⟩
  · have hrun := budgetEq_run arc ha hb max n
    cases hend : budgetEq arc a b max n with
    | ok verdict m =>
      have hok := wp_of_ok hrun hend
      exact hok
    | error e m =>
      have herror := wp_of_error hrun hend
      exact herror
  · intro a b ha hb max n max' n' verdict verdict' m m' hab hba
    have hsymm : ∀ x y : Handle, sameHandle x y → sameHandle y x := fun _ _ => Eq.symm
    rw [Bool.eq_iff_iff, verdict_iff ha hb hab, verdict_iff hb ha hba]
    exact ⟨Same.symm hsymm, Same.symm hsymm⟩
  · intro a b c ha hb hc max n max' n' max'' n'' verdict m m' m'' hab hbc hac
    have htrans : ∀ x y z : Handle, sameHandle x y → sameHandle y z → sameHandle x z := fun _ _ _ => Eq.trans
    rw [verdict_iff ha hc hac]
    exact Same.trans htrans ((verdict_iff ha hb hab).mp rfl) ((verdict_iff hb hc hbc).mp rfl)

open Value in
/-- Two handles to one file are not equal. -/
theorem budgetEq_same_file : ¬ ∀ (arc : ArcEq) (a b : Value) (max n m : Nat) (verdict : Bool),
    a.WellFormed → b.WellFormed → budgetEq arc a b max n = .ok verdict m → (verdict = true ↔ Same sameFile a b) := by
  intro h
  have hno := h ⟨fun _ _ => false, nofun⟩ (.fileHandle 0 ⟨"/home/user/a.txt", "a.txt"⟩)
    (.fileHandle 1 ⟨"/home/user/a.txt", "a.txt"⟩) 10 0 1 false trivial trivial rfl
  exact Bool.noConfusion (hno.mpr rfl)

end Mizu
