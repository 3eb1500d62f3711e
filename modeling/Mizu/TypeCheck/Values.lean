import Mizu.TypeCheck.Infer
import Mizu.Types.Eval.Evaluate

/-!
# Values of a type

`Inhabits T v`: `v` passes the runtime check for `T` and its records are well formed. The native
results have the type `infer` gives them (`applyBinop_yields`, `PureBuiltin.apply_yields`,
`accessField_yields`), except that `+` joins two strings to a string where `infer` says number.
`Fits` leaves room for such a string.
-/

namespace Mizu

open Exec List

/-- A value of a type: it passes the runtime check and its records are well formed. -/
structure Inhabits (T : ValueType) (v : Value) : Prop where
  accepted : T.accepts v = true
  wellFormed : v.WellFormed

/-- A value of the type, or, if `joined`, a string in a number's place. -/
def Fits (joined : Prop) (T : ValueType) (v : Value) : Prop :=
  Inhabits T v ∨ joined ∧ T = .num ∧ ∃ s, v = .string s

variable {T : ValueType}

theorem Fits.mono {P Q : Prop} {v : Value} (h : Fits P T v) (hpq : P → Q) : Fits Q T v := by
  rcases h with h | ⟨hp, h⟩
  · exact .inl h
  · exact .inr ⟨hpq hp, h⟩

theorem Fits.inhabits {P : Prop} {v : Value} (h : Fits P T v) (hT : T ≠ .num) : Inhabits T v := by
  rcases h with h | ⟨-, hnum, -⟩
  · exact h
  · exact absurd hnum hT

theorem inhabits_int (i : Int64) : Inhabits .num (.int i) := ⟨rfl, trivial⟩

theorem inhabits_decimal (i : Int64) : Inhabits .num (.decimal i) := ⟨rfl, trivial⟩

theorem inhabits_string (s : String) : Inhabits .str (.string s) := ⟨rfl, trivial⟩

theorem inhabits_bool (b : Bool) : Inhabits .bool (.bool b) := ⟨rfl, trivial⟩

variable {items : List Value}

theorem inhabits_list : Inhabits (.list T) (.list items) ↔ ∀ v ∈ items, Inhabits T v := by
  constructor
  · rintro ⟨hacc, hwf⟩ v hv
    simp only [ValueType.accepts, all_eq_true] at hacc
    exact ⟨hacc v hv, Value.wellFormedList_iff.mp hwf v hv⟩
  · intro h
    refine ⟨?_, Value.wellFormedList_iff.mpr fun v hv => (h v hv).wellFormed⟩
    simp only [ValueType.accepts, all_eq_true]
    exact fun v hv => (h v hv).accepted

/-! ## Native results -/

section Native

/-- Every value the program returns satisfies `P`. -/
def Yields (P : Value → Prop) (x : EStateM MizuError Nat Value) : Prop :=
  ∀ n, wp x (fun v _ => P v) (fun _ _ => True) n

variable (l r : Int64) (op : BinOp)

theorem checked_yields {wrap : Int64 → Value} (hwrap : ∀ i, Inhabits .num (wrap i)) (n : Int) :
    Yields (Inhabits .num) (checked wrap n) := by
  intro m
  unfold checked
  split
  · exact hwrap _
  · trivial

theorem intBinop_yields : Yields (Inhabits (inferBinop op)) (intBinop op l r) := by
  intro n
  cases op with
  | add | sub | mul => exact checked_yields inhabits_int _ n
  | div =>
    simp only [intBinop]
    split
    · trivial
    · exact checked_yields inhabits_decimal _ n
  | and => trivial
  | or => trivial
  | _ => exact inhabits_bool _

theorem decimalBinop_yields : Yields (Inhabits (inferBinop op)) (decimalBinop op l r) := by
  intro n
  cases op with
  | add | sub | mul => exact checked_yields inhabits_decimal _ n
  | div =>
    simp only [decimalBinop]
    split
    · trivial
    · exact checked_yields inhabits_decimal _ n
  | and => trivial
  | or => trivial
  | _ => exact inhabits_bool _

theorem boolBinop_yields (l r : Bool) : Yields (Inhabits (inferBinop op)) (boolBinop op l r) := by
  intro n
  cases op with
  | eq | ne | and | or => exact inhabits_bool _
  | _ => trivial

theorem nullBinop_yields (l : Value) (same : Bool) :
    Yields (Inhabits (inferBinop op)) (nullBinop op l same) := by
  intro n
  cases op with
  | eq => exact inhabits_bool _
  | ne => exact inhabits_bool _
  | _ => trivial

/-- What the result of an operator is: a value of the type `infer` gives it, or the joint of two
strings. -/
def BinopResult (op : BinOp) (lv rv v : Value) : Prop :=
  Inhabits (inferBinop op) v ∨
    op = .add ∧ (∃ a, lv = .string a) ∧ (∃ b, rv = .string b) ∧ ∃ c, v = .string c

variable (max : Nat)

theorem stringBinop_yields (l r : String) :
    Yields (BinopResult op (.string l) (.string r)) (stringBinop max op l r) := by
  intro n
  cases op with
  | add =>
    rw [stringBinop, wp_bind]
    refine wp_of_forall (fun _ _ => ?_) fun _ _ => trivial
    exact .inr ⟨rfl, ⟨l, rfl⟩, ⟨r, rfl⟩, _, rfl⟩
  | eq | ne | lt | gt | le | ge => exact .inl (inhabits_bool _)
  | _ => trivial

theorem Yields.binop {op : BinOp} {lv rv : Value} {x : EStateM MizuError Nat Value}
    (h : Yields (Inhabits (inferBinop op)) x) : Yields (BinopResult op lv rv) x :=
  fun n => (h n).mono (fun _ _ h => .inl h) fun _ _ _ => trivial

theorem comparison_inferBinop {op : BinOp} (h : op.isComparison = true) : inferBinop op = .bool := by
  cases op <;> simp_all [BinOp.isComparison, inferBinop]

variable {P : Value → Prop}

theorem promote_yields {f : Int64 → EStateM MizuError Nat Value}
    (hf : ∀ d, Yields P (f d)) (i : Int64) : Yields P (promote i >>= f) := by
  intro n
  rw [wp_bind]
  unfold promote
  split
  · exact hf _ n
  · trivial

theorem applyBinop_yields (lv rv : Value) : Yields (BinopResult op lv rv) (applyBinop max op lv rv) := by
  unfold applyBinop
  split
  · exact (intBinop_yields _ _ _).binop
  · exact (decimalBinop_yields _ _ _).binop
  · split
    · rename_i hcmp
      exact fun n => .inl (comparison_inferBinop hcmp ▸ inhabits_bool _)
    · exact promote_yields (fun d => (decimalBinop_yields _ _ _).binop) _
  · split
    · rename_i hcmp
      exact fun n => .inl (comparison_inferBinop hcmp ▸ inhabits_bool _)
    · exact promote_yields (fun d => (decimalBinop_yields _ _ _).binop) _
  · exact stringBinop_yields _ _ _ _
  · exact (boolBinop_yields _ _ _).binop
  · exact (nullBinop_yields _ _ _).binop
  · exact (nullBinop_yields _ _ _).binop
  · exact (nullBinop_yields _ _ _).binop
  · exact fun n => trivial

/-! The builtins -/

variable {ty : Option ValueType}

namespace PureBuiltin

/-- A check of an argument's kind followed by the rest of the call. -/
theorem expectList_bind_yields {f : List Value → EStateM MizuError Nat Value}
    {v : Value} (hf : ∀ items, v = .list items → Yields P (f items)) : Yields P (expectList v >>= f) := by
  intro n
  rw [wp_bind]
  unfold expectList
  split
  · exact hf _ rfl n
  · trivial

theorem bind_yields {α : Type} {x : EStateM MizuError Nat α}
    {f : α → EStateM MizuError Nat Value} (hf : ∀ a, Yields P (f a)) : Yields P (x >>= f) := by
  intro n
  rw [wp_bind]
  exact wp_of_forall (fun a n => hf a n) fun _ _ => trivial

/-- `filter` keeps items of the list. -/
theorem filterItems_mem (field : String) (binop : Option BinOp) (target : Value)
    (items : List Value) (n : Nat) :
    wp (filterItems max field binop target items) (fun out _ => ∀ v ∈ out, v ∈ items)
      (fun _ _ => True) n := by
  induction items generalizing n with
  | nil => simp [filterItems]
  | cons item items ih =>
    have hskip : ∀ n, wp (filterItems max field binop target items)
        (fun out _ => ∀ v ∈ out, v ∈ item :: items) (fun _ _ => True) n :=
      fun n => (ih n).mono (fun _ _ h v hv => mem_cons_of_mem _ (h v hv)) fun _ _ h => h
    simp only [filterItems]
    split
    · rw [wp_bind]
      refine wp_of_forall (fun keep m => ?_) fun _ _ => trivial
      split
      · rw [wp_bind]
        refine (ih m).mono (fun out _ h v hv => ?_) fun _ _ h => h
        rcases mem_cons.mp hv with rfl | hv
        · exact mem_cons_self
        · exact mem_cons_of_mem _ (h v hv)
      · exact hskip m
    · exact hskip n

theorem filterLoop_yields (field : String) (binop : Option BinOp)
    (target : Value) (h : Inhabits (.list T) (.list items)) : Yields (Inhabits (.list T)) fun ic =>
      match filterItems max field binop target items ic with
      | .ok filtered ic' => .ok (.list filtered) ic'
      | .error e _ => .error e ic := by
  intro n
  have hmem := filterItems_mem max field binop target items n
  rw [inhabits_list] at h
  cases hrun : filterItems max field binop target items n with
  | ok out m => grind [wp, inhabits_list]
  | error e m => simp only [wp, hrun]

theorem applyFilter_yields {listVal : Value} (fieldVal opVal target : Value)
    (h : Inhabits (.list T) listVal) :
    Yields (Inhabits (.list T)) (applyFilter max listVal fieldVal opVal target) := by
  refine expectList_bind_yields fun items hitems => bind_yields fun field => ?_
  refine bind_yields fun op => bind_yields fun _ => ?_
  have hloop := fun binop => filterLoop_yields max field binop target (hitems ▸ h)
  dsimp only
  split
  · exact bind_yields fun _ => bind_yields fun _ => bind_yields hloop
  · exact bind_yields fun _ => bind_yields hloop

theorem sortPairs_mem (field : String) (items : List Value) (n : Nat) :
    wp (sortPairs field items) (fun out _ => ∀ p ∈ out, p.2 ∈ items) (fun _ _ => True) n := by
  induction items generalizing n with
  | nil => simp [sortPairs]
  | cons item items ih =>
    simp only [sortPairs, wp_bind]
    refine wp_of_forall (fun key m => ?_) fun _ _ => trivial
    rw [wp_bind]
    refine (ih m).mono (fun out _ h p hp => ?_) fun _ _ h => h
    rcases mem_cons.mp hp with rfl | hp
    · exact mem_cons_self
    · exact mem_cons_of_mem _ (h p hp)

theorem sortItems_yields (field direction : String) (h : Inhabits (.list T) (.list items)) :
    Yields (Inhabits (.list T)) (do
      let paired ← sortPairs field items
      return .list ((paired.insertionSort (sortBefore direction · ·)).map (·.2))) := by
  intro n
  rw [wp_bind]
  refine (sortPairs_mem field items n).mono (fun out _ hmem => ?_) fun _ _ h => h
  rw [inhabits_list] at h
  refine inhabits_list.mpr fun v hv => ?_
  obtain ⟨p, hp, rfl⟩ := mem_map.mp hv
  have hperm := perm_insertionSort (sortBefore direction · ·) out
  exact h _ (hmem p (hperm.mem_iff.mp hp))

theorem applySort_yields {listVal : Value} (fieldVal directionVal : Value)
    (h : Inhabits (.list T) listVal) :
    Yields (Inhabits (.list T)) (applySort max listVal fieldVal directionVal) := by
  refine expectList_bind_yields fun items hitems => bind_yields fun _ => bind_yields fun _ => ?_
  refine bind_yields fun field => bind_yields fun direction => ?_
  have hitems := sortItems_yields field direction (hitems ▸ h)
  dsimp only
  split
  · exact bind_yields fun _ => hitems
  · exact hitems

theorem applyCount_yields (arc : ArcEq) (max : Nat) (listVal fieldVal target : Value) :
    Yields (Inhabits .num) (applyCount arc max listVal fieldVal target) :=
  bind_yields fun _ => bind_yields fun _ => bind_yields fun _ => bind_yields fun _ =>
    bind_yields fun _ _ => inhabits_int _

theorem applyLength_yields (v : Value) : Yields (Inhabits .num) (applyLength max v) := by
  unfold applyLength
  split
  · exact fun _ => inhabits_int _
  · refine bind_yields fun _ => ?_
    dsimp only
    split
    · exact bind_yields fun _ => bind_yields fun _ _ => inhabits_int _
    · exact bind_yields fun _ _ => inhabits_int _
  · exact fun _ => trivial

theorem applyToString_yields (v : Value) : Yields (Inhabits .str) (applyToString v) := by
  unfold applyToString
  split
  · exact fun _ => inhabits_string _
  · exact fun _ => inhabits_string _
  · exact fun _ => inhabits_string _
  · exact fun _ => trivial

theorem applyContains_yields (haystackVal needleVal : Value) :
    Yields (Inhabits .bool) (applyContains max haystackVal needleVal) :=
  bind_yields fun _ => bind_yields fun _ => bind_yields fun _ => bind_yields fun _ _ =>
    inhabits_bool _

theorem applyHasField_yields (recordVal nameVal : Value) :
    Yields (Inhabits .bool) (applyHasField recordVal nameVal) := by
  unfold applyHasField
  split
  · exact bind_yields fun _ _ => inhabits_bool _
  · exact fun _ => trivial

/-- A type that `inferResult` gives: the list it was given, or the builtin's own scalar type. -/
theorem inferResult_ok {p : PureBuiltin} (h : p.inferResult ty = .ok (some T)) : match p with
    | filter | sort => ∃ inner, ty = some (.list inner) ∧ T = .list inner
    | count | length => T = .num
    | toString => T = .str
    | contains | hasField => T = .bool := by
  unfold inferResult at h
  split at h <;> cases h <;> first | exact rfl | exact ⟨_, rfl, rfl⟩

/-- A builtin called with a first argument that fits the type `infer` found returns a value of the
type `infer` gives the call. -/
theorem apply_yields (arc : ArcEq) (max : Nat) (p : PureBuiltin)
    {D : Prop} (vs : List Value) (hty : p.inferResult ty = .ok (some T))
    (hfit : ∀ v T', vs.head? = some v → ty = some T' → Fits D T' v) :
    Yields (Inhabits T) (p.apply arc max vs) := by
  have hT := inferResult_ok hty
  unfold apply
  split
  · obtain ⟨inner, hinner, rfl⟩ := hT
    exact applyFilter_yields max _ _ _ ((hfit _ _ rfl hinner).inhabits (by simp))
  · exact hT ▸ applyCount_yields arc max _ _ _
  · obtain ⟨inner, hinner, rfl⟩ := hT
    exact applySort_yields max _ _ ((hfit _ _ rfl hinner).inhabits (by simp))
  · exact hT ▸ applyLength_yields max _
  · exact hT ▸ applyToString_yields _
  · exact hT ▸ applyContains_yields max _ _
  · exact hT ▸ applyHasField_yields _ _
  · exact fun _ => trivial

end PureBuiltin

/-! Field access -/

variable {types : List (String × ValueType)}

/-- A field found in a record type is, in a record of that type, the field found in the value. -/
theorem field_accepted {name : String} {hash : UInt32}
    {fields : List (RecordField Value)} {e : String × ValueType} {f : RecordField Value}
    (hacc : ValueType.acceptsFields types fields = true) (hhash : ∀ f ∈ fields, f.hash = hashField f.key)
    (he : types.find? (fun e => e.1 = name) = some e)
    (hf : fields.find? (fun f => f.hash = hash ∧ f.key = name) = some f) : e.2.accepts f.value = true := by
  induction types generalizing fields with
  | nil => simp at he
  | cons t types ih =>
    cases fields with
    | nil => simp at hf
    | cons g fields =>
      simp only [ValueType.acceptsFields, Bool.and_eq_true, decide_eq_true_eq] at hacc
      obtain ⟨⟨hkey, hval⟩, hrest⟩ := hacc
      have hhash' : ∀ f ∈ fields, f.hash = hashField f.key :=
        fun f hf => hhash f (mem_cons_of_mem _ hf)
      by_cases hname : t.1 = name
      · obtain rfl : t = e := by simpa [List.find?_cons, hname] using he
        -- The hash of the head decides for every field of that name.
        by_cases hg : g.hash = hash
        · obtain rfl : g = f := by simpa [List.find?_cons, hg, hkey, hname] using hf
          exact hval
        · have hf : fields.find? (fun f => f.hash = hash ∧ f.key = name) = some f := by
            simpa [List.find?_cons, hg] using hf
          have hfound := List.find?_some hf
          simp only [decide_eq_true_eq] at hfound
          have hfh := hhash' f (mem_of_find?_eq_some hf)
          have hgh := hhash g mem_cons_self
          exact absurd (by rw [hgh, hkey, hname, ← hfound.2, ← hfh, hfound.1]) hg
      · grind

theorem inferField_ok {name : String} (h : inferField name ty = .ok (some T)) :
    ∃ types e, ty = some (.record types) ∧ types.find? (fun e => e.1 = name) = some e ∧ T = e.2 := by
  unfold inferField at h
  split at h
  · rename_i types
    split at h
    · rename_i e he
      cases h
      exact ⟨types, e, rfl, he, rfl⟩
    · cases h
  · cases h
  · cases h

theorem accessField_yields (ctx : EvalCtx) (field : Symbol) (hash : UInt32) {base : Value}
    {e : String × ValueType} (hbase : Inhabits (.record types) base)
    (he : types.find? (fun e => e.1 = (ctx.interner.resolve field).getD "") = some e) :
    Yields (Inhabits e.2) (accessField ctx field hash base) := by
  intro n
  unfold accessField
  split
  · rename_i fields
    obtain ⟨hacc, -, hhash, hwf⟩ := hbase
    dsimp only
    split
    · rename_i v hv
      simp only [Value.getField, Option.map_eq_some_iff] at hv
      obtain ⟨f, hf, rfl⟩ := hv
      refine ⟨?_, Value.wellFormedFields_iff.mp hwf f (mem_of_find?_eq_some hf)⟩
      exact field_accepted (by simpa only [ValueType.accepts] using hacc) hhash he hf
    · trivial
  · trivial

end Native

end Mizu
