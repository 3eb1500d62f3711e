import Mizu.Types.Eval.Evaluate
import Mizu.Types.Eval.Sort

/-!
# What `filter` and `count` return

`answer op l r` is what a comparison operator says of two values, if it applies to them. `filter` keeps the items whose
field is there and gets the answer yes (`applyFilter_run`), and `count` counts those whose field is structurally equal
to the target (`countItems_run`), so the two agree where `==` applies (`passes_eq_iff`).

Main result: `filter_count_equality`.
-/

namespace Mizu

open Exec Value List

/-! ## The three equalities -/

variable {files : Handle → Handle → Prop}

section Answer

/-- What a comparison operator says of two values, if it applies to them. -/
def answer (op : BinOp) (l r : Value) : Option Bool :=
  match applyBinop 0 op l r 0 with
  | .ok (.bool b) _ => some b
  | _ => none

/-- The pairs of values that `==` and `!=` apply to. -/
def Value.comparable : Value → Value → Bool
  | .int _, .int _ | .int _, .decimal _ | .decimal _, .int _ | .decimal _, .decimal _ => true
  | .string _, .string _ | .bool _, .bool _ | .null, _ | _, .null => true
  | _, _ => false

/-- A comparison does not touch the count, and its only error is a type mismatch. -/
theorem applyBinop_comparison {op : BinOp} (hop : op.isComparison = true) (max n : Nat) (l r : Value) :
    applyBinop max op l r n =
      match answer op l r with
      | some b => .ok (.bool b) n
      | none => .error (.typeError "compatible operand types" l.typeName) n := by
  cases op with
  | eq | ne | lt | gt | le | ge => cases l <;> cases r <;> rfl
  | _ => exact absurd hop Bool.false_ne_true

theorem answer_eq_isSome (l r : Value) : (answer .eq l r).isSome = l.comparable r := by
  cases l <;> cases r <;> rfl

/-- `!=` is the negation of `==`. -/
theorem answer_ne (l r : Value) : answer .ne l r = (answer .eq l r).map (!·) := by
  cases l <;> cases r <;> simp [answer, applyBinop, intBinop, decimalBinop, stringBinop, boolBinop, nullBinop, mismatch,
    compareOp, BinOp.isComparison, pure_apply, throw_apply]

theorem answer_eq_iff {l r : Value} (h : l.comparable r = true) :
    answer .eq l r = some true ↔ Same files l r := by
  cases l <;> cases r <;> first
    | exact absurd h Bool.false_ne_true
    | simp [answer, applyBinop, intBinop, decimalBinop, stringBinop, boolBinop, nullBinop, compareOp,
        BinOp.isComparison, pure_apply, Same]
  unfold decimalScale
  omega

/-- Values that `==` does not apply to are of different kinds, or lists, records or files. -/
theorem answer_eq_none {l r : Value} (h : l.comparable r = false) : answer .eq l r = none := by
  rw [← Option.isNone_iff_eq_none, ← Option.not_isSome, answer_eq_isSome, h]
  rfl

end Answer

namespace PureBuiltin

/-! ## `filter` -/

variable {items : List Value}

section Filter

/-- What `filter` keeps of the values of the field. -/
def keeps (binop : Option BinOp) (target v : Value) : Bool :=
  match binop with
  | some op => answer op v target = some true
  | none =>
    match v, target with
    | .string h, .string n => containsStr h n
    | _, _ => false

/-- What `filter` keeps of the items: those without the field are dropped. -/
def passes (field : String) (binop : Option BinOp) (target item : Value) : Bool :=
  (keyOf field item).any (keeps binop target)

variable {binop : Option BinOp}

theorem filterOp_comparison {op : String} {n m : Nat} (h : filterOp op n = .ok binop m) :
    ∀ c, binop = some c → c.isComparison = true := by
  rintro c rfl
  unfold filterOp at h
  split at h <;> first | (cases h; rfl) | cases h

/-- The operator does not depend on the count. -/
theorem filterOp_at_zero {op : String} {n m : Nat} (h : filterOp op n = .ok binop m) :
    filterOp op 0 = .ok binop 0 := by
  unfold filterOp at h ⊢
  split at h <;> first | (cases h; rfl) | cases h

theorem filterKeeps_run (hop : ∀ c, binop = some c → c.isComparison = true) (max : Nat)
    (v target : Value) (n : Nat) : filterKeeps max binop v target n = .ok (keeps binop target v) n := by
  cases binop with
  | none => cases v <;> cases target <;> rfl
  | some op =>
    unfold filterKeeps keeps
    dsimp only
    rw [applyBinop_comparison (hop op rfl)]
    cases answer op v target with
    | none => rfl
    | some b => cases b <;> rfl

theorem filterItems_run (hop : ∀ c, binop = some c → c.isComparison = true) (max : Nat)
    (field : String) (target : Value) (items : List Value) (n : Nat) :
    filterItems max field binop target items n = .ok (items.filter (passes field binop target)) n := by
  induction items with
  | nil => rfl
  | cons item items ih =>
    unfold filterItems
    rw [filter_cons, passes, keyOf]
    cases item.getField (hashField field) field with
    | none => exact ih
    | some v =>
      dsimp only
      rw [bind_ok (filterKeeps_run hop max v target n), Option.any_some]
      cases keeps binop target v with
      | false => exact ih
      | true =>
        rw [if_pos rfl, if_pos rfl, bind_ok ih]
        rfl

/-- A call that returns has kept the items that pass. -/
theorem applyFilter_run {max n n' : Nat} {field op : String} {target out : Value}
    (h : applyFilter max (.list items) (.string field) (.string op) target n = .ok out n') :
    ∃ binop, filterOp op 0 = .ok binop 0 ∧ out = .list (items.filter (passes field binop target)) := by
  unfold applyFilter at h
  obtain ⟨_, _, hlist, h⟩ := of_bind_ok h
  cases hlist
  obtain ⟨_, _, hfield, h⟩ := of_bind_ok h
  cases hfield
  obtain ⟨_, _, hop, h⟩ := of_bind_ok h
  cases hop
  obtain ⟨_, m, -, h⟩ := of_bind_ok h
  split at h
  on_goal 1 => obtain ⟨_, _, -, h⟩ := of_bind_ok h
  -- What follows the charge for a substring test.
  all_goals
    obtain ⟨_, k, -, h⟩ := of_bind_ok h
    obtain ⟨binop, j, hbinop, h⟩ := of_bind_ok h
    rw [filterItems_run (filterOp_comparison hbinop)] at h
    cases h
    exact ⟨binop, filterOp_at_zero hbinop, rfl⟩

end Filter

/-! ## `count` -/

section Count

variable {arc : ArcEq} {max : Nat} {field : String} {target : Value}

theorem wellFormed_keyOf {item v : Value} (h : item.WellFormed) (hv : keyOf field item = some v) : v.WellFormed := by
  unfold keyOf getField at hv
  split at hv
  · obtain ⟨f, hf, rfl⟩ := Option.map_eq_some_iff.mp hv
    exact wellFormedFields_iff.mp h.2.2 f (mem_of_find?_eq_some hf)
  · cases hv

/-- `count` counts the items whose field is the same as the target. -/
theorem countItems_run {counted : Value → Bool} (htarget : target.WellFormed)
    (hitems : ∀ item ∈ items, item.WellFormed)
    (hcounted : ∀ item ∈ items, counted item = true ↔ ∃ v, keyOf field item = some v ∧ Same sameHandle v target)
    {n n' k : Nat} (h : countItems arc max field target items n = .ok k n') :
    k = (items.filter counted).length := by
  induction items generalizing n k with
  | nil =>
    cases h
    rfl
  | cons item items ih =>
    rw [forall_mem_cons] at hitems hcounted
    unfold countItems at h
    have hhead := hcounted.1
    unfold keyOf at hhead
    cases hkey : item.getField (hashField field) field with
    | none =>
      rw [hkey] at h hhead
      have hno : counted item = false := by simpa using hhead
      rw [filter_cons_of_neg (by simp [hno])]
      exact ih hitems.2 hcounted.2 h
    | some v =>
      rw [hkey] at h hhead
      dsimp only at h
      obtain ⟨verdict, m, hverdict, h⟩ := of_bind_ok h
      obtain ⟨rest, m', hrest, h⟩ := of_bind_ok h
      cases h
      have hv : v.WellFormed := wellFormed_keyOf hitems.1 hkey
      have hsame := verdict_iff hv htarget hverdict
      have hlen := ih hitems.2 hcounted.2 hrest
      have hhere : counted item = verdict := by grind
      cases verdict with
      | false => rw [filter_cons_of_neg (by simp [hhere]), ← hlen, if_neg Bool.false_ne_true, Nat.zero_add]
      | true => rw [filter_cons_of_pos hhere, length_cons, ← hlen, if_pos rfl, Nat.add_comm]

theorem applyCount_run {counted : Value → Bool} (htarget : target.WellFormed)
    (hitems : ∀ item ∈ items, item.WellFormed)
    (hcounted : ∀ item ∈ items, counted item = true ↔ ∃ v, keyOf field item = some v ∧ Same sameHandle v target)
    {n n' : Nat} {out : Value} (h : applyCount arc max (.list items) (.string field) target n = .ok out n') :
    out = .int (Int64.ofNat (items.filter counted).length) := by
  unfold applyCount at h
  obtain ⟨_, _, hlist, h⟩ := of_bind_ok h
  cases hlist
  obtain ⟨_, _, -, h⟩ := of_bind_ok h
  obtain ⟨_, _, -, h⟩ := of_bind_ok h
  obtain ⟨_, _, hfield, h⟩ := of_bind_ok h
  cases hfield
  obtain ⟨k, _, hk, h⟩ := of_bind_ok h
  cases h
  rw [countItems_run htarget hitems hcounted hk]

/-- The targets that `==` compares with everything of their kind. -/
theorem comparable_of_same {v : Value} (hscalar : isScalar (some target) = true)
    (h : Same files v target) : v.comparable target = true := by
  cases target <;> cases v <;> first | rfl | exact h.elim | exact absurd hscalar Bool.false_ne_true

/-- With a scalar target `count` counts what `filter` with `eq` keeps. -/
theorem passes_eq_iff (hscalar : isScalar (some target) = true) (item : Value) :
    passes field (some .eq) target item = true ↔ ∃ v, keyOf field item = some v ∧ Same sameHandle v target := by
  unfold passes keeps
  rw [Option.any_eq_true]
  refine exists_congr fun v => and_congr_right fun _ => ?_
  rw [decide_eq_true_eq]
  by_cases hcomparable : v.comparable target = true
  · exact answer_eq_iff hcomparable
  · grind [answer_eq_none, comparable_of_same]

end Count

/-! ## `eq` and `ne`, and the expression -/

section Laws

variable {field : String} {target : Value}

/-- What `eq` and `ne` apply to. -/
def applies (field : String) (target item : Value) : Bool := (keyOf field item).any (·.comparable target)

theorem applies_of_eq {item : Value} (h : passes field (some .eq) target item = true) :
    applies field target item = true := by
  obtain ⟨v, hv, hkeeps⟩ := (Option.any_eq_true _ _).mp h
  refine (Option.any_eq_true _ _).mpr ⟨v, hv, ?_⟩
  rw [← answer_eq_isSome, of_decide_eq_true hkeeps]
  rfl

/-- `ne` keeps what `eq` applies to and does not keep. -/
theorem passes_ne (item : Value) :
    passes field (some .ne) target item = (applies field target item && !passes field (some .eq) target item) := by
  unfold passes applies keeps
  cases keyOf field item with
  | none => rfl
  | some v =>
    simp only [Option.any_some, answer_ne, ← answer_eq_isSome]
    cases answer .eq v target with
    | none => rfl
    | some b => cases b <;> rfl

theorem perm_eq_ne (items : List Value) :
    (items.filter (passes field (some .eq) target) ++ items.filter (passes field (some .ne) target)).Perm
      (items.filter (applies field target)) := by
  have heq : items.filter (passes field (some .eq) target) =
      (items.filter (applies field target)).filter (passes field (some .eq) target) := by
    rw [filter_filter]
    refine filter_congr fun item _ => ?_
    cases h : passes field (some .eq) target item with
    | false => rfl
    | true => rw [applies_of_eq h]; rfl
  have hne : items.filter (passes field (some .ne) target) =
      (items.filter (applies field target)).filter (!passes field (some .eq) target ·) := by
    rw [filter_filter]
    exact filter_congr fun item _ => (passes_ne item).trans (Bool.and_comm _ _)
  rw [heq, hne]
  exact filter_append_perm _ _

/-- An item is kept exactly if the comparison of its field evaluates to true. -/
theorem passes_iff_expression {ctx : EvalCtx} {sym : Symbol} (hname : ctx.interner.resolve sym = some field)
    {op : BinOp} (hop : op.isComparison = true) (max n : Nat) (item : Value) :
    passes field (some op) target item = true ↔
      (accessField ctx sym (hashField field) item >>= fun v => applyBinop max op v target) n = .ok (.bool true) n := by
  unfold passes keyOf accessField
  cases item with
  | record fields =>
    dsimp only
    rw [hname, Option.getD_some]
    cases (record fields).getField (hashField field) field with
    | none => exact ⟨nofun, nofun⟩
    | some v =>
      rw [Option.any_some, bind_ok (pure_apply n v), applyBinop_comparison hop, keeps, decide_eq_true_eq]
      cases answer op v target with
      | none => exact ⟨nofun, nofun⟩
      | some b => cases b <;> simp
  | _ => exact ⟨nofun, nofun⟩

end Laws

end PureBuiltin

end Mizu
