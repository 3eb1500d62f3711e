import Mizu.Lib.Lowercase
import Mizu.Logic.Parse.Progress

/-!
# The types of parameters

`parseType` reads the type of a parameter; the fields of a record type are sorted by name.

* `parseType_sorted`: so they are at every depth.
-/

namespace Mizu

/-- What the parser of types takes from its surroundings. -/
structure TypeEnv where
  /-- The tables of `str::to_lowercase`. -/
  table : CaseTable
  /-- `{:?}` of a text. -/
  debugStr : String → String

/-- A cursor that has moved. -/
abbrev Shorter (ts : List Token) := { rest : List Token // rest.length < ts.length }

/-- Takes a token, or says what came in its place. -/
def expectToken (env : TypeEnv) (tok : Token) (expected : String) (ts : List Token) : Except String (Shorter ts) :=
  match ts with
  | [] => .error ("expected " ++ expected ++ ", got " ++ debugNext env.debugStr [])
  | t :: rest =>
    if t = tok then .ok ⟨rest, Nat.lt_succ_self _⟩
    else .error ("expected " ++ expected ++ ", got " ++ debugNext env.debugStr (t :: rest))

/-- A question mark makes a type nullable. -/
def parseNullable {ts : List Token} (base : ValueType) (rest : Shorter ts) : ValueType × Shorter ts :=
  match rest with
  | ⟨.question :: rest, h⟩ => (.nullable base, ⟨rest, (Nat.lt_succ_self _).trans h⟩)
  | rest => (base, rest)

/-- A comma may stand between two fields. -/
def skipFieldComma {ts : List Token} (rest : Shorter ts) : Shorter ts :=
  ⟨skipComma rest.1, Nat.lt_of_le_of_lt (skipComma_suffix rest.1).length_le rest.2⟩

/-- `sort_by` on the names of fields. -/
def sortTypeFields (fields : List (String × ValueType)) : List (String × ValueType) :=
  fields.insertionSort fun a b => a.1 ≤ b.1

section Parse

variable (env : TypeEnv)

mutual

/-- `parse_type`. -/
def parseType (ts : List Token) : Except String (ValueType × Shorter ts) :=
  match ts with
  | .ident name :: ts => do
    let moved {us : List Token} (rest : Shorter us) (h : us.length ≤ ts.length) : Shorter (.ident name :: ts) :=
      ⟨rest.1, Nat.lt_succ_of_lt (Nat.lt_of_lt_of_le rest.2 h)⟩
    let lower := env.table.toLowercase name
    if lower = "num" ∨ lower = "number" then return parseNullable .num ⟨ts, Nat.lt_succ_self _⟩
    else if lower = "string" ∨ lower = "str" then return parseNullable .str ⟨ts, Nat.lt_succ_self _⟩
    else if lower = "bool" ∨ lower = "boolean" then return parseNullable .bool ⟨ts, Nat.lt_succ_self _⟩
    else if lower = "list" then
      let ⟨ts₁, h₁⟩ ← expectToken env .lt "`<` after `list`" ts
      let (inner, ⟨ts₂, h₂⟩) ← parseType ts₁
      let rest ← expectToken env .gt "`>` after list type" ts₂
      return parseNullable (.list inner) (moved rest (by omega))
    else if lower = "record" then
      let ⟨ts₁, h₁⟩ ← expectToken env .lBrace "`\x7b` after `record`" ts
      let (fields, ⟨ts₂, h₂⟩) ← parseTypeFields ts₁ []
      let rest ← expectToken env .rBrace "`\x7d` after record fields" ts₂
      return parseNullable (.record (sortTypeFields fields)) (moved rest (by omega))
    else if lower = "dict" ∨ lower = "any" then
      throw ("type `" ++ name ++
        "` is not supported; use: num, string, bool, list<T>, record\x7b...\x7d, or T?")
    else
      throw ("unknown type `" ++ lower ++
        "`; valid types: num, string, bool, list<T>, record\x7b...\x7d, or T?")
  | ts => throw ("expected type name, got " ++ debugNext env.debugStr ts)
termination_by ts.length

/-- The fields up to the closing brace, after those that are read already. -/
def parseTypeFields (ts : List Token) (fields : List (String × ValueType)) :
    Except String (List (String × ValueType) × { rest : List Token // rest.length ≤ ts.length }) :=
  match ts with
  | [] => return (fields, ⟨[], Nat.le_refl _⟩)
  | .rBrace :: ts => return (fields, ⟨.rBrace :: ts, Nat.le_refl _⟩)
  | .ident fieldName :: ts => do
    let ⟨ts₁, h₁⟩ ← expectToken env .colon "`:` after field name" ts
    let (fieldType, ⟨ts₂, h₂⟩) ← parseType ts₁
    let ⟨ts₃, h₃⟩ := skipFieldComma ⟨ts₂, h₂⟩
    let (fields, ⟨rest, h⟩) ← parseTypeFields ts₃ (fields ++ [(fieldName, fieldType)])
    return (fields, ⟨rest, by rw [List.length_cons]; omega⟩)
  | ts => throw ("expected field name, got " ++ debugNext env.debugStr ts)
termination_by ts.length

end

end Parse

/-! ## Sorted fields -/

variable {fields : List (String × ValueType)}

namespace ValueType

mutual

/-- The fields of every record type stand in the order of their names. -/
def Sorted : ValueType → Prop
  | list inner | nullable inner => inner.Sorted
  | record fields => (fields.map (·.1)).Pairwise (· ≤ ·) ∧ SortedFields fields
  | _ => True

def SortedFields : List (String × ValueType) → Prop
  | [] => True
  | (_, ty) :: fields => ty.Sorted ∧ SortedFields fields

end

theorem sortedFields_iff : SortedFields fields ↔ ∀ field ∈ fields, field.2.Sorted := by
  induction fields with
  | nil => simp [SortedFields]
  | cons field fields ih => simp [SortedFields, ih]

end ValueType

open ValueType

theorem sorted_record (h : SortedFields fields) : (ValueType.record (sortTypeFields fields)).Sorted := by
  refine ⟨?_, sortedFields_iff.mpr fun field hmem => sortedFields_iff.mp h field ?_⟩
  · exact List.pairwise_map.mpr (List.pairwise_insertionSort _ _)
  · exact (List.mem_insertionSort _).mp hmem

section Parsed

variable {env : TypeEnv}

theorem parseNullable_sorted {ts : List Token} {base : ValueType} (h : base.Sorted) (rest : Shorter ts) :
    (parseNullable base rest).1.Sorted := by
  unfold parseNullable
  split <;> exact h

theorem sorted_of_parseNullable {ts : List Token} {base T : ValueType} {rest' rest : Shorter ts}
    (h : (pure (parseNullable base rest') : Except String _) = .ok (T, rest)) (hbase : base.Sorted) : T.Sorted := by
  have hT : T = (parseNullable base rest').1 := (congrArg Prod.fst (Except.ok.inj h)).symm
  rw [hT]
  exact parseNullable_sorted hbase rest'

mutual

theorem parseType_sorted (ts : List Token) {T : ValueType} {rest : Shorter ts}
    (h : parseType env ts = .ok (T, rest)) : T.Sorted := by
  rw [parseType.eq_def] at h
  split at h
  swap
  · cases h
  rename_i name ts
  dsimp only at h
  split at h
  · exact sorted_of_parseNullable h (by simp only [Sorted])
  split at h
  · exact sorted_of_parseNullable h (by simp only [Sorted])
  split at h
  · exact sorted_of_parseNullable h (by simp only [Sorted])
  split at h
  · obtain ⟨⟨ts₁, h₁⟩, -, h⟩ := Exec.except_of_bind_ok h
    obtain ⟨⟨inner, ts₂, h₂⟩, hinner, h⟩ := Exec.except_of_bind_ok h
    obtain ⟨rest', -, h⟩ := Exec.except_of_bind_ok h
    exact sorted_of_parseNullable h (by simpa only [Sorted] using parseType_sorted ts₁ hinner)
  split at h
  · obtain ⟨⟨ts₁, h₁⟩, -, h⟩ := Exec.except_of_bind_ok h
    obtain ⟨⟨fields, ts₂, h₂⟩, hfields, h⟩ := Exec.except_of_bind_ok h
    obtain ⟨rest', -, h⟩ := Exec.except_of_bind_ok h
    have hnone : SortedFields [] := by simp only [SortedFields]
    exact sorted_of_parseNullable h (sorted_record (parseTypeFields_sorted ts₁ hnone hfields))
  split at h <;> cases h
termination_by ts.length
decreasing_by all_goals grind

theorem parseTypeFields_sorted (ts : List Token) {fields fields' : List (String × ValueType)} {rest}
    (hfields : SortedFields fields) (h : parseTypeFields env ts fields = .ok (fields', rest)) :
    SortedFields fields' := by
  rw [parseTypeFields.eq_def] at h
  split at h
  · cases h
    exact hfields
  · cases h
    exact hfields
  · rename_i fieldName ts
    obtain ⟨⟨ts₁, h₁⟩, -, h⟩ := Exec.except_of_bind_ok h
    obtain ⟨⟨fieldType, ts₂, h₂⟩, htype, h⟩ := Exec.except_of_bind_ok h
    have h₃ := (skipFieldComma ⟨ts₂, h₂⟩).2
    obtain ⟨⟨fields'', ts₄, h₄⟩, hrest, h⟩ := Exec.except_of_bind_ok h
    obtain rfl : fields'' = fields' := congrArg Prod.fst (Except.ok.inj h)
    refine parseTypeFields_sorted (skipFieldComma ⟨ts₂, h₂⟩).1 (sortedFields_iff.mpr fun field hmem => ?_) hrest
    rcases List.mem_append.mp hmem with hmem | hmem
    · exact sortedFields_iff.mp hfields field hmem
    · obtain rfl := List.mem_singleton.mp hmem
      exact parseType_sorted ts₁ htype
  · cases h
termination_by ts.length
decreasing_by all_goals grind

end

end Parsed

end Mizu
