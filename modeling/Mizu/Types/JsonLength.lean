import Mizu.Render.Capability
import Mizu.Types.JsonRoundTrip

/-!
# The length of encoded values

`JsonValue.compactLength` is the length of serde_json's compact text, byte by byte as it is escaped.
`compactLength_le` compares it with the estimate that a write is charged: six bytes for each byte of the
estimate and for each value at most, so that only keys and the number of values go uncharged.
-/

namespace Mizu

open Exec List

/-- The bytes of a character in a string; control characters and the two delimiters are escaped. -/
def escapedLength (c : Char) : Nat :=
  if c = '"' ∨ c = '\\' then 2
  else if c.toNat ∈ [0x8, 0x9, 0xa, 0xc, 0xd] then 2
  else if c.toNat < 0x20 then 6
  else c.utf8Size

def quotedLength (s : String) : Nat := 2 + (s.toList.map escapedLength).sum

namespace JsonValue

mutual

/-- The length of `serde_json::to_vec`. -/
def compactLength : JsonValue → Nat
  | null => 4
  | bool b => if b then 4 else 5
  | number n => n.text.length
  | string s => quotedLength s
  | array items => 2 + (items.length - 1) + compactLengthList items
  | object entries => 2 + (entries.length - 1) + compactLengthEntries entries

def compactLengthList : List JsonValue → Nat
  | [] => 0
  | v :: vs => v.compactLength + compactLengthList vs

def compactLengthEntries : List JsonEntry → Nat
  | [] => 0
  | .mk key value :: es => quotedLength key + 1 + value.compactLength + compactLengthEntries es

end

end JsonValue

/-! ## Strings and numbers -/

theorem escapedLength_le (c : Char) : escapedLength c ≤ 6 * c.utf8Size := by
  grind [escapedLength, c.utf8Size_pos]

theorem utf8ByteSize_eq (s : String) : s.utf8ByteSize = (s.toList.map Char.utf8Size).sum := by
  obtain ⟨cs, rfl⟩ := s.exists_eq_ofList
  rw [String.toList_ofList]
  induction cs with
  | nil => rfl
  | cons c cs ih =>
    rw [← singleton_append, String.ofList_append, String.utf8ByteSize_append, ih,
      ← String.singleton_eq_ofList, String.utf8ByteSize_singleton]
    rfl

/-- Each byte of a string becomes six at most, inside two quotes. -/
theorem quotedLength_le (s : String) : quotedLength s ≤ 6 * s.utf8ByteSize + 2 := by
  have hsum : ∀ cs : List Char, (cs.map escapedLength).sum ≤ 6 * (cs.map Char.utf8Size).sum := by
    intro cs
    induction cs with
    | nil => exact Nat.le_refl _
    | cons c cs ih => grind [map_cons, sum_cons, escapedLength_le]
  have h := hsum s.toList
  rw [quotedLength, utf8ByteSize_eq]
  omega

theorem toDigits_length_le {n : Nat} (h : n ≤ 2 ^ 63) : (Nat.toDigits 10 n).length ≤ 19 :=
  (Nat.length_toDigits_le_iff (by decide) (by decide)).mpr (by omega)

theorem signOf_length_le (negative : Bool) : (signOf negative).length ≤ 1 := by
  cases negative <;> decide

theorem natAbs_le_of_int64 (i : Int64) : i.toInt.natAbs ≤ 2 ^ 63 := by
  have hlo := i.le_toInt
  have hhi := i.toInt_lt
  omega

theorem ofInt64_length_le (i : Int64) : (JsonNumber.ofInt64 i).text.length ≤ 20 := by
  have hsign := signOf_length_le (i.toInt < 0)
  have hdigits := toDigits_length_le (natAbs_le_of_int64 i)
  rw [JsonNumber.ofInt64]
  show (toString i.toInt).toList.length ≤ 20
  rw [toString_signed, length_append]
  omega

theorem formatDecimal_length_le (i : Int64) : (Value.formatDecimal i true).toList.length ≤ 29 := by
  obtain ⟨frac, htext, _, _, hlen, _⟩ := formatDecimal_parts i
  have hsign := signOf_length_le (i.toInt < 0)
  have hdigits := toDigits_length_le (n := i.toInt.natAbs / 10 ^ 8)
    (Nat.le_trans (Nat.div_le_self _ _) (natAbs_le_of_int64 i))
  rw [htext, length_append, length_append, length_cons]
  omega

/-! ## Values -/

open JsonValue (compactLengthList compactLengthEntries)

/-- What an object spends on a member, with a comma. -/
def entryLength : JsonEntry → Nat
  | .mk key value => quotedLength key + 2 + value.compactLength

theorem compactLengthEntries_add (es : List JsonEntry) :
    compactLengthEntries es + es.length = (es.map entryLength).sum := by
  induction es with
  | nil => rfl
  | cons e es ih =>
    obtain ⟨key, value⟩ := e
    rw [compactLengthEntries, length_cons, map_cons, sum_cons, ← ih, entryLength]
    omega

theorem dedupEntries_sublist : ∀ es : List JsonEntry, (dedupEntries es).Sublist es
  | [] => .slnil
  | e :: es => by
    have ih := dedupEntries_sublist es
    rw [dedupEntries]
    split
    · rename_i h
      exact singleton_sublist.mpr (.head _)
    · grind

/-- Sorting and dropping members with equal keys makes an object no longer. -/
theorem mapFromIter_length_le (es : List JsonEntry) :
    ((mapFromIter es).map entryLength).sum ≤ (es.map entryLength).sum := by
  have hsub := (dedupEntries_sublist (es.insertionSort fun a b => a.key ≤ b.key)).map entryLength
  have hperm := (perm_insertionSort (fun a b : JsonEntry => a.key ≤ b.key) es).map entryLength
  exact (hsub.sum_le_sum fun _ _ => Nat.zero_le _).trans hperm.sum_eq.le

mutual

/-- The text of a value, with room for what a record spends on a member. -/
theorem compactLength_add_le : ∀ (v : Value) {j : JsonValue}, v.toJson = .ok j →
    j.compactLength + 4 ≤ 6 * (estimateValueBytes v + v.nodeCount)
  | .null, j, h => by
    cases h
    decide
  | .bool b, j, h => by
    cases h
    cases b <;> decide
  | .int i, j, h => by
    cases h
    have hlen := ofInt64_length_le i
    show (JsonNumber.ofInt64 i).text.length + 4 ≤ 6 * (8 + 1)
    omega
  | .decimal i, j, h => by
    rw [toJson_decimal] at h
    cases h
    have hlen := formatDecimal_length_le i
    show (Value.formatDecimal i true).toList.length + 4 ≤ 6 * (8 + 1)
    omega
  | .string s, j, h => by
    cases h
    have hlen := quotedLength_le s
    show quotedLength s + 4 ≤ 6 * (s.utf8ByteSize + 1)
    omega
  | .list items, j, h => by
    obtain ⟨js, hjs, rfl⟩ := toJson_list h
    have hsum := compactLengthList_le items hjs
    rw [JsonValue.compactLength, estimateValueBytes, Value.nodeCount]
    omega
  | .record fields, j, h => by
    simp only [Value.toJson, except_bind_ok_iff, pure, Except.pure, Except.ok.injEq] at h
    obtain ⟨es, hes, rfl⟩ := h
    have hsum := compactLengthEntries_le fields hes
    have hmap := mapFromIter_length_le es
    rw [← compactLengthEntries_add, ← compactLengthEntries_add] at hmap
    rw [JsonValue.compactLength, estimateValueBytes, Value.nodeCount]
    omega
  | .fileHandle _ _, j, h => by cases h

theorem compactLengthList_le : ∀ (vs : List Value) {js : List JsonValue},
    Value.toJsonList vs = .ok js → compactLengthList js + js.length ≤
      6 * (estimateValueBytes.estimateItems vs + Value.nodeCountList vs)
  | [], js, h => by
    cases h
    exact Nat.le_refl _
  | v :: vs, js, h => by
    simp only [Value.toJsonList, except_bind_ok_iff, pure, Except.pure, Except.ok.injEq] at h
    obtain ⟨j, hj, rest, hrest, rfl⟩ := h
    have hhead := compactLength_add_le v hj
    have htail := compactLengthList_le vs hrest
    rw [compactLengthList, length_cons, estimateValueBytes.estimateItems, Value.nodeCountList]
    omega

theorem compactLengthEntries_le : ∀ (fs : List (RecordField Value)) {es : List JsonEntry},
    Value.toJsonFields fs = .ok es → compactLengthEntries es + es.length ≤
      6 * (estimateValueBytes.estimateFields fs + Value.nodeCountFields fs)
  | [], es, h => by
    cases h
    exact Nat.le_refl _
  | ⟨key, hash, value⟩ :: fs, es, h => by
    simp only [Value.toJsonFields, except_bind_ok_iff, pure, Except.pure, Except.ok.injEq] at h
    obtain ⟨j, hj, rest, hrest, rfl⟩ := h
    have hkey := quotedLength_le key
    have hhead := compactLength_add_le value hj
    have htail := compactLengthEntries_le fs hrest
    rw [compactLengthEntries, length_cons, estimateValueBytes.estimateFields,
      Value.nodeCountFields]
    dsimp only
    omega

end

/-- The text of a value has six bytes at most for each byte and each value that is charged. -/
theorem compactLength_le {v : Value} {j : JsonValue} (h : v.toJson = .ok j) :
    j.compactLength ≤ 6 * estimateValueBytes v + 6 * v.nodeCount := by
  have hle := compactLength_add_le v h
  omega

end Mizu
