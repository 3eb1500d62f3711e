import Mizu.Ipc.Dehydrate
import Mizu.Types.JsonRoundTrip

/-!
# Payloads on their way to the worker

A value that was read as JSON has no files and is in order (`deserialize_bounded`), but it may be nested
deeper than the wire brings over: `payload_delivered_iff`.
-/

namespace Mizu

open Exec

namespace SerdeJson

variable {serde : SerdeJson} {max : Option Nat}

theorem enterValue_depth {nodes depth n : Nat} (h : enterValue max nodes depth = .ok n) :
    0 < maxJsonDepth + 1 - depth := by
  have hle := (enterValue_ok.mp h).1.1
  omega

theorem scalar_bounded {nodes depth n : Nat} {a v : Value} (hwf : a.WellFormed) (hfree : a.FileFree)
    (hdepth : a.depth = 0)
    (h : (do return (a, ← enterValue max nodes depth) : Except String (Value × Nat)) = .ok (v, n)) :
    v.Bounded (maxJsonDepth + 1 - depth) := by
  obtain ⟨rfl, ⟨hle, -⟩, -⟩ := scalar_ok.mp h
  exact ⟨hwf, hfree, by omega⟩

theorem number_bounded {v : Value} {n : Nat} (h : ∃ i, v = .int i ∨ v = .decimal i) (hn : 0 < n) :
    v.Bounded n := by
  obtain ⟨i, rfl | rfl⟩ := h <;> exact ⟨trivial, trivial, hn⟩

mutual

/-- Whatever is read of a text has no files, is in order and is nested no deeper than is accepted. -/
theorem deserialize_bounded : ∀ (t : JsonText) {nodes depth n : Nat} {v : Value},
    serde.deserialize max nodes depth t = .ok (v, n) → v.Bounded (maxJsonDepth + 1 - depth)
  | .missing message, nodes, depth, n, v, h => by
    rw [deserialize] at h
    cases h
  | .malformed message, nodes, depth, n, v, h => by
    rw [deserialize, except_bind_ok_iff] at h
    obtain ⟨_, -, ⟨⟩⟩ := h
  | .null, nodes, depth, n, v, h => by
    rw [deserialize] at h
    exact @scalar_bounded _ _ _ _ .null v trivial trivial rfl h
  | .bool b, nodes, depth, n, v, h => by
    rw [deserialize] at h
    exact @scalar_bounded _ _ _ _ (.bool b) v trivial trivial rfl h
  | .string s, nodes, depth, n, v, h => by
    rw [deserialize] at h
    exact @scalar_bounded _ _ _ _ (.string s) v trivial trivial rfl h
  | .number num, nodes, depth, n, v, h => by
    rw [deserialize] at h
    simp only [except_bind_ok_iff, pure, Except.pure, Except.ok.injEq, Prod.mk.injEq] at h
    obtain ⟨_, henter, w, hnum, rfl, -⟩ := h
    exact number_bounded (number_number hnum) (enterValue_depth henter)
  | .array items stop, nodes, depth, n, v, h => by
    rw [deserialize] at h
    simp only [except_bind_ok_iff, pure, Except.pure, Except.ok.injEq, Prod.mk.injEq, Prod.exists] at h
    obtain ⟨_, henter, vs, _, hseq, rfl, -⟩ := h
    refine Value.bounded_list (enterValue_depth henter) ?_
    rw [show maxJsonDepth + 1 - depth - 1 = maxJsonDepth + 1 - (depth + 1) by omega]
    exact visitSeq_bounded items hseq
  | .object members stop, nodes, depth, n, v, h => by
    rw [deserialize, except_bind_ok_iff] at h
    obtain ⟨_, henter, hmap⟩ := h
    exact visitMap_bounded members (enterValue_depth henter) (List.forall_mem_nil _) hmap

theorem visitSeq_bounded : ∀ (ts : List JsonText) {nodes depth n : Nat} {stop : Option String}
    {vs : List Value}, serde.visitSeq max nodes depth stop ts = .ok (vs, n) →
    ∀ v ∈ vs, v.Bounded (maxJsonDepth + 1 - (depth + 1))
  | [], nodes, depth, n, stop, vs, h => by
    cases stop with
    | some message =>
      rw [visitSeq] at h
      cases h
    | none =>
      rw [visitSeq] at h
      cases h
      exact List.forall_mem_nil _
  | t :: ts, nodes, depth, n, stop, vs, h => by
    rw [visitSeq] at h
    simp only [except_bind_ok_iff, pure, Except.pure, Except.ok.injEq, Prod.mk.injEq, Prod.exists] at h
    obtain ⟨v, _, hv, vs', _, hvs, rfl, -⟩ := h
    exact List.forall_mem_cons.mpr ⟨deserialize_bounded t hv, visitSeq_bounded ts hvs⟩

theorem visitMap_bounded : ∀ (members : List JsonMember) {nodes depth n : Nat} {stop : Option String}
    {before : List (String × Value)} {v : Value}, 0 < maxJsonDepth + 1 - depth →
    (∀ p ∈ before, p.2.Bounded (maxJsonDepth + 1 - depth - 1)) →
    serde.visitMap max nodes depth stop before members = .ok (v, n) →
    v.Bounded (maxJsonDepth + 1 - depth)
  | [], nodes, depth, n, stop, before, v, hdepth, hbefore, h => by
    cases stop with
    | some message =>
      rw [visitMap] at h
      cases h
    | none =>
      rw [visitMap] at h
      cases h
      exact Value.bounded_record hdepth hbefore
  | .mk key t :: members, nodes, depth, n, stop, before, v, hdepth, hbefore, h => by
    rw [visitMap] at h
    split at h
    · simp only [except_bind_ok_iff, pure, Except.pure, Except.ok.injEq, Prod.mk.injEq] at h
      obtain ⟨w, hw, rfl, -⟩ := h
      exact number_bounded (numberMember_number hw) hdepth
    · simp only [except_bind_ok_iff, Prod.exists] at h
      obtain ⟨w, _, hw, hrest⟩ := h
      refine visitMap_bounded members hdepth ?_ hrest
      refine List.forall_mem_append.mpr ⟨hbefore, fun p hp => ?_⟩
      obtain rfl := List.mem_singleton.mp hp
      rw [show maxJsonDepth + 1 - depth - 1 = maxJsonDepth + 1 - (depth + 1) by omega]
      exact deserialize_bounded t hw

end

theorem fromJsonStr_bounded {payload : String} {v : Value} (h : serde.fromJsonStr payload = .ok v) :
    v.Bounded (maxJsonDepth + 1) := by
  obtain ⟨n, hn⟩ := fromJson_ok.mp h
  exact deserialize_bounded _ hn

end SerdeJson

/-- An accepted payload is delivered, as it is, exactly if it is nested no deeper than the wire brings
over. -/
theorem payload_delivered_iff (serde : SerdeJson) (payload : String) (v : Value)
    (h : serde.fromJsonStr payload = .ok v) :
    Rehydrate.value v.toWire 0 = .ok v ↔ v.depth ≤ Rehydrate.maxValueDepth := by
  have hv := SerdeJson.fromJsonStr_bounded h
  constructor
  · intro hok
    by_contra hdeep
    obtain ⟨e, he⟩ := Rehydrate.value_toWire_deep v 0 (by omega)
    rw [he] at hok
    cases hok
  · exact fun hle => Rehydrate.value_toWire v 0 hv.wellFormed hv.fileFree (by omega)

/-! ## A payload that is too deep -/

/-- `n` arrays around a null. -/
def nestedText : Nat → JsonText
  | 0 => .null
  | n + 1 => .array [nestedText n] none

def nestedValue : Nat → Value
  | 0 => .null
  | n + 1 => .list [nestedValue n]

theorem nestedText_plain (n : Nat) : (nestedText n).Plain := by
  induction n with
  | zero => trivial
  | succ n ih => exact ⟨ih, trivial⟩

theorem nestedText_denotes (f64 : ScaledF64) (n : Nat) : (nestedText n).Denotes f64 (nestedValue n) := by
  induction n with
  | zero => rfl
  | succ n ih => exact ⟨rfl, _, ⟨_, [], ih, rfl, rfl⟩, rfl⟩

theorem nestedText_depth (n : Nat) : (nestedText n).depth = n := by
  induction n with
  | zero => rfl
  | succ n ih => simp [nestedText, JsonText.depth, JsonText.depthList, ih]

theorem nestedValue_depth (n : Nat) : (nestedValue n).depth = n := by
  induction n with
  | zero => rfl
  | succ n ih => simp [nestedValue, Value.depth, Value.depthList, ih]

theorem nestedText_nodeCount (n : Nat) : (nestedText n).nodeCount = n + 1 := by
  induction n with
  | zero => rfl
  | succ n ih => simp [nestedText, JsonText.nodeCount, JsonText.nodeCountList, ih, Nat.add_comm]

/-- The text of `n` arrays around a null, and a serde_json that reads it. -/
def nestedPayload (n : Nat) : String := "".pushn '[' n ++ "null" ++ "".pushn ']' n

def nestedSerde (n : Nat) : SerdeJson := readerOf (nestedPayload n) (nestedText n) ""

theorem nestedSerde_accepts {n : Nat} (h : n ≤ maxJsonDepth) :
    (nestedSerde n).fromJsonStr (nestedPayload n) = .ok (nestedValue n) := by
  have hfirst := readerOf_first (nestedPayload n) (nestedText n) ""
  have hplain : ((nestedSerde n).first (nestedPayload n)).1.Plain := by
    rw [nestedSerde, hfirst]
    exact nestedText_plain n
  refine (SerdeJson.fromJsonStr_iff hplain).mpr ⟨?_, ?_, ?_⟩ <;> rw [nestedSerde, hfirst]
  · exact nestedText_denotes _ n
  · exact (nestedText_depth n).trans_le h
  · rw [nestedText_nodeCount]
    exact Nat.succ_le_of_lt (h.trans_lt (by decide))

/-- 129 arrays are accepted from the network and refused by the wire. -/
theorem deep_payload_refused :
    ¬∀ (serde : SerdeJson) (payload : String) (v : Value), serde.fromJsonStr payload = .ok v →
      Rehydrate.value v.toWire 0 = .ok v := by
  intro h
  have hok := h _ _ _ (nestedSerde_accepts (n := 129) (by decide))
  obtain ⟨e, he⟩ := Rehydrate.value_toWire_deep (nestedValue 129) 0 (by rw [nestedValue_depth]; decide)
  rw [he] at hok
  cases hok

theorem payload_delivered_iff_two :
    Rehydrate.value (nestedValue 2).toWire 0 = .ok (nestedValue 2) ↔
      (nestedValue 2).depth ≤ Rehydrate.maxValueDepth :=
  payload_delivered_iff (nestedSerde 2) (nestedPayload 2) (nestedValue 2)
    (nestedSerde_accepts (by decide))

end Mizu
