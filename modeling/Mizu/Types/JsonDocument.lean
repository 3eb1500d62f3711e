import Mizu.Types.Json

/-!
# Documents

What a JSON text means, independently of how it is read: `JsonText.Denotes`, with the first of equal keys
kept at every depth. `deserialize_iff` says that the visitors compute the denotation of what has no member
with the key of numbers; `from_json_str_exact_iff` says for which texts `fromJsonStr` accepts exactly the
documents.
-/

namespace Mizu

open Exec

namespace JsonText

mutual

/-- No member at any depth has the key of numbers. -/
def Plain : JsonText → Prop
  | array items _ => PlainList items
  | object members _ => PlainMembers members
  | _ => True

def PlainList : List JsonText → Prop
  | [] => True
  | t :: ts => t.Plain ∧ PlainList ts

def PlainMembers : List JsonMember → Prop
  | [] => True
  | .mk key t :: members => key ≠ numberKey ∧ t.Plain ∧ PlainMembers members

end

mutual

/-- The text is complete and denotes the value. -/
def Denotes (f64 : ScaledF64) : JsonText → Value → Prop
  | malformed _, _ => False
  | missing _, _ => False
  | null, v => v = .null
  | bool b, v => v = .bool b
  | number n, v => NumberDenotes f64 n.text v
  | string s, v => v = .string s
  | array items stop, v => stop = none ∧ ∃ vs, DenotesList f64 items vs ∧ v = .list vs
  | object members stop, v =>
    stop = none ∧ ∃ pairs, DenotesMembers f64 members pairs ∧ v = Value.recordFromUnsorted pairs

def DenotesList (f64 : ScaledF64) : List JsonText → List Value → Prop
  | [], vs => vs = []
  | t :: ts, vs => ∃ v vs', t.Denotes f64 v ∧ DenotesList f64 ts vs' ∧ vs = v :: vs'

def DenotesMembers (f64 : ScaledF64) : List JsonMember → List (String × Value) → Prop
  | [], pairs => pairs = []
  | .mk key t :: members, pairs =>
    ∃ v pairs', t.Denotes f64 v ∧ DenotesMembers f64 members pairs' ∧ pairs = (key, v) :: pairs'

end

mutual

/-- How many arrays and objects lie around the innermost value. -/
def depth : JsonText → Nat
  | array items _ => depthList items
  | object members _ => depthMembers members
  | _ => 0

def depthList : List JsonText → Nat
  | [] => 0
  | t :: ts => max (t.depth + 1) (depthList ts)

def depthMembers : List JsonMember → Nat
  | [] => 0
  | .mk _ t :: members => max (t.depth + 1) (depthMembers members)

end

mutual

def nodeCount : JsonText → Nat
  | array items _ => 1 + nodeCountList items
  | object members _ => 1 + nodeCountMembers members
  | _ => 1

def nodeCountList : List JsonText → Nat
  | [] => 0
  | t :: ts => t.nodeCount + nodeCountList ts

def nodeCountMembers : List JsonMember → Nat
  | [] => 0
  | .mk _ t :: members => t.nodeCount + nodeCountMembers members

end

end JsonText

/-! ## What the visitors compute -/

namespace SerdeJson

open JsonText

variable (serde : SerdeJson)

/-- Within the limits: `count` more values, nested `below` deeper. -/
def Within (max : Option Nat) (nodes depth count below : Nat) : Prop :=
  depth + below ≤ maxJsonDepth ∧ ∀ m ∈ max, nodes + count ≤ m

section Within

variable {max : Option Nat} {nodes depth count below count' below' : Nat}

theorem Within.room (h : Within max nodes depth 1 0) : Within max (nodes + 1) depth 0 0 := h

/-- A container is entered, and then its elements are read. -/
theorem Within.enter (h : Within max nodes depth (1 + count) below) :
    Within max nodes depth 1 0 ∧ Within max (nodes + 1) depth count below :=
  ⟨⟨by have := h.1; omega, fun m hm => by have := h.2 m hm; omega⟩,
    h.1, fun m hm => by have := h.2 m hm; omega⟩

theorem Within.of_entered (h : Within max (nodes + 1) depth count below) :
    Within max nodes depth (1 + count) below :=
  ⟨h.1, fun m hm => by have := h.2 m hm; omega⟩

theorem Within.append (h : Within max nodes (depth + 1) count below)
    (h' : Within max (nodes + count) depth count' below') :
    Within max nodes depth (count + count') (Max.max (below + 1) below') :=
  ⟨by have := h.1; have := h'.1; omega, fun m hm => by have := h'.2 m hm; omega⟩

theorem Within.split (h : Within max nodes depth (count + count') (Max.max (below + 1) below')) :
    Within max nodes (depth + 1) count below ∧ Within max (nodes + count) depth count' below' := by
  have hle := h.1
  exact ⟨⟨by omega, fun m hm => by have := h.2 m hm; omega⟩,
    by omega, fun m hm => by have := h.2 m hm; omega⟩

theorem Within.after (h : Within max nodes depth 0 0) (h' : Within max nodes (depth + 1) count below) :
    Within max (nodes + count) depth 0 0 :=
  ⟨h.1, h'.2⟩

end Within

variable {max : Option Nat}

theorem enterValue_ok {nodes depth n : Nat} :
    enterValue max nodes depth = .ok n ↔ Within max nodes depth 1 0 ∧ n = nodes + 1 := by
  unfold enterValue Within
  by_cases hnodes : ∃ m ∈ max, nodes + 1 > m
  · grind
  rw [if_neg hnodes]
  have hle : ∀ m ∈ max, nodes + 1 ≤ m := fun m hm =>
    Nat.not_lt.mp fun hlt => hnodes ⟨m, hm, hlt⟩
  by_cases hdepth : depth > maxJsonDepth
  · rw [if_pos hdepth]
    exact ⟨nofun, fun h => absurd h.1.1 (by omega)⟩
  · grind

theorem number_ok {n : JsonNumber} {v : Value} :
    serde.number n.text = .ok v ↔ NumberDenotes serde.f64 n.text v := by
  rw [← parseJsonNumberExact_iff]
  unfold number
  cases parseJsonNumberExact serde.f64 n.text with
  | error e => exact ⟨nofun, nofun⟩
  | ok w => simp

/-- A scalar is within the limits if it may be entered. -/
theorem scalar_ok {α : Type} {nodes depth n : Nat} {a b : α} :
    (do return (a, ← enterValue max nodes depth) : Except String (α × Nat)) = .ok (b, n) ↔
      b = a ∧ Within max nodes depth 1 0 ∧ n = nodes + 1 := by
  rw [except_bind_ok_iff]
  simp only [enterValue_ok, pure, Except.pure, Except.ok.injEq, Prod.mk.injEq]
  constructor
  · rintro ⟨_, ⟨hw, rfl⟩, rfl, rfl⟩
    exact ⟨rfl, hw, rfl⟩
  · rintro ⟨rfl, hw, rfl⟩
    exact ⟨_, ⟨hw, rfl⟩, rfl, rfl⟩

variable {serde}

mutual

theorem deserialize_iff : ∀ (t : JsonText) {nodes depth n : Nat} {v : Value},
    t.Plain → (serde.deserialize max nodes depth t = .ok (v, n) ↔
      t.Denotes serde.f64 v ∧ Within max nodes depth t.nodeCount t.depth ∧ n = nodes + t.nodeCount)
  | .missing message, nodes, depth, n, v, _ => by
    rw [deserialize, JsonText.Denotes]
    exact ⟨nofun, nofun⟩
  | .malformed message, nodes, depth, n, v, _ => by
    rw [deserialize, JsonText.Denotes, except_bind_ok_iff]
    exact ⟨nofun, nofun⟩
  | .null, nodes, depth, n, v, _ => by
    rw [deserialize, JsonText.Denotes]
    exact scalar_ok
  | .bool b, nodes, depth, n, v, _ => by
    rw [deserialize, JsonText.Denotes]
    exact scalar_ok
  | .string s, nodes, depth, n, v, _ => by
    rw [deserialize, JsonText.Denotes]
    exact scalar_ok
  | .number num, nodes, depth, n, v, _ => by
    rw [deserialize, JsonText.Denotes, except_bind_ok_iff, ← number_ok]
    simp only [enterValue_ok, except_bind_ok_iff, pure, Except.pure, Except.ok.injEq, Prod.mk.injEq]
    constructor
    · rintro ⟨_, ⟨hw, rfl⟩, _, hnum, rfl, rfl⟩
      exact ⟨hnum, hw, rfl⟩
    · rintro ⟨hnum, hw, rfl⟩
      exact ⟨_, ⟨hw, rfl⟩, v, hnum, rfl, rfl⟩
  | .array items stop, nodes, depth, n, v, hplain => by
    rw [deserialize, JsonText.Denotes, except_bind_ok_iff]
    simp only [enterValue_ok, except_bind_ok_iff, pure, Except.pure, Except.ok.injEq, Prod.mk.injEq,
      Prod.exists, nodeCount, JsonText.depth]
    constructor
    · rintro ⟨_, ⟨hw, rfl⟩, vs, _, hseq, rfl, rfl⟩
      obtain ⟨rfl, hvs, hw', rfl⟩ := (visitSeq_iff items hplain hw.room).mp hseq
      exact ⟨⟨rfl, vs, hvs, rfl⟩, hw'.of_entered, by omega⟩
    · rintro ⟨⟨rfl, vs, hvs, rfl⟩, hw, rfl⟩
      obtain ⟨henter, hrest⟩ := hw.enter
      exact ⟨_, ⟨henter, rfl⟩, vs, _, (visitSeq_iff items hplain henter.room).mpr
        ⟨rfl, hvs, hrest, rfl⟩, rfl, by omega⟩
  | .object members stop, nodes, depth, n, v, hplain => by
    rw [deserialize, JsonText.Denotes, except_bind_ok_iff]
    simp only [enterValue_ok, nodeCount, JsonText.depth]
    constructor
    · rintro ⟨_, ⟨hw, rfl⟩, hmap⟩
      obtain ⟨rfl, pairs, hpairs, rfl, hw', rfl⟩ := (visitMap_iff members hplain hw.room).mp hmap
      exact ⟨⟨rfl, pairs, hpairs, rfl⟩, hw'.of_entered, by omega⟩
    · rintro ⟨⟨rfl, pairs, hpairs, rfl⟩, hw, rfl⟩
      obtain ⟨henter, hrest⟩ := hw.enter
      exact ⟨_, ⟨henter, rfl⟩, (visitMap_iff members hplain henter.room).mpr
        ⟨rfl, pairs, hpairs, rfl, hrest, by omega⟩⟩

theorem visitSeq_iff : ∀ (ts : List JsonText) {nodes depth n : Nat}
    {stop : Option String} {vs : List Value}, PlainList ts → Within max nodes depth 0 0 →
    (serde.visitSeq max nodes depth stop ts = .ok (vs, n) ↔
      stop = none ∧ DenotesList serde.f64 ts vs ∧
        Within max nodes depth (nodeCountList ts) (depthList ts) ∧ n = nodes + nodeCountList ts)
  | [], nodes, depth, n, stop, vs, _, hroom => by
    cases stop with
    | none =>
      rw [visitSeq, DenotesList]
      simp only [Except.ok.injEq, Prod.mk.injEq, nodeCountList, depthList]
      exact ⟨fun ⟨hvs, hn⟩ => ⟨trivial, hvs.symm, hroom, hn.symm⟩, fun ⟨_, hvs, _, hn⟩ => ⟨hvs.symm, hn.symm⟩⟩
    | some message =>
      rw [visitSeq]
      exact ⟨nofun, nofun⟩
  | t :: ts, nodes, depth, n, stop, vs, hplain, hroom => by
    rw [visitSeq, DenotesList]
    simp only [except_bind_ok_iff, pure, Except.pure, Except.ok.injEq, Prod.mk.injEq, Prod.exists,
      nodeCountList, depthList, deserialize_iff t hplain.1]
    constructor
    · rintro ⟨v, _, ⟨hv, hw, rfl⟩, vs', _, hseq, rfl, rfl⟩
      obtain ⟨rfl, hvs, hw', rfl⟩ := (visitSeq_iff ts hplain.2 (hroom.after hw)).mp hseq
      exact ⟨rfl, ⟨v, vs', hv, hvs, rfl⟩, hw.append hw', by omega⟩
    · rintro ⟨rfl, ⟨v, vs', hv, hvs, rfl⟩, hw, rfl⟩
      obtain ⟨hhead, htail⟩ := hw.split
      exact ⟨v, _, ⟨hv, hhead, rfl⟩, vs', _, (visitSeq_iff ts hplain.2 (hroom.after hhead)).mpr
        ⟨rfl, hvs, htail, rfl⟩, rfl, by omega⟩

theorem visitMap_iff : ∀ (members : List JsonMember) {nodes depth n : Nat}
    {stop : Option String} {before : List (String × Value)} {v : Value}, PlainMembers members →
    Within max nodes depth 0 0 → (serde.visitMap max nodes depth stop before members = .ok (v, n) ↔
      stop = none ∧ ∃ pairs, DenotesMembers serde.f64 members pairs ∧
        v = Value.recordFromUnsorted (before ++ pairs) ∧
        Within max nodes depth (nodeCountMembers members) (depthMembers members) ∧
        n = nodes + nodeCountMembers members)
  | [], nodes, depth, n, stop, before, v, _, hroom => by
    cases stop with
    | none =>
      rw [visitMap]
      simp only [DenotesMembers, Except.ok.injEq, Prod.mk.injEq, nodeCountMembers, depthMembers]
      exact ⟨fun ⟨hv, hn⟩ => ⟨trivial, [], rfl, by rw [List.append_nil, hv], hroom, hn.symm⟩,
        fun ⟨_, pairs, hpairs, hv, _, hn⟩ => ⟨by rw [hv, hpairs, List.append_nil], hn.symm⟩⟩
    | some message =>
      rw [visitMap]
      exact ⟨nofun, nofun⟩
  | .mk key t :: members, nodes, depth, n, stop, before, v, hplain, hroom => by
    rw [visitMap, if_neg hplain.1]
    simp only [DenotesMembers, except_bind_ok_iff, Prod.exists, nodeCountMembers, depthMembers,
      deserialize_iff t hplain.2.1]
    constructor
    · rintro ⟨w, _, ⟨hw, hwithin, rfl⟩, hmap⟩
      obtain ⟨rfl, pairs, hpairs, rfl, hrest, rfl⟩ :=
        (visitMap_iff members hplain.2.2 (hroom.after hwithin)).mp hmap
      exact ⟨rfl, (key, w) :: pairs, ⟨w, pairs, hw, hpairs, rfl⟩, by rw [List.append_assoc]; rfl,
        hwithin.append hrest, by omega⟩
    · rintro ⟨rfl, _, ⟨w, pairs, hw, hpairs, rfl⟩, rfl, hwithin, rfl⟩
      obtain ⟨hhead, htail⟩ := hwithin.split
      exact ⟨w, _, ⟨hw, hhead, rfl⟩, (visitMap_iff members hplain.2.2 (hroom.after hhead)).mpr
        ⟨rfl, pairs, hpairs, by rw [List.append_assoc]; rfl, htail, by omega⟩⟩

end

/-! ## Whole texts -/

variable (serde) (payload : String)

/-- JSON whitespace. -/
def isJsonBlank (bytes : List UInt8) : Bool :=
  bytes.all fun b => b = 0x20 || b = 0x09 || b = 0x0a || b = 0x0d

/-- What is read first, and what follows it. -/
def first : JsonText × List UInt8 := serde.read payload.toByteArray.data.toList

/-- The text starts with a document within the limits that denotes `v`. -/
structure StartsWith (v : Value) : Prop where
  denotes : (serde.first payload).1.Denotes serde.f64 v
  depth_le : (serde.first payload).1.depth ≤ maxJsonDepth
  nodes_le : (serde.first payload).1.nodeCount ≤ maxJsonNodes

/-- The whole text is a document within the limits that denotes `v`. -/
structure Document (v : Value) : Prop extends StartsWith serde payload v where
  blank : isJsonBlank (serde.first payload).2 = true

variable {serde payload}

theorem fromJson_ok {bytes : List UInt8} {v : Value} : serde.fromJson max bytes = .ok v ↔
      ∃ n, serde.deserialize max 0 0 (serde.read bytes).1 = .ok (v, n) := by
  grind [fromJson]

theorem fromJsonStr_iff (hplain : (serde.first payload).1.Plain) {v : Value} :
    serde.fromJsonStr payload = .ok v ↔ serde.StartsWith payload v := by
  rw [fromJsonStr, fromJson_ok]
  constructor
  · rintro ⟨n, h⟩
    obtain ⟨hdenotes, ⟨hdepth, hnodes⟩, -⟩ := (deserialize_iff _ hplain).mp h
    exact ⟨hdenotes, by simpa using hdepth, by simpa using hnodes maxJsonNodes rfl⟩
  · rintro ⟨hdenotes, hdepth, hnodes⟩
    refine ⟨_, (deserialize_iff _ hplain).mpr ⟨hdenotes, ⟨by simpa using hdepth, ?_⟩, rfl⟩⟩
    rintro m ⟨⟩
    simpa using hnodes

end SerdeJson

/-- What follows the first value is ignored: the entry accepts exactly the documents for a text in which
only whitespace follows, or which does not even start with a document. -/
theorem from_json_str_exact_iff (serde : SerdeJson) (payload : String)
    (hplain : (serde.first payload).1.Plain) :
    (∀ v, serde.fromJsonStr payload = .ok v ↔ serde.Document payload v) ↔
      SerdeJson.isJsonBlank (serde.first payload).2 = true ∨ ¬∃ v, serde.StartsWith payload v := by
  constructor
  · intro h
    by_cases hstart : ∃ v, serde.StartsWith payload v
    · obtain ⟨v, hv⟩ := hstart
      exact .inl ((h v).mp ((SerdeJson.fromJsonStr_iff hplain).mpr hv)).blank
    · exact .inr hstart
  · intro h v
    rw [SerdeJson.fromJsonStr_iff hplain]
    refine ⟨fun hv => ⟨hv, ?_⟩, fun hv => hv.toStartsWith⟩
    exact h.resolve_right fun hnone => hnone ⟨v, hv⟩

/-- Reads one text only, and every other as no JSON. -/
def readerOf (payload : String) (t : JsonText) (rest : String) : SerdeJson where
  f64 _ := none
  read bytes :=
    if bytes = payload.toByteArray.data.toList then (t, rest.toByteArray.data.toList)
    else (.malformed "expected value", bytes)
  write _ := payload.toByteArray.data.toList
  endMap _ _ := "trailing comma"
  invalidType _ := "invalid type"

theorem readerOf_first (payload : String) (t : JsonText) (rest : String) :
    (readerOf payload t rest).first payload = (t, rest.toByteArray.data.toList) := by
  simp only [SerdeJson.first, readerOf, if_true]

def twoNumbers : SerdeJson := readerOf "1 2" (.number ⟨['1'], rfl⟩) " 2"

theorem twoNumbers_startsWith : twoNumbers.StartsWith "1 2" (.int 1) := by
  have hone : NumberDenotes twoNumbers.f64 ['1'] (.int 1) :=
    @NumberDenotes.int _ false ['1'] 1 (List.cons_ne_nil _ _) (by simp [AllDigits]) rfl
  constructor <;> rw [twoNumbers, readerOf_first]
  · exact hone
  · exact Nat.zero_le _
  · exact Nat.one_le_iff_ne_zero.mpr nofun

/-- Two numbers are read as the first one. -/
theorem from_json_str_ignores_rest :
    ¬∀ (serde : SerdeJson) (payload : String) (v : Value),
      serde.fromJsonStr payload = .ok v ↔ serde.Document payload v := by
  intro h
  have hplain : (twoNumbers.first "1 2").1.Plain := by
    rw [twoNumbers, readerOf_first]
    trivial
  have hread := (SerdeJson.fromJsonStr_iff hplain).mpr twoNumbers_startsWith
  have hblank := ((h twoNumbers "1 2" (.int 1)).mp hread).blank
  rw [twoNumbers, readerOf_first] at hblank
  exact absurd hblank (by decide)

theorem from_json_str_exact_iff_two :
    SerdeJson.isJsonBlank (twoNumbers.first "1 2").2 = false ∧
      ((∀ v, twoNumbers.fromJsonStr "1 2" = .ok v ↔ twoNumbers.Document "1 2" v) ↔
        SerdeJson.isJsonBlank (twoNumbers.first "1 2").2 = true ∨
          ¬∃ v, twoNumbers.StartsWith "1 2" v) := by
  have hfirst := readerOf_first "1 2" (.number ⟨['1'], rfl⟩) " 2"
  refine ⟨by rw [twoNumbers, hfirst]; decide, from_json_str_exact_iff twoNumbers "1 2" ?_⟩
  rw [twoNumbers, hfirst]
  trivial

end Mizu
