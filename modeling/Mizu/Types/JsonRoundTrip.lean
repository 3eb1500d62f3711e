import Mizu.Types.JsonDocument

/-!
# Values through JSON

What is written of a value is read back exactly if no record has the key of numbers:
`json_roundtrip_iff`. `toJson_denotes` is why it is, `plain_of_deserialize` why it must.
-/

namespace Mizu

open Exec List

open JsonText

mutual

/-- What a JSON value is read as. -/
def JsonValue.text : JsonValue → JsonText
  | .null => .null
  | .bool b => .bool b
  | .number n => .number n
  | .string s => .string s
  | .array items => .array (textList items) none
  | .object entries => .object (textEntries entries) none

def textList : List JsonValue → List JsonText
  | [] => []
  | j :: js => j.text :: textList js

def textEntries : List JsonEntry → List JsonMember
  | [] => []
  | .mk key j :: es => .mk key j.text :: textEntries es

end

namespace Value

mutual

/-- No record at any depth has the key of numbers. -/
def Plain : Value → Prop
  | list items => PlainList items
  | record fields => PlainFields fields
  | _ => True

def PlainList : List Value → Prop
  | [] => True
  | v :: vs => v.Plain ∧ PlainList vs

def PlainFields : List (RecordField Value) → Prop
  | [] => True
  | f :: fs => f.key ≠ numberKey ∧ f.value.Plain ∧ PlainFields fs

end

end Value

/-! ## Encoding -/

variable {es : List JsonEntry}

theorem dedupEntries_of_lt (h : es.Pairwise fun a b => a.key < b.key) : dedupEntries es = es := by
  induction es with
  | nil => rfl
  | cons e es ih =>
    obtain ⟨hhead, htail⟩ := pairwise_cons.mp h
    rw [dedupEntries, ih htail]
    cases es with
    | nil => rfl
    | cons g gs => grind

/-- Entries in order are a map already. -/
theorem mapFromIter_of_lt (h : es.Pairwise fun a b => a.key < b.key) : mapFromIter es = es := by
  have hle : es.Pairwise fun a b => a.key ≤ b.key := h.imp fun hlt => hlt.le
  rw [mapFromIter, hle.insertionSort_eq, dedupEntries_of_lt h]

theorem toJsonFields_keys : ∀ {fs : List (RecordField Value)} {es : List JsonEntry},
    Value.toJsonFields fs = .ok es → es.map JsonEntry.key = fs.map (·.key)
  | [], es, h => by
    rw [Value.toJsonFields] at h
    cases h
    rfl
  | f :: fs, es, h => by
    simp only [Value.toJsonFields, except_bind_ok_iff, pure, Except.pure, Except.ok.injEq] at h
    obtain ⟨j, -, es', hes, rfl⟩ := h
    rw [map_cons, map_cons, toJsonFields_keys hes]
    rfl

theorem pairwise_keys {fs : List (RecordField Value)}
    (hkeys : es.map JsonEntry.key = fs.map (·.key)) (h : fs.Pairwise fun f g => f.key < g.key) :
    es.Pairwise fun a b => a.key < b.key := by
  rw [← pairwise_map (R := (· < ·)), hkeys, pairwise_map]
  exact h

variable {fields : List (RecordField Value)}

/-- The members of a record, in the order they are written. -/
theorem toJson_record {j : JsonValue}
    (hsorted : fields.Pairwise fun f g => f.key < g.key) (h : (Value.record fields).toJson = .ok j) :
    ∃ es, Value.toJsonFields fields = .ok es ∧ j = .object es := by
  simp only [Value.toJson, except_bind_ok_iff, pure, Except.pure, Except.ok.injEq] at h
  obtain ⟨es, hes, rfl⟩ := h
  exact ⟨es, hes, by rw [mapFromIter_of_lt (pairwise_keys (toJsonFields_keys hes) hsorted)]⟩

theorem toJson_list {items : List Value} {j : JsonValue} (h : (Value.list items).toJson = .ok j) :
    ∃ js, Value.toJsonList items = .ok js ∧ j = .array js := by
  simp only [Value.toJson, except_bind_ok_iff, pure, Except.pure, Except.ok.injEq] at h
  obtain ⟨js, hjs, rfl⟩ := h
  exact ⟨js, hjs, rfl⟩

theorem toJson_decimal (i : Int64) : (Value.decimal i).toJson =
    .ok (.number ⟨(Value.formatDecimal i true).toList, isJsonNumber_formatDecimal i⟩) := by
  have hvalid : JsonNumber.fromStr (Value.formatDecimal i true).toList =
      some ⟨_, isJsonNumber_formatDecimal i⟩ := dif_pos (isJsonNumber_formatDecimal i)
  rw [Value.toJson]
  unfold Value.decimalToJson
  rw [hvalid]

mutual

/-- A value that is encoded has no file at any depth. -/
theorem fileFree_of_toJson : ∀ {v : Value} {j : JsonValue}, v.toJson = .ok j → v.FileFree
  | .null, _, _ | .bool _, _, _ | .int _, _, _ | .decimal _, _, _ | .string _, _, _ => by simp [Value.FileFree]
  | .list items, j, h => by
    obtain ⟨js, hjs, -⟩ := toJson_list h
    rw [Value.FileFree]
    exact fileFree_of_toJsonList hjs
  | .record fields, j, h => by
    rw [Value.toJson] at h
    obtain ⟨es, hes, -⟩ := Exec.except_of_bind_ok h
    rw [Value.FileFree]
    exact fileFree_of_toJsonFields hes
  | .fileHandle _ _, j, h => by simp [Value.toJson] at h

theorem fileFree_of_toJsonList : ∀ {vs : List Value} {js : List JsonValue},
    Value.toJsonList vs = .ok js → Value.FileFreeList vs
  | [], _, _ => by simp [Value.FileFreeList]
  | v :: vs, js, h => by
    rw [Value.toJsonList] at h
    obtain ⟨j, hj, h⟩ := Exec.except_of_bind_ok h
    obtain ⟨js, hjs, -⟩ := Exec.except_of_bind_ok h
    rw [Value.FileFreeList]
    exact ⟨fileFree_of_toJson hj, fileFree_of_toJsonList hjs⟩

theorem fileFree_of_toJsonFields : ∀ {fs : List (RecordField Value)} {es : List JsonEntry},
    Value.toJsonFields fs = .ok es → Value.FileFreeFields fs
  | [], _, _ => by simp [Value.FileFreeFields]
  | f :: fs, es, h => by
    rw [Value.toJsonFields] at h
    obtain ⟨j, hj, h⟩ := Exec.except_of_bind_ok h
    obtain ⟨es, hes, -⟩ := Exec.except_of_bind_ok h
    rw [Value.FileFreeFields]
    exact ⟨fileFree_of_toJson hj, fileFree_of_toJsonFields hes⟩

end

mutual

theorem toJson_of_fileFree : ∀ {v : Value}, v.FileFree → ∃ j, v.toJson = .ok j
  | .null, _ | .bool _, _ | .int _, _ | .string _, _ => by simp [Value.toJson]
  | .decimal i, _ => ⟨_, toJson_decimal i⟩
  | .list items, h => by
    rw [Value.FileFree] at h
    obtain ⟨js, hjs⟩ := toJsonList_of_fileFree h
    exact ⟨.array js, by rw [Value.toJson, hjs]; rfl⟩
  | .record fields, h => by
    rw [Value.FileFree] at h
    obtain ⟨es, hes⟩ := toJsonFields_of_fileFree h
    exact ⟨.object (mapFromIter es), by rw [Value.toJson, hes]; rfl⟩
  | .fileHandle _ _, h => by simp [Value.FileFree] at h

theorem toJsonList_of_fileFree : ∀ {vs : List Value}, Value.FileFreeList vs → ∃ js, Value.toJsonList vs = .ok js
  | [], _ => ⟨[], by rw [Value.toJsonList]⟩
  | v :: vs, h => by
    rw [Value.FileFreeList] at h
    obtain ⟨j, hj⟩ := toJson_of_fileFree h.1
    obtain ⟨js, hjs⟩ := toJsonList_of_fileFree h.2
    exact ⟨j :: js, by rw [Value.toJsonList, hj, hjs]; rfl⟩

theorem toJsonFields_of_fileFree : ∀ {fs : List (RecordField Value)}, Value.FileFreeFields fs →
    ∃ es, Value.toJsonFields fs = .ok es
  | [], _ => ⟨[], by rw [Value.toJsonFields]⟩
  | f :: fs, h => by
    rw [Value.FileFreeFields] at h
    obtain ⟨j, hj⟩ := toJson_of_fileFree h.1
    obtain ⟨es, hes⟩ := toJsonFields_of_fileFree h.2
    exact ⟨.mk f.key j :: es, by rw [Value.toJsonFields, hj, hes]; rfl⟩

end

variable {v : Value}

/-- Exactly the values without a file are encoded. -/
theorem toJson_ok_iff : (∃ j, v.toJson = .ok j) ↔ v.FileFree :=
  ⟨fun ⟨_, h⟩ => fileFree_of_toJson h, toJson_of_fileFree⟩

/-- What is written of a value denotes it, and has its extent. -/
structure Writes (f64 : ScaledF64) (v : Value) (t : JsonText) : Prop where
  denotes : t.Denotes f64 v
  depth : t.depth = v.depth
  nodeCount : t.nodeCount = v.nodeCount
  plain : v.Plain → t.Plain

mutual

theorem toJson_writes (f64 : ScaledF64) : ∀ v : Value, v.WellFormed → v.FileFree →
    ∃ j, v.toJson = .ok j ∧ Writes f64 v j.text
  | .null, _, _ => ⟨.null, rfl, rfl, rfl, rfl, id⟩
  | .bool b, _, _ => ⟨.bool b, rfl, rfl, rfl, rfl, id⟩
  | .string s, _, _ => ⟨.string s, rfl, rfl, rfl, rfl, id⟩
  | .int i, _, _ => ⟨_, rfl, (parseJsonNumberExact_iff f64 ⟨_, isJsonNumber_int i.toInt⟩ _).mp
      (parseJsonNumberExact_int f64 i), rfl, rfl, id⟩
  | .decimal i, _, _ => ⟨_, toJson_decimal i, (parseJsonNumberExact_iff f64
      ⟨_, isJsonNumber_formatDecimal i⟩ _).mp (parseJsonNumberExact_formatDecimal f64 i), rfl, rfl, id⟩
  | .list items, hwf, hfree => by
    obtain ⟨js, hjs, hdenotes, hdepth, hcount, hplain⟩ := toJsonList_writes f64 items hwf hfree
    refine ⟨.array js, by rw [Value.toJson, hjs]; rfl, ⟨rfl, items, hdenotes, rfl⟩, hdepth, ?_, hplain⟩
    exact congrArg (1 + ·) hcount
  | .record fields, hwf, hfree => by
    obtain ⟨hsorted, hhash, hfields⟩ := hwf
    obtain ⟨es, hes, hdenotes, hdepth, hcount, hplain⟩ := toJsonFields_writes f64 fields hfields hfree
    have hmap := mapFromIter_of_lt (pairwise_keys (toJsonFields_keys hes) hsorted)
    have hj : (Value.record fields).toJson = .ok (.object (mapFromIter es)) := by
      rw [Value.toJson, hes]
      rfl
    refine ⟨.object es, by rw [hj, hmap],
      ⟨rfl, _, hdenotes, (Value.recordFromUnsorted_fields hsorted hhash).symm⟩, hdepth, ?_, hplain⟩
    exact congrArg (1 + ·) hcount
  | .fileHandle _ _, _, hfree => hfree.elim

theorem toJsonList_writes (f64 : ScaledF64) : ∀ vs : List Value, Value.WellFormedList vs →
    Value.FileFreeList vs → ∃ js, Value.toJsonList vs = .ok js ∧
      DenotesList f64 (textList js) vs ∧ depthList (textList js) = Value.depthList vs ∧
      nodeCountList (textList js) = Value.nodeCountList vs ∧
      (Value.PlainList vs → PlainList (textList js))
  | [], _, _ => ⟨[], rfl, rfl, rfl, rfl, id⟩
  | v :: vs, hwf, hfree => by
    obtain ⟨j, hj, hdenotes, hdepth, hcount, hplain⟩ := toJson_writes f64 v hwf.1 hfree.1
    obtain ⟨js, hjs, hdenotes', hdepth', hcount', hplain'⟩ := toJsonList_writes f64 vs hwf.2 hfree.2
    refine ⟨j :: js, by rw [Value.toJsonList, hj, hjs]; rfl, ⟨v, vs, hdenotes, hdenotes', rfl⟩, ?_, ?_,
      fun hp => ⟨hplain hp.1, hplain' hp.2⟩⟩
    · rw [textList, depthList, hdepth, hdepth', Value.depthList]
    · rw [textList, nodeCountList, hcount, hcount', Value.nodeCountList]

theorem toJsonFields_writes (f64 : ScaledF64) : ∀ fs : List (RecordField Value),
    Value.WellFormedFields fs → Value.FileFreeFields fs → ∃ es, Value.toJsonFields fs = .ok es ∧
      DenotesMembers f64 (textEntries es) (fs.map fun f => (f.key, f.value)) ∧
      depthMembers (textEntries es) = Value.depthFields fs ∧
      nodeCountMembers (textEntries es) = Value.nodeCountFields fs ∧
      (Value.PlainFields fs → PlainMembers (textEntries es))
  | [], _, _ => ⟨[], rfl, rfl, rfl, rfl, id⟩
  | f :: fs, hwf, hfree => by
    obtain ⟨j, hj, hdenotes, hdepth, hcount, hplain⟩ := toJson_writes f64 f.value hwf.1 hfree.1
    obtain ⟨es, hes, hdenotes', hdepth', hcount', hplain'⟩ := toJsonFields_writes f64 fs hwf.2 hfree.2
    refine ⟨.mk f.key j :: es, by rw [Value.toJsonFields, hj, hes]; rfl,
      ⟨f.value, _, hdenotes, hdenotes', rfl⟩, ?_, ?_, fun hp => ⟨hp.1, hplain hp.2.1, hplain' hp.2.2⟩⟩
    · rw [textEntries, depthMembers, hdepth, hdepth', Value.depthFields]
    · rw [textEntries, nodeCountMembers, hcount, hcount', Value.nodeCountFields]

end

/-! ## Decoding -/

theorem parsePlainNumber_number {s int frac : List Char}
    (h : parsePlainNumber s int frac = .ok v) : ∃ i, v = .int i ∨ v = .decimal i := by
  unfold parsePlainNumber at h
  split at h
  · cases h
  split at h
  · exact ⟨_, .inl (Except.ok.inj h).symm⟩
  split at h
  · cases h
  dsimp only at h
  split at h
  · cases h
  split at h
  · cases h
  · exact ⟨_, .inr (Except.ok.inj h).symm⟩

theorem parseJsonNumberExact_number {f64 : ScaledF64} {s : List Char}
    (h : parseJsonNumberExact f64 s = .ok v) : ∃ i, v = .int i ∨ v = .decimal i := by
  grind [parseJsonNumberExact, Except.ok.inj, parsePlainNumber_number]

namespace SerdeJson

variable {serde : SerdeJson} {max : Option Nat}

theorem number_number {s : List Char} (h : serde.number s = .ok v) : ∃ i, v = .int i ∨ v = .decimal i := by
  unfold number at h
  split at h
  · rename_i hparse
    obtain rfl := Except.ok.inj h
    exact parseJsonNumberExact_number hparse
  · cases h

variable {stop : Option String}

theorem numberMember_number {members : List JsonMember} {t : JsonText}
    (h : serde.numberMember members stop t = .ok v) : ∃ i, v = .int i ∨ v = .decimal i := by
  unfold numberMember at h
  split at h
  · split at h
    · cases h
    rename_i hnum
    split at h
    · obtain rfl := Except.ok.inj h
      exact number_number hnum
    · cases h
  all_goals cases h

theorem deserialize_list {items : List JsonText} {nodes depth n : Nat}
    (h : serde.deserialize max nodes depth (.array items stop) = .ok (v, n)) :
    ∃ vs, serde.visitSeq max (nodes + 1) depth stop items = .ok (vs, n) ∧ v = .list vs := by
  rw [deserialize] at h
  simp only [enterValue_ok, except_bind_ok_iff, pure, Except.pure, Except.ok.injEq, Prod.mk.injEq,
    Prod.exists] at h
  obtain ⟨_, ⟨-, rfl⟩, vs, _, hseq, rfl, rfl⟩ := h
  exact ⟨vs, hseq, rfl⟩

theorem deserialize_record {members : List JsonMember} {nodes depth n : Nat}
    (h : serde.deserialize max nodes depth (.object members stop) = .ok (v, n)) :
    serde.visitMap max (nodes + 1) depth stop [] members = .ok (v, n) := by
  grind [deserialize, enterValue_ok, except_bind_ok_iff]

/-- A value was read off the text somewhere in a document. -/
def Reads (serde : SerdeJson) (max : Option Nat) (t : JsonText) (v : Value) : Prop :=
  ∃ nodes depth n, serde.deserialize max nodes depth t = .ok (v, n)

theorem visitSeq_reads : ∀ {ts : List JsonText} {nodes depth n : Nat} {stop : Option String}
    {vs : List Value}, serde.visitSeq max nodes depth stop ts = .ok (vs, n) →
    List.Forall₂ (serde.Reads max) ts vs
  | [], nodes, depth, n, stop, vs, h => by
    cases stop with
    | some message =>
      rw [visitSeq] at h
      cases h
    | none =>
      rw [visitSeq] at h
      cases h
      exact .nil
  | t :: ts, nodes, depth, n, stop, vs, h => by
    rw [visitSeq] at h
    simp only [except_bind_ok_iff, pure, Except.pure, Except.ok.injEq, Prod.mk.injEq, Prod.exists] at h
    obtain ⟨v, _, hv, vs', _, hvs, rfl, rfl⟩ := h
    exact .cons ⟨_, _, _, hv⟩ (visitSeq_reads hvs)

/-- A member of a record that was read. -/
def ReadsMember (serde : SerdeJson) (max : Option Nat) : JsonMember → String × Value → Prop
  | .mk key t, p => key = p.1 ∧ key ≠ numberKey ∧ serde.Reads max t p.2

/-- An object is read as a number, or member by member. -/
theorem visitMap_reads : ∀ {members : List JsonMember} {nodes depth n : Nat} {stop : Option String}
    {before : List (String × Value)} {v : Value},
    serde.visitMap max nodes depth stop before members = .ok (v, n) →
    (∃ i, v = .int i ∨ v = .decimal i) ∨
      ∃ pairs, v = Value.recordFromUnsorted (before ++ pairs) ∧
        List.Forall₂ (serde.ReadsMember max) members pairs
  | [], nodes, depth, n, stop, before, v, h => by
    cases stop with
    | some message =>
      rw [visitMap] at h
      cases h
    | none =>
      rw [visitMap] at h
      cases h
      exact .inr ⟨[], by rw [append_nil], .nil⟩
  | .mk key t :: members, nodes, depth, n, stop, before, v, h => by
    rw [visitMap] at h
    split at h
    · simp only [except_bind_ok_iff, pure, Except.pure, Except.ok.injEq, Prod.mk.injEq] at h
      obtain ⟨w, hw, rfl, rfl⟩ := h
      exact .inl (numberMember_number hw)
    · rename_i hkey
      simp only [except_bind_ok_iff, Prod.exists] at h
      obtain ⟨w, _, hw, hrest⟩ := h
      refine (visitMap_reads hrest).imp_right ?_
      rintro ⟨pairs, rfl, hpairs⟩
      exact ⟨(key, w) :: pairs, by rw [append_assoc]; rfl,
        .cons ⟨rfl, hkey, _, _, _, hw⟩ hpairs⟩

/-- Pairs that make a record, and have its keys in order, are its fields. -/
theorem pairs_of_record {pairs : List (String × Value)}
    (hrec : Value.recordFromUnsorted pairs = .record fields)
    (hkeys : pairs.map (·.1) = fields.map (·.key)) (hsorted : fields.Pairwise fun f g => f.key < g.key) :
    pairs = fields.map fun f => (f.key, f.value) := by
  let made : List (RecordField Value) := pairs.map fun p => ⟨p.1, hashField p.1, p.2⟩
  have hmade : made.map (fun f => (f.key, f.value)) = pairs := by
    rw [map_map]
    exact map_id pairs
  have hlt : made.Pairwise fun f g => f.key < g.key := by
    rw [pairwise_map]
    rw [← pairwise_map (R := (· < ·)), ← hkeys, pairwise_map] at hsorted
    exact hsorted
  have hhash : ∀ f ∈ made, f.hash = hashField f.key := by
    rintro f hf
    obtain ⟨p, -, rfl⟩ := mem_map.mp hf
    rfl
  have hsame := Value.recordFromUnsorted_fields hlt hhash
  rw [hmade, hrec] at hsame
  rw [← hmade, ← Value.record.inj hsame]

mutual

/-- A value that is read back has no record with the key of numbers. -/
theorem plain_of_reads : ∀ (v : Value) {j : JsonValue}, v.WellFormed → v.toJson = .ok j →
    serde.Reads max j.text v → v.Plain
  | .list items, j, hwf, hj, ⟨nodes, depth, n, h⟩ => by
    obtain ⟨js, hjs, rfl⟩ := toJson_list hj
    obtain ⟨vs, hseq, hvs⟩ := deserialize_list h
    obtain rfl := Value.list.inj hvs
    exact plainList_of_reads items hwf hjs (visitSeq_reads hseq)
  | .record fields, j, hwf, hj, ⟨nodes, depth, n, h⟩ => by
    obtain ⟨hsorted, -, hfields⟩ := hwf
    obtain ⟨es, hes, rfl⟩ := toJson_record hsorted hj
    obtain ⟨i, hi | hi⟩ | ⟨pairs, hrec, hpairs⟩ := visitMap_reads (deserialize_record h)
    · cases hi
    · cases hi
    · have hkeys : ∀ {es : List JsonEntry} {pairs : List (String × Value)},
          List.Forall₂ (serde.ReadsMember max) (textEntries es) pairs →
            pairs.map (·.1) = es.map JsonEntry.key := by
        intro es
        induction es with
        | nil =>
          rintro pairs ⟨⟩
          rfl
        | cons e es ih =>
          obtain ⟨key, j⟩ := e
          rintro pairs (_ | ⟨⟨rfl, -, -⟩, htail⟩)
          rw [map_cons, map_cons, ih htail]
          rfl
      have hsame := pairs_of_record hrec.symm ((hkeys hpairs).trans (toJsonFields_keys hes)) hsorted
      subst hsame
      exact plainFields_of_reads fields hfields hes hpairs
  | .null, _, _, _, _ | .bool _, _, _, _, _ | .int _, _, _, _, _ | .decimal _, _, _, _, _
  | .string _, _, _, _, _ | .fileHandle _ _, _, _, _, _ => trivial

theorem plainList_of_reads : ∀ (vs : List Value) {js : List JsonValue}, Value.WellFormedList vs →
    Value.toJsonList vs = .ok js → List.Forall₂ (serde.Reads max) (textList js) vs → Value.PlainList vs
  | [], js, _, _, _ => trivial
  | v :: vs, js, hwf, hj, h => by
    simp only [Value.toJsonList, except_bind_ok_iff, pure, Except.pure, Except.ok.injEq] at hj
    obtain ⟨j, hj, js', hjs, rfl⟩ := hj
    obtain ⟨hhead, htail⟩ := forall₂_cons.mp h
    exact ⟨plain_of_reads v hwf.1 hj hhead, plainList_of_reads vs hwf.2 hjs htail⟩

theorem plainFields_of_reads : ∀ (fs : List (RecordField Value)) {es : List JsonEntry},
    Value.WellFormedFields fs → Value.toJsonFields fs = .ok es →
    List.Forall₂ (serde.ReadsMember max) (textEntries es) (fs.map fun f => (f.key, f.value)) →
    Value.PlainFields fs
  | [], es, _, _, _ => trivial
  | f :: fs, es, hwf, hj, h => by
    simp only [Value.toJsonFields, except_bind_ok_iff, pure, Except.pure, Except.ok.injEq] at hj
    obtain ⟨j, hj, es', hes, rfl⟩ := hj
    obtain ⟨⟨-, hkey, hread⟩, htail⟩ := forall₂_cons.mp h
    exact ⟨hkey, plain_of_reads f.value hwf.1 hj hread, plainFields_of_reads fs hwf.2 hes htail⟩

end

end SerdeJson

/-- serde_json prints and parses the JSON text of the value faithfully. -/
def SerdeJson.FaithfulAt (serde : SerdeJson) (v : Value) : Prop :=
  ∀ j, v.toJson = .ok j → serde.read (serde.write j) = (j.text, [])

/-- A value comes back from its JSON exactly if no record has the key of numbers and, where the text is
not trusted, it has no more nodes than are accepted. -/
theorem json_roundtrip_iff (serde : SerdeJson) (v : Value) (isTrusted : Bool) (hfree : v.FileFree)
    (hwf : v.WellFormed) (hdepth : v.depth ≤ maxJsonDepth) (hserde : serde.FaithfulAt v) :
    (∃ j, v.toJson = .ok j ∧ serde.fromJsonSlice (serde.write j) isTrusted = .ok v) ↔
      v.Plain ∧ (isTrusted = true ∨ v.nodeCount ≤ maxJsonNodes) := by
  obtain ⟨j, hj, hwrites⟩ := toJson_writes serde.f64 v hwf hfree
  have hread : (serde.read (serde.write j)).1 = j.text := by rw [hserde j hj]
  have hlimit : (∀ m ∈ (if isTrusted = true then none else some maxJsonNodes : Option Nat),
      0 + v.nodeCount ≤ m) ↔ (isTrusted = true ∨ v.nodeCount ≤ maxJsonNodes) := by
    cases isTrusted <;> simp
  have hwithin : SerdeJson.Within (if isTrusted = true then none else some maxJsonNodes) 0 0
      j.text.nodeCount j.text.depth ↔ (isTrusted = true ∨ v.nodeCount ≤ maxJsonNodes) := by
    rw [SerdeJson.Within, hwrites.depth, hwrites.nodeCount, hlimit]
    exact and_iff_right (by omega)
  simp only [SerdeJson.fromJsonSlice, SerdeJson.fromJson_ok]
  constructor
  · rintro ⟨j', hj', n, hn⟩
    obtain rfl : j = j' := Except.ok.inj (hj.symm.trans hj')
    rw [hread] at hn
    have hplain := SerdeJson.plain_of_reads v hwf hj ⟨_, _, _, hn⟩
    obtain ⟨-, hw, -⟩ := (SerdeJson.deserialize_iff j.text (hwrites.plain hplain)).mp hn
    exact ⟨hplain, hwithin.mp hw⟩
  · rintro ⟨hplain, hnodes⟩
    refine ⟨j, hj, 0 + j.text.nodeCount, ?_⟩
    rw [hread]
    exact (SerdeJson.deserialize_iff j.text (hwrites.plain hplain)).mpr
      ⟨hwrites.denotes, hwithin.mpr hnodes, rfl⟩

/-- A record whose only field has the key of numbers. -/
def numberRecord : Value := .recordFromUnsorted [(numberKey, .string "5")]

/-- A serde_json that prints a value as `text`, and reads that text. -/
def writerOf (v : Value) (text : String) : SerdeJson :=
  readerOf text (match v.toJson with | .ok j => j.text | .error _ => .malformed "") ""

theorem writerOf_faithful (v : Value) (text : String) : (writerOf v text).FaithfulAt v := by
  intro j hj
  simp only [writerOf, hj, readerOf, if_true]
  rfl

def numberRecordText : String := "\x7b\"$serde_json::private::Number\":\"5\"\x7d"

/-- The record comes back as a number. -/
theorem number_record_lost :
    ¬∀ (serde : SerdeJson) (v : Value), v.FileFree → v.WellFormed → v.depth ≤ maxJsonDepth →
      serde.FaithfulAt v → ∃ j, v.toJson = .ok j ∧ serde.fromJsonSlice (serde.write j) true = .ok v := by
  intro h
  have hfree : numberRecord.FileFree := ⟨trivial, trivial⟩
  have hwf : numberRecord.WellFormed :=
    ⟨pairwise_singleton _ _, fun f hf => by rw [mem_singleton.mp hf], trivial, trivial⟩
  have hdepth : numberRecord.depth ≤ maxJsonDepth := by decide
  have hserde := writerOf_faithful numberRecord numberRecordText
  obtain ⟨j, hj, hread⟩ := h _ numberRecord hfree hwf hdepth hserde
  obtain ⟨n, hn⟩ := SerdeJson.fromJson_ok.mp hread
  rw [hserde j hj] at hn
  exact (SerdeJson.plain_of_reads numberRecord hwf hj ⟨_, _, _, hn⟩).1 rfl

theorem json_roundtrip_iff_decimal :
    (∃ j, (Value.list [.decimal 500000000, .int 5]).toJson = .ok j ∧
        (writerOf (.list [.decimal 500000000, .int 5]) "[5.0,5]").fromJsonSlice
          ((writerOf (.list [.decimal 500000000, .int 5]) "[5.0,5]").write j) false =
            .ok (.list [.decimal 500000000, .int 5])) ↔
      (Value.list [.decimal 500000000, .int 5]).Plain ∧
        (false = true ∨ (Value.list [.decimal 500000000, .int 5]).nodeCount ≤ maxJsonNodes) :=
  json_roundtrip_iff _ _ false ⟨trivial, trivial, trivial⟩ ⟨trivial, trivial, trivial⟩ (by decide)
    (writerOf_faithful _ _)

end Mizu
