import Mizu.Logic.Parse.Functions
import Mizu.Types.Nesting

/-!
# What the check of a type accepts

`Denotes` says which values belong to a type, by the names of a record's fields and not by their
places. `check_type` walks the fields of the value and of the type together.

* `denotes_of_accepts`: what the walk accepts belongs to the type.
* `accepts_of_denotes`: where every record type that has a value names each field once, it accepts
  whatever belongs to the type.
* `checkType_denotes_iff`: for a parsed type that condition is also needed.
-/

namespace Mizu

open List

namespace ValueType

mutual

/-- The values that belong to a type. Those of a record type have exactly the declared names. -/
def Denotes : ValueType → Value → Prop
  | num, v => (∃ i, v = .int i) ∨ ∃ i, v = .decimal i
  | str, v => ∃ s, v = .string s
  | bool, v => ∃ b, v = .bool b
  | list inner, v => ∃ items, v = .list items ∧ ∀ item ∈ items, inner.Denotes item
  | record expected, v =>
    ∃ fields, v = .record fields ∧ (∀ f ∈ fields, f.key ∈ expected.map (·.1)) ∧ DenotesFields expected fields
  | nullable inner, v => v = .null ∨ inner.Denotes v

/-- Every declared field is there, with a value of its type. -/
def DenotesFields : List (String × ValueType) → List (RecordField Value) → Prop
  | [], _ => True
  | (name, ty) :: expected, fields =>
    (∃ f ∈ fields, f.key = name ∧ ty.Denotes f.value) ∧ DenotesFields expected fields

end

mutual

/-- A record type that has a value names each of its fields once, and so do the types in it. -/
def NamesOnce : ValueType → Prop
  | list inner | nullable inner => inner.NamesOnce
  | record expected =>
    (∃ v : Value, v.WellFormed ∧ (record expected).Denotes v) →
      (expected.map (·.1)).Nodup ∧ NamesOnceFields expected
  | _ => True

def NamesOnceFields : List (String × ValueType) → Prop
  | [] => True
  | (_, ty) :: expected => ty.NamesOnce ∧ NamesOnceFields expected

end

variable {expected : List (String × ValueType)} {fields : List (RecordField Value)} {T inner : ValueType} {v : Value}

theorem denotesFields_iff :
    DenotesFields expected fields ↔ ∀ e ∈ expected, ∃ f ∈ fields, f.key = e.1 ∧ e.2.Denotes f.value := by
  induction expected with
  | nil => simp [DenotesFields]
  | cons e expected ih => simp [DenotesFields, ih]

/-- The walk over the fields pairs them one by one. -/
theorem acceptsFields_iff :
    acceptsFields expected fields = true ↔
      List.Forall₂ (fun e f => f.key = e.1 ∧ e.2.accepts f.value = true) expected fields := by
  induction expected generalizing fields with
  | nil => cases fields <;> simp [acceptsFields]
  | cons e expected ih =>
    cases fields with
    | nil => simp [acceptsFields]
    | cons f fields => simp [acceptsFields, ih]

theorem keys_of_acceptsFields (h : acceptsFields expected fields = true) :
    fields.map (·.key) = expected.map (·.1) := by
  have hkeys := (acceptsFields_iff.mp h).imp fun _ _ h => h.1.symm
  exact (forall₂_eq_eq_eq ▸ forall₂_map_left_iff.mpr (forall₂_map_right_iff.mpr hkeys)).symm

/-! ## What is accepted belongs to the type -/

mutual

theorem denotes_of_accepts : ∀ {T : ValueType} {v : Value}, T.accepts v = true → T.Denotes v
  | num, v, h => by cases v <;> simp_all [accepts, Denotes]
  | str, v, h => by cases v <;> simp_all [accepts, Denotes]
  | bool, v, h => by cases v <;> simp_all [accepts, Denotes]
  | list inner, v, h => by
    cases v with
    | list items =>
      rw [accepts, all_eq_true] at h
      rw [Denotes]
      exact ⟨items, rfl, fun item hitem => denotes_of_accepts (h item hitem)⟩
    | _ => simp [accepts] at h
  | record expected, v, h => by
    cases v with
    | record fields =>
      rw [accepts] at h
      rw [Denotes]
      refine ⟨fields, rfl, fun f hf => ?_, denotesFields_of_accepts h fun _ hf => hf⟩
      rw [← keys_of_acceptsFields h]
      exact mem_map_of_mem hf
    | _ => simp [accepts] at h
  | nullable inner, v, h => by
    rw [accepts, Bool.or_eq_true] at h
    rw [Denotes]
    refine h.imp (fun hnull => ?_) denotes_of_accepts
    cases v <;> simp_all [Value.isNull]

theorem denotesFields_of_accepts : ∀ {expected : List (String × ValueType)} {fields all : List (RecordField Value)},
    acceptsFields expected fields = true → fields ⊆ all → DenotesFields expected all
  | [], _, _, _, _ => by simp [DenotesFields]
  | (name, ty) :: expected, [], _, h, _ => by simp [acceptsFields] at h
  | (name, ty) :: expected, f :: fields, all, h, hsub => by
    simp only [acceptsFields, Bool.and_eq_true, decide_eq_true_eq] at h
    rw [DenotesFields]
    refine ⟨⟨f, hsub (mem_cons_self ..), h.1.1, denotes_of_accepts h.1.2⟩, ?_⟩
    exact denotesFields_of_accepts h.2 fun _ hf => hsub (mem_cons_of_mem _ hf)

end

/-! ## What belongs to the type is accepted -/

/-- Fields in the order of the declared names, each of its type, pass the walk. -/
theorem acceptsFields_of_keys (hkeys : fields.map (·.key) = expected.map (·.1))
    (h : ∀ e ∈ expected, ∀ f ∈ fields, f.key = e.1 → e.2.accepts f.value = true) :
    acceptsFields expected fields = true := by
  induction expected generalizing fields with
  | nil => simp_all [acceptsFields]
  | cons e expected ih =>
    cases fields with
    | nil => simp at hkeys
    | cons f fields =>
      obtain ⟨hkey, hkeys⟩ := List.cons.inj hkeys
      simp only [acceptsFields, Bool.and_eq_true, decide_eq_true_eq]
      refine ⟨⟨hkey, h e (mem_cons_self ..) f (mem_cons_self ..) hkey⟩, ih hkeys fun e he f hf => ?_⟩
      exact h e (mem_cons_of_mem _ he) f (mem_cons_of_mem _ hf)

/-- A record in order has the declared names as its keys, where the names are in order, each once. -/
theorem keys_of_denotes (hsorted : (expected.map (·.1)).Pairwise (· ≤ ·)) (hnodup : (expected.map (·.1)).Nodup)
    (hfields : fields.Pairwise fun f g => f.key < g.key) (hsub : ∀ f ∈ fields, f.key ∈ expected.map (·.1))
    (h : DenotesFields expected fields) : fields.map (·.key) = expected.map (·.1) := by
  have hlt : (fields.map (·.key)).Pairwise (· < ·) := pairwise_map.mpr hfields
  have hmem : ∀ key, key ∈ fields.map (·.key) ↔ key ∈ expected.map (·.1) := by
    grind [denotesFields_iff]
  have hperm := (perm_ext_iff_of_nodup (hlt.imp fun h => h.ne) hnodup).mpr hmem
  exact hperm.eq_of_pairwise (fun _ _ _ _ => le_antisymm) (hlt.imp fun h => h.le) hsorted

mutual

theorem accepts_of_denotes : ∀ {T : ValueType} {v : Value}, T.Sorted → T.NamesOnce → v.WellFormed → T.Denotes v →
    T.accepts v = true
  | num, v, _, _, _, h => by
    rw [Denotes] at h
    rcases h with ⟨i, rfl⟩ | ⟨i, rfl⟩ <;> rw [accepts]
  | str, v, _, _, _, h => by
    rw [Denotes] at h
    obtain ⟨s, rfl⟩ := h
    rw [accepts]
  | bool, v, _, _, _, h => by
    rw [Denotes] at h
    obtain ⟨b, rfl⟩ := h
    rw [accepts]
  | list inner, v, hsorted, honce, hv, h => by
    rw [Denotes] at h
    obtain ⟨items, rfl, h⟩ := h
    rw [Value.WellFormed, Value.wellFormedList_iff] at hv
    rw [Sorted] at hsorted
    rw [NamesOnce] at honce
    rw [accepts, all_eq_true]
    exact fun item hitem => accepts_of_denotes hsorted honce (hv item hitem) (h item hitem)
  | record expected, v, hsorted, honce, hv, h => by
    rw [NamesOnce] at honce
    obtain ⟨hnodup, honce⟩ := honce ⟨v, hv, h⟩
    rw [Denotes] at h
    obtain ⟨fields, rfl, hsub, h⟩ := h
    rw [Value.WellFormed, Value.wellFormedFields_iff] at hv
    rw [Sorted] at hsorted
    rw [accepts]
    refine acceptsFields_of_keys (keys_of_denotes hsorted.1 hnodup hv.1 hsub h) ?_
    exact acceptsEach_of_denotes hsorted.2 honce hv.2.2 (pairwise_map.mpr (hv.1.imp fun h => h.ne)) h
  | nullable inner, v, hsorted, honce, hv, h => by
    rw [Denotes] at h
    rw [Sorted] at hsorted
    rw [NamesOnce] at honce
    rw [accepts, Bool.or_eq_true]
    refine h.imp (fun hnull => ?_) (accepts_of_denotes hsorted honce hv)
    rw [hnull, Value.isNull]

theorem acceptsEach_of_denotes : ∀ {expected : List (String × ValueType)} {fields : List (RecordField Value)},
    SortedFields expected → NamesOnceFields expected → (∀ f ∈ fields, f.value.WellFormed) →
      (fields.map (·.key)).Nodup → DenotesFields expected fields →
      ∀ e ∈ expected, ∀ f ∈ fields, f.key = e.1 → e.2.accepts f.value = true
  | [], _, _, _, _, _, _ => by simp
  | (name, ty) :: expected, fields, hsorted, honce, hv, hdistinct, h => by
    rw [SortedFields] at hsorted
    rw [NamesOnceFields] at honce
    rw [DenotesFields] at h
    obtain ⟨⟨f, hf, hkey, hdenotes⟩, h⟩ := h
    intro e he g hg hgkey
    rcases mem_cons.mp he with rfl | he
    · -- Two fields of one record with one key are one field.
      obtain rfl : f = g := inj_on_of_nodup_map hdistinct hf hg (hkey.trans hgkey.symm)
      exact accepts_of_denotes hsorted.1 honce.1 (hv f hf) hdenotes
    · exact acceptsEach_of_denotes hsorted.2 honce.2 hv hdistinct h e he g hg hgkey

end

/-! ## The condition is needed -/

/-- The check and the type agree on every value in order. -/
def Agrees (T : ValueType) : Prop := ∀ v : Value, v.WellFormed → (T.accepts v = true ↔ T.Denotes v)

theorem accepts_null (h : T.Denotes .null) : T.accepts .null = true := by
  cases T <;> simp_all [Denotes, accepts, Value.isNull]

theorem agrees_list (h : (list inner).Agrees) : inner.Agrees := by
  refine fun v hv => ⟨denotes_of_accepts, fun hdenotes => ?_⟩
  have hwf : (Value.list [v]).WellFormed := by simpa [Value.WellFormed, Value.WellFormedList] using hv
  have hlist : (list inner).Denotes (.list [v]) := by grind [Denotes]
  simpa [accepts] using (h (.list [v]) hwf).mpr hlist

theorem agrees_nullable (h : (nullable inner).Agrees) : inner.Agrees := by
  refine fun v hv => ⟨denotes_of_accepts, fun hdenotes => ?_⟩
  have hacc := (h v hv).mpr (by rw [Denotes]; exact .inr hdenotes)
  rw [accepts, Bool.or_eq_true] at hacc
  refine hacc.elim (fun hnull => ?_) id
  cases v with
  | null => exact accepts_null hdenotes
  | _ => simp [Value.isNull] at hnull

/-- The fields with the value of one key replaced. -/
def setField (fields : List (RecordField Value)) (key : String) (v : Value) : List (RecordField Value) :=
  fields.map fun f => if f.key = key then { f with value := v } else f

/-- A field of the new record is one of the old, but for the value of the key. -/
theorem of_mem_setField {key : String} {f : RecordField Value} (h : f ∈ setField fields key v) :
    ∃ g ∈ fields, f.key = g.key ∧ f.hash = g.hash ∧ f.value = if f.key = key then v else g.value := by
  obtain ⟨g, hg, rfl⟩ := mem_map.mp h
  refine ⟨g, hg, ?_⟩
  by_cases hkey : g.key = key <;> simp [hkey]

theorem setField_keys (key : String) : (setField fields key v).map (·.key) = fields.map (·.key) := by
  rw [setField, map_map]
  refine map_congr_left fun f _ => ?_
  by_cases hkey : f.key = key <;> simp [hkey]

theorem setField_wellFormed {key : String} (h : (Value.record fields).WellFormed) (hv : v.WellFormed) :
    (Value.record (setField fields key v)).WellFormed := by
  rw [Value.WellFormed, Value.wellFormedFields_iff] at h ⊢
  refine ⟨pairwise_map.mp ?_, fun f hf => ?_, fun f hf => ?_⟩
  · rw [setField_keys]
    exact pairwise_map.mpr h.1
  all_goals obtain ⟨g, hg, hkey, hhash, hvalue⟩ := of_mem_setField hf
  · rw [hhash, hkey]
    exact h.2.1 g hg
  · rw [hvalue]
    split
    · exact hv
    · exact h.2.2 g hg

variable {e : String × ValueType}

theorem setField_denotes (hnodup : (expected.map (·.1)).Nodup) (h : (record expected).Denotes (.record fields))
    (he : e ∈ expected) (hv : e.2.Denotes v) :
    (record expected).Denotes (.record (setField fields e.1 v)) := by
  rw [Denotes] at h ⊢
  obtain ⟨_, ⟨⟩, hsub, h⟩ := h
  refine ⟨_, rfl, fun f hf => ?_, denotesFields_iff.mpr fun d hd => ?_⟩
  · obtain ⟨g, hg, hkey, -⟩ := of_mem_setField hf
    exact hkey ▸ hsub g hg
  · obtain ⟨f, hf, hkey, hf'⟩ := denotesFields_iff.mp h d hd
    refine ⟨_, mem_map_of_mem hf, ?_⟩
    by_cases hd' : f.key = e.1
    · obtain rfl : d = e := inj_on_of_nodup_map hnodup hd he (hkey ▸ hd')
      simpa only [hd', if_true, true_and] using hv
    · simpa only [hd', if_false] using ⟨hkey, hf'⟩

/-- A declared field meets one with its name that passes. -/
theorem exists_accepted (h : acceptsFields expected fields = true) (he : e ∈ expected) :
    ∃ f ∈ fields, f.key = e.1 ∧ e.2.accepts f.value = true := by
  induction acceptsFields_iff.mp h with
  | nil => cases he
  | cons hhead htail ih => grind [acceptsFields_iff]

/-- Where the record has a value, the fields of the record agree as the record does. -/
theorem agrees_field (h : (record expected).Agrees) (hnodup : (expected.map (·.1)).Nodup)
    (hfields : (Value.record fields).WellFormed) (hdenotes : (record expected).Denotes (.record fields))
    (he : e ∈ expected) : e.2.Agrees := by
  refine fun v hv => ⟨denotes_of_accepts, fun hv' => ?_⟩
  have hacc := (h _ (setField_wellFormed hfields hv)).mpr (setField_denotes hnodup hdenotes he hv')
  rw [accepts] at hacc
  obtain ⟨f, hf, hkey, hpass⟩ := exists_accepted hacc he
  obtain ⟨g, -, -, -, hvalue⟩ := of_mem_setField hf
  rwa [hvalue, if_pos hkey] at hpass

mutual

theorem namesOnce_of_agrees : ∀ {T : ValueType}, T.Agrees → T.NamesOnce
  | num, _ | str, _ | bool, _ => by simp [NamesOnce]
  | list inner, h => by
    rw [NamesOnce]
    exact namesOnce_of_agrees (agrees_list h)
  | nullable inner, h => by
    rw [NamesOnce]
    exact namesOnce_of_agrees (agrees_nullable h)
  | record expected, h => by
    rw [NamesOnce]
    rintro ⟨v, hv, hdenotes⟩
    have hacc := (h v hv).mpr hdenotes
    have hrecord := hdenotes
    rw [Denotes] at hrecord
    obtain ⟨fields, rfl, -⟩ := hrecord
    -- The walk accepts this record, so its keys are the declared names.
    rw [accepts] at hacc
    have hnodup : (expected.map (·.1)).Nodup := by
      rw [← keys_of_acceptsFields hacc]
      rw [Value.WellFormed] at hv
      exact pairwise_map.mpr (hv.1.imp fun h => h.ne)
    exact ⟨hnodup, namesOnceFields_of_agrees fun e he => agrees_field h hnodup hv hdenotes he⟩

theorem namesOnceFields_of_agrees : ∀ {expected : List (String × ValueType)},
    (∀ e ∈ expected, e.2.Agrees) → NamesOnceFields expected
  | [], _ => by simp [NamesOnceFields]
  | (_, ty) :: expected, h => by
    rw [NamesOnceFields]
    exact ⟨namesOnce_of_agrees (h _ (mem_cons_self ..)),
      namesOnceFields_of_agrees fun e he => h e (mem_cons_of_mem _ he)⟩

end

end ValueType

theorem checkType_ok_iff {v : Value} {T : ValueType} : checkType v T = .ok () ↔ T.accepts v = true := by
  unfold checkType
  split <;> simp [*]

/-- The check of a parsed type is membership if and only if every record type in it that has a value
names each field once. -/
theorem checkType_denotes_iff {env : TypeEnv} {ts : List Token} {T : ValueType} {rest : Shorter ts}
    (h : parseType env ts = .ok (T, rest)) :
    (∀ v : Value, v.WellFormed → (checkType v T = .ok () ↔ T.Denotes v)) ↔ T.NamesOnce := by
  simp only [checkType_ok_iff]
  refine ⟨ValueType.namesOnce_of_agrees, fun honce v hv => ⟨ValueType.denotes_of_accepts, fun hdenotes => ?_⟩⟩
  exact ValueType.accepts_of_denotes (parseType_sorted ts h) honce hv hdenotes

/-- ASCII names, and texts shown as they are. -/
def plainTypeEnv : TypeEnv where
  table := asciiTable
  debugStr := id

/-- `record{b: list<str>?, a: num}`. -/
def fieldsOnceTokens : List Token :=
  [.ident "record", .lBrace, .ident "b", .colon, .ident "list", .lt, .ident "str", .gt, .question, .comma,
    .ident "a", .colon, .ident "num", .rBrace]

theorem checkType_denotes_iff_fields_once :
    ∃ T : ValueType, T = .record [("a", .num), ("b", .nullable (.list .str))] ∧ T.NamesOnce ∧
      ∀ v : Value, v.WellFormed → (checkType v T = .ok () ↔ T.Denotes v) := by
  have hparse : parseType plainTypeEnv fieldsOnceTokens =
      .ok (.record [("a", .num), ("b", .nullable (.list .str))], ⟨[], by decide⟩) := by
    with_unfolding_all rfl
  have honce : (ValueType.record [("a", .num), ("b", .nullable (.list .str))]).NamesOnce := by
    simp [ValueType.NamesOnce, ValueType.NamesOnceFields]
  exact ⟨_, rfl, honce, (checkType_denotes_iff hparse).mpr honce⟩

/-- `record{a: num, a: num}`. -/
def repeatedNameTokens : List Token :=
  [.ident "record", .lBrace, .ident "a", .colon, .ident "num", .comma, .ident "a", .colon, .ident "num", .rBrace]

/-- The type is parsed, and a record that has exactly the declared names is rejected. -/
theorem repeated_name_rejected :
    ∃ T rest, parseType plainTypeEnv repeatedNameTokens = .ok (T, rest) ∧
      ∃ v : Value, v.WellFormed ∧ T.Denotes v ∧ checkType v T ≠ .ok () := by
  refine ⟨.record [("a", .num), ("a", .num)], ⟨[], by decide⟩, by with_unfolding_all rfl,
    .record [⟨"a", hashField "a", .int 1⟩], ?_, ?_, ?_⟩
  · simp [Value.WellFormed, Value.WellFormedFields]
  · simp [ValueType.Denotes, ValueType.DenotesFields]
  · simp [checkType, ValueType.accepts, ValueType.acceptsFields]

end Mizu
