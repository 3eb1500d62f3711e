import Mizu.Ipc.Rehydrate
import Mizu.Types.Nesting

/-!
# What a worker writes

The wire form of a session's answer, as an honest worker sends it.

* `workerResponse_toWire`: what carries no file, and is not nested too deep, comes back as it was.
* `workerResponse_toWire_deep`: an answer with a value that is nested too deep is refused.
-/

namespace Mizu

namespace Value

mutual

/-- `WireValue::from`: the path of a file is never sent. -/
def toWire : Value → WireValue
  | null => .null
  | bool b => .bool b
  | int i => .int i
  | decimal i => .decimal i
  | string s => .str s
  | list items => .list (toWireList items)
  | record fields => .record (toWireFields fields)
  | fileHandle _ data => .fileHandleToken 0 data.filename

def toWireList : List Value → List WireValue
  | [] => []
  | v :: vs => v.toWire :: toWireList vs

def toWireFields : List (RecordField Value) → List WireRecordField
  | [] => []
  | f :: fs => .mk f.key f.hash f.value.toWire :: toWireFields fs

end

/-- What the wire brings over unchanged. -/
structure Carried (v : Value) : Prop where
  wellFormed : v.WellFormed
  fileFree : v.FileFree
  depth_le : v.depth ≤ Rehydrate.maxValueDepth

end Value

/-! ## Values -/

namespace Rehydrate

open Value List

theorem value_of_le {w : WireValue} {depth : Nat} (h : depth ≤ maxValueDepth) :
    value w depth =
      match w with
      | .null => .ok .null
      | .bool b => .ok (.bool b)
      | .int i => .ok (.int i)
      | .decimal i => .ok (.decimal i)
      | .str s => .ok (.string s)
      | .list items => do return .list (← values items (depth + 1))
      | .record fields => do return recordFromUnsorted (← pairs fields (depth + 1))
      | .fileHandleToken _ _ => .ok .null := by
  grind [value]

theorem value_of_lt {w : WireValue} {depth : Nat} (h : maxValueDepth < depth) :
    ∃ e, value w depth = .error e := by
  unfold value
  rw [if_pos h]
  exact ⟨_, rfl⟩

mutual

theorem value_toWire : ∀ (v : Value) (depth : Nat), v.WellFormed → v.FileFree →
    depth + v.depth ≤ maxValueDepth → value v.toWire depth = .ok v
  | .list items, depth, hwf, hfree, hle => by
    simp only [Value.depth] at hle
    rw [toWire, value_of_le (by omega)]
    simp only [values_toWire items depth hwf hfree hle]
    rfl
  | .record fields, depth, hwf, hfree, hle => by
    obtain ⟨hsorted, hhash, hfields⟩ := hwf
    simp only [Value.depth] at hle
    rw [toWire, value_of_le (by omega)]
    simp only [pairs_toWire fields depth hfields hfree hle]
    exact congrArg Except.ok (recordFromUnsorted_fields hsorted hhash)
  | .null, depth, _, _, hle => by rw [toWire, value_of_le (by simpa [Value.depth] using hle)]
  | .bool b, depth, _, _, hle => by rw [toWire, value_of_le (by simpa [Value.depth] using hle)]
  | .int i, depth, _, _, hle => by rw [toWire, value_of_le (by simpa [Value.depth] using hle)]
  | .decimal i, depth, _, _, hle => by rw [toWire, value_of_le (by simpa [Value.depth] using hle)]
  | .string s, depth, _, _, hle => by rw [toWire, value_of_le (by simpa [Value.depth] using hle)]
  | .fileHandle _ _, _, _, hfree, _ => hfree.elim

theorem values_toWire : ∀ (vs : List Value) (depth : Nat), WellFormedList vs → FileFreeList vs →
    depth + depthList vs ≤ maxValueDepth → values (toWireList vs) (depth + 1) = .ok vs
  | [], _, _, _, _ => rfl
  | v :: vs, depth, hwf, hfree, hle => by
    simp only [depthList] at hle
    have hhead := value_toWire v (depth + 1) hwf.1 hfree.1 (by omega)
    have htail := values_toWire vs depth hwf.2 hfree.2 (by omega)
    simp only [toWireList, values, hhead, htail]
    rfl

theorem pairs_toWire : ∀ (fs : List (RecordField Value)) (depth : Nat), WellFormedFields fs →
    FileFreeFields fs → depth + depthFields fs ≤ maxValueDepth →
    pairs (toWireFields fs) (depth + 1) = .ok (fs.map fun f => (f.key, f.value))
  | [], _, _, _, _ => rfl
  | ⟨key, hash, v⟩ :: fs, depth, hwf, hfree, hle => by
    simp only [depthFields] at hle
    have hhead := value_toWire v (depth + 1) hwf.1 hfree.1 (by omega)
    have htail := pairs_toWire fs depth hwf.2 hfree.2 (by omega)
    simp only [toWireFields, pairs, hhead, htail]
    rfl

end

mutual

theorem value_toWire_deep : ∀ (v : Value) (depth : Nat), maxValueDepth < depth + v.depth →
    ∃ e, value v.toWire depth = .error e
  | .list items, depth, h => by
    rcases Nat.lt_or_ge maxValueDepth depth with hlt | hle
    · exact value_of_lt hlt
    · obtain ⟨e, he⟩ := values_toWire_deep items depth (by simpa [Value.depth] using h) hle
      rw [toWire, value_of_le hle]
      simp only [he]
      exact ⟨e, rfl⟩
  | .record fields, depth, h => by
    rcases Nat.lt_or_ge maxValueDepth depth with hlt | hle
    · exact value_of_lt hlt
    · obtain ⟨e, he⟩ := pairs_toWire_deep fields depth (by simpa [Value.depth] using h) hle
      rw [toWire, value_of_le hle]
      simp only [he]
      exact ⟨e, rfl⟩
  | .null, _, h | .bool _, _, h | .int _, _, h | .decimal _, _, h | .string _, _, h
  | .fileHandle _ _, _, h => value_of_lt (by simpa [Value.depth] using h)

theorem values_toWire_deep : ∀ (vs : List Value) (depth : Nat), maxValueDepth < depth + depthList vs →
    depth ≤ maxValueDepth → ∃ e, values (toWireList vs) (depth + 1) = .error e
  | [], depth, h, hle => by
    simp only [depthList] at h
    omega
  | v :: vs, depth, h, hle => by
    simp only [depthList] at h
    simp only [toWireList, values]
    cases hv : value v.toWire (depth + 1) with
    | error e => exact ⟨e, rfl⟩
    | ok v' =>
      have hshallow : depth + 1 + v.depth ≤ maxValueDepth := by
        by_contra hdeep
        obtain ⟨e, he⟩ := value_toWire_deep v (depth + 1) (by omega)
        rw [hv] at he
        cases he
      obtain ⟨e, he⟩ := values_toWire_deep vs depth (by omega) hle
      rw [he]
      exact ⟨e, rfl⟩

theorem pairs_toWire_deep : ∀ (fs : List (RecordField Value)) (depth : Nat),
    maxValueDepth < depth + depthFields fs → depth ≤ maxValueDepth →
    ∃ e, pairs (toWireFields fs) (depth + 1) = .error e
  | [], depth, h, hle => by
    simp only [depthFields] at h
    omega
  | ⟨key, hash, v⟩ :: fs, depth, h, hle => by
    simp only [depthFields] at h
    simp only [toWireFields, pairs]
    cases hv : value v.toWire (depth + 1) with
    | error e => exact ⟨e, rfl⟩
    | ok v' =>
      have hshallow : depth + 1 + v.depth ≤ maxValueDepth := by
        by_contra hdeep
        obtain ⟨e, he⟩ := value_toWire_deep v (depth + 1) (by omega)
        rw [hv] at he
        cases he
      obtain ⟨e, he⟩ := pairs_toWire_deep fs depth (by omega) hle
      rw [he]
      exact ⟨e, rfl⟩

end

theorem value_carried {v : Value} (h : v.Carried) : value v.toWire 0 = .ok v :=
  value_toWire v 0 h.wellFormed h.fileFree (by simpa using h.depth_le)

/-- Nested deeper than the wire brings over. -/
def TooDeep (v : Value) : Prop := maxValueDepth < v.depth

theorem value_tooDeep {v : Value} (h : TooDeep v) : ∃ e, value v.toWire 0 = .error e :=
  value_toWire_deep v 0 (by rwa [Nat.zero_add])

theorem values_carried {vs : List Value} (h : ∀ v ∈ vs, v.Carried) :
    values (vs.map Value.toWire) 0 = .ok vs := by
  induction vs with
  | nil => rfl
  | cons v vs ih =>
    have htail := ih fun w hw => h w (mem_cons_of_mem _ hw)
    simp only [map_cons, values, value_carried (h v mem_cons_self), htail]
    rfl

theorem values_tooDeep {vs : List Value} (h : ∃ v ∈ vs, TooDeep v) :
    ∃ e, values (vs.map Value.toWire) 0 = .error e := by
  induction vs with
  | nil => simp at h
  | cons v vs ih =>
    simp only [map_cons, values]
    cases hv : value v.toWire 0 with
    | error e => exact ⟨e, rfl⟩
    | ok v' =>
      obtain ⟨w, hw, hdeep⟩ := h
      have htail : w ∈ vs := by grind [value_tooDeep]
      obtain ⟨e, he⟩ := ih ⟨w, htail, hdeep⟩
      rw [he]
      exact ⟨e, rfl⟩

end Rehydrate

/-! ## Answers -/

/-- `From<&RuntimeAction>`. -/
def RuntimeAction.toWire : RuntimeAction → WireRuntimeAction
  | none => .none
  | networkCall method sym payload pathParam target format headers =>
    .networkCall method sym (payload.map Value.toWire) pathParam target.id format (headers.map (·.1))
      (headers.map fun header => header.2.toWire)
  | resolvedCall method url payload target format headers =>
    .resolvedCall method url (payload.map Value.toWire) target.id format (headers.map (·.1))
      (headers.map fun header => header.2.toWire)
  | storeLocal key v => .storeLocal key v.toWire
  | copyToClipboard nodeId => .copyToClipboard nodeId
  | getSystemTime target => .getSystemTime target.id
  | navigate url => .navigate url
  | downloadMedia url => .downloadMedia url
  | downloadAlias sym => .downloadAlias sym

/-- `From<&WorkerResponse>`. -/
def WorkerResponse.toWire (r : WorkerResponse) : WireWorkerResponse where
  mutatedSyms := r.stateUpdate.mutatedVariables.map (·.1.id)
  mutatedValues := r.stateUpdate.mutatedVariables.map fun entry => entry.2.toWire
  runtimeActions := r.runtimeActions.map RuntimeAction.toWire
  gesture := r.gesture

/-- The values an action carries. -/
def RuntimeAction.values : RuntimeAction → List Value
  | networkCall _ _ payload _ _ _ headers | resolvedCall _ _ payload _ _ headers =>
    payload.toList ++ headers.map (·.2)
  | storeLocal _ v => [v]
  | _ => []

/-- The values an answer carries. -/
def WorkerResponse.values (r : WorkerResponse) : List Value :=
  r.stateUpdate.mutatedVariables.map (·.2) ++ r.runtimeActions.flatMap RuntimeAction.values

namespace Rehydrate

theorem payload_carried {p : Option Value} (h : ∀ v ∈ p.toList, v.Carried) :
    payload (p.map Value.toWire) = .ok p := by
  cases p with
  | none => rfl
  | some v =>
    simp only [Option.map_some, payload, value_carried (h v (by simp))]
    rfl

theorem headers_carried {hs : List (String × Value)} (h : ∀ v ∈ hs.map (·.2), v.Carried) :
    headers (hs.map (·.1)) (hs.map fun header => header.2.toWire) = .ok hs := by
  have hvalues := values_carried h
  rw [List.map_map] at hvalues
  unfold headers
  rw [if_neg (by simp), show (hs.map fun header => header.2.toWire) =
    hs.map (Value.toWire ∘ fun header => header.2) from rfl, hvalues]
  have hzip : (hs.map (·.1)).zip (hs.map (·.2)) = hs := by simp [List.zip_map']
  exact congrArg Except.ok hzip

theorem runtimeAction_toWire {a : RuntimeAction} (h : ∀ v ∈ a.values, v.Carried) :
    runtimeAction a.toWire = .ok a := by
  cases a with
  | storeLocal key v =>
    simp only [RuntimeAction.toWire, runtimeAction, value_carried (h v (by simp [RuntimeAction.values]))]
    rfl
  | networkCall | resolvedCall =>
    have hp := payload_carried fun v hv => h v (List.mem_append_left _ hv)
    have hhs := headers_carried fun v hv => h v (List.mem_append_right _ hv)
    simp only [RuntimeAction.toWire, runtimeAction, hp, hhs]
    rfl
  | _ => rfl

theorem actions_toWire {actions : List RuntimeAction}
    (h : ∀ v ∈ actions.flatMap RuntimeAction.values, v.Carried) :
    (actions.map RuntimeAction.toWire).mapM runtimeAction = .ok actions := by
  induction actions with
  | nil => rfl
  | cons a actions ih =>
    rw [List.flatMap_cons] at h
    have hhead := runtimeAction_toWire fun v hv => h v (List.mem_append_left _ hv)
    have htail := ih fun v hv => h v (List.mem_append_right _ hv)
    rw [List.map_cons, List.mapM_cons, hhead, htail]
    rfl

/-- An answer of values that the wire carries comes back as it was. -/
theorem workerResponse_toWire {r : WorkerResponse} (h : ∀ v ∈ r.values, v.Carried) :
    workerResponse r.toWire = .ok r := by
  obtain ⟨⟨mutated⟩, actions, gesture⟩ := r
  have hvalues := values_carried fun v hv => h v (List.mem_append_left _ hv)
  have hactions := actions_toWire fun v hv => h v (List.mem_append_right _ hv)
  rw [List.map_map] at hvalues
  have hzip : ((mutated.map fun entry => entry.1.id).map Symbol.mk).zip (mutated.map (·.2)) = mutated := by
    simp [List.map_map, List.zip_map']
  unfold workerResponse WorkerResponse.toWire
  dsimp only
  rw [if_neg (by simp), show (mutated.map fun entry => entry.2.toWire) =
    mutated.map (Value.toWire ∘ fun entry => entry.2) from rfl, hvalues, hactions]
  exact congrArg (fun m => Except.ok (WorkerResponse.mk ⟨m⟩ actions gesture)) hzip

theorem payload_tooDeep {p : Option Value} (h : ∃ v ∈ p.toList, TooDeep v) :
    ∃ e, payload (p.map Value.toWire) = .error e := by
  obtain ⟨v, hv, hdeep⟩ := h
  obtain rfl : p = some v := by simpa using hv
  obtain ⟨e, he⟩ := value_tooDeep hdeep
  simp only [Option.map_some, payload, he]
  exact ⟨e, rfl⟩

theorem headers_tooDeep {hs : List (String × Value)} (h : ∃ v ∈ hs.map (·.2), TooDeep v) :
    ∃ e, headers (hs.map (·.1)) (hs.map fun header => header.2.toWire) = .error e := by
  obtain ⟨e, he⟩ := values_tooDeep h
  rw [List.map_map] at he
  unfold headers
  rw [if_neg (by simp), show (hs.map fun header => header.2.toWire) =
    hs.map (Value.toWire ∘ fun header => header.2) from rfl, he]
  exact ⟨e, rfl⟩

theorem runtimeAction_tooDeep {a : RuntimeAction} (h : ∃ v ∈ a.values, TooDeep v) :
    ∃ e, runtimeAction a.toWire = .error e := by
  obtain ⟨v, hv, hdeep⟩ := h
  -- The payload is read first, then the headers.
  have hcall : ∀ (p : Option Value) (hs : List (String × Value))
      (f : Option Value → List (String × Value) → RuntimeAction), v ∈ p.toList ++ hs.map (·.2) →
      ∃ e, (do
        let p ← payload (p.map Value.toWire)
        return f p (← headers (hs.map (·.1)) (hs.map fun header => header.2.toWire)) :
          Except MizuError RuntimeAction) = .error e := by
    intro p hs f hmem
    cases hp : payload (p.map Value.toWire) with
    | error e => exact ⟨e, rfl⟩
    | ok p' =>
      have hheader : v ∈ hs.map (·.2) := by
        refine (List.mem_append.mp hmem).resolve_left fun hv => ?_
        obtain ⟨e, he⟩ := payload_tooDeep ⟨v, hv, hdeep⟩
        rw [hp] at he
        cases he
      obtain ⟨e, he⟩ := headers_tooDeep ⟨v, hheader, hdeep⟩
      rw [he]
      exact ⟨e, rfl⟩
  cases a with
  | storeLocal key w =>
    obtain rfl : v = w := by simpa [RuntimeAction.values] using hv
    obtain ⟨e, he⟩ := value_tooDeep hdeep
    simp only [RuntimeAction.toWire, runtimeAction, he]
    exact ⟨e, rfl⟩
  | networkCall method sym p pathParam target format hs =>
    exact hcall p hs (fun p hs => .networkCall method sym p pathParam target format hs) hv
  | resolvedCall method url p target format hs =>
    exact hcall p hs (fun p hs => .resolvedCall method url p target format hs) hv
  | _ => simp [RuntimeAction.values] at hv

/-- An answer with a value that is nested too deep is refused as a whole. -/
theorem workerResponse_tooDeep {r : WorkerResponse} (h : ∃ v ∈ r.values, TooDeep v) :
    ∃ e, workerResponse r.toWire = .error e := by
  obtain ⟨⟨mutated⟩, actions, gesture⟩ := r
  obtain ⟨v, hv, hdeep⟩ := h
  unfold workerResponse WorkerResponse.toWire
  dsimp only
  rw [if_neg (by simp), show (mutated.map fun entry => entry.2.toWire) =
    (mutated.map (·.2)).map Value.toWire by rw [List.map_map]; rfl]
  cases hvalues : values ((mutated.map (·.2)).map Value.toWire) 0 with
  | error e => exact ⟨e, rfl⟩
  | ok vals =>
    have haction : v ∈ actions.flatMap RuntimeAction.values := by
      refine (List.mem_append.mp hv).resolve_left fun hv => ?_
      obtain ⟨e, he⟩ := values_tooDeep ⟨v, hv, hdeep⟩
      rw [hvalues] at he
      cases he
    obtain ⟨a, ha, hva⟩ := List.mem_flatMap.mp haction
    cases hactions : (actions.map RuntimeAction.toWire).mapM runtimeAction with
    | error e => exact ⟨e, rfl⟩
    | ok as =>
      obtain ⟨e, he⟩ := runtimeAction_tooDeep ⟨v, hva, hdeep⟩
      obtain ⟨a', -, hok⟩ := (Exec.except_mapM_mem hactions).2 _ (List.mem_map_of_mem ha)
      rw [he] at hok
      cases hok

end Rehydrate

end Mizu
