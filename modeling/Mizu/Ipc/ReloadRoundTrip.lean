import Mizu.Ipc.RehydrateReload
import Mizu.Render.Tab

/-!
# A document's way to its worker

Whether `rehydrate_reload_payload` gives back what the window encoded. The decoder has limits of its
own, on types (`ValueType.depth`), on trees (`ExprTree.WithinLimits`) and on values, and the parser
does not make them; `reload_roundtrip_iff` says that they are the only obstacle, for every payload
whose symbols and values are as the load pipeline makes them.
-/

namespace Mizu

open Exec List

/-! ## Types -/

namespace ValueType

mutual

/-- How many lists, records and optional types lie around the innermost type. -/
def depth : ValueType → Nat
  | list inner | nullable inner => inner.depth + 1
  | record fields => depthFields fields
  | num | str | bool => 0

def depthFields : List (String × ValueType) → Nat
  | [] => 0
  | (_, ty) :: fields => max (ty.depth + 1) (depthFields fields)

end

theorem toWireFields_eq (fields : List (String × ValueType)) :
    toWireFields fields = fields.map fun field => field.2.toWire := by
  induction fields with
  | nil => rfl
  | cons field fields ih => grind [toWireFields]

end ValueType

namespace Rehydrate

open ValueType

theorem valueType_of_le {ty : WireValueType} {depth : Nat} (h : depth ≤ maxTypeDepth) :
    valueType ty depth =
      match ty with
      | .num => .ok .num
      | .str => .ok .str
      | .bool => .ok .bool
      | .list inner => do return .list (← valueType inner (depth + 1))
      | .nullable inner => do return .nullable (← valueType inner (depth + 1))
      | .record names types =>
        if names.length ≠ types.length then
          err ("record type has " ++ toString names.length ++ " field names but " ++
            toString types.length ++ " field types")
        else do return .record (names.zip (← valueTypes types (depth + 1))) := by
  grind [valueType]

theorem valueType_of_lt {ty : WireValueType} {depth : Nat} (h : maxTypeDepth < depth) (ty' : ValueType) :
    valueType ty depth ≠ .ok ty' := by
  unfold valueType
  rw [if_pos h]
  exact nofun

theorem valueTypes_length {types : List WireValueType} {depth : Nat} {tys : List ValueType}
    (h : valueTypes types depth = .ok tys) : tys.length = types.length := by
  induction types generalizing tys with
  | nil =>
    cases h
    rfl
  | cons ty types ih =>
    obtain ⟨_, -, h⟩ := except_of_bind_ok h
    obtain ⟨rest, hrest, h⟩ := except_of_bind_ok h
    cases h
    rw [length_cons, length_cons, ih hrest]

/-- A list is rebuilt from its first components and what `tys` are. -/
theorem zip_eq_iff {fields : List (String × ValueType)} {tys : List ValueType}
    (h : tys.length = fields.length) : (fields.map (·.1)).zip tys = fields ↔ tys = fields.map (·.2) := by
  constructor
  · intro hzip
    rw [← hzip, map_snd_zip]
    rw [length_map, h]
  · rintro rfl
    rw [zip_map']
    exact map_id fields

mutual

theorem valueType_toWire : ∀ (ty : ValueType) (depth : Nat),
    valueType ty.toWire depth = .ok ty ↔ depth + ty.depth ≤ maxTypeDepth
  | .num, depth | .str, depth | .bool, depth => by
    simp only [toWire, ValueType.depth, Nat.add_zero]
    rcases Nat.lt_or_ge maxTypeDepth depth with hlt | hle
    · exact iff_of_false (valueType_of_lt hlt _) (Nat.not_le.mpr hlt)
    · exact iff_of_true (valueType_of_le hle) hle
  | .list inner, depth | .nullable inner, depth => by
    rcases Nat.lt_or_ge maxTypeDepth depth with hlt | hle
    · exact iff_of_false (valueType_of_lt hlt _) (by omega)
    · have ih := valueType_toWire inner (depth + 1)
      rw [toWire, valueType_of_le hle, ValueType.depth]
      simp only [except_bind_ok_iff, pure, Except.pure, Except.ok.injEq, ValueType.list.injEq,
        ValueType.nullable.injEq, exists_eq_right, ih]
      omega
  | .record fields, depth => by
    rcases Nat.lt_or_ge maxTypeDepth depth with hlt | hle
    · exact iff_of_false (valueType_of_lt hlt _) (by omega)
    · have ih := valueTypes_toWire fields depth hle
      rw [toWire, valueType_of_le hle, ValueType.depth, ← ih]
      have hlen : (toWireFields fields).length = fields.length := by rw [toWireFields_eq, length_map]
      simp only [length_map, hlen, ne_eq, not_true_eq_false, if_false, except_bind_ok_iff, pure,
        Except.pure, Except.ok.injEq, ValueType.record.injEq]
      constructor
      · grind [zip_eq_iff, valueTypes_length]
      · exact fun htys => ⟨_, htys, (zip_eq_iff (length_map _)).mpr rfl⟩

theorem valueTypes_toWire : ∀ (fields : List (String × ValueType)) (depth : Nat), depth ≤ maxTypeDepth →
    (valueTypes (toWireFields fields) (depth + 1) = .ok (fields.map (·.2)) ↔
      depth + depthFields fields ≤ maxTypeDepth)
  | [], depth, hle => iff_of_true rfl hle
  | (name, ty) :: fields, depth, hle => by
    have hhead := valueType_toWire ty (depth + 1)
    have htail := valueTypes_toWire fields depth hle
    simp only [toWireFields, valueTypes, depthFields, except_bind_ok_iff, pure, Except.pure, Except.ok.injEq,
      map_cons, List.cons.injEq]
    constructor
    · rintro ⟨_, hty, _, htys, rfl, rfl⟩
      have h1 := hhead.mp hty
      have h2 := htail.mp htys
      omega
    · grind

end

end Rehydrate

/-! ## The decoder's limits -/

/-- The values of a tree's literals are in order and carry no file. -/
def ExprTree.Plain (t : ExprTree) : Prop := ∀ v, .literal v ∈ t.arena.nodes → v.WellFormed ∧ v.FileFree

structure ExprTree.WithinLimits (t : ExprTree) : Prop where
  nodes_le : t.arena.nodes.length ≤ Rehydrate.maxArenaNodes
  argsPool_lt : t.arena.argsPool.length < Rehydrate.u32Size
  literals_le : ∀ v, .literal v ∈ t.arena.nodes → v.depth ≤ Rehydrate.maxValueDepth

structure MizuFunction.WithinLimits (f : MizuFunction) : Prop where
  types_le : ∀ param ∈ f.params, param.2.depth ≤ Rehydrate.maxTypeDepth
  body : f.body.WithinLimits

/-- What a payload must keep to for its worker to read it. -/
structure ReloadPayload.WithinLimits (p : ReloadPayload) : Prop where
  functions : ∀ sym f, p.logicFns.lookup sym = some f → f.WithinLimits
  clicks : ∀ node a, p.clickActions.lookup node = some a → ∀ t ∈ a.trees, t.WithinLimits
  submits : ∀ node a, p.submitActions.lookup node = some a → ∀ t ∈ a.trees, t.WithinLimits
  timers : ∀ a ∈ p.rootTimerActions, ∀ t ∈ a.trees, t.WithinLimits
  initialValues : ∀ entry ∈ p.initialVariables, entry.2.depth ≤ Rehydrate.maxValueDepth
  comps : ∀ cb ∈ p.computedBindings, cb.expr.WithinLimits

/-- What the load pipeline makes sure of: one interner numbers the names of the document, with fewer
names than numbers, and its values are built in order and hold no file. -/
structure ReloadPayload.Built (p : ReloadPayload) : Prop where
  interner : p.interner.WellFormed
  interner_lt : p.interner.vec.length < Rehydrate.u32Size
  functionNames : ∀ sym ∈ p.logicFns, sym.id < p.interner.vec.length
  aliases : ∀ sym ∈ p.urlRegistry, sym.id < p.interner.vec.length
  initialNames : ∀ entry ∈ p.initialVariables, ∃ sym, p.interner.get entry.1 = some sym
  initialValues : ∀ entry ∈ p.initialVariables, entry.2.WellFormed ∧ entry.2.FileFree
  functions : ∀ sym f, p.logicFns.lookup sym = some f → f.body.Plain
  clicks : ∀ node a, p.clickActions.lookup node = some a → ∀ t ∈ a.trees, t.Plain
  submits : ∀ node a, p.submitActions.lookup node = some a → ∀ t ∈ a.trees, t.Plain
  timers : ∀ a ∈ p.rootTimerActions, ∀ t ∈ a.trees, t.Plain
  comps : ∀ cb ∈ p.computedBindings, cb.expr.Plain

variable {f : MizuFunction}

namespace Rehydrate

/-! ## Trees -/

theorem value_toWire_iff {v : Value} (hwf : v.WellFormed) (hfree : v.FileFree) :
    value v.toWire 0 = .ok v ↔ v.depth ≤ maxValueDepth := by
  constructor
  · intro h
    by_contra hdeep
    obtain ⟨e, he⟩ := value_tooDeep (Nat.not_le.mp hdeep)
    rw [h] at he
    cases he
  · exact fun hle => value_carried ⟨hwf, hfree, hle⟩

theorem binop_toWire (op : BinOp) : binop op.toWire = op := by cases op <;> rfl

theorem method_toWire (m : NetworkMethod) : method m.toWire = m := by cases m <;> rfl

theorem format_toWire (f : PayloadFormat) : format f.toWire = f := by cases f <;> rfl

theorem endpoint_toWire (ep : UrlEndpoint) : endpoint ep.toWire = ep := by
  obtain ⟨kind, rawTarget⟩ := ep
  cases kind <;> rfl

theorem expr_toWire {e : Expr} (hplain : ∀ v, e = .literal v → v.WellFormed ∧ v.FileFree) :
    expr e.toWire = .ok e ↔ ∀ v, e = .literal v → v.depth ≤ maxValueDepth := by
  cases e with
  | literal v =>
    obtain ⟨hwf, hfree⟩ := hplain v rfl
    simp only [Expr.toWire, expr, except_bind_ok_iff, pure, Except.pure, Except.ok.injEq, Expr.literal.injEq,
      exists_eq_right, forall_eq', value_toWire_iff hwf hfree]
  | binaryOp left op right =>
    rw [Expr.toWire, expr, binop_toWire]
    simp
  | _ => exact iff_of_true rfl (by simp)

/-- A traversal of encoded elements gives them back exactly if each comes back. -/
theorem mapM_toWire {α ω : Type} {decode : ω → Except MizuError α} {encode : α → ω} {as : List α} :
    (as.map encode).mapM decode = .ok as ↔ ∀ a ∈ as, decode (encode a) = .ok a := by
  rw [except_mapM_ok_iff, forall₂_map_left_iff, forall₂_same]

theorem exprTree_toWire {t : ExprTree} (hplain : t.Plain) : exprTree t.toWire = .ok t ↔ t.WithinLimits := by
  rw [exprTree_ok_iff]
  simp only [ExprTree.toWire, length_map, and_true, mapM_toWire]
  have hnodes : (∀ e ∈ t.arena.nodes, expr e.toWire = .ok e) ↔
      ∀ v, .literal v ∈ t.arena.nodes → v.depth ≤ maxValueDepth := by
    constructor
    · intro h v hv
      exact (expr_toWire fun w hw => hplain w (hw ▸ hv)).mp (h _ hv) v rfl
    · intro h e he
      exact (expr_toWire fun v hv => hplain v (hv ▸ he)).mpr fun v hv => h v (hv ▸ he)
  rw [hnodes]
  exact ⟨fun ⟨hn, hp, hl⟩ => ⟨hn, hp, hl⟩, fun ⟨hn, hp, hl⟩ => ⟨hn, hp, hl⟩⟩

theorem optionTree_toWire {t : Option ExprTree} :
    optionTree (t.map ExprTree.toWire) = .ok t ↔ ∀ t' ∈ t.toList, exprTree t'.toWire = .ok t' := by
  cases t with
  | none => exact iff_of_true rfl nofun
  | some t => simp [optionTree, except_bind_ok_iff, pure, Except.pure]

theorem headerTrees_toWire {headers : List (String × ExprTree)} :
    headerTrees (headers.map (·.1)) (headers.map fun header => header.2.toWire) = .ok headers ↔
      ∀ t ∈ headers.map (·.2), exprTree t.toWire = .ok t := by
  unfold headerTrees
  rw [if_neg (by simp), ← mapM_toWire, map_map, except_bind_ok_iff]
  constructor
  · rintro ⟨ts, hts, hzip⟩
    have hlen : ts.length = headers.length := by rw [except_mapM_length hts, length_map]
    have heq : ts = headers.map (·.2) := by
      rw [← Except.ok.inj hzip, map_snd_zip]
      rw [length_map, hlen]
    rwa [heq] at hts
  · intro hts
    refine ⟨_, hts, congrArg Except.ok ?_⟩
    rw [zip_map']
    exact map_id headers

theorem forall_trees {ts : List ExprTree} (hplain : ∀ t ∈ ts, t.Plain) :
    (∀ t ∈ ts, exprTree t.toWire = .ok t) ↔ ∀ t ∈ ts, t.WithinLimits :=
  forall₂_congr fun t ht => exprTree_toWire (hplain t ht)

theorem action_toWire {a : Action} (hplain : ∀ t ∈ a.trees, t.Plain) :
    action a.toWire = .ok a ↔ ∀ t ∈ a.trees, t.WithinLimits := by
  rw [← forall_trees hplain]
  cases a with
  | networkCall m aliasSym payload pathParam targetVar f headers =>
    simp only [Action.toWire, action, Action.trees, except_bind_ok_iff, forall_mem_append, method_toWire,
      format_toWire, pure, Except.pure, Except.ok.injEq, Action.networkCall.injEq, true_and,
      ← optionTree_toWire, ← headerTrees_toWire]
    constructor
    · grind
    · grind
  | _ => simp [Action.toWire, action, Action.trees, except_bind_ok_iff, pure, Except.pure]

theorem valueTypes_zero :
    (f.params.map fun param => param.2.toWire).mapM (valueType · 0) = .ok (f.params.map (·.2)) ↔
      ∀ param ∈ f.params, param.2.depth ≤ maxTypeDepth := by
  rw [show (f.params.map fun param => param.2.toWire) = (f.params.map (·.2)).map ValueType.toWire by
    rw [map_map]; rfl, mapM_toWire, forall_mem_map]
  refine forall₂_congr fun param _ => ?_
  rw [valueType_toWire, Nat.zero_add]

theorem mizuFunction_toWire (hplain : f.body.Plain) : mizuFunction f.toWire = .ok f ↔ f.WithinLimits := by
  have hsyms : (f.params.map (·.1.id)).map Symbol.mk = f.params.map (·.1) := by
    rw [map_map]
    rfl
  unfold mizuFunction MizuFunction.toWire
  dsimp only
  rw [if_neg (by simp), hsyms]
  simp only [except_bind_ok_iff, pure, Except.pure, Except.ok.injEq]
  constructor
  · rintro ⟨types, htypes, body, hbody, hf⟩
    have hlen : types.length = f.params.length := by rw [except_mapM_length htypes, length_map]
    have heq : types = f.params.map (·.2) := by grind [map_snd_zip]
    have hbody' : body = f.body := congrArg MizuFunction.body hf
    subst heq hbody'
    exact ⟨valueTypes_zero.mp htypes, (exprTree_toWire hplain).mp hbody⟩
  · rintro ⟨htypes, hbody⟩
    refine ⟨_, valueTypes_zero.mpr htypes, _, (exprTree_toWire hplain).mpr hbody, ?_⟩
    rw [zip_map']
    exact congrArg (fun params => MizuFunction.mk params f.body) (map_id _)

theorem computedBinding_toWire {cb : ComputedBinding} (hplain : cb.expr.Plain) :
    computedBinding cb.toWire = .ok cb ↔ cb.expr.WithinLimits := by
  have hdeps : (cb.dependsOn.map Symbol.id).map Symbol.mk = cb.dependsOn := by
    rw [map_map]
    exact map_id _
  rw [← exprTree_toWire hplain]
  simp only [computedBinding, ComputedBinding.toWire, hdeps, except_bind_ok_iff, pure, Except.pure,
    Except.ok.injEq]
  constructor
  · grind
  · exact fun h => ⟨_, h, rfl⟩

/-! ## Names -/

/-- A well formed table is the inverse of its list of strings. -/
theorem interner_vec {i : Interner} (hwf : i.WellFormed) (hlt : i.vec.length < u32Size) : interner i.vec = i := by
  have hget : ∀ s, (interner i.vec).get s = i.get s := by
    intro s
    rw [interner_get]
    cases hlookup : i.vec.zipIdx.reverse.lookup s with
    | some j =>
      have hj : i.vec[j]? = some s := lookup_zipIdx hlookup
      have hjlt := (List.getElem?_eq_some_iff.mp hj).1
      rw [Option.map_some, Nat.mod_eq_of_lt (by omega)]
      have hresolve : i.resolve ⟨j⟩ = some s := hj
      exact (hwf.get_of_resolve hresolve).symm
    | none =>
      rw [Option.map_none, eq_comm, Option.eq_none_iff_forall_ne_some]
      intro sym hsym
      have hmem : (s, sym.id) ∈ i.vec.zipIdx := mem_zipIdx_iff_getElem?.mpr (hwf.resolve_of_get hsym)
      have hne := lookup_eq_none_iff.mp hlookup _ (mem_reverse.mpr hmem)
      simp at hne
  obtain ⟨map, vec⟩ := i
  exact congrArg (Interner.mk · vec) (Finmap.ext_lookup hget)

theorem initialVariable_toWire {i : Interner} (hwf : i.WellFormed) (hlt : i.vec.length < u32Size) {name : String}
    {v : Value} {sym : Symbol} (hname : i.get name = some sym) (hv : v.WellFormed) (hfree : v.FileFree) :
    initialVariable i.vec (i.wireSym name, v.toWire) = .ok (name, v) ↔ v.depth ≤ maxValueDepth := by
  have hresolve : i.vec[sym.id]? = some name := hwf.resolve_of_get hname
  have hsym : sym.id < i.vec.length := (List.getElem?_eq_some_iff.mp hresolve).1
  have hwire : i.wireSym name = sym.id := by rw [Interner.wireSym, hname, Option.elim_some]
  have hcheck : checkSym (i.vec.length % u32Size) "initial variable" sym.id = .ok sym :=
    checkSym_ok_iff.mpr ⟨by rwa [Nat.mod_eq_of_lt hlt], rfl⟩
  unfold initialVariable
  rw [interner_vec hwf hlt, hwire]
  simp only [hcheck, except_bind_ok_iff, Except.ok.injEq, exists_eq_left', Interner.resolve, hresolve, pure,
    Except.pure, Prod.mk.injEq, true_and, exists_eq_right, value_toWire_iff hv hfree]

/-! ## The payload -/

theorem key_id {symbolCount : Nat} {what : String} {ν : Type} {m : FxHashMap Symbol ν} (es : Entries m)
    (h : ∀ sym ∈ m, sym.id < symbolCount) :
    ∀ entry ∈ es.list, checkSym symbolCount what (Symbol.equivNat entry.1) = .ok entry.1 :=
  fun entry hentry => checkSym_ok_iff.mpr
    ⟨h _ (Finmap.mem_iff.mpr ⟨entry.2, (es.mem_iff _ _).mp hentry⟩), rfl⟩

variable {p : ReloadPayload}

theorem logicFns_toWire (hbuilt : p.Built) (es : Entries p.logicFns) :
    table (checkSym (p.interner.vec.length % u32Size) "logic function") mizuFunction ∅
        ((es.list.map (·.1.id)).zip (es.list.map fun entry => entry.2.toWire)) = .ok p.logicFns ↔
      ∀ sym f, p.logicFns.lookup sym = some f → f.WithinLimits := by
  rw [zip_map', Nat.mod_eq_of_lt hbuilt.interner_lt]
  refine (table_toWire Symbol.equivNat checkSym_symm es MizuFunction.toWire
    (key_id es hbuilt.functionNames)).trans ?_
  exact forall₂_congr fun sym f => forall_congr' fun hf => mizuFunction_toWire (hbuilt.functions sym f hf)

theorem actions_toWire_iff {m : FxHashMap Nat Action} (es : Entries m)
    (hplain : ∀ node a, m.lookup node = some a → ∀ t ∈ a.trees, t.Plain) :
    table .ok action ∅ ((es.list.map (·.1)).zip (es.list.map fun entry => entry.2.toWire)) = .ok m ↔
      ∀ node a, m.lookup node = some a → ∀ t ∈ a.trees, t.WithinLimits := by
  rw [zip_map']
  refine (table_toWire (Equiv.refl Nat) ok_refl es Action.toWire fun _ _ => rfl).trans ?_
  exact forall₂_congr fun node a => forall_congr' fun ha => action_toWire (hplain node a ha)

theorem urlRegistry_toWire (hbuilt : p.Built) (es : Entries p.urlRegistry) :
    table (checkSym (p.interner.vec.length % u32Size) "url alias") (fun ep => .ok (endpoint ep)) ∅
      ((es.list.map (·.1.id)).zip (es.list.map fun entry => entry.2.toWire)) = .ok p.urlRegistry := by
  rw [zip_map', Nat.mod_eq_of_lt hbuilt.interner_lt]
  refine (table_toWire Symbol.equivNat checkSym_symm es UrlEndpoint.toWire
    (key_id es hbuilt.aliases)).mpr fun sym ep _ => ?_
  rw [endpoint_toWire]

theorem initialVariables_toWire (hbuilt : p.Built) :
    ((p.initialVariables.map fun entry => p.interner.wireSym entry.1).zip
        (p.initialVariables.map fun entry => entry.2.toWire)).mapM (initialVariable p.interner.vec) =
        .ok p.initialVariables ↔
      ∀ entry ∈ p.initialVariables, entry.2.depth ≤ maxValueDepth := by
  rw [zip_map', mapM_toWire]
  refine forall₂_congr fun entry hentry => ?_
  obtain ⟨sym, hsym⟩ := hbuilt.initialNames entry hentry
  obtain ⟨hwf, hfree⟩ := hbuilt.initialValues entry hentry
  exact initialVariable_toWire hbuilt.interner hbuilt.interner_lt hsym hwf hfree

theorem timers_toWire (hbuilt : p.Built) :
    (p.rootTimerActions.map Action.toWire).mapM action = .ok p.rootTimerActions ↔
      ∀ a ∈ p.rootTimerActions, ∀ t ∈ a.trees, t.WithinLimits := by
  rw [mapM_toWire]
  exact forall₂_congr fun a ha => action_toWire (hbuilt.timers a ha)

theorem computedBindings_toWire (hbuilt : p.Built) :
    (p.computedBindings.map ComputedBinding.toWire).mapM computedBinding = .ok p.computedBindings ↔
      ∀ cb ∈ p.computedBindings, cb.expr.WithinLimits := by
  rw [mapM_toWire]
  exact forall₂_congr fun cb hcb => computedBinding_toWire (hbuilt.comps cb hcb)

end Rehydrate

open Rehydrate

/-- A payload of the load pipeline comes back as it was, in whatever order its maps are iterated, exactly
if it is within the decoder's limits. -/
theorem reload_roundtrip_iff (p : ReloadPayload) (order : p.Iteration) (hbuilt : p.Built) :
    Rehydrate.reloadPayload (p.toWire order) = .ok p ↔ p.WithinLimits := by
  rw [reloadPayload_ok_iff]
  constructor
  · intro h
    exact
      { functions := (logicFns_toWire hbuilt order.logicFns).mp h.logicFns
        clicks := (actions_toWire_iff order.clickActions hbuilt.clicks).mp h.clickActions
        submits := (actions_toWire_iff order.submitActions hbuilt.submits).mp h.submitActions
        timers := (timers_toWire hbuilt).mp h.rootTimerActions
        initialValues := (initialVariables_toWire hbuilt).mp h.initialVariables
        comps := (computedBindings_toWire hbuilt).mp h.computedBindings }
  · intro h
    have hlen : ∀ {α β γ : Type} (f : α → β) (g : α → γ) (l : List α), (l.map f).length = (l.map g).length :=
      fun f g l => by rw [length_map, length_map]
    exact
      { logicFns_length := hlen ..
        logicFns := (logicFns_toWire hbuilt order.logicFns).mpr h.functions
        clickActions_length := hlen ..
        clickActions := (actions_toWire_iff order.clickActions hbuilt.clicks).mpr h.clicks
        submitActions_length := hlen ..
        submitActions := (actions_toWire_iff order.submitActions hbuilt.submits).mpr h.submits
        rootTimerActions := (timers_toWire hbuilt).mpr h.timers
        initialVariables_length := hlen ..
        initialVariables := (initialVariables_toWire hbuilt).mpr h.initialValues
        urlRegistry_length := hlen ..
        urlRegistry := urlRegistry_toWire hbuilt order.urlRegistry
        computedBindings := (computedBindings_toWire hbuilt).mpr h.comps
        interner_eq := (interner_vec hbuilt.interner hbuilt.interner_lt).symm
        documentDomain := rfl }

/-! ## What a tab sends -/

/-- The parts of a tab's document as the parsers make them. -/
structure TabState.Parsed {F : Frontend} (tab : TabState F) : Prop where
  interner : tab.store.interner.WellFormed
  interner_lt : tab.store.interner.vec.length < Rehydrate.u32Size
  functionNames : ∀ sym ∈ tab.functions.table, sym.id < tab.store.interner.vec.length
  aliases : ∀ sym ∈ tab.urlRegistry, sym.id < tab.store.interner.vec.length
  globals : ∀ sym, (tab.store.evaluator.getGlobal sym).WellFormed ∧ (tab.store.evaluator.getGlobal sym).FileFree
  functions : ∀ sym f, tab.functions.table.lookup sym = some f → f.body.Plain
  events : ∀ n ∈ tab.dom, ∀ e ∈ n.events, ∀ t ∈ e.action.trees, t.Plain
  timers : ∀ timer ∈ tab.rootTimers, ∀ t ∈ timer.action.trees, t.Plain
  comps : ∀ cb ∈ tab.computedBindings, cb.expr.Plain

namespace TabState

section Actions

variable {pick : EventBlock → Option Action} (hpick : ∀ e a, pick e = some a → e.action = a)

include hpick

theorem insertEvents_mem {n : MizuNode} {node : Nat} {a : Action} {events : List EventBlock}
    {m : FxHashMap Nat Action}
    (h : (events.foldl (fun m e => match pick e with
      | some action => m.insert n.id action
      | none => m) m).lookup node = some a) : m.lookup node = some a ∨ ∃ e ∈ events, e.action = a := by
  induction events generalizing m with
  | nil => exact .inl h
  | cons e events ih =>
    rw [foldl_cons] at h
    rcases ih h with h | ⟨e', he', ha⟩
    · cases heq : pick e with
      | none =>
        simp only [heq] at h
        exact .inl h
      | some action =>
        simp only [heq] at h
        by_cases hid : node = n.id
        · rw [hid, Finmap.lookup_insert] at h
          exact .inr ⟨e, mem_cons_self, (hpick e action heq).trans (Option.some.inj h)⟩
        · rw [Finmap.lookup_insert_of_ne _ hid] at h
          exact .inl h
    · exact .inr ⟨e', mem_cons_of_mem _ he', ha⟩

/-- A table of actions by node holds actions of the document. -/
theorem actionsOf_mem {dom : List MizuNode} {node : Nat} {a : Action}
    (h : (actionsOf pick dom).lookup node = some a) : ∃ n ∈ dom, ∃ e ∈ n.events, e.action = a := by
  have hnodes : ∀ (dom : List MizuNode) (m : FxHashMap Nat Action),
      (dom.foldl (fun m n => n.events.foldl (fun m e => match pick e with
        | some action => m.insert n.id action
        | none => m) m) m).lookup node = some a →
      m.lookup node = some a ∨ ∃ n ∈ dom, ∃ e ∈ n.events, e.action = a := by
    intro dom
    induction dom with
    | nil => exact fun m h => .inl h
    | cons n dom ih =>
      intro m h
      rcases ih _ h with h | ⟨n', hn', hevents⟩
      · rcases insertEvents_mem hpick h with h | hevents
        · exact .inl h
        · exact .inr ⟨n, mem_cons_self, hevents⟩
      · exact .inr ⟨n', mem_cons_of_mem _ hn', hevents⟩
  exact (hnodes dom ∅ h).resolve_left (by simp)

end Actions

/-- What a tab sends is a payload of the load pipeline. -/
theorem reloadPayload_built {F : Frontend} (host : Host) {tab : TabState F} (h : tab.Parsed) :
    (tab.reloadPayload host).Built := by
  have hentries : ∀ entry ∈ tab.initialVariables, ∃ sym, tab.store.interner.resolve sym = some entry.1 ∧
      tab.store.evaluator.getGlobal sym = entry.2 := by
    intro entry hentry
    obtain ⟨⟨name, i⟩, hmem, hentry⟩ := mem_filterMap.mp hentry
    dsimp only at hentry
    split at hentry
    · cases hentry
    · cases hentry
      exact ⟨⟨i⟩, mem_zipIdx_iff_getElem?.mp hmem, rfl⟩
  have hactions : ∀ (pick : EventBlock → Option Action), (∀ e a, pick e = some a → e.action = a) →
      ∀ node a, (actionsOf pick tab.dom).lookup node = some a → ∀ t ∈ a.trees, t.Plain := by
    intro pick hpick node a ha
    obtain ⟨n, hn, e, he, rfl⟩ := actionsOf_mem hpick ha
    exact h.events n hn e he
  exact
    { interner := h.interner
      interner_lt := h.interner_lt
      functionNames := h.functionNames
      aliases := h.aliases
      initialNames := fun entry hentry =>
        let ⟨sym, hsym, _⟩ := hentries entry hentry
        ⟨sym, h.interner.get_of_resolve hsym⟩
      initialValues := fun entry hentry =>
        let ⟨sym, _, hv⟩ := hentries entry hentry
        hv ▸ h.globals sym
      functions := h.functions
      clicks := hactions _ fun e a heq => by
        cases e <;> cases heq
        rfl
      submits := hactions _ fun e a heq => by
        cases e <;> cases heq
        rfl
      timers := fun a ha => by
        obtain ⟨timer, htimer, rfl⟩ := mem_map.mp ha
        exact h.timers timer htimer
      comps := h.comps }

end TabState

/-! ## A deep annotation -/

/-- `list<...<list<num>>...>`. -/
def ValueType.listOf : Nat → ValueType
  | 0 => .num
  | n + 1 => .list (listOf n)

theorem ValueType.depth_listOf (n : Nat) : (listOf n).depth = n := by
  induction n with
  | zero => rfl
  | succ n ih => rw [listOf, depth, ih]

def nullTree : ExprTree where
  arena := { nodes := [.literal .null], argsPool := [], nodes_valid := by decide, pool_valid := by decide }
  root := 0
  root_valid := by decide

/-- A document whose only content is a function with one parameter of the given type. -/
def annotated (ty : ValueType) : ReloadPayload where
  logicFns := Finmap.singleton ⟨0⟩ { params := [(⟨1⟩, ty)], body := nullTree }
  clickActions := ∅
  submitActions := ∅
  rootTimerActions := []
  interner := .ofNames ["f", "x"]
  initialVariables := []
  urlRegistry := ∅
  documentDomain := "localhost"
  computedBindings := []

def annotatedOrder (ty : ValueType) : (annotated ty).Iteration where
  logicFns :=
    { list := [(⟨0⟩, { params := [(⟨1⟩, ty)], body := nullTree })]
      nodup := List.nodup_singleton _
      mem_iff := fun key f => by
        by_cases h : key = ⟨0⟩
        · subst h
          simp [annotated, eq_comm]
        · simp [annotated, h, Finmap.lookup_eq_none.mpr (Finmap.mem_singleton .. |>.not.mpr h)] }
  clickActions := { list := [], nodup := List.nodup_nil, mem_iff := by simp [annotated] }
  submitActions := { list := [], nodup := List.nodup_nil, mem_iff := by simp [annotated] }
  urlRegistry := { list := [], nodup := List.nodup_nil, mem_iff := by simp [annotated] }

theorem annotated_lookup {ty : ValueType} {sym : Symbol}
    (h : (annotated ty).logicFns.lookup sym = some f) : sym = ⟨0⟩ ∧ f = { params := [(⟨1⟩, ty)], body := nullTree } := by
  have hmem := ((annotatedOrder ty).logicFns.mem_iff sym f).mpr h
  exact Prod.mk.inj (mem_singleton.mp hmem)

theorem nullTree_plain : nullTree.Plain := by
  intro v hv
  cases mem_singleton.mp hv
  exact ⟨trivial, trivial⟩

theorem nullTree_withinLimits : nullTree.WithinLimits where
  nodes_le := by decide
  argsPool_lt := by decide
  literals_le := by
    intro v hv
    cases mem_singleton.mp hv
    exact Nat.zero_le _

theorem annotated_built (ty : ValueType) : (annotated ty).Built where
  interner := Interner.ofNames_wellFormed _
  interner_lt := show (Interner.ofNames ["f", "x"]).vec.length < Rehydrate.u32Size by decide
  functionNames := by
    intro sym hsym
    obtain ⟨f, hf⟩ := Finmap.mem_iff.mp hsym
    rw [(annotated_lookup hf).1]
    exact show 0 < (Interner.ofNames ["f", "x"]).vec.length by decide
  aliases := fun sym hsym => absurd hsym (Finmap.notMem_empty)
  initialNames := by simp [annotated]
  initialValues := by simp [annotated]
  functions := by
    intro sym f hf
    rw [(annotated_lookup hf).2]
    exact nullTree_plain
  clicks := by simp [annotated]
  submits := by simp [annotated]
  timers := by simp [annotated]
  comps := by simp [annotated]

theorem annotated_withinLimits (ty : ValueType) (h : ty.depth ≤ Rehydrate.maxTypeDepth) :
    (annotated ty).WithinLimits where
  functions := by
    intro sym f hf
    rw [(annotated_lookup hf).2]
    refine ⟨fun param hparam => ?_, nullTree_withinLimits⟩
    rw [mem_singleton.mp hparam]
    exact h
  clicks := by simp [annotated]
  submits := by simp [annotated]
  timers := by simp [annotated]
  initialValues := by simp [annotated]
  comps := by simp [annotated]

theorem reload_roundtrip_iff_annotated :
    Rehydrate.reloadPayload ((annotated (.listOf 64)).toWire (annotatedOrder _)) = .ok (annotated (.listOf 64)) :=
  (reload_roundtrip_iff (annotated (.listOf 64)) (annotatedOrder _) (annotated_built _)).mpr
    (annotated_withinLimits _ (ValueType.depth_listOf 64).le)

/-- A parameter whose type is nested one level deeper than the decoder reads keeps the whole document from
its worker. -/
theorem deep_annotation_refused :
    ¬∀ (p : ReloadPayload) (order : p.Iteration), p.Built →
      Rehydrate.reloadPayload (p.toWire order) = .ok p := by
  intro h
  have hreads := reloadPayload_ok_iff.mp
    (h (annotated (.listOf 65)) (annotatedOrder _) (annotated_built _))
  have hfns := (logicFns_toWire (annotated_built _) (annotatedOrder (.listOf 65)).logicFns).mp hreads.logicFns
  have hlookup := ((annotatedOrder (.listOf 65)).logicFns.mem_iff _ _).mp mem_cons_self
  have hdepth := (hfns _ _ hlookup).types_le _ mem_cons_self
  rw [ValueType.depth_listOf] at hdepth
  exact absurd hdepth (by decide)

end Mizu
