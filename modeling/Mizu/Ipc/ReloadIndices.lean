import Mizu.Ipc.RehydrateReload

/-!
# The indices of a document that was read

Arenas are checked as a whole: every node number and argument window of a payload that was read is
inside its arena. Symbols are compared with the interner only where they are keys of the function
table, of the initial variables or of the endpoint registry. `rehydrated_indices_iff` says what that
leaves: the payload is in range exactly if the wire form was at all its other positions.
-/

namespace Mizu

/-! ## Where symbols stand -/

def Expr.symbols : Expr → List Symbol
  | var sym => [sym]
  | functionCall name _ _ => [name]
  | letIn name _ _ => [name]
  | fieldAccess _ field _ => [field]
  | literal _ | binaryOp _ _ _ | not _ | ifElse _ _ _ => []

def ExprTree.symbols (t : ExprTree) : List Symbol := t.arena.nodes.flatMap Expr.symbols

def Action.symbols : Action → List Symbol
  | eval expr | assign _ expr | navigate expr => expr.symbols
  | networkCall _ aliasSym payload pathParam _ _ headers =>
    aliasSym :: (payload.toList ++ pathParam.toList ++ headers.map (·.2)).flatMap ExprTree.symbols

def MizuFunction.symbols (f : MizuFunction) : List Symbol := f.params.map (·.1) ++ f.body.symbols

def ComputedBinding.symbols (cb : ComputedBinding) : List Symbol :=
  cb.name :: (cb.dependsOn ++ cb.expr.symbols)

/-- Every reference between the nodes of a tree is inside its arena. -/
structure ExprTree.InArena (t : ExprTree) : Prop where
  root : t.root < t.arena.nodes.length
  nodes : ∀ e ∈ t.arena.nodes, e.refsValid t.arena.nodes.length t.arena.argsPool.length = true
  argsPool : ∀ id ∈ t.arena.argsPool, id < t.arena.nodes.length

theorem ExprTree.inArena (t : ExprTree) : t.InArena :=
  ⟨t.root_valid, t.arena.nodes_valid, t.arena.pool_valid⟩

structure Action.InRange (n : Nat) (a : Action) : Prop where
  symbols : ∀ sym ∈ a.symbols, sym.id < n
  trees : ∀ t ∈ a.trees, t.InArena

structure MizuFunction.InRange (n : Nat) (f : MizuFunction) : Prop where
  symbols : ∀ sym ∈ f.symbols, sym.id < n
  body : f.body.InArena

structure ComputedBinding.InRange (n : Nat) (cb : ComputedBinding) : Prop where
  symbols : ∀ sym ∈ cb.symbols, sym.id < n
  expr : cb.expr.InArena

/-- Every symbol of a payload is one of its interner and every node number is one of its arena. -/
structure ReloadPayload.IndicesInRange (p : ReloadPayload) : Prop where
  functionNames : ∀ sym ∈ p.logicFns, sym.id < p.interner.vec.length
  functions : ∀ sym f, p.logicFns.lookup sym = some f → f.InRange p.interner.vec.length
  clicks : ∀ node a, p.clickActions.lookup node = some a → a.InRange p.interner.vec.length
  submits : ∀ node a, p.submitActions.lookup node = some a → a.InRange p.interner.vec.length
  timers : ∀ a ∈ p.rootTimerActions, a.InRange p.interner.vec.length
  interned : ∀ s sym, p.interner.get s = some sym → sym.id < p.interner.vec.length
  initialNames : ∀ entry ∈ p.initialVariables, ∃ sym, p.interner.resolve sym = some entry.1
  aliases : ∀ sym ∈ p.urlRegistry, sym.id < p.interner.vec.length
  comps : ∀ cb ∈ p.computedBindings, cb.InRange p.interner.vec.length

/-! The same for the wire form -/

def WireExpr.symbols : WireExpr → List Nat
  | var sym => [sym]
  | functionCall name _ _ => [name]
  | letIn name _ _ => [name]
  | fieldAccess _ field _ => [field]
  | literal _ | binaryOp _ _ _ | not _ | ifElse _ _ _ => []

def WireExprTree.symbols (t : WireExprTree) : List Nat := t.nodes.flatMap WireExpr.symbols

def WireAction.symbols : WireAction → List Nat
  | eval expr | assign _ expr | navigate expr => expr.symbols
  | networkCall _ aliasSym payload pathParam _ _ _ headerExprs =>
    aliasSym :: (payload.toList ++ pathParam.toList ++ headerExprs).flatMap WireExprTree.symbols

def WireMizuFunction.symbols (f : WireMizuFunction) : List Nat := f.paramSyms ++ f.body.symbols

def WireComputedBinding.symbols (cb : WireComputedBinding) : List Nat :=
  cb.nameSym :: (cb.dependsOn ++ cb.expr.symbols)

/-- The numbers that no check of the decoder looks at, in the entries that the decoder keeps. -/
structure WireReloadPayload.UncheckedInRange (w : WireReloadPayload) : Prop where
  functions : ∀ key f, Rehydrate.kept (w.logicFnKeys.zip w.logicFnValues) key = some f →
    ∀ s ∈ f.symbols, s < w.internerStrings.length
  clicks : ∀ node a, Rehydrate.kept (w.clickActionIds.zip w.clickActions) node = some a →
    ∀ s ∈ a.symbols, s < w.internerStrings.length
  submits : ∀ node a, Rehydrate.kept (w.submitActionIds.zip w.submitActions) node = some a →
    ∀ s ∈ a.symbols, s < w.internerStrings.length
  timers : ∀ a ∈ w.rootTimerActions, ∀ s ∈ a.symbols, s < w.internerStrings.length
  comps : ∀ cb ∈ w.computedBindings, ∀ s ∈ cb.symbols, s < w.internerStrings.length

namespace Rehydrate

open Exec List

/-! ## Decoding keeps the symbols -/

theorem expr_symbols {w : WireExpr} {e : Expr} (h : expr w = .ok e) : e.symbols.map Symbol.id = w.symbols := by
  cases w with
  | literal v =>
    obtain ⟨v', -, h⟩ := except_of_bind_ok h
    cases h
    rfl
  | _ =>
    cases h
    rfl

/-- What holds of each element of a traversal holds of its collected symbols. -/
theorem flatMap_symbols {α ω : Type} {decode : ω → Except MizuError α} {symbols : α → List Symbol}
    {numbers : ω → List Nat}
    (hdecode : ∀ {w a}, decode w = .ok a → (symbols a).map Symbol.id = numbers w) {ws : List ω} {as : List α}
    (h : List.Forall₂ (fun w a => decode w = .ok a) ws as) :
    (as.flatMap symbols).map Symbol.id = ws.flatMap numbers := by
  induction h with
  | nil => rfl
  | cons hhead _ ih => rw [flatMap_cons, flatMap_cons, map_append, hdecode hhead, ih]

theorem exprTree_symbols {w : WireExprTree} {t : ExprTree} (h : exprTree w = .ok t) :
    t.symbols.map Symbol.id = w.symbols :=
  flatMap_symbols expr_symbols (except_mapM_ok_iff.mp (exprTree_ok_iff.mp h).2.2.1)

theorem optionTree_forall₂ {w : Option WireExprTree} {t : Option ExprTree} (h : optionTree w = .ok t) :
    List.Forall₂ (fun w t => exprTree w = .ok t) w.toList t.toList := by
  cases w with
  | none =>
    cases h
    exact .nil
  | some w =>
    obtain ⟨t', ht, h⟩ := except_of_bind_ok h
    cases h
    exact .cons ht .nil

theorem headerTrees_forall₂ {names : List String} {exprs : List WireExprTree}
    {headers : List (String × ExprTree)} (h : headerTrees names exprs = .ok headers) :
    List.Forall₂ (fun w t => exprTree w = .ok t) exprs (headers.map (·.2)) := by
  unfold headerTrees at h
  split at h
  · cases h
  · obtain ⟨ts, hts, h⟩ := except_of_bind_ok h
    cases h
    have hlen := except_mapM_length hts
    rw [map_snd_zip (by omega)]
    exact except_mapM_ok_iff.mp hts

theorem action_symbols {w : WireAction} {a : Action} (h : action w = .ok a) :
    a.symbols.map Symbol.id = w.symbols := by
  cases w with
  | networkCall m aliasSym payload pathParam targetVar f names exprs =>
    obtain ⟨headers, hheaders, h⟩ := except_of_bind_ok h
    obtain ⟨payload', hpayload, h⟩ := except_of_bind_ok h
    obtain ⟨pathParam', hpathParam, h⟩ := except_of_bind_ok h
    cases h
    have htrees := rel_append (rel_append (optionTree_forall₂ hpayload)
      (optionTree_forall₂ hpathParam)) (headerTrees_forall₂ hheaders)
    exact congrArg (aliasSym :: ·) (flatMap_symbols exprTree_symbols htrees)
  | _ =>
    obtain ⟨t, ht, h⟩ := except_of_bind_ok h
    cases h
    exact exprTree_symbols ht

theorem mizuFunction_symbols {w : WireMizuFunction} {f : MizuFunction} (h : mizuFunction w = .ok f) :
    f.symbols.map Symbol.id = w.symbols := by
  unfold mizuFunction at h
  split at h
  · cases h
  · obtain ⟨types, htypes, h⟩ := except_of_bind_ok h
    obtain ⟨body, hbody, h⟩ := except_of_bind_ok h
    cases h
    have hlen := except_mapM_length htypes
    rw [MizuFunction.symbols, map_append, exprTree_symbols hbody,
      map_fst_zip (by rw [length_map]; omega), map_map]
    exact congrArg (· ++ _) (map_id _)

theorem computedBinding_symbols {w : WireComputedBinding} {cb : ComputedBinding}
    (h : computedBinding w = .ok cb) : cb.symbols.map Symbol.id = w.symbols := by
  obtain ⟨t, ht, h⟩ := except_of_bind_ok h
  cases h
  rw [ComputedBinding.symbols, map_cons, map_append, exprTree_symbols ht, map_map]
  exact congrArg (fun l => w.nameSym :: (l ++ _)) (map_id _)

theorem forall_symbols {symbols : List Symbol} {numbers : List Nat} {n : Nat}
    (h : symbols.map Symbol.id = numbers) : (∀ sym ∈ symbols, sym.id < n) ↔ ∀ s ∈ numbers, s < n := by
  rw [← h, forall_mem_map]

/-! ## The payload -/

section Payload

variable {n : Nat}

theorem action_inRange {w : WireAction} {a : Action} (h : action w = .ok a) :
    a.InRange n ↔ ∀ s ∈ w.symbols, s < n :=
  ⟨fun ha => (forall_symbols (action_symbols h)).mp ha.symbols,
    fun hw => ⟨(forall_symbols (action_symbols h)).mpr hw, fun t _ => t.inArena⟩⟩

theorem mizuFunction_inRange {w : WireMizuFunction} {f : MizuFunction} (h : mizuFunction w = .ok f) :
    f.InRange n ↔ ∀ s ∈ w.symbols, s < n :=
  ⟨fun hf => (forall_symbols (mizuFunction_symbols h)).mp hf.symbols,
    fun hw => ⟨(forall_symbols (mizuFunction_symbols h)).mpr hw, f.body.inArena⟩⟩

theorem computedBinding_inRange {w : WireComputedBinding} {cb : ComputedBinding}
    (h : computedBinding w = .ok cb) : cb.InRange n ↔ ∀ s ∈ w.symbols, s < n :=
  ⟨fun hcb => (forall_symbols (computedBinding_symbols h)).mp hcb.symbols,
    fun hw => ⟨(forall_symbols (computedBinding_symbols h)).mpr hw, cb.expr.inArena⟩⟩

/-- A property of the values of a table is the one of the entries it keeps. -/
theorem table_forall {κ ν ω : Type} [DecidableEq κ] {key : Nat → Except MizuError κ}
    {decode : ω → Except MizuError ν} {P : ν → Prop} {Q : ω → Prop} (num : κ ≃ Nat)
    (hkey : ∀ k k', key k = .ok k' → k' = num.symm k) (hPQ : ∀ {w v}, decode w = .ok v → (P v ↔ Q w))
    {m : FxHashMap κ ν} {entries : List (Nat × ω)} (h : table key decode ∅ entries = .ok m) :
    (∀ k v, m.lookup k = some v → P v) ↔ ∀ k w, kept entries k = some w → Q w := by
  constructor
  · intro hP k w hw
    obtain ⟨-, v, hv⟩ := table_entries h (kept_mem hw)
    refine (hPQ hv).mp (hP (num.symm k) v ?_)
    rw [table_lookup_empty num hkey h, Equiv.apply_symm_apply]
    exact ⟨w, hw, hv⟩
  · intro hQ k v hv
    obtain ⟨w, hw, hdec⟩ := (table_lookup_empty num hkey h k v).mp hv
    exact (hPQ hdec).mpr (hQ _ w hw)

theorem mapM_forall {α ω : Type} {decode : ω → Except MizuError α} {P : α → Prop} {Q : ω → Prop}
    (hPQ : ∀ {w a}, decode w = .ok a → (P a ↔ Q w)) {ws : List ω} {as : List α}
    (h : ws.mapM decode = .ok as) : (∀ a ∈ as, P a) ↔ ∀ w ∈ ws, Q w := by
  grind [except_mapM_mem]

/-- The keys of a table are those that passed the check. -/
theorem table_key_lt {ν ω : Type} {symbolCount : Nat} {what : String} {decode : ω → Except MizuError ν}
    {m : FxHashMap Symbol ν} {entries : List (Nat × ω)}
    (h : table (checkSym symbolCount what) decode ∅ entries = .ok m) {sym : Symbol} (hmem : sym ∈ m) :
    sym.id < symbolCount := by
  obtain ⟨v, hv⟩ := Finmap.mem_iff.mp hmem
  obtain ⟨w, hw, -⟩ := (table_lookup_empty Symbol.equivNat checkSym_symm h sym v).mp hv
  obtain ⟨⟨k', hk⟩, -⟩ := table_entries h (kept_mem hw)
  exact (checkSym_ok_iff.mp hk).1

theorem initialVariable_resolve {strings : List String} {entry : Nat × WireValue} {v : String × Value}
    (h : initialVariable strings entry = .ok v) : ∃ sym, (interner strings).resolve sym = some v.1 := by
  obtain ⟨sym, -, h⟩ := except_of_bind_ok h
  split at h
  · cases h
  · rename_i name hname
    obtain ⟨v', -, h⟩ := except_of_bind_ok h
    cases h
    exact ⟨sym, hname⟩

theorem interner_get_lt {strings : List String} {s : String} {sym : Symbol}
    (h : (interner strings).get s = some sym) : sym.id < strings.length := by
  rw [interner_get, Option.map_eq_some_iff] at h
  obtain ⟨i, hi, rfl⟩ := h
  exact (Nat.mod_le ..).trans_lt (List.getElem?_eq_some_iff.mp (lookup_zipIdx hi)).1

end Payload

end Rehydrate

open Rehydrate

/-- A payload that was read has its node numbers and argument windows in range, and its symbols if the
wire form had them in range wherever the decoder does not look. -/
theorem rehydrated_indices_iff (w : WireReloadPayload) (p : ReloadPayload)
    (h : Rehydrate.reloadPayload w = .ok p) : p.IndicesInRange ↔ w.UncheckedInRange := by
  have hreads := reloadPayload_ok_iff.mp h
  have hstrings : p.interner.vec = w.internerStrings := by
    rw [hreads.interner_eq]
    rfl
  have hcount : w.internerStrings.length % u32Size ≤ w.internerStrings.length := Nat.mod_le ..
  have hfns := table_forall (P := MizuFunction.InRange w.internerStrings.length) Symbol.equivNat checkSym_symm
    mizuFunction_inRange hreads.logicFns
  have hclicks := table_forall (P := Action.InRange w.internerStrings.length) (Equiv.refl Nat) ok_refl
    action_inRange hreads.clickActions
  have hsubmits := table_forall (P := Action.InRange w.internerStrings.length) (Equiv.refl Nat) ok_refl
    action_inRange hreads.submitActions
  have htimers := mapM_forall (P := Action.InRange w.internerStrings.length) action_inRange
    hreads.rootTimerActions
  have hcomps := mapM_forall (P := ComputedBinding.InRange w.internerStrings.length) computedBinding_inRange
    hreads.computedBindings
  constructor
  · intro hp
    have hfunctions := hp.functions
    have hclick := hp.clicks
    have hsubmit := hp.submits
    have htimer := hp.timers
    have hcomp := hp.comps
    rw [hstrings] at hfunctions hclick hsubmit htimer hcomp
    exact ⟨hfns.mp hfunctions, hclicks.mp hclick, hsubmits.mp hsubmit, htimers.mp htimer, hcomps.mp hcomp⟩
  · intro hw
    constructor
    case initialNames =>
      intro entry hentry
      obtain ⟨_, -, hread⟩ := (Exec.except_mapM_mem hreads.initialVariables).1 entry hentry
      rw [hreads.interner_eq]
      exact initialVariable_resolve hread
    all_goals rw [hstrings]
    case functionNames => exact fun sym hsym => (table_key_lt hreads.logicFns hsym).trans_le hcount
    case functions => exact hfns.mpr hw.functions
    case clicks => exact hclicks.mpr hw.clicks
    case submits => exact hsubmits.mpr hw.submits
    case timers => exact htimers.mpr hw.timers
    case interned =>
      rw [hreads.interner_eq]
      exact fun s sym => interner_get_lt
    case aliases => exact fun sym hsym => (table_key_lt hreads.urlRegistry hsym).trans_le hcount
    case comps => exact hcomps.mpr hw.comps

/-- A document without any symbol, and a timer that reads the fifth one. -/
def strayTimer : WireReloadPayload where
  logicFnKeys := []
  logicFnValues := []
  clickActionIds := []
  clickActions := []
  submitActionIds := []
  submitActions := []
  rootTimerActions := [.eval { nodes := [.var 5], argsPool := [], root := 0 }]
  internerStrings := []
  initVarKeys := []
  initVarValues := []
  urlRegistryKeys := []
  urlRegistryValues := []
  documentDomain := "localhost"
  computedBindings := []

def strayTimerRead : ReloadPayload where
  logicFns := ∅
  clickActions := ∅
  submitActions := ∅
  rootTimerActions := [.eval
    { arena := { nodes := [.var ⟨5⟩], argsPool := [], nodes_valid := by decide, pool_valid := by decide }
      root := 0, root_valid := by decide }]
  interner := interner []
  initialVariables := []
  urlRegistry := ∅
  documentDomain := "localhost"
  computedBindings := []

theorem strayTimer_read : Rehydrate.reloadPayload strayTimer = .ok strayTimerRead :=
  reloadPayload_ok_iff.mpr ⟨rfl, rfl, rfl, rfl, rfl, rfl, rfl, rfl, rfl, rfl, rfl, rfl, rfl, rfl⟩

theorem rehydrated_indices_iff_strayTimer :
    strayTimerRead.IndicesInRange ↔ strayTimer.UncheckedInRange :=
  rehydrated_indices_iff strayTimer strayTimerRead strayTimer_read

/-- A payload may be read although it names a symbol its interner does not hold. -/
theorem stray_symbol_is_read :
    ¬∀ (w : WireReloadPayload) (p : ReloadPayload), Rehydrate.reloadPayload w = .ok p → p.IndicesInRange := by
  intro h
  have htimer := (h _ _ strayTimer_read).timers _ (List.mem_singleton.mpr rfl)
  have hlt : 5 < 0 := htimer.symbols ⟨5⟩ (List.mem_singleton.mpr rfl)
  omega

end Mizu
