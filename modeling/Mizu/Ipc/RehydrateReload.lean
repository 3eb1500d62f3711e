import Mizu.Ipc.WireReload

/-!
# Reading a document

`rehydrate_reload_payload` rebuilds a `ReloadPayload` from its wire form, for every wire form. Arenas
are validated before they are handed on, so the result is an `ExprTree` with its proofs; of the
symbols only the keys of three maps are compared with the interner.

* `validateReferences_ok_iff`: what `validate_references` accepts.
* `exprTree_ok_iff`, `action_ok_iff`, `reloadPayload_ok_iff`: when each decoder succeeds, and with what.
-/

namespace Mizu

open Exec List

variable {what : String}

namespace Rehydrate

/-! ## Leaves -/

def binop : WireBinOp → BinOp
  | .add => .add
  | .sub => .sub
  | .mul => .mul
  | .div => .div
  | .eq => .eq
  | .ne => .ne
  | .lt => .lt
  | .gt => .gt
  | .le => .le
  | .ge => .ge
  | .and => .and
  | .or => .or

def method : WireNetworkMethodReload → NetworkMethod
  | .get => .get
  | .post => .post
  | .put => .put
  | .delete => .delete
  | .query => .query

def format : WirePayloadFormatReload → PayloadFormat
  | .json => .json
  | .form => .form
  | .text => .text
  | .yaml => .yaml
  | .multipart => .multipart

def maxTypeDepth : Nat := 64

mutual

/-- `rehydrate_value_type`. -/
def valueType : WireValueType → Nat → Except MizuError ValueType
  | ty, depth =>
    if depth > maxTypeDepth then
      err ("type annotation nested deeper than " ++ toString maxTypeDepth ++ " levels")
    else
      match ty with
      | .num => .ok .num
      | .str => .ok .str
      | .bool => .ok .bool
      | .list inner => do return .list (← valueType inner (depth + 1))
      | .nullable inner => do return .nullable (← valueType inner (depth + 1))
      | .record names types =>
        if names.length ≠ types.length then
          err ("record type has " ++ toString names.length ++ " field names but " ++
            toString types.length ++ " field types")
        else do return .record (names.zip (← valueTypes types (depth + 1)))

def valueTypes : List WireValueType → Nat → Except MizuError (List ValueType)
  | [], _ => .ok []
  | ty :: types, depth => do
    let ty ← valueType ty depth
    return ty :: (← valueTypes types depth)

end

/-! ## Expressions -/

/-- The most nodes an expression may have. -/
def maxArenaNodes : Nat := 2 ^ 20

/-- The numbers of symbols and nodes are machine integers of this many values. -/
def u32Size : Nat := 2 ^ 32

def checkReference (nodeCount : Nat) (id : ExprId) (what : String) (pos : Nat) : Except MizuError Unit :=
  if id ≥ nodeCount then
    err ("arena node " ++ toString pos ++ ": " ++ what ++ " references node " ++ toString id ++
      " but the arena holds only " ++ toString nodeCount ++ " nodes")
  else .ok ()

/-- What `validate_references` does with one node. -/
def checkNode (nodeCount poolLen pos : Nat) : Expr → Except MizuError Unit
  | .literal _ | .var _ => .ok ()
  | .not inner => checkReference nodeCount inner "operand" pos
  | .binaryOp left _ right => do
    checkReference nodeCount left "left operand" pos
    checkReference nodeCount right "right operand" pos
  | .letIn _ value body => do
    checkReference nodeCount value "bound value" pos
    checkReference nodeCount body "body" pos
  | .ifElse condition thenExpr elseExpr => do
    checkReference nodeCount condition "condition" pos
    checkReference nodeCount thenExpr "then branch" pos
    checkReference nodeCount elseExpr "else branch" pos
  | .fieldAccess base _ _ => checkReference nodeCount base "base" pos
  | .functionCall _ start len =>
    -- The source adds in 64 bits, so the sum does not wrap.
    if start + len > poolLen then
      err ("arena node " ++ toString pos ++ ": FunctionCall args window [" ++ toString start ++ ", " ++
        toString (start + len) ++ ") exceeds the " ++ toString poolLen ++ "-entry argument pool")
    else .ok ()

def checkPoolEntry (nodeCount pos : Nat) (id : ExprId) : Except MizuError Unit :=
  if id ≥ nodeCount then
    err ("argument pool entry " ++ toString pos ++ " references node " ++ toString id ++
      " but the arena holds only " ++ toString nodeCount ++ " nodes")
  else .ok ()

/-- A check of every element, each with its position. -/
def forEach {α : Type} (check : Nat → α → Except MizuError Unit) : Nat → List α → Except MizuError Unit
  | _, [] => .ok ()
  | pos, x :: xs => do
    check pos x
    forEach check (pos + 1) xs

/-- `validate_references`. -/
def validateReferences (nodes : List Expr) (argsPool : List ExprId) : Except MizuError Unit := do
  let nodeCount := nodes.length % u32Size
  let poolLen := argsPool.length % u32Size
  forEach (checkNode nodeCount poolLen) 0 nodes
  forEach (checkPoolEntry nodeCount) 0 argsPool

theorem guard_ok_iff {p : Prop} [Decidable p] {message : String} :
    (if p then err message else .ok () : Except MizuError Unit) = .ok () ↔ ¬p := by
  unfold err
  split <;> simp_all

theorem checkPoolEntry_ok_iff {nodeCount pos : Nat} {id : ExprId} :
    checkPoolEntry nodeCount pos id = .ok () ↔ id < nodeCount :=
  guard_ok_iff.trans Nat.not_le

theorem checkReference_ok_iff {nodeCount pos : Nat} {id : ExprId} :
    checkReference nodeCount id what pos = .ok () ↔ id < nodeCount :=
  guard_ok_iff.trans Nat.not_le

theorem unit_bind_ok_iff {α : Type} {x : Except MizuError Unit} {y : Except MizuError α} {a : α} :
    (do x; y) = .ok a ↔ x = .ok () ∧ y = .ok a :=
  except_bind_ok_iff.trans ⟨fun ⟨_, h⟩ => h, fun h => ⟨(), h⟩⟩

theorem checkNode_ok_iff {nodeCount poolLen pos : Nat} {e : Expr} :
    checkNode nodeCount poolLen pos e = .ok () ↔ e.refsValid nodeCount poolLen = true := by
  cases e with
  | literal | var => simp [checkNode, Expr.refsValid]
  | functionCall name start len =>
    rw [Expr.refsValid, decide_eq_true_eq]
    exact guard_ok_iff.trans Nat.not_lt
  | _ =>
    simp only [checkNode, unit_bind_ok_iff, checkReference_ok_iff, Expr.refsValid, Bool.and_eq_true,
      decide_eq_true_eq, and_assoc]

theorem forEach_ok_iff {α : Type} {check : Nat → α → Except MizuError Unit} {P : α → Prop}
    (hcheck : ∀ pos x, check pos x = .ok () ↔ P x) {pos : Nat} {xs : List α} :
    forEach check pos xs = .ok () ↔ ∀ x ∈ xs, P x := by
  induction xs generalizing pos with
  | nil => simp [forEach]
  | cons x xs ih => rw [forEach, unit_bind_ok_iff, hcheck, ih, forall_mem_cons]

theorem validateReferences_ok_iff {nodes : List Expr} {argsPool : List ExprId} :
    validateReferences nodes argsPool = .ok () ↔
      (∀ e ∈ nodes, e.refsValid (nodes.length % u32Size) (argsPool.length % u32Size) = true) ∧
        ∀ id ∈ argsPool, id < nodes.length % u32Size :=
  unit_bind_ok_iff.trans (and_congr
    (forEach_ok_iff (P := (Expr.refsValid _ _ · = true)) fun _ _ => checkNode_ok_iff)
    (forEach_ok_iff (P := (· < nodes.length % u32Size)) fun _ _ => checkPoolEntry_ok_iff))

/-- An arena whose references have been validated. -/
def arenaOf (nodes : List Expr) (argsPool : List ExprId) (h : validateReferences nodes argsPool = .ok ()) :
    ExprArena where
  nodes := nodes
  argsPool := argsPool
  nodes_valid e he :=
    Expr.refsValid_mono (Nat.mod_le ..) (Nat.mod_le ..) ((validateReferences_ok_iff.mp h).1 e he)
  pool_valid id hid := ((validateReferences_ok_iff.mp h).2 id hid).trans_le (Nat.mod_le ..)

/-- The end of `rehydrate_expr_tree`, after the nodes are allocated. -/
def treeOf (nodes : List Expr) (argsPool : List ExprId) (root : Nat) : Except MizuError ExprTree :=
  match h : validateReferences nodes argsPool with
  | .error e => .error e
  | .ok () =>
    if hroot : root < nodes.length % u32Size then
      .ok { arena := arenaOf nodes argsPool h, root, root_valid := hroot.trans_le (Nat.mod_le ..) }
    else
      err ("expression tree root is node " ++ toString root ++ " but the arena holds only " ++
        toString (nodes.length % u32Size) ++ " nodes")

/-- `rehydrate_expr`. -/
def expr : WireExpr → Except MizuError Expr
  | .literal v => do return .literal (← value v 0)
  | .var sym => .ok (.var ⟨sym⟩)
  | .not inner => .ok (.not inner)
  | .binaryOp left op right => .ok (.binaryOp left (binop op) right)
  | .functionCall name argsStart argsLen => .ok (.functionCall ⟨name⟩ argsStart argsLen)
  | .letIn name value body => .ok (.letIn ⟨name⟩ value body)
  | .ifElse condition thenExpr elseExpr => .ok (.ifElse condition thenExpr elseExpr)
  | .fieldAccess base field fieldHash => .ok (.fieldAccess base ⟨field⟩ fieldHash)

/-- `rehydrate_expr_tree`. The pool is pushed as one block, so it starts at 0, and the nodes are
allocated in order, so each gets the number of its position: the source's two checks of that never
fail. -/
def exprTree (tree : WireExprTree) : Except MizuError ExprTree :=
  if tree.nodes.length > maxArenaNodes then
    err ("expression arena has " ++ toString tree.nodes.length ++ " nodes, exceeding the " ++
      toString maxArenaNodes ++ " limit")
  else if tree.argsPool.length ≥ u32Size then
    err "function call has more arguments than can be represented"
  else do
    let nodes ← tree.nodes.mapM expr
    treeOf nodes tree.argsPool tree.root

theorem treeOf_ok_iff {nodes : List Expr} {argsPool : List ExprId} {root : Nat} {t : ExprTree}
    (hnodes : nodes.length < u32Size) (hpool : argsPool.length < u32Size) :
    treeOf nodes argsPool root = .ok t ↔
      t.arena.nodes = nodes ∧ t.arena.argsPool = argsPool ∧ t.root = root := by
  have hvalid : validateReferences nodes argsPool = .ok () ↔
      (∀ e ∈ nodes, e.refsValid nodes.length argsPool.length = true) ∧ ∀ id ∈ argsPool, id < nodes.length := by
    rw [validateReferences_ok_iff, Nat.mod_eq_of_lt hnodes, Nat.mod_eq_of_lt hpool]
  unfold treeOf
  constructor
  · intro h
    split at h
    · cases h
    · split at h
      · cases h
        exact ⟨rfl, rfl, rfl⟩
      · cases h
  · rintro ⟨rfl, rfl, rfl⟩
    split
    · rename_i e he
      rw [hvalid.mpr ⟨t.arena.nodes_valid, t.arena.pool_valid⟩] at he
      cases he
    · rw [dif_pos (by rw [Nat.mod_eq_of_lt hnodes]; exact t.root_valid)]
      rfl

/-- A tree is read exactly if it is within the limits and each of its nodes is read. -/
theorem exprTree_ok_iff {w : WireExprTree} {t : ExprTree} :
    exprTree w = .ok t ↔
      w.nodes.length ≤ maxArenaNodes ∧ w.argsPool.length < u32Size ∧
        w.nodes.mapM expr = .ok t.arena.nodes ∧ t.arena.argsPool = w.argsPool ∧ t.root = w.root := by
  unfold exprTree err
  by_cases hn : w.nodes.length > maxArenaNodes
  · rw [if_pos hn]
    exact iff_of_false nofun fun h => absurd h.1 (Nat.not_le.mpr hn)
  rw [if_neg hn]
  by_cases hp : w.argsPool.length ≥ u32Size
  · grind
  rw [if_neg hp, except_bind_ok_iff]
  have hlt : maxArenaNodes < u32Size := by decide
  constructor
  · grind [treeOf_ok_iff, except_mapM_length]
  · grind [except_mapM_length, treeOf_ok_iff]

/-! ## Actions, functions, bindings -/

def optionTree : Option WireExprTree → Except MizuError (Option ExprTree)
  | none => .ok none
  | some t => do return some (← exprTree t)

/-- The header expressions of a call, each with its name. -/
def headerTrees (names : List String) (exprs : List WireExprTree) :
    Except MizuError (List (String × ExprTree)) :=
  if names.length ≠ exprs.length then
    err ("network call has " ++ toString names.length ++ " header names but " ++ toString exprs.length ++
      " header expressions")
  else do return names.zip (← exprs.mapM exprTree)

/-- `rehydrate_action`. -/
def action : WireAction → Except MizuError Action
  | .eval tree => do return .eval (← exprTree tree)
  | .assign target tree => do return .assign target (← exprTree tree)
  | .navigate url => do return .navigate (← exprTree url)
  | .networkCall m aliasSym payload pathParam targetVar f names exprs => do
    let headers ← headerTrees names exprs
    let payload ← optionTree payload
    let pathParam ← optionTree pathParam
    return .networkCall (method m) ⟨aliasSym⟩ payload pathParam targetVar (format f) headers

/-- `rehydrate_mizu_function`. -/
def mizuFunction (f : WireMizuFunction) : Except MizuError MizuFunction :=
  if f.paramSyms.length ≠ f.paramTypes.length then
    err ("function has " ++ toString f.paramSyms.length ++ " parameter symbols but " ++
      toString f.paramTypes.length ++ " parameter types")
  else do
    let types ← f.paramTypes.mapM (valueType · 0)
    let body ← exprTree f.body
    return { params := (f.paramSyms.map Symbol.mk).zip types, body }

/-- `rehydrate_computed_binding`. -/
def computedBinding (cb : WireComputedBinding) : Except MizuError ComputedBinding := do
  let expr ← exprTree cb.expr
  return { name := ⟨cb.nameSym⟩, expr, dependsOn := cb.dependsOn.map Symbol.mk, tainted := cb.tainted }

/-- `rehydrate_endpoint`. -/
def endpoint (ep : WireUrlEndpoint) : UrlEndpoint where
  kind := match ep.kind with
    | .api => .api
    | .media => .media
  rawTarget := ep.rawTarget

/-! ## The payload -/

def zipLen (keys values : Nat) (what : String) : Except MizuError Unit :=
  if keys ≠ values then
    err (what ++ ": key/value vectors disagree (" ++ toString keys ++ " keys, " ++ toString values ++
      " values)")
  else .ok ()

def checkSym (symbolCount : Nat) (what : String) (s : Nat) : Except MizuError Symbol :=
  if s ≥ symbolCount then
    err (what ++ " references symbol " ++ toString s ++ " but the interner holds only " ++
      toString symbolCount ++ " strings")
  else .ok ⟨s⟩

/-- Inserts the entries one after the other: a later entry replaces an earlier one with its key. -/
def table {κ ν ω : Type} [DecidableEq κ] (key : Nat → Except MizuError κ) (decode : ω → Except MizuError ν) :
    FxHashMap κ ν → List (Nat × ω) → Except MizuError (FxHashMap κ ν)
  | m, [] => .ok m
  | m, (k, w) :: entries => do
    let k ← key k
    let v ← decode w
    table key decode (m.insert k v) entries

/-- The table of a list of strings, whose map is the inverse of the list. -/
def interner (strings : List String) : Interner where
  map := strings.zipIdx.foldl (fun m (s, i) => m.insert s ⟨i % u32Size⟩) ∅
  vec := strings

/-- One initial variable: its name is that of its symbol. -/
def initialVariable (strings : List String) (entry : Nat × WireValue) : Except MizuError (String × Value) := do
  let sym ← checkSym (strings.length % u32Size) "initial variable" entry.1
  match (interner strings).resolve sym with
  | none => err "initial variable symbol not resolvable"
  | some name => return (name, ← value entry.2 0)

/-- The entry of a key that no later one replaces. -/
def kept {ω : Type} (entries : List (Nat × ω)) (k : Nat) : Option ω := entries.reverse.lookup k

/-- `rehydrate_reload_payload`. -/
def reloadPayload (p : WireReloadPayload) : Except MizuError ReloadPayload := do
  let symbolCount := p.internerStrings.length % u32Size
  zipLen p.logicFnKeys.length p.logicFnValues.length "logic functions"
  let logicFns ← table (checkSym symbolCount "logic function") mizuFunction ∅
    (p.logicFnKeys.zip p.logicFnValues)
  zipLen p.clickActionIds.length p.clickActions.length "click actions"
  let clickActions ← table .ok action ∅ (p.clickActionIds.zip p.clickActions)
  zipLen p.submitActionIds.length p.submitActions.length "submit actions"
  let submitActions ← table .ok action ∅ (p.submitActionIds.zip p.submitActions)
  let rootTimerActions ← p.rootTimerActions.mapM action
  zipLen p.initVarKeys.length p.initVarValues.length "initial variables"
  let initialVariables ← (p.initVarKeys.zip p.initVarValues).mapM (initialVariable p.internerStrings)
  zipLen p.urlRegistryKeys.length p.urlRegistryValues.length "url registry"
  let urlRegistry ← table (checkSym symbolCount "url alias") (fun ep => .ok (endpoint ep)) ∅
    (p.urlRegistryKeys.zip p.urlRegistryValues)
  let computedBindings ← p.computedBindings.mapM computedBinding
  return { logicFns, clickActions, submitActions, rootTimerActions, interner := interner p.internerStrings
           initialVariables, urlRegistry, documentDomain := p.documentDomain, computedBindings }

/-! ## What a table holds -/

section Table

variable {κ ν ω : Type} [DecidableEq κ] {key : Nat → Except MizuError κ} {decode : ω → Except MizuError ν}
variable {entries : List (Nat × ω)}

theorem kept_cons {k k' : Nat} {w : ω} :
    kept ((k', w) :: entries) k = (kept entries k).or (if k = k' then some w else none) := by
  grind [kept]

theorem kept_mem {k : Nat} {w : ω} (h : kept entries k = some w) : (k, w) ∈ entries := by
  obtain ⟨front, back, heq, -⟩ := lookup_eq_some_iff.mp h
  rw [← mem_reverse, heq]
  simp

theorem kept_of_nodup {k : Nat} {w : ω} (hnodup : (entries.map (·.1)).Nodup)
    (h : (k, w) ∈ entries) : kept entries k = some w := by
  induction entries with
  | nil => cases h
  | cons entry entries ih =>
    obtain ⟨hfresh, hrest⟩ := nodup_cons.mp hnodup
    rw [kept_cons]
    rcases mem_cons.mp h with rfl | h
    · have hnone : kept entries k = none := by
        refine Option.eq_none_iff_forall_not_mem.mpr fun v hv => ?_
        exact hfresh (mem_map.mpr ⟨_, kept_mem (Option.mem_def.mp hv), rfl⟩)
      simp [hnone]
    · rw [ih hrest h]
      rfl

/-- Every entry of a table that is read has been read. -/
theorem table_entries {m m' : FxHashMap κ ν}
    (h : table key decode m entries = .ok m') {k : Nat} {w : ω} (hmem : (k, w) ∈ entries) :
    (∃ k', key k = .ok k') ∧ ∃ v, decode w = .ok v := by
  induction entries generalizing m with
  | nil => cases hmem
  | cons entry entries ih =>
    obtain ⟨k', hk, h⟩ := except_of_bind_ok h
    obtain ⟨v, hv, h⟩ := except_of_bind_ok h
    rcases mem_cons.mp hmem with rfl | hmem
    · exact ⟨⟨k', hk⟩, v, hv⟩
    · exact ih h hmem

theorem table_ok (h : ∀ entry ∈ entries, (∃ k', key entry.1 = .ok k') ∧ ∃ v, decode entry.2 = .ok v)
    (m : FxHashMap κ ν) : ∃ m', table key decode m entries = .ok m' := by
  induction entries generalizing m with
  | nil => exact ⟨m, rfl⟩
  | cons entry entries ih =>
    obtain ⟨⟨k', hk⟩, v, hv⟩ := h entry mem_cons_self
    obtain ⟨m', hm'⟩ := ih (fun e he => h e (mem_cons_of_mem _ he)) (m.insert k' v)
    exact ⟨m', except_bind_ok_iff.mpr ⟨k', hk, except_bind_ok_iff.mpr ⟨v, hv, hm'⟩⟩⟩

variable (num : κ ≃ Nat)

theorem table_lookup (hkey : ∀ k k', key k = .ok k' → k' = num.symm k)
    {m m' : FxHashMap κ ν} (h : table key decode m entries = .ok m') (k : Nat) (v : ν) :
    m'.lookup (num.symm k) = some v ↔
      (∃ w, kept entries k = some w ∧ decode w = .ok v) ∨
        kept entries k = none ∧ m.lookup (num.symm k) = some v := by
  induction entries generalizing m with
  | nil =>
    cases h
    simp [kept]
  | cons entry entries ih =>
    obtain ⟨k₀, w₀⟩ := entry
    obtain ⟨k', hk, h⟩ := except_of_bind_ok h
    obtain ⟨v₀, hv₀, h⟩ := except_of_bind_ok h
    obtain rfl := hkey _ _ hk
    rw [ih h, kept_cons]
    cases hkept : kept entries k with
    | some w => simp
    | none =>
      by_cases heq : k = k₀
      · subst heq
        simp [Finmap.lookup_insert, hv₀]
      · have hne : num.symm k ≠ num.symm k₀ := fun he => heq (num.symm.injective he)
        simp [heq, Finmap.lookup_insert_of_ne _ hne]

theorem table_lookup_empty (hkey : ∀ k k', key k = .ok k' → k' = num.symm k)
    {m : FxHashMap κ ν} (h : table key decode ∅ entries = .ok m) (k : κ)
    (v : ν) : m.lookup k = some v ↔ ∃ w, kept entries (num k) = some w ∧ decode w = .ok v := by
  have hlookup := table_lookup num hkey h (num k) v
  rw [Equiv.symm_apply_apply] at hlookup
  rw [hlookup]
  simp

/-- The entries of a map give the map back, if its keys pass the check and its values read back. -/
theorem table_toWire {m : FxHashMap κ ν} (hkey : ∀ k k', key k = .ok k' → k' = num.symm k)
    (es : Entries m) (encode : ν → ω) (hpass : ∀ entry ∈ es.list, key (num entry.1) = .ok entry.1) :
    table key decode ∅ (es.list.map fun entry => (num entry.1, encode entry.2)) = .ok m ↔
      ∀ k v, m.lookup k = some v → decode (encode v) = .ok v := by
  have hnodup : ((es.list.map fun entry => (num entry.1, encode entry.2)).map (·.1)).Nodup := by
    rw [map_map, show ((·.1) ∘ fun entry : κ × ν => (num entry.1, encode entry.2)) =
      num ∘ (·.1) from rfl, ← map_map]
    exact es.nodup.map num.injective
  have hkept : ∀ k v, m.lookup k = some v →
      kept (es.list.map fun entry => (num entry.1, encode entry.2)) (num k) = some (encode v) :=
    fun k v hlookup => kept_of_nodup hnodup (mem_map_of_mem ((es.mem_iff k v).mpr hlookup))
  constructor
  · intro h k v hlookup
    obtain ⟨w, hw, hdec⟩ := (table_lookup_empty num hkey h k v).mp hlookup
    rw [hkept k v hlookup] at hw
    cases hw
    exact hdec
  · intro h
    obtain ⟨m', hm'⟩ : ∃ m', table key decode ∅
        (es.list.map fun entry => (num entry.1, encode entry.2)) = .ok m' := by
      refine table_ok (fun entry hentry => ?_) ∅
      obtain ⟨⟨k, v⟩, hmem, rfl⟩ := mem_map.mp hentry
      exact ⟨⟨k, hpass _ hmem⟩, v, h k v ((es.mem_iff k v).mp hmem)⟩
    rw [hm']
    refine congrArg Except.ok (Finmap.ext_lookup fun k => ?_)
    refine Option.ext fun v => ?_
    rw [table_lookup_empty num hkey hm']
    constructor
    · rintro ⟨w, hw, hdec⟩
      obtain ⟨⟨k', v'⟩, hmem, heq⟩ := mem_map.mp (kept_mem hw)
      obtain ⟨hk, rfl⟩ := Prod.mk.inj heq
      obtain rfl := num.injective hk
      have hlookup := (es.mem_iff k' v').mp hmem
      rw [h k' v' hlookup] at hdec
      cases hdec
      exact hlookup
    · exact fun hlookup => ⟨encode v, hkept k v hlookup, h k v hlookup⟩

end Table

end Rehydrate

/-- A symbol is its number. -/
def Symbol.equivNat : Symbol ≃ Nat where
  toFun := Symbol.id
  invFun := Symbol.mk
  left_inv _ := rfl
  right_inv _ := rfl

namespace Rehydrate

theorem checkSym_ok_iff {symbolCount s : Nat} {sym : Symbol} :
    checkSym symbolCount what s = .ok sym ↔ s < symbolCount ∧ sym = ⟨s⟩ := by
  grind [Except.ok.injEq, checkSym, err]

theorem checkSym_symm {symbolCount : Nat} (k : Nat) (k' : Symbol)
    (h : checkSym symbolCount what k = .ok k') : k' = Symbol.equivNat.symm k :=
  (checkSym_ok_iff.mp h).2

theorem ok_refl (k k' : Nat) (h : (.ok k : Except MizuError Nat) = .ok k') : k' = (Equiv.refl Nat).symm k := by
  cases h
  rfl

theorem zipLen_ok_iff {keys values : Nat} {u : Unit} : zipLen keys values what = .ok u ↔ keys = values :=
  guard_ok_iff.trans not_ne_iff

theorem foldl_insert_lookup (entries : List (String × Nat)) (m : FxHashMap String Symbol) (s : String) :
    (entries.foldl (fun m (s, i) => m.insert s ⟨i % u32Size⟩) m).lookup s =
      ((entries.reverse.lookup s).map fun i => (⟨i % u32Size⟩ : Symbol)).or (m.lookup s) := by
  induction entries generalizing m with
  | nil => rfl
  | cons entry entries ih =>
    obtain ⟨t, i⟩ := entry
    rw [foldl_cons, ih, reverse_cons, lookup_append]
    cases entries.reverse.lookup s with
    | some j => rfl
    | none => grind [Finmap.lookup_insert, Finmap.lookup_insert_of_ne, beq_false_of_ne]

/-- The table maps a string to the last position it stands at. -/
theorem interner_get (strings : List String) (s : String) :
    (interner strings).get s = (strings.zipIdx.reverse.lookup s).map fun i => ⟨i % u32Size⟩ :=
  (foldl_insert_lookup _ ∅ s).trans Option.or_none

theorem lookup_zipIdx {strings : List String} {s : String} {i : Nat}
    (h : strings.zipIdx.reverse.lookup s = some i) : strings[i]? = some s := by
  obtain ⟨front, back, heq, -⟩ := lookup_eq_some_iff.mp h
  have hmem : (s, i) ∈ strings.zipIdx := by
    rw [← mem_reverse, heq]
    simp
  exact mem_zipIdx_iff_getElem?.mp hmem

/-- How the fields of a payload come from those of its wire form. -/
structure Reads (w : WireReloadPayload) (p : ReloadPayload) : Prop where
  logicFns_length : w.logicFnKeys.length = w.logicFnValues.length
  logicFns : table (checkSym (w.internerStrings.length % u32Size) "logic function") mizuFunction ∅
    (w.logicFnKeys.zip w.logicFnValues) = .ok p.logicFns
  clickActions_length : w.clickActionIds.length = w.clickActions.length
  clickActions : table .ok action ∅ (w.clickActionIds.zip w.clickActions) = .ok p.clickActions
  submitActions_length : w.submitActionIds.length = w.submitActions.length
  submitActions : table .ok action ∅ (w.submitActionIds.zip w.submitActions) = .ok p.submitActions
  rootTimerActions : w.rootTimerActions.mapM action = .ok p.rootTimerActions
  initialVariables_length : w.initVarKeys.length = w.initVarValues.length
  initialVariables : (w.initVarKeys.zip w.initVarValues).mapM (initialVariable w.internerStrings) =
    .ok p.initialVariables
  urlRegistry_length : w.urlRegistryKeys.length = w.urlRegistryValues.length
  urlRegistry : table (checkSym (w.internerStrings.length % u32Size) "url alias")
    (fun ep => .ok (endpoint ep)) ∅ (w.urlRegistryKeys.zip w.urlRegistryValues) = .ok p.urlRegistry
  computedBindings : w.computedBindings.mapM computedBinding = .ok p.computedBindings
  interner_eq : p.interner = interner w.internerStrings
  documentDomain : p.documentDomain = w.documentDomain

theorem reloadPayload_ok_iff {w : WireReloadPayload} {p : ReloadPayload} :
    reloadPayload w = .ok p ↔ Reads w p := by
  unfold reloadPayload
  simp only [except_bind_ok_iff, zipLen_ok_iff, pure, Except.pure, Except.ok.injEq]
  constructor
  · rintro ⟨_, hfns, _, h1, _, hclicks, _, h2, _, hsubmits, _, h3, _, h4, _, hvars, _, h5, _, haliases,
      _, h6, _, h7, rfl⟩
    exact ⟨hfns, h1, hclicks, h2, hsubmits, h3, h4, hvars, h5, haliases, h6, h7, rfl, rfl⟩
  · rintro ⟨hfns, h1, hclicks, h2, hsubmits, h3, h4, hvars, h5, haliases, h6, h7, hint, hdom⟩
    refine ⟨(), hfns, _, h1, (), hclicks, _, h2, (), hsubmits, _, h3, _, h4, (), hvars, _, h5, (), haliases,
      _, h6, _, h7, ?_⟩
    rw [← hint, ← hdom]

end Rehydrate

end Mizu
