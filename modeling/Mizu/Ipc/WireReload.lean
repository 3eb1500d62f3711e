import Mizu.Ipc.Dehydrate

/-!
# What the window sends of a document

The wire form of a `ReloadPayload`. A map becomes two parallel lists, in the order in which the map
is iterated; an arena becomes the list of its nodes and its argument pool; a symbol becomes its
number. Values have the wire form they have in the answers of a worker.
-/

namespace Mizu

/-! ## The wire types -/

inductive WireBinOp where
  | add
  | sub
  | mul
  | div
  | eq
  | ne
  | lt
  | gt
  | le
  | ge
  | and
  | or
  deriving DecidableEq, Repr

/-- The names and the types of a record are parallel lists. -/
inductive WireValueType where
  | num
  | str
  | bool
  | list (inner : WireValueType)
  | record (fieldNames : List String) (fieldTypes : List WireValueType)
  | nullable (inner : WireValueType)

inductive WireExpr where
  | literal (v : WireValue)
  | var (sym : Nat)
  | binaryOp (left : Nat) (op : WireBinOp) (right : Nat)
  | functionCall (name argsStart argsLen : Nat)
  | letIn (name value body : Nat)
  | not (inner : Nat)
  | ifElse (condition thenExpr elseExpr : Nat)
  | fieldAccess (base field : Nat) (fieldHash : UInt32)

structure WireExprTree where
  /-- In allocation order. -/
  nodes : List WireExpr
  argsPool : List Nat
  root : Nat

inductive WireNetworkMethodReload where
  | get
  | post
  | put
  | delete
  | query
  deriving DecidableEq, Repr

inductive WirePayloadFormatReload where
  | json
  | form
  | text
  | yaml
  | multipart
  deriving DecidableEq, Repr

/-- Header names and expressions are parallel lists. -/
inductive WireAction where
  | eval (expr : WireExprTree)
  | assign (target : String) (expr : WireExprTree)
  | navigate (url : WireExprTree)
  | networkCall (method : WireNetworkMethodReload) (aliasSym : Nat)
      (payload pathParam : Option WireExprTree) (targetVar : String) (format : WirePayloadFormatReload)
      (headerNames : List String) (headerExprs : List WireExprTree)

/-- Parameters and their types are parallel lists. -/
structure WireMizuFunction where
  paramSyms : List Nat
  paramTypes : List WireValueType
  body : WireExprTree

structure WireComputedBinding where
  nameSym : Nat
  expr : WireExprTree
  dependsOn : List Nat
  tainted : Bool

inductive WireUrlEndpointKind where
  | api
  | media
  deriving DecidableEq, Repr

structure WireUrlEndpoint where
  kind : WireUrlEndpointKind
  rawTarget : String
  deriving DecidableEq, Repr

/-- Keys and values of a map are parallel lists; nothing in the format makes them equally long. -/
structure WireReloadPayload where
  logicFnKeys : List Nat
  logicFnValues : List WireMizuFunction
  clickActionIds : List Nat
  clickActions : List WireAction
  submitActionIds : List Nat
  submitActions : List WireAction
  rootTimerActions : List WireAction
  /-- The string at a position is that of the symbol of this number. -/
  internerStrings : List String
  initVarKeys : List Nat
  initVarValues : List WireValue
  urlRegistryKeys : List Nat
  urlRegistryValues : List WireUrlEndpoint
  documentDomain : String
  computedBindings : List WireComputedBinding

/-! ## Encoding -/

def BinOp.toWire : BinOp → WireBinOp
  | add => .add
  | sub => .sub
  | mul => .mul
  | div => .div
  | eq => .eq
  | ne => .ne
  | lt => .lt
  | gt => .gt
  | le => .le
  | ge => .ge
  | and => .and
  | or => .or

namespace ValueType

mutual

/-- `From<&ValueType>`. -/
def toWire : ValueType → WireValueType
  | num => .num
  | str => .str
  | bool => .bool
  | list inner => .list inner.toWire
  | record fields => .record (fields.map (·.1)) (toWireFields fields)
  | nullable inner => .nullable inner.toWire

def toWireFields : List (String × ValueType) → List WireValueType
  | [] => []
  | (_, ty) :: fields => ty.toWire :: toWireFields fields

end

end ValueType

def NetworkMethod.toWire : NetworkMethod → WireNetworkMethodReload
  | get => .get
  | post => .post
  | put => .put
  | delete => .delete
  | query => .query

def PayloadFormat.toWire : PayloadFormat → WirePayloadFormatReload
  | json => .json
  | form => .form
  | text => .text
  | yaml => .yaml
  | multipart => .multipart

/-- `wire_expr`. -/
def Expr.toWire : Expr → WireExpr
  | literal v => .literal v.toWire
  | var sym => .var sym.id
  | binaryOp left op right => .binaryOp left op.toWire right
  | functionCall name argsStart argsLen => .functionCall name.id argsStart argsLen
  | letIn name value body => .letIn name.id value body
  | not inner => .not inner
  | ifElse condition thenExpr elseExpr => .ifElse condition thenExpr elseExpr
  | fieldAccess base field fieldHash => .fieldAccess base field.id fieldHash

/-- `wire_expr_tree`. -/
def ExprTree.toWire (t : ExprTree) : WireExprTree where
  nodes := t.arena.nodes.map Expr.toWire
  argsPool := t.arena.argsPool
  root := t.root

/-- `wire_action`. -/
def Action.toWire : Action → WireAction
  | eval expr => .eval expr.toWire
  | assign target expr => .assign target expr.toWire
  | navigate url => .navigate url.toWire
  | networkCall method aliasSym payload pathParam targetVar format headers =>
    .networkCall method.toWire aliasSym.id (payload.map ExprTree.toWire) (pathParam.map ExprTree.toWire)
      targetVar format.toWire (headers.map (·.1)) (headers.map fun header => header.2.toWire)

/-- `wire_mizu_function`. -/
def MizuFunction.toWire (f : MizuFunction) : WireMizuFunction where
  paramSyms := f.params.map (·.1.id)
  paramTypes := f.params.map fun param => param.2.toWire
  body := f.body.toWire

/-- `wire_computed_binding`. -/
def ComputedBinding.toWire (cb : ComputedBinding) : WireComputedBinding where
  nameSym := cb.name.id
  expr := cb.expr.toWire
  dependsOn := cb.dependsOn.map Symbol.id
  tainted := cb.tainted

def EndpointKind.toWire : EndpointKind → WireUrlEndpointKind
  | api => .api
  | media => .media

def UrlEndpoint.toWire (ep : UrlEndpoint) : WireUrlEndpoint where
  kind := ep.kind.toWire
  rawTarget := ep.rawTarget

/-- The entries of a map, each once, in the order in which the map is iterated. -/
structure Entries {κ ν : Type} [DecidableEq κ] (m : FxHashMap κ ν) where
  list : List (κ × ν)
  nodup : (list.map (·.1)).Nodup
  mem_iff : ∀ key v, (key, v) ∈ list ↔ m.lookup key = some v

/-- The orders in which the maps of a payload are iterated. -/
structure ReloadPayload.Iteration (p : ReloadPayload) where
  logicFns : Entries p.logicFns
  clickActions : Entries p.clickActions
  submitActions : Entries p.submitActions
  urlRegistry : Entries p.urlRegistry

theorem entries_exists {κ ν : Type} [DecidableEq κ] (m : FxHashMap κ ν) : Nonempty (Entries m) := by
  induction m using Finmap.induction_on with
  | H s =>
    refine ⟨⟨s.entries.map fun entry => (entry.1, entry.2), ?_, fun key v => ?_⟩⟩
    · rw [List.map_map]
      exact s.keys_nodup
    · rw [Finmap.lookup_toFinmap, ← Option.mem_def, AList.mem_lookup_iff]
      simp

theorem entries_unique {κ ν : Type} [DecidableEq κ] {m : FxHashMap κ ν} (order order' : Entries m)
    (h : order.list.length ≤ 1) : order' = order := by
  obtain ⟨list, hnodup, hmem⟩ := order
  obtain ⟨list', hnodup', hmem'⟩ := order'
  have hperm : list'.Perm list := by
    refine (List.perm_ext_iff_of_nodup (.of_map _ hnodup') (.of_map _ hnodup)).mpr ?_
    rintro ⟨key, v⟩
    rw [hmem, hmem']
  have hlist : list' = list := by
    cases list with
    | nil => exact hperm.eq_nil
    | cons entry list => grind [List.perm_singleton]
  subst hlist
  rfl

def emptyEntries {κ ν : Type} [DecidableEq κ] : Entries (∅ : FxHashMap κ ν) where
  list := []
  nodup := List.nodup_nil
  mem_iff key v := by
    rw [Finmap.lookup_empty]
    exact ⟨nofun, nofun⟩

def singletonEntries {κ ν : Type} [DecidableEq κ] (key : κ) (v : ν) : Entries (Finmap.singleton key v) where
  list := [(key, v)]
  nodup := List.nodup_singleton _
  mem_iff key' v' := by
    rw [List.mem_singleton, Prod.mk.injEq]
    by_cases hkey : key' = key
    · subst hkey
      rw [Finmap.lookup_singleton_eq, Option.some_inj]
      exact ⟨fun h => h.2.symm, fun h => ⟨rfl, h.symm⟩⟩
    · have hnone : (Finmap.singleton (β := fun _ => ν) key v).lookup key' = none :=
        Finmap.lookup_eq_none.mpr fun hmem => hkey (Finmap.mem_singleton _ _ _ |>.mp hmem)
      rw [hnone]
      exact ⟨fun h => absurd h.1 hkey, nofun⟩

theorem iteration_exists (p : ReloadPayload) : Nonempty p.Iteration := by
  obtain ⟨logicFns⟩ := entries_exists p.logicFns
  obtain ⟨clickActions⟩ := entries_exists p.clickActions
  obtain ⟨submitActions⟩ := entries_exists p.submitActions
  obtain ⟨urlRegistry⟩ := entries_exists p.urlRegistry
  exact ⟨⟨logicFns, clickActions, submitActions, urlRegistry⟩⟩

/-- The number written for an initial variable; `u32::MAX` for a name without a symbol. -/
def Interner.wireSym (i : Interner) (name : String) : Nat := (i.get name).elim (2 ^ 32 - 1) (·.id)

/-- `From<&ReloadPayload>`. -/
def ReloadPayload.toWire (p : ReloadPayload) (order : p.Iteration) : WireReloadPayload where
  logicFnKeys := order.logicFns.list.map (·.1.id)
  logicFnValues := order.logicFns.list.map fun entry => entry.2.toWire
  clickActionIds := order.clickActions.list.map (·.1)
  clickActions := order.clickActions.list.map fun entry => entry.2.toWire
  submitActionIds := order.submitActions.list.map (·.1)
  submitActions := order.submitActions.list.map fun entry => entry.2.toWire
  rootTimerActions := p.rootTimerActions.map Action.toWire
  internerStrings := p.interner.vec
  initVarKeys := p.initialVariables.map fun entry => p.interner.wireSym entry.1
  initVarValues := p.initialVariables.map fun entry => entry.2.toWire
  urlRegistryKeys := order.urlRegistry.list.map (·.1.id)
  urlRegistryValues := order.urlRegistry.list.map fun entry => entry.2.toWire
  documentDomain := p.documentDomain
  computedBindings := p.computedBindings.map ComputedBinding.toWire

end Mizu
