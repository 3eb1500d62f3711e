import Mizu.Render.Navigate

/-!
# Executing a worker's response

The window applies the variables that a response changed and executes its actions, one by one. All
of them are read against whatever document the tab shows at that moment; `executeCapabilityAction_view` says that
executing an action other than a navigation leaves that document in place.
-/

namespace Mizu

/-- `estimate_value_bytes`. -/
def estimateValueBytes : Value → Nat
  | .string s => s.utf8ByteSize
  | .int _ => 8
  | .decimal _ => 8
  | .bool _ => 1
  | .null => 4
  | .list items => estimateItems items
  | .record fields => estimateFields fields
  | .fileHandle _ data => data.filename.utf8ByteSize
where
  estimateItems : List Value → Nat
    | [] => 0
    | v :: vs => estimateValueBytes v + estimateItems vs
  estimateFields : List (RecordField Value) → Nat
    | [] => 0
    | f :: fs => f.key.utf8ByteSize + estimateValueBytes f.value + estimateFields fs

namespace TabState

variable {F : Frontend} (host : Host)

/-- A `file://` document may not reach a host that is not this machine. -/
def reachesOut (tab : TabState F) (url : String) : Bool :=
  startsWith "file://" tab.chromeState.committedUrl && startsWith "mizu://" url &&
    ((host.uriDomain url).map fun domain => !host.isLocalHost domain).getD true

/-- `execute_capability_action` for the document the tab shows. -/
def executeCapabilityAction (tab : TabState F) (ctx : WindowCtx) :
    RuntimeAction → TabState F × WindowCtx
  | .resolvedCall method url payload targetVariable format headers =>
    if tab.reachesOut host url then (tab, ctx)
    else
      match tab.store.interner.resolve targetVariable with
      | none => (tab, ctx)
      | some targetVar =>
        (tab, ctx.sendNetwork (.fetch tab.id method url targetVar
          (startsWith "mizu://" tab.chromeState.committedUrl) payload format headers))
  | .storeLocal key value =>
    match tab.capabilityPolicy.checkStorageWrite host ctx.storageUsage (estimateValueBytes value) with
    | (.error _, capabilityPolicy, storageUsage) =>
      ({ tab with capabilityPolicy }, { ctx with storageUsage })
    | (.ok (), capabilityPolicy, storageUsage) =>
      ({ tab with capabilityPolicy },
        { ctx with storageUsage }.sendNetwork
          (.storageStore (host.rawDomain tab.chromeState.committedUrl) key value))
  | .getSystemTime targetVariable =>
    match tab.store.interner.resolve targetVariable with
    | none => (tab, ctx)
    | some name => (tab, ctx.sendLogic tab.id (.updateVariable name (.int host.systemTime)))
  | .networkCall method endpointSymbol payload pathParam targetVariable format headers =>
    (tab, ctx.sendNetwork
      (.networkRequest tab.id method endpointSymbol payload pathParam targetVariable format headers))
  | .downloadMedia url =>
    if tab.reachesOut host url then (tab, ctx)
    else
      let chromeUrl := tab.chromeState.committedUrl
      (tab, ctx.sendNetwork (.fetchImage tab.id url (startsWith "mizu://" chromeUrl)
        ((stripPrefix "file:///" chromeUrl).bind host.parentDir)))
  -- Navigations and clipboard actions are intercepted by the caller.
  | .none | .copyToClipboard _ | .navigate _ | .downloadAlias _ => (tab, ctx)

/-- The changed variables go into the store of the document that the tab shows. -/
def applyMutations (tab : TabState F) (mutated : List (Symbol × Value)) : TabState F :=
  { tab with store := mutated.foldl (fun s (sym, v) => s.setSymbol sym v) tab.store }

/-- One action of a response; `gesture` is that of the response. -/
def executeAction (tab : TabState F) (ctx : WindowCtx) (gesture : Bool) :
    RuntimeAction → TabState F × WindowCtx
  | .navigate url =>
    (tab.setLoading true).navigateToUrl host ctx url
      (if gesture then .userGesture else .documentLogic)
  -- Copies to the clipboard, from the tab's own text.
  | .copyToClipboard _ => (tab, ctx)
  | action => tab.executeCapabilityAction host ctx action

/-! ## What an action leaves alone -/

/-- The document of a tab: its generation, its names, its URL and what its policy charges. -/
structure View where
  epoch : Nat
  interner : Interner
  committedUrl : String
  originKey : String
  quotaBytes : Nat

def view (tab : TabState F) : View where
  epoch := tab.a11yEpoch
  interner := tab.store.interner
  committedUrl := tab.chromeState.committedUrl
  originKey := tab.capabilityPolicy.originKey
  quotaBytes := tab.capabilityPolicy.quotaBytes

theorem Same.view_eq {tab tab' : TabState F} (h : Same tab tab') : tab'.view = tab.view := by
  simp only [view, h.a11yEpoch, h.store, h.committedUrl, h.capabilityPolicy]

variable (tab : TabState F)

@[simp] theorem applyMutations_view (mutated : List (Symbol × Value)) :
    (tab.applyMutations mutated).view = tab.view := by
  have hstore : ∀ (s : VariableStore),
      (mutated.foldl (fun s (sym, v) => s.setSymbol sym v) s).interner = s.interner := by
    induction mutated with
    | nil => exact fun _ => rfl
    | cons m ms ih => exact fun s => ih (s.setSymbol m.1 m.2)
  simp only [view, applyMutations, hstore]

@[simp] theorem releaseTimerTick_view : tab.releaseTimerTick.view = tab.view := rfl

@[simp] theorem setLoading_view (loading : Bool) : (tab.setLoading loading).view = tab.view := rfl

/-- Executing a capability leaves the tab's document as it was. -/
theorem executeCapabilityAction_view (ctx : WindowCtx) (action : RuntimeAction) :
    (tab.executeCapabilityAction host ctx action).1.view = tab.view := by
  cases action with
  | resolvedCall method url payload target format headers => grind [executeCapabilityAction]
  | storeLocal key value =>
    obtain ⟨hkey, hquota⟩ := tab.capabilityPolicy.checkStorageWrite_origin host ctx.storageUsage
      (estimateValueBytes value)
    simp only [executeCapabilityAction]
    split
    · grind [view]
    · grind [view]
  | getSystemTime | downloadMedia =>
    simp only [executeCapabilityAction]
    split <;> rfl
  | _ => rfl

end TabState

end Mizu
