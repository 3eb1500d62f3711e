import Mizu.Flow.Check
import Mizu.Network
import Mizu.Security.Quota
import Mizu.Splitter
import Mizu.TypeCheck.Infer
import Mizu.Types.Store

/-!
# A tab of the window

`TabState` is what one open document owns, `WindowCtx` what the window shares with all of them: the
quota ledger, the two outgoing channels, the generation counter and the log. The parsers and the
layout engine are a `Frontend`.
-/

namespace Mizu

/-- The declared functions, and the order in which their table is iterated. -/
structure Functions where
  table : FunctionTable
  order : List Symbol

/-- The stages of loading a document that are taken as they are. A parser that is given an interner
also returns it, with what it has interned, if it fails. -/
structure Frontend where
  Style : Type
  Layout : Type
  /-- No rules and no variants. -/
  noStyle : Style
  parseLogic : String → Interner → Except MizuError Functions × Interner
  parseComputed : Functions → String → Interner → Except MizuError (List ComputedBinding) × Interner
  parseRootTimers : String → Interner → Except MizuError (List RootTimer) × Interner
  parseStyle : String → Except MizuError Style
  parseUrls : String → Interner → Except MizuError UrlRegistry × Interner
  parseLayout : UrlRegistry → (isRemote : Bool) → Functions → String → Interner →
    Except MizuError (List MizuNode) × Interner
  buildTaffyTree : List MizuNode → Style → (chromeUrl : String) → Except MizuError Layout
  /-- How the information-flow check iterates over its sets. -/
  hashOrder : HashOrder

structure HistoryEntry where
  url : String
  scrollY : Int
  deriving DecidableEq, Repr

/-- Two stacks, the latest entry last. -/
structure HistoryStack where
  back : List HistoryEntry
  forward : List HistoryEntry
  deriving DecidableEq, Repr

def maxHistoryEntries : Nat := 100

/-- `push_capped`. -/
def pushCapped (stack : List HistoryEntry) (entry : HistoryEntry) : List HistoryEntry :=
  let stack := stack ++ [entry]
  if stack.length > maxHistoryEntries then stack.drop 1 else stack

namespace HistoryStack

def recordNavigation (h : HistoryStack) (leaving : HistoryEntry) : HistoryStack where
  back := pushCapped h.back leaving
  forward := []

def goBack (h : HistoryStack) (leaving : HistoryEntry) : Option (HistoryEntry × HistoryStack) :=
  h.back.getLast?.map fun target => (target, ⟨h.back.dropLast, pushCapped h.forward leaving⟩)

def goForward (h : HistoryStack) (leaving : HistoryEntry) : Option (HistoryEntry × HistoryStack) :=
  h.forward.getLast?.map fun target => (target, ⟨pushCapped h.back leaving, h.forward.dropLast⟩)

end HistoryStack

structure ChromeState where
  /-- The origin of record. -/
  committedUrl : String
  /-- The text of the URL bar. -/
  url : String
  loading : Bool
  focused : Bool

structure TabState (F : Frontend) where
  id : TabId
  dom : List MizuNode
  style : F.Style
  layout : F.Layout
  functions : Functions
  computedBindings : List ComputedBinding
  rootTimers : List RootTimer
  store : VariableStore
  chromeState : ChromeState
  capabilityPolicy : CapabilityPolicy
  urlRegistry : UrlRegistry
  redirectCount : Nat
  history : HistoryStack
  pendingScrollRestore : Option Int
  rootScrollOffsetY : Int
  inflightTimerTicks : Nat
  /-- The generation of the node ids, another one for each document. -/
  a11yEpoch : Nat
  flowMetrics : Option (Nat × Nat × Nat)

/-- What a tab's operations share with the rest of the window. -/
structure WindowCtx where
  storageUsage : StorageUsageLedger
  /-- Commands sent to the network worker. -/
  networkTx : List NetworkCmd
  /-- Events sent to the logic worker. -/
  logicTx : List (TabId × UiEvent)
  /-- Whether the logic worker's end of the channel is still there. -/
  logicOpen : Bool
  nextA11yEpoch : Nat
  /-- Lines logged at level error. -/
  errorLog : List String

namespace WindowCtx

/-- A send to the logic worker. Callers ignore whether it succeeds. -/
def sendLogic (ctx : WindowCtx) (tab : TabId) (event : UiEvent) : WindowCtx :=
  if ctx.logicOpen then { ctx with logicTx := ctx.logicTx ++ [(tab, event)] } else ctx

def sendNetwork (ctx : WindowCtx) (cmd : NetworkCmd) : WindowCtx :=
  { ctx with networkTx := ctx.networkTx ++ [cmd] }

def logErrors (ctx : WindowCtx) (lines : List String) : WindowCtx :=
  { ctx with errorLog := ctx.errorLog ++ lines }

end WindowCtx

namespace TabState

variable {F : Frontend}

/-- `reset_redirect_count`. -/
def resetRedirectCount (tab : TabState F) : TabState F := { tab with redirectCount := 0 }

/-- `register_redirect`: counts a hop and says whether the chain may go on. -/
def registerRedirect (host : Host) (tab : TabState F) : Bool × TabState F :=
  (tab.redirectCount + 1 ≤ host.maxRedirects, { tab with redirectCount := tab.redirectCount + 1 })

def setLoading (tab : TabState F) (loading : Bool) : TabState F :=
  { tab with chromeState := { tab.chromeState with loading } }

def maxInflightTimerTicks : Nat := 128

/-- `may_dispatch_timer_tick`. -/
def mayDispatchTimerTick (tab : TabState F) : Bool × TabState F :=
  if tab.inflightTimerTicks ≥ maxInflightTimerTicks then (false, tab)
  else (true, { tab with inflightTimerTicks := tab.inflightTimerTicks + 1 })

/-- `release_timer_tick`. -/
def releaseTimerTick (tab : TabState F) : TabState F :=
  { tab with inflightTimerTicks := tab.inflightTimerTicks - 1 }

/-- The globals that are not null, by name. The source iterates over a hash map. -/
def initialVariables (tab : TabState F) : List (String × Value) :=
  tab.store.interner.vec.zipIdx.filterMap fun (name, i) =>
    let v := tab.store.evaluator.getGlobal ⟨i⟩
    if v.isNull then none else some (name, v)

def actionsOf (pick : EventBlock → Option Action) (dom : List MizuNode) : FxHashMap Nat Action :=
  dom.foldl (fun m n => n.events.foldl (fun m e =>
    match pick e with
    | some action => m.insert n.id action
    | none => m) m) ∅

/-- What `trigger_logic_reload` sends. -/
def reloadPayload (host : Host) (tab : TabState F) : ReloadPayload where
  logicFns := tab.functions.table
  clickActions := actionsOf (fun | .click a => some a | .submit _ => none) tab.dom
  submitActions := actionsOf (fun | .submit a => some a | .click _ => none) tab.dom
  rootTimerActions := tab.rootTimers.map (·.action)
  interner := tab.store.interner
  initialVariables := tab.initialVariables
  urlRegistry := tab.urlRegistry
  documentDomain :=
    if startsWith "file://" tab.chromeState.committedUrl then "localhost"
    else host.rawDomain tab.chromeState.committedUrl
  computedBindings := tab.computedBindings

/-- `trigger_logic_reload`. -/
def triggerLogicReload (host : Host) (tab : TabState F) (ctx : WindowCtx) : WindowCtx :=
  ctx.sendLogic tab.id (.reload (tab.reloadPayload host))

end TabState

end Mizu
