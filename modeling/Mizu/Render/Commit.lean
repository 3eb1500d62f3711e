import Mizu.Render.Tab

/-!
# Committing a document

`handleNavigateSuccess` is what the window does with a fetched source text: it moves the origin,
parses and checks the text (`Frontend.loadDocument`) and installs the document
(`reloadTabDocument`).

* `commit_atomic_iff`: exactly when a failure leaves the tab as it was and the origin moves with the
  document.
* `origin_moves_without_document`: it is not always so.
-/

namespace Mizu

def isBidiOverrideOrIsolate (c : Char) : Bool :=
  (0x202a ≤ c.toNat && c.toNat ≤ 0x202e) || (0x2066 ≤ c.toNat && c.toNat ≤ 0x2069)

/-- `strip_bidi_overrides`. -/
def stripBidiOverrides (s : String) : String :=
  String.ofList (s.toList.filter (!isBidiOverrideOrIsolate ·))

/-! ## Loading -/

/-- A document that passed the checks. -/
structure Loaded (F : Frontend) where
  document : Document
  style : F.Style
  urlRegistry : UrlRegistry
  flowMetrics : Nat × Nat × Nat

namespace Frontend

variable (F : Frontend)

/-- A block whose parser fails is logged and replaced by its default. -/
def parseBlock {α : Type} (default : α) (line : String)
    (parse : String → Interner → Except MizuError α × Interner) (block : String) (i : Interner) :
    α × Interner × List String :=
  if isBlank block then (default, i, [])
  else
    match parse block i with
    | (.ok a, i) => (a, i, [])
    | (.error _, i) => (default, i, [line])

/-- The type check and the information-flow check; the line is what the failing one logs. -/
def checkDocument (d : Document) : Except String (List ComputedBinding × Nat × Nat × Nat) :=
  match checkTypes d with
  | .error _ => .error "static type check error"
  | .ok () =>
    match checkInformationFlow F.hashOrder d with
    | .error _ => .error "flow check error"
    | .ok result => .ok result

/-- Parses the blocks and checks the document: the lines logged, and the document unless it is
rejected. -/
def loadBlocks (url : String) (blocks : ParsedSource) : List String × Option (Loaded F) :=
  let (functions, i, log₁) := parseBlock (⟨∅, []⟩ : Functions)
    "logic parse error during navigation" F.parseLogic blocks.logicBlock .new
  let (comps, i, log₂) := parseBlock ([] : List ComputedBinding)
    "computed parse error during navigation" (F.parseComputed functions) blocks.logicBlock i
  let (timers, i, log₃) := parseBlock ([] : List RootTimer)
    "root timer parse error during navigation" F.parseRootTimers blocks.logicBlock i
  let (style, i, log₄) := parseBlock F.noStyle
    "style parse error during navigation" (fun block i => (F.parseStyle block, i)) blocks.styleBlock i
  let (urlRegistry, i, log₅) := parseBlock (∅ : UrlRegistry)
    "urls parse error during navigation" F.parseUrls blocks.urlsBlock i
  let log := log₁ ++ log₂ ++ log₃ ++ log₄ ++ log₅
  match F.parseLayout urlRegistry (startsWith "mizu://" url) functions blocks.layoutBlock i with
  | (.error _, _) => (log ++ ["layout parse error during navigation"], none)
  | (.ok dom, interner) =>
    let document : Document :=
      { dom, timers, functions := functions.table, functionOrder := functions.order, comps, interner }
    match F.checkDocument document with
    | .error line => (log ++ [line], none)
    | .ok (comps, flowMetrics) =>
      (log, some { document := { document with comps }, style, urlRegistry, flowMetrics })

def loadDocument (url source : String) : List String × Option (Loaded F) :=
  match splitSource source with
  | .error _ => (["source split error during navigation"], none)
  | .ok blocks => F.loadBlocks url blocks

end Frontend

/-! ## Installing -/

/-- A tab's document, apart from its variables. -/
structure InstalledDocument (F : Frontend) where
  dom : List MizuNode
  style : F.Style
  layout : F.Layout
  functions : Functions
  computedBindings : List ComputedBinding
  rootTimers : List RootTimer

namespace Loaded

variable {F : Frontend}

def install (loaded : Loaded F) (layout : F.Layout) : InstalledDocument F where
  dom := loaded.document.dom
  style := loaded.style
  layout
  functions := ⟨loaded.document.functions, loaded.document.functionOrder⟩
  computedBindings := loaded.document.comps
  rootTimers := loaded.document.timers

/-- The variables a document starts with. -/
def freshStore (loaded : Loaded F) (url : String) : VariableStore :=
  VariableStore.setRuntime ⟨.new 20000, loaded.document.interner⟩ "window_url" (.string url)

end Loaded

namespace TabState

variable {F : Frontend} (host : Host)

def document (tab : TabState F) : InstalledDocument F :=
  ⟨tab.dom, tab.style, tab.layout, tab.functions, tab.computedBindings, tab.rootTimers⟩

/-- What `handle_navigate_success` does first. -/
def commitOrigin (tab : TabState F) (url : String) : TabState F :=
  { tab with
    chromeState := { tab.chromeState with
      committedUrl := url, url := stripBidiOverrides url, loading := false }
    capabilityPolicy := capabilityPolicyFor host url
    redirectCount := 0
    store := tab.store.setRuntime "window_url" (.string url) }

/-- The assignments of `reload_tab_document` from the new tree on. -/
def installDocument (tab : TabState F) (doc : InstalledDocument F) (store : VariableStore)
    (a11yEpoch : Nat) : TabState F :=
  { tab with
    dom := doc.dom, style := doc.style, layout := doc.layout, functions := doc.functions
    computedBindings := doc.computedBindings, rootTimers := doc.rootTimers
    chromeState := { tab.chromeState with focused := false }
    rootScrollOffsetY := 0, inflightTimerTicks := 0
    store, a11yEpoch }

/-- `reload_tab_document`; the flag says whether it succeeded. -/
def reloadTabDocument (tab : TabState F) (ctx : WindowCtx) (loaded : Loaded F) :
    TabState F × WindowCtx × Bool :=
  let tab := { tab with rootTimers := loaded.document.timers }
  let url := tab.chromeState.committedUrl
  match F.buildTaffyTree loaded.document.dom loaded.style url with
  | .error _ => (tab, ctx, false)
  | .ok layout =>
    let tab := tab.installDocument (loaded.install layout) (loaded.freshStore url) ctx.nextA11yEpoch
    let ctx := { ctx with nextA11yEpoch := ctx.nextA11yEpoch + 1 }
    (tab, tab.triggerLogicReload host ctx, true)

/-- A pending scroll offset of a history step is restored. -/
def restoreScroll (tab : TabState F) : TabState F :=
  match tab.pendingScrollRestore with
  | some y => { tab with pendingScrollRestore := none, rootScrollOffsetY := y }
  | none => tab

/-- `handle_navigate_success`. -/
def handleNavigateSuccess (tab : TabState F) (ctx : WindowCtx) (url source : String) :
    TabState F × WindowCtx :=
  let tab := tab.commitOrigin host url
  match F.loadDocument url source with
  | (log, none) => (tab, ctx.logErrors log)
  | (log, some loaded) =>
    let tab :=
      { tab with flowMetrics := some loaded.flowMetrics, urlRegistry := loaded.urlRegistry }
    match tab.reloadTabDocument host (ctx.logErrors log) loaded with
    | (tab, ctx, false) => (tab, ctx.logErrors ["document reload error"])
    | (tab, ctx, true) => (tab.restoreScroll, ctx)

/-! ## What a commit does -/

section Outcome

variable (tab : TabState F) (ctx : WindowCtx) {url source : String} {log : List String}
  {loaded : Loaded F}

theorem handleNavigateSuccess_rejected (h : F.loadDocument url source = (log, none)) :
    tab.handleNavigateSuccess host ctx url source = (tab.commitOrigin host url, ctx.logErrors log) := by
  simp only [handleNavigateSuccess, h]

theorem handleNavigateSuccess_layoutFailed {e : MizuError}
    (h : F.loadDocument url source = (log, some loaded))
    (hlayout : F.buildTaffyTree loaded.document.dom loaded.style url = .error e) :
    tab.handleNavigateSuccess host ctx url source =
      ({ tab.commitOrigin host url with
          flowMetrics := some loaded.flowMetrics, urlRegistry := loaded.urlRegistry
          rootTimers := loaded.document.timers },
        (ctx.logErrors log).logErrors ["document reload error"]) := by
  simp only [handleNavigateSuccess, h, reloadTabDocument, commitOrigin, hlayout]

/-- The tab after a document was installed. -/
def committed (tab : TabState F) (ctx : WindowCtx) (url : String) (loaded : Loaded F)
    (layout : F.Layout) : TabState F :=
  ({ tab.commitOrigin host url with
      flowMetrics := some loaded.flowMetrics, urlRegistry := loaded.urlRegistry
      rootTimers := loaded.document.timers }).installDocument (loaded.install layout)
    (loaded.freshStore url) ctx.nextA11yEpoch

theorem handleNavigateSuccess_installed {layout : F.Layout}
    (h : F.loadDocument url source = (log, some loaded))
    (hlayout : F.buildTaffyTree loaded.document.dom loaded.style url = .ok layout) :
    tab.handleNavigateSuccess host ctx url source =
      ((tab.committed host ctx url loaded layout).restoreScroll,
        (tab.committed host ctx url loaded layout).triggerLogicReload host
          { ctx.logErrors log with nextA11yEpoch := ctx.nextA11yEpoch + 1 }) := by
  simp only [handleNavigateSuccess, h, reloadTabDocument, commitOrigin, hlayout]
  rfl

theorem restoreScroll_document (tab : TabState F) : tab.restoreScroll.document = tab.document := by
  unfold restoreScroll
  split <;> rfl

theorem restoreScroll_kept (tab : TabState F) :
    tab.restoreScroll.chromeState = tab.chromeState ∧
      tab.restoreScroll.capabilityPolicy = tab.capabilityPolicy ∧
      tab.restoreScroll.urlRegistry = tab.urlRegistry ∧
      tab.restoreScroll.store = tab.store ∧ tab.restoreScroll.a11yEpoch = tab.a11yEpoch := by
  grind [restoreScroll]

/-- What holds of a rejected document, of one without a layout and of an installed one, holds after every commit. -/
theorem handleNavigateSuccess_rule {P : TabState F × WindowCtx → Prop}
    (hrejected : ∀ log, P (tab.commitOrigin host url, ctx.logErrors log))
    (hfailed : ∀ log (loaded : Loaded F),
      P ({ tab.commitOrigin host url with
            flowMetrics := some loaded.flowMetrics, urlRegistry := loaded.urlRegistry
            rootTimers := loaded.document.timers },
          (ctx.logErrors log).logErrors ["document reload error"]))
    (hinstalled : ∀ log loaded layout,
      P ((tab.committed host ctx url loaded layout).restoreScroll,
        (tab.committed host ctx url loaded layout).triggerLogicReload host
          { ctx.logErrors log with nextA11yEpoch := ctx.nextA11yEpoch + 1 })) :
    P (tab.handleNavigateSuccess host ctx url source) := by
  rcases hload : F.loadDocument url source with ⟨log, _ | loaded⟩
  · rw [handleNavigateSuccess_rejected host tab ctx hload]
    exact hrejected log
  cases hlayout : F.buildTaffyTree loaded.document.dom loaded.style url with
  | error e =>
    rw [handleNavigateSuccess_layoutFailed host tab ctx hload hlayout]
    exact hfailed log loaded
  | ok layout =>
    rw [handleNavigateSuccess_installed host tab ctx hload hlayout]
    exact hinstalled log loaded layout

theorem handleNavigateSuccess_origin (url source : String) :
    (tab.handleNavigateSuccess host ctx url source).1.chromeState.committedUrl = url ∧
      (tab.handleNavigateSuccess host ctx url source).1.capabilityPolicy =
        capabilityPolicyFor host url := by
  refine handleNavigateSuccess_rule host tab ctx (P := fun out => out.1.chromeState.committedUrl = url ∧
    out.1.capabilityPolicy = capabilityPolicyFor host url) (fun _ => ⟨rfl, rfl⟩) (fun _ _ => ⟨rfl, rfl⟩) ?_
  intro log loaded layout
  obtain ⟨hchrome, hpolicy, -⟩ := restoreScroll_kept (tab.committed host ctx url loaded layout)
  exact ⟨by rw [hchrome]; rfl, by rw [hpolicy]; rfl⟩

end Outcome

/-! ## Atomicity -/

section Atomicity

variable (tab : TabState F) (ctx : WindowCtx) (url source : String)

/-- Everything that belongs to a document is the same. -/
structure SameDocument (tab tab' : TabState F) : Prop where
  committedUrl : tab'.chromeState.committedUrl = tab.chromeState.committedUrl
  capabilityPolicy : tab'.capabilityPolicy = tab.capabilityPolicy
  urlRegistry : tab'.urlRegistry = tab.urlRegistry
  store : tab'.store = tab.store
  document : tab'.document = tab.document

/-- Some stage failed: it was logged, or the reload could not be handed to the worker. -/
def StageFailed (ctx ctx' : WindowCtx) : Prop :=
  ctx'.errorLog ≠ ctx.errorLog ∨ ctx.logicOpen = false

/-- The tab shows the document of the source text. -/
def Shows (tab : TabState F) (url source : String) : Prop :=
  ∃ log loaded layout, F.loadDocument url source = (log, some loaded) ∧
    tab.document = loaded.install layout

/-- After a failure nothing has changed, and the origin moves exactly with the document. -/
structure CommitsAtomically : Prop where
  unchanged : StageFailed ctx (tab.handleNavigateSuccess host ctx url source).2 →
    SameDocument tab (tab.handleNavigateSuccess host ctx url source).1
  moves : Shows (tab.handleNavigateSuccess host ctx url source).1 url source →
    (tab.handleNavigateSuccess host ctx url source).1.chromeState.committedUrl = url
  stays : ¬Shows (tab.handleNavigateSuccess host ctx url source).1 url source →
    (tab.handleNavigateSuccess host ctx url source).1.chromeState.committedUrl =
      tab.chromeState.committedUrl

/-- Every stage succeeds. -/
def LoadsCleanly : Prop :=
  ∃ loaded layout, F.loadDocument url source = ([], some loaded) ∧
    F.buildTaffyTree loaded.document.dom loaded.style url = .ok layout ∧ ctx.logicOpen = true

/-- The tab is at the URL already, with a fresh policy, and its document does not know its URL. -/
def AtUrl : Prop :=
  tab.chromeState.committedUrl = url ∧ tab.capabilityPolicy = capabilityPolicyFor host url ∧
    tab.store.interner.get "window_url" = none

/-- What is written on the way that loading takes is what the tab holds already. -/
def HoldsAlready : Prop :=
  match F.loadDocument url source with
  | (_, none) => tab.AtUrl host url
  | (_, some loaded) =>
    tab.urlRegistry = loaded.urlRegistry ∧ tab.rootTimers = loaded.document.timers ∧
      match F.buildTaffyTree loaded.document.dom loaded.style url with
      | .error _ => tab.AtUrl host url
      | .ok layout =>
        tab.chromeState.committedUrl = url ∧ tab.capabilityPolicy = capabilityPolicyFor host url ∧
          tab.store = loaded.freshStore url ∧ tab.document = loaded.install layout

variable {tab ctx url source}

/-- Moving the origin changes nothing exactly if the tab is there. -/
theorem atUrl_iff (url : String) {tab' : TabState F} (hurl : tab'.chromeState.committedUrl = url)
    (hpolicy : tab'.capabilityPolicy = capabilityPolicyFor host url)
    (hstore : tab'.store = tab.store.setRuntime "window_url" (.string url)) :
    SameDocument tab tab' ↔
      tab.AtUrl host url ∧ tab'.urlRegistry = tab.urlRegistry ∧ tab'.document = tab.document := by
  constructor
  · intro h
    refine ⟨⟨h.committedUrl.symm.trans hurl, h.capabilityPolicy.symm.trans hpolicy, ?_⟩,
      h.urlRegistry, h.document⟩
    exact (VariableStore.setRuntime_eq_iff _ _ _).mp (hstore.symm.trans h.store)
  · rintro ⟨⟨hu, hp, hw⟩, hregistry, hdocument⟩
    refine ⟨hurl.trans hu.symm, hpolicy.trans hp.symm, hregistry, ?_, hdocument⟩
    rw [hstore, (VariableStore.setRuntime_eq_iff _ _ _).mpr hw]

variable {log : List String}

theorem loadDocument_log (h : F.loadDocument url source = (log, none)) : log ≠ [] := by
  unfold Frontend.loadDocument at h
  split at h
  · cases h
    simp
  unfold Frontend.loadBlocks at h
  dsimp only at h
  split at h
  · cases h
    simp
  split at h
  · cases h
    simp
  · cases h

theorem logErrors_ne (h : log ≠ []) : (ctx.logErrors log).errorLog ≠ ctx.errorLog := by
  intro heq
  exact h (by simpa [WindowCtx.logErrors] using heq)

theorem sendLogic_errorLog (ctx : WindowCtx) (tab : TabId) (event : UiEvent) :
    (ctx.sendLogic tab event).errorLog = ctx.errorLog := by
  unfold WindowCtx.sendLogic
  split <;> rfl

/-- A source text that is rejected moves the origin and nothing else. -/
theorem rejected_iff (hload : F.loadDocument url source = (log, none)) :
    CommitsAtomically host tab ctx url source ↔ tab.AtUrl host url := by
  have hno : ¬Shows (tab.handleNavigateSuccess host ctx url source).1 url source := by
    rintro ⟨_, _, _, h, -⟩
    simp [hload] at h
  have hrun := handleNavigateSuccess_rejected host tab ctx hload
  have hsame : SameDocument tab (tab.handleNavigateSuccess host ctx url source).1 ↔
      tab.AtUrl host url := by
    rw [hrun, atUrl_iff host url rfl rfl rfl]
    exact and_iff_left ⟨rfl, rfl⟩
  constructor
  · intro h
    refine hsame.mp (h.unchanged (.inl ?_))
    rw [hrun]
    exact logErrors_ne (loadDocument_log hload)
  · intro h
    exact ⟨fun _ => hsame.mpr h, fun hshows => absurd hshows hno,
      fun _ => (hsame.mpr h).committedUrl⟩

/-- A document that cannot be laid out leaves its registry and timers behind. -/
theorem layoutFailed_iff {loaded : Loaded F} {e : MizuError}
    (hload : F.loadDocument url source = (log, some loaded))
    (hlayout : F.buildTaffyTree loaded.document.dom loaded.style url = .error e) :
    CommitsAtomically host tab ctx url source ↔
      tab.urlRegistry = loaded.urlRegistry ∧ tab.rootTimers = loaded.document.timers ∧
        tab.AtUrl host url := by
  have hrun := handleNavigateSuccess_layoutFailed host tab ctx hload hlayout
  have hsame : SameDocument tab (tab.handleNavigateSuccess host ctx url source).1 ↔
      tab.urlRegistry = loaded.urlRegistry ∧ tab.rootTimers = loaded.document.timers ∧
        tab.AtUrl host url := by
    rw [hrun, atUrl_iff host url rfl rfl rfl]
    constructor
    · rintro ⟨hat, hregistry, hdocument⟩
      exact ⟨hregistry.symm, (congrArg InstalledDocument.rootTimers hdocument).symm, hat⟩
    · grind [document, commitOrigin]
  constructor
  · intro h
    refine hsame.mp (h.unchanged (.inl ?_))
    rw [hrun]
    simp [WindowCtx.logErrors]
  · intro h
    exact ⟨fun _ => hsame.mpr h,
      fun _ => (handleNavigateSuccess_origin host tab ctx url source).1,
      fun _ => (hsame.mpr h).committedUrl⟩

/-- A document that is installed replaces everything, also when a stage has failed. -/
theorem installed_iff {loaded : Loaded F} {layout : F.Layout}
    (hload : F.loadDocument url source = (log, some loaded))
    (hlayout : F.buildTaffyTree loaded.document.dom loaded.style url = .ok layout) :
    CommitsAtomically host tab ctx url source ↔
      (log = [] ∧ ctx.logicOpen = true) ∨
        (tab.urlRegistry = loaded.urlRegistry ∧ tab.rootTimers = loaded.document.timers ∧
          tab.chromeState.committedUrl = url ∧ tab.capabilityPolicy = capabilityPolicyFor host url ∧
          tab.store = loaded.freshStore url ∧ tab.document = loaded.install layout) := by
  have hrun := handleNavigateSuccess_installed host tab ctx hload hlayout
  obtain ⟨hurl, hpolicy⟩ := handleNavigateSuccess_origin host tab ctx url source
  obtain ⟨-, -, hregistry, hstore, -⟩ := restoreScroll_kept (tab.committed host ctx url loaded layout)
  have hdocument : (tab.handleNavigateSuccess host ctx url source).1.document =
      loaded.install layout := by
    rw [hrun, restoreScroll_document]
    rfl
  have hfailed : StageFailed ctx (tab.handleNavigateSuccess host ctx url source).2 ↔
      ¬(log = [] ∧ ctx.logicOpen = true) := by
    rw [hrun]
    simp only [StageFailed, triggerLogicReload, sendLogic_errorLog, WindowCtx.logErrors]
    rw [not_and_or, Bool.not_eq_true]
    simp
  have hshows : Shows (tab.handleNavigateSuccess host ctx url source).1 url source :=
    ⟨log, loaded, layout, hload, hdocument⟩
  have hsame : SameDocument tab (tab.handleNavigateSuccess host ctx url source).1 ↔
      tab.urlRegistry = loaded.urlRegistry ∧ tab.rootTimers = loaded.document.timers ∧
        tab.chromeState.committedUrl = url ∧ tab.capabilityPolicy = capabilityPolicyFor host url ∧
        tab.store = loaded.freshStore url ∧ tab.document = loaded.install layout := by
    have hreg : (tab.handleNavigateSuccess host ctx url source).1.urlRegistry =
        loaded.urlRegistry := by rw [hrun]; exact hregistry
    have hsto : (tab.handleNavigateSuccess host ctx url source).1.store =
        loaded.freshStore url := by rw [hrun]; exact hstore
    constructor
    · intro h
      have hdoc : tab.document = loaded.install layout := h.document.symm.trans hdocument
      exact ⟨h.urlRegistry.symm.trans hreg, congrArg InstalledDocument.rootTimers hdoc,
        h.committedUrl.symm.trans hurl, h.capabilityPolicy.symm.trans hpolicy,
        h.store.symm.trans hsto, hdoc⟩
    · rintro ⟨hr, -, hu, hp, hs, hd⟩
      exact ⟨hurl.trans hu.symm, hpolicy.trans hp.symm, hreg.trans hr.symm, hsto.trans hs.symm,
        hdocument.trans hd.symm⟩
  constructor
  · intro h
    by_cases hclean : log = [] ∧ ctx.logicOpen = true
    · exact .inl hclean
    · exact .inr (hsame.mp (h.unchanged (hfailed.mpr hclean)))
  · intro h
    refine ⟨fun hf => ?_, fun _ => hurl, fun hno => absurd hshows hno⟩
    rcases h with hclean | hholds
    · exact absurd hclean (hfailed.mp hf)
    · exact hsame.mpr hholds

end Atomicity

end TabState

/-- A commit is atomic exactly if every stage of loading succeeds, or the tab holds already what is
written on the way. -/
theorem commit_atomic_iff {F : Frontend} (host : Host) (tab : TabState F) (ctx : WindowCtx)
    (url source : String) :
    TabState.CommitsAtomically host tab ctx url source ↔
      TabState.LoadsCleanly (F := F) ctx url source ∨
        TabState.HoldsAlready host tab url source := by
  unfold TabState.LoadsCleanly TabState.HoldsAlready
  rcases hload : F.loadDocument url source with ⟨log, _ | loaded⟩
  · rw [TabState.rejected_iff host hload]
    simp
  cases hlayout : F.buildTaffyTree loaded.document.dom loaded.style url with
  | error e =>
    rw [TabState.layoutFailed_iff host hload hlayout]
    simp [hlayout]
  | ok layout =>
    rw [TabState.installed_iff host hload hlayout]
    simp [hlayout]

/-! ## A source text that cannot be split -/

/-- A frontend that reads every block as an empty one. -/
def plainFrontend : Frontend where
  Style := Unit
  Layout := Unit
  noStyle := ()
  parseLogic _ i := (.ok ⟨∅, []⟩, i)
  parseComputed _ _ i := (.ok [], i)
  parseRootTimers _ i := (.ok [], i)
  parseStyle _ := .ok ()
  parseUrls _ i := (.ok ∅, i)
  parseLayout _ _ _ _ i := (.ok [], i)
  buildTaffyTree _ _ _ := .ok ()
  hashOrder := .insertion

/-- A host with no files, on which every name stands for itself. -/
def plainHost : Host where
  canonicalize _ := none
  readToString _ := none
  relativePath _ _ := none
  inSandbox _ _ := false
  parentDir _ := none
  uriDomain := mizuDomain
  hostLiteral _ := none
  storageIdentity name := name
  now := 0
  systemTime := 0
  maxRedirects := 10

/-- A tab that shows an empty document. -/
def plainTab (F : Frontend) (layout : F.Layout) (url : String) : TabState F where
  id := ⟨0⟩
  dom := []
  style := F.noStyle
  layout
  functions := ⟨∅, []⟩
  computedBindings := []
  rootTimers := []
  store := ⟨.new 20000, .new⟩
  chromeState := ⟨url, url, true, false⟩
  capabilityPolicy := capabilityPolicyFor plainHost url
  urlRegistry := ∅
  redirectCount := 0
  history := ⟨[], []⟩
  pendingScrollRestore := none
  rootScrollOffsetY := 0
  inflightTimerTicks := 0
  a11yEpoch := 1
  flowMetrics := none

def plainCtx : WindowCtx where
  storageUsage := ∅
  networkTx := []
  logicTx := []
  logicOpen := true
  nextA11yEpoch := 2
  errorLog := []

/-- The document stays and runs on under the origin that served the broken text. -/
theorem origin_moves_without_document :
    ¬∀ (F : Frontend) (host : Host) (tab : TabState F) (ctx : WindowCtx) (url source : String),
      TabState.CommitsAtomically host tab ctx url source := by
  intro h
  have hcommit := h plainFrontend plainHost (plainTab plainFrontend () "mizu://a.mizu/") plainCtx
    "mizu://b.mizu/" "x"
  have hsplit : (splitSource "x").toOption = none := by decide
  have hload : (plainFrontend.loadDocument "mizu://b.mizu/" "x").2 = none := by
    unfold Frontend.loadDocument
    cases hs : splitSource "x" with
    | error e => rfl
    | ok blocks => simp [hs, Except.toOption] at hsplit
  have hstays := hcommit.stays fun ⟨_, _, _, hsome, _⟩ => by simp [hsome] at hload
  rw [(TabState.handleNavigateSuccess_origin _ _ _ _ _).1] at hstays
  exact absurd hstays (by decide)

end Mizu
