import Mizu.Lib.LruCache
import Mizu.Lib.Transition
import Mizu.Messages

/-!
# Images in flight

The window keeps one cache of decoded images for all tabs, keyed by URL. Painting an image that has no slot
marks it as loading and asks the network worker for it, in the name of the painted tab; the other tabs that paint
it meanwhile only wait. `ImageWindow.step` is one move of the window, the user or the worker.

* `image_completions_kept`: as long as every image arrives before the tab that asked for it is closed, a slot is
  loading only while its fetch is outstanding, and every tab that waited is laid out with the image.
* `requester_closed_loses_image`: if that tab is closed, the result is dropped, and the slot is loading for good.

The window has a size: without one nothing is laid out.
-/

namespace Mizu

open Transition List

/-! ## The state -/

/-- A decoded image, by its size. -/
structure AnimatedImage where
  width : Nat
  height : Nat
  deriving DecidableEq, Repr

inductive AssetSlot where
  | loading
  | ready (image : AnimatedImage)
  | failed
  deriving DecidableEq, Repr

/-- The image of a slot. -/
def AssetSlot.image : AssetSlot → Option AnimatedImage
  | ready image => some image
  | _ => none

/-- What images are to a tab. -/
structure ImageTab where
  id : TabId
  /-- The images of the document, in order. -/
  images : List String
  /-- The sizes that the layout tree was built with. -/
  taffy : List (Option AnimatedImage)
  /-- The layout of that tree was computed. -/
  laidOut : Bool
  /-- To be laid out when the tab is switched to. -/
  layoutStale : Bool
  deriving DecidableEq, Repr

abbrev ImageCache := LruCache String AssetSlot

/-- `NetworkCmd::FetchImage`. -/
structure FetchImage where
  tab : TabId
  url : String
  deriving DecidableEq, Repr

/-- `NetworkResult::FetchImageSuccess` and `FetchImageFailed`. -/
structure ImageResult where
  tab : TabId
  url : String
  image : Option AnimatedImage
  deriving DecidableEq, Repr

structure ImageWindow where
  tabs : List ImageTab
  activeTab : Nat
  nextTabId : Nat
  imageCache : ImageCache
  /-- The tabs that wait for a URL; none for a URL that is not in the table. -/
  fetchingImages : String → List TabId
  /-- What the network worker was asked for and has not answered. -/
  requests : List FetchImage
  /-- What it answered and the window has not read. -/
  network : List ImageResult

/-! ## Laying out -/

section Layout

/-- The images of `build_taffy_tree`: the size of an image is read from the cache. -/
def buildTaffyTree : List String → ImageCache → List (Option AnimatedImage) × ImageCache
  | [], cache => ([], cache)
  | url :: urls, cache =>
    let (slot, cache) := cache.get url
    let (tree, cache) := buildTaffyTree urls cache
    (slot.bind AssetSlot.image :: tree, cache)

/-- `rebuild_tab_taffy_after_image`: a new tree, without its layout. -/
def rebuildTabTaffyAfterImage (tab : ImageTab) (cache : ImageCache) : ImageTab × ImageCache :=
  let (tree, cache) := buildTaffyTree tab.images cache
  ({ tab with taffy := tree, laidOut := false }, cache)

/-- `resize_tab_viewport`. -/
def resizeTabViewport (tab : ImageTab) (cache : ImageCache) : ImageTab × ImageCache :=
  let (tree, cache) := buildTaffyTree tab.images cache
  ({ tab with taffy := tree, laidOut := true, layoutStale := false }, cache)

/-- `process_network_result`, for an image. -/
def processImageResult (result : ImageResult) (tab : ImageTab) (cache : ImageCache) : ImageTab × ImageCache :=
  match result.image with
  | some image =>
    let (tab, cache) := rebuildTabTaffyAfterImage tab (cache.put result.url (.ready image))
    resizeTabViewport tab cache
  | none => resizeTabViewport tab (cache.put result.url .failed)

/-- What a waiting tab is told. -/
def relayoutWaiter (tab : ImageTab) (cache : ImageCache) : ImageTab × ImageCache :=
  let (tab, cache) := rebuildTabTaffyAfterImage tab cache
  ({ tab with layoutStale := true }, cache)

end Layout

/-! ## Moves -/

def maxOpenTabs : Nat := 32

/-- `IMAGE_CACHE_CAPACITY`. -/
def imageCacheCapacity : Nat := 200

inductive ImageMove where
  /-- A frame: the tab on screen is painted, with these images. -/
  | paint (urls : List String)
  /-- An action of a document downloads an image. -/
  | download (tab : TabId) (url : String)
  /-- The network worker answers one of its requests. -/
  | complete (request : Nat) (image : Option AnimatedImage)
  /-- The window reads a result. -/
  | drain
  /-- A document is loaded into a tab. -/
  | load (tab : TabId) (images : List String)
  | resize
  | switchTo (tab : TabId)
  | openTab
  | closeTab (tab : TabId)

namespace ImageWindow

def start : ImageWindow where
  tabs := [⟨⟨0⟩, [], [], true, false⟩]
  activeTab := 0
  nextTabId := 1
  imageCache := .new imageCacheCapacity (by decide)
  fetchingImages _ := []
  requests := []
  network := []

/-- Lets a function change a tab and the cache: `split_tab`. Ids are not reused, so it is one tab. -/
def onTab (w : ImageWindow) (id : TabId) (f : ImageTab → ImageCache → ImageTab × ImageCache) : ImageWindow :=
  match w.tabs.find? (·.id = id) with
  | none => w
  | some tab =>
    { w with
      tabs := w.tabs.map fun t => if t.id = id then (f t w.imageCache).1 else t
      imageCache := (f tab w.imageCache).2 }

/-- `register_image_waiter`. -/
def registerImageWaiter (w : ImageWindow) (url : String) (tab : TabId) : ImageWindow :=
  if tab ∈ w.fetchingImages url then w
  else { w with fetchingImages := Function.update w.fetchingImages url (w.fetchingImages url ++ [tab]) }

/-- An image of `paint_node`. -/
def paintImage (w : ImageWindow) (tab : TabId) (url : String) : ImageWindow :=
  let (slot, cache) := w.imageCache.get url
  let w := { w with imageCache := cache }
  match slot with
  | some (.ready _) | some .failed => w
  | some .loading => w.registerImageWaiter url tab
  | none =>
    let w := { w with imageCache := w.imageCache.put url .loading }.registerImageWaiter url tab
    { w with requests := w.requests ++ [⟨tab, url⟩] }

/-- `notify_image_waiters`. -/
def notifyImageWaiters (w : ImageWindow) (url : String) (requester : TabId) : ImageWindow :=
  (w.fetchingImages url).foldl
    (fun w waiter => if waiter = requester then w else w.onTab waiter relayoutWaiter)
    { w with fetchingImages := Function.update w.fetchingImages url [] }

/-- A round of `drain_network_results`: a result for a closed tab is dropped. -/
def drain (w : ImageWindow) (result : ImageResult) : ImageWindow :=
  if w.tabs.any (·.id = result.tab) then
    (w.onTab result.tab (processImageResult result)).notifyImageWaiters result.url result.tab
  else w

/-- `switch_to_tab`. -/
def switchToTab (w : ImageWindow) (id : TabId) : ImageWindow :=
  match w.tabs.findIdx? (·.id = id) with
  | none => w
  | some pos =>
    if pos = w.activeTab then w
    else
      let w := { w with activeTab := pos }
      if w.tabs[pos]?.any (·.layoutStale) then w.onTab id resizeTabViewport else w

/-- `open_tab`. -/
def openTab (w : ImageWindow) : ImageWindow :=
  if maxOpenTabs ≤ w.tabs.length then w
  else { w with tabs := w.tabs ++ [⟨⟨w.nextTabId⟩, [], [], false, false⟩], nextTabId := w.nextTabId + 1 }

/-- `close_tab`: the last tab stays. -/
def closeTab (w : ImageWindow) (id : TabId) : ImageWindow :=
  match w.tabs.findIdx? (·.id = id) with
  | none => w
  | some pos =>
    if w.tabs.length = 1 then w
    else
      let tabs := w.tabs.eraseIdx pos
      let active :=
        if pos < w.activeTab || tabs.length ≤ w.activeTab then w.activeTab - 1 else w.activeTab
      { w with
        fetchingImages := fun url => (w.fetchingImages url).filter (· ≠ id)
        tabs
        activeTab := min active (tabs.length - 1) }

/-- The tab on screen. -/
def active (w : ImageWindow) : Option ImageTab := w.tabs[w.activeTab]?

def step (w : ImageWindow) : ImageMove → Option ImageWindow
  | .paint urls => w.active.map fun tab => urls.foldl (fun w url => w.paintImage tab.id url) w
  | .download tab url => some { w with requests := w.requests ++ [⟨tab, url⟩] }
  | .complete i image =>
    w.requests[i]?.map fun request =>
      { w with
        requests := w.requests.eraseIdx i
        network := w.network ++ [⟨request.tab, request.url, image⟩] }
  | .drain =>
    match w.network with
    | [] => none
    | result :: rest => some ({ w with network := rest }.drain result)
  | .load tab images => some (w.onTab tab fun t cache =>
      let (t, cache) := rebuildTabTaffyAfterImage { t with images } cache
      resizeTabViewport t cache)
  | .resize =>
    w.active.map fun tab =>
      let w :=
        { w with
          tabs := w.tabs.map fun (t : ImageTab) => if t.id = tab.id then t else { t with layoutStale := true } }
      w.onTab tab.id resizeTabViewport
  | .switchTo id => some (w.switchToTab id)
  | .openTab => some w.openTab
  | .closeTab id => some (w.closeTab id)

/-! ## What is kept -/

/-- A fetch of the image is under way. -/
def Outstanding (w : ImageWindow) (url : String) : Prop :=
  (∃ request ∈ w.requests, request.url = url) ∨ ∃ result ∈ w.network, result.url = url

/-- What is loading will arrive. -/
def LoadingOutstanding (w : ImageWindow) : Prop :=
  ∀ url, w.imageCache.peek url = some .loading → w.Outstanding url

/-- The slot of an image that arrived. -/
def Settled (w : ImageWindow) (url : String) : Prop :=
  ∃ slot, w.imageCache.peek url = some slot ∧ slot ≠ .loading

/-- The sizes of images as the cache has them. -/
def treeOf (cache : ImageCache) (urls : List String) : List (Option AnimatedImage) :=
  urls.map fun url => (cache.peek url).bind AssetSlot.image

/-- The tree of a tab has the sizes of the cache; it was laid out, or is marked to be. -/
structure Rebuilt (w : ImageWindow) (tab : ImageTab) : Prop where
  tree : tab.taffy = treeOf w.imageCache tab.images
  marked : tab.laidOut = true ∨ tab.layoutStale = true

/-- The tree of a tab has the sizes of the cache, and is laid out when it is on screen. -/
structure Relaid (w : ImageWindow) (tab : ImageTab) : Prop where
  tree : tab.taffy = treeOf w.imageCache tab.images
  shown : tab.laidOut = true ∨ tab.layoutStale = true ∧ ∀ onScreen, w.active = some onScreen → onScreen.id ≠ tab.id

/-- No completion is lost: what is loading will arrive, and once it did its slot is settled and every tab
that waited is relaid out. -/
structure CompletionsKept (w : ImageWindow) : Prop where
  loading : w.LoadingOutstanding
  completed : ∀ result rest w', w.network = result :: rest → w.step .drain = some w' →
    w'.Settled result.url ∧ ∀ tab ∈ w'.tabs, tab.id ∈ w.fetchingImages result.url → w'.Relaid tab

/-- The tab that asked for an image is open when its result is read. -/
def RequesterOpen (w : ImageWindow) : ImageMove → Prop
  | .drain => ∀ result ∈ w.network.head?, ∃ tab ∈ w.tabs, tab.id = result.tab
  | _ => True

instance (w : ImageWindow) (move : ImageMove) : Decidable (w.RequesterOpen move) := by
  unfold RequesterOpen
  split <;> infer_instance

/-! ## Slots -/

section Slots

/-- The two caches hold the same; the order of use may differ. -/
def SameSlots (cache cache' : ImageCache) : Prop := ∀ url, cache'.peek url = cache.peek url

theorem SameSlots.treeOf_eq {cache cache' : ImageCache} (h : SameSlots cache cache') (urls : List String) :
    treeOf cache' urls = treeOf cache urls := by
  unfold treeOf
  congr 1
  funext url
  rw [h url]

theorem buildTaffyTree_spec (urls : List String) (cache : ImageCache) :
    (buildTaffyTree urls cache).1 = treeOf cache urls ∧ SameSlots cache (buildTaffyTree urls cache).2 := by
  induction urls generalizing cache with
  | nil => exact ⟨rfl, fun _ => rfl⟩
  | cons url urls ih =>
    have hget : SameSlots cache (cache.promote url) := LruCache.peek_promote cache url
    obtain ⟨htree, hslots⟩ := ih (cache.promote url)
    constructor
    · show (cache.peek url).bind AssetSlot.image :: (buildTaffyTree urls (cache.promote url)).1 = _
      rw [htree, hget.treeOf_eq]
      rfl
    · exact fun u => (hslots u).trans (hget u)

variable (tab : ImageTab) (cache : ImageCache)

/-- A tab that was told of an image. -/
def told (cache : ImageCache) (tab : ImageTab) : ImageTab :=
  { tab with taffy := treeOf cache tab.images, laidOut := false, layoutStale := true }

theorem relayoutWaiter_spec :
    (relayoutWaiter tab cache).1 = told cache tab ∧ SameSlots cache (relayoutWaiter tab cache).2 := by
  obtain ⟨htree, hslots⟩ := buildTaffyTree_spec tab.images cache
  refine ⟨?_, hslots⟩
  show ({ tab with taffy := (buildTaffyTree tab.images cache).1, laidOut := false, layoutStale := true } :
    ImageTab) = _
  rw [htree]
  rfl

theorem resizeTabViewport_spec :
    (resizeTabViewport tab cache).1 =
        { tab with taffy := treeOf cache tab.images, laidOut := true, layoutStale := false } ∧
      SameSlots cache (resizeTabViewport tab cache).2 := by
  obtain ⟨htree, hslots⟩ := buildTaffyTree_spec tab.images cache
  refine ⟨?_, hslots⟩
  show ({ tab with taffy := (buildTaffyTree tab.images cache).1, laidOut := true, layoutStale := false } :
    ImageTab) = _
  rw [htree]

theorem rebuildTabTaffyAfterImage_slots : SameSlots cache (rebuildTabTaffyAfterImage tab cache).2 :=
  (buildTaffyTree_spec tab.images cache).2

/-- The slot that a result is written to. -/
def slotOf (result : ImageResult) : AssetSlot := result.image.elim .failed .ready

theorem slotOf_ne_loading (result : ImageResult) : slotOf result ≠ .loading := by
  unfold slotOf
  cases result.image <;> exact nofun

/-- The tab that asked is laid out with the image. -/
theorem processImageResult_spec (result : ImageResult) :
    SameSlots (cache.put result.url (slotOf result)) (processImageResult result tab cache).2 ∧
      (processImageResult result tab cache).1 =
        { tab with
          taffy := treeOf (cache.put result.url (slotOf result)) tab.images
          laidOut := true
          layoutStale := false } := by
  unfold processImageResult slotOf
  cases result.image with
  | none =>
    obtain ⟨htab, hslots⟩ := resizeTabViewport_spec tab (cache.put result.url .failed)
    exact ⟨hslots, htab⟩
  | some image =>
    have hrebuild := rebuildTabTaffyAfterImage_slots tab (cache.put result.url (.ready image))
    obtain ⟨htab, hslots⟩ := resizeTabViewport_spec (rebuildTabTaffyAfterImage tab
      (cache.put result.url (.ready image))).1 (rebuildTabTaffyAfterImage tab
        (cache.put result.url (.ready image))).2
    refine ⟨fun url => (hslots url).trans (hrebuild url), htab.trans ?_⟩
    rw [hrebuild.treeOf_eq]
    rfl

end Slots

/-! ## Telling the waiters -/

section Waiters

variable (w : ImageWindow)

theorem onTab_tabs (id : TabId) (f : ImageTab → ImageCache → ImageTab × ImageCache) :
    (w.onTab id f).tabs = w.tabs.map fun t => if t.id = id then (f t w.imageCache).1 else t := by
  unfold onTab
  split
  · rename_i hnone
    rw [List.find?_eq_none] at hnone
    have hsame : ∀ t ∈ w.tabs, (if t.id = id then (f t w.imageCache).1 else t) = t := fun t ht =>
      if_neg (by simpa using hnone t ht)
    rw [map_congr_left hsame, map_id']
  · rfl

/-- Telling a tab changes no slot and nothing else. -/
theorem onTab_relayoutWaiter (id : TabId) :
    SameSlots w.imageCache (w.onTab id relayoutWaiter).imageCache ∧
      w.onTab id relayoutWaiter =
        { w with
          tabs := w.tabs.map fun t => if t.id = id then told w.imageCache t else t
          imageCache := (w.onTab id relayoutWaiter).imageCache } := by
  have htabs := onTab_tabs w id relayoutWaiter
  simp only [relayoutWaiter_spec] at htabs
  rw [← htabs]
  unfold onTab
  split
  · exact ⟨fun _ => rfl, rfl⟩
  · rename_i tab _
    exact ⟨(relayoutWaiter_spec tab w.imageCache).2, rfl⟩

/-- The round over the waiters tells each of them once, but not the tab that asked. -/
theorem notify_spec (requester : TabId) (waiters : List TabId) :
    ∃ cache, SameSlots w.imageCache cache ∧
      waiters.foldl (fun w waiter => if waiter = requester then w else w.onTab waiter relayoutWaiter) w =
        { w with
          tabs := w.tabs.map fun t => if t.id ∈ waiters ∧ t.id ≠ requester then told w.imageCache t else t
          imageCache := cache } := by
  induction waiters generalizing w with
  | nil =>
    refine ⟨w.imageCache, fun _ => rfl, ?_⟩
    simp
  | cons waiter waiters ih =>
    rw [foldl_cons]
    by_cases hself : waiter = requester
    · rw [if_pos hself]
      obtain ⟨cache, hslots, heq⟩ := ih w
      refine ⟨cache, hslots, heq.trans ?_⟩
      congr 1
      refine map_congr_left fun t _ => if_congr ?_ rfl rfl
      rw [mem_cons]
      refine ⟨fun h => ⟨.inr h.1, h.2⟩, fun h => ⟨h.1.resolve_left fun heq => h.2 (heq.trans hself), h.2⟩⟩
    · rw [if_neg hself]
      obtain ⟨hslots, hw⟩ := onTab_relayoutWaiter w waiter
      obtain ⟨cache, hslots', heq⟩ := ih (w.onTab waiter relayoutWaiter)
      refine ⟨cache, fun url => (hslots' url).trans (hslots url), heq.trans ?_⟩
      rw [hw]
      dsimp only
      rw [map_map]
      congr 1
      refine map_congr_left fun t _ => ?_
      have htold : ∀ t : ImageTab, told (w.onTab waiter relayoutWaiter).imageCache t = told w.imageCache t := by
        intro t
        rw [told, told, hslots.treeOf_eq]
      simp only [Function.comp_apply, mem_cons]
      by_cases hwaiter : t.id = waiter
      · have hother : ¬t.id = requester := fun h => hself (hwaiter.symm.trans h)
        rw [if_pos hwaiter]
        refine Eq.trans ?_ (if_pos ⟨.inl hwaiter, hother⟩).symm
        split
        · rw [htold]
          rfl
        · rfl
      · rw [if_neg hwaiter]
        simp only [hwaiter, false_or, htold]

/-- The tab that asked is laid out with the image, and the others that waited are told. -/
def delivered (w : ImageWindow) (result : ImageResult) (tab : ImageTab) : ImageTab :=
  let cache := w.imageCache.put result.url (slotOf result)
  if tab.id = result.tab then
    { tab with taffy := treeOf cache tab.images, laidOut := true, layoutStale := false }
  else if tab.id ∈ w.fetchingImages result.url then told cache tab
  else tab

theorem delivered_id (result : ImageResult) (tab : ImageTab) : (w.delivered result tab).id = tab.id := by
  unfold delivered
  dsimp only
  split
  · rfl
  · split <;> rfl

/-- What reading a result does, if the tab that asked is open. -/
theorem drain_spec {result : ImageResult} (hopen : ∃ tab ∈ w.tabs, tab.id = result.tab) :
    ∃ cache, SameSlots (w.imageCache.put result.url (slotOf result)) cache ∧
      w.drain result =
        { w with
          tabs := w.tabs.map (w.delivered result)
          fetchingImages := Function.update w.fetchingImages result.url []
          imageCache := cache } := by
  obtain ⟨tab, htab, hid⟩ := hopen
  have hany : w.tabs.any (·.id = result.tab) = true := any_eq_true.mpr ⟨tab, htab, by simpa using hid⟩
  obtain ⟨found, hfind⟩ : ∃ found, w.tabs.find? (·.id = result.tab) = some found := by
    rw [← Option.isSome_iff_exists, List.find?_isSome]
    exact ⟨tab, htab, by simpa using hid⟩
  have hserved : w.onTab result.tab (processImageResult result) =
      { w with
        tabs := w.tabs.map fun t =>
          if t.id = result.tab then (processImageResult result t w.imageCache).1 else t
        imageCache := (processImageResult result found w.imageCache).2 } := by
    unfold onTab
    rw [hfind]
  have hslots := (processImageResult_spec found w.imageCache result).1
  unfold drain
  rw [if_pos hany, hserved, notifyImageWaiters]
  obtain ⟨cache, hcache, heq⟩ := notify_spec
    { w with
      tabs := w.tabs.map fun t =>
        if t.id = result.tab then (processImageResult result t w.imageCache).1 else t
      imageCache := (processImageResult result found w.imageCache).2
      fetchingImages := Function.update w.fetchingImages result.url [] }
    result.tab (w.fetchingImages result.url)
  refine ⟨cache, fun url => (hcache url).trans (hslots url), heq.trans ?_⟩
  dsimp only
  rw [map_map]
  congr 1
  refine map_congr_left fun t _ => ?_
  simp only [Function.comp_apply, processImageResult_spec, delivered]
  by_cases hself : t.id = result.tab
  · rw [if_pos hself, if_pos hself]
    exact if_neg fun h => h.2 hself
  · rw [if_neg hself, if_neg hself]
    refine if_congr ⟨fun h => h.1, fun h => ⟨h, hself⟩⟩ ?_ rfl
    rw [told, told, hslots.treeOf_eq]

end Waiters

/-! ## Runs -/

section Runs

variable {w w' : ImageWindow}

/-- Slots that are loading stay outstanding if no slot turns to loading and no fetch ends. -/
theorem LoadingOutstanding.mono (h : w.LoadingOutstanding)
    (hslots : ∀ url, w'.imageCache.peek url = some .loading → w.imageCache.peek url = some .loading)
    (hfetch : ∀ url, w.Outstanding url → w'.Outstanding url) : w'.LoadingOutstanding :=
  fun url hurl => hfetch url (h url (hslots url hurl))

theorem LoadingOutstanding.paintImage (h : w.LoadingOutstanding) (tab : TabId) (url : String) :
    (w.paintImage tab url).LoadingOutstanding := by
  have hget : ∀ u, (w.imageCache.promote url).peek u = w.imageCache.peek u := LruCache.peek_promote _ url
  have hregister : ∀ w : ImageWindow, (w.registerImageWaiter url tab).imageCache = w.imageCache ∧
      (w.registerImageWaiter url tab).requests = w.requests ∧
      (w.registerImageWaiter url tab).network = w.network := by
    intro w
    unfold registerImageWaiter
    split <;> exact ⟨rfl, rfl, rfl⟩
  unfold ImageWindow.paintImage LruCache.get
  dsimp only
  split
  · exact h.mono (fun u hu => (hget u).symm.trans hu) fun _ hu => hu
  · exact h.mono (fun u hu => (hget u).symm.trans hu) fun _ hu => hu
  · obtain ⟨hcache, hrequests, hnetwork⟩ := hregister { w with imageCache := w.imageCache.promote url }
    refine h.mono (fun u hu => ?_) fun u hu => ?_
    · rw [hcache] at hu
      exact (hget u).symm.trans hu
    · rwa [Outstanding, hrequests, hnetwork]
  · -- The slot that turns to loading is asked for.
    obtain ⟨hcache, hrequests, hnetwork⟩ := hregister
      { w with imageCache := (w.imageCache.promote url).put url .loading }
    intro u hu
    dsimp only at hu
    rw [hcache] at hu
    unfold Outstanding
    dsimp only
    rw [hrequests, hnetwork]
    by_cases hself : u = url
    · exact .inl ⟨⟨tab, url⟩, mem_append_right _ mem_cons_self, hself.symm⟩
    · rcases h u ((hget u).symm.trans (LruCache.peek_put_ne _ _ hself hu)) with ⟨request, hmem, heq⟩ | hresult
      · exact .inl ⟨request, mem_append_left _ hmem, heq⟩
      · exact .inr hresult

theorem LoadingOutstanding.paint (h : w.LoadingOutstanding) (tab : TabId) (urls : List String) :
    (urls.foldl (fun w url => w.paintImage tab url) w).LoadingOutstanding := by
  induction urls generalizing w with
  | nil => exact h
  | cons url urls ih => exact ih (h.paintImage tab url)

/-- Laying a tab out leaves the slots and the fetches. -/
theorem LoadingOutstanding.onTab (h : w.LoadingOutstanding) (tab : TabId)
    {f : ImageTab → ImageCache → ImageTab × ImageCache} (hf : ∀ t cache, SameSlots cache (f t cache).2) :
    (w.onTab tab f).LoadingOutstanding := by
  unfold ImageWindow.onTab
  split
  · exact h
  · exact h.mono (fun u hu => (hf _ _ u).symm.trans hu) fun _ hu => hu

theorem LoadingOutstanding.drain (h : w.LoadingOutstanding) {result : ImageResult} {rest : List ImageResult}
    (hnetwork : w.network = result :: rest) (hopen : ∃ tab ∈ w.tabs, tab.id = result.tab) :
    ({ w with network := rest }.drain result).LoadingOutstanding := by
  obtain ⟨cache, hslots, heq⟩ := drain_spec { w with network := rest } hopen
  rw [heq]
  intro url hurl
  have hput : (w.imageCache.put result.url (slotOf result)).peek url = some .loading :=
    (hslots url).symm.trans hurl
  by_cases hself : url = result.url
  · grind [LruCache.peek_put_self, Option.some.inj, slotOf_ne_loading]
  · rcases h url (LruCache.peek_put_ne _ _ hself hput) with hrequest | ⟨other, hmem, hother⟩
    · exact .inl hrequest
    · rw [hnetwork] at hmem
      rcases mem_cons.mp hmem with rfl | hmem
      · exact absurd hother.symm hself
      · exact .inr ⟨other, hmem, hother⟩

theorem resizeTabViewport_slots (t : ImageTab) (cache : ImageCache) :
    SameSlots cache (resizeTabViewport t cache).2 := (resizeTabViewport_spec t cache).2

theorem LoadingOutstanding.step {move : ImageMove} (h : w.LoadingOutstanding) (hopen : w.RequesterOpen move)
    (hstep : w.step move = some w') : w'.LoadingOutstanding := by
  cases move with
  | paint urls =>
    obtain ⟨tab, -, rfl⟩ := Option.map_eq_some_iff.mp hstep
    exact h.paint tab.id urls
  | download tab url =>
    obtain rfl := Option.some.inj hstep
    refine h.mono (fun _ hu => hu) fun u hu => ?_
    exact hu.imp_left fun ⟨request, hmem, heq⟩ => ⟨request, mem_append_left _ hmem, heq⟩
  | complete i image =>
    obtain ⟨request, hrequest, rfl⟩ := Option.map_eq_some_iff.mp hstep
    refine h.mono (fun _ hu => hu) fun u hu => ?_
    rcases hu with ⟨other, hmem, heq⟩ | ⟨result, hmem, heq⟩
    · by_cases hself : other = request
      · exact .inr ⟨_, mem_append_right _ mem_cons_self, by rw [← heq, hself]⟩
      · obtain ⟨hi, hget⟩ := List.getElem?_eq_some_iff.mp hrequest
        refine .inl ⟨other, (mem_eraseIdx_iff_getElem?).mpr ?_, heq⟩
        obtain ⟨j, hj⟩ := mem_iff_getElem?.mp hmem
        refine ⟨j, fun hji => hself ?_, hj⟩
        rw [hji, hrequest] at hj
        exact (Option.some.inj hj).symm
    · exact .inr ⟨result, mem_append_left _ hmem, heq⟩
  | drain =>
    simp only [ImageWindow.step] at hstep
    split at hstep
    · cases hstep
    · rename_i result rest hnetwork
      obtain rfl := Option.some.inj hstep
      exact h.drain hnetwork (hopen result (by rw [hnetwork]; rfl))
  | load tab images =>
    obtain rfl := Option.some.inj hstep
    refine h.onTab tab fun t cache => ?_
    have hrebuild := rebuildTabTaffyAfterImage_slots { t with images } cache
    exact fun u => (resizeTabViewport_slots _ _ u).trans (hrebuild u)
  | resize =>
    obtain ⟨tab, -, rfl⟩ := Option.map_eq_some_iff.mp hstep
    refine LoadingOutstanding.onTab ?_ tab.id resizeTabViewport_slots
    exact h.mono (fun _ hu => hu) fun _ hu => hu
  | switchTo tab =>
    obtain rfl := Option.some.inj hstep
    unfold switchToTab
    split
    · exact h
    split
    · exact h
    dsimp only
    split
    · refine LoadingOutstanding.onTab ?_ tab resizeTabViewport_slots
      exact h.mono (fun _ hu => hu) fun _ hu => hu
    · exact h.mono (fun _ hu => hu) fun _ hu => hu
  | openTab =>
    obtain rfl := Option.some.inj hstep
    unfold ImageWindow.openTab
    split
    · exact h
    · exact h.mono (fun _ hu => hu) fun _ hu => hu
  | closeTab tab =>
    obtain rfl := Option.some.inj hstep
    unfold ImageWindow.closeTab
    split
    · exact h
    split
    · exact h
    · exact h.mono (fun _ hu => hu) fun _ hu => hu

theorem start_loading : start.LoadingOutstanding := by
  intro url hurl
  cases hurl

/-- The tab on screen does not wait for the image that another tab asked for. -/
def ScreenServed (w : ImageWindow) (result : ImageResult) : Prop :=
  ∀ tab, w.active = some tab → tab.id ∈ w.fetchingImages result.url → tab.id = result.tab

/-- As long as every image is read while the tab that asked for it is open, what is loading will arrive, and
when it did its slot is settled and the tree of every tab that waited is rebuilt with it; it is laid out too, now
or when the tab is switched to, unless the tab is the one on screen and another asked for the image. -/
theorem image_completions_kept (h : Reaches ImageWindow.step RequesterOpen start w) :
    w.LoadingOutstanding ∧
      ∀ result rest w', w.network = result :: rest → w.RequesterOpen .drain → w.step .drain = some w' →
        w'.Settled result.url ∧ ∀ tab ∈ w'.tabs, tab.id ∈ w.fetchingImages result.url →
          w'.Rebuilt tab ∧ (w.ScreenServed result → w'.Relaid tab) := by
  refine ⟨h.invariant start_loading fun _ _ _ hkept hgood hstep => hkept.step hgood hstep, ?_⟩
  intro result rest w' hnetwork hopen hstep
  simp only [ImageWindow.step, hnetwork, Option.some.injEq] at hstep
  obtain ⟨cache, hslots, heq⟩ := drain_spec { w with network := rest } (hopen result (by rw [hnetwork]; rfl))
  rw [heq] at hstep
  subst hstep
  have htree : ∀ urls, treeOf (w.imageCache.put result.url (slotOf result)) urls = treeOf cache urls :=
    fun urls => (hslots.treeOf_eq urls).symm
  refine ⟨⟨slotOf result, ?_, slotOf_ne_loading result⟩, fun tab htab hwaits => ?_⟩
  · exact (hslots result.url).trans (LruCache.peek_put_self _ _ _)
  obtain ⟨before, hbefore, rfl⟩ := mem_map.mp htab
  rw [delivered_id] at hwaits
  have hactive : ∀ onScreen, (w.tabs.map ({ w with network := rest }.delivered result))[w.activeTab]? =
      some onScreen → ∃ tab, w.active = some tab ∧ onScreen.id = tab.id := by
    intro onScreen hget
    rw [List.getElem?_map] at hget
    obtain ⟨tab, htab, rfl⟩ := Option.map_eq_some_iff.mp hget
    exact ⟨tab, htab, delivered_id _ _ _⟩
  by_cases hself : before.id = result.tab
  · have hserved : { w with network := rest }.delivered result before =
        { before with
          taffy := treeOf (w.imageCache.put result.url (slotOf result)) before.images
          laidOut := true
          layoutStale := false } := if_pos hself
    rw [hserved]
    exact ⟨⟨htree before.images, .inl rfl⟩, fun _ => ⟨htree before.images, .inl rfl⟩⟩
  · have htold : { w with network := rest }.delivered result before =
        told (w.imageCache.put result.url (slotOf result)) before := (if_neg hself).trans (if_pos hwaits)
    rw [htold]
    refine ⟨⟨htree before.images, .inr rfl⟩, fun hscreen => ⟨htree before.images, .inr ⟨rfl, ?_⟩⟩⟩
    intro onScreen hget hsame
    obtain ⟨tab, htab, hid⟩ := hactive onScreen hget
    have hbefore : tab.id = before.id := hid.symm.trans hsame
    exact hself (hbefore.symm.trans (hscreen tab htab (hbefore ▸ hwaits)))

end Runs

section Examples

def photo : AnimatedImage := ⟨640, 480⟩

/-- A tab paints an image, and another one does while it is loading. -/
def twoTabs : List ImageMove :=
  [.load ⟨0⟩ ["mizu://a.mizu/x.png"], .openTab, .load ⟨1⟩ ["mizu://a.mizu/x.png"], .paint ["mizu://a.mizu/x.png"],
    .switchTo ⟨1⟩, .paint ["mizu://a.mizu/x.png"]]

theorem image_completions_kept_two_tabs :
    ∃ w : ImageWindow, w.network ≠ [] ∧ w.LoadingOutstanding ∧
      ∀ result rest w', w.network = result :: rest → w.RequesterOpen .drain → w.step .drain = some w' →
        w'.Settled result.url ∧ ∀ tab ∈ w'.tabs, tab.id ∈ w.fetchingImages result.url →
          w'.Rebuilt tab ∧ (w.ScreenServed result → w'.Relaid tab) := by
  obtain ⟨w, hreaches, harrived⟩ := exists_reaches_of_run ImageWindow.step RequesterOpen start
    (twoTabs ++ [.complete 0 (some photo)]) (p := fun w => w.network ≠ []) (by decide)
  exact ⟨w, of_decide_eq_true harrived, image_completions_kept hreaches⟩

/-- The tab that asked is closed before its image arrives: the result is dropped, and the slot that the other tab
waits for is loading with nothing under way. -/
theorem requester_closed_loses_image :
    ¬∀ w, Reaches ImageWindow.step (fun _ _ => True) start w → w.CompletionsKept := by
  intro h
  obtain ⟨w, hreaches, hlost⟩ := exists_reaches_of_run ImageWindow.step (fun _ _ => True) start
    (twoTabs ++ [.closeTab ⟨0⟩, .complete 0 (some photo), .drain])
    (p := fun w => w.imageCache.peek "mizu://a.mizu/x.png" = some .loading && w.requests.isEmpty &&
      w.network.isEmpty) (by decide)
  simp only [Bool.and_eq_true, decide_eq_true_eq, List.isEmpty_iff] at hlost
  obtain ⟨⟨hloading, hrequests⟩, hnetwork⟩ := hlost
  rcases (h w hreaches).loading _ hloading with ⟨request, hmem, -⟩ | ⟨result, hmem, -⟩
  · rw [hrequests] at hmem
    cases hmem
  · rw [hnetwork] at hmem
    cases hmem

end Examples

end ImageWindow

end Mizu
