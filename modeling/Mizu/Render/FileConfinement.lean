import Mizu.Render.RedirectChain
import Mizu.Render.Requests

/-!
# The files that a tab reads

A run of a tab, with the images that its documents show and the disk that may be another one at every step.
`FileLog` keeps beside the tab which local files are read and for which document.

* `files_confined`: in a run from a document on disk every file that is read lies below the directory of that
  document, unless a link is rewritten after it was checked, and no document from the network reads any.
* `files_escape`: a link can lead anywhere.
-/

namespace Mizu

open UnixPath List Option

/-- The file that a navigation reads: what `navigate_to_url` has read it commits at once. -/
def navigationRead (host : Host) (currentUrl url : String) (initiator : NavigationInitiator) : Option String :=
  match navigationOutcome host currentUrl url initiator with
  | .commits target _ => stripPrefix "file:///" target
  | _ => none

/-- The file that the network worker reads for a command. -/
def imageRead (disk : Disk) : NetworkCmd → Option String
  | .fetchImage _ url _ sandboxBase =>
    if startsWith "file://" url then
      match fetchFilePath disk.canonicalize url sandboxBase with
      | .error _ => none
      | .ok resolved => (disk.read resolved).map fun _ => resolved
    else none
  | _ => none

/-- `navigate_to_url` is called for these. -/
def TabSystem.navigates {F : Frontend} (s : TabSystem F) :
    TabMove → Option (Host × String × NavigationInitiator)
  | .result host =>
    match s.results with
    | (_, .navigationRedirect _ newUrl initiator) :: _ =>
      if (s.tab.registerRedirect host).1 then some (host, newUrl, initiator.intoRedirectOf) else none
    | _ => none
  | m => s.asks m

/-- A local file, and the URL of the document that it was read for. -/
structure FileRead where
  document : String
  path : String
  deriving DecidableEq, Repr

structure FileLog (F : Frontend) where
  sys : TabSystem F
  /-- Image fetches that the worker has not run, with the document that issued them. -/
  images : List (String × NetworkCmd)
  reads : List FileRead

inductive FileMove where
  | tab (m : TabMove)
  /-- The document in the tab is painted with an image. -/
  | paint (host : Host) (path : String)
  /-- The logic of the document in the tab downloads an image. -/
  | download (host : Host) (url : String)
  /-- The worker runs a fetch. -/
  | fetch (disk : Disk) (i : Nat)

namespace FileLog

variable {F : Frontend}

def committedUrl (l : FileLog F) : String := l.sys.tab.chromeState.committedUrl

def issue (l : FileLog F) (cmds : List NetworkCmd) : FileLog F :=
  { l with images := l.images ++ cmds.map fun cmd => (l.committedUrl, cmd) }

def step (l : FileLog F) : FileMove → Option (FileLog F)
  | .tab m =>
    (l.sys.step m).map fun sys =>
      { l with
        sys
        reads := l.reads ++ ((l.sys.navigates m).bind fun (host, url, initiator) =>
          (navigationRead host l.committedUrl url initiator).map fun path => ⟨l.committedUrl, path⟩).toList }
  | .paint host path => some (l.issue (l.sys.tab.paintImage host path).toList)
  | .download host url =>
    some (l.issue (l.sys.tab.executeCapabilityAction host l.sys.ctx.cleared (.downloadMedia url)).2.networkTx)
  | .fetch disk i =>
    (l.images[i]?).map fun (document, cmd) =>
      { l with
        images := l.images.eraseIdx i
        reads := l.reads ++ ((imageRead disk cmd).map fun path => ⟨document, path⟩).toList }

def start (host : Host) (tab : TabState F) (ctx : WindowCtx) : FileLog F := ⟨.start host tab ctx, [], []⟩

end FileLog

/-! ## Confinement -/

/-- Strictly below a directory. -/
def Below (dir p : List String) : Prop := dir <+: p ∧ dir ≠ p

instance (dir p : List String) : Decidable (Below dir p) := inferInstanceAs (Decidable (_ ∧ _))

/-- Every file that was read lies below the directory and was read for a local document. -/
def FileLog.Confined {F : Frontend} (cwd dir : List String) (l : FileLog F) : Prop :=
  ∀ r ∈ l.reads, Below dir (place cwd r.path) ∧ startsWith "mizu://" r.document = false

/-- A disk with the working directory, on which no file has taken the place of the other directory. -/
def Suits (cwd dir : List String) (disk : Disk) : Prop :=
  disk.cwd = cwd ∧ ∀ bytes, disk.node dir ≠ some (.file bytes)

/-- The files of a move are those of such a disk. -/
def FileMove.OnDisk (cwd dir : List String) : FileMove → Prop
  | .tab m => ∀ host, m.host? = some host → ∃ host₀ disk, host = Host.onDisk host₀ disk ∧ Suits cwd dir disk
  | .paint host _ | .download host _ => ∃ host₀ disk, host = Host.onDisk host₀ disk ∧ Suits cwd dir disk
  | .fetch disk _ => Suits cwd dir disk

/-- A link that passes its check names a path without backslashes. -/
def PlainLink (canonicalize : String → Option String) (currentUrl target : String) : Prop :=
  containsScheme target = false →
    fileSandboxContains canonicalize (documentDir currentUrl) (join (documentDir currentUrl) target) = true →
      '\\' ∉ (linkPath canonicalize currentUrl target).toList

/-- No path is rewritten between its check and its use. -/
def FileLog.PlainPaths {F : Frontend} (l : FileLog F) : FileMove → Prop
  | .tab m =>
    ∀ host url initiator, l.sys.navigates m = some (host, url, initiator) → startsWith "file://" l.committedUrl →
      NamedPlainly host.canonicalize (documentDir l.committedUrl) ∧ PlainLink host.canonicalize l.committedUrl url
  | .fetch disk i =>
    ∀ document tab url isRemote base, l.images[i]? = some (document, .fetchImage tab url isRemote (some base)) →
      NamedPlainly disk.canonicalize base
  | _ => True

/-! ## One navigation -/

/-- A local document is in the directory or further below. -/
def HomedIn (cwd dir : List String) (url : String) : Prop :=
  startsWith "file://" url → ∃ p d, url = "file:///" ++ p ∧ parent p = some d ∧ dir <+: place cwd d

section Navigation

variable {cwd dir : List String} {host : Host} {disk : Disk} {currentUrl url : String}
  {initiator : NavigationInitiator}

theorem documentDir_eq {p d : String} (h : parent p = some d) : documentDir ("file:///" ++ p) = d := by
  rw [documentDir, documentPath, stripPrefix_self, getD_some, h, getD_some]

/-- What commits at once is the blank page or a file that has been read. -/
theorem navigationOutcome_reads {target source : String}
    (h : navigationOutcome host currentUrl url initiator = .commits target source) :
    target = "about:blank" ∨ ∃ p resolvedUrl, target = "file:///" ++ p ∧ host.readToString p = some source ∧
      navigationTarget host currentUrl url = some resolvedUrl ∧
      checkNavigation currentUrl resolvedUrl initiator = .allow target := by
  unfold navigationOutcome at h
  split at h
  · cases h
    exact .inl ‹_›
  split at h
  · cases h
  rename_i resolvedUrl hresolve
  split at h
  · cases h
  rename_i hallow
  split at h
  · split at h
    · rename_i hread
      cases h
      obtain ⟨p, hstrip, hread⟩ := bind_eq_some_iff.mp hread
      exact .inr ⟨p, resolvedUrl, stripPrefix_some hstrip, hread, hresolve, hallow⟩
    · cases h
  split at h <;> cases h

theorem startsWith_file {url : String} (h : startsWith "file:///" url) : startsWith "file://" url := by
  simp only [startsWith, isPrefixOf_iff_prefix] at *
  exact List.IsPrefix.trans (by decide) h

/-- An allowed target with a scheme is the target itself. -/
theorem checkNavigation_target {resolvedUrl target : String} (hscheme : containsScheme resolvedUrl)
    (h : checkNavigation currentUrl resolvedUrl initiator = .allow target) : target = resolvedUrl := by
  unfold checkNavigation at h
  split at h
  · cases h
  split at h
  · cases h
  exact (checkScheme_allow h).1

/-- What a local document's navigation to a file resolves to: a link or a URL, in the sandbox. -/
theorem navigationTarget_contained {resolvedUrl : String} (hfile : startsWith "file://" currentUrl)
    (hurl : containsScheme url → startsWith "file://" url)
    (h : navigationTarget (host.onDisk disk) currentUrl url = some resolvedUrl) :
    (containsScheme url = false ∧
        (relativeLinkPath disk.canonicalize currentUrl url).map ("file:///" ++ ·) = some resolvedUrl) ∨
      (absoluteTargetContained disk.canonicalize currentUrl url = true ∧ resolvedUrl = url) := by
  have hmizu : startsWith "mizu://" currentUrl = false := by
    rw [Bool.eq_false_iff]
    exact fun hm => not_startsWith_file_of_mizu hm hfile
  unfold navigationTarget resolveNavigateUrl at h
  cases hscheme : containsScheme url with
  | false =>
    simp only [hscheme, hfile, hmizu, Host.onDisk_relativePath, Bool.not_false, Bool.true_and, Bool.false_and,
      Bool.false_eq_true, if_true, if_false] at h
    exact .inl ⟨rfl, h⟩
  | true =>
    simp only [hscheme, hfile, hmizu, hurl hscheme, Host.onDisk_inSandbox, Bool.not_true, Bool.and_true,
      Bool.false_eq_true, if_true, if_false] at h
    split at h
    · rename_i hcontained
      exact .inr ⟨hcontained, (some.inj h).symm⟩
    · cases h

/-- A file that the sandbox of a document contains is below its directory. -/
theorem below_of_contains {p d : String} {bytes : List UInt8} (hsuits : Suits cwd dir disk)
    (hd : dir <+: place cwd d) (hplain : NamedPlainly disk.canonicalize d) (hread : disk.read p = some bytes)
    (h : fileSandboxContains disk.canonicalize d p = true) : Below dir (place cwd p) := by
  obtain ⟨rfl, hdir⟩ := hsuits
  refine ⟨hd.trans (contains_place hplain (Disk.canonicalize_of_read hread) h), ?_⟩
  rintro rfl
  exact hdir bytes (Disk.read_some hread).2

/-- The file of a link that is not rewritten is in the sandbox. -/
theorem below_of_link {d : String} {bytes : List UInt8} (hsuits : Suits cwd dir disk)
    (hd : dir <+: place cwd d) (hdoc : documentDir currentUrl = d) (hplain : NamedPlainly disk.canonicalize d)
    (hread : disk.read (linkPath disk.canonicalize currentUrl url) = some bytes)
    (h : fileSandboxContains disk.canonicalize d (join d url) = true) :
    Below dir (place cwd (linkPath disk.canonicalize currentUrl url)) := by
  have hlink : linkPath disk.canonicalize currentUrl url = (disk.canonicalize (join d url)).getD (join d url) := by
    rw [linkPath, hdoc]
  rw [hlink] at hread ⊢
  cases hcanonical : disk.canonicalize (join d url) with
  | none => grind [Disk.canonicalize_of_read]
  | some c =>
    obtain ⟨rfl, hdir⟩ := hsuits
    rw [hcanonical, getD_some] at hread
    have hplace : place disk.cwd c = place disk.cwd (join d url) := by
      rw [Disk.canonicalize_eq hcanonical, place_ofNames (isName_place disk.cwd_names)]
    rw [getD_some]
    refine ⟨hd.trans (hplace ▸ contains_place hplain hcanonical h), ?_⟩
    rintro rfl
    exact hdir bytes (Disk.read_some hread).2

/-- A navigation from a document that is at home commits one that is, and reads below the directory. -/
theorem navigation_confined {target source : String} (hsuits : Suits cwd dir disk)
    (hplain : startsWith "file://" currentUrl →
      NamedPlainly disk.canonicalize (documentDir currentUrl) ∧ PlainLink disk.canonicalize currentUrl url)
    (hhome : HomedIn cwd dir currentUrl)
    (h : navigationOutcome (host.onDisk disk) currentUrl url initiator = .commits target source) :
    HomedIn cwd dir target ∧ ∀ p, stripPrefix "file:///" target = some p →
      Below dir (place cwd p) ∧ startsWith "mizu://" currentUrl = false := by
  obtain rfl | ⟨p, resolvedUrl, rfl, hread, hresolve, hallow⟩ := navigationOutcome_reads h
  · exact ⟨fun hfile => absurd hfile (by decide), fun p hp => nomatch hp⟩
  have hlocal : startsWith "file://" ("file:///" ++ p) := startsWith_file (startsWith_self _ _)
  obtain ⟨-, hfile, hmizu, hurl⟩ | ⟨hmizu, -⟩ := hop_allowed hresolve hallow
  swap
  · exact absurd hlocal (not_startsWith_file_of_mizu hmizu)
  obtain ⟨q, d, rfl, hparent, hd⟩ := hhome hfile
  obtain ⟨hnamed, hlink⟩ := hplain hfile
  rw [documentDir_eq hparent] at hnamed
  obtain ⟨bytes, hbytes, -⟩ := bind_eq_some_iff.mp hread
  have htarget := checkNavigation_target (navigationTarget_scheme hresolve hfile) hallow
  have hbelow : Below dir (place cwd p) := by
    obtain ⟨hrelative, hpath⟩ | ⟨hcontained, heq⟩ := navigationTarget_contained hfile hurl hresolve
    · obtain ⟨path, hpath, hjoin⟩ := map_eq_some_iff.mp hpath
      unfold relativeLinkPath at hpath
      split at hpath
      · rename_i hcontained
        have hp : p = linkPath disk.canonicalize ("file:///" ++ q) url := by
          obtain rfl := some.inj hpath
          rw [← htarget, forwardSlashes_eq (hlink hrelative hcontained)] at hjoin
          exact (String.append_right_inj _).mp hjoin.symm
        rw [documentDir_eq hparent] at hcontained
        rw [hp] at hbytes ⊢
        exact below_of_link hsuits hd (documentDir_eq hparent) hnamed hbytes hcontained
      · cases hpath
    · grind [absoluteTargetContained, fileUrlPath, stripPrefix_self, documentDir_eq, below_of_contains]
  refine ⟨fun _ => ?_, fun p' hp' => ?_⟩
  · obtain ⟨d', n, hparent', hplace⟩ := Disk.parent_of_read hbytes
    obtain rfl := hsuits.1
    rw [hplace] at hbelow
    exact ⟨p, d', rfl, hparent', (prefix_concat_iff.mp hbelow.1).resolve_left hbelow.2⟩
  · grind [stripPrefix_self]

end Navigation

/-! ## Images -/

section Images

variable {cwd dir : List String} {disk : Disk} {path base url : String}

/-- An image that is read with the directory of a document as its sandbox is below that directory. -/
theorem image_confined {tab : TabId} {isRemote : Bool} (hsuits : Suits cwd dir disk)
    (hbase : dir <+: place cwd base) (hplain : NamedPlainly disk.canonicalize base)
    (h : imageRead disk (.fetchImage tab url isRemote (some base)) = some path) : Below dir (place cwd path) := by
  simp only [imageRead, fetchFilePath] at h
  split at h
  swap
  · cases h
  cases htarget : fileUrlPath url with
  | none =>
    rw [htarget] at h
    cases h
  | some target =>
    rw [htarget] at h
    dsimp only at h
    cases hcontained : fileSandboxContains disk.canonicalize base target with
    | false =>
      rw [hcontained] at h
      cases h
    | true =>
      rw [hcontained] at h
      cases hresolved : disk.canonicalize target with
      | none =>
        rw [hresolved] at h
        cases h
      | some resolved =>
        rw [hresolved] at h
        simp only [Bool.not_true, Bool.false_eq_true, if_false] at h
        split at h
        · cases h
        · rename_i hok
          obtain ⟨bytes, hread, rfl⟩ := map_eq_some_iff.mp h
          split at hok
          · cases hok
          · rename_i hagain
            obtain rfl := Except.ok.inj hok
            exact below_of_contains hsuits hbase hplain hread (by simpa using hagain)

theorem imageRead_none {tab : TabId} {isRemote : Bool} :
    imageRead disk (.fetchImage tab url isRemote none) = none := by
  grind [imageRead, fetchFilePath]

end Images

/-! ## One move of the tab -/

theorem homedIn_of_mizu {cwd dir : List String} {url : String} (h : startsWith "mizu://" url) :
    HomedIn cwd dir url :=
  fun hfile => absurd hfile (not_startsWith_file_of_mizu h)

namespace TabSystem

variable {F : Frontend} {cwd dir : List String} {s t : TabSystem F} {m : TabMove}

/-- The document is at home, and what is requested comes from the network. -/
structure Homed (cwd dir : List String) (s : TabSystem F) : Prop where
  document : HomedIn cwd dir s.tab.chromeState.committedUrl
  requests : ∀ e ∈ s.inFlight, ∀ id url i, e.2 = .navigate id url i → startsWith "mizu://" url
  results : ∀ e ∈ s.results, ∀ id url source, e.2 = .navigateSuccess id url source → startsWith "mizu://" url

theorem Homed.of_view {tab : TabState F} (h : Homed cwd dir s) (hview : tab.view = s.tab.view) :
    HomedIn cwd dir tab.chromeState.committedUrl := by
  have hurl : tab.chromeState.committedUrl = s.tab.chromeState.committedUrl :=
    congrArg TabState.View.committedUrl hview
  rw [hurl]
  exact h.document

theorem Homed.absorb (h : Homed cwd dir s) (chain : Chain) (out : TabState F × WindowCtx)
    (hdocument : HomedIn cwd dir out.1.chromeState.committedUrl)
    (hsent : ∀ id url i, .navigate id url i ∈ out.2.networkTx → startsWith "mizu://" url) :
    Homed cwd dir (s.absorb chain out) where
  document := hdocument
  requests e he id url i hcmd := by
    rcases mem_append.mp he with he | he
    · exact h.requests e he id url i hcmd
    · grind
  results := h.results

theorem Homed.settle {host : Host} {tab : TabState F} {ctx : WindowCtx} {out : TabState F × WindowCtx}
    {outcome : NavigationOutcome} {b : Bool} (h : Homed cwd dir s) (chain : Chain)
    (hview : tab.view = s.tab.view) (hout : Does host tab ctx out outcome)
    (hcommits : ∀ url source, outcome = .commits url source → HomedIn cwd dir url)
    (hdispatches : ∀ target, outcome = .dispatches target → startsWith "mizu://" target) :
    Homed cwd dir (s.settle chain b out outcome) := by
  cases outcome with
  | stays =>
    have hkept := h.absorb chain out (h.of_view (hout.1.trans hview)) fun id url i hmem => by simp [hout.2.2] at hmem
    exact ⟨hkept.document, hkept.requests, hkept.results⟩
  | dispatches target =>
    obtain ⟨hv, -, initiator, hsent⟩ := hout
    have hkept := h.absorb chain out (h.of_view (hv.trans hview)) fun id url i hmem => by
      rw [hsent, mem_singleton] at hmem
      cases hmem
      exact hdispatches _ rfl
    exact ⟨hkept.document, hkept.requests, hkept.results⟩
  | commits url source =>
    obtain ⟨tab', -, rfl⟩ := hout
    have hkept := h.absorb chain (tab'.handleNavigateSuccess host ctx.cleared url source)
      (by rw [(tab'.handleNavigateSuccess_origin host ctx.cleared url source).1]; exact hcommits url source rfl)
      fun id url' i hmem => by simp [(handleNavigateSuccess_cases host tab' ctx url source).1] at hmem
    exact ⟨hkept.document, hkept.requests, hkept.results⟩

/-- A move that does something calls `navigate_to_url`, or takes a page that came from the network. -/
theorem does_cases (h : s.does m ≠ .stays) :
    (∃ host url initiator, s.navigates m = some (host, url, initiator) ∧ s.does m = s.outcome host url initiator) ∨
      ∃ ticket id url source results, s.results = (ticket, .navigateSuccess id url source) :: results ∧
        s.does m = .commits url source := by
  have hasks (hdoes : s.does m = s.starts m) (hnavigates : s.navigates m = s.asks m) :
      ∃ host url initiator, s.navigates m = some (host, url, initiator) ∧
        s.does m = s.outcome host url initiator := by
    rw [hdoes, starts_eq] at h ⊢
    rw [hnavigates]
    cases hasked : s.asks m with
    | none =>
      rw [hasked] at h
      exact absurd rfl h
    | some asked => exact ⟨asked.1, asked.2.1, asked.2.2, rfl, rfl⟩
  cases m with
  | result host =>
    cases hresults : s.results with
    | nil =>
      simp only [does, hresults] at h
      exact absurd rfl h
    | cons e results =>
      obtain ⟨ticket, r⟩ := e
      simp only [does, hresults] at h ⊢
      cases r with
      | navigateSuccess id url source => exact .inr ⟨ticket, id, url, source, results, rfl, rfl⟩
      | navigationRedirect id newUrl initiator =>
        simp only [resultOutcome] at h ⊢
        split at h
        · rename_i hbudget
          refine .inl ⟨host, newUrl, initiator.intoRedirectOf, ?_, by rw [if_pos hbudget]⟩
          simp only [navigates, hresults, TabState.registerRedirect, hbudget, decide_true, if_true]
        · exact absurd rfl h
      | _ => exact absurd rfl h
  | _ => exact .inl (hasks rfl rfl)

theorem does_dispatches {target : String} (h : s.does m = .dispatches target) : startsWith "mizu://" target := by
  obtain ⟨host, url, initiator, -, hdoes⟩ | ⟨_, _, url, source, _, -, hdoes⟩ := does_cases (by rw [h]; nofun)
  · exact (navigationOutcome_dispatches (hdoes.symm.trans h)).1
  · rw [h] at hdoes
    cases hdoes

theorem asks_host {host : Host} {url : String} {initiator : NavigationInitiator}
    (h : s.asks m = some (host, url, initiator)) : m.host? = some host := by
  cases m with
  | openUrl host' url' =>
    cases h
    rfl
  | back host' | forward host' =>
    obtain ⟨_, -, heq⟩ := map_eq_some_iff.mp h
    cases heq
    rfl
  | act host' =>
    simp only [asks] at h
    split at h
    · cases h
      rfl
    · cases h
  | _ => cases h

theorem navigates_host {host : Host} {url : String} {initiator : NavigationInitiator}
    (h : s.navigates m = some (host, url, initiator)) : m.host? = some host := by
  cases m with
  | result host' =>
    simp only [navigates] at h
    split at h
    · split at h
      · cases h
        rfl
      · cases h
    · cases h
  | _ => exact asks_host (s := s) h

/-- The document stays at home if what commits is at home. -/
theorem step_homed (h : Homed cwd dir s)
    (hcommits : ∀ url source, s.does m = .commits url source → HomedIn cwd dir url)
    (hstep : s.step m = some t) : Homed cwd dir t := by
  have hdispatches : ∀ target, s.does m = .dispatches target → startsWith "mizu://" target :=
    fun _ => does_dispatches
  cases moves_of_step hstep with
  | nothing => exact h
  | event hview he =>
    refine h.absorb _ _ (h.of_view hview) fun id url i hmem => ?_
    simp only [WindowCtx.sendLogic] at hmem
    split at hmem <;> cases hmem
  | navigation hhost hacting hdoes hout =>
    rw [hdoes] at hcommits hdispatches
    exact h.settle _ rfl hout hcommits hdispatches
  | drainError | drainOk | answer => exact ⟨h.document, h.requests, h.results⟩
  | actNavigate hacting hout =>
    rename_i host view gesture url acting out
    have htook : Homed cwd dir (s.took view acting) := ⟨h.document, h.requests, h.results⟩
    exact htook.settle _ rfl hout hcommits hdispatches
  | act hacting haction =>
    rename_i host view gesture action acting
    obtain ⟨hview, -, hsends⟩ := executeAction_sends host s.tab s.ctx gesture action haction
    have htook : Homed cwd dir (s.took view acting) := ⟨h.document, h.requests, h.results⟩
    exact htook.absorb _ _ (htook.of_view hview) fun id url i hmem => (hsends _ hmem).elim
  | result hresults hacting =>
    rename_i host ticket r results
    have hreceived : Homed cwd dir (s.received results) :=
      ⟨h.document, h.requests, fun e he => h.results e (by rw [hresults]; exact mem_cons_of_mem _ he)⟩
    have hdoes : s.does (.result host) = s.resultOutcome host r := by simp only [does, hresults]
    rw [hdoes] at hcommits hdispatches
    have hkept := hreceived.settle (b := ticket.isNavigation) ticket.chain rfl (processNetworkResult_does s r)
      hcommits hdispatches
    exact ⟨hkept.document, hkept.requests, hkept.results⟩
  | complete hcmd hr =>
    rename_i i c ticket cmd r
    refine ⟨h.document, fun e he => h.requests e (mem_of_mem_eraseIdx he), fun e he id url source hsuccess => ?_⟩
    rcases mem_append.mp he with he | he
    · exact h.results e he id url source hsuccess
    · obtain rfl := mem_singleton.mp he
      have hmem := mem_of_getElem? hcmd
      cases cmd with
      | navigate tab target initiator =>
        have htarget := h.requests _ hmem tab target initiator rfl
        cases c <;> cases hr <;> cases hsuccess
        exact htarget
      | _ => cases c <;> cases hr <;> cases hsuccess

end TabSystem

/-! ## Runs -/

namespace FileLog

variable {F : Frontend} {cwd dir : List String} {l l' : FileLog F} {move : FileMove}

/-- An image of a document that is at home. -/
def HomedImage (cwd dir : List String) (image : String × NetworkCmd) : Prop :=
  ∀ tab url isRemote base, image.2 = .fetchImage tab url isRemote (some base) →
    dir <+: place cwd base ∧ startsWith "mizu://" image.1 = false

structure Homed (cwd dir : List String) (l : FileLog F) : Prop where
  sys : l.sys.Homed cwd dir
  images : ∀ image ∈ l.images, HomedImage cwd dir image
  reads : l.Confined cwd dir

/-- The sandbox of an image is the directory of its document. -/
theorem homed_of_sandbox {url base : String} (h : HomedIn cwd dir url)
    (hbase : (stripPrefix "file:///" url).bind parent = some base) :
    dir <+: place cwd base ∧ startsWith "mizu://" url = false := by
  obtain ⟨path, hstrip, hparent⟩ := bind_eq_some_iff.mp hbase
  obtain rfl := stripPrefix_some hstrip
  have hlocal : startsWith "file://" ("file:///" ++ path) := startsWith_file (startsWith_self _ _)
  obtain ⟨p, d, heq, hp, hd⟩ := h hlocal
  obtain rfl := (String.append_right_inj _).mp heq
  rw [hparent] at hp
  obtain rfl := some.inj hp
  refine ⟨hd, ?_⟩
  rw [Bool.eq_false_iff]
  exact fun hmizu => not_startsWith_file_of_mizu hmizu hlocal

theorem Homed.issue (h : Homed cwd dir l) {cmds : List NetworkCmd}
    (hcmds : ∀ cmd ∈ cmds, HomedImage cwd dir (l.committedUrl, cmd)) : Homed cwd dir (l.issue cmds) where
  sys := h.sys
  images image hmem := by
    rcases mem_append.mp hmem with hmem | hmem
    · exact h.images image hmem
    · obtain ⟨cmd, hcmd, rfl⟩ := mem_map.mp hmem
      exact hcmds cmd hcmd
  reads := h.reads

theorem paintImage_homed {host : Host} {path : String} (h : Homed cwd dir l) :
    ∀ cmd ∈ (l.sys.tab.paintImage host path).toList, HomedImage cwd dir (l.committedUrl, cmd) := by
  intro cmd hcmd tab url isRemote base heq
  rw [mem_toList, TabState.paintImage] at hcmd
  obtain ⟨target, -, htarget⟩ := map_eq_some_iff.mp hcmd
  rw [← htarget] at heq
  injection heq with _ _ _ hbase
  exact homed_of_sandbox h.sys.document hbase

theorem download_homed {host₀ : Host} {disk : Disk} {target : String} (h : Homed cwd dir l) :
    ∀ cmd ∈ (l.sys.tab.executeCapabilityAction (host₀.onDisk disk) l.sys.ctx.cleared (.downloadMedia target)).2.networkTx,
      HomedImage cwd dir (l.committedUrl, cmd) := by
  intro cmd hcmd tab url isRemote base heq
  simp only [TabState.executeCapabilityAction] at hcmd
  split at hcmd
  · cases hcmd
  · obtain rfl := mem_singleton.mp hcmd
    injection heq with _ _ _ hbase
    rw [Host.onDisk_parentDir] at hbase
    exact homed_of_sandbox h.sys.document hbase

theorem Confined.append (h : l.Confined cwd dir) {read : Option FileRead}
    (hread : ∀ r, read = some r → Below dir (place cwd r.path) ∧ startsWith "mizu://" r.document = false) :
    ∀ r ∈ l.reads ++ read.toList, Below dir (place cwd r.path) ∧ startsWith "mizu://" r.document = false := by
  intro r hr
  rcases mem_append.mp hr with hr | hr
  · exact h r hr
  · exact hread r (mem_toList.mp hr)

/-- The commands that read a file have the sandbox of a document. -/
theorem imageRead_some {disk : Disk} {cmd : NetworkCmd} {path : String} (h : imageRead disk cmd = some path) :
    ∃ tab url isRemote base, cmd = .fetchImage tab url isRemote (some base) := by
  cases cmd with
  | fetchImage tab url isRemote sandboxBase =>
    cases sandboxBase with
    | none =>
      rw [imageRead_none] at h
      cases h
    | some base => exact ⟨tab, url, isRemote, base, rfl⟩
  | _ => cases h

theorem step_homed (h : Homed cwd dir l) (hdisk : move.OnDisk cwd dir) (hplain : l.PlainPaths move)
    (hstep : l.step move = some l') : Homed cwd dir l' := by
  cases move with
  | tab m =>
    obtain ⟨t, htab, rfl⟩ := map_eq_some_iff.mp hstep
    have hnavigation : ∀ host url initiator target source, l.sys.navigates m = some (host, url, initiator) →
        navigationOutcome host l.committedUrl url initiator = .commits target source →
        HomedIn cwd dir target ∧ ∀ p, stripPrefix "file:///" target = some p →
          Below dir (place cwd p) ∧ startsWith "mizu://" l.committedUrl = false := by
      intro host url initiator target source hnavigates hcommits
      obtain ⟨host₀, disk, rfl, hsuits⟩ := hdisk host (TabSystem.navigates_host hnavigates)
      exact navigation_confined hsuits (hplain _ url initiator hnavigates) h.sys.document hcommits
    refine ⟨TabSystem.step_homed h.sys (fun url source hdoes => ?_) htab, h.images, h.reads.append fun r hr => ?_⟩
    · obtain ⟨host, target, initiator, hnavigates, hout⟩ | ⟨ticket, id, url', source', results, hresults, hout⟩ :=
        TabSystem.does_cases (by rw [hdoes]; nofun)
      · exact (hnavigation host target initiator url source hnavigates (hout.symm.trans hdoes)).1
      · rw [hdoes] at hout
        cases hout
        exact homedIn_of_mizu (h.sys.results _ (by rw [hresults]; exact mem_cons_self) id url source rfl)
    · obtain ⟨⟨host, url, initiator⟩, hnavigates, hread⟩ := bind_eq_some_iff.mp hr
      dsimp only at hread
      obtain ⟨path, hpath, rfl⟩ := map_eq_some_iff.mp hread
      unfold navigationRead at hpath
      split at hpath
      · grind
      · cases hpath
  | paint host path =>
    obtain rfl := some.inj hstep
    exact h.issue (paintImage_homed h)
  | download host url =>
    obtain rfl := some.inj hstep
    obtain ⟨host₀, disk, rfl, -⟩ := hdisk
    exact h.issue (download_homed h)
  | fetch disk i =>
    obtain ⟨⟨document, cmd⟩, himage, rfl⟩ := map_eq_some_iff.mp hstep
    refine ⟨h.sys, fun image hmem => h.images image (mem_of_mem_eraseIdx hmem), h.reads.append fun r hr => ?_⟩
    obtain ⟨path, hread, rfl⟩ := map_eq_some_iff.mp hr
    obtain ⟨tab, url, isRemote, base, rfl⟩ := imageRead_some hread
    obtain ⟨hbase, hdocument⟩ := h.images _ (mem_of_getElem? himage) tab url isRemote base rfl
    exact ⟨image_confined hdisk hbase (hplain document tab url isRemote base himage) hread, hdocument⟩

theorem start_homed {host : Host} {tab : TabState F} {ctx : WindowCtx} {p d : String}
    (hurl : tab.chromeState.committedUrl = "file:///" ++ p) (hd : parent p = some d) :
    Homed cwd (place cwd d) (start host tab ctx) where
  sys := ⟨fun _ => ⟨p, d, hurl, hd, prefix_refl _⟩, forall_mem_nil _, forall_mem_nil _⟩
  images := forall_mem_nil _
  reads := forall_mem_nil _

end FileLog

/-- In a run from a document on disk, whose links are not rewritten after their check, every file that is read
lies below the directory of that document, and no document from the network reads one. -/
theorem files_confined {F : Frontend} {cwd : List String} (host : Host) (tab : TabState F) (ctx : WindowCtx)
    {p d : String} (hurl : tab.chromeState.committedUrl = "file:///" ++ p) (hd : parent p = some d) {l : FileLog F}
    (h : Transition.Reaches FileLog.step (fun l m => m.OnDisk cwd (place cwd d) ∧ l.PlainPaths m)
      (.start host tab ctx) l) :
    l.Confined cwd (place cwd d) :=
  (h.invariant (I := FileLog.Homed cwd (place cwd d)) (FileLog.start_homed hurl hd)
    fun _ _ _ hl hgood hstep => FileLog.step_homed hl hgood.1 hgood.2 hstep).reads

/-- A disk with two documents in a directory and a file beside it. -/
def sampleNode (names : List String) : Option Node :=
  if names = [] ∨ names = ["b"] then some .dir
  else if names = ["b", "doc"] ∨ names = ["b", "page"] ∨ names = ["secret"] then some (.file [])
  else none

def sampleDisk : Disk where
  cwd := []
  cwd_names := nofun
  node := sampleNode
  parent_dir names n h := by
    unfold sampleNode at h ⊢
    split at h
    · rename_i hdir
      obtain hdir | hdir := hdir
      · simp at hdir
      · obtain ⟨rfl, -⟩ := List.append_inj' (show names ++ [n] = [] ++ ["b"] from hdir) rfl
        simp
    · split at h
      · rename_i hfile
        obtain hfile | hfile | hfile := hfile
        · obtain ⟨rfl, -⟩ := List.append_inj' (show names ++ [n] = ["b"] ++ ["doc"] from hfile) rfl
          simp
        · obtain ⟨rfl, -⟩ := List.append_inj' (show names ++ [n] = ["b"] ++ ["page"] from hfile) rfl
          simp
        · obtain ⟨rfl, -⟩ := List.append_inj' (show names ++ [n] = [] ++ ["secret"] from hfile) rfl
          simp
      · exact absurd rfl h

def diskHost : Host := plainHost.onDisk sampleDisk

theorem sampleDisk_suits : Suits [] ["b"] sampleDisk := ⟨rfl, fun _ h => nomatch h⟩

/-- A tab that shows the document in the directory. -/
def diskLog : FileLog plainFrontend := .start diskHost (plainTab plainFrontend () "file:////b/doc") plainCtx

def diskOpen (url : String) : FileMove := .tab (.openUrl diskHost url)

theorem diskOpen_onDisk (url : String) : (diskOpen url).OnDisk [] ["b"] := by
  rintro host ⟨⟩
  exact ⟨plainHost, sampleDisk, rfl, sampleDisk_suits⟩

theorem disk_opened {url : String} {read : FileRead}
    (h : ((FileLog.step diskLog (diskOpen url)).any fun l => l.reads == [read]) = true) :
    ∃ l, FileLog.step diskLog (diskOpen url) = some l ∧ l.reads = [read] := by
  obtain ⟨l, hstep, hreads⟩ := (any_eq_true _ _).mp h
  exact ⟨l, hstep, eq_of_beq hreads⟩

theorem files_confined_page : ∃ l : FileLog plainFrontend,
    l.reads = [⟨"file:////b/doc", "/b/page"⟩] ∧ l.Confined [] ["b"] := by
  obtain ⟨l, hstep, hreads⟩ := @disk_opened "page" ⟨"file:////b/doc", "/b/page"⟩ (by decide)
  have hplain : diskLog.PlainPaths (diskOpen "page") := by
    intro host url initiator hnavigates _
    obtain ⟨rfl, rfl, -⟩ : diskHost = host ∧ "page" = url ∧ .userGesture = initiator := by
      simpa [TabSystem.navigates, TabSystem.asks] using hnavigates
    have hfound : sampleDisk.canonicalize (documentDir "file:////b/doc") ≠ none := by decide
    have hchars : '\\' ∉ (linkPath sampleDisk.canonicalize "file:////b/doc" "page").toList := by decide
    exact ⟨fun hnone => absurd hnone hfound, fun _ _ => hchars⟩
  exact ⟨l, hreads, files_confined (p := "/b/doc") diskHost (plainTab plainFrontend () "file:////b/doc") plainCtx rfl
    (d := "/b") (by decide) (.next .refl ⟨diskOpen_onDisk "page", hplain⟩ hstep)⟩

/-- A link with a backslash is checked as one name and read as two. -/
theorem files_escape :
    ¬∀ (F : Frontend) (cwd : List String) (host : Host) (tab : TabState F) (ctx : WindowCtx) (p d : String)
      (l : FileLog F), tab.chromeState.committedUrl = "file:///" ++ p → parent p = some d →
      Transition.Reaches FileLog.step
        (fun l m => m.OnDisk cwd (place cwd d) ∧ l.committedUrl ≠ "about:blank") (.start host tab ctx) l →
      l.Confined cwd (place cwd d) := by
  intro h
  obtain ⟨l, hstep, hreads⟩ := @disk_opened "..\\secret" ⟨"file:////b/doc", "/b/../secret"⟩ (by decide)
  have hconfined := h plainFrontend [] diskHost (plainTab plainFrontend () "file:////b/doc") plainCtx "/b/doc" "/b" l
    rfl (by decide) (.next .refl ⟨diskOpen_onDisk "..\\secret", by decide⟩ hstep)
  obtain ⟨hbelow, -⟩ := hconfined ⟨"file:////b/doc", "/b/../secret"⟩ (by rw [hreads]; exact mem_singleton_self _)
  exact absurd hbelow (by decide)

end Mizu
