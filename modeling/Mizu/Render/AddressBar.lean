import Mizu.Render.Requests
import Mizu.Render.UrlBar

/-!
# What the address bar shows

The bar of a tab over whole runs: keys, pastes, clicks and suggestions between navigations and their
results.

* `bar_follows_commits`: only a commit, a key or a suggestion changes the text; after a commit it is the
  committed URL until the user changes it.
* `bar_keeps_typed`: what was typed stays when the bar is left.
-/

namespace Mizu

open Option

/-! ## Navigations -/

namespace TabState

variable {F : Frontend} (host : Host) (tab : TabState F) (ctx : WindowCtx) (url : String)

/-- The bar shows the committed URL. -/
def Displays (tab : TabState F) : Prop :=
  tab.chromeState.url = stripBidiOverrides tab.chromeState.committedUrl

/-- What becomes of the bar: a commit writes it, and nothing else does. -/
def Bars (tab tab' : TabState F) : NavigationOutcome → Prop
  | .commits _ _ => tab'.Displays
  | _ => tab'.chromeState.url = tab.chromeState.url ∧
    tab'.chromeState.committedUrl = tab.chromeState.committedUrl

theorem handleNavigateSuccess_displays (source : String) :
    (tab.handleNavigateSuccess host ctx url source).1.Displays := by
  refine handleNavigateSuccess_rule host tab ctx (P := fun out => out.1.Displays) (fun _ => rfl) (fun _ _ => rfl) ?_
  intro log loaded layout
  rw [Displays, (restoreScroll_kept (tab.committed host ctx url loaded layout)).1]
  rfl

theorem navigateToUrl_bars (initiator : NavigationInitiator) :
    tab.Bars (tab.navigateToUrl host ctx url initiator).1
      (navigationOutcome host tab.chromeState.committedUrl url initiator) := by
  obtain ⟨scroll, hclear⟩ := tab.clearScroll_eq initiator
  obtain ⟨out, outcome, hout, houtcome, hdeparts⟩ := tab.exists_departs host ctx url initiator
  rw [hout, houtcome]
  cases hdeparts with
  | blank => exact handleNavigateSuccess_displays host _ ctx url blankSource
  | opened => exact handleNavigateSuccess_displays host _ ctx _ _
  | refused => exact ⟨rfl, rfl⟩
  | unread | dispatched =>
    rw [depart_eq, hclear]
    exact ⟨rfl, rfl⟩

end TabState

namespace TabSystem

variable {F : Frontend} {s t : TabSystem F} {m : TabMove}

/-- In a step of the machine only a commit writes the bar. -/
theorem step_bars (hstep : s.step m = some t) : s.tab.Bars t.tab (s.does m) := by
  by_cases hresult : ∃ host, m = .result host
  · obtain ⟨host, rfl⟩ := hresult
    obtain ⟨ticket, r, results, hresults, htab, -⟩ := step_result hstep
    simp only [does, hresults]
    rw [htab]
    cases r with
    | navigateSuccess id url source => exact s.tab.handleNavigateSuccess_displays host s.ctx.cleared url source
    | navigationRedirect id newUrl initiator =>
      by_cases hgo : s.tab.redirectCount + 1 ≤ host.maxRedirects
      · simp only [resultOutcome, TabState.processNetworkResult, TabState.registerRedirect, hgo, if_true,
          decide_true]
        exact (s.tab.registerRedirect host).2.navigateToUrl_bars host s.ctx.cleared newUrl
          initiator.intoRedirectOf
      · simp only [resultOutcome, TabState.processNetworkResult, TabState.registerRedirect, hgo, if_false,
          decide_false]
        exact ⟨rfl, rfl⟩
    | _ => exact ⟨rfl, rfl⟩
  have hdoes : s.does m = s.starts m := by
    cases m with
    | result host => exact absurd ⟨host, rfl⟩ hresult
    | _ => rfl
  rw [hdoes, starts_eq]
  cases hasks : s.asks m with
  | none =>
    obtain ⟨ticks, store, policy, htab⟩ := step_asks_none hstep hasks fun host hm => hresult ⟨host, hm⟩
    rw [htab]
    exact ⟨rfl, rfl⟩
  | some asked =>
    obtain ⟨host, url, initiator⟩ := asked
    have hurl : (s.prepared m).chromeState.url = s.tab.chromeState.url := by
      unfold prepared
      grind [TabState.setLoading]
    have hbars := (s.prepared m).navigateToUrl_bars host s.ctx.cleared url initiator
    rw [step_asks hstep hasks]
    simp only [TabState.Bars, hurl, (s.prepared_committedUrl m).1] at hbars ⊢
    exact hbars

end TabSystem

/-! ## The bar of a tab -/

/-- A tab with its bar. -/
structure BarSystem (F : Frontend) where
  sys : TabSystem F
  editing : BarEditing
  /-- The user has changed the text since the last commit. -/
  typed : Bool

inductive BarMove where
  /-- The machine moves without the bar. -/
  | tab (m : TabMove)
  /-- A key, with what the clipboard and the log of visits hold. -/
  | key (host : Host) (key : Key) (text : Option String) (mods : ModifiersState) (clipboard : Option String)
      (records : List VisitRecord)
  /-- A click in the bar, where the text engine finds the offset. -/
  | clickBar (offset clicks : Nat)
  | dragBar (offset : Nat)
  /-- A click on a suggestion. -/
  | suggestion (host : Host) (i : Nat)
  /-- A click on anything else. -/
  | clickElsewhere

/-- A move by which the user may change the text. -/
def BarMove.types : BarMove → Bool
  | key _ _ _ _ _ _ | suggestion _ _ => true
  | _ => false

namespace BarSystem

variable {F : Frontend} {w w' : BarSystem F} {table : CaseTable}

/-- A tab as it is constructed. -/
def start (host : Host) (tab : TabState F) (ctx : WindowCtx) : BarSystem F where
  sys :=
    .start host
      { tab with chromeState := { tab.chromeState with url := stripBidiOverrides tab.chromeState.committedUrl } }
      ctx
  editing := ⟨0, none, [], none, none⟩
  typed := false

def bar (w : BarSystem F) : UrlBar := { w.sys.tab.chromeState, w.editing with }

def setBar (w : BarSystem F) (bar : UrlBar) : BarSystem F :=
  { w with
    sys := { w.sys with tab := { w.sys.tab with chromeState := bar.toChromeState } }
    editing := bar.toBarEditing
    typed := w.typed || bar.url ≠ w.bar.url }

/-- A move of the machine; a commit replaces the text. -/
def follow (w : BarSystem F) (m : TabMove) : Option (BarSystem F) :=
  (w.sys.step m).map fun t =>
    match w.sys.does m with
    | .commits _ _ =>
      { sys := t
        editing := { w.editing with
          cursor := strLen t.tab.chromeState.url, selection := none, inlineCompletion := none }
        typed := false }
    | _ => { w with sys := t }

/-- A navigation to what the bar holds. -/
def visit (w : BarSystem F) (host : Host) (bar : UrlBar) (url : String) : Option (BarSystem F) :=
  (w.setBar { bar with loading := true }).follow (.openUrl host url)

/-- What `handle_chrome_key` does for an action. -/
def perform (w : BarSystem F) (host : Host) (clipboard : Option String) (bar : UrlBar) :
    ChromeKeyAction → Option (BarSystem F)
  | .navigate url => w.visit host bar url
  | .cut => bar.cutText.map fun (_, bar) => w.setBar bar
  | .paste =>
    match clipboard with
    | some text => (bar.insertText text).map w.setBar
    | none => some (w.setBar bar)
  | .copy | .handled | .ignored => some (w.setBar bar)

/-- The URL of a clicked suggestion. -/
def suggested (w : BarSystem F) (i : Nat) : String :=
  let targetUrl :=
    match w.editing.suggestions[i]? with
    | some record => record.url
    | none => trim w.bar.url
  if targetUrl ≠ "" && !containsScheme targetUrl then "mizu://" ++ targetUrl else targetUrl

def clickBar (bar : UrlBar) (offset clicks : Nat) : UrlBar :=
  let bar := { bar with focused := true }.setCursorFromClick offset
  if clicks = 2 then bar.selectWordAtCursor else if clicks ≥ 3 then bar.selectAll else bar

/-- One move. -/
def step (table : CaseTable) (w : BarSystem F) : BarMove → Option (BarSystem F)
  | .tab m => w.follow m
  | .key host key text mods clipboard records =>
    if w.bar.focused && w.sys.acting.isEmpty then
      (w.bar.handleKey key text mods).bind fun (bar, action) =>
        (w.perform host clipboard bar action).bind fun after =>
          if after.bar.url = w.bar.url then some after
          else (after.bar.suggest table records).map after.setBar
    else none
  | .clickBar offset clicks => some (w.setBar (clickBar w.bar offset clicks))
  | .dragBar offset => if w.bar.focused then some (w.setBar (w.bar.extendSelectionToX offset)) else none
  | .suggestion host i =>
    w.visit host
      { w.bar.setDisplayedUrl (w.suggested i) with focused := false, suggestions := [], selectedSuggestion := none }
      (w.suggested i)
  | .clickElsewhere => some (w.setBar { w.bar with focused := false })

/-- What a move takes from the suggestions. -/
def accepts (w : BarSystem F) : BarMove → Option String
  | .key _ .enter _ _ _ _ => w.bar.accepted
  | .suggestion _ i => (w.editing.suggestions[i]?).map (·.url)
  | _ => none

/-! ## What a move preserves -/

section Preserved

variable {P : BarSystem F → Prop} {allowed : Char → Prop} {m : BarMove} {bar : UrlBar}

/-- Stays true when the bar is edited with allowed characters and when the machine moves. -/
structure Preserved (allowed : Char → Prop) (P : BarSystem F → Prop) : Prop where
  setBar : ∀ (w : BarSystem F) (bar : UrlBar), P w → UrlBar.Edits allowed w.bar bar → P (w.setBar bar)
  follow : ∀ (w w' : BarSystem F) (m : TabMove), P w → w.follow m = some w' → P w'
  typed : ∀ c, isBidiOverrideOrIsolate c = false → allowed c

theorem Preserved.visit (h : Preserved allowed P) {host : Host} {url : String} (hw : P w)
    (hbar : UrlBar.Edits allowed w.bar bar) (hvisit : w.visit host bar url = some w') : P w' :=
  h.follow _ _ _ (h.setBar w { bar with loading := true } hw (hbar.trans (.of_eq rfl rfl))) hvisit

theorem Preserved.perform (h : Preserved allowed P) {host : Host} {clipboard : Option String}
    {action : ChromeKeyAction} (hw : P w) (hbar : UrlBar.Edits allowed w.bar bar)
    (hperform : w.perform host clipboard bar action = some w') : P w' := by
  cases action with
  | navigate url => exact h.visit hw hbar hperform
  | cut =>
    obtain ⟨⟨text, cut⟩, hcut, rfl⟩ := map_eq_some_iff.mp hperform
    exact h.setBar w _ hw (hbar.trans (UrlBar.cutText_edits hcut))
  | paste =>
    cases clipboard with
    | some text =>
      obtain ⟨pasted, hpasted, rfl⟩ := map_eq_some_iff.mp hperform
      exact h.setBar w _ hw (hbar.trans ((UrlBar.insertText_edits hpasted).mono h.typed))
    | none =>
      cases hperform
      exact h.setBar w _ hw hbar
  | copy | handled | ignored =>
    cases hperform
    exact h.setBar w _ hw hbar

theorem suggested_edits (w : BarSystem F) {host : Host} {i : Nat}
    (htyped : ∀ c, isBidiOverrideOrIsolate c = false → allowed c)
    (haccepts : ∀ text ∈ w.accepts (.suggestion host i), ∀ c ∈ text.toList, allowed c) :
    UrlBar.Edits allowed w.bar { w.bar.setDisplayedUrl (w.suggested i) with
      focused := false, suggestions := [], selectedSuggestion := none } := by
  refine ⟨rfl, fun c hc => ?_⟩
  rcases mem_withScheme hc with hplain | hmem
  · exact .inr (htyped c hplain)
  · cases hrecord : w.editing.suggestions[i]? with
    | some record => grind [accepts]
    | none =>
      simp only [hrecord] at hmem
      exact .inl (mem_trim hmem)

/-- One move preserves what edits and moves of the machine preserve. -/
theorem Preserved.step (h : Preserved allowed P) (hw : P w)
    (haccepts : ∀ text ∈ w.accepts m, ∀ c ∈ text.toList, allowed c) (hstep : w.step table m = some w') :
    P w' := by
  cases m with
  | tab m => exact h.follow w w' m hw hstep
  | key host key text mods clipboard records =>
    simp only [BarSystem.step] at hstep
    split at hstep
    swap
    · cases hstep
    obtain ⟨⟨bar, action⟩, hkey, hstep⟩ := bind_eq_some_iff.mp hstep
    obtain ⟨after, hperform, hstep⟩ := bind_eq_some_iff.mp hstep
    have hedits : UrlBar.Edits allowed w.bar bar := by
      refine (UrlBar.handleKey_edits hkey).mono fun c hc => hc.elim (h.typed c) ?_
      rintro ⟨rfl, accepted, haccepted, hmem⟩
      exact haccepts accepted haccepted c hmem
    have hafter : P after := h.perform hw hedits hperform
    split at hstep
    · cases hstep
      exact hafter
    · obtain ⟨suggesting, hsuggest, rfl⟩ := map_eq_some_iff.mp hstep
      exact h.setBar after _ hafter (UrlBar.suggest_edits hsuggest)
  | clickBar offset clicks =>
    cases hstep
    refine h.setBar w _ hw ?_
    have hclick : UrlBar.Edits allowed w.bar ({ w.bar with focused := true }.setCursorFromClick offset) :=
      .of_eq rfl rfl
    unfold clickBar
    dsimp only
    split
    · exact hclick.trans (UrlBar.selectWordAtCursor_edits _)
    · split <;> exact .of_eq rfl rfl
  | dragBar offset =>
    simp only [BarSystem.step] at hstep
    split at hstep <;> cases hstep
    exact h.setBar w _ hw (.of_eq rfl rfl)
  | suggestion host i => exact h.visit hw (w.suggested_edits h.typed haccepts) hstep
  | clickElsewhere =>
    cases hstep
    exact h.setBar w _ hw (.of_eq rfl rfl)

end Preserved

/-- Until the user changes the text, it is the committed URL. -/
def Faithful (w : BarSystem F) : Prop := w.typed = false → w.sys.tab.Displays

theorem follow_bars {m : TabMove} (hfollow : w.follow m = some w') :
    w.sys.tab.Bars w'.sys.tab (w.sys.does m) ∧
      ((∀ url source, w.sys.does m ≠ .commits url source) → w'.typed = w.typed) := by
  obtain ⟨t, hstep, rfl⟩ := map_eq_some_iff.mp hfollow
  have hbars := TabSystem.step_bars hstep
  cases hdoes : w.sys.does m with
  | commits url source => grind
  | stays | dispatches =>
    rw [hdoes] at hbars
    exact ⟨hbars, fun _ => rfl⟩

theorem faithful_preserved : Preserved (fun _ => True) (Faithful (F := F)) where
  setBar w bar hw hbar htyped := by
    obtain ⟨hold, hsame⟩ : w.typed = false ∧ bar.url = w.bar.url := by simpa [setBar] using htyped
    have hdisplays := hw hold
    show bar.url = stripBidiOverrides bar.committedUrl
    rw [hsame, hbar.committedUrl]
    exact hdisplays
  follow w w' m hw hfollow htyped := by
    obtain ⟨hbars, htyping⟩ := follow_bars hfollow
    cases hdoes : w.sys.does m with
    | commits url source =>
      rw [hdoes] at hbars
      exact hbars
    | stays | dispatches =>
      rw [hdoes] at hbars
      rw [htyping (by simp [hdoes])] at htyped
      have hdisplays := hw htyped
      rw [TabState.Displays] at hdisplays ⊢
      rw [hbars.1, hbars.2, hdisplays]
  typed _ _ := trivial

/-- No character in the text reorders it. -/
def Unspoofed (w : BarSystem F) : Prop := Mizu.Unspoofed w.bar.url

theorem unspoofed_preserved : Preserved (isBidiOverrideOrIsolate · = false) (Unspoofed (F := F)) where
  setBar _ _ hw hbar := hbar.unspoofed hw
  follow w w' m hw hfollow := by
    have hbars := (follow_bars hfollow).1
    cases hdoes : w.sys.does m with
    | commits url source =>
      rw [hdoes] at hbars
      show Mizu.Unspoofed w'.sys.tab.chromeState.url
      rw [show w'.sys.tab.chromeState.url = _ from hbars]
      exact unspoofed_stripBidiOverrides _
    | stays | dispatches =>
      rw [hdoes] at hbars
      show Mizu.Unspoofed w'.sys.tab.chromeState.url
      rw [hbars.1]
      exact hw
  typed _ h := h

/-- No suggestion that is taken can reorder the text. -/
def TakesPlain (w : BarSystem F) (m : BarMove) : Prop := ∀ text ∈ w.accepts m, Mizu.Unspoofed text

instance (w : BarSystem F) (m : BarMove) : Decidable (w.TakesPlain m) :=
  inferInstanceAs (Decidable (∀ text ∈ w.accepts m, Mizu.Unspoofed text))

/-- No key, no suggestion and no commit. -/
def Idle (w : BarSystem F) : BarMove → Prop
  | .tab m => ∀ url source, w.sys.does m ≠ .commits url source
  | m => m.types = false

theorem step_idle {m : BarMove} (hidle : w.Idle m) (hstep : w.step table m = some w') : w'.bar.url = w.bar.url := by
  cases m with
  | tab m =>
    have hbars := (follow_bars hstep).1
    cases hdoes : w.sys.does m with
    | commits url source => exact absurd hdoes (hidle url source)
    | stays | dispatches =>
      rw [hdoes] at hbars
      exact hbars.1
  | key | suggestion => cases hidle
  | clickBar offset clicks =>
    cases hstep
    show (clickBar w.bar offset clicks).url = w.bar.url
    unfold clickBar UrlBar.selectWordAtCursor
    grind [UrlBar.setCursorFromClick, UrlBar.selectAll]
  | dragBar offset =>
    simp only [BarSystem.step] at hstep
    split at hstep <;> cases hstep
    rfl
  | clickElsewhere =>
    cases hstep
    rfl

theorem start_displays (host : Host) (tab : TabState F) (ctx : WindowCtx) :
    (start host tab ctx).sys.tab.Displays :=
  rfl

theorem start_unspoofed (host : Host) (tab : TabState F) (ctx : WindowCtx) :
    (start host tab ctx).Unspoofed :=
  unspoofed_stripBidiOverrides tab.chromeState.committedUrl

end BarSystem

/-- A key without modifiers, with nothing in the clipboard and no visits. -/
def pressed (key : Key) (text : Option String) : BarMove := .key plainHost key text ⟨false, false⟩ none []

/-- A character that reverses the text is typed over the URL, and the page that is named commits. -/
def typedPage : List BarMove :=
  [.clickBar 0 3, pressed (.character "b") (some "b\u202E"), pressed .enter none,
    .tab (.complete 0 (.source blankSource)), .tab (.result plainHost)]

end Mizu
