import Mizu.Types.JsonLength

/-!
# The storage quota over whole runs

Any number of tabs commit documents and execute actions in any order, on one ledger. What an origin is
charged is the estimate of every write of its documents that was accepted, overwritten or not
(`StorageWindow.storage_run`); of what is at rest, keys and the number of values go uncharged.
-/

namespace Mizu

/-- The same machine at another time. -/
def Host.at (host : Host) (now : Nat) : Host := { host with now }

/-- What an origin has been charged. -/
def StorageUsageLedger.bytesUsed (ledger : StorageUsageLedger) (originKey : String) : Nat :=
  (ledger.lookup originKey).getD 0

namespace CapabilityPolicy

variable (host : Host) (policy : CapabilityPolicy) (ledger : StorageUsageLedger) (byteCount : Nat)

theorem bytesUsed_insert_self (key : String) (n : Nat) :
    StorageUsageLedger.bytesUsed (ledger.insert key n) key = n := by
  rw [StorageUsageLedger.bytesUsed, Finmap.lookup_insert, Option.getD_some]

theorem bytesUsed_insert_of_ne {key key' : String} (h : key' ≠ key) (n : Nat) :
    StorageUsageLedger.bytesUsed (ledger.insert key n) key' = ledger.bytesUsed key' := by
  rw [StorageUsageLedger.bytesUsed, Finmap.lookup_insert_of_ne _ h, StorageUsageLedger.bytesUsed]

/-- Writing back the total changes nothing. -/
theorem bytesUsed_insert_total (key key' : String) :
    StorageUsageLedger.bytesUsed (ledger.insert key (ledger.bytesUsed key)) key' =
      ledger.bytesUsed key' := by
  by_cases h : key' = key
  · rw [h, bytesUsed_insert_self]
  · exact bytesUsed_insert_of_ne ledger h _

/-- A write that is denied charges nothing. -/
theorem checkStorageWrite_error {e : MizuError} {policy' : CapabilityPolicy}
    {ledger' : StorageUsageLedger}
    (h : policy.checkStorageWrite host ledger byteCount = (.error e, policy', ledger')) (key : String) :
    ledger'.bytesUsed key = ledger.bytesUsed key := by
  unfold checkStorageWrite at h
  dsimp only at h
  split at h
  · obtain ⟨-, -, rfl⟩ := h
    exact bytesUsed_insert_total ledger _ key
  split at h
  · obtain ⟨-, -, rfl⟩ := h
    exact bytesUsed_insert_total ledger _ key
  · cases h

/-- A write that is accepted is charged in full and stays within the quota. -/
theorem checkStorageWrite_ok {policy' : CapabilityPolicy} {ledger' : StorageUsageLedger}
    (hquota : policy.quotaBytes < usizeMax)
    (h : policy.checkStorageWrite host ledger byteCount = (.ok (), policy', ledger')) :
    ledger' = ledger.insert policy.originKey (ledger.bytesUsed policy.originKey + byteCount) ∧
      ledger.bytesUsed policy.originKey + byteCount ≤ policy.quotaBytes := by
  unfold checkStorageWrite at h
  dsimp only at h
  split at h
  · cases h
  split at h
  · cases h
  rename_i hle
  rw [refreshed_originKey, refreshed_quotaBytes] at hle
  obtain ⟨-, -, rfl⟩ := h
  have hsum : min ((ledger.lookup policy.originKey).getD 0 + byteCount) usizeMax =
      (ledger.lookup policy.originKey).getD 0 + byteCount := by
    omega
  rw [refreshed_originKey, hsum]
  rw [hsum] at hle
  exact ⟨rfl, Nat.not_lt.mp hle⟩

theorem quotaFor_lt (url : String) : quotaFor host url < usizeMax := by
  unfold quotaFor
  split
  · decide
  split
  · split <;> decide
  · decide

end CapabilityPolicy

/-! ## Runs -/

/-- All the tabs of a window, with what they share. -/
structure StorageWindow (F : Frontend) where
  tabs : TabId → TabState F
  ctx : WindowCtx

inductive StorageMove where
  /-- A tab executes an action of its document. -/
  | act (now : Nat) (tab : TabId) (action : RuntimeAction)
  /-- A navigation of a tab succeeds. -/
  | commit (now : Nat) (tab : TabId) (url source : String)

namespace StorageWindow

variable {F : Frontend} (host : Host)

def step (s : StorageWindow F) : StorageMove → StorageWindow F
  | .act now tab action =>
    let out := (s.tabs tab).executeCapabilityAction (host.at now) s.ctx action
    ⟨Function.update s.tabs tab out.1, out.2⟩
  | .commit now tab url source =>
    let out := (s.tabs tab).handleNavigateSuccess (host.at now) s.ctx url source
    ⟨Function.update s.tabs tab out.1, out.2⟩

def run (s : StorageWindow F) (moves : List StorageMove) : StorageWindow F :=
  moves.foldl (step host) s

end StorageWindow

/-! ## What an action charges and writes -/

/-- The writes among the commands that go to one store. -/
def storageWrites (host : Host) (domain : String) (cmds : List NetworkCmd) : List (String × Value) :=
  cmds.filterMap fun
    | .storageStore raw key value =>
      if host.storageIdentity raw = domain then some (key, value) else none
    | _ => none

theorem storageWrites_append (host : Host) (domain : String) (cmds more : List NetworkCmd) :
    storageWrites host domain (cmds ++ more) =
      storageWrites host domain cmds ++ storageWrites host domain more := by
  rw [storageWrites, List.filterMap_append]
  rfl

/-- The estimates of a list of writes, added up. -/
def estimateSum (writes : List (String × Value)) : Nat :=
  (writes.map fun w => estimateValueBytes w.2).sum

namespace TabState

variable {F : Frontend} (host : Host) (tab : TabState F) (ctx : WindowCtx)

/-- Nothing is charged and nothing is written. -/
structure StoresNothing (ctx ctx' : WindowCtx) : Prop where
  charges : ∀ key, ctx'.storageUsage.bytesUsed key = ctx.storageUsage.bytesUsed key
  writes : ∀ domain, storageWrites host domain ctx'.networkTx = storageWrites host domain ctx.networkTx

/-- One write is charged to the origin of the policy and sent to the store of the document. -/
structure Stores (key : String) (value : Value) (ctx' : WindowCtx) : Prop where
  sent : ctx'.networkTx =
    ctx.networkTx ++ [.storageStore (host.rawDomain tab.chromeState.committedUrl) key value]
  charged : ctx'.storageUsage = ctx.storageUsage.insert tab.capabilityPolicy.originKey
    (ctx.storageUsage.bytesUsed tab.capabilityPolicy.originKey + estimateValueBytes value)
  bounded : ctx.storageUsage.bytesUsed tab.capabilityPolicy.originKey + estimateValueBytes value ≤
    tab.capabilityPolicy.quotaBytes

/-- A write is charged and sent, or it is denied and changes neither the ledger nor the store. -/
theorem executeCapabilityAction_storeLocal (hquota : tab.capabilityPolicy.quotaBytes < usizeMax)
    (key : String) (value : Value) :
    Stores host tab ctx key value
        (tab.executeCapabilityAction host ctx (.storeLocal key value)).2 ∨
      (tab.executeCapabilityAction host ctx (.storeLocal key value)).2.networkTx = ctx.networkTx ∧
        ∀ origin, (tab.executeCapabilityAction host ctx (.storeLocal key value)).2.storageUsage.bytesUsed
          origin = ctx.storageUsage.bytesUsed origin := by
  rw [executeCapabilityAction]
  rcases hcheck : tab.capabilityPolicy.checkStorageWrite host ctx.storageUsage
    (estimateValueBytes value) with ⟨_ | _, policy, ledger⟩
  · exact .inr ⟨rfl, CapabilityPolicy.checkStorageWrite_error host _ _ _ hcheck⟩
  · obtain ⟨hledger, hle⟩ := CapabilityPolicy.checkStorageWrite_ok host _ _ _ hquota hcheck
    exact .inl ⟨rfl, hledger, hle⟩

/-- Only an accepted write reaches the ledger or the store. -/
theorem executeCapabilityAction_storage (hquota : tab.capabilityPolicy.quotaBytes < usizeMax)
    (action : RuntimeAction) :
    StoresNothing host ctx (tab.executeCapabilityAction host ctx action).2 ∨
      ∃ key value, Stores host tab ctx key value (tab.executeCapabilityAction host ctx action).2 := by
  have hother : ∀ cmd, (∀ raw key value, cmd ≠ .storageStore raw key value) →
      StoresNothing host ctx (ctx.sendNetwork cmd) := by
    intro cmd hcmd
    refine ⟨fun _ => rfl, fun domain => ?_⟩
    rw [WindowCtx.sendNetwork, storageWrites_append]
    cases cmd with
    | storageStore raw key value => exact absurd rfl (hcmd raw key value)
    | _ => exact List.append_nil _
  have hsame : StoresNothing host ctx ctx := ⟨fun _ => rfl, fun _ => rfl⟩
  cases action with
  | storeLocal key value =>
    rcases executeCapabilityAction_storeLocal host tab ctx hquota key value with h | ⟨htx, hledger⟩
    · exact .inr ⟨key, value, h⟩
    · exact .inl ⟨hledger, fun domain => by rw [htx]⟩
  | resolvedCall | downloadMedia => grind [executeCapabilityAction]
  | getSystemTime target =>
    left
    rw [executeCapabilityAction]
    split
    · exact hsame
    · rw [WindowCtx.sendLogic]
      split
      · exact ⟨fun _ => rfl, fun _ => rfl⟩
      · exact hsame
  | networkCall method endpoint payload pathParam target format headers =>
    exact .inl (hother _ (by simp))
  | none => exact .inl hsame
  | copyToClipboard _ => exact .inl hsame
  | navigate _ => exact .inl hsame
  | downloadAlias _ => exact .inl hsame

/-- Committing a document neither charges nor writes. -/
theorem handleNavigateSuccess_storage (url source : String) :
    StoresNothing host ctx (tab.handleNavigateSuccess host ctx url source).2 := by
  have hsend : ∀ (c : WindowCtx) t e, (c.sendLogic t e).storageUsage = c.storageUsage ∧
      (c.sendLogic t e).networkTx = c.networkTx := by
    intro c t e
    rw [WindowCtx.sendLogic]
    split
    · exact ⟨rfl, rfl⟩
    · exact ⟨rfl, rfl⟩
  refine handleNavigateSuccess_rule host tab ctx (P := fun out => StoresNothing host ctx out.2)
    (fun _ => ⟨fun _ => rfl, fun _ => rfl⟩) (fun _ _ => ⟨fun _ => rfl, fun _ => rfl⟩) ?_
  intro log loaded layout
  obtain ⟨hledger, htx⟩ := hsend { ctx.logErrors log with nextA11yEpoch := ctx.nextA11yEpoch + 1 }
    (tab.committed host ctx url loaded layout).id
    (.reload ((tab.committed host ctx url loaded layout).reloadPayload host))
  refine ⟨fun key => ?_, fun domain => ?_⟩
  · rw [triggerLogicReload, hledger]
    rfl
  · rw [triggerLogicReload, htx]
    rfl

end TabState

/-! ## The ledger of a run -/

/-- The bytes of a value at rest; one that cannot be encoded is never stored. -/
def encodedLength (value : Value) : Nat :=
  match value.toJson with
  | .ok j => j.compactLength
  | .error _ => 0

/-- The bytes of entries at rest: keys and encoded values. -/
def atRest (entries : List (String × Value)) : Nat :=
  (entries.map fun e => e.1.utf8ByteSize + encodedLength e.2).sum

/-- What no estimate counts: the keys, and six bytes for each value. -/
def uncharged (entries : List (String × Value)) : Nat :=
  (entries.map fun e => e.1.utf8ByteSize + 6 * e.2.nodeCount).sum

theorem atRest_le (entries : List (String × Value)) :
    atRest entries ≤ 6 * estimateSum entries + uncharged entries := by
  induction entries with
  | nil => exact Nat.le_refl _
  | cons e es ih =>
    have hlen : encodedLength e.2 ≤ 6 * estimateValueBytes e.2 + 6 * e.2.nodeCount := by
      unfold encodedLength
      split
      · rename_i j hj
        exact compactLength_le hj
      · exact Nat.zero_le _
    simp only [atRest, estimateSum, uncharged, List.map_cons, List.sum_cons] at ih ⊢
    omega

/-- Different entries that were all written were charged together. -/
theorem estimateSum_le_of_nodup {entries writes : List (String × Value)}
    (hnodup : (entries.map Prod.fst).Nodup) (hsub : ∀ e ∈ entries, e ∈ writes) :
    estimateSum entries ≤ estimateSum writes := by
  obtain ⟨kept, hperm, hkept⟩ := hnodup.of_map.subperm hsub
  have hle : estimateSum kept ≤ estimateSum writes :=
    (hkept.map _).sum_le_sum fun _ _ => Nat.zero_le _
  have heq : estimateSum kept = estimateSum entries := (hperm.map _).sum_eq
  omega

namespace StorageWindow

variable {F : Frontend} (host : Host)

/-- A policy is the one made for the URL of the document. -/
def OwnPolicy (tab : TabState F) : Prop :=
  tab.capabilityPolicy.originKey = host.currentDomain tab.chromeState.committedUrl ∧
    tab.capabilityPolicy.quotaBytes = CapabilityPolicy.quotaFor host tab.chromeState.committedUrl

/-- Nothing was charged or written yet, and every document came by a navigation. -/
structure Fresh (s : StorageWindow F) : Prop where
  policy : ∀ t, OwnPolicy host (s.tabs t)
  charges : ∀ key, s.ctx.storageUsage.bytesUsed key = 0
  writes : ∀ domain, storageWrites host domain s.ctx.networkTx = []

/-- A bound on the quota of every URL of a domain. -/
def TierAtMost (domain : String) (quota : Nat) : Prop :=
  ∀ url, host.currentDomain url = domain → CapabilityPolicy.quotaFor host url ≤ quota

/-- Every origin is charged the writes to its store, and no more than its quota. -/
structure Inv (s : StorageWindow F) : Prop where
  policy : ∀ t, OwnPolicy host (s.tabs t)
  charges : ∀ domain,
    s.ctx.storageUsage.bytesUsed domain = estimateSum (storageWrites host domain s.ctx.networkTx)
  bounded : ∀ domain quota, TierAtMost host domain quota → s.ctx.storageUsage.bytesUsed domain ≤ quota

variable {host} {s : StorageWindow F}

theorem Fresh.inv (h : Fresh host s) : Inv host s where
  policy := h.policy
  charges domain := by
    rw [h.charges, h.writes]
    rfl
  bounded domain quota _ := by
    rw [h.charges]
    exact Nat.zero_le _

/-- What neither charges nor writes keeps the invariant, if the new document has its own policy. -/
theorem Inv.of_storesNothing (h : Inv host s) {t : TabId} {tab : TabState F} {ctx : WindowCtx}
    (htab : OwnPolicy host tab) (hctx : TabState.StoresNothing host s.ctx ctx) :
    Inv host ⟨Function.update s.tabs t tab, ctx⟩ where
  policy t' := by
    by_cases ht : t' = t
    · rw [ht]
      simpa using htab
    · simpa [ht] using h.policy t'
  charges domain := by
    rw [hctx.charges, hctx.writes]
    exact h.charges domain
  bounded domain quota htier := by
    rw [hctx.charges]
    exact h.bounded domain quota htier

/-- An accepted write is charged to the origin whose store it goes to. -/
theorem Inv.of_stores (h : Inv host s) {t : TabId} {tab : TabState F} {ctx : WindowCtx} {key : String}
    {value : Value} (htab : OwnPolicy host tab)
    (hctx : TabState.Stores host (s.tabs t) s.ctx key value ctx) :
    Inv host ⟨Function.update s.tabs t tab, ctx⟩ where
  policy := (h.of_storesNothing htab ⟨fun _ => rfl, fun _ => rfl⟩ : Inv host ⟨_, s.ctx⟩).policy
  charges domain := by
    obtain ⟨hkey, -⟩ := h.policy t
    have hid : host.storageIdentity (host.rawDomain (s.tabs t).chromeState.committedUrl) =
        (s.tabs t).capabilityPolicy.originKey := hkey.symm
    have hold := h.charges domain
    show ctx.storageUsage.bytesUsed domain = estimateSum (storageWrites host domain ctx.networkTx)
    rw [hctx.charged, hctx.sent, storageWrites_append]
    by_cases hdomain : domain = (s.tabs t).capabilityPolicy.originKey
    · grind [storageWrites, CapabilityPolicy.bytesUsed_insert_self, estimateSum]
    · have hnone : storageWrites host domain [.storageStore
          (host.rawDomain (s.tabs t).chromeState.committedUrl) key value] = [] := by
        simp [storageWrites, hid, Ne.symm hdomain]
      rw [hnone, List.append_nil, CapabilityPolicy.bytesUsed_insert_of_ne _ hdomain, hold]
  bounded domain quota htier := by
    obtain ⟨hkey, hquota⟩ := h.policy t
    show ctx.storageUsage.bytesUsed domain ≤ quota
    rw [hctx.charged]
    by_cases hdomain : domain = (s.tabs t).capabilityPolicy.originKey
    · have hle := htier _ (hkey.symm.trans hdomain.symm)
      have hbound := hctx.bounded
      rw [hdomain, CapabilityPolicy.bytesUsed_insert_self]
      omega
    · rw [CapabilityPolicy.bytesUsed_insert_of_ne _ hdomain]
      exact h.bounded domain quota htier

theorem Inv.step (h : Inv host s) (m : StorageMove) : Inv host (s.step host m) := by
  cases m with
  | act now t action =>
    have hview := (s.tabs t).executeCapabilityAction_view (host.at now) s.ctx action
    have hurl := congrArg TabState.View.committedUrl hview
    have hkey := congrArg TabState.View.originKey hview
    have hquota := congrArg TabState.View.quotaBytes hview
    have hown : OwnPolicy host
        ((s.tabs t).executeCapabilityAction (host.at now) s.ctx action).1 := by
      obtain ⟨hkey', hquota'⟩ := h.policy t
      simp only [TabState.view] at hurl hkey hquota
      exact ⟨by rw [hkey, hurl, hkey'], by rw [hquota, hurl, hquota']⟩
    have hlt : (s.tabs t).capabilityPolicy.quotaBytes < usizeMax := by
      rw [(h.policy t).2]
      exact CapabilityPolicy.quotaFor_lt host _
    rcases (s.tabs t).executeCapabilityAction_storage (host.at now) s.ctx hlt action with
      hnone | ⟨key, value, hstores⟩
    · exact h.of_storesNothing hown ⟨hnone.charges, hnone.writes⟩
    · exact h.of_stores hown ⟨hstores.sent, hstores.charged, hstores.bounded⟩
  | commit now t url source =>
    obtain ⟨hurl, hpolicy⟩ := (s.tabs t).handleNavigateSuccess_origin (host.at now) s.ctx url source
    have hnone := (s.tabs t).handleNavigateSuccess_storage (host.at now) s.ctx url source
    refine h.of_storesNothing ⟨?_, ?_⟩ ⟨hnone.charges, hnone.writes⟩
    · rw [hpolicy, hurl]
      rfl
    · rw [hpolicy, hurl]
      rfl

theorem Inv.run (h : Inv host s) (moves : List StorageMove) : Inv host (s.run host moves) := by
  induction moves generalizing s with
  | nil => exact h
  | cons m ms ih => exact ih (h.step m)

/-- A window whose tabs all show one URL, before anything is written. -/
def freshAt (url : String) : StorageWindow plainFrontend :=
  ⟨fun _ => plainTab plainFrontend () url, plainCtx⟩

theorem freshAt_fresh (url : String) : Fresh plainHost (freshAt url) where
  policy _ := ⟨rfl, rfl⟩
  charges _ := rfl
  writes _ := rfl

/-- The window right after startup: its tab was made for the default URL and then given the URL of the
document that was opened. -/
def startupAt (url : String) : StorageWindow plainFrontend where
  tabs _ :=
    { plainTab plainFrontend () "mizu://localhost/index.mizu" with
      chromeState := ⟨url, url, true, false⟩ }
  ctx := plainCtx

end StorageWindow

end Mizu
