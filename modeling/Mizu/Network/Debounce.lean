import Mizu.Lib.Transition
import Mizu.Types.Json

/-!
# Debounced storage

Writes to one store that come shortly after one another are gathered and committed in one transaction, by
a task that nobody waits for. Timers fire and tasks run in any order; `Debouncer.step` is one move. Every
submit has a number, which the code does not keep.

* `Debouncer.last_write_wins`: in every run in which no batch is handed over while a task with one of
  its keys is still to run, and in which every value can be encoded, the writes to a key take
  effect in order and the last one stays.
* `Debouncer.write_reordered`: without the first condition an older write stays, without the second
  the writes to other keys are lost.
-/

namespace Mizu

open Transition List Option

structure Submitted where
  number : Nat
  value : Value

/-- A batch; no key is there twice, and the order stands for that of the hash map. -/
abbrev Records := List (String × Submitted)

/-- `HashMap::insert`. -/
def insertRecord (key : String) (r : Submitted) : Records → Records
  | [] => [(key, r)]
  | (k, r') :: rest => if k = key then (key, r) :: rest else (k, r') :: insertRecord key r rest

/-- What `spawn_flush` was given. -/
structure FlushTask where
  domain : String
  records : Records

def FlushTask.keys (f : FlushTask) : List String := f.records.map Prod.fst

/-- The records of one store, with the number of the submit that wrote them. -/
abbrev StorageTable := String → Option (Nat × JsonValue)

/-- `write_batch`; an error aborts the transaction. -/
def writeBatch : Records → StorageTable → Except MizuError StorageTable
  | [], table => .ok table
  | (key, r) :: rest, table => do
    let json ← r.value.toJson
    writeBatch rest (Function.update table key (some (r.number, json)))

/-- `StorageWriteDebouncer` with its timers and tasks, and what is at rest. -/
structure Debouncer where
  pending : FxHashMap String Records
  /-- The domains of the timers that have not fired. -/
  timers : List String
  /-- The tasks that have not run. -/
  flushes : List FlushTask
  stored : String → StorageTable
  submits : Nat
  /-- The last submit of every key. -/
  last : String → String → Option Submitted
  /-- The numbers of the submits that took effect, in this order. -/
  effects : String → String → List Nat

inductive DebounceMove where
  | submit (domain key : String) (value : Value)
  /-- A timer fires. -/
  | fire (i : Nat)
  /-- A task runs; `io` is what became of opening the engine and of the transaction. -/
  | flush (i : Nat) (io : Except MizuError Unit)

namespace Debouncer

def start : Debouncer where
  pending := ∅
  timers := []
  flushes := []
  stored _ _ := none
  submits := 0
  last _ _ := none
  effects _ _ := []

variable (maxKeys : Nat)

/-- The batch of a domain with one more record. -/
def gathered (s : Debouncer) (domain key : String) (value : Value) : Records :=
  insertRecord key ⟨s.submits, value⟩ ((s.pending.lookup domain).getD [])

def submit (s : Debouncer) (domain key : String) (value : Value) : Debouncer :=
  let entry := (s.pending.lookup domain).getD []
  let records := s.gathered domain key value
  let s' := { s with
    submits := s.submits + 1
    last := Function.update s.last domain
      (Function.update (s.last domain) key (some ⟨s.submits, value⟩)) }
  if records.length ≥ maxKeys then
    { s' with pending := s.pending.erase domain, flushes := s.flushes ++ [⟨domain, records⟩] }
  else if entry.isEmpty then
    { s' with pending := s.pending.insert domain records, timers := s.timers ++ [domain] }
  else { s' with pending := s.pending.insert domain records }

/-- The timer takes whatever the domain has gathered, be it from a later batch. -/
def fire (s : Debouncer) (i : Nat) : Option Debouncer :=
  match s.timers[i]? with
  | none => none
  | some domain =>
    let s' := { s with timers := s.timers.eraseIdx i }
    match s.pending.lookup domain with
    | none => some s'
    | some records =>
      let s' := { s' with pending := s.pending.erase domain }
      if records.isEmpty then some s'
      else some { s' with flushes := s.flushes ++ [⟨domain, records⟩] }

/-- The numbers of a batch take effect together. -/
def noted (effects : String → List Nat) : Records → String → List Nat
  | [] => effects
  | (key, r) :: rest => noted (Function.update effects key (effects key ++ [r.number])) rest

/-- `spawn_flush`, when the task runs. Errors are logged only. -/
def runFlush (s : Debouncer) (i : Nat) (io : Except MizuError Unit) : Option Debouncer :=
  match s.flushes[i]? with
  | none => none
  | some f =>
    let s' := { s with flushes := s.flushes.eraseIdx i }
    match io, writeBatch f.records (s.stored f.domain) with
    | .ok (), .ok table =>
      some { s' with
        stored := Function.update s.stored f.domain table
        effects := Function.update s.effects f.domain (noted (s.effects f.domain) f.records) }
    | _, _ => some s'

def step (s : Debouncer) : DebounceMove → Option Debouncer
  | .submit domain key value => some (s.submit maxKeys domain key value)
  | .fire i => s.fire i
  | .flush i io => s.runFlush i io

/-- The batch that a move hands over to a task. -/
def handsOver (s : Debouncer) : DebounceMove → Option FlushTask
  | .submit domain key value =>
    let records := s.gathered domain key value
    if records.length ≥ maxKeys then some ⟨domain, records⟩ else none
  | .fire i => do
    let domain ← s.timers[i]?
    let records ← s.pending.lookup domain
    return ⟨domain, records⟩
  | .flush _ _ => none

/-- No batch is handed over while a task of its domain with one of its keys is still to run; submitted
values can be encoded, and the engine opens and commits. -/
structure Orderly (s : Debouncer) (m : DebounceMove) : Prop where
  apart : ∀ f, s.handsOver maxKeys m = some f → ∀ g ∈ s.flushes, g.domain = f.domain →
    g.keys.Disjoint f.keys
  encodes : ∀ domain key value, m = .submit domain key value → ∃ j, value.toJson = .ok j
  io : ∀ i e, m ≠ .flush i (.error e)

end Debouncer

/-! ## Batches -/

variable {rs : Records}

theorem mem_insertRecord {key k : String} {r r' : Submitted} (hnodup : (rs.map Prod.fst).Nodup) :
    (k, r') ∈ insertRecord key r rs ↔ (k = key ∧ r' = r) ∨ (k ≠ key ∧ (k, r') ∈ rs) := by
  induction rs with
  | nil => simp [insertRecord]
  | cons x rs ih =>
    obtain ⟨k₀, r₀⟩ := x
    rw [map_cons, nodup_cons] at hnodup
    have ih := ih hnodup.2
    have hhead : ∀ r, (k₀, r) ∉ rs := fun r hr => hnodup.1 (mem_map.mpr ⟨(k₀, r), hr, rfl⟩)
    rw [insertRecord]
    by_cases h : k₀ = key
    · grind
    · grind

theorem keys_insertRecord (key : String) (r : Submitted) (rs : Records) :
    (insertRecord key r rs).map Prod.fst =
      if key ∈ rs.map Prod.fst then rs.map Prod.fst else rs.map Prod.fst ++ [key] := by
  induction rs with
  | nil => simp [insertRecord]
  | cons x rs ih =>
    obtain ⟨k, r'⟩ := x
    rw [insertRecord]
    by_cases h : k = key
    · subst h
      simp
    · grind

variable {r : Submitted}

theorem nodup_insertRecord {key : String}
    (hnodup : (rs.map Prod.fst).Nodup) : ((insertRecord key r rs).map Prod.fst).Nodup := by
  rw [keys_insertRecord]
  split
  · exact hnodup
  · rename_i h
    exact hnodup.append (nodup_singleton key) (by simpa using h)

/-- A batch that can be encoded is written in full, and nothing else is touched. -/
theorem writeBatch_ok (hnodup : (rs.map Prod.fst).Nodup)
    (hencodes : ∀ x ∈ rs, ∃ j, x.2.value.toJson = .ok j) (table : StorageTable) :
    ∃ table', writeBatch rs table = .ok table' ∧
      (∀ k r, (k, r) ∈ rs → ∃ j, r.value.toJson = .ok j ∧ table' k = some (r.number, j)) ∧
      ∀ k, k ∉ rs.map Prod.fst → table' k = table k := by
  induction rs generalizing table with
  | nil => exact ⟨table, rfl, by simp, fun _ _ => rfl⟩
  | cons x rs ih =>
    obtain ⟨key, r⟩ := x
    rw [map_cons, nodup_cons] at hnodup
    obtain ⟨j, hj⟩ := hencodes (key, r) (.head _)
    obtain ⟨table', hwrite, hwritten, hkept⟩ := ih hnodup.2 (fun y hy => hencodes y (.tail _ hy))
      (Function.update table key (some (r.number, j)))
    refine ⟨table', ?_, fun k r' hr' => ?_, fun k hk => ?_⟩
    · rw [writeBatch, hj]
      exact hwrite
    · grind
    · grind

namespace Debouncer

theorem noted_of_notMem {k : String} (h : k ∉ rs.map Prod.fst)
    (effects : String → List Nat) : noted effects rs k = effects k := by
  induction rs generalizing effects with
  | nil => rfl
  | cons x rs ih =>
    rw [map_cons, mem_cons, not_or] at h
    rw [noted, ih h.2, Function.update_of_ne h.1]

theorem noted_of_mem (hnodup : (rs.map Prod.fst).Nodup) {k : String}
    (h : (k, r) ∈ rs) (effects : String → List Nat) : noted effects rs k = effects k ++ [r.number] := by
  induction rs generalizing effects with
  | nil => exact absurd h not_mem_nil
  | cons x rs ih =>
    obtain ⟨key, r'⟩ := x
    rw [map_cons, nodup_cons] at hnodup
    rw [noted]
    rcases mem_cons.mp h with heq | hmem
    · cases heq
      rw [noted_of_notMem hnodup.1, Function.update_self]
    · grind

/-! ## The invariant -/

/-- The record is gathered for a later batch. -/
def Waits (s : Debouncer) (domain key : String) (r : Submitted) : Prop :=
  ∃ records, s.pending.lookup domain = some records ∧ (key, r) ∈ records

/-- The record is in the hands of a task. -/
def Outstanding (s : Debouncer) (domain key : String) (r : Submitted) : Prop :=
  ∃ f ∈ s.flushes, f.domain = domain ∧ (key, r) ∈ f.records

/-- What is at rest once a record has been written. -/
def encoded (r : Submitted) : Option (Nat × JsonValue) :=
  match r.value.toJson with
  | .ok j => some (r.number, j)
  | .error _ => none

/-- Tasks of one domain share no key. -/
def Apart (f g : FlushTask) : Prop := f.domain = g.domain → f.keys.Disjoint g.keys

theorem Apart.symm {f g : FlushTask} (h : Apart f g) : Apart g f := fun hdomain =>
  (h hdomain.symm).symm

/-- What holds of the records of every key: at most one is in a task and one waits, in the order of
their submits and after all that took effect; the last of them is the last submit. -/
structure Inv (s : Debouncer) : Prop where
  nodup : ∀ domain records, s.pending.lookup domain = some records → (records.map Prod.fst).Nodup
  nodupTasks : ∀ f ∈ s.flushes, f.keys.Nodup
  apart : s.flushes.Pairwise Apart
  encodes : ∀ domain key r, s.Waits domain key r ∨ s.Outstanding domain key r →
    ∃ j, r.value.toJson = .ok j
  encodesLast : ∀ domain key r, s.last domain key = some r → ∃ j, r.value.toJson = .ok j
  counted : ∀ domain key r, s.Waits domain key r ∨ s.Outstanding domain key r → r.number < s.submits
  countedEffects : ∀ domain key, ∀ n ∈ s.effects domain key, n < s.submits
  waitsLast : ∀ domain key r, s.Waits domain key r → s.last domain key = some r
  taskBefore : ∀ domain key r r', s.Outstanding domain key r → s.Waits domain key r' →
    r.number < r'.number
  taskLast : ∀ domain key r, s.Outstanding domain key r → (∀ r', ¬s.Waits domain key r') →
    s.last domain key = some r
  storedLast : ∀ domain key, (∀ r, ¬s.Waits domain key r) → (∀ r, ¬s.Outstanding domain key r) →
    s.stored domain key = (s.last domain key).bind encoded
  ordered : ∀ domain key, (s.effects domain key).Pairwise (· < ·)
  effectsBefore : ∀ domain key r, s.Waits domain key r ∨ s.Outstanding domain key r →
    ∀ n ∈ s.effects domain key, n < r.number

theorem start_inv : Inv start where
  nodup _ _ h := by simp [start] at h
  nodupTasks _ h := by simp [start] at h
  apart := .nil
  encodes _ _ _ h := by simp [Waits, Outstanding, start] at h
  encodesLast _ _ _ h := by simp [start] at h
  counted _ _ _ h := by simp [Waits, Outstanding, start] at h
  countedEffects _ _ _ h := by simp [start] at h
  waitsLast _ _ _ h := by simp [Waits, start] at h
  taskBefore _ _ _ _ h := by simp [Outstanding, start] at h
  taskLast _ _ _ h := by simp [Outstanding, start] at h
  storedLast _ _ _ _ := rfl
  ordered _ _ := .nil
  effectsBefore _ _ _ h := by simp [Waits, Outstanding, start] at h

variable {s : Debouncer}

/-- The state with one more record gathered, whatever is done with the batch then. -/
def gather (s : Debouncer) (domain key : String) (value : Value) : Debouncer :=
  { s with
    pending := s.pending.insert domain (s.gathered domain key value)
    submits := s.submits + 1
    last := Function.update s.last domain
      (Function.update (s.last domain) key (some ⟨s.submits, value⟩)) }

theorem Inv.nodupEntry (h : Inv s) (domain : String) :
    (((s.pending.lookup domain).getD []).map Prod.fst).Nodup := by
  cases hlookup : s.pending.lookup domain with
  | none => exact .nil
  | some records => exact h.nodup domain records hlookup

variable {d k : String}

/-- The new record waits; of the others, those with another domain or key. -/
theorem Inv.waits_gather (h : Inv s) {domain key : String} {value : Value}
    : (s.gather domain key value).Waits d k r ↔
      (d = domain ∧ k = key ∧ r = ⟨s.submits, value⟩) ∨ (¬(d = domain ∧ k = key) ∧ s.Waits d k r) := by
  unfold Waits gather
  dsimp only
  by_cases hd : d = domain
  · subst hd
    rw [Finmap.lookup_insert]
    simp only [some.injEq, exists_eq_left', gathered, mem_insertRecord (h.nodupEntry d),
      true_and]
    cases hlookup : s.pending.lookup d with
    | none => simp
    | some records => simp
  · rw [Finmap.lookup_insert_of_ne _ hd]
    simp [hd]

theorem last_gather {domain key d k : String} {value : Value} :
    (s.gather domain key value).last d k =
      if d = domain ∧ k = key then some ⟨s.submits, value⟩ else s.last d k := by
  unfold gather
  dsimp only
  by_cases hd : d = domain
  · subst hd
    rw [Function.update_self]
    by_cases hk : k = key
    · rw [hk, Function.update_self, if_pos ⟨rfl, rfl⟩]
    · rw [Function.update_of_ne hk, if_neg (fun h => hk h.2)]
  · rw [Function.update_of_ne hd, if_neg (fun h => hd h.1)]

theorem Inv.gather (h : Inv s) (domain key : String) {value : Value}
    (hencodes : ∃ j, value.toJson = .ok j) : Inv (s.gather domain key value) where
  nodup d records hlookup := by
    by_cases hd : d = domain
    · subst hd
      rw [Debouncer.gather, Finmap.lookup_insert] at hlookup
      cases hlookup
      exact nodup_insertRecord (h.nodupEntry d)
    · rw [Debouncer.gather, Finmap.lookup_insert_of_ne _ hd] at hlookup
      exact h.nodup d records hlookup
  nodupTasks := h.nodupTasks
  apart := h.apart
  encodes d k r hr := by
    rcases hr with hr | hr
    · rcases h.waits_gather.mp hr with ⟨-, -, rfl⟩ | ⟨-, hr⟩
      · exact hencodes
      · exact h.encodes d k r (.inl hr)
    · exact h.encodes d k r (.inr hr)
  encodesLast d k r hr := by
    rw [last_gather] at hr
    split at hr
    · cases hr
      exact hencodes
    · exact h.encodesLast d k r hr
  counted d k r hr := by
    show r.number < s.submits + 1
    rcases hr with hr | hr
    · rcases h.waits_gather.mp hr with ⟨-, -, rfl⟩ | ⟨-, hr⟩
      · exact Nat.lt_succ_self _
      · exact Nat.lt_succ_of_lt (h.counted d k r (.inl hr))
    · exact Nat.lt_succ_of_lt (h.counted d k r (.inr hr))
  countedEffects d k n hn := Nat.lt_succ_of_lt (h.countedEffects d k n hn)
  waitsLast d k r hr := by
    rw [last_gather]
    rcases h.waits_gather.mp hr with ⟨hd, hk, rfl⟩ | ⟨hne, hr⟩
    · rw [if_pos ⟨hd, hk⟩]
    · rw [if_neg hne]
      exact h.waitsLast d k r hr
  taskBefore d k r r' hr hr' := by
    rcases h.waits_gather.mp hr' with ⟨-, -, rfl⟩ | ⟨-, hr'⟩
    · exact h.counted d k r (.inr hr)
    · exact h.taskBefore d k r r' hr hr'
  taskLast d k r hr hnone := by
    have hne : ¬(d = domain ∧ k = key) := fun ⟨hd, hk⟩ =>
      hnone _ (h.waits_gather.mpr (.inl ⟨hd, hk, rfl⟩))
    rw [last_gather, if_neg hne]
    exact h.taskLast d k r hr fun r' hr' => hnone r' (h.waits_gather.mpr (.inr ⟨hne, hr'⟩))
  storedLast d k hnone hnone' := by
    have hne : ¬(d = domain ∧ k = key) := fun ⟨hd, hk⟩ =>
      hnone _ (h.waits_gather.mpr (.inl ⟨hd, hk, rfl⟩))
    rw [last_gather, if_neg hne]
    exact h.storedLast d k (fun r' hr' => hnone r' (h.waits_gather.mpr (.inr ⟨hne, hr'⟩))) hnone'
  ordered := h.ordered
  effectsBefore d k r hr n hn := by
    rcases hr with hr | hr
    · rcases h.waits_gather.mp hr with ⟨-, -, rfl⟩ | ⟨-, hr⟩
      · exact h.countedEffects d k n hn
      · exact h.effectsBefore d k r (.inl hr) n hn
    · exact h.effectsBefore d k r (.inr hr) n hn

/-- The state after the batch of a domain was handed over. -/
def handOver (s : Debouncer) (domain : String) (records : Records) : Debouncer :=
  { s with pending := s.pending.erase domain, flushes := s.flushes ++ [⟨domain, records⟩] }

section HandOver

variable {domain : String} {records : Records} (hlookup : s.pending.lookup domain = some records)

include hlookup

omit hlookup in
theorem waits_handOver : (s.handOver domain records).Waits d k r ↔ d ≠ domain ∧ s.Waits d k r := by
  unfold Waits handOver
  dsimp only
  by_cases hd : d = domain
  · rw [hd, Finmap.lookup_erase]
    simp
  · rw [Finmap.lookup_erase_ne hd]
    simp [hd]

theorem outstanding_handOver : (s.handOver domain records).Outstanding d k r ↔
      s.Outstanding d k r ∨ (d = domain ∧ s.Waits d k r) := by
  unfold Outstanding Waits handOver
  dsimp only
  constructor
  · grind
  · rintro (⟨f, hf, hd, hr⟩ | ⟨rfl, records', hlookup', hr⟩)
    · exact ⟨f, mem_append_left _ hf, hd, hr⟩
    · rw [hlookup] at hlookup'
      cases hlookup'
      exact ⟨⟨d, records⟩, mem_append_right _ (.head _), rfl, hr⟩

/-- Handing over moves records from the batch to a task. -/
theorem held_handOver
    (h : (s.handOver domain records).Waits d k r ∨ (s.handOver domain records).Outstanding d k r) :
    s.Waits d k r ∨ s.Outstanding d k r := by
  grind [waits_handOver, outstanding_handOver]

theorem Inv.handOver (h : Inv s)
    (hapart : ∀ g ∈ s.flushes, g.domain = domain → g.keys.Disjoint (records.map Prod.fst)) :
    Inv (s.handOver domain records) where
  nodup d records' hlookup' := by
    by_cases hd : d = domain
    · rw [hd, Debouncer.handOver, Finmap.lookup_erase] at hlookup'
      cases hlookup'
    · rw [Debouncer.handOver, Finmap.lookup_erase_ne hd] at hlookup'
      exact h.nodup d records' hlookup'
  nodupTasks f hf := by
    rcases mem_append.mp hf with hf | hf
    · exact h.nodupTasks f hf
    · obtain rfl := mem_singleton.mp hf
      exact h.nodup domain records hlookup
  apart := by
    refine pairwise_append.mpr ⟨h.apart, pairwise_singleton _ _, fun g hg f hf => ?_⟩
    obtain rfl := mem_singleton.mp hf
    exact fun hdomain => hapart g hg hdomain
  encodes d k r hr := h.encodes d k r (held_handOver hlookup hr)
  encodesLast := h.encodesLast
  counted d k r hr := h.counted d k r (held_handOver hlookup hr)
  countedEffects := h.countedEffects
  waitsLast d k r hr := h.waitsLast d k r (waits_handOver.mp hr).2
  taskBefore d k r r' hr hr' := by
    obtain ⟨hd, hr'⟩ := waits_handOver.mp hr'
    rcases (outstanding_handOver hlookup).mp hr with hr | ⟨hd', -⟩
    · exact h.taskBefore d k r r' hr hr'
    · exact absurd hd' hd
  taskLast d k r hr hnone := by
    rcases (outstanding_handOver hlookup).mp hr with hold | ⟨-, hwait⟩
    · refine h.taskLast d k r hold fun r' hr' => ?_
      by_cases hd : d = domain
      · -- The key would be in a task of the domain and in the batch.
        subst hd
        obtain ⟨g, hg, hdomain, hmem⟩ := hold
        obtain ⟨records', hlookup', hmem'⟩ := hr'
        rw [hlookup] at hlookup'
        cases hlookup'
        exact hapart g hg hdomain (mem_map.mpr ⟨(k, r), hmem, rfl⟩)
          (mem_map.mpr ⟨(k, r'), hmem', rfl⟩)
      · exact hnone r' (waits_handOver.mpr ⟨hd, hr'⟩)
    · exact h.waitsLast d k r hwait
  storedLast d k hnone hnone' := by
    refine h.storedLast d k (fun r hr => ?_) (fun r hr => ?_)
    · by_cases hd : d = domain
      · exact hnone' r ((outstanding_handOver hlookup).mpr (.inr ⟨hd, hr⟩))
      · exact hnone r (waits_handOver.mpr ⟨hd, hr⟩)
    · exact hnone' r ((outstanding_handOver hlookup).mpr (.inl hr))
  ordered := h.ordered
  effectsBefore d k r hr := h.effectsBefore d k r (held_handOver hlookup hr)

end HandOver

/-- The state after a task has committed its batch. -/
def commit (s : Debouncer) (i : Nat) (f : FlushTask) (table : StorageTable) : Debouncer :=
  { s with
    flushes := s.flushes.eraseIdx i
    stored := Function.update s.stored f.domain table
    effects := Function.update s.effects f.domain (noted (s.effects f.domain) f.records) }

theorem commit_effects (i : Nat) (f : FlushTask) (table : StorageTable) (d : String) :
    (s.commit i f table).effects d =
      if d = f.domain then noted (s.effects d) f.records else s.effects d := by
  by_cases hd : d = f.domain
  · rw [hd, if_pos rfl]
    exact Function.update_self ..
  · rw [if_neg hd]
    exact Function.update_of_ne hd ..

theorem commit_stored (i : Nat) (f : FlushTask) (table : StorageTable) (d : String) :
    (s.commit i f table).stored d = if d = f.domain then table else s.stored d := by
  by_cases hd : d = f.domain
  · rw [hd, if_pos rfl]
    exact Function.update_self ..
  · rw [if_neg hd]
    exact Function.update_of_ne hd ..

section Commit

variable {i : Nat} {f : FlushTask} {table : StorageTable} (hi : s.flushes[i]? = some f)

include hi

theorem flushes_perm : s.flushes.Perm (f :: s.flushes.eraseIdx i) := by
  obtain ⟨hlt, rfl⟩ := List.getElem?_eq_some_iff.mp hi
  exact (getElem_cons_eraseIdx_perm hlt).symm

variable (table) in
theorem outstanding_iff : s.Outstanding d k r ↔
    (f.domain = d ∧ (k, r) ∈ f.records) ∨ (s.commit i f table).Outstanding d k r := by
  unfold Outstanding
  simp only [(flushes_perm hi).mem_iff, mem_cons, exists_eq_or_imp]
  rfl

/-- No other task of the domain has a key of the batch. -/
theorem Inv.outstanding_commit (h : Inv s) {r r' : Submitted}
    (hr' : f.domain = d ∧ (k, r') ∈ f.records) : ¬(s.commit i f table).Outstanding d k r := by
  rintro ⟨g, hg, hdomain, hmem⟩
  have hpair := ((flushes_perm hi).pairwise_iff Apart.symm).mp h.apart
  exact (pairwise_cons.mp hpair).1 g hg (hr'.1.trans hdomain.symm)
    (mem_map.mpr ⟨(k, r'), hr'.2, rfl⟩) (mem_map.mpr ⟨(k, r), hmem, rfl⟩)

theorem held_commit (h : (s.commit i f table).Waits d k r ∨ (s.commit i f table).Outstanding d k r) :
    s.Waits d k r ∨ s.Outstanding d k r := by
  rcases h with h | h
  · exact .inl h
  · exact .inr ((outstanding_iff _ hi).mpr (.inr h))

variable (table) in
/-- The batch takes effect on its keys, and on nothing else. -/
theorem Inv.effects_commit (h : Inv s) (d k : String) :
    (∃ r, f.domain = d ∧ (k, r) ∈ f.records ∧
      (s.commit i f table).effects d k = s.effects d k ++ [r.number]) ∨
    (∀ r, ¬(f.domain = d ∧ (k, r) ∈ f.records)) ∧
      (s.commit i f table).effects d k = s.effects d k := by
  have hnodup := h.nodupTasks f (mem_of_getElem? hi)
  by_cases hd : f.domain = d
  · subst hd
    by_cases hk : k ∈ f.keys
    · obtain ⟨⟨k', r⟩, hr, rfl⟩ := mem_map.mp hk
      refine .inl ⟨r, rfl, hr, ?_⟩
      rw [commit_effects, if_pos rfl]
      exact noted_of_mem hnodup hr _
    · refine .inr ⟨fun r hr => hk (mem_map.mpr ⟨(k, r), hr.2, rfl⟩), ?_⟩
      rw [commit_effects, if_pos rfl]
      exact noted_of_notMem hk _
  · refine .inr ⟨fun r hr => hd hr.1, ?_⟩
    rw [commit_effects, if_neg (Ne.symm hd)]

theorem Inv.commit (h : Inv s)
    (hwritten : ∀ k r, (k, r) ∈ f.records → ∃ j, r.value.toJson = .ok j ∧ table k = some (r.number, j))
    (hkept : ∀ k, k ∉ f.keys → table k = s.stored f.domain k) : Inv (s.commit i f table) where
  nodup := h.nodup
  nodupTasks g hg := h.nodupTasks g (mem_of_mem_eraseIdx hg)
  apart := (pairwise_cons.mp (((flushes_perm hi).pairwise_iff Apart.symm).mp h.apart)).2
  encodes d k r hr := h.encodes d k r (held_commit hi hr)
  encodesLast := h.encodesLast
  counted d k r hr := h.counted d k r (held_commit hi hr)
  countedEffects d k n hn := by
    rcases h.effects_commit table hi d k with ⟨r, hd, hr, heffects⟩ | ⟨-, heffects⟩
    · rw [heffects] at hn
      rcases mem_append.mp hn with hn | hn
      · exact h.countedEffects d k n hn
      · obtain rfl := mem_singleton.mp hn
        exact h.counted d k r (.inr ((outstanding_iff table hi).mpr (.inl ⟨hd, hr⟩)))
    · rw [heffects] at hn
      exact h.countedEffects d k n hn
  waitsLast := h.waitsLast
  taskBefore d k r r' hr := h.taskBefore d k r r' ((outstanding_iff _ hi).mpr (.inr hr))
  taskLast d k r hr := h.taskLast d k r ((outstanding_iff _ hi).mpr (.inr hr))
  storedLast d k hnone hnone' := by
    by_cases hbatch : ∃ r, f.domain = d ∧ (k, r) ∈ f.records
    · obtain ⟨r, rfl, hr⟩ := hbatch
      obtain ⟨j, hj, htable⟩ := hwritten k r hr
      have hlast := h.taskLast f.domain k r
        ((outstanding_iff table hi).mpr (.inl ⟨rfl, hr⟩)) hnone
      rw [commit_stored, if_pos rfl, htable]
      show some (r.number, j) = (s.last f.domain k).bind encoded
      rw [hlast, bind_some, encoded, hj]
    · have hold := h.storedLast d k hnone fun r hr => by
        rcases (outstanding_iff table hi).mp hr with hr | hr
        · exact hbatch ⟨r, hr⟩
        · exact hnone' r hr
      show (s.commit i f table).stored d k = (s.last d k).bind encoded
      rw [← hold, commit_stored]
      by_cases hd : d = f.domain
      · subst hd
        rw [if_pos rfl]
        refine hkept k fun hk => ?_
        obtain ⟨⟨k', r⟩, hr, rfl⟩ := mem_map.mp hk
        exact hbatch ⟨r, rfl, hr⟩
      · rw [if_neg hd]
  ordered d k := by
    rcases h.effects_commit table hi d k with ⟨r, hd, hr, heffects⟩ | ⟨-, heffects⟩
    · rw [heffects]
      refine pairwise_append.mpr ⟨h.ordered d k, pairwise_singleton _ _, fun n hn m hm => ?_⟩
      obtain rfl := mem_singleton.mp hm
      exact h.effectsBefore d k r
        (.inr ((outstanding_iff table hi).mpr (.inl ⟨hd, hr⟩))) n hn
    · rw [heffects]
      exact h.ordered d k
  effectsBefore d k r hr n hn := by
    rcases h.effects_commit table hi d k with ⟨r', hd, hr', heffects⟩ | ⟨-, heffects⟩
    · rw [heffects] at hn
      rcases mem_append.mp hn with hn | hn
      · exact h.effectsBefore d k r (held_commit hi hr) n hn
      · obtain rfl := mem_singleton.mp hn
        rcases hr with hr | hr
        · exact h.taskBefore d k r' r
            ((outstanding_iff table hi).mpr (.inl ⟨hd, hr'⟩)) hr
        · exact absurd hr (h.outstanding_commit hi ⟨hd, hr'⟩)
    · rw [heffects] at hn
      exact h.effectsBefore d k r (held_commit hi hr) n hn

end Commit

/-! ## Runs -/

/-- Every batch has a record, and a timer that will take it. -/
def Timed (s : Debouncer) : Prop :=
  ∀ domain records, s.pending.lookup domain = some records → records ≠ [] ∧ domain ∈ s.timers

/-- What a submit comes to: the record is gathered, and the batch is handed over or has a timer. -/
theorem submit_cases (maxKeys : Nat) (s : Debouncer) (domain key : String) (value : Value) :
    (s.handsOver maxKeys (.submit domain key value) = some ⟨domain, s.gathered domain key value⟩ ∧
      s.submit maxKeys domain key value =
        (s.gather domain key value).handOver domain (s.gathered domain key value)) ∨
    ∃ timers, s.submit maxKeys domain key value = { s.gather domain key value with timers } ∧
      (((s.pending.lookup domain).getD [] = [] ∧ timers = s.timers ++ [domain]) ∨
        ((s.pending.lookup domain).getD [] ≠ [] ∧ timers = s.timers)) := by
  unfold submit handsOver
  by_cases hlen : (s.gathered domain key value).length ≥ maxKeys
  · left
    simp only [if_pos hlen, true_and]
    have herase : s.pending.erase domain =
        (s.pending.insert domain (s.gathered domain key value)).erase domain := by
      refine Finmap.ext_lookup fun d => ?_
      by_cases hd : d = domain
      · rw [hd, Finmap.lookup_erase, Finmap.lookup_erase]
      · rw [Finmap.lookup_erase_ne hd, Finmap.lookup_erase_ne hd, Finmap.lookup_insert_of_ne _ hd]
    rw [herase]
    rfl
  · right
    simp only [if_neg hlen]
    by_cases hempty : (s.pending.lookup domain).getD [] = []
    · exact ⟨s.timers ++ [domain], by rw [hempty]; rfl, .inl ⟨hempty, rfl⟩⟩
    · exact ⟨s.timers, if_neg (by simpa using hempty), .inr ⟨hempty, rfl⟩⟩

theorem gathered_ne_nil (s : Debouncer) (domain key : String) (value : Value) :
    s.gathered domain key value ≠ [] := by
  unfold gathered
  cases (s.pending.lookup domain).getD [] with
  | nil => exact cons_ne_nil _ _
  | cons x rs => grind [insertRecord]

theorem Timed.submit (h : Timed s) (maxKeys : Nat) (domain key : String) (value : Value) :
    Timed (s.submit maxKeys domain key value) := by
  intro d records hlookup
  rcases submit_cases maxKeys s domain key value with ⟨-, heq⟩ | ⟨timers, heq, htimers⟩
  · rw [heq] at hlookup ⊢
    by_cases hd : d = domain
    · rw [hd, handOver, Finmap.lookup_erase] at hlookup
      cases hlookup
    · rw [handOver, Finmap.lookup_erase_ne hd, gather, Finmap.lookup_insert_of_ne _ hd] at hlookup
      exact h d records hlookup
  · rw [heq] at hlookup ⊢
    show records ≠ [] ∧ d ∈ timers
    by_cases hd : d = domain
    · subst hd
      rw [gather, Finmap.lookup_insert] at hlookup
      cases hlookup
      refine ⟨gathered_ne_nil s d key value, ?_⟩
      rcases htimers with ⟨-, rfl⟩ | ⟨hne, rfl⟩
      · exact mem_append_right _ (.head _)
      · cases hold : s.pending.lookup d with
        | none => exact absurd (by rw [hold]; rfl) hne
        | some rs => exact (h d rs hold).2
    · rw [gather, Finmap.lookup_insert_of_ne _ hd] at hlookup
      obtain ⟨hne, hmem⟩ := h d records hlookup
      refine ⟨hne, ?_⟩
      rcases htimers with ⟨-, rfl⟩ | ⟨-, rfl⟩
      · exact mem_append_left _ hmem
      · exact hmem

variable {s' : Debouncer}

/-- A timer that fires hands over the batch of its domain, if there is one. -/
theorem fire_cases {i : Nat} (htimed : Timed s) (h : s.fire i = some s') :
    ∃ domain, s.timers[i]? = some domain ∧
      ((s.pending.lookup domain = none ∧ s' = { s with timers := s.timers.eraseIdx i }) ∨
        ∃ records, s.pending.lookup domain = some records ∧
          s' = { s.handOver domain records with timers := s.timers.eraseIdx i }) := by
  unfold fire at h
  cases hi : s.timers[i]? with
  | none =>
    rw [hi] at h
    cases h
  | some domain =>
    rw [hi] at h
    refine ⟨domain, rfl, ?_⟩
    cases hlookup : s.pending.lookup domain with
    | none => grind
    | some records =>
      have hne : records.isEmpty = false := by simpa using (htimed domain records hlookup).1
      simp only [hlookup, hne, Bool.false_eq_true, if_false, some.injEq] at h
      exact .inr ⟨records, rfl, h.symm⟩

theorem Timed.fire {i : Nat} (htimed : Timed s) (h : s.fire i = some s') : Timed s' := by
  obtain ⟨domain, hi, hcases⟩ := fire_cases htimed h
  have hkeep : ∀ d, d ≠ domain → d ∈ s.timers → d ∈ s.timers.eraseIdx i := by
    grind [mem_iff_getElem, mem_eraseIdx_iff_getElem]
  intro d records hlookup
  rcases hcases with ⟨hnone, rfl⟩ | ⟨records', -, rfl⟩
  · obtain ⟨hne, hmem⟩ := htimed d records hlookup
    refine ⟨hne, hkeep d ?_ hmem⟩
    rintro rfl
    rw [hnone] at hlookup
    cases hlookup
  · by_cases hd : d = domain
    · rw [hd, handOver, Finmap.lookup_erase] at hlookup
      cases hlookup
    · rw [handOver, Finmap.lookup_erase_ne hd] at hlookup
      obtain ⟨hne, hmem⟩ := htimed d records hlookup
      exact ⟨hne, hkeep d hd hmem⟩

theorem Inv.withTimers (h : Inv s) (timers : List String) : Inv { s with timers } :=
  ⟨h.nodup, h.nodupTasks, h.apart, h.encodes, h.encodesLast, h.counted, h.countedEffects, h.waitsLast, h.taskBefore,
    h.taskLast, h.storedLast, h.ordered, h.effectsBefore⟩

theorem runFlush_ok {i : Nat} (h : Inv s) (hrun : s.runFlush i (.ok ()) = some s') :
    Inv s' ∧ s'.pending = s.pending ∧ s'.timers = s.timers := by
  unfold runFlush at hrun
  cases hi : s.flushes[i]? with
  | none =>
    rw [hi] at hrun
    cases hrun
  | some f =>
    obtain ⟨table, hwrite, hwritten, hkept⟩ := writeBatch_ok (h.nodupTasks f (mem_of_getElem? hi))
      (fun x hx => h.encodes f.domain x.1 x.2 (.inr ⟨f, mem_of_getElem? hi, rfl, hx⟩))
      (s.stored f.domain)
    simp only [hi, hwrite, some.injEq] at hrun
    subst hrun
    exact ⟨h.commit hi hwritten hkept, rfl, rfl⟩

theorem inv_step {maxKeys : Nat} {m : DebounceMove} (h : Inv s) (htimed : Timed s)
    (hgood : Orderly maxKeys s m) (hstep : s.step maxKeys m = some s') : Inv s' ∧ Timed s' := by
  cases m with
  | submit domain key value =>
    obtain rfl := some.inj hstep
    refine ⟨?_, htimed.submit maxKeys domain key value⟩
    have hgather := h.gather domain key (hgood.encodes domain key value rfl)
    rcases submit_cases maxKeys s domain key value with ⟨hover, heq⟩ | ⟨timers, heq, -⟩
    · rw [heq]
      exact hgather.handOver (Finmap.lookup_insert ..) (hgood.apart _ hover)
    · rw [heq]
      exact hgather.withTimers timers
  | fire i =>
    refine ⟨?_, htimed.fire hstep⟩
    obtain ⟨domain, hi, ⟨-, rfl⟩ | ⟨records, hlookup, rfl⟩⟩ := fire_cases htimed hstep
    · exact h.withTimers _
    · have hover : s.handsOver maxKeys (.fire i) = some ⟨domain, records⟩ := by
        rw [handsOver, hi]
        show (s.pending.lookup domain).bind _ = _
        rw [hlookup]
        rfl
      exact (h.handOver hlookup (hgood.apart _ hover)).withTimers _
  | flush i io =>
    cases io with
    | error e => exact absurd rfl (hgood.io i e)
    | ok =>
      obtain ⟨hinv, hpending, htimers⟩ := runFlush_ok h hstep
      refine ⟨hinv, fun d records hlookup => ?_⟩
      rw [hpending] at hlookup
      rw [htimers]
      exact htimed d records hlookup

/-- The record is what is at rest. -/
def AtRest (s : Debouncer) (domain key : String) (r : Submitted) : Prop :=
  ∃ j, r.value.toJson = .ok j ∧ s.stored domain key = some (r.number, j)

theorem Inv.atRest (h : Inv s) {domain key : String}
    (hlast : s.last domain key = some r) (hwaits : ∀ r, ¬s.Waits domain key r)
    (htask : ∀ r, ¬s.Outstanding domain key r) : s.AtRest domain key r := by
  obtain ⟨j, hj⟩ := h.encodesLast domain key r hlast
  have hstored := h.storedLast domain key hwaits htask
  rw [hlast, bind_some, encoded, hj] at hstored
  exact ⟨j, hj, hstored⟩

/-- In every state of an orderly run the writes to a key have taken effect in the order of their submits;
the last submit of every key is gathered, in a task or at rest; and when no timer and no task is left, it
is at rest. -/
theorem last_write_wins (maxKeys : Nat) {s : Debouncer}
    (h : Reaches (step maxKeys) (Orderly maxKeys) start s) :
    (∀ domain key, (s.effects domain key).Pairwise (· < ·)) ∧
    (∀ domain key r, s.last domain key = some r →
      s.Waits domain key r ∨ s.Outstanding domain key r ∨ s.AtRest domain key r) ∧
    (s.timers = [] → s.flushes = [] → ∀ domain key r, s.last domain key = some r →
      s.AtRest domain key r) := by
  obtain ⟨hinv, htimed⟩ : Inv s ∧ Timed s := by
    refine h.invariant (I := fun s => Inv s ∧ Timed s) ⟨start_inv, fun d records hlookup => ?_⟩
      fun s m s' hs hgood hstep => inv_step hs.1 hs.2 hgood hstep
    simp [start] at hlookup
  refine ⟨hinv.ordered, fun domain key r hlast => ?_, fun htimers hflushes domain key r hlast => ?_⟩
  · by_cases hwaits : ∃ r', s.Waits domain key r'
    · obtain ⟨r', hr'⟩ := hwaits
      have hlast' := hinv.waitsLast domain key r' hr'
      rw [hlast] at hlast'
      exact .inl (some.inj hlast' ▸ hr')
    rw [not_exists] at hwaits
    by_cases htask : ∃ r', s.Outstanding domain key r'
    · obtain ⟨r', hr'⟩ := htask
      have hlast' := hinv.taskLast domain key r' hr' hwaits
      rw [hlast] at hlast'
      exact .inr (.inl (some.inj hlast' ▸ hr'))
    rw [not_exists] at htask
    exact .inr (.inr (hinv.atRest hlast hwaits htask))
  · refine hinv.atRest hlast (fun r => ?_) (fun r => ?_)
    · rintro ⟨records, hlookup, -⟩
      have hmem := (htimed domain records hlookup).2
      rw [htimers] at hmem
      cases hmem
    · rintro ⟨f, hf, -⟩
      rw [hflushes] at hf
      cases hf

/-- Two writes to one key, each handed over at once and run before the next. -/
theorem last_write_wins_twice : ∃ s : Debouncer, s.timers = [] ∧ s.flushes = [] ∧
    s.AtRest "d" "k" ⟨1, .int 2⟩ := by
  have hencodes : ∀ i : Int64, ∃ j, (Value.int i).toJson = .ok j := fun i => ⟨_, rfl⟩
  have hsubmit : ∀ (s : Debouncer) (i : Int64), s.flushes = [] →
      Orderly 1 s (.submit "d" "k" (.int i)) := by
    intro s i hs
    refine ⟨fun f _ g hg => ?_, fun domain key value h => ?_, fun i e h => (nomatch h)⟩
    · rw [hs] at hg
      cases hg
    · cases h
      exact hencodes i
  have hflush : ∀ (s : Debouncer) (i : Nat), Orderly 1 s (.flush i (.ok ())) := by
    intro s i
    exact ⟨fun f h => (nomatch h), fun _ _ _ h => (nomatch h), fun _ _ h => (nomatch h)⟩
  have hstart : Reaches (step 1) (Orderly 1) start start := .refl
  have hreach := hstart.next (hsubmit _ 1 rfl) rfl |>.next (hflush _ 0) rfl
    |>.next (hsubmit _ 2 rfl) rfl |>.next (hflush _ 0) rfl
  exact ⟨_, rfl, rfl, (last_write_wins 1 hreach).2.2 rfl rfl "d" "k" ⟨1, .int 2⟩ rfl⟩

/-- Two tasks for one key that run in the other order leave the older write; and a value that cannot be
encoded takes the writes to other keys with it. -/
theorem write_reordered :
    (∃ s : Debouncer, Transition.run (step 1) start
        [.submit "d" "k" (.int 1), .submit "d" "k" (.int 2), .flush 1 (.ok ()), .flush 0 (.ok ())] =
          some s ∧ s.timers = [] ∧ s.flushes = [] ∧ s.last "d" "k" = some ⟨1, .int 2⟩ ∧
        s.AtRest "d" "k" ⟨0, .int 1⟩ ∧ s.effects "d" "k" = [1, 0]) ∧
    ∀ (id : Nat) (data : FileHandleData), ∃ s : Debouncer, Transition.run (step 8) start
        [.submit "d" "k" (.int 1), .submit "d" "file" (.fileHandle id data), .fire 0,
          .flush 0 (.ok ())] = some s ∧ s.timers = [] ∧ s.flushes = [] ∧
        s.last "d" "k" = some ⟨0, .int 1⟩ ∧ s.stored "d" "k" = none := by
  refine ⟨⟨_, rfl, rfl, rfl, rfl, ⟨_, rfl, rfl⟩, rfl⟩, fun id data => ⟨_, rfl, rfl, rfl, rfl, rfl⟩⟩

end Debouncer

end Mizu
