import Mizu.Network.Debounce
import Mizu.Types.JsonRoundTrip

/-!
# A batch of storage writes

The records that a flush hands to `write_batch` are encoded, encrypted and inserted one by one in one
transaction. The first that fails ends the loop, and with it the transaction.

* `StorageEngine.writeBatch_atomic`: a batch takes effect as a whole or not at all.
* `StorageEngine.spawnFlush_isolates_iff`: exactly when a bad record costs no other record its value.
-/

namespace Mizu

open List

/-- What a hash map of records holds; the order is that of the iteration. -/
structure WriteBatch where
  records : List (String × Value)
  nodup : (records.map Prod.fst).Nodup

/-- The records of a store at rest, encrypted. -/
abbrev BlobTable := String → Option (List UInt8)

/-- An engine, by what the crates below it answer during one call. -/
structure StorageEngine where
  /-- `serde_json::to_vec`. -/
  toVec : JsonValue → Except MizuError (List UInt8)
  /-- `encrypt_record` with the nonce it draws. -/
  encryptRecord : String → List UInt8 → Except MizuError (List UInt8)
  decryptRecord : String → List UInt8 → Except MizuError (List UInt8)
  decrypt_encrypt : ∀ {key text blob}, encryptRecord key text = .ok blob → decryptRecord key blob = .ok text
  beginWrite : Except MizuError Unit
  openTable : Except MizuError Unit
  /-- Whether the table takes the record under its key. -/
  insert : String → List UInt8 → Except MizuError Unit
  /-- A transaction that is not committed leaves nothing behind. -/
  commit : Except MizuError Unit

namespace StorageEngine

variable (engine : StorageEngine)

/-- The body of the loop before the insertion. -/
def encodeRecord (key : String) (value : Value) : Except MizuError (List UInt8) := do
  let json ← value.toJson
  let plaintext ← engine.toVec json
  engine.encryptRecord key plaintext

/-- The loop of `write_batch`, over the table of the transaction. -/
def insertRecords : List (String × Value) → BlobTable → Except MizuError BlobTable
  | [], table => .ok table
  | (key, value) :: records, table => do
    let blob ← engine.encodeRecord key value
    engine.insert key blob
    insertRecords records (Function.update table key (some blob))

/-- The transaction of `write_batch`. -/
def transaction (records : List (String × Value)) (table : BlobTable) : Except MizuError BlobTable := do
  engine.beginWrite
  engine.openTable
  let table ← engine.insertRecords records table
  engine.commit
  return table

/-- `write_batch`: its result, and what is at rest afterwards. -/
def writeBatch (records : List (String × Value)) (table : BlobTable) : Except MizuError Unit × BlobTable :=
  match engine.transaction records table with
  | .ok table' => (.ok (), table')
  | .error e => (.error e, table)

/-- The task of `spawn_flush`; `opened` is what became of opening the engine. Errors are only logged. -/
def spawnFlush (opened : Except MizuError Unit) (batch : WriteBatch) (table : BlobTable) : BlobTable :=
  match opened with
  | .error _ => table
  | .ok () => (engine.writeBatch batch.records table).2

/-- The value can be encoded, and the table takes the record. -/
def Writable (record : String × Value) : Prop :=
  ∃ blob, engine.encodeRecord record.1 record.2 = .ok blob ∧ engine.insert record.1 blob = .ok ()

/-- What is at rest under the key decrypts to the encoding of the value. -/
def Holds (table : BlobTable) (record : String × Value) : Prop :=
  ∃ json text blob, record.2.toJson = .ok json ∧ engine.toVec json = .ok text ∧
    table record.1 = some blob ∧ engine.decryptRecord record.1 blob = .ok text

/-- The engine opens, and the transaction around the loop begins and commits. -/
def Transacts (opened : Except MizuError Unit) : Prop :=
  opened = .ok () ∧ engine.beginWrite = .ok () ∧ engine.openTable = .ok () ∧ engine.commit = .ok ()

/-- Every record that can be written holds its submitted value, and every failing key what it held before. -/
def Isolates (records : List (String × Value)) (before after : BlobTable) : Prop :=
  (∀ record ∈ records, engine.Writable record → engine.Holds after record) ∧
    ∀ record ∈ records, ¬engine.Writable record → after record.1 = before record.1

variable {engine} {records : List (String × Value)} {table table' : BlobTable} {opened : Except MizuError Unit}

theorem holds_of_encoded {record : String × Value} {blob : List UInt8}
    (h : engine.encodeRecord record.1 record.2 = .ok blob) (hblob : table record.1 = some blob) :
    engine.Holds table record := by
  obtain ⟨json, hjson, h⟩ := Exec.except_of_bind_ok h
  obtain ⟨text, htext, h⟩ := Exec.except_of_bind_ok h
  exact ⟨json, text, blob, hjson, htext, hblob, engine.decrypt_encrypt h⟩

theorem insertRecords_cons {key : String} {value : Value} {blob : List UInt8}
    (hencode : engine.encodeRecord key value = .ok blob) (hinsert : engine.insert key blob = .ok ()) :
    engine.insertRecords ((key, value) :: records) table =
      engine.insertRecords records (Function.update table key (some blob)) := by
  rw [insertRecords, hencode]
  show (engine.insert key blob >>= fun _ => _) = _
  rw [hinsert]
  rfl

/-- The loop gets through if and only if every record can be written. -/
theorem insertRecords_ok_iff :
    (∃ table', engine.insertRecords records table = .ok table') ↔ ∀ record ∈ records, engine.Writable record := by
  induction records generalizing table with
  | nil => exact ⟨fun _ _ h => absurd h not_mem_nil, fun _ => ⟨table, rfl⟩⟩
  | cons record records ih =>
    obtain ⟨key, value⟩ := record
    rw [forall_mem_cons]
    constructor
    · rintro ⟨table', h⟩
      rw [insertRecords] at h
      obtain ⟨blob, hencode, h⟩ := Exec.except_of_bind_ok h
      obtain ⟨⟨⟩, hinsert, h⟩ := Exec.except_of_bind_ok h
      exact ⟨⟨blob, hencode, hinsert⟩, ih.mp ⟨table', h⟩⟩
    · rintro ⟨⟨blob, hencode, hinsert⟩, hrest⟩
      rw [insertRecords_cons hencode hinsert]
      exact ih.mpr hrest

theorem insertRecords_kept (h : engine.insertRecords records table = .ok table') {key : String}
    (hkey : key ∉ records.map Prod.fst) : table' key = table key := by
  induction records generalizing table with
  | nil =>
    obtain rfl : table = table' := Except.ok.inj h
    rfl
  | cons record records ih =>
    rw [insertRecords] at h
    obtain ⟨blob, -, h⟩ := Exec.except_of_bind_ok h
    obtain ⟨⟨⟩, -, h⟩ := Exec.except_of_bind_ok h
    rw [map_cons, mem_cons, not_or] at hkey
    rw [ih h hkey.2, Function.update_of_ne hkey.1]

/-- After the loop every key holds the submitted value. -/
theorem insertRecords_holds (hnodup : (records.map Prod.fst).Nodup)
    (h : engine.insertRecords records table = .ok table') : ∀ record ∈ records, engine.Holds table' record := by
  induction records generalizing table with
  | nil => exact fun _ h => absurd h not_mem_nil
  | cons record records ih =>
    rw [insertRecords] at h
    obtain ⟨blob, hencode, h⟩ := Exec.except_of_bind_ok h
    obtain ⟨⟨⟩, -, h⟩ := Exec.except_of_bind_ok h
    rw [map_cons, nodup_cons] at hnodup
    refine forall_mem_cons.mpr ⟨holds_of_encoded hencode ?_, ih hnodup.2 h⟩
    rw [insertRecords_kept h hnodup.1, Function.update_self]

theorem transaction_ok_iff :
    engine.transaction records table = .ok table' ↔
      (engine.beginWrite = .ok () ∧ engine.openTable = .ok () ∧ engine.commit = .ok ()) ∧
        engine.insertRecords records table = .ok table' := by
  constructor
  · intro h
    obtain ⟨⟨⟩, hbegin, h⟩ := Exec.except_of_bind_ok h
    obtain ⟨⟨⟩, hopen, h⟩ := Exec.except_of_bind_ok h
    obtain ⟨table'', hloop, h⟩ := Exec.except_of_bind_ok h
    obtain ⟨⟨⟩, hcommit, h⟩ := Exec.except_of_bind_ok h
    obtain rfl : table'' = table' := Except.ok.inj h
    exact ⟨⟨hbegin, hopen, hcommit⟩, hloop⟩
  · rintro ⟨⟨hbegin, hopen, hcommit⟩, hloop⟩
    rw [transaction, hbegin, hopen, hloop, hcommit]
    rfl

/-- A batch takes effect as a whole, when every record can be written and the transaction goes through, or
not at all. -/
theorem writeBatch_atomic (hnodup : (records.map Prod.fst).Nodup) :
    (engine.Transacts (.ok ()) ∧ (∀ record ∈ records, engine.Writable record) ∧
        ∀ record ∈ records, engine.Holds (engine.writeBatch records table).2 record) ∨
      (engine.writeBatch records table).2 = table ∧
        ¬(engine.Transacts (.ok ()) ∧ ∀ record ∈ records, engine.Writable record) := by
  unfold writeBatch
  cases h : engine.transaction records table with
  | ok table' =>
    obtain ⟨htransacts, hloop⟩ := transaction_ok_iff.mp h
    exact .inl ⟨⟨rfl, htransacts⟩, insertRecords_ok_iff.mp ⟨table', hloop⟩, insertRecords_holds hnodup hloop⟩
  | error e =>
    refine .inr ⟨rfl, fun ⟨⟨_, htransacts⟩, hwritable⟩ => ?_⟩
    obtain ⟨table', hloop⟩ := insertRecords_ok_iff.mpr hwritable
    rw [transaction_ok_iff.mpr ⟨htransacts, hloop⟩] at h
    cases h

theorem spawnFlush_atomic (engine : StorageEngine) (opened : Except MizuError Unit) (batch : WriteBatch)
    (table : BlobTable) :
    (engine.Transacts opened ∧ (∀ record ∈ batch.records, engine.Writable record) ∧
        ∀ record ∈ batch.records, engine.Holds (engine.spawnFlush opened batch table) record) ∨
      engine.spawnFlush opened batch table = table ∧
        ¬(engine.Transacts opened ∧ ∀ record ∈ batch.records, engine.Writable record) := by
  cases opened with
  | error e => exact .inr ⟨rfl, fun h => nomatch h.1.1⟩
  | ok => exact writeBatch_atomic batch.nodup

/-- A bad record costs no other record its value if and only if there is none and the transaction goes
through, or the values of the others were at rest before. -/
theorem spawnFlush_isolates_iff (engine : StorageEngine) (opened : Except MizuError Unit) (batch : WriteBatch)
    (table : BlobTable) :
    engine.Isolates batch.records table (engine.spawnFlush opened batch table) ↔
      (engine.Transacts opened ∧ ∀ record ∈ batch.records, engine.Writable record) ∨
        ∀ record ∈ batch.records, engine.Writable record → engine.Holds table record := by
  rcases spawnFlush_atomic engine opened batch table with
    ⟨htransacts, hwritable, hholds⟩ | ⟨hsame, hnot⟩
  · refine ⟨fun _ => .inl ⟨htransacts, hwritable⟩, fun _ => ⟨fun record hmem _ => hholds record hmem, ?_⟩⟩
    exact fun record hmem hbad => absurd (hwritable record hmem) hbad
  · rw [Isolates, hsame]
    refine ⟨fun h => .inr h.1, fun h => ⟨fun record hmem hgood => ?_, fun _ _ _ => rfl⟩⟩
    exact h.resolve_left hnot record hmem hgood

/-- An engine that keeps numbers as their digits and takes every record. -/
def plain : StorageEngine where
  toVec json :=
    match json with
    | .number n => .ok (bytesOf (String.ofList n.text))
    | _ => .ok []
  encryptRecord _ text := .ok text
  decryptRecord _ blob := .ok blob
  decrypt_encrypt h := h.symm
  beginWrite := .ok ()
  openTable := .ok ()
  insert _ _ := .ok ()
  commit := .ok ()

/-- A number and a file. -/
def fileBatch : WriteBatch where
  records := [("a", .int 1), ("f", .fileHandle 0 ⟨"/tmp/cat.png", "cat.png"⟩)]
  nodup := by simp

/-- The file ends the loop after the number was inserted, and the number is not kept. -/
theorem file_loses_batch :
    ¬∀ (engine : StorageEngine) (batch : WriteBatch) (table : BlobTable), engine.Transacts (.ok ()) →
      engine.Isolates batch.records table (engine.spawnFlush (.ok ()) batch table) := by
  intro h
  obtain ⟨hgood, -⟩ := h plain fileBatch (fun _ => none) ⟨rfl, rfl, rfl, rfl⟩
  obtain ⟨-, -, blob, -, -, hblob, -⟩ := hgood ("a", .int 1) (.head _) ⟨_, rfl, rfl⟩
  cases hblob

end StorageEngine

end Mizu
