import TurboMemory.Lib.LazyTable
import TurboMemory.Storage.Record

/-!
# The metadata store

Metadata records are cached in memory and written to a transactional snapshot when asked. The
snapshot lags behind: it holds the records, the allocation counters and the last sequence
number as of the last flush. A committed transaction is atomic, so a snapshot is a value.

## Main results

* `MetadataStore.get_putMeta`, `MetadataStore.get_remove` — the cache as a function.
* `MetadataStore.getElem?_writeRecords` — what the snapshot holds after a flush.
* `MetadataStore.Clean` — the invariant that every offset on which cache and snapshot differ is
  dirty, kept by every operation; a flush then makes them equal.
-/

set_option autoImplicit false

namespace TurboMemory

open Function

/-- Metadata records by offset. -/
abbrev Records := Std.ExtTreeMap PointOffset MetaRecord

/-- The snapshot. Counters are absent until the first flush. -/
structure Redb where
  records : Records := ∅
  nextOffset : Option ℕ := none
  nextSeq : Option ℕ := none
  lastAppliedSeq : Option ℕ := none
  /-- The saved cognitive graph. -/
  graph : Option (List UInt8) := none

/-- The cache over the snapshot. -/
structure MetadataStore where
  db : Redb
  records : Records
  /-- Offsets changed since the last flush. -/
  dirty : List PointOffset
  nextOffset : ℕ
  nextSeq : ℕ
  /-- Number of live records, maintained incrementally. -/
  recordCount : ℕ

namespace MetadataStore

/-- Load the snapshot. Counters that were never written are derived from the records. -/
def «open» (db : Redb) : MetadataStore where
  db := db
  records := db.records
  dirty := []
  nextOffset := db.nextOffset.getD ((db.records.keys.max?.map (· + 1)).getD 0)
  nextSeq := db.nextSeq.getD
    (((db.records.values.map fun r => r.insertSeq + 1).max?).getD 1)
  recordCount := db.records.size

variable (m : MetadataStore)

variable (offset : PointOffset)

/-- Look up a record. -/
def get : Option MetaRecord := m.records[offset]?

/-- A field of the records. -/
def column {α : Type} (m : MetadataStore) (f : MetaRecord → α) (offset : PointOffset) : Option α :=
  (m.get offset).map f

/-- The id of the record at an offset. -/
def idOf : Option String :=
  m.records[offset]?.map MetaRecord.id

/-- Insert or update a metadata record. -/
def putMeta (record : MetaRecord) : MetadataStore :=
  { m with
    records := m.records.insert offset record
    recordCount := if offset ∈ m.records then m.recordCount else m.recordCount + 1
    dirty := m.dirty.insert offset }

/-- Insert or update metadata from a full record. -/
def put (record : Record) : MetadataStore :=
  m.putMeta offset (MetaRecord.ofRecord record)

/-- Insert or update a batch of records. -/
def putBatch (records : List (PointOffset × Record)) : MetadataStore :=
  records.foldl (fun m p => m.put p.1 p.2) m

/-- Remove a record. -/
def remove : MetadataStore :=
  { m with
    records := m.records.erase offset
    recordCount := if offset ∈ m.records then m.recordCount - 1 else m.recordCount
    dirty := m.dirty.insert offset }

/-- Bring the snapshot's records up to date at the dirty offsets. -/
def writeRecords (records : Records) (dirty : List PointOffset) (table : Records) : Records :=
  LazyTable.save id ⟨records, dirty, table⟩

/-- The snapshot a flush commits. -/
def writeSnapshot (lastAppliedSeq : ℕ) : Redb :=
  { m.db with
    records := writeRecords m.records m.dirty m.db.records
    nextOffset := some m.nextOffset
    nextSeq := some m.nextSeq
    lastAppliedSeq := some lastAppliedSeq }

/-- Persist dirty records, counters and the last applied sequence number, unless the snapshot
already matches. -/
def flush (lastAppliedSeq : ℕ) : MetadataStore :=
  if m.dirty = [] ∧ m.db.lastAppliedSeq = some lastAppliedSeq ∧ m.records = ∅ then m
  else { m with db := m.writeSnapshot lastAppliedSeq, dirty := [] }

/-- Save the graph in a transaction of its own. -/
def saveGraph (bytes : List UInt8) : MetadataStore :=
  { m with db := { m.db with graph := some bytes } }

/-- True when the snapshot has never been written. -/
def isFresh : Bool :=
  m.recordCount = 0 ∧ m.db.lastAppliedSeq = none ∧ m.db.nextOffset = none

/-- The largest offset that has a live record. -/
def maxLiveOffset : Option PointOffset := m.records.keys.max?

/-- Take the next offset. -/
def allocateOffset : PointOffset × MetadataStore :=
  (m.nextOffset, { m with nextOffset := m.nextOffset + 1 })

/-- Take the next sequence number. -/
def allocateSeq : ℕ × MetadataStore :=
  (m.nextSeq, { m with nextSeq := m.nextSeq + 1 })

/-- Ensure the next offset is past `offset`. -/
def advanceOffsetPast : MetadataStore :=
  { m with nextOffset := max m.nextOffset (offset + 1) }

/-- Ensure the next sequence number is past `seq`. -/
def advanceSeqPast (seq : ℕ) : MetadataStore :=
  { m with nextSeq := max m.nextSeq (seq + 1) }

/-! ## The cache -/

section

variable (m : MetadataStore)

/-- A stored record. -/
lemma getElem?_records_putMeta (offset o : PointOffset) (r : MetaRecord) :
    (m.putMeta offset r).records[o]? = if offset = o then some r else m.records[o]? := by
  simp [putMeta, Std.ExtTreeMap.getElem?_insert]

/-- A removed one. -/
lemma getElem?_records_remove (offset o : PointOffset) :
    (m.remove offset).records[o]? = if offset = o then none else m.records[o]? := by
  simp [remove, Std.ExtTreeMap.getElem?_erase]

/-- A write sets one offset. -/
lemma get_putMeta (offset : PointOffset) (r : MetaRecord) :
    (m.putMeta offset r).get = update m.get offset (some r) := by
  funext o
  rw [get, getElem?_records_putMeta, update_apply]
  simp only [eq_comm, get]

/-- A removal clears one. -/
lemma get_remove (offset : PointOffset) : (m.remove offset).get = update m.get offset none := by
  funext o
  rw [get, getElem?_records_remove, update_apply]
  simp only [eq_comm, get]

/-- A write sets one entry of a column. -/
lemma column_putMeta {α : Type} (f : MetaRecord → α) (offset : PointOffset)
    (r : MetaRecord) : (m.putMeta offset r).column f = update (m.column f) offset (some (f r)) := by
  show Option.map f ∘ (m.putMeta offset r).get = _
  rw [get_putMeta, comp_update]
  rfl

/-- A removal clears one. -/
lemma column_remove {α : Type} (f : MetaRecord → α) (offset : PointOffset) :
    (m.remove offset).column f = update (m.column f) offset none := by
  show Option.map f ∘ (m.remove offset).get = _
  rw [get_remove, comp_update]
  rfl

/-- A batch changes neither the snapshot nor the counters. -/
lemma putBatch_files (records : List (PointOffset × Record)) :
    (m.putBatch records).db = m.db ∧ (m.putBatch records).nextOffset = m.nextOffset ∧
    (m.putBatch records).nextSeq = m.nextSeq := by
  induction records generalizing m with
  | nil => exact ⟨rfl, rfl, rfl⟩
  | cons p records ih => exact ih (m.put p.1 p.2)

end

/-- What a snapshot's records become: the cache at dirty offsets, unchanged elsewhere. -/
lemma getElem?_writeRecords (records : Records) (dirty : List PointOffset) (table : Records)
    (o : PointOffset) : (writeRecords records dirty table)[o]?
      = if o ∈ dirty then records[o]? else table[o]? := by
  rw [writeRecords, LazyTable.getElem?_save, Option.map_id_apply]

/-- The invariant of the dirty set: where cache and snapshot differ, the offset is dirty; and the
record count is right. -/
structure Clean (m : MetadataStore) : Prop where
  eq_of_not_dirty : ∀ o, o ∉ m.dirty → m.records[o]? = m.db.records[o]?
  recordCount_eq : m.recordCount = m.records.size

/-- An opened store agrees with its snapshot. -/
lemma clean_open (db : Redb) : (MetadataStore.open db).Clean := ⟨fun _ _ => rfl, rfl⟩

variable {m : MetadataStore}

section

variable (h : m.Clean)
include h

/-- A write marks its offset. -/
lemma Clean.putMeta (offset : PointOffset) (r : MetaRecord) : (m.putMeta offset r).Clean := by
  refine ⟨?_, ?_⟩
  · intro o ho
    have hne : o ≠ offset ∧ o ∉ m.dirty := by simpa [MetadataStore.putMeta, not_or] using ho
    rw [getElem?_records_putMeta, if_neg (Ne.symm hne.1)]
    exact h.eq_of_not_dirty o hne.2
  · simp [MetadataStore.putMeta, Std.ExtTreeMap.size_insert, h.recordCount_eq]

/-- So does a write of a whole record. -/
lemma Clean.put (offset : PointOffset) (r : Record) : (m.put offset r).Clean := h.putMeta offset _

/-- A batch marks all of its offsets. -/
lemma Clean.putBatch (records : List (PointOffset × Record)) : (m.putBatch records).Clean := by
  induction records generalizing m with
  | nil => exact h
  | cons p records ih => exact ih (h.put p.1 p.2)

/-- A removal marks its offset. -/
lemma Clean.remove (offset : PointOffset) : (m.remove offset).Clean := by
  refine ⟨?_, ?_⟩
  · intro o ho
    have hne : o ≠ offset ∧ o ∉ m.dirty := by simpa [MetadataStore.remove, not_or] using ho
    rw [getElem?_records_remove, if_neg (Ne.symm hne.1)]
    exact h.eq_of_not_dirty o hne.2
  · simp [MetadataStore.remove, Std.ExtTreeMap.size_erase, h.recordCount_eq]

/-- A flush brings the snapshot up to the cache. -/
lemma Clean.records_flush (lastAppliedSeq : ℕ) :
    (m.flush lastAppliedSeq).db.records = m.records := by
  refine Std.ExtTreeMap.ext_getElem? fun o => ?_
  rw [flush]
  split
  · next hnone => exact (h.eq_of_not_dirty o (by simp [hnone.1])).symm
  · rw [writeSnapshot, getElem?_writeRecords]
    split
    · rfl
    · next ho => exact (h.eq_of_not_dirty o ho).symm

/-- A flush leaves nothing to mark. -/
lemma Clean.flush (lastAppliedSeq : ℕ) : (m.flush lastAppliedSeq).Clean := by
  have hrecords : (m.flush lastAppliedSeq).records = m.records := by
    rw [MetadataStore.flush]
    split <;> rfl
  have hcount : (m.flush lastAppliedSeq).recordCount = m.recordCount := by
    rw [MetadataStore.flush]
    split <;> rfl
  exact ⟨fun o _ => by rw [hrecords, h.records_flush], by rw [hcount, hrecords, h.recordCount_eq]⟩

end

end MetadataStore

end TurboMemory
