import TurboMemory.Storage.AccessCounters
import TurboMemory.Storage.Bincode
import TurboMemory.Storage.MetadataStore

/-!
# The metadata store and its three tables

Records, demotion factors and access rings are kept in memory and written to the snapshot by a
flush, each only where it changed. A flush is one transaction: when it fails, the marks of what
changed are put back. Setting a factor marks it only if it differs as a float, so a zero that
replaces a zero of the other sign is not written; this is the one difference that `F32.same`
allows.

## Main results

* `LazyStore.Covered.run` — the marks cover every difference, after any operations and flushes.
* `LazyStore.reopen_flush` — after a flush that returned, reopening yields what was in memory.
-/

set_option autoImplicit false

namespace TurboMemory

open Bytes LazyTable

/-! ## Comparing floats -/

namespace F32

/-- Not a number. -/
def isNan (x : F32) : Bool := 0x7F800000 < (x.bits &&& 0x7FFFFFFF)

/-- The bits as an integer that orders numbers as their values are ordered. -/
def order (x : F32) : ℤ :=
  if x.bits < 0x80000000 then x.bits.toNat else -((x.bits &&& 0x7FFFFFFF).toNat : ℤ)

/-- `x < y`. -/
def ltFloat (x y : F32) : Bool := !x.isNan && !y.isNan && x.order < y.order

/-- `x == y`. -/
def eqFloat (x y : F32) : Bool := !x.isNan && !y.isNan && x.order = y.order

/-- `x >= y`. -/
def geFloat (x y : F32) : Bool := !x.isNan && !y.isNan && y.order ≤ x.order

/-- `x.clamp(0.0, 1.0)`: what is not a number stays as it is. -/
def clampUnit (x : F32) : F32 :=
  if x.ltFloat zero then zero else if one.ltFloat x then one else x

/-- The same bits, or equal as floats. -/
def same (x y : F32) : Prop := x = y ∨ x.eqFloat y = true

/-- The same bits. -/
lemma same_refl (x : F32) : x.same x := .inl rfl

/-- What equals it as a float is the same. -/
lemma same.trans_eqFloat {x y z : F32} (h : x.same y) (hyz : y.eqFloat z = true) : x.same z := by
  rcases h with rfl | h
  · exact .inr hyz
  · simp only [eqFloat, Bool.and_eq_true, Bool.not_eq_true', decide_eq_true_eq] at h hyz
    refine .inr ?_
    simp only [eqFloat, Bool.and_eq_true, Bool.not_eq_true', decide_eq_true_eq]
    exact ⟨⟨h.1.1, hyz.1.2⟩, h.2.trans hyz.2⟩

end F32

/-! ## The store -/

/-- How records and rings are serialized. -/
structure SnapshotCodec where
  record : Codec MetaRecord
  ring : Codec (List ℕ)

/-- Read a value that stands alone. -/
def deserialize {α : Type} (c : Codec α) (bytes : List UInt8) : Option α := (c.get bytes).map (·.1)

/-- What was serialized is read back. -/
lemma deserialize_put {α : Type} (c : Codec α) (a : α) : deserialize c (c.put a) = some a := by
  have := c.get_put a []
  rw [List.append_nil] at this
  rw [deserialize, this]
  rfl

/-- The snapshot on disk. Counters are absent until the first flush. -/
structure SnapshotFile where
  records : Std.ExtTreeMap PointOffset (List UInt8) := ∅
  demotion : Std.ExtTreeMap PointOffset F32 := ∅
  accessHistory : Std.ExtTreeMap PointOffset (List UInt8) := ∅
  nextOffset : Option ℕ := none
  nextSeq : Option ℕ := none
  lastAppliedSeq : Option ℕ := none

/-- The store: its three tables, each with its saved part, and its counters. -/
structure LazyStore where
  records : LazyTable MetaRecord (List UInt8)
  demotion : LazyTable F32 F32
  accessHistory : LazyTable (List ℕ) (List UInt8)
  nextOffset : ℕ
  nextSeq : ℕ
  /-- Number of live records, maintained incrementally. -/
  recordCount : ℕ
  /-- The counters in the snapshot. -/
  savedOffset : Option ℕ
  savedSeq : Option ℕ
  lastAppliedSeq : Option ℕ

namespace LazyStore

variable (s : LazyStore) (offset : PointOffset)

/-- What is on disk. -/
def file : SnapshotFile where
  records := s.records.saved
  demotion := s.demotion.saved
  accessHistory := s.accessHistory.saved
  nextOffset := s.savedOffset
  nextSeq := s.savedSeq
  lastAppliedSeq := s.lastAppliedSeq

/-- Load the snapshot; a value that cannot be read is an error. -/
def «open» (C : SnapshotCodec) (f : SnapshotFile) : Option LazyStore := do
  let records ← LazyTable.open (deserialize C.record) f.records
  let demotion ← LazyTable.open some f.demotion
  let accessHistory ← LazyTable.open (deserialize C.ring) f.accessHistory
  some {
    records := records
    demotion := demotion
    accessHistory := accessHistory
    nextOffset := f.nextOffset.getD ((records.memory.keys.max?.map (· + 1)).getD 0)
    nextSeq := f.nextSeq.getD
      (((records.memory.values.map fun r => r.insertSeq + 1).max?).getD 1)
    recordCount := records.memory.size
    savedOffset := f.nextOffset
    savedSeq := f.nextSeq
    lastAppliedSeq := f.lastAppliedSeq }

/-- Insert or update a metadata record. -/
def putMeta (record : MetaRecord) : LazyStore :=
  { s with
    records := s.records.insert offset record
    recordCount := if offset ∈ s.records.memory then s.recordCount else s.recordCount + 1 }

/-- Insert or update metadata from a full record. -/
def put (record : Record) : LazyStore :=
  s.putMeta offset (MetaRecord.ofRecord record)

/-- Insert or update a batch of records. -/
def putBatch (records : List (PointOffset × Record)) : LazyStore :=
  records.foldl (fun s p => s.put p.1 p.2) s

/-- Remove a record, with its factor and its ring. -/
def remove : LazyStore :=
  { s with
    records := s.records.erase offset
    recordCount := if offset ∈ s.records.memory then s.recordCount - 1 else s.recordCount
    demotion := s.demotion.eraseIfPresent offset
    accessHistory := s.accessHistory.eraseIfPresent offset }

/-- Set a factor; `1.0` removes it. The offset is marked if the factor changed. -/
def setDemotionFactor (factor : F32) : LazyStore :=
  let factor := factor.clampUnit
  { s with demotion :=
      if factor.geFloat F32.one then s.demotion.eraseIfPresent offset else
        match s.demotion.memory[offset]? with
        | none => s.demotion.insert offset factor
        | some old =>
          if old.eqFloat factor then s.demotion.keep offset factor
          else s.demotion.insert offset factor }

/-- The saved timestamps of a record. -/
def accessHistoryOf : List ℕ := s.accessHistory.memory[offset]?.getD []

/-- Merge timestamps into a ring, and keep the most recent ones. -/
def appendAccessHistory (timestamps : List ℕ) (maxLen : ℕ) : LazyStore :=
  if timestamps = [] then s
  else
    let entry := TurboMemory.appendAccessHistory maxLen (s.accessHistoryOf offset) timestamps
    { s with accessHistory := s.accessHistory.insert offset entry }

/-- Write what changed, the counters and the sequence number in one transaction, which commits or
fails. Nothing is done if nothing changed, the store is empty and the number is there. -/
def flush (C : SnapshotCodec) (s : LazyStore) (lastAppliedSeq : ℕ) (commits : Bool) :
    Except StorageError Unit × LazyStore :=
  if s.records.dirty = [] ∧ s.demotion.dirty = [] ∧ s.accessHistory.dirty = [] ∧
      s.lastAppliedSeq = some lastAppliedSeq ∧ s.records.memory = ∅ then (.ok (), s)
  else if commits then
    (.ok (), { s with
      records := s.records.flush C.record.put
      demotion := s.demotion.flush id
      accessHistory := s.accessHistory.flush C.ring.put
      savedOffset := some s.nextOffset
      savedSeq := some s.nextSeq
      lastAppliedSeq := some lastAppliedSeq })
  -- The marks that were taken are put back.
  else (.error .redb, s)

/-! ## Sequences of operations -/

end LazyStore

/-- An operation of the store. -/
inductive StoreOp
  | put (offset : PointOffset) (record : Record)
  | putMeta (offset : PointOffset) (record : MetaRecord)
  | putBatch (records : List (PointOffset × Record))
  | remove (offset : PointOffset)
  | setDemotionFactor (offset : PointOffset) (factor : F32)
  | appendAccessHistory (offset : PointOffset) (timestamps : List ℕ) (maxLen : ℕ)
  | flush (lastAppliedSeq : ℕ) (commits : Bool)

namespace LazyStore

/-- The store after an operation. -/
def apply (C : SnapshotCodec) (s : LazyStore) : StoreOp → LazyStore
  | .put offset record => s.put offset record
  | .putMeta offset record => s.putMeta offset record
  | .putBatch records => s.putBatch records
  | .remove offset => s.remove offset
  | .setDemotionFactor offset factor => s.setDemotionFactor offset factor
  | .appendAccessHistory offset timestamps maxLen => s.appendAccessHistory offset timestamps maxLen
  | .flush lastAppliedSeq commits => (s.flush C lastAppliedSeq commits).2

/-- The store after a sequence of operations. -/
def run (C : SnapshotCodec) (s : LazyStore) (ops : List StoreOp) : LazyStore :=
  ops.foldl (apply C) s

/-- In each table, the marks cover every difference between memory and disk. -/
structure Covered (C : SnapshotCodec) (s : LazyStore) : Prop where
  records : s.records.Covers (deserialize C.record) Eq
  demotion : s.demotion.Covers some F32.same
  accessHistory : s.accessHistory.Covers (deserialize C.ring) Eq

variable {C : SnapshotCodec} {s : LazyStore}

/-- An opened store differs in nothing. -/
lemma covered_open {f : SnapshotFile} (h : LazyStore.open C f = some s) : s.Covered C := by
  simp only [LazyStore.open, Option.bind_eq_bind, Option.bind_eq_some_iff] at h
  obtain ⟨records, hrecords, demotion, hdemotion, accessHistory, haccess, h⟩ := h
  cases h
  exact ⟨LazyTable.covers_open (fun _ => rfl) hrecords,
    covers_open F32.same_refl hdemotion,
    covers_open (fun _ => rfl) haccess⟩

section

variable (h : s.Covered C)
include h

variable (offset : PointOffset)

/-- A stored record is marked. -/
lemma Covered.put (record : Record) : (s.put offset record).Covered C :=
  ⟨h.records.insert offset _, h.demotion, h.accessHistory⟩

/-- So is each of a batch. -/
lemma Covered.putBatch (records : List (PointOffset × Record)) :
    (s.putBatch records).Covered C := by
  induction records generalizing s with
  | nil => exact h
  | cons p records ih => exact ih (h.put p.1 p.2)

/-- A factor that is replaced by one that compares equal to it is not marked, and need not be. -/
lemma Covered.setDemotionFactor (factor : F32) :
    (s.setDemotionFactor offset factor).Covered C := by
  refine ⟨h.records, ?_, h.accessHistory⟩
  unfold LazyStore.setDemotionFactor
  dsimp only
  split
  · exact h.demotion.eraseIfPresent offset
  · split
    · exact h.demotion.insert offset _
    · next old hold =>
      split
      · next heq => exact h.demotion.keep (fun _ hsame => hsame.trans_eqFloat heq) hold
      · exact h.demotion.insert offset _

/-- A longer ring is marked. -/
lemma Covered.appendAccessHistory (timestamps : List ℕ)
    (maxLen : ℕ) : (s.appendAccessHistory offset timestamps maxLen).Covered C := by
  unfold LazyStore.appendAccessHistory
  split
  · exact h
  · exact ⟨h.records, h.demotion, h.accessHistory.insert offset _⟩

/-- A flush clears the marks or puts them back. -/
lemma Covered.flush (lastAppliedSeq : ℕ) (commits : Bool) :
    (s.flush C lastAppliedSeq commits).2.Covered C := by
  unfold LazyStore.flush
  split
  · exact h
  · split
    · exact ⟨h.records.flush (deserialize_put _) fun _ => rfl,
        h.demotion.flush (fun _ => rfl) F32.same_refl,
        h.accessHistory.flush (deserialize_put _) fun _ => rfl⟩
    · exact h

/-- Every operation keeps the invariant. -/
lemma Covered.apply (op : StoreOp) : (s.apply C op).Covered C := by
  cases op with
  | put offset record => exact h.put offset record
  | putMeta offset record => exact ⟨h.records.insert offset _, h.demotion, h.accessHistory⟩
  | putBatch records => exact h.putBatch records
  | remove offset =>
    exact ⟨h.records.erase offset, h.demotion.eraseIfPresent offset,
      h.accessHistory.eraseIfPresent offset⟩
  | setDemotionFactor offset factor => exact h.setDemotionFactor offset factor
  | appendAccessHistory offset timestamps maxLen => exact h.appendAccessHistory offset _ maxLen
  | flush lastAppliedSeq commits => exact h.flush lastAppliedSeq commits

/-- Any operations, one after the other. -/
lemma Covered.run (ops : List StoreOp) : (s.run C ops).Covered C := by
  induction ops generalizing s with
  | nil => exact h
  | cons op ops ih => exact ih (h.apply op)

end

/-! ## After a flush -/

/-- What is on disk reads back as what is in memory, in each table. -/
structure Saved (C : SnapshotCodec) (s : LazyStore) : Prop where
  records : ∀ k : ℕ, Agrees (deserialize C.record) Eq s.records.saved[k]?
    s.records.memory[k]?
  demotion : ∀ k : ℕ, Agrees some F32.same s.demotion.saved[k]? s.demotion.memory[k]?
  accessHistory : ∀ k : ℕ, Agrees (deserialize C.ring) Eq s.accessHistory.saved[k]?
    s.accessHistory.memory[k]?

/-- After a flush that returned, everything is saved, also if there was nothing to write. -/
lemma Covered.saved_flush (h : s.Covered C) {lastAppliedSeq : ℕ} {commits : Bool}
    (hok : (s.flush C lastAppliedSeq commits).1 = .ok ()) :
    (s.flush C lastAppliedSeq commits).2.Saved C ∧
      (s.flush C lastAppliedSeq commits).2.lastAppliedSeq = some lastAppliedSeq := by
  unfold LazyStore.flush at hok ⊢
  split
  case isTrue hnothing =>
    obtain ⟨hrecords, hdemotion, haccess, hlast, -⟩ := hnothing
    exact ⟨⟨fun k => h.records k (by simp [hrecords]), fun k => h.demotion k (by simp [hdemotion]),
      fun k => h.accessHistory k (by simp [haccess])⟩, hlast⟩
  case isFalse hchanged =>
    rw [if_neg hchanged] at hok
    cases commits with
    | false => cases hok
    | true =>
      exact ⟨⟨h.records.agrees_save (deserialize_put _) fun _ => rfl,
        h.demotion.agrees_save (fun _ => rfl) F32.same_refl,
        h.accessHistory.agrees_save (deserialize_put _) fun _ => rfl⟩, rfl⟩

/-- Where everything is saved, the file opens with what is in memory. -/
lemma Saved.exists_open (h : s.Saved C) :
    ∃ s', LazyStore.open C s.file = some s' ∧ s'.records.memory = s.records.memory ∧
      (∀ k : ℕ, SameAt F32.same s'.demotion.memory[k]? s.demotion.memory[k]?) ∧
      s'.accessHistory.memory = s.accessHistory.memory ∧
      s'.lastAppliedSeq = s.lastAppliedSeq := by
  obtain ⟨records, hrecords, hrecords'⟩ := exists_load_of_agrees h.records
  obtain ⟨demotion, hdemotion, hdemotion'⟩ := exists_load_of_agrees h.demotion
  obtain ⟨rings, hrings, hrings'⟩ := exists_load_of_agrees h.accessHistory
  have hopened : LazyStore.open C s.file = some {
      records := ⟨records, [], s.records.saved⟩
      demotion := ⟨demotion, [], s.demotion.saved⟩
      accessHistory := ⟨rings, [], s.accessHistory.saved⟩
      nextOffset := s.savedOffset.getD ((records.keys.max?.map (· + 1)).getD 0)
      nextSeq := s.savedSeq.getD (((records.values.map fun r => r.insertSeq + 1).max?).getD 1)
      recordCount := records.size
      savedOffset := s.savedOffset
      savedSeq := s.savedSeq
      lastAppliedSeq := s.lastAppliedSeq } := by
    simp [LazyStore.open, LazyTable.open, file, hrecords, hdemotion, hrings]
  exact ⟨_, hopened, eq_of_sameAt hrecords', hdemotion', eq_of_sameAt hrings',
    rfl⟩

/-- For every sequence of operations and flushes, some of which fail: after a flush that returned,
reopening the store yields the records, factors and rings that were in memory, and the sequence
number that was passed. **Proof sketch.** Every operation marks what it changes (`Covered.apply`),
and a flush that fails puts the marks back, so the marks cover every difference between memory and
disk (`Covered.run`). A flush writes what is marked, or has nothing to do since the disk agrees
already (`Covered.saved_flush`). -/
theorem reopen_flush {f : SnapshotFile} {start : LazyStore}
    (hopen : LazyStore.open C f = some start)
    (ops : List StoreOp) {lastAppliedSeq : ℕ} {commits : Bool}
    (hok : ((start.run C ops).flush C lastAppliedSeq commits).1 = .ok ()) :
    ∃ s', LazyStore.open C ((start.run C ops).flush C lastAppliedSeq commits).2.file = some s' ∧
      s'.records.memory = (start.run C ops).records.memory ∧
      (∀ offset : PointOffset, SameAt F32.same s'.demotion.memory[offset]?
        (start.run C ops).demotion.memory[offset]?) ∧
      s'.accessHistory.memory = (start.run C ops).accessHistory.memory ∧
      s'.lastAppliedSeq = some lastAppliedSeq := by
  have hcovered := (covered_open hopen).run ops
  obtain ⟨hsaved, hlast⟩ := hcovered.saved_flush hok
  obtain ⟨s', hs', h⟩ := hsaved.exists_open
  rw [hlast] at h
  refine ⟨s', hs', ?_⟩
  -- A flush leaves memory as it is.
  rw [flush] at h
  split at h
  · exact h
  · split at h <;> exact h

/-- The serialization of the snapshot. -/
def bincodeSnapshot : SnapshotCodec := ⟨bincodeMeta, Codec.list Codec.nat64⟩

/-- A record of a new store. -/
def sampleStored : Record :=
  ⟨"a", "text", [F32.one], F32.one, [], 0, 1, 0, 0, .hot, none, none, none⟩

/-- A record is put, demoted, saved and removed; another is put and accessed, and the flush that
follows fails. -/
def sampleStoreOps : List StoreOp :=
  [.put 0 sampleStored, .setDemotionFactor 0 ⟨0x3F000000⟩, .flush 1 true, .remove 0,
   .put 1 sampleStored, .appendAccessHistory 1 [7, 5] 4, .flush 2 false]

/-- The store that is opened without files. -/
def emptyStore : LazyStore := ⟨{}, {}, {}, 0, 1, 0, none, none, none⟩

/-- After the next flush, reopening yields the second record, its ring, and no factor. -/
theorem reopen_flush_sample :
    ∃ s', LazyStore.open bincodeSnapshot ((emptyStore.run bincodeSnapshot sampleStoreOps).flush
        bincodeSnapshot 2 true).2.file = some s' ∧
      s'.records.memory[1]? = some (MetaRecord.ofRecord sampleStored) ∧
      s'.accessHistory.memory[1]? = some [5, 7] ∧
      SameAt F32.same s'.demotion.memory[0]? none ∧ s'.lastAppliedSeq = some 2 := by
  obtain ⟨s', hs', hrecords, hdemotion, hrings, hlast⟩ :=
    @reopen_flush bincodeSnapshot {} emptyStore rfl sampleStoreOps 2 true rfl
  refine ⟨s', hs', ?_, ?_, ?_, hlast⟩
  · rw [hrecords]
    decide +kernel
  · rw [hrings]
    decide +kernel
  · have hnone : (emptyStore.run bincodeSnapshot sampleStoreOps).demotion.memory[0]? = none := by
      decide +kernel
    exact hnone ▸ hdemotion 0

/-- The factor of a record is set to `0.0`, saved, and set to `-0.0`. -/
def sampleZeroOps : List StoreOp :=
  [.put 0 sampleStored, .setDemotionFactor 0 F32.zero, .flush 1 true,
    .setDemotionFactor 0 ⟨0x80000000⟩]

/-- **A factor that is not written.** The two zeros compare equal, so the second is not marked, and
reopening yields the first. -/
theorem reopen_flush_zero :
    let s := emptyStore.run bincodeSnapshot sampleZeroOps
    (s.flush bincodeSnapshot 2 true).1 = .ok () ∧
      s.demotion.memory[0]? = some ⟨0x80000000⟩ ∧
      (LazyStore.open bincodeSnapshot (s.flush bincodeSnapshot 2 true).2.file).map
        (·.demotion.memory[0]?) = some (some F32.zero) := by
  decide +kernel

end LazyStore

end TurboMemory
