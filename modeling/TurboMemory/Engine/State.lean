import TurboMemory.Graph.MemoryGraph
import TurboMemory.Search.Segments
import TurboMemory.Storage.MetadataStore
import TurboMemory.Storage.PayloadIndex
import TurboMemory.Storage.ScopeIndex
import TurboMemory.Storage.VectorStore
import TurboMemory.Storage.Wal

/-!
# The engine

The state of an open store: the three durable parts (metadata snapshot with its cache, vector
file, write-ahead log) and the indexes derived from the records. What a process kill leaves is
the `Disk`. Hash maps are iterated in an arbitrary order: `Env.iterate` is any listing of the
records.
-/

set_option autoImplicit false

namespace TurboMemory

/-! ## Configuration -/

/-- The vector quantizers of the warm and cold tiers. -/
inductive QuantizerKind
  | scalar (bits : ℕ)
  | sign
  | turboQuantMse (bits : ℕ)
  | turboQuantProd (bits : ℕ)
  | raBitQ (bits : ℕ)
deriving DecidableEq

/-- The quantizers that need a power-of-two dimension. -/
def QuantizerKind.requiresPow2Dim : QuantizerKind → Bool
  | .turboQuantMse _ => true
  | .turboQuantProd _ => true
  | _ => false

/-- The configuration the storage layer reads. -/
structure StoreConfig where
  dimension : ℕ
  initialCapacity : ℕ
  /-- Make every write durable against power loss before it returns. -/
  syncWrites : Bool
  hotCapacity : ℕ
  warmQuantizer : QuantizerKind
  coldQuantizer : QuantizerKind

/-- The code the storage layer calls: serialization, JSON parsers, float arithmetic, text
processing, the graph's format, and the order of hash maps. -/
structure Env where
  codec : WalCodec
  /-- The parser that builds a value. -/
  parseValue : JsonParser
  /-- The parser that only checks that there is one. -/
  ignoredAny : String → Except String Unit
  float : FloatOps
  mergeConcepts : ConceptVocabulary → List String → String → List String
  arith : GraphArith
  toSnapshotBytes : MemoryGraph → List UInt8
  fromSnapshotBytes : List UInt8 → Option MemoryGraph
  iterate : Records → List (PointOffset × MetaRecord)
  iterate_perm : ∀ records, (iterate records).Perm records.toList

/-! ## Segments -/

/-- The segments of a store. Sealed ones are on disk. -/
structure SegmentHolder where
  hot : HotSegment
  /-- Plain segments waiting to be built. -/
  sealingPlain : List HotSegment
  /-- The offsets of the built ones. -/
  sealed : List (List PointOffset)

namespace SegmentHolder

variable (config : StoreConfig)

/-- A holder of the segments found on disk. -/
def new (sealed : List (List PointOffset)) : SegmentHolder :=
  ⟨HotSegment.new config.dimension, [], sealed⟩

/-- Insert a record into the mutable segment, and tell whether that is full now. -/
def insert (holder : SegmentHolder) (offset : PointOffset)
    (record : Record) : Except StorageError (Bool × SegmentHolder) :=
  (holder.hot.insert offset record.embedding).map fun hot =>
    (config.hotCapacity ≤ hot.offsets.length, { holder with hot := hot })

/-- Move a full mutable segment into the queue. -/
def sealHot (holder : SegmentHolder) : SegmentHolder :=
  if holder.hot.offsets.length < config.hotCapacity then holder
  else
    { holder with
      hot := HotSegment.new config.dimension
      sealingPlain := holder.sealingPlain ++ [holder.hot] }

/-- Build every waiting segment, the newest first. An empty one is dropped. -/
def processSeals (holder : SegmentHolder) : SegmentHolder :=
  { holder with
    sealingPlain := []
    sealed := holder.sealed ++
      ((holder.sealingPlain.reverse.map HotSegment.offsets).filter (· ≠ [])) }

/-- A segment owns an offset. -/
def Owns (holder : SegmentHolder) (offset : PointOffset) : Prop :=
  offset ∈ holder.hot.offsets ∨ (∃ seg ∈ holder.sealingPlain, offset ∈ seg.offsets) ∨
    ∃ offsets ∈ holder.sealed, offset ∈ offsets

section Owns

variable {holder holder' : SegmentHolder} {o : PointOffset}

/-- Sealing keeps the offsets. -/
lemma Owns.sealHot (h : holder.Owns o) (config : StoreConfig) : (holder.sealHot config).Owns o := by
  rw [SegmentHolder.sealHot]
  split
  · exact h
  · rcases h with h | ⟨seg, hseg, h⟩ | h
    · exact .inr (.inl ⟨holder.hot, by simp, h⟩)
    · exact .inr (.inl ⟨seg, by simp [hseg], h⟩)
    · exact .inr (.inr h)

/-- A segment that is dropped when it is to be built owns nothing. -/
lemma Owns.processSeals (h : holder.Owns o) : holder.processSeals.Owns o := by
  rcases h with h | ⟨seg, hseg, h⟩ | ⟨offsets, hoffsets, h⟩
  · exact .inl h
  · refine .inr (.inr ⟨seg.offsets, ?_, h⟩)
    refine List.mem_append_right _ (List.mem_filter.mpr ⟨?_, ?_⟩)
    · exact List.mem_map_of_mem (List.mem_reverse.mpr hseg)
    · simpa using List.ne_nil_of_mem h
  · exact .inr (.inr ⟨offsets, List.mem_append_left _ hoffsets, h⟩)

/-- The mutable segment gets the offset. -/
lemma owns_insert {config : StoreConfig} {offset : PointOffset} {record : Record} {full : Bool}
    (h : holder.insert config offset record = .ok (full, holder')) :
    holder'.Owns offset ∧ ∀ o, holder.Owns o → holder'.Owns o := by
  simp only [insert, HotSegment.insert, Except.map] at h
  split at h
  · cases h
  · next hot hhot =>
    split at hhot
    · cases hhot
    · cases h
      cases hhot
      constructor
      · refine .inl ?_
        dsimp only
        split
        · next hmem => exact hmem
        · simp
      · rintro o (h | h)
        · refine .inl ?_
          dsimp only
          split
          · exact h
          · exact List.mem_append_left _ h
        · exact .inr h

end Owns

end SegmentHolder

/-! ## Engine and disk -/

/-- The open store. -/
structure Engine where
  config : StoreConfig
  metadata : MetadataStore
  vectors : VectorStore
  wal : Wal
  idIndex : Std.ExtTreeMap String PointOffset
  payloadIndex : PayloadIndex
  scopeIndex : ScopeIndex
  textIndex : Std.ExtTreeMap PointOffset String
  graph : SpreadingActivation
  segments : SegmentHolder
  /-- Accesses since the last drain: their number and the time of the last one. -/
  accessCounters : Std.ExtTreeMap PointOffset (ℕ × ℕ)

/-- What a process kill leaves: the metadata snapshot, the vector file, the log file and the
segment directories. -/
structure Disk where
  redb : Redb := {}
  vectors : Option VectorFile := none
  wal : Option (List UInt8) := none
  segments : List (List PointOffset) := []

/-- The files of an open store. -/
def Engine.disk (e : Engine) : Disk where
  redb := e.metadata.db
  vectors := some e.vectors.file
  wal := some e.wal.file.bytes
  segments := e.segments.sealed

/-! ## File-level writes -/

/-- The writes between which a process can be killed. -/
inductive Write
  /-- Create the vector file. -/
  | createVectors (dim : ℕ)
  /-- Resize it, stamp its header or store a slot. -/
  | vectors (w : VectorWrite)
  /-- Create the log file. -/
  | createWal
  /-- Cut the log. -/
  | walSetLen (n : ℕ)
  /-- Append to the log. -/
  | walAppend (bytes : List UInt8)
  /-- Commit a metadata transaction. -/
  | commit (db : Redb)
  /-- Finish building segments. -/
  | segments (sealed : List (List PointOffset))

/-- The disk after a write. -/
def Disk.write (d : Disk) : Write → Disk
  | .createVectors dim => { d with vectors := some (VectorFile.created dim) }
  | .vectors w => { d with vectors := d.vectors.map (·.write w) }
  | .createWal => { d with wal := some [] }
  | .walSetLen n => { d with wal := d.wal.map (·.take n) }
  | .walAppend bytes => { d with wal := d.wal.map (· ++ bytes) }
  | .commit db => { d with redb := db }
  | .segments sealed => { d with segments := sealed }

/-- The disks a kill during a write can leave: an append can be cut anywhere, every other write
happens or does not. -/
inductive Disk.Torn (d : Disk) : Write → Disk → Prop
  | none (w : Write) : Torn d w d
  | part (bytes : List UInt8) (n : ℕ) :
      Torn d (.walAppend bytes) (d.write (.walAppend (bytes.take n)))
  | all (w : Write) : Torn d w (d.write w)

/-- The disks a kill during a sequence of writes can leave. -/
inductive Disk.Images : Disk → List Write → Disk → Prop
  | nil (d : Disk) : Images d [] d
  | here {d d' : Disk} {w : Write} {ws : List Write} : d.Torn w d' → Images d (w :: ws) d'
  | later {d d' : Disk} {w : Write} {ws : List Write} :
      Images (d.write w) ws d' → Images d (w :: ws) d'

end TurboMemory
