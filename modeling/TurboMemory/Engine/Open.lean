import TurboMemory.Engine.Write

/-!
# Opening a store

Opening loads the metadata snapshot, the vector file and the log, replays what the log has
beyond the snapshot, makes the result the new snapshot, and rebuilds the indexes from it.
`openWrites` are the file-level writes of an open, and `Disk.Interrupted` the disks a kill during
one leaves. Segment directories are derived data and are loaded without looking into them. The
recovery report is not modelled.
-/

set_option autoImplicit false

namespace TurboMemory

open CriticalSections

/-! ## Opening the files -/

/-- A power of two. -/
def isPowerOfTwo (n : ℕ) : Bool := n != 0 && n &&& (n - 1) == 0

/-- A quantizer as error messages show it. -/
def QuantizerKind.debug : QuantizerKind → String
  | .scalar bits => s!"Scalar \x7b bits: {bits} \x7d"
  | .sign => "Sign"
  | .turboQuantMse bits => s!"TurboQuantMse \x7b bits: {bits} \x7d"
  | .turboQuantProd bits => s!"TurboQuantProd \x7b bits: {bits} \x7d"
  | .raBitQ bits => s!"RaBitQ \x7b bits: {bits} \x7d"

/-- Refuse a quantizer that cannot work with the dimension. -/
def checkQuantizer (dim : ℕ) (name : String) (kind : QuantizerKind) : Except StorageError Unit :=
  if kind.requiresPow2Dim && !isPowerOfTwo dim then
    let shown := kind.debug
    .error (.invalidArgument
      (s!"{name} {shown} requires a power-of-two dimension, but dimension is {dim}. " ++
        "Use a power-of-two dimension (e.g. 256, 512, 1024) or switch to a " ++
        "non-FWHT quantizer (scalar / sign)."))
  else .ok ()

/-- Check the quantizers of both tiers. -/
def StoreConfig.check (config : StoreConfig) : Except StorageError Unit := do
  checkQuantizer config.dimension "warm_quantizer" config.warmQuantizer
  checkQuantizer config.dimension "cold_quantizer" config.coldQuantizer

namespace Engine

/-- Open the metadata snapshot, the vector file and the log; there are no indexes yet. -/
def openFiles (config : StoreConfig) (d : Disk) : Except StorageError Engine := do
  let vectors ← VectorStore.open d.vectors config.dimension config.initialCapacity
  let wal ← Wal.open d.wal
  .ok { config := config
        metadata := MetadataStore.open d.redb
        vectors := vectors
        wal := wal
        idIndex := ∅
        payloadIndex := {}
        scopeIndex := {}
        textIndex := ∅
        graph := {}
        segments := SegmentHolder.new config d.segments
        accessCounters := ∅ }

/-- When the files open. -/
lemma openFiles_eq_ok_iff {config : StoreConfig} {d : Disk} {e : Engine} :
    openFiles config d = .ok e ↔ ∃ vs w,
      VectorStore.open d.vectors config.dimension config.initialCapacity = .ok vs ∧
      Wal.open d.wal = .ok w ∧ e = ⟨config, MetadataStore.open d.redb, vs, w, ∅, {}, {}, ∅, {},
        SegmentHolder.new config d.segments, ∅⟩ := by
  cases hvs : VectorStore.open d.vectors config.dimension config.initialCapacity <;>
    cases hw : Wal.open d.wal <;> simp [openFiles, hvs, hw, bind, Except.bind, eq_comm]

end Engine

/-! ## Replay -/

/-- The state of the replay loop. -/
structure Replay where
  metadata : MetadataStore
  vectors : VectorStore
  maxSeq : ℕ
  maxOffset : PointOffset
  replayed : Bool

namespace Replay

/-- An operation with a sequence number was met. -/
def seen (s : Replay) (offset : PointOffset) (seq : ℕ) : Replay :=
  { s with maxOffset := max s.maxOffset offset, maxSeq := max s.maxSeq seq, replayed := true }

end Replay

/-- Replay one operation. Inserts and replaces that the snapshot has are skipped, and so are those
without a vector in the file. A replace removes the old version only if the new one is there. -/
def replayOp (lastApplied : ℕ) (s : Replay) : WalOp → Replay
  | .insert offset seq record crc =>
    if lastApplied < seq then
      (match s.vectors.recover offset crc with
      | some (vector, vectors) =>
        { s with
          vectors := vectors
          metadata := s.metadata.put offset (record.withEmbedding vector) }
      | none => s).seen offset seq
    else s
  | .replace oldOffset offset seq record crc =>
    if lastApplied < seq then
      (match s.vectors.recover offset (some crc) with
      | some (vector, vectors) =>
        { s with
          vectors := vectors
          metadata := (s.metadata.remove oldOffset).put offset (record.withEmbedding vector) }
      | none => s).seen offset seq
    else s
  | .delete offset => { s with metadata := s.metadata.remove offset, replayed := true }
  | .flush _ => s

namespace Engine

variable (E : Env) (e : Engine)

/-- The last sequence number of the snapshot. -/
def lastApplied : ℕ := e.metadata.db.lastAppliedSeq.getD 0

/-- Run the replay loop over the log. -/
def replay : Replay :=
  (e.wal.readAll E.codec).1.foldl (replayOp e.lastApplied)
    ⟨e.metadata, e.vectors, e.lastApplied, 0, false⟩

/-- Whether the recovered state has to become the new snapshot. -/
def mustPersist : Bool := (e.replay E).replayed || e.wal.needsUpgrade

/-- The store after the replay loop. -/
def replayedEngine : Engine :=
  let s := e.replay E
  { e with
    vectors := s.vectors
    metadata := if e.mustPersist E then
      (s.metadata.advanceOffsetPast s.maxOffset).advanceSeqPast s.maxSeq else s.metadata }

/-- Cut a bad tail off the log. -/
def cutPlan : List Action :=
  if 0 < (e.wal.readAll E.codec).2.2 then [.truncateWal (e.wal.readAll E.codec).2.1] else []

/-- Persist the recovered snapshot and discard the now redundant log. -/
def persistPlan (maxSeq : ℕ) : List Action :=
  [.flushVectors, .flushMetadata maxSeq, .syncWal, .clearWal]

/-- The steps that follow the replay. -/
def recoverPlan : List Action :=
  e.cutPlan E ++ if e.mustPersist E then persistPlan (e.replay E).maxSeq else []

/-- Refuse to open when vectors were flushed but there is neither metadata nor a log to rebuild it
from, or when a live record lies beyond the vector file. -/
def guards (fresh replayed : Bool) (vectorsAtOpen : ℕ) (e : Engine) : Except StorageError Unit :=
  if fresh ∧ !replayed ∧ 0 < vectorsAtOpen then
    .error (.corrupted (s!"vectors.bin holds {vectorsAtOpen} vectors but memory.redb has no " ++
      "records:                  the metadata file is missing or was replaced " ++
      "(restore it from a backup)"))
  else
    match e.metadata.maxLiveOffset with
    | none => .ok ()
    | some maxLive =>
      if e.vectors.count ≤ maxLive then
        let count := e.vectors.count
        .error (.corrupted
          (s!"metadata holds a record at offset {maxLive} but vectors.bin only has " ++
            s!"{count} vectors: the vector file is missing or truncated (restore it from a " ++
            "backup; the record texts are intact in memory.redb)"))
      else .ok ()

/-! ## Rebuilding the indexes -/

/-- The order records were created in. -/
def createdLe (a b : PointOffset × MetaRecord) : Bool :=
  a.2.createdAt < b.2.createdAt ||
    (a.2.createdAt == b.2.createdAt && a.2.insertSeq ≤ b.2.insertSeq)

/-- The records that have their vector, in order of creation. -/
def recordsVec : List (PointOffset × Record) :=
  ((E.iterate e.metadata.records).insertionSort (createdLe · ·)).filterMap fun p =>
    (e.vectors.get p.1).map fun v => (p.1, p.2.withEmbedding v)

end Engine

/-- A graph of the records, from nothing. -/
def buildGraph (E : Env) (records : List (PointOffset × Record)) : SpreadingActivation :=
  .new E.arith (records.foldl (fun g p =>
    g.addMemoryScoped E.arith p.2.id p.2.text p.2.concepts p.2.importance p.2.scope) {})

/-- The graph at open: the saved one, without memories whose record is gone and with the records it
lacks; or one built from the records if none can be read. -/
def rebuildGraph (E : Env) (records : List (PointOffset × Record)) (saved : Option (List UInt8)) :
    SpreadingActivation :=
  match saved.bind E.fromSnapshotBytes with
  | none => buildGraph E records
  | some graph =>
    let existing := graph.memoryIds
    let stale := existing.filter fun id => !records.any (·.2.id == id)
    let graph := stale.foldl MemoryGraph.removeMemory graph
    .new E.arith (records.foldl (fun g p =>
      if p.2.id ∈ existing ∧ p.2.id ∉ stale then g
      else g.addMemoryScoped E.arith p.2.id p.2.text p.2.concepts p.2.importance p.2.scope) graph)

/-- Segments over the records that no sealed segment has, the mutable one sealed whenever it is
full. -/
def SegmentHolder.fromRecords (config : StoreConfig) (sealed : List (List PointOffset)) :
    List (PointOffset × Record) → SegmentHolder → Except StorageError SegmentHolder
  | [], holder => .ok holder
  | p :: ps, holder =>
    if sealed.any (p.1 ∈ ·) then fromRecords config sealed ps holder
    else do
      let (full, holder) ← holder.insert config p.1 p.2
      fromRecords config sealed ps (if full then holder.sealHot config else holder)

namespace Engine

/-- Rebuild the indexes from the metadata records. -/
def rebuild (E : Env) (e : Engine) : Except StorageError Engine := do
  let recordsMeta := E.iterate e.metadata.records
  let segments ← SegmentHolder.fromRecords e.config e.segments.sealed (e.recordsVec E) e.segments
  .ok { e with
    payloadIndex := PayloadIndex.fromMetaRecordsIter E.parseValue recordsMeta
    scopeIndex := recordsMeta.foldl (fun index p => index.add p.1 p.2.scope) {}
    textIndex := recordsMeta.foldl (fun index p => index.insert p.1 p.2.text) ∅
    idIndex := (e.recordsVec E).foldl (fun index p => index.insert p.2.id p.1) ∅
    graph := rebuildGraph E (e.recordsVec E) e.metadata.db.graph
    segments := segments }

/-- Open a store. -/
def «open» (E : Env) (config : StoreConfig) (d : Disk) : Except StorageError Engine := do
  config.check
  let e ← openFiles config d
  match runAll (exec E Io.ok) (e.recoverPlan E) (e.replayedEngine E) with
  | (.error err, _) => .error err
  | (.ok _, recovered) =>
    guards e.metadata.isFresh (e.replay E).replayed e.vectors.count recovered
    recovered.rebuild E

end Engine

/-! ## Kills during an open -/

/-- The writes that create a vector file. -/
def createVectorsWrites (config : StoreConfig) : Option VectorFile → List Write
  | some _ => []
  | none =>
    match checkedLen (max config.initialCapacity 1024) config.dimension with
    | none => []
    | some len =>
      [.createVectors config.dimension, .vectors (.setLen len),
        .vectors (.stamp ⟨config.dimension, 0⟩)]

/-- The writes that give a log its header. -/
def createWalWrites : Option (List UInt8) → List Write
  | none => [.createWal, .walAppend (headerBytes walVersion)]
  | some content =>
    if content.length < walHeaderSize then
      [.walSetLen 0, .walAppend (headerBytes walVersion)] else []

/-- The writes of a plan. -/
def planWrites (E : Env) : List Action → Engine → List Write
  | [], _ => []
  | a :: plan, e => a.writes E e ++ planWrites E plan (e.exec E Io.ok a).2

/-- The file-level writes of an open. -/
def openWrites (E : Env) (config : StoreConfig) (d : Disk) : List Write :=
  match config.check, Engine.openFiles config d with
  | .ok _, .ok e =>
    createVectorsWrites config d.vectors ++ createWalWrites d.wal ++
      planWrites E (e.recoverPlan E) (e.replayedEngine E)
  | _, _ => []

/-- The disks that kills during one open after the other leave. -/
inductive Disk.Interrupted (E : Env) (config : StoreConfig) (d : Disk) : Disk → Prop
  | refl : Interrupted E config d d
  | step {d' d'' : Disk} : Interrupted E config d d' →
      d'.Images (openWrites E config d') d'' → Interrupted E config d d''

end TurboMemory
