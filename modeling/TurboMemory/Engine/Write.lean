import TurboMemory.Engine.State
import TurboMemory.Lib.CriticalSections

/-!
# The write path

Insert, batch insert, update, delete and flush. A write validates its whole input first. Its
commit section then runs under the write lock and the flush barrier: it checks the id, takes
offsets and sequence numbers, stores the vectors, appends to the log and updates the indexes.
`Io` says which system calls fail. `Entry` is a logged operation together with what the log only
has a checksum of: the vector. The log holds `Entry.toOp`.
-/

set_option autoImplicit false

namespace TurboMemory

open CriticalSections

/-! ## Validation -/

/-- One record's caller input. -/
structure WriteInput where
  id : String
  text : String
  embedding : Embedding
  importance : F32
  concepts : List String
  payload : Option String
  scope : Option String
  sourceRole : Option String
deriving DecidableEq

/-- A validated record that only lacks its offset and sequence number. -/
structure PreparedRecord where
  id : String
  text : String
  embedding : Embedding
  importance : F32
  concepts : List String
  payload : Option String
  scope : Option String
  sourceRole : Option String
deriving DecidableEq

/-- The record, with its creation time and sequence number. -/
def PreparedRecord.intoRecord (p : PreparedRecord) (now seq : ℕ) : Record where
  id := p.id
  text := p.text
  embedding := p.embedding
  importance := p.importance
  concepts := p.concepts
  createdAt := now
  insertSeq := seq
  accessCount := 0
  lastAccessed := 0
  tier := .hot
  payload := p.payload
  scope := p.scope
  sourceRole := p.sourceRole

/-- The payload passes the check at validation: it is some JSON value. -/
def checkPayload (E : Env) : Option String → Except StorageError Unit
  | none => .ok ()
  | some payload =>
    match E.ignoredAny payload with
    | .ok _ => .ok ()
    | .error e => .error (.invalidArgument s!"invalid payload JSON: {e}")

/-- Check everything about a record that can be wrong before any state is touched. Returns it with a
normalized embedding and merged concepts. -/
def prepare (E : Env) (config : StoreConfig) (vocab : ConceptVocabulary) (input : WriteInput) :
    Except StorageError PreparedRecord :=
  if input.id = "" then .error (.invalidArgument "id must not be empty")
  else do
    validateDimension .core input.embedding config.dimension
    if !input.importance.isFinite then
      .error (.invalidArgument "importance_score must be finite")
    else do
      checkPayload E input.payload
      let embedding ← (normalize E.float input.embedding).mapError .core
      .ok { id := input.id
            text := input.text
            embedding := embedding
            importance := input.importance
            concepts := E.mergeConcepts vocab input.concepts input.text
            payload := input.payload
            scope := input.scope
            sourceRole := input.sourceRole }

/-- Validate every record of a batch, including repeats of an id, which are then skipped. -/
def prepareBatch (E : Env) (config : StoreConfig) (vocab : ConceptVocabulary) :
    List WriteInput → List String → Except StorageError (List PreparedRecord)
  | [], _ => .ok []
  | input :: inputs, seen => do
    let record ← prepare E config vocab input
    if input.id ∈ seen then prepareBatch E config vocab inputs seen
    else do
      let records ← prepareBatch E config vocab inputs (input.id :: seen)
      .ok (record :: records)

/-- The arrays of a batch insert. -/
structure BatchInput where
  ids : List String
  texts : List String
  embeddings : List Embedding
  importances : List F32
  concepts : List (List String)
  payloads : List (Option String)
  scopes : List (Option String)
  sourceRoles : List (Option String)
deriving DecidableEq

namespace BatchInput

/-- The arrays have one entry per id; the last three may be empty instead. -/
def lengthsOk (b : BatchInput) : Bool :=
  let n := b.ids.length
  b.texts.length == n && b.embeddings.length == n && b.importances.length == n &&
    b.concepts.length == n && (b.payloads.isEmpty || b.payloads.length == n) &&
    (b.scopes.isEmpty || b.scopes.length == n) &&
    (b.sourceRoles.isEmpty || b.sourceRoles.length == n)

/-- The record at an index. -/
def input (b : BatchInput) (i : ℕ) : WriteInput where
  id := b.ids.getD i ""
  text := b.texts.getD i ""
  embedding := b.embeddings.getD i []
  importance := b.importances.getD i F32.zero
  concepts := b.concepts.getD i []
  payload := b.payloads[i]?.join
  scope := b.scopes[i]?.join
  sourceRole := b.sourceRoles[i]?.join

/-- The records, in order. -/
def inputs (b : BatchInput) : List WriteInput := (List.range b.ids.length).map b.input

end BatchInput

/-- Take an offset and a sequence number for every record; `clock` gives the time each is
created at. -/
def allocateAll (clock : ℕ → ℕ) : ℕ → List PreparedRecord → MetadataStore →
    List (PointOffset × Record) × MetadataStore
  | _, [], m => ([], m)
  | i, p :: ps, m =>
    let (offset, m) := m.allocateOffset
    let (seq, m) := m.allocateSeq
    let (records, m) := allocateAll clock (i + 1) ps m
    ((offset, p.intoRecord (clock i) seq) :: records, m)

/-! ## Steps -/

/-- A logged operation, with the record whose vector the log only has a checksum of. -/
inductive Entry
  | insert (offset : PointOffset) (record : Record)
  | replace (oldOffset offset : PointOffset) (record : Record)
  | delete (offset : PointOffset) (id : String)
deriving DecidableEq

/-- What the log holds of it. -/
def Entry.toOp : Entry → WalOp
  | .insert offset record =>
    .insert offset record.insertSeq (MetaRecord.ofRecord record)
      (some (vectorCrc record.embedding))
  | .replace oldOffset offset record =>
    .replace oldOffset offset record.insertSeq (MetaRecord.ofRecord record)
      (vectorCrc record.embedding)
  | .delete offset _ => .delete offset

/-- How the system calls of a request end. -/
structure Io where
  grow : PointOffset → GrowIo := fun _ => {}
  vectorSync : Bool := true
  append : AppendIo := {}
  walSync : Bool := true
  /-- Adding to the text index. -/
  textAdd : Bool := true

/-- No system call fails. -/
def Io.ok : Io := {}

/-- The steps of the commit sections, of a flush and of a recovery. -/
inductive Action
  | put (offset : PointOffset) (vector : Embedding)
  | syncVectors
  | log (entries : List Entry)
  | removeFromIndexes (id : String) (offset : PointOffset)
  | applyBatch (records : List (PointOffset × Record))
  | processSeals
  | drainCounters
  | syncWal
  | flushVectors
  | flushMetadata (lastAppliedSeq : ℕ)
  | saveGraph
  | truncateWal (validEnd : ℕ)
  | clearWal

namespace SegmentHolder

/-- Insert records into the mutable segment, and seal it if it got full. -/
def insertAll (config : StoreConfig) : List (PointOffset × Record) → Bool → SegmentHolder →
    Except StorageError Unit × SegmentHolder
  | [], needsSeal, holder => (.ok (), if needsSeal then holder.sealHot config else holder)
  | p :: ps, needsSeal, holder =>
    match holder.insert config p.1 p.2 with
    | .error e => (.error e, holder)
    | .ok (full, holder) => insertAll config ps (needsSeal || full) holder

/-- All offsets are in some segment afterwards, and those that were still are. -/
lemma owns_insertAll {config : StoreConfig} {records : List (PointOffset × Record)}
    {needsSeal : Bool} {holder holder' : SegmentHolder}
    (h : insertAll config records needsSeal holder = (.ok (), holder')) :
    (∀ p ∈ records, holder'.Owns p.1) ∧ ∀ o, holder.Owns o → holder'.Owns o := by
  induction records generalizing needsSeal holder with
  | nil =>
    obtain rfl := (Prod.mk.inj h).2
    refine ⟨fun p hp => absurd hp List.not_mem_nil, fun o ho => ?_⟩
    split
    · exact ho.sealHot config
    · exact ho
  | cons p records ih =>
    rw [insertAll] at h
    split at h
    · cases h
    · next full holder₁ hinsert =>
      obtain ⟨hnew, hkept⟩ := owns_insert hinsert
      obtain ⟨hall, hrest⟩ := ih h
      refine ⟨?_, fun o ho => hrest o (hkept o ho)⟩
      intro q hq
      rcases List.mem_cons.mp hq with rfl | hq
      · exact hrest _ hnew
      · exact hall q hq

end SegmentHolder

namespace Engine

/-- Drop a record from metadata, id index and graph. -/
def forget (e : Engine) (id : String) (offset : PointOffset) : Engine :=
  { e with
    metadata := e.metadata.remove offset
    idIndex := e.idIndex.erase id
    graph := e.graph.removeMemory id }

/-- Drop a record from every in-memory index and from the graph: from payload, scope and text index
first, while the old values are known. -/
def removeFromIndexes (E : Env) (e : Engine) (id : String) (offset : PointOffset) : Engine :=
  match e.metadata.get offset with
  | none => e.forget id offset
  | some record =>
    { e with
      payloadIndex := e.payloadIndex.remove E.parseValue offset record.payload
      scopeIndex := e.scopeIndex.remove offset record.scope
      textIndex := e.textIndex.erase offset : Engine }.forget id offset

/-- Enter a record into id, payload and scope index. A payload that does not parse stops here, after
the id. -/
def indexRecord (E : Env) (p : PointOffset × Record) (e : Engine) :
    Except StorageError Unit × Engine :=
  let e := { e with idIndex := e.idIndex.insert p.2.id p.1 }
  match e.payloadIndex.add E.parseValue p.1 p.2.payload with
  | (.error err, payloadIndex) => (.error err, { e with payloadIndex := payloadIndex })
  | (.ok _, payloadIndex) =>
    (.ok (), { e with
      payloadIndex := payloadIndex, scopeIndex := e.scopeIndex.add p.1 p.2.scope })

/-- Enter a record into the graph. -/
def addToGraph (E : Env) (graph : SpreadingActivation) (p : PointOffset × Record) :
    SpreadingActivation :=
  graph.addMemoryScoped E.arith p.2.id p.2.text p.2.concepts p.2.importance p.2.scope

/-- Apply a batch of logged records: metadata cache, then the indexes, the graph and the mutable
segment. -/
def applyBatch (E : Env) (io : Io) (e : Engine) (records : List (PointOffset × Record)) :
    Except StorageError Unit × Engine :=
  let e := { e with metadata := e.metadata.putBatch records }
  match runAll (indexRecord E) records e with
  | (.error err, e) => (.error err, e)
  | (.ok _, e) =>
    if !io.textAdd then (.error (.indexError "tantivy add"), e)
    else
      let e := { e with
        textIndex := records.foldl
          (fun index (p : PointOffset × Record) => index.insert p.1 p.2.text) e.textIndex
        graph := records.foldl (addToGraph E) e.graph }
      match e.segments.insertAll e.config records false with
      | (r, segments) => (r, { e with segments := segments })

/-- Add the accesses since the last drain to the records. -/
def drainInto (counters : List (PointOffset × ℕ × ℕ)) (m : MetadataStore) : MetadataStore :=
  counters.foldl (fun m c =>
    if c.2.1 = 0 then m
    else match m.get c.1 with
      | none => m
      | some record => m.putMeta c.1 { record with
          accessCount := record.accessCount + c.2.1
          lastAccessed := max record.lastAccessed c.2.2 }) m

/-- What every update of a record's access counts keeps, a drain keeps. -/
lemma drainInto_induction {P : MetadataStore → Prop} (counters : List (PointOffset × ℕ × ℕ))
    {m : MetadataStore} (h : P m)
    (hput : ∀ m o record n t, m.get o = some record → P m → P (m.putMeta o { record with
      accessCount := record.accessCount + n, lastAccessed := max record.lastAccessed t })) :
    P (drainInto counters m) := by
  refine Loop.foldl_induction counters h fun c _ m hm => ?_
  split
  · exact hm
  · split
    · exact hm
    · next hget => exact hput _ _ _ _ _ hget hm

/-- Draining the access counters changes records only. -/
lemma drainInto_files (counters : List (PointOffset × ℕ × ℕ)) (m : MetadataStore) :
    (drainInto counters m).db = m.db ∧ (drainInto counters m).nextOffset = m.nextOffset ∧
    (drainInto counters m).nextSeq = m.nextSeq :=
  drainInto_induction (P := fun m' => m'.db = m.db ∧ m'.nextOffset = m.nextOffset ∧
    m'.nextSeq = m.nextSeq) counters ⟨rfl, rfl, rfl⟩ fun _ _ _ _ _ _ h => h

/-- Execute one step. -/
def exec (E : Env) (io : Io) : Action → Engine → Except StorageError Unit × Engine
  | .put offset vector, e =>
    match e.vectors.put (io.grow offset) offset vector with
    | (r, vectors) => (r, { e with vectors := vectors })
  | .syncVectors, e =>
    (if e.config.syncWrites then e.vectors.syncRange io.vectorSync else .ok (), e)
  | .log entries, e =>
    match e.wal.appendBatch E.codec io.append (entries.map Entry.toOp) with
    | (.error err, wal) => (.error err, { e with wal := wal })
    | (.ok _, wal) =>
      (if e.config.syncWrites && !io.walSync then .error (.io "sync failed") else .ok (),
        { e with wal := wal })
  | .removeFromIndexes id offset, e => (.ok (), e.removeFromIndexes E id offset)
  | .applyBatch records, e => e.applyBatch E io records
  | .processSeals, e => (.ok (), { e with segments := e.segments.processSeals })
  | .drainCounters, e =>
    (.ok (), { e with
      metadata := drainInto e.accessCounters.toList e.metadata, accessCounters := ∅ })
  | .syncWal, e => (.ok (), e)
  | .flushVectors, e =>
    match e.vectors.flush with
    | (r, vectors) => (r, { e with vectors := vectors })
  | .flushMetadata lastAppliedSeq, e =>
    (.ok (), { e with metadata := e.metadata.flush lastAppliedSeq })
  | .saveGraph, e =>
    (.ok (), { e with metadata := e.metadata.saveGraph (E.toSnapshotBytes e.graph.graph) })
  | .truncateWal validEnd, e => (.ok (), { e with wal := e.wal.truncateTo validEnd })
  | .clearWal, e => (.ok (), { e with wal := e.wal.clear })

end Engine

/-- The file-level writes of a step, in order, when no system call fails. -/
def Action.writes (E : Env) (e : Engine) : Action → List Write
  | .put offset vector =>
    match (e.vectors.put {} offset vector).1 with
    | .ok _ => (e.vectors.putWrites offset vector).map .vectors
    | .error _ => []
  | .log entries =>
    match (entries.map Entry.toOp).foldlM (Wal.writeOpToBuffer E.codec) [] with
    | .ok buf => [.walAppend buf]
    | .error _ => []
  | .processSeals => [.segments e.segments.processSeals.sealed]
  | .flushVectors => [.vectors (.stamp ⟨e.vectors.dim, e.vectors.count⟩)]
  | .flushMetadata lastAppliedSeq => [.commit (e.metadata.flush lastAppliedSeq).db]
  | .saveGraph => [.commit (e.metadata.saveGraph (E.toSnapshotBytes e.graph.graph)).db]
  | .truncateWal validEnd => [.walSetLen (max validEnd walHeaderSize)]
  | .clearWal => [.walSetLen 0, .walAppend (headerBytes walVersion)]
  | _ => []

/-! ## Requests -/

/-- A call into the store. The clock is read once for every record written. -/
inductive Request
  | insert (now : ℕ) (input : WriteInput)
  | insertBatch (clock : ℕ → ℕ) (batch : BatchInput)
  | update (now : ℕ) (input : WriteInput)
  | deleteById (id : String)
  | flush

/-- What a call returns. -/
inductive Reply
  | bool (b : Bool)
  | count (n : ℕ)
  | unit
deriving DecidableEq

/-- What a request does once it has its locks: return at once, or take its steps. -/
inductive Begin
  | done (reply : Except StorageError Reply)
  | run (e : Engine) (plan : List Action) (reply : Reply)

/-- Store the vectors, log the records and apply them. -/
def writePlan (records : List (PointOffset × Record)) (entries : List Entry)
    (removed : List Action) : List Action :=
  records.map (fun p => .put p.1 p.2.embedding) ++ [.syncVectors, .log entries] ++ removed ++
    [.applyBatch records]

/-- Log entries of inserted records. -/
def insertEntries (records : List (PointOffset × Record)) : List Entry :=
  records.map fun p => .insert p.1 p.2

namespace Engine

variable (E : Env) (vocab : ConceptVocabulary) (e : Engine) (id : String)

/-- Insert a record under a new id. -/
def insert (now : ℕ) (input : WriteInput) : Begin :=
  match prepare E e.config vocab input with
  | .error err => .done (.error err)
  | .ok prepared =>
    if input.id ∈ e.idIndex then .done (.error (.duplicateId input.id))
    else
      let (records, metadata) := allocateAll (fun _ => now) 0 [prepared] e.metadata
      .run { e with metadata := metadata } (writePlan records (insertEntries records) [])
        (.bool true)

/-- Insert a batch of records; ids that exist already are skipped. -/
def insertBatch (clock : ℕ → ℕ) (batch : BatchInput) : Begin :=
  if batch.ids = [] then .done (.ok (.count 0))
  else if !batch.lengthsOk then
    .done (.error (.invalidArgument "batch arrays have mismatched lengths"))
  else
    match prepareBatch E e.config vocab batch.inputs [] with
    | .error err => .done (.error err)
    | .ok prepared =>
      let prepared := prepared.filter (·.id ∉ e.idIndex)
      if prepared = [] then .done (.ok (.count 0))
      else
        let (records, metadata) := allocateAll clock 0 prepared e.metadata
        .run { e with metadata := metadata } (writePlan records (insertEntries records) [])
          (.count records.length)

/-- Delete the record of an id, if its offset is the right one. -/
def deleteWhere (isMatch : PointOffset → Bool) : Begin :=
  match e.idIndex[id]? with
  | none => .done (.ok (.bool false))
  | some offset =>
    if isMatch offset then
      .run e [.log [.delete offset id], .removeFromIndexes id offset] (.bool true)
    else .done (.ok (.bool false))

/-- Delete the record of an id. -/
def deleteById : Begin := e.deleteWhere id fun _ => true

/-- Delete the record of an id if it is still the one at the offset. -/
def deleteByIdAt (offset : PointOffset) : Begin :=
  e.deleteWhere id (· == offset)

/-- Replace the record of an id: the new version gets an offset of its own. -/
def update (now : ℕ) (input : WriteInput) : Begin :=
  if input.id ∉ e.idIndex then .done (.ok (.bool false))
  else
    match prepare E e.config vocab input with
    | .error err => .done (.error err)
    | .ok prepared =>
      match e.idIndex[input.id]? with
      | none => .done (.ok (.bool false))
      | some oldOffset =>
        let (records, metadata) := allocateAll (fun _ => now) 0 [prepared] e.metadata
        .run { e with metadata := metadata }
          (writePlan records (records.map fun p => .replace oldOffset p.1 p.2)
            [.removeFromIndexes input.id oldOffset])
          (.bool true)

/-- Write the snapshots and empty the log. -/
def flush : Begin :=
  .run e [.processSeals, .drainCounters, .syncWal, .flushVectors,
    .flushMetadata (e.metadata.nextSeq - 1), .saveGraph, .clearWal] .unit

/-- What a request decides. -/
def begin : Request → Begin
  | .insert now input => e.insert E vocab now input
  | .insertBatch clock batch => e.insertBatch E vocab clock batch
  | .update now input => e.update E vocab now input
  | .deleteById id => e.deleteById id
  | .flush => e.flush

/-- Carry out what a request has decided. -/
def perform (io : Io) (e : Engine) : Begin → Except StorageError Reply × Engine
  | .done reply => (reply, e)
  | .run e plan reply =>
    match runAll (exec E io) plan e with
    | (.ok _, e) => (.ok reply, e)
    | (.error err, e) => (.error err, e)

/-- A request without interference. -/
def call (io : Io) (e : Engine) (r : Request) : Except StorageError Reply × Engine :=
  e.perform E io (e.begin E e.graph.graph.vocab r)

/-- The record at an offset, with its embedding. -/
def getRecord (offset : PointOffset) : Option Record :=
  (e.metadata.get offset).bind fun m => (e.vectors.get offset).map m.withEmbedding

/-- Look up a live record by its id. -/
def findRecordById : Option Record :=
  e.idIndex[id]?.bind e.getRecord

end Engine

end TurboMemory
