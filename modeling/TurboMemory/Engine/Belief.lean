import TurboMemory.Engine.Open
import TurboMemory.Graph.Maintenance

/-!
# Belief revision

A newer memory can supersede an older one. A detection pass proposes such pairs; a commit enters
each of them as an edge of the graph, demotes the older memory, and lets a refinement inherit its
concepts. What a nearest-neighbour search returns enters through `Ann`: any list of ids, or an
error, for each search of a pass.
-/

set_option autoImplicit false

namespace TurboMemory

open CriticalSections

/-! ## Settings -/

/-- The settings of belief revision. -/
structure BeliefConfig where
  refinementCosineThreshold : Option F32
  refinementMaxPairsPerCycle : ℕ
  refinementTextThreshold : F32
  contradictionCosineThreshold : Option F32
  contradictionMaxPairsPerCycle : ℕ
  contradictionTextThreshold : F32
  contradictionRequireOpposition : Bool
  contradictionWeakenFactor : F32
  supersessionDemotionFactor : F32
  /-- The provenance roles that take part; all when absent. -/
  beliefSourceRoles : Option (List String)
  /-- Look only at records inserted since the last pass. -/
  incrementalSupersessionDetection : Bool

/-- Float arithmetic and text measures. -/
structure BeliefArith where
  learn : LearnArith
  cosineSimilarity : Embedding → Embedding → F32
  textJaccardSimilarity : String → String → F32
  hasOppositionMarker : String → Bool
  lt : F32 → F32 → Bool
  le : F32 → F32 → Bool
  mul : F32 → F32 → F32
  max : F32 → F32 → F32
  /-- The nearest float in the unit interval. -/
  clampUnit : F32 → F32

/-- The weight `0.8` of a supersession edge. -/
def supersessionWeight : F32 := ⟨0x3F4CCCCD⟩

/-- No supersession demotes a memory below `0.3`. -/
def supersessionDemotionFloor : F32 := ⟨0x3E99999A⟩

/-- The kinds of supersession. -/
inductive SupersessionKind
  | refinement
  | contradiction
deriving DecidableEq

/-- The edges of a kind of supersession. -/
def SupersessionKind.edge : SupersessionKind → EdgeKind
  | .refinement => .refines
  | .contradiction => .contradicts

/-- A detected pair. -/
structure ProposedSupersession where
  oldId : String
  newId : String
  oldOffset : PointOffset
  newOffset : PointOffset
  kind : SupersessionKind
  cosine : F32
deriving DecidableEq

/-- Whether a role takes part. -/
def roleAllowed (role : Option String) : Option (List String) → Bool
  | none => true
  | some list =>
    match role with
    | some r => r ∈ list
    | none => false

/-! ## Demotion factors -/

/-- The factors in memory, the offsets where they changed since the last flush, and the saved
ones. -/
structure DemotionTable where
  factors : Std.ExtTreeMap PointOffset F32 := ∅
  dirty : List PointOffset := []
  saved : Std.ExtTreeMap PointOffset F32 := ∅

namespace DemotionTable

/-- The saved factors. -/
def «open» (saved : Std.ExtTreeMap PointOffset F32) : DemotionTable := ⟨saved, [], saved⟩

variable (t : DemotionTable)

/-- The factor of a record; a record that was never superseded has `1.0`. -/
def demotionFactor (offset : PointOffset) : F32 :=
  t.factors[offset]?.getD F32.one

/-- Set the factor of a record; `1.0` removes it. -/
def setDemotionFactor (B : BeliefArith) (t : DemotionTable) (offset : PointOffset) (factor : F32) :
    DemotionTable :=
  let factor := B.clampUnit factor
  if B.le F32.one factor then
    if offset ∈ t.factors then
      { t with factors := t.factors.erase offset, dirty := t.dirty.insert offset } else t
  else
    let unchanged := t.factors[offset]?.any fun old => B.le old factor && B.le factor old
    { t with
      factors := t.factors.insert offset factor
      dirty := if unchanged then t.dirty else t.dirty.insert offset }

/-- The record at an offset is removed. -/
def remove (offset : PointOffset) : DemotionTable :=
  if offset ∈ t.factors then
    { t with factors := t.factors.erase offset, dirty := t.dirty.insert offset } else t

/-- Save the factors that changed. -/
def flush : DemotionTable :=
  { t with
    dirty := []
    saved := LazyTable.save id ⟨t.factors, t.dirty, t.saved⟩ }

/-- One logged operation at open, with the replay loop before it: a removed record takes its factor
along. -/
def replayOp (lastApplied : ℕ) (s : Replay) (t : DemotionTable) : WalOp → DemotionTable
  | .replace oldOffset offset seq _ crc =>
    if lastApplied < seq ∧ (s.vectors.recover offset (some crc)).isSome then t.remove oldOffset
    else t
  | .delete offset => t.remove offset
  | _ => t

/-- The factors after the replay loop. -/
def replay (E : Env) (e : Engine) (t : DemotionTable) : DemotionTable :=
  ((e.wal.readAll E.codec).1.foldl
    (fun acc op => (TurboMemory.replayOp e.lastApplied acc.1 op,
      acc.2.replayOp e.lastApplied acc.1 op))
    ((⟨e.metadata, e.vectors, e.lastApplied, 0, false⟩ : Replay), t)).2

/-- The factors of an opened store: the saved ones, less those of records that the replay removes.
-/
def atOpen (E : Env) (config : StoreConfig) (d : Disk) (saved : Std.ExtTreeMap PointOffset F32) :
    DemotionTable :=
  match Engine.openFiles config d with
  | .error _ => .open saved
  | .ok e =>
    let t := (DemotionTable.open saved).replay E e
    if e.mustPersist E then t.flush else t

/-- What a step of the store does to the factors. -/
def after : Action → DemotionTable
  | .removeFromIndexes _ offset => t.remove offset
  | .flushMetadata _ => t.flush
  | _ => t

end DemotionTable

/-! ## The store with its belief tables -/

/-- An open store, its demotion factors, and the sequence number from which the next incremental
pass looks. -/
structure BeliefEngine where
  engine : Engine
  demotion : DemotionTable
  watermark : ℕ

/-- Replace the graph. -/
def Engine.setGraph (e : Engine) (g : MemoryGraph) : Engine :=
  { e with graph := { e.graph with graph := g } }

namespace BeliefEngine

variable (E : Env) (B : BeliefArith) (e : Engine) (C : BeliefConfig)

/-- Execute a step of the store. -/
def exec (io : Io) (a : Action) (s : BeliefEngine) : Except StorageError Unit × BeliefEngine :=
  let r := s.engine.exec E io a
  (r.1, { s with engine := r.2, demotion := s.demotion.after a })

/-- A request without interference. -/
def call (io : Io) (s : BeliefEngine) (r : Request) : Except StorageError Reply × BeliefEngine :=
  match s.engine.begin E s.engine.graph.graph.vocab r with
  | .done reply => (reply, s)
  | .run e plan reply =>
    match runAll (exec E io) plan { s with engine := e } with
    | (.ok _, s) => (.ok reply, s)
    | (.error err, s) => (.error err, s)

/-- Open a store whose saved factors are these. -/
def «open» (config : StoreConfig) (d : Disk) (saved : Std.ExtTreeMap PointOffset F32) :
    Except StorageError BeliefEngine :=
  (Engine.open E config d).map fun e => ⟨e, .atOpen E config d saved, e.metadata.nextSeq⟩

/-- Bring recent access counts into the records. -/
def drain (s : BeliefEngine) : BeliefEngine :=
  { s with engine := { s.engine with
      metadata := Engine.drainInto s.engine.accessCounters.toList s.engine.metadata
      accessCounters := ∅ } }

/-! ## Detection -/

/-- The results of the searches of a pass: for a candidate, towards older or newer memories, of a
vector within a scope. -/
abbrev Ann :=
  (cand : PointOffset) → (newer : Bool) → Embedding → Option String →
    Except StorageError (List String)

variable (ann : Ann) (s : BeliefEngine)

/-- Whether a neighbour can be the other side of a pair. -/
def supersedingNeighbor (embedding : Embedding)
    (concepts : List String) (scope : Option String) (exclude : String) (pivotSeq : ℕ)
    (newer : Bool) (floor : F32) (roles : Option (List String)) (nid : String) : Bool :=
  nid ≠ exclude &&
    match e.idIndex[nid]? with
    | none => false
    | some off =>
      match e.metadata.get off with
      | none => false
      | some record =>
        (if newer then pivotSeq < record.insertSeq else record.insertSeq < pivotSeq) &&
          record.scope = scope && roleAllowed record.sourceRole roles &&
          concepts.any (· ∈ record.concepts) &&
          match e.vectors.get off with
          | none => false
          | some ov => !B.lt (B.cosineSimilarity embedding ov) floor

/-- The nearest neighbour that can be the other side of a pair. -/
def nearestSupersedingNeighbor
    (search : Embedding → Option String → Except StorageError (List String))
    (embedding : Embedding) (concepts : List String) (scope : Option String) (exclude : String)
    (pivotSeq : ℕ) (newer : Bool) (floor : F32) (roles : Option (List String)) :
    Except StorageError (Option String) :=
  (search embedding scope).map fun neighbors => neighbors.find?
    (supersedingNeighbor B e embedding concepts scope exclude pivotSeq newer floor roles)

/-- A kind of detection: its thresholds, and the test on the texts of the newer and the older
record. -/
structure Detection where
  kind : SupersessionKind
  threshold : F32
  maxPairs : ℕ
  gate : MetaRecord → MetaRecord → Bool

/-- The live records, the newest first. -/
def candidates : List (PointOffset × MetaRecord) :=
  (E.iterate e.metadata.records).insertionSort fun a b => b.2.insertSeq ≤ a.2.insertSeq

/-- The pair in which a record supersedes its nearest older neighbour, if it is in turn the
nearest newer one of that. -/
def proposeOne (roles : Option (List String)) (e : Engine) (ann : Ann)
    (D : Detection) (cand : PointOffset × MetaRecord) :
    Except StorageError (Option ProposedSupersession) :=
  if roleAllowed cand.2.sourceRole roles then
    match e.vectors.get cand.1 with
    | none => .ok none
    | some embedding => do
      let forward ← nearestSupersedingNeighbor B e (ann cand.1 false) embedding cand.2.concepts
        cand.2.scope cand.2.id cand.2.insertSeq false D.threshold roles
      match forward.bind fun otherId => (candidates E e).find? (·.2.id = otherId) with
      | none => .ok none
      | some other =>
        if D.gate cand.2 other.2 then
          match e.vectors.get other.1 with
          | none => .ok none
          | some otherEmb => do
            let back ← nearestSupersedingNeighbor B e (ann cand.1 true) otherEmb other.2.concepts
              other.2.scope other.2.id other.2.insertSeq true D.threshold roles
            if back = some cand.2.id then
              .ok (some ⟨other.2.id, cand.2.id, other.1, cand.1, D.kind,
                B.cosineSimilarity embedding otherEmb⟩)
            else .ok none
        else .ok none
  else .ok none

/-- Go through the records until enough pairs were found or the watermark is reached. -/
def proposeLoop (E : Env) (B : BeliefArith) (roles : Option (List String)) (e : Engine) (ann : Ann)
    (D : Detection) (watermark : ℕ) :
    List (PointOffset × MetaRecord) → List ProposedSupersession →
      Except StorageError (List ProposedSupersession)
  | [], proposed => .ok proposed
  | cand :: cands, proposed =>
    if D.maxPairs ≤ proposed.length ∨ cand.2.insertSeq < watermark then .ok proposed
    else do
      let found ← proposeOne E B roles e ann D cand
      proposeLoop E B roles e ann D watermark cands (proposed ++ found.toList)

/-- A detection pass. -/
def propose (D : Detection)
    (s : BeliefEngine) : Except StorageError (List ProposedSupersession) × BeliefEngine :=
  let watermark := if C.incrementalSupersessionDetection then s.watermark else 0
  let s := s.drain
  (proposeLoop E B C.beliefSourceRoles s.engine ann D watermark (candidates E s.engine) [], s)

/-- A detection is on if its threshold is set and its limit is not `0`. -/
def Detection.when (threshold : Option F32) (maxPairs : ℕ) (kind : SupersessionKind)
    (gate : MetaRecord → MetaRecord → Bool) : Option Detection :=
  match threshold with
  | none => none
  | some threshold => if maxPairs = 0 then none else some ⟨kind, threshold, maxPairs, gate⟩

/-- The detection of refinements. -/
def refining : Option Detection :=
  Detection.when C.refinementCosineThreshold C.refinementMaxPairsPerCycle .refinement
    fun cand other => !B.lt (B.textJaccardSimilarity cand.text other.text) C.refinementTextThreshold

/-- The detection of contradictions. -/
def contradicting : Option Detection :=
  Detection.when C.contradictionCosineThreshold C.contradictionMaxPairsPerCycle .contradiction
    fun cand other =>
      !B.le C.contradictionTextThreshold (B.textJaccardSimilarity cand.text other.text) &&
        !(C.contradictionRequireOpposition && !B.hasOppositionMarker cand.text)

/-- The pass of a detection; one that is off proposes nothing. -/
def detect (D : Option Detection) (s : BeliefEngine) :
    Except StorageError (List ProposedSupersession) × BeliefEngine :=
  match D with
  | none => (.ok [], s)
  | some D => propose E B C ann D s

/-- Detect newer memories that state older ones again. -/
def proposeRefinements : Except StorageError (List ProposedSupersession) × BeliefEngine :=
  detect E B C ann (refining B C) s

/-- Detect newer memories that oppose older ones. -/
def proposeContradictions : Except StorageError (List ProposedSupersession) × BeliefEngine :=
  detect E B C ann (contradicting B C) s

/-! ## Commit -/

/-- Let the newer record have the concepts of the older one, in the metadata and in the graph. -/
def transferUniqueConcepts (oldOffset newOffset : PointOffset) (newId : String) : Engine :=
  match e.metadata.get oldOffset, e.metadata.get newOffset with
  | some old, some new =>
    let unique := old.concepts.filter (· ∉ new.concepts)
    if unique = [] then e
    else
      let concepts := unique.foldl (fun all c => if c ∈ all then all else all ++ [c]) new.concepts
      match e.vectors.get newOffset with
      | none => e
      | some embedding =>
        let record := MetaRecord.withEmbedding { new with concepts := concepts } embedding
        let e := { e with metadata := e.metadata.put newOffset record }
        match e.findRecordById newId with
        | none => e
        | some r =>
          e.setGraph (e.graph.graph.addConceptsToMemory E.arith B.learn newId r.concepts
            r.importance).2
  | _, _ => e

/-- The edge of a pair. -/
def addSupersession (g : MemoryGraph) (p : ProposedSupersession) : Bool × MemoryGraph :=
  match p.kind with
  | .refinement => g.addRefinement p.oldId p.newId supersessionWeight
  | .contradiction => g.addContradiction p.oldId p.newId supersessionWeight
      fun w => B.mul w C.contradictionWeakenFactor

/-- Demote the older memory of a pair. -/
def demote (t : DemotionTable) (offset : PointOffset) : DemotionTable :=
  t.setDemotionFactor B offset (B.max
    (B.mul (t.demotionFactor offset) C.supersessionDemotionFactor) supersessionDemotionFloor)

/-- Commit a pair; nothing happens when its edge is there already. -/
def commitOne (acc : ℕ × BeliefEngine) (p : ProposedSupersession) : ℕ × BeliefEngine :=
  let s := acc.2
  let r := addSupersession B C s.engine.graph.graph p
  if r.1 then
    let e := s.engine.setGraph r.2
    (acc.1 + 1, { s with
      demotion := demote B C s.demotion p.oldOffset
      engine := if p.kind = .refinement then
        transferUniqueConcepts E B e p.oldOffset p.newOffset p.newId else e })
  else acc

/-- Commit pairs, and save the graph if any edge is new. -/
def commitSupersessions (proposed : List ProposedSupersession) : ℕ × BeliefEngine :=
  let r := proposed.foldl (commitOne E B C) (0, s)
  if 0 < r.1 then
    (r.1, { r.2 with engine := { r.2.engine with
      metadata := r.2.engine.metadata.saveGraph (E.toSnapshotBytes r.2.engine.graph.graph) } })
  else r

/-- The pair of two ids, if both are live, different and in the same scope. -/
def resolvePair (pair : String × String × SupersessionKind) : Option ProposedSupersession :=
  if pair.1 = pair.2.1 then none
  else do
    let oldOffset ← e.idIndex[pair.1]?
    let newOffset ← e.idIndex[pair.2.1]?
    let old ← e.metadata.get oldOffset
    let new ← e.metadata.get newOffset
    if old.scope = new.scope then
      some ⟨pair.1, pair.2.1, oldOffset, newOffset, pair.2.2, F32.zero⟩
    else none

/-- Commit pairs of ids. -/
def commitSupersessionsById
    (pairs : List (String × String × SupersessionKind)) : ℕ × BeliefEngine :=
  commitSupersessions E B C s (pairs.filterMap (resolvePair s.engine))

/-- Commit what a pass proposed. -/
def commitProposed (r : Except StorageError (List ProposedSupersession) × BeliefEngine) :
    Except StorageError ℕ × BeliefEngine :=
  match r with
  | (.error err, s) => (.error err, s)
  | (.ok proposed, s) =>
    let r := commitSupersessions E B C s proposed
    (.ok r.1, r.2)

/-- Detect refinements and commit them. -/
def checkRefinements : Except StorageError ℕ × BeliefEngine :=
  commitProposed E B C (proposeRefinements E B C ann s)

/-- Detect contradictions and commit them. -/
def checkContradictions : Except StorageError ℕ × BeliefEngine :=
  commitProposed E B C (proposeContradictions E B C ann s)

/-- The next incremental pass looks at records that are inserted from now on. -/
def advanceWatermark : BeliefEngine :=
  { s with watermark := s.engine.metadata.nextSeq }

end BeliefEngine

end TurboMemory
