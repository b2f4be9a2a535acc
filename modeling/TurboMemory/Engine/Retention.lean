import TurboMemory.Engine.Belief
import TurboMemory.Graph.Snapshot

/-!
# Bounded storage: eviction and deduplication

Eviction deletes the records below the score floor and then the lowest-scoring ones above the
record cap; with gists on, the texts of the victims are compressed into new records first.
Deduplication merges near-duplicates of one scope into the one of higher salience.

Scores and cosines are elements of linear orders, their arithmetic a parameter: the partial and
the total comparison of floats agree where no NaN occurs. The access histories are those the
metadata store returns once the access counters have been drained.
-/

set_option autoImplicit false

namespace TurboMemory

open CriticalSections

/-! ## Settings and scores -/

/-- The retention settings. `S` are the scores, `T` the cosines. -/
structure RetentionConfig (S T : Type) where
  maxRecords : Option ℕ
  evictScoreFloor : Option S
  recencyHalfLifeSecs : ℕ
  accessAwareEviction : Bool
  actrActivation : Bool
  actrDecay : S
  gistBeforeEvict : Bool
  gistChunkFacts : ℕ
  dedupCosineThreshold : Option T
  dedupMaxPairsPerCycle : ℕ

/-- The arithmetic of scores. -/
structure ScoreOps (S : Type) where
  zero : S
  negInfinity : S
  ofNat : ℕ → S
  mul : S → S → S
  /-- `2 ^ (-age / half_life)`. -/
  recency : ℕ → ℕ → S
  /-- `ln (Σ age ^ -decay)`. -/
  lnSum : List ℕ → S → S

/-- What a pass reads besides the store: settings, arithmetic, access histories and the clock. -/
structure Sweep (S T : Type) where
  tier : RetentionConfig S T
  ops : ScoreOps S
  histories : Std.ExtTreeMap PointOffset (List ℕ)
  now : ℕ

/-- Recency-weighted salience: `access_count * 2^(-age / half_life)`. -/
def accessScore {S : Type} (ops : ScoreOps S) (record : MetaRecord) (now halfLife : ℕ) : S :=
  let age := max (now - record.lastAccessed) 1
  ops.mul (ops.ofNat record.accessCount) (ops.recency age halfLife)

/-- ACT-R base-level activation over the access history. -/
def actrActivation {S : Type} (ops : ScoreOps S) (timestamps : List ℕ) (now : ℕ) (decay : S) : S :=
  if timestamps = [] then ops.negInfinity
  else ops.lnSum (timestamps.map fun ts => max (now - ts) 1) decay

/-- Order by ascending score, the older record first on a tie. -/
def lowestFirst {S : Type} [LinearOrder S] (a b : PointOffset × String × S) : Ordering :=
  (compare a.2.2 b.2.2).then (compare a.1 b.1)

namespace Sweep

variable {S T : Type} [LinearOrder S]

variable (w : Sweep S T)

/-- The half-life of accesses, at least a second. -/
def halfLife : ℕ := max w.tier.recencyHalfLifeSecs 1

/-- Accesses more recent than this protect a record. -/
def grace : ℕ := w.halfLife / 8

/-- The record is inside the grace window. -/
def isProtected (record : MetaRecord) : Bool :=
  w.tier.accessAwareEviction && w.now - record.lastAccessed < w.grace

/-- The score a record is evicted by: the lowest goes first. -/
def score (offset : PointOffset) (record : MetaRecord) : S :=
  if w.tier.accessAwareEviction then
    if w.tier.actrActivation then
      actrActivation w.ops (w.histories.getD offset []) w.now (max w.tier.actrDecay w.ops.zero)
    else accessScore w.ops record w.now w.halfLife
  else w.ops.ofNat record.insertSeq

/-- The records that can be evicted, with their scores. -/
def scored (entries : List (PointOffset × MetaRecord)) :
    List (PointOffset × String × S) :=
  (entries.filter fun p => !w.isProtected p.2).map fun p => (p.1, p.2.id, w.score p.1 p.2)

/-- Mark a victim, once. -/
def mark (victims : List (PointOffset × String)) (p : PointOffset × String × S) :
    List (PointOffset × String) :=
  if victims.any (·.1 == p.1) then victims else victims ++ [(p.1, p.2.1)]

/-- The floor pass: anything below the score floor is a victim. -/
def floorPass (floor : Option S) (scored : List (PointOffset × String × S)) :
    List (PointOffset × String) :=
  match floor with
  | none => []
  | some floor =>
    scored.foldl (fun victims p => if p.2.2 < floor then mark victims p else victims) []

/-- Mark the next `excess` records that are no victims yet. -/
def capLoop : ℕ → List (PointOffset × String × S) → List (PointOffset × String) →
    List (PointOffset × String)
  | 0, _, victims => victims
  | _ + 1, [], victims => victims
  | excess + 1, p :: ps, victims =>
    if victims.any (·.1 == p.1) then capLoop (excess + 1) ps victims
    else capLoop excess ps (mark victims p)

/-- The cap pass: if still over the cap, the lowest-scoring survivors are victims too. -/
def capPass (maxRecords : Option ℕ) (live : ℕ) (scored : List (PointOffset × String × S))
    (victims : List (PointOffset × String)) : List (PointOffset × String) :=
  match maxRecords with
  | none => victims
  | some maxRecords =>
    let excess := live - victims.length - maxRecords
    capLoop excess (sortBy lowestFirst (scored.filter fun p => !victims.any (·.1 == p.1))) victims

/-- The victims of an eviction among the records, of which there are `live`. -/
def victims (live : ℕ) (entries : List (PointOffset × MetaRecord)) :
    List (PointOffset × String) :=
  let scored := w.scored entries
  capPass w.tier.maxRecords live scored (floorPass w.tier.evictScoreFloor scored)

end Sweep

/-! ## Requests of a pass -/

namespace Engine

/-- Add the accesses since the last drain to the records. -/
def drain (e : Engine) : Engine :=
  { e with metadata := drainInto e.accessCounters.toList e.metadata, accessCounters := ∅ }

/-- Delete victims one after the other, and count those that were there. -/
def deleteVictims (E : Env) (io : PointOffset → Io) : List (PointOffset × String) → Engine →
    Except StorageError ℕ × Engine
  | [], e => (.ok 0, e)
  | (offset, id) :: victims, e =>
    match e.perform E (io offset) (e.deleteByIdAt id offset) with
    | (.error err, e) => (.error err, e)
    | (.ok reply, e) =>
      match deleteVictims E io victims e with
      | (.error err, e) => (.error err, e)
      | (.ok n, e) => (.ok (if reply = .bool true then n + 1 else n), e)

end Engine

/-! ## Gists -/

/-- A white space character. -/
def isWhiteSpace (c : Char) : Bool :=
  (9 ≤ c.toNat && c.toNat ≤ 13) || c.toNat == 32 || c.toNat == 0x85 || c.toNat == 0xA0 ||
    c.toNat == 0x1680 || (0x2000 ≤ c.toNat && c.toNat ≤ 0x200A) || c.toNat == 0x2028 ||
    c.toNat == 0x2029 || c.toNat == 0x202F || c.toNat == 0x205F || c.toNat == 0x3000

/-- A victim, as the compressor is told about it. -/
structure Victim where
  seq : ℕ
  offset : PointOffset
  text : String
deriving DecidableEq

/-- What a compressor answers: an error, that there is nothing to keep, or a gist with its
embedding. -/
abbrev GistAnswer := Except String (Option (String × Embedding))

/-- The compressor abstains: it returns nothing, or a blank gist. -/
def GistAnswer.abstains : GistAnswer → Bool
  | .error _ => false
  | .ok none => true
  | .ok (some (gist, _)) => gist.toList.all isWhiteSpace

/-- A compressor and what the gist step meets: the `n`-th call may be answered in any way, and the
`n`-th gist inserted at any time with any calls failing. -/
structure Gister where
  compress : ℕ → List String → GistAnswer
  now : ℕ
  created : ℕ → ℕ
  io : ℕ → Io

/-- A call of the compressor: the chunk it was given, its answer, and the result of inserting
the gist if that was tried. -/
structure GistCall where
  scope : Option String
  chunk : List Victim
  answer : GistAnswer
  stored : Option (Except StorageError Reply)

/-- The state of the gist step. -/
structure Gisting where
  engine : Engine
  gistSeq : ℕ
  spared : List PointOffset
  calls : List GistCall

/-- The id of a gist. -/
def gistId (scope : Option String) (now n : ℕ) : String :=
  let name := scope.getD "global"
  s!"gist:{name}:{now}:{n}"

/-- The payload of a gist. -/
def gistPayload (victims : ℕ) : String := s!"\x7b\"gist\":true,\"victims\":{victims}\x7d"

/-- The record of a gist. -/
def gistInput (scope : Option String) (now n : ℕ) (chunk : List Victim) (gist : String)
    (embedding : Embedding) : WriteInput where
  id := gistId scope now n
  text := gist
  embedding := embedding
  importance := F32.one
  concepts := []
  payload := some (gistPayload chunk.length)
  scope := scope
  sourceRole := some "gist"

namespace Engine

/-- Compress one chunk. It is spared if its gist cannot be produced or stored, but not if the
compressor abstains. -/
def gistChunk (E : Env) (G : Gister) (scope : Option String) (s : Gisting)
    (chunk : List Victim) : Gisting :=
  let answer := G.compress s.calls.length (chunk.map Victim.text)
  match answer with
  | .error _ =>
    { s with
      spared := s.spared ++ chunk.map Victim.offset
      calls := s.calls ++ [⟨scope, chunk, answer, none⟩] }
  | .ok none => { s with calls := s.calls ++ [⟨scope, chunk, answer, none⟩] }
  | .ok (some (gist, embedding)) =>
    if gist.toList.all isWhiteSpace then
      { s with calls := s.calls ++ [⟨scope, chunk, answer, none⟩] }
    else
      let n := s.gistSeq + 1
      match s.engine.perform E (G.io n) (s.engine.insert E s.engine.graph.graph.vocab
        (G.created n) (gistInput scope G.now n chunk gist embedding)) with
      | (.error err, e) =>
        ⟨e, n, s.spared ++ chunk.map Victim.offset,
          s.calls ++ [⟨scope, chunk, answer, some (.error err)⟩]⟩
      | (.ok reply, e) =>
        ⟨e, n, s.spared, s.calls ++ [⟨scope, chunk, answer, some (.ok reply)⟩]⟩

/-- The victims among the records, by scope. -/
def victimsByScope (E : Env) (e : Engine) (victims : List (PointOffset × String)) :
    Std.ExtTreeMap (Option String) (List (PointOffset × MetaRecord)) :=
  Grouping.group (fun p => p.2.scope)
    ((E.iterate e.metadata.records).filter fun p => victims.any (·.1 == p.1))

/-- The victims of one scope, oldest first. -/
def inOrder (entries : List (PointOffset × MetaRecord)) : List Victim :=
  (entries.map fun p => (⟨p.2.insertSeq, p.1, p.2.text⟩ : Victim)).insertionSort
    fun a b => a.seq ≤ b.seq

/-- Compress the victims into gists: scope by scope, in chunks of `chunkFacts`. -/
def gistVictims (E : Env) (G : Gister) (chunkFacts gistSeq : ℕ) (e : Engine)
    (victims : List (PointOffset × String)) : Gisting :=
  (e.victimsByScope E victims).toList.foldl (fun s p =>
    (Grouping.chunks (max chunkFacts 1) (inOrder p.2)).foldl (gistChunk E G p.1) s)
    ⟨e, gistSeq, [], []⟩

variable {S T : Type} [LinearOrder S]

/-- The gist step, if it is on and a compressor is installed, and the victims it leaves. -/
def gistStep (E : Env) (w : Sweep S T) (compressor : Option Gister) (gistSeq : ℕ) (e : Engine)
    (victims : List (PointOffset × String)) : List (PointOffset × String) × Gisting :=
  if w.tier.gistBeforeEvict && !victims.isEmpty then
    match compressor with
    | none => (victims, ⟨e, gistSeq, [], []⟩)
    | some G =>
      let s := e.gistVictims E G w.tier.gistChunkFacts gistSeq victims
      (victims.filter fun p => !s.spared.contains p.1, s)
  else (victims, ⟨e, gistSeq, [], []⟩)

/-- Bounded-storage eviction: the number of records evicted, and the calls of the compressor. -/
def evict (E : Env) (w : Sweep S T) (compressor : Option Gister) (gistSeq : ℕ)
    (io : PointOffset → Io) (e : Engine) : Except StorageError ℕ × Gisting :=
  if w.tier.maxRecords.isNone && w.tier.evictScoreFloor.isNone then
    (.ok 0, ⟨e, gistSeq, [], []⟩)
  else
    let e := e.drain
    let victims := w.victims e.metadata.recordCount (E.iterate e.metadata.records)
    let (victims, s) := e.gistStep E w compressor gistSeq victims
    match deleteVictims E io victims s.engine with
    | (r, e) => (r, { s with engine := e })

end Engine

/-! ## Deduplication -/

/-- A live record, as deduplication looks at it. -/
structure Cand (S : Type) where
  offset : PointOffset
  id : String
  score : S
  importance : F32
  insertSeq : ℕ
  concepts : List String
  scope : Option String

/-- `a` should be kept over `b`: higher salience wins, then importance, then the earlier one. -/
def keeps {S : Type} [LinearOrder S] (a b : Cand S) : Bool :=
  (((compare a.score b.score).then (compare a.importance.totalKey b.importance.totalKey)).then
    (compare b.insertSeq a.insertSeq)).isGE

/-- The state of the pass: the offsets merged away, and the merges as survivor and victim. -/
structure Merging (S : Type) where
  mergedOffsets : List PointOffset := []
  merges : List (Cand S × Cand S) := []

/-- What a deduplication reads besides the store: the sweep, the cosine of two vectors, the
threshold, and the neighbours found for a candidate. -/
structure DedupRun (S T : Type) where
  sweep : Sweep S T
  cosine : Embedding → Embedding → T
  threshold : T
  neighbors : Cand S → Except StorageError (List String)

/-- The candidate of a record. -/
def Sweep.cand {S T : Type} (w : Sweep S T) (p : PointOffset × MetaRecord) : Cand S where
  offset := p.1
  id := p.2.id
  score := accessScore w.ops p.2 w.now w.halfLife
  importance := p.2.importance
  insertSeq := p.2.insertSeq
  concepts := p.2.concepts
  scope := p.2.scope

/-- The candidates, oldest first. -/
def Sweep.cands {S T : Type} (w : Sweep S T) (entries : List (PointOffset × MetaRecord)) :
    List (Cand S) :=
  (entries.map w.cand).insertionSort fun a b => a.insertSeq ≤ b.insertSeq

namespace DedupRun

variable {S T : Type} [LinearOrder S] [LinearOrder T]

/-- The loop over the neighbours of a candidate. Returns whether the pass is over. -/
def scanNeighbors (d : DedupRun S T) (vectors : VectorStore) (cands : List (Cand S))
    (cand : Cand S) (embedding : Embedding) : List String → Merging S → Bool × Merging S
  | [], s => (false, s)
  | nid :: nids, s =>
    if nid = cand.id then d.scanNeighbors vectors cands cand embedding nids s
    else match cands.find? (·.id == nid) with
      | none => d.scanNeighbors vectors cands cand embedding nids s
      | some other =>
        if other.scope ≠ cand.scope then d.scanNeighbors vectors cands cand embedding nids s
        else if s.mergedOffsets.contains other.offset then
          d.scanNeighbors vectors cands cand embedding nids s
        else match vectors.get other.offset with
          | none => d.scanNeighbors vectors cands cand embedding nids s
          | some otherVec =>
            if d.cosine embedding otherVec < d.threshold then
              d.scanNeighbors vectors cands cand embedding nids s
            else
              let merge := if keeps cand other then (cand, other) else (other, cand)
              let s := ⟨s.mergedOffsets ++ [merge.2.offset], s.merges ++ [merge]⟩
              if d.sweep.tier.dedupMaxPairsPerCycle ≤ s.merges.length then (true, s)
              else if merge.2.offset = cand.offset then (false, s)
              else d.scanNeighbors vectors cands cand embedding nids s

/-- The loop over the candidates. -/
def mergePass (d : DedupRun S T) (vectors : VectorStore) (cands : List (Cand S)) :
    List (Cand S) → Merging S → Except StorageError (Merging S)
  | [], s => .ok s
  | cand :: rest, s =>
    if s.mergedOffsets.contains cand.offset then d.mergePass vectors cands rest s
    else match vectors.get cand.offset with
      | none => d.mergePass vectors cands rest s
      | some embedding =>
        match d.neighbors cand with
        | .error err => .error err
        | .ok nids =>
          match d.scanNeighbors vectors cands cand embedding nids s with
          | (true, s) => .ok s
          | (false, s) => d.mergePass vectors cands rest s

end DedupRun

namespace Engine

variable {S T : Type} [LinearOrder S] [LinearOrder T]

/-- Look up the metadata of a live record by its id. -/
def findMetaById (e : Engine) (id : String) : Option MetaRecord :=
  e.idIndex[id]?.bind e.metadata.get

/-- Give the survivor the concepts of the victim that it lacks. -/
def inheritConcepts (E : Env) (L : LearnArith) (e : Engine) (survivorId : String)
    (victimConcepts : List String) : Engine :=
  match e.findMetaById survivorId with
  | none => e
  | some survivor =>
    let missing := victimConcepts.filter (· ∉ survivor.concepts)
    if missing = [] then e
    else e.setGraph
      (e.graph.graph.addConceptsToMemory E.arith L survivorId missing survivor.importance).2

/-- Carry out the merges one after the other, and count the victims that were there. -/
def applyMerges (E : Env) (L : LearnArith) (io : PointOffset → Io) :
    List (Cand S × Cand S) → Engine → Except StorageError ℕ × Engine
  | [], e => (.ok 0, e)
  | (survivor, victim) :: merges, e =>
    let e := e.inheritConcepts E L survivor.id victim.concepts
    match e.perform E (io victim.offset) (e.deleteByIdAt victim.id victim.offset) with
    | (.error err, e) => (.error err, e)
    | (.ok reply, e) =>
      match applyMerges E L io merges e with
      | (.error err, e) => (.error err, e)
      | (.ok n, e) => (.ok (if reply = .bool true then n + 1 else n), e)

/-- Semantic consolidation: merge near-duplicate records of one scope. Returns the number merged
away, and the merges. -/
def deduplicate (E : Env) (L : LearnArith) (w : Sweep S T) (cosine : Embedding → Embedding → T)
    (neighbors : Cand S → Except StorageError (List String)) (io : PointOffset → Io) (e : Engine) :
    Except StorageError ℕ × List (Cand S × Cand S) × Engine :=
  match w.tier.dedupCosineThreshold with
  | none => (.ok 0, [], e)
  | some threshold =>
    if w.tier.dedupMaxPairsPerCycle = 0 then (.ok 0, [], e)
    else
      let e := e.drain
      let d : DedupRun S T := ⟨w, cosine, threshold, neighbors⟩
      let cands := w.cands (E.iterate e.metadata.records)
      match d.mergePass e.vectors cands cands {} with
      | .error err => (.error err, [], e)
      | .ok s =>
        match applyMerges E L io s.merges e with
        | (r, e) => (r, s.merges, e)

end Engine

end TurboMemory
