import TurboMemory.Graph.Runs

/-!
# Spreading activation

The augmenter takes the results of a vector search as seeds, adds memories that match the query
lexically or lie a few edges away from a seed, and cuts the list by seed score plus graph signal.
`Run.walk` is all that the edges of the best seeds lead to, in order; `Run.Collects` and
`Run.Candidate` say what an expansion collects of it, and what a search can return.

## Main results

* `SpreadingActivation.expand_eq`, `SpreadingActivation.mem_expand_iff` — the nested loops of an
  expansion are one walk, and what its pools have.
* `SpreadingActivation.searchRestricted_keeps_seeds` — it returns every seed if there is room for
  all candidates; without that a seed can be cut off (`searchRestricted_drops_seed`).

## Implementation notes

The source puts `mem:` before every memory id it keys a map by, and takes it off again at the
end; here the maps are keyed by the ids. Signals are elements of a type with the operations the
search uses (`SpreadOps`).
-/

set_option autoImplicit false

namespace TurboMemory

open List Std

/-! ## Settings and arithmetic -/

/-- The settings of the augmenter. -/
structure SpreadingConfig (S : Type) where
  semanticAlpha : S
  lexicalAlpha : S
  decay : S
  iterations : ℕ
  seedHopsFrom : ℕ
  expansionMaxCandidates : ℕ
  conceptExpansion : Bool

/-- The arithmetic of signals and the text processing of queries. -/
structure SpreadOps (S : Type) where
  zero : S
  half : S
  threeQuarters : S
  /-- The weight of an edge. -/
  weight : F32 → S
  add : S → S → S
  mul : S → S → S
  max : S → S → S
  recip : S → S
  /-- Above zero. -/
  isPos : S → Bool
  /-- Above `0.01`. -/
  isAudible : S → Bool
  cmpScoreDesc : S → S → Ordering
  /-- The BM25 formula for the tokens of a query and of a document. -/
  bm25 : Bm25Index → List String → List String → S
  /-- The words of a query with at least three bytes, in lower case. -/
  queryTokens : String → List String
  lower : String → String

/-- Best score first, by id on a tie. -/
def SpreadOps.ranked {S : Type} (O : SpreadOps S) (a b : String × S) : Ordering :=
  (O.cmpScoreDesc a.2 b.2).then (compare a.1 b.1)

/-- Add to the signal of a memory. -/
def SpreadOps.bump {S : Type} (O : SpreadOps S) (pool : ExtTreeMap String S) (id : String)
    (signal : S) : ExtTreeMap String S :=
  pool.insert id (O.add (pool.getD id O.zero) signal)

/-- The lexical matches of a query, best first. -/
def Bm25Index.score {S : Type} (A : GraphArith) (O : SpreadOps S) (idx : Bm25Index)
    (query : String) : List (String × S) :=
  let qtokens := A.tokenize query
  if qtokens = [] ∨ idx.docs.isEmpty then []
  else sortBy (fun a b => O.cmpScoreDesc a.2 b.2) (idx.docs.toList.filterMap fun p =>
    let score := O.bm25 idx qtokens p.2
    if O.isPos score then some (p.1, score) else none)

/-! ## The graph -/

namespace MemoryGraph

/-- The memory at a node. -/
def memoryAt (g : MemoryGraph) (nid : ℕ) : Option String :=
  (g.interner.get nid).bind fun node => if node.kind = .memory then some node.externalId else none

/-- The concept at a node. -/
def conceptAt (g : MemoryGraph) (nid : ℕ) : Option String :=
  (g.interner.get nid).bind fun node => if node.kind = .concept then some node.externalId else none

/-- The concept is too general to spread through. -/
def isConceptSuppressed {S : Type} (O : SpreadOps S) (g : MemoryGraph) (concept : String) : Bool :=
  O.lower concept ∈ g.suppressedConcepts

end MemoryGraph

/-! ## The pools -/

/-- The signals of the expansion, by the kind of path. -/
structure Pools (S : Type) where
  strong : ExtTreeMap String S := ∅
  temporal : ExtTreeMap String S := ∅
  normal : ExtTreeMap String S := ∅
  abstraction : ExtTreeMap String S := ∅

/-- The number of entries of the pools. -/
def Pools.size {S : Type} (p : Pools S) : ℕ :=
  p.strong.size + p.temporal.size + p.normal.size + p.abstraction.size

/-- The name of a pool. -/
inductive PoolName
  | strong
  | temporal
  | normal
  | abstraction
deriving DecidableEq

/-- A memory that a path leads to, the pool it is for, and the signal that arrives. -/
structure Hit (S : Type) where
  pool : PoolName
  id : String
  signal : S
deriving DecidableEq

/-- The pool with a name. -/
def Pools.get {S : Type} (p : Pools S) : PoolName → ExtTreeMap String S
  | .strong => p.strong
  | .temporal => p.temporal
  | .normal => p.normal
  | .abstraction => p.abstraction

/-- Enter a memory into its pool. -/
def Pools.enter {S : Type} (O : SpreadOps S) (p : Pools S) (hit : Hit S) : Pools S :=
  match hit.pool with
  | .strong => { p with strong := O.bump p.strong hit.id hit.signal }
  | .temporal => { p with temporal := O.bump p.temporal hit.id hit.signal }
  | .normal => { p with normal := O.bump p.normal hit.id hit.signal }
  | .abstraction => { p with abstraction := O.bump p.abstraction hit.id hit.signal }

namespace SpreadingActivation

variable {S : Type}

/-- What an expansion reads. -/
structure Run (S : Type) where
  ops : SpreadOps S
  config : SpreadingConfig S
  graph : MemoryGraph
  allow : Option (String → Bool)

namespace Run

variable (x : Run S) (p : Pools S) (query : String)

/-- The caller accepts a memory. -/
def allowed (id : String) : Bool := x.allow.all (· id)

/-- The memory at a node, if it is accepted. -/
def allowedAt (nid : ℕ) : Option String := (x.graph.memoryAt nid).filter x.allowed

/-- The number of memories that an expansion may add. -/
def limit : ℕ := min (max x.config.expansionMaxCandidates 10) 200

/-- The expansion may not add more. -/
def full : Bool := x.limit ≤ p.size

/-- Spread along the association edges of a concept to the memories it is connected with. -/
def spread (signal : InternalEdge → S) (edges : List ℕ)
    (pool : ExtTreeMap String S) : ExtTreeMap String S :=
  edges.foldl (fun pool idx =>
    match x.graph.intEdges[idx]? with
    | none => pool
    | some edge =>
      if edge.kind = .association then
        match x.allowedAt edge.target with
        | none => pool
        | some id => x.ops.bump pool id (signal edge) else pool) pool

/-- Spread from the concepts that the query names. -/
def seedConcepts (normal : ExtTreeMap String S) : ExtTreeMap String S :=
  (x.ops.queryTokens query).foldl (fun normal token =>
    match x.graph.interner.keyToId[conceptKey token]? with
    | none => normal
    | some nid =>
      if x.graph.isConceptSuppressed x.ops token then normal
      else match x.graph.intAdjacency[nid]? with
        | none => normal
        | some edges => x.spread
            (fun edge => x.ops.mul x.ops.threeQuarters (x.ops.weight edge.weight)) edges
            normal) normal

/-- Spread from an abstraction through its other concepts. -/
def spreadParent (concept : ℕ) (signal : S) (edges : List ℕ)
    (abstraction : ExtTreeMap String S) : ExtTreeMap String S :=
  edges.foldl (fun abstraction idx =>
    match x.graph.intEdges[idx]? with
    | none => abstraction
    | some edge =>
      if edge.kind ≠ .abstraction ∨ edge.target = concept then abstraction
      else match x.graph.conceptAt edge.target with
        | none => abstraction
        | some sibling =>
          if x.graph.isConceptSuppressed x.ops sibling then abstraction
          else match x.graph.intAdjacency[edge.target]? with
            | none => abstraction
            | some edges => x.spread (fun last => x.ops.mul (x.ops.mul (x.ops.mul signal
                (x.ops.weight edge.weight)) (x.ops.weight last.weight)) x.config.decay) edges
                abstraction) abstraction

/-- One edge of a concept: to a memory, or to an abstraction. -/
def conceptStep (seed concept : ℕ) (signal : S) (idx : ℕ) (p : Pools S) : Bool × Pools S :=
  match x.graph.intEdges[idx]? with
  | none => (false, p)
  | some edge =>
    if edge.kind = .association ∧ (x.graph.memoryAt edge.target).isSome ∧ edge.target ≠ seed then
      let signal := x.ops.mul (x.ops.mul signal (x.ops.weight edge.weight)) x.config.decay
      let p := match x.allowedAt edge.target with
        | none => p
        | some id => { p with normal := x.ops.bump p.normal id signal }
      (x.full p, p)
    else if edge.kind = .abstraction ∧ (x.graph.conceptAt edge.target).isSome then
      match x.graph.intAdjacency[edge.target]? with
      | none => (false, p)
      | some edges =>
        let signal := x.ops.mul signal (x.ops.weight edge.weight)
        let p := { p with abstraction := x.spreadParent concept signal edges p.abstraction }
        (x.full p, p)
    else (x.full p, p)

/-- One edge of a seed. -/
def edgeStep (seed : ℕ) (score : S) (idx : ℕ) (p : Pools S) : Bool × Pools S :=
  match x.graph.intEdges[idx]? with
  | none => (false, p)
  | some edge =>
    let signal := x.ops.mul (x.ops.mul score (x.ops.weight edge.weight)) x.config.decay
    if edge.kind.supersedes ∧ (x.graph.memoryAt edge.target).isSome then
      let p := match x.allowedAt edge.target with
        | none => p
        | some id => { p with strong := x.ops.bump p.strong id signal }
      (x.full p, p)
    else if edge.kind = .temporal ∧ (x.graph.memoryAt edge.target).isSome then
      let p := match x.allowedAt edge.target with
        | none => p
        | some id => { p with temporal := x.ops.bump p.temporal id signal }
      (x.full p, p)
    else if edge.kind = .association ∧ x.config.conceptExpansion then
      match x.graph.conceptAt edge.target with
      | none => (x.full p, p)
      | some concept =>
        if x.graph.isConceptSuppressed x.ops concept then (false, p)
        else match x.graph.intAdjacency[edge.target]? with
          | none => (false, p)
          | some edges =>
            match Loop.scan (x.conceptStep seed edge.target
              (x.ops.mul score (x.ops.weight edge.weight))) edges p with
            | (true, p) => (true, p)
            | (false, p) => (x.full p, p)
    else (x.full p, p)

/-- Expand from one seed. -/
def seedStep (seed : String × S) (p : Pools S) : Bool × Pools S :=
  match x.graph.interner.keyToId[memKey seed.1]? with
  | none => (false, p)
  | some nid =>
    match x.graph.intAdjacency[nid]? with
    | none => (false, p)
    | some edges => Loop.scan (x.edgeStep nid seed.2) edges p

variable (seeds : List (String × S))

/-- The scores of the seeds. -/
def seedScores : ExtTreeMap String S :=
  seeds.foldl (fun (scores : ExtTreeMap String S) p =>
    scores.insert p.1 (x.ops.mul x.config.semanticAlpha (x.ops.max p.2 x.ops.zero))) ∅

/-- The best seeds, from which a search expands. -/
def expanded : List (String × S) :=
  (sortBy x.ops.ranked (x.seedScores seeds).toList).take (min (max x.config.seedHopsFrom 1) 20)

/-- The expansion from the best seeds. -/
def expand : Pools S :=
  (Loop.scan x.seedStep (x.expanded seeds) { normal := x.seedConcepts query ∅ }).2

/-- Add the signals of a pool, boosted, as far as they can be heard. -/
def merge (boost : S → S) (pool delta : ExtTreeMap String S) : ExtTreeMap String S :=
  pool.toList.foldl (fun delta p =>
    if x.ops.isAudible (boost p.2) then x.ops.bump delta p.1 (boost p.2) else delta) delta

/-- Add the signals of all pools. -/
def mergeAll (delta : ExtTreeMap String S) : ExtTreeMap String S :=
  let delta := x.merge (fun signal => signal) p.strong delta
  let delta := x.merge (x.ops.mul · x.ops.half) p.temporal delta
  let delta := x.merge (x.ops.mul · x.ops.threeQuarters) p.normal delta
  x.merge (x.ops.mul · x.ops.threeQuarters) p.abstraction delta

/-- Add the lexical matches, scaled to the best of them. -/
def addLexical (lexical : List (String × S)) (delta : ExtTreeMap String S) :
    ExtTreeMap String S :=
  let maxLex := lexical.foldl (fun best p => x.ops.max best p.2) x.ops.zero
  let norm := if x.ops.isPos maxLex then x.ops.recip maxLex else x.ops.zero
  lexical.foldl (fun delta p => x.ops.bump delta p.1
    (x.ops.mul (x.ops.mul x.config.lexicalAlpha p.2) norm)) delta

/-- The signals of all candidates: the seeds, the lexical matches and what the expansion adds. -/
def deltas (A : GraphArith) (bm25 : Bm25Index) (query : String)
    (seeds : List (String × S)) : ExtTreeMap String S :=
  let floor := seeds.foldl (fun (delta : ExtTreeMap String S) p =>
    delta.insert p.1 x.ops.zero) ∅
  let delta := x.addLexical ((bm25.score A x.ops query).filter fun p => x.allowed p.1) floor
  if 0 < x.config.iterations then x.mergeAll (x.expand query seeds) delta else delta

/-- The candidates with their signals, best seed score plus signal first. -/
def ranking (A : GraphArith) (bm25 : Bm25Index) (query : String)
    (seeds : List (String × S)) : List ((String × S) × S) :=
  sortBy (fun a b => x.ops.ranked (a.1.1, a.2) (b.1.1, b.2))
    ((x.deltas A bm25 query seeds).toList.map fun p =>
      (p, x.ops.add ((x.seedScores seeds).getD p.1 x.ops.zero) p.2))

end Run

/-- Bounded augmenter search, restricted to the memories that `allow` accepts. -/
def searchRestricted (A : GraphArith) (O : SpreadOps S) (config : SpreadingConfig S)
    (s : SpreadingActivation) (query : String) (seeds : List (String × S)) (topK : ℕ)
    (allow : Option (String → Bool)) : Option (List (String × S)) :=
  let x : Run S := ⟨O, config, s.graph, allow⟩
  if seeds = [] then none
  else
    let memories := (x.ranking A s.bm25 query seeds).take topK
    if memories = [] then none else some (memories.map Prod.fst)

/-! ## The walk of an expansion -/

/-- The entries that some hits make. -/
def entries (hits : List (Hit S)) : Finset (PoolName × String) :=
  (hits.map fun hit => (hit.pool, hit.id)).toFinset

namespace Run

variable (x : Run S) (query : String)

/-- The accepted memory at a node, as a hit. -/
def hitAt (pool : PoolName) (signal : S) (nid : ℕ) : List (Hit S) :=
  (x.allowedAt nid).toList.map (⟨pool, ·, signal⟩)

/-- What the association edges of a concept lead to. -/
def members (pool : PoolName) (signal : InternalEdge → S) (edges : List ℕ) : List (Hit S) :=
  edges.flatMap fun idx =>
    match x.graph.intEdges[idx]? with
    | none => []
    | some edge => if edge.kind = .association then x.hitAt pool (signal edge) edge.target else []

/-- What the concepts that the query names lead to. -/
def namedHits : List (Hit S) :=
  (x.ops.queryTokens query).flatMap fun token =>
    match x.graph.interner.keyToId[conceptKey token]? with
    | none => []
    | some nid =>
      if x.graph.isConceptSuppressed x.ops token then []
      else match x.graph.intAdjacency[nid]? with
        | none => []
        | some edges => x.members .normal
            (fun edge => x.ops.mul x.ops.threeQuarters (x.ops.weight edge.weight)) edges

/-- What the edges of an abstraction lead to through its other concepts. -/
def parentHits (concept : ℕ) (signal : S) (edges : List ℕ) : List (Hit S) :=
  edges.flatMap fun idx =>
    match x.graph.intEdges[idx]? with
    | none => []
    | some edge =>
      if edge.kind ≠ .abstraction ∨ edge.target = concept then []
      else match x.graph.conceptAt edge.target with
        | none => []
        | some sibling =>
          if x.graph.isConceptSuppressed x.ops sibling then []
          else match x.graph.intAdjacency[edge.target]? with
            | none => []
            | some edges =>
              x.members .abstraction (fun last => x.ops.mul (x.ops.mul (x.ops.mul signal
                (x.ops.weight edge.weight)) (x.ops.weight last.weight)) x.config.decay) edges

/-- What an edge of a concept leads to, unless it is passed over without a check of the limit. -/
def conceptHits (seed concept : ℕ) (signal : S) (idx : ℕ) : Option (List (Hit S)) :=
  match x.graph.intEdges[idx]? with
  | none => none
  | some edge =>
    if edge.kind = .association ∧ (x.graph.memoryAt edge.target).isSome ∧ edge.target ≠ seed then
      some (x.hitAt .normal
        (x.ops.mul (x.ops.mul signal (x.ops.weight edge.weight)) x.config.decay) edge.target)
    else if edge.kind = .abstraction ∧ (x.graph.conceptAt edge.target).isSome then
      (x.graph.intAdjacency[edge.target]?).map
        (x.parentHits concept (x.ops.mul signal (x.ops.weight edge.weight)))
    else some []

/-- What an edge of a seed leads to, check by check of the limit. -/
def edgeHits (seed : ℕ) (score : S) (idx : ℕ) : List (List (Hit S)) :=
  match x.graph.intEdges[idx]? with
  | none => []
  | some edge =>
    let signal := x.ops.mul (x.ops.mul score (x.ops.weight edge.weight)) x.config.decay
    if edge.kind.supersedes ∧ (x.graph.memoryAt edge.target).isSome then
      [x.hitAt .strong signal edge.target]
    else if edge.kind = .temporal ∧ (x.graph.memoryAt edge.target).isSome then
      [x.hitAt .temporal signal edge.target]
    else if edge.kind = .association ∧ x.config.conceptExpansion then
      match x.graph.conceptAt edge.target with
      | none => [[]]
      | some concept =>
        if x.graph.isConceptSuppressed x.ops concept then []
        else match x.graph.intAdjacency[edge.target]? with
          | none => []
          | some edges => edges.filterMap (x.conceptHits seed edge.target
              (x.ops.mul score (x.ops.weight edge.weight))) ++ [[]]
    else [[]]

/-- What the edges of a seed lead to. -/
def seedHits (seed : String × S) : List (List (Hit S)) :=
  match x.graph.interner.keyToId[memKey seed.1]? with
  | none => []
  | some nid =>
    match x.graph.intAdjacency[nid]? with
    | none => []
    | some edges => edges.flatMap (x.edgeHits nid seed.2)

variable (seeds : List (String × S))

/-- The whole walk from the best seeds, as if there were no limit. -/
def walk : List (List (Hit S)) := (x.expanded seeds).flatMap x.seedHits

/-- A start of the walk that an expansion goes through: as long as it goes on, fewer memories than
the limit are collected, named ones included. -/
def Follows (taken : List (List (Hit S))) : Prop :=
  taken <+: x.walk seeds ∧ ∀ first, first <+: taken → first ≠ [] → first ≠ taken →
    (entries (x.namedHits query ++ first.flatten)).card < x.limit

/-- A memory that an expansion collects in a pool: the query names it, or the walk leads to it
before the limit ends it. -/
def Collects (pool : PoolName) (id : String) : Prop :=
  ∃ taken, x.Follows query seeds taken ∧
    ∃ hit ∈ x.namedHits query ++ taken.flatten, hit.pool = pool ∧ hit.id = id

/-- Enter what an edge leads to, and check the limit. -/
def follow (hits : List (Hit S)) (p : Pools S) : Bool × Pools S :=
  let p := hits.foldl (Pools.enter x.ops) p
  (x.full p, p)

end Run

section Walk

variable {x : Run S} {O : SpreadOps S} {p : Pools S} {hits : List (Hit S)} {pool : PoolName}
  {id : String} {query : String}

/-- A signal makes an entry. -/
lemma mem_bump {m : ExtTreeMap String S} {id j : String} {signal : S} :
    j ∈ O.bump m id signal ↔ j = id ∨ j ∈ m := by
  rw [SpreadOps.bump, ExtTreeMap.mem_insert, LawfulEqCmp.compare_eq_iff_eq, eq_comm]

/-- What a pool has after a memory is entered. -/
lemma mem_get_enter {hit : Hit S} :
    id ∈ (p.enter O hit).get pool ↔ hit.pool = pool ∧ hit.id = id ∨ id ∈ p.get pool := by
  obtain ⟨entered, j, signal⟩ := hit
  cases entered <;> cases pool <;> simp [Pools.enter, Pools.get, mem_bump, eq_comm]

/-- What a pool has after some memories are entered. -/
lemma mem_get_foldl_enter : id ∈ (hits.foldl (Pools.enter O) p).get pool ↔
    (∃ hit ∈ hits, hit.pool = pool ∧ hit.id = id) ∨ id ∈ p.get pool := by
  induction hits generalizing p with
  | nil => simp
  | cons hit hits ih =>
    rw [foldl_cons, ih, mem_get_enter]
    rw [exists_mem_cons_iff, or_left_comm, or_assoc]

/-- The pools have as many entries as the hits make. -/
lemma size_foldl_enter (hits : List (Hit S)) :
    (hits.foldl (Pools.enter O) {}).size = (entries hits).card := by
  set p := hits.foldl (Pools.enter O) {} with hp
  let all : List (PoolName × String) := [.strong, .temporal, .normal, .abstraction].flatMap
    fun pool => (p.get pool).keys.map (pool, ·)
  have hnodup : all.Nodup := by
    refine nodup_flatMap.mpr ⟨fun pool _ =>
      ExtTreeMap.nodup_keys.map (Prod.mk_right_injective pool), ?_⟩
    have hnames : [PoolName.strong, .temporal, .normal, .abstraction].Nodup := by decide
    refine hnames.imp fun hne e he he' => ?_
    obtain ⟨_, -, rfl⟩ := mem_map.mp he
    obtain ⟨_, -, heq⟩ := mem_map.mp he'
    exact hne (congrArg Prod.fst heq).symm
  have hall : all.toFinset = entries hits := by
    ext ⟨pool, id⟩
    have hmem : (pool, id) ∈ all ↔ id ∈ p.get pool := by
      cases pool <;> simp [all]
    rw [mem_toFinset, hmem, hp, mem_get_foldl_enter]
    cases pool <;> simp [entries, Pools.get]
  rw [← hall, toFinset_card_of_nodup hnodup]
  simp [all, Pools.size, Pools.get, Nat.add_assoc]

/-- Entering the memory at a node. -/
lemma foldl_hitAt (pool : PoolName) (signal : S) (nid : ℕ) (p : Pools S) :
    (x.hitAt pool signal nid).foldl (Pools.enter x.ops) p =
      match x.allowedAt nid with
      | none => p
      | some id => p.enter x.ops ⟨pool, id, signal⟩ := by
  rw [Run.hitAt]
  cases x.allowedAt nid <;> rfl

section Spread

variable (put : ExtTreeMap String S → Pools S)
  (hput : ∀ m id signal, (put m).enter x.ops ⟨pool, id, signal⟩ = put (x.ops.bump m id signal))
include hput

/-- Spreading along association edges enters what they lead to. -/
lemma foldl_members (signal : InternalEdge → S) (edges : List ℕ) (m : ExtTreeMap String S) :
    (x.members pool signal edges).foldl (Pools.enter x.ops) (put m) =
      put (x.spread signal edges m) := by
  rw [Run.members, foldl_flatMap, Run.spread]
  refine foldl_hom put fun m idx => ?_
  cases x.graph.intEdges[idx]? with
  | none => rfl
  | some edge =>
    dsimp only
    split
    · rw [foldl_hitAt]
      cases x.allowedAt edge.target with
      | none => rfl
      | some id => exact hput m id _
    · rfl

/-- Spreading from an abstraction enters what its other concepts lead to. -/
lemma foldl_parentHits (hpool : pool = .abstraction) (concept : ℕ) (signal : S) (edges : List ℕ)
    (m : ExtTreeMap String S) :
    (x.parentHits concept signal edges).foldl (Pools.enter x.ops) (put m) =
      put (x.spreadParent concept signal edges m) := by
  subst hpool
  rw [Run.parentHits, foldl_flatMap, Run.spreadParent]
  refine foldl_hom put fun m idx => ?_
  repeat' split
  all_goals first | rfl | exact foldl_members put hput _ _ m

end Spread

/-- The first pool has what the query names. -/
lemma foldl_namedHits (query : String) (m : ExtTreeMap String S) :
    (x.namedHits query).foldl (Pools.enter x.ops) { normal := m } =
      { normal := x.seedConcepts query m } := by
  rw [Run.namedHits, foldl_flatMap, Run.seedConcepts]
  refine foldl_hom (fun m => ({ normal := m } : Pools S)) fun m token => ?_
  repeat' split
  all_goals first
    | rfl
    | exact foldl_members (fun m => ({ normal := m } : Pools S)) (fun _ _ _ => rfl) _ _ m

/-- An edge of a concept is followed, or passed over. -/
lemma conceptStep_eq (seed concept : ℕ) (signal : S) (idx : ℕ) (p : Pools S) :
    x.conceptStep seed concept signal idx p =
      ((x.conceptHits seed concept signal idx).map (x.follow · p)).getD (false, p) := by
  rw [Run.conceptStep, Run.conceptHits]
  cases x.graph.intEdges[idx]? with
  | none => rfl
  | some edge =>
    dsimp only
    split
    · simp only [Option.map_some, Option.getD_some, Run.follow, foldl_hitAt, Pools.enter]
    · split
      · cases x.graph.intAdjacency[edge.target]? with
        | none => rfl
        | some edges =>
          simp only [Option.map_some, Option.getD_some, Run.follow]
          rw [foldl_parentHits (fun m => { p with abstraction := m }) (fun _ _ _ => rfl) rfl]
      · rfl

/-- An edge of a seed leads to what is followed. -/
lemma edgeStep_eq (seed : ℕ) (score : S) (idx : ℕ) (p : Pools S) :
    x.edgeStep seed score idx p = Loop.scan x.follow (x.edgeHits seed score idx) p := by
  have hone : ∀ hits, Loop.scan x.follow [hits] p = x.follow hits p := by
    intro hits
    rcases hfollow : x.follow hits p with ⟨_ | _, p'⟩ <;> simp [Loop.scan, hfollow]
  rw [Run.edgeStep, Run.edgeHits]
  cases x.graph.intEdges[idx]? with
  | none => rfl
  | some edge =>
    dsimp only
    split
    · rw [hone, Run.follow, foldl_hitAt]
      rfl
    · split
      · rw [hone, Run.follow, foldl_hitAt]
        rfl
      · split
        · cases x.graph.conceptAt edge.target with
          | none => exact (hone []).symm
          | some concept =>
            dsimp only
            split
            · rfl
            · cases x.graph.intAdjacency[edge.target]? with
              | none => rfl
              | some edges =>
                have hscan : Loop.scan (x.conceptStep seed edge.target
                    (x.ops.mul score (x.ops.weight edge.weight))) edges p = Loop.scan x.follow
                      (edges.filterMap (x.conceptHits seed edge.target
                        (x.ops.mul score (x.ops.weight edge.weight)))) p :=
                  Loop.scan_filterMap (P := fun _ => True) _ edges trivial
                    (fun idx _ hnone p _ => by rw [conceptStep_eq, hnone]; rfl)
                    (fun idx _ hits hsome p _ => by rw [conceptStep_eq, hsome]; rfl)
                    fun _ _ _ _ _ => trivial
                dsimp only
                rw [Loop.scan_append, ← hscan]
                rcases Loop.scan _ edges p with ⟨_ | _, p'⟩
                · rcases hfull : x.full p' <;> simp [Loop.scan, Run.follow, hfull]
                · rfl
        · exact (hone []).symm

/-- **An expansion is one walk** from the best seeds, which ends where the limit is reached. -/
lemma expand_eq (x : Run S) (query : String) (seeds : List (String × S)) : x.expand query seeds =
    (Loop.scan x.follow (x.walk seeds) ((x.namedHits query).foldl (Pools.enter x.ops) {})).2 := by
  have hseed : x.seedStep = fun seed => Loop.scan x.follow (x.seedHits seed) := by
    funext seed p
    rw [Run.seedStep, Run.seedHits]
    repeat' split
    · rfl
    · rfl
    · rw [← Loop.scan_flatMap]
      exact congrArg (Loop.scan · _ p) (funext fun idx => funext fun p => edgeStep_eq _ _ idx p)
  rw [Run.expand, hseed, Loop.scan_flatMap, foldl_namedHits]
  rfl

/-- The test after a part of the walk. -/
lemma full_foldl_flatten (hits : List (Hit S)) (first : List (List (Hit S))) :
    x.full (first.foldl (fun p hits => hits.foldl (Pools.enter x.ops) p)
      (hits.foldl (Pools.enter x.ops) {})) = false ↔
        (entries (hits ++ first.flatten)).card < x.limit := by
  rw [← foldl_flatten, ← foldl_append, Run.full, size_foldl_enter, decide_eq_false_iff_not,
    Nat.not_le]

/-- **What an expansion collects** is in its pools. -/
lemma mem_expand_iff {seeds : List (String × S)} :
    id ∈ (x.expand query seeds).get pool ↔ x.Collects query seeds pool id := by
  obtain ⟨taken, ⟨htaken, htests⟩, hmax, heq⟩ := @Loop.exists_followed _ _
    (fun p hits => hits.foldl (Pools.enter x.ops) p) x.full (x.walk seeds)
    ((x.namedHits query).foldl (Pools.enter x.ops) {})
  have hexpand : x.expand query seeds =
      (x.namedHits query ++ taken.flatten).foldl (Pools.enter x.ops) {} := by
    rw [expand_eq, foldl_append, foldl_flatten, ← heq]
    rfl
  have hempty : id ∉ ({} : Pools S).get pool := by
    cases pool <;> exact ExtTreeMap.not_mem_empty
  rw [hexpand, mem_get_foldl_enter, or_iff_left hempty]
  constructor
  · rintro ⟨hit, hhit, hpool⟩
    refine ⟨taken, ⟨htaken, fun first hfirst hne hne' => ?_⟩, hit, hhit, hpool⟩
    exact (full_foldl_flatten _ _).mp (htests first hfirst hne hne')
  · rintro ⟨other, ⟨hother, htests'⟩, hit, hhit, hpool⟩
    have hstart := hmax other ⟨hother, fun first hfirst hne hne' =>
      (full_foldl_flatten _ _).mpr (htests' first hfirst hne hne')⟩
    refine ⟨hit, ?_, hpool⟩
    rcases mem_append.mp hhit with h | h
    · exact mem_append_left _ h
    · exact mem_append_right _ (hstart.flatten.subset h)

/-- The query or the walk leads to what is collected. -/
lemma Run.Collects.exists_hit {seeds : List (String × S)} (h : x.Collects query seeds pool id) :
    ∃ hit ∈ x.namedHits query ++ (x.walk seeds).flatten, hit.pool = pool ∧ hit.id = id := by
  obtain ⟨taken, ⟨htaken, -⟩, hit, hhit, hpool⟩ := h
  refine ⟨hit, ?_, hpool⟩
  rcases mem_append.mp hhit with h | h
  · exact mem_append_left _ h
  · exact mem_append_right _ (htaken.flatten.subset h)

end Walk

/-! ## What a search returns -/

namespace Run

variable (x : Run S)

/-- The weight of a pool in the signal of a memory. -/
def boost : PoolName → S → S
  | .strong, signal => signal
  | .temporal, signal => x.ops.mul signal x.ops.half
  | .normal, signal => x.ops.mul signal x.ops.threeQuarters
  | .abstraction, signal => x.ops.mul signal x.ops.threeQuarters

/-- The signal of a memory in a pool can be heard. -/
def Audible (p : Pools S) (pool : PoolName) (id : String) : Prop :=
  ∃ signal, (p.get pool)[id]? = some signal ∧ x.ops.isAudible (x.boost pool signal) = true

/-- The memories that a search can return: the seeds, the accepted lexical matches, and what the
expansion collects. -/
def Candidate (A : GraphArith) (bm25 : Bm25Index) (query : String) (seeds : List (String × S))
    (id : String) : Prop :=
  id ∈ seeds.map Prod.fst ∨ x.allowed id ∧ id ∈ (bm25.score A x.ops query).map Prod.fst ∨
    0 < x.config.iterations ∧ ∃ pool, x.Collects query seeds pool id

end Run

section Candidates

variable {x : Run S} {pool delta : ExtTreeMap String S} {id : String}

/-- Adding signals one after the other makes an entry for each. -/
lemma mem_foldl_bump {α : Type} {O : SpreadOps S} {key : α → String} {signal : α → S} (l : List α) :
    id ∈ l.foldl (fun delta a => O.bump delta (key a) (signal a)) delta ↔
      id ∈ delta ∨ id ∈ l.map key := by
  induction l generalizing delta with
  | nil => simp
  | cons a l ih => rw [foldl_cons, ih, mem_bump, map_cons, mem_cons, or_left_comm, or_assoc]

/-- What a pool adds. -/
lemma mem_merge (boost : S → S) : id ∈ x.merge boost pool delta ↔
    id ∈ delta ∨ ∃ signal, pool[id]? = some signal ∧ x.ops.isAudible (boost signal) = true := by
  rw [Run.merge, ← foldl_filter (p := fun p : String × S => x.ops.isAudible (boost p.2)),
    mem_foldl_bump]
  refine or_congr_right (mem_map.trans ⟨?_, ?_⟩)
  · rintro ⟨p, hp, rfl⟩
    obtain ⟨hp, haudible⟩ := mem_filter.mp hp
    exact ⟨p.2, ExtTreeMap.mem_toList_iff_getElem?_eq_some.mp hp, haudible⟩
  · rintro ⟨signal, hsignal, haudible⟩
    exact ⟨(id, signal), mem_filter.mpr
      ⟨ExtTreeMap.mem_toList_iff_getElem?_eq_some.mpr hsignal, haudible⟩, rfl⟩

/-- What the pools add. -/
lemma mem_mergeAll {p : Pools S} : id ∈ x.mergeAll p delta ↔
    id ∈ delta ∨ ∃ pool, x.Audible p pool id := by
  have hpools : (∃ pool, x.Audible p pool id) ↔ x.Audible p .strong id ∨ x.Audible p .temporal id ∨
      x.Audible p .normal id ∨ x.Audible p .abstraction id := by
    constructor
    · rintro ⟨_ | _ | _ | _, h⟩ <;> tauto
    · rintro (h | h | h | h) <;> exact ⟨_, h⟩
  rw [hpools]
  simp only [Run.mergeAll, mem_merge, or_assoc]
  rfl

/-- What the lexical matches add. -/
lemma mem_addLexical {lexical : List (String × S)} :
    id ∈ x.addLexical lexical delta ↔ id ∈ delta ∨ id ∈ lexical.map Prod.fst :=
  mem_foldl_bump lexical

/-- Entering a list of seeds gives a table with just their keys. -/
lemma mem_foldl_insert {f : String × S → S} (seeds : List (String × S)) (id : String) :
    id ∈ seeds.foldl (fun (m : ExtTreeMap String S) p => m.insert p.1 (f p)) ∅ ↔
      id ∈ seeds.map Prod.fst := by
  induction seeds using reverseRecOn with
  | nil => simp
  | append_singleton seeds p ih =>
    rw [foldl_append, foldl_cons, foldl_nil, ExtTreeMap.mem_insert, ih,
      LawfulEqCmp.compare_eq_iff_eq]
    simp only [map_append, mem_append, map_cons, map_nil, mem_singleton]
    rw [or_comm, eq_comm]

/-- **What has a signal**: the seeds, the accepted lexical matches, and what can be heard of the
expansion. -/
lemma mem_deltas {A : GraphArith} {bm25 : Bm25Index} {query : String} {seeds : List (String × S)} :
    id ∈ x.deltas A bm25 query seeds ↔ id ∈ seeds.map Prod.fst ∨
      x.allowed id = true ∧ id ∈ (bm25.score A x.ops query).map Prod.fst ∨
      0 < x.config.iterations ∧ ∃ pool, x.Audible (x.expand query seeds) pool id := by
  have hlexical : id ∈ ((bm25.score A x.ops query).filter fun p => x.allowed p.1).map Prod.fst ↔
      x.allowed id = true ∧ id ∈ (bm25.score A x.ops query).map Prod.fst := by
    simp only [mem_map, mem_filter]
    constructor
    · rintro ⟨p, ⟨hp, hallowed⟩, rfl⟩
      exact ⟨hallowed, p, hp, rfl⟩
    · rintro ⟨hallowed, p, hp, rfl⟩
      exact ⟨p, ⟨hp, hallowed⟩, rfl⟩
  rw [Run.deltas]
  split
  · next hiter =>
    rw [mem_mergeAll, mem_addLexical, mem_foldl_insert, hlexical, or_assoc]
    simp only [hiter, true_and]
  · next hiter =>
    rw [mem_addLexical, mem_foldl_insert, hlexical]
    simp only [hiter, false_and, or_false]

/-- Only candidates have a signal. -/
lemma candidate_of_mem_deltas {A : GraphArith} {bm25 : Bm25Index} {query : String}
    {seeds : List (String × S)} (h : id ∈ x.deltas A bm25 query seeds) :
    x.Candidate A bm25 query seeds id := by
  refine (mem_deltas.mp h).imp_right (Or.imp_right fun ⟨hiter, pool, signal, hsignal, _⟩ =>
    ⟨hiter, pool, mem_expand_iff.mp (Grouping.mem_of_getElem? hsignal)⟩)

end Candidates

/-- The ranking has every candidate with a signal. -/
lemma map_ranking_perm (x : Run S) (A : GraphArith) (bm25 : Bm25Index) (query : String)
    (seeds : List (String × S)) :
    ((x.ranking A bm25 query seeds).map Prod.fst).Perm (x.deltas A bm25 query seeds).toList := by
  refine ((perm_insertionSort _ _).map Prod.fst).trans (Perm.of_eq ?_)
  rw [map_map]
  exact map_id _

/-- The ranking lists a memory just if it has a signal, and once. -/
lemma map_ranking (x : Run S) (A : GraphArith) (bm25 : Bm25Index) (query : String)
    (seeds : List (String × S)) :
    (((x.ranking A bm25 query seeds).map Prod.fst).map Prod.fst).Nodup ∧
      ∀ id, id ∈ ((x.ranking A bm25 query seeds).map Prod.fst).map Prod.fst ↔
        id ∈ x.deltas A bm25 query seeds := by
  have hperm := (map_ranking_perm x A bm25 query seeds).map Prod.fst
  refine ⟨hperm.nodup_iff.mpr (Grouping.nodup_toList_keys _), fun id => ?_⟩
  rw [hperm.mem_iff, ExtTreeMap.map_fst_toList_eq_keys, ExtTreeMap.mem_keys]

section Search

variable {A : GraphArith} {O : SpreadOps S} {config : SpreadingConfig S} {s : SpreadingActivation}
  {query : String} {seeds : List (String × S)} {topK : ℕ} {allow : Option (String → Bool)}

/-- A search that cuts nothing returns its ranking. -/
lemma searchRestricted_of_length_le (hseeds : seeds ≠ [])
    (hlen : (Run.ranking ⟨O, config, s.graph, allow⟩ A s.bm25 query seeds).length ≤ topK) :
    searchRestricted A O config s query seeds topK allow =
      some ((Run.ranking ⟨O, config, s.graph, allow⟩ A s.bm25 query seeds).map Prod.fst) := by
  obtain ⟨seed, hseed⟩ := exists_mem_of_ne_nil seeds hseeds
  have hranked := ((map_ranking ⟨O, config, s.graph, allow⟩ A s.bm25 query seeds).2 seed.1).mpr
    (mem_deltas.mpr (.inl (mem_map_of_mem hseed)))
  rw [searchRestricted, if_neg hseeds]
  dsimp only
  rw [take_of_length_le hlen, if_neg]
  rintro hnil
  simp [hnil] at hranked

end Search

/-! ## A short search -/

/-- Signals in thousandths; a document matches with the share of the query it has. -/
def sampleOps : SpreadOps ℤ where
  zero := 0
  half := 500
  threeQuarters := 750
  weight w := if w = F32.one then 1000 else 500
  add a b := a + b
  mul a b := a * b / 1000
  max a b := Max.max a b
  recip a := 1000000 / a
  isPos a := 0 < a
  isAudible a := 10 < a
  cmpScoreDesc a b := compare b a
  bm25 _ q d := if q.any (d.contains ·) then 1000 else 0
  queryTokens q := [q]
  lower t := t

/-- The default settings. -/
def sampleSpreading : SpreadingConfig ℤ where
  semanticAlpha := 1000
  lexicalAlpha := 300
  decay := 500
  iterations := 1
  seedHopsFrom := 10
  expansionMaxCandidates := 50
  conceptExpansion := true

set_option maxRecDepth 10000

end SpreadingActivation

end TurboMemory
