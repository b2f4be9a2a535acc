import TurboMemory.Graph.Activation

/-!
# What a search depends on

Two stores can differ and give the same answer. With concept expansion switched off, a search should
read nothing of the concepts; it still reads the memories of the concepts that the query names.

## Main results

* `SpreadingActivation.filter_seedHits` — without concept expansion, the edges of a seed lead along
  belief and time edges only.
* `SpreadingActivation.search_ignores_concepts` — stores with the same texts, the same belief and
  time edges and the same accepted memories of the named concepts give the same answer.
-/

set_option autoImplicit false

namespace TurboMemory

open MemoryGraph List

namespace MemoryGraph

/-- A belief or time edge to a memory: its kind, the memory and its weight. -/
def linkOf (g : MemoryGraph) (idx : ℕ) : Option (EdgeKind × String × F32) := do
  let edge ← g.intEdges[idx]?
  if edge.kind.supersedes ∨ edge.kind = .temporal then
    (g.memoryAt edge.target).map fun id => (edge.kind, id, edge.weight)
  else none

/-- The belief and time edges of a memory, in their order. -/
def linksOf (g : MemoryGraph) (id : String) : List (EdgeKind × String × F32) :=
  match g.interner.keyToId[memKey id]? with
  | none => []
  | some nid => (g.intAdjacency[nid]?.getD []).filterMap g.linkOf

end MemoryGraph

namespace SpreadingActivation

variable {S : Type}

namespace Run

variable (x : Run S)

/-- What a belief or time edge leads to, if it is accepted. -/
def linkHit (score : S) (link : EdgeKind × String × F32) : Option (List (Hit S)) :=
  if x.allowed link.2.1 then
    some [⟨if link.1.supersedes then .strong else .temporal, link.2.1,
      x.ops.mul (x.ops.mul score (x.ops.weight link.2.2)) x.config.decay⟩]
  else none

/-- The accepted memories that the query names are fewer than the limit. -/
def Room (query : String) : Prop := (entries (x.namedHits query)).card < x.limit

end Run

variable {x : Run S} {query : String}

/-- Without concept expansion, an edge of a seed leads to a memory just if it is a belief or time
edge. -/
lemma filter_edgeHits (hoff : x.config.conceptExpansion = false) (nid idx : ℕ) (score : S) :
    (x.edgeHits nid score idx).filter (!·.isEmpty) =
      ((x.graph.linkOf idx).bind (x.linkHit score)).toList := by
  unfold Run.edgeHits linkOf
  cases x.graph.intEdges[idx]? with
  | none => rfl
  | some edge =>
    have hhit : ∀ (pool : PoolName) (signal : S) (id : String),
        x.graph.memoryAt edge.target = some id →
        x.hitAt pool signal edge.target = if x.allowed id then [⟨pool, id, signal⟩] else [] := by
      intro pool signal id hid
      by_cases hallowed : x.allowed id = true <;>
        simp [Run.hitAt, Run.allowedAt, hid, Option.filter, hallowed]
    cases hat : x.graph.memoryAt edge.target with
    | none => simp [hat, hoff]
    | some id =>
      by_cases hsup : edge.kind.supersedes = true
      · by_cases hallowed : x.allowed id = true <;>
          simp [hat, hsup, hhit _ _ id hat, Run.linkHit, hallowed]
      · by_cases htime : edge.kind = .temporal
        · by_cases hallowed : x.allowed id = true <;>
            simp [hat, htime, hhit _ _ id hat, Run.linkHit, hallowed, EdgeKind.supersedes]
        · simp [hat, hsup, htime, hoff]

/-- Without concept expansion, the edges of a seed lead along belief and time edges only. -/
lemma filter_seedHits (hoff : x.config.conceptExpansion = false) (seed : String × S) :
    (x.seedHits seed).filter (!·.isEmpty) =
      (x.graph.linksOf seed.1).filterMap (x.linkHit seed.2) := by
  unfold Run.seedHits linksOf
  cases x.graph.interner.keyToId[memKey seed.1]? with
  | none => rfl
  | some nid =>
    cases hadj : x.graph.intAdjacency[nid]? with
    | none => simp [hadj]
    | some edges =>
      simp only [hadj, Option.getD_some, filter_flatMap, filterMap_filterMap, filter_edgeHits hoff]
      rw [filterMap_eq_flatMap_toList]

/-- With room, edges that lead nowhere can be left out of a walk. -/
lemma scan_follow_filter {p : Pools S} (hroom : x.full p = false) (l : List (List (Hit S))) :
    Loop.scan x.follow l p = Loop.scan x.follow (l.filter (!·.isEmpty)) p := by
  rw [← filterMap_eq_filter]
  refine Loop.scan_filterMap (P := fun p => x.full p = false) _ l hroom ?_ ?_ fun _ _ _ _ hgo => hgo
  · intro hits _ hnone p hp
    obtain rfl : hits = [] := by simpa [Option.guard] using hnone
    exact Prod.ext hp rfl
  · intro hits _ v hsome p _
    obtain ⟨-, rfl⟩ : _ ∧ hits = v := by simpa [Option.guard] using hsome
    rfl

/-- **Without concept expansion, an expansion that starts with room** reads the memories that the
query names and the belief and time edges of the seeds. -/
lemma expand_eq_links (hoff : x.config.conceptExpansion = false) (hroom : x.Room query)
    (seeds : List (String × S)) : x.expand query seeds =
      (Loop.scan x.follow
        ((x.expanded seeds).flatMap fun seed =>
          (x.graph.linksOf seed.1).filterMap (x.linkHit seed.2))
        ((x.namedHits query).foldl (Pools.enter x.ops) {})).2 := by
  have hstart : x.full ((x.namedHits query).foldl (Pools.enter x.ops) {}) = false :=
    (full_foldl_flatten _ []).mpr (by simpa [Run.Room] using hroom)
  rw [expand_eq, scan_follow_filter hstart, Run.walk, filter_flatMap,
    funext (filter_seedHits hoff)]

/-- **What concepts can change.** Without concept expansion, stores with the same texts, belief and
time edges give the same answer if there are no seeds, the search does not expand, or the concepts
that the query names lead to the same accepted memories in both and leave room. **Proof sketch.**
Only the expansion reads the graph. It starts with the memories that the query names and, while
there is room, follows belief and time edges only. -/
theorem search_ignores_concepts {A : GraphArith} {O : SpreadOps S} {config : SpreadingConfig S}
    {s₁ s₂ : SpreadingActivation} {query : String} {seeds : List (String × S)} {topK : ℕ}
    {allow : Option (String → Bool)} (hoff : config.conceptExpansion = false)
    (htexts : s₁.bm25 = s₂.bm25) (hlinks : ∀ id, s₁.graph.linksOf id = s₂.graph.linksOf id)
    (hnamed : seeds ≠ [] → 0 < config.iterations →
      Run.namedHits ⟨O, config, s₁.graph, allow⟩ query =
        Run.namedHits ⟨O, config, s₂.graph, allow⟩ query ∧
      Run.Room ⟨O, config, s₁.graph, allow⟩ query) :
    searchRestricted A O config s₁ query seeds topK allow =
      searchRestricted A O config s₂ query seeds topK allow := by
  by_cases hseeds : seeds = []
  · simp [searchRestricted, hseeds]
  have hdeltas : Run.deltas ⟨O, config, s₁.graph, allow⟩ A s₁.bm25 query seeds =
      Run.deltas ⟨O, config, s₂.graph, allow⟩ A s₁.bm25 query seeds := by
    by_cases hiter : 0 < config.iterations
    · obtain ⟨hsame, hroom₁⟩ := hnamed hseeds hiter
      have hroom₂ : Run.Room ⟨O, config, s₂.graph, allow⟩ query := by
        rwa [Run.Room, ← hsame]
      have hexpand : Run.expand ⟨O, config, s₁.graph, allow⟩ query seeds =
          Run.expand ⟨O, config, s₂.graph, allow⟩ query seeds := by
        rw [expand_eq_links hoff hroom₁, expand_eq_links hoff hroom₂, hsame, funext hlinks]
        rfl
      simp only [Run.deltas, hexpand]
      rfl
    · simp only [Run.deltas, if_neg hiter]
      rfl
  simp only [searchRestricted, Run.ranking, ← htexts, hdeltas]
  rfl

/-! ## A concept that the query names -/

/-- The memories `s` and `a`, in different scopes, of which `a` has concepts. -/
def sampleTagged (concepts : List String) : SpreadingActivation :=
  (({} : SpreadingActivation).addMemoryScoped sampleArith "s" "cup" [] F32.one
      (some "s")).addMemoryScoped sampleArith "a" "leaf" concepts F32.one (some "a")

/-- A search with the seed `s` and without concept expansion. -/
def searchTagged (concepts : List String) (query : String) : Option (List (String × ℤ)) :=
  searchRestricted sampleArith sampleOps
    { sampleSpreading with conceptExpansion := false } (sampleTagged concepts) query [("s", 100)] 5
    none

/-- The sample stores have no belief or time edges. -/
lemma linksOf_sampleTagged {concepts : List String}
    (h : ∀ edge ∈ (sampleTagged concepts).graph.intEdges, edge.kind = .association) (id : String) :
    (sampleTagged concepts).graph.linksOf id = [] := by
  have hnone : ∀ idx, (sampleTagged concepts).graph.linkOf idx = none := by
    intro idx
    unfold linkOf
    cases hedge : (sampleTagged concepts).graph.intEdges[idx]? with
    | none => rfl
    | some edge => simp [h edge (mem_of_getElem? hedge), EdgeKind.supersedes]
  unfold linksOf
  split
  · rfl
  · exact filterMap_eq_nil_iff.mpr fun idx _ => hnone idx

set_option maxRecDepth 10000

/-- A concept that the query does not name makes no difference, next to one that it names. -/
theorem search_ignores_concepts_unnamed :
    searchTagged ["tea", "milk"] "milk" = searchTagged ["milk"] "milk" := by
  refine search_ignores_concepts rfl rfl ?_ fun _ _ => ⟨?_, ?_⟩
  · intro id
    rw [linksOf_sampleTagged (by decide +kernel), linksOf_sampleTagged (by decide +kernel)]
  · decide +kernel
  · rw [Run.Room]
    decide +kernel

/-- The query names a concept, and its memory is found though concept expansion is off. -/
theorem named_concept_expanded :
    (sampleTagged ["tea"]).bm25 = (sampleTagged []).bm25 ∧
      (∀ edge ∈ (sampleTagged ["tea"]).graph.intEdges ++ (sampleTagged []).graph.intEdges,
        edge.kind = .association) ∧
      searchTagged ["tea"] "tea" = some [("a", 562), ("s", 0)] ∧
      searchTagged [] "tea" = some [("s", 0)] := by
  refine ⟨rfl, ?_⟩
  decide +kernel

end SpreadingActivation

end TurboMemory
