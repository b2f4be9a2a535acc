import TurboMemory.Graph.Snapshot

/-!
# Runs of the cognitive graph

The public operations of the graph, taken in any order from the empty graph, and what holds of the
graphs they lead to.

## Main results

* `GraphOp.ok_apply`, `MemoryGraph.Reachable.ok` — every reachable graph is a good one.
* `MemoryGraph.beliefs_survive_iff` — the belief answers about a memory survive saving, loading and
  compaction just if, along the chain, the supersession entered last is the one that sorts last,
  and all floats are finite.
-/

set_option autoImplicit false

namespace TurboMemory

/-- The operations that change a graph. `setVocab` are changes to the vocabulary by the caller;
`reload` and `reloadJson` a save followed by a load, where a JSON text may change floats. -/
inductive GraphOp
  | addMemoryScoped (id text : String) (concepts : List String) (importance : F32)
      (scope : Option String)
  | addConceptsToMemory (id : String) (concepts : List String) (importance : F32)
  | removeMemory (id : String)
  | reinforce (id : String) (now : ℕ)
  | decayEdges (now halfLife : ℕ)
  | reweightMemory (id : String) (newImportance : F32)
  | buildAbstractions (threshold : ℕ)
  | evolveVocabulary (overlapThreshold hubFraction : F32) (maxPairs : ℕ)
  | setVocab (vocab : ConceptVocabulary)
  | addRefinement (oldId newId : String) (weight : F32)
  | addContradiction (oldId newId : String) (weight : F32) (weaken : F32 → F32)
  | compact
  | reload
  | reloadJson (f : F32 → F32)

namespace GraphOp

/-- The graph after an operation. -/
def apply (A : GraphArith) (L : LearnArith) (g : MemoryGraph) : GraphOp → MemoryGraph
  | addMemoryScoped id text concepts importance scope =>
    g.addMemoryScoped A id text concepts importance scope
  | addConceptsToMemory id concepts importance =>
    (g.addConceptsToMemory A L id concepts importance).2
  | removeMemory id => g.removeMemory id
  | reinforce id now => g.reinforce L id now
  | decayEdges now halfLife => g.decayEdges L now halfLife
  | reweightMemory id newImportance => (g.reweightMemory A L id newImportance).2
  | buildAbstractions threshold => (g.buildAbstractions threshold).2
  | evolveVocabulary overlapThreshold hubFraction maxPairs =>
    (g.evolveVocabulary A L overlapThreshold hubFraction maxPairs).2
  | setVocab vocab => { g with vocab := vocab }
  | addRefinement oldId newId weight => (g.addRefinement oldId newId weight).2
  | addContradiction oldId newId weight weaken => (g.addContradiction oldId newId weight weaken).2
  | compact => g.compact
  | reload => g.reload
  | reloadJson f => MemoryGraph.fromLegacy (g.compact.toLegacy.mapFloats f)

/-- No abstraction is built from a co-occurrence key that splits into the key of a memory. -/
def Apart (g : MemoryGraph) : GraphOp → Prop
  | buildAbstractions _ => ∀ coKey ∈ g.coOccurrence, MemoryGraph.Apart coKey
  | _ => True

variable {g : MemoryGraph}

/-- An operation keeps a graph good. -/
lemma ok_apply (A : GraphArith) (L : LearnArith) (h : g.Ok) (op : GraphOp) (hop : op.Apart g) :
    (op.apply A L g).Ok := by
  cases op with
  | addMemoryScoped id text concepts importance scope => exact h.addMemoryScoped A ..
  | addConceptsToMemory id concepts importance => exact (h.grows_addConceptsToMemory A L ..).ok
  | removeMemory id => exact h.removeMemory id
  | reinforce id now => exact (h.grows_reinforce L id now).ok
  | decayEdges now halfLife => exact (h.grows_decayEdges L now halfLife).ok
  | reweightMemory id newImportance => exact (h.keeps_reweightMemory A L ..).ok
  | buildAbstractions threshold => exact (h.grows_buildAbstractions threshold hop).ok
  | evolveVocabulary overlapThreshold hubFraction maxPairs =>
    exact (h.keeps_evolveVocabulary A L ..).ok
  | setVocab vocab =>
    exact { h with }
  | addRefinement oldId newId weight =>
    rcases h.addRefinement_spec oldId newId weight with ⟨heq, -⟩ | ⟨g', heq, hentered⟩
    · rw [apply, heq]
      exact h
    · rw [apply, heq]
      exact hentered.ok
  | addContradiction oldId newId weight weaken =>
    rcases h.addContradiction_spec oldId newId weight weaken with ⟨heq, -⟩ | ⟨g', heq, hentered⟩
    · rw [apply, heq]
      exact h
    · rw [apply, heq]
      exact hentered.ok
  | compact => exact h.resorted_compact.ok
  | reload => exact h.reloaded.ok
  | reloadJson f => exact (h.resorted_compact.loadJson f).ok

end GraphOp

namespace MemoryGraph

/-- The graphs that the operations lead to from the empty one. -/
inductive Reachable (A : GraphArith) (L : LearnArith) : MemoryGraph → Prop
  | new : Reachable A L {}
  | step {g : MemoryGraph} (h : Reachable A L g) (op : GraphOp) (hop : op.Apart g) :
      Reachable A L (op.apply A L g)

variable {A : GraphArith} {L : LearnArith} {g : MemoryGraph}

/-- Every reachable graph is a good one. -/
lemma Reachable.ok (h : Reachable A L g) : g.Ok := by
  induction h with
  | new => exact ok_empty
  | step _ op hop ih => exact op.ok_apply A L ih hop

/-- The answers about a memory are the same after a save and a load, in both formats, and after
the graph is compacted. -/
structure BeliefsSurvive (J : JsonCodec) (g : MemoryGraph) (id : String) : Prop where
  snapshot : ∀ C, ∃ g', fromSnapshotBytes C (g.toSnapshotBytes C) = .ok g' ∧ SameBeliefs g g' id
  json : ∃ g', fromJson J (g.toJson J) = some g' ∧ SameBeliefs g g' id
  compact : SameBeliefs g g.compact id

/-- **Which belief answers survive persistence.** All three ways sort the edges, so the answers stay
the same just if, along the chain of the memory, the supersession entered last sorts last; the JSON
text is read only if all floats are finite. **Proof sketch.** Each way leads to a graph with the
same supersessions, sorted (`Ok.reloaded`, `Ok.resorted_compact`, `Resorted.loadJson`):
`Resorted.sameBeliefs_iff`. -/
theorem beliefs_survive_iff (h : Reachable A L g) (J : JsonCodec) {text : String}
    (hjson : J.Reads g.compact.toLegacy text) (id : String) :
    BeliefsSurvive J g id ↔ SortsLast g.supersessions id ∧ g.FloatsFinite := by
  have hcompact := h.ok.resorted_compact
  have hread : fromJson J (g.toJson J) = (J.fromStr text).map fromLegacy := by
    rw [fromJson, toJson, hjson.written, Option.getD_some]
  have hfinite : g.compact.toLegacy.Finite ↔ g.FloatsFinite :=
    hcompact.ok.finite_toLegacy_iff.trans floatsFinite_compact_iff
  constructor
  · intro hsurvive
    refine ⟨(hcompact.sameBeliefs_iff h.ok id).mp hsurvive.compact, ?_⟩
    by_contra hnot
    obtain ⟨g', hload, -⟩ := hsurvive.json
    rw [hread, hjson.null (mt hfinite.mp hnot)] at hload
    cases hload
  · rintro ⟨hsorts, hfin⟩
    obtain ⟨f, hf⟩ := hjson.finite (hfinite.mpr hfin)
    exact ⟨fun C => ⟨_, fromSnapshotBytes_toSnapshotBytes C g,
        (h.ok.reloaded.toResorted.sameBeliefs_iff h.ok id).mpr hsorts⟩,
      ⟨_, by rw [hread, hf]; rfl, ((hcompact.loadJson f).sameBeliefs_iff h.ok id).mpr hsorts⟩,
      (hcompact.sameBeliefs_iff h.ok id).mpr hsorts⟩

/-! ## Two short runs -/

/-- Arithmetic for runs in which every importance is `1.0`. -/
def sampleArith : GraphArith where
  importanceFactor x := x
  halve _ := ⟨0x3F000000⟩
  resolve vocab s := vocab[s]?.getD s
  tokenize s := [s]

/-- Arithmetic for runs in which nothing is learned. -/
def sampleLearnArith : LearnArith where
  reinforced w _ := w
  decayed _ _ _ w := w
  rescaled _ _ _ w := w
  max _ w := w
  overlap _ _ := F32.zero
  atLeast _ _ := false
  cmpScoreDesc _ _ := .eq
  hubThreshold _ _ := none
  lower s := s

/-- The graph after operations on the empty one. -/
def sampleGraph (ops : List GraphOp) : MemoryGraph :=
  ops.foldl (GraphOp.apply sampleArith sampleLearnArith) {}

/-- A sample of any operations is reachable. -/
lemma reachable_sampleGraph (ops : List GraphOp) (hops : ∀ g, ∀ op ∈ ops, op.Apart g) :
    Reachable sampleArith sampleLearnArith (sampleGraph ops) := by
  induction ops using List.reverseRecOn with
  | nil => exact .new
  | append_singleton ops op ih =>
    rw [sampleGraph, List.foldl_append]
    exact (ih fun g o ho => hops g o (List.mem_append_left _ ho)).step op
      (hops _ op (List.mem_append_right _ (List.mem_singleton_self op)))

/-- Three memories without concepts, and supersessions between them. -/
def sampleOps (pairs : List (String × String)) : List GraphOp :=
  (["a", "b", "c"].map fun id => .addMemoryScoped id id [] F32.one none) ++
    pairs.map fun p => .addRefinement p.1 p.2 F32.one

/-- So is one of supersessions. -/
lemma reachable_sampleOps (pairs : List (String × String)) :
    Reachable sampleArith sampleLearnArith (sampleGraph (sampleOps pairs)) := by
  refine reachable_sampleGraph _ fun g op hop => ?_
  rcases List.mem_append.mp hop with hop | hop
  · obtain ⟨id, -, rfl⟩ := List.mem_map.mp hop
    trivial
  · obtain ⟨p, -, rfl⟩ := List.mem_map.mp hop
    trivial

/-- A JSON library that reads one graph. -/
def sampleJson (l : LegacyMemoryGraph) (text : String) : JsonCodec where
  toStringPretty _ := some text
  fromStr s := if s = text then some (l.mapFloats id) else none

set_option maxRecDepth 10000

/-- The graph in which `b` refines `a`, and then `c` refines `b`. -/
def chainGraph : MemoryGraph := sampleGraph (sampleOps [("a", "b"), ("b", "c")])

/-- The answers about `a` survive in a chain. -/
theorem beliefs_survive_chain :
    BeliefsSurvive (sampleJson chainGraph.compact.toLegacy "\x7b\x7d") chainGraph "a" ∧
      chainGraph.beliefLineage "a" = ["a", "b", "c"] := by
  have hreach : Reachable sampleArith sampleLearnArith chainGraph := reachable_sampleOps _
  have hfin : chainGraph.FloatsFinite := ⟨by decide +kernel, by decide +kernel⟩
  have hfinite : chainGraph.compact.toLegacy.Finite :=
    hreach.ok.resorted_compact.ok.finite_toLegacy_iff.mpr (floatsFinite_compact_iff.mpr hfin)
  have hpairs : chainGraph.supersessions = [("a", "b"), ("b", "c")] := by decide +kernel
  have hsorts : SortsLast chainGraph.supersessions "a" := by
    rw [hpairs]
    exact ⟨.step rfl rfl (by decide) (.step rfl rfl (by decide)
      (.stop (by rintro m ⟨⟩) (by rintro m ⟨⟩))),
      fun _ _ => .stop (by rintro m ⟨⟩) (by rintro m ⟨⟩)⟩
  have hreads : (sampleJson chainGraph.compact.toLegacy "\x7b\x7d").Reads
      chainGraph.compact.toLegacy "\x7b\x7d" :=
    ⟨rfl, fun _ => ⟨id, rfl⟩, fun hnot => absurd hfinite hnot⟩
  exact ⟨(beliefs_survive_iff hreach _ hreads "a").mpr ⟨hsorts, hfin⟩, by decide +kernel⟩

/-- The graph in which `c` refines `a`, and after that `b` does. -/
def forkGraph : MemoryGraph := sampleGraph (sampleOps [("a", "c"), ("a", "b")])

/-- **A save and a load change the answer.** The latest memory that supersedes `a` is `b`;
afterwards, and after the graph is compacted, it is `c`. -/
theorem belief_head_fork : Reachable sampleArith sampleLearnArith forkGraph ∧
    forkGraph.beliefHead "a" = "b" ∧ forkGraph.compact.beliefHead "a" = "c" ∧
    ∃ g', fromSnapshotBytes bincodeSnapshot (forkGraph.toSnapshotBytes bincodeSnapshot) = .ok g' ∧
      g'.beliefHead "a" = "c" :=
  ⟨reachable_sampleOps _, by decide +kernel, by decide +kernel, _,
    fromSnapshotBytes_toSnapshotBytes _ _, by decide +kernel⟩

end MemoryGraph

end TurboMemory
