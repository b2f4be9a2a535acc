import TurboMemory.Graph.Supersession

/-!
# Learning in the cognitive graph

The operations that change what the graph has learned: edge weights, concepts, abstractions and
the vocabulary. Float arithmetic and case folding enter through `LearnArith`.

## Main results

* `MemoryGraph.Keeps` — what all of them keep: the memories, their texts and the supersessions.
* `MemoryGraph.Ok.keeps_evolveVocabulary` — no merge of concepts touches a memory.
* `MemoryGraph.Ok.grows_buildAbstractions` — neither does an abstraction, as long as no
  co-occurrence key splits into the key of a memory (`MemoryGraph.Apart`).
-/

set_option autoImplicit false

namespace TurboMemory

open List F32

/-- The arithmetic of learning. -/
structure LearnArith where
  /-- The weight after a reinforcement; the flag says that it is the first one. -/
  reinforced : F32 → Bool → F32
  /-- The weight at a time, for a half-life and the time of the last reinforcement. -/
  decayed : (now halfLife lastReinforcedAt : ℕ) → F32 → F32
  /-- The weight for a new importance factor, given the stored factor and the weights of the
  memory's edges, each with a flag that it was never reinforced. -/
  rescaled : (stored : F32) → List (F32 × Bool) → (factor : F32) → F32 → F32
  max : F32 → F32 → F32
  /-- A count divided by another one. -/
  overlap : ℕ → ℕ → F32
  atLeast : F32 → F32 → Bool
  cmpScoreDesc : F32 → F32 → Ordering
  /-- The degree above which a concept is a hub, for a fraction and the number of memories. -/
  hubThreshold : F32 → ℕ → Option ℕ
  lower : String → String

/-- The kinds of the edges whose weight follows the importance of a memory. -/
def EdgeKind.learned (kind : EdgeKind) : Bool := kind = .association ∨ kind = .temporal

/-- Map a surface form to a canonical concept, or to what that is an alias of. -/
def ConceptVocabulary.addAlias (L : LearnArith) (vocab : ConceptVocabulary)
    (surface canonical : String) : ConceptVocabulary :=
  let canonical := L.lower canonical
  vocab.insert (L.lower surface) (vocab[canonical]?.getD canonical)

namespace MemoryGraph

/-! ## Edges and concepts -/

variable (A : GraphArith) (L : LearnArith)

variable (g : MemoryGraph)

/-- Add an edge, or raise the weight of the one that is there. -/
def ensureIntEdge (source target : ℕ) (kind : EdgeKind)
    (weight : F32) (lastReinforcedAt : ℕ) : MemoryGraph :=
  let existing := (g.intAdjacency[source]?.getD []).find? fun i =>
    match g.intEdges[i]? with
    | some e => e.kind = kind ∧ e.target = target
    | none => false
  match existing with
  | some i =>
    { g with intEdges := g.intEdges.modify i fun e =>
        { e with
          weight := L.max e.weight weight
          lastReinforcedAt := max e.lastReinforcedAt lastReinforcedAt } }
  | none =>
    { g with
      intEdges := g.intEdges ++ [⟨source, target, kind, weight, lastReinforcedAt⟩]
      intAdjacency := addAdjacency g.intAdjacency source g.intEdges.length }

/-- Add concepts to a memory that is there, and nothing else. -/
def addConceptsToMemory (id : String)
    (concepts : List String) (importance : F32) : Bool × MemoryGraph :=
  match g.interner.keyToId[memKey id]? with
  | none => (false, g)
  | some memId =>
    let imp := A.importanceFactor importance
    (true, (normalizeConcepts A g.vocab concepts).foldl (fun g norm =>
      let r := g.interner.intern (conceptKey norm) ⟨.concept, norm, norm, zero⟩
      let g := ensureIntEdge L { g with interner := r.2 } memId r.1 .association imp 0
      ensureIntEdge L g r.1 memId .association imp 0) g)

/-! ## Weights -/

/-- Reinforce an edge. -/
def reinforceEdge (now : ℕ) (e : InternalEdge) : InternalEdge :=
  { e with weight := L.reinforced e.weight (e.lastReinforcedAt = 0), lastReinforcedAt := now }

/-- Strengthen the edges of a memory. Time 0 stands for never, so the clock starts at 1. -/
def reinforce (id : String) (now : ℕ) : MemoryGraph :=
  match g.interner.keyToId[memKey id]? with
  | none => g
  | some memId =>
    let now := max now 1
    let outgoing := g.intAdjacency[memId]?.getD []
    let edges := g.intEdges.zipIdx.map fun p =>
      if p.2 ∈ outgoing then reinforceEdge L now p.1 else p.1
    { g with intEdges := edges.map fun e =>
        if e.kind = .association ∧ e.target = memId then reinforceEdge L now e else e }

/-- Let the weights of reinforced edges decay. -/
def decayEdges (now halfLife : ℕ) : MemoryGraph :=
  if halfLife = 0 then g
  else
    { g with intEdges := g.intEdges.map fun e =>
        if e.lastReinforcedAt = 0 then e
        else { e with weight := L.decayed now halfLife e.lastReinforcedAt e.weight } }

/-- Rescale the edges of a memory to a new importance. -/
def reweightMemory (id : String) (newImportance : F32) : Bool × MemoryGraph :=
  match g.interner.keyToId[memKey id]? with
  | none => (false, g)
  | some memId =>
    let factor := A.importanceFactor newImportance
    let own (e : InternalEdge) : Bool :=
      (e.source = memId ∨ e.target = memId) ∧ e.kind.learned
    let weights := (g.intEdges.filter own).map fun e => (e.weight, decide (e.lastReinforcedAt = 0))
    if weights = [] then (false, g)
    else
      let stored := ((g.interner.get memId).map (·.baseImportanceFactor)).getD zero
      (true, { g with
        intEdges := g.intEdges.map fun e =>
          if own e then { e with weight := L.rescaled stored weights factor e.weight } else e
        interner := { g.interner with
          idToNode := g.interner.idToNode.modify memId fun n =>
            { n with baseImportanceFactor := factor } } })

/-! ## Abstractions -/

/-- The two parts of a key, split at its first NUL. -/
def splitPair (key : String) : String × String :=
  (String.ofList (key.toList.takeWhile (· ≠ '\x00')),
    String.ofList ((key.toList.dropWhile (· ≠ '\x00')).drop 1))

/-- The name of a concept with this key. -/
def stripConcept (key : String) : String :=
  if "concept:".toList.isPrefixOf key.toList then String.ofList (key.toList.drop 8) else key

/-- Whether a child is connected with its parent concept. -/
def hasParent (parentId : ℕ) (childKey : String) : Bool :=
  match g.interner.keyToId[childKey]? with
  | some childId => g.hasEdge childId parentId .abstraction
  | none => false

/-- Connect a child with its parent concept, unless it is connected. -/
def addChild (parentId : ℕ) (acc : ℕ × MemoryGraph) (childKey : String) : ℕ × MemoryGraph :=
  let g := acc.2
  if g.hasParent parentId childKey then acc
  else
    let name := stripConcept childKey
    let r := g.interner.intern childKey ⟨.concept, name, name, zero⟩
    let g := { g with interner := r.2 }
    (acc.1 + 2,
      (g.addIntEdge r.1 parentId .abstraction one).addIntEdge parentId r.1 .abstraction one)

/-- The name of the common parent of two concepts. -/
def parentName (coKey : String) : String :=
  let a := stripConcept (splitPair coKey).1
  let b := stripConcept (splitPair coKey).2
  if a ≤ b then a ++ "+" ++ b else b ++ "+" ++ a

/-- Put two concepts that often occur together under a common parent. -/
def abstractPair (acc : ℕ × MemoryGraph) (coKey : String) : ℕ × MemoryGraph :=
  let keys := splitPair coKey
  let a := stripConcept keys.1
  let b := stripConcept keys.2
  let parent := if a ≤ b then a ++ "+" ++ b else b ++ "+" ++ a
  let g := acc.2
  let r := g.interner.intern (conceptKey parent) ⟨.concept, parent, parent, zero⟩
  let acc := [keys.1, keys.2].foldl (addChild r.1) (acc.1, { g with interner := r.2 })
  (acc.1, { acc.2 with coOccurrence := acc.2.coOccurrence.insert coKey 0 })

/-- Build parents for the pairs of concepts that occur together often enough. -/
def buildAbstractions (threshold : ℕ) : ℕ × MemoryGraph :=
  if threshold = 0 then (0, g)
  else
    let pairs := (g.coOccurrence.toList.filter (threshold ≤ ·.2)).map Prod.fst
    pairs.foldl abstractPair (0, g)

/-! ## The vocabulary -/

/-- The number of associations of a concept. -/
def conceptDegree (concept : String) : ℕ :=
  match g.interner.keyToId[conceptKey concept]? with
  | none => 0
  | some nid => (g.intAdjacency[nid]?.getD []).countP fun i =>
    match g.intEdges[i]? with
    | some e => e.kind = .association
    | none => false

/-- The concepts of a memory node that are no abstractions, in order. -/
def baseConcepts (memId : ℕ) : List String :=
  ((g.intAdjacency[memId]?.getD []).filterMap fun i => do
    let e ← g.intEdges[i]?
    if e.kind = .association then
      let target ← g.interner.get e.target
      if target.kind = .concept ∧ '+' ∉ target.externalId.toList then some target.externalId
      else none else none).mergeSort

/-- The concepts of every memory. -/
def conceptLists : List (List String) :=
  g.interner.iter.filterMap fun n =>
    if n.2.2.kind = .memory then some (g.baseConcepts n.1) else none

/-- How often each pair of concepts occurs together. -/
def coOccurrences (lists : List (List String)) : Std.ExtTreeMap String ℕ :=
  lists.foldl (fun counts concepts => countPairs concepts counts) ∅

/-- The pairs of concepts whose memories overlap enough, the most similar first. -/
def mergeCandidates (lists : List (List String)) (threshold : F32) : List (String × String × F32) :=
  ((coOccurrences lists).toList.filterMap fun p =>
    let keys := splitPair p.1
    let a := stripConcept keys.1
    let b := stripConcept keys.2
    let union := lists.countP (a ∈ ·) + lists.countP (b ∈ ·) - p.2
    if union = 0 then none
    else
      let overlap := L.overlap p.2 union
      if L.atLeast overlap threshold then some (a, b, overlap) else none).mergeSort fun x y =>
    ((L.cmpScoreDesc x.2.2 y.2.2).then ((compare x.1 y.1).then (compare x.2.1 y.2.1))).isLE

/-- An edge of a merged concept that its new node takes over. -/
def takeOver (canonId : ℕ) (outgoing : Bool) (g : MemoryGraph) (e : InternalEdge) : MemoryGraph :=
  match g.interner.get e.source, g.interner.get e.target, e.kind, outgoing with
  | some source, some target, .association, true =>
    if source.kind = .concept ∧ target.kind = .memory then
      ensureIntEdge L g canonId e.target .association e.weight e.lastReinforcedAt else g
  | some source, some target, .abstraction, true =>
    if source.kind = .concept ∧ target.kind = .concept then
      ensureIntEdge L g canonId e.target .abstraction e.weight e.lastReinforcedAt else g
  | some source, some _, .association, false =>
    if source.kind = .memory then
      ensureIntEdge L g e.source canonId .association e.weight e.lastReinforcedAt else g
  | some source, some _, .abstraction, false =>
    if source.kind = .concept then
      ensureIntEdge L g e.source canonId .abstraction e.weight e.lastReinforcedAt else g
  | _, _, _, _ => g

/-- Give a concept node another name. -/
def renameConcept (nid : ℕ) (surface canonical : String) : MemoryGraph :=
  { g with
    interner :=
      { keyToId :=
          (g.interner.keyToId.erase (conceptKey surface)).insert (conceptKey canonical) nid
        idToKey := g.interner.idToKey.set nid (conceptKey canonical)
        idToNode := g.interner.idToNode.modify nid fun n =>
          { n with externalId := canonical, text := canonical } } }

/-- Note that a concept is an alias now. -/
def aliasAdded (surface canonical : String) : MemoryGraph :=
  { g with
    vocab := g.vocab.addAlias L surface canonical
    suppressedConcepts := g.suppressedConcepts.filter (· ≠ surface) }

/-- Merge the node of a concept into that of another one. -/
def mergeConceptNode (surface canonical : String) : Bool × MemoryGraph :=
  match g.interner.keyToId[conceptKey surface]? with
  | none => (false, g)
  | some aliasId =>
    match g.interner.keyToId[conceptKey canonical]? with
    | none => (true, (g.renameConcept aliasId surface canonical).aliasAdded L surface canonical)
    | some canonId =>
      let outgoing := (g.intAdjacency[aliasId]?.getD []).filterMap (g.intEdges[·]?)
      let incoming := g.intEdges.filter (·.target = aliasId)
      let g := outgoing.foldl (takeOver L canonId true) g
      let g := incoming.foldl (takeOver L canonId false) g
      (true, (g.dropNode (conceptKey surface) aliasId).aliasAdded L surface canonical)

/-- Merge candidates until enough were merged. -/
def mergeAll (A : GraphArith) (L : LearnArith) (maxPairs : ℕ) :
    List (String × String × F32) → ℕ → MemoryGraph → ℕ × MemoryGraph
  | [], merged, g => (merged, g)
  | (a, b, _) :: candidates, merged, g =>
    if maxPairs ≤ merged then (merged, g)
    else
      let aCanon := A.resolve g.vocab a
      let bCanon := A.resolve g.vocab b
      if aCanon = bCanon then mergeAll A L maxPairs candidates merged g
      else
        let aDeg := g.conceptDegree aCanon
        let bDeg := g.conceptDegree bCanon
        let pair := if bDeg < aDeg ∨ (aDeg = bDeg ∧ aCanon < bCanon) then (aCanon, bCanon)
          else (bCanon, aCanon)
        let r := g.mergeConceptNode L pair.2 pair.1
        mergeAll A L maxPairs candidates (if r.1 then merged + 1 else merged) r.2

/-- Suppress the concepts with too many associations. -/
def suppressHubs (hubFraction : F32) (g : MemoryGraph) : MemoryGraph :=
  match L.hubThreshold hubFraction g.memoryIds.length with
  | none => g
  | some threshold =>
    let concepts := g.interner.iter.filterMap fun n =>
      if n.2.2.kind = .concept ∧ '+' ∉ n.2.2.externalId.toList then some n.2.2.externalId else none
    let hubs := concepts.filter (threshold < g.conceptDegree ·)
    { g with suppressedConcepts := hubs.foldl (·.insert ·) g.suppressedConcepts }

/-- Merged and newly suppressed concepts, and examined pairs. -/
structure VocabularyEvolutionStats where
  merged : ℕ := 0
  suppressed : ℕ := 0
  examinedPairs : ℕ := 0
deriving DecidableEq

/-- Merge similar concepts and suppress those that are too general. -/
def evolveVocabulary
    (overlapThreshold hubFraction : F32) (maxPairs : ℕ) : VocabularyEvolutionStats × MemoryGraph :=
  if maxPairs = 0 then ({}, g)
  else
    let candidates := mergeCandidates L g.conceptLists overlapThreshold
    let r := mergeAll A L maxPairs candidates 0 g
    let g' := suppressHubs L hubFraction r.2
    let suppressed := g'.suppressedConcepts.length - r.2.suppressedConcepts.length
    (⟨r.1, suppressed, candidates.length⟩,
      { g' with coOccurrence := coOccurrences g'.conceptLists })

/-! ## What learning keeps -/

/-- The second graph is a good one with the memories of the first, their texts and their
supersessions. -/
structure Keeps (g g' : MemoryGraph) : Prop where
  ok : g'.Ok
  memories : ∀ id, g'.interner.keyToId[memKey id]? = g.interner.keyToId[memKey id]?
  texts : ∀ id nid, g.interner.keyToId[memKey id]? = some nid →
    (g'.interner.get nid).map (·.text) = (g.interner.get nid).map (·.text)
  supersessions : g'.supersessions = g.supersessions

variable {g g' g'' : MemoryGraph} {nid : ℕ} {P : MemoryGraph → Prop}
  {f : InternalEdge → InternalEdge} {coKey : String} {threshold : ℕ} {canonId : ℕ} {key : String}

/-- A graph that grows keeps its memories. -/
lemma Grows.keeps (h : g.Ok) (hgrows : Grows g g') : Keeps g g' := by
  refine { hgrows with texts := fun id nid hid => ?_ }
  obtain ⟨node, hnode, -⟩ := h.interner.exists_node hid
  rw [hnode, hgrows.nodes nid node hnode]

/-- Nothing is done. -/
lemma Ok.keeps (h : g.Ok) : Keeps g g := h.grows.keeps h

/-- One after the other. -/
lemma Keeps.trans (h : Keeps g g') (h' : Keeps g' g'') : Keeps g g'' where
  ok := h'.ok
  memories id := (h'.memories id).trans (h.memories id)
  texts id nid hid := (h'.texts id nid ((h.memories id).trans hid)).trans (h.texts id nid hid)
  supersessions := h'.supersessions.trans h.supersessions

/-- Changing weights. -/
lemma Ok.grows_reweigh (h : g.Ok) {edges : List InternalEdge}
    (hedges : Forall₂ SameEnds g.intEdges edges) : Grows g { g with intEdges := edges } :=
  ⟨(h.reweigh hedges).1, fun _ _ h => h, fun _ _ h => h, fun _ => rfl, (h.reweigh hedges).2,
    ⟨edges, [], by simp, hedges, by simp⟩, rfl⟩

/-- An edge and itself. -/
lemma sameEnds_refl (e : InternalEdge) : SameEnds e e := ⟨rfl, rfl, rfl⟩

/-- All edges and themselves. -/
lemma forall₂_sameEnds_refl (edges : List InternalEdge) : Forall₂ SameEnds edges edges :=
  forall₂_same.mpr fun e _ => sameEnds_refl e

section

variable (hf : ∀ e, SameEnds e (f e)) (edges : List InternalEdge)
include hf

/-- A change of all edges. -/
lemma forall₂_sameEnds_map : Forall₂ SameEnds edges (edges.map f) := by
  rw [forall₂_map_right_iff]
  exact forall₂_same.mpr fun e _ => hf e

/-- A change of one edge. -/
lemma forall₂_sameEnds_modify (i : ℕ) : Forall₂ SameEnds edges (edges.modify i f) := by
  rw [forall₂_iff_get]
  refine ⟨by simp, fun j hj hj' => ?_⟩
  simp only [get_eq_getElem, getElem_modify]
  split
  · exact hf _
  · exact sameEnds_refl _

end

/-- An edge that supersedes nothing is added or strengthened. -/
lemma Ok.grows_ensureIntEdge (h : g.Ok) (L : LearnArith) {source target : ℕ} (kind : EdgeKind)
    (weight : F32) (lastReinforcedAt : ℕ) (hkind : kind.supersedes = false)
    (hsource : g.interner.Live source) (htarget : g.interner.Live target) :
    Grows g (g.ensureIntEdge L source target kind weight lastReinforcedAt) := by
  rw [ensureIntEdge]
  split
  · refine h.grows_reweigh (forall₂_sameEnds_modify ?_ _ _)
    exact fun e => ⟨rfl, rfl, rfl⟩
  · have hadd := h.grows_addIntEdge kind weight hkind hsource htarget
    refine hadd.trans (hadd.ok.grows_reweigh ?_)
    exact rel_append (forall₂_sameEnds_refl _) (.cons ⟨rfl, rfl, rfl⟩ .nil)

/-- Enter a concept and connect it with a memory, where that is not done: a step of
`addConceptsToMemory`. -/
def giveConcept (memId : ℕ) (imp : F32) (g : MemoryGraph) (norm : String) : MemoryGraph :=
  let r := g.interner.intern (conceptKey norm) ⟨.concept, norm, norm, zero⟩
  let g := ensureIntEdge L { g with interner := r.2 } memId r.1 .association imp 0
  ensureIntEdge L g r.1 memId .association imp 0

/-- A known memory is given each concept. -/
lemma addConceptsToMemory_of_key {id : String}
    (hid : g.interner.keyToId[memKey id]? = some nid) (concepts : List String) (importance : F32) :
    (g.addConceptsToMemory A L id concepts importance).2 =
      (normalizeConcepts A g.vocab concepts).foldl
        (giveConcept L nid (A.importanceFactor importance)) g := by
  rw [addConceptsToMemory, hid]
  rfl

section

variable (h : g.Ok)
include h

/-- The concept that is given, and the two edges, one after the other. -/
lemma Ok.grows_giveConcept (L : LearnArith) (imp : F32)
    (hmem : g.interner.Live nid) (norm : String) : Grows g (giveConcept L nid imp g norm) := by
  have hconcept := h.grows_intern_concept norm norm zero
  have hlive := (h.interner.intern (conceptKey norm) ⟨.concept, norm, norm, zero⟩
    (InternalNode.fits_key _)).2.1
  have hfirst := hconcept.ok.grows_ensureIntEdge L .association imp 0 rfl (hconcept.live hmem)
    ⟨_, hlive⟩
  have hsecond := hfirst.ok.grows_ensureIntEdge L .association imp 0 rfl
    (hfirst.live ⟨_, hlive⟩) (hfirst.live (hconcept.live hmem))
  exact hconcept.trans (hfirst.trans hsecond)

/-- Concepts are added. -/
lemma Ok.grows_addConceptsToMemory (A : GraphArith) (L : LearnArith) (id : String)
    (concepts : List String) (importance : F32) :
    Grows g (g.addConceptsToMemory A L id concepts importance).2 := by
  cases hid : g.interner.keyToId[memKey id]? with
  | none =>
    rw [addConceptsToMemory, hid]
    exact h.grows
  | some nid =>
    rw [addConceptsToMemory_of_key A L hid]
    exact h.grows_foldl _ _ fun g' hg' norm _ =>
      hg'.ok.grows_giveConcept L _ (hg'.live ⟨_, hid⟩) norm

/-- Edges are reinforced. -/
lemma Ok.grows_reinforce (L : LearnArith) (id : String) (now : ℕ) :
    Grows g (g.reinforce L id now) := by
  have hedge : ∀ (c : Prop) [Decidable c] (e : InternalEdge),
      SameEnds e (if c then reinforceEdge L (max now 1) e else e) := by
    intro c _ e
    split <;> exact ⟨rfl, rfl, rfl⟩
  rw [reinforce]
  split
  · exact h.grows
  · next memId _ =>
    have houtgoing := h.grows_reweigh
      (forall₂_sameEnds_zipIdx (fun p => hedge (p.2 ∈ g.intAdjacency[memId]?.getD []) p.1) _)
    exact houtgoing.trans (houtgoing.ok.grows_reweigh
      (forall₂_sameEnds_map (fun e => hedge (e.kind = .association ∧ e.target = memId) e) _))

/-- Edges decay. -/
lemma Ok.grows_decayEdges (L : LearnArith) (now halfLife : ℕ) :
    Grows g (g.decayEdges L now halfLife) := by
  rw [decayEdges]
  split
  · exact h.grows
  · refine h.grows_reweigh (forall₂_sameEnds_map (fun e => ?_) _)
    split <;> exact ⟨rfl, rfl, rfl⟩

/-- Other nodes and keys, with the same memories under theirs. -/
lemma Ok.keeps_interner {t : NodeInterner} (ht : t.Ok)
    (hlive : ∀ m, g.interner.Live m → t.Live m)
    (hname : ({ g with interner := t } : MemoryGraph).memoryName = g.memoryName)
    (hmemories : ∀ id, t.keyToId[memKey id]? = g.interner.keyToId[memKey id]?)
    (htexts : ∀ id nid, g.interner.keyToId[memKey id]? = some nid →
      (t.get nid).map (·.text) = (g.interner.get nid).map (·.text)) :
    Keeps g { g with interner := t } := by
  refine ⟨⟨ht, h.adjacency, fun e he => hlive _ (h.source_live e he),
    fun e he => hlive _ (h.target_live e he), ?_⟩, hmemories, htexts, ?_⟩
  · rw [hname]
    exact h.belief
  · refine filterMap_congr fun e _ => ?_
    rw [supersession, supersession, hname]

omit h in
/-- The nodes after one of them was changed. -/
lemma getElem?_modify_eq_map (nodes : List InternalNode) (f : InternalNode → InternalNode)
    (nid m : ℕ) : (nodes.modify nid f)[m]? = nodes[m]?.map fun n => if nid = m then f n else n := by
  rw [getElem?_modify]
  split <;> simp

/-- Changing a node, but not what it stands for. -/
lemma Ok.keeps_modifyNode {f : InternalNode → InternalNode}
    (hkind : ∀ n, (f n).kind = n.kind) (hext : ∀ n, (f n).externalId = n.externalId)
    (htext : ∀ n, (f n).text = n.text) (nid : ℕ) : Keeps g { g with
      interner := { g.interner with idToNode := g.interner.idToNode.modify nid f } } := by
  refine h.keeps_interner ⟨by simp [h.interner.length_eq], h.interner.key_of_id, ?_⟩
    (fun _ hm => hm) ?_ (fun _ => rfl) ?_
  · intro m key node hkey hnode
    rw [getElem?_modify_eq_map, Option.map_eq_some_iff] at hnode
    obtain ⟨n, hn, rfl⟩ := hnode
    intro id
    rw [h.interner.fits m key n hkey hn id]
    split <;> simp [hkind, hext]
  · funext m
    simp only [memoryName, NodeInterner.get, getElem?_modify_eq_map]
    cases g.interner.idToNode[m]? with
    | none => rfl
    | some n => by_cases hm : nid = m <;> simp [hm, hkind, hext]
  · intro id m _
    simp only [NodeInterner.get, getElem?_modify_eq_map, Option.map_map]
    cases g.interner.idToNode[m]? with
    | none => rfl
    | some n => by_cases hm : nid = m <;> simp [hm, htext]

/-- A memory is reweighted. -/
lemma Ok.keeps_reweightMemory (A : GraphArith) (L : LearnArith) (id : String)
    (newImportance : F32) : Keeps g (g.reweightMemory A L id newImportance).2 := by
  rw [reweightMemory]
  split
  · exact h.keeps
  · next memId _ =>
    dsimp only
    split
    · exact h.keeps
    · have hnode := h.keeps_modifyNode
        (f := fun n => { n with baseImportanceFactor := A.importanceFactor newImportance })
        (fun _ => rfl) (fun _ => rfl) (fun _ => rfl) memId
      refine hnode.trans ((hnode.ok.grows_reweigh (forall₂_sameEnds_map (fun e => ?_) _)).keeps
        hnode.ok)
      split <;> exact ⟨rfl, rfl, rfl⟩

/-- Dropping a node that is no memory. -/
lemma Ok.keeps_dropNode (hkey : g.interner.keyToId[key]? = some nid)
    (hname : g.memoryName nid = none) : Keeps g (g.dropNode key nid) := by
  have hne : ∀ id, key ≠ memKey id := by
    rintro id rfl
    rw [h.memoryName_of_key hkey] at hname
    cases hname
  refine ⟨h.dropNode hkey, ?_, fun _ _ _ => rfl, ?_⟩
  · intro id
    simp [MemoryGraph.dropNode, Std.ExtTreeMap.getElem?_erase, hne id]
  · change (g.intEdges.filter _).filterMap g.supersession = _
    rw [supersessions, filterMap_filter]
    refine filterMap_congr fun e _ => ?_
    -- An edge at the node supersedes nothing.
    by_cases hs : e.source = nid
    · simp [supersession, hs, hname]
    · by_cases ht : e.target = nid
      · simp [supersession, ht, hname]
      · simp [hs, ht]

/-- A concept's node is no memory. -/
lemma Ok.memoryName_concept {concept : String}
    (hid : g.interner.keyToId[conceptKey concept]? = some nid) : g.memoryName nid = none := by
  obtain ⟨node, hnode, hfits⟩ := h.interner.exists_node hid
  have hkind : node.kind ≠ .memory := by
    intro hkind
    exact memKey_ne_conceptKey _ _ ((hfits node.externalId).mpr ⟨hkind, rfl⟩).symm
  simp [memoryName, hnode, hkind]

omit h in
/-- The keys after a concept was renamed. -/
lemma getElem?_keyToId_renameConcept (nid : ℕ) (old new key : String) :
    (g.renameConcept nid old new).interner.keyToId[key]? =
      if key = conceptKey new then some nid
      else if key = conceptKey old then none else g.interner.keyToId[key]? := by
  simp only [renameConcept, Std.ExtTreeMap.getElem?_insert, Std.ExtTreeMap.getElem?_erase,
    Std.LawfulEqCmp.compare_eq_iff_eq]
  simp only [eq_comm]

omit h in
/-- The nodes after a concept was renamed. -/
lemma get_renameConcept (nid : ℕ) (old new : String) (m : ℕ) :
    (g.renameConcept nid old new).interner.get m = (g.interner.get m).map fun n =>
      if nid = m then { n with externalId := new, text := new } else n :=
  getElem?_modify_eq_map _ _ nid m

variable {old new : String} (hid : g.interner.keyToId[conceptKey old]? = some nid)
include hid

/-- A concept's node is one of a concept. -/
lemma Ok.exists_concept : ∃ node, g.interner.get nid = some node ∧ node.kind = .concept := by
  have hnone := h.memoryName_concept hid
  obtain ⟨node, hnode, -⟩ := h.interner.exists_node hid
  refine ⟨node, hnode, ?_⟩
  rw [memoryName, hnode] at hnone
  cases hk : node.kind with
  | memory => simp [hk] at hnone
  | concept => rfl

/-- A renamed concept is no memory before and after. -/
lemma Ok.memoryName_renameConcept (new : String) :
    (g.renameConcept nid old new).memoryName = g.memoryName := by
  obtain ⟨node, hnode, hkind⟩ := h.exists_concept hid
  funext m
  rw [memoryName, memoryName, get_renameConcept]
  by_cases hm : nid = m
  · subst hm
    simp [hnode, hkind]
  · cases g.interner.get m <;> simp [hm]

/-- Renaming to a key that nothing has leaves a good table. -/
lemma Ok.interner_renameConcept (new : String) : (g.renameConcept nid old new).interner.Ok := by
  obtain ⟨node, hnode, hkind⟩ := h.exists_concept hid
  have hlt : nid < g.interner.idToKey.length := by
    rw [← h.interner.length_eq]
    exact (List.getElem?_eq_some_iff.mp hnode).1
  refine ⟨by simp [renameConcept, h.interner.length_eq], ?_, ?_⟩
  · intro key m hm
    rw [getElem?_keyToId_renameConcept] at hm
    simp only [renameConcept, getElem?_set]
    split at hm
    · next heq =>
      cases hm
      simp [hlt, heq]
    · split at hm
      · cases hm
      · next hold =>
        have hne : nid ≠ m := by
          rintro rfl
          exact hold (h.interner.key_injective hm hid)
        simp only [hne, if_false]
        exact h.interner.key_of_id key m hm
  · intro m key n hkey hn
    change (g.renameConcept nid old new).interner.get m = some n at hn
    rw [get_renameConcept, Option.map_eq_some_iff] at hn
    obtain ⟨n', hn', rfl⟩ := hn
    simp only [renameConcept, getElem?_set] at hkey
    by_cases hm : nid = m
    · subst hm
      cases hnode.symm.trans hn'
      simp only [if_true, hlt, Option.some.injEq] at hkey
      intro id
      simp [← hkey, hkind, (memKey_ne_conceptKey id new).symm]
    · simp only [hm, if_false] at hkey ⊢
      exact h.interner.fits m key n' hkey hn'

variable (hnew : g.interner.keyToId[conceptKey new]? = none)
include hnew

omit h in
/-- Every node keeps a key. -/
lemma live_renameConcept {m : ℕ} (hlive : g.interner.Live m) :
    (g.renameConcept nid old new).interner.Live m := by
  obtain ⟨key, hkey⟩ := hlive
  by_cases hold : key = conceptKey old
  · subst hold
    cases hid.symm.trans hkey
    exact ⟨conceptKey new, by simp [getElem?_keyToId_renameConcept]⟩
  · have hne : key ≠ conceptKey new := by
      rintro rfl
      rw [hnew] at hkey
      cases hkey
    exact ⟨key, by simp [getElem?_keyToId_renameConcept, hold, hne, hkey]⟩

/-- A concept takes a key that nothing has. -/
lemma Ok.keeps_renameConcept : Keeps g (g.renameConcept nid old new) := by
  refine h.keeps_interner (t := (g.renameConcept nid old new).interner)
    (h.interner_renameConcept hid new) (fun m => live_renameConcept hid hnew)
    (h.memoryName_renameConcept hid new) ?_ ?_
  · intro id
    simp [getElem?_keyToId_renameConcept, memKey_ne_conceptKey]
  · intro id m hm
    have hne : nid ≠ m := by
      rintro rfl
      exact memKey_ne_conceptKey _ _ (h.interner.key_injective hm hid)
    rw [get_renameConcept]
    simp [hne]

end

/-- The vocabulary gets an alias. -/
lemma Keeps.aliasAdded (h : Keeps g g') (L : LearnArith) (old new : String) :
    Keeps g (g'.aliasAdded L old new) := { h with ok := { h.ok with } }

section

variable (h : g.Ok) (L : LearnArith) (hcanon : g.interner.Live canonId) (outgoing : Bool)
include h hcanon

/-- Taking over an edge of the graph. -/
lemma Ok.grows_takeOver {e : InternalEdge}
    (hsource : g.interner.Live e.source) (htarget : g.interner.Live e.target) :
    Grows g (takeOver L canonId outgoing g e) := by
  unfold takeOver
  split
  · split
    · exact h.grows_ensureIntEdge L _ _ _ rfl hcanon htarget
    · exact h.grows
  · split
    · exact h.grows_ensureIntEdge L _ _ _ rfl hcanon htarget
    · exact h.grows
  · split
    · exact h.grows_ensureIntEdge L _ _ _ rfl hsource hcanon
    · exact h.grows
  · split
    · exact h.grows_ensureIntEdge L _ _ _ rfl hsource hcanon
    · exact h.grows
  · exact h.grows

/-- Taking over edges of the graph. -/
lemma Ok.grows_takeOver_foldl (edges : List InternalEdge)
    (hedges : ∀ e ∈ edges, g.interner.Live e.source ∧ g.interner.Live e.target) :
    Grows g (edges.foldl (takeOver L canonId outgoing) g) := by
  refine h.grows_foldl _ _ fun g' hg' e he => ?_
  exact hg'.ok.grows_takeOver L (hg'.live hcanon) outgoing (hg'.live (hedges e he).1)
    (hg'.live (hedges e he).2)

end

/-- A concept is merged into another. -/
lemma Ok.keeps_mergeConceptNode (h : g.Ok) (L : LearnArith) (old new : String) :
    Keeps g (g.mergeConceptNode L old new).2 := by
  rw [mergeConceptNode]
  split
  · exact h.keeps
  · next oldId hold =>
    split
    · next hnew => exact (h.keeps_renameConcept hold hnew).aliasAdded L old new
    · next newId hnew =>
      have hlive : ∀ e ∈ g.intEdges, g.interner.Live e.source ∧ g.interner.Live e.target :=
        fun e he => ⟨h.source_live e he, h.target_live e he⟩
      have houtgoing := h.grows_takeOver_foldl L ⟨_, hnew⟩ true
        ((g.intAdjacency[oldId]?.getD []).filterMap (g.intEdges[·]?)) fun e he => by
          obtain ⟨i, -, hi⟩ := mem_filterMap.mp he
          exact hlive e (mem_of_getElem? hi)
      have hincoming := houtgoing.ok.grows_takeOver_foldl L (houtgoing.live ⟨_, hnew⟩) false
        (g.intEdges.filter (·.target = oldId)) fun e he =>
          (hlive e (mem_filter.mp he).1).imp houtgoing.live houtgoing.live
      have hall := houtgoing.trans hincoming
      have hkey := hall.keys _ _ hold
      have hdrop := hall.ok.keeps_dropNode hkey (hall.ok.memoryName_concept hkey)
      exact ((hall.keeps h).trans hdrop).aliasAdded L old new

/-- What every merge keeps. The names that are merged are those of a candidate, resolved. -/
lemma mergeAll_induction (A : GraphArith) (L : LearnArith) (maxPairs : ℕ)
    (candidates : List (String × String × F32)) (merged : ℕ) (h : P g)
    (hstep : ∀ g', P g' → ∀ c ∈ candidates, ∀ old new,
      old ∈ [A.resolve g'.vocab c.1, A.resolve g'.vocab c.2.1] →
      new ∈ [A.resolve g'.vocab c.1, A.resolve g'.vocab c.2.1] →
      P (g'.mergeConceptNode L old new).2) : P (mergeAll A L maxPairs candidates merged g).2 := by
  induction candidates generalizing g merged with
  | nil => exact h
  | cons c candidates ih =>
    have hrest := fun g' hg' d hd => hstep g' hg' d (mem_cons_of_mem c hd)
    obtain ⟨a, b, o⟩ := c
    rw [mergeAll]
    split
    · exact h
    · dsimp only
      split
      · exact ih merged h hrest
      · refine ih _ (hstep g h _ mem_cons_self _ _ ?_ ?_) hrest <;> split <;> simp

/-- Several are. -/
lemma Ok.keeps_mergeAll (h : g.Ok) (A : GraphArith) (L : LearnArith) (maxPairs : ℕ)
    (candidates : List (String × String × F32)) (merged : ℕ) :
    Keeps g (mergeAll A L maxPairs candidates merged g).2 :=
  mergeAll_induction A L maxPairs candidates merged h.keeps fun _ hg' _ _ old new _ _ =>
    hg'.trans (hg'.ok.keeps_mergeConceptNode L old new)

/-- All that overlap are. -/
lemma Ok.keeps_evolveVocabulary (h : g.Ok) (A : GraphArith) (L : LearnArith)
    (overlapThreshold hubFraction : F32) (maxPairs : ℕ) :
    Keeps g (g.evolveVocabulary A L overlapThreshold hubFraction maxPairs).2 := by
  rw [evolveVocabulary]
  split
  · exact h.keeps
  · have hmerged := h.keeps_mergeAll A L maxPairs
      (mergeCandidates L g.conceptLists overlapThreshold) 0
    have hhubs : ∀ g', Keeps g g' → Keeps g (suppressHubs L hubFraction g') := by
      intro g' hg'
      rw [suppressHubs]
      split <;> exact { hg' with ok := { hg'.ok with } }
    have hkeeps := hhubs _ hmerged
    exact { hkeeps with ok := { hkeeps.ok with } }

/-! ## Abstractions and keys -/

/-- No part of the key of a pair is the key of a memory. A part can be one only when the name of
a concept has a NUL. -/
def Apart (coKey : String) : Prop :=
  ∀ id, (splitPair coKey).1 ≠ memKey id ∧ (splitPair coKey).2 ≠ memKey id

/-- Entering a concept under a key that is no memory's. -/
lemma Ok.grows_intern (h : g.Ok) (node : InternalNode)
    (hkind : node.kind = .concept) (hkey : ∀ id, key ≠ memKey id) :
    Grows g { g with interner := (g.interner.intern key node).2 } := by
  have hfits : node.Fits key := fun id => by simp [hkind, hkey id]
  obtain ⟨hok, -, hother, hkeys, hget⟩ := h.interner.intern key node hfits
  obtain ⟨hok', hsup⟩ := h.extend hok hkeys hget
  exact ⟨hok', hkeys, hget, fun id => hother _ (hkey id).symm, hsup, edgesGrow_refl _, rfl⟩

/-- An abstraction gets a child. -/
lemma grows_addChild (acc : ℕ × MemoryGraph) (h : acc.2.Ok) {parentId : ℕ}
    (hparent : acc.2.interner.Live parentId) {childKey : String}
    (hkey : ∀ id, childKey ≠ memKey id) : Grows acc.2 (addChild parentId acc childKey).2 := by
  rw [addChild]
  dsimp only
  split
  · exact h.grows
  · have hchild := h.grows_intern ⟨.concept, stripConcept childKey, stripConcept childKey,
      zero⟩ rfl hkey
    have hfits : InternalNode.Fits ⟨.concept, stripConcept childKey, stripConcept childKey,
        zero⟩ childKey := fun id => by simp [hkey id]
    have hlive := (h.interner.intern childKey _ hfits).2.1
    have hup := hchild.ok.grows_addIntEdge .abstraction one rfl ⟨_, hlive⟩
      (hchild.live hparent)
    have hdown := hup.ok.grows_addIntEdge .abstraction one rfl (hchild.live hparent)
      ⟨_, hlive⟩
    exact hchild.trans (hup.trans hdown)

/-- A parent is entered, then its children. -/
lemma abstractPair_induction (n : ℕ) (g : MemoryGraph)
    (hcount : ∀ g', P g' → P { g' with coOccurrence := g'.coOccurrence.insert coKey 0 })
    (h : ∀ parent, parentName coKey = parent →
      let r := g.interner.intern (conceptKey parent) ⟨.concept, parent, parent, zero⟩
      P (addChild r.1 (addChild r.1 (n, { g with interner := r.2 }) (splitPair coKey).1)
        (splitPair coKey).2).2) : P (abstractPair (n, g) coKey).2 :=
  hcount _ (h (parentName coKey) rfl)

/-- A pair of concepts gets an abstraction. -/
lemma Ok.grows_abstractPair (h : g.Ok) (n : ℕ) (hapart : Apart coKey) :
    Grows g (abstractPair (n, g) coKey).2 := by
  refine abstractPair_induction n g (fun _ hg' => { hg' with ok := { hg'.ok with } })
    fun parent _ => ?_
  have hparent := h.grows_intern_concept parent parent zero
  have hlive := (h.interner.intern (conceptKey parent) ⟨.concept, parent, parent, zero⟩
    (InternalNode.fits_key _)).2.1
  have hfirst := grows_addChild (n, _) hparent.ok ⟨_, hlive⟩ fun id => (hapart id).1
  have hsecond := grows_addChild _ hfirst.ok (hfirst.live ⟨_, hlive⟩) fun id => (hapart id).2
  exact hparent.trans (hfirst.trans hsecond)

/-- The keys of the pairs that occur together often enough. -/
lemma mem_frequentPairs
    (hmem : coKey ∈ (g.coOccurrence.toList.filter (threshold ≤ ·.2)).map Prod.fst) :
    ∃ count, g.coOccurrence[coKey]? = some count ∧ threshold ≤ count := by
  obtain ⟨⟨key, count⟩, hp, rfl⟩ := mem_map.mp hmem
  obtain ⟨hmem, hle⟩ := mem_filter.mp hp
  exact ⟨count, Std.ExtTreeMap.mem_toList_iff_getElem?_eq_some.mp hmem, of_decide_eq_true hle⟩

/-- Abstractions are built from the pairs that occur together often enough. -/
lemma buildAbstractions_induction (h : P g)
    (hstep : threshold ≠ 0 → ∀ coKey count, g.coOccurrence[coKey]? = some count →
      threshold ≤ count → ∀ n g', P g' → P (abstractPair (n, g') coKey).2) :
    P (g.buildAbstractions threshold).2 := by
  rw [buildAbstractions]
  split
  · exact h
  · next hne =>
    refine Loop.foldl_induction (P := fun acc : ℕ × MemoryGraph => P acc.2) _ h
      fun coKey hmem acc hacc => ?_
    obtain ⟨count, hget, hle⟩ := mem_frequentPairs hmem
    exact hstep hne coKey count hget hle acc.1 acc.2 hacc

/-- All frequent pairs do. -/
lemma Ok.grows_buildAbstractions_frequent (h : g.Ok) (threshold : ℕ)
    (hapart : threshold ≠ 0 → ∀ coKey count, g.coOccurrence[coKey]? = some count →
      threshold ≤ count → Apart coKey) : Grows g (g.buildAbstractions threshold).2 :=
  buildAbstractions_induction h.grows fun hne coKey count hget hle n _ hg' =>
    hg'.trans (hg'.ok.grows_abstractPair n (hapart hne coKey count hget hle))

/-- No key splits into the key of a memory. -/
lemma Ok.grows_buildAbstractions (h : g.Ok) (threshold : ℕ)
    (hapart : ∀ coKey ∈ g.coOccurrence, Apart coKey) : Grows g (g.buildAbstractions threshold).2 :=
  h.grows_buildAbstractions_frequent threshold fun _ coKey _ hget _ =>
    hapart coKey (Std.ExtTreeMap.mem_iff_isSome_getElem?.mpr (by simp [hget]))

end MemoryGraph

end TurboMemory
