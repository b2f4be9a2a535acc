import TurboMemory.Graph.Runs
import TurboMemory.Lib.Traces

/-!
# Saving and loading keeps the graph

Both saved forms of a graph drop the places of removed nodes and sort the edges. What they keep is
said in terms of keys: the nodes, the edges between them, the vocabulary and the counts. The JSON
form names the ends of an edge by kind and name, not by key, so it needs nodes whose key is made of
the two (`MemoryGraph.Keyed`). That a JSON text is read as it was written is a premise on the one
text.

## Main results

* `MemoryGraph.Ok.keyEdges_reload`, `MemoryGraph.Ok.keyEdges_fromLegacy` — both forms list the
  edges in the order of `MemoryGraph.compact`.
* `MemoryGraph.toSnapshot_reload` — a loaded graph is saved as before.
* `MemoryGraph.Ok.roundTrips` — a good graph with its nodes under their own keys survives.
* `GraphOp.roundTrips_throughout` — the same for every graph of a run.
-/

set_option autoImplicit false

namespace TurboMemory

open Option MemoryGraph NodeInterner

/-- The text of an identifier is the key of the node. -/
lemma InternalNode.asStr_nodeId (n : InternalNode) : n.nodeId.asStr = n.key := by
  obtain ⟨kind, externalId, text, factor⟩ := n
  cases kind <;> rfl

variable {key : String} {nodes : List (String × InternalNode)} {nid : ℕ} {node : InternalNode}
  {e : InternalEdge} {coKey : String}

namespace NodeInterner

variable {t : NodeInterner}

/-- The key of every node, current or not, is made of its kind and its name. -/
def Keyed (t : NodeInterner) : Prop := t.idToNode.map InternalNode.key = t.idToKey

/-- A node is interned under its own key. -/
lemma Keyed.intern (h : t.Keyed) (hnode : node.key = key) : (t.intern key node).2.Keyed := by
  rw [NodeInterner.intern]
  split
  · exact h
  · rw [Keyed, List.map_append, h, List.map_singleton, hnode]

/-- Changing a node, but not its kind and its name. -/
lemma Keyed.modify (h : t.Keyed) {f : InternalNode → InternalNode}
    (hf : ∀ n, (f n).key = n.key) (nid : ℕ) :
    ({ t with idToNode := t.idToNode.modify nid f } : NodeInterner).Keyed := by
  refine (List.ext_getElem? fun m => ?_).trans h
  rw [List.getElem?_map, List.getElem?_modify, List.getElem?_map]
  by_cases hm : nid = m <;> cases t.idToNode[m]? <;> simp [hm, hf]

/-- A node that is known by its key. -/
lemma Keyed.key_eq (h : t.Keyed)
    (hkey : t.idToKey[nid]? = some key) (hnode : t.get nid = some node) : node.key = key := by
  change t.idToNode[nid]? = some node at hnode
  rw [← h, List.getElem?_map, hnode] at hkey
  exact some.inj hkey

end NodeInterner

namespace MemoryGraph

variable {g g' : MemoryGraph}

/-! ## Keys -/

/-- The key of every node is made of its kind and its name. -/
def Keyed (g : MemoryGraph) : Prop := g.interner.Keyed

/-- A memory is added. -/
lemma Keyed.addMemoryScoped (h : g.Keyed) (A : GraphArith) (id text : String)
    (concepts : List String) (importance : F32) (scope : Option String) :
    (g.addMemoryScoped A id text concepts importance scope).Keyed := by
  have hmemory : (g.internMemory id text (A.importanceFactor importance)).Keyed := h.intern rfl
  refine addMemoryScoped_induction scope hmemory (fun _ _ _ hg' => Keyed.intern hg' rfl)
    (fun _ hg' => hg') (fun _ _ _ hg' => hg') fun g' prev hg' => ?_
  rw [chain]
  split <;> exact hg'

/-- Edges are no nodes. -/
lemma interner_ensureIntEdge (L : LearnArith) (g : MemoryGraph) (source target : ℕ)
    (kind : EdgeKind) (weight : F32) (lastReinforcedAt : ℕ) :
    (g.ensureIntEdge L source target kind weight lastReinforcedAt).interner = g.interner := by
  rw [ensureIntEdge]
  split <;> rfl

section

variable (h : g.Keyed) (A : GraphArith) (L : LearnArith) (id : String)
include h

/-- Concepts are added. -/
lemma Keyed.addConceptsToMemory
    (concepts : List String) (importance : F32) :
    (g.addConceptsToMemory A L id concepts importance).2.Keyed := by
  rw [MemoryGraph.addConceptsToMemory]
  split
  · exact h
  · refine Loop.foldl_induction _ h fun norm _ g' hg' => ?_
    rw [Keyed, interner_ensureIntEdge, interner_ensureIntEdge]
    exact Keyed.intern hg' rfl

/-- A memory is reweighted. -/
lemma Keyed.reweightMemory
    (newImportance : F32) : (g.reweightMemory A L id newImportance).2.Keyed := by
  rw [MemoryGraph.reweightMemory]
  split
  · exact h
  · dsimp only
    split
    · exact h
    · have hsame : ∀ n : InternalNode, InternalNode.key
          { n with baseImportanceFactor := A.importanceFactor newImportance } = n.key :=
        fun _ => rfl
      exact Keyed.modify h hsame _

end

/-! ## Abstractions under their own keys -/

/-- Both parts of the key of a pair are keys of concepts. They always are when no name of a concept
has a NUL. -/
def Tidy (coKey : String) : Prop :=
  conceptKey (stripConcept (splitPair coKey).1) = (splitPair coKey).1 ∧
    conceptKey (stripConcept (splitPair coKey).2) = (splitPair coKey).2

instance (coKey : String) : Decidable (Tidy coKey) :=
  inferInstanceAs (Decidable (_ ∧ _))

/-- Keys of concepts are no keys of memories. -/
lemma Tidy.apart (h : Tidy coKey) : Apart coKey := fun id =>
  ⟨fun heq => memKey_ne_conceptKey id _ (heq.symm.trans h.1.symm),
    fun heq => memKey_ne_conceptKey id _ (heq.symm.trans h.2.symm)⟩

/-- An abstraction gets a child. -/
lemma keyed_addChild (acc : ℕ × MemoryGraph) (h : acc.2.Keyed) (parentId : ℕ) {childKey : String}
    (hkey : conceptKey (stripConcept childKey) = childKey) :
    (addChild parentId acc childKey).2.Keyed := by
  rw [addChild]
  dsimp only
  split
  · exact h
  · exact Keyed.intern h hkey

/-- A pair gets an abstraction. -/
lemma Keyed.abstractPair (h : g.Keyed) (n : ℕ) (htidy : Tidy coKey) :
    (abstractPair (n, g) coKey).2.Keyed := by
  refine abstractPair_induction n g (fun _ hg' => hg') fun parent _ => ?_
  have hparent : (g.interner.intern (conceptKey parent) ⟨.concept, parent, parent,
    F32.zero⟩).2.Keyed := Keyed.intern h rfl
  exact keyed_addChild _ (keyed_addChild (n, { g with interner := _ }) hparent _ htidy.1) _ htidy.2

/-- All frequent pairs do. -/
lemma Keyed.buildAbstractions (h : g.Keyed) (threshold : ℕ)
    (htidy : threshold ≠ 0 → ∀ coKey count, g.coOccurrence[coKey]? = some count →
      threshold ≤ count → Tidy coKey) : (g.buildAbstractions threshold).2.Keyed :=
  buildAbstractions_induction h fun hne coKey count hget hle n _ hg' =>
    hg'.abstractPair n (htidy hne coKey count hget hle)

/-! ## Merged concepts -/

/-- Edges are no nodes. -/
lemma interner_takeOver (L : LearnArith) (canonId : ℕ) (outgoing : Bool) (g : MemoryGraph)
    (e : InternalEdge) : (takeOver L canonId outgoing g e).interner = g.interner := by
  unfold takeOver
  split
  all_goals first | rfl | (split <;> first | rfl | exact interner_ensureIntEdge ..)

section

variable (h : g.Keyed)
include h

section

variable (hok : g.Ok)
include hok

/-- The node at the key of a concept. -/
lemma Keyed.exists_concept {name : String}
    (hid : g.interner.keyToId[conceptKey name]? = some nid) :
    ∃ n, g.interner.idToNode[nid]? = some n ∧ n.kind = .concept ∧ n.externalId = name := by
  obtain ⟨n, hn, -⟩ := hok.interner.exists_node hid
  have heq := Keyed.key_eq h (hok.interner.key_of_id _ _ hid) hn
  refine ⟨n, hn, ?_⟩
  cases hkind : n.kind <;> rw [InternalNode.key, hkind] at heq
  · exact absurd heq (memKey_ne_conceptKey _ _)
  · exact ⟨rfl, conceptKey_injective heq⟩

/-- A concept keeps a key of its own when it gets another name. -/
lemma Keyed.renameConcept {old : String}
    (hid : g.interner.keyToId[conceptKey old]? = some nid) (new : String) :
    (g.renameConcept nid old new).Keyed := by
  obtain ⟨n, hn, hkind, -⟩ := h.exists_concept hok hid
  have hlt := (List.getElem?_eq_some_iff.mp (hok.interner.key_of_id _ _ hid)).1
  refine List.ext_getElem? fun m => ?_
  rw [MemoryGraph.renameConcept, List.getElem?_map, List.getElem?_modify, List.getElem?_set]
  by_cases hm : nid = m
  · subst hm
    simp [hn, InternalNode.key, hkind, hlt]
  · have hm' := congrArg (·[m]?) h
    simp only [List.getElem?_map] at hm'
    simpa [hm] using hm'

/-- A concept is merged. -/
lemma Keyed.mergeConceptNode (L : LearnArith) (old new : String) :
    (g.mergeConceptNode L old new).2.Keyed := by
  rw [MemoryGraph.mergeConceptNode]
  split
  · exact h
  · next oldId hold =>
    split
    · exact h.renameConcept hok hold new
    · next newId hnew =>
      have hstep : ∀ outgoing g' e, g'.Keyed → (takeOver L newId outgoing g' e).Keyed := by
        intro outgoing g' e hg'
        rw [Keyed, interner_takeOver]
        exact hg'
      exact Loop.foldl_induction _
        (Loop.foldl_induction _ h fun e _ g' => hstep true g' e)
        fun e _ g' => hstep false g' e

/-- Several are. -/
lemma Keyed.mergeAll (A : GraphArith) (L : LearnArith) (maxPairs : ℕ)
    (candidates : List (String × String × F32)) :
    (mergeAll A L maxPairs candidates 0 g).2.Ok ∧ (mergeAll A L maxPairs candidates 0 g).2.Keyed :=
  mergeAll_induction (P := fun g => g.Ok ∧ g.Keyed) A L maxPairs candidates 0 ⟨hok, h⟩
    fun _ hg' _ _ old new _ _ =>
      ⟨(hg'.1.keeps_mergeConceptNode L old new).ok, hg'.2.mergeConceptNode hg'.1 L old new⟩

/-- All that overlap are. -/
lemma Keyed.evolveVocabulary (A : GraphArith) (L : LearnArith)
    (overlapThreshold hubFraction : F32) (maxPairs : ℕ) :
    (g.evolveVocabulary A L overlapThreshold hubFraction maxPairs).2.Keyed := by
  rw [MemoryGraph.evolveVocabulary]
  split
  · exact h
  · have hmerged := h.mergeAll hok A L maxPairs (mergeCandidates L g.conceptLists overlapThreshold)
    have hhubs : ∀ g', (suppressHubs L hubFraction g').interner = g'.interner := by
      intro g'
      rw [suppressHubs]
      split <;> rfl
    rw [Keyed]
    dsimp only
    rw [hhubs]
    exact hmerged.2

end

end

/-! ## Keys of saved graphs -/

/-- Nodes are interned under their own keys. -/
lemma keyed_internAll (hnodup : (nodes.map Prod.fst).Nodup)
    (hkey : ∀ p ∈ nodes, p.2.key = p.1) : (internAll nodes).Keyed := by
  obtain ⟨hkeys, hnodes, -⟩ := internAll_spec nodes hnodup
  rw [NodeInterner.Keyed, hkeys, hnodes, List.map_map]
  exact List.map_congr_left hkey

/-- The binary form keeps the keys. -/
lemma Keyed.reload (h : g.Keyed) : g.reload.Keyed := by
  refine keyed_internAll g.nodup_toSnapshot_keys fun p hp => ?_
  obtain ⟨n, hn, rfl⟩ := List.mem_map.mp hp
  obtain ⟨hkey, hnode, -⟩ := mem_iter.mp hn
  exact Keyed.key_eq h hkey hnode

/-- The node at a key has it. -/
lemma Keyed.nodeAt (h : g.Keyed) (hok : g.Ok) {n : InternalNode}
    (hn : g.nodeAt key = some n) : n.key = key := by
  obtain ⟨nid, hid, hnode⟩ := bind_eq_some_iff.mp hn
  exact Keyed.key_eq h (hok.interner.key_of_id key nid hid) hnode

/-- The JSON form does. -/
lemma Keyed.fromLegacy (h : g.Keyed) (hok : g.Ok) (f : F32 → F32) :
    (fromLegacy (g.toLegacy.mapFloats f)).Keyed := by
  refine keyed_internAll (nodup_legacyNodes _) ?_
  rintro ⟨key, node⟩ hp
  obtain ⟨n, hn, rfl⟩ := (hok.mem_legacyNodes f).mp hp
  have hkey := h.nodeAt hok hn
  exact hkey

end MemoryGraph

/-! ## A graph by its keys -/

/-- An edge between the nodes with two keys. -/
structure KeyEdge where
  source : Option String
  target : Option String
  kind : EdgeKind
  weight : F32
  lastReinforcedAt : ℕ
deriving DecidableEq

namespace MemoryGraph

variable {g g' : MemoryGraph} {nid : ℕ}

/-- An edge, its ends given by their keys. -/
def keyEdge (g : MemoryGraph) (e : InternalEdge) : KeyEdge :=
  ⟨g.interner.idToKey[e.source]?, g.interner.idToKey[e.target]?, e.kind, e.weight,
    e.lastReinforcedAt⟩

/-- The edges by their keys, in order. -/
def keyEdges (g : MemoryGraph) : List KeyEdge := g.intEdges.map g.keyEdge

/-- The current nodes with their keys. -/
def keyNodes (g : MemoryGraph) : List (String × InternalNode) := g.interner.iter.map Prod.snd

/-- The outgoing edges of the node with a key, in the order in which they are listed. -/
def outgoing (g : MemoryGraph) (key : String) : List KeyEdge :=
  match g.interner.keyToId[key]? with
  | none => []
  | some nid =>
    (g.intAdjacency[nid]?.getD []).filterMap fun i => g.intEdges[i]?.map g.keyEdge

/-- The key of a current node is its only one. -/
lemma Ok.idToKey_eq_some (h : g.Ok) (hlive : g.interner.Live nid) :
    g.interner.idToKey[nid]? = some key ↔ g.interner.keyToId[key]? = some nid := by
  refine ⟨fun hkey => ?_, h.interner.key_of_id key nid⟩
  obtain ⟨key', hid⟩ := hlive
  cases (h.interner.key_of_id key' nid hid).symm.trans hkey
  exact hid

/-- The outgoing edges of a node are those that start at its key. -/
lemma Ok.outgoing_eq (h : g.Ok) (key : String) :
    g.outgoing key = g.keyEdges.filter (·.source = some key) := by
  have hsource : ∀ e ∈ g.intEdges, (g.keyEdge e).source = some key ↔
      g.interner.keyToId[key]? = some e.source := fun e he =>
    h.idToKey_eq_some (h.source_live e he)
  rw [outgoing]
  split
  · next hnone =>
    symm
    refine List.filter_eq_nil_iff.mpr fun v hv => ?_
    obtain ⟨e, he, rfl⟩ := List.mem_map.mp hv
    have hne := (hsource e he).not.mpr (by simp [hnone])
    simp [hne]
  · next nid hid =>
    have hzip : ∀ p ∈ g.intEdges.zipIdx, g.intEdges[p.2]?.map g.keyEdge = some (g.keyEdge p.1) := by
      intro p hp
      rw [List.mem_zipIdx_iff_getElem?.mp hp]
      rfl
    rw [h.adjacency, getD_rebuildAdjacency, List.filterMap_map, keyEdges, List.filter_map]
    have hmap : List.filterMap ((fun i => g.intEdges[i]?.map g.keyEdge) ∘ Prod.snd)
        (g.intEdges.zipIdx.filter (·.1.source = nid)) =
        (g.intEdges.zipIdx.filter (·.1.source = nid)).map (g.keyEdge ∘ Prod.fst) := by
      rw [← List.filterMap_eq_map]
      exact List.filterMap_congr fun p hp => hzip p (List.mem_of_mem_filter hp)
    rw [hmap, ← List.map_map]
    have hfst := List.filter_map (p := fun e => decide (e.source = nid))
      (f := Prod.fst) (l := g.intEdges.zipIdx)
    rw [List.zipIdx_map_fst] at hfst
    refine congrArg (List.map g.keyEdge) (hfst.symm.trans (List.filter_congr fun e he => ?_))
    rw [Function.comp_apply, decide_eq_decide, hsource e he, hid, some.injEq, eq_comm]

/-! ## The binary snapshot -/

/-- Entering distinct keys lists them. -/
lemma keyNodes_internAll (hnodup : (nodes.map Prod.fst).Nodup) :
    (internAll nodes).iter = nodes.zipIdx.map fun p => (p.2, p.1) := by
  obtain ⟨hkeys, hnodes, hid⟩ := internAll_spec nodes hnodup
  rw [iter, hkeys, hnodes, ← List.unzip_fst, ← List.unzip_snd, List.zip_unzip,
    ← List.filterMap_eq_map]
  refine List.filterMap_congr fun p hp => ?_
  have hget := List.mem_zipIdx_iff_getElem?.mp hp
  have hplace : (internAll nodes).keyToId[p.1.1]? = some p.2 := by
    rw [hid, List.getElem?_map, hget]
    rfl
  simp [hplace]

/-- It keeps the nodes. -/
lemma keyNodes_reload (g : MemoryGraph) : g.reload.keyNodes = g.keyNodes := by
  have hiter : g.reload.interner.iter = _ := keyNodes_internAll g.nodup_toSnapshot_keys
  rw [keyNodes, hiter, List.map_map]
  exact List.zipIdx_map_fst ..

/-- A node keeps its key under its new id. -/
lemma idToKey_reload {i : ℕ} (hi : g.denseId nid = some i) :
    g.reload.interner.idToKey[i]? = g.interner.idToKey[nid]? := by
  obtain ⟨key, node, hget⟩ := denseId_eq_some.mp hi
  obtain ⟨hkey, -, -⟩ := mem_iter.mp (List.mem_of_getElem? hget)
  have hkeys : g.reload.interner.idToKey = _ := (internAll_spec _ g.nodup_toSnapshot_keys).1
  rw [hkeys, toSnapshot, List.map_map, List.getElem?_map, hget, hkey]
  rfl

/-- The edge in the loaded graph that an edge becomes. -/
def dense (g : MemoryGraph) (e : InternalEdge) : InternalEdge := (g.denseEdge e).getD e

/-- Every edge has its ends in the snapshot. -/
lemma Ok.denseEdge_eq (h : g.Ok) (he : e ∈ g.intEdges) : g.denseEdge e = some (g.dense e) := by
  obtain ⟨i, j, -, -, heq⟩ := h.exists_denseEdge he
  rw [dense, heq]
  rfl

/-- A load leaves the edges in the order of `compact`. **Proof sketch.** Edges are compared by the
names of their ends, which they keep under new numbers, so numbering and sorting commute. -/
lemma Ok.intEdges_reload_eq (h : g.Ok) : g.reload.intEdges = g.compact.intEdges.map g.dense := by
  have hdense : g.intEdges.filterMap g.denseEdge = g.intEdges.map g.dense := by
    rw [← List.filterMap_eq_map]
    exact List.filterMap_congr fun e he => h.denseEdge_eq he
  rw [intEdges_reload, hdense]
  refine (List.map_insertionSort _ _ _ _ fun a ha b hb => ?_).symm
  obtain ⟨i, j, hi, hj, heq⟩ := h.exists_denseEdge ha
  obtain ⟨i', j', hi', hj', heq'⟩ := h.exists_denseEdge hb
  rw [RankLe, RankLe, edgeOrder, edgeOrder, dense, dense, heq, heq', getD_some,
    getD_some, get_reload_denseId hi, get_reload_denseId hj, get_reload_denseId hi',
    get_reload_denseId hj']

/-- The binary form lists the compacted edges. -/
lemma Ok.keyEdges_reload (h : g.Ok) : g.reload.keyEdges = g.compact.keyEdges := by
  rw [keyEdges, h.intEdges_reload_eq, List.map_map, keyEdges]
  refine List.map_congr_left fun e he => ?_
  have hmem : e ∈ g.intEdges := (List.perm_insertionSort _ _).subset he
  obtain ⟨i, j, hi, hj, heq⟩ := h.exists_denseEdge hmem
  rw [Function.comp_apply, keyEdge, dense, heq, getD_some, idToKey_reload hi, idToKey_reload hj]
  rfl

/-- A table is made of its entries. -/
lemma ofList_toList {β : Type} (m : Std.ExtTreeMap String β) : Std.ExtTreeMap.ofList m.toList = m :=
  Std.ExtTreeMap.ext_getElem? fun _ => ext fun _ =>
    (getElem?_ofList (Grouping.nodup_toList_keys m)).trans
      Std.ExtTreeMap.mem_toList_iff_getElem?_eq_some

/-- A loaded graph has no removed nodes, so a save does not renumber it. -/
lemma denseId_reload (g : MemoryGraph) {i : ℕ} (hi : i < g.interner.iter.length) :
    g.reload.denseId i = some i := by
  have hiter : g.reload.interner.iter = _ := keyNodes_internAll g.nodup_toSnapshot_keys
  have hlength : i < g.toSnapshot.nodes.length := by simpa [toSnapshot] using hi
  refine denseId_eq_some.mpr ⟨g.toSnapshot.nodes[i].1, g.toSnapshot.nodes[i].2, ?_⟩
  rw [hiter, List.getElem?_map, List.getElem?_zipIdx, List.getElem?_eq_getElem hlength]
  simp

/-- A loaded graph is dense. -/
lemma denseEdge_reload (he : e ∈ g.reload.intEdges) : g.reload.denseEdge e = some e := by
  obtain ⟨e', -, hdense⟩ := mem_intEdges_reload.mp he
  have hself : ∀ {n i : ℕ}, g.denseId n = some i → g.reload.denseId i = some i := by
    intro n i hi
    obtain ⟨key, node, hget⟩ := denseId_eq_some.mp hi
    exact g.denseId_reload (List.getElem?_eq_some_iff.mp hget).1
  rw [denseEdge] at hdense
  split at hdense
  · next i j hi hj =>
    cases hdense
    rw [denseEdge, hself hi, hself hj]
  · cases hdense

/-- A loaded graph is saved as before: its edges are sorted already. -/
lemma toSnapshot_reload (g : MemoryGraph) : g.reload.toSnapshot = g.toSnapshot := by
  have hname : (fun i => (g.reload.interner.get i).map (·.externalId)) =
      fun i => g.keyNodes[i]?.map (·.2.externalId) := by
    funext i
    rw [get_reload, keyNodes, List.getElem?_map, map_map, map_map]
    rfl
  have hsorted := g.intEdges_reload
  rw [hname] at hsorted
  have hedges : sortBy (edgeOrder fun i => g.keyNodes[i]?.map (·.2.externalId))
      (g.reload.intEdges.filterMap g.reload.denseEdge) = g.reload.intEdges := by
    rw [List.filterMap_congr fun e he => denseEdge_reload he, List.filterMap_some, hsorted]
    exact (pairwise_sortBy_edgeOrder _ _).insertionSort_eq
  have hnodes : g.reload.toSnapshot.nodes = g.keyNodes := g.keyNodes_reload
  have hsaved : g.reload.toSnapshot.edges = g.toSnapshot.edges := by
    change sortBy (edgeOrder fun i => g.reload.keyNodes[i]?.map (·.2.externalId)) _ = _
    rw [keyNodes_reload, hedges, hsorted]
    rfl
  have hcounts : g.reload.toSnapshot.coOccurrence = g.toSnapshot.coOccurrence :=
    congrArg Std.ExtTreeMap.toList (ofList_toList g.coOccurrence)
  have hvocab : g.reload.toSnapshot.vocabAliases = g.toSnapshot.vocabAliases :=
    congrArg Std.ExtTreeMap.toList (ofList_toList g.vocab)
  calc g.reload.toSnapshot = ⟨g.reload.toSnapshot.nodes, g.reload.toSnapshot.edges,
        g.lastMemoryId, g.reload.toSnapshot.coOccurrence, g.reload.toSnapshot.vocabAliases,
        g.suppressedConcepts⟩ := rfl
    _ = g.toSnapshot := by rw [hnodes, hsaved, hcounts, hvocab]; rfl

/-! ## The JSON form -/

/-- No float is changed. -/
lemma mapFloats_id (l : LegacyMemoryGraph) : l.mapFloats id = l := by
  have hnodes :
      (l.nodes.map fun _ n => { n with baseImportanceFactor := id n.baseImportanceFactor })
      = l.nodes := Std.ExtTreeMap.ext_getElem? fun key => by
    rw [Std.ExtTreeMap.getElem?_map]
    exact map_id'
  have hedges : (l.edges.map fun e => { e with weight := id e.weight }) = l.edges := List.map_id' _
  rw [LegacyMemoryGraph.mapFloats, hnodes, hedges]

/-- The JSON form lists the nodes by their keys. -/
lemma Ok.keyNodes_fromLegacy (h : g.Ok) : (fromLegacy g.toLegacy).keyNodes.Perm g.keyNodes := by
  have hiter : (fromLegacy g.toLegacy).interner.iter = _ :=
    keyNodes_internAll (nodup_legacyNodes g.toLegacy)
  have hlist : (fromLegacy g.toLegacy).keyNodes =
      g.toLegacy.nodes.toList.map fun p => (p.1, p.2.internal) := by
    rw [keyNodes, hiter, List.map_map]
    exact List.zipIdx_map_fst ..
  rw [hlist]
  refine (List.perm_ext_iff_of_nodup (nodup_legacyNodes _).of_map
    (g.nodup_toSnapshot_keys).of_map).mpr ?_
  rintro ⟨key, node⟩
  have hmem := @Ok.mem_legacyNodes g h id key node
  rw [mapFloats_id] at hmem
  refine hmem.trans ?_
  change _ ↔ (key, node) ∈ g.interner.iter.map Prod.snd
  rw [List.mem_map]
  constructor
  · rintro ⟨n, hn, rfl⟩
    obtain ⟨nid, hid, hnode⟩ := bind_eq_some_iff.mp hn
    exact ⟨(nid, key, n), h.interner.mem_iter.mpr ⟨hid, hnode⟩, rfl⟩
  · rintro ⟨⟨nid, p⟩, hp, rfl⟩
    obtain ⟨hid, hnode⟩ := h.interner.mem_iter.mp hp
    exact ⟨node, by rw [nodeAt, hid]; exact hnode, rfl⟩

/-- An end of an edge is found by its kind and its name. -/
lemma Ok.exists_end (h : g.Ok) (hk : g.Keyed) (hlive : g.interner.Live nid) :
    ∃ n i, g.interner.get nid = some n ∧
      (fromLegacy g.toLegacy).interner.keyToId[n.nodeId.asStr]? = some i ∧
      (fromLegacy g.toLegacy).interner.idToKey[i]? = g.interner.idToKey[nid]? := by
  obtain ⟨key, hid⟩ := hlive
  obtain ⟨n, hn, -⟩ := h.interner.exists_node hid
  have hat : g.nodeAt key = some n := by rw [nodeAt, hid]; exact hn
  obtain ⟨hok, hnodes⟩ := h.nodeAt_fromLegacy id
  rw [mapFloats_id] at hok hnodes
  have hat' := hnodes key
  rw [hat, map_some] at hat'
  obtain ⟨i, hi, -⟩ := bind_eq_some_iff.mp hat'
  refine ⟨n, i, hn, ?_, ?_⟩
  · rw [InternalNode.asStr_nodeId, hk.nodeAt h hat]
    exact hi
  · rw [h.interner.key_of_id key nid hid, hok.key_of_id key i hi]

/-- The JSON form keeps the edges and their order. -/
lemma Ok.keyEdges_fromLegacy (h : g.Ok) (hk : g.Keyed) :
    (fromLegacy g.toLegacy).keyEdges = g.keyEdges := by
  change ((g.intEdges.filterMap g.edgeView).filterMap
    (internalEdge (fromLegacy g.toLegacy).interner)).map _ = _
  rw [List.filterMap_filterMap, List.map_filterMap, keyEdges, ← List.filterMap_eq_map]
  refine List.filterMap_congr fun e he => ?_
  obtain ⟨n, i, hn, hi, hkey⟩ := h.exists_end hk (h.source_live e he)
  obtain ⟨m, j, hm, hj, hkey'⟩ := h.exists_end hk (h.target_live e he)
  simp [edgeView, hn, hm, internalEdge, hi, hj, keyEdge, hkey, hkey']

/-! ## The round trip -/

/-- Two graphs have the same nodes, the same edges between their keys, the same vocabulary,
suppressed concepts and counts. -/
structure SameGraph (g g' : MemoryGraph) : Prop where
  nodes : g'.keyNodes.Perm g.keyNodes
  edges : g'.keyEdges.Perm g.keyEdges
  vocab : g'.vocab = g.vocab
  suppressed : g'.suppressedConcepts = g.suppressedConcepts
  counts : g'.coOccurrence = g.coOccurrence

/-- A graph survives a save and a load in both forms: they load the same graph, with the outgoing
edges of each node in the same order, and it is saved as the same bytes again. The JSON text is one
that the library reads as it was written. -/
def RoundTrips (C : Bytes.Codec BinaryGraphSnapshot) (g : MemoryGraph) : Prop :=
  ∃ b, fromSnapshotBytes C (g.toSnapshotBytes C) = .ok b ∧ SameGraph g b ∧
    b.toSnapshotBytes C = g.toSnapshotBytes C ∧
    ∀ (J : JsonCodec) (text : String), J.toStringPretty g.compact.toLegacy = some text →
      J.fromStr text = some g.compact.toLegacy →
      ∃ j, fromJson J (g.toJson J) = some j ∧ SameGraph g j ∧ ∀ key, b.outgoing key = j.outgoing key

/-- Compacting reorders the edges. -/
lemma perm_keyEdges_compact (g : MemoryGraph) : g.compact.keyEdges.Perm g.keyEdges :=
  (List.perm_insertionSort _ _).map g.keyEdge

/-- A good graph whose nodes have their own keys survives. -/
lemma Ok.roundTrips (C : Bytes.Codec BinaryGraphSnapshot) (h : g.Ok) (hk : g.Keyed) :
    g.RoundTrips C := by
  have hedges := h.keyEdges_reload
  have hcompact := h.resorted_compact.ok
  have hjson := hcompact.keyEdges_fromLegacy hk
  have hok : (fromLegacy g.compact.toLegacy).Ok := by
    have hload := (hcompact.supersessions_fromLegacy id).1
    rwa [mapFloats_id] at hload
  refine ⟨g.reload, fromSnapshotBytes_toSnapshotBytes C g, ⟨?_, ?_, ?_, rfl, ?_⟩, ?_, ?_⟩
  · exact List.Perm.of_eq g.keyNodes_reload
  · exact hedges ▸ g.perm_keyEdges_compact
  · exact ofList_toList g.vocab
  · exact ofList_toList g.coOccurrence
  · rw [toSnapshotBytes, toSnapshot_reload, toSnapshotBytes]
  · intro J text hwritten hread
    refine ⟨fromLegacy g.compact.toLegacy, ?_, ⟨hcompact.keyNodes_fromLegacy, ?_, rfl, rfl, rfl⟩,
      fun key => ?_⟩
    · rw [fromJson, toJson, hwritten, getD_some, hread]
      rfl
    · exact hjson ▸ g.perm_keyEdges_compact
    · rw [h.reloaded.ok.outgoing_eq, hok.outgoing_eq, hedges, hjson]

end MemoryGraph

/-! ## Runs -/

namespace GraphOp

open Traces

variable {g : MemoryGraph} {A : GraphArith} {L : LearnArith}

/-- No abstraction is built from a pair whose key does not split into the keys of two concepts. -/
def Tidy (g : MemoryGraph) : GraphOp → Prop
  | buildAbstractions threshold => threshold ≠ 0 → ∀ coKey count,
      g.coOccurrence[coKey]? = some count → threshold ≤ count → MemoryGraph.Tidy coKey
  | _ => True

/-- An operation keeps a graph good and its nodes under their keys. -/
lemma keyed_apply (op : GraphOp) (h : g.Ok) (hk : g.Keyed) (hop : op.Tidy g) :
    (op.apply A L g).Ok ∧ (op.apply A L g).Keyed := by
  cases op with
  | buildAbstractions threshold =>
    refine ⟨(h.grows_buildAbstractions_frequent threshold ?_).ok, hk.buildAbstractions _ hop⟩
    exact fun hne coKey count hget hle => (hop hne coKey count hget hle).apart
  | addMemoryScoped id text concepts importance scope =>
    exact ⟨ok_apply A L h _ trivial, hk.addMemoryScoped A ..⟩
  | addConceptsToMemory id concepts importance =>
    exact ⟨ok_apply A L h (.addConceptsToMemory ..) trivial, hk.addConceptsToMemory A L ..⟩
  | reweightMemory id newImportance =>
    exact ⟨ok_apply A L h (.reweightMemory ..) trivial, hk.reweightMemory A L ..⟩
  | evolveVocabulary overlapThreshold hubFraction maxPairs =>
    exact ⟨ok_apply A L h (.evolveVocabulary ..) trivial, hk.evolveVocabulary h A L ..⟩
  | reload => exact ⟨ok_apply A L h .reload trivial, hk.reload⟩
  | reloadJson f =>
    have hcompact : g.compact.Keyed := hk
    exact ⟨ok_apply A L h (.reloadJson f) trivial, hcompact.fromLegacy h.resorted_compact.ok f⟩
  | setVocab | removeMemory | reinforce | decayEdges | addRefinement | addContradiction | compact =>
    -- No node is entered.
    refine ⟨ok_apply A L h _ trivial, ?_⟩
    simp only [apply, MemoryGraph.removeMemory, MemoryGraph.reinforce, MemoryGraph.decayEdges,
      MemoryGraph.addRefinement, MemoryGraph.addContradiction]
    repeat' split
    all_goals exact hk

/-- **Every graph survives a save and a load.** In a run from the empty graph whose abstractions are
built from pairs of concepts, every graph survives in both forms. **Proof sketch.** Every operation
keeps the graph good and nodes under their own keys (`keyed_apply`); such a graph survives
(`MemoryGraph.Ok.roundTrips`). -/
theorem roundTrips_throughout (C : Bytes.Codec BinaryGraphSnapshot) (ops : List GraphOp)
    (hops : Along (GraphOp.apply A L) (fun g op => op.Tidy g) ops {}) :
    Throughout (GraphOp.apply A L) (RoundTrips C) ops {} := by
  refine throughout_of_along (I := fun g => g.Ok ∧ g.Keyed) ?_ ?_ ⟨ok_empty, rfl⟩ hops
  · exact fun g op hg hop => op.keyed_apply hg.1 hg.2 hop
  · exact fun g hg => hg.1.roundTrips C hg.2

/-- The pairs are examined in the list of counts. -/
lemma tidy_of_toList {threshold : ℕ} (h : ∀ p ∈ g.coOccurrence.toList, MemoryGraph.Tidy p.1) :
    (buildAbstractions threshold).Tidy g := fun _ coKey count hget _ =>
  h (coKey, count) (Std.ExtTreeMap.mem_toList_iff_getElem?_eq_some.mpr hget)

set_option maxRecDepth 10000

/-- Two memories about `x` and `y`, an abstraction, a refinement and a removal. -/
def learnedOps : List GraphOp :=
  [.addMemoryScoped "m" "m" ["x", "y"] F32.one none, .addMemoryScoped "n" "n" ["x"] F32.one none,
    .buildAbstractions 1, .addRefinement "m" "n" F32.one, .removeMemory "m"]

/-- A sorted pair. -/
lemma sort_pair (a b : String) (h : a ≤ b) : [a, b].mergeSort = [a, b] :=
  List.mergeSort_of_pairwise (by simpa using h)

/-- The graphs of the run survive; the last one has six edges. -/
theorem roundTrips_learned : Throughout (GraphOp.apply sampleArith sampleLearnArith)
      (RoundTrips bincodeSnapshot) learnedOps {} ∧
    (sampleGraph learnedOps).keyEdges.length = 6 := by
  have hnorm : normalizeConcepts sampleArith ∅ ["x", "y"] = ["x", "y"] := by
    decide +kernel
  have hsort := sort_pair "x" "y" (by decide)
  constructor
  · refine roundTrips_throughout bincodeSnapshot learnedOps ?_
    refine ⟨trivial, trivial, tidy_of_toList ?_, trivial, trivial, trivial⟩
    simp only [apply, MemoryGraph.addMemoryScoped, hnorm, hsort]
    decide +kernel
  · simp only [sampleGraph, learnedOps, List.foldl_cons, apply,
      MemoryGraph.addMemoryScoped, hnorm, hsort]
    decide +kernel

/-- A memory about two concepts, one of them with a NUL in its name. -/
def nulOps : List GraphOp :=
  [.addMemoryScoped "m" "m" ["x\x00y", "z"] F32.one none, .buildAbstractions 1]

/-- **Edges are lost.** The abstraction of the two concepts enters a node `y\0concept:z` whose key
lacks the start of a concept's key; the JSON form names it with that, and its two edges are dropped.
-/
theorem nul_loses_edges : (sampleGraph nulOps).keyEdges.length = 8 ∧
    (fromLegacy (sampleGraph nulOps).compact.toLegacy).keyEdges.length = 6 ∧
    ∀ C, ¬ (sampleGraph nulOps).RoundTrips C := by
  have hnorm : normalizeConcepts sampleArith ∅ ["x\x00y", "z"] =
      ["x\x00y", "z"] := by decide +kernel
  have hsort := sort_pair "x\x00y" "z" (by decide)
  have hedges : (sampleGraph nulOps).keyEdges.length = 8 := by
    simp only [sampleGraph, nulOps, List.foldl_cons, apply,
      MemoryGraph.addMemoryScoped, hnorm, hsort]
    decide +kernel
  have hlost : (fromLegacy (sampleGraph nulOps).compact.toLegacy).keyEdges.length = 6 := by
    simp only [sampleGraph, nulOps, List.foldl_cons, apply,
      MemoryGraph.addMemoryScoped, hnorm, hsort]
    decide +kernel
  refine ⟨hedges, hlost, ?_⟩
  rintro C ⟨b, -, -, -, hjson⟩
  -- A library that reads this graph as it was written.
  have hread : (sampleJson (sampleGraph nulOps).compact.toLegacy "").fromStr
      "" = some (sampleGraph nulOps).compact.toLegacy :=
    congrArg some (mapFloats_id _)
  obtain ⟨j, hj, hsame, -⟩ := hjson _ "" rfl hread
  rw [fromJson, show toJson _ _ = "" from rfl, hread] at hj
  cases hj
  have hlength := hsame.edges.length_eq
  rw [hlost, hedges] at hlength
  exact absurd hlength (by decide)

end GraphOp

end TurboMemory
