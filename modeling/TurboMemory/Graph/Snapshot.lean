import Mathlib.Data.String.Basic
import TurboMemory.Graph.Maintenance
import TurboMemory.Search.Rank
import TurboMemory.Storage.Bincode
import TurboMemory.Lib.Grouping

/-!
# Saving and loading the cognitive graph

The graph is saved as a binary snapshot or, in older versions, as a JSON text. Both drop removed
nodes and sort the edges by the external ids of their ends; `compact` sorts them in place.

## Main results

* `MemoryGraph.Resorted` — what each of the three does to the supersessions: it sorts them.
* `MemoryGraph.Reloaded` — the binary snapshot keeps every node and every edge.

## Implementation notes

The order of `f32::total_cmp` is that of `F32.totalKey`. The bytes of a snapshot and the JSON text
are those of libraries. They enter through a `Codec`, with its round trip, and through `JsonCodec`,
which has no form for floats that are not finite.
-/

set_option autoImplicit false

namespace TurboMemory

open Walks Bytes Bytes.Codec Option List NodeInterner Prod
open Std (ExtTreeMap)

/-! ## The order of edges -/

/-- The position of a float in the total order of floats. -/
def F32.totalKey (x : F32) : ℤ :=
  if x.bits.toNat < 2 ^ 31 then x.bits.toNat else -1 - (x.bits.toNat - 2 ^ 31 : ℤ)

/-- The position of an edge kind in its declaration. -/
def EdgeKind.rank : EdgeKind → ℕ
  | .association => 0
  | .temporal => 1
  | .abstraction => 2
  | .refines => 3
  | .contradicts => 4

/-- Edges by source, target, kind and weight, given the external ids of nodes. -/
def edgeOrder (name : ℕ → Option String) (a b : InternalEdge) : Ordering :=
  (compare (name a.source) (name b.source)).then <|
    (compare (name a.target) (name b.target)).then <|
      (compare a.kind.rank b.kind.rank).then (compare a.weight.totalKey b.weight.totalKey)

namespace MemoryGraph

/-- Sort the edges. -/
def compact (g : MemoryGraph) : MemoryGraph :=
  let edges := sortBy (edgeOrder fun nid => (g.interner.get nid).map (·.externalId)) g.intEdges
  { g with intEdges := edges, intAdjacency := rebuildAdjacency edges }

end MemoryGraph

/-! ## The binary snapshot -/

/-- The saved form of a graph: its current nodes, numbered by their place, and the edges between
them. -/
structure BinaryGraphSnapshot where
  nodes : List (String × InternalNode)
  edges : List InternalEdge
  lastMemoryId : Option String
  coOccurrence : List (String × ℕ)
  vocabAliases : List (String × String)
  suppressedConcepts : List String

/-- A node kind is the index of its variant. -/
def bincodeNodeKind : Codec NodeKind :=
  u32.iso (fun | .memory => 0 | .concept => 1) (fun n => if n = 0 then .memory else .concept)
    (by intro k; cases k <;> rfl)

/-- An edge kind is the index of its variant. -/
def bincodeEdgeKind : Codec EdgeKind :=
  u32.iso (fun k => UInt32.ofNat k.rank)
    (fun n => if n = 0 then .association else if n = 1 then .temporal
      else if n = 2 then .abstraction else if n = 3 then .refines else .contradicts)
    (by intro k; cases k <;> rfl)

/-- The fields of a node. -/
def bincodeNode : Codec InternalNode :=
  (bincodeNodeKind.pair <| string.pair <| string.pair bincodeF32).iso
    (fun n => (n.kind, n.externalId, n.text, n.baseImportanceFactor))
    (fun (kind, externalId, text, factor) => ⟨kind, externalId, text, factor⟩) fun _ => rfl

/-- The fields of an edge; node numbers have 32 bits. -/
def bincodeEdge : Codec InternalEdge :=
  ((counter 4).pair <| (counter 4).pair <| bincodeEdgeKind.pair <| bincodeF32.pair nat64).iso
    (fun e => (e.source, e.target, e.kind, e.weight, e.lastReinforcedAt))
    (fun (source, target, kind, weight, lastReinforcedAt) =>
      ⟨source, target, kind, weight, lastReinforcedAt⟩) fun _ => rfl

/-- The bytes of a snapshot, in a format with the round trip of `bincode`. -/
def bincodeSnapshot : Codec BinaryGraphSnapshot :=
  ((list (string.pair bincodeNode)).pair <| (list bincodeEdge).pair <| (option string).pair <|
    (list (string.pair nat64)).pair <| (list (string.pair string)).pair (list string)).iso
    (fun s => (s.nodes, s.edges, s.lastMemoryId, s.coOccurrence, s.vocabAliases,
      s.suppressedConcepts))
    (fun (nodes, edges, lastMemoryId, coOccurrence, vocabAliases, suppressedConcepts) =>
      ⟨nodes, edges, lastMemoryId, coOccurrence, vocabAliases, suppressedConcepts⟩) fun _ => rfl

/-- The first bytes of a snapshot. -/
def snapshotMagic : List UInt8 := [0x54, 0x4D, 0x47, 0x52]

/-- The version of the format. -/
def snapshotVersion : UInt32 := 1

namespace MemoryGraph

variable (g : MemoryGraph)

/-- The place of a node among the current ones. -/
def denseId (nid : ℕ) : Option ℕ := (g.interner.iter.map fst).idxOf? nid

/-- An edge between the places of its ends. -/
def denseEdge (e : InternalEdge) : Option InternalEdge :=
  match g.denseId e.source, g.denseId e.target with
  | some source, some target => some { e with source := source, target := target }
  | _, _ => none

/-- The snapshot of a graph. -/
def toSnapshot : BinaryGraphSnapshot :=
  let nodes := g.interner.iter.map snd
  { nodes := nodes
    edges := sortBy (edgeOrder fun i => nodes[i]?.map (·.2.externalId))
      (g.intEdges.filterMap g.denseEdge)
    lastMemoryId := g.lastMemoryId
    coOccurrence := g.coOccurrence.toList
    vocabAliases := g.vocab.toList
    suppressedConcepts := g.suppressedConcepts }

/-- Enter keys with their nodes. -/
def internAll (nodes : List (String × InternalNode)) : NodeInterner :=
  nodes.foldl (fun t p => (t.intern p.1 p.2).2) {}

/-- The graph of a snapshot. The heads of the temporal chains are not saved. -/
def fromSnapshot (s : BinaryGraphSnapshot) : MemoryGraph :=
  let interner := internAll s.nodes
  let bound := interner.idToNode.length
  let edges := s.edges.filter fun e => e.source < bound ∧ e.target < bound
  { interner := interner
    intEdges := edges
    intAdjacency := rebuildAdjacency edges
    lastMemoryId := s.lastMemoryId
    lastMemoryByScope := ∅
    coOccurrence := ExtTreeMap.ofList s.coOccurrence
    vocab := ExtTreeMap.ofList s.vocabAliases
    suppressedConcepts := s.suppressedConcepts }

/-- The bytes of a snapshot. -/
def toSnapshotBytes (C : Codec BinaryGraphSnapshot) : List UInt8 :=
  snapshotMagic ++ (u32.put snapshotVersion ++ C.put g.toSnapshot)

/-- Whether bytes start as a snapshot. -/
def isSnapshotBytes (bytes : List UInt8) : Bool := bytes.take 4 = snapshotMagic

/-- Load a snapshot. -/
def fromSnapshotBytes (C : Codec BinaryGraphSnapshot) (bytes : List UInt8) :
    Except String MemoryGraph :=
  if isSnapshotBytes bytes then
    match u32.get (bytes.drop 4) with
    | none => .error "truncated graph snapshot header"
    | some (version, payload) =>
      if version ≠ snapshotVersion then .error "unsupported graph snapshot version"
      else
        match C.get payload with
        | none => .error "invalid graph snapshot payload"
        | some (s, _) => .ok (fromSnapshot s)
  else .error "missing graph snapshot magic"

end MemoryGraph

/-! ## The JSON form -/

/-- A node identifier exposed to callers. -/
inductive NodeId
  | memory (id : String)
  | concept (name : String)
deriving DecidableEq

/-- The key of a node identifier. -/
def NodeId.asStr : NodeId → String
  | .memory id => memKey id
  | .concept name => conceptKey name

/-- The identifier of a node. -/
def InternalNode.nodeId (n : InternalNode) : NodeId :=
  match n.kind with
  | .memory => .memory n.externalId
  | .concept => .concept n.externalId

/-- A node as callers see it. -/
structure Node where
  id : NodeId
  text : String
  baseImportanceFactor : F32
deriving DecidableEq

/-- An edge as callers see it. -/
structure Edge where
  source : NodeId
  target : NodeId
  kind : EdgeKind
  weight : F32
  lastReinforcedAt : ℕ
deriving DecidableEq

/-- The older saved form of a graph, by keys. -/
structure LegacyMemoryGraph where
  nodes : ExtTreeMap String Node
  edges : List Edge
  adjacency : ExtTreeMap String (List ℕ)
  lastMemoryId : Option String
  coOccurrence : ExtTreeMap String ℕ
  vocab : ConceptVocabulary
  suppressedConcepts : List String

/-- A node for callers. -/
def InternalNode.view (n : InternalNode) : Node := ⟨n.nodeId, n.text, n.baseImportanceFactor⟩

/-- A node from what callers see. -/
def Node.internal (n : Node) : InternalNode :=
  match n.id with
  | .memory id => ⟨.memory, id, n.text, n.baseImportanceFactor⟩
  | .concept name => ⟨.concept, name, n.text, n.baseImportanceFactor⟩

namespace MemoryGraph

variable (g : MemoryGraph)

/-- The nodes for callers, by key. -/
def nodes : ExtTreeMap String Node :=
  ExtTreeMap.ofList (g.interner.iter.map fun n => (n.2.1, n.2.2.view))

/-- An edge for callers. The ends of an edge are always nodes. -/
def edgeView (e : InternalEdge) : Option Edge :=
  match g.interner.get e.source, g.interner.get e.target with
  | some source, some target =>
    some ⟨source.nodeId, target.nodeId, e.kind, e.weight, e.lastReinforcedAt⟩
  | _, _ => none

/-- The edges for callers. -/
def edges : List Edge := g.intEdges.filterMap g.edgeView

/-- The older saved form of a graph. -/
def toLegacy : LegacyMemoryGraph :=
  { nodes := g.nodes
    edges := g.edges
    adjacency := g.intEdges.zipIdx.foldl (fun adj p =>
      match g.interner.idToKey[p.1.source]? with
      | some key => adj.insert key ((adj[key]?.getD []) ++ [p.2])
      | none => adj) ∅
    lastMemoryId := g.lastMemoryId
    coOccurrence := g.coOccurrence
    vocab := g.vocab
    suppressedConcepts := g.suppressedConcepts }

/-- An edge between the nodes with its keys, if both are there. -/
def internalEdge (t : NodeInterner) (e : Edge) : Option InternalEdge :=
  match t.keyToId[e.source.asStr]?, t.keyToId[e.target.asStr]? with
  | some source, some target => some ⟨source, target, e.kind, e.weight, e.lastReinforcedAt⟩
  | _, _ => none

/-- The graph of the older saved form; its adjacency is not read. -/
def fromLegacy (l : LegacyMemoryGraph) : MemoryGraph :=
  let interner := internAll (l.nodes.toList.map fun p => (p.1, p.2.internal))
  let edges := l.edges.filterMap (internalEdge interner)
  { interner := interner
    intEdges := edges
    intAdjacency := rebuildAdjacency edges
    lastMemoryId := l.lastMemoryId
    lastMemoryByScope := ∅
    coOccurrence := l.coOccurrence
    vocab := l.vocab
    suppressedConcepts := l.suppressedConcepts }

end MemoryGraph

/-- A JSON library: it writes a graph as text and reads it. -/
structure JsonCodec where
  toStringPretty : LegacyMemoryGraph → Option String
  fromStr : String → Option LegacyMemoryGraph

/-- Change the floats. -/
def LegacyMemoryGraph.mapFloats (f : F32 → F32) (l : LegacyMemoryGraph) : LegacyMemoryGraph :=
  { l with
    nodes := l.nodes.map fun _ n => { n with baseImportanceFactor := f n.baseImportanceFactor }
    edges := l.edges.map fun e => { e with weight := f e.weight } }

/-- All floats are finite. -/
structure LegacyMemoryGraph.Finite (l : LegacyMemoryGraph) : Prop where
  nodes : ∀ p ∈ l.nodes.toList, p.2.baseImportanceFactor.isFinite = true
  edges : ∀ e ∈ l.edges, e.weight.isFinite = true

/-- How the library treats a graph: finite floats are read as some floats, others are written as
`null`, which is no float. -/
structure JsonCodec.Reads (J : JsonCodec) (l : LegacyMemoryGraph) (text : String) : Prop where
  written : J.toStringPretty l = some text
  finite : l.Finite → ∃ f, J.fromStr text = some (l.mapFloats f)
  null : ¬ l.Finite → J.fromStr text = none

namespace MemoryGraph

/-- Save as JSON, the edges sorted. -/
def toJson (J : JsonCodec) (g : MemoryGraph) : String :=
  (J.toStringPretty g.compact.toLegacy).getD ""

/-- Load from JSON. -/
def fromJson (J : JsonCodec) (text : String) : Option MemoryGraph :=
  (J.fromStr text).map fromLegacy

end MemoryGraph

/-! ## Sorted supersessions -/

/-- The greatest of the memories that supersede a memory. -/
def greatestSuccessor (pairs : List (String × String)) (id : String) : Option String :=
  (pairs.filterMap fun p => if p.1 = id then some p.2 else none).max?

/-- The greatest of the memories that a memory supersedes. -/
def greatestPredecessor (pairs : List (String × String)) (id : String) : Option String :=
  (pairs.filterMap fun p => if p.2 = id then some p.1 else none).max?

/-- Pairs in the order of their first and then their second components. -/
def PairLe (p q : String × String) : Prop := p.1 < q.1 ∨ p.1 = q.1 ∧ p.2 ≤ q.2

/-- The last of an ascending list is the greatest of its elements, in whatever order. -/
lemma getLast?_eq_max? {l l' : List String} (h : l.Pairwise (· ≤ ·)) (hperm : l.Perm l') :
    l.getLast? = l'.max? := by
  cases hlast : l.getLast? with
  | none =>
    rw [getLast?_eq_none_iff] at hlast
    subst hlast
    rw [← hperm.nil_eq]
    rfl
  | some a =>
    symm
    rw [max?_eq_some_iff]
    obtain ⟨init, rfl⟩ := getLast?_eq_some_iff.mp hlast
    refine ⟨hperm.subset (by simp), fun b hb => ?_⟩
    rcases mem_append.mp (hperm.symm.subset hb) with hb | hb
    · exact (pairwise_append.mp h).2.2 b hb a (mem_singleton_self a)
    · exact (mem_singleton.mp hb).le

section Sorted

variable {pairs sorted : List (String × String)} (hperm : sorted.Perm pairs)
  (h : sorted.Pairwise PairLe)
include hperm h

/-- Of sorted pairs the last one is the greatest. -/
lemma lastSuccessor_sorted :
    lastSuccessor sorted = greatestSuccessor pairs := by
  funext id
  rw [lastSuccessor, ← getLast?_filterMap, greatestSuccessor]
  refine getLast?_eq_max? (pairwise_filterMap.mpr (h.imp ?_)) (hperm.filterMap _)
  intro p q hpq x hx y hy
  simp only [ite_none_right_eq_some, some.injEq] at hx hy
  obtain ⟨rfl, rfl⟩ := hx
  obtain ⟨hq, rfl⟩ := hy
  rcases hpq with hlt | ⟨-, hle⟩
  · exact absurd hq hlt.ne'
  · exact hle

/-- The same backwards. -/
lemma lastPredecessor_sorted :
    lastPredecessor sorted = greatestPredecessor pairs := by
  funext id
  rw [lastPredecessor, ← getLast?_filterMap, greatestPredecessor]
  refine getLast?_eq_max? (pairwise_filterMap.mpr (h.imp ?_)) (hperm.filterMap _)
  intro p q hpq x hx y hy
  simp only [ite_none_right_eq_some, some.injEq] at hx hy
  obtain ⟨-, rfl⟩ := hx
  obtain ⟨-, rfl⟩ := hy
  rcases hpq with hlt | ⟨heq, -⟩
  · exact hlt.le
  · exact heq.le

end Sorted

/-! ## Sorting edges -/

instance edgeOrder_transCmp (name : ℕ → Option String) : Std.TransCmp (edgeOrder name) :=
  inferInstanceAs (Std.TransCmp (compareLex (compareOn fun e : InternalEdge => name e.source) <|
    compareLex (compareOn fun e => name e.target) <|
      compareLex (compareOn fun e => e.kind.rank) (compareOn fun e => e.weight.totalKey)))

/-- Sorted edges are in order. -/
lemma pairwise_sortBy_edgeOrder (name : ℕ → Option String) (edges : List InternalEdge) :
    (sortBy (edgeOrder name) edges).Pairwise (RankLe (edgeOrder name)) :=
  pairwise_insertionSort _ _

variable {name : ℕ → Option String}

/-- Edges in order have their pairs in order. -/
lemma pairLe_of_rankLe {a b : InternalEdge} {p q : String × String}
    (h : RankLe (edgeOrder name) a b) (hsource : name a.source = some p.1)
    (htarget : name a.target = some p.2) (hsource' : name b.source = some q.1)
    (htarget' : name b.target = some q.2) : PairLe p q := by
  rw [RankLe, edgeOrder, hsource, htarget, hsource', htarget'] at h
  change ((compare p.1 q.1).then ((compare p.2 q.2).then _)) ≠ .gt at h
  rcases lt_trichotomy p.1 q.1 with hlt | heq | hgt
  · exact .inl hlt
  · refine .inr ⟨heq, ?_⟩
    by_contra hle
    rw [compare_eq_iff_eq.mpr heq, compare_gt_iff_gt.mpr (not_le.mp hle)] at h
    exact h rfl
  · rw [compare_gt_iff_gt.mpr hgt] at h
    exact absurd rfl h

namespace MemoryGraph

variable {g g' : MemoryGraph} {nid : ℕ} {id : String} {edges : List InternalEdge} {i : ℕ}

/-- The second graph is a good one with the supersessions of the first, sorted. -/
structure Resorted (g g' : MemoryGraph) : Prop where
  ok : g'.Ok
  perm : g'.supersessions.Perm g.supersessions
  sorted : g'.supersessions.Pairwise PairLe

/-- Sorting the edges sorts the supersessions. -/
lemma pairwise_supersessions (g : MemoryGraph)
    (hname : ∀ nid, name nid = (g.interner.get nid).map (·.externalId))
    (hedges : g.intEdges = sortBy (edgeOrder name) edges) : g.supersessions.Pairwise PairLe := by
  rw [supersessions, hedges]
  refine pairwise_filterMap.mpr ((pairwise_sortBy_edgeOrder _ _).imp ?_)
  intro a b hab p hp q hq
  obtain ⟨-, hsource, htarget⟩ := supersession_eq_some.mp hp
  obtain ⟨-, hsource', htarget'⟩ := supersession_eq_some.mp hq
  have hext : ∀ {m : ℕ} {s : String}, g.memoryName m = some s → name m = some s :=
    fun hm => (hname _).trans (externalId_of_memoryName hm)
  exact pairLe_of_rankLe hab (hext hsource) (hext htarget) (hext hsource') (hext htarget')

/-- A graph with the same nodes and the same edges in another order. -/
lemma Ok.permute (h : g.Ok) (hperm : edges.Perm g.intEdges) :
    ({ g with intEdges := edges, intAdjacency := rebuildAdjacency edges } : MemoryGraph).Ok where
  interner := h.interner
  adjacency := rfl
  source_live e he := h.source_live e (hperm.subset he)
  target_live e he := h.target_live e (hperm.subset he)
  belief e he := h.belief e (hperm.subset he)

/-- Compacting sorts. -/
lemma Ok.resorted_compact (h : g.Ok) : Resorted g g.compact := by
  have hperm := perm_insertionSort (RankLe (edgeOrder fun nid =>
    (g.interner.get nid).map (·.externalId))) g.intEdges
  exact ⟨h.permute hperm, hperm.filterMap _, pairwise_supersessions _ (fun _ => rfl) rfl⟩

/-! ## Entering distinct keys -/

/-- Distinct keys get their places as ids. -/
lemma internAll_spec (nodes : List (String × InternalNode)) (hnodup : (nodes.map fst).Nodup) :
    (internAll nodes).idToKey = nodes.map fst ∧
    (internAll nodes).idToNode = nodes.map snd ∧
    ∀ (key : String) (i : ℕ), (internAll nodes).keyToId[key]? = some i ↔
      (nodes.map fst)[i]? = some key := by
  induction nodes using reverseRecOn with
  | nil => simp [internAll]
  | append_singleton nodes p ih =>
    rw [map_append, map_singleton, nodup_append] at hnodup
    obtain ⟨hkey, hnode, hid⟩ := ih hnodup.1
    have hnew : (internAll nodes).keyToId[p.1]? = none := by
      refine eq_none_iff_forall_not_mem.mpr fun i hi => ?_
      have hmem := mem_of_getElem? ((hid p.1 i).mp hi)
      exact hnodup.2.2 p.1 hmem p.1 (mem_singleton_self _) rfl
    have hstep : internAll (nodes ++ [p]) =
        ⟨(internAll nodes).keyToId.insert p.1 nodes.length, nodes.map fst ++ [p.1],
          nodes.map snd ++ [p.2]⟩ := by
      rw [internAll, foldl_append, ← internAll, foldl_cons, foldl_nil,
        intern, hnew, hkey, hnode, length_map]
    rw [hstep]
    refine ⟨by simp, by simp, fun key i => ?_⟩
    simp only [ExtTreeMap.getElem?_insert, Std.LawfulEqCmp.compare_eq_iff_eq, map_append,
      map_singleton]
    split
    · next heq =>
      subst heq
      constructor
      · intro hi
        cases hi
        simp
      · intro hi
        rw [getElem?_append] at hi
        split at hi
        · have hmem := mem_of_getElem? hi
          exact absurd rfl (hnodup.2.2 p.1 hmem p.1 (mem_singleton_self _))
        · have hlt := (List.getElem?_eq_some_iff.mp hi).1
          simp only [length_map, length_singleton] at *
          congr 1
          omega
    · next hne =>
      rw [hid, getElem?_append]
      split
      · rfl
      · next hlt =>
        rw [getElem?_eq_none (Nat.le_of_not_lt hlt)]
        simp only [getElem?_singleton]
        split
        · simp [hne]
        · simp

/-- Nodes with different keys are interned. -/
lemma ok_internAll {nodes : List (String × InternalNode)} (hnodup : (nodes.map fst).Nodup)
    (hfits : ∀ p ∈ nodes, p.2.Fits p.1) : (internAll nodes).Ok := by
  obtain ⟨hkey, hnode, hid⟩ := internAll_spec nodes hnodup
  refine ⟨by simp [hkey, hnode], fun key i hi => by rw [hkey]; exact (hid key i).mp hi, ?_⟩
  intro i key node hi hn
  rw [hkey, getElem?_map, map_eq_some_iff] at hi
  rw [hnode, getElem?_map, map_eq_some_iff] at hn
  obtain ⟨p, hp, rfl⟩ := hi
  obtain ⟨q, hq, rfl⟩ := hn
  cases hp.symm.trans hq
  exact hfits p (mem_of_getElem? hp)

/-- The current nodes stand in the order of their ids. -/
lemma pairwise_iter (t : NodeInterner) : t.iter.Pairwise fun a b => a.1 < b.1 := by
  have hascending : ((t.idToKey.zip t.idToNode).zipIdx).Pairwise fun a b => a.2 < b.2 := by
    have hmap : ((t.idToKey.zip t.idToNode).zipIdx.map snd).Pairwise (· < ·) := by
      rw [zipIdx_map_snd]
      exact pairwise_lt_range'
    exact pairwise_map.mp hmap
  refine pairwise_filterMap.mpr (hascending.imp ?_)
  intro a b hab x hx y hy
  simp only [ite_none_right_eq_some, some.injEq] at hx hy
  obtain ⟨-, rfl⟩ := hx
  obtain ⟨-, rfl⟩ := hy
  exact hab

/-- Keys are listed once. -/
lemma nodup_iter_keys (t : NodeInterner) : (t.iter.map fun n => n.2.1).Nodup := by
  have hnodup : t.iter.Nodup :=
    (pairwise_iter t).imp fun hlt heq => hlt.ne (congrArg fst heq)
  refine hnodup.map_on ?_
  rintro ⟨i, key, node⟩ hx ⟨j, key', node'⟩ hy (rfl : key = key')
  obtain ⟨-, hnode, hi⟩ := mem_iter.mp hx
  obtain ⟨-, hnode', hj⟩ := mem_iter.mp hy
  cases hi.symm.trans hj
  cases hnode.symm.trans hnode'
  rfl

/-- The map of a list with distinct keys. -/
lemma getElem?_ofList {β : Type} {l : List (String × β)} (hnodup : (l.map fst).Nodup)
    {key : String} {value : β} : (ExtTreeMap.ofList l)[key]? = some value ↔ (key, value) ∈ l := by
  have hdistinct : l.Pairwise fun a b => ¬ compare a.1 b.1 = .eq := by
    simpa [Std.LawfulEqCmp.compare_eq_iff_eq] using pairwise_map.mp hnodup
  have hof : ∀ v, (key, v) ∈ l → (ExtTreeMap.ofList l)[key]? = some v := fun v hv =>
    ExtTreeMap.getElem?_ofList_of_mem Std.ReflCmp.compare_self hdistinct hv
  refine ⟨fun hget => ?_, hof value⟩
  by_cases hmem : key ∈ l.map fst
  · obtain ⟨⟨k, v⟩, hv, rfl⟩ := mem_map.mp hmem
    cases (hof v hv).symm.trans hget
    exact hv
  · have hnone : (ExtTreeMap.ofList l)[key]? = none :=
      ExtTreeMap.getElem?_ofList_of_contains_eq_false (by simpa using hmem)
    rw [hnone] at hget
    cases hget

/-! ## A save and a load -/

/-- A graph as a save and a load leave it. -/
def reload (g : MemoryGraph) : MemoryGraph := fromSnapshot g.toSnapshot

/-- The bytes are read back. -/
lemma fromSnapshotBytes_toSnapshotBytes (C : Codec BinaryGraphSnapshot) (g : MemoryGraph) :
    fromSnapshotBytes C (g.toSnapshotBytes C) = .ok g.reload := by
  have hdrop : (g.toSnapshotBytes C).drop 4 =
      u32.put snapshotVersion ++ C.put g.toSnapshot := rfl
  have hpayload := C.get_put g.toSnapshot []
  rw [append_nil] at hpayload
  have hmagic : isSnapshotBytes (g.toSnapshotBytes C) = true := by
    simp [isSnapshotBytes, toSnapshotBytes, snapshotMagic]
  rw [fromSnapshotBytes, if_pos hmagic, hdrop, u32.get_put]
  simp only [ne_eq, not_true_eq_false, if_false, hpayload]
  rfl

/-- The node with a key. -/
def nodeAt (g : MemoryGraph) (key : String) : Option InternalNode :=
  g.interner.keyToId[key]?.bind g.interner.get

/-- There is an edge of a kind between the nodes with two keys. -/
def Joined (g : MemoryGraph) (kind : EdgeKind) (key key' : String) : Prop :=
  ∃ e ∈ g.intEdges, e.kind = kind ∧ g.interner.keyToId[key]? = some e.source ∧
    g.interner.keyToId[key']? = some e.target

/-- What a save and a load keep: the nodes, the edges and the vocabulary. -/
structure Reloaded (g g' : MemoryGraph) : Prop extends Resorted g g' where
  nodes : ∀ key, g'.nodeAt key = g.nodeAt key
  joined : ∀ kind key key', g'.Joined kind key key' ↔ g.Joined kind key key'
  vocab : g'.vocab = g.vocab

/-- The number of a node in the snapshot. -/
lemma denseId_eq_some :
    g.denseId nid = some i ↔ ∃ key node, g.interner.iter[i]? = some (nid, key, node) := by
  rw [denseId, idxOf?_eq_some_iff]
  constructor
  · rintro ⟨hi, hget, -⟩
    rw [getElem_map] at hget
    rw [length_map] at hi
    exact ⟨_, _, List.getElem?_eq_some_iff.mpr ⟨hi, Prod.ext hget rfl⟩⟩
  · rintro ⟨key, node, hget⟩
    obtain ⟨hi, hget⟩ := List.getElem?_eq_some_iff.mp hget
    refine ⟨by simpa using hi, by simp [hget], fun j hj => ?_⟩
    have hlt := pairwise_iff_getElem.mp (pairwise_iter g.interner) j i (hj.trans hi) hi hj
    rw [getElem_map]
    rw [hget] at hlt
    exact hlt.ne

/-- Every live node has one. -/
lemma Ok.exists_denseId (h : g.Ok) (hlive : g.interner.Live nid) : ∃ i, g.denseId nid = some i := by
  obtain ⟨key, hkey⟩ := hlive
  obtain ⟨node, hnode, -⟩ := h.interner.exists_node hkey
  obtain ⟨i, hi⟩ := getElem?_of_mem (h.interner.mem_iter.mpr ⟨hkey, hnode⟩)
  exact ⟨i, denseId_eq_some.mpr ⟨key, node, hi⟩⟩

section

variable (g : MemoryGraph)

/-- A snapshot lists its keys once. -/
lemma nodup_toSnapshot_keys : (g.toSnapshot.nodes.map fst).Nodup := by
  have hmap : g.toSnapshot.nodes.map fst = g.interner.iter.map fun n => n.2.1 := by
    simp [toSnapshot]
  rw [hmap]
  exact nodup_iter_keys g.interner

/-- The ids after a load are the places among the current nodes. -/
lemma keyToId_reload (key : String) (i : ℕ) :
    g.reload.interner.keyToId[key]? = some i ↔
      ∃ nid node, g.interner.iter[i]? = some (nid, key, node) := by
  refine ((internAll_spec _ g.nodup_toSnapshot_keys).2.2 key i).trans ?_
  simp [toSnapshot, getElem?_map]

/-- The nodes of a loaded graph. -/
lemma get_reload (i : ℕ) :
    g.reload.interner.get i = g.interner.iter[i]?.map fun n => n.2.2 := by
  have hnode := (internAll_spec _ g.nodup_toSnapshot_keys).2.1
  change (internAll g.toSnapshot.nodes).idToNode[i]? = _
  rw [hnode]
  simp only [toSnapshot, List.map_map, List.getElem?_map]
  rfl

end

/-- A node keeps what it stands for under its new id. -/
lemma get_reload_denseId (hi : g.denseId nid = some i) :
    g.reload.interner.get i = g.interner.get nid := by
  obtain ⟨key, node, hget⟩ := denseId_eq_some.mp hi
  obtain ⟨-, hnode, -⟩ := mem_iter.mp (mem_of_getElem? hget)
  rw [get_reload, hget]
  exact hnode.symm

/-- A node keeps its key under its new id. -/
lemma Ok.keyToId_reload_denseId (h : g.Ok) (hi : g.denseId nid = some i) (key : String) :
    g.reload.interner.keyToId[key]? = some i ↔ g.interner.keyToId[key]? = some nid := by
  obtain ⟨key', node, hget⟩ := denseId_eq_some.mp hi
  obtain ⟨hid', hnode⟩ := h.interner.mem_iter.mp (mem_of_getElem? hget)
  rw [keyToId_reload, hget]
  constructor
  · rintro ⟨nid', node', heq⟩
    obtain ⟨rfl, rfl, rfl⟩ : nid = nid' ∧ key' = key ∧ node = node' := by simpa using heq
    exact hid'
  · intro hid
    obtain rfl := h.interner.key_injective hid hid'
    exact ⟨nid, node, rfl⟩

/-- Every edge has its place in the snapshot. -/
lemma Ok.exists_denseEdge (h : g.Ok) {e : InternalEdge} (he : e ∈ g.intEdges) :
    ∃ i j, g.denseId e.source = some i ∧ g.denseId e.target = some j ∧
      g.denseEdge e = some { e with source := i, target := j } := by
  obtain ⟨i, hi⟩ := h.exists_denseId (h.source_live e he)
  obtain ⟨j, hj⟩ := h.exists_denseId (h.target_live e he)
  exact ⟨i, j, hi, hj, by simp [denseEdge, hi, hj]⟩

/-- No edge is dropped by a load. -/
lemma intEdges_reload (g : MemoryGraph) :
    g.reload.intEdges = sortBy (edgeOrder fun i => (g.reload.interner.get i).map (·.externalId))
      (g.intEdges.filterMap g.denseEdge) := by
  have hname : (fun i => (g.reload.interner.get i).map (·.externalId)) =
      fun i => g.toSnapshot.nodes[i]?.map (·.2.externalId) := by
    funext i
    rw [get_reload]
    simp [toSnapshot, getElem?_map]
    rfl
  rw [hname]
  refine filter_eq_self.mpr fun e he => ?_
  have hmem := (perm_insertionSort _ _).subset he
  obtain ⟨e', -, hdense⟩ := mem_filterMap.mp hmem
  have hlength : (internAll g.toSnapshot.nodes).idToNode.length = g.interner.iter.length := by
    rw [(internAll_spec _ g.nodup_toSnapshot_keys).2.1]
    simp [toSnapshot]
  have hlt : ∀ {n i : ℕ}, g.denseId n = some i → i < g.interner.iter.length := by
    intro n i hi
    obtain ⟨key, node, hget⟩ := denseId_eq_some.mp hi
    exact (List.getElem?_eq_some_iff.mp hget).1
  rw [denseEdge] at hdense
  split at hdense
  · next i j hi hj =>
    cases hdense
    rw [hlength]
    simp [hlt hi, hlt hj]
  · cases hdense

/-- Its edges. -/
lemma mem_intEdges_reload {e' : InternalEdge} :
    e' ∈ g.reload.intEdges ↔ ∃ e ∈ g.intEdges, g.denseEdge e = some e' := by
  rw [intEdges_reload, sortBy, (perm_insertionSort _ _).mem_iff, mem_filterMap]

/-- Its names. -/
lemma memoryName_reload (hi : g.denseId nid = some i) :
    g.reload.memoryName i = g.memoryName nid := by
  rw [memoryName, memoryName, get_reload_denseId hi]

/-- A save and a load keep a graph, but for the order of its edges. -/
theorem Ok.reloaded (h : g.Ok) : Reloaded g g.reload := by
  have hends : ∀ e' ∈ g.reload.intEdges, ∃ e ∈ g.intEdges, e'.kind = e.kind ∧
      g.denseId e.source = some e'.source ∧ g.denseId e.target = some e'.target := by
    intro e' he'
    obtain ⟨e, he, hdense⟩ := mem_intEdges_reload.mp he'
    obtain ⟨i, j, hi, hj, heq⟩ := h.exists_denseEdge he
    cases heq.symm.trans hdense
    exact ⟨e, he, rfl, hi, hj⟩
  have hlive : ∀ {n i : ℕ}, g.denseId n = some i → g.reload.interner.Live i := by
    intro n i hi
    obtain ⟨key, node, hget⟩ := denseId_eq_some.mp hi
    exact ⟨key, (keyToId_reload g key i).mpr ⟨n, node, hget⟩⟩
  refine ⟨⟨⟨?_, rfl, ?_, ?_, ?_⟩, ?_, ?_⟩, ?_, ?_, ?_⟩
  · refine ok_internAll g.nodup_toSnapshot_keys fun p hp => ?_
    obtain ⟨n, hn, rfl⟩ := mem_map.mp hp
    obtain ⟨hkey, hnode, -⟩ := mem_iter.mp hn
    exact h.interner.fits n.1 _ _ hkey hnode
  · intro e' he'
    obtain ⟨e, -, -, hi, -⟩ := hends e' he'
    exact hlive hi
  · intro e' he'
    obtain ⟨e, -, -, -, hj⟩ := hends e' he'
    exact hlive hj
  · intro e' he' hkind
    obtain ⟨e, he, hk, hi, hj⟩ := hends e' he'
    rw [memoryName_reload hi, memoryName_reload hj]
    exact h.belief e he (hk ▸ hkind)
  · -- The pairs of the edges are the same before they are sorted.
    rw [supersessions, intEdges_reload]
    refine ((perm_insertionSort _ _).filterMap _).trans (Perm.of_eq ?_)
    rw [supersessions, filterMap_filterMap]
    refine filterMap_congr fun e he => ?_
    obtain ⟨i, j, hi, hj, heq⟩ := h.exists_denseEdge he
    rw [heq, bind_some, supersession, supersession, memoryName_reload hi,
      memoryName_reload hj]
  · exact pairwise_supersessions _ (fun _ => rfl) g.intEdges_reload
  · intro key
    rw [nodeAt, nodeAt]
    cases hid : g.interner.keyToId[key]? with
    | none =>
      have hnone : g.reload.interner.keyToId[key]? = none := by
        refine eq_none_iff_forall_not_mem.mpr fun i hi => ?_
        obtain ⟨n, node, hget⟩ := (keyToId_reload g key i).mp hi
        have := (h.interner.mem_iter.mp (mem_of_getElem? hget)).1
        rw [hid] at this
        cases this
      rw [hnone]
      rfl
    | some n =>
      obtain ⟨i, hi⟩ := h.exists_denseId ⟨key, hid⟩
      rw [(h.keyToId_reload_denseId hi key).mpr hid]
      exact get_reload_denseId hi
  · intro kind key key'
    constructor
    · rintro ⟨e', he', hkind, hs, ht⟩
      obtain ⟨e, he, hk, hi, hj⟩ := hends e' he'
      exact ⟨e, he, hk ▸ hkind, (h.keyToId_reload_denseId hi key).mp hs,
        (h.keyToId_reload_denseId hj key').mp ht⟩
    · rintro ⟨e, he, hkind, hs, ht⟩
      obtain ⟨i, j, hi, hj, heq⟩ := h.exists_denseEdge he
      exact ⟨_, mem_intEdges_reload.mpr ⟨e, he, heq⟩, hkind,
        (h.keyToId_reload_denseId hi key).mpr hs, (h.keyToId_reload_denseId hj key').mpr ht⟩
  · refine ExtTreeMap.ext_getElem? fun key => ext fun value => ?_
    exact (getElem?_ofList (Grouping.nodup_toList_keys g.vocab)).trans
      ExtTreeMap.mem_toList_iff_getElem?_eq_some

/-! ## A save and a load as JSON -/

/-- A node read back, with some float. -/
lemma internal_view (n : InternalNode) (x : F32) :
    Node.internal { n.view with baseImportanceFactor := x } =
      { n with baseImportanceFactor := x } := by
  obtain ⟨kind, externalId, text, factor⟩ := n
  cases kind <;> rfl

/-- The nodes by keys. -/
lemma Ok.getElem?_nodes (h : g.Ok) {key : String} {node : Node} :
    g.nodes[key]? = some node ↔ ∃ n, g.nodeAt key = some n ∧ node = n.view := by
  have hnodup : ((g.interner.iter.map fun n => (n.2.1, n.2.2.view)).map fst).Nodup := by
    rw [List.map_map]
    exact nodup_iter_keys g.interner
  rw [nodes, getElem?_ofList hnodup, List.mem_map]
  constructor
  · rintro ⟨⟨nid, key', n⟩, hn, heq⟩
    cases heq
    obtain ⟨hid, hnode⟩ := h.interner.mem_iter.mp hn
    exact ⟨n, by rw [nodeAt, hid]; exact hnode, rfl⟩
  · rintro ⟨n, hn, rfl⟩
    obtain ⟨nid, hid, hnode⟩ := bind_eq_some_iff.mp hn
    exact ⟨(nid, key, n), h.interner.mem_iter.mpr ⟨hid, hnode⟩, rfl⟩

/-- The JSON form lists its keys once. -/
lemma nodup_legacyNodes (l : LegacyMemoryGraph) :
    ((l.nodes.toList.map fun p => (p.1, p.2.internal)).map fst).Nodup := by
  rw [List.map_map]
  exact Grouping.nodup_toList_keys _

/-- The nodes that a load enters. -/
lemma Ok.mem_legacyNodes (h : g.Ok) (f : F32 → F32) {key : String} {node : InternalNode} :
    (key, node) ∈ (g.toLegacy.mapFloats f).nodes.toList.map (fun p => (p.1, p.2.internal)) ↔
      ∃ n, g.nodeAt key = some n ∧
        node = { n with baseImportanceFactor := f n.baseImportanceFactor } := by
  have hmap : ∀ v, (key, v) ∈ (g.toLegacy.mapFloats f).nodes.toList ↔
      ∃ n, g.nodeAt key = some n ∧
        v = { n.view with baseImportanceFactor := f n.baseImportanceFactor } := by
    intro v
    rw [ExtTreeMap.mem_toList_iff_getElem?_eq_some]
    change (g.nodes.map _)[key]? = some v ↔ _
    rw [ExtTreeMap.getElem?_map, map_eq_some_iff]
    constructor
    · rintro ⟨w, hw, rfl⟩
      obtain ⟨n, hn, rfl⟩ := h.getElem?_nodes.mp hw
      exact ⟨n, hn, rfl⟩
    · rintro ⟨n, hn, rfl⟩
      exact ⟨n.view, h.getElem?_nodes.mpr ⟨n, hn, rfl⟩, rfl⟩
  rw [List.mem_map]
  constructor
  · rintro ⟨⟨key', v⟩, hv, heq⟩
    cases heq
    obtain ⟨n, hn, rfl⟩ := (hmap v).mp hv
    exact ⟨n, hn, internal_view n _⟩
  · rintro ⟨n, hn, rfl⟩
    exact ⟨(key, _), (hmap _).mpr ⟨n, hn, rfl⟩, Prod.ext rfl (internal_view n _)⟩

/-- The nodes after a load. -/
lemma Ok.nodeAt_fromLegacy (h : g.Ok) (f : F32 → F32) :
    (fromLegacy (g.toLegacy.mapFloats f)).interner.Ok ∧
    ∀ key, (fromLegacy (g.toLegacy.mapFloats f)).nodeAt key = (g.nodeAt key).map fun n =>
      { n with baseImportanceFactor := f n.baseImportanceFactor } := by
  have hnodup := nodup_legacyNodes (g.toLegacy.mapFloats f)
  have hmem := @Ok.mem_legacyNodes g h f
  set l := (g.toLegacy.mapFloats f).nodes.toList.map fun p => (p.1, p.2.internal) with hl
  have hfits : ∀ p ∈ l, p.2.Fits p.1 := by
    rintro ⟨key, node⟩ hp
    obtain ⟨n, hn, rfl⟩ := hmem.mp hp
    obtain ⟨nid, hid, hnode⟩ := bind_eq_some_iff.mp hn
    exact h.interner.fits nid key n (h.interner.key_of_id key nid hid) hnode
  refine ⟨ok_internAll hnodup hfits, fun key => ext fun node => ?_⟩
  obtain ⟨-, hnode, hid⟩ := internAll_spec l hnodup
  have hat : (fromLegacy (g.toLegacy.mapFloats f)).nodeAt key = some node ↔ (key, node) ∈ l := by
    change (internAll l).keyToId[key]?.bind (internAll l).get = some node ↔ _
    rw [bind_eq_some_iff]
    constructor
    · rintro ⟨i, hi, hget⟩
      have hfst := (hid key i).mp hi
      rw [NodeInterner.get, hnode] at hget
      rw [getElem?_map, map_eq_some_iff] at hfst hget
      obtain ⟨p, hp, rfl⟩ := hfst
      obtain ⟨q, hq, rfl⟩ := hget
      cases hp.symm.trans hq
      exact mem_of_getElem? hp
    · intro hp
      obtain ⟨i, hi⟩ := getElem?_of_mem hp
      refine ⟨i, (hid key i).mpr (by rw [getElem?_map, hi]; rfl), ?_⟩
      rw [NodeInterner.get, hnode, getElem?_map, hi]
      rfl
  rw [hat, hmem, map_eq_some_iff]
  simp only [eq_comm]

/-- Names of memories, by the node with their key. -/
lemma Ok.nodeAt_memKey (h : g.Ok) {n : InternalNode} (hn : g.nodeAt (memKey id) = some n) :
    n.kind = .memory ∧ n.externalId = id := by
  obtain ⟨nid, hid, hnode⟩ := bind_eq_some_iff.mp hn
  obtain ⟨n', hn', hfits⟩ := h.interner.exists_node hid
  cases hnode.symm.trans hn'
  exact (hfits id).mp rfl

/-- The memory with a name is at its key. -/
lemma Ok.nodeAt_of_memoryName (h : g.Ok) (hlive : g.interner.Live nid)
    (hname : g.memoryName nid = some id) :
    ∃ n, g.interner.get nid = some n ∧ g.nodeAt (memKey id) = some n ∧ n.nodeId = .memory id := by
  have hkey := h.key_of_memoryName hlive hname
  obtain ⟨n, hn, -⟩ := h.interner.exists_node hkey
  have hat : g.nodeAt (memKey id) = some n := by rw [nodeAt, hkey]; exact hn
  obtain ⟨hkind, hext⟩ := h.nodeAt_memKey hat
  exact ⟨n, hn, hat, by simp [InternalNode.nodeId, hkind, hext]⟩

/-- A graph that is loaded from JSON has the same supersessions. -/
lemma Ok.supersessions_fromLegacy (h : g.Ok) (f : F32 → F32) :
    (fromLegacy (g.toLegacy.mapFloats f)).Ok ∧
    (fromLegacy (g.toLegacy.mapFloats f)).supersessions = g.supersessions := by
  obtain ⟨hok, hnodes⟩ := h.nodeAt_fromLegacy f
  set g' := fromLegacy (g.toLegacy.mapFloats f)
  -- An edge that is entered comes from an edge of the same kind.
  set load : InternalEdge → Option InternalEdge := fun e =>
    (g.edgeView e).bind fun v => internalEdge g'.interner { v with weight := f v.weight } with hload
  have hedges : g'.intEdges = g.intEdges.filterMap load := by
    change ((g.intEdges.filterMap g.edgeView).map _).filterMap (internalEdge g'.interner) = _
    rw [filterMap_map, filterMap_filterMap]
    rfl
  have hkind : ∀ e e', load e = some e' → e'.kind = e.kind ∧ g'.interner.Live e'.source ∧
      g'.interner.Live e'.target := by
    intro e e' he
    obtain ⟨v, hv, hint⟩ := bind_eq_some_iff.mp he
    rw [edgeView] at hv
    split at hv
    · cases hv
      rw [internalEdge] at hint
      split at hint
      · next hs ht =>
        cases hint
        exact ⟨rfl, ⟨_, hs⟩, ⟨_, ht⟩⟩
      · cases hint
    · cases hv
  have hname : ∀ id n, g.nodeAt (memKey id) = some n →
      ∃ i, g'.interner.keyToId[memKey id]? = some i ∧ g'.memoryName i = some id := by
    intro id n hn
    obtain ⟨hmem, hext⟩ := h.nodeAt_memKey hn
    have hat := hnodes (memKey id)
    rw [hn, map_some, nodeAt] at hat
    obtain ⟨i, hi, hget⟩ := bind_eq_some_iff.mp hat
    exact ⟨i, hi, by simp [memoryName, hget, hmem, hext]⟩
  have hpair : ∀ e ∈ g.intEdges, ∀ p, g.supersession e = some p →
      ∃ e', load e = some e' ∧ g'.supersession e' = some p := by
    intro e he p hp
    obtain ⟨hsup, hs, ht⟩ := supersession_eq_some.mp hp
    obtain ⟨n, hn, hat, hid⟩ := h.nodeAt_of_memoryName (h.source_live e he) hs
    obtain ⟨m, hm, hat', hid'⟩ := h.nodeAt_of_memoryName (h.target_live e he) ht
    obtain ⟨i, hi, hni⟩ := hname _ _ hat
    obtain ⟨j, hj, hnj⟩ := hname _ _ hat'
    refine ⟨⟨i, j, e.kind, f e.weight, e.lastReinforcedAt⟩, ?_,
      supersession_eq_some.mpr ⟨hsup, hni, hnj⟩⟩
    simp [hload, edgeView, hn, hm, hid, hid', internalEdge, NodeId.asStr, hi, hj]
  constructor
  · refine ⟨hok, rfl, ?_, ?_, ?_⟩
    all_goals
      intro e' he'
      rw [hedges] at he'
      obtain ⟨e, he, hl⟩ := mem_filterMap.mp he'
    · exact (hkind e e' hl).2.1
    · exact (hkind e e' hl).2.2
    · intro hsup
      rw [(hkind e e' hl).1] at hsup
      obtain ⟨⟨old, hold⟩, new, hnew⟩ := h.belief e he hsup
      obtain ⟨e'', hl', hp⟩ := hpair e he (old, new)
        (supersession_eq_some.mpr ⟨hsup, hold, hnew⟩)
      cases hl.symm.trans hl'
      obtain ⟨-, hs, ht⟩ := supersession_eq_some.mp hp
      exact ⟨⟨_, hs⟩, _, ht⟩
  · rw [supersessions, hedges, filterMap_filterMap, supersessions]
    refine filterMap_congr fun e he => ?_
    cases hp : g.supersession e with
    | some p =>
      obtain ⟨e', hl, hp'⟩ := hpair e he p hp
      rw [hl, bind_some, hp']
    | none =>
      have hsup := h.not_supersedes he hp
      cases hl : load e with
      | none => rfl
      | some e' => simp [supersession, (hkind e e' hl).1, hsup]

/-- Loading the JSON form keeps that. -/
lemma Resorted.loadJson (h : Resorted g g') (f : F32 → F32) :
    Resorted g (fromLegacy (g'.toLegacy.mapFloats f)) := by
  obtain ⟨hok, hsup⟩ := h.ok.supersessions_fromLegacy f
  exact ⟨hok, hsup ▸ h.perm, hsup ▸ h.sorted⟩

/-- All floats of a graph are finite. -/
structure FloatsFinite (g : MemoryGraph) : Prop where
  nodes : ∀ n ∈ g.interner.iter, n.2.2.baseImportanceFactor.isFinite = true
  edges : ∀ e ∈ g.intEdges, e.weight.isFinite = true

/-- Compacting keeps the floats. -/
lemma floatsFinite_compact_iff : g.compact.FloatsFinite ↔ g.FloatsFinite := by
  have hmem : ∀ e, e ∈ g.compact.intEdges ↔ e ∈ g.intEdges := fun e =>
    (perm_insertionSort _ _).mem_iff
  exact ⟨fun h => ⟨h.nodes, fun e he => h.edges e ((hmem e).mpr he)⟩,
    fun h => ⟨h.nodes, fun e he => h.edges e ((hmem e).mp he)⟩⟩

/-- The JSON form has the floats of the graph. -/
lemma Ok.finite_toLegacy_iff (h : g.Ok) : g.toLegacy.Finite ↔ g.FloatsFinite := by
  have hnodes : ∀ key node, (key, node) ∈ g.toLegacy.nodes.toList ↔
      ∃ n, g.nodeAt key = some n ∧ node = n.view := by
    intro key node
    rw [ExtTreeMap.mem_toList_iff_getElem?_eq_some]
    exact h.getElem?_nodes
  have hview : ∀ e ∈ g.intEdges, ∃ v, g.edgeView e = some v ∧ v.weight = e.weight := by
    intro e he
    obtain ⟨key, hkey⟩ := h.source_live e he
    obtain ⟨key', hkey'⟩ := h.target_live e he
    obtain ⟨n, hn, -⟩ := h.interner.exists_node hkey
    obtain ⟨m, hm, -⟩ := h.interner.exists_node hkey'
    exact ⟨_, by rw [edgeView, hn, hm], rfl⟩
  constructor
  · intro hfin
    refine ⟨?_, fun e he => ?_⟩
    · rintro ⟨nid, key, n⟩ hn
      obtain ⟨hid, hnode⟩ := h.interner.mem_iter.mp hn
      exact hfin.nodes (key, n.view) ((hnodes key _).mpr ⟨n, by rw [nodeAt, hid]; exact hnode, rfl⟩)
    · obtain ⟨v, hv, hweight⟩ := hview e he
      rw [← hweight]
      exact hfin.edges v (mem_filterMap.mpr ⟨e, he, hv⟩)
  · intro hfin
    refine ⟨?_, fun v hv => ?_⟩
    · rintro ⟨key, node⟩ hp
      obtain ⟨n, hn, rfl⟩ := (hnodes key node).mp hp
      obtain ⟨nid, hid, hnode⟩ := bind_eq_some_iff.mp hn
      exact hfin.nodes (nid, key, n) (h.interner.mem_iter.mpr ⟨hid, hnode⟩)
    · obtain ⟨e, he, hve⟩ := mem_filterMap.mp hv
      obtain ⟨v', hv', hweight⟩ := hview e he
      cases hve.symm.trans hv'
      rw [hweight]
      exact hfin.edges e he

/-! ## Belief answers -/

/-- The belief answers about a memory are the same in both graphs. -/
def SameBeliefs (g g' : MemoryGraph) (id : String) : Prop :=
  g'.beliefHead id = g.beliefHead id ∧ g'.beliefLineage id = g.beliefLineage id

end MemoryGraph

/-- Along the chain of a memory, the pair entered last sorts last: the last memory that supersedes
one on the way to the newest is the greatest such memory, and so is the last one superseded on the
way back. -/
structure SortsLast (pairs : List (String × String)) (id : String) : Prop where
  forward : Agree (lastSuccessor pairs) (greatestSuccessor pairs) [id] id
  backward : ∀ newer, Walk (lastSuccessor pairs) [id] id newer →
    Agree (lastPredecessor pairs) (greatestPredecessor pairs) (newer.reverse ++ [id]) id

namespace MemoryGraph

variable {g g' : MemoryGraph} {id : String}

/-- Sorting keeps the answers about a memory just if the last pairs on its chain sort last. **Proof
sketch.** The chains before and after are the walks along the last and along the greatest pairs; the
memory occurs in a chain once, so equal chains have equal parts. -/
theorem Resorted.sameBeliefs_iff (h : g.Ok) (hr : Resorted g g') (id : String) :
    SameBeliefs g g' id ↔ SortsLast g.supersessions id := by
  obtain ⟨newer, older, hline, hchain, hhead⟩ := h.beliefLineage_spec id
  obtain ⟨newer', older', hline', hchain', hhead'⟩ := hr.ok.beliefLineage_spec id
  have hforward' := hline'.forward
  have hbackward' := hline'.backward
  rw [lastSuccessor_sorted hr.perm hr.sorted] at hforward'
  rw [lastPredecessor_sorted hr.perm hr.sorted] at hbackward'
  have hnewer := hline.forward.eq_iff_agree hforward'
  constructor
  · rintro ⟨-, heq⟩
    rw [hchain, hchain'] at heq
    have hnot : id ∉ older'.reverse := fun hmem =>
      hbackward'.not_mem_visited id (mem_reverse.mp hmem) (by simp)
    have hnot' : id ∉ newer' := fun hmem => hforward'.not_mem_visited id hmem (by simp)
    obtain ⟨holder, -, rfl⟩ := (append_cons_inj_of_notMem hnot hnot').mp heq
    obtain rfl := reverse_injective holder
    refine ⟨hnewer.mp rfl, fun path hpath => ?_⟩
    obtain rfl := hline.forward.unique hpath
    exact (hline.backward.eq_iff_agree hbackward').mp rfl
  · intro hsorts
    obtain rfl := hnewer.mpr hsorts.forward
    obtain rfl := (hline.backward.eq_iff_agree hbackward').mpr
      (hsorts.backward newer hline.forward)
    exact ⟨hhead'.trans hhead.symm, hchain'.trans hchain.symm⟩

end MemoryGraph

end TurboMemory
