import Std.Data.ExtTreeMap
import TurboMemory.Lib.Loops
import TurboMemory.Storage.Record

/-!
# The cognitive graph and the lexical index

Memories and the concepts extracted from them are nodes of a graph with weighted edges
(`MemoryGraph`); next to it stands a lexical index over the texts of the memories (`Bm25Index`).
Both are derived from the records, and are updated by every write.

## Main results

* `MemoryGraph.Ok` — the invariant, kept by both operations.
* `MemoryGraph.Ok.supersessions_addMemoryScoped`, `MemoryGraph.Ok.supersessions_removeMemory` —
  what both do to the supersession edges.
* `MemoryGraph.Ok.mem_memoryIds` — the memories of a graph are the ids with a key.

## Implementation notes

Edge weights are floats and enter through `GraphArith`, together with the resolution of a
concept in the vocabulary and the tokenizer; none of them decides which nodes exist.
-/

set_option autoImplicit false

namespace TurboMemory

open Std List Option

/-! ## Nodes -/

/-- The kind of a node. -/
inductive NodeKind
  | memory
  | concept
deriving DecidableEq

/-- The key of a memory node. -/
def memKey (id : String) : String := "mem:" ++ id

/-- The key of a concept node. -/
def conceptKey (concept : String) : String := "concept:" ++ concept

/-- A node. -/
structure InternalNode where
  kind : NodeKind
  /-- The memory id or the concept name. -/
  externalId : String
  text : String
  baseImportanceFactor : F32
deriving DecidableEq

/-- The key of a node. -/
def InternalNode.key (node : InternalNode) : String :=
  match node.kind with
  | .memory => memKey node.externalId
  | .concept => conceptKey node.externalId

/-- Memories have different keys. -/
lemma memKey_injective : Function.Injective memKey := by
  intro a b h
  simpa [memKey] using h

/-- Concepts have different keys. -/
lemma conceptKey_injective : Function.Injective conceptKey := by
  intro a b h
  simpa [conceptKey] using h

/-- No memory has the key of a concept. -/
lemma memKey_ne_conceptKey (id concept : String) : memKey id ≠ conceptKey concept := by
  intro h
  have := congrArg (fun s => s.toList.head?) h
  simp [memKey, conceptKey] at this

/-- The key is that of a memory just if the node is one, with the same id. -/
def InternalNode.Fits (node : InternalNode) (key : String) : Prop :=
  ∀ id, key = memKey id ↔ node.kind = .memory ∧ node.externalId = id

/-- A node fits its own key. -/
lemma InternalNode.fits_key (node : InternalNode) : node.Fits node.key := by
  intro id
  cases hkind : node.kind with
  | memory => simp [key, hkind, memKey_injective.eq_iff]
  | concept => simp [key, hkind, (memKey_ne_conceptKey _ _).symm]

/-- Maps external keys to dense node ids, assigned in insertion order and never reused. -/
structure NodeInterner where
  keyToId : ExtTreeMap String ℕ := ∅
  idToKey : List String := []
  idToNode : List InternalNode := []

variable {key : String} {id : ℕ} {node : InternalNode}

namespace NodeInterner

variable (t : NodeInterner)

/-- The id of a key, which is entered with its node if it is new. -/
def intern (key : String) (node : InternalNode) : ℕ × NodeInterner :=
  match t.keyToId[key]? with
  | some id => (id, t)
  | none =>
    let id := t.idToKey.length
    (id, ⟨t.keyToId.insert key id, t.idToKey ++ [key], t.idToNode ++ [node]⟩)

/-- The current nodes in id order; entries whose key was removed or entered again are left
out. -/
def iter : List (ℕ × String × InternalNode) :=
  (t.idToKey.zip t.idToNode).zipIdx.filterMap fun p =>
    if t.keyToId[p.1.1]? = some p.2 then some (p.2, p.1.1, p.1.2) else none

/-- The node with an id, current or not. -/
def get (id : ℕ) : Option InternalNode := t.idToNode[id]?

/-- The id belongs to a key. -/
def Live (id : ℕ) : Prop := ∃ key : String, t.keyToId[key]? = some id

/-- The invariant: keys and nodes have the same ids, and the keys of memories belong to them. -/
structure Ok (t : NodeInterner) : Prop where
  length_eq : t.idToNode.length = t.idToKey.length
  key_of_id : ∀ (key : String) (id : ℕ), t.keyToId[key]? = some id → t.idToKey[id]? = some key
  fits : ∀ (id : ℕ) (key : String) (node : InternalNode), t.idToKey[id]? = some key →
    t.idToNode[id]? = some node → node.Fits key

section Ok

variable {t : NodeInterner}

/-- Nothing is interned. -/
lemma ok_empty : ({} : NodeInterner).Ok := ⟨rfl, by simp, by simp⟩

/-- A key leads to a node. -/
lemma Ok.exists_node (h : t.Ok) (hid : t.keyToId[key]? = some id) :
    ∃ node, t.get id = some node ∧ node.Fits key := by
  have hkey := h.key_of_id key id hid
  have hlt : id < t.idToNode.length := by
    rw [h.length_eq]
    exact (List.getElem?_eq_some_iff.mp hkey).1
  have hnode : t.idToNode[id]? = some t.idToNode[id] := getElem?_eq_getElem hlt
  exact ⟨_, hnode, h.fits id key _ hkey hnode⟩

/-- Different keys have different ids. -/
lemma Ok.key_injective (h : t.Ok) {key key' : String}
    (hid : t.keyToId[key]? = some id) (hid' : t.keyToId[key']? = some id) : key = key' :=
  some.inj ((h.key_of_id key id hid).symm.trans (h.key_of_id key' id hid'))

/-- The current nodes. -/
lemma mem_iter : (id, key, node) ∈ t.iter ↔
      t.idToKey[id]? = some key ∧ t.idToNode[id]? = some node ∧ t.keyToId[key]? = some id := by
  rw [iter, mem_filterMap]
  constructor
  · rintro ⟨⟨⟨key', node'⟩, id'⟩, hmem, hif⟩
    rw [mem_zipIdx_iff_getElem?] at hmem
    split at hif
    · next hid =>
      obtain ⟨rfl, rfl, rfl⟩ : id' = id ∧ key' = key ∧ node' = node := by simpa using hif
      obtain ⟨hkey, hnode⟩ := getElem?_zip_eq_some.mp hmem
      exact ⟨hkey, hnode, hid⟩
    · cases hif
  · rintro ⟨hkey, hnode, hid⟩
    refine ⟨((key, node), id), ?_, by simp [hid]⟩
    rw [mem_zipIdx_iff_getElem?]
    exact getElem?_zip_eq_some.mpr ⟨hkey, hnode⟩

/-- The nodes under their keys. -/
lemma Ok.mem_iter (h : t.Ok) :
    (id, key, node) ∈ t.iter ↔ t.keyToId[key]? = some id ∧ t.get id = some node := by
  rw [NodeInterner.mem_iter]
  exact ⟨fun ⟨_, hnode, hid⟩ => ⟨hid, hnode⟩,
    fun ⟨hid, hnode⟩ => ⟨h.key_of_id key id hid, hnode, hid⟩⟩

/-- Interning a key gives it an id and keeps every id and every node. -/
lemma Ok.intern (h : t.Ok) (key : String) (node : InternalNode) (hfits : node.Fits key) :
    (t.intern key node).2.Ok ∧ (t.intern key node).2.keyToId[key]? = some (t.intern key node).1 ∧
    (∀ key' : String, key' ≠ key → (t.intern key node).2.keyToId[key']? = t.keyToId[key']?) ∧
    (∀ (key' : String) (id : ℕ), t.keyToId[key']? = some id →
      (t.intern key node).2.keyToId[key']? = some id) ∧
    ∀ id n, t.get id = some n → (t.intern key node).2.get id = some n := by
  rw [NodeInterner.intern]
  cases hid : t.keyToId[key]? with
  | some id => exact ⟨h, hid, fun _ _ => rfl, fun _ _ h => h, fun _ _ h => h⟩
  | none =>
    refine ⟨⟨by simp [h.length_eq], ?_, ?_⟩, by simp, ?_, ?_, ?_⟩
    · intro key' id hid'
      simp only [ExtTreeMap.getElem?_insert] at hid'
      split at hid'
      · next heq =>
        cases hid'
        obtain rfl : key = key' := by simpa using heq
        simp
      · have := h.key_of_id key' id hid'
        rw [List.getElem?_append_left (List.getElem?_eq_some_iff.mp this).1, this]
    · intro id key' node' hkey' hnode'
      rcases Nat.lt_trichotomy id t.idToKey.length with hlt | rfl | hgt
      · rw [getElem?_append_left hlt] at hkey'
        rw [getElem?_append_left (by rw [h.length_eq]; exact hlt)] at hnode'
        exact h.fits id key' node' hkey' hnode'
      · rw [getElem?_concat_length] at hkey'
        rw [← h.length_eq, getElem?_concat_length] at hnode'
        rw [← some.inj hkey', ← some.inj hnode']
        exact hfits
      · rw [getElem?_eq_none (by simp; omega)] at hkey'
        cases hkey'
    · intro key' hne
      simp [ExtTreeMap.getElem?_insert, Ne.symm hne]
    · intro key' id hid'
      have hne : key' ≠ key := by
        rintro rfl
        rw [hid] at hid'
        cases hid'
      simp [ExtTreeMap.getElem?_insert, Ne.symm hne, hid']
    · intro id n hn
      exact (List.getElem?_append_left (List.getElem?_eq_some_iff.mp hn).1).trans hn

/-- Dropping a key keeps the other keys' ids and every node. -/
lemma Ok.erase (h : t.Ok) (key : String) :
    ({ t with keyToId := t.keyToId.erase key } : NodeInterner).Ok := by
  refine ⟨h.length_eq, ?_, h.fits⟩
  intro key' id hid
  simp only [ExtTreeMap.getElem?_erase] at hid
  split at hid
  · cases hid
  · exact h.key_of_id key' id hid

end Ok

end NodeInterner

/-! ## The graph -/

/-- The kind of an edge. -/
inductive EdgeKind
  | association
  | temporal
  | abstraction
  | refines
  | contradicts
deriving DecidableEq

/-- The kinds of the edges from a memory to one that takes its place. -/
def EdgeKind.supersedes : EdgeKind → Bool
  | .refines => true
  | .contradicts => true
  | _ => false

/-- An edge between node ids. -/
structure InternalEdge where
  source : ℕ
  target : ℕ
  kind : EdgeKind
  weight : F32
  lastReinforcedAt : ℕ
deriving DecidableEq

/-- Concept aliases. -/
abbrev ConceptVocabulary := ExtTreeMap String String

/-- The arithmetic and text processing the graph and the lexical index use. -/
structure GraphArith where
  importanceFactor : F32 → F32
  /-- Half of a weight. -/
  halve : F32 → F32
  /-- The canonical form of a concept. -/
  resolve : ConceptVocabulary → String → String
  tokenize : String → List String

/-- A property graph over memories and concepts. -/
structure MemoryGraph where
  interner : NodeInterner := {}
  intEdges : List InternalEdge := []
  /-- Edge indexes by source. -/
  intAdjacency : ExtTreeMap ℕ (List ℕ) := ∅
  lastMemoryId : Option String := none
  lastMemoryByScope : ExtTreeMap String String := ∅
  coOccurrence : ExtTreeMap String ℕ := ∅
  vocab : ConceptVocabulary := ∅
  /-- Concepts too general to be useful. -/
  suppressedConcepts : List String := []

namespace MemoryGraph

/-- Enter an edge index under its source. -/
def addAdjacency (adj : ExtTreeMap ℕ (List ℕ)) (source idx : ℕ) :
    ExtTreeMap ℕ (List ℕ) :=
  adj.insert source ((adj[source]?.getD []) ++ [idx])

variable (g : MemoryGraph)

/-- Append an edge. -/
def addIntEdge (source target : ℕ) (kind : EdgeKind) (weight : F32) :
    MemoryGraph :=
  { g with
    intEdges := g.intEdges ++ [⟨source, target, kind, weight, 0⟩]
    intAdjacency := addAdjacency g.intAdjacency source g.intEdges.length }

/-- The canonical concepts, without empty ones and repetitions. -/
def normalizeConcepts (A : GraphArith) (vocab : ConceptVocabulary) (concepts : List String) :
    List String :=
  concepts.foldl (fun normalized concept =>
    let norm := A.resolve vocab concept
    if norm ≠ "" ∧ norm ∉ normalized then normalized ++ [norm] else normalized) []

/-- Enter a concept and connect it with a memory in both directions. -/
def associate (memId : ℕ) (imp : F32) (g : MemoryGraph) (concept : String) : MemoryGraph :=
  let r := g.interner.intern (conceptKey concept) ⟨.concept, concept, concept, F32.zero⟩
  let g := { g with interner := r.2 }
  (g.addIntEdge memId r.1 .association imp).addIntEdge r.1 memId .association imp

/-- Count the pairs of concepts that occur together. -/
def countPairs : List String → ExtTreeMap String ℕ → ExtTreeMap String ℕ
  | [], counts => counts
  | a :: rest, counts =>
    countPairs rest (rest.foldl (fun counts b =>
      let key := "concept:" ++ a ++ "\x00" ++ "concept:" ++ b
      counts.insert key (counts[key]?.getD 0 + 1)) counts)

/-- The memory a new one of this scope follows, and the chain heads without it. -/
def takePrevious (scope : Option String) : Option String × MemoryGraph :=
  let scopeKey := scope.getD ""
  match g.lastMemoryByScope[scopeKey]? with
  | some prev => (some prev, { g with lastMemoryByScope := g.lastMemoryByScope.erase scopeKey })
  | none =>
    if scope.isNone then (g.lastMemoryId, { g with lastMemoryId := none }) else (none, g)

/-- Chain a memory to the previous one of its scope, if that is still there. -/
def chain (A : GraphArith) (g : MemoryGraph) (memId : ℕ) (imp : F32) (prev : Option String) :
    MemoryGraph :=
  match prev.bind fun prev => g.interner.keyToId[memKey prev]? with
  | some prevId => g.addIntEdge prevId memId .temporal (A.halve imp)
  | none => g

/-- Insert a memory with its concepts and the temporal edge from the previous one. -/
def addMemoryScoped (A : GraphArith) (g : MemoryGraph) (id text : String)
    (concepts : List String) (importance : F32) (scope : Option String) : MemoryGraph :=
  let imp := A.importanceFactor importance
  let r := g.interner.intern (memKey id) ⟨.memory, id, text, imp⟩
  let g := { g with interner := r.2 }
  let normalized := normalizeConcepts A g.vocab concepts
  let g := normalized.foldl (associate r.1 imp) g
  let g := if 1 < normalized.length then
    { g with coOccurrence := countPairs (normalized.mergeSort) g.coOccurrence } else g
  let p := g.takePrevious scope
  let g := p.2.chain A r.1 imp p.1
  { g with
    lastMemoryByScope := g.lastMemoryByScope.insert (scope.getD "") id
    lastMemoryId := if scope.isNone then some id else g.lastMemoryId }

variable (edges : List InternalEdge)

/-- The adjacency of a list of edges. -/
def rebuildAdjacency : ExtTreeMap ℕ (List ℕ) :=
  edges.zipIdx.foldl (fun adj p => addAdjacency adj p.1.source p.2) ∅

/-- Remove a memory and the edges at it. -/
def removeMemory (id : String) : MemoryGraph :=
  match g.interner.keyToId[memKey id]? with
  | none => g
  | some memId =>
    let edges := g.intEdges.filter fun e => e.source ≠ memId ∧ e.target ≠ memId
    { g with
      interner := { g.interner with keyToId := g.interner.keyToId.erase (memKey id) }
      intEdges := edges
      intAdjacency := rebuildAdjacency edges }

/-- The memory a node stands for. -/
def memoryName (nid : ℕ) : Option String :=
  match g.interner.get nid with
  | some node => if node.kind = .memory then some node.externalId else none
  | none => none

/-- The memories an edge supersedes and is superseded by. -/
def supersession (e : InternalEdge) : Option (String × String) :=
  if e.kind.supersedes then
    match g.memoryName e.source, g.memoryName e.target with
    | some old, some new => some (old, new)
    | _, _ => none
  else none

/-- The pairs of an older memory and one that supersedes it, in the order of the edges. -/
def supersessions : List (String × String) :=
  g.intEdges.filterMap g.supersession

/-- The ids of the memory nodes. -/
def memoryIds : List String :=
  g.interner.iter.filterMap fun n =>
    if n.2.2.kind = .memory then some n.2.2.externalId else none

/-! ## The invariant -/

/-- The indexes of the edges from a node. -/
lemma getD_rebuildAdjacency (n : ℕ) :
    (rebuildAdjacency edges)[n]?.getD [] = (edges.zipIdx.filter (·.1.source = n)).map Prod.snd := by
  suffices h : ∀ (l : List (InternalEdge × ℕ)) (adj : ExtTreeMap ℕ (List ℕ)),
      (l.foldl (fun adj p => addAdjacency adj p.1.source p.2) adj)[n]?.getD [] =
        adj[n]?.getD [] ++ (l.filter (·.1.source = n)).map Prod.snd by
    simpa [rebuildAdjacency] using h edges.zipIdx ∅
  intro l
  induction l with
  | nil => simp
  | cons p l ih =>
    intro adj
    rw [foldl_cons, ih, addAdjacency, ExtTreeMap.getElem?_insert]
    by_cases heq : p.1.source = n
    · simp [heq]
    · simp [heq]

/-- One more edge. -/
lemma rebuildAdjacency_concat (e : InternalEdge) :
    rebuildAdjacency (edges ++ [e]) =
      addAdjacency (rebuildAdjacency edges) e.source edges.length := by
  simp [rebuildAdjacency, zipIdx_append]

/-- The invariant of a graph: the adjacency is that of the edges, edges join current nodes, and
supersessions join memories. -/
structure Ok (g : MemoryGraph) : Prop where
  interner : g.interner.Ok
  adjacency : g.intAdjacency = rebuildAdjacency g.intEdges
  source_live : ∀ e ∈ g.intEdges, g.interner.Live e.source
  target_live : ∀ e ∈ g.intEdges, g.interner.Live e.target
  belief : ∀ e ∈ g.intEdges, e.kind.supersedes →
    (∃ old, g.memoryName e.source = some old) ∧ ∃ new, g.memoryName e.target = some new

/-- An empty graph is good. -/
lemma ok_empty : ({} : MemoryGraph).Ok :=
  ⟨NodeInterner.ok_empty, rfl, by simp, by simp, by simp⟩

section Ok

variable {g g' : MemoryGraph} {id : String} {nid : ℕ}

/-- The key of a memory is the key of its node. -/
lemma Ok.memoryName_of_key (h : g.Ok) (hid : g.interner.keyToId[memKey id]? = some nid) :
    g.memoryName nid = some id := by
  obtain ⟨node, hnode, hfits⟩ := h.interner.exists_node hid
  obtain ⟨hkind, hext⟩ := (hfits id).mp rfl
  rw [memoryName, hnode]
  simp [hkind, hext]

section

variable (h : g.Ok) (hlive : g.interner.Live nid)
include h hlive

/-- A current memory node is found under its key. -/
lemma Ok.key_of_memoryName
    (hname : g.memoryName nid = some id) : g.interner.keyToId[memKey id]? = some nid := by
  obtain ⟨key, hkey⟩ := hlive
  obtain ⟨node, hnode, hfits⟩ := h.interner.exists_node hkey
  rw [memoryName, hnode] at hname
  simp only [ite_none_right_eq_some, some.injEq] at hname
  rwa [← (hfits id).mpr hname]

/-- Different current nodes stand for different memories. -/
lemma Ok.memoryName_injective {nid' : ℕ}
    (hlive' : g.interner.Live nid') (hname : g.memoryName nid = some id)
    (hname' : g.memoryName nid' = some id) : nid = nid' :=
  some.inj
    ((h.key_of_memoryName hlive hname).symm.trans (h.key_of_memoryName hlive' hname'))

/-- A current node keeps its name when nodes are only added. -/
lemma Ok.memoryName_eq
    (hget : ∀ id n, g.interner.get id = some n → g'.interner.get id = some n) :
    g'.memoryName nid = g.memoryName nid := by
  obtain ⟨key, hkey⟩ := hlive
  obtain ⟨node, hnode, -⟩ := h.interner.exists_node hkey
  rw [memoryName, memoryName, hnode, hget nid node hnode]

end

/-- Adding nodes keeps the invariant and the supersessions. -/
lemma Ok.extend (h : g.Ok) {t : NodeInterner} (ht : t.Ok)
    (hkeys : ∀ (key : String) (id : ℕ), g.interner.keyToId[key]? = some id →
      t.keyToId[key]? = some id) (hget : ∀ id n, g.interner.get id = some n → t.get id = some n) :
    ({ g with interner := t } : MemoryGraph).Ok ∧
      ({ g with interner := t } : MemoryGraph).supersessions = g.supersessions := by
  have hlive : ∀ {nid}, g.interner.Live nid → t.Live nid :=
    fun ⟨key, hkey⟩ => ⟨key, hkeys key _ hkey⟩
  have hname : ∀ {nid}, g.interner.Live nid →
      ({ g with interner := t } : MemoryGraph).memoryName nid = g.memoryName nid :=
    fun hl => h.memoryName_eq hl hget
  refine ⟨⟨ht, h.adjacency, fun e he => hlive (h.source_live e he),
    fun e he => hlive (h.target_live e he), ?_⟩, ?_⟩
  · intro e he hkind
    rw [hname (h.source_live e he), hname (h.target_live e he)]
    exact h.belief e he hkind
  · refine filterMap_congr fun e he => ?_
    rw [supersession, supersession, hname (h.source_live e he), hname (h.target_live e he)]

/-- Appending an edge between current nodes. -/
lemma Ok.addIntEdge (h : g.Ok) {source target : ℕ} (kind : EdgeKind) (weight : F32)
    (hsource : g.interner.Live source) (htarget : g.interner.Live target) (hkind : kind.supersedes →
      (∃ old, g.memoryName source = some old) ∧ ∃ new, g.memoryName target = some new) :
    (g.addIntEdge source target kind weight).Ok := by
  refine ⟨h.interner, ?_, ?_, ?_, ?_⟩
  · rw [MemoryGraph.addIntEdge, rebuildAdjacency_concat, h.adjacency]
  all_goals
    intro e he
    rcases mem_append.mp he with he | he
  · exact h.source_live e he
  · obtain rfl := mem_singleton.mp he
    exact hsource
  · exact h.target_live e he
  · obtain rfl := mem_singleton.mp he
    exact htarget
  · exact h.belief e he
  · obtain rfl := mem_singleton.mp he
    exact hkind

/-- One more edge, and its pair if it has one. -/
lemma supersessions_addIntEdge (g : MemoryGraph) (source target : ℕ) (kind : EdgeKind)
    (weight : F32) : (g.addIntEdge source target kind weight).supersessions =
      g.supersessions ++ (g.supersession ⟨source, target, kind, weight, 0⟩).toList := by
  rw [supersessions, addIntEdge, filterMap_append]
  rfl

/-- The same edge up to its weight. -/
def SameEnds (e e' : InternalEdge) : Prop :=
  e'.source = e.source ∧ e'.target = e.target ∧ e'.kind = e.kind

/-- The adjacency depends on the ends only. -/
lemma rebuildAdjacency_eq_of_sameEnds {edges edges' : List InternalEdge}
    (h : Forall₂ SameEnds edges edges') : rebuildAdjacency edges' = rebuildAdjacency edges := by
  have hsource : edges'.map (·.source) = edges.map (·.source) := by
    induction h with
    | nil => rfl
    | cons hab _ ih => simp [hab.1, ih]
  have hfold : ∀ l, rebuildAdjacency l =
      ((l.map (·.source)).zipIdx.foldl (fun adj p => addAdjacency adj p.1 p.2) ∅) := by
    intro l
    rw [rebuildAdjacency, zipIdx_map, foldl_map]
    rfl
  rw [hfold, hfold, hsource]

/-- The edge that an edge came from. -/
lemma exists_of_forall₂ {R : InternalEdge → InternalEdge → Prop} {edges edges' : List InternalEdge}
    (h : Forall₂ R edges edges') {e' : InternalEdge} (he' : e' ∈ edges') : ∃ e ∈ edges, R e e' := by
  obtain ⟨i, hi, rfl⟩ := getElem_of_mem he'
  have hi' : i < edges.length := by rwa [h.length_eq]
  exact ⟨edges[i], getElem_mem hi', (forall₂_iff_get.mp h).2 i hi' hi⟩

/-- Changing weights keeps the invariant and the supersessions. -/
lemma Ok.reweigh (h : g.Ok) {edges : List InternalEdge}
    (hedges : Forall₂ SameEnds g.intEdges edges) : ({ g with intEdges := edges } : MemoryGraph).Ok ∧
      ({ g with intEdges := edges } : MemoryGraph).supersessions = g.supersessions := by
  have hmem : ∀ e' ∈ edges, ∃ e ∈ g.intEdges, SameEnds e e' := fun e' => exists_of_forall₂ hedges
  refine ⟨⟨h.interner, ?_, ?_, ?_, ?_⟩, ?_⟩
  · exact h.adjacency.trans (rebuildAdjacency_eq_of_sameEnds hedges).symm
  · intro e' he'
    obtain ⟨e, he, hsame⟩ := hmem e' he'
    rw [hsame.1]
    exact h.source_live e he
  · intro e' he'
    obtain ⟨e, he, hsame⟩ := hmem e' he'
    rw [hsame.2.1]
    exact h.target_live e he
  · intro e' he' hkind
    obtain ⟨e, he, hsame⟩ := hmem e' he'
    rw [hsame.2.2] at hkind
    rw [hsame.1, hsame.2.1]
    exact h.belief e he hkind
  · change edges.filterMap g.supersession = g.intEdges.filterMap g.supersession
    have hsame : ∀ e e', SameEnds e e' → g.supersession e' = g.supersession e := by
      rintro e e' ⟨hsource, htarget, hkind⟩
      rw [supersession, supersession, hsource, htarget, hkind]
    clear hmem
    generalize g.intEdges = l at hedges
    induction hedges with
    | nil => rfl
    | cons hab _ ih => simp only [filterMap_cons, hsame _ _ hab, ih]

/-- Drop a node and the edges at it. -/
def dropNode (g : MemoryGraph) (key : String) (nid : ℕ) : MemoryGraph :=
  let edges := g.intEdges.filter fun e => e.source ≠ nid ∧ e.target ≠ nid
  { g with
    interner := { g.interner with keyToId := g.interner.keyToId.erase key }
    intEdges := edges
    intAdjacency := rebuildAdjacency edges }

/-- Removing a node keeps a graph good. -/
lemma Ok.dropNode (h : g.Ok) (hkey : g.interner.keyToId[key]? = some nid) :
    (g.dropNode key nid).Ok := by
  -- The other nodes stay current.
  have hlive : ∀ {n}, g.interner.Live n → n ≠ nid →
      (g.dropNode key nid).interner.Live n := by
    rintro n ⟨key', hkey'⟩ hne
    refine ⟨key', ?_⟩
    have hkeys : key ≠ key' := by
      rintro rfl
      exact hne (some.inj (hkey'.symm.trans hkey))
    simpa [MemoryGraph.dropNode, ExtTreeMap.getElem?_erase, hkeys] using hkey'
  have hmem : ∀ e ∈ (g.dropNode key nid).intEdges,
      e ∈ g.intEdges ∧ e.source ≠ nid ∧ e.target ≠ nid := by
    intro e he
    simpa [MemoryGraph.dropNode] using he
  refine ⟨h.interner.erase key, rfl, ?_, ?_, ?_⟩
  · intro e he
    exact hlive (h.source_live e (hmem e he).1) (hmem e he).2.1
  · intro e he
    exact hlive (h.target_live e (hmem e he).1) (hmem e he).2.2
  · exact fun e he => h.belief e (hmem e he).1

/-- Dropping a node drops the supersessions at it. -/
lemma Ok.supersessions_dropNode (h : g.Ok) (hid : g.interner.keyToId[memKey id]? = some nid) :
    (g.dropNode (memKey id) nid).supersessions =
      g.supersessions.filter fun p => p.1 ≠ id ∧ p.2 ≠ id := by
  have hends : ∀ n, g.interner.Live n → ∀ name, g.memoryName n = some name →
      (n = nid ↔ name = id) := by
    intro n hn name hname
    constructor
    · rintro rfl
      exact some.inj (hname.symm.trans (h.memoryName_of_key hid))
    · rintro rfl
      exact some.inj ((h.key_of_memoryName hn hname).symm.trans hid)
  change (g.intEdges.filter _).filterMap g.supersession = _
  rw [supersessions, filterMap_filter, filter_filterMap]
  refine filterMap_congr fun e he => ?_
  cases hs : g.supersession e with
  | none => simp
  | some p =>
    obtain ⟨old, new⟩ := p
    rw [supersession] at hs
    split at hs
    · next hkind =>
      obtain ⟨⟨o, ho⟩, ⟨w, hw⟩⟩ := h.belief e he hkind
      rw [ho, hw] at hs
      obtain ⟨rfl, rfl⟩ : o = old ∧ w = new := by simpa using hs
      have h1 := hends e.source (h.source_live e he) o ho
      have h2 := hends e.target (h.target_live e he) w hw
      by_cases hold : o = id <;> by_cases hnew : w = id <;> simp [h1, h2, hold, hnew, Option.filter]
    · cases hs

/-- A known memory is removed with its node. -/
lemma removeMemory_of_key (hid : g.interner.keyToId[memKey id]? = some nid) :
    g.removeMemory id = g.dropNode (memKey id) nid := by
  rw [removeMemory, hid]
  rfl

/-- The memories of a supersession are in the graph. -/
lemma Ok.key_of_mem_supersessions (h : g.Ok) {p : String × String} (hp : p ∈ g.supersessions) :
    (∃ nid, g.interner.keyToId[memKey p.1]? = some nid) ∧
      ∃ nid, g.interner.keyToId[memKey p.2]? = some nid := by
  obtain ⟨e, he, hs⟩ := mem_filterMap.mp hp
  rw [supersession] at hs
  split at hs
  · split at hs
    · next old new hold hnew =>
      cases hs
      exact ⟨⟨_, h.key_of_memoryName (h.source_live e he) hold⟩,
        ⟨_, h.key_of_memoryName (h.target_live e he) hnew⟩⟩
    · cases hs
  · cases hs

/-- Removing a memory keeps a graph good. -/
lemma Ok.removeMemory (h : g.Ok) (id : String) : (g.removeMemory id).Ok := by
  cases hid : g.interner.keyToId[memKey id]? with
  | none => rwa [MemoryGraph.removeMemory, hid]
  | some nid =>
    rw [removeMemory_of_key hid]
    exact h.dropNode hid

/-- Removing a memory removes its supersessions. -/
lemma Ok.supersessions_removeMemory (h : g.Ok) (id : String) :
    (g.removeMemory id).supersessions =
      g.supersessions.filter fun p => p.1 ≠ id ∧ p.2 ≠ id := by
  cases hid : g.interner.keyToId[memKey id]? with
  | none =>
    rw [MemoryGraph.removeMemory, hid]
    refine (filter_eq_self.mpr fun p hp => ?_).symm
    obtain ⟨⟨n, hn⟩, ⟨m, hm⟩⟩ := h.key_of_mem_supersessions hp
    have hne : p.1 ≠ id ∧ p.2 ≠ id := by
      constructor <;> rintro rfl <;> simp_all
    simpa using hne
  | some nid =>
    rw [removeMemory_of_key hid]
    exact h.supersessions_dropNode hid

/-- The memories that stay when one is removed. -/
lemma getElem?_keyToId_removeMemory (g : MemoryGraph) (id id' : String) :
    (g.removeMemory id).interner.keyToId[memKey id']? =
      if id = id' then none else g.interner.keyToId[memKey id']? := by
  cases hid : g.interner.keyToId[memKey id]? with
  | none =>
    rw [removeMemory, hid]
    by_cases heq : id = id'
    · simp [← heq, hid]
    · simp [heq]
  | some nid =>
    rw [removeMemory_of_key hid]
    simp [dropNode, ExtTreeMap.getElem?_erase, memKey_injective.eq_iff]

/-! ## Growth -/

/-- Edges are kept, up to their weights, and others are appended that supersede nothing. -/
def EdgesGrow (edges edges' : List InternalEdge) : Prop :=
  ∃ kept added, edges' = kept ++ added ∧ Forall₂ SameEnds edges kept ∧
    ∀ e ∈ added, e.kind.supersedes = false

/-- One change after the other. -/
lemma SameEnds.trans {e e' e'' : InternalEdge} (h : SameEnds e e') (h' : SameEnds e' e'') :
    SameEnds e e'' :=
  ⟨h'.1.trans h.1, h'.2.1.trans h.2.1, h'.2.2.trans h.2.2⟩

/-- The same for all edges. -/
lemma forall₂_sameEnds_trans {edges edges' edges'' : List InternalEdge}
    (h : Forall₂ SameEnds edges edges') (h' : Forall₂ SameEnds edges' edges'') :
    Forall₂ SameEnds edges edges'' := by
  induction h generalizing edges'' with
  | nil => exact h'
  | cons hab _ ih =>
    obtain ⟨c, rest, hbc, hrest, rfl⟩ := forall₂_cons_left_iff.mp h'
    exact .cons (hab.trans hbc) (ih hrest)

/-- No edge is added. -/
lemma edgesGrow_refl (edges : List InternalEdge) : EdgesGrow edges edges :=
  ⟨edges, [], by simp, forall₂_same.mpr fun _ _ => ⟨rfl, rfl, rfl⟩, by simp⟩

/-- One growth after the other. -/
lemma EdgesGrow.trans {edges edges' edges'' : List InternalEdge} (h : EdgesGrow edges edges')
    (h' : EdgesGrow edges' edges'') : EdgesGrow edges edges'' := by
  obtain ⟨kept, added, rfl, hkept, hadded⟩ := h
  obtain ⟨kept', added', rfl, hkept', hadded'⟩ := h'
  have hfirst : Forall₂ SameEnds kept (kept'.take kept.length) := by
    simpa using forall₂_take kept.length hkept'
  have hsecond : Forall₂ SameEnds added (kept'.drop kept.length) := by
    simpa using forall₂_drop kept.length hkept'
  refine ⟨kept'.take kept.length, kept'.drop kept.length ++ added', ?_,
    forall₂_sameEnds_trans hkept hfirst, fun e he => ?_⟩
  · rw [← append_assoc, take_append_drop]
  · rcases mem_append.mp he with he | he
    · obtain ⟨e₀, he₀, hsame⟩ := exists_of_forall₂ hsecond he
      rw [hsame.2.2]
      exact hadded e₀ he₀
    · exact hadded' e he

/-- The second graph is good and has the memories and supersessions of the first; concepts and other
edges may differ. -/
structure Grows (g g' : MemoryGraph) : Prop where
  ok : g'.Ok
  keys : ∀ (key : String) (nid : ℕ), g.interner.keyToId[key]? = some nid →
    g'.interner.keyToId[key]? = some nid
  nodes : ∀ nid n, g.interner.get nid = some n → g'.interner.get nid = some n
  memories : ∀ id, g'.interner.keyToId[memKey id]? = g.interner.keyToId[memKey id]?
  supersessions : g'.supersessions = g.supersessions
  edges : EdgesGrow g.intEdges g'.intEdges
  vocab : g'.vocab = g.vocab

/-- Nothing is done. -/
lemma Ok.grows (h : g.Ok) : Grows g g :=
  ⟨h, fun _ _ h => h, fun _ _ h => h, fun _ => rfl, rfl, edgesGrow_refl _, rfl⟩

/-- One after the other. -/
lemma Grows.trans {g'' : MemoryGraph} (h : Grows g g') (h' : Grows g' g'') : Grows g g'' where
  ok := h'.ok
  keys key nid hkey := h'.keys key nid (h.keys key nid hkey)
  nodes nid n hn := h'.nodes nid n (h.nodes nid n hn)
  memories id := (h'.memories id).trans (h.memories id)
  supersessions := h'.supersessions.trans h.supersessions
  edges := h.edges.trans h'.edges
  vocab := h'.vocab.trans h.vocab

/-- Nodes stay. -/
lemma Grows.live (h : Grows g g') (hlive : g.interner.Live nid) : g'.interner.Live nid :=
  let ⟨key, hkey⟩ := hlive
  ⟨key, h.keys key nid hkey⟩

/-- A step for each element of a list. -/
lemma Ok.grows_foldl {α : Type} (h : g.Ok) (step : MemoryGraph → α → MemoryGraph) (l : List α)
    (hstep : ∀ g', Grows g g' → ∀ a ∈ l, Grows g' (step g' a)) : Grows g (l.foldl step g) :=
  Loop.foldl_induction l h.grows fun a ha g' hg' => hg'.trans (hstep g' hg' a ha)

/-- Entering a concept. -/
lemma Ok.grows_intern_concept (h : g.Ok) (name text : String) (imp : F32) : Grows g { g with
      interner := (g.interner.intern (conceptKey name) ⟨.concept, name, text, imp⟩).2 } := by
  obtain ⟨hok, -, hother, hkeys, hget⟩ :=
    h.interner.intern (conceptKey name) ⟨.concept, name, text, imp⟩ (InternalNode.fits_key _)
  obtain ⟨hok', hsup⟩ := h.extend hok hkeys hget
  exact ⟨hok', hkeys, hget, fun id => hother _ (memKey_ne_conceptKey id name), hsup,
    edgesGrow_refl _, rfl⟩

/-- Appending an edge that supersedes nothing. -/
lemma Ok.grows_addIntEdge (h : g.Ok) {source target : ℕ} (kind : EdgeKind) (weight : F32)
    (hkind : kind.supersedes = false) (hsource : g.interner.Live source)
    (htarget : g.interner.Live target) : Grows g (g.addIntEdge source target kind weight) := by
  refine ⟨h.addIntEdge kind weight hsource htarget (by simp [hkind]), fun _ _ h => h,
    fun _ _ h => h, fun _ => rfl, ?_, ?_, rfl⟩
  · rw [supersessions_addIntEdge, supersession]
    simp [hkind]
  · exact ⟨g.intEdges, _, rfl, forall₂_same.mpr fun _ _ => ⟨rfl, rfl, rfl⟩, by simp [hkind]⟩

/-- A concept is tied to a memory. -/
lemma Ok.grows_associate (h : g.Ok) {memId : ℕ} (hmem : g.interner.Live memId) (imp : F32)
    (concept : String) : Grows g (associate memId imp g concept) := by
  have hconcept := h.grows_intern_concept concept concept F32.zero
  have hlive := (h.interner.intern (conceptKey concept)
    ⟨.concept, concept, concept, F32.zero⟩ (InternalNode.fits_key _)).2.1
  rw [associate]
  have hfirst := hconcept.ok.grows_addIntEdge .association imp rfl
    (hconcept.live hmem) ⟨_, hlive⟩
  have hsecond := hfirst.ok.grows_addIntEdge .association imp rfl ⟨_, hlive⟩ (hconcept.live hmem)
  exact hconcept.trans (hfirst.trans hsecond)

/-- Only the heads of the chains change. -/
lemma takePrevious_eq (g : MemoryGraph) (scope : Option String) :
    (g.takePrevious scope).2.interner = g.interner ∧
    (g.takePrevious scope).2.intEdges = g.intEdges ∧
    (g.takePrevious scope).2.intAdjacency = g.intAdjacency ∧
    (g.takePrevious scope).2.vocab = g.vocab := by
  rw [takePrevious]
  split
  · exact ⟨rfl, rfl, rfl, rfl⟩
  · split <;> exact ⟨rfl, rfl, rfl, rfl⟩

/-- A memory is chained. -/
lemma Ok.grows_chain (h : g.Ok) (A : GraphArith) {memId : ℕ} (hmem : g.interner.Live memId)
    (imp : F32) (prev : Option String) : Grows g (g.chain A memId imp prev) := by
  rw [chain]
  split
  · next prevId hprev =>
    obtain ⟨prev, -, hid⟩ := bind_eq_some_iff.mp hprev
    exact h.grows_addIntEdge .temporal _ rfl ⟨_, hid⟩ hmem
  · exact h.grows

/-- The graph with the node of a memory. -/
def internMemory (g : MemoryGraph) (id text : String) (imp : F32) : MemoryGraph :=
  { g with interner := (g.interner.intern (memKey id) ⟨.memory, id, text, imp⟩).2 }

/-- The steps of an insertion: the node of the memory, its concepts, the counts and the temporal
edge. The heads of the chains change in between. -/
lemma addMemoryScoped_induction {P : MemoryGraph → Prop} {A : GraphArith} {id text : String}
    {concepts : List String} {importance : F32} (scope : Option String)
    (hmemory : P (g.internMemory id text (A.importanceFactor importance)))
    (htag : ∀ c ∈ normalizeConcepts A g.vocab concepts, ∀ g', P g' → P (associate
      (g.interner.intern (memKey id) ⟨.memory, id, text, A.importanceFactor importance⟩).1
      (A.importanceFactor importance) g' c)) (hcount : ∀ g', P g' → P { g' with
      coOccurrence := countPairs (normalizeConcepts A g.vocab concepts).mergeSort g'.coOccurrence })
    (hheads : ∀ g' heads last, P g' →
      P { g' with lastMemoryByScope := heads, lastMemoryId := last })
    (hchain : ∀ g' prev, P g' → P (g'.chain A
      (g.interner.intern (memKey id) ⟨.memory, id, text, A.importanceFactor importance⟩).1
      (A.importanceFactor importance) prev)) :
    P (g.addMemoryScoped A id text concepts importance scope) := by
  have htake : ∀ g', P g' → P (takePrevious g' scope).2 := by
    intro g' hg'
    rw [takePrevious]
    split
    · exact hheads g' _ g'.lastMemoryId hg'
    · split
      · exact hheads g' g'.lastMemoryByScope none hg'
      · exact hg'
  have hfold := Loop.foldl_induction _ hmemory htag
  refine hheads _ _ _ (hchain _ _ (htake _ ?_))
  split
  · exact hcount _ hfold
  · exact hfold

section

variable (h : g.Ok)
include h

section

variable (A : GraphArith)

section

variable (id text : String) (concepts : List String) (importance : F32) (scope : Option String)

/-- After its node is entered, inserting a memory only adds concepts and edges that supersede
nothing. -/
lemma Ok.grows_addMemoryScoped :
    Grows (g.internMemory id text (A.importanceFactor importance))
      (g.addMemoryScoped A id text concepts importance scope) := by
  obtain ⟨hok, hid, -, hkeys, hget⟩ := h.interner.intern (memKey id)
    ⟨.memory, id, text, A.importanceFactor importance⟩ (InternalNode.fits_key _)
  have hnode : (g.internMemory id text (A.importanceFactor importance)).Ok :=
    (h.extend hok hkeys hget).1
  have hlive : (g.internMemory id text (A.importanceFactor importance)).interner.Live
      (g.interner.intern (memKey id) ⟨.memory, id, text, A.importanceFactor importance⟩).1 :=
    ⟨_, hid⟩
  -- Counts and chain heads are neither nodes nor edges.
  exact addMemoryScoped_induction scope hnode.grows
    (fun c _ g' hg' => hg'.trans (hg'.ok.grows_associate (hg'.live hlive) _ c))
    (fun g' hg' => { hg' with ok := { hg'.ok with } })
    (fun g' _ _ hg' => { hg' with ok := { hg'.ok with } })
    fun g' prev hg' => hg'.trans (hg'.ok.grows_chain A (hg'.live hlive) _ prev)

/-- Adding a memory keeps a graph good. -/
lemma Ok.addMemoryScoped :
    (g.addMemoryScoped A id text concepts importance scope).Ok :=
  (h.grows_addMemoryScoped A id text concepts importance scope).ok

/-- It enters no supersession. -/
lemma Ok.supersessions_addMemoryScoped :
    (g.addMemoryScoped A id text concepts importance scope).supersessions = g.supersessions := by
  rw [(h.grows_addMemoryScoped A id text concepts importance scope).supersessions]
  obtain ⟨hok, -, -, hkeys, hget⟩ := h.interner.intern (memKey id)
    ⟨.memory, id, text, A.importanceFactor importance⟩ (InternalNode.fits_key _)
  exact (h.extend hok hkeys hget).2

/-- Inserting a memory changes nothing about the nodes of the others. -/
lemma Ok.getElem?_keyToId_addMemoryScoped {id' : String}
    (hne : id' ≠ id) :
    (g.addMemoryScoped A id text concepts importance scope).interner.keyToId[memKey id']? =
      g.interner.keyToId[memKey id']? := by
  rw [(h.grows_addMemoryScoped A id text concepts importance scope).memories]
  exact (h.interner.intern (memKey id)
    ⟨.memory, id, text, A.importanceFactor importance⟩ (InternalNode.fits_key _)).2.2.1 _
    (memKey_injective.ne hne)

/-- The node of an inserted memory. -/
lemma Ok.exists_key_addMemoryScoped :
    ∃ nid, (g.addMemoryScoped A id text concepts importance scope).interner.keyToId[memKey id]? =
      some nid := by
  rw [(h.grows_addMemoryScoped A id text concepts importance scope).memories]
  exact ⟨_, (h.interner.intern (memKey id)
    ⟨.memory, id, text, A.importanceFactor importance⟩ (InternalNode.fits_key _)).2.1⟩

end

end

/-- The memories of a graph are the ids with a key. -/
lemma Ok.mem_memoryIds :
    id ∈ g.memoryIds ↔ ∃ nid, g.interner.keyToId[memKey id]? = some nid := by
  rw [memoryIds, mem_filterMap]
  constructor
  · rintro ⟨⟨nid, key, node⟩, hmem, hif⟩
    obtain ⟨hkey, hnode⟩ := h.interner.mem_iter.mp hmem
    refine ⟨nid, h.key_of_memoryName ⟨key, hkey⟩ ?_⟩
    rw [memoryName, hnode]
    exact hif
  · rintro ⟨nid, hid⟩
    obtain ⟨node, hnode, hfits⟩ := h.interner.exists_node hid
    obtain ⟨hkind, hext⟩ := (hfits id).mp rfl
    exact ⟨(nid, memKey id, node), h.interner.mem_iter.mpr ⟨hid, hnode⟩, by simp [hkind, hext]⟩

end

end Ok

end MemoryGraph

/-! ## The lexical index -/

/-- Documents by id, with the frequencies of their terms. -/
structure Bm25Index where
  docs : ExtTreeMap String (List String) := ∅
  /-- Number of documents that contain a term. -/
  termDocFreq : ExtTreeMap String ℕ := ∅
  totalDocLen : ℕ := 0

namespace Bm25Index

/-- Count each distinct term once. -/
def addTermFreqs (freq : ExtTreeMap String ℕ) (tokens : List String) :
    ExtTreeMap String ℕ :=
  tokens.eraseDups.foldl (fun freq t => freq.insert t (freq[t]?.getD 0 + 1)) freq

/-- Discount each distinct term once, and drop it at zero. -/
def removeTermFreqs (freq : ExtTreeMap String ℕ) (tokens : List String) :
    ExtTreeMap String ℕ :=
  tokens.eraseDups.foldl (fun freq t =>
    match freq[t]? with
    | none => freq
    | some count => if count - 1 = 0 then freq.erase t else freq.insert t (count - 1)) freq

/-- Remove a document. -/
def remove (idx : Bm25Index) (id : String) : Bm25Index :=
  match idx.docs[id]? with
  | none => idx
  | some old =>
    ⟨idx.docs.erase id, removeTermFreqs idx.termDocFreq old, idx.totalDocLen - old.length⟩

/-- Add or replace a document. -/
def add (A : GraphArith) (idx : Bm25Index) (id text : String) : Bm25Index :=
  let tokens := A.tokenize text
  let idx := idx.remove id
  ⟨idx.docs.insert id tokens, addTermFreqs idx.termDocFreq tokens, idx.totalDocLen + tokens.length⟩

/-- A removal takes one document. -/
lemma docs_remove (idx : Bm25Index) (id : String) : (idx.remove id).docs = idx.docs.erase id := by
  rw [remove]
  split
  · next hnone =>
    refine ExtTreeMap.ext_getElem? fun id' => ?_
    rw [ExtTreeMap.getElem?_erase]
    split
    · next heq => rw [← LawfulEqCmp.eq_of_compare heq, hnone]
    · rfl
  · rfl

/-- An addition sets one. -/
lemma docs_add (A : GraphArith) (idx : Bm25Index) (id text : String) :
    (idx.add A id text).docs = idx.docs.insert id (A.tokenize text) := by
  show (idx.remove id).docs.insert id (A.tokenize text) = _
  refine ExtTreeMap.ext_getElem? fun id' => ?_
  rw [docs_remove, ExtTreeMap.getElem?_insert, ExtTreeMap.getElem?_insert,
    ExtTreeMap.getElem?_erase]
  split <;> rfl

end Bm25Index

/-- The graph and the lexical index. -/
structure SpreadingActivation where
  graph : MemoryGraph := {}
  bm25 : Bm25Index := {}

namespace SpreadingActivation

/-- A graph with the lexical index of its memories. -/
def new (A : GraphArith) (graph : MemoryGraph) : SpreadingActivation where
  graph := graph
  bm25 := graph.interner.iter.foldl (fun bm25 n =>
    if n.2.2.kind = .memory then bm25.add A n.2.2.externalId n.2.2.text else bm25) {}

/-- Insert a memory in both. -/
def addMemoryScoped (A : GraphArith) (s : SpreadingActivation) (id text : String)
    (concepts : List String) (importance : F32) (scope : Option String) : SpreadingActivation :=
  ⟨s.graph.addMemoryScoped A id text concepts importance scope, s.bm25.add A id text⟩

/-- Remove a memory from both. -/
def removeMemory (s : SpreadingActivation) (id : String) : SpreadingActivation :=
  ⟨s.graph.removeMemory id, s.bm25.remove id⟩

end SpreadingActivation

end TurboMemory
