import TurboMemory.Graph.RoundTrip
import TurboMemory.Graph.Temporal

/-!
# What an insertion reads

An insertion enters nodes and edges that its arguments name, and chains the memory to the head of
its scope. So two graphs with the same nodes and edges stay the same under insertions, as long as
the heads of the chains agree. A saved graph is loaded without the heads of the scopes (`Restart`).

## Main results

* `MemoryGraph.Ok.keyEdges_insert` — the edges after an insertion, by keys.
* `MemoryGraph.chainHead_insert` — the heads of the chains after an insertion.
* `MemoryGraph.restart_transparent_iff` — a restart makes no difference just if the first insertion
  of every scope finds the same head.
-/

set_option autoImplicit false

namespace TurboMemory

open Traces List

namespace MemoryGraph

variable {g g' : MemoryGraph} {A : GraphArith}

/-! ## Nodes and edges by keys -/

/-- The node of a key that is entered, unless it is there. -/
lemma Ok.nodeAt_intern (h : g.Ok) (key : String) (node : InternalNode) (key' : String) :
    ({ g with interner := (g.interner.intern key node).2 } : MemoryGraph).nodeAt key' =
      if key' = key then some ((g.nodeAt key).getD node) else g.nodeAt key' := by
  simp only [nodeAt, NodeInterner.intern]
  cases hid : g.interner.keyToId[key]? with
  | some nid =>
    obtain ⟨n, hn, -⟩ := h.interner.exists_node hid
    by_cases heq : key' = key
    · simp [heq, hid, hn]
    · simp [heq]
  | none =>
    dsimp only
    rw [Std.ExtTreeMap.getElem?_insert]
    by_cases heq : key' = key
    · simp [heq, NodeInterner.get, ← h.interner.length_eq]
    · rw [if_neg (by simpa using Ne.symm heq), if_neg heq]
      cases hid' : g.interner.keyToId[key']? with
      | none => rfl
      | some nid =>
        obtain ⟨n, hn, -⟩ := h.interner.exists_node hid'
        exact List.getElem?_append_left (List.getElem?_eq_some_iff.mp hn).1

/-- Edges keep their ends when nodes are only added. -/
lemma Ok.map_keyEdge (h : g.Ok) (hok : g'.Ok) (hkeys : ∀ (key : String) (nid : ℕ),
    g.interner.keyToId[key]? = some nid → g'.interner.keyToId[key]? = some nid) :
    g.intEdges.map g'.keyEdge = g.keyEdges := by
  have hlive : ∀ {nid}, g.interner.Live nid →
      g'.interner.idToKey[nid]? = g.interner.idToKey[nid]? := by
    rintro nid ⟨key, hid⟩
    rw [h.interner.key_of_id _ _ hid, hok.interner.key_of_id _ _ (hkeys _ _ hid)]
  refine map_congr_left fun e he => ?_
  rw [keyEdge, keyEdge, hlive (h.source_live e he), hlive (h.target_live e he)]

/-- The edges by which a memory has a concept. -/
def tagEdges (id : String) (imp : F32) (concept : String) : List KeyEdge :=
  [⟨some (memKey id), some (conceptKey concept), .association, imp, 0⟩,
    ⟨some (conceptKey concept), some (memKey id), .association, imp, 0⟩]

variable {memId : ℕ}

/-- A concept adds its edges. -/
lemma Ok.keyEdges_associate (h : g.Ok) {id : String}
    (hmem : g.interner.keyToId[memKey id]? = some memId) (imp : F32) (concept : String) :
    (associate memId imp g concept).keyEdges = g.keyEdges ++ tagEdges id imp concept := by
  obtain ⟨hok, hid, -, hkeys, -⟩ := h.interner.intern (conceptKey concept)
    ⟨.concept, concept, concept, F32.zero⟩ (InternalNode.fits_key _)
  have hgrows := h.grows_associate ⟨_, hmem⟩ imp concept
  have hconcept : (associate memId imp g concept).interner.idToKey[_]? = _ := hok.key_of_id _ _ hid
  have hmemory : (associate memId imp g concept).interner.idToKey[memId]? = _ :=
    hok.key_of_id _ _ (hkeys _ _ hmem)
  have hedges : (associate memId imp g concept).intEdges = g.intEdges ++ [_, _] :=
    append_assoc ..
  rw [keyEdges, hedges, map_append, h.map_keyEdge hgrows.ok hgrows.keys]
  simp only [map_cons, map_nil, tagEdges, keyEdge, hconcept, hmemory]

/-- Several concepts add theirs. -/
lemma Ok.keyEdges_foldl_associate (h : g.Ok) {id : String}
    (hmem : g.interner.keyToId[memKey id]? = some memId) (imp : F32) (concepts : List String) :
    (concepts.foldl (associate memId imp) g).keyEdges =
      g.keyEdges ++ concepts.flatMap (tagEdges id imp) := by
  induction concepts generalizing g with
  | nil => simp
  | cons c concepts ih =>
    have hgrows := h.grows_associate ⟨_, hmem⟩ imp c
    rw [foldl_cons, ih hgrows.ok (hgrows.keys _ _ hmem), h.keyEdges_associate hmem,
      flatMap_cons, append_assoc]

/-- The nodes after an insertion depend on the nodes before. -/
lemma Ok.nodeAt_foldl_associate (h : g.Ok) (h' : g'.Ok) {memId memId' : ℕ}
    (hmem : g.interner.Live memId) (hmem' : g'.interner.Live memId') (imp : F32)
    (concepts : List String) (hnodes : ∀ key, g'.nodeAt key = g.nodeAt key) (key : String) :
    (concepts.foldl (associate memId' imp) g').nodeAt key =
      (concepts.foldl (associate memId imp) g).nodeAt key := by
  induction concepts generalizing g g' with
  | nil => exact hnodes key
  | cons c concepts ih =>
    have hgrows := h.grows_associate hmem imp c
    have hgrows' := h'.grows_associate hmem' imp c
    refine ih hgrows.ok hgrows'.ok (hgrows.live hmem) (hgrows'.live hmem') fun key => ?_
    refine (h'.nodeAt_intern _ _ key).trans (Eq.trans ?_ (h.nodeAt_intern _ _ key).symm)
    rw [hnodes, hnodes]

/-! ## Insertions -/

/-- The arguments of an insertion. -/
structure Insertion where
  id : String
  text : String
  concepts : List String
  importance : F32
  scope : Option String

/-- The key under which the head of the chain of a scope is kept. -/
def Insertion.key (c : Insertion) : String := c.scope.getD ""

/-- Insert a memory. -/
def insert (A : GraphArith) (g : MemoryGraph) (c : Insertion) : MemoryGraph :=
  g.addMemoryScoped A c.id c.text c.concepts c.importance c.scope

/-- The temporal edge from a head to a new memory, if the head is a memory then. -/
def chainEdge (A : GraphArith) (live : String → Bool) (head : Option String) (c : Insertion) :
    Option KeyEdge :=
  (head.filter live).map fun prev =>
    ⟨some (memKey prev), some (memKey c.id), .temporal,
      A.halve (A.importanceFactor c.importance), 0⟩

/-- Whether there is a memory. -/
def hasMemory (g : MemoryGraph) (id : String) : Bool := (g.interner.keyToId[memKey id]?).isSome

/-- An insertion adds one memory. -/
lemma Ok.hasMemory_insert (h : g.Ok) (c : Insertion) (id : String) :
    (g.insert A c).hasMemory id = (decide (id = c.id) || g.hasMemory id) := by
  by_cases heq : id = c.id
  · obtain ⟨nid, hid⟩ := h.exists_key_addMemoryScoped A c.id c.text c.concepts c.importance c.scope
    rw [heq, hasMemory, insert, hid]
    simp
  · rw [hasMemory, insert, h.getElem?_keyToId_addMemoryScoped A _ _ _ _ _ heq]
    simp [heq, hasMemory]

/-- What the edges by keys depend on. -/
lemma keyEdges_congr (hinterner : g'.interner = g.interner) (hedges : g'.intEdges = g.intEdges) :
    g'.keyEdges = g.keyEdges := by
  rw [keyEdges, hedges]
  refine map_congr_left fun e _ => ?_
  rw [keyEdge, keyEdge, hinterner]

/-- Chaining adds at most one edge. -/
lemma keyEdges_chain (h : g.interner.Ok) {c : Insertion}
    (hmem : g.interner.keyToId[memKey c.id]? = some memId) (prev : Option String) :
    (g.chain A memId (A.importanceFactor c.importance) prev).keyEdges =
      g.keyEdges ++ (chainEdge A g.hasMemory prev c).toList := by
  cases prev with
  | none => simp [chain, chainEdge]
  | some prev =>
    cases hid : g.interner.keyToId[memKey prev]? with
    | none => simp [chain, chainEdge, hid, hasMemory, Option.filter]
    | some prevId =>
      have hchain : g.chain A memId (A.importanceFactor c.importance) (some prev) =
          g.addIntEdge prevId memId .temporal (A.halve (A.importanceFactor c.importance)) := by
        simp only [chain, Option.bind_some, hid]
      rw [hchain, keyEdges, addIntEdge, map_append]
      simp [chainEdge, hasMemory, hid, Option.filter, keyEdge, h.key_of_id _ _ hid,
        h.key_of_id _ _ hmem, keyEdges]

/-- The graph before the memory is chained has its node and its concepts. -/
lemma Ok.keyEdges_unchained (h : g.Ok) (c : Insertion) :
    (g.unchained A c.id c.text c.concepts c.importance).keyEdges = g.keyEdges ++
      (normalizeConcepts A g.vocab c.concepts).flatMap
        (tagEdges c.id (A.importanceFactor c.importance)) := by
  obtain ⟨hok, hid, -, hkeys, hget⟩ := h.interner.intern (memKey c.id)
    ⟨.memory, c.id, c.text, A.importanceFactor c.importance⟩ (InternalNode.fits_key _)
  have hnode : (g.internMemory c.id c.text (A.importanceFactor c.importance)).Ok :=
    (h.extend hok hkeys hget).1
  have hfold := hnode.keyEdges_foldl_associate hid (A.importanceFactor c.importance)
    (normalizeConcepts A g.vocab c.concepts)
  have hsame : (g.internMemory c.id c.text (A.importanceFactor c.importance)).keyEdges =
      g.keyEdges := h.map_keyEdge hnode hkeys
  rw [hsame] at hfold
  rw [← hfold]
  simp only [unchained]
  split <;> rfl

/-- Chaining adds no node. -/
lemma interner_insert (A : GraphArith) (g : MemoryGraph) (c : Insertion) :
    (g.insert A c).interner = (g.unchained A c.id c.text c.concepts c.importance).interner :=
  (interner_chain A _ _ _ _).trans (takePrevious_eq _ c.scope).1

/-- The edges after an insertion: the concepts of the memory, and the edge from the head of its
scope. -/
lemma Ok.keyEdges_insert (h : g.Ok) (c : Insertion) : (g.insert A c).keyEdges = g.keyEdges ++
      (normalizeConcepts A g.vocab c.concepts).flatMap
        (tagEdges c.id (A.importanceFactor c.importance)) ++
      (chainEdge A (g.insert A c).hasMemory (g.chainHead c.scope) c).toList := by
  set mid := g.unchained A c.id c.text c.concepts c.importance with hmid
  have hinterner := interner_insert A g c
  have htake := mid.takePrevious_eq c.scope
  have hassoc := g.associates_unchained A c.id c.text c.concepts c.importance
  have hhead : (mid.takePrevious c.scope).1 = g.chainHead c.scope := by
    rw [takePrevious_fst, chainHead_congr hassoc.lastMemoryByScope hassoc.lastMemoryId]
  have hok : (mid.takePrevious c.scope).2.interner.Ok := by
    rw [htake.1, ← hinterner]
    exact (h.addMemoryScoped A ..).interner
  have hmem : (mid.takePrevious c.scope).2.interner.keyToId[memKey c.id]? = some
      (g.interner.intern (memKey c.id)
        ⟨.memory, c.id, c.text, A.importanceFactor c.importance⟩).1 := by
    rw [htake.1, ← hinterner, insert, (h.grows_addMemoryScoped A ..).memories]
    exact (h.interner.intern (memKey c.id)
      ⟨.memory, c.id, c.text, A.importanceFactor c.importance⟩ (InternalNode.fits_key _)).2.1
  have hchain := keyEdges_chain (A := A) hok hmem (mid.takePrevious c.scope).1
  have hmemory : (mid.takePrevious c.scope).2.hasMemory = (g.insert A c).hasMemory := by
    funext id
    rw [hasMemory, htake.1, ← hinterner, hasMemory]
  rw [keyEdges_congr htake.1 htake.2.1, h.keyEdges_unchained, hmemory, hhead] at hchain
  rw [← hchain, ← hhead]
  rfl

/-- Another scope keeps the head of its chain. -/
lemma chainHead_insert (A : GraphArith) (g : MemoryGraph) (c : Insertion) (scope : Option String) :
    (g.insert A c).chainHead scope =
      if c.key = scope.getD "" then some c.id else g.chainHead scope := by
  set mid := g.unchained A c.id c.text c.concepts c.importance with hmid
  have hassoc := g.associates_unchained A c.id c.text c.concepts c.importance
  have hchain : ∀ (g : MemoryGraph) (m : ℕ) (imp : F32) (prev : Option String),
      (g.chain A m imp prev).lastMemoryByScope = g.lastMemoryByScope ∧
        (g.chain A m imp prev).lastMemoryId = g.lastMemoryId := by
    intro g m imp prev
    rw [chain]
    split <;> exact ⟨rfl, rfl⟩
  have hscopes : ∀ key, key ≠ c.key →
      (mid.takePrevious c.scope).2.lastMemoryByScope[key]? = g.lastMemoryByScope[key]? := by
    intro key hne
    have hne' : c.scope.getD "" ≠ key := Ne.symm hne
    rw [takePrevious, ← hassoc.lastMemoryByScope]
    split
    · simp [Std.ExtTreeMap.getElem?_erase, hne', hmid]
    · split <;> rfl
  have hlast : c.scope.isNone = false →
      (mid.takePrevious c.scope).2.lastMemoryId = g.lastMemoryId := by
    intro hsome
    rw [takePrevious, ← hassoc.lastMemoryId]
    split
    · rfl
    · rw [if_neg (by simp [hsome])]
  have hfirst : (g.insert A c).lastMemoryByScope =
      (mid.takePrevious c.scope).2.lastMemoryByScope.insert c.key c.id :=
    congrArg (·.insert c.key c.id) (hchain ..).1
  have hsecond : (g.insert A c).lastMemoryId = if c.scope.isNone then some c.id else
      (mid.takePrevious c.scope).2.lastMemoryId :=
    congrArg (if c.scope.isNone then some c.id else ·) (hchain ..).2
  rw [chainHead, chainHead, hfirst, hsecond, Std.ExtTreeMap.getElem?_insert]
  by_cases heq : c.key = scope.getD ""
  · simp [heq]
  · rw [if_neg (by simpa using heq), if_neg heq, hscopes _ (Ne.symm heq)]
    cases hscope : scope with
    | some key => rfl
    | none =>
      have hsome : c.scope.isNone = false := by
        cases hc : c.scope with
        | none => exact absurd (by simp [Insertion.key, hc, hscope]) heq
        | some key => rfl
      rw [hlast hsome, hsome]
      rfl

/-! ## Restarts -/

/-- Insertions into a graph that goes on, and into the one that was restored, the newest first. -/
structure Restart where
  earlier : List Insertion := []
  kept : MemoryGraph
  restored : MemoryGraph

namespace Restart

/-- The next insertion. -/
def step (A : GraphArith) (s : Restart) (c : Insertion) : Restart :=
  ⟨c :: s.earlier, s.kept.insert A c, s.restored.insert A c⟩

/-- Both graphs have the same nodes and the same edges between them. -/
def Same (s : Restart) : Prop :=
  (∀ key, s.restored.nodeAt key = s.kept.nodeAt key) ∧ s.restored.keyEdges.Perm s.kept.keyEdges

/-- A memory of the saved graph, or of the insertions. -/
def known (g : MemoryGraph) (calls : List Insertion) (id : String) : Bool :=
  decide (id ∈ calls.map Insertion.id) || g.hasMemory id

/-- The first insertion of a scope is chained to the same memory as without the restart: the heads
of the scopes are not saved, the last memory without a scope is. -/
def Resumes (g : MemoryGraph) (s : Restart) (c : Insertion) : Prop :=
  c.key ∉ s.earlier.map Insertion.key → (g.chainHead c.scope).filter (known g (c :: s.earlier)) =
      (if c.scope.isNone then g.lastMemoryId else none).filter (known g (c :: s.earlier))

/-- What every insertion keeps, but for the edges. -/
structure Inv (g : MemoryGraph) (s : Restart) : Prop where
  ok : s.kept.Ok
  ok_restored : s.restored.Ok
  nodes : ∀ key, s.restored.nodeAt key = s.kept.nodeAt key
  vocab : s.restored.vocab = s.kept.vocab
  memories : s.kept.hasMemory = known g s.earlier
  heads : ∀ scope, s.kept.chainHead scope =
    ((s.earlier.find? (·.key = scope.getD "")).map (·.id) <|> g.chainHead scope)
  heads_restored : ∀ scope, s.restored.chainHead scope =
    ((s.earlier.find? (·.key = scope.getD "")).map (·.id) <|> g.reload.chainHead scope)

variable {s : Restart}

/-- A memory is a node under its key. -/
lemma hasMemory_eq {g : MemoryGraph} (h : g.Ok) (id : String) :
    g.hasMemory id = (g.nodeAt (memKey id)).isSome := by
  rw [hasMemory, nodeAt]
  cases hid : g.interner.keyToId[memKey id]? with
  | none => rfl
  | some nid =>
    obtain ⟨n, hn, -⟩ := h.interner.exists_node hid
    simp [hn]

/-- An insertion on both sides keeps the invariant. -/
lemma Inv.step (h : Inv g s) (A : GraphArith) (c : Insertion) : Inv g (s.step A c) where
  ok := h.ok.addMemoryScoped A ..
  ok_restored := h.ok_restored.addMemoryScoped A ..
  nodes key := by
    have hstart : ∀ {g : MemoryGraph}, g.Ok →
        (g.internMemory c.id c.text (A.importanceFactor c.importance)).Ok ∧
          (g.internMemory c.id c.text (A.importanceFactor c.importance)).interner.Live
            (g.interner.intern (memKey c.id)
              ⟨.memory, c.id, c.text, A.importanceFactor c.importance⟩).1 := by
      intro g hg
      obtain ⟨hok, hid, -, hkeys, hget⟩ := hg.interner.intern (memKey c.id)
        ⟨.memory, c.id, c.text, A.importanceFactor c.importance⟩ (InternalNode.fits_key _)
      exact ⟨(hg.extend hok hkeys hget).1, _, hid⟩
    have hfold := (hstart h.ok).1.nodeAt_foldl_associate (hstart h.ok_restored).1 (hstart h.ok).2
      (hstart h.ok_restored).2 (A.importanceFactor c.importance)
      (normalizeConcepts A s.kept.vocab c.concepts) (fun key => by
        refine (h.ok_restored.nodeAt_intern _ _ key).trans
          ((h.ok.nodeAt_intern _ _ key).trans ?_).symm
        rw [h.nodes, h.nodes]) key
    have hunchained : ∀ g : MemoryGraph, (g.insert A c).nodeAt key =
        ((normalizeConcepts A g.vocab c.concepts).foldl (associate (g.interner.intern (memKey c.id)
          ⟨.memory, c.id, c.text, A.importanceFactor c.importance⟩).1
          (A.importanceFactor c.importance))
          (g.internMemory c.id c.text (A.importanceFactor c.importance))).nodeAt key := by
      intro g
      rw [nodeAt, interner_insert]
      simp only [unchained]
      split <;> rfl
    refine (hunchained _).trans (Eq.trans ?_ (hunchained _).symm)
    rw [h.vocab]
    exact hfold
  vocab := (h.ok_restored.grows_addMemoryScoped A ..).vocab.trans
    (h.vocab.trans (h.ok.grows_addMemoryScoped A ..).vocab.symm)
  memories := by
    funext id
    refine (h.ok.hasMemory_insert c id).trans ?_
    simp [h.memories, known, Restart.step, Bool.or_assoc]
  heads scope := by
    rw [Restart.step, chainHead_insert, find?_cons]
    by_cases heq : c.key = scope.getD "" <;> simp [heq, h.heads]
  heads_restored scope := by
    rw [Restart.step, chainHead_insert, find?_cons]
    by_cases heq : c.key = scope.getD "" <;> simp [heq, h.heads_restored]

/-- At most one element. -/
lemma toList_perm_iff {α : Type} {a b : Option α} : a.toList.Perm b.toList ↔ a = b := by
  cases a <;> cases b <;> simp

/-- Two heads give the same edge. -/
lemma chainEdge_eq_iff {live : String → Bool} {head head' : Option String} {c : Insertion} :
    chainEdge A live head c = chainEdge A live head' c ↔ head.filter live = head'.filter live := by
  refine (Option.map_injective fun prev prev' heq => ?_).eq_iff
  simpa [memKey_injective.eq_iff] using heq

/-- An insertion keeps both graphs the same just if it finds the same head. -/
lemma Inv.same_step_iff (h : Inv g s) (hs : s.Same) (c : Insertion) :
    (s.step A c).Same ↔ Resumes g s c := by
  have hnext := h.step A c
  have hlive : (s.restored.insert A c).hasMemory = known g (c :: s.earlier) := by
    refine Eq.trans (funext fun id => ?_) hnext.memories
    refine (hasMemory_eq hnext.ok_restored id).trans (Eq.trans ?_ (hasMemory_eq hnext.ok id).symm)
    exact congrArg _ (hnext.nodes _)
  have hedges : (s.step A c).restored.keyEdges.Perm (s.step A c).kept.keyEdges ↔
      (s.restored.chainHead c.scope).filter (known g (c :: s.earlier)) =
        (s.kept.chainHead c.scope).filter (known g (c :: s.earlier)) := by
    have hmemories : (s.kept.insert A c).hasMemory = known g (c :: s.earlier) := hnext.memories
    simp only [Restart.step]
    rw [h.ok_restored.keyEdges_insert, h.ok.keyEdges_insert, hlive, hmemories, h.vocab,
      ← chainEdge_eq_iff, ← toList_perm_iff]
    have htags := hs.2.append_right ((normalizeConcepts A s.kept.vocab c.concepts).flatMap
      (tagEdges c.id (A.importanceFactor c.importance)))
    exact ((htags.append_right _).congr_left _).trans (perm_append_left_iff _)
  rw [Same, and_iff_right hnext.nodes, hedges, Resumes, h.heads, h.heads_restored]
  by_cases hused : c.key ∈ s.earlier.map Insertion.key
  · obtain ⟨c', hc', hkey⟩ := mem_map.mp hused
    have hsome : (s.earlier.find? (·.key = c.scope.getD "")).isSome = true :=
      find?_isSome.mpr ⟨c', hc', decide_eq_true hkey⟩
    obtain ⟨c'', hfind⟩ := Option.isSome_iff_exists.mp hsome
    simp [hfind, hused]
  · have hnone : s.earlier.find? (·.key = c.scope.getD "") = none :=
      find?_eq_none.mpr fun c' hc' heq =>
        hused (mem_map.mpr ⟨c', hc', of_decide_eq_true heq⟩)
    have hempty : g.reload.chainHead c.scope = if c.scope.isNone then g.lastMemoryId else none :=
      rfl
    rw [hnone, hempty]
    simp only [Option.map_none, hused, not_false_eq_true, true_imp_iff]
    exact eq_comm

end Restart

/-- **When a restart makes no difference.** Insertions into a reachable graph and into the one
loaded from its snapshot lead to the same nodes and edges, after each of them, just if the first of
every scope is chained to the same memory. **Proof sketch.** The nodes and the edges of the concepts
depend on nodes and vocabulary, which are saved. The edge of the chain depends on the head: the last
insertion of the scope or, before the first one, that of the graph. -/
theorem restart_transparent_iff {L : LearnArith} (C : Bytes.Codec BinaryGraphSnapshot)
    (h : Reachable A L g) (calls : List Insertion) :
    ∃ g', fromSnapshotBytes C (g.toSnapshotBytes C) = .ok g' ∧
      (Throughout (Restart.step A) Restart.Same calls ⟨[], g, g'⟩ ↔
        Along (Restart.step A) (Restart.Resumes g) calls ⟨[], g, g'⟩) := by
  have hloaded := h.ok.reloaded
  have hinv : Restart.Inv g ⟨[], g, g.reload⟩ :=
    ⟨h.ok, hloaded.ok, hloaded.nodes, hloaded.vocab, by funext id; simp [Restart.known],
      fun _ => by simp, fun _ => by simp⟩
  have hsame : Restart.Same ⟨[], g, g.reload⟩ :=
    ⟨hloaded.nodes, h.ok.keyEdges_reload ▸ g.perm_keyEdges_compact⟩
  refine ⟨g.reload, fromSnapshotBytes_toSnapshotBytes C g, ?_⟩
  exact throughout_iff_along (fun s c hs _ => hs.step A c)
    (fun s c hs _ hP => hs.same_step_iff hP c) calls _ hinv hsame
      (along_of_forall (fun _ _ => trivial) calls _)

set_option maxRecDepth 10000

/-- The graph with the memory `a` of a scope. -/
def sampleScoped (scope : Option String) : MemoryGraph :=
  sampleGraph [.addMemoryScoped "a" "a" [] F32.one scope]

/-- The sample is reachable. -/
lemma reachable_sampleScoped (scope : Option String) :
    Reachable sampleArith sampleLearnArith (sampleScoped scope) :=
  reachable_sampleGraph _ fun g op hop => by
    obtain rfl := mem_singleton.mp hop
    trivial

/-- The memory `b` is chained to `a`, with and without a restart. -/
theorem restart_transparent_unscoped :
    ∃ g', fromSnapshotBytes bincodeSnapshot ((sampleScoped none).toSnapshotBytes bincodeSnapshot) =
        .ok g' ∧
      Throughout (Restart.step sampleArith) Restart.Same [⟨"b", "b", [], F32.one, none⟩]
        ⟨[], sampleScoped none, g'⟩ := by
  obtain ⟨g', hload, hiff⟩ := restart_transparent_iff bincodeSnapshot (reachable_sampleScoped none)
    [⟨"b", "b", [], F32.one, none⟩]
  refine ⟨g', hload, hiff.mpr ⟨fun _ => ?_, trivial⟩⟩
  dsimp only
  decide +kernel

/-- **An edge is lost.** In a scope of its own, `b` is chained to `a` without a restart, and to
nothing after one. -/
theorem restart_breaks_chain :
    Reachable sampleArith sampleLearnArith (sampleScoped (some "s")) ∧
    ∃ g', fromSnapshotBytes bincodeSnapshot
        ((sampleScoped (some "s")).toSnapshotBytes bincodeSnapshot) = .ok g' ∧
      ((sampleScoped (some "s")).insert sampleArith ⟨"b", "b", [], F32.one, some "s"⟩).keyEdges =
        [⟨some "mem:a", some "mem:b", .temporal, ⟨0x3F000000⟩, 0⟩] ∧
      (g'.insert sampleArith ⟨"b", "b", [], F32.one, some "s"⟩).keyEdges = [] := by
  refine ⟨reachable_sampleScoped _, _, fromSnapshotBytes_toSnapshotBytes _ _, ?_⟩
  decide +kernel

end MemoryGraph

end TurboMemory
