import TurboMemory.Graph.MemoryGraph
import TurboMemory.Lib.Walks

/-!
# Supersession in the cognitive graph

Edges of two kinds lead from a memory to a newer one that takes its place. What is believed now
is found by following them (`MemoryGraph.beliefHead`, `MemoryGraph.beliefLineage`). The two loops
that follow edges stop at a node visited before, so the number of nodes is enough fuel for them.

## Main results

* `MemoryGraph.Ok.beliefLineage_spec` — in terms of the pairs of memory ids, head and lineage
  follow the walks along the pairs entered last.
* `MemoryGraph.Ok.addRefinement_spec`, `MemoryGraph.Ok.addContradiction_spec` — how the operations
  change the pairs.
-/

set_option autoImplicit false

namespace TurboMemory

open Walks Option List

namespace MemoryGraph

/-! ## Entering supersessions -/

variable (g : MemoryGraph)

/-- Whether there is an edge of a kind between two nodes. -/
def hasEdge (source target : ℕ) (kind : EdgeKind) : Bool :=
  match g.intAdjacency[source]? with
  | some idxs => idxs.any fun i =>
    match g.intEdges[i]? with
    | some e => e.kind = kind ∧ e.target = target
    | none => false
  | none => false

/-- A memory refines an older one. -/
def addRefinement (oldId newId : String) (weight : F32) : Bool × MemoryGraph :=
  match g.interner.keyToId[memKey oldId]? with
  | none => (false, g)
  | some oldNid =>
    match g.interner.keyToId[memKey newId]? with
    | none => (false, g)
    | some newNid =>
      if g.hasEdge oldNid newNid .refines then (false, g)
      else (true, g.addIntEdge oldNid newNid .refines weight)

/-- Weaken the associations and the temporal edges of a node. -/
def weakenEdges (weaken : F32 → F32) (g : MemoryGraph) (nid : ℕ) : MemoryGraph :=
  let idxs := g.intAdjacency[nid]?.getD []
  { g with intEdges := g.intEdges.zipIdx.map fun p =>
      if p.2 ∈ idxs ∧ (p.1.kind = .association ∨ p.1.kind = .temporal) then
        { p.1 with weight := weaken p.1.weight } else p.1 }

/-- A memory contradicts an older one, whose other edges become weaker. -/
def addContradiction (oldId newId : String) (weight : F32)
    (weaken : F32 → F32) : Bool × MemoryGraph :=
  match g.interner.keyToId[memKey oldId]? with
  | none => (false, g)
  | some oldNid =>
    match g.interner.keyToId[memKey newId]? with
    | none => (false, g)
    | some newNid =>
      if g.hasEdge oldNid newNid .contradicts then (false, g)
      else (true, (weakenEdges weaken g oldNid).addIntEdge oldNid newNid .contradicts weight)

/-! ## Following supersessions -/

/-- The memories that are superseded by another one. -/
def supersededIds : List String :=
  (g.intEdges.filterMap fun e =>
    if e.kind.supersedes then
      match g.interner.get e.source, g.interner.get e.target with
      | some source, some target =>
        if source.kind = .memory ∧ target.kind = .memory then some source.externalId else none
      | _, _ => none else none).eraseDups

/-- The element with the greatest key, the last one of several. -/
def maxByKey (l : List (ℕ × ℕ)) : Option (ℕ × ℕ) :=
  l.foldl (fun best p =>
    match best with
    | none => some p
    | some b => if b.1 ≤ p.1 then some p else some b) none

variable (nid : ℕ)

/-- The supersession edges from a node: their index and their target. -/
def supersessionSuccessors : List (ℕ × ℕ) :=
  (g.intAdjacency[nid]?.getD []).filterMap fun i =>
    match g.intEdges[i]? with
    | none => none
    | some e =>
      if e.kind.supersedes then
        match g.interner.get e.target with
        | some n => if n.kind = .memory then some (i, e.target) else none
        | none => none
      else none

/-- The target of the supersession edge that was inserted last. -/
def supersessionNext : Option ℕ :=
  (maxByKey (g.supersessionSuccessors nid)).map Prod.snd

/-- The supersession edges to a node: their index and their source. -/
def supersessionPredecessors : List (ℕ × ℕ) :=
  g.intEdges.zipIdx.filterMap fun p =>
    if p.1.kind.supersedes then
      match g.interner.get p.1.source, g.interner.get p.1.target with
      | some source, some target =>
        if source.kind = .memory ∧ target.kind = .memory ∧ p.1.target = nid then
          some (p.2, p.1.source) else none
      | _, _ => none
    else none

/-- The source of the supersession edge to a node that was inserted last. -/
def supersessionPrevious : Option ℕ :=
  (maxByKey (g.supersessionPredecessors nid)).map Prod.snd

/-- The nodes of the walk from a node to the newest one, without the node itself. -/
def forwardPath (start : ℕ) : List ℕ :=
  walk g.supersessionNext g.interner.idToNode.length [start] start

/-- The nodes of the walk to the oldest one; it keeps out of the forward walk. -/
def backwardPath (start : ℕ) : List ℕ :=
  walk g.supersessionPrevious g.interner.idToNode.length
    ((g.forwardPath start).reverse ++ [start]) start

/-- The newest memory in the chain of a memory. -/
def beliefHead (id : String) : String :=
  match g.interner.keyToId[memKey id]? with
  | none => id
  | some start =>
    match g.interner.get ((start :: g.forwardPath start).getLast (cons_ne_nil _ _)) with
    | some n => n.externalId
    | none => id

/-- The chain of a memory, the oldest first. -/
def beliefLineage (id : String) : List String :=
  match g.interner.keyToId[memKey id]? with
  | none => [id]
  | some start =>
    ((g.backwardPath start).reverse ++ start :: g.forwardPath start).filterMap fun nid =>
      (g.interner.get nid).map (·.externalId)

/-! ## The edge inserted last -/

/-- Among ascending keys the greatest is the last. -/
lemma maxByKey_eq_getLast? {l : List (ℕ × ℕ)} (h : l.Pairwise fun a b => a.1 < b.1) :
    maxByKey l = l.getLast? := by
  induction l using reverseRecOn with
  | nil => rfl
  | append_singleton l p ih =>
    obtain ⟨hl, -, hlt⟩ := pairwise_append.mp h
    have hmax : maxByKey l = l.getLast? := ih hl
    rw [maxByKey, foldl_append, ← maxByKey, hmax, getLast?_concat]
    cases hlast : l.getLast? with
    | none => rfl
    | some b =>
      have hb := hlt b (mem_of_getLast? hlast) p (mem_singleton_self p)
      simp [hb.le]

/-- What the last edge that has something gives. -/
lemma map_maxByKey_zipIdx (edges : List InternalEdge) (f : InternalEdge → Option ℕ) :
    (maxByKey (edges.zipIdx.filterMap fun p => (f p.1).map fun n => (p.2, n))).map Prod.snd =
      edges.reverse.findSome? f := by
  have hascending : edges.zipIdx.Pairwise fun a b => a.2 < b.2 := by
    have hmap : (edges.zipIdx.map Prod.snd).Pairwise (· < ·) := by
      rw [zipIdx_map_snd]
      exact pairwise_lt_range'
    exact pairwise_map.mp hmap
  rw [maxByKey_eq_getLast?, getLast?_filterMap]
  · have hfst : edges = edges.zipIdx.map Prod.fst := (zipIdx_map_fst 0 edges).symm
    nth_rewrite 2 [hfst]
    rw [← map_reverse, findSome?_map, map_findSome?]
    congr 1
    funext p
    cases hf : f p.1 <;> simp [hf]
  · refine pairwise_filterMap.mpr (hascending.imp ?_)
    intro a b hab x hx y hy
    obtain ⟨n, -, rfl⟩ := map_eq_some_iff.mp hx
    obtain ⟨m, -, rfl⟩ := map_eq_some_iff.mp hy
    exact hab

/-- The target of a supersession edge from a node. -/
def successorOf (e : InternalEdge) : Option ℕ :=
  if e.source = nid ∧ e.kind.supersedes ∧ (g.memoryName e.target).isSome then some e.target
  else none

/-- The source of a supersession edge to a node. -/
def predecessorOf (e : InternalEdge) : Option ℕ :=
  if e.target = nid ∧ e.kind.supersedes ∧ (g.memoryName e.source).isSome ∧
      (g.memoryName e.target).isSome then some e.source else none

variable {g : MemoryGraph} {nid : ℕ} {id : String}

/-- The edge entered last from a node. -/
lemma Ok.supersessionNext_eq (h : g.Ok) (nid : ℕ) :
    g.supersessionNext nid = g.intEdges.reverse.findSome? (g.successorOf nid) := by
  rw [supersessionNext, ← map_maxByKey_zipIdx, supersessionSuccessors, h.adjacency,
    getD_rebuildAdjacency, filterMap_map, filterMap_filter]
  congr 2
  refine filterMap_congr fun p hp => ?_
  have hedge : g.intEdges[p.2]? = some p.1 := mem_zipIdx_iff_getElem?.mp hp
  rw [successorOf, memoryName]
  by_cases hsource : p.1.source = nid
  · cases hkind : p.1.kind.supersedes with
    | false => simp [hsource, hedge, hkind]
    | true =>
      cases hget : g.interner.get p.1.target with
      | none => simp [hsource, hedge, hkind, hget]
      | some n => by_cases hn : n.kind = .memory <;> simp [hsource, hedge, hkind, hget, hn]
  · simp [hsource]

/-- The edge entered last to a node. -/
lemma supersessionPrevious_eq (g : MemoryGraph) (nid : ℕ) :
    g.supersessionPrevious nid = g.intEdges.reverse.findSome? (g.predecessorOf nid) := by
  rw [supersessionPrevious, ← map_maxByKey_zipIdx, supersessionPredecessors]
  congr 2
  refine filterMap_congr fun p _ => ?_
  rw [predecessorOf, memoryName, memoryName]
  cases hkind : p.1.kind.supersedes with
  | false => simp
  | true =>
    cases hsource : g.interner.get p.1.source with
    | none => simp
    | some s =>
      cases htarget : g.interner.get p.1.target with
      | none => simp
      | some t =>
        by_cases hs : s.kind = .memory <;> by_cases ht : t.kind = .memory <;>
          by_cases hn : p.1.target = nid <;> simp [hs, ht, hn]

end MemoryGraph

/-! ## Supersessions as pairs of ids -/

/-- The memory that supersedes a memory by the pair entered last. -/
def lastSuccessor (pairs : List (String × String)) (id : String) : Option String :=
  pairs.reverse.findSome? fun p => if p.1 = id then some p.2 else none

/-- The memory that a memory supersedes by the pair entered last. -/
def lastPredecessor (pairs : List (String × String)) (id : String) : Option String :=
  pairs.reverse.findSome? fun p => if p.2 = id then some p.1 else none

section

variable {pairs : List (String × String)} {old new : String}

/-- It is one of the pairs. -/
lemma mem_of_lastSuccessor (h : lastSuccessor pairs old = some new) : (old, new) ∈ pairs := by
  obtain ⟨p, hp, hstep⟩ := exists_of_findSome?_eq_some h
  rw [Option.ite_none_right_eq_some, Option.some.injEq] at hstep
  obtain ⟨rfl, rfl⟩ := hstep
  exact mem_reverse.mp hp

/-- It is one of the pairs. -/
lemma mem_of_lastPredecessor (h : lastPredecessor pairs new = some old) : (old, new) ∈ pairs := by
  obtain ⟨p, hp, hstep⟩ := exists_of_findSome?_eq_some h
  rw [Option.ite_none_right_eq_some, Option.some.injEq] at hstep
  obtain ⟨rfl, rfl⟩ := hstep
  exact mem_reverse.mp hp

end

/-- Searching the results of a map is searching the list. -/
lemma findSome?_filterMap_eq {α β γ : Type} {f : α → Option β} {k : β → Option γ}
    {m : α → Option γ} (l : List α) (hl : ∀ x ∈ l, (f x).bind k = m x) :
    (l.filterMap f).findSome? k = l.findSome? m := by
  induction l with
  | nil => rfl
  | cons x l ih =>
    have hx := hl x mem_cons_self
    have hrest := ih fun y hy => hl y (mem_cons_of_mem _ hy)
    cases hfx : f x with
    | none =>
      rw [hfx, bind_none] at hx
      rw [filterMap_cons_none hfx, findSome?_cons, ← hx, hrest]
    | some b =>
      rw [hfx, bind_some] at hx
      rw [filterMap_cons_some hfx, findSome?_cons, findSome?_cons, hx, hrest]

namespace MemoryGraph

variable {g : MemoryGraph} {nid : ℕ} {id : String} {p : String × String} {e : InternalEdge}

/-- The pair of an edge, when it joins memories. -/
lemma supersession_eq_some :
    g.supersession e = some p ↔ e.kind.supersedes = true ∧ g.memoryName e.source = some p.1 ∧
      g.memoryName e.target = some p.2 := by
  rw [supersession]
  cases e.kind.supersedes with
  | false => simp
  | true =>
    cases g.memoryName e.source with
    | none => simp
    | some old =>
      cases g.memoryName e.target with
      | none => simp
      | some new =>
        obtain ⟨a, b⟩ := p
        simp

/-- Every edge of a supersession kind has its pair. -/
lemma Ok.not_supersedes (h : g.Ok) (he : e ∈ g.intEdges)
    (hs : g.supersession e = none) : e.kind.supersedes = false := by
  by_contra hkind
  rw [Bool.not_eq_false] at hkind
  obtain ⟨⟨old, hold⟩, new, hnew⟩ := h.belief e he hkind
  have hpair : g.supersession e = some (old, new) :=
    supersession_eq_some.mpr ⟨hkind, hold, hnew⟩
  rw [hs] at hpair
  cases hpair

/-- The nodes of the memories. -/
def MemoryNode (g : MemoryGraph) (nid : ℕ) : Prop :=
  g.interner.Live nid ∧ ∃ id, g.memoryName nid = some id

/-- The name of a memory node. -/
def nameOf (g : MemoryGraph) (nid : ℕ) : String := (g.memoryName nid).getD ""

/-- A memory has a name. -/
lemma MemoryNode.memoryName (h : g.MemoryNode nid) : g.memoryName nid = some (g.nameOf nid) := by
  obtain ⟨-, id, hid⟩ := h
  simp [nameOf, hid]

/-- The key of a memory leads to it. -/
lemma Ok.memoryNode_of_key (h : g.Ok) (hid : g.interner.keyToId[memKey id]? = some nid) :
    g.MemoryNode nid ∧ g.nameOf nid = id := by
  have hname := h.memoryName_of_key hid
  exact ⟨⟨⟨_, hid⟩, id, hname⟩, by simp [nameOf, hname]⟩

/-- Memories have different names. -/
lemma Ok.nameOf_injOn (h : g.Ok) : Set.InjOn g.nameOf {n | g.MemoryNode n} := by
  intro n hn m hm heq
  have hname := hm.memoryName
  rw [← heq] at hname
  exact h.memoryName_injective hn.1 hm.1 hn.memoryName hname

variable {m : ℕ}

/-- Forward edges lead to memories. -/
lemma Ok.memoryNode_next (h : g.Ok) (hm : g.supersessionNext nid = some m) : g.MemoryNode m := by
  rw [h.supersessionNext_eq] at hm
  obtain ⟨e, he, hstep⟩ := exists_of_findSome?_eq_some hm
  rw [successorOf] at hstep
  split at hstep
  · next hcond =>
    cases hstep
    exact ⟨h.target_live e (mem_reverse.mp he), isSome_iff_exists.mp hcond.2.2⟩
  · cases hstep

/-- So do backward ones. -/
lemma Ok.memoryNode_previous (h : g.Ok) (hm : g.supersessionPrevious nid = some m) :
    g.MemoryNode m := by
  rw [supersessionPrevious_eq] at hm
  obtain ⟨e, he, hstep⟩ := exists_of_findSome?_eq_some hm
  rw [predecessorOf] at hstep
  split at hstep
  · next hcond =>
    cases hstep
    exact ⟨h.source_live e (mem_reverse.mp he), isSome_iff_exists.mp hcond.2.2.1⟩
  · cases hstep

section

variable (h : g.Ok) (hn : g.MemoryNode nid)
include h hn

/-- A node is an end of an edge just if its name is there in the pair. -/
lemma Ok.eq_iff_nameOf_eq {name : String}
    (hlive : g.interner.Live m) (hname : g.memoryName m = some name) :
    m = nid ↔ name = g.nameOf nid := by
  constructor
  · rintro rfl
    simp [nameOf, hname]
  · rintro rfl
    exact h.memoryName_injective hlive hn.1 hname hn.memoryName

/-- Following the edge inserted last is following the pair entered last. -/
lemma Ok.supersessionNext_spec :
    lastSuccessor g.supersessions (g.nameOf nid) = (g.supersessionNext nid).map g.nameOf := by
  rw [h.supersessionNext_eq, map_findSome?, lastSuccessor, supersessions, ← filterMap_reverse]
  refine findSome?_filterMap_eq _ fun e he => ?_
  have he := mem_reverse.mp he
  rw [Function.comp_apply, successorOf]
  cases hs : g.supersession e with
  | none => simp [h.not_supersedes he hs]
  | some p =>
    obtain ⟨hkind, hold, hnew⟩ := supersession_eq_some.mp hs
    have hiff := h.eq_iff_nameOf_eq hn (h.source_live e he) hold
    by_cases hsource : e.source = nid
    · have hname : g.nameOf e.target = p.2 := by simp [nameOf, hnew]
      simp [hsource, hiff.mp hsource, hkind, hnew, hname]
    · simp [hsource, mt hiff.mpr hsource]

/-- Going back by nodes and by names. -/
lemma Ok.supersessionPrevious_spec :
    lastPredecessor g.supersessions (g.nameOf nid) = (g.supersessionPrevious nid).map g.nameOf := by
  rw [supersessionPrevious_eq, map_findSome?, lastPredecessor, supersessions, ← filterMap_reverse]
  refine findSome?_filterMap_eq _ fun e he => ?_
  have he := mem_reverse.mp he
  rw [Function.comp_apply, predecessorOf]
  cases hs : g.supersession e with
  | none => simp [h.not_supersedes he hs]
  | some p =>
    obtain ⟨hkind, hold, hnew⟩ := supersession_eq_some.mp hs
    have hiff := h.eq_iff_nameOf_eq hn (h.target_live e he) hnew
    by_cases htarget : e.target = nid
    · have hname : g.nameOf e.source = p.1 := by simp [nameOf, hold]
      simp [htarget, hiff.mp htarget, hkind, hold, hn.memoryName, hname]
    · simp [htarget, mt hiff.mpr htarget]

end

/-! ## Belief heads and lineages -/

/-- The ids along a walk and on the way back: what a chain consists of. -/
structure Lineage (pairs : List (String × String)) (id : String) (newer older : List String) :
    Prop where
  forward : Walk (lastSuccessor pairs) [id] id newer
  backward : Walk (lastPredecessor pairs) (newer.reverse ++ [id]) id older

/-- Nodes are numbered densely. -/
lemma Ok.lt_of_live (h : g.Ok) (hlive : g.interner.Live nid) :
    nid < g.interner.idToNode.length := by
  obtain ⟨key, hkey⟩ := hlive
  obtain ⟨node, hnode, -⟩ := h.interner.exists_node hkey
  exact (List.getElem?_eq_some_iff.mp hnode).1

/-- The fuel is enough. -/
lemma card_range_sdiff_le (n : ℕ) (visited : List ℕ) :
    (Finset.range n \ visited.toFinset).card ≤ n := by
  calc (Finset.range n \ visited.toFinset).card
      ≤ (Finset.range n).card := Finset.card_le_card Finset.sdiff_subset
    _ = n := Finset.card_range n

/-- The forward loop ends: the fuel is enough. -/
lemma Ok.walk_forwardPath (h : g.Ok) (nid : ℕ) :
    Walk g.supersessionNext [nid] nid (g.forwardPath nid) :=
  walk_spec (Finset.range g.interner.idToNode.length)
    (fun _ _ hm => Finset.mem_range.mpr (h.lt_of_live (h.memoryNode_next hm).1)) _ _ _
    (card_range_sdiff_le _ _)

/-- The backward loop ends: the fuel is enough. -/
lemma Ok.walk_backwardPath (h : g.Ok) (nid : ℕ) :
    Walk g.supersessionPrevious ((g.forwardPath nid).reverse ++ [nid]) nid (g.backwardPath nid) :=
  walk_spec (Finset.range g.interner.idToNode.length)
    (fun _ _ hm => Finset.mem_range.mpr (h.lt_of_live (h.memoryNode_previous hm).1)) _ _ _
    (card_range_sdiff_le _ _)

/-- The walk from a node to the newest one. -/
lemma Ok.forwardPath_spec (h : g.Ok) (hn : g.MemoryNode nid) :
    (∀ m ∈ g.forwardPath nid, g.MemoryNode m) ∧
    Walk (lastSuccessor g.supersessions) [g.nameOf nid] (g.nameOf nid)
      ((g.forwardPath nid).map g.nameOf) := by
  have hwalk := h.walk_forwardPath nid
  constructor
  · intro m hm
    obtain ⟨n, -, hnext⟩ := hwalk.exists_next m hm
    exact h.memoryNode_next hnext
  · exact hwalk.map g.nameOf h.nameOf_injOn (fun _ _ _ hm => h.memoryNode_next hm)
      (fun _ hn => h.supersessionNext_spec hn) hn (by simpa using hn)

/-- The walk from a node to the oldest one. -/
lemma Ok.backwardPath_spec (h : g.Ok) (hn : g.MemoryNode nid) :
    (∀ m ∈ g.backwardPath nid, g.MemoryNode m) ∧ Walk (lastPredecessor g.supersessions)
      (((g.forwardPath nid).map g.nameOf).reverse ++ [g.nameOf nid]) (g.nameOf nid)
      ((g.backwardPath nid).map g.nameOf) := by
  have hwalk := h.walk_backwardPath nid
  constructor
  · intro m hm
    obtain ⟨n, -, hprevious⟩ := hwalk.exists_next m hm
    exact h.memoryNode_previous hprevious
  · have hvisited : ∀ x ∈ (g.forwardPath nid).reverse ++ [nid], x ∈ {n | g.MemoryNode n} := by
      intro x hx
      rcases mem_append.mp hx with hx | hx
      · exact (h.forwardPath_spec hn).1 x (mem_reverse.mp hx)
      · rw [mem_singleton.mp hx]
        exact hn
    have hmap := hwalk.map g.nameOf h.nameOf_injOn (fun _ _ _ hm => h.memoryNode_previous hm)
      (fun _ hn => h.supersessionPrevious_spec hn) hn hvisited
    simpa using hmap

/-- The external id of a memory node is its name. -/
lemma externalId_of_memoryName {name : String} (hname : g.memoryName nid = some name) :
    (g.interner.get nid).map (·.externalId) = some name := by
  rw [memoryName] at hname
  cases hget : g.interner.get nid with
  | none => simp [hget] at hname
  | some n =>
    simp only [hget, ite_none_right_eq_some, some.injEq] at hname
    simp [hname.2]

/-- The chain of a memory, in terms of the pairs of ids. -/
theorem Ok.beliefLineage_spec (h : g.Ok) (id : String) :
    ∃ newer older, Lineage g.supersessions id newer older ∧
      g.beliefLineage id = older.reverse ++ id :: newer ∧
      g.beliefHead id = (id :: newer).getLast (cons_ne_nil _ _) := by
  cases hid : g.interner.keyToId[memKey id]? with
  | none =>
    -- A memory that is not in the graph has no pairs.
    have hnone : ∀ p ∈ g.supersessions, p.1 ≠ id ∧ p.2 ≠ id := by
      intro p hp
      obtain ⟨⟨n, hn⟩, ⟨m, hm⟩⟩ := h.key_of_mem_supersessions hp
      constructor <;> rintro rfl <;> simp_all
    exact ⟨[], [], ⟨.stop fun m hm => absurd rfl (hnone _ (mem_of_lastSuccessor hm)).1,
      .stop fun m hm => absurd rfl (hnone _ (mem_of_lastPredecessor hm)).2⟩,
      by simp [beliefLineage, hid], by simp [beliefHead, hid]⟩
  | some start =>
    obtain ⟨hstart, hname⟩ := h.memoryNode_of_key hid
    obtain ⟨hforward, hwalk⟩ := h.forwardPath_spec hstart
    obtain ⟨hbackward, hwalk'⟩ := h.backwardPath_spec hstart
    have hmap : ∀ l : List ℕ, (∀ n ∈ l, g.MemoryNode n) →
        l.filterMap (fun nid => (g.interner.get nid).map (·.externalId)) = l.map g.nameOf := by
      intro l hl
      rw [← filterMap_eq_map]
      exact filterMap_congr fun n hn => externalId_of_memoryName (hl n hn).memoryName
    refine ⟨_, _, ⟨hname ▸ hwalk, hname ▸ hwalk'⟩, ?_, ?_⟩
    · simp only [beliefLineage, hid]
      rw [hmap]
      · simp [hname]
      · intro n hn
        rcases mem_append.mp hn with hn | hn
        · exact hbackward n (mem_reverse.mp hn)
        · rcases mem_cons.mp hn with rfl | hn
          · exact hstart
          · exact hforward n hn
    · simp only [beliefHead, hid]
      have hlast : g.MemoryNode
          ((start :: g.forwardPath start).getLast (cons_ne_nil _ _)) := by
        rcases mem_cons.mp (getLast_mem (cons_ne_nil start (g.forwardPath start)))
          with heq | hmem
        · rw [heq]
          exact hstart
        · exact hforward _ hmem
      obtain ⟨n, hn, hext⟩ := map_eq_some_iff.mp (externalId_of_memoryName hlast.memoryName)
      have hcons : id :: (g.forwardPath start).map g.nameOf =
          (start :: g.forwardPath start).map g.nameOf := by rw [map_cons, hname]
      simp only [hn, hext, hcons, getLast_map]

/-! ## How operations change supersessions -/

/-- There is an edge of a kind from a memory to another. -/
def HasBelief (g : MemoryGraph) (kind : EdgeKind) (old new : String) : Prop :=
  ∃ e ∈ g.intEdges, e.kind = kind ∧ g.memoryName e.source = some old ∧
    g.memoryName e.target = some new

/-- A pair is an edge that supersedes. -/
lemma mem_supersessions :
    p ∈ g.supersessions ↔ ∃ kind, kind.supersedes = true ∧ g.HasBelief kind p.1 p.2 := by
  rw [supersessions, mem_filterMap]
  constructor
  · rintro ⟨e, he, hs⟩
    obtain ⟨hkind, hold, hnew⟩ := supersession_eq_some.mp hs
    exact ⟨e.kind, hkind, e, he, rfl, hold, hnew⟩
  · rintro ⟨kind, hkind, e, he, rfl, hold, hnew⟩
    exact ⟨e, he, supersession_eq_some.mpr ⟨hkind, hold, hnew⟩⟩

variable {kind : EdgeKind}

/-- The adjacency finds every edge. -/
lemma Ok.hasEdge_iff (h : g.Ok) {source target : ℕ} : g.hasEdge source target kind = true ↔
      ∃ e ∈ g.intEdges, e.source = source ∧ e.target = target ∧ e.kind = kind := by
  have hadj := getD_rebuildAdjacency g.intEdges source
  rw [← h.adjacency] at hadj
  have heq : g.hasEdge source target kind = (g.intAdjacency[source]?.getD []).any fun i =>
      match g.intEdges[i]? with
      | some e => e.kind = kind ∧ e.target = target
      | none => false := by
    rw [hasEdge]
    cases g.intAdjacency[source]? <;> rfl
  rw [heq, hadj, List.any_map, List.any_eq_true]
  constructor
  · rintro ⟨p, hp, htest⟩
    obtain ⟨hmem, hsource⟩ := mem_filter.mp hp
    have hedge : g.intEdges[p.2]? = some p.1 := mem_zipIdx_iff_getElem?.mp hmem
    simp only [Function.comp_apply, hedge, decide_eq_true_eq] at htest
    exact ⟨p.1, mem_of_getElem? hedge, by simpa using hsource, htest.2, htest.1⟩
  · rintro ⟨e, he, rfl, rfl, rfl⟩
    obtain ⟨i, hi⟩ := getElem?_of_mem he
    refine ⟨(e, i), mem_filter.mpr ⟨mem_zipIdx_iff_getElem?.mpr hi, by simp⟩, ?_⟩
    simp [hi]

/-- Between memories, an edge of a kind is an edge between their nodes. -/
lemma Ok.hasBelief_iff (h : g.Ok) {old new : String} {oldNid newNid : ℕ}
    (hold : g.interner.keyToId[memKey old]? = some oldNid)
    (hnew : g.interner.keyToId[memKey new]? = some newNid) :
    g.hasEdge oldNid newNid kind = true ↔ g.HasBelief kind old new := by
  rw [h.hasEdge_iff]
  constructor
  · rintro ⟨e, he, rfl, rfl, rfl⟩
    exact ⟨e, he, rfl, h.memoryName_of_key hold, h.memoryName_of_key hnew⟩
  · rintro ⟨e, he, rfl, hs, ht⟩
    refine ⟨e, he, ?_, ?_, rfl⟩
    · exact some.inj ((h.key_of_memoryName (h.source_live e he) hs).symm.trans hold)
    · exact some.inj ((h.key_of_memoryName (h.target_live e he) ht).symm.trans hnew)

/-- Entering a supersession does nothing when a memory is missing or the edge is there; otherwise it
appends the pair. -/
structure Entered (g g' : MemoryGraph) (kind : EdgeKind) (old new : String) : Prop where
  ok : g'.Ok
  interner : g'.interner = g.interner
  vocab : g'.vocab = g.vocab
  oldKey : ∃ nid, g.interner.keyToId[memKey old]? = some nid
  newKey : ∃ nid, g.interner.keyToId[memKey new]? = some nid
  fresh : ¬ g.HasBelief kind old new
  supersessions : g'.supersessions = g.supersessions ++ [(old, new)]
  beliefs : ∀ k a b, g'.HasBelief k a b ↔ g.HasBelief k a b ∨ k = kind ∧ a = old ∧ b = new

/-- A new edge enters its pair. -/
lemma Ok.entered_addIntEdge (h : g.Ok) (kind : EdgeKind) (hkind : kind.supersedes = true)
    {old new : String} {oldNid newNid : ℕ} (hold : g.interner.keyToId[memKey old]? = some oldNid)
    (hnew : g.interner.keyToId[memKey new]? = some newNid) (hfresh : ¬ g.HasBelief kind old new)
    (weight : F32) : Entered g (g.addIntEdge oldNid newNid kind weight) kind old new := by
  have hs := h.memoryName_of_key hold
  have ht := h.memoryName_of_key hnew
  refine ⟨h.addIntEdge kind weight ⟨_, hold⟩ ⟨_, hnew⟩ fun _ => ⟨⟨_, hs⟩, _, ht⟩, rfl, rfl,
    ⟨_, hold⟩, ⟨_, hnew⟩, hfresh, ?_, ?_⟩
  · rw [supersessions_addIntEdge]
    congr 1
    have hpair : g.supersession ⟨oldNid, newNid, kind, weight, 0⟩ = some (old, new) :=
      supersession_eq_some.mpr ⟨hkind, hs, ht⟩
    rw [hpair]
    rfl
  · intro k a b
    constructor
    · rintro ⟨e, he, rfl, hsource, htarget⟩
      rcases mem_append.mp he with he | he
      · exact .inl ⟨e, he, rfl, hsource, htarget⟩
      · obtain rfl := mem_singleton.mp he
        exact .inr ⟨rfl, some.inj (hsource.symm.trans hs), some.inj (htarget.symm.trans ht)⟩
    · rintro (⟨e, he, rfl, hsource, htarget⟩ | ⟨rfl, rfl, rfl⟩)
      · exact ⟨e, mem_append_left _ he, rfl, hsource, htarget⟩
      · exact ⟨_, mem_append_right _ (mem_singleton_self _), rfl, hs, ht⟩

/-- Nothing is done, or one refinement is entered. -/
lemma Ok.addRefinement_spec (h : g.Ok) (old new : String) (weight : F32) :
    (g.addRefinement old new weight = (false, g) ∧
      (g.interner.keyToId[memKey old]? = none ∨ g.interner.keyToId[memKey new]? = none ∨
        g.HasBelief .refines old new)) ∨
    ∃ g', g.addRefinement old new weight = (true, g') ∧ Entered g g' .refines old new := by
  rw [addRefinement]
  cases hold : g.interner.keyToId[memKey old]? with
  | none => exact .inl ⟨rfl, .inl rfl⟩
  | some oldNid =>
    cases hnew : g.interner.keyToId[memKey new]? with
    | none => exact .inl ⟨rfl, .inr (.inl rfl)⟩
    | some newNid =>
      by_cases hedge : g.hasEdge oldNid newNid .refines = true
      · exact .inl ⟨by simp [hedge], .inr (.inr ((h.hasBelief_iff hold hnew).mp hedge))⟩
      · refine .inr ⟨_, by simp [hedge], h.entered_addIntEdge _ rfl hold hnew ?_ weight⟩
        exact fun hbelief => hedge ((h.hasBelief_iff hold hnew).mpr hbelief)

/-- Changing weights by index. -/
lemma forall₂_sameEnds_zipIdx {f : InternalEdge × ℕ → InternalEdge}
    (hf : ∀ p, SameEnds p.1 (f p)) (edges : List InternalEdge) :
    Forall₂ SameEnds edges (edges.zipIdx.map f) := by
  rw [forall₂_iff_get]
  refine ⟨by simp, fun i hi hi' => ?_⟩
  simp only [get_eq_getElem, getElem_map, getElem_zipIdx]
  exact hf (edges[i], 0 + i)

/-- Weakening keeps the ends. -/
lemma forall₂_weakenEdges (weaken : F32 → F32) (g : MemoryGraph) (nid : ℕ) :
    Forall₂ SameEnds g.intEdges (weakenEdges weaken g nid).intEdges := by
  refine forall₂_sameEnds_zipIdx (fun p => ?_) _
  split <;> exact ⟨rfl, rfl, rfl⟩

/-- Beliefs depend on ends and kinds only. -/
lemma hasBelief_iff_of_sameEnds {edges : List InternalEdge}
    (hedges : Forall₂ SameEnds g.intEdges edges) (kind : EdgeKind) (old new : String) :
    ({ g with intEdges := edges } : MemoryGraph).HasBelief kind old new ↔
      g.HasBelief kind old new := by
  have hname : ({ g with intEdges := edges } : MemoryGraph).memoryName = g.memoryName := rfl
  rw [HasBelief, HasBelief, hname]
  change (∃ e ∈ edges, _) ↔ _
  clear hname
  generalize g.intEdges = l at hedges
  induction hedges with
  | nil => simp
  | cons hab _ ih => simp only [exists_mem_cons_iff, ih, hab.1, hab.2.1, hab.2.2]

/-- A graph that grew has the same supersession edges of each kind. -/
lemma Grows.hasBelief_iff {g' : MemoryGraph} (h : g.Ok) (hgrows : Grows g g')
    (hkind : kind.supersedes = true) (old new : String) :
    g'.HasBelief kind old new ↔ g.HasBelief kind old new := by
  obtain ⟨kept, added, hedges, hkept, hadded⟩ := hgrows.edges
  have hname : ∀ {nid}, g.interner.Live nid → g'.memoryName nid = g.memoryName nid :=
    fun hlive => h.memoryName_eq hlive hgrows.nodes
  constructor
  · rintro ⟨e', he', rfl, hold, hnew⟩
    rw [hedges] at he'
    rcases mem_append.mp he' with he' | he'
    · obtain ⟨e, he, hsource, htarget, hk⟩ := exists_of_forall₂ hkept he'
      rw [hsource, hname (h.source_live e he)] at hold
      rw [htarget, hname (h.target_live e he)] at hnew
      exact ⟨e, he, hk.symm, hold, hnew⟩
    · rw [hadded e' he'] at hkind
      cases hkind
  · rintro ⟨e, he, rfl, hold, hnew⟩
    obtain ⟨i, hi, rfl⟩ := getElem_of_mem he
    have hi' : i < kept.length := by rwa [← hkept.length_eq]
    obtain ⟨hsource, htarget, hk⟩ := (forall₂_iff_get.mp hkept).2 i hi hi'
    refine ⟨kept[i], by rw [hedges]; exact mem_append_left _ (getElem_mem hi'), hk, ?_, ?_⟩
    · rw [← hold, ← hname (h.source_live _ he)]
      exact congrArg g'.memoryName hsource
    · rw [← hnew, ← hname (h.target_live _ he)]
      exact congrArg g'.memoryName htarget

/-- Nothing is done, or one contradiction is entered. -/
lemma Ok.addContradiction_spec (h : g.Ok) (old new : String) (weight : F32) (weaken : F32 → F32) :
    (g.addContradiction old new weight weaken = (false, g) ∧
      (g.interner.keyToId[memKey old]? = none ∨ g.interner.keyToId[memKey new]? = none ∨
        g.HasBelief .contradicts old new)) ∨
    ∃ g', g.addContradiction old new weight weaken = (true, g') ∧
      Entered g g' .contradicts old new := by
  rw [addContradiction]
  cases hold : g.interner.keyToId[memKey old]? with
  | none => exact .inl ⟨rfl, .inl rfl⟩
  | some oldNid =>
    cases hnew : g.interner.keyToId[memKey new]? with
    | none => exact .inl ⟨rfl, .inr (.inl rfl)⟩
    | some newNid =>
      by_cases hedge : g.hasEdge oldNid newNid .contradicts = true
      · exact .inl ⟨by simp [hedge], .inr (.inr ((h.hasBelief_iff hold hnew).mp hedge))⟩
      · -- The weakened graph has the same edges up to their weights.
        have hsame := forall₂_weakenEdges weaken g oldNid
        obtain ⟨hok, hsup⟩ := h.reweigh hsame
        have hfresh : ¬ g.HasBelief .contradicts old new :=
          fun hbelief => hedge ((h.hasBelief_iff hold hnew).mpr hbelief)
        have hbeliefs := hasBelief_iff_of_sameEnds hsame
        have hentered := hok.entered_addIntEdge .contradicts rfl hold hnew
          (mt (hbeliefs _ _ _).mp hfresh) weight
        refine .inr ⟨(weakenEdges weaken g oldNid).addIntEdge oldNid newNid .contradicts weight,
          by simp [hedge], hentered.ok, rfl, rfl, ⟨_, hold⟩, ⟨_, hnew⟩, hfresh, ?_, ?_⟩
        · exact hentered.supersessions.trans (by rw [hsup])
        · exact fun k a b => (hentered.beliefs k a b).trans (by rw [hbeliefs])

/-- The superseded memories are the older ones of the pairs. -/
lemma mem_supersededIds : id ∈ g.supersededIds ↔ ∃ new, (id, new) ∈ g.supersessions := by
  have hsup : g.supersededIds = (g.supersessions.map Prod.fst).eraseDups := by
    rw [supersededIds, supersessions, map_filterMap]
    congr 2
    funext e
    rw [supersession, memoryName, memoryName]
    cases g.interner.get e.source <;> cases g.interner.get e.target <;> grind
  simp [hsup]

end MemoryGraph

end TurboMemory
