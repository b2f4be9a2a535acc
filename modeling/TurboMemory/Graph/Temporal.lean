import TurboMemory.Graph.Runs
import TurboMemory.Lib.Traces

/-!
# Temporal edges

A memory is chained to the one added before it under the same scope. The heads of the chains are
remembered by id, under a key that is empty both for no scope and for the empty one, and they stay
when the memory is removed.

## Main results

* `MemoryGraph.Ok.temporals_addMemoryScoped` — the one edge that an addition enters.
* `ChainRun.successions_step_iff` — a step keeps the meaning of temporal edges just if it chains
  properly (`ChainRun.Chains`).
* `temporal_edges_are_successions_iff` — the same for runs.
-/

set_option autoImplicit false

namespace TurboMemory

open Traces Option MemoryGraph

variable {p : ℕ × ℕ}

namespace MemoryGraph

variable {g g' : MemoryGraph}

/-- The ends of an edge, if it is temporal. -/
def temporal (e : InternalEdge) : Option (ℕ × ℕ) :=
  if e.kind = .temporal then some (e.source, e.target) else none

/-- The temporal edges. -/
def temporals (g : MemoryGraph) : List (ℕ × ℕ) := g.intEdges.filterMap temporal

/-- The memory that a new one of a scope is chained to. -/
def chainHead (g : MemoryGraph) (scope : Option String) : Option String :=
  match g.lastMemoryByScope[scope.getD ""]? with
  | some prev => some prev
  | none => if scope.isNone then g.lastMemoryId else none

/-- The head is taken. -/
lemma takePrevious_fst (g : MemoryGraph) (scope : Option String) :
    (g.takePrevious scope).1 = g.chainHead scope := by
  rw [takePrevious, chainHead]
  cases g.lastMemoryByScope[scope.getD ""]? with
  | some prev => rfl
  | none => cases scope <;> rfl

/-- What the head depends on. -/
lemma chainHead_congr (hscope : g'.lastMemoryByScope = g.lastMemoryByScope)
    (hlast : g'.lastMemoryId = g.lastMemoryId) (scope : Option String) :
    g'.chainHead scope = g.chainHead scope := by
  rw [chainHead, chainHead, hscope, hlast]

/-- Nothing but association edges was entered, and the chain heads are the same. -/
structure Associates (g g' : MemoryGraph) : Prop where
  temporals : g'.temporals = g.temporals
  lastMemoryByScope : g'.lastMemoryByScope = g.lastMemoryByScope
  lastMemoryId : g'.lastMemoryId = g.lastMemoryId

/-- Several concepts are tied. -/
lemma associates_foldl (memId : ℕ) (imp : F32) (concepts : List String) (g : MemoryGraph) :
    Associates g (concepts.foldl (associate memId imp) g) := by
  refine Loop.foldl_induction concepts ⟨rfl, rfl, rfl⟩ fun concept _ g' h =>
    { h with temporals := ?_ }
  rw [← h.temporals, temporals, temporals, associate, addIntEdge, addIntEdge,
    List.filterMap_append, List.filterMap_append]
  simp [temporal]

section

variable (A : GraphArith) (g : MemoryGraph) (memId : ℕ) (imp : F32) (prev : Option String)

/-- Chaining a memory enters one edge if the previous memory is still there. -/
lemma temporals_chain : (g.chain A memId imp prev).temporals = g.temporals ++
      ((prev.bind fun prev => g.interner.keyToId[memKey prev]?).map (·, memId)).toList := by
  rw [chain]
  split
  · next prevId hprev =>
    rw [hprev, temporals, addIntEdge, List.filterMap_append]
    rfl
  · next hprev => simp [hprev]

/-- Chaining adds no node. -/
lemma interner_chain : (g.chain A memId imp prev).interner = g.interner := by
  rw [chain]
  split <;> rfl

end

/-- The graph with a memory and its concepts, not chained yet. -/
def unchained (A : GraphArith) (g : MemoryGraph) (id text : String) (concepts : List String)
    (importance : F32) : MemoryGraph :=
  let imp := A.importanceFactor importance
  let normalized := normalizeConcepts A g.vocab concepts
  let g := normalized.foldl (associate (g.interner.intern (memKey id) ⟨.memory, id, text, imp⟩).1
    imp) (g.internMemory id text imp)
  if 1 < normalized.length then
    { g with coOccurrence := countPairs (normalized.mergeSort) g.coOccurrence } else g

/-- All before the chaining. -/
lemma associates_unchained (A : GraphArith) (g : MemoryGraph) (id text : String)
    (concepts : List String) (importance : F32) :
    Associates g (g.unchained A id text concepts importance) := by
  have hassoc := associates_foldl (g.interner.intern (memKey id)
    ⟨.memory, id, text, A.importanceFactor importance⟩).1 (A.importanceFactor importance)
    (normalizeConcepts A g.vocab concepts) (g.internMemory id text (A.importanceFactor importance))
  simp only [unchained]
  split <;> exact { hassoc with }

/-- **The temporal edge of a new memory** leads from the node that the head of the chain has once
the new memory has its own. -/
lemma Ok.temporals_addMemoryScoped (h : g.Ok) (A : GraphArith) (id text : String)
    (concepts : List String) (importance : F32) (scope : Option String) {memId : ℕ}
    (hg' : g' = g.addMemoryScoped A id text concepts importance scope)
    (hmem : g'.interner.keyToId[memKey id]? = some memId) :
    g'.temporals = g.temporals ++ (((g.chainHead scope).bind fun prev =>
      g'.interner.keyToId[memKey prev]?).map (·, memId)).toList := by
  obtain rfl : (g.interner.intern (memKey id)
      ⟨.memory, id, text, A.importanceFactor importance⟩).1 = memId := by
    rw [hg', (h.grows_addMemoryScoped A id text concepts importance scope).memories] at hmem
    exact some.inj ((h.interner.intern (memKey id)
      ⟨.memory, id, text, A.importanceFactor importance⟩
      (InternalNode.fits_key _)).2.1.symm.trans hmem)
  set mid := g.unchained A id text concepts importance
  have hassoc : Associates g mid := g.associates_unchained A id text concepts importance
  have hinterner : g'.interner = mid.interner := by
    rw [hg']
    exact (interner_chain A _ _ _ _).trans (mid.takePrevious_eq scope).1
  have htemporals : (mid.takePrevious scope).2.temporals = g.temporals := by
    rw [temporals, (mid.takePrevious_eq scope).2.1]
    exact hassoc.temporals
  have hhead : (mid.takePrevious scope).1 = g.chainHead scope := by
    rw [takePrevious_fst, chainHead_congr hassoc.lastMemoryByScope hassoc.lastMemoryId]
  have hchain := temporals_chain A (mid.takePrevious scope).2 (g.interner.intern (memKey id)
    ⟨.memory, id, text, A.importanceFactor importance⟩).1 (A.importanceFactor importance)
    (mid.takePrevious scope).1
  rw [htemporals, (mid.takePrevious_eq scope).1, ← hinterner] at hchain
  rw [← hhead, ← hchain, hg']
  rfl

/-- Removing a memory drops the temporal edges at it. -/
lemma mem_temporals_removeMemory {id : String}
    (hp : p ∈ (g.removeMemory id).temporals) : p ∈ g.temporals := by
  rw [removeMemory] at hp
  split at hp
  · exact hp
  · exact (List.filter_sublist.filterMap temporal).subset hp

/-- A temporal edge joins current nodes. -/
lemma Ok.live_of_mem_temporals (h : g.Ok) (hp : p ∈ g.temporals) :
    g.interner.Live p.1 ∧ g.interner.Live p.2 := by
  obtain ⟨e, he, hkind⟩ := List.mem_filterMap.mp hp
  rw [temporal, ite_none_right_eq_some, some.injEq] at hkind
  obtain ⟨-, rfl⟩ := hkind
  exact ⟨h.source_live e he, h.target_live e he⟩

end MemoryGraph

/-! ## Runs -/

/-- Adding and removing memories. -/
inductive ChainOp
  | add (id text : String) (concepts : List String) (importance : F32) (scope : Option String)
  | remove (id : String)

/-- A graph, and the scope under which each memory was last added. -/
structure ChainRun where
  graph : MemoryGraph := {}
  scopes : Std.ExtTreeMap String (Option String) := ∅

namespace ChainRun

variable {A : GraphArith} {s : ChainRun}

/-- The next state. -/
def step (A : GraphArith) (s : ChainRun) : ChainOp → ChainRun
  | .add id text concepts importance scope =>
    { graph := s.graph.addMemoryScoped A id text concepts importance scope
      scopes := s.scopes.insert id scope }
  | .remove id => { s with graph := s.graph.removeMemory id }

/-- An id is added only when it is absent. -/
def Admits (s : ChainRun) : ChainOp → Prop
  | .add id _ _ _ _ => s.graph.interner.keyToId[memKey id]? = none
  | .remove _ => True

/-- Every temporal edge joins two different memories that were added under the same scope. -/
def Successions (s : ChainRun) : Prop :=
  ∀ p ∈ s.graph.temporals, ∃ old new scope, s.graph.memoryName p.1 = some old ∧
    s.graph.memoryName p.2 = some new ∧ p.1 ≠ p.2 ∧ s.scopes[old]? = some scope ∧
    s.scopes[new]? = some scope

/-- The head of the chain is another memory, and if it is in the graph it was added under the
same scope. -/
def Chains (s : ChainRun) : ChainOp → Prop
  | .add id _ _ _ scope => ∀ head, s.graph.chainHead scope = some head → head ≠ id ∧
      (s.graph.interner.keyToId[memKey head]? ≠ none → s.scopes[head]? = some scope)
  | .remove _ => True

/-- A step keeps the graph good. -/
lemma ok_step (h : s.graph.Ok) (op : ChainOp) : (s.step A op).graph.Ok := by
  cases op with
  | add id text concepts importance scope => exact h.addMemoryScoped A ..
  | remove id => exact h.removeMemory id

/-- Removing a memory leaves the other temporal edges as they are. -/
lemma Successions.remove (h : s.Successions) (id : String) :
    (s.step A (.remove id)).Successions := by
  intro p hp
  have hname : (s.graph.removeMemory id).memoryName = s.graph.memoryName := by
    funext nid
    rw [removeMemory]
    split <;> rfl
  obtain ⟨old, new, scope, hold, hnew, hne, hscopes⟩ := h p (mem_temporals_removeMemory hp)
  exact ⟨old, new, scope, by rw [← hold, ← hname]; rfl, by rw [← hnew, ← hname]; rfl, hne, hscopes⟩

section Add

variable {id text : String} {concepts : List String} {importance : F32} {scope : Option String}

/-- The memories of the edges that were there keep their names and scopes. -/
lemma old_edge_add (hok : s.graph.Ok) (h : s.Successions)
    (habsent : s.graph.interner.keyToId[memKey id]? = none) (hp : p ∈ s.graph.temporals) :
    ∃ old new scope', (s.step A (.add id text concepts importance scope)).graph.memoryName p.1
        = some old ∧
      (s.step A (.add id text concepts importance scope)).graph.memoryName p.2 = some new ∧
      p.1 ≠ p.2 ∧
      (s.step A (.add id text concepts importance scope)).scopes[old]? = some scope' ∧
      (s.step A (.add id text concepts importance scope)).scopes[new]? = some scope' := by
  obtain ⟨old, new, scope', hold, hnew, hne, hscope, hscope'⟩ := h p hp
  obtain ⟨hlive, hlive'⟩ := hok.live_of_mem_temporals hp
  have hname : ∀ {nid : ℕ} {name : String}, s.graph.interner.Live nid →
      s.graph.memoryName nid = some name →
      (s.step A (.add id text concepts importance scope)).graph.memoryName nid = some name ∧
        id ≠ name := by
    intro nid name hnid hn
    have hgrows := hok.grows_addMemoryScoped A id text concepts importance scope
    refine ⟨?_, ?_⟩
    · rw [← hn]
      refine hok.memoryName_eq hnid fun m n hm => hgrows.nodes m n ?_
      exact (hok.interner.intern (memKey id) _ (InternalNode.fits_key _)).2.2.2.2 m n hm
    · rintro rfl
      rw [hok.key_of_memoryName hnid hn] at habsent
      cases habsent
  obtain ⟨hold', hne₁⟩ := hname hlive hold
  obtain ⟨hnew', hne₂⟩ := hname hlive' hnew
  refine ⟨old, new, scope', hold', hnew', hne, ?_, ?_⟩
  · rw [step, Std.ExtTreeMap.getElem?_insert]
    simpa [hne₁] using hscope
  · rw [step, Std.ExtTreeMap.getElem?_insert]
    simpa [hne₂] using hscope'

/-- The edge of a new memory leads from the head of the chain, if that has a node. -/
lemma mem_temporals_add_iff (hok : s.graph.Ok) {memId : ℕ}
    (hmem : (s.step A (.add id text concepts importance scope)).graph.interner.keyToId[memKey id]?
      = some memId) (p : ℕ × ℕ) :
    p ∈ (s.step A (.add id text concepts importance scope)).graph.temporals ↔
      p ∈ s.graph.temporals ∨ ∃ head nid, s.graph.chainHead scope = some head ∧
        (s.step A (.add id text concepts importance scope)).graph.interner.keyToId[memKey head]?
          = some nid ∧ p = (nid, memId) := by
  have htemporals : (s.step A (.add id text concepts importance scope)).graph.temporals = _ :=
    hok.temporals_addMemoryScoped A id text concepts importance scope rfl hmem
  rw [htemporals, List.mem_append, mem_toList, map_eq_some_iff]
  refine or_congr_right ⟨?_, ?_⟩
  · rintro ⟨nid, hnid, rfl⟩
    obtain ⟨head, hhead, hkey⟩ := bind_eq_some_iff.mp hnid
    exact ⟨head, nid, hhead, hkey, rfl⟩
  · rintro ⟨head, nid, hhead, hkey, rfl⟩
    exact ⟨nid, bind_eq_some_iff.mpr ⟨head, hhead, hkey⟩, rfl⟩

/-- An addition keeps the meaning of temporal edges just if it chains properly. -/
lemma successions_add_iff (hok : s.graph.Ok) (h : s.Successions)
    (habsent : s.graph.interner.keyToId[memKey id]? = none) :
    (s.step A (.add id text concepts importance scope)).Successions ↔
      s.Chains (.add id text concepts importance scope) := by
  obtain ⟨memId, hmem⟩ := hok.exists_key_addMemoryScoped A id text concepts importance scope
  have hok' : (s.step A (.add id text concepts importance scope)).graph.Ok := ok_step hok _
  have hscope : (s.scopes.insert id scope)[id]? = some scope := by simp
  have hother : ∀ head ≠ id, (s.scopes.insert id scope)[head]? = s.scopes[head]? := by
    intro head hne
    simp [Std.ExtTreeMap.getElem?_insert, Ne.symm hne]
  have hkey : ∀ head ≠ id, (s.step A (.add id text concepts importance
      scope)).graph.interner.keyToId[memKey head]? = s.graph.interner.keyToId[memKey head]? :=
    fun head hne => hok.getElem?_keyToId_addMemoryScoped A id text concepts importance scope hne
  have hedges := mem_temporals_add_iff hok hmem
  constructor
  · intro hall head hhead
    have hne : head ≠ id := by
      -- The new memory would be chained to itself.
      rintro rfl
      obtain ⟨_, _, _, _, _, hself, _⟩ :=
        hall (memId, memId) ((hedges _).mpr (.inr ⟨head, memId, hhead, hmem, rfl⟩))
      exact hself rfl
    refine ⟨hne, fun hlive => ?_⟩
    obtain ⟨nid, hnid⟩ := ne_none_iff_exists'.mp hlive
    rw [← hkey head hne] at hnid
    obtain ⟨old, new, scope', hold, hnew, -, hs, hs'⟩ :=
      hall (nid, memId) ((hedges _).mpr (.inr ⟨head, nid, hhead, hnid, rfl⟩))
    obtain rfl := some.inj (hold.symm.trans (hok'.memoryName_of_key hnid))
    obtain rfl := some.inj (hnew.symm.trans (hok'.memoryName_of_key hmem))
    rw [step, hother old hne] at hs
    rw [step, hscope] at hs'
    rw [hs, ← hs']
  · intro hchains p hp
    rcases (hedges p).mp hp with hp | ⟨head, nid, hhead, hnid, rfl⟩
    · exact old_edge_add hok h habsent hp
    · obtain ⟨hne, hsame⟩ := hchains head hhead
      have hnid' := (hkey head hne).symm.trans hnid
      refine ⟨head, id, scope, hok'.memoryName_of_key hnid, hok'.memoryName_of_key hmem,
        fun heq => hne ?_, ?_, hscope⟩
      · have hname := hok'.memoryName_of_key hnid
        rw [show nid = memId from heq, hok'.memoryName_of_key hmem] at hname
        exact (some.inj hname).symm
      · exact (hother head hne).trans (hsame (by simp [hnid']))

end Add

/-- A step keeps the meaning of temporal edges just if it chains properly. -/
lemma successions_step_iff (hok : s.graph.Ok) (op : ChainOp) (hop : s.Admits op)
    (h : s.Successions) : (s.step A op).Successions ↔ s.Chains op := by
  cases op with
  | add id text concepts importance scope => exact successions_add_iff hok h hop
  | remove id => exact iff_of_true (h.remove id) trivial

/-- There are no edges at first. -/
lemma successions_new : ({} : ChainRun).Successions := by
  intro p hp
  cases hp

end ChainRun

/-- **What temporal edges stand for.** In a run of additions of absent memories and of removals,
every temporal edge always joins different memories added under the same scope just if at every
addition the head of the chain is not the added memory, and is gone or was added under the same
scope. **Proof sketch.** An addition enters at most the edge from the head of the chain
(`ChainRun.successions_step_iff`), and `throughout_iff_along` carries this over to runs. -/
theorem temporal_edges_are_successions_iff (A : GraphArith) (ops : List ChainOp)
    (hops : Along (ChainRun.step A) ChainRun.Admits ops {}) :
    Throughout (ChainRun.step A) ChainRun.Successions ops {} ↔
      Along (ChainRun.step A) ChainRun.Chains ops {} :=
  throughout_iff_along (fun _ op h _ => ChainRun.ok_step h op)
    (fun _ op hok hop h => ChainRun.successions_step_iff hok op hop h) ops {}
    ok_empty ChainRun.successions_new hops

instance (s : ChainRun) : DecidablePred s.Admits
  | .add .. => inferInstanceAs (Decidable (_ = none))
  | .remove _ => .isTrue trivial

instance (s : ChainRun) : DecidablePred s.Chains
  | .add id _ _ _ scope => decidable_of_iff ((s.graph.chainHead scope).all (fun head =>
      decide (head ≠ id ∧ (s.graph.interner.keyToId[memKey head]? ≠ none →
        s.scopes[head]? = some scope))) = true)
      (by simp [ChainRun.Chains, all_eq_true, imp_iff_not_or])
  | .remove _ => .isTrue trivial

instance : DecidablePred ChainRun.Successions := fun s =>
  decidable_of_iff (∀ p ∈ s.graph.temporals, ∃ old ∈ s.graph.memoryName p.1,
    ∃ new ∈ s.graph.memoryName p.2, ∃ scope ∈ s.scopes[old]?,
      p.1 ≠ p.2 ∧ s.scopes[new]? = some scope)
    (forall₂_congr fun p _ => by simp only [mem_def]; tauto)

/-- Add a memory without concepts. -/
def sampleAdd (id : String) (scope : Option String) : ChainOp := .add id "" [] F32.one scope

set_option maxRecDepth 10000

/-- Memories of two scopes, of which one that is no head is updated. -/
theorem temporal_edges_are_successions_five :
    Throughout (ChainRun.step sampleArith) ChainRun.Successions
      [sampleAdd "a" none, sampleAdd "b" none, sampleAdd "c" (some "u"), .remove "a",
        sampleAdd "a" none] {} :=
  (temporal_edges_are_successions_iff _ _ (by decide +kernel)).mpr (by decide +kernel)

/-- **A temporal edge that is no succession.** The latest memory is updated, and chained to itself;
one of the empty scope follows one without scope; the head of a scope is added again under another,
and then followed by a memory of its old one. -/
theorem temporal_edge_not_succession :
    [[sampleAdd "a" none, .remove "a", sampleAdd "a" none],
      [sampleAdd "a" none, sampleAdd "b" (some "")],
      [sampleAdd "a" (some "u"), .remove "a", sampleAdd "a" (some "v"),
        sampleAdd "b" (some "u")]].all
      (fun ops => Along (ChainRun.step sampleArith) ChainRun.Admits ops {} ∧
        ¬ Throughout (ChainRun.step sampleArith) ChainRun.Successions ops {}) = true := by
  decide +kernel

end TurboMemory
