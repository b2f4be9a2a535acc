import Mathlib.Data.List.Chain
import TurboMemory.Graph.Runs

/-!
# Lineages on arbitrary graphs

The chain of a memory is found by a walk forward and a walk backward that share one set of visited
nodes. Supersessions may branch and may form cycles.

## Main results

* `MemoryGraph.soundLineage_of_ok` — every chain is sound (`MemoryGraph.SoundLineage`: what a
  caller may rely on about it).
-/

set_option autoImplicit false

namespace TurboMemory

open Walks List

variable {pairs : List (String × String)} {old new : String}

/-- A memory with an outgoing pair has a last one. -/
lemma lastSuccessor_isSome_iff :
    (lastSuccessor pairs old).isSome = true ↔ ∃ new, (old, new) ∈ pairs := by
  rw [lastSuccessor, findSome?_isSome_iff]
  constructor
  · rintro ⟨p, hp, hstep⟩
    have heq : p.1 = old := by
      by_contra hne
      simp [hne] at hstep
    exact ⟨p.2, heq ▸ mem_reverse.mp hp⟩
  · rintro ⟨new, hmem⟩
    exact ⟨(old, new), mem_reverse.mpr hmem, by simp⟩

/-! ## The chain -/

namespace MemoryGraph.Lineage

variable {id : String} {newer older : List String}

/-- The two walks meet nowhere: the second one starts with the nodes of the first one visited. -/
lemma nodup (h : Lineage pairs id newer older) : (older.reverse ++ id :: newer).Nodup := by
  refine nodup_append.mpr ⟨nodup_reverse.mpr h.backward.nodup,
    nodup_cons.mpr ⟨fun hid => ?_, h.forward.nodup⟩, fun x hx y hy hxy => ?_⟩
  · exact h.forward.not_mem_visited id hid (mem_singleton_self id)
  · subst hxy
    refine h.backward.not_mem_visited x (mem_reverse.mp hx) ?_
    rcases mem_cons.mp hy with rfl | hy
    · exact mem_append_right _ (mem_singleton_self _)
    · exact mem_append_left _ (mem_reverse.mpr hy)

/-- Each member of the chain is superseded by the one after it. -/
lemma isChain (h : Lineage pairs id newer older) :
    (older.reverse ++ id :: newer).IsChain fun old new => (old, new) ∈ pairs := by
  have hback : (older.reverse ++ [id]).IsChain fun old new => (old, new) ∈ pairs := by
    have hrev : (id :: older).reverse.IsChain fun old new => (old, new) ∈ pairs :=
      isChain_reverse.mpr (h.backward.isChain.imp fun _ _ => mem_of_lastPredecessor)
    rwa [reverse_cons] at hrev
  have hforth : (id :: newer).IsChain fun old new => (old, new) ∈ pairs :=
    h.forward.isChain.imp fun _ _ => mem_of_lastSuccessor
  exact isChain_split.mpr ⟨hback, hforth⟩

end MemoryGraph.Lineage

namespace MemoryGraph

variable {g : MemoryGraph} {id : String}

/-- No supersession edge leads from a node to itself. -/
def NoSelfBelief (g : MemoryGraph) : Prop :=
  ∀ e ∈ g.intEdges, e.kind.supersedes = true → e.source ≠ e.target

instance (g : MemoryGraph) : Decidable g.NoSelfBelief := inferInstanceAs (Decidable (∀ e ∈ _, _))

/-- What a caller may rely on about the chain of a memory. -/
structure SoundLineage (g : MemoryGraph) (id : String) : Prop where
  /-- Both loops end: at a node without a next one, or with one visited before. -/
  ends : ∀ start, g.interner.keyToId[memKey id]? = some start →
    Walk g.supersessionNext [start] start (g.forwardPath start) ∧
    Walk g.supersessionPrevious ((g.forwardPath start).reverse ++ [start]) start
      (g.backwardPath start)
  nodup : (g.beliefLineage id).Nodup
  self : id ∈ g.beliefLineage id
  /-- A supersession edge leads from each member to the one after it. -/
  linked : (g.beliefLineage id).IsChain fun old new =>
    g.HasBelief .refines old new ∨ g.HasBelief .contradicts old new
  head : (g.beliefLineage id).getLast? = some (g.beliefHead id)
  superseded : g.beliefHead id ≠ id ↔ id ∈ g.supersededIds

/-- A pair is an edge of one of the two kinds. -/
lemma mem_supersessions_iff : (old, new) ∈ g.supersessions ↔
      g.HasBelief .refines old new ∨ g.HasBelief .contradicts old new := by
  rw [mem_supersessions]
  constructor
  · rintro ⟨kind, hkind, h⟩
    cases kind
    all_goals first | exact .inl h | exact .inr h | cases hkind
  · rintro (h | h)
    · exact ⟨.refines, rfl, h⟩
    · exact ⟨.contradicts, rfl, h⟩

/-- No pair joins an id to itself: nodes of one name are one node. -/
lemma Ok.not_mem_self (h : g.Ok) (hself : g.NoSelfBelief) (id : String) :
    (id, id) ∉ g.supersessions := by
  intro hmem
  obtain ⟨kind, hkind, e, he, rfl, hsource, htarget⟩ := mem_supersessions.mp hmem
  refine hself e he hkind (h.nameOf_injOn ⟨h.source_live e he, id, hsource⟩
    ⟨h.target_live e he, id, htarget⟩ ?_)
  rw [nameOf, nameOf, hsource, htarget]

/-- **Lineages are sound**, also where supersessions branch or form cycles. **Proof sketch.** The
chain is a walk backward, reversed, and a walk forward (`Ok.beliefLineage_spec`). A walk visits
nothing twice, and the one backward avoids what the one forward visited. The walk forward stays
where it starts just if there is no pair to follow. -/
theorem soundLineage_of_ok (h : g.Ok) (hself : g.NoSelfBelief) (id : String) :
    g.SoundLineage id := by
  obtain ⟨newer, older, hline, hchain, hhead⟩ := h.beliefLineage_spec id
  refine ⟨fun start _ => ⟨h.walk_forwardPath start, h.walk_backwardPath start⟩, ?_, ?_, ?_, ?_, ?_⟩
  · rw [hchain]
    exact hline.nodup
  · rw [hchain]
    exact mem_append_right _ mem_cons_self
  · rw [hchain]
    exact hline.isChain.imp fun _ _ => mem_supersessions_iff.mp
  · rw [hchain, hhead, getLast?_append_of_ne_nil _ (cons_ne_nil _ _), getLast?_eq_some_getLast]
  · have hnot : lastSuccessor g.supersessions id ≠ some id := fun heq =>
      h.not_mem_self hself id (mem_of_lastSuccessor heq)
    rw [hhead, hline.forward.getLast_ne_iff hnot, lastSuccessor_isSome_iff, mem_supersededIds]

set_option maxRecDepth 10000

/-- Three memories, of which two supersede each other and both supersede the third. -/
theorem soundLineage_cycle :
    (sampleGraph (sampleOps [("a", "b"), ("b", "a"), ("c", "b"), ("c", "a")])).SoundLineage "c" :=
  soundLineage_of_ok (reachable_sampleOps _).ok (by decide +kernel) "c"

end MemoryGraph

end TurboMemory
