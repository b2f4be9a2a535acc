import TurboMemory.Engine.Open
import TurboMemory.Graph.Snapshot

/-!
# The graph after an open

An open takes the saved graph, drops the memories whose record is gone, and enters the records it
does not have. Memories are matched by their id alone.

## Main results

* `MemoryGraph.Ok.removeAll_spec` — dropping a list of memories.
* `Engine.rebuildGraph_spec` — the graph after an open has a memory for every record and no other,
  and the saved supersessions between records that are there.
-/

set_option autoImplicit false

namespace TurboMemory

/-! ## Dropping and entering many memories -/

namespace MemoryGraph

variable {g : MemoryGraph}

/-- **Dropping a list of memories** drops their supersessions. -/
lemma Ok.removeAll_spec (h : g.Ok) (ids : List String) : (ids.foldl MemoryGraph.removeMemory g).Ok ∧
    (ids.foldl MemoryGraph.removeMemory g).supersessions =
      g.supersessions.filter (fun p => p.1 ∉ ids ∧ p.2 ∉ ids) ∧
    ∀ id, (ids.foldl MemoryGraph.removeMemory g).interner.keyToId[memKey id]? =
      if id ∈ ids then none else g.interner.keyToId[memKey id]? := by
  induction ids generalizing g with
  | nil => exact ⟨h, by simp, by simp⟩
  | cons x ids ih =>
    obtain ⟨hok, hsup, hkeys⟩ := ih (h.removeMemory x)
    rw [List.foldl_cons]
    refine ⟨hok, ?_, fun id => ?_⟩
    · rw [hsup, h.supersessions_removeMemory, List.filter_filter]
      refine List.filter_congr fun p _ => ?_
      simp only [List.mem_cons, not_or, Bool.decide_and, Bool.and_assoc, Bool.and_comm,
        Bool.and_left_comm]
    · rw [hkeys, getElem?_keyToId_removeMemory]
      by_cases hx : x = id
      · simp [hx]
      · by_cases hmem : id ∈ ids <;> simp [hmem, hx, Ne.symm hx]

/-- Entering the memories of records, those that are to be skipped apart. -/
lemma Ok.addAll_spec (h : g.Ok) (A : GraphArith) (skip : String → Prop) [DecidablePred skip]
    (records : List (PointOffset × Record)) :
    let g' := records.foldl (fun g p => if skip p.2.id then g else
      g.addMemoryScoped A p.2.id p.2.text p.2.concepts p.2.importance p.2.scope) g
    g'.Ok ∧ g'.supersessions = g.supersessions ∧
    ∀ id, (∃ nid, g'.interner.keyToId[memKey id]? = some nid) ↔
      (∃ nid, g.interner.keyToId[memKey id]? = some nid) ∨
        ¬ skip id ∧ ∃ p ∈ records, p.2.id = id := by
  induction records generalizing g with
  | nil => exact ⟨h, rfl, by simp⟩
  | cons p records ih =>
    dsimp only at ih ⊢
    rw [List.foldl_cons]
    by_cases hskip : skip p.2.id
    · rw [if_pos hskip]
      obtain ⟨hok, hsup, hkeys⟩ := ih h
      refine ⟨hok, hsup, fun id => ?_⟩
      rw [hkeys]
      refine or_congr_right (and_congr_right fun hnot => ?_)
      have hne : p.2.id ≠ id := fun heq => hnot (heq ▸ hskip)
      simp [hne]
    · rw [if_neg hskip]
      obtain ⟨hok, hsup, hkeys⟩ := ih
        (h.addMemoryScoped A p.2.id p.2.text p.2.concepts p.2.importance p.2.scope)
      refine ⟨hok, hsup.trans (h.supersessions_addMemoryScoped ..), fun id => ?_⟩
      rw [hkeys]
      by_cases heq : id = p.2.id
      · subst heq
        simp [hskip, h.exists_key_addMemoryScoped]
      · rw [h.getElem?_keyToId_addMemoryScoped _ _ _ _ _ _ heq]
        simp [Ne.symm heq]

end MemoryGraph

/-! ## The rebuilt graph -/

section

variable (E : Env) (records : List (PointOffset × Record))

/-- The graph of records alone. -/
lemma buildGraph_spec :
    (buildGraph E records).graph.Ok ∧ (buildGraph E records).graph.supersessions = [] ∧
    ∀ id, (∃ nid, (buildGraph E records).graph.interner.keyToId[memKey id]? = some nid) ↔
      ∃ p ∈ records, p.2.id = id := by
  obtain ⟨hok, hsup, hkeys⟩ := MemoryGraph.ok_empty.addAll_spec E.arith (fun _ => False) records
  simp only [if_false, not_false_eq_true, true_and] at hok hsup hkeys
  exact ⟨hok, hsup, fun id => by simpa [buildGraph, SpreadingActivation.new] using hkeys id⟩

/-- **The graph after an open** has a memory for every record and no other, and the saved
supersessions between them. -/
lemma rebuildGraph_spec
    {saved : Option (List UInt8)} {g : MemoryGraph} (h : g.Ok)
    (hsaved : saved.bind E.fromSnapshotBytes = some g) : (rebuildGraph E records saved).graph.Ok ∧
    (rebuildGraph E records saved).graph.supersessions = g.supersessions.filter (fun p =>
      (∃ q ∈ records, q.2.id = p.1) ∧ ∃ q ∈ records, q.2.id = p.2) ∧
    ∀ id, (∃ nid, (rebuildGraph E records saved).graph.interner.keyToId[memKey id]? = some nid) ↔
      ∃ p ∈ records, p.2.id = id := by
  unfold rebuildGraph
  rw [hsaved]
  dsimp only [SpreadingActivation.new]
  have hstale : ∀ id, id ∈ (g.memoryIds.filter fun id => !records.any (·.2.id == id)) ↔
      id ∈ g.memoryIds ∧ ¬ ∃ p ∈ records, p.2.id = id := by
    intro id
    simp
  set stale := g.memoryIds.filter fun id => !records.any (·.2.id == id) with hdef
  obtain ⟨hok, hsup, hkeys⟩ := h.removeAll_spec stale
  obtain ⟨hok', hsup', hkeys'⟩ :=
    hok.addAll_spec E.arith (fun id => id ∈ g.memoryIds ∧ id ∉ stale) records
  refine ⟨hok', ?_, fun id => ?_⟩
  · rw [hsup', hsup]
    refine List.filter_congr fun p hp => ?_
    -- Both ids of a saved supersession are memories, so they are stale or have a record.
    obtain ⟨hold, hnew⟩ := h.key_of_mem_supersessions hp
    have hold := h.mem_memoryIds.mpr hold
    have hnew := h.mem_memoryIds.mpr hnew
    simp only [hstale, hold, hnew, true_and, not_not]
  · rw [hkeys', hkeys]
    by_cases hrec : ∃ p ∈ records, p.2.id = id
    · by_cases hmem : id ∈ g.memoryIds
      · have := h.mem_memoryIds.mp hmem
        simp [hstale, hmem, hrec, this]
      · simp [hstale, hmem, hrec]
    · have hnone : id ∉ g.memoryIds → ¬ ∃ nid, g.interner.keyToId[memKey id]? = some nid :=
        fun hmem hex => hmem (h.mem_memoryIds.mpr hex)
      by_cases hmem : id ∈ g.memoryIds
      · simp [hstale, hmem, hrec]
      · simp only [hstale, hmem, hrec, false_and, if_false, and_false, or_false]
        exact iff_of_false (hnone hmem) not_false

end

end TurboMemory
