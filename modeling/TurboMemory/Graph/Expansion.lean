import TurboMemory.Graph.Activation

/-!
# The limits of an expansion

An expansion is meant to add a bounded number of memories, and to leave the seeds to the vector
search: a path through concepts should only add memories that the search did not find. The limit
is checked after an edge was followed, not before a memory is added, and the memories of the
concepts that the query names are added without a check; nowhere is a seed told from another
memory.

## Main results

* `SpreadingActivation.expansion_bounded` — a search adds no more memories than the limit if its
  expansion is `Bounded`, and only then if all it collects is returned.
* `SpreadingActivation.seed_delta_direct` — if no path through concepts leads to a seed
  (`Unassociated`), the signals of the seeds are lexical or come along belief and time edges.
-/

set_option autoImplicit false

namespace TurboMemory

open List MemoryGraph Prod
open Std (ExtTreeMap)

namespace SpreadingActivation

variable {S : Type}

/-! ## The number of memories -/

namespace Run

variable (x : Run S) (A : GraphArith) (bm25 : Bm25Index) (query : String)
  (seeds : List (String × S))

/-- A memory that is neither a seed nor a lexical match. -/
def IsNew (id : String) : Prop :=
  id ∉ seeds.map fst ∧ id ∉ (bm25.score A x.ops query).map fst

instance (id : String) : Decidable (x.IsNew A bm25 query seeds id) :=
  inferInstanceAs (Decidable (_ ∧ _))

/-- An expansion collects no more new memories than the limit. -/
def Bounded : Prop :=
  ∀ ids : List String, ids.Nodup →
    (∀ id ∈ ids, x.IsNew A bm25 query seeds id ∧ ∃ pool, x.Collects query seeds pool id) →
    ids.length ≤ x.limit

end Run

section Search

variable {A : GraphArith} {O : SpreadOps S} {config : SpreadingConfig S} {s : SpreadingActivation}
  {query : String} {seeds : List (String × S)} {topK : ℕ} {allow : Option (String → Bool)}

/-- What a search returns is the start of its ranking. -/
lemma searchRestricted_sublist :
    ((searchRestricted A O config s query seeds topK allow).getD []).Sublist
      ((Run.ranking ⟨O, config, s.graph, allow⟩ A s.bm25 query seeds).map fst) := by
  rw [searchRestricted]
  dsimp only
  split
  · exact nil_sublist _
  · split
    · exact nil_sublist _
    · exact (take_sublist _ _).map _

/-- A search returns no more than it is asked for. -/
lemma length_searchRestricted_le :
    ((searchRestricted A O config s query seeds topK allow).getD []).length ≤ topK := by
  rw [searchRestricted]
  dsimp only
  split
  · exact Nat.zero_le _
  · split
    · exact Nat.zero_le _
    · rw [Option.getD_some, length_map, length_take]
      exact min_le_left _ _

/-- What a search returns has its signal. -/
lemma getElem?_deltas_of_mem_searchRestricted {p : String × S}
    (hp : p ∈ (searchRestricted A O config s query seeds topK allow).getD []) :
    (Run.deltas ⟨O, config, s.graph, allow⟩ A s.bm25 query seeds)[p.1]? = some p.2 :=
  ExtTreeMap.mem_toList_iff_getElem?_eq_some.mp
    ((map_ranking_perm _ A s.bm25 query seeds).mem_iff.mp (searchRestricted_sublist.mem hp))

/-- A new memory that a search returns was collected by its expansion. -/
lemma collects_of_mem_searchRestricted {p : String × S}
    (hp : p ∈ (searchRestricted A O config s query seeds topK allow).getD [])
    (hnew : Run.IsNew ⟨O, config, s.graph, allow⟩ A s.bm25 query seeds p.1) :
    0 < config.iterations ∧
      ∃ pool, Run.Collects ⟨O, config, s.graph, allow⟩ query seeds pool p.1 := by
  rcases candidate_of_mem_deltas (Grouping.mem_of_getElem?
    (getElem?_deltas_of_mem_searchRestricted hp)) with h | h | h
  · exact absurd h hnew.1
  · exact absurd h.2 hnew.2
  · exact h

/-- **The limit of an expansion.** A search adds no more new memories than the limit if it has no
seeds, does not expand, returns no more than the limit, or has a bounded expansion. The last
condition is exact if all signals of the expansion can be heard and the cut takes nothing away.
**Proof sketch.** A new memory comes from a pool, the pools have what the expansion collects
(`mem_expand_iff`), and the ranking lists every memory once. -/
theorem expansion_bounded : let x : Run S := ⟨O, config, s.graph, allow⟩
    let added := ((searchRestricted A O config s query seeds topK allow).getD []).countP
      fun p => x.IsNew A s.bm25 query seeds p.1
    (seeds = [] ∨ config.iterations = 0 ∨ topK ≤ x.limit ∨ x.Bounded A s.bm25 query seeds →
      added ≤ x.limit) ∧
    (seeds ≠ [] → 0 < config.iterations → (x.ranking A s.bm25 query seeds).length ≤ topK →
      (∀ pool id, x.Collects query seeds pool id → x.Audible (x.expand query seeds) pool id) →
      added ≤ x.limit → x.Bounded A s.bm25 query seeds) := by
  intro x added
  obtain ⟨hnodup, hmem⟩ := map_ranking x A s.bm25 query seeds
  set returned := (searchRestricted A O config s query seeds topK allow).getD [] with hreturned
  have hadded : added = ((returned.filter fun p => x.IsNew A s.bm25 query seeds p.1).map fst).length
      := by rw [length_map, ← countP_eq_length_filter]
  constructor
  · rintro (hnil | hiter | htop | hbounded)
    · have hnone : returned = [] := by simp [hreturned, searchRestricted, hnil]
      simp [hadded, hnone]
    · refine (countP_eq_zero.mpr fun p hp hnew => ?_).le.trans (Nat.zero_le _)
      exact (collects_of_mem_searchRestricted hp (of_decide_eq_true hnew)).1.ne' hiter
    · exact (countP_le_length.trans length_searchRestricted_le).trans htop
    · rw [hadded]
      refine hbounded _ (hnodup.sublist
        ((filter_sublist.trans searchRestricted_sublist).map _)) fun id hid => ?_
      obtain ⟨p, hp, rfl⟩ := mem_map.mp hid
      obtain ⟨hp, hnew⟩ := mem_filter.mp hp
      have hnew := of_decide_eq_true hnew
      exact ⟨hnew, (collects_of_mem_searchRestricted hp hnew).2⟩
  · intro hseeds hiter htop haudible hle ids hids hcollected
    refine (hids.subperm fun id hid => ?_).length_le.trans (hadded ▸ hle)
    obtain ⟨hnew, pool, hcollects⟩ := hcollected id hid
    have hranked := (hmem id).mpr
      (mem_deltas.mpr (.inr (.inr ⟨hiter, pool, haudible pool id hcollects⟩)))
    obtain ⟨p, hp, rfl⟩ := mem_map.mp hranked
    refine mem_map_of_mem (mem_filter.mpr ⟨?_, decide_eq_true hnew⟩)
    rwa [hreturned, searchRestricted_of_length_le hseeds htop, Option.getD_some]

end Search

/-! ## Too many memories -/

/-- A memory `s`, and a memory with the concept `tea` for each of the ids. -/
def sampleTeas (ids : List String) : SpreadingActivation :=
  ids.foldl (fun s id => s.addMemoryScoped sampleArith id "leaf" ["tea"] F32.one
    (some id)) (({} : SpreadingActivation).addMemoryScoped sampleArith "s" "cup" []
      F32.one (some "s"))

/-- A search for `tea` with the seed `s`, that may add ten memories. -/
def searchTeas (ids : List String) (topK : ℕ) : Option (List (String × ℤ)) :=
  searchRestricted sampleArith sampleOps
    { sampleSpreading with expansionMaxCandidates := 10 } (sampleTeas ids) "tea" [("s", 100)] topK
    none

set_option maxRecDepth 10000

/-- The run of such a search. -/
def runTeas (ids : List String) : Run ℤ :=
  ⟨sampleOps, { sampleSpreading with expansionMaxCandidates := 10 }, (sampleTeas ids).graph, none⟩

/-- Ten memories with the concept are no more than the limit, and the seed has no edge that would
lead to another one. -/
theorem expansion_bounded_ten : ((searchTeas ["a", "b", "c", "d", "e", "f", "g", "h", "i", "j"]
      20).getD []).countP (fun p => (runTeas ["a", "b", "c", "d", "e", "f", "g", "h", "i",
        "j"]).IsNew sampleArith (sampleTeas ["a", "b", "c", "d", "e", "f", "g", "h", "i", "j"]).bm25
          "tea" [("s", 100)] p.1) ≤ 10 := by
  set teas := ["a", "b", "c", "d", "e", "f", "g", "h", "i", "j"]
  refine (expansion_bounded (A := sampleArith) (O := sampleOps) (s := sampleTeas teas)).1
    (.inr (.inr (.inr fun ids hids hcollected => ?_)))
  have hwalk : ∀ hit ∈ (runTeas teas).namedHits "tea" ++ ((runTeas teas).walk [("s", 100)]).flatten,
      hit.id ∈ teas := by decide +kernel
  have hsub : ids ⊆ teas := by
    intro id hid
    obtain ⟨-, pool, hcollects⟩ := hcollected id hid
    obtain ⟨hit, hhit, -, rfl⟩ := Run.Collects.exists_hit hcollects
    exact hwalk hit hhit
  exact (hids.subperm hsub).length_le

/-- A search among eleven memories with the concept that the query names adds all of them. -/
theorem expansion_exceeds_limit :
    ((searchTeas ["a", "b", "c", "d", "e", "f", "g", "h", "i", "j", "k"] 20).getD []).countP
      (fun p => (runTeas ["a", "b", "c", "d", "e", "f", "g", "h", "i", "j", "k"]).IsNew sampleArith
        (sampleTeas ["a", "b", "c", "d", "e", "f", "g", "h", "i", "j", "k"]).bm25 "tea" [("s", 100)]
          p.1) = 11 := by
  decide +kernel

/-! ## The signals of the seeds -/

namespace Run

/-- The signals of the seeds and the accepted lexical matches. -/
def lexicalDeltas (x : Run S) (A : GraphArith) (bm25 : Bm25Index) (query : String)
    (seeds : List (String × S)) : ExtTreeMap String S :=
  x.addLexical ((bm25.score A x.ops query).filter fun p => x.allowed p.1)
    (seeds.foldl (fun (delta : ExtTreeMap String S) p => delta.insert p.1 x.ops.zero) ∅)

/-- The signals without those that come through concepts. -/
def directDeltas (x : Run S) (A : GraphArith) (bm25 : Bm25Index) (query : String)
    (seeds : List (String × S)) : ExtTreeMap String S :=
  if 0 < x.config.iterations then
    let pools := x.expand query seeds
    x.merge (x.ops.mul · x.ops.half) pools.temporal
      (x.merge (fun signal => signal) pools.strong (x.lexicalDeltas A bm25 query seeds))
  else x.lexicalDeltas A bm25 query seeds

/-- No path through concepts leads to a seed: the expansion collects none in the pools for such
paths. -/
def Unassociated (x : Run S) (query : String) (seeds : List (String × S)) : Prop :=
  ∀ id, x.Collects query seeds .normal id ∨ x.Collects query seeds .abstraction id →
    id ∉ seeds.map fst

end Run

/-- A pool says nothing about a memory that is not in it. -/
lemma getElem?_merge_of_not_mem (x : Run S) (boost : S → S) {pool : ExtTreeMap String S}
    {id : String} (hid : id ∉ pool) (delta : ExtTreeMap String S) :
    (x.merge boost pool delta)[id]? = delta[id]? := by
  refine Loop.foldl_induction (P := fun d => d[id]? = delta[id]?) _ rfl
    fun p hp d hd => ?_
  have hne : p.1 ≠ id := fun heq =>
    hid (heq ▸ Grouping.mem_of_getElem? (ExtTreeMap.mem_toList_iff_getElem?_eq_some.mp hp))
  split
  · rw [SpreadOps.bump, ExtTreeMap.getElem?_insert, if_neg, hd]
    rwa [Std.LawfulEqCmp.compare_eq_iff_eq]
  · exact hd

/-- If no path through concepts leads to a seed, its signal is lexical or comes along belief and
time edges. **Proof sketch.** The pools for paths through concepts have what the expansion collects
there (`mem_expand_iff`), so merging them changes nothing for a seed. -/
theorem seed_delta_direct {A : GraphArith} {O : SpreadOps S} {config : SpreadingConfig S}
    {s : SpreadingActivation} {query : String} {seeds : List (String × S)} {topK : ℕ}
    {allow : Option (String → Bool)} (h : 0 < config.iterations →
      Run.Unassociated ⟨O, config, s.graph, allow⟩ query seeds) :
    ∀ p ∈ (searchRestricted A O config s query seeds topK allow).getD [], p.1 ∈ seeds.map fst →
        (Run.directDeltas ⟨O, config, s.graph, allow⟩ A s.bm25 query seeds)[p.1]? = some p.2 := by
  intro p hp hseed
  rw [← getElem?_deltas_of_mem_searchRestricted hp, Run.directDeltas, Run.deltas]
  split
  · next hiter =>
    symm
    rw [Run.mergeAll, getElem?_merge_of_not_mem, getElem?_merge_of_not_mem]
    · rfl
    · intro (hin : p.1 ∈ (Run.expand _ query seeds).get .normal)
      exact h hiter _ (.inl (mem_expand_iff.mp hin)) hseed
    · intro (hin : p.1 ∈ (Run.expand _ query seeds).get .abstraction)
      exact h hiter _ (.inr (mem_expand_iff.mp hin)) hseed
  · rfl

/-- The memories `a` and `b` with one concept each. -/
def samplePair (ca cb : String) : SpreadingActivation :=
  (({} : SpreadingActivation).addMemoryScoped sampleArith "a" "cup" [ca] F32.one
      (some "a")).addMemoryScoped sampleArith "b" "leaf" [cb] F32.one (some "b")

/-- A search with both as seeds. -/
def searchPair (ca cb : String) : Option (List (String × ℤ)) :=
  searchRestricted sampleArith sampleOps sampleSpreading (samplePair ca cb) "water"
    [("a", 1000), ("b", 800)] 2 none

/-- With different concepts, none of which the query names, the seeds have no signal. -/
theorem seed_delta_direct_apart :
    (∀ p ∈ (searchPair "tea" "milk").getD [], p.1 ∈ [("a", 1000), ("b", 800)].map fst →
      (Run.directDeltas ⟨sampleOps, sampleSpreading, (samplePair "tea" "milk").graph, none⟩
        sampleArith (samplePair "tea" "milk").bm25 "water"
          [("a", 1000), ("b", 800)])[p.1]? = some p.2) ∧
      searchPair "tea" "milk" = some [("a", 0), ("b", 0)] := by
  refine ⟨seed_delta_direct fun _ id hid => ?_, by decide +kernel⟩
  have hnone : (Run.namedHits ⟨sampleOps, sampleSpreading, (samplePair "tea" "milk").graph, none⟩
      "water" ++ (Run.walk ⟨sampleOps, sampleSpreading, (samplePair "tea" "milk").graph, none⟩
        [("a", 1000), ("b", 800)]).flatten).length = 0 := by decide +kernel
  obtain ⟨pool, hcollects⟩ : ∃ pool, Run.Collects _ "water" [("a", 1000), ("b", 800)] pool id :=
    hid.elim (fun h => ⟨_, h⟩) fun h => ⟨_, h⟩
  obtain ⟨hit, hhit, -⟩ := hcollects.exists_hit
  rw [length_eq_zero_iff.mp hnone] at hhit
  cases hhit

/-- Two seeds with the same concept raise each other, though nothing but the concept connects
them. -/
theorem seed_raised_by_association :
    searchPair "tea" "tea" = some [("a", 300), ("b", 375)] ∧
      (Run.directDeltas ⟨sampleOps, sampleSpreading, (samplePair "tea" "tea").graph, none⟩
        sampleArith (samplePair "tea" "tea").bm25 "water"
          [("a", 1000), ("b", 800)])["b"]? = some 0 := by
  decide +kernel

end SpreadingActivation

end TurboMemory
