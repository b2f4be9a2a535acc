import Mathlib.Data.Finset.Card
import Mathlib.Data.List.MinMax
import Mathlib.Data.Rat.Floor
import TurboMemory.Search.Rank

/-!
# Segments and the search over a snapshot of them

A snapshot holds the searchable segments. A search asks every segment for a pool of
candidates, merges the pools without repeating an offset, scores the merged candidates against
the full vectors and cuts the ranking.

## Main results

* `dedupLoop_isTop` — walking down a ranking and dropping repeated offsets selects the best
  distinct ones.
* `kwayMergeTopk_agrees` — both merges are such a walk, and return the same scores.

## Implementation notes

Reading a vector and computing a cosine are one parameter, `Vectors`; the kernels that score
vectors in chunks score each of them on its own. Float arithmetic occurs in the pool width
only, where it is rational except for the reciprocal square root, an arbitrary function.
-/

set_option autoImplicit false

namespace TurboMemory

open Selection List

variable {S : Type} {k : ℕ}

/-! ## Points and segments -/

/-- A scored point returned by a segment search. -/
structure ScoredPoint (S : Type) where
  offset : PointOffset
  score : S
  tier : Tier
deriving DecidableEq

/-- The order of points in every ranking: best score first. -/
def byScore [Score S] (a b : ScoredPoint S) : Ordering := Score.cmpScoreDesc a.score b.score

/-- What a search reads: the vector of an offset, if its slot is populated, and the cosine of
a query with it. -/
structure Vectors (S : Type) where
  get : PointOffset → Option Embedding
  cosine : Embedding → Embedding → S

/-- Common interface implemented by every tier. -/
structure VectorSegment (S : Type) where
  search : Embedding → ℕ → Option Bitmap → Except StorageError (List (ScoredPoint S))
  pointCount : ℕ

/-- Score offsets against the full vectors, leaving out those without one. -/
def scoreOffsets (V : Vectors S) (query : Embedding) (tier : Tier) (offsets : List PointOffset) :
    List (ScoredPoint S) :=
  offsets.filterMap fun o => (V.get o).map fun v => ⟨o, V.cosine query v, tier⟩

/-- Rerank of candidate points with the full vectors. -/
def cpuRerankCandidates (V : Vectors S) (query : Embedding) (candidates : List (ScoredPoint S)) :
    List (ScoredPoint S) :=
  candidates.filterMap fun c => (V.get c.offset).map fun v => { c with score := V.cosine query v }

/-! ## The plain segment -/

/-- Appendable Hot segment: the offsets it owns, each once. -/
structure HotSegment where
  dim : ℕ
  offsets : List PointOffset
  nodup : offsets.Nodup

namespace HotSegment

/-- An empty segment. -/
def new (dim : ℕ) : HotSegment := ⟨dim, [], nodup_nil⟩

/-- Add an offset, unless the segment owns it already. -/
def insert (seg : HotSegment) (offset : PointOffset) (embedding : Embedding) :
    Except StorageError HotSegment :=
  (validateDimension .core embedding seg.dim).map fun _ =>
    if h : offset ∈ seg.offsets then seg
    else { seg with
      offsets := seg.offsets ++ [offset]
      nodup := by
        refine nodup_append.mpr ⟨seg.nodup, nodup_singleton _, ?_⟩
        rintro a ha b hb rfl
        exact h (mem_singleton.mp hb ▸ ha) }

/-- Exact scan: score the admitted offsets, rank them, cut the ranking. -/
def scan [Score S] (V : Vectors S) (seg : HotSegment) (query : Embedding) (topK : ℕ)
    (allowed : Option Bitmap) : List (ScoredPoint S) :=
  (sortBy byScore (scoreOffsets V query .hot (seg.offsets.filter (admits allowed)))).take topK

/-- Check the query, then scan. -/
def search [Score S] (V : Vectors S) (seg : HotSegment) (query : Embedding) (topK : ℕ)
    (allowed : Option Bitmap) : Except StorageError (List (ScoredPoint S)) :=
  (validateDimension .core query seg.dim).map fun _ => seg.scan V query topK allowed

end HotSegment

/-! ## Merging -/

/-- Walk down a list, keeping the first point of every offset, until `topK` are kept. -/
def dedupLoop (topK : ℕ) : List (ScoredPoint S) → List (ScoredPoint S) → List (ScoredPoint S)
  | [], deduped => deduped
  | c :: merged, deduped =>
    if c.offset ∈ deduped.map ScoredPoint.offset then dedupLoop topK merged deduped
    else
      let deduped := deduped ++ [c]
      if topK ≤ deduped.length then deduped else dedupLoop topK merged deduped

/-- Merge candidate lists by sorting them all, keeping the highest score of each offset. -/
def mergeCandidates [Score S] (lists : List (List (ScoredPoint S))) (topK : ℕ) :
    List (ScoredPoint S) :=
  dedupLoop topK (sortBy byScore lists.flatten) []

/-- The position the k-way merge has reached in one of the lists, with the score there. -/
structure MergeItem (S : Type) where
  score : S
  list : ℕ
  idx : ℕ
deriving DecidableEq

/-- The order of merge positions: best score first. -/
def itemByScore [Score S] (a b : MergeItem S) : Ordering := Score.cmpScoreDesc a.score b.score

/-- The point at a merge position. -/
def MergeItem.point? (lists : List (List (ScoredPoint S))) (item : MergeItem S) :
    Option (ScoredPoint S) :=
  (lists[item.list]?).bind (·[item.idx]?)

/-- The merge position at index `idx` of a list, unless the list ends before. -/
def mergeItemAt (lists : List (List (ScoredPoint S))) (list idx : ℕ) : Option (MergeItem S) :=
  ((lists[list]?).bind (·[idx]?)).map fun c => ⟨c.score, list, idx⟩

/-- Pop the best position, keep its point if the offset is new, and move on in its list. -/
def kwayLoop [Score S] (heap : MaxHeap (RankLe (itemByScore (S := S))))
    (lists : List (List (ScoredPoint S))) (k : ℕ) :
    ℕ → List (MergeItem S) → List (ScoredPoint S) → List (ScoredPoint S)
  | 0, _, out => out
  | fuel + 1, items, out =>
    match heap.pop items with
    | none => out
    | some (item, items) =>
      match item.point? lists with
      | none => out
      | some c =>
        let items := (mergeItemAt lists item.list (item.idx + 1)).toList ++ items
        if c.offset ∈ out.map ScoredPoint.offset then kwayLoop heap lists k fuel items out
        else
          let out := out ++ [c]
          if k ≤ out.length then out else kwayLoop heap lists k fuel items out

/-- K-way heap merge of sorted candidate lists. -/
def kwayMergeTopk [Score S] (heap : MaxHeap (RankLe (itemByScore (S := S))))
    (lists : List (List (ScoredPoint S))) (k : ℕ) : List (ScoredPoint S) :=
  if k = 0 ∨ lists = [] then []
  else match lists with
    | [list] => list.take k
    | lists =>
      let items := (range lists.length).filterMap (mergeItemAt lists · 0)
      kwayLoop heap lists k (lists.flatten.length + 1) items []

/-! ## The snapshot -/

/-- Immutable view of the searchable segment set. `rsqrt` is the reciprocal square root of
the float unit. -/
structure SegmentSnapshot (S : Type) where
  searchListSize : ℕ
  rsqrt : ℚ → ℚ
  segments : List (VectorSegment S)

namespace SegmentSnapshot

variable (snap : SegmentSnapshot S)

/-- Points in all segments, an offset counted once for each segment that holds it. -/
def pointCount : ℕ := (snap.segments.map VectorSegment.pointCount).sum

/-- The over-fetch factor: grows with filter strictness and the number of segments. -/
def multiplier (total : ℕ) (allowed : Option Bitmap) : ℕ :=
  let base : ℕ := if allowed.isSome then 8 else 4
  let selectivity : ℚ := (allowed.map fun b => (b.card : ℚ) / total).getD 1
  if selectivity < 1 / 100 then base
  else
    let selectivityFactor := min (max (snap.rsqrt selectivity) 1) 16
    let segmentFactor := min (max (1 + ((max snap.segments.length 1 - 1 : ℕ) : ℚ) / 4) 1) (5 / 2)
    ⌊(base : ℚ) * selectivityFactor * segmentFactor⌋₊

/-- Per-segment candidate pool width. -/
def poolWidth (topK : ℕ) (ef : Option ℕ) (allowed : Option Bitmap) :
    ℕ :=
  let total := max snap.pointCount 1
  let baseEf := ef.getD snap.searchListSize
  min (max (min (satMul topK (snap.multiplier total allowed)) (satMul topK 48)) baseEf) total

/-- Search every segment for `poolK` candidates and merge the lists. -/
def candidates [Score S] (heap : MaxHeap (RankLe (itemByScore (S := S))))
    (snap : SegmentSnapshot S) (query : Embedding) (poolK : ℕ) (allowed : Option Bitmap) :
    Except StorageError (List (ScoredPoint S)) :=
  (snap.segments.mapM fun seg : VectorSegment S => seg.search query poolK allowed).map fun lists =>
    if 4 ≤ lists.length ∧ 64 ≤ poolK then kwayMergeTopk heap lists poolK
    else mergeCandidates lists poolK

/-- Search every segment, merge the candidates, and rerank them against the full vectors. -/
def search [Score S] (heap : MaxHeap (RankLe (itemByScore (S := S)))) (V : Vectors S)
    (snap : SegmentSnapshot S) (query : Embedding) (topK : ℕ) (ef : Option ℕ)
    (allowed : Option Bitmap) : Except StorageError (List (ScoredPoint S)) :=
  (snap.candidates heap query (snap.poolWidth topK ef allowed) allowed).map fun candidates =>
    (sortBy byScore (cpuRerankCandidates V query candidates)).take topK

end SegmentSnapshot

/-! ## Merging selects the best distinct offsets -/

/-- Ranking by a score function: the higher score first, ties either way. -/
def ByScore {α : Type} [LE S] (f : α → S) (a b : α) : Prop := f b ≤ f a

section LinearOrder

open ScoredPoint

variable [LinearOrder S] {α : Type} (f : α → S)

instance : IsTrans α (ByScore f) where
  trans _ _ _ hab hbc := le_trans hbc hab

instance : Std.Total (ByScore f) where
  total a b := (le_total (f b) (f a)).imp id id

instance : Std.Antisymm (ByScore (id : S → S)) where
  antisymm _ _ hab hba := le_antisymm hba hab

instance : DecidableRel (ByScore f) := fun a b => inferInstanceAs (Decidable (f b ≤ f a))

variable {f : PointOffset → S}

/-- What is distinct in `xs ++ ys`: the elements of `xs`, and those of `ys` that are new. -/
lemma dedup_append_perm {xs : List PointOffset} (hxs : xs.Nodup) (ys : List PointOffset) :
    (xs ++ ys).dedup.Perm (xs ++ ys.dedup.filter (· ∉ xs)) := by
  refine (perm_ext_iff_of_nodup (nodup_dedup _) ?_).mpr ?_
  · refine nodup_append.mpr ⟨hxs, (nodup_dedup _).filter _, ?_⟩
    rintro a ha b hb rfl
    simp only [mem_filter, decide_eq_true_eq] at hb
    exact hb.2 ha
  · intro o
    simp only [mem_dedup, mem_append, mem_filter, decide_eq_true_eq]
    tauto

/-- No point scores above what `f` says of its offset, and some point of the offset scores that. -/
def Best (f : PointOffset → S) (l : List (ScoredPoint S)) : Prop :=
  ∀ c ∈ l, c.score ≤ f c.offset ∧ ∃ d ∈ l, d.offset = c.offset ∧ d.score = f c.offset

/-- A head of a ranking whose offsets are distinct is a selection, if it has `k` points or
nothing is behind it. -/
lemma isTop_head {kept later : List (ScoredPoint S)} (hbest : Best f (kept ++ later))
    (hkept : ∀ c ∈ kept, c.score = f c.offset) (hsorted : (kept ++ later).Pairwise (ByScore score))
    (hnodup : (kept.map offset).Nodup) (hk : kept.length = k ∨ later = [] ∧ kept.length ≤ k) :
    IsTop (ByScore f) k ((kept ++ later).map offset).dedup (kept.map offset) := by
  rw [pairwise_append] at hsorted
  rw [map_append]
  refine ⟨?_, _, dedup_append_perm hnodup _, ?_, ?_⟩
  · refine pairwise_map.mpr (hsorted.1.imp_of_mem fun ha hb h => ?_)
    rwa [ByScore, hkept _ ha, hkept _ hb] at h
  · intro x hx y hy
    obtain ⟨a, ha, rfl⟩ := mem_map.mp hx
    simp only [mem_filter, mem_dedup, decide_eq_true_eq] at hy
    obtain ⟨hy, hnew⟩ := hy
    obtain ⟨b, hb, rfl⟩ := mem_map.mp hy
    -- The best point of an offset that was not kept is behind the head as well.
    obtain ⟨d, hd, hoffset, hscore⟩ := (hbest b (mem_append_right _ hb)).2
    rcases mem_append.mp hd with hd | hd
    · exact absurd (hoffset ▸ mem_map_of_mem hd) hnew
    · rw [ByScore, ← hscore, ← hkept a ha]
      exact hsorted.2.2 a ha d hd
  · rw [length_map]
    rcases hk with hk | ⟨rfl, hk⟩
    · exact .inl hk
    · exact .inr ⟨rfl, hk⟩

/-- Walking down a ranking and dropping repeated offsets selects the best distinct ones, each with
its best score. **Proof sketch.** Everything kept outranks what is to come. So when the walk stops
early `k` offsets outrank the rest; otherwise nothing distinct is left. -/
lemma dedupLoop_isTop (merged out : List (ScoredPoint S)) (hbest : Best f (out ++ merged))
    (hout : ∀ c ∈ out, c.score = f c.offset) (hsorted : (out ++ merged).Pairwise (ByScore score))
    (hnodup : (out.map offset).Nodup) (hlen : out.length < k) :
    IsTop (ByScore f) k ((out ++ merged).map offset).dedup ((dedupLoop k merged out).map offset) ∧
    ∀ c ∈ dedupLoop k merged out, c.score = f c.offset := by
  induction merged generalizing out with
  | nil => exact ⟨isTop_head hbest hout hsorted hnodup (.inr ⟨rfl, hlen.le⟩), hout⟩
  | cons c merged ih =>
    rw [dedupLoop]
    split
    · next hseen =>
      -- A repeated offset: the distinct offsets are those without it.
      have hperm : ((out ++ merged).map offset).dedup.Perm
          ((out ++ c :: merged).map offset).dedup := by
        refine (perm_ext_iff_of_nodup (nodup_dedup _) (nodup_dedup _)).mpr ?_
        intro o
        have hc : o = c.offset → o ∈ out.map offset := fun h => h ▸ hseen
        simp only [mem_dedup, map_append, map_cons, mem_append, mem_cons]
        tauto
      have hsub : (out ++ merged).Sublist (out ++ c :: merged) :=
        (sublist_cons_self c merged).append_left out
      have hbest' : Best f (out ++ merged) := by
        intro x hx
        obtain ⟨hle, d, hd, hoffset, hscore⟩ := hbest x (hsub.subset hx)
        refine ⟨hle, ?_⟩
        rcases mem_append.mp hd with hd | hd
        · exact ⟨d, mem_append_left _ hd, hoffset, hscore⟩
        rcases mem_cons.mp hd with rfl | hd
        · obtain ⟨first, hfirst, heq⟩ := mem_map.mp hseen
          exact ⟨first, mem_append_left _ hfirst, heq.trans hoffset,
            by rw [hout first hfirst, heq, hoffset]⟩
        · exact ⟨d, mem_append_right _ hd, hoffset, hscore⟩
      obtain ⟨htop, hscores⟩ := ih out hbest' hout (hsorted.sublist hsub) hnodup hlen
      exact ⟨htop.perm hperm, hscores⟩
    · next hnew =>
      have hassoc : out ++ c :: merged = (out ++ [c]) ++ merged := by simp
      have hc : c.score = f c.offset := by
        obtain ⟨hle, d, hd, hoffset, hscore⟩ := hbest c (by simp)
        refine hle.antisymm (hscore ▸ ?_)
        rcases mem_append.mp hd with hd | hd
        · exact absurd (hoffset ▸ mem_map_of_mem hd) hnew
        rcases mem_cons.mp hd with rfl | hd
        · exact le_rfl
        · exact (pairwise_cons.mp (pairwise_append.mp hsorted).2.1).1 d hd
      have hout' : ∀ x ∈ out ++ [c], x.score = f x.offset := by
        intro x hx
        rcases mem_append.mp hx with hx | hx
        · exact hout x hx
        · exact mem_singleton.mp hx ▸ hc
      have hnodup' : ((out ++ [c]).map offset).Nodup := by
        rw [map_append, nodup_append]
        refine ⟨hnodup, by simp, ?_⟩
        rintro a ha b hb rfl
        simp only [map_cons, map_nil, mem_singleton] at hb
        exact hnew (hb ▸ ha)
      have hlen' : (out ++ [c]).length = out.length + 1 := by simp
      rw [hassoc] at hbest hsorted ⊢
      dsimp only
      split
      · next hfull => exact ⟨isTop_head hbest hout' hsorted hnodup' (.inl (by omega)), hout'⟩
      · next hmore => exact ih (out ++ [c]) hbest hout' hsorted hnodup' (by omega)

omit [LinearOrder S] in
/-- The walk keeps points in their order. -/
lemma dedupLoop_sublist (k : ℕ) (merged out : List (ScoredPoint S)) :
    (dedupLoop k merged out).Sublist (out ++ merged) := by
  induction merged generalizing out with
  | nil => simp [dedupLoop]
  | cons c merged ih =>
    have hassoc : out ++ c :: merged = (out ++ [c]) ++ merged := by simp
    rw [dedupLoop]
    split
    · exact (ih out).trans ((sublist_cons_self c merged).append_left out)
    · dsimp only
      rw [hassoc]
      split
      · exact sublist_append_left _ _
      · exact ih _

/-- What a merge position still has before it in its list. -/
def MergeItem.pending (lists : List (List (ScoredPoint S))) (item : MergeItem S) :
    List (ScoredPoint S) :=
  ((lists[item.list]?).getD []).drop item.idx

/-- A merge position inside its list, holding the score that is there. -/
def MergeItem.Ok (lists : List (List (ScoredPoint S))) (item : MergeItem S) : Prop :=
  ∃ c, item.point? lists = some c ∧ item.score = c.score

variable {lists : List (List (ScoredPoint S))} {item : MergeItem S}

section

omit [LinearOrder S]

/-- The pending points of a position: the one at it, then those from the next position on. -/
lemma MergeItem.pending_eq_cons {c : ScoredPoint S} (h : item.point? lists = some c) :
    item.pending lists = c :: MergeItem.pending lists ⟨c.score, item.list, item.idx + 1⟩ := by
  obtain ⟨list, hlist, hc⟩ := Option.bind_eq_some_iff.mp h
  obtain ⟨hlt, rfl⟩ := List.getElem?_eq_some_iff.mp hc
  simp only [pending, hlist, Option.getD_some]
  exact drop_eq_getElem_cons hlt

/-- Moving to an index of a list leaves what is behind it pending, also at the list's end. -/
lemma pending_mergeItemAt (lists : List (List (ScoredPoint S))) (s : S) (l i : ℕ) :
    (mergeItemAt lists l i).toList.flatMap (MergeItem.pending lists)
      = MergeItem.pending lists ⟨s, l, i⟩ := by
  cases h : (lists[l]?).bind (·[i]?) with
  | some c => simp [mergeItemAt, h, MergeItem.pending]
  | none =>
    cases hl : lists[l]? with
    | none => simp [mergeItemAt, hl, MergeItem.pending]
    | some list =>
      have hge : list.length ≤ i := by simpa [hl] using h
      simp [mergeItemAt, hl, hge, MergeItem.pending, drop_eq_nil_of_le hge]

/-- An item is what its list has there. -/
lemma ok_of_mergeItemAt {l i : ℕ} (h : mergeItemAt lists l i = some item) : item.Ok lists := by
  obtain ⟨c, hc, rfl⟩ := Option.map_eq_some_iff.mp h
  exact ⟨c, hc, rfl⟩

end

/-- In a ranked list everything pending is outranked by the position. -/
lemma MergeItem.Ok.outranks
    (h : item.Ok lists) (hranked : ∀ list ∈ lists, list.Pairwise (ByScore ScoredPoint.score)) :
    ∀ y ∈ item.pending lists, y.score ≤ item.score := by
  obtain ⟨c, hc, hscore⟩ := h
  intro y hy
  obtain ⟨list, hlist, -⟩ := Option.bind_eq_some_iff.mp hc
  have hsorted : (item.pending lists).Pairwise (ByScore ScoredPoint.score) := by
    simp only [pending, hlist, Option.getD_some]
    exact (hranked list (mem_of_getElem? hlist)).sublist (drop_sublist _ _)
  rw [pending_eq_cons hc] at hy hsorted
  rw [hscore]
  rcases mem_cons.mp hy with rfl | hy
  · exact le_rfl
  · exact (pairwise_cons.mp hsorted).1 y hy

section Heap

variable [OrderBot S]

/-- Points, best score first. -/
lemma rankLe_byScore_iff (a b : ScoredPoint S) :
    RankLe byScore a b ↔ ByScore score a b := rankLe_cmpScoreDesc_iff _ a b

/-- Items, best score first. -/
lemma itemByScore_rankLe_iff (a b : MergeItem S) :
    RankLe itemByScore a b ↔ b.score ≤ a.score := rankLe_cmpScoreDesc_iff _ a b

/-- Sorting points by their comparison is sorting them by score. -/
lemma sortBy_byScore (l : List (ScoredPoint S)) :
    sortBy byScore l = l.insertionSort (ByScore score) := by
  have hrel : RankLe (byScore (S := S)) = ByScore score := by
    funext a b
    exact propext (rankLe_byScore_iff a b)
  simp only [sortBy, hrel]

/-- The k-way loop walks down some ranking of what is pending. **Proof sketch.** A popped position
outranks the others, and each outranks what is pending behind it, so points come out best first. -/
lemma kwayLoop_eq_dedupLoop (heap : MaxHeap (RankLe (itemByScore (S := S))))
    {lists : List (List (ScoredPoint S))}
    (hranked : ∀ list ∈ lists, list.Pairwise (ByScore score)) (k fuel : ℕ)
    (items : List (MergeItem S)) (hok : ∀ item ∈ items, item.Ok lists)
    (hfuel : (items.flatMap (MergeItem.pending lists)).length < fuel) :
    ∃ merged, merged.Perm (items.flatMap (MergeItem.pending lists)) ∧
      merged.Pairwise (ByScore score) ∧
      ∀ out, kwayLoop heap lists k fuel items out = dedupLoop k merged out := by
  induction fuel generalizing items with
  | zero => omega
  | succ fuel ih =>
    cases hpop : heap.pop items with
    | none =>
      obtain rfl := heap.eq_nil_of_pop_eq_none hpop
      exact ⟨[], by simp, Pairwise.nil, fun out => by simp [kwayLoop, hpop, dedupLoop]⟩
    | some popped =>
      obtain ⟨item, rest⟩ := popped
      have hperm := heap.perm_of_pop hpop
      have hitem : item.Ok lists := hok item (hperm.mem_iff.mpr (by simp))
      obtain ⟨c, hc, hscore⟩ := hitem
      set items' := (mergeItemAt lists item.list (item.idx + 1)).toList ++ rest with hitems'
      -- The popped point and what is pending afterwards are what was pending before.
      have hpending : (items.flatMap (MergeItem.pending lists)).Perm
          (c :: items'.flatMap (MergeItem.pending lists)) := by
        refine (hperm.flatMap_right _).trans ?_
        rw [flatMap_cons, MergeItem.pending_eq_cons hc, hitems', flatMap_append,
          pending_mergeItemAt lists c.score]
        rfl
      have hok' : ∀ it ∈ items', it.Ok lists := by
        intro it hit
        rcases mem_append.mp hit with hit | hit
        · exact ok_of_mergeItemAt (Option.mem_toList.mp hit)
        · exact hok it (hperm.mem_iff.mpr (by simp [hit]))
      have hlen := hpending.length_eq
      rw [length_cons] at hlen
      obtain ⟨merged, hmerged, hsorted, hloop⟩ := ih items' hok' (by omega)
      refine ⟨c :: merged, (hmerged.cons c).trans hpending.symm, ?_, ?_⟩
      · refine pairwise_cons.mpr ⟨?_, hsorted⟩
        intro y hy
        obtain ⟨it, hit, hy⟩ := mem_flatMap.mp (hmerged.mem_iff.mp hy)
        rcases mem_append.mp hit with hit' | hit'
        · -- Behind the popped point in its own list.
          have hown : y ∈ item.pending lists := by
            rw [MergeItem.pending_eq_cons hc, ← pending_mergeItemAt]
            exact mem_cons_of_mem _ (mem_flatMap.mpr ⟨it, hit', hy⟩)
          have hle := MergeItem.Ok.outranks ⟨c, hc, hscore⟩ hranked y hown
          rwa [hscore] at hle
        · -- In another list, whose position the popped one outranks.
          have hle : it.score ≤ item.score :=
            (itemByScore_rankLe_iff item it).mp (heap.ranked_of_pop hpop it hit')
          exact ((hok' it hit).outranks hranked y hy).trans (hscore ▸ hle)
      · intro out
        simp only [kwayLoop, hpop, hc, dedupLoop, ← hitems', hloop]

/-- The first positions of all lists have every point pending. -/
lemma flatMap_pending_first (lists : List (List (ScoredPoint S))) :
    ((range lists.length).filterMap (mergeItemAt lists · 0)).flatMap
      (MergeItem.pending lists) = lists.flatten := by
  have hone : ∀ is : List ℕ, (is.filterMap (mergeItemAt lists · 0)).flatMap
      (MergeItem.pending lists) = (is.map fun i => (lists[i]?).getD []).flatten := by
    intro is
    induction is with
    | nil => rfl
    | cons i is ih =>
      have hfirst := pending_mergeItemAt lists ⊥ i 0
      simp only [MergeItem.pending, drop_zero] at hfirst
      rw [filterMap_cons, map_cons, flatten_cons, ← ih, ← hfirst]
      cases mergeItemAt lists i 0 <;> simp [MergeItem.pending]
  have hall : (range lists.length).map (fun i => (lists[i]?).getD []) = lists := by
    refine ext_getElem (by simp) ?_
    intro i h1 h2
    simp [getElem?_eq_getElem h2]
  rw [hone, hall]

/-- **The k-way merge of several lists walks down a ranking of all candidates.** -/
lemma kwayMergeTopk_eq_dedupLoop (heap : MaxHeap (RankLe (itemByScore (S := S))))
    {lists : List (List (ScoredPoint S))}
    (hranked : ∀ list ∈ lists, list.Pairwise (ByScore score)) {k : ℕ} (hk : 0 < k)
    (hmany : 2 ≤ lists.length) :
    ∃ merged, merged.Perm lists.flatten ∧ merged.Pairwise (ByScore score) ∧
      kwayMergeTopk heap lists k = dedupLoop k merged [] := by
  obtain ⟨l₁, l₂, rest, rfl⟩ : ∃ l₁ l₂ rest, lists = l₁ :: l₂ :: rest := by
    match lists, hmany with
    | l₁ :: l₂ :: rest, _ => exact ⟨l₁, l₂, rest, rfl⟩
    | [], h => simp at h
    | [_], h => simp at h
  have hfirst := flatMap_pending_first (l₁ :: l₂ :: rest)
  obtain ⟨merged, hperm, hsorted, hloop⟩ := kwayLoop_eq_dedupLoop heap hranked k
    ((l₁ :: l₂ :: rest).flatten.length + 1)
    ((range (l₁ :: l₂ :: rest).length).filterMap (mergeItemAt (l₁ :: l₂ :: rest) · 0))
    (by
      intro item hitem
      obtain ⟨i, -, hi⟩ := mem_filterMap.mp hitem
      exact ok_of_mergeItemAt hi)
    (by rw [hfirst]; omega)
  refine ⟨merged, hfirst ▸ hperm, hsorted, ?_⟩
  rw [kwayMergeTopk, if_neg (by simp; omega)]
  · exact hloop []
  · rintro list ⟨⟩

/-- The merge by sorting does so, too. -/
lemma mergeCandidates_eq_dedupLoop (lists : List (List (ScoredPoint S))) (k : ℕ) :
    ∃ merged, merged.Perm lists.flatten ∧ merged.Pairwise (ByScore score) ∧
      mergeCandidates lists k = dedupLoop k merged [] := by
  refine ⟨sortBy byScore lists.flatten, perm_insertionSort _ _, ?_, rfl⟩
  rw [sortBy_byScore]
  exact pairwise_insertionSort _ _

/-! ## The two merges -/

omit [LinearOrder S] [OrderBot S] in
/-- A walk down distinct offsets takes the first ones. -/
lemma dedupLoop_of_nodup (l out : List (ScoredPoint S))
    (hnodup : ((out ++ l).map offset).Nodup) (hlen : out.length < k) :
    dedupLoop k l out = (out ++ l).take k := by
  induction l generalizing out with
  | nil => simp [dedupLoop, take_of_length_le hlen.le]
  | cons c l ih =>
    have hnew : c.offset ∉ out.map offset := fun h => by
      rw [map_append] at hnodup
      exact (nodup_append.mp hnodup).2.2 _ h _ (by simp) rfl
    have hassoc : out ++ c :: l = (out ++ [c]) ++ l := by simp
    have hlen' : (out ++ [c]).length = out.length + 1 := by simp
    rw [dedupLoop, if_neg hnew, hassoc]
    dsimp only
    split
    · next hfull => rw [take_append_of_le_length hfull, take_of_length_le (by omega)]
    · next hmore => exact ih (out ++ [c]) (hassoc ▸ hnodup) (by omega)

/-- Every offset of a list has a best score. -/
lemma exists_best (l : List (ScoredPoint S)) : ∃ f, Best f l := by
  have hmax : ∀ o, ∃ x, ∀ c ∈ l, c.offset = o →
      c.score ≤ x ∧ ∃ d ∈ l, d.offset = o ∧ d.score = x := by
    intro o
    cases hd : (l.filter (·.offset = o)).argmax score with
    | none =>
      refine ⟨⊥, fun c hc ho => absurd (argmax_eq_none.mp hd) ?_⟩
      exact ne_nil_of_mem (mem_filter.mpr ⟨hc, by simpa using ho⟩)
    | some d =>
      have hmem := mem_filter.mp (argmax_mem hd)
      refine ⟨d.score, fun c hc ho => ⟨?_, d, hmem.1, by simpa using hmem.2, rfl⟩⟩
      exact le_of_mem_argmax (mem_filter.mpr ⟨hc, by simpa using ho⟩) hd
  choose f hf using hmax
  exact ⟨f, fun c hc => hf c.offset c hc rfl⟩

/-- **The two merges agree** on lists that are ranked and have distinct offsets each: they return
the same scores, of `k` distinct offsets that are the best ones by their best scores. **Proof
sketch.** Both walk down a ranking of all points and keep the first, best point of each offset
(`dedupLoop_isTop`). The scores of such a choice are determined. -/
theorem kwayMergeTopk_agrees (heap : MaxHeap (RankLe (itemByScore (S := S))))
    (lists : List (List (ScoredPoint S)))
    (hranked : ∀ list ∈ lists, list.Pairwise (ByScore score))
    (hnodup : ∀ list ∈ lists, (list.map offset).Nodup) (k : ℕ) (hk : 1 ≤ k) :
    (kwayMergeTopk heap lists k).map score = (mergeCandidates lists k).map score ∧
    ∃ f, Best f lists.flatten ∧ ∀ out ∈ [kwayMergeTopk heap lists k, mergeCandidates lists k],
      (out.map offset).Nodup ∧ IsTop (ByScore f) k (lists.flatten.map offset).dedup
        (out.map offset) ∧ ∀ c ∈ out, c ∈ lists.flatten ∧ c.score = f c.offset := by
  have hwalks : ∀ out ∈ [kwayMergeTopk heap lists k, mergeCandidates lists k], ∃ merged,
      merged.Perm lists.flatten ∧ merged.Pairwise (ByScore score) ∧
      out = dedupLoop k merged [] := by
    simp only [forall_mem_cons, not_mem_nil, false_implies, implies_true, and_true]
    refine ⟨?_, mergeCandidates_eq_dedupLoop lists k⟩
    match lists, hranked, hnodup with
    | [], _, _ => exact ⟨[], .refl _, .nil, by simp [kwayMergeTopk, dedupLoop]⟩
    | [list], hranked, hnodup =>
      refine ⟨list, by simp, hranked list (by simp), ?_⟩
      rw [dedupLoop_of_nodup list [] (hnodup list (by simp)) hk]
      simp [kwayMergeTopk, Nat.ne_of_gt hk]
    | _ :: _ :: _, hranked, _ => exact kwayMergeTopk_eq_dedupLoop heap hranked hk (by simp)
  obtain ⟨f, hf⟩ := exists_best lists.flatten
  have hbest : ∀ out ∈ [kwayMergeTopk heap lists k, mergeCandidates lists k],
      IsTop (ByScore f) k (lists.flatten.map offset).dedup
        (out.map offset) ∧ ∀ c ∈ out, c ∈ lists.flatten ∧ c.score = f c.offset := by
    intro out hout
    obtain ⟨merged, hperm, hsorted, rfl⟩ := hwalks out hout
    have hf' : Best f merged := fun c hc => by
      simpa [hperm.mem_iff] using hf c (hperm.mem_iff.mp hc)
    obtain ⟨htop, hscores⟩ := dedupLoop_isTop merged [] hf' (by simp) hsorted (by simp) hk
    refine ⟨htop.perm (hperm.map offset).dedup, fun c hc => ⟨?_, hscores c hc⟩⟩
    exact hperm.mem_iff.mp ((dedupLoop_sublist k merged []).subset hc)
  refine ⟨?_, f, hf, fun out hout => ⟨(hbest out hout).1.nodup (nodup_dedup _), hbest out hout⟩⟩
  -- The scores are those that `f` gives the offsets, and so the best of all of them.
  have hscores : ∀ out ∈ [kwayMergeTopk heap lists k, mergeCandidates lists k],
      IsTop (ByScore id) k ((lists.flatten.map offset).dedup.map f)
        (out.map score) := by
    intro out hout
    have hmap : out.map score = (out.map offset).map f := by
      rw [map_map]
      exact map_congr_left fun c hc => ((hbest out hout).2 c hc).2
    exact hmap ▸ (hbest out hout).1.map f fun _ _ _ _ h => h
  exact (hscores _ (by simp)).unique (hscores _ (by simp))

instance : Std.TransCmp (itemByScore (S := S)) :=
  inferInstanceAs (Std.TransCmp fun a b => compareOn MergeItem.score b a)

end Heap

/-- Two lists with an offset in common, under different scores. -/
theorem kwayMergeTopk_agrees_two : let lists : List (List (ScoredPoint ℕ)) :=
      [[⟨0, 3, .hot⟩, ⟨1, 2, .hot⟩], [⟨1, 4, .warm⟩, ⟨2, 1, .warm⟩]]
    let heap := MaxHeap.ofSort (RankLe (itemByScore))
    (kwayMergeTopk heap lists 2).map score = (mergeCandidates lists 2).map score ∧
    (mergeCandidates lists 2).map (fun c => (c.offset, c.score)) = [(1, 4), (0, 3)] :=
  ⟨(kwayMergeTopk_agrees _ _ (by decide) (by decide) 2 (by decide)).1, by decide⟩

end LinearOrder

end TurboMemory
