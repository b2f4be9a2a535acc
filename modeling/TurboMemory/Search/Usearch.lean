import TurboMemory.Lib.Loops
import TurboMemory.Search.Segments

/-!
# The filtered search of an indexed segment

An indexed segment asks a native index for the nearest entries and drops those that a filter does
not admit. If too few are left it asks for twice as many, in four rounds at most; a selective
filter is answered by an exact scan. Products do not saturate. The native index is a function; that
it returns the nearest entries of one ranking is an assumption of the results.

## Main results

* `UsearchIndex.search_keeps_iff` — when the rounds return what they found.
-/

set_option autoImplicit false

namespace TurboMemory

open List

variable {S : Type}

/-- The native index and what is kept beside it. -/
structure UsearchIndex (S : Type) where
  dim : ℕ
  searchListSize : ℕ
  offsets : List PointOffset
  /-- The native search: a number of entries with their scores. -/
  index : Embedding → ℕ → Except StorageError (List (PointOffset × S))

/-- A scan of given offsets; the vectors have a dimension of their own. -/
def exactSearchOverOffsets [Score S] (V : Vectors S) (dim : ℕ) (query : Embedding) (topK : ℕ)
    (offsets : List PointOffset) : Except StorageError (List (ScoredPoint S)) :=
  (validateDimension .core query dim).map fun _ =>
    (sortBy byScore (scoreOffsets V query .hot offsets)).take topK

namespace UsearchIndex

/-- An entry of the native index as a point. -/
def point (p : PointOffset × S) : ScoredPoint S := ⟨p.1, p.2, .hot⟩

variable (idx : UsearchIndex S)

/-- Ask the native index, for no more than it holds. -/
def searchUnfiltered (query : Embedding) (topK : ℕ) :
    Except StorageError (List (ScoredPoint S)) :=
  let topK := min topK idx.offsets.length
  if topK = 0 then .ok [] else (idx.index query topK).map (map point)

/-- Collect admitted candidates until there are enough; tells whether there are. -/
def collect (allowed : Option Bitmap) (topK : ℕ) :
    List (ScoredPoint S) → List (ScoredPoint S) → Bool × List (ScoredPoint S) :=
  Loop.scan fun candidate results =>
    if admits allowed candidate.offset then (topK ≤ results.length + 1, results ++ [candidate])
    else (false, results)

/-- The rounds. After the last one nothing is returned. -/
def searchLoop (idx : UsearchIndex S) (query : Embedding) (allowed : Option Bitmap)
    (topK maxFetch : ℕ) : ℕ → ℕ → Except StorageError (List (ScoredPoint S))
  | 0, _ => .ok []
  | rounds + 1, fetchK => do
    let candidates ← idx.searchUnfiltered query fetchK
    let (full, results) := collect allowed topK candidates []
    if full ∨ maxFetch ≤ fetchK ∨ allowed = none then .ok results
    else searchLoop idx query allowed topK maxFetch rounds (min (2 * fetchK) maxFetch)

/-- The offsets of the segment that a filter admits. -/
def allowedInSegment (bitmap : Bitmap) : List PointOffset :=
  idx.offsets.filter (admits (some bitmap))

/-- The largest number of entries to ask for. -/
def maxFetch (topK : ℕ) : Option Bitmap → ℕ
  | some bitmap => min (max (idx.allowedInSegment bitmap).length topK) (topK * 16)
  | none => topK * 16

/-- The search of an indexed segment. -/
def search [Score S] (V : Vectors S) (dim : ℕ) (idx : UsearchIndex S) (query : Embedding)
    (topK : ℕ) (allowed : Option Bitmap) : Except StorageError (List (ScoredPoint S)) := do
  validateDimension .core query idx.dim
  match allowed.map idx.allowedInSegment with
  | some offsets =>
    if offsets.length ≤ max idx.searchListSize 100 then
      exactSearchOverOffsets V dim query topK offsets
    else idx.searchLoop query allowed topK (idx.maxFetch topK allowed) 4 topK
  | none => idx.searchLoop query allowed topK (idx.maxFetch topK allowed) 4 topK

/-! ## What the rounds return -/

variable {allowed : Option Bitmap} {topK : ℕ}

/-- Collecting stops at `topK` admitted entries. -/
lemma collect_append (l acc : List (ScoredPoint S)) (hacc : acc.length < topK) :
    collect allowed topK l acc =
      (decide (topK ≤ (acc ++ l.filter fun p => admits allowed p.offset).length),
        (acc ++ l.filter fun p => admits allowed p.offset).take topK) := by
  induction l generalizing acc with
  | nil =>
    rw [filter_nil, append_nil, take_of_length_le hacc.le]
    simp [collect, Loop.scan, hacc]
  | cons c l ih =>
    unfold collect at ih ⊢
    rw [Loop.scan]
    by_cases hc : admits allowed c.offset = true
    · have hfilter : acc ++ (c :: l).filter (fun p => admits allowed p.offset) =
          acc ++ [c] ++ l.filter fun p => admits allowed p.offset := by
        rw [filter_cons, if_pos hc, append_cons]
      rw [hfilter]
      by_cases hfull : topK ≤ acc.length + 1
      · obtain rfl : topK = (acc ++ [c]).length := by simp; omega
        rw [take_left]
        simp [hc]
      · simpa [hc, hfull] using ih (acc ++ [c]) (by simp; omega)
    · simpa [hc] using ih acc hacc

section Rounds

variable {idx : UsearchIndex S} {query : Embedding} {ranking : List (PointOffset × S)}

/-- The entries among the first ones of a ranking that are admitted. -/
def admitted (allowed : Option Bitmap) (ranking : List (PointOffset × S)) (width : ℕ) :
    List (ScoredPoint S) :=
  ((ranking.take width).map point).filter fun p => admits allowed p.offset

/-- A wider round admits no fewer. -/
lemma length_admitted_mono {v w : ℕ} (h : v ≤ w) :
    (admitted allowed ranking v).length ≤ (admitted allowed ranking w).length :=
  (((take_prefix_take_left h).sublist.map point).filter _).length_le

/-- What a search found is kept: the answer has the first admitted entries of some round, which is
as wide as it may be or holds enough of them. -/
def Kept (ranking : List (PointOffset × S)) (bitmap : Bitmap) (topK maxFetch : ℕ)
    (answer : Except StorageError (List (ScoredPoint S))) : Prop :=
  ∃ i < 4, answer = .ok ((admitted (some bitmap) ranking (min (2 ^ i * topK) maxFetch)).take topK) ∧
    (min maxFetch ranking.length ≤ 2 ^ i * topK ∨
      topK ≤ (admitted (some bitmap) ranking (min (2 ^ i * topK) maxFetch)).length)

variable (hindex : ∀ k, idx.index query k = .ok (ranking.take k))
  (hsize : ranking.length = idx.offsets.length) (htop : 0 < topK)
include hindex hsize

/-- A round has the head of the ranking. -/
lemma searchUnfiltered_eq (width : ℕ) :
    idx.searchUnfiltered query width = .ok ((ranking.take width).map point) := by
  rw [searchUnfiltered, hindex, ← hsize]
  have htake : ranking.take (min width ranking.length) = ranking.take width :=
    take_eq_take_iff.mpr (by simp)
  split
  · next hzero => rw [← htake, hzero, take_zero, map_nil]
  · rw [htake]
    rfl

include htop
variable {bitmap : Bitmap} {maxFetch : ℕ}

/-- A round returns, or the next one is wider. -/
lemma searchLoop_succ (rounds width : ℕ) :
    idx.searchLoop query (some bitmap) topK maxFetch (rounds + 1) width =
      if topK ≤ (admitted (some bitmap) ranking width).length ∨ maxFetch ≤ width then
        .ok ((admitted (some bitmap) ranking width).take topK)
      else idx.searchLoop query (some bitmap) topK maxFetch rounds (min (2 * width) maxFetch) := by
  rw [searchLoop, searchUnfiltered_eq hindex hsize]
  simp [bind, Except.bind, collect_append _ [] htop, admitted]

/-- **The rounds.** If the last one is wide enough, or finds enough, the results are those of a
round after which nothing is missing. -/
lemma searchLoop_eq (rounds width : ℕ) (hwidth : width ≤ maxFetch)
    (henough : maxFetch ≤ 2 ^ rounds * width ∨
      topK ≤ (admitted (some bitmap) ranking (2 ^ rounds * width)).length) :
    ∃ i ≤ rounds, idx.searchLoop query (some bitmap) topK maxFetch (rounds + 1) width =
        .ok ((admitted (some bitmap) ranking (min (2 ^ i * width) maxFetch)).take topK) ∧
      (maxFetch ≤ 2 ^ i * width ∨
        topK ≤ (admitted (some bitmap) ranking (min (2 ^ i * width) maxFetch)).length) := by
  induction rounds generalizing width with
  | zero =>
    refine ⟨0, le_rfl, ?_⟩
    rw [searchLoop_succ hindex hsize htop]
    simp only [pow_zero, one_mul, min_eq_left hwidth] at henough ⊢
    rw [if_pos henough.symm]
    exact ⟨rfl, henough⟩
  | succ rounds ih =>
    by_cases hstop : topK ≤ (admitted (some bitmap) ranking width).length ∨ maxFetch ≤ width
    · refine ⟨0, Nat.zero_le _, ?_⟩
      rw [searchLoop_succ hindex hsize htop, if_pos hstop]
      simp only [pow_zero, one_mul, min_eq_left hwidth]
      exact ⟨trivial, hstop.symm⟩
    · have hdouble : 2 ^ (rounds + 1) * width = 2 ^ rounds * (2 * width) := by
        rw [pow_succ, mul_assoc]
      have hnext : maxFetch ≤ 2 ^ rounds * min (2 * width) maxFetch ∨
          topK ≤
            (admitted (some bitmap) ranking (2 ^ rounds * min (2 * width) maxFetch)).length := by
        rcases le_total (2 * width) maxFetch with hle | hle
        · rwa [min_eq_left hle, ← hdouble]
        · rw [min_eq_right hle]
          exact .inl (Nat.le_mul_of_pos_left _ (by positivity))
      obtain ⟨i, hi, hloop, hend⟩ := ih _ (min_le_right _ _) hnext
      have hsame : min (2 ^ i * min (2 * width) maxFetch) maxFetch =
          min (2 ^ (i + 1) * width) maxFetch := by
        rw [pow_succ, mul_assoc, ← Nat.mul_min_mul_left, min_assoc,
          min_eq_right (Nat.le_mul_of_pos_left _ (by positivity))]
      rw [hsame] at hloop hend
      refine ⟨i + 1, Nat.succ_le_succ hi, ?_, hend.imp_left fun hle => hle.trans ?_⟩
      · rw [searchLoop_succ hindex hsize htop, if_neg hstop, hloop]
      · rw [pow_succ, mul_assoc]
        exact Nat.mul_le_mul_left _ (min_le_left _ _)

omit hindex hsize htop in
/-- The rounds ask for what is needed just if eight times the number of results is. -/
lemma maxFetch_le_iff (htop : 0 < topK) (bitmap : Bitmap) :
    idx.maxFetch topK (some bitmap) ≤ 8 * topK ↔
      (idx.allowedInSegment bitmap).length ≤ 8 * topK := by
  rw [maxFetch]
  omega

/-- **A filtered search keeps what it found** just if eight times as many entries as results are
wanted hold enough admitted ones or are as many as the filter admits. **Proof sketch.** The fourth
round is eight times as wide as the first. -/
theorem search_keeps_iff [Score S] (V : Vectors S) (dim : ℕ) (hquery : query.length = idx.dim)
    (happroximate : max idx.searchListSize 100 < (idx.allowedInSegment bitmap).length) :
    Kept ranking bitmap topK (idx.maxFetch topK (some bitmap))
        (idx.search V dim query topK (some bitmap)) ↔
    (idx.allowedInSegment bitmap).length ≤ 8 * topK ∨
      topK ≤ (admitted (some bitmap) ranking (8 * topK)).length := by
  have hsearch : idx.search V dim query topK (some bitmap) =
      idx.searchLoop query (some bitmap) topK (idx.maxFetch topK (some bitmap)) 4 topK := by
    simp [search, validateDimension, hquery, bind, Except.bind, not_le.mpr happroximate]
  have hall : (idx.allowedInSegment bitmap).length ≤ ranking.length :=
    (length_filter_le _ _).trans hsize.ge
  rw [hsearch]
  constructor
  · rintro ⟨i, hi, -, hwide | hfound⟩
    · have hpow : 2 ^ i * topK ≤ 8 * topK :=
        Nat.mul_le_mul_right _ (Nat.pow_le_pow_right (by decide) (Nat.le_of_lt_succ hi))
      refine .inl ((maxFetch_le_iff htop bitmap).mp ?_)
      have hmax : idx.maxFetch topK (some bitmap) ≤ max (idx.allowedInSegment bitmap).length topK :=
        min_le_left _ _
      omega
    · refine .inr (hfound.trans (length_admitted_mono ((min_le_left _ _).trans ?_)))
      exact Nat.mul_le_mul_right _ (Nat.pow_le_pow_right (by decide) (Nat.le_of_lt_succ hi))
  · intro h
    have hle : topK ≤ idx.maxFetch topK (some bitmap) := by
      rw [maxFetch]
      omega
    obtain ⟨i, hi, hloop, hend⟩ := searchLoop_eq hindex hsize htop 3 topK hle
      (h.imp_left (maxFetch_le_iff htop bitmap).mpr)
    exact ⟨i, Nat.lt_succ_of_le hi, hloop, hend.imp_left (min_le_left _ _).trans⟩

end Rounds

/-- Offsets in the order of the native index. -/
def sampleRanking : List (PointOffset × ℕ) := (range 120).map fun o => (o, 120 - o)

/-- An index of them. -/
def sampleIndex : UsearchIndex ℕ where
  dim := 1
  searchListSize := 16
  offsets := range 120
  index _ k := .ok (sampleRanking.take k)

/-- A filter that admits one of the first sixteen entries, and all that come after them. -/
def sampleFilter : Bitmap := ((range 120).drop 15).toFinset

/-- Twenty results under a broad filter. -/
theorem search_keeps_twenty : (sampleIndex.allowedInSegment sampleFilter).length ≤ 8 * 20 ∧
    Kept sampleRanking sampleFilter 20 (sampleIndex.maxFetch 20 (some sampleFilter))
      (sampleIndex.search ⟨fun _ => none, fun _ _ => 0⟩ 1 [⟨0⟩] 20 (some sampleFilter)) := by
  have hfew : (sampleIndex.allowedInSegment sampleFilter).length ≤ 8 * 20 := by decide +kernel
  exact ⟨hfew, (search_keeps_iff (fun _ => rfl) (by decide +kernel) (by decide) _ _ rfl
    (by decide +kernel)).mpr (.inl hfew)⟩

/-- **A result that is dropped.** Two results are wanted, and the last round finds one. -/
theorem found_entry_dropped :
    sampleIndex.search ⟨fun _ => none, fun _ _ => 0⟩ 1 [⟨0⟩] 2 (some sampleFilter) = .ok [] ∧
    (admitted (some sampleFilter) sampleRanking (2 ^ 3 * 2)).length = 1 := by
  decide +kernel

end UsearchIndex

end TurboMemory
