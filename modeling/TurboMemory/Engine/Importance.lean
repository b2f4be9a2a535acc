import Mathlib
import TurboMemory.Engine.Gists

/-!
# Automatic importance scoring

A consolidation moves the importance of every record a part of the way towards a target between a
floor and a ceiling. The target grows with how often and how recently the record was retrieved,
and with its number of concepts, both relative to the largest value in the store. The bonus for
concepts is halved, but not taken away, for a record that was never retrieved. The arithmetic is
exact, over any ordered field; `2 ^ (-age / half_life)` is a parameter.

## Main results

* `getElem?_recomputeImportance` — the pass moves every record by itself.
* `AutoScoring.within_moved` — an importance that is written lies between the floor and the ceiling.
* `importance_never_raised_iff` — when no record that was never retrieved gains importance.
-/

set_option autoImplicit false

namespace TurboMemory

open Std (ExtTreeMap)

variable {K : Type}

/-- What scoring reads of a record. -/
structure Rated (K : Type) where
  id : String
  importance : K
  concepts : List String
  accessCount : ℕ
  lastAccessed : ℕ

/-- The settings of automatic scoring. -/
structure AutoScoring (K : Type) where
  importanceAutoScoring : Bool
  importanceLearningRate : K
  importanceAccessWeight : K
  importanceFloor : K
  importanceCeiling : K
  recencyHalfLifeSecs : ℕ

/-- The state of the pass: the records, the calls to `reweight_memory` and the count it returns. -/
structure Scoring (K : Type) where
  records : ExtTreeMap PointOffset (Rated K)
  reweighted : List (String × K) := []
  changed : ℕ := 0

/-- A record with the accesses counted since the last drain. -/
def Rated.withAccesses (r : Rated K) (pending : Option (ℕ × ℕ)) : Rated K :=
  { r with
    accessCount := (Engine.addAccesses pending r.accessCount r.lastAccessed).1
    lastAccessed := (Engine.addAccesses pending r.accessCount r.lastAccessed).2 }

/-- Make the access counts current. -/
def drainAccesses (counters : ExtTreeMap PointOffset (ℕ × ℕ))
    (records : ExtTreeMap PointOffset (Rated K)) : ExtTreeMap PointOffset (Rated K) :=
  records.map fun offset r => r.withAccesses counters[offset]?

/-- What scoring reads of a stored record, given the numbers that floats stand for. -/
def MetaRecord.rated (value : F32 → K) (r : MetaRecord) : Rated K :=
  ⟨r.id, value r.importance, r.concepts, r.accessCount, r.lastAccessed⟩

/-- The drain of the store, as scoring sees it. -/
lemma drainAccesses_rated (value : F32 → K) (e : Engine) :
    drainAccesses e.accessCounters (e.metadata.records.map fun _ => MetaRecord.rated value) =
      e.drain.metadata.records.map fun _ => MetaRecord.rated value := by
  refine ExtTreeMap.ext_getElem? fun o => ?_
  rw [drainAccesses]
  simp only [ExtTreeMap.getElem?_map, e.getElem?_drain, Grouping.lookup_toList, Option.map_map]
  rfl

/-- The largest number of concepts of a record. -/
def maxDegree (records : ExtTreeMap PointOffset (Rated K)) : ℕ :=
  (records.toList.map fun p => p.2.concepts.length).foldl max 0

section Clamp

variable [LinearOrder K]

/-- `x.clamp(lo, hi)`. -/
def clampTo (lo hi x : K) : K := max lo (min x hi)

/-- Within the bounds nothing changes. -/
lemma clampTo_of_mem {lo hi x : K} (hlo : lo ≤ x) (hhi : x ≤ hi) : clampTo lo hi x = x := by
  rw [clampTo, min_eq_left hhi, max_eq_right hlo]

/-- The lower bound. -/
lemma le_clampTo (lo hi x : K) : lo ≤ clampTo lo hi x := le_max_left _ _

/-- The upper bound. -/
lemma clampTo_le {lo hi : K} (h : lo ≤ hi) (x : K) : clampTo lo hi x ≤ hi :=
  max_le h (min_le_right _ _)

end Clamp

variable [Field K] [LinearOrder K]

variable (recency : (age halfLife : ℕ) → K)

/-- Recency-weighted salience: `access_count * 2^(-age / half_life)`. -/
def Rated.accessScore (r : Rated K) (now halfLife : ℕ) : K :=
  r.accessCount * recency (max (now - r.lastAccessed) 1) halfLife

/-- The largest salience of a record. -/
def maxSalience (now halfLife : ℕ) (records : ExtTreeMap PointOffset (Rated K)) : K :=
  (records.toList.map fun p => p.2.accessScore recency now halfLife).foldl max 0

/-- A change of at most `1e-4` is not written. -/
def scoreEpsilon : K := 1 / 10000

/-- A share of the largest value. -/
def shareOf (x most : K) : K := if 0 < most then x / most else 0

namespace AutoScoring

variable (c : AutoScoring K)

/-- How far one pass moves. -/
def rate : K := clampTo 0 1 c.importanceLearningRate

/-- The weight of accesses. -/
def accessWeight : K := clampTo 0 1 c.importanceAccessWeight

/-- The upper bound. -/
def ceiling : K := max c.importanceCeiling c.importanceFloor

/-- The importance a record is headed for, by its shares of salience and concepts. -/
def target (sal deg : K) : K :=
  let connectivityBonus := (1 - c.accessWeight) * deg * (1 / 2 + 1 / 2 * sal)
  let blend := clampTo 0 1 (c.accessWeight * sal + connectivityBonus)
  c.importanceFloor + (c.ceiling - c.importanceFloor) * blend

/-- Part of the way towards the target. -/
def moved (target importance : K) : K :=
  clampTo c.importanceFloor c.ceiling (importance + c.rate * (target - importance))

/-- Where the pass moves the importance of a record. -/
def newImportance (mostSalience : K) (mostConcepts : ℕ) (salience : K) (r : Rated K) : K :=
  c.moved (c.target (shareOf salience mostSalience) (shareOf r.concepts.length mostConcepts))
    r.importance

/-- Score one record. -/
def rescore (newImportance : Rated K → K) (s : Scoring K) (cand : PointOffset × Rated K) :
    Scoring K :=
  let importance := newImportance cand.2
  if |importance - cand.2.importance| ≤ scoreEpsilon then s
  else
    { records := match s.records[cand.1]? with
        | none => s.records
        | some r => s.records.insert cand.1 { r with importance }
      reweighted := s.reweighted ++ [(cand.2.id, importance)]
      changed := s.changed + 1 }

end AutoScoring

/-- Move the importance of every record towards its target. -/
def recomputeImportance (c : AutoScoring K) (now : ℕ)
    (counters : ExtTreeMap PointOffset (ℕ × ℕ))
    (records : ExtTreeMap PointOffset (Rated K)) : Scoring K :=
  if !c.importanceAutoScoring then { records }
  else
    let records := drainAccesses counters records
    let halfLife := max c.recencyHalfLifeSecs 1
    let mostSalience := maxSalience recency now halfLife records
    let mostConcepts := maxDegree records
    records.toList.foldl (AutoScoring.rescore fun r =>
      c.newImportance mostSalience mostConcepts (r.accessScore recency now halfLife) r) { records }

/-! ## Each record by itself -/

/-- A record after the pass. -/
def Rated.rescored (newImportance : Rated K → K) (r : Rated K) : Rated K :=
  if |newImportance r - r.importance| ≤ scoreEpsilon then r
  else { r with importance := newImportance r }

/-- The loop changes the records it goes through, each once. -/
lemma getElem?_foldl_rescore (new : Rated K → K) (cands : List (PointOffset × Rated K))
    (hnodup : (cands.map Prod.fst).Nodup) (s : Scoring K)
    (hcur : ∀ p ∈ cands, s.records[p.1]? = some p.2) (o : PointOffset) :
    (cands.foldl (AutoScoring.rescore new) s).records[o]? =
      if o ∈ cands.map Prod.fst then s.records[o]?.map (Rated.rescored new) else s.records[o]? := by
  induction cands generalizing s with
  | nil => simp
  | cons cand cands ih =>
    rw [List.map_cons, List.nodup_cons] at hnodup
    have hcand := hcur cand List.mem_cons_self
    have hone : ∀ o, (AutoScoring.rescore new s cand).records[o]? =
        if cand.1 = o then s.records[o]?.map (Rated.rescored new) else s.records[o]? := by
      intro o
      unfold AutoScoring.rescore Rated.rescored
      by_cases ho : cand.1 = o
      · subst ho
        by_cases hsmall : |new cand.2 - cand.2.importance| ≤ scoreEpsilon <;> simp [hcand, hsmall]
      · by_cases hsmall : |new cand.2 - cand.2.importance| ≤ scoreEpsilon <;>
          simp [hcand, hsmall, ho, ExtTreeMap.getElem?_insert]
    have hlater : ∀ p ∈ cands, cand.1 ≠ p.1 := fun p hp heq =>
      hnodup.1 (heq ▸ List.mem_map_of_mem hp)
    rw [List.foldl_cons, ih hnodup.2 _ fun p hp => by
      rw [hone, if_neg (hlater p hp), hcur p (List.mem_cons_of_mem _ hp)]]
    by_cases ho : cand.1 = o
    · subst ho
      simp [hone, hnodup.1]
    · have hmem : o ∈ (cand :: cands).map Prod.fst ↔ o ∈ cands.map Prod.fst := by
        simp [Ne.symm ho]
      simp only [hone, if_neg ho, hmem]

/-- The pass moves every record by itself, once the access counts are current. -/
lemma getElem?_recomputeImportance {c : AutoScoring K}
    (hon : c.importanceAutoScoring = true) (now : ℕ) (counters : ExtTreeMap PointOffset (ℕ × ℕ))
    (records : ExtTreeMap PointOffset (Rated K)) (o : PointOffset) :
    (recomputeImportance recency c now counters records).records[o]? =
      (records[o]?.map (Rated.withAccesses · counters[o]?)).map (Rated.rescored fun r =>
        c.newImportance
          (maxSalience recency now (max c.recencyHalfLifeSecs 1) (drainAccesses counters records))
          (maxDegree (drainAccesses counters records))
          (r.accessScore recency now (max c.recencyHalfLifeSecs 1)) r) := by
  simp only [recomputeImportance, hon, Bool.not_true, Bool.false_eq_true, if_false]
  have hdrained : (drainAccesses counters records)[o]? =
      records[o]?.map (Rated.withAccesses · counters[o]?) := ExtTreeMap.getElem?_map
  rw [getElem?_foldl_rescore _ _ (Grouping.nodup_toList_keys _) _ fun p hp =>
    ExtTreeMap.mem_toList_iff_getElem?_eq_some.mp hp, ← hdrained]
  split
  · rfl
  · next hnot =>
    cases hr : (drainAccesses counters records)[o]? with
    | none => rfl
    | some r =>
      exact absurd (List.mem_map_of_mem (ExtTreeMap.mem_toList_iff_getElem?_eq_some.mpr hr))
        hnot

section

omit [Field K] [LinearOrder K]

/-- Accesses leave concepts and importance alone. -/
@[simp]
lemma withAccesses_eq (r : Rated K) (pending : Option (ℕ × ℕ)) :
    (r.withAccesses pending).concepts = r.concepts ∧
      (r.withAccesses pending).importance = r.importance :=
  ⟨rfl, rfl⟩

end

variable {r : Rated K}

omit [Field K] [LinearOrder K] in
/-- The largest number of concepts is a bound. -/
lemma le_maxDegree {records : ExtTreeMap PointOffset (Rated K)} {o : PointOffset}
    (hr : records[o]? = some r) : r.concepts.length ≤ maxDegree records := by
  have hmem := ExtTreeMap.mem_toList_iff_getElem?_eq_some.mpr hr
  rw [maxDegree, List.foldl_eq_foldr]
  exact List.le_max_of_le (List.mem_map_of_mem hmem) le_rfl

/-! ## A record that was never retrieved -/

section Exact

namespace AutoScoring

variable (c : AutoScoring K)

/-- What is written lies between the floor and the ceiling. -/
lemma within_moved (target importance : K) :
    c.importanceFloor ≤ c.moved target importance ∧ c.moved target importance ≤ c.ceiling :=
  ⟨le_clampTo _ _ _, clampTo_le (le_max_right _ _) _⟩

/-- The target of a record that was never retrieved, by its share of concepts. -/
def restingTarget (deg : K) : K :=
  c.importanceFloor +
    (c.importanceCeiling - c.importanceFloor) * ((1 - c.importanceAccessWeight) * deg / 2)

variable {c} [IsStrictOrderedRing K]

section

variable (hweight : 0 ≤ c.importanceAccessWeight ∧ c.importanceAccessWeight ≤ 1)
include hweight

/-- The share of the concepts is in the unit interval. -/
lemma share_mem_unit {deg : K} (hdeg : 0 ≤ deg ∧ deg ≤ 1) :
    0 ≤ (1 - c.importanceAccessWeight) * deg / 2 ∧
      (1 - c.importanceAccessWeight) * deg / 2 ≤ 1 := by
  have hpos := mul_nonneg (sub_nonneg.mpr hweight.2) hdeg.1
  have hle := mul_nonneg (sub_nonneg.mpr hweight.2) (sub_nonneg.mpr hdeg.2)
  constructor <;> linarith [hweight.1]

section

variable (hband : c.importanceFloor ≤ c.importanceCeiling)
include hband

/-- The target without a retrieval. -/
lemma target_zero {deg : K} (hdeg : 0 ≤ deg ∧ deg ≤ 1) :
    c.target 0 deg = c.restingTarget deg := by
  have hw : c.accessWeight = c.importanceAccessWeight := clampTo_of_mem hweight.1 hweight.2
  have hc : c.ceiling = c.importanceCeiling := max_eq_left hband
  obtain ⟨hpos, hone⟩ := share_mem_unit hweight hdeg
  simp only [target, restingTarget, hw, hc, mul_zero, zero_add, add_zero, mul_one_div,
    clampTo_of_mem hpos hone]

/-- The resting target lies in the band. -/
lemma within_restingTarget {deg : K} (hdeg : 0 ≤ deg ∧ deg ≤ 1) :
    c.importanceFloor ≤ c.restingTarget deg ∧ c.restingTarget deg ≤ c.importanceCeiling := by
  have hwidth : 0 ≤ c.importanceCeiling - c.importanceFloor := sub_nonneg.mpr hband
  obtain ⟨hpos, hone⟩ := share_mem_unit hweight hdeg
  unfold restingTarget
  constructor
  · nlinarith [mul_nonneg hwidth hpos]
  · nlinarith [mul_nonneg hwidth (sub_nonneg.mpr hone)]

end

end

/-- Inside the band the step is not cut off. -/
lemma moved_of_mem (hband : c.importanceFloor ≤ c.importanceCeiling) {target i : K}
    (htarget : c.importanceFloor ≤ target ∧ target ≤ c.importanceCeiling)
    (hi : c.importanceFloor ≤ i ∧ i ≤ c.importanceCeiling) :
    c.moved target i = i + c.rate * (target - i) := by
  have hc : c.ceiling = c.importanceCeiling := max_eq_left hband
  have h₀ : 0 ≤ c.rate := le_clampTo _ _ _
  have h₁ : c.rate ≤ 1 := clampTo_le zero_le_one _
  rw [moved, hc]
  refine clampTo_of_mem ?_ ?_
  · nlinarith [mul_nonneg h₀ (sub_nonneg.mpr htarget.1),
      mul_nonneg (sub_nonneg.mpr h₁) (sub_nonneg.mpr hi.1)]
  · nlinarith [mul_nonneg h₀ (sub_nonneg.mpr htarget.2),
      mul_nonneg (sub_nonneg.mpr h₁) (sub_nonneg.mpr hi.2)]

end AutoScoring

variable [IsStrictOrderedRing K]

/-- A share is in the unit interval. -/
lemma shareOf_mem_unit {x most : K} (hx : 0 ≤ x) (hle : x ≤ most) :
    0 ≤ shareOf x most ∧ shareOf x most ≤ 1 := by
  unfold shareOf
  split
  · next hpos => exact ⟨div_nonneg hx hpos.le, (div_le_one hpos).mpr hle⟩
  · exact ⟨le_rfl, zero_le_one⟩

/-- A record gains importance just if the step is large enough to be written. -/
lemma importance_rescored_le_iff (new : Rated K → K) (r : Rated K) :
    (r.rescored new).importance ≤ r.importance ↔ new r - r.importance ≤ scoreEpsilon := by
  have hε : (0 : K) ≤ scoreEpsilon := by
    unfold scoreEpsilon
    positivity
  unfold Rated.rescored
  split
  · next hsmall => exact iff_of_true le_rfl ((le_abs_self _).trans hsmall)
  · next hlarge =>
    constructor
    · intro h
      linarith
    · intro h
      by_contra hgain
      exact hlarge (by rwa [abs_of_pos (sub_pos.mpr (not_le.mp hgain))])

/-- A record was never retrieved, counting the accesses that are not drained, and its importance
lies in the band. -/
structure AutoScoring.Dormant (c : AutoScoring K) (pending : Option (ℕ × ℕ)) (r : Rated K) :
    Prop where
  never : (r.withAccesses pending).accessCount = 0
  floor_le : c.importanceFloor ≤ r.importance
  le_ceiling : r.importance ≤ c.importanceCeiling

/-- The step of a dormant record. -/
lemma newImportance_sub_of_dormant (recency : (age halfLife : ℕ) → K) {c : AutoScoring K}
    (hweight : 0 ≤ c.importanceAccessWeight ∧ c.importanceAccessWeight ≤ 1)
    (hband : c.importanceFloor ≤ c.importanceCeiling) (now halfLife : ℕ) (mostSalience : K)
    {records : ExtTreeMap PointOffset (Rated K)} {o : PointOffset}
    (hr : records[o]? = some r) {pending : Option (ℕ × ℕ)} (h : c.Dormant pending r) :
    c.newImportance mostSalience (maxDegree records)
        ((r.withAccesses pending).accessScore recency now halfLife) (r.withAccesses pending) -
      r.importance =
    c.rate * (c.restingTarget (shareOf r.concepts.length (maxDegree records)) - r.importance) := by
  have hdeg := shareOf_mem_unit (Nat.cast_nonneg (α := K) r.concepts.length)
    (Nat.cast_le.mpr (le_maxDegree hr))
  obtain ⟨hconcepts, himportance⟩ := withAccesses_eq r pending
  -- Without retrievals the target does not depend on the salience of others.
  have hshare :
      shareOf ((r.withAccesses pending).accessScore recency now halfLife) mostSalience = 0 :=
    by simp [shareOf, Rated.accessScore, h.never]
  rw [AutoScoring.newImportance, hshare, hconcepts, himportance,
    AutoScoring.target_zero hweight hband hdeg,
    AutoScoring.moved_of_mem hband (AutoScoring.within_restingTarget hweight hband hdeg)
      ⟨h.floor_le, h.le_ceiling⟩]
  ring

/-- No record that was never retrieved gains importance, and what is written lies in the band, just
if no such record is too far below the target that its concepts alone give it. **Proof sketch.** The
pass moves every record by itself. Without retrievals the target is the resting one, inside the
band, and the step towards it is not cut off. -/
theorem importance_never_raised_iff (recency : (age halfLife : ℕ) → K) {c : AutoScoring K}
    (hweight : 0 ≤ c.importanceAccessWeight ∧ c.importanceAccessWeight ≤ 1)
    (hband : c.importanceFloor ≤ c.importanceCeiling) (now : ℕ)
    (counters : ExtTreeMap PointOffset (ℕ × ℕ)) (records : ExtTreeMap PointOffset (Rated K)) :
    (∀ (o : PointOffset) (r r' : Rated K), records[o]? = some r →
        (recomputeImportance recency c now counters records).records[o]? = some r' →
        (c.Dormant counters[o]? r → r'.importance ≤ r.importance) ∧ (r'.importance ≠ r.importance →
          c.importanceFloor ≤ r'.importance ∧ r'.importance ≤ c.importanceCeiling)) ↔
      (c.importanceAutoScoring = true → ∀ (o : PointOffset) (r : Rated K), records[o]? = some r →
        c.Dormant counters[o]? r →
          c.rate * (c.restingTarget (shareOf r.concepts.length (maxDegree records)) -
            r.importance) ≤ scoreEpsilon) := by
  by_cases hon : c.importanceAutoScoring = true
  swap
  · simp only [recomputeImportance, hon, Bool.not_false, Bool.false_eq_true, if_true,
      false_implies, iff_true]
    rintro o r r' hr hr'
    obtain rfl : r = r' := Option.some.inj (hr.symm.trans hr')
    exact ⟨fun _ => le_rfl, fun h => absurd rfl h⟩
  have hmoved := getElem?_recomputeImportance recency hon now counters records
  have hdegree : maxDegree (drainAccesses counters records) = maxDegree records := by
    simp [maxDegree, drainAccesses, ExtTreeMap.toList_map, Function.comp_def]
  rw [hdegree] at hmoved
  set new := fun r => c.newImportance
    (maxSalience recency now (max c.recencyHalfLifeSecs 1) (drainAccesses counters records))
    (maxDegree records) (r.accessScore recency now (max c.recencyHalfLifeSecs 1)) r with hnew
  have hraised : ∀ (o : PointOffset) (r : Rated K), records[o]? = some r →
      c.Dormant counters[o]? r →
      (((r.withAccesses counters[o]?).rescored new).importance ≤ r.importance ↔
        c.rate * (c.restingTarget (shareOf r.concepts.length (maxDegree records)) -
          r.importance) ≤ scoreEpsilon) := by
    intro o r hr h
    rw [← newImportance_sub_of_dormant recency hweight hband now _ _ hr h]
    have := importance_rescored_le_iff new (r.withAccesses counters[o]?)
    rwa [(withAccesses_eq _ _).2] at this
  constructor
  · intro h _ o r hr hdormant
    exact (hraised o r hr hdormant).mp ((h o r _ hr (by rw [hmoved, hr]; rfl)).1 hdormant)
  · intro h o r r' hr hr'
    rw [hmoved, hr, Option.map_some, Option.map_some, Option.some_inj] at hr'
    subst hr'
    refine ⟨fun hdormant => (hraised o r hr hdormant).mpr (h hon o r hr hdormant), fun hne => ?_⟩
    unfold Rated.rescored at hne ⊢
    split
    · next hsmall =>
      rw [if_pos hsmall, (withAccesses_eq _ _).2] at hne
      exact absurd rfl hne
    · rw [← show c.ceiling = c.importanceCeiling from max_eq_left hband]
      exact c.within_moved _ _

end Exact

/-! ## A store with the default settings -/

/-- The default settings, with scoring switched on. -/
def sampleScoring : AutoScoring ℚ where
  importanceAutoScoring := true
  importanceLearningRate := 3 / 10
  importanceAccessWeight := 6 / 10
  importanceFloor := 1 / 10
  importanceCeiling := 4
  recencyHalfLifeSecs := 3600

/-- A share that halves with every full half-life. -/
def sampleRecency (age halfLife : ℕ) : ℚ := (1 / 2) ^ (age / halfLife)

/-- One record, with this importance. -/
def sampleRated (importance : ℚ) : ExtTreeMap PointOffset (Rated ℚ) :=
  (∅ : ExtTreeMap PointOffset (Rated ℚ)).insert 0 ⟨"a", importance, ["rust"], 0, 0⟩

/-- At an importance of 1 a record with one concept loses some. -/
theorem importance_never_raised_at_one :
    sampleScoring.importanceFloor ≤ sampleScoring.importanceCeiling ∧
    ∀ (o : PointOffset) (r r' : Rated ℚ), (sampleRated 1)[o]? = some r →
      (recomputeImportance sampleRecency sampleScoring 0 ∅ (sampleRated 1)).records[o]? = some r' →
      (sampleScoring.Dormant (∅ : ExtTreeMap PointOffset (ℕ × ℕ))[o]? r →
        r'.importance ≤ r.importance) ∧
      (r'.importance ≠ r.importance → sampleScoring.importanceFloor ≤ r'.importance ∧
        r'.importance ≤ sampleScoring.importanceCeiling) := by
  have hband : sampleScoring.importanceFloor ≤ sampleScoring.importanceCeiling := by
    decide +kernel
  refine ⟨hband, (importance_never_raised_iff sampleRecency (by decide +kernel) hband 0 ∅
    (sampleRated 1)).mpr fun _ o r hr _ => ?_⟩
  rw [sampleRated, ExtTreeMap.getElem?_insert] at hr
  split at hr
  · cases hr
    decide +kernel
  · simp at hr

/-- A record that was never retrieved and has the most concepts gains importance. -/
theorem never_retrieved_gains :
    sampleScoring.Dormant none ⟨"a", 1 / 2, ["rust"], 0, 0⟩ ∧
      ((recomputeImportance sampleRecency sampleScoring 0 ∅ (sampleRated (1 / 2))).records[0]?).map
        Rated.importance = some (307 / 500) ∧ (1 / 2 : ℚ) < 307 / 500 := by
  refine ⟨⟨rfl, by decide +kernel, by decide +kernel⟩, by decide +kernel, by norm_num⟩

end TurboMemory
