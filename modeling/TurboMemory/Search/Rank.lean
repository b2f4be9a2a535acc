import Mathlib.Order.Nat
import TurboMemory.Lib.Selection
import TurboMemory.Storage.Record

/-!
# Scores and rankings

How search results are compared. A score is a float that a search path computed; the paths
compare scores in two ways, by the partial order of floats and by a total order that ranks the
best score first and NaN last (`Score`). `bestFirst` is best score first, the older record first
on a tie.

## Main results

* `bestFirst_rankLe_iff` and the instances behind it — over a linear order of scores
  `bestFirst` is a linear order of scored offsets.

## Implementation notes

The instance `Score.ofLinearOrder` is the comparison of scores that are totally ordered and
above `⊥`, the place of `-∞`: the partial and the total order then agree. Floats do this as
long as no NaN and no two zeros of opposite sign are compared.
-/

set_option autoImplicit false

namespace TurboMemory

/-! ## Comparing scores -/

/-- The comparisons of a type of scores: the partial order of floats, the total order with the best
score first, and the value below all others. -/
class Score (S : Type) where
  negInf : S
  partialCmp : S → S → Option Ordering
  cmpScoreDesc : S → S → Ordering

/-- Totally ordered scores: both comparisons are the order, the second one reversed. -/
instance Score.ofLinearOrder {S : Type} [LinearOrder S] [OrderBot S] : Score S where
  negInf := ⊥
  partialCmp a b := some (compare a b)
  cmpScoreDesc a b := compare b a

/-- `a` does not come after `b` under a comparison function. -/
def RankLe {α : Type} (cmp : α → α → Ordering) (a b : α) : Prop := cmp a b ≠ .gt

instance {α : Type} (cmp : α → α → Ordering) : DecidableRel (RankLe cmp) :=
  fun a b => inferInstanceAs (Decidable (cmp a b ≠ .gt))

section Orders

variable {α : Type} {cmp : α → α → Ordering}

/-- Ranked before or equal. -/
lemma rankLe_iff_isLE {a b : α} : RankLe cmp a b ↔ (cmp a b).isLE = true := by
  rw [RankLe, Ordering.isLE_iff_ne_gt]

instance [Std.OrientedCmp cmp] : Std.Total (RankLe cmp) where
  total a b := by
    rw [RankLe, RankLe, @Std.OrientedCmp.eq_swap _ cmp _ b a]
    cases cmp a b <;> simp

instance [Std.TransCmp cmp] : IsTrans α (RankLe cmp) where
  trans a b c hab hbc := by
    rw [rankLe_iff_isLE] at *
    exact Std.TransCmp.isLE_trans hab hbc

end Orders

/-- Stable sort by a comparison function. -/
def sortBy {α : Type} (cmp : α → α → Ordering) (l : List α) : List α :=
  l.insertionSort (RankLe cmp)

/-- Exact-search order: best score first, the older record first on a tie. -/
def bestFirst {S : Type} [Score S] (a b : PointOffset × S) : Ordering :=
  (Score.cmpScoreDesc a.2 b.2).then (compare a.1 b.1)

section LinearOrder

variable {S : Type} [LinearOrder S] [OrderBot S]

/-- Scores, best first. -/
lemma rankLe_cmpScoreDesc_iff {α : Type} (f : α → S) (a b : α) :
    RankLe (fun a b => Score.cmpScoreDesc (f a) (f b)) a b ↔ f b ≤ f a := by
  simp only [RankLe, Score.cmpScoreDesc, ne_eq, compare_gt_iff_gt, not_lt]

/-- Best score first, then the smaller offset. -/
lemma bestFirst_rankLe_iff (a b : PointOffset × S) :
    RankLe bestFirst a b ↔ b.2 < a.2 ∨ a.2 = b.2 ∧ a.1 ≤ b.1 := by
  rcases lt_trichotomy b.2 a.2 with h | h | h
  · simp [RankLe, bestFirst, Score.cmpScoreDesc, compare_lt_iff_lt.mpr h, h]
  · simp [RankLe, bestFirst, Score.cmpScoreDesc, h, compare_gt_iff_gt]
  · simp [RankLe, bestFirst, Score.cmpScoreDesc, compare_gt_iff_gt.mpr h, h.not_gt, h.ne]

instance : Std.TransCmp (bestFirst (S := S)) :=
  inferInstanceAs (Std.TransCmp (compareLex (fun a b => compareOn Prod.snd b a)
    (compareOn Prod.fst)))

instance : Std.Antisymm (RankLe (bestFirst (S := S))) where
  antisymm a b hab hba := by
    rw [rankLe_iff_isLE] at hab hba
    have heq := Std.OrientedCmp.isLE_antisymm hab hba
    rw [bestFirst, Ordering.then_eq_eq, compare_eq_iff_eq] at heq
    exact Prod.ext heq.2 (compare_eq_iff_eq.mp heq.1).symm

end LinearOrder

end TurboMemory
