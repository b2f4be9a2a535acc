import Mathlib.Algebra.Order.BigOperators.Group.List
import TurboMemory.Segments.Open

/-!
# Merging until nothing is left to merge

Groups of sealed hot segments are merged, smallest first, as long as a group is found. A group
has at least as many segments as the threshold, and not many more points than the cap.

## Main results

* `Holder.merging_converges` — merging ends and loses no offset; it ends below the threshold just
  if the smallest segments always fit (`Holder.Fits`).
-/

set_option autoImplicit false

namespace TurboMemory

namespace Holder

open List

variable (m r : ℕ) (h : Holder)

/-- Replace a group by one segment, if there is a group. -/
def mergeOnce : Option Holder :=
  (mergeGroup m r h.lists.sealedHot).map fun targets =>
    let offsets := (targets.flatMap Segment.offsets).dedup
    let h := h.removeSealedHotSegments targets
    if offsets = [] then h.publishSnapshot else h.addSealedHot offsets

/-- The holder after a number of merges. -/
def mergeTimes (n : ℕ) : Holder := (fun h => (h.mergeOnce m r).getD h)^[n] h

/-- The offsets of all sealed hot segments. -/
def sealedOffsets : List PointOffset := h.lists.sealedHot.flatMap Segment.offsets

/-- The number of points in all of them. -/
def points : ℕ := (h.lists.sealedHot.map fun s => s.offsets.length).sum

/-- The number of points in the smallest segments. -/
def smallest (k : ℕ) : ℕ :=
  (((h.lists.sealedHot.insertionSort fun a b => a.offsets.length ≤ b.offsets.length).take k).map
    fun s => s.offsets.length).sum

/-- If there are enough segments, the smallest ones fit, or all but the last are empty. -/
def Fits : Prop :=
  m ≤ h.lists.sealedHot.length → h.smallest (m - 1) = 0 ∨ h.smallest m ≤ 2 * r

instance : Decidable (h.Fits m r) := inferInstanceAs (Decidable (_ → _))

variable {m r h} {h' : Holder}

/-- The smallest segments fit if all of them do. -/
lemma fits_of_points_le (hpoints : h.points ≤ 2 * r) : h.Fits m r := by
  refine fun _ => .inr (le_trans ?_ hpoints)
  rw [points, ← ((perm_insertionSort (fun a b : Segment => a.offsets.length ≤ b.offsets.length)
    h.lists.sealedHot).map _).sum_eq]
  exact ((take_sublist _ _).map _).sum_le_sum fun _ _ => Nat.zero_le _

/-! ## One merge -/

/-- How many segments the loop takes: all but the last are empty, or all fit. -/
lemma le_length_takeMergeable (cap total : ℕ) {ss : List Segment} {k : ℕ} (hk : k < ss.length) :
    k + 1 ≤ (takeMergeable cap ss total).length ↔
      total + ((ss.take k).map fun s => s.offsets.length).sum = 0 ∨
        total + ((ss.take (k + 1)).map fun s => s.offsets.length).sum ≤ cap := by
  induction ss generalizing k total with
  | nil => simp at hk
  | cons s ss ih =>
    rw [takeMergeable]
    cases k with
    | zero =>
      split <;> simp <;> omega
    | succ k =>
      have hrest := ih (total + s.offsets.length) (Nat.lt_of_succ_lt_succ hk)
      split
      · simp
        omega
      · simp only [length_cons, take_succ_cons, map_cons, sum_cons, Nat.add_le_add_iff_right,
          ← Nat.add_assoc] at hrest ⊢
        exact hrest

/-- There is a group just if there are enough segments and the smallest fit. -/
lemma mergeOnce_isSome_iff (hm : 2 ≤ m) :
    (h.mergeOnce m r).isSome ↔ m ≤ h.lists.sealedHot.length ∧ h.Fits m r := by
  obtain ⟨k, rfl⟩ : ∃ k, m = k + 1 + 1 := ⟨m - 2, by omega⟩
  rw [mergeOnce, Option.isSome_map, mergeGroup]
  split
  · simp
    omega
  · next hlength =>
    have hlt : k + 1 < (h.lists.sealedHot.insertionSort
        fun a b => a.offsets.length ≤ b.offsets.length).length := by
      rw [length_insertionSort]
      omega
    have htaken := le_length_takeMergeable (2 * r) 0 hlt
    rw [Nat.zero_add, Nat.zero_add] at htaken
    rw [max_eq_left (by omega)]
    dsimp only
    split
    · next htake => exact iff_of_true rfl ⟨not_lt.mp hlength, fun _ => htaken.mp htake⟩
    · next htake => exact iff_of_false Bool.false_ne_true fun hfits => htake (htaken.mpr (hfits.2 hfits.1))

/-- A merge keeps the offsets, and leaves fewer segments. -/
lemma Handles.mergeOnce (hh : h.Handles) (hm : 2 ≤ m) (hone : h.mergeOnce m r = some h') :
    h'.Handles ∧ h'.lists.sealedHot.length < h.lists.sealedHot.length ∧
      h'.points ≤ h.points ∧ ∀ o, o ∈ h'.sealedOffsets ↔ o ∈ h.sealedOffsets := by
  obtain ⟨targets, hgroup, rfl⟩ := Option.map_eq_some_iff.mp hone
  obtain ⟨hlong, hsub⟩ := mergeGroup_spec hgroup
  set taken : Segment → Bool := fun s => targets.any (·.id == s.id)
  set kept := h.lists.sealedHot.filter (!taken ·)
  -- The segments that are kept and those of the group are different ones.
  obtain ⟨parts, hperm, hparts⟩ : targets ++ kept <+~ h.lists.sealedHot := by
    have hfilter : targets.filter taken = targets :=
      filter_eq_self.mpr fun s hs => any_eq_true.mpr ⟨s, hs, beq_self_eq_true _⟩
    have htargets := hsub.filter taken
    rw [hfilter] at htargets
    exact ((subperm_append_right kept).mpr htargets).trans (filter_append_perm taken _).subperm
  have hcount := hparts.length_le
  rw [hperm.length_eq, length_append] at hcount
  have hsize := (hparts.map fun s => s.offsets.length).sum_le_sum fun _ _ => Nat.zero_le _
  rw [(hperm.map _).sum_eq, map_append, sum_append, ← length_flatMap] at hsize
  have hmerged : (targets.flatMap Segment.offsets).dedup.length ≤ _ :=
    (dedup_sublist _).length_le
  have hall : ∀ s ∈ h.lists.sealedHot, s ∈ h.lists.all := fun s hs => by
    simp [SegmentLists.all, hs]
  have hoffsets : ∀ o, o ∈ h.sealedOffsets ↔
      o ∈ kept.flatMap Segment.offsets ∨ o ∈ (targets.flatMap Segment.offsets).dedup := by
    intro o
    simp only [sealedOffsets, mem_flatMap, mem_dedup, kept, mem_filter, Bool.not_eq_true']
    constructor
    · rintro ⟨s, hs, ho⟩
      cases hid : taken s with
      | false => exact .inl ⟨s, ⟨hs, hid⟩, ho⟩
      | true =>
        obtain ⟨s', hs', hid⟩ := any_eq_true.mp hid
        obtain rfl := hh.unique s' (hall s' (hsub.subset hs')) s (hall s hs) (beq_iff_eq.mp hid)
        exact .inr ⟨s', hs', ho⟩
    · rintro (⟨s, ⟨hs, -⟩, ho⟩ | ⟨s, hs, ho⟩)
      · exact ⟨s, hs, ho⟩
      · exact ⟨s, hsub.subset hs, ho⟩
  have hkept : (h.removeSealedHotSegments targets).Handles :=
    ⟨fun s hs => hh.fresh s (mem_all_of_mem_removeSealedHot hs), fun s hs s' hs' =>
      hh.unique s (mem_all_of_mem_removeSealedHot hs) s' (mem_all_of_mem_removeSealedHot hs')⟩
  dsimp only
  split
  · next hempty =>
    refine ⟨⟨hkept.1, hkept.2⟩, by change kept.length < _; omega, ?_, fun o => ?_⟩
    · exact (Nat.le_add_left _ _).trans hsize
    rw [hoffsets, hempty]
    exact (or_iff_left not_mem_nil).symm
  · have hnew : ((h.removeSealedHotSegments targets).addSealedHot
        (targets.flatMap Segment.offsets).dedup).lists.sealedHot =
        kept ++ [⟨h.nextId, (targets.flatMap Segment.offsets).dedup⟩] := rfl
    have hpush : ((h.removeSealedHotSegments targets).pushSealedHot
        (targets.flatMap Segment.offsets).dedup).Handles :=
      hkept.push rfl fun _ => mem_all_pushSealedHot
    refine ⟨⟨hpush.1, hpush.2⟩, by rw [hnew, length_append, length_singleton]; omega, ?_,
      fun o => ?_⟩
    · rw [points, hnew, map_append, sum_append, map_singleton, sum_singleton, add_comm]
      exact (Nat.add_le_add_right hmerged _).trans hsize
    rw [hoffsets, sealedOffsets, hnew, flatMap_append, mem_append, flatMap_singleton]

/-- **Merging ends and loses no offset.** The offsets of the sealed segments are the same after
every merge, and after as many merges as there are segments no group is found any more. Then there
are fewer segments than the threshold, just if in every state on the way the smallest segments fit;
it is enough that all segments together do.
**Proof sketch.** A merge takes at least two segments away and adds at most one
(`Handles.mergeOnce`); there is one just if there are enough segments and the smallest fit
(`mergeOnce_isSome_iff`). -/
theorem merging_converges (hh : h.Handles) (hm : 2 ≤ m) (r : ℕ) :
    (∀ k o, o ∈ (h.mergeTimes m r k).sealedOffsets ↔ o ∈ h.sealedOffsets) ∧
    (h.mergeTimes m r h.lists.sealedHot.length).mergeOnce m r = none ∧
    ((h.mergeTimes m r h.lists.sealedHot.length).lists.sealedHot.length < m ↔
      ∀ k ≤ h.lists.sealedHot.length, (h.mergeTimes m r k).Fits m r) ∧
    (h.points ≤ 2 * r →
      (h.mergeTimes m r h.lists.sealedHot.length).lists.sealedHot.length < m) := by
  have hrun : ∀ k, (h.mergeTimes m r k).Handles ∧ (h.mergeTimes m r k).points ≤ h.points ∧
      (∀ o, o ∈ (h.mergeTimes m r k).sealedOffsets ↔ o ∈ h.sealedOffsets) ∧
      ((h.mergeTimes m r k).mergeOnce m r = none ∨
        (h.mergeTimes m r k).lists.sealedHot.length + k ≤ h.lists.sealedHot.length) := by
    intro k
    induction k with
    | zero => exact ⟨hh, le_rfl, fun _ => .rfl, .inr le_rfl⟩
    | succ k ih =>
      obtain ⟨hh', hpoints, hsame, hbound⟩ := ih
      rw [mergeTimes, Function.iterate_succ_apply', ← mergeTimes]
      cases hone : (h.mergeTimes m r k).mergeOnce m r with
      | none => exact ⟨hh', hpoints, hsame, .inl hone⟩
      | some h' =>
        obtain ⟨hnext, hless, hpoints', hsame'⟩ := hh'.mergeOnce hm hone
        rw [hone, or_iff_right nofun] at hbound
        refine ⟨hnext, hpoints'.trans hpoints, fun o => (hsame' o).trans (hsame o), .inr ?_⟩
        rw [Option.getD_some]
        omega
  have hlast : (h.mergeTimes m r h.lists.sealedHot.length).mergeOnce m r = none := by
    obtain ⟨hh', -, -, hstuck | hbound⟩ := hrun h.lists.sealedHot.length
    · exact hstuck
    · refine Option.eq_none_iff_forall_not_mem.mpr fun h' hone => ?_
      have := (hh'.mergeOnce hm hone).2.1
      omega
  have hfew (hfits : (h.mergeTimes m r h.lists.sealedHot.length).Fits m r) :
      (h.mergeTimes m r h.lists.sealedHot.length).lists.sealedHot.length < m := by
    by_contra hmany
    have hone := (mergeOnce_isSome_iff hm).mpr ⟨not_lt.mp hmany, hfits⟩
    rw [hlast] at hone
    cases hone
  refine ⟨fun k => (hrun k).2.2.1, hlast, ⟨fun hfew k hk => ?_, fun hfits => hfew (hfits _ le_rfl)⟩,
    fun hpoints => hfew (fits_of_points_le ((hrun _).2.1.trans hpoints))⟩
  · by_contra hfits
    have hstuck : (h.mergeTimes m r k).mergeOnce m r = none := by
      rw [← Option.not_isSome_iff_eq_none, mergeOnce_isSome_iff hm]
      exact fun hone => hfits hone.2
    -- Nothing changes from here on.
    have hsame : h.mergeTimes m r h.lists.sealedHot.length = h.mergeTimes m r k := by
      obtain ⟨j, hj⟩ := Nat.exists_eq_add_of_le' hk
      rw [hj, mergeTimes, Function.iterate_add_apply]
      exact Function.iterate_fixed (by rw [← mergeTimes, hstuck]; rfl) j
    rw [hsame] at hfew
    exact hfits fun henough => absurd hfew (not_lt.mpr henough)

/-- Sealed segments of given sizes. -/
def sampleSealed (sizes : List ℕ) : Holder where
  hot := HotSegment.new 1
  lists := { sealedHot := sizes.mapIdx fun i size => ⟨i, (range size).map (10 * i + ·)⟩ }
  nextId := sizes.length

/-- Three small segments become one: all of them fit. -/
theorem merging_converges_three : (sampleSealed [1, 2, 1]).points ≤ 2 * 2 ∧
    ((sampleSealed [1, 2, 1]).mergeTimes 2 2 3).lists.sealedHot.length < 2 :=
  ⟨by decide, (merging_converges ⟨by decide, by decide⟩ le_rfl 2).2.2.2 (by decide)⟩

/-- **Merging is stuck** at a threshold of three: three segments as large as the cap do not fit. -/
theorem merging_stuck : (sampleSealed [2, 2, 2]).mergeOnce 3 2 = none ∧
    (sampleSealed [2, 2, 2]).lists.sealedHot.length = 3 :=
  ⟨rfl, rfl⟩

end Holder

end TurboMemory
