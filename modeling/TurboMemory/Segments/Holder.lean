import TurboMemory.Engine.Open

/-!
# The segment holder

The searchable segments of a store. New records go into one mutable segment. A full one is
moved into a queue, from which the optimizer takes it and builds an indexed segment; indexed
segments are merged, and warm ones compacted into a cold one. Searches use the published
snapshot. The lock-protected sections (`Holder.insert`, `Holder.swapHot`, …) and whole calls
without interference (`Holder.sealHot`, …) are definitions of their own.

A snapshot holds shared handles. Only the mutable segment changes behind its handle, and every
snapshot that is ever published contains it, so a snapshot is modelled by its other segments.
Segments are told apart by their handle, `Segment.id`.
-/

set_option autoImplicit false

namespace TurboMemory

open List

/-! ## State -/

/-- A segment that is not mutable any more: its handle and its offsets. -/
structure Segment where
  id : ℕ
  offsets : List PointOffset
deriving DecidableEq

/-- The lists of segments besides the mutable one. -/
structure SegmentLists where
  /-- Plain segments waiting to be built. -/
  sealingPlain : List Segment := []
  /-- Plain segments being built. -/
  buildingPlain : List Segment := []
  sealedHot : List Segment := []
  warm : List Segment := []
  cold : List Segment := []
deriving DecidableEq

/-- All of them, in the order of a snapshot. -/
def SegmentLists.all (l : SegmentLists) : List Segment :=
  l.sealingPlain ++ l.buildingPlain ++ l.sealedHot ++ l.warm ++ l.cold

/-- When segments are sealed, merged and compacted. -/
structure TierConfig where
  dimension : ℕ
  hotCapacity : ℕ
  warmCapacity : ℕ
  mergeThresholdSegments : ℕ
  mergeMaxRecords : ℕ

/-- The segment holder. -/
structure Holder where
  hot : HotSegment
  lists : SegmentLists := {}
  /-- The next handle. -/
  nextId : ℕ := 0
  /-- The segments of the published snapshot besides the mutable one. -/
  published : List Segment := []

namespace Holder

/-- A holder without segments, published. -/
def new (config : TierConfig) : Holder := { hot := HotSegment.new config.dimension }

variable (h : Holder)

/-- An offset is in some segment of the published snapshot. -/
def Covers (offset : PointOffset) : Prop :=
  offset ∈ h.hot.offsets ∨ ∃ s ∈ h.published, offset ∈ s.offsets

instance (h : Holder) (offset : PointOffset) : Decidable (h.Covers offset) := by
  unfold Covers; infer_instance

/-! ## Lock-protected sections -/

/-- Insert a record into the mutable segment, and tell whether that is full now. -/
def insert (config : TierConfig) (h : Holder) (offset : PointOffset) (embedding : Embedding) :
    Except StorageError (Bool × Holder) :=
  (h.hot.insert offset embedding).map fun hot =>
    (config.hotCapacity ≤ hot.offsets.length, { h with hot := hot })

/-- Take the full mutable segment away and put a fresh one behind its handle. -/
def swapHot (config : TierConfig) (h : Holder) : Option (HotSegment × Holder) :=
  if h.hot.offsets.length < config.hotCapacity then none
  else some (h.hot, { h with hot := HotSegment.new config.dimension })

variable (offsets : List PointOffset)

/-- Queue a plain segment under a new handle. -/
def pushSealing : Holder :=
  { h with
    lists := { h.lists with sealingPlain := h.lists.sealingPlain ++ [⟨h.nextId, offsets⟩] }
    nextId := h.nextId + 1 }

/-- Take the last queued segment for building. -/
def popSealingPlain : Option (Segment × Holder) :=
  h.lists.sealingPlain.getLast?.map fun plain =>
    (plain, { h with lists := { h.lists with
      sealingPlain := h.lists.sealingPlain.dropLast
      buildingPlain := h.lists.buildingPlain ++ [plain] } })

/-- Put a segment whose build failed back into the queue. -/
def pushBack (plain : Segment) : Holder :=
  { h with lists := { h.lists with
    buildingPlain := h.lists.buildingPlain.filter (·.id ≠ plain.id)
    sealingPlain := h.lists.sealingPlain ++ [plain] } }

/-- Forget a plain segment. -/
def removeSealingPlain (target : Segment) : Holder :=
  { h with lists := { h.lists with
    sealingPlain := h.lists.sealingPlain.filter (·.id ≠ target.id)
    buildingPlain := h.lists.buildingPlain.filter (·.id ≠ target.id) } }

/-- List a sealed hot segment under a new handle. -/
def pushSealedHot : Holder :=
  { h with
    lists := { h.lists with sealedHot := h.lists.sealedHot ++ [⟨h.nextId, offsets⟩] }
    nextId := h.nextId + 1 }

/-- List a warm segment under a new handle. -/
def pushWarm : Holder :=
  { h with
    lists := { h.lists with warm := h.lists.warm ++ [⟨h.nextId, offsets⟩] }
    nextId := h.nextId + 1 }

/-- List a cold segment under a new handle. -/
def pushCold : Holder :=
  { h with
    lists := { h.lists with cold := h.lists.cold ++ [⟨h.nextId, offsets⟩] }
    nextId := h.nextId + 1 }

/-- The loop that collects segments to merge, smallest first, up to a cap. -/
def takeMergeable (hardCap : ℕ) : List Segment → ℕ → List Segment
  | [], _ => []
  | s :: ss, total =>
    if 0 < total ∧ hardCap < total + s.offsets.length then []
    else s :: takeMergeable hardCap ss (total + s.offsets.length)

/-- The group to merge for a threshold and a cap. -/
def mergeGroup (threshold maxRecords : ℕ) (segments : List Segment) : Option (List Segment) :=
  if segments.length < threshold then none
  else
    let sorted := segments.insertionSort fun a b => a.offsets.length ≤ b.offsets.length
    let candidates := takeMergeable (max (2 * maxRecords) maxRecords) sorted 0
    if threshold ≤ candidates.length then some candidates else none

/-- The sealed hot segments to merge, if there are enough of them. -/
def sealedHotMergeCandidates (config : TierConfig) (h : Holder) : Option (List Segment) :=
  mergeGroup (max config.mergeThresholdSegments 2)
    (max (max config.mergeMaxRecords config.hotCapacity) 2) h.lists.sealedHot

/-- Forget sealed hot segments. -/
def removeSealedHotSegments (targets : List Segment) : Holder :=
  { h with lists := { h.lists with
    sealedHot := h.lists.sealedHot.filter fun s => !targets.any (·.id == s.id) } }

/-- The warm segments to compact, if there is too much in them. -/
def warmTargets (config : TierConfig) (h : Holder) : Option (List Segment) :=
  if (h.lists.warm.map fun s => s.offsets.length).sum ≤ config.warmCapacity ∨ h.lists.warm = []
  then none
  else some h.lists.warm

/-- Install the cold segment in the place of the compacted warm ones. -/
def installCold (cold : Option (List PointOffset)) (targets : List Segment) : Holder :=
  let h := match cold with
    | none => h
    | some offsets => h.pushCold offsets
  { h with lists := { h.lists with
    warm := h.lists.warm.filter fun s => !targets.any (·.id == s.id) } }

/-- Collect the searchable segments. -/
def buildSnapshot : List Segment := h.lists.all

/-- Publish a snapshot. -/
def store (snapshot : List Segment) : Holder := { h with published := snapshot }

/-! ## Whole calls -/

/-- Build a snapshot and publish it. -/
def publishSnapshot : Holder := h.store h.buildSnapshot

/-- Move a full mutable segment into the queue. -/
def sealHot (config : TierConfig) (h : Holder) : Holder :=
  match h.swapHot config with
  | none => h
  | some (old, h) => (h.pushSealing old.offsets).publishSnapshot

/-- Add a sealed hot segment. -/
def addSealedHot : Holder :=
  (h.pushSealedHot offsets).publishSnapshot

/-- Add a warm segment. -/
def addWarm : Holder :=
  (h.pushWarm offsets).publishSnapshot

/-- Add a cold segment. -/
def addCold : Holder :=
  (h.pushCold offsets).publishSnapshot

/-- Insert the records that no sealed segment has, and seal the mutable segment whenever it is
full. -/
def fromRecords (config : TierConfig) (sealedOffsets : Finset PointOffset) :
    List (PointOffset × Record) → Holder → Except StorageError Holder
  | [], h => .ok h
  | p :: records, h =>
    if p.1 ∈ sealedOffsets then fromRecords config sealedOffsets records h
    else do
      let (full, h) ← h.insert config p.1 p.2.embedding
      fromRecords config sealedOffsets records (if full then h.sealHot config else h)

/-! ## What is listed -/

variable {h : Holder} {s : Segment} {config : TierConfig}

/-- An insert that succeeds only adds the offset to the mutable segment. -/
lemma insert_eq_ok {offset : PointOffset} {embedding : Embedding}
    {full : Bool} {h' : Holder} (heq : h.insert config offset embedding = .ok (full, h')) :
    ∃ hot, h' = { h with hot := hot } ∧ ∀ o, o ∈ hot.offsets ↔ o = offset ∨ o ∈ h.hot.offsets := by
  rw [insert, HotSegment.insert] at heq
  cases hdim : validateDimension StorageError.core embedding h.hot.dim with
  | error e => rw [hdim] at heq; cases heq
  | ok u =>
    rw [hdim] at heq
    simp only [Except.map, Except.ok.injEq, Prod.mk.injEq] at heq
    refine ⟨_, heq.2.symm, fun o => ?_⟩
    split
    · next hmem =>
      refine ⟨.inr, ?_⟩
      rintro (rfl | ho)
      · exact hmem
      · exact ho
    · simp [or_comm]

variable {offsets : List PointOffset}

/-- The queue gets one segment. -/
@[simp] lemma mem_all_pushSealing :
    s ∈ (h.pushSealing offsets).lists.all ↔ s = ⟨h.nextId, offsets⟩ ∨ s ∈ h.lists.all := by
  simp only [pushSealing, SegmentLists.all, mem_append, mem_singleton]
  tauto

/-- The sealed list gets one. -/
@[simp] lemma mem_all_pushSealedHot :
    s ∈ (h.pushSealedHot offsets).lists.all ↔ s = ⟨h.nextId, offsets⟩ ∨ s ∈ h.lists.all := by
  simp only [pushSealedHot, SegmentLists.all, mem_append, mem_singleton]
  tauto

/-- The warm list gets one. -/
@[simp] lemma mem_all_pushWarm :
    s ∈ (h.pushWarm offsets).lists.all ↔ s = ⟨h.nextId, offsets⟩ ∨ s ∈ h.lists.all := by
  simp only [pushWarm, SegmentLists.all, mem_append, mem_singleton]
  tauto

/-- The cold list gets one. -/
@[simp] lemma mem_all_pushCold :
    s ∈ (h.pushCold offsets).lists.all ↔ s = ⟨h.nextId, offsets⟩ ∨ s ∈ h.lists.all := by
  simp only [pushCold, SegmentLists.all, mem_append, mem_singleton]
  tauto

variable {plain : Segment} {target : Segment}

/-- Taking a segment for building only moves it, from one list of plain segments to the other. -/
lemma popSealingPlain_eq_some {h' : Holder} (heq : h.popSealingPlain = some (plain, h')) :
    plain ∈ h.lists.all ∧ (∀ s, s ∈ h'.lists.all ↔ s ∈ h.lists.all) ∧
      h' = { h with lists := h'.lists } := by
  rw [popSealingPlain] at heq
  rcases eq_nil_or_concat h.lists.sealingPlain with hnil | ⟨init, last, hlast⟩
  · simp [hnil] at heq
  · simp only [hlast, concat_eq_append, getLast?_append, getLast?_singleton,
      Option.some_or, Option.map_some, Option.some.injEq, Prod.mk.injEq, dropLast_concat] at heq
    obtain ⟨rfl, rfl⟩ := heq
    refine ⟨by simp [SegmentLists.all, hlast], fun s => ?_, rfl⟩
    simp only [SegmentLists.all, hlast, concat_eq_append, mem_append, mem_singleton]
    tauto

/-- Only segments under the handle are removed. -/
lemma mem_all_removeSealingPlain_of_ne (hs : s ∈ h.lists.all)
    (hne : s.id ≠ target.id) : s ∈ (h.removeSealingPlain target).lists.all := by
  simp only [removeSealingPlain, SegmentLists.all, mem_append, mem_filter,
    decide_eq_true_eq] at hs ⊢
  tauto

/-- Removing adds nothing. -/
lemma mem_all_of_mem_removeSealingPlain
    (hs : s ∈ (h.removeSealingPlain target).lists.all) : s ∈ h.lists.all := by
  simp only [removeSealingPlain, SegmentLists.all, mem_append, mem_filter] at hs ⊢
  tauto

/-- Putting a segment back only removes its handle from the other list. -/
lemma mem_all_pushBack_of_ne (hs : s ∈ h.lists.all) (hne : s.id ≠ plain.id) :
    s ∈ (h.pushBack plain).lists.all := by
  simp only [pushBack, SegmentLists.all, mem_append, mem_filter, decide_eq_true_eq] at hs ⊢
  tauto

/-- What is put back is listed. -/
lemma self_mem_all_pushBack (plain : Segment) : plain ∈ (h.pushBack plain).lists.all := by
  simp [pushBack, SegmentLists.all]

/-- Nothing else is added. -/
lemma mem_all_of_mem_pushBack (hs : s ∈ (h.pushBack plain).lists.all) :
    s = plain ∨ s ∈ h.lists.all := by
  simp only [pushBack, SegmentLists.all, mem_append, mem_filter, mem_singleton] at hs ⊢
  tauto

variable {targets : List Segment} {cold : Option (List PointOffset)}

/-- Only the given segments are removed. -/
lemma mem_all_removeSealedHot_of_ne (hs : s ∈ h.lists.all)
    (hne : ∀ target ∈ targets, target.id ≠ s.id) :
    s ∈ (h.removeSealedHotSegments targets).lists.all := by
  have hany : (!targets.any (·.id == s.id)) = true := by simpa using hne
  simp only [removeSealedHotSegments, SegmentLists.all, mem_append, mem_filter, hany] at hs ⊢
  tauto

/-- Removing adds nothing. -/
lemma mem_all_of_mem_removeSealedHot
    (hs : s ∈ (h.removeSealedHotSegments targets).lists.all) : s ∈ h.lists.all := by
  simp only [removeSealedHotSegments, SegmentLists.all, mem_append, mem_filter] at hs ⊢
  tauto

/-- Only the compacted segments are removed. -/
lemma mem_all_installCold_of_ne
    (hs : s ∈ h.lists.all) (hne : ∀ target ∈ targets, target.id ≠ s.id) :
    s ∈ (h.installCold cold targets).lists.all := by
  have hany : (!targets.any (·.id == s.id)) = true := by simpa using hne
  cases cold <;>
  · simp only [installCold, pushCold, SegmentLists.all, mem_append, mem_filter, hany] at hs ⊢
    tauto

/-- Only the cold segment is added. -/
lemma mem_all_of_mem_installCold
    (hs : s ∈ (h.installCold cold targets).lists.all) :
    s ∈ h.lists.all ∨ ∃ offsets, cold = some offsets ∧ s = ⟨h.nextId, offsets⟩ := by
  cases cold <;>
  · simp only [installCold, pushCold, SegmentLists.all, mem_append, mem_filter,
      mem_singleton, Option.some.injEq, reduceCtorEq] at hs ⊢
    simp only [false_and, exists_false, or_false, exists_eq_left'] at hs ⊢
    tauto

/-- A group is taken from the segments. -/
lemma takeMergeable_sublist (hardCap total : ℕ) (ss : List Segment) :
    takeMergeable hardCap ss total <+ ss := by
  induction ss generalizing total with
  | nil => exact .slnil
  | cons s' ss ih =>
    rw [takeMergeable]
    split
    · exact nil_sublist _
    · exact (ih _).cons_cons s'

/-- A group is large enough, and from the segments. -/
lemma mergeGroup_spec {m r : ℕ} {segments : List Segment}
    (hgroup : mergeGroup m r segments = some targets) :
    m ≤ targets.length ∧ targets <+~ segments := by
  rw [mergeGroup] at hgroup
  split at hgroup
  · cases hgroup
  · simp only [Option.ite_none_right_eq_some, Option.some.injEq] at hgroup
    obtain ⟨hlong, rfl⟩ := hgroup
    exact ⟨hlong, (takeMergeable_sublist ..).subperm.trans (perm_insertionSort ..).subperm⟩

/-- The segments to merge are listed. -/
lemma mem_all_of_mem_mergeCandidates
    (htargets : h.sealedHotMergeCandidates config = some targets) (hs : s ∈ targets) :
    s ∈ h.lists.all := by
  simp [SegmentLists.all, (mergeGroup_spec htargets).2.subset hs]

/-- The segments to compact are listed. -/
lemma mem_all_of_mem_warmTargets
    (htargets : h.warmTargets config = some targets) (hs : s ∈ targets) : s ∈ h.lists.all := by
  rw [warmTargets] at htargets
  split at htargets
  · cases htargets
  · cases htargets
    simp [SegmentLists.all, hs]

/-- The cold segment is listed. -/
lemma cold_mem_all_installCold :
    ⟨h.nextId, offsets⟩ ∈ (h.installCold (some offsets) targets).lists.all := by
  simp [installCold, pushCold, SegmentLists.all]

end Holder

end TurboMemory
