import TurboMemory.Segments.Holder

/-!
# Segments at open

The segment directories of the three tiers are loaded. A warm one whose records are all in cold
ones, and a sealed hot one whose records are all in larger sealed hot ones, is a leftover of an
interrupted compaction or merge and is removed (`keepWarm`, `keepSealed`). Records in no segment
that is kept go into the mutable segment.

## Main results

* `openSegments_covers` — whatever directories there are, the open succeeds, every live record is
  in a published segment and a removed directory has all its offsets in kept ones.
* `view_fromRecords` — the holder of the engine model is an abstraction of this one.
-/

set_option autoImplicit false

namespace TurboMemory

open Holder List

/-! ## Loading -/

/-- A loaded segment directory. -/
structure SegmentDir where
  path : String
  offsets : List PointOffset
deriving DecidableEq

/-- The offsets of some directories. -/
def dirOffsets (dirs : List SegmentDir) : Finset PointOffset :=
  (dirs.flatMap SegmentDir.offsets).toFinset

/-- Split warm directories into those that are kept and those that cold ones cover. -/
def keepWarm (coldOffsets : Finset PointOffset) (warm : List SegmentDir) :
    List SegmentDir × List SegmentDir :=
  warm.partition fun d => !d.offsets.all (· ∈ coldOffsets)

/-- Split sealed hot directories into those that are kept and those that kept ones before them
cover. -/
def keepSealed : List SegmentDir → Finset PointOffset → List SegmentDir × List SegmentDir
  | [], _ => ([], [])
  | d :: dirs, hotOffsets =>
    if d.offsets.all (· ∈ hotOffsets) then
      let r := keepSealed dirs hotOffsets
      (r.1, d :: r.2)
    else
      let r := keepSealed dirs (hotOffsets ∪ d.offsets.toFinset)
      (d :: r.1, r.2)

/-- Largest first, then by path. -/
def largerFirst (a b : SegmentDir) : Bool :=
  b.offsets.length < a.offsets.length ||
    (a.offsets.length == b.offsets.length && a.path ≤ b.path)

/-- What opening the segments gives: the holder, and which directories are kept and removed. -/
structure OpenedSegments where
  holder : Holder
  keptSealed : List SegmentDir
  keptWarm : List SegmentDir
  keptCold : List SegmentDir
  removed : List SegmentDir

namespace OpenedSegments

/-- The directories that are kept. -/
def kept (o : OpenedSegments) : List SegmentDir := o.keptSealed ++ o.keptWarm ++ o.keptCold

end OpenedSegments

/-- Load the segments and rebuild the mutable one. -/
def openSegments (config : TierConfig) (sealedLoaded warmLoaded coldLoaded : List SegmentDir)
    (records : List (PointOffset × Record)) : Except StorageError OpenedSegments := do
  let warm := keepWarm (dirOffsets coldLoaded) warmLoaded
  let hot := keepSealed (sealedLoaded.insertionSort (largerFirst · ·)) ∅
  let sealedOffsets := dirOffsets coldLoaded ∪ dirOffsets warm.1 ∪ dirOffsets hot.1
  let holder ← fromRecords config sealedOffsets records (new config)
  let holder := hot.1.foldl (fun h d => h.addSealedHot d.offsets) holder
  let holder := warm.1.foldl (fun h d => h.addWarm d.offsets) holder
  let holder := coldLoaded.foldl (fun h d => h.addCold d.offsets) holder
  .ok ⟨holder, hot.1, warm.1, coldLoaded, warm.2 ++ hot.2⟩

/-! ## Covering tests -/

variable {o : PointOffset} {records : List (PointOffset × Record)} {dirs : List SegmentDir}
  {embedding : Embedding} {d : SegmentDir}

/-- The offsets of some directories. -/
lemma mem_dirOffsets :
    o ∈ dirOffsets dirs ↔ ∃ d ∈ dirs, o ∈ d.offsets := by
  simp [dirOffsets]

/-- A removed warm directory is covered by cold ones. -/
lemma covered_of_mem_keepWarm {coldOffsets : Finset PointOffset} {warm : List SegmentDir}
    (hd : d ∈ (keepWarm coldOffsets warm).2)
    (ho : o ∈ d.offsets) : o ∈ coldOffsets := by
  rw [keepWarm, partition_eq_filter_filter] at hd
  have hall := (mem_filter.mp hd).2
  simp only [Function.comp_apply, Bool.not_not, all_eq_true, decide_eq_true_eq] at hall
  exact hall o ho

/-- A removed sealed hot directory is covered by kept ones, or by what was kept before. -/
lemma covered_of_mem_keepSealed {hotOffsets : Finset PointOffset}
    (hd : d ∈ (keepSealed dirs hotOffsets).2) (ho : o ∈ d.offsets) :
    o ∈ hotOffsets ∨ o ∈ dirOffsets (keepSealed dirs hotOffsets).1 := by
  induction dirs generalizing hotOffsets with
  | nil => simp [keepSealed] at hd
  | cons d' dirs ih =>
    rw [keepSealed] at hd ⊢
    split at hd
    · next hall =>
      rw [if_pos hall]
      rcases mem_cons.mp hd with rfl | hd
      · simp only [all_eq_true, decide_eq_true_eq] at hall
        exact .inl (hall o ho)
      · exact ih hd
    · next hall =>
      rw [if_neg hall]
      rcases ih hd with h | h
      · rcases Finset.mem_union.mp h with h | h
        · exact .inl h
        · exact .inr (mem_dirOffsets.mpr ⟨d', by simp, mem_toFinset.mp h⟩)
      · obtain ⟨d'', hd'', ho''⟩ := mem_dirOffsets.mp h
        exact .inr (mem_dirOffsets.mpr ⟨d'', by simp [hd''], ho''⟩)

/-! ## The rebuilt segments -/

/-- A vector of the right dimension can be inserted. -/
lemma HotSegment.exists_insert (seg : HotSegment) (offset : PointOffset)
    (hlen : embedding.length = seg.dim) :
    ∃ seg', seg.insert offset embedding = .ok seg' ∧ seg'.dim = seg.dim ∧
      ∀ o, o ∈ seg'.offsets ↔ o = offset ∨ o ∈ seg.offsets := by
  rw [HotSegment.insert, validateDimension, if_neg (by simp [hlen])]
  refine ⟨_, rfl, ?_⟩
  split
  · next hmem =>
    refine ⟨rfl, fun o => ⟨.inr, ?_⟩⟩
    rintro (rfl | ho)
    · exact hmem
    · exact ho
  · refine ⟨rfl, fun o => ?_⟩
    simp [or_comm]

namespace Holder

/-- Everything that is listed is published. -/
def Published (h : Holder) : Prop := h.published = h.lists.all

/-- Handles are in use at most once, and the next one is not. -/
structure Handles (h : Holder) : Prop where
  fresh : ∀ s ∈ h.lists.all, s.id < h.nextId
  unique : ∀ s ∈ h.lists.all, ∀ s' ∈ h.lists.all, s.id = s'.id → s = s'

variable {config : TierConfig} {h : Holder}

/-- Inserting a vector of the right dimension succeeds: the offset is in the mutable segment,
which keeps what it had. -/
lemma exists_insert (config : TierConfig) (h : Holder) (offset : PointOffset)
    (hlen : embedding.length = h.hot.dim) :
    ∃ full hot, h.insert config offset embedding = .ok (full, { h with hot := hot }) ∧
      hot.dim = h.hot.dim ∧ ∀ o, o ∈ hot.offsets ↔ o = offset ∨ o ∈ h.hot.offsets := by
  obtain ⟨hot, hins, hdim, hmem⟩ := HotSegment.exists_insert h.hot offset hlen
  exact ⟨_, hot, by rw [insert, hins]; rfl, hdim, hmem⟩

/-- Listing a segment under the next handle. -/
lemma Handles.push (hh : h.Handles) {h' : Holder} {offsets : List PointOffset}
    (hnext : h'.nextId = h.nextId + 1)
    (hall : ∀ s, s ∈ h'.lists.all ↔ s = ⟨h.nextId, offsets⟩ ∨ s ∈ h.lists.all) : h'.Handles := by
  constructor
  · intro s hs
    rw [hnext]
    rcases (hall s).mp hs with rfl | hs
    · exact Nat.lt_succ_self _
    · exact Nat.lt_succ_of_lt (hh.fresh s hs)
  · intro s hs s' hs' hid
    rcases (hall s).mp hs with rfl | hs <;> rcases (hall s').mp hs' with rfl | hs'
    · rfl
    · exact absurd hid.symm (hh.fresh s' hs').ne
    · exact absurd hid (hh.fresh s hs).ne
    · exact hh.unique s hs s' hs' hid

/-- Sealing gives a new handle. -/
lemma Handles.sealHot (hh : h.Handles) : (h.sealHot config).Handles := by
  rw [Holder.sealHot, swapHot]
  split
  · exact hh
  · next heq =>
    split at heq
    · cases heq
    · cases heq
      have hpush : (({ h with hot := HotSegment.new config.dimension } : Holder).pushSealing
          h.hot.offsets).Handles :=
        Handles.push
          ⟨hh.fresh, hh.unique⟩ rfl fun _ => mem_all_pushSealing
      exact ⟨hpush.fresh, hpush.unique⟩

/-- Sealing keeps the coverage, and everything listed published. -/
lemma sealHot_covers (hpub : h.Published) (ho : h.Covers o) : (h.sealHot config).Covers o := by
  rw [sealHot, swapHot]
  split
  · exact ho
  · next heq =>
    split at heq
    · cases heq
    · cases heq
      rcases ho with ho | ⟨s, hs, ho⟩
      · exact .inr ⟨⟨h.nextId, h.hot.offsets⟩, by
          simp [publishSnapshot, store, buildSnapshot, pushSealing, SegmentLists.all], ho⟩
      · rw [hpub, SegmentLists.all] at hs
        refine .inr ⟨s, ?_, ho⟩
        simp only [publishSnapshot, store, buildSnapshot, pushSealing, SegmentLists.all,
          mem_append] at hs ⊢
        tauto

/-- It publishes what it seals. -/
lemma sealHot_published (hpub : h.Published) : (h.sealHot config).Published := by
  rw [sealHot]
  split
  · exact hpub
  · rfl

/-- It keeps the dimension. -/
lemma dim_sealHot (hdim : h.hot.dim = config.dimension) :
    (h.sealHot config).hot.dim = config.dimension := by
  rw [sealHot, swapHot]
  split
  · exact hdim
  · next heq =>
    split at heq
    · cases heq
    · cases heq
      rfl

/-- Rebuilding the mutable segment succeeds, loses nothing, and covers every record that is in
no sealed segment. -/
lemma exists_fromRecords (sealedOffsets : Finset PointOffset)
    (hrecords : ∀ p ∈ records, p.2.embedding.length = config.dimension)
    (hdim : h.hot.dim = config.dimension) (hpub : h.Published) (hhandles : h.Handles) :
    ∃ h', fromRecords config sealedOffsets records h = .ok h' ∧ h'.Published ∧ h'.Handles ∧
      (∀ o, h.Covers o → h'.Covers o) ∧ ∀ p ∈ records, p.1 ∉ sealedOffsets → h'.Covers p.1 := by
  induction records generalizing h with
  | nil => exact ⟨h, rfl, hpub, hhandles, fun _ => id, by simp⟩
  | cons p records ih =>
    have hrest : ∀ q ∈ records, q.2.embedding.length = config.dimension :=
      fun q hq => hrecords q (by simp [hq])
    rw [fromRecords]
    by_cases hsealed : p.1 ∈ sealedOffsets
    · obtain ⟨h', heq, hpub', hhandles', hkeep, hcover⟩ := ih hrest hdim hpub hhandles
      refine ⟨h', by rw [if_pos hsealed, heq], hpub', hhandles', hkeep, ?_⟩
      rintro q hq hnot
      rcases mem_cons.mp hq with rfl | hq
      · exact absurd hsealed hnot
      · exact hcover q hq hnot
    · obtain ⟨full, hot, hins, hdim', hmem⟩ :=
        exists_insert config h p.1 ((hrecords p (by simp)).trans hdim.symm)
      -- The record is in the mutable segment, and sealing that does not lose it.
      have hcovers : ∀ o, o = p.1 ∨ h.Covers o →
          (if full then ({ h with hot := hot } : Holder).sealHot config
            else { h with hot := hot }).Covers o := by
        intro o ho
        have : ({ h with hot := hot } : Holder).Covers o := by
          rcases ho with rfl | ho | ho
          · exact .inl ((hmem _).mpr (.inl rfl))
          · exact .inl ((hmem o).mpr (.inr ho))
          · exact .inr ho
        split
        · exact sealHot_covers (h := { h with hot := hot }) hpub this
        · exact this
      obtain ⟨h', heq, hpub', hhandles', hkeep, hcover⟩ := ih
        (h := if full then ({ h with hot := hot } : Holder).sealHot config
          else { h with hot := hot }) hrest
        (by split; exacts [dim_sealHot (hdim'.trans hdim), hdim'.trans hdim])
        (by split; exacts [sealHot_published hpub, hpub])
        (by split; exacts [Handles.sealHot (h := { h with hot := hot }) ⟨hhandles.1, hhandles.2⟩,
          ⟨hhandles.1, hhandles.2⟩])
      refine ⟨h', by rw [if_neg hsealed, hins]; exact heq, hpub', hhandles',
        fun o ho => hkeep o (hcovers o (.inr ho)), ?_⟩
      rintro q hq hnot
      rcases mem_cons.mp hq with rfl | hq
      · exact hkeep _ (hcovers _ (.inl rfl))
      · exact hcover q hq hnot

/-- A call that lists a segment and publishes it. -/
def Adds (add : Holder → List PointOffset → Holder) : Prop :=
  ∀ h offsets, h.Published → h.Handles → (add h offsets).Published ∧ (add h offsets).Handles ∧
    ∀ o, h.Covers o ∨ o ∈ offsets → (add h offsets).Covers o

/-- Listing a segment and publishing the result adds it, if the list grows by it and the others
stay. -/
lemma adds_of_all {push : Holder → List PointOffset → Holder}
    (hhot : ∀ h offsets, (push h offsets).hot = h.hot)
    (hnext : ∀ h offsets, (push h offsets).nextId = h.nextId + 1)
    (hall : ∀ h offsets s, s ∈ (push h offsets).lists.all ↔
      s = ⟨h.nextId, offsets⟩ ∨ s ∈ h.lists.all) :
    Adds fun h offsets => (push h offsets).publishSnapshot := by
  intro h offsets hpub hhandles
  have hpush : (push h offsets).Handles := hhandles.push (hnext h offsets) (hall h offsets)
  refine ⟨rfl, ⟨hpush.1, hpush.2⟩, ?_⟩
  rintro o ((ho | ⟨s, hs, ho⟩) | ho)
  · exact .inl (by simpa [publishSnapshot, store, hhot] using ho)
  · exact .inr ⟨s, (hall h offsets s).mpr (.inr (hpub ▸ hs)), ho⟩
  · exact .inr ⟨⟨h.nextId, offsets⟩, (hall h offsets _).mpr (.inl rfl), ho⟩

/-- One more sealed segment. -/
lemma adds_addSealedHot : Adds addSealedHot :=
  adds_of_all (fun _ _ => rfl) (fun _ _ => rfl) fun _ _ _ => mem_all_pushSealedHot

/-- One more warm segment. -/
lemma adds_addWarm : Adds addWarm :=
  adds_of_all (fun _ _ => rfl) (fun _ _ => rfl) fun _ _ _ => mem_all_pushWarm

/-- One more cold segment. -/
lemma adds_addCold : Adds addCold :=
  adds_of_all (fun _ _ => rfl) (fun _ _ => rfl) fun _ _ _ => mem_all_pushCold

/-- Adding directory after directory. -/
lemma Adds.foldl {add : Holder → List PointOffset → Holder} (hadd : Adds add)
    (dirs : List SegmentDir) (hpub : h.Published) (hhandles : h.Handles) :
    (dirs.foldl (fun h d => add h d.offsets) h).Published ∧
      (dirs.foldl (fun h d => add h d.offsets) h).Handles ∧ ∀ o, h.Covers o ∨ o ∈ dirOffsets dirs →
        (dirs.foldl (fun h d => add h d.offsets) h).Covers o := by
  induction dirs generalizing h with
  | nil => exact ⟨hpub, hhandles, by simp [dirOffsets]⟩
  | cons d dirs ih =>
    obtain ⟨hpub', hhandles', hcover'⟩ := hadd h d.offsets hpub hhandles
    obtain ⟨hpub'', hhandles'', hcover''⟩ := ih hpub' hhandles'
    refine ⟨hpub'', hhandles'', fun o ho => hcover'' o ?_⟩
    simp only [mem_dirOffsets, exists_mem_cons_iff] at ho
    rcases ho with ho | ho | ho
    · exact .inl (hcover' o (.inl ho))
    · exact .inl (hcover' o (.inr ho))
    · exact .inr (mem_dirOffsets.mpr ho)

end Holder

/-! ## Coverage -/

/-- Opening the segments succeeds with a holder that has published everything it lists, under
handles of their own, and covers the records. **Proof sketch.** A record that no kept directory has
is inserted into the mutable segment, and stays published when that is sealed
(`Holder.exists_fromRecords`); kept directories are added one by one (`Holder.Adds.foldl`). -/
lemma exists_openSegments (config : TierConfig)
    (sealedLoaded warmLoaded coldLoaded : List SegmentDir)
    (hdim : ∀ p ∈ records, p.2.embedding.length = config.dimension) :
    ∃ holder, openSegments config sealedLoaded warmLoaded coldLoaded records =
        .ok ⟨holder, (keepSealed (sealedLoaded.insertionSort (largerFirst · ·)) ∅).1,
          (keepWarm (dirOffsets coldLoaded) warmLoaded).1, coldLoaded,
          (keepWarm (dirOffsets coldLoaded) warmLoaded).2 ++
            (keepSealed (sealedLoaded.insertionSort (largerFirst · ·)) ∅).2⟩ ∧
      holder.Published ∧ holder.Handles ∧ ∀ p ∈ records, holder.Covers p.1 := by
  obtain ⟨holder, hfrom, hpub, hhandles, _, hcover⟩ := exists_fromRecords
    (h := new config)
    (dirOffsets coldLoaded ∪ dirOffsets (keepWarm (dirOffsets coldLoaded) warmLoaded).1 ∪
      dirOffsets (keepSealed (sealedLoaded.insertionSort (largerFirst · ·)) ∅).1)
    hdim rfl rfl ⟨by simp [new, SegmentLists.all], by simp [new, SegmentLists.all]⟩
  obtain ⟨hpub₁, hhandles₁, hcover₁⟩ := adds_addSealedHot.foldl
    (keepSealed (sealedLoaded.insertionSort (largerFirst · ·)) ∅).1 hpub hhandles
  obtain ⟨hpub₂, hhandles₂, hcover₂⟩ := adds_addWarm.foldl
    (keepWarm (dirOffsets coldLoaded) warmLoaded).1 hpub₁ hhandles₁
  obtain ⟨hpub₃, hhandles₃, hcover₃⟩ := adds_addCold.foldl coldLoaded hpub₂ hhandles₂
  refine ⟨_, by rw [openSegments]; simp only [hfrom]; rfl, hpub₃, hhandles₃, ?_⟩
  intro p hp
  refine hcover₃ p.1 ?_
  by_cases hsealed : p.1 ∈ dirOffsets coldLoaded ∪
    dirOffsets (keepWarm (dirOffsets coldLoaded) warmLoaded).1 ∪
    dirOffsets (keepSealed (sealedLoaded.insertionSort (largerFirst · ·)) ∅).1
  · rcases Finset.mem_union.mp hsealed with h | h
    · rcases Finset.mem_union.mp h with h | h
      · exact .inr h
      · exact .inl (hcover₂ p.1 (.inr h))
    · exact .inl (hcover₂ p.1 (.inl (hcover₁ p.1 (.inr h))))
  · exact .inl (hcover₂ p.1 (.inl (hcover₁ p.1 (.inl (hcover p hp hsealed)))))

/-- Whatever segment directories there are, opening the segments succeeds, every record is in a
published segment, and a directory removed as superseded has all its offsets in kept ones. **Proof
sketch.** `exists_openSegments` gives the coverage; a removed directory is covered by the test that
removed it. -/
theorem openSegments_covers (config : TierConfig)
    (sealedLoaded warmLoaded coldLoaded : List SegmentDir) (records : List (PointOffset × Record))
    (hdim : ∀ p ∈ records, p.2.embedding.length = config.dimension) :
    ∃ opened, openSegments config sealedLoaded warmLoaded coldLoaded records = .ok opened ∧
      (∀ p ∈ records, opened.holder.Covers p.1) ∧
      ∀ d ∈ opened.removed, ∀ o ∈ d.offsets, ∃ k ∈ opened.kept, o ∈ k.offsets := by
  obtain ⟨holder, hopen, _, _, hcover⟩ :=
    exists_openSegments config sealedLoaded warmLoaded coldLoaded hdim
  refine ⟨_, hopen, hcover, ?_⟩
  intro d hd o ho
  rcases mem_append.mp hd with hd | hd
  · obtain ⟨k, hk, hok⟩ := mem_dirOffsets.mp (covered_of_mem_keepWarm hd ho)
    exact ⟨k, by simp [OpenedSegments.kept, hk], hok⟩
  · rcases covered_of_mem_keepSealed hd ho with h | h
    · simp at h
    · obtain ⟨k, hk, hok⟩ := mem_dirOffsets.mp h
      exact ⟨k, by simp [OpenedSegments.kept, hk], hok⟩

/-- A record of the example below. -/
def leftoverRecord (id : String) : Record where
  id := id
  text := ""
  embedding := [F32.one]
  importance := F32.one
  concepts := []
  createdAt := 0
  insertSeq := 0
  accessCount := 0
  lastAccessed := 0
  tier := .hot
  payload := none
  scope := none
  sourceRole := none

/-- Leftovers of an interrupted merge and of an interrupted compaction, and a record in no
segment. -/
theorem openSegments_covers_leftovers :
    ∃ opened, openSegments ⟨1, 2, 10, 2, 10⟩ [⟨"segment_0", [0]⟩, ⟨"segment_1", [0, 1]⟩]
        [⟨"segment_2", [2]⟩] [⟨"segment_3", [2, 7]⟩]
        [(0, leftoverRecord "a"), (1, leftoverRecord "b"), (2, leftoverRecord "c"),
          (3, leftoverRecord "d")] = .ok opened ∧
      (∀ p ∈ [(0, leftoverRecord "a"), (1, leftoverRecord "b"), (2, leftoverRecord "c"),
          (3, leftoverRecord "d")], opened.holder.Covers p.1) ∧
      ∀ d ∈ opened.removed, ∀ o ∈ d.offsets, ∃ k ∈ opened.kept, o ∈ k.offsets :=
  openSegments_covers ⟨1, 2, 10, 2, 10⟩ _ _ _ _ (by decide)

/-! ## The holder of the engine model -/

/-- What the holder of the engine model has besides sealed segments. -/
def SegmentHolder.view (g : SegmentHolder) : HotSegment × List (List PointOffset) :=
  (g.hot, g.sealingPlain.map HotSegment.offsets)

/-- The same of this holder. -/
def Holder.view (h : Holder) : HotSegment × List (List PointOffset) :=
  (h.hot, h.lists.sealingPlain.map Segment.offsets)

section

variable {c : StoreConfig} {config : TierConfig} {h : Holder} {g : SegmentHolder}
  (hdim : config.dimension = c.dimension) (hcap : config.hotCapacity = c.hotCapacity)
include hdim hcap

/-- Sealing commutes with the view. -/
lemma view_sealHot (hview : h.view = g.view) :
    (h.sealHot config).view = (g.sealHot c).view := by
  obtain ⟨hhot, hplain⟩ := Prod.mk.inj hview
  rw [sealHot, swapHot, SegmentHolder.sealHot, hcap, hhot]
  by_cases hlen : g.hot.offsets.length < c.hotCapacity
  · simpa [hlen] using hview
  · simp [hlen, view, SegmentHolder.view, publishSnapshot, store, pushSealing, hplain, hdim]

/-- Rebuilding the segments over the records commutes with the view: the engine model's holder
is an abstraction of this one. -/
theorem view_fromRecords {sealed : List (List PointOffset)}
    {sealedOffsets : Finset PointOffset} (hsealed : ∀ o, o ∈ sealedOffsets ↔ sealed.any (o ∈ ·))
    (records : List (PointOffset × Record)) (hview : h.view = g.view) :
    (fromRecords config sealedOffsets records h).map view =
      (SegmentHolder.fromRecords c sealed records g).map SegmentHolder.view := by
  induction records generalizing h g with
  | nil => exact congrArg Except.ok hview
  | cons p records ih =>
    obtain ⟨hhot, hplain⟩ := Prod.mk.inj hview
    rw [fromRecords, SegmentHolder.fromRecords]
    by_cases hp : p.1 ∈ sealedOffsets
    · rw [if_pos hp, if_pos ((hsealed p.1).mp hp)]
      exact ih hview
    · rw [if_neg hp, if_neg (mt (hsealed p.1).mpr hp), Holder.insert, SegmentHolder.insert, hhot,
        hcap]
      cases g.hot.insert p.1 p.2.embedding with
      | error e => rfl
      | ok hot =>
        have hview' : ({ h with hot := hot } : Holder).view =
            ({ g with hot := hot } : SegmentHolder).view := congrArg (Prod.mk hot) hplain
        by_cases hfull : c.hotCapacity ≤ hot.offsets.length
        · simpa [bind, Except.bind, Except.map, hfull] using ih (view_sealHot hdim hcap hview')
        · simpa [bind, Except.bind, Except.map, hfull] using ih hview'

end

/-- Of four records one is in a sealed segment, two fill the mutable segment, which is sealed, and
the last is in a new one. -/
theorem view_fromRecords_sealed :
    let r := ["a", "b", "c", "d"].mapIdx fun i id => (i, leftoverRecord id)
    (fromRecords ⟨1, 2, 0, 0, 0⟩ {0} r (new ⟨1, 2, 0, 0, 0⟩)).map view =
      (SegmentHolder.fromRecords ⟨1, 0, false, 2, .sign, .sign⟩ [[0]] r ⟨.new 1, [], []⟩).map
        SegmentHolder.view ∧
    (fromRecords ⟨1, 2, 0, 0, 0⟩ {0} r (new ⟨1, 2, 0, 0, 0⟩)).map view =
      .ok (⟨1, [3], by decide⟩, [[1, 2]]) :=
  ⟨view_fromRecords rfl rfl (by simp) _ rfl, by rfl⟩

end TurboMemory
