import TurboMemory.Engine.Gists
import TurboMemory.Lib.Traces
import TurboMemory.Storage.LazySnapshot

/-!
# The views of the metadata store

`LazyStore` is the metadata store with its three tables. The engine works on its records
(`MetadataStore`), the access counters on its records and rings (`AccessStore`).

## Main results

* `LazyStore.metadata_run` — operations on the store do to the engine's view what they do there.
* `LazyStore.metadata_drainInto`, `LazyStore.accesses_drainInto` — so does a drain of the access
  counters, in both views.
-/

set_option autoImplicit false

namespace TurboMemory

open List
open Std (ExtTreeMap)

namespace LazyStore

/-- The engine's view, with the saved graph. -/
def metadata (C : SnapshotCodec) (graph : Option (List UInt8)) (s : LazyStore) : MetadataStore where
  db := {
    records := s.records.saved.filterMap fun _ => deserialize C.record
    nextOffset := s.savedOffset
    nextSeq := s.savedSeq
    lastAppliedSeq := s.lastAppliedSeq
    graph := graph }
  records := s.records.memory
  dirty := s.records.dirty
  nextOffset := s.nextOffset
  nextSeq := s.nextSeq
  recordCount := s.recordCount

/-- The view of the access counters. -/
def accesses (counters : ExtTreeMap PointOffset AccessEntry) (s : LazyStore) : AccessStore :=
  ⟨(counters[·]?), (s.records.memory[·]?), s.accessHistoryOf⟩

variable {C : SnapshotCodec} {graph : Option (List UInt8)} {s : LazyStore}

/-! ## Operations -/

/-- What an operation does to the records. -/
def onMetadata (m : MetadataStore) : StoreOp → MetadataStore
  | .put offset record => m.put offset record
  | .putMeta offset record => m.putMeta offset record
  | .putBatch records => m.putBatch records
  | .remove offset => m.remove offset
  | .setDemotionFactor .. | .appendAccessHistory .. => m
  | .flush lastAppliedSeq commits => if commits then m.flush lastAppliedSeq else m

/-- A flush that has no record to save has no factor and no ring either: they belong to records. -/
def Attached (s : LazyStore) : StoreOp → Prop
  | .flush .. => s.records.dirty = [] → s.records.memory = ∅ →
      s.demotion.dirty = [] ∧ s.accessHistory.dirty = []
  | _ => True

/-- Batches are put one by one. -/
lemma metadata_putBatch (records : List (PointOffset × Record)) :
    (s.putBatch records).metadata C graph = (s.metadata C graph).putBatch records := by
  induction records generalizing s with
  | nil => rfl
  | cons p records ih => exact ih

/-- The view of an opened store is the opened view. -/
lemma metadata_open {f : SnapshotFile} (h : LazyStore.open C f = some s) :
    s.metadata C graph = MetadataStore.open (s.metadata C graph).db := by
  simp only [LazyStore.open, LazyTable.open, LazyTable.load, Option.bind_eq_bind,
    Option.bind_eq_some_iff, Option.map_eq_some_iff] at h
  obtain ⟨_, ⟨_, hload, rfl⟩, _, -, _, -, h⟩ := h
  cases h
  split at hload
  · cases hload
    rfl
  · cases hload

/-- A flush that commits is one of the view. -/
lemma metadata_flush {lastAppliedSeq : ℕ} {commits : Bool}
    (h : s.Attached (.flush lastAppliedSeq commits)) :
    (s.flush C lastAppliedSeq commits).2.metadata C graph =
      onMetadata (s.metadata C graph) (.flush lastAppliedSeq commits) := by
  unfold LazyStore.flush onMetadata MetadataStore.flush
  cases commits with
  | false => split <;> rfl
  | true =>
    simp only [if_true]
    split
    · next hs =>
      obtain ⟨hdirty, -, -, hlast, hempty⟩ := hs
      exact (if_pos ⟨hdirty, hlast, hempty⟩).symm
    · next hs =>
      refine Eq.trans ?_ (if_neg fun hm => hs ?_).symm
      · simp only [metadata, LazyTable.flush, LazyTable.filterMap_save (deserialize_put C.record)]
        rfl
      · obtain ⟨hdirty, hlast, hempty⟩ := hm
        obtain ⟨hfactors, hrings⟩ := h hdirty hempty
        exact ⟨hdirty, hfactors, hrings, hlast, hempty⟩

/-- Rings are not part of the engine's view. -/
lemma metadata_appendAccessHistory (offset : PointOffset) (timestamps : List ℕ) (maxLen : ℕ) :
    (s.appendAccessHistory offset timestamps maxLen).metadata C graph = s.metadata C graph := by
  unfold LazyStore.appendAccessHistory
  split <;> rfl

/-- The view after one operation. -/
lemma metadata_apply {op : StoreOp} (h : s.Attached op) :
    (s.apply C op).metadata C graph = onMetadata (s.metadata C graph) op := by
  cases op with
  | put => rfl
  | putMeta => rfl
  | putBatch records => exact metadata_putBatch records
  | remove => rfl
  | setDemotionFactor => rfl
  | appendAccessHistory offset timestamps maxLen =>
    exact metadata_appendAccessHistory offset timestamps maxLen
  | flush lastAppliedSeq commits => exact metadata_flush h

/-- **The engine's view** of a run is what the operations make of it. -/
theorem metadata_run (ops : List StoreOp)
    (hops : Traces.Along (LazyStore.apply C) Attached ops s) :
    (s.run C ops).metadata C graph = ops.foldl onMetadata (s.metadata C graph) := by
  induction ops generalizing s with
  | nil => rfl
  | cons op ops ih =>
    rw [foldl_cons, ← metadata_apply hops.1]
    exact ih hops.2

/-! ## Draining access counters -/

/-- Add the accesses of an entry to its record and its ring; those of a record that is gone are
dropped. -/
def drainEntry (historyLen : ℕ) (s : LazyStore) (c : PointOffset × AccessEntry) : LazyStore :=
  if c.2.count = 0 then s
  else match s.records.memory[c.1]? with
    | none => s
    | some record =>
      (s.putMeta c.1 { record with
        accessCount := record.accessCount + c.2.count
        lastAccessed := max record.lastAccessed c.2.lastAccessed }).appendAccessHistory c.1
          c.2.stamps historyLen

/-- Drain access counters. -/
def drainInto (historyLen : ℕ) (counters : List (PointOffset × AccessEntry)) (s : LazyStore) :
    LazyStore :=
  counters.foldl (drainEntry historyLen) s

/-- **The drain of the engine.** -/
theorem metadata_drainInto (historyLen : ℕ) (counters : List (PointOffset × AccessEntry)) :
    (s.drainInto historyLen counters).metadata C graph = Engine.drainInto
      (counters.map fun c => (c.1, c.2.count, c.2.lastAccessed)) (s.metadata C graph) := by
  induction counters generalizing s with
  | nil => rfl
  | cons c counters ih =>
    refine (ih (s := s.drainEntry historyLen c)).trans (congrArg (Engine.drainInto _) ?_)
    have hget : (s.metadata C graph).get c.1 = s.records.memory[c.1]? := rfl
    dsimp only
    rw [hget, drainEntry]
    split
    · rfl
    · cases s.records.memory[c.1]? with
      | none => rfl
      | some record => exact metadata_appendAccessHistory ..

/-- The record and the ring of an offset. -/
def entryAt (s : LazyStore) (o : PointOffset) : Option MetaRecord × List ℕ :=
  (s.records.memory[o]?, s.accessHistoryOf o)

/-- Nothing was counted. -/
lemma drained_none (historyLen : ℕ) (p : Option MetaRecord × List ℕ) :
    AccessEntry.drained historyLen none p = p := by
  rcases p with ⟨_ | record, ring⟩ <;> rfl

/-- A ring that is appended to. -/
lemma accessHistoryOf_appendAccessHistory (offset : PointOffset) (timestamps : List ℕ) (maxLen : ℕ)
    (o : PointOffset) : (s.appendAccessHistory offset timestamps maxLen).accessHistoryOf o =
      if offset = o then TurboMemory.appendAccessHistory maxLen (s.accessHistoryOf o) timestamps
      else s.accessHistoryOf o := by
  unfold LazyStore.appendAccessHistory
  split
  · next hnil => simp [hnil, TurboMemory.appendAccessHistory]
  · simp only [accessHistoryOf, LazyTable.insert, ExtTreeMap.getElem?_insert,
      Std.LawfulEqCmp.compare_eq_iff_eq]
    split
    · next heq => rw [← heq, Option.getD_some]
    · rfl

/-- The record and the ring of the entry's offset are drained, the others stay. -/
lemma entryAt_drainEntry (historyLen : ℕ) (c : PointOffset × AccessEntry) (o : PointOffset) :
    (s.drainEntry historyLen c).entryAt o =
      if c.1 = o then AccessEntry.drained historyLen (some c.2) (s.entryAt o) else s.entryAt o := by
  have hrecords : ∀ s' : LazyStore, (s'.appendAccessHistory c.1 c.2.stamps historyLen).records =
      s'.records := fun s' => by
    unfold LazyStore.appendAccessHistory
    split <;> rfl
  rw [drainEntry]
  by_cases ho : c.1 = o
  · subst ho
    rw [if_pos rfl, entryAt, entryAt]
    cases hr : s.records.memory[c.1]? with
    | none => split <;> simp [AccessEntry.drained, hr]
    | some record =>
      by_cases hcount : c.2.count = 0
      · simp [hcount, hr, AccessEntry.drained]
      · rw [if_neg hcount]
        simp only [AccessEntry.drained, hcount, if_false, hrecords,
          accessHistoryOf_appendAccessHistory, if_true]
        simp [LazyStore.putMeta, LazyTable.insert, accessHistoryOf]
  · rw [if_neg ho]
    split
    · rfl
    · split
      · rfl
      · rw [entryAt, hrecords, accessHistoryOf_appendAccessHistory, if_neg ho]
        simp [entryAt, LazyStore.putMeta, LazyTable.insert, accessHistoryOf,
          ExtTreeMap.getElem?_insert, ho]

/-- All entries of a table are. -/
lemma entryAt_drainInto (historyLen : ℕ) (counters : List (PointOffset × AccessEntry))
    (hnodup : (counters.map Prod.fst).Nodup) (o : PointOffset) :
    (s.drainInto historyLen counters).entryAt o =
      AccessEntry.drained historyLen (counters.lookup o) (s.entryAt o) := by
  induction counters generalizing s with
  | nil => exact (drained_none ..).symm
  | cons c counters ih =>
    rw [map_cons, nodup_cons] at hnodup
    have hrest := ih (s := s.drainEntry historyLen c) hnodup.2
    rw [entryAt_drainEntry] at hrest
    refine hrest.trans ?_
    rw [lookup_cons]
    by_cases ho : c.1 = o
    · have hlast : counters.lookup o = none := lookup_eq_none_iff.mpr fun p hp =>
        bne_iff_ne.mpr fun heq => hnodup.1 ((ho.trans heq) ▸ mem_map_of_mem hp)
      simp [ho, hlast, drained_none]
    · simp [ho, beq_eq_false_iff_ne.mpr (Ne.symm ho)]

/-- **The drain of the access counters.** -/
theorem accesses_drainInto (historyLen : ℕ) (counters : ExtTreeMap PointOffset AccessEntry) :
    (s.drainInto historyLen counters.toList).accesses ∅ =
      (s.accesses counters).drainInto historyLen := by
  have hentry := fun o => entryAt_drainInto (s := s) historyLen counters.toList
    (Grouping.nodup_toList_keys counters) o
  simp only [Grouping.lookup_toList, entryAt] at hentry
  simp only [accesses, AccessStore.drainInto, AccessStore.mk.injEq]
  refine ⟨by funext o; simp, ?_, ?_⟩ <;> funext o
  · exact congrArg Prod.fst (hentry o)
  · exact congrArg Prod.snd (hentry o)

end LazyStore

end TurboMemory
