import TurboMemory.Engine.Recovery

/-!
# What an open gives

After recovery the two guards run and the indexes are rebuilt. The store that comes out of an
open holds, in memory (`Applied`) and on disk, the log that its files held.

## Main results

* `Engine.open_eq_ok_iff` — the stages of an open.
* `DiskHolds.open` — the store that comes out of an open.
* `Durable.findRecordById` — lookups by id answer as the log does.
-/

set_option autoImplicit false

namespace TurboMemory

open Framing CriticalSections

variable {E : Env} {e e' : Engine} {flushed pending : List Entry} {stale : List WalOp}

/-! ## The stages of an open -/

variable {config : StoreConfig}

/-- **The stages of an open**: check the configuration, open the files, recover, pass the guards,
rebuild the indexes. -/
lemma Engine.open_eq_ok_iff {d : Disk} :
    Engine.open E config d = .ok e ↔ config.check = .ok () ∧ ∃ opened recovered,
      openFiles config d = .ok opened ∧
      runAll (exec E Io.ok) (opened.recoverPlan E) (opened.replayedEngine E) = (.ok (), recovered) ∧
      guards opened.metadata.isFresh (opened.replay E).replayed opened.vectors.count recovered
        = .ok () ∧ recovered.rebuild E = .ok e := by
  simp only [Engine.open, bind, Except.bind]
  cases hcheck : config.check with
  | error err => simp
  | ok _ =>
    cases hopen : openFiles config d with
    | error err => simp
    | ok opened =>
      simp only [true_and, Except.ok.injEq]
      rcases hrun : runAll (exec E Io.ok) (opened.recoverPlan E) (opened.replayedEngine E) with
        ⟨_ | _, recovered⟩
      · simp [hrun]
      · cases hguard : guards opened.metadata.isFresh (opened.replay E).replayed
            opened.vectors.count recovered with
        | error err | ok _ => simp [hrun, hguard]

/-- The records that have their vector, unordered. -/
lemma Engine.mem_recordsVec {p : PointOffset × Record} :
    p ∈ e.recordsVec E ↔ e.getRecord p.1 = some p.2 := by
  simp only [recordsVec, List.mem_filterMap, List.mem_insertionSort, (E.iterate_perm _).mem_iff,
    Option.map_eq_some_iff, Prod.exists, Std.ExtTreeMap.mem_toList_iff_getElem?_eq_some, getRecord,
    MetadataStore.get, Option.bind_eq_some_iff]
  constructor
  · rintro ⟨o, m, hm, v, hv, rfl⟩
    exact ⟨m, hm, v, hv, rfl⟩
  · rintro ⟨m, hm, v, hv, hp⟩
    exact ⟨p.1, m, hm, v, hv, by rw [hp]⟩

/-- A listed record has its id. -/
lemma Engine.idOf_of_mem_recordsVec {p : PointOffset × Record} (hp : p ∈ e.recordsVec E) :
    e.metadata.idOf p.1 = some p.2.id := by
  obtain ⟨m, hm, hv⟩ := Option.bind_eq_some_iff.mp (mem_recordsVec.mp hp)
  obtain ⟨v, -, hv⟩ := Option.map_eq_some_iff.mp hv
  exact Option.map_eq_some_iff.mpr ⟨m, hm, by rw [← hv]; rfl⟩

variable {holder : SegmentHolder}

section

variable (h : holder.hot.dim = config.dimension)
include h

/-- Sealing leaves a mutable segment of the right dimension. -/
lemma SegmentHolder.dim_sealHot : (holder.sealHot config).hot.dim = config.dimension := by
  rw [sealHot]
  split
  · exact h
  · rfl

/-- A record of the right dimension is inserted. -/
lemma SegmentHolder.insert_ok (offset : PointOffset) {record : Record}
    (hdim : record.embedding.length = config.dimension) :
    ∃ full holder', holder.insert config offset record = .ok (full, holder') ∧
      holder'.hot.dim = config.dimension := by
  have hlen : record.embedding.length = holder.hot.dim := hdim.trans h.symm
  simp only [insert, HotSegment.insert, validateDimension, hlen, ne_eq, not_true_eq_false,
    if_false, Except.map]
  refine ⟨_, _, rfl, ?_⟩
  show (if _ : _ then _ else _ : HotSegment).dim = _
  split <;> exact h

/-- The segments are rebuilt when every vector has the right dimension. -/
lemma SegmentHolder.fromRecords_ok {sealed : List (List PointOffset)}
    {records : List (PointOffset × Record)}
    (hdim : ∀ p ∈ records, p.2.embedding.length = config.dimension) :
    ∃ holder', fromRecords config sealed records holder = .ok holder' := by
  induction records generalizing holder with
  | nil => exact ⟨holder, rfl⟩
  | cons p records ih =>
    have hrest : ∀ q ∈ records, q.2.embedding.length = config.dimension :=
      fun q hq => hdim q (by simp [hq])
    rw [fromRecords]
    split
    · exact ih h hrest
    · obtain ⟨full, holder', hinsert, hholder'⟩ := insert_ok h p.1 (hdim p (by simp))
      simp only [hinsert, bind, Except.bind]
      refine ih ?_ hrest
      split
      · exact dim_sealHot hholder'
      · exact hholder'

end

/-- **Rebuilding the indexes** changes nothing else. -/
lemma Engine.rebuild_eq (h : e.rebuild E = .ok e') : e' = { e with
    payloadIndex := PayloadIndex.fromMetaRecordsIter E.parseValue (E.iterate e.metadata.records)
    scopeIndex := (E.iterate e.metadata.records).foldl (fun index p => index.add p.1 p.2.scope) {}
    textIndex := (E.iterate e.metadata.records).foldl (fun index p => index.insert p.1 p.2.text) ∅
    idIndex := (e.recordsVec E).foldl (fun index p => index.insert p.2.id p.1) ∅
    graph := rebuildGraph E (e.recordsVec E) e.metadata.db.graph
    segments := e'.segments } := by
  simp only [rebuild, bind, Except.bind] at h
  split at h
  · cases h
  · cases h
    rfl

/-! ## What the store holds -/

/-- The memory of an open store agrees with the log: the cache has its records and the id index
leads to them, and to all of them if every entry is valid. -/
structure Applied (strict : Prop) (e : Engine) (flushed pending : List Entry) : Prop where
  cached : Cached e.metadata flushed pending
  counters : e.accessCounters = ∅
  indexed : ∀ (id : String) (o : PointOffset), e.idIndex[id]? = some o →
    ∃ x ∈ flushed ++ pending, ∃ r, x.adds = some (o, r)
  named : strict → Named (flushed ++ pending) ∧ Indexes e.idIndex (placed (flushed ++ pending))

section

variable (h : Durable E e flushed pending stale)
include h

/-- The record at an offset is the one the log has there. -/
lemma Durable.getRecord (hcached : Cached e.metadata flushed pending) (o : PointOffset) :
    e.getRecord o = (placed (flushed ++ pending))[o]? := by
  rw [Engine.getRecord, MetadataStore.get, hcached.records]
  cases hr : (placed (flushed ++ pending))[o]? with
  | none => rfl
  | some r =>
    obtain ⟨x, hx, hadds⟩ := exists_adds_of_placed hr
    have hcount := h.counted x hx _ hadds
    have hslot := (h.vectors.stored x hx _ hadds).1
    simp only [Option.map_some, Option.bind_some, VectorStore.get, hcount, h.mapped, and_self,
      if_true, hslot, MetaRecord.withEmbedding_ofRecord]

/-- **Lookups by id** answer as the log applied in order does. -/
lemma Durable.findRecordById (happlied : Applied True e flushed pending) (id : String) :
    e.findRecordById id = (applyLog (flushed ++ pending))[id]? := by
  obtain ⟨hnamed, hindex⟩ := happlied.named trivial
  have hagree := getElem?_applyLog_iff hnamed h.logged.ordered id
  ext r
  rw [Engine.findRecordById, hagree, Option.bind_eq_some_iff]
  constructor
  · rintro ⟨o, ho, hr⟩
    rw [h.getRecord happlied.cached] at hr
    obtain ⟨r', hr', hid⟩ := (hindex id o).mp ho
    rw [hr] at hr'
    cases hr'
    exact ⟨hid, o, hr⟩
  · rintro ⟨hid, o, hr⟩
    exact ⟨o, (hindex id o).mpr ⟨r, hr, hid⟩, by rw [h.getRecord happlied.cached, hr]⟩

end

variable {strict : Prop}

/-- The memory of a store whose indexes were just rebuilt. -/
lemma Durable.rebuild (h : Durable E e flushed pending stale)
    (hcached : Cached e.metadata flushed pending) (hcounters : e.accessCounters = ∅)
    (hnamed : strict → Named (flushed ++ pending)) (hrebuild : e.rebuild E = .ok e') :
    Durable E e' flushed pending stale ∧ Applied strict e' flushed pending := by
  have heq := Engine.rebuild_eq hrebuild
  have hmem : ∀ p, p ∈ e.recordsVec E ↔ (placed (flushed ++ pending))[p.1]? = some p.2 := by
    intro p
    rw [Engine.mem_recordsVec, h.getRecord hcached]
  rw [heq]
  refine ⟨{ h with }, hcached, hcounters, ?_, fun hs => ⟨hnamed hs, ?_⟩⟩
  · intro id o ho
    rcases exists_of_getElem?_foldl_insert ho with
      ⟨p, hp, -, rfl⟩ | hempty
    · obtain ⟨x, hx, hadds⟩ := exists_adds_of_placed ((hmem p).mp hp)
      exact ⟨x, hx, p.2, hadds⟩
    · simp at hempty
  · intro id o
    constructor
    · intro ho
      rcases exists_of_getElem?_foldl_insert ho with
        ⟨p, hp, hid, rfl⟩ | hempty
      · exact ⟨p.2, (hmem p).mp hp, hid⟩
      · simp at hempty
    · rintro ⟨r, hr, rfl⟩
      refine getElem?_foldl_insert
        ((hmem (o, r)).mpr hr) ?_
      intro q hq hid
      obtain ⟨index, hindex, -⟩ := (hnamed hs).exists_indexes h.logged.ordered
      exact hindex.unique ((hmem q).mp hq) hr hid

/-- **What an open gives**: a store that holds the log its files held. -/
lemma DiskHolds.open (hconfig : config.Valid) {d : Disk}
    {log : List Entry} (h : DiskHolds E config.dimension d log) (hnamed : strict → Named log)
    (hopen : Engine.open E config d = .ok e) :
    e.config = config ∧ ∃ flushed pending stale, log = flushed ++ pending ∧
      Durable E e flushed pending stale ∧ Applied strict e flushed pending := by
  obtain ⟨flushed, pending, stale, rfl, hinv⟩ := h
  obtain ⟨-, opened, recovered, hfiles, hrun, -, hrebuild⟩ := Engine.open_eq_ok_iff.mp hopen
  obtain ⟨⟨tail, hopened⟩, hcfg, -, -, hcounters⟩ := hinv.openFiles hconfig hfiles
  obtain ⟨recovered', hrun', ⟨flushed', pending', stale', hlog, hdurable, hcached⟩, heq, -⟩ :=
    hopened.recover
  obtain rfl : recovered = recovered' := by
    rw [hrun] at hrun'
    exact (Prod.mk.inj hrun').2
  rw [← hlog] at hnamed ⊢
  refine ⟨?_, flushed', pending', stale', rfl, ?_⟩
  · have hsame := Engine.rebuild_eq hrebuild
    rw [hsame, ← hcfg, heq]
  · exact hdurable.rebuild hcached (by rw [heq]; exact hcounters) hnamed hrebuild

end TurboMemory
