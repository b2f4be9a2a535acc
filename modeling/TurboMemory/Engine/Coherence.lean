import TurboMemory.Engine.BeliefRuns
import TurboMemory.Engine.Openable
import TurboMemory.Search.FilterSemantics

/-!
# The indexes agree with the records

A record is in the metadata, the id index, the payload index, the scope index, the text index, a
segment, the graph and the lexical index. A write enters it into all of them, a delete drops it
from all but the segments, and an open builds the indexes anew from the metadata.

## Main results

* `Engine.applyBatch_ok` — a batch enters its records one after the other.
* `Engine.Coherent.call` — every call that does not fail keeps the indexes coherent.
* `Engine.coherent_of_completed` — the indexes are coherent after any sequence of such calls, and
  a flush and a new open give the same ones again.
* `Engine.allowed_exact` — what a filter and a scope allow a search to see then.

## Implementation notes

A field whose last value was removed keeps an empty table in the payload index, until the next
open. So the payload indexes before and after agree on every lookup of a value
(`PayloadIndex.Agrees`), and need not be equal.
-/

set_option autoImplicit false

namespace TurboMemory

open CriticalSections List Std Option MetadataStore MetaRecord ExtTreeMap PayloadIndex

/-! ## Coherence -/

/-- The same offsets, under the same values. -/
structure PayloadIndex.Agrees (idx idx' : PayloadIndex) : Prop where
  allOffsets : idx'.allOffsets = idx.allOffsets
  keyword : ∀ field k, idx'.keyword.at field k = idx.keyword.at field k
  numeric : ∀ field k, idx'.numeric.at field k = idx.numeric.at field k

/-- Indexes that hold the same payloads agree. -/
lemma PayloadIndex.Holds.agrees {parse : JsonParser} {idx idx' : PayloadIndex}
    {indexed : PointOffset → Option (Option String)} (h : idx.Holds parse indexed)
    (h' : idx'.Holds parse indexed) : idx.Agrees idx' where
  allOffsets := by
    ext d
    rw [h.mem_allOffsets, h'.mem_allOffsets]
  keyword field k := by
    ext d
    exact (h'.mem_part keywords field k d).trans
      (h.mem_part keywords field k d).symm
  numeric field k := by
    ext d
    exact (h'.mem_part numbers field k d).trans
      (h.mem_part numbers field k d).symm

namespace Engine

/-- An id that some record has. -/
def Live (e : Engine) (id : String) : Prop := ∃ o, e.metadata.idOf o = some id

/-- Every index holds exactly the records of the metadata. -/
structure Coherent (E : Env) (e : Engine) : Prop where
  /-- The id index leads from every live id to its record, and from no other. -/
  ids : ∀ (id : String) (o : PointOffset), e.idIndex[id]? = some o ↔ e.metadata.idOf o = some id
  payload : e.payloadIndex.Holds E.parseValue (e.metadata.column payload)
  scope : e.scopeIndex.Holds (e.metadata.column scope)
  /-- The record count is the number of records, and what a flush would miss is dirty. -/
  clean : e.metadata.Clean
  allocated : ∀ o id, e.metadata.idOf o = some id → o < e.metadata.nextOffset
  graph : e.graph.graph.Ok
  memories : ∀ id, id ∈ e.graph.graph.memoryIds ↔ e.Live id
  documents : ∀ id, id ∈ e.graph.bm25.docs ↔ e.Live id

/-- Every record is in a segment. -/
def Covered (e : Engine) : Prop := ∀ o id, e.metadata.idOf o = some id → e.segments.Owns o

variable {E : Env} {e e' : Engine}

/-- The live ids are those of the id index. -/
lemma live_iff (hids : ∀ id o,
      e.idIndex[id]? = some o ↔ e.metadata.idOf o = some id) (id : String) :
    e.Live id ↔ id ∈ e.idIndex := by
  rw [mem_iff_isSome_getElem?, isSome_iff_exists]
  exact exists_congr fun o => (hids id o).symm

/-- Live ids are those of the index. -/
lemma Coherent.live_iff (h : e.Coherent E) (id : String) : e.Live id ↔ id ∈ e.idIndex :=
  Engine.live_iff h.ids id

variable {o : PointOffset} {p : PointOffset × Record}

/-- An offset with a record has its id. -/
lemma provenance_isSome_iff {m : MetadataStore} :
    (∃ a, m.records.provenance o = some a) ↔ ∃ id, m.idOf o = some id := by
  simp only [Records.provenance, idOf, map_eq_some_iff]
  constructor <;> rintro ⟨_, r, hr, _⟩ <;> exact ⟨_, r, hr, rfl⟩

/-- New offsets are above all records. -/
lemma Coherent.fresh (h : e.Coherent E) (o : PointOffset) (a : Provenance)
    (ho : e.metadata.records.provenance o = some a) : o < e.metadata.nextOffset := by
  obtain ⟨id, hid⟩ := provenance_isSome_iff.mp ⟨a, ho⟩
  exact h.allocated o id hid

/-! ## Steps -/

/-- Steps that neither enter nor drop a record. -/
lemma Coherent.still (h : e.Coherent E) (hstill : Still e e') : e'.Coherent E := by
  have hid : e'.metadata.idOf = e.metadata.idOf := hstill.column MetaRecord.id fun _ _ _ => rfl
  have hlive : ∀ id, e'.Live id ↔ e.Live id := fun id => by rw [Live, Live, hid]
  constructor
  · rw [hstill.idIndex, hid]
    exact h.ids
  · rw [hstill.payloadIndex, hstill.column MetaRecord.payload fun _ _ _ => rfl]
    exact h.payload
  · rw [hstill.scopeIndex, hstill.column MetaRecord.scope fun _ _ _ => rfl]
    exact h.scope
  · exact hstill.clean h.clean
  · rw [hid, hstill.nextOffset]
    exact h.allocated
  · rw [hstill.graph]
    exact h.graph
  · intro id
    rw [hstill.graph, hlive, h.memories]
  · intro id
    rw [hstill.graph, hlive, h.documents]

/-- The same offsets and segments. -/
lemma Covered.still (h : e.Covered) (hstill : Still e e') : e'.Covered := by
  intro o id ho
  have hid : e'.metadata.idOf = e.metadata.idOf := hstill.column MetaRecord.id fun _ _ _ => rfl
  rw [hid] at ho
  exact hstill.owns o (h o id ho)

/-- Taking offsets and sequence numbers. -/
lemma Coherent.allocate (h : e.Coherent E) (clock : ℕ → ℕ) (ps : List PreparedRecord) :
    ({ e with metadata := (allocateAll clock 0 ps e.metadata).2 } : Engine).Coherent E := by
  rw [allocateAll_snd]
  exact { h with
    clean := { h.clean with }
    allocated := fun o id ho => (h.allocated o id ho).trans_le (Nat.le_add_right _ _) }

/-- Taking numbers keeps it. -/
lemma Covered.allocate (h : e.Covered) (clock : ℕ → ℕ) (ps : List PreparedRecord) :
    ({ e with metadata := (allocateAll clock 0 ps e.metadata).2 } : Engine).Covered := by
  rw [allocateAll_snd]
  exact h

/-- Enter a record everywhere but into a segment. -/
def enter (E : Env) (e : Engine) (p : PointOffset × Record) : Engine :=
  { e with
    metadata := e.metadata.put p.1 p.2
    idIndex := e.idIndex.insert p.2.id p.1
    payloadIndex := (e.payloadIndex.add E.parseValue p.1 p.2.payload).2
    scopeIndex := e.scopeIndex.add p.1 p.2.scope
    textIndex := e.textIndex.insert p.1 p.2.text
    graph := addToGraph E e.graph p }

/-- An entered record has its id. -/
lemma idOf_enter (p : PointOffset × Record) :
    (e.enter E p).metadata.idOf = Function.update e.metadata.idOf p.1 (some p.2.id) :=
  e.metadata.column_putMeta MetaRecord.id p.1 (MetaRecord.ofRecord p.2)

/-- **Entering a record** at a free place under a new id. -/
lemma Coherent.enter (h : e.Coherent E) (hnew : p.2.id ∉ e.idIndex)
    (hfree : e.metadata.idOf p.1 = none) (hallocated : p.1 < e.metadata.nextOffset)
    (hbound : e.metadata.nextOffset ≤ 2 ^ 32) : (e.enter E p).Coherent E := by
  have hoffset : p.1 < 2 ^ 32 := hallocated.trans_le hbound
  have hnone : e.metadata.get p.1 = none := map_eq_none_iff.mp hfree
  have hcolumn : ∀ {α : Type} (f : MetaRecord → α), e.metadata.column f p.1 = none :=
    fun f => map_eq_none_iff.mpr hnone
  have hids : ∀ id o,
      (e.enter E p).idIndex[id]? = some o ↔ (e.enter E p).metadata.idOf o = some id := by
    intro id o
    have hother : e.metadata.idOf o ≠ some p.2.id := by
      intro heq
      exact hnew ((h.live_iff _).mp ⟨o, heq⟩)
    rw [idOf_enter, Function.update_apply]
    show (e.idIndex.insert p.2.id p.1)[id]? = some o ↔ _
    rw [ExtTreeMap.getElem?_insert]
    by_cases hid : p.2.id = id <;> by_cases ho : o = p.1
    · simp [hid, ho]
    · simpa [hid, ho, Ne.symm ho] using hid ▸ hother
    · have hne : e.idIndex[id]? ≠ some p.1 := by
        rw [Ne, h.ids, hfree]
        simp
      simpa [hid, ho, LawfulEqCmp.compare_eq_iff_eq] using hne
    · simpa [hid, ho, LawfulEqCmp.compare_eq_iff_eq] using h.ids id o
  have hlive : ∀ id, (e.enter E p).Live id ↔ id = p.2.id ∨ e.Live id := by
    intro id
    rw [Engine.live_iff hids, h.live_iff]
    show id ∈ e.idIndex.insert p.2.id p.1 ↔ _
    rw [mem_insert, LawfulEqCmp.compare_eq_iff_eq, eq_comm]
  have hgraph : (e.enter E p).graph.graph.Ok := h.graph.addMemoryScoped ..
  refine ⟨hids, ?_, ?_, h.clean.put p.1 p.2, ?_, hgraph, fun id => ?_, fun id => ?_⟩
  · show (e.payloadIndex.add E.parseValue p.1 p.2.payload).2.Holds E.parseValue
      ((e.metadata.put p.1 p.2).column MetaRecord.payload)
    rw [put, column_putMeta]
    exact h.payload.add (hcolumn _) hoffset _
  · show (e.scopeIndex.add p.1 p.2.scope).Holds ((e.metadata.put p.1 p.2).column MetaRecord.scope)
    rw [put, column_putMeta]
    exact h.scope.add (hcolumn _) hoffset _
  · intro o id ho
    rw [idOf_enter, Function.update_apply] at ho
    split at ho
    · next heq => exact heq ▸ hallocated
    · exact h.allocated o id ho
  · rw [hgraph.mem_memoryIds, hlive]
    by_cases hid : id = p.2.id
    · subst hid
      exact iff_of_true (h.graph.exists_key_addMemoryScoped ..) (.inl rfl)
    · have hkey : (e.enter E p).graph.graph.interner.keyToId[memKey id]? =
          e.graph.graph.interner.keyToId[memKey id]? :=
        h.graph.getElem?_keyToId_addMemoryScoped _ _ _ _ _ _ hid
      simp only [hid, false_or, hkey]
      rw [← h.memories, h.graph.mem_memoryIds]
  · show id ∈ (e.graph.bm25.add E.arith p.2.id p.2.text).docs ↔ _
    rw [Bm25Index.docs_add, mem_insert, h.documents, hlive,
      LawfulEqCmp.compare_eq_iff_eq, eq_comm]

variable {records : List (PointOffset × Record)}

/-- What is left of a batch after its first record. -/
lemma Enterable.tail (h : e.Enterable (p :: records)) : (e.enter E p).Enterable records := by
  obtain ⟨hid, hnodup⟩ := nodup_cons.mp h.nodup
  obtain ⟨hlt, hordered⟩ := pairwise_cons.mp h.ordered
  refine ⟨hnodup, hordered, ?_, ?_, fun q hq => h.allocated q (mem_cons_of_mem p hq)⟩
  · intro q hq
    show q.2.id ∉ e.idIndex.insert p.2.id p.1
    rw [mem_insert, LawfulEqCmp.compare_eq_iff_eq]
    rintro (heq | hmem)
    · exact hid (mem_map.mpr ⟨q, hq, heq.symm⟩)
    · exact h.unknown q (mem_cons_of_mem p hq) hmem
  · intro q hq
    have hfree := h.free q (mem_cons_of_mem p hq)
    unfold Records.provenance at hfree ⊢
    show ((e.metadata.putMeta p.1 _).records[q.1]?).map _ = none
    rw [getElem?_records_putMeta, if_neg (hlt q hq).ne]
    exact hfree

/-- Entering the records of a batch. -/
lemma Coherent.enterAll (h : e.Coherent E)
    (henter : e.Enterable records) (hbound : e.metadata.nextOffset ≤ 2 ^ 32) :
    (records.foldl (Engine.enter E) e).Coherent E := by
  induction records generalizing e with
  | nil => exact h
  | cons p records ih =>
    have hfree : e.metadata.idOf p.1 = none := by
      refine eq_none_iff_forall_not_mem.mpr fun id hid => ?_
      obtain ⟨a, ha⟩ := provenance_isSome_iff.mpr ⟨id, hid⟩
      rw [henter.free p mem_cons_self] at ha
      cases ha
    exact ih (h.enter (henter.unknown p mem_cons_self) hfree
      (henter.allocated p mem_cons_self) hbound) henter.tail hbound

/-- What entering records one after the other does to each part. -/
lemma foldl_enter (records : List (PointOffset × Record)) (e : Engine) :
    records.foldl (enter E) e = { e with
      metadata := e.metadata.putBatch records
      idIndex := indexIds e.idIndex records
      payloadIndex := records.foldl
        (fun idx p => (idx.add E.parseValue p.1 p.2.payload).2) e.payloadIndex
      scopeIndex := records.foldl (fun idx p => idx.add p.1 p.2.scope) e.scopeIndex
      textIndex := records.foldl (fun index p => index.insert p.1 p.2.text) e.textIndex
      graph := records.foldl (addToGraph E) e.graph } := by
  induction records generalizing e with
  | nil => rfl
  | cons p records ih =>
    rw [foldl_cons, ih]
    rfl

/-- Indexing that does not fail. -/
lemma runAll_indexRecord_ok (h : runAll (indexRecord E) records e = (.ok (), e')) : e' = { e with
      idIndex := indexIds e.idIndex records
      payloadIndex := records.foldl
        (fun idx p => (idx.add E.parseValue p.1 p.2.payload).2) e.payloadIndex
      scopeIndex := records.foldl (fun idx p => idx.add p.1 p.2.scope) e.scopeIndex } := by
  induction records generalizing e with
  | nil => exact (Prod.mk.inj h).2.symm
  | cons p records ih =>
    rw [runAll] at h
    split at h
    · next e₁ hone =>
      simp only [indexRecord] at hone
      split at hone
      · cases hone
      · next payloadIndex hadd =>
        obtain rfl := (Prod.mk.inj hone).2
        rw [ih h]
        simp only [foldl_cons, hadd]
        rfl
    · cases h

variable {io : Io} {r : Except StorageError Unit} {plan : List Action}

/-- **A batch enters its records one after the other**, and then puts them into segments. -/
lemma applyBatch_ok (h : e.applyBatch E io records = (.ok (), e')) :
    e' = { records.foldl (enter E) e with segments := e'.segments } ∧
    e.segments.insertAll e.config records false = (.ok (), e'.segments) := by
  simp only [applyBatch] at h
  split at h
  · cases h
  · next e₁ hindex =>
    have heq := runAll_indexRecord_ok hindex
    split at h
    · cases h
    · obtain ⟨hok, rfl⟩ := Prod.mk.inj h
      rw [heq] at hok ⊢
      refine ⟨?_, Prod.ext hok rfl⟩
      rw [foldl_enter]

/-- **Dropping a record** that the id index leads to. -/
lemma Coherent.removeFromIndexes (h : e.Coherent E) {id : String} {offset : PointOffset}
    (hid : e.idIndex[id]? = some offset) : (e.removeFromIndexes E id offset).Coherent E := by
  obtain ⟨r, hr, hname⟩ := map_eq_some_iff.mp ((h.ids id offset).mp hid)
  have hget : e.metadata.get offset = some r := hr
  have heq : e.removeFromIndexes E id offset = { e with
      metadata := e.metadata.remove offset
      idIndex := e.idIndex.erase id
      payloadIndex := e.payloadIndex.remove E.parseValue offset r.payload
      scopeIndex := e.scopeIndex.remove offset r.scope
      textIndex := e.textIndex.erase offset
      graph := e.graph.removeMemory id } := by
    rw [Engine.removeFromIndexes, hget]
    rfl
  have hcolumn : ∀ {α : Type} (f : MetaRecord → α), e.metadata.column f offset = some (f r) :=
    fun f => by rw [column, hget, map_some]
  have hidOf : (e.metadata.remove offset).idOf = Function.update e.metadata.idOf offset none :=
    e.metadata.column_remove MetaRecord.id offset
  have hids : ∀ id' o, (e.removeFromIndexes E id offset).idIndex[id']? =
      some o ↔ (e.removeFromIndexes E id offset).metadata.idOf o = some id' := by
    intro id' o
    rw [heq]
    show (e.idIndex.erase id)[id']? = some o ↔ (e.metadata.remove offset).idOf o = some id'
    rw [hidOf, Function.update_apply, getElem?_erase]
    simp only [LawfulEqCmp.compare_eq_iff_eq]
    by_cases hid' : id = id' <;> by_cases ho : o = offset
    · simp [hid', ho]
    · -- No other record has the id.
      have hne : e.metadata.idOf o ≠ some id := by
        intro hother
        rw [← h.ids, hid] at hother
        exact ho (some.inj hother).symm
      simpa [hid', ho] using hid' ▸ hne
    · have hne : e.idIndex[id']? ≠ some offset := by
        rw [Ne, h.ids, (h.ids id offset).mp hid]
        simpa using hid'
      simpa [hid', ho] using hne
    · simpa [hid', ho] using h.ids id' o
  have hlive : ∀ id', (e.removeFromIndexes E id offset).Live id' ↔ id ≠ id' ∧ e.Live id' := by
    intro id'
    rw [Engine.live_iff hids, h.live_iff, heq]
    show id' ∈ e.idIndex.erase id ↔ _
    rw [mem_erase, Ne, LawfulEqCmp.compare_eq_iff_eq]
  have hgraph : (e.removeFromIndexes E id offset).graph.graph.Ok := by
    rw [heq]
    exact h.graph.removeMemory id
  refine ⟨hids, ?_, ?_, ?_, ?_, hgraph, fun id' => ?_, fun id' => ?_⟩
  · rw [heq]
    show (e.payloadIndex.remove E.parseValue offset r.payload).Holds E.parseValue
      ((e.metadata.remove offset).column MetaRecord.payload)
    rw [column_remove]
    exact h.payload.remove (hcolumn _)
  · rw [heq]
    show (e.scopeIndex.remove offset r.scope).Holds
      ((e.metadata.remove offset).column MetaRecord.scope)
    rw [column_remove]
    exact h.scope.remove (hcolumn _)
  · rw [heq]
    exact h.clean.remove offset
  · intro o id' ho
    rw [heq] at ho ⊢
    change (e.metadata.remove offset).idOf o = some id' at ho
    rw [hidOf, Function.update_apply] at ho
    split at ho
    · cases ho
    · exact h.allocated o id' ho
  · have hkey : (e.removeFromIndexes E id offset).graph.graph.interner.keyToId[memKey id']? =
        if id = id' then none else e.graph.graph.interner.keyToId[memKey id']? := by
      rw [heq]
      exact MemoryGraph.getElem?_keyToId_removeMemory ..
    rw [hgraph.mem_memoryIds, hlive, hkey, ← h.memories, h.graph.mem_memoryIds]
    by_cases hid' : id = id' <;> simp [hid']
  · rw [hlive, ← h.documents, heq]
    show id' ∈ (e.graph.bm25.remove id).docs ↔ _
    rw [Bm25Index.docs_remove, mem_erase, Ne, LawfulEqCmp.compare_eq_iff_eq]

/-- Dropping a record keeps it. -/
lemma Covered.removeFromIndexes (h : e.Covered) (id : String) (offset : PointOffset) :
    (e.removeFromIndexes E id offset).Covered := by
  intro o id' ho
  have hsegments : (e.removeFromIndexes E id offset).segments = e.segments := by
    unfold Engine.removeFromIndexes
    split <;> rfl
  obtain ⟨hsame, -⟩ := removeFromIndexes_spec e id offset
  rw [hsegments]
  rw [hsame.metadata] at ho
  change (e.metadata.remove offset).idOf o = some id' at ho
  rw [idOf, getElem?_records_remove] at ho
  split at ho
  · cases ho
  · exact h o id' ho

/-- **Applying a batch** that can be entered. -/
lemma Coherent.applyBatch (h : e.Coherent E) (hcovered : e.Covered) (henter : e.Enterable records)
    (hbound : e.metadata.nextOffset ≤ 2 ^ 32)
    (happly : e.applyBatch E io records = (.ok (), e')) : e'.Coherent E ∧ e'.Covered := by
  obtain ⟨heq, hsegments⟩ := applyBatch_ok happly
  have hall := h.enterAll henter hbound
  have hmeta : e'.metadata = e.metadata.putBatch records := by
    rw [heq, foldl_enter]
  constructor
  · rw [heq]
    exact { hall with }
  · intro o id ho
    obtain ⟨hnew, hold⟩ := SegmentHolder.owns_insertAll hsegments
    obtain ⟨r, hr, hname⟩ := map_eq_some_iff.mp ho
    rw [hmeta, records_putBatch] at hr
    rcases exists_of_getElem?_foldl_insert hr with
      ⟨p, hp, rfl, -⟩ | hr
    · exact hnew p hp
    · exact hold o (hcovered o id (map_eq_some_iff.mpr ⟨r, hr, hname⟩))

/-! ## Calls -/

/-- A plan takes no offset. -/
lemma nextOffset_runAll
    (h : runAll (exec E io) plan e = (r, e')) : e'.metadata.nextOffset = e.metadata.nextOffset := by
  have hkept : (runAll (exec E io) plan e).2.metadata.nextOffset = e.metadata.nextOffset :=
    runAll_preserves
      (fun a _ s hs => (counters_exec E io s a).1.trans hs) rfl
  rwa [h] at hkept

variable {q : Request}

/-- Offsets only grow. -/
lemma nextOffset_call {reply : Except StorageError Reply}
    (h : e.call E io q = (reply, e')) : e.metadata.nextOffset ≤ e'.metadata.nextOffset := by
  unfold call perform at h
  split at h
  · obtain rfl := (Prod.mk.inj h).2
    exact le_rfl
  next start plan _ hbegin =>
  have hstart : e.metadata.nextOffset ≤ start.metadata.nextOffset := by
    cases begun_of_begin hbegin with
    | inserts clock ps | replace now p =>
      rw [allocateAll_snd]
      exact Nat.le_add_right _ _
    | delete | flush => exact le_rfl
  split at h <;> next hrun =>
    obtain rfl := (Prod.mk.inj h).2
    rw [nextOffset_runAll hrun]
    exact hstart

/-- Steps that neither enter nor drop a record. -/
lemma still_runAll (hplain : ∀ a ∈ plan, a.plain = true) (h : runAll (exec E io) plan e = (r, e')) :
    Still e e' := by
  have hrun : Still e (runAll (exec E io) plan e).2 :=
    runAll_preserves
      (fun a ha s hs => hs.trans (still_exec E io s (hplain a ha))) (.refl e)
  rwa [h] at hrun

/-- A run of one step. -/
lemma runAll_singleton {a : Action} (h : runAll (exec E io) [a] e = (.ok (), e')) :
    e.exec E io a = (.ok (), e') := by
  rw [runAll] at h
  split at h
  · next hexec =>
    rw [hexec]
    exact h
  · cases h

variable {reply : Reply}

/-- **Every call that does not fail** keeps the indexes coherent. -/
lemma Coherent.call (h : e.Coherent E) (hcovered : e.Covered) {r : Request}
    (hcall : e.call E io r = (.ok reply, e')) (hbound : e'.metadata.nextOffset ≤ 2 ^ 32) :
    e'.Coherent E ∧ e'.Covered := by
  unfold Engine.call perform at hcall
  split at hcall
  · obtain rfl := (Prod.mk.inj hcall).2
    exact ⟨h, hcovered⟩
  next start plan reply' hbegin =>
  split at hcall
  · next e₁ hrun =>
    obtain rfl : e₁ = e' := (Prod.mk.inj hcall).2
    rw [nextOffset_runAll hrun] at hbound
    cases begun_of_begin hbegin with
    | inserts clock ps hnodup hnew hdim hparses =>
      have henter := enterable_allocateAll clock hnodup hnew h.fresh
      rw [writePlan, append_nil] at hrun
      obtain ⟨s₁, hfirst, hlast⟩ := runAll_append_ok hrun
      have hstill := still_runAll (BeliefEngine.plain_writePlan _ _) hfirst
      exact ((h.allocate clock ps).still hstill).applyBatch
        ((hcovered.allocate clock ps).still hstill) (henter.still hstill)
        (hstill.nextOffset ▸ hbound) (runAll_singleton hlast)
    | replace now p oldOffset hid hdim =>
      rw [writePlan, append_assoc] at hrun
      obtain ⟨s₁, hfirst, hrest⟩ := runAll_append_ok hrun
      have hstill := still_runAll (BeliefEngine.plain_writePlan _ _) hfirst
      obtain ⟨s₂, hdrop, hlast⟩ := runAll_append_ok hrest
      obtain rfl := (Prod.mk.inj (runAll_singleton hdrop)).2
      have hnext' := (counters_exec E io s₁ (.removeFromIndexes p.id oldOffset)).1.trans
        hstill.nextOffset
      have hfree : s₁.metadata.records.provenance e.metadata.nextOffset = none := by
        rw [hstill.provenance, allocateAll_snd]
        exact provenance_eq_none h.fresh le_rfl
      have hallocated : e.metadata.nextOffset < s₁.metadata.nextOffset := by
        rw [hstill.nextOffset, allocateAll_snd]
        exact Nat.lt_succ_self _
      have henter : (s₁.removeFromIndexes E (p.intoRecord now e.metadata.nextSeq).id
          oldOffset).Enterable [(e.metadata.nextOffset, p.intoRecord now e.metadata.nextSeq)] :=
        enterable_replacement _ hfree hallocated
      exact (((h.allocate _ _).still hstill).removeFromIndexes (hstill.idIndex ▸ hid)).applyBatch
        (((hcovered.allocate _ _).still hstill).removeFromIndexes p.id oldOffset) henter
        (hnext' ▸ hbound) (runAll_singleton hlast)
    | delete id offset hid =>
      change runAll (exec E io) ([.log [.delete offset id]] ++ [.removeFromIndexes id offset]) e =
        _ at hrun
      obtain ⟨s₁, hfirst, hlast⟩ := runAll_append_ok hrun
      have hstill := still_runAll (by simp [Action.plain]) hfirst
      obtain rfl := (Prod.mk.inj (runAll_singleton hlast)).2
      exact ⟨(h.still hstill).removeFromIndexes (hstill.idIndex ▸ hid),
        (hcovered.still hstill).removeFromIndexes id offset⟩
    | flush =>
      have hstill := still_runAll (by simp [Action.plain]) hrun
      exact ⟨h.still hstill, hcovered.still hstill⟩
  · cases hcall

/-! ## Rebuilding -/

/-- The records, listed in any order, have offsets of their own. -/
lemma nodup_iterate (E : Env) (records : Records) : ((E.iterate records).map Prod.fst).Nodup := by
  refine ((E.iterate_perm records).map Prod.fst).nodup_iff.mpr ?_
  refine pairwise_map.mpr (records.distinct_keys_toList.imp fun hne heq => hne ?_)
  exact LawfulEqCmp.compare_eq_iff_eq.mpr heq

/-- What is indexed after an index is built from the records. -/
lemma indexing_iterate {α : Type} (E : Env) (m : MetadataStore) (f : MetaRecord → α) :
    indexing Prod.fst (fun p => f p.2) (E.iterate m.records) (fun _ => none) = m.column f := by
  funext o
  refine ext fun x => ?_
  rw [indexing_eq_some_iff (nodup_iterate E m.records) fun _ _ => rfl, column,
    MetadataStore.get, map_eq_some_iff]
  simp only [reduceCtorEq, false_or]
  constructor
  · rintro ⟨p, hp, rfl, rfl⟩
    rw [(E.iterate_perm _).mem_iff] at hp
    exact ⟨p.2, mem_toList_iff_getElem?_eq_some.mp hp, rfl⟩
  · rintro ⟨r, hr, rfl⟩
    refine ⟨(o, r), (E.iterate_perm _).mem_iff.mpr ?_, rfl, rfl⟩
    exact mem_toList_iff_getElem?_eq_some.mpr hr

variable {r : Engine}

section

variable (hrebuild : r.rebuild E = .ok e)
include hrebuild

/-- The payload and scope indexes that an open builds hold the records. -/
lemma holds_rebuild (hbound : ∀ o id, r.metadata.idOf o = some id → o < 2 ^ 32) :
    e.payloadIndex.Holds E.parseValue (e.metadata.column payload) ∧
    e.scopeIndex.Holds (e.metadata.column scope) := by
  have heq := rebuild_eq hrebuild
  have hoffset : ∀ p ∈ E.iterate r.metadata.records, p.1 < 2 ^ 32 := by
    intro p hp
    rw [(E.iterate_perm _).mem_iff] at hp
    refine hbound p.1 p.2.id ?_
    rw [idOf, mem_toList_iff_getElem?_eq_some.mp hp, map_some]
  have hmeta : e.metadata = r.metadata := by rw [heq]
  rw [hmeta, ← indexing_iterate E r.metadata payload, ← indexing_iterate E r.metadata scope, heq]
  constructor
  · exact holds_foldl
      (fun p hp idx f h hfresh => h.add hfresh (hoffset p hp) p.2.payload)
      (nodup_iterate E _) holds_empty fun _ _ => rfl
  · exact holds_foldl
      (fun p hp idx f h hfresh => h.add hfresh (hoffset p hp) p.2.scope)
      (nodup_iterate E _) ScopeIndex.holds_empty fun _ _ => rfl

/-- The id index that an open builds leads to records of that id. -/
lemma idOf_rebuild {id : String} (ho : e.idIndex[id]? = some o) : e.metadata.idOf o = some id := by
  rw [rebuild_eq hrebuild] at ho ⊢
  rcases exists_of_getElem?_foldl_insert ho with ⟨p, hp, rfl, rfl⟩ | hempty
  · exact idOf_of_mem_recordsVec hp
  · simp at hempty

/-- The id index that an open builds leads to the records, if each has an id of its own and its
vector. -/
lemma ids_rebuild
    (hunique : ∀ o o' id, r.metadata.idOf o = some id → r.metadata.idOf o' = some id → o = o')
    (hvectors : ∀ o m, r.metadata.get o = some m → ∃ v, r.vectors.get o = some v)
    (id : String) (o : PointOffset) : e.idIndex[id]? = some o ↔ e.metadata.idOf o = some id := by
  refine ⟨idOf_rebuild hrebuild, fun ho => ?_⟩
  rw [rebuild_eq hrebuild] at ho ⊢
  obtain ⟨m, hm, rfl⟩ := map_eq_some_iff.mp ho
  obtain ⟨v, hv⟩ := hvectors o m hm
  have hmem : (o, m.withEmbedding v) ∈ r.recordsVec E := by
    refine mem_recordsVec.mpr ?_
    show (r.metadata.records[o]?).bind _ = _
    rw [hm, bind_some, hv, map_some]
  refine getElem?_foldl_insert hmem fun q hq heq => hunique q.1 o m.id ?_ ho
  exact (idOf_of_mem_recordsVec hq).trans (congrArg some heq)

end

/-! ## Runs -/

/-- The stores that calls which did not fail lead to from a new one. -/
inductive Completed (E : Env) (config : StoreConfig) : Engine → Prop
  | new {e : Engine} (hopen : Engine.open E config {} = .ok e) : Completed E config e
  | call {e e' : Engine} {io : Io} {r : Request} {reply : Reply} (hrun : Completed E config e)
      (hcall : e.call E io r = (.ok reply, e')) : Completed E config e'

variable {config : StoreConfig}

/-- A new store has no records, and its indexes are empty. -/
lemma coherent_new (hopen : Engine.open E config {} = .ok e) : e.Coherent E ∧ e.Covered := by
  obtain ⟨r, -, hmeta, hrebuild⟩ := metadata_open (.absent rfl) hopen
  obtain ⟨hget, -, hgraph, hclean⟩ := BeliefEngine.open_blank hopen
  have hidOf : ∀ o id, e.metadata.idOf o ≠ some id := by
    intro o id ho
    obtain ⟨m, hm, -⟩ := map_eq_some_iff.mp ho
    cases (hget o).symm.trans hm
  have hlive : ∀ id, ¬ e.Live id := fun id ⟨o, ho⟩ => hidOf o id ho
  obtain ⟨hpayload, hscope⟩ :=
    holds_rebuild hrebuild fun o id ho => absurd (hmeta ▸ ho) (hidOf o id)
  refine ⟨⟨ids_rebuild hrebuild (fun o o' id ho => absurd (hmeta ▸ ho) (hidOf o id))
    (fun o m hm => absurd hm (by rw [hmeta, hget]; simp)), hpayload, hscope, hclean,
    fun o id ho => absurd ho (hidOf o id), ?_, ?_, ?_⟩, fun o id ho => absurd ho (hidOf o id)⟩
  · rw [hgraph]
    exact MemoryGraph.ok_empty
  · intro id
    rw [hgraph]
    exact iff_of_false (by simp [buildGraph, SpreadingActivation.new, MemoryGraph.memoryIds,
      NodeInterner.iter]) (hlive id)
  · intro id
    rw [hgraph]
    exact iff_of_false (by simp [buildGraph, SpreadingActivation.new, NodeInterner.iter]) (hlive id)

/-- A step that succeeds does so without failing system calls. -/
lemma exec_of_ok {a : Action} (h : e.exec E io a = (.ok (), e')) :
    e.exec E Io.ok a = (.ok (), e') := by
  cases a with
  | put offset vector =>
    rcases hput : e.vectors.put (io.grow offset) offset vector with ⟨r, vectors⟩
    simp only [exec, hput] at h
    cases h
    simp only [exec, Io.ok, VectorStore.put_of_ok hput]
  | syncVectors =>
    simp only [exec, VectorStore.syncRange, Io.ok, Prod.mk.injEq] at h ⊢
    refine ⟨?_, h.2⟩
    cases hsync : e.config.syncWrites with
    | false => rfl
    | true =>
      cases hmapped : e.vectors.mapped with
      | false => simp [hsync, hmapped] at h
      | true => simp
  | log entries =>
    rcases hlog : e.wal.appendBatch E.codec io.append (entries.map Entry.toOp) with ⟨_ | _, wal⟩
    · simp [exec, hlog] at h
    · simp only [exec, hlog, Prod.mk.injEq] at h
      simp [exec, Io.ok, Wal.appendBatch_of_ok hlog, h.2]
  | applyBatch records =>
    have htext : io.textAdd = true := by
      by_contra hfalse
      simp only [exec, applyBatch] at h
      split at h
      · cases h
      · simp [Bool.not_eq_true _ ▸ hfalse] at h
    have hsame : e.applyBatch E Io.ok records = e.applyBatch E io records := by
      unfold applyBatch
      rw [htext]
      rfl
    exact hsame.trans h
  | _ => exact h

/-- A call that succeeds met no failing system call. -/
lemma call_of_ok (h : e.call E io q = (.ok reply, e')) : e.call E Io.ok q = (.ok reply, e') := by
  have hrun : ∀ plan s s', runAll (exec E io) plan s = (.ok (), s') →
      runAll (exec E Io.ok) plan s = (.ok (), s') := by
    intro plan
    induction plan with
    | nil => exact fun s s' hs => hs
    | cons a plan ih =>
      intro s s' hs
      rw [runAll] at hs ⊢
      split at hs
      · next s₁ hstep =>
        rw [exec_of_ok hstep]
        exact ih s₁ s' hs
      · cases hs
  unfold call perform at h ⊢
  split at h
  · exact h
  · next s plan reply' _ =>
    split at h
    · next s' hplan =>
      simp only [hrun plan s s' hplan]
      exact h
    · cases h

variable {acked : List (List Entry)} {log : List Entry}

/-- The files of a store at rest, after a request. -/
lemma rest_call (h : Rest E config False ⟨e, log, acked⟩)
    (hcall : e.call E Io.ok q = (.ok reply, e')) :
    ∃ log' acked', Rest E config False ⟨e', log', acked'⟩ := by
  unfold call perform at hcall
  split at hcall
  · obtain rfl := (Prod.mk.inj hcall).2
    exact ⟨log, acked, h⟩
  next start plan reply' hbegin =>
  have hservice : (service E config).begin (e.graph.graph.vocab, q) ⟨e, log, acked⟩ =
      some (⟨start, log, acked⟩, withAck plan) := by
    simp only [service, hbegin]
  have hsafe := (safe_begin (fun h => h.elim) h hservice).runAll
  have hproject := runAll_project (f := (service E config).exec) (g := exec E Io.ok)
    (π := Store.engine) (l := .act) (fun _ _ => rfl) plan ⟨start, log, acked⟩
  rw [withAck, runAll_append] at hsafe
  rcases hacts : runAll (service E config).exec (plan.map .act) ⟨start, log, acked⟩ with ⟨_ | _, s⟩
  · rw [hacts] at hproject
    simp [hproject] at hcall
  · rw [hacts] at hproject hsafe
    simp only [hproject] at hcall
    obtain rfl := (Prod.mk.inj hcall).2
    exact ⟨_, _, hsafe⟩

section

variable (h : Completed E config e)
include h

/-- The settings are valid. -/
lemma Completed.valid : config.Valid := by
  induction h with
  | new hopen => exact Disk.Interrupted.valid .refl hopen
  | call _ _ ih => exact ih

/-- It is a store at rest. -/
lemma Completed.rest : ∃ log acked, Rest E config False ⟨e, log, acked⟩ := by
  induction h with
  | new hopen => exact ⟨[], [], rest_new False .refl hopen⟩
  | call _ hcall ih =>
    obtain ⟨log, acked, hrest⟩ := ih
    exact rest_call hrest (call_of_ok hcall)

/-- The indexes are coherent after any sequence of calls that did not fail. -/
lemma Completed.coherent (hbound : e.metadata.nextOffset ≤ 2 ^ 32) : e.Coherent E ∧ e.Covered := by
  induction h with
  | new hopen => exact coherent_new hopen
  | @call e e' io q reply hrun hcall ih =>
    obtain ⟨hcoherent, hcovered⟩ := ih ((nextOffset_call hcall).trans hbound)
    exact hcoherent.call hcovered hcall hbound

/-! ## Closing and opening again -/

/-- A flush succeeds, and commits. -/
lemma Completed.exists_flush (io : Io) :
    ∃ e', e.call E io .flush = (.ok .unit, e') ∧ e'.metadata.db.lastAppliedSeq ≠ none := by
  obtain ⟨log, acked, -, -, flushed, pending, stale, -, hdurable, -⟩ := h.rest
  have hmapped : e.vectors.mapped = true := hdurable.mapped
  simp only [Engine.call, perform, begin, Engine.flush, runAll, exec, VectorStore.flush, hmapped,
    if_true]
  refine ⟨_, rfl, ?_⟩
  show ((drainInto _ _).flush (e.metadata.nextSeq - 1)).db.lastAppliedSeq ≠ none
  rw [(flush_db _ _).1]
  simp

end

section

variable (hvalid : config.Valid) (h : Rest E config False ⟨e, log, acked⟩)
include hvalid h

/-- A store at rest can be opened again after a flush. -/
lemma exists_open (hlast : e.metadata.db.lastAppliedSeq ≠ none) :
    ∃ e', Engine.open E config e.disk = .ok e' := by
  obtain ⟨hconfig, -, flushed, pending, stale, -, hdurable, -⟩ := h
  have hdisk := hdurable.disk
  rw [hconfig] at hdisk
  obtain ⟨w, -, hwal, -⟩ := hdisk.wal.open
  obtain ⟨count, hheader, -⟩ := hdurable.vectors.header
  refine (hdisk.open_isOk_iff hvalid rfl rfl hwal).mpr (.inr ?_)
  exact ⟨e.vectors.file, _, rfl, hheader, .inl hlast⟩

/-- The records of a store that was opened have their vectors. -/
lemma vectors_open (hopen : Engine.open E config e.disk = .ok e')
    {m : MetaRecord} (hm : e'.metadata.get o = some m) : ∃ v, e'.vectors.get o = some v := by
  obtain ⟨hconfig, -, flushed, pending, stale, -, hdurable, -⟩ := h
  have hdisk := hdurable.disk
  rw [hconfig] at hdisk
  obtain ⟨-, flushed', pending', stale', -, hdurable', happlied⟩ :=
    DiskHolds.open hvalid hdisk.holds (fun h : False => h.elim) hopen
  have hrecord := hdurable'.getRecord happlied.cached o
  have hcached := happlied.cached.records o
  rw [MetadataStore.get] at hm
  rw [hm, eq_comm, map_eq_some_iff] at hcached
  obtain ⟨record, hplaced, -⟩ := hcached
  rw [hplaced] at hrecord
  obtain ⟨_, -, hv⟩ := bind_eq_some_iff.mp hrecord
  obtain ⟨v, hv, -⟩ := map_eq_some_iff.mp hv
  exact ⟨v, hv⟩

end

/-- A flush touches no index. -/
lemma still_flush (h : e.call E io .flush = (.ok reply, e')) : Still e e' := by
  simp only [call, perform, begin, flush] at h
  split at h
  · next hplan =>
    obtain rfl := (Prod.mk.inj h).2
    exact still_runAll (by simp [Action.plain]) hplan
  · cases h

/-- **A new open after a flush** builds the same indexes. -/
lemma Coherent.reopen (h : e.Coherent E)
    (hbound : e.metadata.nextOffset ≤ 2 ^ 32) (hvalid : config.Valid)
    (hrest : Rest E config False ⟨e, log, acked⟩) (hsaved : e.Saved E)
    (hopen : Engine.open E config e.disk = .ok e') :
    e'.idIndex = e.idIndex ∧ e.payloadIndex.Agrees e'.payloadIndex ∧
      e'.scopeIndex = e.scopeIndex := by
  -- What is opened is the snapshot, with the records as they are.
  obtain ⟨r, hmeta, hmeta', hrebuild⟩ := metadata_open hsaved.wal.image hopen
  have hcolumn : ∀ {α : Type} (f : MetaRecord → α), r.metadata.column f = e.metadata.column f := by
    intro α f
    funext o
    rw [MetadataStore.column, MetadataStore.get, hmeta', hmeta]
    exact congrArg (fun records => records[o]?.map f) hsaved.records
  have hidOf : r.metadata.idOf = e.metadata.idOf := hcolumn MetaRecord.id
  have heq := rebuild_eq hrebuild
  have hunique : ∀ o o' id, r.metadata.idOf o = some id → r.metadata.idOf o' = some id →
      o = o' := by
    intro o o' id ho ho'
    rw [hidOf, ← h.ids] at ho ho'
    exact some.inj (ho.symm.trans ho')
  have hvectors : ∀ o m, r.metadata.get o = some m → ∃ v, r.vectors.get o = some v := by
    intro o m hm
    obtain ⟨v, hv⟩ := vectors_open hvalid hrest hopen (hmeta' ▸ hm)
    rw [heq] at hv
    exact ⟨v, hv⟩
  have hids := ids_rebuild hrebuild hunique hvectors
  obtain ⟨hpayload, hscope⟩ := holds_rebuild hrebuild fun o id ho =>
    (h.allocated o id (hidOf ▸ ho)).trans_le hbound
  rw [← hmeta', hcolumn] at hpayload hscope
  refine ⟨?_, h.payload.agrees hpayload, hscope.eq h.scope⟩
  refine ext_getElem? fun id => ext fun o => ?_
  rw [hids, ← hmeta', hidOf, ← h.ids]

/-- **Index coherence.** After any sequence of calls that did not fail, with at most `2 ^ 32`
offsets taken, every index holds exactly the records of the metadata and every record is in a
segment. A flush and a new open then succeed and give the same id and scope indexes, and a payload
index with the same offsets under the same values. **Proof sketch.** `Coherent.call` is the step of
an induction over the calls. The files are those of a store at rest (`Completed.rest`), so the open
succeeds, takes the snapshot as it is (`metadata_open`), and builds indexes of the same records
(`holds_rebuild`, `ids_rebuild`). -/
theorem coherent_of_completed (hrun : Completed E config e)
    (hbound : e.metadata.nextOffset ≤ 2 ^ 32) (io : Io) : e.Coherent E ∧ e.Covered ∧
    ∃ e' e'', e.call E io .flush = (.ok .unit, e') ∧ Engine.open E config e'.disk = .ok e'' ∧
      e''.idIndex = e.idIndex ∧ e.payloadIndex.Agrees e''.payloadIndex ∧
      e''.scopeIndex = e.scopeIndex := by
  obtain ⟨hcoherent, hcovered⟩ := hrun.coherent hbound
  refine ⟨hcoherent, hcovered, ?_⟩
  obtain ⟨e', hflush, hlast⟩ := hrun.exists_flush io
  obtain ⟨log', acked', hrest'⟩ := (hrun.call hflush).rest
  obtain ⟨e'', hopen⟩ := exists_open hrun.valid hrest' hlast
  have hstill := still_flush hflush
  have hreopen := (hcoherent.still hstill).reopen (hstill.nextOffset ▸ hbound) hrun.valid hrest'
    (saved_flush hcoherent.clean hflush) hopen
  rw [hstill.idIndex, hstill.payloadIndex, hstill.scopeIndex] at hreopen
  exact ⟨e', e'', hflush, hopen, hreopen⟩

/-! ## Runs on small inputs -/

/-- Requests one after the other, as long as none fails. -/
def callAll (E : Env) (e : Engine) : List Request → Option Engine
  | [] => some e
  | q :: qs =>
    match e.call E Io.ok q with
    | (.ok _, e) => callAll E e qs
    | (.error _, _) => none

/-- Several calls that succeed. -/
lemma Completed.callAll {qs : List Request} (h : Completed E config e)
    (hcalls : e.callAll E qs = some e') : Completed E config e' := by
  induction qs generalizing e with
  | nil =>
    cases hcalls
    exact h
  | cons q qs ih =>
    rw [callAll] at hcalls
    split at hcalls
    · next hcall => exact ih (h.call hcall) hcalls
    · cases hcalls

/-- The requests on a new store complete, and leave one that has a property. -/
lemma exists_completed (E : Env) (config : StoreConfig) (qs : List Request) (P : Engine → Prop)
    [DecidablePred P] (h : passes (fun e₀ => (e₀.callAll E qs).any fun e => decide (P e))
      (Engine.open E config {}) = true) : ∃ e, Completed E config e ∧ P e := by
  obtain ⟨e₀, hopen, h⟩ := exists_ok_of_passes h
  obtain ⟨e, he, htest⟩ := (any_eq_true _ _).mp h
  exact ⟨e, (Completed.new hopen).callAll he, of_decide_eq_true htest⟩

set_option maxRecDepth 10000

/-- A batch, an update and a delete. -/
theorem coherent_of_completed_sample : ∃ e : Engine, Completed sampleEnv sampleConfig e ∧
    e.metadata.nextOffset = 3 ∧ e.idIndex.toList = [("a", 2)] ∧ e.Coherent sampleEnv ∧
    ∃ e' e'', e.call sampleEnv Io.ok .flush = (.ok .unit, e') ∧
      Engine.open sampleEnv sampleConfig e'.disk = .ok e'' ∧ e''.idIndex = e.idIndex := by
  obtain ⟨e, hrun, hnext, hids⟩ := exists_completed sampleEnv sampleConfig
    [.insertBatch (fun _ => 5) (sampleBatch [("a", some "1"), ("b", none)]),
      .update 6 (sampleInput "a" "new" none), .deleteById "b"]
    (fun e => e.metadata.nextOffset = 3 ∧ e.idIndex.toList = [("a", 2)]) (by decide +kernel)
  obtain ⟨hcoherent, -, e', e'', hflush, hopen, hsame, -⟩ :=
    coherent_of_completed hrun (by omega) Io.ok
  exact ⟨e, hrun, hnext, hids, hcoherent, e', e'', hflush, hopen, hsame⟩

/-- An environment in which every payload is an object with the number `1` in the field `k`. -/
def fieldEnv : Env :=
  { sampleEnv with parseValue := fun _ => .ok (.obj [("k", .num ⟨1, "1"⟩)]) }

/-- **The payload index keeps an empty table**: a record with a field `k` is inserted and deleted,
and the table of the field is gone only after a flush and a new open. -/
theorem payloadIndex_changes_at_open : ∃ e e' e'' : Engine, Completed fieldEnv sampleConfig e ∧
    e.metadata.nextOffset = 1 ∧ e.call fieldEnv Io.ok .flush = (.ok .unit, e') ∧
    Engine.open fieldEnv sampleConfig e'.disk = .ok e'' ∧
    "k" ∈ e.payloadIndex.numeric ∧ "k" ∉ e''.payloadIndex.numeric ∧
    e''.payloadIndex ≠ e.payloadIndex := by
  obtain ⟨e, hrun, hnext, hfield, htest⟩ := exists_completed fieldEnv sampleConfig
    [.insert 5 (sampleInput "a" "" (some "")), .deleteById "a"]
    (fun e => e.metadata.nextOffset = 1 ∧ "k" ∈ e.payloadIndex.numeric ∧
      passes (fun e'' => "k" ∉ e''.payloadIndex.numeric)
        (Engine.open fieldEnv sampleConfig (e.call fieldEnv Io.ok .flush).2.disk) = true)
    (by decide +kernel)
  obtain ⟨e', hflush, -⟩ := hrun.exists_flush Io.ok
  rw [hflush] at htest
  obtain ⟨e'', hopen, hgone⟩ := exists_ok_of_passes htest
  have hgone := of_decide_eq_true hgone
  exact ⟨e, e', e'', hrun, hnext, hflush, hopen, hfield, hgone, fun heq => hgone (heq ▸ hfield)⟩

/-- The offsets a payload filter and a scope allow. `none` means that the search is
unrestricted. -/
def allowedOffsets (e : Engine) (render : Json → String) (text : TextSearch)
    (filter : Option Filter) (scope : Option String) :
    Option (Except StorageError (Option Bitmap)) :=
  let restrict (allowed : Option Bitmap) : Option Bitmap := match scope with
    | some s =>
      let scopeBitmap := e.scopeIndex.query (some s)
      match allowed with
      | some existing => some (existing ∩ scopeBitmap)
      | none => some scopeBitmap
    | none => allowed
  match filter with
  | some f => (evaluateFilter render text e.payloadIndex f).map (·.map (restrict ∘ some))
  | none => some (.ok (restrict none))

/-- What a record must be to be allowed. -/
def Allows (render : Json → String) (parse : JsonParser) (filter : Option Filter)
    (scope : Option String) (r : MetaRecord) : Prop :=
  (∀ f ∈ filter, f.Matches render parse r.payload) ∧
    ∀ s ∈ scope, r.scope = none ∨ r.scope = some s

/-- **Visibility.** After any calls that did not fail, a filter and a scope allow a search exactly
the records that match the filter and are global or in the scope, or everything just if there is
neither; a scope is listed just if it has a record. -/
theorem allowed_exact (hrun : Completed E config e) (hbound : e.metadata.nextOffset ≤ 2 ^ 32)
    (render : Json → String) (text : TextSearch) (filter : Option Filter)
    (hfilter : ∀ f ∈ filter, f.Valid) (scope : Option String) :
    (∃ allowed, e.allowedOffsets render text filter scope = some (.ok allowed) ∧
      (allowed = none ↔ filter = none ∧ scope = none) ∧ ∀ found ∈ allowed, ∀ d, d ∈ found ↔
        ∃ r, e.metadata.get d = some r ∧ Allows render E.parseValue filter scope r) ∧
      ∀ s, s ∈ e.scopeIndex.scopes ↔ ∃ d r, e.metadata.get d = some r ∧ r.scope = some s := by
  obtain ⟨h, -⟩ := hrun.coherent hbound
  have hscope : ∀ s d, d ∈ e.scopeIndex.query (some s) ↔
      ∃ r, e.metadata.get d = some r ∧ (r.scope = none ∨ r.scope = some s) := by
    intro s d
    rw [ScopeIndex.query, Finset.mem_union, h.scope.global, h.scope.byScope]
    unfold column
    cases e.metadata.get d <;> simp
  refine ⟨?_, fun s => ?_⟩
  · cases filter with
    | none =>
      refine ⟨_, rfl, ?_⟩
      cases scope with
      | none => simp
      | some s => simp [hscope, Allows]
    | some f =>
      obtain ⟨found, hfound, hselects⟩ := queryInner_exact h.payload f (hfilter f rfl)
      have heval : evaluateFilter render text e.payloadIndex f = some (.ok found) := by
        rw [evaluateFilter_eq_query (hfilter f rfl), query, hfound]
        rfl
      have hmatch : ∀ d, d ∈ found ↔ ∃ r, e.metadata.get d = some r ∧
          f.Matches render E.parseValue r.payload := by
        intro d
        rw [hselects]
        simp [column]
      refine ⟨_, by rw [allowedOffsets, heval]; rfl, ?_⟩
      cases scope with
      | none => simp [hmatch, Allows]
      | some s =>
        refine ⟨by simp, ?_⟩
        rintro _ ⟨⟩ d
        rw [Finset.mem_inter, hmatch, hscope]
        cases e.metadata.get d <;> simp [Allows]
  · rw [ScopeIndex.scopes, ExtTreeMap.mem_keys, h.scope.tight.mem_iff]
    simp [h.scope.byScope, column]

/-- Of four records, one global, two in the scope `s` and one in `t`, all but one with the number
`1` in `k`: a filter on `k` and the scope `s` allow two. -/
theorem allowed_exact_sample : ∃ e found, Completed fieldEnv sampleConfig e ∧
    e.allowedOffsets (fun _ => "") ⟨.ok (), fun _ => .ok ∅⟩ (some (.eq "k" (.num ⟨1, "1"⟩)))
      (some "s") = some (.ok (some found)) ∧ found = {0, 1} ∧
    (∀ d, d ∈ found ↔ ∃ r, e.metadata.get d = some r ∧ Allows (fun _ => "") fieldEnv.parseValue
      (some (.eq "k" (.num ⟨1, "1"⟩))) (some "s") r) ∧
    e.scopeIndex.scopes = ["s", "t"] ∧ ∃ d r, e.metadata.get d = some r ∧ r.scope = some "t" := by
  let input (id : String) (payload scope : Option String) : Request :=
    .insert 5 { sampleInput id "" payload with scope := scope }
  obtain ⟨e, hrun, hnext, hset, hlist⟩ := exists_completed fieldEnv sampleConfig
    [input "a" (some "") none, input "b" (some "") (some "s"), input "c" none (some "s"),
      input "d" (some "") (some "t")] (fun e => e.metadata.nextOffset = 4 ∧
        e.payloadIndex.queryEq (fun _ => "") "k" (.num ⟨1, "1"⟩) ∩ e.scopeIndex.query (some "s")
          = {0, 1} ∧ e.scopeIndex.scopes = ["s", "t"]) (by decide +kernel)
  obtain ⟨⟨allowed, hallowed, -, hfound⟩, hscopes⟩ := allowed_exact hrun (by omega) (fun _ => "")
    ⟨.ok (), fun _ => .ok ∅⟩ (some (.eq "k" (.num ⟨1, "1"⟩))) (by simp [Filter.Valid]) (some "s")
  have heval : e.allowedOffsets (fun _ => "") ⟨.ok (), fun _ => .ok ∅⟩
      (some (.eq "k" (.num ⟨1, "1"⟩))) (some "s") = some (.ok (some {0, 1})) := by
    rw [← hset, allowedOffsets, evaluateFilter, evaluateFilterRecursive]
    rfl
  rw [heval] at hallowed
  cases hallowed
  exact ⟨e, _, hrun, heval, rfl, hfound _ rfl, hlist, (hscopes "t").mp (by simp [hlist])⟩

end Engine

end TurboMemory
