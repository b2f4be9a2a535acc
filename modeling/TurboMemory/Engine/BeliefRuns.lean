import Mathlib.Data.List.MinMax
import TurboMemory.Engine.Belief
import TurboMemory.Engine.Numbering
import TurboMemory.Engine.RebuiltGraph
import TurboMemory.Graph.Lineage

/-!
# Runs of belief revision

What holds of the supersession edges in every state of a store that is only changed by its own
detection passes: each joins two live records, the older one to the newer one. A request that fails
half-way can leave two records with the same id. An edge is then founded on some record of each id,
and on a record of the newer id that is newer than all of the older id (`Founded`).

## Main results

* `BeliefEngine.call_induction` — what the steps of a request keep, requests keep.
* `BeliefEngine.commitOne_spec`, `BeliefEngine.commitSupersessions_induction` — what committing a
  pair does, and what a commit keeps.
* `BeliefEngine.Step.grounded` — every step keeps the graph good, its memories in the id index and
  its supersession edges founded.
* `BeliefEngine.beliefs_founded` — in every state of a run, edges join live records as they should,
  no chain is a cycle, and every chain ends in a live memory that is not superseded.
-/

set_option autoImplicit false

namespace TurboMemory

open CriticalSections List MetadataStore MemoryGraph MetaRecord

/-! ## Provenance -/

/-- What belief revision depends on in a record. -/
structure Provenance where
  id : String
  insertSeq : ℕ
  scope : Option String
  sourceRole : Option String
deriving DecidableEq

/-- The provenance of a record. -/
def MetaRecord.provenance (r : MetaRecord) : Provenance :=
  ⟨r.id, r.insertSeq, r.scope, r.sourceRole⟩

/-- The provenance of the record at an offset. -/
def Records.provenance (records : Records) (o : PointOffset) : Option Provenance :=
  records[o]?.map MetaRecord.provenance

/-- A record up to its concepts and access counts. -/
def MetaRecord.fixed (r : MetaRecord) : MetaRecord :=
  { r with concepts := [], accessCount := 0, lastAccessed := 0 }

/-- The same record with more concepts and other access counts. -/
structure MetaRecord.Enriches (r r' : MetaRecord) : Prop where
  fixed : r'.fixed = r.fixed
  concepts : r.concepts ⊆ r'.concepts

namespace MetaRecord.Enriches

variable {r r' r'' : MetaRecord}

/-- A record and itself. -/
lemma refl (r : MetaRecord) : Enriches r r := ⟨rfl, .refl _⟩

/-- One after the other. -/
lemma trans (h : Enriches r r') (h' : Enriches r' r'') : Enriches r r'' :=
  ⟨h'.fixed.trans h.fixed, Subset.trans h.concepts h'.concepts⟩

/-- Only concepts and access counts change. -/
lemma fields (h : Enriches r r') : r'.id = r.id ∧ r'.text = r.text ∧ r'.insertSeq = r.insertSeq ∧
    r'.scope = r.scope ∧ r'.sourceRole = r.sourceRole := by
  have hproj : ∀ {β : Type} (f : MetaRecord → β), f r'.fixed = f r.fixed :=
    fun f => congrArg f h.fixed
  exact ⟨hproj (·.id), hproj (·.text), hproj (·.insertSeq), hproj (·.scope), hproj (·.sourceRole)⟩

end MetaRecord.Enriches

/-- An entry and itself. -/
lemma rel_enriches_refl (x : Option MetaRecord) : Option.Rel Enriches x x := by
  cases x with
  | none => exact .none
  | some r => exact .some (.refl r)

/-- Records that only got concepts keep their provenance. -/
lemma provenance_of_enriches {records records' : Records}
    (h : ∀ o : PointOffset, Option.Rel Enriches records[o]? records'[o]?) :
    records'.provenance = records.provenance := by
  funext o
  have hrel := h o
  unfold Records.provenance
  generalize records[o]? = r at hrel ⊢
  generalize records'[o]? = r' at hrel ⊢
  cases hrel with
  | none => rfl
  | some hr =>
    obtain ⟨hid, -, hseq, hscope, hrole⟩ := hr.fields
    simp [provenance, hid, hseq, hscope, hrole]

/-- What makes a supersession: the ids differ, two live records of theirs share the scope, are in
order and have allowed roles, and some record of the newer id is newer than all of the older id. -/
structure Founded (roles : Option (List String)) (prov : PointOffset → Option Provenance)
    (p : String × String) : Prop where
  ne : p.1 ≠ p.2
  joined : ∃ o n a b, prov o = some a ∧ prov n = some b ∧ a.id = p.1 ∧ b.id = p.2 ∧
    a.scope = b.scope ∧ a.insertSeq < b.insertSeq ∧ roleAllowed a.sourceRole roles = true ∧
    roleAllowed b.sourceRole roles = true
  newest : ∃ n b, prov n = some b ∧ b.id = p.2 ∧
    ∀ o a, prov o = some a → a.id = p.1 → a.insertSeq < b.insertSeq

/-- The records of two ids are the same ones. -/
def SameRecords (prov prov' : PointOffset → Option Provenance) (p : String × String) : Prop :=
  ∀ o a, a.id = p.1 ∨ a.id = p.2 → (prov o = some a ↔ prov' o = some a)

/-- A property of a supersession that depends on the records of its two ids only. -/
structure Ground where
  Holds : (PointOffset → Option Provenance) → String × String → Prop
  stable : ∀ prov prov' p, SameRecords prov prov' p → Holds prov p → Holds prov' p

/-- Being founded is such a property. -/
def founding (roles : Option (List String)) : Ground where
  Holds := Founded roles
  stable prov prov' p hsame h := by
    obtain ⟨o, n, a, b, ho, hn, ha, hb, hrest⟩ := h.joined
    obtain ⟨n', b', hn', hb', hlt⟩ := h.newest
    refine ⟨h.ne, ⟨o, n, a, b, (hsame o a (Or.inl ha)).mp ho, (hsame n b (Or.inr hb)).mp hn, ha, hb,
      hrest⟩, n', b', (hsame n' b' (Or.inr hb')).mp hn', hb', fun o a ho ha => ?_⟩
    exact hlt o a ((hsame o a (Or.inl ha)).mpr ho) ha

/-! ## The invariant -/

/-- The invariant of a store. -/
structure Engine.Grounded (G : Ground) (e : Engine) : Prop where
  graph : e.graph.graph.Ok
  clean : e.metadata.Clean
  fresh : ∀ o a, e.metadata.records.provenance o = some a → o < e.metadata.nextOffset
  named : ∀ (id : String) (o : PointOffset), e.idIndex[id]? = some o →
    ∃ a, e.metadata.records.provenance o = some a ∧ a.id = id
  indexed : ∀ (id : String) (nid : ℕ), e.graph.graph.interner.keyToId[memKey id]? = some nid →
    id ∈ e.idIndex
  founded : ∀ p ∈ e.graph.graph.supersessions, G.Holds e.metadata.records.provenance p

variable {o : PointOffset} {m : MetadataStore} {e'' : Engine} {p : String × String}

namespace Engine

variable {E : Env} {G : Ground} {e e' : Engine}

/-- The ids of a supersession are in the id index. -/
lemma Grounded.mem_idIndex (h : e.Grounded G)
    (hp : p ∈ e.graph.graph.supersessions) : p.1 ∈ e.idIndex ∧ p.2 ∈ e.idIndex := by
  obtain ⟨⟨n, hn⟩, m, hm⟩ := h.graph.key_of_mem_supersessions hp
  exact ⟨h.indexed _ _ hn, h.indexed _ _ hm⟩

/-- Changes of the graph that keep memories and supersessions. -/
lemma Grounded.of_keeps (h : e.Grounded G) (hclean : e'.metadata.Clean)
    (hprov : e'.metadata.records.provenance = e.metadata.records.provenance)
    (hoffset : e.metadata.nextOffset ≤ e'.metadata.nextOffset) (hindex : e'.idIndex = e.idIndex)
    (hgraph : Keeps e.graph.graph e'.graph.graph) : e'.Grounded G where
  graph := hgraph.ok
  clean := hclean
  fresh o a ho := (h.fresh o a (hprov ▸ ho)).trans_le hoffset
  named id o ho := by
    rw [hprov]
    exact h.named id o (hindex ▸ ho)
  indexed id nid hid := by
    rw [hindex]
    exact h.indexed id nid ((hgraph.memories id).symm.trans hid)
  founded p hp := by
    rw [hprov]
    exact h.founded p (hgraph.supersessions ▸ hp)

/-! ## Steps of the store -/

/-- Draining access counts changes nothing else. -/
lemma column_drainInto {α : Type} {f : MetaRecord → α}
    (hf : ∀ r n t, f { r with accessCount := n, lastAccessed := t } = f r)
    (counters : List (PointOffset × ℕ × ℕ)) (m : MetadataStore) :
    (drainInto counters m).column f = m.column f := by
  apply drainInto_induction (P := fun m' => m'.column f = m.column f) counters rfl
  intro m' o record n t hget hm'
  rw [← hm', column_putMeta, hf]
  refine Function.update_eq_self_iff.mpr ?_
  rw [column, hget, Option.map_some]

/-- Draining changes access counts only. -/
lemma drainInto_spec (counters : List (PointOffset × ℕ × ℕ)) (m : MetadataStore) :
    (m.Clean → (drainInto counters m).Clean) ∧
    (drainInto counters m).records.provenance = m.records.provenance ∧
    (drainInto counters m).nextOffset = m.nextOffset :=
  ⟨fun h => drainInto_induction counters h fun _ _ _ _ _ _ h => h.putMeta _ _,
    column_drainInto (fun _ _ _ => rfl) .., (drainInto_files _ _).2.1⟩

end Engine

/-- The steps that neither enter nor drop a record. -/
def Action.plain : Action → Bool
  | .removeFromIndexes .. => false
  | .applyBatch _ => false
  | _ => true

variable {records : List (PointOffset × Record)} {io : Io} {id : String} {offset : PointOffset}
  {r : Except StorageError Unit} {ps : List PreparedRecord} {oldOffset : PointOffset} {a : Action}

namespace Engine

variable {E : Env} {G : Ground} {e e' : Engine}

/-- What a step that neither enters nor drops a record leaves as it is: everything but access
counts. -/
structure Still (e e' : Engine) : Prop where
  clean : e.metadata.Clean → e'.metadata.Clean
  column : ∀ {α : Type} (f : MetaRecord → α),
    (∀ r n t, f { r with accessCount := n, lastAccessed := t } = f r) →
    e'.metadata.column f = e.metadata.column f
  nextOffset : e'.metadata.nextOffset = e.metadata.nextOffset
  nextSeq : e'.metadata.nextSeq = e.metadata.nextSeq
  idIndex : e'.idIndex = e.idIndex
  payloadIndex : e'.payloadIndex = e.payloadIndex
  scopeIndex : e'.scopeIndex = e.scopeIndex
  graph : e'.graph = e.graph
  owns : ∀ o, e.segments.Owns o → e'.segments.Owns o

/-- Nothing is done. -/
lemma Still.refl (e : Engine) : Still e e :=
  ⟨id, fun _ _ => rfl, rfl, rfl, rfl, rfl, rfl, rfl, fun _ h => h⟩

/-- One after the other. -/
lemma Still.trans (h : Still e e') (h' : Still e' e'') : Still e e'' where
  clean hc := h'.clean (h.clean hc)
  column f hf := (h'.column f hf).trans (h.column f hf)
  nextOffset := h'.nextOffset.trans h.nextOffset
  nextSeq := h'.nextSeq.trans h.nextSeq
  idIndex := h'.idIndex.trans h.idIndex
  payloadIndex := h'.payloadIndex.trans h.payloadIndex
  scopeIndex := h'.scopeIndex.trans h.scopeIndex
  graph := h'.graph.trans h.graph
  owns o ho := h'.owns o (h.owns o ho)

/-- Such a step keeps the provenance of all records. -/
lemma Still.provenance (h : Still e e') :
    e'.metadata.records.provenance = e.metadata.records.provenance :=
  h.column MetaRecord.provenance fun _ _ _ => rfl

/-- Such a step keeps the invariant. -/
lemma Grounded.still (h : e.Grounded G) (hstill : Still e e') : e'.Grounded G :=
  h.of_keeps (hstill.clean h.clean) hstill.provenance hstill.nextOffset.ge hstill.idIndex
    (by rw [hstill.graph]; exact h.graph.keeps)

/-- Draining the access counters of a store. -/
lemma still_drain (e : Engine) : Still e { e with
    metadata := drainInto e.accessCounters.toList e.metadata, accessCounters := ∅ } := by
  obtain ⟨hclean, -, hoffset⟩ := drainInto_spec e.accessCounters.toList e.metadata
  exact { Still.refl e with
    clean := hclean
    column := fun f hf => column_drainInto hf _ _
    nextOffset := hoffset
    nextSeq := (drainInto_files _ _).2.2 }

/-- All steps but those that drop and enter records are such steps. -/
lemma still_exec (E : Env) (io : Io) (e : Engine) (ha : a.plain = true) :
    Still e (e.exec E io a).2 := by
  cases a with
  | put offset vector | flushVectors | truncateWal validEnd | clearWal | syncVectors | syncWal =>
    exact { Still.refl e with }
  | log entries =>
    rw [exec]
    split <;> exact { Still.refl e with }
  | removeFromIndexes id offset | applyBatch records => cases ha
  | processSeals => exact { Still.refl e with owns := fun _ ho => ho.processSeals }
  | drainCounters => exact still_drain e
  | flushMetadata lastAppliedSeq =>
    obtain ⟨hrecords, hoffset, hseq⟩ := e.metadata.flush_cache lastAppliedSeq
    refine { Still.refl e with
      clean := fun h => h.flush lastAppliedSeq
      column := fun f _ => funext fun o => ?_
      nextOffset := hoffset
      nextSeq := hseq }
    exact congrArg (fun records : Records => records[o]?.map f) hrecords
  | saveGraph => exact { Still.refl e with clean := fun h => { h with } }

/-- What is left when a record is dropped. -/
lemma provenance_removeFromIndexes (e : Engine) (id : String) (offset o : PointOffset) :
    (e.removeFromIndexes E id offset).metadata.records.provenance o =
      if offset = o then none else e.metadata.records.provenance o := by
  unfold Records.provenance
  rw [(removeFromIndexes_spec e id offset).1.metadata, getElem?_records_remove]
  split <;> rfl

/-- The memory leaves the graph. -/
lemma graph_removeFromIndexes (e : Engine) (id : String) (offset : PointOffset) :
    (e.removeFromIndexes E id offset).graph.graph = e.graph.graph.removeMemory id := by
  unfold removeFromIndexes
  split <;> rfl

/-- Dropping the record of an id drops the supersessions at it. -/
lemma Grounded.removeFromIndexes (h : e.Grounded G)
    (hid : e.idIndex[id]? = some offset) : (e.removeFromIndexes E id offset).Grounded G := by
  obtain ⟨hsame, hindex⟩ := removeFromIndexes_spec (E := E) e id offset
  have hgraph := graph_removeFromIndexes (E := E) e id offset
  have hprov := provenance_removeFromIndexes (E := E) e id offset
  obtain ⟨a, ha, hname⟩ := h.named id offset hid
  constructor
  · rw [hgraph]
    exact h.graph.removeMemory id
  · rw [hsame.metadata]
    exact h.clean.remove offset
  · intro o b ho
    rw [hprov] at ho
    rw [hsame.metadata]
    split at ho
    · cases ho
    · exact h.fresh o b ho
  · intro id' o ho
    rw [hindex, Std.ExtTreeMap.getElem?_erase] at ho
    split at ho
    · cases ho
    · next hne =>
      obtain ⟨b, hb, hname'⟩ := h.named id' o ho
      refine ⟨b, ?_, hname'⟩
      rw [hprov, if_neg]
      · exact hb
      · rintro rfl
        cases ha.symm.trans hb
        exact hne (by simp [← hname, hname'])
  · intro id' nid hnid
    rw [hgraph, getElem?_keyToId_removeMemory] at hnid
    rw [hindex, Std.ExtTreeMap.mem_erase]
    split at hnid
    · cases hnid
    · next hne =>
      exact ⟨by simpa [Std.LawfulEqCmp.compare_eq_iff_eq] using hne, h.indexed id' nid hnid⟩
  · intro p hp
    rw [hgraph, h.graph.supersessions_removeMemory] at hp
    obtain ⟨hp, hne⟩ := mem_filter.mp hp
    have hne : p.1 ≠ id ∧ p.2 ≠ id := by simpa using hne
    refine G.stable _ _ p (fun o b hb => ?_) (h.founded p hp)
    rw [hprov]
    split
    · next heq =>
      subst heq
      refine iff_of_false (fun ho => ?_) (by simp)
      cases ha.symm.trans ho
      rcases hb with hb | hb
      · exact hne.1 (hb.symm.trans hname)
      · exact hne.2 (hb.symm.trans hname)
    · rfl

/-- Records that can be entered: their ids are in no index, and their places are free. -/
structure Enterable (e : Engine) (records : List (PointOffset × Record)) : Prop where
  nodup : (records.map fun p => p.2.id).Nodup
  ordered : records.Pairwise fun p q => p.1 < q.1
  unknown : ∀ p ∈ records, p.2.id ∉ e.idIndex
  free : ∀ p ∈ records, e.metadata.records.provenance p.1 = none
  allocated : ∀ p ∈ records, p.1 < e.metadata.nextOffset

/-- They still can after a step that neither enters nor drops a record. -/
lemma Enterable.still (h : e.Enterable records) (hstill : Still e e') : e'.Enterable records :=
  { h with
    unknown := hstill.idIndex ▸ h.unknown
    free := hstill.provenance ▸ h.free
    allocated := hstill.nextOffset ▸ h.allocated }

/-- Numbers follow places, and the index has the last place of each id. -/
structure Ordered (e : Engine) : Prop where
  below : ∀ o a, e.metadata.records.provenance o = some a →
    o < e.metadata.nextOffset ∧ a.insertSeq < e.metadata.nextSeq
  ordered : ∀ (o o' : PointOffset) (a a' : Provenance), o < o' →
    e.metadata.records.provenance o = some a → e.metadata.records.provenance o' = some a' →
    a.insertSeq < a'.insertSeq
  latest : ∀ (o o' : PointOffset) (a : Provenance), e.metadata.records.provenance o = some a →
    e.idIndex[a.id]? = some o' → o ≤ o'

/-- Records that can be entered, with the numbers that are next. -/
structure Later (e : Engine) (records : List (PointOffset × Record)) : Prop where
  enterable : e.Enterable records
  above : ∀ p ∈ records, ∀ o a, e.metadata.records.provenance o = some a →
    o < p.1 ∧ a.insertSeq < p.2.insertSeq
  below : ∀ p ∈ records, p.2.insertSeq < e.metadata.nextSeq
  numbered : ∀ p ∈ records, ∀ q ∈ records, p.1 < q.1 → p.2.insertSeq < q.2.insertSeq

/-- They still can after a step that neither enters nor drops a record. -/
lemma Later.still (h : e.Later records) (hstill : Still e e') : e'.Later records :=
  { h with
    enterable := h.enterable.still hstill
    above := hstill.provenance ▸ h.above
    below := hstill.nextSeq ▸ h.below }

/-- A place at or past the counter is free. -/
lemma provenance_eq_none (hfresh : ∀ o a, e.metadata.records.provenance o = some a →
    o < e.metadata.nextOffset) {o : PointOffset} (ho : e.metadata.nextOffset ≤ o) :
    e.metadata.records.provenance o = none := by
  refine Option.eq_none_iff_forall_not_mem.mpr fun a ha => ?_
  exact absurd (hfresh o a ha) (Nat.not_lt.mpr ho)

section

variable (clock : ℕ → ℕ) (hnodup : (ps.map PreparedRecord.id).Nodup)
  (hnew : ∀ p ∈ ps, p.id ∉ e.idIndex)
include hnodup hnew

/-- The records of a write get places of their own. -/
lemma enterable_allocateAll
    (hfresh : ∀ o a, e.metadata.records.provenance o = some a → o < e.metadata.nextOffset) :
    ({ e with metadata := (allocateAll clock 0 ps e.metadata).2 } : Engine).Enterable
      (allocateAll clock 0 ps e.metadata).1 := by
  have hids := map_allocateAll clock 0 ps e.metadata PreparedRecord.id Record.id fun _ _ _ => rfl
  refine ⟨?_, pairwise_allocateAll .., ?_, ?_, ?_⟩
  · rw [hids]
    exact hnodup
  · intro q hq
    have hmem : q.2.id ∈ ps.map PreparedRecord.id := by
      rw [← hids]
      exact mem_map_of_mem hq
    obtain ⟨p, hp, heq⟩ := mem_map.mp hmem
    rw [← heq]
    exact hnew p hp
  · intro q hq
    show (allocateAll clock 0 ps e.metadata).2.records.provenance q.1 = none
    rw [allocateAll_snd]
    exact provenance_eq_none hfresh (mem_allocateAll clock 0 ps _ hq).1.1
  · intro q hq
    show q.1 < (allocateAll clock 0 ps e.metadata).2.nextOffset
    rw [allocateAll_snd]
    exact (mem_allocateAll clock 0 ps _ hq).1.2

/-- The records of a write get the next numbers. -/
lemma later_allocateAll (h : e.Ordered) :
    ({ e with metadata := (allocateAll clock 0 ps e.metadata).2 } : Engine).Later
      (allocateAll clock 0 ps e.metadata).1 := by
  have hcounters := allocateAll_snd clock 0 ps e.metadata
  have hmem := @mem_allocateAll clock 0 ps e.metadata
  refine ⟨enterable_allocateAll clock hnodup hnew fun o a ho => (h.below o a ho).1, ?_, ?_, ?_⟩
  · intro p hp o a ho
    change (allocateAll clock 0 ps e.metadata).2.records.provenance o = some a at ho
    rw [hcounters] at ho
    obtain ⟨⟨hoffset, -⟩, ⟨hseq, -⟩, -⟩ := hmem hp
    exact ⟨(h.below o a ho).1.trans_le hoffset, (h.below o a ho).2.trans_le hseq⟩
  · intro p hp
    change _ < (allocateAll clock 0 ps e.metadata).2.nextSeq
    rw [hcounters]
    exact (hmem hp).2.1.2
  · intro p hp q hq hlt
    refine Nat.lt_of_add_lt_add_right (n := e.metadata.nextOffset) ?_
    rw [(hmem hp).2.2, (hmem hq).2.2]
    exact Nat.add_lt_add_right hlt _

end

/-- A new version can be entered once the old one is dropped. -/
lemma enterable_replacement (record : Record) (hfree : e.metadata.records.provenance offset = none)
    (hallocated : offset < e.metadata.nextOffset) :
    (e.removeFromIndexes E record.id oldOffset).Enterable [(offset, record)] := by
  obtain ⟨hfiles, hindex⟩ := removeFromIndexes_spec e record.id oldOffset
  refine ⟨by simp, by simp, ?_, ?_, ?_⟩
  all_goals
    intro p hp
    obtain rfl := mem_singleton.mp hp
  · rw [hindex]
    simp
  · rw [hfiles.metadata]
    unfold Records.provenance at hfree ⊢
    rw [getElem?_records_remove]
    split
    · rfl
    · exact hfree
  · rw [hfiles.metadata]
    exact hallocated

/-- An update puts its record above all others. -/
lemma later_replacement (record : Record)
    (habove : ∀ o a, e.metadata.records.provenance o = some a →
      o < offset ∧ a.insertSeq < record.insertSeq)
    (hoffset : offset < e.metadata.nextOffset) (hseq : record.insertSeq < e.metadata.nextSeq) :
    (e.removeFromIndexes E record.id oldOffset).Later [(offset, record)] := by
  have hfree : e.metadata.records.provenance offset = none :=
    Option.eq_none_iff_forall_not_mem.mpr fun a ha => lt_irrefl _ (habove offset a ha).1
  refine ⟨enterable_replacement record hfree hoffset, ?_, ?_, ?_⟩
  · intro p hp o a ho
    obtain rfl := mem_singleton.mp hp
    rw [provenance_removeFromIndexes] at ho
    split at ho
    · cases ho
    · exact habove o a ho
  · intro p hp
    obtain rfl := mem_singleton.mp hp
    rw [(removeFromIndexes_spec e record.id oldOffset).1.metadata]
    exact hseq
  · intro p hp q hq hlt
    rw [mem_singleton.mp hp, mem_singleton.mp hq] at hlt
    exact absurd hlt (lt_irrefl _)

/-- The graph after a batch: as it was, or with all its records, which are in the id index then. -/
lemma applyBatch_graph (h : e.applyBatch E io records = (r, e')) :
    e'.graph = e.graph ∨ e'.graph = records.foldl (addToGraph E) e.graph ∧
      e'.idIndex = indexIds e.idIndex records := by
  have hgraph : ∀ (records : List (PointOffset × Record)) (e : Engine),
      (runAll (indexRecord E) records e).2.graph = e.graph := by
    intro records e
    refine runAll_preserves (P := fun e' : Engine => e'.graph = e.graph) (fun p _ e' he' => ?_) rfl
    unfold indexRecord
    dsimp only
    split <;> exact he'
  simp only [applyBatch] at h
  have hstart := hgraph records { e with metadata := e.metadata.putBatch records }
  split at h
  · next err e₁ hindex =>
    cases h
    rw [hindex] at hstart
    exact .inl hstart
  · next e₁ hindex =>
    obtain ⟨-, n, hids, hall⟩ := runAll_indexRecord_spec hindex
    rw [hindex] at hstart
    split at h
    · cases h
      exact .inl hstart
    · cases h
      refine .inr ⟨?_, ?_⟩
      · show records.foldl (addToGraph E) e₁.graph = _
        rw [hstart]
      · show e₁.idIndex = _
        rw [hids, hall (.inl rfl)]

/-- Entering memories keeps the supersessions, and adds no other memories. -/
lemma addToGraph_foldl {sa : SpreadingActivation} (h : sa.graph.Ok)
    (records : List (PointOffset × Record)) : (records.foldl (addToGraph E) sa).graph.Ok ∧
    (records.foldl (addToGraph E) sa).graph.supersessions = sa.graph.supersessions ∧
    ∀ id nid, (records.foldl (addToGraph E) sa).graph.interner.keyToId[memKey id]? = some nid →
      (∃ p ∈ records, p.2.id = id) ∨ ∃ m, sa.graph.interner.keyToId[memKey id]? = some m := by
  have hgraph : records.foldl (fun g p => if False then g else
      g.addMemoryScoped E.arith p.2.id p.2.text p.2.concepts p.2.importance p.2.scope) sa.graph =
      (records.foldl (addToGraph E) sa).graph := foldl_hom _ fun _ _ => rfl
  obtain ⟨hok, hsup, hkeys⟩ := h.addAll_spec E.arith (fun _ => False) records
  rw [hgraph] at hok hsup hkeys
  exact ⟨hok, hsup, fun id nid hid => ((hkeys id).mp ⟨nid, hid⟩).symm.imp_left And.right⟩

/-- The records after a batch. -/
lemma records_putBatch (m : MetadataStore) (records : List (PointOffset × Record)) :
    (m.putBatch records).records =
      records.foldl (fun t p => t.insert p.1 (ofRecord p.2)) m.records := by
  induction records generalizing m with
  | nil => rfl
  | cons p records ih =>
    rw [putBatch, foldl_cons, ← putBatch, ih]
    rfl

/-- The records of a batch are where it puts them. -/
lemma get_putBatch (hordered : records.Pairwise fun p q => p.1 < q.1) :
    (∀ p ∈ records, (m.putBatch records).get p.1 = some (ofRecord p.2)) ∧
    ∀ o, (∀ p ∈ records, p.1 ≠ o) → (m.putBatch records).get o = m.get o := by
  have hnodup : (records.map Prod.fst).Nodup :=
    pairwise_map.mpr (hordered.imp fun hlt => Nat.ne_of_lt hlt)
  constructor
  · intro p hp
    rw [MetadataStore.get, records_putBatch, getElem?_foldl_insert hp]
    intro q hq heq
    rw [inj_on_of_nodup_map hnodup hq hp heq]
  · intro o ho
    rw [MetadataStore.get, records_putBatch, getElem?_foldl_insert_of_ne ho]
    rfl

/-- The provenance of the records of a batch. -/
lemma provenance_putBatch (hordered : records.Pairwise fun p q => p.1 < q.1) :
    (∀ p ∈ records, (m.putBatch records).records.provenance p.1 = some (ofRecord p.2).provenance) ∧
    ∀ o, (∀ p ∈ records, p.1 ≠ o) →
      (m.putBatch records).records.provenance o = m.records.provenance o := by
  obtain ⟨hput, hother⟩ := get_putBatch hordered
  exact ⟨fun p hp => congrArg (Option.map provenance) (hput p hp),
    fun o ho => congrArg (Option.map provenance) (hother o ho)⟩

/-- What a batch enters: its records, and as much of the id index as it came to. -/
lemma applyBatch_entered (E : Env) (io : Io) (henter : e.Enterable records) :
    (∀ o a, (e.applyBatch E io records).2.metadata.records.provenance o = some a →
      (∃ p ∈ records, p.1 = o ∧ a = (ofRecord p.2).provenance) ∨
        e.metadata.records.provenance o = some a) ∧
    (∀ o a, e.metadata.records.provenance o = some a →
      (e.applyBatch E io records).2.metadata.records.provenance o = some a) ∧
    (e.applyBatch E io records).2.metadata.nextOffset = e.metadata.nextOffset ∧
    (e.applyBatch E io records).2.metadata.nextSeq = e.metadata.nextSeq ∧
    ∀ id o, (e.applyBatch E io records).2.idIndex[id]? = some o →
      (∃ p ∈ records, p.2.id = id ∧ p.1 = o) ∨ e.idIndex[id]? = some o := by
  rcases happly : e.applyBatch E io records with ⟨r, e'⟩
  obtain ⟨hsame, n, hids, -⟩ := applyBatch_spec happly
  have hmeta : e'.metadata = e.metadata.putBatch records := hsame.metadata
  obtain ⟨hput, hother⟩ := provenance_putBatch henter.ordered
  obtain ⟨-, hoffset, hseq⟩ := e.metadata.putBatch_files records
  dsimp only
  rw [hmeta]
  refine ⟨fun o a ho => ?_, fun o a ho => ?_, hoffset, hseq, fun id o ho => ?_⟩
  · by_cases hex : ∃ p ∈ records, p.1 = o
    · obtain ⟨p, hp, rfl⟩ := hex
      rw [hput p hp] at ho
      exact .inl ⟨p, hp, rfl, (Option.some.inj ho).symm⟩
    · rw [hother o fun p hp heq => hex ⟨p, hp, heq⟩] at ho
      exact .inr ho
  · rw [hother]
    · exact ho
    · rintro p hp rfl
      rw [henter.free p hp] at ho
      cases ho
  · rw [hids, indexIds] at ho
    rcases exists_of_getElem?_foldl_insert ho with ⟨p, hp, hid, hoff⟩ | ho
    · exact .inl ⟨p, mem_of_mem_take hp, hid, hoff⟩
    · exact .inr ho

/-- Entering records keeps the invariant, however far it gets. -/
lemma Grounded.applyBatch (h : e.Grounded G) (henter : e.Enterable records)
    (happly : e.applyBatch E io records = (r, e')) : e'.Grounded G := by
  obtain ⟨hsame, n, hids, -⟩ := applyBatch_spec happly
  obtain ⟨hput, -⟩ := provenance_putBatch henter.ordered
  have hmeta : e'.metadata = e.metadata.putBatch records := hsame.metadata
  obtain ⟨hnew, hold, hnext, -⟩ := applyBatch_entered E io henter
  rw [happly] at hnew hold hnext
  -- The graph is as it was, or has the new memories, all of which are indexed.
  have hgraph : e'.graph.graph.Ok ∧ e'.graph.graph.supersessions = e.graph.graph.supersessions ∧
      ∀ id nid, e'.graph.graph.interner.keyToId[memKey id]? = some nid → id ∈ e'.idIndex := by
    have hkept : ∀ id, id ∈ e.idIndex → id ∈ e'.idIndex := by
      intro id hid
      rw [hids]
      exact mem_indexIds.mpr (.inl hid)
    rcases applyBatch_graph happly with heq | ⟨heq, hall⟩
    · rw [heq]
      exact ⟨h.graph, rfl, fun id nid hid => hkept id (h.indexed id nid hid)⟩
    · obtain ⟨hok, hsup, hkeys⟩ := addToGraph_foldl h.graph records
      rw [heq]
      refine ⟨hok, hsup, fun id nid hid => ?_⟩
      rcases hkeys id nid hid with hnew | ⟨m, hm⟩
      · rw [hall]
        exact mem_indexIds.mpr (.inr hnew)
      · exact hkept id (h.indexed id m hm)
  refine ⟨hgraph.1, ?_, ?_, ?_, hgraph.2.2, ?_⟩
  · rw [hmeta]
    exact h.clean.putBatch records
  · intro o a ho
    rw [hnext]
    rcases hnew o a ho with ⟨p, hp, rfl, -⟩ | ho
    · exact henter.allocated p hp
    · exact h.fresh o a ho
  · intro id o ho
    rw [hids, indexIds] at ho
    rcases exists_of_getElem?_foldl_insert ho with ⟨p, hp, rfl, rfl⟩ | ho
    · exact ⟨_, by rw [hmeta, hput p (mem_of_mem_take hp)], rfl⟩
    · obtain ⟨a, ha, hname⟩ := h.named id o ho
      exact ⟨a, hold o a ha, hname⟩
  · intro p hp
    rw [hgraph.2.1] at hp
    obtain ⟨hfirst, hsecond⟩ := h.mem_idIndex hp
    refine G.stable _ _ p (fun o a ha => ⟨hold o a, fun ho => ?_⟩) (h.founded p hp)
    rcases hnew o a ho with ⟨q, hq, -, rfl⟩ | ho
    · refine absurd (?_ : q.2.id ∈ e.idIndex) (henter.unknown q hq)
      change q.2.id = p.1 ∨ q.2.id = p.2 at ha
      rcases ha with ha | ha
      · exact ha ▸ hfirst
      · exact ha ▸ hsecond
    · exact ho

end Engine

/-! ## Requests -/

variable {old new : String} {e : Engine} {P : BeliefEngine → Prop} {r : Request}
  {proposed : List ProposedSupersession} {cand : PointOffset × MetaRecord}
  {c : PointOffset × MetaRecord} {C : BeliefConfig} {watermark : ℕ}
  {g : MemoryGraph} {reply : Reply}

/-- The id of the record that a request drops. -/
def Request.target : Request → Option String
  | .update _ input => some input.id
  | .deleteById id => some id
  | _ => none

/-- A request drops the record of its target only. -/
lemma Engine.target_of_begin {vocab : ConceptVocabulary} {plan : List Action} {e' : Engine}
    {E : Env}
    (h : e.begin E vocab r = .run e' plan reply)
    (hmem : .removeFromIndexes id offset ∈ plan) : r.target = some id := by
  cases r with
  | flush =>
    cases h
    simp at hmem
  | _ =>
    -- Every branch but one is an answer without a plan.
    simp only [begin, insert, insertBatch, update, deleteById, deleteWhere] at h
    repeat
      split at h
      · cases h
    cases h
    simp_all [writePlan, Request.target]

namespace BeliefEngine

open Engine

variable {E : Env} {G : Ground} {s s' : BeliefEngine}

/-- Storing and logging records, up to the point where the indexes are updated. -/
lemma plain_writePlan (records : List (PointOffset × Record)) (entries : List Entry) :
    ∀ a ∈ records.map (fun p => Action.put p.1 p.2.embedding) ++ [.syncVectors, .log entries],
      a.plain = true := by
  intro a ha
  rcases mem_append.mp ha with ha | ha
  · obtain ⟨p, -, rfl⟩ := mem_map.mp ha
    rfl
  · simp only [mem_cons, not_mem_nil, or_false] at ha
    rcases ha with rfl | rfl <;> rfl

/-- What the first part of a plan leaves, and then the second part. -/
lemma runAll_append_of {Q : BeliefEngine → Prop} {before after : List Action}
    (hfirst : P (runAll (exec E io) before s).2) (hpq : ∀ s, P s → Q s)
    (hsecond : ∀ s, P s → Q (runAll (exec E io) after s).2) :
    Q (runAll (exec E io) (before ++ after) s).2 := by
  rw [runAll_append]
  split
  · next hrun =>
    rw [hrun] at hfirst
    exact hsecond _ hfirst
  · next hrun =>
    rw [hrun] at hfirst
    exact hpq _ hfirst

/-- What the plan of a request keeps, the request keeps. -/
lemma call_preserves (hs : P s)
    (hrun : ∀ e plan reply, s.engine.begin E s.engine.graph.graph.vocab r = .run e plan reply →
      P (runAll (exec E io) plan { s with engine := e }).2) : P (s.call E io r).2 := by
  unfold call
  split
  · exact hs
  · next e plan reply hbegin =>
    have hplan := hrun e plan reply hbegin
    split <;> next heq => rw [heq] at hplan; exact hplan

/-- **What every step of a request keeps, the request keeps**: allocating numbers, steps that
neither enter nor drop a record, dropping an indexed record while the graph is as it was, and
entering records, which have the next numbers if those follow places. -/
lemma call_induction (hs : P s) (hfresh : ∀ o a, s.engine.metadata.records.provenance o = some a →
      o < s.engine.metadata.nextOffset)
    (hallocate : ∀ clock ps, P { s with engine := { s.engine with
      metadata := (allocateAll clock 0 ps s.engine.metadata).2 } })
    (hplain : ∀ s' a, a.plain = true → P s' → P (exec E io a s').2)
    (hremove : ∀ s' id offset, r.target = some id → P s' →
      s'.engine.graph = s.engine.graph → s'.engine.idIndex[id]? = some offset →
      P (exec E io (.removeFromIndexes id offset) s').2)
    (henter : ∀ s' records, P s' → s'.engine.Enterable records →
      (s.engine.Ordered → s'.engine.Later records) → P (exec E io (.applyBatch records) s').2) :
    P (s.call E io r).2 := by
  refine call_preserves hs fun e plan reply hbegin => ?_
  -- Steps before the record is dropped or entered.
  have hquiet : ∀ {before : List Action}, (∀ a ∈ before, a.plain = true) →
      ∀ {s₁ : BeliefEngine}, P s₁ → P (runAll (exec E io) before s₁).2 ∧
        Still s₁.engine (runAll (exec E io) before s₁).2.engine := by
    intro before hbefore s₁ hs₁
    refine runAll_preserves (P := fun s' => P s' ∧ Still s₁.engine s'.engine) ?_ ⟨hs₁, .refl _⟩
    intro a ha s' hs'
    exact ⟨hplain s' a (hbefore a ha) hs'.1, hs'.2.trans (still_exec E io s'.engine (hbefore a ha))⟩
  have hlast : ∀ (a : Action) (s₁ : BeliefEngine), P (exec E io a s₁).2 →
      P (runAll (exec E io) [a] s₁).2 := by
    intro a s₁ hs₁
    rw [runAll]
    split <;> next heq => rw [heq] at hs₁; exact hs₁
  have htarget : ∀ id offset, Action.removeFromIndexes id offset ∈ plan → r.target = some id :=
    fun _ _ => target_of_begin hbegin
  cases begun_of_begin hbegin with
  | inserts clock ps hnodup hnew =>
    have hmid := hquiet (plain_writePlan (allocateAll clock 0 ps s.engine.metadata).1
      (insertEntries (allocateAll clock 0 ps s.engine.metadata).1)) (hallocate clock ps)
    unfold writePlan
    rw [append_nil]
    refine runAll_append_of (P := fun s' => P s' ∧ Still { s.engine with
      metadata := (allocateAll clock 0 ps s.engine.metadata).2 } s'.engine) hmid
      (fun _ hs' => hs'.1) fun s' hs' => hlast _ s' (henter s' _ hs'.1 ?_ fun hordered => ?_)
    · exact (enterable_allocateAll clock hnodup hnew hfresh).still hs'.2
    · exact (later_allocateAll clock hnodup hnew hordered).still hs'.2
  | replace now p oldOffset hid =>
    unfold writePlan
    rw [append_assoc]
    refine runAll_append_of (P := fun s' => P s' ∧ Still { s.engine with
        metadata := (allocateAll (fun _ => now) 0 [p] s.engine.metadata).2 } s'.engine)
      (hquiet (plain_writePlan _ _) (hallocate _ [p])) (fun _ hs' => hs'.1) ?_
    rintro s' ⟨hs', hstill⟩
    have hprov := hstill.provenance
    have hoffset := hstill.nextOffset
    have hseq := hstill.nextSeq
    rw [allocateAll_snd] at hprov hoffset hseq
    have hremoved := hremove s' p.id oldOffset (htarget p.id oldOffset (by simp [writePlan])) hs'
      hstill.graph (by rw [hstill.idIndex]; exact hid)
    have hlt : s.engine.metadata.nextOffset < s'.engine.metadata.nextOffset := by
      rw [hoffset]
      exact Nat.lt_succ_self _
    refine hlast _ _ (henter _ _ hremoved
      (enterable_replacement (p.intoRecord now s.engine.metadata.nextSeq) ?_ hlt)
      fun hordered => later_replacement (p.intoRecord now s.engine.metadata.nextSeq) ?_ hlt ?_)
    · rw [hprov]
      exact provenance_eq_none hfresh le_rfl
    · rw [hprov]
      exact hordered.below
    · rw [hseq]
      exact Nat.lt_succ_self _
  | delete id offset hid =>
    show P (runAll (exec E io) ([.log [.delete offset id]] ++ [.removeFromIndexes id offset]) s).2
    exact runAll_append_of (P := fun s' => P s' ∧ Still s.engine s'.engine)
      (hquiet (by simp [Action.plain]) hs) (fun _ hs' => hs'.1) fun s' hs' => hlast _ s'
        (hremove s' id offset (htarget id offset (by simp)) hs'.1 hs'.2.graph
          (by rw [hs'.2.idIndex]; exact hid))
  | flush => exact (hquiet (by simp [Action.plain]) hs).1

/-- Taking numbers keeps the invariant. -/
lemma grounded_allocate (h : e.Grounded G) (clock : ℕ → ℕ) (ps : List PreparedRecord) :
    ({ e with metadata := (allocateAll clock 0 ps e.metadata).2 } : Engine).Grounded G := by
  rw [allocateAll_snd]
  exact h.of_keeps { h.clean with } rfl (Nat.le_add_right _ _) rfl h.graph.keeps

/-- Every request keeps the invariant, whether it succeeds or fails. -/
lemma grounded_call (h : s.engine.Grounded G) (E : Env) (io : Io) (r : Request) :
    (s.call E io r).2.engine.Grounded G :=
  call_induction (P := fun s => s.engine.Grounded G) h h.fresh (grounded_allocate h)
    (fun s' _ ha hs' => hs'.still (still_exec E io s'.engine ha))
    (fun _ _ _ _ hs' _ hid => hs'.removeFromIndexes hid)
    fun _ _ hs' henter _ => hs'.applyBatch henter rfl

/-! ## Detection -/

/-- The first element that passes a test comes before the others that do. -/
lemma rel_of_find? {α : Type} {r : α → α → Prop} {t : α → Bool} {l : List α} {x y : α}
    (hl : l.Pairwise r) (hx : l.find? t = some x) (hy : y ∈ l) (hty : t y = true) :
    y = x ∨ r x y := by
  obtain ⟨-, before, after, rfl, hnot⟩ := find?_eq_some_iff_append.mp hx
  rcases mem_append.mp hy with hy | hy
  · have hfalse := hnot y hy
    rw [hty] at hfalse
    cases hfalse
  · exact (mem_cons.mp hy).imp_right ((pairwise_cons.mp (pairwise_append.mp hl).2.1).1 y)

variable (B : BeliefArith) {e : Engine} (C : BeliefConfig)

/-- The candidates are the records. -/
lemma mem_candidates : c ∈ candidates E e ↔ e.metadata.records[c.1]? = some c.2 := by
  rw [candidates, mem_insertionSort, (E.iterate_perm _).mem_iff,
    Std.ExtTreeMap.mem_toList_iff_getElem?_eq_some]

/-- Newer records come first. -/
lemma pairwise_candidates : (candidates E e).Pairwise fun a b => b.2.insertSeq ≤ a.2.insertSeq := by
  have : Std.Total fun a b : PointOffset × MetaRecord => b.2.insertSeq ≤ a.2.insertSeq :=
    ⟨fun a b => Nat.le_total _ _⟩
  have : IsTrans (PointOffset × MetaRecord) fun a b => b.2.insertSeq ≤ a.2.insertSeq :=
    ⟨fun a b c hab hbc => Nat.le_trans hbc hab⟩
  exact pairwise_insertionSort _ _

/-- The first candidate with an id is its newest record. -/
lemma le_of_find?_candidates (hc : (candidates E e).find? (·.2.id = id) = some c) {a : Provenance}
    (ho : e.metadata.records.provenance o = some a) (ha : a.id = id) :
    a.insertSeq ≤ c.2.insertSeq := by
  obtain ⟨r, hr, rfl⟩ := Option.map_eq_some_iff.mp ho
  have hmem : (o, r) ∈ candidates E e := mem_candidates.mpr hr
  rcases rel_of_find? pairwise_candidates hc hmem (decide_eq_true ha) with rfl | hle
  · exact le_rfl
  · exact hle

variable {allowed : Option (List String)}

/-- What a neighbour that passes the tests is. -/
lemma nearestSupersedingNeighbor_spec {B : BeliefArith} (h : e.Grounded G)
    {search : Embedding → Option String → Except StorageError (List String)}
    {embedding : Embedding} {concepts : List String} {scope : Option String} {exclude nid : String}
    {pivotSeq : ℕ} {newer : Bool} {floor : F32}
    (hn : nearestSupersedingNeighbor B e search embedding concepts scope exclude pivotSeq newer
      floor allowed = .ok (some nid)) :
    nid ≠ exclude ∧ ∃ o a, e.metadata.records.provenance o = some a ∧ a.id = nid ∧
      a.scope = scope ∧ roleAllowed a.sourceRole allowed = true ∧
      if newer then pivotSeq < a.insertSeq else a.insertSeq < pivotSeq := by
  have hn : supersedingNeighbor B e embedding concepts scope exclude pivotSeq newer floor allowed
      nid = true := by
    unfold nearestSupersedingNeighbor at hn
    cases hs : search embedding scope with
    | error err => rw [hs] at hn; cases hn
    | ok neighbors =>
      rw [hs] at hn
      exact find?_some (Except.ok.inj hn)
  unfold supersedingNeighbor at hn
  rw [Bool.and_eq_true] at hn
  refine ⟨of_decide_eq_true hn.1, ?_⟩
  have hn := hn.2
  split at hn
  · cases hn
  · next off hoff =>
    obtain ⟨a, ha, hname⟩ := h.named nid off hoff
    split at hn
    · cases hn
    · next record hrecord =>
      have hprov : e.metadata.records.provenance off = some record.provenance :=
        Option.map_eq_some_iff.mpr ⟨record, hrecord, rfl⟩
      cases ha.symm.trans hprov
      simp only [Bool.and_eq_true, decide_eq_true_eq] at hn
      refine ⟨off, record.provenance, hprov, hname, hn.1.1.1.2, hn.1.1.2, ?_⟩
      cases newer with
      | true => simpa [provenance] using hn.1.1.1.1
      | false => simpa [provenance] using hn.1.1.1.1

variable {p : ProposedSupersession} {D : Detection} {ann : Ann}

/-- The searches by which a record comes to supersede another. -/
lemma proposeOne_eq_some_iff {B : BeliefArith} :
    proposeOne E B allowed e ann D cand = .ok (some p) ↔
      roleAllowed cand.2.sourceRole allowed = true ∧ ∃ v w other, e.vectors.get cand.1 = some v ∧
        nearestSupersedingNeighbor B e (ann cand.1 false) v cand.2.concepts cand.2.scope cand.2.id
          cand.2.insertSeq false D.threshold allowed = .ok (some other.2.id) ∧
        (candidates E e).find? (·.2.id = other.2.id) = some other ∧
        D.gate cand.2 other.2 = true ∧ e.vectors.get other.1 = some w ∧
        nearestSupersedingNeighbor B e (ann cand.1 true) w other.2.concepts other.2.scope
          other.2.id other.2.insertSeq true D.threshold allowed = .ok (some cand.2.id) ∧
        p = ⟨other.2.id, cand.2.id, other.1, cand.1, D.kind, B.cosineSimilarity v w⟩ := by
  constructor
  · intro hp
    unfold proposeOne at hp
    split at hp
    · next hrole =>
      split at hp
      · cases hp
      · next v hv =>
        simp only [bind, Except.bind] at hp
        split at hp
        · cases hp
        · next forward hforward =>
          split at hp
          · cases hp
          · next other hother =>
            obtain ⟨otherId, rfl, hfind⟩ := Option.bind_eq_some_iff.mp hother
            obtain rfl : other.2.id = otherId := by simpa using find?_some hfind
            split at hp
            · next hgate =>
              split at hp
              · cases hp
              · next w hw =>
                split at hp
                · cases hp
                · next back hback =>
                  split at hp
                  · next hmutual =>
                    subst hmutual
                    exact ⟨hrole, v, w, other, hv, hforward, hfind, hgate, hw, hback,
                      (Option.some.inj (Except.ok.inj hp)).symm⟩
                  · cases hp
            · cases hp
    · cases hp
  · rintro ⟨hrole, v, w, other, hv, hforward, hfind, hgate, hw, hback, rfl⟩
    unfold proposeOne
    rw [if_pos hrole]
    simp only [hv, hforward, bind, Except.bind, Option.bind, hfind, hgate, if_true, hw, hback]

/-- A pair that a pass proposes was found for one of the records it looked at. -/
lemma mem_proposeLoop {B : BeliefArith}
    {cands : List (PointOffset × MetaRecord)} {acc proposed : List ProposedSupersession}
    (hloop : proposeLoop E B allowed e ann D watermark cands acc = .ok proposed)
    (hp : p ∈ proposed) : p ∈ acc ∨ ∃ cand ∈ cands, watermark ≤ cand.2.insertSeq ∧
      proposeOne E B allowed e ann D cand = .ok (some p) := by
  induction cands generalizing acc with
  | nil =>
    cases hloop
    exact .inl hp
  | cons c cands ih =>
    unfold proposeLoop at hloop
    split at hloop
    · cases hloop
      exact .inl hp
    · next hstop =>
      simp only [bind, Except.bind] at hloop
      split at hloop
      · cases hloop
      · next found hfound =>
        rcases ih hloop with hmem | ⟨cand, hcand, hrest⟩
        · rcases mem_append.mp hmem with hmem | hmem
          · exact .inl hmem
          · obtain rfl := Option.mem_toList.mp hmem
            exact .inr ⟨c, mem_cons_self, Nat.not_lt.mp (not_or.mp hstop).2, hfound⟩
        · exact .inr ⟨cand, mem_cons_of_mem _ hcand, hrest⟩

/-- A proposed pair is founded. **Proof sketch.** The forward search gives an older record of the
scope. The backward search starts from the newest record of its id, and gives a newer one still. -/
lemma proposeOne_spec {B : BeliefArith} (h : e.Grounded G)
    (hcand : e.metadata.records[cand.1]? = some cand.2)
    (hp : proposeOne E B allowed e ann D cand = .ok (some p)) :
    Founded allowed e.metadata.records.provenance (p.oldId, p.newId) ∧
    (e.metadata.records.provenance p.oldOffset).map Provenance.id = some p.oldId := by
  obtain ⟨hrole, v, w, other, -, hforward, hfind, -, -, hback, rfl⟩ :=
    proposeOne_eq_some_iff.mp hp
  have hmem := mem_candidates.mp (mem_of_find?_eq_some hfind)
  obtain ⟨-, o, a, ho, ha, hscope, hallowed, hlt⟩ := nearestSupersedingNeighbor_spec h hforward
  obtain ⟨hne, n, b, hn, hb, -, -, hgt⟩ := nearestSupersedingNeighbor_spec h hback
  simp only [if_true, Bool.false_eq_true, if_false] at hlt hgt
  refine ⟨⟨hne.symm, ⟨o, cand.1, a, cand.2.provenance, ho, ?_, ha, rfl, hscope, hlt, hallowed,
    hrole⟩, n, b, hn, hb, ?_⟩, ?_⟩
  · exact Option.map_eq_some_iff.mpr ⟨cand.2, hcand, rfl⟩
  · intro o' a' ho' ha'
    exact (le_of_find?_candidates hfind ho' ha').trans_lt hgt
  · unfold Records.provenance
    rw [hmem]
    rfl

/-! ## Commits -/

/-- Nothing is done, or the edge is entered. -/
lemma addSupersession_spec (h : g.Ok) (B : BeliefArith) (C : BeliefConfig)
    (p : ProposedSupersession) : (addSupersession B C g p = (false, g) ∧
      (g.interner.keyToId[memKey p.oldId]? = none ∨ g.interner.keyToId[memKey p.newId]? = none ∨
        g.HasBelief p.kind.edge p.oldId p.newId)) ∨ ∃ g', addSupersession B C g p = (true, g') ∧
      Entered g g' p.kind.edge p.oldId p.newId := by
  unfold addSupersession
  cases hkind : p.kind with
  | refinement => exact h.addRefinement_spec ..
  | contradiction => exact h.addContradiction_spec ..

/-- What a transfer of concepts does apart from the graph: a record may get concepts. -/
structure Transferred (e e' : Engine) : Prop where
  idIndex : e'.idIndex = e.idIndex
  vectors : e'.vectors = e.vectors
  db : e'.metadata.db = e.metadata.db
  nextOffset : e'.metadata.nextOffset = e.metadata.nextOffset
  nextSeq : e'.metadata.nextSeq = e.metadata.nextSeq
  clean : e.metadata.Clean → e'.metadata.Clean
  records : ∀ o : PointOffset, Option.Rel Enriches e.metadata.records[o]? e'.metadata.records[o]?

/-- Nothing is handed over. -/
lemma Transferred.refl (e : Engine) : Transferred e e :=
  ⟨rfl, rfl, rfl, rfl, rfl, id, fun _ => rel_enriches_refl _⟩

/-- The concepts that a record has are kept when others are added. -/
lemma subset_foldl_concepts (unique concepts : List String) :
    concepts ⊆ unique.foldl (fun all c => if c ∈ all then all else all ++ [c]) concepts := by
  refine Loop.foldl_induction (P := (concepts ⊆ ·)) unique (.refl _) fun c _ all hall => ?_
  split
  · exact hall
  · exact Subset.trans hall (subset_append_left _ _)

/-- Concepts are handed over, and the graph grows. -/
lemma transferUniqueConcepts_spec (e : Engine) (oldOffset newOffset : PointOffset)
    (newId : String) : Transferred e (transferUniqueConcepts E B e oldOffset newOffset newId) ∧
    (e.graph.graph.Ok → Grows e.graph.graph
      (transferUniqueConcepts E B e oldOffset newOffset newId).graph.graph) := by
  unfold transferUniqueConcepts
  split
  · next old new _ hnew =>
    dsimp only
    split
    · exact ⟨.refl e, Ok.grows⟩
    · split
      · exact ⟨.refl e, Ok.grows⟩
      · next embedding _ =>
        have hrecords : ∀ (concepts : List String), new.concepts ⊆ concepts → ∀ o : PointOffset,
            Option.Rel Enriches e.metadata.records[o]? (e.metadata.put newOffset
              (withEmbedding { new with concepts := concepts } embedding)).records[o]? := by
          intro concepts hsub o
          rw [put, getElem?_records_putMeta, ofRecord_withEmbedding]
          split
          · next heq =>
            subst heq
            rw [show e.metadata.records[newOffset]? = some new from hnew]
            exact .some ⟨rfl, hsub⟩
          · exact rel_enriches_refl _
        split
        · exact ⟨⟨rfl, rfl, rfl, rfl, rfl, fun hc => hc.put _ _,
            hrecords _ (subset_foldl_concepts _ _)⟩, Ok.grows⟩
        · exact ⟨⟨rfl, rfl, rfl, rfl, rfl, fun hc => hc.put _ _,
            hrecords _ (subset_foldl_concepts _ _)⟩, fun h => h.grows_addConceptsToMemory ..⟩
  · exact ⟨.refl e, Ok.grows⟩

/-- A commit changes no record but by that. -/
lemma transferred_commitOne (n : ℕ) (s : BeliefEngine) (p : ProposedSupersession) :
    Transferred s.engine (commitOne E B C (n, s) p).2.engine := by
  unfold commitOne
  dsimp only
  split
  · split
    · exact { (transferUniqueConcepts_spec B
        (s.engine.setGraph (addSupersession B C s.engine.graph.graph p).2) p.oldOffset p.newOffset
        p.newId).1 with }
    · exact ⟨rfl, rfl, rfl, rfl, rfl, id, fun _ => rel_enriches_refl _⟩
  · exact .refl _

/-- The graph has the memory. -/
def knows (s : BeliefEngine) (id : String) : Bool :=
  s.engine.graph.graph.interner.keyToId[memKey id]?.isSome

/-- Both memories of the pair are in the graph, and its edge is not. -/
def Enters (s : BeliefEngine) (p : ProposedSupersession) : Prop :=
  s.knows p.oldId = true ∧ s.knows p.newId = true ∧
    ¬s.engine.graph.graph.HasBelief p.kind.edge p.oldId p.newId

/-- The kinds have different edges. -/
lemma edge_injective {kind kind' : SupersessionKind} : kind.edge = kind'.edge ↔ kind = kind' := by
  cases kind <;> cases kind' <;> simp [SupersessionKind.edge]

/-- What committing a pair that enters does: its edge is there, and the newer memory may have got
concepts. -/
structure CommitsOne (s : BeliefEngine) (p : ProposedSupersession) (e' : Engine) : Prop
    extends Transferred s.engine e' where
  enters : s.Enters p
  graph : e'.graph.graph.Ok
  memories : ∀ id, e'.graph.graph.interner.keyToId[memKey id]? =
    s.engine.graph.graph.interner.keyToId[memKey id]?
  supersessions : e'.graph.graph.supersessions =
    s.engine.graph.graph.supersessions ++ [(p.oldId, p.newId)]
  beliefs : ∀ kind old new, e'.graph.graph.HasBelief (SupersessionKind.edge kind) old new ↔
    s.engine.graph.graph.HasBelief kind.edge old new ∨ kind = p.kind ∧ old = p.oldId ∧ new = p.newId

/-- No record comes or goes. -/
lemma CommitsOne.knows {t : DemotionTable} {w : ℕ} {e' : Engine} (h : CommitsOne s p e') :
    BeliefEngine.knows ⟨e', t, w⟩ = s.knows := by
  funext id
  rw [BeliefEngine.knows, h.memories]
  rfl

variable (E) in
/-- **A commit of one pair** does nothing, or the pair enters and its older memory is demoted. -/
lemma commitOne_spec (h : s.engine.graph.graph.Ok) (n : ℕ) (p : ProposedSupersession) :
    (¬s.Enters p ∧ (addSupersession B C s.engine.graph.graph p).1 = false ∧
      commitOne E B C (n, s) p = (n, s)) ∨
    ∃ e', CommitsOne s p e' ∧ (addSupersession B C s.engine.graph.graph p).1 = true ∧
      commitOne E B C (n, s) p = (n + 1, ⟨e', demote B C s.demotion p.oldOffset, s.watermark⟩) := by
  rcases addSupersession_spec h B C p with ⟨heq, hskip⟩ | ⟨g', heq, hentered⟩
  · refine .inl ⟨?_, by rw [heq], by simp [commitOne, heq]⟩
    rintro ⟨hold, hnew, hfresh⟩
    rcases hskip with hnone | hnone | hbelief
    · simp [knows, hnone] at hold
    · simp [knows, hnone] at hnew
    · exact hfresh hbelief
  · -- The graph is that with the edge, or grew from it.
    obtain ⟨e', heq', hgrows⟩ : ∃ e', commitOne E B C (n, s) p =
        (n + 1, ⟨e', demote B C s.demotion p.oldOffset, s.watermark⟩) ∧
      Grows g' e'.graph.graph := by
      simp only [commitOne, heq, if_true]
      refine ⟨_, rfl, ?_⟩
      split
      · exact (transferUniqueConcepts_spec B (s.engine.setGraph g') _ _ _).2 hentered.ok
      · exact hentered.ok.grows
    have htransfer := transferred_commitOne (E := E) B C n s p
    rw [heq'] at htransfer
    obtain ⟨m, hm⟩ := hentered.oldKey
    obtain ⟨m', hm'⟩ := hentered.newKey
    refine .inr ⟨e', ⟨htransfer, ⟨by simp [knows, hm], by simp [knows, hm'], hentered.fresh⟩,
      hgrows.ok, fun id => ?_, ?_, fun kind old new => ?_⟩, by rw [heq], heq'⟩
    · rw [hgrows.memories, hentered.interner]
    · rw [hgrows.supersessions, hentered.supersessions]
    · rw [hgrows.hasBelief_iff hentered.ok (by cases kind <;> rfl), hentered.beliefs,
        edge_injective]

/-- Committing a founded pair. -/
lemma grounded_commitOne {n : ℕ} (h : s.engine.Grounded G)
    (hfounded : G.Holds s.engine.metadata.records.provenance (p.oldId, p.newId)) :
    (commitOne E B C (n, s) p).2.engine.Grounded G ∧
    (commitOne E B C (n, s) p).2.engine.metadata.records.provenance =
      s.engine.metadata.records.provenance := by
  rcases commitOne_spec E B C h.graph n p with ⟨-, -, heq⟩ | ⟨e', hone, -, heq⟩
  · rw [heq]
    exact ⟨h, rfl⟩
  · rw [heq]
    have hprov := provenance_of_enriches hone.records
    refine ⟨⟨hone.graph, hone.clean h.clean, ?_, ?_, ?_, ?_⟩, hprov⟩
    · rw [hprov, hone.nextOffset]
      exact h.fresh
    · rw [hprov, hone.idIndex]
      exact h.named
    · simp only [hone.memories, hone.idIndex]
      exact h.indexed
    · rw [hprov, hone.supersessions]
      intro q hq
      rcases mem_append.mp hq with hq | hq
      · exact h.founded q hq
      · rw [mem_singleton.mp hq]
        exact hfounded

/-- **What committing pairs one after the other and saving the graph keep, a commit keeps**; the
list is that of the pairs so far. -/
lemma commitSupersessions_induction {P : List ProposedSupersession → BeliefEngine → Prop}
    {ps : List ProposedSupersession} (hs : P [] s)
    (hone : ∀ done p n s', done ++ [p] <+: ps → P done s' →
      P (done ++ [p]) (commitOne E B C (n, s') p).2)
    (hsave : ∀ s', P ps s' → P ps { s' with engine := { s'.engine with
      metadata := s'.engine.metadata.saveGraph (E.toSnapshotBytes s'.engine.graph.graph) } }) :
    P ps (commitSupersessions E B C s ps).2 := by
  have hfold : ∀ rest done acc, done ++ rest = ps → P done acc.2 →
      P ps (rest.foldl (commitOne E B C) acc).2 := by
    intro rest
    induction rest with
    | nil =>
      rintro done acc rfl h
      rwa [append_nil]
    | cons p rest ih =>
      intro done acc heq h
      have heq : done ++ [p] ++ rest = ps := by simpa using heq
      exact ih _ _ heq (hone done p acc.1 acc.2 ⟨rest, heq⟩ h)
  have hall := hfold ps [] (0, s) rfl hs
  unfold commitSupersessions
  dsimp only
  split
  · exact hsave _ hall
  · exact hall

/-- Committing founded pairs. -/
lemma grounded_commitSupersessions (h : s.engine.Grounded G) (hfounded : ∀ p ∈ proposed,
      G.Holds s.engine.metadata.records.provenance (p.oldId, p.newId)) :
    (commitSupersessions E B C s proposed).2.engine.Grounded G := by
  refine (commitSupersessions_induction (P := fun _ s' => s'.engine.Grounded G ∧
    s'.engine.metadata.records.provenance = s.engine.metadata.records.provenance) B C ⟨h, rfl⟩
    (fun done p n s' hpre hs' => ?_) fun s' hs' => ⟨?_, hs'.2⟩).1
  · obtain ⟨hstep, hsame⟩ := grounded_commitOne (E := E) (n := n) B C hs'.1
      (hs'.2 ▸ hfounded p (hpre.subset (by simp)))
    exact ⟨hstep, hsame.trans hs'.2⟩
  · exact hs'.1.of_keeps { hs'.1.clean with } rfl le_rfl rfl hs'.1.graph.keeps

/-- What a pass proposes is founded in the store it leaves. -/
lemma propose_spec (h : s.engine.Grounded G) (ann : Ann) (D : Detection) :
    (propose E B C ann D s).2.engine.Grounded G ∧
    (propose E B C ann D s).2.engine.metadata.records.provenance =
      s.engine.metadata.records.provenance ∧
    ∀ proposed, (propose E B C ann D s).1 = .ok proposed → ∀ p ∈ proposed,
      Founded C.beliefSourceRoles s.engine.metadata.records.provenance (p.oldId, p.newId) := by
  have hdrain : s.drain.engine.Grounded G := h.still (still_drain s.engine)
  have hprov : s.drain.engine.metadata.records.provenance =
      s.engine.metadata.records.provenance := (drainInto_spec _ _).2.1
  refine ⟨hdrain, hprov, fun proposed hproposed p hp => ?_⟩
  rcases mem_proposeLoop hproposed hp with hmem | ⟨cand, hcand, -, hone⟩
  · cases hmem
  · exact hprov ▸ (proposeOne_spec hdrain (mem_candidates.mp hcand) hone).1

/-- A detection that is on has the kind and the test of its pass, and looks for at least one
pair. -/
lemma Detection.when_spec {threshold : Option F32} {maxPairs : ℕ} {kind : SupersessionKind}
    {gate : MetaRecord → MetaRecord → Bool}
    (h : Detection.when threshold maxPairs kind gate = some D) :
    D.kind = kind ∧ D.gate = gate ∧ 0 < D.maxPairs := by
  unfold Detection.when at h
  split at h
  · cases h
  · split at h
    · cases h
    · next hmax =>
      cases h
      exact ⟨rfl, rfl, Nat.pos_of_ne_zero hmax⟩

section

variable (h : s.engine.Grounded G)
  (hG : ∀ p, Founded C.beliefSourceRoles s.engine.metadata.records.provenance p →
    G.Holds s.engine.metadata.records.provenance p) (ann : Ann)
include h hG

/-- Committing what a pass proposes, if founded pairs are to be entered. -/
lemma grounded_commitProposed_detect (D : Option Detection) :
    (commitProposed E B C (detect E B C ann D s)).2.engine.Grounded G := by
  cases D with
  | none => exact h
  | some D =>
    obtain ⟨hgrounded, hprov, hspec⟩ := propose_spec (E := E) B C h ann D
    rcases hr : propose E B C ann D s with ⟨_ | proposed, s'⟩ <;>
      rw [hr] at hgrounded hprov hspec <;>
      simp only [detect, hr, commitProposed]
    · exact hgrounded
    · refine grounded_commitSupersessions B C hgrounded fun p hp => ?_
      rw [hprov]
      exact hG _ (hspec proposed rfl p hp)

/-- Both detection passes keep the invariant. -/
lemma grounded_check :
    (checkRefinements E B C ann s).2.engine.Grounded G ∧
    (checkContradictions E B C ann s).2.engine.Grounded G := by
  rw [checkRefinements, checkContradictions, proposeRefinements, proposeContradictions]
  exact ⟨grounded_commitProposed_detect B C h hG ann _,
    grounded_commitProposed_detect B C h hG ann _⟩

end

end BeliefEngine

/-! ## A flush and a new open -/

/-- What a flush leaves: the snapshot has the records and the graph of the cache, and the log is
empty. -/
structure Engine.Saved (E : Env) (e : Engine) : Prop where
  records : e.metadata.db.records = e.metadata.records
  counter : e.metadata.records ≠ ∅ → e.metadata.db.nextOffset = some e.metadata.nextOffset
  graph : e.metadata.db.graph = some (E.toSnapshotBytes e.graph.graph)
  wal : e.wal.Holds E.codec [] []

/-- Graphs are saved and loaded in the graph's own format. -/
def Env.OwnSnapshots (E : Env) : Prop :=
  ∃ C, (∀ g, E.toSnapshotBytes g = g.toSnapshotBytes C) ∧
    ∀ bytes, E.fromSnapshotBytes bytes = (MemoryGraph.fromSnapshotBytes C bytes).toOption

/-- A saved graph is loaded as it was, with its edges sorted. -/
lemma Env.OwnSnapshots.reload {E : Env} (hE : E.OwnSnapshots) (g : MemoryGraph) :
    E.fromSnapshotBytes (E.toSnapshotBytes g) = some g.reload := by
  obtain ⟨C, hsave, hload⟩ := hE
  rw [hsave, hload, fromSnapshotBytes_toSnapshotBytes]
  rfl

namespace Engine

variable {E : Env} {G : Ground} {e e' : Engine} {config : StoreConfig}

/-- **A flush saves** the records and the graph, and empties the log. -/
lemma saved_flush (h : e.metadata.Clean)
    (hcall : e.call E io .flush = (.ok reply, e')) : e'.Saved E := by
  have hclean := (drainInto_spec e.accessCounters.toList e.metadata).1 h
  simp only [call, perform, begin, flush, runAll, exec] at hcall
  rcases hflush : e.vectors.flush with ⟨_ | _, vectors⟩
  · simp [hflush] at hcall
  · simp only [hflush, Prod.mk.injEq] at hcall
    obtain rfl := hcall.2
    set m := drainInto e.accessCounters.toList e.metadata
    refine ⟨?_, ?_, ?_, ?_⟩
    · show (m.flush (e.metadata.nextSeq - 1)).db.records =
        (m.flush (e.metadata.nextSeq - 1)).records
      rw [hclean.records_flush]
      unfold MetadataStore.flush
      split <;> rfl
    · show (m.flush (e.metadata.nextSeq - 1)).records ≠ ∅ →
        (m.flush (e.metadata.nextSeq - 1)).db.nextOffset =
          some (m.flush (e.metadata.nextSeq - 1)).nextOffset
      unfold MetadataStore.flush
      split
      · next hnone => exact fun hne => absurd hnone.2.2 hne
      · exact fun _ => rfl
    · rfl
    · show e.wal.clear.Holds E.codec [] []
      exact Wal.holds_clear _ _

/-- An open that finds no operations in the log takes the snapshot as it is. -/
lemma metadata_open {d : Disk} (hwal : WalImage E.codec [] d.wal)
    (hopen : Engine.open E config d = .ok e') :
    ∃ recovered : Engine, e'.metadata = MetadataStore.open d.redb ∧
      recovered.metadata = e'.metadata ∧ recovered.rebuild E = .ok e' := by
  obtain ⟨-, opened, recovered, hfiles, hrun, -, hrebuild⟩ := open_eq_ok_iff.mp hopen
  have hmeta : recovered.metadata = e'.metadata := by rw [rebuild_eq hrebuild]
  refine ⟨recovered, hmeta ▸ ?_, hmeta, hrebuild⟩
  obtain ⟨w, tail, hw, hholds⟩ := hwal.open
  obtain ⟨vs, w, -, hw', rfl⟩ := openFiles_eq_ok_iff.mp hfiles
  cases hw.symm.trans hw'
  have hread := hholds.readAll
  have hversion : w.needsUpgrade = false := by simp [Wal.needsUpgrade, hholds.version]
  simp only [recoverPlan, mustPersist, replay, hread, foldl_nil, hversion, Bool.or_false,
    Bool.false_eq_true, if_false, append_nil, replayedEngine] at hrun
  -- Only a torn tail of the log is left to be cut.
  unfold cutPlan at hrun
  split at hrun
  · obtain rfl := (Prod.mk.inj hrun).2
    rfl
  · obtain rfl := (Prod.mk.inj hrun).2
    rfl

/-- **A new open after a flush** keeps the invariant. -/
lemma Grounded.reopen (h : e.Grounded G) (hE : E.OwnSnapshots) (hsaved : e.Saved E)
    (hopen : Engine.open E config e.disk = .ok e') : e'.Grounded G := by
  obtain ⟨recovered, hmeta, hsame, hrebuild⟩ := metadata_open hsaved.wal.image hopen
  have heq := rebuild_eq hrebuild
  have hprov : e'.metadata.records.provenance = e.metadata.records.provenance := by
    rw [hmeta]
    exact congrArg Records.provenance hsaved.records
  have hgraph : e'.graph = rebuildGraph E (recovered.recordsVec E) e.metadata.db.graph := by
    rw [heq, hsame, hmeta]
    rfl
  have hindex : e'.idIndex =
      (recovered.recordsVec E).foldl (fun index p => index.insert p.2.id p.1) ∅ := by rw [heq]
  have hreloaded := h.graph.reloaded
  obtain ⟨hok, hsup, hkeys⟩ := rebuildGraph_spec E (recovered.recordsVec E) hreloaded.ok
    (show e.metadata.db.graph.bind E.fromSnapshotBytes = some e.graph.graph.reload by
      rw [hsaved.graph, Option.bind_some, hE.reload])
  constructor
  · rw [hgraph]
    exact hok
  · rw [hmeta]
    exact clean_open _
  · intro o a ho
    rw [hprov] at ho
    have hne : e.metadata.records ≠ ∅ := by
      intro hempty
      rw [Records.provenance, hempty] at ho
      simp at ho
    rw [hmeta]
    show o < e.metadata.db.nextOffset.getD _
    rw [hsaved.counter hne]
    exact h.fresh o a ho
  · intro id o ho
    rw [hindex] at ho
    rcases exists_of_getElem?_foldl_insert ho with ⟨p, hp, rfl, rfl⟩ | hempty
    · obtain ⟨m, hm, hname⟩ := Option.map_eq_some_iff.mp (idOf_of_mem_recordsVec hp)
      rw [hsame] at hm
      exact ⟨m.provenance, Option.map_eq_some_iff.mpr ⟨m, hm, rfl⟩, hname⟩
    · simp at hempty
  · intro id nid hid
    rw [hgraph] at hid
    obtain ⟨p, hp, rfl⟩ := (hkeys id).mp ⟨nid, hid⟩
    rw [hindex]
    exact mem_indexIds.mpr (.inr ⟨p, hp, rfl⟩)
  · intro p hp
    rw [hgraph, hsup] at hp
    rw [hprov]
    exact h.founded p (hreloaded.perm.mem_iff.mp (mem_filter.mp hp).1)

end Engine

/-! ## Runs -/

/-- The operations of the graph's upkeep. -/
def GraphOp.tends : GraphOp → Bool
  | .reinforce .. => true
  | .decayEdges .. => true
  | .reweightMemory .. => true
  | .buildAbstractions _ => true
  | .evolveVocabulary .. => true
  | _ => false

/-- The upkeep of the graph keeps memories and supersessions. -/
lemma GraphOp.keeps_apply (A : GraphArith) (L : LearnArith) (h : g.Ok)
    {op : GraphOp} (htends : op.tends = true) (hop : op.Apart g) : Keeps g (op.apply A L g) := by
  cases op with
  | reinforce id now => exact (h.grows_reinforce L id now).keeps h
  | decayEdges now halfLife => exact (h.grows_decayEdges L now halfLife).keeps h
  | reweightMemory id newImportance => exact h.keeps_reweightMemory A L ..
  | buildAbstractions threshold => exact (h.grows_buildAbstractions threshold hop).keeps h
  | evolveVocabulary overlapThreshold hubFraction maxPairs => exact h.keeps_evolveVocabulary A L ..
  | _ => cases htends

namespace BeliefEngine

open Engine

variable {E : Env} {B : BeliefArith} {C : BeliefConfig} {config : StoreConfig}
  {s s' : BeliefEngine}

/-- A request as the store itself sees it. -/
lemma engine_call {reply : Except StorageError Reply}
    (h : s.call E io r = (reply, s')) : s.engine.call E io r = (reply, s'.engine) := by
  unfold call at h
  unfold Engine.call Engine.perform
  cases hbegin : s.engine.begin E s.engine.graph.graph.vocab r with
  | done reply' =>
    rw [hbegin] at h
    cases h
    rfl
  | run e plan reply' =>
    have hrun := runAll_project (f := exec E io) (g := Engine.exec E io)
      (π := BeliefEngine.engine) (l := id) (fun _ _ => rfl) plan { s with engine := e }
    rw [map_id] at hrun
    simp only [hbegin] at h ⊢
    rw [hrun]
    split at h <;> next heq => cases h; simp only [heq]

/-- Apply an operation to the graph. -/
def tend (E : Env) (B : BeliefArith) (s : BeliefEngine) (op : GraphOp) : BeliefEngine :=
  let graph := op.apply E.arith B.learn s.engine.graph.graph
  { s with engine := s.engine.setGraph graph }

/-- The engine of an opened store. -/
lemma open_eq_ok {d : Disk} {saved : Std.ExtTreeMap PointOffset F32}
    (hopen : BeliefEngine.open E config d saved = .ok s) :
    Engine.open E config d = .ok s.engine := by
  unfold BeliefEngine.open at hopen
  cases he : Engine.open E config d with
  | error err => simp [he, Except.map] at hopen
  | ok e =>
    rw [he] at hopen
    rw [← Except.ok.inj hopen]

/-- What can happen to a store: a request, whatever calls fail, a detection pass, whatever it finds,
the upkeep of the graph, and a flush followed by an open. -/
inductive Step (E : Env) (B : BeliefArith) (C : BeliefConfig) : BeliefEngine → BeliefEngine → Prop
  | request (s : BeliefEngine) (io : Io) (r : Request) : Step E B C s (s.call E io r).2
  | checkRefinements (s : BeliefEngine) (ann : Ann) :
      Step E B C s (s.checkRefinements E B C ann).2
  | checkContradictions (s : BeliefEngine) (ann : Ann) :
      Step E B C s (s.checkContradictions E B C ann).2
  | advanceWatermark (s : BeliefEngine) : Step E B C s s.advanceWatermark
  | tend (s : BeliefEngine) (op : GraphOp) (htends : op.tends = true)
      (hop : op.Apart s.engine.graph.graph) :
      Step E B C s (s.tend E B op)
  | saveGraph (s : BeliefEngine) (io : Io) : Step E B C s (s.exec E io .saveGraph).2
  | reopen {s s' s'' : BeliefEngine} {io : Io} {reply : Reply} (config : StoreConfig)
      (hflush : s.call E io .flush = (.ok reply, s'))
      (hopen : BeliefEngine.open E config s'.engine.disk s'.demotion.saved = .ok s'') :
      Step E B C s s''

/-- The stores that steps lead to from a new one. -/
inductive Run (E : Env) (B : BeliefArith) (C : BeliefConfig) : BeliefEngine → Prop
  | new {s : BeliefEngine} (config : StoreConfig)
      (hopen : BeliefEngine.open E config {} ∅ = .ok s) :
      Run E B C s
  | step {s s' : BeliefEngine} (hrun : Run E B C s) (hstep : Step E B C s s') : Run E B C s'

/-- **Every step keeps the invariant.** -/
lemma Step.grounded {G : Ground} (hE : E.OwnSnapshots) (hstep : Step E B C s s')
    (hG : ∀ p, Founded C.beliefSourceRoles s.engine.metadata.records.provenance p →
      G.Holds s.engine.metadata.records.provenance p)
    (h : s.engine.Grounded G) : s'.engine.Grounded G := by
  cases hstep with
  | request io r => exact grounded_call h E io r
  | checkRefinements ann => exact (grounded_check B C h hG ann).1
  | checkContradictions ann => exact (grounded_check B C h hG ann).2
  | advanceWatermark => exact h
  | tend op htends hop =>
    exact h.of_keeps h.clean rfl le_rfl rfl (op.keeps_apply _ _ h.graph htends hop)
  | saveGraph io => exact h.still (still_exec E io s.engine rfl)
  | @reopen mid _ io reply config hflush hopen =>
    have hmid : mid.engine.Grounded G := by
      have := grounded_call h E io .flush
      rwa [hflush] at this
    exact hmid.reopen hE (saved_flush h.clean (engine_call hflush)) (open_eq_ok hopen)

/-- A new store has no records and an empty graph. -/
lemma open_blank (hopen : Engine.open E config {} = .ok e) :
    (∀ o, e.metadata.get o = none) ∧ e.idIndex = ∅ ∧ e.graph = buildGraph E [] ∧
      e.metadata.Clean := by
  obtain ⟨recovered, hmeta, hsame, hrebuild⟩ := metadata_open (.absent rfl) hopen
  have heq := rebuild_eq hrebuild
  have hget : ∀ o, e.metadata.get o = none := by
    intro o
    simp [MetadataStore.get, hmeta, MetadataStore.open]
  have hnone : recovered.recordsVec E = [] := by
    refine eq_nil_iff_forall_not_mem.mpr fun p hp => ?_
    have hp := mem_recordsVec.mp hp
    rw [getRecord, hsame, hget] at hp
    cases hp
  refine ⟨hget, ?_, ?_, hmeta ▸ clean_open _⟩
  · rw [heq, hnone]
    rfl
  · rw [heq, hnone, hsame, hmeta]
    rfl

/-- A new store is grounded. -/
lemma grounded_new {G : Ground}
    (hopen : BeliefEngine.open E config {} ∅ = .ok s) : s.engine.Grounded G := by
  obtain ⟨hget, hindex, hgraph, hclean⟩ := open_blank (open_eq_ok hopen)
  obtain ⟨hok, hsup, hkeys⟩ := buildGraph_spec E []
  constructor
  · exact hgraph ▸ hok
  · exact hclean
  · intro o a ho
    obtain ⟨r, hr, -⟩ := Option.map_eq_some_iff.mp ho
    cases (hget o).symm.trans hr
  · intro id o ho
    rw [hindex] at ho
    simp at ho
  · intro id nid hid
    rw [hgraph] at hid
    obtain ⟨p, hp, -⟩ := (hkeys id).mp ⟨nid, hid⟩
    cases hp
  · intro p hp
    rw [hgraph, hsup] at hp
    cases hp

/-- So is every store of a run. -/
lemma Run.grounded (hE : E.OwnSnapshots) (hrun : Run E B C s) :
    s.engine.Grounded (founding C.beliefSourceRoles) := by
  induction hrun with
  | new config hopen => exact grounded_new hopen
  | step _ hstep ih => exact hstep.grounded hE (fun _ hp => hp) ih

/-! ## Chains -/

/-- The sequence number of the newest record of an id. -/
def topSeq (records : Records) (id : String) : ℕ :=
  (records.toList.filterMap fun p => if p.2.id = id then some p.2.insertSeq else none).foldr max 0

/-- The top number is a bound. -/
lemma le_topSeq {records : Records} {a : Provenance}
    (ho : records.provenance o = some a) : a.insertSeq ≤ topSeq records a.id := by
  obtain ⟨r, hr, rfl⟩ := Option.map_eq_some_iff.mp ho
  have hmem : r.insertSeq ∈ records.toList.filterMap fun p =>
      if p.2.id = r.id then some p.2.insertSeq else none :=
    mem_filterMap.mpr ⟨(o, r), Std.ExtTreeMap.mem_toList_iff_getElem?_eq_some.mpr hr, by simp⟩
  exact le_max_of_le hmem le_rfl

/-- It is the least one. -/
lemma topSeq_le {records : Records} {bound : ℕ}
    (hle : ∀ o a, records.provenance o = some a → a.id = id → a.insertSeq ≤ bound) :
    topSeq records id ≤ bound := by
  refine max_le_of_forall_le _ _ fun seq hseq => ?_
  obtain ⟨⟨o, r⟩, hmem, hif⟩ := mem_filterMap.mp hseq
  rw [Std.ExtTreeMap.mem_toList_iff_getElem?_eq_some] at hmem
  obtain ⟨hid, hseq⟩ := Option.ite_none_right_eq_some.mp hif
  rw [← Option.some.inj hseq]
  exact hle o r.provenance (by rw [Records.provenance, hmem]; rfl) hid

variable {roles : Option (List String)}

/-- The newest record of the newer id of a pair is newer than all of the older id. -/
lemma topSeq_lt_of_founded {records : Records}
    (h : Founded roles records.provenance p) : topSeq records p.1 < topSeq records p.2 := by
  obtain ⟨o, -, a, -, ho, -, hold, -⟩ := h.joined
  obtain ⟨n, b, hn, hnew, hlt⟩ := h.newest
  have hpos : a.insertSeq < b.insertSeq := hlt o a ho hold
  have hle : topSeq records p.1 ≤ b.insertSeq - 1 := by
    refine topSeq_le fun o' a' ho' ha' => ?_
    have := hlt o' a' ho' ha'
    omega
  have htop : b.insertSeq ≤ topSeq records p.2 := hnew ▸ le_topSeq hn
  omega

/-- An id that some record has. -/
def Live (s : BeliefEngine) (id : String) : Prop :=
  ∃ o r, s.engine.metadata.get o = some r ∧ r.id = id

/-- The first memory is superseded by the second. -/
def Superseded (s : BeliefEngine) (old new : String) : Prop :=
  (old, new) ∈ s.engine.graph.graph.supersessions

/-- What it means for the beliefs of a store to be well founded. -/
structure BeliefsFounded (roles : Option (List String)) (s : BeliefEngine) : Prop where
  /-- Every edge leads from a live record to a newer one of another id in its scope; both have
  allowed roles. -/
  edge : ∀ kind old new, kind.supersedes = true →
    s.engine.graph.graph.HasBelief kind old new → old ≠ new ∧
      ∃ o n a b, s.engine.metadata.get o = some a ∧ s.engine.metadata.get n = some b ∧
        a.id = old ∧ b.id = new ∧ a.scope = b.scope ∧ a.insertSeq < b.insertSeq ∧
        roleAllowed a.sourceRole roles = true ∧ roleAllowed b.sourceRole roles = true
  acyclic : ∀ id, ¬ Relation.TransGen s.Superseded id id
  head : ∀ id, s.Live id → s.Live (s.engine.graph.graph.beliefHead id) ∧
    s.engine.graph.graph.beliefHead id ∉ s.engine.graph.graph.supersededIds

section

variable (h : s.engine.Grounded (founding roles))
include h

/-- The sequence number of the newest record goes up along a supersession. -/
lemma topSeq_lt (hsup : s.Superseded old new) :
    topSeq s.engine.metadata.records old < topSeq s.engine.metadata.records new :=
  topSeq_lt_of_founded (h.founded _ hsup)

/-- Both ids of a supersession are live. -/
lemma live_of_superseded (hsup : s.Superseded old new) : s.Live new := by
  obtain ⟨-, n, -, b, -, hn, -, hnew, -⟩ := (h.founded _ hsup).joined
  obtain ⟨r, hr, rfl⟩ := Option.map_eq_some_iff.mp hn
  exact ⟨n, r, hr, hnew⟩

/-- The chain of a memory leads to its belief head, which is not superseded. -/
lemma beliefHead_spec (id : String) :
    Relation.ReflTransGen s.Superseded id (s.engine.graph.graph.beliefHead id) ∧
    s.engine.graph.graph.beliefHead id ∉ s.engine.graph.graph.supersededIds := by
  obtain ⟨newer, older, hlineage, -, hhead⟩ := h.graph.beliefLineage_spec id
  have hsup : ∀ old new, lastSuccessor s.engine.graph.graph.supersessions old = some new →
      s.Superseded old new := fun old new hnext => mem_of_lastSuccessor hnext
  have hnone := hlineage.forward.next_getLast
    (fun old new hnext => topSeq_lt h (hsup old new hnext))
    (by simp)
  rw [hhead]
  refine ⟨Relation.ReflTransGen.mono hsup _ _ hlineage.forward.reflTransGen, fun hmem => ?_⟩
  obtain ⟨new, hnew⟩ := mem_supersededIds.mp hmem
  simpa [hnone] using lastSuccessor_isSome_iff.mpr ⟨new, hnew⟩

end

/-- **Belief revision is well founded** in every store that the steps lead to. **Proof sketch.** By
the invariant the sequence number of the newest record of an id goes up along every edge. So there
is no cycle, and the walk to the belief head stops only where no edge leads on
(`Walk.next_getLast`). -/
theorem beliefs_founded (hE : E.OwnSnapshots) (hrun : Run E B C s) :
    BeliefsFounded C.beliefSourceRoles s := by
  have h := hrun.grounded hE
  constructor
  · intro kind old new hkind hbelief
    have hfounded := h.founded (old, new) (mem_supersessions.mpr ⟨kind, hkind, hbelief⟩)
    obtain ⟨o, n, a, b, ho, hn, hold, hnew, hscope, hseq, hroles⟩ := hfounded.joined
    obtain ⟨r, hr, rfl⟩ := Option.map_eq_some_iff.mp ho
    obtain ⟨r', hr', rfl⟩ := Option.map_eq_some_iff.mp hn
    exact ⟨hfounded.ne, o, n, r, r', hr, hr', hold, hnew, hscope, hseq, hroles⟩
  · intro id hcycle
    have hup : ∀ new, Relation.TransGen s.Superseded id new →
        topSeq s.engine.metadata.records id < topSeq s.engine.metadata.records new := by
      intro new hpath
      induction hpath with
      | single hstep => exact topSeq_lt h hstep
      | tail _ hstep ih => exact ih.trans (topSeq_lt h hstep)
    exact lt_irrefl _ (hup id hcycle)
  · intro id hid
    obtain ⟨hpath, hcurrent⟩ := beliefHead_spec h id
    refine ⟨?_, hcurrent⟩
    rcases Relation.ReflTransGen.cases_tail hpath with heq | ⟨old, -, hstep⟩
    · rw [heq]
      exact hid
    · exact live_of_superseded h hstep

end BeliefEngine

/-! ## A short run -/

/-- The small environment with the real snapshot format. -/
def beliefEnv : Env :=
  { sampleEnv with
    arith := sampleArith
    toSnapshotBytes := fun g => g.toSnapshotBytes bincodeSnapshot
    fromSnapshotBytes := fun bytes => (fromSnapshotBytes bincodeSnapshot bytes).toOption }

/-- A new store that has a property. -/
lemma exists_opened_belief [DecidablePred P]
    (h : passes (fun s₀ => decide (P s₀)) (BeliefEngine.open beliefEnv sampleConfig {} ∅) = true) :
    ∃ s₀, BeliefEngine.open beliefEnv sampleConfig {} ∅ = .ok s₀ ∧ P s₀ := by
  obtain ⟨s₀, hopen, h⟩ := exists_ok_of_passes h
  exact ⟨s₀, hopen, of_decide_eq_true h⟩

/-- The sample reads its own snapshots. -/
lemma ownSnapshots_beliefEnv : beliefEnv.OwnSnapshots :=
  ⟨bincodeSnapshot, fun _ => rfl, fun _ => rfl⟩

/-- Arithmetic for runs in which all vectors and texts are alike, and in which only products with
`1.0` are formed. -/
def sampleBelief : BeliefArith where
  learn := sampleLearnArith
  cosineSimilarity _ _ := F32.one
  textJaccardSimilarity _ _ := F32.one
  hasOppositionMarker _ := false
  lt x y := x.totalKey < y.totalKey
  le x y := x.totalKey ≤ y.totalKey
  mul x y := if x = F32.one then y else x
  max x y := if x.totalKey < y.totalKey then y else x
  clampUnit x := x

/-- Refinements from a cosine of `0.5` on, demotion by `0.5`. -/
def sampleBeliefConfig : BeliefConfig where
  refinementCosineThreshold := some ⟨0x3F000000⟩
  refinementMaxPairsPerCycle := 10
  refinementTextThreshold := ⟨0x3F000000⟩
  contradictionCosineThreshold := none
  contradictionMaxPairsPerCycle := 10
  contradictionTextThreshold := ⟨0x3F000000⟩
  contradictionRequireOpposition := true
  contradictionWeakenFactor := F32.one
  supersessionDemotionFactor := ⟨0x3F000000⟩
  beliefSourceRoles := none
  incrementalSupersessionDetection := false

namespace BeliefEngine

/-- Insert records about the same concept, one after the other. -/
def insertAll (s : BeliefEngine) (ids : List String) : BeliefEngine :=
  ids.foldl (fun s id => (s.call beliefEnv Io.ok
    (.insert 5 { sampleInput id "text" none with concepts := ["topic"] })).2) s

/-- Inserts are steps of a run. -/
lemma run_insertAll {s : BeliefEngine} (h : Run beliefEnv sampleBelief sampleBeliefConfig s)
    (ids : List String) : Run beliefEnv sampleBelief sampleBeliefConfig (s.insertAll ids) :=
  Loop.foldl_induction ids h fun _ _ s hs => hs.step (.request s Io.ok _)

/-- Two inserts, and a pass that finds that the second refines the first. -/
def refined (s : BeliefEngine) : BeliefEngine :=
  ((s.insertAll ["a", "b"]).checkRefinements beliefEnv sampleBelief sampleBeliefConfig
    fun _ _ _ _ => .ok ["a", "b"]).2

set_option maxRecDepth 10000

/-- A refinement that was detected before a flush and a new open. -/
theorem beliefs_founded_refined : ∃ s, Run beliefEnv sampleBelief sampleBeliefConfig s ∧
    s.engine.graph.graph.supersessions = [("a", "b")] ∧ BeliefsFounded none s := by
  obtain ⟨s₀, hopen, hreply, htest⟩ := exists_opened_belief (P := fun s₀ =>
    let r := s₀.refined.call beliefEnv Io.ok .flush
    passes (fun _ => true) r.1 ∧
      passes (fun s => s.engine.graph.graph.supersessions = [("a", "b")])
        (BeliefEngine.open beliefEnv sampleConfig r.2.engine.disk r.2.demotion.saved))
    (by decide +kernel)
  have hrefined : Run beliefEnv sampleBelief sampleBeliefConfig s₀.refined :=
    (run_insertAll (.new sampleConfig hopen) _).step (.checkRefinements _ _)
  generalize hflush : s₀.refined.call beliefEnv Io.ok .flush = flushed at hreply htest
  obtain ⟨result, mid⟩ := flushed
  obtain ⟨reply, rfl, -⟩ := exists_ok_of_passes hreply
  obtain ⟨s, hreopen, htest⟩ := exists_ok_of_passes htest
  have hrun := hrefined.step (.reopen sampleConfig hflush hreopen)
  exact ⟨s, hrun, of_decide_eq_true htest, beliefs_founded ownSnapshots_beliefEnv hrun⟩

end BeliefEngine

end TurboMemory
