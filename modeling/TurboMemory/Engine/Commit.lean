import TurboMemory.Engine.Write

/-!
# The steps of a commit section

What each step of the write path leaves, as callers use it: which offsets and sequence numbers
records get, and which parts of a store the index updates touch.

## Main results

* `prepare_eq_ok`, `prepareBatch_sublist` — validation keeps id and payload.
* `Engine.applyBatch_spec` — applying a batch, complete or not.
* `Engine.removeFromIndexes_spec` — dropping a record.
* `Engine.begun_of_begin` — the plans of requests.
-/

set_option autoImplicit false

namespace TurboMemory

open CriticalSections List MetadataStore

/-! ## Allocation -/

section Allocate

variable (clock : ℕ → ℕ) (i : ℕ) (ps : List PreparedRecord) (m : MetadataStore)

/-- Allocation only moves the counters. -/
lemma allocateAll_snd : (allocateAll clock i ps m).2 = { m with
    nextOffset := m.nextOffset + ps.length, nextSeq := m.nextSeq + ps.length } := by
  induction ps generalizing i m with
  | nil => rfl
  | cons p ps ih =>
    simp only [allocateAll, ih, allocateOffset, allocateSeq, length_cons]
    simp only [mk.injEq, true_and, and_true]
    omega

/-- Places and numbers are allocated side by side, between the old and the new counters. -/
lemma mem_allocateAll {q : PointOffset × Record} (hq : q ∈ (allocateAll clock i ps m).1) :
    (m.nextOffset ≤ q.1 ∧ q.1 < m.nextOffset + ps.length) ∧
    (m.nextSeq ≤ q.2.insertSeq ∧ q.2.insertSeq < m.nextSeq + ps.length) ∧
    q.2.insertSeq + m.nextOffset = q.1 + m.nextSeq := by
  induction ps generalizing i m with
  | nil => simp [allocateAll] at hq
  | cons p ps ih =>
    simp only [allocateAll, mem_cons] at hq
    rcases hq with rfl | hq
    · simp [PreparedRecord.intoRecord, allocateOffset, allocateSeq, Nat.add_comm]
    · obtain ⟨⟨hle, hlt⟩, hseq⟩ := ih (i + 1) _ hq
      simp only [allocateOffset, allocateSeq] at hle hlt hseq
      rw [length_cons]
      refine ⟨⟨(Nat.le_succ _).trans hle, hlt.trans_eq (Nat.add_right_comm _ 1 _)⟩, ?_⟩
      omega

/-- Offsets are allocated in order. -/
lemma pairwise_allocateAll : (allocateAll clock i ps m).1.Pairwise fun p q => p.1 < q.1 := by
  induction ps generalizing i m with
  | nil => exact Pairwise.nil
  | cons p ps ih =>
    simp only [allocateAll]
    refine Pairwise.cons ?_ (ih (i + 1) _)
    intro q hq
    exact Nat.lt_of_succ_le (mem_allocateAll clock (i + 1) ps _ hq).1.1

/-- The records are those that were prepared. -/
lemma map_allocateAll {β : Type} (f : PreparedRecord → β) (g : Record → β)
    (hfg : ∀ p now seq, g (PreparedRecord.intoRecord p now seq) = f p) :
    (allocateAll clock i ps m).1.map (fun q => g q.2) = ps.map f := by
  induction ps generalizing i m with
  | nil => rfl
  | cons p ps ih => simp only [allocateAll, map_cons, hfg, ih]

end Allocate

/-! ## Validation -/

variable {E : Env} {vocab : ConceptVocabulary} {config : StoreConfig}

/-- What validation keeps of a record: its id, its payload, which passed the check, and the length
of its embedding. -/
lemma prepare_eq_ok {input : WriteInput}
    {p : PreparedRecord} (h : prepare E config vocab input = .ok p) :
    p.id = input.id ∧ p.payload = input.payload ∧ p.embedding.length = config.dimension ∧
    checkPayload E input.payload = .ok () ∧
    p.text = input.text ∧ p.scope = input.scope ∧ p.sourceRole = input.sourceRole := by
  simp only [prepare, bind, Except.bind] at h
  split at h
  · cases h
  split at h
  · cases h
  next hdim =>
  split at h
  · cases h
  split at h
  · cases h
  next hpayload =>
  split at h
  · cases h
  next v hv =>
  cases h
  refine ⟨rfl, rfl, ?_, hpayload, rfl, rfl, rfl⟩
  have hnorm : normalize E.float input.embedding = .ok v := by
    cases hn : normalize E.float input.embedding with
    | error err => simp [hn, Except.mapError] at hv
    | ok w =>
      simpa [hn, Except.mapError] using hv
  show v.length = config.dimension
  rw [length_normalize hnorm]
  by_contra hne
  simp [validateDimension, hne] at hdim

/-- What a batch prepares: some of its records, in order, each id once. -/
lemma prepareBatch_sublist
    {inputs : List WriteInput} {seen : List String} {ps : List PreparedRecord}
    (h : prepareBatch E config vocab inputs seen = .ok ps) :
    (ps.map fun p => (p.id, p.payload)).Sublist (inputs.map fun x => (x.id, x.payload)) ∧
    (ps.map PreparedRecord.id).Nodup ∧ (∀ p ∈ ps, p.id ∉ seen) ∧
    (∀ p ∈ ps, p.embedding.length = config.dimension) := by
  induction inputs generalizing seen ps with
  | nil =>
    cases h
    simp
  | cons input inputs ih =>
    simp only [prepareBatch, bind, Except.bind] at h
    split at h
    · cases h
    next record hrecord =>
    obtain ⟨hid, hpayload, hdim, -⟩ := prepare_eq_ok hrecord
    split at h
    · obtain ⟨hsub, hnodup, hseen, hdims⟩ := ih h
      exact ⟨hsub.cons _, hnodup, hseen, hdims⟩
    · next hnew =>
      split at h
      · cases h
      next records hrecords =>
      cases h
      obtain ⟨hsub, hnodup, hseen, hdims⟩ := ih hrecords
      refine ⟨?_, ?_, ?_, ?_⟩
      · simp only [map_cons, hid, hpayload]
        exact hsub.cons_cons _
      · rw [map_cons, nodup_cons]
        refine ⟨?_, hnodup⟩
        intro hmem
        obtain ⟨q, hq, hqid⟩ := mem_map.mp hmem
        exact hseen q hq (by simp [hqid, hid])
      · intro q hq
        rcases mem_cons.mp hq with rfl | hq
        · rwa [hid]
        · exact fun hmem => hseen q hq (by simp [hmem])
      · intro q hq
        rcases mem_cons.mp hq with rfl | hq
        · exact hdim
        · exact hdims q hq

/-- Leaving out the last elements keeps a sublist. -/
lemma sublist_dropLast {α : Type} {l l' : List α} (h : l.Sublist l') :
    l.dropLast.Sublist l'.dropLast := by
  have htail := h.reverse.tail
  rw [tail_reverse, tail_reverse] at htail
  exact reverse_sublist.mp htail

/-! ## Index updates -/

/-- The payload parses, so that indexing it does not fail. -/
def PayloadParses (E : Env) (payload : Option String) : Prop :=
  ∀ s, payload = some s → ∃ v, E.parseValue s = .ok v

variable {e e' : Engine}

namespace Engine

/-- Metadata, vectors, log and configuration are those of another store. -/
structure SameFiles (e e' : Engine) : Prop where
  config : e'.config = e.config
  metadata : e'.metadata = e.metadata
  vectors : e'.vectors = e.vectors
  wal : e'.wal = e.wal
  accessCounters : e'.accessCounters = e.accessCounters

/-- Nothing is written. -/
lemma SameFiles.refl (e : Engine) : SameFiles e e := ⟨rfl, rfl, rfl, rfl, rfl⟩

/-- One after the other. -/
lemma SameFiles.trans {e₁ e₂ e₃ : Engine} (h : SameFiles e₁ e₂) (h' : SameFiles e₂ e₃) :
    SameFiles e₁ e₃ :=
  ⟨h'.config.trans h.config, h'.metadata.trans h.metadata, h'.vectors.trans h.vectors,
    h'.wal.trans h.wal, h'.accessCounters.trans h.accessCounters⟩

/-- Enter records into an id index. -/
def indexIds (index : Std.ExtTreeMap String PointOffset) (records : List (PointOffset × Record)) :
    Std.ExtTreeMap String PointOffset :=
  records.foldl (fun index p => index.insert p.2.id p.1) index

variable {records : List (PointOffset × Record)}

/-- The ids of some records are entered. -/
lemma mem_indexIds {index : Std.ExtTreeMap String PointOffset} {id : String} :
    id ∈ indexIds index records ↔ id ∈ index ∨ ∃ p ∈ records, p.2.id = id := by
  induction records generalizing index with
  | nil => simp [indexIds]
  | cons p records ih =>
    rw [indexIds, foldl_cons, ← indexIds, ih, Std.ExtTreeMap.mem_insert,
      Std.LawfulEqCmp.compare_eq_iff_eq, exists_mem_cons_iff]
    tauto

variable {r : Except StorageError Unit}

/-- Indexing a record enters its id; it fails only if the payload does not parse. -/
lemma indexRecord_spec {p : PointOffset × Record}
    (h : indexRecord E p e = (r, e')) : SameFiles e e' ∧
    e'.idIndex = e.idIndex.insert p.2.id p.1 ∧ (PayloadParses E p.2.payload → r = .ok ()) := by
  simp only [indexRecord] at h
  split at h
  · next err payloadIndex hadd =>
    cases h
    refine ⟨⟨rfl, rfl, rfl, rfl, rfl⟩, rfl, ?_⟩
    intro hparses
    have hok := PayloadIndex.fst_add_of_parses e.payloadIndex p.1 hparses
    rw [hadd] at hok
    cases hok
  · cases h
    exact ⟨⟨rfl, rfl, rfl, rfl, rfl⟩, rfl, fun _ => rfl⟩

/-- Indexing records enters the ids of a first part of them: of all, if every payload but the last
parses. -/
lemma runAll_indexRecord_spec (h : runAll (indexRecord E) records e = (r, e')) :
    SameFiles e e' ∧ ∃ n, e'.idIndex = indexIds e.idIndex (records.take n) ∧
    (r = .ok () ∨ (∀ p ∈ records.dropLast, PayloadParses E p.2.payload) →
      records.take n = records) := by
  induction records generalizing e with
  | nil =>
    cases h
    exact ⟨.refl _, 0, rfl, fun _ => rfl⟩
  | cons p records ih =>
    rw [runAll] at h
    split at h
    · next e₁ hone =>
      obtain ⟨hsame, hids, -⟩ := indexRecord_spec hone
      obtain ⟨hsame', n, hids', hall⟩ := ih h
      refine ⟨hsame.trans hsame', n + 1, ?_, ?_⟩
      · rw [hids', hids, take_succ_cons]
        rfl
      · intro hcond
        rw [take_succ_cons, hall]
        refine hcond.imp_right fun hparses q hq => hparses q ?_
        cases records with
        | nil => simp at hq
        | cons q' records => simp [hq]
    · next err e₁ hone =>
      cases h
      obtain ⟨hsame, hids, hparse⟩ := indexRecord_spec hone
      refine ⟨hsame, 1, ?_, ?_⟩
      · rw [hids, take_succ_cons, take_zero]
        rfl
      · rintro (hok | hparses)
        · cases hok
        · cases records with
          | nil => rfl
          | cons q records => cases hparse (hparses p (by simp))

/-- **Applying a batch** caches all its records and enters the ids of a first part of them: of all,
if it succeeds or every payload but the last parses. -/
lemma applyBatch_spec {io : Io} (h : e.applyBatch E io records = (r, e')) :
    SameFiles { e with metadata := e.metadata.putBatch records } e' ∧
    ∃ n, e'.idIndex = indexIds e.idIndex (records.take n) ∧
    (r = .ok () ∨ (∀ p ∈ records.dropLast, PayloadParses E p.2.payload) →
      records.take n = records) := by
  simp only [applyBatch] at h
  split at h
  · next err e₁ hindex =>
    cases h
    exact runAll_indexRecord_spec hindex
  · next e₁ hindex =>
    obtain ⟨hsame, n, hids, hall⟩ := runAll_indexRecord_spec hindex
    split at h
    · cases h
      exact ⟨hsame, n, hids, fun _ => hall (.inl rfl)⟩
    · cases h
      exact ⟨{ hsame with }, n, hids, fun _ => hall (.inl rfl)⟩

/-- The metadata of a batch are there, complete or not. -/
lemma metadata_applyBatch (E : Env) (io : Io) (e : Engine)
    (records : List (PointOffset × Record)) :
    (e.applyBatch E io records).2.metadata = e.metadata.putBatch records :=
  (applyBatch_spec Prod.mk.eta.symm).1.metadata

/-- **Dropping a record** removes it from the metadata cache and its id from the id index. -/
lemma removeFromIndexes_spec (e : Engine) (id : String) (offset : PointOffset) :
    SameFiles { e with metadata := e.metadata.remove offset } (e.removeFromIndexes E id offset) ∧
    (e.removeFromIndexes E id offset).idIndex = e.idIndex.erase id := by
  rw [removeFromIndexes]
  split <;> exact ⟨⟨rfl, rfl, rfl, rfl, rfl⟩, rfl⟩

end Engine

/-! ## Requests -/

/-- A request that leaves the id index complete: of a batch, every payload but the last parses. -/
def Request.Indexable (E : Env) : Request → Prop
  | .insertBatch _ batch => ∀ x ∈ batch.inputs.dropLast, PayloadParses E x.payload
  | _ => True

/-- The plans of requests: insert prepared records of new ids, replace a record, delete one, or
flush. -/
inductive Engine.Begun (E : Env) (e : Engine) (r : Request) : Engine → List Action → Prop
  | inserts (clock : ℕ → ℕ) (ps : List PreparedRecord) : (ps.map PreparedRecord.id).Nodup →
      (∀ p ∈ ps, p.id ∉ e.idIndex) → (∀ p ∈ ps, p.embedding.length = e.config.dimension) →
      (r.Indexable E → ∀ p ∈ ps.dropLast, PayloadParses E p.payload) →
      Begun E e r { e with metadata := (allocateAll clock 0 ps e.metadata).2 }
        (writePlan (allocateAll clock 0 ps e.metadata).1
          (insertEntries (allocateAll clock 0 ps e.metadata).1) [])
  | replace (now : ℕ) (p : PreparedRecord) (oldOffset : PointOffset) :
      e.idIndex[p.id]? = some oldOffset → p.embedding.length = e.config.dimension →
      Begun E e r { e with metadata := (allocateAll (fun _ => now) 0 [p] e.metadata).2 }
        (writePlan [(e.metadata.nextOffset, p.intoRecord now e.metadata.nextSeq)]
          [.replace oldOffset e.metadata.nextOffset (p.intoRecord now e.metadata.nextSeq)]
          [.removeFromIndexes p.id oldOffset])
  | delete (id : String) (offset : PointOffset) : e.idIndex[id]? = some offset →
      Begun E e r e [.log [.delete offset id], .removeFromIndexes id offset]
  | flush : Begun E e r e [.processSeals, .drainCounters, .syncWal, .flushVectors,
      .flushMetadata (e.metadata.nextSeq - 1), .saveGraph, .clearWal]

/-- **What a request decides on.** -/
lemma Engine.begun_of_begin {r : Request}
    {plan : List Action} {reply : Reply} (h : e.begin E vocab r = .run e' plan reply) :
    e.Begun E r e' plan := by
  cases r with
  | insert now input =>
    simp only [begin, insert] at h
    split at h
    · cases h
    next prepared hprepared =>
    split at h
    · cases h
    next hnew =>
    cases h
    obtain ⟨hid, -, hdim, -⟩ := prepare_eq_ok hprepared
    refine .inserts (fun _ => now) [prepared] (by simp) ?_ ?_ (by simp)
    · intro p hp
      obtain rfl := mem_singleton.mp hp
      rwa [hid]
    · intro p hp
      obtain rfl := mem_singleton.mp hp
      exact hdim
  | insertBatch clock batch =>
    simp only [begin, insertBatch] at h
    split at h
    · cases h
    split at h
    · cases h
    split at h
    · cases h
    next prepared hprepared =>
    split at h
    · cases h
    cases h
    obtain ⟨hsub, hnodup, -, hdim⟩ := prepareBatch_sublist hprepared
    have hfilter := filter_sublist (p := fun p => p.id ∉ e.idIndex)
      (l := prepared)
    refine .inserts clock _ (hnodup.sublist (hfilter.map _)) ?_ ?_ ?_
    · intro p hp
      simpa using (mem_filter.mp hp).2
    · intro p hp
      exact hdim p (mem_of_mem_filter hp)
    · intro hparses p hp
      have hmem := mem_map_of_mem (f := fun q => (q.id, q.payload)) hp
      rw [map_dropLast] at hmem
      have hmem' := (sublist_dropLast ((hfilter.map _).trans hsub)).mem hmem
      rw [← map_dropLast] at hmem'
      obtain ⟨x, hx, hxp⟩ := mem_map.mp hmem'
      rw [← (Prod.mk.inj hxp).2]
      exact hparses x hx
  | update now input =>
    simp only [begin, update] at h
    split at h
    · cases h
    split at h
    · cases h
    next prepared hprepared =>
    split at h
    · cases h
    next oldOffset hold =>
    cases h
    obtain ⟨hid, -, hdim, -⟩ := prepare_eq_ok hprepared
    rw [← hid] at hold ⊢
    exact .replace now prepared oldOffset hold hdim
  | deleteById id =>
    simp only [begin, deleteById, deleteWhere] at h
    split at h
    · cases h
    next offset hold =>
    cases h
    exact .delete id offset hold
  | flush =>
    cases h
    exact .flush

end TurboMemory
