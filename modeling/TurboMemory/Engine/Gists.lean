import TurboMemory.Engine.Eviction

/-!
# Gists before eviction

With gists on, an eviction compresses the texts of its victims scope by scope, in chunks, and
inserts every gist as a new record before it deletes anything. A chunk whose gist could not be
produced or stored is spared.

## Main results

* `Engine.perform_insert` — an insert adds at most the new record.
* `Engine.gisted_gistVictims` — the nested loops of the gist step, chunk by chunk.
* `evict_meets_cap` — when an eviction gets the store down to its cap.
* `evict_compresses` — what was compressed before it was deleted.
-/

set_option autoImplicit false

namespace TurboMemory

open CriticalSections List Engine Grouping GistCall Prod
open Std (ExtTreeMap)

variable {E : Env} {offset : PointOffset} {plan : List (Option String × List Victim)}
  {vocab : ConceptVocabulary} {v : PointOffset × String} {input : WriteInput} {o : PointOffset}

/-! ## Inserting a gist -/

/-- A failed or successful `put` leaves the other slots alone. -/
lemma VectorStore.slot_put (io : GrowIo) (vs : VectorStore)
    (vector : Embedding) (hne : o ≠ offset) :
    (vs.put io offset vector).2.file.slot o = vs.file.slot o := by
  have hwrite : ∀ vs : VectorStore, (vs.writeVector offset vector).2.file.slot o
      = vs.file.slot o := by
    intro vs
    rw [writeVector]
    split
    · simp [VectorFile.write, hne]
    · rfl
  rw [put]
  split
  · rfl
  split
  · have h := congrFun (VectorStore.slot_growInner io vs offset) o
    split
    · next hvs => rwa [hvs] at h
    · next hvs =>
      rw [hvs] at h
      rw [hwrite, h]
  · exact hwrite vs

namespace Engine

/-- Every record lies below the next offset. -/
def Fresh (e : Engine) : Prop := ∀ o ∈ e.metadata.records, o < e.metadata.nextOffset

/-- Records were added at new offsets, and nothing else of a record changed. -/
structure Gains (e e' : Engine) : Prop where
  records : ∀ o < e.metadata.nextOffset, e'.metadata.records[o]? = e.metadata.records[o]?
  slots : ∀ o < e.metadata.nextOffset, e'.vectors.file.slot o = e.vectors.file.slot o
  resolves : ∀ v : PointOffset × String, v.1 < e.metadata.nextOffset → e'.resolves v = e.resolves v
  nextOffset : e.metadata.nextOffset ≤ e'.metadata.nextOffset
  fresh : e'.Fresh

variable {e e' : Engine}

/-- Nothing is added. -/
lemma Gains.refl (h : e.Fresh) : Gains e e :=
  ⟨fun _ _ => rfl, fun _ _ => rfl, fun _ _ => rfl, le_rfl, h⟩

/-- One after the other. -/
lemma Gains.trans {e'' : Engine} (h : Gains e e') (h' : Gains e' e'') : Gains e e'' where
  records o ho := (h'.records o (ho.trans_le h.nextOffset)).trans (h.records o ho)
  slots o ho := (h'.slots o (ho.trans_le h.nextOffset)).trans (h.slots o ho)
  resolves v hv := (h'.resolves v (hv.trans_le h.nextOffset)).trans (h.resolves v hv)
  nextOffset := h.nextOffset.trans h'.nextOffset
  fresh := h'.fresh

/-- The records, the id index and all slots but one are those of another store. -/
structure SameBut (offset : PointOffset) (e e' : Engine) : Prop where
  metadata : e'.metadata = e.metadata
  idIndex : e'.idIndex = e.idIndex
  slots : ∀ o ≠ offset, e'.vectors.file.slot o = e.vectors.file.slot o

/-- What an insert does before it applies the record. -/
lemma sameBut_exec {io : Io} {a : Action} {e₁ : Engine}
    (ha : a = .syncVectors ∨ (∃ entries, a = .log entries) ∨ ∃ vector, a = .put offset vector)
    (h : SameBut offset e e₁) : SameBut offset e (e₁.exec E io a).2 := by
  rcases ha with rfl | ⟨entries, rfl⟩ | ⟨vector, rfl⟩
  · exact h
  · rw [exec]
    split <;> exact { h with }
  · refine { h with slots := fun o ho => ?_ }
    exact (VectorStore.slot_put _ _ _ ho).trans (h.slots o ho)

/-- A store whose next offset was taken, and nothing else. -/
lemma Gains.of_sameBut {e₀ : Engine} (hfresh : e.Fresh)
    (hmeta : e₀.metadata.records = e.metadata.records)
    (hnext : e₀.metadata.nextOffset = e.metadata.nextOffset + 1)
    (hindex : e₀.idIndex = e.idIndex) (hvectors : e₀.vectors = e.vectors)
    (h : SameBut e.metadata.nextOffset e₀ e') : Gains e e' where
  records o _ := by rw [h.metadata, hmeta]
  slots o ho := by rw [h.slots o ho.ne, hvectors]
  resolves v _ := by simp only [Engine.resolves, h.idIndex, hindex]
  nextOffset := by rw [h.metadata, hnext]; exact Nat.le_succ _
  fresh o ho := by
    rw [h.metadata, hmeta] at ho
    rw [h.metadata, hnext]
    exact (hfresh o ho).trans (Nat.lt_succ_self _)

/-- A new id resolves to the new record only. -/
lemma resolves_indexIds {index : ExtTreeMap String PointOffset} {record : Record} {n : ℕ}
    (hnew : record.id ∉ index) (hv : v.1 < offset) :
    ((indexIds index ([(offset, record)].take n))[v.2]? == some v.1)
      = (index[v.2]? == some v.1) := by
  cases n with
  | zero => rfl
  | succ n =>
    have hone : indexIds index ([(offset, record)].take (n + 1))
        = index.insert record.id offset := by
      simp [indexIds]
    rw [hone, ExtTreeMap.getElem?_insert]
    split
    · next heq =>
      have hid : record.id = v.2 := by simpa using heq
      rw [← hid, ExtTreeMap.getElem?_eq_none hnew]
      simp [hv.ne']
    · rfl

/-- **Inserting a record** adds at most that record, and adds it if the insert returns. -/
lemma perform_insert {io : Io} {now : ℕ} {r : Except StorageError Reply} (hfresh : e.Fresh)
    (h : e.perform E io (e.insert E vocab now input) = (r, e')) :
    Gains e e' ∧ e.metadata.records.size ≤ e'.metadata.records.size ∧
    ∀ reply, r = .ok reply → e'.metadata.records.size = e.metadata.records.size + 1 ∧
      ∃ record, e'.metadata.records[e.metadata.nextOffset]? = some record ∧
        record.text = input.text ∧ record.scope = input.scope ∧
        record.sourceRole = input.sourceRole := by
  rw [insert] at h
  cases hprepare : prepare E e.config vocab input with
  | error err =>
    simp only [hprepare, perform] at h
    cases h
    exact ⟨.refl hfresh, le_rfl, by simp⟩
  | ok p =>
    obtain ⟨hid, -, -, -, htext, hscope, hrole⟩ := prepare_eq_ok hprepare
    simp only [hprepare] at h
    by_cases hdup : input.id ∈ e.idIndex
    · simp only [hdup, if_true, perform] at h
      cases h
      exact ⟨.refl hfresh, le_rfl, by simp⟩
    set offset := e.metadata.nextOffset with hoffset
    set record := p.intoRecord now e.metadata.nextSeq
    set e₀ : Engine := { e with
      metadata := { e.metadata with nextOffset := offset + 1, nextSeq := e.metadata.nextSeq + 1 } }
    have hplan : writePlan [(offset, record)] (insertEntries [(offset, record)]) [] =
        [.put offset record.embedding, .syncVectors, .log (insertEntries [(offset, record)])] ++
          [.applyBatch [(offset, record)]] := rfl
    have hrun : e.perform E io (.run e₀ (writePlan [(offset, record)]
        (insertEntries [(offset, record)]) []) (.bool true)) = (r, e') := by
      rw [if_neg hdup] at h
      exact h
    rw [perform, hplan, runAll_append] at hrun
    have hsame : SameBut offset e₀ (runAll (exec E io) [.put offset record.embedding, .syncVectors,
        .log (insertEntries [(offset, record)])] e₀).2 := by
      refine runAll_preserves ?_ ⟨rfl, rfl, fun _ _ => rfl⟩
      intro a ha e₁ he₁
      refine sameBut_exec ?_ he₁
      simp only [mem_cons, not_mem_nil, or_false] at ha
      rcases ha with rfl | rfl | rfl
      · exact .inr (.inr ⟨_, rfl⟩)
      · exact .inl rfl
      · exact .inr (.inl ⟨_, rfl⟩)
    rcases hfirst : runAll (exec E io) [.put offset record.embedding, .syncVectors,
      .log (insertEntries [(offset, record)])] e₀ with ⟨answer, e₁⟩
    rw [hfirst] at hrun hsame
    have hgains : Gains e e₁ :=
      .of_sameBut hfresh (show e₀.metadata.records = _ from rfl) rfl rfl rfl hsame
    cases answer with
    | error err =>
      cases hrun
      refine ⟨hgains, ?_, by simp⟩
      rw [hsame.metadata]
    | ok _ =>
      -- The record is applied: it is in the metadata, whatever else fails.
      rcases happly : e₁.applyBatch E io [(offset, record)] with ⟨answer, e₂⟩
      obtain ⟨hfiles, n, hindex, -⟩ := applyBatch_spec happly
      have heq : e' = e₂ := by
        simp only [runAll, exec, happly] at hrun
        cases answer <;> exact (Prod.mk.inj hrun).2.symm
      subst heq
      have hnew : offset ∉ e.metadata.records := fun hmem => (hfresh offset hmem).false
      have hrecords : e'.metadata.records =
          e.metadata.records.insert offset (MetaRecord.ofRecord record) := by
        rw [hfiles.metadata, hsame.metadata]
        rfl
      have hsize : e'.metadata.records.size = e.metadata.records.size + 1 := by
        rw [hrecords, ExtTreeMap.size_insert, if_neg (by rwa [← ExtTreeMap.mem_iff_contains])]
      refine ⟨?_, hsize.ge.trans' (Nat.le_succ _), fun _ _ =>
        ⟨hsize, MetaRecord.ofRecord record, ?_, htext, hscope, hrole⟩⟩
      · refine ⟨fun o ho => ?_, fun o ho => ?_, fun v hv => ?_, ?_, fun o ho => ?_⟩
        · rw [hrecords, ExtTreeMap.getElem?_insert, if_neg (by simpa using ho.ne')]
        · rw [hfiles.vectors]
          exact hsame.slots o ho.ne
        · rw [resolves, resolves, hindex, hsame.idIndex]
          refine resolves_indexIds ?_ hv
          show p.id ∉ e.idIndex
          rwa [hid]
        · rw [hfiles.metadata, (MetadataStore.putBatch_files _ _).2.1, hsame.metadata]
          exact Nat.le_succ _
        · rw [hrecords, ExtTreeMap.mem_insert, compare_eq_iff_eq] at ho
          rw [hfiles.metadata, (MetadataStore.putBatch_files _ _).2.1, hsame.metadata]
          rcases ho with rfl | ho
          · exact Nat.lt_succ_self _
          · exact (hfresh o ho).trans (Nat.lt_succ_self _)
      · rw [hrecords]
        exact ExtTreeMap.getElem?_insert_self

end Engine

/-! ## The gist step -/

namespace GistCall

/-- The gist could not be produced or stored. -/
def failed (c : GistCall) : Bool :=
  match c.answer, c.stored with
  | .error _, _ => true
  | .ok _, some (.error _) => true
  | .ok _, _ => false

/-- The offsets of the chunk. -/
def offsets (c : GistCall) : List PointOffset := c.chunk.map Victim.offset

/-- The gist was added to `e` and is live in `e'`, under the scope of its chunk. -/
def StoredIn (c : GistCall) (e e' : Engine) : Prop :=
  ∃ (gist : String) (embedding : Embedding) (o : PointOffset) (record : MetaRecord),
    c.answer = .ok (some (gist, embedding)) ∧ e.metadata.nextOffset ≤ o ∧
    e'.metadata.records[o]? = some record ∧ record.text = gist ∧ record.scope = c.scope ∧
    record.sourceRole = some "gist"

/-- A stored gist stays. -/
lemma StoredIn.mono {c : GistCall} {e₀ e e' e'' : Engine} (h : c.StoredIn e e')
    (hle : e₀.metadata.nextOffset ≤ e.metadata.nextOffset) (hfresh : e'.Fresh)
    (hgains : e'.Gains e'') : c.StoredIn e₀ e'' := by
  obtain ⟨gist, embedding, o, record, hanswer, ho, hrecord, hrest⟩ := h
  have hlive : o ∈ e'.metadata.records :=
    mem_of_getElem? hrecord
  exact ⟨gist, embedding, o, record, hanswer, hle.trans ho,
    (hgains.records o (hfresh o hlive)).trans hrecord, hrest⟩

end GistCall

namespace Engine

variable {G : Gister} {e : Engine} {s : Gisting}

/-- **One chunk.** The compressor gets its texts; it abstains, the chunk is spared, or the gist is
stored under its scope. -/
lemma gistChunk_spec (scope : Option String) (chunk : List Victim) (hfresh : s.engine.Fresh) :
    s.engine.Gains (gistChunk E G scope s chunk).engine ∧
    s.engine.metadata.records.size ≤ (gistChunk E G scope s chunk).engine.metadata.records.size ∧
    ∃ c, (gistChunk E G scope s chunk).calls = s.calls ++ [c] ∧ c.scope = scope ∧ c.chunk = chunk ∧
      c.answer = G.compress s.calls.length (chunk.map Victim.text) ∧
      (gistChunk E G scope s chunk).spared = s.spared ++ (if c.failed then c.offsets else []) ∧
      (c.answer.abstains = true ∧ c.failed = false ∧
          (gistChunk E G scope s chunk).engine = s.engine ∨
        c.answer.abstains = false ∧ (c.failed = true ∨ c.failed = false ∧
          c.StoredIn s.engine (gistChunk E G scope s chunk).engine ∧ s.engine.metadata.records.size
            < (gistChunk E G scope s chunk).engine.metadata.records.size)) := by
  have hrefl := Gains.refl hfresh
  unfold gistChunk
  simp only
  split
  · next err hanswer =>
    exact ⟨hrefl, le_rfl, _, rfl, rfl, rfl, rfl, by simp [failed, hanswer,
      offsets], .inr ⟨by rw [hanswer]; rfl, .inl (by simp [failed, hanswer])⟩⟩
  · next hanswer =>
    exact ⟨hrefl, le_rfl, _, rfl, rfl, rfl, rfl, by simp [failed, hanswer],
      .inl ⟨by rw [hanswer]; rfl, by simp [failed, hanswer], rfl⟩⟩
  · next gist embedding hanswer =>
    split
    · next hblank =>
      exact ⟨hrefl, le_rfl, _, rfl, rfl, rfl, rfl, by simp [failed, hanswer],
        .inl ⟨by rw [hanswer]; exact hblank, by simp [failed, hanswer], rfl⟩⟩
    · next hblank =>
      have hspeaks : GistAnswer.abstains (.ok (some (gist, embedding))) = false := by
        simpa [GistAnswer.abstains] using hblank
      split
      · next err e' hinsert =>
        obtain ⟨hgains, hsize, -⟩ := perform_insert hfresh hinsert
        exact ⟨hgains, hsize, _, rfl, rfl, rfl, rfl, by simp [failed, hanswer, offsets],
          .inr ⟨by rw [hanswer]; exact hspeaks, .inl (by simp [failed, hanswer])⟩⟩
      · next reply e' hinsert =>
        obtain ⟨hgains, hsize, hok⟩ := perform_insert hfresh hinsert
        obtain ⟨hone, record, hrecord, htext, hscope, hrole⟩ := hok reply rfl
        refine ⟨hgains, hsize, _, rfl, rfl, rfl, rfl, by simp [failed, hanswer],
          .inr ⟨by rw [hanswer]; exact hspeaks, .inr ⟨by simp [failed, hanswer], ?_,
            hone ▸ Nat.lt_succ_self _⟩⟩⟩
        exact ⟨gist, embedding, _, record, hanswer, le_rfl, hrecord, htext, hscope, hrole⟩

end Engine

/-- **What the gist step leaves** of the store `e` when it is given the chunks of `plan`. -/
structure Gisted (G : Gister) (e : Engine) (plan : List (Option String × List Victim))
    (s : Gisting) : Prop where
  gains : e.Gains s.engine
  calls : s.calls.map (fun c => (c.scope, c.chunk)) = plan
  answers : ∀ i c, s.calls[i]? = some c → c.answer = G.compress i (c.chunk.map Victim.text)
  spared : ∀ o, o ∈ s.spared ↔ ∃ c ∈ s.calls, c.failed = true ∧ o ∈ c.offsets
  outcome : ∀ c ∈ s.calls, c.answer.abstains = true ∧ c.failed = false ∨
    c.answer.abstains = false ∧ (c.failed = true ∨ c.failed = false ∧ c.StoredIn e s.engine)
  size : e.metadata.records.size ≤ s.engine.metadata.records.size
  grows : (∃ c ∈ s.calls, c.answer.abstains = false ∧ c.failed = false) →
    e.metadata.records.size < s.engine.metadata.records.size
  still : (∀ c ∈ s.calls, c.answer.abstains = true) → s.engine = e

namespace Engine

variable {G : Gister} {e : Engine} {s : Gisting}

/-- No chunk. -/
lemma gisted_nil (G : Gister) (h : e.Fresh) (gistSeq : ℕ) : Gisted G e [] ⟨e, gistSeq, [], []⟩ :=
  ⟨.refl h, rfl, by simp, by simp, by simp, le_rfl, by simp, fun _ => rfl⟩

/-- One more chunk. -/
lemma gisted_chunk (h : Gisted G e plan s) (scope : Option String) (chunk : List Victim) :
    Gisted G e (plan ++ [(scope, chunk)]) (gistChunk E G scope s chunk) := by
  obtain ⟨hgains, hsize, c, hcalls, rfl, rfl, hanswer, hspared, hcases⟩ :=
    gistChunk_spec scope chunk h.gains.fresh
  set s' := gistChunk E G c.scope s c.chunk
  refine ⟨h.gains.trans hgains, ?_, ?_, ?_, ?_, h.size.trans hsize, ?_, ?_⟩
  · rw [hcalls, map_append, h.calls]
    rfl
  · intro i d hd
    rw [hcalls] at hd
    rcases Nat.lt_or_ge i s.calls.length with hi | hi
    · rw [getElem?_append_left hi] at hd
      exact h.answers i d hd
    · rw [getElem?_append_right hi, getElem?_singleton] at hd
      split at hd
      · next hlast =>
        cases hd
        rw [hanswer, show i = s.calls.length by omega]
      · cases hd
  · intro o
    rw [hspared, mem_append, h.spared, hcalls]
    simp only [mem_append, mem_singleton, or_and_right, exists_or, exists_eq_left]
    refine or_congr_right ?_
    split
    · next hfailed => simp [hfailed]
    · next hfailed => simp [hfailed]
  · intro d hd
    rw [hcalls, mem_append, mem_singleton] at hd
    rcases hd with hd | rfl
    · refine (h.outcome d hd).imp_right (And.imp_right (Or.imp_right (And.imp_right ?_)))
      exact fun hstored => hstored.mono le_rfl h.gains.fresh hgains
    · rcases hcases with ⟨hab, hok, -⟩ | ⟨hab, hfailed | ⟨hok, hstored, -⟩⟩
      · exact .inl ⟨hab, hok⟩
      · exact .inr ⟨hab, .inl hfailed⟩
      · exact .inr ⟨hab, .inr ⟨hok, hstored.mono h.gains.nextOffset hgains.fresh
          (.refl hgains.fresh)⟩⟩
  · rintro ⟨d, hd, hab, hok⟩
    rw [hcalls, mem_append, mem_singleton] at hd
    rcases hd with hd | rfl
    · exact (h.grows ⟨d, hd, hab, hok⟩).trans_le hsize
    · rcases hcases with ⟨hab', -⟩ | ⟨-, hfailed | ⟨-, -, hlt⟩⟩
      · rw [hab] at hab'
        cases hab'
      · rw [hok] at hfailed
        cases hfailed
      · exact h.size.trans_lt hlt
  · intro hall
    rw [hcalls] at hall
    have hc := hall c (by simp)
    rcases hcases with ⟨-, -, heq⟩ | ⟨hab, -⟩
    · rw [heq, h.still fun d hd => hall d (by simp [hd])]
    · rw [hc] at hab
      cases hab

/-- The chunks the compressor will be given. -/
def gistPlan (E : Env) (chunkFacts : ℕ) (e : Engine) (victims : List (PointOffset × String)) :
    List (Option String × List Victim) :=
  (e.victimsByScope E victims).toList.flatMap fun p =>
    (chunks (max chunkFacts 1) (inOrder p.2)).map (p.1, ·)

/-- **The gist step**, chunk by chunk. -/
lemma gisted_gistVictims (hfresh : e.Fresh) (chunkFacts gistSeq : ℕ)
    (victims : List (PointOffset × String)) : Gisted G e (e.gistPlan E chunkFacts victims)
      (e.gistVictims E G chunkFacts gistSeq victims) := by
  have hrun : ∀ plan, Gisted G e plan
      (plan.foldl (fun s c => gistChunk E G c.1 s c.2) ⟨e, gistSeq, [], []⟩) := by
    intro plan
    induction plan using reverseRecOn with
    | nil => exact gisted_nil G hfresh gistSeq
    | append_singleton plan c ih =>
      rw [foldl_append]
      exact gisted_chunk ih c.1 c.2
  have hflat := hrun (e.gistPlan E chunkFacts victims)
  rw [gistPlan, foldl_flatMap] at hflat
  simp only [foldl_map] at hflat
  exact hflat

/-! ## The chunks -/

section Plan

variable {chunkFacts : ℕ} {victims : List (PointOffset × String)}
  {entries : List (PointOffset × MetaRecord)}

/-- The groups of victims: the victims of one scope. -/
lemma victimsByScope_eq {scope : Option String}
    (h : (e.victimsByScope E victims)[scope]? = some entries) :
    ∀ p, p ∈ entries ↔ e.metadata.records[p.1]? = some p.2 ∧ p.1 ∈ victims.map fst ∧
      p.2.scope = scope := by
  rintro ⟨o, record⟩
  obtain ⟨rfl, -⟩ := group_eq_some h
  simp only [mem_filter, (E.iterate_perm _).mem_iff,
    ExtTreeMap.mem_toList_iff_getElem?_eq_some, any_eq_true, beq_iff_eq, mem_map,
    decide_eq_true_eq, and_assoc]

/-- The victims of a scope. -/
lemma mem_inOrder {v : Victim} :
    v ∈ inOrder entries ↔ ∃ p ∈ entries, v = ⟨p.2.insertSeq, p.1, p.2.text⟩ := by
  simp only [inOrder, mem_insertionSort, mem_map, eq_comm]

/-- **A chunk** has some victims of one scope, oldest first. -/
lemma mem_gistPlan {c : Option String × List Victim} (h : c ∈ e.gistPlan E chunkFacts victims) :
    c.2 ≠ [] ∧ c.2.Pairwise (fun a b => a.seq ≤ b.seq) ∧ ∀ v ∈ c.2, v.offset ∈ victims.map fst ∧
      ∃ record, e.metadata.records[v.offset]? = some record ∧ record.scope = c.1 ∧
        v.seq = record.insertSeq ∧ v.text = record.text := by
  obtain ⟨⟨scope, entries⟩, hgroup, hc⟩ := mem_flatMap.mp h
  obtain ⟨chunk, hchunk, rfl⟩ := mem_map.mp hc
  have hpos : 0 < max chunkFacts 1 := by omega
  have hsub := sublist_of_mem_chunks hpos hchunk
  refine ⟨ne_nil_of_mem_chunks hpos hchunk, ?_, fun v hv => ?_⟩
  · exact (pairwise_insertionSort _ _).sublist hsub
  · obtain ⟨p, hp, rfl⟩ := mem_inOrder.mp (hsub.subset hv)
    rw [ExtTreeMap.mem_toList_iff_getElem?_eq_some] at hgroup
    obtain ⟨hrecord, hvictim, hscope⟩ := (victimsByScope_eq hgroup p).mp hp
    exact ⟨hvictim, p.2, hrecord, hscope, rfl, rfl⟩

/-- **Every victim** is in a chunk of its scope. -/
lemma exists_mem_gistPlan {record : MetaRecord}
    (hvictim : o ∈ victims.map fst) (hrecord : e.metadata.records[o]? = some record) :
    ∃ c ∈ e.gistPlan E chunkFacts victims, c.1 = record.scope ∧ ∃ v ∈ c.2, v.offset = o := by
  have hmem : (o, record) ∈ ((E.iterate e.metadata.records).filter fun p =>
      victims.any (·.1 == p.1)).filter (fun p => p.2.scope = record.scope) := by
    simp only [mem_filter, (E.iterate_perm _).mem_iff,
      ExtTreeMap.mem_toList_iff_getElem?_eq_some, any_eq_true, beq_iff_eq,
      decide_eq_true_eq, and_true]
    exact ⟨hrecord, by simpa using hvictim⟩
  obtain ⟨entries, hgroup⟩ : ∃ entries,
      (e.victimsByScope E victims)[record.scope]? = some entries := by
    rw [victimsByScope, getElem?_group, if_neg (ne_nil_of_mem hmem)]
    exact ⟨_, rfl⟩
  have hin : (⟨record.insertSeq, o, record.text⟩ : Victim) ∈ inOrder entries :=
    mem_inOrder.mpr ⟨(o, record), (victimsByScope_eq hgroup _).mpr ⟨hrecord, hvictim, rfl⟩, rfl⟩
  obtain ⟨chunk, hchunk, hv⟩ :=
    exists_mem_chunks (show 0 < max chunkFacts 1 by omega) hin
  refine ⟨(record.scope, chunk), mem_flatMap.mpr ⟨(record.scope, entries), ?_, ?_⟩, rfl, _, hv, rfl⟩
  · rwa [ExtTreeMap.mem_toList_iff_getElem?_eq_some]
  · exact mem_map_of_mem hchunk

end Plan

/-! ## Evictions -/

section Evict

variable {S T : Type} [LinearOrder S] {w : Sweep S T} {compressor : Option Gister} {gistSeq : ℕ}
  {io : PointOffset → Io} {r : Except StorageError ℕ}

/-- The victims of an eviction from a store whose accesses are drained. -/
def victimsOf (E : Env) (w : Sweep S T) (e : Engine) : List (PointOffset × String) :=
  w.victims e.metadata.recordCount (E.iterate e.metadata.records)

/-- The chunks of an eviction: none if there is nobody to give them to. -/
def planned (E : Env) (w : Sweep S T) (compressor : Option Gister) (e : Engine) :
    List (Option String × List Victim) :=
  if w.tier.gistBeforeEvict && compressor.isSome then
    e.gistPlan E w.tier.gistChunkFacts (e.victimsOf E w)
  else []

/-- Draining takes no offset. -/
lemma nextOffset_drain (e : Engine) : e.drain.metadata.nextOffset = e.metadata.nextOffset :=
  (drainInto_files _ _).2.1

/-- It keeps the bound on the offsets. -/
lemma drain_fresh (h : e.Fresh) : e.drain.Fresh := by
  intro o ho
  rw [nextOffset_drain]
  exact h o ((e.drain_spec.1 o).mp ho)

/-- The gist step compresses the chunks planned, if any, and leaves the victims not spared. -/
lemma gistStep_spec (w : Sweep S T) (compressor : Option Gister) (gistSeq : ℕ) (hfresh : e.Fresh) :
    ∃ G, (∀ G', compressor = some G' → G = G') ∧ Gisted G e (e.planned E w compressor)
        (gistStep E w compressor gistSeq e (e.victimsOf E w)).2 ∧
      (gistStep E w compressor gistSeq e (e.victimsOf E w)).1 = (e.victimsOf E w).filter fun v =>
        !(gistStep E w compressor gistSeq e (e.victimsOf E w)).2.spared.contains v.1 := by
  rw [planned]
  unfold gistStep
  cases w.tier.gistBeforeEvict with
  | false =>
    refine ⟨compressor.getD ⟨fun _ _ => .ok none, 0, fun _ => 0, fun _ => .ok⟩, ?_,
      gisted_nil _ hfresh _, by simp⟩
    rintro G' rfl
    rfl
  | true =>
    cases compressor with
    | none =>
      simp only [ite_self, Option.isSome_none, Bool.and_false, Bool.false_eq_true, if_false]
      exact ⟨⟨fun _ _ => .ok none, 0, fun _ => 0, fun _ => .ok⟩, by simp, gisted_nil _ hfresh _,
        by simp⟩
    | some G =>
      refine ⟨G, fun G' h => Option.some.inj h, ?_⟩
      cases hempty : (e.victimsOf E w).isEmpty with
      | true =>
        have hplan : e.gistPlan E w.tier.gistChunkFacts (e.victimsOf E w) = [] := by
          simp [isEmpty_iff.mp hempty, gistPlan, victimsByScope, group]
        rw [hplan]
        exact ⟨gisted_nil G hfresh _, by simp⟩
      | false => exact ⟨gisted_gistVictims hfresh _ _ _, rfl⟩

/-- **An eviction** drains the accesses, compresses its victims and deletes those not spared. -/
lemma evict_steps (hfresh : e.Fresh)
    (hon : (w.tier.maxRecords.isNone && w.tier.evictScoreFloor.isNone) = false)
    (h : e.evict E w compressor gistSeq io = (r, s)) :
    ∃ G g, (∀ G', compressor = some G' → G = G') ∧ s.calls = g.calls ∧
      Gisted G e.drain (e.drain.planned E w compressor) g ∧
      deleteVictims E io ((e.drain.victimsOf E w).filter fun v => !g.spared.contains v.1) g.engine
        = (r, s.engine) := by
  obtain ⟨G, hG, hgisted, hleft⟩ :=
    gistStep_spec (E := E) w compressor gistSeq (drain_fresh hfresh)
  rw [evict, hon] at h
  cases h
  refine ⟨G, (gistStep E w compressor gistSeq e.drain (e.drain.victimsOf E w)).2, hG, rfl, hgisted,
    ?_⟩
  rw [← hleft]
  rfl

/-- The victims are the doomed records. -/
lemma mem_victimsOf_iff (hcount : e.metadata.recordCount = e.metadata.records.size)
    (v : PointOffset × String) : v ∈ e.victimsOf E w ↔ ∃ p, e.metadata.records[p.1]? = some p.2 ∧
      w.Doomed e.metadata.records p ∧ v = (p.1, p.2.id) := by
  rw [victimsOf, hcount]
  exact Sweep.mem_victims_iff (E.iterate_perm _) v

/-- Each victim once. -/
lemma nodup_victimsOf (E : Env) (w : Sweep S T) (e : Engine) : ((e.victimsOf E w).map fst).Nodup :=
  Sweep.nodup_victims _ (Sweep.nodup_offsets (E.iterate_perm _))

/-- Every victim is live. -/
lemma live_of_mem_victimsOf (h : v ∈ e.victimsOf E w) : v.1 ∈ e.metadata.records := by
  obtain ⟨⟨o, record⟩, hp, rfl⟩ :=
    Sweep.exists_of_mem_victims (Sweep.nodup_offsets (E.iterate_perm _)) h
  rw [(E.iterate_perm _).mem_iff, ExtTreeMap.mem_toList_iff_getElem?_eq_some] at hp
  exact mem_of_getElem? hp

/-- The deletions of an eviction: those of the victims not spared whose id resolved to them
at the start. -/
lemma evict_deletes {g : Gisting} {n : ℕ} {e' : Engine}
    (hfresh : e.Fresh) (hgisted : Gisted G e plan g)
    (hdel : deleteVictims E io ((e.victimsOf E w).filter fun v => !g.spared.contains v.1) g.engine
      = (.ok n, e')) : e'.metadata.records.size + (((e.victimsOf E w).filter fun v =>
      !g.spared.contains v.1).filter e.resolves).length = g.engine.metadata.records.size := by
  set left := (e.victimsOf E w).filter fun v => !g.spared.contains v.1
  have hold : ∀ v ∈ left, v.1 < e.metadata.nextOffset := fun v hv =>
    hfresh _ (live_of_mem_victimsOf (mem_of_mem_filter hv))
  have hnodup : (left.map fst).Nodup :=
    (nodup_victimsOf E w e).sublist (filter_sublist.map fst)
  obtain ⟨-, hall⟩ := deleteVictims_spec left hnodup hdel
  have hsame : left.filter g.engine.resolves = left.filter e.resolves :=
    filter_congr fun v hv => hgisted.gains.resolves v (hold v hv)
  rw [← hsame]
  refine (hall n rfl).2 fun v hv => ?_
  have hlive := live_of_mem_victimsOf (mem_of_mem_filter hv)
  rw [ExtTreeMap.mem_iff_isSome_getElem?] at hlive ⊢
  rwa [hgisted.gains.records _ (hold v hv)]

/-- If no record is inside the grace window, the victims are as many as the store has above the
cap. -/
lemma length_victimsOf {k : ℕ} (hmax : w.tier.maxRecords = some k)
    (hcount : e.metadata.recordCount = e.metadata.records.size)
    (hgrace : ∀ (o : PointOffset) (record : MetaRecord),
      e.metadata.records[o]? = some record → w.isProtected record = false) :
    (e.victimsOf E w).length + min (w.afterFloor e.metadata.records) k
      = e.metadata.records.size := by
  have hprotected : e.metadata.records.toList.countP (fun p => w.isProtected p.2) = 0 := by
    refine countP_eq_zero.mpr fun p hp => ?_
    rw [hgrace p.1 p.2 (ExtTreeMap.mem_toList_iff_getElem?_eq_some.mp hp)]
    exact Bool.false_ne_true
  have hleft := @Sweep.size_sub_doomed S T _ w e.metadata.records k hmax
  have hsum := w.size_eq_sum e.metadata.records
  rw [hprotected] at hleft
  rw [victimsOf, hcount, Sweep.length_victims (E.iterate_perm _)]
  omega

end Evict

/-! ## Pending accesses -/

/-- The access count and the last access, with what was counted since the last drain. -/
def addAccesses (pending : Option (ℕ × ℕ)) (count last : ℕ) : ℕ × ℕ :=
  match pending with
  | none => (count, last)
  | some (n, t) => if n = 0 then (count, last) else (count + n, max last t)

/-- A record with the accesses counted since the last drain. -/
def withAccesses (pending : Option (ℕ × ℕ)) (record : MetaRecord) : MetaRecord :=
  { record with
    accessCount := (addAccesses pending record.accessCount record.lastAccessed).1
    lastAccessed := (addAccesses pending record.accessCount record.lastAccessed).2 }

/-- No access is pending. -/
@[simp] lemma withAccesses_none : withAccesses none = id := rfl

/-- One counter. -/
lemma getElem?_drainInto_singleton (c : PointOffset × ℕ × ℕ) (m : MetadataStore)
    (o : PointOffset) : (drainInto [c] m).records[o]? =
      if c.1 = o then m.records[o]?.map (withAccesses (some c.2)) else m.records[o]? := by
  obtain ⟨o', n, t⟩ := c
  simp only [drainInto, foldl_cons, foldl_nil]
  by_cases h0 : n = 0
  · have hid : withAccesses (some (n, t)) = id := by
      funext record
      simp [withAccesses, addAccesses, h0]
    rw [if_pos h0, hid, Option.map_id]
    simp
  rw [if_neg h0]
  cases hget : m.get o' with
  | none =>
    rw [MetadataStore.get] at hget
    by_cases ho : o' = o
    · subst ho
      simp [hget]
    · simp [ho]
  | some record =>
    rw [MetadataStore.get] at hget
    simp only [MetadataStore.getElem?_records_putMeta]
    split
    · next heq => rw [← heq, hget]; simp [withAccesses, addAccesses, h0]
    · rfl

/-- Draining adds the pending accesses of each record. -/
lemma getElem?_drainInto (counters : List (PointOffset × ℕ × ℕ))
    (hnodup : (counters.map fst).Nodup) (m : MetadataStore) (o : PointOffset) :
    (drainInto counters m).records[o]? = m.records[o]?.map (withAccesses (counters.lookup o)) := by
  induction counters generalizing m with
  | nil => simp [drainInto]
  | cons c counters ih =>
    rw [map_cons, nodup_cons] at hnodup
    have hsplit : drainInto (c :: counters) m = drainInto counters (drainInto [c] m) := rfl
    rw [hsplit, ih hnodup.2, getElem?_drainInto_singleton, lookup_cons]
    by_cases ho : c.1 = o
    · have hlast : counters.lookup o = none := by
        rw [lookup_eq_none_iff]
        intro p hp
        simp only [bne_iff_ne, ne_eq]
        intro heq
        exact hnodup.1 ((ho.trans heq) ▸ mem_map_of_mem hp)
      simp [ho, hlast]
    · simp [ho, beq_eq_false_iff_ne.mpr (Ne.symm ho)]

/-- A drain adds the pending accesses and changes nothing else. -/
lemma getElem?_drain (e : Engine) (o : PointOffset) : e.drain.metadata.records[o]? =
    e.metadata.records[o]?.map (withAccesses (e.accessCounters.toList.lookup o)) :=
  getElem?_drainInto _ (nodup_toList_keys _) _ _

/-- The cap can be met: the id of every doomed record resolves to it, and the compressor abstains
on every chunk. -/
def CapReachable {S T : Type} [LinearOrder S] (E : Env) (w : Sweep S T)
    (compressor : Option Gister) (e : Engine) : Prop :=
  (∀ p, e.metadata.records[p.1]? = some p.2 → w.Doomed e.metadata.records p →
    e.idIndex[p.2.id]? = some p.1) ∧
  ∀ G, compressor = some G → ∀ (i : ℕ) (c : Option String × List Victim),
    (e.planned E w compressor)[i]? = some c → (G.compress i (c.2.map Victim.text)).abstains = true

end Engine

namespace Gisted

variable {S T : Type} [LinearOrder S] {w : Sweep S T} {compressor : Option Gister} {G : Gister}
  {e : Engine} {g : Gisting}

/-- The compressor abstains on every chunk that is planned just if all its answers do. -/
lemma abstains_iff (hG : ∀ G', compressor = some G' → G = G')
    (h : Gisted G e (e.planned E w compressor) g) :
    (∀ G', compressor = some G' → ∀ (i : ℕ) (c : Option String × List Victim),
      (e.planned E w compressor)[i]? = some c →
        (G'.compress i (c.2.map Victim.text)).abstains = true) ↔
    ∀ c ∈ g.calls, c.answer.abstains = true := by
  have hplan (i : ℕ) : (e.planned E w compressor)[i]? =
      g.calls[i]?.map fun c => (c.scope, c.chunk) := by
    rw [← h.calls, getElem?_map]
  constructor
  · intro hall c hc
    obtain ⟨i, hi⟩ := getElem?_of_mem hc
    have hc' : (e.planned E w compressor)[i]? = some (c.scope, c.chunk) := by
      rw [hplan, hi, Option.map_some]
    rw [h.answers i c hi]
    cases compressor with
    | none => simp [planned] at hc'
    | some G' => exact hG G' rfl ▸ hall G' rfl i _ hc'
  · intro hall G' hG' i c hc
    rw [hplan] at hc
    obtain ⟨d, hd, rfl⟩ := Option.map_eq_some_iff.mp hc
    rw [← hG G' hG', ← h.answers i d hd]
    exact hall d (mem_of_getElem? hd)

/-- Nothing is spared if the compressor always abstains. -/
lemma not_mem_spared (h : Gisted G e plan g) (hab : ∀ c ∈ g.calls, c.answer.abstains = true)
    (o : PointOffset) : o ∉ g.spared := by
  intro ho
  obtain ⟨c, hc, hfailed, -⟩ := (h.spared o).mp ho
  rcases h.outcome c hc with ⟨-, hok⟩ | ⟨hspeaks, -⟩
  · cases hfailed.symm.trans hok
  · cases (hab c hc).symm.trans hspeaks

/-- If no victim was spared and no gist added, the compressor always abstained. -/
lemma abstains_of_size_le (h : Gisted G e (e.planned E w compressor) g)
    (hkept : ∀ v ∈ e.victimsOf E w, v.1 ∉ g.spared)
    (hsize : g.engine.metadata.records.size ≤ e.metadata.records.size) {c : GistCall}
    (hc : c ∈ g.calls) : c.answer.abstains = true := by
  rcases h.outcome c hc with ⟨hab, -⟩ | ⟨hspeaks, hfailed | ⟨hok, -⟩⟩
  · exact hab
  · -- The victims of a failed chunk would have been spared.
    have hchunk : (c.scope, c.chunk) ∈ e.planned E w compressor :=
      h.calls ▸ mem_map_of_mem (f := fun c : GistCall => (c.scope, c.chunk)) hc
    rw [planned] at hchunk
    split at hchunk
    · obtain ⟨hne, -, hof⟩ := mem_gistPlan hchunk
      obtain ⟨v, hv⟩ := exists_mem_of_ne_nil _ hne
      obtain ⟨x, hx, hxv⟩ := mem_map.mp (hof v hv).1
      refine absurd ((h.spared _).mpr ⟨c, hc, hfailed, ?_⟩) (hkept x hx)
      exact hxv ▸ mem_map_of_mem hv
    · cases hchunk
  · exact absurd (h.grows ⟨c, hc, hspeaks, hok⟩) (not_lt.mpr hsize)

end Gisted

section

variable {S T : Type} [LinearOrder S] {w : Sweep S T} {compressor : Option Gister}
  {gistSeq k n : ℕ} {io : PointOffset → Io} {e : Engine} {s : Gisting}

/-- **The record cap.** If no record is inside the grace window, an eviction leaves at most `k`
records if the id of every doomed record resolves to it and the compressor abstains on every chunk;
and only then, unless the floor pass gets the store below the cap. **Proof sketch.** There are as
many doomed records as the store has above `k`. One that does not resolve or is of a spared chunk
stays, and a gist adds a record. -/
theorem evict_meets_cap (hcount : e.metadata.recordCount = e.metadata.records.size)
    (hfresh : e.Fresh) (hmax : w.tier.maxRecords = some k)
    (hgrace : ∀ (o : PointOffset) (record : MetaRecord),
      e.drain.metadata.records[o]? = some record → w.isProtected record = false)
    (h : e.evict E w compressor gistSeq io = (.ok n, s)) :
    (e.drain.CapReachable E w compressor → s.engine.metadata.records.size ≤ k) ∧
    (k ≤ w.afterFloor e.drain.metadata.records → s.engine.metadata.records.size ≤ k →
      e.drain.CapReachable E w compressor) := by
  obtain ⟨G, g, hG, -, hgisted, hdel⟩ := evict_steps hfresh (by simp [hmax]) h
  have hcount' : e.drain.metadata.recordCount = e.drain.metadata.records.size := by
    rw [e.drain_spec.2.2, e.drain_spec.2.1, hcount]
  have hsize := evict_deletes (drain_fresh hfresh) hgisted hdel
  have hlength := length_victimsOf (E := E) hmax hcount' hgrace
  set victims := e.drain.victimsOf E w
  set left := victims.filter fun v => !g.spared.contains v.1
  constructor
  · rintro ⟨hresolve, habstain⟩
    have hab := (hgisted.abstains_iff hG).mp habstain
    have hall : left = victims :=
      filter_eq_self.mpr fun v _ => by simpa using hgisted.not_mem_spared hab v.1
    have hkept : left.filter e.drain.resolves = victims := by
      rw [hall]
      refine filter_eq_self.mpr fun v hv => ?_
      obtain ⟨p, hp, hdoomed, rfl⟩ := (mem_victimsOf_iff hcount' v).mp hv
      exact resolves_iff.mpr (hresolve p hp hdoomed)
    rw [hkept, hgisted.still hab] at hsize
    omega
  · intro hle hmet
    have hgrown := hgisted.size
    have hfiltered := length_filter_le e.drain.resolves left
    have hspared : left.length ≤ victims.length := length_filter_le _ _
    -- Nothing was spared, no gist was added, and every victim was deleted.
    have hleft : left.length = victims.length := by omega
    have hresolved : (left.filter e.drain.resolves).length = left.length := by omega
    have hkept : ∀ v ∈ victims, v.1 ∉ g.spared := fun v hv => by
      simpa using length_filter_eq_length_iff.mp hleft v hv
    refine ⟨fun p hp hdoomed => ?_, (hgisted.abstains_iff hG).mpr fun c hc =>
      hgisted.abstains_of_size_le hkept (by omega) hc⟩
    have hv : (p.1, p.2.id) ∈ victims := (mem_victimsOf_iff hcount' _).mpr ⟨p, hp, hdoomed, rfl⟩
    have hvleft : (p.1, p.2.id) ∈ left := mem_filter.mpr ⟨hv, by simpa using hkept _ hv⟩
    exact resolves_iff.mp (length_filter_eq_length_iff.mp hresolved _ hvleft)

/-- The store an eviction looks at: with the pending accesses, if there is anything to do. -/
def Engine.scanned (w : Sweep S T) (e : Engine) : Engine :=
  if w.tier.maxRecords.isNone && w.tier.evictScoreFloor.isNone then e else e.drain

/-- **Compress never silently becomes delete.** Before an eviction with gists deletes anything, in
the store `mid`, every record is still there. A record it deletes was in a chunk of its scope that
the compressor abstained on, or whose gist is in `mid`. Every call of the compressor got texts of
one scope, oldest first. A record that was no victim gets at most its pending accesses. All this
also holds if the eviction fails on the way. **Proof sketch.** The victims that were not spared are
deleted (`evict_steps`). Each victim is in a chunk of its scope, and a failed chunk was spared. -/
theorem evict_compresses {G : Gister} {r : Except StorageError ℕ} (hfresh : e.Fresh)
    (hgist : w.tier.gistBeforeEvict = true) (h : e.evict E w (some G) gistSeq io = (r, s)) :
    ∃ (mid : Engine) (left : List (PointOffset × String)),
      deleteVictims E io left mid = (r, s.engine) ∧ (∀ (o : PointOffset) (record : MetaRecord),
        (e.scanned w).metadata.records[o]? = some record → mid.metadata.records[o]? = some record ∧
        (o ∉ s.engine.metadata.records → ∃ c ∈ s.calls, o ∈ c.offsets ∧ c.scope = record.scope ∧
          (c.answer.abstains = true ∨ c.StoredIn e mid))) ∧
      (∀ (i : ℕ) (c : GistCall), s.calls[i]? = some c →
        c.answer = G.compress i (c.chunk.map Victim.text) ∧
        c.chunk.Pairwise (fun a b => a.seq ≤ b.seq) ∧
        ∀ v ∈ c.chunk, ∃ record, (e.scanned w).metadata.records[v.offset]? = some record ∧
          record.scope = c.scope ∧ v.seq = record.insertSeq ∧ v.text = record.text) ∧
      ∀ (o : PointOffset) (record : MetaRecord), e.metadata.records[o]? = some record →
        o ∉ (e.drain.victimsOf E w).map fst →
        (s.engine.metadata.records[o]? = some record ∨ s.engine.metadata.records[o]? =
          some (withAccesses (e.accessCounters.toList.lookup o) record)) ∧
        s.engine.vectors.file.slot o = e.vectors.file.slot o ∧
        ∀ id, s.engine.resolves (o, id) = e.resolves (o, id) := by
  cases hon : (w.tier.maxRecords.isNone && w.tier.evictScoreFloor.isNone) with
  | true =>
    rw [evict, hon, if_pos rfl] at h
    cases h
    rw [scanned, hon, if_pos rfl]
    refine ⟨e, [], rfl, fun o record ho => ⟨ho, fun hnot => ?_⟩, by simp, fun o record ho _ =>
      ⟨.inl ho, rfl, fun _ => rfl⟩⟩
    exact absurd (mem_of_getElem? ho) hnot
  | false =>
    obtain ⟨G', g, hG, hcalls, hgisted, hdel⟩ := evict_steps hfresh hon h
    obtain rfl := hG G rfl
    have hfresh' := drain_fresh hfresh
    have hplan : e.drain.planned E w (some G') =
        e.drain.gistPlan E w.tier.gistChunkFacts (e.drain.victimsOf E w) := by
      simp [planned, hgist]
    have hscan : e.scanned w = e.drain := by simp [scanned, hon]
    rw [hplan] at hgisted
    rw [hscan, hcalls]
    set victims := e.drain.victimsOf E w
    set left := victims.filter fun v => !g.spared.contains v.1
    have hnodup : (left.map fst).Nodup :=
      (nodup_victimsOf E w e.drain).sublist (filter_sublist.map fst)
    have hold : ∀ o record,
        e.drain.metadata.records[o]? = some record → o < e.drain.metadata.nextOffset :=
      fun o record ho => hfresh' o (mem_of_getElem? ho)
    have hmid : ∀ o record,
        e.drain.metadata.records[o]? = some record → g.engine.metadata.records[o]? = some record :=
      fun o record ho => (hgisted.gains.records o (hold o record ho)).trans ho
    obtain ⟨hkeep, -⟩ := deleteVictims_spec left hnodup hdel
    refine ⟨g.engine, left, hdel, fun o record ho => ⟨hmid o record ho, fun hgone => ?_⟩, ?_, ?_⟩
    · -- A deleted record was a victim that was not spared.
      obtain ⟨v, hv, rfl⟩ : ∃ v ∈ left, v.1 = o := by
        rcases hkeep o with hsame | ⟨-, v, hv, hvo, -⟩
        · rw [hmid o record ho] at hsame
          exact absurd (mem_of_getElem? hsame) hgone
        · exact ⟨v, hv, hvo⟩
      obtain ⟨hvictim, hnot⟩ := mem_filter.mp hv
      obtain ⟨chunk, hchunk, hscope, x, hx, hxo⟩ :=
        exists_mem_gistPlan (mem_map_of_mem hvictim) ho
      rw [← hgisted.calls] at hchunk
      obtain ⟨c, hc, rfl⟩ := mem_map.mp hchunk
      have hoffset : v.1 ∈ c.offsets := mem_map.mpr ⟨x, hx, hxo⟩
      refine ⟨c, hc, hoffset, hscope, ?_⟩
      rcases hgisted.outcome c hc with ⟨hab, -⟩ | ⟨-, hfailed | ⟨-, hstored⟩⟩
      · exact .inl hab
      · have hspared := (hgisted.spared v.1).mpr ⟨c, hc, hfailed, hoffset⟩
        simp [hspared] at hnot
      · exact .inr (hstored.mono e.nextOffset_drain.ge hgisted.gains.fresh
          (.refl hgisted.gains.fresh))
    · intro i c hc
      have hchunk : (c.scope, c.chunk) ∈ e.drain.gistPlan E w.tier.gistChunkFacts victims := by
        rw [← hgisted.calls]
        exact mem_map_of_mem (mem_of_getElem? hc)
      obtain ⟨-, hsorted, hof⟩ := mem_gistPlan hchunk
      exact ⟨hgisted.answers i c hc, hsorted, fun v hv => (hof v hv).2⟩
    · intro o record ho hother
      have hdrained := e.getElem?_drain o
      rw [ho, Option.map_some] at hdrained
      have hlt := hold o _ hdrained
      have hleft : o ∉ left.map fst := fun hmem =>
        hother ((filter_sublist.map fst).subset hmem)
      obtain ⟨hvectors, hresolves⟩ := deleteVictims_keeps left hdel
      refine ⟨.inr ?_, ?_, fun id => ?_⟩
      · rcases hkeep o with hsame | ⟨-, v, hv, rfl, -⟩
        · exact hsame.trans (hmid o _ hdrained)
        · exact absurd (mem_map_of_mem hv) hleft
      · rw [hvectors]
        exact hgisted.gains.slots o hlt
      · exact (hresolves (o, id) hleft).trans (hgisted.gains.resolves (o, id) hlt)

end

/-- An eviction with gists, down to `maxRecords`. -/
def sampleGistSweep (maxRecords : ℕ) : Sweep ℕ ℕ :=
  { sampleSweep maxRecords with
    tier := { (sampleSweep maxRecords).tier with gistBeforeEvict := true } }

/-- A compressor with one answer for all chunks. -/
def sampleGister (answer : GistAnswer) : Gister :=
  ⟨fun _ _ => answer, 100, fun _ => 100, fun _ => .ok⟩

/-- Two records, and an eviction with gists down to one. -/
def sampleGistEvict (answer : GistAnswer) (e₀ : Engine) : Except StorageError ℕ × Gisting :=
  (sampleRun [.insert 5 (sampleInput "a" "" none), .insert 6 (sampleInput "b" "" none)]
    e₀).engine.evict sampleEnv (sampleGistSweep 1) (some (sampleGister answer)) 0 fun _ => .ok

set_option maxRecDepth 10000

/-- If the compressor abstains, one of two records is left. -/
theorem evict_meets_cap_abstain : ∃ (e₀ : Engine) (n : ℕ) (s : Gisting),
    Engine.open sampleEnv sampleConfig {} = .ok e₀ ∧
    sampleGistEvict (.ok none) e₀ = (.ok n, s) ∧ s.engine.metadata.records.size ≤ 1 := by
  obtain ⟨e₀, hfirst, hn, hcount, hfresh, hindex⟩ := exists_opened (P := fun e₀ =>
    let e := (sampleRun [.insert 5 (sampleInput "a" "" none), .insert 6 (sampleInput "b" "" none)]
      e₀).engine
    (sampleGistEvict (.ok none) e₀).1 = .ok 1 ∧ e.metadata.recordCount = e.metadata.records.size ∧
      (∀ o ∈ e.metadata.records.keys, o < e.metadata.nextOffset) ∧
      ∀ p ∈ e.drain.metadata.records.toList, e.idIndex[p.2.id]? = some p.1) (by decide +kernel)
  simp only [ExtTreeMap.mem_keys] at hfresh
  have hrun : sampleGistEvict (.ok none) e₀ = (.ok 1, (sampleGistEvict (.ok none) e₀).2) :=
    Prod.ext hn rfl
  refine ⟨e₀, 1, _, hfirst, hrun, ?_⟩
  refine (evict_meets_cap hcount hfresh rfl (fun _ _ _ => rfl) hrun).1 ⟨fun p hp _ => ?_, ?_⟩
  · exact hindex p (ExtTreeMap.mem_toList_iff_getElem?_eq_some.mpr hp)
  · rintro G hG i c -
    cases hG
    rfl

/-- **A gist takes the place of its victim.** Of two records one is evicted, and its gist is the
second record again. -/
theorem evict_exceeds_cap : ∃ (e₀ : Engine) (n : ℕ) (s : Gisting),
    Engine.open sampleEnv sampleConfig {} = .ok e₀ ∧
    sampleGistEvict (.ok (some ("gist", [⟨0x3f800000⟩]))) e₀ = (.ok n, s) ∧
    s.engine.metadata.records.size = 2 := by
  obtain ⟨e₀, hfirst, hn, hsize⟩ := exists_opened (P := fun e₀ =>
    let r := sampleGistEvict (.ok (some ("gist", [⟨0x3f800000⟩]))) e₀
    r.1 = .ok 1 ∧ r.2.engine.metadata.records.size = 2) (by decide +kernel)
  exact ⟨e₀, 1, _, hfirst, Prod.ext hn rfl, hsize⟩

/-- Three records of two scopes. -/
def sampleScopes (e₀ : Engine) : Engine :=
  (sampleRun [.insert 5 (sampleInput "a" "" none),
    .insert 6 { sampleInput "b" "" none with scope := some "s" },
    .insert 7 (sampleInput "c" "" none)] e₀).engine

/-- The two that are evicted, with their scopes. -/
def sampleEvicted : List (PointOffset × Option String) := [(0, none), (1, some "s")]

/-- The records evicted for gists, of two scopes, were each in a chunk of their own scope whose
gist was stored first. -/
theorem evict_compresses_scopes : ∃ (e₀ : Engine) (s : Gisting) (mid : Engine),
    Engine.open sampleEnv sampleConfig {} = .ok e₀ ∧
    (sampleScopes e₀).evict sampleEnv (sampleGistSweep 1)
      (some (sampleGister (.ok (some ("gist", [⟨0x3f800000⟩]))))) 0 (fun _ => .ok) = (.ok 2, s) ∧
    ∀ p ∈ sampleEvicted, p.1 ∉ s.engine.metadata.records ∧
      p.1 ∈ mid.metadata.records ∧ ∃ c ∈ s.calls, p.1 ∈ c.offsets ∧ c.scope = p.2 ∧
        (c.answer.abstains = true ∨ c.StoredIn (sampleScopes e₀) mid) := by
  obtain ⟨e₀, hfirst, hn, hfresh, hlive⟩ := exists_opened (P := fun e₀ =>
    let e := sampleScopes e₀
    let r := e.evict sampleEnv (sampleGistSweep 1)
      (some (sampleGister (.ok (some ("gist", [⟨0x3f800000⟩]))))) 0 fun _ => .ok
    r.1 = .ok 2 ∧ (∀ o ∈ e.metadata.records.keys, o < e.metadata.nextOffset) ∧
      ∀ p ∈ sampleEvicted,
        (e.scanned (sampleGistSweep 1)).metadata.records[p.1]?.map MetaRecord.scope = some p.2 ∧
        p.1 ∉ r.2.engine.metadata.records) (by decide +kernel)
  simp only [ExtTreeMap.mem_keys] at hfresh
  obtain ⟨mid, left, -, hdeleted, -⟩ := evict_compresses hfresh rfl (Prod.ext hn rfl)
  refine ⟨e₀, _, mid, hfirst, Prod.ext hn rfl, fun p hp => ?_⟩
  obtain ⟨hrecord, hgone⟩ := hlive p hp
  obtain ⟨record, hrecord, hscope⟩ := Option.map_eq_some_iff.mp hrecord
  obtain ⟨hmid, hcall⟩ := hdeleted p.1 record hrecord
  obtain ⟨c, hc, ho, hc', hstored⟩ := hcall hgone
  exact ⟨hgone, mem_of_getElem? hmid, c, hc, ho, hc'.trans hscope, hstored⟩

/-- **A record that is no victim changes.** The newer of two records was found since the last drain.
Evicting the older one adds that access to it. -/
theorem evict_changes_survivor : ∃ (e₀ e : Engine) (s : Gisting),
    Engine.open sampleEnv sampleConfig {} = .ok e₀ ∧
    e = { (sampleRun [.insert 5 (sampleInput "a" "" none), .insert 6 (sampleInput "b" "" none)]
      e₀).engine with accessCounters := (∅ : ExtTreeMap PointOffset (ℕ × ℕ)).insert 1 (1, 50) } ∧
    e.evict sampleEnv (sampleGistSweep 1) (some (sampleGister (.ok none))) 0 (fun _ => .ok)
      = (.ok 1, s) ∧ 1 ∉ (e.drain.victimsOf sampleEnv (sampleGistSweep 1)).map fst ∧
    e.metadata.records[1]?.map MetaRecord.accessCount = some 0 ∧
    s.engine.metadata.records[1]?.map MetaRecord.accessCount = some 1 := by
  obtain ⟨e₀, hfirst, hn, htest⟩ := exists_opened (P := fun e₀ =>
    let e : Engine := { (sampleRun [.insert 5 (sampleInput "a" "" none),
        .insert 6 (sampleInput "b" "" none)] e₀).engine with
      accessCounters := (∅ : ExtTreeMap PointOffset (ℕ × ℕ)).insert 1 (1, 50) }
    let r := e.evict sampleEnv (sampleGistSweep 1) (some (sampleGister (.ok none))) 0 fun _ => .ok
    r.1 = .ok 1 ∧ 1 ∉ (e.drain.victimsOf sampleEnv (sampleGistSweep 1)).map fst ∧
      e.metadata.records[1]?.map MetaRecord.accessCount = some 0 ∧
      r.2.engine.metadata.records[1]?.map MetaRecord.accessCount = some 1) (by decide +kernel)
  exact ⟨e₀, _, _, hfirst, rfl, Prod.ext hn rfl, htest⟩

end TurboMemory
