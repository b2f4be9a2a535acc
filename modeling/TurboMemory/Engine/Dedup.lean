import TurboMemory.Engine.Eviction
import TurboMemory.Graph.Runs
import TurboMemory.Lib.Chains

/-!
# What deduplication deletes

The pass decides on merges, each of a survivor and a victim, and then deletes the victims. A
survivor can be the victim of a later merge, but a victim takes no part in later ones, so every
chain of merges ends at a record that stays.

## Main results

* `Merging.Sound.add`, `DedupRun.sound_mergePass` — one more merge, and the double loop.
* `dedup_keeps_copy` — of every deleted record a copy stays.
-/

set_option autoImplicit false

namespace TurboMemory

open Chains List

variable {S T : Type} [LinearOrder S] [LinearOrder T] {E : Env} {P : Merging S → Prop}
  {d : DedupRun S T}

/-! ## The order of salience -/

namespace Cand

/-- `a` ranks above `b` by access score, importance and age. -/
def Outranks (a b : Cand S) : Prop :=
  b.score < a.score ∨ b.score = a.score ∧ (b.importance.totalKey < a.importance.totalKey ∨
      b.importance.totalKey = a.importance.totalKey ∧ a.insertSeq < b.insertSeq)

/-- The first stays unless the second outranks it. -/
lemma keeps_iff (a b : Cand S) : keeps a b = true ↔ ¬ b.Outranks a := by
  unfold keeps Outranks
  rcases lt_trichotomy a.score b.score with h | h | h
  · simp [compare_lt_iff_lt.mpr h, h]
  · rcases lt_trichotomy a.importance.totalKey b.importance.totalKey with hi | hi | hi
    · simp [h, compare_lt_iff_lt.mpr hi, hi]
    · simp [h, hi, Ordering.isGE_iff_ne_lt, compare_lt_iff_lt]
    · simp [h, compare_gt_iff_gt.mpr hi, hi.not_gt, hi.ne']
  · simp [compare_gt_iff_gt.mpr h, h.not_gt, h.ne']

/-- Not both ways. -/
lemma Outranks.asymm {a b : Cand S} (h : a.Outranks b) : ¬ b.Outranks a := by
  rcases h with h | ⟨h, h₁⟩
  · rintro (h' | ⟨h', -⟩)
    · exact h.not_gt h'
    · exact h.ne' h'
  · rintro (h' | ⟨-, h₁'⟩)
    · exact h'.ne' h
    · omega

end Cand

/-! ## The merges decided on -/

namespace DedupRun

/-- Near duplicates: of one scope, and with vectors at least as similar as the threshold. -/
structure Near (d : DedupRun S T) (vectors : VectorStore) (a b : Cand S) : Prop where
  scope : a.scope = b.scope
  cosine : ∃ u v, vectors.get a.offset = some u ∧ vectors.get b.offset = some v ∧
    d.threshold ≤ d.cosine u v

omit [LinearOrder S] in
/-- Nearness is symmetric. -/
lemma Near.symm {vectors : VectorStore} {a b : Cand S}
    (hcomm : ∀ u v, d.cosine u v = d.cosine v u) (h : d.Near vectors a b) : d.Near vectors b a := by
  obtain ⟨u, v, hu, hv, hle⟩ := h.cosine
  exact ⟨h.scope.symm, v, u, hv, hu, hcomm u v ▸ hle⟩

/-- A merge that may be decided on. -/
structure Fits (d : DedupRun S T) (vectors : VectorStore) (cands : List (Cand S))
    (m : Cand S × Cand S) : Prop where
  survivor : m.1 ∈ cands
  victim : m.2 ∈ cands
  near : d.Near vectors m.2 m.1
  ranked : ¬ m.2.Outranks m.1

end DedupRun

namespace Merging

/-- From victims to survivors. -/
def pairs (s : Merging S) : List (PointOffset × PointOffset) :=
  s.merges.map fun m => (m.2.offset, m.1.offset)

/-- What holds of the merges decided on. -/
structure Sound (d : DedupRun S T) (vectors : VectorStore) (cands : List (Cand S))
    (s : Merging S) : Prop where
  merged : s.mergedOffsets = s.merges.map (·.2.offset)
  fits : ∀ m ∈ s.merges, d.Fits vectors cands m
  /-- Every chain of merges ends at a record that is no victim. -/
  surfaces : ∀ o, Surfaces s.pairs o

variable {d : DedupRun S T} {vectors : VectorStore} {cands : List (Cand S)} {s : Merging S}

/-- No merge. -/
lemma sound_nil : Sound d vectors cands {} :=
  ⟨rfl, by simp, fun o => ⟨o, .refl, by simp [Current, pairs]⟩⟩

/-- The current offsets are those of no victim. -/
lemma Sound.current_iff (h : Sound d vectors cands s) (o : PointOffset) :
    Current s.pairs o ↔ o ∉ s.mergedOffsets := by
  rw [h.merged, Current, pairs]
  simp only [mem_map, Prod.mk.injEq, not_exists, not_and]
  constructor
  · intro hnone m hm heq
    exact hnone m.1.offset m hm heq rfl
  · intro hnone b m hm heq
    exact absurd heq (hnone m hm)

/-- **One more merge** of records that were not merged away. -/
lemma Sound.add (h : Sound d vectors cands s) {m : Cand S × Cand S} (hfits : d.Fits vectors cands m)
    (hlive : m.1.offset ∉ s.mergedOffsets) (hne : m.1.offset ≠ m.2.offset) :
    Sound d vectors cands ⟨s.mergedOffsets ++ [m.2.offset], s.merges ++ [m]⟩ where
  merged := by simp [h.merged]
  fits := by
    intro m' hm
    rcases mem_append.mp hm with hm | hm
    · exact h.fits m' hm
    · rwa [mem_singleton.mp hm]
  surfaces := by
    have hpairs : pairs ⟨s.mergedOffsets ++ [m.2.offset], s.merges ++ [m]⟩
        = s.pairs ++ [(m.2.offset, m.1.offset)] := by
      simp [pairs]
    rw [hpairs]
    -- The survivor is current and not the victim.
    refine (surfaces_concat_iff h.surfaces).mpr (.inr ⟨m.1.offset, .refl, ?_, hne⟩)
    exact (h.current_iff _).mpr hlive

end Merging

/-! ## The double loop -/

namespace DedupRun

variable {d : DedupRun S T} {vectors : VectorStore} {cands : List (Cand S)}

/-- A merge that is decided on: it fits, neither side was merged away before, and there is room for
one more. -/
structure Decided (d : DedupRun S T) (vectors : VectorStore) (cands : List (Cand S))
    (s : Merging S) (m : Cand S × Cand S) : Prop extends d.Fits vectors cands m where
  survivor_live : m.1.offset ∉ s.mergedOffsets
  victim_live : m.2.offset ∉ s.mergedOffsets
  ne : m.1.offset ≠ m.2.offset
  room : s.merges.length < d.sweep.tier.dedupMaxPairsPerCycle

section

variable (hadd : ∀ s m, P s → d.Decided vectors cands s m →
  P ⟨s.mergedOffsets ++ [m.2.offset], s.merges ++ [m]⟩)
include hadd

section

variable (hcomm : ∀ u v, d.cosine u v = d.cosine v u) (hnodup : (cands.map Cand.offset).Nodup)
include hcomm hnodup

/-- **The neighbours of a candidate** that was not merged away: what every merge keeps holds after
the loop. **Proof sketch.** By induction over the neighbours. One that is not skipped is another
live candidate, and the loop goes on only while the candidate is no victim. -/
lemma scanNeighbors_induction {cand : Cand S} (hcand : cand ∈ cands)
    {embedding : Embedding} (hvector : vectors.get cand.offset = some embedding)
    (nids : List String) {s : Merging S} (h : P s) (hlive : cand.offset ∉ s.mergedOffsets)
    (hroom : s.merges.length < d.sweep.tier.dedupMaxPairsPerCycle) :
    P (d.scanNeighbors vectors cands cand embedding nids s).2 ∧
    ((d.scanNeighbors vectors cands cand embedding nids s).1 = false →
      (d.scanNeighbors vectors cands cand embedding nids s).2.merges.length
        < d.sweep.tier.dedupMaxPairsPerCycle) := by
  induction nids generalizing s with
  | nil => exact ⟨h, fun _ => hroom⟩
  | cons nid nids ih =>
    have hskip := ih h hlive hroom
    rw [scanNeighbors]
    split
    · exact hskip
    next hid =>
    split
    · exact hskip
    next other hfind =>
    split
    · exact hskip
    next hscope =>
    split
    · exact hskip
    next hmerged =>
    split
    · exact hskip
    next otherVec hother =>
    split
    · exact hskip
    next hsim =>
    have hfound : other ∈ cands := mem_of_find?_eq_some hfind
    have hne : cand.offset ≠ other.offset := by
      intro heq
      have hsame := inj_on_of_nodup_map hnodup hcand hfound heq
      have hnid : other.id = nid := by simpa using find?_some hfind
      exact hid (by rw [← hnid, hsame])
    have hmerged' : other.offset ∉ s.mergedOffsets := by simpa using hmerged
    have hnear : d.Near vectors cand other :=
      ⟨(not_not.mp hscope).symm, embedding, otherVec, hvector, hother, not_lt.mp hsim⟩
    set merge := if keeps cand other then (cand, other) else (other, cand) with hmerge
    have hdecided : d.Decided vectors cands s merge := by
      by_cases hkeeps : keeps cand other
      · rw [hmerge, if_pos hkeeps]
        rw [Cand.keeps_iff] at hkeeps
        exact ⟨⟨hcand, hfound, hnear.symm hcomm, hkeeps⟩, hlive, hmerged', hne, hroom⟩
      · rw [hmerge, if_neg hkeeps]
        rw [Cand.keeps_iff, not_not] at hkeeps
        exact ⟨⟨hfound, hcand, hnear, hkeeps.asymm⟩, hmerged', hlive, hne.symm, hroom⟩
    have hnext := hadd s merge h hdecided
    simp only [length_append, length_singleton]
    split
    · exact ⟨hnext, by simp⟩
    next hfull =>
    have hroom' : (s.merges ++ [merge]).length < d.sweep.tier.dedupMaxPairsPerCycle := by
      simpa using hfull
    split
    · exact ⟨hnext, fun _ => hroom'⟩
    · next hstays =>
      refine ih hnext ?_ hroom'
      simpa [hlive] using Ne.symm hstays

/-- **The candidates**, one after the other. -/
lemma mergePass_induction (rest : List (Cand S)) (hrest : ∀ c ∈ rest, c ∈ cands)
    {s s' : Merging S} (h : P s) (hroom : s.merges.length < d.sweep.tier.dedupMaxPairsPerCycle)
    (hpass : d.mergePass vectors cands rest s = .ok s') : P s' := by
  induction rest generalizing s with
  | nil =>
    cases hpass
    exact h
  | cons cand rest ih =>
    have hskip := ih (fun c hc => hrest c (by simp [hc])) h hroom
    rw [mergePass] at hpass
    split at hpass
    · exact hskip hpass
    next hlive =>
    split at hpass
    · exact hskip hpass
    next embedding hvector =>
    split at hpass
    · cases hpass
    next nids hneighbors =>
    obtain ⟨hP, hlt⟩ := scanNeighbors_induction hadd hcomm hnodup
      (hrest cand (by simp)) hvector nids
      h (by simpa using hlive) hroom
    split at hpass
    · next s₁ hscan =>
      cases hpass
      rw [hscan] at hP
      exact hP
    · next s₁ hscan =>
      rw [hscan] at hP hlt
      exact ih (fun c hc => hrest c (by simp [hc])) hP (hlt rfl) hpass

end

end

/-- What the pass decides on is sound, and not more than permitted. -/
lemma sound_mergePass (hcomm : ∀ u v, d.cosine u v = d.cosine v u)
    (hnodup : (cands.map Cand.offset).Nodup) (rest : List (Cand S)) (hrest : ∀ c ∈ rest, c ∈ cands)
    {s s' : Merging S} (h : s.Sound d vectors cands)
    (hroom : s.merges.length < d.sweep.tier.dedupMaxPairsPerCycle)
    (hpass : d.mergePass vectors cands rest s = .ok s') :
    s'.Sound d vectors cands ∧ s'.merges.length ≤ d.sweep.tier.dedupMaxPairsPerCycle := by
  refine mergePass_induction (P := fun s => s.Sound d vectors cands ∧
    s.merges.length ≤ d.sweep.tier.dedupMaxPairsPerCycle) ?_ hcomm hnodup rest hrest
    ⟨h, hroom.le⟩ hroom hpass
  rintro s m ⟨hs, -⟩ hm
  refine ⟨hs.add hm.toFits hm.survivor_live hm.ne, ?_⟩
  rw [length_append, length_singleton]
  exact hm.room

end DedupRun

/-! ## Carrying out the merges -/

namespace Engine

variable {L : LearnArith} {e e' : Engine} {r : Except StorageError ℕ}

/-- Passing on concepts changes the graph only. -/
lemma inheritConcepts_eq (E : Env) (L : LearnArith) (e : Engine) (survivorId : String)
    (concepts : List String) : (e.inheritConcepts E L survivorId concepts).metadata = e.metadata ∧
    (e.inheritConcepts E L survivorId concepts).idIndex = e.idIndex := by
  rw [inheritConcepts]
  split
  · exact ⟨rfl, rfl⟩
  · simp only
    split <;> exact ⟨rfl, rfl⟩

/-- One merge: the survivor gets the concepts of the victim, which is deleted. -/
def mergeOne (E : Env) (L : LearnArith) (io : Io) (e : Engine) (m : Cand S × Cand S) :
    Except StorageError Reply × Engine :=
  let e := e.inheritConcepts E L m.1.id m.2.concepts
  e.perform E io (e.deleteByIdAt m.2.id m.2.offset)

variable {m : Cand S × Cand S}

section

omit [LinearOrder S]

/-- One merge deletes nothing but its victim. -/
lemma records_merge {io : Io} {answer : Except StorageError Reply}
    (h : e.mergeOne E L io m = (answer, e')) (o : PointOffset) :
    e'.metadata.records[o]? = e.metadata.records[o]? ∨
      e'.metadata.records[o]? = none ∧ m.2.offset = o := by
  have hsame := (inheritConcepts_eq E L e m.1.id m.2.concepts).1
  rcases perform_deleteByIdAt h with ⟨-, -, rfl⟩ | ⟨-, ⟨-, hmeta, -⟩ | ⟨-, hmeta, -⟩⟩
  · exact .inl (by rw [hsame])
  · rw [hmeta, MetadataStore.getElem?_records_remove, hsame]
    split
    · next heq => exact .inr ⟨rfl, heq⟩
    · exact .inl rfl
  · exact .inl (by rw [hmeta, hsame])

/-- The first merge, and the others if it succeeds. -/
lemma applyMerges_cons {io : PointOffset → Io} {merges : List (Cand S × Cand S)}
    (h : applyMerges E L io (m :: merges) e = (r, e')) :
    ∃ answer e₁, e.mergeOne E L (io m.2.offset) m = (answer, e₁) ∧
      ((∃ err, answer = .error err) ∧ e₁ = e' ∨
        (∃ reply, answer = .ok reply) ∧ ∃ r', applyMerges E L io merges e₁ = (r', e')) := by
  rcases hone : e.mergeOne E L (io m.2.offset) m with ⟨answer, e₁⟩
  refine ⟨answer, e₁, rfl, ?_⟩
  have hone' : Engine.perform E _ _ _ = _ := hone
  rw [applyMerges, hone'] at h
  cases answer with
  | error err => exact .inl ⟨⟨err, rfl⟩, (Prod.mk.inj h).2⟩
  | ok reply =>
    rcases hrest : applyMerges E L io merges e₁ with ⟨r', e₂⟩
    simp only [hrest] at h
    obtain rfl : e' = e₂ := by
      cases r' <;> exact (Prod.mk.inj h).2.symm
    exact .inr ⟨⟨reply, rfl⟩, r', rfl⟩

/-- **The merges** delete nothing but victims. -/
lemma applyMerges_spec {io : PointOffset → Io} (merges : List (Cand S × Cand S))
    (h : applyMerges E L io merges e = (r, e')) (o : PointOffset) :
    e'.metadata.records[o]? = e.metadata.records[o]? ∨
      e'.metadata.records[o]? = none ∧ ∃ m ∈ merges, m.2.offset = o := by
  induction merges generalizing e r with
  | nil =>
    cases h
    exact .inl rfl
  | cons m merges ih =>
    obtain ⟨answer, e₁, hone, hrest⟩ := applyMerges_cons h
    have hhead : e₁.metadata.records[o]? = e.metadata.records[o]? ∨
        e₁.metadata.records[o]? = none ∧ ∃ m' ∈ m :: merges, m'.2.offset = o :=
      (records_merge hone o).imp_right fun ⟨hnone, heq⟩ => ⟨hnone, m, by simp, heq⟩
    rcases hrest with ⟨-, rfl⟩ | ⟨-, r', hrest⟩
    · exact hhead
    · rcases ih hrest with hsame | ⟨hnone, m, hm, heq⟩
      · rw [hsame]
        exact hhead
      · exact .inr ⟨hnone, m, by simp [hm], heq⟩

end

/-- Two live records whose vectors are at least as similar as the threshold. -/
def Similar (w : Sweep S T) (cosine : Embedding → Embedding → T) (e : Engine)
    (a b : PointOffset) : Prop :=
  a ∈ e.metadata.records ∧ b ∈ e.metadata.records ∧
    ∃ threshold u v, w.tier.dedupCosineThreshold = some threshold ∧ e.vectors.get a = some u ∧
      e.vectors.get b = some v ∧ threshold ≤ cosine u v

end Engine

/-! ## Deduplications -/

section Dedup

variable {L : LearnArith} {w : Sweep S T} {cosine : Embedding → Embedding → T}
  {neighbors : Cand S → Except StorageError (List String)} {io : PointOffset → Io} {e e' : Engine}
  {r : Except StorageError ℕ} {merges : List (Cand S × Cand S)}

section

omit [LinearOrder S] [LinearOrder T]

/-- The candidates are the records. -/
lemma mem_cands_iff {records : Records} {c : Cand S} : c ∈ w.cands (E.iterate records) ↔
    ∃ record, records[c.offset]? = some record ∧ c = w.cand (c.offset, record) := by
  simp only [Sweep.cands, mem_insertionSort, mem_map, (E.iterate_perm _).mem_iff,
    Prod.exists, Std.ExtTreeMap.mem_toList_iff_getElem?_eq_some]
  constructor
  · rintro ⟨o, record, hrecord, rfl⟩
    exact ⟨record, hrecord, rfl⟩
  · rintro ⟨record, hrecord, heq⟩
    exact ⟨c.offset, record, hrecord, heq.symm⟩

/-- Each once. -/
lemma nodup_offset_cands (w : Sweep S T) (records : Records) :
    ((w.cands (E.iterate records)).map Cand.offset).Nodup := by
  have hperm := (perm_insertionSort (fun a b => a.insertSeq ≤ b.insertSeq)
    ((E.iterate records).map w.cand)).map Cand.offset
  rw [Sweep.cands, hperm.nodup_iff, map_map]
  exact Sweep.nodup_offsets (E.iterate_perm records)

end

/-- The merges of a sound pass lead along near duplicates of one scope. -/
lemma similar_of_leads {s : Merging S} {o o' : PointOffset}
    {record : MetaRecord} (hd : d.cosine = cosine)
    (hthreshold : w.tier.dedupCosineThreshold = some d.threshold)
    (hsound : s.Sound d e.vectors (w.cands (E.iterate e.metadata.records)))
    (hrecord : e.metadata.records[o]? = some record) (hleads : Leads s.pairs o o') :
    Relation.ReflTransGen (Engine.Similar w cosine e) o o' ∧
    ∃ record', e.metadata.records[o']? = some record' ∧ record'.scope = record.scope := by
  induction hleads with
  | refl => exact ⟨.refl, record, hrecord, rfl⟩
  | @tail a b _ hpair ih =>
    obtain ⟨hchain, record', hrecord', hscope⟩ := ih
    obtain ⟨m, hm, heq⟩ := mem_map.mp hpair
    cases heq
    have hfits := hsound.fits m hm
    obtain ⟨victim, hvictim, hcand⟩ := mem_cands_iff.mp hfits.victim
    obtain ⟨survivor, hsurvivor, hcand'⟩ := mem_cands_iff.mp hfits.survivor
    obtain ⟨u, v, hu, hv, hle⟩ := hfits.near.cosine
    have hsame : survivor.scope = victim.scope := by
      have hnear := hfits.near.scope
      rw [hcand, hcand'] at hnear
      exact hnear.symm
    rw [hvictim] at hrecord'
    cases hrecord'
    refine ⟨hchain.tail ⟨?_, ?_, d.threshold, u, v, hthreshold, hu, hv, hd ▸ hle⟩, survivor,
      hsurvivor, hsame.trans hscope⟩
    · exact Grouping.mem_of_getElem? hvictim
    · exact Grouping.mem_of_getElem? hsurvivor

/-- **What deduplication is for**: from `e`, whose accesses are drained, to `e'`, by merges of
survivors and victims. -/
structure Engine.KeepsCopy (w : Sweep S T) (cosine : Embedding → Embedding → T)
    (merges : List (Cand S × Cand S)) (e e' : Engine) : Prop where
  /-- At most the permitted number of records is merged away. -/
  few : merges.length ≤ w.tier.dedupMaxPairsPerCycle
  /-- Survivors and victims are records of the store. -/
  records : ∀ m ∈ merges, ∀ c ∈ [m.1, m.2], ∃ record,
    e.metadata.records[c.offset]? = some record ∧ c = w.cand (c.offset, record)
  /-- No victim ranks above its survivor. -/
  ranked : ∀ m ∈ merges, ¬ m.2.Outranks m.1
  /-- Only victims are deleted. -/
  victim : ∀ o ∈ e.metadata.records, o ∉ e'.metadata.records → ∃ m ∈ merges, m.2.offset = o
  /-- Near duplicates lead from a deleted record to one of the same scope that stays. -/
  copy : ∀ (o : PointOffset) (record : MetaRecord), e.metadata.records[o]? = some record →
    o ∉ e'.metadata.records → ∃ (o' : PointOffset) (record' : MetaRecord),
      o' ∈ e'.metadata.records ∧ e.metadata.records[o']? = some record' ∧
      record'.scope = record.scope ∧ Relation.ReflTransGen (Engine.Similar w cosine e) o o'

/-- Nothing is merged and nothing is deleted. -/
lemma keepsCopy_nil (hsame : ∀ o ∈ e.metadata.records, o ∈ e'.metadata.records) :
    e.KeepsCopy w cosine [] e' :=
  ⟨Nat.zero_le _, by simp, by simp, fun o ho hgone => absurd (hsame o ho) hgone,
    fun o _ ho hgone => absurd (hsame o (Grouping.mem_of_getElem? ho)) hgone⟩

/-- A deduplication deletes nothing, or it applies the merges of its pass. -/
lemma deduplicate_cases (h : e.deduplicate E L w cosine neighbors io = (r, merges, e')) :
    (merges = [] ∧ ∀ o ∈ e.drain.metadata.records, o ∈ e'.metadata.records) ∨
    ∃ threshold s, w.tier.dedupCosineThreshold = some threshold ∧
      w.tier.dedupMaxPairsPerCycle ≠ 0 ∧
      (⟨w, cosine, threshold, neighbors⟩ : DedupRun S T).mergePass
        e.drain.vectors (w.cands (E.iterate e.drain.metadata.records))
        (w.cands (E.iterate e.drain.metadata.records)) {} = .ok s ∧
      s.merges = merges ∧ Engine.applyMerges E L io merges e.drain = (r, e') := by
  rw [Engine.deduplicate] at h
  cases hthreshold : w.tier.dedupCosineThreshold with
  | none =>
    obtain ⟨-, rfl, rfl⟩ :
        r = .ok 0 ∧ merges = [] ∧ e' = e := by simpa [hthreshold, eq_comm] using h
    exact .inl ⟨rfl, fun o => (e'.drain_spec.1 o).mp⟩
  | some threshold =>
    simp only [hthreshold] at h
    split at h
    · obtain ⟨-, rfl, rfl⟩ : r = .ok 0 ∧ merges = [] ∧ e' = e := by simpa [eq_comm] using h
      exact .inl ⟨rfl, fun o => (e'.drain_spec.1 o).mp⟩
    next hmax =>
    split at h
    · obtain ⟨-, rfl, rfl⟩ : _ ∧ merges = [] ∧ e' = e.drain := by simpa [eq_comm] using h
      exact .inl ⟨rfl, fun o ho => ho⟩
    next s hpass =>
    obtain ⟨rfl, rfl, rfl⟩ : _ = r ∧ s.merges = merges ∧ _ = e' := by simpa using h
    exact .inr ⟨threshold, s, rfl, hmax, hpass, rfl, rfl⟩

/-- **Deduplication never loses the last copy.** **Proof sketch.** Every chain of merges from a
victim ends at a record that is none (`Merging.Sound.surfaces`) and stays. -/
theorem dedup_keeps_copy (hcomm : ∀ u v, cosine u v = cosine v u)
    (h : e.deduplicate E L w cosine neighbors io = (r, merges, e')) :
    e.drain.KeepsCopy w cosine merges e' := by
  rcases deduplicate_cases h with ⟨rfl, hsame⟩ |
    ⟨threshold, s, hthreshold, hmax, hpass, rfl, happly⟩
  · exact keepsCopy_nil hsame
  · obtain ⟨hsound, hlength⟩ := DedupRun.sound_mergePass hcomm
      (nodup_offset_cands w e.drain.metadata.records) _ (fun _ hc => hc) Merging.sound_nil
      (Nat.pos_of_ne_zero hmax) hpass
    have hdeleted : ∀ o ∈ e.drain.metadata.records, o ∉ e'.metadata.records →
        ∃ m ∈ s.merges, m.2.offset = o := by
      intro o ho hgone
      rcases Engine.applyMerges_spec s.merges happly o with hsame | ⟨-, hm⟩
      · rw [Std.ExtTreeMap.mem_iff_isSome_getElem?] at ho hgone
        rw [hsame] at hgone
        exact absurd ho hgone
      · exact hm
    refine ⟨hlength, fun m hm c hc => ?_, fun m hm => (hsound.fits m hm).ranked, hdeleted,
      fun o record ho hgone => ?_⟩
    · simp only [mem_cons, not_mem_nil, or_false] at hc
      rcases hc with rfl | rfl
      · exact mem_cands_iff.mp (hsound.fits m hm).survivor
      · exact mem_cands_iff.mp (hsound.fits m hm).victim
    · obtain ⟨o', hleads, hcurrent⟩ := hsound.surfaces o
      obtain ⟨hchain, record', hrecord', hscope⟩ :=
        similar_of_leads rfl hthreshold hsound ho hleads
      refine ⟨o', record', ?_, hrecord', hscope, hchain⟩
      by_contra hgone'
      obtain ⟨m, hm, rfl⟩ := hdeleted o' (Grouping.mem_of_getElem? hrecord') hgone'
      exact hcurrent m.1.offset (mem_map_of_mem hm)

end Dedup

/-- Deduplication of a small store: vectors are duplicates if they are equal, and the search finds
every record. -/
def sampleDedup (rs : List Request) (e₀ : Engine) :
    Except StorageError ℕ × List (Cand ℕ × Cand ℕ) × Engine :=
  (sampleRun rs e₀).engine.deduplicate sampleEnv MemoryGraph.sampleLearnArith
    { sampleSweep 10 with tier := { (sampleSweep 10).tier with dedupCosineThreshold := some 1 } }
    (fun u v => if u = v then 1 else 0) (fun _ => .ok ["a", "b"]) fun _ => .ok

set_option maxRecDepth 10000

/-- Of two records with one vector, the older one stays. -/
theorem dedup_keeps_copy_two : ∃ (e₀ : Engine) (merges : List (Cand ℕ × Cand ℕ)) (e : Engine),
    Engine.open sampleEnv sampleConfig {} = .ok e₀ ∧
    sampleDedup [.insert 5 (sampleInput "a" "" none), .insert 6 (sampleInput "b" "" none)] e₀
      = (.ok 1, merges, e) ∧
    1 ∉ e.metadata.records ∧ ∃ o ∈ e.metadata.records, Relation.ReflTransGen
      (Engine.Similar { sampleSweep 10 with
          tier := { (sampleSweep 10).tier with dedupCosineThreshold := some 1 } }
        (fun u v => if u = v then 1 else 0) (sampleRun [.insert 5 (sampleInput "a" "" none),
          .insert 6 (sampleInput "b" "" none)] e₀).engine.drain) 1 o := by
  set rs : List Request :=
    [.insert 5 (sampleInput "a" "" none), .insert 6 (sampleInput "b" "" none)]
  obtain ⟨e₀, hfirst, hn, hlive, hgone⟩ := exists_opened (P := fun e₀ =>
    (sampleDedup rs e₀).1 = .ok 1 ∧ (sampleRun rs e₀).engine.drain.metadata.records[1]?.isSome ∧
      1 ∉ (sampleDedup rs e₀).2.2.metadata.records) (by decide +kernel)
  obtain ⟨record, hrecord⟩ := Option.isSome_iff_exists.mp hlive
  have hrun : sampleDedup rs e₀ = (.ok 1, (sampleDedup rs e₀).2.1, (sampleDedup rs e₀).2.2) :=
    Prod.ext hn rfl
  obtain ⟨o, -, ho, -, -, hchain⟩ := (dedup_keeps_copy
    (fun u v => by simp only [eq_comm]) hrun).copy 1 record hrecord hgone
  exact ⟨e₀, _, _, hfirst, hrun, hgone, o, ho, hchain⟩

end TurboMemory
