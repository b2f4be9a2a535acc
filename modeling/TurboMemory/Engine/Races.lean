import TurboMemory.Engine.Coherence
import TurboMemory.Engine.Dedup
import TurboMemory.Engine.Gists

/-!
# Maintenance while callers write

An eviction or a deduplication scans the store, decides on its victims and deletes them one by one
later. Between any two of its steps other callers insert, update and delete. Every commit section is
one step. The scan is one step, what is decided from it another, and so is every deletion. The ghost
fields of a `Race` record what the scan saw, what callers wrote since and what the pass removed.

## Main results

* `Engine.ages_call` — a request writes at new offsets only.
* `Race.Pinned.step`, `Race.Pinned.run` — the invariant is kept by every step and every run.
* `maintenance_spares_newer_versions` — a pass removes what its scan saw and nothing written later.
-/

set_option autoImplicit false

namespace TurboMemory

open CriticalSections List Engine

/-- A record up to its access counts, which is what a write enters once and for all. -/
def MetaRecord.version (r : MetaRecord) : MetaRecord :=
  { r with accessCount := 0, lastAccessed := 0 }

/-! ## Stores that get older -/

namespace Engine

variable {E : Env} {e e' e'' : Engine} {n : ℕ} {offset : PointOffset}

/-- What is at an offset below `n` was there before. -/
structure Ages (n : ℕ) (e e' : Engine) : Prop where
  version : ∀ o < n, ∀ r', e'.metadata.records[o]? = some r' →
    ∃ r, e.metadata.records[o]? = some r ∧ r'.version = r.version
  fresh : e.Fresh → e'.Fresh
  nextOffset : e.metadata.nextOffset ≤ e'.metadata.nextOffset

/-- Nothing is done. -/
lemma Ages.refl (n : ℕ) (e : Engine) : Ages n e e :=
  ⟨fun _ _ r hr => ⟨r, hr, rfl⟩, id, le_rfl⟩

/-- One after the other. -/
lemma Ages.trans (h : Ages n e e') (h' : Ages n e' e'') : Ages n e e'' where
  version o ho r'' hr'' := by
    obtain ⟨r', hr', heq'⟩ := h'.version o ho r'' hr''
    obtain ⟨r, hr, heq⟩ := h.version o ho r' hr'
    exact ⟨r, hr, heq'.trans heq⟩
  fresh hfresh := h'.fresh (h.fresh hfresh)
  nextOffset := h.nextOffset.trans h'.nextOffset

/-- A smaller bound. -/
lemma Ages.mono {m : ℕ} (h : Ages n e e') (hle : m ≤ n) : Ages m e e' :=
  ⟨fun o ho => h.version o (ho.trans_le hle), h.fresh, h.nextOffset⟩

/-- A change of the access counts. -/
lemma ages_of_column (n : ℕ)
    (hcolumn : e'.metadata.column MetaRecord.version = e.metadata.column MetaRecord.version)
    (hnext : e'.metadata.nextOffset = e.metadata.nextOffset) : Ages n e e' := by
  have hversion : ∀ (o : PointOffset) (r' : MetaRecord), e'.metadata.records[o]? = some r' →
      ∃ r, e.metadata.records[o]? = some r ∧ r'.version = r.version := by
    intro o r' hr'
    have hsome : e.metadata.column MetaRecord.version o = some r'.version := by
      rw [← hcolumn, MetadataStore.column, MetadataStore.get, hr', Option.map_some]
    obtain ⟨r, hr, heq⟩ := Option.map_eq_some_iff.mp hsome
    exact ⟨r, hr, heq.symm⟩
  refine ⟨fun o _ => hversion o, fun hfresh o ho => ?_, hnext.ge⟩
  obtain ⟨r', hr'⟩ := Option.isSome_iff_exists.mp (Std.ExtTreeMap.mem_iff_isSome_getElem?.mp ho)
  obtain ⟨r, hr, -⟩ := hversion o r' hr'
  rw [hnext]
  exact hfresh o (Grouping.mem_of_getElem? hr)

/-- A record is removed. -/
lemma ages_remove (n : ℕ) (hmeta : e'.metadata = e.metadata.remove offset) : Ages n e e' := by
  have hrecords : ∀ (o : PointOffset) (r : MetaRecord), e'.metadata.records[o]? = some r →
      e.metadata.records[o]? = some r := by
    intro o r hr
    rw [hmeta, MetadataStore.getElem?_records_remove] at hr
    split at hr
    · cases hr
    · exact hr
  refine ⟨fun o _ r hr => ⟨r, hrecords o r hr, rfl⟩, fun hfresh o ho => ?_, by rw [hmeta]; rfl⟩
  obtain ⟨r, hr⟩ := Option.isSome_iff_exists.mp (Std.ExtTreeMap.mem_iff_isSome_getElem?.mp ho)
  rw [hmeta]
  exact hfresh o (Grouping.mem_of_getElem? (hrecords o r hr))

/-- A batch at offsets that were taken since `n` was the next one. -/
lemma ages_putBatch {records : List (PointOffset × Record)}
    (hmeta : e'.metadata = e.metadata.putBatch records)
    (hrecords : ∀ p ∈ records, n ≤ p.1 ∧ p.1 < e.metadata.nextOffset) : Ages n e e' := by
  have hnext : e'.metadata.nextOffset = e.metadata.nextOffset := by
    rw [hmeta]
    exact (MetadataStore.putBatch_files e.metadata records).2.1
  have hother : ∀ o, (∀ p ∈ records, p.1 ≠ o) →
      e'.metadata.records[o]? = e.metadata.records[o]? := by
    intro o ho
    rw [hmeta, records_putBatch, getElem?_foldl_insert_of_ne ho]
  refine ⟨fun o ho r' hr' => ?_, fun hfresh o ho => ?_, hnext.ge⟩
  · have hne : ∀ p ∈ records, p.1 ≠ o := fun p hp heq =>
      absurd (heq ▸ (hrecords p hp).1) (Nat.not_le.mpr ho)
    rw [hother o hne] at hr'
    exact ⟨r', hr', rfl⟩
  · rw [hnext]
    by_cases hin : ∃ p ∈ records, p.1 = o
    · obtain ⟨p, hp, rfl⟩ := hin
      exact (hrecords p hp).2
    · refine hfresh o ?_
      rw [Std.ExtTreeMap.mem_iff_isSome_getElem?] at ho ⊢
      rwa [← hother o fun p hp heq => hin ⟨p, hp, heq⟩]

/-- One step of a plan, if it enters records only at offsets that were taken since. -/
lemma ages_exec (E : Env) (io : Io) (e : Engine) {a : Action}
    (ha : ∀ records, a = .applyBatch records →
      ∀ p ∈ records, n ≤ p.1 ∧ p.1 < e.metadata.nextOffset) : Ages n e (e.exec E io a).2 := by
  cases hplain : a.plain with
  | true =>
    have hstill := still_exec E io e hplain
    exact ages_of_column n (hstill.column _ fun _ _ _ => rfl) hstill.nextOffset
  | false =>
    cases a with
    | removeFromIndexes id offset =>
      exact ages_remove n (removeFromIndexes_spec e id offset).1.metadata
    | applyBatch records =>
      exact ages_putBatch (metadata_applyBatch E io e records) (ha records rfl)
    | _ => cases hplain

variable {io : Io}

/-- A plan that writes at new offsets. -/
lemma ages_runAll {plan : List Action} {r : Except StorageError Unit}
    (hplan : ∀ records, .applyBatch records ∈ plan →
      ∀ p ∈ records, n ≤ p.1 ∧ p.1 < e.metadata.nextOffset)
    (h : runAll (exec E io) plan e = (r, e')) : Ages n e e' := by
  have hkept : Ages n e (runAll (exec E io) plan e).2 ∧
      (runAll (exec E io) plan e).2.metadata.nextOffset = e.metadata.nextOffset := by
    refine runAll_preserves (P := fun s => Ages n e s ∧ s.metadata.nextOffset
      = e.metadata.nextOffset) (fun a ha s hs => ⟨hs.1.trans (ages_exec E io s ?_), ?_⟩)
      ⟨.refl n e, rfl⟩
    · rintro records rfl
      rw [hs.2]
      exact hplan records ha
    · exact (counters_exec E io s a).1.trans hs.2
  rw [h] at hkept
  exact hkept.1

/-- Taking offsets changes no record. -/
lemma ages_allocate (n : ℕ) (clock : ℕ → ℕ) (ps : List PreparedRecord) (e : Engine) :
    Ages n e { e with metadata := (allocateAll clock 0 ps e.metadata).2 } := by
  have hrecords : (allocateAll clock 0 ps e.metadata).2.records = e.metadata.records := by
    rw [allocateAll_snd]
  have hnext : e.metadata.nextOffset ≤ (allocateAll clock 0 ps e.metadata).2.nextOffset := by
    rw [allocateAll_snd]
    exact Nat.le_add_right _ _
  refine ⟨fun o _ r hr => ⟨r, ?_, rfl⟩, fun hfresh o ho => ?_, hnext⟩
  · rwa [← hrecords]
  · exact (hfresh o (by rwa [← hrecords])).trans_le hnext

/-- The batches of a plan. -/
lemma applyBatch_mem_writePlan {records batch : List (PointOffset × Record)} {entries : List Entry}
    {removed : List Action} (hremoved : ∀ b, .applyBatch b ∉ removed)
    (h : .applyBatch batch ∈ writePlan records entries removed) : batch = records := by
  simp only [writePlan, mem_append, mem_map, mem_cons, not_mem_nil,
    reduceCtorEq, or_false, Action.applyBatch.injEq, and_false, exists_false, false_or] at h
  exact h.resolve_left (hremoved batch)

/-- **A request writes at new offsets only**, also one that fails. -/
lemma ages_call {q : Request} {reply : Except StorageError Reply}
    (h : e.call E io q = (reply, e')) : Ages e.metadata.nextOffset e e' := by
  unfold call perform at h
  split at h
  · obtain rfl := (Prod.mk.inj h).2
    exact .refl _ _
  next start plan _ hbegin =>
  have hrun : ∃ r, runAll (exec E io) plan start = (r, e') := by
    split at h <;> next hrun =>
      obtain rfl := (Prod.mk.inj h).2
      exact ⟨_, hrun⟩
  obtain ⟨r, hrun⟩ := hrun
  cases begun_of_begin hbegin with
  | inserts clock ps =>
    refine (ages_allocate _ clock ps e).trans (ages_runAll (fun records hmem p hp => ?_) hrun)
    obtain rfl := applyBatch_mem_writePlan (by simp) hmem
    rw [allocateAll_snd]
    exact (mem_allocateAll clock 0 ps _ hp).1
  | replace now p =>
    refine (ages_allocate _ (fun _ => now) [p] e).trans
      (ages_runAll (fun records hmem q hq => ?_) hrun)
    obtain rfl := applyBatch_mem_writePlan (by simp) hmem
    obtain rfl := mem_singleton.mp hq
    rw [allocateAll_snd]
    exact ⟨le_rfl, Nat.lt_succ_self _⟩
  | delete | flush => exact ages_runAll (by simp) hrun

/-- A deletion pinned to an offset. -/
lemma ages_deleteByIdAt (n : ℕ) {id : String} {r : Except StorageError Reply}
    (h : e.perform E io (e.deleteByIdAt id offset) = (r, e')) :
    Ages n e e' ∧ ∀ o ∈ e.metadata.records, o ∉ e'.metadata.records → o = offset := by
  have hsame : e'.metadata = e.metadata → Ages n e e' ∧
      ∀ o ∈ e.metadata.records, o ∉ e'.metadata.records → o = offset := by
    intro hmeta
    refine ⟨ages_of_column n (by rw [hmeta]) (by rw [hmeta]), fun o ho hgone => ?_⟩
    rw [hmeta] at hgone
    exact absurd ho hgone
  rcases perform_deleteByIdAt h with ⟨-, -, rfl⟩ | ⟨-, ⟨-, hmeta, -⟩ | ⟨-, hmeta, -⟩⟩
  · exact hsame rfl
  · refine ⟨ages_remove n hmeta, fun o ho hgone => ?_⟩
    by_contra hne
    rw [hmeta] at hgone
    refine hgone ?_
    simpa [MetadataStore.remove, Std.ExtTreeMap.mem_erase, Ne.symm hne] using ho
  · exact hsame hmeta

/-- The access counters are drained. -/
lemma ages_drain (n : ℕ) (e : Engine) : Ages n e e.drain :=
  ages_of_column n (column_drainInto (fun _ _ _ => rfl) _ _) e.nextOffset_drain

end Engine

/-! ## Victims of merges -/

namespace DedupRun

variable {S T : Type} [LinearOrder S] [LinearOrder T] {d : DedupRun S T} {vectors : VectorStore}
  {cands : List (Cand S)}

/-- The neighbours of a candidate are merged with it or it with them. -/
lemma victims_scanNeighbors {cand : Cand S} (hcand : cand ∈ cands) (embedding : Embedding)
    (nids : List String) {s : Merging S} (h : ∀ m ∈ s.merges, m.2 ∈ cands) :
    ∀ m ∈ (d.scanNeighbors vectors cands cand embedding nids s).2.merges, m.2 ∈ cands := by
  induction nids generalizing s with
  | nil => exact h
  | cons nid nids ih =>
    rw [scanNeighbors]
    split
    · exact ih h
    split
    · exact ih h
    next other hother =>
    split
    · exact ih h
    split
    · exact ih h
    split
    · exact ih h
    split
    · exact ih h
    have hmerge : ∀ m ∈ s.merges ++ [if keeps cand other then (cand, other) else (other, cand)],
        m.2 ∈ cands := by
      intro m hm
      rcases mem_append.mp hm with hm | hm
      · exact h m hm
      · obtain rfl := mem_singleton.mp hm
        split
        · exact mem_of_find?_eq_some hother
        · exact hcand
    generalize (if keeps cand other then (cand, other) else (other, cand)) = merge at hmerge
    dsimp only
    split
    · exact hmerge
    split
    · exact hmerge
    · exact ih hmerge

/-- The victims of a pass are candidates. -/
lemma victims_mergePass (rest : List (Cand S)) (hrest : ∀ c ∈ rest, c ∈ cands) {s s' : Merging S}
    (h : ∀ m ∈ s.merges, m.2 ∈ cands) (hpass : d.mergePass vectors cands rest s = .ok s') :
    ∀ m ∈ s'.merges, m.2 ∈ cands := by
  induction rest generalizing s with
  | nil =>
    cases hpass
    exact h
  | cons cand rest ih =>
    have hcand := hrest cand mem_cons_self
    have hrest' : ∀ c ∈ rest, c ∈ cands := fun c hc => hrest c (mem_cons_of_mem _ hc)
    rw [mergePass] at hpass
    split at hpass
    · exact ih hrest' h hpass
    split at hpass
    · exact ih hrest' h hpass
    next embedding hvector =>
    split at hpass
    · cases hpass
    next nids hnids =>
    have hscan : ∀ m ∈ (d.scanNeighbors vectors cands cand embedding nids s).2.merges,
        m.2 ∈ cands := victims_scanNeighbors hcand embedding nids h
    split at hpass
    · next s₁ hs₁ =>
      rw [hs₁] at hscan
      cases hpass
      exact hscan
    · next s₁ hs₁ =>
      rw [hs₁] at hscan
      exact ih hrest' hscan hpass

end DedupRun

/-! ## A pass and its callers -/

/-- What a pass still has to do: give a survivor the concepts of a victim, and delete a victim. -/
inductive Chore
  | inherit (survivorId : String) (concepts : List String)
  | delete (offset : PointOffset) (id : String)

/-- How far a pass is. -/
inductive Progress (S : Type)
  | idle
  | scanned (cands : List (Cand S))
  | deleting (jobs : List Chore)

/-- The offsets a pass may delete. -/
def Progress.targets {S : Type} : Progress S → List PointOffset
  | .idle => []
  | .scanned cands => cands.map Cand.offset
  | .deleting jobs => jobs.filterMap fun
    | .inherit _ _ => none
    | .delete offset _ => some offset

/-- The deletions of an eviction. -/
def evictJobs (victims : List (PointOffset × String)) : List Chore :=
  victims.map fun v => .delete v.1 v.2

/-- What a deduplication does for its merges. -/
def mergeJobs {S : Type} (merges : List (Cand S × Cand S)) : List Chore :=
  merges.flatMap fun m => [.inherit m.1.id m.2.concepts, .delete m.2.offset m.2.id]

/-- The records of a store that another one lacks. -/
def Records.lost (before after : Records) : List (PointOffset × MetaRecord) :=
  before.toList.filter fun p => p.1 ∉ after

/-- A record that is gone. -/
lemma Records.mem_lost {before after : Records} {p : PointOffset × MetaRecord} :
    p ∈ before.lost after ↔ before[p.1]? = some p.2 ∧ p.1 ∉ after := by
  rw [Records.lost, mem_filter, Std.ExtTreeMap.mem_toList_iff_getElem?_eq_some, decide_eq_true_eq]

/-- A store with a maintenance pass, and what happened since its scan. -/
structure Race (S : Type) where
  engine : Engine
  stage : Progress S := .idle
  /-- The records at the scan, and the next offset. -/
  scan : Records := ∅
  next : ℕ := 0
  /-- Written by callers since the scan. -/
  written : List (PointOffset × MetaRecord) := []
  /-- Removed by the pass. -/
  removed : List (PointOffset × MetaRecord) := []

namespace Race

variable {S T : Type} [LinearOrder S] [LinearOrder T] {E : Env} {s s' : Race S} {stage : Progress S}

/-- The pass scans the store: what was recorded of an earlier one is dropped. -/
def begin (s : Race S) (stage : Progress S) : Race S where
  engine := s.engine.drain
  stage := stage
  scan := s.engine.drain.metadata.records
  next := s.engine.drain.metadata.nextOffset

/-- One step of a pass or of a caller. Requests insert gists; another pass drains counters and
deletes its own victims. -/
inductive Step (E : Env) (T : Type) [LinearOrder T] : Race S → Race S → Prop
  | request {s : Race S} (io : Io) (r : Request) {reply : Except StorageError Reply} {e : Engine}
      (h : s.engine.call E io r = (reply, e)) : Step E T s { s with
        engine := e
        written := s.written ++ e.metadata.records.lost s.engine.metadata.records }
  | otherDrain {s : Race S} : Step E T s { s with engine := s.engine.drain }
  | otherDelete {s : Race S} (io : Io) (id : String) (offset : PointOffset)
      {reply : Except StorageError Reply} {e : Engine}
      (h : s.engine.perform E io (s.engine.deleteByIdAt id offset) = (reply, e)) :
      Step E T s { s with engine := e }
  | evictScan {s : Race S} (w : Sweep S T) (hidle : s.stage = .idle) :
      Step E T s (s.begin (.deleting (evictJobs (w.victims s.engine.drain.metadata.recordCount
        (E.iterate s.engine.drain.metadata.records)))))
  | spare {s : Race S} {jobs : List Chore} (keep : Chore → Bool)
      (hjobs : s.stage = .deleting jobs) :
      Step E T s { s with stage := .deleting (jobs.filter keep) }
  | dedupScan {s : Race S} (w : Sweep S T) (hidle : s.stage = .idle) :
      Step E T s (s.begin (.scanned (w.cands (E.iterate s.engine.drain.metadata.records))))
  | decide {s : Race S} (d : DedupRun S T) (vectors : VectorStore) {cands : List (Cand S)}
      {m : Merging S} (hcands : s.stage = .scanned cands)
      (h : d.mergePass vectors cands cands {} = .ok m) :
      Step E T s { s with stage := .deleting (mergeJobs m.merges) }
  | inherit {s : Race S} (L : LearnArith) {survivorId : String} {concepts : List String}
      {jobs : List Chore} (hjobs : s.stage = .deleting (.inherit survivorId concepts :: jobs)) :
      Step E T s { s with
        engine := s.engine.inheritConcepts E L survivorId concepts, stage := .deleting jobs }
  | delete {s : Race S} (io : Io) {offset : PointOffset} {id : String} {jobs : List Chore}
      {reply : Except StorageError Reply} {e : Engine}
      (hjobs : s.stage = .deleting (.delete offset id :: jobs))
      (h : s.engine.perform E io (s.engine.deleteByIdAt id offset) = (reply, e)) :
      Step E T s { s with
        engine := e
        stage := .deleting jobs
        removed := s.removed ++ s.engine.metadata.records.lost e.metadata.records }
  | stop {s : Race S} : Step E T s { s with stage := .idle }

/-- The invariant: below the next offset of the scan there is nothing but what the scan saw; the
pass aims there, and callers have written elsewhere. -/
structure Pinned (s : Race S) : Prop where
  fresh : s.engine.Fresh
  next : s.next ≤ s.engine.metadata.nextOffset
  scan : ∀ o ∈ s.scan, o < s.next
  version : ∀ o < s.next, ∀ r', s.engine.metadata.records[o]? = some r' →
    ∃ r, s.scan[o]? = some r ∧ r'.version = r.version
  targets : ∀ o ∈ s.stage.targets, o ∈ s.scan
  removed : ∀ p ∈ s.removed, ∃ r, s.scan[p.1]? = some r ∧ p.2.version = r.version
  written : ∀ p ∈ s.written, s.next ≤ p.1

section

omit [LinearOrder S]

/-- Steps after which the store is older and the pass aims at no other offsets. -/
lemma Pinned.age (h : s.Pinned) {e : Engine}
    (hages : Ages s.next s.engine e) (hstage : ∀ o ∈ stage.targets, o ∈ s.scan) :
    ({ s with engine := e, stage := stage } : Race S).Pinned where
  fresh := hages.fresh h.fresh
  next := h.next.trans hages.nextOffset
  scan := h.scan
  version o ho r'' hr'' := by
    obtain ⟨r', hr', heq'⟩ := hages.version o ho r'' hr''
    obtain ⟨r, hr, heq⟩ := h.version o ho r' hr'
    exact ⟨r, hr, heq'.trans heq⟩
  targets := hstage
  removed := h.removed
  written := h.written

/-- The victims of an eviction. -/
lemma targets_evictJobs (victims : List (PointOffset × String)) :
    (.deleting (evictJobs victims) : Progress S).targets = victims.map Prod.fst := by
  rw [Progress.targets, evictJobs, filterMap_map, ← filterMap_eq_map]
  rfl

/-- The victims of a deduplication. -/
lemma targets_mergeJobs (merges : List (Cand S × Cand S)) :
    (.deleting (mergeJobs merges) : Progress S).targets = merges.map fun m => m.2.offset := by
  induction merges with
  | nil => rfl
  | cons m merges ih =>
    simp only [Progress.targets, mergeJobs, flatMap_cons, filterMap_append] at ih ⊢
    rw [ih]
    rfl

/-- A scan starts afresh. -/
lemma Pinned.begin (h : s.Pinned)
    (hstage : ∀ o ∈ stage.targets, o ∈ s.engine.drain.metadata.records) :
    (s.begin stage).Pinned where
  fresh := drain_fresh h.fresh
  next := le_rfl
  scan := drain_fresh h.fresh
  version _ _ r hr := ⟨r, hr, rfl⟩
  targets := hstage
  removed _ hp := absurd hp not_mem_nil
  written _ hp := absurd hp not_mem_nil

end

/-- **Every step keeps the invariant.** -/
lemma Pinned.step (h : s.Pinned) (hstep : Step E T s s') : s'.Pinned := by
  cases hstep with
  | request io r hcall =>
    have hages := ages_call hcall
    have hpinned := h.age (hages.mono h.next) h.targets
    refine { hpinned with written := fun p hp => ?_ }
    rcases mem_append.mp hp with hp | hp
    · exact h.written p hp
    · -- Below the next offset there is nothing new.
      obtain ⟨hnew, hnot⟩ := Records.mem_lost.mp hp
      by_contra hlt
      obtain ⟨r, hr, -⟩ := hages.version p.1 ((not_le.mp hlt).trans_le h.next) p.2 hnew
      exact hnot (Grouping.mem_of_getElem? hr)
  | otherDrain => exact h.age (ages_drain _ _) h.targets
  | otherDelete io id offset hperform =>
    exact h.age (ages_deleteByIdAt _ hperform).1 h.targets
  | evictScan w hidle =>
    refine h.begin fun o ho => ?_
    rw [targets_evictJobs] at ho
    obtain ⟨v, hv, rfl⟩ := mem_map.mp ho
    exact live_of_mem_victimsOf hv
  | @spare jobs keep hjobs =>
    refine h.age (.refl _ _) fun o ho => h.targets o ?_
    rw [hjobs]
    exact (filter_sublist.filterMap _).subset ho
  | dedupScan w hidle =>
    refine h.begin fun o ho => ?_
    obtain ⟨c, hc, rfl⟩ := mem_map.mp ho
    obtain ⟨record, hrecord, -⟩ := mem_cands_iff.mp hc
    exact Grouping.mem_of_getElem? hrecord
  | @decide d vectors cands m hcands hpass =>
    refine h.age (.refl _ _) fun o ho => h.targets o ?_
    rw [targets_mergeJobs] at ho
    obtain ⟨p, hp, rfl⟩ := mem_map.mp ho
    rw [hcands]
    exact mem_map_of_mem (DedupRun.victims_mergePass cands (fun _ hc => hc)
      (fun m hm => absurd hm not_mem_nil) hpass p hp)
  | @inherit L survivorId concepts jobs hjobs =>
    have hmeta := (inheritConcepts_eq E L s.engine survivorId concepts).1
    refine h.age (ages_of_column _ (by rw [hmeta]) (by rw [hmeta])) fun o ho =>
      h.targets o ?_
    rw [hjobs]
    exact ho
  | @delete io offset id jobs reply e hjobs hperform =>
    obtain ⟨hages, honly⟩ := ages_deleteByIdAt s.next hperform
    have htarget : offset ∈ s.stage.targets := by
      rw [hjobs]
      exact mem_cons_self
    have hrest : ∀ o ∈ (.deleting jobs : Progress S).targets, o ∈ s.scan := fun o ho =>
      h.targets o (by rw [hjobs]; exact mem_cons_of_mem _ ho)
    have hpinned := h.age hages hrest
    refine { hpinned with removed := fun p hp => ?_ }
    rcases mem_append.mp hp with hp | hp
    · exact h.removed p hp
    · -- What is gone was at the offset of the victim, which the scan saw.
      obtain ⟨hlive, hgone⟩ := Records.mem_lost.mp hp
      obtain rfl := honly p.1 (Grouping.mem_of_getElem? hlive) hgone
      exact h.version p.1 (h.scan _ (h.targets _ htarget)) p.2 hlive
  | stop => exact h.age (.refl _ _) fun o ho => absurd ho not_mem_nil

/-- **Every run keeps the invariant.** -/
lemma Pinned.run (h : s.Pinned) (hrun : Relation.ReflTransGen (Step E T) s s') : s'.Pinned := by
  induction hrun with
  | refl => exact h
  | tail _ hstep ih => exact ih.step hstep

omit [LinearOrder S] in
/-- No pass has begun. -/
lemma pinned_start {e : Engine} (hfresh : e.Fresh) : ({ engine := e } : Race S).Pinned where
  fresh := hfresh
  next := Nat.zero_le _
  scan o ho := by simp at ho
  version o ho := absurd ho (Nat.not_lt_zero o)
  targets _ ho := absurd ho not_mem_nil
  removed _ hp := absurd hp not_mem_nil
  written _ hp := absurd hp not_mem_nil

end Race

/-- **Maintenance never deletes a newer version.** However evictions, deduplications and callers are
interleaved, every record that a pass removed is a version its scan saw, and none written since.
**Proof sketch.** Callers write at new offsets (`Engine.ages_call`), so an offset that the scan saw
gets no other version, and deletions are pinned to those (`Race.Pinned.step`). -/
theorem maintenance_spares_newer_versions {S T : Type} [LinearOrder S] [LinearOrder T] {E : Env}
    {e : Engine} {s : Race S} (hfresh : e.Fresh)
    (hrun : Relation.ReflTransGen (Race.Step E T) { engine := e } s) :
    (∀ p ∈ s.removed, ∃ r, s.scan[p.1]? = some r ∧ p.2.version = r.version) ∧
    ∀ p ∈ s.removed, ∀ q ∈ s.written, p.1 ≠ q.1 := by
  have hpinned := (Race.pinned_start hfresh).run hrun
  refine ⟨hpinned.removed, fun p hp q hq heq => ?_⟩
  obtain ⟨r, hr, -⟩ := hpinned.removed p hp
  have hlt := hpinned.scan p.1 (Grouping.mem_of_getElem? hr)
  have hle := hpinned.written q hq
  rw [← heq] at hle
  exact absurd hlt (Nat.not_lt.mpr hle)

/-- Between the scan of an eviction and its deletions the first of its two victims is updated. -/
def sampleRace (e : Engine) : Race ℕ :=
  let scanned := e.drain
  let updated := (scanned.call sampleEnv .ok (.update 7 (sampleInput "a" "new" none))).2
  let first := (updated.perform sampleEnv .ok (updated.deleteByIdAt "a" 0)).2
  let second := (first.perform sampleEnv .ok (first.deleteByIdAt "b" 1)).2
  { engine := second
    stage := .deleting []
    scan := scanned.metadata.records
    next := scanned.metadata.nextOffset
    written := [] ++ updated.metadata.records.lost scanned.metadata.records
    removed := [] ++ updated.metadata.records.lost first.metadata.records ++
      first.metadata.records.lost second.metadata.records }

/-- The steps of the sample. -/
lemma run_sampleRace {e : Engine} (hvictims : (sampleSweep 0).victims e.drain.metadata.recordCount
    (sampleEnv.iterate e.drain.metadata.records) = [(0, "a"), (1, "b")]) :
    Relation.ReflTransGen (Race.Step sampleEnv ℕ) { engine := e } (sampleRace e) := by
  have hstage : .deleting (evictJobs ((sampleSweep 0).victims e.drain.metadata.recordCount
      (sampleEnv.iterate e.drain.metadata.records)))
        = (.deleting [.delete 0 "a", .delete 1 "b"] : Progress ℕ) := by
    rw [hvictims]
    rfl
  exact .tail (.tail (.tail (.tail .refl (.evictScan (sampleSweep 0) rfl))
    (.request .ok (.update 7 (sampleInput "a" "new" none)) rfl)) (.delete .ok hstage rfl))
    (.delete .ok rfl rfl)

set_option maxRecDepth 10000

/-- The eviction removes the second record, and not the new version of the first. -/
theorem maintenance_spares_updated : ∃ (e₀ e : Engine) (s : Race ℕ),
    Engine.open sampleEnv sampleConfig {} = .ok e₀ ∧
    e = (sampleRun [.insert 5 (sampleInput "a" "" none), .insert 6 (sampleInput "b" "" none)]
      e₀).engine ∧
    Relation.ReflTransGen (Race.Step sampleEnv ℕ) { engine := e } s ∧
    s.removed.map Prod.fst = [1] ∧ s.written.map Prod.fst = [2] ∧
    (∀ p ∈ s.removed, ∃ r, s.scan[p.1]? = some r ∧ p.2.version = r.version) ∧
    ∀ p ∈ s.removed, ∀ q ∈ s.written, p.1 ≠ q.1 := by
  obtain ⟨e₀, hfirst, hfresh, hvictims, hremoved, hwritten⟩ := exists_opened (P := fun e₀ =>
    let e := (sampleRun [.insert 5 (sampleInput "a" "" none), .insert 6 (sampleInput "b" "" none)]
      e₀).engine
    (∀ o ∈ e.metadata.records.keys, o < e.metadata.nextOffset) ∧
      (sampleSweep 0).victims e.drain.metadata.recordCount
        (sampleEnv.iterate e.drain.metadata.records) = [(0, "a"), (1, "b")] ∧
      (sampleRace e).removed.map Prod.fst = [1] ∧ (sampleRace e).written.map Prod.fst = [2])
    (by decide +kernel)
  simp only [Std.ExtTreeMap.mem_keys] at hfresh
  have hrun := run_sampleRace hvictims
  exact ⟨e₀, _, _, hfirst, rfl, hrun, hremoved, hwritten,
    maintenance_spares_newer_versions hfresh hrun⟩

end TurboMemory
