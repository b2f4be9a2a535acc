import TurboMemory.Engine.Durable

/-!
# Recovery

What opening a store gives, in terms of the log its files hold: the replay loop turns the
records of the snapshot into the records of the whole log, and the steps that follow make them the
new snapshot.

## Main results

* `Opened.replay` — the replay loop, with the invariant `ReplayInv`.
* `Opened.recover` — the steps after it.
* `DiskHolds.interrupted` — what a killed open leaves.
-/

set_option autoImplicit false

namespace TurboMemory

open Framing CriticalSections List MetadataStore Engine Option Entry Disk

variable {E : Env} {e e' : Engine} {flushed pending : List Entry} {stale : List WalOp}

/-! ## Opening the files -/

/-- The files just opened. -/
structure Opened (E : Env) (e : Engine) (flushed pending : List Entry) (stale : List WalOp)
    (tail : List UInt8) : Prop where
  logged : Logged e.metadata.db flushed pending stale
  loaded : e.metadata = MetadataStore.open e.metadata.db
  wal : e.wal.Holds E.codec (walOps stale pending) tail
  dim_pos : 0 < e.config.dimension
  dim : e.vectors.dim = e.config.dimension
  mapped : e.vectors.mapped = true
  slots : e.vectors.slots = e.vectors.file.room e.config.dimension
  vectors : VectorsReady e.config.dimension e.vectors.file flushed pending
  counted : ∀ x ∈ flushed, ∀ p, x.adds = some p → p.1 < e.vectors.count

/-! ## The replay loop -/

/-- The invariant of the replay loop: `done` has been replayed. -/
structure ReplayInv (e : Engine) (flushed done : List Entry) (s : Replay) : Prop where
  vectors : s.vectors = { e.vectors with count := s.vectors.count }
  count_le : e.vectors.count ≤ s.vectors.count
  counted : ∀ x ∈ done, ∀ p, x.adds = some p → p.1 < s.vectors.count
  db : s.metadata.db = e.metadata.db
  nextOffset : s.metadata.nextOffset = e.metadata.nextOffset
  nextSeq : s.metadata.nextSeq = e.metadata.nextSeq
  cached : Cached s.metadata flushed done
  last_le : e.lastApplied ≤ s.maxSeq
  seq_le : ∀ x ∈ done, ∀ p, x.adds = some p → p.2.insertSeq ≤ s.maxSeq
  offset_le : ∀ x ∈ done, ∀ p, x.adds = some p → p.1 ≤ s.maxOffset
  replayed : done ≠ [] → s.replayed = true

variable {m : MetadataStore} {s : Replay}

/-- Removing a record that is not there leaves the cache with the same records. -/
lemma Cached.remove_absent (h : Cached m flushed pending) {o : PointOffset}
    (ho : (placed (flushed ++ pending))[o]? = none) : Cached (m.remove o) flushed pending := by
  refine ⟨h.clean.remove o, ?_, ?_⟩
  · intro o'
    rw [getElem?_records_remove]
    split
    · next heq => rw [← heq, ho]; rfl
    · exact h.records o'
  · intro _
    exact fun hnil => ne_nil_of_mem mem_insert_self hnil

/-- Replaying a stale operation changes no record. -/
lemma ReplayInv.replay_stale (h : ReplayInv e flushed [] s) {op : WalOp}
    (hop : Stale e.lastApplied flushed op) :
    ReplayInv e flushed [] (replayOp e.lastApplied s op) := by
  cases op with
  | insert offset seq record crc | replace oldOffset offset seq record crc =>
    rw [replayOp, if_neg (not_lt.mpr hop)]
    exact h
  | delete offset =>
    exact { h with
      cached := h.cached.remove_absent (by rw [append_nil]; exact hop.1)
      replayed := fun _ => rfl }
  | flush offset => exact h

variable {x : Entry} {tail : List UInt8} {done : List Entry} {vs : VectorStore}

/-- The cache after one more entry. -/
lemma Cached.concat {m m' : MetadataStore} (h : Cached m flushed pending)
    (hclean : m'.Clean) (hdirty : m'.dirty ≠ []) (hrecords : ∀ o, m'.records[o]? =
      if x.adds.map Prod.fst = some o then x.adds.map fun p => MetaRecord.ofRecord p.2
      else if x.removes = some o then none else m.records[o]?) :
    Cached m' flushed (pending ++ [x]) := by
  refine ⟨hclean, ?_, fun _ => hdirty⟩
  intro o
  rw [hrecords, ← append_assoc, placed_concat, getElem?_place]
  split
  · simp [Option.map_map, Function.comp_def]
  · split
    · rfl
    · exact h.records o

/-- A vector of the log is recovered. -/
lemma Opened.recover_some (h : Opened E e flushed pending stale tail)
    (hx : x ∈ pending) {p : PointOffset × Record} (hp : x.adds = some p)
    (hvs : vs = { e.vectors with count := vs.count }) :
    vs.recover p.1 (some (vectorCrc p.2.embedding))
      = some (p.2.embedding, { e.vectors with count := max vs.count (p.1 + 1) }) := by
  obtain ⟨hslot, hroom⟩ := h.vectors.stored x (by simp [hx]) p hp
  have hslots : ¬ e.vectors.slots ≤ p.1 := by
    rw [h.slots]
    exact not_le.mpr hroom
  rw [hvs]
  simp [VectorStore.recover, VectorStore.accepts, hslots, h.mapped, hslot]

/-- One more entry: the counters cover what it adds. -/
lemma ReplayInv.concat {s' : Replay} (h : ReplayInv e flushed done s)
    (hvectors : s'.vectors = { e.vectors with count := s'.vectors.count })
    (hle : s.vectors.count ≤ s'.vectors.count ∧ s.maxSeq ≤ s'.maxSeq ∧ s.maxOffset ≤ s'.maxOffset)
    (hadds : ∀ p, x.adds = some p →
      p.1 < s'.vectors.count ∧ p.2.insertSeq ≤ s'.maxSeq ∧ p.1 ≤ s'.maxOffset)
    (hcounters : s'.metadata.db = s.metadata.db ∧ s'.metadata.nextOffset = s.metadata.nextOffset ∧
      s'.metadata.nextSeq = s.metadata.nextSeq)
    (hcached : Cached s'.metadata flushed (done ++ [x])) (hreplayed : s'.replayed = true) :
    ReplayInv e flushed (done ++ [x]) s' := by
  have hall : ∀ y ∈ done ++ [x], ∀ p, y.adds = some p →
      p.1 < s'.vectors.count ∧ p.2.insertSeq ≤ s'.maxSeq ∧ p.1 ≤ s'.maxOffset := by
    intro y hy p hp
    rcases mem_append.mp hy with hy | hy
    · exact ⟨(h.counted y hy p hp).trans_le hle.1, (h.seq_le y hy p hp).trans hle.2.1,
        (h.offset_le y hy p hp).trans hle.2.2⟩
    · obtain rfl := mem_singleton.mp hy
      exact hadds p hp
  exact ⟨hvectors, h.count_le.trans hle.1, fun y hy p hp => (hall y hy p hp).1,
    hcounters.1.trans h.db, hcounters.2.1.trans h.nextOffset, hcounters.2.2.trans h.nextSeq,
    hcached, h.last_le.trans hle.2.1, fun y hy p hp => (hall y hy p hp).2.1,
    fun y hy p hp => (hall y hy p hp).2.2, fun _ => hreplayed⟩

/-- Replaying a pending entry applies it. -/
lemma ReplayInv.replay_pending (hopen : Opened E e flushed pending stale tail) (hx : x ∈ pending)
    (h : ReplayInv e flushed done s) :
    ReplayInv e flushed (done ++ [x]) (replayOp e.lastApplied s x.toOp) := by
  have hdirty : ∀ (o : PointOffset) (l : List PointOffset), l.insert o ≠ [] :=
    fun o l hnil => ne_nil_of_mem mem_insert_self hnil
  have hlast : ∀ p, x.adds = some p → e.lastApplied < p.2.insertSeq :=
    hopen.logged.last_lt_seq x hx
  cases x with
  | insert offset record | replace oldOffset offset record =>
    have hrec := hopen.recover_some hx rfl h.vectors
    simp only [toOp, replayOp, if_pos (hlast _ rfl), hrec]
    refine h.concat rfl ⟨le_max_left _ _, le_max_left _ _, le_max_left _ _⟩ ?_
      ⟨rfl, rfl, rfl⟩ ?_ rfl
    · rintro p ⟨⟩
      exact ⟨lt_max_of_lt_right (Nat.lt_succ_self _), le_max_right _ _, le_max_right _ _⟩
    · refine h.cached.concat (.put ?_ _ _) (hdirty _ _) fun o => ?_
      · simp [h.cached.clean, h.cached.clean.remove]
      · simp [Replay.seen, put, getElem?_records_putMeta, getElem?_records_remove, adds, removes]
  | delete offset id =>
    refine h.concat h.vectors ⟨le_rfl, le_rfl, le_rfl⟩ (by rintro p ⟨⟩) ⟨rfl, rfl, rfl⟩ ?_ rfl
    refine h.cached.concat (h.cached.clean.remove _) (hdirty _ _) ?_
    intro o
    simp [toOp, replayOp, getElem?_records_remove, adds, removes]

/-- **The replay loop** turns the snapshot's records into the records of the whole log. -/
lemma Opened.replay (h : Opened E e flushed pending stale tail) :
    ReplayInv e flushed pending (e.replay E) := by
  have hinit : ReplayInv e flushed [] ⟨e.metadata, e.vectors, e.lastApplied, 0, false⟩ := by
    refine ⟨rfl, le_rfl, by simp, rfl, rfl, rfl, ⟨?_, ?_, by simp⟩, le_rfl, by simp,
      by simp, by simp⟩
    · rw [h.loaded]
      exact clean_open _
    · intro o
      rw [h.loaded, append_nil]
      exact h.logged.snapshot.records o
  have hstale := Loop.foldl_induction stale hinit fun op hop _ hs =>
    hs.replay_stale (h.logged.stale_of_mem op hop)
  have hpending : ∀ todo done, done ++ todo = pending → ∀ s, ReplayInv e flushed done s →
      ReplayInv e flushed pending ((todo.map toOp).foldl (replayOp e.lastApplied) s) := by
    intro todo
    induction todo with
    | nil =>
      intro done hdone s hs
      rw [append_nil] at hdone
      exact hdone ▸ hs
    | cons x todo ih =>
      intro done hdone s hs
      exact ih (done ++ [x]) (by simpa using hdone) _
        (ReplayInv.replay_pending h (by rw [← hdone]; simp) hs)
  rw [Engine.replay, h.wal.readAll]
  simp only [walOps, foldl_append]
  exact hpending pending [] rfl _ hstale

/-! ## Persisting what was recovered -/

variable {d d' : Disk}

/-- The images of a sequence of writes are those of its first part, and those of its second part
after the first. -/
lemma Disk.Images.append {ws ws' : List Write} (h : d.Images (ws ++ ws') d') :
    d.Images ws d' ∨ (ws.foldl write d).Images ws' d' := by
  induction ws generalizing d with
  | nil => exact .inr h
  | cons w ws ih =>
    cases h with
    | here htorn => exact .inl (.here htorn)
    | later hrest => exact (ih hrest).imp .later id

/-- What was pending is in the snapshot. -/
lemma Cached.flush (h : Cached m flushed pending) (last : ℕ) :
    Cached (m.flush last) (flushed ++ pending) [] := by
  refine ⟨h.clean.flush last, ?_, fun hne => absurd rfl hne⟩
  intro o
  rw [(m.flush_cache last).1, append_nil]
  exact h.records o

/-- **Making the state the new snapshot**: the log file is empty, and wherever a kill falls the
files hold the log. -/
lemma Durable.persist (h : Durable E e flushed pending stale)
    (hcached : Cached e.metadata flushed pending) {last : ℕ} (hle : e.metadata.db.last ≤ last)
    (hlt : last < e.metadata.nextSeq)
    (hseq : ∀ x ∈ flushed ++ pending, ∀ p, x.adds = some p → p.2.insertSeq ≤ last) :
    ∃ e', runAll (exec E Io.ok) (persistPlan last) e = (.ok (), e') ∧
    Durable E e' (flushed ++ pending) [] [] ∧ Cached e'.metadata (flushed ++ pending) [] ∧
    e' = { e with metadata := e'.metadata, vectors := e'.vectors, wal := e'.wal } ∧
    e'.vectors.count = e.vectors.count ∧ ∀ d, e.disk.Images (planWrites E (persistPlan last) e) d →
      DiskHolds E e.config.dimension d (flushed ++ pending) := by
  obtain ⟨e₁, hexec, hdurable, hstamped, heq, hcount, hdisk⟩ := h.flushVectors_ok
  have hmeta : e₁.metadata = e.metadata := by rw [heq]
  have hconfig : e₁.config = e.config := by rw [heq]
  have hcached₁ : Cached e₁.metadata flushed pending := hmeta ▸ hcached
  have hflushed := hdurable.flushMetadata_ok hstamped hcached₁ (hmeta ▸ hle) (hmeta ▸ hlt) hseq
  refine ⟨{ e₁ with metadata := e₁.metadata.flush last, wal := e₁.wal.clear }, ?_,
    hflushed.clearWal, hcached₁.flush last, by rw [heq], hcount, ?_⟩
  · simp only [persistPlan, runAll, hexec]
    rfl
  · intro d himage
    rw [persistPlan, planWrites, hexec] at himage
    rcases himage.append with himage | himage
    · exact (h.flushVectors_image himage).holds
    rw [← hconfig]
    rw [← hdisk, planWrites] at himage
    rcases himage.append with himage | himage
    · exact hdurable.flushMetadata_image hstamped hcached₁ (hmeta ▸ hle) (hmeta ▸ hlt) hseq himage
    have hclear := hflushed.clearWal_image himage
    rwa [append_nil] at hclear

/-- A kill after the last write. -/
lemma Disk.Images.all (d : Disk) (ws : List Write) : d.Images ws (ws.foldl write d) := by
  induction ws generalizing d with
  | nil => exact .nil d
  | cons w ws ih => exact .later (ih _)

variable {ops : List WalOp} {C : WalCodec}

/-- **Cutting the bad tail off the log**, if there is one. -/
lemma Engine.cutPlan_run {r : Engine} (hwal : r.wal.Holds E.codec ops tail) :
    ∃ wal, wal.Holds E.codec ops [] ∧ (∀ rest, runAll (exec E Io.ok) (r.cutPlan E ++ rest) r
      = runAll (exec E Io.ok) rest { r with wal := wal }) ∧
    ∀ rest d, r.disk.Images (planWrites E (r.cutPlan E ++ rest) r) d →
      d = r.disk ∨ ({ r with wal := wal } : Engine).disk.Images
        (planWrites E rest { r with wal := wal }) d := by
  have hlen : r.wal.file.bytes.length = framesEnd E.codec ops + tail.length := by
    rw [hwal.bytes]
    simp [framesEnd, length_headerBytes]
    omega
  rw [cutPlan, hwal.readAll]
  by_cases htail : tail = []
  · subst htail
    refine ⟨r.wal, hwal, ?_, ?_⟩
    · intro rest
      simp [hlen]
    · intro rest d himage
      exact .inr (by simpa [hlen] using himage)
  · have hpos : 0 < r.wal.file.bytes.length - framesEnd E.codec ops := by
      have := length_pos_iff.mpr htail
      omega
    simp only [hpos, if_true]
    refine ⟨r.wal.truncateTo (framesEnd E.codec ops), hwal.truncate, fun rest => rfl, ?_⟩
    intro rest d himage
    have hdisk : r.disk.write (.walSetLen (max (framesEnd E.codec ops) walHeaderSize))
        = ({ r with wal := r.wal.truncateTo (framesEnd E.codec ops) } : Engine).disk := by
      have hle : max (framesEnd E.codec ops) walHeaderSize ≤ r.wal.file.bytes.length := by
        simp only [framesEnd] at hlen hpos ⊢
        omega
      simp [write, disk, Wal.truncateTo, File.setLen, File.seek, Nat.sub_eq_zero_of_le hle]
    rw [cons_append, nil_append, planWrites] at himage
    rcases himage.append with himage | himage
    · rcases images_single himage with rfl | rfl
      · exact .inl rfl
      · right
        rw [hdisk]
        exact .self _ _
    · right
      rw [← hdisk]
      exact himage

/-! ## After the replay loop -/

/-- The counters move on. -/
lemma Cached.advance (h : Cached m flushed pending) (offset : PointOffset)
    (seq : ℕ) : Cached ((m.advanceOffsetPast offset).advanceSeqPast seq) flushed pending :=
  { h with clean := { h.clean with } }

section Opened

variable {tail : List UInt8} (h : Opened E e flushed pending stale tail)

include h

/-- The counters of a store just opened are beyond its snapshot. -/
lemma Opened.counters : (∀ x ∈ flushed, ∀ p, x.adds = some p → p.1 < e.metadata.nextOffset ∧
      p.2.insertSeq ≤ e.lastApplied) ∧ e.lastApplied < e.metadata.nextSeq := by
  rw [h.loaded, lastApplied, h.loaded]
  show (∀ x ∈ flushed, ∀ p, x.adds = some p → p.1 < (MetadataStore.open e.metadata.db).nextOffset ∧
      p.2.insertSeq ≤ e.metadata.db.lastAppliedSeq.getD 0) ∧
    e.metadata.db.lastAppliedSeq.getD 0 < (MetadataStore.open e.metadata.db).nextSeq
  cases hlast : e.metadata.db.lastAppliedSeq with
  | none =>
    obtain ⟨hdb, rfl⟩ := h.logged.snapshot.fresh hlast
    rw [hdb]
    exact ⟨by simp, by decide⟩
  | some last =>
    obtain ⟨offset, seq, hoffset, hseq, hlt, hall⟩ := h.logged.snapshot.counters last hlast
    simp only [MetadataStore.open, hoffset, hseq, getD_some]
    exact ⟨hall, hlt⟩

/-- Something is pending only if the recovered state is persisted. -/
lemma Opened.mustPersist (hne : pending ≠ []) : e.mustPersist E = true := by
  rw [Engine.mustPersist, h.replay.replayed hne, Bool.true_or]

/-- The metadata cache after the replay loop. -/
lemma Opened.metadata_replayedEngine : Cached (e.replayedEngine E).metadata flushed pending ∧
    (e.replayedEngine E).metadata.db = e.metadata.db ∧
    (∀ x ∈ flushed ++ pending, ∀ p, x.adds = some p →
      p.1 < (e.replayedEngine E).metadata.nextOffset ∧
      p.2.insertSeq < (e.replayedEngine E).metadata.nextSeq) ∧
    e.lastApplied < (e.replayedEngine E).metadata.nextSeq ∧
    (e.mustPersist E = true → (e.replay E).maxSeq < (e.replayedEngine E).metadata.nextSeq) := by
  have hinv := h.replay
  obtain ⟨hflushed, hlast⟩ := h.counters
  have hmust := h.mustPersist
  simp only [replayedEngine]
  generalize e.replay E = s at hinv ⊢
  split
  · next hpersist =>
    refine ⟨hinv.cached.advance _ _, hinv.db, ?_, ?_, ?_⟩
    · intro x hx p hp
      simp only [advanceSeqPast, advanceOffsetPast, hinv.nextOffset, hinv.nextSeq]
      rcases mem_append.mp hx with hx | hx
      · have := hflushed x hx p hp
        exact ⟨lt_of_lt_of_le this.1 (le_max_left _ _), by omega⟩
      · have hseq := hinv.seq_le x hx p hp
        have hoffset := hinv.offset_le x hx p hp
        exact ⟨lt_of_lt_of_le (Nat.lt_succ_of_le hoffset) (le_max_right _ _), by omega⟩
    · simp only [advanceSeqPast, advanceOffsetPast, hinv.nextSeq]
      omega
    · intro _
      simp only [advanceSeqPast, advanceOffsetPast]
      omega
  · next hpersist =>
    obtain rfl : pending = [] := by
      by_contra hne
      exact hpersist (hmust hne)
    refine ⟨hinv.cached, hinv.db, ?_, by rw [hinv.nextSeq]; exact hlast,
      fun hmust => absurd hmust hpersist⟩
    intro x hx p hp
    have := hflushed x (by simpa using hx) p hp
    rw [hinv.nextOffset, hinv.nextSeq]
    exact ⟨this.1, lt_of_le_of_lt this.2 hlast⟩

/-- The store after the replay loop, once its log has no bad tail. -/
lemma Opened.durable {wal : Wal} (hwal : wal.Holds E.codec (walOps stale pending) []) :
    Durable E { e.replayedEngine E with wal := wal } flushed pending stale := by
  have hinv := h.replay
  obtain ⟨-, hdb, hcounters, hlast, -⟩ := h.metadata_replayedEngine
  have hr : { e.replayedEngine E with wal := wal } = { e with
      metadata := (e.replayedEngine E).metadata
      vectors := { e.vectors with count := (e.replay E).vectors.count }
      wal := wal } := by
    rw [← hinv.vectors]
    rfl
  rw [hr]
  refine { h with
    logged := by rw [hdb]; exact h.logged
    wal := hwal
    counted := fun x hx p hp => ?_
    nextOffset := fun x hx p hp => (hcounters x hx p hp).1
    nextSeq := fun x hx p hp => (hcounters x hx p hp).2
    last_lt := by rw [hdb]; exact hlast }
  rcases mem_append.mp hx with hx | hx
  · exact lt_of_lt_of_le (h.counted x hx p hp) hinv.count_le
  · exact hinv.counted x hx p hp

/-- The files just opened hold the log. -/
lemma Opened.disk : DiskInv E e.config.dimension e.disk flushed pending stale where
  logged := h.logged
  wal := h.wal.image
  vectors := .ready _ h.vectors

/-- **What recovery leaves**: the records of the log in memory, and files that hold the log
wherever a kill falls. -/
lemma Opened.recover : ∃ recovered, runAll (exec E Io.ok) (e.recoverPlan E) (e.replayedEngine E)
      = (.ok (), recovered) ∧
    (∃ flushed' pending' stale', flushed' ++ pending' = flushed ++ pending ∧
      Durable E recovered flushed' pending' stale' ∧ Cached recovered.metadata flushed' pending') ∧
    recovered = { e with
      metadata := recovered.metadata, vectors := recovered.vectors, wal := recovered.wal } ∧
    recovered.vectors.count = (e.replay E).vectors.count ∧
    ∀ d, e.disk.Images (planWrites E (e.recoverPlan E) (e.replayedEngine E)) d →
      DiskHolds E e.config.dimension d (flushed ++ pending) := by
  have hinv := h.replay
  have hmust := h.mustPersist
  obtain ⟨hcached, hdb, -, -, hlt⟩ := h.metadata_replayedEngine
  have hseq : ∀ x ∈ flushed ++ pending, ∀ p, x.adds = some p →
      p.2.insertSeq ≤ (e.replay E).maxSeq := by
    intro x hx p hp
    rcases mem_append.mp hx with hx | hx
    · exact (h.counters.1 x hx p hp).2.trans hinv.last_le
    · exact hinv.seq_le x hx p hp
  have hdisk : (e.replayedEngine E).disk = e.disk := by
    have hfile : (e.replay E).vectors.file = e.vectors.file := by rw [hinv.vectors]
    have heq : (e.replayedEngine E).disk = { e.disk with
        redb := (e.replayedEngine E).metadata.db, vectors := some (e.replay E).vectors.file } := rfl
    rw [heq, hdb, hfile]
    rfl
  have heq : e.replayedEngine E = { e with
    metadata := (e.replayedEngine E).metadata, vectors := (e.replayedEngine E).vectors } := rfl
  have hcount : (e.replayedEngine E).vectors.count = (e.replay E).vectors.count := rfl
  have hplan : e.recoverPlan E = (e.replayedEngine E).cutPlan E ++
    if e.mustPersist E then persistPlan (e.replay E).maxSeq else [] := rfl
  obtain ⟨wal, hwal, hrun, himages⟩ :
      ∃ wal : Wal, wal.Holds E.codec (walOps stale pending) [] ∧ _ ∧ _ :=
    cutPlan_run (r := e.replayedEngine E) h.wal
  have hdurable := h.durable hwal
  have hholds := h.disk.holds
  rw [hplan, hrun]
  generalize e.replayedEngine E = r at *
  by_cases hpersist : e.mustPersist E = true
  · rw [if_pos hpersist] at hplan ⊢
    obtain ⟨e', hexec, hdurable', hcached', heq', hcount', himages'⟩ :=
      hdurable.persist hcached (by rw [hdb]; exact hinv.last_le) (hlt hpersist) hseq
    refine ⟨e', hexec, ⟨_, _, _, by simp, hdurable', hcached'⟩, by rw [heq', heq],
      hcount'.trans hcount, ?_⟩
    intro d himage
    rw [← hdisk] at himage
    rcases himages _ _ himage with rfl | himage
    · rw [hdisk]
      exact hholds
    · have := himages' d himage
      rwa [heq] at this
  · rw [if_neg hpersist] at hplan ⊢
    refine ⟨_, rfl, ⟨flushed, pending, stale, rfl, hdurable, hcached⟩, by rw [heq], hcount, ?_⟩
    intro d himage
    rw [← hdisk] at himage
    rcases himages _ _ himage with rfl | himage
    · rw [hdisk]
      exact hholds
    · rw [images_nil himage]
      have := hdurable.disk.holds
      rwa [heq] at this ⊢

end Opened

/-! ## From files to an open store -/

/-- A configuration that a store can be created with. -/
structure StoreConfig.Valid (config : StoreConfig) : Prop where
  check : config.check = .ok ()
  dim_pos : 0 < config.dimension
  len : (checkedLen (max config.initialCapacity 1024) config.dimension).isSome

/-- A log file that a kill left is opened as the log it holds. -/
lemma WalImage.open {content : Option (List UInt8)} (h : WalImage C ops content) :
    ∃ w tail, Wal.open content = .ok w ∧ w.Holds C ops tail := by
  cases h with
  | absent hnil =>
    subst hnil
    obtain ⟨w, hopen, hholds⟩ := Wal.holds_open_none
    exact ⟨w, [], hopen, hholds⟩
  | short bytes hnil hlen =>
    subst hnil
    obtain ⟨w, hopen, hholds⟩ := Wal.holds_open_none
    exact ⟨w, [], by rw [Wal.open_short hlen, hopen], hholds⟩
  | frames tail hfits hbad =>
    obtain ⟨w, hopen, hholds⟩ := Wal.holds_open hfits hbad
    exact ⟨w, tail, hopen, hholds⟩

/-- The vector file of a new store. -/
def newVectorFile (dim len : ℕ) : VectorFile :=
  ((VectorFile.created dim).write (.setLen len)).write (.stamp ⟨dim, 0⟩)

/-- A new vector file. -/
lemma vectorsReady_new {dim slots len : ℕ} (hpos : 0 < dim)
    (hlen : checkedLen slots dim = some len) :
    VectorsReady dim (newVectorFile dim len) [] [] := by
  refine ⟨(checkedLen_room hpos hlen).1, ⟨0, rfl, by simp⟩, ?_, ?_⟩
  · intro o
    simp [newVectorFile, VectorFile.created, VectorFile.write]
  · intro x hx
    simp at hx

variable {config : StoreConfig} {d : Disk} {log : List Entry}

/-- A vector file that a kill left is opened with everything it stores. -/
lemma VectorsImage.open (hconfig : config.Valid) {db : Redb}
    {file : Option VectorFile} (h : VectorsImage config.dimension db flushed pending file)
    (hopen : VectorStore.open file config.dimension config.initialCapacity = .ok vs) :
    vs.dim = config.dimension ∧ vs.mapped = true ∧ vs.slots = vs.file.room config.dimension ∧
    VectorsReady config.dimension vs.file flushed pending ∧
    ∀ x ∈ flushed, ∀ p, x.adds = some p → p.1 < vs.count := by
  cases h with
  | creating _ hnone hdb hflushed hpending =>
    subst hflushed hpending
    cases file with
    | none =>
      obtain ⟨len, hlen⟩ := isSome_iff_exists.mp hconfig.len
      simp only [VectorStore.open, VectorStore.newWithCapacity, hconfig.dim_pos.ne',
        if_false, hlen, Except.ok.injEq] at hopen
      subst hopen
      exact ⟨rfl, rfl, (checkedLen_room hconfig.dim_pos hlen).2.symm,
        vectorsReady_new hconfig.dim_pos hlen, by simp⟩
    | some f =>
      simp only [VectorStore.open, hnone f rfl] at hopen
      split at hopen <;> cases hopen
  | ready f hready =>
    obtain ⟨count, hheader, hcount⟩ := hready.header
    simp only [VectorStore.open, not_lt.mpr hready.len, if_false, hheader, ne_eq,
      not_true_eq_false, Except.ok.injEq] at hopen
    subst hopen
    refine ⟨rfl, rfl, rfl, hready, ?_⟩
    intro x hx p hp
    exact lt_min (hcount x hx p hp) (hready.stored x (by simp [hx]) p hp).2

section

variable (hconfig : config.Valid) (h : DiskInv E config.dimension d flushed pending stale)
include hconfig h

/-- **The files that a kill left**, once opened. -/
lemma DiskInv.openFiles (hopen : openFiles config d = .ok e) :
    (∃ tail, Opened E e flushed pending stale tail) ∧ e.config = config ∧
    e.metadata.db = d.redb ∧ e.segments = SegmentHolder.new config d.segments ∧
    e.accessCounters = ∅ := by
  obtain ⟨w, tail, hw, hholds⟩ := h.wal.open
  obtain ⟨vs, w, hvs, hw', rfl⟩ := openFiles_eq_ok_iff.mp hopen
  cases hw.symm.trans hw'
  obtain ⟨hdim, hmapped, hslots, hready, hcount⟩ := h.vectors.open hconfig hvs
  exact ⟨⟨tail, h.logged, rfl, hholds, hconfig.dim_pos, hdim, hmapped, hslots, hready, hcount⟩,
    rfl, rfl, rfl, rfl⟩

/-! ## Kills during an open -/

/-- **Creating the vector file**, wherever a kill falls. -/
lemma DiskInv.createVectors
    (himage : d.Images (createVectorsWrites config d.vectors) d') :
    DiskInv E config.dimension d' flushed pending stale := by
  cases hv : d.vectors with
  | some f =>
    rw [hv] at himage
    rwa [images_nil himage]
  | none =>
    obtain ⟨len, hlen⟩ := isSome_iff_exists.mp hconfig.len
    rw [hv] at himage
    simp only [createVectorsWrites, hlen] at himage
    obtain ⟨hdb, rfl, rfl⟩ : d.redb.lastAppliedSeq = none ∧ flushed = [] ∧ pending = [] := by
      have := h.vectors
      rw [hv] at this
      cases this with
      | creating _ hnone hdb hflushed hpending => exact ⟨hdb, hflushed, hpending⟩
    -- The file has no header until the last write, which makes it ready.
    have hcreating : ∀ f, f.header = none →
        DiskInv E config.dimension { d with vectors := some f } [] [] stale := fun f hf =>
      ⟨h.logged, h.wal, .creating _ (by rintro f' ⟨⟩; exact hf) hdb rfl rfl⟩
    have hready : DiskInv E config.dimension
        { d with vectors := some (newVectorFile config.dimension len) } [] [] stale :=
      ⟨h.logged, h.wal, .ready _ (vectorsReady_new hconfig.dim_pos hlen)⟩
    rcases images_cons himage with rfl | himage
    · exact h
    rcases images_cons himage with rfl | himage
    · exact hcreating _ rfl
    rcases images_single himage with rfl | rfl
    · exact hcreating _ rfl
    · exact hready

end

/-- Giving the log its header, wherever a kill falls, keeps what it holds. -/
lemma WalImage.createWal (h : WalImage C ops d.wal) (himage : d.Images (createWalWrites d.wal) d') :
    ∃ content, WalImage C ops content ∧ d' = { d with wal := content } := by
  rcases hd : d.wal with _ | bytes
  · rw [hd] at himage h
    obtain ⟨⟩ | ⟨⟩ | ⟨⟩ := h
    next hnil =>
    subst hnil
    rcases images_cons himage with rfl | himage
    · exact ⟨none, .absent rfl, by rw [← hd]⟩
    · obtain ⟨n, rfl⟩ := images_header rfl rfl himage
      exact ⟨_, walImage_header C n, rfl⟩
  · rw [hd] at himage h
    rw [createWalWrites] at himage
    split at himage
    · next hshort =>
      obtain rfl : ops = [] := by
        cases h with
        | short _ hnil _ => exact hnil
        | frames tail =>
          simp only [length_append, length_headerBytes] at hshort
          omega
      rcases images_cons himage with rfl | himage
      · exact ⟨_, .short _ rfl hshort, by rw [← hd]⟩
      · obtain ⟨n, rfl⟩ := images_header (by simp [write, hd]) rfl himage
        exact ⟨_, walImage_header C n, rfl⟩
    · exact ⟨_, h, by rw [images_nil himage, ← hd]⟩

/-- **Giving the log its header**, wherever a kill falls. -/
lemma DiskInv.createWal {dim : ℕ} (h : DiskInv E dim d flushed pending stale)
    (himage : d.Images (createWalWrites d.wal) d') : DiskInv E dim d' flushed pending stale := by
  obtain ⟨content, hcontent, rfl⟩ := h.wal.createWal himage
  exact ⟨h.logged, hcontent, h.vectors⟩

/-- The log file after its header is written is that of the log just opened. -/
lemma foldl_createWalWrites {w : Wal} (hw : Wal.open d.wal = .ok w) :
    (createWalWrites d.wal).foldl write d = { d with wal := some w.file.bytes } := by
  rcases hd : d.wal with _ | bytes
  · rw [hd] at hw
    have hnil : ([] : List UInt8).length < walHeaderSize := by decide
    simp only [Wal.open, getD_none, if_pos hnil, Except.ok.injEq] at hw
    subst hw
    simp [createWalWrites, write, File.setLen, File.seek, File.writeAll, File.seekEnd]
  · rw [hd] at hw
    by_cases hshort : bytes.length < walHeaderSize
    · simp only [Wal.open, getD_some, if_pos hshort, Except.ok.injEq] at hw
      subst hw
      simp [createWalWrites, hshort, write, hd, File.setLen, File.seek, File.writeAll, File.seekEnd]
    · have hsame : w.file.bytes = bytes := by
        simp only [Wal.open, getD_some, if_neg hshort] at hw
        repeat' split at hw
        all_goals cases hw
        rfl
      simp only [createWalWrites, if_neg hshort, hsame, ← hd, foldl_nil]

/-- The files after the creating writes are those of the store just opened. -/
lemma disk_of_openFiles (hconfig : config.Valid)
    (h : DiskInv E config.dimension d flushed pending stale) (hopen : openFiles config d = .ok e) :
    (createVectorsWrites config d.vectors ++ createWalWrites d.wal).foldl write d = e.disk := by
  obtain ⟨w, tail, hw, hholds⟩ := h.wal.open
  obtain ⟨vs, w, hvs, hw', rfl⟩ := openFiles_eq_ok_iff.mp hopen
  cases hw.symm.trans hw'
  have hfile : (createVectorsWrites config d.vectors).foldl write d
      = { d with vectors := some vs.file } := by
    obtain ⟨len, hlen⟩ := isSome_iff_exists.mp hconfig.len
    cases hv : d.vectors with
    | none =>
      rw [hv] at hvs
      simp only [VectorStore.open, VectorStore.newWithCapacity, hconfig.dim_pos.ne', if_false,
        hlen, Except.ok.injEq] at hvs
      subst hvs
      simp [createVectorsWrites, hlen, write]
    | some f =>
      rw [hv] at hvs
      have hsame : vs.file = f := by
        simp only [VectorStore.open] at hvs
        repeat' split at hvs
        all_goals cases hvs
        rfl
      rw [hsame, createVectorsWrites, foldl_nil, ← hv]
  have hbytes := foldl_createWalWrites (d := { d with vectors := some vs.file }) hw
  rw [foldl_append, hfile]
  exact hbytes

section

variable (hconfig : config.Valid) (h : DiskHolds E config.dimension d log)
include hconfig h

/-- **A killed open** leaves files that hold the log. -/
lemma DiskHolds.openImages
    (himage : d.Images (openWrites E config d) d') : DiskHolds E config.dimension d' log := by
  obtain ⟨flushed, pending, stale, rfl, hinv⟩ := h
  rw [openWrites] at himage
  split at himage
  · next e _ hopen =>
    obtain ⟨⟨tail, hopened⟩, hcfg, -⟩ := hinv.openFiles hconfig hopen
    have hdisk := disk_of_openFiles hconfig hinv hopen
    rcases himage.append with himage | himage
    · rcases himage.append with himage | himage
      · exact (hinv.createVectors hconfig himage).holds
      · have hcreated : DiskInv E config.dimension
            ((createVectorsWrites config d.vectors).foldl write d) flushed pending stale :=
          hinv.createVectors hconfig (.all _ _)
        have hsame : ((createVectorsWrites config d.vectors).foldl write d).wal = d.wal := by
          rw [createVectorsWrites.eq_def]
          repeat' split
          all_goals rfl
        rw [← hsame] at himage
        exact (hcreated.createWal himage).holds
    · obtain ⟨-, -, -, -, -, himages⟩ := hopened.recover
      rw [hdisk] at himage
      rw [← hcfg]
      exact himages d' himage
  · rw [images_nil himage]
    exact hinv.holds

/-- What kills during one open after the other leave holds the log. -/
lemma DiskHolds.interrupted
    (hint : d.Interrupted E config d') : DiskHolds E config.dimension d' log := by
  induction hint with
  | refl => exact h
  | step _ himage ih => exact ih.openImages hconfig himage

end

end TurboMemory
