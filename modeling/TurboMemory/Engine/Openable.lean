import TurboMemory.Engine.CrashRecovery

/-!
# Which stores open

What a kill leaves of a store opens exactly when the vector file has its header and the guard
against missing metadata does not take it for a store whose metadata is gone: metadata was
committed at least once, or the vector file counts no vector, or some frame of the log is
replayed. Bytes of the log that are damaged behind a frame do not matter otherwise.

## Main results

* `Engine.open_isOk_iff` — open fails only at the guard against missing metadata.
* `open_isOk_iff_openable` — which stores open, and with which records.
* `open_fails_after_kill` — two that do not.
-/

set_option autoImplicit false

namespace TurboMemory

open Framing CriticalSections List Engine Disk

/-! ## Replay of any log -/

/-- The operation is replayed. -/
def WalOp.replays (last : ℕ) : WalOp → Bool
  | .insert _ seq _ _ => last < seq
  | .replace _ _ seq _ _ => last < seq
  | .delete _ => true
  | .flush _ => false

/-- During a replay every live record has its vector counted, and of the vector file nothing but
the count changes. -/
structure Within (vs : VectorStore) (s : Replay) : Prop where
  vectors : s.vectors = { vs with count := s.vectors.count }
  live : ∀ (o : PointOffset) (r : MetaRecord), s.metadata.records[o]? = some r → o < s.vectors.count

section Replay

variable {vs : VectorStore} {s : Replay}

section

variable (h : Within vs s)
include h

/-- A removal. -/
lemma Within.remove (offset : PointOffset) :
    Within vs { s with metadata := s.metadata.remove offset } := by
  refine ⟨h.vectors, ?_⟩
  intro o r hr
  rw [MetadataStore.getElem?_records_remove] at hr
  split at hr
  · cases hr
  · exact h.live o r hr

/-- A recovered record. -/
lemma Within.put {offset : PointOffset} {crc : Option UInt32}
    {vector : Embedding} {vs' : VectorStore}
    (hrecover : s.vectors.recover offset crc = some (vector, vs')) (record : Record) :
    Within vs { s with vectors := vs', metadata := s.metadata.put offset record } := by
  -- All that a recovery changes in the store is the count.
  simp only [VectorStore.recover] at hrecover
  split_ifs at hrecover
  cases hrecover
  refine ⟨?_, ?_⟩
  · exact congrArg (fun v => { v with count := max s.vectors.count (offset + 1) })
      h.vectors
  · intro o r hr
    rw [MetadataStore.put, MetadataStore.getElem?_records_putMeta] at hr
    split at hr
    · next heq =>
      subst heq
      exact lt_of_lt_of_le (Nat.lt_succ_self _) (le_max_right _ _)
    · exact lt_of_lt_of_le (h.live o r hr) (le_max_left _ _)

/-- A frame that is passed. -/
lemma Within.seen (offset : PointOffset) (seq : ℕ) : Within vs (s.seen offset seq) :=
  ⟨h.vectors, h.live⟩

/-- One step of the replay. -/
lemma Within.replayOp (last : ℕ) (op : WalOp) : Within vs (replayOp last s op) := by
  cases op with
  | insert offset seq record crc | replace oldOffset offset seq record crc =>
    simp only [TurboMemory.replayOp]
    split
    · apply Within.seen
      split
      · next hrecover =>
        -- A replacement also removes the old record.
        first
        | exact h.put hrecover _
        | exact (h.remove _).put hrecover _
      · exact h
    · exact h
  | delete offset => exact { h.remove offset with }
  | flush n => exact h

end

/-- One operation. -/
lemma replayed_replayOp (last : ℕ) (s : Replay) (op : WalOp) :
    (replayOp last s op).replayed = (s.replayed || op.replays last) := by
  cases op with
  | insert offset seq record crc | replace oldOffset offset seq record crc =>
    simp only [replayOp, WalOp.replays]
    split
    · next hlt => simp [Replay.seen, hlt]
    · next hle => simp [hle]
  | delete offset | flush n => simp [replayOp, WalOp.replays]

/-- The whole replay. -/
lemma Within.foldl (h : Within vs s) (last : ℕ) (ops : List WalOp) :
    Within vs (ops.foldl (TurboMemory.replayOp last) s) :=
  Loop.foldl_induction ops h fun op _ _ hs => hs.replayOp last op

/-- Several operations. -/
lemma replayed_foldl (last : ℕ) (s : Replay) (ops : List WalOp) :
    (ops.foldl (replayOp last) s).replayed = (s.replayed || ops.any (WalOp.replays last)) := by
  induction ops generalizing s with
  | nil => simp
  | cons op ops ih => rw [foldl_cons, ih, replayed_replayOp, any_cons, Bool.or_assoc]

end Replay

/-! ## The rest of an open -/

section Recover

variable {E : Env} {e r : Engine}

/-- The recovery steps after the replay do not fail, and leave records, vectors and segments. -/
structure Kept (r r' : Engine) : Prop where
  config : r'.config = r.config
  records : r'.metadata.records = r.metadata.records
  mapped : r'.vectors.mapped = r.vectors.mapped
  count : r'.vectors.count = r.vectors.count
  slot : r'.vectors.file.slot = r.vectors.file.slot
  segments : r'.segments = r.segments

/-- Saving succeeds over a mapped vector file. -/
lemma persistPlan_run (hmapped : r.vectors.mapped = true) (last : ℕ) :
    ∃ r', runAll (exec E Io.ok) (persistPlan last) r = (.ok (), r') ∧ Kept r r' := by
  have hflush : r.vectors.flush = (.ok (), { r.vectors with file := { r.vectors.file with
      header := r.vectors.file.header.map fun h => { h with count := r.vectors.count } } }) := by
    simp [VectorStore.flush, hmapped]
  refine ⟨{ r with
      vectors := { r.vectors with file := { r.vectors.file with
        header := r.vectors.file.header.map fun h => { h with count := r.vectors.count } } }
      metadata := r.metadata.flush last
      wal := r.wal.clear }, ?_, rfl, (r.metadata.flush_cache last).1, rfl, rfl, rfl, rfl⟩
  simp only [persistPlan, runAll, exec, hflush]

/-- **Recovery does not fail** on a mapped vector file. -/
lemma recoverPlan_run (hmapped : r.vectors.mapped = true) :
    ∃ r', runAll (exec E Io.ok) (e.recoverPlan E) r = (.ok (), r') ∧ Kept r r' := by
  have hpersist : ∀ r, r.vectors.mapped = true → ∃ r', runAll (exec E Io.ok)
        (if e.mustPersist E then persistPlan (e.replay E).maxSeq else []) r = (.ok (), r') ∧
      Kept r r' := by
    intro r hr
    split
    · exact persistPlan_run hr _
    · exact ⟨r, rfl, rfl, rfl, rfl, rfl, rfl, rfl⟩
  rw [recoverPlan, cutPlan]
  split
  · obtain ⟨r', hrun, hkept⟩ := hpersist { r with wal := r.wal.truncateTo _ } hmapped
    exact ⟨r', hrun, { hkept with }⟩
  · exact hpersist r hmapped

/-- Of the two guards only the one against missing metadata can stop a store whose live records
have their vectors. -/
lemma guards_eq_ok_iff {fresh replayed : Bool} {n : ℕ}
    (hlive : ∀ o m, r.metadata.records[o]? = some m → o < r.vectors.count) :
    guards fresh replayed n r = .ok () ↔ ¬ (fresh = true ∧ replayed = false ∧ 0 < n) := by
  rw [guards]
  split
  · next hguard => simp_all
  · next hguard =>
    have hcond : ¬ (fresh = true ∧ replayed = false ∧ 0 < n) := by simpa using hguard
    simp only [hcond, not_false_eq_true, iff_true]
    split
    · rfl
    · next maxLive hmax =>
      have hmem : maxLive ∈ r.metadata.records := Std.ExtTreeMap.mem_keys.mp (max?_mem hmax)
      have hlt := hlive maxLive _ (Std.ExtTreeMap.getElem?_eq_some_getElem hmem)
      rw [if_neg (not_le.mpr hlt)]

/-- The indexes are rebuilt when every vector has the right dimension. -/
lemma exists_rebuild (hshape : ∀ o, (r.vectors.file.slot o).length = r.config.dimension)
    (hhot : r.segments.hot.dim = r.config.dimension) : ∃ r', r.rebuild E = .ok r' := by
  have hdim : ∀ p ∈ r.recordsVec E, p.2.embedding.length = r.config.dimension := by
    intro p hp
    have hget := mem_recordsVec.mp hp
    rw [getRecord, Option.bind_eq_some_iff] at hget
    obtain ⟨m, -, hv⟩ := hget
    obtain ⟨v, hv, hrecord⟩ := Option.map_eq_some_iff.mp hv
    rw [VectorStore.get] at hv
    split at hv
    · cases hv
      rw [← hrecord]
      exact hshape p.1
    · cases hv
  obtain ⟨holder, hholder⟩ : ∃ holder, SegmentHolder.fromRecords r.config r.segments.sealed
      (r.recordsVec E) r.segments = .ok holder := SegmentHolder.fromRecords_ok hhot hdim
  exact ⟨_, by simp only [rebuild, hholder, bind, Except.bind]; rfl⟩

/-- **An open fails only at the guard against missing metadata**, once the files are open and every
record of the snapshot has its vector. -/
lemma Engine.open_isOk_iff {config : StoreConfig} (hcheck : config.check = .ok ()) {d : Disk}
    (hfiles : openFiles config d = .ok e) (hmapped : e.vectors.mapped = true)
    (hshape : ∀ o, (e.vectors.file.slot o).length = config.dimension)
    (hlive : ∀ o m, e.metadata.records[o]? = some m →
      o < e.vectors.count) : (∃ e', Engine.open E config d = .ok e') ↔
      ¬ (e.metadata.isFresh = true ∧
        ((e.wal.readAll E.codec).1.any (WalOp.replays e.lastApplied)) = false ∧
        0 < e.vectors.count) := by
  have hconfig : e.config = config ∧ e.segments = SegmentHolder.new config d.segments := by
    obtain ⟨vs, w, -, -, rfl⟩ := openFiles_eq_ok_iff.mp hfiles
    exact ⟨rfl, rfl⟩
  have hstart : Within e.vectors ⟨e.metadata, e.vectors, e.lastApplied, 0, false⟩ := ⟨rfl, hlive⟩
  have hwithin : Within e.vectors (e.replay E) := hstart.foldl _ _
  have hreplayed := replayed_foldl e.lastApplied
    ⟨e.metadata, e.vectors, e.lastApplied, 0, false⟩ (e.wal.readAll E.codec).1
  rw [Bool.false_or] at hreplayed
  have hrecords : (e.replayedEngine E).metadata.records = (e.replay E).metadata.records := by
    simp only [replayedEngine]
    split <;> rfl
  have hvectors : (e.replayedEngine E).vectors = (e.replay E).vectors := rfl
  have hmapped' : (e.replayedEngine E).vectors.mapped = true := by
    rw [hvectors, hwithin.vectors]
    exact hmapped
  obtain ⟨r, hrun, hkept⟩ := recoverPlan_run hmapped'
  have hguards : guards e.metadata.isFresh (e.replay E).replayed e.vectors.count r = .ok () ↔
      ¬ (e.metadata.isFresh = true ∧ (e.replay E).replayed = false ∧ 0 < e.vectors.count) := by
    refine guards_eq_ok_iff ?_
    intro o m hm
    rw [hkept.records, hrecords] at hm
    rw [hkept.count, hvectors]
    exact hwithin.live o m hm
  have hrebuild : ∃ e', r.rebuild E = .ok e' := by
    refine exists_rebuild ?_ ?_
    · intro o
      rw [hkept.slot, hkept.config, hvectors, hwithin.vectors]
      exact (hshape o).trans (congrArg _ hconfig.1.symm)
    · rw [hkept.segments, hkept.config]
      show e.segments.hot.dim = e.config.dimension
      rw [hconfig.1, hconfig.2]
      rfl
  rw [← hreplayed]
  refine Iff.trans ?_ hguards
  constructor
  · rintro ⟨e', hopen⟩
    obtain ⟨-, opened, recovered, hfiles', hrun', hguard, -⟩ := open_eq_ok_iff.mp hopen
    rw [hfiles] at hfiles'
    cases hfiles'
    rw [hrun] at hrun'
    cases hrun'
    exact hguard
  · intro hguard
    obtain ⟨e', he'⟩ := hrebuild
    exact ⟨e', open_eq_ok_iff.mpr ⟨hcheck, e, r, hfiles, hrun, hguard, he'⟩⟩

end Recover

/-! ## What kills and damage leave -/

/-- The operations that can be read from the log file. -/
def Disk.readLog (E : Env) (d : Disk) : List WalOp :=
  match Wal.open d.wal with
  | .ok w => (w.readAll E.codec).1
  | .error _ => []

/-- The log file has any bytes behind one of its frames, or is as it was; the operations are those
in front. -/
inductive Disk.Damaged (E : Env) (d : Disk) : List WalOp → Disk → Prop
  | intact : Damaged E d (d.readLog E) d
  | behind (n : ℕ) (tail bytes : List UInt8) :
      d.wal = some (headerBytes walVersion ++ (frames E.codec.format (d.readLog E) ++ tail)) →
      Damaged E d ((d.readLog E).take n) { d with wal := some (headerBytes walVersion ++
        (frames E.codec.format ((d.readLog E).take n) ++ bytes)) }

/-- What kills leave of a store created in an empty directory, with the log of all operations whose
frames are whole: kills during its creation, or at any later time. -/
inductive Disk.Killed (T : Type) [DecidableEq T] (E : Env) (config : StoreConfig) :
    Disk → List Entry → Prop
  | creating {d : Disk} : Interrupted E config {} d → Killed T E config d []
  | running {d₀ d : Disk} {e₀ : Engine} {s : State T Store (ConceptVocabulary × Request) Act}
      {k : Image} : Interrupted E config {} d₀ → Engine.open E config d₀ = .ok e₀ →
      Reachable (service E config) (fun _ => True) ⟨e₀, [], []⟩ s →
      Crash (service E config) s k → k.disk.Interrupted E config d → Killed T E config d k.log

/-- The vector file has its header, and metadata was committed, or no vector is counted, or some
operation of the log is replayed. -/
def Disk.Openable (E : Env) (config : StoreConfig) (d : Disk) : Prop :=
  d.vectors = none ∨ ∃ file header, d.vectors = some file ∧ file.header = some header ∧
    (d.redb.lastAppliedSeq ≠ none ∨ min header.count (file.room config.dimension) = 0 ∨
      ∃ op ∈ d.readLog E, op.replays 0 = true)

section Killed

variable {E : Env} {config : StoreConfig} {d d' : Disk} {flushed pending : List Entry}
  {stale : List WalOp}

/-- What kills leave holds the log. -/
lemma Disk.Killed.holds {T : Type} [DecidableEq T] {log : List Entry} (hvalid : config.Valid)
    (h : Killed T E config d log) : DiskHolds E config.dimension d log := by
  cases h with
  | creating hcreated => exact (diskHolds_empty config.dimension).interrupted hvalid hcreated
  | running hcreated hfirst hrun hkill hinterrupted =>
    have hinv := hrun.inv
      (fun r s s' plan _ hs hbegin => safe_begin (fun h => h.elim) hs hbegin)
      (fun s k hs hk => hs.image hk) (fun k s hk hs => hk.reopen hvalid hs)
      (rest_new False hcreated hfirst)
    have hleft := hinv.image (fun s k hs hk => hs.image hk) hkill
    exact hleft.1.interrupted hvalid hinterrupted

variable {dim : ℕ} {intact : List WalOp}

/-- The log file is read as it was written. -/
lemma DiskInv.readLog (h : DiskInv E dim d flushed pending stale) :
    d.readLog E = walOps stale pending := by
  obtain ⟨w, tail, hopen, hholds⟩ := h.wal.open
  rw [Disk.readLog, hopen]
  show (w.readAll E.codec).1 = walOps stale pending
  rw [hholds.readAll]

/-- The log file can be opened, whatever the damage. -/
lemma Disk.Damaged.wal_open
    (h : DiskInv E dim d flushed pending stale) (hdamaged : d.Damaged E intact d') :
    d'.vectors = d.vectors ∧ d'.redb = d.redb ∧ ∃ w, Wal.open d'.wal = .ok w := by
  cases hdamaged with
  | intact =>
    obtain ⟨w, tail, hopen, -⟩ := h.wal.open
    exact ⟨rfl, rfl, w, hopen⟩
  | behind n tail bytes hwal => exact ⟨rfl, rfl, _, Wal.open_header _⟩

/-- Its operations fit their frames. -/
lemma WalImage.fits {C : WalCodec} {ops : List WalOp} {content : Option (List UInt8)}
    (h : WalImage C ops content) : ∀ op ∈ ops, Fits C.format op := by
  cases h with
  | absent hnil | short _ hnil => simp [hnil]
  | frames _ hfits => exact hfits

/-- A first part of what the log file held is left. -/
lemma DiskInv.take (h : DiskInv E dim d flushed pending stale) (m n : ℕ) {wal : Option (List UInt8)}
    (hwal : WalImage E.codec (walOps (stale.take m) (pending.take n)) wal) :
    DiskInv E dim { d with wal := wal } flushed (pending.take n) (stale.take m) := by
  have hsplit : flushed ++ pending = flushed ++ pending.take n ++ pending.drop n := by simp
  have hsub : ∀ x ∈ flushed ++ pending.take n, x ∈ flushed ++ pending := by
    intro x hx
    rw [hsplit]
    exact mem_append_left _ hx
  refine ⟨⟨h.logged.snapshot, ?_, ?_, (hsplit ▸ h.logged.ordered).left,
    (hsplit ▸ h.logged.closed).left⟩, hwal, ?_⟩
  · exact fun op hop => h.logged.stale_of_mem op (mem_of_mem_take hop)
  · exact fun x hx => h.logged.last_lt_seq x (mem_of_mem_take hx)
  · have hvectors := h.vectors
    show VectorsImage dim d.redb flushed (pending.take n) d.vectors
    generalize d.vectors = file at hvectors
    cases hvectors with
    | creating _ hnone hdb hflushed hpending =>
      exact .creating file hnone hdb hflushed (by rw [hpending, take_nil])
    | ready f hready =>
      exact .ready f { hready with stored := fun x hx => hready.stored x (hsub x hx) }

/-- A first part of the log file. -/
lemma take_walOps (m : ℕ) : (walOps stale pending).take m
      = walOps (stale.take m) (pending.take (m - stale.length)) := by
  rw [walOps, walOps, take_append, map_take]

/-- **Damage behind a frame** loses the operations behind it, and nothing else. -/
lemma Disk.Damaged.diskInv
    (h : DiskInv E dim d flushed pending stale) (hdamaged : d.Damaged E intact d')
    (hread : d'.readLog E = intact) :
    DiskInv E dim d' flushed (pending.take (intact.length - stale.length))
      (stale.take intact.length) := by
  cases hdamaged with
  | intact =>
    have hlen : (d.readLog E).length = stale.length + pending.length := by
      rw [h.readLog]
      simp [walOps]
    rw [take_of_length_le (by omega), take_of_length_le (by omega)]
    exact h
  | behind n tail bytes hwal =>
    have hops := h.readLog
    set front := (d.readLog E).take n with hfront
    -- The frames in front of the damage were written completely.
    have hfits : ∀ op ∈ front, Fits E.codec.format op := by
      intro op hop
      rw [hfront, hops] at hop
      exact h.wal.fits op (mem_of_mem_take hop)
    have hbad : readFrame E.codec.format bytes = none := by
      have hopen := Wal.open_header (frames E.codec.format front ++ bytes)
      simp only [readLog, hopen, Wal.readAll_open_header _ hopen] at hread
      refine readFrame_eq_none_of_scan hfits ?_ hread
      have hlen := length_le_length_frames (F := E.codec.format) front
      simp only [length_append]
      omega
    have htake : front = walOps (stale.take front.length)
        (pending.take (front.length - stale.length)) := by
      rw [← take_walOps, ← hops, hfront, length_take, ← take_take, take_length]
    refine h.take _ _ ?_
    rw [← htake]
    exact .frames bytes hfits hbad

variable {db : Redb}

/-- Without a vector file nothing was committed. -/
lemma VectorsImage.fresh
    (h : VectorsImage dim db flushed pending none) : db.lastAppliedSeq = none := by
  cases h with
  | creating _ _ hdb => exact hdb

/-- With a header the vectors are there. -/
lemma VectorsImage.ready_of_header {file : VectorFile}
    {header : VectorHeader} (h : VectorsImage dim db flushed pending (some file))
    (hheader : file.header = some header) : VectorsReady dim file flushed pending := by
  cases h with
  | creating _ hnone =>
    rw [hnone file rfl] at hheader
    cases hheader
  | ready _ hready => exact hready

/-- The store that opening the files gives. -/
lemma exists_openFiles {vs : VectorStore} {w : Wal}
    (hvs : VectorStore.open d.vectors config.dimension config.initialCapacity = .ok vs)
    (hwal : Wal.open d.wal = .ok w) : ∃ e, openFiles config d = .ok e ∧ e.vectors = vs ∧
      e.wal = w ∧ e.metadata = MetadataStore.open d.redb :=
  ⟨_, openFiles_eq_ok_iff.mpr ⟨vs, w, hvs, hwal, rfl⟩, rfl, rfl, rfl⟩

/-- A store without metadata is fresh, any other is not. -/
lemma Snapshot.isFresh_iff (h : Snapshot db flushed) :
    (MetadataStore.open db).isFresh = true ↔ db.lastAppliedSeq = none := by
  constructor
  · intro hfresh
    simp only [MetadataStore.isFresh, decide_eq_true_eq] at hfresh
    exact hfresh.2.1
  · intro hnone
    obtain ⟨rfl, -⟩ := h.fresh hnone
    decide

/-- **Which of the stores that kills and damage leave can be opened.** -/
lemma DiskInv.open_isOk_iff (hvalid : config.Valid)
    (h : DiskInv E config.dimension d flushed pending stale) (hvectors : d'.vectors = d.vectors)
    (hredb : d'.redb = d.redb) {w : Wal} (hwal : Wal.open d'.wal = .ok w) :
    (∃ e, Engine.open E config d' = .ok e) ↔ d'.Openable E config := by
  have himage := h.vectors
  have hsnapshot := h.logged.snapshot
  rw [← hvectors, ← hredb] at himage
  rw [← hredb] at hsnapshot
  have hread : d'.readLog E = (w.readAll E.codec).1 := by rw [Disk.readLog, hwal]
  cases hv : d'.vectors with
  | none =>
    rw [hv] at himage
    obtain ⟨hempty, -⟩ := hsnapshot.fresh himage.fresh
    obtain ⟨len, hlen⟩ := Option.isSome_iff_exists.mp hvalid.len
    have hvs : VectorStore.open d'.vectors config.dimension config.initialCapacity = .ok
        ⟨newVectorFile config.dimension len, true, config.dimension, 0,
          max config.initialCapacity 1024⟩ := by
      simp only [hv, VectorStore.open, VectorStore.newWithCapacity, hvalid.dim_pos.ne', if_false,
        hlen]
      rfl
    obtain ⟨e, hfiles, hevs, -, hmeta⟩ := exists_openFiles hvs hwal
    rw [Engine.open_isOk_iff hvalid.check hfiles (by rw [hevs]) ?_ ?_]
    · simp [hevs, Openable, hv]
    · intro o
      rw [hevs]
      exact (vectorsReady_new hvalid.dim_pos hlen).shape o
    · intro o m hm
      rw [hmeta, hempty] at hm
      simp [MetadataStore.open] at hm
  | some file =>
    cases hheader : file.header with
    | none =>
      have herr : ∀ vs, VectorStore.open d'.vectors config.dimension config.initialCapacity ≠
          .ok vs := by
        intro vs hvs
        simp only [hv, VectorStore.open, hheader] at hvs
        split at hvs <;> cases hvs
      constructor
      · rintro ⟨e, hopen⟩
        obtain ⟨-, opened, -, hfiles, -⟩ := open_eq_ok_iff.mp hopen
        obtain ⟨vs, -, hvs, -⟩ := openFiles_eq_ok_iff.mp hfiles
        exact absurd hvs (herr vs)
      · intro hopenable
        simp [Openable, hv, hheader] at hopenable
    | some header =>
      rw [hv] at himage
      have hready := himage.ready_of_header hheader
      obtain ⟨count, hheader', hcount⟩ := hready.header
      rw [hheader] at hheader'
      cases hheader'
      have hvs : VectorStore.open d'.vectors config.dimension config.initialCapacity = .ok
          ⟨file, true, config.dimension, min count (file.room config.dimension),
            file.room config.dimension⟩ := by
        simp only [hv, VectorStore.open, not_lt.mpr hready.len, if_false, hheader, ne_eq,
          not_true_eq_false]
      obtain ⟨e, hfiles, hevs, hewal, hmeta⟩ := exists_openFiles hvs hwal
      rw [Engine.open_isOk_iff hvalid.check hfiles (by rw [hevs]) (by rw [hevs]; exact hready.shape)
        ?_]
      · have hlast : d'.redb.lastAppliedSeq = none → e.lastApplied = 0 := by
          intro hnone
          rw [lastApplied, hmeta]
          show d'.redb.lastAppliedSeq.getD 0 = 0
          rw [hnone]
          rfl
        have hopenable : d'.Openable E config ↔ d'.redb.lastAppliedSeq ≠ none ∨
            min count (file.room config.dimension) = 0 ∨
            ∃ op ∈ d'.readLog E, op.replays 0 = true := by
          simp [Openable, hv, hheader]
        rw [hopenable, hewal, ← hread, hmeta, hsnapshot.isFresh_iff, hevs]
        by_cases hnone : d'.redb.lastAppliedSeq = none
        · rw [hlast hnone]
          simp only [hnone, true_and, ne_eq, not_true_eq_false, false_or, not_and_or,
            Bool.not_eq_false, any_eq_true, not_lt, Nat.le_zero]
          exact or_comm
        · simp [hnone]
      · intro o m hm
        rw [hmeta] at hm
        have hplaced := hsnapshot.records o
        rw [show d'.redb.records[o]? = some m from hm] at hplaced
        obtain ⟨r, hr, -⟩ := Option.map_eq_some_iff.mp hplaced.symm
        obtain ⟨x, hx, hadds⟩ := exists_adds_of_placed hr
        rw [hevs]
        exact lt_min (hcount x hx _ hadds) (hready.stored x (by simp [hx]) _ hadds).2

end Killed

/-- **Which stores open after a kill.** A store is created in an empty directory, used by any number
of threads and killed any number of times, and its log is then damaged behind some frame, or not. It
opens exactly when its vector file has its header and metadata was committed, or no vector is
counted, or some operation of the log is replayed. It then has the records of the snapshot and of
the pending operations in front of the damage, unless the damaged bytes spell more frames. **Proof
sketch.** What kills leave satisfies `DiskInv` (`Disk.Killed.holds`), so open can only fail at the
guard (`Engine.open_isOk_iff`). Damage behind a frame gives the same with a shorter log
(`Disk.Damaged.diskInv`). -/
theorem open_isOk_iff_openable {T : Type} [DecidableEq T] {E : Env} {config : StoreConfig}
    {e₀ : Engine} {d d' : Disk} {log : List Entry} {intact : List WalOp}
    (hnew : Engine.open E config {} = .ok e₀) (hkilled : Killed T E config d log)
    (hdamaged : d.Damaged E intact d') :
    ((∃ e, Engine.open E config d' = .ok e) ↔ d'.Openable E config) ∧
    ∃ flushed pending stale, log = flushed ++ pending ∧
      (∀ o : PointOffset, d.redb.records[o]? = (placed flushed)[o]?.map MetaRecord.ofRecord) ∧
      d.readLog E = stale ++ pending.map Entry.toOp ∧
      (d'.readLog E = intact → ∀ e, Engine.open E config d' = .ok e → ∀ o : PointOffset,
        e.getRecord o = (placed (flushed ++ pending.take (intact.length - stale.length)))[o]?) := by
  have hvalid : config.Valid := Interrupted.refl.valid hnew
  obtain ⟨flushed, pending, stale, rfl, hinv⟩ := hkilled.holds hvalid
  obtain ⟨hvectors, hredb, w, hwal⟩ := hdamaged.wal_open hinv
  refine ⟨hinv.open_isOk_iff hvalid hvectors hredb hwal, flushed, pending, stale, rfl,
    hinv.logged.snapshot.records, hinv.readLog, ?_⟩
  intro hread e hopen o
  have hinv' := hdamaged.diskInv hinv hread
  obtain ⟨-, flushed', pending', stale', hlog, hdurable, happlied⟩ :=
    hinv'.holds.open hvalid (fun h : False => h.elim) hopen
  rw [hdurable.getRecord happlied.cached, ← hlog]

/-! ## Runs -/

/-- A kill at the beginning of a step. -/
lemma image_self {E : Env} {config : StoreConfig} (s : Store) (a : Act) :
    (service E config).Image s (some a) ⟨s.engine.disk, s.log, s.acked⟩ := by
  cases a with
  | act a => exact ⟨rfl, Images.self _ _, by rw [Action.logged_self, append_nil]⟩
  | ack entries => exact ⟨rfl, rfl, rfl⟩

/-- A request that is killed. -/
lemma killed_sampleStopped {rs : List Request} {r : Request} {n : ℕ} {e : Engine} {s : Stopped}
    (hfirst : Engine.open sampleEnv sampleConfig {} = .ok e)
    (hs : sampleStopped rs r n e = some s) :
    Killed Unit sampleEnv sampleConfig s.engine.disk s.log :=
  .running .refl hfirst (reachable_sampleStopped (fun _ _ => trivial) trivial hs)
    (crash_only () (image_self s.toStore _)) .refl

set_option maxRecDepth 10000

/-- A flush that is killed after it stamped the vector file: the log brings the record back. -/
theorem open_isOk_iff_openable_stamped : ∃ (e₀ : Engine) (s : Stopped),
    Engine.open sampleEnv sampleConfig {} = .ok e₀ ∧
    sampleStopped [.insert 5 (sampleInput "a" "text" none)] .flush 4 e₀ = some s ∧
    s.engine.vectors.file.header = some ⟨1, 1⟩ ∧
    ∃ e, Engine.open sampleEnv sampleConfig s.engine.disk = .ok e := by
  obtain ⟨e₀, hfirst, htest⟩ := exists_opened (P := fun e₀ =>
    (sampleStopped [.insert 5 (sampleInput "a" "text" none)] .flush 4 e₀).any
      fun s => s.engine.vectors.file.header = some ⟨1, 1⟩ ∧
        (s.engine.disk.readLog sampleEnv).any (WalOp.replays 0)) (by decide +kernel)
  obtain ⟨s, hs, htest⟩ := (Option.any_eq_true _ _).mp htest
  obtain ⟨hheader, hreplays⟩ := of_decide_eq_true htest
  refine ⟨e₀, s, hfirst, hs, hheader, ?_⟩
  refine (open_isOk_iff_openable hfirst (killed_sampleStopped hfirst hs) .intact).1.mpr ?_
  exact .inr ⟨_, _, rfl, hheader, .inr (.inr (any_eq_true.mp hreplays))⟩

/-- **Stores that cannot be opened any more.** The process is killed while the vector file it
creates has no header yet; or in its first flush, when the vector file is stamped and metadata not
committed, and the log is damaged behind its header. -/
theorem open_fails_after_kill : (∃ d, Killed Unit sampleEnv sampleConfig d [] ∧
      ∀ e, Engine.open sampleEnv sampleConfig d ≠ .ok e) ∧
    ∃ d d' log, Killed Unit sampleEnv sampleConfig d log ∧ d.Damaged sampleEnv [] d' ∧
      ∀ e, Engine.open sampleEnv sampleConfig d' ≠ .ok e := by
  have hfails : ∀ d, passes (fun _ => true) (Engine.open sampleEnv sampleConfig d) = false →
      ∀ e, Engine.open sampleEnv sampleConfig d ≠ .ok e := by
    intro d htest e hopen
    rw [hopen] at htest
    cases htest
  constructor
  · refine ⟨write {} (.createVectors 1), .creating (.step .refl ?_), hfails _ (by decide +kernel)⟩
    obtain ⟨ws, hws⟩ : ∃ ws, openWrites sampleEnv sampleConfig {} = .createVectors 1 :: ws :=
      ⟨_, rfl⟩
    rw [hws]
    exact .here (.all _)
  · obtain ⟨e₀, hfirst, htest⟩ := exists_opened (P := fun e₀ =>
      (sampleStopped [.insert 5 (sampleInput "a" "text" none)] .flush 4 e₀).any
        fun s => s.engine.disk.wal = some (headerBytes walVersion ++ (frames bincode.format
            (s.engine.disk.readLog sampleEnv) ++ [])) ∧
          passes (fun _ => true) (Engine.open sampleEnv sampleConfig
            { s.engine.disk with wal := some (headerBytes walVersion ++ []) }) = false)
      (by decide +kernel)
    obtain ⟨s, hs, htest⟩ := (Option.any_eq_true _ _).mp htest
    obtain ⟨hwal, hopen⟩ := of_decide_eq_true htest
    exact ⟨s.engine.disk, _, s.log, killed_sampleStopped hfirst hs, .behind 0 [] [] hwal,
      hfails _ hopen⟩

end TurboMemory
