import TurboMemory.Engine.CrashRecovery

/-!
# Sequence numbers and offsets

The counters for offsets and sequence numbers are kept in memory and written only by a flush.
Between two flushes a number that was given out is in the log, in the frame of the operation
that took it. Opening advances the counters past every such frame, whether its vector could be
recovered or not, and commits them together with the last applied sequence number before the
log is cleared. So a number whose operation returned is never given out again, even when the
vector file is lost. An eviction is not one critical section: it drains the access counters,
inserts its gists and deletes its victims, each a request of its own.

## Main results

* `DiskNumbered.open` — opening advances the counters past every recalled number.
* `numbers_never_reused` — in every reachable state the counters are beyond the numbers of all
  operations that ever returned.
-/

set_option autoImplicit false

namespace TurboMemory

open Framing CriticalSections List Engine

/-! ## Numbers in the files -/

/-- The offset and the sequence number a logged operation takes. -/
def WalOp.numbers : WalOp → Option (PointOffset × ℕ)
  | .insert offset seq _ _ => some (offset, seq)
  | .replace _ offset seq _ _ => some (offset, seq)
  | .delete _ => none
  | .flush _ => none

/-- The offset and the sequence number an entry takes. -/
def Entry.numbers (x : Entry) : Option (PointOffset × ℕ) :=
  x.adds.map fun p => (p.1, p.2.insertSeq)

/-- The log has the numbers of an entry. -/
lemma Entry.numbers_toOp (x : Entry) : x.toOp.numbers = x.numbers := by
  cases x <;> rfl

/-- The snapshot's counters are beyond the numbers. -/
def Redb.Passed (db : Redb) (p : PointOffset × ℕ) : Prop :=
  ∃ offset seq, db.nextOffset = some offset ∧ db.nextSeq = some seq ∧ p.1 < offset ∧ p.2 < seq

/-- The numbers are below the snapshot's counters, or in a frame that is replayed. -/
def Recalled (db : Redb) (ops : List WalOp) (p : PointOffset × ℕ) : Prop :=
  db.Passed p ∨ db.last < p.2 ∧ ∃ op ∈ ops, op.numbers = some p

/-- The log grows. -/
lemma Recalled.append {db : Redb} {ops : List WalOp} {p : PointOffset × ℕ}
    (h : Recalled db ops p) (more : List WalOp) : Recalled db (ops ++ more) p := by
  rcases h with h | ⟨hlast, op, hop, hnumbers⟩
  · exact .inl h
  · exact .inr ⟨hlast, op, mem_append_left _ hop, hnumbers⟩

/-- An open store whose log file holds `ops`: its files recall every number in use, and its
counters are beyond them. -/
structure Numbered (E : Env) (e : Engine) (ops : List WalOp) (used : List (PointOffset × ℕ)) :
    Prop where
  wal : e.wal.Holds E.codec ops []
  recalled : ∀ p ∈ used, Recalled e.metadata.db ops p
  passed : ∀ p ∈ used, p.1 < e.metadata.nextOffset ∧ p.2 < e.metadata.nextSeq
  last_lt : e.metadata.db.last < e.metadata.nextSeq
  last_lt_open : e.metadata.db.last < (MetadataStore.open e.metadata.db).nextSeq

/-- Files that recall every number in use. -/
def DiskNumbered (E : Env) (d : Disk) (used : List (PointOffset × ℕ)) : Prop :=
  ∃ ops, WalImage E.codec ops d.wal ∧ (∀ p ∈ used, Recalled d.redb ops p) ∧
    d.redb.last < (MetadataStore.open d.redb).nextSeq

/-- Snapshot and log are those of another disk; vectors and segments may be lost. -/
def Disk.SameLog (d d' : Disk) : Prop := d'.redb = d.redb ∧ d'.wal = d.wal

variable {E : Env} {e e' : Engine} {ops : List WalOp} {used : List (PointOffset × ℕ)} {d d' : Disk}

/-- Only snapshot and log matter. -/
lemma DiskNumbered.sameLog (h : DiskNumbered E d used) (hsame : d.SameLog d') :
    DiskNumbered E d' used := by
  unfold DiskNumbered
  rw [hsame.1, hsame.2]
  exact h

/-- The files of a numbered store. -/
lemma Numbered.disk (h : Numbered E e ops used) : DiskNumbered E e.disk used :=
  ⟨ops, h.wal.image, h.recalled, h.last_lt_open⟩

/-- Fewer numbers in use. -/
lemma Numbered.mono (h : Numbered E e ops used) {used' : List (PointOffset × ℕ)}
    (hsub : ∀ p ∈ used', p ∈ used) : Numbered E e ops used' :=
  ⟨h.wal, fun p hp => h.recalled p (hsub p hp), fun p hp => h.passed p (hsub p hp), h.last_lt,
    h.last_lt_open⟩

/-! ## Steps that leave snapshot, log and counters alone -/

/-- Snapshot, log and counters are those of another store. -/
structure SameNumbers (e e' : Engine) : Prop where
  wal : e'.wal = e.wal
  db : e'.metadata.db = e.metadata.db
  nextOffset : e'.metadata.nextOffset = e.metadata.nextOffset
  nextSeq : e'.metadata.nextSeq = e.metadata.nextSeq

/-- Nothing is done. -/
lemma SameNumbers.refl (e : Engine) : SameNumbers e e := ⟨rfl, rfl, rfl, rfl⟩

/-- The same counters and files. -/
lemma Numbered.congr (h : Numbered E e ops used) (hsame : SameNumbers e e') :
    Numbered E e' ops used := by
  obtain ⟨hwal, hdb, hoffset, hseq⟩ := hsame
  refine ⟨hwal ▸ h.wal, ?_, ?_, ?_, ?_⟩
  · rw [hdb]
    exact h.recalled
  · rw [hoffset, hseq]
    exact h.passed
  · rw [hdb, hseq]
    exact h.last_lt
  · rw [hdb]
    exact h.last_lt_open

/-- The step writes neither snapshot nor log. -/
def Action.quiet : Action → Bool
  | .put _ _ => true
  | .syncVectors => true
  | .log _ => false
  | .removeFromIndexes _ _ => true
  | .applyBatch _ => true
  | .processSeals => true
  | .drainCounters => true
  | .syncWal => true
  | .flushVectors => true
  | .flushMetadata _ => false
  | .saveGraph => false
  | .truncateWal _ => false
  | .clearWal => false

variable {a : Action}

/-- A step that takes and writes no number. -/
lemma exec_quiet {io : Io} (ha : a.quiet = true) {r : Except StorageError Unit}
    (h : e.exec E io a = (r, e')) : SameNumbers e e' := by
  cases a with
  | put offset vector | processSeals | flushVectors =>
    cases h
    exact ⟨rfl, rfl, rfl, rfl⟩
  | syncVectors | syncWal =>
    cases h
    exact .refl e
  | removeFromIndexes id offset =>
    cases h
    have hsame := (removeFromIndexes_spec (E := E) e id offset).1
    exact ⟨hsame.wal, by rw [hsame.metadata]; rfl, by rw [hsame.metadata]; rfl,
      by rw [hsame.metadata]; rfl⟩
  | applyBatch records =>
    have hsame := (applyBatch_spec h).1
    obtain ⟨hdb, hoffset, hseq⟩ := e.metadata.putBatch_files records
    exact ⟨hsame.wal, by rw [hsame.metadata]; exact hdb, by rw [hsame.metadata]; exact hoffset,
      by rw [hsame.metadata]; exact hseq⟩
  | drainCounters =>
    cases h
    obtain ⟨hdb, hoffset, hseq⟩ := drainInto_files e.accessCounters.toList e.metadata
    exact ⟨rfl, hdb, hoffset, hseq⟩
  | _ => cases ha

/-- No step takes a number. -/
lemma counters_exec (E : Env) (io : Io) (e : Engine) (a : Action) :
    (e.exec E io a).2.metadata.nextOffset = e.metadata.nextOffset ∧
      (e.exec E io a).2.metadata.nextSeq = e.metadata.nextSeq := by
  cases hquiet : a.quiet with
  | true => exact ⟨(exec_quiet hquiet rfl).nextOffset, (exec_quiet hquiet rfl).nextSeq⟩
  | false =>
    cases a with
    | log entries =>
      simp only [exec]
      split <;> exact ⟨rfl, rfl⟩
    | flushMetadata last => exact (MetadataStore.flush_cache _ _).2
    | saveGraph | truncateWal validEnd | clearWal => exact ⟨rfl, rfl⟩
    | _ => cases hquiet

/-- A kill during writes to vectors and segments leaves snapshot and log. -/
lemma images_aside {ws : List Write} (h : d.Images ws d') (hws : ∀ w ∈ ws,
    (∃ dim, w = .createVectors dim) ∨ (∃ v, w = .vectors v) ∨ ∃ sealed, w = .segments sealed) :
    d.SameLog d' := by
  refine h.invariant ⟨rfl, rfl⟩ ?_
  intro w hw d₁ d₂ hd₁ htorn
  rcases hws w hw with ⟨dim, rfl⟩ | ⟨v, rfl⟩ | ⟨sealed, rfl⟩
  all_goals rcases htorn.eq_or with rfl | rfl <;> exact hd₁

/-- A kill during such a step leaves snapshot and log. -/
lemma images_quiet (ha : a.quiet = true) (h : d.Images (a.writes E e) d') : d.SameLog d' := by
  refine images_aside h fun w hw => .inr ?_
  cases a with
  | put offset vector =>
    simp only [Action.writes] at hw
    split at hw
    · obtain ⟨v, -, rfl⟩ := mem_map.mp hw
      exact .inl ⟨v, rfl⟩
    · cases hw
  | processSeals | flushVectors => simp_all [Action.writes]
  | log | flushMetadata | saveGraph | truncateWal | clearWal => cases ha
  | _ => cases hw

/-! ## Logging -/

/-- The numbers of entries that the store can log next. -/
def Given (m : MetadataStore) (entries : List Entry) : Prop :=
  ∀ x ∈ entries, ∀ p, x.numbers = some p → p.1 < m.nextOffset ∧ p.2 < m.nextSeq ∧ m.db.last < p.2

variable {entries : List Entry} {d : Disk}

section

variable (h : Numbered E e ops used)
include h

/-- **A complete append**: the numbers of the entries are in use, and recalled. -/
lemma Numbered.log_ok
    (hgiven : Given e.metadata entries) (hexec : e.exec E Io.ok (.log entries) = (.ok (), e')) :
    Numbered E e' (ops ++ entries.map Entry.toOp) (used ++ entries.filterMap Entry.numbers) ∧
    e'.metadata = e.metadata := by
  simp only [exec, Io.ok] at hexec
  split at hexec
  · cases hexec
  next wal happ =>
  simp only [Bool.not_true, Bool.and_false, Bool.false_eq_true, if_false, Prod.mk.injEq,
    true_and] at hexec
  subst hexec
  have hnew : ∀ p ∈ entries.filterMap Entry.numbers, ∃ x ∈ entries, x.numbers = some p :=
    fun p hp => mem_filterMap.mp hp
  refine ⟨⟨h.wal.appendBatch happ, ?_, ?_, h.last_lt, h.last_lt_open⟩, rfl⟩
  · intro p hp
    rcases mem_append.mp hp with hp | hp
    · exact (h.recalled p hp).append _
    · obtain ⟨x, hx, hxp⟩ := hnew p hp
      refine .inr ⟨(hgiven x hx p hxp).2.2, x.toOp, ?_, by rw [x.numbers_toOp, hxp]⟩
      exact mem_append_right _ (mem_map_of_mem hx)
  · intro p hp
    rcases mem_append.mp hp with hp | hp
    · exact h.passed p hp
    · obtain ⟨x, hx, hxp⟩ := hnew p hp
      exact ⟨(hgiven x hx p hxp).1, (hgiven x hx p hxp).2.1⟩

/-- A kill during an append leaves what was recalled before it. -/
lemma Numbered.log_image
    (himage : e.disk.Images ((Action.log entries).writes E e) d) : DiskNumbered E d used := by
  simp only [Action.writes] at himage
  split at himage
  · next buf hbuf =>
    obtain ⟨rfl, hfits⟩ := Wal.foldlM_writeOpToBuffer hbuf
    obtain ⟨n, -, rfl⟩ := images_append rfl himage
    exact ⟨_, walImage_append h.wal hfits n, fun p hp => (h.recalled p hp).append _, h.last_lt_open⟩
  · rw [images_nil himage]
    exact h.disk

/-! ## Flushing -/

/-- **Committing the counters**: they are beyond every number in use, also when the flush has
nothing to write. -/
lemma Numbered.flushMetadata (last : ℕ)
    (hle : ∀ p ∈ used, e.metadata.db.Passed p ∨ p.2 ≤ last) (hlt : last < e.metadata.nextSeq) :
    Numbered E { e with metadata := e.metadata.flush last } ops used ∧
    ∀ p ∈ used, (e.metadata.flush last).db.Passed p := by
  obtain ⟨-, hoffset, hseq⟩ := e.metadata.flush_cache last
  obtain ⟨hlast, hdb⟩ := e.metadata.flush_db last
  have hlast' : (e.metadata.flush last).db.last = last := by
    rw [Redb.last, hlast]
    rfl
  have hpassed : ∀ p ∈ used, (e.metadata.flush last).db.Passed p := by
    intro p hp
    rcases hdb with ⟨hsame, -⟩ | ⟨hnextOffset, hnextSeq⟩
    · rw [hsame] at hlast' ⊢
      rcases hle p hp with hpassed | hple
      · exact hpassed
      · rcases h.recalled p hp with hpassed | ⟨hplt, -⟩
        · exact hpassed
        · omega
    · exact ⟨_, _, hnextOffset, hnextSeq, h.passed p hp⟩
  refine ⟨⟨h.wal, fun p hp => .inl (hpassed p hp), ?_, ?_, ?_⟩, hpassed⟩
  · intro p hp
    rw [hoffset, hseq]
    exact h.passed p hp
  · rw [hlast', hseq]
    exact hlt
  · show (e.metadata.flush last).db.last < (MetadataStore.open (e.metadata.flush last).db).nextSeq
    rcases hdb with ⟨hsame, -⟩ | ⟨-, hnextSeq⟩
    · rw [hsame]
      exact h.last_lt_open
    · rw [hlast', MetadataStore.open, hnextSeq]
      exact hlt

/-- **Clearing the log** once the snapshot's counters are beyond every number in use. -/
lemma Numbered.clearWal (hpassed : ∀ p ∈ used, e.metadata.db.Passed p) :
    Numbered E { e with wal := e.wal.clear } [] used :=
  ⟨Wal.holds_clear E.codec e.wal, fun p hp => .inl (hpassed p hp), h.passed, h.last_lt,
    h.last_lt_open⟩

end

/-- A kill while the log is cleared leaves the snapshot, and the log or part of a header. -/
lemma diskNumbered_clearWal (h : DiskNumbered E d used)
    (hpassed : ∀ p ∈ used, d.redb.Passed p) {content : List UInt8} (hwal : d.wal = some content)
    (himage : d.Images [.walSetLen 0, .walAppend (headerBytes walVersion)] d') :
    DiskNumbered E d' used := by
  rcases images_cons himage with rfl | himage
  · exact h
  · obtain ⟨n, rfl⟩ := images_header (by simp [Disk.write, hwal]) rfl himage
    exact ⟨[], walImage_header E.codec n, fun p hp => .inl (hpassed p hp), h.choose_spec.2.2⟩

/-! ## Replay -/

/-- The replay loop has met the numbers of the operations `done`, and left snapshot and counters
alone. -/
structure Met (m : MetadataStore) (last : ℕ) (done : List WalOp) (s : Replay) : Prop where
  db : s.metadata.db = m.db
  nextOffset : s.metadata.nextOffset = m.nextOffset
  nextSeq : s.metadata.nextSeq = m.nextSeq
  last_le : last ≤ s.maxSeq
  numbers : ∀ op ∈ done, ∀ p, op.numbers = some p → last < p.2 →
    p.1 ≤ s.maxOffset ∧ p.2 ≤ s.maxSeq ∧ s.replayed = true

variable {m : MetadataStore} {done : List WalOp} {last : ℕ} {config : StoreConfig} {s : Replay}

section

variable (h : Met m last done s)
include h

/-- An operation that takes numbers was met, whatever became of its record. -/
lemma Met.seen {s' : Replay} {op : WalOp} {offset : PointOffset} {seq : ℕ}
    (hop : op.numbers = some (offset, seq)) (hdb : s'.metadata.db = s.metadata.db)
    (hoffset : s'.metadata.nextOffset = s.metadata.nextOffset)
    (hseq : s'.metadata.nextSeq = s.metadata.nextSeq) (hmaxSeq : s'.maxSeq = s.maxSeq)
    (hmaxOffset : s'.maxOffset = s.maxOffset) : Met m last (done ++ [op]) (s'.seen offset seq) := by
  refine ⟨hdb.trans h.db, hoffset.trans h.nextOffset, hseq.trans h.nextSeq, ?_, ?_⟩
  · show last ≤ max s'.maxSeq seq
    rw [hmaxSeq]
    exact h.last_le.trans (le_max_left _ _)
  · intro op' hop' p hp hlt
    show p.1 ≤ max s'.maxOffset offset ∧ p.2 ≤ max s'.maxSeq seq ∧ true = true
    rw [hmaxSeq, hmaxOffset]
    rcases mem_append.mp hop' with hop' | hop'
    · obtain ⟨hp₁, hp₂, -⟩ := h.numbers op' hop' p hp hlt
      exact ⟨hp₁.trans (le_max_left _ _), hp₂.trans (le_max_left _ _), rfl⟩
    · obtain rfl := mem_singleton.mp hop'
      cases hop.symm.trans hp
      exact ⟨le_max_right _ _, le_max_right _ _, rfl⟩

/-- An operation that takes no numbers, or is skipped. -/
lemma Met.skip (op : WalOp)
    (hop : ∀ p, op.numbers = some p → ¬ last < p.2) : Met m last (done ++ [op]) s := by
  refine { h with numbers := ?_ }
  intro op' hop' p hp hlt
  rcases mem_append.mp hop' with hop' | hop'
  · exact h.numbers op' hop' p hp hlt
  · obtain rfl := mem_singleton.mp hop'
    exact absurd hlt (hop p hp)

/-- **One operation of the replay.** -/
lemma Met.replayOp (op : WalOp) :
    Met m last (done ++ [op]) (TurboMemory.replayOp last s op) := by
  cases op with
  | insert offset seq record crc | replace oldOffset offset seq record crc =>
    simp only [TurboMemory.replayOp]
    split
    · split <;> exact h.seen rfl rfl rfl rfl rfl rfl
    · next hle =>
      refine h.skip _ ?_
      rintro p ⟨⟩
      exact hle
  | delete offset =>
    obtain ⟨hdb, hoffset, hseq, hle, hnumbers⟩ :=
      h.skip (.delete offset) (by rintro p ⟨⟩)
    refine ⟨hdb, hoffset, hseq, hle, ?_⟩
    intro op hop p hp hlt
    obtain ⟨hp₁, hp₂, -⟩ := hnumbers op hop p hp hlt
    exact ⟨hp₁, hp₂, rfl⟩
  | flush n => exact h.skip _ (by rintro p ⟨⟩)

/-- The whole replay. -/
lemma Met.foldl (ops : List WalOp) :
    Met m last (done ++ ops) (ops.foldl (TurboMemory.replayOp last) s) := by
  induction ops generalizing done s with
  | nil => rwa [append_nil]
  | cons op ops ih =>
    have hrest := ih (h.replayOp op)
    rwa [append_assoc] at hrest

end

/-! ## Opening -/

/-- A store whose files have just been opened. -/
structure JustOpened (E : Env) (e : Engine) (ops : List WalOp) (tail : List UInt8)
    (used : List (PointOffset × ℕ)) : Prop where
  wal : e.wal.Holds E.codec ops tail
  metadata : e.metadata = MetadataStore.open e.metadata.db
  recalled : ∀ p ∈ used, Recalled e.metadata.db ops p
  last_lt : e.metadata.db.last < e.metadata.nextSeq

namespace JustOpened

variable {tail : List UInt8} (h : JustOpened E e ops tail used)

include h

/-- The replay meets every frame. -/
lemma met : Met e.metadata e.metadata.db.last ops (e.replay E) := by
  have hstart : Met e.metadata e.metadata.db.last []
      ⟨e.metadata, e.vectors, e.lastApplied, 0, false⟩ :=
    ⟨rfl, rfl, rfl, le_rfl, by simp⟩
  have hfold := hstart.foldl ops
  rw [nil_append] at hfold
  rw [replay, h.wal.readAll]
  exact hfold

/-- **The counters after the replay** are beyond every number that the files recall. -/
lemma replayed {wal : Wal} (hwal : wal.Holds E.codec ops []) :
    Numbered E { e.replayedEngine E with wal := wal } ops used ∧
    (∀ p ∈ used, (e.replayedEngine E).metadata.db.Passed p ∨ p.2 ≤ (e.replay E).maxSeq) ∧
    (e.mustPersist E = true → (e.replay E).maxSeq < (e.replayedEngine E).metadata.nextSeq) := by
  have hmet := h.met
  have hdb : (e.replayedEngine E).metadata.db = e.metadata.db := by
    simp only [replayedEngine]
    split <;> exact hmet.db
  have hoffset : e.metadata.nextOffset ≤ (e.replayedEngine E).metadata.nextOffset ∧
      (e.mustPersist E = true →
        (e.replay E).maxOffset < (e.replayedEngine E).metadata.nextOffset) := by
    simp only [replayedEngine]
    split
    · simp only [MetadataStore.advanceSeqPast, MetadataStore.advanceOffsetPast, hmet.nextOffset]
      exact ⟨le_max_left _ _, fun _ => (Nat.lt_succ_self _).trans_le (le_max_right _ _)⟩
    · next hno => exact ⟨hmet.nextOffset.ge, fun hyes => absurd hyes hno⟩
  have hseq : e.metadata.nextSeq ≤ (e.replayedEngine E).metadata.nextSeq ∧ (e.mustPersist E = true →
        (e.replay E).maxSeq < (e.replayedEngine E).metadata.nextSeq) := by
    simp only [replayedEngine]
    split
    · simp only [MetadataStore.advanceSeqPast, MetadataStore.advanceOffsetPast, hmet.nextSeq]
      omega
    · next hno => exact ⟨hmet.nextSeq.ge, fun hyes => absurd hyes hno⟩
  refine ⟨⟨hwal, ?_, ?_, ?_, ?_⟩, ?_, hseq.2⟩
  · intro p hp
    show Recalled (e.replayedEngine E).metadata.db ops p
    rw [hdb]
    exact h.recalled p hp
  · intro p hp
    show p.1 < (e.replayedEngine E).metadata.nextOffset ∧
      p.2 < (e.replayedEngine E).metadata.nextSeq
    rcases h.recalled p hp with hpassed | ⟨hlt, op, hop, hnum⟩
    · obtain ⟨offset, seq, hnextOffset, hnextSeq, hp₁, hp₂⟩ := hpassed
      have hoffset₀ : e.metadata.nextOffset = offset := by
        rw [h.metadata, MetadataStore.open, hnextOffset]
        rfl
      have hseq₀ : e.metadata.nextSeq = seq := by
        rw [h.metadata, MetadataStore.open, hnextSeq]
        rfl
      exact ⟨hp₁.trans_le (hoffset₀ ▸ hoffset.1), hp₂.trans_le (hseq₀ ▸ hseq.1)⟩
    · obtain ⟨hp₁, hp₂, hreplayed⟩ := hmet.numbers op hop p hnum hlt
      have hmust : e.mustPersist E = true := by rw [mustPersist, hreplayed, Bool.true_or]
      exact ⟨hp₁.trans_lt (hoffset.2 hmust), hp₂.trans_lt (hseq.2 hmust)⟩
  · show (e.replayedEngine E).metadata.db.last < (e.replayedEngine E).metadata.nextSeq
    rw [hdb]
    exact h.last_lt.trans_le hseq.1
  · show (e.replayedEngine E).metadata.db.last <
      (MetadataStore.open (e.replayedEngine E).metadata.db).nextSeq
    rw [hdb, ← h.metadata]
    exact h.last_lt
  · intro p hp
    rw [hdb]
    rcases h.recalled p hp with hpassed | ⟨hlt, op, hop, hnum⟩
    · exact .inl hpassed
    · exact .inr (hmet.numbers op hop p hnum hlt).2.1

end JustOpened

/-- What a sequence of writes leaves of snapshot and log does not depend on the other files. -/
lemma Disk.Images.sameLog {d₀ d' : Disk} {ws : List Write} (h : d.Images ws d')
    (hsame : d₀.SameLog d) : ∃ d₁, d₀.Images ws d₁ ∧ d₁.SameLog d' := by
  have hwrite : ∀ (d₀ d : Disk) (w : Write), d₀.SameLog d → (d₀.write w).SameLog (d.write w) := by
    intro d₀ d w hsame
    obtain ⟨hredb, hwal⟩ := hsame
    cases w <;> simp [Disk.SameLog, Disk.write, hredb, hwal]
  induction h generalizing d₀ with
  | nil d => exact ⟨d₀, .nil d₀, hsame⟩
  | here htorn =>
    cases htorn with
    | none => exact ⟨d₀, .here (.none _), hsame⟩
    | part bytes n => exact ⟨_, .here (.part bytes n), hwrite _ _ _ hsame⟩
    | all => exact ⟨_, .here (.all _), hwrite _ _ _ hsame⟩
  | later _ ih =>
    obtain ⟨d₁, himages, hsame₁⟩ := ih (hwrite _ _ _ hsame)
    exact ⟨d₁, .later himages, hsame₁⟩

/-- A step that writes neither snapshot nor log, failed or not. -/
lemma Numbered.exec_quiet (h : Numbered E e ops used) (ha : a.quiet = true)
    (io : Io) : Numbered E (e.exec E io a).2 ops used :=
  h.congr (TurboMemory.exec_quiet ha rfl)

/-- **Making the state the new snapshot** keeps the numbers recalled, wherever a kill falls. -/
lemma Numbered.persist (h : Numbered E e ops used)
    (hle : ∀ p ∈ used, e.metadata.db.Passed p ∨ p.2 ≤ last) (hlt : last < e.metadata.nextSeq) :
    (∀ r, runAll (exec E Io.ok) (persistPlan last) e = (.ok (), r) →
      ∃ ops', Numbered E r ops' used) ∧
    ∀ d, e.disk.Images (planWrites E (persistPlan last) e) d → DiskNumbered E d used := by
  have h₁ : Numbered E (e.exec E Io.ok .flushVectors).2 ops used := h.exec_quiet rfl Io.ok
  have hmeta : (e.exec E Io.ok .flushVectors).2.metadata = e.metadata := rfl
  obtain ⟨h₂, hpassed⟩ := h₁.flushMetadata last (hmeta ▸ hle) (hmeta ▸ hlt)
  have h₃ := h₂.clearWal hpassed
  constructor
  · intro r hrun
    rw [persistPlan, runAll] at hrun
    split at hrun
    · next e₁ hexec =>
      rw [hexec] at h₃
      cases hrun
      exact ⟨[], h₃⟩
    · cases hrun
  · intro d himage
    rw [persistPlan, planWrites] at himage
    rcases himage.append with himage | himage
    · exact h.disk.sameLog (images_quiet rfl himage)
    have hstamped : (e.exec E Io.ok .flushVectors).2.disk.SameLog
        ((Action.flushVectors.writes E e).foldl Disk.write e.disk) := ⟨rfl, rfl⟩
    obtain ⟨d₁, himage, hsame⟩ := himage.sameLog hstamped
    refine DiskNumbered.sameLog ?_ hsame
    rw [planWrites] at himage
    rcases himage.append with himage | himage
    · rcases images_single himage with rfl | rfl
      · exact h₁.disk
      · exact h₂.disk
    exact diskNumbered_clearWal h₂.disk hpassed rfl himage

/-- **Recovery** keeps the numbers recalled, wherever a kill falls, and leaves counters beyond
them. -/
lemma JustOpened.recover {tail : List UInt8} (h : JustOpened E e ops tail used) :
    (∀ r, runAll (exec E Io.ok) (e.recoverPlan E) (e.replayedEngine E) = (.ok (), r) →
      ∃ ops', Numbered E r ops' used) ∧
    ∀ d, e.disk.Images (planWrites E (e.recoverPlan E) (e.replayedEngine E)) d →
      DiskNumbered E d used := by
  have hplan : e.recoverPlan E = (e.replayedEngine E).cutPlan E ++
    if e.mustPersist E then persistPlan (e.replay E).maxSeq else [] := rfl
  obtain ⟨wal, hwal, hrun, himages⟩ :
      ∃ wal : Wal, wal.Holds E.codec ops [] ∧ _ ∧ _ :=
    cutPlan_run (r := e.replayedEngine E) h.wal
  obtain ⟨hnumbered, hle, hlt⟩ := h.replayed hwal
  have hopened : DiskNumbered E e.disk used := by
    refine ⟨ops, h.wal.image, h.recalled, ?_⟩
    show e.metadata.db.last < (MetadataStore.open e.metadata.db).nextSeq
    rw [← h.metadata]
    exact h.last_lt
  have hdisk : (e.replayedEngine E).disk.SameLog e.disk := by
    refine ⟨?_, rfl⟩
    show e.metadata.db = (e.replayedEngine E).metadata.db
    simp only [replayedEngine]
    split <;> exact h.met.db.symm
  rw [hplan]
  have hrest : (∀ r, runAll (exec E Io.ok)
        (if e.mustPersist E then persistPlan (e.replay E).maxSeq else [])
        { e.replayedEngine E with wal := wal } = (.ok (), r) → ∃ ops', Numbered E r ops' used) ∧
      ∀ d, ({ e.replayedEngine E with wal := wal } : Engine).disk.Images (planWrites E
        (if e.mustPersist E then persistPlan (e.replay E).maxSeq else [])
        { e.replayedEngine E with wal := wal }) d → DiskNumbered E d used := by
    by_cases hpersist : e.mustPersist E = true
    · rw [if_pos hpersist]
      exact hnumbered.persist hle (hlt hpersist)
    · rw [if_neg hpersist]
      refine ⟨?_, ?_⟩
      · intro r hr
        cases hr
        exact ⟨ops, hnumbered⟩
      · intro d himage
        rw [images_nil himage]
        exact hnumbered.disk
  refine ⟨fun r hr => hrest.1 r (by rwa [hrun] at hr), ?_⟩
  intro d himage
  obtain ⟨d₁, himage, hsame⟩ := himage.sameLog hdisk
  refine DiskNumbered.sameLog ?_ hsame
  rcases himages _ _ himage with rfl | himage
  · exact hopened.sameLog ⟨hdisk.1.symm, hdisk.2.symm⟩
  · exact hrest.2 d₁ himage

section

variable (h : DiskNumbered E d used)
include h

/-- Opening the files of a disk that recalls the numbers. -/
lemma DiskNumbered.openFiles (hopen : openFiles config d = .ok e) :
    ∃ ops tail, JustOpened E e ops tail used ∧ Wal.open d.wal = .ok e.wal ∧
      e.metadata.db = d.redb := by
  obtain ⟨ops, hwal, hrecalled, hlast⟩ := h
  obtain ⟨w, tail, hw, hholds⟩ := hwal.open
  obtain ⟨vs, w, -, hw', rfl⟩ := openFiles_eq_ok_iff.mp hopen
  cases hw.symm.trans hw'
  exact ⟨ops, tail, ⟨hholds, rfl, hrecalled, hlast⟩, hw, rfl⟩

/-- **Opening** gives a store whose counters are beyond every recalled number. -/
lemma DiskNumbered.open
    (hopen : Engine.open E config d = .ok e) : ∃ ops, Numbered E e ops used := by
  obtain ⟨-, opened, recovered, hfiles, hrun, -, hrebuild⟩ := open_eq_ok_iff.mp hopen
  obtain ⟨ops, tail, hopened, -⟩ := h.openFiles hfiles
  obtain ⟨ops', hnumbered⟩ := hopened.recover.1 recovered hrun
  refine ⟨ops', hnumbered.congr ?_⟩
  rw [rebuild_eq hrebuild]
  exact ⟨rfl, rfl, rfl, rfl⟩

/-- **A killed open** leaves files that recall the numbers. -/
lemma DiskNumbered.openImages
    (himage : d.Images (openWrites E config d) d') : DiskNumbered E d' used := by
  rw [openWrites] at himage
  split at himage
  swap
  · rw [images_nil himage]
    exact h
  next e _ hopen =>
  obtain ⟨ops, tail, hopened, hwal, hdb⟩ := h.openFiles hopen
  -- The writes that create the vector file touch neither snapshot nor log.
  have hcreate : ∀ d', d.Images (createVectorsWrites config d.vectors) d' → d.SameLog d' := by
    refine fun d' himage => images_aside himage fun w hw => ?_
    rw [createVectorsWrites.eq_def] at hw
    split at hw
    · cases hw
    · split at hw
      · cases hw
      · simp only [mem_cons, not_mem_nil, or_false] at hw
        rcases hw with rfl | rfl | rfl <;> simp
  have hcreated := hcreate _ (.all d _)
  rcases himage.append with himage | himage
  · rcases himage.append with himage | himage
    · exact h.sameLog (hcreate d' himage)
    · obtain ⟨d₁, himage, hsame⟩ := himage.sameLog hcreated
      obtain ⟨ops', hwal', hrecalled, hlast⟩ := h
      obtain ⟨content, hcontent, rfl⟩ := hwal'.createWal himage
      have hheader : DiskNumbered E { d with wal := content } used :=
        ⟨ops', hcontent, hrecalled, hlast⟩
      exact hheader.sameLog hsame
  · have hdisk : e.disk.SameLog ((createVectorsWrites config d.vectors ++
        createWalWrites d.wal).foldl Disk.write d) := by
      rw [foldl_append]
      have hwal' : Wal.open ((createVectorsWrites config d.vectors).foldl Disk.write d).wal
          = .ok e.wal := by rw [hcreated.2, hwal]
      have hfold := foldl_createWalWrites hwal'
      rw [hcreated.2] at hfold
      rw [hfold]
      exact ⟨hcreated.1.trans hdb.symm, rfl⟩
    obtain ⟨d₁, himage, hsame⟩ := himage.sameLog hdisk
    exact (hopened.recover.2 d₁ himage).sameLog hsame

end

/-- What kills leave when one open after the other is killed as well. Each of them may lose
vectors and segments. -/
inductive Disk.Salvaged (E : Env) (config : StoreConfig) (d : Disk) : Disk → Prop
  | lost {d' : Disk} : d.SameLog d' → Salvaged E config d d'
  | step {d₁ d₂ d₃ : Disk} : Salvaged E config d d₁ → d₁.Images (openWrites E config d₁) d₂ →
      d₂.SameLog d₃ → Salvaged E config d d₃

/-- Other files may be lost. -/
lemma DiskNumbered.salvaged (h : DiskNumbered E d used)
    (hsalvaged : d.Salvaged E config d') : DiskNumbered E d' used := by
  induction hsalvaged with
  | lost hsame => exact h.sameLog hsame
  | step _ himage hsame ih => exact (ih.openImages himage).sameLog hsame

/-! ## The service -/

/-- What the store is asked for: a request, or one of the other steps of an eviction. -/
inductive Demand
  | request (vocab : ConceptVocabulary) (r : Request)
  | deleteByIdAt (id : String) (offset : PointOffset)
  | drain

/-- Only a flush takes the barrier exclusively. -/
def Demand.exclusive : Demand → Bool
  | .request _ r => r.exclusive
  | .deleteByIdAt _ _ => false
  | .drain => false

/-- What a demand decides to do once it has its locks. -/
def Engine.beginDemand (E : Env) (e : Engine) : Demand → Begin
  | .request vocab r => e.begin E vocab r
  | .deleteByIdAt id offset => e.deleteByIdAt id offset
  | .drain => .run e [.drainCounters] .unit

/-- An open store, and the offsets and sequence numbers of all records whose operation has
returned. -/
structure Tally where
  engine : Engine
  used : List (PointOffset × ℕ)

/-- What a kill leaves. -/
structure TallyImage where
  disk : Disk
  used : List (PointOffset × ℕ)

/-- The store as a service whose kills keep the snapshot and the whole frames of the log, and may
lose the vector file and the segments. -/
def lossyService (E : Env) (config : StoreConfig) :
    Service Tally Demand Act StorageError TallyImage where
  begin r s :=
    match s.engine.beginDemand E r with
    | .done _ => none
    | .run e plan _ => some ({ s with engine := e }, withAck plan)
  exec
    | .act a, s =>
      match s.engine.exec E Io.ok a with
      | (r, e) => (r, { s with engine := e })
    | .ack entries, s => (.ok (), { s with used := s.used ++ entries.filterMap Entry.numbers })
  exclusive := Demand.exclusive
  Image s a k := k.used = s.used ∧ ∃ d, d.SameLog k.disk ∧ match a with
    | some (.act a) => s.engine.disk.Images (a.writes E s.engine) d
    | _ => d = s.engine.disk
  reopen k s := s.used = k.used ∧
    ∃ d, k.disk.Salvaged E config d ∧ Engine.open E config d = .ok s.engine

/-- A store at rest. -/
def Tallied (E : Env) (s : Tally) : Prop := ∃ ops, Numbered E s.engine ops s.used

/-- What a kill leaves recalls the numbers. -/
def TalliedImage (E : Env) (k : TallyImage) : Prop := DiskNumbered E k.disk k.used

/-- Acts that are safe for a store that recalls its numbers. -/
abbrev SafeTally (E : Env) (config : StoreConfig) : (Tally → Prop) → List Act → Tally → Prop :=
  Safe (lossyService E config) (Tallied E) (TalliedImage E)

variable {config : StoreConfig}

/-- A store in the middle of a call whose entries will take the numbers `more`; the counters are
those of `m`. -/
structure Counting (E : Env) (ops : List WalOp) (more : List (PointOffset × ℕ)) (m : MetadataStore)
    (s : Tally) : Prop where
  numbered : Numbered E s.engine ops (s.used ++ more)
  db : s.engine.metadata.db = m.db
  nextOffset : s.engine.metadata.nextOffset = m.nextOffset
  nextSeq : s.engine.metadata.nextSeq = m.nextSeq

variable {s : Tally} {more : List (PointOffset × ℕ)} {R : Tally → Prop} {k : TallyImage}

/-- Before a call returns. -/
lemma Counting.tallied (h : Counting E ops more m s) : Tallied E s :=
  ⟨ops, h.numbered.mono fun _ hp => mem_append_left _ hp⟩

/-- A kill at rest. -/
lemma Tallied.image (config : StoreConfig) (h : Tallied E s)
    (hk : (lossyService E config).Image s none k) : TalliedImage E k := by
  obtain ⟨ops, hnumbered⟩ := h
  obtain ⟨hused, d, hsame, rfl⟩ := hk
  show DiskNumbered E k.disk k.used
  rw [hused]
  exact hnumbered.disk.sameLog hsame

/-- A step of a plan. -/
lemma tally_act
    (himage : ∀ d, s.engine.disk.Images (a.writes E s.engine) d → DiskNumbered E d s.used)
    (hok : ∀ e, s.engine.exec E Io.ok a = (.ok (), e) → R { s with engine := e })
    (herr : ∀ err e, s.engine.exec E Io.ok a = (.error err, e) → Tallied E { s with engine := e }) :
    SafeTally E config R [.act a] s := by
  refine ⟨?_, ?_, ?_⟩
  · rintro ⟨disk, used⟩ ⟨hused, d, hsame, hd⟩
    obtain rfl : used = s.used := hused
    exact (himage d hd).sameLog hsame
  · intro s' hs'
    obtain ⟨hr, rfl⟩ := Prod.mk.inj hs'
    exact hok _ (Prod.ext hr rfl)
  · intro err s' hs'
    obtain ⟨hr, rfl⟩ := Prod.mk.inj hs'
    exact herr err _ (Prod.ext hr rfl)

/-- A step that does not fail. -/
lemma tally_total {e : Engine} (hexec : s.engine.exec E Io.ok a = (.ok (), e))
    (himage : ∀ d, s.engine.disk.Images (a.writes E s.engine) d → DiskNumbered E d s.used)
    (hok : R { s with engine := e }) : SafeTally E config R [.act a] s := by
  refine tally_act himage (fun e' hexec' => ?_) fun err e' hexec' => ?_
  · obtain rfl := (Prod.mk.inj (hexec.symm.trans hexec')).2
    exact hok
  · cases (Prod.mk.inj (hexec.symm.trans hexec')).1

/-- Steps that write neither snapshot nor log. -/
lemma tally_quiet (plan : List Action)
    (hplan : ∀ a ∈ plan, a.quiet = true) (h : Counting E ops more m s) :
    SafeTally E config (Counting E ops more m) (plan.map .act) s := by
  induction plan generalizing s with
  | nil => exact h
  | cons a plan ih =>
    have ha := hplan a (by simp)
    have hstep : ∀ r e, s.engine.exec E Io.ok a = (r, e) →
        Counting E ops more m { s with engine := e } := by
      intro r e hexec
      have hsame := exec_quiet ha hexec
      exact ⟨h.numbered.congr hsame, hsame.db.trans h.db, hsame.nextOffset.trans h.nextOffset,
        hsame.nextSeq.trans h.nextSeq⟩
    refine Safe.cons (tally_act ?_ (fun e => hstep _ e) fun err e hexec =>
      (hstep _ e hexec).tallied) fun s' hs' => ih (fun b hb => hplan b (by simp [hb])) hs'
    intro d himage
    obtain ⟨ops', hnumbered⟩ := h.tallied
    exact hnumbered.disk.sameLog (images_quiet ha himage)

/-- Appending to the log. -/
lemma tally_log (h : Counting E ops [] m s) (hgiven : Given m entries) : SafeTally E config
      (Counting E (ops ++ entries.map Entry.toOp) (entries.filterMap Entry.numbers) m)
      [.act (.log entries)] s := by
  have hnumbered := h.numbered
  rw [append_nil] at hnumbered
  refine tally_act (fun d himage => hnumbered.log_image himage) ?_ ?_
  · intro e hexec
    have hgiven' : Given s.engine.metadata entries := by
      unfold Given
      rw [h.db, h.nextOffset, h.nextSeq]
      exact hgiven
    obtain ⟨hnumbered', hmeta⟩ := hnumbered.log_ok hgiven' hexec
    exact ⟨hnumbered', by rw [hmeta]; exact h.db, by rw [hmeta]; exact h.nextOffset,
      by rw [hmeta]; exact h.nextSeq⟩
  · intro err e hexec
    rw [log_error hexec]
    exact h.tallied

/-- The return of a call. -/
lemma tally_ack (h : Counting E ops (entries.filterMap Entry.numbers) m s) :
    SafeTally E config (Tallied E) [.ack entries] s := by
  refine ⟨?_, ?_, ?_⟩
  · intro k hk
    exact h.tallied.image config hk
  · intro s' hs'
    cases hs'
    exact ⟨ops, h.numbered⟩
  · intro err s' hs'
    cases (Prod.mk.inj hs').1

/-- **A call that logs its entries at once** is safe. -/
lemma tally_logged (before after : List Action)
    (hbefore : ∀ a ∈ before, a.quiet = true) (hafter : ∀ a ∈ after, a.quiet = true)
    (hgiven : Given m entries) (h : Counting E ops [] m s) : SafeTally E config (Tallied E)
      (withAck (before ++ .log entries :: after)) s := by
  have hnone : ∀ plan : List Action, (∀ a ∈ plan, a.quiet = true) →
      planEntries (plan.map .act) = [] := by
    intro plan hplan
    rw [planEntries, flatMap_eq_nil_iff]
    intro act hact
    obtain ⟨a, ha, rfl⟩ := mem_map.mp hact
    have hquiet := hplan a ha
    cases a with
    | log => cases hquiet
    | _ => rfl
  have hentries : planEntries ((before ++ .log entries :: after).map .act) = entries := by
    have hb := hnone before hbefore
    have ha := hnone after hafter
    simp only [planEntries] at ha hb
    simp [planEntries, flatMap_append, ha, hb]
  rw [withAck, hentries, map_append, map_cons, append_assoc]
  refine (tally_quiet before hbefore h).append fun s₁ hs₁ => ?_
  refine (tally_log hs₁ hgiven).cons fun s₂ hs₂ => ?_
  exact (tally_quiet after hafter hs₂).append fun s₃ hs₃ => tally_ack hs₃

/-- The snapshot's counters are beyond every number in use. -/
def Committed (E : Env) (ops : List WalOp) (s : Tally) : Prop :=
  Numbered E s.engine ops s.used ∧ ∀ p ∈ s.used, s.engine.metadata.db.Passed p

/-- Committing the counters. -/
lemma tally_flushMetadata (h : Counting E ops [] m s) (hlast : last + 1 = m.nextSeq) :
    SafeTally E config (Committed E ops) [.act (.flushMetadata last)] s := by
  have h₁ := h.numbered
  rw [append_nil] at h₁
  have hseq := h.nextSeq
  obtain ⟨h₂, hpassed⟩ := h₁.flushMetadata last
    (fun p hp => .inr (by have := (h₁.passed p hp).2; omega)) (by omega)
  refine tally_total rfl (fun d himage => ?_) ⟨h₂, hpassed⟩
  rcases images_single himage with rfl | rfl
  · exact h₁.disk
  · exact h₂.disk

/-- Saving the graph leaves the counters. -/
lemma tally_saveGraph (h : Committed E ops s) : SafeTally E config (Committed E ops)
      [.act .saveGraph] s := by
  obtain ⟨h₁, hpassed⟩ := h
  have h₂ : Numbered E { s.engine with
      metadata := s.engine.metadata.saveGraph (E.toSnapshotBytes s.engine.graph.graph) } ops
      s.used := { h₁ with }
  refine tally_total rfl (fun d himage => ?_) ⟨h₂, hpassed⟩
  rcases images_single himage with rfl | rfl
  · exact h₁.disk
  · exact h₂.disk

/-- Clearing the log once the counters are committed. -/
lemma tally_clearWal (h : Committed E ops s) : SafeTally E config (Tallied E)
      [.act .clearWal] s := by
  obtain ⟨h₁, hpassed⟩ := h
  exact tally_total rfl (fun d himage => diskNumbered_clearWal h₁.disk hpassed rfl himage)
    ⟨[], h₁.clearWal hpassed⟩

/-- A call begins. -/
lemma Tallied.counting (h : Tallied E s) : ∃ ops, Counting E ops [] s.engine.metadata s := by
  obtain ⟨ops, hnumbered⟩ := h
  exact ⟨ops, by rwa [append_nil], rfl, rfl, rfl⟩

/-- **A flush** is safe: the counters are committed before the log is cleared. -/
lemma tally_flush (h : Tallied E s) : SafeTally E config (Tallied E)
      (withAck [.processSeals, .drainCounters, .syncWal, .flushVectors,
        .flushMetadata (s.engine.metadata.nextSeq - 1), .saveGraph, .clearWal]) s := by
  obtain ⟨ops, hcounting⟩ := h.counting
  have hlast : s.engine.metadata.nextSeq - 1 + 1 = s.engine.metadata.nextSeq := by
    have := hcounting.numbered.last_lt
    omega
  have hplan : withAck [.processSeals, .drainCounters, .syncWal, .flushVectors,
      .flushMetadata (s.engine.metadata.nextSeq - 1), .saveGraph, .clearWal]
      = [.processSeals, .drainCounters, .syncWal, .flushVectors].map .act ++
        .act (.flushMetadata (s.engine.metadata.nextSeq - 1)) :: .act .saveGraph ::
          .act .clearWal :: [.ack []] := rfl
  rw [hplan]
  refine (tally_quiet _ (by decide) hcounting).append fun s₁ hs₁ => ?_
  refine (tally_flushMetadata hs₁ hlast).cons fun s₂ hs₂ => ?_
  refine (tally_saveGraph hs₂).cons fun s₃ hs₃ => ?_
  refine (tally_clearWal hs₃).cons fun s₄ hs₄ => ?_
  obtain ⟨ops', hcounting'⟩ := hs₄.counting
  exact tally_ack hcounting'

/-- Numbers that are taken now can be logged. -/
lemma given_allocateAll (clock : ℕ → ℕ) (ps : List PreparedRecord) (hlast : m.db.last < m.nextSeq)
    (hentries : ∀ x ∈ entries, ∀ p, x.adds = some p → p ∈ (allocateAll clock 0 ps m).1) :
    Given (allocateAll clock 0 ps m).2 entries := by
  intro x hx p hp
  obtain ⟨q, hq, rfl⟩ := Option.map_eq_some_iff.mp hp
  obtain ⟨hoffset, hseq, -⟩ := mem_allocateAll clock 0 ps m (hentries x hx q hq)
  rw [allocateAll_snd]
  exact ⟨hoffset.2, hseq.2, hlast.trans_le hseq.1⟩

/-- Taking numbers. -/
lemma Counting.allocate (h : Counting E ops [] s.engine.metadata s)
    (clock : ℕ → ℕ) (ps : List PreparedRecord) :
    Counting E ops [] (allocateAll clock 0 ps s.engine.metadata).2 { s with engine :=
      { s.engine with metadata := (allocateAll clock 0 ps s.engine.metadata).2 } } := by
  refine ⟨?_, rfl, rfl, rfl⟩
  have hn := h.numbered
  rw [allocateAll_snd]
  exact { hn with
    passed := fun p hp => ⟨(hn.passed p hp).1.trans_le (Nat.le_add_right _ _),
      (hn.passed p hp).2.trans_le (Nat.le_add_right _ _)⟩
    last_lt := hn.last_lt.trans_le (Nat.le_add_right _ _) }

/-- **A write** is safe. -/
lemma tally_write {records : List (PointOffset × Record)}
    {removed : List Action} (hremoved : ∀ a ∈ removed, a.quiet = true)
    (hgiven : Given m entries) (h : Counting E ops [] m s) : SafeTally E config (Tallied E)
      (withAck (writePlan records entries removed)) s := by
  rw [writePlan, append_assoc, append_assoc, cons_append, append_cons, singleton_append]
  refine tally_logged _ _ ?_ ?_ hgiven h
  · intro a ha
    rcases mem_append.mp ha with ha | ha
    · obtain ⟨p, -, rfl⟩ := mem_map.mp ha
      rfl
    · obtain rfl := mem_singleton.mp ha
      rfl
  · intro a ha
    rcases mem_append.mp ha with ha | ha
    · exact hremoved a ha
    · obtain rfl := mem_singleton.mp ha
      rfl

/-- **A delete** is safe. -/
lemma tally_delete (offset : PointOffset) (id : String) (h : Tallied E s) :
    SafeTally E config (Tallied E)
      (withAck [.log [.delete offset id], .removeFromIndexes id offset]) s := by
  obtain ⟨ops, hcounting⟩ := h.counting
  have hgiven : Given s.engine.metadata [.delete offset id] := by
    intro x hx p hp
    obtain rfl := mem_singleton.mp hx
    cases hp
  exact tally_logged [] [.removeFromIndexes id offset] (by simp) (by simp [Action.quiet]) hgiven
    hcounting

/-- **Every plan is safe.** -/
lemma tally_begin {r : Demand} {s s' : Tally} {plan : List Act} (hs : Tallied E s)
    (hbegin : (lossyService E config).begin r s = some (s', plan)) :
    SafeTally E config (Tallied E) plan s' := by
  obtain ⟨ops, hcounting⟩ := hs.counting
  have hlast := hcounting.numbered.last_lt
  simp only [lossyService] at hbegin
  split at hbegin
  · cases hbegin
  next e actions reply hrun =>
  cases hbegin
  cases r with
  | request vocab r =>
    cases begun_of_begin hrun with
    | inserts clock ps hnodup hnew hdim hparses =>
      refine tally_write (by simp) (given_allocateAll clock ps hlast ?_)
        (hcounting.allocate clock ps)
      intro x hx p hp
      obtain ⟨q, hq, rfl⟩ := mem_map.mp hx
      cases hp
      exact hq
    | replace now p oldOffset hold hdim =>
      refine tally_write (by simp [Action.quiet]) (given_allocateAll (fun _ => now) [p] hlast ?_)
        (hcounting.allocate (fun _ => now) [p])
      rintro x hx q hq
      obtain rfl := mem_singleton.mp hx
      cases hq
      exact mem_singleton.mpr rfl
    | delete id offset hold => exact tally_delete offset id hs
    | flush => exact tally_flush hs
  | deleteByIdAt id offset =>
    simp only [beginDemand, deleteByIdAt, deleteWhere] at hrun
    split at hrun
    · cases hrun
    split at hrun
    · cases hrun
      exact tally_delete _ id hs
    · cases hrun
  | drain =>
    cases hrun
    exact (tally_quiet [.drainCounters] (by decide) hcounting).append fun s₁ hs₁ => tally_ack hs₁

/-! ## Runs -/

/-- Files that recall the numbers give, opened again, a store at rest. -/
lemma TalliedImage.reopen (h : TalliedImage E k)
    (hs : (lossyService E config).reopen k s) : Tallied E s := by
  obtain ⟨hused, d, hsalvaged, hopen⟩ := hs
  obtain ⟨ops, hnumbered⟩ := (DiskNumbered.salvaged h hsalvaged).open hopen
  exact ⟨ops, hused ▸ hnumbered⟩

/-- An empty directory recalls nothing. -/
lemma diskNumbered_empty : DiskNumbered E {} [] :=
  ⟨[], .absent rfl, by simp, by decide⟩

/-- **Numbers are never reused.** A store is created, any number of threads insert, update, delete,
evict and flush, and the process is killed, opened again and killed any number of times; each kill
may lose the vector file. Whenever the store can be opened, its counters for offsets and sequence
numbers are beyond those of every record whose operation ever returned; so are those of the running
store between calls. **Proof sketch.** A number is logged before its call returns, and the log is
cleared only once the snapshot's counters are beyond its numbers (`tally_begin`). So what a kill
leaves recalls every number, and an open advances the counters past them (`DiskNumbered.open`). -/
theorem numbers_never_reused {T : Type} [DecidableEq T] {E : Env} {config : StoreConfig}
    {d₀ : Disk} {e₀ : Engine} {s : State T Tally Demand Act}
    (hcreated : Disk.Salvaged E config {} d₀) (hfirst : Engine.open E config d₀ = .ok e₀)
    (hrun : Reachable (lossyService E config) (fun _ => True) ⟨e₀, []⟩ s) :
    (∀ k d e, Crash (lossyService E config) s k → k.disk.Salvaged E config d →
      Engine.open E config d = .ok e →
      ∀ p ∈ s.store.used, p.1 < e.metadata.nextOffset ∧ p.2 < e.metadata.nextSeq) ∧
    ((∀ t, ¬ (s.pc t).Runs) → ∀ p ∈ s.store.used,
      p.1 < s.store.engine.metadata.nextOffset ∧ p.2 < s.store.engine.metadata.nextSeq) := by
  have himage : ∀ s k, Tallied E s → (lossyService E config).Image s none k →
      TalliedImage E k := fun s k hs hk => hs.image config hk
  have hnew : Tallied E ⟨e₀, []⟩ := (diskNumbered_empty.salvaged hcreated).open hfirst
  have hinv := hrun.inv (fun _ _ _ _ _ hs hbegin => tally_begin hs hbegin) himage
    (fun _ _ hk hs => hk.reopen hs) hnew
  refine ⟨?_, ?_⟩
  · intro k d e hkill hsalvaged hopen
    have hused : k.used = s.store.used := by
      cases hkill with
      | rest _ hk | acting _ hk | done _ hk => exact hk.1
    obtain ⟨ops, hnumbered⟩ :=
      (DiskNumbered.salvaged (hinv.image himage hkill) hsalvaged).open hopen
    rw [← hused]
    exact hnumbered.passed
  · intro hidle
    obtain ⟨ops, hnumbered⟩ := hinv.rest hidle
    exact hnumbered.passed

/-- The calls of one thread on a new store. -/
def sampleTally (rs : List Request) (e : Engine) : Tally :=
  (rs.map (Demand.request {})).foldl (lossyService sampleEnv sampleConfig).call ⟨e, []⟩

/-- Requests of one thread. -/
lemma reachable_sampleTally (rs : List Request) (e : Engine) :
    Reachable (lossyService sampleEnv sampleConfig) (fun _ => True) ⟨e, []⟩
      ⟨sampleTally rs e, fun _ : Unit => .idle⟩ :=
  Reachable.init.calls () _ fun _ _ => trivial

/-- A kill while nothing is being executed that loses the vector file. -/
lemma crash_lost {E : Env} {T : Type} (s : Tally) :
    Crash (lossyService E config) ⟨s, fun _ : T => .idle⟩
      ⟨{ s.engine.disk with vectors := none }, s.used⟩ :=
  .rest (fun _ h => h) ⟨rfl, s.engine.disk, ⟨rfl, rfl⟩, rfl⟩

/-- Two inserts, the first of which is deleted again. -/
def sampleInserts : List Request :=
  [.insert 5 (sampleInput "a" "" none), .deleteById "a", .insert 6 (sampleInput "b" "" none)]

set_option maxRecDepth 10000

/-- Two inserts, the first one deleted, and a kill that loses the vector file: neither record is
there at the next open, and neither's numbers are given out again. -/
theorem numbers_never_reused_lost : ∃ (e₀ e : Engine) (s : Tally),
    Engine.open sampleEnv sampleConfig {} = .ok e₀ ∧ s = sampleTally sampleInserts e₀ ∧
    Engine.open sampleEnv sampleConfig { s.engine.disk with vectors := none } = .ok e ∧
    s.used = [(0, 1), (1, 2)] ∧ e.metadata.records.toList = [] ∧
    ∀ p ∈ s.used, p.1 < e.metadata.nextOffset ∧ p.2 < e.metadata.nextSeq := by
  obtain ⟨e₀, hfirst, hused, htest⟩ := exists_opened (P := fun e₀ =>
    let s := sampleTally sampleInserts e₀
    s.used = [(0, 1), (1, 2)] ∧ passes (fun e => e.metadata.records.toList = [])
      (Engine.open sampleEnv sampleConfig { s.engine.disk with vectors := none }))
    (by decide +kernel)
  obtain ⟨e, hopen, hempty⟩ := exists_ok_of_passes htest
  refine ⟨e₀, e, _, hfirst, rfl, hopen, hused, of_decide_eq_true hempty, ?_⟩
  exact (numbers_never_reused (.lost ⟨rfl, rfl⟩) hfirst (reachable_sampleTally sampleInserts e₀)).1
    _ _ e (crash_lost _) (.lost ⟨rfl, rfl⟩) hopen

end TurboMemory
