import TurboMemory.Engine.Log
import TurboMemory.Engine.Open
import TurboMemory.Storage.WalReadback

/-!
# What is on disk

The invariant of the files of a store, in terms of the log of all operations ever logged: a
first part of it is in the metadata snapshot, the rest is pending in the log file, in front of
which there can still be operations of the first part. It holds for an open store (`Durable`) and,
in a weaker form, for what a kill leaves (`DiskInv`); every step keeps it.

## Implementation notes

Pending inserts and replaces have sequence numbers beyond the snapshot's. An operation that
is in the snapshot and still in the log file is stale: replaying it changes nothing. For an
insert or replace that is because its sequence number is not beyond the snapshot's; a delete
has none, but its offset has no record and never gets one again.
-/

set_option autoImplicit false

namespace TurboMemory

open Framing List Function VectorStore Action Option

/-! ## Snapshot and log -/

/-- The metadata snapshot holds the records of `flushed`, and its counters are beyond them. -/
structure Snapshot (db : Redb) (flushed : List Entry) : Prop where
  records : ∀ o : PointOffset, db.records[o]? = (placed flushed)[o]?.map MetaRecord.ofRecord
  fresh : db.lastAppliedSeq = none → db = {} ∧ flushed = []
  counters : ∀ last, db.lastAppliedSeq = some last → ∃ offset seq, db.nextOffset = some offset ∧
    db.nextSeq = some seq ∧ last < seq ∧
    ∀ x ∈ flushed, ∀ p, x.adds = some p → p.1 < offset ∧ p.2.insertSeq ≤ last

/-- Replaying the operation changes nothing. -/
def Stale (last : ℕ) (flushed : List Entry) : WalOp → Prop
  | .insert _ seq _ _ => seq ≤ last
  | .replace _ _ seq _ _ => seq ≤ last
  | .delete offset => (placed flushed)[offset]? = none ∧
    ∃ x ∈ flushed, ∃ r, x.adds = some (offset, r)
  | .flush _ => True

/-- The last sequence number of a snapshot. -/
def Redb.last (db : Redb) : ℕ := db.lastAppliedSeq.getD 0

/-- The log is in two parts: the snapshot has the first, the log file the second, in front of
it `stale` operations. -/
structure Logged (db : Redb) (flushed pending : List Entry) (stale : List WalOp) : Prop where
  snapshot : Snapshot db flushed
  stale_of_mem : ∀ op ∈ stale, Stale db.last flushed op
  last_lt_seq : ∀ x ∈ pending, ∀ p, x.adds = some p → db.last < p.2.insertSeq
  ordered : Ordered (flushed ++ pending)
  closed : Closed (flushed ++ pending)

/-- The operations of the log file. -/
def walOps (stale : List WalOp) (pending : List Entry) : List WalOp :=
  stale ++ pending.map Entry.toOp

/-- Every vector of the log is in its slot, within the file. -/
def Stored (file : VectorFile) (dim : ℕ) (log : List Entry) : Prop :=
  ∀ x ∈ log, ∀ p, x.adds = some p → file.slot p.1 = p.2.embedding ∧ p.1 < file.room dim

/-- The vector file of a store: its header counts every vector of the snapshot. -/
structure VectorsReady (dim : ℕ) (file : VectorFile) (flushed pending : List Entry) : Prop where
  len : vectorHeaderSize ≤ file.len
  header : ∃ count, file.header = some ⟨dim, count⟩ ∧
    ∀ x ∈ flushed, ∀ p, x.adds = some p → p.1 < count
  shape : ∀ o, (file.slot o).length = dim
  stored : Stored file dim (flushed ++ pending)

/-! ## Open stores -/

/-- The files of an open store. -/
structure Durable (E : Env) (e : Engine) (flushed pending : List Entry) (stale : List WalOp) :
    Prop where
  logged : Logged e.metadata.db flushed pending stale
  wal : e.wal.Holds E.codec (walOps stale pending) []
  dim_pos : 0 < e.config.dimension
  dim : e.vectors.dim = e.config.dimension
  mapped : e.vectors.mapped = true
  slots : e.vectors.slots = e.vectors.file.room e.config.dimension
  vectors : VectorsReady e.config.dimension e.vectors.file flushed pending
  counted : ∀ x ∈ flushed ++ pending, ∀ p, x.adds = some p → p.1 < e.vectors.count
  nextOffset : ∀ x ∈ flushed ++ pending, ∀ p, x.adds = some p → p.1 < e.metadata.nextOffset
  nextSeq : ∀ x ∈ flushed ++ pending, ∀ p, x.adds = some p → p.2.insertSeq < e.metadata.nextSeq
  last_lt : e.metadata.db.last < e.metadata.nextSeq

/-! ## What a kill leaves -/

/-- The log file: missing, without a complete header, or with the frames of the operations and
a bad tail. -/
inductive WalImage (C : WalCodec) (ops : List WalOp) : Option (List UInt8) → Prop
  | absent : ops = [] → WalImage C ops none
  | short (bytes : List UInt8) : ops = [] → bytes.length < walHeaderSize →
      WalImage C ops (some bytes)
  | frames (tail : List UInt8) : (∀ op ∈ ops, Fits C.format op) → readFrame C.format tail = none →
      WalImage C ops (some (headerBytes walVersion ++ (Framing.frames C.format ops ++ tail)))

/-- The log of an open store. -/
lemma Wal.Holds.image {C : WalCodec} {w : Wal} {ops : List WalOp} {tail : List UInt8}
    (h : w.Holds C ops tail) : WalImage C ops (some w.file.bytes) := by
  rw [h.bytes]
  exact .frames tail h.fits h.bad

/-- The vector file: missing or without a header as long as nothing was ever logged. -/
inductive VectorsImage (dim : ℕ) (db : Redb) (flushed pending : List Entry) :
    Option VectorFile → Prop
  | creating (file : Option VectorFile) : (∀ f, file = some f → f.header = none) →
      db.lastAppliedSeq = none → flushed = [] → pending = [] →
      VectorsImage dim db flushed pending file
  | ready (file : VectorFile) : VectorsReady dim file flushed pending →
      VectorsImage dim db flushed pending (some file)

/-- The files a kill leaves. -/
structure DiskInv (E : Env) (dim : ℕ) (d : Disk) (flushed pending : List Entry)
    (stale : List WalOp) : Prop where
  logged : Logged d.redb flushed pending stale
  wal : WalImage E.codec (walOps stale pending) d.wal
  vectors : VectorsImage dim d.redb flushed pending d.vectors

/-- The files a kill leaves hold the log. -/
def DiskHolds (E : Env) (dim : ℕ) (d : Disk) (log : List Entry) : Prop :=
  ∃ flushed pending stale, log = flushed ++ pending ∧ DiskInv E dim d flushed pending stale

variable {E : Env} {e e' : Engine} {flushed pending : List Entry} {stale : List WalOp}

/-- **A store at rest**: its files hold the log. -/
lemma Durable.disk (h : Durable E e flushed pending stale) :
    DiskInv E e.config.dimension e.disk flushed pending stale where
  logged := h.logged
  wal := h.wal.image
  vectors := .ready _ h.vectors

/-! ## Writes one by one -/

variable {d d' : Disk}

/-- What every write of a sequence keeps, torn or not, holds in every image. -/
lemma Disk.Images.invariant {P : Disk → Prop} {ws : List Write} (h : d.Images ws d') (hd : P d)
    (hstep : ∀ w ∈ ws, ∀ d d', P d → d.Torn w d' → P d') : P d' := by
  induction h with
  | nil => exact hd
  | here htorn => exact hstep _ (by simp) _ _ hd htorn
  | later _ ih =>
    exact ih (hstep _ (by simp) _ _ hd (.all _)) fun w hw => hstep w (by simp [hw])

/-- A write that is not an append happens or does not. -/
lemma Disk.Torn.eq_or {w : Write} (h : d.Torn w d')
    (hw : ∀ bytes, w ≠ .walAppend bytes := by intro bytes; simp) : d' = d ∨ d' = d.write w := by
  cases h with
  | none => exact .inl rfl
  | part bytes n => exact absurd rfl (hw bytes)
  | all => exact .inr rfl

/-! ## Storing a vector -/

/-- A write of the vector file that can be made at any time: it makes room, stamps the snapshot's
count, or stores a vector where none was logged. -/
def GoodVectorWrite (dim : ℕ) (flushed pending : List Entry) (len : ℕ) : VectorWrite → Prop
  | .setLen n => n = len
  | .stamp header => header.dimension = dim ∧
    ∀ x ∈ flushed, ∀ p, x.adds = some p → p.1 < header.count
  | .store offset vector => vector.length = dim ∧
    ∀ x ∈ flushed ++ pending, ∀ p, x.adds = some p → p.1 ≠ offset

variable {file : VectorFile} {dim len : ℕ} {ws : List VectorWrite}

section

variable (h : VectorsReady dim file flushed pending) (hlen : file.len ≤ len)
include h hlen

/-- One write. -/
lemma VectorsReady.write {w : VectorWrite}
    (hw : GoodVectorWrite dim flushed pending len w) :
    VectorsReady dim (file.write w) flushed pending ∧ (file.write w).len ≤ len := by
  obtain ⟨hmin, ⟨count, hheader, hcount⟩, hshape, hstored⟩ := h
  cases w with
  | setLen n =>
    obtain rfl : n = len := hw
    refine ⟨⟨?_, ⟨count, hheader, hcount⟩, hshape, ?_⟩, le_rfl⟩
    · exact hmin.trans hlen
    · intro x hx p hp
      obtain ⟨hslot, hroom⟩ := hstored x hx p hp
      refine ⟨hslot, lt_of_lt_of_le hroom ?_⟩
      exact Nat.div_le_div_right (Nat.sub_le_sub_right hlen _)
  | stamp header =>
    obtain ⟨rfl, hlive⟩ := hw
    exact ⟨⟨hmin, ⟨header.count, rfl, hlive⟩, hshape, hstored⟩, hlen⟩
  | store offset vector =>
    refine ⟨⟨hmin, ⟨count, hheader, hcount⟩, ?_, ?_⟩, hlen⟩
    · intro o
      show (update file.slot offset vector o).length = dim
      by_cases ho : o = offset
      · rw [ho, update_self, hw.1]
      · rw [update_of_ne ho, hshape o]
    · intro x hx p hp
      obtain ⟨hslot, hroom⟩ := hstored x hx p hp
      refine ⟨?_, hroom⟩
      rw [← hslot]
      exact update_of_ne (hw.2 x hx p hp) _ _

/-- Several writes. -/
lemma VectorsReady.writes
    (hws : ∀ w ∈ ws, GoodVectorWrite dim flushed pending len w) :
    VectorsReady dim (ws.foldl VectorFile.write file) flushed pending := by
  induction ws generalizing file with
  | nil => exact h
  | cons w ws ih =>
    obtain ⟨hw, hwlen⟩ := h.write hlen (hws w (by simp))
    exact ih hw hwlen fun w' hw' => hws w' (by simp [hw'])

end

/-- Good writes of the vector file keep the invariant, wherever a kill falls. -/
lemma DiskInv.vectorWrites
    (h : DiskInv E dim d flushed pending stale) (hfile : d.vectors = some file)
    (hready : VectorsReady dim file flushed pending) (hlen : file.len ≤ len)
    (hws : ∀ w ∈ ws, GoodVectorWrite dim flushed pending len w)
    (himage : d.Images (ws.map .vectors) d') : DiskInv E dim d' flushed pending stale := by
  suffices hinv : d'.redb = d.redb ∧ d'.wal = d.wal ∧ ∃ f, d'.vectors = some f ∧
      VectorsReady dim f flushed pending ∧ f.len ≤ len by
    obtain ⟨hredb, hwal, f, hf, hr, -⟩ := hinv
    exact ⟨hredb ▸ h.logged, hwal ▸ h.wal, by rw [hf]; exact .ready f hr⟩
  refine himage.invariant (P := fun d' => d'.redb = d.redb ∧ d'.wal = d.wal ∧
    ∃ f, d'.vectors = some f ∧ VectorsReady dim f flushed pending ∧ f.len ≤ len)
    ⟨rfl, rfl, file, hfile, hready, hlen⟩ ?_
  rintro w hw d₁ d₂ ⟨hredb, hwal, f, hf, hr, hl⟩ htorn
  obtain ⟨vw, hvw, rfl⟩ := mem_map.mp hw
  rcases htorn.eq_or with rfl | rfl
  · exact ⟨hredb, hwal, f, hf, hr, hl⟩
  · obtain ⟨hr', hl'⟩ := hr.write hl (hws vw hvw)
    exact ⟨hredb, hwal, f.write vw, by simp [Disk.write, hf], hr', hl'⟩

/-- No record of the log is at the offset. -/
def Unlogged (log : List Entry) (offset : PointOffset) : Prop :=
  ∀ x ∈ log, ∀ p, x.adds = some p → p.1 ≠ offset

/-- The vector is in its slot, within the file, and counted. -/
def Held (e : Engine) (offset : PointOffset) (vector : Embedding) : Prop :=
  e.vectors.file.slot offset = vector ∧ offset < e.vectors.slots ∧ offset < e.vectors.count

/-- The length of the vector file after a `put`. -/
def VectorStore.lenAfter (vs : VectorStore) (offset : PointOffset) : ℕ :=
  if vs.slots ≤ offset then (checkedLen (vs.grownSlots offset) vs.dim).getD vs.file.len
  else vs.file.len

/-- A resize does not shrink the file. -/
lemma Durable.len_le_lenAfter (h : Durable E e flushed pending stale) (offset : ℕ) :
    e.vectors.file.len ≤ e.vectors.lenAfter offset := by
  rw [lenAfter]
  split
  · next hroom =>
    cases hlen : checkedLen (e.vectors.grownSlots offset) e.vectors.dim with
    | none => exact le_rfl
    | some len =>
      have hpos : 0 < e.vectors.dim := h.dim ▸ h.dim_pos
      obtain ⟨hmin, hnew⟩ := checkedLen_room hpos hlen
      have hold : e.vectors.slots =
          (e.vectors.file.len - vectorHeaderSize) / (e.vectors.dim * 4) := by
        rw [h.slots, VectorFile.room, h.dim]
      have hlt : e.vectors.slots < e.vectors.grownSlots offset := by
        rw [grownSlots]
        omega
      show e.vectors.file.len ≤ len
      by_contra hcon
      have hle : (len - vectorHeaderSize) / (e.vectors.dim * 4)
          ≤ (e.vectors.file.len - vectorHeaderSize) / (e.vectors.dim * 4) :=
        Nat.div_le_div_right (by omega)
      omega
  · exact le_rfl

variable {offset : PointOffset} {vector : Embedding} {err : StorageError}

section

variable (h : Durable E e flushed pending stale)
include h

/-- The writes of a `put` at a new offset are good. -/
lemma Durable.good_putWrites
    (hfresh : Unlogged (flushed ++ pending) offset) (hdim : vector.length = e.vectors.dim) :
    ∀ w ∈ e.vectors.putWrites offset vector,
      GoodVectorWrite e.config.dimension flushed pending (e.vectors.lenAfter offset) w := by
  intro w hw
  have hcount : ∀ x ∈ flushed, ∀ p, x.adds = some p → p.1 < e.vectors.count :=
    fun x hx => h.counted x (by simp [hx])
  rw [putWrites, mem_append] at hw
  rcases hw with hw | hw
  · by_cases hroom : e.vectors.slots ≤ offset
    · rw [if_pos hroom] at hw
      cases hlen : checkedLen (e.vectors.grownSlots offset) e.vectors.dim with
      | none => simp [hlen] at hw
      | some len =>
        have hafter : e.vectors.lenAfter offset = len := by
          simp [lenAfter, hroom, hlen]
        simp only [hlen, map_some, getD_some, mem_cons, not_mem_nil, or_false] at hw
        rcases hw with rfl | rfl
        · exact hafter.symm
        · exact ⟨h.dim, hcount⟩
    · simp [hroom] at hw
  · obtain rfl := mem_singleton.mp hw
    exact ⟨hdim.trans h.dim, hfresh⟩

/-- **Storing a vector at a new offset**, wherever a kill falls. -/
lemma Durable.put_image (hfresh : Unlogged (flushed ++ pending) offset) {d : Disk}
    (himage : e.disk.Images ((put offset vector).writes E e) d) :
    DiskInv E e.config.dimension d flushed pending stale := by
  rw [writes] at himage
  rcases put_cases e.vectors h.mapped offset vector with ⟨err, hput⟩ | ⟨hdim, -, hput⟩
  · simp only [hput] at himage
    cases himage
    exact h.disk
  · simp only [hput] at himage
    exact h.disk.vectorWrites rfl h.vectors (h.len_le_lenAfter offset)
      (h.good_putWrites hfresh hdim) himage

/-- A `put` that fails changes nothing. -/
lemma Durable.put_error
    (hexec : e.exec E Io.ok (.put offset vector) = (.error err, e')) : e' = e := by
  rcases put_cases e.vectors h.mapped offset vector with ⟨err', hput⟩ | ⟨-, -, hput⟩
  · simp only [Engine.exec, Io.ok, hput, Prod.mk.injEq] at hexec
    exact hexec.2.symm
  · simp only [Engine.exec, Io.ok, hput, Prod.mk.injEq, reduceCtorEq, false_and] at hexec

/-- **A vector stored at a new offset** is there, and everything else is as before. -/
lemma Durable.put_ok (hfresh : Unlogged (flushed ++ pending) offset)
    (hexec : e.exec E Io.ok (.put offset vector) = (.ok (), e')) :
    Durable E e' flushed pending stale ∧ Held e' offset vector ∧
    (∀ o v, o ≠ offset → Held e o v → Held e' o v) ∧ e' = { e with vectors := e'.vectors } := by
  rcases put_cases e.vectors h.mapped offset vector with
    ⟨err, hput⟩ | ⟨hdim, hgrow, hput⟩
  · simp only [Engine.exec, Io.ok, hput, Prod.mk.injEq, reduceCtorEq, false_and] at hexec
  simp only [Engine.exec, Io.ok, hput, Prod.mk.injEq, true_and] at hexec
  subst hexec
  have hpos : 0 < e.vectors.dim := h.dim ▸ h.dim_pos
  have hready := h.vectors.writes (h.len_le_lenAfter offset) (h.good_putWrites hfresh hdim)
  -- The resize only changes length and header.
  obtain ⟨hslot, hroom⟩ :
      ((e.vectors.putWrites offset vector).foldl VectorFile.write e.vectors.file).slot
        = update e.vectors.file.slot offset vector ∧
      ((e.vectors.putWrites offset vector).foldl VectorFile.write e.vectors.file).room
        e.config.dimension = e.vectors.slotsAfter offset := by
    rw [putWrites, slotsAfter]
    split
    · next hfull =>
      obtain ⟨len, hlen⟩ := isSome_iff_exists.mp (hgrow hfull)
      have := (checkedLen_room hpos hlen).2
      simp only [hlen, map_some, getD_some]
      exact ⟨rfl, by rw [← this, ← h.dim]; rfl⟩
    · exact ⟨rfl, h.slots.symm⟩
  have hle := slots_le_slotsAfter e.vectors offset
  refine ⟨{ h with slots := hroom.symm, vectors := hready, counted := ?_ }, ⟨?_, ?_, ?_⟩, ?_, rfl⟩
  · intro x hx p hp
    exact lt_of_lt_of_le (h.counted x hx p hp) (le_max_left _ _)
  · rw [hslot, update_self]
  · exact lt_slotsAfter e.vectors offset
  · exact lt_of_lt_of_le (Nat.lt_succ_self _) (le_max_right _ _)
  · rintro o v hne ⟨hv, hslots, hcount⟩
    refine ⟨?_, lt_of_lt_of_le hslots hle, lt_of_lt_of_le hcount (le_max_left _ _)⟩
    rw [hslot, update_of_ne hne, hv]

end

/-! ## Appending to the log -/

/-- The entries of a step whose frames are complete in the log file of `d`. -/
def Action.logged (E : Env) (e : Engine) (d : Disk) : Action → List Entry
  | .log entries => entries.take (wholeFrames E.codec.format (entries.map Entry.toOp)
      ((d.wal.getD []).length - e.wal.file.bytes.length))
  | _ => []

/-- Entries that can be logged next: their vectors are stored, and their offsets and sequence
numbers are new. -/
structure Loggable (e : Engine) (flushed pending entries : List Entry) : Prop where
  ordered : Ordered (flushed ++ (pending ++ entries))
  closed : Closed (flushed ++ (pending ++ entries))
  held : ∀ x ∈ entries, ∀ p, x.adds = some p → Held e p.1 p.2.embedding
  new : ∀ x ∈ entries, ∀ p, x.adds = some p → p.1 < e.metadata.nextOffset ∧
    p.2.insertSeq < e.metadata.nextSeq ∧ e.metadata.db.last < p.2.insertSeq

variable {entries : List Entry} {d : Disk}

/-- A first part of the entries. -/
lemma Loggable.take (h : Loggable e flushed pending entries) (n : ℕ) :
    Loggable e flushed pending (entries.take n) := by
  have hsplit : flushed ++ (pending ++ entries)
      = flushed ++ (pending ++ entries.take n) ++ entries.drop n := by simp
  refine ⟨(hsplit ▸ h.ordered).left, (hsplit ▸ h.closed).left, ?_, ?_⟩
  · intro x hx
    exact h.held x (mem_of_mem_take hx)
  · intro x hx
    exact h.new x (mem_of_mem_take hx)

/-- More entries are logged. -/
lemma Logged.append {db : Redb} (h : Logged db flushed pending stale)
    (hord : Ordered (flushed ++ (pending ++ entries)))
    (hclosed : Closed (flushed ++ (pending ++ entries)))
    (hlast : ∀ x ∈ entries, ∀ p, x.adds = some p → db.last < p.2.insertSeq) :
    Logged db flushed (pending ++ entries) stale := by
  refine ⟨h.snapshot, h.stale_of_mem, ?_, hord, hclosed⟩
  intro x hx
  rcases mem_append.mp hx with hx | hx
  · exact h.last_lt_seq x hx
  · exact hlast x hx

/-- A fact about the entries logged before and about the new ones. -/
lemma forall_mem_append₃ {P : Entry → Prop}
    (h : ∀ x ∈ flushed ++ pending, P x) (hnew : ∀ x ∈ entries, P x) :
    ∀ x ∈ flushed ++ (pending ++ entries), P x := by
  intro x hx
  rw [← append_assoc, mem_append] at hx
  rcases hx with hx | hx
  · exact h x hx
  · exact hnew x hx

/-- Their vectors were stored before. -/
lemma Durable.vectorsReady_append (h : Durable E e flushed pending stale)
    (hloggable : Loggable e flushed pending entries) :
    VectorsReady e.config.dimension e.vectors.file flushed (pending ++ entries) := by
  refine { h.vectors with stored := forall_mem_append₃ h.vectors.stored ?_ }
  intro x hx p hp
  obtain ⟨hslot, hroom, -⟩ := hloggable.held x hx p hp
  exact ⟨hslot, h.slots ▸ hroom⟩

/-- The operations of the log file. -/
lemma walOps_append (stale : List WalOp) (pending entries : List Entry) :
    walOps stale (pending ++ entries) = walOps stale pending ++ entries.map Entry.toOp := by
  simp [walOps]

/-- No frame is whole in no bytes. -/
lemma wholeFrames_zero (C : WalCodec) (ops : List WalOp) : wholeFrames C.format ops 0 = 0 := by
  cases ops with
  | nil => rfl
  | cons op ops => simp [wholeFrames]

/-- Nothing is written, nothing logged. -/
lemma Action.logged_self (e : Engine) (a : Action) : a.logged E e e.disk = [] := by
  cases a with
  | log entries => simp [logged, Engine.disk, wholeFrames_zero]
  | _ => rfl

/-- The images of an append: some number of bytes of it are there. -/
lemma images_append {bytes buf : List UInt8} (hwal : d.wal = some bytes)
    (h : d.Images [.walAppend buf] d') :
    ∃ n, n ≤ buf.length ∧ d' = { d with wal := some (bytes ++ buf.take n) } := by
  obtain ⟨n, hn⟩ : ∃ n, d' = { d with wal := some (bytes ++ buf.take n) } := by
    cases h with
    | here htorn =>
      cases htorn with
      | none => exact ⟨0, by rw [take_zero, append_nil, ← hwal]⟩
      | part _ n => exact ⟨n, by simp [Disk.write, hwal]⟩
      | all => exact ⟨buf.length, by simp [Disk.write, hwal]⟩
    | later hrest =>
      cases hrest
      exact ⟨buf.length, by simp [Disk.write, hwal]⟩
  refine ⟨min n buf.length, Nat.min_le_right _ _, ?_⟩
  rw [hn, take_eq_take_min]

/-- A log file behind which some bytes of new frames were written holds the operations whose
frames are complete. -/
lemma walImage_append {C : WalCodec} {w : Wal} {ops new : List WalOp} (h : w.Holds C ops [])
    (hfits : ∀ op ∈ new, Fits C.format op) (n : ℕ) :
    WalImage C (ops ++ new.take (wholeFrames C.format new n))
      (some (w.file.bytes ++ (frames C.format new).take n)) := by
  obtain ⟨tail, hbytes, hbad⟩ := take_frames hfits n
  rw [hbytes, h.bytes, append_nil, append_assoc, ← append_assoc (frames _ _), ← frames_append]
  refine .frames tail ?_ hbad
  intro op hop
  rcases mem_append.mp hop with hop | hop
  · exact h.fits op hop
  · exact hfits op (mem_of_mem_take hop)

/-- **Appending to the log**, wherever a kill falls: the entries whose frames are complete have
been logged. -/
lemma Durable.log_image (h : Durable E e flushed pending stale)
    (hloggable : Loggable e flushed pending entries)
    (himage : e.disk.Images ((log entries).writes E e) d) : DiskInv E e.config.dimension d flushed
      (pending ++ (log entries).logged E e d) stale := by
  simp only [writes] at himage
  split at himage
  swap
  · cases himage
    rw [logged_self, append_nil]
    exact h.disk
  next buf hbuf =>
  obtain ⟨rfl, hfits⟩ := Wal.foldlM_writeOpToBuffer hbuf
  rw [nil_append] at himage
  obtain ⟨n, hn, rfl⟩ := images_append rfl himage
  have htake := hloggable.take (wholeFrames E.codec.format (entries.map Entry.toOp) n)
  have hlogged : (log entries).logged E e { e.disk with
      wal := some (e.wal.file.bytes ++ (frames E.codec.format (entries.map Entry.toOp)).take n) }
      = entries.take (wholeFrames E.codec.format (entries.map Entry.toOp) n) := by
    simp [Action.logged, Nat.min_eq_left hn]
  rw [hlogged]
  refine ⟨h.logged.append htake.ordered htake.closed fun x hx p hp => (htake.new x hx p hp).2.2,
    ?_, .ready _ (h.vectorsReady_append htake)⟩
  rw [walOps_append, map_take]
  exact walImage_append h.wal hfits n

/-- An append that fails, no system call failing, wrote nothing. -/
lemma Engine.log_error (hexec : e.exec E Io.ok (.log entries) = (.error err, e')) : e' = e := by
  simp only [Engine.exec] at hexec
  split at hexec
  · next err' wal happ =>
    cases hexec
    rw [Wal.appendBatch_refused happ]
  · simp [Io.ok] at hexec

/-- **A complete append**: the entries have been logged. -/
lemma Durable.log_ok (h : Durable E e flushed pending stale)
    (hloggable : Loggable e flushed pending entries)
    (hexec : e.exec E Io.ok (.log entries) = (.ok (), e')) :
    Durable E e' flushed (pending ++ entries) stale ∧ e' = { e with wal := e'.wal } ∧
    (log entries).logged E e e'.disk = entries := by
  simp only [Engine.exec, Io.ok] at hexec
  split at hexec
  · cases hexec
  next wal happ =>
  simp only [Bool.not_true, Bool.and_false, Bool.false_eq_true, if_false, Prod.mk.injEq,
    true_and] at hexec
  subst hexec
  have hwal : wal.Holds E.codec (walOps stale (pending ++ entries)) [] := by
    rw [walOps_append]
    exact h.wal.appendBatch happ
  refine ⟨{ h with
    logged := h.logged.append hloggable.ordered hloggable.closed
      fun x hx p hp => (hloggable.new x hx p hp).2.2
    wal := hwal
    vectors := h.vectorsReady_append hloggable
    counted := forall_mem_append₃ h.counted fun x hx p hp => (hloggable.held x hx p hp).2.2
    nextOffset := forall_mem_append₃ h.nextOffset fun x hx p hp => (hloggable.new x hx p hp).1
    nextSeq := forall_mem_append₃ h.nextSeq fun x hx p hp => (hloggable.new x hx p hp).2.1 },
    rfl, ?_⟩
  · have hbytes : wal.file.bytes
        = e.wal.file.bytes ++ frames E.codec.format (entries.map Entry.toOp) := by
      rw [hwal.bytes, h.wal.bytes, walOps_append, frames_append]
      simp
    simp only [Action.logged, Engine.disk, getD_some, hbytes, length_append,
      Nat.add_sub_cancel_left]
    rw [wholeFrames_eq_length _ (le_rfl), length_map, take_length]

/-! ## Flushing -/

/-- The files hold the whole log. -/
lemma DiskInv.holds {dim : ℕ} (h : DiskInv E dim d flushed pending stale) :
    DiskHolds E dim d (flushed ++ pending) :=
  ⟨flushed, pending, stale, rfl, h⟩

/-- A step that writes nothing leaves one image. -/
lemma images_nil (h : d.Images [] d') : d' = d := by
  cases h
  rfl

/-- A kill before the first write. -/
lemma Disk.Images.self (d : Disk) (ws : List Write) : d.Images ws d := by
  cases ws with
  | nil => exact .nil d
  | cons w ws => exact .here (.none w)

/-- A kill falls before a write that is not an append, or after it. -/
lemma images_cons {w : Write} {ws : List Write} (h : d.Images (w :: ws) d')
    (hw : ∀ bytes, w ≠ .walAppend bytes := by intro bytes; simp) :
    d' = d ∨ (d.write w).Images ws d' := by
  cases h with
  | here htorn => exact (htorn.eq_or hw).imp_right (by rintro rfl; exact .self _ _)
  | later hrest => exact .inr hrest

/-- A step with one write that is not an append leaves two images. -/
lemma images_single {w : Write} (h : d.Images [w] d')
    (hw : ∀ bytes, w ≠ .walAppend bytes := by intro bytes; simp) : d' = d ∨ d' = d.write w :=
  (images_cons h hw).imp_right images_nil

/-- The header counts every vector of the log. -/
def Stamped (e : Engine) (log : List Entry) : Prop :=
  ∃ count, e.vectors.file.header = some ⟨e.config.dimension, count⟩ ∧
    ∀ x ∈ log, ∀ p, x.adds = some p → p.1 < count

/-- A kill in a flush of the vectors. -/
lemma Durable.flushVectors_image (h : Durable E e flushed pending stale)
    (himage : e.disk.Images (flushVectors.writes E e) d) :
    DiskInv E e.config.dimension d flushed pending stale := by
  suffices hgood : ∀ w ∈ [.stamp ⟨e.vectors.dim, e.vectors.count⟩],
      GoodVectorWrite e.config.dimension flushed pending e.vectors.file.len w from
    h.disk.vectorWrites rfl h.vectors (le_rfl) hgood himage
  intro w hw
  obtain rfl := mem_singleton.mp hw
  exact ⟨h.dim, fun x hx => h.counted x (by simp [hx])⟩

/-- **Flushing the vectors** stamps a header that counts them all. -/
lemma Durable.flushVectors_ok (h : Durable E e flushed pending stale) :
    ∃ e', e.exec E Io.ok .flushVectors = (.ok (), e') ∧ Durable E e' flushed pending stale ∧
    Stamped e' (flushed ++ pending) ∧ e' = { e with vectors := e'.vectors } ∧
    e'.vectors.count = e.vectors.count ∧
    e'.disk = (flushVectors.writes E e).foldl Disk.write e.disk := by
  obtain ⟨count, hheader, -⟩ := h.vectors.header
  have hflush : e.vectors.flush = (.ok (), { e.vectors with
      file := e.vectors.file.write (.stamp ⟨e.config.dimension, e.vectors.count⟩) }) := by
    simp [flush, h.mapped, VectorFile.write, hheader]
  refine ⟨{ e with vectors := { e.vectors with
      file := e.vectors.file.write (.stamp ⟨e.config.dimension, e.vectors.count⟩) } },
    by simp only [Engine.exec, hflush], ?_, ?_, rfl, rfl, ?_⟩
  · exact { h with vectors := { h.vectors with
      header := ⟨e.vectors.count, rfl, fun x hx => h.counted x (by simp [hx])⟩ } }
  · exact ⟨e.vectors.count, rfl, h.counted⟩
  · simp [writes, Disk.write, Engine.disk, h.dim]

/-- The metadata cache holds the records of the log. -/
structure Cached (m : MetadataStore) (flushed pending : List Entry) : Prop where
  clean : m.Clean
  records : ∀ o : PointOffset,
    m.records[o]? = (placed (flushed ++ pending))[o]?.map MetaRecord.ofRecord
  dirty : pending ≠ [] → m.dirty ≠ []

/-- A flush either does nothing, with nothing pending, or commits the counters. -/
lemma MetadataStore.flush_db (m : MetadataStore) (last : ℕ) :
    (m.flush last).db.lastAppliedSeq = some last ∧ ((m.flush last).db = m.db ∧ m.dirty = [] ∨
      (m.flush last).db.nextOffset = some m.nextOffset ∧
      (m.flush last).db.nextSeq = some m.nextSeq) := by
  rw [MetadataStore.flush]
  split
  · next hskip => exact ⟨hskip.2.1, .inl ⟨rfl, hskip.1⟩⟩
  · exact ⟨rfl, .inr ⟨rfl, rfl⟩⟩

/-- A flush leaves cache and counters alone. -/
lemma MetadataStore.flush_cache (m : MetadataStore) (last : ℕ) :
    (m.flush last).records = m.records ∧ (m.flush last).nextOffset = m.nextOffset ∧
    (m.flush last).nextSeq = m.nextSeq := by
  rw [MetadataStore.flush]
  split <;> exact ⟨rfl, rfl, rfl⟩

variable {last : ℕ}

/-- An operation of the log is stale once its effect is in the snapshot. -/
lemma Durable.stale_flushed (h : Durable E e flushed pending stale)
    (hle : e.metadata.db.last ≤ last)
    (hseq : ∀ x ∈ flushed ++ pending, ∀ p, x.adds = some p → p.2.insertSeq ≤ last) :
    ∀ op ∈ walOps stale pending, Stale last (flushed ++ pending) op := by
  intro op hop
  have hord := h.logged.ordered
  rcases mem_append.mp hop with hop | hop
  · have hold := h.logged.stale_of_mem op hop
    cases op with
    | insert offset seq record crc | replace oldOffset offset seq record crc => exact hold.trans hle
    | delete offset =>
      obtain ⟨hnone, x, hx, r, hadds⟩ := hold
      refine ⟨getElem?_placed_append_of_none hnone ?_, x, by simp [hx], r, hadds⟩
      intro y hy heq
      obtain ⟨p, hp, rfl⟩ := map_eq_some_iff.mp heq
      exact absurd ((pairwise_append.mp hord).2.2 x hx y hy _ _ hadds hp) (lt_irrefl _)
    | flush offset => trivial
  · obtain ⟨x, hx, rfl⟩ := mem_map.mp hop
    have hmem : x ∈ flushed ++ pending := by simp [hx]
    cases x with
    | insert offset record | replace oldOffset offset record => exact hseq _ hmem _ rfl
    | delete offset id => exact getElem?_placed_of_removes hord h.logged.closed hmem rfl

/-- What a metadata flush commits: the whole log is in the snapshot, and what the log file holds
is stale. -/
lemma Durable.logged_flush (h : Durable E e flushed pending stale)
    (hcached : Cached e.metadata flushed pending) (hle : e.metadata.db.last ≤ last)
    (hlt : last < e.metadata.nextSeq)
    (hseq : ∀ x ∈ flushed ++ pending, ∀ p, x.adds = some p → p.2.insertSeq ≤ last) :
    Logged (e.metadata.flush last).db (flushed ++ pending) [] (walOps stale pending) := by
  obtain ⟨hlast, hdb⟩ := e.metadata.flush_db last
  have hlast' : (e.metadata.flush last).db.last = last := by rw [Redb.last, hlast]; rfl
  refine ⟨⟨?_, ?_, ?_⟩, ?_, by simp, ?_, ?_⟩
  · intro o
    rw [hcached.clean.records_flush]
    exact hcached.records o
  · intro hnone
    rw [hlast] at hnone
    cases hnone
  · intro last' hlast''
    obtain rfl : last = last' := by simpa [hlast] using hlast''
    rcases hdb with ⟨hsame, hclean⟩ | ⟨hoffset, hnext⟩
    · -- Nothing was written: nothing was pending.
      obtain rfl : pending = [] := by
        by_contra hne
        exact hcached.dirty hne hclean
      rw [hsame] at hlast ⊢
      rw [append_nil]
      exact h.logged.snapshot.counters last hlast
    · exact ⟨_, _, hoffset, hnext, hlt, fun x hx p hp =>
        ⟨h.nextOffset x hx p hp, hseq x hx p hp⟩⟩
  · rw [hlast']
    exact h.stale_flushed hle hseq
  · rw [append_nil]
    exact h.logged.ordered
  · rw [append_nil]
    exact h.logged.closed

/-- What is pending becomes stale. -/
lemma walOps_walOps_nil (stale : List WalOp) (pending : List Entry) :
    walOps (walOps stale pending) [] = walOps stale pending := by
  simp [walOps]

section

variable (h : Durable E e flushed pending stale)
include h

section

variable (hstamped : Stamped e (flushed ++ pending)) (hcached : Cached e.metadata flushed pending)
  (hle : e.metadata.db.last ≤ last) (hlt : last < e.metadata.nextSeq)
  (hseq : ∀ x ∈ flushed ++ pending, ∀ p, x.adds = some p → p.2.insertSeq ≤ last)
include hstamped hcached hle hlt hseq

/-- **Flushing the metadata** moves everything pending into the snapshot. -/
lemma Durable.flushMetadata_ok :
    Durable E { e with metadata := e.metadata.flush last } (flushed ++ pending) []
      (walOps stale pending) := by
  have hlogged := h.logged_flush hcached hle hlt hseq
  obtain ⟨-, hoffset, hnext⟩ := e.metadata.flush_cache last
  obtain ⟨count, hheader, hcount⟩ := hstamped
  refine ⟨hlogged, ?_, h.dim_pos, h.dim, h.mapped, h.slots, ⟨h.vectors.len,
    ⟨count, hheader, hcount⟩, h.vectors.shape, ?_⟩, ?_, ?_, ?_, ?_⟩
  · rw [walOps_walOps_nil]
    exact h.wal
  · rw [append_nil]
    exact h.vectors.stored
  · rw [append_nil]
    exact h.counted
  · rw [append_nil]
    simp only [hoffset]
    exact h.nextOffset
  · rw [append_nil]
    simp only [hnext]
    exact h.nextSeq
  · simp only [hnext, Redb.last, (e.metadata.flush_db last).1, getD_some]
    exact hlt

/-- A kill in a flush of the metadata. -/
lemma Durable.flushMetadata_image {d : Disk}
    (himage : e.disk.Images ((flushMetadata last).writes E e) d) :
    DiskHolds E e.config.dimension d (flushed ++ pending) := by
  rcases images_single himage with rfl | rfl
  · exact h.disk.holds
  · have := (h.flushMetadata_ok hstamped hcached hle hlt hseq).disk.holds
    rwa [append_nil] at this

end

/-- **Saving the graph** after a metadata flush. -/
lemma Durable.saveGraph (hcommitted : e.metadata.db.lastAppliedSeq ≠ none) (bytes : List UInt8) :
    Durable E { e with metadata := e.metadata.saveGraph bytes } flushed pending stale :=
  { h with logged := { h.logged with
      snapshot := { h.logged.snapshot with fresh := fun hnone => absurd hnone hcommitted } } }

/-- A kill while the graph is saved. -/
lemma Durable.saveGraph_image (hcommitted : e.metadata.db.lastAppliedSeq ≠ none)
    (himage : e.disk.Images (Action.saveGraph.writes E e) d) :
    DiskInv E e.config.dimension d flushed pending stale := by
  rcases images_single himage with rfl | rfl
  · exact h.disk
  · exact (h.saveGraph hcommitted _).disk

end

/-- **Clearing the log** when everything is in the snapshot. -/
lemma Durable.clearWal (h : Durable E e flushed [] stale) :
    Durable E { e with wal := e.wal.clear } flushed [] [] :=
  { h with
    logged := { h.logged with stale_of_mem := by simp }
    wal := Wal.holds_clear E.codec e.wal }

/-- The images of giving an empty log its header: part of it is there. -/
lemma images_header {bytes : List UInt8} (hwal : d.wal = some bytes) (hnil : bytes = [])
    (h : d.Images [.walAppend (headerBytes walVersion)] d') :
    ∃ n, d' = { d with wal := some ((headerBytes walVersion).take n) } := by
  subst hnil
  obtain ⟨n, -, rfl⟩ := images_append hwal h
  exact ⟨n, rfl⟩

/-- A log file that is part of a header holds nothing. -/
lemma walImage_header (C : WalCodec) (n : ℕ) :
    WalImage C [] (some ((headerBytes walVersion).take n)) := by
  by_cases hn : n < walHeaderSize
  · refine .short _ rfl ?_
    rw [length_take, length_headerBytes]
    omega
  · rw [take_of_length_le (by rw [length_headerBytes]; omega)]
    have := WalImage.frames (C := C) [] (fun op (hop : op ∈ []) => absurd hop (by simp))
      (readFrame_nil _)
    simpa using this

/-- A kill while the log is cleared. -/
lemma Durable.clearWal_image (h : Durable E e flushed [] stale) {d : Disk}
    (himage : e.disk.Images (Action.clearWal.writes E e) d) :
    DiskHolds E e.config.dimension d (flushed ++ []) := by
  have hlogged := h.clearWal.logged
  have hvectors : VectorsImage e.config.dimension e.disk.redb flushed [] e.disk.vectors :=
    .ready _ h.vectors
  rcases images_cons himage with rfl | hrest
  · exact h.disk.holds
  · obtain ⟨n, rfl⟩ := images_header rfl (by simp) hrest
    exact ⟨flushed, [], [], rfl, hlogged, walImage_header E.codec n, hvectors⟩

end TurboMemory
