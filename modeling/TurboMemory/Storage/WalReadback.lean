import TurboMemory.Storage.Bincode

/-!
# Reading the log back

What the log's reader sees of what its writer wrote: after any grouping of appends, after a
cut at any byte, and after the tail behind a frame boundary has been replaced by bytes that do
not start with a good frame.

## Main results

* `Wal.Holds.readAll` — what a header, the frames of some operations and a bad tail read back as.
* `Wal.Holds.truncate`, `Wal.Holds.appendAll` — cutting the bad tail and appending keep the
  file in that form.
* `wal_read_back` — the whole contract of the log.
-/

set_option autoImplicit false

namespace TurboMemory

open Bytes Framing List

variable {C : WalCodec} {r : List UInt8}

/-! ## The iterator scans frames -/

namespace WalIter

/-- Enough bytes are there. -/
lemma readExact_of_le {n : ℕ} (h : n ≤ r.length) :
    readExact n r = .ok (r.take n, r.drop n) := if_neg (by omega)

/-- A whole word is there. -/
lemma readU32_of_le (h : 4 ≤ r.length) :
    readU32 r = .ok (ofBE (r.take 4), r.drop 4) := by
  rw [readU32, readExact_of_le h]
  rfl

/-- On a log of the current version of known length, reading a frame is `Framing.readFrame`: the
checks on the length word rule out a premature end. -/
lemma readFrame_eq {it : WalIter} (hv : it.version = walVersion)
    (hr : it.reader.length = it.fileLen - it.validEnd) :
    it.readFrame C = .ok (match Framing.readFrame C.format it.reader with
      | none => (none, it)
      | some (op, rest) => (some op, { it with
          reader := rest, validEnd := it.validEnd + (it.reader.length - rest.length) })) := by
  unfold WalIter.readFrame Framing.readFrame
  simp only [← hr, frameOverhead]
  by_cases h8 : it.reader.length < 8
  · simp only [if_pos h8]
    rfl
  simp only [if_neg h8, readU32_of_le (by omega : 4 ≤ it.reader.length)]
  by_cases hlen : ofBE (it.reader.take 4) = 0 ∨ it.reader.length - 8 < ofBE (it.reader.take 4)
  · simp [hlen, bind, Except.bind, pure, Except.pure]
  have hpayload := readExact_of_le (n := ofBE (it.reader.take 4)) (r := it.reader.drop 4)
    (by rw [length_drop]; omega)
  have hword := readU32_of_le (r := it.reader.drop (4 + ofBE (it.reader.take 4)))
    (by rw [length_drop]; omega)
  have hdecode : ∀ payload, decode C it.version payload = C.format.dec payload := by
    intro payload
    rw [decode, hv, if_neg (by decide)]
    rfl
  have hcrc : ∀ payload, C.format.crc payload = crc32 payload := fun _ => rfl
  simp only [if_neg hlen, bind, Except.bind, pure, Except.pure, hpayload, drop_drop, hword,
    hdecode, hcrc]
  split
  · rfl
  · cases C.format.dec ((it.reader.drop 4).take (ofBE (it.reader.take 4))) with
    | none => rfl
    | some op =>
      have hend : it.reader.length - (it.reader.length - (ofBE (it.reader.take 4) + 8))
          = 8 + ofBE (it.reader.take 4) := by omega
      have hreader : 4 + ofBE (it.reader.take 4) + 4 = ofBE (it.reader.take 4) + 8 := by omega
      simp only [Option.map_some, length_drop, hend, hreader]

/-- A drained iterator has the operations of a scan, and what the scan leaves over lies behind
`validEnd`. -/
lemma drain_eq (fuel : ℕ) (it : WalIter) (hv : it.version = walVersion) (hd : it.done = false)
    (hr : it.reader.length = it.fileLen - it.validEnd) (hle : it.validEnd ≤ it.fileLen) :
    (it.drain C fuel).1 = (scan C.format fuel it.reader).1 ∧
      (it.drain C fuel).2.validEnd = it.fileLen - (scan C.format fuel it.reader).2.length ∧
      (it.drain C fuel).2.fileLen = it.fileLen := by
  induction fuel generalizing it with
  | zero => exact ⟨rfl, by simp only [drain, scan]; omega, rfl⟩
  | succ fuel ih =>
    have hframe := readFrame_eq (C := C) hv hr
    cases hread : Framing.readFrame C.format it.reader with
    | none =>
      rw [hread] at hframe
      simp only [drain, next, hd, hframe, scan, hread]
      simp
      omega
    | some r =>
      obtain ⟨op, rest⟩ := r
      rw [hread] at hframe
      have hlt := length_lt_of_readFrame hread
      -- The iterator behind this frame is aligned again.
      have hih := ih { it with
        reader := rest, validEnd := it.validEnd + (it.reader.length - rest.length) }
        hv hd (by simp only; omega) (by simp only; omega)
      rw [hd] at hih
      simp only [drain, next, hd, hframe, scan, hread]
      simpa using hih

end WalIter

/-! ## Log files in good form -/

/-- The file is a current-version header, the frames of `ops` and a tail that starts with no good
frame, and the cursor is at its end. -/
structure Wal.Holds (C : WalCodec) (w : Wal) (ops : List WalOp) (tail : List UInt8) : Prop where
  bytes : w.file.bytes = headerBytes walVersion ++ (frames C.format ops ++ tail)
  fits : ∀ op ∈ ops, Fits C.format op
  bad : Framing.readFrame C.format tail = none
  version : w.version = walVersion
  pos : w.file.pos = w.file.bytes.length

/-- The header has its size. -/
@[simp] lemma length_headerBytes (v : ℕ) : (headerBytes v).length = walHeaderSize := by
  simp [headerBytes, walMagic, walHeaderSize]

/-- Where the frames of `ops` end in the file. -/
def framesEnd (C : WalCodec) (ops : List WalOp) : ℕ :=
  walHeaderSize + (frames C.format ops).length

/-- There is no frame in no bytes. -/
lemma readFrame_nil (F : Format WalOp) : readFrame F [] = none := rfl

variable {w' : Wal} {tail : List UInt8} {w : Wal}

namespace Wal

variable {w : Wal} {ops : List WalOp} {tail : List UInt8}

/-- A file with a header of the current version is read by scanning what follows it. -/
lemma readAll_of_header (hv : w.version = walVersion) {bytes : List UInt8}
    (hbytes : w.file.bytes = headerBytes walVersion ++ bytes) :
    let found := scan C.format (w.file.bytes.length + 1) bytes
    let validEnd := w.file.bytes.length - found.2.length
    w.readAll C = (found.1, validEnd, w.file.bytes.length - validEnd) := by
  have hreader : w.iter.reader = bytes := by
    rw [iter, hbytes, ← length_headerBytes walVersion, drop_left]
  have hlen : w.file.bytes.length = walHeaderSize + bytes.length := by simp [hbytes]
  have hdrain := WalIter.drain_eq (C := C) (w.file.bytes.length + 1) w.iter hv rfl
    (by rw [hreader]; simp [iter, hlen]) (by simp [iter, hlen])
  rw [hreader] at hdrain
  obtain ⟨hops, hend, hfile⟩ := hdrain
  simp only [Wal.readAll, WalIter.discardedBytes, hops, hend, hfile]
  rfl

/-- **A log in good form reads back** as its operations, its end of the last frame, and the
length of its tail. -/
lemma Holds.readAll (h : w.Holds C ops tail) :
    w.readAll C = (ops, framesEnd C ops, w.file.bytes.length - framesEnd C ops) := by
  have hlen : w.file.bytes.length = framesEnd C ops + tail.length := by
    simp [h.bytes, framesEnd, Nat.add_assoc]
  have hfuel : ops.length ≤ w.file.bytes.length + 1 := by
    have := length_le_length_frames (F := C.format) ops
    simp only [framesEnd] at hlen
    omega
  rw [readAll_of_header h.version h.bytes, scan_frames_append h.fits h.bad hfuel, hlen,
    Nat.add_sub_cancel]

/-- Cutting the log at the end of its last good frame leaves the frames and no tail. -/
lemma Holds.truncate (h : w.Holds C ops tail) :
    (w.truncateTo (framesEnd C ops)).Holds C ops [] := by
  have hmax : max (framesEnd C ops) walHeaderSize = framesEnd C ops := by
    simp [framesEnd]
  have hcut : (w.truncateTo (framesEnd C ops)).file.bytes
      = headerBytes walVersion ++ (frames C.format ops ++ []) := by
    have hsum : framesEnd C ops = (headerBytes walVersion ++ frames C.format ops).length := by
      simp [framesEnd]
    simp only [truncateTo, hmax, File.setLen, File.seek, h.bytes]
    rw [← append_assoc, hsum, take_left]
    simp
  refine ⟨hcut, h.fits, readFrame_nil _, h.version, ?_⟩
  rw [hcut]
  simp [truncateTo, File.seek, framesEnd]

/-- Serializing a batch into one buffer produces its frames, and only if all of them fit. -/
lemma foldlM_writeOpToBuffer {ops : List WalOp} {buf out : List UInt8}
    (h : ops.foldlM (writeOpToBuffer C) buf = .ok out) :
    out = buf ++ frames C.format ops ∧ ∀ op ∈ ops, Fits C.format op := by
  induction ops generalizing buf with
  | nil =>
    obtain rfl : buf = out := by simpa [pure, Except.pure] using h
    simp
  | cons op ops ih =>
    rw [foldlM_cons, writeOpToBuffer] at h
    by_cases hfit : (C.serialize op).length < 2 ^ 32
    · simp only [if_pos hfit] at h
      obtain ⟨rfl, hall⟩ := ih h
      refine ⟨by simp [frame, WalCodec.format], ?_⟩
      intro op' hop'
      rcases mem_cons.mp hop' with rfl | hop'
      · exact hfit
      · exact hall op' hop'
    · simp only [if_neg hfit] at h
      exact absurd h (by simp [bind, Except.bind])

/-- A refused append leaves the log as it was. -/
lemma appendBatch_refused {e : StorageError} {new : List WalOp}
    (h : w.appendBatch C .ok new = (.error e, w')) : w' = w := by
  unfold Wal.appendBatch at h
  by_cases hnil : new = []
  · simp [hnil] at h
  simp only [List.isEmpty_iff, if_neg hnil] at h
  by_cases hup : w.needsUpgrade = true
  · simp only [if_pos hup] at h
    exact (congrArg Prod.snd h).symm
  simp only [if_neg hup] at h
  cases hbuf : new.foldlM (writeOpToBuffer C) [] with
  | error e =>
    rw [hbuf] at h
    exact (congrArg Prod.snd h).symm
  | ok buf => simp [hbuf, AppendIo.ok] at h

/-- A log without a tail stays one when a batch is appended. -/
lemma Holds.appendBatch (h : w.Holds C ops []) {new : List WalOp}
    (happ : w.appendBatch C .ok new = (.ok (), w')) : w'.Holds C (ops ++ new) [] := by
  unfold Wal.appendBatch at happ
  by_cases hnil : new = []
  · subst hnil
    obtain rfl : w = w' := by simpa using happ
    simpa using h
  have hup : w.needsUpgrade = false := by simp [needsUpgrade, h.version]
  simp only [List.isEmpty_iff, if_neg hnil, hup] at happ
  cases hbuf : new.foldlM (writeOpToBuffer C) [] with
  | error e => simp [hbuf] at happ
  | ok buf =>
    obtain ⟨rfl, hfits⟩ := foldlM_writeOpToBuffer hbuf
    simp only [hbuf, AppendIo.ok, nil_append] at happ
    obtain rfl : { w with file := w.file.writeAll (frames C.format new) } = w' := by
      simpa using happ
    refine ⟨?_, ?_, readFrame_nil _, h.version, ?_⟩
    · simp [File.writeAll_at_end h.pos, h.bytes, frames_append]
    · intro op hop
      rcases mem_append.mp hop with hop | hop
      · exact h.fits op hop
      · exact hfits op hop
    · simp [File.writeAll_at_end h.pos]

end Wal

/-! ## Runs of appends -/

/-- One call of the log's writer. -/
inductive AppendCall
  | append (op : WalOp)
  | appendBatch (ops : List WalOp)

/-- The operations a call appends. -/
def AppendCall.ops : AppendCall → List WalOp
  | .append op => [op]
  | .appendBatch ops => ops

/-- The operations of a run of calls, in order. -/
def opsOf (calls : List AppendCall) : List WalOp := (calls.map AppendCall.ops).flatten

/-- Run one call, no system call failing. -/
def Wal.call (C : WalCodec) (w : Wal) : AppendCall → Except StorageError Unit × Wal
  | .append op => w.append C .ok op
  | .appendBatch ops => w.appendBatch C .ok ops

/-- Run calls one after another until one of them is refused. -/
def Wal.appendAll (C : WalCodec) : Wal → List AppendCall → Except StorageError Wal
  | w, [] => .ok w
  | w, c :: calls =>
    match w.call C c with
    | (.error e, _) => .error e
    | (.ok (), w') => appendAll C w' calls

namespace Wal

variable {w : Wal} {ops : List WalOp}

/-- An append that succeeds adds its operations. -/
lemma Holds.call (h : w.Holds C ops []) {c : AppendCall}
    (hc : w.call C c = (.ok (), w')) : w'.Holds C (ops ++ c.ops) [] := by
  cases c with
  | append op | appendBatch ops' => exact h.appendBatch hc

/-- A log without a tail stays one through any run of appends. -/
lemma Holds.appendAll (h : w.Holds C ops []) {calls : List AppendCall}
    (hrun : w.appendAll C calls = .ok w') : w'.Holds C (ops ++ opsOf calls) [] := by
  induction calls generalizing w ops with
  | nil =>
    obtain rfl : w = w' := by simpa [appendAll] using hrun
    simpa [opsOf] using h
  | cons c calls ih =>
    unfold appendAll at hrun
    split at hrun
    · cases hrun
    · next w₁ hc =>
      have hstep := ih (h.call hc) hrun
      simpa [opsOf, append_assoc] using hstep

/-- A new log holds nothing. -/
lemma holds_open_none : ∃ w, Wal.open none = .ok w ∧ w.Holds C [] [] :=
  ⟨⟨⟨headerBytes walVersion, walHeaderSize⟩, walVersion⟩, by decide, rfl, by simp,
    readFrame_nil _, rfl, rfl⟩

/-- A cleared log is an empty one. -/
lemma holds_clear (C : WalCodec) (w : Wal) : w.clear.Holds C [] [] := by
  refine ⟨?_, by simp, readFrame_nil _, rfl, ?_⟩ <;>
    simp [clear, File.setLen, File.seek, File.writeAll]

/-- A header cut short is written anew: the log is empty. -/
lemma open_short {content : List UInt8} (h : content.length < walHeaderSize) :
    Wal.open (some content) = Wal.open none := by
  have hnil : ([] : List UInt8).length < walHeaderSize := by decide
  simp only [Wal.open, Option.getD_some, Option.getD_none, if_pos h, if_pos hnil]
  simp [File.setLen, File.seek]

/-- A file with a header of the current version is taken as it is. -/
lemma open_header (bytes : List UInt8) : Wal.open (some (headerBytes walVersion ++ bytes)) =
      .ok ⟨⟨headerBytes walVersion ++ bytes, (headerBytes walVersion ++ bytes).length⟩,
        walVersion⟩ := by
  set content := headerBytes walVersion ++ bytes with hcontent
  have hlen : ¬ content.length < walHeaderSize := by simp [hcontent]
  have hhead : content.take walHeaderSize = headerBytes walVersion := by
    rw [hcontent, ← length_headerBytes walVersion, take_left]
  simp only [Wal.open, Option.getD_some, if_neg hlen, hhead, File.seekEnd]
  rfl

/-- Opening a file in good form gives a log in good form, on the same bytes. -/
lemma holds_open (hfits : ∀ op ∈ ops, Fits C.format op)
    (hbad : Framing.readFrame C.format tail = none) :
    ∃ w, Wal.open (some (headerBytes walVersion ++ (frames C.format ops ++ tail))) = .ok w ∧
      w.Holds C ops tail :=
  ⟨_, open_header _, rfl, hfits, hbad, rfl, rfl⟩

/-- What is read from a file with a header of the current version. -/
lemma readAll_open_header (bytes : List UInt8)
    (h : Wal.open (some (headerBytes walVersion ++ bytes)) = .ok w) :
    (w.readAll C).1 = (scan C.format (w.file.bytes.length + 1) bytes).1 := by
  rw [open_header] at h
  cases h
  rw [readAll_of_header rfl rfl]

end Wal

/-! ## The contract -/

/-- Opening a log file with these contents finds exactly the operations `ops`: the reader yields
them, stops where their frames end and counts the rest as discarded; once the file is cut there,
whatever is appended is read back behind them. A file too short for a header gets a new one; any
other is taken as it is. -/
def ReadsBack (C : WalCodec) (content : List UInt8) (ops : List WalOp) : Prop :=
  ∃ w, Wal.open (some content) = .ok w ∧ (walHeaderSize ≤ content.length → w.file.bytes = content) ∧
    w.readAll C = (ops, framesEnd C ops, w.file.bytes.length - framesEnd C ops) ∧
    ∀ calls w', (w.truncateTo (framesEnd C ops)).appendAll C calls = .ok w' →
      w'.readAll C = (ops ++ opsOf calls, w'.file.bytes.length, 0)

/-- A log without a tail reads back to its last byte. -/
lemma Wal.Holds.readAll_clean {ops : List WalOp} (h : w.Holds C ops []) :
    w.readAll C = (ops, w.file.bytes.length, 0) := by
  have hlen : w.file.bytes.length = framesEnd C ops := by
    rw [h.bytes]
    simp [framesEnd]
  rw [h.readAll, hlen, Nat.sub_self]

/-- A log in good form, opened anew or not, meets the contract. -/
lemma Wal.Holds.reads_on {ops : List WalOp} (h : w.Holds C ops tail) :
    w.readAll C = (ops, framesEnd C ops, w.file.bytes.length - framesEnd C ops) ∧
    ∀ calls w', (w.truncateTo (framesEnd C ops)).appendAll C calls = .ok w' →
      w'.readAll C = (ops ++ opsOf calls, w'.file.bytes.length, 0) :=
  ⟨h.readAll, fun _ _ hrun => (h.truncate.appendAll hrun).readAll_clean⟩

/-- Frames and a bad tail read back as the operations. -/
lemma readsBack_of_frames {ops : List WalOp}
    (hfits : ∀ op ∈ ops, Fits C.format op) (hbad : Framing.readFrame C.format tail = none) :
    ReadsBack C (headerBytes walVersion ++ (frames C.format ops ++ tail)) ops := by
  obtain ⟨w, hopen, hholds⟩ := Wal.holds_open hfits hbad
  exact ⟨w, hopen, fun _ => hholds.bytes, hholds.reads_on⟩

/-- **Log read-back.** Take any run of appends to a new log. Cut the file at any byte, or replace
everything behind a frame boundary by bytes that do not start with a good frame: the reader finds
exactly the operations whose frames are whole, and the log can be appended to from there. **Proof
sketch.** The appends leave a header and the frames of all operations. A cut inside the header
leaves a new log; any other leaves whole frames and a torn one, given away by its length word or
missing bytes (`Framing.take_frames`). Either way the file is in the form `Wal.Holds`. -/
theorem wal_read_back (C : WalCodec) (calls : List AppendCall) (w₀ w : Wal)
    (hnew : Wal.open none = .ok w₀) (hrun : w₀.appendAll C calls = .ok w) :
    (∀ n, ReadsBack C (w.file.bytes.take n)
      ((opsOf calls).take (wholeFrames C.format (opsOf calls) (n - walHeaderSize)))) ∧
    ∀ k garbage, Framing.readFrame C.format garbage = none →
      ReadsBack C (w.file.bytes.take (framesEnd C ((opsOf calls).take k)) ++ garbage)
        ((opsOf calls).take k) := by
  obtain ⟨w₁, hopen, hempty⟩ := Wal.holds_open_none
  obtain rfl : w₁ = w₀ := by rw [hopen] at hnew; exact Except.ok.inj hnew
  have hholds := hempty.appendAll hrun
  rw [nil_append] at hholds
  have hbytes : w.file.bytes = headerBytes walVersion ++ frames C.format (opsOf calls) := by
    rw [hholds.bytes, append_nil]
  constructor
  · intro n
    by_cases hn : n < walHeaderSize
    · -- The cut is inside the header: the log is new again.
      have hzero : n - walHeaderSize = 0 := by omega
      have hnone : wholeFrames C.format (opsOf calls) 0 = 0 := by
        cases opsOf calls <;> simp [wholeFrames]
      have hshort : (w.file.bytes.take n).length < walHeaderSize := by
        rw [length_take]; omega
      rw [hzero, hnone, take_zero]
      refine ⟨w₁, ?_, fun h => absurd h (by omega), hempty.reads_on⟩
      rw [Wal.open_short hshort, hopen]
    · obtain ⟨tail, htake, hbad⟩ := take_frames hholds.fits (n - walHeaderSize)
      have hcut : w.file.bytes.take n = headerBytes walVersion ++
          (frames C.format ((opsOf calls).take
            (wholeFrames C.format (opsOf calls) (n - walHeaderSize))) ++ tail) := by
        rw [hbytes, take_append, length_headerBytes, htake,
          take_of_length_le (by rw [length_headerBytes]; omega)]
      rw [hcut]
      exact readsBack_of_frames (fun op hop => hholds.fits op (mem_of_mem_take hop)) hbad
  · intro k garbage hbad
    have hcut : w.file.bytes.take (framesEnd C ((opsOf calls).take k)) ++ garbage
        = headerBytes walVersion ++ (frames C.format ((opsOf calls).take k) ++ garbage) := by
      have hsplit : frames C.format (opsOf calls)
          = frames C.format ((opsOf calls).take k) ++ frames C.format ((opsOf calls).drop k) := by
        rw [← frames_append, take_append_drop]
      have hend : framesEnd C ((opsOf calls).take k)
          = (headerBytes walVersion ++ frames C.format ((opsOf calls).take k)).length := by
        simp [framesEnd]
      rw [hbytes, hsplit, hend, ← append_assoc, take_left, append_assoc]
    rw [hcut]
    exact readsBack_of_frames (fun op hop => hholds.fits op (mem_of_mem_take hop)) hbad

/-- Three operations in two calls: a cut in the third frame keeps two, and a zero length word
behind the first keeps one. -/
theorem wal_read_back_torn_batch : ∃ w₀ w, Wal.open none = .ok w₀ ∧
    w₀.appendAll bincode [.append (.delete 7), .appendBatch [.delete 8, .flush 9]] = .ok w ∧
    ReadsBack bincode (w.file.bytes.take 50) [.delete 7, .delete 8] ∧
    ReadsBack bincode (w.file.bytes.take 28 ++ [0, 0, 0, 0, 1, 2, 3, 4, 5]) [.delete 7] := by
  refine ⟨_, _, rfl, rfl, ?_⟩
  have hback := wal_read_back bincode
    [.append (.delete 7), .appendBatch [.delete 8, .flush 9]] _ _ rfl rfl
  exact ⟨hback.1 50, hback.2 1 _ (by decide)⟩

end TurboMemory
