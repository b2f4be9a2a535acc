import TurboMemory.Lib.Framing
import TurboMemory.Storage.Record

/-!
# The write-ahead log

An append-only file of checksummed frames behind an eight-byte header. Recovery is
point-in-time: the log is read up to the first frame that is torn, fails its checksum or does
not decode, and everything from there on is discarded. What is read back is the subject of
`Storage.WalReadback`.

Serialization is third-party code and enters as the parameter `WalCodec`, whose fields say
that the current format reads back what it wrote. The version-1 decoder is kept without a
law: nothing writes that format any more.
-/

set_option autoImplicit false

namespace TurboMemory

open Bytes Framing

/-! ## Operations -/

/-- A record in the WAL. -/
inductive WalOp
  | insert (offset : PointOffset) (seq : ℕ) (record : MetaRecord) (vectorCrc : Option UInt32)
  | delete (offset : PointOffset)
  | flush (offset : PointOffset)
  | replace (oldOffset offset : PointOffset) (seq : ℕ) (record : MetaRecord)
      (vectorCrc : UInt32)
deriving DecidableEq

/-- The version-1 operation set, kept only to decode logs left behind by older builds. -/
inductive WalOpV1
  | insert (offset : PointOffset) (seq : ℕ) (record : MetaRecord)
  | delete (offset : PointOffset)
  | flush (offset : PointOffset)
deriving DecidableEq

/-- A version-1 operation in the current set: an insert has no checksum. -/
def WalOp.ofV1 : WalOpV1 → WalOp
  | .insert offset seq record => .insert offset seq record none
  | .delete offset => .delete offset
  | .flush offset => .flush offset

/-- The serialization of operations: a writer and reader of the current format, and a reader
of the version-1 format. -/
structure WalCodec where
  serialize : WalOp → List UInt8
  deserialize : List UInt8 → Option WalOp
  deserializeV1 : List UInt8 → Option WalOpV1
  deserialize_serialize : ∀ op, deserialize (serialize op) = some op
  serialize_ne_nil : ∀ op, serialize op ≠ []

/-- The frame format of the log. -/
def WalCodec.format (C : WalCodec) : Format WalOp where
  enc := C.serialize
  dec := C.deserialize
  crc := crc32
  dec_enc := C.deserialize_serialize
  enc_ne_nil := C.serialize_ne_nil

/-! ## Files -/

/-- An open file: its contents and the cursor. -/
structure File where
  bytes : List UInt8
  pos : ℕ
deriving DecidableEq

namespace File

/-- Cut or zero-extend the file; the cursor stays. -/
def setLen (f : File) (n : ℕ) : File :=
  { f with bytes := f.bytes.take n ++ List.replicate (n - f.bytes.length) 0 }

/-- Move the cursor to an absolute position. -/
def seek (f : File) (n : ℕ) : File := { f with pos := n }

/-- Move the cursor to the end. -/
def seekEnd (f : File) : File := { f with pos := f.bytes.length }

/-- Write at the cursor, over what is there, zero-filling a gap before it. -/
def writeAll (f : File) (buf : List UInt8) : File where
  bytes := f.bytes.take f.pos ++ List.replicate (f.pos - f.bytes.length) 0 ++ buf
    ++ f.bytes.drop (f.pos + buf.length)
  pos := f.pos + buf.length

/-- Writing at the end appends. -/
lemma writeAll_at_end {f : File} (h : f.pos = f.bytes.length) (buf : List UInt8) :
    f.writeAll buf = ⟨f.bytes ++ buf, (f.bytes ++ buf).length⟩ := by
  simp [writeAll, h]

end File

/-! ## The log file -/

/-- The four bytes every log starts with. -/
def walMagic : List UInt8 := [0x54, 0x4D, 0x53, 0x57]

/-- Version 1 logged inserts without a vector checksum and had no `Replace`. -/
def walVersion1 : ℕ := 1

/-- The current version. -/
def walVersion : ℕ := 2

/-- Length of the header. -/
def walHeaderSize : ℕ := 8

/-- Bytes of framing around each payload: length word and checksum. -/
def frameOverhead : ℕ := 8

/-- The header of a log of the given version. -/
def headerBytes (version : ℕ) : List UInt8 := walMagic ++ natLE 4 version

/-- Append-only WAL. -/
structure Wal where
  file : File
  /-- Format version of the frames currently in the file. -/
  version : ℕ
deriving DecidableEq

/-- How the system calls of an append end. `write := some n` fails after `n` bytes; the two rollback
calls then succeed or not. -/
structure AppendIo where
  write : Option ℕ := none
  setLen : Bool := true
  seek : Bool := true

/-- No system call fails. -/
def AppendIo.ok : AppendIo := {}

namespace Wal

/-- The log found at the path, or `none`. A file shorter than a header is new, or its header was
never finished. -/
def «open» (content : Option (List UInt8)) : Except StorageError Wal :=
  let file : File := ⟨content.getD [], 0⟩
  if file.bytes.length < walHeaderSize then
    .ok ⟨(((file.setLen 0).seek 0).writeAll (headerBytes walVersion)).seekEnd, walVersion⟩
  else
    let header := file.bytes.take walHeaderSize
    let version := ofLE (header.drop 4)
    if header.take 4 ≠ walMagic then .error (.invalidArgument "WAL has invalid magic")
    else if version ≠ walVersion ∧ version ≠ walVersion1 then
      .error (.invalidArgument s!"WAL version {version} not supported")
    else .ok ⟨file.seekEnd, version⟩

/-- True when the file holds frames in an older format. -/
def needsUpgrade (w : Wal) : Bool := w.version != walVersion

/-- One frame at the end of a buffer. -/
def writeOpToBuffer (C : WalCodec) (buf : List UInt8) (op : WalOp) :
    Except StorageError (List UInt8) :=
  let payload := C.serialize op
  if payload.length < 2 ^ 32 then
    .ok (buf ++ natBE 4 payload.length ++ payload ++ natBE 4 (crc32 payload).toNat)
  else .error (.invalidArgument "WAL record exceeds 4 GiB")

/-- Append a batch of operations in one write. A failed write is rolled back, so the next append
does not land behind half a frame. -/
def appendBatch (C : WalCodec) (io : AppendIo) (w : Wal) (ops : List WalOp) :
    Except StorageError Unit × Wal :=
  if ops.isEmpty then (.ok (), w)
  else if w.needsUpgrade then
    (.error (.invalidArgument
      "WAL holds frames from an older format; replay and clear it first"), w)
  else
    match ops.foldlM (writeOpToBuffer C) [] with
    | .error e => (.error e, w)
    | .ok buf =>
      let start := w.file.pos
      match io.write with
      | none => (.ok (), { w with file := w.file.writeAll buf })
      | some n =>
        let torn := w.file.writeAll (buf.take n)
        let cut := if io.setLen then torn.setLen start else torn
        (.error (.io "write failed"), { w with file := if io.seek then cut.seek start else cut })

/-- An append that succeeds does so without failing system calls. -/
lemma appendBatch_of_ok {C : WalCodec} {io : AppendIo} {w w' : Wal} {ops : List WalOp}
    (h : w.appendBatch C io ops = (.ok (), w')) : w.appendBatch C {} ops = (.ok (), w') := by
  cases hwrite : io.write with
  | none => simpa only [appendBatch, hwrite] using h
  | some n =>
    unfold appendBatch at h ⊢
    split at h
    · next hempty => rw [if_pos hempty]; exact h
    · split at h
      · cases h
      · split at h
        · cases h
        · simp [hwrite] at h

/-- Append one operation. -/
def append (C : WalCodec) (io : AppendIo) (w : Wal) (op : WalOp) :
    Except StorageError Unit × Wal := w.appendBatch C io [op]

/-- Drop everything after `validEnd` so later appends follow the last good frame. -/
def truncateTo (w : Wal) (validEnd : ℕ) : Wal :=
  let validEnd := max validEnd walHeaderSize
  { w with file := (w.file.setLen validEnd).seek validEnd }

/-- Empty the log, leaving only a current-version header. -/
def clear (w : Wal) : Wal :=
  ⟨((w.file.setLen 0).seek 0).writeAll (headerBytes walVersion), walVersion⟩

end Wal

/-! ## Reading the log -/

/-- Why a read of the log file came back without data. -/
inductive IoErrorKind
  | unexpectedEof
deriving DecidableEq

/-- Reads frames until the end of the log or the first unreadable frame. -/
structure WalIter where
  /-- The bytes from the read position on. -/
  reader : List UInt8
  version : ℕ
  /-- File offset just past the last frame that was read successfully. -/
  validEnd : ℕ
  fileLen : ℕ
  done : Bool
deriving DecidableEq

/-- A reader at the first frame. -/
def Wal.iter (w : Wal) : WalIter where
  reader := w.file.bytes.drop walHeaderSize
  version := w.version
  validEnd := walHeaderSize
  fileLen := w.file.bytes.length
  done := false

namespace WalIter

/-- Bytes after the last good frame. -/
def discardedBytes (it : WalIter) : ℕ := it.fileLen - it.validEnd

/-- Read `n` bytes, or meet the end of the file. -/
def readExact (n : ℕ) (r : List UInt8) : Except IoErrorKind (List UInt8 × List UInt8) :=
  if r.length < n then .error .unexpectedEof else .ok (r.take n, r.drop n)

/-- Read a big-endian 32-bit word. -/
def readU32 (r : List UInt8) : Except IoErrorKind (ℕ × List UInt8) :=
  (readExact 4 r).map fun p => (ofBE p.1, p.2)

/-- Decode a payload in the format of the log. -/
def decode (C : WalCodec) (version : ℕ) (payload : List UInt8) : Option WalOp :=
  if version = walVersion1 then (C.deserializeV1 payload).map WalOp.ofV1
  else C.deserialize payload

/-- Read one frame. On anything but a good frame the iterator is given back as it was: it is
not read from again. -/
def readFrame (C : WalCodec) (it : WalIter) : Except IoErrorKind (Option WalOp × WalIter) := do
  let remaining := it.fileLen - it.validEnd
  if remaining < frameOverhead then return (none, it)
  let (len, r) ← readU32 it.reader
  if len = 0 ∨ remaining - frameOverhead < len then return (none, it)
  let (payload, r) ← readExact len r
  let (storedCrc, r) ← readU32 r
  if storedCrc ≠ (crc32 payload).toNat then return (none, it)
  match decode C it.version payload with
  | some op =>
    return (some op, { it with reader := r, validEnd := it.validEnd + (frameOverhead + len) })
  | none => return (none, it)

/-- The next operation, if there is one. -/
def next (C : WalCodec) (it : WalIter) : Option WalOp × WalIter :=
  if it.done then (none, it)
  else match it.readFrame C with
    | .ok (some op, it) => (some op, it)
    | .ok (none, it) => (none, { it with done := true })
    | .error .unexpectedEof => (none, { it with done := true })

/-- Call `next` until it yields nothing. -/
def drain (C : WalCodec) : ℕ → WalIter → List WalOp × WalIter
  | 0, it => ([], it)
  | fuel + 1, it =>
    match it.next C with
    | (none, it) => ([], it)
    | (some op, it) => (op :: (drain C fuel it).1, (drain C fuel it).2)

end WalIter

/-- Read the log to its end: the operations, the end of the last good frame, and the number of
bytes behind it. -/
def Wal.readAll (C : WalCodec) (w : Wal) : List WalOp × ℕ × ℕ :=
  let r := w.iter.drain C (w.file.bytes.length + 1)
  (r.1, r.2.validEnd, r.2.discardedBytes)

end TurboMemory
