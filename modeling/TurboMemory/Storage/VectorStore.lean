import TurboMemory.Lib.Bytes
import TurboMemory.Lib.Loops
import TurboMemory.Storage.Record

/-!
# The vector store

Embeddings live in one memory-mapped file: a header and a row of slots, indexed by offset.
Storing a vector writes its slot and counts it in memory; the count in the header is stamped
by a flush, and by a resize of the file.

## Main results

* `VectorStore.put_cases` — what a `put` leaves, in memory and in the file, when no system call
  fails.

## Implementation notes

A header is either complete or was never written: it is stored in one piece, so its magic,
version and checksum are right whenever it is there. A slot that was never written reads as
zeros. `GrowIo` says which system calls of a resize fail.
-/

set_option autoImplicit false

namespace TurboMemory

open Bytes

/-! ## The file -/

/-- Size of the header in bytes. -/
def vectorHeaderSize : ℕ := 40

/-- The header of the vector file. -/
structure VectorHeader where
  dimension : ℕ
  /-- Number of populated slots when the header was stamped. -/
  count : ℕ
deriving DecidableEq

/-- The vector file: its length, its header once that is written, and its slots. -/
structure VectorFile where
  len : ℕ
  header : Option VectorHeader
  slot : PointOffset → Embedding

/-- The ways the vector file is written. -/
inductive VectorWrite
  | setLen (len : ℕ)
  | stamp (header : VectorHeader)
  | store (offset : PointOffset) (vector : Embedding)
deriving DecidableEq

namespace VectorFile

/-- The number of slots the file has room for. -/
def room (f : VectorFile) (dim : ℕ) : ℕ := (f.len - vectorHeaderSize) / (dim * 4)

/-- A file that was just created. -/
def created (dim : ℕ) : VectorFile := ⟨0, none, fun _ => List.replicate dim F32.zero⟩

/-- One write. -/
def write (f : VectorFile) : VectorWrite → VectorFile
  | .setLen len => { f with len := len }
  | .stamp header => { f with header := some header }
  | .store offset vector => { f with slot := Function.update f.slot offset vector }

end VectorFile

/-- The bytes of a vector. -/
def vectorBytes (v : Embedding) : List UInt8 := v.flatMap fun x => natLE 4 x.bits.toNat

/-- The checksum WAL insert entries carry for their vector. -/
def vectorCrc (v : Embedding) : UInt32 := crc32 (vectorBytes v)

/-- The length of a file with room for `slots` vectors, unless it overflows a machine word. -/
def checkedLen (slots dim : ℕ) : Option ℕ :=
  let len := vectorHeaderSize + slots * dim * 4
  if len ≤ usizeMax then some len else none

/-- A file of that length has that much room. -/
lemma checkedLen_room {slots dim len : ℕ} (hdim : 0 < dim) (h : checkedLen slots dim = some len) :
    vectorHeaderSize ≤ len ∧ (len - vectorHeaderSize) / (dim * 4) = slots := by
  simp only [checkedLen] at h
  split at h
  · cases h
    refine ⟨by omega, ?_⟩
    rw [Nat.add_sub_cancel_left, mul_assoc]
    exact Nat.mul_div_cancel _ (by omega)
  · cases h

/-! ## The store -/

/-- The open store. -/
structure VectorStore where
  file : VectorFile
  /-- Whether the file is mapped: a failed resize leaves it unmapped. -/
  mapped : Bool
  dim : ℕ
  /-- Number of populated vector slots (max offset + 1). -/
  count : ℕ
  /-- Number of vector slots currently allocated in the file. -/
  slots : ℕ

/-- How the system calls of a resize end: resizing, mapping the file again at its old size if that
fails, and at its new size. -/
structure GrowIo where
  setLen : Bool := true
  remap : Bool := true
  map : Bool := true
deriving DecidableEq

/-- The error of every access to an unmapped store. -/
def notMapped : StorageError := .io "vector store is not mapped (an earlier resize failed)"

namespace VectorStore

/-- Create a new vector store with a requested initial slot count. -/
def newWithCapacity (dim initialSlots : ℕ) : Except StorageError VectorStore :=
  if dim = 0 then .error (.invalidArgument "vector dimension must be > 0")
  else
    let slots := max initialSlots 1024
    match checkedLen slots dim with
    | none => .error (.invalidArgument "vector store size overflow")
    | some len =>
      .ok ⟨((VectorFile.created dim).write (.setLen len)).write (.stamp ⟨dim, 0⟩), true, dim, 0,
        slots⟩

/-- Open an existing vector store and validate its header, or create it. -/
def «open» (file : Option VectorFile) (dim initialSlots : ℕ) : Except StorageError VectorStore :=
  match file with
  | none => newWithCapacity dim initialSlots
  | some file =>
    if file.len < vectorHeaderSize then
      .error (.invalidArgument "vector store file is too small")
    else
      match file.header with
      | none => .error (.invalidArgument "vector store has invalid magic")
      | some header =>
        if header.dimension ≠ dim then .error .dimensionMismatch
        else
          let slots := file.room dim
          .ok ⟨file, true, dim, min header.count slots, slots⟩

variable (vs : VectorStore)

/-- The number of slots a resize for index `minIdx` asks for. -/
def grownSlots (minIdx : ℕ) : ℕ :=
  max (max (minIdx + 1) (satMul vs.slots 2)) 1024

/-- Make room for index `minIdx`. The header is written anew, with the current count. -/
def growInner (io : GrowIo) (vs : VectorStore) (minIdx : ℕ) :
    Except StorageError Unit × VectorStore :=
  let newSlots := vs.grownSlots minIdx
  match checkedLen newSlots vs.dim with
  | none => (.error (.invalidArgument "vector store grow overflow"), vs)
  | some len =>
    if !io.setLen then (.error (.io "resize failed"), { vs with mapped := io.remap })
    else
      let file := vs.file.write (.setLen len)
      if !io.map then (.error (.io "mapping failed"), { vs with file := file, mapped := false })
      else
        (.ok (), { vs with
          file := file.write (.stamp ⟨vs.dim, vs.count⟩), mapped := true, slots := newSlots })

variable (offset : PointOffset)

/-- Write a vector into its slot and count it. -/
def writeVector (vector : Embedding) :
    Except StorageError Unit × VectorStore :=
  if vs.mapped then
    (.ok (), { vs with
      file := vs.file.write (.store offset vector), count := max vs.count (offset + 1) })
  else (.error notMapped, vs)

/-- Store a vector at the given global offset, growing the file if needed. -/
def put (io : GrowIo) (vs : VectorStore) (offset : PointOffset) (vector : Embedding) :
    Except StorageError Unit × VectorStore :=
  if vector.length ≠ vs.dim then (.error .dimensionMismatch, vs)
  else if vs.slots ≤ offset then
    match vs.growInner io offset with
    | (.error e, vs) => (.error e, vs)
    | (.ok _, vs) => vs.writeVector offset vector
  else vs.writeVector offset vector

/-- A slot is accepted when it matches the logged checksum or, without one, holds a finite, non-zero
vector. -/
def accepts (vector : Embedding) : Option UInt32 → Bool
  | some crc => vectorCrc vector == crc
  | none => vector.all F32.isFinite && vector.any fun x => !x.isZero

/-- Recover a vector that was written but not yet counted in the header, if it lies inside the
file and is accepted. -/
def recover (expectedCrc : Option UInt32) :
    Option (Embedding × VectorStore) :=
  if vs.slots ≤ offset ∨ !vs.mapped then none
  else
    let vector := vs.file.slot offset
    if accepts vector expectedCrc then
      some (vector, { vs with count := max vs.count (offset + 1) }) else none

/-- The vector at `offset`, or `none` if the slot has never been counted. -/
def get : Option Embedding :=
  if offset < vs.count ∧ vs.mapped then some (vs.file.slot offset) else none

/-- Sync slots to disk. Nothing changes; the call fails when the store is not mapped or the
system call `ok` does. -/
def syncRange (ok : Bool) (vs : VectorStore) : Except StorageError Unit :=
  if !vs.mapped then .error notMapped else if ok then .ok () else .error (.io "sync failed")

/-- Sync the mapping to disk and update the persisted header count. -/
def flush : Except StorageError Unit × VectorStore :=
  if vs.mapped then
    (.ok (), { vs with
      file := { vs.file with header := vs.file.header.map fun h => { h with count := vs.count } } })
  else (.error notMapped, vs)

/-! ## What a put does -/

variable {vs vs' : VectorStore} {io : GrowIo} {offset : PointOffset} {o : PointOffset}
  {v : Embedding}

/-- A resize that succeeds does so without failing system calls, and keeps the count. -/
lemma growInner_of_ok {n : ℕ} (h : vs.growInner io n = (.ok (), vs')) :
    vs.growInner {} n = (.ok (), vs') ∧ vs'.count = vs.count ∧ vs'.mapped = true := by
  unfold growInner at h ⊢
  dsimp only at h ⊢
  split at h
  · cases h
  · split at h
    · cases h
    · split at h <;> cases h
      exact ⟨rfl, rfl, rfl⟩

/-- A `put` that succeeds met no failing call. -/
lemma put_of_ok {vector : Embedding}
    (h : vs.put io offset vector = (.ok (), vs')) : vs.put {} offset vector = (.ok (), vs') := by
  unfold put at h ⊢
  split_ifs at h ⊢ with hlen hslots
  · cases h
  · split at h
    · cases h
    · next hgrow => rw [(growInner_of_ok hgrow).1]; exact h
  · exact h

/-- The file-level writes of a `put`: a resize, if one is needed, then the slot. -/
def putWrites (vs : VectorStore) (offset : PointOffset) (vector : Embedding) :
    List VectorWrite :=
  (if vs.slots ≤ offset then
    ((checkedLen (vs.grownSlots offset) vs.dim).map fun len =>
      [.setLen len, .stamp ⟨vs.dim, vs.count⟩]).getD []
  else []) ++ [.store offset vector]

/-- The room a `put` leaves. -/
def slotsAfter (vs : VectorStore) (offset : PointOffset) : ℕ :=
  if vs.slots ≤ offset then vs.grownSlots offset else vs.slots

section

variable (vs : VectorStore)

/-- There is room for the offset. -/
lemma lt_slotsAfter (offset : ℕ) : offset < vs.slotsAfter offset := by
  rw [slotsAfter]
  split
  · rw [grownSlots]
    omega
  · omega

/-- The file does not shrink. -/
lemma slots_le_slotsAfter (offset : ℕ) :
    vs.slots ≤ vs.slotsAfter offset := by
  have hlt := lt_slotsAfter vs offset
  by_cases h : vs.slots ≤ offset
  · omega
  · rw [slotsAfter, if_neg h]

/-- **A `put` on a mapped store, no system call failing**, finds that the vector has the wrong
dimension or the file cannot grow, and changes nothing; or it performs its writes and counts the
slot. -/
lemma put_cases (hmapped : vs.mapped = true) (offset : PointOffset)
    (vector : Embedding) :
    (∃ e, vs.put {} offset vector = (.error e, vs)) ∨
    vector.length = vs.dim ∧
    (vs.slots ≤ offset → (checkedLen (vs.grownSlots offset) vs.dim).isSome) ∧
    vs.put {} offset vector = (.ok (), { vs with
      file := (vs.putWrites offset vector).foldl VectorFile.write vs.file
      count := max vs.count (offset + 1)
      slots := vs.slotsAfter offset }) := by
  by_cases hdim : vector.length = vs.dim
  swap
  · exact .inl ⟨.dimensionMismatch, by simp [put, hdim]⟩
  by_cases hroom : vs.slots ≤ offset
  · cases hlen : checkedLen (vs.grownSlots offset) vs.dim with
    | none =>
      exact .inl ⟨.invalidArgument "vector store grow overflow",
        by simp [put, hdim, hroom, growInner, hlen]⟩
    | some len =>
      refine .inr ⟨hdim, fun _ => rfl, ?_⟩
      simp [put, hdim, hroom, growInner, hlen, writeVector, putWrites, slotsAfter, hmapped]
  · refine .inr ⟨hdim, fun h => absurd h hroom, ?_⟩
    simp [put, hdim, hroom, writeVector, hmapped, putWrites, slotsAfter]

end

/-- A resize keeps all slots. -/
lemma slot_growInner (io : GrowIo) (vs : VectorStore) (minIdx : ℕ) :
    (vs.growInner io minIdx).2.file.slot = vs.file.slot := by
  unfold growInner
  dsimp only
  split
  · rfl
  · split
    · rfl
    · split <;> rfl

/-- A completed write has set its slot and left the others that are populated. -/
lemma get_writeVector (h : vs.writeVector offset v = (.ok (), vs')) :
    vs'.get offset = some v ∧ ∀ o ≠ offset, (vs.get o).isSome → vs'.get o = vs.get o := by
  rw [writeVector] at h
  split at h
  · next hmapped =>
    cases h
    refine ⟨by simp [get, hmapped, VectorFile.write], fun o hne ho => ?_⟩
    have hlt : o < vs.count := by
      by_contra hlt
      simp [get, hlt] at ho
    simp [get, hmapped, hlt, hne, VectorFile.write]
  · cases h

/-- A completed `put`, whatever the system calls do, has set its slot and left the others that are
populated. -/
lemma get_put (h : vs.put io offset v = (.ok (), vs')) :
    vs'.get offset = some v ∧ ∀ o ≠ offset, (vs.get o).isSome → vs'.get o = vs.get o := by
  rw [put] at h
  split at h
  · cases h
  · split at h
    · split at h
      · cases h
      · next vs₁ hgrow =>
        obtain ⟨-, hcount, hmapped⟩ := growInner_of_ok hgrow
        have hslot : vs₁.file.slot = vs.file.slot := by
          rw [← slot_growInner io vs offset, hgrow]
        refine (get_writeVector h).imp_right fun hothers o hne ho => ?_
        have hget : vs₁.get o = vs.get o := by
          rw [get] at ho
          split at ho
          · next hlt => simp [get, hslot, hcount, hmapped, hlt]
          · cases ho
        rw [← hget] at ho ⊢
        exact hothers o hne ho
    · exact get_writeVector h

end VectorStore

end TurboMemory
