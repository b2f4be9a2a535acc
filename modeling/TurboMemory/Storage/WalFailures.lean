import TurboMemory.Storage.WalReadback

/-!
# Failing system calls under the log

`Wal` changes its file by `set_len`, `seek` and `write_all`, and each of them may fail between
two others that took effect. A failed append is rolled back; `truncate_to` given the end of
the log changes nothing whichever of its calls fails. `clear` empties the file first and
writes the header last, so a call that fails in between leaves a file without the operations,
without a header and with the cursor where the old end was. `sync_data` changes neither the
contents nor the cursor; it appears only as the answer of `flush`.

## Main results

* `Wal.Holds.perform` — what one call that cannot damage the log keeps (`Wal.Unharmed`).
* `wal_survives_failed_calls` — in a run of such calls the file always reopens and reads back
  as the operations acknowledged.
* `failed_clear_loses_log` — what a `clear` that fails halfway does.
-/

set_option autoImplicit false

namespace TurboMemory

open Bytes Framing

variable {C : WalCodec}

/-! ## The writers, with the call that fails -/

/-- How the system calls of one `clear` end: `write := some n` is a header write that fails
after `n` bytes. -/
structure ClearIo where
  setLen : Bool := true
  seek : Bool := true
  write : Option ℕ := none

/-- How the system calls of one `truncate_to` end. -/
structure TruncateIo where
  setLen : Bool := true
  seek : Bool := true

namespace Wal

/-- Empty the log; each call is made only if the ones before it succeeded. -/
def clearWith (io : ClearIo) (w : Wal) : Except StorageError Unit × Wal :=
  if !io.setLen then (.error (.io "set_len failed"), w)
  else
    let cut := w.file.setLen 0
    if !io.seek then (.error (.io "seek failed"), { w with file := cut })
    else
      let rewound := cut.seek 0
      match io.write with
      | some n =>
        (.error (.io "write failed"),
          { w with file := rewound.writeAll ((headerBytes walVersion).take n) })
      | none => (.ok (), ⟨rewound.writeAll (headerBytes walVersion), walVersion⟩)

/-- Drop everything after `validEnd`. -/
def truncateToWith (io : TruncateIo) (w : Wal) (validEnd : ℕ) :
    Except StorageError Unit × Wal :=
  let validEnd := max validEnd walHeaderSize
  if !io.setLen then (.error (.io "set_len failed"), w)
  else
    let cut := w.file.setLen validEnd
    if !io.seek then (.error (.io "seek failed"), { w with file := cut })
    else (.ok (), { w with file := cut.seek validEnd })

/-- Append a batch. The cursor is asked for before anything is written, so a failure there leaves
the file alone; a failed write is rolled back. -/
def appendBatchWith (C : WalCodec) (position : Bool) (write : Option ℕ) (w : Wal)
    (ops : List WalOp) : Except StorageError Unit × Wal :=
  if position then w.appendBatch C { write := write } ops
  else
    match w.appendBatch C .ok ops with
    | (.error e, _) => (.error e, w)
    | (.ok (), _) =>
      if ops.isEmpty then (.ok (), w) else (.error (.io "stream_position failed"), w)

/-- Nothing fails in `clear`. -/
lemma clearWith_ok (w : Wal) : w.clearWith {} = (.ok (), w.clear) := rfl

/-- Nothing fails in `truncate_to`. -/
lemma truncateToWith_ok (w : Wal) (validEnd : ℕ) :
    w.truncateToWith {} validEnd = (.ok (), w.truncateTo validEnd) := rfl

/-- Nothing fails in `append_batch`. -/
lemma appendBatchWith_ok (w : Wal) (ops : List WalOp) :
    w.appendBatchWith C true none ops = w.appendBatch C .ok ops := rfl

end Wal

/-! ## Runs -/

/-- A call on the log, with the way its system calls end. -/
inductive WalCall
  | append (op : WalOp) (position : Bool) (write : Option ℕ)
  | appendBatch (ops : List WalOp) (position : Bool) (write : Option ℕ)
  | clear (io : ClearIo)
  | truncateTo (validEnd : ℕ) (io : TruncateIo)
  | flush (synced : Bool)

/-- Carry out a call. -/
def Wal.perform (C : WalCodec) (w : Wal) : WalCall → Except StorageError Unit × Wal
  | .append op position write => w.appendBatchWith C position write [op]
  | .appendBatch ops position write => w.appendBatchWith C position write ops
  | .clear io => w.clearWith io
  | .truncateTo validEnd io => w.truncateToWith io validEnd
  | .flush synced => (if synced then .ok () else .error (.io "sync failed"), w)

/-- The operations acknowledged since the last successful clear, after a call that gave this
answer. -/
def WalCall.acknowledge (acked : List WalOp) (answer : Except StorageError Unit) :
    WalCall → List WalOp
  | .append op _ _ => if answer.isOk then acked ++ [op] else acked
  | .appendBatch ops _ _ => if answer.isOk then acked ++ ops else acked
  | .clear _ => if answer.isOk then [] else acked
  | .truncateTo _ _ => acked
  | .flush _ => acked

/-- The logs that runs of calls reach from a new one, with the operations acknowledged; every call
meets `meets`. The log may be closed and opened at any point. -/
inductive LogRun (C : WalCodec) (meets : Wal → WalCall → Prop) : Wal → List WalOp → Prop
  | new {w : Wal} : Wal.open none = .ok w → LogRun C meets w []
  | reopen {w w' : Wal} {acked : List WalOp} : LogRun C meets w acked →
      Wal.open (some w.file.bytes) = .ok w' → LogRun C meets w' acked
  | call {w : Wal} {acked : List WalOp} (c : WalCall) : LogRun C meets w acked → meets w c →
      LogRun C meets (w.perform C c).2 (c.acknowledge acked (w.perform C c).1)

/-- A `clear` none of whose calls fails once its `set_len` has emptied the file, and a `truncate_to`
given the end that its contract asks for and a reader of the whole log reports. Appends may fail
anywhere. -/
def Wal.Unharmed (C : WalCodec) (w : Wal) : WalCall → Prop
  | .append _ _ _ => True
  | .appendBatch _ _ _ => True
  | .clear io => io.setLen = true → io.seek = true ∧ io.write = none
  | .truncateTo validEnd _ => validEnd = (w.readAll C).2.1
  | .flush _ => True

/-! ## What a call keeps -/

/-- With the cursor at the end of the file, cutting back to it undoes a write. -/
lemma File.rollback_writeAll {f : File} (h : f.pos = f.bytes.length) (buf : List UInt8) :
    ((f.writeAll buf).setLen f.pos).seek f.pos = f := by
  obtain ⟨bytes, pos⟩ := f
  obtain rfl : pos = bytes.length := h
  simp [File.writeAll, File.setLen, File.seek]

/-- Setting the length a file has, the cursor at its end, changes nothing. -/
lemma File.setLen_length (f : File) : f.setLen f.bytes.length = f := by
  simp [File.setLen]

namespace Wal

variable {w : Wal} {ops : List WalOp}

/-- An append whose write fails leaves the log as it was, unless there was nothing to write. -/
lemma appendBatch_rolled_back (h : w.file.pos = w.file.bytes.length) (n : ℕ) (new : List WalOp) :
    (w.appendBatch C { write := some n } new).2 = w ∧
      ((w.appendBatch C { write := some n } new).1.isOk = true → new = []) := by
  unfold appendBatch
  by_cases hnil : new = []
  · simp [hnil]
  simp only [List.isEmpty_iff, if_neg hnil]
  by_cases hup : w.needsUpgrade = true
  · simp [hup, Except.isOk, Except.toBool]
  simp only [if_neg hup]
  cases new.foldlM (writeOpToBuffer C) [] with
  | error e => simp [Except.isOk, Except.toBool]
  | ok buf => simp [File.rollback_writeAll h, Except.isOk, Except.toBool]

section

variable (h : w.Holds C ops [])
include h

/-- Whatever happens to an append, a log in good form stays so, and holds the batch if and only if
the append was acknowledged. -/
lemma Holds.appendBatchWith (position : Bool) (write : Option ℕ)
    (new : List WalOp) : (w.appendBatchWith C position write new).2.Holds C
      (if (w.appendBatchWith C position write new).1.isOk then ops ++ new else ops) [] := by
  rcases hplain : w.appendBatch C .ok new with ⟨answer, w'⟩
  unfold Wal.appendBatchWith
  cases position with
  | false =>
    cases answer with
    | error e => simpa [hplain, Except.isOk, Except.toBool] using h
    | ok _ =>
      by_cases hnil : new = []
      · subst hnil
        simpa [hplain, Except.isOk, Except.toBool] using h
      · simpa [hplain, hnil, Except.isOk, Except.toBool] using h
  | true =>
    cases write with
    | none =>
      have hio : ({ write := none } : AppendIo) = .ok := rfl
      simp only [if_true, hio, hplain]
      cases answer with
      | error e =>
        rw [appendBatch_refused hplain]
        exact h
      | ok _ => exact h.appendBatch hplain
    | some n =>
      obtain ⟨hsame, hempty⟩ := appendBatch_rolled_back (C := C) h.pos n new
      simp only [if_true, hsame]
      split
      · next hok =>
        rw [hempty hok, List.append_nil]
        exact h
      · exact h

/-- Truncating a log in good form to its end changes nothing, whichever call fails. -/
lemma Holds.truncateToWith (io : TruncateIo) : (w.truncateToWith io w.file.bytes.length).2 = w := by
  have hmax : max w.file.bytes.length walHeaderSize = w.file.bytes.length := by
    rw [h.bytes]
    simp [length_headerBytes]
  have hseek : w.file.seek w.file.bytes.length = w.file := by
    rw [← h.pos]
    rfl
  unfold Wal.truncateToWith
  simp only [hmax, File.setLen_length, hseek]
  cases io.setLen <;> cases io.seek <;> rfl

/-- **One call.** A log that holds exactly the operations acknowledged still does after a call
that cannot damage it. -/
lemma Holds.perform {c : WalCall} (hc : w.Unharmed C c) :
    (w.perform C c).2.Holds C (c.acknowledge ops (w.perform C c).1) [] := by
  cases c with
  | append op position write => exact h.appendBatchWith position write [op]
  | appendBatch new position write => exact h.appendBatchWith position write new
  | clear io =>
    obtain ⟨setLen, seek, write⟩ := io
    cases setLen with
    | false => exact h
    | true =>
      obtain ⟨rfl, rfl⟩ := hc rfl
      exact holds_clear C w
  | truncateTo validEnd io =>
    have hend : validEnd = w.file.bytes.length := by
      rw [hc, h.readAll_clean]
    show (w.truncateToWith io validEnd).2.Holds C ops []
    rw [hend, h.truncateToWith io]
    exact h
  | flush synced => exact h

/-- Opening a log in good form gives it back. -/
lemma Holds.open : ∃ w', Wal.open (some w.file.bytes) = .ok w' ∧ w'.Holds C ops [] := by
  rw [h.bytes]
  exact holds_open h.fits h.bad

end

end Wal

/-! ## What a run keeps -/

/-- In a run of calls that cannot damage it, the log holds the operations acknowledged. -/
lemma LogRun.holds {w : Wal} {acked : List WalOp} (h : LogRun C (Wal.Unharmed C) w acked) :
    w.Holds C acked [] := by
  induction h with
  | new hnew =>
    obtain ⟨w₁, hopen, hholds⟩ := Wal.holds_open_none
    cases hopen.symm.trans hnew
    exact hholds
  | reopen _ hopen ih =>
    obtain ⟨w₁, hopen', hholds⟩ := ih.open
    cases hopen'.symm.trans hopen
    exact hholds
  | call c _ hc ih => exact ih.perform hc

/-- **The log survives failed calls.** Take any run of calls on a new log in which appends fail
anywhere, `truncate_to` is given the end of the log, and no `clear` fails once it has emptied the
file: at every point the file reopens, and it reads back to its last byte as the operations
acknowledged since the last clear. **Proof sketch.** The log is a header and the frames of those
operations, with the cursor at the end. A failed append is cut back to it, a truncation to the end
changes nothing, and a clear does not start or goes through (`Wal.Holds.perform`). -/
theorem wal_survives_failed_calls (C : WalCodec) (w : Wal) (acked : List WalOp)
    (h : LogRun C (Wal.Unharmed C) w acked) : ∃ w', Wal.open (some w.file.bytes) = .ok w' ∧
      w'.readAll C = (acked, w'.file.bytes.length, 0) := by
  obtain ⟨w', hopen, hholds⟩ := h.holds.open
  exact ⟨w', hopen, hholds.readAll_clean⟩

/-- An append that fails after three bytes, one that does not, a clear that cannot start, a
truncation that fails halfway, and a flush: the operation acknowledged is read back. -/
theorem wal_survives_failed_calls_sample : ∃ w,
    LogRun bincode (Wal.Unharmed bincode) w [.delete 8] ∧
    ∃ w', Wal.open (some w.file.bytes) = .ok w' ∧
      w'.readAll bincode = ([.delete 8], w'.file.bytes.length, 0) := by
  have hnew : LogRun bincode (Wal.Unharmed bincode)
      ⟨⟨headerBytes walVersion, walHeaderSize⟩, walVersion⟩ [] := .new (by decide)
  have h₁ := hnew.call (.append (.delete 7) true (some 3)) trivial
  have h₂ := h₁.call (.appendBatch [.delete 8] true none) trivial
  have h₃ := h₂.call (.clear { setLen := false }) (by rintro ⟨⟩)
  have h₄ := h₃.call (.truncateTo 28 { seek := false })
    (by show 28 = (Wal.readAll bincode _).2.1; decide +kernel)
  have h₅ := h₄.call (.flush true) trivial
  exact ⟨_, h₅, wal_survives_failed_calls bincode _ _ h₅⟩

/-- A `clear` whose header write fails loses the operation acknowledged before it. One whose `seek`
fails leaves the cursor behind an empty file: the next append is acknowledged, and the file has
zeros for a header and cannot be opened. -/
theorem failed_clear_loses_log : (∃ w, LogRun bincode (fun _ _ => True) w [.delete 7] ∧
      ∃ w', Wal.open (some w.file.bytes) = .ok w' ∧ w'.readAll bincode = ([], 8, 0)) ∧
    ∃ w, LogRun bincode (fun _ _ => True) w [.delete 7, .delete 8] ∧
      Wal.open (some w.file.bytes) = .error (.invalidArgument "WAL has invalid magic") := by
  have hnew : LogRun bincode (fun _ _ => True)
      ⟨⟨headerBytes walVersion, walHeaderSize⟩, walVersion⟩ [] := .new (by decide)
  have h₁ := hnew.call (.append (.delete 7) true none) trivial
  constructor
  · exact ⟨_, h₁.call (.clear { write := some 0 }) trivial, _, rfl, by decide +kernel⟩
  · have h₂ := h₁.call (.clear { seek := false }) trivial
    exact ⟨_, h₂.call (.append (.delete 8) true none) trivial, by decide +kernel⟩

end TurboMemory
