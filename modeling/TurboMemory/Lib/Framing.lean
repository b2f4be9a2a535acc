import TurboMemory.Lib.Bytes

/-!
# Checksummed frames

A log of records written one after another as *frames*: the length of the payload as a
big-endian 32-bit word, the payload, and the checksum of the payload as a second word. A
reader goes from frame to frame and stops at the first one that is torn, has an impossible
length, fails its checksum or does not decode (`scan`).

## Main results

* `Framing.readFrame_frame`, `Framing.readFrame_take_frame` — a frame is read back, whatever
  follows it, and one cut short is not.
* `Framing.scan_frames_append` — a log followed by a bad tail scans to exactly the log.
* `Framing.take_frames` — a log cut at any byte is a log of its whole frames followed by a
  bad tail.
-/

set_option autoImplicit false

namespace Framing

open Bytes List

/-- The payload format of a log: an encoding with its decoder, and a checksum. Every payload is read
back, and none is empty. -/
structure Format (α : Type) where
  enc : α → List UInt8
  dec : List UInt8 → Option α
  crc : List UInt8 → UInt32
  dec_enc : ∀ a, dec (enc a) = some a
  enc_ne_nil : ∀ a, enc a ≠ []

variable {α : Type} (F : Format α)

/-- A payload whose length a 32-bit word can hold. -/
def Fits (a : α) : Prop := (F.enc a).length < 2 ^ 32

/-- Length, payload, checksum. -/
def frame (a : α) : List UInt8 :=
  natBE 4 (F.enc a).length ++ F.enc a ++ natBE 4 (F.crc (F.enc a)).toNat

/-- The frames of a list of records, one after another. -/
def frames (as : List α) : List UInt8 := (as.map (frame F)).flatten

/-- Read one frame off the front: its record and the bytes behind it. -/
def readFrame (bs : List UInt8) : Option (α × List UInt8) :=
  let len := ofBE (bs.take 4)
  let payload := (bs.drop 4).take len
  if bs.length < 8 then none
  else if len = 0 ∨ bs.length - 8 < len then none
  else if ofBE ((bs.drop (4 + len)).take 4) ≠ (F.crc payload).toNat then none
  else (F.dec payload).map fun a => (a, bs.drop (len + 8))

/-- Read frames until one is bad: the records, and the bytes from the bad frame on. The fuel
bounds the number of frames. -/
def scan : ℕ → List UInt8 → List α × List UInt8
  | 0, bs => ([], bs)
  | fuel + 1, bs =>
    match readFrame F bs with
    | none => ([], bs)
    | some (a, rest) => ((a :: (scan fuel rest).1), (scan fuel rest).2)

/-- The number of leading records whose frames lie within the first `n` bytes. -/
def wholeFrames : List α → ℕ → ℕ
  | [], _ => 0
  | a :: as, n =>
    if (frame F a).length ≤ n then wholeFrames as (n - (frame F a).length) + 1 else 0

/-! ## One frame -/

variable {F}

/-- Two words around the payload. -/
@[simp] lemma length_frame (a : α) : (frame F a).length = (F.enc a).length + 8 := by
  simp [frame]; omega

/-- No record, no bytes. -/
@[simp] lemma frames_nil : frames F [] = [] := rfl

/-- The first frame comes first. -/
@[simp] lemma frames_cons (a : α) (as : List α) : frames F (a :: as) = frame F a ++ frames F as :=
  rfl

/-- Logs are put together. -/
lemma frames_append (as bs : List α) : frames F (as ++ bs) = frames F as ++ frames F bs := by
  simp [frames]

variable {a : α}

/-- The length word of a frame spells the length of its payload. -/
lemma ofBE_take_frame (h : Fits F a) (rest : List UInt8) :
    ofBE ((frame F a ++ rest).take 4) = (F.enc a).length := by
  have htake : (frame F a ++ rest).take 4 = natBE 4 (F.enc a).length := by
    simp [frame, append_assoc]
  rw [htake, ofBE_natBE 4 _ (by simpa [Fits] using h)]

/-- **A frame is read back**, whatever bytes follow it. -/
lemma readFrame_frame (h : Fits F a) (rest : List UInt8) :
    readFrame F (frame F a ++ rest) = some (a, rest) := by
  have hlen := ofBE_take_frame h rest
  have hpos : 0 < (F.enc a).length := length_pos_iff.mpr (F.enc_ne_nil a)
  have hpayload : ((frame F a ++ rest).drop 4).take (F.enc a).length = F.enc a := by
    simp [frame, append_assoc]
  have hcrc : ((frame F a ++ rest).drop (4 + (F.enc a).length)).take 4
      = natBE 4 (F.crc (F.enc a)).toNat := by
    simp [frame, append_assoc, drop_append, take_append]
  have hrest : (frame F a ++ rest).drop ((F.enc a).length + 8) = rest := by
    rw [← length_frame, drop_left]
  have hword : (F.crc (F.enc a)).toNat < 256 ^ 4 := (F.crc (F.enc a)).toNat_lt
  simp only [readFrame, hlen, hpayload, hcrc, hrest, ofBE_natBE 4 _ hword, F.dec_enc,
    length_append, length_frame]
  rw [if_neg (by omega), if_neg (by omega), if_neg (by simp), Option.map_some]

/-- **A frame cut short is not read.** -/
lemma readFrame_take_frame (h : Fits F a) {n : ℕ} (hn : n < (frame F a).length) :
    readFrame F ((frame F a).take n) = none := by
  rw [length_frame] at hn
  have hlength : ((frame F a).take n).length = n := by
    rw [length_take, length_frame]; omega
  by_cases h8 : n < 8
  · simp only [readFrame, hlength, if_pos h8]
  · -- The length word is there, and asks for more bytes than the cut left.
    have hlen : ofBE (((frame F a).take n).take 4) = (F.enc a).length := by
      rw [take_take, min_eq_left (by omega)]
      simpa using ofBE_take_frame h []
    simp only [readFrame, hlength, if_neg h8, hlen]
    rw [if_pos (by omega)]

/-- A frame that is read took at least nine bytes. -/
lemma length_lt_of_readFrame {bs rest : List UInt8}
    (h : readFrame F bs = some (a, rest)) : rest.length < bs.length := by
  simp only [readFrame] at h
  split_ifs at h with h8 hlen hcrc
  obtain ⟨_, -, hpair⟩ := Option.map_eq_some_iff.mp h
  obtain rfl : bs.drop (ofBE (bs.take 4) + 8) = rest := congrArg Prod.snd hpair
  rw [length_drop]
  omega

/-! ## The log -/

variable {as : List α} {tail : List UInt8}

/-- **A log followed by a bad tail scans to exactly the log.** -/
lemma scan_frames_append (h : ∀ a ∈ as, Fits F a)
    (htail : readFrame F tail = none) {fuel : ℕ} (hfuel : as.length ≤ fuel) :
    scan F fuel (frames F as ++ tail) = (as, tail) := by
  induction as generalizing fuel with
  | nil => cases fuel <;> simp [scan, htail]
  | cons a as ih =>
    obtain ⟨fuel, rfl⟩ : ∃ k, fuel = k + 1 := ⟨fuel - 1, by simp at hfuel; omega⟩
    have hih := ih (fun b hb => h b (by simp [hb])) (by simpa using hfuel)
    simp only [frames_cons, append_assoc, scan, readFrame_frame (h a (by simp)), hih]

/-- A log that scans to itself is followed by a bad tail. -/
lemma readFrame_eq_none_of_scan (h : ∀ a ∈ as, Fits F a)
    {fuel : ℕ} (hfuel : as.length < fuel) (hscan : (scan F fuel (frames F as ++ tail)).1 = as) :
    readFrame F tail = none := by
  obtain ⟨fuel, rfl⟩ : ∃ k, fuel = k + 1 := ⟨fuel - 1, by omega⟩
  induction as generalizing fuel with
  | nil =>
    cases hread : readFrame F tail with
    | none => rfl
    | some p => simp [scan, hread] at hscan
  | cons a as ih =>
    rw [length_cons] at hfuel
    obtain ⟨fuel, rfl⟩ : ∃ k, fuel = k + 1 := ⟨fuel - 1, by omega⟩
    simp only [frames_cons, append_assoc, scan, readFrame_frame (h a (by simp)),
      cons.injEq, true_and] at hscan
    exact ih (fun b hb => h b (by simp [hb])) fuel (by omega) hscan

/-- A log has at least as many bytes as records. -/
lemma length_le_length_frames (as : List α) : as.length ≤ (frames F as).length := by
  induction as with
  | nil => simp
  | cons a as ih =>
    rw [frames_cons, length_append, length_frame, length_cons]
    omega

/-- Every frame is whole when all bytes are kept. -/
lemma wholeFrames_eq_length (as : List α) {n : ℕ} (h : (frames F as).length ≤ n) :
    wholeFrames F as n = as.length := by
  induction as generalizing n with
  | nil => rfl
  | cons a as ih =>
    rw [frames_cons, length_append] at h
    rw [wholeFrames, if_pos (by omega), ih (by omega), length_cons]

/-- **A log cut at any byte** is the log of its whole frames followed by a bad tail. -/
lemma take_frames (h : ∀ a ∈ as, Fits F a) (n : ℕ) :
    ∃ tail, (frames F as).take n = frames F (as.take (wholeFrames F as n)) ++ tail ∧
      readFrame F tail = none := by
  induction as generalizing n with
  | nil => exact ⟨[], by simp, rfl⟩
  | cons a as ih =>
    by_cases hle : (frame F a).length ≤ n
    · obtain ⟨tail, heq, hbad⟩ := ih (fun b hb => h b (by simp [hb])) (n - (frame F a).length)
      refine ⟨tail, ?_, hbad⟩
      rw [wholeFrames, if_pos hle, frames_cons, take_append, heq, take_succ_cons,
        frames_cons, take_of_length_le hle, append_assoc]
    · -- The cut falls inside the first frame.
      refine ⟨(frame F a).take n, ?_, readFrame_take_frame (h a (by simp)) (by omega)⟩
      rw [wholeFrames, if_neg hle, frames_cons, take_append_of_le_length (by omega)]
      simp

end Framing
