import Mathlib.Data.List.Basic
import Mathlib.Data.Nat.Digits.Defs

/-!
# Byte strings: fixed-width integers, self-delimiting codecs, CRC-32

An integer is written in a fixed number of bytes, in either byte order (`natLE`, `natBE`, with the
readers `ofLE`, `ofBE`); a value of a compound type is written by a `Codec`, which reads back what
it wrote and leaves the bytes that follow alone; a block of bytes is summarised by its `crc32`.

## Implementation notes

`Codec.nat64` writes every number below `2⁶⁴ - 1` as its eight little-endian bytes. The model
counts in `ℕ`, so the remaining numbers need some encoding too for the reader to be a left inverse
everywhere; they are escaped by the word `2⁶⁴ - 1` (`Codec.counter`).
-/

set_option autoImplicit false

namespace Bytes

open Option

/-! ## Fixed-width integers -/

/-- The `w` low bytes of `n`, least significant first. -/
def natLE : ℕ → ℕ → List UInt8
  | 0, _ => []
  | w + 1, n => UInt8.ofNat n :: natLE w (n / 256)

/-- The number a little-endian byte string spells. -/
def ofLE : List UInt8 → ℕ
  | [] => 0
  | b :: bs => b.toNat + 256 * ofLE bs

/-- The `w` low bytes of `n`, most significant first. -/
def natBE (w n : ℕ) : List UInt8 := (natLE w n).reverse

/-- The number a big-endian byte string spells. -/
def ofBE (bs : List UInt8) : ℕ := ofLE bs.reverse

/-- It has `w` bytes. -/
@[simp] lemma length_natLE : ∀ w n, (natLE w n).length = w
  | 0, _ => rfl
  | w + 1, n => by simp [natLE, length_natLE w]

/-- It has `w` bytes. -/
@[simp] lemma length_natBE (w n : ℕ) : (natBE w n).length = w := by simp [natBE]

/-- A number that fits in `w` bytes is read back from them. -/
lemma ofLE_natLE : ∀ w n, n < 256 ^ w → ofLE (natLE w n) = n
  | 0, n, h => by simp_all [ofLE, natLE]
  | w + 1, n, h => by
    have hdiv : n / 256 < 256 ^ w := by
      rw [Nat.div_lt_iff_lt_mul (by norm_num)]
      rwa [pow_succ] at h
    rw [natLE, ofLE, ofLE_natLE w _ hdiv, UInt8.toNat_ofNat']
    omega

/-- A number that fits in `w` bytes is read back from them, big-endian. -/
lemma ofBE_natBE (w n : ℕ) (h : n < 256 ^ w) : ofBE (natBE w n) = n := by
  rw [ofBE, natBE, List.reverse_reverse, ofLE_natLE w n h]

/-! ## Self-delimiting codecs -/

/-- A writer and a reader of `α`. The reader consumes exactly what the writer produced and
returns the bytes that follow. -/
structure Codec (α : Type) where
  put : α → List UInt8
  get : List UInt8 → Option (α × List UInt8)
  get_put : ∀ a rest, get (put a ++ rest) = some (a, rest)

namespace Codec

variable {α β : Type}

/-- Read `n` bytes, if there are that many. -/
def takeExact (n : ℕ) (bs : List UInt8) : Option (List UInt8 × List UInt8) :=
  if bs.length < n then none else some (bs.take n, bs.drop n)

/-- Bytes are read off the front of what they are followed by. -/
lemma takeExact_append (xs rest : List UInt8) :
    takeExact xs.length (xs ++ rest) = some (xs, rest) := by
  simp [takeExact]

variable (c : Codec α)

/-- Transport along a pair of inverse maps. -/
def iso (f : β → α) (g : α → β) (h : ∀ b, g (f b) = b) : Codec β where
  put b := c.put (f b)
  get bs := (c.get bs).map fun r => (g r.1, r.2)
  get_put b rest := by simp [c.get_put, h]

/-- One value after another. -/
def pair (d : Codec β) : Codec (α × β) where
  put p := c.put p.1 ++ d.put p.2
  get bs := (c.get bs).bind fun r => (d.get r.2).map fun q => ((r.1, q.1), q.2)
  get_put p rest := by
    rw [List.append_assoc, c.get_put, bind_some, d.get_put, map_some]

/-- A 32-bit word: four little-endian bytes. -/
def u32 : Codec UInt32 where
  put n := natLE 4 n.toNat
  get bs := (takeExact 4 bs).map fun r => (UInt32.ofNat (ofLE r.1), r.2)
  get_put n rest := by
    have htake := takeExact_append (natLE 4 n.toNat) rest
    rw [length_natLE] at htake
    rw [htake, map_some, ofLE_natLE 4 _ n.toNat_lt, UInt32.ofNat_toNat]

/-- `n` times the byte `1`, then the byte `0`. -/
def unary : Codec ℕ where
  put n := List.replicate n 1 ++ [0]
  get bs := match bs.dropWhile (· == 1) with
    | [] => none
    | _ :: rest => some (bs.length - rest.length - 1, rest)
  get_put n rest := by
    have hdrop : (List.replicate n (1 : UInt8) ++ [0] ++ rest).dropWhile (· == 1)
        = 0 :: rest := by
      simp
    rw [hdrop]
    simp
    omega

/-- A counter of `w` bytes: its little-endian bytes below `256 ^ w - 1`, escaped above. -/
def counter (w : ℕ) : Codec ℕ where
  put n := if n < 256 ^ w - 1 then natLE w n
    else natLE w (256 ^ w - 1) ++ unary.put (n - (256 ^ w - 1))
  get bs := (takeExact w bs).bind fun r =>
    if ofLE r.1 < 256 ^ w - 1 then some (ofLE r.1, r.2)
    else (unary.get r.2).map fun q => (q.1 + (256 ^ w - 1), q.2)
  get_put n rest := by
    have hpos : 0 < 256 ^ w := by positivity
    have htake (m : ℕ) (bs : List UInt8) :
        takeExact w (natLE w m ++ bs) = some (natLE w m, bs) := by
      simpa using takeExact_append (natLE w m) bs
    by_cases h : n < 256 ^ w - 1
    · rw [if_pos h, htake, bind_some, ofLE_natLE w n (by omega), if_pos h]
    · rw [if_neg h, List.append_assoc, htake, bind_some,
        ofLE_natLE w _ (by omega), if_neg (by omega), unary.get_put, map_some,
        Nat.sub_add_cancel (by omega)]

/-- A 64-bit counter. -/
def nat64 : Codec ℕ := counter 8

/-- Read `n` elements. -/
def getMany (c : Codec α) : ℕ → List UInt8 → Option (List α × List UInt8)
  | 0, bs => some ([], bs)
  | n + 1, bs => (c.get bs).bind fun r =>
    (getMany c n r.2).map fun q => (r.1 :: q.1, q.2)

/-- Elements are read back, whatever follows them. -/
lemma getMany_flatten (xs : List α) (rest : List UInt8) :
    getMany c xs.length ((xs.map c.put).flatten ++ rest) = some (xs, rest) := by
  induction xs with
  | nil => rfl
  | cons x xs ih => simp [getMany, c.get_put, ih]

/-- The elements in order, behind their number. -/
def list : Codec (List α) where
  put xs := nat64.put xs.length ++ (xs.map c.put).flatten
  get bs := (nat64.get bs).bind fun r => getMany c r.1 r.2
  get_put xs rest := by
    rw [List.append_assoc, nat64.get_put, bind_some, getMany_flatten]

/-- A tag byte, `0` for none and `1` for some, then the value. -/
def option : Codec (Option α) where
  put
    | none => [0]
    | some a => 1 :: c.put a
  get
    | [] => none
    | b :: bs => if b = 0 then some (none, bs)
      else if b = 1 then (c.get bs).map fun r => (some r.1, r.2) else none
  get_put o rest := by
    cases o with
    | none => simp
    | some a => simp [c.get_put]

/-- The UTF-8 bytes of a string, behind their number. -/
def string : Codec String where
  put s := nat64.put s.toUTF8.data.toList.length ++ s.toUTF8.data.toList
  get bs := (nat64.get bs).bind fun r => (takeExact r.1 r.2).bind fun q =>
    (String.fromUTF8? ⟨q.1.toArray⟩).map fun s => (s, q.2)
  get_put s rest := by
    rw [List.append_assoc, nat64.get_put, bind_some]
    simp only [takeExact_append, bind_some, Array.toArray_toList]
    have hvalid : s.toUTF8.IsValidUTF8 := s.isValidUTF8
    simp only [String.fromUTF8?, hvalid, dite_true, map_some]
    rfl

end Codec

/-! ## CRC-32 -/

/-- One bit of the reflected IEEE polynomial division. -/
def crcBit (c : UInt32) : UInt32 :=
  if c &&& 1 = 1 then (c >>> 1) ^^^ 0xEDB88320 else c >>> 1

/-- Eight bits of the division, after folding in the next byte. -/
def crcByte (c : UInt32) (b : UInt8) : UInt32 := crcBit^[8] (c ^^^ b.toUInt32)

/-- The IEEE CRC-32 of a byte string. -/
def crc32 (bs : List UInt8) : UInt32 := bs.foldl crcByte 0xFFFFFFFF ^^^ 0xFFFFFFFF

-- The check value of the CRC-32 catalogue: the sum of the ASCII digits "123456789".
example : crc32 [49, 50, 51, 52, 53, 54, 55, 56, 57] = 0xCBF43926 := by decide +kernel

end Bytes
