import Mathlib

/-!
# Packed codes

A quantizer gives a vector one code of a few bits for each coordinate, and stores the codes without
gaps: bit `j` of code `i` is bit `i * bits + j` of the bytes. A code may lie across two bytes.

## Main results

* `packCodes_roundTrip` — each direction undoes the other.
-/

set_option autoImplicit false

namespace TurboMemory

open List

variable {bits dim : ℕ} {bytes out : List (BitVec 8)} {code : BitVec 8}

/-- The number of bytes that the codes of a vector take. -/
def packedBytes (dim bits : ℕ) : ℕ := (dim * bits + 7) / 8

/-- Packs one code. There is room for all codes, so both indices are in bounds. -/
def packCode (bits : ℕ) (out : List (BitVec 8)) : BitVec 8 × ℕ → List (BitVec 8)
  | (code, i) =>
    let bitPos := i * bits
    let bytePos := bitPos / 8
    let shift := bitPos % 8
    let out := out.modify bytePos (· ||| code <<< shift)
    if 8 < shift + bits then out.modify (bytePos + 1) (· ||| code >>> (8 - shift)) else out

/-- Packs the codes of a vector. -/
def packCodes (codes : List (BitVec 8)) (bits : ℕ) : List (BitVec 8) :=
  codes.zipIdx.foldl (packCode bits) (replicate (packedBytes codes.length bits) 0#8)

/-- Unpacks one code. -/
def unpackCode (encoded : List (BitVec 8)) (bits i : ℕ) : BitVec 8 :=
  let mask : BitVec 8 := ((1#16 <<< bits) - 1).setWidth 8
  let bitPos := i * bits
  let bytePos := bitPos / 8
  let shift := bitPos % 8
  let low := encoded.getD bytePos 0#8 >>> shift
  let high : BitVec 16 :=
    if 8 < shift + bits then (encoded.getD (bytePos + 1) 0#8).setWidth 16 <<< (8 - shift) else 0#16
  ((low.setWidth 16 ||| high) &&& mask.setWidth 16).setWidth 8

/-- Unpacks the codes of a vector. -/
def unpackCodes (encoded : List (BitVec 8)) (bits dim : ℕ) : List (BitVec 8) :=
  (range dim).map (unpackCode encoded bits)

/-- A bit of some bytes. -/
def bitAt (bytes : List (BitVec 8)) (p : ℕ) : Bool := (bytes.getD (p / 8) 0#8).getLsbD (p % 8)

/-- Bytes with the same bits are equal. -/
lemma eq_of_bitAt (hlength : bytes.length = out.length) (h : ∀ p, bitAt bytes p = bitAt out p) :
    bytes = out := by
  refine ext_getElem hlength fun q hq hq' => BitVec.eq_of_getLsbD_eq fun j hj => ?_
  have hbit := h (8 * q + j)
  rw [bitAt, bitAt, show (8 * q + j) / 8 = q by omega, show (8 * q + j) % 8 = j by omega] at hbit
  simpa [hq, hq'] using hbit

/-- Bits of a byte that others are put into. -/
lemma bitAt_modify {q : ℕ} (hq : q < out.length) (b : BitVec 8) (p : ℕ) :
    bitAt (out.modify q (· ||| b)) p =
      (bitAt out p || (decide (p / 8 = q) && b.getLsbD (p % 8))) := by
  by_cases h : p / 8 = q
  · subst h
    simp [bitAt, hq]
  · simp [bitAt, h, Ne.symm h]

/-- A code of `bits` bits has no other bits. -/
lemma getLsbD_of_toNat_lt (h : code.toNat < 2 ^ bits) {j : ℕ} (hj : bits ≤ j) :
    code.getLsbD j = false :=
  Nat.testBit_lt_two_pow (h.trans_le (Nat.pow_le_pow_right two_pos hj))

/-- A code goes into the bytes that are there. -/
@[simp]
lemma length_packCode (p : BitVec 8 × ℕ) : (packCode bits out p).length = out.length := by
  rw [packCode]
  split <;> simp

section

variable (hbits : 1 ≤ bits)
include hbits

/-- A packed code is in its place, and all other bits are as before. -/
lemma bitAt_packCode {i : ℕ} (hi : i < dim) (hlength : out.length = packedBytes dim bits)
    (hcode : code.toNat < 2 ^ bits) (p : ℕ) : bitAt (packCode bits out (code, i)) p =
      (bitAt out p || (decide (i * bits ≤ p) && code.getLsbD (p - i * bits))) := by
  have hroom : i * bits + bits ≤ dim * bits := by
    rw [← Nat.succ_mul]
    exact Nat.mul_le_mul_right _ hi
  rw [packedBytes] at hlength
  rw [packCode]
  generalize i * bits = pos at hroom ⊢
  have hlow := bitAt_modify (show pos / 8 < out.length by omega) (code <<< (pos % 8)) p
  rw [BitVec.getLsbD_shiftLeft] at hlow
  split
  · rw [bitAt_modify (by rw [length_modify]; omega), hlow, BitVec.getLsbD_ushiftRight]
    have := @BitVec.getLsbD_of_ge 8 code (p - pos)
    grind
  · rw [hlow]
    have := @getLsbD_of_toNat_lt _ _ hcode (p - pos)
    grind

/-- The loop over the codes from number `k` on. -/
lemma bitAt_foldl_packCode (codes : List (BitVec 8)) (k : ℕ)
    (hcodes : ∀ c ∈ codes, c.toNat < 2 ^ bits) (hk : k + codes.length ≤ dim)
    (hlength : out.length = packedBytes dim bits) :
    let packed := (codes.zipIdx k).foldl (packCode bits) out
    packed.length = out.length ∧ ∀ i j, j < bits → bitAt packed (i * bits + j) =
      (bitAt out (i * bits + j) || (decide (k ≤ i) && (codes.getD (i - k) 0#8).getLsbD j)) := by
  induction codes generalizing k out with
  | nil => simp
  | cons c codes ih =>
    obtain ⟨hc, hcodes⟩ := forall_mem_cons.mp hcodes
    rw [length_cons] at hk
    obtain ⟨hlen, hbit⟩ := @ih (packCode bits out (c, k)) (k + 1) hcodes (by omega) (by simpa)
    refine ⟨by simpa using hlen, fun i j hj => ?_⟩
    rw [zipIdx_cons, foldl_cons, hbit i j hj, bitAt_packCode hbits (by omega) hlength hc,
      Bool.or_assoc]
    congr 1
    rcases lt_trichotomy k i with h | rfl | h
    · -- A code before the one of the bit ends before it.
      have hle := Nat.mul_le_mul_right bits (show k + 1 ≤ i from h)
      rw [Nat.succ_mul] at hle
      rw [getLsbD_of_toNat_lt hc (by omega), show i - k = i - (k + 1) + 1 by omega]
      simp [show k + 1 ≤ i from h, h.le]
    · simp
    · have hle := Nat.mul_le_mul_right bits (show i + 1 ≤ k from h)
      rw [Nat.succ_mul] at hle
      simp [h.not_ge, show ¬ k + 1 ≤ i by omega, show ¬ k * bits ≤ i * bits + j by omega]

/-- A packed code is in its place, and no bit is set where there is no code. -/
lemma bitAt_packCodes (codes : List (BitVec 8)) (hcodes : ∀ c ∈ codes, c.toNat < 2 ^ bits) :
    (packCodes codes bits).length = packedBytes codes.length bits ∧ ∀ i j, j < bits →
      bitAt (packCodes codes bits) (i * bits + j) = (codes.getD i 0#8).getLsbD j := by
  have h := bitAt_foldl_packCode hbits codes 0 hcodes (zero_add _).le (length_replicate (a := 0#8))
  have hzero (n p : ℕ) : bitAt (replicate n 0#8) p = false := by
    simp [bitAt, getElem?_getD_replicate_default_eq]
  simpa [packCodes, hzero] using h

end

/-- An unpacked code has the bits of its place. -/
lemma getLsbD_unpackCode (hle : bits ≤ 8) (i j : ℕ) : (unpackCode bytes bits i).getLsbD j =
    (decide (j < bits) && bitAt bytes (i * bits + j)) := by
  have hmask : ((1#16 <<< bits) - 1).getLsbD j = decide (j < bits) := by
    have hval : ((1#16 <<< bits) - 1).toNat = 2 ^ bits - 1 := by
      interval_cases bits <;> rfl
    rw [BitVec.getLsbD, hval, Nat.testBit_two_pow_sub_one]
  simp only [unpackCode, bitAt]
  generalize i * bits = pos
  simp only [BitVec.getLsbD_setWidth, BitVec.getLsbD_and, BitVec.getLsbD_or, hmask,
    BitVec.getLsbD_ushiftRight]
  split
  · rw [BitVec.getLsbD_shiftLeft, BitVec.getLsbD_setWidth]
    grind
  · rw [BitVec.getLsbD_zero]
    grind

/-- **Packing loses nothing**: the codes of a vector come back from as many bytes as they need, and
so do the bytes from the codes, if the bits behind the last code are zero. **Proof sketch.** Packing
puts each bit of a code in its place (`bitAt_packCodes`), unpacking reads it there
(`getLsbD_unpackCode`), and every place up to the padding has one bit. -/
theorem packCodes_roundTrip (hbits : 1 ≤ bits) (hle : bits ≤ 8) (dim : ℕ) :
    (∀ codes : List (BitVec 8), codes.length = dim → (∀ c ∈ codes, c.toNat < 2 ^ bits) →
      (packCodes codes bits).length = packedBytes dim bits ∧
        unpackCodes (packCodes codes bits) bits dim = codes) ∧
    ∀ bytes : List (BitVec 8), bytes.length = packedBytes dim bits →
      (∀ p, dim * bits ≤ p → bitAt bytes p = false) →
        packCodes (unpackCodes bytes bits dim) bits = bytes := by
  constructor
  · intro codes hlength hcodes
    obtain ⟨hlen, hbit⟩ := bitAt_packCodes hbits codes hcodes
    refine ⟨hlength ▸ hlen, ext_getElem (by simpa [unpackCodes] using hlength.symm) ?_⟩
    intro i hi hi'
    refine BitVec.eq_of_getLsbD_eq fun j hj => ?_
    simp only [unpackCodes, getElem_map, getElem_range, getLsbD_unpackCode hle]
    by_cases hj : j < bits
    · simp [hj, hbit i j hj, hi']
    · simp [hj, getLsbD_of_toNat_lt (hcodes _ (getElem_mem hi')) (not_lt.mp hj)]
  · intro bytes hlength hpadding
    have hcodes : ∀ c ∈ unpackCodes bytes bits dim, c.toNat < 2 ^ bits := by
      intro c hc
      obtain ⟨i, -, rfl⟩ := mem_map.mp hc
      refine Nat.lt_pow_two_of_testBit _ fun j hj => ?_
      exact (getLsbD_unpackCode hle i j).trans (by simp [hj])
    obtain ⟨hlen, hbit⟩ := bitAt_packCodes hbits _ hcodes
    refine eq_of_bitAt (by rw [hlen, hlength]; simp [unpackCodes]) fun p => ?_
    have hp := hbit (p / bits) (p % bits) (Nat.mod_lt _ hbits)
    rw [Nat.div_add_mod'] at hp
    rw [hp]
    by_cases hdim : p / bits < dim
    · simp [unpackCodes, hdim, getLsbD_unpackCode hle, Nat.mod_lt _ hbits, Nat.div_add_mod']
    · rw [hpadding p ((Nat.le_div_iff_mul_le hbits).mp (not_lt.mp hdim))]
      simp [unpackCodes, hdim]

/-- Three codes of three bits, the last of them across two bytes. -/
theorem packCodes_roundTrip_three :
    unpackCodes (packCodes [5, 3, 6] 3) 3 3 = [5, 3, 6] ∧
      packCodes [5, 3, 6] 3 = [157#8, 1#8] :=
  ⟨((packCodes_roundTrip (by decide) (by decide) 3).1 _ rfl (by decide)).2, by decide⟩

end TurboMemory
