import Mathlib
import TurboMemory.Storage.Record

/-!
# The scalar quantizer

The quantizer of the warm tier takes the least and the greatest coordinate of some vectors, and
gives a coordinate the nearest of evenly spaced levels between them. The arithmetic is exact.

## Main results

* `ScalarQuantizer.calibrate_nearest` — the bounds are the extreme coordinates, and the error is at
  most half the distance of two levels.
-/

set_option autoImplicit false

namespace TurboMemory

open List

/-- A quantizer with the bounds of its levels, which are the two infinities in the code if there is
no coordinate. -/
structure ScalarQuantizer where
  bits : ℕ
  dim : ℕ
  bounds : Option (ℚ × ℚ)

namespace ScalarQuantizer

/-- The bounds, with one more coordinate. -/
def widen : Option (ℚ × ℚ) → ℚ → Option (ℚ × ℚ)
  | none, x => some (x, x)
  | some (min, max), x => some (if x < min then x else min, if x > max then x else max)

/-- The quantizer for some vectors. -/
def calibrate (vectors : List (List ℚ)) (bits : ℕ) : Except TurboError ScalarQuantizer :=
  if bits = 0 ∨ bits > 8 then .error (.quantizationError "bits must be in 1..=8") else
  match vectors with
  | [] => .error (.quantizationError "cannot calibrate on empty set")
  | first :: _ => do
    let bounds ← vectors.foldlM (fun bounds v => do
      validateDimension id v first.length
      return v.foldl widen bounds) none
    return ⟨bits, first.length, bounds⟩

variable (q : ScalarQuantizer)

/-- The number of steps. -/
def levels : ℕ := max (2 ^ q.bits - 1) 1

/-- The nearest integer, halves away from zero. -/
def roundAway (x : ℚ) : ℤ := if 0 ≤ x then round x else -round (-x)

/-- The nearest level. -/
def encodeCoordinate (b : ℚ × ℚ) (x : ℚ) : ℕ :=
  let range := b.2 - b.1
  let scale := if range = 0 then 1 else q.levels / range
  (min (max (roundAway ((x - b.1) * scale)) 0) q.levels).toNat

/-- The coordinate of a level. -/
def decodeCoordinate (b : ℚ × ℚ) (c : ℕ) : ℚ :=
  let range := b.2 - b.1
  let scale := if q.levels = 0 then 0 else range / q.levels
  b.1 + c * scale

/-- Encode a vector. -/
def encode (v : List ℚ) : Except TurboError (List ℕ) := do
  validateDimension id v q.dim
  return v.map (q.encodeCoordinate (q.bounds.getD 0))

/-- Decode an encoded vector. -/
def decode (codes : List ℕ) : Except TurboError (List ℚ) := do
  validateDimension id codes q.dim
  return codes.map (q.decodeCoordinate (q.bounds.getD 0))

/-! ## Coordinates -/

section Coordinates

variable {q : ScalarQuantizer} {b : ℚ × ℚ} {x y : ℚ}

/-- There is a level besides the least. -/
lemma levels_pos (q : ScalarQuantizer) : 0 < q.levels := lt_max_of_lt_right one_pos

/-- Rounding moves by at most a half. -/
lemma abs_sub_roundAway_le (x : ℚ) : |x - roundAway x| ≤ 1 / 2 := by
  unfold roundAway
  split
  · exact abs_sub_round x
  · have hneg := abs_sub_round (-x)
    rw [← abs_neg, neg_sub, sub_neg_eq_add, add_comm] at hneg
    rwa [Int.cast_neg, sub_neg_eq_add]

/-- Rounding keeps the order. -/
lemma roundAway_mono (h : x ≤ y) : roundAway x ≤ roundAway y := by
  have hround {x y : ℚ} (h : x ≤ y) : round x ≤ round y := by
    rw [round_eq, round_eq]
    exact Int.floor_mono (by linarith)
  unfold roundAway
  split <;> split
  · exact hround h
  · linarith
  · next hx hy =>
    have hx := hround (le_of_not_ge fun h => hx (neg_nonpos.mp h))
    have hy := hround hy
    rw [round_zero] at hx hy
    linarith
  · exact neg_le_neg (hround (neg_le_neg h))

/-- It keeps whole numbers. -/
lemma roundAway_natCast (n : ℕ) : roundAway n = n := by
  rw [roundAway, if_pos n.cast_nonneg, round_natCast]

/-- A greater coordinate does not have a smaller code. -/
lemma encodeCoordinate_mono (hb : b.1 ≤ b.2) : Monotone (q.encodeCoordinate b) := by
  intro x y h
  refine Int.toNat_le_toNat (min_le_min_right _ (max_le_max_right _ (roundAway_mono ?_)))
  refine mul_le_mul_of_nonneg_right (by linarith) ?_
  split
  · exact zero_le_one
  · exact div_nonneg q.levels.cast_nonneg (by linarith)

/-- A level has its own code. -/
lemma encodeCoordinate_decodeCoordinate (hb : b.1 < b.2) {c : ℕ} (hc : c ≤ q.levels) :
    q.encodeCoordinate b (q.decodeCoordinate b c) = c := by
  have hrange : b.2 - b.1 ≠ 0 := sub_ne_zero.mpr hb.ne'
  have hlevels : (q.levels : ℚ) ≠ 0 := Nat.cast_ne_zero.mpr q.levels_pos.ne'
  have hback : (b.1 + c * ((b.2 - b.1) / q.levels) - b.1) * (q.levels / (b.2 - b.1)) = c := by
    field_simp
    ring
  simp only [encodeCoordinate, decodeCoordinate, if_neg q.levels_pos.ne', if_neg hrange, hback,
    roundAway_natCast]
  omega

/-- The error of a coordinate between the bounds. -/
lemma abs_sub_decodeCoordinate_le (hmin : b.1 ≤ x) (hmax : x ≤ b.2) :
    |x - q.decodeCoordinate b (q.encodeCoordinate b x)| ≤ (b.2 - b.1) / (2 * q.levels) := by
  rcases (hmin.trans hmax).eq_or_lt with hb | hb
  · obtain rfl : x = b.1 := le_antisymm (hb ▸ hmax) hmin
    simp [decodeCoordinate, hb]
  have hrange : 0 < b.2 - b.1 := sub_pos.mpr hb
  have hlevels : (0 : ℚ) < q.levels := Nat.cast_pos.mpr q.levels_pos
  obtain ⟨t, ht⟩ : ∃ t, t = (x - b.1) * (q.levels / (b.2 - b.1)) := ⟨_, rfl⟩
  have hx : x - b.1 = t * ((b.2 - b.1) / q.levels) := by
    rw [ht]
    field_simp
  -- Between the bounds nothing is clamped.
  have hlow : 0 ≤ roundAway t := by
    rw [← Nat.cast_zero, ← roundAway_natCast, ht]
    refine roundAway_mono ?_
    simpa using mul_nonneg (sub_nonneg.mpr hmin) (div_pos hlevels hrange).le
  have hhigh : roundAway t ≤ q.levels := by
    rw [← roundAway_natCast, ht]
    refine roundAway_mono ?_
    rw [mul_div_assoc', div_le_iff₀ hrange, mul_comm]
    exact mul_le_mul_of_nonneg_left (by linarith) hlevels.le
  have hcode : ((q.encodeCoordinate b x : ℕ) : ℚ) = roundAway t := by
    rw [encodeCoordinate, if_neg hrange.ne', ← ht, max_eq_left hlow, min_eq_left hhigh]
    exact_mod_cast Int.toNat_of_nonneg hlow
  calc |x - q.decodeCoordinate b (q.encodeCoordinate b x)|
      = |t - roundAway t| * ((b.2 - b.1) / q.levels) := by
        rw [decodeCoordinate, if_neg q.levels_pos.ne', hcode, ← sub_sub, hx, ← sub_mul, abs_mul,
          abs_of_pos (div_pos hrange hlevels)]
    _ ≤ 1 / 2 * ((b.2 - b.1) / q.levels) :=
        mul_le_mul_of_nonneg_right (abs_sub_roundAway_le t) (div_pos hrange hlevels).le
    _ = (b.2 - b.1) / (2 * q.levels) := by ring

end Coordinates

/-! ## Calibration -/

/-- The bounds are the least and the greatest coordinate. -/
lemma exists_bounds {xs : List ℚ} (hne : xs ≠ []) : ∃ b, xs.foldl widen none = some b ∧
    IsLeast {x | x ∈ xs} b.1 ∧ IsGreatest {x | x ∈ xs} b.2 := by
  induction xs using reverseRecOn with
  | nil => exact absurd rfl hne
  | append_singleton xs x ih =>
    rw [foldl_concat]
    by_cases hxs : xs = []
    · simp [hxs, widen]
    · obtain ⟨b, hb, hleast, hgreatest⟩ := ih hxs
      have hset : {y | y ∈ xs ++ [x]} = insert x {y | y ∈ xs} := by
        ext y
        simp [or_comm]
      refine ⟨(min x b.1, max x b.2), ?_, hset ▸ hleast.insert x, hset ▸ hgreatest.insert x⟩
      rw [hb, widen, min_def_lt, max_comm, max_def_lt]

variable {vectors : List (List ℚ)} {bits dim : ℕ}

/-- Calibration succeeds for vectors of one dimension. -/
lemma calibrate_eq (hbits : 1 ≤ bits) (hle : bits ≤ 8)
    (hne : vectors ≠ []) (hdim : ∀ v ∈ vectors, v.length = dim) :
    calibrate vectors bits = .ok ⟨bits, dim, vectors.flatten.foldl widen none⟩ := by
  have hloop (bounds : Option (ℚ × ℚ)) : (vectors.foldlM (fun bounds v => do
      validateDimension id v dim
      return v.foldl widen bounds) bounds : Except TurboError _) =
      .ok (vectors.flatten.foldl widen bounds) := by
    clear hne
    induction vectors generalizing bounds with
    | nil => rfl
    | cons v vectors ih =>
      obtain ⟨hv, hdim⟩ := forall_mem_cons.mp hdim
      rw [foldlM_cons, flatten_cons, foldl_append, ← ih hdim]
      simp [validateDimension, hv, bind, Except.bind, pure, Except.pure]
  cases vectors with
  | nil => exact absurd rfl hne
  | cons first rest =>
    rw [calibrate, if_neg (by omega), hdim first mem_cons_self]
    simp only [hloop]
    rfl

/-- **The scalar quantizer takes the nearest level**: codes are monotone in the coordinate, every
level has its own code, and the error of a coordinate between the bounds, which are the least and
the greatest one of the vectors, is at most half the distance of two levels. -/
theorem calibrate_nearest (hbits : 1 ≤ bits) (hle : bits ≤ 8) (hne : vectors ≠ [])
    (hdim : ∀ v ∈ vectors, v.length = dim) :
    ∃ q, calibrate vectors bits = .ok q ∧ q.levels = 2 ^ bits - 1 ∧
      (∀ b ∈ q.bounds, IsLeast {x | x ∈ vectors.flatten} b.1 ∧
        IsGreatest {x | x ∈ vectors.flatten} b.2 ∧ Monotone (q.encodeCoordinate b) ∧
        (∀ x, b.1 ≤ x → x ≤ b.2 → |x - q.decodeCoordinate b (q.encodeCoordinate b x)| ≤
          (b.2 - b.1) / (2 * q.levels)) ∧
        (b.1 < b.2 → ∀ c ≤ q.levels, q.encodeCoordinate b (q.decodeCoordinate b c) = c)) ∧
      ∀ v ∈ vectors, ∃ codes back, q.encode v = .ok codes ∧ q.decode codes = .ok back ∧
        Forall₂ (fun x y => ∃ b ∈ q.bounds, |x - y| ≤ (b.2 - b.1) / (2 * q.levels)) v back := by
  refine ⟨_, calibrate_eq hbits hle hne hdim, ?_, ?_, ?_⟩
  · have := Nat.one_lt_two_pow (by omega : bits ≠ 0)
    exact max_eq_left (Nat.le_sub_one_of_lt this)
  · intro b hb
    have hflat : vectors.flatten ≠ [] := by
      rintro h
      simp [h] at hb
    obtain ⟨b', hb', hleast, hgreatest⟩ := exists_bounds hflat
    cases hb'.symm.trans hb
    exact ⟨hleast, hgreatest, encodeCoordinate_mono (hleast.2 hgreatest.1),
      fun x => abs_sub_decodeCoordinate_le, fun h c => encodeCoordinate_decodeCoordinate h⟩
  · intro v hv
    refine ⟨_, _, by simp [encode, validateDimension, hdim v hv]; rfl,
      by simp [decode, validateDimension, hdim v hv]; rfl, ?_⟩
    rw [forall₂_map_right_iff, forall₂_same]
    intro x hx
    have hmem : x ∈ vectors.flatten := mem_flatten_of_mem hv hx
    obtain ⟨b, hb, hleast, hgreatest⟩ := exists_bounds (ne_nil_of_mem hmem)
    refine ⟨b, hb, ?_⟩
    simp only [hb]
    exact abs_sub_decodeCoordinate_le (hleast.2 hmem) (hgreatest.2 hmem)

/-- Two vectors and two bits: the bounds are `0` and `3`, and no coordinate is off by more than a
half. -/
theorem calibrate_nearest_two : ∃ q codes back, calibrate [[0, 1], [3, 1 / 4]] 2 = .ok q ∧
    q.levels = 3 ∧ q.bounds = some (0, 3) ∧ q.encode [3, 1 / 4] = .ok codes ∧
    q.decode codes = .ok back ∧ Forall₂ (fun x y => |x - y| ≤ 1 / 2) [3, 1 / 4] back := by
  obtain ⟨q, hq, hlevels, -, hvectors⟩ := @calibrate_nearest [[0, 1], [3, 1 / 4]] 2 2
    (by decide) (by decide) (by simp) (by simp)
  have hbounds : q.bounds = some (0, 3) := by
    cases (@calibrate_eq _ 2 2 (by decide) (by decide) (by simp) (by simp)).symm.trans hq
    norm_num [widen]
  obtain ⟨codes, back, hcodes, hback, hclose⟩ := hvectors [3, 1 / 4] (by simp)
  refine ⟨q, codes, back, hq, hlevels, hbounds, hcodes, hback, hclose.imp ?_⟩
  rintro x y ⟨b, hb, hle⟩
  cases hbounds.symm.trans hb
  norm_num [hlevels] at hle
  exact hle

end ScalarQuantizer

end TurboMemory
