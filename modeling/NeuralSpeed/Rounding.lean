import NeuralSpeed.Simd
import Mathlib.Data.Rat.Floor

/-!
# Roundings and saturating casts

The quantizer rounds in three ways, all modelled in exact rational arithmetic:

* `roundf`, the C library's round to nearest with ties away from zero, in the scalar lanes;
* `roundHalfEven`, the default rounding mode of `_mm256_cvtps_epi32`, ties to even, in the
  vector lanes;
* `utils::cast` (`bestla_utils.h`, not under src/), which the spec describes as rounding to
  nearest with ties away from zero and clamping into the destination's range.

Each rounding lands within one half of its argument (`roundf_sub_le`, `roundHalfEven_sub_le`);
that is the whole of what the quantizer's error bound needs of them. On a quotient of naturals,
`roundHalfEven` is the quotient plus a carry decided by the remainder
(`roundHalfEven_natCast_div`), the form in which the bf16 narrowing's bias is compared with it.
-/

namespace NeuralSpeed

/-- `roundf(x)` as an integer: the nearest integer, ties away from zero. -/
def roundf (x : ℚ) : Int := if 0 ≤ x then ⌊x + 1 / 2⌋ else -⌊-x + 1 / 2⌋

/-- `_mm256_cvtps_epi32` under the default rounding mode: the nearest integer, ties to even. -/
def roundHalfEven (x : ℚ) : Int :=
  let f := ⌊x⌋
  if x - f < 1 / 2 then f
  else if 1 / 2 < x - f then f + 1
  else if f % 2 = 0 then f else f + 1

/-- `_mm256_cvtps_epi32(a)`, lane by lane. -/
def mm256CvtpsEpi32 (a : M256 ℚ) : M256 Int := fun l => roundHalfEven (a l)

/-- Modelled from the spec: `utils::cast<float, int>`, rounding to nearest with ties away from
zero. -/
def castFloatInt (x : ℚ) : Int := roundf x

/-- The value of an integer saturated into `uint8_t`. -/
def satU8 (v : Int) : Byte := byteOf (max 0 (min v 255)).toNat

/-- Modelled from the spec: `utils::cast<float, uint8_t>`, rounding to nearest with ties away
from zero and clamping into `[0, 255]`. -/
def castFloatU8 (x : ℚ) : Byte := satU8 (roundf x)

/-- Modelled from the spec: `utils::cast<int, uint8_t>`, clamping into `[0, 255]`. -/
def castIntU8 (v : Int) : Byte := satU8 v

theorem roundf_sub_le (x : ℚ) : |(roundf x : ℚ) - x| ≤ 1 / 2 := by
  rw [abs_le]
  unfold roundf
  split_ifs
  · have h1 := Int.floor_le (x + 1 / 2)
    have h2 := Int.lt_floor_add_one (x + 1 / 2)
    constructor <;> linarith
  · have h1 := Int.floor_le (-x + 1 / 2)
    have h2 := Int.lt_floor_add_one (-x + 1 / 2)
    push_cast
    constructor <;> linarith

theorem roundHalfEven_sub_le (x : ℚ) : |(roundHalfEven x : ℚ) - x| ≤ 1 / 2 := by
  rw [abs_le]
  have h1 := Int.floor_le x
  have h2 := Int.lt_floor_add_one x
  simp only [roundHalfEven]
  split_ifs <;> push_cast <;> constructor <;> linarith

/-- Rounding a quotient of naturals half to even: the quotient `n / d`, plus one when the
remainder is over half of `d`, or exactly half of it with an odd quotient. -/
theorem roundHalfEven_natCast_div (n : Nat) {d : Nat} (hd : 0 < d) :
    roundHalfEven ((n : ℚ) / d)
      = ((n / d : Nat) : Int) + if d < 2 * (n % d) ∨ (2 * (n % d) = d ∧ n / d % 2 = 1) then 1 else 0 := by
  have hd' : (0 : ℚ) < d := Nat.cast_pos.mpr hd
  have hfloor : ⌊(n : ℚ) / d⌋ = ((n / d : Nat) : Int) := by
    rw [Rat.floor_natCast_div_natCast, Int.natCast_div]
  -- the fractional part is the remainder over `d`
  have hfrac : (n : ℚ) / d - ((n / d : Nat) : Int) = (n % d : Nat) / d := by
    rw [eq_div_iff hd'.ne', sub_mul, div_mul_cancel₀ _ hd'.ne', Int.cast_natCast,
      sub_eq_iff_eq_add]
    exact_mod_cast (Nat.mod_add_div' n d).symm
  have hlt : (n % d : Nat) / (d : ℚ) < 1 / 2 ↔ 2 * (n % d) < d := by
    rw [div_lt_div_iff₀ hd' two_pos]; norm_cast; omega
  have hgt : 1 / 2 < (n % d : Nat) / (d : ℚ) ↔ d < 2 * (n % d) := by
    rw [div_lt_div_iff₀ two_pos hd']; norm_cast; omega
  simp only [roundHalfEven, hfloor, hfrac, hlt, hgt]
  generalize n / d = q
  split_ifs <;> omega

/-- `satU8` keeps every value of `[0, 255]`. -/
theorem satU8_val {v : Int} (h0 : 0 ≤ v) (h1 : v ≤ 255) : ((satU8 v).val : Int) = v := by
  simp only [satU8, byteOf_val, max_eq_right h0, min_eq_left h1]
  omega

/-- Clamping into `[0, 255]` before saturating changes nothing. -/
theorem satU8_clamp (v : Int) : satU8 (max (min v 255) 0) = satU8 v := by
  apply Fin.ext
  simp only [satU8, byteOf_val]
  omega

/-- `static_cast<uint8_t>` of a value clamped into `[0, 255]` is its saturation. -/
theorem byteOf_clamp (v : Int) : byteOf (max (min v 255) 0).toNat = satU8 v := by
  apply Fin.ext
  simp only [satU8, byteOf_val]
  omega

/-- `satU8` is the clamp into `[0, 255]`. -/
theorem satU8_val_eq (v : Int) : ((satU8 v).val : Int) = max 0 (min v 255) := by
  simp only [satU8, byteOf_val]
  omega

end NeuralSpeed
