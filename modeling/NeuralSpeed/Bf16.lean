import NeuralSpeed.Simd
import Mathlib.Algebra.Order.Field.Power
import Mathlib.Data.Rat.Defs
import Mathlib.Tactic.IntervalCases
import Mathlib.Tactic.Positivity
import Mathlib.Tactic.GCongr
import Mathlib.Tactic.Linarith

/-!
# Float bit patterns and bf16

A float is its IEEE single bit pattern, a `BitVec 32`, with the real value `fp32Value`, an exact
rational (`none` for an infinity or a NaN). An `__m256` is its eight patterns, so
`_mm256_castps_si256` and `_mm256_castsi256_ps` are the identity, and the byte-granular
intrinsics read it as 32 little-endian bytes (`bytes256`). A `utils::bf16` is the top half of a
float's pattern: the sign, the eight exponent bits and seven mantissa bits.

`ymm_cvt_bf16_fp32` widens eight bf16 by shifting each into the top half of a 32-bit lane.
`ymm_cvt_fp32_bf16` narrows eight floats: `_mm256_bsrli_epi128` moves each float's top half
into its low half, and `ymm_cvtepi32_epi16` keeps the low 16 bits of each lane.

* `ymmCvtFp32Bf16_ymmCvtBf16Fp32` — narrowing a widened register gives it back byte for byte,
  for every bf16 pattern in every lane.
* `ymmCvtFp32Bf16_truncates` — widening a narrowed float clears its low 16 bits. For a finite
  float that rounds toward zero: the result has the float's sign, is no larger in magnitude, and
  lies within `2^-7` of it relatively (normal floats) or `2^-133` absolutely (subnormal ones).
* `fp32Value_near` — moving a finite pattern by at most `0x8000` within its binade, or onto the
  next one's start, moves its value by at most `2^-8` of it (`2^-134` for a subnormal), the bound
  the rounding narrowing of `WriteBack.lean` meets.
-/

namespace NeuralSpeed

/-- The real value of an IEEE single bit pattern, `none` for an infinity or a NaN. -/
def fp32Value (b : BitVec 32) : Option ℚ :=
  let n := b.toNat
  let sign : ℚ := if n / 2 ^ 31 % 2 = 1 then -1 else 1
  let e : Nat := n / 2 ^ 23 % 256
  let m : Nat := n % 2 ^ 23
  if e = 255 then none
  else if e = 0 then some (sign * m * 2 ^ (-149 : Int))
  else some (sign * (2 ^ 23 + m) * 2 ^ ((e : Int) - 150))

/-- A pattern with a clear sign, a normal exponent field `e` and a zero mantissa is
`2^(e - 127)`. -/
theorem fp32Value_pow_two {e : Nat} (h0 : 0 < e) (h1 : e < 255) :
    fp32Value (BitVec.ofNat 32 (e * 2 ^ 23)) = some (2 ^ ((e : Int) - 127)) := by
  have hlt : e * 2 ^ 23 < 2 ^ 32 := by omega
  simp only [fp32Value, BitVec.toNat_ofNat, Nat.mod_eq_of_lt hlt,
    Nat.mul_div_cancel _ (by norm_num : 0 < 2 ^ 23), Nat.mul_mod_left,
    Nat.mod_eq_of_lt (by omega : e < 256), if_neg (by omega : e ≠ 255), if_neg (by omega : e ≠ 0),
    show e * 2 ^ 23 / 2 ^ 31 % 2 = 0 by omega, Nat.cast_zero, add_zero]
  rw [show (e : Int) - 127 = 23 + ((e : Int) - 150) by ring, zpow_add₀ (by norm_num)]
  norm_num

/-- A finite pattern's value as sign, significand and scale: subnormals (exponent field `0`) have
no leading bit and share the scale of exponent field `1`. -/
theorem fp32Value_finite (u : BitVec 32) (h : u.toNat / 2 ^ 23 % 256 ≠ 255) :
    fp32Value u = some ((if u.toNat / 2 ^ 31 % 2 = 1 then -1 else 1) *
      ((if u.toNat / 2 ^ 23 % 256 = 0 then 0 else 2 ^ 23) + ((u.toNat % 2 ^ 23 : Nat) : ℚ)) *
      2 ^ (((max (u.toNat / 2 ^ 23 % 256) 1 : Nat) : Int) - 150)) := by
  simp only [fp32Value, if_neg h]
  generalize u.toNat / 2 ^ 23 % 256 = e at h ⊢
  generalize (if u.toNat / 2 ^ 31 % 2 = 1 then (-1 : ℚ) else 1) = s
  rcases Nat.eq_zero_or_pos e with rfl | he
  · norm_num
  · simp only [if_neg he.ne', max_eq_left he]

/-! ## Bytes of a 256-bit register -/

/-- Byte `b < 32` of a register of 32-bit lanes, little-endian: byte `b % 4` of lane `b / 4`. -/
def bytes256 (a : M256 (BitVec 32)) : Nat → Byte :=
  fun b => byteOf ((a (b / 4)).toNat / 256 ^ (b % 4))

/-- The register of 32-bit lanes whose bytes are `f`. -/
def ofBytes256 (f : Nat → Byte) : M256 (BitVec 32) := fun l => BitVec.ofNat 32 (lane32 f l)

/-- The unsigned 16-bit lane `i` of a byte register, little-endian. -/
def lane16 (a : M128i) (i : Nat) : Nat := (a (2 * i)).val + 256 * (a (2 * i + 1)).val

/-- `_mm256_bsrli_epi128(a, k)`: each 128-bit half shifted right by `k` bytes, shifting in
zeros. -/
def mm256BsrliEpi128 (a : M256 (BitVec 32)) (k : Nat) : M256 (BitVec 32) :=
  ofBytes256 fun b => if b % 16 + k < 16 then bytes256 a (b + k) else 0

/-- `_mm256_cvtepu16_epi32(a)`: the eight unsigned 16-bit lanes of `a`, zero-extended. -/
def mm256Cvtepu16Epi32 (a : M128i) : M256 (BitVec 32) := fun l => BitVec.ofNat 32 (lane16 a l)

/-- The `utils::bf16` at byte `p` of a byte buffer: its `uint16_t` field `x`, little-endian. -/
def bf16At (mem : Buf Byte) (p : Nat) : BitVec 16 :=
  BitVec.ofNat 16 ((mem p).val + 256 * (mem (p + 1)).val)

/-- Modelled from the spec: `utils::bf16::tofloat` (`bestla_utils.h`, not under src/). A brain
float keeps a float's sign, its 8 exponent bits and the top 7 bits of its mantissa, so its float
is its pattern followed by 16 zero bits. -/
def bf16Tofloat (x : BitVec 16) : BitVec 32 := BitVec.ofNat 32 (x.toNat * 65536)

/-! ## The conversions -/

/-- `ymm_cvt_bf16_fp32(vbf16)`. -/
def ymmCvtBf16Fp32 (vbf16 : M128i) : M256 (BitVec 32) :=
  let vf32 := mm256Cvtepu16Epi32 vbf16
  mm256SlliEpi32 vf32 16

/-- `ymm_cvtepi32_epi16(src)`: 16-bit lane `i < 8` of the result is the 32-bit lane `i` of `src`
converted to `int16_t`, which keeps its low 16 bits. -/
def ymmCvtepi32Epi16 (src : M256 (BitVec 32)) : M128i :=
  fun b => byteOf ((src (b / 2)).toNat % 65536 / 256 ^ (b % 2))

/-- `ymm_cvt_fp32_bf16(vfp32)`. -/
def ymmCvtFp32Bf16 (vfp32 : M256 (BitVec 32)) : M128i :=
  ymmCvtepi32Epi16 (mm256BsrliEpi128 vfp32 2)

theorem ofBytes256_toNat (f : Nat → Byte) (l : Nat) : (ofBytes256 f l).toNat = lane32 f l := by
  rw [ofBytes256, BitVec.toNat_ofNat, Nat.mod_eq_of_lt (lane32_val_lt f l)]

theorem bytes256_val (a : M256 (BitVec 32)) {l j : Nat} (hj : j < 4) :
    (bytes256 a (4 * l + j)).val = (a l).toNat / 256 ^ j % 256 := by
  simp only [bytes256, byteOf_val, show (4 * l + j) / 4 = l by omega,
    show (4 * l + j) % 4 = j by omega]

/-- Shifting by two bytes moves each float's top half into its low half. -/
theorem mm256BsrliEpi128_two_low (a : M256 (BitVec 32)) (l : Nat) :
    (mm256BsrliEpi128 a 2 l).toNat % 65536 = (a l).toNat / 65536 := by
  have ha : (a l).toNat < 4294967296 := (a l).isLt
  have h0 := bytes256_val a (l := l) (j := 2) (by norm_num)
  have h1 := bytes256_val a (l := l) (j := 3) (by norm_num)
  rw [show 4 * l + 3 = 4 * l + 1 + 2 from rfl] at h1
  simp only [mm256BsrliEpi128, ofBytes256_toNat, lane32, if_pos (show 4 * l % 16 + 2 < 16 by omega),
    if_pos (show (4 * l + 1) % 16 + 2 < 16 by omega), h0, h1]
  omega

@[simp] theorem ymmCvtBf16Fp32_toNat (v : M128i) (l : Nat) :
    (ymmCvtBf16Fp32 v l).toNat = lane16 v l * 65536 := by
  have h0 := (v (2 * l)).isLt
  have h1 := (v (2 * l + 1)).isLt
  simp only [ymmCvtBf16Fp32, mm256SlliEpi32, mm256Cvtepu16Epi32, BitVec.toNat_shiftLeft,
    BitVec.toNat_ofNat, Nat.shiftLeft_eq, lane16]
  omega

/-- Widening eight brain floats loaded from memory gives each one's float. -/
theorem ymmCvtBf16Fp32_loadu (mem : Buf Byte) (p l : Nat) :
    ymmCvtBf16Fp32 (mmLoaduSi128 mem p) l = bf16Tofloat (bf16At mem (p + 2 * l)) := by
  have h0 := (mem (p + 2 * l)).isLt
  have h1 := (mem (p + 2 * l + 1)).isLt
  apply BitVec.eq_of_toNat_eq
  simp only [ymmCvtBf16Fp32_toNat, lane16, mmLoaduSi128, bf16Tofloat, bf16At, BitVec.toNat_ofNat,
    Nat.add_assoc]
  omega

/-- Byte `b` of a narrowed register is byte `b % 2` of the top half of float `b / 2`. -/
theorem ymmCvtFp32Bf16_apply (x : M256 (BitVec 32)) (b : Nat) :
    ymmCvtFp32Bf16 x b = byteOf ((x (b / 2)).toNat / 65536 / 256 ^ (b % 2)) := by
  rw [ymmCvtFp32Bf16, ymmCvtepi32Epi16, mm256BsrliEpi128_two_low]

/-- Lane `i` of a narrowed register is the top half of float `i`. -/
@[simp] theorem lane16_ymmCvtFp32Bf16 (x : M256 (BitVec 32)) (i : Nat) :
    lane16 (ymmCvtFp32Bf16 x) i = (x i).toNat / 65536 := by
  have hx : (x i).toNat < 4294967296 := (x i).isLt
  simp only [lane16, ymmCvtFp32Bf16_apply, byteOf_val, show 2 * i / 2 = i by omega,
    show (2 * i + 1) / 2 = i by omega, show 2 * i % 2 = 0 by omega, show (2 * i + 1) % 2 = 1 by omega]
  omega

/-- Narrowing a widened register gives it back: no bf16 pattern is lost in either lane half. -/
theorem ymmCvtFp32Bf16_ymmCvtBf16Fp32 (v : M128i) : ymmCvtFp32Bf16 (ymmCvtBf16Fp32 v) = v := by
  funext b
  apply Fin.ext
  rw [ymmCvtFp32Bf16_apply, ymmCvtBf16Fp32_toNat, Nat.mul_div_cancel _ (by norm_num), byteOf_val,
    lane16]
  rcases Nat.even_or_odd' b with ⟨w, rfl | rfl⟩
  · have h1 := (v (2 * w + 1)).isLt
    simp only [show 2 * w / 2 = w by omega, show 2 * w % 2 = 0 by omega, pow_zero, Nat.div_one]
    omega
  · have h0 := (v (2 * w)).isLt
    simp only [show (2 * w + 1) / 2 = w by omega, show (2 * w + 1) % 2 = 1 by omega, pow_one]
    omega

/-- Widening a narrowed float clears its low 16 bits. -/
theorem ymmCvtBf16Fp32_ymmCvtFp32Bf16 (x : M256 (BitVec 32)) (l : Nat) :
    (ymmCvtBf16Fp32 (ymmCvtFp32Bf16 x) l).toNat = (x l).toNat / 65536 * 65536 := by
  rw [ymmCvtBf16Fp32_toNat, lane16_ymmCvtFp32Bf16]

/-! ## Truncation toward zero -/

/-- A value `s * (a + d) * p` cut down to `s * a * p`, with `a, d ≥ 0` and `p > 0`: the sign is
kept, the magnitude `(a + d) * p` does not grow, and the error is `d * p`. -/
theorem cut_value_bounds {s a d p : ℚ} (hs : s = 1 ∨ s = -1) (ha : 0 ≤ a) (hd : 0 ≤ d)
    (hp : 0 < p) :
    0 ≤ s * (a + d) * p * (s * a * p) ∧ |s * a * p| ≤ |s * (a + d) * p| ∧
      |s * (a + d) * p| = (a + d) * p ∧ |s * (a + d) * p - s * a * p| = d * p := by
  have hs2 : s * s = 1 := by rcases hs with rfl | rfl <;> norm_num
  have habs : ∀ x, 0 ≤ x → |s * x * p| = x * p := fun x hx => by
    rw [abs_mul, abs_mul, abs_of_nonneg hx, abs_of_pos hp]
    rcases hs with rfl | rfl <;> norm_num
  refine ⟨?_, ?_, habs _ (add_nonneg ha hd), ?_⟩
  · have : s * (a + d) * p * (s * a * p) = (s * s) * ((a + d) * a * (p * p)) := by ring
    rw [this, hs2, one_mul]; positivity
  · rw [habs a ha, habs _ (add_nonneg ha hd)]
    exact mul_le_mul_of_nonneg_right (by linarith) hp.le
  · rw [show s * (a + d) * p - s * a * p = s * d * p by ring, habs d hd]

/-- A value `s * a * p` moved to `s * (a + d) * p` with `|d| ≤ 2^15` and `a + d ≥ 0`: the sign is
kept and the error is at most `2^15 * p`. -/
theorem round_value_bounds {s a d p : ℚ} (hs : s = 1 ∨ s = -1) (ha : 0 ≤ a) (had : 0 ≤ a + d)
    (hd : |d| ≤ 32768) (hp : 0 < p) :
    0 ≤ s * a * p * (s * (a + d) * p) ∧ |s * a * p - s * (a + d) * p| ≤ 32768 * p ∧
      |s * a * p| = a * p := by
  have hs2 : s * s = 1 := by rcases hs with rfl | rfl <;> norm_num
  have habs : |s| = 1 := by rcases hs with rfl | rfl <;> norm_num
  refine ⟨?_, ?_, ?_⟩
  · have : s * a * p * (s * (a + d) * p) = (s * s) * (a * (a + d) * (p * p)) := by ring
    rw [this, hs2, one_mul]; positivity
  · rw [show s * a * p - s * (a + d) * p = -(s * d * p) by ring, abs_neg, abs_mul, abs_mul, habs,
      one_mul, abs_of_pos hp]
    exact mul_le_mul_of_nonneg_right hd hp.le
  · rw [abs_mul, abs_mul, habs, one_mul, abs_of_nonneg ha, abs_of_pos hp]

/-- Moving a finite pattern by at most `0x8000`, keeping its sign and its binade or landing on
the start of the next one, moves its value by at most `2^15` of its binade's unit: `2^-8` of it
relatively when it is normal, `2^-134` when it is subnormal. -/
theorem fp32Value_near {u u' : BitVec 32} (hsgn : u'.toNat / 2 ^ 31 % 2 = u.toNat / 2 ^ 31 % 2)
    (hE : u.toNat / 2 ^ 23 % 256 ≠ 255) (hE' : u'.toNat / 2 ^ 23 % 256 ≠ 255)
    (hd : -32768 ≤ (u'.toNat : Int) - u.toNat ∧ (u'.toNat : Int) - u.toNat ≤ 32768)
    (hbin : (u'.toNat / 2 ^ 23 % 256 = u.toNat / 2 ^ 23 % 256 ∧
        ((u'.toNat % 2 ^ 23 : Nat) : Int) = (u.toNat % 2 ^ 23 : Nat) + ((u'.toNat : Int) - u.toNat)) ∨
      (u'.toNat / 2 ^ 23 % 256 = u.toNat / 2 ^ 23 % 256 + 1 ∧ u'.toNat % 2 ^ 23 = 0 ∧
        ((u.toNat % 2 ^ 23 : Nat) : Int) + ((u'.toNat : Int) - u.toNat) = 2 ^ 23)) :
    ∃ v v', fp32Value u = some v ∧ fp32Value u' = some v' ∧
      0 ≤ v * v' ∧ |v - v'| ≤ if u.toNat / 2 ^ 23 % 256 = 0 then 2 ^ (-134 : ℤ) else |v| / 256 := by
  rw [fp32Value_finite u hE, fp32Value_finite u' hE', hsgn]
  refine ⟨_, _, rfl, rfl, ?_⟩
  have hs : (if u.toNat / 2 ^ 31 % 2 = 1 then (-1 : ℚ) else 1) = 1 ∨
      (if u.toNat / 2 ^ 31 % 2 = 1 then (-1 : ℚ) else 1) = -1 := by
    split_ifs <;> simp
  generalize (if u.toNat / 2 ^ 31 % 2 = 1 then (-1 : ℚ) else 1) = s at hs ⊢
  generalize (u'.toNat : Int) - u.toNat = δ at hd hbin
  generalize u.toNat / 2 ^ 23 % 256 = e at hbin ⊢
  generalize u'.toNat / 2 ^ 23 % 256 = e' at hbin ⊢
  generalize u.toNat % 2 ^ 23 = m at hbin ⊢
  generalize u'.toNat % 2 ^ 23 = m' at hbin ⊢
  have hm : (0 : ℚ) ≤ m + δ := by
    have : (0 : Int) ≤ m + δ := by rcases hbin with ⟨-, h⟩ | ⟨-, -, h⟩ <;> omega
    exact_mod_cast this
  -- the moved value, on the scale of the original's binade
  have key : ((if e' = 0 then (0 : ℚ) else 2 ^ 23) + m') * 2 ^ (((max e' 1 : Nat) : Int) - 150)
      = ((if e = 0 then 0 else 2 ^ 23) + m + δ) * 2 ^ (((max e 1 : Nat) : Int) - 150) := by
    rcases hbin with ⟨rfl, hmm⟩ | ⟨rfl, rfl, hmd⟩
    · rw [add_assoc, show (m' : ℚ) = m + δ by exact_mod_cast hmm]
    · rw [add_assoc, show (m : ℚ) + δ = 2 ^ 23 by exact_mod_cast hmd, if_neg (Nat.succ_ne_zero e),
        Nat.cast_zero, add_zero]
      rcases Nat.eq_zero_or_pos e with rfl | he
      · norm_num
      · rw [if_neg he.ne', max_eq_left (by omega : 1 ≤ e + 1), max_eq_left he,
          show ((e + 1 : Nat) : Int) - 150 = 1 + ((e : Int) - 150) by push_cast; ring,
          zpow_add₀ two_ne_zero]
        ring
  rw [mul_assoc s ((if e' = 0 then (0 : ℚ) else 2 ^ 23) + m'), key, ← mul_assoc s]
  have hp : (0 : ℚ) < 2 ^ (((max e 1 : Nat) : Int) - 150) := zpow_pos (by norm_num) _
  have hc : (0 : ℚ) ≤ if e = 0 then 0 else 2 ^ 23 := by split_ifs <;> norm_num
  have ha : e ≠ 0 → (2 : ℚ) ^ 23 ≤ (if e = 0 then 0 else 2 ^ 23) + m := fun he => by
    rw [if_neg he]; exact le_add_of_nonneg_right (Nat.cast_nonneg m)
  have had : (0 : ℚ) ≤ (if e = 0 then 0 else 2 ^ 23) + m + δ := by
    rw [add_assoc]; exact add_nonneg hc hm
  have ha0 : (0 : ℚ) ≤ (if e = 0 then 0 else 2 ^ 23) + m := add_nonneg hc (Nat.cast_nonneg m)
  generalize (if e = 0 then (0 : ℚ) else 2 ^ 23) + m = a at ha ha0 had ⊢
  obtain ⟨h1, h2, h3⟩ := round_value_bounds hs ha0 had
    (abs_le.mpr ⟨by exact_mod_cast hd.1, by exact_mod_cast hd.2⟩) hp
  refine ⟨h1, ?_⟩
  split_ifs with he
  · subst he
    exact h2.trans (by norm_num)
  · rw [h3]
    calc _ ≤ 32768 * 2 ^ (((max e 1 : Nat) : Int) - 150) := h2
      _ = 2 ^ 23 * 2 ^ (((max e 1 : Nat) : Int) - 150) / 256 := by ring
      _ ≤ a * 2 ^ (((max e 1 : Nat) : Int) - 150) / 256 := by gcongr; exact ha he

/-- Clearing the low 16 bits of a finite float's pattern rounds it toward zero to bf16
precision. -/
theorem fp32Value_clear_low {u u' : BitVec 32} (h : u'.toNat = u.toNat / 65536 * 65536)
    {v : ℚ} (hv : fp32Value u = some v) :
    ∃ v', fp32Value u' = some v' ∧ 0 ≤ v * v' ∧ |v'| ≤ |v| ∧
      |v - v'| < if u.toNat / 2 ^ 23 % 256 = 0 then 2 ^ (-133 : ℤ) else |v| / 128 := by
  have hu : u.toNat < 4294967296 := u.isLt
  have hsgn : u'.toNat / 2 ^ 31 % 2 = u.toNat / 2 ^ 31 % 2 := by norm_num; omega
  have hexp : u'.toNat / 2 ^ 23 % 256 = u.toNat / 2 ^ 23 % 256 := by norm_num; omega
  have hman : u.toNat % 2 ^ 23 = u'.toNat % 2 ^ 23 + u.toNat % 65536 := by norm_num; omega
  have hd : ((u.toNat % 65536 : ℕ) : ℚ) < 65536 := by exact_mod_cast Nat.mod_lt _ (by norm_num)
  have hs : (if u.toNat / 2 ^ 31 % 2 = 1 then (-1 : ℚ) else 1) = 1 ∨
      (if u.toNat / 2 ^ 31 % 2 = 1 then (-1 : ℚ) else 1) = -1 := by
    split_ifs <;> simp
  simp only [fp32Value, hsgn, hexp, hman, Nat.cast_add] at hv ⊢
  generalize (if u.toNat / 2 ^ 31 % 2 = 1 then (-1 : ℚ) else 1) = s at hs hv ⊢
  have hd0 : (0 : ℚ) ≤ ((u.toNat % 65536 : ℕ) : ℚ) := Nat.cast_nonneg _
  have hm : (0 : ℚ) ≤ ((u'.toNat % 2 ^ 23 : ℕ) : ℚ) := Nat.cast_nonneg _
  generalize ((u.toNat % 65536 : ℕ) : ℚ) = d at hd hd0 hv ⊢
  generalize ((u'.toNat % 2 ^ 23 : ℕ) : ℚ) = m at hm hv ⊢
  split_ifs at hv ⊢ with h255 h0
  · cases hv
    obtain ⟨h1, h2, -, h3⟩ := cut_value_bounds hs hm hd0 (zpow_pos (by norm_num : (0 : ℚ) < 2) (-149))
    refine ⟨_, rfl, h1, h2, ?_⟩
    calc |s * (m + d) * 2 ^ (-149 : ℤ) - s * m * 2 ^ (-149 : ℤ)| = d * 2 ^ (-149 : ℤ) := h3
      _ < 65536 * 2 ^ (-149 : ℤ) := mul_lt_mul_of_pos_right hd (by positivity)
      _ = 2 ^ (-133 : ℤ) := by norm_num
  · cases hv
    rw [← add_assoc]
    have hp := zpow_pos (by norm_num : (0 : ℚ) < 2) ((u.toNat / 2 ^ 23 % 256 : ℕ) - 150 : ℤ)
    generalize (2 : ℚ) ^ ((u.toNat / 2 ^ 23 % 256 : ℕ) - 150 : ℤ) = p at hp ⊢
    obtain ⟨h1, h2, h4, h3⟩ := cut_value_bounds hs (by positivity : (0 : ℚ) ≤ 2 ^ 23 + m) hd0 hp
    refine ⟨_, rfl, h1, h2, ?_⟩
    -- the cut-off mantissa bits weigh less than 2^16 of the 2^23 leading ones
    have hlead : d * 128 < 2 ^ 23 + m + d := by linarith only [hd, hm, hd0]
    calc |s * (2 ^ 23 + m + d) * p - s * (2 ^ 23 + m) * p| = d * 128 * p / 128 := by
          rw [h3]; ring
      _ < (2 ^ 23 + m + d) * p / 128 := (div_lt_div_iff_of_pos_right (by norm_num)).mpr (mul_lt_mul_of_pos_right hlead hp)
      _ = |s * (2 ^ 23 + m + d) * p| / 128 := by rw [h4]

/-- Widening the bf16 that `ymm_cvt_fp32_bf16` narrows a finite float to rounds the float toward
zero to bf16 precision. -/
theorem ymmCvtFp32Bf16_truncates (x : M256 (BitVec 32)) (l : Nat) {v : ℚ}
    (hv : fp32Value (x l) = some v) :
    ∃ v', fp32Value (ymmCvtBf16Fp32 (ymmCvtFp32Bf16 x) l) = some v' ∧ 0 ≤ v * v' ∧ |v'| ≤ |v| ∧
      |v - v'| < if (x l).toNat / 2 ^ 23 % 256 = 0 then 2 ^ (-133 : ℤ) else |v| / 128 :=
  fp32Value_clear_low (ymmCvtBf16Fp32_ymmCvtFp32Bf16 x l) hv

end NeuralSpeed
