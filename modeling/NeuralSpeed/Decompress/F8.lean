import NeuralSpeed.Bf16
import Mathlib.Algebra.Order.Field.Power
import Mathlib.Data.Rat.Defs
import Mathlib.Tactic.IntervalCases

/-!
# Dequantizing k-blocks of 8-bit micro-floats

`decompress_kblock_f8_fp<WITH_SCALE, float, _PACK_ROW, _S_T>` turns a tile of E4M3 or E5M2
bytes into floats. The 8-wide body assembles each float's bit pattern from the byte
(`f8Bits`): the sign bit, the exponent field rebiased by `128 - 2^(ebits-1)` and the mantissa
shifted into the top of the float's mantissa. An `f8` scale's exponent is added into the exponent
field before the shift; a float scale multiplies the assembled float. The scalar epilogue converts
with `ref::f8_to_fp32` and multiplies by `2^s.x` or by the float scale.

Values are exact rationals: `fp32Value` (`NeuralSpeed.Bf16`) is the real value of an IEEE single
bit pattern, `none` for an infinity or a NaN.

* `f8Bits_none` — without an `f8` scale the vector body's bits are `f8_to_fp32`'s, for every
  byte of both formats.
* `decompressKblockF8Fp_fp32` — with a float scale or none, `_PACK_ROW ∈ {1, 2}` and
  `0 < kblock` (every row divides by `kblock`), the kernel writes the epilogue's value at every
  position of the window and nothing else.
* `decompressKblockF8Fp_packrow4_diverges` — for `_PACK_ROW = 4` the vector body reads the scale
  slot `j / 4 + l` for lane `l`, where the epilogue reads `(j + l) / 4`.
* `decompressKblockF8Fp_exponent_wraps` — an `f8` scale exponent that takes the exponent field
  below zero wraps into the sign bit: the vector body stores `-∞` where the epilogue stores
  `2^-128`.
-/

namespace NeuralSpeed

/-! ## Formats and values -/

/-- The 8-bit float formats of `BTLA_DTYPE`. -/
inductive F8Type where
  | e4m3
  | e5m2
  deriving DecidableEq, Repr

/-- Modelled from the spec: `utils::bestla_dtype_get_f8_ebits` of `bestla_utils.h`, not under
src/: the exponent width of the format (E4M3, E5M2). -/
def F8Type.ebits : F8Type → Nat
  | .e4m3 => 4
  | .e5m2 => 5

/-- Modelled from the spec: `ref::f8_to_fp32` of `kernel_ref.h`, not under src/. The byte is read
as (sign | exponent | mantissa); the exponent is rebiased from the format's bias
`2^(ebits-1) - 1` to the float's 127, and the mantissa fills the top of the float's mantissa. -/
def f8ToFp32 (t : F8Type) (x : Byte) : BitVec 32 :=
  let mb := 7 - t.ebits
  BitVec.ofNat 32 (x.val / 128 * 2 ^ 31 + ((x.val % 128) / 2 ^ mb + 127 - (2 ^ (t.ebits - 1) - 1)) * 2 ^ 23
    + x.val % 2 ^ mb * 2 ^ (23 - mb))

/-- `WITH_SCALE` and `_S_T`: no scale, float scales, or `utils::f8` scales (an `int8_t`
exponent `x`). -/
inductive F8Scale where
  | none
  | fp32 (scales : Buf ℚ)
  | f8 (scales : Buf Byte)

/-- Whether the scales are `utils::f8`. -/
def F8Scale.isF8 : F8Scale → Bool
  | .f8 _ => true
  | _ => false

/-! ## The kernel -/

/-- The bit assembly of the vector body, from the eight bytes at `p`, with the scale exponents
`scaleExp` added into the exponent field when the scales are `f8`. -/
def f8Bits (t : F8Type) (mem : Buf Byte) (p : Nat) (scaleExp : Option (M256 (BitVec 32))) :
    M256 (BitVec 32) :=
  let ebits := t.ebits
  let mantissabit := 7 - ebits
  let signRevertAndMask := mm256Set1Epi32 (0x80000000 : BitVec 32)
  let eRevertAndMask := mm256Set1Epi32 (0x0000007f : BitVec 32)
  let eRevertShift := mm256SlliEpi32 (mm256Set1Epi32 1) (ebits - 1)
  let eRevertShift := mm256SubEpi32 eRevertShift (mm256Set1Epi32 128)
  let mantissaRevertAndMask := mm256Set1Epi32 (0x007fffff : BitVec 32)
  let signRevert := lanes32 (mm256CvtepiEpi32 (mmLoaduSi128 mem p))
  let eRevert := signRevert
  let mantissaRevert := signRevert
  let signRevert := mm256SlliEpi32 signRevert 24
  let signRevert := mm256AndSi256 signRevert signRevertAndMask
  let eRevert := mm256AndSi256 eRevert eRevertAndMask
  let eRevert := mm256SrliEpi32 eRevert mantissabit
  let eRevert := match scaleExp with
    | some scale => mm256AddEpi32 eRevert scale
    | none => eRevert
  let eRevert := mm256SubEpi32 eRevert eRevertShift
  let eRevert := mm256SlliEpi32 eRevert 23
  let mantissaRevert := mm256SlliEpi32 mantissaRevert (23 - mantissabit)
  let mantissaRevert := mm256AndSi256 mantissaRevert mantissaRevertAndMask
  let fpV := mm256OrPs signRevert eRevert
  mm256OrPs fpV mantissaRevert

/-- `packrow2_permute_idx = _mm256_setr_epi32(0, 0, 1, 1, 2, 2, 3, 3)`. -/
def packrow2PermuteIdx : M256 Nat := mm256SetrEpi32 [0, 0, 1, 1, 2, 2, 3, 3]

/-- The eight values the `quant` lambda stores at row `i`, columns `j..j+7`. -/
def f8Chunk (scale : F8Scale) (packRow : Nat) (t : F8Type) (src : Buf Byte)
    (ldSrc kOffset kblock nPad i j : Nat) : M256 (Option ℚ) :=
  let sptr := (kOffset + i) / kblock * nPad
  let scaleExp := match scale with
    | .f8 scales =>
      let s := lanes32 (mm256CvtepiEpi32 (mmLoaduSi128 scales (sptr + j / packRow)))
      some (if packRow = 2 then mm256Permutexvar packrow2PermuteIdx s else s)
    | _ => none
  let fpV := f8Bits t src (i * ldSrc + j) scaleExp
  match scale with
  | .fp32 scales =>
    let s := mm256LoaduPs scales (sptr + j / packRow)
    let s := if packRow = 2 then mm256Permutexvar packrow2PermuteIdx s else s
    fun l => (fp32Value (fpV l)).map (· * s l)
  | _ => fun l => fp32Value (fpV l)

/-- The value the scalar epilogue stores at row `i`, column `j`. -/
def f8Value (scale : F8Scale) (packRow : Nat) (t : F8Type) (src : Buf Byte)
    (ldSrc kOffset kblock nPad i j : Nat) : Option ℚ :=
  let sptr := (kOffset + i) / kblock * nPad
  let fpV := fp32Value (f8ToFp32 t (src (i * ldSrc + j)))
  match scale with
  | .f8 scales => fpV.map (· * 2 ^ int8Val (scales (sptr + j / packRow)))
  | .fp32 scales => fpV.map (· * scales (sptr + j / packRow))
  | .none => fpV

/-- `decompress_kblock_f8_fp<WITH_SCALE, float, _PACK_ROW, _S_T>`: the 8-wide body up to
`col / 16 * 16`, the scalar epilogue after it. `kpos` is a `Nat` quotient, which the C++ leaves
undefined at `kblock = 0`. -/
def decompressKblockF8Fp (scale : F8Scale) (packRow : Nat) (src : Buf Byte) (dst : Buf (Option ℚ))
    (row col ldSrc ldDst kOffset kblock nPad : Nat) (srcF8Type : F8Type) :
    BtlaCode × Buf (Option ℚ) :=
  let alignCol := col / 16 * 16
  let dst := forLoop 0 1 row (fun i dst =>
    let dst := forLoop 0 8 (tripCount 0 alignCol 8) (fun j dst =>
      mm256StoreuPs dst (i * ldDst + j)
        (f8Chunk scale packRow srcF8Type src ldSrc kOffset kblock nPad i j)) dst
    forLoop alignCol 1 (tripCount alignCol col 1) (fun j dst =>
      dst.store (i * ldDst + j) 1 fun _ =>
        f8Value scale packRow srcF8Type src ldSrc kOffset kblock nPad i j) dst) dst
  (.success, dst)

/-! ## What the kernel stores -/

/-- What the kernel stores at row `i`, column `j < col`: lane `j % 8` of the chunk at
`j / 8 * 8` in the vector body, the epilogue's value after `col / 16 * 16`. -/
def f8Row (scale : F8Scale) (packRow : Nat) (t : F8Type) (src : Buf Byte)
    (ldSrc kOffset kblock nPad col i j : Nat) : Option ℚ :=
  if j < col / 16 * 16 then
    f8Chunk scale packRow t src ldSrc kOffset kblock nPad i (j / 8 * 8) (j % 8)
  else f8Value scale packRow t src ldSrc kOffset kblock nPad i j

/-- With `ld_dst ≥ col` the kernel fills the window with `f8Row` and leaves every other position
alone. -/
theorem decompressKblockF8Fp_eq (scale : F8Scale) (packRow : Nat) (src : Buf Byte)
    (dst : Buf (Option ℚ)) (row col ldSrc : Nat) {ldDst : Nat} (kOffset kblock nPad : Nat)
    (t : F8Type) (hld : col ≤ ldDst) :
    decompressKblockF8Fp scale packRow src dst row col ldSrc ldDst kOffset kblock nPad t
      = (.success, dst.window ldDst col row fun i j =>
          f8Row scale packRow t src ldSrc kOffset kblock nPad col i j) := by
  simp only [decompressKblockF8Fp, Prod.mk.injEq, true_and]
  refine Buf.forLoop_rows _ hld _ _ _ fun i d _ => ?_
  have htc : tripCount 0 (col / 16 * 16) 8 = col / 16 * 2 := by simp only [tripCount]; omega
  rw [← row_store_at d _ col 8 (col / 16 * 16) (by norm_num) (by omega) (by omega)]
  rw [forLoop_congr (fun k x hk => ?_) d]
  refine forLoop_congr (fun k x hk => ?_) _
  · exact Buf.store_congr _ _ _ fun _ _ => by
      rw [f8Row, if_neg (show ¬ col / 16 * 16 + k * 1 < col / 16 * 16 by omega)]
  · refine Buf.store_congr _ _ _ fun l hl => ?_
    rw [htc] at hk
    rw [f8Row, if_pos (by omega), show (0 + k * 8 + l) / 8 * 8 = 0 + k * 8 by omega,
      show (0 + k * 8 + l) % 8 = l by omega]

/-- Without an `f8` scale lane `l` of the vector body is `f8_to_fp32` of byte `p + l`: the
shifts and masks extract the sign, exponent and mantissa fields, for both formats and all 256
bytes. -/
theorem f8Bits_none (t : F8Type) (mem : Buf Byte) (p l : Nat) :
    f8Bits t mem p none l = f8ToFp32 t (mem (p + l)) := by
  simp only [f8Bits, lanes32, mm256CvtepiEpi32, mmLoaduSi128, mm256OrPs, mm256SlliEpi32,
    mm256AndSi256, mm256SrliEpi32, mm256SubEpi32, mm256Set1Epi32]
  generalize mem (p + l) = x
  revert x
  set_option maxRecDepth 100000 in
  cases t <;> decide

theorem packrow2PermuteIdx_lane {l : Nat} (hl : l < 8) : packrow2PermuteIdx l % 8 = l / 2 := by
  interval_cases l <;> rfl

/-- For `_PACK_ROW ∈ {1, 2}` lane `l` of the scales loaded for the chunk at a multiple of eight,
permuted with `packrow2_permute_idx` when `_PACK_ROW = 2`, is the epilogue's slot
`(j + l) / _PACK_ROW`. -/
theorem packrow12_scale_lane {α : Type} {packRow : Nat} (hp : packRow = 1 ∨ packRow = 2)
    (mem : Buf α) (base : Nat) {j l : Nat} (hj : j % 8 = 0) (hl : l < 8) :
    (if packRow = 2 then mm256Permutexvar packrow2PermuteIdx (mm256LoaduPs mem (base + j / packRow))
      else mm256LoaduPs mem (base + j / packRow)) l = mem (base + (j + l) / packRow) := by
  rcases hp with rfl | rfl
  · simp [Nat.add_assoc]
  · simp only [if_true, mm256Permutexvar, mm256Permutevar8x32, packrow2PermuteIdx_lane hl,
      mm256LoaduPs_apply]
    congr 1; omega

/-- For `_PACK_ROW ∈ {1, 2}` and no `f8` scale, lane `l` of the chunk at a multiple of eight
computes the epilogue's value at column `j + l`. -/
theorem f8Chunk_lane {scale : F8Scale} (hs : scale.isF8 = false) {packRow : Nat}
    (hp : packRow = 1 ∨ packRow = 2) (t : F8Type) (src : Buf Byte)
    (ldSrc kOffset kblock nPad i : Nat) {j l : Nat} (hj : j % 8 = 0) (hl : l < 8) :
    f8Chunk scale packRow t src ldSrc kOffset kblock nPad i j l
      = f8Value scale packRow t src ldSrc kOffset kblock nPad i (j + l) := by
  cases scale with
  | f8 _ => simp [F8Scale.isF8] at hs
  | none => simp only [f8Chunk, f8Value, f8Bits_none, Nat.add_assoc]
  | fp32 scales =>
    simp only [f8Chunk, f8Value, f8Bits_none, Nat.add_assoc, packrow12_scale_lane hp _ _ hj hl]

/-! ## Float scales and no scales: the body agrees with the epilogue -/

/-- With float scales or none and `_PACK_ROW ∈ {1, 2}`, for every format, shape and `ld_dst ≥ col`,
the kernel returns `Success`, stores the epilogue's value `f8_to_fp32(src) * scale` at every
position of the window, and leaves every other position alone. -/
theorem decompressKblockF8Fp_fp32 {scale : F8Scale} (hs : scale.isF8 = false) {packRow : Nat}
    (hp : packRow = 1 ∨ packRow = 2) (src : Buf Byte) (dst : Buf (Option ℚ))
    (row col ldSrc ldDst kOffset kblock nPad : Nat) (t : F8Type) (_hk : 0 < kblock)
    (hld : col ≤ ldDst) :
    (decompressKblockF8Fp scale packRow src dst row col ldSrc ldDst kOffset kblock nPad t).1
      = .success ∧
    (∀ i j, i < row → j < col →
      (decompressKblockF8Fp scale packRow src dst row col ldSrc ldDst kOffset kblock nPad t).2
        (i * ldDst + j) = f8Value scale packRow t src ldSrc kOffset kblock nPad i j) ∧
    ∀ p, (∀ i j, i < row → j < col → p ≠ i * ldDst + j) →
      (decompressKblockF8Fp scale packRow src dst row col ldSrc ldDst kOffset kblock nPad t).2 p
        = dst p := by
  simp only [decompressKblockF8Fp_eq _ _ _ _ _ _ _ _ _ _ _ hld, true_and]
  refine ⟨fun i j hi hj => ?_, fun p hp => Buf.window_apply_outside _ _ hp⟩
  rw [Buf.window_apply _ hld _ hi hj, f8Row]
  split_ifs
  · rw [f8Chunk_lane hs hp _ _ _ _ _ _ _ (Nat.mul_mod_left _ _) (Nat.mod_lt _ (by norm_num)),
      Nat.div_add_mod']
  · rfl

/-- Two rows of twenty E5M2 bytes `t` (a 16-column body and a tail of four), `_PACK_ROW = 2`,
float scales `t + 1`, `kblock = 2` from `k_offset = 1`, so row 1 reads the scales of k-block 1:
`(0, 5)` in the body is `0x05 = 1.25 * 2^-14` times scale 3, `(1, 3)` in the body is
`0x17 = 1.75 * 2^-10` times scale 12, `(1, 17)` in the tail is `0x25 = 1.25 * 2^-6` times scale
19, and column 20 of row 0, past the window, keeps its `none`. -/
theorem decompressKblockF8Fp_fp32_packrow2 :
    let r := decompressKblockF8Fp (.fp32 fun t => (t : ℚ) + 1) 2 (fun t => byteOf t) (fun _ => none)
      2 20 20 24 1 2 10 .e5m2
    r.1 = .success ∧ r.2 5 = some (15 / 65536) ∧ r.2 (24 + 3) = some (21 / 1024) ∧
      r.2 (24 + 17) = some (95 / 256) ∧ r.2 20 = none := by
  obtain ⟨h1, hw, hout⟩ := @decompressKblockF8Fp_fp32 (.fp32 fun t => (t : ℚ) + 1) rfl 2 (Or.inr rfl)
    (fun t => byteOf t) (fun _ => none) 2 20 20 24 1 2 10 .e5m2 (by decide) (by decide)
  have h5 := hw 0 5 (by decide) (by decide)
  have h27 := hw 1 3 (by decide) (by decide)
  have h41 := hw 1 17 (by decide) (by decide)
  have h20 := hout 20 fun i j hi hj => by omega
  simp only [f8Value, f8ToFp32, F8Type.ebits, fp32Value, byteOf_val] at h5 h27 h41
  norm_num at h5 h27 h41
  exact ⟨h1, h5, h27, h41, h20⟩

/-! ## Where the body and the epilogue part -/

/-- `_PACK_ROW = 4`, float scales `1, 2, …`, one 16-column row of E4M3 ones (`0x38`),
`kblock = 1`: column 1 gets `1 * scales[1] = 2`, where the epilogue's slot `1 / 4 = 0` gives
`1 * scales[0] = 1`. -/
theorem decompressKblockF8Fp_packrow4_diverges :
    (decompressKblockF8Fp (.fp32 fun t => (t : ℚ) + 1) 4 (fun _ => byteOf 0x38) (fun _ => none) 1 16
        16 16 0 1 16 .e4m3).2 (0 * 16 + 1) = some 2 ∧
    f8Value (.fp32 fun t => (t : ℚ) + 1) 4 .e4m3 (fun _ => byteOf 0x38) 16 0 1 16 0 1 = some 1 := by
  rw [decompressKblockF8Fp_eq _ _ _ _ _ _ _ _ _ _ _ le_rfl]
  simp only
  rw [Buf.window_apply _ le_rfl _ (by norm_num) (by norm_num)]
  simp [f8Row, f8Chunk, f8Value, f8Bits_none, f8ToFp32, F8Type.ebits, fp32Value]
  norm_num

/-- An E4M3 one (`0x38`) with the `f8` scale exponent `-128` (`0x80`): the vector body's
biased exponent `7 - 128 + 120 = -1`, shifted left by 23, fills the exponent field and the sign
bit with ones, the pattern of `-∞`, while the epilogue computes `1 * 2^-128`. -/
theorem decompressKblockF8Fp_exponent_wraps :
    (decompressKblockF8Fp (.f8 fun _ => byteOf 0x80) 1 (fun _ => byteOf 0x38) (fun _ => none) 1 16
        16 16 0 1 16 .e4m3).2 (0 * 16 + 0) = none ∧
    f8Value (.f8 fun _ => byteOf 0x80) 1 .e4m3 (fun _ => byteOf 0x38) 16 0 1 16 0 0
      = some (2 ^ (-128 : Int)) := by
  rw [decompressKblockF8Fp_eq _ _ _ _ _ _ _ _ _ _ _ le_rfl]
  simp only
  rw [Buf.window_apply _ le_rfl _ (by norm_num) (by norm_num)]
  -- the wrapped lane, for any source and scale offsets
  have hbits : ∀ p q, f8Bits .e4m3 (fun _ => byteOf 0x38) p
      (some (lanes32 (mm256CvtepiEpi32 (mmLoaduSi128 (fun _ => byteOf 0x80) q)))) 0 = 0xff800000#32 := by
    intro p q
    simp only [f8Bits, lanes32, mm256CvtepiEpi32, mmLoaduSi128, mm256OrPs, mm256SlliEpi32,
      mm256AndSi256, mm256SrliEpi32, mm256SubEpi32, mm256AddEpi32, mm256Set1Epi32]
    decide
  simp [f8Row, f8Chunk, f8Value, hbits, f8ToFp32, F8Type.ebits, fp32Value, int8Val]
  norm_num

end NeuralSpeed
