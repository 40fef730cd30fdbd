import NeuralSpeed.Simd
import Mathlib.Tactic.IntervalCases

/-!
# Dequantizing k-blocks of 8-bit integers

`dequant_kblock_s8_fp_fwd<PACK_ROW, WITH_ZP, _DST_T>` turns a tile of `int8_t` codes into floats
or bf16: element `(i, j)` becomes `(src - zp) * scale`, where the scale (and zero point) slot is
`kpos * NPad + j / PACK_ROW` with `kpos = (k_offset + i) / kblock`. The columns below
`padto_le(col, 8)` go through an 8-wide vector body, the rest through a scalar epilogue.

For `PACK_ROW = 4` the vector body replicates each scale and zero point over four lanes with
`_mm256_permutevar8x32`, and for `PACK_ROW = 1` lane `l` reads slot `j + l`; in both cases lane
`l` computes what the epilogue computes at column `j + l` (`chunk_lane`), and with a float
destination the kernel writes the epilogue's value at every position of the window and nothing
else (`dequantKblockS8Fp_fp32`).

The other cases do not agree. For `PACK_ROW = 2` the vector body loads eight consecutive slots
with no replication, so lane `l` reads slot `j / 2 + l` where the epilogue reads
`(j + l) / 2` (`dequantKblockS8Fp_packrow2_diverges`). For a bf16 destination every chunk is stored at
`dstptr + i * ld_dst`, the row's first eight columns, so columns `8 ..` of the vector body are
never written (`dequantKblockS8Fp_bf16_skips`).

Every row divides by `kblock`; at `kblock = 0` the C++ divides by zero, where `Nat` division gives
slot 0, so the laws here assume `0 < kblock`.

The fixed-width helper `dequant_s8_N_avx2<N, _IS_SYM>`, which no kernel here calls, converts its
`N` codes chunk by chunk with the zero points and scales of each chunk's registers. Its zero
points are whole 32-bit lanes, and `_mm256_sub_epi32` subtracts them modulo `2 ^ 32`
(`dequantS8NAvx2_eq`).
-/

namespace NeuralSpeed

/-- `_DST_T` of a dequantize kernel. `fp32` stores the float (`cvt` is the identity when
`D = F`); `bf16` converts with `ymm_cvt_fp32_bf16` in the vector body (`vec`) and with the
assignment of a float to a `utils::bf16` in the scalar epilogue (`scalar`), and its vector store is
the 16-byte `_mm_storeu_si128`. -/
inductive DstT (F D : Type) where
  | fp32 (cvt : F → D)
  | bf16 (vec scalar : F → D)

/-- The conversion of the scalar epilogue's assignment `dstptr[...] = float`. -/
def DstT.scalar {F D : Type} : DstT F D → F → D
  | .fp32 cvt => cvt
  | .bf16 _ s => s

/-- The conversion of a vector store: `_mm256_storeu_ps`, or `ymm_cvt_fp32_bf16` and
`_mm_storeu_si128`. -/
def DstT.vec {F D : Type} : DstT F D → F → D
  | .fp32 cvt => cvt
  | .bf16 v _ => v

section S8

variable {F D : Type} [IntCast F] [Sub F] [Mul F]

/-- `packrow4_permute_idx = _mm256_setr_epi32(0, 0, 0, 0, 1, 1, 1, 1)`. -/
def packrow4PermuteIdx : M256 Nat := mm256SetrEpi32 [0, 0, 0, 0, 1, 1, 1, 1]

/-- The value the scalar epilogue computes at row `i`, column `j`:
`((float)src - (float)zp) * sptr[j / PACK_ROW]`, without the zero point when `WITH_ZP` is false. -/
def s8Value (packRow : Nat) (withZp : Bool) (src : Buf Byte) (ldSrc : Nat) (scales : Buf F)
    (zeroPoints : Buf Byte) (kOffset kblock nPad i j : Nat) : F :=
  let kpos := (kOffset + i) / kblock
  let tmp : F := int8Val (src (i * ldSrc + j))
  let tmp := if withZp then tmp - int8Val (zeroPoints (kpos * nPad + j / packRow)) else tmp
  tmp * scales (kpos * nPad + j / packRow)

/-- The eight lanes the vector body computes at row `i`, columns `j..j+7`, before the store. -/
def s8Chunk (packRow : Nat) (withZp : Bool) (src : Buf Byte) (ldSrc : Nat) (scales : Buf F)
    (zeroPoints : Buf Byte) (kOffset kblock nPad i j : Nat) : M256 F :=
  let kpos := (kOffset + i) / kblock
  let s32 := mm256CvtepiEpi32 (mmLoadlEpi64 src (i * ldSrc + j))
  let s32 :=
    if withZp then
      let zp := mm256CvtepiEpi32 (mmLoadlEpi64 zeroPoints (kpos * nPad + j / packRow))
      let zp := if packRow = 4 then mm256Permutevar8x32 zp packrow4PermuteIdx else zp
      mm256SubEpi32 s32 zp
    else s32
  let f32 : M256 F := mm256Cvtepi32Ps s32
  let scale := mm256LoaduPs scales (kpos * nPad + j / packRow)
  let scale := if packRow = 4 then mm256Permutevar8x32 scale packrow4PermuteIdx else scale
  mm256MulPs f32 scale

/-- `dequant_kblock_s8_fp_fwd<PACK_ROW, WITH_ZP, _DST_T>`. The float store puts the chunk at
`dstptr + i * ld_dst + j`, the bf16 store at `dstptr + i * ld_dst`. `kpos` is a `Nat` quotient,
which the C++ leaves undefined at `kblock = 0`. -/
def dequantKblockS8FpFwd (packRow : Nat) (withZp : Bool) (dstT : DstT F D) (src : Buf Byte)
    (dst : Buf D) (row col ldSrc ldDst : Nat) (scales : Buf F) (zeroPoints : Buf Byte)
    (kOffset kblock nPad : Nat) : BtlaCode × Buf D :=
  let simdProcessNum := padtoLe col 8
  let dst := forLoop 0 1 row (fun i dst =>
    let dst := forLoop 0 8 (tripCount 0 simdProcessNum 8) (fun j dst =>
      let f32 := s8Chunk packRow withZp src ldSrc scales zeroPoints kOffset kblock nPad i j
      match dstT with
      | .fp32 cvt => mm256StoreuPs dst (i * ldDst + j) fun l => cvt (f32 l)
      | .bf16 vec _ => dst.store (i * ldDst) 8 fun l => vec (f32 l)) dst
    forLoop simdProcessNum 1 (tripCount simdProcessNum col 1) (fun j dst =>
      dst.store (i * ldDst + j) 1 fun _ =>
        dstT.scalar (s8Value packRow withZp src ldSrc scales zeroPoints kOffset kblock nPad i j))
      dst) dst
  (.success, dst)

/-- `dequant_kblock_s8_fp<PACK_ROW, _DST_T>`: without zero points (`nullptr`) or with them. -/
def dequantKblockS8Fp (packRow : Nat) (dstT : DstT F D) (src : Buf Byte) (dst : Buf D)
    (row col ldSrc ldDst : Nat) (scales : Buf F) (zeroPoints : Option (Buf Byte))
    (kOffset kblock nPad : Nat) : BtlaCode × Buf D :=
  match zeroPoints with
  | none => dequantKblockS8FpFwd packRow false dstT src dst row col ldSrc ldDst scales (fun _ => 0)
      kOffset kblock nPad
  | some zp => dequantKblockS8FpFwd packRow true dstT src dst row col ldSrc ldDst scales zp
      kOffset kblock nPad

/-! ## What a float destination holds -/

/-- What a float destination holds at row `i`, column `j < col`: lane `j % 8` of the chunk at
`j / 8 * 8` in the vector body, the epilogue's value after `padto_le(col, 8)`. -/
def s8FpRow (packRow : Nat) (withZp : Bool) (src : Buf Byte) (ldSrc : Nat) (scales : Buf F)
    (zeroPoints : Buf Byte) (kOffset kblock nPad col i j : Nat) : F :=
  if j < padtoLe col 8 then
    s8Chunk packRow withZp src ldSrc scales zeroPoints kOffset kblock nPad i (j / 8 * 8) (j % 8)
  else s8Value packRow withZp src ldSrc scales zeroPoints kOffset kblock nPad i j

/-- With a float destination and `ld_dst ≥ col`, the kernel fills the window with `s8FpRow` and
leaves every other position alone. -/
theorem dequantKblockS8FpFwd_fp32 (packRow : Nat) (withZp : Bool) (cvt : F → D) (src : Buf Byte)
    (dst : Buf D) (row col ldSrc ldDst : Nat) (scales : Buf F) (zeroPoints : Buf Byte)
    (kOffset kblock nPad : Nat) (hld : col ≤ ldDst) :
    dequantKblockS8FpFwd packRow withZp (.fp32 cvt) src dst row col ldSrc ldDst scales zeroPoints
        kOffset kblock nPad
      = (.success, dst.window ldDst col row fun i j =>
          cvt (s8FpRow packRow withZp src ldSrc scales zeroPoints kOffset kblock nPad col i j)) := by
  simp only [dequantKblockS8FpFwd, Prod.mk.injEq, true_and]
  refine Buf.forLoop_rows _ hld _ _ _ fun i d _ => ?_
  rw [← row_store]
  rw [forLoop_congr (fun k x hk => ?_) d]
  refine forLoop_congr (fun k x hk => ?_) _
  · apply Buf.store_congr
    intro _ _
    simp only [s8FpRow, DstT.scalar, if_neg (show ¬ padtoLe col 8 + k * 1 < padtoLe col 8 by omega)]
  · simp only [mm256StoreuPs]
    apply Buf.store_congr
    intro l hl
    rw [tripCount_padtoLe _ _ (by norm_num)] at hk
    have hlt : 0 + k * 8 + l < padtoLe col 8 := by rw [padtoLe]; omega
    simp only [s8FpRow, if_pos hlt, show (0 + k * 8 + l) / 8 * 8 = 0 + k * 8 by omega,
      show (0 + k * 8 + l) % 8 = l by omega]

end S8

section S8Laws

variable {F D : Type} [Ring F]

theorem packrow4PermuteIdx_lane {l : Nat} (hl : l < 8) : packrow4PermuteIdx l % 8 = l / 4 := by
  interval_cases l <;> rfl

/-- For `PACK_ROW ∈ {1, 4}` lane `l` of the chunk at a multiple of eight computes the epilogue's
value at column `j + l`. -/
theorem chunk_lane {packRow : Nat} (hp : packRow = 1 ∨ packRow = 4) (withZp : Bool) (src : Buf Byte)
    (ldSrc : Nat) (scales : Buf F) (zeroPoints : Buf Byte) (kOffset kblock nPad i : Nat) {j l : Nat}
    (hj : j % 8 = 0) (hl : l < 8) :
    s8Chunk packRow withZp src ldSrc scales zeroPoints kOffset kblock nPad i j l
      = s8Value packRow withZp src ldSrc scales zeroPoints kOffset kblock nPad i (j + l) := by
  have hslot : j / packRow + (if packRow = 4 then l / 4 else l) = (j + l) / packRow := by
    rcases hp with rfl | rfl
    · simp
    · simp only [if_true]; omega
  have hidx : (if packRow = 4 then l / 4 else l) < 8 := by split_ifs <;> omega
  simp only [s8Chunk, s8Value, mm256MulPs_apply, mm256Cvtepi32Ps, mm256CvtepiEpi32, mmLoadlEpi64,
    mm256LoaduPs_apply, if_pos hl, ← Nat.add_assoc]
  have hperm : ∀ {α : Type} (v : M256 α),
      (if packRow = 4 then mm256Permutevar8x32 v packrow4PermuteIdx else v) l
        = v (if packRow = 4 then l / 4 else l) := by
    intro α v; split_ifs <;> simp only [mm256Permutevar8x32, packrow4PermuteIdx_lane hl]
  rw [hperm, mm256LoaduPs_apply, Nat.add_assoc, hslot]
  cases withZp <;> simp only [Bool.false_eq_true, if_false, if_true, mm256SubEpi32, hperm,
    mm256CvtepiEpi32, mmLoadlEpi64, if_pos hl, if_pos hidx, Nat.add_assoc, hslot, Int.cast_sub]

/-- With a float destination, `PACK_ROW ∈ {1, 4}` and `0 < kblock`, with or without zero points,
the kernel returns `Success`, every position `(i, j)` of the window holds
`cvt ((src - zp) * scale)` with the scale and zero point of slot `kpos * NPad + j / PACK_ROW`
(`zp = 0` without zero points), and no position outside the window changes. -/
theorem dequantKblockS8Fp_fp32 {packRow : Nat} (hp : packRow = 1 ∨ packRow = 4) (cvt : F → D)
    (src : Buf Byte) (dst : Buf D) (row col ldSrc ldDst : Nat) (scales : Buf F)
    (zeroPoints : Option (Buf Byte)) (kOffset kblock nPad : Nat) (_hk : 0 < kblock)
    (hld : col ≤ ldDst) :
    (dequantKblockS8Fp packRow (.fp32 cvt) src dst row col ldSrc ldDst scales zeroPoints kOffset
        kblock nPad).1 = .success ∧
    (∀ i j, i < row → j < col →
      (dequantKblockS8Fp packRow (.fp32 cvt) src dst row col ldSrc ldDst scales zeroPoints kOffset
        kblock nPad).2 (i * ldDst + j) =
      cvt (((int8Val (src (i * ldSrc + j)) : F) - ((zeroPoints.elim 0 fun zp =>
          int8Val (zp ((kOffset + i) / kblock * nPad + j / packRow)) : Int) : F)) *
        scales ((kOffset + i) / kblock * nPad + j / packRow))) ∧
    ∀ t, (∀ i j, i < row → j < col → t ≠ i * ldDst + j) →
      (dequantKblockS8Fp packRow (.fp32 cvt) src dst row col ldSrc ldDst scales zeroPoints kOffset
        kblock nPad).2 t = dst t := by
  have hrow : ∀ (withZp : Bool) (zp : Buf Byte) (i j : Nat), j < col →
      s8FpRow packRow withZp src ldSrc scales zp kOffset kblock nPad col i j
        = s8Value packRow withZp src ldSrc scales zp kOffset kblock nPad i j := by
    intro withZp zp i j hj
    simp only [s8FpRow]
    split_ifs
    · rw [chunk_lane hp _ _ _ _ _ _ _ _ _ (by omega) (Nat.mod_lt _ (by norm_num)), Nat.div_add_mod']
    · rfl
  cases zeroPoints <;>
    simp only [dequantKblockS8Fp, dequantKblockS8FpFwd_fp32 _ _ _ _ _ _ _ _ _ _ _ _ _ _ hld,
      true_and, Option.elim]
  all_goals
    refine ⟨fun i j hi hj => ?_, fun t ht => Buf.window_apply_outside _ _ ht⟩
    rw [Buf.window_apply _ hld _ hi hj, hrow _ _ _ _ hj]
    simp [s8Value]

/-- Two rows of twelve codes `t + 250` (a vector chunk and a tail of four), `PACK_ROW = 4`,
`kblock = 2` from `k_offset = 1`, so the rows lie in k-blocks 0 and 1, zero points `3 * t` and
scales `t + 1`: `(1, 5)` in the vector body is `(11 - 15) * 6`, `(1, 9)` in the tail
`(15 - 18) * 7`, and column 12 of row 0, past the window, keeps its 0. -/
theorem dequantKblockS8Fp_fp32_packrow4 :
    let r := dequantKblockS8Fp 4 (.fp32 (id : ℚ → ℚ)) (fun t => byteOf (t + 250)) (fun _ => 0) 2 12 12
      16 (fun t => (t : ℚ) + 1) (some fun t => byteOf (3 * t)) 1 2 4
    r.1 = .success ∧ r.2 2 = -4 ∧ r.2 (16 + 5) = -24 ∧ r.2 (16 + 9) = -21 ∧ r.2 12 = 0 := by
  obtain ⟨h1, hw, hout⟩ := dequantKblockS8Fp_fp32 (Or.inr rfl) (id : ℚ → ℚ) (fun t => byteOf (t + 250))
    (fun _ => 0) 2 12 12 16 (fun t => (t : ℚ) + 1) (some fun t => byteOf (3 * t)) 1 2 4 (by decide)
    (by decide)
  have h2 := hw 0 2 (by decide) (by decide)
  have h21 := hw 1 5 (by decide) (by decide)
  have h25 := hw 1 9 (by decide) (by decide)
  have h12 := hout 12 fun i j hi hj => by omega
  norm_num [int8Val] at h2 h21 h25
  exact ⟨h1, h2, h21, h25, h12⟩

/-- `PACK_ROW = 2`, float destination, one 8-column row, `kblock = 1`, scales `1, 2, …, 8`, all
codes 1, no zero points: column 1 gets `1 * scales[1] = 2`, where the epilogue's slot `1 / 2 = 0`
gives `1 * scales[0] = 1`. -/
theorem dequantKblockS8Fp_packrow2_diverges :
    (dequantKblockS8Fp 2 (.fp32 id) (fun _ => byteOf 1) (fun _ => (0 : ℚ)) 1 8 8 8
        (fun t => (t : ℚ) + 1) none 0 1 8).2 (0 * 8 + 1) = 2 ∧
    ((int8Val (byteOf 1) : ℚ) - 0) * ((fun t : Nat => (t : ℚ) + 1) ((0 + 0) / 1 * 8 + 1 / 2)) = 1 := by
  simp only [dequantKblockS8Fp, dequantKblockS8FpFwd_fp32 _ _ _ _ _ _ _ _ _ _ _ _ _ _ le_rfl]
  rw [Buf.window_apply _ le_rfl _ (by norm_num) (by norm_num)]
  simp [s8FpRow, s8Chunk, padtoLe, mm256Cvtepi32Ps, mm256CvtepiEpi32, mmLoadlEpi64, int8Val]
  norm_num

/-- With a bf16 destination, for every pair of conversions, a 16-column row leaves column 8
unwritten: both vector chunks are stored at the row's first eight columns. -/
theorem dequantKblockS8Fp_bf16_skips (vec scalar : F → D) (src : Buf Byte) (dst : Buf D)
    (scales : Buf F) :
    (dequantKblockS8Fp 1 (.bf16 vec scalar) src dst 1 16 16 16 scales none 0 1 16).2 (0 * 16 + 8)
      = dst 8 := by
  simp [dequantKblockS8Fp, dequantKblockS8FpFwd, forLoop, tripCount, padtoLe, Buf.store]

end S8Laws

/-! ## The fixed-width helper -/

section S8N

variable {F : Type} [IntCast F] [Mul F]

/-- `dequant_s8_N_avx2<N, _IS_SYM>(dstptr, srcptr, vscales, vzps)`: chunk `iv < N / 8` widens the
eight codes at `srcptr + iv * 8` to 32-bit lanes, subtracts the lanes of `vzps[iv]` modulo `2 ^ 32`
unless `_IS_SYM`, converts the `int32_t` lanes to floats, multiplies by `vscales[iv]` and stores
at `dstptr + iv * 8`. -/
def dequantS8NAvx2 (n : Nat) (isSym : Bool) (dstptr : Buf F) (srcptr : Buf Byte)
    (vscales : Nat → M256 F) (vzps : Nat → M256 (BitVec 32)) : Buf F :=
  forLoop 0 1 (n / 8) (fun iv dstptr =>
    let srcS8 := mmLoadlEpi64 srcptr (iv * 8)
    let zmm := lanes32 (mm256CvtepiEpi32 srcS8)
    let zmm := if isSym then zmm else mm256SubEpi32 zmm (vzps iv)
    let fzmm : M256 F := mm256Cvtepi32Ps (int32Lanes zmm)
    let fzmm := mm256MulPs fzmm (vscales iv)
    mm256StoreuPs dstptr (iv * 8) fzmm) dstptr

/-- **`dequant_s8_N_avx2` dequantizes its `N` codes.** For `N` a multiple of eight (the
kernel's `static_assert`), element `t < N` becomes code `t`, less lane `t % 8` of `vzps[t / 8]`
modulo `2 ^ 32` (as an `int32_t`) unless symmetric, times lane `t % 8` of `vscales[t / 8]`;
nothing past `N` is written. -/
theorem dequantS8NAvx2_eq {n : Nat} (hn : n % 8 = 0) (isSym : Bool) (dstptr : Buf F)
    (srcptr : Buf Byte) (vscales : Nat → M256 F) (vzps : Nat → M256 (BitVec 32)) :
    dequantS8NAvx2 n isSym dstptr srcptr vscales vzps
      = dstptr.store 0 n fun t =>
          ((if isSym then int8Val (srcptr t)
            else (int8Val (srcptr t) - (vzps (t / 8) (t % 8)).toInt).bmod (2 ^ 32) : Int) : F)
            * vscales (t / 8) (t % 8) := by
  obtain ⟨m, rfl⟩ : ∃ m, n = m * 8 := ⟨n / 8, (Nat.div_mul_cancel (Nat.dvd_of_mod_eq_zero hn)).symm⟩
  have h := forLoop_store_chunks dstptr 0 0 8 m fun t =>
    ((if isSym then int8Val (srcptr t)
      else (int8Val (srcptr t) - (vzps (t / 8) (t % 8)).toInt).bmod (2 ^ 32) : Int) : F)
      * vscales (t / 8) (t % 8)
  simp only [Nat.zero_add, Nat.zero_mul] at h
  rw [dequantS8NAvx2, Nat.mul_div_cancel m (by norm_num : 0 < 8), ← h]
  refine forLoop_congr (fun k d _ => ?_) dstptr
  simp only [Nat.zero_add, Nat.mul_one, mm256StoreuPs]
  refine Buf.store_congr _ _ _ fun l hl => ?_
  have hsrc := int32Lanes_lanes32_cvtepi8 (mmLoadlEpi64 srcptr (k * 8)) l
  rw [mmLoadlEpi64, if_pos hl] at hsrc
  simp only [show (k * 8 + l) / 8 = k by omega, show (k * 8 + l) % 8 = l by omega, mm256MulPs_apply,
    mm256Cvtepi32Ps]
  cases isSym
  · simp only [Bool.false_eq_true, if_false, int32Lanes, mm256SubEpi32, BitVec.toInt_sub]
    rw [show (lanes32 (mm256CvtepiEpi32 (mmLoadlEpi64 srcptr (k * 8))) l).toInt = int8Val (srcptr (k * 8 + l))
      from hsrc]
  · simp only [if_true, hsrc]

/-- Sixteen codes `37 * t`, the zero point `-2` in every lane but lane 0 of chunk 0, which is
`INT_MIN`, and the scales `iv + l + 1`: element 0 is code 0 less `INT_MIN`, which wraps to
`INT_MIN`; element 9 is `(77 + 2) * 3`; element 16, past `N`, keeps its 0. -/
theorem dequantS8NAvx2_eq_sixteen :
    let r := dequantS8NAvx2 16 false (fun _ => (0 : ℚ)) (fun t => byteOf (37 * t))
      (fun iv l => (iv + l + 1 : ℚ))
      (fun iv l => if iv = 0 ∧ l = 0 then 0x80000000#32 else 0xfffffffe#32)
    r 0 = -2147483648 ∧ r 9 = 237 ∧ r 16 = 0 := by
  intro r
  have h := dequantS8NAvx2_eq (by decide : 16 % 8 = 0) false (fun _ => (0 : ℚ))
    (fun t => byteOf (37 * t)) (fun iv l => (iv + l + 1 : ℚ))
    (fun iv l => if iv = 0 ∧ l = 0 then 0x80000000#32 else 0xfffffffe#32)
  refine ⟨?_, ?_, ?_⟩ <;> simp only [r, h, Buf.store_apply] <;>
    norm_num [int8Val, Int.bmod, BitVec.toInt]

end S8N

end NeuralSpeed
