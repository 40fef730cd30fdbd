import NeuralSpeed.Quantize.Bounds
import NeuralSpeed.ZeroPointBias

/-!
# The quantized GEMM pipeline, end to end

The kernels of the integer GEMM path are used together. `quantize_fp_u8_colblock` turns each row
of the activation into `u8` codes block by block, with a scale, a zero point and, with
`blkreduce`, the block sum `scale * Σ raw` of the rounded values. For one depth block `b` the
caller multiplies the block's codes with `s8` weight codes in `int32` (that GEMM is not in this
file: its result is the accumulator the caller passes), and then runs `dequant_s32_fp32` and
`remove_zeropoint_bias` with the block's scales, zero points and block sums, which the quantizer
stored at `b + i * ld_scale`: the pointers `scales + b`, `zps + b`, `blkreduce + b` with stride
`ld_scale`.

* `QuantArgs.code_error`, `QuantArgs.raw_error` — every code and every rounded value of every
  block, the all-zero blocks of scale 0 included, comes back within half a step of its element.
* `quantGemm_pipeline` — the pipeline's result at every `(i, j)` of the `M × N` window is the
  product of the dequantized activation codes and the dequantized weights, plus
  `zpb sb (scale * Σ (q - zp) - blkreduce)`: the block sum was taken before the clamp, so this
  term is 0 unless a code was clamped (`quantizeFpU8Colblock_blkreduce_clamped`) or every weight
  zero point is 0. The result is within `scale / 2 * Σ_k |ŵ_kj| + len * scale * |zpb_j * sb_j|`
  of `Σ_k x_ik * ŵ_kj`, the product with the activation's exact values.
-/

namespace NeuralSpeed

open Finset

namespace QuantArgs

variable {S : Type} (a : QuantArgs S)

/-! ## Every element comes back within half a step -/

/-- The code of every element, of a block with a nonzero element or of an all-zero block of
scale 0, reconstructs it within half its block's scale. -/
theorem code_error (hbs : 0 < a.blocksize) {col c : Nat} (i : Nat) (hc : c < col) :
    |a.x i c - (a.blockScaleZp col i (c / a.blocksize)).1 *
        (((a.code col i c).val : ℚ) - (a.blockScaleZp col i (c / a.blocksize)).2.val)|
      ≤ (a.blockScaleZp col i (c / a.blocksize)).1 / 2 := by
  have hmm := a.blockMaxMin_spec hbs col i (c / a.blocksize)
  obtain ⟨k, hk, e⟩ := a.mem_block hbs hc rfl
  rcases (scaleZp_nonneg hmm).eq_or_lt with hs | hs
  · -- the scale is 0 only for an all-zero block
    rw [blockScaleZp, ← hs, (scaleZp_eq_zero hmm).1 hs.symm _ ⟨k, hk, congrArg (a.x i) e⟩]
    simp
  · exact scaleZp_error hmm hs ⟨k, hk, congrArg (a.x i) e⟩ (a.raw_sub_le col i c)

/-- The rounded value of every element, before the zero point and the clamp, comes back within
half its block's scale. -/
theorem raw_error (hbs : 0 < a.blocksize) {col c : Nat} (i : Nat) (hc : c < col) :
    |(a.blockScaleZp col i (c / a.blocksize)).1 * a.raw col i c - a.x i c|
      ≤ (a.blockScaleZp col i (c / a.blocksize)).1 / 2 := by
  obtain ⟨k, hk, e⟩ := a.mem_block hbs hc rfl
  exact scaleZp_round_error (a.blockMaxMin_spec hbs col i _) ⟨k, hk, congrArg (a.x i) e⟩
    (a.raw_sub_le col i c)

end QuantArgs

/-! ## The pipeline

The two float kernels, composed, compute at every position of the window the scaled
accumulator less the three corrections. The GEMM problem they solve is the one the quantizer's
output defines (`blockGemm`); the block sum the quantizer stored stands where that problem's
`reducea` would. -/

/-- `dequant_s32_fp32` followed by `remove_zeropoint_bias` on its output, at one position of the
window. -/
theorem removeZeropointBias_dequant_apply {F : Type} [CommRing F] (acc : Buf Int) (srcstep : Nat)
    (dst : Buf F) {M N ldacc : Nat} (hld : N ≤ ldacc) (scaleA : Buf F) (ldsa : Nat) (zpa zpb : Buf Byte)
    (scalea scaleb : Buf F) (lds k : Nat) (reducea reduceb : Buf F) {i j : Nat} (hi : i < M)
    (hj : j < N) :
    (removeZeropointBias (dequantS32Fp32 id acc srcstep dst ldacc M N scaleA ldsa scaleb).2 ldacc M N
        zpa zpb scalea scaleb lds k reducea reduceb).2 (i * ldacc + j)
      = scaleA (i * ldsa) * scaleb j * acc (i * srcstep + j)
        - int8Val (zpb j) * scaleb j * reducea (i * lds) - (zpa (i * lds)).val * scalea (i * lds) * reduceb j
        - (zpa (i * lds)).val * scalea (i * lds) * int8Val (zpb j) * scaleb j * k := by
  simp only [removeZeropointBias_eq _ _ _ _ _ _ _ _ _ _ _ hld, dequantS32Fp32_eq _ _ _ _ _ _ _ _ _ hld,
    Buf.window_apply _ hld _ hi hj, id]

/-- A dot product whose left factors are each within `e` of exact values is within `e Σ |w|` of
the exact one. -/
theorem abs_sum_sub_mul_le {n : Nat} {u v w : Nat → ℚ} {e : ℚ}
    (h : ∀ k, k < n → |u k - v k| ≤ e) :
    |∑ k ∈ range n, (u k - v k) * w k| ≤ e * ∑ k ∈ range n, |w k| := by
  rw [mul_sum]
  refine (abs_sum_le_sum_abs _ _).trans (sum_le_sum fun k hk => ?_)
  rw [abs_mul]
  exact mul_le_mul_of_nonneg_right (h k (mem_range.mp hk)) (abs_nonneg _)

theorem abs_sum_le_card_mul {n : Nat} {d : Nat → ℚ} {e : ℚ} (h : ∀ k, k < n → |d k| ≤ e) :
    |∑ k ∈ range n, d k| ≤ n * e :=
  calc |∑ k ∈ range n, d k| ≤ ∑ k ∈ range n, |d k| := abs_sum_le_sum_abs _ _
    _ ≤ ∑ _k ∈ range n, e := sum_le_sum fun k hk => h k (mem_range.mp hk)
    _ = n * e := by rw [sum_const, card_range, nsmul_eq_mul]

/-- The dequantized weight `sb[j] * (qb[k][j] - zpb[j])` of a quantized GEMM. -/
def QuantGemm.weight {F : Type} [CommRing F] (g : QuantGemm F) (k j : Nat) : F :=
  g.sb j * ((int8Val (g.qb k j) : F) - int8Val (g.zpb j))

section Pipeline

variable {S : Type} (a : QuantArgs S)

/-- The quantized GEMM of depth block `b` that the quantizer's output `r` and the weight codes
define: row `i` of the activation is the block's codes of row `i`, with the zero point and the
scale the quantizer stored for them. -/
def blockGemm (K : Nat) (r : QuantOut) (b : Nat) (qb : Nat → Nat → Byte) (zpb : Buf Byte) (sb : Buf ℚ) :
    QuantGemm ℚ where
  K := a.blockLen K b
  qa i k := r.dst (b * a.blocksize + k + i * a.ldDst)
  qb := qb
  zpa i := r.zps (b + i * a.ldScale)
  zpb := zpb
  sa i := r.scales (b + i * a.ldScale)
  sb := sb

/-- Each code of the block, dequantized with the block's scale and zero point, and each rounded
value of it, scaled, comes back within half the scale of the element it quantizes. -/
theorem blockGemm_code_error (out : QuantOut) {M K : Nat} {r : QuantOut} (hbs : 0 < a.blocksize)
    (hdst : K ≤ a.ldDst) (hscale : updiv K a.blocksize ≤ a.ldScale)
    (hr : quantizeFpU8Colblock M K a out = (.success, r)) {i b : Nat} (hi : i < M)
    (hb : b < updiv K a.blocksize) (qb : Nat → Nat → Byte) (zpb : Buf Byte) (sb : Buf ℚ) {k : Nat}
    (hk : k < a.blockLen K b) :
    let g := blockGemm a K r b qb zpb sb
    |g.sa i * (((g.qa i k).val : ℚ) - (g.zpa i).val) - a.x i (b * a.blocksize + k)| ≤ g.sa i / 2 ∧
      |g.sa i * a.raw K i (b * a.blocksize + k) - a.x i (b * a.blocksize + k)| ≤ g.sa i / 2 := by
  obtain ⟨hs, hz, -⟩ := quantizeFpU8Colblock_block M K a out hbs hdst hscale hi hb
  obtain ⟨hlt, hdiv⟩ := a.block_col hk
  have hc := (quantizeFpU8Colblock_apply M K a out hbs hdst hscale hi hlt).1
  simp only [hr] at hs hz hc
  have he := a.code_error hbs i hlt
  have he' := a.raw_error hbs i hlt
  rw [hdiv, abs_sub_comm] at he
  rw [hdiv] at he'
  exact ⟨by simpa only [blockGemm, hs, hz, hc] using he, by simpa only [blockGemm, hs] using he'⟩

/-- With `blkreduce`, the block sum the quantizer stored is the scaled sum of the block's rounded
values. -/
theorem blockGemm_blkreduce (out : QuantOut) {M K : Nat} {r : QuantOut} (hbs : 0 < a.blocksize)
    (hdst : K ≤ a.ldDst) (hscale : updiv K a.blocksize ≤ a.ldScale) (hw : a.withReduce = true)
    (hr : quantizeFpU8Colblock M K a out = (.success, r)) {i b : Nat} (hi : i < M)
    (hb : b < updiv K a.blocksize) (qb : Nat → Nat → Byte) (zpb : Buf Byte) (sb : Buf ℚ) :
    let g := blockGemm a K r b qb zpb sb
    r.blkreduce (b + i * a.ldScale) = ∑ k ∈ range g.K, g.sa i * a.raw K i (b * a.blocksize + k) := by
  obtain ⟨hs, -, hred⟩ := quantizeFpU8Colblock_block M K a out hbs hdst hscale hi hb
  simp only [hr] at hs hred
  rw [hred hw, QuantArgs.blockReduce, mul_comm, Int.cast_sum, mul_sum]
  simp only [blockGemm, hs]

/-- **The quantized GEMM pipeline.** Quantize `M` rows of `K` activations with `blkreduce`, take
depth block `b`, pass the integer GEMM of its codes with the weight codes, and dequantize and
remove the zero-point bias with the block's scales, zero points and block sums. Both kernels
return `Success`, and at every `(i, j)` of the `M × N` window:

* the result is the product `g.exact` of the dequantized codes and weights, plus the weight zero
  point's share `zpb sb (reducea - blkreduce)` of the gap between the code sum the correction
  needs and the block sum the quantizer stored;
* it is within `scale / 2 * Σ_k |ŵ_kj| + len * scale * |zpb_j sb_j|` of `Σ_k x_ik ŵ_kj`, the
  product with the activation's exact values. -/
theorem quantGemm_pipeline (out : QuantOut) {M K : Nat} {r : QuantOut} (hbs : 0 < a.blocksize)
    (hdst : K ≤ a.ldDst) (hscale : updiv K a.blocksize ≤ a.ldScale) (hw : a.withReduce = true)
    (hr : quantizeFpU8Colblock M K a out = (.success, r)) {b : Nat} (hb : b < updiv K a.blocksize)
    (qb : Nat → Nat → Byte) (zpb : Buf Byte) (sb : Buf ℚ) {N : Nat} (acc : Buf Int) (srcstep : Nat)
    (hacc : ∀ i j, i < M → j < N → acc (i * srcstep + j) = (blockGemm a K r b qb zpb sb).acc i j)
    (reduceb : Buf ℚ) (hreduceb : ∀ j, j < N → reduceb j = (blockGemm a K r b qb zpb sb).reduceB j)
    (dst : Buf ℚ) {ldacc : Nat} (hld : N ≤ ldacc) :
    let g := blockGemm a K r b qb zpb sb
    let deq := dequantS32Fp32 id acc srcstep dst ldacc M N (fun t => r.scales (b + t)) a.ldScale sb
    let res := removeZeropointBias deq.2 ldacc M N (fun t => r.zps (b + t)) zpb
      (fun t => r.scales (b + t)) sb a.ldScale g.K (fun t => r.blkreduce (b + t)) reduceb
    deq.1 = .success ∧ res.1 = .success ∧
    ∀ i j, i < M → j < N →
      res.2 (i * ldacc + j)
          = g.exact i j + int8Val (zpb j) * sb j * (g.reduceA i - r.blkreduce (b + i * a.ldScale)) ∧
      |res.2 (i * ldacc + j) - ∑ k ∈ range g.K, a.x i (b * a.blocksize + k) * g.weight k j|
        ≤ g.sa i / 2 * ∑ k ∈ range g.K, |g.weight k j| + g.K * g.sa i * |int8Val (zpb j) * sb j| := by
  intro g deq res
  refine ⟨rfl, rfl, fun i j hi hj => ?_⟩
  have hval : res.2 (i * ldacc + j)
      = g.exact i j + int8Val (zpb j) * sb j * (g.reduceA i - r.blkreduce (b + i * a.ldScale)) := by
    rw [removeZeropointBias_dequant_apply _ _ _ hld _ _ _ _ _ _ _ _ _ _ hi hj, hacc i j hi hj,
      hreduceb j hj, g.exact_eq]
    simp only [g, blockGemm]
    ring
  refine ⟨hval, ?_⟩
  have herr := fun k (hk : k < g.K) => blockGemm_code_error a out hbs hdst hscale hr hi hb qb zpb sb hk
  have hblk := blockGemm_blkreduce a out hbs hdst hscale hw hr hi hb qb zpb sb
  -- the deviation is the codes' error against the weights and the clamp's share through `zpb`
  have hsplit : res.2 (i * ldacc + j) - ∑ k ∈ range g.K, a.x i (b * a.blocksize + k) * g.weight k j
      = ∑ k ∈ range g.K, (g.sa i * (((g.qa i k).val : ℚ) - (g.zpa i).val) - a.x i (b * a.blocksize + k))
          * g.weight k j
        + int8Val (zpb j) * sb j * ∑ k ∈ range g.K,
          ((g.sa i * (((g.qa i k).val : ℚ) - (g.zpa i).val) - a.x i (b * a.blocksize + k))
            - (g.sa i * a.raw K i (b * a.blocksize + k) - a.x i (b * a.blocksize + k))) := by
    rw [hval, hblk, QuantGemm.exact, QuantGemm.reduceA]
    simp only [mul_sum, ← sum_sub_distrib, ← sum_add_distrib]
    refine sum_congr rfl fun k _ => ?_
    simp only [QuantGemm.weight, g, blockGemm]
    ring
  rw [hsplit]
  calc _ ≤ _ := abs_add _ _
    _ ≤ g.sa i / 2 * ∑ k ∈ range g.K, |g.weight k j| + |int8Val (zpb j) * sb j| * (g.K * g.sa i) := by
        refine add_le_add (abs_sum_sub_mul_le fun k hk => (herr k hk).1) ?_
        rw [abs_mul]
        refine mul_le_mul_of_nonneg_left (abs_sum_le_card_mul fun k hk => ?_) (abs_nonneg _)
        calc _ ≤ _ := abs_sub _ _
          _ ≤ g.sa i / 2 + g.sa i / 2 := add_le_add (herr k hk).1 (herr k hk).2
          _ = g.sa i := add_halves _
    _ = _ := by ring

/-- The row `[509, -1]` of `quantizeFpU8Colblock_blkreduce_clamped` (scale 2, zero point 1, codes
255 clamped and 0, block sum 508), one weight column of codes 3 with zero point 1 and scale 1,
the one-element integer GEMM: the result at `(0, 0)` and its bound. -/
theorem quantGemm_pipeline_clamped_row :
    let a : QuantArgs ℚ := ⟨id, fun t => if t = 0 then (509 : ℚ) else -1, 2, 2, 1, 2, true⟩
    let out : QuantOut := ⟨fun _ => 0, fun _ => 0, fun _ => 0, fun _ => 0⟩
    let r := (quantizeFpU8Colblock 1 2 a out).2
    let g := blockGemm a 2 r 0 (fun _ _ => byteOf 3) (fun _ => byteOf 1) (fun _ => 1)
    let deq := dequantS32Fp32 id (fun _ => g.acc 0 0) 1 (fun _ => 0) 1 1 1 (fun t => r.scales (0 + t))
      a.ldScale (fun _ => 1)
    let res := removeZeropointBias deq.2 1 1 1 (fun t => r.zps (0 + t)) (fun _ => byteOf 1)
      (fun t => r.scales (0 + t)) (fun _ => 1) a.ldScale g.K (fun t => r.blkreduce (0 + t))
      (fun _ => g.reduceB 0)
    res.2 (0 * 1 + 0)
        = g.exact 0 0 + int8Val (byteOf 1) * 1 * (g.reduceA 0 - r.blkreduce (0 + 0 * a.ldScale)) ∧
      |res.2 (0 * 1 + 0) - ∑ k ∈ range g.K, a.x 0 (0 * a.blocksize + k) * g.weight k 0|
        ≤ g.sa 0 / 2 * ∑ k ∈ range g.K, |g.weight k 0| + g.K * g.sa 0 * |(int8Val (byteOf 1) : ℚ) * 1| := by
  intro a out r g deq res
  have hone : ∀ {P : Nat → Nat → Prop}, P 0 0 → ∀ i j, i < 1 → j < 1 → P i j := fun h i j hi hj => by
    rw [Nat.lt_one_iff.mp hi, Nat.lt_one_iff.mp hj]; exact h
  exact (quantGemm_pipeline a out (M := 1) (by decide) le_rfl (by decide) rfl rfl (b := 0) (by decide)
    (fun _ _ => byteOf 3) (fun _ => byteOf 1) (fun _ => 1) (N := 1) (fun _ => g.acc 0 0) 1 (hone rfl)
    (fun _ => g.reduceB 0) (fun j hj => by rw [Nat.lt_one_iff.mp hj]; rfl) (fun _ => 0) le_rfl).2.2 0 0
    (by decide) (by decide)

end Pipeline

end NeuralSpeed
