import NeuralSpeed.Simd
import Mathlib.Algebra.BigOperators.Ring
import Mathlib.Algebra.Ring.Rat
import Mathlib.Tactic.IntervalCases

/-!
# Dequantizing an integer GEMM and removing its zero-point bias

An integer GEMM of `u8` activation codes `qa` (zero point `zpa`, scale `sa` per row) and `s8`
weight codes `qb` (zero point `zpb`, scale `sb` per column) accumulates `Σ_k qa * qb` in
`int32`. `dequant_s32_fp32` multiplies each accumulator by `sa[i] * sb[j]`, and the bias kernels
subtract what the zero points contributed, using the per-row and per-column sums
`reducea[i] = sa[i] * Σ_k (qa - zpa)` and `reduceb[j] = sb[j] * Σ_k (qb - zpb)`:

* `remove_zeropoint_bias` subtracts `zpb sb reducea`, `zpa sa reduceb` and `zpa sa zpb sb K`;
* `remove_act_zeropoint_bias` only the activation term, for weights without zero points;
* `remove_wei_zeropoint_bias` only the weight term, for activations without zero points.

The three kernels share one loop nest (`biasRows`): per row an 8-wide body that loads a chunk
of the accumulator, adds the corrections with `_mm256_fmadd_ps` and stores it back, then a
scalar epilogue of `-=` updates. `biasRows_eq` says once that such a loop nest updates every
position of the window in place with the epilogue's update, provided each vector lane computes
that update; each kernel then only checks its lanes.

`removeZeropointBias_exact` is the end-to-end law: over every commutative ring, in particular
in exact rational arithmetic, dequantizing and then removing the bias leaves exactly
`Σ_k sa (qa - zpa) * sb (qb - zpb)`, and so do the two one-sided kernels when the other zero
points vanish. The three correction terms and their signs are `bias_identity`.
-/

namespace NeuralSpeed

open Finset

/-! ## The loop nest of the bias kernels -/

section Rows

variable {F : Type}

/-- The loop nest of the bias kernels. Row `i` runs the 8-wide body `vbody i j` on the chunk of
the accumulator at `i * ldacc + j` up to `padto_le(col, 8)`, then, when `j < col`, the scalar
epilogue `sbody i j` on each remaining element. -/
def biasRows (acc : Buf F) (ldacc row col : Nat) (vbody : Nat → Nat → M256 F → M256 F)
    (sbody : Nat → Nat → Buf F → Buf F) : Buf F :=
  let col8 := padtoLe col 8
  forLoop 0 1 row (fun i acc =>
    let acc := forLoop 0 8 (tripCount 0 col8 8) (fun j acc =>
      mm256StoreuPs acc (i * ldacc + j) (vbody i j (mm256LoaduPs acc (i * ldacc + j)))) acc
    if col8 < col then forLoop col8 1 (tripCount col8 col 1) (sbody i) acc else acc) acc

/-- A `for (; j < col; j++)` loop guarded by `if (j < col)` is the loop alone. -/
theorem forLoop_if_lt {σ : Type} (a b : Nat) (body : Nat → σ → σ) (x : σ) :
    (if a < b then forLoop a 1 (tripCount a b 1) body x else x) = forLoop a 1 (tripCount a b 1) body x := by
  split_ifs with h
  · rfl
  · rw [tripCount_one, Nat.sub_eq_zero_of_le (by omega), forLoop_zero]

/-- The loop nest of the bias kernels updates every position of the window in place, once,
with the epilogue's update `U i j`, when every vector lane `l` computes `U i (j + l)` of its
lane and each epilogue step is that update of one element. -/
theorem biasRows_eq (acc : Buf F) {ldacc : Nat} (row col : Nat) {vbody : Nat → Nat → M256 F → M256 F}
    {sbody : Nat → Nat → Buf F → Buf F} (U : Nat → Nat → F → F) (hcol : col ≤ ldacc)
    (hv : ∀ i j x l, l < 8 → vbody i j x l = U i (j + l) (x l))
    (hs : ∀ i j d, sbody i j d = d.update (i * ldacc + j) 1 fun _ => U i j) :
    biasRows acc ldacc row col vbody sbody
      = acc.window ldacc col row fun i j => U i j (acc (i * ldacc + j)) := by
  refine Buf.forLoop_rows_update _ hcol _ U _ fun i d _ => ?_
  rw [forLoop_if_lt, ← row_update,
    forLoop_congr (g := fun j d => d.update (i * ldacc + j) 1 fun _ => U i j) (fun k x _ => hs i _ x),
    forLoop_congr (fun k x _ => ?_) d]
  refine Buf.store_congr _ _ _ fun l hl => ?_
  rw [hv _ _ _ _ hl, mm256LoaduPs_apply]

end Rows

section Kernels

variable {F : Type} [CommRing F]

/-- `dequant_s32_fp32<SCAB_T>`: `dst[i][j] = scaleA[i * ldsa] * scaleB[j] * src[i][j]`, the
vector body as `src * (scaleA * scaleB)`. `toF` reads a `SCAB_T` scale as a float: the identity
for `float`, the widening of `ymm_cvt_bf16_fp32` and of the scalar conversion for `bf16`. -/
def dequantS32Fp32 {S : Type} (toF : S → F) (src : Buf Int) (srcstep : Nat) (dst : Buf F)
    (dststep row col : Nat) (scaleA : Buf F) (ldsa : Nat) (scaleB : Buf S) : BtlaCode × Buf F :=
  let col8 := padtoLe col 8
  let dst := forLoop 0 1 row (fun irow dst =>
    let scale := scaleA (irow * ldsa)
    let valpha := mm256Set1Ps scale
    let dst := forLoop 0 8 (tripCount 0 col8 8) (fun icol dst =>
      let vwscale : M256 F := fun l => toF (mm256LoaduPs scaleB icol l)
      let vscale := mm256MulPs valpha vwscale
      let vsrcd := mm256LoaduSi256 src (irow * srcstep + icol)
      let vsrc : M256 F := mm256Cvtepi32Ps vsrcd
      let vsrc := mm256MulPs vsrc vscale
      mm256StoreuPs dst (irow * dststep + icol) vsrc) dst
    forLoop col8 1 (tripCount col8 col 1) (fun icol dst =>
      dst.store (irow * dststep + icol) 1 fun _ =>
        scale * toF (scaleB icol) * (src (irow * srcstep + icol) : F)) dst) dst
  (.success, dst)

/-- `mask = {-1, -1, 0, 0}`, loaded with `_mm_loadu_si128`: load the low two 32-bit lanes. -/
def zpMask : Nat → Int := fun w => [-1, -1, 0, 0].getD w 0

/-- `remove_act_zeropoint_bias`: `acc[i][j] -= zps[i * lds] * scales[i * lds] * reduce[j]`. -/
def removeActZeropointBias (accptr : Buf F) (ldacc row col : Nat) (zps : Buf Byte)
    (scales : Buf F) (lds : Nat) (reduce : Buf F) : BtlaCode × Buf F :=
  let zpf := fun i => ((zps (i * lds)).val : F) * scales (i * lds)
  (.success, biasRows accptr ldacc row col
    (fun i j vacc =>
      let vzp := mm256Set1Ps (-zpf i)
      let vreduce := mm256LoaduPs reduce j
      mm256FmaddPs vzp vreduce vacc)
    (fun i j acc => acc.update (i * ldacc + j) 1 fun _ x => x - zpf i * reduce j))

/-- `remove_wei_zeropoint_bias`: `acc[i][j] -= zps[j] * scales[j] * reduce[i * lds]`. -/
def removeWeiZeropointBias (accptr : Buf F) (ldacc row col : Nat) (zps : Buf Byte)
    (scales : Buf F) (lds : Nat) (reduce : Buf F) : BtlaCode × Buf F :=
  (.success, biasRows accptr ldacc row col
    (fun i j vacc =>
      let vreduce := mm256Set1Ps (-reduce (i * lds))
      let vzpS32 := mm256CvtepiEpi32 (mmMaskloadEpi32 zps j zpMask)
      let vzpF32 : M256 F := mm256Cvtepi32Ps vzpS32
      let vzp := mm256MulPs vzpF32 (mm256LoaduPs scales j)
      mm256FmaddPs vzp vreduce vacc)
    (fun i j acc => acc.update (i * ldacc + j) 1 fun _ x =>
      x - (int8Val (zps j) : F) * scales j * reduce (i * lds)))

/-- `remove_zeropoint_bias`: the three corrections in turn, the last with depth `k`. -/
def removeZeropointBias (accptr : Buf F) (ldacc row col : Nat) (zpa zpb : Buf Byte)
    (scalea scaleb : Buf F) (lds k : Nat) (reducea reduceb : Buf F) : BtlaCode × Buf F :=
  let vk := mm256Set1Ps (k : F)
  let zpaf := fun i => ((zpa (i * lds)).val : F) * scalea (i * lds)
  (.success, biasRows accptr ldacc row col
    (fun i j vacc =>
      let vreducea := mm256Set1Ps (-reducea (i * lds))
      let vzpa := mm256Set1Ps (-zpaf i)
      let vzpS32 := mm256CvtepiEpi32 (mmMaskloadEpi32 zpb j zpMask)
      let vzpF32 : M256 F := mm256Cvtepi32Ps vzpS32
      let vzpb := mm256MulPs vzpF32 (mm256LoaduPs scaleb j)
      let vreduceb := mm256LoaduPs reduceb j
      let vacc := mm256FmaddPs vzpa vreduceb vacc
      let vacc := mm256FmaddPs vzpb vreducea vacc
      let vzpb := mm256MulPs vzpb vk
      mm256FmaddPs vzpa vzpb vacc)
    (fun i j acc =>
      let p := i * ldacc + j
      let acc := acc.update p 1 fun _ x => x - (int8Val (zpb j) : F) * scaleb j * reducea (i * lds)
      let acc := acc.update p 1 fun _ x => x - zpaf i * reduceb j
      acc.update p 1 fun _ x => x - zpaf i * (int8Val (zpb j) : F) * scaleb j * k))

/-! ## The kernels, element by element -/

/-- With `ld_dst ≥ col` the dequantization fills the window with the epilogue's products. -/
theorem dequantS32Fp32_eq {S : Type} (toF : S → F) (src : Buf Int) (srcstep : Nat) (dst : Buf F)
    {dststep : Nat} (row col : Nat) (scaleA : Buf F) (ldsa : Nat) (scaleB : Buf S)
    (hld : col ≤ dststep) :
    dequantS32Fp32 toF src srcstep dst dststep row col scaleA ldsa scaleB
      = (.success, dst.window dststep col row fun i j =>
          scaleA (i * ldsa) * toF (scaleB j) * (src (i * srcstep + j) : F)) := by
  simp only [dequantS32Fp32, Prod.mk.injEq, true_and]
  refine Buf.forLoop_rows _ hld _ _ _ fun i d _ => ?_
  rw [← row_store, forLoop_congr (fun k x _ => ?_) d]
  refine Buf.store_congr _ _ _ fun l _ => ?_
  simp only [mm256MulPs_apply, mm256Set1Ps_apply, mm256LoaduPs_apply, mm256LoaduSi256,
    mm256Cvtepi32Ps, Nat.zero_add, Nat.add_assoc]
  ring

theorem zpMask_lane (mem : Buf Byte) (p : Nat) {l : Nat} (hl : l < 8) :
    mmMaskloadEpi32 mem p zpMask l = mem (p + l) := by
  simp only [mmMaskloadEpi32]
  rw [if_pos]
  interval_cases l <;> decide

/-- Each element `(i, j)` of the window loses `zps[i * lds] * scales[i * lds] * reduce[j]`. -/
theorem removeActZeropointBias_eq (accptr : Buf F) {ldacc : Nat} (row col : Nat) (zps : Buf Byte)
    (scales : Buf F) (lds : Nat) (reduce : Buf F) (hcol : col ≤ ldacc) :
    removeActZeropointBias accptr ldacc row col zps scales lds reduce
      = (.success, accptr.window ldacc col row fun i j =>
          accptr (i * ldacc + j) - (zps (i * lds)).val * scales (i * lds) * reduce j) := by
  refine Prod.ext rfl (biasRows_eq _ _ _
    (fun i j x => x - (zps (i * lds)).val * scales (i * lds) * reduce j) hcol
    (fun i j x l _ => ?_) fun _ _ _ => rfl)
  simp only [mm256FmaddPs_apply, mm256Set1Ps_apply, mm256LoaduPs_apply]
  ring

/-- Each element `(i, j)` of the window loses `zps[j] * scales[j] * reduce[i * lds]`. -/
theorem removeWeiZeropointBias_eq (accptr : Buf F) {ldacc : Nat} (row col : Nat) (zps : Buf Byte)
    (scales : Buf F) (lds : Nat) (reduce : Buf F) (hcol : col ≤ ldacc) :
    removeWeiZeropointBias accptr ldacc row col zps scales lds reduce
      = (.success, accptr.window ldacc col row fun i j =>
          accptr (i * ldacc + j) - (int8Val (zps j) : F) * scales j * reduce (i * lds)) := by
  refine Prod.ext rfl (biasRows_eq _ _ _
    (fun i j x => x - (int8Val (zps j) : F) * scales j * reduce (i * lds)) hcol
    (fun i j x l hl => ?_) fun _ _ _ => rfl)
  simp only [mm256FmaddPs_apply, mm256Set1Ps_apply, mm256LoaduPs_apply, mm256MulPs_apply,
    mm256Cvtepi32Ps, mm256CvtepiEpi32, zpMask_lane _ _ hl]
  ring

/-- Each element `(i, j)` of the window loses the three corrections, in the epilogue's order. -/
theorem removeZeropointBias_eq (accptr : Buf F) {ldacc : Nat} (row col : Nat) (zpa zpb : Buf Byte)
    (scalea scaleb : Buf F) (lds k : Nat) (reducea reduceb : Buf F) (hcol : col ≤ ldacc) :
    removeZeropointBias accptr ldacc row col zpa zpb scalea scaleb lds k reducea reduceb
      = (.success, accptr.window ldacc col row fun i j =>
          accptr (i * ldacc + j) - (int8Val (zpb j) : F) * scaleb j * reducea (i * lds)
            - (zpa (i * lds)).val * scalea (i * lds) * reduceb j
            - (zpa (i * lds)).val * scalea (i * lds) * (int8Val (zpb j) : F) * scaleb j * k) := by
  refine Prod.ext rfl ?_
  dsimp only [removeZeropointBias]
  refine biasRows_eq _ _ _
    (fun i j x => x - (int8Val (zpb j) : F) * scaleb j * reducea (i * lds)
      - (zpa (i * lds)).val * scalea (i * lds) * reduceb j
      - (zpa (i * lds)).val * scalea (i * lds) * (int8Val (zpb j) : F) * scaleb j * k) hcol
    (fun i j x l hl => ?_) fun i j d => ?_
  · simp only [mm256FmaddPs_apply, mm256Set1Ps_apply, mm256LoaduPs_apply, mm256MulPs_apply,
      mm256Cvtepi32Ps, mm256CvtepiEpi32, zpMask_lane _ _ hl]
    ring
  · simp only [Buf.update_update_one]

end Kernels

/-! ## The exact product

A quantized GEMM problem: the codes, zero points and scales, the accumulator and the two
reductions its caller computes, and the exact product of the dequantized operands. -/

/-- The data of a quantized GEMM of depth `K`: `u8` activation codes `qa i k` with zero point
`zpa i` and scale `sa i` per row, `s8` weight codes `qb k j` with zero point `zpb j` and scale
`sb j` per column. -/
structure QuantGemm (F : Type) where
  K : Nat
  qa : Nat → Nat → Byte
  qb : Nat → Nat → Byte
  zpa : Nat → Byte
  zpb : Nat → Byte
  sa : Nat → F
  sb : Nat → F

namespace QuantGemm

variable {F : Type} [CommRing F] (g : QuantGemm F)

/-- The `int32` accumulator `Σ_k qa[i][k] * qb[k][j]`. -/
def acc (i j : Nat) : Int := ∑ k ∈ range g.K, ((g.qa i k).val : Int) * int8Val (g.qb k j)

/-- `reducea[i] = sa[i] * Σ_k (qa[i][k] - zpa[i])`. -/
def reduceA (i : Nat) : F := g.sa i * ∑ k ∈ range g.K, (((g.qa i k).val : F) - (g.zpa i).val)

/-- `reduceb[j] = sb[j] * Σ_k (qb[k][j] - zpb[j])`. -/
def reduceB (j : Nat) : F :=
  g.sb j * ∑ k ∈ range g.K, ((int8Val (g.qb k j) : F) - int8Val (g.zpb j))

/-- The product of the dequantized operands, `Σ_k sa (qa - zpa) * sb (qb - zpb)`. -/
def exact (i j : Nat) : F :=
  ∑ k ∈ range g.K, g.sa i * (((g.qa i k).val : F) - (g.zpa i).val) *
    (g.sb j * ((int8Val (g.qb k j) : F) - int8Val (g.zpb j)))

/-- The buffers the kernels read, holding the problem's values where the kernels read them:
the accumulator with stride `srcstep`, the row quantities at `i * ldsa` and `i * lds`, the
column quantities at `j`. -/
structure Buffers (M N : Nat) where
  src : Buf Int
  srcstep : Nat
  scaleA : Buf F
  ldsa : Nat
  scaleB : Buf F
  zpa : Buf Byte
  zpb : Buf Byte
  scalea : Buf F
  scaleb : Buf F
  lds : Nat
  reducea : Buf F
  reduceb : Buf F
  src_eq : ∀ i j, i < M → j < N → src (i * srcstep + j) = g.acc i j
  scaleA_eq : ∀ i, i < M → scaleA (i * ldsa) = g.sa i
  scaleB_eq : ∀ j, j < N → scaleB j = g.sb j
  zpa_eq : ∀ i, i < M → zpa (i * lds) = g.zpa i
  scalea_eq : ∀ i, i < M → scalea (i * lds) = g.sa i
  reducea_eq : ∀ i, i < M → reducea (i * lds) = g.reduceA i
  zpb_eq : ∀ j, j < N → zpb j = g.zpb j
  scaleb_eq : ∀ j, j < N → scaleb j = g.sb j
  reduceb_eq : ∀ j, j < N → reduceb j = g.reduceB j

/-- The dense layout: the accumulator with stride `N`, the row quantities with stride 1. -/
def denseBuffers (M N : Nat) : g.Buffers M N where
  src t := g.acc (t / N) (t % N)
  srcstep := N
  scaleA := g.sa
  ldsa := 1
  scaleB := g.sb
  zpa := g.zpa
  zpb := g.zpb
  scalea := g.sa
  scaleb := g.sb
  lds := 1
  reducea := g.reduceA
  reduceb := g.reduceB
  src_eq i j _ hj := by obtain ⟨hd, hm⟩ := row_col_div_mod (r := i) hj; simp only [hd, hm]
  scaleA_eq i _ := by rw [Nat.mul_one]
  scaleB_eq _ _ := rfl
  zpa_eq i _ := by rw [Nat.mul_one]
  scalea_eq i _ := by rw [Nat.mul_one]
  reducea_eq i _ := by rw [Nat.mul_one]
  zpb_eq _ _ := rfl
  scaleb_eq _ _ := rfl
  reduceb_eq _ _ := rfl

/-- The three correction terms, with the signs and order of `remove_zeropoint_bias`, turn the
scaled accumulator into the exact product. -/
theorem bias_identity (a b : Nat → F) (za zb sa sb : F) (K : Nat) :
    sa * sb * ∑ k ∈ range K, a k * b k - zb * sb * (sa * ∑ k ∈ range K, (a k - za))
        - za * sa * (sb * ∑ k ∈ range K, (b k - zb)) - za * sa * zb * sb * K
      = ∑ k ∈ range K, sa * (a k - za) * (sb * (b k - zb)) := by
  induction K with
  | zero => simp
  | succ K ih =>
    simp only [sum_range_succ, ← ih]
    push_cast
    ring

theorem exact_eq (i j : Nat) :
    g.exact i j = g.sa i * g.sb j * (g.acc i j : F) - int8Val (g.zpb j) * g.sb j * g.reduceA i
      - (g.zpa i).val * g.sa i * g.reduceB j
      - (g.zpa i).val * g.sa i * int8Val (g.zpb j) * g.sb j * g.K := by
  rw [exact, ← bias_identity, acc, reduceA, reduceB]
  push_cast
  rfl

end QuantGemm

section Exact

variable {F : Type} [CommRing F]

/-- Dequantizing the accumulator with `sa` and `sb` and then removing the zero-point bias with
depth `K` leaves the exact product at every position of the `M × N` window; so do the
activation-only kernel when every `zpb` is 0 and the weight-only kernel when every `zpa` is 0. -/
theorem removeZeropointBias_exact (g : QuantGemm F) {M N : Nat} (b : g.Buffers M N) (dst : Buf F)
    {ld : Nat} (hld : N ≤ ld) :
    let acc := (dequantS32Fp32 id b.src b.srcstep dst ld M N b.scaleA b.ldsa b.scaleB).2
    (∀ i j, i < M → j < N →
      (removeZeropointBias acc ld M N b.zpa b.zpb b.scalea b.scaleb b.lds g.K b.reducea
        b.reduceb).2 (i * ld + j) = g.exact i j) ∧
    ((∀ j, j < N → g.zpb j = 0) → ∀ i j, i < M → j < N →
      (removeActZeropointBias acc ld M N b.zpa b.scalea b.lds b.reduceb).2 (i * ld + j)
        = g.exact i j) ∧
    ((∀ i, i < M → g.zpa i = 0) → ∀ i j, i < M → j < N →
      (removeWeiZeropointBias acc ld M N b.zpb b.scaleb b.lds b.reducea).2 (i * ld + j)
        = g.exact i j) := by
  intro acc
  -- the dequantized accumulator, position by position
  have hacc : ∀ i j, i < M → j < N → acc (i * ld + j) = g.sa i * g.sb j * (g.acc i j : F) :=
    fun i j hi hj => by
      simp only [acc, dequantS32Fp32_eq _ _ _ _ _ _ _ _ _ hld, Buf.window_apply _ hld _ hi hj, id,
        b.scaleA_eq i hi, b.scaleB_eq j hj, b.src_eq i j hi hj]
  refine ⟨fun i j hi hj => ?_, fun h0 i j hi hj => ?_, fun h0 i j hi hj => ?_⟩
  · simp only [removeZeropointBias_eq _ _ _ _ _ _ _ _ _ _ _ hld]
    rw [Buf.window_apply _ hld _ hi hj, hacc i j hi hj,
      b.zpb_eq j hj, b.scaleb_eq j hj, b.reducea_eq i hi, b.zpa_eq i hi, b.scalea_eq i hi,
      b.reduceb_eq j hj, g.exact_eq]
  · simp only [removeActZeropointBias_eq _ _ _ _ _ _ _ hld]
    rw [Buf.window_apply _ hld _ hi hj, hacc i j hi hj,
      b.zpa_eq i hi, b.scalea_eq i hi, b.reduceb_eq j hj, g.exact_eq, h0 j hj]
    simp [int8Val]
  · simp only [removeWeiZeropointBias_eq _ _ _ _ _ _ _ hld]
    rw [Buf.window_apply _ hld _ hi hj, hacc i j hi hj,
      b.zpb_eq j hj, b.scaleb_eq j hj, b.reducea_eq i hi, g.exact_eq, h0 i hi]
    simp

theorem removeZeropointBias_exact_dense :
    let g : QuantGemm ℚ := ⟨2, fun i k => byteOf (i + 2 * k + 1), fun k j => byteOf (250 + k + j),
      fun i => byteOf (3 + i), fun j => byteOf (255 - j), fun i => i + 1, fun j => 1 / (j + 2)⟩
    let b := g.denseBuffers 2 3
    let acc := (dequantS32Fp32 id b.src b.srcstep (fun _ => 0) 3 2 3 b.scaleA b.ldsa b.scaleB).2
    (∀ i j, i < 2 → j < 3 →
      (removeZeropointBias acc 3 2 3 b.zpa b.zpb b.scalea b.scaleb b.lds g.K b.reducea
        b.reduceb).2 (i * 3 + j) = g.exact i j) ∧
    ((∀ j, j < 3 → g.zpb j = 0) → ∀ i j, i < 2 → j < 3 →
      (removeActZeropointBias acc 3 2 3 b.zpa b.scalea b.lds b.reduceb).2 (i * 3 + j)
        = g.exact i j) ∧
    ((∀ i, i < 2 → g.zpa i = 0) → ∀ i j, i < 2 → j < 3 →
      (removeWeiZeropointBias acc 3 2 3 b.zpb b.scaleb b.lds b.reducea).2 (i * 3 + j)
        = g.exact i j) :=
  removeZeropointBias_exact _ _ _ le_rfl

end Exact

end NeuralSpeed
