import NeuralSpeed.Reduce

/-!
# The column-block quantizer

`quantize_fp_u8_colblock<SRC_T>` quantizes each row of a float (or bf16) matrix to `uint8_t`
codes in blocks of `blocksize` columns. For each block it takes the maximum and minimum of the
block together with 0, sets `scale = (max - min) / 255` and the zero point
`zp = cast((0 - min) / scale)`, stores both at `j / blocksize + i * ld_scale`, and stores each
element's code `clamp(round(x / scale) + zp, 0, 255)`. When `blkreduce` is given it also stores
`scale * Σ round(x / scale)`, the sum of the rounded values before the zero point and the clamp.

A full block runs an 8-wide body up to `padto_le(blocksize, 8)`, which rounds ties to even
(`_mm256_cvtps_epi32`), and scalar lanes after it, which round ties away from zero (`roundf`).
The final partial block, when `blocksize` does not divide `col`, is scalar and rounds with
`utils::cast`. The source repeats the full block's quantizing body for the two values of
`blkreduce != nullptr`, differing only in the sum; the model keeps one body with a `withReduce`
test.

The second half of the module says what the kernel writes. `quantizeFpU8Colblock_eq`: with
`col ≤ ld_dst` and `updiv(col, blocksize) ≤ ld_scale`, the kernel fills four row-major windows
and touches nothing else, the codes with `code`, the scales and zero points with
`blockScaleZp` and the block sums with `blockReduce`, each a function of the source alone. It is
assembled from one lemma per loop body, one per block (`fullBlock_eq`, `partialBlock_eq`) and one
per row (`rowBody_eq`).
-/

namespace NeuralSpeed

open Finset

/-- The four output buffers: codes, scales, zero points and block sums. -/
structure QuantOut where
  dst : Buf Byte
  scales : Buf ℚ
  zps : Buf Byte
  blkreduce : Buf ℚ

namespace QuantOut

/-- The four buffers after a run of `n` codes at `p` and a run of `m` block values at `q`; the
block sums are written only with `withReduce`. -/
def stores (st : QuantOut) (withReduce : Bool) (p n : Nat) (codes : Nat → Byte) (q m : Nat)
    (scales : Nat → ℚ) (zps : Nat → Byte) (sums : Nat → ℚ) : QuantOut :=
  { dst := st.dst.store p n codes
    scales := st.scales.store q m scales
    zps := st.zps.store q m zps
    blkreduce := if withReduce then st.blkreduce.store q m sums else st.blkreduce }

/-- The four buffers once rows `< k` of the code window (stride `ldDst`, `col` columns) and of
the block windows (stride `ldScale`, `nb` blocks) hold their values. -/
def window (out : QuantOut) (withReduce : Bool) (ldDst col ldScale nb k : Nat)
    (codes : Nat → Nat → Byte) (scales : Nat → Nat → ℚ) (zps : Nat → Nat → Byte)
    (sums : Nat → Nat → ℚ) : QuantOut :=
  { dst := out.dst.window ldDst col k codes
    scales := out.scales.window ldScale nb k scales
    zps := out.zps.window ldScale nb k zps
    blkreduce := if withReduce then out.blkreduce.window ldScale nb k sums else out.blkreduce }

variable (st : QuantOut) (w : Bool)

theorem stores_zero (p q : Nat) (c : Nat → Byte) (s : Nat → ℚ) (z : Nat → Byte) (r : Nat → ℚ) :
    st.stores w p 0 c q 0 s z r = st := by
  cases w <;> simp [stores]

/-- Two adjacent runs of the same value functions are one run. -/
theorem stores_stores_append (p n n' : Nat) (c : Nat → Byte) (q m m' : Nat) (s : Nat → ℚ)
    (z : Nat → Byte) (r : Nat → ℚ) :
    (st.stores w p n c q m s z r).stores w (p + n) n' (fun k => c (n + k)) (q + m) m'
        (fun k => s (m + k)) (fun k => z (m + k)) (fun k => r (m + k))
      = st.stores w p (n + n') c q (m + m') s z r := by
  cases w <;> simp [stores, Buf.store_store_append]

@[simp] theorem window_zero (ldDst col ldScale nb : Nat) (c : Nat → Nat → Byte)
    (s : Nat → Nat → ℚ) (z : Nat → Nat → Byte) (r : Nat → Nat → ℚ) :
    st.window w ldDst col ldScale nb 0 c s z r = st := by
  cases w <;> simp [window]

/-- Writing row `k` of every window extends them by one row. -/
theorem window_stores_row {ldDst col ldScale nb : Nat} (hcol : col ≤ ldDst) (hnb : nb ≤ ldScale)
    (k : Nat) (c : Nat → Nat → Byte) (s : Nat → Nat → ℚ) (z : Nat → Nat → Byte)
    (r : Nat → Nat → ℚ) :
    (st.window w ldDst col ldScale nb k c s z r).stores w (k * ldDst) col (c k) (k * ldScale) nb
        (s k) (z k) (r k)
      = st.window w ldDst col ldScale nb (k + 1) c s z r := by
  cases w <;> simp [window, stores, Buf.window_store_row _ hcol, Buf.window_store_row _ hnb]

end QuantOut

/-- The arguments of `quantize_fp_u8_colblock` other than `row`, `col` and the outputs. `toF` is
`(float)` of a `SRC_T`, in the vector body `ymm_cvt_bf16_fp32` for `bf16`; `withReduce` is
`blkreduce != nullptr`. -/
structure QuantArgs (S : Type) where
  toF : S → ℚ
  src : Buf S
  ldSrc : Nat
  ldDst : Nat
  ldScale : Nat
  blocksize : Nat
  withReduce : Bool

/-- `scale = (maxval - minval) / 255` and `zp = utils::cast<float, uint8_t>((0 - minval) / scale)`. -/
def scaleZp (m : ℚ × ℚ) : ℚ × Byte :=
  let scale := (m.1 - m.2) / 255
  (scale, castFloatU8 ((0 - m.2) / scale))

namespace QuantArgs

variable {S : Type} (a : QuantArgs S)

/-! ## The model -/

/-- Element `k` of row `i`, `srcptr[k + i * ld_src]` as a float. -/
def x (i k : Nat) : ℚ := a.toF (a.src (k + i * a.ldSrc))

/-- `vblocksize = padto_le(blocksize, 8)`. -/
def vblocksize : Nat := padtoLe a.blocksize 8

/-- One iteration of the 8-wide maximum and minimum loop of the full block at column `j`. -/
def maxMinVec (i j ij : Nat) (v : M256 ℚ × M256 ℚ) : M256 ℚ × M256 ℚ :=
  let vsrc : M256 ℚ := fun l => a.toF (mm256LoaduPs a.src ((j + ij) + i * a.ldSrc) l)
  (mm256MaxPs v.1 vsrc, mm256MinPs v.2 vsrc)

/-- One iteration of the scalar maximum and minimum loop after it. -/
def maxMinTail (i j ij : Nat) (m : ℚ × ℚ) : ℚ × ℚ :=
  let srcval := a.toF (a.src ((j + ij) + i * a.ldSrc))
  (max m.1 srcval, min m.2 srcval)

/-- The maximum and minimum of the full block of row `i` at column `j`, with 0: lane-wise over the
8-wide body, reduced, then over the scalar lanes. The vector loop leaves `ij` at `vblocksize`. -/
def fullMaxMin (i j : Nat) : ℚ × ℚ :=
  let v := forLoop 0 8 (tripCount 0 a.vblocksize 8) (a.maxMinVec i j)
    (mm256Set1Ps 0, mm256Set1Ps 0)
  let maxval := avx2ReducePs .max v.1
  let minval := avx2ReducePs .min v.2
  if a.vblocksize < a.blocksize then
    forLoop a.vblocksize 1 (tripCount a.vblocksize a.blocksize 1) (a.maxMinTail i j) (maxval, minval)
  else (maxval, minval)

/-- One iteration of the 8-wide quantizing loop: codes and, with `withReduce`, the sum. -/
def quantVec (i j : Nat) (rscale : ℚ) (zp : Byte) (ij : Nat) (q : Buf Byte × Int) :
    Buf Byte × Int :=
  let vrscale := mm256Set1Ps rscale
  let vdzp := mm256Set1Epi32 (zp.val : Int)
  let vff := mm256Set1Epi32 (255 : Int)
  let v0 := mm256Set1Epi32 (0 : Int)
  let vsrc : M256 ℚ := fun l => a.toF (mm256LoaduPs a.src ((j + ij) + i * a.ldSrc) l)
  let vsrc := mm256MulPs vsrc vrscale
  let vdsrc := mm256CvtpsEpi32 vsrc
  let sum := if a.withReduce then q.2 + avx2ReducePs .add vdsrc else q.2
  let vdsrc := mm256AddEpi32 vdsrc vdzp
  let vdsrc := mm256MinPs vdsrc vff
  let vdsrc := mm256MaxPs vdsrc v0
  let vbsrc := avx2CvtepiEpu8 vdsrc
  (mmStorelEpi64 q.1 ((j + ij) + i * a.ldDst) vbsrc, sum)

/-- One iteration of the scalar quantizing loop after it. -/
def quantTail (i j : Nat) (rscale : ℚ) (zp : Byte) (ij : Nat) (q : Buf Byte × Int) :
    Buf Byte × Int :=
  let srcval := a.toF (a.src ((j + ij) + i * a.ldSrc))
  let srcval := srcval * rscale
  let srcint := roundf srcval
  let sum := q.2 + srcint
  let srcint := srcint + zp.val
  let srcint := min srcint 0xff
  let srcint := max srcint 0
  (q.1.store ((j + ij) + i * a.ldDst) 1 fun _ => byteOf srcint.toNat, sum)

/-- The codes and the sum of the full block of row `i` at column `j`. -/
def fullQuant (i j : Nat) (scale : ℚ) (zp : Byte) (dst : Buf Byte) : Buf Byte × Int :=
  let rscale := 1 / scale
  let q := forLoop 0 8 (tripCount 0 a.vblocksize 8) (a.quantVec i j rscale zp) (dst, 0)
  forLoop a.vblocksize 1 (tripCount a.vblocksize a.blocksize 1) (a.quantTail i j rscale zp) q

/-- The end of a block of row `i` at column `j`, full or partial: `scales` and `zps` at
`j / blocksize + i * ld_scale`, the codes `q.1`, and with `withReduce` `sum * scale`. -/
def storeBlock (i j : Nat) (sz : ℚ × Byte) (q : Buf Byte × Int) (st : QuantOut) : QuantOut :=
  let idx := j / a.blocksize + i * a.ldScale
  { dst := q.1
    scales := st.scales.store idx 1 fun _ => sz.1
    zps := st.zps.store idx 1 fun _ => sz.2
    blkreduce :=
      if a.withReduce then st.blkreduce.store idx 1 (fun _ => (q.2 : ℚ) * sz.1) else st.blkreduce }

/-- One iteration of the loop over the full blocks of row `i`, at column `j`. -/
def fullBlock (i j : Nat) (st : QuantOut) : QuantOut :=
  let sz := scaleZp (a.fullMaxMin i j)
  a.storeBlock i j sz (a.fullQuant i j sz.1 sz.2 st.dst) st

/-- One iteration of the maximum and minimum loop of the partial block. -/
def partialMaxMinStep (i ij : Nat) (m : ℚ × ℚ) : ℚ × ℚ :=
  (max (a.toF (a.src (ij + i * a.ldSrc))) m.1, min (a.toF (a.src (ij + i * a.ldSrc))) m.2)

/-- The maximum and minimum of the partial block of row `i` from column `j` to `col`, with 0. -/
def partialMaxMin (col i j : Nat) : ℚ × ℚ :=
  forLoop j 1 (tripCount j col 1) (a.partialMaxMinStep i) (0, 0)

/-- One iteration of the quantizing loop of the partial block. -/
def partialQuantStep (i : Nat) (rscale : ℚ) (zp : Byte) (ij : Nat) (q : Buf Byte × Int) :
    Buf Byte × Int :=
  let srcint := castFloatInt (a.toF (a.src (ij + i * a.ldSrc)) * rscale)
  let sum := q.2 + srcint
  let srcint := srcint + zp.val
  let srcint := if srcint ≤ 255 then srcint else 255
  let srcint := if srcint ≥ 0 then srcint else 0
  (q.1.store (ij + i * a.ldDst) 1 fun _ => castIntU8 srcint, sum)

/-- The codes and the sum of the partial block. -/
def partialQuant (col i j : Nat) (scale : ℚ) (zp : Byte) (dst : Buf Byte) : Buf Byte × Int :=
  forLoop j 1 (tripCount j col 1) (a.partialQuantStep i (1 / scale) zp) (dst, 0)

/-- The `if (j < col)` block of row `i`, from column `j`. -/
def partialBlock (col i j : Nat) (st : QuantOut) : QuantOut :=
  let sz := scaleZp (a.partialMaxMin col i j)
  a.storeBlock i j sz (a.partialQuant col i j sz.1 sz.2 st.dst) st

/-- Row `i`: the full blocks up to `colblk = padto_le(col, blocksize)`, then the partial one. -/
def rowBody (col i : Nat) (st : QuantOut) : QuantOut :=
  let colblk := padtoLe col a.blocksize
  let st := forLoop 0 a.blocksize (tripCount 0 colblk a.blocksize) (a.fullBlock i) st
  if colblk < col then a.partialBlock col i colblk st else st

end QuantArgs

/-- `quantize_fp_u8_colblock<SRC_T>`. -/
def quantizeFpU8Colblock {S : Type} (row col : Nat) (a : QuantArgs S) (out : QuantOut) :
    BtlaCode × QuantOut :=
  (.success, forLoop 0 1 row (a.rowBody col) out)

namespace QuantArgs

variable {S : Type} (a : QuantArgs S)

/-! ## What the kernel writes -/

/-- The rounded value of element `k` of the full block of row `i` at column `j` with scale
`scale`: ties to even in the vector body, `roundf` after it. -/
def fullRaw (i j : Nat) (scale : ℚ) (k : Nat) : Int :=
  if k < a.vblocksize then roundHalfEven (a.x i (j + k) * (1 / scale))
  else roundf (a.x i (j + k) * (1 / scale))

/-- The rounded value of column `c` of row `i` in the partial block, `utils::cast<float, int>`. -/
def partialRaw (i : Nat) (scale : ℚ) (c : Nat) : Int := castFloatInt (a.x i c * (1 / scale))

/-- The maximum and minimum of block `b` of row `i`: full when it ends by `col`. -/
def blockMaxMin (col i b : Nat) : ℚ × ℚ :=
  if b < col / a.blocksize then a.fullMaxMin i (b * a.blocksize)
  else a.partialMaxMin col i (b * a.blocksize)

/-- The scale and the zero point of block `b` of row `i`. -/
def blockScaleZp (col i b : Nat) : ℚ × Byte := scaleZp (a.blockMaxMin col i b)

/-- The rounded value of column `c` of row `i`, before the zero point and the clamp. -/
def raw (col i c : Nat) : Int :=
  if c / a.blocksize < col / a.blocksize then
    a.fullRaw i (c / a.blocksize * a.blocksize) (a.blockScaleZp col i (c / a.blocksize)).1
      (c % a.blocksize)
  else a.partialRaw i (a.blockScaleZp col i (c / a.blocksize)).1 c

/-- The code of column `c` of row `i`: the rounded value plus the zero point, saturated. -/
def code (col i c : Nat) : Byte :=
  satU8 (a.raw col i c + (a.blockScaleZp col i (c / a.blocksize)).2.val)

/-- The number of columns of block `b`. -/
def blockLen (col b : Nat) : Nat := min a.blocksize (col - b * a.blocksize)

/-- The block sum `sum * scale` of block `b` of row `i`. -/
def blockReduce (col i b : Nat) : ℚ :=
  ((∑ k ∈ range (a.blockLen col b), a.raw col i (b * a.blocksize + k) : Int) : ℚ)
    * (a.blockScaleZp col i b).1

theorem toF_loadu (i j l : Nat) :
    a.toF (mm256LoaduPs a.src (j + i * a.ldSrc) l) = a.x i (j + l) := by
  rw [mm256LoaduPs_apply, x, Nat.add_right_comm]

theorem quantVec_fst (i j : Nat) (rscale : ℚ) (zp : Byte) (ij : Nat) (q : Buf Byte × Int) :
    (a.quantVec i j rscale zp ij q).1 = q.1.store (i * a.ldDst + j + ij) 8
      fun l => satU8 (roundHalfEven (a.x i (j + (ij + l)) * rscale) + zp.val) := by
  simp only [quantVec, mmStorelEpi64]
  rw [Nat.add_comm _ (i * a.ldDst), ← Nat.add_assoc]
  refine Buf.store_congr _ _ _ fun l hl => ?_
  simp only [avx2CvtepiEpu8_clamp, Nat.mod_eq_of_lt hl, mm256AddEpi32, mm256Set1Epi32,
    mm256CvtpsEpi32, mm256MulPs, mm256Set1Ps, toF_loadu]
  rw [Nat.add_assoc]

theorem quantVec_snd {i j : Nat} (hw : a.withReduce = true) (rscale : ℚ) (zp : Byte) (ij : Nat)
    (q : Buf Byte × Int) :
    (a.quantVec i j rscale zp ij q).2
      = q.2 + ∑ l ∈ range 8, roundHalfEven (a.x i (j + (ij + l)) * rscale) := by
  simp only [quantVec, hw, if_true, avx2ReducePs_add, mm256CvtpsEpi32, mm256MulPs, mm256Set1Ps,
    toF_loadu]
  simp only [Nat.add_assoc]

theorem quantTail_fst (i j : Nat) (rscale : ℚ) (zp : Byte) (ij : Nat) (q : Buf Byte × Int) :
    (a.quantTail i j rscale zp ij q).1 = q.1.store (i * a.ldDst + j + ij) 1
      fun _ => satU8 (roundf (a.x i (j + ij) * rscale) + zp.val) := by
  simp only [quantTail, x, byteOf_clamp]
  rw [Nat.add_comm _ (i * a.ldDst), ← Nat.add_assoc]

theorem quantTail_snd (i j : Nat) (rscale : ℚ) (zp : Byte) (ij : Nat) (q : Buf Byte × Int) :
    (a.quantTail i j rscale zp ij q).2 = q.2 + roundf (a.x i (j + ij) * rscale) := rfl

/-- The 8-wide trip count covers `vblocksize`, a multiple of 8 at most `blocksize`. -/
theorem vblocksize_trip : tripCount 0 a.vblocksize 8 * 8 = a.vblocksize := by
  rw [vblocksize, tripCount_padtoLe _ _ (by norm_num)]; rfl

theorem vblocksize_le : a.vblocksize ≤ a.blocksize := padtoLe_le _ _

/-- Lane `l` of the `k`-th 8-wide iteration is an element of the vector body. -/
theorem vec_lane_lt {k l : Nat} (hk : k < tripCount 0 a.vblocksize 8) (hl : l < 8) :
    k * 8 + l < a.vblocksize := by
  have := vblocksize_trip a
  have := Nat.mul_le_mul_right 8 (Nat.succ_le_of_lt hk)
  rw [Nat.succ_mul] at this
  omega

/-- The full block stores `blocksize` codes at `j + i * ld_dst`, the vector lanes included. -/
theorem fullQuant_fst (i j : Nat) (scale : ℚ) (zp : Byte) (d : Buf Byte) :
    (a.fullQuant i j scale zp d).1
      = d.store (i * a.ldDst + j) a.blocksize fun k => satU8 (a.fullRaw i j scale k + zp.val) := by
  simp only [fullQuant]
  rw [forLoop_map Prod.fst (g := fun ij d => d.store (i * a.ldDst + j + ij) 1
        fun _ => satU8 (a.fullRaw i j scale ij + zp.val)),
    forLoop_map Prod.fst (g := fun ij d => d.store (i * a.ldDst + j + ij) 8
        fun l => satU8 (a.fullRaw i j scale (ij + l) + zp.val))]
  · exact row_store_at d _ _ 8 _ (by norm_num) (Nat.mul_mod_left _ _) (vblocksize_le a) _
  · intro k y hk
    rw [quantVec_fst]
    exact Buf.store_congr _ _ _ fun l hl => by
      rw [fullRaw, if_pos (by have := a.vec_lane_lt hk hl; omega)]
  · intro k y hk
    rw [quantTail_fst, fullRaw, if_neg (by omega)]

/-- With `withReduce`, the full block's sum is the sum of its rounded values. -/
theorem fullQuant_snd (hw : a.withReduce = true) (i j : Nat) (scale : ℚ) (zp : Byte)
    (d : Buf Byte) :
    (a.fullQuant i j scale zp d).2 = ∑ k ∈ range a.blocksize, a.fullRaw i j scale k := by
  have hvec := vblocksize_trip a
  simp only [fullQuant]
  refine (forLoop_sum (f := Prod.snd) (v := fun t => a.fullRaw i j scale (a.vblocksize + t))
    (c := ∑ t ∈ range a.vblocksize, a.fullRaw i j scale t) ?_ fun k y hk => ?_).trans ?_
  · refine (forLoop_sum (f := Prod.snd) (v := a.fullRaw i j scale) rfl fun k y hk => ?_).trans ?_
    · rw [quantVec_snd _ hw]
      refine congrArg _ (sum_congr rfl fun l hl => ?_)
      rw [fullRaw, if_pos (a.vec_lane_lt hk (mem_range.mp hl)), Nat.zero_add]
    · rw [zero_add, hvec]
  · simp only [quantTail_snd, sum_range_one, Nat.add_zero, Nat.mul_one]
    rw [fullRaw, if_neg (by omega)]
  · rw [tripCount_one, Nat.mul_one, ← sum_range_add, Nat.add_sub_cancel' (vblocksize_le a)]

theorem castIntU8_clamp (v : Int) :
    castIntU8 (if (if v ≤ 255 then v else 255) ≥ 0 then (if v ≤ 255 then v else 255) else 0)
      = satU8 v := by
  apply Fin.ext
  simp only [castIntU8, satU8, byteOf_val]
  split_ifs <;> omega

/-- The partial block stores `col - j` codes at `j + i * ld_dst`. -/
theorem partialQuant_fst (col i j : Nat) (scale : ℚ) (zp : Byte) (d : Buf Byte) :
    (a.partialQuant col i j scale zp d).1
      = d.store (i * a.ldDst + j) (col - j) fun k => satU8 (a.partialRaw i scale (j + k) + zp.val) := by
  rw [partialQuant, forLoop_map Prod.fst (g := fun ij d => d.store (i * a.ldDst + ij) 1
      fun l => satU8 (a.partialRaw i scale (ij + l) + zp.val))]
  · refine (forLoop_store d (i * a.ldDst) j 1 _ fun t => satU8 (a.partialRaw i scale t + zp.val)).trans ?_
    rw [tripCount_one, Nat.mul_one]
  · intro k y hk
    simp only [partialQuantStep, castIntU8_clamp, partialRaw, x, Nat.add_zero]
    rw [Nat.add_comm _ (i * a.ldDst)]
    exact Buf.store_congr _ _ _ fun l hl => by rw [Nat.lt_one_iff.mp hl, Nat.add_zero]

theorem partialQuant_snd (col i j : Nat) (scale : ℚ) (zp : Byte) (d : Buf Byte) :
    (a.partialQuant col i j scale zp d).2 = ∑ k ∈ range (col - j), a.partialRaw i scale (j + k) := by
  refine (forLoop_sum (f := Prod.snd) (c := 0) (v := fun t => a.partialRaw i scale (j + t)) rfl
    fun k y hk => ?_).trans ?_
  · simp only [partialQuantStep, partialRaw, x, sum_range_one, Nat.add_zero, Nat.mul_one]
  · rw [zero_add, tripCount_one, Nat.mul_one]

/-- The four buffers after the first `n` codes and the first `m` block values of row `i`. -/
def rowStores (col i : Nat) (st : QuantOut) (n m : Nat) : QuantOut :=
  st.stores a.withReduce (i * a.ldDst) n (a.code col i) (i * a.ldScale) m
    (fun b => (a.blockScaleZp col i b).1) (fun b => (a.blockScaleZp col i b).2) (a.blockReduce col i)

theorem rowStores_append (col i : Nat) (st : QuantOut) (n m n' m' : Nat) :
    (a.rowStores col i st n m).stores a.withReduce (i * a.ldDst + n) n'
        (fun k => a.code col i (n + k)) (i * a.ldScale + m) m'
        (fun k => (a.blockScaleZp col i (m + k)).1) (fun k => (a.blockScaleZp col i (m + k)).2)
        (fun k => a.blockReduce col i (m + k))
      = a.rowStores col i st (n + n') (m + m') :=
  QuantOut.stores_stores_append _ _ _ _ _ _ _ _ _ _ _ _

theorem blockLen_full {col m : Nat} (hbs : 0 < a.blocksize) (hm : m < col / a.blocksize) :
    a.blockLen col m = a.blocksize := by
  have := (Nat.le_div_iff_mul_le hbs).1 hm
  rw [Nat.succ_mul] at this
  exact Nat.min_eq_left (by omega)

theorem blockLen_last {col m : Nat} (hbs : 0 < a.blocksize) (hm : col / a.blocksize ≤ m) :
    a.blockLen col m = col - m * a.blocksize := by
  have := Nat.div_add_mod' col a.blocksize
  have := Nat.mod_lt col hbs
  have := Nat.mul_le_mul_right a.blocksize hm
  exact Nat.min_eq_right (by omega)

theorem raw_full {col i m k : Nat} (hm : m < col / a.blocksize) (hk : k < a.blocksize) :
    a.raw col i (m * a.blocksize + k)
      = a.fullRaw i (m * a.blocksize) (a.blockScaleZp col i m).1 k := by
  obtain ⟨hd, hmod⟩ := row_col_div_mod (r := m) hk
  rw [raw, hd, hmod, if_pos hm]

/-- The partial block starts at `padto_le(col, blocksize)` and is shorter than a block. -/
theorem partial_lt {col k : Nat} (hbs : 0 < a.blocksize)
    (hk : col / a.blocksize * a.blocksize + k < col) : k < a.blocksize := by
  have := Nat.div_add_mod' col a.blocksize
  have := Nat.mod_lt col hbs
  omega

theorem raw_last {col i k : Nat} (hbs : 0 < a.blocksize)
    (hk : col / a.blocksize * a.blocksize + k < col) :
    a.raw col i (col / a.blocksize * a.blocksize + k)
      = a.partialRaw i (a.blockScaleZp col i (col / a.blocksize)).1
        (col / a.blocksize * a.blocksize + k) := by
  rw [raw, (row_col_div_mod (a.partial_lt hbs hk)).1, if_neg (Nat.lt_irrefl _)]

/-- The end of block `m` writes its codes, and its block values at `m + i * ld_scale`. -/
theorem storeBlock_eq {col i m n : Nat} (hbs : 0 < a.blocksize) {q : Buf Byte × Int}
    {st : QuantOut} {codes : Nat → Byte}
    (hq : q.1 = st.dst.store (i * a.ldDst + m * a.blocksize) n codes)
    (hsum : a.withReduce = true → (q.2 : ℚ) * (a.blockScaleZp col i m).1 = a.blockReduce col i m) :
    a.storeBlock i (m * a.blocksize) (a.blockScaleZp col i m) q st
      = st.stores a.withReduce (i * a.ldDst + m * a.blocksize) n codes (i * a.ldScale + m) 1
        (fun k => (a.blockScaleZp col i (m + k)).1) (fun k => (a.blockScaleZp col i (m + k)).2)
        (fun k => a.blockReduce col i (m + k)) := by
  have hidx : m * a.blocksize / a.blocksize + i * a.ldScale = i * a.ldScale + m := by
    rw [Nat.mul_div_cancel _ hbs, Nat.add_comm]
  have h1 : ∀ {β : Type} (b : Buf β) (v : β) (f : Nat → β), v = f m →
      b.store (i * a.ldScale + m) 1 (fun _ => v) = b.store (i * a.ldScale + m) 1 fun k => f (m + k) :=
    fun b v f hv => Buf.store_congr _ _ _ fun k hk => by rw [Nat.lt_one_iff.mp hk, Nat.add_zero, hv]
  simp only [storeBlock, QuantOut.stores, hidx, hq]
  congr 1
  · exact h1 _ _ (fun b => (a.blockScaleZp col i b).1) rfl
  · exact h1 _ _ (fun b => (a.blockScaleZp col i b).2) rfl
  · cases hw : a.withReduce
    · exact (if_neg Bool.false_ne_true).trans (if_neg Bool.false_ne_true).symm
    · exact (if_pos rfl).trans ((h1 _ _ (a.blockReduce col i) (hsum hw)).trans (if_pos rfl).symm)

/-- A full block writes `blocksize` codes and its block values. -/
theorem fullBlock_eq {col i m : Nat} (hbs : 0 < a.blocksize) (hm : m < col / a.blocksize)
    (st : QuantOut) :
    a.fullBlock i (m * a.blocksize) st
      = st.stores a.withReduce (i * a.ldDst + m * a.blocksize) a.blocksize
        (fun k => a.code col i (m * a.blocksize + k)) (i * a.ldScale + m) 1
        (fun k => (a.blockScaleZp col i (m + k)).1) (fun k => (a.blockScaleZp col i (m + k)).2)
        (fun k => a.blockReduce col i (m + k)) := by
  have hsz : scaleZp (a.fullMaxMin i (m * a.blocksize)) = a.blockScaleZp col i m := by
    rw [blockScaleZp, blockMaxMin, if_pos hm]
  simp only [fullBlock, hsz]
  refine a.storeBlock_eq hbs ?_ fun hw => ?_
  · rw [fullQuant_fst]
    refine Buf.store_congr _ _ _ fun k hk => ?_
    rw [code, raw_full a hm hk, (row_col_div_mod hk).1]
  · rw [fullQuant_snd _ hw, blockReduce, a.blockLen_full hbs hm]
    exact congrArg (fun t : Int => (t : ℚ) * _) (sum_congr rfl fun k hk =>
      (raw_full a hm (mem_range.mp hk)).symm)

/-- The partial block writes the `col - padto_le(col, blocksize)` last codes and its block
values. -/
theorem partialBlock_eq {col i : Nat} (hbs : 0 < a.blocksize)
    (hc : col / a.blocksize * a.blocksize < col) (st : QuantOut) :
    a.partialBlock col i (col / a.blocksize * a.blocksize) st
      = st.stores a.withReduce (i * a.ldDst + col / a.blocksize * a.blocksize)
        (col - col / a.blocksize * a.blocksize)
        (fun k => a.code col i (col / a.blocksize * a.blocksize + k))
        (i * a.ldScale + col / a.blocksize) 1
        (fun k => (a.blockScaleZp col i (col / a.blocksize + k)).1)
        (fun k => (a.blockScaleZp col i (col / a.blocksize + k)).2)
        (fun k => a.blockReduce col i (col / a.blocksize + k)) := by
  have hsz : scaleZp (a.partialMaxMin col i (col / a.blocksize * a.blocksize))
      = a.blockScaleZp col i (col / a.blocksize) := by
    rw [blockScaleZp, blockMaxMin, if_neg (Nat.lt_irrefl _)]
  simp only [partialBlock, hsz]
  refine a.storeBlock_eq hbs ?_ fun _ => ?_
  · rw [partialQuant_fst]
    refine Buf.store_congr _ _ _ fun k hk => ?_
    have hk' : col / a.blocksize * a.blocksize + k < col := by omega
    rw [code, raw_last a hbs hk', (row_col_div_mod (a.partial_lt hbs hk')).1]
  · rw [partialQuant_snd, blockReduce, a.blockLen_last hbs le_rfl]
    exact congrArg (fun t : Int => (t : ℚ) * _) (sum_congr rfl fun k hk =>
      (raw_last a hbs (by simp only [mem_range] at hk; omega)).symm)

/-- Row `i` writes its `col` codes and its `updiv(col, blocksize)` block values. -/
theorem rowBody_eq (hbs : 0 < a.blocksize) (col i : Nat) (st : QuantOut) :
    a.rowBody col i st = a.rowStores col i st col (updiv col a.blocksize) := by
  have hfull : forLoop 0 a.blocksize (col / a.blocksize) (a.fullBlock i) st
      = a.rowStores col i st (col / a.blocksize * a.blocksize) (col / a.blocksize) := by
    have h := forLoop_progress (f := id) (p := fun c => a.rowStores col i st c (c / a.blocksize))
      (a := 0) (s := a.blocksize) (n := col / a.blocksize) (b := a.fullBlock i) (x := st)
      (by simp [rowStores, QuantOut.stores_zero]) fun k y hk hy => by
        simp only [id, Nat.zero_add, Nat.mul_div_cancel _ hbs] at hy ⊢
        rw [hy, fullBlock_eq a hbs hk, rowStores_append, ← Nat.succ_mul, Nat.mul_div_cancel _ hbs]
    simpa [Nat.mul_div_cancel _ hbs] using h
  have hdm := Nat.div_add_mod' col a.blocksize
  simp only [rowBody]
  rw [tripCount_padtoLe _ _ hbs, hfull]
  simp only [padtoLe]
  split_ifs with hc
  · rw [partialBlock_eq a hbs hc, rowStores_append, Nat.add_sub_cancel' (Nat.le_of_lt hc),
      updiv_of_mod_pos hbs (by omega)]
  · rw [updiv_of_mod_eq_zero (by omega), show col / a.blocksize * a.blocksize = col by omega]

end QuantArgs

/-- With rows of codes and of block values that do not overlap, the kernel writes row `i < row`
of the code window with `code` and of the block windows with the scales, zero points and (with
`blkreduce`) block sums of `blockScaleZp` and `blockReduce`, and nothing else. -/
theorem quantizeFpU8Colblock_eq {S : Type} (row col : Nat) (a : QuantArgs S) (out : QuantOut)
    (hbs : 0 < a.blocksize) (hdst : col ≤ a.ldDst) (hscale : updiv col a.blocksize ≤ a.ldScale) :
    quantizeFpU8Colblock row col a out
      = (.success, out.window a.withReduce a.ldDst col a.ldScale (updiv col a.blocksize) row
          (a.code col) (fun i b => (a.blockScaleZp col i b).1) (fun i b => (a.blockScaleZp col i b).2)
          (a.blockReduce col)) := by
  refine Prod.ext rfl ?_
  have h := forLoop_progress (f := id) (p := fun k => out.window a.withReduce a.ldDst col a.ldScale
      (updiv col a.blocksize) k (a.code col) (fun i b => (a.blockScaleZp col i b).1)
      (fun i b => (a.blockScaleZp col i b).2) (a.blockReduce col))
    (a := 0) (s := 1) (n := row) (b := a.rowBody col) (x := out) (by simp) fun k y _ hy => by
      simp only [id, Nat.zero_add, Nat.mul_one] at hy ⊢
      rw [hy, a.rowBody_eq hbs, QuantArgs.rowStores, QuantOut.window_stores_row _ _ hdst hscale]
  simpa using h

/-- The kernel leaves every code outside the `row × col` window and every block value outside
the `row × updiv(col, blocksize)` window as they were, and without `blkreduce` writes no block
sum. -/
theorem quantizeFpU8Colblock_frame {S : Type} (row col : Nat) (a : QuantArgs S) (out : QuantOut)
    (hbs : 0 < a.blocksize) (hdst : col ≤ a.ldDst) (hscale : updiv col a.blocksize ≤ a.ldScale) :
    ∃ r, quantizeFpU8Colblock row col a out = (.success, r) ∧
      (∀ t, (∀ i c, i < row → c < col → t ≠ c + i * a.ldDst) → r.dst t = out.dst t) ∧
      (∀ t, (∀ i b, i < row → b < updiv col a.blocksize → t ≠ b + i * a.ldScale) →
        r.scales t = out.scales t ∧ r.zps t = out.zps t ∧ r.blkreduce t = out.blkreduce t) ∧
      (a.withReduce = false → r.blkreduce = out.blkreduce) := by
  rw [quantizeFpU8Colblock_eq row col a out hbs hdst hscale]
  refine ⟨_, rfl, fun t ht => ?_, fun t ht => ?_, fun hw => by simp [QuantOut.window, hw]⟩ <;>
    dsimp only [QuantOut.window]
  · exact Buf.window_apply_outside _ _ fun i c hi hc => by rw [Nat.add_comm]; exact ht i c hi hc
  · have ht' : ∀ i b, i < row → b < updiv col a.blocksize → t ≠ i * a.ldScale + b :=
      fun i b hi hb => by rw [Nat.add_comm]; exact ht i b hi hb
    refine ⟨Buf.window_apply_outside _ _ ht', Buf.window_apply_outside _ _ ht', ?_⟩
    cases a.withReduce
    · rfl
    · exact Buf.window_apply_outside _ _ ht'

/-- One code in a row of stride 2: position 1 keeps its 7. -/
theorem quantizeFpU8Colblock_frame_stride :
    ∃ r, quantizeFpU8Colblock 1 1 ⟨id, fun _ => (1 : ℚ), 1, 2, 1, 1, false⟩
        ⟨fun _ => 7, fun _ => 0, fun _ => 0, fun _ => 0⟩ = (.success, r) ∧ r.dst 1 = 7 := by
  obtain ⟨r, hr, hd, -, -⟩ := quantizeFpU8Colblock_frame 1 1 ⟨id, fun _ => (1 : ℚ), 1, 2, 1, 1, false⟩
    ⟨fun _ => 7, fun _ => 0, fun _ => 0, fun _ => 0⟩ (by decide) (by decide) (by decide)
  exact ⟨r, hr, hd 1 fun i c hi hc => show 1 ≠ c + i * 2 by omega⟩

end NeuralSpeed
