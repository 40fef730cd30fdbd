import NeuralSpeed.Simd

/-!
# Double-quantized scales

`dq8_get_fp_scale` expands `uint8_t` double-quantized scale codes into floats:
`dq8_bnb_LUT[code] * dq_scale[block] + dq_scale[dq_offset_idx]`, where the block of a scale is
its flat index `scale_offset + …` divided by `dq_blk`. Each row is split into an unaligned head of
`updiv(scale_offset, 8) * 8 - scale_offset` scales, an 8-wide body, and a tail.

The helper `get_fp_scale_ref` ignores its element count and always converts `col` elements. The
head's call is harmless, since the body and the tail overwrite what it wrote past the head, but
the tail's call starts past the head and the body and still converts `col` elements, so it runs
past the end of the row: `dq8GetFpScale_tail_writes_past_row` says that whenever a row has a tail
after a non-empty head or body, the kernel writes the last row's `(col - 1)`-th element after the
tail's start, outside the `row × col` window. `dq8GetFpScale_past_row` is such a tile.

Inside the window the kernel is right whenever `dq_blk` is a multiple of eight
(`dq8GetFpScale_window`): each run the head, the body's groups and the tail convert shares one
block, and every later row's head rewrites its whole row before the tail's excess could matter.

The table `dq8_bnb_LUT` is not under src/: it is a parameter `lut`.
-/

namespace NeuralSpeed

section DoubleQuant

variable {F : Type} [Mul F] [Add F]

/-- `head_proc_num = updiv(scale_offset, 8) * 8 - scale_offset`: the scales before the next
multiple of eight. -/
def headProcNum (scaleOffset : Nat) : Nat := updiv scaleOffset 8 * 8 - scaleOffset

/-- `get_fp_scale_ref(proc_src_num, scale_offset, src + srcp, dst + dstp)`: it converts `col`
elements whatever `proc_src_num` is, all with the block of `scale_offset`. -/
def getFpScaleRef (lut : Nat → F) (src : Buf Byte) (col dqBlk dqOffsetIdx : Nat) (dqScale : Buf F)
    (_procSrcNum scaleOffset srcp dstp : Nat) (dst : Buf F) : Buf F :=
  let dqSIdx := scaleOffset / dqBlk
  forLoop 0 1 col (fun j dst => dst.store (dstp + j) 1 fun _ =>
    lut (src (srcp + j)).val * dqScale dqSIdx + dqScale dqOffsetIdx) dst

/-- `get_fp_scale_avx2(scale_offset, src + srcp, dst + dstp)`: eight elements with the block of
`scale_offset`. -/
def getFpScaleAvx2 (lut : Nat → F) (src : Buf Byte) (dqBlk dqOffsetIdx : Nat) (dqScale : Buf F)
    (scaleOffset srcp dstp : Nat) (dst : Buf F) : Buf F :=
  let ymmDqOffset := mm256Set1Ps (dqScale dqOffsetIdx)
  let dqSIdx := scaleOffset / dqBlk
  let ymmDqScale := mm256Set1Ps (dqScale dqSIdx)
  let tmp : Buf F := fun i => lut (src (srcp + i)).val
  let fp32DqYmm := mm256LoaduPs tmp 0
  let fymm := mm256MulPs fp32DqYmm ymmDqScale
  let fymm := mm256AddPs fymm ymmDqOffset
  mm256StoreuPs dst dstp fymm

/-- `dq8_get_fp_scale`, with `if (zeropadding) assert(0)` as failure. Both helpers divide by
`dq_blk`; at `dq_blk = 0` the C++ divides by zero, where `Nat` division gives block 0, so the
window law below assumes `0 < dq_blk`. -/
def dq8GetFpScale (lut : Nat → F) (src : Buf Byte) (dst : Buf F) (row col scaleOffset dqBlk
    dqOffsetIdx : Nat) (dqScale : Buf F) (srcStride dstStride : Nat) (zeropadding : Bool) :
    Option (BtlaCode × Buf F) :=
  let headProcNum := headProcNum scaleOffset
  let getFpScaleRef := getFpScaleRef lut src col dqBlk dqOffsetIdx dqScale
  let getFpScaleAvx2 := getFpScaleAvx2 lut src dqBlk dqOffsetIdx dqScale
  let dst := forLoop 0 1 row (fun i dst =>
    if headProcNum > col then
      getFpScaleRef col scaleOffset (i * srcStride) (i * dstStride) dst
    else
      let dst := getFpScaleRef headProcNum scaleOffset (i * srcStride) (i * dstStride) dst
      let scaleOffsetIter := scaleOffset + headProcNum
      let srcIterPtr := headProcNum
      let dstIterPtr := headProcNum
      let bodyLoop := (col - headProcNum) / 8
      let tailProcNum := (col - headProcNum) % 8
      let dst := forLoop 0 1 bodyLoop (fun ii dst =>
        getFpScaleAvx2 (scaleOffsetIter + ii * 8) (srcIterPtr + i * srcStride + ii * 8)
          (dstIterPtr + i * dstStride + ii * 8) dst) dst
      if tailProcNum > 0 then
        getFpScaleRef tailProcNum (scaleOffsetIter + bodyLoop * 8)
          (srcIterPtr + i * srcStride + bodyLoop * 8) (dstIterPtr + i * dstStride + bodyLoop * 8) dst
      else dst) dst
  if zeropadding then none else some (.success, dst)

/-- The last element `get_fp_scale_ref` writes is the last one of its run. -/
theorem getFpScaleRef_last (lut : Nat → F) (src : Buf Byte) (c dqBlk dqOffsetIdx : Nat)
    (dqScale : Buf F) (n scaleOffset srcp dstp : Nat) (dst : Buf F) :
    getFpScaleRef lut src (c + 1) dqBlk dqOffsetIdx dqScale n scaleOffset srcp dstp dst (dstp + c)
      = lut (src (srcp + c)).val * dqScale (scaleOffset / dqBlk) + dqScale dqOffsetIdx := by
  rw [getFpScaleRef, forLoop_succ_last, Nat.zero_add, Nat.mul_one, ← Nat.add_zero (dstp + c),
    Buf.store_apply_add _ _ _ _ Nat.one_pos]

/-- When a row has a tail (`(col - head) % 8 > 0`) after a non-empty head or body, the tail's
`get_fp_scale_ref` converts `col` elements from its start, and the last of them, in the last
row, lies past every position of the `row × col` window: the kernel writes it. -/
theorem dq8GetFpScale_tail_writes_past_row (lut : Nat → F) (src : Buf Byte) (dst : Buf F)
    (row col scaleOffset dqBlk dqOffsetIdx : Nat) (dqScale : Buf F) (srcStride dstStride : Nat)
    (hrow : 0 < row) (hhead : headProcNum scaleOffset ≤ col)
    (htail : 0 < (col - headProcNum scaleOffset) % 8)
    (hbody : 0 < headProcNum scaleOffset + (col - headProcNum scaleOffset) / 8 * 8) :
    (∀ i j, i < row → j < col → (row - 1) * dstStride + headProcNum scaleOffset
        + (col - headProcNum scaleOffset) / 8 * 8 + (col - 1) ≠ i * dstStride + j) ∧
    ∃ r, dq8GetFpScale lut src dst row col scaleOffset dqBlk dqOffsetIdx dqScale srcStride
        dstStride false = some (.success, r) ∧
      r ((row - 1) * dstStride + headProcNum scaleOffset + (col - headProcNum scaleOffset) / 8 * 8
          + (col - 1))
        = lut (src ((row - 1) * srcStride + headProcNum scaleOffset
            + (col - headProcNum scaleOffset) / 8 * 8 + (col - 1))).val
          * dqScale ((scaleOffset + headProcNum scaleOffset + (col - headProcNum scaleOffset) / 8 * 8)
            / dqBlk) + dqScale dqOffsetIdx := by
  generalize hh : headProcNum scaleOffset = h at *
  generalize hb : (col - h) / 8 * 8 = b at *
  obtain ⟨n, rfl⟩ : ∃ n, row = n + 1 := ⟨row - 1, by omega⟩
  obtain ⟨c, rfl⟩ : ∃ c, col = c + 1 := ⟨col - 1, by omega⟩
  simp only [Nat.add_sub_cancel]
  refine ⟨fun i j hi hj => ?_, _, rfl, ?_⟩
  · have := Nat.mul_le_mul_right dstStride (Nat.le_of_lt_succ hi)
    omega
  · rw [forLoop_succ_last, Nat.zero_add, Nat.mul_one, hh, if_neg (by omega), if_pos htail, hb]
    have h1 := getFpScaleRef_last lut src c dqBlk dqOffsetIdx dqScale ((c + 1 - h) % 8)
      (scaleOffset + h + b) (h + n * srcStride + b) (h + n * dstStride + b)
    rw [show h + n * dstStride + b + c = n * dstStride + h + b + c by omega,
      show h + n * srcStride + b + c = n * srcStride + h + b + c by omega] at h1
    exact h1 _

/-- One row of nine scales from `scale_offset = 0` with `dq_blk = 8`: the head is empty, the body
is columns `0..7`, and the tail's `get_fp_scale_ref`, starting at column 8, writes `dst[8..16]`,
past the row; `dst[16]` becomes `dq8_bnb_LUT[src[16]] * dq_scale[1] + dq_scale[2] = 1` where it
held 0. -/
theorem dq8GetFpScale_past_row :
    ∃ r, dq8GetFpScale (fun n => (n : ℚ)) (fun _ => 0) (fun _ => 0) 1 9 0 8 2
        (fun t => if t = 2 then 1 else 0) 18 18 false = some (.success, r) ∧
      (∀ i j, i < 1 → j < 9 → 16 ≠ i * 18 + j) ∧ r 16 = 1 ∧ (fun _ => (0 : ℚ)) 16 = 0 := by
  obtain ⟨hout, r, hr, hv⟩ := dq8GetFpScale_tail_writes_past_row (fun n => (n : ℚ)) (fun _ => 0)
    (fun _ => 0) 1 9 0 8 2 (fun t => if t = 2 then 1 else 0) 18 18 (by norm_num) (by decide)
    (by decide) (by decide)
  refine ⟨r, hr, by simpa [headProcNum, updiv] using hout, by simpa [headProcNum, updiv] using hv,
    rfl⟩

/-! ## The window, when `dq_blk` is a multiple of eight

The body gives each group of eight lanes the block of its first scale, and the head and the tail
give each of their runs the block of their first scale. Every such run lies in one group of
eight flat indices, so when `dq_blk` is a multiple of eight each element gets the block of its
own index. The tail's writes past the row land in the rows after it, and each row's head writes
its whole row first, so every element of the window ends with its own value. -/

/-- `get_fp_scale_ref` stores `col` converted scales at `dstp`, all with the block of its
`scale_offset`. -/
theorem getFpScaleRef_eq (lut : Nat → F) (src : Buf Byte) (col dqBlk dqOffsetIdx : Nat)
    (dqScale : Buf F) (n scaleOffset srcp dstp : Nat) (dst : Buf F) :
    getFpScaleRef lut src col dqBlk dqOffsetIdx dqScale n scaleOffset srcp dstp dst
      = dst.store dstp col fun j => lut (src (srcp + j)).val * dqScale (scaleOffset / dqBlk)
          + dqScale dqOffsetIdx := by
  have h := forLoop_store dst dstp 0 1 col fun j =>
    lut (src (srcp + j)).val * dqScale (scaleOffset / dqBlk) + dqScale dqOffsetIdx
  simp only [Nat.add_zero, Nat.mul_one, Nat.zero_add] at h
  rw [getFpScaleRef, ← h]
  refine forLoop_congr (fun k x _ => ?_) dst
  refine Buf.store_congr _ _ _ fun l hl => ?_
  rw [show l = 0 by omega, Nat.add_zero]

/-- `get_fp_scale_avx2` stores eight converted scales at `dstp` with the block of its
`scale_offset`. -/
theorem getFpScaleAvx2_eq (lut : Nat → F) (src : Buf Byte) (dqBlk dqOffsetIdx : Nat) (dqScale : Buf F)
    (scaleOffset srcp dstp : Nat) (dst : Buf F) :
    getFpScaleAvx2 lut src dqBlk dqOffsetIdx dqScale scaleOffset srcp dstp dst
      = dst.store dstp 8 fun l => lut (src (srcp + l)).val * dqScale (scaleOffset / dqBlk)
          + dqScale dqOffsetIdx :=
  Buf.store_congr _ _ _ fun l _ => by
    simp only [mm256AddPs_apply, mm256MulPs_apply, mm256LoaduPs_apply, mm256Set1Ps_apply, Nat.zero_add]

/-- The body's loop stores its run of eight-lane groups, each group with the block of its first
scale. -/
theorem getFpScaleAvx2_chunks (lut : Nat → F) (src : Buf Byte) (dqBlk dqOffsetIdx : Nat)
    (dqScale : Buf F) (n so sp dp : Nat) (dst : Buf F) :
    forLoop 0 1 n (fun ii dst => getFpScaleAvx2 lut src dqBlk dqOffsetIdx dqScale (so + ii * 8)
        (sp + ii * 8) (dp + ii * 8) dst) dst
      = dst.store dp (n * 8) fun t => lut (src (sp + t)).val * dqScale ((so + t / 8 * 8) / dqBlk)
          + dqScale dqOffsetIdx := by
  have h := forLoop_store_chunks dst dp 0 8 n fun t =>
    lut (src (sp + t)).val * dqScale ((so + t / 8 * 8) / dqBlk) + dqScale dqOffsetIdx
  simp only [Nat.zero_mul, Nat.add_zero, Nat.zero_add] at h
  rw [← h]
  refine forLoop_congr (fun ii x _ => ?_) dst
  rw [getFpScaleAvx2_eq, Nat.zero_add, Nat.mul_one]
  exact Buf.store_congr _ _ _ fun l hl => by
    rw [Nat.add_assoc, show (ii * 8 + l) / 8 * 8 = ii * 8 by omega]

/-- Two flat indices in one group of eight lie in one block of a multiple of eight. -/
theorem div_eq_of_div_eight_eq {d x y : Nat} (hd : d % 8 = 0) (h : x / 8 = y / 8) : x / d = y / d := by
  obtain ⟨c, rfl⟩ : ∃ c, d = 8 * c := ⟨d / 8, by omega⟩
  rw [← Nat.div_div_eq_div_mul, ← Nat.div_div_eq_div_mul, h]

/-- **The window holds the double-quantized scales.** With `col ≤ dst_stride`, a `dq_blk` that is
a positive multiple of eight and no zero padding, `dq8_get_fp_scale` returns `Success` and stores at
`(i, j)` of the `row × col` window `dq8_bnb_LUT[src[i * src_stride + j]] * dq_scale[(scale_offset +
j) / dq_blk] + dq_scale[dq_offset_idx]`: the block of the element's own flat index. -/
theorem dq8GetFpScale_window (lut : Nat → F) (src : Buf Byte) (dst : Buf F) (row : Nat) {col : Nat}
    (scaleOffset : Nat) {dqBlk : Nat} (dqOffsetIdx : Nat) (dqScale : Buf F) (srcStride : Nat)
    {dstStride : Nat} (hcol : col ≤ dstStride) (_hpos : 0 < dqBlk) (hblk : dqBlk % 8 = 0) :
    ∃ r, dq8GetFpScale lut src dst row col scaleOffset dqBlk dqOffsetIdx dqScale srcStride dstStride
        false = some (.success, r) ∧
      ∀ i j, i < row → j < col → r (i * dstStride + j)
        = lut (src (i * srcStride + j)).val * dqScale ((scaleOffset + j) / dqBlk) + dqScale dqOffsetIdx := by
  refine ⟨_, rfl, forLoop_inv (P := fun k (d : Buf F) => ∀ i j, i < k → j < col → d (i * dstStride + j)
      = lut (src (i * srcStride + j)).val * dqScale ((scaleOffset + j) / dqBlk) + dqScale dqOffsetIdx)
    (fun i j hi => absurd hi (Nat.not_lt_zero i)) fun k y _ hP i j hi hj => ?_⟩
  have hhead : scaleOffset + headProcNum scaleOffset = (scaleOffset + 7) / 8 * 8 := by
    simp only [headProcNum, updiv]; omega
  simp only [Nat.zero_add, Nat.mul_one, getFpScaleRef_eq, getFpScaleAvx2_chunks]
  rcases Nat.lt_succ_iff_lt_or_eq.mp hi with hik | rfl
  · -- an earlier row: every store of row `k` starts at `k * dst_stride` or later
    have : i * dstStride + j < k * dstStride := by
      have := Nat.mul_le_mul_right dstStride hik; rw [Nat.succ_mul] at this; omega
    split_ifs <;> simp (disch := omega) only [Buf.store_apply, if_neg] <;> exact hP i j hik hj
  · -- row `k`: the head, body or tail store that covers column `j` last, in the group of `j`
    have key : ∀ p q, p = i * srcStride + j → q / 8 = (scaleOffset + j) / 8 →
        lut (src p).val * dqScale (q / dqBlk) + dqScale dqOffsetIdx
          = lut (src (i * srcStride + j)).val * dqScale ((scaleOffset + j) / dqBlk) + dqScale dqOffsetIdx := by
      rintro p q rfl hq; rw [div_eq_of_div_eight_eq hblk hq]
    split_ifs <;> simp only [Buf.store_apply] <;> split_ifs <;> first | omega | exact key _ _ (by omega) (by omega)

/-- Two rows of thirteen scales from `scale_offset = 4` with `dq_blk = 8` and strides of sixteen,
codes `t` at `src[t]`, the table `n ↦ n` and `dq_scale[t] = t + 1`. In row 0 the head's element 3
uses block 0, the body's element 4 block 1 and the tail's element 12 block 2. Row 0's tail also
writes `dst[16..25)`, and row 1's head rewrites them: `dst[16 + 3]` holds code 19 with block 0. -/
theorem dq8GetFpScale_window_three_blocks :
    ∃ r, dq8GetFpScale (fun n => (n : ℚ)) (fun t => byteOf t) (fun _ => 0) 2 13 4 8 5
        (fun t => (t : ℚ) + 1) 16 16 false = some (.success, r) ∧
      r 3 = 9 ∧ r 4 = 14 ∧ r 12 = 42 ∧ r (16 + 3) = 25 ∧ r (16 + 12) = 90 := by
  obtain ⟨r, hr, hv⟩ := dq8GetFpScale_window (fun n => (n : ℚ)) (fun t => byteOf t) (fun _ => 0) 2 4 5
    (fun t => (t : ℚ) + 1) 16 (by decide : 13 ≤ 16) (by decide : 0 < 8) (by decide : 8 % 8 = 0)
  have h3 := hv 0 3 (by decide) (by decide)
  have h4 := hv 0 4 (by decide) (by decide)
  have h12 := hv 0 12 (by decide) (by decide)
  have h19 := hv 1 3 (by decide) (by decide)
  have h28 := hv 1 12 (by decide) (by decide)
  norm_num at h3 h4 h12 h19 h28
  exact ⟨r, hr, h3, h4, h12, h19, h28⟩

end DoubleQuant

end NeuralSpeed
