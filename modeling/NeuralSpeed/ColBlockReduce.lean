import NeuralSpeed.Reduce

/-!
# Column-block sums

`col_block_reduce_sum<SRC_T>` stores, for each row `i` and each block of `blocksize` columns
starting at a column `j < col`, the sum of the block at `reduce[i * ldr + j / blocksize]`. A
block is summed by a 16-wide loop, an 8-wide loop and a scalar loop, with `jj` running on from
one to the next. The two vector loops are skipped when the block's vector part would run past
`col`; the scalar loop always runs to `blocksize`.

`colBlockReduceSum_eq`: whatever split of a block the three loops make, each stored sum is the
sum of the `blocksize` consecutive elements from the block's start, the final partial block
included. When `blocksize` does not divide `col`, the last block of each row reads and adds the
elements after column `col - 1` up to its end (`colBlockReduceSum_partial_block`). The source is
read as `SRC_T = float`, which `_mm256_loadu_ps(srcptr + …)` requires.
-/

namespace NeuralSpeed

open Finset

section ColBlockReduce

variable (src : Buf ℚ)

/-- One iteration of the 16-wide loop: the sums of two 8-lane loads. -/
def reduce16 (base jj : Nat) (tmp : ℚ) : ℚ :=
  let vtmp := mm256LoaduPs src (base + jj)
  let vtmp1 := mm256LoaduPs src (base + jj + 8)
  let s0 := avx2ReducePs .add vtmp
  let s1 := avx2ReducePs .add vtmp1
  tmp + s0 + s1

/-- One iteration of the 8-wide loop. -/
def reduce8 (base jj : Nat) (tmp : ℚ) : ℚ := tmp + avx2ReducePs .add (mm256LoaduPs src (base + jj))

/-- One iteration of the scalar loop. -/
def reduce1 (base jj : Nat) (tmp : ℚ) : ℚ := tmp + src (base + jj)

/-- The sum of the block of row `i` at column `j`. -/
def blockSum (ldsrc col blocksize i j : Nat) : ℚ :=
  let vblock2_ := padtoLe blocksize 16
  let vblock_ := padtoLe blocksize 8
  let base := i * ldsrc + j
  let vblock2 := if j + vblock2_ ≤ col then vblock2_ else 0
  let vblock := if j + vblock_ ≤ col then vblock_ else 0
  let tmp := forLoop 0 16 (tripCount 0 vblock2 16) (reduce16 src base) 0
  let jj := forExit 0 vblock2 16
  let tmp := if jj + 8 ≤ vblock then forLoop jj 8 (tripCount jj vblock 8) (reduce8 src base) tmp
    else tmp
  let jj := if jj + 8 ≤ vblock then forExit jj vblock 8 else jj
  forLoop jj 1 (tripCount jj blocksize 1) (reduce1 src base) tmp

/-- `col_block_reduce_sum<float>`. -/
def colBlockReduceSum (ldsrc row col blocksize : Nat) (reduce : Buf ℚ) (ldr : Nat) :
    BtlaCode × Buf ℚ :=
  (.success, forLoop 0 1 row (fun i reduce =>
    forLoop 0 blocksize (tripCount 0 col blocksize) (fun j reduce =>
      reduce.store (i * ldr + j / blocksize) 1 fun _ => blockSum src ldsrc col blocksize i j)
      reduce) reduce)

theorem reduce16_eq (base jj : Nat) (tmp : ℚ) :
    reduce16 src base jj tmp = tmp + ∑ l ∈ range 16, src (base + (jj + l)) := by
  simp only [reduce16, avx2ReducePs_add, mm256LoaduPs_apply]
  rw [show (16 : Nat) = 8 + 8 from rfl, sum_range_add, add_assoc]
  simp only [Nat.add_assoc]

theorem reduce8_eq (base jj : Nat) (tmp : ℚ) :
    reduce8 src base jj tmp = tmp + ∑ l ∈ range 8, src (base + (jj + l)) := by
  simp only [reduce8, avx2ReducePs_add, mm256LoaduPs_apply, Nat.add_assoc]

theorem reduce1_eq (base jj : Nat) (tmp : ℚ) :
    reduce1 src base jj tmp = tmp + ∑ l ∈ range 1, src (base + (jj + l)) := by
  simp [reduce1]

/-- Each block sums `blocksize` consecutive elements from its start, however the loops split it. -/
theorem blockSum_eq (ldsrc col blocksize i j : Nat) :
    blockSum src ldsrc col blocksize i j = ∑ t ∈ range blocksize, src (i * ldsrc + j + t) := by
  simp only [blockSum]
  generalize hv2 : (if j + padtoLe blocksize 16 ≤ col then padtoLe blocksize 16 else 0) = vblock2
  generalize hv : (if j + padtoLe blocksize 8 ≤ col then padtoLe blocksize 8 else 0) = vblock
  have hm2 : vblock2 % 16 = 0 ∧ vblock2 ≤ blocksize := by
    rw [← hv2]; split_ifs
    exacts [⟨Nat.mul_mod_left _ _, padtoLe_le _ _⟩, ⟨rfl, Nat.zero_le _⟩]
  have hm : vblock % 8 = 0 ∧ vblock ≤ blocksize := by
    rw [← hv]; split_ifs
    exacts [⟨Nat.mul_mod_left _ _, padtoLe_le _ _⟩, ⟨rfl, Nat.zero_le _⟩]
  have hvec := forLoop_chunk_sum (v := fun t => src (i * ldsrc + j + t)) (by norm_num)
    (Nat.zero_le vblock2)
    (by omega) (reduce16_eq src _)
  rw [sum_range_zero] at hvec
  rw [hvec, forExit_of_mod (by norm_num) (Nat.zero_le _) (by omega)]
  have htail : ∀ c, c ≤ blocksize → forLoop c 1 (tripCount c blocksize 1)
      (reduce1 src (i * ldsrc + j)) (∑ t ∈ range c, src (i * ldsrc + j + t))
      = ∑ t ∈ range blocksize, src (i * ldsrc + j + t) := fun c hc =>
    forLoop_chunk_sum Nat.one_pos hc (Nat.mod_one _) (reduce1_eq src _)
  split_ifs with h
  · rw [forLoop_chunk_sum (by norm_num) (by omega) (by omega) (reduce8_eq src _),
      forExit_of_mod (by norm_num) (by omega) (by omega)]
    exact htail _ hm.2
  · exact htail _ hm2.2

/-- Whatever `col`, every stored block sum is the sum of `blocksize` elements from the block's
start, the last block of a row included. -/
theorem colBlockReduceSum_eq (ldsrc row col blocksize : Nat) (reduce : Buf ℚ) (ldr : Nat)
    (hbs : 0 < blocksize) (hldr : updiv col blocksize ≤ ldr) :
    colBlockReduceSum src ldsrc row col blocksize reduce ldr
      = (.success, reduce.window ldr (updiv col blocksize) row fun i b =>
          ∑ t ∈ range blocksize, src (i * ldsrc + b * blocksize + t)) := by
  refine Prod.ext rfl ?_
  dsimp only [colBlockReduceSum]
  refine Buf.forLoop_rows reduce hldr row _ _ fun i d _ => ?_
  refine (forLoop_progress (f := id) (p := fun c => d.store (i * ldr) (c / blocksize) fun b =>
      ∑ t ∈ range blocksize, src (i * ldsrc + b * blocksize + t)) (by simp)
    fun k y _ hy => ?_).trans ?_
  · simp only [id, Nat.zero_add, Nat.mul_div_cancel _ hbs] at hy ⊢
    rw [hy, ← Nat.succ_mul, Nat.mul_div_cancel _ hbs, Nat.succ_eq_add_one, ← Buf.store_store_append]
    exact Buf.store_congr _ _ _ fun l hl => by
      rw [Nat.lt_one_iff.mp hl, Nat.add_zero, blockSum_eq]
  · simp only [Nat.zero_add, Nat.mul_div_cancel _ hbs, tripCount, updiv, Nat.sub_zero]

/-- One row `[1, x]` of one column in blocks of two (`ldsrc = 2`): the stored sum is `1 + x`, so
it reads column 1, past `col`: 6 for `x = 5`, and 1 for `x = 0`. -/
theorem colBlockReduceSum_partial_block :
    ∃ r r', colBlockReduceSum (fun t => if t = 0 then 1 else 5) 2 1 1 2 (fun _ => 0) 1 = (.success, r) ∧
      colBlockReduceSum (fun t => if t = 0 then 1 else 0) 2 1 1 2 (fun _ => 0) 1 = (.success, r') ∧
      r 0 = 6 ∧ r' 0 = 1 := by
  rw [colBlockReduceSum_eq _ _ _ _ _ _ _ (by norm_num) (by decide),
    colBlockReduceSum_eq _ _ _ _ _ _ _ (by norm_num) (by decide)]
  refine ⟨_, _, rfl, rfl, ?_, ?_⟩ <;> norm_num [Buf.window, updiv, sum_range_succ]

end ColBlockReduce

end NeuralSpeed
