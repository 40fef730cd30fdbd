import NeuralSpeed.Quantize.Kernel
import Mathlib.Algebra.BigOperators.Ring
import Mathlib.Algebra.Order.BigOperators.Group.Finset

/-!
# Scales, zero points and the reconstruction error

The values `quantizeFpU8Colblock_eq` names are read off the loops here. Every block's loops
compute the maximum and the minimum of the block together with 0 (`MaxMinOf`, proved for the
8-wide lanes, their reduction, and the scalar lanes in `blockMaxMin_spec`). From that alone:

* a block's scale is 0 exactly when all of its elements are 0
  (`quantizeFpU8Colblock_scale_eq_zero`): the kernel then divides by zero, in `(0 - min) / scale`
  and in `1 / scale`;
* otherwise the scale is positive, the zero point is the rounded `-min / scale` without
  saturation, and every element is reconstructed within half a step,
  `|x - scale * (q - zp)| ≤ scale / 2` (`quantizeFpU8Colblock_error`), whichever rounding its lane
  uses: the bound asks of a rounding only that it lands within one half of its argument.

The clamp to `[0, 255]` can fire, at an exact tie at a block's extreme: then the code moves by
one from the rounded value while the block sum keeps the rounded value
(`quantizeFpU8Colblock_blkreduce_clamped`). The block sum is still within half a step per
element of the sum of the block's elements (`quantizeFpU8Colblock_blkreduce_error`).
-/

namespace NeuralSpeed

open Finset

/-! ## The maximum and the minimum of a block -/

/-- `mm` holds the largest and the smallest of the values `P` holds of, together with 0. -/
structure MaxMinOf (P : ℚ → Prop) (mm : ℚ × ℚ) : Prop where
  zero_le : 0 ≤ mm.1
  le_zero : mm.2 ≤ 0
  le_max : ∀ y, P y → y ≤ mm.1
  min_le : ∀ y, P y → mm.2 ≤ y
  max_mem : mm.1 = 0 ∨ P mm.1
  min_mem : mm.2 = 0 ∨ P mm.2

namespace MaxMinOf

variable {P Q : ℚ → Prop} {mm : ℚ × ℚ}

theorem zero : MaxMinOf (fun _ => False) (0, 0) :=
  ⟨le_rfl, le_rfl, fun _ h => h.elim, fun _ h => h.elim, .inl rfl, .inl rfl⟩

theorem of_iff (h : MaxMinOf P mm) (hPQ : ∀ y, P y ↔ Q y) : MaxMinOf Q mm :=
  (funext fun y => propext (hPQ y) : P = Q) ▸ h

/-- Seeing one more value `y`. -/
theorem insert (h : MaxMinOf P mm) (y : ℚ) :
    MaxMinOf (fun v => P v ∨ v = y) (max mm.1 y, min mm.2 y) where
  zero_le := le_max_of_le_left h.zero_le
  le_zero := min_le_of_left_le h.le_zero
  le_max v hv := hv.elim (fun hv => le_max_of_le_left (h.le_max v hv)) fun hv => hv ▸ le_max_right _ _
  min_le v hv := hv.elim (fun hv => min_le_of_left_le (h.min_le v hv)) fun hv => hv ▸ min_le_right _ _
  max_mem := by
    show max mm.1 y = 0 ∨ P (max mm.1 y) ∨ max mm.1 y = y
    rcases max_choice mm.1 y with hm | hm <;> rw [hm]
    · exact h.max_mem.imp_right .inl
    · exact .inr (.inr rfl)
  min_mem := by
    show min mm.2 y = 0 ∨ P (min mm.2 y) ∨ min mm.2 y = y
    rcases min_choice mm.2 y with hm | hm <;> rw [hm]
    · exact h.min_mem.imp_right .inl
    · exact .inr (.inr rfl)

/-- Seeing the value `f c` of a run after its first `c` values. -/
theorem step {f : Nat → ℚ} {c : Nat} (h : MaxMinOf (fun y => ∃ t, t < c ∧ f t = y) mm) :
    MaxMinOf (fun y => ∃ t, t < c + 1 ∧ f t = y) (max mm.1 (f c), min mm.2 (f c)) :=
  (h.insert (f c)).of_iff fun y =>
    ⟨fun h => h.elim (fun ⟨t, ht, e⟩ => ⟨t, by omega, e⟩) fun e => ⟨c, by omega, e.symm⟩,
      fun ⟨t, ht, e⟩ => if htc : t < c then .inl ⟨t, htc, e⟩
        else .inr (by rw [← e, show t = c by omega])⟩

/-- The lanes' maxima and minima reduce to those of all the lanes' values. -/
theorem reduce {P : Nat → ℚ → Prop} {v : M256 ℚ × M256 ℚ}
    (h : ∀ l, l < 8 → MaxMinOf (P l) (v.1 l, v.2 l)) :
    MaxMinOf (fun y => ∃ l, l < 8 ∧ P l y) (avx2ReducePs .max v.1, avx2ReducePs .min v.2) := by
  obtain ⟨l1, hl1, e1⟩ := avx2ReducePs_mem (t := .max) (by decide) v.1
  obtain ⟨l2, hl2, e2⟩ := avx2ReducePs_mem (t := .min) (by decide) v.2
  refine ⟨?_, ?_, fun y ⟨l, hl, hy⟩ => ?_, fun y ⟨l, hl, hy⟩ => ?_, ?_, ?_⟩ <;> dsimp only
  · rw [e1]; exact (h l1 hl1).zero_le
  · rw [e2]; exact (h l2 hl2).le_zero
  · exact ((h l hl).le_max y hy).trans (le_avx2ReducePs_max v.1 hl)
  · exact (avx2ReducePs_min_le v.2 hl).trans ((h l hl).min_le y hy)
  · rw [e1]; exact (h l1 hl1).max_mem.imp_right fun hy => ⟨l1, hl1, hy⟩
  · rw [e2]; exact (h l2 hl2).min_mem.imp_right fun hy => ⟨l2, hl2, hy⟩

/-- Values within `[0, m]` that reach `m` have the maximum `m` and, with 0, the minimum 0. -/
theorem eq_of_mem_le {m : ℚ} (h : MaxMinOf P mm) (hm : P m) (hP : ∀ y, P y → 0 ≤ y ∧ y ≤ m) :
    mm = (m, 0) := by
  have hmax : mm.1 ≤ m := h.max_mem.elim (fun e => e ▸ (hP m hm).1) fun hy => (hP _ hy).2
  have hmin : 0 ≤ mm.2 := h.min_mem.elim (fun e => e.ge) fun hy => (hP _ hy).1
  exact Prod.ext (le_antisymm hmax (h.le_max m hm)) (le_antisymm h.le_zero hmin)

end MaxMinOf

namespace QuantArgs

variable {S : Type} (a : QuantArgs S)

/-- One 8-wide iteration: lane `l` has seen the elements `t ≡ l (mod 8)` of the body so far. -/
theorem maxMinVec_spec (i j k : Nat) (v : M256 ℚ × M256 ℚ)
    (hv : ∀ l, l < 8 → MaxMinOf (fun y => ∃ t, t < k * 8 ∧ t % 8 = l ∧ a.x i (j + t) = y)
      (v.1 l, v.2 l)) (l : Nat) (hl : l < 8) :
    MaxMinOf (fun y => ∃ t, t < (k + 1) * 8 ∧ t % 8 = l ∧ a.x i (j + t) = y)
      ((a.maxMinVec i j (k * 8) v).1 l, (a.maxMinVec i j (k * 8) v).2 l) := by
  simp only [maxMinVec, mm256MaxPs, mm256MinPs, toF_loadu]
  refine ((hv l hl).insert (a.x i (j + k * 8 + l))).of_iff fun y =>
    ⟨fun h => h.elim (fun ⟨t, ht, hm, e⟩ => ⟨t, by omega, hm, e⟩)
      fun e => ⟨k * 8 + l, by omega, by omega, by rw [e, Nat.add_assoc]⟩,
    fun ⟨t, ht, hm, e⟩ => if htk : t < k * 8 then .inl ⟨t, htk, hm, e⟩
      else .inr (by rw [← e, Nat.add_assoc, show t = k * 8 + l by omega])⟩

/-- The loops of a full block compute the maximum and the minimum of its `blocksize` elements,
with 0. -/
theorem fullMaxMin_spec (i j : Nat) :
    MaxMinOf (fun y => ∃ k, k < a.blocksize ∧ a.x i (j + k) = y) (a.fullMaxMin i j) := by
  have htrip := vblocksize_trip a
  have hv := @forLoop_inv _ (fun k v => ∀ l, l < 8 →
      MaxMinOf (fun y => ∃ t, t < k * 8 ∧ t % 8 = l ∧ a.x i (j + t) = y) (v.1 l, v.2 l))
    0 8 (tripCount 0 a.vblocksize 8) (a.maxMinVec i j) (mm256Set1Ps 0, mm256Set1Ps 0)
    (fun l _ => MaxMinOf.zero.of_iff fun y => ⟨False.elim, fun ⟨t, ht, _⟩ => by omega⟩)
    fun k v _ hv => by rw [Nat.zero_add]; exact a.maxMinVec_spec i j k v hv
  have hvec := (MaxMinOf.reduce hv).of_iff (Q := fun y => ∃ t, t < a.vblocksize ∧ a.x i (j + t) = y)
    fun y => ⟨fun ⟨_, _, t, ht, _, e⟩ => ⟨t, by omega, e⟩,
      fun ⟨t, ht, e⟩ => ⟨t % 8, Nat.mod_lt _ (by norm_num), t, by omega, rfl, e⟩⟩
  simp only [fullMaxMin]
  split_ifs with hlt
  · have ht := @forLoop_inv _ (fun k mm =>
        MaxMinOf (fun y => ∃ t, t < a.vblocksize + k ∧ a.x i (j + t) = y) mm)
      a.vblocksize 1 (tripCount a.vblocksize a.blocksize 1) (a.maxMinTail i j) _ hvec
      fun k mm _ h => by
        simpa only [maxMinTail, x, Nat.mul_one, Nat.add_assoc] using
          MaxMinOf.step (f := fun t => a.x i (j + t)) h
    simpa only [tripCount_one, Nat.add_sub_cancel' (vblocksize_le a)] using ht
  · have heq : a.vblocksize = a.blocksize := by have := vblocksize_le a; omega
    exact hvec.of_iff fun y => by rw [heq]

/-- The loop of the partial block computes the maximum and the minimum of its elements, with 0. -/
theorem partialMaxMin_spec (col i j : Nat) :
    MaxMinOf (fun y => ∃ k, k < col - j ∧ a.x i (j + k) = y) (a.partialMaxMin col i j) := by
  rw [partialMaxMin, ← tripCount_one]
  exact @forLoop_inv _ (fun k mm => MaxMinOf (fun y => ∃ t, t < k ∧ a.x i (j + t) = y) mm)
    j 1 _ (a.partialMaxMinStep i) (0, 0)
    (MaxMinOf.zero.of_iff fun y => ⟨False.elim, fun ⟨t, ht, _⟩ => by omega⟩)
    fun k mm _ h => by
      simpa only [partialMaxMinStep, x, Nat.mul_one, max_comm, min_comm] using
        MaxMinOf.step (f := fun t => a.x i (j + t)) h

/-- Every block's maximum and minimum are those of its elements, with 0. -/
theorem blockMaxMin_spec (hbs : 0 < a.blocksize) (col i b : Nat) :
    MaxMinOf (fun y => ∃ k, k < a.blockLen col b ∧ a.x i (b * a.blocksize + k) = y)
      (a.blockMaxMin col i b) := by
  rw [blockMaxMin]
  split_ifs with hb
  · rw [a.blockLen_full hbs hb]; exact a.fullMaxMin_spec i _
  · rw [a.blockLen_last hbs (Nat.le_of_not_lt hb)]; exact a.partialMaxMin_spec col i _

/-- A column `c < col` of block `b` is element `c % blocksize` of that block. -/
theorem mem_block (hbs : 0 < a.blocksize) {col b c : Nat} (hc : c < col) (hb : c / a.blocksize = b) :
    ∃ k, k < a.blockLen col b ∧ b * a.blocksize + k = c := by
  subst hb
  have := Nat.div_add_mod' c a.blocksize
  have := Nat.mod_lt c hbs
  exact ⟨c % a.blocksize, lt_min this (by omega), Nat.div_add_mod' c a.blocksize⟩

/-- Element `k` of block `b` is a column `< col` of that block. -/
theorem block_col {col b k : Nat} (hk : k < a.blockLen col b) :
    b * a.blocksize + k < col ∧ (b * a.blocksize + k) / a.blocksize = b := by
  have h1 := lt_min_iff.mp hk
  exact ⟨by omega, (row_col_div_mod h1.1).1⟩

/-- The rounded value of every column lands within one half of `x / scale`. -/
theorem raw_sub_le (col i c : Nat) :
    |(a.raw col i c : ℚ) - a.x i c * (1 / (a.blockScaleZp col i (c / a.blocksize)).1)| ≤ 1 / 2 := by
  rw [raw]
  split_ifs
  · rw [fullRaw, Nat.div_add_mod']
    split_ifs
    · exact roundHalfEven_sub_le _
    · exact roundf_sub_le _
  · exact roundf_sub_le _

end QuantArgs

/-! ## Scale, zero point and error of one block -/

section ScaleZp

variable {P : ℚ → Prop} {mm : ℚ × ℚ}

theorem scaleZp_pos (h : MaxMinOf P mm) {y : ℚ} (hy : P y) (hy0 : y ≠ 0) : 0 < (scaleZp mm).1 := by
  have h1 := h.le_max y hy
  have h2 := h.min_le y hy
  have : mm.2 < mm.1 := by
    rcases lt_or_gt_of_ne hy0 with hlt | hlt
    · linarith [h.zero_le]
    · linarith [h.le_zero]
  exact div_pos (by linarith) (by norm_num)

/-- The scale is 0 exactly when every value is 0. -/
theorem scaleZp_eq_zero (h : MaxMinOf P mm) : (scaleZp mm).1 = 0 ↔ ∀ y, P y → y = 0 := by
  constructor
  · intro hs y hy
    by_contra hy0
    exact (scaleZp_pos h hy hy0).ne' hs
  · intro hz
    have h1 : mm.1 = 0 := h.max_mem.elim id (hz _)
    have h2 : mm.2 = 0 := h.min_mem.elim id (hz _)
    simp [scaleZp, h1, h2]

/-- Saturating `r + z` into `[0, 255]` moves it by at most what keeps `u` within one half, when
`r` rounds `u`, `z` rounds `t`, and `u` lies in `[-t, 255 - t]`. -/
theorem sat_sub_le {r z : Int} {u t : ℚ} (hr : |(r : ℚ) - u| ≤ 1 / 2) (hz : |(z : ℚ) - t| ≤ 1 / 2)
    (hu : -t ≤ u) (hu' : u ≤ 255 - t) :
    |u - (((max 0 (min (r + z) 255) : Int) : ℚ) - z)| ≤ 1 / 2 := by
  obtain ⟨hr1, hr2⟩ := abs_le.mp hr
  obtain ⟨hz1, hz2⟩ := abs_le.mp hz
  rcases le_or_lt (r + z) 255 with h1 | h1
  · rw [min_eq_left h1]
    rcases le_or_lt 0 (r + z) with h0 | h0
    · rwa [max_eq_right h0, Int.cast_add, add_sub_cancel_right, abs_sub_comm]
    · rw [max_eq_left h0.le, abs_le]
      have : (r : ℚ) + z ≤ -1 := by exact_mod_cast (show r + z ≤ -1 by omega)
      push_cast; constructor <;> linarith only [hr1, hz1, hu, this]
  · rw [min_eq_right h1.le, max_eq_right (by norm_num), abs_le]
    have : (256 : ℚ) ≤ r + z := by exact_mod_cast (show 256 ≤ r + z by omega)
    push_cast; constructor <;> linarith only [hr2, hz2, hu', this]

/-- The zero point is `roundf(-min / scale)`, which lies in `[0, 255]`: the cast does not
saturate. -/
theorem scaleZp_zp (h : MaxMinOf P mm) (hs : 0 < (scaleZp mm).1) :
    ((scaleZp mm).2.val : Int) = roundf ((0 - mm.2) / (scaleZp mm).1)
      ∧ 0 ≤ (0 - mm.2) / (scaleZp mm).1 ∧ (0 - mm.2) / (scaleZp mm).1 ≤ 255 := by
  have ht0 : 0 ≤ (0 - mm.2) / (scaleZp mm).1 := div_nonneg (by linarith [h.le_zero]) hs.le
  have ht1 : (0 - mm.2) / (scaleZp mm).1 ≤ 255 := by
    rw [div_le_iff₀ hs]; simp only [scaleZp]; linarith [h.zero_le]
  have hz := abs_le.mp (roundf_sub_le ((0 - mm.2) / (scaleZp mm).1))
  have hz0 : (-1 : ℚ) < roundf ((0 - mm.2) / (scaleZp mm).1) := by linarith
  have hz1 : (roundf ((0 - mm.2) / (scaleZp mm).1) : ℚ) < 256 := by linarith
  have hzdef : (scaleZp mm).2 = satU8 (roundf ((0 - mm.2) / (scaleZp mm).1)) := rfl
  rw [hzdef]
  exact ⟨satU8_val (by exact_mod_cast (Int.add_one_le_of_lt (by exact_mod_cast hz0) : (-1 : Int) + 1 ≤ _))
    (Int.lt_add_one_iff.mp (by exact_mod_cast hz1)), ht0, ht1⟩

/-- A value of the block, rounded within one half after dividing by the scale, then offset by
the zero point and saturated, is reconstructed within half a step. -/
theorem scaleZp_error (h : MaxMinOf P mm) (hs : 0 < (scaleZp mm).1) {y : ℚ} (hy : P y) {r : Int}
    (hr : |(r : ℚ) - y * (1 / (scaleZp mm).1)| ≤ 1 / 2) :
    |y - (scaleZp mm).1 * (((satU8 (r + (scaleZp mm).2.val)).val : ℚ) - (scaleZp mm).2.val)|
      ≤ (scaleZp mm).1 / 2 := by
  obtain ⟨hzv, ht0, ht1⟩ := scaleZp_zp h hs
  set s := (scaleZp mm).1 with hs_def
  set t := (0 - mm.2) / s
  have hq : (((satU8 (r + (scaleZp mm).2.val)).val : ℕ) : ℚ)
      = ((max 0 (min (r + roundf t) 255) : Int) : ℚ) := by
    rw [← hzv, ← satU8_val_eq]; rfl
  have hu : -t ≤ y * (1 / s) ∧ y * (1 / s) ≤ 255 - t := by
    have hs255 : 255 * s = mm.1 - mm.2 := by rw [hs_def]; simp only [scaleZp]; ring
    have e1 : -t = mm.2 * (1 / s) := by simp only [t]; ring
    have e2 : 255 - t = mm.1 * (1 / s) := by
      simp only [t]; field_simp; linarith
    rw [e1, e2]
    exact ⟨mul_le_mul_of_nonneg_right (h.min_le y hy) (by positivity),
      mul_le_mul_of_nonneg_right (h.le_max y hy) (by positivity)⟩
  have herr := sat_sub_le hr (roundf_sub_le t) hu.1 hu.2
  have hzq : ((scaleZp mm).2.val : ℚ) = (roundf t : ℚ) := by exact_mod_cast hzv
  rw [hq, hzq]
  calc |y - s * (((max 0 (min (r + roundf t) 255) : Int) : ℚ) - roundf t)|
      = |s * (y * (1 / s) - (((max 0 (min (r + roundf t) 255) : Int) : ℚ) - roundf t))| := by
        rw [mul_sub s (y * (1 / s)), mul_left_comm, mul_one_div_cancel hs.ne', mul_one]
    _ = s * |y * (1 / s) - (((max 0 (min (r + roundf t) 255) : Int) : ℚ) - roundf t)| := by
        rw [abs_mul, abs_of_pos hs]
    _ ≤ s * (1 / 2) := mul_le_mul_of_nonneg_left herr hs.le
    _ = s / 2 := by ring

theorem scaleZp_nonneg (h : MaxMinOf P mm) : 0 ≤ (scaleZp mm).1 :=
  div_nonneg (by linarith [h.zero_le, h.le_zero]) (by norm_num)

/-- A value of the block rounded within one half after dividing by the scale comes back within
half a step, the zero scale of an all-zero block included. -/
theorem scaleZp_round_error (h : MaxMinOf P mm) {y : ℚ} (hy : P y) {r : Int}
    (hr : |(r : ℚ) - y * (1 / (scaleZp mm).1)| ≤ 1 / 2) :
    |(scaleZp mm).1 * r - y| ≤ (scaleZp mm).1 / 2 := by
  rcases (scaleZp_nonneg h).eq_or_lt with hs | hs
  · rw [← hs, (scaleZp_eq_zero h).1 hs.symm y hy]; simp
  · calc |(scaleZp mm).1 * r - y| = |(scaleZp mm).1 * (r - y * (1 / (scaleZp mm).1))| := by
          rw [mul_sub, mul_left_comm, mul_one_div_cancel hs.ne', mul_one]
      _ = (scaleZp mm).1 * |(r : ℚ) - y * (1 / (scaleZp mm).1)| := by rw [abs_mul, abs_of_pos hs]
      _ ≤ (scaleZp mm).1 * (1 / 2) := mul_le_mul_of_nonneg_left hr hs.le
      _ = (scaleZp mm).1 / 2 := by ring

end ScaleZp

/-! ## The kernel -/

section Kernel

variable {S : Type} (row col : Nat) (a : QuantArgs S) (out : QuantOut)

/-- With rows that do not overlap, block `b` of row `i` holds the scale and the zero point of
`blockScaleZp` and, with `blkreduce`, the block sum `blockReduce`. -/
theorem quantizeFpU8Colblock_block (hbs : 0 < a.blocksize) (hdst : col ≤ a.ldDst)
    (hscale : updiv col a.blocksize ≤ a.ldScale) {i b : Nat} (hi : i < row)
    (hb : b < updiv col a.blocksize) :
    (quantizeFpU8Colblock row col a out).2.scales (b + i * a.ldScale) = (a.blockScaleZp col i b).1 ∧
    (quantizeFpU8Colblock row col a out).2.zps (b + i * a.ldScale) = (a.blockScaleZp col i b).2 ∧
    (a.withReduce = true →
      (quantizeFpU8Colblock row col a out).2.blkreduce (b + i * a.ldScale) = a.blockReduce col i b) := by
  rw [quantizeFpU8Colblock_eq row col a out hbs hdst hscale]
  simp only [QuantOut.window, Nat.add_comm _ (i * _)]
  refine ⟨Buf.window_apply _ hscale _ hi hb, Buf.window_apply _ hscale _ hi hb, fun hw => ?_⟩
  simp only [hw, if_true]
  exact Buf.window_apply _ hscale _ hi hb

/-- Code `(i, c)` is `code`, next to its block's scale and zero point. -/
theorem quantizeFpU8Colblock_apply (hbs : 0 < a.blocksize) (hdst : col ≤ a.ldDst)
    (hscale : updiv col a.blocksize ≤ a.ldScale) {i c : Nat} (hi : i < row) (hc : c < col) :
    (quantizeFpU8Colblock row col a out).2.dst (c + i * a.ldDst) = a.code col i c ∧
    (quantizeFpU8Colblock row col a out).2.scales (c / a.blocksize + i * a.ldScale)
      = (a.blockScaleZp col i (c / a.blocksize)).1 ∧
    (quantizeFpU8Colblock row col a out).2.zps (c / a.blocksize + i * a.ldScale)
      = (a.blockScaleZp col i (c / a.blocksize)).2 := by
  obtain ⟨hs, hz, -⟩ := quantizeFpU8Colblock_block row col a out hbs hdst hscale hi
    (div_lt_updiv hbs hc)
  refine ⟨?_, hs, hz⟩
  rw [quantizeFpU8Colblock_eq row col a out hbs hdst hscale, Nat.add_comm]
  exact Buf.window_apply _ hdst _ hi hc

/-- A stored scale is 0 exactly when every element of its block is 0. -/
theorem quantizeFpU8Colblock_scale_eq_zero (hbs : 0 < a.blocksize) (hdst : col ≤ a.ldDst)
    (hscale : updiv col a.blocksize ≤ a.ldScale) :
    ∃ r, quantizeFpU8Colblock row col a out = (.success, r) ∧
      ∀ i c, i < row → c < col →
        (r.scales (c / a.blocksize + i * a.ldScale) = 0 ↔
          ∀ c', c' < col → c' / a.blocksize = c / a.blocksize → a.x i c' = 0) := by
  refine ⟨(quantizeFpU8Colblock row col a out).2, rfl, fun i c hi hc => ?_⟩
  rw [(quantizeFpU8Colblock_apply row col a out hbs hdst hscale hi hc).2.1, QuantArgs.blockScaleZp,
    scaleZp_eq_zero (a.blockMaxMin_spec hbs col i _)]
  constructor
  · intro h c' hc' hb
    obtain ⟨k, hk, rfl⟩ := a.mem_block hbs hc' hb
    exact h _ ⟨k, hk, rfl⟩
  · rintro h y ⟨k, hk, rfl⟩
    obtain ⟨h1, h2⟩ := a.block_col hk
    exact h _ h1 h2

/-- One row of one all-zero element: the stored scale is 0, where the buffer held 1. -/
theorem quantizeFpU8Colblock_zero_block :
    ∃ r, quantizeFpU8Colblock 1 1 ⟨id, fun _ => (0 : ℚ), 1, 1, 1, 1, false⟩
        ⟨fun _ => 0, fun _ => 1, fun _ => 0, fun _ => 0⟩ = (.success, r) ∧ r.scales 0 = 0 := by
  obtain ⟨r, hr, h⟩ := quantizeFpU8Colblock_scale_eq_zero 1 1 ⟨id, fun _ => (0 : ℚ), 1, 1, 1, 1, false⟩
    ⟨fun _ => 0, fun _ => 1, fun _ => 0, fun _ => 0⟩ (by decide) (by decide) (by decide)
  exact ⟨r, hr, (h 0 0 (by decide) (by decide)).2 fun _ _ _ => rfl⟩

/-- One row of nine values in one block of nine, an 8-wide chunk and a scalar lane: `255`, the
ties `5/2` and `7/2` in the chunk, zeros, and the tie `9/2` in the scalar lane. -/
def tiesRow : QuantArgs ℚ :=
  ⟨id, fun t => [255, 5 / 2, 7 / 2, 0, 0, 0, 0, 0, 9 / 2].getD t 0, 9, 9, 1, 9, true⟩

/-- The block of `tiesRow` spans `[0, 255]`: the scale is 1 and the zero point 0. -/
theorem tiesRow_blockScaleZp : tiesRow.blockScaleZp 9 0 0 = (1, 0) := by
  have hx : ∀ k, k < 9 → 0 ≤ tiesRow.x 0 k ∧ tiesRow.x 0 k ≤ 255 := by
    norm_num [Nat.forall_lt_succ, tiesRow, QuantArgs.x]
  have hmm : tiesRow.blockMaxMin 9 0 0 = (255, 0) :=
    (tiesRow.blockMaxMin_spec (by decide) 9 0 0).eq_of_mem_le ⟨0, by decide, rfl⟩
      fun _ ⟨k, hk, e⟩ => e ▸ Nat.zero_mul 9 ▸ (Nat.zero_add k).symm ▸ hx k hk
  rw [QuantArgs.blockScaleZp, hmm]
  norm_num [scaleZp, castFloatU8, roundf, satU8]
  rfl

/-- The chunk of `tiesRow` rounds its ties to even, `5/2` to 2 and `7/2` to 4, and the scalar lane
rounds `9/2` away from zero, to 5. -/
theorem tiesRow_raw : tiesRow.raw 9 0 1 = 2 ∧ tiesRow.raw 9 0 2 = 4 ∧ tiesRow.raw 9 0 8 = 5 := by
  simp only [QuantArgs.raw, QuantArgs.fullRaw, show tiesRow.blocksize = 9 from rfl,
    show tiesRow.vblocksize = 8 from rfl, Nat.reduceDiv, Nat.reduceMod, Nat.lt_irrefl, Nat.zero_lt_one,
    if_true, Nat.zero_mul, tiesRow_blockScaleZp]
  norm_num [tiesRow, QuantArgs.x, roundHalfEven, roundf]

/-- The codes of `tiesRow` are its rounded values, with the zero point 0. -/
theorem tiesRow_code : tiesRow.code 9 0 1 = 2 ∧ tiesRow.code 9 0 2 = 4 ∧ tiesRow.code 9 0 8 = 5 := by
  obtain ⟨h1, h2, h8⟩ := tiesRow_raw
  simp only [QuantArgs.code, show tiesRow.blocksize = 9 from rfl, Nat.reduceDiv, tiesRow_blockScaleZp,
    h1, h2, h8]
  decide

/-- Every element of a block with a nonzero element is reconstructed within half a step of its
block's scale, which is positive; its zero point is a code. -/
theorem quantizeFpU8Colblock_error (hbs : 0 < a.blocksize) (hdst : col ≤ a.ldDst)
    (hscale : updiv col a.blocksize ≤ a.ldScale) :
    ∃ r, quantizeFpU8Colblock row col a out = (.success, r) ∧
      ∀ i c, i < row → c < col →
        (∃ c', c' < col ∧ c' / a.blocksize = c / a.blocksize ∧ a.x i c' ≠ 0) →
        0 < r.scales (c / a.blocksize + i * a.ldScale) ∧
        (r.zps (c / a.blocksize + i * a.ldScale)).val ≤ 255 ∧
        |a.x i c - r.scales (c / a.blocksize + i * a.ldScale)
            * ((r.dst (c + i * a.ldDst)).val - (r.zps (c / a.blocksize + i * a.ldScale)).val : ℚ)|
          ≤ r.scales (c / a.blocksize + i * a.ldScale) / 2 := by
  refine ⟨(quantizeFpU8Colblock row col a out).2, rfl, fun i c hi hc ⟨c', hc', hb, hnz⟩ => ?_⟩
  obtain ⟨hd, hs, hz⟩ := quantizeFpU8Colblock_apply row col a out hbs hdst hscale hi hc
  rw [hd, hs, hz]
  have hmm := a.blockMaxMin_spec hbs col i (c / a.blocksize)
  obtain ⟨k', hk', e'⟩ := a.mem_block hbs hc' hb
  obtain ⟨k, hk, e⟩ := a.mem_block hbs hc rfl
  have hpos := scaleZp_pos hmm ⟨k', hk', congrArg (a.x i) e'⟩ hnz
  exact ⟨hpos, Nat.le_of_lt_succ (Fin.is_lt _),
    scaleZp_error hmm hpos ⟨k, hk, congrArg (a.x i) e⟩ (a.raw_sub_le col i c)⟩

/-- The row `tiesRow`: the scale is 1 and the zero point 0; the ties `5/2` and `7/2` of the chunk
become 2 and 4, the tie `9/2` of the scalar lane 5, and `5/2` and `9/2` lie half a step from
their codes. -/
theorem quantizeFpU8Colblock_error_ties :
    ∃ r, quantizeFpU8Colblock 1 9 tiesRow ⟨fun _ => 0, fun _ => 0, fun _ => 0, fun _ => 0⟩ = (.success, r) ∧
      r.scales 0 = 1 ∧ r.zps 0 = 0 ∧ r.dst 1 = 2 ∧ r.dst 2 = 4 ∧ r.dst 8 = 5 ∧
      |5 / 2 - r.scales 0 * ((r.dst 1).val - (r.zps 0).val : ℚ)| ≤ r.scales 0 / 2 ∧
      |9 / 2 - r.scales 0 * ((r.dst 8).val - (r.zps 0).val : ℚ)| ≤ r.scales 0 / 2 := by
  obtain ⟨r, hr, h⟩ := quantizeFpU8Colblock_error 1 9 tiesRow ⟨fun _ => 0, fun _ => 0, fun _ => 0, fun _ => 0⟩
    (by decide) (by decide) (by decide)
  have hnz : ∀ c, c < 9 → ∃ c', c' < 9 ∧ c' / tiesRow.blocksize = c / tiesRow.blocksize ∧ tiesRow.x 0 c' ≠ 0 :=
    fun c hc => ⟨0, by decide, by simp only [show tiesRow.blocksize = 9 from rfl]; omega,
      by norm_num [tiesRow, QuantArgs.x]⟩
  obtain ⟨-, -, e1⟩ := h 0 1 (by decide) (by decide) (hnz 1 (by decide))
  obtain ⟨-, -, e8⟩ := h 0 8 (by decide) (by decide) (hnz 8 (by decide))
  have hq : (quantizeFpU8Colblock 1 9 tiesRow ⟨fun _ => 0, fun _ => 0, fun _ => 0, fun _ => 0⟩).2 = r := by
    rw [hr]
  have hv := fun c (hc : c < 9) => quantizeFpU8Colblock_apply 1 9 tiesRow
    ⟨fun _ => 0, fun _ => 0, fun _ => 0, fun _ => 0⟩ (by decide) (by decide) (by decide) (i := 0) (c := c)
    (by decide) hc
  obtain ⟨c1, c2, c8⟩ := tiesRow_code
  simp only [hq, show tiesRow.blocksize = 9 from rfl, show tiesRow.ldDst = 9 from rfl,
    show tiesRow.ldScale = 1 from rfl, Nat.zero_mul, Nat.add_zero, tiesRow_blockScaleZp] at hv e1 e8
  obtain ⟨-, hs, hz⟩ := hv 1 (by decide)
  simp only [Nat.reduceDiv, tiesRow_blockScaleZp] at hs hz
  refine ⟨r, hr, hs, hz, (hv 1 (by decide)).1.trans c1, (hv 2 (by decide)).1.trans c2,
    (hv 8 (by decide)).1.trans c8, ?_, ?_⟩
  · simpa [tiesRow, QuantArgs.x] using e1
  · simpa [tiesRow, QuantArgs.x] using e8

/-- With `blkreduce`, every stored block sum is within half a step per element of the sum of
the block's elements, whether or not the clamp changed a code. -/
theorem quantizeFpU8Colblock_blkreduce_error (hbs : 0 < a.blocksize) (hdst : col ≤ a.ldDst)
    (hscale : updiv col a.blocksize ≤ a.ldScale) (hw : a.withReduce = true) :
    ∃ r, quantizeFpU8Colblock row col a out = (.success, r) ∧
      ∀ i b, i < row → b < updiv col a.blocksize →
        |r.blkreduce (b + i * a.ldScale)
            - ∑ k ∈ range (min a.blocksize (col - b * a.blocksize)), a.x i (b * a.blocksize + k)|
          ≤ (min a.blocksize (col - b * a.blocksize) : Nat) * r.scales (b + i * a.ldScale) / 2 := by
  refine ⟨(quantizeFpU8Colblock row col a out).2, rfl, fun i b hi hb => ?_⟩
  obtain ⟨hs, -, hr⟩ := quantizeFpU8Colblock_block row col a out hbs hdst hscale hi hb
  rw [hs, hr hw, QuantArgs.blockReduce]
  have hmm := a.blockMaxMin_spec hbs col i b
  have hk : ∀ k ∈ range (a.blockLen col b),
      |(a.blockScaleZp col i b).1 * a.raw col i (b * a.blocksize + k) - a.x i (b * a.blocksize + k)|
        ≤ (a.blockScaleZp col i b).1 / 2 := fun k hk => by
    have hc := a.block_col (mem_range.mp hk)
    have hr := a.raw_sub_le col i (b * a.blocksize + k)
    rw [hc.2] at hr
    exact scaleZp_round_error hmm ⟨k, mem_range.mp hk, rfl⟩ hr
  change |_ - ∑ k ∈ range (a.blockLen col b), _| ≤ ((a.blockLen col b : Nat) : ℚ) * _ / 2
  rw [Int.cast_sum, sum_mul, ← sum_sub_distrib]
  calc |∑ k ∈ range (a.blockLen col b), ((a.raw col i (b * a.blocksize + k) : ℚ)
          * (a.blockScaleZp col i b).1 - a.x i (b * a.blocksize + k))|
      ≤ ∑ k ∈ range (a.blockLen col b), |(a.raw col i (b * a.blocksize + k) : ℚ)
          * (a.blockScaleZp col i b).1 - a.x i (b * a.blocksize + k)| := abs_sum_le_sum_abs _ _
    _ ≤ ∑ _k ∈ range (a.blockLen col b), (a.blockScaleZp col i b).1 / 2 :=
        sum_le_sum fun k hk' => by rw [mul_comm]; exact hk k hk'
    _ = (a.blockLen col b : Nat) * (a.blockScaleZp col i b).1 / 2 := by
        rw [sum_const, card_range, nsmul_eq_mul]; ring

/-- The row `tiesRow` with `blkreduce`: the stored sum is `1 * (255 + 2 + 4 + 5) = 266`, half a
step from the row's sum `531 / 2`, within the bound of nine half steps. -/
theorem quantizeFpU8Colblock_blkreduce_error_ties :
    ∃ r, quantizeFpU8Colblock 1 9 tiesRow ⟨fun _ => 0, fun _ => 0, fun _ => 0, fun _ => 0⟩ = (.success, r) ∧
      r.blkreduce 0 = 266 ∧ |r.blkreduce 0 - 531 / 2| ≤ 9 * r.scales 0 / 2 := by
  obtain ⟨r, hr, h⟩ := quantizeFpU8Colblock_blkreduce_error 1 9 tiesRow
    ⟨fun _ => 0, fun _ => 0, fun _ => 0, fun _ => 0⟩ (by decide) (by decide) (by decide) rfl
  have hq : (quantizeFpU8Colblock 1 9 tiesRow ⟨fun _ => 0, fun _ => 0, fun _ => 0, fun _ => 0⟩).2 = r := by
    rw [hr]
  have hb := (quantizeFpU8Colblock_block 1 9 tiesRow ⟨fun _ => 0, fun _ => 0, fun _ => 0, fun _ => 0⟩
    (by decide) (by decide) (by decide) (i := 0) (b := 0) (by decide) (by decide)).2.2 rfl
  have hred : tiesRow.blockReduce 9 0 0 = 266 := by
    rw [QuantArgs.blockReduce, show tiesRow.blockLen 9 0 = 9 from rfl, tiesRow_blockScaleZp]
    simp only [sum_range_succ, sum_range_zero, QuantArgs.raw, QuantArgs.fullRaw,
      show tiesRow.blocksize = 9 from rfl, show tiesRow.vblocksize = 8 from rfl, Nat.reduceDiv,
      Nat.reduceMod, Nat.reduceMul, Nat.reduceAdd, Nat.reduceLT, if_true, if_false, tiesRow_blockScaleZp]
    norm_num [tiesRow, QuantArgs.x, roundHalfEven, roundf]
  have e := h 0 0 (by decide) (by decide)
  simp only [hq, show tiesRow.blocksize = 9 from rfl, show tiesRow.ldScale = 1 from rfl] at hb e
  norm_num [tiesRow, QuantArgs.x, sum_range_succ] at e
  exact ⟨r, hr, hb.trans hred, by simpa using e⟩

/-- One row `[509, -1]` in one block of two, with `blkreduce`: the scale is 2 and the zero point
`roundf(1/2) = 1`; `509 / 2` rounds to 255 and `-1 / 2` to -1, so the codes are 255 (clamped from
256) and 0. The stored block sum is `2 * (255 - 1) = 508`, while `scale * Σ (q - zp)` over the
stored codes is `2 * ((255 - 1) + (0 - 1)) = 506`. -/
theorem quantizeFpU8Colblock_blkreduce_clamped :
    ∃ r, quantizeFpU8Colblock 1 2 ⟨id, fun t => if t = 0 then (509 : ℚ) else -1, 2, 2, 1, 2, true⟩
        ⟨fun _ => 0, fun _ => 0, fun _ => 0, fun _ => 0⟩ = (.success, r) ∧
      r.scales 0 = 2 ∧ r.zps 0 = 1 ∧ r.dst 0 = 255 ∧ r.dst 1 = 0 ∧ r.blkreduce 0 = 508 ∧
      r.scales 0 * (((r.dst 0).val - (r.zps 0).val) + ((r.dst 1).val - (r.zps 0).val) : ℚ) = 506 := by
  set a : QuantArgs ℚ := ⟨id, fun t => if t = 0 then (509 : ℚ) else -1, 2, 2, 1, 2, true⟩
  set out : QuantOut := ⟨fun _ => 0, fun _ => 0, fun _ => 0, fun _ => 0⟩
  have hsz : a.blockScaleZp 2 0 0 = (2, 1) := by
    have hmm : a.blockMaxMin 2 0 0 = (509, -1) := by
      simp [a, QuantArgs.blockMaxMin, QuantArgs.fullMaxMin, QuantArgs.vblocksize, padtoLe, tripCount,
        forLoop, QuantArgs.maxMinTail, avx2ReducePs_apply, Avx2ReduceType.op]
      norm_num
    rw [QuantArgs.blockScaleZp, hmm]
    norm_num [scaleZp, castFloatU8, roundf, satU8]
    rfl
  have hraw : ∀ c, c < 2 → a.raw 2 0 c = if c = 0 then 255 else -1 := by
    intro c hc
    interval_cases c <;>
      simp [a, QuantArgs.raw, QuantArgs.fullRaw, QuantArgs.vblocksize, padtoLe, hsz, QuantArgs.x, roundf] <;> norm_num
  obtain ⟨h0, hs, hz⟩ := quantizeFpU8Colblock_apply 1 2 a out (by decide) (by decide) (by decide)
    (i := 0) (c := 0) (by decide) (by decide)
  obtain ⟨h1, -, -⟩ := quantizeFpU8Colblock_apply 1 2 a out (by decide) (by decide) (by decide)
    (i := 0) (c := 1) (by decide) (by decide)
  have hb := (quantizeFpU8Colblock_block 1 2 a out (by decide) (by decide) (by decide)
    (i := 0) (b := 0) (by decide) (by decide)).2.2 rfl
  have hlen : a.blockLen 2 0 = 2 := rfl
  have hc0 : a.code 2 0 0 = 255 := by
    rw [QuantArgs.code, hraw 0 (by decide), Nat.zero_div, hsz]; rfl
  have hc1 : a.code 2 0 1 = 0 := by
    rw [QuantArgs.code, hraw 1 (by decide), show 1 / a.blocksize = 0 by simp [a], hsz]; rfl
  have hr : a.blockReduce 2 0 0 = 508 := by
    rw [QuantArgs.blockReduce, hlen, hsz, sum_range_succ, sum_range_one]
    simp only [Nat.zero_mul, Nat.zero_add]
    rw [hraw 0 (by decide), hraw 1 (by decide)]
    norm_num
  simp only [Nat.zero_div, Nat.zero_mul, Nat.add_zero, Nat.zero_add, hsz] at h0 hs hz h1 hb
  refine ⟨(quantizeFpU8Colblock 1 2 a out).2, rfl, hs, hz, h0.trans hc0, h1.trans hc1, hb.trans hr, ?_⟩
  rw [hs, hz, h0, h1, hc0, hc1]
  norm_num [show ((255 : Byte) : ℕ) = 255 from rfl]

end Kernel

end NeuralSpeed
