import NeuralSpeed.Rounding
import Mathlib.Algebra.BigOperators.Group.Finset
import Mathlib.Algebra.Order.Group.MinMax
import Mathlib.Tactic.IntervalCases

/-!
# Horizontal reductions

`avx2_reduce_ps<TYPE>` folds the eight lanes of a register into one with `max`, `min` or `+`: it
combines the register with its 128-bit halves swapped, then with its 64-bit pairs swapped, then
with its neighbouring lanes swapped, and reads lane 0. `avx2_reduce_epi32` does the same on
32-bit integer lanes, moving them with the float permutes.

`avx2ReducePs_apply` spells out the tree of combinations lane 0 ends with; from it, the sum is the
sum of the lanes (`avx2ReducePs_add`), the maximum bounds every lane (`le_avx2ReducePs_max`), and
for each operation the tree agrees with a sequential loop over the lanes (`avx2ReducePs_fold`).
`avx2_cvtepi32_epu8` packs eight 32-bit lanes into bytes, through unsigned 16-bit lanes: it
saturates a lane below `32768` and sends a larger one to `0` (`avx2CvtepiEpu8_apply`), so the
quantizer clamps first (`avx2CvtepiEpu8_clamp`).
-/

namespace NeuralSpeed

open Finset

/-- `AVX2_REDUCE_TYPE`. -/
inductive Avx2ReduceType where
  | max
  | min
  | add
  deriving DecidableEq, Repr

section Reduce

variable {α : Type} [Max α] [Min α] [Add α]

/-- `AVX2_REDUCE_OP` and `AVX2_REDUCE_OP_EPI32`: `x = op(x, y)` lane by lane. -/
def avx2ReduceOp : Avx2ReduceType → M256 α → M256 α → M256 α
  | .max => mm256MaxPs
  | .min => mm256MinPs
  | .add => mm256AddPs

/-- The scalar operation of a reduction type. -/
def Avx2ReduceType.op : Avx2ReduceType → α → α → α
  | .max => Max.max
  | .min => Min.min
  | .add => (· + ·)

/-- `avx2_reduce_ps<TYPE>(x)`, and `avx2_reduce_epi32<TYPE>` on integer lanes. On `Int` lanes the
sum has no 32-bit wrap; the quantizer, the only caller here, reduces rounded codes within `±255`,
whose sum of eight is far from it. -/
def avx2ReducePs (t : Avx2ReduceType) (x : M256 α) : α :=
  let y := mm256Permute2f128Ps x x 1
  let x := avx2ReduceOp t x y
  let y := mm256PermutePs x 0b01001110
  let x := avx2ReduceOp t x y
  let y := mm256PermutePs x 0b10110001
  let x := avx2ReduceOp t x y
  x 0

/-- Lane 0 after the three combinations. -/
theorem avx2ReducePs_apply (t : Avx2ReduceType) (x : M256 α) :
    avx2ReducePs t x = t.op (t.op (t.op (x 0) (x 4)) (t.op (x 2) (x 6)))
      (t.op (t.op (x 1) (x 5)) (t.op (x 3) (x 7))) := by
  cases t <;> rfl

end Reduce

/-- The sum reduction is the sum of the eight lanes. -/
theorem avx2ReducePs_add {α : Type} [Max α] [Min α] [AddCommMonoid α] (x : M256 α) :
    avx2ReducePs .add x = ∑ l ∈ range 8, x l := by
  simp only [avx2ReducePs_apply, Avx2ReduceType.op, sum_range_succ, sum_range_zero, zero_add]
  abel

/-- The maximum reduction bounds every lane. -/
theorem le_avx2ReducePs_max {α : Type} [LinearOrder α] [Add α] (x : M256 α) {l : Nat} (hl : l < 8) :
    x l ≤ avx2ReducePs .max x := by
  simp only [avx2ReducePs_apply, Avx2ReduceType.op, le_max_iff]
  interval_cases l <;> simp

/-- The minimum reduction is below every lane. -/
theorem avx2ReducePs_min_le {α : Type} [LinearOrder α] [Add α] (x : M256 α) {l : Nat} (hl : l < 8) :
    avx2ReducePs .min x ≤ x l := by
  simp only [avx2ReducePs_apply, Avx2ReduceType.op, min_le_iff]
  interval_cases l <;> simp

/-- A maximum or minimum reduction is one of the lanes. -/
theorem avx2ReducePs_mem {α : Type} [LinearOrder α] [Add α] {t : Avx2ReduceType} (ht : t ≠ .add)
    (x : M256 α) : ∃ l, l < 8 ∧ avx2ReducePs t x = x l := by
  have hc : ∀ u w : α, t.op u w = u ∨ t.op u w = w := by
    cases t
    · exact max_choice
    · exact min_choice
    · exact absurd rfl ht
  have hop : ∀ u w : α, (∃ l, l < 8 ∧ u = x l) → (∃ l, l < 8 ∧ w = x l) →
      ∃ l, l < 8 ∧ t.op u w = x l := fun u w hu hw => by
    rcases hc u w with h | h <;> rw [h] <;> assumption
  have hx : ∀ l, l < 8 → ∃ l', l' < 8 ∧ x l = x l' := fun l hl => ⟨l, hl, rfl⟩
  rw [avx2ReducePs_apply]
  exact hop _ _ (hop _ _ (hop _ _ (hx 0 (by norm_num)) (hx 4 (by norm_num)))
      (hop _ _ (hx 2 (by norm_num)) (hx 6 (by norm_num))))
    (hop _ _ (hop _ _ (hx 1 (by norm_num)) (hx 5 (by norm_num)))
      (hop _ _ (hx 3 (by norm_num)) (hx 7 (by norm_num))))

/-- The permute tree computes what a sequential loop `acc = op(acc, x[l])` over lanes `1..7` from
`x[0]` computes, for each of the three operations: they are associative and commutative on exact
values, so the reordering of the tree does not show. -/
theorem avx2ReducePs_fold {α : Type} [LinearOrder α] [AddCommMonoid α] (t : Avx2ReduceType)
    (x : M256 α) : avx2ReducePs t x = (List.range 7).foldl (fun acc l => t.op acc (x (l + 1))) (x 0) := by
  rw [avx2ReducePs_apply]
  cases t <;> simp only [Avx2ReduceType.op, List.range_succ, List.range_zero, List.nil_append,
    List.foldl_append, List.foldl_cons, List.foldl_nil] <;> ac_rfl

/-- A loop whose `k`-th iteration adds the `s` values `v (k * s), …, v (k * s + s - 1)` to an
accumulator `f` of its state adds the first `n * s` values. -/
theorem forLoop_sum {σ α : Type} [AddCommMonoid α] {f : σ → α} {v : Nat → α} {a s n : Nat}
    {body : Nat → σ → σ} {x : σ} {c : α} (h0 : f x = c)
    (hstep : ∀ k y, k < n → f (body (a + k * s) y) = f y + ∑ l ∈ range s, v (k * s + l)) :
    f (forLoop a s n body x) = c + ∑ t ∈ range (n * s), v t :=
  forLoop_inv (P := fun k y => f y = c + ∑ t ∈ range (k * s), v t) (by simp [h0])
    fun k y hk hy => by
      show f _ = _
      rw [hstep k y hk, hy, Nat.succ_mul, sum_range_add, add_assoc]

/-- A loop from `c` to `d`, a whole number of `s`-chunks away, whose iteration at `jj` adds
`v jj, …, v (jj + s - 1)`, takes the sum of the values before `c` to the sum of those before
`d`. -/
theorem forLoop_chunk_sum {α : Type} [AddCommMonoid α] {body : Nat → α → α} {v : Nat → α}
    {c d s : Nat} (hs : 0 < s) (hcd : c ≤ d) (hm : (d - c) % s = 0)
    (hbody : ∀ jj acc, body jj acc = acc + ∑ l ∈ range s, v (jj + l)) :
    forLoop c s (tripCount c d s) body (∑ t ∈ range c, v t) = ∑ t ∈ range d, v t := by
  obtain ⟨n, rfl⟩ : ∃ n, d = c + n * s :=
    ⟨(d - c) / s, by have := Nat.div_add_mod' (d - c) s; omega⟩
  rw [tripCount_mul _ _ _ hs, sum_range_add]
  exact forLoop_sum (f := id) (v := fun t => v (c + t)) rfl fun k y _ => by
    simp only [id, hbody, Nat.add_assoc]

/-- `avx2_cvtepi32_epu8(x)`: `_mm_packus_epi32` saturates each 32-bit lane into `[0, 65535]`,
`_mm_packus_epi16` reads the result as a signed 16-bit lane and saturates it into `[0, 255]`;
byte `i` holds lane `i % 8` (the second pack repeats the eight bytes). -/
def avx2CvtepiEpu8 (x : M256 Int) : M128i := fun i =>
  let w : Int := max 0 (min (x (i % 8)) 65535)
  let s : Int := if w < 32768 then w else w - 65536
  satU8 s

/-- Unclamped, the pack saturates only the lanes below `32768`: a lane of `32768` or more leaves
the first pack as a negative signed 16-bit lane, which the second pack sends to `0`, not to
`255`. -/
theorem avx2CvtepiEpu8_apply (x : M256 Int) (i : Nat) :
    avx2CvtepiEpu8 x i = if x (i % 8) < 32768 then satU8 (x (i % 8)) else 0 := by
  apply Fin.ext
  simp only [avx2CvtepiEpu8, satU8]
  split_ifs <;> simp only [byteOf_val, Fin.val_zero] <;> omega

/-- Lanes clamped into `[0, 255]` first, by `_mm256_min_epi32` and `_mm256_max_epi32`, pack to
their saturations. -/
theorem avx2CvtepiEpu8_clamp (v : M256 Int) (i : Nat) :
    avx2CvtepiEpu8 (mm256MaxPs (mm256MinPs v (mm256Set1Epi32 255)) (mm256Set1Epi32 0)) i
      = satU8 (v (i % 8)) := by
  apply Fin.ext
  simp only [avx2CvtepiEpu8, mm256MaxPs, mm256MinPs, mm256Set1Epi32, satU8, byteOf_val]
  split_ifs <;> omega

end NeuralSpeed
