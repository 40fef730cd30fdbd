import NeuralSpeed.Bf16

/-!
# The elementwise kernels `alphabeta_f32_f32` and `accum_alphaN_f32_f32`

`alphabeta_f32_f32` computes `C ← αA + βB` over an `M × N` tile: row `i` of `dst` (stride
`dststep`) gets `alpha * src[i * srcstep + j] + beta * src1[i * src1step + j]`. Each row goes
through an 8-wide body up to `padto_le(N, 8)`, which multiplies by `alpha` and adds `beta * src1`
with `_mm256_fmadd_ps`, and a scalar epilogue. When `beta == 0` both loops leave `src1` alone, so
a caller may pass a null `src1ptr`.

`accum_alphaN_f32_f32` adds `alpha[j] * src` to `dst` column by column, with a factor per column
that is a float, a `utils::bf16` or a `utils::f8` exponent. The vector body builds the eight
factors of a chunk from their patterns, the `f8` ones as the float pattern `(127 + x) << 23`;
the epilogue converts one factor at a time, the `f8` ones with `std::pow(2, x)`.

Values are exact, so the fused multiply-add of the body and the epilogue's product and sum
agree.

* `alphabetaF32F32_eq` — for every tile with `N ≤ dststep` the kernel returns `Success` and
  writes `alpha * src + beta * src1` at every position of the window and nothing else. With
  `beta = 0` that is `alpha * src`, whatever `src1` holds.
* `accumAlphaNF32F32_law` — wherever the vector body's factors are exact, every position gets
  `dst + a(alpha[j]) * src` with the epilogue's factor. They are for floats and brain floats,
  and for `f8` exponents from `-126`; `fp32Value_f8Exponent` shows that `-127` gives zero and
  `-128` gives `-∞`.
-/

namespace NeuralSpeed

section Alphabeta

variable {F : Type}

/-- `alphabeta_f32_f32(alpha, srcptr, srcstep, beta, src1ptr, src1step, dstptr, dststep, M, N)`. -/
def alphabetaF32F32 [Mul F] [Add F] [Zero F] [DecidableEq F] (alpha : F) (src : Buf F)
    (srcstep : Nat) (beta : F) (src1 : Buf F) (src1step : Nat) (dst : Buf F) (dststep M N : Nat) :
    BtlaCode × Buf F :=
  let vlen := 8
  let vN := padtoLe N vlen
  let valpha := mm256Set1Ps alpha
  let vbeta := mm256Set1Ps beta
  let dst := forLoop 0 1 M (fun i dst =>
    if beta ≠ 0 then
      let dst := forLoop 0 vlen (tripCount 0 vN vlen) (fun j dst =>
        let vsrc := mm256LoaduPs src (i * srcstep + j)
        let vsrc1 := mm256LoaduPs src1 (i * src1step + j)
        let vdst := mm256MulPs valpha vsrc
        let vdst := mm256FmaddPs vbeta vsrc1 vdst
        mm256StoreuPs dst (i * dststep + j) vdst) dst
      forLoop vN 1 (tripCount vN N 1) (fun j dst =>
        dst.store (i * dststep + j) 1 fun _ =>
          alpha * src (i * srcstep + j) + beta * src1 (i * src1step + j)) dst
    else
      let dst := forLoop 0 vlen (tripCount 0 vN vlen) (fun j dst =>
        let vsrc := mm256LoaduPs src (i * srcstep + j)
        let vdst := mm256MulPs valpha vsrc
        mm256StoreuPs dst (i * dststep + j) vdst) dst
      forLoop vN 1 (tripCount vN N 1) (fun j dst =>
        dst.store (i * dststep + j) 1 fun _ => alpha * src (i * srcstep + j)) dst) dst
  (.success, dst)

variable [Semiring F] [DecidableEq F]

/-- Every row of the window gets `alpha * src + beta * src1`, from the vector body below
`padto_le(N, 8)` and the epilogue above it, in both branches on `beta`; nothing else is
written. -/
theorem alphabetaF32F32_eq (alpha : F) (src : Buf F) (srcstep : Nat) (beta : F) (src1 : Buf F)
    (src1step : Nat) (dst : Buf F) {dststep : Nat} (M N : Nat) (hN : N ≤ dststep) :
    alphabetaF32F32 alpha src srcstep beta src1 src1step dst dststep M N
      = (.success, dst.window dststep N M fun i j =>
          alpha * src (i * srcstep + j) + beta * src1 (i * src1step + j)) := by
  simp only [alphabetaF32F32, Prod.mk.injEq, true_and]
  refine Buf.forLoop_rows _ hN _ _ _ fun i d _ => ?_
  split_ifs with hb
  · rw [← row_store, forLoop_congr (fun k x _ => ?_) d]
    refine Buf.store_congr _ _ _ fun l _ => ?_
    simp only [mm256FmaddPs_apply, mm256MulPs_apply, mm256Set1Ps_apply, mm256LoaduPs_apply,
      Nat.zero_add, Nat.add_assoc]
    exact add_comm _ _
  · simp only [not_not.mp hb, zero_mul, add_zero]
    rw [← row_store, forLoop_congr (fun k x _ => ?_) d]
    refine Buf.store_congr _ _ _ fun l _ => ?_
    simp only [mm256MulPs_apply, mm256Set1Ps_apply, mm256LoaduPs_apply, Nat.zero_add,
      Nat.add_assoc]

/-- A row of nine, `2 * src + 3 * src1` with `src[j] = j` and `src1 = 1`: the vector body writes
column 0, the epilogue column 8. -/
theorem alphabetaF32F32_row_of_nine :
    ∃ r, alphabetaF32F32 (2 : ℚ) (fun t => t) 9 3 (fun _ => 1) 9 (fun _ => 0) 9 1 9
        = (.success, r) ∧ r 0 = 3 ∧ r 8 = 19 := by
  refine ⟨_, alphabetaF32F32_eq 2 (fun t => (t : ℚ)) 9 3 (fun _ => 1) 9 (fun _ => 0) 1 9 le_rfl,
    ?_, ?_⟩ <;> norm_num [Buf.window]

end Alphabeta

/-! ## Accumulating `alpha * src` -/

section AccumAlpha

/-- `SCA_T` of `accum_alphaN_f32_f32` with its `alpha` buffer: float values, `utils::bf16`
patterns (two bytes each) or `utils::f8`, a byte whose `int8_t` field `x` is an exponent. -/
inductive AccumAlpha where
  | fp32 (alpha : Buf (Option ℚ))
  | bf16 (alpha : Buf Byte)
  | f8 (alpha : Buf Byte)

/-- `valpha` of the vector body at column `j`. For `utils::f8` the exponent, sign-extended and
rebiased by 127, is shifted into the exponent field. -/
def AccumAlpha.vec : AccumAlpha → Nat → M256 (Option ℚ)
  | .fp32 alpha, j => mm256LoaduPs alpha j
  | .bf16 alpha, j =>
    let tmp := mmLoaduSi128 alpha (2 * j)
    fun l => fp32Value (ymmCvtBf16Fp32 tmp l)
  | .f8 alpha, j =>
    let ebit := mm256CvtepiEpi32 (mmLoaduSi128 alpha j)
    let ebit := mm256AddEpi32 (mm256Set1Epi32 127) ebit
    fun l => fp32Value (mm256SlliEpi32 (lanes32 ebit) 23 l)

/-- The factor of the scalar epilogue at column `j`: `alpha[j]`, or `std::pow(2, alpha[j].x)`
for `utils::f8`. -/
def AccumAlpha.scalar : AccumAlpha → Nat → Option ℚ
  | .fp32 alpha, j => alpha j
  | .bf16 alpha, j => fp32Value (bf16Tofloat (bf16At alpha (2 * j)))
  | .f8 alpha, j => some (2 ^ int8Val (alpha j))

/-- `a * b + c` on float values, an infinity or a NaN (`none`) absorbing. -/
def fmaVal : Option ℚ → Option ℚ → Option ℚ → Option ℚ
  | some a, some b, some c => some (a * b + c)
  | _, _, _ => none

/-- `accum_alphaN_f32_f32<SCA_T>(alpha, srcptr, srcstep, dstptr, dststep, M, N)`. Each 8-column
chunk below `padto_le(N, 8)` loads its factors once and updates every row with
`_mm256_fmadd_ps`; the columns above go through the scalar `dstptr[…] += alpha * srcptr[…]`,
exact here, so `alpha * src + dst`. -/
def accumAlphaNF32F32 (alpha : AccumAlpha) (src : Buf (Option ℚ)) (srcstep : Nat)
    (dst : Buf (Option ℚ)) (dststep M N : Nat) : BtlaCode × Buf (Option ℚ) :=
  let vlen := 8
  let vN := padtoLe N vlen
  let dst := forLoop 0 vlen (tripCount 0 vN vlen) (fun j dst =>
    let valpha := alpha.vec j
    forLoop 0 1 M (fun i dst =>
      let vsrc := mm256LoaduPs src (i * srcstep + j)
      let vsrc1 := mm256LoaduPs dst (i * dststep + j)
      let vdst : M256 (Option ℚ) := fun l => fmaVal (valpha l) (vsrc l) (vsrc1 l)
      mm256StoreuPs dst (i * dststep + j) vdst) dst) dst
  let dst := forLoop vN 1 (tripCount vN N 1) (fun j dst =>
    forLoop 0 1 M (fun i dst =>
      dst.store (i * dststep + j) 1 fun _ =>
        fmaVal (alpha.scalar j) (src (i * srcstep + j)) (dst (i * dststep + j))) dst) dst
  (.success, dst)

/-- The factor the kernel applies at column `j < N`: lane `j % 8` of the chunk at `j / 8 * 8`
below `padto_le(N, 8)`, the epilogue's factor above. -/
def AccumAlpha.factorAt (alpha : AccumAlpha) (N j : Nat) : Option ℚ :=
  if j < padtoLe N 8 then alpha.vec (j / 8 * 8) (j % 8) else alpha.scalar j

/-- Every position of the window gets `fmaVal (factorAt N j) src dst`: each 8-column chunk's
row loop touches a position once, with the chunk's lane `j % 8`, and the epilogue touches each
column above `padto_le(N, 8)` once; nothing else is written. -/
theorem accumAlphaNF32F32_eq (alpha : AccumAlpha) (src : Buf (Option ℚ)) (srcstep : Nat)
    (dst : Buf (Option ℚ)) {dststep : Nat} (M N : Nat) (hN : N ≤ dststep) :
    accumAlphaNF32F32 alpha src srcstep dst dststep M N
      = (.success, dst.window dststep N M fun i j =>
          fmaVal (alpha.factorAt N j) (src (i * srcstep + j)) (dst (i * dststep + j))) := by
  refine Prod.ext rfl (funext fun t => ?_)
  have hvN : padtoLe N 8 ≤ N := padtoLe_le N 8
  have hdm : t / dststep * dststep + t % dststep = t := by
    rw [Nat.mul_comm]; exact Nat.div_add_mod t dststep
  simp only [accumAlphaNF32F32]
  rw [forLoop_apply t (g := fun j v => if t / dststep < M ∧ j ≤ t % dststep ∧ t % dststep < j + 1
      then fmaVal (alpha.scalar j) (src (t / dststep * srcstep + t % dststep)) v else v),
    forLoop_apply t (g := fun c v => if t / dststep < M ∧ c ≤ t % dststep ∧ t % dststep < c + 8
      then fmaVal (alpha.vec c (t % dststep - c)) (src (t / dststep * srcstep + t % dststep)) v
      else v),
    forLoop_chunks_ite (by norm_num), forLoop_chunks_ite (by norm_num), tripCount_one]
  · simp only [Buf.window, Nat.zero_add, Nat.zero_le, true_and, Nat.sub_zero, Nat.div_one,
      Nat.mul_one, hdm, AccumAlpha.factorAt, tripCount_padtoLe _ _ (by norm_num : 0 < 8)]
    simp only [padtoLe] at hvN ⊢
    generalize t / dststep = i
    generalize t % dststep = x
    rw [show N / 8 * 8 + (N - N / 8 * 8) = N by omega, show x - x / 8 * 8 = x % 8 by omega]
    by_cases hM : i < M
    · by_cases hx : x < N / 8 * 8
      · -- a column of the vector body
        simp only [hM, hx, show ¬ N / 8 * 8 ≤ x by omega, show x < N by omega, and_self, true_and,
          false_and, if_true, if_false]
      · -- a column of the epilogue, or one past the row
        simp only [hM, hx, show N / 8 * 8 ≤ x by omega, show N / 8 * 8 + (x - N / 8 * 8) = x by omega,
          true_and, and_false, if_true, if_false]
    · simp only [hM, false_and, if_false]
  · intro k y hk
    have hc : k * 8 + 8 ≤ dststep := by
      rw [tripCount_padtoLe N 8 (by norm_num)] at hk; omega
    refine (forLoop_rows_update_apply (h := fun i l v => fmaVal (alpha.vec (0 + k * 8) l)
      (src (i * srcstep + (0 + k * 8) + l)) v) (by omega) y t).trans ?_
    split_ifs with h
    · rw [show t / dststep * srcstep + (0 + k * 8) + (t % dststep - (0 + k * 8))
        = t / dststep * srcstep + t % dststep by omega]
    · rfl
  · intro k y hk
    rw [tripCount_one] at hk
    simp only [Buf.store_one_eq_update]
    refine (forLoop_rows_update_apply ?_ _ y t).trans ?_
    · omega
    · split_ifs with h
      · rw [show padtoLe N 8 + k * 1 = t % dststep by omega]
      · rfl

/-! ### The vector body's factors -/

/-- Whether the vector body's factor at column `j` is the epilogue's: always for floats and
brain floats, and for `utils::f8` when the exponent is at least `-126`. -/
def AccumAlpha.exactAt : AccumAlpha → Nat → Bool
  | .f8 alpha, j => decide (-126 ≤ int8Val (alpha j))
  | _, _ => true

/-- The vector body's `(127 + x) << 23` for an `int8_t` exponent `x`: `2^x` for `x ≥ -126`, but
zero for `x = -127`, whose exponent field is zero, and `-∞` for `x = -128`, where `127 + x = -1`
fills the exponent field and the sign with ones. -/
theorem fp32Value_f8Exponent {x : Int} (h1 : -128 ≤ x) (h2 : x ≤ 127) :
    fp32Value (BitVec.ofInt 32 (127 + x) <<< 23)
      = if x = -128 then none else if x = -127 then some 0 else some (2 ^ x) := by
  split_ifs with ha hb
  · subst ha; decide
  · subst hb
    rw [show BitVec.ofInt 32 (127 + -127) <<< 23 = 0#32 by decide]
    simp [fp32Value]
  · have hmod : (127 + x) % ((2 ^ 32 : Nat) : Int) = 127 + x := Int.emod_eq_of_lt (by omega) (by omega)
    have hbits : BitVec.ofInt 32 (127 + x) <<< 23 = BitVec.ofNat 32 ((127 + x).toNat * 2 ^ 23) := by
      apply BitVec.eq_of_toNat_eq
      rw [BitVec.toNat_shiftLeft, BitVec.toNat_ofInt, Nat.shiftLeft_eq, hmod, BitVec.toNat_ofNat]
    rw [hbits, fp32Value_pow_two (by omega) (by omega), Int.toNat_of_nonneg (by omega)]
    congr 2; ring

/-- Lane `l` of the `utils::f8` factor of the chunk at `c`. -/
theorem AccumAlpha.f8_vec_apply (alpha : Buf Byte) (c l : Nat) :
    (AccumAlpha.f8 alpha).vec c l = fp32Value (BitVec.ofInt 32 (127 + int8Val (alpha (c + l))) <<< 23) :=
  rfl

/-- Where it is exact, lane `l` of the chunk at `c` is the epilogue's factor at column `c + l`. -/
theorem AccumAlpha.vec_eq_scalar {alpha : AccumAlpha} {c l : Nat} (h : alpha.exactAt (c + l)) :
    alpha.vec c l = alpha.scalar (c + l) := by
  cases alpha with
  | fp32 alpha => exact mm256LoaduPs_apply alpha c l
  | bf16 alpha => simp only [AccumAlpha.vec, AccumAlpha.scalar, ymmCvtBf16Fp32_loadu, Nat.mul_add]
  | f8 alpha =>
    have hx : -126 ≤ int8Val (alpha (c + l)) := of_decide_eq_true h
    obtain ⟨h1, h2⟩ := int8Val_bounds (alpha (c + l))
    rw [AccumAlpha.f8_vec_apply, fp32Value_f8Exponent h1 h2, if_neg (by omega), if_neg (by omega)]
    rfl

/-- Every column whose chunk factor is exact gets the epilogue's factor. -/
theorem AccumAlpha.factorAt_eq_scalar {alpha : AccumAlpha} {N j : Nat}
    (h : j < padtoLe N 8 → alpha.exactAt j) : alpha.factorAt N j = alpha.scalar j := by
  unfold AccumAlpha.factorAt
  split_ifs with hj
  · have hdm : j / 8 * 8 + j % 8 = j := by omega
    rw [AccumAlpha.vec_eq_scalar (by rw [hdm]; exact h hj), hdm]
  · rfl

/-- Where the vector body's factors are exact, every position of the tile gets
`dst + a(alpha[j]) * src`, the epilogue's law, in the vector chunks and the tail alike. -/
theorem accumAlphaNF32F32_law (alpha : AccumAlpha) (src : Buf (Option ℚ)) (srcstep : Nat)
    (dst : Buf (Option ℚ)) {dststep M N : Nat} (hN : N ≤ dststep)
    (hα : ∀ j < padtoLe N 8, alpha.exactAt j) {i j : Nat} (hi : i < M) (hj : j < N) :
    (accumAlphaNF32F32 alpha src srcstep dst dststep M N).2 (i * dststep + j)
      = fmaVal (alpha.scalar j) (src (i * srcstep + j)) (dst (i * dststep + j)) := by
  rw [accumAlphaNF32F32_eq alpha src srcstep dst M N hN]
  dsimp only
  rw [Buf.window_apply _ hN _ hi hj,
    AccumAlpha.factorAt_eq_scalar (hα j)]

/-- A row of nine with the brain float one (`0x3f80`) as every factor: column 8 goes through the
epilogue. -/
theorem accumAlphaNF32F32_law_bf16_one :
    (∀ j < padtoLe 9 8, (AccumAlpha.bf16 fun t => byteOf (if t % 2 = 1 then 0x3f else 0x80)).exactAt j) ∧
    (accumAlphaNF32F32 (.bf16 fun t => byteOf (if t % 2 = 1 then 0x3f else 0x80)) (fun _ => some 3) 9
        (fun _ => some 1) 9 1 9).2 (0 * 9 + 8)
      = fmaVal ((AccumAlpha.bf16 fun t => byteOf (if t % 2 = 1 then 0x3f else 0x80)).scalar 8)
          (some 3) (some 1) :=
  ⟨by decide, accumAlphaNF32F32_law _ _ _ _ le_rfl (by decide) (by decide) (by decide)⟩

/-- `utils::f8` exponents `-128` (`0x80`) and `-127` (`0x81`) in columns 0 and 1: the vector
body's factors are `-∞` and zero, so the kernel writes a NaN (`-∞ * 1 + 0`) and `0`, where the
epilogue's `pow` gives `2^-128` and `2^-127`. -/
theorem accumAlphaNF32F32_f8_exponent_wraps :
    let alpha : AccumAlpha := .f8 fun t => byteOf (0x80 + t)
    let r := (accumAlphaNF32F32 alpha (fun _ => some 1) 8 (fun _ => some 0) 8 1 8).2
    (r (0 * 8 + 0) = none ∧ r (0 * 8 + 1) = some 0) ∧
    fmaVal (alpha.scalar 0) (some 1) (some 0) = some (2 ^ (-128 : Int)) ∧
    fmaVal (alpha.scalar 1) (some 1) (some 0) = some (2 ^ (-127 : Int)) := by
  simp only [accumAlphaNF32F32_eq _ _ _ _ _ _ (le_refl 8),
    Buf.window_apply _ le_rfl _ (by norm_num : 0 < 1) (by norm_num : 0 < 8),
    Buf.window_apply _ le_rfl _ (by norm_num : 0 < 1) (by norm_num : 1 < 8)]
  simp [AccumAlpha.factorAt, padtoLe, AccumAlpha.f8_vec_apply, AccumAlpha.scalar, int8Val,
    fp32Value, fmaVal]

end AccumAlpha

end NeuralSpeed
