import Mathlib.Data.Real.Sqrt
import Mathlib.Algebra.Order.Chebyshev
import Mathlib.Tactic.Positivity.Finset
import Mathlib.Algebra.EuclideanDomain.Field
import NeuralSpeed.Reduce

/-!
# Layer normalisation

`layernorm` normalises a row `x[0..norm_size)`. A first pass sums the row and its squares: eight
lanes at a time into `vmean` and `vmeansq` up to `norm_size8 = padto_le(norm_size, 8)`, folded
by `avx2_reduce_ps<ADD>`, then the tail one element at a time. From the sums it takes the mean
`mu` and the deviation `sigma = sqrt(mean_square / n - mu * mu + epsilon)`, without the `mu * mu`
in the `simplified` (RMS) variant. A second pass writes each normalised element, in one of five
loops chosen by `simplified`, `scaleptr` and `biasptr`. Each loop is an 8-lane body up to
`norm_size8` and a scalar tail, and the two orders of their products agree in exact arithmetic.

Values are taken in a linearly ordered field, and `std::sqrt` is a parameter. Only the last
result needs anything of it: that it is positive on positives.

* `layernormSums_eq` — the first pass computes the sum of the row and the sum of its squares.
  Every element is counted once, in a lane of the body or in the tail.
* `layernorm_spec` — for every row, epsilon and norm size, with or without a scale, a bias and
  the `simplified` flag, the kernel returns `Success` and writes
  `((x_h - mu) / sigma) * gamma_h + beta_h`, or `(x_h / sigma) * gamma_h` when simplified, at
  every `h < norm_size` and nothing beyond. `gamma` is `1` without a scale, and `beta` is applied
  only with both a scale and a bias in the non-simplified mode. `mu` and `sigma` go to the output
  pointers that are given, and the radicand is positive, so `sigma` is too.
-/

namespace NeuralSpeed

open Finset

variable {F : Type} [LinearOrderedField F]

/-! ## The kernel -/

/-- The first pass of `layernorm`, `(mean, mean_square)` before the division. The 8-lane body
adds each chunk below `norm_size8` into `vmean` and its squares into `vmeansq`,
`avx2_reduce_ps<ADD>` folds each register, and the scalar tail adds the remaining elements. -/
def layernormSums (src : Buf F) (normSize : Nat) : F × F :=
  let normSize8 := padtoLe normSize 8
  let v := forLoop 0 8 (tripCount 0 normSize8 8) (fun h (v : M256 F × M256 F) =>
    let tmp := mm256LoaduPs src h
    let vmean := mm256AddPs v.1 tmp
    let tmp := mm256MulPs tmp tmp
    (vmean, mm256AddPs v.2 tmp)) (mm256SetzeroPs, mm256SetzeroPs)
  forLoop normSize8 1 (tripCount normSize8 normSize 1) (fun h (s : F × F) =>
    (s.1 + src h, s.2 + src h * src h)) (avx2ReducePs .add v.1, avx2ReducePs .add v.2)

/-- One of the five output loops of `layernorm`. Its 8-lane body stores `vec h` at
`dstptr + h` below `norm_size8`, and its tail stores `scalar h`. -/
def layernormPass (vec : Nat → M256 F) (scalar : Nat → F) (normSize : Nat) (dst : Buf F) :
    Buf F :=
  let normSize8 := padtoLe normSize 8
  let dst := forLoop 0 8 (tripCount 0 normSize8 8) (fun h dst => mm256StoreuPs dst h (vec h)) dst
  forLoop normSize8 1 (tripCount normSize8 normSize 1)
    (fun h dst => dst.store h 1 fun _ => scalar h) dst

/-- What `layernorm` leaves behind. It returns its code and writes the row at `dstptr`, and
`*mean_out` and `*mean_square_out` when they are non-null. -/
structure LayernormResult (F : Type) where
  code : BtlaCode
  dst : Buf F
  meanOut : Option F
  meanSquareOut : Option F

/-- The second pass of `layernorm`, given `mean` and `inv_meansq = 1.f / mean_square`: the loop
that `simplified`, `scaleptr` and `biasptr` select. Without `simplified` the bias is used only
with a scale. -/
def layernormNormalize (src : Buf F) (scale bias : Option (Buf F)) (mean invMeansq : F)
    (normSize : Nat) (dst : Buf F) (simplified : Bool) : Buf F :=
  let vm := mm256Set1Ps mean
  let vms := mm256Set1Ps invMeansq
  match simplified, scale, bias with
  | true, some scale, _ =>
    layernormPass (fun h =>
      let inp := mm256LoaduPs src h
      let sc := mm256LoaduPs scale h
      let inp := mm256MulPs inp sc
      mm256MulPs inp vms) (fun h => src h * invMeansq * scale h) normSize dst
  | true, none, _ =>
    layernormPass (fun h =>
      let inp := mm256LoaduPs src h
      mm256MulPs inp vms) (fun h => src h * invMeansq) normSize dst
  | false, some scale, none =>
    layernormPass (fun h =>
      let inp := mm256LoaduPs src h
      let sc := mm256LoaduPs scale h
      let inp := mm256SubPs inp vm
      let inp := mm256MulPs inp sc
      mm256MulPs inp vms) (fun h => (src h - mean) * invMeansq * scale h) normSize dst
  | false, some scale, some bias =>
    layernormPass (fun h =>
      let inp := mm256LoaduPs src h
      let sc := mm256LoaduPs scale h
      let inp := mm256SubPs inp vm
      let inp := mm256MulPs inp vms
      let inp := mm256MulPs inp sc
      mm256AddPs inp (mm256LoaduPs bias h))
      (fun h => (src h - mean) * invMeansq * scale h + bias h) normSize dst
  | false, none, _ =>
    layernormPass (fun h =>
      let inp := mm256LoaduPs src h
      let inp := mm256SubPs inp vm
      mm256MulPs inp vms) (fun h => (src h - mean) * invMeansq) normSize dst

/-- `layernorm(srcptr, scaleptr, biasptr, epsilon, norm_size, dstptr, mean_out, mean_square_out,
simplified)`, with `std::sqrt` as `sqrt`. A null `scaleptr` or `biasptr` is `none`. `mean_out`
and `mean_square_out` are the floats they point to, `none` for a null pointer. -/
def layernorm (sqrt : F → F) (src : Buf F) (scale bias : Option (Buf F)) (epsilon : F)
    (normSize : Nat) (dst : Buf F) (meanOut meanSquareOut : Option F) (simplified : Bool) :
    LayernormResult F :=
  let sums := layernormSums src normSize
  let mean := sums.1 / normSize
  let meanSquare := if simplified then sqrt (sums.2 / normSize + epsilon)
    else sqrt (sums.2 / normSize - mean * mean + epsilon)
  let invMeansq := 1 / meanSquare
  let dst := layernormNormalize src scale bias mean invMeansq normSize dst simplified
  ⟨.success, dst, meanOut.map fun _ => mean, meanSquareOut.map fun _ => meanSquare⟩

/-! ## The specification -/

/-- `mu`, the mean of `x[0..n)`. -/
def lnMean (x : Buf F) (n : Nat) : F := 1 / n * ∑ h ∈ range n, x h

/-- The radicand of `sigma`: the mean square, less `mu^2` unless `simplified`, plus `epsilon`. -/
def lnRadicand (x : Buf F) (n : Nat) (epsilon : F) (simplified : Bool) : F :=
  if simplified then 1 / n * (∑ h ∈ range n, x h ^ 2) + epsilon
  else 1 / n * (∑ h ∈ range n, x h ^ 2) - lnMean x n ^ 2 + epsilon

/-- `gamma_h`: the scale, `1` when `scaleptr` is null. -/
def lnGamma : Option (Buf F) → Nat → F
  | some scale, h => scale h
  | none, _ => 1

/-- `beta_h`: the bias when it comes with a scale, `0` otherwise. -/
def lnBeta : Option (Buf F) → Option (Buf F) → Nat → F
  | some _, some bias, h => bias h
  | _, _, _ => 0

/-- The normalised element `h`: `((x_h - mu) / sigma) * gamma_h + beta_h`, or
`(x_h / sigma) * gamma_h` when simplified. -/
def lnOut (sqrt : F → F) (x : Buf F) (scale bias : Option (Buf F)) (epsilon : F) (n : Nat)
    (simplified : Bool) (h : Nat) : F :=
  let sigma := sqrt (lnRadicand x n epsilon simplified)
  if simplified then x h / sigma * lnGamma scale h
  else (x h - lnMean x n) / sigma * lnGamma scale h + lnBeta scale bias h

/-! ## The two passes -/

/-- A loop over 8-lane chunks whose iteration at `h` adds `v (h + l)` to lane `l` of a register
of its state, started from zero, holds the first `8k` values, which the sum reduction adds
up. -/
theorem avx2ReducePs_forLoop_lanes {σ : Type} {f : σ → M256 F} {v : Nat → F}
    {body : Nat → σ → σ} {x : σ} (k : Nat) (h0 : f x = fun _ => 0)
    (hstep : ∀ h y, f (body h y) = fun l => f y l + v (h + l)) :
    avx2ReducePs .add (f (forLoop 0 8 k body x)) = ∑ t ∈ range (k * 8), v t :=
  (forLoop_sum (f := fun y => avx2ReducePs .add (f y)) (c := 0)
    (by simp only [h0, avx2ReducePs_add, sum_const_zero]) fun j y _ => by
      simp only [hstep, avx2ReducePs_add, sum_add_distrib, Nat.zero_add]).trans (zero_add _)

/-- The first pass sums the row and its squares. The body's lane `l` collects the elements
`8k + l` below `norm_size8`, the reduction adds the lanes, and the tail adds the rest. -/
theorem layernormSums_eq (src : Buf F) (n : Nat) :
    layernormSums src n = (∑ h ∈ range n, src h, ∑ h ∈ range n, src h * src h) := by
  -- the tail continues a sum of `v` from `norm_size8` to `norm_size`
  have htail : ∀ (f : F × F → F) (v : Nat → F) (body : Nat → F × F → F × F) (x : F × F),
      f x = ∑ h ∈ range (padtoLe n 8), v h → (∀ h y, f (body h y) = f y + v h) →
      f (forLoop (padtoLe n 8) 1 (tripCount (padtoLe n 8) n 1) body x) = ∑ h ∈ range n, v h := by
    intro f v body x h0 hstep
    rw [forLoop_sum (v := fun t => v (padtoLe n 8 + t)) h0 fun k y _ => by simp [hstep],
      tripCount_one, Nat.mul_one, ← sum_range_add, padtoLe_add_sub]
  have h8 : tripCount 0 (padtoLe n 8) 8 * 8 = padtoLe n 8 := by
    rw [tripCount_padtoLe _ _ (by norm_num)]; rfl
  simp only [layernormSums]
  refine Prod.ext (htail Prod.fst src _ _ ?_ fun h y => rfl)
    (htail Prod.snd (fun t => src t * src t) _ _ ?_ fun h y => rfl)
  · exact (avx2ReducePs_forLoop_lanes (f := Prod.fst) _ rfl fun h y => rfl).trans (by rw [h8])
  · exact (avx2ReducePs_forLoop_lanes (f := Prod.snd) (v := fun t => src t * src t) _ rfl
      fun h y => rfl).trans (by rw [h8])

omit [LinearOrderedField F] in
/-- An output loop whose body's lanes agree with its tail stores the tail's values at
`0, …, norm_size - 1`. -/
theorem layernormPass_eq {vec : Nat → M256 F} {scalar : Nat → F}
    (hvec : ∀ h l, l < 8 → vec h l = scalar (h + l)) (n : Nat) (dst : Buf F) :
    layernormPass vec scalar n dst = dst.store 0 n scalar := by
  simp only [layernormPass, mm256StoreuPs]
  rw [forLoop_congr (g := fun h d => d.store h 8 fun l => scalar (h + l))
    (fun h d _ => Buf.store_congr d _ 8 fun l hl => hvec _ l hl) dst]
  simpa only [Nat.zero_add] using row_store dst 0 n scalar

/-- The one-pass variance `(1/n) Σ x² - mu²` is nonnegative. -/
theorem lnMean_sq_le (x : Buf F) (n : Nat) :
    lnMean x n ^ 2 ≤ 1 / n * ∑ h ∈ range n, x h ^ 2 := by
  rcases Nat.eq_zero_or_pos n with rfl | hn
  · simp [lnMean]
  have hn' : (0 : F) < n := Nat.cast_pos.mpr hn
  have hcs : (∑ h ∈ range n, x h) ^ 2 ≤ n * ∑ h ∈ range n, x h ^ 2 := by
    simpa using sq_sum_le_card_mul_sum_sq (s := range n) (f := x)
  calc lnMean x n ^ 2 = (∑ h ∈ range n, x h) ^ 2 / n ^ 2 := by rw [lnMean]; ring
    _ ≤ n * (∑ h ∈ range n, x h ^ 2) / n ^ 2 := div_le_div_of_nonneg_right hcs (by positivity)
    _ = 1 / n * ∑ h ∈ range n, x h ^ 2 := by rw [sq, mul_div_mul_left _ _ hn'.ne', one_div_mul_eq_div]

/-- The radicand is positive for every row and every positive `epsilon`. -/
theorem lnRadicand_pos (x : Buf F) (n : Nat) {epsilon : F} (heps : 0 < epsilon)
    (simplified : Bool) : 0 < lnRadicand x n epsilon simplified := by
  cases simplified
  · exact add_pos_of_nonneg_of_pos (sub_nonneg.mpr (lnMean_sq_le x n)) heps
  · exact add_pos_of_nonneg_of_pos (by positivity) heps

/-- The mean the kernel divides out is `mu`. -/
theorem layernormSums_mean (src : Buf F) (n : Nat) : (layernormSums src n).1 / n = lnMean src n := by
  rw [layernormSums_eq, lnMean]; ring

/-- The deviation the kernel takes, in either mode, is the square root of the radicand. -/
theorem layernormSums_sigma (sqrt : F → F) (src : Buf F) (n : Nat) (epsilon : F)
    (simplified : Bool) :
    (if simplified then sqrt ((layernormSums src n).2 / n + epsilon)
      else sqrt ((layernormSums src n).2 / n - lnMean src n * lnMean src n + epsilon))
        = sqrt (lnRadicand src n epsilon simplified) := by
  cases simplified <;>
    simp only [lnRadicand, layernormSums_eq, Bool.false_eq_true, if_true, if_false, sq] <;>
    congr 1 <;> ring

/-- The second pass writes `lnOut` at `0, …, norm_size - 1`: in each of the five loops the
body's lanes and the tail compute the same product. -/
theorem layernorm_dst (sqrt : F → F) (src : Buf F) (scale bias : Option (Buf F)) (epsilon : F)
    (n : Nat) (dst : Buf F) (meanOut meanSquareOut : Option F) (simplified : Bool) :
    (layernorm sqrt src scale bias epsilon n dst meanOut meanSquareOut simplified).dst
      = dst.store 0 n (lnOut sqrt src scale bias epsilon n simplified) := by
  simp only [layernorm, layernormSums_mean, layernormSums_sigma]
  cases simplified <;> rcases scale with _ | scale <;> rcases bias with _ | bias <;>
    refine (layernormPass_eq (fun h l _ => ?_) n dst).trans (Buf.store_congr _ _ _ fun h _ => ?_) <;>
    simp only [layernormNormalize, lnOut, lnGamma, lnBeta, mm256MulPs_apply, mm256SubPs_apply,
      mm256AddPs_apply, mm256LoaduPs_apply, mm256Set1Ps_apply, if_true, if_false,
      Bool.false_eq_true] <;> ring

/-- **`layernorm` normalises its row.** For every `norm_size ≥ 1` it returns `Success`, writes
the normalised element at every `h < norm_size` and nothing beyond, and stores `mu` and `sigma` through the output
pointers that are given. The radicand is positive, so `sigma` is positive for a square root
that is positive on positives, and `1 / sigma` divides by no zero. -/
theorem layernorm_spec (sqrt : F → F) (hsqrt : ∀ a, 0 < a → 0 < sqrt a) (src : Buf F)
    (scale bias : Option (Buf F)) {epsilon : F} (heps : 0 < epsilon) (n : Nat) (_hn : 0 < n)
    (dst : Buf F) (meanOut meanSquareOut : Option F) (simplified : Bool) :
    let r := layernorm sqrt src scale bias epsilon n dst meanOut meanSquareOut simplified
    r.code = .success ∧
    (∀ h, h < n → r.dst h = lnOut sqrt src scale bias epsilon n simplified h) ∧
    (∀ t, n ≤ t → r.dst t = dst t) ∧
    r.meanOut = meanOut.map (fun _ => lnMean src n) ∧
    r.meanSquareOut = meanSquareOut.map (fun _ => sqrt (lnRadicand src n epsilon simplified)) ∧
    0 < lnRadicand src n epsilon simplified ∧ 0 < sqrt (lnRadicand src n epsilon simplified) := by
  have hpos := lnRadicand_pos src n heps simplified
  refine ⟨rfl, fun h hh => ?_, fun t ht => ?_, ?_, ?_, hpos, hsqrt _ hpos⟩
  · simpa only [Nat.zero_add, layernorm_dst] using Buf.store_apply_add dst 0 n _ hh
  · rw [layernorm_dst, Buf.store_apply_of_ge _ _ _ _ (by omega)]
  · simp only [layernorm, layernormSums_mean]
  · simp only [layernorm, layernormSums_mean, layernormSums_sigma]

/-- The row `0, 1, …, 8` (one chunk and a tail of one) over the reals, without a scale and with
`epsilon = 1`: `mu = 4`, the radicand is `204 / 9 - 16 + 1 = 23 / 3`, and the tail element
`8` becomes `4 / sqrt(23 / 3)`. -/
theorem layernorm_spec_row_of_nine :
    let r := layernorm Real.sqrt (fun h => (h : ℝ)) none none 1 9 (fun _ => 0) (some 0) none false
    r.meanOut = some 4 ∧ r.dst 8 = 4 / Real.sqrt (23 / 3) ∧ 0 < Real.sqrt (23 / 3) := by
  obtain ⟨-, hdst, -, hmean, -, hrad, hsigma⟩ := layernorm_spec Real.sqrt
    (fun a ha => Real.sqrt_pos.mpr ha) (fun h => (h : ℝ)) none none one_pos 9 (by norm_num) (fun _ => 0)
    (some 0) none false
  have hmu : lnMean (fun h => (h : ℝ)) 9 = 4 := by norm_num [lnMean, sum_range_succ]
  have hr : lnRadicand (fun h => (h : ℝ)) 9 1 false = 23 / 3 := by
    norm_num [lnRadicand, hmu, sum_range_succ]
  refine ⟨by rw [hmean, hmu]; rfl, ?_, by rwa [hr] at hsigma⟩
  rw [hdst 8 (by norm_num)]
  norm_num [lnOut, hr, hmu, lnGamma, lnBeta]

end NeuralSpeed
