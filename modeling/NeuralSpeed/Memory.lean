import Mathlib.Order.Basic
import Mathlib.Tactic.Ring

/-!
# Buffers, loops and return codes

Every kernel of `kernel_avx2.h` reads and writes flat buffers through pointer offsets, and runs
C `for` loops whose trip counts follow from their bounds. This module fixes the pieces the kernel
models share.

* A buffer is a function `Nat → α` from element offset to value. `Buf.store b p n v` writes the
  run `v 0, …, v (n-1)` at offsets `p, …, p+n-1`: a scalar store is a run of one, an
  `_mm256_storeu_ps` a run of eight.
* `forLoop a s n body` runs `body a`, `body (a+s)`, … for `n` iterations, and
  `tripCount a b s` is the number of iterations of `for (i = a; i < b; i += s)`.
* `BtlaCode` is the part of `BTLA_CODE` the kernels return.

The workhorse is `forLoop_store`: a loop whose iterations store consecutive chunks of one value
function is a single store of the whole run. The vector body and the scalar epilogue of a kernel
row are two such loops, and `store_store_append` joins them.

Offsets are unbounded naturals: the kernels' `int` offsets stay inside the caller's buffers, so
no offset wraps.
-/

namespace NeuralSpeed

/-- The return codes the kernels of `kernel_avx2.h` use. -/
inductive BtlaCode where
  | success
  | notSupport
  deriving DecidableEq, Repr

/-- Modelled from the spec: `utils::padto_le` of `bestla_utils.h`, not under src/. It is the
last SIMD-aligned boundary at or below `x`, where in the spec's words the tail elements leave the
vector body for the scalar epilogue: `x` rounded down to a multiple of `n`. -/
def padtoLe (x n : Nat) : Nat := x / n * n

/-- Modelled from the spec: `utils::updiv` of `bestla_utils.h`, not under src/: the number of
`n`-element blocks that cover `x` elements, `x / n` rounded up. -/
def updiv (x n : Nat) : Nat := (x + n - 1) / n

theorem padtoLe_le (x n : Nat) : padtoLe x n ≤ x := Nat.div_mul_le_self x n

theorem updiv_of_mod_eq_zero {x n : Nat} (h : x % n = 0) : updiv x n = x / n := by
  rcases Nat.eq_zero_or_pos n with rfl | hn
  · simp [updiv]
  · have := Nat.div_add_mod' x n
    exact Nat.div_eq_of_lt_le (by omega) (by rw [Nat.add_mul, Nat.one_mul]; omega)

/-- A column `< x` lies in one of the `updiv(x, n)` blocks. -/
theorem div_lt_updiv {c x n : Nat} (hn : 0 < n) (hc : c < x) : c / n < updiv x n := by
  have := Nat.div_mul_le_self c n
  exact (Nat.le_div_iff_mul_le hn).2 (by rw [Nat.succ_mul]; omega)

theorem updiv_of_mod_pos {x n : Nat} (hn : 0 < n) (h : 0 < x % n) : updiv x n = x / n + 1 := by
  have := Nat.div_add_mod' x n
  have := Nat.mod_lt x hn
  refine Nat.div_eq_of_lt_le ?_ ?_ <;> simp only [Nat.add_mul, Nat.one_mul] <;> omega

theorem padtoLe_add_mod (x n : Nat) : padtoLe x n + x % n = x := by
  rw [padtoLe, Nat.mul_comm]; exact Nat.div_add_mod x n

theorem padtoLe_add_sub (x n : Nat) : padtoLe x n + (x - padtoLe x n) = x :=
  Nat.add_sub_cancel' (padtoLe_le x n)

/-- Row `r`, column `c` of a row-major layout with `n` columns. -/
theorem row_col_div_mod {r c n : Nat} (hc : c < n) : (r * n + c) / n = r ∧ (r * n + c) % n = c := by
  have hn : 0 < n := by omega
  rw [Nat.mul_comm, Nat.mul_add_div hn, Nat.mul_add_mod, Nat.div_eq_of_lt hc, Nat.mod_eq_of_lt hc]
  exact ⟨rfl, rfl⟩

/-- Position `(i, j)` of a row-major `row × col` layout lies before its end. -/
theorem row_col_lt {i j row col : Nat} (hi : i < row) (hj : j < col) : i * col + j < row * col := by
  have h := Nat.mul_le_mul_right col (Nat.succ_le_of_lt hi)
  rw [Nat.succ_mul] at h
  omega

/-- Moving `d` rows forward from `x` stays in the same `k`-block while `x % k + d < k`. -/
theorem div_eq_of_mod_add_lt {x d k : Nat} (h : x % k + d < k) : (x + d) / k = x / k := by
  have hk : 0 < k := by omega
  conv_lhs => rw [← Nat.mod_add_div x k]
  rw [Nat.add_right_comm, Nat.add_comm, Nat.mul_add_div hk, Nat.div_eq_of_lt h, Nat.add_zero]

/-! ## Buffers -/

/-- A flat buffer: the value at each element offset. -/
abbrev Buf (α : Type) := Nat → α

namespace Buf

variable {α : Type}

/-- Write `v 0, …, v (n-1)` at offsets `p, …, p+n-1`. -/
def store (b : Buf α) (p n : Nat) (v : Nat → α) : Buf α :=
  fun t => if p ≤ t ∧ t < p + n then v (t - p) else b t

theorem store_apply (b : Buf α) (p n : Nat) (v : Nat → α) (t : Nat) :
    b.store p n v t = if p ≤ t ∧ t < p + n then v (t - p) else b t := rfl

@[simp] theorem store_apply_add (b : Buf α) (p n : Nat) (v : Nat → α) {k : Nat} (hk : k < n) :
    b.store p n v (p + k) = v k := by
  simp [store, hk]

theorem store_apply_of_lt (b : Buf α) (p n : Nat) (v : Nat → α) {t : Nat} (h : t < p) :
    b.store p n v t = b t :=
  if_neg (by omega)

theorem store_apply_of_ge (b : Buf α) (p n : Nat) (v : Nat → α) {t : Nat} (h : p + n ≤ t) :
    b.store p n v t = b t :=
  if_neg (by omega)

theorem store_congr (b : Buf α) (p n : Nat) {v w : Nat → α} (h : ∀ k, k < n → v k = w k) :
    b.store p n v = b.store p n w := by
  funext t
  simp only [store]
  split_ifs with ht
  · exact h _ (by omega)
  · rfl

@[simp] theorem store_zero (b : Buf α) (p : Nat) (v : Nat → α) : b.store p 0 v = b := by
  funext t; simp [store]

/-- Two adjacent runs of one value function are one run. -/
theorem store_store_append (b : Buf α) (p m n : Nat) (v : Nat → α) :
    (b.store p m v).store (p + m) n (fun k => v (m + k)) = b.store p (m + n) v := by
  funext t
  simp only [store]
  by_cases h1 : p + m ≤ t ∧ t < p + m + n
  · rw [if_pos h1, if_pos (by omega)]; congr 1; omega
  · rw [if_neg h1]; split_ifs <;> first | rfl | omega

/-- A store that covers a point overrides any earlier store at it. -/
theorem store_store_of_covers (b : Buf α) (p n q m : Nat) (v w : Nat → α)
    (h : p ≤ q) (h' : q + m ≤ p + n) :
    ((b.store q m w).store p n v) = b.store p n v := by
  funext t
  simp only [store]
  split_ifs <;> first | rfl | omega

/-- A read-modify-write of `n` elements at `p`, as `x[p + k] -= …` or a load, an update and a
store of the same chunk do it: element `p + k` becomes `f k` of its old value. -/
def update (b : Buf α) (p n : Nat) (f : Nat → α → α) : Buf α :=
  b.store p n fun k => f k (b (p + k))

theorem update_congr (b : Buf α) (p n : Nat) {f g : Nat → α → α}
    (h : ∀ k x, k < n → f k x = g k x) : b.update p n f = b.update p n g :=
  store_congr b p n fun k hk => h k _ hk

theorem update_apply (b : Buf α) (p n : Nat) (f : Nat → α → α) (t : Nat) :
    b.update p n f t = if p ≤ t ∧ t < p + n then f (t - p) (b t) else b t := by
  simp only [update, store]
  split_ifs with h
  · rw [Nat.add_sub_cancel' h.1]
  · rfl

/-- A scalar `x[p] = g(x[p])` is a read-modify-write of one element. -/
theorem store_one_eq_update (b : Buf α) (p : Nat) (g : α → α) :
    b.store p 1 (fun _ => g (b p)) = b.update p 1 fun _ => g :=
  store_congr b p 1 fun k hk => by rw [show k = 0 by omega, Nat.add_zero]

/-- Two adjacent read-modify-writes of one update function are one. -/
theorem update_update_append (b : Buf α) (p m n : Nat) (f : Nat → α → α) :
    (b.update p m f).update (p + m) n (fun k => f (m + k)) = b.update p (m + n) f := by
  simp only [update]
  rw [← store_store_append]
  exact store_congr _ _ _ fun k _ => by rw [store_apply_of_ge _ _ _ _ (by omega), Nat.add_assoc]

/-- Successive read-modify-writes of one element compose. -/
theorem update_update_one (b : Buf α) (p : Nat) (f g : Nat → α → α) :
    (b.update p 1 f).update p 1 g = b.update p 1 fun k x => g k (f k x) := by
  funext t
  simp only [update, store]
  split_ifs <;> simp_all

end Buf

/-! ## Loops -/

section Loops

variable {σ : Type}

/-- `for (i = a; …; i += s) body` run for `n` iterations: `body a`, then `body (a + s)`, …. -/
def forLoop (a s : Nat) : Nat → (Nat → σ → σ) → σ → σ
  | 0, _, x => x
  | n + 1, body, x => forLoop (a + s) s n body (body a x)

/-- The number of iterations of `for (i = a; i < b; i += s)` when `0 < s`. -/
def tripCount (a b s : Nat) : Nat := (b - a + s - 1) / s

/-- The value of `i` after `for (; i < b; i += s)` from `i = a`. -/
def forExit (a b s : Nat) : Nat := a + tripCount a b s * s

@[simp] theorem forLoop_zero (a s : Nat) (body : Nat → σ → σ) (x : σ) :
    forLoop a s 0 body x = x := rfl

theorem forLoop_succ (a s n : Nat) (body : Nat → σ → σ) (x : σ) :
    forLoop a s (n + 1) body x = forLoop (a + s) s n body (body a x) := rfl

/-- The last iteration peeled off the end. -/
theorem forLoop_succ_last (a s n : Nat) (body : Nat → σ → σ) (x : σ) :
    forLoop a s (n + 1) body x = body (a + n * s) (forLoop a s n body x) := by
  induction n generalizing a x with
  | zero => simp [forLoop]
  | succ n ih =>
    rw [forLoop_succ, ih, forLoop_succ]
    congr 1; ring

/-- The loop invariant principle: `P k` holds after `k` iterations. -/
theorem forLoop_inv {P : Nat → σ → Prop} {a s n : Nat} {body : Nat → σ → σ} {x : σ}
    (h0 : P 0 x) (hstep : ∀ k y, k < n → P k y → P (k + 1) (body (a + k * s) y)) :
    P n (forLoop a s n body x) := by
  induction n with
  | zero => exact h0
  | succ n ih =>
    rw [forLoop_succ_last]
    exact hstep n _ (Nat.lt_succ_self n) (ih fun k y hk => hstep k y (by omega))

/-- A loop whose every iteration moves an observation `f` of the state from `spec i` to
`spec (i + s)`, `i` being the loop variable, moves it from `spec a` to `spec (a + n * s)`. -/
theorem forLoop_progress {β : Type} {f : σ → β} {p : Nat → β} {a s n : Nat}
    {b : Nat → σ → σ} {x : σ} (h0 : f x = p a)
    (hstep : ∀ k y, k < n → f y = p (a + k * s) → f (b (a + k * s) y) = p (a + k * s + s)) :
    f (forLoop a s n b x) = p (a + n * s) :=
  forLoop_inv (P := fun k y => f y = p (a + k * s)) (by simpa using h0) fun k y hk hy => by
    show f _ = _
    rw [hstep k y hk hy, Nat.succ_mul, Nat.add_assoc]

/-- A loop whose iterations update consecutive `s`-element chunks with one update function `f`
is one update of `n * s` elements. -/
theorem forLoop_update {α : Type} (b : Buf α) (off a s n : Nat) (f : Nat → α → α) :
    forLoop a s n (fun i b => b.update (off + i) s (fun l => f (i + l))) b
      = b.update (off + a) (n * s) (fun t => f (a + t)) := by
  induction n generalizing b with
  | zero => simp [Buf.update]
  | succ n ih =>
    rw [forLoop_succ_last, ih, Nat.succ_mul]
    have h := Buf.update_update_append b (off + a) (n * s) s (fun t => f (a + t))
    simp only [Nat.add_assoc] at h ⊢
    rw [← h]

/-- A loop that stores consecutive `s`-element chunks of one value function `v` is one store of
`n * s` elements. -/
theorem forLoop_store {α : Type} (b : Buf α) (off a s n : Nat) (v : Nat → α) :
    forLoop a s n (fun i b => b.store (off + i) s (fun l => v (i + l))) b
      = b.store (off + a) (n * s) (fun t => v (a + t)) :=
  forLoop_update b off a s n fun t _ => v t

/-- The same with the loop counting chunks (`iv++`) and the chunk at `off + iv * s`. -/
theorem forLoop_store_chunks {α : Type} (b : Buf α) (off a s n : Nat) (v : Nat → α) :
    forLoop a 1 n (fun i b => b.store (off + i * s) s (fun l => v (i * s + l))) b
      = b.store (off + a * s) (n * s) (fun t => v (a * s + t)) := by
  induction n generalizing b with
  | zero => simp
  | succ n ih =>
    rw [forLoop_succ_last, ih, Nat.succ_mul]
    have h := Buf.store_store_append b (off + a * s) (n * s) s (fun t => v (a * s + t))
    simp only [Nat.add_assoc, Nat.mul_one, Nat.add_mul] at h ⊢
    rw [← h]

/-- Loops whose bodies agree at every value the loop variable takes are equal. -/
theorem forLoop_congr {a s n : Nat} {f g : Nat → σ → σ}
    (h : ∀ k x, k < n → f (a + k * s) x = g (a + k * s) x) (x : σ) :
    forLoop a s n f x = forLoop a s n g x := by
  induction n generalizing x with
  | zero => rfl
  | succ n ih =>
    rw [forLoop_succ_last, forLoop_succ_last, ih (fun k x hk => h k x (by omega)), h n _ (by omega)]

/-- An observation `f` of the state that each iteration moves by `g`, whatever else the state
holds, is moved by the loop of `g`s. -/
theorem forLoop_map {β : Type} (f : σ → β) {a s n : Nat} {body : Nat → σ → σ} {g : Nat → β → β}
    (h : ∀ k y, k < n → f (body (a + k * s) y) = g (a + k * s) (f y)) (x : σ) :
    f (forLoop a s n body x) = forLoop a s n g (f x) := by
  induction n with
  | zero => rfl
  | succ n ih =>
    rw [forLoop_succ_last, forLoop_succ_last, h n _ (by omega), ih fun k y hk => h k y (by omega)]

/-- A loop of `m + n` iterations is `m` of them, then `n` more from where they stopped. -/
theorem forLoop_add (a s m n : Nat) (body : Nat → σ → σ) (x : σ) :
    forLoop a s (m + n) body x = forLoop (a + m * s) s n body (forLoop a s m body x) := by
  induction m generalizing a x with
  | zero => simp
  | succ m ih =>
    rw [Nat.succ_add, forLoop_succ, forLoop_succ, ih, Nat.succ_mul, Nat.add_comm (m * s) s,
      Nat.add_assoc]

/-- A loop whose iteration at `j` does what `g` does at `e * j` is the loop of `g` over the
scaled range: a loop over elements of `e` units is a loop over units. -/
theorem forLoop_scale {a s n : Nat} {body g : Nat → σ → σ} (e : Nat)
    (h : ∀ k, k < n → body (a + k * s) = g (e * a + k * (e * s))) (x : σ) :
    forLoop a s n body x = forLoop (e * a) (e * s) n g x := by
  induction n generalizing x with
  | zero => rfl
  | succ n ih =>
    rw [forLoop_succ_last, forLoop_succ_last, ih (fun k hk => h k (by omega)), h n (by omega)]

theorem tripCount_mul (a n s : Nat) (hs : 0 < s) : tripCount a (a + n * s) s = n := by
  rw [tripCount, Nat.add_sub_cancel_left, Nat.add_sub_assoc hs, Nat.mul_comm,
    Nat.mul_add_div hs, Nat.div_eq_of_lt (by omega), Nat.add_zero]

/-- A loop from `a` to a bound `b` a whole number of steps away exits at `b`. -/
theorem forExit_of_mod {a b s : Nat} (hs : 0 < s) (hab : a ≤ b) (h : (b - a) % s = 0) :
    forExit a b s = b := by
  obtain ⟨n, rfl⟩ : ∃ n, b = a + n * s :=
    ⟨(b - a) / s, by have := Nat.div_add_mod' (b - a) s; omega⟩
  rw [forExit, tripCount_mul _ _ _ hs]

theorem tripCount_of_le (a b s : Nat) (hs : 0 < s) (h : b ≤ a) : tripCount a b s = 0 := by
  rw [tripCount, Nat.sub_eq_zero_of_le h, Nat.zero_add, Nat.div_eq_of_lt (by omega)]

theorem tripCount_one (a b : Nat) : tripCount a b 1 = b - a := by simp [tripCount]

theorem tripCount_padtoLe (x s : Nat) (hs : 0 < s) : tripCount 0 (padtoLe x s) s = x / s := by
  rw [padtoLe, ← Nat.zero_add (x / s * s)]; exact tripCount_mul 0 _ _ hs

/-- A row updated by a `w`-wide vector body up to a multiple `c ≤ col` of `w` and a scalar
epilogue after it, both applying the update `f`, is one update of `col` elements. -/
theorem row_update_at {α : Type} (d : Buf α) (base col w c : Nat) (hw : 0 < w) (hcw : c % w = 0)
    (hc : c ≤ col) (f : Nat → α → α) :
    forLoop c 1 (tripCount c col 1) (fun j d => d.update (base + j) 1 fun _ => f j)
        (forLoop 0 w (tripCount 0 c w) (fun j d => d.update (base + j) w fun l => f (j + l)) d)
      = d.update base col f := by
  have hcw' : c / w * w = c := Nat.div_mul_cancel (Nat.dvd_of_mod_eq_zero hcw)
  have htc : tripCount 0 c w = c / w := by
    conv_lhs => rw [← hcw', ← Nat.zero_add (c / w * w)]
    exact tripCount_mul 0 _ _ hw
  have hv := forLoop_update d base 0 w (c / w) f
  have he := forLoop_update (d.update base c f) base c 1 (col - c) f
  rw [hcw'] at hv
  simp only [Nat.zero_add, Nat.add_zero, Nat.mul_one] at hv he
  rw [htc, hv, tripCount_one,
    forLoop_congr (g := fun i b => b.update (base + i) 1 fun l => f (i + l)) (fun k x hk => by
      apply Buf.update_congr; intro l _ hl; rw [show l = 0 by omega, Nat.add_zero]), he,
    Buf.update_update_append, Nat.add_sub_cancel' hc]

/-- The same with the vector body up to `padto_le(col, 8)`. -/
theorem row_update {α : Type} (d : Buf α) (base col : Nat) (f : Nat → α → α) :
    forLoop (padtoLe col 8) 1 (tripCount (padtoLe col 8) col 1)
        (fun j d => d.update (base + j) 1 fun _ => f j)
        (forLoop 0 8 (tripCount 0 (padtoLe col 8) 8) (fun j d => d.update (base + j) 8 fun l => f (j + l)) d)
      = d.update base col f :=
  row_update_at d base col 8 _ (by norm_num) (Nat.mul_mod_left _ _) (padtoLe_le _ _) f

/-- A row the `w`-wide vector body (up to a multiple `c ≤ col` of `w`) and the epilogue store
the values `v` in is one store of `col` elements. -/
theorem row_store_at {α : Type} (d : Buf α) (base col w c : Nat) (hw : 0 < w) (hcw : c % w = 0)
    (hc : c ≤ col) (v : Nat → α) :
    forLoop c 1 (tripCount c col 1) (fun j d => d.store (base + j) 1 fun _ => v j)
        (forLoop 0 w (tripCount 0 c w) (fun j d => d.store (base + j) w fun l => v (j + l)) d)
      = d.store base col v :=
  row_update_at d base col w c hw hcw hc fun j _ => v j

/-- The same for a row the vector body and the epilogue store the values `v` in. -/
theorem row_store {α : Type} (d : Buf α) (base col : Nat) (v : Nat → α) :
    forLoop (padtoLe col 8) 1 (tripCount (padtoLe col 8) col 1)
        (fun j d => d.store (base + j) 1 fun _ => v j)
        (forLoop 0 8 (tripCount 0 (padtoLe col 8) 8) (fun j d => d.store (base + j) 8 fun l => v (j + l)) d)
      = d.store base col v :=
  row_update d base col fun j _ => v j

/-- A row of `col` elements of `e` units each, stored by an 8-wide body up to `col / 8 * 8` and
a scalar tail after it, both storing the units `u` of the row: one store of `e * col` units. -/
theorem row_store_scaled {α : Type} {body tail : Nat → Buf α → Buf α} (d : Buf α)
    (base col e : Nat) (u : Nat → α)
    (hbody : ∀ k d, k < col / 8 →
      body (0 + k * 8) d = d.store (base + e * (k * 8)) (e * 8) fun t => u (e * (k * 8) + t))
    (htail : ∀ k d, k < col - col / 8 * 8 →
      tail (col / 8 * 8 + k * 1) d
        = d.store (base + e * (col / 8 * 8 + k)) e fun t => u (e * (col / 8 * 8 + k) + t)) :
    forLoop (col / 8 * 8) 1 (tripCount (col / 8 * 8) col 1) tail
      (forLoop 0 8 (tripCount 0 (col / 8 * 8) 8) body d) = d.store base (e * col) u := by
  have hc : col / 8 * 8 ≤ col := Nat.div_mul_le_self col 8
  have hvec : forLoop 0 8 (tripCount 0 (col / 8 * 8) 8) body d
      = d.store base (e * (col / 8 * 8)) u := by
    have hv : tripCount 0 (col / 8 * 8) 8 = col / 8 := tripCount_padtoLe col 8 (by norm_num)
    rw [hv,
      forLoop_scale e (g := fun j d => d.store (base + j) (e * 8) fun t => u (j + t))
        (fun k hk => funext fun d => by
          rw [hbody k d hk, show e * 0 + k * (e * 8) = e * (k * 8) by ring]) d,
      forLoop_store, Nat.mul_zero, Nat.add_zero, show col / 8 * (e * 8) = e * (col / 8 * 8) by ring]
    simp only [Nat.zero_add]
  have htail' : ∀ d', forLoop (col / 8 * 8) 1 (tripCount (col / 8 * 8) col 1) tail d'
      = d'.store (base + e * (col / 8 * 8)) (e * (col - col / 8 * 8))
          fun t => u (e * (col / 8 * 8) + t) := fun d' => by
    rw [tripCount_one,
      forLoop_scale e (g := fun j d => d.store (base + j) e fun t => u (j + t))
        (fun k hk => funext fun d => by
          rw [htail k d hk, show e * (col / 8 * 8) + k * (e * 1) = e * (col / 8 * 8 + k) by ring]) d',
      Nat.mul_one, forLoop_store, Nat.mul_comm (col - col / 8 * 8) e]
  rw [hvec, htail', Buf.store_store_append, ← Nat.mul_add, Nat.add_sub_cancel' hc]

end Loops

/-! ## Row-major windows

Most kernels write a `row × col` window of a row-major buffer with stride `ld ≥ col`, one row
per iteration of their outer loop. `Buf.window b ld col k v` is the buffer once rows `< k` hold
`v i j`: every position `i * ld + j` with `i < k` and `j < col` holds `v i j`, every other
position its contents in `b`. -/

namespace Buf

variable {α : Type}

/-- `b` with rows `< k` of the window with stride `ld` and `col` columns set to `v`. -/
def window (b : Buf α) (ld col k : Nat) (v : Nat → Nat → α) : Buf α :=
  fun t => if t / ld < k ∧ t % ld < col then v (t / ld) (t % ld) else b t

@[simp] theorem window_zero (b : Buf α) (ld col : Nat) (v : Nat → Nat → α) :
    b.window ld col 0 v = b := by
  funext t; simp [window]

/-- Writing row `k` extends the window by one row. -/
theorem window_store_row (b : Buf α) {ld col : Nat} (hcol : col ≤ ld) (k : Nat)
    (v : Nat → Nat → α) :
    (b.window ld col k v).store (k * ld) col (v k) = b.window ld col (k + 1) v := by
  funext t
  simp only [store, window]
  by_cases ht : k * ld ≤ t ∧ t < k * ld + col
  · obtain ⟨hd, hm⟩ := row_col_div_mod (r := k) (c := t - k * ld) (n := ld) (by omega)
    rw [Nat.add_sub_cancel' ht.1] at hd hm
    rw [if_pos ht, if_pos (by omega), hd, hm]
  · rw [if_neg ht]
    by_cases hl : 0 < ld
    · have h1 := Nat.div_add_mod t ld
      have h2 := Nat.mod_lt t hl
      have h3 : t / ld = k → ¬ t % ld < col := fun h h' => ht ⟨by
        rw [← h, Nat.mul_comm]; omega, by rw [← h, Nat.mul_comm]; omega⟩
      by_cases h4 : t / ld = k
      · rw [if_neg (fun h => h3 h4 h.2), if_neg (fun h => h3 h4 h.2)]
      · simp only [show t / ld < k + 1 ↔ t / ld < k by omega]
    · simp only [show col = 0 by omega, Nat.not_lt_zero, and_false, if_false]

theorem window_apply (b : Buf α) {ld col k i j : Nat} (hcol : col ≤ ld) (v : Nat → Nat → α)
    (hi : i < k) (hj : j < col) : b.window ld col k v (i * ld + j) = v i j := by
  obtain ⟨hd, hm⟩ := row_col_div_mod (r := i) (by omega : j < ld)
  simp only [window, hd, hm, if_pos (And.intro hi hj)]

theorem window_apply_of_ge (b : Buf α) {ld col k t : Nat} (hcol : col ≤ ld) (v : Nat → Nat → α)
    (ht : k * ld ≤ t) : b.window ld col k v t = b t := by
  by_cases hl : 0 < ld
  · have : k ≤ t / ld := (Nat.le_div_iff_mul_le hl).mpr ht
    simp only [window]; rw [if_neg (by omega)]
  · simp only [window, show col = 0 by omega, Nat.not_lt_zero, and_false, if_false]

theorem window_apply_outside (b : Buf α) {ld col k t : Nat}
    (v : Nat → Nat → α) (ht : ∀ i j, i < k → j < col → t ≠ i * ld + j) :
    b.window ld col k v t = b t := by
  simp only [window]
  rw [if_neg]
  rintro ⟨h1, h2⟩
  exact ht _ _ h1 h2 (by rw [Nat.mul_comm]; exact (Nat.div_add_mod t ld).symm)

/-- A loop over rows whose `i`-th iteration updates row `i` in place with `f i` fills the
window with the updated values of `b`: the rows do not overlap, so each row still holds its
contents in `b` when its iteration reads it. -/
theorem forLoop_rows_update (b : Buf α) {ld col : Nat} (hcol : col ≤ ld) (n : Nat)
    (f : Nat → Nat → α → α) (body : Nat → Buf α → Buf α)
    (hbody : ∀ i d, i < n → body i d = d.update (i * ld) col (f i)) :
    forLoop 0 1 n body b = b.window ld col n fun i j => f i j (b (i * ld + j)) := by
  have h := forLoop_progress (f := id) (p := fun k => b.window ld col k fun i j => f i j (b (i * ld + j)))
    (a := 0) (s := 1) (n := n) (b := body) (x := b) (by simp) fun k d hk hd => by
      simp only [id, Nat.zero_add, Nat.mul_one] at hd ⊢
      rw [hbody k d hk, hd, ← window_store_row b hcol, update]
      exact store_congr _ _ _ fun j _ => by rw [window_apply_of_ge b hcol _ (Nat.le_add_right _ _)]
  simpa using h

/-- A loop over rows whose `i`-th iteration stores row `i`'s values fills the window. -/
theorem forLoop_rows (b : Buf α) {ld col : Nat} (hcol : col ≤ ld) (n : Nat)
    (v : Nat → Nat → α) (body : Nat → Buf α → Buf α)
    (hbody : ∀ i d, i < n → body i d = d.store (i * ld) col (v i)) :
    forLoop 0 1 n body b = b.window ld col n v :=
  forLoop_rows_update b hcol n (fun i j _ => v i j) body hbody

end Buf

/-! ## Loops that touch a position at most once

Seen from one position, a loop of stores and read-modify-writes is a loop on one value
(`forLoop_map`): each iteration either applies its update to it or leaves it alone. When at most
one iteration touches the position, the loop applies that iteration's update once or not at all.
This reads off what a loop nest stores whatever order it walks the window in, as
`accum_alphaN_f32_f32` does column chunk by column chunk. -/

section Once

variable {α : Type}

/-- One position of a loop's buffer, when each iteration moves it by `g` whatever else the
buffer holds. -/
theorem forLoop_apply {a s n : Nat} {body : Nat → Buf α → Buf α} {g : Nat → α → α} (t : Nat)
    (h : ∀ k y, k < n → body (a + k * s) y t = g (a + k * s) (y t)) (x : Buf α) :
    forLoop a s n body x t = forLoop a s n g (x t) :=
  forLoop_map (fun d => d t) h x

/-- A value loop that updates only at iterations where `R` holds, when `R` never holds. -/
theorem forLoop_ite_of_forall {R : Nat → Prop} [DecidablePred R] {g : Nat → α → α} {a s n : Nat}
    (h : ∀ k, k < n → ¬ R (a + k * s)) (v : α) :
    forLoop a s n (fun j v => if R j then g j v else v) v = v := by
  induction n with
  | zero => rfl
  | succ n ih => rw [forLoop_succ_last, ih fun k hk => h k (by omega), if_neg (h n (by omega))]

/-- The same when `R` holds at exactly one iteration `k`: that iteration's update, once. -/
theorem forLoop_ite_once {R : Nat → Prop} [DecidablePred R] {g : Nat → α → α} {a s n k : Nat}
    (hk : k < n) (hR : R (a + k * s)) (h : ∀ k', k' < n → k' ≠ k → ¬ R (a + k' * s)) (v : α) :
    forLoop a s n (fun j v => if R j then g j v else v) v = g (a + k * s) v := by
  obtain ⟨m, rfl⟩ : ∃ m, n = k + 1 + m := ⟨n - k - 1, by omega⟩
  rw [forLoop_add, forLoop_succ_last, forLoop_ite_of_forall fun k' hk' => h k' (by omega) (by omega),
    if_pos hR, forLoop_ite_of_forall]
  intro k' hk'
  rw [show a + (k + 1) * s + k' * s = a + (k + 1 + k') * s by ring]
  exact h _ (by omega) (by omega)

/-- Offset `t` lies in columns `c .. c + w - 1` of row `i` of a window with stride `ld ≥ c + w`
exactly when it is in row `t / ld` at column `t % ld` within them. -/
theorem mem_row_iff {ld c w i t : Nat} (hcw : c + w ≤ ld) :
    (i * ld + c ≤ t ∧ t < i * ld + c + w) ↔ (t / ld = i ∧ c ≤ t % ld ∧ t % ld < c + w) := by
  constructor
  · rintro ⟨h1, h2⟩
    obtain ⟨hd, hm⟩ := row_col_div_mod (r := i) (c := t - i * ld) (n := ld) (by omega)
    rw [Nat.add_sub_cancel' (by omega)] at hd hm
    exact ⟨hd, by omega, by omega⟩
  · rintro ⟨rfl, h1, h2⟩
    have := Nat.div_add_mod t ld
    rw [Nat.mul_comm] at this
    omega

/-- A loop over rows `i < M` whose iteration updates a value exactly when it sits in columns
`c .. c + w - 1` of row `i`: the update of row `t / ld`, when `t` is in the window. -/
theorem forLoop_rows_ite {ld c w t M : Nat} (hcw : c + w ≤ ld) (h : Nat → α → α) (v : α) :
    forLoop 0 1 M (fun i v => if i * ld + c ≤ t ∧ t < i * ld + c + w then h i v else v) v
      = if t / ld < M ∧ c ≤ t % ld ∧ t % ld < c + w then h (t / ld) v else v := by
  split_ifs with ht
  · exact (forLoop_ite_once (k := t / ld) ht.1 (by simpa [mem_row_iff hcw] using ht.2)
      (fun k' _ hne hk => hne ((mem_row_iff hcw).1 (by simpa using hk)).1.symm) v).trans
        (by rw [Nat.zero_add, Nat.mul_one])
  · exact forLoop_ite_of_forall (fun k hk hR => ht <| by
      obtain ⟨rfl, h1, h2⟩ := (mem_row_iff hcw).1 (by simpa using hR)
      exact ⟨hk, h1, h2⟩) v

/-- A loop over chunks `c = a, a + w, …` of `w` columns whose iteration updates a value exactly
when `x` lies in its chunk: the update of the chunk holding `x`, when `x` is in one. -/
theorem forLoop_chunks_ite {P : Prop} [Decidable P] {a w n x : Nat} (hw : 0 < w)
    (h : Nat → α → α) (v : α) :
    forLoop a w n (fun c v => if P ∧ c ≤ x ∧ x < c + w then h c v else v) v
      = if P ∧ a ≤ x ∧ x < a + n * w then h (a + (x - a) / w * w) v else v := by
  have hdiv := Nat.div_add_mod (x - a) w
  have hmod := Nat.mod_lt (x - a) hw
  rw [Nat.mul_comm] at hdiv
  split_ifs with hx
  · have hk : (x - a) / w < n := by
      rw [Nat.div_lt_iff_lt_mul hw]; omega
    have hin : P ∧ a + (x - a) / w * w ≤ x ∧ x < a + (x - a) / w * w + w := ⟨hx.1, by omega, by omega⟩
    refine forLoop_ite_once hk hin (fun k' _ hne hR => hne ?_) v
    have h1 : k' * w ≤ x - a := by omega
    have h2 : x - a < (k' + 1) * w := by rw [Nat.succ_mul]; omega
    exact (Nat.div_eq_of_lt_le h1 h2).symm
  · refine forLoop_ite_of_forall (fun k hk hR => hx ⟨hR.1, by omega, ?_⟩) v
    have := Nat.mul_le_mul_right w (Nat.succ_le_of_lt hk)
    rw [Nat.succ_mul] at this
    omega

/-- One position of a loop over rows `i < M` that updates columns `c .. c + w - 1` of row `i`
with `h i`: the update of its row, when it lies in those columns. -/
theorem forLoop_rows_update_apply {ld c w M : Nat} (hcw : c + w ≤ ld) (h : Nat → Nat → α → α)
    (y : Buf α) (t : Nat) :
    forLoop 0 1 M (fun i d => d.update (i * ld + c) w (h i)) y t
      = if t / ld < M ∧ c ≤ t % ld ∧ t % ld < c + w then h (t / ld) (t % ld - c) (y t) else y t := by
  rw [forLoop_apply t (g := fun i v => if i * ld + c ≤ t ∧ t < i * ld + c + w then
      h i (t - (i * ld + c)) v else v) (fun k y _ => Buf.update_apply _ _ _ _ _) y,
    forLoop_rows_ite hcw]
  have hoff : t - (t / ld * ld + c) = t % ld - c := by
    have hdm := Nat.div_add_mod t ld
    rw [Nat.mul_comm] at hdm
    generalize t / ld * ld = q at hdm ⊢
    omega
  rw [hoff]

end Once

end NeuralSpeed
