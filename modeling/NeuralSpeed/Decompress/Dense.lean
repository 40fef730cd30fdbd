import NeuralSpeed.Unpack
import NeuralSpeed.Decompress.S8

/-!
# The dense conversion kernels

`decompress_s4_s8`, `decompress_kblock_s4_s8fp`, `decompress_kblock_s8_s8fp` and
`decompress_kblock_f4_fp_noscale` convert a tile only when its rows are contiguous in the
source, `col == ld_src`. They then treat the tile as one run of `row * col` elements: a vector
body over 16 (or 64) elements at a time and a scalar loop over the rest, both writing element
`t` of the run to `dst[t]`. `ld_dst` is never read.

* `decompressKblockS8S8fp_dense` — with `col = ld_src` the `int8` kernel stores the run at
  `dst[0 ..)`, for every `ld_dst`: the rows land at stride `col`, not `ld_dst`
  (`decompressKblockS8S8fp_strided` is a tile of two rows where this misplaces the second).
* `decompressKblock_success_without_write` — when `col ≠ ld_src` the two `kblock` kernels with
  a 4-bit source return `Success` and leave `dst` unchanged; the other two return `NotSupport`
  (`decompress_notSupport`).
* `decompressKblockS8S8fp_fp32` — with `col = ld_src` and a float destination the `int8` kernel
  converts element `t` of the run into `dst[t]` for every `ld_dst` and writes nothing past the
  run; with `ld_dst = col` as well, that is every element of the tile in its place.
* `decompressS4S8_eq`, `decompressKblockF4FpNoscale_eq` — with `col = ld_src` the 4-bit kernels
  store the value of code `t` at `dst[t]`: the vector body's (`s4Byte`, or the table gather
  after `fp4_pad_4bit`) below `padto_le(row * col, 16)`, the scalar tail's above. The tail works
  on whole source bytes, so for an odd `row * col` it also writes `dst[row * col]`.
* `decompressKblockS4S8fp_fused` — with a float destination the fused 4-bit-to-float kernel writes
  what unpacking to `int8` and converting the `int8` run writes, except at that one element.
-/

namespace NeuralSpeed

section Dense

variable {F D : Type}

/-- `convert_s8_fp_v8<T>(dstptr, srcptr)`: eight `int8_t` to floats, stored as `T`. -/
def convertS8FpV8 [IntCast F] (dstT : DstT F D) (dst : Buf D) (q : Nat) (src : Buf Byte) (p : Nat) :
    Buf D :=
  let xmm := mmLoadlEpi64 src p
  let ymm := mm256CvtepiEpi32 xmm
  let ymm1 : M256 F := mm256Cvtepi32Ps ymm
  dst.store q 8 fun l => dstT.vec (ymm1 l)

/-- `decompress_s4_s8<S4_T>`. `getS8` stands for `ref::get_s8<S4_T>` of `kernel_ref.h` (not under
src/), applied to a 4-bit field of `int4x2`. -/
def decompressS4S8 (s4 : Bit4Type) (getS8 : Nat → Byte) (src dst : Buf Byte)
    (row col ldSrc _ldDst : Nat) : BtlaCode × Buf Byte :=
  if col = ldSrc then
    let elesize := row * col
    let ele16 := padtoLe elesize 16
    let dst := forLoop 0 16 (tripCount 0 ele16 16) (fun i dst =>
      convertS4S8x16Sse s4 dst i src (i / 2)) dst
    let dst := forLoop ele16 2 (tripCount ele16 elesize 2) (fun i dst =>
      let tmp := src (i / 2)
      let dst := dst.store (i + 0) 1 fun _ => getS8 (tmp.val % 16)
      dst.store (i + 1) 1 fun _ => getS8 (tmp.val / 16)) dst
    (.success, dst)
  else (.notSupport, dst)

/-- `decompress_kblock_s4_s8fp<S4_T, _DST_T>`, with `assert(tmpsize >= 16)` as failure. The
vector body unpacks sixteen codes into `tmp` and converts them eight at a time. -/
def decompressKblockS4S8fp [IntCast F] (s4 : Bit4Type) (getS8 : Nat → Byte) (dstT : DstT F D)
    (src : Buf Byte) (dst : Buf D) (row col ldSrc _ldDst : Nat) (tmp : Buf Byte) (tmpsize : Nat) :
    Option (BtlaCode × Buf D) :=
  if col = ldSrc then
    let elesize := row * col
    let ele16 := padtoLe elesize 16
    if 16 ≤ tmpsize then
      let s := forLoop 0 16 (tripCount 0 ele16 16) (fun i (s : Buf D × Buf Byte) =>
        let tmp := convertS4S8x16Sse s4 s.2 0 src (i / 2)
        let dst := convertS8FpV8 dstT s.1 i tmp 0
        (convertS8FpV8 dstT dst (i + 8) tmp 8, tmp)) (dst, tmp)
      let dst := forLoop ele16 2 (tripCount ele16 elesize 2) (fun i dst =>
        let tmp := src (i / 2)
        let dst := dst.store (i + 0) 1 fun _ => dstT.scalar (int8Val (getS8 (tmp.val % 16)) : F)
        dst.store (i + 1) 1 fun _ => dstT.scalar (int8Val (getS8 (tmp.val / 16)) : F)) s.1
      some (.success, dst)
    else none
  else some (.success, dst)

/-- `decompress_kblock_s8_s8fp<DST_T>`: 64 elements at a time as eight `convert_s8_fp_v8`, the
rest one by one. -/
def decompressKblockS8S8fp [IntCast F] (dstT : DstT F D) (src : Buf Byte) (dst : Buf D)
    (row col ldSrc _ldDst : Nat) : BtlaCode × Buf D :=
  if col = ldSrc then
    let elesize := row * col
    let ele64 := padtoLe elesize 64
    let dst' := if 0 + 64 ≤ ele64 then
        forLoop 0 64 (tripCount 0 ele64 64) (fun i dst =>
          forLoop 0 8 (tripCount 0 64 8) (fun j dst => convertS8FpV8 dstT dst (i + j) src (i + j))
            dst) dst
      else dst
    let i := if 0 + 64 ≤ ele64 then ele64 else 0
    let dst := forLoop i 1 (tripCount i elesize 1) (fun i dst =>
      dst.store i 1 fun _ => dstT.scalar (int8Val (src i) : F)) dst'
    (.success, dst)
  else (.notSupport, dst)

/-- `unpack_f4_N<N, _DST_T, F4_T>`: each group of eight scratch bytes indexes the table. -/
def unpackF4N (n : Nat) (lut : Nat → F) (dstT : DstT F D) (dst : Buf D) (q : Nat)
    (src : Buf Byte) : Buf D :=
  forLoop 0 1 (n / 8) (fun iv dst =>
    let idx := mmLoadlEpi64 src (iv * 8)
    let padIdx := mm256CvtepuEpi32 idx
    let fp32DqV := mm256I32gatherPs lut padIdx
    dst.store (q + iv * 8) 8 fun l => dstT.vec (fp32DqV l)) dst

/-- `decompress_kblock_f4_fp_noscale<F4_T, DST_T>`, with `assert(tmpsize >= 16)` as failure.
`ref::f4_unpack<F4_T>` of `kernel_ref.h` (not under src/) is modelled from the spec as the table
entry of its code, as the vector body's gather computes it. -/
def decompressKblockF4FpNoscale (f4 : Bit4Type) (luts : Bit4Type → Nat → F) (dstT : DstT F D)
    (src : Buf Byte) (dst : Buf D) (row col ldSrc _ldDst : Nat) (tmp : Buf Byte) (tmpsize : Nat) :
    Option (BtlaCode × Buf D) :=
  if col = ldSrc then
    let elesize := row * col
    let ele16 := padtoLe elesize 16
    if 16 ≤ tmpsize then
      let s := forLoop 0 16 (tripCount 0 ele16 16) (fun i (s : Buf D × Buf Byte) =>
        let tmp := fp4Pad4bit s.2 0 src (i / 2)
        (unpackF4N 16 (luts f4) dstT s.1 i tmp, tmp)) (dst, tmp)
      let dst := forLoop ele16 2 (tripCount ele16 elesize 2) (fun i dst =>
        let tmp := src (i / 2)
        let dst := dst.store (i + 0) 1 fun _ => dstT.scalar (luts f4 (tmp.val % 16))
        dst.store (i + 1) 1 fun _ => dstT.scalar (luts f4 (tmp.val / 16))) s.1
      some (.success, dst)
    else none
  else some (.success, dst)

/-! ## Rows that are not contiguous -/

/-- When `col ≠ ld_src` the two kernels without a `kblock` prefix give up with `NotSupport` and
leave `dst` alone. -/
theorem decompress_notSupport [IntCast F] (s4 : Bit4Type) (getS8 : Nat → Byte) (dstT : DstT F D)
    (src dst8 : Buf Byte) (dst : Buf D) {col ldSrc : Nat} (row ldDst : Nat) (h : col ≠ ldSrc) :
    decompressS4S8 s4 getS8 src dst8 row col ldSrc ldDst = (.notSupport, dst8) ∧
    decompressKblockS8S8fp dstT src dst row col ldSrc ldDst = (.notSupport, dst) := by
  simp [decompressS4S8, decompressKblockS8S8fp, h]

/-- When `col ≠ ld_src` the two `kblock` kernels with a 4-bit source return `Success` and leave
`dst` unchanged: nothing is converted. -/
theorem decompressKblock_success_without_write [IntCast F] (s4 f4 : Bit4Type) (getS8 : Nat → Byte)
    (luts : Bit4Type → Nat → F) (dstT : DstT F D) (src : Buf Byte) (dst : Buf D)
    {col ldSrc : Nat} (row ldDst : Nat) (tmp : Buf Byte) (tmpsize : Nat) (h : col ≠ ldSrc) :
    decompressKblockS4S8fp s4 getS8 dstT src dst row col ldSrc ldDst tmp tmpsize
      = some (.success, dst) ∧
    decompressKblockF4FpNoscale f4 luts dstT src dst row col ldSrc ldDst tmp tmpsize
      = some (.success, dst) := by
  simp [decompressKblockS4S8fp, decompressKblockF4FpNoscale, h]

/-- Two rows of one column with `ld_src = 2`, codes `17 * t + 0x21` and a destination holding
`t + 5`: both kernels return `Success` with the destination as it was. -/
theorem decompressKblock_success_without_write_strided :
    decompressKblockS4S8fp .s4Clip (fun n => byteOf (n * 16)) (.fp32 (id : ℚ → ℚ))
        (fun t => byteOf (17 * t + 0x21)) (fun t : Nat => (t : ℚ) + 5) 2 1 2 1 (fun _ => 0) 16
      = some (.success, fun t : Nat => (t : ℚ) + 5) ∧
    decompressKblockF4FpNoscale .f4Nf4 (fun _ n => (n : ℚ) / 2 - 3) (.fp32 id)
        (fun t => byteOf (17 * t + 0x21)) (fun t : Nat => (t : ℚ) + 5) 2 1 2 1 (fun _ => 0) 16
      = some (.success, fun t : Nat => (t : ℚ) + 5) :=
  decompressKblock_success_without_write .s4Clip .f4Nf4 _ _ _ _ _ 2 1 _ 16 (by decide)

/-! ## The 4-bit kernels store a dense run

The three 4-bit kernels share their loops: a body over sixteen elements up to
`padto_le(row * col, 16)` and a tail over two elements (one source byte) after it. The tail
runs while `i < row * col` and always writes two elements, so for an odd `row * col` it writes
element `row * col` too, from the high nibble of the last byte (`run16_store`). -/

/-- The loops of the 4-bit kernels store one run of `n` elements, rounded up to an even
count: `V` below `padto_le(n, 16)`, `T` above. -/
theorem run16_store {α : Type} (d : Buf α) (n : Nat) (V T : Nat → α) :
    forLoop (padtoLe n 16) 2 (tripCount (padtoLe n 16) n 2) (fun i d => d.store i 2 fun m => T (i + m))
        (forLoop 0 16 (tripCount 0 (padtoLe n 16) 16) (fun i d => d.store i 16 fun m => V (i + m)) d)
      = d.store 0 (n + n % 2) fun t => if t < padtoLe n 16 then V t else T t := by
  generalize hU : (fun t => if t < padtoLe n 16 then V t else T t) = U
  have hk := tripCount_padtoLe n 16 (by norm_num)
  have hbody : forLoop 0 16 (tripCount 0 (padtoLe n 16) 16) (fun i d => d.store i 16 fun m => V (i + m)) d
      = d.store 0 (padtoLe n 16) U := by
    have h := forLoop_store d 0 0 16 (n / 16) U
    simp only [Nat.zero_add] at h
    rw [hk, show padtoLe n 16 = n / 16 * 16 from rfl, ← h]
    refine forLoop_congr (fun k x hk' => ?_) d
    refine Buf.store_congr _ _ _ fun m hm => ?_
    rw [← hU]
    exact (if_pos (by simp only [padtoLe]; omega : 0 + k * 16 + m < padtoLe n 16)).symm
  have htail : ∀ x : Buf α, forLoop (padtoLe n 16) 2 (tripCount (padtoLe n 16) n 2)
      (fun i d => d.store i 2 fun m => T (i + m)) x
        = x.store (0 + padtoLe n 16) (tripCount (padtoLe n 16) n 2 * 2) fun t => U (padtoLe n 16 + t) := by
    intro x
    rw [← forLoop_store]
    refine forLoop_congr (fun k x _ => ?_) x
    rw [Nat.zero_add]
    refine Buf.store_congr _ _ _ fun m _ => ?_
    rw [← hU]
    exact (if_neg (by omega : ¬ padtoLe n 16 + k * 2 + m < padtoLe n 16)).symm
  rw [hbody, htail, Buf.store_store_append,
    show padtoLe n 16 + tripCount (padtoLe n 16) n 2 * 2 = n + n % 2 by simp only [tripCount, padtoLe]; omega]

/-- The tail's two stores of one source byte at an even `i`: its low nibble to `dst[i]`, its
high nibble to `dst[i + 1]`. -/
theorem tail_pair_store {α : Type} (d : Buf α) (src : Buf Byte) (f : Nat → α) {i : Nat}
    (hi : i % 2 = 0) :
    (d.store (i + 0) 1 fun _ => f ((src (i / 2)).val % 16)).store (i + 1) 1
        (fun _ => f ((src (i / 2)).val / 16))
      = d.store i 2 fun m => f (nibble src (i + m)) := by
  rw [← Buf.store_store_append d i 1 1, Nat.add_zero]
  refine (congrArg (fun b => Buf.store b (i + 1) 1 _) (Buf.store_congr _ _ _ fun m hm => ?_)).trans
    (Buf.store_congr _ _ _ fun k hk => ?_)
  · rw [show m = 0 by omega, nibble, if_pos (by omega), Nat.add_zero]
  · rw [nibble, if_neg (by omega), show (i + (1 + k)) / 2 = i / 2 by omega]

/-- The tail loop stores the values of the codes of its elements, two by two. -/
theorem tail_run {α : Type} (x : Buf α) (src : Buf Byte) (f : Nat → α) (n : Nat) :
    forLoop (padtoLe n 16) 2 (tripCount (padtoLe n 16) n 2) (fun i d =>
        (d.store (i + 0) 1 fun _ => f ((src (i / 2)).val % 16)).store (i + 1) 1
          (fun _ => f ((src (i / 2)).val / 16))) x
      = forLoop (padtoLe n 16) 2 (tripCount (padtoLe n 16) n 2)
          (fun i d => d.store i 2 fun m => f (nibble src (i + m))) x :=
  forLoop_congr (fun _ x _ => tail_pair_store x src f (by simp only [padtoLe]; omega)) x

/-- `convert_s8_fp_v8` stores the eight converted bytes at `p`. -/
theorem convertS8FpV8_eq [IntCast F] (dstT : DstT F D) (dst : Buf D) (q : Nat) (src : Buf Byte)
    (p : Nat) : convertS8FpV8 dstT dst q src p = dst.store q 8 fun l => dstT.vec (int8Val (src (p + l)) : F) := by
  unfold convertS8FpV8
  exact Buf.store_congr _ _ _ fun l hl => by simp only [mm256Cvtepi32Ps, mm256CvtepiEpi32, mmLoadlEpi64, if_pos hl]

/-- With `col = ld_src`, `decompress_s4_s8` stores at `dst[t]` the byte of code `t` of the run:
the vector body's `s4Byte` below `padto_le(row * col, 16)`, `get_s8` above. -/
theorem decompressS4S8_eq (s4 : Bit4Type) (getS8 : Nat → Byte) (src dst : Buf Byte)
    {col ldSrc : Nat} (row ldDst : Nat) (h : col = ldSrc) :
    decompressS4S8 s4 getS8 src dst row col ldSrc ldDst
      = (.success, dst.store 0 (row * col + row * col % 2) fun t =>
          if t < padtoLe (row * col) 16 then s4Byte s4 (nibble src t) else getS8 (nibble src t)) := by
  simp only [decompressS4S8, if_pos h, tail_run _ src getS8, ← run16_store]
  congr 2
  refine forLoop_congr (fun k x _ => ?_) dst
  rw [convertS4S8x16Sse_eq, Nat.zero_add, show 2 * (k * 16 / 2) = k * 16 by omega]

/-- **The 4-bit-to-`int8` kernel, element by element.** With `col = ld_src`, `decompress_s4_s8`
returns `Success` and, for the run of `row * col` codes, stores the vector body's byte of code
`t` (`code << 4`, or `code - 8` for `S4_FULLRANGE`) below `padto_le(row * col, 16)` and `get_s8`
of it above; its tail also writes element `row * col` when that count is odd, and nothing
after. -/
theorem decompressS4S8_codes (s4 : Bit4Type) (getS8 : Nat → Byte) (src dst : Buf Byte)
    {col ldSrc : Nat} (row ldDst : Nat) (h : col = ldSrc) :
    let r := decompressS4S8 s4 getS8 src dst row col ldSrc ldDst
    r.1 = .success ∧
    (∀ t, t < padtoLe (row * col) 16 → r.2 t = s4Byte s4 (nibble src t)) ∧
    (∀ t, padtoLe (row * col) 16 ≤ t → t < row * col + row * col % 2 → r.2 t = getS8 (nibble src t)) ∧
    ∀ t, row * col + row * col % 2 ≤ t → r.2 t = dst t := by
  have hle := padtoLe_le (row * col) 16
  simp only [decompressS4S8_eq _ _ _ _ _ _ h, true_and]
  refine ⟨fun t ht => ?_, fun t ht ht' => ?_, fun t ht => Buf.store_apply_of_ge _ _ _ _ (by omega)⟩ <;>
    rw [Buf.store_apply, if_pos ⟨Nat.zero_le _, by omega⟩, Nat.sub_zero]
  · exact if_pos ht
  · exact if_neg (by omega)

/-- One row of seventeen full-range codes from the bytes `17 * t + 0x21`, with `get_s8` the
code less 8: element 3 of the vector body is code 3 less 8, `251`; elements 16 and 17 of the
tail are codes 9 and 10 of byte 8, `1` and `2`, the second one past the run; element 18 keeps
its 0. -/
theorem decompressS4S8_codes_odd_run :
    let r := decompressS4S8 .s4Fullrange (fun n => byteOf (n + 248)) (fun t => byteOf (17 * t + 0x21))
      (fun _ => 0) 1 17 17 17
    r.1 = .success ∧ r.2 3 = 251 ∧ r.2 16 = 1 ∧ r.2 17 = 2 ∧ r.2 18 = 0 := by
  obtain ⟨h1, hbody, htail, hrest⟩ := decompressS4S8_codes .s4Fullrange (fun n => byteOf (n + 248))
    (fun t => byteOf (17 * t + 0x21)) (fun _ => 0) 1 17 rfl
  exact ⟨h1, (hbody 3 (by decide)).trans (by decide), (htail 16 (by decide) (by decide)).trans (by decide),
    (htail 17 (by decide) (by decide)).trans (by decide), hrest 18 (by decide)⟩

/-- With `col = ld_src` and a scratch of sixteen bytes, `decompress_kblock_s4_s8fp` stores at
`dst[t]` the converted byte of code `t` of the run: through the vector body's `s4Byte` and
`convert_s8_fp_v8` below `padto_le(row * col, 16)`, through `get_s8` and the scalar
conversion above. -/
theorem decompressKblockS4S8fp_eq [IntCast F] (s4 : Bit4Type) (getS8 : Nat → Byte)
    (dstT : DstT F D) (src : Buf Byte) (dst : Buf D) {col ldSrc : Nat} (row ldDst : Nat)
    (tmp : Buf Byte) {tmpsize : Nat} (h : col = ldSrc) (ht : 16 ≤ tmpsize) :
    decompressKblockS4S8fp s4 getS8 dstT src dst row col ldSrc ldDst tmp tmpsize
      = some (.success, dst.store 0 (row * col + row * col % 2) fun t =>
          if t < padtoLe (row * col) 16 then dstT.vec (int8Val (s4Byte s4 (nibble src t)) : F)
          else dstT.scalar (int8Val (getS8 (nibble src t)) : F)) := by
  simp only [decompressKblockS4S8fp, if_pos h, if_pos ht,
    tail_run _ src fun n => dstT.scalar (int8Val (getS8 n) : F), ← run16_store]
  congr 3
  refine forLoop_map Prod.fst (fun k y _ => ?_) (dst, tmp)
  simp only [Nat.zero_add, convertS4S8x16Sse_eq, convertS8FpV8_eq, show 2 * (k * 16 / 2) = k * 16 by omega]
  rw [← Buf.store_store_append _ (k * 16) 8 8]
  refine (congrArg (fun b => Buf.store b (k * 16 + 8) 8 _) (Buf.store_congr _ _ _ fun l hl => ?_)).trans
    (Buf.store_congr _ _ _ fun l hl => ?_) <;> rw [Buf.store_apply, if_pos (by omega), Nat.sub_zero]

/-- With `col = ld_src` and a scratch of sixteen bytes, `decompress_kblock_f4_fp_noscale` stores at
`dst[t]` the table entry of code `t` of the run: through `fp4_pad_4bit` and the gather of
`unpack_f4_N` below `padto_le(row * col, 16)`, through the scalar lookup above. -/
theorem decompressKblockF4FpNoscale_eq (f4 : Bit4Type) (luts : Bit4Type → Nat → F)
    (dstT : DstT F D) (src : Buf Byte) (dst : Buf D) {col ldSrc : Nat} (row ldDst : Nat)
    (tmp : Buf Byte) {tmpsize : Nat} (h : col = ldSrc) (ht : 16 ≤ tmpsize) :
    decompressKblockF4FpNoscale f4 luts dstT src dst row col ldSrc ldDst tmp tmpsize
      = some (.success, dst.store 0 (row * col + row * col % 2) fun t =>
          if t < padtoLe (row * col) 16 then dstT.vec (luts f4 (nibble src t))
          else dstT.scalar (luts f4 (nibble src t))) := by
  simp only [decompressKblockF4FpNoscale, if_pos h, if_pos ht,
    tail_run _ src fun n => dstT.scalar (luts f4 n), ← run16_store]
  congr 3
  refine forLoop_map Prod.fst (fun k y _ => ?_) (dst, tmp)
  simp only [unpackF4N, Nat.zero_add]
  refine (forLoop_congr (g := fun iv b => b.store (k * 16 + iv * 8) 8 fun l =>
      dstT.vec (luts f4 (nibble src (k * 16 + (iv * 8 + l))))) (fun iv x hiv => ?_) y.1).trans ?_
  · rw [Nat.zero_add, Nat.mul_one]
    refine Buf.store_congr _ _ _ fun l hl => ?_
    rw [mm256I32gatherPs_apply, mm256CvtepuEpi32, mmLoadlEpi64, if_pos hl, ← Nat.zero_add (iv * 8 + l),
      fp4Pad4bit_apply _ _ _ _ _ (by rw [show 16 / 8 = 2 from rfl] at hiv; omega),
      show 2 * (k * 16 / 2) = k * 16 by omega, Nat.zero_add]
  · rw [forLoop_store_chunks y.1 (k * 16) 0 8 (16 / 8) fun t => dstT.vec (luts f4 (nibble src (k * 16 + t)))]
    simp only [Nat.zero_mul, Nat.add_zero, Nat.zero_add, Nat.reduceDiv, Nat.reduceMul]

/-- One row of seventeen NF4 codes from the bytes `17 * t + 0x21`, with the table `n ↦ n / 2 - 3`:
element 3 of the vector body is entry 3, `-3/2`; element 16 of the tail is entry 9, `3/2`, and
`dst[17]`, one past the run, entry 10, `2`. -/
theorem decompressKblockF4FpNoscale_eq_odd_run :
    ∃ r, decompressKblockF4FpNoscale .f4Nf4 (fun _ n => (n : ℚ) / 2 - 3) (.fp32 id)
        (fun t => byteOf (17 * t + 0x21)) (fun _ => 0) 1 17 17 17 (fun _ => 0) 16 = some (.success, r) ∧
      r 3 = -3 / 2 ∧ r 16 = 3 / 2 ∧ r 17 = 2 ∧ r 18 = 0 := by
  refine ⟨_, decompressKblockF4FpNoscale_eq _ _ _ _ _ 1 17 _ rfl le_rfl, ?_⟩
  simp only [Buf.store_apply, DstT.vec, DstT.scalar, padtoLe, nibble]
  norm_num

/-! ## The `int8` kernel stores a dense run -/

/-- With `col = ld_src` the `int8` kernel stores element `t` of the run of `row * col` elements,
converted by the vector path below `padto_le(row * col, 64)` and by the scalar one above, at
`dst[t]`, whatever `ld_dst` is. -/
theorem decompressKblockS8S8fp_dense [IntCast F] (dstT : DstT F D) (src : Buf Byte) (dst : Buf D)
    {col ldSrc : Nat} (row ldDst : Nat) (h : col = ldSrc) :
    decompressKblockS8S8fp dstT src dst row col ldSrc ldDst
      = (.success, dst.store 0 (row * col) fun t =>
          if t < padtoLe (row * col) 64 then dstT.vec (int8Val (src t) : F)
          else dstT.scalar (int8Val (src t) : F)) := by
  generalize hU : (fun t => if t < padtoLe (row * col) 64 then dstT.vec (int8Val (src t) : F)
    else dstT.scalar (int8Val (src t) : F)) = U
  have h64 : padtoLe (row * col) 64 % 64 = 0 := Nat.mul_mod_left _ _
  have hle := padtoLe_le (row * col) 64
  -- eight `convert_s8_fp_v8` store one 64-element block
  have hblock : ∀ i d, i + 64 ≤ padtoLe (row * col) 64 →
      forLoop 0 8 (tripCount 0 64 8) (fun j dst => convertS8FpV8 dstT dst (i + j) src (i + j)) d
        = d.store (0 + i) 64 fun l => U (i + l) := by
    intro i d hi
    have h8 := forLoop_store d i 0 8 8 fun l => U (i + l)
    simp only [Nat.add_zero, Nat.zero_add, Nat.reduceMul] at h8
    rw [show tripCount 0 64 8 = 8 from rfl, Nat.zero_add, ← h8]
    refine forLoop_congr (fun k x hk => ?_) d
    dsimp only [convertS8FpV8]
    refine Buf.store_congr _ _ _ fun l hl => ?_
    simp only [mm256Cvtepi32Ps, mm256CvtepiEpi32, mmLoadlEpi64, if_pos hl, ← hU]
    rw [if_pos (by omega), Nat.add_assoc]
  have hpre : (if 0 + 64 ≤ padtoLe (row * col) 64 then
        forLoop 0 64 (tripCount 0 (padtoLe (row * col) 64) 64) (fun i dst =>
          forLoop 0 8 (tripCount 0 64 8) (fun j dst => convertS8FpV8 dstT dst (i + j) src (i + j))
            dst) dst
      else dst) = forLoop 0 64 (tripCount 0 (padtoLe (row * col) 64) 64)
        (fun i d => d.store (0 + i) 64 fun l => U (i + l)) dst := by
    split_ifs with hc
    · refine forLoop_congr (fun k x hk => hblock _ _ ?_) dst
      rw [tripCount_padtoLe _ _ (by norm_num)] at hk
      rw [padtoLe] at hle ⊢; omega
    · rw [show padtoLe (row * col) 64 = 0 by omega]; rfl
  have hi : (if 0 + 64 ≤ padtoLe (row * col) 64 then padtoLe (row * col) 64 else 0)
      = padtoLe (row * col) 64 := by split_ifs <;> omega
  simp only [decompressKblockS8S8fp, if_pos h, hpre, hi]
  rw [← row_store_at dst 0 (row * col) 64 _ (by norm_num) h64 hle U]
  congr 1
  refine forLoop_congr (fun k x hk => ?_) _
  rw [Nat.zero_add]
  exact Buf.store_congr _ _ _ fun _ _ => by rw [← hU]; exact (if_neg (by omega)).symm

/-- **The fused kernel is the two-pass one.** With `col = ld_src`, a scratch of sixteen bytes and a
float destination, `decompress_kblock_s4_s8fp` writes what `decompress_s4_s8` into an `int8`
buffer followed by `decompress_kblock_s8_s8fp` from it writes, at every element but
`row * col`. At `row * col` the two-pass version leaves `dst` alone, and the fused kernel, for
an odd `row * col`, writes the high nibble of the last byte. -/
theorem decompressKblockS4S8fp_fused [IntCast F] (s4 : Bit4Type) (getS8 : Nat → Byte) (cvt : F → D)
    (src : Buf Byte) (dst : Buf D) (mid : Buf Byte) {col ldSrc : Nat} (row ldDst : Nat)
    (tmp : Buf Byte) {tmpsize : Nat} (h : col = ldSrc) (ht : 16 ≤ tmpsize) :
    let unpacked := decompressS4S8 s4 getS8 src mid row col ldSrc ldDst
    let converted := decompressKblockS8S8fp (.fp32 cvt) unpacked.2 dst row col ldSrc ldDst
    ∃ fused, decompressKblockS4S8fp s4 getS8 (.fp32 cvt) src dst row col ldSrc ldDst tmp tmpsize
        = some (.success, fused) ∧
      unpacked.1 = .success ∧ converted.1 = .success ∧
      (∀ t, t ≠ row * col → fused t = converted.2 t) ∧
      fused (row * col)
        = if row * col % 2 = 1 then cvt (int8Val (getS8 (nibble src (row * col))) : F) else dst (row * col) := by
  simp only [decompressKblockS4S8fp_eq _ _ _ _ _ _ _ _ h ht, decompressS4S8_eq _ _ _ _ _ _ h,
    decompressKblockS8S8fp_dense _ _ _ _ _ h, Option.some.injEq, Prod.mk.injEq, true_and,
    exists_eq_left', DstT.vec, DstT.scalar]
  have hle := padtoLe_le (row * col) 16
  refine ⟨fun t ht => ?_, ?_⟩ <;> simp only [Buf.store_apply, Nat.zero_le, true_and, Nat.sub_zero] <;>
    split_ifs <;> first | rfl | omega

/-- One row of seventeen clipped codes from the bytes `17 * t + 0x21`, with `get_s8` the code
shifted left by four: the fused and the two-pass kernels agree at element 3 of the vector body,
`3 << 4 = 48`, and at element 16 of the tail, `9 << 4 = 144`, an `int8_t` `-112`; at element 17,
past the run, the fused kernel writes code 10's `-96` where the two-pass one leaves the 0. -/
theorem decompressKblockS4S8fp_fused_odd_run :
    let unpacked := decompressS4S8 .s4Clip (fun n => byteOf (n * 16)) (fun t => byteOf (17 * t + 0x21))
      (fun _ => 0) 1 17 17 17
    let converted := decompressKblockS8S8fp (.fp32 (id : ℚ → ℚ)) unpacked.2 (fun _ => 0) 1 17 17 17
    ∃ fused, decompressKblockS4S8fp .s4Clip (fun n => byteOf (n * 16)) (.fp32 (id : ℚ → ℚ))
        (fun t => byteOf (17 * t + 0x21)) (fun _ => 0) 1 17 17 17 (fun _ => 0) 16 = some (.success, fused) ∧
      fused 3 = converted.2 3 ∧ converted.2 3 = 48 ∧ fused 16 = converted.2 16 ∧
      converted.2 16 = -112 ∧ fused 17 = -96 ∧ converted.2 17 = 0 := by
  intro unpacked converted
  obtain ⟨fused, hf, -, -, heq, hlast⟩ := @decompressKblockS4S8fp_fused ℚ ℚ _ .s4Clip
    (fun n => byteOf (n * 16)) id (fun t => byteOf (17 * t + 0x21)) (fun _ => 0) (fun _ => 0) 17 17 1 17
    (fun _ => 0) 16 rfl le_rfl
  have hne : (Bit4Type.s4Clip = .s4Fullrange) = False := eq_false (by decide)
  have hconv := congrArg Prod.snd (@decompressKblockS8S8fp_dense ℚ ℚ _ (.fp32 id) unpacked.2
    (fun _ => 0) 17 17 1 17 rfl)
  dsimp only at hconv
  refine ⟨fused, hf, heq 3 (by decide), ?_, heq 16 (by decide), ?_, ?_, ?_⟩
  all_goals simp only [converted, hconv, hlast]
  all_goals norm_num [Buf.store_apply, unpacked, decompressS4S8_eq _ _ _ _ 1 17 rfl, padtoLe, nibble,
    s4Byte, int8Val, DstT.vec, DstT.scalar, hne]

/-- Two rows of one column, `ld_src = 1`, `ld_dst = 2`: the kernel returns `Success`, leaves
`dst[1 * ld_dst + 0]` unwritten, and writes the second row's element at `dst[1]`, outside the
window. -/
theorem decompressKblockS8S8fp_strided :
    (decompressKblockS8S8fp (.fp32 (id : ℚ → ℚ)) (fun t => byteOf (t + 5)) (fun _ => 0) 2 1 1 2).1
      = .success ∧
    (decompressKblockS8S8fp (.fp32 (id : ℚ → ℚ)) (fun t => byteOf (t + 5)) (fun _ => 0) 2 1 1 2).2
      (1 * 2 + 0) = 0 ∧
    (decompressKblockS8S8fp (.fp32 (id : ℚ → ℚ)) (fun t => byteOf (t + 5)) (fun _ => 0) 2 1 1 2).2 1
      = 6 := by
  rw [decompressKblockS8S8fp_dense _ _ _ 2 2 rfl]
  dsimp only
  refine ⟨rfl, Buf.store_apply_of_ge _ _ _ _ (by norm_num), ?_⟩
  simp [Buf.store, padtoLe, DstT.scalar, int8Val]

/-- **The `int8` kernel stores a dense run.** With `col = ld_src` and a float destination,
`decompress_kblock_s8_s8fp` returns `Success`, stores the conversion of `src[t]` at `dst[t]` for
every `t < row * col` whatever `ld_dst` is (the 64-wide body below `padto_le(row * col, 64)`, the
scalar loop above), and leaves `dst` from `row * col` on unchanged; so when `ld_dst = col` as
well, every element `(i, j)` of the tile lands at `i * ld_dst + j`. -/
theorem decompressKblockS8S8fp_fp32 [IntCast F] (cvt : F → D) (src : Buf Byte) (dst : Buf D)
    {col ldSrc : Nat} (row ldDst : Nat) (h : col = ldSrc) :
    let r := decompressKblockS8S8fp (.fp32 cvt) src dst row col ldSrc ldDst
    r.1 = .success ∧
    (∀ t, t < row * col → r.2 t = cvt (int8Val (src t) : F)) ∧
    (∀ t, row * col ≤ t → r.2 t = dst t) ∧
    (col = ldDst → ∀ i j, i < row → j < col →
      r.2 (i * ldDst + j) = cvt (int8Val (src (i * ldSrc + j)) : F)) := by
  have hd := decompressKblockS8S8fp_dense (.fp32 cvt) src dst row ldDst h
  have hrun : ∀ t, t < row * col → (decompressKblockS8S8fp (.fp32 cvt) src dst row col ldSrc ldDst).2 t
      = cvt (int8Val (src t) : F) := fun t ht => by
    rw [hd]; dsimp only
    rw [Buf.store_apply, if_pos ⟨Nat.zero_le _, by omega⟩, Nat.sub_zero]
    split_ifs <;> rfl
  refine ⟨by rw [hd], hrun, fun t ht => ?_, fun hd' i j hi hj => ?_⟩
  · rw [hd]; dsimp only; exact Buf.store_apply_of_ge _ _ _ _ (by omega)
  · subst h hd'
    exact hrun _ (row_col_lt hi hj)

/-- Thirty rows of five codes `t + 250`, with `ld_dst = 8`: element 7 of the 64-wide body is
`int8(257) = 1`, element 140 of the scalar loop is `int8(390) = -122`, and element 150, past the
run, keeps its 0. -/
theorem decompressKblockS8S8fp_fp32_dense_run :
    let r := decompressKblockS8S8fp (.fp32 (id : ℚ → ℚ)) (fun t => byteOf (t + 250)) (fun _ => 0) 30 5 5 8
    r.1 = .success ∧ r.2 7 = 1 ∧ r.2 140 = -122 ∧ r.2 150 = 0 := by
  obtain ⟨h1, hrun, hrest, -⟩ := @decompressKblockS8S8fp_fp32 ℚ ℚ _ id (fun t => byteOf (t + 250))
    (fun _ => 0) 5 5 30 8 rfl
  have h7 := hrun 7 (by decide)
  have h140 := hrun 140 (by decide)
  norm_num [int8Val] at h7 h140
  exact ⟨h1, h7, h140, hrest 150 (by decide)⟩

end Dense

end NeuralSpeed
