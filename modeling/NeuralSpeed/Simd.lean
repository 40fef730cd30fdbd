import NeuralSpeed.Memory

/-!
# AVX2 registers, lane by lane

The kernels' vector bodies are sequences of AVX2 intrinsics. Each register is modelled by its
lanes, and each intrinsic by what it puts in lane `l` of its result, as the Intel intrinsics
guide defines it.

* `M128i` is an `__m128i` read as sixteen bytes (byte 0 lowest). The byte operations the 4-bit
  unpack uses (`_mm_shuffle_epi8`, the 32-bit shifts, `_mm_and_si128`, the byte and quadword
  unpacks) work on these bytes; a 32-bit shift regroups four bytes into a little-endian lane
  (`lane32`) and splits the shifted lane again (`ofLanes32`).
* `M256 α` is an `__m256` (or an `__m256i` of 32-bit lanes) read as eight lanes of `α`. The
  lane-wise arithmetic intrinsics are generic in `α`: the kernels' theorems hold for every
  multiplication and addition, floating point included, or over exact ℚ where they bound
  values.

Loads and stores move a run of lanes between a register and a `Buf`.
-/

namespace NeuralSpeed

/-- A byte: `uint8_t`, or the bit pattern of an `int8_t`. -/
abbrev Byte := Fin 256

/-- The low eight bits of `n`, as a C conversion to an 8-bit type keeps them. -/
def byteOf (n : Nat) : Byte := ⟨n % 256, Nat.mod_lt _ (by norm_num)⟩

@[simp] theorem byteOf_val (n : Nat) : (byteOf n).val = n % 256 := rfl

/-- The value of a byte read as `int8_t`. -/
def int8Val (b : Byte) : Int := if b.val < 128 then b.val else b.val - 256

theorem int8Val_bounds (b : Byte) : -128 ≤ int8Val b ∧ int8Val b ≤ 127 := by
  have := b.isLt
  unfold int8Val; split_ifs <;> omega

theorem land_fifteen (x : Nat) : x &&& 15 = x % 16 := Nat.and_pow_two_sub_one_eq_mod x 4

/-! ## Byte registers -/

/-- An `__m128i` as sixteen bytes, byte `i` for `i < 16`. -/
abbrev M128i := Nat → Byte

/-- `_mm_loadl_epi64(p)`: the eight bytes at `p` in the low half, zeros in the high half. -/
def mmLoadlEpi64 (mem : Buf Byte) (p : Nat) : M128i := fun i => if i < 8 then mem (p + i) else 0

/-- `_mm_loadu_si128(p)`: the sixteen bytes at `p`. -/
def mmLoaduSi128 (mem : Buf Byte) (p : Nat) : M128i := fun i => mem (p + i)

/-- `_mm_set1_epi8(x)`. -/
def mmSet1Epi8 (x : Byte) : M128i := fun _ => x

/-- `_mm_shuffle_epi8(a, b)`: byte `i` is zero when bit 7 of `b i` is set, and otherwise byte
`b i % 16` of `a`. -/
def mmShuffleEpi8 (a b : M128i) : M128i :=
  fun i => if 128 ≤ (b i).val then 0 else a ((b i).val % 16)

/-- The 32-bit lane `w` of a byte register, little-endian. -/
def lane32 (a : M128i) (w : Nat) : Nat :=
  (a (4 * w)).val + 256 * (a (4 * w + 1)).val + 65536 * (a (4 * w + 2)).val +
    16777216 * (a (4 * w + 3)).val

/-- The byte register whose 32-bit lane `w` holds `f w` (reduced to 32 bits). -/
def ofLanes32 (f : Nat → Nat) : M128i := fun i => byteOf (f (i / 4) / 256 ^ (i % 4))

/-- `_mm_srli_epi32(a, k)`: each 32-bit lane shifted right by `k`. -/
def mmSrliEpi32 (a : M128i) (k : Nat) : M128i := ofLanes32 fun w => lane32 a w / 2 ^ k

/-- `_mm_slli_epi32(a, k)`: each 32-bit lane shifted left by `k`, dropping the bits above 31. -/
def mmSlliEpi32 (a : M128i) (k : Nat) : M128i := ofLanes32 fun w => lane32 a w * 2 ^ k % 2 ^ 32

/-- `_mm_and_si128(a, b)`. -/
def mmAndSi128 (a b : M128i) : M128i := fun i => byteOf ((a i).val &&& (b i).val)

/-- `_mm_sub_epi8(a, b)`: byte-wise subtraction modulo 256. -/
def mmSubEpi8 (a b : M128i) : M128i := fun i => byteOf ((a i).val + 256 - (b i).val)

/-- `_mm_unpacklo_epi8(a, b)`: the low eight bytes of `a` and `b`, interleaved. -/
def mmUnpackloEpi8 (a b : M128i) : M128i := fun i => if i % 2 = 0 then a (i / 2) else b (i / 2)

/-- `_mm_unpackhi_epi8(a, b)`: the high eight bytes of `a` and `b`, interleaved. -/
def mmUnpackhiEpi8 (a b : M128i) : M128i :=
  fun i => if i % 2 = 0 then a (8 + i / 2) else b (8 + i / 2)

/-- `_mm_unpacklo_epi64(a, b)`: the low quadword of `a`, then the low quadword of `b`. -/
def mmUnpackloEpi64 (a b : M128i) : M128i := fun i => if i < 8 then a i else b (i - 8)

/-- `_mm_maskload_epi32(p, mask)`: the four 32-bit lanes at `p`, each loaded when the sign bit of
the same lane of `mask` is set and zero otherwise. -/
def mmMaskloadEpi32 (mem : Buf Byte) (p : Nat) (mask : Nat → Int) : M128i :=
  fun i => if mask (i / 4) < 0 then mem (p + i) else 0

/-- `_mm_storeu_si128(p, a)`: the sixteen bytes of `a` at `p`. -/
def mmStoreuSi128 (mem : Buf Byte) (p : Nat) (a : M128i) : Buf Byte := mem.store p 16 a

@[simp] theorem lane32_val_lt (a : M128i) (w : Nat) : lane32 a w < 2 ^ 32 := by
  have h0 := (a (4 * w)).isLt; have h1 := (a (4 * w + 1)).isLt
  have h2 := (a (4 * w + 2)).isLt; have h3 := (a (4 * w + 3)).isLt
  simp only [lane32]; omega

/-- Byte `i` of a shifted-right lane, for `i < 4` the four bytes of lane 0. -/
theorem mmSrliEpi32_val (a : M128i) (k i : Nat) :
    (mmSrliEpi32 a k i).val = lane32 a (i / 4) / 2 ^ k / 256 ^ (i % 4) % 256 := rfl

/-! ## Eight-lane registers -/

/-- An `__m256` (or an `__m256i` of 32-bit lanes) as eight lanes, lane `l` for `l < 8`. -/
abbrev M256 (α : Type) := Nat → α

section Lanes

variable {α : Type}

/-- `_mm256_loadu_ps(p)`: the eight lanes at `p`. -/
def mm256LoaduPs (mem : Buf α) (p : Nat) : M256 α := fun l => mem (p + l)

/-- `_mm256_loadu_si256(p)` of eight `int32_t`. -/
def mm256LoaduSi256 (mem : Buf Int) (p : Nat) : M256 Int := fun l => mem (p + l)

/-- `_mm256_storeu_ps(p, v)`: the eight lanes of `v` at `p`. -/
def mm256StoreuPs (mem : Buf α) (p : Nat) (v : M256 α) : Buf α := mem.store p 8 v

/-- `_mm256_set1_ps(x)`. -/
def mm256Set1Ps (x : α) : M256 α := fun _ => x

/-- `_mm256_mul_ps(a, b)`. -/
def mm256MulPs [Mul α] (a b : M256 α) : M256 α := fun l => a l * b l

/-- `_mm256_add_ps(a, b)`. -/
def mm256AddPs [Add α] (a b : M256 α) : M256 α := fun l => a l + b l

/-- `_mm256_sub_ps(a, b)`. -/
def mm256SubPs [Sub α] (a b : M256 α) : M256 α := fun l => a l - b l

/-- `_mm256_setzero_ps()`. -/
def mm256SetzeroPs [Zero α] : M256 α := fun _ => 0

/-- `_mm256_fmadd_ps(a, b, c)`: `a * b + c` lane-wise, in exact arithmetic. -/
def mm256FmaddPs [Mul α] [Add α] (a b c : M256 α) : M256 α := fun l => a l * b l + c l

/-- `_mm256_cvtepu8_epi32(x)`: the low eight bytes zero-extended to 32-bit lanes. -/
def mm256CvtepuEpi32 (x : M128i) : M256 Nat := fun l => (x l).val

/-- `_mm256_i32gather_ps(base, idx, 4)`: lane `l` reads the float at index `idx l`. -/
def mm256I32gatherPs (base : Nat → α) (idx : M256 Nat) : M256 α := fun l => base (idx l)

/-- `_mm256_cvtepi8_epi32(x)`: the low eight bytes sign-extended to 32-bit lanes. -/
def mm256CvtepiEpi32 (x : M128i) : M256 Int := fun l => int8Val (x l)

/-- `_mm256_sub_epi32(a, b)`: on `Int` lanes where the operands are 8-bit values, which never
wrap, and on `BitVec 32` lanes modulo `2 ^ 32`. -/
def mm256SubEpi32 [Sub α] (a b : M256 α) : M256 α := fun l => a l - b l

/-- `_mm256_add_epi32(a, b)`. -/
def mm256AddEpi32 [Add α] (a b : M256 α) : M256 α := fun l => a l + b l

/-- `_mm256_set1_epi32(x)`. -/
def mm256Set1Epi32 (x : α) : M256 α := fun _ => x

/-- An `__m256i` of 32-bit lanes as bit patterns: lane `l` of `v` modulo `2 ^ 32`. -/
def lanes32 (v : M256 Int) : M256 (BitVec 32) := fun l => BitVec.ofInt 32 (v l)

/-- The 32-bit lanes of an `__m256i` read as `int32_t`. -/
def int32Lanes (v : M256 (BitVec 32)) : M256 Int := fun l => (v l).toInt

/-- A lane of `_mm256_cvtepi8_epi32` reads back as its `int8_t`: sign extension never wraps. -/
theorem int32Lanes_lanes32_cvtepi8 (x : M128i) (l : Nat) :
    int32Lanes (lanes32 (mm256CvtepiEpi32 x)) l = int8Val (x l) := by
  have := int8Val_bounds (x l)
  simp only [int32Lanes, lanes32, mm256CvtepiEpi32, BitVec.toInt_ofInt, Int.bmod]
  split_ifs <;> omega

/-- `_mm256_slli_epi32(a, k)`. -/
def mm256SlliEpi32 (a : M256 (BitVec 32)) (k : Nat) : M256 (BitVec 32) := fun l => a l <<< k

/-- `_mm256_srli_epi32(a, k)`. -/
def mm256SrliEpi32 (a : M256 (BitVec 32)) (k : Nat) : M256 (BitVec 32) := fun l => a l >>> k

/-- `_mm256_and_si256(a, b)`. -/
def mm256AndSi256 (a b : M256 (BitVec 32)) : M256 (BitVec 32) := fun l => a l &&& b l

/-- `_mm256_or_ps(a, b)` on the bit patterns of two float registers (`_mm256_castsi256_ps` only
reinterprets them). -/
def mm256OrPs (a b : M256 (BitVec 32)) : M256 (BitVec 32) := fun l => a l ||| b l

/-- `_mm256_cvtepi32_ps(x)`: each integer lane as a float. -/
def mm256Cvtepi32Ps [IntCast α] (x : M256 Int) : M256 α := fun l => (x l : α)

/-- `_mm256_setr_epi32(e0, …, e7)`: lane `l` is `e_l`. -/
def mm256SetrEpi32 (xs : List Nat) : M256 Nat := fun l => xs.getD l 0

/-- `_mm256_permutevar8x32_ps(a, idx)` and `_epi32`: lane `l` is lane `idx l % 8` of `a`. -/
def mm256Permutevar8x32 (a : M256 α) (idx : M256 Nat) : M256 α := fun l => a (idx l % 8)

/-- `_mm256_max_ps(a, b)` and `_mm256_max_epi32(a, b)`. -/
def mm256MaxPs [Max α] (a b : M256 α) : M256 α := fun l => max (a l) (b l)

/-- `_mm256_min_ps(a, b)` and `_mm256_min_epi32(a, b)`. -/
def mm256MinPs [Min α] (a b : M256 α) : M256 α := fun l => min (a l) (b l)

/-- `_mm256_permute_ps(a, imm)`: within each 128-bit half, lane `l` takes the lane the two bits
of `imm` at `2 * (l % 4)` select. -/
def mm256PermutePs (a : M256 α) (imm : Nat) : M256 α := fun l => a (l / 4 * 4 + imm / 4 ^ (l % 4) % 4)

/-- `_mm256_permute2f128_ps(a, b, imm)`: each 128-bit half of the result is the half of `a` or
`b` that the low or high nibble of `imm` selects (the zeroing bits are not used). -/
def mm256Permute2f128Ps (a b : M256 α) (imm : Nat) : M256 α := fun l =>
  let sel := if l < 4 then imm % 4 else imm / 16 % 4
  (if sel < 2 then a else b) (sel % 2 * 4 + l % 4)

/-- `_mm_storel_epi64(p, a)`: the low eight bytes of `a` at `p`. -/
def mmStorelEpi64 (mem : Buf Byte) (p : Nat) (a : M128i) : Buf Byte := mem.store p 8 a

/-- `_mm256_permutexvar_ps(idx, a)` and `_epi32`: the same permutation, index first. -/
def mm256Permutexvar (idx : M256 Nat) (a : M256 α) : M256 α := mm256Permutevar8x32 a idx

@[simp] theorem mm256MulPs_apply [Mul α] (a b : M256 α) (l : Nat) :
    mm256MulPs a b l = a l * b l := rfl

@[simp] theorem mm256AddPs_apply [Add α] (a b : M256 α) (l : Nat) :
    mm256AddPs a b l = a l + b l := rfl

@[simp] theorem mm256SubPs_apply [Sub α] (a b : M256 α) (l : Nat) :
    mm256SubPs a b l = a l - b l := rfl

@[simp] theorem mm256SetzeroPs_apply [Zero α] (l : Nat) : (mm256SetzeroPs : M256 α) l = 0 := rfl

@[simp] theorem mm256LoaduPs_apply (mem : Buf α) (p l : Nat) : mm256LoaduPs mem p l = mem (p + l) :=
  rfl

@[simp] theorem mm256Set1Ps_apply (x : α) (l : Nat) : mm256Set1Ps x l = x := rfl

@[simp] theorem mm256FmaddPs_apply [Mul α] [Add α] (a b c : M256 α) (l : Nat) :
    mm256FmaddPs a b c l = a l * b l + c l := rfl

@[simp] theorem mm256I32gatherPs_apply (base : Nat → α) (idx : M256 Nat) (l : Nat) :
    mm256I32gatherPs base idx l = base (idx l) := rfl

end Lanes

end NeuralSpeed
