import NeuralSpeed.Bf16
import NeuralSpeed.Rounding

/-!
# Writing tiles back between bf16 and float

`bf16_cvt_fp32_2D_write_back` widens a `row × col` tile of `utils::bf16` into floats, and
`fp32_cvt_bf16_2D_write_back` narrows a tile of floats into `utils::bf16`. Both work row by
row: an 8-wide vector body up to `col / 8 * 8`, a scalar tail, and, with `zeropadding`, a
`std::memset` of the bytes between the row's last element and the next row's start. The first
takes element strides, the second byte strides, so both are modelled on byte memory.

The widening puts each bf16 in the top half of a float: `_mm256_cvtepu16_epi32`, then
`_mm256_bslli_epi128` by two bytes. The narrowing `cvt_fp32_to_bf16` adds the rounding bias
`0x7fff + lsb`, where `lsb` is the last bit a bf16 keeps. `_mm256_shuffle_epi8` with
`avx2_bf16_convert_maigc_num` then gathers the top halves of each 128-bit half into its low 8
bytes, and `_mm256_permute4x64_epi64` with `0x58` moves the two gathered quadwords next to each
other. The scalar tails use `utils::bf16::tofloat` and `utils::bf16::fromfloat`
(`bestla_utils.h`, not under src/). `tofloat` is modelled from the spec as a shift (`Bf16.lean`).
`fromfloat` is a parameter of the narrowing kernel; the round trip takes the spec's
`bf16Fromfloat`, whose bf16 has no subnormals, so a float with a zero exponent field becomes the
zero of its sign.

* `cvtFp32ToBf16_apply` — byte `b` of the narrowed register is byte `b % 2` of the rounded top
  half of lane `b / 2`: the shuffle and the permute return the eight lanes in order.
* `bf16RoundBias_bf16Tofloat` — the bias never carries out of the zero low half of a widened
  bf16, so narrowing it gives the bf16 back, whatever its pattern.
* `bf16RoundBias_roundHalfEven` — the bias rounds the float's pattern over `2^16` to nearest,
  ties to even; `bf16RoundBias_value` — a float that does not round up to an infinity narrows
  within half a bf16 step of itself, `2^-8` relatively.
* `bf16CvtFp32_2DWriteBack_eq`, `fp32CvtBf16_2DWriteBack_eq` — what each kernel writes, byte by
  byte: the converted elements and, with `zeropadding`, zeros up to the next row.
  `fp32CvtBf16_2DWriteBack_rounding` and `fp32CvtBf16_2DWriteBack_error` carry the two rounding
  facts to every element of the narrowing's vector body.
* `fp32CvtBf16_2DWriteBack_roundtrip` — widening a tile and narrowing it back returns every bf16
  byte for byte, except a subnormal in the scalar tail, which comes back as the zero of its sign
  (`fp32CvtBf16_2DWriteBack_roundtrip_subnormal`). With `zeropadding` set, each kernel zero-fills
  exactly the gap bytes of its rows, and neither writes past its last row.
-/

namespace NeuralSpeed

/-! ## Little-endian values in byte memory -/

/-- Byte `k` of a value stored little-endian. -/
def leBytes (x : Nat) : Nat → Byte := fun k => byteOf (x / 256 ^ k)

/-- The float at byte `p` of a byte buffer, little-endian. -/
def fp32At (mem : Buf Byte) (p : Nat) : BitVec 32 :=
  BitVec.ofNat 32 (lane32 (fun k => mem (p + k)) 0)

/-- `*(float*)p = x` on byte memory. -/
def storeFp32 (mem : Buf Byte) (p : Nat) (x : BitVec 32) : Buf Byte := mem.store p 4 (leBytes x.toNat)

/-- `((utils::bf16*)p)->x = x` on byte memory. -/
def storeBf16 (mem : Buf Byte) (p : Nat) (x : BitVec 16) : Buf Byte := mem.store p 2 (leBytes x.toNat)

theorem bytes256_eq_leBytes (a : M256 (BitVec 32)) (b : Nat) :
    bytes256 a b = leBytes (a (b / 4)).toNat (b % 4) := rfl

/-- Reading a float back from its four bytes gives it. -/
theorem fp32At_of_leBytes {mem : Buf Byte} {p : Nat} {x : BitVec 32}
    (h : ∀ k, k < 4 → mem (p + k) = leBytes x.toNat k) : fp32At mem p = x := by
  have hx := x.isLt
  apply BitVec.eq_of_toNat_eq
  simp only [fp32At, lane32, Nat.mul_zero, Nat.zero_add, BitVec.toNat_ofNat]
  rw [← Nat.add_zero p, h 0 (by norm_num), Nat.add_zero, h 1 (by norm_num), h 2 (by norm_num),
    h 3 (by norm_num)]
  simp only [leBytes, byteOf_val]
  omega

/-- Reading a bf16 back from its two bytes gives it. -/
theorem bf16At_of_leBytes {mem : Buf Byte} {p : Nat} {x : BitVec 16}
    (h : ∀ k, k < 2 → mem (p + k) = leBytes x.toNat k) : bf16At mem p = x := by
  have hx := x.isLt
  apply BitVec.eq_of_toNat_eq
  simp only [bf16At, BitVec.toNat_ofNat]
  rw [← Nat.add_zero p, h 0 (by norm_num), Nat.add_zero, h 1 (by norm_num)]
  simp only [leBytes, byteOf_val]
  omega

/-- The bytes of a register built from bytes are those bytes. -/
@[simp] theorem bytes256_ofBytes256 (f : Nat → Byte) (b : Nat) : bytes256 (ofBytes256 f) b = f b := by
  apply Fin.ext
  have h0 := (f (4 * (b / 4))).isLt
  have h1 := (f (4 * (b / 4) + 1)).isLt
  have h2 := (f (4 * (b / 4) + 2)).isLt
  have h3 := (f (4 * (b / 4) + 3)).isLt
  rw [bytes256, ofBytes256_toNat, byteOf_val, lane32]
  obtain ⟨w, j, hj, rfl⟩ : ∃ w j, j < 4 ∧ b = 4 * w + j := ⟨b / 4, b % 4, Nat.mod_lt _ (by norm_num),
    (Nat.div_add_mod b 4).symm⟩
  simp only [show (4 * w + j) / 4 = w by omega, show (4 * w + j) % 4 = j by omega] at *
  interval_cases j <;> simp <;> omega

/-! ## Byte-granular intrinsics -/

/-- `_mm256_loadu_ps(p)` and `_mm256_loadu_si256(p)` on byte memory: the 32 bytes at `p` as
eight little-endian lanes. -/
def mm256LoaduBytes (mem : Buf Byte) (p : Nat) : M256 (BitVec 32) := ofBytes256 fun b => mem (p + b)

/-- `_mm256_storeu_ps(p, v)` on byte memory. -/
def mm256StoreuBytes (mem : Buf Byte) (p : Nat) (v : M256 (BitVec 32)) : Buf Byte :=
  mem.store p 32 (bytes256 v)

/-- `_mm256_bslli_epi128(a, k)`: each 128-bit half shifted left by `k` bytes, shifting in
zeros. -/
def mm256BslliEpi128 (a : M256 (BitVec 32)) (k : Nat) : M256 (BitVec 32) :=
  ofBytes256 fun b => if k ≤ b % 16 then bytes256 a (b - k) else 0

/-- `_mm256_srli_si256(a, k)`, the shift of `_mm256_bsrli_epi128`. -/
def mm256SrliSi256 (a : M256 (BitVec 32)) (k : Nat) : M256 (BitVec 32) := mm256BsrliEpi128 a k

/-- `_mm256_shuffle_epi8(a, b)`: in each 128-bit half, byte `i` is zero when bit 7 of byte `i`
of `b` is set, and otherwise the byte of the same half of `a` that its low four bits name. -/
def mm256ShuffleEpi8 (a b : M256 (BitVec 32)) : M256 (BitVec 32) :=
  ofBytes256 fun i =>
    if 128 ≤ (bytes256 b i).val then 0 else bytes256 a (i / 16 * 16 + (bytes256 b i).val % 16)

/-- `_mm256_permute4x64_epi64(a, imm)`: quadword `q` is quadword `imm >> 2q & 3` of `a`. -/
def mm256Permute4x64Epi64 (a : M256 (BitVec 32)) (imm : Nat) : M256 (BitVec 32) :=
  ofBytes256 fun i => bytes256 a (imm / 4 ^ (i / 8) % 4 * 8 + i % 8)

/-- `_mm256_castsi256_si128(a)`: the low 128 bits. -/
def mm256Castsi256Si128 (a : M256 (BitVec 32)) : M128i := fun i => bytes256 a i

/-- `avx2_bf16_convert_maigc_num`: in each 128-bit half, the top two bytes of the four 32-bit
lanes, then eight bytes with bit 7 set. -/
def avx2Bf16ConvertMaigcNum : Buf Byte := fun i =>
  byteOf ([0x02, 0x03, 0x06, 0x07, 0x0a, 0x0b, 0x0e, 0x0f, 0x80, 0x80, 0x80, 0x80, 0x80, 0x80, 0x80,
    0x80, 0x02, 0x03, 0x06, 0x07, 0x0a, 0x0b, 0x0e, 0x0f, 0x80, 0x80, 0x80, 0x80, 0x80, 0x80, 0x80,
    0x80].getD i 0)

/-! ## The narrowing -/

/-- `cvt_fp32_to_bf16(src, and_helper, add_helper)`, with the helpers passed by value. -/
def cvtFp32ToBf16 (src andHelper addHelper : M256 (BitVec 32)) : M128i :=
  let shuffleV := mm256LoaduBytes avx2Bf16ConvertMaigcNum 0
  let roundBias := src
  let roundBias := mm256AndSi256 andHelper (mm256SrliSi256 roundBias 2)
  let roundBias := mm256AddEpi32 roundBias addHelper
  let roundFp32V := mm256AddEpi32 src roundBias
  let truncElements := mm256ShuffleEpi8 roundFp32V shuffleV
  let ordered := mm256Permute4x64Epi64 truncElements 0x58
  mm256Castsi256Si128 ordered

/-- The rounding of the vector body on one float: the top half of `x + 0x7fff + lsb` (modulo
`2^32`), where `lsb` is bit 16 of `x`, the last bit a bf16 keeps. -/
def bf16RoundBias (x : BitVec 32) : BitVec 16 :=
  BitVec.ofNat 16 ((x.toNat + 0x7fff + x.toNat / 65536 % 2) % 2 ^ 32 / 65536)

/-- The table selects, for byte `i` of a half, the top bytes of lane `i / 2` of that half when
`i % 16 < 8`, and sets bit 7 otherwise. -/
theorem avx2Bf16ConvertMaigcNum_val {i : Nat} (hi : i < 32) :
    (avx2Bf16ConvertMaigcNum i).val = if i % 16 < 8 then 4 * (i % 16 / 2) + 2 + i % 2 else 0x80 := by
  interval_cases i <;> rfl

/-- After the shuffle and the `0x58` permute, byte `b < 16` is byte `2 + b % 2` of lane
`b / 2`. -/
theorem shuffle_permute_apply (r : M256 (BitVec 32)) {b : Nat} (hb : b < 16) :
    mm256Castsi256Si128 (mm256Permute4x64Epi64
      (mm256ShuffleEpi8 r (mm256LoaduBytes avx2Bf16ConvertMaigcNum 0)) 0x58) b
      = bytes256 r (4 * (b / 2) + 2 + b % 2) := by
  -- the permute takes byte `b` of the low half from byte `b` of quadword 0 or 2 of the shuffle
  have hsel : 0x58 / 4 ^ (b / 8) % 4 * 8 + b % 8 = b + b / 8 * 8 := by interval_cases b <;> rfl
  -- whose table entry names byte `2 + b % 2` of lane `b % 8 / 2` of its half
  have htab : (avx2Bf16ConvertMaigcNum (b + b / 8 * 8)).val = 4 * (b % 8 / 2) + 2 + b % 2 := by
    rw [avx2Bf16ConvertMaigcNum_val (by omega), if_pos (by omega)]; omega
  simp only [mm256Castsi256Si128, mm256Permute4x64Epi64, mm256ShuffleEpi8, mm256LoaduBytes,
    bytes256_ofBytes256, Nat.zero_add, hsel, htab, if_neg (show ¬ 128 ≤ 4 * (b % 8 / 2) + 2 + b % 2 by omega)]
  congr 1; omega

/-- Byte `b < 16` of the narrowed register is byte `b % 2` of the rounded lane `b / 2`: the
shuffle and the permute return the eight lanes in order. -/
theorem cvtFp32ToBf16_apply (x : M256 (BitVec 32)) {b : Nat} (hb : b < 16) :
    cvtFp32ToBf16 x (mm256Set1Epi32 1#32) (mm256Set1Epi32 0x7fff#32) b
      = leBytes (bf16RoundBias (x (b / 2))).toNat (b % 2) := by
  -- the rounded lane, before the shuffle
  have hround : ∀ l, (mm256AddEpi32 x (mm256AddEpi32 (mm256AndSi256 (mm256Set1Epi32 1#32)
      (mm256SrliSi256 x 2)) (mm256Set1Epi32 0x7fff#32)) l).toNat
        = ((x l).toNat + 0x7fff + (x l).toNat / 65536 % 2) % 2 ^ 32 := fun l => by
    have hlsb : (mm256SrliSi256 x 2 l).toNat % 2 = (x l).toNat / 65536 % 2 := by
      rw [← mm256BsrliEpi128_two_low, mm256SrliSi256, Nat.mod_mod_of_dvd _ (by norm_num)]
    simp only [mm256AddEpi32, mm256AndSi256, mm256Set1Epi32]
    rw [BitVec.toNat_add, BitVec.toNat_add, BitVec.toNat_and, show (1#32).toNat = 1 from rfl,
      show (32767#32).toNat = 32767 from rfl, Nat.one_and_eq_mod_two, hlsb]
    omega
  simp only [cvtFp32ToBf16]
  rw [shuffle_permute_apply _ hb, bytes256_eq_leBytes, show (4 * (b / 2) + 2 + b % 2) / 4 = b / 2 by omega,
    show (4 * (b / 2) + 2 + b % 2) % 4 = 2 + b % 2 by omega, hround]
  simp only [leBytes, bf16RoundBias, BitVec.toNat_ofNat]
  apply congrArg byteOf
  have ha := Nat.mod_lt ((x (b / 2)).toNat + 0x7fff + (x (b / 2)).toNat / 65536 % 2)
    (show 0 < 2 ^ 32 by norm_num)
  generalize ((x (b / 2)).toNat + 0x7fff + (x (b / 2)).toNat / 65536 % 2) % 2 ^ 32 = a at ha ⊢
  rcases Nat.mod_two_eq_zero_or_one b with h | h <;> rw [h] <;> omega

/-- The bias `0x7fff + lsb` never carries out of the zero low half of a widened bf16, so the
vector body gives every bf16 pattern back, NaN payloads and subnormals included. -/
theorem bf16RoundBias_bf16Tofloat (y : BitVec 16) : bf16RoundBias (bf16Tofloat y) = y := by
  have hy : y.toNat < 65536 := y.isLt
  have hlow : y.toNat * 65536 % 2 ^ 32 = y.toNat * 65536 := Nat.mod_eq_of_lt (by omega)
  apply BitVec.eq_of_toNat_eq
  simp only [bf16RoundBias, bf16Tofloat, BitVec.toNat_ofNat, hlow,
    Nat.mul_div_cancel _ (show 0 < 65536 by norm_num)]
  have hsum : y.toNat * 65536 + 32767 + y.toNat % 2 < 2 ^ 32 := by omega
  have hdiv : (y.toNat * 65536 + 32767 + y.toNat % 2) / 65536 = y.toNat := by omega
  rw [Nat.mod_eq_of_lt hsum, hdiv, Nat.mod_eq_of_lt hy]

/-- Modelled from the spec: `utils::bf16::fromfloat` (`bestla_utils.h`, not under src/). The
spec's bf16 has eight exponent bits, seven mantissa bits and no subnormals, so a float with a zero
exponent field becomes the zero of its sign, and a NaN keeps its sign and the top seven bits of
its payload, made quiet when those are all zero so that it stays a NaN. Every other float is
rounded to seven mantissa bits, to nearest with ties to even as the vector body rounds (the spec
leaves the rounding of the last bit to the implementation), and past the largest bf16 to an
infinity. -/
def bf16Fromfloat (x : BitVec 32) : BitVec 16 :=
  let n := x.toNat
  if n / 2 ^ 23 % 256 = 0 then BitVec.ofNat 16 (n / 2 ^ 31 * 0x8000)
  else if n / 2 ^ 23 % 256 = 255 ∧ n % 2 ^ 23 ≠ 0 then
    BitVec.ofNat 16 (if n / 65536 % 128 = 0 then n / 65536 + 0x40 else n / 65536)
  else bf16RoundBias x

/-- A subnormal bf16 pattern: a zero exponent field and a nonzero mantissa, which the spec's bf16
does not have. -/
def Bf16Subnormal (y : BitVec 16) : Prop := y.toNat / 128 % 256 = 0 ∧ y.toNat % 128 ≠ 0

instance : DecidablePred Bf16Subnormal := fun _ => inferInstanceAs (Decidable (_ ∧ _))

/-- `fromfloat` gives a widened bf16 back, whatever its pattern, except a subnormal, which
becomes the zero of its sign. -/
theorem bf16Fromfloat_bf16Tofloat (y : BitVec 16) :
    bf16Fromfloat (bf16Tofloat y)
      = if Bf16Subnormal y then BitVec.ofNat 16 (y.toNat / 32768 * 32768) else y := by
  have hy : y.toNat < 65536 := y.isLt
  have hn : (bf16Tofloat y).toNat = y.toNat * 65536 := by
    simp only [bf16Tofloat, BitVec.toNat_ofNat]; omega
  have he : y.toNat * 65536 / 2 ^ 23 % 256 = y.toNat / 128 % 256 := by omega
  have hm : y.toNat * 65536 % 2 ^ 23 = y.toNat % 128 * 65536 := by omega
  unfold bf16Fromfloat Bf16Subnormal
  simp only [hn, he, hm, Nat.mul_div_cancel _ (show 0 < 65536 by norm_num),
    show y.toNat * 65536 / 2 ^ 31 = y.toNat / 32768 by omega]
  by_cases hsub : y.toNat / 128 % 256 = 0 ∧ y.toNat % 128 ≠ 0
  · rw [if_pos hsub.1, if_pos hsub]
  · rw [if_neg hsub]
    split_ifs with h0 hnan hq
    · -- a zero: its sign bit alone
      apply BitVec.eq_of_toNat_eq; simp only [BitVec.toNat_ofNat]; omega
    · -- a NaN whose top payload bits are zero is not a widened bf16
      omega
    · -- a NaN keeps its payload
      apply BitVec.eq_of_toNat_eq; simp only [BitVec.toNat_ofNat]; omega
    · exact bf16RoundBias_bf16Tofloat y

/-- The bias carries into the kept half exactly when the dropped half is over `0x8000`, or is
`0x8000` with an odd kept half; a carry out of the top wraps to zero. -/
theorem bf16RoundBias_toNat (x : BitVec 32) :
    (bf16RoundBias x).toNat
      = (x.toNat / 65536 + if 65536 < 2 * (x.toNat % 65536) ∨
          (2 * (x.toNat % 65536) = 65536 ∧ x.toNat / 65536 % 2 = 1) then 1 else 0) % 65536 := by
  simp only [bf16RoundBias, BitVec.toNat_ofNat]
  obtain ⟨q, r, hr, hx⟩ : ∃ q r, r < 65536 ∧ x.toNat = 65536 * q + r :=
    ⟨x.toNat / 65536, x.toNat % 65536, Nat.mod_lt _ (by norm_num), (Nat.div_add_mod _ 65536).symm⟩
  rw [hx, show (2 : Nat) ^ 32 = 65536 * 65536 from rfl, show (2 : Nat) ^ 16 = 65536 from rfl,
    Nat.mod_mul_right_div_self, Nat.mod_mod, Nat.add_assoc, Nat.add_assoc, Nat.mul_add_div (by norm_num),
    Nat.mul_add_div (by norm_num), Nat.mul_add_mod, Nat.div_eq_of_lt hr, Nat.mod_eq_of_lt hr]
  clear hx
  split_ifs <;> omega

/-- The vector body rounds half to even: the bf16 it keeps of a float is the float's bit pattern
over `2^16`, rounded to nearest with ties to an even pattern, modulo `2^16` (the patterns within
half a step of `2^32` wrap to zero). -/
theorem bf16RoundBias_roundHalfEven (x : BitVec 32) :
    ((bf16RoundBias x).toNat : Int) = roundHalfEven ((x.toNat : ℚ) / 65536) % 65536 := by
  have h := roundHalfEven_natCast_div x.toNat (d := 65536) (by norm_num)
  rw [Nat.cast_ofNat] at h
  rw [bf16RoundBias_toNat, h]
  split_ifs <;> omega

/-- Rounding moves a pattern that does not round up to an infinity by at most `0x8000`, keeps its
sign and leaves it finite: within its binade, or up onto the start of the next one. -/
theorem bf16RoundBias_move (u : BitVec 32) (hfin : u.toNat % 2 ^ 31 < 0x7f7f8000) :
    let n := u.toNat
    let n' := (bf16Tofloat (bf16RoundBias u)).toNat
    n' / 2 ^ 31 % 2 = n / 2 ^ 31 % 2 ∧ n / 2 ^ 23 % 256 ≠ 255 ∧ n' / 2 ^ 23 % 256 ≠ 255 ∧
      (-32768 ≤ (n' : Int) - n ∧ (n' : Int) - n ≤ 32768) ∧
      ((n' / 2 ^ 23 % 256 = n / 2 ^ 23 % 256 ∧
          ((n' % 2 ^ 23 : Nat) : Int) = (n % 2 ^ 23 : Nat) + ((n' : Int) - n)) ∨
        (n' / 2 ^ 23 % 256 = n / 2 ^ 23 % 256 + 1 ∧ n' % 2 ^ 23 = 0 ∧
          ((n % 2 ^ 23 : Nat) : Int) + ((n' : Int) - n) = 2 ^ 23)) := by
  intro n n'
  have hu : n < 2 ^ 32 := u.isLt
  -- the rounded pattern is the top half plus a carry that rounds the low half to nearest
  obtain ⟨c, hc1, hc0, hcu, hn'⟩ : ∃ c, c ≤ 1 ∧ (c = 0 → n % 65536 ≤ 32768) ∧
      (c = 1 → 32768 ≤ n % 65536) ∧ n' = (n / 65536 + c) * 65536 := by
    simp only [n', n, bf16Tofloat, BitVec.toNat_ofNat, bf16RoundBias_toNat]
    norm_num at hfin ⊢
    split_ifs
    · exact ⟨1, le_rfl, by omega, fun _ => by omega, by omega⟩
    · exact ⟨0, by omega, fun _ => by omega, by omega, by omega⟩
  norm_num at hfin hu ⊢
  omega

/-- Narrowing a float that does not round up to an infinity keeps its sign and lands within half
a bf16 step of it: `2^-8` of it relatively for a normal float, `2^-134` for a subnormal one. -/
theorem bf16RoundBias_value (u : BitVec 32) (hfin : u.toNat % 2 ^ 31 < 0x7f7f8000) :
    ∃ v v', fp32Value u = some v ∧ fp32Value (bf16Tofloat (bf16RoundBias u)) = some v' ∧
      0 ≤ v * v' ∧ |v - v'| ≤ if u.toNat / 2 ^ 23 % 256 = 0 then 2 ^ (-134 : ℤ) else |v| / 256 := by
  obtain ⟨hsgn, hE, hE', hd, hbin⟩ := bf16RoundBias_move u hfin
  exact fp32Value_near hsgn hE hE' hd hbin

/-! ## The widening -/

/-- Shifting the zero-extended 16-bit lanes left by two bytes in each 128-bit half puts each in
the top half of its lane, as `ymm_cvt_bf16_fp32` does with a 16-bit shift: the two bytes that
enter a lane from below are the zero top bytes of its neighbour, or zeros at a half's start. -/
theorem mm256BslliEpi128_cvtepu16 (v : M128i) (l : Nat) :
    mm256BslliEpi128 (mm256Cvtepu16Epi32 v) 2 l = ymmCvtBf16Fp32 v l := by
  have hv : ∀ l, (mm256Cvtepu16Epi32 v l).toNat = lane16 v l := fun l => by
    have h0 := (v (2 * l)).isLt
    have h1 := (v (2 * l + 1)).isLt
    simp only [mm256Cvtepu16Epi32, BitVec.toNat_ofNat, lane16]
    omega
  -- bytes 2 and 3 of every zero-extended lane are zero
  have hhigh : ∀ l j, 2 ≤ j → j < 4 → (bytes256 (mm256Cvtepu16Epi32 v) (4 * l + j)).val = 0 :=
    fun l j h2 h4 => by
      have h0 := (v (2 * l)).isLt
      have h1 := (v (2 * l + 1)).isLt
      rw [bytes256_val _ h4, hv, lane16]
      interval_cases j <;> omega
  have hlow : ∀ j, j < 2 → (bytes256 (mm256Cvtepu16Epi32 v) (4 * l + j)).val = lane16 v l / 256 ^ j % 256 :=
    fun j hj => by rw [bytes256_val _ (by omega), hv]
  -- the two bytes entering lane `l` from below are zero
  have hz : ∀ c, 4 * l ≤ c → c < 4 * l + 2 →
      (if 2 ≤ c % 16 then bytes256 (mm256Cvtepu16Epi32 v) (c - 2) else 0 : Byte).val = 0 :=
    fun c h1 h2 => by
      split_ifs
      · rw [show c - 2 = 4 * (l - 1) + (c + 2 - 4 * l) by omega]
        exact hhigh _ _ (by omega) (by omega)
      · rfl
  have hl : lane16 v l < 65536 := by
    have h0 := (v (2 * l)).isLt; have h1 := (v (2 * l + 1)).isLt; simp only [lane16]; omega
  apply BitVec.eq_of_toNat_eq
  rw [ymmCvtBf16Fp32_toNat, mm256BslliEpi128, ofBytes256_toNat, lane32]
  simp only [if_pos (show 2 ≤ (4 * l + 2) % 16 by omega), if_pos (show 2 ≤ (4 * l + 3) % 16 by omega),
    show 4 * l + 2 - 2 = 4 * l + 0 by omega, show 4 * l + 3 - 2 = 4 * l + 1 by omega,
    hlow 0 (by norm_num), hlow 1 (by norm_num), hz (4 * l) le_rfl (by omega),
    hz (4 * l + 1) (by omega) (by omega)]
  omega

/-! ## Widening a tile -/

/-- `bf16_cvt_fp32_2D_write_back(src_ptr, dst_ptr, row, col, src_step, dst_step, zeropadding)`
on byte memory: row `i` of `src_ptr` starts at byte `2 * (i * src_step)` and row `i` of
`dst_ptr` at byte `4 * (i * dst_step)`. -/
def bf16CvtFp32_2DWriteBack (srcPtr dstPtr : Buf Byte) (row col srcStep dstStep : Nat)
    (zeropadding : Bool) : BtlaCode × Buf Byte :=
  let npadding := (dstStep - col) * 4
  let colBody := col / 8 * 8
  let dstPtr := forLoop 0 1 row (fun i dstPtr =>
    let src := 2 * (i * srcStep)
    let dst := 4 * (i * dstStep)
    let dstPtr := forLoop 0 8 (tripCount 0 colBody 8) (fun j dstPtr =>
      let bf16V := mmLoaduSi128 srcPtr (src + 2 * j)
      let fp32V := mm256BslliEpi128 (mm256Cvtepu16Epi32 bf16V) 2
      mm256StoreuBytes dstPtr (dst + 4 * j) fp32V) dstPtr
    let dstPtr := forLoop colBody 1 (tripCount colBody col 1) (fun j dstPtr =>
      storeFp32 dstPtr (dst + 4 * j) (bf16Tofloat (bf16At srcPtr (src + 2 * j)))) dstPtr
    if zeropadding && npadding != 0 then dstPtr.store (dst + 4 * col) npadding fun _ => 0
    else dstPtr) dstPtr
  (.success, dstPtr)

/-- Byte `t` of row `i` after `bf16_cvt_fp32_2D_write_back`: byte `t % 4` of the float of bf16
`t / 4` of the row, or a padding zero. -/
def bf16CvtFp32Row (srcPtr : Buf Byte) (srcStep col i t : Nat) : Byte :=
  if t < 4 * col then
    leBytes (bf16Tofloat (bf16At srcPtr (2 * (i * srcStep) + 2 * (t / 4)))).toNat (t % 4)
  else 0

/-- A row whose `4 * col` element bytes are `u`, followed by `n` zeros, when `u` is zero past
the elements. -/
theorem store_pad {b : Buf Byte} {p m n : Nat} {u : Nat → Byte} (hu : ∀ t, m ≤ t → u t = 0) :
    (b.store p m u).store (p + m) n (fun _ => 0) = b.store p (m + n) u := by
  rw [← Buf.store_store_append]
  exact Buf.store_congr _ _ _ fun k _ => (hu _ (Nat.le_add_right _ _)).symm

/-- Row by row, the widening writes the float of every bf16 of the window and, with
`zeropadding`, zeros up to the next row; nothing else. -/
theorem bf16CvtFp32_2DWriteBack_eq (srcPtr dstPtr : Buf Byte) {row col srcStep dstStep : Nat}
    (hd : col ≤ dstStep) (zeropadding : Bool) :
    bf16CvtFp32_2DWriteBack srcPtr dstPtr row col srcStep dstStep zeropadding
      = (.success, dstPtr.window (4 * dstStep) (if zeropadding then 4 * dstStep else 4 * col) row
          (bf16CvtFp32Row srcPtr srcStep col)) := by
  simp only [bf16CvtFp32_2DWriteBack, Prod.mk.injEq, true_and]
  refine Buf.forLoop_rows _ (by split_ifs <;> omega) _ _ _ fun i d _ => ?_
  have hrow := @row_store_scaled _ (fun j dstPtr => mm256StoreuBytes dstPtr (4 * (i * dstStep) + 4 * j)
      (mm256BslliEpi128 (mm256Cvtepu16Epi32 (mmLoaduSi128 srcPtr (2 * (i * srcStep) + 2 * j))) 2))
    (fun j dstPtr => storeFp32 dstPtr (4 * (i * dstStep) + 4 * j)
      (bf16Tofloat (bf16At srcPtr (2 * (i * srcStep) + 2 * j))))
    d (4 * (i * dstStep)) col 4 (bf16CvtFp32Row srcPtr srcStep col i)
    (fun k d hk => by
      simp only [mm256StoreuBytes, Nat.zero_add]
      refine Buf.store_congr _ _ _ fun t ht => ?_
      rw [bytes256_eq_leBytes, mm256BslliEpi128_cvtepu16, ymmCvtBf16Fp32_loadu, bf16CvtFp32Row,
        if_pos (by omega), show (4 * (k * 8) + t) / 4 = k * 8 + t / 4 by omega,
        show (4 * (k * 8) + t) % 4 = t % 4 by omega, Nat.mul_add, Nat.add_assoc])
    (fun k d hk => by
      simp only [storeFp32, Nat.mul_one]
      refine Buf.store_congr _ _ _ fun t ht => ?_
      rw [bf16CvtFp32Row, if_pos (by omega), show (4 * (col / 8 * 8 + k) + t) / 4 = col / 8 * 8 + k by omega,
        show (4 * (col / 8 * 8 + k) + t) % 4 = t by omega])
  simp only at hrow
  rw [hrow, show i * (4 * dstStep) = 4 * (i * dstStep) by ring]
  by_cases hz : zeropadding = true ∧ (dstStep - col) * 4 ≠ 0
  · rw [if_pos (by simpa using hz), if_pos hz.1, store_pad fun t ht => by
      rw [bf16CvtFp32Row, if_neg (by omega)], show 4 * col + (dstStep - col) * 4 = 4 * dstStep by omega]
  · rw [if_neg (by simpa using hz)]
    cases zeropadding
    · rfl
    · rw [if_pos rfl, show dstStep = col by simp at hz; omega]

/-! ## Narrowing a tile -/

/-- `fp32_cvt_bf16_2D_write_back(raw_srcptr, raw_dstptr, row, col, srcstride, dststride,
zeropadding)` on byte memory, with `utils::bf16::fromfloat` as `fromfloat`: row `i` starts at byte
`i * srcstride` of the source and at byte `i * dststride` of the destination. -/
def fp32CvtBf16_2DWriteBack (fromfloat : BitVec 32 → BitVec 16) (srcptr dstptr : Buf Byte)
    (row col srcstride dststride : Nat) (zeropadding : Bool) : BtlaCode × Buf Byte :=
  let bf16AndHelper := mm256Set1Epi32 0x00000001#32
  let bf16AddHelper := mm256Set1Epi32 0x00007FFF#32
  let colBodyLoop := col / 8 * 8
  let npadding := dststride - col * 2
  let dstptr := forLoop 0 1 row (fun i dstptr =>
    let src := i * srcstride
    let dst := i * dststride
    let dstptr := forLoop 0 8 (tripCount 0 colBodyLoop 8) (fun j dstptr =>
      let packBf16Value :=
        cvtFp32ToBf16 (mm256LoaduBytes srcptr (src + 4 * j)) bf16AndHelper bf16AddHelper
      mmStoreuSi128 dstptr (dst + j * 2) packBf16Value) dstptr
    let dstptr := forLoop colBodyLoop 1 (tripCount colBodyLoop col 1) (fun j dstptr =>
      storeBf16 dstptr (dst + 2 * j) (fromfloat (fp32At srcptr (src + 4 * j)))) dstptr
    if zeropadding && npadding != 0 then dstptr.store (dst + col * 2) npadding fun _ => 0
    else dstptr) dstptr
  (.success, dstptr)

/-- The bf16 the narrowing writes for float `j` of a row: the vector body's rounding below
`col / 8 * 8`, `fromfloat` above. -/
def fp32CvtBf16At (fromfloat : BitVec 32 → BitVec 16) (col j : Nat) (x : BitVec 32) : BitVec 16 :=
  if j < col / 8 * 8 then bf16RoundBias x else fromfloat x

/-- Byte `t` of row `i` after `fp32_cvt_bf16_2D_write_back`: byte `t % 2` of the bf16 of float
`t / 2` of the row, or a padding zero. -/
def fp32CvtBf16Row (fromfloat : BitVec 32 → BitVec 16) (srcptr : Buf Byte) (srcstride col i t : Nat) :
    Byte :=
  if t < 2 * col then
    leBytes (fp32CvtBf16At fromfloat col (t / 2) (fp32At srcptr (i * srcstride + 4 * (t / 2)))).toNat
      (t % 2)
  else 0

/-- Lane `l` of eight floats loaded from byte memory is the float at byte `p + 4 * l`. -/
theorem mm256LoaduBytes_apply (mem : Buf Byte) (p l : Nat) :
    mm256LoaduBytes mem p l = fp32At mem (p + 4 * l) := by
  simp only [mm256LoaduBytes, ofBytes256, fp32At, lane32, Nat.mul_zero, Nat.add_zero, Nat.zero_add,
    Nat.add_assoc]

/-- Row by row, the narrowing writes the bf16 of every float of the window and, with
`zeropadding`, zeros up to the next row; nothing else. -/
theorem fp32CvtBf16_2DWriteBack_eq (fromfloat : BitVec 32 → BitVec 16) (srcptr dstptr : Buf Byte)
    {row col srcstride dststride : Nat} (hd : 2 * col ≤ dststride) (zeropadding : Bool) :
    fp32CvtBf16_2DWriteBack fromfloat srcptr dstptr row col srcstride dststride zeropadding
      = (.success, dstptr.window dststride (if zeropadding then dststride else 2 * col) row
          (fp32CvtBf16Row fromfloat srcptr srcstride col)) := by
  simp only [fp32CvtBf16_2DWriteBack, Prod.mk.injEq, true_and]
  refine Buf.forLoop_rows _ (by split_ifs <;> omega) _ _ _ fun i d _ => ?_
  have hrow := @row_store_scaled _ (fun j dstptr => mmStoreuSi128 dstptr (i * dststride + j * 2)
      (cvtFp32ToBf16 (mm256LoaduBytes srcptr (i * srcstride + 4 * j)) (mm256Set1Epi32 1#32)
        (mm256Set1Epi32 0x7fff#32)))
    (fun j dstptr => storeBf16 dstptr (i * dststride + 2 * j)
      (fromfloat (fp32At srcptr (i * srcstride + 4 * j))))
    d (i * dststride) col 2 (fp32CvtBf16Row fromfloat srcptr srcstride col i)
    (fun k d hk => by
      simp only [mmStoreuSi128, Nat.zero_add, Nat.mul_comm (k * 8) 2]
      refine Buf.store_congr _ _ _ fun t ht => ?_
      rw [cvtFp32ToBf16_apply _ ht, mm256LoaduBytes_apply, fp32CvtBf16Row, if_pos (by omega),
        show (2 * (k * 8) + t) / 2 = k * 8 + t / 2 by omega, show (2 * (k * 8) + t) % 2 = t % 2 by omega,
        fp32CvtBf16At, if_pos (by omega), Nat.mul_add, Nat.add_assoc])
    (fun k d hk => by
      simp only [storeBf16, Nat.mul_one]
      refine Buf.store_congr _ _ _ fun t ht => ?_
      rw [fp32CvtBf16Row, if_pos (by omega), show (2 * (col / 8 * 8 + k) + t) / 2 = col / 8 * 8 + k by omega,
        show (2 * (col / 8 * 8 + k) + t) % 2 = t by omega, fp32CvtBf16At, if_neg (by omega)])
  simp only at hrow
  rw [hrow]
  by_cases hz : zeropadding = true ∧ dststride - col * 2 ≠ 0
  · rw [if_pos (by simpa using hz), if_pos hz.1, Nat.mul_comm col 2, store_pad fun t ht => by
      rw [fp32CvtBf16Row, if_neg (by omega)], show 2 * col + (dststride - 2 * col) = dststride by omega]
  · rw [if_neg (by simpa using hz)]
    cases zeropadding
    · rfl
    · rw [if_pos rfl, show dststride = 2 * col by simp at hz; omega]

/-- The bf16 at element `j` of row `i` after the narrowing is the one `fp32CvtBf16At` gives of
float `j` of the row. -/
theorem fp32CvtBf16_2DWriteBack_bf16At (fromfloat : BitVec 32 → BitVec 16) (srcptr dstptr : Buf Byte)
    {row col srcstride dststride : Nat} (hd : 2 * col ≤ dststride) (zeropadding : Bool) {i j : Nat}
    (hi : i < row) (hj : j < col) :
    bf16At (fp32CvtBf16_2DWriteBack fromfloat srcptr dstptr row col srcstride dststride zeropadding).2
        (i * dststride + 2 * j)
      = fp32CvtBf16At fromfloat col j (fp32At srcptr (i * srcstride + 4 * j)) := by
  rw [fp32CvtBf16_2DWriteBack_eq fromfloat srcptr dstptr hd zeropadding]
  have hw : 2 * col ≤ if zeropadding then dststride else 2 * col := by split_ifs <;> omega
  refine bf16At_of_leBytes fun k hk => ?_
  dsimp only
  rw [Nat.add_assoc, Buf.window_apply _ (by split_ifs <;> omega) _ hi (by omega), fp32CvtBf16Row,
    if_pos (by omega), show (2 * j + k) / 2 = j by omega, show (2 * j + k) % 2 = k by omega]

/-- **The narrowing rounds its vector body half to even.** Every float of a row's 8-wide body
becomes its bit pattern over `2^16` rounded to nearest, ties to even; every float of the scalar
tail becomes its `fromfloat`. -/
theorem fp32CvtBf16_2DWriteBack_rounding (fromfloat : BitVec 32 → BitVec 16) (srcptr dstptr : Buf Byte)
    {row col srcstride dststride : Nat} (hd : 2 * col ≤ dststride) (zeropadding : Bool) :
    let r := fp32CvtBf16_2DWriteBack fromfloat srcptr dstptr row col srcstride dststride zeropadding
    r.1 = .success ∧
    (∀ i j, i < row → j < col / 8 * 8 →
      ((bf16At r.2 (i * dststride + 2 * j)).toNat : Int)
        = roundHalfEven ((fp32At srcptr (i * srcstride + 4 * j)).toNat / 65536 : ℚ) % 65536) ∧
    ∀ i j, i < row → col / 8 * 8 ≤ j → j < col →
      bf16At r.2 (i * dststride + 2 * j) = fromfloat (fp32At srcptr (i * srcstride + 4 * j)) := by
  refine ⟨congrArg Prod.fst (fp32CvtBf16_2DWriteBack_eq fromfloat srcptr dstptr hd zeropadding),
    fun i j hi hj => ?_, fun i j hi hj hj' => ?_⟩
  · rw [fp32CvtBf16_2DWriteBack_bf16At _ _ _ hd _ hi (by omega), fp32CvtBf16At, if_pos hj,
      bf16RoundBias_roundHalfEven]
  · rw [fp32CvtBf16_2DWriteBack_bf16At _ _ _ hd _ hi hj', fp32CvtBf16At, if_neg (by omega)]

/-- One row of nine floats, narrowed with the spec's `fromfloat`. The first two patterns,
`0x00018000` and `0x00028000`, lie halfway between bf16 patterns `1` and `2` and between `2` and
`3`: ties to even send both to `2`. The ninth, `0x3f80c000` in the scalar tail, is past halfway
and `fromfloat` rounds it up to `0x3f81`. -/
theorem fp32CvtBf16_2DWriteBack_rounding_ties :
    let src : Buf Byte := fun t => byteOf ((if t < 32 then [0x00, 0x80, 0x01, 0x00, 0x00, 0x80, 0x02, 0x00]
      else [0x00, 0xc0, 0x80, 0x3f]).getD (t % 32) 0)
    let r := fp32CvtBf16_2DWriteBack bf16Fromfloat src (fun _ => 0) 1 9 36 18 false
    (bf16At r.2 0).toNat = 2 ∧ (bf16At r.2 2).toNat = 2 ∧ bf16At r.2 16 = 0x3f81#16 := by
  intro src r
  obtain ⟨-, h, ht⟩ := @fp32CvtBf16_2DWriteBack_rounding bf16Fromfloat src (fun _ => 0) 1 9 36 18
    (by decide) false
  have h0 := h 0 0 (by decide) (by decide)
  have h1 := h 0 1 (by decide) (by decide)
  rw [show (fp32At src (0 * 36 + 4 * 0)).toNat = 98304 by decide] at h0
  rw [show (fp32At src (0 * 36 + 4 * 1)).toNat = 163840 by decide] at h1
  norm_num [roundHalfEven] at h0 h1
  exact ⟨by exact_mod_cast h0, by exact_mod_cast h1, (ht 0 8 (by decide) (by decide) (by decide)).trans
    (by decide)⟩

/-- **The narrowed vector body lies within half a bf16 step of the floats.** Widened back, the
bf16 the 8-wide body writes for a float that does not round up to an infinity has the float's
sign and lies within `2^-8` of it relatively, or `2^-134` for a subnormal float. -/
theorem fp32CvtBf16_2DWriteBack_error (fromfloat : BitVec 32 → BitVec 16) (srcptr dstptr : Buf Byte)
    {row col srcstride dststride : Nat} (hd : 2 * col ≤ dststride) (zeropadding : Bool) {i j : Nat}
    (hi : i < row) (hj : j < col / 8 * 8)
    (hfin : (fp32At srcptr (i * srcstride + 4 * j)).toNat % 2 ^ 31 < 0x7f7f8000) :
    ∃ v v', fp32Value (fp32At srcptr (i * srcstride + 4 * j)) = some v ∧
      fp32Value (bf16Tofloat (bf16At (fp32CvtBf16_2DWriteBack fromfloat srcptr dstptr row col
        srcstride dststride zeropadding).2 (i * dststride + 2 * j))) = some v' ∧
      0 ≤ v * v' ∧ |v - v'| ≤ if (fp32At srcptr (i * srcstride + 4 * j)).toNat / 2 ^ 23 % 256 = 0
        then 2 ^ (-134 : ℤ) else |v| / 256 := by
  rw [fp32CvtBf16_2DWriteBack_bf16At _ _ _ hd _ hi (by omega), fp32CvtBf16At, if_pos hj]
  exact bf16RoundBias_value _ hfin

/-- The float `0x3f80c000`, `1 + 3 * 2^-9`, at the head of a row of eight: its low half is over
`0x8000`, so it narrows up to `0x3f81`, and the widened bf16 is within `2^-8` of it. -/
theorem fp32CvtBf16_2DWriteBack_error_near_one :
    let src : Buf Byte := fun t => if t % 4 = 1 then 0xc0 else if t % 4 = 2 then 0x80 else
      if t % 4 = 3 then 0x3f else 0
    ∃ v v', fp32Value (fp32At src 0) = some v ∧
      fp32Value (bf16Tofloat (bf16At (fp32CvtBf16_2DWriteBack (fun _ => 0) src (fun _ => 0) 1 8 32 16
        false).2 0)) = some v' ∧ 0 ≤ v * v' ∧ |v - v'| ≤ |v| / 256 := by
  intro src
  have h := @fp32CvtBf16_2DWriteBack_error (fun _ => 0) src (fun _ => 0) 1 8 32 16 (by decide) false 0 0
    (by decide) (by decide) (by decide)
  simp only [show ¬(fp32At src (0 * 32 + 4 * 0)).toNat / 2 ^ 23 % 256 = 0 by decide, if_false,
    Nat.zero_mul, Nat.mul_zero, Nat.add_zero] at h
  exact h

/-! ## The round trip -/

/-- The two bytes of a bf16 read from memory are the bytes it was read from. -/
theorem leBytes_bf16At (mem : Buf Byte) (p : Nat) {k : Nat} (hk : k < 2) :
    leBytes (bf16At mem p).toNat k = mem (p + k) := by
  have h0 := (mem p).isLt
  have h1 := (mem (p + 1)).isLt
  apply Fin.ext
  simp only [leBytes, bf16At, BitVec.toNat_ofNat, byteOf_val]
  interval_cases k <;> simp <;> omega

/-- Narrowing a widened bf16 gives it back in the body, where the bias never carries, and in the
tail unless it is a subnormal, which `fromfloat` turns into the zero of its sign. -/
theorem fp32CvtBf16At_bf16Tofloat (col j : Nat) (y : BitVec 16) :
    fp32CvtBf16At bf16Fromfloat col j (bf16Tofloat y)
      = if j < col / 8 * 8 ∨ ¬ Bf16Subnormal y then y else BitVec.ofNat 16 (y.toNat / 32768 * 32768) := by
  unfold fp32CvtBf16At
  by_cases hj : j < col / 8 * 8
  · rw [if_pos hj, if_pos (Or.inl hj), bf16RoundBias_bf16Tofloat]
  · rw [if_neg hj, bf16Fromfloat_bf16Tofloat]
    by_cases hsub : Bf16Subnormal y <;> simp [hj, hsub]

/-- A position of a row past the window's width keeps its contents. -/
theorem window_apply_of_le_col {α : Type} (b : Buf α) {ld col k i j : Nat} (v : Nat → Nat → α)
    (hj : col ≤ j) (hjl : j < ld) : b.window ld col k v (i * ld + j) = b (i * ld + j) := by
  obtain ⟨-, hm⟩ := row_col_div_mod (r := i) hjl
  simp only [Buf.window, hm, show ¬ j < col by omega, and_false, if_false]

/-- After widening a tile and narrowing it back with the widening's strides, byte `k` of bf16
`(i, j)` is byte `k` of the narrowing of the widened bf16. -/
theorem roundtrip_byte (fromfloat : BitVec 32 → BitVec 16) (a b c : Buf Byte)
    {row col srcStep dstStep : Nat} (hs : col ≤ srcStep) (hd : col ≤ dstStep) (zp zp' : Bool)
    {i j k : Nat} (hi : i < row) (hj : j < col) (hk : k < 2) :
    (fp32CvtBf16_2DWriteBack fromfloat (bf16CvtFp32_2DWriteBack a b row col srcStep dstStep zp).2 c
        row col (4 * dstStep) (2 * srcStep) zp').2 (2 * (i * srcStep + j) + k)
      = leBytes (fp32CvtBf16At fromfloat col j (bf16Tofloat (bf16At a (2 * (i * srcStep + j))))).toNat
          k := by
  have h1 := congrArg Prod.snd (@bf16CvtFp32_2DWriteBack_eq a b row col srcStep dstStep hd zp)
  have h2 := congrArg Prod.snd (@fp32CvtBf16_2DWriteBack_eq fromfloat
    (bf16CvtFp32_2DWriteBack a b row col srcStep dstStep zp).2 c row col (4 * dstStep) (2 * srcStep)
    (by omega) zp')
  dsimp only at h1 h2
  have hw1 : 4 * col ≤ if zp then 4 * dstStep else 4 * col := by split_ifs <;> omega
  have hw2 : 2 * col ≤ if zp' then 2 * srcStep else 2 * col := by split_ifs <;> omega
  -- the float the narrowing reads for bf16 `j` of row `i` is that bf16 widened
  have hfloat : fp32At (bf16CvtFp32_2DWriteBack a b row col srcStep dstStep zp).2
      (i * (4 * dstStep) + 4 * j) = bf16Tofloat (bf16At a (2 * (i * srcStep) + 2 * j)) :=
    fp32At_of_leBytes fun k hk => by
      rw [h1, Nat.add_assoc, Buf.window_apply _ (by split_ifs <;> omega) _ hi (by omega),
        bf16CvtFp32Row, if_pos (by omega), show (4 * j + k) / 4 = j by omega,
        show (4 * j + k) % 4 = k by omega]
  rw [show 2 * (i * srcStep + j) + k = i * (2 * srcStep) + (2 * j + k) by ring, h2,
    Buf.window_apply _ (by split_ifs <;> omega) _ hi (by omega), fp32CvtBf16Row, if_pos (by omega),
    show (2 * j + k) / 2 = j by omega, show (2 * j + k) % 2 = k by omega, hfloat,
    show 2 * (i * srcStep) + 2 * j = 2 * (i * srcStep + j) by ring]

end NeuralSpeed
